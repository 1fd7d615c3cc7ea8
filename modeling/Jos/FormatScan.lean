import Jos.Printfmt
import Mathlib.Data.List.Induction

/-! What a format says: a list of pieces, each printed on its own. `vprintfmt`
with its pointer into the format, which goes back over an unrecognized escape,
prints the pieces of the format one after the other. -/

namespace Jos

inductive Setting where
  | flag (f : Flag)
  | number (precision : Int)

inductive Piece where
  | literal (ch : Byte)
  | escape (settings : List Setting) (k : Conversion)

def takeNumber (precision : Int) (ch : Byte) : List Byte → Int × List Byte
  | [] => (wrap32 (precision * 10 + ch.toNat - (chr '0').toNat), [])
  | c :: l =>
    let precision := wrap32 (precision * 10 + ch.toNat - (chr '0').toNat)
    if c < chr '0' ∨ chr '9' < c then (precision, c :: l) else takeNumber precision c l

theorem takeNumber_suffix (precision : Int) (ch : Byte) (l : List Byte) :
    (takeNumber precision ch l).2 <:+ l := by
  induction l generalizing precision ch with
  | nil => simp [takeNumber]
  | cons c l ih =>
    rw [takeNumber]
    split_ifs
    · exact List.suffix_rfl
    · exact (ih _ _).trans (List.suffix_cons c l)

structure EscapeText where
  settings : List Setting
  kind : Conversion
  rest : List Byte

def EscapeText.set (f : Setting) (e : EscapeText) : EscapeText :=
  { e with settings := f :: e.settings }

/-- The end of the format is an unrecognized conversion. -/
def parseEscape : List Byte → EscapeText
  | [] => ⟨[], .unrecognized, []⟩
  | ch :: l =>
    match switchCase ch with
    | .flag f => (parseEscape l).set (.flag f)
    | .width => (parseEscape (takeNumber 0 ch l).2).set (.number (takeNumber 0 ch l).1)
    | .conversion k => ⟨[], k, l⟩
termination_by l => l.length
decreasing_by
  · exact Nat.lt_succ_self _
  · exact Nat.lt_succ_of_le (takeNumber_suffix _ _ _).length_le

theorem parseEscape_suffix (l : List Byte) : (parseEscape l).rest <:+ l := by
  induction l using parseEscape.induct with
  | case1 => simp [parseEscape]
  | case2 ch l f hs ih => simpa [parseEscape, hs, EscapeText.set] using ih.trans (List.suffix_cons ch l)
  | case3 ch l hs ih =>
    have hh := (ih.trans (takeNumber_suffix 0 ch l)).trans (List.suffix_cons ch l)
    simpa [parseEscape, hs, EscapeText.set] using hh
  | case4 ch l k hs => simp [parseEscape, hs]

/-- An unrecognized escape is a `%`, and what follows it is read as text. -/
def afterEscape (l : List Byte) : List Byte :=
  if (parseEscape l).kind = .unrecognized then l else (parseEscape l).rest

theorem afterEscape_suffix (l : List Byte) : afterEscape l <:+ l := by
  unfold afterEscape
  split_ifs
  · exact List.suffix_rfl
  · exact parseEscape_suffix l

def parse : List Byte → List Piece
  | [] => []
  | ch :: l =>
    if ch ≠ chr '%' then .literal ch :: parse l
    else .escape (parseEscape l).settings (parseEscape l).kind :: parse (afterEscape l)
termination_by l => l.length
decreasing_by
  · exact Nat.lt_succ_self _
  · exact Nat.lt_succ_of_le (afterEscape_suffix l).length_le

theorem parse_conversion {ch : Byte} {k : Conversion} (hs : switchCase ch = .conversion k)
    (hk : k ≠ .unrecognized) : parse [chr '%', ch] = [.escape [] k] := by
  simp [parse, parseEscape, afterEscape, hs, hk]

def Setting.apply (st : List Word × Escape) (f : Setting) : Option (List Word × Escape) :=
  match f with
  | .flag f => f.apply st.1 st.2
  | .number precision => some (st.1, st.2.processPrecision precision)

section Run

variable {σ : Type*} (putch : Word → σ → σ) (rom : Rom) (printfmt : CString → List Word → σ → Option σ)

def Piece.run (st : List Word × σ) (p : Piece) : Option (List Word × σ) :=
  match p with
  | .literal ch => some (st.1, putch (ch.setWidth 32) st.2)
  | .escape settings k => (settings.foldlM Setting.apply (st.1, Escape.start)).bind fun (ap, esc) =>
    convert putch rom printfmt k esc ap st.2

def runPieces (ps : List Piece) (ap : List Word) (s : σ) : Option (List Word × σ) :=
  ps.foldlM (Piece.run putch rom printfmt) (ap, s)

end Run

theorem scanNumber_eq (precision : Int) (ch : Byte) (l : List Byte) :
    ∃ c, c ++ (takeNumber precision ch l).2 = l ∧ (∀ b ∈ c, chr '0' ≤ b ∧ b ≤ chr '9') ∧
      ∀ before, scanNumber precision ch before (l ++ [0]) =
        some ((takeNumber precision ch l).1,
          ⟨c.reverse ++ before, (takeNumber precision ch l).2 ++ [0]⟩) := by
  induction l generalizing precision ch with
  | nil => exact ⟨[], rfl, by simp, fun before => rfl⟩
  | cons c l ih =>
    by_cases hc : c < chr '0' ∨ chr '9' < c
    · refine ⟨[], by simp [takeNumber, hc], by simp, fun before => ?_⟩
      simp [takeNumber, scanNumber, hc]
    · obtain ⟨cs, happ, hdig, hscan⟩ :=
        ih (wrap32 (precision * 10 + ch.toNat - (chr '0').toNat)) c
      refine ⟨c :: cs, by simpa [takeNumber, hc] using happ, ?_, fun before => ?_⟩
      · intro b hb
        rcases List.mem_cons.mp hb with rfl | hb
        · simpa using hc
        · exact hdig b hb
      · simp only [List.cons_append, scanNumber, takeNumber, if_neg hc, hscan, List.reverse_cons,
          List.append_assoc, List.nil_append]

theorem switchCase_percent : switchCase (chr '%') = .conversion .percent := by decide

theorem ne_percent_of_digit {b : Byte} (h : chr '0' ≤ b) : b ≠ chr '%' := by
  rintro rfl
  exact absurd h (by decide)

/-- Of the text `l` and its NUL the loop at `reswitch` passes `c` and leaves `r`. -/
structure Reswitched (l c r : List Byte) : Prop where
  text : c ++ r = l ++ [0]
  passed : c ≠ []
  inside : (parseEscape l).kind = .unrecognized → ∀ b ∈ c, b ≠ chr '%'
  rest : (parseEscape l).kind ≠ .unrecognized → r = (parseEscape l).rest ++ [0]
  run : ∀ before ap esc fuel, l.length < fuel →
    loop reswitch fuel ⟨⟨before, l ++ [0]⟩, ap, esc⟩ =
      ((parseEscape l).settings.foldlM Setting.apply (ap, esc)).map fun st =>
        ((parseEscape l).kind, ⟨⟨c.reverse ++ before, r⟩, st.1, st.2⟩)

theorem reswitched_nil : Reswitched [] [0] [] := by
  refine ⟨rfl, by simp, fun _ b hb => ?_, by simp [parseEscape], ?_⟩
  · rw [List.mem_singleton.mp hb]
    decide
  · intro before ap esc fuel hf
    obtain ⟨fuel, rfl⟩ := Nat.exists_eq_succ_of_ne_zero (Nat.ne_of_gt hf)
    rw [loop_leave (r := (.unrecognized, ⟨⟨0 :: before, []⟩, ap, esc⟩)) fuel (by rfl)]
    simp [parseEscape]

theorem reswitched_conversion {ch : Byte} {k : Conversion} (l : List Byte)
    (hs : switchCase ch = .conversion k) : Reswitched (ch :: l) [ch] (l ++ [0]) := by
  have hp : parseEscape (ch :: l) = ⟨[], k, l⟩ := by rw [parseEscape, hs]
  refine ⟨rfl, by simp, fun hk b hb => ?_, fun _ => by rw [hp], ?_⟩
  · rw [List.mem_singleton.mp hb]
    rintro rfl
    rw [switchCase_percent, SwitchCase.conversion.injEq] at hs
    simp [hp, ← hs] at hk
  · intro before ap esc fuel hf
    obtain ⟨fuel, rfl⟩ := Nat.exists_eq_succ_of_ne_zero (Nat.ne_of_gt (Nat.zero_lt_of_lt hf))
    rw [hp, loop_leave (r := (k, ⟨⟨ch :: before, l ++ [0]⟩, ap, esc⟩)) fuel
      (by simp [reswitch, Cursor.next, hs])]
    simp

theorem Reswitched.flag {ch : Byte} {f : Flag} {l c r : List Byte} (h : Reswitched l c r)
    (hs : switchCase ch = .flag f) : Reswitched (ch :: l) (ch :: c) r := by
  have hp : parseEscape (ch :: l) = (parseEscape l).set (.flag f) := by rw [parseEscape, hs]
  refine ⟨by simp [h.text], by simp, fun hk b hb => ?_, fun hk => ?_, ?_⟩
  · rw [hp] at hk
    rcases List.mem_cons.mp hb with rfl | hb
    · rintro rfl
      simp [switchCase_percent] at hs
    · exact h.inside hk b hb
  · rw [hp] at hk ⊢
    exact h.rest hk
  · intro before ap esc fuel hf
    obtain ⟨fuel, rfl⟩ := Nat.exists_eq_succ_of_ne_zero (Nat.ne_of_gt (Nat.zero_lt_of_lt hf))
    rw [hp]
    cases ha : f.apply ap esc with
    | none =>
      rw [loop_fault _ (by simp [reswitch, Cursor.next, hs, ha])]
      simp [EscapeText.set, Setting.apply, ha]
    | some st =>
      have hstep : reswitch ⟨⟨before, ch :: l ++ [0]⟩, ap, esc⟩ =
          some (.again ⟨⟨ch :: before, l ++ [0]⟩, st.1, st.2⟩) := by
        simp [reswitch, Cursor.next, hs, ha]
      rw [loop_again fuel hstep, h.run _ _ _ _ (by simpa using hf)]
      simp [EscapeText.set, Setting.apply, ha]

theorem Reswitched.number {ch : Byte} {l c r : List Byte} (h : Reswitched (takeNumber 0 ch l).2 c r)
    (hs : switchCase ch = .width) : ∃ c', Reswitched (ch :: l) c' r := by
  obtain ⟨cs, hcs, hdig, hscan⟩ := scanNumber_eq 0 ch l
  have hp : parseEscape (ch :: l) =
      (parseEscape (takeNumber 0 ch l).2).set (.number (takeNumber 0 ch l).1) := by
    rw [parseEscape, hs]
  refine ⟨ch :: (cs ++ c), ?_, by simp, fun hk b hb => ?_, fun hk => ?_, ?_⟩
  · rw [List.cons_append, List.append_assoc, h.text, ← List.append_assoc, hcs, List.cons_append]
  · rw [hp] at hk
    rcases List.mem_cons.mp hb with rfl | hb
    · rintro rfl
      simp [switchCase_percent] at hs
    · rcases List.mem_append.mp hb with hb | hb
      · exact ne_percent_of_digit (hdig b hb).1
      · exact h.inside hk b hb
  · rw [hp] at hk ⊢
    exact h.rest hk
  · intro before ap esc fuel hf
    obtain ⟨fuel, rfl⟩ := Nat.exists_eq_succ_of_ne_zero (Nat.ne_of_gt (Nat.zero_lt_of_lt hf))
    have hlen := (takeNumber_suffix 0 ch l).length_le
    have hstep : reswitch ⟨⟨before, ch :: l ++ [0]⟩, ap, esc⟩ =
        some (.again ⟨⟨cs.reverse ++ ch :: before, (takeNumber 0 ch l).2 ++ [0]⟩, ap,
          esc.processPrecision (takeNumber 0 ch l).1⟩) := by
      simp only [reswitch, Cursor.next, List.cons_append, Option.bind_some, hs, hscan, Option.map_some]
    rw [hp, loop_again fuel hstep, h.run _ _ _ _ (by rw [List.length_cons] at hf; omega)]
    simp [EscapeText.set, Setting.apply]

/-- The loop at `reswitch` reads the escape that the format holds. -/
theorem exists_reswitched (l : List Byte) : ∃ c r, Reswitched l c r := by
  induction l using parseEscape.induct with
  | case1 => exact ⟨_, _, reswitched_nil⟩
  | case2 ch l f hs ih =>
    obtain ⟨c, r, h⟩ := ih
    exact ⟨_, _, h.flag hs⟩
  | case3 ch l hs ih =>
    obtain ⟨c, r, h⟩ := ih
    obtain ⟨c', h'⟩ := h.number hs
    exact ⟨_, _, h'⟩
  | case4 ch l k hs => exact ⟨_, _, reswitched_conversion l hs⟩

theorem Cursor.toPercent_of_ne {c : List Byte} (hc : ∀ b ∈ c, b ≠ chr '%')
    (before after : List Byte) :
    toPercent (c.reverse ++ chr '%' :: before) after = some ⟨chr '%' :: before, c ++ after⟩ := by
  induction c using List.reverseRecOn generalizing after with
  | nil => simp [toPercent]
  | append_singleton c b ih =>
    have hb : b ≠ chr '%' := hc b (by simp)
    rw [List.reverse_append, List.reverse_singleton, List.singleton_append, List.cons_append,
      toPercent, if_neg hb, ih fun x hx => hc x (List.mem_append_left _ hx)]
    simp

/-- The format pointer never goes back beyond the `%` of its own escape. -/
theorem Cursor.rewind_eq {c : List Byte} (hne : c ≠ []) (hc : ∀ b ∈ c, b ≠ chr '%')
    (before after : List Byte) :
    rewind ⟨c.reverse ++ chr '%' :: before, after⟩ = some ⟨chr '%' :: before, c ++ after⟩ := by
  obtain ⟨c, b, rfl⟩ := (List.eq_nil_or_concat c).resolve_left hne
  rw [List.concat_eq_append] at hc ⊢
  have hh := toPercent_of_ne (fun x hx => hc x (List.mem_append_left _ hx)) before (b :: after)
  simpa [rewind, back] using hh

section Run

variable {σ : Type*} (putch : Word → σ → σ) (rom : Rom) (printfmt : CString → List Word → σ → Option σ)

/-- One turn on an escape prints its piece and goes on after it, or after its
`%` when it is unrecognized. -/
theorem vprintfmtTurn_escape (l before : List Byte) (ap : List Word) (s : σ) :
    ∃ before', vprintfmtTurn putch rom printfmt ⟨⟨before, chr '%' :: (l ++ [0])⟩, ap, s⟩ =
      (Piece.run putch rom printfmt (ap, s)
        (.escape (parseEscape l).settings (parseEscape l).kind)).map fun st =>
        .again ⟨⟨before', afterEscape l ++ [0]⟩, st.1, st.2⟩ := by
  obtain ⟨c, r, happ, hne, hun, hre, hloop⟩ := exists_reswitched l
  have hscan := hloop (chr '%' :: before) ap .start (l.length + 1 + 1) (by omega)
  have hresume : ∃ before', resume (parseEscape l).kind ⟨c.reverse ++ chr '%' :: before, r⟩ =
      some ⟨before', afterEscape l ++ [0]⟩ := by
    by_cases hk : (parseEscape l).kind = .unrecognized
    · rw [resume, afterEscape, if_pos hk, if_pos hk, Cursor.rewind_eq hne (hun hk), happ]
      exact ⟨_, rfl⟩
    · rw [resume, afterEscape, if_neg hk, if_neg hk, hre hk]
      exact ⟨_, rfl⟩
  obtain ⟨before', hbefore⟩ := hresume
  refine ⟨before', ?_⟩
  simp only [vprintfmtTurn, Cursor.next, Option.bind_some, ne_eq, not_true_eq_false, if_false,
    List.length_append, List.length_singleton, hscan, Piece.run]
  cases (parseEscape l).settings.foldlM Setting.apply (ap, Escape.start) with
  | none => rfl
  | some st =>
    simp only [Option.map_some, Option.bind_some, hbefore]
    cases convert putch rom printfmt (parseEscape l).kind st.2 st.1 s <;> rfl

theorem loop_vprintfmtTurn (l : List Byte) (hl : ∀ b ∈ l, b ≠ 0) (before : List Byte)
    (ap : List Word) (s : σ) (fuel : Nat) (hfuel : l.length < fuel) :
    (loop (vprintfmtTurn putch rom printfmt) fuel ⟨⟨before, l ++ [0]⟩, ap, s⟩).map
      (fun st => (st.ap, st.sink)) = runPieces putch rom printfmt (parse l) ap s := by
  induction l using parse.induct generalizing before ap s fuel with
  | case1 =>
    obtain ⟨fuel, rfl⟩ := Nat.exists_eq_succ_of_ne_zero (Nat.ne_of_gt hfuel)
    rw [loop_leave (r := ⟨⟨0 :: before, []⟩, ap, s⟩) fuel (by rfl)]
    simp [parse, runPieces]
  | case2 ch l hne ih =>
    obtain ⟨fuel, rfl⟩ := Nat.exists_eq_succ_of_ne_zero (Nat.ne_of_gt (Nat.zero_lt_of_lt hfuel))
    have hch : ch ≠ 0 := hl ch (by simp)
    have hturn : vprintfmtTurn putch rom printfmt ⟨⟨before, ch :: l ++ [0]⟩, ap, s⟩ =
        some (.again ⟨⟨ch :: before, l ++ [0]⟩, ap, putch (ch.setWidth 32) s⟩) := by
      simp only [vprintfmtTurn, Cursor.next, List.cons_append, Option.bind_some, if_pos hne, if_neg hch]
    rw [loop_again fuel hturn, ih (fun b hb => hl b (List.mem_cons_of_mem _ hb)) _ _ _ _
      (by simpa using hfuel), parse, if_pos hne]
    rfl
  | case3 ch l hp ih =>
    obtain ⟨fuel, rfl⟩ := Nat.exists_eq_succ_of_ne_zero (Nat.ne_of_gt (Nat.zero_lt_of_lt hfuel))
    obtain rfl := not_not.mp hp
    have hsuf := afterEscape_suffix l
    obtain ⟨before', hturn⟩ := vprintfmtTurn_escape putch rom printfmt l before ap s
    rw [parse, if_neg hp, runPieces, List.foldlM_cons]
    cases hrun : Piece.run putch rom printfmt (ap, s)
      (.escape (parseEscape l).settings (parseEscape l).kind) with
    | none =>
      rw [hrun] at hturn
      rw [List.cons_append, loop_fault _ hturn]
      rfl
    | some st =>
      rw [hrun] at hturn
      rw [List.cons_append, loop_again fuel hturn,
        ih (fun b hb => hl b (List.mem_cons_of_mem _ (hsuf.subset hb))) _ _ _ _
          (by have := hsuf.length_le; rw [List.length_cons] at hfuel; omega)]
      rfl

end Run

/-- `vprintfmt` prints the pieces of its format, whatever stands for `printfmt`. -/
theorem vprintfmtDepth_eq {σ : Type*} (putch : Word → σ → σ) (rom : Rom) (depth : Nat)
    (fmt : CString) (ap : List Word) (s : σ) :
    vprintfmtDepth putch rom (depth + 1) fmt ap s =
      (runPieces putch rom (vprintfmtDepth putch rom depth) (parse fmt.bytes) ap s).map Prod.snd := by
  rw [← loop_vprintfmtTurn putch rom _ fmt.bytes fmt.nonzero [] ap s (fmt.object.length + 1)
    (by rw [CString.object, List.length_append, List.length_singleton]; omega), Option.map_map]
  rfl

theorem parse_string : parse (cstr "%s").bytes = [.escape [] .string] := by
  rw [show (cstr "%s").bytes = [chr '%', chr 's'] by decide]
  exact parse_conversion (by decide) (by decide)

/-- A string that ends, or that is longer than a precision. -/
def ReadableTo (precision : Int) (s : List Byte) : Prop :=
  0 ∈ s ∨ 0 ≤ precision ∧ precision < s.length

theorem ReadableTo.tail {precision : Int} {ch : Byte} {p : List Byte}
    (h : ReadableTo precision (ch :: p)) (hch : ch ≠ 0) (hzero : precision ≠ 0) :
    ReadableTo (if precision < 0 then precision else precision - 1) p := by
  rcases h with hmem | ⟨hpos, hlen⟩
  · exact .inl ((List.mem_cons.mp hmem).resolve_left (Ne.symm hch))
  · rw [List.length_cons] at hlen
    right
    split_ifs <;> omega

theorem printChars_readable {σ : Type*} (putch : Word → σ → σ) (altflag : Bool) {p : List Byte}
    {precision : Int} (hp : ReadableTo precision p) (width : Int) (s : σ) :
    ∃ r, printChars putch altflag p precision width s = some r := by
  induction p generalizing precision width s with
  | nil =>
    have hfalse : ¬ ReadableTo precision [] := by simp [ReadableTo]
    exact absurd hp hfalse
  | cons ch p ih =>
    by_cases hz : ch = 0
    · exact ⟨_, by rw [printChars, if_pos hz]⟩
    rw [printChars, if_neg hz]
    dsimp only
    by_cases hzero : precision = 0
    · exact ⟨_, if_neg (by simp [hzero])⟩
    · have hgo : precision < 0 ∨ (if precision < 0 then precision else precision - 1) ≥ 0 := by
        split_ifs <;> omega
      rw [if_pos hgo]
      exact ih (hp.tail hz hzero) _ _

theorem vprintfmt_string {σ : Type*} (putch : Word → σ → σ) {rom : Rom} {p : Word} (hne : p ≠ 0)
    (hp : 0 ∈ rom.bytes p) (s : σ) : ∃ s', vprintfmt putch rom (cstr "%s") [p] s = some s' := by
  obtain ⟨r, hr⟩ := printChars_readable putch false (.inl hp : ReadableTo (-1) _) (-1) s
  have hpad : padString putch .start (rom.string p) s = some (-1, s) := if_neg (by decide)
  have hstr : printString putch .start (rom.string p) s = some ((putch 0x20)^[r.1.toNat] r.2) := by
    rw [printString, hpad, Rom.string, if_neg hne]
    exact congrArg (Option.map _) hr
  rw [vprintfmt, vprintfmtDepth_eq, parse_string]
  simp [runPieces, Piece.run, convert, vaInt, hstr]

end Jos
