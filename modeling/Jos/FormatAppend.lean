import Jos.FormatSink

/-! Formats put one after the other print one after the other: no setting and
no argument of a conversion is seen by another. -/

namespace Jos

/-- Whether the scan of a text is inside an escape when it ends. -/
def insideAfter : Bool → List Byte → Bool
  | inside, [] => inside
  | false, ch :: l => insideAfter (ch = chr '%') l
  | true, ch :: l =>
    match switchCase ch with
    | .conversion _ => insideAfter false l
    | _ => insideAfter true l

def Setting.longs (lflag : Int) (f : Setting) : Int :=
  match f with
  | .flag .long => wrap32 (lflag + 1)
  | _ => lflag

def Setting.words : Setting → Nat
  | .flag .star => 1
  | _ => 0

/-- The argument words a conversion takes after `lflag` many `l`. -/
def Conversion.words (lflag : Int) : Conversion → Nat
  | .char => 1
  | .error => 1
  | .string => 1
  | .decimal => if lflag ≥ 2 then 2 else 1
  | .unsigned => if lflag ≥ 2 then 2 else 1
  | .octal => if lflag ≥ 2 then 2 else 1
  | .pointer => 1
  | .hex => if lflag ≥ 2 then 2 else 1
  | .percent => 0
  | .unrecognized => 0

def Piece.words : Piece → Nat
  | .literal _ => 0
  | .escape settings k => (settings.map Setting.words).sum + k.words (settings.foldl Setting.longs 0)

def Piece.isOctal : Piece → Prop
  | .literal _ => False
  | .escape _ k => k = .octal

namespace CString

def EndsOutside (fmt : CString) : Prop :=
  insideAfter false fmt.bytes = false

instance (fmt : CString) : Decidable fmt.EndsOutside :=
  inferInstanceAs (Decidable (_ = _))

def NoOctal (fmt : CString) : Prop :=
  ∀ p ∈ parse fmt.bytes, ¬ p.isOctal

def words (fmt : CString) : Nat :=
  ((parse fmt.bytes).map Piece.words).sum

end CString

theorem insideAfter_conversion {ch : Byte} {k : Conversion} (hs : switchCase ch = .conversion k)
    (l : List Byte) : insideAfter true (ch :: l) = insideAfter false l := by
  simp [insideAfter, hs]

theorem insideAfter_setting {ch : Byte} (hs : ∀ k, switchCase ch ≠ .conversion k)
    (l : List Byte) : insideAfter true (ch :: l) = insideAfter true l := by
  cases hc : switchCase ch with
  | flag f => simp [insideAfter, hc]
  | width => simp [insideAfter, hc]
  | conversion k => exact absurd hc (hs k)

theorem insideAfter_text {ch : Byte} (hs : switchCase ch ≠ .conversion .percent)
    (l : List Byte) : insideAfter false (ch :: l) = insideAfter false l := by
  have hne : ch ≠ chr '%' := by
    rintro rfl
    exact hs switchCase_percent
  simp [insideAfter, hne]

theorem switchCase_digit {b : Byte} (hb : ¬ (b < chr '0' ∨ chr '9' < b)) (k : Conversion) :
    switchCase b ≠ .conversion k := by
  rw [not_or, BitVec.not_lt, BitVec.not_lt] at hb
  by_cases hz : b = chr '0'
  · subst hz
    simp [show switchCase (chr '0') = .flag .zero by decide]
  · have hne : b ≠ chr '-' := by
      rintro rfl
      exact absurd hb.1 (by decide)
    have hge : chr '1' ≤ b := by
      simp only [chr, BitVec.le_def, ← BitVec.toNat_inj] at hb hz ⊢
      simp at hb hz ⊢
      omega
    rw [switchCase, if_neg hne, if_neg hz, if_pos ⟨hge, hb.2⟩]
    simp

theorem insideAfter_takeNumber (inside : Bool) (precision : Int) (ch : Byte) (l : List Byte) :
    insideAfter inside (takeNumber precision ch l).2 = insideAfter inside l := by
  induction l generalizing precision ch with
  | nil => rfl
  | cons c l ih =>
    rw [takeNumber]
    split_ifs with hc
    · rfl
    · have hd := switchCase_digit hc
      cases inside with
      | false => rw [ih, insideAfter_text (hd _)]
      | true => rw [ih, insideAfter_setting hd]

theorem takeNumber_append (precision : Int) (ch : Byte) (l t : List Byte)
    (h : insideAfter true l = false) : takeNumber precision ch (l ++ t) =
      ((takeNumber precision ch l).1, (takeNumber precision ch l).2 ++ t) := by
  induction l generalizing precision ch with
  | nil => simp [insideAfter] at h
  | cons c l ih =>
    simp only [List.cons_append, takeNumber]
    split_ifs with hc
    · rfl
    · exact ih _ _ (by rwa [insideAfter_setting (switchCase_digit hc)] at h)

theorem insideAfter_rest (l : List Byte) (h : insideAfter true l = false) :
    insideAfter false (parseEscape l).rest = false := by
  induction l using parseEscape.induct with
  | case1 => simp [insideAfter] at h
  | case2 ch l f hs ih =>
    rw [insideAfter_setting (by simp [hs])] at h
    simpa [parseEscape, hs, EscapeText.set] using ih h
  | case3 ch l hs ih =>
    rw [insideAfter_setting (by simp [hs])] at h
    simpa [parseEscape, hs, EscapeText.set] using ih (by rwa [insideAfter_takeNumber])
  | case4 ch l k hs =>
    rw [insideAfter_conversion hs] at h
    simpa [parseEscape, hs] using h

/-- Nothing in an unrecognized escape opens another one. -/
theorem insideAfter_unrecognized (l : List Byte) (hk : (parseEscape l).kind = .unrecognized) :
    insideAfter false l = insideAfter false (parseEscape l).rest := by
  induction l using parseEscape.induct with
  | case1 => simp [parseEscape]
  | case2 ch l f hs ih =>
    simp only [parseEscape, hs, EscapeText.set] at hk ⊢
    rw [insideAfter_text (by simp [hs]), ih hk]
  | case3 ch l hs ih =>
    simp only [parseEscape, hs, EscapeText.set] at hk ⊢
    rw [insideAfter_text (by simp [hs]), ← ih hk, insideAfter_takeNumber]
  | case4 ch l k hs =>
    simp only [parseEscape, hs] at hk ⊢
    rw [insideAfter_text (by simp [hs, hk])]

theorem insideAfter_afterEscape (l : List Byte) (h : insideAfter true l = false) :
    insideAfter false (afterEscape l) = false := by
  unfold afterEscape
  split_ifs with hk
  · rw [insideAfter_unrecognized l hk, insideAfter_rest l h]
  · exact insideAfter_rest l h

theorem parseEscape_append (l t : List Byte) (h : insideAfter true l = false) :
    parseEscape (l ++ t) =
      ⟨(parseEscape l).settings, (parseEscape l).kind, (parseEscape l).rest ++ t⟩ := by
  induction l using parseEscape.induct with
  | case1 => simp [insideAfter] at h
  | case2 ch l f hs ih =>
    rw [insideAfter_setting (by simp [hs])] at h
    simp [parseEscape, hs, EscapeText.set, ih h]
  | case3 ch l hs ih =>
    rw [insideAfter_setting (by simp [hs])] at h
    have hh := ih (by rwa [insideAfter_takeNumber])
    simp [parseEscape, hs, EscapeText.set, takeNumber_append 0 ch l t h, hh]
  | case4 ch l k hs => simp [parseEscape, hs]

theorem parse_append (l t : List Byte) (h : insideAfter false l = false) :
    parse (l ++ t) = parse l ++ parse t := by
  induction l using parse.induct with
  | case1 => simp [parse]
  | case2 ch l hne ih =>
    have hl : insideAfter false l = false := by simpa [insideAfter, hne] using h
    rw [List.cons_append, parse, if_pos hne, ih hl, parse, if_pos hne, List.cons_append]
  | case3 ch l hp ih =>
    have hl : insideAfter true l = false := by simpa [insideAfter, not_not.mp hp] using h
    have hafter : afterEscape (l ++ t) = afterEscape l ++ t := by
      simp only [afterEscape, parseEscape_append l t hl]
      split_ifs <;> rfl
    rw [List.cons_append, parse, if_neg hp, hafter, ih (insideAfter_afterEscape l hl), parse,
      if_neg hp, parseEscape_append l t hl, List.cons_append]

theorem Setting.apply_append {f : Setting} {a : List Word} (ha : a.length = f.words) (esc : Escape)
    (b : List Word) :
    f.apply (a ++ b, esc) = (f.apply (a, esc)).map fun st => (b, st.2) := by
  match f, a, ha with
  | .flag .star, [w], _ => rfl
  | .flag .right, [], _ => rfl
  | .flag .zero, [], _ => rfl
  | .flag .dot, [], _ => rfl
  | .flag .alt, [], _ => rfl
  | .flag .long, [], _ => rfl
  | .number precision, [], _ => rfl

theorem Setting.apply_lflag {f : Setting} {st st' : List Word × Escape} (h : f.apply st = some st') :
    st'.2.lflag = f.longs st.2.lflag := by
  have hpp : ∀ (esc : Escape) p, (esc.processPrecision p).lflag = esc.lflag := by
    intro esc p
    unfold Escape.processPrecision
    split_ifs <;> rfl
  cases f with
  | number precision => simpa [← Option.some.inj h, Setting.longs] using hpp _ _
  | flag f =>
    cases f with
    | star =>
      obtain ⟨⟨w, ap⟩, -, rfl⟩ := Option.map_eq_some_iff.mp h
      exact hpp _ _
    | right => rw [← Option.some.inj h]; rfl
    | zero => rw [← Option.some.inj h]; rfl
    | dot => rw [← Option.some.inj h]; rfl
    | alt => rw [← Option.some.inj h]; rfl
    | long => rw [← Option.some.inj h]; rfl

theorem foldlM_lflag {settings : List Setting} {st st' : List Word × Escape}
    (h : settings.foldlM Setting.apply st = some st') :
    st'.2.lflag = settings.foldl Setting.longs st.2.lflag := by
  induction settings generalizing st with
  | nil => rw [← Option.some.inj h]; rfl
  | cons f settings ih =>
    obtain ⟨st₁, h₁, h₂⟩ := Option.bind_eq_some_iff.mp h
    rw [ih h₂, Setting.apply_lflag h₁, List.foldl_cons]

theorem exists_append_of_length {α : Type*} {a : List α} {m n : Nat} (h : a.length = m + n) :
    ∃ a₁ a₂, a = a₁ ++ a₂ ∧ a₁.length = m ∧ a₂.length = n :=
  ⟨a.take m, a.drop m, (List.take_append_drop _ _).symm, by rw [List.length_take]; omega,
    by rw [List.length_drop]; omega⟩

theorem foldlM_take {α ε : Type*} (step : List Word × ε → α → Option (List Word × ε)) (words : α → Nat)
    (xs : List α) (hstep : ∀ x ∈ xs, ∀ (a b : List Word) e, a.length = words x →
      step (a ++ b, e) x = (step (a, e) x).map fun st => (b, st.2))
    (a b : List Word) (e : ε) (ha : a.length = (xs.map words).sum) :
    xs.foldlM step (a ++ b, e) = (xs.foldlM step (a, e)).map fun st => (b, st.2) := by
  induction xs generalizing a e with
  | nil =>
    obtain rfl := List.eq_nil_of_length_eq_zero (by simpa using ha)
    rfl
  | cons x xs ih =>
    rw [List.map_cons, List.sum_cons] at ha
    obtain ⟨a₁, a₂, rfl, h₁, h₂⟩ := exists_append_of_length ha
    have hx := hstep x (by simp)
    rw [List.foldlM_cons, List.foldlM_cons, List.append_assoc, hx a₁ (a₂ ++ b) e h₁, hx a₁ a₂ e h₁]
    cases step (a₁, e) x with
    | none => rfl
    | some st => exact ih (fun y hy => hstep y (List.mem_cons_of_mem _ hy)) a₂ st.2 h₂

theorem foldlM_settings_append {settings : List Setting} {a : List Word}
    (ha : a.length = (settings.map Setting.words).sum) (esc : Escape) (b : List Word) :
    settings.foldlM Setting.apply (a ++ b, esc) =
      (settings.foldlM Setting.apply (a, esc)).map fun st => (b, st.2) :=
  foldlM_take Setting.apply Setting.words settings (fun _ _ _ b e h => Setting.apply_append h e b) a b
    esc ha

theorem getuint_append {a : List Word} {lflag : Int} (ha : a.length = if lflag ≥ 2 then 2 else 1)
    (b : List Word) : getuint (a ++ b) lflag = (getuint a lflag).map fun st => (st.1, b) := by
  unfold getuint
  split_ifs at ha ⊢ with hl
  · match a, ha with
    | [lo, hi], _ => rfl
  · match a, ha with
    | [w], _ => rfl

theorem getint_append {a : List Word} {lflag : Int} (ha : a.length = if lflag ≥ 2 then 2 else 1)
    (b : List Word) : getint (a ++ b) lflag = (getint a lflag).map fun st => (st.1, b) := by
  unfold getint
  split_ifs at ha ⊢ with hl
  · match a, ha with
    | [lo, hi], _ => rfl
  · match a, ha with
    | [w], _ => rfl

section Run

variable {σ : Type*} (putch : Word → σ → σ) (rom : Rom) (printfmt : CString → List Word → σ → Option σ)

theorem convert_append {k : Conversion} (hk : k ≠ .octal) {esc : Escape} {a : List Word}
    (ha : a.length = k.words esc.lflag) (b : List Word) (s : σ) :
    convert putch rom printfmt k esc (a ++ b) s =
      (convert putch rom printfmt k esc a s).map fun st => (b, st.2) := by
  cases k with
  | octal => exact absurd rfl hk
  | decimal => simp [convert, getint_append ha, Option.bind_map, Option.map_bind, Function.comp_def]
  | unsigned => simp [convert, getuint_append ha, Option.bind_map, Option.map_bind, Function.comp_def]
  | hex => simp [convert, getuint_append ha, Option.bind_map, Option.map_bind, Function.comp_def]
  | percent =>
    obtain rfl := List.eq_nil_of_length_eq_zero ha
    rfl
  | unrecognized =>
    obtain rfl := List.eq_nil_of_length_eq_zero ha
    rfl
  | char | error | string | pointer =>
    obtain ⟨w, rfl⟩ := List.length_eq_one_iff.mp ha
    simp [convert, vaInt, Function.comp_def]

theorem Piece.run_append {p : Piece} (hp : ¬ p.isOctal) {a : List Word} (ha : a.length = p.words)
    (b : List Word) (s : σ) :
    p.run putch rom printfmt (a ++ b, s) = (p.run putch rom printfmt (a, s)).map fun st =>
      (b, st.2) := by
  cases p with
  | literal ch =>
    obtain rfl := List.eq_nil_of_length_eq_zero ha
    rfl
  | escape settings k =>
    obtain ⟨a₁, a₂, rfl, h₁, h₂⟩ := exists_append_of_length ha
    simp only [Piece.run, List.append_assoc, foldlM_settings_append h₁]
    cases hset : settings.foldlM Setting.apply (a₁, Escape.start) with
    | none => rfl
    | some st =>
      have hl : st.2.lflag = settings.foldl Setting.longs 0 := foldlM_lflag hset
      exact convert_append putch rom printfmt hp (hl ▸ h₂) b s

theorem runPieces_append {ps : List Piece} (hps : ∀ p ∈ ps, ¬ p.isOctal) {a : List Word}
    (ha : a.length = (ps.map Piece.words).sum) (qs : List Piece) (b : List Word) (s : σ) :
    runPieces putch rom printfmt (ps ++ qs) (a ++ b) s =
      (runPieces putch rom printfmt ps a s).bind fun st => runPieces putch rom printfmt qs b st.2 := by
  have hh := foldlM_take (Piece.run putch rom printfmt) Piece.words ps
    (fun p hp a b s ha => Piece.run_append putch rom printfmt (hps p hp) ha b s) a b s ha
  rw [runPieces, List.foldlM_append, hh]
  cases h : ps.foldlM (Piece.run putch rom printfmt) (a, s) <;> simp [runPieces, h]

end Run

/-- Formatting is compositional: after a format that ends outside escapes and
has its own arguments, another one prints as it does alone. -/
theorem vprintfmt_append (rom : Rom) (fmt₁ fmt₂ : CString) (ap₁ ap₂ : List Word)
    (hout : fmt₁.EndsOutside) (hoctal : fmt₁.NoOctal) (hlen : ap₁.length = fmt₁.words) :
    putchCalls rom (fmt₁ ++ fmt₂) (ap₁ ++ ap₂) =
      (putchCalls rom fmt₁ ap₁).bind fun calls₁ =>
      (putchCalls rom fmt₂ ap₂).map fun calls₂ => calls₁ ++ calls₂ := by
  have hrun : putchCalls rom (fmt₁ ++ fmt₂) (ap₁ ++ ap₂) = (putchCalls rom fmt₁ ap₁).bind fun calls₁ =>
      vprintfmt (fun c calls => calls ++ [c]) rom fmt₂ ap₂ calls₁ := by
    simp only [putchCalls, vprintfmt, vprintfmtDepth_eq, CString.append_bytes,
      parse_append _ _ hout, runPieces_append _ _ _ hoctal hlen, Option.bind_map, Option.map_bind]
    rfl
  have hcalls : ∀ calls : List Word, vprintfmt (fun c calls => calls ++ [c]) rom fmt₂ ap₂ calls =
      (putchCalls rom fmt₂ ap₂).map fun calls₂ => calls ++ calls₂ :=
    vprintfmt_from rom fmt₂ ap₂
  simp only [hrun, hcalls]

theorem vprintfmt_append_star :
    putchCalls default (cstr "%*d" ++ cstr "%c") ([3, 7] ++ [0x41]) = some [0x20, 0x20, 0x37, 0x41] := by
  have hparse : parse (cstr "%*d").bytes = [.escape [.flag .star] .decimal] := by
    rw [show (cstr "%*d").bytes = [chr '%', chr '*', chr 'd'] by decide]
    simp [parse, afterEscape, parseEscape, EscapeText.set,
      show switchCase (chr '*') = .flag .star by decide,
      show switchCase (chr 'd') = .conversion .decimal by decide]
  refine (vprintfmt_append default (cstr "%*d") (cstr "%c") [3, 7] [0x41] (by decide) ?_ ?_).trans
    (by decide)
  · simp [CString.NoOctal, hparse, Piece.isOctal]
  · simp [CString.words, hparse, Piece.words, Setting.words, Setting.longs, Conversion.words]

end Jos
