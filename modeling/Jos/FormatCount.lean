import Jos.FormatSink

/-! How many characters a format prints, and which formats print none. -/

namespace Jos

def count (_ : Word) (n : Nat) : Nat :=
  n + 1

theorem iterate_count (c : Word) (k n : Nat) : (count c)^[k] n = n + k := by
  induction k generalizing n with
  | zero => rfl
  | succ k ih =>
    rw [Function.iterate_succ_apply, ih, count]
    omega

def Escape.WidthFits (esc : Escape) : Prop :=
  esc.width < 2 ^ 31

theorem wrap32_lt (i : Int) : wrap32 i < 2 ^ 31 :=
  Int.bmod_lt (by decide)

theorem Escape.WidthFits.processPrecision {esc : Escape} (h : esc.WidthFits) {p : Int}
    (hp : p < 2 ^ 31) : (esc.processPrecision p).WidthFits := by
  unfold Escape.processPrecision
  split_ifs
  · exact hp
  · exact h

def Setting.Fits : Setting → Prop
  | .flag _ => True
  | .number precision => precision < 2 ^ 31

theorem Setting.apply_widthFits {f : Setting} (hf : f.Fits) {st st' : List Word × Escape}
    (h : f.apply st = some st') (hst : st.2.WidthFits) : st'.2.WidthFits := by
  cases f with
  | number precision =>
    rw [← Option.some.inj h]
    exact hst.processPrecision hf
  | flag f =>
    cases f with
    | star =>
      obtain ⟨⟨w, ap⟩, -, rfl⟩ := Option.map_eq_some_iff.mp h
      exact hst.processPrecision (BitVec.toInt_lt (x := w))
    | dot =>
      rw [← Option.some.inj h]
      show (if st.2.width < 0 then 0 else st.2.width) < 2 ^ 31
      split_ifs
      · decide
      · exact hst
    | right | zero | alt | long =>
      rw [← Option.some.inj h]
      exact hst

theorem foldlM_widthFits {settings : List Setting} (hs : ∀ f ∈ settings, f.Fits)
    {st st' : List Word × Escape} (h : settings.foldlM Setting.apply st = some st')
    (hst : st.2.WidthFits) : st'.2.WidthFits := by
  induction settings generalizing st with
  | nil => rwa [← Option.some.inj h]
  | cons f settings ih =>
    obtain ⟨st₁, h₁, h₂⟩ := Option.bind_eq_some_iff.mp h
    exact ih (fun g hg => hs g (List.mem_cons_of_mem _ hg)) h₂
      (Setting.apply_widthFits (hs f (by simp)) h₁ hst)

theorem takeNumber_lt (precision : Int) (ch : Byte) (l : List Byte) :
    (takeNumber precision ch l).1 < 2 ^ 31 := by
  induction l generalizing precision ch with
  | nil => exact wrap32_lt _
  | cons c l ih =>
    rw [takeNumber]
    split_ifs
    · exact wrap32_lt _
    · exact ih _ _

theorem parseEscape_fits (l : List Byte) : ∀ f ∈ (parseEscape l).settings, f.Fits := by
  induction l using parseEscape.induct with
  | case1 => simp [parseEscape]
  | case2 ch l f hs ih => simpa [parseEscape, hs, EscapeText.set, Setting.Fits] using ih
  | case3 ch l hs ih =>
    simpa [parseEscape, hs, EscapeText.set, Setting.Fits] using ⟨takeNumber_lt 0 ch l, ih⟩
  | case4 ch l k hs => simp [parseEscape, hs]

def Piece.Fits : Piece → Prop
  | .literal _ => True
  | .escape settings _ => ∀ f ∈ settings, f.Fits

theorem parse_fits (l : List Byte) : ∀ p ∈ parse l, p.Fits := by
  induction l using parse.induct with
  | case1 => simp [parse]
  | case2 ch l hne ih => simpa [parse, hne, Piece.Fits] using ih
  | case3 ch l hp ih =>
    rw [parse, if_neg hp]
    intro p hp'
    rcases List.mem_cons.mp hp' with rfl | hp'
    · exact parseEscape_fits l
    · exact ih p hp'

theorem printnum_count {base : Nat} {padc : Byte} {fuel num : Nat} {width : Int} {n n' : Nat}
    (h : printnum count base padc fuel num width n = some n') : n < n' := by
  induction fuel generalizing num width n n' with
  | zero => simp [printnum] at h
  | succ fuel ih =>
    simp only [printnum] at h
    obtain ⟨m, hm, hd⟩ := Option.bind_eq_some_iff.mp h
    obtain ⟨d, -, rfl⟩ := Option.map_eq_some_iff.mp hd
    have hle : n ≤ m := by
      split_ifs at hm
      · exact (ih hm).le
      · rw [iterate_count, Option.some.injEq] at hm
        omega
    exact Nat.lt_succ_of_le hle

theorem printDecimal_count {num : BitVec 64} {esc : Escape} {n n' : Nat}
    (h : printDecimal count num esc n = some n') : n < n' := by
  unfold printDecimal at h
  split_ifs at h
  · exact (Nat.lt_succ_self n).trans (printnum_count h)
  · exact printnum_count h

theorem printChars_count {altflag : Bool} {p : List Byte} {precision width width' : Int} {n n' : Nat}
    (h : printChars count altflag p precision width n = some (width', n')) :
    n ≤ n' ∧ (n' = n ↔ p.head? = some 0 ∨ precision = 0) ∧ (n' = n → width' = width) := by
  induction p generalizing precision width n with
  | nil => simp [printChars] at h
  | cons ch p ih =>
    by_cases hz : ch = 0
    · rw [printChars, if_pos hz] at h
      obtain ⟨rfl, rfl⟩ := Prod.mk.inj (Option.some.inj h)
      simp [hz]
    rw [printChars, if_neg hz] at h
    dsimp only at h
    have hhead : (ch :: p).head? ≠ some 0 := by simpa using hz
    by_cases hgo : precision < 0 ∨ (if precision < 0 then precision else precision - 1) ≥ 0
    · rw [if_pos hgo] at h
      have hne : precision ≠ 0 := by split_ifs at hgo <;> omega
      have hlt : n < n' := (ih h).1
      exact ⟨hlt.le, ⟨fun he => absurd he hlt.ne', fun he => absurd (he.resolve_left hhead) hne⟩,
        fun he => absurd he hlt.ne'⟩
    · rw [if_neg hgo] at h
      obtain ⟨rfl, rfl⟩ := Prod.mk.inj (Option.some.inj h)
      have hzero : precision = 0 := by split_ifs at hgo <;> omega
      simp [hzero]

theorem strnlen_empty {p : List Byte} {size k : Nat} (h : strnlen p size = some k)
    (hempty : p.head? = some 0 ∨ size = 0) : k = 0 := by
  match size, p with
  | 0, _ => simpa [strnlen] using h.symm
  | size + 1, [] => simp [strnlen] at h
  | size + 1, c :: p =>
    have hc : c = 0 := by simpa using hempty
    rw [strnlen, if_pos hc] at h
    exact (Option.some.inj h).symm

theorem padString_count {esc : Escape} (hesc : esc.WidthFits) {p : List Byte} {n n' : Nat} {width : Int}
    (h : padString count esc p n = some (width, n')) :
    n ≤ n' ∧ (esc.width ≤ 0 → n' = n ∧ width = esc.width) ∧
      (0 < esc.width → n < n' ∨ 0 < width ∨ ¬ (p.head? = some 0 ∨ esc.precision = 0)) := by
  unfold padString at h
  split_ifs at h with hleft
  · obtain ⟨k, hk, h⟩ := Option.map_eq_some_iff.mp h
    obtain ⟨rfl, rfl⟩ := Prod.mk.inj h
    rw [iterate_count]
    refine ⟨Nat.le_add_right _ _, fun hw => absurd hleft.1 (by omega), fun hw => ?_⟩
    by_cases hempty : p.head? = some 0 ∨ esc.precision = 0
    · have hk0 : k = 0 := strnlen_empty hk (hempty.imp_right fun h => by rw [h]; rfl)
      left
      have hwrap : wrap32 (esc.width - k) = esc.width := by
        rw [hk0, Nat.cast_zero, Int.sub_zero]
        exact Int.bmod_eq_of_le (by omega) (by have hlt : esc.width < 2 ^ 31 := hesc; omega)
      rw [hwrap]
      omega
    · exact .inr (.inr hempty)
  · obtain ⟨rfl, rfl⟩ := Prod.mk.inj (Option.some.inj h)
    exact ⟨le_rfl, fun _ => ⟨rfl, rfl⟩, fun hw => .inr (.inl hw)⟩

theorem printString_count {esc : Escape} (hesc : esc.WidthFits) {p : List Byte} {n n' : Nat}
    (h : printString count esc p n = some n') :
    n ≤ n' ∧ (n' = n ↔ esc.width ≤ 0 ∧ (p.head? = some 0 ∨ esc.precision = 0)) := by
  obtain ⟨⟨w₁, n₁⟩, hpad, h₁⟩ := Option.bind_eq_some_iff.mp h
  obtain ⟨⟨w₂, n₂⟩, hchars, h₂⟩ := Option.map_eq_some_iff.mp h₁
  obtain ⟨hle₁, hskip, hwide⟩ := padString_count hesc hpad
  obtain ⟨hle₂, hiff, hw⟩ := printChars_count hchars
  change (count _)^[_] _ = _ at h₂
  rw [iterate_count] at h₂
  refine ⟨by omega, fun he => ?_, fun ⟨hw0, hempty⟩ => ?_⟩
  · have h₂₁ : n₂ = n₁ := by omega
    have hempty := hiff.mp h₂₁
    refine ⟨?_, hempty⟩
    by_contra hpos
    rcases hwide (by omega) with hlt | hlt | hne
    · omega
    · have hw₂ := hw h₂₁
      omega
    · exact hne hempty
  · obtain ⟨hn, hw₁⟩ := hskip hw0
    have h₂₁ := hiff.mpr hempty
    have hw₂ := hw h₂₁
    omega

theorem vaInt_eq_some {ap ap' : List Word} {w : Word} (h : vaInt ap = some (w, ap')) :
    ap = w :: ap' := by
  cases ap with
  | nil => simp [vaInt] at h
  | cons v ap => simpa [vaInt] using h

/-- A conversion `%s` with no width, of a string that is empty or cut to
nothing. It takes `ap` to `ap'`. -/
def Piece.Silent (rom : Rom) (ap ap' : List Word) : Piece → Prop
  | .literal _ => False
  | .escape settings k => k = .string ∧ ∃ p esc,
    settings.foldlM Setting.apply (ap, Escape.start) = some (p :: ap', esc) ∧ esc.width ≤ 0 ∧
      ((rom.string p).head? = some 0 ∨ esc.precision = 0)

def Silent (rom : Rom) : List Piece → List Word → Prop
  | [], _ => True
  | p :: ps, ap => ∃ ap', p.Silent rom ap ap' ∧ Silent rom ps ap'

section Run

variable {rom : Rom} {printfmt : CString → List Word → Nat → Option Nat}
  (hp : ∀ w n n', printError rom printfmt w n = some n' → n < n')

include hp

theorem convert_count {k : Conversion} (hk : k ≠ .string) {esc : Escape} {ap ap' : List Word}
    {n n' : Nat} (h : convert count rom printfmt k esc ap n = some (ap', n')) : n < n' := by
  cases k with
  | string => exact absurd rfl hk
  | char =>
    obtain ⟨st, -, h⟩ := Option.map_eq_some_iff.mp h
    exact (Prod.mk.inj h).2 ▸ Nat.lt_succ_self n
  | error =>
    obtain ⟨st, -, h⟩ := Option.bind_eq_some_iff.mp h
    obtain ⟨m, hm, h⟩ := Option.map_eq_some_iff.mp h
    exact (Prod.mk.inj h).2 ▸ hp _ _ _ hm
  | decimal =>
    obtain ⟨st, -, h⟩ := Option.bind_eq_some_iff.mp h
    obtain ⟨m, hm, h⟩ := Option.map_eq_some_iff.mp h
    exact (Prod.mk.inj h).2 ▸ printDecimal_count hm
  | unsigned | hex =>
    obtain ⟨st, -, h⟩ := Option.bind_eq_some_iff.mp h
    obtain ⟨m, hm, h⟩ := Option.map_eq_some_iff.mp h
    exact (Prod.mk.inj h).2 ▸ printnum_count hm
  | pointer =>
    obtain ⟨st, -, h⟩ := Option.bind_eq_some_iff.mp h
    obtain ⟨m, hm, h⟩ := Option.map_eq_some_iff.mp h
    have hlt := printnum_count hm
    simp only [count] at hlt
    obtain ⟨-, rfl⟩ := Prod.mk.inj h
    omega
  | octal | percent | unrecognized =>
    obtain ⟨-, rfl⟩ := Prod.mk.inj (Option.some.inj h)
    simp only [count]
    omega

theorem Piece.run_count {p : Piece} (hfits : p.Fits) {ap ap' : List Word} {n n' : Nat}
    (h : p.run count rom printfmt (ap, n) = some (ap', n')) :
    n ≤ n' ∧ (n' = n → p.Silent rom ap ap') ∧ ∀ ap₂, p.Silent rom ap ap₂ → n' = n ∧ ap' = ap₂ := by
  cases p with
  | literal ch =>
    obtain ⟨-, rfl⟩ := Prod.mk.inj (Option.some.inj h)
    simp [count, Piece.Silent]
  | escape settings k =>
    obtain ⟨⟨ap₁, esc⟩, hset, h⟩ := Option.bind_eq_some_iff.mp h
    have hesc : esc.WidthFits := foldlM_widthFits hfits hset (by exact (by decide : (-1 : Int) < 2 ^ 31))
    by_cases hk : k = .string
    · subst hk
      obtain ⟨⟨p, ap₂⟩, hva, h⟩ := Option.bind_eq_some_iff.mp h
      obtain ⟨m, hm, h⟩ := Option.map_eq_some_iff.mp h
      obtain ⟨rfl, rfl⟩ := Prod.mk.inj h
      obtain ⟨hle, hiff⟩ := printString_count hesc hm
      obtain rfl : ap₁ = p :: ap₂ := vaInt_eq_some hva
      refine ⟨hle, fun he => ⟨rfl, p, esc, hset, hiff.mp he⟩, ?_⟩
      rintro ap' ⟨-, q, esc', hset', he⟩
      rw [hset, Option.some.injEq, Prod.mk.injEq, List.cons.injEq] at hset'
      obtain ⟨⟨rfl, rfl⟩, rfl⟩ := hset'
      exact ⟨hiff.mpr he, rfl⟩
    · have hlt := convert_count hp hk h
      exact ⟨hlt.le, fun he => absurd he hlt.ne', fun _ he => absurd he.1 hk⟩

theorem runPieces_count {ps : List Piece} (hfits : ∀ p ∈ ps, p.Fits) {ap ap' : List Word} {n n' : Nat}
    (h : runPieces count rom printfmt ps ap n = some (ap', n')) :
    n ≤ n' ∧ (n' = n ↔ Silent rom ps ap) := by
  induction ps generalizing ap n with
  | nil =>
    obtain ⟨-, rfl⟩ := Prod.mk.inj (Option.some.inj h)
    simp [Silent]
  | cons p ps ih =>
    obtain ⟨⟨ap₁, n₁⟩, hrun, h⟩ := Option.bind_eq_some_iff.mp h
    obtain ⟨hle₁, hsil, hdet⟩ := Piece.run_count hp (hfits p (by simp)) hrun
    obtain ⟨hle₂, hiff⟩ := ih (fun q hq => hfits q (List.mem_cons_of_mem _ hq)) h
    refine ⟨hle₁.trans hle₂, fun he => ⟨ap₁, hsil (by omega), hiff.mp (by omega)⟩, ?_⟩
    rintro ⟨ap₂, hs₁, hs₂⟩
    obtain ⟨hn, rfl⟩ := hdet ap₂ hs₁
    exact (hiff.mpr hs₂).trans hn

end Run

theorem vprintfmtDepth_count {rom : Rom} {depth : Nat}
    (hp : ∀ w n n', printError rom (vprintfmtDepth count rom depth) w n = some n' → n < n')
    {fmt : CString} {ap : List Word} {n n' : Nat}
    (h : vprintfmtDepth count rom (depth + 1) fmt ap n = some n') :
    n ≤ n' ∧ (n' = n ↔ Silent rom (parse fmt.bytes) ap) := by
  rw [vprintfmtDepth_eq] at h
  obtain ⟨st, hrun, rfl⟩ := Option.map_eq_some_iff.mp h
  exact runPieces_count hp (parse_fits fmt.bytes) hrun

theorem errorText_ne_nil {i : Nat} {t : CString} (h : errorText i = some t) : t.bytes ≠ [] := by
  unfold errorText at h
  split at h <;> simp only [Option.some.injEq, reduceCtorEq] at h <;> subst h <;> decide

theorem Rom.errorString_head {rom : Rom} {i : Nat} (hi : i < MAXERROR) (h : rom.errorString i ≠ 0) :
    (rom.string (rom.errorString i)).head? ≠ some 0 := by
  rw [Rom.string, if_neg h]
  cases ht : errorText i with
  | none => exact absurd (rom.errorString_none i hi ht) h
  | some t =>
    obtain ⟨-, rest, hr⟩ := rom.errorString_some i hi t ht
    obtain ⟨b, bs, hb⟩ := List.exists_cons_of_ne_nil (errorText_ne_nil ht)
    have hb0 : b ≠ 0 := t.nonzero b (by simp [hb])
    rw [← hr]
    simpa [CString.object, hb] using hb0

theorem printError_cases {σ : Type*} (rom : Rom) (printfmt : CString → List Word → σ → Option σ)
    (w : Word) (s : σ) :
    (∃ v, printError rom printfmt w s = printfmt (cstr "error %d") [v] s) ∨
      ∃ i < MAXERROR, rom.errorString i ≠ 0 ∧
        printError rom printfmt w s = printfmt (cstr "%s") [rom.errorString i] s := by
  let err := errorCode w
  by_cases hno : err ≥ MAXERROR ∨ rom.errorString (err % 2 ^ 30).toNat = 0
  · exact .inl ⟨BitVec.ofInt 32 err, if_pos hno⟩
  · rw [not_or] at hno
    have hres : printError rom printfmt w s =
        printfmt (cstr "%s") [rom.errorString (err % 2 ^ 30).toNat] s := if_neg (not_or.mpr hno)
    refine .inr ⟨(err % 2 ^ 30).toNat, ?_, hno.2, hres⟩
    have hcap : MAXERROR = 7 := rfl
    -- only the least `int` is still negative, and its offset is 0
    have herr : 0 ≤ err ∨ err = -2 ^ 31 := by
      have hlo := BitVec.le_toInt w
      simp only [err, errorCode]
      split_ifs with hneg
      · by_cases hmin : w.toInt = -2 ^ 31
        · exact .inr (by rw [hmin]; decide)
        · left
          rw [wrap32, Int.bmod_eq_of_le (by omega) (by omega)]
          omega
      · exact .inl (by omega)
    rcases herr with herr | herr
    · omega
    · rw [herr]
      decide

theorem parse_error_number : ∃ ps, parse (cstr "error %d").bytes = .literal (chr 'e') :: ps := by
  rw [show (cstr "error %d").bytes = chr 'e' :: "rror %d".toList.map chr by decide, parse,
    if_pos (by decide)]
  exact ⟨_, rfl⟩

theorem printError_count (rom : Rom) (depth : Nat) (w : Word) (n n' : Nat)
    (h : printError rom (vprintfmtDepth count rom depth) w n = some n') : n < n' := by
  induction depth generalizing w n n' with
  | zero =>
    rcases printError_cases rom (vprintfmtDepth count rom 0) w n with ⟨v, he⟩ | ⟨i, -, -, he⟩
    all_goals
      have hnone : none = some n' := he.symm.trans h
      simp at hnone
  | succ depth ih =>
    rcases printError_cases rom (vprintfmtDepth count rom (depth + 1)) w n with
      ⟨v, he⟩ | ⟨i, hi, hne, he⟩
    · obtain ⟨hle, hiff⟩ := vprintfmtDepth_count ih (he ▸ h)
      refine lt_of_le_of_ne hle fun hn => ?_
      obtain ⟨ps, hps⟩ := parse_error_number
      obtain ⟨ap', hs, -⟩ := hps ▸ hiff.mp hn.symm
      exact hs
    · obtain ⟨hle, hiff⟩ := vprintfmtDepth_count ih (he ▸ h)
      refine lt_of_le_of_ne hle fun hn => ?_
      obtain ⟨ap', ⟨-, p, esc, hset, -, hempty⟩, -⟩ := parse_string ▸ hiff.mp hn.symm
      obtain ⟨hap, rfl⟩ := Prod.mk.inj (Option.some.inj hset)
      obtain ⟨rfl, -⟩ := List.cons.inj hap
      exact hempty.elim (Rom.errorString_head hi hne) (by decide)

theorem foldl_count (calls : List Word) (n : Nat) :
    calls.foldl (fun n c => count c n) n = n + calls.length := by
  induction calls generalizing n with
  | nil => rfl
  | cons c calls ih =>
    rw [List.foldl_cons, ih, count, List.length_cons]
    omega

theorem putchCalls_eq_nil_iff {rom : Rom} {fmt : CString} {ap calls : List Word}
    (h : putchCalls rom fmt ap = some calls) : calls = [] ↔ Silent rom (parse fmt.bytes) ap := by
  have hcount : vprintfmtDepth count rom 2 fmt ap 0 = some calls.length := by
    have hh := vprintfmt_eq_calls count rom fmt ap 0
    rw [h, Option.map_some, foldl_count, Nat.zero_add] at hh
    exact hh
  rw [← List.length_eq_zero_iff]
  exact (vprintfmtDepth_count (printError_count rom 1) hcount).2

end Jos
