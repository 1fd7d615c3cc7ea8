import Jos.Strtol

/-! `strtol` of `lib/string.c` on every string: it parses the longest numeral. -/

namespace Jos

/-- `run` is as long as it can be before `rest`. -/
structure Longest {α : Type*} (p : α → Prop) (run rest : List α) : Prop where
  all : ∀ c ∈ run, p c
  stops : ∀ c ∈ rest.head?, ¬ p c

theorem exists_longest {α : Type*} (p : α → Prop) [DecidablePred p] (s : List α) :
    ∃ run rest, s = run ++ rest ∧ Longest p run rest := by
  induction s with
  | nil => exact ⟨[], [], rfl, by simp, by simp⟩
  | cons c s ih =>
    by_cases hc : p c
    · obtain ⟨run, rest, rfl, h⟩ := ih
      exact ⟨c :: run, rest, rfl, by simpa [hc] using h.all, h.stops⟩
    · exact ⟨[], c :: s, rfl, by simp, by simpa using hc⟩

def IsBlank (c : Byte) : Prop :=
  c = chr ' ' ∨ c = chr '\t'

instance : DecidablePred IsBlank := fun c => inferInstanceAs (Decidable (c = chr ' ' ∨ c = chr '\t'))

/-- An optional sign before `rest`, and whether it is a minus. -/
inductive SignBefore (rest : List Byte) : List Byte → Bool → Prop
  | plus : SignBefore rest [chr '+'] false
  | minus : SignBefore rest [chr '-'] true
  | none (h : ∀ c ∈ rest.head?, c ≠ chr '+' ∧ c ≠ chr '-') : SignBefore rest [] false

/-- An optional prefix before `rest` for the base asked for, and the base of the digits. -/
inductive PrefixBefore (base : Nat) (rest : List Byte) : List Byte → Nat → Prop
  | hex (h : base = 0 ∨ base = 16) : PrefixBefore base rest [chr '0', chr 'x'] 16
  | octal (h : base = 0) (hx : rest.head? ≠ some (chr 'x')) : PrefixBefore base rest [chr '0'] 8
  | decimal (h : base = 0) (hz : rest.head? ≠ some (chr '0')) : PrefixBefore base rest [] 10
  | given (h : base ≠ 0) (hx : base = 16 → ¬ [chr '0', chr 'x'] <+: rest) :
      PrefixBefore base rest [] base

def lowerDigits : List Byte := (cstr "0123456789abcdefghijklmnopqrstuvwxyz").bytes

def upperDigits : List Byte := (cstr "0123456789ABCDEFGHIJKLMNOPQRSTUVWXYZ").bytes

/-- A digit stands at its value in the alphabet. -/
def digitOf (c : Byte) : Option Nat :=
  (lowerDigits.idxOf? c).or (upperDigits.idxOf? c)

def IsDigitOf (base : Nat) (c : Byte) : Prop :=
  ∃ d ∈ digitOf c, d < base

instance (base : Nat) : DecidablePred (IsDigitOf base) := fun c =>
  inferInstanceAs (Decidable (∃ d ∈ digitOf c, d < base))

structure LongText where
  blanks : List Byte
  sign : List Byte
  neg : Bool
  pre : List Byte
  base : Nat
  digits : List Byte
  rest : List Byte

namespace LongText

/-- The string `s`, taken apart for the base asked for. -/
structure Parses (p : LongText) (base : Nat) (s : List Byte) : Prop where
  whole : s = p.blanks ++ (p.sign ++ (p.pre ++ (p.digits ++ p.rest)))
  blanks : Longest IsBlank p.blanks (p.sign ++ (p.pre ++ (p.digits ++ p.rest)))
  sign : SignBefore (p.pre ++ (p.digits ++ p.rest)) p.sign p.neg
  pre : PrefixBefore base (p.digits ++ p.rest) p.pre p.base
  digits : Longest (IsDigitOf p.base) p.digits p.rest

def magnitude (p : LongText) : Nat :=
  p.digits.foldl (fun v c => v * p.base + (digitOf c).getD 0) 0

def value (p : LongText) : Int :=
  if p.neg then -p.magnitude else p.magnitude

end LongText

theorem exists_sign (s : List Byte) : ∃ sign neg rest, s = sign ++ rest ∧ SignBefore rest sign neg := by
  cases s with
  | nil => exact ⟨[], false, [], rfl, .none (by simp)⟩
  | cons c s =>
    by_cases hplus : c = chr '+'
    · exact ⟨[chr '+'], false, s, by rw [hplus]; rfl, .plus⟩
    · by_cases hminus : c = chr '-'
      · exact ⟨[chr '-'], true, s, by rw [hminus]; rfl, .minus⟩
      · exact ⟨[], false, c :: s, rfl, .none (by simp [hplus, hminus])⟩

theorem exists_prefix (base : Nat) (s : List Byte) :
    ∃ pre b rest, s = pre ++ rest ∧ PrefixBefore base rest pre b := by
  by_cases hhex : (base = 0 ∨ base = 16) ∧ [chr '0', chr 'x'] <+: s
  · obtain ⟨hb, rest, rfl⟩ := hhex
    exact ⟨_, 16, rest, rfl, .hex hb⟩
  · by_cases hb : base = 0
    · have hx : ¬ [chr '0', chr 'x'] <+: s := fun hx => hhex ⟨.inl hb, hx⟩
      by_cases hz : s.head? = some (chr '0')
      · obtain ⟨rest, rfl⟩ := List.head?_eq_some_iff.mp hz
        refine ⟨[chr '0'], 8, rest, rfl, .octal hb fun hh => hx ?_⟩
        obtain ⟨rest', rfl⟩ := List.head?_eq_some_iff.mp hh
        exact ⟨rest', rfl⟩
      · exact ⟨[], 10, s, rfl, .decimal hb hz⟩
    · exact ⟨[], base, s, rfl, .given hb fun h16 hx => hhex ⟨.inr h16, hx⟩⟩

theorem exists_parses (base : Nat) (s : List Byte) : ∃ p : LongText, p.Parses base s := by
  obtain ⟨blanks, s₁, rfl, hblanks⟩ := exists_longest IsBlank s
  obtain ⟨sign, neg, s₂, rfl, hsign⟩ := exists_sign s₁
  obtain ⟨pre, b, s₃, rfl, hpre⟩ := exists_prefix base s₂
  obtain ⟨digits, rest, rfl, hdigits⟩ := exists_longest (IsDigitOf b) s₃
  exact ⟨⟨blanks, sign, neg, pre, b, digits, rest⟩, rfl, hblanks, hsign, hpre, hdigits⟩

/-- The first byte up to the NUL, which is no part of a numeral. -/
theorem head_nul {P : Byte → Prop} {s : List Byte} (h : ∀ c ∈ s.head?, P c) (hnul : P 0)
    (t : List Byte) : ∃ c s', s ++ 0 :: t = c :: s' ∧ P c := by
  cases s with
  | nil => exact ⟨0, t, rfl, hnul⟩
  | cons c s => exact ⟨c, s ++ 0 :: t, rfl, h c rfl⟩

theorem skipBlanks_longest {run rest : List Byte} (h : Longest IsBlank run rest) (t : List Byte) :
    skipBlanks (run ++ (rest ++ 0 :: t)) = some (rest ++ 0 :: t) := by
  have hall := h.all
  induction run with
  | nil =>
    obtain ⟨c, s', hs, hc⟩ := head_nul h.stops (by decide) t
    rw [List.nil_append, hs]
    exact if_neg hc
  | cons c run ih =>
    have hc : IsBlank c := hall c List.mem_cons_self
    have hrun : ∀ x ∈ run, IsBlank x := fun x hx => hall x (List.mem_cons_of_mem c hx)
    have hskip : skipBlanks (c :: (run ++ (rest ++ 0 :: t))) = skipBlanks (run ++ (rest ++ 0 :: t)) :=
      if_pos hc
    rw [List.cons_append, hskip, ih ⟨hrun, h.stops⟩ hrun]

theorem strtolSign_before {rest sign : List Byte} {neg : Bool} (h : SignBefore rest sign neg)
    (t : List Byte) : strtolSign (sign ++ (rest ++ 0 :: t)) = some (neg, rest ++ 0 :: t) := by
  cases h with
  | plus => rfl
  | minus => rfl
  | none h =>
    obtain ⟨c, s', hs, hplus, hminus⟩ := head_nul h (by decide) t
    rw [List.nil_append, hs, strtolSign, if_neg hplus, if_neg hminus]

theorem isHexPrefix_iff (s t : List Byte) :
    isHexPrefix (s ++ 0 :: t) = some (decide ([chr '0', chr 'x'] <+: s)) := by
  cases s with
  | nil => rfl
  | cons c s =>
    by_cases hc : c = chr '0'
    · rw [List.cons_append, isHexPrefix, if_pos hc]
      cases s with
      | nil => simp [chr]
      | cons d s => simp [hc, eq_comm]
    · rw [List.cons_append, isHexPrefix, if_neg hc]
      simp [Ne.symm hc]

theorem head_append_nul (s t : List Byte) :
    (s ++ 0 :: t).head? = some (chr '0') ↔ s.head? = some (chr '0') := by
  cases s with
  | nil => simp [chr]
  | cons c s => rfl

theorem strtolPrefix_before {base b : Nat} {rest pre : List Byte} (h : PrefixBefore base rest pre b)
    (t : List Byte) :
    strtolPrefix base (pre ++ (rest ++ 0 :: t)) = some ((b : Int), rest ++ 0 :: t) := by
  cases h with
  | hex h =>
    have hbase : (base : Int) = 0 ∨ (base : Int) = 16 := by omega
    rw [strtolPrefix, if_pos hbase]
    rfl
  | octal h hx =>
    have hhex : ¬ [chr '0', chr 'x'] <+: chr '0' :: rest := by
      rintro ⟨rest', hrest⟩
      exact hx (by rw [← (List.cons_eq_cons.mp hrest).2]; rfl)
    have hbase : (base : Int) = 0 := by omega
    have hread := isHexPrefix_iff (chr '0' :: rest) t
    rw [decide_eq_false hhex] at hread
    rw [List.singleton_append, ← List.cons_append, strtolPrefix, if_pos (.inl hbase), hread]
    simp [hbase]
  | decimal h hz =>
    have hhex : ¬ [chr '0', chr 'x'] <+: rest := by
      rintro ⟨rest', rfl⟩
      exact hz rfl
    have hbase : (base : Int) = 0 := by omega
    have hhead : ¬ ((base : Int) = 0 ∧ (rest ++ 0 :: t).head? = some (chr '0')) := fun hh =>
      hz ((head_append_nul rest t).mp hh.2)
    rw [List.nil_append, strtolPrefix, if_pos (.inl hbase), isHexPrefix_iff, decide_eq_false hhex,
      Option.bind_some, if_neg Bool.false_ne_true, if_neg hhead, if_pos hbase]
    rfl
  | given h hx =>
    have hbase : (base : Int) ≠ 0 := by omega
    by_cases h16 : base = 16
    · have hhead : ¬ ((base : Int) = 0 ∧ (rest ++ 0 :: t).head? = some (chr '0')) := fun hh => hbase hh.1
      rw [List.nil_append, strtolPrefix, if_pos (.inr (by omega)), isHexPrefix_iff,
        decide_eq_false (hx h16), Option.bind_some, if_neg Bool.false_ne_true, if_neg hhead,
        if_neg hbase]
    · exact if_neg (by omega)

theorem digitValue_eq (c : Byte) : digitValue c = (digitOf c).map Int.ofNat := by
  have hall : ∀ n < 256, digitValue (BitVec.ofNat 8 n) = (digitOf (BitVec.ofNat 8 n)).map Int.ofNat := by
    decide +kernel
  simpa using hall c.toNat c.isLt

theorem strtolDigits_stop {base : Nat} {c : Byte} (h : ¬ IsDigitOf base c) (s : List Byte) (val : Word) :
    strtolDigits base (c :: s) val = some (val, c :: s) := by
  rw [strtolDigits, digitValue_eq]
  cases hc : digitOf c with
  | none => rfl
  | some d =>
    have hge : (d : Int) ≥ base := by
      by_contra hlt
      exact h ⟨d, hc, by omega⟩
    exact if_pos hge

theorem strtolDigits_digit {base d : Nat} {c : Byte} (hc : digitOf c = some d) (hd : d < base)
    (s : List Byte) (num : Nat) :
    strtolDigits base (c :: s) (BitVec.ofNat 32 num) =
      strtolDigits base s (BitVec.ofNat 32 (num * base + d)) := by
  have hlt : ¬ (d : Int) ≥ base := by omega
  have hval : BitVec.ofNat 32 num * BitVec.ofInt 32 base + BitVec.ofInt 32 d =
      BitVec.ofNat 32 (num * base + d) := by
    simp [BitVec.ofInt_natCast, BitVec.ofNat_add, BitVec.ofNat_mul]
  rw [strtolDigits, digitValue_eq, hc, ← hval]
  exact if_neg hlt

theorem strtolDigits_longest {base : Nat} {run rest : List Byte} (h : Longest (IsDigitOf base) run rest)
    (t : List Byte) (num : Nat) :
    strtolDigits base (run ++ (rest ++ 0 :: t)) (BitVec.ofNat 32 num) =
      some (BitVec.ofNat 32 (run.foldl (fun v c => v * base + (digitOf c).getD 0) num),
        rest ++ 0 :: t) := by
  have hall := h.all
  induction run generalizing num with
  | nil =>
    have hnul : ¬ IsDigitOf base 0 := by
      rintro ⟨d, hd, -⟩
      cases hd
    obtain ⟨c, s', hs, hc⟩ := head_nul h.stops hnul t
    rw [List.nil_append, hs, strtolDigits_stop hc]
    rfl
  | cons c run ih =>
    obtain ⟨d, hd, hlt⟩ := hall c List.mem_cons_self
    have hrun : ∀ x ∈ run, IsDigitOf base x := fun x hx => hall x (List.mem_cons_of_mem c hx)
    rw [List.cons_append, strtolDigits_digit hd hlt, ih ⟨hrun, h.stops⟩ _ hrun]
    simp [Option.mem_def.mp hd]

theorem strtol_parses {p : LongText} {base : Nat} {s : List Byte} (h : p.Parses base s) (t : List Byte) :
    strtol (s ++ 0 :: t) base = some (BitVec.ofInt 32 p.value, p.rest ++ 0 :: t) := by
  have hblanks := skipBlanks_longest h.blanks t
  have hsign := strtolSign_before h.sign t
  have hpre := strtolPrefix_before h.pre t
  have hdigits : strtolDigits p.base (p.digits ++ p.rest ++ 0 :: t) 0 =
      some (BitVec.ofNat 32 p.magnitude, p.rest ++ 0 :: t) := by
    rw [List.append_assoc]
    exact strtolDigits_longest h.digits t 0
  have hneg : (if p.neg then -BitVec.ofNat 32 p.magnitude else BitVec.ofNat 32 p.magnitude) =
      BitVec.ofInt 32 p.value := by
    cases hn : p.neg <;> simp [LongText.value, hn, BitVec.ofInt_neg, BitVec.ofInt_natCast]
  simp only [List.append_assoc] at hblanks hsign hpre hdigits
  rw [h.whole]
  simp only [List.append_assoc, strtol, hblanks, hsign, hpre, Option.bind_some]
  rw [hdigits, ← hneg]
  rfl

/-- Every string is taken apart for every base, and `strtol` returns what the
longest run of digits is worth and where it ends. It reads up to the NUL only:
`t` may be empty. -/
theorem strtol_longest (base : Nat) (s t : List Byte) :
    (∃ p : LongText, p.Parses base s) ∧ ∀ p : LongText, p.Parses base s →
      strtol (s ++ 0 :: t) base = some (BitVec.ofInt 32 p.value, p.rest ++ 0 :: t) :=
  ⟨exists_parses base s, fun _ h => strtol_parses h t⟩

def minusHex : LongText where
  blanks := [chr ' ']
  sign := [chr '-']
  neg := true
  pre := [chr '0', chr 'x']
  base := 16
  digits := [chr '1', chr 'F']
  rest := [chr 'g']

theorem strtol_longest_hex :
    strtol ((cstr " -0x1Fg").bytes ++ 0 :: []) 0 = some (BitVec.ofInt 32 (-31), [chr 'g'] ++ 0 :: []) :=
  (strtol_longest 0 (cstr " -0x1Fg").bytes []).2 minusHex
    ⟨by decide, ⟨by decide, by decide⟩, .minus, .hex (.inl rfl), ⟨by decide, by decide⟩⟩

end Jos
