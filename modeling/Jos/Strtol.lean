import Jos.FormatNumber
import Jos.Snprintf

/-! `strtol` of `lib/string.c` reads back what `vsnprintf` prints. -/

namespace Jos

def digitValue (c : Byte) : Option Int :=
  if chr '0' ≤ c ∧ c ≤ chr '9' then some (c.toNat - (chr '0').toNat)
  else if chr 'a' ≤ c ∧ c ≤ chr 'z' then some (c.toNat - (chr 'a').toNat + 10)
  else if chr 'A' ≤ c ∧ c ≤ chr 'Z' then some (c.toNat - (chr 'A').toNat + 10)
  else none

/-- The loop over the digits. A `long` has 32 bits, and overflow is not detected. -/
def strtolDigits (base : Int) : List Byte → Word → Option (Word × List Byte)
  | [], _ => none
  | c :: s, val =>
    match digitValue c with
    | none => some (val, c :: s)
    | some dig =>
      if dig ≥ base then some (val, c :: s)
      else strtolDigits base s (val * BitVec.ofInt 32 base + BitVec.ofInt 32 dig)

def skipBlanks : List Byte → Option (List Byte)
  | [] => none
  | c :: s => if c = chr ' ' ∨ c = chr '\t' then skipBlanks s else some (c :: s)

def strtolSign : List Byte → Option (Bool × List Byte)
  | [] => none
  | c :: s =>
    if c = chr '+' then some (false, s)
    else if c = chr '-' then some (true, s)
    else some (false, c :: s)

/-- `s[0] == '0' && s[1] == 'x'` -/
def isHexPrefix : List Byte → Option Bool
  | [] => none
  | c :: s => if c = chr '0' then s.head?.map (· = chr 'x') else some false

/-- The base, and what follows the prefix that names it. -/
def strtolPrefix (base : Int) (s : List Byte) : Option (Int × List Byte) :=
  if base = 0 ∨ base = 16 then
    (isHexPrefix s).bind fun hex =>
    if hex then some (16, s.drop 2)
    else if base = 0 ∧ s.head? = some (chr '0') then some (8, s.drop 1)
    else if base = 0 then some (10, s)
    else some (base, s)
  else some (base, s)

/-- The value, and the bytes from `*endptr` on. `s` is the bytes that can be
read from the string's address on. -/
def strtol (s : List Byte) (base : Int) : Option (Word × List Byte) :=
  (skipBlanks s).bind fun s =>
  (strtolSign s).bind fun (neg, s) =>
  (strtolPrefix base s).bind fun (base, s) =>
  (strtolDigits base s 0).map fun (val, s) => (if neg then -val else val, s)

theorem digitValue_digitByte {d : Nat} (h : d < 16) : digitValue (digitByte d) = some (d : Int) := by
  have hh : ∀ d < 16, digitValue (digitByte d) = some (d : Int) := by decide +kernel
  exact hh d h

theorem digitValue_nul : digitValue 0 = none := by decide

theorem strtolDigits_digits {base : Nat} (hb : base ≤ 16) {ds : List Nat} (hds : ∀ d ∈ ds, d < base)
    (t : List Byte) (val : Word) : strtolDigits base (ds.map digitByte ++ 0 :: t) val =
      some (ds.foldl (fun (v : Word) (d : Nat) => v * base + d) val, 0 :: t) := by
  induction ds generalizing val with
  | nil =>
    rw [List.map_nil, List.nil_append, strtolDigits, digitValue_nul]
    rfl
  | cons d ds ih =>
    have hd : d < base := hds d (by simp)
    have hlt : ¬ (d : Int) ≥ base := by omega
    rw [List.map_cons, List.cons_append, strtolDigits, digitValue_digitByte (by omega)]
    dsimp only
    rw [if_neg hlt, ih fun x hx => hds x (List.mem_cons_of_mem _ hx)]
    simp

theorem strtolDigits_numeral {base : Nat} (hb : 2 ≤ base) (hb' : base ≤ 16) (num : Nat) (t : List Byte) :
    strtolDigits base ((numeral base num).map digitByte ++ 0 :: t) 0 =
      some (BitVec.ofNat 32 num, 0 :: t) := by
  rw [strtolDigits_digits hb' (fun d hd => numeral_lt hb hd) t, horner_numeral]
  rfl

def numberText (base num : Nat) (t : List Byte) : List Byte :=
  (numeral base num).map digitByte ++ 0 :: t

theorem digitByte_ne {d : Nat} (h : d < 16) : digitByte d ≠ chr ' ' ∧ digitByte d ≠ chr '\t' ∧
    digitByte d ≠ chr '+' ∧ digitByte d ≠ chr '-' ∧ (digitByte d = chr '0' → d = 0) := by
  have hh : ∀ d < 16, digitByte d ≠ chr ' ' ∧ digitByte d ≠ chr '\t' ∧ digitByte d ≠ chr '+' ∧
      digitByte d ≠ chr '-' ∧ (digitByte d = chr '0' → d = 0) := by decide +kernel
  exact hh d h

theorem numberText_cons {base : Nat} (hb : 2 ≤ base) (hb' : base ≤ 16) (num : Nat) (t : List Byte) :
    ∃ d s, d < 16 ∧ numberText base num t = digitByte d :: s ∧ (d = 0 → num = 0 ∧ s = 0 :: t) := by
  obtain ⟨d, ds, hd⟩ := List.exists_cons_of_ne_nil (numeral_ne_nil base num)
  have hlt : d < base := numeral_lt hb (by rw [hd]; simp)
  refine ⟨d, ds.map digitByte ++ 0 :: t, by omega, by rw [numberText, hd]; rfl, ?_⟩
  rintro rfl
  have hz : num = 0 := by
    by_contra hz
    exact numeral_head hz hd rfl
  rw [numeral, if_pos hz, List.cons.injEq] at hd
  exact ⟨hz, by rw [← hd.2]; rfl⟩

theorem strtol_numberText {base : Nat} (hb : 2 ≤ base) (hb' : base ≤ 16) (num : Nat) (t : List Byte)
    (neg : Bool) (b : Int) {b' : Int} {s' r : List Byte} {val : Word}
    (hpre : strtolPrefix b (numberText base num t) = some (b', s'))
    (hdig : strtolDigits b' s' 0 = some (val, r)) :
    strtol ((if neg then [chr '-'] else []) ++ numberText base num t) b =
      some (if neg then -val else val, r) := by
  obtain ⟨d, s, hd, htext, -⟩ := numberText_cons hb hb' num t
  obtain ⟨hblank, htab, hplus, hminus, -⟩ := digitByte_ne hd
  cases neg with
  | true =>
    have hskip : skipBlanks (chr '-' :: numberText base num t) =
      some (chr '-' :: numberText base num t) :=
      if_neg (by decide)
    have hsign : strtolSign (chr '-' :: numberText base num t) = some (true, numberText base num t) := by
      rw [strtolSign, if_neg (by decide), if_pos rfl]
    simp only [strtol, if_true, List.singleton_append, hskip, hsign, Option.bind_some, hpre, hdig]
    rfl
  | false =>
    have hskip : skipBlanks (numberText base num t) = some (numberText base num t) := by
      rw [htext, skipBlanks, if_neg (not_or.mpr ⟨hblank, htab⟩)]
    have hsign : strtolSign (numberText base num t) = some (false, numberText base num t) := by
      rw [htext, strtolSign, if_neg hplus, if_neg hminus]
    simp only [strtol, Bool.false_eq_true, if_false, List.nil_append, hskip, hsign, Option.bind_some,
      hpre, hdig]
    rfl

theorem strtol_decimal_ten (num : Nat) (t : List Byte) (neg : Bool) :
    strtol ((if neg then [chr '-'] else []) ++ numberText 10 num t) 10 =
      some (if neg then -BitVec.ofNat 32 num else BitVec.ofNat 32 num, 0 :: t) :=
  strtol_numberText (by decide) (by decide) num t neg 10 (if_neg (by decide))
    (strtolDigits_numeral (by decide) (by decide) num t)

theorem neg_natAbs (v : Word) :
    (if v.toInt < 0 then -BitVec.ofNat 32 v.toInt.natAbs else BitVec.ofNat 32 v.toInt.natAbs) = v := by
  apply BitVec.eq_of_toNat_eq
  have hlt := v.isLt
  split_ifs with hneg
  · rw [BitVec.toNat_neg, BitVec.toNat_ofNat]
    rw [BitVec.toInt_eq_toNat_cond] at hneg ⊢
    split_ifs at hneg ⊢ <;> omega
  · rw [BitVec.toNat_ofNat]
    rw [BitVec.toInt_eq_toNat_cond] at hneg ⊢
    split_ifs at hneg ⊢ <;> omega

end Jos
