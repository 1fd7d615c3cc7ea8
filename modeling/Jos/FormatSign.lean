import Jos.FormatWidth
import Jos.Strtol

/-! `%d` with a width. The sign is printed before `printnum` is called, and with
the whole width. -/

namespace Jos

def signBytes (v : Word) : List Byte :=
  if v.toInt < 0 then [chr '-'] else []

def decimalDigits (v : Word) : List Byte :=
  (numeral 10 v.toInt.natAbs).map digitByte

def signedNumeral (v : Word) : List Byte :=
  signBytes v ++ decimalDigits v

/-- The numeral in a field of `w` characters: blanks before its sign, or zeros after it. -/
def fieldText (zero : Bool) (w : Nat) (v : Word) : List Byte :=
  if zero then signBytes v ++ List.replicate (w - (signedNumeral v).length) (chr '0') ++ decimalDigits v
  else List.replicate (w - (signedNumeral v).length) (chr ' ') ++ signedNumeral v

/-- The width counts the sign, and `strtol` reads the value back. -/
def CoversSign (rom : Rom) (zero : Bool) (w : Nat) (v : Word) : Prop :=
  ∃ calls, putchCalls rom (escape (numberSettings zero (some w) .none) (cstr "d")) [v] = some calls ∧
    calls.length = max w (signedNumeral v).length ∧
    calls = (fieldText zero w v).map (BitVec.signExtend 32) ∧
    ∀ t, strtol (calls.map (BitVec.setWidth 8) ++ 0 :: t) 10 = some (v, 0 :: t)

theorem strtol_blanks (n : Nat) (s : List Byte) (base : Int) :
    strtol (List.replicate n (chr ' ') ++ s) base = strtol s base := by
  induction n with
  | zero => rfl
  | succ n ih =>
    rw [← ih, List.replicate_succ, List.cons_append, strtol, strtol, skipBlanks, if_pos (.inl rfl)]

theorem strtol_digits {ds : List Nat} (hne : ds ≠ []) (hds : ∀ d ∈ ds, d < 10) (t : List Byte) :
    strtol (ds.map digitByte ++ 0 :: t) 10 =
      some (ds.foldl (fun (v : Word) (d : Nat) => v * 10 + d) 0, 0 :: t) := by
  have hdigits := strtolDigits_digits (by decide : 10 ≤ 16) hds t 0
  obtain ⟨d, ds, rfl⟩ := List.exists_cons_of_ne_nil hne
  obtain ⟨hblank, htab, hplus, hminus, -⟩ := digitByte_ne ((hds d (by simp)).trans (by decide : 10 < 16))
  rw [List.map_cons, List.cons_append] at hdigits ⊢
  have hskip : ∀ s, skipBlanks (digitByte d :: s) = some (digitByte d :: s) := fun s =>
    if_neg (not_or.mpr ⟨hblank, htab⟩)
  have hsign : ∀ s, strtolSign (digitByte d :: s) = some (false, digitByte d :: s) := fun s => by
    rw [strtolSign, if_neg hplus, if_neg hminus]
  have hprefix : ∀ s, strtolPrefix 10 s = some (10, s) := fun s => if_neg (by decide)
  have hten : ((10 : Nat) : Int) = 10 := rfl
  rw [hten] at hdigits
  simp only [strtol, hskip, hsign, hprefix, hdigits, Option.bind_some, Option.map_some]
  rfl

theorem foldl_zeros (n : Nat) (ds : List Nat) :
    (List.replicate n 0 ++ ds).foldl (fun (v : Word) (d : Nat) => v * 10 + d) 0 =
      ds.foldl (fun (v : Word) (d : Nat) => v * 10 + d) 0 := by
  induction n with
  | zero => rfl
  | succ n ih => simpa [List.replicate_succ] using ih

theorem strtol_zeros (n num : Nat) (t : List Byte) :
    strtol (List.replicate n (chr '0') ++ (numeral 10 num).map digitByte ++ 0 :: t) 10 =
      some (BitVec.ofNat 32 num, 0 :: t) := by
  have hzero : digitByte 0 = chr '0' := by decide
  have hdigits : ∀ d ∈ List.replicate n 0 ++ numeral 10 num, d < 10 := by
    intro d hd
    rcases List.mem_append.mp hd with hd | hd
    · simp [List.eq_of_mem_replicate hd]
    · exact numeral_lt (by decide) hd
  have hne : List.replicate n 0 ++ numeral 10 num ≠ [] := by simp [numeral_ne_nil]
  have hread := strtol_digits hne hdigits t
  rw [foldl_zeros, List.map_append, List.map_replicate, hzero] at hread
  rw [hread]
  congr 2
  exact horner_numeral 10 num

theorem putchCalls_field (rom : Rom) (zero : Bool) {w : Nat} (hw : 0 < w) (hmax : w < 2 ^ 31)
    (v : Word) :
    putchCalls rom (escape (numberSettings zero (some w) .none) (cstr "d")) [v] =
      some ((signBytes v ++ List.replicate (w - (decimalDigits v).length) (padChar zero) ++
        decimalDigits v).map (BitVec.signExtend 32)) := by
  have hwidth : WidthInRange (some w) := by simpa [WidthInRange] using ⟨hw, hmax⟩
  have hlflag : (numberEscape zero (some w) .none).lflag = Longs.none.lflag := rfl
  have hprinted := putchCalls_d rom (comes_number zero hwidth .none) hlflag (v.setWidth 64)
  have hargs : Longs.none.args (v.setWidth 64) = [v] := by simp [Longs.args]
  have hv : (v.setWidth 64).setWidth Longs.none.bits = v := by simp [Longs.bits]
  have hpad : padding (padChar zero) w (numeral 10 v.toInt.natAbs).length =
      List.replicate (w - (decimalDigits v).length) ((padChar zero).signExtend 32) := by
    rw [padding, decimalDigits, List.length_map]
    congr 1
    omega
  have hdigits : digits 10 v.toInt.natAbs = (decimalDigits v).map (BitVec.signExtend 32) := by
    rw [decimalDigits, List.map_map]
    rfl
  rw [hargs, hv] at hprinted
  refine hprinted.trans (congrArg some ?_)
  have hsign : (if v.toInt < 0 then [(chr '-').signExtend 32] else []) =
      (signBytes v).map (BitVec.signExtend 32) := by
    unfold signBytes
    split_ifs <;> rfl
  rw [List.map_append, List.map_append, List.map_replicate, ← hpad, ← hdigits, ← hsign]
  rfl

theorem signBytes_neg {v : Word} (hv : v.toInt < 0) : signBytes v = [chr '-'] :=
  if_pos hv

theorem signBytes_nonneg {v : Word} (hv : ¬ v.toInt < 0) : signBytes v = [] :=
  if_neg hv

theorem decimalDigits_length (v : Word) :
    (decimalDigits v).length = (numeral 10 v.toInt.natAbs).length :=
  List.length_map _

theorem signedNumeral_length {v : Word} (hv : v.toInt < 0) :
    (signedNumeral v).length = (decimalDigits v).length + 1 := by
  simp [signedNumeral, signBytes_neg hv]

theorem strtol_signedNumeral (v : Word) (t : List Byte) :
    strtol (signedNumeral v ++ 0 :: t) 10 = some (v, 0 :: t) := by
  have hread := strtol_decimal_ten v.toInt.natAbs t (decide (v.toInt < 0))
  simp only [decide_eq_true_eq, neg_natAbs] at hread
  rw [signedNumeral, signBytes, List.append_assoc]
  exact hread

theorem fieldText_nonneg {v : Word} (hv : ¬ v.toInt < 0) (zero : Bool) (w : Nat) :
    fieldText zero w v = List.replicate (w - (decimalDigits v).length) (padChar zero) ++
      decimalDigits v := by
  cases zero <;> simp [fieldText, signedNumeral, signBytes_nonneg hv, padChar]

theorem strtol_field_nonneg {v : Word} (hv : ¬ v.toInt < 0) (zero : Bool) (w : Nat) (t : List Byte) :
    strtol (fieldText zero w v ++ 0 :: t) 10 = some (v, 0 :: t) := by
  cases zero with
  | true =>
    have hnum := neg_natAbs v
    rw [if_neg hv] at hnum
    have hread := strtol_zeros (w - (decimalDigits v).length) v.toInt.natAbs t
    rw [hnum] at hread
    rw [fieldText_nonneg hv]
    exact hread
  | false =>
    rw [fieldText, if_neg Bool.false_ne_true, List.append_assoc, strtol_blanks, strtol_signedNumeral]

section Field

variable (rom : Rom) (zero : Bool) {w : Nat} (hw : 0 < w) (hmax : w < 2 ^ 31) {v : Word}

include hw hmax

theorem coversSign_nonneg (hv : ¬ v.toInt < 0) : CoversSign rom zero w v := by
  have hprinted := putchCalls_field rom zero hw hmax v
  have hlen : (signedNumeral v).length = (decimalDigits v).length := by
    simp [signedNumeral, signBytes_nonneg hv]
  rw [signBytes_nonneg hv, List.nil_append, ← fieldText_nonneg hv] at hprinted
  refine ⟨_, hprinted, ?_, rfl, fun t => ?_⟩
  · rw [List.length_map, fieldText_nonneg hv, List.length_append, List.length_replicate, hlen]
    omega
  · rw [map_setWidth_signExtend]
    exact strtol_field_nonneg hv zero w t

theorem coversSign_full (hv : v.toInt < 0) (hle : w ≤ (decimalDigits v).length) :
    CoversSign rom zero w v := by
  have hprinted := putchCalls_field rom zero hw hmax v
  have hlen := signedNumeral_length hv
  have hnone : w - (decimalDigits v).length = 0 := by omega
  have hnone' : w - (signedNumeral v).length = 0 := by omega
  have hfield : fieldText zero w v = signedNumeral v := by
    rw [fieldText, hnone', List.replicate_zero, List.replicate_zero, List.append_nil, List.nil_append]
    exact ite_self _
  rw [hnone, List.replicate_zero, List.append_nil] at hprinted
  refine ⟨_, hprinted, ?_, by rw [hfield]; rfl, fun t => ?_⟩
  · rw [List.length_map, max_eq_right (by omega)]
    rfl
  · rw [map_setWidth_signExtend]
    exact strtol_signedNumeral v t

/-- The sign stands before a field that is full without it. -/
theorem coversSign_le (hv : v.toInt < 0) (h : CoversSign rom zero w v) :
    w ≤ (decimalDigits v).length := by
  obtain ⟨calls, hcalls, hlength, -, -⟩ := h
  have hlen := signedNumeral_length hv
  rw [putchCalls_field rom zero hw hmax, Option.some.injEq] at hcalls
  simp [← hcalls, signBytes_neg hv] at hlength
  omega

/-- The field is right exactly when there is no sign, or nothing to pad. -/
theorem coversSign_iff (v : Word) :
    CoversSign rom zero w v ↔ 0 ≤ v.toInt ∨ w ≤ (numeral 10 v.toInt.natAbs).length := by
  rw [← decimalDigits_length]
  by_cases hv : v.toInt < 0
  · constructor
    · exact fun h => .inr (coversSign_le rom zero hw hmax hv h)
    · rintro (hpos | hle)
      · omega
      · exact coversSign_full rom zero hw hmax hv hle
  · exact iff_of_true (coversSign_nonneg rom zero hw hmax hv) (.inl (by omega))

end Field

theorem coversSign_zeros : CoversSign default true 4 7 :=
  (coversSign_iff default true (by decide) (by decide) 7).mpr (.inl (by decide))

/-- Five characters for -3 with its sign are six. -/
theorem not_coversSign : ¬ CoversSign default false 5 (-3) := by
  rintro ⟨calls, hcalls, hlength, -, -⟩
  have hprinted : putchCalls default (escape (numberSettings false (some 5) .none) (cstr "d")) [-3] =
      some [0x2D, 0x20, 0x20, 0x20, 0x20, 0x33] := by decide
  rw [hprinted, Option.some.injEq] at hcalls
  rw [← hcalls] at hlength
  exact absurd hlength (by decide)

end Jos
