import Mathlib.Data.BitVec

/-! Words as numbers: flags, fields of low bits, and sums that do not wrap. -/

namespace Jos

section Words

variable {n : Nat}

theorem and_eq_zero_of_subset {a m m' : BitVec n} (h : a &&& m = 0) (hsub : m' &&& m = m') :
    a &&& m' = 0 := by
  rw [← hsub, BitVec.and_comm m' m, ← BitVec.and_assoc, h]
  exact BitVec.zero_and

theorem and_not_of_and_eq_zero {a m : BitVec n} (h : a &&& m = 0) : a &&& ~~~m = a := by
  ext i hi
  have hbit : (a &&& m).getLsbD i = false := by
    rw [h]
    exact BitVec.getLsbD_zero
  rw [BitVec.getLsbD_and, BitVec.getLsbD_eq_getElem hi, BitVec.getLsbD_eq_getElem hi] at hbit
  rw [BitVec.getElem_and, BitVec.getElem_not]
  cases ha : a[i] <;> simp_all

theorem or_and_not_or (a b m : BitVec n) : (a ||| b) &&& ~~~(m ||| b) = a &&& ~~~(m ||| b) := by
  ext i hi
  simp only [BitVec.getElem_and, BitVec.getElem_or, BitVec.getElem_not]
  cases b[i] <;> simp

theorem and_twoPow_ne_zero {x : BitVec n} {i : Nat} (hi : i < n) :
    x &&& BitVec.twoPow n i ≠ 0 ↔ x.getLsbD i = true := by
  rw [BitVec.and_twoPow]
  split_ifs with h
  · refine iff_of_true (fun hz => ?_) h
    have hbit := congrArg (BitVec.getLsbD · i) hz
    simp [hi] at hbit
  · exact iff_of_false (fun hz => hz rfl) h

theorem flag_iff {x : BitVec n} {i : Nat} (hi : i < n) :
    x &&& BitVec.twoPow n i ≠ 0 ↔ x.toNat / 2 ^ i % 2 = 1 := by
  rw [and_twoPow_ne_zero hi, BitVec.getLsbD, Nat.testBit_eq_decide_div_mod_eq, decide_eq_true_iff]

theorem toNat_and_low (x : BitVec n) {k : Nat} (hk : k ≤ n) :
    (x &&& BitVec.ofNat n (2 ^ k - 1)).toNat = x.toNat % 2 ^ k := by
  have hlt : 2 ^ k - 1 < 2 ^ n :=
    (Nat.sub_lt (Nat.two_pow_pos k) Nat.one_pos).trans_le (Nat.pow_le_pow_right Nat.two_pos hk)
  rw [BitVec.toNat_and, BitVec.toNat_ofNat, Nat.mod_eq_of_lt hlt, Nat.and_two_pow_sub_one_eq_mod]

theorem setWidth_and_low (x : BitVec n) {k : Nat} (hk : k ≤ n) :
    (x &&& BitVec.ofNat n (2 ^ k - 1)).setWidth k = x.setWidth k := by
  apply BitVec.eq_of_toNat_eq
  rw [BitVec.toNat_setWidth, BitVec.toNat_setWidth, toNat_and_low x hk, Nat.mod_mod]

theorem getLsbD_low (k : Nat) {i : Nat} (hi : i < n) :
    (BitVec.ofNat n (2 ^ k - 1)).getLsbD i = decide (i < k) := by
  rw [BitVec.getLsbD_ofNat, Nat.testBit_two_pow_sub_one, decide_eq_true hi, Bool.true_and]

theorem and_not_low (x : BitVec n) (k : Nat) :
    x &&& ~~~BitVec.ofNat n (2 ^ k - 1) = (x >>> k) <<< k := by
  ext i hi
  have hbit : (BitVec.ofNat n (2 ^ k - 1))[i] = decide (i < k) := by
    rw [← BitVec.getLsbD_eq_getElem, getLsbD_low k hi]
  rw [BitVec.getElem_and, BitVec.getElem_not, hbit, BitVec.getElem_shiftLeft]
  by_cases hlt : i < k
  · simp [hlt]
  · simp [hlt, Nat.add_sub_cancel' (Nat.le_of_not_lt hlt), ← BitVec.getLsbD_eq_getElem]

theorem toNat_and_not_low (x : BitVec n) (k : Nat) :
    (x &&& ~~~BitVec.ofNat n (2 ^ k - 1)).toNat = x.toNat / 2 ^ k * 2 ^ k := by
  have hle : x.toNat / 2 ^ k * 2 ^ k < 2 ^ n := (Nat.div_mul_le_self _ _).trans_lt x.isLt
  rw [and_not_low, BitVec.toNat_shiftLeft, BitVec.toNat_ushiftRight, Nat.shiftRight_eq_div_pow,
    Nat.shiftLeft_eq, Nat.mod_eq_of_lt hle]

theorem toNat_add_ofNat_of_lt {x : BitVec n} {k : Nat} (h : x.toNat + k < 2 ^ n) :
    (x + BitVec.ofNat n k).toNat = x.toNat + k := by
  have hk : (BitVec.ofNat n k).toNat = k := Nat.mod_eq_of_lt (by omega)
  rw [BitVec.toNat_add_of_lt (by omega), hk]

theorem toNat_sub_ofNat_of_le {x : BitVec n} {k : Nat} (h : k ≤ x.toNat) :
    (x - BitVec.ofNat n k).toNat = x.toNat - k := by
  have hk : (BitVec.ofNat n k).toNat = k := Nat.mod_eq_of_lt (h.trans_lt x.isLt)
  rw [BitVec.toNat_sub_of_le (BitVec.le_def.mpr (by omega)), hk]

end Words

end Jos
