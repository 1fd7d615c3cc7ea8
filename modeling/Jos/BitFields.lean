import Mathlib.Data.BitVec

/-! Bit-fields, packed from the lowest bit up into units that none of them may
cross, and read back at their places; and numbers as little-endian bytes. -/

namespace Jos

/-- The field of `width` bits from bit `off` of a number. -/
def bitsAt (q off width : Nat) : BitVec width :=
  BitVec.ofNat width (q / 2 ^ off)

theorem getLsbD_bitsAt (q off width i : Nat) :
    (bitsAt q off width).getLsbD i = (decide (i < width) && q.testBit (off + i)) := by
  rw [bitsAt, BitVec.getLsbD_ofNat, Nat.testBit_div_two_pow, Nat.add_comm i off]

theorem bitsAt_append (q off w w' : Nat) :
    bitsAt q (off + w) w' ++ bitsAt q off w = bitsAt q off (w' + w) := by
  apply BitVec.eq_of_getLsbD_eq
  intro i hi
  rw [BitVec.getLsbD_append, getLsbD_bitsAt, getLsbD_bitsAt, getLsbD_bitsAt, decide_eq_true hi,
    Bool.true_and]
  by_cases hw : i < w
  · rw [if_pos hw, decide_eq_true hw, Bool.true_and]
  · have hat : off + w + (i - w) = off + i := by omega
    rw [if_neg hw, decide_eq_true (by omega), Bool.true_and, hat]

theorem extract_bitsAt (q off : Nat) {w k w' : Nat} (h : k + w' ≤ w) :
    (bitsAt q off w).extractLsb' k w' = bitsAt q (off + k) w' := by
  apply BitVec.eq_of_getLsbD_eq
  intro i hi
  rw [BitVec.getLsbD_extractLsb', getLsbD_bitsAt, getLsbD_bitsAt, decide_eq_true (by omega : k + i < w),
    Bool.true_and, Nat.add_assoc]

theorem bitsAt_mod (q : Nat) {n off w : Nat} (h : off + w ≤ n) :
    bitsAt (q % 2 ^ n) off w = bitsAt q off w := by
  apply BitVec.eq_of_getLsbD_eq
  intro i hi
  rw [getLsbD_bitsAt, getLsbD_bitsAt, Nat.testBit_mod_two_pow, decide_eq_true (by omega : off + i < n),
    Bool.true_and]

theorem setWidth_shift {n : Nat} (x : BitVec n) (off w : Nat) :
    (x >>> off).setWidth w = bitsAt x.toNat off w := by
  apply BitVec.eq_of_toNat_eq
  rw [BitVec.toNat_setWidth, BitVec.toNat_ushiftRight, Nat.shiftRight_eq_div_pow, bitsAt,
    BitVec.toNat_ofNat]

theorem bitsAt_toNat {n : Nat} (x : BitVec n) : bitsAt x.toNat 0 n = x := by
  rw [bitsAt, Nat.pow_zero, Nat.div_one, BitVec.ofNat_toNat, BitVec.setWidth_eq]

structure BitField where
  width : Nat
  value : BitVec width

/-- Where a field of `width` bits goes when `start` bits are taken: to the next
unit when the rest of this one is too short. -/
def place (unit start width : Nat) : Nat :=
  if start % unit + width ≤ unit then start else (start / unit + 1) * unit

def placeFrom (unit : Nat) : Nat → List BitField → List (Nat × BitField)
  | _, [] => []
  | start, f :: fs =>
    (place unit start f.width, f) :: placeFrom unit (place unit start f.width + f.width) fs

/-- The number that the fields make up, from bit `start` on. -/
def packFrom (unit start : Nat) (fs : List BitField) : Nat :=
  ((placeFrom unit start fs).map fun p => p.2.value.toNat * 2 ^ p.1).sum

section Packing

variable {unit : Nat} (hunit : 0 < unit)

include hunit

theorem le_place (start width : Nat) : start ≤ place unit start width := by
  rw [place]
  split_ifs
  · exact le_rfl
  · exact (Nat.lt_mul_of_div_lt (Nat.lt_succ_self _) hunit).le

theorem start_le_of_mem {start off : Nat} {f : BitField} {fs : List BitField}
    (h : (off, f) ∈ placeFrom unit start fs) : start ≤ off := by
  induction fs generalizing start with
  | nil => cases h
  | cons g fs ih =>
    have hplace := le_place hunit start g.width
    rcases List.mem_cons.mp h with heq | hmem
    · exact hplace.trans_eq (congrArg Prod.fst heq).symm
    · exact (hplace.trans (Nat.le_add_right _ _)).trans (ih hmem)

theorem packFrom_dvd (start : Nat) (fs : List BitField) : 2 ^ start ∣ packFrom unit start fs := by
  induction fs generalizing start with
  | nil => exact Nat.dvd_zero _
  | cons f fs ih =>
    have hplace := le_place hunit start f.width
    have hrest := ih (place unit start f.width + f.width)
    exact Nat.dvd_add (Nat.dvd_mul_left_of_dvd (Nat.pow_dvd_pow 2 hplace) _)
      ((Nat.pow_dvd_pow 2 (hplace.trans (Nat.le_add_right _ _))).trans hrest)

/-- A packed field is read back where it was placed. -/
theorem bitsAt_packFrom {start off : Nat} {f : BitField} {fs : List BitField}
    (h : (off, f) ∈ placeFrom unit start fs) :
    bitsAt (packFrom unit start fs) off f.width = f.value := by
  apply BitVec.eq_of_toNat_eq
  rw [bitsAt, BitVec.toNat_ofNat]
  induction fs generalizing start with
  | nil => cases h
  | cons g fs ih =>
    have hsum : packFrom unit start (g :: fs) = g.value.toNat * 2 ^ place unit start g.width +
        packFrom unit (place unit start g.width + g.width) fs := rfl
    obtain ⟨rest, hrest⟩ := packFrom_dvd hunit (place unit start g.width + g.width) fs
    rw [hsum, hrest]
    rcases List.mem_cons.mp h with heq | hmem
    · obtain ⟨rfl, rfl⟩ := Prod.mk.inj heq
      rw [Nat.pow_add, Nat.mul_comm f.value.toNat, Nat.mul_assoc, ← Nat.mul_add,
        Nat.mul_div_cancel_left _ (Nat.two_pow_pos _), Nat.add_mul_mod_self_left,
        Nat.mod_eq_of_lt f.value.isLt]
    · have hlt : g.value.toNat * 2 ^ place unit start g.width <
        2 ^ (place unit start g.width + g.width) := by
        rw [Nat.pow_add, Nat.mul_comm]
        exact Nat.mul_lt_mul_of_pos_left g.value.isLt (Nat.two_pow_pos _)
      obtain ⟨k, rfl⟩ := Nat.exists_eq_add_of_le (start_le_of_mem hunit hmem)
      have hread := ih hmem
      rw [hrest, Nat.pow_add 2 (place unit start g.width + g.width) k, ← Nat.div_div_eq_div_mul,
        Nat.mul_div_cancel_left _ (Nat.two_pow_pos _)] at hread
      rw [Nat.pow_add 2 (place unit start g.width + g.width) k, ← Nat.div_div_eq_div_mul,
        Nat.add_mul_div_left _ _ (Nat.two_pow_pos _), Nat.div_eq_of_lt hlt, Nat.zero_add, hread]

end Packing

/-- The `n` bytes of a number from bit `off` on. -/
def bytesFrom (q : Nat) : Nat → Nat → List (BitVec 8)
  | _, 0 => []
  | off, n + 1 => bitsAt q off 8 :: bytesFrom q (off + 8) n

def fromBytes : List (BitVec 8) → Nat
  | [] => 0
  | b :: bs => b.toNat + 2 ^ 8 * fromBytes bs

theorem fromBytes_bytesFrom (q off n : Nat) :
    fromBytes (bytesFrom q off n) = q / 2 ^ off % 2 ^ (8 * n) := by
  induction n generalizing off with
  | zero => exact (Nat.mod_one _).symm
  | succ n ih =>
    have hsize : 2 ^ (8 * (n + 1)) = 2 ^ 8 * 2 ^ (8 * n) := by
      rw [← Nat.pow_add, Nat.mul_succ, Nat.add_comm]
    rw [bytesFrom, fromBytes, ih, hsize, Nat.mod_mul, Nat.div_div_eq_div_mul, ← Nat.pow_add, bitsAt,
      BitVec.toNat_ofNat]

end Jos
