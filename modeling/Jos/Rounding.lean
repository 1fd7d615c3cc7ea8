import Jos.Bits
import Jos.Memory
import Mathlib.Order.Bounds.Basic

/-! `ROUNDDOWN` and `ROUNDUP` of `inc/types.h`, on 32-bit words. Rounding up adds
first, so it is right up to the last multiple that needs no carry. -/

namespace Jos

def ROUNDDOWN (a n : Word) : Word :=
  a - a % n

def ROUNDUP (a n : Word) : Word :=
  ROUNDDOWN (a + n - 1) n

/-- The multiples of `n`. -/
def multiples (n : Word) : Set Nat :=
  {m | n.toNat ∣ m}

theorem toNat_ROUNDDOWN (a n : Word) : (ROUNDDOWN a n).toNat = a.toNat - a.toNat % n.toNat := by
  have hmod : (a % n).toNat = a.toNat % n.toNat := BitVec.toNat_umod
  rw [ROUNDDOWN, BitVec.toNat_sub_of_le (BitVec.le_def.mpr (hmod.trans_le (Nat.mod_le _ _))), hmod]

theorem rounddown_isGreatest (a : Word) {n : Word} (hn : n ≠ 0) :
    IsGreatest (multiples n ∩ Set.Iic a.toNat) (ROUNDDOWN a n).toNat := by
  have hpos : 0 < n.toNat := Nat.pos_of_ne_zero fun h => hn (BitVec.eq_of_toNat_eq h)
  have hdiv := Nat.div_add_mod a.toNat n.toNat
  rw [toNat_ROUNDDOWN]
  refine ⟨⟨⟨a.toNat / n.toNat, by omega⟩, Nat.sub_le _ _⟩, ?_⟩
  rintro _ ⟨⟨k, rfl⟩, hk⟩
  have hle : k ≤ a.toNat / n.toNat := (Nat.le_div_iff_mul_le hpos).mpr (by rw [Nat.mul_comm]; exact hk)
  have hmul := Nat.mul_le_mul_left n.toNat hle
  omega

theorem toNat_sum (a n : Word) (hn : n ≠ 0) :
    (a + n - 1).toNat = if a.toNat + n.toNat ≤ 2 ^ 32 then a.toNat + n.toNat - 1
      else a.toNat + n.toNat - 1 - 2 ^ 32 := by
  have hpos : n.toNat ≠ 0 := fun h => hn (BitVec.eq_of_toNat_eq h)
  have ha := a.isLt
  have hb := n.isLt
  rw [BitVec.toNat_sub, BitVec.toNat_add]
  have hone : (1 : Word).toNat = 1 := rfl
  rw [hone]
  split_ifs <;> omega

/-- It rounds up to the least multiple exactly when `a + n - 1` does not wrap. -/
theorem roundup_isLeast_iff (a n : Word) (hn : n ≠ 0) :
    IsLeast (multiples n ∩ Set.Ici a.toNat) (ROUNDUP a n).toNat ↔ a.toNat + n.toNat ≤ 2 ^ 32 := by
  have hpos : 0 < n.toNat := Nat.pos_of_ne_zero fun h => hn (BitVec.eq_of_toNat_eq h)
  have hmod := Nat.mod_lt (a + n - 1).toNat hpos
  have hdiv := Nat.div_add_mod (a + n - 1).toNat n.toNat
  have hsum := toNat_sum a n hn
  have hlt := n.isLt
  rw [ROUNDUP, toNat_ROUNDDOWN]
  by_cases hfits : a.toNat + n.toNat ≤ 2 ^ 32
  · rw [if_pos hfits] at hsum
    refine iff_of_true ⟨⟨⟨(a + n - 1).toNat / n.toNat, by omega⟩, ?_⟩, ?_⟩ hfits
    · rw [Set.mem_Ici]
      omega
    · rintro _ ⟨⟨k, rfl⟩, hk⟩
      rw [Set.mem_Ici] at hk
      -- a smaller multiple would be more than `n - 1` below the sum
      by_contra hless
      have hsucc : k + 1 ≤ (a + n - 1).toNat / n.toNat := by
        by_contra hge
        exact hless ((Nat.sub_le_of_le_add (by omega)).trans
          (Nat.mul_le_mul_left n.toNat (Nat.lt_succ_iff.mp (Nat.not_le.mp hge))))
      have hmul := Nat.mul_le_mul_left n.toNat hsucc
      rw [Nat.mul_succ] at hmul
      omega
  · rw [if_neg hfits] at hsum
    refine iff_of_false (fun h => ?_) hfits
    have hle : a.toNat ≤ _ := h.1.2
    omega

theorem roundup_isLeast_iff_page :
    IsLeast (multiples 1024 ∩ Set.Ici (0xF010A944 : Word).toNat) (ROUNDUP 0xF010A944 1024).toNat ↔
      (0xF010A944 : Word).toNat + (1024 : Word).toNat ≤ 2 ^ 32 :=
  roundup_isLeast_iff 0xF010A944 1024 (by decide)

end Jos
