import Mathlib.Data.Nat.Digits.Lemmas

/-! The numeral of a number in a base: its digits, the most significant first,
and the one digit 0 for zero. Horner's rule reads it back in any ring. -/

namespace Jos

def numeral (base num : Nat) : List Nat :=
  if num = 0 then [0] else (Nat.digits base num).reverse

variable {base num : Nat}

theorem numeral_of_lt (h : num < base) : numeral base num = [num] := by
  unfold numeral
  split_ifs with hz
  · rw [hz]
  · rw [Nat.digits_of_lt base num hz h, List.reverse_singleton]

theorem numeral_of_le (hb : 2 ≤ base) (h : base ≤ num) :
    numeral base num = numeral base (num / base) ++ [num % base] := by
  have hq : num / base ≠ 0 := (Nat.div_pos h (by omega)).ne'
  rw [numeral, if_neg (by omega), numeral, if_neg hq,
    Nat.digits_def' (by omega) (by omega : 0 < num), List.reverse_cons]

theorem numeral_ne_nil (base num : Nat) : numeral base num ≠ [] := by
  unfold numeral
  split_ifs with hz
  · simp
  · rw [ne_eq, List.reverse_eq_nil_iff]
    exact Nat.digits_ne_nil_iff_ne_zero.mpr hz

theorem numeral_lt (hb : 2 ≤ base) {d : Nat} (hd : d ∈ numeral base num) : d < base := by
  unfold numeral at hd
  split_ifs at hd with hz
  · rw [List.mem_singleton.mp hd]
    omega
  · exact Nat.digits_lt_base (by omega) (List.mem_reverse.mp hd)

theorem numeral_length_le (hb : 2 ≤ base) {k : Nat} (h : num < base ^ (k + 1)) :
    (numeral base num).length ≤ k + 1 := by
  unfold numeral
  split_ifs with hz
  · simp
  · rw [List.length_reverse]
    exact (Nat.digits_length_le_iff (by omega) num).mpr h

theorem numeral_head (hz : num ≠ 0) {d : Nat} {ds : List Nat}
    (h : numeral base num = d :: ds) : d ≠ 0 := by
  rw [numeral, if_neg hz] at h
  have hne : Nat.digits base num ≠ [] := Nat.digits_ne_nil_iff_ne_zero.mpr hz
  have hlast := Nat.getLast_digit_ne_zero base hz
  rw [← List.head_reverse (by rw [ne_eq, List.reverse_eq_nil_iff]; exact hne)] at hlast
  simpa only [h, List.head_cons] using hlast

theorem horner_numeral {R : Type*} [CommSemiring R] (base num : Nat) :
    (numeral base num).foldl (fun (v : R) (d : Nat) => v * base + d) 0 = num := by
  unfold numeral
  split_ifs with hz
  · simp [hz]
  · rw [List.foldl_reverse]
    have hh : (Nat.digits base num).foldr (fun (d : Nat) (v : R) => v * base + d) 0 =
        Nat.ofDigits (base : R) (Nat.digits base num) := by
      rw [Nat.ofDigits_eq_foldr]
      congr 1
      funext d v
      ring
    rw [hh, ← Nat.coe_ofDigits, Nat.ofDigits_digits]

end Jos
