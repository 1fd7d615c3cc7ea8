import Mathlib.Order.Basic

/-! A function overwritten by one partial function after another: at each
argument the last one that is defined there gives the value. -/

namespace Jos

def overlay {α β : Type*} (patch : Nat → α → Option β) (f : α → β) : Nat → α → β
  | 0, a => f a
  | n + 1, a => (patch n a).getD (overlay patch f n a)

section Overlay

variable {α β : Type*} {patch : Nat → α → Option β} {f : α → β} {n : Nat} {a : α}

theorem overlay_untouched (h : ∀ k < n, patch k a = none) : overlay patch f n a = f a := by
  induction n with
  | zero => rfl
  | succ n ih =>
    rw [overlay, h n (by omega), Option.getD_none]
    exact ih fun k hk => h k (by omega)

theorem overlay_last {j : Nat} {b : β} (hj : j < n) (hb : patch j a = some b)
    (hlast : ∀ k, j < k → k < n → patch k a = none) : overlay patch f n a = b := by
  induction n with
  | zero => omega
  | succ n ih =>
    by_cases hjn : j = n
    · rw [overlay, ← hjn, hb, Option.getD_some]
    · rw [overlay, hlast n (by omega) (by omega), Option.getD_none]
      exact ih (by omega) fun k hjk hkn => hlast k hjk (by omega)

theorem exists_last_patch {i : Nat} (hi : i < n) (h : patch i a ≠ none) :
    ∃ j, i ≤ j ∧ j < n ∧ patch j a ≠ none ∧ ∀ k, j < k → k < n → patch k a = none := by
  induction n with
  | zero => omega
  | succ n ih =>
    by_cases hn : patch n a = none
    · have hne : i ≠ n := fun he => h (he ▸ hn)
      obtain ⟨j, hij, hj, hdef, hlast⟩ := ih (by omega)
      refine ⟨j, hij, by omega, hdef, fun k hjk hkn => ?_⟩
      by_cases hk : k = n
      · rw [hk, hn]
      · exact hlast k hjk (by omega)
    · exact ⟨n, by omega, by omega, hn, fun k hnk hkn => by omega⟩

/-- The value of one partial function survives if and only if the last later one
that is defined there has the same value. -/
theorem overlay_eq_iff {i : Nat} {b : β} (hi : i < n) (hb : patch i a = some b) :
    overlay patch f n a = b ↔
      ∀ j, i < j → j < n → (∀ k, j < k → k < n → patch k a = none) →
        ∀ c, patch j a = some c → c = b := by
  constructor
  · intro h j _ hj hlast c hc
    rw [← h, overlay_last hj hc hlast]
  · intro h
    have hdef : patch i a ≠ none := by simp [hb]
    obtain ⟨j, hij, hj, hne, hlast⟩ := exists_last_patch hi hdef
    obtain ⟨c, hc⟩ := Option.ne_none_iff_exists'.mp hne
    rw [overlay_last hj hc hlast]
    by_cases hijeq : i = j
    · subst hijeq
      exact Option.some.inj (hc.symm.trans hb)
    · exact h j (by omega) hj hlast c hc

end Overlay

end Jos
