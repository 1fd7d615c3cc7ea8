import Mathlib.Order.Basic
import Mathlib.Algebra.Order.Group.Int

/-! Ascending sequences with gaps: only some positions hold a key. What is known
of such a sequence while a search for `x` narrows it down, and the plain scan for
the last position with a property. -/

namespace Jos

section Gap

variable {α : Type*} {key : Int → Option α} {a b : α} {l r t i j : Int}

def Gap (key : Int → Option α) (l r : Int) : Prop := ∀ i, l ≤ i → i ≤ r → key i = none

theorem Gap.not_some (hgap : Gap key l r) (hl : l ≤ i) (hr : i ≤ r) : key i ≠ some a := by
  rw [hgap i hl hr]
  exact (Option.some_ne_none a).symm

theorem Gap.last_unique (hi : i ≤ t) (ha : key i = some a) (hgap : Gap key (i + 1) t)
    (hj : j ≤ t) (hb : key j = some b) (hgap' : Gap key (j + 1) t) : i = j := by
  rcases lt_trichotomy i j with hlt | heq | hlt
  · exact absurd hb (hgap.not_some (by omega) hj)
  · exact heq
  · exact absurd ha (hgap'.not_some (by omega) hi)

end Gap

section Bracket

variable {α : Type*} [LinearOrder α] {key : Int → Option α}

def Ascending (key : Int → Option α) (l r : Int) : Prop :=
  ∀ i j a b, l ≤ i → i < j → j ≤ r → key i = some a → key j = some b → a ≤ b

/-- Of the positions from `L` to `R`, the search for `x` is down to those from `l` to `r`. -/
structure Bracket (key : Int → Option α) (x : α) (L R l r : Int) : Prop where
  lower : L ≤ l
  upper : r ≤ R
  below : ∀ i a, L ≤ i → i < l → key i = some a → a < x
  above : ∀ i a, r < i → i ≤ R → key i = some a → x < a

variable {x a b : α} {L R l r m t i j : Int}

theorem Ascending.le (hasc : Ascending key L R) (hi : L ≤ i) (hij : i ≤ j) (hj : j ≤ R)
    (ha : key i = some a) (hb : key j = some b) : a ≤ b := by
  by_cases heq : i = j
  · rw [heq, hb, Option.some.injEq] at ha
    exact ha.ge
  · exact hasc i j a b hi (by omega) hj ha hb

theorem Bracket.start (key : Int → Option α) (x : α) (L R : Int) : Bracket key x L R L R :=
  ⟨le_rfl, le_rfl, fun _ _ _ _ _ => by omega, fun _ _ _ _ _ => by omega⟩

theorem Bracket.skip (h : Bracket key x L R l r) (ht : l ≤ t + 1) (hgap : Gap key l t) :
    Bracket key x L R (t + 1) r := by
  refine ⟨h.lower.trans ht, h.upper, fun i b hi hit hb => ?_, h.above⟩
  by_cases hl : i < l
  · exact h.below i b hi hl hb
  · exact absurd hb (hgap.not_some (by omega) (by omega))

theorem Bracket.low (h : Bracket key x L R l r) (hasc : Ascending key L R) (hl : l ≤ m) (hmt : m ≤ t)
    (ht : t ≤ r) (hm : key m = some a) (hlt : a < x) (hgap : Gap key (m + 1) t) :
    Bracket key x L R (t + 1) r := by
  have hlower := h.lower
  have hupper := h.upper
  refine ⟨by omega, h.upper, fun i b hi hit hb => ?_, h.above⟩
  by_cases him : i ≤ m
  · exact (hasc.le hi him (by omega) hb hm).trans_lt hlt
  · exact absurd hb (hgap.not_some (by omega) (by omega))

theorem Bracket.high (h : Bracket key x L R l r) (hasc : Ascending key L R) (hl : l ≤ m) (hr : m ≤ r)
    (hm : key m = some a) (hlt : x < a) : Bracket key x L R l (m - 1) := by
  have hlower := h.lower
  have hupper := h.upper
  refine ⟨h.lower, by omega, h.below, fun i b hi hiR hb => ?_⟩
  exact hlt.trans_le (hasc.le (by omega) (by omega) hiR hm hb)

end Bracket

/-- The last of the `n` positions from `lo` on that has the property. -/
def lastOf (p : Int → Prop) [DecidablePred p] (lo : Int) : Nat → Option Int
  | 0 => none
  | n + 1 => if p (lo + n) then some (lo + n) else lastOf p lo n

section LastOf

variable {p : Int → Prop} [DecidablePred p] {lo i : Int} {n : Nat}

theorem lastOf_eq_some (hlo : lo ≤ i) (hn : i < lo + n) (hi : p i)
    (hlast : ∀ j, i < j → j < lo + n → ¬ p j) : lastOf p lo n = some i := by
  induction n with
  | zero => omega
  | succ n ih =>
    by_cases hin : i = lo + n
    · rw [lastOf, ← hin, if_pos hi]
    · rw [lastOf, if_neg (hlast _ (by omega) (by omega))]
      exact ih (by omega) fun j hij hj => hlast j hij (by omega)

theorem lastOf_eq_none (h : ∀ j, lo ≤ j → j < lo + n → ¬ p j) : lastOf p lo n = none := by
  induction n with
  | zero => rfl
  | succ n ih =>
    rw [lastOf, if_neg (h _ (by omega) (by omega))]
    exact ih fun j hlo hj => h j hlo (by omega)

end LastOf

end Jos
