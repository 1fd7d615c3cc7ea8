import Mathlib.Data.Nat.Basic
import Mathlib.Order.Lattice

/-! An unbounded roll of paper seen through a window of `rows` rows of `cols`
cells: what a scrolling terminal shows. The roll is never moved, only the
window is. -/

namespace Jos

structure Roll (γ : Type*) where
  cells : Nat → γ
  cursor : Nat
  top : Nat

namespace Roll

variable {γ : Type*}

def write (v : γ) (r : Roll γ) : Roll γ :=
  { r with cells := fun i => if i = r.cursor then v else r.cells i, cursor := r.cursor + 1 }

def newline (cols : Nat) (r : Roll γ) : Roll γ :=
  { r with cursor := cols * (r.cursor / cols + 1) }

def home (cols : Nat) (r : Roll γ) : Roll γ :=
  { r with cursor := cols * (r.cursor / cols) }

def erase (cols : Nat) (v : γ) (r : Roll γ) : Roll γ :=
  if cols * r.top < r.cursor then
    { r with cells := fun i => if i = r.cursor - 1 then v else r.cells i, cursor := r.cursor - 1 }
  else r

def follow (cols rows : Nat) (r : Roll γ) : Roll γ :=
  { r with top := max r.top (r.cursor / cols + 1 - rows) }

/-- The cursor is in the window or at most `slack` rows below it, and nothing
below the window has been written yet. -/
structure Sound (cols rows : Nat) (blank : γ) (slack : Nat) (r : Roll γ) : Prop where
  above : cols * r.top ≤ r.cursor
  below : r.cursor < cols * (r.top + rows + slack)
  fresh : ∀ i, cols * (r.top + rows) ≤ i → r.cells i = blank

variable {cols rows : Nat} {blank : γ} {r : Roll γ}

/-- The window moves just enough: it is the least one, not above the present
one, that holds the cursor. -/
theorem follow_top_le_iff (hcols : 0 < cols) (rows : Nat) (r : Roll γ) (t : Nat) :
    (follow cols rows r).top ≤ t ↔ r.top ≤ t ∧ r.cursor < cols * (t + rows) := by
  rw [Nat.mul_comm cols, ← Nat.div_lt_iff_lt_mul hcols]
  simp only [follow, Nat.max_le]
  omega

theorem follow_top (hcols : 0 < cols) (h : r.Sound cols rows blank 1) :
    (follow cols rows r).top = if r.cursor < cols * (r.top + rows) then r.top else r.top + 1 := by
  have hle := fun t => follow_top_le_iff hcols rows r t
  have hnext := (hle (r.top + 1)).mpr
    ⟨by omega, by have := h.below; rwa [Nat.add_right_comm] at this⟩
  have hge : r.top ≤ (follow cols rows r).top := le_max_left _ _
  split_ifs with hc
  · exact le_antisymm ((hle r.top).mpr ⟨le_rfl, hc⟩) hge
  · have hne : ¬ (follow cols rows r).top ≤ r.top := fun hh => hc ((hle r.top).mp hh).2
    omega

theorem Sound.follow (hcols : 0 < cols) (hrows : 0 < rows) (h : r.Sound cols rows blank 1) :
    (r.follow cols rows).Sound cols rows blank 0 := by
  have ht := follow_top hcols h
  have hin := ((follow_top_le_iff hcols rows r _).mp le_rfl).2
  refine ⟨?_, hin, fun i hi => h.fresh i (le_trans (Nat.mul_le_mul_left _ ?_) hi)⟩
  · rw [ht]
    split_ifs with hc
    · exact h.above
    · exact le_trans (Nat.mul_le_mul_left _ (by omega)) (Nat.le_of_not_lt hc)
  · exact Nat.add_le_add_right (le_max_left _ _) _

theorem Sound.write (v : γ) (hcols : 0 < cols) (h : r.Sound cols rows blank 0) :
    (r.write v).Sound cols rows blank 1 := by
  have hb := h.below
  refine ⟨Nat.le_succ_of_le h.above, ?_, fun i hi => ?_⟩
  · show r.cursor + 1 < cols * (r.top + rows + 1)
    rw [Nat.mul_succ]
    simp only [Nat.add_zero] at hb
    omega
  · have hne : i ≠ r.cursor := fun he => absurd (hb.trans_le (he ▸ hi)) (lt_irrefl _)
    simp only [Roll.write, if_neg hne]
    exact h.fresh i hi

theorem Sound.newline (hcols : 0 < cols) (h : r.Sound cols rows blank 0) :
    (r.newline cols).Sound cols rows blank 1 := by
  have hlt : r.cursor / cols < r.top + rows :=
    (Nat.div_lt_iff_lt_mul hcols).mpr (by rw [Nat.mul_comm]; exact h.below)
  have hle : r.cursor ≤ cols * (r.cursor / cols + 1) := (Nat.lt_mul_div_succ _ hcols).le
  exact ⟨h.above.trans hle, Nat.mul_lt_mul_of_pos_left (Nat.succ_lt_succ hlt) hcols, h.fresh⟩

theorem Sound.home (hcols : 0 < cols) (h : r.Sound cols rows blank 0) :
    (r.home cols).Sound cols rows blank 0 := by
  have hle : r.top ≤ r.cursor / cols :=
    (Nat.le_div_iff_mul_le hcols).mpr (by rw [Nat.mul_comm]; exact h.above)
  exact ⟨Nat.mul_le_mul_left _ hle, (Nat.mul_div_le _ _).trans_lt h.below, h.fresh⟩

theorem Sound.erase (v : γ) (h : r.Sound cols rows blank 0) :
    (r.erase cols v).Sound cols rows blank 0 := by
  have hb := h.below
  unfold Roll.erase
  split_ifs with hc
  · refine ⟨Nat.le_sub_one_of_lt hc, (Nat.sub_le _ _).trans_lt hb, fun i hi => ?_⟩
    have hne : i ≠ r.cursor - 1 := by
      intro he
      have hh : cols * (r.top + rows) ≤ r.cursor - 1 := he ▸ hi
      simp only [Nat.add_zero] at hb
      omega
    simp only [if_neg hne]
    exact h.fresh i hi
  · exact h

theorem Sound.widen (h : r.Sound cols rows blank 0) : r.Sound cols rows blank 1 :=
  ⟨h.above, h.below.trans_le (Nat.mul_le_mul_left _ (by omega)), h.fresh⟩

end Roll

end Jos
