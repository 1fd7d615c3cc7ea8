import Mathlib.Data.List.Basic
import Mathlib.Data.Nat.ModEq

/-! A ring of `cap` slots with a read and a write position and no stored
count. Writing never fails: it laps the reader, who then skips `cap` items. -/

namespace Jos

structure Ring (α : Type*) where
  slot : Nat → α
  rpos : Nat
  wpos : Nat

namespace Ring

variable {α : Type*}

def next (cap pos : Nat) : Nat :=
  if pos + 1 = cap then 0 else pos + 1

def put (cap : Nat) (x : α) (q : Ring α) : Ring α :=
  { q with slot := fun i => if i = q.wpos then x else q.slot i, wpos := next cap q.wpos }

def take (cap : Nat) (q : Ring α) : Option (α × Ring α) :=
  if q.rpos ≠ q.wpos then some (q.slot q.rpos, { q with rpos := next cap q.rpos }) else none

def pending (cap : Nat) (q : Ring α) : List α :=
  (List.range ((q.wpos + cap - q.rpos) % cap)).map fun k => q.slot ((q.rpos + k) % cap)

/-- After the items of `w` were put, the reader stands at item `r`: the last
`cap` items are in their slots, and fewer than `cap` of them are ahead. -/
structure Holds (cap : Nat) (q : Ring α) (w : List α) (r : Nat) : Prop where
  le : r ≤ w.length
  lt : w.length < r + cap
  rpos : q.rpos = r % cap
  wpos : q.wpos = w.length % cap
  slots : ∀ k (hk : k < w.length), w.length ≤ k + cap → q.slot (k % cap) = w[k]

theorem eq_of_mod_eq {n i j : Nat} (h : i % n = j % n) (hij : i ≤ j) (hlt : j < i + n) : i = j := by
  have hd := (Nat.modEq_iff_dvd' hij).mp h
  have hz := Nat.eq_zero_of_dvd_of_lt hd (by omega)
  omega

theorem next_mod {cap : Nat} (hcap : 0 < cap) (k : Nat) : next cap (k % cap) = (k + 1) % cap := by
  have hlt := Nat.mod_lt k hcap
  rw [← Nat.mod_add_mod k cap 1]
  unfold next
  split_ifs with h
  · rw [h, Nat.mod_self]
  · exact (Nat.mod_eq_of_lt (by omega)).symm

variable {cap : Nat} {q : Ring α} {w : List α} {r : Nat}

theorem holds_empty (hcap : 0 < cap) (s : Nat → α) : Holds cap ⟨s, 0, 0⟩ [] 0 :=
  ⟨le_rfl, by simpa using hcap, by simp, by simp, fun k hk => absurd hk (by simp)⟩

theorem Holds.rpos_lt (hcap : 0 < cap) (h : q.Holds cap w r) : q.rpos < cap :=
  h.rpos ▸ Nat.mod_lt _ hcap

theorem Holds.wpos_lt (hcap : 0 < cap) (h : q.Holds cap w r) : q.wpos < cap :=
  h.wpos ▸ Nat.mod_lt _ hcap

theorem Holds.rpos_eq_wpos_iff (h : q.Holds cap w r) : q.rpos = q.wpos ↔ r = w.length := by
  rw [h.rpos, h.wpos]
  exact ⟨fun he => eq_of_mod_eq he h.le h.lt, fun he => by rw [he]⟩

/-- A write that finds `cap - 1` items ahead of the reader laps it. -/
theorem Holds.put (hcap : 0 < cap) (h : q.Holds cap w r) (x : α) :
    (q.put cap x).Holds cap (w ++ [x]) (if w.length + 1 = r + cap then r + cap else r) := by
  have hle := h.le
  have hlt := h.lt
  refine ⟨?_, ?_, ?_, ?_, ?_⟩
  · rw [List.length_append, List.length_singleton]
    split_ifs <;> omega
  · rw [List.length_append, List.length_singleton]
    split_ifs <;> omega
  · show q.rpos = _
    split_ifs
    · rw [h.rpos, Nat.add_mod_right]
    · exact h.rpos
  · show next cap q.wpos = _
    rw [h.wpos, next_mod hcap, List.length_append, List.length_singleton]
  · intro k hk hnear
    rw [List.length_append, List.length_singleton] at hk hnear
    simp only [Ring.put, h.wpos]
    by_cases hkw : k = w.length
    · subst hkw
      simp
    · have hne : k % cap ≠ w.length % cap := fun he => hkw (eq_of_mod_eq he (by omega) (by omega))
      rw [if_neg hne, h.slots k (by omega) (by omega), List.getElem_append_left]

theorem Holds.take_some (hcap : 0 < cap) (h : q.Holds cap w r) (hr : r < w.length) :
    q.take cap = some (w[r], { q with rpos := next cap q.rpos }) ∧
      Holds cap { q with rpos := next cap q.rpos } w (r + 1) := by
  have hlt := h.lt
  have hne : q.rpos ≠ q.wpos := fun he => hr.ne (h.rpos_eq_wpos_iff.mp he)
  constructor
  · rw [take, if_pos hne, h.rpos, h.slots r hr (by omega)]
  · refine ⟨hr, by omega, ?_, h.wpos, h.slots⟩
    show next cap q.rpos = _
    rw [h.rpos, next_mod hcap]

theorem Holds.take_none (h : q.Holds cap w r) (hr : r = w.length) : q.take cap = none := by
  rw [take, if_neg (not_not.mpr (h.rpos_eq_wpos_iff.mpr hr))]

theorem Holds.pending_eq (hcap : 0 < cap) (h : q.Holds cap w r) : q.pending cap = w.drop r := by
  have hle := h.le
  have hlt := h.lt
  have hcount : (q.wpos + cap - q.rpos) % cap = w.length - r := by
    have hr := h.rpos_lt hcap
    have hc : (q.wpos + cap - q.rpos + r) % cap = (w.length - r + r) % cap := by
      rw [Nat.sub_add_cancel hle, h.rpos, h.wpos]
      have hd := Nat.mod_add_div r cap
      have hm := Nat.mod_lt r hcap
      have he : w.length % cap + cap - r % cap + r = w.length % cap + cap * (r / cap + 1) := by
        rw [Nat.mul_succ]
        omega
      rw [he, Nat.add_mul_mod_self_left, Nat.mod_mod]
    have hm : (q.wpos + cap - q.rpos) % cap = (w.length - r) % cap := Nat.ModEq.add_right_cancel' r hc
    exact hm.trans (Nat.mod_eq_of_lt (by omega))
  apply List.ext_getElem
  · simp [pending, hcount]
  · intro i hi hi'
    simp only [pending, List.length_map, List.length_range, hcount] at hi
    simp only [pending, List.getElem_map, List.getElem_range, List.getElem_drop]
    rw [h.rpos, Nat.mod_add_mod, h.slots (r + i) (by omega) (by omega)]

end Ring

end Jos
