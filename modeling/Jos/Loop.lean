import Mathlib.Data.List.Induction
import Mathlib.Order.Basic

/-! Loops of a sequential program, run with a bound on the number of turns, and
the rule by which they are verified: an invariant and a variant. Histories of
events are taken apart at their last one. -/

namespace Jos

inductive Turn (σ ρ : Type*) where
  | again (s : σ)
  | leave (r : ρ)

/-- A body that yields `none` faults. The loop yields `none` when its body
faults or when the bound is spent. -/
def loop {σ ρ : Type*} (body : σ → Option (Turn σ ρ)) : Nat → σ → Option ρ
  | 0, _ => none
  | fuel + 1, s =>
    match body s with
    | none => none
    | some (.leave r) => some r
    | some (.again s') => loop body fuel s'

/-- The states from which a run of at most `fuel` turns goes round again. -/
def rounds {σ ρ : Type*} (body : σ → Option (Turn σ ρ)) : Nat → σ → List σ
  | 0, _ => []
  | fuel + 1, s =>
    match body s with
    | some (.again s') => s :: rounds body fuel s'
    | _ => []

section Rules

variable {σ ρ : Type*} {body : σ → Option (Turn σ ρ)}

theorem loop_leave {s : σ} {r : ρ} (fuel : Nat) (h : body s = some (.leave r)) :
    loop body (fuel + 1) s = some r := by
  simp [loop, h]

theorem loop_again {s s' : σ} (fuel : Nat) (h : body s = some (.again s')) :
    loop body (fuel + 1) s = loop body fuel s' := by
  simp [loop, h]

theorem loop_fault {s : σ} (fuel : Nat) (h : body s = none) : loop body fuel s = none := by
  cases fuel <;> simp [loop, h]

theorem loop_mono {body' : σ → Option (Turn σ ρ)} (hle : ∀ s t, body s = some t → body' s = some t)
    {fuel : Nat} {s : σ} {r : ρ} (h : loop body fuel s = some r) : loop body' fuel s = some r := by
  induction fuel generalizing s with
  | zero => cases h
  | succ fuel ih =>
    cases hs : body s with
    | none => rw [loop_fault _ hs] at h; cases h
    | some t =>
      cases t with
      | leave r' =>
        rw [loop_leave fuel hs] at h
        rw [loop_leave fuel (hle s _ hs), h]
      | again s' =>
        rw [loop_again fuel hs] at h
        rw [loop_again fuel (hle s _ hs), ih h]

/-- Total correctness: the body keeps `inv`, decreases `variant` when it goes
round again, and leaves with `post`. -/
theorem loop_total {post : ρ → Prop} (inv : σ → Prop) (variant : σ → Nat)
    (hbody : ∀ s, inv s → (∃ r, body s = some (.leave r) ∧ post r) ∨
      ∃ s', body s = some (.again s') ∧ inv s' ∧ variant s' < variant s)
    {s : σ} (hs : inv s) {fuel : Nat} (hfuel : variant s < fuel) :
    ∃ r, loop body fuel s = some r ∧ post r := by
  induction fuel generalizing s with
  | zero => omega
  | succ fuel ih =>
    rcases hbody s hs with ⟨r, hr, hp⟩ | ⟨s', hs', hi, hv⟩
    · exact ⟨r, loop_leave fuel hr, hp⟩
    · rw [loop_again fuel hs']
      exact ih hi (by omega)

/-- Partial correctness: what the body keeps holds when it leaves. -/
theorem loop_partial (post : ρ → Prop) (inv : σ → Prop)
    (hagain : ∀ s s', inv s → body s = some (.again s') → inv s')
    (hleave : ∀ s r, inv s → body s = some (.leave r) → post r)
    {s : σ} (hs : inv s) {fuel : Nat} {r : ρ} (h : loop body fuel s = some r) : post r := by
  induction fuel generalizing s with
  | zero => cases h
  | succ fuel ih =>
    cases ht : body s with
    | none => rw [loop_fault _ ht] at h; cases h
    | some t =>
      cases t with
      | leave r' =>
        rw [loop_leave fuel ht] at h
        cases h
        exact hleave s r hs ht
      | again s' =>
        rw [loop_again fuel ht] at h
        exact ih (hagain s s' hs ht) h

/-- A body that always goes round again. -/
theorem loop_endless (inv : σ → Prop) (hbody : ∀ s, inv s → ∃ s', body s = some (.again s') ∧ inv s')
    {s : σ} (hs : inv s) (fuel : Nat) : loop body fuel s = none := by
  induction fuel generalizing s with
  | zero => rfl
  | succ fuel ih =>
    obtain ⟨s', hs', hi⟩ := hbody s hs
    rw [loop_again fuel hs']
    exact ih hi

theorem rounds_again {s s' : σ} (fuel : Nat) (h : body s = some (.again s')) :
    rounds body (fuel + 1) s = s :: rounds body fuel s' := by
  simp [rounds, h]

theorem rounds_leave {s : σ} {r : ρ} (fuel : Nat) (h : body s = some (.leave r)) :
    rounds body fuel s = [] := by
  cases fuel <;> simp [rounds, h]

theorem rounds_length_le {n : Nat} {s : σ} {r : ρ} (h : loop body (n + 1) s = some r) (fuel : Nat) :
    (rounds body fuel s).length ≤ n := by
  induction fuel generalizing n s with
  | zero => exact Nat.zero_le n
  | succ fuel ih =>
    cases hs : body s with
    | none => rw [loop_fault _ hs] at h; cases h
    | some t =>
      cases t with
      | leave r' => simp [rounds_leave _ hs]
      | again s' =>
        rw [loop_again n hs] at h
        cases n with
        | zero => cases h
        | succ n => simpa [rounds_again fuel hs] using ih h

/-- When `variant` is how often the body still goes round, `inv` holds at each
round with the number of rounds before it. -/
theorem rounds_spec (inv : Nat → σ → Prop) (variant : σ → Nat)
    (hbody : ∀ k s, inv k s → (∃ r, body s = some (.leave r) ∧ variant s = 0) ∨
      ∃ s', body s = some (.again s') ∧ inv (k + 1) s' ∧ variant s = variant s' + 1)
    {k : Nat} {s : σ} (hs : inv k s) {fuel : Nat} (hfuel : variant s < fuel) :
    (rounds body fuel s).length = variant s ∧
      ∀ j t, (rounds body fuel s)[j]? = some t → inv (k + j) t := by
  induction fuel generalizing k s with
  | zero => omega
  | succ fuel ih =>
    rcases hbody k s hs with ⟨r, hr, hv⟩ | ⟨s', hs', hi, hv⟩
    · simp [rounds_leave _ hr, hv]
    · obtain ⟨hlen, hall⟩ := ih hi (by omega)
      rw [rounds_again fuel hs']
      refine ⟨by rw [List.length_cons, hlen, hv], fun j t ht => ?_⟩
      cases j with
      | zero =>
        obtain rfl := Option.some.inj ht
        exact hs
      | succ j =>
        have hj : k + (j + 1) = k + 1 + j := by omega
        rw [hj]
        exact hall j t ht

end Rules

theorem append_singleton_split {α : Type*} {log pre post : List α} {a x : α}
    (h : log ++ [a] = pre ++ x :: post) :
    (post = [] ∧ pre = log ∧ x = a) ∨ ∃ post', post = post' ++ [a] ∧ log = pre ++ x :: post' := by
  cases post using List.reverseRecOn with
  | nil =>
    obtain ⟨hl, ha⟩ := List.append_inj' h rfl
    exact .inl ⟨rfl, hl.symm, (List.singleton_inj.mp ha).symm⟩
  | append_singleton post b =>
    rw [← List.cons_append, ← List.append_assoc] at h
    obtain ⟨hl, ha⟩ := List.append_inj' h rfl
    exact .inr ⟨post, by rw [List.singleton_inj.mp ha], hl⟩

end Jos
