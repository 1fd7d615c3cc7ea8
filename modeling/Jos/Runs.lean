import Jos.Loop

/-! Systems that take one event after another, and forward simulation between two
of them. What two sources send arrives as a merge of both. -/

namespace Jos

section Runs

variable {σ τ ρ ρ' ε : Type*}

/-- A step that faults yields `none`. A system that has left takes no more events. -/
def run (step : σ → ε → Option (Turn σ ρ)) : List ε → σ → Option (Turn σ ρ)
  | [], s => some (.again s)
  | e :: es, s => (step s e).bind fun
    | .leave r => some (.leave r)
    | .again s => run step es s

def Turn.Rel (going : σ → τ → Prop) (left : ρ → ρ' → Prop) : Turn σ ρ → Turn τ ρ' → Prop
  | .again s, .again t => going s t
  | .leave r, .leave r' => left r r'
  | _, _ => False

variable {step : σ → ε → Option (Turn σ ρ)} {spec : τ → ε → Option (Turn τ ρ')}

@[simp] theorem run_nil (s : σ) : run step [] s = some (.again s) := rfl

theorem run_cons_again {s s' : σ} {e : ε} (h : step s e = some (.again s')) (es : List ε) :
    run step (e :: es) s = run step es s' := by
  simp [run, h]

theorem run_cons_leave {s : σ} {r : ρ} {e : ε} (h : step s e = some (.leave r)) (es : List ε) :
    run step (e :: es) s = some (.leave r) := by
  simp [run, h]

theorem run_append_again {s s' : σ} {es : List ε} (h : run step es s = some (.again s')) (es' : List ε) :
    run step (es ++ es') s = run step es' s' := by
  induction es generalizing s with
  | nil =>
    cases h
    rfl
  | cons e es ih =>
    obtain ⟨t, ht, hrest⟩ := Option.bind_eq_some_iff.mp h
    cases t with
    | leave r => cases hrest
    | again s₁ => exact (run_cons_again ht _).trans (ih hrest)

theorem run_append_leave {s : σ} {r : ρ} {es : List ε} (h : run step es s = some (.leave r))
    (es' : List ε) :
    run step (es ++ es') s = some (.leave r) := by
  induction es generalizing s with
  | nil => cases h
  | cons e es ih =>
    obtain ⟨t, ht, hrest⟩ := Option.bind_eq_some_iff.mp h
    cases t with
    | leave r' =>
      cases hrest
      exact run_cons_leave ht _
    | again s₁ => exact (run_cons_again ht _).trans (ih hrest)

/-- Forward simulation: where the specification goes on, or leaves, the system does too. -/
theorem run_simulates {going : σ → τ → Prop} {left : ρ → ρ' → Prop}
    (hstep : ∀ s t e r', going s t → spec t e = some r' → ∃ r, step s e = some r ∧ r.Rel going left r')
    (es : List ε) {s : σ} {t : τ} (h : going s t) {r' : Turn τ ρ'} (hrun : run spec es t = some r') :
    ∃ r, run step es s = some r ∧ r.Rel going left r' := by
  induction es generalizing s t with
  | nil =>
    cases hrun
    exact ⟨.again s, rfl, h⟩
  | cons e es ih =>
    obtain ⟨t', ht', hrest⟩ := Option.bind_eq_some_iff.mp hrun
    obtain ⟨r, hr, hrel⟩ := hstep s t e t' h ht'
    cases t' with
    | leave l =>
      cases hrest
      cases r with
      | leave l' => exact ⟨.leave l', run_cons_leave hr es, hrel⟩
      | again s' => exact hrel.elim
    | again t' =>
      cases r with
      | leave l' => exact hrel.elim
      | again s' =>
        rw [run_cons_again hr]
        exact ih hrel hrest

/-- What holds of the events taken so far and the state they led to. -/
theorem run_invariant (inv : List ε → σ → Prop)
    (hstep : ∀ es s e s', inv es s → step s e = some (.again s') → inv (es ++ [e]) s')
    {es₀ es : List ε} {s s' : σ} (h : inv es₀ s) (hrun : run step es s = some (.again s')) :
    inv (es₀ ++ es) s' := by
  induction es generalizing es₀ s with
  | nil =>
    cases hrun
    rwa [List.append_nil]
  | cons e es ih =>
    obtain ⟨t, ht, hrest⟩ := Option.bind_eq_some_iff.mp hrun
    cases t with
    | leave r => cases hrest
    | again s₁ =>
      rw [List.append_cons]
      exact ih (hstep es₀ s e s₁ h ht) hrest

/-- A system that never faults: what holds of the events so far and of how it stands,
whether it has left or not. -/
theorem run_progress (out : List ε → Turn σ ρ → Prop)
    (hstep : ∀ es s e, out es (.again s) → ∃ r, step s e = some r ∧ out (es ++ [e]) r)
    (hleft : ∀ es r e, out es (.leave r) → out (es ++ [e]) (.leave r)) {es₀ : List ε} {s : σ}
    (h : out es₀ (.again s)) (es : List ε) : ∃ r, run step es s = some r ∧ out (es₀ ++ es) r := by
  induction es using List.reverseRecOn with
  | nil => exact ⟨.again s, rfl, (List.append_nil es₀).symm ▸ h⟩
  | append_singleton es e ih =>
    obtain ⟨r, hrun, hout⟩ := ih
    rw [← List.append_assoc]
    cases r with
    | leave r => exact ⟨.leave r, run_append_leave hrun [e], hleft _ _ _ hout⟩
    | again s' =>
      obtain ⟨r', hr', hout'⟩ := hstep _ _ e hout
      refine ⟨r', ?_, hout'⟩
      rw [run_append_again hrun]
      cases r' with
      | leave r' => exact run_cons_leave hr' []
      | again s'' => exact run_cons_again hr' []

/-- `zs` holds what `xs` and `ys` hold, each in its order. -/
inductive Merges : List ε → List ε → List ε → Prop where
  | nil : Merges [] [] []
  | left {x : ε} {xs ys zs : List ε} (h : Merges xs ys zs) : Merges (x :: xs) ys (x :: zs)
  | right {y : ε} {xs ys zs : List ε} (h : Merges xs ys zs) : Merges xs (y :: ys) (y :: zs)

namespace Merges

variable {xs ys zs : List ε}

theorem append_left (h : Merges xs ys zs) (new : List ε) : Merges (xs ++ new) ys (zs ++ new) := by
  induction h with
  | nil =>
    induction new with
    | nil => exact .nil
    | cons x new ih => exact ih.left
  | left _ ih => exact ih.left
  | right _ ih => exact ih.right

theorem symm (h : Merges xs ys zs) : Merges ys xs zs := by
  induction h with
  | nil => exact .nil
  | left _ ih => exact ih.right
  | right _ ih => exact ih.left

theorem append_right (h : Merges xs ys zs) (new : List ε) : Merges xs (ys ++ new) (zs ++ new) :=
  (h.symm.append_left new).symm

theorem length_eq (h : Merges xs ys zs) : zs.length = xs.length + ys.length := by
  induction h with
  | nil => rfl
  | left _ ih => simp only [List.length_cons, ih]; omega
  | right _ ih => simp only [List.length_cons, ih]; omega

theorem eq_right (h : Merges [] ys zs) : zs = ys := by
  induction ys generalizing zs with
  | nil =>
    cases h
    rfl
  | cons y ys ih =>
    cases h with
    | right h => rw [ih h]

end Merges

end Runs

end Jos
