import Jos.ConsoleInput
import Mathlib.Data.List.Induction

/-! The input ring keeps the order of the characters over any run. Its reader
stands at some received character, and every lap only moves it forward. -/

namespace Jos

/-- The ring after the characters `w` were received, with its reader at `r`. -/
structure Cons.Holds (cons : Cons) (w : List Byte) (r : Nat) : Prop where
  ring : cons.ring.Holds CONSBUFSIZE w r
  writes : cons.accesses.filterMap Access.written = w
  inBuf : ∀ a ∈ cons.accesses, a.index < CONSBUFSIZE

theorem Cons.holds_zeroed : Cons.zeroed.Holds [] 0 :=
  ⟨Ring.holds_empty (by decide) _, rfl, by simp [zeroed]⟩

theorem Cons.Holds.store {cons : Cons} {w : List Byte} {r : Nat} (h : cons.Holds w r) (c : Byte) :
    (consStore c cons).Holds (w ++ [c])
      (if w.length + 1 = r + CONSBUFSIZE then r + CONSBUFSIZE else r) := by
  refine ⟨h.ring.put (by decide) c, ?_, ?_⟩
  · simp only [consStore, List.filterMap_append, h.writes]
    rfl
  · intro a ha
    rcases List.mem_append.mp ha with ha | ha
    · exact h.inBuf a ha
    · rw [List.mem_singleton.mp ha]
      exact h.ring.wpos_lt (by decide)

theorem Cons.Holds.arrive {cons : Cons} {w : List Byte} {r : Nat} (h : cons.Holds w r)
    (serialExists : Bool) (e : ConsEvent) :
    ∃ r', r ≤ r' ∧ (e.arrive serialExists cons).Holds (w ++ e.delivered serialExists) r' ∧
      ((w ++ e.delivered serialExists).length < r + CONSBUFSIZE → r' = r) := by
  refine e.arrive_induction (P := fun cons w => ∃ r', r ≤ r' ∧ cons.Holds w r' ∧
    (w.length < r + CONSBUFSIZE → r' = r)) ?_ serialExists _ _
    ⟨r, le_rfl, h, fun _ => rfl⟩
  rintro c cons w - ⟨r', hr, hc, he⟩
  refine ⟨_, ?_, hc.store c, fun hroom => ?_⟩
  · split_ifs <;> omega
  · rw [List.length_append, List.length_singleton] at hroom
    have hr' := he (by omega)
    rw [if_neg (by omega), hr']

/-- Taking a character out: nothing is waiting exactly when the reader has
caught up, and otherwise the character at the reader comes out. -/
theorem Cons.Holds.take {cons : Cons} {w : List Byte} {r : Nat} (h : cons.Holds w r) :
    (r = w.length ∧ consTake cons = (0, cons)) ∨
      ∃ hr : r < w.length, (consTake cons).1 = w[r] ∧ (consTake cons).2.Holds w (r + 1) ∧
        (consTake cons).2.accesses = cons.accesses ++ [.read (r % CONSBUFSIZE) w[r]] := by
  rcases h.ring.le.eq_or_lt with hr | hr
  · exact .inl ⟨hr, consTake_of_take_none (h.ring.take_none hr)⟩
  · obtain ⟨ht, hq⟩ := h.ring.take_some (by decide) hr
    obtain ⟨hc, hring, hacc⟩ := consTake_of_take_some ht
    have hrpos : cons.rpos = r % CONSBUFSIZE := h.ring.rpos
    refine .inr ⟨hr, hc, ⟨hring ▸ hq, ?_, ?_⟩, by rw [hacc, hrpos]⟩
    · rw [hacc, List.filterMap_append, h.writes]
      exact List.append_nil w
    · intro a ha
      rw [hacc] at ha
      rcases List.mem_append.mp ha with ha | ha
      · exact h.inBuf a ha
      · rw [List.mem_singleton.mp ha]
        exact h.ring.rpos_lt (by decide)

theorem Session.step_spec {s : Session} {r : Nat} (h : s.cons.Holds s.received r)
    (hnz : ∀ c ∈ s.received, c ≠ 0) (serialExists : Bool) (e : ConsEvent) :
    let t := s.step serialExists e
    let cons := e.arrive serialExists s.cons
    (∀ c ∈ t.received, c ≠ 0) ∧ ∃ r', r ≤ r' ∧ (t.received.length < r + CONSBUFSIZE → r' = r) ∧
      cons.Holds t.received r' ∧ ((t.cons = cons ∧ t.returned = s.returned) ∨
        ∃ hlt : r' < t.received.length, t.cons.Holds t.received (r' + 1) ∧
          t.cons.accesses = cons.accesses ++ [.read (r' % CONSBUFSIZE) t.received[r']] ∧
          t.returned = s.returned ++ [t.received[r']]) := by
  intro t cons
  have hrec : t.received = s.received ++ e.delivered serialExists := s.step_received serialExists e
  have hnz' : ∀ c ∈ t.received, c ≠ 0 := by
    intro c hm
    rw [hrec] at hm
    rcases List.mem_append.mp hm with hm | hm
    · exact hnz c hm
    · exact ConsEvent.delivered_nonzero hm
  obtain ⟨r', hr, hc, he⟩ := h.arrive serialExists e
  rw [← hrec] at hc he
  refine ⟨hnz', r', hr, he, hc, ?_⟩
  rcases s.step_cases serialExists e with hstep | ⟨hcons, hret⟩
  · exact .inl hstep
  · rcases hc.take with ⟨-, ht⟩ | ⟨hlt, hchar, hnext, hacc⟩
    · rw [ht] at hcons hret
      exact .inl ⟨hcons, by simpa using hret⟩
    · rw [hchar, if_neg (hnz' _ (List.getElem_mem hlt))] at hret
      exact .inr ⟨hlt, hcons ▸ hnext, hcons ▸ hacc, hret⟩

theorem Session.run_append_singleton (serialExists : Bool) (es : List ConsEvent) (e : ConsEvent) :
    run serialExists (es ++ [e]) = (run serialExists es).step serialExists e := by
  simp [run]

/-- The invariant of all runs: the returned characters are among those before
the reader, in order. -/
structure Session.Tracks (s : Session) (r : Nat) : Prop where
  holds : s.cons.Holds s.received r
  nonzero : ∀ c ∈ s.received, c ≠ 0
  ordered : s.returned.Sublist (s.received.take r)

theorem Session.Tracks.step {s : Session} {r : Nat} (h : s.Tracks r) (serialExists : Bool)
    (e : ConsEvent) : ∃ r', (s.step serialExists e).Tracks r' := by
  obtain ⟨hnz, r', hr, -, hc, hstep⟩ := Session.step_spec h.holds h.nonzero serialExists e
  have hord : s.returned.Sublist ((s.step serialExists e).received.take r') := by
    rw [s.step_received serialExists e]
    have hpre : s.received.take r <+: (s.received ++ e.delivered serialExists).take r' := by
      rw [← List.take_append_of_le_length h.holds.ring.le]
      exact List.take_prefix_take_left hr
    exact h.ordered.trans hpre.sublist
  rcases hstep with ⟨hcons, hret⟩ | ⟨hlt, hnext, -, hret⟩
  · exact ⟨r', hcons ▸ hc, hnz, hret ▸ hord⟩
  · refine ⟨r' + 1, hnext, hnz, ?_⟩
    rw [hret, List.take_succ_eq_append_getElem hlt]
    exact hord.append_right _

theorem Session.tracks_run (serialExists : Bool) (es : List ConsEvent) :
    ∃ r, (Session.run serialExists es).Tracks r := by
  induction es using List.reverseRecOn with
  | nil => exact ⟨0, Cons.holds_zeroed, by simp [run, start], by simp [run, start]⟩
  | append_singleton es e ih =>
    obtain ⟨r, hr⟩ := ih
    rw [run_append_singleton]
    exact hr.step serialExists e

/-- While nothing has been lapped, the returned characters are exactly those
before the reader. -/
structure Session.Exact (s : Session) : Prop where
  holds : s.cons.Holds s.received s.returned.length
  nonzero : ∀ c ∈ s.received, c ≠ 0
  returned : s.returned = s.received.take s.returned.length

theorem Session.Exact.step_spec {s : Session} (h : s.Exact) (serialExists : Bool) (e : ConsEvent)
    (hroom : s.received.length + (e.delivered serialExists).length ≤
      s.returned.length + (CONSBUFSIZE - 1)) :
    let t := s.step serialExists e
    let cons := e.arrive serialExists s.cons
    t.Exact ∧ ((t.cons = cons ∧ t.returned = s.returned) ∨
      ∃ c, t.cons.accesses = cons.accesses ++ [.read (s.returned.length % CONSBUFSIZE) c] ∧
        t.returned.length = s.returned.length + 1) := by
  intro t cons
  have hcap : 0 < CONSBUFSIZE := by decide
  have hrec : t.received = s.received ++ e.delivered serialExists := s.step_received serialExists e
  have heq : s.returned = t.received.take s.returned.length := by
    rw [hrec, List.take_append_of_le_length h.holds.ring.le]
    exact h.returned
  obtain ⟨hnz, r', -, he, hc, hstep⟩ := Session.step_spec h.holds h.nonzero serialExists e
  obtain rfl := he (by rw [s.step_received, List.length_append]; omega)
  rcases hstep with ⟨hcons, hret⟩ | ⟨hlt, hnext, hacc, hret⟩
  · have hret' : t.returned = s.returned := hret
    refine ⟨⟨?_, hnz, ?_⟩, .inl ⟨hcons, hret⟩⟩
    · rw [hret']
      exact hcons ▸ hc
    · rw [hret']
      exact heq
  · have hret' : t.returned = s.returned ++ [t.received[s.returned.length]] := hret
    have hlen : t.returned.length = s.returned.length + 1 := by
      rw [hret', List.length_append, List.length_singleton]
    refine ⟨⟨?_, hnz, ?_⟩, .inr ⟨_, hacc, hlen⟩⟩
    · rw [hlen]
      exact hnext
    · rw [hlen, hret', List.take_succ_eq_append_getElem hlt]
      exact congrArg (· ++ _) heq

theorem NeverOver.init {serialExists : Bool} {es es' : List ConsEvent}
    (h : NeverOver serialExists (es ++ es')) : NeverOver serialExists es :=
  fun pre e post he => h pre e (post ++ es') (by rw [he, List.append_assoc, List.cons_append])

theorem Session.exact_run {serialExists : Bool} {es : List ConsEvent}
    (h : NeverOver serialExists es) : (Session.run serialExists es).Exact := by
  induction es using List.reverseRecOn with
  | nil => exact ⟨Cons.holds_zeroed, by simp [run, start], rfl⟩
  | append_singleton es e ih =>
    rw [run_append_singleton]
    exact ((ih h.init).step_spec serialExists e (h es e [] rfl)).1

/-- The ring is an order-preserving queue on every run, and loses nothing as
long as it has room. -/
theorem cons_ring_ordered (serialExists : Bool) (es : List ConsEvent) :
    let s := Session.run serialExists es
    s.cons.rpos < CONSBUFSIZE ∧ s.cons.wpos < CONSBUFSIZE ∧
      (∀ a ∈ s.cons.accesses, a.index < CONSBUFSIZE) ∧ s.returned.Sublist s.received ∧
      (NeverOver serialExists es → s.returned ++ s.cons.ring.pending CONSBUFSIZE = s.received) := by
  obtain ⟨r, hr⟩ := Session.tracks_run serialExists es
  refine ⟨hr.holds.ring.rpos_lt (by decide), hr.holds.ring.wpos_lt (by decide), hr.holds.inBuf,
    hr.ordered.trans (List.take_sublist _ _), fun h => ?_⟩
  have hx := Session.exact_run h
  rw [hx.holds.ring.pending_eq (by decide)]
  exact (congrArg (· ++ _) hx.returned).trans (List.take_append_drop _ _)

end Jos
