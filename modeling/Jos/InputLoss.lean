import Jos.InputQueue
import Jos.Loop

/-! When `cons_getc` answers 0 with input waiting. A ring that is written full
looks empty, so a burst of `CONSBUFSIZE` characters is forgotten in its slots. -/

namespace Jos

/-- Every character received has since been returned or overwritten. -/
def AllAccounted (s : Session) : Prop :=
  s.cons.accesses.filterMap Access.written = s.received ∧
    ∀ pre i c post, s.cons.accesses = pre ++ .write i c :: post →
      (∃ c', .read i c' ∈ post) ∨ ∃ c', .write i c' ∈ post

/-- Along the run, `cons_getc` returns 0 only when nothing is waiting. -/
def Honest (serialExists : Bool) (es : List ConsEvent) : Prop :=
  ∀ pre serial kbd post, es = pre ++ .consGetc serial kbd :: post →
    (consGetc serialExists serial kbd (Session.run serialExists pre).cons).1 = 0 →
      AllAccounted (Session.run serialExists (pre ++ [.consGetc serial kbd]))

/-- The writes fall into the slots in turn, and the first `r` have been read. -/
structure Settled (accesses : List Access) (r : Nat) : Prop where
  placed : ∀ pre i c post, accesses = pre ++ .write i c :: post →
    i = (pre.filterMap Access.written).length % CONSBUFSIZE
  read : ∀ pre i c post, accesses = pre ++ .write i c :: post →
    (pre.filterMap Access.written).length < r → ∃ c', .read i c' ∈ post

theorem Settled.store {cons : Cons} {w : List Byte} {r r' : Nat} (h : Settled cons.accesses r)
    (hc : cons.Holds w r') (hr : r ≤ w.length) (c : Byte) :
    Settled (consStore c cons).accesses r := by
  constructor
  · intro pre i x post he
    rcases append_singleton_split he with ⟨-, rfl, hx⟩ | ⟨post', -, hlog⟩
    · obtain ⟨rfl, -⟩ := Access.write.inj hx
      rw [hc.writes]
      exact hc.ring.wpos
    · exact h.placed pre i x post' hlog
  · intro pre i x post he hlt
    rcases append_singleton_split he with ⟨-, rfl, -⟩ | ⟨post', rfl, hlog⟩
    · rw [hc.writes] at hlt
      omega
    · obtain ⟨c', hm⟩ := h.read pre i x post' hlog hlt
      exact ⟨c', List.mem_append_left _ hm⟩

theorem Settled.arrive {cons : Cons} {w : List Byte} {r : Nat} (h : Settled cons.accesses r)
    (hc : cons.Holds w r) (serialExists : Bool) (e : ConsEvent) :
    Settled (e.arrive serialExists cons).accesses r := by
  have hh : ∃ r', (e.arrive serialExists cons).Holds (w ++ e.delivered serialExists) r' ∧
      r ≤ (w ++ e.delivered serialExists).length ∧
      Settled (e.arrive serialExists cons).accesses r := by
    refine e.arrive_induction (P := fun cons w => ∃ r', cons.Holds w r' ∧ r ≤ w.length ∧
      Settled cons.accesses r) ?_ serialExists cons w ⟨r, hc, hc.ring.le, h⟩
    rintro c cons w - ⟨r', hc, hr, hs⟩
    refine ⟨_, hc.store c, ?_, hs.store hc hr c⟩
    rw [List.length_append]
    omega
  exact hh.choose_spec.2.2

theorem Settled.take {accesses : List Access} {r : Nat} (h : Settled accesses r) (c : Byte) :
    Settled (accesses ++ [.read (r % CONSBUFSIZE) c]) (r + 1) := by
  constructor
  · intro pre i x post he
    rcases append_singleton_split he with ⟨-, -, hx⟩ | ⟨post', -, hlog⟩
    · exact absurd hx (by simp)
    · exact h.placed pre i x post' hlog
  · intro pre i x post he hlt
    rcases append_singleton_split he with ⟨-, -, hx⟩ | ⟨post', rfl, hlog⟩
    · exact absurd hx (by simp)
    · by_cases hr : (pre.filterMap Access.written).length = r
      · refine ⟨c, List.mem_append_right _ ?_⟩
        rw [h.placed pre i x post' hlog, hr]
        exact List.mem_singleton_self _
      · obtain ⟨c', hm⟩ := h.read pre i x post' hlog (by omega)
        exact ⟨c', List.mem_append_left _ hm⟩

theorem Session.settled_run {serialExists : Bool} {es : List ConsEvent}
    (h : NeverOver serialExists es) :
    Settled (Session.run serialExists es).cons.accesses
      (Session.run serialExists es).returned.length := by
  induction es using List.reverseRecOn with
  | nil => exact ⟨by simp [run, start, Cons.zeroed], by simp [run, start, Cons.zeroed]⟩
  | append_singleton es e ih =>
    have hx := Session.exact_run h.init
    have hs := (ih h.init).arrive hx.holds serialExists e
    rw [run_append_singleton]
    rcases (hx.step_spec serialExists e (h es e [] rfl)).2 with ⟨hcons, hret⟩ | ⟨c, hacc, hlen⟩
    · rw [hcons, hret]
      exact hs
    · rw [hacc, hlen]
      exact hs.take c

theorem Session.caught_up {s : Session} {r : Nat} {serialExists : Bool} {serial kbd : List Byte}
    (hnz : ∀ c ∈ (s.step serialExists (.consGetc serial kbd)).received, c ≠ 0)
    (hc : ((ConsEvent.consGetc serial kbd).arrive serialExists s.cons).Holds
      (s.step serialExists (.consGetc serial kbd)).received r)
    (hzero : (consGetc serialExists serial kbd s.cons).1 = 0) :
    r = (s.step serialExists (.consGetc serial kbd)).received.length ∧
      (s.step serialExists (.consGetc serial kbd)).cons =
        (ConsEvent.consGetc serial kbd).arrive serialExists s.cons ∧
      (s.step serialExists (.consGetc serial kbd)).returned = s.returned := by
  have hret : (s.step serialExists (.consGetc serial kbd)).returned = s.returned ++ [] :=
    congrArg (s.returned ++ ·) (if_pos hzero)
  rcases hc.take with ⟨hr, ht⟩ | ⟨hlt, hchar, -, -⟩
  · exact ⟨hr, congrArg Prod.snd ht, hret.trans (List.append_nil _)⟩
  · exact absurd (hchar.symm.trans hzero) (hnz _ (List.getElem_mem hlt))

theorem honest_of_neverOver {serialExists : Bool} {es : List ConsEvent}
    (h : NeverOver serialExists es) : Honest serialExists es := by
  intro pre serial kbd post he hzero
  have hpre : NeverOver serialExists (pre ++ [.consGetc serial kbd]) := by
    rw [he, List.append_cons] at h
    exact h.init
  have hx := Session.exact_run hpre
  have hs := Session.settled_run hpre
  have hcaught : (Session.run serialExists (pre ++ [.consGetc serial kbd])).returned.length =
      (Session.run serialExists (pre ++ [.consGetc serial kbd])).received.length := by
    have hx' := Session.exact_run hpre.init
    obtain ⟨hnz, r', -, hroom, hc, -⟩ :=
      Session.step_spec hx'.holds hx'.nonzero serialExists (.consGetc serial kbd)
    obtain ⟨hr, -, hret⟩ := Session.caught_up hnz hc hzero
    have hlt := hpre pre (.consGetc serial kbd) [] rfl
    have hcap : 0 < CONSBUFSIZE := by decide
    rw [Session.run_append_singleton, hret, ← hr]
    refine (hroom ?_).symm
    rw [Session.step_received, List.length_append]
    omega
  refine ⟨hx.holds.writes, fun p i c q hq => .inl (hs.read p i c q hq ?_)⟩
  rw [hcaught, ← hx.holds.writes, hq, List.filterMap_append]
  simp [Access.written]

/-- The character written as number `k` sits in its slot, neither read nor
overwritten since. -/
def Lost (accesses : List Access) (k : Nat) : Prop :=
  ∃ pre c post, accesses = pre ++ .write (k % CONSBUFSIZE) c :: post ∧
    ∀ a ∈ post, a.index ≠ k % CONSBUFSIZE

theorem Lost.append {accesses : List Access} {k : Nat} (h : Lost accesses k) {a : Access}
    (ha : a.index ≠ k % CONSBUFSIZE) : Lost (accesses ++ [a]) k := by
  obtain ⟨pre, c, post, he, hp⟩ := h
  refine ⟨pre, c, post ++ [a], by rw [he, List.append_assoc, List.cons_append], fun b hb => ?_⟩
  rcases List.mem_append.mp hb with hb | hb
  · exact hp b hb
  · exact List.mem_singleton.mp hb ▸ ha

theorem Lost.not_allAccounted {s : Session} {k : Nat} (h : Lost s.cons.accesses k) :
    ¬ AllAccounted s := by
  rintro ⟨-, hall⟩
  obtain ⟨pre, c, post, he, hp⟩ := h
  rcases hall pre _ c post he with ⟨c', hm⟩ | ⟨c', hm⟩
  · exact hp _ hm rfl
  · exact hp _ hm rfl

theorem mod_ne_of_near {k j : Nat} (hlt : k < j) (hnear : j < k + CONSBUFSIZE) :
    j % CONSBUFSIZE ≠ k % CONSBUFSIZE :=
  fun he => hlt.ne (Ring.eq_of_mod_eq he.symm hlt.le hnear)

theorem Cons.Holds.arrive_lost {cons : Cons} {w : List Byte} {r : Nat} (h : cons.Holds w r)
    (serialExists : Bool) (e : ConsEvent)
    (hfull : r + CONSBUFSIZE ≤ (w ++ e.delivered serialExists).length) :
    ∃ k, r + CONSBUFSIZE ≤ k + 1 ∧
      (e.arrive serialExists cons).Holds (w ++ e.delivered serialExists) (k + 1) ∧
      Lost (e.arrive serialExists cons).accesses k := by
  have hh : ∃ r', (e.arrive serialExists cons).Holds (w ++ e.delivered serialExists) r' ∧
      (r' = r ∨ ∃ k, r' = k + 1 ∧ r + CONSBUFSIZE ≤ k + 1 ∧
        Lost (e.arrive serialExists cons).accesses k) := by
    refine e.arrive_induction (P := fun cons w => ∃ r', cons.Holds w r' ∧
      (r' = r ∨ ∃ k, r' = k + 1 ∧ r + CONSBUFSIZE ≤ k + 1 ∧ Lost cons.accesses k)) ?_
      serialExists cons w ⟨r, h, .inl rfl⟩
    rintro c cons w - ⟨r', hc, hr'⟩
    refine ⟨_, hc.store c, ?_⟩
    have hle := hc.ring.le
    have hlt := hc.ring.lt
    split_ifs with hlap
    · -- the character that closes the lap is the one lost
      refine .inr ⟨w.length, hlap.symm, ?_, cons.accesses, c, [], ?_, by simp⟩
      · rcases hr' with rfl | ⟨k, rfl, hk, -⟩ <;> omega
      · rw [← hc.ring.wpos]
        rfl
    · rcases hr' with hr' | ⟨k, hk, hge, hlost⟩
      · exact .inl hr'
      · refine .inr ⟨k, hk, hge, hlost.append ?_⟩
        show cons.wpos ≠ _
        rw [show cons.wpos = w.length % CONSBUFSIZE from hc.ring.wpos]
        exact mod_ne_of_near (by omega) (by omega)
  obtain ⟨r', hc, rfl | ⟨k, rfl, hge, hlost⟩⟩ := hh
  · exact absurd hc.ring.lt (by omega)
  · exact ⟨k, hge, hc, hlost⟩

def idleGetc : ConsEvent :=
  .consGetc [] []

theorem idleGetc_delivered (serialExists : Bool) : idleGetc.delivered serialExists = [] := by
  cases serialExists <;> rfl

theorem idleGetc_arrive (serialExists : Bool) (cons : Cons) :
    idleGetc.arrive serialExists cons = cons := by
  cases serialExists <;> rfl

def Session.drain (serialExists : Bool) (n : Nat) (s : Session) : Session :=
  (List.replicate n idleGetc).foldl (Session.step serialExists) s

/-- `cons_getc` answers 0 once the reader has caught up, whatever was lost. -/
theorem Session.getc_lost {serialExists : Bool} {s : Session} {k : Nat}
    (hc : s.cons.Holds s.received s.received.length) (hlost : Lost s.cons.accesses k) :
    (consGetc serialExists [] [] s.cons).1 = 0 ∧ ¬ AllAccounted (s.step serialExists idleGetc) := by
  have ht : consGetc serialExists [] [] s.cons = (0, s.cons) := by
    show consTake (idleGetc.arrive serialExists s.cons) = _
    rw [idleGetc_arrive]
    exact consTake_of_take_none (hc.ring.take_none rfl)
  have hcons : (s.step serialExists idleGetc).cons = s.cons := congrArg Prod.snd ht
  exact ⟨congrArg Prod.fst ht, Lost.not_allAccounted (k := k) (by rw [hcons]; exact hlost)⟩

theorem Session.drain_lost {serialExists : Bool} {s : Session} {r k : Nat}
    (hc : s.cons.Holds s.received r) (hnz : ∀ c ∈ s.received, c ≠ 0) (hkr : k < r)
    (hnear : s.received.length ≤ k + CONSBUFSIZE) (hlost : Lost s.cons.accesses k) :
    ∃ n, (consGetc serialExists [] [] (s.drain serialExists n).cons).1 = 0 ∧
      ¬ AllAccounted ((s.drain serialExists n).step serialExists idleGetc) := by
  induction hn : s.received.length - r generalizing s r with
  | zero =>
    have hr : r = s.received.length := le_antisymm hc.ring.le (by omega)
    exact ⟨0, Session.getc_lost (hr ▸ hc) hlost⟩
  | succ n ih =>
    rcases hc.take with ⟨hr, -⟩ | ⟨hlt, -, hnext, hacc⟩
    · omega
    have hrec : (s.step serialExists idleGetc).received = s.received := by
      rw [step_received, idleGetc_delivered, List.append_nil]
    have hcons : (s.step serialExists idleGetc).cons = (consTake s.cons).2 :=
      congrArg (fun cons => (consTake cons).2) (idleGetc_arrive serialExists s.cons)
    obtain ⟨m, hm⟩ := @ih (s.step serialExists idleGetc) (r + 1) (by rw [hcons, hrec]; exact hnext)
      (by rw [hrec]; exact hnz) (by omega) (by rw [hrec]; exact hnear)
      (by rw [hcons, hacc]; exact hlost.append (mod_ne_of_near hkr (by omega))) (by rw [hrec]; omega)
    exact ⟨m + 1, by simpa only [drain, List.replicate_succ, List.foldl_cons] using hm⟩

theorem NeverOver.idle {serialExists : Bool} {es : List ConsEvent} (h : NeverOver serialExists es)
    (n : Nat) : NeverOver serialExists (es ++ List.replicate n idleGetc) := by
  induction n with
  | zero => simpa using h
  | succ n ih =>
    intro pre e post he
    rw [List.replicate_succ', ← List.append_assoc] at he
    rcases append_singleton_split he with ⟨-, rfl, rfl⟩ | ⟨post', -, hes⟩
    · have hlt := (Session.exact_run ih).holds.ring.lt
      rw [idleGetc_delivered, List.length_nil]
      omega
    · exact ih pre e post' hes

/-- A run overflowed by its last event is caught out by emptying the ring. -/
theorem not_honest_of_over {serialExists : Bool} {es : List ConsEvent} (e : ConsEvent)
    (h : NeverOver serialExists es)
    (hover : (Session.run serialExists es).returned.length + CONSBUFSIZE ≤
      (Session.run serialExists es).received.length + (e.delivered serialExists).length) :
    ∃ n, ¬ Honest serialExists (es ++ [e] ++ List.replicate n idleGetc) := by
  have hx := Session.exact_run h
  obtain ⟨k, -, hc, hlost⟩ := hx.holds.arrive_lost serialExists e (by rw [List.length_append]; omega)
  have hlt := hc.ring.lt
  obtain ⟨hnz, -⟩ := Session.step_spec hx.holds hx.nonzero serialExists e
  rw [← Session.step_received] at hc hlt
  let t := (Session.run serialExists es).step serialExists e
  have hlt' : t.received.length < k + 1 + CONSBUFSIZE := hlt
  have hdrain : ∃ n, (consGetc serialExists [] [] (t.drain serialExists n).cons).1 = 0 ∧
      ¬ AllAccounted ((t.drain serialExists n).step serialExists idleGetc) := by
    rcases (Session.run serialExists es).step_cases serialExists e with ⟨hcons, -⟩ | ⟨hcons, -⟩
    · exact Session.drain_lost (by rw [hcons]; exact hc) hnz (Nat.lt_succ_self k) (by omega)
        (by rw [hcons]; exact hlost)
    · rcases hc.take with ⟨-, ht⟩ | ⟨hroom, -, hnext, hacc⟩
      · rw [ht] at hcons
        exact Session.drain_lost (by rw [hcons]; exact hc) hnz (Nat.lt_succ_self k) (by omega)
          (by rw [hcons]; exact hlost)
      · refine Session.drain_lost (by rw [hcons]; exact hnext) hnz (by omega : k < k + 1 + 1)
          (by omega) ?_
        rw [hcons, hacc]
        exact hlost.append (mod_ne_of_near (Nat.lt_succ_self k) (by omega))
  obtain ⟨n, hzero, hbad⟩ := hdrain
  have hrun : Session.run serialExists (es ++ [e] ++ List.replicate n idleGetc) =
      t.drain serialExists n := by
    simp only [t, Session.drain, Session.run, List.foldl_append, List.foldl_cons, List.foldl_nil]
  refine ⟨n + 1, fun hh => hbad ?_⟩
  have hall := hh (es ++ [e] ++ List.replicate n idleGetc) [] [] []
    (by rw [List.replicate_succ', ← List.append_assoc]; rfl) (by rw [hrun]; exact hzero)
  rwa [Session.run_append_singleton, hrun] at hall

/-- `cons_getc` can be trusted to say that nothing waits exactly as long as the
ring has had room: on such a run, and wherever it stops and the ring is then
emptied, a 0 means that every character was returned or overwritten. -/
theorem honest_iff_neverOver (serialExists : Bool) (es : List ConsEvent) :
    (∀ pre n, pre <+: es → Honest serialExists (pre ++ List.replicate n idleGetc)) ↔
      NeverOver serialExists es := by
  constructor
  · intro h
    induction es using List.reverseRecOn with
    | nil => exact fun pre e post he => absurd he (by simp)
    | append_singleton es e ih =>
      have hes := ih fun pre n hp => h pre n (hp.trans (List.prefix_append es [e]))
      intro pre e' post he
      rcases append_singleton_split he with ⟨-, rfl, rfl⟩ | ⟨post', -, hlog⟩
      · by_contra hover
        have hcap : 0 < CONSBUFSIZE := by decide
        obtain ⟨n, hn⟩ := not_honest_of_over e' hes (by omega)
        exact hn (h _ n List.prefix_rfl)
      · exact hes pre e' post' hlog
  · rintro h pre n ⟨post, rfl⟩
    exact honest_of_neverOver (h.init.idle n)

theorem burst_lost (serialExists : Bool) (bytes : List Byte)
    (hlen : ((ConsEvent.kbdIntr bytes).delivered serialExists).length = CONSBUFSIZE) :
    (consGetc serialExists [] [] (Session.run serialExists [.kbdIntr bytes]).cons).1 = 0 ∧
      ¬ AllAccounted (Session.run serialExists [.kbdIntr bytes, .consGetc [] []]) := by
  obtain ⟨k, hge, hc, hlost⟩ := Cons.holds_zeroed.arrive_lost serialExists (.kbdIntr bytes)
    (by rw [List.length_append, hlen, List.length_nil])
  have hle := hc.ring.le
  have hk : k + 1 = ([] ++ (ConsEvent.kbdIntr bytes).delivered serialExists).length := by
    rw [List.nil_append, hlen] at hle ⊢
    omega
  rw [hk] at hc
  exact Session.getc_lost (s := Session.run serialExists [.kbdIntr bytes]) hc hlost

/-- After 512 keystrokes in one interrupt `cons_getc` answers 0, and one of them
sits in its slot unread. -/
theorem cons_getc_misses_full_ring :
    (consGetc true [] [] (Session.run true [.kbdIntr (List.replicate 512 0x61)]).cons).1 = 0 ∧
      ¬ AllAccounted
        (Session.run true [.kbdIntr (List.replicate 512 0x61), .consGetc [] []]) := by
  refine burst_lost true (List.replicate 512 0x61) ?_
  have hne : (decide ((0x61 : Byte) ≠ 0)) = true := by decide
  rw [ConsEvent.delivered, List.filter_replicate, if_pos hne, List.length_replicate, CONSBUFSIZE]

end Jos
