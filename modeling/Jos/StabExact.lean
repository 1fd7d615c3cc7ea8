import Jos.StabRegion

/-! The search for an address at which a stab of the type starts. Once
`stab_binsearch` has come upon one it looks for the next address instead, and
takes a stab that starts there for the one it was asked for. -/

namespace Jos

/-- Halving the range from `l` to `r` in search of `a`, one comes upon it with
`a + 1` still in the range. -/
inductive Overruns (key : Int → Option Nat) (a : Nat) : Int → Int → Prop where
  | skip {l r t : Int} (hlr : l ≤ r) (ht : (l + r) / 2 = t) (hgap : Gap key l t)
      (h : Overruns key a (t + 1) r) : Overruns key a l r
  | low {l r t m : Int} {v : Nat} (hlr : l ≤ r) (ht : (l + r) / 2 = t) (hlm : l ≤ m) (hmt : m ≤ t)
      (hm : key m = some v) (hgap : Gap key (m + 1) t) (hv : v < a) (h : Overruns key a (t + 1) r) :
      Overruns key a l r
  | high {l r t m : Int} {v : Nat} (hlr : l ≤ r) (ht : (l + r) / 2 = t) (hlm : l ≤ m) (hmt : m ≤ t)
      (hm : key m = some v) (hgap : Gap key (m + 1) t) (hv : a < v) (h : Overruns key a l (m - 1)) :
      Overruns key a l r
  | hit {l r t m i : Int} (hlr : l ≤ r) (ht : (l + r) / 2 = t) (hlm : l ≤ m) (hmt : m ≤ t)
      (hm : key m = some a) (hgap : Gap key (m + 1) t) (hmi : m < i) (hir : i ≤ r)
      (hi : key i = some (a + 1)) : Overruns key a l r

section Halving

variable {key : Int → Option Nat} {a v : Nat} {l r t m : Int}

theorem Overruns.next (h : Overruns key a l r) : ∃ i, l ≤ i ∧ i ≤ r ∧ key i = some (a + 1) := by
  induction h with
  | skip hlr ht hgap h ih =>
    obtain ⟨i, hi, hir, hkey⟩ := ih
    exact ⟨i, by omega, hir, hkey⟩
  | low hlr ht hlm hmt hm hgap hv h ih =>
    obtain ⟨i, hi, hir, hkey⟩ := ih
    exact ⟨i, by omega, hir, hkey⟩
  | high hlr ht hlm hmt hm hgap hv h ih =>
    obtain ⟨i, hi, hir, hkey⟩ := ih
    exact ⟨i, hi, by omega, hkey⟩
  | @hit l r t m i hlr ht hlm hmt hm hgap hmi hir hi => exact ⟨i, by omega, hir, hi⟩

theorem overruns_skip_iff (hlr : l ≤ r) (ht : (l + r) / 2 = t) (hgap : Gap key l t) :
    Overruns key a l r ↔ Overruns key a (t + 1) r := by
  refine ⟨fun h => ?_, .skip hlr ht hgap⟩
  cases h with
  | skip _ ht' _ h => exact ht ▸ ht' ▸ h
  | low _ ht' hlm hmt hm _ _ _ => exact absurd hm (hgap.not_some hlm (by omega))
  | high _ ht' hlm hmt hm _ _ _ => exact absurd hm (hgap.not_some hlm (by omega))
  | hit _ ht' hlm hmt hm _ _ _ _ => exact absurd hm (hgap.not_some hlm (by omega))

theorem overruns_match_iff (hlr : l ≤ r) (ht : (l + r) / 2 = t) (hlm : l ≤ m) (hmt : m ≤ t)
    (hm : key m = some v) (hgap : Gap key (m + 1) t) :
    Overruns key a l r ↔ (v < a ∧ Overruns key a (t + 1) r) ∨ (a < v ∧ Overruns key a l (m - 1)) ∨
      (v = a ∧ ∃ i, m < i ∧ i ≤ r ∧ key i = some (a + 1)) := by
  subst ht
  constructor
  · intro h
    cases h with
    | skip _ ht' hgap' _ => exact absurd hm (hgap'.not_some hlm (by omega))
    | low _ ht' _ hmt' hm' hgap' hv h =>
      subst ht'
      obtain rfl := Gap.last_unique hmt hm hgap hmt' hm' hgap'
      exact .inl ⟨Option.some_inj.mp (hm.symm.trans hm') ▸ hv, h⟩
    | high _ ht' _ hmt' hm' hgap' hv h =>
      subst ht'
      obtain rfl := Gap.last_unique hmt hm hgap hmt' hm' hgap'
      exact .inr (.inl ⟨Option.some_inj.mp (hm.symm.trans hm') ▸ hv, h⟩)
    | @hit _ _ _ _ i _ ht' _ hmt' hm' hgap' hmi hir hi =>
      subst ht'
      obtain rfl := Gap.last_unique hmt hm hgap hmt' hm' hgap'
      exact .inr (.inr ⟨Option.some_inj.mp (hm.symm.trans hm'), i, hmi, hir, hi⟩)
  · rintro (⟨hv, h⟩ | ⟨hv, h⟩ | ⟨rfl, i, hmi, hir, hi⟩)
    · exact .low hlr rfl hlm hmt hm hgap hv h
    · exact .high hlr rfl hlm hmt hm hgap hv h
    · exact .hit hlr rfl hlm hmt hm hgap hmi hir hi

end Halving

section Exact

variable {stabs : Int → Option Stab} {type : Int} {addr : Word} {L R l' R' : Int} {st st' : Search}

/-- Before the search comes upon the address. -/
structure Homing (stabs : Int → Option Stab) (type : Int) (addr : Word) (L R : Int) (st : Search) :
    Prop where
  narrowed : Narrowed stabs type addr L R st
  overruns : Overruns (stabKey stabs type) addr.toNat L R ↔
    Overruns (stabKey stabs type) addr.toNat st.l st.r

/-- After it, the search for the next address in what was left up to `R'`. Just
after the hit `l` is still at the entry found, with `l'` past it. -/
structure Trailing (stabs : Int → Option Stab) (type : Int) (addr : Word) (L R l' R' : Int)
    (st : Search) : Prop where
  narrowed : Narrowed stabs type (addr + 1) L R' { st with l := l' }
  ahead : l' = st.l ∨ (l' = st.l + 1 ∧ st.regionLeft = st.l ∧ st.l ≤ st.r)
  inside : L ≤ st.regionLeft ∧ st.regionLeft < l'
  found : stabKey stabs type st.regionLeft = some addr.toNat
  seen : st.anyMatches = true
  upper : R' ≤ R
  above : ∀ i v, R' < i → i ≤ R → stabKey stabs type i = some v → addr.toNat < v
  next : R' = R ∨ ∃ v, stabKey stabs type (R' + 1) = some v
  overruns : Overruns (stabKey stabs type) addr.toNat L R ↔
    ∃ i, L ≤ i ∧ i ≤ R' ∧ stabKey stabs type i = some (addr.toNat + 1)

/-- After a hit on a later address. -/
structure Overrun (stabs : Int → Option Stab) (type : Int) (addr : Word) (L R : Int) (st : Search) :
    Prop where
  left : L ≤ st.regionLeft ∧ st.regionLeft ≤ st.l ∧ st.regionLeft ≤ st.r
  right : st.regionRight = st.r
  seen : st.anyMatches = true
  found : ∃ w, stabKey stabs type st.regionLeft = some w ∧ addr.toNat < w ∧ w < st.addr.toNat
  overruns : Overruns (stabKey stabs type) addr.toNat L R

theorem homing_start (hLR : L ≤ R + 1) : Homing stabs type addr L R ⟨L, R, L, R, false, addr⟩ :=
  ⟨narrowed_start hLR, Iff.rfl⟩

theorem toNat_add_one (h : addr.toNat < 0xFFFFFFFF) : (addr + 1).toNat = addr.toNat + 1 := by
  bv_omega

/-- The hit at `m` starts a new search, in the region that ends where the range did. -/
theorem Narrowed.restart (hasc : Ascending (stabKey stabs type) L R) (haddr : addr.toNat < 0xFFFFFFFF)
    (hn : Narrowed stabs type addr L R st) {m : Int} (hlm : st.l ≤ m) (hmr : m ≤ st.r)
    (hm : stabKey stabs type m = some addr.toNat) :
    Narrowed stabs type (addr + 1) L st.r ⟨m + 1, st.r, m, st.regionRight, true, st.addr + 1⟩ := by
  have hlower := hn.bracket.lower
  have hupper := hn.bracket.upper
  have hnext := toNat_add_one haddr
  refine ⟨⟨?_, le_rfl, ?_, ?_⟩, ?_, ?_, hn.right, .inl rfl, .inr ⟨?_, ?_, ⟨_, hm⟩, ?_, rfl⟩⟩
  · show L ≤ m + 1
    omega
  · intro i v hi him hv
    have hle := hasc.le hi (Int.le_of_lt_add_one him) (by omega) hv hm
    omega
  · intro i v hri hir
    dsimp only at hri
    omega
  · show m + 1 ≤ st.r + 1
    omega
  · rw [← hn.same]
  · show L ≤ m
    omega
  · show m < m + 1
    omega
  · intro i hi him
    dsimp only at hi him
    omega

theorem Homing.narrows (hasc : Ascending (stabKey stabs type) L R) (haddr : addr.toNat < 0xFFFFFFFF)
    (h : Homing stabs type addr L R st) (hlr : st.l ≤ st.r) (hst : Narrows stabs type st st') :
    Homing stabs type addr L R st' ∨ ∃ l' R', Trailing stabs type addr L R l' R' st' := by
  obtain ⟨hn, hover⟩ := h
  have hlower := hn.bracket.lower
  have hupper := hn.bracket.upper
  have hsame := hn.same
  cases hst with
  | @skip t ht hgap =>
    exact .inl ⟨hn.skip (by omega) (by omega) hgap, hover.trans (overruns_skip_iff hlr ht hgap)⟩
  | @low t m v ht hlm hmt hm hgap hv =>
    rw [hsame] at hv
    refine .inl ⟨hn.low hasc hlm hmt (by omega) hm hv hgap, hover.trans ?_⟩
    rw [overruns_match_iff hlr ht hlm hmt hm hgap]
    simp [hv, hv.not_gt, hv.ne]
  | @high t m v ht hlm hmt hm hgap hv =>
    rw [hsame] at hv
    refine .inl ⟨hn.high hasc hlm (by omega) hm hv, hover.trans ?_⟩
    rw [overruns_match_iff hlr ht hlm hmt hm hgap]
    simp [hv, hv.not_gt, hv.ne']
  | @hit t m ht hlm hmt hm hgap =>
    rw [hsame] at hm
    refine .inr ⟨m + 1, st.r, hn.restart hasc haddr hlm (by omega) hm,
      .inr ⟨rfl, rfl, by dsimp only; omega⟩,
      ⟨by dsimp only; omega, by dsimp only; omega⟩, hm, rfl, hupper, hn.bracket.above, hn.next, ?_⟩
    rw [hover, overruns_match_iff hlr ht hlm hmt hm hgap]
    simp only [lt_irrefl, false_and, false_or, true_and]
    constructor
    · rintro ⟨i, hmi, hir, hi⟩
      exact ⟨i, by omega, hir, hi⟩
    · rintro ⟨i, hLi, hir, hi⟩
      refine ⟨i, ?_, hir, hi⟩
      by_contra him
      have hle := hasc.le hLi (by omega) (by omega) hi hm
      omega

/-- The entry found is the only one seen that `l'` is past. -/
theorem Trailing.past (h : Trailing stabs type addr L R l' R' st) {m : Int} (hlm : st.l ≤ m) :
    l' ≤ m ∨ (m = st.regionLeft ∧ l' = m + 1) := by
  rcases h.ahead with heq | ⟨heq, hat, -⟩
  · exact .inl (by omega)
  · by_cases hml : m = st.l
    · exact .inr (by omega)
    · exact .inl (by omega)

theorem Trailing.past_other (h : Trailing stabs type addr L R l' R' st) {m : Int} {v : Nat}
    (hlm : st.l ≤ m) (hm : stabKey stabs type m = some v) (hv : v ≠ addr.toNat) : l' ≤ m := by
  refine (h.past hlm).resolve_right fun ⟨heq, _⟩ => hv ?_
  rw [heq, h.found, Option.some.injEq] at hm
  exact hm.symm

/-- The match is the entry found, seen again, or one past it. -/
theorem Trailing.narrowed_low (h : Trailing stabs type addr L R l' R' st)
    (hasc : Ascending (stabKey stabs type) L R') {m t : Int} {v : Nat} (hlm : st.l ≤ m) (hmt : m ≤ t)
    (htr : t ≤ st.r) (hm : stabKey stabs type m = some v) (hv : v < (addr + 1).toNat)
    (hgap : Gap (stabKey stabs type) (m + 1) t) :
    Narrowed stabs type (addr + 1) L R' { st with anyMatches := true, regionLeft := m, l := t + 1 } := by
  rcases h.past hlm with hlm' | ⟨hat, heq⟩
  · exact h.narrowed.low hasc hlm' hmt htr hm hv hgap
  · have hsame : ({ st with anyMatches := true, regionLeft := m, l := t + 1 } : Search) =
        { st with l := t + 1 } := by simp [hat, h.seen]
    rw [← heq] at hgap
    have hskip := h.narrowed.skip (by dsimp only; omega) htr hgap
    exact hsame ▸ hskip

theorem Trailing.narrows (hasc : Ascending (stabKey stabs type) L R) (haddr : addr.toNat < 0xFFFFFFFF)
    (hmax : ∀ i v, L ≤ i → i ≤ R → stabKey stabs type i = some v → v < 0xFFFFFFFF)
    (h : Trailing stabs type addr L R l' R' st) (hlr : st.l ≤ st.r) (hst : Narrows stabs type st st') :
    (∃ l' R', Trailing stabs type addr L R l' R' st') ∨ Overrun stabs type addr L R st' := by
  obtain ⟨hn, hahead, ⟨hleft, hlt⟩, hfound, hseen, hupper, habove, hnext, hover⟩ := id h
  have hasc' : Ascending (stabKey stabs type) L R' := fun i j a b hi hij hj =>
    hasc i j a b hi hij (by omega)
  have hone := toNat_add_one haddr
  have hlower : L ≤ l' := hn.bracket.lower
  have hr : st.r ≤ R' := hn.bracket.upper
  have hsame : st.addr = addr + 1 := hn.same
  cases hst with
  | @skip t ht hgap =>
    rcases hahead with heq | ⟨-, hat, -⟩
    · subst heq
      exact .inl ⟨t + 1, R', hn.skip (by dsimp only; omega) (by dsimp only; omega) hgap, .inl rfl,
        ⟨hleft, by dsimp only; omega⟩, hfound, hseen, hupper, habove, hnext, hover⟩
    · exact absurd hfound (hgap.not_some hat.ge (by omega))
  | @low t m v ht hlm hmt hm hgap hv =>
    rw [hsame] at hv
    have hmr : t ≤ st.r := by omega
    have hpast := h.past hlm
    have hlow := h.narrowed_low hasc' hlm hmt hmr hm hv hgap
    refine .inl ⟨t + 1, R', hlow, .inl rfl, ?_, ?_, rfl, hupper, habove, hnext, hover⟩
    · dsimp only
      omega
    · have hle := hasc.le hleft (by omega) (by omega) hfound hm
      rw [hm, Option.some.injEq]
      omega
  | @high t m v ht hlm hmt hm hgap hv =>
    rw [hsame] at hv
    have hlm' := h.past_other hlm hm (by omega)
    have hmr : m ≤ st.r := by omega
    refine .inl ⟨l', R', hn.high hasc' hlm' hmr hm hv, hahead.imp_right ?_, ⟨hleft, hlt⟩, hfound,
      rfl, hupper, habove, hnext, hover⟩
    rintro ⟨heq, hat, -⟩
    exact ⟨heq, hat, by dsimp only; omega⟩
  | @hit t m ht hlm hmt hm hgap =>
    rw [hsame, hone] at hm
    have hlm' := h.past_other hlm hm (by omega)
    have hbig := hmax m _ (by omega) (by omega) hm
    have htwo : (addr + 1 + 1).toNat = addr.toNat + 2 := by
      rw [toNat_add_one (by omega), hone]
    refine .inr ⟨by dsimp only; omega, hn.right, rfl, ⟨_, hm, by omega, ?_⟩,
      hover.mpr ⟨m, by omega, by omega, hm⟩⟩
    dsimp only
    rw [hsame, htwo]
    omega

theorem Overrun.narrows (hasc : Ascending (stabKey stabs type) L R)
    (hmax : ∀ i v, L ≤ i → i ≤ R → stabKey stabs type i = some v → v < 0xFFFFFFFF)
    (hin : Inside L R st) (h : Overrun stabs type addr L R st) (hlr : st.l ≤ st.r)
    (hst : Narrows stabs type st st') : Overrun stabs type addr L R st' := by
  have hupper := hin.upper
  obtain ⟨⟨hL, hl, hr⟩, hright, hseen, ⟨w, hw, haw, hwa⟩, hover⟩ := h
  -- the entries still to be seen are no earlier than the one found
  have hle : ∀ m v, st.l ≤ m → m ≤ st.r → stabKey stabs type m = some v → w ≤ v :=
    fun m v hlm hmr hm => hasc.le hL (by omega) (by omega) hw hm
  cases hst with
  | @skip t ht hgap => exact ⟨⟨hL, by dsimp only; omega, hr⟩, hright, hseen, ⟨w, hw, haw, hwa⟩, hover⟩
  | @low t m v ht hlm hmt hm hgap hv =>
    have hwv := hle m v hlm (by omega) hm
    exact ⟨by dsimp only; omega, hright, rfl, ⟨v, hm, by omega, hv⟩, hover⟩
  | @high t m v ht hlm hmt hm hgap hv =>
    have hne : m ≠ st.regionLeft := by
      rintro rfl
      rw [hw, Option.some.injEq] at hm
      omega
    exact ⟨⟨hL, hl, by dsimp only; omega⟩, rfl, rfl, ⟨w, hw, haw, hwa⟩, hover⟩
  | @hit t m ht hlm hmt hm hgap =>
    have hwv := hle m _ hlm (by omega) hm
    have hbig := hmax m _ (by omega) (by omega) hm
    refine ⟨by dsimp only; omega, hright, rfl, ⟨_, hm, by omega, ?_⟩, hover⟩
    dsimp only
    rw [toNat_add_one hbig]
    omega

theorem Homing.not_done (h : Homing stabs type addr L R st) (hexit : st.r < st.l)
    (hkey : ∃ i, L ≤ i ∧ i ≤ R ∧ stabKey stabs type i = some addr.toNat) : False := by
  obtain ⟨i, hi, hiR, hkey⟩ := hkey
  by_cases hil : i < st.l
  · exact (h.narrowed.bracket.below i _ hi hil hkey).false
  · exact (h.narrowed.bracket.above i _ (by omega) hiR hkey).false

theorem Trailing.done (hdef : ∀ i, L ≤ i → i ≤ R → stabs i ≠ none) (haddr : addr.toNat < 0xFFFFFFFF)
    (h : Trailing stabs type addr L R l' R' st) (hexit : st.r < st.l) :
    ¬ Overruns (stabKey stabs type) addr.toNat L R ∧
      seek stabs (·.Is type) (st.regionLeft + 1) st.regionRight = some st.regionLeft ∧
      IsGreatest {i | L ≤ i ∧ i ≤ R ∧ stabKey stabs type i = some addr.toNat} st.regionLeft ∧
      BeforeNext stabs type R st.regionLeft st.regionRight := by
  obtain ⟨hn, hahead, ⟨hleft, hlt⟩, hfound, hseen, hupper, habove, hnext, hover⟩ := h
  obtain rfl : l' = st.l := hahead.resolve_right fun ⟨_, _, hle⟩ => by omega
  have hright : st.regionRight = st.r := hn.right
  have hmeet : st.l ≤ st.r + 1 := hn.meet
  have hr : st.r ≤ R' := hn.bracket.upper
  have hgap : Gap (stabKey stabs type) (st.regionLeft + 1) st.r := by
    have hend : st.l - 1 = st.r := by omega
    rcases hn.left with hnone | ⟨-, -, -, hgap, -⟩
    · exact absurd hfound (Gap.not_some hnone hleft (by dsimp only; omega))
    · exact hend ▸ hgap
  have hseek := Gap.seek hdef (by omega) (by omega) (by omega) hgap
  have hone := toNat_add_one haddr
  refine ⟨fun hbad => ?_, hright ▸ hseek, ⟨⟨hleft, by omega, hfound⟩, ?_⟩, ?_⟩
  · obtain ⟨i, hi, hiR, hkey⟩ := hover.mp hbad
    by_cases hil : i < st.l
    · exact (hone ▸ hn.bracket.below i _ hi hil hkey).false
    · exact (hone ▸ hn.bracket.above i _ (by dsimp only; omega) hiR hkey).false
  · rintro i ⟨-, hiR, hkey⟩
    by_contra hi
    by_cases hir : i ≤ st.r
    · exact hgap.not_some (by omega) hir hkey
    · by_cases hiR' : i ≤ R'
      · have hlt := hn.bracket.above i _ (by dsimp only; omega) hiR' hkey
        omega
      · exact (habove i _ (by omega) hiR hkey).false
  · rw [hright]
    refine hgap.beforeNext (by omega) (by omega) ?_
    rcases hn.next with heq | hnext'
    · dsimp only at heq
      exact heq ▸ hnext
    · exact .inr hnext'

/-- `addr` is where a stab of the type starts. The last such stab is found unless
the halving comes upon one of them while a stab at `addr + 1` is still ahead. -/
theorem stabBinsearch_exact_iff (stabs : Int → Option Stab) (type : Int) (addr : Word) (L R : Int)
    (hL : 0 ≤ L) (hLR : L ≤ R) (hdef : ∀ i, L ≤ i → i ≤ R → stabs i ≠ none)
    (hasc : Ascending (stabKey stabs type) L R)
    (hmax : ∀ i v, L ≤ i → i ≤ R → stabKey stabs type i = some v → v < 0xFFFFFFFF)
    (hkey : ∃ i, L ≤ i ∧ i ≤ R ∧ stabKey stabs type i = some addr.toNat) :
    (∃ left right, stabBinsearch stabs L R type addr = some (left, right) ∧
      IsGreatest {i | L ≤ i ∧ i ≤ R ∧ stabKey stabs type i = some addr.toNat} left ∧
      BeforeNext stabs type R left right) ↔
    ¬ Overruns (stabKey stabs type) addr.toNat L R := by
  have haddr : addr.toNat < 0xFFFFFFFF := by
    obtain ⟨i, hi, hiR, hkey⟩ := hkey
    exact hmax i _ hi hiR hkey
  obtain ⟨st, hloop, hin, hphase, hexit⟩ :=
    search_total hdef hL
      (fun st => Homing stabs type addr L R st ∨ (∃ l' R', Trailing stabs type addr L R l' R' st) ∨
        Overrun stabs type addr L R st)
      (.inl (homing_start (by omega))) fun st st' hin hlr h hst => by
        rcases h with h | ⟨l', R', h⟩ | h
        · exact (h.narrows hasc haddr hlr hst).imp_right .inl
        · exact .inr (h.narrows hasc haddr hmax hlr hst)
        · exact .inr (.inr (h.narrows hasc hmax hin hlr hst))
  have hupper := hin.upper
  rcases hphase with h | ⟨l', R', h⟩ | h
  · exact (h.not_done hexit hkey).elim
  · obtain ⟨hnot, hseek, hleft, hright⟩ := h.done hdef haddr hexit
    refine iff_of_true ⟨st.regionLeft, st.regionRight, ?_, hleft, hright⟩ hnot
    rw [stabBinsearch, hloop, Option.bind_some, h.seen, if_neg (by decide), hseek, Option.map_some]
  · obtain ⟨⟨hLl, hl, hr⟩, hright, hseen, ⟨w, hw, haw, -⟩, hover⟩ := h
    refine iff_of_false ?_ (not_not.mpr hover)
    rintro ⟨left, right, hres, hleft, -⟩
    have hread : ∀ i, st.regionLeft + 1 ≤ i → i ≤ st.r → stabs i ≠ none := fun i hi hir =>
      hdef i (by omega) (by omega)
    obtain ⟨k, hseek, hge, hle, -⟩ := seek_spec (·.Is type) (by omega) hread
    rw [stabBinsearch, hloop, Option.bind_some, hseen, if_neg (by decide), hright, hseek,
      Option.map_some] at hres
    cases hres
    obtain ⟨hLk, hkR, hk⟩ := hleft.1
    have hwa := hasc.le hLl (by omega) (by omega) hw hk
    omega

end Exact

theorem functionsAt_key_below {values : List Word} (h : ∀ w ∈ values, w < 0xFFFFFFFF) {i : Int} {v : Nat}
    (hi : stabKey (functionsAt values) N_FUN i = some v) : v < 0xFFFFFFFF := by
  obtain ⟨-, w, hw, rfl⟩ := functionsAt_key.mp hi
  exact h w (List.mem_of_getElem? hw)

theorem stabBinsearch_exact_three :
    (∃ left right, stabBinsearch (functionsAt [5, 5, 8]) 0 2 N_FUN 5 = some (left, right) ∧
      IsGreatest {i | 0 ≤ i ∧ i ≤ 2 ∧
        stabKey (functionsAt [5, 5, 8]) N_FUN i = some (5 : Word).toNat} left ∧
      BeforeNext (functionsAt [5, 5, 8]) N_FUN 2 left right) ↔
    ¬ Overruns (stabKey (functionsAt [5, 5, 8]) N_FUN) (5 : Word).toNat 0 2 :=
  stabBinsearch_exact_iff (functionsAt [5, 5, 8]) N_FUN 5 0 2 (by decide) (by decide)
    (functionsAt_defined (by decide)) (functionsAt_ascending (by decide) 0 2)
    (fun _ _ _ _ => functionsAt_key_below (by simp)) ⟨0, by decide, by decide, by decide⟩

/-- A function of one byte: asked for its address the search answers with the one after it. -/
theorem stabBinsearch_returns_next :
    Ascending (stabKey (functionsAt [5, 6]) N_FUN) 0 1 ∧
      (∀ i v, 0 ≤ i → i ≤ 1 → stabKey (functionsAt [5, 6]) N_FUN i = some v → v < 0xFFFFFFFF) ∧
      stabKey (functionsAt [5, 6]) N_FUN 0 = some (5 : Word).toNat ∧
      ¬ ∃ left right, stabBinsearch (functionsAt [5, 6]) 0 1 N_FUN 5 = some (left, right) ∧
        IsGreatest {i | 0 ≤ i ∧ i ≤ 1 ∧
          stabKey (functionsAt [5, 6]) N_FUN i = some (5 : Word).toNat} left ∧
        BeforeNext (functionsAt [5, 6]) N_FUN 1 left right := by
  refine ⟨functionsAt_ascending (by decide) 0 1, fun _ _ _ _ => functionsAt_key_below (by simp),
    by decide, ?_⟩
  have hres : stabBinsearch (functionsAt [5, 6]) 0 1 N_FUN 5 = some (1, 1) := by decide
  rintro ⟨left, right, h, ⟨⟨-, -, hkey⟩, -⟩, -⟩
  rw [hres] at h
  cases h
  have hsix : stabKey (functionsAt [5, 6]) N_FUN 1 = some 6 := by decide
  rw [hsix] at hkey
  cases hkey

end Jos
