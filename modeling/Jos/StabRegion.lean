import Jos.StabBounds
import Mathlib.Order.Bounds.Basic

/-! The region `stab_binsearch` leaves: from the stab that contains the address
to just before the next one. -/

namespace Jos

section Region

variable {stabs : Int → Option Stab} {type : Int} {addr : Word} {L R : Int} {st st' : Search}

/-- The state of the search in the region from `L` to `R`. `regionLeft` is the
last entry before the range still searched, once there is one. -/
structure Narrowed (stabs : Int → Option Stab) (type : Int) (addr : Word) (L R : Int) (st : Search) :
    Prop where
  bracket : Bracket (stabKey stabs type) addr.toNat L R st.l st.r
  meet : st.l ≤ st.r + 1
  same : st.addr = addr
  right : st.regionRight = st.r
  next : st.r = R ∨ ∃ v, stabKey stabs type (st.r + 1) = some v
  left : (Gap (stabKey stabs type) L (st.l - 1)) ∨
    (L ≤ st.regionLeft ∧ st.regionLeft < st.l ∧ (∃ v, stabKey stabs type st.regionLeft = some v) ∧
      Gap (stabKey stabs type) (st.regionLeft + 1) (st.l - 1) ∧ st.anyMatches = true)

theorem narrowed_start (hLR : L ≤ R + 1) :
    Narrowed stabs type addr L R ⟨L, R, L, R, false, addr⟩ :=
  ⟨.start _ _ _ _, hLR, rfl, rfl, .inl rfl, .inl fun _ hge hle => by dsimp only at hle; omega⟩

theorem Narrowed.skip (h : Narrowed stabs type addr L R st) {t : Int} (hlt : st.l ≤ t + 1)
    (htr : t ≤ st.r) (hgap : Gap (stabKey stabs type) st.l t) :
    Narrowed stabs type addr L R { st with l := t + 1 } := by
  have hbefore : ∀ i, Gap (stabKey stabs type) i (st.l - 1) → Gap (stabKey stabs type) i t := by
    intro i hi j hij hjt
    by_cases hj : j < st.l
    · exact hi j hij (by omega)
    · exact hgap j (by omega) hjt
  refine ⟨h.bracket.skip (by omega) hgap, by dsimp only; omega, h.same, h.right, h.next, ?_⟩
  dsimp only
  rw [Int.add_sub_cancel]
  rcases h.left with hleft | ⟨hL, hl, hkey, hleft, hany⟩
  · exact .inl (hbefore _ hleft)
  · exact .inr ⟨hL, by omega, hkey, hbefore _ hleft, hany⟩

theorem Narrowed.low (h : Narrowed stabs type addr L R st) (hasc : Ascending (stabKey stabs type) L R)
    {m t : Int} {v : Nat} (hlm : st.l ≤ m) (hmt : m ≤ t) (htr : t ≤ st.r)
    (hm : stabKey stabs type m = some v) (hlt : v < addr.toNat)
    (hgap : Gap (stabKey stabs type) (m + 1) t) :
    Narrowed stabs type addr L R { st with anyMatches := true, regionLeft := m, l := t + 1 } := by
  have hlower := h.bracket.lower
  refine ⟨h.bracket.low hasc hlm hmt htr hm hlt hgap, by dsimp only; omega, h.same, h.right, h.next,
    .inr ⟨by dsimp only; omega, by dsimp only; omega, ⟨v, hm⟩, ?_, rfl⟩⟩
  dsimp only
  rwa [Int.add_sub_cancel]

theorem Narrowed.high (h : Narrowed stabs type addr L R st) (hasc : Ascending (stabKey stabs type) L R)
    {m : Int} {v : Nat} (hlm : st.l ≤ m) (hmr : m ≤ st.r)
    (hm : stabKey stabs type m = some v) (hlt : addr.toNat < v) :
    Narrowed stabs type addr L R { st with anyMatches := true, regionRight := m - 1, r := m - 1 } := by
  refine ⟨h.bracket.high hasc hlm hmr hm hlt, by dsimp only; omega, h.same, rfl,
    .inr ⟨v, by rw [← hm]; congr 1; dsimp only; omega⟩, ?_⟩
  rcases h.left with hleft | ⟨hL, hl, hkey, hleft, hany⟩
  · exact .inl hleft
  · exact .inr ⟨hL, hl, hkey, hleft, rfl⟩

theorem Narrowed.narrows (hasc : Ascending (stabKey stabs type) L R)
    (hne : ∀ i, L ≤ i → i ≤ R → stabKey stabs type i ≠ some addr.toNat) (hlr : st.l ≤ st.r)
    (h : Narrowed stabs type addr L R st) (hst : Narrows stabs type st st') :
    Narrowed stabs type addr L R st' := by
  have hlower := h.bracket.lower
  have hupper := h.bracket.upper
  have hsame := h.same
  cases hst with
  | @skip t ht hgap => exact h.skip (by omega) (by omega) hgap
  | @low t m v ht hlm hmt hm hgap hv => exact h.low hasc hlm hmt (by omega) hm (hsame ▸ hv) hgap
  | @high t m v ht hlm hmt hm hgap hv => exact h.high hasc hlm (by omega) hm (hsame ▸ hv)
  | @hit t m ht hlm hmt hm hgap => exact absurd (hsame ▸ hm) (hne m (by omega) (by omega))

/-- Between two entries of the type the search finds the one below, and the
region up to the one above. -/
theorem stabBinsearch_interior (hdef : ∀ i, L ≤ i → i ≤ R → stabs i ≠ none) (hL : 0 ≤ L) (hLR : L ≤ R)
    (hasc : Ascending (stabKey stabs type) L R)
    (hne : ∀ i, L ≤ i → i ≤ R → stabKey stabs type i ≠ some addr.toNat)
    (hlow : ∃ i v, L ≤ i ∧ i ≤ R ∧ stabKey stabs type i = some v ∧ v < addr.toNat) :
    ∃ left right, stabBinsearch stabs L R type addr = some (left, right) ∧
      L ≤ left ∧ left ≤ right ∧ right ≤ R ∧ (∃ v, stabKey stabs type left = some v ∧ v < addr.toNat) ∧
      Gap (stabKey stabs type) (left + 1) right ∧
      (∀ i v, left < i → i ≤ R → stabKey stabs type i = some v → addr.toNat < v) ∧
      (right = R ∨ ∃ v, stabKey stabs type (right + 1) = some v) := by
  obtain ⟨st, hloop, -, h, hexit⟩ :=
    search_total hdef hL (Narrowed stabs type addr L R) (narrowed_start (by omega))
      fun _ _ _ hlr h hst => h.narrows hasc hne hlr hst
  have hmeet := h.meet
  obtain ⟨i, v, hLi, hiR, hi, hv⟩ := hlow
  have hil : i < st.l := by
    by_contra hge
    exact (h.bracket.above i v (by omega) hiR hi).not_gt hv
  rcases h.left with hgap | ⟨hLl, hll, ⟨w, hw⟩, hgap, hany⟩
  · exact absurd hi (Gap.not_some hgap hLi (by omega))
  · have hright := h.right
    have hupper := h.bracket.upper
    have hend : st.l - 1 = st.r := by omega
    rw [hend] at hgap
    have hseek : seek stabs (·.Is type) (st.regionLeft + 1) st.r = some st.regionLeft :=
      hgap.seek hdef (by omega) hupper (by omega)
    refine ⟨st.regionLeft, st.r, ?_, hLl, by omega, hupper, ⟨w, hw, h.bracket.below _ w hLl hll hw⟩,
      hgap, fun i v hi hiR hiv => ?_, h.next⟩
    · rw [stabBinsearch, hloop, Option.bind_some, hany, hright, hseek]
      rfl
    · by_cases hir : i ≤ st.r
      · exact absurd hiv (hgap.not_some (by omega) hir)
      · exact h.bracket.above i v (by omega) hiR hiv

/-- The next entry of the type after `left` is at `right + 1`, or `right` is the
end of the region. -/
def BeforeNext (stabs : Int → Option Stab) (type R left right : Int) : Prop :=
  IsLeast {i | left < i ∧ i ≤ R ∧ stabKey stabs type i ≠ none} (right + 1) ∨
    ((∀ i, left < i → i ≤ R → stabKey stabs type i = none) ∧ right = R)

theorem Gap.beforeNext {left right : Int} (h : Gap (stabKey stabs type) (left + 1) right)
    (hle : left ≤ right) (hR : right ≤ R)
    (hnext : right = R ∨ ∃ v, stabKey stabs type (right + 1) = some v) :
    BeforeNext stabs type R left right := by
  by_cases hend : right = R
  · exact .inr ⟨fun i hi hiR => h i hi (hend ▸ hiR), hend⟩
  · obtain ⟨v, hv⟩ := hnext.resolve_left hend
    refine .inl ⟨⟨by omega, by omega, by rw [hv]; exact Option.some_ne_none v⟩,
      fun i ⟨hi, _, hkey⟩ => ?_⟩
    by_contra hlt
    exact hkey (h i hi (by omega))

/-- The search for an address between the first stab of the type and the end of
the region that none of them has: it finds the one before, and the next. -/
theorem stabBinsearch_between (stabs : Int → Option Stab) (type : Int) (addr : Word) (L R : Int)
    (hL : 0 ≤ L) (hLR : L ≤ R) (hdef : ∀ i, L ≤ i → i ≤ R → stabs i ≠ none)
    (hasc : Ascending (stabKey stabs type) L R)
    (hlow : ∃ i v, L ≤ i ∧ i ≤ R ∧ stabKey stabs type i = some v ∧ v < addr.toNat)
    (hne : ∀ i, L ≤ i → i ≤ R → stabKey stabs type i ≠ some addr.toNat) :
    ∃ left right, stabBinsearch stabs L R type addr = some (left, right) ∧
      IsGreatest {i | L ≤ i ∧ i ≤ R ∧ ∃ v, stabKey stabs type i = some v ∧ v < addr.toNat} left ∧
      BeforeNext stabs type R left right := by
  obtain ⟨left, right, hres, hLl, hlr, hrR, hleft, hgap, habove, hnext⟩ :=
    stabBinsearch_interior hdef hL hLR hasc hne hlow
  refine ⟨left, right, hres, ⟨⟨hLl, by omega, hleft⟩, ?_⟩, hgap.beforeNext hlr hrR hnext⟩
  rintro i ⟨-, hiR, v, hv, hlt⟩
  by_contra hi
  exact (habove i v (by omega) hiR hv).not_gt hlt

/-- The search for an address below every stab of the type: `regionLeft` stays where it was. -/
structure Unfound (stabs : Int → Option Stab) (type : Int) (addr : Word) (L R : Int) (st : Search) :
    Prop where
  same : st.addr = addr
  left : st.regionLeft = L
  right : st.regionRight = st.r
  meet : st.l ≤ st.r + 1
  before : Gap (stabKey stabs type) L (st.l - 1)
  unseen : st.anyMatches = false → st.r = R
  seen : st.anyMatches = true → ∃ i, L ≤ i ∧ i ≤ R ∧ stabKey stabs type i ≠ none

theorem unfound_start (hLR : L ≤ R + 1) : Unfound stabs type addr L R ⟨L, R, L, R, false, addr⟩ :=
  ⟨rfl, rfl, rfl, hLR, fun i hi hlt => by dsimp only at hlt; omega, fun _ => rfl, fun h => by cases h⟩

theorem Unfound.narrows (habove : ∀ i v, L ≤ i → i ≤ R → stabKey stabs type i = some v → addr.toNat < v)
    (hin : Inside L R st) (hlr : st.l ≤ st.r) (h : Unfound stabs type addr L R st)
    (hst : Narrows stabs type st st') : Unfound stabs type addr L R st' := by
  have hlower := hin.lower
  have hupper := hin.upper
  obtain ⟨hsame, hleft, hright, hmeet, hbefore, hunseen, hseen⟩ := h
  cases hst with
  | @skip t ht hgap =>
    refine ⟨hsame, hleft, hright, by dsimp only; omega, fun i hi hit => ?_, hunseen, hseen⟩
    dsimp only at hit
    by_cases hil : i < st.l
    · exact hbefore i hi (by omega)
    · exact hgap i (by omega) (by omega)
  | @low t m v ht hlm hmt hm hgap hv =>
    exact absurd (habove m v (by omega) (by omega) hm) (hsame ▸ hv).not_gt
  | @high t m v ht hlm hmt hm hgap hv =>
    exact ⟨hsame, hleft, rfl, by dsimp only; omega, hbefore, by simp,
      fun _ => ⟨m, by omega, by omega, by rw [hm]; exact Option.some_ne_none v⟩⟩
  | @hit t m ht hlm hmt hm hgap =>
    exact absurd (habove m _ (by omega) (by omega) hm) (hsame ▸ lt_irrefl _)

/-- No stab of the type contains the address. The region comes out empty only
when the search saw none of the type at all: otherwise the last scan takes
`region_left` back to `region_right`. -/
theorem stabBinsearch_notFound_iff (stabs : Int → Option Stab) (type : Int) (addr : Word) (L R : Int)
    (hL : 0 ≤ L) (hLR : L ≤ R) (hdef : ∀ i, L ≤ i → i ≤ R → stabs i ≠ none)
    (habove : ∀ i v, L ≤ i → i ≤ R → stabKey stabs type i = some v → addr.toNat < v) :
    (∃ left right, stabBinsearch stabs L R type addr = some (left, right) ∧ right < left) ↔
      ∀ i, L ≤ i → i ≤ R → stabKey stabs type i = none := by
  obtain ⟨st, hloop, hin, ⟨-, hleft, hright, hmeet, hbefore, hunseen, hseen⟩, hexit⟩ :=
    search_total hdef hL (Unfound stabs type addr L R) (unfound_start (by omega))
      fun _ _ hin hlr h hst => h.narrows habove hin hlr hst
  have hlower := hin.lower
  have hupper := hin.upper
  have hgap : Gap (stabKey stabs type) L st.r := fun i hi hir => hbefore i hi (by omega)
  rw [stabBinsearch, hloop, Option.bind_some, hleft, hright]
  cases hany : st.anyMatches with
  | false =>
    have hend : st.r = R := hunseen hany
    refine iff_of_true ⟨L, L - 1, if_pos rfl, by omega⟩ fun i hi hiR => hgap i hi (by omega)
  | true =>
    obtain ⟨i, hi, hiR, hkey⟩ := hseen hany
    refine iff_of_false ?_ fun hnone => hkey (hnone i hi hiR)
    rintro ⟨left, right, hres, hlt⟩
    rw [if_neg (by decide)] at hres
    by_cases hr : L ≤ st.r
    · rw [Gap.seek hdef (by omega) hupper hr fun j hj hjr => hgap j (by omega) hjr] at hres
      cases hres
      omega
    · have hback : st.r < L + 1 := by omega
      rw [seek_leave hback] at hres
      cases hres
      omega

end Region

theorem functionsAt_key {values : List Word} {i : Int} {v : Nat} :
    stabKey (functionsAt values) N_FUN i = some v ↔
      0 ≤ i ∧ ∃ w, values[i.toNat]? = some w ∧ w.toNat = v := by
  rw [stabKey_eq_some, functionsAt]
  split_ifs with hi
  · simp [hi, Stab.Is, N_FUN]
  · simp [hi]

theorem functionsAt_ascending {values : List Word} (h : values.Pairwise (·.toNat ≤ ·.toNat))
    (L R : Int) :
    Ascending (stabKey (functionsAt values) N_FUN) L R := by
  intro i j a b _ hij _ ha hb
  obtain ⟨hi, v, hv, rfl⟩ := functionsAt_key.mp ha
  obtain ⟨hj, w, hw, rfl⟩ := functionsAt_key.mp hb
  obtain ⟨hvi, rfl⟩ := List.getElem?_eq_some_iff.mp hv
  obtain ⟨hwj, rfl⟩ := List.getElem?_eq_some_iff.mp hw
  exact List.pairwise_iff_getElem.mp h _ _ hvi hwj (by omega)

theorem functionsAt_key_ne {values : List Word} {addr : Word} (h : addr ∉ values) {i : Int} :
    stabKey (functionsAt values) N_FUN i ≠ some addr.toNat := by
  intro hi
  obtain ⟨-, w, hw, hv⟩ := functionsAt_key.mp hi
  exact h (BitVec.toNat_inj.mp hv ▸ List.mem_of_getElem? hw)

theorem stabBinsearch_between_three :
    ∃ left right, stabBinsearch (functionsAt [2, 4, 4, 9]) 0 3 N_FUN 6 = some (left, right) ∧
      IsGreatest {i | 0 ≤ i ∧ i ≤ 3 ∧ ∃ v, stabKey (functionsAt [2, 4, 4, 9]) N_FUN i = some v ∧
        v < (6 : Word).toNat} left ∧
      BeforeNext (functionsAt [2, 4, 4, 9]) N_FUN 3 left right :=
  stabBinsearch_between (functionsAt [2, 4, 4, 9]) N_FUN 6 0 3 (by decide) (by decide)
    (functionsAt_defined (by decide))
    (functionsAt_ascending (by decide) 0 3)
    ⟨0, 2, by decide, by decide, by decide, by decide⟩
    (fun _ _ _ => functionsAt_key_ne (by decide))

theorem functionsAt_key_above {values : List Word} {addr : Word} (h : ∀ w ∈ values, addr < w) {i : Int}
    {v : Nat} (hi : stabKey (functionsAt values) N_FUN i = some v) : addr.toNat < v := by
  obtain ⟨-, w, hw, rfl⟩ := functionsAt_key.mp hi
  exact h w (List.mem_of_getElem? hw)

theorem stabBinsearch_notFound_two :
    (∃ left right, stabBinsearch (functionsAt [5, 9]) 0 1 N_FUN 3 = some (left, right) ∧ right < left) ↔
      ∀ i, 0 ≤ i → i ≤ 1 → stabKey (functionsAt [5, 9]) N_FUN i = none :=
  stabBinsearch_notFound_iff (functionsAt [5, 9]) N_FUN 3 0 1 (by decide) (by decide)
    (functionsAt_defined (by decide)) fun _ _ _ _ => functionsAt_key_above (by simp)

/-- The address is below both functions, and the region is left at -1 and -1. -/
theorem stabBinsearch_finds_nothing :
    Ascending (stabKey (functionsAt [5, 9]) N_FUN) 0 1 ∧
      (∀ i v, 0 ≤ i → i ≤ 1 → stabKey (functionsAt [5, 9]) N_FUN i = some v → (3 : Word).toNat < v) ∧
      ¬ ∃ left right, stabBinsearch (functionsAt [5, 9]) 0 1 N_FUN 3 = some (left, right) ∧
        right < left := by
  refine ⟨functionsAt_ascending (by decide) 0 1, fun _ _ _ _ => functionsAt_key_above (by simp), ?_⟩
  have hres : stabBinsearch (functionsAt [5, 9]) 0 1 N_FUN 3 = some (-1, -1) := by decide
  rintro ⟨left, right, h, hlt⟩
  rw [hres] at h
  cases h
  omega

end Jos
