import Jos.StabSearch

/-! `stab_binsearch` on a table in any order whatever: it ends, and stays in its
region. -/

namespace Jos

section Bounds

variable {stabs : Int → Option Stab} {type : Int} {addr : Word} {L R : Int} {st st' : Search}

/-- Twice the length of the range. A hit at its left end leaves the length as it
is, but the address sought is then no longer the one found there. -/
def Search.todo (stabs : Int → Option Stab) (type : Int) (st : Search) : Nat :=
  2 * (st.r + 1 - st.l).toNat + if stabKey stabs type st.l = some st.addr.toNat then 1 else 0

theorem Search.todo_le : st.todo stabs type ≤ 2 * (st.r + 1 - st.l).toNat + 1 := by
  rw [Search.todo]
  split_ifs <;> omega

theorem Search.le_todo : 2 * (st.r + 1 - st.l).toNat ≤ st.todo stabs type :=
  Nat.le_add_right _ _

theorem toNat_add_one_ne (addr : Word) : (addr + 1).toNat ≠ addr.toNat := by
  bv_omega

theorem Narrows.todo_lt (h : Narrows stabs type st st') (hlr : st.l ≤ st.r) :
    st'.todo stabs type < st.todo stabs type := by
  have hafter : st'.todo stabs type ≤ 2 * (st'.r + 1 - st'.l).toNat + 1 := Search.todo_le
  have hbefore : 2 * (st.r + 1 - st.l).toNat ≤ st.todo stabs type := Search.le_todo
  cases h with
  | skip ht hgap => dsimp only at hafter; omega
  | low ht hlm hmt hm hgap hv => dsimp only at hafter; omega
  | high ht hlm hmt hm hgap hv => dsimp only at hafter; omega
  | @hit t m ht hlm hmt hm hgap =>
    by_cases hml : m = st.l
    · subst hml
      rw [Search.todo, Search.todo, if_pos hm, if_neg]
      · exact Nat.lt_succ_self _
      · rw [hm, Option.some.injEq]
        exact (toNat_add_one_ne st.addr).symm
    · dsimp only at hafter
      omega

/-- The search stays in the region from `L` to `R`, in whatever order its entries are. -/
structure Inside (L R : Int) (st : Search) : Prop where
  lower : L ≤ st.l
  upper : st.r ≤ R
  left : L ≤ st.regionLeft ∧ st.regionLeft ≤ max L R
  right : st.r ≤ st.regionRight ∧ st.regionRight ≤ R
  found : st.anyMatches = true → L - 1 ≤ st.regionRight

theorem inside_start : Inside L R ⟨L, R, L, R, false, addr⟩ :=
  ⟨le_rfl, le_rfl, ⟨le_rfl, le_max_left _ _⟩, ⟨le_rfl, le_rfl⟩, by simp⟩

theorem Inside.narrows (h : Inside L R st) (hlr : st.l ≤ st.r) (hst : Narrows stabs type st st') :
    Inside L R st' := by
  obtain ⟨hlower, hupper, hleft, hright, hfound⟩ := h
  cases hst with
  | skip ht hgap => exact ⟨by dsimp only; omega, hupper, hleft, hright, hfound⟩
  | low ht hlm hmt hm hgap hv =>
    exact ⟨by dsimp only; omega, hupper, by dsimp only; omega, hright, fun _ => by dsimp only; omega⟩
  | high ht hlm hmt hm hgap hv =>
    exact ⟨hlower, by dsimp only; omega, hleft, by dsimp only; omega, fun _ => by dsimp only; omega⟩
  | hit ht hlm hmt hm hgap =>
    exact ⟨by dsimp only; omega, hupper, by dsimp only; omega, hright, fun _ => by dsimp only; omega⟩

/-- The rule for a search of the region: an invariant that every turn keeps
holds at the end. -/
theorem search_total (hdef : ∀ i, L ≤ i → i ≤ R → stabs i ≠ none) (hL : 0 ≤ L) (inv : Search → Prop)
    (hstart : inv ⟨L, R, L, R, false, addr⟩)
    (hturn : ∀ st st', Inside L R st → st.l ≤ st.r → inv st → Narrows stabs type st st' → inv st') :
    ∃ st, loop (searchBody stabs type) (2 * (R + 1 - L).toNat + 2) ⟨L, R, L, R, false, addr⟩ = some st ∧
      Inside L R st ∧ inv st ∧ st.r < st.l := by
  refine loop_total (fun st => Inside L R st ∧ inv st) (Search.todo stabs type) ?_
    ⟨inside_start, hstart⟩ (Nat.lt_succ_of_le Search.todo_le)
  rintro st ⟨hin, h⟩
  by_cases hlr : st.l ≤ st.r
  · have hlower := hin.lower
    have hupper := hin.upper
    obtain ⟨st', hbody, hst'⟩ := searchBody_narrows (by omega) hlr fun i hi hir =>
      hdef i (by omega) (by omega)
    exact .inr ⟨st', hbody, ⟨hin.narrows hlr hst', hturn st st' hin hlr h hst'⟩, hst'.todo_lt hlr⟩
  · exact .inl ⟨st, if_neg hlr, hin, h, by omega⟩

theorem seek_leave {p : Stab → Prop} [DecidablePred p] {lo m : Int} (h : m < lo) :
    seek stabs p lo m = some m :=
  loop_leave _ (if_neg (by omega))

/-- What the search leaves once its loop has ended in `st`. -/
theorem stabBinsearch_exit (hdef : ∀ i, L ≤ i → i ≤ R → stabs i ≠ none)
    (hloop : loop (searchBody stabs type) (2 * (R + 1 - L).toNat + 2) ⟨L, R, L, R, false, addr⟩ =
      some st)
    (hin : Inside L R st) :
    ∃ left right, stabBinsearch stabs L R type addr = some (left, right) ∧
      ((st.anyMatches = false ∧ left = st.regionLeft ∧ right = left - 1) ∨
        (st.anyMatches = true ∧ right = st.regionRight ∧ left ≤ right ∧
          (st.regionLeft ≤ left ∨ left = right))) := by
  obtain ⟨hlower, hupper, hleft, hright, hfound⟩ := hin
  rw [stabBinsearch, hloop, Option.bind_some]
  cases hany : st.anyMatches with
  | false => exact ⟨st.regionLeft, st.regionLeft - 1, if_pos rfl, .inl ⟨rfl, rfl, rfl⟩⟩
  | true =>
    by_cases hback : st.regionLeft ≤ st.regionRight
    · have hread : ∀ i, st.regionLeft + 1 ≤ i → i ≤ st.regionRight → stabs i ≠ none := fun i hi hir =>
        hdef i (by omega) (by omega)
      obtain ⟨k, hseek, hge, hle, -⟩ := seek_spec (·.Is type) (by omega) hread
      exact ⟨k, st.regionRight, by rw [if_neg (by decide), hseek, Option.map_some],
        .inr ⟨rfl, rfl, hle, .inl (by omega)⟩⟩
    · have hback : st.regionRight < st.regionLeft + 1 := by omega
      exact ⟨st.regionRight, st.regionRight,
        by rw [if_neg (by decide), seek_leave hback, Option.map_some], .inr ⟨rfl, rfl, le_rfl, .inr rfl⟩⟩

theorem stabBinsearch_inside (hdef : ∀ i, L ≤ i → i ≤ R → stabs i ≠ none) (hL : 0 ≤ L) :
    ∃ left right, stabBinsearch stabs L R type addr = some (left, right) ∧
      L - 1 ≤ left ∧ left ≤ max L R ∧ L - 1 ≤ right ∧ right ≤ max (L - 1) R := by
  obtain ⟨st, hloop, hin, -, -⟩ :=
    search_total hdef hL (fun _ => True) trivial fun _ _ _ _ _ _ => trivial
  obtain ⟨left, right, hres, hexit⟩ := stabBinsearch_exit hdef hloop hin
  obtain ⟨hlower, hupper, hleft, hright, hfound⟩ := hin
  refine ⟨left, right, hres, ?_⟩
  rcases hexit with ⟨-, rfl, rfl⟩ | ⟨hany, rfl, hlr, hleft'⟩
  · omega
  · have hfound := hfound hany
    omega

/-- The search in a region whose first entry is of another type. -/
structure PastFirst (L : Int) (st : Search) : Prop where
  unseen : st.anyMatches = false → st.regionLeft = L
  seen : st.anyMatches = true → L ≤ st.regionRight

theorem PastFirst.narrows (hfirst : stabKey stabs type L = none) (hin : Inside L R st)
    (hlr : st.l ≤ st.r) (h : PastFirst L st) (hst : Narrows stabs type st st') : PastFirst L st' := by
  obtain ⟨hlower, hupper, hleft, hright, -⟩ := hin
  cases hst with
  | skip ht hgap => exact ⟨h.unseen, h.seen⟩
  | low ht hlm hmt hm hgap hv => exact ⟨by simp, fun _ => by dsimp only; omega⟩
  | @high t m v ht hlm hmt hm hgap hv =>
    have hne : m ≠ L := by
      rintro rfl
      rw [hfirst] at hm
      cases hm
    exact ⟨by simp, fun _ => by dsimp only; omega⟩
  | hit ht hlm hmt hm hgap => exact ⟨by simp, fun _ => by dsimp only; omega⟩

theorem stabBinsearch_first (hdef : ∀ i, L ≤ i → i ≤ R → stabs i ≠ none) (hL : 0 ≤ L)
    (hfirst : stabKey stabs type L = none) :
    ∃ left right, stabBinsearch stabs L R type addr = some (left, right) ∧
      (left = L ∨ (L < left ∧ left ≤ right ∧ right ≤ R)) := by
  obtain ⟨st, hloop, hin, ⟨hunseen, hseen⟩, -⟩ :=
    search_total hdef hL (PastFirst L) ⟨fun _ => rfl, by simp⟩ fun _ _ hin hlr h hst =>
      h.narrows hfirst hin hlr hst
  obtain ⟨left, right, hres, hexit⟩ := stabBinsearch_exit hdef hloop hin
  obtain ⟨hlower, hupper, hleft, hright, -⟩ := hin
  refine ⟨left, right, hres, ?_⟩
  rcases hexit with ⟨hany, rfl, -⟩ | ⟨hany, rfl, hlr, hleft'⟩
  · exact .inl (hunseen hany)
  · have hseen := hseen hany
    omega

theorem seek_mono {stabs' : Int → Option Stab} (hle : ∀ i s, stabs i = some s → stabs' i = some s)
    (p : Stab → Prop) [DecidablePred p] {lo m k : Int} (h : seek stabs p lo m = some k) :
    seek stabs' p lo m = some k := by
  refine loop_mono (fun i t ht => ?_) h
  rw [seekBody] at ht ⊢
  split_ifs at ht ⊢ with hlo
  · obtain ⟨s, hs, hst⟩ := Option.map_eq_some_iff.mp ht
    rw [hle i s hs, Option.map_some, hst]
  · exact ht

theorem searchBody_mono {stabs' : Int → Option Stab} (hle : ∀ i s, stabs i = some s → stabs' i = some s)
    {t : Turn Search Search} (h : searchBody stabs type st = some t) :
    searchBody stabs' type st = some t := by
  rw [searchBody] at h ⊢
  split_ifs at h ⊢ with hlr
  · obtain ⟨m, hm, hmt⟩ := Option.bind_eq_some_iff.mp h
    dsimp only
    rw [seek_mono hle _ hm, Option.bind_some]
    split_ifs at hmt ⊢ with hlm
    · exact hmt
    · obtain ⟨s, hs, hst⟩ := Option.map_eq_some_iff.mp hmt
      rw [hle m s hs, Option.map_some, hst]
  · exact h

theorem stabBinsearch_mono {stabs' : Int → Option Stab}
    (hle : ∀ i s, stabs i = some s → stabs' i = some s) {res : Int × Int}
    (h : stabBinsearch stabs L R type addr = some res) :
    stabBinsearch stabs' L R type addr = some res := by
  rw [stabBinsearch] at h ⊢
  obtain ⟨st, hst, hres⟩ := Option.bind_eq_some_iff.mp h
  rw [loop_mono (fun _ _ => searchBody_mono hle) hst, Option.bind_some]
  split_ifs at hres ⊢ with hany
  · exact hres
  · obtain ⟨k, hk, hkr⟩ := Option.map_eq_some_iff.mp hres
    rw [seek_mono hle _ hk, Option.map_some, hkr]

def window (stabs : Int → Option Stab) (L R i : Int) : Option Stab :=
  if L ≤ i ∧ i ≤ R then stabs i else none

theorem window_of_mem {i : Int} (hi : L ≤ i) (hiR : i ≤ R) : window stabs L R i = stabs i :=
  if_pos ⟨hi, hiR⟩

theorem eq_of_window {i : Int} {s : Stab} (h : window stabs L R i = some s) :
    (L ≤ i ∧ i ≤ R) ∧ stabs i = some s := by
  rw [window] at h
  split_ifs at h with hi
  exact ⟨hi, h⟩

/-- On any table the search ends, within its region, and no entry outside the
region has a part in it: the table may even fault there. -/
theorem stabBinsearch_safe (stabs : Int → Option Stab) (type : Int) (addr : Word) (L R : Int)
    (hL : 0 ≤ L) (hdef : ∀ i, L ≤ i → i ≤ R → stabs i ≠ none) :
    ∃ left right,
      (∀ stabs', (∀ i, L ≤ i → i ≤ R → stabs' i = stabs i) →
        stabBinsearch stabs' L R type addr = some (left, right)) ∧
      L - 1 ≤ left ∧ left ≤ max L R ∧ L - 1 ≤ right ∧ right ≤ max (L - 1) R := by
  have hwindow : ∀ i, L ≤ i → i ≤ R → window stabs L R i ≠ none := fun i hi hiR => by
    rw [window_of_mem hi hiR]
    exact hdef i hi hiR
  obtain ⟨left, right, hres, hbounds⟩ := stabBinsearch_inside hwindow hL
  refine ⟨left, right, fun stabs' hsame => stabBinsearch_mono (fun i s hs => ?_) hres, hbounds⟩
  obtain ⟨⟨hi, hiR⟩, hs⟩ := eq_of_window hs
  rw [hsame i hi hiR, hs]

end Bounds

/-- A table of functions alone, at the addresses `values`. -/
def functionsAt (values : List Word) (i : Int) : Option Stab :=
  if 0 ≤ i then values[i.toNat]?.map fun value => ⟨0, 0x24, 0, 0, value⟩ else none

theorem functionsAt_defined {values : List Word} {R : Int} (hR : (values.length : Int) = R + 1) (i : Int)
    (hi : 0 ≤ i) (hiR : i ≤ R) : functionsAt values i ≠ none := by
  rw [functionsAt, if_pos hi, List.getElem?_eq_getElem (by omega)]
  exact Option.some_ne_none _

/-- Out of order, and with the address to wrap. -/
theorem stabBinsearch_safe_wrap :
    ∃ left right,
      (∀ stabs', (∀ i, 0 ≤ i → i ≤ 2 → stabs' i = functionsAt [7, 0xFFFFFFFF, 3] i) →
        stabBinsearch stabs' 0 2 N_FUN 0xFFFFFFFF = some (left, right)) ∧
      (0 : Int) - 1 ≤ left ∧ left ≤ max 0 2 ∧ (0 : Int) - 1 ≤ right ∧ right ≤ max (0 - 1) 2 :=
  stabBinsearch_safe (functionsAt [7, 0xFFFFFFFF, 3]) N_FUN 0xFFFFFFFF 0 2 (by decide)
    (functionsAt_defined (by decide))

end Jos
