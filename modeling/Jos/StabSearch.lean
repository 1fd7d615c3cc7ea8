import Jos.Bracket
import Jos.Loop
import Jos.Memory
import Mathlib.Data.BitVec

/-! `stab_binsearch` of `kern/kdebug.c`. The table of stabs mixes entries of
many types, so the search looks backwards from each middle for the type it is
after. -/

namespace Jos

def N_FUN : Int := 0x24
def N_SO : Int := 0x64
def N_SOL : Int := 0x84
def N_PSYM : Int := 0xa0

structure Stab where
  nStrx : Word
  nType : Byte
  nOther : Byte
  nDesc : BitVec 16
  nValue : Word

/-- `n_type == type` -/
def Stab.Is (s : Stab) (type : Int) : Prop := (s.nType.toNat : Int) = type

instance (s : Stab) (type : Int) : Decidable (s.Is type) := inferInstanceAs (Decidable (_ = _))

/-- `stabs` has the entries that may be read. An `int` holds every index of a
table that fits in memory, and the sum of two. -/
def seekBody (stabs : Int → Option Stab) (p : Stab → Prop) [DecidablePred p] (lo m : Int) :
    Option (Turn Int Int) :=
  if lo ≤ m then (stabs m).map fun s => if p s then .leave m else .again (m - 1)
  else some (.leave m)

/-- `while (m >= lo && !p(stabs[m])) m--;` -/
def seek (stabs : Int → Option Stab) (p : Stab → Prop) [DecidablePred p] (lo m : Int) : Option Int :=
  loop (seekBody stabs p lo) ((m + 1 - lo).toNat + 1) m

structure Search where
  l : Int
  r : Int
  regionLeft : Int
  regionRight : Int
  anyMatches : Bool
  addr : Word

def searchBody (stabs : Int → Option Stab) (type : Int) (st : Search) : Option (Turn Search Search) :=
  if st.l ≤ st.r then
    let trueM := (st.l + st.r).tdiv 2
    (seek stabs (·.Is type) st.l trueM).bind fun m =>
    if m < st.l then some (.again { st with l := trueM + 1 })
    else
      (stabs m).map fun s =>
      if s.nValue < st.addr then
        .again { st with anyMatches := true, regionLeft := m, l := trueM + 1 }
      else if s.nValue > st.addr then
        .again { st with anyMatches := true, regionRight := m - 1, r := m - 1 }
      else
        .again { st with anyMatches := true, regionLeft := m, l := m, addr := st.addr + 1 }
  else some (.leave st)

/-- An exact match need not narrow the range, but the turn after it does. -/
def stabBinsearch (stabs : Int → Option Stab) (regionLeft regionRight type : Int) (addr : Word) :
    Option (Int × Int) :=
  (loop (searchBody stabs type) (2 * (regionRight + 1 - regionLeft).toNat + 2)
    ⟨regionLeft, regionRight, regionLeft, regionRight, false, addr⟩).bind fun st =>
  if st.anyMatches = false then some (st.regionLeft, st.regionLeft - 1)
  else (seek stabs (·.Is type) (st.regionLeft + 1) st.regionRight).map fun l => (l, st.regionRight)

theorem seek_spec {stabs : Int → Option Stab} (p : Stab → Prop) [DecidablePred p] {lo m : Int}
    (hlo : lo ≤ m + 1) (hdef : ∀ i, lo ≤ i → i ≤ m → stabs i ≠ none) :
    ∃ k, seek stabs p lo m = some k ∧ lo - 1 ≤ k ∧ k ≤ m ∧
      (lo ≤ k → ∃ s, stabs k = some s ∧ p s) ∧
      ∀ i s, k < i → i ≤ m → stabs i = some s → ¬ p s := by
  refine loop_total (fun k => lo - 1 ≤ k ∧ k ≤ m ∧
      ∀ i s, k < i → i ≤ m → stabs i = some s → ¬ p s)
    (fun k => (k + 1 - lo).toNat) ?_ ⟨by omega, le_rfl, fun _ _ _ _ => by omega⟩ (by omega)
  rintro k ⟨hge, hle, hnone⟩
  by_cases hk : lo ≤ k
  · obtain ⟨s, hs⟩ := Option.ne_none_iff_exists'.mp (hdef k hk hle)
    by_cases hp : p s
    · exact .inl ⟨k, by rw [seekBody, if_pos hk, hs, Option.map_some, if_pos hp],
        hge, hle, fun _ => ⟨s, hs, hp⟩, hnone⟩
    · refine .inr ⟨k - 1, by rw [seekBody, if_pos hk, hs, Option.map_some, if_neg hp],
        ⟨by omega, by omega, fun i t hki hi ht => ?_⟩, by omega⟩
      by_cases hik : i = k
      · rw [hik, hs, Option.some.injEq] at ht
        exact ht ▸ hp
      · exact hnone i t (by omega) hi ht
  · exact .inl ⟨k, if_neg hk, hge, hle, fun h => absurd h hk, hnone⟩

def stabKey (stabs : Int → Option Stab) (type : Int) (i : Int) : Option Nat :=
  (stabs i).bind fun s => if s.Is type then some s.nValue.toNat else none

theorem stabKey_eq_some {stabs : Int → Option Stab} {type i : Int} {v : Nat} :
    stabKey stabs type i = some v ↔ ∃ s, stabs i = some s ∧ s.Is type ∧ s.nValue.toNat = v := by
  simp [stabKey, Option.bind_eq_some_iff]

theorem stabKey_eq_none {stabs : Int → Option Stab} {type i : Int} :
    stabKey stabs type i = none ↔ ∀ s, stabs i = some s → ¬ s.Is type := by
  simp [stabKey, Option.bind_eq_none_iff]

theorem seek_type {stabs : Int → Option Stab} (type : Int) {lo m : Int} (hlo : lo ≤ m + 1)
    (hdef : ∀ i, lo ≤ i → i ≤ m → stabs i ≠ none) :
    (seek stabs (·.Is type) lo m = some (lo - 1) ∧ Gap (stabKey stabs type) lo m) ∨
      ∃ k s, seek stabs (·.Is type) lo m = some k ∧ lo ≤ k ∧ k ≤ m ∧ stabs k = some s ∧ s.Is type ∧
        Gap (stabKey stabs type) (k + 1) m := by
  obtain ⟨k, hseek, hge, hle, hfound, hnone⟩ := seek_spec (·.Is type) hlo hdef
  have hgap : Gap (stabKey stabs type) (k + 1) m := fun i hi him =>
    stabKey_eq_none.mpr fun s hs => hnone i s (by omega) him hs
  by_cases hk : lo ≤ k
  · obtain ⟨s, hs, his⟩ := hfound hk
    exact .inr ⟨k, s, hseek, hk, hle, hs, his, hgap⟩
  · obtain rfl : k = lo - 1 := by omega
    rw [Int.sub_add_cancel] at hgap
    exact .inl ⟨hseek, hgap⟩

theorem Gap.seek {stabs : Int → Option Stab} {type L R : Int}
    (hdef : ∀ i, L ≤ i → i ≤ R → stabs i ≠ none)
    {lo m : Int} (hL : L ≤ lo + 1) (hR : m ≤ R) (hlo : lo ≤ m)
    (hgap : Gap (stabKey stabs type) (lo + 1) m) :
    seek stabs (·.Is type) (lo + 1) m = some lo := by
  have hread : ∀ j, lo + 1 ≤ j → j ≤ m → stabs j ≠ none := fun j hj hjm =>
    hdef j (by omega) (by omega)
  rcases seek_type type (by omega) hread with
    ⟨hseek, -⟩ | ⟨k, s, -, hlk, hkm, hs, his, -⟩
  · rw [hseek, Int.add_sub_cancel]
  · exact absurd his (stabKey_eq_none.mp (hgap k hlk hkm) s hs)

theorem searchBody_skip {stabs : Int → Option Stab} {type t : Int} {st : Search} (hlr : st.l ≤ st.r)
    (ht : (st.l + st.r).tdiv 2 = t) (hseek : seek stabs (·.Is type) st.l t = some (st.l - 1)) :
    searchBody stabs type st = some (.again { st with l := t + 1 }) := by
  rw [searchBody, if_pos hlr]
  dsimp only
  rw [ht, hseek, Option.bind_some, if_pos (by omega)]

theorem searchBody_match {stabs : Int → Option Stab} {type t m : Int} {st : Search} {s : Stab}
    (hlr : st.l ≤ st.r) (ht : (st.l + st.r).tdiv 2 = t)
    (hseek : seek stabs (·.Is type) st.l t = some m) (hlm : st.l ≤ m) (hs : stabs m = some s) :
    searchBody stabs type st =
      if s.nValue < st.addr then
        some (.again { st with anyMatches := true, regionLeft := m, l := t + 1 })
      else if s.nValue > st.addr then
        some (.again { st with anyMatches := true, regionRight := m - 1, r := m - 1 })
      else
        some (.again
          { st with anyMatches := true, regionLeft := m, l := m, addr := st.addr + 1 }) := by
  rw [searchBody, if_pos hlr]
  dsimp only
  rw [ht, hseek, Option.bind_some, if_neg (by omega), hs, Option.map_some]
  split_ifs <;> rfl

/-- What one turn does with the middle `t`, or with the entry `m` of the type at
or before it. -/
inductive Narrows (stabs : Int → Option Stab) (type : Int) (st : Search) : Search → Prop where
  | skip {t : Int} (ht : (st.l + st.r) / 2 = t) (hgap : Gap (stabKey stabs type) st.l t) :
      Narrows stabs type st { st with l := t + 1 }
  | low {t m : Int} {v : Nat} (ht : (st.l + st.r) / 2 = t) (hlm : st.l ≤ m) (hmt : m ≤ t)
      (hm : stabKey stabs type m = some v) (hgap : Gap (stabKey stabs type) (m + 1) t)
      (hv : v < st.addr.toNat) :
      Narrows stabs type st { st with anyMatches := true, regionLeft := m, l := t + 1 }
  | high {t m : Int} {v : Nat} (ht : (st.l + st.r) / 2 = t) (hlm : st.l ≤ m) (hmt : m ≤ t)
      (hm : stabKey stabs type m = some v) (hgap : Gap (stabKey stabs type) (m + 1) t)
      (hv : st.addr.toNat < v) :
      Narrows stabs type st { st with anyMatches := true, regionRight := m - 1, r := m - 1 }
  | hit {t m : Int} (ht : (st.l + st.r) / 2 = t) (hlm : st.l ≤ m) (hmt : m ≤ t)
      (hm : stabKey stabs type m = some st.addr.toNat) (hgap : Gap (stabKey stabs type) (m + 1) t) :
      Narrows stabs type st { st with anyMatches := true, regionLeft := m, l := m, addr := st.addr + 1 }

theorem searchBody_narrows {stabs : Int → Option Stab} {type : Int} {st : Search} (hl : 0 ≤ st.l)
    (hlr : st.l ≤ st.r) (hdef : ∀ i, st.l ≤ i → i ≤ st.r → stabs i ≠ none) :
    ∃ st', searchBody stabs type st = some (.again st') ∧ Narrows stabs type st st' := by
  have hmid : (st.l + st.r).tdiv 2 = (st.l + st.r) / 2 := Int.tdiv_eq_ediv_of_nonneg (by omega)
  generalize ht : (st.l + st.r) / 2 = t at hmid
  have hread : ∀ i, st.l ≤ i → i ≤ t → stabs i ≠ none := fun i hi hit => hdef i hi (by omega)
  rcases seek_type type (by omega) hread with
    ⟨hseek, hgap⟩ | ⟨m, s, hseek, hlm, hmt, hs, his, hgap⟩
  · exact ⟨_, searchBody_skip hlr hmid hseek, .skip ht hgap⟩
  · have hm : stabKey stabs type m = some s.nValue.toNat := stabKey_eq_some.mpr ⟨s, hs, his, rfl⟩
    rw [searchBody_match hlr hmid hseek hlm hs]
    rcases lt_trichotomy s.nValue.toNat st.addr.toNat with hlow | heq | hhigh
    · exact ⟨_, if_pos hlow, .low ht hlm hmt hm hgap hlow⟩
    · have hlow : ¬ s.nValue < st.addr := heq.not_lt
      have hhigh : ¬ s.nValue > st.addr := heq.not_gt
      rw [heq] at hm
      exact ⟨_, (if_neg hlow).trans (if_neg hhigh), .hit ht hlm hmt hm hgap⟩
    · have hlow : ¬ s.nValue < st.addr := hhigh.not_gt
      exact ⟨_, (if_neg hlow).trans (if_pos hhigh), .high ht hlm hmt hm hgap hhigh⟩

end Jos
