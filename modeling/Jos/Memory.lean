import Mathlib.Data.List.Basic

/-! Byte-addressed memory that records where it was stored to, and the frame
rule: a block of stores into one range leaves every other byte alone. -/

namespace Jos

abbrev Byte := BitVec 8

abbrev Word := BitVec 32

/-- `stores` lists the addresses stored to so far, the latest first. -/
structure Memory where
  byte : Nat → Byte
  stores : List Nat

namespace Memory

def store (m : Memory) (a : Nat) (b : Byte) : Memory :=
  ⟨fun x => if x = a then b else m.byte x, a :: m.stores⟩

/-- `m'` is `m` after some stores, all of them into `[lo, hi)`. -/
structure Within (lo hi : Nat) (m m' : Memory) : Prop where
  frame : ∀ a, (a < lo ∨ hi ≤ a) → m'.byte a = m.byte a
  logged : ∃ new, m'.stores = new ++ m.stores ∧ ∀ a ∈ new, lo ≤ a ∧ a < hi

theorem Within.refl (lo hi : Nat) (m : Memory) : Within lo hi m m :=
  ⟨fun _ _ => rfl, [], rfl, by simp⟩

theorem Within.trans {lo hi : Nat} {m m' m'' : Memory}
    (h : Within lo hi m m') (h' : Within lo hi m' m'') : Within lo hi m m'' := by
  obtain ⟨new, hn, hb⟩ := h.logged
  obtain ⟨new', hn', hb'⟩ := h'.logged
  refine ⟨fun a ha => (h'.frame a ha).trans (h.frame a ha), new' ++ new, ?_, ?_⟩
  · rw [hn', hn, List.append_assoc]
  · intro a ha
    rcases List.mem_append.mp ha with ha | ha
    · exact hb' a ha
    · exact hb a ha

theorem Within.mono {lo hi lo' hi' : Nat} {m m' : Memory} (h : Within lo hi m m')
    (hlo : lo' ≤ lo) (hhi : hi ≤ hi') : Within lo' hi' m m' := by
  obtain ⟨new, hn, hb⟩ := h.logged
  refine ⟨fun a ha => h.frame a (by omega), new, hn, fun a ha => ?_⟩
  have hh := hb a ha
  omega

theorem within_store {lo hi a : Nat} (m : Memory) (b : Byte) (hlo : lo ≤ a) (hhi : a < hi) :
    Within lo hi m (m.store a b) := by
  refine ⟨fun x hx => ?_, [a], rfl, by simpa using ⟨hlo, hhi⟩⟩
  have hne : x ≠ a := by omega
  simp [store, hne]

@[simp] theorem store_byte_same (m : Memory) (a : Nat) (b : Byte) : (m.store a b).byte a = b := by
  simp [store]

theorem store_byte_ne {m : Memory} {a x : Nat} {b : Byte} (h : x ≠ a) :
    (m.store a b).byte x = m.byte x := by
  simp [store, h]

def view (m : Memory) (a n : Nat) : List Byte :=
  (List.range n).map fun i => m.byte (a + i)

@[simp] theorem view_length (m : Memory) (a n : Nat) : (m.view a n).length = n := by
  simp [view]

@[simp] theorem view_getElem (m : Memory) (a n i : Nat) (h : i < (m.view a n).length) :
    (m.view a n)[i] = m.byte (a + i) := by
  simp [view]

theorem view_add (m : Memory) (a i j : Nat) : m.view a (i + j) = m.view a i ++ m.view (a + i) j := by
  simp [view, List.range_add, Function.comp_def, Nat.add_assoc]

theorem view_succ (m : Memory) (a n : Nat) : m.view a (n + 1) = m.byte a :: m.view (a + 1) n := by
  simp [view, List.range_succ_eq_map, Function.comp_def, Nat.add_assoc, Nat.add_comm 1]

theorem view_congr {m m' : Memory} {a n : Nat} (h : ∀ b, a ≤ b → b < a + n → m'.byte b = m.byte b) :
    m'.view a n = m.view a n := by
  refine List.map_congr_left fun i hi => h _ (Nat.le_add_right _ _) ?_
  have hlt := List.mem_range.mp hi
  omega

theorem view_modify (m : Memory) (a k n : Nat) (f : Byte → Byte) :
    (m.store (a + k) (f (m.byte (a + k)))).view a n = (m.view a n).modify k f := by
  refine List.ext_getElem (by simp) fun i h₁ h₂ => ?_
  rw [view_getElem, List.getElem_modify, view_getElem]
  split_ifs with hi
  · rw [hi, store_byte_same]
  · rw [store_byte_ne (by omega)]

theorem view_prefix (m : Memory) (a : Nat) {i n : Nat} (h : i ≤ n) : m.view a i <+: m.view a n := by
  obtain ⟨j, rfl⟩ := Nat.exists_eq_add_of_le h
  exact ⟨m.view (a + i) j, (m.view_add a i j).symm⟩

/-- Little-endian, as all accesses are. -/
def load16 (m : Memory) (a : Nat) : BitVec 16 :=
  m.byte (a + 1) ++ m.byte a

def load32 (m : Memory) (a : Nat) : Word :=
  m.byte (a + 3) ++ m.byte (a + 2) ++ m.byte (a + 1) ++ m.byte a

def store16 (m : Memory) (a : Nat) (v : BitVec 16) : Memory :=
  (m.store a (v.extractLsb' 0 8)).store (a + 1) (v.extractLsb' 8 8)

theorem load16_congr {m m' : Memory} {a a' : Nat} (h : m.byte a = m'.byte a')
    (h' : m.byte (a + 1) = m'.byte (a' + 1)) : m.load16 a = m'.load16 a' := by
  simp [load16, h, h']

theorem load32_congr {m m' : Memory} {a : Nat} (h : ∀ k < 4, m.byte (a + k) = m'.byte (a + k)) :
    m.load32 a = m'.load32 a := by
  have hlow : m.byte a = m'.byte a := h 0 (by decide)
  rw [load32, load32, h 3 (by decide), h 2 (by decide), h 1 (by decide), hlow]

@[simp] theorem load16_store16_same (m : Memory) (a : Nat) (v : BitVec 16) :
    (m.store16 a v).load16 a = v := by
  have h : ((m.store a (v.extractLsb' 0 8)).store (a + 1) (v.extractLsb' 8 8)).byte a =
      v.extractLsb' 0 8 := by
    rw [store_byte_ne (by omega), store_byte_same]
  simp only [load16, store16, store_byte_same, h]
  ext i hi
  simp only [BitVec.getElem_append, BitVec.getElem_extractLsb']
  by_cases hlt : i < 8
  · simp [hlt, ← BitVec.getLsbD_eq_getElem]
  · simp [hlt, show 8 + (i - 8) = i by omega, ← BitVec.getLsbD_eq_getElem]

theorem load16_store16_ne {m : Memory} {a x : Nat} {v : BitVec 16} (h : x + 2 ≤ a ∨ a + 2 ≤ x) :
    (m.store16 a v).load16 x = m.load16 x := by
  apply load16_congr
  · simp only [store16]
    rw [store_byte_ne (by omega), store_byte_ne (by omega)]
  · simp only [store16]
    rw [store_byte_ne (by omega), store_byte_ne (by omega)]

theorem within_store16 {lo hi a : Nat} (m : Memory) (v : BitVec 16) (hlo : lo ≤ a)
    (hhi : a + 2 ≤ hi) : Within lo hi m (m.store16 a v) :=
  (within_store m _ hlo (by omega)).trans (within_store _ _ (by omega) (by omega))

/-- Bytes from elsewhere, stored in increasing order. -/
def storeBlock (m : Memory) (a n : Nat) (f : Nat → Byte) : Memory :=
  ⟨fun x => if a ≤ x ∧ x < a + n then f (x - a) else m.byte x, (List.range' a n).reverse ++ m.stores⟩

theorem within_storeBlock {lo hi a n : Nat} (m : Memory) (f : Nat → Byte) (hlo : lo ≤ a)
    (hhi : a + n ≤ hi) : Within lo hi m (m.storeBlock a n f) := by
  refine ⟨fun x hx => ?_, _, rfl, fun x hx => ?_⟩
  · have hne : ¬ (a ≤ x ∧ x < a + n) := by omega
    simp [storeBlock, hne]
  · simp only [List.mem_reverse, List.mem_range'_1] at hx
    omega

/-- An element of `w` bytes is read whole and then written. -/
def copyElem (m : Memory) (d s w : Nat) : Memory :=
  ⟨fun x => if d ≤ x ∧ x < d + w then m.byte (s + (x - d)) else m.byte x,
    (List.range' d w).reverse ++ m.stores⟩

def copyUp (w : Nat) : Nat → Memory → Nat → Nat → Memory
  | 0, m, _, _ => m
  | k + 1, m, d, s => copyUp w k (m.copyElem d s w) (d + w) (s + w)

def copyDown (w : Nat) : Nat → Memory → Nat → Nat → Memory
  | 0, m, _, _ => m
  | k + 1, m, d, s => copyDown w k (m.copyElem (d + w * k) (s + w * k) w) d s

theorem within_copyElem {lo hi d w : Nat} (m : Memory) (s : Nat) (hlo : lo ≤ d)
    (hhi : d + w ≤ hi) : Within lo hi m (m.copyElem d s w) := by
  refine ⟨fun x hx => ?_, _, rfl, fun x hx => ?_⟩
  · have hne : ¬ (d ≤ x ∧ x < d + w) := by omega
    simp [copyElem, hne]
  · simp only [List.mem_reverse, List.mem_range'_1] at hx
    omega

theorem within_copyUp {lo hi : Nat} (w k : Nat) (m : Memory) (d s : Nat) (hlo : lo ≤ d)
    (hhi : d + w * k ≤ hi) : Within lo hi m (copyUp w k m d s) := by
  induction k generalizing m d s with
  | zero => exact .refl _ _ _
  | succ k ih =>
    have hk : w * (k + 1) = w * k + w := Nat.mul_succ w k
    exact (within_copyElem m s hlo (by omega)).trans (ih _ _ _ (by omega) (by omega))

/-- An upward copy is right when it does not start inside its source. -/
theorem copyUp_byte (w k : Nat) (m : Memory) (d s : Nat) (h : d ≤ s ∨ s + w * k ≤ d) (x : Nat) :
    (copyUp w k m d s).byte x =
      if d ≤ x ∧ x < d + w * k then m.byte (s + (x - d)) else m.byte x := by
  induction k generalizing m d s with
  | zero => simp [copyUp, show ¬ (d ≤ x ∧ x < d) by omega]
  | succ k ih =>
    have hk : w * (k + 1) = w * k + w := Nat.mul_succ w k
    rw [copyUp, ih _ _ _ (by omega)]
    by_cases hx : d + w ≤ x ∧ x < d + w + w * k
    · -- the source of a later element is still untouched
      have hs : ¬ (d ≤ s + w + (x - (d + w)) ∧ s + w + (x - (d + w)) < d + w) := by omega
      rw [if_pos hx, if_pos (by omega)]
      simp only [copyElem, if_neg hs]
      congr 1
      omega
    · rw [if_neg hx]
      by_cases hd : d ≤ x ∧ x < d + w
      · simp only [copyElem, if_pos hd]
        rw [if_pos (by omega)]
      · simp only [copyElem, if_neg hd]
        rw [if_neg (by omega)]

theorem within_copyDown {lo hi : Nat} (w k : Nat) (m : Memory) (d s : Nat) (hlo : lo ≤ d)
    (hhi : d + w * k ≤ hi) : Within lo hi m (copyDown w k m d s) := by
  induction k generalizing m with
  | zero => exact .refl _ _ _
  | succ k ih =>
    have hk : w * (k + 1) = w * k + w := Nat.mul_succ w k
    exact (within_copyElem m _ (by omega) (by omega)).trans (ih _ (by omega))

/-- A downward copy is right when its source does not start inside it. -/
theorem copyDown_byte (w k : Nat) (m : Memory) (d s : Nat) (h : s ≤ d ∨ d + w * k ≤ s) (x : Nat) :
    (copyDown w k m d s).byte x =
      if d ≤ x ∧ x < d + w * k then m.byte (s + (x - d)) else m.byte x := by
  induction k generalizing m with
  | zero => simp [copyDown, show ¬ (d ≤ x ∧ x < d) by omega]
  | succ k ih =>
    have hk : w * (k + 1) = w * k + w := Nat.mul_succ w k
    rw [copyDown, ih _ (by omega)]
    by_cases hx : d ≤ x ∧ x < d + w * k
    · have hs : ¬ (d + w * k ≤ s + (x - d) ∧ s + (x - d) < d + w * k + w) := by omega
      rw [if_pos hx, if_pos (by omega)]
      simp only [copyElem, if_neg hs]
    · rw [if_neg hx]
      by_cases hd : d + w * k ≤ x ∧ x < d + w * k + w
      · simp only [copyElem, if_pos hd]
        rw [if_pos (by omega)]
        congr 1
        omega
      · simp only [copyElem, if_neg hd]
        rw [if_neg (by omega)]

end Memory

end Jos
