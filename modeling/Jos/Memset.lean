import Jos.Memmove

/-! `memset` of `lib/string.c`: the string instructions of the build with `ASM`,
and the portable loop, which counts the bytes in an `int`. -/

namespace Jos

/-- `rep stos` of `cx` elements, each the low `w` bytes of `a`, upwards from `di`. -/
def repStos (w : Nat) (a : Word) : Nat → Memory → Word → Memory
  | 0, m, _ => m
  | cx + 1, m, di =>
    repStos w a cx (m.storeBlock di.toNat w fun j => a.extractLsb' (8 * j) 8) (di + BitVec.ofNat 32 w)

def memsetAsm (m : Memory) (v c n : Word) : Memory :=
  if n = 0 then m
  else if aligned v ∧ n % 4 = 0 then
    let c := c &&& 0xFF
    let c := c <<< 24 ||| c <<< 16 ||| c <<< 8 ||| c
    repStos 4 c (n / 4).toNat m v
  else repStos 1 c n.toNat m v

theorem countdown_iff (m : Word) : 0 ≤ (m - 1).toInt ↔ 0 < m.toNat ∧ m.toNat ≤ 2 ^ 31 := by
  have hlt := m.isLt
  have hsub : (m - 1).toNat = (2 ^ 32 - 1 + m.toNat) % 2 ^ 32 := BitVec.toNat_sub m 1
  have hint : (m - 1).toInt =
      if 2 * (m - 1).toNat < 2 ^ 32 then ((m - 1).toNat : Int) else (m - 1).toNat - (2 ^ 32 : Nat) :=
    BitVec.toInt_eq_toNat_cond (m - 1)
  split at hint <;> omega

/-- `while (--m >= 0) *p++ = c;`, where `--m` wraps. -/
def setWhile (m : Word) (mem : Memory) (p c : Word) : Memory :=
  if 0 ≤ (m - 1).toInt then setWhile (m - 1) (mem.store p.toNat (c.setWidth 8)) (p + 1) c else mem
termination_by m.toNat
decreasing_by
  have hpos : 0 < m.toNat := ((countdown_iff m).mp ‹_›).1
  have hsub : (m - 1).toNat = m.toNat - 1 := toNat_sub_ofNat_of_le hpos
  omega

def memsetPortable (mem : Memory) (v c n : Word) : Memory :=
  setWhile n mem v c

/-- `m'` is `m` with the `n` bytes from `v` on set to `b`. -/
structure Sets (m : Memory) (v n : Nat) (b : Byte) (m' : Memory) : Prop where
  set : ∀ i < n, m'.byte (v + i) = b
  within : Memory.Within v (v + n) m m'

theorem Sets.none (m : Memory) (v : Nat) (b : Byte) : Sets m v 0 b m :=
  ⟨fun _ hi => absurd hi (Nat.not_lt_zero _), .refl _ _ m⟩

theorem Sets.append {m m' m'' : Memory} {v k n : Nat} {b : Byte} (h : Sets m v k b m')
    (h' : Sets m' (v + k) n b m'') : Sets m v (k + n) b m'' := by
  refine ⟨fun i hi => ?_, (h.within.mono le_rfl (by omega)).trans (h'.within.mono (by omega) (by omega))⟩
  by_cases hk : i < k
  · rw [h'.within.frame _ (.inl (by omega))]
    exact h.set i hk
  · have hat : v + i = v + k + (i - k) := by omega
    rw [hat]
    exact h'.set _ (by omega)

/-- What was set is fixed by the memory before, so two ways of it agree. -/
theorem Sets.agree {m m' m'' : Memory} {v n : Nat} {b : Byte} (h : Sets m v n b m')
    (h' : Sets m v n b m'') : m'.byte = m''.byte := by
  funext x
  by_cases hx : x < v ∨ v + n ≤ x
  · rw [h.within.frame x hx, h'.within.frame x hx]
  · have hat : x = v + (x - v) := by omega
    rw [hat, h.set _ (by omega), h'.set _ (by omega)]

theorem sets_store (m : Memory) (v : Nat) (b : Byte) : Sets m v 1 b (m.store v b) := by
  refine ⟨fun i hi => ?_, Memory.within_store m b le_rfl (Nat.lt_succ_self v)⟩
  rw [Nat.lt_one_iff.mp hi]
  exact Memory.store_byte_same m v b

theorem sets_storeBlock (m : Memory) (v : Nat) {w : Nat} {b : Byte} {f : Nat → Byte}
    (hf : ∀ j < w, f j = b) : Sets m v w b (m.storeBlock v w f) := by
  refine ⟨fun i hi => ?_, Memory.within_storeBlock m f le_rfl le_rfl⟩
  have hin : v ≤ v + i ∧ v + i < v + w := by omega
  simp only [Memory.storeBlock, if_pos hin, Nat.add_sub_cancel_left]
  exact hf i hi

theorem repStos_sets {w : Nat} {a : Word} {b : Byte} (hb : ∀ j < w, a.extractLsb' (8 * j) 8 = b)
    (k : Nat) (m : Memory) (v : Word) (hv : v.toNat + w * k < 2 ^ 32) :
    Sets m v.toNat (w * k) b (repStos w a k m v) := by
  induction k generalizing m v with
  | zero => exact .none m v.toNat b
  | succ k ih =>
    have hk : w * (k + 1) = w + w * k := (Nat.mul_succ w k).trans (Nat.add_comm _ _)
    have hv' : (v + BitVec.ofNat 32 w).toNat = v.toNat + w := toNat_add_ofNat_of_lt (by omega)
    have hrest := ih (m.storeBlock v.toNat w fun j => a.extractLsb' (8 * j) 8) (v + BitVec.ofNat 32 w)
      (by omega)
    rw [hv'] at hrest
    rw [hk]
    exact (sets_storeBlock m v.toNat hb).append hrest

/-- Every byte of the word is the low byte of `c`. -/
theorem fill_byte (c : Word) : ∀ j < 4, ((c &&& 0xFF) <<< 24 ||| (c &&& 0xFF) <<< 16 |||
    (c &&& 0xFF) <<< 8 ||| (c &&& 0xFF)).extractLsb' (8 * j) 8 = c.setWidth 8 := by
  have hall : ∀ b < 256, ∀ j < 4, (BitVec.ofNat 32 b <<< 24 ||| BitVec.ofNat 32 b <<< 16 |||
      BitVec.ofNat 32 b <<< 8 ||| BitVec.ofNat 32 b).extractLsb' (8 * j) 8 = BitVec.ofNat 8 b := by
    decide +kernel
  have hmask : c &&& 0xFF = BitVec.ofNat 32 (c.toNat % 256) := by
    apply BitVec.eq_of_toNat_eq
    rw [BitVec.toNat_ofNat, Nat.mod_eq_of_lt (by omega)]
    exact toNat_and_low c (by decide : 8 ≤ 32)
  have hlow : c.setWidth 8 = BitVec.ofNat 8 (c.toNat % 256) := by
    apply BitVec.eq_of_toNat_eq
    rw [BitVec.toNat_setWidth, BitVec.toNat_ofNat, Nat.mod_mod]
  intro j hj
  rw [hmask, hlow]
  exact hall _ (Nat.mod_lt _ (by decide)) j hj

theorem memsetAsm_sets (m : Memory) {v n : Word} (c : Word) (h : v.toNat + n.toNat < 2 ^ 32) :
    Sets m v.toNat n.toNat (c.setWidth 8) (memsetAsm m v c n) := by
  rw [memsetAsm]
  by_cases hzero : n = 0
  · rw [if_pos hzero, hzero]
    exact .none m v.toNat _
  · rw [if_neg hzero]
    by_cases hwords : aligned v ∧ n % 4 = 0
    · have hdiv : (n / 4).toNat = n.toNat / 4 := BitVec.toNat_udiv
      have hmod := (mod_four_iff n).mp hwords.2
      have hall : 4 * (n / 4).toNat = n.toNat := by omega
      rw [if_pos hwords, ← hall]
      exact repStos_sets (fill_byte c) _ m v (by omega)
    · have hlow : ∀ j < 1, c.extractLsb' (8 * j) 8 = c.setWidth 8 := fun j hj => by
        rw [Nat.lt_one_iff.mp hj]
        rfl
      have hset : Sets m v.toNat (1 * n.toNat) (c.setWidth 8) (repStos 1 c n.toNat m v) :=
        repStos_sets hlow n.toNat m v (by omega)
      rw [Nat.one_mul] at hset
      rwa [if_neg hwords]

theorem setWhile_sets (c : Word) {k : Nat} (hk : k ≤ 2 ^ 31) {m : Word} (hm : m.toNat = k) (mem : Memory)
    {p : Word} (hp : p.toNat + k < 2 ^ 32) : Sets mem p.toNat k (c.setWidth 8) (setWhile m mem p c) := by
  induction k generalizing m mem p with
  | zero =>
    have hstop : ¬ 0 ≤ (m - 1).toInt := fun hge => by
      have hpos := ((countdown_iff m).mp hge).1
      omega
    rw [setWhile, if_neg hstop]
    exact .none mem p.toNat _
  | succ k ih =>
    have hgo : 0 ≤ (m - 1).toInt := (countdown_iff m).mpr (by omega)
    have hm' : (m - 1).toNat = k := (toNat_sub_ofNat_of_le (k := 1) (by omega)).trans (by omega)
    have hp' : (p + 1).toNat = p.toNat + 1 := toNat_add_ofNat_of_lt (k := 1) (by omega)
    have hrest := ih (by omega) hm' (mem.store p.toNat (c.setWidth 8)) (p := p + 1) (by omega)
    rw [hp'] at hrest
    rw [setWhile, if_pos hgo, Nat.add_comm k 1]
    exact (sets_store mem p.toNat _).append hrest

theorem memsetPortable_sets (m : Memory) {v n : Word} (c : Word) (h : v.toNat + n.toNat < 2 ^ 32)
    (hn : n.toNat ≤ 2 ^ 31) : Sets m v.toNat n.toNat (c.setWidth 8) (memsetPortable m v c n) :=
  setWhile_sets c hn rfl m h

/-- A size that is negative as an `int` is less than nothing to do. -/
theorem memsetPortable_large (m : Memory) (v c : Word) {n : Word} (hn : 2 ^ 31 < n.toNat) :
    memsetPortable m v c n = m := by
  have hstop : ¬ 0 ≤ (n - 1).toInt := fun hge => by
    have hle := ((countdown_iff n).mp hge).2
    omega
  rw [memsetPortable, setWhile, if_neg hstop]

/-- Both builds set the bytes to the low one of `c`, but of more than `2 ^ 31` bytes
the portable one stores none, which is right only where they are so already. -/
theorem memset_builds_agree_iff (m : Memory) (v c n : Word) (h : v.toNat + n.toNat < 2 ^ 32) :
    (Sets m v.toNat n.toNat (c.setWidth 8) (memsetAsm m v c n) ∧
      Sets m v.toNat n.toNat (c.setWidth 8) (memsetPortable m v c n) ∧
      (memsetAsm m v c n).byte = (memsetPortable m v c n).byte) ↔
    n.toNat ≤ 2 ^ 31 ∨ ∀ i < n.toNat, m.byte (v.toNat + i) = c.setWidth 8 := by
  have hasm := memsetAsm_sets m c h
  by_cases hn : n.toNat ≤ 2 ^ 31
  · have hportable := memsetPortable_sets m c h hn
    exact iff_of_true ⟨hasm, hportable, hasm.agree hportable⟩ (.inl hn)
  · rw [or_iff_right hn, memsetPortable_large m v c (Nat.lt_of_not_le hn)]
    constructor
    · rintro ⟨-, hportable, -⟩
      exact hportable.set
    · intro hset
      have hportable : Sets m v.toNat n.toNat (c.setWidth 8) m := ⟨hset, .refl _ _ m⟩
      exact ⟨hasm, hportable, hasm.agree hportable⟩

theorem memset_builds_agree_iff_page :
    (Sets stairs 0x1000 0x1000 0xAB (memsetAsm stairs 0x1000 0xFFFFFFAB 0x1000) ∧
      Sets stairs 0x1000 0x1000 0xAB (memsetPortable stairs 0x1000 0xFFFFFFAB 0x1000) ∧
      (memsetAsm stairs 0x1000 0xFFFFFFAB 0x1000).byte =
        (memsetPortable stairs 0x1000 0xFFFFFFAB 0x1000).byte) ↔
    (0x1000 : Word).toNat ≤ 2 ^ 31 ∨ ∀ i < 0x1000, stairs.byte (0x1000 + i) = 0xAB :=
  memset_builds_agree_iff stairs 0x1000 0xFFFFFFAB 0x1000 (by decide)

/-- More than half of the address space is not cleared. -/
theorem memset_sets_nothing :
    ¬ ∀ (m : Memory) (v c n : Word), v.toNat + n.toNat < 2 ^ 32 →
      Sets m v.toNat n.toNat (c.setWidth 8) (memsetAsm m v c n) ∧
      Sets m v.toNat n.toNat (c.setWidth 8) (memsetPortable m v c n) ∧
      (memsetAsm m v c n).byte = (memsetPortable m v c n).byte := by
  intro h
  obtain ⟨-, hportable, -⟩ := h stairs 0x1001 0 0x80000001 (by decide)
  rw [memsetPortable_large stairs _ _ (by decide)] at hportable
  have hfirst : stairs.byte (0x1001 + 0) = 0 := hportable.set 0 (by decide)
  revert hfirst
  decide

end Jos
