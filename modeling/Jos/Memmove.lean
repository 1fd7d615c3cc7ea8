import Jos.Bits
import Jos.StringFns

/-! `memmove` of `lib/string.c` on the 32-bit pointers that both builds of it work
on: the string instructions of the one with `ASM`, and the portable loops. Where
neither range wraps, both are `memmove` on addresses. -/

namespace Jos

/-- `rep movs` of `cx` elements of `w` bytes, from `si` to `di`, downwards when the
direction flag is set. -/
def repMovs (w : Nat) (df : Bool) : Nat → Memory → Word → Word → Memory
  | 0, m, _, _ => m
  | cx + 1, m, di, si =>
    let m := m.copyElem di.toNat si.toNat w
    if df then repMovs w df cx m (di - BitVec.ofNat 32 w) (si - BitVec.ofNat 32 w)
    else repMovs w df cx m (di + BitVec.ofNat 32 w) (si + BitVec.ofNat 32 w)

/-- The test `(int)p%4 == 0`: the remainder has the sign of the pointer. -/
def aligned (p : Word) : Bool :=
  p.toInt.tmod 4 = 0

def memmoveAsm (m : Memory) (dst src n : Word) : Memory :=
  if src < dst ∧ src + n > dst then
    let s := src + n
    let d := dst + n
    if aligned s ∧ aligned d ∧ n % 4 = 0 then repMovs 4 true (n / 4).toNat m (d - 4) (s - 4)
    else repMovs 1 true n.toNat m (d - 1) (s - 1)
  else
    if aligned src ∧ aligned dst ∧ n % 4 = 0 then repMovs 4 false (n / 4).toNat m dst src
    else repMovs 1 false n.toNat m dst src

/-- `while (n-- > 0) *--d = *--s;` -/
def moveDown : Nat → Memory → Word → Word → Memory
  | 0, m, _, _ => m
  | n + 1, m, d, s => moveDown n (m.store (d - 1).toNat (m.byte (s - 1).toNat)) (d - 1) (s - 1)

/-- `while (n-- > 0) *d++ = *s++;` -/
def moveUp : Nat → Memory → Word → Word → Memory
  | 0, m, _, _ => m
  | n + 1, m, d, s => moveUp n (m.store d.toNat (m.byte s.toNat)) (d + 1) (s + 1)

def memmovePortable (m : Memory) (dst src n : Word) : Memory :=
  if src < dst ∧ src + n > dst then moveDown n.toNat m (dst + n) (src + n)
  else moveUp n.toNat m dst src

theorem aligned_iff (p : Word) : aligned p ↔ p.toNat % 4 = 0 := by
  have hint : p.toInt = if 2 * p.toNat < 2 ^ 32 then (p.toNat : Int) else p.toNat - (2 ^ 32 : Nat) :=
    BitVec.toInt_eq_toNat_cond p
  rw [aligned, decide_eq_true_iff, ← Int.dvd_iff_tmod_eq_zero]
  split at hint <;> omega

theorem mod_four_iff (n : Word) : n % 4 = 0 ↔ n.toNat % 4 = 0 := by
  have hmod : (n % 4).toNat = n.toNat % 4 := BitVec.toNat_umod
  rw [← hmod]
  exact BitVec.toNat_inj.symm

theorem startsInside_iff {dst src n : Word} (h : src.toNat + n.toNat < 2 ^ 32) :
    (src < dst ∧ src + n > dst) ↔ (src.toNat < dst.toNat ∧ src.toNat + n.toNat > dst.toNat) := by
  rw [gt_iff_lt, BitVec.lt_def, BitVec.lt_def, BitVec.toNat_add_of_lt h]

theorem repMovs_up (w k : Nat) (m : Memory) (d s : Word) (hd : d.toNat + w * k < 2 ^ 32)
    (hs : s.toNat + w * k < 2 ^ 32) :
    repMovs w false k m d s = m.copyUp w k d.toNat s.toNat := by
  induction k generalizing m d s with
  | zero => rfl
  | succ k ih =>
    have hk : w * (k + 1) = w * k + w := Nat.mul_succ w k
    have hd' : (d + BitVec.ofNat 32 w).toNat = d.toNat + w := toNat_add_ofNat_of_lt (by omega)
    have hs' : (s + BitVec.ofNat 32 w).toNat = s.toNat + w := toNat_add_ofNat_of_lt (by omega)
    have hrest := ih (m.copyElem d.toNat s.toNat w) (d + BitVec.ofNat 32 w) (s + BitVec.ofNat 32 w)
      (by omega) (by omega)
    rw [hd', hs'] at hrest
    simpa [repMovs, Memory.copyUp] using hrest

/-- The registers start at the last element, one element below the ends `d` and `s`. -/
theorem repMovs_down (w k : Nat) (m : Memory) {d s : Word} {a b : Nat} (hd : d.toNat = a + w * k)
    (hs : s.toNat = b + w * k) :
    repMovs w true k m (d - BitVec.ofNat 32 w) (s - BitVec.ofNat 32 w) = m.copyDown w k a b := by
  induction k generalizing m d s with
  | zero => rfl
  | succ k ih =>
    have hk : w * (k + 1) = w * k + w := Nat.mul_succ w k
    have hd' : (d - BitVec.ofNat 32 w).toNat = a + w * k := by
      rw [toNat_sub_ofNat_of_le (by omega)]
      omega
    have hs' : (s - BitVec.ofNat 32 w).toNat = b + w * k := by
      rw [toNat_sub_ofNat_of_le (by omega)]
      omega
    have hrest := ih (m.copyElem (a + w * k) (b + w * k) w) hd' hs'
    simpa [repMovs, Memory.copyDown, hd', hs'] using hrest

theorem copyElem_one (m : Memory) (d s : Nat) : m.copyElem d s 1 = m.store d (m.byte s) := by
  have hbyte (x : Nat) : (if d ≤ x ∧ x < d + 1 then m.byte (s + (x - d)) else m.byte x) =
      if x = d then m.byte s else m.byte x := by
    by_cases hx : x = d
    · simp [hx]
    · rw [if_neg hx, if_neg (by omega)]
  exact congrArg (Memory.mk · (d :: m.stores)) (funext hbyte)

theorem moveUp_eq (n : Nat) (m : Memory) (d s : Word) (hd : d.toNat + n < 2 ^ 32)
    (hs : s.toNat + n < 2 ^ 32) : moveUp n m d s = m.copyUp 1 n d.toNat s.toNat := by
  induction n generalizing m d s with
  | zero => rfl
  | succ n ih =>
    have hd' : (d + 1).toNat = d.toNat + 1 := toNat_add_ofNat_of_lt (k := 1) (by omega)
    have hs' : (s + 1).toNat = s.toNat + 1 := toNat_add_ofNat_of_lt (k := 1) (by omega)
    have hrest := ih (m.store d.toNat (m.byte s.toNat)) (d + 1) (s + 1) (by omega) (by omega)
    rw [moveUp, Memory.copyUp, copyElem_one, hrest, hd', hs']

theorem moveDown_eq (n : Nat) (m : Memory) {d s : Word} {a b : Nat} (hd : d.toNat = a + n)
    (hs : s.toNat = b + n) : moveDown n m d s = m.copyDown 1 n a b := by
  induction n generalizing m d s with
  | zero => rfl
  | succ n ih =>
    have hd' : (d - 1).toNat = a + n := (toNat_sub_ofNat_of_le (k := 1) (by omega)).trans (by omega)
    have hs' : (s - 1).toNat = b + n := (toNat_sub_ofNat_of_le (k := 1) (by omega)).trans (by omega)
    rw [moveDown, Memory.copyDown, copyElem_one, Nat.one_mul, hd', hs']
    exact ih _ hd' hs'

theorem memmoveAsm_eq (m : Memory) {dst src n : Word} (hs : src.toNat + n.toNat < 2 ^ 32)
    (hd : dst.toNat + n.toNat < 2 ^ 32) :
    memmoveAsm m dst src n = memmove m dst.toNat src.toNat n.toNat := by
  have hdiv : (n / 4).toNat = n.toNat / 4 := BitVec.toNat_udiv
  have hs' : (src + n).toNat = src.toNat + n.toNat := BitVec.toNat_add_of_lt hs
  have hd' : (dst + n).toNat = dst.toNat + n.toNat := BitVec.toNat_add_of_lt hd
  simp only [memmoveAsm, memmove, startsInside_iff hs, aligned_iff, mod_four_iff, hs', hd', hdiv]
  split_ifs with hdown hw hw
  · exact repMovs_down 4 _ m (by omega) (by omega)
  · exact repMovs_down 1 _ m (by omega) (by omega)
  · exact repMovs_up 4 _ m dst src (by omega) (by omega)
  · exact repMovs_up 1 _ m dst src (by omega) (by omega)

theorem memmovePortable_eq (m : Memory) {dst src n : Word} (hs : src.toNat + n.toNat < 2 ^ 32)
    (hd : dst.toNat + n.toNat < 2 ^ 32) :
    memmovePortable m dst src n =
      if src.toNat < dst.toNat ∧ src.toNat + n.toNat > dst.toNat then
        m.copyDown 1 n.toNat dst.toNat src.toNat
      else m.copyUp 1 n.toNat dst.toNat src.toNat := by
  have hs' : (src + n).toNat = src.toNat + n.toNat := BitVec.toNat_add_of_lt hs
  have hd' : (dst + n).toNat = dst.toNat + n.toNat := BitVec.toNat_add_of_lt hd
  simp only [memmovePortable, startsInside_iff hs]
  split_ifs with hdown
  · exact moveDown_eq _ m hd' hs'
  · exact moveUp_eq _ m dst src hd hs

/-- `m'` is `m` with the `n` bytes at `src` moved to `dst`. -/
structure Moves (m : Memory) (dst src n : Word) (m' : Memory) : Prop where
  moved : ∀ i < n.toNat, m'.byte (dst.toNat + i) = m.byte (src.toNat + i)
  within : Memory.Within dst.toNat (dst.toNat + n.toNat) m m'

theorem Moves.of_byte {m m' : Memory} {dst src n : Word}
    (hbyte : ∀ x, m'.byte x =
      if dst.toNat ≤ x ∧ x < dst.toNat + n.toNat then m.byte (src.toNat + (x - dst.toNat))
      else m.byte x)
    (hin : Memory.Within dst.toNat (dst.toNat + n.toNat) m m') : Moves m dst src n m' := by
  refine ⟨fun i hi => ?_, hin⟩
  rw [hbyte, if_pos (by omega), Nat.add_sub_cancel_left]

/-- What was moved is fixed by the memory before, so two copies of it agree. -/
theorem Moves.agree {m a b : Memory} {dst src n : Word} (ha : Moves m dst src n a)
    (hb : Moves m dst src n b) : a.byte = b.byte := by
  funext x
  by_cases hx : x < dst.toNat ∨ dst.toNat + n.toNat ≤ x
  · rw [ha.within.frame x hx, hb.within.frame x hx]
  · have hat : x = dst.toNat + (x - dst.toNat) := by omega
    rw [hat, ha.moved _ (by omega), hb.moved _ (by omega)]

theorem memmoveAsm_moves (m : Memory) {dst src n : Word} (hs : src.toNat + n.toNat < 2 ^ 32)
    (hd : dst.toNat + n.toNat < 2 ^ 32) : Moves m dst src n (memmoveAsm m dst src n) := by
  rw [memmoveAsm_eq m hs hd]
  exact .of_byte (memmove_byte m _ _ _) (within_memmove m _ _ _ (Nat.le_refl _) (Nat.le_refl _))

theorem memmovePortable_moves (m : Memory) {dst src n : Word} (hs : src.toNat + n.toNat < 2 ^ 32)
    (hd : dst.toNat + n.toNat < 2 ^ 32) : Moves m dst src n (memmovePortable m dst src n) := by
  have hn : 1 * n.toNat = n.toNat := Nat.one_mul n.toNat
  rw [memmovePortable_eq m hs hd]
  by_cases hdown : src.toNat < dst.toNat ∧ src.toNat + n.toNat > dst.toNat
  · rw [if_pos hdown]
    refine .of_byte (fun x => ?_) (Memory.within_copyDown 1 _ m _ _ (Nat.le_refl _) (by omega))
    rw [Memory.copyDown_byte 1 _ m _ _ (by omega), hn]
  · rw [if_neg hdown]
    refine .of_byte (fun x => ?_) (Memory.within_copyUp 1 _ m _ _ (Nat.le_refl _) (by omega))
    rw [Memory.copyUp_byte 1 _ m _ _ (by omega), hn]

/-- Whatever the overlap and the alignment, both builds move the bytes, and so
they agree. -/
theorem memmove_builds_agree (m : Memory) (dst src n : Word) (hs : src.toNat + n.toNat < 2 ^ 32)
    (hd : dst.toNat + n.toNat < 2 ^ 32) :
    Moves m dst src n (memmoveAsm m dst src n) ∧ Moves m dst src n (memmovePortable m dst src n) ∧
      (memmoveAsm m dst src n).byte = (memmovePortable m dst src n).byte := by
  have hasm := memmoveAsm_moves m hs hd
  have hportable := memmovePortable_moves m hs hd
  exact ⟨hasm, hportable, hasm.agree hportable⟩

/-- Each byte is the low half of its address. -/
def stairs : Memory :=
  ⟨BitVec.ofNat 8, []⟩

/-- Eight bytes to four bytes above, so backwards and by words. -/
theorem memmove_builds_agree_four :
    Moves stairs 0x1004 0x1000 8 (memmoveAsm stairs 0x1004 0x1000 8) ∧
      Moves stairs 0x1004 0x1000 8 (memmovePortable stairs 0x1004 0x1000 8) ∧
      (memmoveAsm stairs 0x1004 0x1000 8).byte = (memmovePortable stairs 0x1004 0x1000 8).byte :=
  memmove_builds_agree stairs 0x1004 0x1000 8 (by decide) (by decide)

end Jos
