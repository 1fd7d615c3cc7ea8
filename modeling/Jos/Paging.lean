import Jos.Bits
import Jos.Memory

/-! The paging half of `inc/mmu.h`, and the two-level walk of the processor that it
describes. -/

namespace Jos

def PGSIZE : Nat := 4096
def NPDENTRIES : Nat := 1024
def NPTENTRIES : Nat := 1024
def PTSIZE : Nat := PGSIZE * NPTENTRIES
def PTXSHIFT : Nat := 12
def PDXSHIFT : Nat := 22

def PTE_P : Word := 0x001
def PTE_W : Word := 0x002
def PTE_A : Word := 0x020
def PTE_D : Word := 0x040

def PDX (la : Word) : Nat := (la >>> PDXSHIFT &&& 0x3FF).toNat

def PTX (la : Word) : Nat := (la >>> PTXSHIFT &&& 0x3FF).toNat

def PGOFF (la : Word) : Word := la &&& 0xFFF

def PTE_ADDR (pte : Word) : Word := pte &&& ~~~0xFFF

/-- What a linear address is translated to, and whether it may be written. -/
structure Mapping where
  pa : Word
  writable : Bool
  deriving DecidableEq

/-- The walk from the page directory at the physical address `pgdir`. -/
def walk (m : Memory) (pgdir : Nat) (la : Word) : Option Mapping :=
  let pde := m.load32 (pgdir + 4 * PDX la)
  if pde &&& PTE_P = 0 then none
  else
    let pte := m.load32 ((PTE_ADDR pde).toNat + 4 * PTX la)
    if pte &&& PTE_P = 0 then none
    else some ⟨PTE_ADDR pte ||| PGOFF la, pde &&& PTE_W ≠ 0 ∧ pte &&& PTE_W ≠ 0⟩

/-- An entry without the bits that the processor sets in it as it walks. -/
def unmarked (pte : Word) : Word := pte &&& ~~~(PTE_A ||| PTE_D)

/-- The low byte of an entry without them. -/
def unmarkedByte (b : Byte) : Byte := b &&& ~~~((PTE_A ||| PTE_D).setWidth 8)

theorem PDX_eq (la : Word) : PDX la = la.toNat / 2 ^ 22 := by
  have hlt := la.isLt
  have hlow := toNat_and_low (la >>> PDXSHIFT) (by decide : 10 ≤ 32)
  rw [BitVec.toNat_ushiftRight, Nat.shiftRight_eq_div_pow, PDXSHIFT] at hlow
  exact hlow.trans (Nat.mod_eq_of_lt (by omega))

theorem PTX_eq (la : Word) : PTX la = la.toNat / 2 ^ 12 % 2 ^ 10 := by
  have hlow := toNat_and_low (la >>> PTXSHIFT) (by decide : 10 ≤ 32)
  rwa [BitVec.toNat_ushiftRight, Nat.shiftRight_eq_div_pow, PTXSHIFT] at hlow

theorem toNat_PGOFF (la : Word) : (PGOFF la).toNat = la.toNat % 2 ^ 12 :=
  toNat_and_low la (by decide : 12 ≤ 32)

theorem toNat_PTE_ADDR (pte : Word) : (PTE_ADDR pte).toNat = pte.toNat / 2 ^ 12 * 2 ^ 12 :=
  toNat_and_not_low pte 12

/-- The entry is present, and leads to the frame. -/
structure Entry (pte : Word) (frame : Nat) (writable : Bool) : Prop where
  aligned : frame % PGSIZE = 0
  value : pte.toNat = frame + 1 + 2 * writable.toNat

section Entries

variable {pte : Word} {frame : Nat} {writable : Bool}

theorem Entry.present (h : Entry pte frame writable) : pte &&& PTE_P ≠ 0 := by
  have haligned : frame % 4096 = 0 := h.aligned
  have hvalue := h.value
  refine (flag_iff (by decide : 0 < 32)).mpr ?_
  omega

theorem Entry.writable_iff (h : Entry pte frame writable) : pte &&& PTE_W ≠ 0 ↔ writable = true := by
  have haligned : frame % 4096 = 0 := h.aligned
  have hvalue := h.value
  refine (flag_iff (by decide : 1 < 32)).trans ?_
  cases writable with
  | false =>
    simp only [Bool.toNat_false] at hvalue
    refine iff_of_false ?_ Bool.false_ne_true
    omega
  | true =>
    simp only [Bool.toNat_true] at hvalue
    refine iff_of_true ?_ rfl
    omega

theorem Entry.addr (h : Entry pte frame writable) : (PTE_ADDR pte).toNat = frame := by
  have haligned : frame % 4096 = 0 := h.aligned
  have hvalue := h.value
  have hle := writable.toNat_le
  rw [toNat_PTE_ADDR]
  omega

/-- An entry as it is written has no marks. -/
theorem Entry.unmarked_eq (h : Entry pte frame writable) : unmarked pte = pte := by
  have haligned : frame % 4096 = 0 := h.aligned
  have hvalue := h.value
  have hle := writable.toNat_le
  have hclear : ∀ i, (i = 5 ∨ i = 6) → pte &&& BitVec.twoPow 32 i = 0 := by
    intro i hi
    by_contra hne
    have hset := (flag_iff (by omega)).mp hne
    rcases hi with rfl | rfl <;> omega
  have hmask : PTE_A ||| PTE_D = BitVec.twoPow 32 5 ||| BitVec.twoPow 32 6 := by decide
  refine and_not_of_and_eq_zero ?_
  rw [hmask, BitVec.and_or_distrib_left, hclear 5 (.inl rfl), hclear 6 (.inr rfl), BitVec.or_self]

theorem unmarked_and (pte : Word) {mask : Word} (h : ~~~(PTE_A ||| PTE_D) &&& mask = mask) :
    unmarked pte &&& mask = pte &&& mask := by
  rw [unmarked, BitVec.and_assoc, h]

/-- What a walk makes of an entry, whatever its accessed and dirty bits are. -/
structure Leads (pte : Word) (frame : Nat) (writable : Bool) : Prop where
  aligned : frame % PGSIZE = 0
  present : pte &&& PTE_P ≠ 0
  writable_iff : pte &&& PTE_W ≠ 0 ↔ writable = true
  addr : (PTE_ADDR pte).toNat = frame

theorem Entry.leads (h : Entry pte frame writable) : Leads pte frame writable :=
  ⟨h.aligned, h.present, h.writable_iff, h.addr⟩

theorem Entry.leads_marked (h : Entry (unmarked pte) frame writable) : Leads pte frame writable := by
  have haddr : PTE_ADDR (unmarked pte) = PTE_ADDR pte := unmarked_and pte (by decide)
  exact ⟨h.aligned, unmarked_and pte (by decide : _ &&& PTE_P = _) ▸ h.present,
    unmarked_and pte (by decide : _ &&& PTE_W = _) ▸ h.writable_iff, haddr ▸ h.addr⟩

end Entries

theorem walk_mapped {m : Memory} {pgdir table frame : Nat} {la : Word} {dirWritable writable : Bool}
    (hdir : Leads (m.load32 (pgdir + 4 * PDX la)) table dirWritable)
    (htable : Leads (m.load32 (table + 4 * PTX la)) frame writable) {pa : Word}
    (hpa : pa.toNat = frame + la.toNat % 2 ^ 12) :
    walk m pgdir la = some ⟨pa, dirWritable && writable⟩ := by
  have haligned : frame % 4096 = 0 := htable.aligned
  have hframe : 2 ^ 12 * (frame / 2 ^ 12) = frame := by omega
  have hoff : la.toNat % 2 ^ 12 < 2 ^ 12 := Nat.mod_lt _ (Nat.two_pow_pos 12)
  have haddr : PTE_ADDR (m.load32 (table + 4 * PTX la)) ||| PGOFF la = pa := by
    apply BitVec.eq_of_toNat_eq
    rw [BitVec.toNat_or, htable.addr, toNat_PGOFF, hpa, ← hframe, Nat.two_pow_add_eq_or_of_lt hoff]
  simp only [walk]
  rw [if_neg hdir.present, hdir.addr, if_neg htable.present, haddr]
  simp only [hdir.writable_iff, htable.writable_iff, Bool.decide_and, Bool.decide_eq_true]

/-- Only the low byte of a little-endian word holds marks. -/
theorem unmarked_load32 {m m' : Memory} {a : Nat}
    (hlow : unmarkedByte (m'.byte a) = unmarkedByte (m.byte a))
    (hhigh : ∀ k < 3, m'.byte (a + k + 1) = m.byte (a + k + 1)) :
    unmarked (m'.load32 a) = unmarked (m.load32 a) := by
  have hmask : ~~~(PTE_A ||| PTE_D) =
      BitVec.allOnes (8 + 8 + 8) ++ ~~~((PTE_A ||| PTE_D).setWidth 8 : Byte) := by decide
  have hsplit (m : Memory) : unmarked (m.load32 a) =
      (m.byte (a + 3) ++ m.byte (a + 2) ++ m.byte (a + 1)) ++ unmarkedByte (m.byte a) := by
    rw [unmarked, hmask, Memory.load32]
    exact BitVec.and_append.trans (by rw [BitVec.and_allOnes, unmarkedByte])
  rw [hsplit, hsplit, hlow, hhigh 2 (by decide), hhigh 1 (by decide), hhigh 0 (by decide)]

theorem walk_unmapped {m : Memory} {pgdir : Nat} {la : Word} (h : m.load32 (pgdir + 4 * PDX la) = 0) :
    walk m pgdir la = none := by
  rw [walk, h]
  exact if_pos BitVec.zero_and

end Jos
