import Jos.Boot
import Jos.EntrySwitch
import Jos.Memset

/-! The boot sector, the loader, the kernel's entry and the first call of `i386_init`,
one after another: what C code finds at the addresses it is linked at. -/

namespace Jos

def KSTKSIZE : Nat := 8 * PGSIZE

/-- Where the linker puts the parts of the kernel: `entry` at the physical address
`pa`, `entry_pgdir` at the physical address `pgdir`, and the others as C code has them. -/
structure KernelLink where
  pa : Nat
  pgdir : Word
  pgtable : Word
  relocated : Word
  bootstacktop : Word
  etext : Word
  edata : Word
  stop : Word

namespace KernelLink

def code (k : KernelLink) : List Insn :=
  entryCode k.pgdir k.relocated ++ relocatedCode k.bootstacktop

/-- Code, the two tables, the boot stack and the BSS in physical memory. -/
def parts (k : KernelLink) : List (Nat × Nat) :=
  [(k.pa, k.etext.toNat - KERNBASE), (k.pgdir.toNat, k.pgdir.toNat + PGSIZE),
    (k.pgtable.toNat - KERNBASE, k.pgtable.toNat - KERNBASE + PGSIZE),
    (k.bootstacktop.toNat - KERNBASE - KSTKSIZE, k.bootstacktop.toNat - KERNBASE),
    (k.edata.toNat - KERNBASE, k.stop.toNat - KERNBASE)]

/-- The bytes that do not stay as they are loaded: the stack, the BSS, and where walks
leave marks. -/
def InUse (k : KernelLink) (a : Nat) : Prop :=
  (k.bootstacktop.toNat ≤ KERNBASE + a + KSTKSIZE ∧ KERNBASE + a < k.bootstacktop.toNat) ∨
    (k.edata.toNat ≤ KERNBASE + a ∧ KERNBASE + a < k.stop.toNat) ∨ TableByte k.pgdir k.pgtable a

end KernelLink

/-- A segment brings the bytes of `f` to the `n` addresses from `base` on. -/
def KernelImage.Brings (img : KernelImage) (base n : Nat) (f : Nat → Byte) : Prop :=
  ∃ i < phnum img.byte, ∀ a, base ≤ a → a < base + n →
    (segment img.byte i).Holds a ∧ img.byte ((segment img.byte i).source a) = f a

/-- The image has the code of `kern/entry.S` and the tables of `kern/entrypgdir.c`. It
and its parts lie between the first megabyte and the end of what is mapped. -/
structure KernelImage.Linked (encode : Insn → List Byte) (img : KernelImage) (k : KernelLink) :
    Prop where
  entry : word32 img.byte 24 = BitVec.ofNat 32 k.pa
  label : k.relocated =
    BitVec.ofNat 32 (KERNBASE + (k.pa + (assemble encode (entryCode k.pgdir k.relocated)).length))
  code : img.Brings k.pa (assemble encode k.code).length fun a =>
    (assemble encode k.code).getD (a - k.pa) 0
  dir : img.Brings k.pgdir.toNat PGSIZE (wordBytes (entryPgdir k.pgtable) k.pgdir.toNat)
  table : img.Brings (k.pgtable.toNat - KERNBASE) PGSIZE
    (wordBytes entryPgtable (k.pgtable.toNat - KERNBASE))
  dir_aligned : PTE_ADDR k.pgdir = k.pgdir
  table_aligned : k.pgtable.toNat % PGSIZE = 0
  code_le : k.pa + (assemble encode k.code).length ≤ k.etext.toNat - KERNBASE
  inside : ∀ p ∈ k.parts, EXTPHYSMEM ≤ p.1 ∧ p.1 ≤ p.2 ∧ p.2 ≤ PTSIZE
  apart : k.parts.Pairwise fun p q => p.2 ≤ q.1 ∨ q.2 ≤ p.1
  segments : ∀ i < phnum img.byte, EXTPHYSMEM ≤ (segment img.byte i).pa.toNat ∧
    (segment img.byte i).stop ≤ PTSIZE

/-- C code finds in `m` what the data segment finds above the first megabyte. -/
def Pc.Finds (pc : Pc) (k : KernelLink) (m : Memory) : Prop :=
  ∀ off mapping, pc.translate .ds off = some mapping → EXTPHYSMEM ≤ mapping.pa.toNat →
    ¬ k.InUse mapping.pa.toNat → m.byte off.toNat = pc.mem.byte mapping.pa.toNat

/-- The segments are where they are linked, and variables without a value are zero. -/
structure KernelImage.Complete (img : KernelImage) (k : KernelLink) (m : Memory) : Prop where
  bss : ∀ a, k.edata.toNat ≤ a → a < k.stop.toNat → m.byte a = 0
  segments : ∀ i < phnum img.byte, ∀ a, (segment img.byte i).Holds a → ¬ k.InUse a →
    m.byte (KERNBASE + a) = img.byte ((segment img.byte i).source a)

section Chain

variable {img : KernelImage} {k : KernelLink} {encode : Insn → List Byte} {m : Memory}

/-- Every byte of every segment is in its place. -/
def KernelImage.InPlace (img : KernelImage) (m : Memory) : Prop :=
  ∀ i < phnum img.byte, ∀ a, (segment img.byte i).Holds a →
    m.byte a = img.byte ((segment img.byte i).source a)

theorem KernelImage.Brings.byte {base n : Nat} {f : Nat → Byte} (h : img.Brings base n f)
    (hm : img.InPlace m) {a : Nat} (hlow : base ≤ a) (hhigh : a < base + n) : m.byte a = f a := by
  obtain ⟨i, hi, hbytes⟩ := h
  obtain ⟨hholds, hbyte⟩ := hbytes a hlow hhigh
  rw [hm i hi a hholds, hbyte]

theorem KernelImage.Brings.load32 {f : Nat → Word} {base : Nat}
    (h : img.Brings base PGSIZE (wordBytes f base)) (hm : img.InPlace m) {i : Nat} (hi : i < 1024) :
    m.load32 (base + 4 * i) = f i := by
  have hpage : PGSIZE = 4096 := rfl
  exact load32_words fun j hj => h.byte hm (by omega) (by omega)

namespace KernelImage.Linked

variable (h : img.Linked encode k)

include h

theorem tables (hm : img.InPlace m) : KernelTables m k.pgdir k.pgtable := by
  have hpage : PGSIZE = 4096 := rfl
  have hext : EXTPHYSMEM = 0x100000 := rfl
  have hinside := h.inside
  simp only [KernelLink.parts, List.forall_mem_cons] at hinside
  obtain ⟨-, hdir, htable, -⟩ := hinside
  have hboot : BootTables m k.pgdir.toNat k.pgtable :=
    ⟨h.table_aligned, by omega, fun i hi => h.dir.load32 hm hi, fun i hi => h.table.load32 hm hi⟩
  exact hboot.kernelTables h.dir_aligned hdir.1 (by omega)

theorem held (hm : img.InPlace m) : Assembled encode m k.pa k.code := by
  refine List.ext_getElem (by simp) fun i h₁ h₂ => ?_
  rw [Memory.view_getElem, h.code.byte hm (Nat.le_add_right _ _) (by omega), Nat.add_sub_cancel_left]
  rw [List.getD_eq_getElem?_getD, List.getElem?_eq_getElem h₂, Option.getD_some]

end KernelImage.Linked

/-- `memset(edata, 0, end - edata)` -/
theorem KernelImage.Linked.complete {pc : Pc} (h : img.Linked encode k)
    (hpaged : Paged k.pgdir k.pgtable pc)
    (hbytes : ∀ i < phnum img.byte, ∀ a, (segment img.byte i).Holds a → ¬ TableByte k.pgdir k.pgtable a →
      pc.mem.byte a = img.byte ((segment img.byte i).source a))
    (hfinds : pc.Finds k m) : img.Complete k (memsetAsm m k.edata 0 (k.stop - k.edata)) := by
  have hsize : PTSIZE = 2 ^ 22 := by decide
  have hbase : KERNBASE = 960 * 2 ^ 22 := by decide
  have hext : EXTPHYSMEM = 0x100000 := rfl
  have hinside := h.inside
  simp only [KernelLink.parts, List.forall_mem_cons] at hinside
  obtain ⟨-, -, -, -, hbss, -⟩ := hinside
  have hstop := k.stop.isLt
  have hlen : (k.stop - k.edata).toNat = k.stop.toNat - k.edata.toNat :=
    BitVec.toNat_sub_of_le (BitVec.le_def.mpr (by omega))
  have hsets := memsetAsm_sets m 0 (by omega : k.edata.toNat + (k.stop - k.edata).toNat < 2 ^ 32)
  rw [hlen] at hsets
  constructor
  · intro a ha ha'
    have hset := hsets.set (a - k.edata.toNat) (by omega)
    rwa [Nat.add_sub_of_le ha] at hset
  · intro i hi a ha huse
    have hsegment := h.segments i hi
    have hlow : a < PTSIZE := ha.2.trans_le hsegment.2
    have hhigh : EXTPHYSMEM ≤ a := hsegment.1.trans ha.1
    have hoff : (BitVec.ofNat 32 (KERNBASE + a)).toNat = KERNBASE + a := Nat.mod_eq_of_lt (by omega)
    have hpa : (BitVec.ofNat 32 a).toNat = a := Nat.mod_eq_of_lt (by omega)
    have hfound := hfinds _ _ (hpaged.translate_kernel .ds hlow)
    rw [hoff, hpa] at hfound
    have houtside : ¬ (k.edata.toNat ≤ KERNBASE + a ∧ KERNBASE + a < k.stop.toNat) := fun hin =>
      huse (.inr (.inl hin))
    rw [hsets.within.frame _ (by omega), hfound hhigh huse, hbytes i hi a ha fun htable =>
      huse (.inr (.inr htable))]

end Chain

end Jos
