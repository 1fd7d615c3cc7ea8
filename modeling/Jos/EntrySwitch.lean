import Jos.BootSwitch
import Jos.EntryPgdir

/-! `kern/entry.S`: paging is turned on at low addresses, and the kernel goes on at
the high ones that it is linked at. -/

namespace Jos

def EXTPHYSMEM : Nat := 0x100000

/-- `pgdir` is `RELOC(entry_pgdir)`. -/
def turnOnPaging (pgdir : Word) : List Insn :=
  [.movw 0x1234 0x472, .movEax pgdir, .movCr3Eax, .movEaxCr0, .orEax (CR0_PE ||| CR0_PG ||| CR0_WP),
    .movCr0Eax]

/-- `entry`, up to `relocated`. -/
def entryCode (pgdir relocated : Word) : List Insn :=
  turnOnPaging pgdir ++ [.movEax relocated, .jmpEax]

/-- `relocated`, up to the call of `i386_init`. -/
def relocatedCode (bootstacktop : Word) : List Insn :=
  [.movEbp 0x0, .movEsp bootstacktop]

/-- The tables as the kernel is linked and loaded: above the first megabyte, and each
at a page of its own. Walks may have marked them. -/
structure KernelTables (m : Memory) (pgdir pgtable : Word) : Prop where
  dir_aligned : PTE_ADDR pgdir = pgdir
  dir_high : EXTPHYSMEM ≤ pgdir.toNat
  table_aligned : pgtable.toNat % PGSIZE = 0
  table_high : KERNBASE + EXTPHYSMEM ≤ pgtable.toNat
  table_low : pgtable.toNat < KERNBASE + PTSIZE
  dir : ∀ i < NPDENTRIES, unmarked (m.load32 (pgdir.toNat + 4 * i)) = entryPgdir pgtable i
  table : ∀ i < NPTENTRIES, unmarked (m.load32 (pgtable.toNat - KERNBASE + 4 * i)) = entryPgtable i

/-- The low bytes of the entries. -/
def TableByte (pgdir pgtable : Word) (a : Nat) : Prop :=
  ∃ i < NPDENTRIES, a = pgdir.toNat + 4 * i ∨ a = pgtable.toNat - KERNBASE + 4 * i

/-- `m'` is `m` but for the accessed and dirty bits of the two tables. -/
structure MarkedOnly (pgdir pgtable : Word) (m m' : Memory) : Prop where
  stores : m'.stores = m.stores
  byte : ∀ a, m'.byte a = m.byte a ∨
    TableByte pgdir pgtable a ∧ unmarkedByte (m'.byte a) = unmarkedByte (m.byte a)

section Tables

variable {m m' m'' : Memory} {pgdir pgtable : Word}

theorem MarkedOnly.refl (m : Memory) : MarkedOnly pgdir pgtable m m :=
  ⟨rfl, fun _ => .inl rfl⟩

theorem MarkedOnly.trans (h : MarkedOnly pgdir pgtable m m') (h' : MarkedOnly pgdir pgtable m' m'') :
    MarkedOnly pgdir pgtable m m'' := by
  refine ⟨h'.stores.trans h.stores, fun a => ?_⟩
  rcases h'.byte a with hsame' | ⟨htable, hmark'⟩
  · exact hsame' ▸ h.byte a
  · rcases h.byte a with hsame | ⟨-, hmark⟩
    · exact .inr ⟨htable, hsame ▸ hmark'⟩
    · exact .inr ⟨htable, hmark'.trans hmark⟩

theorem MarkedOnly.byte_eq (h : MarkedOnly pgdir pgtable m m') {a : Nat}
    (ha : ¬ TableByte pgdir pgtable a) :
    m'.byte a = m.byte a :=
  (h.byte a).resolve_right fun hmark => ha hmark.1

/-- Tables that no walk has marked. -/
theorem BootTables.kernelTables (h : BootTables m pgdir.toNat pgtable) (hdir : PTE_ADDR pgdir = pgdir)
    (hdir_high : EXTPHYSMEM ≤ pgdir.toNat) (htable_high : KERNBASE + EXTPHYSMEM ≤ pgtable.toNat) :
    KernelTables m pgdir pgtable := by
  refine ⟨hdir, hdir_high, h.aligned, htable_high, h.linked.2, fun i hi => ?_, fun i hi => ?_⟩
  · rw [h.dir i hi]
    by_cases hlow : i = 0
    · rw [hlow]
      exact (entryPgdir_low h.aligned h.linked).unmarked_eq
    · by_cases hhigh : i = 960
      · rw [hhigh]
        exact (entryPgdir_high h.aligned h.linked).unmarked_eq
      · rw [entryPgdir_none pgtable hlow hhigh]
        exact BitVec.zero_and
  · rw [h.table i hi]
    exact (entryPgtable_entry hi).unmarked_eq

namespace KernelTables

theorem linked (h : KernelTables m pgdir pgtable) :
    KERNBASE ≤ pgtable.toNat ∧ pgtable.toNat < KERNBASE + PTSIZE :=
  ⟨(Nat.le_add_right _ _).trans h.table_high, h.table_low⟩

theorem aligned (h : KernelTables m pgdir pgtable) :
    pgdir.toNat % 4096 = 0 ∧ (pgtable.toNat - KERNBASE) % 4096 = 0 := by
  have hbase : KERNBASE = 960 * 2 ^ 22 := by decide
  have htable : pgtable.toNat % 4096 = 0 := h.table_aligned
  have hhigh := h.linked.1
  have hdir := toNat_PTE_ADDR pgdir
  rw [h.dir_aligned] at hdir
  omega

theorem tableByte_high (h : KernelTables m pgdir pgtable) {a : Nat} (ha : TableByte pgdir pgtable a) :
    EXTPHYSMEM ≤ a := by
  obtain ⟨i, -, rfl | rfl⟩ := ha
  · exact h.dir_high.trans (Nat.le_add_right _ _)
  · have hhigh := h.table_high
    omega

/-- Entries are words, and only the first byte of one is marked. -/
theorem tableByte_mod (h : KernelTables m pgdir pgtable) {a : Nat} (ha : TableByte pgdir pgtable a) :
    a % 4 = 0 := by
  have haligned := h.aligned
  obtain ⟨i, -, rfl | rfl⟩ := ha <;> omega

theorem entry_congr (h : KernelTables m pgdir pgtable) {a : Nat} (ha : a % 4 = 0)
    (hsame : ∀ k < 3, ¬ TableByte pgdir pgtable (a + k + 1) → m'.byte (a + k + 1) = m.byte (a + k + 1))
    (hlow : unmarkedByte (m'.byte a) = unmarkedByte (m.byte a)) :
    unmarked (m'.load32 a) = unmarked (m.load32 a) := by
  refine unmarked_load32 hlow fun k hk => hsame k hk fun hbyte => ?_
  have hmod := h.tableByte_mod hbyte
  omega

/-- The tables only depend on what walks leave of their bytes. -/
theorem congr (h : KernelTables m pgdir pgtable)
    (hhigh : ∀ a, EXTPHYSMEM ≤ a → ¬ TableByte pgdir pgtable a → m'.byte a = m.byte a)
    (hlow : ∀ a, TableByte pgdir pgtable a → unmarkedByte (m'.byte a) = unmarkedByte (m.byte a)) :
    KernelTables m' pgdir pgtable := by
  obtain ⟨hdir, htable⟩ := h.aligned
  have hdir_high := h.dir_high
  have htable_high := h.table_high
  refine { h with dir := fun i hi => ?_, table := fun i hi => ?_ }
  · have hbyte : TableByte pgdir pgtable (pgdir.toNat + 4 * i) := ⟨i, hi, .inl rfl⟩
    rw [← h.dir i hi]
    exact h.entry_congr (by omega) (fun k _ => hhigh _ (by omega)) (hlow _ hbyte)
  · have hbyte : TableByte pgdir pgtable (pgtable.toNat - KERNBASE + 4 * i) := ⟨i, hi, .inr rfl⟩
    rw [← h.table i hi]
    exact h.entry_congr (by omega) (fun k _ => hhigh _ (by omega)) (hlow _ hbyte)

theorem of_within (h : KernelTables m pgdir pgtable) (hw : Memory.Within 0x472 0x474 m m') :
    KernelTables m' pgdir pgtable := by
  have hext : EXTPHYSMEM = 0x100000 := rfl
  refine h.congr (fun a ha _ => hw.frame a (by omega)) fun a ha => ?_
  have hhigh := h.tableByte_high ha
  rw [hw.frame a (by omega)]

theorem of_marked (h : KernelTables m pgdir pgtable) (hm : MarkedOnly pgdir pgtable m m') :
    KernelTables m' pgdir pgtable := by
  refine h.congr (fun a _ ha => hm.byte_eq ha) fun a _ => ?_
  rcases hm.byte a with hsame | ⟨-, hmark⟩
  · rw [hsame]
  · exact hmark

theorem leads_table (h : KernelTables m pgdir pgtable) :
    ∀ i < NPTENTRIES, Leads (m.load32 (pgtable.toNat - KERNBASE + 4 * i)) (4096 * i) true := fun i hi =>
  Entry.leads_marked (h.table i hi ▸ entryPgtable_entry hi)

theorem leads_low (h : KernelTables m pgdir pgtable) :
    Leads (m.load32 (pgdir.toNat + 4 * 0)) (pgtable.toNat - KERNBASE) false :=
  Entry.leads_marked (h.dir 0 (by decide) ▸ entryPgdir_low h.table_aligned h.linked)

theorem leads_high (h : KernelTables m pgdir pgtable) :
    Leads (m.load32 (pgdir.toNat + 4 * 960)) (pgtable.toNat - KERNBASE) true :=
  Entry.leads_marked (h.dir 960 (by decide) ▸ entryPgdir_high h.table_aligned h.linked)

/-- Two entries of the directory are present, and both lead to the page table. -/
theorem present_leads (h : KernelTables m pgdir pgtable) {i : Nat} (hi : i < NPDENTRIES)
    (hpresent : m.load32 (pgdir.toNat + 4 * i) &&& PTE_P ≠ 0) :
    (PTE_ADDR (m.load32 (pgdir.toNat + 4 * i))).toNat = pgtable.toNat - KERNBASE := by
  by_cases hlow : i = 0
  · rw [hlow]
    exact h.leads_low.addr
  · by_cases hhigh : i = 960
    · rw [hhigh]
      exact h.leads_high.addr
    · refine absurd ?_ hpresent
      rw [← unmarked_and _ (by decide : _ &&& PTE_P = _), h.dir i hi, entryPgdir_none pgtable hlow hhigh]
      exact BitVec.zero_and

theorem walk_low (h : KernelTables m pgdir pgtable) {la : Word} (hla : la.toNat < PTSIZE) :
    walk m pgdir.toNat la = some ⟨la, false⟩ := by
  have hsize : PTSIZE = 2 ^ 22 := by decide
  have hpdx : PDX la = 0 := by
    rw [PDX_eq]
    omega
  exact walk_entry (hpdx ▸ h.leads_low) h.leads_table (Nat.mod_eq_of_lt (hsize ▸ hla)).symm

theorem walk_high (h : KernelTables m pgdir pgtable) {la : Word} (hlow : KERNBASE ≤ la.toNat)
    (hhigh : la.toNat < KERNBASE + PTSIZE) :
    walk m pgdir.toNat la = some ⟨la - BitVec.ofNat 32 KERNBASE, true⟩ := by
  have hsize : PTSIZE = 2 ^ 22 := by decide
  have hbase : KERNBASE = 960 * 2 ^ 22 := by decide
  have hpdx : PDX la = 960 := by
    rw [PDX_eq]
    omega
  have hsub : (la - BitVec.ofNat 32 KERNBASE).toNat = la.toNat - KERNBASE := toNat_sub_ofNat_of_le hlow
  exact walk_entry (hpdx ▸ h.leads_high) h.leads_table (by omega)

end KernelTables

end Tables

/-- Paging through `entry_pgdir`. -/
structure Paged (pgdir pgtable : Word) (pc : Pc) : Prop extends FlatSegments pc where
  tables : KernelTables pc.mem pgdir pgtable
  cr3 : pc.cpu.cr3 = pgdir
  paging : pc.cpu.cr0 &&& CR0_PG ≠ 0
  protect : pc.cpu.cr0 &&& CR0_WP ≠ 0

namespace Paged

variable {pgdir pgtable : Word} {pc pc' : Pc} (h : Paged pgdir pgtable pc)

include h

theorem translate_low (r : SegReg) {off : Word} (hoff : off.toNat < PTSIZE) :
    pc.translate r off = some ⟨off, false⟩ := by
  have hprotect : ¬ ((false = true ∨ pc.cpu.cr0 &&& CR0_WP = 0) ∧ r ≠ .cs) := fun hw =>
    hw.1.elim Bool.false_ne_true h.protect
  rw [h.translate, if_neg h.paging, h.cr3, h.tables.dir_aligned, h.tables.walk_low hoff, Option.map_some]
  exact congrArg (fun w => some (Mapping.mk off w)) (decide_eq_false hprotect)

theorem translate_high (r : SegReg) {off : Word} (hlow : KERNBASE ≤ off.toNat)
    (hhigh : off.toNat < KERNBASE + PTSIZE) :
    pc.translate r off = some ⟨off - BitVec.ofNat 32 KERNBASE, r ≠ .cs⟩ := by
  rw [h.translate, if_neg h.paging, h.cr3, h.tables.dir_aligned, h.tables.walk_high hlow hhigh]
  simp

/-- The kernel is linked so that physical memory stands above `KERNBASE`. -/
theorem translate_kernel (r : SegReg) {a : Nat} (ha : a < PTSIZE) :
    pc.translate r (BitVec.ofNat 32 (KERNBASE + a)) = some ⟨BitVec.ofNat 32 a, r ≠ .cs⟩ := by
  have hsize : PTSIZE = 2 ^ 22 := by decide
  have hbase : KERNBASE = 960 * 2 ^ 22 := by decide
  have hoff : (BitVec.ofNat 32 (KERNBASE + a)).toNat = KERNBASE + a := Nat.mod_eq_of_lt (by omega)
  have hsub : BitVec.ofNat 32 (KERNBASE + a) - BitVec.ofNat 32 KERNBASE = BitVec.ofNat 32 a := by
    rw [BitVec.ofNat_add, BitVec.add_comm, BitVec.add_sub_cancel]
  rw [h.translate_high r (by omega) (by omega), hsub]

theorem tableByte {a : Nat} (ha : pc.EntryAt a) : TableByte pgdir pgtable a := by
  have hdir : (PTE_ADDR pc.cpu.cr3).toNat = pgdir.toNat := by rw [h.cr3, h.tables.dir_aligned]
  obtain ⟨i, hi, ha | ⟨hpresent, j, hj, ha⟩⟩ := ha
  · exact ⟨i, hi, .inl (hdir ▸ ha)⟩
  · rw [hdir] at hpresent ha
    exact ⟨j, hj, .inr (h.tables.present_leads hi hpresent ▸ ha)⟩

theorem markedOnly (hm : pc.Marked pc') : MarkedOnly pgdir pgtable pc.mem pc'.mem :=
  ⟨hm.stores, fun a => (hm.byte a).imp_right fun hmark => ⟨h.tableByte hmark.2.1, hmark.2.2⟩⟩

theorem marked (hm : pc.Marked pc') : Paged pgdir pgtable pc' where
  code := hm.cpu ▸ h.code
  data := hm.cpu ▸ h.data
  a20 := hm.cpu ▸ h.a20
  tables := h.tables.of_marked (h.markedOnly hm)
  cr3 := hm.cpu ▸ h.cr3
  paging := hm.cpu ▸ h.paging
  protect := hm.cpu ▸ h.protect

end Paged

/-- `kern/entry.S` as it is loaded at `pa`. Its code is not where the word for the BIOS
goes, nor where walks leave marks. -/
structure EntryLoaded (encode : Insn → List Byte) (m : Memory) (pa : Nat)
    (pgdir pgtable relocated bootstacktop : Word) : Prop where
  tables : KernelTables m pgdir pgtable
  label : relocated =
    BitVec.ofNat 32 (KERNBASE + (pa + (assemble encode (entryCode pgdir relocated)).length))
  code : Assembled encode m pa (entryCode pgdir relocated ++ relocatedCode bootstacktop)
  fits : pa + (assemble encode (entryCode pgdir relocated ++ relocatedCode bootstacktop)).length ≤ PTSIZE
  apart_word :
    pa + (assemble encode (entryCode pgdir relocated ++ relocatedCode bootstacktop)).length ≤ 0x472 ∨
      0x474 ≤ pa
  apart_tables : ∀ a, TableByte pgdir pgtable a →
    a < pa ∨ pa + (assemble encode (entryCode pgdir relocated ++ relocatedCode bootstacktop)).length ≤ a

/-- The processor is at `base + pa` and the code is there, in the one map or the other. -/
structure Fetched (encode : Insn → List Byte) (pgdir pgtable : Word) (m : Memory) (base pa : Nat)
    (insns : List Insn) (pc : Pc) : Prop extends Paged pgdir pgtable pc where
  eip : pc.cpu.eip = BitVec.ofNat 32 (base + pa)
  map : base = 0 ∨ base = KERNBASE
  fits : pa + (assemble encode insns).length ≤ PTSIZE
  held : Assembled encode pc.mem pa insns
  apart : ∀ a, TableByte pgdir pgtable a → a < pa ∨ pa + (assemble encode insns).length ≤ a
  mem : MarkedOnly pgdir pgtable m pc.mem

section Entry

variable {encode : Insn → List Byte} {m : Memory} {base pa : Nat}
  {pgdir pgtable relocated bootstacktop : Word} {pc : Pc} {code : List Insn} {Q : Pc → Prop}

/-- The walk for the next fetch is over, and the code is as it was. -/
theorem Paged.fetched {pc' : Pc} (h : Paged pgdir pgtable pc) (hmarked : pc.Marked pc')
    (hmap : base = 0 ∨ base = KERNBASE) (heip : pc.cpu.eip = BitVec.ofNat 32 (base + pa))
    (hfits : pa + (assemble encode code).length ≤ PTSIZE) (hheld : Assembled encode pc.mem pa code)
    (hapart : ∀ a, TableByte pgdir pgtable a → a < pa ∨ pa + (assemble encode code).length ≤ a) :
    Fetched encode pgdir pgtable pc.mem base pa code pc' := by
  have hmark := h.markedOnly hmarked
  refine ⟨h.marked hmarked, hmarked.cpu ▸ heip, hmap, hfits, ?_, hapart, hmark⟩
  refine hheld.congr fun a hlow hhigh => hmark.byte_eq fun ha => ?_
  have := hapart a ha
  omega

namespace Fetched

variable {i : Insn}

theorem fetches (h : Fetched encode pgdir pgtable m base pa (i :: code) pc) : pc.Fetches encode i := by
  intro k hk
  have hfits := h.fits
  have hsize : PTSIZE = 2 ^ 22 := by decide
  rw [end_cons] at hfits
  have hpa : (BitVec.ofNat 32 (pa + k)).toNat = pa + k := Nat.mod_eq_of_lt (by omega)
  have heip : pc.cpu.eip + BitVec.ofNat 32 k = BitVec.ofNat 32 (base + (pa + k)) := by
    rw [h.eip, ← BitVec.ofNat_add, Nat.add_assoc]
  have htranslate : (pc.translate .cs (BitVec.ofNat 32 (base + (pa + k)))).map Mapping.pa =
      some (BitVec.ofNat 32 (pa + k)) := by
    rcases h.map with rfl | rfl
    · rw [Nat.zero_add, h.translate_low .cs (by omega), Option.map_some]
    · rw [h.translate_kernel .cs (by omega), Option.map_some]
  obtain ⟨mapping, hmapping, hat⟩ := Option.map_eq_some_iff.mp htranslate
  rw [Pc.byteAt, heip, hmapping, Option.map_some, hat, hpa, h.held.byte hk]

/-- One instruction, which leaves memory alone. -/
theorem step (h : Fetched encode pgdir pgtable m base pa (i :: code) pc) {cpu : Cpu}
    (hexec : exec i (pc.next (encode i).length) = some ⟨pc.mem, cpu⟩)
    (h' : Paged pgdir pgtable ⟨pc.mem, cpu⟩) {base' : Nat} (hmap : base' = 0 ∨ base' = KERNBASE)
    (heip : cpu.eip = BitVec.ofNat 32 (base' + (pa + (encode i).length)))
    (hrest : ∀ pc'', Fetched encode pgdir pgtable m base' (pa + (encode i).length) code pc'' →
      pc''.cpu = cpu → RunsTo encode code Q pc'') : RunsTo encode (i :: code) Q pc := by
  have hfits := h.fits
  have hapart := h.apart
  simp only [end_cons] at hfits hapart
  refine .cons h.fetches hexec fun pc'' hmarked => hrest pc'' ?_ hmarked.cpu
  have hnext := h'.fetched hmarked hmap heip hfits h.held.tail fun a ha => by
    have := hapart a ha
    omega
  exact { hnext with mem := h.mem.trans hnext.mem }

end Fetched

/-- The jump, and then the kernel's stack. -/
theorem relocated_runs
    (h : Fetched encode pgdir pgtable m 0 pa
      (.movEax relocated :: .jmpEax :: relocatedCode bootstacktop) pc)
    (hlabel : relocated = BitVec.ofNat 32
      (KERNBASE + (pa + (encode (.movEax relocated)).length + (encode .jmpEax).length)))
    (hQ : ∀ pc', Paged pgdir pgtable pc' → MarkedOnly pgdir pgtable m pc'.mem →
      pc'.cpu.eip = BitVec.ofNat 32 (KERNBASE +
        (pa + (assemble encode (.movEax relocated :: .jmpEax :: relocatedCode bootstacktop)).length)) →
      pc'.cpu.ebp = 0 → pc'.cpu.esp = bootstacktop → Q pc') :
    RunsTo encode (.movEax relocated :: .jmpEax :: relocatedCode bootstacktop) Q pc := by
  simp only [relocatedCode, end_cons, end_nil] at hQ
  have hnext {eip : Word} {base pa : Nat} (heip : eip = BitVec.ofNat 32 (base + pa)) (n : Nat) :
      eip + BitVec.ofNat 32 n = BitVec.ofNat 32 (base + (pa + n)) := by
    rw [heip, ← BitVec.ofNat_add, Nat.add_assoc]
  refine h.step rfl { h with } (.inl rfl) (hnext h.eip _) fun pc₁ h₁ hcpu₁ => ?_
  have heax : pc₁.cpu.eax = relocated := by rw [hcpu₁]
  refine h₁.step rfl { h₁ with } (.inr rfl) (heax.trans hlabel) fun pc₂ h₂ hcpu₂ => ?_
  refine h₂.step rfl { h₂ with } (.inr rfl) (hnext h₂.eip _) fun pc₃ h₃ hcpu₃ => ?_
  have hebp : pc₃.cpu.ebp = 0 := by rw [hcpu₃]
  refine h₃.step rfl { h₃ with } (.inr rfl) (hnext h₃.eip _) fun pc₄ h₄ hcpu₄ => ?_
  refine hQ pc₄ h₄.toPaged h₄.mem h₄.eip ?_ (by rw [hcpu₄])
  rw [hcpu₄]
  exact hebp

theorem or_pg (cr0 : Word) : (cr0 ||| (CR0_PE ||| CR0_PG ||| CR0_WP)) &&& CR0_PG ≠ 0 ∧
    (cr0 ||| (CR0_PE ||| CR0_PG ||| CR0_WP)) &&& CR0_WP ≠ 0 := by
  have hpg : CR0_PG = BitVec.twoPow 32 31 := by decide
  have hwp : CR0_WP = BitVec.twoPow 32 16 := by decide
  constructor
  · rw [hpg, and_twoPow_ne_zero (by decide)]
    simp
  · rw [hwp, and_twoPow_ne_zero (by decide)]
    simp

theorem warmBoot_exec (hflat : FlatSegments pc) (hpaging : pc.cpu.cr0 &&& CR0_PG = 0) :
    exec (.movw 0x1234 0x472) pc = some { pc with mem := pc.mem.store16 0x472 0x1234 } := by
  rw [exec_movw, hflat.translate_unpaged hpaging]
  rfl

/-- The instruction that turns paging on is the last one without it. -/
theorem movCr0_runs (hflat : FlatSegments pc) (htables : KernelTables pc.mem pgdir pgtable)
    (hcr3 : pc.cpu.cr3 = pgdir) (heax : pc.cpu.eax = pc.cpu.cr0 ||| (CR0_PE ||| CR0_PG ||| CR0_WP))
    (h : Flat encode PTSIZE pa (.movCr0Eax :: code) pc)
    (hapart : ∀ a, TableByte pgdir pgtable a →
      a < pa ∨ pa + (assemble encode (.movCr0Eax :: code)).length ≤ a)
    (hrest : ∀ pc', Fetched encode pgdir pgtable pc.mem 0 (pa + (encode .movCr0Eax).length) code pc' →
      RunsTo encode code Q pc') :
    RunsTo encode (.movCr0Eax :: code) Q pc := by
  obtain ⟨hpg, hwp⟩ := or_pg pc.cpu.cr0
  rw [← heax] at hpg hwp
  have hfits := h.fits
  simp only [end_cons] at hfits hapart
  have hpaged : Paged pgdir pgtable
      ⟨pc.mem, { (pc.next (encode .movCr0Eax).length).cpu with cr0 := pc.cpu.eax }⟩ :=
    ⟨{ hflat with }, htables, hcr3, hpg, hwp⟩
  refine .cons h.fetches rfl fun pc' hmarked => hrest pc' ?_
  refine hpaged.fetched hmarked (.inl rfl) ?_ hfits h.held.tail fun a ha => ?_
  · rw [Nat.zero_add]
    exact h.next_eip
  · have := hapart a ha
    omega

theorem turnOnPaging_runs (hflat : FlatSegments pc) (htables : KernelTables pc.mem pgdir pgtable)
    (h : Flat encode PTSIZE pa (turnOnPaging pgdir ++ code) pc)
    (hword : pa + (assemble encode (turnOnPaging pgdir ++ code)).length ≤ 0x472 ∨ 0x474 ≤ pa)
    (hapart : ∀ a, TableByte pgdir pgtable a →
      a < pa ∨ pa + (assemble encode (turnOnPaging pgdir ++ code)).length ≤ a)
    (hrest : ∀ pc', Fetched encode pgdir pgtable (pc.mem.store16 0x472 0x1234) 0
        (pa + (assemble encode (turnOnPaging pgdir)).length) code pc' → RunsTo encode code Q pc') :
    RunsTo encode (turnOnPaging pgdir ++ code) Q pc := by
  have hwithin : Memory.Within 0x472 0x474 pc.mem (pc.mem.store16 0x472 0x1234) :=
    Memory.within_store16 pc.mem _ (by decide) (by decide)
  simp only [turnOnPaging, end_cons, end_nil] at hrest
  simp only [turnOnPaging, List.cons_append, List.nil_append, end_cons] at hword hapart
  refine h.cons (warmBoot_exec { hflat with } h.paging) h.paging ?_
  have h₁ : Flat encode PTSIZE (pa + (encode (.movw 0x1234 0x472)).length)
      (.movEax pgdir :: .movCr3Eax :: .movEaxCr0 :: .orEax (CR0_PE ||| CR0_PG ||| CR0_WP) ::
        .movCr0Eax :: code)
      ⟨pc.mem.store16 0x472 0x1234, (pc.next (encode (.movw 0x1234 0x472)).length).cpu⟩ := by
    have hheld : Assembled encode pc.mem (pa + (encode (.movw 0x1234 0x472)).length)
        (.movEax pgdir :: .movCr3Eax :: .movEaxCr0 :: .orEax (CR0_PE ||| CR0_PG ||| CR0_WP) ::
          .movCr0Eax :: code) := h.held.tail
    refine h.rest rfl rfl h.paging h.line fun _ => hheld.congr fun a hlow hhigh => hwithin.frame a ?_
    simp only [end_cons] at hhigh
    omega
  refine h₁.act rfl rfl h.line fun h₂ => ?_
  refine h₂.cons rfl h.paging ?_
  refine Flat.act (h₂.rest rfl rfl h.paging h.line id) rfl rfl h.line fun h₃ => ?_
  refine h₃.act rfl rfl h.line fun h₄ => ?_
  refine movCr0_runs { hflat with } (htables.of_within hwithin) rfl rfl h₄ (fun a ha => ?_) hrest
  have := hapart a ha
  rw [end_cons]
  omega

/-- From the boot loader to the call of `i386_init`. -/
theorem entry_runs (hflat : FlatSegments pc) (hpaging : pc.cpu.cr0 &&& CR0_PG = 0)
    (heip : pc.cpu.eip = BitVec.ofNat 32 pa)
    (hloaded : EntryLoaded encode pc.mem pa pgdir pgtable relocated bootstacktop)
    (hQ : ∀ pc', Paged pgdir pgtable pc' →
      MarkedOnly pgdir pgtable (pc.mem.store16 0x472 0x1234) pc'.mem →
      pc'.cpu.eip = BitVec.ofNat 32 (KERNBASE +
        (pa + (assemble encode (entryCode pgdir relocated ++ relocatedCode bootstacktop)).length)) →
      pc'.cpu.ebp = 0 → pc'.cpu.esp = bootstacktop → Q pc') :
    RunsTo encode (entryCode pgdir relocated ++ relocatedCode bootstacktop) Q pc := by
  obtain ⟨htables, hlabel, hheld, hfits, hword, hapart⟩ := hloaded
  have hlimit : PTSIZE ≤ flatCode.limit.toNat + 1 := by decide
  have hassoc : entryCode pgdir relocated ++ relocatedCode bootstacktop =
      turnOnPaging pgdir ++ .movEax relocated :: .jmpEax :: relocatedCode bootstacktop := by
    simp [entryCode]
  rw [hassoc] at hheld hfits hword hapart hQ ⊢
  rw [entryCode, end_append, end_cons, end_cons, end_nil] at hlabel
  rw [end_append] at hQ
  have h : Flat encode PTSIZE pa
      (turnOnPaging pgdir ++ .movEax relocated :: .jmpEax :: relocatedCode bootstacktop) pc :=
    ⟨heip, congrArg Descriptor.base hflat.code, hflat.code.symm ▸ hlimit, hpaging, .inl hflat.a20,
      hfits, hheld⟩
  exact turnOnPaging_runs hflat htables h hword hapart fun pc' h' => relocated_runs h' hlabel hQ

/-- The instructions after the one that turns paging on are fetched through the low
map, and those after the jump through the high one. Nothing is stored but the word for
the BIOS, and walks mark the tables. -/
theorem entry_pages (encode : Insn → List Byte) (m : Memory) (cpu : Cpu) (pa : Nat)
    (pgdir pgtable relocated bootstacktop : Word) (hflat : FlatSegments ⟨m, cpu⟩)
    (hpaging : cpu.cr0 &&& CR0_PG = 0) (heip : cpu.eip = BitVec.ofNat 32 pa)
    (hloaded : EntryLoaded encode m pa pgdir pgtable relocated bootstacktop) :
    RunsTo encode (entryCode pgdir relocated ++ relocatedCode bootstacktop)
      (fun pc =>
        MarkedOnly pgdir pgtable (m.store16 0x472 0x1234) pc.mem ∧ pc.mem.load16 0x472 = 0x1234 ∧
        pc.cpu.eip = BitVec.ofNat 32 (KERNBASE +
          (pa + (assemble encode (entryCode pgdir relocated ++ relocatedCode bootstacktop)).length)) ∧
        pc.cpu.ebp = 0 ∧ pc.cpu.esp = bootstacktop ∧
        ∀ r off,
          (off.toNat < PTSIZE → pc.translate r off = some ⟨off, false⟩) ∧
          (KERNBASE ≤ off.toNat → off.toNat < KERNBASE + PTSIZE →
            pc.translate r off = some ⟨off - BitVec.ofNat 32 KERNBASE, r ≠ .cs⟩))
      ⟨m, cpu⟩ := by
  refine entry_runs hflat hpaging heip hloaded fun pc hpaged hmem heip hebp hesp =>
    ⟨hmem, ?_, heip, hebp, hesp, fun r off => ⟨hpaged.translate_low r, hpaged.translate_high r⟩⟩
  have hext : EXTPHYSMEM = 0x100000 := rfl
  have hbyte (a : Nat) (ha : a < 0x474) : pc.mem.byte a = (m.store16 0x472 0x1234).byte a :=
    hmem.byte_eq fun htable => by
      have hhigh := hloaded.tables.tableByte_high htable
      omega
  rw [Memory.load16_congr (hbyte 0x472 (by decide)) (hbyte 0x473 (by decide)),
    Memory.load16_store16_same]

end Entry

/-- The tables, and the code of `kern/entry.S` in front of them. -/
def entryImage : Memory where
  byte a :=
    if 0x110000 ≤ a then bootImage.byte a
    else
      (assemble insnBytes (entryCode 0x112000 0xF010002F ++ relocatedCode 0xF0110000)).getD
        (a - 0x10000C) 0
  stores := []

def loadedCpu : Cpu :=
  { biosCpu with
    eip := 0x10000C, esp := 0x7BDC, interrupts := false, cr0 := 0x11, a20 := true
    segs := fun r => if r = .cs then flatCode else flatData }

theorem bootTables_entryImage : BootTables entryImage 0x112000 0xF0110000 where
  aligned := by decide
  linked := by decide
  dir i hi := by
    have hsame : ∀ k < 4, entryImage.byte (0x112000 + 4 * i + k) =
      bootImage.byte (0x112000 + 4 * i + k) :=
      fun k _ => if_pos (by omega)
    rw [← bootTables_image.dir i hi]
    exact Memory.load32_congr hsame
  table i hi := by
    have hloaded : (0xF0110000 : Word).toNat - KERNBASE = 0x110000 := by decide
    have hsame : ∀ k < 4, entryImage.byte (0x110000 + 4 * i + k) =
      bootImage.byte (0x110000 + 4 * i + k) :=
      fun k _ => if_pos (by omega)
    rw [← bootTables_image.table i hi, hloaded]
    exact Memory.load32_congr hsame

theorem tableByte_image {a : Nat} (ha : TableByte 0x112000 0xF0110000 a) :
    0x110000 ≤ a ∧ a < 0x113000 := by
  have hdir : (0x112000 : Word).toNat = 0x112000 := rfl
  have htable : (0xF0110000 : Word).toNat - KERNBASE = 0x110000 := by decide
  have hnum : NPDENTRIES = 1024 := rfl
  obtain ⟨i, hi, ha | ha⟩ := ha
  · rw [hdir] at ha
    omega
  · rw [htable] at ha
    omega

theorem entryCode_length :
    (assemble insnBytes (entryCode 0x112000 0xF010002F ++ relocatedCode 0xF0110000)).length = 0x2D := by
  decide +kernel

theorem entryLoaded_image :
    EntryLoaded insnBytes entryImage 0x10000C 0x112000 0xF0110000 0xF010002F 0xF0110000 where
  tables := bootTables_entryImage.kernelTables (by decide) (by decide) (by decide)
  label := by decide +kernel
  code := by
    unfold Assembled
    decide +kernel
  fits := by
    rw [entryCode_length]
    decide
  apart_word := .inr (by decide)
  apart_tables := fun a ha => .inr (by
    have hlow := (tableByte_image ha).1
    rw [entryCode_length]
    omega)

theorem entry_pages_image :
    RunsTo insnBytes (entryCode 0x112000 0xF010002F ++ relocatedCode 0xF0110000)
      (fun pc =>
        MarkedOnly 0x112000 0xF0110000 (entryImage.store16 0x472 0x1234) pc.mem ∧
        pc.mem.load16 0x472 = 0x1234 ∧ pc.cpu.eip = 0xF0100039 ∧ pc.cpu.ebp = 0 ∧
        pc.cpu.esp = 0xF0110000 ∧
        ∀ r off,
          (off.toNat < PTSIZE → pc.translate r off = some ⟨off, false⟩) ∧
          (KERNBASE ≤ off.toNat → off.toNat < KERNBASE + PTSIZE →
            pc.translate r off = some ⟨off - BitVec.ofNat 32 KERNBASE, r ≠ .cs⟩))
      ⟨entryImage, loadedCpu⟩ := by
  have hend : BitVec.ofNat 32 (KERNBASE + (0x10000C + 0x2D)) = (0xF0100039 : Word) := by decide
  have hrun :=
    entry_pages insnBytes entryImage loadedCpu 0x10000C 0x112000 0xF0110000 0xF010002F 0xF0110000
      ⟨rfl, fun _ hr => if_neg hr, rfl⟩ (by decide) rfl entryLoaded_image
  rwa [entryCode_length, hend] at hrun

end Jos
