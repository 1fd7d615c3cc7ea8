import Jos.Cpu

/-! `boot/boot.S`: from real mode to segments that change no address. Each
instruction follows the one before it in memory, however addresses are made. -/

namespace Jos

def PROT_MODE_CSEG : BitVec 16 := 0x8
def PROT_MODE_DSEG : BitVec 16 := 0x10
def CR0_PE_ON : Word := 0x1

def STA_X : Word := 0x8
def STA_W : Word := 0x2
def STA_R : Word := 0x2

/-- `SEG_NULL` -/
def segNull : List Byte :=
  dotWord 0 ++ dotWord 0 ++ (dotByte 0 ++ dotByte 0 ++ dotByte 0 ++ dotByte 0)

def gdt : List Byte :=
  segNull ++ segAsm (STA_X ||| STA_R) 0x0 0xFFFFFFFF ++ segAsm STA_W 0x0 0xFFFFFFFF

/-- The table once the code segment, or the data segment, has been loaded. -/
def gdtLoaded (code data : Bool) : List Byte :=
  segNull ++ segAsm (STA_X ||| STA_R ||| if code then STA_A else 0) 0x0 0xFFFFFFFF ++
    segAsm (STA_W ||| if data then STA_A else 0) 0x0 0xFFFFFFFF

def zeroSegs : List Insn :=
  [.cli, .cld, .xorAx, .movSeg .ds, .movSeg .es, .movSeg .ss]

/-- The controller is not busy when it returns `s` and `s'`. -/
def seta20 (s s' : Byte) : List Insn :=
  [.waitKbc s, .movAl 0xD1, .outAl 0x64, .waitKbc s', .movAl 0xDF, .outAl 0x60]

def switchMode (gdtdesc protcseg : Word) : List Insn :=
  [.lgdt gdtdesc, .movEaxCr0, .orEax CR0_PE_ON, .movCr0Eax, .ljmp PROT_MODE_CSEG protcseg]

/-- `start` -/
def startCode (s s' : Byte) (gdtdesc protcseg : Word) : List Insn :=
  zeroSegs ++ seta20 s s' ++ switchMode gdtdesc protcseg

/-- `protcseg`, up to the call of `bootmain`. -/
def protcsegCode (start : Word) : List Insn :=
  .movAx PROT_MODE_DSEG :: [SegReg.ds, .es, .fs, .gs, .ss].map .movSeg ++ [.movEsp start]

section Run

variable {encode : Insn → List Byte} {pa : Nat} {pc pc' : Pc} {i : Insn} {code code' : List Insn}

/-- The code as it is in memory. -/
def assemble (encode : Insn → List Byte) (code : List Insn) : List Byte :=
  code.flatMap encode

@[simp] theorem assemble_cons : assemble encode (i :: code) = encode i ++ assemble encode code := by
  simp [assemble]

@[simp] theorem assemble_append :
    assemble encode (code ++ code') = assemble encode code ++ assemble encode code' := by
  simp [assemble]

/-- Where the code at `pa` ends. -/
theorem end_nil : pa + (assemble encode []).length = pa := rfl

theorem end_cons : pa + (assemble encode (i :: code)).length =
    pa + (encode i).length + (assemble encode code).length := by
  rw [assemble_cons, List.length_append, Nat.add_assoc]

theorem end_append : pa + (assemble encode (code ++ code')).length =
    pa + (assemble encode code).length + (assemble encode code').length := by
  rw [assemble_append, List.length_append, Nat.add_assoc]

/-- Memory has the code from `pa` on. -/
def Assembled (encode : Insn → List Byte) (m : Memory) (pa : Nat) (code : List Insn) : Prop :=
  m.view pa (assemble encode code).length = assemble encode code

theorem Assembled.tail {m : Memory} (h : Assembled encode m pa (i :: code)) :
    Assembled encode m (pa + (encode i).length) code := by
  rw [Assembled, assemble_cons, List.length_append, Memory.view_add] at h
  exact (List.append_inj h (by simp)).2

theorem Assembled.byte {m : Memory} (h : Assembled encode m pa (i :: code)) {k : Nat}
    (hk : k < (encode i).length) :
    some (m.byte (pa + k)) = (encode i)[k]? := by
  rw [Assembled, assemble_cons, List.length_append, Memory.view_add] at h
  have hi : m.view pa (encode i).length = encode i := (List.append_inj h (by simp)).1
  have hk' : k < (m.view pa (encode i).length).length := by simpa using hk
  rw [← Memory.view_getElem m pa (encode i).length k hk', ← List.getElem?_eq_getElem, hi]

theorem Assembled.congr {m m' : Memory} (h : Assembled encode m pa code)
    (hsame : ∀ a, pa ≤ a → a < pa + (assemble encode code).length → m'.byte a = m.byte a) :
    Assembled encode m' pa code :=
  (Memory.view_congr hsame).trans h

/-- The processor is at `pa`, the code is there and lies below `top`, and no address
below `top` is changed. -/
structure Flat (encode : Insn → List Byte) (top pa : Nat) (code : List Insn) (pc : Pc) : Prop where
  eip : pc.cpu.eip = BitVec.ofNat 32 pa
  base : (pc.cpu.segs .cs).base = 0
  limit : top ≤ (pc.cpu.segs .cs).limit.toNat + 1
  paging : pc.cpu.cr0 &&& CR0_PG = 0
  line : pc.cpu.a20 = true ∨ top ≤ 2 ^ 20
  fits : pa + (assemble encode code).length ≤ top
  held : Assembled encode pc.mem pa code

theorem bus_eq {cpu : Cpu} {a : Word} (h : cpu.a20 = true ∨ a.toNat < 2 ^ 20) : cpu.bus a = a := by
  unfold Cpu.bus
  split_ifs with ha20
  · rfl
  · have hlt := h.resolve_left ha20
    have hmask : (0x100000 : Word) = BitVec.twoPow 32 20 := by decide
    have hbit : a.getLsbD 20 = false := Nat.testBit_lt_two_pow hlt
    refine and_not_of_and_eq_zero ?_
    rw [hmask]
    by_contra hne
    rw [(and_twoPow_ne_zero (by decide)).mp hne] at hbit
    cases hbit

theorem translate_flat {r : SegReg} {off : Word} (hbase : (pc.cpu.segs r).base = 0)
    (hlimit : off.toNat ≤ (pc.cpu.segs r).limit.toNat) (hpaging : pc.cpu.cr0 &&& CR0_PG = 0)
    (hline : pc.cpu.a20 = true ∨ off.toNat < 2 ^ 20) :
    pc.translate r off = some ⟨off, (pc.cpu.segs r).Writable⟩ := by
  have hle : off ≤ (pc.cpu.segs r).limit := BitVec.le_def.mpr hlimit
  simp [Pc.translate, hle, hpaging, hbase, bus_eq hline]

theorem outb_keeps (port : Nat) (b : Byte) (cpu : Cpu) : (cpu.outb port b).segs = cpu.segs ∧
    (cpu.outb port b).cr0 = cpu.cr0 ∧ (cpu.outb port b).eip = cpu.eip := by
  unfold Cpu.outb
  split_ifs <;> simp

theorem act_keeps {f : Cpu → Cpu} (h : i.act = some f) (cpu : Cpu) :
    (f cpu).segs = cpu.segs ∧ (f cpu).cr0 = cpu.cr0 ∧ (f cpu).eip = cpu.eip := by
  cases i <;> cases h <;> simp [Cpu.setAx, Cpu.setAl, outb_keeps]

theorem exec_act {f : Cpu → Cpu} (h : i.act = some f) (pc : Pc) :
    exec i pc = some ⟨pc.mem, f pc.cpu⟩ := by
  cases i <;> cases h <;> rfl

namespace Flat

variable {top : Nat} {Q : Pc → Prop}

theorem next_eip (h : Flat encode top pa (i :: code) pc) :
    (pc.next (encode i).length).cpu.eip = BitVec.ofNat 32 (pa + (encode i).length) := by
  rw [Pc.next, h.eip, BitVec.ofNat_add]

theorem fetches (h : Flat encode top pa (i :: code) pc) : pc.Fetches encode i := by
  intro k hk
  have hfits := h.fits
  have hlimit := h.limit
  rw [end_cons] at hfits
  have hmax := (pc.cpu.segs .cs).limit.isLt
  have hpa : (BitVec.ofNat 32 (pa + k)).toNat = pa + k := Nat.mod_eq_of_lt (by omega)
  have htranslate : pc.translate .cs (BitVec.ofNat 32 (pa + k)) =
      some ⟨BitVec.ofNat 32 (pa + k), (pc.cpu.segs .cs).Writable⟩ :=
    translate_flat h.base (by rw [hpa]; omega) h.paging (h.line.imp_right fun _ => by rw [hpa]; omega)
  rw [Pc.byteAt, h.eip, ← BitVec.ofNat_add, htranslate, Option.map_some, hpa, h.held.byte hk]

/-- Without paging nothing happens between instructions. -/
theorem cons (h : Flat encode top pa (i :: code) pc)
    (hexec : exec i (pc.next (encode i).length) = some pc')
    (hpaging : pc'.cpu.cr0 &&& CR0_PG = 0) (hrest : RunsTo encode code Q pc') :
    RunsTo encode (i :: code) Q pc := by
  refine .cons h.fetches hexec fun pc'' hmarked => ?_
  rwa [hmarked.eq_of_unpaged hpaging]

theorem rest (h : Flat encode top pa (i :: code) pc)
    (heip : pc'.cpu.eip = (pc.next (encode i).length).cpu.eip)
    (hcs : pc'.cpu.segs .cs = pc.cpu.segs .cs) (hpaging : pc'.cpu.cr0 &&& CR0_PG = 0)
    (hline : pc'.cpu.a20 = true ∨ top ≤ 2 ^ 20)
    (hheld : Assembled encode pc.mem (pa + (encode i).length) code →
      Assembled encode pc'.mem (pa + (encode i).length) code) :
    Flat encode top (pa + (encode i).length) code pc' := by
  have hfits := h.fits
  rw [end_cons] at hfits
  exact ⟨heip.trans h.next_eip, hcs ▸ h.base, hcs ▸ h.limit, hpaging, hline, hfits, hheld h.held.tail⟩

/-- Only the registers change. -/
theorem act (h : Flat encode top pa (i :: code) pc) {f : Cpu → Cpu} (hact : i.act = some f) {cpu : Cpu}
    (hcpu : f (pc.next (encode i).length).cpu = cpu) (hline : cpu.a20 = true ∨ top ≤ 2 ^ 20)
    (hrest : Flat encode top (pa + (encode i).length) code ⟨pc.mem, cpu⟩ →
      RunsTo encode code Q ⟨pc.mem, cpu⟩) :
    RunsTo encode (i :: code) Q pc := by
  obtain ⟨hsegs, hcr0, heip⟩ := act_keeps hact (pc.next (encode i).length).cpu
  rw [hcpu] at hsegs hcr0 heip
  have hexec : exec i (pc.next (encode i).length) = some ⟨pc.mem, cpu⟩ := by
    rw [exec_act hact, hcpu]
    rfl
  have hpaging : cpu.cr0 &&& CR0_PG = 0 := hcr0 ▸ h.paging
  exact h.cons hexec hpaging (hrest (h.rest heip (congrFun hsegs .cs) hpaging hline id))

/-- A data segment is loaded, and the code stays where it is. -/
theorem seg {r : SegReg} (h : Flat encode top pa (.movSeg r :: code) pc) (hr : r ≠ .cs) {d : Descriptor}
    {m : Memory} (hload : exec (.movSeg r) (pc.next (encode (.movSeg r)).length) =
      some (Pc.setSeg r d ⟨m, (pc.next (encode (.movSeg r)).length).cpu⟩))
    (hframe : ∀ a < top, m.byte a = pc.mem.byte a)
    (hrest : Flat encode top (pa + (encode (.movSeg r)).length) code
        (Pc.setSeg r d ⟨m, (pc.next (encode (.movSeg r)).length).cpu⟩) →
      RunsTo encode code Q (Pc.setSeg r d ⟨m, (pc.next (encode (.movSeg r)).length).cpu⟩)) :
    RunsTo encode (.movSeg r :: code) Q pc := by
  have hfits := h.fits
  rw [end_cons] at hfits
  have hcs := Pc.setSeg_of_ne hr.symm d ⟨m, (pc.next (encode (.movSeg r)).length).cpu⟩
  refine h.cons hload h.paging (hrest (h.rest rfl hcs h.paging h.line fun hheld => ?_))
  exact hheld.congr fun a _ ha => hframe a (by omega)

end Flat

end Run

def flatCode : Descriptor where
  base := 0
  limit := 0xFFFFFFFF
  type := 0xB
  s := 1
  dpl := 0
  p := 1
  db := 1

def flatData : Descriptor :=
  { flatCode with type := 0x3 }

section Table

variable {m : Memory} {a : Nat} {code data : Bool}

theorem gdt_split (h : m.view a 24 = gdtLoaded code data) :
    m.view (a + 8) 8 = segAsm (STA_X ||| STA_R ||| if code then STA_A else 0) 0x0 0xFFFFFFFF ∧
      m.view (a + 16) 8 = segAsm (STA_W ||| if data then STA_A else 0) 0x0 0xFFFFFFFF := by
  rw [gdtLoaded, List.append_assoc, m.view_add a 8 (8 + 8), m.view_add (a + 8) 8 8] at h
  obtain ⟨-, htwo⟩ := List.append_inj h (by simp; rfl)
  exact List.append_inj htwo (by simp; rfl)

theorem decode_gdt (h : m.view a 24 = gdtLoaded code data) :
    Descriptor.decode (m.view (a + 8) 8) = { flatCode with type := if code then 0xB else 0xA } ∧
      Descriptor.decode (m.view (a + 16) 8) = { flatData with type := if data then 0x3 else 0x2 } := by
  obtain ⟨hcode, hdata⟩ := gdt_split h
  rw [hcode, hdata]
  cases code <;> cases data <;> decide +kernel

/-- Loading a descriptor marks it. -/
theorem gdt_marked (h : m.view a 24 = gdtLoaded code data) :
    (m.store (a + 13) (m.byte (a + 13) ||| STA_A.setWidth 8)).view a 24 = gdtLoaded true data ∧
      (m.store (a + 21) (m.byte (a + 21) ||| STA_A.setWidth 8)).view a 24 = gdtLoaded code true := by
  have hmodify : (gdtLoaded code data).modify 13 (· ||| STA_A.setWidth 8) = gdtLoaded true data ∧
      (gdtLoaded code data).modify 21 (· ||| STA_A.setWidth 8) = gdtLoaded code true := by
    cases code <;> cases data <;> decide +kernel
  rw [m.view_modify a 13 24 (· ||| STA_A.setWidth 8), m.view_modify a 21 24 (· ||| STA_A.setWidth 8), h]
  exact hmodify

end Table

/-- The boot sector as it is linked: the code up to the call of `bootmain`, and then
the table and what `lgdt` loads. -/
structure BootSector (encode : Insn → List Byte) (m : Memory) (s s' : Byte)
    (gdtAt gdtdesc protcseg : Word) : Prop where
  label : protcseg = BitVec.ofNat 32
    (0x7C00 + (assemble encode (startCode s s' gdtdesc protcseg)).length)
  code : Assembled encode m 0x7C00 (startCode s s' gdtdesc protcseg ++ protcsegCode 0x7C00)
  code_le : 0x7C00 + (assemble encode (startCode s s' gdtdesc protcseg ++ protcsegCode 0x7C00)).length ≤
    gdtAt.toNat
  gdt_le : gdtAt.toNat + 24 ≤ gdtdesc.toNat
  gdtdesc_le : gdtdesc.toNat + 6 ≤ 0x7E00
  limit : m.load16 gdtdesc.toNat = 0x17
  addr : m.load32 (gdtdesc.toNat + 2) = gdtAt
  table : m.view gdtAt.toNat 24 = gdt

/-- How the BIOS leaves the processor. -/
structure RealMode (cpu : Cpu) : Prop where
  eip : cpu.eip = 0x7C00
  cs : cpu.segs .cs = realSegment 0
  protection : cpu.cr0 &&& CR0_PE = 0
  paging : cpu.cr0 &&& CR0_PG = 0

section Start

variable {encode : Insn → List Byte} {top pa : Nat} {code : List Insn} {Q : Pc → Prop} {pc : Pc}

theorem zeroSegs_runs (htop : top ≤ 2 ^ 20) (hpe : pc.cpu.cr0 &&& CR0_PE = 0)
    (h : Flat encode top pa (zeroSegs ++ code) pc)
    (hrest : ∀ pc', Flat encode top (pa + (assemble encode zeroSegs).length) code pc' →
      pc'.mem = pc.mem → pc'.cpu.cr0 = pc.cpu.cr0 → pc'.cpu.interrupts = false →
      pc'.cpu.segs .cs = pc.cpu.segs .cs → pc'.cpu.segs .ds = realSegment 0 → RunsTo encode code Q pc') :
    RunsTo encode (zeroSegs ++ code) Q pc := by
  have hreal (r : SegReg) (pc' : Pc) (hcr0 : pc'.cpu.cr0 = pc.cpu.cr0) :
      pc'.loadSegment r pc'.cpu.ax = some (pc'.setSeg r (realSegment pc'.cpu.ax)) := if_pos (hcr0 ▸ hpe)
  simp only [zeroSegs, end_cons, end_nil] at hrest
  refine h.act rfl rfl (.inr htop) fun h => ?_
  refine h.act rfl rfl (.inr htop) fun h => ?_
  refine h.act rfl rfl (.inr htop) fun h => ?_
  refine h.seg (by decide) (hreal .ds _ rfl) (fun _ _ => rfl) fun h => ?_
  refine h.seg (by decide) (hreal .es _ rfl) (fun _ _ => rfl) fun h => ?_
  refine h.seg (by decide) (hreal .ss _ rfl) (fun _ _ => rfl) fun h => ?_
  exact hrest _ h rfl rfl rfl rfl (congrArg realSegment ((Cpu.ax_setAx _ _).trans (BitVec.xor_self)))

theorem outb_command {cpu : Cpu} (h : cpu.al = 0xD1) :
    cpu.outb 0x64 cpu.al = { cpu with expecting := true } := by
  simp [Cpu.outb, h]

theorem outb_port {cpu : Cpu} (h : cpu.al = 0xDF) (hexpecting : cpu.expecting = true) :
    cpu.outb 0x60 cpu.al = { cpu with expecting := false, a20 := true } := by
  simp [Cpu.outb, h, hexpecting]

theorem seta20_runs {s s' : Byte} (htop : top ≤ 2 ^ 20) (h : Flat encode top pa (seta20 s s' ++ code) pc)
    (hrest : ∀ pc', Flat encode top (pa + (assemble encode (seta20 s s')).length) code pc' →
      pc'.mem = pc.mem → pc'.cpu.cr0 = pc.cpu.cr0 → pc'.cpu.interrupts = pc.cpu.interrupts →
      pc'.cpu.segs = pc.cpu.segs → pc'.cpu.a20 = true → RunsTo encode code Q pc') :
    RunsTo encode (seta20 s s' ++ code) Q pc := by
  simp only [seta20, end_cons, end_nil] at hrest
  refine h.act rfl rfl (.inr htop) fun h => ?_
  refine h.act rfl rfl (.inr htop) fun h => ?_
  refine h.act rfl (outb_command (Cpu.al_setAl 0xD1 _)) (.inr htop) fun h => ?_
  refine h.act rfl rfl (.inr htop) fun h => ?_
  refine h.act rfl rfl (.inr htop) fun h => ?_
  refine h.act rfl (outb_port (Cpu.al_setAl 0xDF _) rfl) (.inr htop) fun h => ?_
  exact hrest _ h rfl rfl rfl rfl rfl

end Start

/-- In protected mode, with the table at `gdtAt`, and its two descriptors loaded or not. -/
structure Protected (m : Memory) (gdtAt : Word) (code data : Bool) (pc : Pc) : Prop where
  frame : ∀ a, a < gdtAt.toNat ∨ gdtAt.toNat + 24 ≤ a → pc.mem.byte a = m.byte a
  table : pc.mem.view gdtAt.toNat 24 = gdtLoaded code data
  gdtBase : pc.cpu.gdtBase = gdtAt
  gdtLimit : pc.cpu.gdtLimit = 0x17
  protection : pc.cpu.cr0 &&& CR0_PE ≠ 0
  paging : pc.cpu.cr0 &&& CR0_PG = 0
  a20 : pc.cpu.a20 = true
  interrupts : pc.cpu.interrupts = false

section Switch

variable {encode : Insn → List Byte} {m : Memory} {gdtAt gdtdesc protcseg : Word} {s s' : Byte}
  {pa : Nat} {insns : List Insn} {Q : Pc → Prop} {pc : Pc} {code data : Bool}

namespace Protected

theorem jumps (h : Protected m gdtAt code data pc) (off : Word) :
    ∃ m', exec (.ljmp PROT_MODE_CSEG off) pc =
        some ⟨m', { (pc.setSeg .cs flatCode).cpu with eip := off }⟩ ∧
      m'.view gdtAt.toNat 24 = gdtLoaded true data ∧
      ∀ a, a < gdtAt.toNat ∨ gdtAt.toNat + 24 ≤ a → m'.byte a = pc.mem.byte a := by
  have hloads : Descriptor.Loads { flatCode with type := if code then 0xB else 0xA } .cs := by
    cases code <;> decide
  have htype : (if code then 0xB else 0xA : BitVec 4) ||| STA_A.setWidth 4 = flatCode.type := by
    cases code <;> decide
  have hload : pc.loadSegment .cs PROT_MODE_CSEG = some (Pc.setSeg .cs flatCode ⟨pc.mem.store
      (gdtAt.toNat + 13) (pc.mem.byte (gdtAt.toNat + 13) ||| STA_A.setWidth 8), pc.cpu⟩) := by
    have hdecode := (decode_gdt h.table).1
    rw [Pc.loadSegment, if_neg h.protection, h.gdtBase, h.gdtLimit]
    dsimp only
    rw [show gdtAt.toNat + PROT_MODE_CSEG.toNat = gdtAt.toNat + 8 from rfl, hdecode,
      if_pos ⟨h.paging, by decide, by decide, by decide, hloads⟩, htype]
  refine ⟨_, by rw [exec_ljmp, hload]; rfl, (gdt_marked h.table).1, fun a ha => ?_⟩
  exact Memory.store_byte_ne (by omega)

theorem loads_data (h : Protected m gdtAt code data pc) {r : SegReg} (hr : r ≠ .cs)
    (hax : pc.cpu.ax = PROT_MODE_DSEG) :
    ∃ m', exec (.movSeg r) pc = some (Pc.setSeg r flatData ⟨m', pc.cpu⟩) ∧
      m'.view gdtAt.toNat 24 = gdtLoaded code true ∧
      ∀ a, a < gdtAt.toNat ∨ gdtAt.toNat + 24 ≤ a → m'.byte a = pc.mem.byte a := by
  have hloads : Descriptor.Loads { flatData with type := if data then 0x3 else 0x2 } r := by
    cases r with
    | cs => exact absurd rfl hr
    | _ => cases data <;> decide
  have htype : (if data then 0x3 else 0x2 : BitVec 4) ||| STA_A.setWidth 4 = flatData.type := by
    cases data <;> decide
  have hload : pc.loadSegment r PROT_MODE_DSEG = some (Pc.setSeg r flatData ⟨pc.mem.store
      (gdtAt.toNat + 21) (pc.mem.byte (gdtAt.toNat + 21) ||| STA_A.setWidth 8), pc.cpu⟩) := by
    have hdecode := (decode_gdt h.table).2
    rw [Pc.loadSegment, if_neg h.protection, h.gdtBase, h.gdtLimit]
    dsimp only
    rw [show gdtAt.toNat + PROT_MODE_DSEG.toNat = gdtAt.toNat + 16 from rfl, hdecode,
      if_pos ⟨h.paging, by decide, by decide, by decide, hloads⟩, htype]
  refine ⟨_, by rw [exec_movSeg pc r hr, hax, hload], (gdt_marked h.table).2, fun a ha => ?_⟩
  exact Memory.store_byte_ne (by omega)

end Protected

theorem lgdt_loads (hsector : BootSector encode m s s' gdtAt gdtdesc protcseg) (hmem : pc.mem = m)
    (hds : pc.cpu.segs .ds = realSegment 0) (ha20 : pc.cpu.a20 = true)
    (hpaging : pc.cpu.cr0 &&& CR0_PG = 0) :
    exec (.lgdt gdtdesc) pc = some ⟨pc.mem, { pc.cpu with gdtLimit := 0x17, gdtBase := gdtAt }⟩ := by
  have hdesc := hsector.gdtdesc_le
  have hgdt := hsector.gdt_le
  have hreal : (realSegment 0).base = 0 ∧ (realSegment 0).limit.toNat = 0xFFFF := by decide
  have hlow : (gdtAt &&& 0xFFFFFF).toNat = gdtAt.toNat % 2 ^ 24 :=
    toNat_and_low gdtAt (by decide : 24 ≤ 32)
  have hbase : gdtAt &&& 0xFFFFFF = gdtAt :=
    BitVec.eq_of_toNat_eq (hlow.trans (Nat.mod_eq_of_lt (by omega)))
  have hflat : pc.translate .ds gdtdesc = some ⟨gdtdesc, (pc.cpu.segs .ds).Writable⟩ :=
    translate_flat (by rw [hds, hreal.1]) (by rw [hds, hreal.2]; omega) hpaging (.inl ha20)
  rw [exec_lgdt, hflat, Option.map_some, hmem, hsector.limit, hsector.addr, hbase]
  rfl

theorem or_pe (cr0 : Word) : (cr0 ||| CR0_PE_ON) &&& CR0_PE ≠ 0 ∧
    (cr0 &&& CR0_PG = 0 → (cr0 ||| CR0_PE_ON) &&& CR0_PG = 0) := by
  have hpg : CR0_PE_ON &&& CR0_PG = 0 := by decide
  have hpe : CR0_PE = BitVec.twoPow 32 0 := by decide
  constructor
  · rw [hpe, and_twoPow_ne_zero (by decide)]
    simp [CR0_PE_ON]
  · intro h
    rw [BitVec.and_or_distrib_right, h, hpg]
    rfl

/-- Protection is turned on by the code segment of real mode, and the jump leaves that. -/
theorem enter_runs (hmem : pc.mem = m) (htable : m.view gdtAt.toNat 24 = gdt)
    (hbase : pc.cpu.gdtBase = gdtAt) (hlimit : pc.cpu.gdtLimit = 0x17)
    (heax : pc.cpu.eax = pc.cpu.cr0 ||| CR0_PE_ON) (ha20 : pc.cpu.a20 = true)
    (hcli : pc.cpu.interrupts = false)
    (hlabel : protcseg = BitVec.ofNat 32
      (pa + (encode .movCr0Eax).length + (encode (.ljmp PROT_MODE_CSEG protcseg)).length))
    (h : Flat encode gdtAt.toNat pa (.movCr0Eax :: .ljmp PROT_MODE_CSEG protcseg :: insns) pc)
    (hrest : ∀ pc', Flat encode gdtAt.toNat
        (pa + (encode .movCr0Eax).length + (encode (.ljmp PROT_MODE_CSEG protcseg)).length) insns pc' →
      Protected m gdtAt true false pc' → pc'.cpu.segs .cs = flatCode → RunsTo encode insns Q pc') :
    RunsTo encode (.movCr0Eax :: .ljmp PROT_MODE_CSEG protcseg :: insns) Q pc := by
  have hfits := h.fits
  simp only [end_cons] at hfits
  obtain ⟨hpe, hpg⟩ := or_pe pc.cpu.cr0
  rw [← heax] at hpe hpg
  refine h.cons rfl (hpg h.paging) ?_
  have h₁ : Flat encode gdtAt.toNat (pa + (encode .movCr0Eax).length)
      (.ljmp PROT_MODE_CSEG protcseg :: insns)
      ⟨pc.mem, { (pc.next (encode .movCr0Eax).length).cpu with cr0 := pc.cpu.eax }⟩ :=
    h.rest rfl rfl (hpg h.paging) h.line id
  have hprot : Protected m gdtAt false false (Pc.next (encode (.ljmp PROT_MODE_CSEG protcseg)).length
      ⟨pc.mem, { (pc.next (encode .movCr0Eax).length).cpu with cr0 := pc.cpu.eax }⟩) :=
    ⟨fun a _ => congrFun (congrArg Memory.byte hmem) a, hmem ▸ htable, hbase, hlimit, hpe, hpg h.paging,
      ha20, hcli⟩
  have hcs := Pc.setSeg_same .cs flatCode (Pc.next (encode (.ljmp PROT_MODE_CSEG protcseg)).length
    ⟨pc.mem, { (pc.next (encode .movCr0Eax).length).cpu with cr0 := pc.cpu.eax }⟩)
  obtain ⟨m', hexec, htable', hframe⟩ := hprot.jumps protcseg
  refine h₁.cons hexec (hpg h.paging) (hrest _ ?_ ?_ hcs)
  · have hroom : gdtAt.toNat ≤ flatCode.limit.toNat + 1 := gdtAt.isLt.le
    refine ⟨hlabel, congrArg Descriptor.base hcs, hcs.symm ▸ hroom, hpg h.paging, h.line, by omega, ?_⟩
    exact h₁.held.tail.congr fun a _ ha => hframe a (by omega)
  · exact ⟨fun a ha => (hframe a ha).trans (hprot.frame a ha), htable', hbase, hlimit, hpe, hpg h.paging,
      ha20, hcli⟩

theorem switchMode_runs (hsector : BootSector encode m s s' gdtAt gdtdesc protcseg) (hmem : pc.mem = m)
    (hds : pc.cpu.segs .ds = realSegment 0) (ha20 : pc.cpu.a20 = true) (hcli : pc.cpu.interrupts = false)
    (hlabel : protcseg = BitVec.ofNat 32 (pa + (assemble encode (switchMode gdtdesc protcseg)).length))
    (h : Flat encode gdtAt.toNat pa (switchMode gdtdesc protcseg ++ insns) pc)
    (hrest : ∀ pc', Flat encode gdtAt.toNat
        (pa + (assemble encode (switchMode gdtdesc protcseg)).length) insns pc' →
      Protected m gdtAt true false pc' → pc'.cpu.segs .cs = flatCode → RunsTo encode insns Q pc') :
    RunsTo encode (switchMode gdtdesc protcseg ++ insns) Q pc := by
  simp only [switchMode, end_cons, end_nil] at hrest hlabel
  refine h.cons (lgdt_loads hsector hmem hds ha20 h.paging) h.paging ?_
  have h₁ : Flat encode gdtAt.toNat (pa + (encode (.lgdt gdtdesc)).length)
      (.movEaxCr0 :: .orEax CR0_PE_ON :: .movCr0Eax :: .ljmp PROT_MODE_CSEG protcseg :: insns)
      ⟨pc.mem,
        { (pc.next (encode (.lgdt gdtdesc)).length).cpu with gdtLimit := 0x17, gdtBase := gdtAt }⟩ :=
    h.rest rfl rfl h.paging h.line id
  refine h₁.act rfl rfl h₁.line fun h => ?_
  refine h.act rfl rfl h.line fun h => ?_
  exact enter_runs hmem hsector.table rfl rfl rfl ha20 hcli hlabel h hrest

theorem loadData_runs {rs : List SegReg} (hrs : SegReg.cs ∉ rs) (hprot : Protected m gdtAt code data pc)
    (hax : pc.cpu.ax = PROT_MODE_DSEG) (h : Flat encode gdtAt.toNat pa (rs.map .movSeg ++ insns) pc)
    (hrest : ∀ pc', Flat encode gdtAt.toNat (pa + (assemble encode (rs.map .movSeg)).length) insns pc' →
      Protected m gdtAt code (data || !rs.isEmpty) pc' →
      (∀ r, pc'.cpu.segs r = if r ∈ rs then flatData else pc.cpu.segs r) → RunsTo encode insns Q pc') :
    RunsTo encode (rs.map .movSeg ++ insns) Q pc := by
  induction rs generalizing pa pc data with
  | nil => exact hrest pc h (by simpa using hprot) fun r => by simp
  | cons r rs ih =>
    obtain ⟨hr, hrs⟩ : r ≠ .cs ∧ SegReg.cs ∉ rs := by simpa [eq_comm] using hrs
    simp only [List.map_cons, end_cons] at hrest
    have hnext : Protected m gdtAt code data (pc.next (encode (.movSeg r)).length) := { hprot with }
    obtain ⟨m', hexec, htable, hframe⟩ := hnext.loads_data hr hax
    have hprot' : Protected m gdtAt code true
        (Pc.setSeg r flatData ⟨m', (pc.next (encode (.movSeg r)).length).cpu⟩) :=
      { hprot with
        frame := fun a ha => (hframe a ha).trans (hprot.frame a ha)
        table := htable }
    refine h.seg hr hexec (fun a ha => hframe a (.inl ha)) fun h =>
      ih hrs hprot' hax h fun pc' h' hprot' hsegs => ?_
    refine hrest pc' h' (by simpa using hprot') fun r' => ?_
    rw [hsegs r']
    by_cases hr' : r' = r
    · simp [hr']
    · simp [hr', Pc.setSeg_of_ne hr', Pc.next]

/-- Segments that change no address. -/
structure FlatSegments (pc : Pc) : Prop where
  code : pc.cpu.segs .cs = flatCode
  data : ∀ r, r ≠ .cs → pc.cpu.segs r = flatData
  a20 : pc.cpu.a20 = true

theorem FlatSegments.seg (h : FlatSegments pc) (r : SegReg) : (pc.cpu.segs r).base = 0 ∧
    (pc.cpu.segs r).limit = 0xFFFFFFFF ∧ ((pc.cpu.segs r).Writable ↔ r ≠ .cs) := by
  have hcode : ¬ flatCode.Writable := by decide
  have hdata : flatData.Writable := by decide
  by_cases hr : r = .cs
  · rw [hr, h.code]
    exact ⟨rfl, rfl, iff_of_false hcode (by simp)⟩
  · rw [h.data r hr]
    exact ⟨rfl, rfl, iff_of_true hdata hr⟩

/-- Only the page tables change addresses, and code may not be written. -/
theorem FlatSegments.translate (h : FlatSegments pc) (r : SegReg) (off : Word) : pc.translate r off =
    (if pc.cpu.cr0 &&& CR0_PG = 0 then some ⟨off, true⟩
      else walk pc.mem (PTE_ADDR pc.cpu.cr3).toNat off).map
      fun mapping => ⟨mapping.pa, (mapping.writable ∨ pc.cpu.cr0 &&& CR0_WP = 0) ∧ r ≠ .cs⟩ := by
  obtain ⟨hbase, hlimit, hwritable⟩ := h.seg r
  have hle : off ≤ 0xFFFFFFFF := by
    rw [BitVec.le_def]
    exact Nat.le_of_lt_succ off.isLt
  have hbus (pa : Word) : pc.cpu.bus pa = pa := if_pos h.a20
  have hzero : 0 + off = off := BitVec.zero_add off
  simp only [Pc.translate, hbase, hlimit, if_pos hle, hzero, hbus, hwritable]

theorem FlatSegments.translate_unpaged (h : FlatSegments pc) (hpaging : pc.cpu.cr0 &&& CR0_PG = 0)
    (r : SegReg) (off : Word) : pc.translate r off = some ⟨off, r ≠ .cs⟩ := by
  rw [h.translate, if_pos hpaging]
  simp

theorem protcseg_runs (hprot : Protected m gdtAt true false pc) (hcs : pc.cpu.segs .cs = flatCode)
    (start : Word) (h : Flat encode gdtAt.toNat pa (protcsegCode start) pc)
    (hQ : ∀ pc', Protected m gdtAt true true pc' → FlatSegments pc' →
      pc'.cpu.eip = BitVec.ofNat 32 (pa + (assemble encode (protcsegCode start)).length) →
      pc'.cpu.esp = start → Q pc') :
    RunsTo encode (protcsegCode start) Q pc := by
  simp only [protcsegCode, end_append, end_cons, end_nil] at hQ
  refine h.act rfl rfl h.line fun h => ?_
  refine loadData_runs (by decide) { hprot with } (Cpu.ax_setAx _ _) h fun pc' h hprot' hsegs => ?_
  refine h.act rfl rfl h.line fun h => hQ _ { hprot' with } ⟨?_, fun r hr => ?_, hprot'.a20⟩ h.eip rfl
  · exact (hsegs .cs).trans (by simpa [Cpu.setAx, Pc.next] using hcs)
  · refine (hsegs r).trans (if_pos ?_)
    cases r with
    | cs => exact absurd rfl hr
    | _ => decide

/-- From the BIOS to the call of `bootmain`. -/
theorem boot_runs {cpu : Cpu} (hcpu : RealMode cpu)
    (hsector : BootSector encode m s s' gdtAt gdtdesc protcseg)
    (hQ : ∀ pc, Protected m gdtAt true true pc → FlatSegments pc →
      pc.cpu.eip = BitVec.ofNat 32
        (0x7C00 + (assemble encode (startCode s s' gdtdesc protcseg ++ protcsegCode 0x7C00)).length) →
      pc.cpu.esp = 0x7C00 → Q pc) :
    RunsTo encode (startCode s s' gdtdesc protcseg ++ protcsegCode 0x7C00) Q ⟨m, cpu⟩ := by
  have hgdt := hsector.gdt_le
  have hdesc := hsector.gdtdesc_le
  have htop : gdtAt.toNat ≤ 2 ^ 20 := by omega
  have hlimit : gdtAt.toNat ≤ (realSegment 0).limit.toNat + 1 := by
    have hreal : (realSegment 0).limit.toNat = 0xFFFF := by decide
    omega
  have h : Flat encode gdtAt.toNat 0x7C00
      (startCode s s' gdtdesc protcseg ++ protcsegCode 0x7C00) ⟨m, cpu⟩ :=
    ⟨hcpu.eip, hcpu.cs ▸ rfl, hcpu.cs ▸ hlimit, hcpu.paging, .inr htop, hsector.code_le, hsector.code⟩
  have hassoc : startCode s s' gdtdesc protcseg ++ protcsegCode 0x7C00 =
      zeroSegs ++ (seta20 s s' ++ (switchMode gdtdesc protcseg ++ protcsegCode 0x7C00)) := by
    simp [startCode]
  have hlabel := hsector.label
  rw [startCode, end_append, end_append] at hlabel
  rw [startCode, end_append, end_append, end_append] at hQ
  rw [hassoc] at h ⊢
  refine zeroSegs_runs htop hcpu.protection h fun pc₁ h hmem hcr0 hcli hcs hds => ?_
  refine seta20_runs htop h fun pc₂ h hmem' hcr0' hcli' hsegs ha20 => ?_
  refine switchMode_runs hsector (hmem'.trans hmem) (hsegs ▸ hds) ha20 (hcli'.trans hcli) hlabel h
    fun pc₃ h hprot hcode => ?_
  exact protcseg_runs hprot hcode 0x7C00 h hQ

/-- Every instruction is fetched from its own bytes, and afterwards each address of each
segment stands for itself. In memory only the two descriptors are marked. -/
theorem boot_switches (encode : Insn → List Byte) (m : Memory) (cpu : Cpu) (s s' : Byte)
    (gdtAt gdtdesc protcseg : Word) (hcpu : RealMode cpu)
    (hsector : BootSector encode m s s' gdtAt gdtdesc protcseg) :
    RunsTo encode (startCode s s' gdtdesc protcseg ++ protcsegCode 0x7C00)
      (fun pc =>
        pc.mem.view gdtAt.toNat 24 = gdtLoaded true true ∧
        (∀ a, a < gdtAt.toNat ∨ gdtAt.toNat + 24 ≤ a → pc.mem.byte a = m.byte a) ∧
        pc.cpu.eip = BitVec.ofNat 32
          (0x7C00 + (assemble encode (startCode s s' gdtdesc protcseg ++ protcsegCode 0x7C00)).length) ∧
        pc.cpu.esp = 0x7C00 ∧ pc.cpu.interrupts = false ∧
        ∀ r off, pc.translate r off = some ⟨off, r ≠ .cs⟩)
      ⟨m, cpu⟩ :=
  boot_runs hcpu hsector fun _ hprot hflat heip hesp =>
    ⟨hprot.table, hprot.frame, heip, hesp, hprot.interrupts, hflat.translate_unpaged hprot.paging⟩

end Switch

/-- `.long` -/
def dotLong (e : Word) : List Byte :=
  dotWord e ++ dotWord (e >>> 16)

/-- What the assembler makes of each instruction. In 16-bit code `orl` has a prefix, and
there a form for a small operand. -/
def insnBytes : Insn → List Byte
  | .cli => [0xFA]
  | .cld => [0xFC]
  | .xorAx => [0x31, 0xC0]
  | .movAx v => [0x66, 0xB8] ++ dotWord (v.setWidth 32)
  | .movAl v => [0xB0, v]
  | .waitKbc _ => [0xE4, 0x64, 0xA8, 0x02, 0x75, 0xFA]
  | .outAl port => [0xE6, BitVec.ofNat 8 port]
  | .movEax v => 0xB8 :: dotLong v
  | .orEax v => if v < 0x80 then [0x66, 0x83, 0xC8, v.setWidth 8] else 0x0D :: dotLong v
  | .movEaxCr0 => [0x0F, 0x20, 0xC0]
  | .movEbp v => 0xBD :: dotLong v
  | .movEsp v => 0xBC :: dotLong v
  | .movSeg .cs => [0x8E, 0xC8]
  | .movSeg .ds => [0x8E, 0xD8]
  | .movSeg .es => [0x8E, 0xC0]
  | .movSeg .fs => [0x8E, 0xE0]
  | .movSeg .gs => [0x8E, 0xE8]
  | .movSeg .ss => [0x8E, 0xD0]
  | .lgdt off => [0x0F, 0x01, 0x16] ++ dotWord off
  | .movCr0Eax => [0x0F, 0x22, 0xC0]
  | .movCr3Eax => [0x0F, 0x22, 0xD8]
  | .ljmp sel off => 0xEA :: (dotWord off ++ dotWord (sel.setWidth 32))
  | .jmpEax => [0xFF, 0xE0]
  | .movw v off => [0x66, 0xC7, 0x05] ++ (dotLong off ++ dotWord (v.setWidth 32))

/-- The boot sector as it is assembled, with the call of `bootmain` left out. -/
def sectorImage : Memory where
  byte a :=
    let code := startCode 0x1C 0x1C 0x7C64 0x7C32 ++ protcsegCode 0x7C00
    if a < 0x7C4C then (assemble insnBytes code).getD (a - 0x7C00) 0
    else (gdt ++ dotWord 0x17 ++ dotLong 0x7C4C).getD (a - 0x7C4C) 0
  stores := []

def biosCpu : Cpu where
  eip := 0x7C00
  eax := 0xAA55
  ebp := 0
  esp := 0x6F20
  interrupts := true
  down := false
  segs _ := realSegment 0
  gdtBase := 0
  gdtLimit := 0xFFFF
  cr0 := 0x10
  cr3 := 0
  expecting := false
  a20 := false

theorem realMode_bios : RealMode biosCpu :=
  ⟨rfl, rfl, by decide, by decide⟩

theorem bootSector_image : BootSector insnBytes sectorImage 0x1C 0x1C 0x7C4C 0x7C64 0x7C32 where
  label := by decide +kernel
  code := by
    unfold Assembled
    decide +kernel
  code_le := by decide +kernel
  gdt_le := by decide
  gdtdesc_le := by decide
  limit := by decide +kernel
  addr := by decide +kernel
  table := by decide +kernel

theorem boot_switches_bios :
    RunsTo insnBytes (startCode 0x1C 0x1C 0x7C64 0x7C32 ++ protcsegCode 0x7C00)
      (fun pc =>
        pc.mem.view 0x7C4C 24 = gdtLoaded true true ∧
        (∀ a, a < 0x7C4C ∨ 0x7C4C + 24 ≤ a → pc.mem.byte a = sectorImage.byte a) ∧
        pc.cpu.eip = 0x7C45 ∧ pc.cpu.esp = 0x7C00 ∧ pc.cpu.interrupts = false ∧
        ∀ r off, pc.translate r off = some ⟨off, r ≠ .cs⟩)
      ⟨sectorImage, biosCpu⟩ := by
  have hend : BitVec.ofNat 32 (0x7C00 +
      (assemble insnBytes (startCode 0x1C 0x1C 0x7C64 0x7C32 ++ protcsegCode 0x7C00)).length) =
        (0x7C45 : Word) := by
    decide +kernel
  have hrun := boot_switches insnBytes sectorImage biosCpu 0x1C 0x1C 0x7C4C 0x7C64 0x7C32 realMode_bios
    bootSector_image
  rwa [hend] at hrun

end Jos
