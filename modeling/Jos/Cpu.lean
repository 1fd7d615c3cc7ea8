import Mathlib.Logic.Function.Basic
import Jos.Paging
import Jos.Segdesc

/-! The processor as far as `boot/boot.S` and `kern/entry.S` set it up: segments,
paging, and the line that cuts addresses off at one megabyte. -/

namespace Jos

def CR0_PE : Word := 0x00000001
def CR0_WP : Word := 0x00010000
def CR0_PG : Word := 0x80000000

inductive SegReg where
  | cs
  | ds
  | es
  | fs
  | gs
  | ss
  deriving DecidableEq

/-- `expecting`: the keyboard controller takes the next byte for its output port, on
which the line `a20` is. A segment register keeps the descriptor it was loaded with. -/
structure Cpu where
  eip : Word
  eax : Word
  ebp : Word
  esp : Word
  interrupts : Bool
  down : Bool
  segs : SegReg → Descriptor
  gdtBase : Word
  gdtLimit : Nat
  cr0 : Word
  cr3 : Word
  expecting : Bool
  a20 : Bool

structure Pc where
  mem : Memory
  cpu : Cpu

/-- The descriptor has been loaded. -/
def STA_A : Word := 0x1

/-- Data that may be written. -/
def Descriptor.Writable (d : Descriptor) : Prop :=
  d.type &&& 0xA = 0x2

instance (d : Descriptor) : Decidable d.Writable :=
  inferInstanceAs (Decidable (_ = _))

/-- The register takes the descriptor, in ring 0. -/
def Descriptor.Loads (d : Descriptor) (r : SegReg) : Prop :=
  d.s = 1 ∧ d.p = 1 ∧ d.dpl = 0 ∧
    match r with
    | .cs => d.type &&& 0x8 ≠ 0
    | .ss => d.Writable
    | _ => d.type &&& 0x8 = 0 ∨ d.type &&& 0x2 ≠ 0

instance (d : Descriptor) (r : SegReg) : Decidable (d.Loads r) := by
  unfold Descriptor.Loads
  cases r <;> infer_instance

/-- A segment of real mode. -/
def realSegment (sel : BitVec 16) : Descriptor where
  base := sel.setWidth 32 <<< 4
  limit := 0xFFFF
  type := 0x3
  s := 1
  dpl := 0
  p := 1
  db := 0

namespace Cpu

def ax (cpu : Cpu) : BitVec 16 :=
  cpu.eax.setWidth 16

def setAx (v : BitVec 16) (cpu : Cpu) : Cpu :=
  { cpu with eax := cpu.eax.extractLsb' 16 16 ++ v }

@[simp] theorem ax_setAx (v : BitVec 16) (cpu : Cpu) : (cpu.setAx v).ax = v := by
  rw [ax, setAx, BitVec.setWidth_append]
  simp

def al (cpu : Cpu) : Byte :=
  cpu.eax.setWidth 8

def setAl (v : Byte) (cpu : Cpu) : Cpu :=
  { cpu with eax := cpu.eax.extractLsb' 8 24 ++ v }

@[simp] theorem al_setAl (v : Byte) (cpu : Cpu) : (cpu.setAl v).al = v := by
  rw [al, setAl, BitVec.setWidth_append]
  simp

/-- The bus, with line 20 tied low until it is enabled. -/
def bus (cpu : Cpu) (pa : Word) : Word :=
  if cpu.a20 then pa else pa &&& ~~~0x100000

def outb (port : Nat) (b : Byte) (cpu : Cpu) : Cpu :=
  if port = 0x64 then { cpu with expecting := b = 0xD1 }
  else if port = 0x60 ∧ cpu.expecting then { cpu with expecting := false, a20 := b &&& 0x2 ≠ 0 }
  else cpu

end Cpu

namespace Pc

def translate (pc : Pc) (r : SegReg) (off : Word) : Option Mapping :=
  let d := pc.cpu.segs r
  if off ≤ d.limit then
    (if pc.cpu.cr0 &&& CR0_PG = 0 then some ⟨d.base + off, true⟩
      else walk pc.mem (PTE_ADDR pc.cpu.cr3).toNat (d.base + off)).map fun mapping =>
        ⟨pc.cpu.bus mapping.pa, (mapping.writable ∨ pc.cpu.cr0 &&& CR0_WP = 0) ∧ d.Writable⟩
  else none

def setSeg (r : SegReg) (d : Descriptor) (pc : Pc) : Pc :=
  { pc with cpu := { pc.cpu with segs := Function.update pc.cpu.segs r d } }

@[simp] theorem setSeg_same (r : SegReg) (d : Descriptor) (pc : Pc) :
    (pc.setSeg r d).cpu.segs r = d := by
  simp [setSeg]

theorem setSeg_of_ne {r r' : SegReg} (h : r' ≠ r) (d : Descriptor) (pc : Pc) :
    (pc.setSeg r d).cpu.segs r' = pc.cpu.segs r' := by
  simp [setSeg, h]

/-- The processor marks a descriptor that it loads, in the table as well. Selectors of
another ring or of a local table fault, and the null selector. The table is read at its
linear address, so no register is loaded here while there is paging. -/
def loadSegment (r : SegReg) (sel : BitVec 16) (pc : Pc) : Option Pc :=
  if pc.cpu.cr0 &&& CR0_PE = 0 then some (pc.setSeg r (realSegment sel))
  else
    let a := pc.cpu.gdtBase.toNat + sel.toNat
    let d := Descriptor.decode (pc.mem.view a 8)
    if pc.cpu.cr0 &&& CR0_PG = 0 ∧ sel &&& 0x7 = 0 ∧ sel ≠ 0 ∧ sel.toNat + 7 ≤ pc.cpu.gdtLimit ∧
        d.Loads r then
      some (Pc.setSeg r { d with type := d.type ||| STA_A.setWidth 4 }
        { pc with mem := pc.mem.store (a + 5) (pc.mem.byte (a + 5) ||| STA_A.setWidth 8) })
    else none

end Pc

/-- `waitKbc` is the loop around `inb $0x64,%al` and `testb $0x2,%al`, and `status`
what it reads last. -/
inductive Insn where
  | cli
  | cld
  | xorAx
  | movAx (v : BitVec 16)
  | movAl (v : Byte)
  | waitKbc (status : Byte)
  | outAl (port : Nat)
  | movEax (v : Word)
  | orEax (v : Word)
  | movEaxCr0
  | movEbp (v : Word)
  | movEsp (v : Word)
  | movSeg (r : SegReg)
  | lgdt (off : Word)
  | movCr0Eax
  | movCr3Eax
  | ljmp (sel : BitVec 16) (off : Word)
  | jmpEax
  | movw (v : BitVec 16) (off : Word)
  deriving DecidableEq

/-- The instructions that neither touch memory nor change how addresses are made. -/
def Insn.act : Insn → Option (Cpu → Cpu)
  | .cli => some fun cpu => { cpu with interrupts := false }
  | .cld => some fun cpu => { cpu with down := false }
  | .xorAx => some fun cpu => cpu.setAx (cpu.ax ^^^ cpu.ax)
  | .movAx v => some (Cpu.setAx v)
  | .movAl v => some (Cpu.setAl v)
  | .waitKbc status => some (Cpu.setAl status)
  | .outAl port => some fun cpu => cpu.outb port cpu.al
  | .movEax v => some fun cpu => { cpu with eax := v }
  | .orEax v => some fun cpu => { cpu with eax := cpu.eax ||| v }
  | .movEaxCr0 => some fun cpu => { cpu with eax := cpu.cr0 }
  | .movEbp v => some fun cpu => { cpu with ebp := v }
  | .movEsp v => some fun cpu => { cpu with esp := v }
  | _ => none

/-- No `mov` loads `%cs`. `lgdt` stands where operands have 16 bits, and loads 24 bits
of the base. -/
def exec (i : Insn) (pc : Pc) : Option Pc :=
  match i with
  | .movSeg r => if r = .cs then none else pc.loadSegment r pc.cpu.ax
  | .lgdt off => (pc.translate .ds off).map fun mapping =>
    { pc with cpu := { pc.cpu with
      gdtLimit := (pc.mem.load16 mapping.pa.toNat).toNat
      gdtBase := pc.mem.load32 (mapping.pa.toNat + 2) &&& 0xFFFFFF } }
  | .movCr0Eax => some { pc with cpu := { pc.cpu with cr0 := pc.cpu.eax } }
  | .movCr3Eax => some { pc with cpu := { pc.cpu with cr3 := pc.cpu.eax } }
  | .ljmp sel off => (pc.loadSegment .cs sel).map fun pc => { pc with cpu := { pc.cpu with eip := off } }
  | .jmpEax => some { pc with cpu := { pc.cpu with eip := pc.cpu.eax } }
  | .movw v off => (pc.translate .ds off).bind fun mapping =>
    if mapping.writable then some { pc with mem := pc.mem.store16 mapping.pa.toNat v } else none
  | i => i.act.map fun f => { pc with cpu := f pc.cpu }

section Exec

variable (pc : Pc) (r : SegReg) (sel : BitVec 16) (off : Word)

theorem exec_movSeg (hr : r ≠ .cs) : exec (.movSeg r) pc = pc.loadSegment r pc.cpu.ax := if_neg hr

theorem exec_lgdt : exec (.lgdt off) pc = (pc.translate .ds off).map fun mapping =>
    { pc with cpu := { pc.cpu with
      gdtLimit := (pc.mem.load16 mapping.pa.toNat).toNat
      gdtBase := pc.mem.load32 (mapping.pa.toNat + 2) &&& 0xFFFFFF } } := rfl

theorem exec_ljmp : exec (.ljmp sel off) pc =
    (pc.loadSegment .cs sel).map fun pc => { pc with cpu := { pc.cpu with eip := off } } := rfl

theorem exec_movw (v : BitVec 16) : exec (.movw v off) pc = (pc.translate .ds off).bind fun mapping =>
    if mapping.writable then some { pc with mem := pc.mem.store16 mapping.pa.toNat v } else none := rfl

end Exec

namespace Pc

def next (n : Nat) (pc : Pc) : Pc :=
  { pc with cpu := { pc.cpu with eip := pc.cpu.eip + BitVec.ofNat 32 n } }

def byteAt (pc : Pc) (r : SegReg) (off : Word) : Option Byte :=
  (pc.translate r off).map fun mapping => pc.mem.byte mapping.pa.toNat

/-- The bytes of the instruction are those that the processor fetches next. -/
def Fetches (encode : Insn → List Byte) (i : Insn) (pc : Pc) : Prop :=
  ∀ k < (encode i).length, pc.byteAt .cs (pc.cpu.eip + BitVec.ofNat 32 k) = (encode i)[k]?

/-- The low bytes of the entries that walks go through. -/
def EntryAt (pc : Pc) (a : Nat) : Prop :=
  let pgdir := (PTE_ADDR pc.cpu.cr3).toNat
  ∃ i < NPDENTRIES, a = pgdir + 4 * i ∨
    pc.mem.load32 (pgdir + 4 * i) &&& PTE_P ≠ 0 ∧
      ∃ j < NPTENTRIES, a = (PTE_ADDR (pc.mem.load32 (pgdir + 4 * i))).toNat + 4 * j

/-- While there is paging, walks change the accessed and dirty bits of entries. -/
structure Marked (pc pc' : Pc) : Prop where
  cpu : pc'.cpu = pc.cpu
  stores : pc'.mem.stores = pc.mem.stores
  byte : ∀ a, pc'.mem.byte a = pc.mem.byte a ∨
    pc.cpu.cr0 &&& CR0_PG ≠ 0 ∧ pc.EntryAt a ∧
      unmarkedByte (pc'.mem.byte a) = unmarkedByte (pc.mem.byte a)

end Pc

/-- The instructions are fetched from memory one after another and none faults, and
`Q` holds after the last, whatever the walks for each of them change. -/
def RunsTo (encode : Insn → List Byte) : List Insn → (Pc → Prop) → Pc → Prop
  | [], Q, pc => Q pc
  | i :: code, Q, pc => pc.Fetches encode i ∧ ∃ pc₁, exec i (pc.next (encode i).length) = some pc₁ ∧
      ∀ pc₂, pc₁.Marked pc₂ → RunsTo encode code Q pc₂

theorem Pc.Marked.eq_of_unpaged {pc pc' : Pc} (h : pc.Marked pc') (hpaging : pc.cpu.cr0 &&& CR0_PG = 0) :
    pc' = pc := by
  obtain ⟨⟨byte, stores⟩, cpu⟩ := pc
  obtain ⟨⟨byte', stores'⟩, cpu'⟩ := pc'
  obtain rfl : cpu' = cpu := h.cpu
  obtain rfl : stores' = stores := h.stores
  obtain rfl : byte' = byte := funext fun a => (h.byte a).resolve_right fun hmark => hmark.1 hpaging
  rfl

section RunsTo

variable {encode : Insn → List Byte} {i : Insn} {code : List Insn} {Q : Pc → Prop} {pc pc' : Pc}

theorem RunsTo.cons (hfetch : pc.Fetches encode i)
    (hexec : exec i (pc.next (encode i).length) = some pc')
    (hrest : ∀ pc'', pc'.Marked pc'' → RunsTo encode code Q pc'') : RunsTo encode (i :: code) Q pc :=
  ⟨hfetch, pc', hexec, hrest⟩

end RunsTo

end Jos
