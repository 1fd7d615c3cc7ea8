import Jos.Readline
import Jos.Rounding
import Jos.Runcmd
import Jos.Transcript

/-! `kern/monitor.c` in the memory of the kernel: the line that `readline` keeps
is cut up where it is, and what is printed is read from there. -/

namespace Jos

/-- The strings that are passed by address. -/
def literals : List CString :=
  cstr "K> " :: commands.flatMap (fun cmd => [cmd.name, cmd.desc]) ++
    (List.range MAXERROR).filterMap errorText

/-- `s` is at `p`, and no byte of it is in the buffer at `buf`. -/
structure Placed (byte : Nat → Byte) (buf : Nat) (s : CString) (p : Word) : Prop where
  nonnull : p ≠ 0
  fits : p.toNat + s.object.length ≤ 2 ^ 32
  apart : p.toNat + s.object.length ≤ buf ∨ buf + BUFLEN ≤ p.toNat
  bytes : ∀ i (h : i < s.object.length), byte (p.toNat + i) = s.object[i]

/-- The addresses the linker gives to the kernel's parts, in their order. -/
structure Symbols where
  entry : Word
  etext : Word
  edata : Word
  end_ : Word
  base : KERNBASE ≤ entry.toNat
  text : entry.toNat ≤ etext.toNat
  data : etext.toNat ≤ edata.toNat
  bss : edata.toNat ≤ end_.toNat

/-- The calls of `mon_kerninfo`. `_start` is the physical address of `entry`. -/
def Symbols.report (s : Symbols) : List (CString × List Word) :=
  let kernbase := BitVec.ofNat 32 KERNBASE
  [(cstr "Special kernel symbols:\n", []),
    (cstr "  _start                  %08x (phys)\n", [s.entry - kernbase]),
    (cstr "  entry  %08x (virt)  %08x (phys)\n", [s.entry, s.entry - kernbase]),
    (cstr "  etext  %08x (virt)  %08x (phys)\n", [s.etext, s.etext - kernbase]),
    (cstr "  edata  %08x (virt)  %08x (phys)\n", [s.edata, s.edata - kernbase]),
    (cstr "  end    %08x (virt)  %08x (phys)\n", [s.end_, s.end_ - kernbase]),
    (cstr "Kernel executable memory footprint: %dKB\n", [(ROUNDUP (s.end_ - s.entry) 1024).sdiv 1024])]

/-- The kernel in memory, with the `buf` of `readline` left out. `argv` is what the
array of `runcmd` holds before it is set. -/
structure Kernel where
  byte : Nat → Byte
  buf : Nat
  literal : CString → Word
  symbols : Symbols
  argv : Nat → Nat
  buf_pos : 0 < buf
  buf_fits : buf + BUFLEN ≤ 2 ^ 32
  placed : ∀ s ∈ literals, Placed byte buf s (literal s)

namespace Kernel

variable (k : Kernel)

def memory (line : Nat → Byte) : Memory :=
  ⟨fun a => if k.buf ≤ a ∧ a < k.buf + BUFLEN then line (a - k.buf) else k.byte a, []⟩

theorem placed_prefix {s : CString} {p : Word} (h : Placed k.byte k.buf s p) (line : Nat → Byte) :
    s.object <+: (k.memory line).view p.toNat (2 ^ 32 - p.toNat) := by
  obtain ⟨-, hfits, hapart, hbytes⟩ := h
  have hview : (k.memory line).view p.toNat s.object.length = s.object := by
    refine List.ext_getElem (by simp) fun i _ hi => ?_
    have hout : ¬ (k.buf ≤ p.toNat + i ∧ p.toNat + i < k.buf + BUFLEN) := by omega
    rw [Memory.view_getElem, ← hbytes i hi]
    exact if_neg hout
  rw [← hview]
  exact Memory.view_prefix _ _ (by omega)

theorem errorText_literal {i : Nat} (hi : i < MAXERROR) {s : CString} (hs : errorText i = some s) :
    s ∈ literals :=
  List.mem_append_right _ (List.mem_filterMap.mpr ⟨i, List.mem_range.mpr hi, hs⟩)

/-- What the formatter reads while the buffer holds `line`. -/
def rom (line : Nat → Byte) : Rom where
  bytes p := (k.memory line).view p.toNat (2 ^ 32 - p.toNat)
  errorString i := (errorText i).elim 0 k.literal
  errorString_none i _ h := by rw [h]; rfl
  errorString_some i hi s hs := by
    rw [Option.mem_def] at hs
    rw [hs]
    exact ⟨(k.placed s (errorText_literal hi hs)).nonnull,
      k.placed_prefix (k.placed s (errorText_literal hi hs)) line⟩

end Kernel

/-- `cprintf(fmt, ...);` -/
def prints (rom : Rom) (con : Console) (call : CString × List Word) : Option Console :=
  (cprintf rom call.1 call.2 con).map fun r => r.2.console

/-- `readline(prompt)` up to its loop. -/
def startReading (rom : Rom) (prompt : Word) (buf : Nat → Byte) (con : Console) : Option Reading :=
  (if prompt ≠ 0 then prints rom con (cstr "%s", [prompt]) else some con).map fun con => ⟨buf, 0, con⟩

theorem readline_eq (rom : Rom) (prompt : Word) (cs : List Int) (buf : Nat → Byte) (con : Console) :
    readline rom prompt cs buf con =
      (startReading rom prompt buf con).bind (readlineLoop rom (iscons 0) cs) := by
  rw [startReading, Option.bind_map]
  rfl

namespace Kernel

variable (k : Kernel)

def monHelp (rom : Rom) (con : Console) : Option (Int × Console) :=
  (commands.foldlM (fun con cmd =>
    prints rom con (cstr "%s - %s\n", [k.literal cmd.name, k.literal cmd.desc])) con).map (0, ·)

def monKerninfo (rom : Rom) (con : Console) : Option (Int × Console) :=
  (k.symbols.report.foldlM (prints rom) con).map (0, ·)

/-- What `runcmd` returns, once what it comes to has been printed or called. -/
def perform (rom : Rom) (con : Console) : Outcome → Option (Int × Console)
  | .returns ret printed => (printed.foldlM (prints rom) con).map (ret, ·)
  | .calls .monHelp _ _ => k.monHelp rom con
  | .calls .monKerninfo _ _ => k.monKerninfo rom con

/-- `runcmd(buf, tf)`: what it returns, what it leaves of the line, and the console. -/
def runcmd (line : Nat → Byte) (con : Console) : Option (Int × (Nat → Byte) × Console) :=
  (Jos.runcmd BUFLEN (k.memory line) k.buf k.argv).bind fun (mem, out) =>
  let line := fun i => mem.byte (k.buf + i)
  (k.perform (k.rom line) con out).map fun (ret, con) => (ret, line, con)

def prompt (line : Nat → Byte) (con : Console) : Option Reading :=
  startReading (k.rom line) (k.literal (cstr "K> ")) line con

/-- `monitor` from one answer of `getchar` to the next. It leaves when it returns. -/
def monitorTurn (c : Int) (st : Reading) : Option (Turn Reading Reading) :=
  (readlineTurn (k.rom st.buf) (iscons 0) c st).bind fun
  | .again st => some (.again st)
  | .leave (none, con) => (k.prompt st.buf con).map .again
  | .leave (some line, con) => (k.runcmd line con).bind fun (ret, line, con) =>
    if ret < 0 then some (.leave ⟨line, 0, con⟩) else (k.prompt line con).map .again

/-- `monitor` up to its first `getchar`. -/
def monitorStart (line : Nat → Byte) (con : Console) : Option Reading :=
  ([(cstr "Welcome to the JOS kernel monitor!\n", []),
    (cstr "Type 'help' for a list of commands.\n", [])].foldlM (prints (k.rom line)) con).bind
    (k.prompt line)

def monitorLoop : List Int → Reading → Option (Turn Reading Reading)
  | [], st => some (.again st)
  | c :: cs, st => (k.monitorTurn c st).bind fun
    | .leave st => some (.leave st)
    | .again st => monitorLoop cs st

/-- `monitor(tf)`, once `getchar` has answered `cs`. -/
def monitor (cs : List Int) (line : Nat → Byte) (con : Console) : Option (Turn Reading Reading) :=
  (k.monitorStart line con).bind (k.monitorLoop cs)

end Kernel

end Jos
