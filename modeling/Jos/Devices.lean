import Mathlib.Logic.Function.Basic
import Jos.CgaInit
import Jos.SerialLog
import Jos.Transcript

/-! The devices behind the ports that the console writes: what they have been told
after `cons_init` and any output. -/

namespace Jos

def COM_DLL : Nat := 0
def COM_DLM : Nat := 1
def COM_IER : Nat := 1
def COM_IER_RDI : Byte := 0x01
def COM_FCR : Nat := 2
def COM_LCR : Nat := 3
def COM_LCR_DLAB : Byte := 0x80
def COM_LCR_WLEN8 : Byte := 0x03
def COM_MCR : Nat := 4

/-- `lsr` is what `COM_LSR` returns. With the value of `serial_exists`. -/
def serialInit (lsr : Byte) (con : Console) : Bool × Console :=
  let con := con.outb (COM1 + COM_FCR) 0
  let con := con.outb (COM1 + COM_LCR) COM_LCR_DLAB
  let con := con.outb (COM1 + COM_DLL) (BitVec.ofNat 8 (115200 / 9600))
  let con := con.outb (COM1 + COM_DLM) 0
  let con := con.outb (COM1 + COM_LCR) (COM_LCR_WLEN8 &&& ~~~COM_LCR_DLAB)
  let con := con.outb (COM1 + COM_MCR) 0
  let con := con.outb (COM1 + COM_IER) COM_IER_RDI
  (lsr ≠ 0xFF, con)

/-- A byte on the line, with the divisor and the line control it is sent under. -/
structure Frame where
  data : Byte
  dll : Byte
  dlm : Byte
  lcr : Byte
  deriving DecidableEq

structure Uart where
  dll : Byte
  dlm : Byte
  ier : Byte
  fcr : Byte
  lcr : Byte
  mcr : Byte
  sent : List Frame

namespace Uart

def transmit (u : Uart) (b : Byte) : Uart :=
  { u with sent := u.sent ++ [⟨b, u.dll, u.dlm, u.lcr⟩] }

/-- The first two ports lead to the divisor latch while `COM_LCR_DLAB` is set. -/
def outb (u : Uart) (port : Nat) (b : Byte) : Uart :=
  if port = COM1 + COM_TX then
    if u.lcr &&& COM_LCR_DLAB ≠ 0 then { u with dll := b } else u.transmit b
  else if port = COM1 + COM_IER then
    if u.lcr &&& COM_LCR_DLAB ≠ 0 then { u with dlm := b } else { u with ier := b }
  else if port = COM1 + COM_FCR then { u with fcr := b }
  else if port = COM1 + COM_LCR then { u with lcr := b }
  else if port = COM1 + COM_MCR then { u with mcr := b }
  else u

end Uart

structure Printer where
  data : Byte
  control : Byte
  printed : List Byte

/-- The strobe, bit 0 of the control port, prints the data when it goes up. -/
def Printer.outb (p : Printer) (port : Nat) (b : Byte) : Printer :=
  if port = LPT1 + 0 then { p with data := b }
  else if port = LPT1 + 2 then
    { p with
      control := b
      printed := if p.control &&& 0x01 = 0 ∧ b &&& 0x01 ≠ 0 then p.printed ++ [p.data] else p.printed }
  else p

/-- The 6845. -/
structure Crtc where
  index : Byte
  regs : Byte → Byte

namespace Crtc

def outb (base : Nat) (r : Crtc) (port : Nat) (b : Byte) : Crtc :=
  if port = base then { r with index := b }
  else if port = base + 1 then { r with regs := Function.update r.regs r.index b }
  else r

/-- What `cga_init` finds there. -/
def display (cga : Bool) (r : Crtc) : Display :=
  ⟨cga, r.regs 14, r.regs 15⟩

end Crtc

section Heard

variable {δ : Type*} (outb : δ → Nat → Byte → δ)

def Console.heard (d : δ) (con : Console) : δ :=
  con.out.foldl (fun d w => outb d w.1 w.2) d

variable {outb}

@[simp] theorem heard_outb (d : δ) (con : Console) (port : Nat) (b : Byte) :
    (con.outb port b).heard outb d = outb (con.heard outb d) port b := by
  simp [Console.heard, Console.outb]

theorem heard_congr {con con' : Console} (h : con'.out = con.out) (d : δ) :
    con'.heard outb d = con.heard outb d := by
  rw [Console.heard, h, Console.heard]

variable (outb) in
/-- Each character comes to the device once, and it pays no heed to the 6845. -/
structure Takes (ready : δ → Prop) (putc : δ → Byte → δ) : Prop where
  char : ∀ d con c, ready (con.heard outb d) →
    (lptPutc c (serialPutc c con)).heard outb d = putc (con.heard outb d) (c.setWidth 8)
  deaf : ∀ d con, (cgaCursor con).heard outb d = con.heard outb d
  ready : ∀ d b, ready d → ready (putc d b)

namespace Takes

variable {ready : δ → Prop} {putc : δ → Byte → δ} (h : Takes outb ready putc)

include h

theorem finish (d : δ) (con : Console) :
    (cgaCursor (cgaScroll con)).heard outb d = con.heard outb d := by
  rw [h.deaf, heard_congr (cgaScroll_out con)]

theorem consPutc_of_ne_tab {c : Word} (hc : c &&& 0xFF ≠ 0x09) {d : δ} {con : Console}
    (hready : ready (con.heard outb d)) :
    (consPutc c con).heard outb d = putc (con.heard outb d) (c.setWidth 8) := by
  have hscreen : ∀ con, (cgaPutc c con).heard outb d = con.heard outb d := by
    intro con
    rw [cgaPutc]
    simp only [withAttr_char]
    rw [h.finish]
    split_ifs <;> rfl
  rw [consPutc, hscreen, h.char d con c hready]

theorem foldl_ready (bs : List Byte) {d : δ} (hready : ready d) : ready (bs.foldl putc d) := by
  induction bs generalizing d with
  | nil => exact hready
  | cons b bs ih => exact ih (h.ready d b hready)

theorem blanks {d : δ} (n : Nat) {con : Console} (hready : ready (con.heard outb d)) :
    ((consPutc 0x20)^[n] con).heard outb d = (List.replicate n 0x20).foldl putc (con.heard outb d) := by
  induction n generalizing con with
  | zero => rfl
  | succ n ih =>
    have hblank := h.consPutc_of_ne_tab (c := 0x20) (by decide) hready
    rw [Function.iterate_succ_apply, ih (hblank ▸ h.ready _ _ hready), hblank, List.replicate_succ,
      List.foldl_cons]
    rfl

theorem cputchar {d : δ} {con : Console} (hready : ready (con.heard outb d)) (c : Word) :
    (cputchar c con).heard outb d = (sentFor c).foldl putc (con.heard outb d) := by
  rw [Jos.cputchar, sentFor]
  split_ifs with hc
  · have hfirst := h.char d con c hready
    have hblanks := h.blanks 5 (hfirst ▸ h.ready _ _ hready)
    rw [consPutc, cgaPutc_tab hc, h.finish, List.foldl_cons, ← hfirst]
    exact hblanks
  · exact h.consPutc_of_ne_tab hc hready

theorem cputs {d : δ} {con : Console} (hready : ready (con.heard outb d)) (cs : List Word) :
    (cputs cs con).heard outb d = (cs.flatMap sentFor).foldl putc (con.heard outb d) := by
  induction cs generalizing con with
  | nil => rfl
  | cons c cs ih =>
    have hfirst := h.cputchar hready c
    have hrest := ih (hfirst ▸ h.foldl_ready _ hready)
    rw [List.flatMap_cons, List.foldl_append, ← hfirst]
    exact hrest

end Takes

end Heard

theorem uart_takes : Takes Uart.outb (fun u => u.lcr &&& COM_LCR_DLAB = 0) Uart.transmit := by
  refine ⟨fun u con c hready => ?_, fun u con => ?_, fun u b hready => hready⟩
  · simp [lptPutc, serialPutc, Uart.outb, COM1, COM_TX, COM_IER, COM_FCR, COM_LCR, COM_MCR, LPT1, hready]
  · cases hcon : con.adapter <;>
      simp [cgaCursor, Console.addr6845, hcon, Uart.outb, COM1, COM_TX, COM_IER, COM_FCR, COM_LCR,
        COM_MCR, CGA_BASE, MONO_BASE]

def Printer.print (p : Printer) (b : Byte) : Printer :=
  { p with data := b, control := 0x08, printed := p.printed ++ [b] }

theorem printer_takes : Takes Printer.outb (fun p => p.control &&& 0x01 = 0) Printer.print := by
  refine ⟨fun p con c hready => ?_, fun p con => ?_, fun p b _ => by simp [Printer.print]⟩
  · simp [lptPutc, serialPutc, Printer.outb, Printer.print, COM1, COM_TX, LPT1]
    exact hready
  · cases hcon : con.adapter <;> simp [cgaCursor, Console.addr6845, hcon, Printer.outb, LPT1,
      CGA_BASE, MONO_BASE]

theorem Uart.foldl_transmit (bs : List Byte) (u : Uart) :
    bs.foldl transmit u = { u with sent := u.sent ++ bs.map (⟨·, u.dll, u.dlm, u.lcr⟩) } := by
  induction bs generalizing u with
  | nil => simp
  | cons b bs ih => simp [ih, transmit]

theorem Printer.foldl_print (bs : List Byte) (p : Printer) :
    (bs.foldl print p).printed = p.printed ++ bs := by
  induction bs generalizing p with
  | nil => simp
  | cons b bs ih => simp [ih, print]

theorem cgaCursor_display {con : Console} (hpos : con.crtPos < 2 ^ 16) (cga : Bool) (r : Crtc) :
    (((cgaCursor con).heard (Crtc.outb con.addr6845) r).display cga).cursor = con.crtPos := by
  have hdiv : con.crtPos / 2 ^ 8 < 2 ^ 8 := Nat.div_lt_of_lt_mul hpos
  have hboth : 2 ^ 8 * (con.crtPos / 2 ^ 8) + con.crtPos % 2 ^ 8 = con.crtPos := Nat.div_add_mod _ _
  cases hcon : con.adapter <;>
    simp [cgaCursor, Crtc.outb, Crtc.display, Display.cursor, Console.addr6845, hcon, CGA_BASE,
      MONO_BASE]
  all_goals
    rw [Nat.shiftRight_eq_div_pow]
    omega

/-- The console sends the 6845 its cursor. -/
structure Wired (r : Crtc) (con con' : Console) : Prop where
  adapter : con'.adapter = con.adapter
  pos : con'.crtPos < 2 ^ 16
  cursor : ∀ cga, ((con'.heard (Crtc.outb con.addr6845) r).display cga).cursor = con'.crtPos

theorem addr6845_congr {con con' : Console} (h : con'.adapter = con.adapter) :
    con'.addr6845 = con.addr6845 := by
  simp only [Console.addr6845, h]

theorem cgaCursor_crtPos (con : Console) : (cgaCursor con).crtPos = con.crtPos := rfl

variable {r : Crtc}

theorem finish_wired {con : Console} (hpos : con.crtPos < 2 ^ 16) :
    Wired r con (cgaCursor (cgaScroll con)) := by
  have hcols : CRT_COLS = 80 := rfl
  have hend := finish_crtPos con
  have hlt : (cgaScroll con).crtPos < 2 ^ 16 := by
    rw [← cgaCursor_crtPos, hend]
    split_ifs <;> omega
  refine ⟨(drawn_finish con).adapter, hlt, fun cga => ?_⟩
  rw [← addr6845_congr (drawn_cgaScroll con).adapter, cgaCursor_display hlt, cgaCursor_crtPos]

theorem Wired.of_eq {con con₁ con' : Console} (h : Wired r con₁ con')
    (hadapter : con₁.adapter = con.adapter) :
    Wired r con con' :=
  ⟨h.adapter.trans hadapter, h.pos, addr6845_congr hadapter ▸ h.cursor⟩

theorem consPutc_wired_of_ne_tab {c : Word} (hc : c &&& 0xFF ≠ 0x09) {con : Console}
    (hpos : con.crtPos < 2 ^ 16) :
    Wired r con (consPutc c con) := by
  have hcols : CRT_COLS = 80 := rfl
  rw [consPutc, cgaPutc]
  simp only [withAttr_char]
  refine Wired.of_eq (finish_wired ?_) ?_
  · split_ifs
    all_goals simp [Console.putCell, lptPutc, serialPutc, Console.outb, hcols]
    all_goals omega
  · split_ifs <;> rfl

theorem blanks_wired (n : Nat) (con : Console) (hpos : con.crtPos < 2 ^ 16) :
    ((consPutc 0x20)^[n] con).adapter = con.adapter ∧ ((consPutc 0x20)^[n] con).crtPos < 2 ^ 16 := by
  induction n generalizing con with
  | zero => exact ⟨rfl, hpos⟩
  | succ n ih =>
    have hblank := consPutc_wired_of_ne_tab (r := ⟨0, fun _ => 0⟩) (c := 0x20) (by decide) hpos
    obtain ⟨hadapter, hlt⟩ := ih _ hblank.pos
    exact ⟨hadapter.trans hblank.adapter, hlt⟩

theorem cputchar_wired {con : Console} (hpos : con.crtPos < 2 ^ 16) (c : Word) :
    Wired r con (cputchar c con) := by
  by_cases hc : c &&& 0xFF = 0x09
  · obtain ⟨hadapter, hlt⟩ := blanks_wired 5 (lptPutc c (serialPutc c con)) hpos
    rw [cputchar, consPutc, cgaPutc_tab hc]
    exact (finish_wired hlt).of_eq hadapter
  · exact consPutc_wired_of_ne_tab hc hpos

theorem Wired.cputs {con : Console} (h : Wired r con con) (cs : List Word) :
    Wired r con (cputs cs con) := by
  induction cs using List.reverseRecOn with
  | nil => exact h
  | append_singleton cs c ih =>
    rw [cputs_append, cputs_singleton]
    exact (cputchar_wired ih.pos c).of_eq ih.adapter

structure Devices where
  uart : Uart
  printer : Printer
  crtc : Crtc

def Devices.after (d : Devices) (con : Console) : Devices :=
  ⟨con.heard Uart.outb d.uart, con.heard Printer.outb d.printer,
    con.heard (Crtc.outb con.addr6845) d.crtc⟩

/-- The console that `cons_init` leaves. -/
def Devices.boot (d : Devices) (cga : Bool) (m : Memory) (lsr : Byte) : Bool × Console :=
  serialInit lsr (cgaInit (d.crtc.display cga) m)

theorem cgaInit_out (hw : Display) (m : Memory) :
    (cgaInit hw m).out = [((cgaInit hw m).addr6845, 14), ((cgaInit hw m).addr6845, 15)] := by
  rw [cgaInit]
  dsimp only
  split_ifs <;> rfl

section Init

variable (lsr : Byte) (con : Console)

theorem serialInit_pos : (serialInit lsr con).2.crtPos = con.crtPos := rfl

theorem serialInit_addr6845 : (serialInit lsr con).2.addr6845 = con.addr6845 := rfl

theorem serialInit_uart (u : Uart) : (serialInit lsr con).2.heard Uart.outb u =
    ⟨12, 0, COM_IER_RDI, 0, COM_LCR_WLEN8, 0, (con.heard Uart.outb u).sent⟩ := by
  simp [serialInit, Uart.outb, COM1, COM_TX, COM_DLL, COM_DLM, COM_IER, COM_FCR, COM_LCR, COM_MCR,
    COM_LCR_DLAB, COM_LCR_WLEN8]

theorem serialInit_printer (p : Printer) :
    (serialInit lsr con).2.heard Printer.outb p = con.heard Printer.outb p := by
  simp [serialInit, Printer.outb, COM1, COM_DLL, COM_DLM, COM_IER, COM_FCR, COM_LCR, COM_MCR, LPT1]

theorem serialInit_crtc (r : Crtc) : (serialInit lsr con).2.heard (Crtc.outb con.addr6845) r =
    con.heard (Crtc.outb con.addr6845) r := by
  cases hadapter : con.adapter <;>
    simp [serialInit, Console.addr6845, hadapter, Crtc.outb, COM1, COM_DLL, COM_DLM, COM_IER,
      COM_FCR, COM_LCR, COM_MCR, CGA_BASE, MONO_BASE]

variable (hw : Display) (m : Memory)

theorem cgaInit_uart (u : Uart) : (cgaInit hw m).heard Uart.outb u = u := by
  rw [Console.heard, cgaInit_out]
  cases hadapter : (cgaInit hw m).adapter <;>
    simp [Console.addr6845, hadapter, Uart.outb, COM1, COM_TX, COM_IER, COM_FCR, COM_LCR, COM_MCR,
      CGA_BASE, MONO_BASE]

theorem cgaInit_printer (p : Printer) : (cgaInit hw m).heard Printer.outb p = p := by
  rw [Console.heard, cgaInit_out]
  cases hadapter : (cgaInit hw m).adapter <;>
    simp [Console.addr6845, hadapter, Printer.outb, LPT1, CGA_BASE, MONO_BASE]

theorem cgaInit_crtc (r : Crtc) :
    (cgaInit hw m).heard (Crtc.outb (cgaInit hw m).addr6845) r = { r with index := 15 } := by
  rw [Console.heard, cgaInit_out]
  simp [Crtc.outb]

end Init

theorem Devices.boot_wired (d : Devices) (cga : Bool) (m : Memory) (lsr : Byte) :
    Wired d.crtc (d.boot cga m lsr).2 (d.boot cga m lsr).2 := by
  have hpos : (d.boot cga m lsr).2.crtPos = (d.crtc.display cga).cursor :=
    (serialInit_pos lsr _).trans (cgaInit_crtPos _ m)
  refine ⟨rfl, hpos ▸ Display.cursor_lt _, fun cga' => ?_⟩
  rw [hpos, Devices.boot, serialInit_addr6845, serialInit_crtc, cgaInit_crtc]
  rfl

section Said

variable (d : Devices) (cga : Bool) (m : Memory) (lsr : Byte) (said : List Word)

theorem Devices.boot_line : (d.after (cputs said (d.boot cga m lsr).2)).uart.sent =
    d.uart.sent ++ (said.flatMap sentFor).map (⟨·, 12, 0, COM_LCR_WLEN8⟩) := by
  have huart : (d.boot cga m lsr).2.heard Uart.outb d.uart =
    ⟨12, 0, COM_IER_RDI, 0, COM_LCR_WLEN8, 0, d.uart.sent⟩ := by
    rw [Devices.boot, serialInit_uart, cgaInit_uart]
  have hready : ((d.boot cga m lsr).2.heard Uart.outb d.uart).lcr &&& COM_LCR_DLAB = 0 := by
    rw [huart]
    exact (by decide : COM_LCR_WLEN8 &&& COM_LCR_DLAB = 0)
  have hline := uart_takes.cputs hready said
  rw [huart, Uart.foldl_transmit] at hline
  exact congrArg Uart.sent hline

theorem Devices.boot_paper (hstrobe : d.printer.control &&& 0x01 = 0) :
    (d.after (cputs said (d.boot cga m lsr).2)).printer.printed =
      d.printer.printed ++ said.flatMap sentFor := by
  have hprinter : (d.boot cga m lsr).2.heard Printer.outb d.printer = d.printer := by
    rw [Devices.boot, serialInit_printer, cgaInit_printer]
  have hpaper := printer_takes.cputs (d := d.printer) (hprinter.symm ▸ hstrobe) said
  rw [hprinter] at hpaper
  exact (congrArg Printer.printed hpaper).trans (Printer.foldl_print _ _)

theorem Devices.boot_cursor (cga' : Bool) (m' : Memory) :
    (cgaInit ((d.after (cputs said (d.boot cga m lsr).2)).crtc.display cga') m').crtPos =
      (cputs said (d.boot cga m lsr).2).crtPos := by
  have hwired := (d.boot_wired cga m lsr).cputs said
  have hcursor := hwired.cursor cga'
  rw [← addr6845_congr hwired.adapter] at hcursor
  exact (cgaInit_crtPos _ m').trans hcursor

end Said

/-- Whatever is said, the line carries it at 9600 baud, the printer prints the same,
and the next `cga_init` finds the cursor where it is. -/
theorem console_drives_devices (d : Devices) (hstrobe : d.printer.control &&& 0x01 = 0) (cga : Bool)
    (m : Memory) (lsr : Byte) (said : List Word) :
    let con := cputs said (d.boot cga m lsr).2
    (d.after con).uart.sent = d.uart.sent ++ (said.flatMap sentFor).map (⟨·, 12, 0, COM_LCR_WLEN8⟩) ∧
      (d.after con).printer.printed = d.printer.printed ++ said.flatMap sentFor ∧
      ∀ cga' m', (cgaInit ((d.after con).crtc.display cga') m').crtPos = con.crtPos :=
  ⟨d.boot_line cga m lsr said, d.boot_paper cga m lsr said hstrobe, d.boot_cursor cga m lsr said⟩

def idleDevices : Devices :=
  ⟨⟨0, 0, 0, 0, COM_LCR_DLAB, 0, []⟩, ⟨0, 0, []⟩, ⟨0, fun _ => 0⟩⟩

/-- A tab, on a line that was left with its latch open. -/
theorem console_drives_devices_tab :
    let con := cputs [0x09] (idleDevices.boot true ⟨fun _ => 0, []⟩ 0).2
    (idleDevices.after con).uart.sent =
        idleDevices.uart.sent ++ ([(0x09 : Word)].flatMap sentFor).map (⟨·, 12, 0, COM_LCR_WLEN8⟩) ∧
      (idleDevices.after con).printer.printed =
        idleDevices.printer.printed ++ [(0x09 : Word)].flatMap sentFor ∧
      ∀ cga' m', (cgaInit ((idleDevices.after con).crtc.display cga') m').crtPos = con.crtPos :=
  console_drives_devices idleDevices (by decide) true ⟨fun _ => 0, []⟩ 0 [0x09]

end Jos
