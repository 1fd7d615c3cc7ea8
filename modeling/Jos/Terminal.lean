import Jos.Devices
import Jos.System

/-! The machine as a terminal: what the devices are seen to do, in any run, is what the
shell at the desk says. -/

namespace Jos

theorem Shows.cputchar (c : Word) {con : Console} {r : Roll (BitVec 16)} (h : Shows 0 con r) :
    Shows 0 (cputchar c con) (rollPutc c r) :=
  (h.consPutc_of_cgaPutc fun _ hh => hh.cgaPutc c).2

theorem Shows.cputs (cs : List Word) {con : Console} {r : Roll (BitVec 16)} (h : Shows 0 con r) :
    Shows 0 (cputs cs con) (cs.foldl (fun r c => rollPutc c r) r) := by
  induction cs generalizing con r with
  | nil => exact h
  | cons c cs ih => exact ih (h.cputchar c)

/-- What was said since `con₀` is on the line, on paper and on the screen. -/
structure Devices.Displays (d : Devices) (con₀ : Console) (said : List Word) (con : Console) : Prop where
  line : (d.after con).uart.sent = d.uart.sent ++ (said.flatMap sentFor).map (⟨·, 12, 0, COM_LCR_WLEN8⟩)
  paper : (d.after con).printer.printed = d.printer.printed ++ said.flatMap sentFor
  cursor : ∀ cga m, (cgaInit ((d.after con).crtc.display cga) m).crtPos = con.crtPos
  screen : Shows 0 con (said.foldl (fun r c => rollPutc c r) (rollStart con₀))

theorem Devices.boot_displays (d : Devices) (hstrobe : d.printer.control &&& 0x01 = 0) {cga : Bool}
    (hpos : (d.crtc.display cga).cursor < CRT_SIZE) (m : Memory) (lsr : Byte) (said : List Word) :
    d.Displays (d.boot cga m lsr).2 said (Jos.cputs said (d.boot cga m lsr).2) := by
  refine ⟨d.boot_line cga m lsr said, d.boot_paper cga m lsr said hstrobe,
    d.boot_cursor cga m lsr said, ?_⟩
  refine (shows_start ?_).cputs said
  rwa [Devices.boot, serialInit_pos, cgaInit_crtPos]

def Desk.saidIn : Turn Desk (List Word) → List Word
  | .again desk => desk.said
  | .leave said => said

def System.consoleIn : Turn System Console → Console
  | .again m => m.reading.con
  | .leave con => con

theorem Follows.consoleIn {con : Console} {r : Turn System Console} {r' : Turn Desk (List Word)}
    (h : r.Rel (Follows con) (FollowsLeft con) r') :
    System.consoleIn r = Jos.cputs (Desk.saidIn r') con := by
  cases r with
  | again m => cases r' with
    | again desk =>
      have hfollows : Follows con m desk := h
      exact hfollows.said
    | leave said => exact h.elim
  | leave con' => cases r' with
    | again desk => exact h.elim
    | leave said => exact h

namespace Kernel

variable (k : Kernel)

/-- Whatever the order of bytes, interrupts and polls: up to a reboot, and with it. -/
theorem system_displays (d : Devices) (hstrobe : d.printer.control &&& 0x01 = 0) (cga : Bool)
    (hpos : (d.crtc.display cga).cursor < CRT_SIZE) (mem : Memory) (lsr : Byte) (line : Nat → Byte)
    (es : List Input) (r' : Turn Desk (List Word))
    (hdesk : run (k.deskStep (d.boot cga mem lsr).1) es (.start (d.boot cga mem lsr).1) = some r') :
    ∃ m r, k.bootSystem (d.boot cga mem lsr).1 line (d.boot cga mem lsr).2 = some m ∧
      run (k.systemStep (d.boot cga mem lsr).1) es m = some r ∧
      d.Displays (d.boot cga mem lsr).2 (Desk.saidIn r') (System.consoleIn r) := by
  obtain ⟨m, hboot, hm⟩ := k.bootSystem_follows (d.boot cga mem lsr).1 line (d.boot cga mem lsr).2
  obtain ⟨r, hrun, hrel⟩ := hm.run k (d.boot cga mem lsr).1 es hdesk
  refine ⟨m, r, hboot, hrun, ?_⟩
  rw [Follows.consoleIn hrel]
  exact d.boot_displays hstrobe hpos mem lsr (Desk.saidIn r')

theorem system_displays_hi :
    ∃ m r, sample.bootSystem (idleDevices.boot true ⟨fun _ => 0, []⟩ 0).1 (fun _ => 0)
        (idleDevices.boot true ⟨fun _ => 0, []⟩ 0).2 = some m ∧
      run (sample.systemStep (idleDevices.boot true ⟨fun _ => 0, []⟩ 0).1) sampleInputs m = some r ∧
      idleDevices.Displays (idleDevices.boot true ⟨fun _ => 0, []⟩ 0).2 (Desk.saidIn (.again sampleDesk))
        (System.consoleIn r) :=
  system_displays sample idleDevices (by decide) true (by decide) ⟨fun _ => 0, []⟩ 0 (fun _ => 0)
    sampleInputs (.again sampleDesk) sample_run

end Kernel

end Jos
