import Jos.Init
import Jos.InputQueue
import Jos.KbdQueue
import Jos.Runs

/-! The kernel between its keyboard, its serial line and its screen, from event to
event, and a desk where it is used: there the characters wait in one queue and a
shell answers them. The two part when the queue outgrows the ring of `cons`. -/

namespace Jos

/-- `serial_proc_data`; `uart` are the bytes that are still to be read. -/
def serialProcData : List Byte → Option Byte × List Byte
  | [] => (none, [])
  | b :: uart => (some b, uart)

/-- The loop of `cons_intr`, with `serial_proc_data` for its `proc`. -/
def serialTurn (st : List Byte × Cons) : Option (Turn (List Byte × Cons) (List Byte × Cons)) :=
  some (match serialProcData st.1 with
    | (none, uart) => .leave (uart, st.2)
    | (some c, uart) => .again (uart, if c = 0 then st.2 else consStore c st.2))

def serialIntrCall (serialExists : Bool) (st : List Byte × Cons) : Option (List Byte × Cons) :=
  if serialExists then loop serialTurn (st.1.length + 1) st else some st

structure System where
  kbd : Kbd
  uart : List Byte
  cons : Cons
  reading : Reading

/-- A byte arrives at one of the two devices, a device interrupts, or the loop of
`getchar` takes a turn. -/
inductive Input where
  | scan (b : PortByte)
  | serial (b : Byte)
  | kbdIntr
  | serialIntr
  | getchar

namespace Kernel

variable (k : Kernel)

/-- The reset leaves what is on the screen. -/
def kbdIntr (m : System) : Option (Turn System Console) :=
  (kbdIntrCall (m.kbd, m.cons)).bind fun (kbd, cons) =>
    if kbd.reboots = m.kbd.reboots then some (.again { m with kbd := kbd, cons := cons })
    else (prints (k.rom m.reading.buf) m.reading.con (cstr "Rebooting!\n", [])).map .leave

def serialIntr (serialExists : Bool) (m : System) : Option System :=
  (serialIntrCall serialExists (m.uart, m.cons)).map fun (uart, cons) =>
    { m with uart := uart, cons := cons }

/-- What follows the polls in `cons_getc`, and then `monitor` up to its next
`getchar`. When `monitor` returns, `i386_init` calls it again. -/
def answer (m : System) : Option (Turn System Console) :=
  let got := consTake m.cons
  let m := { m with cons := got.2 }
  if got.1 = 0 then some (.again m)
  else (k.monitorTurn got.1.toNat m.reading).bind fun
    | .again st => some (.again { m with reading := st })
    | .leave st => (k.monitorStart st.buf st.con).map fun st => .again { m with reading := st }

def systemStep (serialExists : Bool) (m : System) : Input → Option (Turn System Console)
  | .scan b => some (.again { m with kbd := { m.kbd with queue := m.kbd.queue ++ [b] } })
  | .serial b => some (.again { m with uart := m.uart ++ [b] })
  | .kbdIntr => k.kbdIntr m
  | .serialIntr => (serialIntr serialExists m).map .again
  | .getchar => (serialIntr serialExists m).bind fun m => (k.kbdIntr m).bind fun
    | .leave con => some (.leave con)
    | .again m => k.answer m

def bootSystem (serialExists : Bool) (line : Nat → Byte) (con : Console) : Option System :=
  (k.i386Init serialExists line con).map fun st => ⟨⟨[], 0, 0⟩, [], .zeroed, st⟩

end Kernel

/-- How often the bytes reboot the machine. -/
def rebootsIn : List Byte → Word → Nat
  | [], _ => 0
  | data :: codes, shift =>
    (if (kbdData data shift).reboot then 1 else 0) + rebootsIn codes (kbdData data shift).shift

structure Desk where
  scans : List PortByte
  uart : List Byte
  shift : Word
  waiting : List Byte
  line : List Byte
  said : List Word

namespace Desk

def start (serialExists : Bool) : Desk :=
  ⟨[], [], 0, [], [], bootText serialExists ++ (Kernel.greeting ++ Kernel.promptText)⟩

/-- There is no word on what happens once the ring is full. -/
def queue (d : Desk) (chars : List Byte) : Option Desk :=
  let waiting := d.waiting ++ chars.filter (· ≠ 0)
  if waiting.length < CONSBUFSIZE then some { d with waiting := waiting } else none

def serialIntr (serialExists : Bool) (d : Desk) : Option Desk :=
  if serialExists then ({ d with uart := [] }).queue d.uart else some d

/-- A byte of the mouse keeps back all that is behind it. -/
def kbdIntr (d : Desk) : Option (Turn Desk (List Word)) :=
  let codes := inFront d.scans
  if rebootsIn codes d.shift = 0 then
    ({ d with
      scans := d.scans.dropWhile fun b => !b.fromMouse
      shift := (decode codes d.shift).2 }.queue (decode codes d.shift).1).map .again
  else some (.leave (d.said ++ (cstr "Rebooting!\n").plain))

end Desk

namespace Kernel

variable (k : Kernel)

def deskAnswer (d : Desk) : Desk :=
  match d.waiting with
  | [] => d
  | c :: waiting =>
    let now := k.shellKey d.line c
    { d with waiting := waiting, line := now.1, said := d.said ++ now.2 }

def deskStep (serialExists : Bool) (d : Desk) : Input → Option (Turn Desk (List Word))
  | .scan b => some (.again { d with scans := d.scans ++ [b] })
  | .serial b => some (.again { d with uart := d.uart ++ [b] })
  | .kbdIntr => d.kbdIntr
  | .serialIntr => (d.serialIntr serialExists).map .again
  | .getchar => (d.serialIntr serialExists).bind fun d => d.kbdIntr.bind fun
    | .leave said => some (.leave said)
    | .again d => some (.again (k.deskAnswer d))

end Kernel

def Cons.Waits (cons : Cons) (waiting : List Byte) : Prop :=
  ∃ w r, cons.Holds w r ∧ w.drop r = waiting ∧ ∀ c ∈ waiting, c ≠ 0

theorem Cons.waits_zeroed : Cons.zeroed.Waits [] :=
  ⟨[], 0, Cons.holds_zeroed, rfl, by simp⟩

theorem Cons.Waits.arrive {cons : Cons} {waiting : List Byte} (h : cons.Waits waiting)
    (chars : List Byte) (hroom : (waiting ++ chars.filter (· ≠ 0)).length < CONSBUFSIZE) :
    (consIntr chars cons).Waits (waiting ++ chars.filter (· ≠ 0)) := by
  obtain ⟨w, r, hw, rfl, hne⟩ := h
  have hle := hw.ring.le
  obtain ⟨r', -, hholds, hsame⟩ := hw.arrive true (.kbdIntr chars)
  have hdelivered : (ConsEvent.kbdIntr chars).delivered true = chars.filter (· ≠ 0) := rfl
  rw [hdelivered] at hholds hsame
  simp only [List.length_append, List.length_drop] at hroom hsame
  obtain rfl := hsame (by omega)
  refine ⟨_, r', hholds, by rw [List.drop_append_of_le_length hle], fun c hc => ?_⟩
  rcases List.mem_append.mp hc with hc | hc
  · exact hne c hc
  · simpa using (List.mem_filter.mp hc).2

theorem Cons.Waits.take_nil {cons : Cons} (h : cons.Waits []) : consTake cons = (0, cons) := by
  obtain ⟨w, r, hw, hdrop, -⟩ := h
  rcases hw.take with ⟨-, htake⟩ | ⟨hr, -⟩
  · exact htake
  · exact absurd (List.drop_eq_nil_iff.mp hdrop) (by omega)

theorem Cons.Waits.take_cons {cons : Cons} {c : Byte} {waiting : List Byte}
    (h : cons.Waits (c :: waiting)) :
    (consTake cons).1 = c ∧ c ≠ 0 ∧ (consTake cons).2.Waits waiting := by
  obtain ⟨w, r, hw, hdrop, hne⟩ := h
  rcases hw.take with ⟨hr, -⟩ | ⟨hr, hfirst, hnext, -⟩
  · rw [List.drop_eq_nil_of_le hr.ge] at hdrop
    cases hdrop
  · obtain ⟨hc, hrest⟩ := List.cons_eq_cons.mp ((List.drop_eq_getElem_cons hr).symm.trans hdrop)
    exact ⟨hfirst.trans hc, hne c List.mem_cons_self, w, r + 1, hnext, hrest,
      fun b hb => hne b (List.mem_cons_of_mem _ hb)⟩

theorem serialTurn_loop (uart : List Byte) (cons : Cons) {fuel : Nat} (hfuel : uart.length < fuel) :
    loop serialTurn fuel (uart, cons) = some ([], consIntr uart cons) := by
  induction uart generalizing cons fuel with
  | nil =>
    obtain ⟨fuel, rfl⟩ := Nat.exists_eq_add_one_of_ne_zero (Nat.ne_zero_of_lt hfuel)
    exact loop_leave fuel rfl
  | cons b uart ih =>
    obtain ⟨fuel, rfl⟩ := Nat.exists_eq_add_one_of_ne_zero (Nat.ne_zero_of_lt hfuel)
    have hturn : serialTurn (b :: uart, cons) =
      some (.again (uart, if b = 0 then cons else consStore b cons)) := rfl
    rw [loop_again fuel hturn, ih _ (Nat.lt_of_succ_lt_succ hfuel), consIntr]
    split_ifs <;> rfl

theorem kbdIntrCall_counts {keys rest : List PortByte} (hkeys : ∀ b ∈ keys, b.fromMouse = false)
    (hrest : Stuck rest) (shift : Word) (reboots : Nat) (cons : Cons) {fuel : Nat}
    (hfuel : keys.length < fuel) :
    loop consIntrTurn fuel (⟨keys ++ rest, shift, reboots⟩, cons) =
      some (⟨rest, (decode (keys.map PortByte.data) shift).2,
        reboots + rebootsIn (keys.map PortByte.data) shift⟩,
        consIntr (decode (keys.map PortByte.data) shift).1 cons) := by
  induction keys generalizing shift reboots cons fuel with
  | nil =>
    obtain ⟨fuel, rfl⟩ := Nat.exists_eq_add_one_of_ne_zero (Nat.ne_zero_of_lt hfuel)
    exact loop_leave _ (consIntrTurn_stuck hrest shift reboots cons)
  | cons b keys ih =>
    obtain ⟨fuel, rfl⟩ := Nat.exists_eq_add_one_of_ne_zero (Nat.ne_zero_of_lt hfuel)
    have hturn : consIntrTurn (⟨b :: (keys ++ rest), shift, reboots⟩, cons) =
        some (.again (⟨keys ++ rest, (kbdData b.data shift).shift,
          reboots + if (kbdData b.data shift).reboot then 1 else 0⟩,
            if (kbdData b.data shift).c = 0 then cons
              else consStore (kbdData b.data shift).c cons)) := by
      rw [consIntrTurn, kbdProcData_key (hkeys b List.mem_cons_self)]
    rw [List.cons_append, loop_again fuel hturn,
      ih (fun x hx => hkeys x (List.mem_cons_of_mem _ hx)) _ _ _ (Nat.lt_of_succ_lt_succ hfuel)]
    simp only [List.map_cons, decode, rebootsIn, consIntr, Nat.add_assoc]
    split_ifs <;> rfl

/-- `kbd_intr` decodes what is in front of the first byte of the mouse. -/
theorem kbdIntrCall_eq (scans : List PortByte) (shift : Word) (reboots : Nat) (cons : Cons) :
    kbdIntrCall (⟨scans, shift, reboots⟩, cons) =
      some (⟨scans.dropWhile fun b => !b.fromMouse, (decode (inFront scans) shift).2,
        reboots + rebootsIn (inFront scans) shift⟩, consIntr (decode (inFront scans) shift).1 cons) := by
  have hkeys : ∀ b ∈ scans.takeWhile fun b => !b.fromMouse, b.fromMouse = false :=
    letters_of_mem_takeWhile scans
  have hrest := stuck_dropWhile scans
  have hlen :=
    congrArg List.length (List.takeWhile_append_dropWhile (p := fun b : PortByte => !b.fromMouse)
      (l := scans))
  rw [List.length_append] at hlen
  have hfuel : (scans.takeWhile fun b => !b.fromMouse).length < scans.length + 1 := by omega
  have hloop := kbdIntrCall_counts hkeys hrest shift reboots cons hfuel
  rw [List.takeWhile_append_dropWhile] at hloop
  exact hloop

structure Follows (con : Console) (m : System) (d : Desk) : Prop where
  kbd : m.kbd = ⟨d.scans, d.shift, 0⟩
  uart : m.uart = d.uart
  waits : m.cons.Waits d.waiting
  stored : Stored m.reading d.line
  said : m.reading.con = cputs d.said con

def FollowsLeft (con : Console) (con' : Console) (said : List Word) : Prop :=
  con' = cputs said con

theorem Desk.queue_fits {d : Desk} {chars : List Byte}
    (h : (d.waiting ++ chars.filter (· ≠ 0)).length < CONSBUFSIZE) :
    d.queue chars = some { d with waiting := d.waiting ++ chars.filter (· ≠ 0) } :=
  if_pos h

theorem Desk.queue_some {d d' : Desk} {chars : List Byte} (h : d.queue chars = some d') :
    (d.waiting ++ chars.filter (· ≠ 0)).length < CONSBUFSIZE ∧
      d' = { d with waiting := d.waiting ++ chars.filter (· ≠ 0) } := by
  unfold queue at h
  dsimp only at h
  split_ifs at h with hroom
  exact ⟨hroom, (Option.some.inj h).symm⟩

namespace Follows

variable {con : Console} {m : System} {d : Desk}

theorem serialIntr (h : Follows con m d) {serialExists : Bool} {d' : Desk}
    (hd : d.serialIntr serialExists = some d') :
    ∃ m', Kernel.serialIntr serialExists m = some m' ∧ Follows con m' d' := by
  cases serialExists with
  | false =>
    cases hd
    exact ⟨m, rfl, h⟩
  | true =>
    obtain ⟨hroom, rfl⟩ := Desk.queue_some hd
    have hcall : serialIntrCall true (m.uart, m.cons) = some ([], consIntr m.uart m.cons) :=
      serialTurn_loop m.uart m.cons (Nat.lt_succ_self _)
    refine ⟨{ m with uart := [], cons := consIntr m.uart m.cons },
      by rw [Kernel.serialIntr, hcall]; rfl, ?_⟩
    exact ⟨h.kbd, rfl, h.uart ▸ h.waits.arrive d.uart hroom, h.stored, h.said⟩

theorem kbdIntr (h : Follows con m d) (k : Kernel) {r' : Turn Desk (List Word)}
    (hd : d.kbdIntr = some r') :
    ∃ r, k.kbdIntr m = some r ∧ r.Rel (Follows con) (FollowsLeft con) r' := by
  have hcall := kbdIntrCall_eq d.scans d.shift 0 m.cons
  rw [← h.kbd] at hcall
  unfold Desk.kbdIntr at hd
  dsimp only at hd
  rw [Kernel.kbdIntr, hcall, Option.bind_some]
  split_ifs at hd with hreboot
  · obtain ⟨d', hqueue, rfl⟩ := Option.map_eq_some_iff.mp hd
    obtain ⟨hroom, rfl⟩ := Desk.queue_some hqueue
    have hsame : 0 + rebootsIn (inFront d.scans) d.shift = m.kbd.reboots := by rw [hreboot, h.kbd]
    refine ⟨_, if_pos hsame, ?_⟩
    exact ⟨by rw [hreboot], h.uart, h.waits.arrive _ hroom, h.stored, h.said⟩
  · cases hd
    have hzero : m.kbd.reboots = 0 := by rw [h.kbd]
    have hnew : ¬ 0 + rebootsIn (inFront d.scans) d.shift = m.kbd.reboots := by omega
    have hprint : prints (k.rom m.reading.buf) m.reading.con (cstr "Rebooting!\n", []) = _ :=
      prints_calls (putchCalls_plain _ (by decide +kernel)) _
    refine ⟨.leave _, (if_neg hnew).trans (by rw [hprint]; rfl), ?_⟩
    rw [h.said, ← cputs_append]
    rfl

theorem answer (h : Follows con m d) (k : Kernel) :
    ∃ m', k.answer m = some (.again m') ∧ Follows con m' (k.deskAnswer d) := by
  have hwaits := h.waits
  unfold Kernel.answer Kernel.deskAnswer
  cases hd : d.waiting with
  | nil =>
    rw [hd] at hwaits
    rw [hwaits.take_nil]
    exact ⟨m, rfl, h⟩
  | cons c waiting =>
    rw [hd] at hwaits
    obtain ⟨hc, hne, hrest⟩ := hwaits.take_cons
    obtain ⟨st, hturn, hst, hsaid⟩ := k.monitorTurn_eq h.stored hne
    refine ⟨{ m with cons := (consTake m.cons).2, reading := st }, ?_, h.kbd, h.uart, hrest, hst, ?_⟩
    · dsimp only
      rw [hc, if_neg hne, hturn]
      rfl
    · rw [hsaid, h.said, ← cputs_append]

theorem step (k : Kernel) (serialExists : Bool) {e : Input} {r' : Turn Desk (List Word)}
    (h : Follows con m d) (hd : k.deskStep serialExists d e = some r') :
    ∃ r, k.systemStep serialExists m e = some r ∧ r.Rel (Follows con) (FollowsLeft con) r' := by
  cases e with
  | scan b =>
    cases hd
    exact ⟨_, rfl, by rw [h.kbd], h.uart, h.waits, h.stored, h.said⟩
  | serial b =>
    cases hd
    exact ⟨_, rfl, h.kbd, by rw [h.uart], h.waits, h.stored, h.said⟩
  | kbdIntr => exact h.kbdIntr k hd
  | serialIntr =>
    obtain ⟨d', hd', rfl⟩ := Option.map_eq_some_iff.mp hd
    obtain ⟨m', hm', h'⟩ := h.serialIntr hd'
    exact ⟨.again m', by rw [Kernel.systemStep, hm']; rfl, h'⟩
  | getchar =>
    obtain ⟨d₁, hd₁, hrest⟩ := Option.bind_eq_some_iff.mp hd
    obtain ⟨t, ht, hrest⟩ := Option.bind_eq_some_iff.mp hrest
    obtain ⟨m₁, hm₁, h₁⟩ := h.serialIntr hd₁
    obtain ⟨r, hr, hrel⟩ := h₁.kbdIntr k ht
    rw [Kernel.systemStep, hm₁, Option.bind_some, hr, Option.bind_some]
    cases t with
    | leave said =>
      cases hrest
      cases r with
      | leave con' => exact ⟨.leave con', rfl, hrel⟩
      | again m₂ => exact hrel.elim
    | again d₂ =>
      cases hrest
      cases r with
      | leave con' => exact hrel.elim
      | again m₂ =>
        obtain ⟨m₃, hm₃, h₃⟩ := answer hrel k
        exact ⟨.again m₃, hm₃, h₃⟩

theorem run (h : Follows con m d) (k : Kernel) (serialExists : Bool) (es : List Input)
    {r' : Turn Desk (List Word)} (hdesk : Jos.run (k.deskStep serialExists) es d = some r') :
    ∃ r, Jos.run (k.systemStep serialExists) es m = some r ∧ r.Rel (Follows con) (FollowsLeft con) r' :=
  run_simulates (fun _ _ e _ h hd => Follows.step k serialExists (e := e) h hd) es h hdesk

end Follows

namespace Kernel

variable (k : Kernel)

theorem bootSystem_follows (serialExists : Bool) (line : Nat → Byte) (con : Console) :
    ∃ m, k.bootSystem serialExists line con = some m ∧ Follows con m (.start serialExists) := by
  rw [bootSystem, i386Init_eq]
  exact ⟨_, rfl, rfl, rfl, Cons.waits_zeroed, stored_nil _ _, rfl⟩

/-- Whatever the order in which bytes arrive, devices interrupt and the monitor
polls, the screen shows what the shell at the desk says, while the ring has room. -/
theorem system_refines_desk (k : Kernel) (serialExists : Bool) (line : Nat → Byte) (con : Console)
    (es : List Input) (r' : Turn Desk (List Word))
    (hdesk : run (k.deskStep serialExists) es (.start serialExists) = some r') :
    ∃ m r, k.bootSystem serialExists line con = some m ∧ run (k.systemStep serialExists) es m = some r ∧
      r.Rel (Follows con) (FollowsLeft con) r' := by
  obtain ⟨m, hboot, hm⟩ := k.bootSystem_follows serialExists line con
  obtain ⟨r, hrun, hrel⟩ := hm.run k serialExists es hdesk
  exact ⟨m, r, hboot, hrun, hrel⟩

/-- A key on the keyboard, a byte on the serial line, and two polls. -/
def sampleInputs : List Input :=
  [.scan ⟨0x23, false⟩, .serial 0x69, .kbdIntr, .getchar, .getchar]

def sampleDesk : Desk :=
  ⟨[], [], 0, [], [0x68, 0x69], (Desk.start true).said ++ [0x68] ++ [0x69]⟩

theorem sample_run : run (sample.deskStep true) sampleInputs (.start true) =
    some (.again sampleDesk) := rfl

theorem system_refines_desk_hi :
    ∃ m r, sample.bootSystem true (fun _ => 0) ⟨⟨fun _ => 0, []⟩, .cga, 0, []⟩ = some m ∧
      run (sample.systemStep true) sampleInputs m = some r ∧
      r.Rel (Follows ⟨⟨fun _ => 0, []⟩, .cga, 0, []⟩) (FollowsLeft ⟨⟨fun _ => 0, []⟩, .cga, 0, []⟩)
        (.again sampleDesk) :=
  system_refines_desk sample true (fun _ => 0) ⟨⟨fun _ => 0, []⟩, .cga, 0, []⟩ sampleInputs _ sample_run

end Kernel

end Jos
