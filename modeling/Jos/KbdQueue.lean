import Jos.ConsoleInput
import Jos.Kbd
import Jos.Loop
import Jos.Words

/-! `kbd_intr` against an i8042 whose output buffer holds mouse bytes among the
keyboard's. -/

namespace Jos

def KBS_DIB : Byte := 0x01
def KBS_TERR : Byte := 0x20

structure PortByte where
  data : Byte
  fromMouse : Bool

/-- `inb(KBSTATP)`: the head of the output buffer is what the status is about. -/
def kbStatus : List PortByte → Byte
  | [] => 0
  | b :: _ => if b.fromMouse then KBS_DIB ||| KBS_TERR else KBS_DIB

/-- The controller with the state of `kbd_proc_data`. `reboots` counts the times
it has rebooted. -/
structure Kbd where
  queue : List PortByte
  shift : Word
  reboots : Nat

/-- `inb(KBDATAP)` takes the head of the output buffer. -/
def Kbd.inData (kbd : Kbd) : Byte × Kbd :=
  match kbd.queue with
  | [] => (0, kbd)
  | b :: queue => (b.data, { kbd with queue := queue })

/-- `none` is the answer -1. -/
def kbdProcData (kbd : Kbd) : Option Byte × Kbd :=
  let stat := kbStatus kbd.queue
  if stat &&& KBS_DIB = 0 then (none, kbd)
  else if stat &&& KBS_TERR ≠ 0 then (none, kbd)
  else
    let (data, kbd) := kbd.inData
    let d := kbdData data kbd.shift
    (some d.c, { kbd with shift := d.shift, reboots := kbd.reboots + if d.reboot then 1 else 0 })

/-- The loop of `cons_intr`, with `kbd_proc_data` for its `proc`. -/
def consIntrTurn (st : Kbd × Cons) : Option (Turn (Kbd × Cons) (Kbd × Cons)) :=
  some (match kbdProcData st.1 with
    | (none, kbd) => .leave (kbd, st.2)
    | (some c, kbd) => .again (kbd, if c = 0 then st.2 else consStore c st.2))

/-- `kbd_intr`. Every turn but the last takes a byte. -/
def kbdIntrCall (st : Kbd × Cons) : Option (Kbd × Cons) :=
  loop consIntrTurn (st.1.queue.length + 1) st

def kbdIntrCalls : Nat → Kbd × Cons → Option (Kbd × Cons)
  | 0, st => some st
  | n + 1, st => (kbdIntrCalls n st).bind kbdIntrCall

def keyboardOnly (queue : List PortByte) : List PortByte :=
  queue.filter fun b => !b.fromMouse

/-- The keyboard bytes in front of the first mouse byte. -/
def inFront (queue : List PortByte) : List Byte :=
  (queue.takeWhile fun b => !b.fromMouse).map PortByte.data

/-- Those behind it. -/
def behind (queue : List PortByte) : List Byte :=
  (keyboardOnly (queue.dropWhile fun b => !b.fromMouse)).map PortByte.data

/-- From some call on the ring holds what it holds without the mouse bytes. -/
def MouseIgnored (kbd : Kbd) (cons : Cons) : Prop :=
  ∃ least, ∀ n ≥ least, ∃ kbd₁ kbd₂ ring, kbdIntrCalls n (kbd, cons) = some (kbd₁, ring) ∧
    kbdIntrCalls n ({ kbd with queue := keyboardOnly kbd.queue }, cons) = some (kbd₂, ring)

/-- `kbd_intr` stops here: nothing is left, or a mouse byte is next. -/
def Stuck (queue : List PortByte) : Prop :=
  ∀ b ∈ queue.head?, b.fromMouse = true

theorem kbdProcData_stuck {queue : List PortByte} (h : Stuck queue) (shift : Word) (reboots : Nat) :
    kbdProcData ⟨queue, shift, reboots⟩ = (none, ⟨queue, shift, reboots⟩) := by
  cases queue with
  | nil =>
    have hstat : kbStatus [] = 0 := rfl
    rw [kbdProcData]
    simp only [hstat]
    exact if_pos (by decide)
  | cons b queue =>
    have hstat : kbStatus (b :: queue) = KBS_DIB ||| KBS_TERR := if_pos (h b rfl)
    rw [kbdProcData]
    simp only [hstat]
    exact (if_neg (by decide)).trans (if_pos (by decide))

theorem kbdProcData_key {b : PortByte} (hb : b.fromMouse = false) (queue : List PortByte) (shift : Word)
    (reboots : Nat) :
    kbdProcData ⟨b :: queue, shift, reboots⟩ = (some (kbdData b.data shift).c,
      ⟨queue, (kbdData b.data shift).shift,
        reboots + if (kbdData b.data shift).reboot then 1 else 0⟩) := by
  have hstat : kbStatus (b :: queue) = KBS_DIB := if_neg (Bool.not_eq_true _ ▸ hb)
  rw [kbdProcData]
  simp only [hstat]
  exact (if_neg (by decide)).trans (if_neg (by decide))

theorem consIntr_append (proc proc' : List Byte) (cons : Cons) :
    consIntr (proc ++ proc') cons = consIntr proc' (consIntr proc cons) := by
  induction proc generalizing cons with
  | nil => rfl
  | cons c proc ih =>
    rw [List.cons_append, consIntr, consIntr]
    split_ifs
    · exact ih cons
    · exact ih (consStore c cons)

theorem consIntrTurn_stuck {queue : List PortByte} (h : Stuck queue) (shift : Word) (reboots : Nat)
    (cons : Cons) :
    consIntrTurn (⟨queue, shift, reboots⟩, cons) = some (.leave (⟨queue, shift, reboots⟩, cons)) := by
  rw [consIntrTurn, kbdProcData_stuck h]

theorem consIntrTurn_key {b : PortByte} (hb : b.fromMouse = false) (queue : List PortByte) (shift : Word)
    (reboots : Nat) (cons : Cons) :
    ∃ reboots', consIntrTurn (⟨b :: queue, shift, reboots⟩, cons) =
      some (.again (⟨queue, (kbdData b.data shift).shift, reboots'⟩,
        consIntr [(kbdData b.data shift).c] cons)) := by
  refine ⟨reboots + if (kbdData b.data shift).reboot then 1 else 0, ?_⟩
  rw [consIntrTurn, kbdProcData_key hb, consIntr, consIntr, consIntr]

theorem kbdIntrCall_loop {keys rest : List PortByte} (hkeys : ∀ b ∈ keys, b.fromMouse = false)
    (hrest : Stuck rest) (shift : Word) (reboots : Nat) (cons : Cons) {fuel : Nat}
    (hfuel : keys.length < fuel) :
    ∃ reboots', loop consIntrTurn fuel (⟨keys ++ rest, shift, reboots⟩, cons) =
      some (⟨rest, (decode (keys.map PortByte.data) shift).2, reboots'⟩,
        kbdIntr (decode (keys.map PortByte.data) shift).1 cons) := by
  induction keys generalizing shift reboots cons fuel with
  | nil =>
    obtain ⟨fuel, rfl⟩ := Nat.exists_eq_add_one_of_ne_zero (Nat.ne_zero_of_lt hfuel)
    exact ⟨reboots, loop_leave _ (consIntrTurn_stuck hrest shift reboots cons)⟩
  | cons b keys ih =>
    obtain ⟨fuel, rfl⟩ := Nat.exists_eq_add_one_of_ne_zero (Nat.ne_zero_of_lt hfuel)
    obtain ⟨reboots₁, hturn⟩ :=
      consIntrTurn_key (hkeys b List.mem_cons_self) (keys ++ rest) shift reboots cons
    obtain ⟨reboots', hloop⟩ := ih (fun x hx => hkeys x (List.mem_cons_of_mem _ hx))
      (kbdData b.data shift).shift reboots₁ (consIntr [(kbdData b.data shift).c] cons)
      (Nat.lt_of_succ_lt_succ hfuel)
    refine ⟨reboots', (loop_again fuel hturn).trans (hloop.trans ?_)⟩
    rw [kbdIntr, ← consIntr_append]
    rfl

theorem kbdIntrCall_spec {keys rest : List PortByte} (hkeys : ∀ b ∈ keys, b.fromMouse = false)
    (hrest : Stuck rest) (shift : Word) (reboots : Nat) (cons : Cons) :
    ∃ reboots', kbdIntrCall (⟨keys ++ rest, shift, reboots⟩, cons) =
      some (⟨rest, (decode (keys.map PortByte.data) shift).2, reboots'⟩,
        kbdIntr (decode (keys.map PortByte.data) shift).1 cons) :=
  kbdIntrCall_loop hkeys hrest shift reboots cons
    (Nat.lt_succ_of_le (List.length_append ▸ Nat.le_add_right _ _))

/-- Later calls change nothing. -/
theorem kbdIntrCalls_spec {keys rest : List PortByte} (hkeys : ∀ b ∈ keys, b.fromMouse = false)
    (hrest : Stuck rest) (shift : Word) (reboots : Nat) (cons : Cons) (n : Nat) :
    ∃ kbd, kbdIntrCalls (n + 1) (⟨keys ++ rest, shift, reboots⟩, cons) =
      some (kbd, kbdIntr (decode (keys.map PortByte.data) shift).1 cons) ∧ kbd.queue = rest := by
  induction n with
  | zero =>
    obtain ⟨reboots', hcall⟩ := kbdIntrCall_spec hkeys hrest shift reboots cons
    exact ⟨_, hcall, rfl⟩
  | succ n ih =>
    obtain ⟨kbd, hcalls, hqueue⟩ := ih
    obtain ⟨queue, shift', reboots₁⟩ := kbd
    cases hqueue
    obtain ⟨reboots', hcall⟩ := kbdIntrCall_spec (List.forall_mem_nil _) hrest shift' reboots₁
      (kbdIntr (decode (keys.map PortByte.data) shift).1 cons)
    refine ⟨⟨queue, shift', reboots'⟩, ?_, rfl⟩
    rw [kbdIntrCalls, hcalls, Option.bind_some]
    exact hcall

theorem consIntr_accesses (proc : List Byte) (cons : Cons) :
    (consIntr proc cons).accesses.length = cons.accesses.length + (proc.filter (· ≠ 0)).length := by
  induction proc generalizing cons with
  | nil => rfl
  | cons c proc ih =>
    rw [consIntr]
    split_ifs with hc
    · rw [ih, List.filter_cons_of_neg (by simpa using hc)]
    · rw [ih, List.filter_cons_of_pos (by simpa using hc), List.length_cons, consStore]
      simp only [List.length_append, List.length_singleton]
      omega

theorem consIntr_eq_self_iff (proc : List Byte) (cons : Cons) :
    consIntr proc cons = cons ↔ ∀ c ∈ proc, c = 0 := by
  constructor
  · intro h
    have hlen := consIntr_accesses proc cons
    rw [h] at hlen
    have hnone : proc.filter (· ≠ 0) = [] := List.eq_nil_of_length_eq_zero (by omega)
    simpa [List.filter_eq_nil_iff] using hnone
  · intro h
    induction proc with
    | nil => rfl
    | cons c proc ih =>
      rw [consIntr, if_pos (h c List.mem_cons_self)]
      exact ih fun x hx => h x (List.mem_cons_of_mem _ hx)

theorem stuck_dropWhile (queue : List PortByte) : Stuck (queue.dropWhile fun b => !b.fromMouse) :=
  sep_of_head_dropWhile queue

theorem keyboardOnly_data (queue : List PortByte) :
    (keyboardOnly queue).map PortByte.data = inFront queue ++ behind queue := by
  have hfront : keyboardOnly (queue.takeWhile fun b => !b.fromMouse) =
      queue.takeWhile fun b => !b.fromMouse :=
    List.filter_eq_self.mpr fun b hb => by rw [letters_of_mem_takeWhile queue b hb]; rfl
  rw [inFront, behind, ← List.map_append, ← hfront, keyboardOnly, keyboardOnly, keyboardOnly,
    ← List.filter_append, List.takeWhile_append_dropWhile]

theorem mouseIgnored_iff_ring (kbd : Kbd) (cons : Cons) :
    MouseIgnored kbd cons ↔
      consIntr (decode (behind kbd.queue) (decode (inFront kbd.queue) kbd.shift).2).1
        (kbdIntr (decode (inFront kbd.queue) kbd.shift).1 cons) =
      kbdIntr (decode (inFront kbd.queue) kbd.shift).1 cons := by
  obtain ⟨queue, shift, reboots⟩ := kbd
  have hwith : ∀ n, ∃ kbd, kbdIntrCalls (n + 1) (⟨queue, shift, reboots⟩, cons) =
      some (kbd, kbdIntr (decode (inFront queue) shift).1 cons) := fun n => by
    obtain ⟨kbd, hcalls, -⟩ := kbdIntrCalls_spec (letters_of_mem_takeWhile queue) (stuck_dropWhile queue)
      shift reboots cons n
    rw [List.takeWhile_append_dropWhile] at hcalls
    exact ⟨kbd, hcalls⟩
  have hwithout : ∀ n, ∃ kbd, kbdIntrCalls (n + 1) (⟨keyboardOnly queue, shift, reboots⟩, cons) =
      some (kbd, consIntr (decode (behind queue) (decode (inFront queue) shift).2).1
        (kbdIntr (decode (inFront queue) shift).1 cons)) := fun n => by
    have hkeys : ∀ b ∈ keyboardOnly queue, b.fromMouse = false := fun b hb => by
      simpa using (List.mem_filter.mp hb).2
    have hnil : Stuck [] := fun b hb => by simp at hb
    obtain ⟨kbd, hcalls, -⟩ := kbdIntrCalls_spec hkeys hnil shift reboots cons n
    rw [List.append_nil, keyboardOnly_data, decode_append, kbdIntr, consIntr_append] at hcalls
    exact ⟨kbd, hcalls⟩
  constructor
  · rintro ⟨least, h⟩
    obtain ⟨kbd₁, kbd₂, ring, hfirst, hsecond⟩ := h (least + 1) (Nat.le_succ _)
    obtain ⟨kbd, hcalls⟩ := hwith least
    obtain ⟨kbd', hcalls'⟩ := hwithout least
    have hring := (Prod.mk.inj (Option.some.inj (hfirst.symm.trans hcalls))).2
    have hring' := (Prod.mk.inj (Option.some.inj (hsecond.symm.trans hcalls'))).2
    exact hring'.symm.trans hring
  · intro h
    refine ⟨1, fun n hn => ?_⟩
    obtain ⟨n, rfl⟩ : ∃ k, n = k + 1 := ⟨n - 1, by omega⟩
    obtain ⟨kbd, hcalls⟩ := hwith n
    obtain ⟨kbd', hcalls'⟩ := hwithout n
    rw [h] at hcalls'
    exact ⟨kbd, kbd', _, hcalls, hcalls'⟩

/-- The ring misses nothing exactly when the keyboard bytes behind the first
mouse byte would complete no character: `kbd_intr` never gets past that byte. -/
theorem mouseIgnored_iff (kbd : Kbd) (cons : Cons) :
    MouseIgnored kbd cons ↔
      ∀ c ∈ (decode (behind kbd.queue) (decode (inFront kbd.queue) kbd.shift).2).1, c = 0 :=
  (mouseIgnored_iff_ring kbd cons).trans (consIntr_eq_self_iff _ _)

/-- A mouse byte, and then an `a` that never comes. -/
theorem mouse_blocks_key : ¬ MouseIgnored ⟨[⟨0x08, true⟩, ⟨0x1E, false⟩], 0, 0⟩ .zeroed := by
  rw [mouseIgnored_iff_ring, consIntr_eq_self_iff]
  decide +kernel

end Jos
