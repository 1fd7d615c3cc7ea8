import Jos.KbdLocks

/-! When CTL, ALT and DEL reboot the machine, whatever else goes on. -/

namespace Jos

theorem Modifier.clear_iff (m : Modifier) (shift : Word) :
    ~~~shift &&& m.bit = 0 ↔ shift &&& m.bit ≠ 0 := by
  have hpos : m.position < 32 := by cases m <;> decide
  rw [← not_iff_not, ← ne_eq, m.has_iff, m.has_iff, BitVec.getLsbD_not]
  simp [hpos]

theorem both_iff (shift : Word) :
    ~~~shift &&& (CTL ||| ALT) = 0 ↔ shift &&& CTL ≠ 0 ∧ shift &&& ALT ≠ 0 := by
  rw [BitVec.and_or_distrib_left]
  exact BitVec.or_eq_zero_iff.trans
    (and_congr (Modifier.ctl.clear_iff shift) (Modifier.alt.clear_iff shift))

theorem charAfter_map (es : List KeyEvent) (data : Byte) : ∃ map ∈ [normalmap, shiftmap, ctlmap],
    charAfter es data = map data ∨ charAfter es data = exchangeCase (map data) := by
  refine ⟨if Modifier.ctl.Latest es then ctlmap
    else if Modifier.shift.Latest es then shiftmap else normalmap, ?_, ?_⟩
  · split_ifs <;> simp
  · unfold charAfter
    dsimp only
    split_ifs <;> simp

theorem del_tables : ∀ extended : Bool, ∀ n < 0x59,
    let index := if extended then BitVec.ofNat 8 n ||| 0x80 else BitVec.ofNat 8 n
    (extended = true ∧ BitVec.ofNat 8 n = 0x53) ∨
      ([normalmap, shiftmap, ctlmap].all fun map =>
        map index != KEY_DEL && exchangeCase (map index) != KEY_DEL) = true := by
  decide +kernel

theorem charAfter_eq_del {es : List KeyEvent} {k : Key} :
    charAfter es k.index = KEY_DEL ↔ k = Navigation.del.key := by
  constructor
  · intro h
    obtain ⟨map, hmap, hchar⟩ := charAfter_map es k.index
    have hall := del_tables k.extended k.code.toNat k.code_lt
    rw [BitVec.ofNat_toNat, BitVec.setWidth_eq] at hall
    rcases hall with ⟨hextended, hcode⟩ | hnone
    · obtain ⟨extended, code, lower, upper⟩ := k
      cases hextended
      cases hcode
      rfl
    · have hne : map k.index ≠ KEY_DEL ∧ exchangeCase (map k.index) ≠ KEY_DEL := by
        simpa [Key.index] using List.all_eq_true.mp hnone map hmap
      rcases hchar with hchar | hchar
      · exact absurd (hchar.symm.trans h) hne.1
      · exact absurd (hchar.symm.trans h) hne.2
  · rintro rfl
    obtain ⟨-, -, hnormal, hshifted, hctl, hcase⟩ := Navigation.del.tables
    unfold charAfter
    dsimp only
    split_ifs <;> simp_all [Navigation.keyCode]

theorem keyPressed_reboot_iff (es : List KeyEvent) (k : Key) :
    (keyPressed k.index (shiftAfter es)).reboot = true ↔
      k = Navigation.del.key ∧ Modifier.ctl.Latest es ∧ Modifier.alt.Latest es := by
  have hreboot : (keyPressed k.index (shiftAfter es)).reboot = true ↔
      ~~~(keyPressed k.index (shiftAfter es)).shift &&& (CTL ||| ALT) = 0 ∧
        (keyPressed k.index (shiftAfter es)).c = KEY_DEL := decide_eq_true_iff
  rw [hreboot, keyPressed_charAfter, charAfter_eq_del, both_iff, and_comm]
  refine and_congr_right ?_
  rintro rfl
  obtain ⟨hshiftcode, htogglecode, -⟩ := Navigation.del.tables
  have hsame : (keyPressed Navigation.del.key.index (shiftAfter es)).shift = shiftAfter es := by
    simp [keyPressed, hshiftcode, htogglecode]
  rw [hsame]
  exact and_congr (Modifier.ctl.bit_iff_latest es) (Modifier.alt.bit_iff_latest es)

theorem break_never_reboots (k : Key) (shift : Word) :
    rebootsIn (KeyEvent.bytes ⟨k, false⟩) shift = 0 := by
  have hlt := k.code_lt
  obtain ⟨extended, code, lower, upper⟩ := k
  cases extended with
  | false =>
    have hbytes : KeyEvent.bytes ⟨⟨false, code, lower, upper⟩, false⟩ = [code ||| 0x80] := rfl
    simp only [hbytes, rebootsIn, kbdData_break hlt]
    simp
  | true =>
    have hbytes : KeyEvent.bytes ⟨⟨true, code, lower, upper⟩, false⟩ = [0xE0, code ||| 0x80] := rfl
    simp only [hbytes, rebootsIn, kbdData_escape, kbdData_break hlt]
    simp

/-- DEL goes down while CTL and ALT are in force. -/
def CtlAltDel (es : List KeyEvent) : Prop :=
  ∃ pre post, es = pre ++ ⟨Navigation.del.key, true⟩ :: post ∧ Modifier.ctl.Latest pre ∧
    Modifier.alt.Latest pre

theorem ctlAltDel_append (es : List KeyEvent) (e : KeyEvent) :
    CtlAltDel (es ++ [e]) ↔
      CtlAltDel es ∨ e = ⟨Navigation.del.key, true⟩ ∧ Modifier.ctl.Latest es ∧
        Modifier.alt.Latest es := by
  constructor
  · rintro ⟨pre, post, heq, hctl, halt⟩
    rcases append_singleton_split heq with ⟨rfl, rfl, rfl⟩ | ⟨post', rfl, heq'⟩
    · exact .inr ⟨rfl, hctl, halt⟩
    · exact .inl ⟨pre, post', heq', hctl, halt⟩
  · rintro (⟨pre, post, rfl, hctl, halt⟩ | ⟨rfl, hctl, halt⟩)
    · exact ⟨pre, post ++ [e], by simp, hctl, halt⟩
    · exact ⟨es, [], rfl, hctl, halt⟩

theorem rebootsIn_events_iff (es : List KeyEvent) :
    rebootsIn (es.flatMap KeyEvent.bytes) 0 ≠ 0 ↔ CtlAltDel es := by
  induction es using List.reverseRecOn with
  | nil => simp [rebootsIn, CtlAltDel]
  | append_singleton es e ih =>
    have hlast : rebootsIn e.bytes (shiftAfter es) ≠ 0 ↔
        e = ⟨Navigation.del.key, true⟩ ∧ Modifier.ctl.Latest es ∧ Modifier.alt.Latest es := by
      obtain ⟨k, isMake⟩ := e
      cases isMake with
      | false => simp [break_never_reboots]
      | true =>
        rw [(decode_make k (shiftAfter_escape es)).2]
        have hkey : (⟨k, true⟩ : KeyEvent) = ⟨Navigation.del.key, true⟩ ↔ k = Navigation.del.key := by
          simp
        rw [hkey, ← keyPressed_reboot_iff]
        simp
    rw [List.flatMap_append, List.flatMap_singleton, rebootsIn_append, ctlAltDel_append, ← ih,
      ← hlast, shiftAfter]
    omega

theorem inFront_append_left {front : List PortByte} (hfront : ∀ b ∈ front, b.fromMouse = false)
    (rest : List PortByte) : inFront (front ++ rest) = front.map PortByte.data ++ inFront rest := by
  rw [inFront, List.takeWhile_append_of_pos (by simpa using hfront), List.map_append]
  rfl

theorem inFront_append (scans more : List PortByte) :
    ∃ codes, inFront (scans ++ more) = inFront scans ++ codes := by
  rw [inFront, List.takeWhile_append]
  split_ifs with hall
  · have hsame := (List.takeWhile_prefix fun b : PortByte => !b.fromMouse).eq_of_length hall
    exact ⟨(more.takeWhile fun b => !b.fromMouse).map PortByte.data,
      by rw [List.map_append, inFront, hsame]⟩
  · exact ⟨[], (List.append_nil _).symm⟩

/-- The driver has taken the bytes `front`, and none of them rebooted. -/
structure Alive (scans front : List PortByte) (m : System) : Prop where
  keys : ∀ b ∈ front, b.fromMouse = false
  scans : scans = front ++ m.kbd.queue
  shift : m.kbd.shift = (decode (front.map PortByte.data) 0).2
  reboots : m.kbd.reboots = 0
  calm : rebootsIn (front.map PortByte.data) 0 = 0
  stored : ∃ line, Stored m.reading line

/-- How the machine stands once the bytes `scans` have come in. -/
def Stands (scans : List PortByte) : Turn System Console → Prop
  | .again m => ∃ front, Alive scans front m
  | .leave _ => rebootsIn (inFront scans) 0 ≠ 0

theorem stands_leave_append {scans : List PortByte} {con : Console} (h : Stands scans (.leave con))
    (more : List PortByte) : Stands (scans ++ more) (.leave con) := by
  obtain ⟨codes, hcodes⟩ := inFront_append scans more
  rw [Stands, hcodes, rebootsIn_append]
  exact Nat.ne_of_gt (Nat.add_pos_left (Nat.pos_of_ne_zero h) _)

namespace Alive

variable {scans front : List PortByte} {m : System}

theorem inFront_eq (h : Alive scans front m) :
    inFront scans = front.map PortByte.data ++ inFront m.kbd.queue := by
  rw [h.scans, inFront_append_left h.keys]

/-- The driver empties the queue up to the mouse, or the machine reboots. -/
theorem kbdIntr (h : Alive scans front m) (k : Kernel) :
    (∃ m', k.kbdIntr m = some (.again m') ∧ (∃ front', Alive scans front' m') ∧
      rebootsIn (inFront scans) 0 = 0) ∨
      ∃ con, k.kbdIntr m = some (.leave con) ∧ rebootsIn (inFront scans) 0 ≠ 0 := by
  have hcall := kbdIntrCall_eq m.kbd.queue m.kbd.shift m.kbd.reboots m.cons
  have hcount : rebootsIn (inFront scans) 0 = rebootsIn (inFront m.kbd.queue) m.kbd.shift := by
    rw [h.inFront_eq, rebootsIn_append, h.calm, ← h.shift, Nat.zero_add]
  rw [Kernel.kbdIntr, hcall, Option.bind_some, hcount]
  by_cases hreboot : rebootsIn (inFront m.kbd.queue) m.kbd.shift = 0
  · refine .inl ⟨_, if_pos (by simp [hreboot]),
      ⟨front ++ m.kbd.queue.takeWhile fun b => !b.fromMouse, ?_⟩, hreboot⟩
    have hmap : (front ++ m.kbd.queue.takeWhile fun b => !b.fromMouse).map PortByte.data =
        front.map PortByte.data ++ inFront m.kbd.queue := List.map_append
    refine ⟨fun b hb => ?_, ?_, ?_, ?_, ?_, h.stored⟩
    · rcases List.mem_append.mp hb with hb | hb
      · exact h.keys b hb
      · simpa using List.mem_takeWhile_imp hb
    · rw [List.append_assoc, List.takeWhile_append_dropWhile]
      exact h.scans
    · rw [hmap, decode_append, ← h.shift]
    · exact (congrArg₂ (· + ·) h.reboots hreboot)
    · rw [hmap, rebootsIn_append, h.calm, ← h.shift, hreboot]
  · have hnew : ¬ m.kbd.reboots + rebootsIn (inFront m.kbd.queue) m.kbd.shift = m.kbd.reboots := by omega
    have hprint : prints (k.rom m.reading.buf) m.reading.con (cstr "Rebooting!\n", []) = _ :=
      prints_calls (putchCalls_plain _ (by decide +kernel)) _
    exact .inr ⟨_, (if_neg hnew).trans (by rw [hprint]; rfl), hreboot⟩

theorem serialIntr (h : Alive scans front m) (serialExists : Bool) :
    ∃ m', Kernel.serialIntr serialExists m = some m' ∧ Alive scans front m' := by
  cases serialExists with
  | false => exact ⟨m, rfl, h⟩
  | true =>
    have hcall : serialIntrCall true (m.uart, m.cons) = some ([], consIntr m.uart m.cons) :=
      serialTurn_loop m.uart m.cons (Nat.lt_succ_self _)
    exact ⟨{ m with uart := [], cons := consIntr m.uart m.cons },
      by rw [Kernel.serialIntr, hcall]; rfl, { h with }⟩

/-- Whatever comes out of the ring, the monitor goes on. -/
theorem answer (h : Alive scans front m) (k : Kernel) :
    ∃ m', k.answer m = some (.again m') ∧ Alive scans front m' := by
  obtain ⟨line, hline⟩ := h.stored
  unfold Kernel.answer
  dsimp only
  split_ifs with hc
  · exact ⟨_, rfl, { h with }⟩
  · obtain ⟨st, hturn, hst, -⟩ := k.monitorTurn_eq hline hc
    rw [hturn]
    exact ⟨_, rfl, { h with stored := ⟨_, hst⟩ }⟩

theorem getchar (h : Alive scans front m) (k : Kernel) (serialExists : Bool) :
    (∃ m' front', k.systemStep serialExists m .getchar = some (.again m') ∧ Alive scans front' m' ∧
        rebootsIn (inFront scans) 0 = 0) ∨
      ∃ con, k.systemStep serialExists m .getchar = some (.leave con) ∧
        rebootsIn (inFront scans) 0 ≠ 0 := by
  obtain ⟨m₁, hm₁, h₁⟩ := h.serialIntr serialExists
  rw [Kernel.systemStep, hm₁, Option.bind_some]
  rcases h₁.kbdIntr k with ⟨m₂, hm₂, ⟨front', h₂⟩, hcalm⟩ | ⟨con, hcon, hreboot⟩
  · obtain ⟨m₃, hm₃, h₃⟩ := h₂.answer k
    exact .inl ⟨m₃, front', by rw [hm₂]; exact hm₃, h₃, hcalm⟩
  · exact .inr ⟨con, by rw [hcon]; rfl, hreboot⟩

theorem step (h : Alive scans front m) (k : Kernel) (serialExists : Bool) (e : Input) :
    ∃ r, k.systemStep serialExists m e = some r ∧ Stands (scans ++ scansOf [e]) r := by
  have hscans : scans ++ [] = scans := List.append_nil _
  cases e with
  | scan b => exact ⟨_, rfl, front, { h with scans := by simp [h.scans, scansOf] }⟩
  | serial b => exact ⟨_, rfl, front, hscans.symm ▸ { h with }⟩
  | kbdIntr =>
    rcases h.kbdIntr k with ⟨m', hm', h', -⟩ | ⟨con, hcon, hreboot⟩
    · exact ⟨_, hm', hscans.symm ▸ h'⟩
    · exact ⟨_, hcon, hscans.symm ▸ hreboot⟩
  | serialIntr =>
    obtain ⟨m', hm', h'⟩ := h.serialIntr serialExists
    exact ⟨.again m', by rw [Kernel.systemStep, hm']; rfl, front, hscans.symm ▸ h'⟩
  | getchar =>
    rcases h.getchar k serialExists with ⟨m', front', hm', h', -⟩ | ⟨con, hcon, hreboot⟩
    · exact ⟨_, hm', front', hscans.symm ▸ h'⟩
    · exact ⟨_, hcon, hscans.symm ▸ hreboot⟩

end Alive

theorem Kernel.bootSystem_alive (k : Kernel) (serialExists : Bool) (line : Nat → Byte) (con : Console) :
    ∃ m, k.bootSystem serialExists line con = some m ∧ Alive [] [] m := by
  rw [Kernel.bootSystem, k.i386Init_eq]
  exact ⟨_, rfl, by simp, rfl, rfl, rfl, rfl, [], stored_nil _ _⟩

theorem Kernel.system_stands (k : Kernel) (serialExists : Bool) {m : System} (h : Alive [] [] m)
    (es : List Input) :
    ∃ r, run (k.systemStep serialExists) es m = some r ∧ Stands (scansOf es) r := by
  refine run_progress (fun es r => Stands (scansOf es) r) (fun es m e h => ?_) (fun es con e h => ?_)
    (⟨[], h⟩ : Stands (scansOf []) (.again m)) es
  · obtain ⟨front, h⟩ := h
    rw [scansOf_append]
    exact h.step k serialExists e
  · rw [scansOf_append]
    exact stands_leave_append h _

/-- No order of events makes the machine fault, and by the next poll it has rebooted
just if DEL went down while CTL and ALT were in force. -/
theorem Kernel.system_reboots_iff (k : Kernel) (serialExists : Bool) (line : Nat → Byte)
    (con : Console) (es : List Input) :
    ∃ m r, k.bootSystem serialExists line con = some m ∧
      run (k.systemStep serialExists) (es ++ [.getchar]) m = some r ∧
      ∀ keys : List KeyEvent, inFront (scansOf es) = keys.flatMap KeyEvent.bytes →
        ((∃ con', r = .leave con') ↔ CtlAltDel keys) := by
  obtain ⟨m, hboot, hm⟩ := k.bootSystem_alive serialExists line con
  obtain ⟨r, hr, hout⟩ := k.system_stands serialExists hm es
  have hiff : ∀ {r : Turn System Console},
      ((∃ con', r = .leave con') ↔ rebootsIn (inFront (scansOf es)) 0 ≠ 0) →
      ∀ keys : List KeyEvent, inFront (scansOf es) = keys.flatMap KeyEvent.bytes →
        ((∃ con', r = .leave con') ↔ CtlAltDel keys) := by
    intro r h keys hkeys
    rw [h, hkeys, rebootsIn_events_iff]
  cases r with
  | leave con' =>
    exact ⟨m, .leave con', hboot, run_append_leave hr _, hiff (iff_of_true ⟨con', rfl⟩ hout)⟩
  | again m' =>
    obtain ⟨front, h⟩ := hout
    rcases h.getchar k serialExists with ⟨m'', front', hm'', -, hcalm⟩ | ⟨con', hcon, hreboot⟩
    · refine ⟨m, .again m'', hboot, ?_, hiff (iff_of_false (by simp) (not_not.mpr hcalm))⟩
      rw [run_append_again hr, run_cons_again hm'', run_nil]
    · refine ⟨m, .leave con', hboot, ?_, hiff (iff_of_true ⟨con', rfl⟩ hreboot)⟩
      rw [run_append_again hr, run_cons_leave hcon]

/-- A DEL in the middle of a poll, and the other two keys before it. -/
theorem Kernel.system_reboots_iff_del :
    ∃ m r, Kernel.sample.bootSystem true (fun _ => 0) ⟨⟨fun _ => 0, []⟩, .cga, 0, []⟩ = some m ∧
      run (Kernel.sample.systemStep true)
        ([.scan ⟨0x1D, false⟩, .scan ⟨0x38, false⟩, .kbdIntr, .scan ⟨0xE0, false⟩, .getchar,
          .scan ⟨0x53, false⟩] ++ [.getchar]) m = some r ∧
      ((∃ con', r = .leave con') ↔ CtlAltDel [⟨ctlLeft, true⟩,
        ⟨⟨false, 0x38, by decide, by decide⟩, true⟩, ⟨Navigation.del.key, true⟩]) := by
  obtain ⟨m, r, hboot, hrun, hiff⟩ := Kernel.system_reboots_iff Kernel.sample true (fun _ => 0)
    ⟨⟨fun _ => 0, []⟩, .cga, 0, []⟩ [.scan ⟨0x1D, false⟩, .scan ⟨0x38, false⟩, .kbdIntr,
      .scan ⟨0xE0, false⟩, .getchar, .scan ⟨0x53, false⟩]
  exact ⟨m, r, hboot, hrun, hiff [⟨ctlLeft, true⟩, ⟨⟨false, 0x38, by decide, by decide⟩, true⟩,
    ⟨Navigation.del.key, true⟩] rfl⟩

end Jos
