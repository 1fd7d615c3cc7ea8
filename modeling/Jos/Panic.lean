import Jos.Init

/-! `panic` and `warn` of `kern/init.c` while the monitor is in use. Of all panics
the first one is reported, and each leads to a new monitor. -/

namespace Jos

/-- A message of `panic` or `warn`, with the text that its format comes to. `place`
is the address of the file's name. -/
structure Message (k : Kernel) where
  file : CString
  place : Word
  line : Word
  fmt : CString
  ap : List Word
  text : List Word
  placed : Placed k.byte k.buf file place
  short : file.bytes.length < 2 ^ 31
  comes : ∀ buf, putchCalls (k.rom buf) fmt ap = some text

structure Alarm where
  panicstr : Option CString
  reading : Reading

/-- The monitor is given a character, or code of the kernel calls `warn` or `panic`. -/
inductive Incident (k : Kernel) where
  | key (c : Byte) (hc : c ≠ 0)
  | warn (msg : Message k)
  | panic (msg : Message k)

namespace Kernel

variable (k : Kernel)

def warn (msg : Message k) (buf : Nat → Byte) (con : Console) : Option Console :=
  [(cstr "kernel warning at %s:%d: ", [msg.place, msg.line]), (msg.fmt, msg.ap), (cstr "\n", [])].foldlM
    (prints (k.rom buf)) con

/-- `_panic` up to the first `getchar` of its monitor. -/
def panic (msg : Message k) (st : Alarm) : Option Alarm :=
  (if st.panicstr.isSome then some (st.panicstr, st.reading.con)
    else
      ([(cstr "kernel panic at %s:%d: ", [msg.place, msg.line]), (msg.fmt, msg.ap),
        (cstr "\n", [])].foldlM (prints (k.rom st.reading.buf)) st.reading.con).map
          fun con => (some msg.fmt, con)).bind
    fun (panicstr, con) => (k.monitorStart st.reading.buf con).map fun reading => ⟨panicstr, reading⟩

def alarmStep (st : Alarm) : Incident k → Option Alarm
  | .key c _ => (k.monitorTurn c.toNat st.reading).bind fun
    | .again reading => some { st with reading := reading }
    | .leave reading => (k.monitorStart reading.buf reading.con).map fun reading =>
      { st with reading := reading }
  | .warn msg => (k.warn msg st.reading.buf st.reading.con).map fun con =>
    { st with reading := { st.reading with con := con } }
  | .panic msg => k.panic msg st

def report (kind : CString) (msg : Message k) : List Word :=
  kind.plain ++ (shown msg.file.bytes ++ ((cstr ":").plain ++ (integer msg.line ++ ((cstr ": ").plain ++
    (msg.text ++ (cstr "\n").plain)))))

structure Seen where
  panicstr : Option CString
  line : List Byte
  said : List Word

def seenStep (st : Seen) : Incident k → Seen
  | .key c _ => { st with
      line := (k.shellKey st.line c).1
      said := st.said ++ (k.shellKey st.line c).2 }
  | .warn msg => { st with said := st.said ++ k.report (cstr "kernel warning at ") msg }
  | .panic msg =>
    { panicstr := st.panicstr.or (some msg.fmt)
      line := []
      said := st.said ++ ((if st.panicstr = none then k.report (cstr "kernel panic at ") msg else []) ++
        (greeting ++ promptText)) }

theorem prints_report (kind format : CString) (hkind : kind.NoPercent)
    (hformat : format = kind ++ (cstr "%s" ++ (cstr ":" ++ (cstr "%d" ++ cstr ": ")))) (msg : Message k)
    (buf : Nat → Byte) (con : Console) :
    [(format, [msg.place, msg.line]), (msg.fmt, msg.ap), (cstr "\n", [])].foldlM
        (prints (k.rom buf)) con =
      some (cputs (k.report kind msg) con) := by
  have hend : putchCalls (k.rom buf) (cstr ": ") [] = _ := putchCalls_plain _ (by decide +kernel)
  have hnumber := putchCalls_integer_then (k.rom buf) hend msg.line
  have hcolon := putchCalls_plain_then (k.rom buf) hnumber (by decide +kernel : (cstr ":").NoPercent)
  have hfile := putchCalls_string_then (k.rom buf) hcolon (k.string_placed msg.placed buf) msg.short
  have hfirst := putchCalls_plain_then (k.rom buf) hfile hkind
  rw [← hformat] at hfirst
  have hlines : List.Forall₂ (fun call text => putchCalls (k.rom buf) call.1 call.2 = some text)
      [(format, [msg.place, msg.line]), (msg.fmt, msg.ap), (cstr "\n", [])]
      [_, msg.text, (cstr "\n").plain] :=
    .cons hfirst (.cons (msg.comes buf) (.cons (putchCalls_plain _ (by decide +kernel)) .nil))
  rw [foldlM_prints hlines, report]
  simp

theorem panic_eq (msg : Message k) (st : Alarm) :
    k.panic msg st = some ⟨st.panicstr.or (some msg.fmt), ⟨st.reading.buf, 0,
      cputs ((if st.panicstr = none then k.report (cstr "kernel panic at ") msg else []) ++
        (greeting ++ promptText)) st.reading.con⟩⟩ := by
  have hprint := k.prints_report (cstr "kernel panic at ") (cstr "kernel panic at %s:%d: ")
    (by decide +kernel) (CString.ext (by decide +kernel)) msg st.reading.buf st.reading.con
  cases hfirst : st.panicstr with
  | none => simp [panic, hfirst, hprint, monitorStart_eq]
  | some fmt => simp [panic, hfirst, monitorStart_eq]

structure Reports (con : Console) (st : Alarm) (seen : Seen) : Prop where
  panicstr : st.panicstr = seen.panicstr
  stored : Stored st.reading seen.line
  said : st.reading.con = cputs seen.said con

variable {k}

theorem Reports.step {con : Console} {st : Alarm} {seen : Seen} (h : Reports con st seen)
    (e : Incident k) :
    ∃ st', k.alarmStep st e = some st' ∧ Reports con st' (k.seenStep seen e) := by
  cases e with
  | key c hc =>
    obtain ⟨reading, hturn, hreading, hsaid⟩ := k.monitorTurn_eq h.stored hc
    refine ⟨{ st with reading := reading }, by rw [alarmStep, hturn]; rfl, h.panicstr, hreading, ?_⟩
    rw [hsaid, h.said, ← cputs_append]
    rfl
  | warn msg =>
    have hprint := k.prints_report (cstr "kernel warning at ") (cstr "kernel warning at %s:%d: ")
      (by decide +kernel) (CString.ext (by decide +kernel)) msg st.reading.buf st.reading.con
    have hturn : k.alarmStep st (.warn msg) =
        some ⟨st.panicstr, { st.reading with
          con := cputs (k.report (cstr "kernel warning at ") msg) st.reading.con }⟩ := by
      rw [alarmStep, warn, hprint]
      rfl
    have hstored := h.stored
    refine ⟨_, hturn, h.panicstr, ⟨hstored.i, hstored.room, hstored.chars, hstored.nonzero⟩, ?_⟩
    rw [h.said, ← cputs_append]
    rfl
  | panic msg =>
    refine ⟨_, k.panic_eq msg st, by rw [h.panicstr]; rfl, stored_nil _ _, ?_⟩
    rw [h.said, h.panicstr, ← cputs_append]
    rfl

/-- `panicstr` keeps the first format, and only the first panic is reported. -/
theorem panic_reports_first (k : Kernel) (es : List (Incident k)) (line : Nat → Byte) (con : Console) :
    ∃ reading st, k.monitorStart line con = some reading ∧
      es.foldlM k.alarmStep ⟨none, reading⟩ = some st ∧
      Reports con st (es.foldl k.seenStep ⟨none, [], greeting ++ promptText⟩) := by
  have hrun : ∀ (es : List (Incident k)) {st : Alarm} {seen : Seen}, Reports con st seen →
      ∃ st', es.foldlM k.alarmStep st = some st' ∧ Reports con st' (es.foldl k.seenStep seen) := by
    intro es
    induction es with
    | nil => exact fun h => ⟨_, rfl, h⟩
    | cons e es ih =>
      intro st seen h
      obtain ⟨st₁, hstep, h₁⟩ := h.step e
      obtain ⟨st', hrest, h'⟩ := ih h₁
      exact ⟨st', by rw [List.foldlM_cons, hstep]; exact hrest, h'⟩
  have hstart : Reports con ⟨none, line, 0, cputs (greeting ++ promptText) con⟩
    ⟨none, [], greeting ++ promptText⟩ :=
    ⟨rfl, stored_nil _ _, rfl⟩
  obtain ⟨st, hst, h⟩ := hrun es hstart
  exact ⟨_, st, k.monitorStart_eq line con, hst, h⟩

theorem sample_placed_file :
    Placed sample.byte sample.buf (cstr "kern/init.c") (sampleLiteral (cstr "kern/init.c")) := by
  have hmem : cstr "kern/init.c" ∈ sampleStrings := by simp [sampleStrings]
  dsimp only [sample]
  exact sample_placed _ hmem

/-- A message from `kern/init.c` about a number. -/
def sampleMessage (line v : Word) (before after : CString) (hbefore : before.NoPercent)
    (hafter : after.NoPercent) : Message sample where
  file := cstr "kern/init.c"
  place := sampleLiteral (cstr "kern/init.c")
  line := line
  fmt := before ++ (cstr "%d" ++ after)
  ap := [v]
  text := before.plain ++ (integer v ++ after.plain)
  placed := sample_placed_file
  short := by decide +kernel
  comes := fun _ => putchCalls_plain_then _
    (putchCalls_integer_then _ (putchCalls_plain _ hafter) v) hbefore

/-- A key, a warning and two panics with their lines in the source. -/
def sampleIncidents : List (Incident sample) :=
  [.key 0x68 (by decide),
    .warn (sampleMessage 27 7 (cstr "page ") (cstr " is in use") (by decide +kernel)
      (by decide +kernel)),
    .panic (sampleMessage 30 9 (cstr "no page ") (cstr "") (by decide +kernel) (by decide +kernel)),
    .panic (sampleMessage 41 2 (cstr "trap ") (cstr " in the monitor") (by decide +kernel)
      (by decide +kernel))]

theorem panic_reports_first_sample :
    ∃ reading st, sample.monitorStart (fun _ => 0) ⟨⟨fun _ => 0, []⟩, .cga, 0, []⟩ = some reading ∧
      sampleIncidents.foldlM sample.alarmStep ⟨none, reading⟩ = some st ∧
      st.panicstr = some (cstr "no page %d") ∧ Stored st.reading [] ∧
      st.reading.con = cputs (greeting ++ promptText ++ (cstr "h").plain ++
        (cstr "kernel warning at kern/init.c:27: page 7 is in use\n").plain ++
        (cstr "kernel panic at kern/init.c:30: no page 9\n").plain ++
        greeting ++ promptText ++ greeting ++ promptText) ⟨⟨fun _ => 0, []⟩, .cga, 0, []⟩ := by
  obtain ⟨reading, st, hstart, hrun, hpanicstr, hstored, hsaid⟩ := panic_reports_first sample
    sampleIncidents (fun _ => 0) ⟨⟨fun _ => 0, []⟩, .cga, 0, []⟩
  have hformat : (sampleIncidents.foldl sample.seenStep ⟨none, [], greeting ++ promptText⟩).panicstr =
      some (cstr "no page " ++ (cstr "%d" ++ cstr "")) := by
    simp only [sampleIncidents, List.foldl_cons, List.foldl_nil, seenStep, sampleMessage, Option.none_or,
      Option.some_or]
  have hline : (sampleIncidents.foldl sample.seenStep ⟨none, [], greeting ++ promptText⟩).line = [] := by
    simp only [sampleIncidents, List.foldl_cons, List.foldl_nil, seenStep]
  rw [hformat] at hpanicstr
  rw [hline] at hstored
  refine ⟨reading, st, hstart, hrun, ?_, hstored, ?_⟩
  · exact hpanicstr.trans (congrArg some (CString.ext (by decide +kernel)))
  · have hseen : (sampleIncidents.foldl sample.seenStep ⟨none, [], greeting ++ promptText⟩).said =
        greeting ++ promptText ++ (cstr "h").plain ++
          (cstr "kernel warning at kern/init.c:27: page 7 is in use\n").plain ++
          (cstr "kernel panic at kern/init.c:30: no page 9\n").plain ++
          greeting ++ promptText ++ greeting ++ promptText := by
      decide +kernel
    exact hsaid.trans (congrArg (cputs · _) hseen)

end Kernel

end Jos
