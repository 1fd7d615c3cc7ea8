import Jos.MonitorReply

/-! What the monitor is for: a shell that edits a line and answers it once it is
entered. The monitor never returns, and it prints what the shell says. -/

namespace Jos

def Ends (c : Byte) : Prop :=
  c = 0x0A ∨ c = 0x0D

instance (c : Byte) : Decidable (Ends c) :=
  inferInstanceAs (Decidable (_ ∨ _))

/-- What a key shows on the line. -/
def keyEcho (line : List Byte) (c : Byte) : List Word :=
  if IsErase c ∧ line ≠ [] then [0x08]
  else if IsPrint c ∧ line.length < BUFLEN - 1 then [c.setWidth 32]
  else []

namespace Kernel

variable (k : Kernel)

def reply (line : List Byte) : List Word :=
  match words isSpace line with
  | [] => []
  | name :: args =>
    if MAXARGS ≤ args.length + 1 then (cstr "Too many arguments (max 16)\n").plain
    else if name = (cstr "help").bytes then helpReply
    else if name = (cstr "kerninfo").bytes then k.symbols.reply.flatten
    else (cstr "Unknown command '").plain ++ (shown name ++ (cstr "'\n").plain)

def greeting : List Word :=
  (cstr "Welcome to the JOS kernel monitor!\n").plain ++
    (cstr "Type 'help' for a list of commands.\n").plain

def promptText : List Word :=
  shown (cstr "K> ").bytes

/-- The line after a key, and what the shell says to it. -/
def shellKey (line : List Byte) (c : Byte) : List Byte × List Word :=
  if Ends c then ([], 0x0A :: (k.reply line ++ promptText)) else (storeKey line c, keyEcho line c)

def shell : List Byte → List Byte → List Byte × List Word
  | [], line => (line, [])
  | c :: keys, line =>
    let now := k.shellKey line c
    let later := shell keys now.1
    (later.1, now.2 ++ later.2)

end Kernel

theorem gobble_ge {m m' : Memory} {p p' fuel : Nat} (h : loop gobbleBody fuel (m, p) = some (m', p')) :
    p ≤ p' := by
  refine loop_partial (fun r : Memory × Nat => p ≤ r.2) (fun st : Memory × Nat => p ≤ st.2) ?_ ?_
    le_rfl h
  · intro st st' hst hturn
    obtain ⟨blank, -, ht⟩ := Option.map_eq_some_iff.mp hturn
    split_ifs at ht
    cases ht
    exact Nat.le_succ_of_le hst
  · intro st r hst hturn
    obtain ⟨blank, -, ht⟩ := Option.map_eq_some_iff.mp hturn
    split_ifs at ht
    cases ht
    exact hst

theorem scan_ge {m : Memory} {p p' fuel : Nat} (h : loop (scanBody m) fuel p = some p') : p ≤ p' := by
  refine loop_partial (p ≤ ·) (p ≤ ·) ?_ ?_ le_rfl h
  · intro q q' hq hturn
    unfold scanBody at hturn
    split_ifs at hturn
    · cases hturn
    · obtain ⟨blank, -, ht⟩ := Option.map_eq_some_iff.mp hturn
      split_ifs at ht
      cases ht
      exact Nat.le_succ_of_le hq
  · intro q r hq hturn
    unfold scanBody at hturn
    split_ifs at hturn
    · cases hturn
      exact hq
    · obtain ⟨blank, -, ht⟩ := Option.map_eq_some_iff.mp hturn
      split_ifs at ht
      cases ht
      exact hq

def Args.Inside (base : Nat) (st : Args) : Prop :=
  base ≤ st.buf ∧ ∀ i < st.argc, base ≤ st.argv i ∧ st.argv i ≤ st.buf

theorem runcmdTurn_inside {base fuel : Nat} {st : Args} (h : st.Inside base) {t : Turn Args Parsed}
    (hturn : runcmdTurn fuel st = some t) :
    (∀ st', t = .again st' → st'.Inside base) ∧
      ∀ st', t = .leave (.args st') → st'.argc = st.argc ∧ st'.argv = st.argv := by
  obtain ⟨hbase, hargs⟩ := h
  obtain ⟨⟨mem, p⟩, hgobble, hrest⟩ := Option.bind_eq_some_iff.mp hturn
  have hp := gobble_ge hgobble
  dsimp only at hrest
  split_ifs at hrest
  · cases hrest
    refine ⟨by simp, ?_⟩
    rintro _ ⟨⟩
    exact ⟨rfl, rfl⟩
  · cases hrest
    simp
  · obtain ⟨argv, hstore, hrest⟩ := Option.bind_eq_some_iff.mp hrest
    obtain ⟨q, hscan, ht⟩ := Option.map_eq_some_iff.mp hrest
    have hq := scan_ge hscan
    unfold storeArg at hstore
    split_ifs at hstore
    cases hstore
    subst ht
    refine ⟨?_, by simp⟩
    rintro _ ⟨⟩
    refine ⟨by dsimp only; omega, fun i hi => ?_⟩
    dsimp only at hi ⊢
    by_cases hlast : i = st.argc
    · rw [if_pos hlast]
      omega
    · rw [if_neg hlast]
      have hi' := hargs i (by omega)
      omega

theorem runcmd_loop_inside {m : Memory} {base : Nat} {text : List Byte} (h : Spells m base text)
    (argv : Nat → Nat) {fuel : Nat} (hfuel : text.length < fuel) :
    ∃ r, loop (runcmdTurn fuel) fuel ⟨m, base, 0, argv⟩ = some r ∧ r.Splits m base text ∧
      ∀ st, r = .args st → ∀ i < st.argc, base ≤ st.argv i ∧ st.argv i ≤ base + text.length := by
  refine loop_total (fun st => (∃ found rest, Parsing m base text st found rest) ∧ st.Inside base)
    (fun st => base + text.length - st.buf) ?_
    ⟨⟨[], text, parsing_start h argv⟩, le_rfl, fun i hi => absurd hi (Nat.not_lt_zero i)⟩
    (by dsimp only; omega)
  rintro st ⟨⟨found, rest, hst⟩, hin⟩
  rcases hst.turn hfuel with ⟨r, hturn, hr⟩ | ⟨st', found', rest', hturn, hst', hbuf⟩
  · refine .inl ⟨r, hturn, hr, ?_⟩
    rintro st' rfl i hi
    obtain ⟨hargc, hargv⟩ := (runcmdTurn_inside hin hturn).2 st' rfl
    rw [hargc] at hi
    have hi' := hin.2 i hi
    have hplace := hst.place.2
    rw [hargv]
    omega
  · have hplace := hst'.place.2
    exact .inr ⟨st', hturn, ⟨⟨found', rest', hst'⟩, (runcmdTurn_inside hin hturn).1 st' rfl⟩, by omega⟩

theorem Spells.end_le {m : Memory} {p e : Nat} {s : List Byte} (h : Spells m p s) (hnul : m.byte e = 0)
    (hle : p ≤ e) : p + s.length ≤ e := by
  by_contra hlt
  obtain ⟨j, rfl⟩ := Nat.exists_eq_add_of_le hle
  have hzero : 0 ∈ s := by
    rw [← h.view_end.1]
    exact List.mem_map.mpr ⟨j, List.mem_range.mpr (by omega), hnul⟩
  exact h.nonzero 0 hzero rfl

namespace Kernel

variable (k : Kernel) {line : Nat → Byte} {text : List Byte}

theorem memory_eq {mem : Memory}
    (hwithin : Memory.Within k.buf (k.buf + text.length) (k.memory line) mem)
    (hlen : text.length < BUFLEN) : (k.memory fun i => mem.byte (k.buf + i)).byte = mem.byte := by
  funext a
  by_cases ha : k.buf ≤ a ∧ a < k.buf + BUFLEN
  · have hadd : k.buf + (a - k.buf) = a := by omega
    simp [memory, ha, hadd]
  · have hframe := hwithin.frame a (by omega)
    rw [hframe]
    simp [memory, ha]

/-- An argument, as the formatter reads it. -/
theorem string_argument {mem : Memory} {p : Nat} {s : CString} (hmem : (k.memory line).byte = mem.byte)
    (hs : Spells mem p s.bytes) (hlow : k.buf ≤ p) (hhigh : p + s.bytes.length < k.buf + BUFLEN) :
    s.object <+: (k.rom line).string (BitVec.ofNat 32 p) := by
  have hpos := k.buf_pos
  have hfits := k.buf_fits
  have hp : (BitVec.ofNat 32 p).toNat = p := Nat.mod_eq_of_lt (by omega)
  have hne : BitVec.ofNat 32 p ≠ 0 := fun h => by
    rw [h] at hp
    have hzero : (0 : Word).toNat = 0 := rfl
    omega
  have hview : (k.memory line).view p (s.bytes.length + 1) = s.object :=
    (Memory.view_congr fun a _ _ => congrFun hmem a).trans hs.bytes
  rw [Rom.string, if_neg hne, ← hview]
  simp only [rom, hp]
  exact Memory.view_prefix _ _ (by omega)

theorem find_command (name : List Byte) : (commands.find? fun cmd => name = cmd.name.bytes) =
    if name = (cstr "help").bytes then some ⟨cstr "help", cstr "Display this list of commands", .monHelp⟩
    else if name = (cstr "kerninfo").bytes then
      some ⟨cstr "kerninfo", cstr "Display information about the kernel", .monKerninfo⟩
    else none := by
  simp only [commands, List.find?_cons, List.find?_nil]
  split_ifs <;> simp_all

/-- What `runcmd` comes to once it has looked up the name of the command, which is at `p`. -/
def lookedUp (argc : Nat) (argv : Nat → Nat) (p : Word) : Option Command → Outcome
  | some cmd => .calls cmd.func argc argv
  | none => .returns 0 [(cstr "Unknown command '%s'\n", [p])]

theorem perform_lookedUp {name : List Byte} {args : List (List Byte)}
    (hwords : words isSpace text = name :: args)
    (hfew : args.length + 1 < MAXARGS) {s : CString} (hname : s.bytes = name) {p : Word}
    (hs : s.object <+: (k.rom line).string p) (hlen : name.length < 2 ^ 31) (argc : Nat)
    (argv : Nat → Nat) (con : Console) :
    k.perform (k.rom line) con (lookedUp argc argv p (commands.find? fun cmd => name = cmd.name.bytes)) =
      some (0, cputs (k.reply text) con) := by
  have hmany : ¬ MAXARGS ≤ args.length + 1 := by omega
  simp only [find_command, reply, hwords, if_neg hmany]
  by_cases hhelp : name = (cstr "help").bytes
  · simp only [if_pos hhelp]
    exact k.monHelp_eq line con
  by_cases hkern : name = (cstr "kerninfo").bytes
  · simp only [if_neg hhelp, if_pos hkern]
    exact k.monKerninfo_eq (k.rom line) con
  · have hprint : prints (k.rom line) con (cstr "Unknown command '%s'\n", [p]) = _ :=
      prints_calls (putchCalls_unknown (k.rom line) hs (hname ▸ hlen)) con
    simp [hhelp, hkern, lookedUp, perform, hprint, hname]

/-- `runcmd` replies to the words of the line, and returns 0. -/
theorem runcmd_eq (hspells : Spells (k.memory line) k.buf text) (hlen : text.length < BUFLEN)
    (con : Console) :
    ∃ line', k.runcmd line con = some (0, line', cputs (k.reply text) con) := by
  obtain ⟨r, hloop, hr, hin⟩ := runcmd_loop_inside hspells (fun j => if j = 0 then 0 else k.argv j) hlen
  have hstart : storeArg k.argv 0 0 = some fun j => if j = 0 then 0 else k.argv j := if_pos (by decide)
  simp only [runcmd, Jos.runcmd, hstart, hloop, Option.bind_some]
  cases r with
  | tooMany mem =>
    have hmany := hr.1
    have hreply : k.reply text = (cstr "Too many arguments (max 16)\n").plain := by
      rw [reply]
      cases hwords : words isSpace text with
      | nil => simp [hwords, MAXARGS] at hmany
      | cons name args => exact if_pos (by simpa [hwords] using hmany)
    have hprint (rom : Rom) : prints rom con
      (cstr "Too many arguments (max %d)\n", [BitVec.ofNat 32 MAXARGS]) = _ :=
      prints_calls (putchCalls_tooMany rom) con
    exact ⟨fun i => mem.byte (k.buf + i), by simp [perform, hprint, hreply]⟩
  | args st =>
    obtain ⟨hfew, hargc, hwithin, hargs⟩ := hr
    have hlast : storeArg st.argv st.argc 0 = some fun j => if j = st.argc then 0 else st.argv j :=
      if_pos (by omega)
    dsimp only
    rw [hlast, Option.bind_some]
    cases hwords : words isSpace text with
    | nil =>
      have hzero : st.argc = 0 := by rw [hargc, hwords]; rfl
      exact ⟨fun i => st.mem.byte (k.buf + i), by simp [hzero, perform, reply, hwords]⟩
    | cons name args =>
      have hpos : 0 < (words isSpace text).length := by simp [hwords]
      have hname : (words isSpace text)[0] = name := by simp [hwords]
      have hfirst : Spells st.mem (st.argv 0) name := hname ▸ hargs 0 hpos
      obtain ⟨hlow, hhigh⟩ := hin st rfl 0 (hargc ▸ hpos)
      have hnul : st.mem.byte (k.buf + text.length) = 0 :=
        (hwithin.frame _ (by omega)).trans hspells.view_end.2
      have hroom := hfirst.end_le hnul hhigh
      have hargv : (0 : Nat) ≠ st.argc := by omega
      have hstring :=
        k.string_argument (s := ⟨name, hfirst.nonzero⟩) (k.memory_eq hwithin hlen) hfirst hlow
        (by dsimp only; omega)
      have hdone := k.perform_lookedUp hwords (by simpa [hwords] using hfew) rfl hstring
        (by unfold BUFLEN at hlen; omega) st.argc (fun j => if j = st.argc then 0 else st.argv j) con
      refine ⟨fun i => st.mem.byte (k.buf + i), ?_⟩
      simp only [if_neg hargv.symm, if_neg hargv, findCommand_eq hfirst]
      generalize commands.find? (fun cmd => name = cmd.name.bytes) = cmd at hdone ⊢
      cases cmd <;> simpa [lookedUp] using hdone

theorem prompt_eq (line : Nat → Byte) (con : Console) :
    k.prompt line con = some ⟨line, 0, cputs promptText con⟩ := by
  have hmem : cstr "K> " ∈ literals := List.mem_append_left _ List.mem_cons_self
  have hformat : cstr "%s" = cstr "%s" ++ cstr "" := by
    ext1
    exact (List.append_nil _).symm
  have hnil : putchCalls (k.rom line) (cstr "") [] = some [] := rfl
  have hcalls :=
    putchCalls_string_then (k.rom line) hnil (k.string_literal hmem line) (command_length _ hmem)
  rw [← hformat, List.append_nil] at hcalls
  have hprint : prints (k.rom line) con (cstr "%s", [k.literal (cstr "K> ")]) = _ :=
    prints_calls hcalls con
  rw [prompt, startReading, if_pos (k.placed _ hmem).nonnull, hprint]
  rfl

theorem monitorStart_eq (line : Nat → Byte) (con : Console) :
    k.monitorStart line con = some ⟨line, 0, cputs (greeting ++ promptText) con⟩ := by
  have hlines : List.Forall₂ (fun call text => putchCalls (k.rom line) call.1 call.2 = some text)
      [(cstr "Welcome to the JOS kernel monitor!\n", []),
        (cstr "Type 'help' for a list of commands.\n", [])]
      [(cstr "Welcome to the JOS kernel monitor!\n").plain,
        (cstr "Type 'help' for a list of commands.\n").plain] :=
    .cons (putchCalls_plain _ (by decide +kernel)) (.cons (putchCalls_plain _ (by decide +kernel)) .nil)
  rw [monitorStart, foldlM_prints hlines, Option.bind_some, prompt_eq]
  simp [greeting]

theorem stored_nil (buf : Nat → Byte) (con : Console) : Stored ⟨buf, 0, con⟩ [] :=
  ⟨rfl, by decide, by simp, by simp⟩

theorem spells_line {st : Reading} (h : Stored st text) :
    Spells (k.memory (setBuf st.buf st.i 0)) k.buf text := by
  have hroom := h.room
  have hi := h.i
  have hbyte : ∀ j < BUFLEN, (k.memory (setBuf st.buf st.i 0)).byte (k.buf + j) =
    setBuf st.buf st.i 0 j := by
    intro j hj
    simp [memory, hj]
  refine .of_view h.nonzero (List.ext_getElem (by simp) fun j _ hj => ?_) ?_
  · have hne : j ≠ st.i := by omega
    rw [Memory.view_getElem, hbyte j (by omega), setBuf, if_neg hne]
    exact h.chars j hj
  · rw [hbyte _ hroom, setBuf, if_pos hi.symm]

theorem echo_key (c : Byte) (con : Console) :
    echo (iscons 0) c.toNat con = cputs [c.setWidth 32] con := by
  have hc : BitVec.ofInt 32 (c.toNat : Int) = c.setWidth 32 := BitVec.eq_of_toNat_eq (by simp)
  rw [echo, if_pos (by decide), hc]
  rfl

theorem echo_keyTurn {st st' : Reading} (h : Stored st text) {c : Byte}
    (hst : KeyTurn (iscons 0) c st st') :
    st'.con = cputs (keyEcho text c) st.con := by
  have hi := h.i
  have hne : st.i > 0 ↔ text ≠ [] := by
    rw [hi]
    exact List.length_pos_iff
  cases hst with
  | erase hc hi =>
    rw [keyEcho, if_pos ⟨hc, hne.mp hi⟩]
    rfl
  | store herase hp hroom =>
    rw [hi] at hroom
    rw [hne] at herase
    rw [keyEcho, if_neg herase, if_pos ⟨hp, hroom⟩]
    exact echo_key c st.con
  | ignore herase hp =>
    rw [hi] at hp
    rw [hne] at herase
    rw [keyEcho, if_neg herase, if_neg hp]
    rfl

/-- A key, or a whole line when the key enters it. -/
theorem monitorTurn_eq {st : Reading} (h : Stored st text) {c : Byte} (hc : c ≠ 0) :
    ∃ st', k.monitorTurn c.toNat st = some (.again st') ∧ Stored st' (k.shellKey text c).1 ∧
      st'.con = cputs (k.shellKey text c).2 st.con := by
  by_cases hend : Ends c
  · obtain ⟨line', hrun⟩ := k.runcmd_eq (k.spells_line h) h.room (echo (iscons 0) 0x0A st.con)
    have hret : ¬ (0 : Int) < 0 := by decide
    have hecho : echo (iscons 0) 0x0A st.con = cputs [0x0A] st.con := echo_key 0x0A st.con
    refine ⟨⟨line', 0, cputs promptText (cputs (k.reply text) (echo (iscons 0) 0x0A st.con))⟩, ?_,
      ?_, ?_⟩
    · simp only [monitorTurn, readlineTurn_newline _ _ _ hend, Option.bind_some, hrun, prompt_eq,
        if_neg hret]
      rfl
    · rw [shellKey, if_pos hend]
      exact stored_nil _ _
    · have hsaid : 0x0A :: (k.reply text ++ promptText) = [0x0A] ++ (k.reply text ++ promptText) := rfl
      rw [shellKey, if_pos hend, hecho, hsaid, cputs_append, cputs_append]
  · obtain ⟨st', hturn, hst'⟩ :=
      readlineTurn_key (k.rom st.buf) (iscons 0) st
        ⟨hc, fun he => hend (.inl he), fun he => hend (.inr he)⟩
    rw [shellKey, if_neg hend]
    exact ⟨st', by simp [monitorTurn, hturn], h.turn hc hst', echo_keyTurn h hst'⟩

theorem monitorLoop_eq {keys : List Byte} (hkeys : ∀ c ∈ keys, c ≠ 0) {st : Reading}
    (h : Stored st text) :
    ∃ st', k.monitorLoop (keys.map fun c => (c.toNat : Int)) st = some (.again st') ∧
      Stored st' (k.shell keys text).1 ∧ st'.con = cputs (k.shell keys text).2 st.con := by
  induction keys generalizing st text with
  | nil => exact ⟨st, rfl, h, rfl⟩
  | cons c keys ih =>
    obtain ⟨st₁, hturn, hst₁, hcon₁⟩ := k.monitorTurn_eq h (hkeys c List.mem_cons_self)
    obtain ⟨st', hloop, hst', hcon'⟩ := ih (fun b hb => hkeys b (List.mem_cons_of_mem _ hb)) hst₁
    refine ⟨st', ?_, hst', ?_⟩
    · rw [List.map_cons, monitorLoop, hturn]
      exact hloop
    · rw [hcon', hcon₁, shell, cputs_append]

/-- The monitor prints what the shell says, keeps the shell's line, and does not return. -/
theorem monitor_refines_shell (k : Kernel) (keys : List Byte) (hkeys : ∀ c ∈ keys, c ≠ 0)
    (line : Nat → Byte) (con : Console) :
    ∃ st, k.monitor (keys.map fun c => (c.toNat : Int)) line con = some (.again st) ∧
      Stored st (k.shell keys []).1 ∧
      st.con = cputs (greeting ++ promptText ++ (k.shell keys []).2) con := by
  obtain ⟨st, hloop, hst, hcon⟩ := k.monitorLoop_eq hkeys
    (stored_nil line (cputs (greeting ++ promptText) con))
  refine ⟨st, ?_, hst, ?_⟩
  · rw [monitor, monitorStart_eq]
    exact hloop
  · rw [hcon, ← cputs_append]

def sampleBase : Nat := 0xF0101000

/-- The strings of a kernel, one after the other. -/
def sampleStrings : List CString :=
  literals ++ [cstr "kern/init.c"]

def sampleByte (a : Nat) : Byte :=
  (sampleStrings.flatMap CString.object).getD (a - sampleBase) 0

def sampleLiteral (s : CString) : Word :=
  BitVec.ofNat 32 (sampleBase +
    ((sampleStrings.takeWhile fun t => t.bytes != s.bytes).flatMap CString.object).length)

theorem sample_placed : ∀ s ∈ sampleStrings, Placed sampleByte 0xF0110000 s (sampleLiteral s) := by
  have hall : ∀ s ∈ sampleStrings, sampleLiteral s ≠ 0 ∧
      (sampleLiteral s).toNat + s.object.length ≤ 0xF0110000 ∧
      ∀ i (h : i < s.object.length), sampleByte ((sampleLiteral s).toNat + i) = s.object[i] := by
    decide +kernel
  intro s hs
  obtain ⟨hne, hlow, hbytes⟩ := hall s hs
  exact ⟨hne, by omega, .inl hlow, hbytes⟩

def sample : Kernel where
  byte := sampleByte
  buf := 0xF0110000
  literal := sampleLiteral
  symbols := ⟨0xF010000C, 0xF0101000, 0xF0103000, 0xF0112000, by decide, by decide, by decide, by decide⟩
  argv := fun _ => 0
  buf_pos := by decide
  buf_fits := by decide
  placed := fun s hs => sample_placed s (List.mem_append_left _ hs)

theorem monitor_refines_shell_help :
    ∃ st, sample.monitor [0x68, 0x65, 0x6C, 0x70, 0x0D] (fun _ => 0) ⟨⟨fun _ => 0, []⟩, .cga, 0, []⟩ =
        some (.again st) ∧ Stored st [] ∧
      st.con = cputs (greeting ++ promptText ++
        (shown (cstr "help").bytes ++ 0x0A :: (helpReply ++ promptText)))
        ⟨⟨fun _ => 0, []⟩, .cga, 0, []⟩ := by
  have hshell : sample.shell [0x68, 0x65, 0x6C, 0x70, 0x0D] [] =
      ([], shown (cstr "help").bytes ++ 0x0A :: (helpReply ++ promptText)) := by
    decide +kernel
  have hrun := monitor_refines_shell sample [0x68, 0x65, 0x6C, 0x70, 0x0D] (by decide) (fun _ => 0)
    ⟨⟨fun _ => 0, []⟩, .cga, 0, []⟩
  rw [hshell] at hrun
  exact hrun

end Kernel

end Jos
