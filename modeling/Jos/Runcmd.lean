import Jos.Loop
import Jos.Printfmt
import Jos.StringFns
import Jos.Words

/-! `runcmd` of `kern/monitor.c`. It cuts the command line into arguments in
place: each is ended by the NUL that the next turn's whitespace leaves behind. -/

namespace Jos

def WHITESPACE : CString := cstr "\t\r\n "
def MAXARGS : Nat := 16

inductive Handler where
  | monHelp
  | monKerninfo
  deriving DecidableEq

structure Command where
  name : CString
  desc : CString
  func : Handler

def commands : List Command :=
  [⟨cstr "help", cstr "Display this list of commands", .monHelp⟩,
    ⟨cstr "kerninfo", cstr "Display information about the kernel", .monKerninfo⟩]

/-- `*c && strchr(WHITESPACE, *c)` -/
def isBlank (c : Byte) : Option Bool :=
  if c = 0 then some false else (strchr c WHITESPACE.object).map fun found => found.isSome

/-- `while (*buf && strchr(WHITESPACE, *buf)) *buf++ = 0;` -/
def gobbleBody (st : Memory × Nat) : Option (Turn (Memory × Nat) (Memory × Nat)) :=
  (isBlank (st.1.byte st.2)).map fun blank =>
    if blank then .again (st.1.store st.2 0, st.2 + 1) else .leave st

/-- `while (*buf && !strchr(WHITESPACE, *buf)) buf++;` -/
def scanBody (m : Memory) (buf : Nat) : Option (Turn Nat Nat) :=
  if m.byte buf = 0 then some (.leave buf)
  else (isBlank (m.byte buf)).map fun blank => if blank then .leave buf else .again (buf + 1)

/-- A store to `argv[i]`, which has `MAXARGS` elements. -/
def storeArg (argv : Nat → Nat) (i p : Nat) : Option (Nat → Nat) :=
  if i < MAXARGS then some fun j => if j = i then p else argv j else none

structure Args where
  mem : Memory
  buf : Nat
  argc : Nat
  argv : Nat → Nat

/-- How the loop ends: with the arguments, or with one too many. -/
inductive Parsed where
  | args (st : Args)
  | tooMany (mem : Memory)

def runcmdTurn (fuel : Nat) (st : Args) : Option (Turn Args Parsed) :=
  (loop gobbleBody fuel (st.mem, st.buf)).bind fun (mem, buf) =>
  if mem.byte buf = 0 then some (.leave (.args { st with mem := mem, buf := buf }))
  else if st.argc = MAXARGS - 1 then some (.leave (.tooMany mem))
  else
    (storeArg st.argv st.argc buf).bind fun argv =>
    (loop (scanBody mem) fuel buf).map fun buf => .again ⟨mem, buf, st.argc + 1, argv⟩

/-- What `runcmd` comes to: its return value with the calls of `cprintf` before
it, or the call of the command's function whose value it returns. -/
inductive Outcome where
  | returns (ret : Int) (printed : List (CString × List Word))
  | calls (func : Handler) (argc : Nat) (argv : Nat → Nat)

/-- The lookup loop: the first command that the string at `p` names. -/
def findCommand (m : Memory) (p : Nat) : List Command → Option (Option Command)
  | [] => some none
  | cmd :: cmds => (strcmp m p cmd.name.object).bind fun d =>
    if d = 0 then some (some cmd) else findCommand m p cmds

/-- `fuel` bounds the turns of each loop; `argv` is what the array holds before it is set. -/
def runcmd (fuel : Nat) (m : Memory) (buf : Nat) (argv : Nat → Nat) : Option (Memory × Outcome) :=
  (storeArg argv 0 0).bind fun argv =>
  (loop (runcmdTurn fuel) fuel ⟨m, buf, 0, argv⟩).bind fun
  | .tooMany mem => some (mem, .returns 0
    [(cstr "Too many arguments (max %d)\n", [BitVec.ofNat 32 MAXARGS])])
  | .args st => (storeArg st.argv st.argc 0).bind fun argv =>
    if st.argc = 0 then some (st.mem, .returns 0 [])
    else (findCommand st.mem (argv 0) commands).map fun
    | some cmd => (st.mem, .calls cmd.func st.argc argv)
    | none => (st.mem, .returns 0 [(cstr "Unknown command '%s'\n", [BitVec.ofNat 32 (argv 0)])])

def isSpace (c : Byte) : Bool := decide (c ∈ WHITESPACE.bytes)

/-- The C string at `p` is `s`. -/
structure Spells (m : Memory) (p : Nat) (s : List Byte) : Prop where
  nonzero : ∀ b ∈ s, b ≠ 0
  bytes : m.view p (s.length + 1) = s ++ [0]

theorem isBlank_eq (c : Byte) : isBlank c = some (isSpace c) := by
  by_cases hc : c = 0
  · rw [isBlank, if_pos hc, isSpace, decide_eq_false fun h => WHITESPACE.nonzero c h hc]
  · rw [isBlank, if_neg hc]
    exact strchr_isSome c WHITESPACE.nonzero

variable {m m' : Memory} {p : Nat} {c : Byte} {s : List Byte}

theorem Spells.nil (h : Spells m p []) : m.byte p = 0 :=
  (List.cons_eq_cons.mp ((m.view_succ p 0).symm.trans h.bytes)).1

theorem Spells.cons (h : Spells m p (c :: s)) : m.byte p = c ∧ c ≠ 0 ∧ Spells m (p + 1) s := by
  obtain ⟨hbyte, hrest⟩ := List.cons_eq_cons.mp ((m.view_succ p _).symm.trans h.bytes)
  exact ⟨hbyte, h.nonzero c List.mem_cons_self, fun b hb => h.nonzero b (List.mem_cons_of_mem _ hb),
    hrest⟩

theorem Spells.append {s' : List Byte} (h : Spells m p (s ++ s')) :
    m.view p s.length = s ∧ Spells m (p + s.length) s' := by
  have hbytes := h.bytes
  rw [List.length_append, Nat.add_assoc, Memory.view_add, List.append_assoc] at hbytes
  obtain ⟨hs, hs'⟩ := List.append_inj hbytes (Memory.view_length _ _ _)
  exact ⟨hs, fun b hb => h.nonzero b (List.mem_append_right _ hb), hs'⟩

theorem Spells.view_end (h : Spells m p s) : m.view p s.length = s ∧ m.byte (p + s.length) = 0 := by
  have hbytes := h.bytes
  rw [Memory.view_add] at hbytes
  obtain ⟨hs, hnul⟩ := List.append_inj hbytes (Memory.view_length _ _ _)
  exact ⟨hs, (List.cons_eq_cons.mp ((m.view_succ _ 0).symm.trans hnul)).1⟩

theorem Spells.of_view (hs : ∀ b ∈ s, b ≠ 0) (hview : m.view p s.length = s)
    (hend : m.byte (p + s.length) = 0) :
    Spells m p s := by
  refine ⟨hs, ?_⟩
  rw [Memory.view_add, hview, Memory.view_succ, hend]
  rfl

theorem Spells.congr (h : Spells m p s) (hsame : ∀ a, p ≤ a → a ≤ p + s.length → m'.byte a = m.byte a) :
    Spells m' p s :=
  ⟨h.nonzero, (Memory.view_congr fun a ha hlt => hsame a ha (by omega)).trans h.bytes⟩

theorem Spells.gobble (h : Spells m p s) {fuel : Nat} (hfuel : s.length < fuel) :
    ∃ m', loop gobbleBody fuel (m, p) = some (m', p + (s.takeWhile isSpace).length) ∧
      Spells m' (p + (s.takeWhile isSpace).length) (s.dropWhile isSpace) ∧
      Memory.Within p (p + (s.takeWhile isSpace).length) m m' ∧
      ∀ a, p ≤ a → a < p + (s.takeWhile isSpace).length → m'.byte a = 0 := by
  induction s generalizing m p fuel with
  | nil =>
    obtain ⟨fuel, rfl⟩ := Nat.exists_eq_add_one_of_ne_zero (Nat.ne_zero_of_lt hfuel)
    have hturn : gobbleBody (m, p) = some (.leave (m, p)) := by
      rw [gobbleBody, h.nil, isBlank_eq]
      rfl
    exact ⟨m, loop_leave fuel hturn, h, .refl _ _ _, fun a ha hlt => absurd hlt (by simpa using ha)⟩
  | cons c s ih =>
    obtain ⟨fuel, rfl⟩ := Nat.exists_eq_add_one_of_ne_zero (Nat.ne_zero_of_lt hfuel)
    obtain ⟨hbyte, -, hrest⟩ := h.cons
    cases hc : isSpace c with
    | false =>
      have hturn : gobbleBody (m, p) = some (.leave (m, p)) := by
        rw [gobbleBody, hbyte, isBlank_eq, hc]
        rfl
      have hnot : ¬ isSpace c = true := by simp [hc]
      rw [List.takeWhile_cons_of_neg hnot, List.dropWhile_cons_of_neg hnot]
      exact ⟨m, loop_leave fuel hturn, h, .refl _ _ _, fun a ha hlt => absurd hlt (by simpa using ha)⟩
    | true =>
      have hturn : gobbleBody (m, p) = some (.again (m.store p 0, p + 1)) := by
        rw [gobbleBody, hbyte, isBlank_eq, hc]
        rfl
      have hspells : Spells (m.store p 0) (p + 1) s :=
        hrest.congr fun a ha _ => Memory.store_byte_ne (by omega)
      obtain ⟨m', hloop, hspells', hwithin, hzero⟩ := ih hspells (Nat.lt_of_succ_lt_succ hfuel)
      have hlen : p + (s.takeWhile isSpace).length + 1 = p + 1 + (s.takeWhile isSpace).length := by omega
      rw [List.takeWhile_cons_of_pos hc, List.dropWhile_cons_of_pos hc, List.length_cons,
        ← Nat.add_assoc, hlen]
      refine ⟨m', (loop_again fuel hturn).trans hloop, hspells', ?_, fun a ha hlt => ?_⟩
      · exact (Memory.within_store m 0 le_rfl (by omega)).trans (hwithin.mono (by omega) le_rfl)
      · by_cases hap : a = p
        · rw [hwithin.frame a (by omega), hap]
          exact Memory.store_byte_same m p 0
        · exact hzero a (by omega) hlt

theorem Spells.scan (h : Spells m p s) {fuel : Nat} (hfuel : s.length < fuel) :
    loop (scanBody m) fuel p = some (p + (s.takeWhile fun c => !isSpace c).length) := by
  induction s generalizing p fuel with
  | nil =>
    obtain ⟨fuel, rfl⟩ := Nat.exists_eq_add_one_of_ne_zero (Nat.ne_zero_of_lt hfuel)
    exact loop_leave fuel (if_pos h.nil)
  | cons c s ih =>
    obtain ⟨fuel, rfl⟩ := Nat.exists_eq_add_one_of_ne_zero (Nat.ne_zero_of_lt hfuel)
    obtain ⟨hbyte, hne, hrest⟩ := h.cons
    have hturn : scanBody m p = some (if isSpace c then .leave p else .again (p + 1)) := by
      rw [scanBody, hbyte, if_neg hne, isBlank_eq]
      rfl
    cases hc : isSpace c with
    | true =>
      rw [hc] at hturn
      rw [loop_leave fuel hturn, List.takeWhile_cons_of_neg (by simp [hc])]
      rfl
    | false =>
      rw [hc] at hturn
      rw [loop_again fuel hturn, ih hrest (Nat.lt_of_succ_lt_succ hfuel),
        List.takeWhile_cons_of_pos (by simp [hc]), List.length_cons]
      congr 1
      omega

/-- At the top of the loop: the words found so far, and the rest of the text from
`buf` on. Only the last word may be without its NUL yet. -/
structure Parsing (m : Memory) (base : Nat) (text : List Byte) (st : Args) (found : List (List Byte))
    (rest : List Byte) : Prop where
  spells : Spells st.mem st.buf rest
  place : base ≤ st.buf ∧ st.buf + rest.length = base + text.length
  within : Memory.Within base (base + text.length) m st.mem
  split : words isSpace text = found ++ words isSpace rest
  argc : st.argc = found.length
  room : found.length < MAXARGS
  ended : found = [] ∨ ∀ c ∈ rest.head?, isSpace c = true
  nonzero : ∀ w ∈ found, ∀ b ∈ w, b ≠ 0
  views : ∀ i (h : i < found.length), st.mem.view (st.argv i) found[i].length = found[i]
  ends : ∀ i (h : i < found.length), st.argv i + found[i].length = st.buf ∨
    (st.argv i + found[i].length < st.buf ∧ st.mem.byte (st.argv i + found[i].length) = 0)

theorem parsing_start {base : Nat} {text : List Byte} (h : Spells m base text) (argv : Nat → Nat) :
    Parsing m base text ⟨m, base, 0, argv⟩ [] text :=
  ⟨h, ⟨le_rfl, rfl⟩, .refl _ _ _, rfl, rfl, by decide, .inl rfl, by simp, by simp, by simp⟩

variable {base : Nat} {text rest : List Byte} {st : Args} {found : List (List Byte)}

/-- Past the whitespace every word found is a string. -/
theorem Parsing.gobble (h : Parsing m base text st found rest) {fuel : Nat}
    (hfuel : text.length < fuel) :
    ∃ mem, loop gobbleBody fuel (st.mem, st.buf) = some (mem, st.buf + (rest.takeWhile isSpace).length) ∧
      Spells mem (st.buf + (rest.takeWhile isSpace).length) (rest.dropWhile isSpace) ∧
      Memory.Within base (base + text.length) m mem ∧
      ∀ i (h : i < found.length), Spells mem (st.argv i) found[i] ∧
        st.argv i + found[i].length ≤ st.buf + (rest.takeWhile isSpace).length := by
  obtain ⟨hlow, hplace⟩ := h.place
  have hsplit : (rest.takeWhile isSpace).length + (rest.dropWhile isSpace).length = rest.length := by
    rw [← List.length_append, List.takeWhile_append_dropWhile]
  obtain ⟨mem, hloop, hspells, hwithin, hzero⟩ := h.spells.gobble (by omega : rest.length < fuel)
  refine ⟨mem, hloop, hspells, h.within.trans (hwithin.mono hlow (by omega)), fun i hi => ?_⟩
  have hend := h.ends i hi
  have hview : mem.view (st.argv i) found[i].length = found[i] :=
    (Memory.view_congr fun a _ hlt => hwithin.frame a (by omega)).trans (h.views i hi)
  refine ⟨.of_view (h.nonzero _ (List.getElem_mem hi)) hview ?_, by omega⟩
  rcases hend with heq | ⟨hlt, hnul⟩
  · rw [heq]
    cases rest with
    | nil => exact hspells.nil
    | cons c rest =>
      have hne : found ≠ [] := List.ne_nil_of_length_pos (by omega)
      have hc : isSpace c = true := h.ended.resolve_left hne c rfl
      exact hzero st.buf le_rfl (by rw [List.takeWhile_cons_of_pos hc, List.length_cons]; omega)
  · rw [hwithin.frame _ (by omega), hnul]

def Parsed.Splits (m : Memory) (base : Nat) (text : List Byte) : Parsed → Prop
  | .args st => (words isSpace text).length < MAXARGS ∧ st.argc = (words isSpace text).length ∧
      Memory.Within base (base + text.length) m st.mem ∧
      ∀ i (h : i < (words isSpace text).length), Spells st.mem (st.argv i) (words isSpace text)[i]
  | .tooMany mem => MAXARGS ≤ (words isSpace text).length ∧ Memory.Within base (base + text.length) m mem

/-- A word is taken: its pointer is stored, and `buf` is past it. -/
theorem Parsing.push {mem : Memory} {buf : Nat} {c : Byte} (h : Parsing m base text st found rest)
    (hlow : base ≤ buf) (hplace : buf + (c :: s).length = base + text.length)
    (hspells : Spells mem buf (c :: s)) (hwithin : Memory.Within base (base + text.length) m mem)
    (hfound : ∀ i (h : i < found.length), Spells mem (st.argv i) found[i] ∧
      st.argv i + found[i].length ≤ buf)
    (hsplit : words isSpace text = found ++ words isSpace (c :: s)) (hc : isSpace c = false)
    (hroom : found.length + 1 < MAXARGS) :
    Parsing m base text
      ⟨mem, buf + ((c :: s).takeWhile fun c => !isSpace c).length, st.argc + 1,
        fun j => if j = st.argc then buf else st.argv j⟩
      (found ++ [(c :: s).takeWhile fun c => !isSpace c]) ((c :: s).dropWhile fun c => !isSpace c) := by
  have hword := takeWhile_letters_ne_nil hc s
  have hlast : ∀ x ∈ ((c :: s).dropWhile fun c => !isSpace c).head?, isSpace x = true :=
    sep_of_head_dropWhile (c :: s)
  rw [words_takeWhile hc, List.append_cons] at hsplit
  have happend := List.takeWhile_append_dropWhile (p := fun c => !isSpace c) (l := c :: s)
  generalize (c :: s).takeWhile (fun c => !isSpace c) = word at hword hsplit happend
  generalize (c :: s).dropWhile (fun c => !isSpace c) = rest' at hlast hsplit happend
  rw [← happend] at hspells hplace
  rw [List.length_append] at hplace
  obtain ⟨hview, hrest⟩ := hspells.append
  have hpos : 0 < word.length := List.length_pos_of_ne_nil hword
  have hargc := h.argc
  have hkept : ∀ i < found.length, (if i = st.argc then buf else st.argv i) = st.argv i := fun i hi =>
    if_neg (by omega)
  have hadded : (if found.length = st.argc then buf else st.argv found.length) = buf := if_pos hargc.symm
  refine ⟨hrest, ⟨by dsimp only; omega, by dsimp only; omega⟩, hwithin, hsplit, ?_, ?_, .inr hlast,
    ?_, ?_, ?_⟩
  · rw [List.length_append, hargc, List.length_singleton]
  · rw [List.length_append, List.length_singleton]
    exact hroom
  · intro w hw b hb
    rcases List.mem_append.mp hw with hw | hw
    · exact h.nonzero w hw b hb
    · rw [List.mem_singleton.mp hw] at hb
      exact hspells.nonzero b (List.mem_append_left _ hb)
  · refine forall_getElem_concat
      (P := fun i w => mem.view (if i = st.argc then buf else st.argv i) w.length = w)
      (fun i hi => ?_) ?_
    · rw [hkept i hi]
      exact (hfound i hi).1.view_end.1
    · rw [hadded]
      exact hview
  · refine forall_getElem_concat
      (P := fun i w => (if i = st.argc then buf else st.argv i) + w.length = buf + word.length ∨
        ((if i = st.argc then buf else st.argv i) + w.length < buf + word.length ∧
          mem.byte ((if i = st.argc then buf else st.argv i) + w.length) = 0)) (fun i hi => ?_) ?_
    · have hend := (hfound i hi).2
      rw [hkept i hi]
      exact .inr ⟨by omega, (hfound i hi).1.view_end.2⟩
    · rw [hadded]
      exact .inl rfl

theorem Parsing.turn (h : Parsing m base text st found rest) {fuel : Nat} (hfuel : text.length < fuel) :
    (∃ r, runcmdTurn fuel st = some (.leave r) ∧ r.Splits m base text) ∨
      ∃ st' found' rest', runcmdTurn fuel st = some (.again st') ∧
        Parsing m base text st' found' rest' ∧ st.buf < st'.buf := by
  obtain ⟨mem, hgobble, hspells, hwithin, hfound⟩ := h.gobble hfuel
  obtain ⟨hlow, hplace⟩ := h.place
  have hargc := h.argc
  have hroom := h.room
  have hsplit := h.split
  have hhead := List.head?_dropWhile_not isSpace rest
  have hlen := congrArg List.length (List.takeWhile_append_dropWhile (p := isSpace) (l := rest))
  rw [List.length_append] at hlen
  rw [← words_dropWhile rest] at hsplit
  rw [runcmdTurn, hgobble, Option.bind_some]
  generalize (rest.takeWhile isSpace).length = gobbled at hspells hfound hlen
  generalize rest.dropWhile isSpace = rest' at hspells hsplit hhead hlen
  dsimp only
  cases rest' with
  | nil =>
    rw [words_nil, List.append_nil] at hsplit
    rw [if_pos hspells.nil]
    refine .inl ⟨_, rfl, ?_⟩
    simp only [Parsed.Splits, hsplit]
    exact ⟨hroom, hargc, hwithin, fun i hi => (hfound i hi).1⟩
  | cons c s =>
    obtain ⟨hbyte, hne, -⟩ := hspells.cons
    have hc : isSpace c = false := by simpa using hhead
    rw [hbyte, if_neg hne]
    by_cases hfull : st.argc = MAXARGS - 1
    · rw [if_pos hfull]
      refine .inl ⟨_, rfl, ?_, hwithin⟩
      rw [hsplit, words_takeWhile hc, List.length_append, List.length_cons]
      omega
    · have hfit : st.argc < MAXARGS := by omega
      have hscan := hspells.scan (by omega : (c :: s).length < fuel)
      rw [if_neg hfull, storeArg, if_pos hfit, Option.bind_some, hscan, Option.map_some]
      have hpos := List.length_pos_of_ne_nil (takeWhile_letters_ne_nil hc s)
      refine .inr ⟨_, _, _, rfl, h.push (by omega) (by omega) hspells hwithin hfound hsplit hc
        (by omega), ?_⟩
      dsimp only
      omega

theorem runcmd_loop (h : Spells m base text) (argv : Nat → Nat) {fuel : Nat}
    (hfuel : text.length < fuel) :
    ∃ r, loop (runcmdTurn fuel) fuel ⟨m, base, 0, argv⟩ = some r ∧ r.Splits m base text := by
  refine loop_total (fun st => ∃ found rest, Parsing m base text st found rest)
    (fun st => base + text.length - st.buf) ?_ ⟨[], text, parsing_start h argv⟩ (by dsimp only; omega)
  rintro st ⟨found, rest, hst⟩
  rcases hst.turn hfuel with hleave | ⟨st', found', rest', hturn, hst', hbuf⟩
  · exact .inl hleave
  · have hplace := hst'.place.2
    exact .inr ⟨st', hturn, ⟨found', rest', hst'⟩, by omega⟩

theorem findCommand_eq (h : Spells m p s) (cmds : List Command) :
    findCommand m p cmds = some (cmds.find? fun cmd => s = cmd.name.bytes) := by
  induction cmds with
  | nil => rfl
  | cons cmd cmds ih =>
    obtain ⟨d, hd, hiff⟩ := strcmp_eq_zero_iff h.nonzero cmd.name.nonzero h.bytes
    rw [findCommand, CString.object, hd, Option.bind_some]
    by_cases hs : s = cmd.name.bytes
    · rw [if_pos (hiff.mpr hs), List.find?_cons_of_pos (by simpa using hs)]
    · rw [if_neg (mt hiff.mp hs), List.find?_cons_of_neg (by simpa using hs), ih]

/-- `runcmd` cuts the line into its words: of one to fifteen it looks up the first
and calls the command with all of them, of none or more it runs nothing. -/
theorem runcmd_splits (m : Memory) (buf : Nat) (text : List Byte) (h : Spells m buf text)
    (argv : Nat → Nat) (fuel : Nat) (hfuel : text.length < fuel) :
    ∃ mem out, runcmd fuel m buf argv = some (mem, out) ∧
      Memory.Within buf (buf + text.length) m mem ∧
      ((words isSpace text).length = 0 ∨ MAXARGS ≤ (words isSpace text).length →
        ∃ printed, out = .returns 0 printed) ∧
      ∀ hfirst : 0 < (words isSpace text).length, (words isSpace text).length < MAXARGS →
        match commands.find? fun cmd => (words isSpace text)[0] = cmd.name.bytes with
        | none => ∃ printed, out = .returns 0 printed
        | some cmd => ∃ argv, out = .calls cmd.func (words isSpace text).length argv ∧
            argv (words isSpace text).length = 0 ∧
            ∀ i (hi : i < (words isSpace text).length), Spells mem (argv i) (words isSpace text)[i] := by
  obtain ⟨r, hloop, hr⟩ := runcmd_loop h (fun j => if j = 0 then 0 else argv j) hfuel
  have hstart : storeArg argv 0 0 = some fun j => if j = 0 then 0 else argv j := if_pos (by decide)
  rw [runcmd, hstart, Option.bind_some, hloop, Option.bind_some]
  cases r with
  | tooMany mem =>
    obtain ⟨hmany, hwithin⟩ := hr
    exact ⟨mem, _, rfl, hwithin, fun _ => ⟨_, rfl⟩, fun _ hfew => absurd hmany (by omega)⟩
  | args st =>
    obtain ⟨hfew, hargc, hwithin, hspells⟩ := hr
    have hlast : storeArg st.argv st.argc 0 = some fun j => if j = st.argc then 0 else st.argv j :=
      if_pos (by omega)
    dsimp only
    rw [hlast, Option.bind_some, hargc]
    by_cases hnone : (words isSpace text).length = 0
    · rw [if_pos hnone]
      exact ⟨st.mem, _, rfl, hwithin, fun _ => ⟨_, rfl⟩, fun hfirst => absurd hnone (by omega)⟩
    · have hfirst : 0 < (words isSpace text).length := by omega
      have hname : (0 : Nat) ≠ (words isSpace text).length := by omega
      rw [if_neg hnone]
      dsimp only
      rw [if_neg hname, findCommand_eq (hspells 0 hfirst), Option.map_some]
      cases hfind : commands.find? fun cmd => (words isSpace text)[0] = cmd.name.bytes with
      | none =>
        refine ⟨st.mem, _, rfl, hwithin, fun _ => ⟨_, rfl⟩, fun _ _ => ?_⟩
        rw [hfind]
        exact ⟨_, rfl⟩
      | some cmd =>
        refine ⟨st.mem, _, rfl, hwithin, fun hout => absurd hout (by omega), fun _ _ => ?_⟩
        rw [hfind]
        refine ⟨_, rfl, if_pos rfl, fun i hi => ?_⟩
        rw [if_neg (by omega)]
        exact hspells i hi

def helpLine : Memory :=
  ⟨fun a => if 100 ≤ a then (cstr " help  me").bytes.getD (a - 100) 0 else 0, []⟩

theorem runcmd_splits_help :
    ∃ mem argv, runcmd 10 helpLine 100 (fun _ => 0) = some (mem, .calls .monHelp 2 argv) ∧ argv 2 = 0 ∧
      Spells mem (argv 0) (cstr "help").bytes ∧ Spells mem (argv 1) (cstr "me").bytes := by
  have hline : Spells helpLine 100 (cstr " help  me").bytes := ⟨(cstr " help  me").nonzero, by decide⟩
  obtain ⟨mem, out, hrun, -, -, hcall⟩ :=
    runcmd_splits helpLine 100 (cstr " help  me").bytes hline (fun _ => 0) 10 (by decide)
  obtain ⟨argv, hout, hnull, hspells⟩ := hcall (by decide) (by decide)
  exact ⟨mem, argv, hout ▸ hrun, hnull, hspells 0 (by decide), hspells 1 (by decide)⟩

end Jos
