import Jos.KbdTyping
import Jos.System

/-! What is typed is what the shell answers, whenever the bytes arrive, the devices
interrupt and the monitor polls. -/

namespace Jos

def scansOf (es : List Input) : List PortByte :=
  es.filterMap fun
    | .scan b => some b
    | _ => none

def serialsOf (es : List Input) : List Byte :=
  es.filterMap fun
    | .serial b => some b
    | _ => none

/-- Where every character is: what was read of the serial line, decoded from the
keyboard and taken by the shell, and what is still on its way. -/
structure Accounts (k : Kernel) (serialExists : Bool) (scans : List PortByte) (serials : List Byte)
    (d : Desk) (drained read taken : List Byte) : Prop where
  clean : ∀ b ∈ d.scans, b.fromMouse = false
  scans : scans.map PortByte.data = drained ++ d.scans.map PortByte.data
  shift : d.shift = (decode drained 0).2
  serials : serials = read ++ d.uart
  silent : serialExists = false → read = []
  merged : Merges (read.filter (· ≠ 0)) ((decode drained 0).1.filter (· ≠ 0)) (taken ++ d.waiting)
  line : d.line = (k.shell taken []).1
  said : d.said = (Desk.start serialExists).said ++ (k.shell taken []).2

theorem shell_append (k : Kernel) (keys keys' line : List Byte) :
    k.shell (keys ++ keys') line = ((k.shell keys' (k.shell keys line).1).1,
      (k.shell keys line).2 ++ (k.shell keys' (k.shell keys line).1).2) := by
  induction keys generalizing line with
  | nil => rfl
  | cons c keys ih => simp [Kernel.shell, ih]

theorem accounts_start (k : Kernel) (serialExists : Bool) :
    Accounts k serialExists [] [] (.start serialExists) [] [] [] :=
  ⟨by simp [Desk.start], rfl, rfl, rfl, fun _ => rfl, .nil, rfl, (List.append_nil _).symm⟩

/-- The characters that the serial line sends, where there is one. -/
def sentIn (serialExists : Bool) (serials : List Byte) : List Byte :=
  (if serialExists then serials else []).filter (· ≠ 0)

/-- Those that the driver makes of the bytes of the keyboard. -/
def typedIn (scans : List PortByte) : List Byte :=
  (decode (scans.map PortByte.data) 0).1.filter (· ≠ 0)

def arriving (serialExists : Bool) (scans : List PortByte) (serials : List Byte) : Nat :=
  (sentIn serialExists serials).length + (typedIn scans).length

namespace Accounts

variable {k : Kernel} {serialExists : Bool} {scans : List PortByte} {serials : List Byte} {d d' : Desk}
  {drained read taken : List Byte}

theorem scan (h : Accounts k serialExists scans serials d drained read taken) {b : PortByte}
    (hb : b.fromMouse = false) :
    Accounts k serialExists (scans ++ [b]) serials
      { d with scans := d.scans ++ [b] } drained read taken := by
  refine { h with clean := fun x hx => ?_, scans := by simp [h.scans] }
  rcases List.mem_append.mp hx with hx | hx
  · exact h.clean x hx
  · rwa [List.mem_singleton.mp hx]

theorem serial (h : Accounts k serialExists scans serials d drained read taken) (b : Byte) :
    Accounts k serialExists scans (serials ++ [b]) { d with uart := d.uart ++ [b] } drained read taken :=
  { h with serials := by simp [h.serials] }

theorem serialIntr (h : Accounts k serialExists scans serials d drained read taken)
    (hd : d.serialIntr serialExists = some d') :
    ∃ read', Accounts k serialExists scans serials d' drained read' taken ∧
      (serialExists = true → d'.uart = []) ∧
      d'.scans = d.scans := by
  cases serialExists with
  | false =>
    cases hd
    exact ⟨read, h, by simp, rfl⟩
  | true =>
    obtain ⟨-, rfl⟩ := Desk.queue_some hd
    refine ⟨read ++ d.uart, { h with serials := ?_, silent := by simp, merged := ?_ }, fun _ => rfl, rfl⟩
    · simp [h.serials]
    · rw [List.filter_append, ← List.append_assoc]
      exact h.merged.append_left _

theorem clean_front (h : Accounts k serialExists scans serials d drained read taken) :
    inFront d.scans = d.scans.map PortByte.data ∧ (d.scans.dropWhile fun b => !b.fromMouse) = [] := by
  have hall : ∀ b ∈ d.scans, (!b.fromMouse) = true := fun b hb => by simp [h.clean b hb]
  exact ⟨congrArg (List.map PortByte.data) (List.takeWhile_eq_self_iff.mpr hall),
    List.dropWhile_eq_nil_iff.mpr hall⟩

theorem kbdIntr (h : Accounts k serialExists scans serials d drained read taken)
    (hd : d.kbdIntr = some (.again d')) :
    ∃ drained', Accounts k serialExists scans serials d' drained' read taken ∧ d'.scans = [] ∧
      d'.uart = d.uart := by
  obtain ⟨hfront, hrest⟩ := h.clean_front
  unfold Desk.kbdIntr at hd
  dsimp only at hd
  rw [hfront, hrest] at hd
  split_ifs at hd
  · obtain ⟨d'', hqueue, heq⟩ := Option.map_eq_some_iff.mp hd
    cases heq
    obtain ⟨-, rfl⟩ := Desk.queue_some hqueue
    have hdecode := decode_append drained (d.scans.map PortByte.data) 0
    rw [← h.shift] at hdecode
    refine ⟨drained ++ d.scans.map PortByte.data,
      { h with
        clean := by simp, scans := by simp [h.scans], shift := by rw [hdecode], merged := ?_ },
      rfl, rfl⟩
    rw [hdecode, List.filter_append, ← List.append_assoc]
    exact h.merged.append_right _
  · cases hd

theorem answer (h : Accounts k serialExists scans serials d drained read taken) :
    (d.waiting = [] ∧ k.deskAnswer d = d) ∨
      ∃ c, Accounts k serialExists scans serials (k.deskAnswer d) drained read (taken ++ [c]) := by
  cases hd : d.waiting with
  | nil => exact .inl ⟨rfl, by rw [Kernel.deskAnswer, hd]⟩
  | cons c waiting =>
    have hmerged := h.merged
    rw [hd, List.append_cons] at hmerged
    have hnow : k.deskAnswer d =
        { d with
          waiting := waiting, line := (k.shellKey d.line c).1,
          said := d.said ++ (k.shellKey d.line c).2 } := by
      rw [Kernel.deskAnswer, hd]
    have hlast (line : List Byte) :
      k.shell [c] line = ((k.shellKey line c).1, (k.shellKey line c).2 ++ []) := rfl
    refine .inr ⟨c, ?_⟩
    rw [hnow]
    refine { h with merged := hmerged, line := ?_, said := ?_ }
    · rw [shell_append, hlast, h.line]
    · rw [shell_append, hlast, h.said, h.line]
      simp

theorem sent_eq (h : Accounts k serialExists scans serials d drained read taken) :
    sentIn serialExists serials = read.filter (· ≠ 0) ++ sentIn serialExists d.uart := by
  cases serialExists with
  | false => simp [sentIn, h.silent rfl]
  | true => simp [sentIn, h.serials]

theorem typed_eq (h : Accounts k serialExists scans serials d drained read taken) :
    typedIn scans = (decode drained 0).1.filter (· ≠ 0) ++
      (decode (d.scans.map PortByte.data) d.shift).1.filter (· ≠ 0) := by
  rw [typedIn, h.scans, decode_append, h.shift, List.filter_append]

theorem count (h : Accounts k serialExists scans serials d drained read taken) :
    taken.length + d.waiting.length + (sentIn serialExists d.uart).length +
      ((decode (d.scans.map PortByte.data) d.shift).1.filter (· ≠ 0)).length =
      arriving serialExists scans serials := by
  have hmerged := h.merged.length_eq
  rw [arriving, h.sent_eq, h.typed_eq]
  simp only [List.length_append] at hmerged ⊢
  omega

theorem complete (h : Accounts k serialExists scans serials d drained read taken)
    (hall : taken.length = arriving serialExists scans serials) :
    Merges (sentIn serialExists serials) (typedIn scans) taken := by
  have hcount := h.count
  have hwaiting : d.waiting = [] := List.eq_nil_of_length_eq_zero (by omega)
  have huart : sentIn serialExists d.uart = [] := List.eq_nil_of_length_eq_zero (by omega)
  have hcodes : (decode (d.scans.map PortByte.data) d.shift).1.filter (· ≠ 0) = [] :=
    List.eq_nil_of_length_eq_zero (by omega)
  have hmerged := h.merged
  rw [hwaiting, List.append_nil] at hmerged
  rw [h.sent_eq, h.typed_eq, huart, hcodes, List.append_nil, List.append_nil]
  exact hmerged

/-- Nothing is on its way. -/
theorem quiet (h : Accounts k serialExists scans serials d drained read taken) (hscans : d.scans = [])
    (huart : serialExists = true → d.uart = []) (hwaiting : d.waiting = []) :
    taken.length = arriving serialExists scans serials := by
  have hsent : sentIn serialExists d.uart = [] := by
    cases serialExists with
    | false => rfl
    | true => simp [sentIn, huart rfl]
  have hcount := h.count
  rw [hscans, hsent, hwaiting] at hcount
  simpa [decode] using hcount

end Accounts

theorem scansOf_append (es es' : List Input) : scansOf (es ++ es') = scansOf es ++ scansOf es' :=
  List.filterMap_append

theorem serialsOf_append (es es' : List Input) : serialsOf (es ++ es') = serialsOf es ++ serialsOf es' :=
  List.filterMap_append

theorem rebootsIn_append (codes codes' : List Byte) (shift : Word) :
    rebootsIn (codes ++ codes') shift =
      rebootsIn codes shift + rebootsIn codes' (decode codes shift).2 := by
  induction codes generalizing shift with
  | nil => simp [rebootsIn, decode]
  | cons data codes ih => simp only [List.cons_append, rebootsIn, decode, ih, Nat.add_assoc]

namespace Accounts

variable {k : Kernel} {serialExists : Bool} {es : List Input} {d d' : Desk}
  {drained read taken : List Byte}

theorem getchar {scans : List PortByte} {serials : List Byte}
    (h : Accounts k serialExists scans serials d drained read taken)
    (hd : k.deskStep serialExists d .getchar = some (.again d')) :
    ∃ drained' read' taken', Accounts k serialExists scans serials d' drained' read' taken' ∧
      (taken.length < taken'.length ∨ taken'.length = arriving serialExists scans serials) := by
  obtain ⟨d₁, hd₁, hrest⟩ := Option.bind_eq_some_iff.mp hd
  obtain ⟨t, ht, hrest⟩ := Option.bind_eq_some_iff.mp hrest
  cases t with
  | leave said => cases hrest
  | again d₂ =>
    cases hrest
    obtain ⟨read', h₁, huart, -⟩ := h.serialIntr hd₁
    obtain ⟨drained', h₂, hscans, hsame⟩ := h₁.kbdIntr ht
    rcases h₂.answer with ⟨hnone, heq⟩ | ⟨c, h₃⟩
    · rw [heq]
      exact ⟨drained', read', taken, h₂, .inr (h₂.quiet hscans (fun he => hsame.trans (huart he)) hnone)⟩
    · exact ⟨drained', read', taken ++ [c], h₃, .inl (by simp)⟩

theorem step (h : Accounts k serialExists (scansOf es) (serialsOf es) d drained read taken) (e : Input)
    (hclean : ∀ b ∈ scansOf (es ++ [e]), b.fromMouse = false)
    (hd : k.deskStep serialExists d e = some (.again d')) :
    ∃ drained' read' taken',
      Accounts k serialExists (scansOf (es ++ [e]))
        (serialsOf (es ++ [e])) d' drained' read' taken' := by
  rw [scansOf_append] at hclean ⊢
  rw [serialsOf_append]
  have hscans : scansOf es ++ [] = scansOf es := List.append_nil _
  have hserials : serialsOf es ++ [] = serialsOf es := List.append_nil _
  cases e with
  | scan b =>
    cases hd
    have hb : b.fromMouse = false := hclean b (List.mem_append_right _ (List.mem_singleton_self b))
    exact ⟨drained, read, taken, hserials.symm ▸ h.scan hb⟩
  | serial b =>
    cases hd
    exact ⟨drained, read, taken, hscans.symm ▸ h.serial b⟩
  | kbdIntr =>
    obtain ⟨drained', h', -⟩ := h.kbdIntr hd
    exact ⟨drained', read, taken, hscans.symm ▸ hserials.symm ▸ h'⟩
  | serialIntr =>
    obtain ⟨d₁, hd₁, heq⟩ := Option.map_eq_some_iff.mp hd
    cases heq
    obtain ⟨read', h', -⟩ := h.serialIntr hd₁
    exact ⟨drained, read', taken, hscans.symm ▸ hserials.symm ▸ h'⟩
  | getchar =>
    obtain ⟨drained', read', taken', h', -⟩ := h.getchar hd
    exact ⟨drained', read', taken', hscans.symm ▸ hserials.symm ▸ h'⟩

theorem of_run (hclean : ∀ b ∈ scansOf es, b.fromMouse = false)
    (hrun : run (k.deskStep serialExists) es (.start serialExists) = some (.again d)) :
    ∃ drained read taken, Accounts k serialExists (scansOf es) (serialsOf es) d drained read taken := by
  refine run_invariant (fun es d => (∀ b ∈ scansOf es, b.fromMouse = false) → ∃ drained read taken,
    Accounts k serialExists (scansOf es) (serialsOf es) d drained read taken) ?_
    (fun _ => ⟨[], [], [], accounts_start k serialExists⟩ :
      (∀ b ∈ scansOf [], b.fromMouse = false) → _) hrun hclean
  intro es d e d' hinv hd hclean
  have hbefore : ∀ b ∈ scansOf es, b.fromMouse = false := fun b hb =>
    hclean b (by rw [scansOf_append]; exact List.mem_append_left _ hb)
  obtain ⟨drained, read, taken, h⟩ := hinv hbefore
  exact h.step e hclean hd

theorem serialIntr_some {scans : List PortByte} {serials : List Byte}
    (h : Accounts k serialExists scans serials d drained read taken)
    (hroom : arriving serialExists scans serials < CONSBUFSIZE) :
    ∃ d', d.serialIntr serialExists = some d' := by
  cases serialExists with
  | false => exact ⟨d, rfl⟩
  | true =>
    have hcount := h.count
    simp only [sentIn, if_true] at hcount
    exact ⟨_, Desk.queue_fits (by rw [List.length_append]; dsimp only; omega)⟩

theorem kbdIntr_again {scans : List PortByte} {serials : List Byte}
    (h : Accounts k serialExists scans serials d drained read taken)
    (hroom : arriving serialExists scans serials < CONSBUFSIZE)
    (hcalm : rebootsIn (scans.map PortByte.data) 0 = 0) : ∃ d', d.kbdIntr = some (.again d') := by
  have hcount := h.count
  obtain ⟨hfront, -⟩ := h.clean_front
  rw [h.scans, rebootsIn_append, ← h.shift] at hcalm
  have hstays : rebootsIn (inFront d.scans) d.shift = 0 := by
    rw [hfront]
    omega
  have hfits : (d.waiting ++ (decode (inFront d.scans) d.shift).1.filter (· ≠ 0)).length <
    CONSBUFSIZE := by
    rw [hfront, List.length_append]
    omega
  have hqueue := Desk.queue_fits (d := { d with
    scans := d.scans.dropWhile fun b => !b.fromMouse
    shift := (decode (inFront d.scans) d.shift).2 }) hfits
  exact ⟨_, (if_pos hstays).trans (congrArg (Option.map Turn.again) hqueue)⟩

theorem step_again (h : Accounts k serialExists (scansOf es) (serialsOf es) d drained read taken)
    (hroom : arriving serialExists (scansOf es) (serialsOf es) < CONSBUFSIZE)
    (hcalm : rebootsIn ((scansOf es).map PortByte.data) 0 = 0) (e : Input) :
    ∃ d', k.deskStep serialExists d e = some (.again d') := by
  cases e with
  | scan b => exact ⟨_, rfl⟩
  | serial b => exact ⟨_, rfl⟩
  | kbdIntr => exact h.kbdIntr_again hroom hcalm
  | serialIntr =>
    obtain ⟨d', hd'⟩ := h.serialIntr_some hroom
    exact ⟨d', by rw [Kernel.deskStep, hd']; rfl⟩
  | getchar =>
    obtain ⟨d₁, hd₁⟩ := h.serialIntr_some hroom
    obtain ⟨read', h₁, -⟩ := h.serialIntr hd₁
    obtain ⟨d₂, hd₂⟩ := h₁.kbdIntr_again hroom hcalm
    exact ⟨k.deskAnswer d₂, by rw [Kernel.deskStep, hd₁, Option.bind_some, hd₂]; rfl⟩

end Accounts

theorem arriving_append_le (serialExists : Bool) (es es' : List Input) :
    arriving serialExists (scansOf es) (serialsOf es) ≤
      arriving serialExists (scansOf (es ++ es')) (serialsOf (es ++ es')) := by
  have hserials : (sentIn serialExists (serialsOf es)).length ≤
    (sentIn serialExists (serialsOf (es ++ es'))).length := by
    cases serialExists with
    | false => exact le_rfl
    | true => simp [sentIn, serialsOf_append]
  have hscans : (typedIn (scansOf es)).length ≤ (typedIn (scansOf (es ++ es'))).length := by
    simp only [typedIn, scansOf_append, List.map_append, decode_append, List.filter_append,
      List.length_append]
    omega
  rw [arriving, arriving]
  omega

section Schedules

variable (k : Kernel) (serialExists : Bool) {es : List Input}
  (hclean : ∀ b ∈ scansOf es, b.fromMouse = false)
  (hcalm : rebootsIn ((scansOf es).map PortByte.data) 0 = 0)
  (hroom : arriving serialExists (scansOf es) (serialsOf es) < CONSBUFSIZE)

include hclean hcalm hroom

theorem desk_again : ∃ d, run (k.deskStep serialExists) es (.start serialExists) = some (.again d) := by
  induction es using List.reverseRecOn with
  | nil => exact ⟨_, rfl⟩
  | append_singleton es e ih =>
    have hmore := arriving_append_le serialExists es [e]
    rw [scansOf_append, List.map_append, rebootsIn_append] at hcalm
    have hbefore : ∀ b ∈ scansOf es, b.fromMouse = false := fun b hb =>
      hclean b (by rw [scansOf_append]; exact List.mem_append_left _ hb)
    obtain ⟨d, hd⟩ := ih hbefore (by omega) (by omega)
    obtain ⟨drained, read, taken, h⟩ := Accounts.of_run hbefore hd
    obtain ⟨d', hd'⟩ := h.step_again (by omega) (by omega) e
    exact ⟨d', (run_append_again hd [e]).trans (run_cons_again hd' [])⟩

/-- Each poll takes a character, until all are taken. -/
theorem desk_polls (n : Nat) : ∃ d drained read taken,
      run (k.deskStep serialExists) (es ++ List.replicate n .getchar) (.start serialExists) =
        some (.again d) ∧
      Accounts k serialExists (scansOf es) (serialsOf es) d drained read taken ∧
      (n ≤ taken.length ∨ taken.length = arriving serialExists (scansOf es) (serialsOf es)) := by
  induction n with
  | zero =>
    obtain ⟨d, hd⟩ := desk_again k serialExists hclean hcalm hroom
    obtain ⟨drained, read, taken, h⟩ := Accounts.of_run hclean hd
    exact ⟨d, drained, read, taken, by simpa using hd, h, .inl (Nat.zero_le _)⟩
  | succ n ih =>
    obtain ⟨d, drained, read, taken, hd, h, htaken⟩ := ih
    obtain ⟨d', hd'⟩ := h.step_again hroom hcalm .getchar
    obtain ⟨drained', read', taken', h', htaken'⟩ := h.getchar hd'
    have hle := h'.count
    refine ⟨d', drained', read', taken', ?_, h', by omega⟩
    rw [List.replicate_succ', ← List.append_assoc, run_append_again hd, run_cons_again hd']
    rfl

end Schedules

theorem keyPressed_reboot {data : Byte} {shift : Word} (h : (keyPressed data shift).reboot = true) :
    (keyPressed data shift).shift &&& ALT ≠ 0 := by
  obtain ⟨hboth, -⟩ : ~~~(keyPressed data shift).shift &&& (CTL ||| ALT) = 0 ∧
    _ = KEY_DEL := of_decide_eq_true h
  generalize (keyPressed data shift).shift = after at hboth ⊢
  intro halt
  have hset := congrArg (·.getLsbD 2) hboth
  have hclear := congrArg (·.getLsbD 2) halt
  simp [CTL, ALT] at hset hclear
  simp [hset] at hclear

theorem kbdData_reboot {data : Byte} {shift : Word} (h : (kbdData data shift).reboot = true) :
    (kbdData data shift).shift &&& ALT ≠ 0 := by
  unfold kbdData at h ⊢
  split_ifs at h ⊢
  · exact keyPressed_reboot h
  · exact keyPressed_reboot h

theorem Idle.stateWith_alt {shift : Word} (h : Idle shift) (held : Option ShiftKey) :
    stateWith held shift &&& ALT = 0 := by
  have hzero : shift &&& ALT = 0 := h.and_eq_zero (by decide)
  cases held with
  | none => exact hzero
  | some k =>
    rw [stateWith, BitVec.and_or_distrib_right, hzero]
    decide

theorem calm_cons {data : Byte} {shift shift' : Word} {codes : List Byte}
    (hs : (kbdData data shift).shift = shift') (halt : shift' &&& ALT = 0)
    (hrest : rebootsIn codes shift' = 0) :
    rebootsIn (data :: codes) shift = 0 := by
  have hno : ¬ (kbdData data shift).reboot = true := fun h => kbdData_reboot h (hs ▸ halt)
  rw [rebootsIn, if_neg hno, hs, hrest]

theorem Types.calm {held : Option ShiftKey} {codes text : List Byte} (ht : Types held codes text)
    {shift : Word} (h : Idle shift) : rebootsIn codes (stateWith held shift) = 0 := by
  induction ht with
  | done => rfl
  | plain hcap _ ih =>
    exact calm_cons ((congrArg Decoded.shift (kbdData_cap hcap h none)).trans
      (keyPressed_cap hcap h none).1) (h.stateWith_alt none) ih
  | @shifted cap k codes text hcap _ ih =>
    exact calm_cons ((congrArg Decoded.shift (kbdData_cap hcap h (some k))).trans
      (keyPressed_cap hcap h (some k)).1) (h.stateWith_alt (some k)) ih
  | @up cap held codes text hcap _ ih =>
    obtain ⟨hm, hcode, -⟩ := usLayout_codes cap hcap
    exact calm_cons (congrArg Decoded.shift (kbdData_up hm hcode h held)) (h.stateWith_alt held) ih
  | @shiftDown k codes text _ ih =>
    exact calm_cons ((congrArg Decoded.shift (kbdData_shiftDown k h none)).trans
      (keyPressed_shift k h none).1) (h.stateWith_alt (some k)) ih
  | @shiftRepeat k codes text _ ih =>
    exact calm_cons ((congrArg Decoded.shift (kbdData_shiftDown k h (some k))).trans
      (keyPressed_shift k h (some k)).1) (h.stateWith_alt (some k)) ih
  | @shiftUp k codes text _ ih =>
    exact calm_cons (congrArg Decoded.shift (kbdData_shiftUp k h)) (h.stateWith_alt none) ih

namespace Kernel

variable (k : Kernel)

/-- The shell has answered what it took. -/
theorem system_answers {serialExists : Bool} {es : List Input} {d : Desk} {scans : List PortByte}
    {serials drained read taken : List Byte}
    (hdesk : run (k.deskStep serialExists) es (.start serialExists) = some (.again d))
    (h : Accounts k serialExists scans serials d drained read taken) (line : Nat → Byte)
    (con : Console) :
    ∃ m m', k.bootSystem serialExists line con = some m ∧
      run (k.systemStep serialExists) es m = some (.again m') ∧ Stored m'.reading (k.shell taken []).1 ∧
      m'.reading.con = cputs ((Desk.start serialExists).said ++ (k.shell taken []).2) con := by
  obtain ⟨m, hboot, hm⟩ := k.bootSystem_follows serialExists line con
  obtain ⟨r, hrun, hrel⟩ := hm.run k serialExists es hdesk
  cases r with
  | leave con' => exact hrel.elim
  | again m' =>
    have hfollows : Follows con m' d := hrel
    exact ⟨m, m', hboot, hrun, h.line ▸ hfollows.stored, h.said ▸ hfollows.said⟩

/-- Once nothing is on its way, the shell has answered the characters of the
keyboard and of the serial line, merged in the order of their arrival. -/
theorem system_answers_merge (k : Kernel) (serialExists : Bool) (line : Nat → Byte) (con : Console)
    (es : List Input) (hclean : ∀ b ∈ scansOf es, b.fromMouse = false) (d : Desk)
    (hdesk : run (k.deskStep serialExists) es (.start serialExists) = some (.again d))
    (hscans : d.scans = []) (huart : serialExists = true → d.uart = []) (hwaiting : d.waiting = []) :
    ∃ m m' text, k.bootSystem serialExists line con = some m ∧
      run (k.systemStep serialExists) es m = some (.again m') ∧
      Merges (sentIn serialExists (serialsOf es)) (typedIn (scansOf es)) text ∧
      Stored m'.reading (k.shell text []).1 ∧
      m'.reading.con = cputs ((Desk.start serialExists).said ++ (k.shell text []).2) con := by
  obtain ⟨drained, read, taken, h⟩ := Accounts.of_run hclean hdesk
  obtain ⟨m, m', hboot, hrun, hline, hsaid⟩ := k.system_answers hdesk h line con
  exact ⟨m, m', taken, hboot, hrun, h.complete (h.quiet hscans huart hwaiting), hline, hsaid⟩

theorem system_answers_merge_hi :
    ∃ m m' text, sample.bootSystem true (fun _ => 0) ⟨⟨fun _ => 0, []⟩, .cga, 0, []⟩ = some m ∧
      run (sample.systemStep true) sampleInputs m = some (.again m') ∧ Merges [0x69] [0x68] text ∧
      Stored m'.reading (sample.shell text []).1 ∧
      m'.reading.con = cputs ((Desk.start true).said ++ (sample.shell text []).2)
        ⟨⟨fun _ => 0, []⟩, .cga, 0, []⟩ :=
  system_answers_merge sample true (fun _ => 0) ⟨⟨fun _ => 0, []⟩, .cga, 0, []⟩ sampleInputs (by decide)
    sampleDesk sample_run rfl (fun _ => rfl) rfl

/-- At most 511 characters typed in any rhythm are answered as the shell answers
them, once the monitor has polled as often. -/
theorem system_answers_typing (k : Kernel) (serialExists : Bool) (line : Nat → Byte) (con : Console)
    (codes text : List Byte) (htypes : Types none codes text) (hlen : text.length < CONSBUFSIZE)
    (es : List Input) (hscans : scansOf es = codes.map fun b => ⟨b, false⟩)
    (hserials : serialsOf es = []) (n : Nat) (hn : text.length ≤ n) :
    ∃ m m', k.bootSystem serialExists line con = some m ∧
      run (k.systemStep serialExists) (es ++ List.replicate n .getchar) m = some (.again m') ∧
      Stored m'.reading (k.shell text []).1 ∧
      m'.reading.con = cputs ((Desk.start serialExists).said ++ (k.shell text []).2) con := by
  have hidle : Idle 0 := rfl
  have hcodes : (scansOf es).map PortByte.data = codes := by
    rw [hscans, List.map_map]
    exact List.map_id codes
  have htyped : typedIn (scansOf es) = text := by
    rw [typedIn, hcodes]
    exact (htypes.decode hidle).1.trans (List.map_id text)
  have hsent : sentIn serialExists (serialsOf es) = [] := by
    rw [hserials]
    cases serialExists <;> rfl
  have hcount : arriving serialExists (scansOf es) (serialsOf es) = text.length := by
    rw [arriving, htyped, hsent]
    exact Nat.zero_add _
  have hclean : ∀ b ∈ scansOf es, b.fromMouse = false := by simp [hscans]
  have hcalm : rebootsIn ((scansOf es).map PortByte.data) 0 = 0 := hcodes ▸ htypes.calm hidle
  obtain ⟨d, drained, read, taken, hdesk, h, htaken⟩ :=
    desk_polls k serialExists hclean hcalm (hcount ▸ hlen) n
  have hle := h.count
  have hmerges := h.complete (by omega)
  rw [hsent, htyped] at hmerges
  obtain rfl := hmerges.eq_right
  exact k.system_answers hdesk h line con

theorem system_answers_typing_hi :
    ∃ m m', sample.bootSystem false (fun _ => 0) ⟨⟨fun _ => 0, []⟩, .cga, 0, []⟩ = some m ∧
      run (sample.systemStep false) ([.scan ⟨0x23, false⟩, .kbdIntr, .scan ⟨0xA3, false⟩, .getchar,
        .scan ⟨0x17, false⟩, .scan ⟨0x97, false⟩] ++ List.replicate 2 .getchar) m = some (.again m') ∧
      Stored m'.reading (sample.shell [0x68, 0x69] []).1 ∧
      m'.reading.con = cputs ((Desk.start false).said ++ (sample.shell [0x68, 0x69] []).2)
        ⟨⟨fun _ => 0, []⟩, .cga, 0, []⟩ := by
  have hh : (⟨0x23, 0x68, 0x48⟩ : KeyCap) ∈ usLayout := by decide +kernel
  have hi : (⟨0x17, 0x69, 0x49⟩ : KeyCap) ∈ usLayout := by decide +kernel
  exact system_answers_typing sample false (fun _ => 0) ⟨⟨fun _ => 0, []⟩, .cga, 0, []⟩
    [0x23, 0xA3, 0x17, 0x97] [0x68, 0x69]
    (.plain hh (.up hh (.plain hi (.up hi .done)))) (by decide) _ rfl rfl 2 le_rfl

end Kernel

end Jos
