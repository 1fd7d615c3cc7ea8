import Jos.KbdModifiers

/-! What a history of key events leaves behind in `shift`: no modifier sticks, and
what the navigation keys still depend on. -/

namespace Jos

theorem tables_escape : ∀ n < 256, (shiftcode (BitVec.ofNat 8 n)).getLsbD 6 = false ∧
    (togglecode (BitVec.ofNat 8 n)).getLsbD 6 = false := by
  decide +kernel

theorem keyPressed_escape (data : Byte) {shift : Word} (h : shift &&& E0ESC = 0) :
    (keyPressed data shift).shift &&& E0ESC = 0 := by
  have htables := tables_escape data.toNat data.isLt
  rw [BitVec.ofNat_toNat, BitVec.setWidth_eq] at htables
  rw [escape_iff] at h ⊢
  rw [keyPressed, BitVec.getLsbD_xor, BitVec.getLsbD_or, BitVec.getLsbD_setWidth,
    BitVec.getLsbD_setWidth, h, htables.1, htables.2]
  rfl

theorem and_not_escape (shift mask : Word) : shift &&& ~~~(mask ||| E0ESC) &&& E0ESC = 0 := by
  rw [escape_iff]
  simp [E0ESC]

theorem kbdData_escape_iff (data : Byte) (shift : Word) :
    (kbdData data shift).shift &&& E0ESC ≠ 0 ↔ data = 0xE0 := by
  by_cases hdata : data = 0xE0
  · rw [hdata, kbdData_escape]
    exact iff_of_true (keyEvent_escape shift) rfl
  · refine iff_of_false (not_not.mpr ?_) hdata
    by_cases hbreak : data &&& 0x80 ≠ 0
    · rw [kbdData, if_neg hdata, if_pos hbreak]
      exact and_not_escape _ _
    · by_cases hescape : shift &&& E0ESC ≠ 0
      · have hclear : shift &&& ~~~E0ESC &&& E0ESC = 0 := by simpa using and_not_escape shift 0
        rw [kbdData_make_extended (not_not.mp hbreak) hescape]
        exact keyPressed_escape _ hclear
      · rw [kbdData_make (not_not.mp hbreak) (not_not.mp hescape)]
        exact keyPressed_escape _ (not_not.mp hescape)

theorem decode_escape_iff (codes : List Byte) :
    (decode codes 0).2 &&& E0ESC ≠ 0 ↔ codes.getLast? = some 0xE0 := by
  cases codes using List.reverseRecOn with
  | nil => simp [decode]
  | append_singleton codes data =>
    rw [decode_append, List.getLast?_concat, Option.some.injEq]
    exact kbdData_escape_iff data _

theorem Held.append {k : Key} {es : List KeyEvent} (h : Held k es) {e : KeyEvent} (hne : e.key ≠ k) :
    Held k (es ++ [e]) := by
  obtain ⟨pre, post, rfl, hlast⟩ := h
  refine ⟨pre, post ++ [e], by simp, fun x hx => ?_⟩
  rcases List.mem_append.mp hx with hx | hx
  · exact hlast x hx
  · rwa [List.mem_singleton.mp hx]

theorem Modifier.held_of_bit (m : Modifier) {es : List KeyEvent} (h : shiftAfter es &&& m.bit ≠ 0) :
    ∃ k ∈ m.keys, Held k es := by
  induction es using List.reverseRecOn with
  | nil => exact absurd BitVec.zero_and h
  | append_singleton es e ih =>
    rw [shiftAfter_append, (event_bits m e (shiftAfter_escape es)).1] at h
    by_cases hkey : e.key ∈ m.keys
    · rw [if_pos hkey] at h
      exact ⟨e.key, hkey, es, [], by rw [← h], by simp⟩
    · rw [if_neg hkey] at h
      obtain ⟨k, hk, hheld⟩ := ih h
      exact ⟨k, hk, hheld.append fun he => hkey (he ▸ hk)⟩

/-- Once none of the keys of the modifiers is down, their bits are clear, and
after any bytes at all `E0ESC` only tells whether the last one was 0xE0. -/
theorem no_modifier_sticks :
    (∀ es : List KeyEvent, (∀ m : Modifier, ∀ k ∈ m.keys, ¬ Held k es) →
      shiftAfter es &&& (SHIFT ||| CTL ||| ALT) = 0) ∧
    ∀ codes : List Byte, (decode codes 0).2 &&& E0ESC ≠ 0 ↔ codes.getLast? = some 0xE0 := by
  refine ⟨fun es hup => ?_, decode_escape_iff⟩
  have hclear : ∀ m : Modifier, shiftAfter es &&& m.bit = 0 := by
    intro m
    by_contra hbit
    obtain ⟨k, hk, hheld⟩ := m.held_of_bit hbit
    exact hup m k hk hheld
  have hshift : shiftAfter es &&& SHIFT = 0 := hclear .shift
  have hctl : shiftAfter es &&& CTL = 0 := hclear .ctl
  have halt : shiftAfter es &&& ALT = 0 := hclear .alt
  rw [BitVec.and_or_distrib_left, BitVec.and_or_distrib_left, hshift, hctl, halt]
  rfl

/-- A SHIFT key is struck. -/
theorem no_modifier_sticks_shift :
    shiftAfter [⟨shiftLeft, true⟩, ⟨shiftLeft, false⟩] &&& (SHIFT ||| CTL ||| ALT) = 0 := by
  refine no_modifier_sticks.1 _ fun m k hk hheld => ?_
  obtain ⟨pre, post, heq, hlast⟩ := hheld
  cases pre with
  | nil =>
    obtain ⟨hmake, rfl⟩ := List.cons_eq_cons.mp heq
    obtain rfl : shiftLeft = k := congrArg KeyEvent.key hmake
    exact hlast ⟨shiftLeft, false⟩ (by simp) rfl
  | cons e pre =>
    obtain ⟨-, htail⟩ := List.cons_eq_cons.mp heq
    have hmem : (⟨k, true⟩ : KeyEvent) ∈ [(⟨shiftLeft, false⟩ : KeyEvent)] := htail ▸ by simp
    cases List.mem_singleton.mp hmem

inductive Navigation where
  | home
  | up
  | pgup
  | left
  | right
  | theEnd
  | down
  | pgdn
  | ins
  | del
  deriving DecidableEq

namespace Navigation

def code : Navigation → Byte
  | home => 0x47
  | up => 0x48
  | pgup => 0x49
  | left => 0x4B
  | right => 0x4D
  | theEnd => 0x4F
  | down => 0x50
  | pgdn => 0x51
  | ins => 0x52
  | del => 0x53

def key (nav : Navigation) : Key :=
  ⟨true, nav.code, by cases nav <;> decide, by cases nav <;> decide⟩

/-- What `kbd_proc_data` is to return for the key. -/
def keyCode : Navigation → Byte
  | home => KEY_HOME
  | up => KEY_UP
  | pgup => KEY_PGUP
  | left => KEY_LF
  | right => KEY_RT
  | theEnd => KEY_END
  | down => KEY_DN
  | pgdn => KEY_PGDN
  | ins => KEY_INS
  | del => KEY_DEL

/-- What `kbd_proc_data` returns for the bytes of a make of the key. -/
def returned (nav : Navigation) (shift : Word) : List Byte :=
  (decode (KeyEvent.bytes ⟨nav.key, true⟩) shift).1

theorem tables (nav : Navigation) :
    shiftcode nav.key.index = 0 ∧ togglecode nav.key.index = 0 ∧
      normalmap nav.key.index = nav.keyCode ∧ shiftmap nav.key.index = nav.keyCode ∧
      ctlmap nav.key.index = (if nav = home then 0 else nav.keyCode) ∧
      exchangeCase nav.keyCode = nav.keyCode := by
  cases nav <;> decide +kernel

end Navigation

theorem Modifier.bit_toNat (m : Modifier) (shift : Word) :
    shift &&& m.bit ≠ 0 ↔ shift.toNat / 2 ^ m.position % 2 = 1 := by
  have hbit : m.bit = BitVec.twoPow 32 m.position := by cases m <;> decide
  rw [hbit]
  exact flag_iff (by cases m <;> decide)

theorem charcode_eq (shift : Word) :
    charcode (shift &&& (CTL ||| SHIFT)) =
      if shift &&& CTL ≠ 0 then ctlmap else if shift &&& SHIFT ≠ 0 then shiftmap else normalmap := by
  have hctl : shift &&& CTL ≠ 0 ↔ shift.toNat / 2 % 2 = 1 := Modifier.ctl.bit_toNat shift
  have hshift : shift &&& SHIFT ≠ 0 ↔ shift.toNat / 1 % 2 = 1 := Modifier.shift.bit_toNat shift
  have hlow : (shift &&& (CTL ||| SHIFT)).toNat = shift.toNat % 4 :=
    toNat_and_low shift (by decide : 2 ≤ 32)
  rw [charcode, hlow, if_congr hctl rfl (if_congr hshift rfl rfl)]
  obtain h | h | h | h : shift.toNat % 4 = 0 ∨ shift.toNat % 4 = 1 ∨ shift.toNat % 4 = 2 ∨
      shift.toNat % 4 = 3 := by omega
  · rw [h, if_neg (by omega), if_neg (by omega)]
    rfl
  · rw [h, if_neg (by omega), if_pos (by omega)]
    rfl
  · rw [h, if_pos (by omega)]
    rfl
  · rw [h, if_pos (by omega)]
    rfl

theorem keyPressed_plain {data : Byte} (hshiftcode : shiftcode data = 0)
    (htogglecode : togglecode data = 0) (shift : Word) : (keyPressed data shift).c =
      if shift &&& CAPSLOCK ≠ 0 then exchangeCase (charcode (shift &&& (CTL ||| SHIFT)) data)
      else charcode (shift &&& (CTL ||| SHIFT)) data := by
  simp [keyPressed, hshiftcode, htogglecode]

/-- The state decides between the maps only, and CAPSLOCK leaves what they hold alone. -/
theorem Navigation.returned_eq (nav : Navigation) {shift : Word} (h : shift &&& E0ESC = 0) :
    nav.returned shift = [0, if nav = home ∧ shift &&& CTL ≠ 0 then 0 else nav.keyCode] := by
  obtain ⟨hshiftcode, htogglecode, hnormal, hshifted, hctl, hcase⟩ := nav.tables
  have hcase0 : exchangeCase 0 = 0 := by decide
  have hmake : nav.key.code &&& 0x80 = 0 := (released_ne nav.key.code_lt).1
  have hbytes : nav.returned shift =
      [(kbdData 0xE0 shift).c, (kbdData nav.key.code (kbdData 0xE0 shift).shift).c] := rfl
  have hmap : charcode (shift &&& (CTL ||| SHIFT)) nav.key.index =
      if nav = home ∧ shift &&& CTL ≠ 0 then 0 else nav.keyCode := by
    rw [charcode_eq]
    split_ifs <;> simp_all
  have hkeep : exchangeCase (if nav = home ∧ shift &&& CTL ≠ 0 then 0 else nav.keyCode) =
      if nav = home ∧ shift &&& CTL ≠ 0 then 0 else nav.keyCode := by
    rw [apply_ite exchangeCase, hcase0, hcase]
  have hpressed : (keyPressed nav.key.index shift).c =
      if nav = home ∧ shift &&& CTL ≠ 0 then 0 else nav.keyCode := by
    rw [keyPressed_plain hshiftcode htogglecode, hmap, hkeep, ite_self]
  rw [hbytes, kbdData_escape, kbdData_make_extended hmake (keyEvent_escape shift), keyEvent_unescape h]
  exact congrArg (fun c => [0, c]) hpressed

/-- Of the events of the pair's keys the latest one is a make. -/
def Modifier.Latest (m : Modifier) (es : List KeyEvent) : Prop :=
  ∃ e ∈ (es.filter fun e => e.key ∈ m.keys).getLast?, e.isMake = true

theorem Modifier.bit_iff_latest (m : Modifier) (es : List KeyEvent) :
    shiftAfter es &&& m.bit ≠ 0 ↔ m.Latest es := by
  induction es using List.reverseRecOn with
  | nil => simp [shiftAfter, decode, Latest]
  | append_singleton es e ih =>
    rw [shiftAfter_append, (event_bits m e (shiftAfter_escape es)).1, Latest, List.filter_append]
    by_cases hkey : e.key ∈ m.keys
    · simp [hkey]
    · have hfilter : [e].filter (fun e => e.key ∈ m.keys) = [] := by simp [hkey]
      rw [if_neg hkey, hfilter, List.append_nil]
      exact ih

/-- After the events the next make of the key returns what it returns at boot. -/
def Navigation.Steady (nav : Navigation) (es : List KeyEvent) : Prop :=
  nav.returned (shiftAfter es) = nav.returned 0

/-- Home under CTL is the one navigation key that depends on the history. -/
theorem navigation_steady_iff (nav : Navigation) (es : List KeyEvent) :
    nav.Steady es ↔ ¬ (nav = .home ∧ Modifier.ctl.Latest es) := by
  have hne : nav.keyCode ≠ 0 := by cases nav <;> decide
  have hzero : nav.returned 0 = [0, nav.keyCode] := by
    rw [nav.returned_eq (by decide), if_neg (by simp)]
  rw [Navigation.Steady, nav.returned_eq (shiftAfter_escape es), hzero, ← Modifier.bit_iff_latest]
  by_cases hlost : nav = .home ∧ shiftAfter es &&& CTL ≠ 0
  · rw [if_pos hlost]
    exact iff_of_false (by simpa using hne.symm) (not_not.mpr hlost)
  · rw [if_neg hlost]
    exact iff_of_true rfl hlost

/-- CTL and Home: the entry of the map is at 0x97, not at 0xC7. -/
theorem home_lost_under_ctl : ¬ ∀ (nav : Navigation) (es : List KeyEvent), nav.Steady es := by
  intro h
  have hhome : Navigation.home.returned (shiftAfter [⟨ctlLeft, true⟩]) = [0, KEY_HOME] :=
    h .home [⟨ctlLeft, true⟩]
  revert hhome
  decide +kernel

end Jos
