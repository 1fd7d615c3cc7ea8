import Jos.Kbd

/-! The modifier keys come in pairs that share one bit of `shift`. What the bit
says of the two keys after any run of key events. -/

namespace Jos

/-- A key, extended or not, by its make code. -/
structure Key where
  extended : Bool
  code : Byte
  lower : 0x01 ≤ code
  upper : code ≤ 0x58
  deriving DecidableEq

/-- The index of a key in the tables. -/
def Key.index (k : Key) : Byte :=
  if k.extended then k.code ||| 0x80 else k.code

structure KeyEvent where
  key : Key
  isMake : Bool
  deriving DecidableEq

def KeyEvent.bytes (e : KeyEvent) : List Byte :=
  (if e.key.extended then [0xE0] else []) ++ [if e.isMake then e.key.code else e.key.code ||| 0x80]

/-- The key is down: its latest event is a make. -/
def Held (k : Key) (es : List KeyEvent) : Prop :=
  ∃ pre post, es = pre ++ ⟨k, true⟩ :: post ∧ ∀ e ∈ post, e.key ≠ k

/-- Only held keys are released. -/
def WellFormed (es : List KeyEvent) : Prop :=
  ∀ pre e post, es = pre ++ e :: post → e.isMake = false → Held e.key pre

/-- The state after the events, from the one at boot. -/
def shiftAfter (es : List KeyEvent) : Word :=
  (decode (es.flatMap KeyEvent.bytes) 0).2

inductive Modifier where
  | shift
  | ctl
  | alt
  deriving DecidableEq

namespace Modifier

def position : Modifier → Nat
  | .shift => 0
  | .ctl => 1
  | .alt => 2

def bit : Modifier → Word
  | .shift => SHIFT
  | .ctl => CTL
  | .alt => ALT

def keys : Modifier → List Key
  | .shift => [⟨false, 0x2A, by decide, by decide⟩, ⟨false, 0x36, by decide, by decide⟩]
  | .ctl => [⟨false, 0x1D, by decide, by decide⟩, ⟨true, 0x1D, by decide, by decide⟩]
  | .alt => [⟨false, 0x38, by decide, by decide⟩, ⟨true, 0x38, by decide, by decide⟩]

/-- The key is down, and since it last went down neither key of the pair has come up. -/
def Undisturbed (m : Modifier) (k : Key) (es : List KeyEvent) : Prop :=
  ∃ pre post, es = pre ++ ⟨k, true⟩ :: post ∧ (∀ e ∈ post, e.key ≠ k) ∧
    ∀ e ∈ post, e.key ∈ m.keys → e.isMake = true

end Modifier

def Key.mask (k : Key) : Word :=
  (shiftcode k.index).setWidth 32

theorem Key.code_lt (k : Key) : k.code < 0x59 :=
  Nat.lt_of_le_of_lt k.upper (by decide)

theorem keyEvent_escape (shift : Word) : (shift ||| E0ESC) &&& E0ESC ≠ 0 := by
  rw [BitVec.and_or_distrib_right, BitVec.and_self]
  intro h
  have hbit := congrArg (BitVec.getLsbD · 6) h
  simp [E0ESC] at hbit

theorem keyEvent_unescape {shift : Word} (h : shift &&& E0ESC = 0) :
    (shift ||| E0ESC) &&& ~~~E0ESC = shift := by
  have hself : E0ESC &&& ~~~E0ESC = 0 := by decide
  rw [BitVec.and_or_distrib_right, and_not_of_and_eq_zero h, hself]
  exact BitVec.or_zero

theorem decode_event (e : KeyEvent) {shift : Word} (h : shift &&& E0ESC = 0) :
    (decode e.bytes shift).2 =
      if e.isMake then (shift ||| e.key.mask) ^^^ (togglecode e.key.index).setWidth 32
      else shift &&& ~~~(e.key.mask ||| E0ESC) := by
  have hlt := e.key.code_lt
  obtain ⟨⟨extended, code, lower, upper⟩, isMake⟩ := e
  dsimp only at hlt
  obtain ⟨hmake, -⟩ := released_ne hlt
  cases extended with
  | false =>
    cases isMake with
    | true =>
      show (kbdData code shift).shift = _
      rw [kbdData_make hmake h]
      rfl
    | false =>
      show (kbdData (code ||| 0x80) shift).shift = _
      rw [kbdData_break hlt, if_neg (not_not.mpr h)]
      rfl
  | true =>
    have hesc := keyEvent_escape shift
    cases isMake with
    | true =>
      show (kbdData code (kbdData 0xE0 shift).shift).shift = _
      rw [kbdData_escape, kbdData_make_extended hmake hesc, keyEvent_unescape h]
      rfl
    | false =>
      show (kbdData (code ||| 0x80) (kbdData 0xE0 shift).shift).shift = _
      rw [kbdData_escape, kbdData_break hlt, if_pos hesc]
      exact or_and_not_or shift E0ESC _

theorem Modifier.has_iff (m : Modifier) (shift : Word) :
    shift &&& m.bit ≠ 0 ↔ shift.getLsbD m.position = true := by
  have hbit : m.bit = BitVec.twoPow 32 m.position := by cases m <;> decide
  rw [hbit]
  exact and_twoPow_ne_zero (by cases m <;> decide)

theorem escape_iff (shift : Word) : shift &&& E0ESC = 0 ↔ shift.getLsbD 6 = false := by
  have hbit : E0ESC = BitVec.twoPow 32 6 := by decide
  rw [← not_iff_not, Bool.not_eq_false, hbit]
  exact and_twoPow_ne_zero (by decide)

theorem tables_spec : ∀ extended : Bool, ∀ n < 0x59, 0x01 ≤ n → ∀ m ∈ [Modifier.shift, .ctl, .alt],
    let index := if extended then BitVec.ofNat 8 n ||| 0x80 else BitVec.ofNat 8 n
    ((shiftcode index).getLsbD m.position = true ↔
      (extended, BitVec.ofNat 8 n) ∈ m.keys.map fun k => (k.extended, k.code)) ∧
    (togglecode index).getLsbD m.position = false ∧
    (shiftcode index).getLsbD 6 = false ∧ (togglecode index).getLsbD 6 = false := by
  decide +kernel

theorem Key.mem_keys_iff (k : Key) (m : Modifier) :
    k ∈ m.keys ↔ (k.extended, k.code) ∈ m.keys.map fun k => (k.extended, k.code) := by
  refine ⟨fun h => List.mem_map.mpr ⟨k, h, rfl⟩, fun h => ?_⟩
  obtain ⟨k', hk', heq⟩ := List.mem_map.mp h
  obtain ⟨extended, code, hlow, hup⟩ := k
  obtain ⟨extended', code', hlow', hup'⟩ := k'
  obtain ⟨rfl, rfl⟩ := Prod.mk.inj heq
  exact hk'

theorem Key.tables (k : Key) (m : Modifier) :
    (k.mask.getLsbD m.position = true ↔ k ∈ m.keys) ∧
      ((togglecode k.index).setWidth 32).getLsbD m.position = false ∧
      k.mask.getLsbD 6 = false ∧ ((togglecode k.index).setWidth 32).getLsbD 6 = false := by
  have hall := tables_spec k.extended k.code.toNat k.code_lt k.lower m (by cases m <;> simp)
  have hpos : m.position < 32 := by cases m <;> decide
  rw [BitVec.ofNat_toNat, BitVec.setWidth_eq, ← k.mem_keys_iff] at hall
  rw [Key.mask, BitVec.getLsbD_setWidth, BitVec.getLsbD_setWidth, BitVec.getLsbD_setWidth,
    BitVec.getLsbD_setWidth]
  simpa [hpos, Key.index] using hall

theorem event_bit (e : KeyEvent) {shift : Word} (h : shift &&& E0ESC = 0) {i : Nat} (hi : i < 32)
    (htoggle : ((togglecode e.key.index).setWidth 32).getLsbD i = false) :
    (decode e.bytes shift).2.getLsbD i = if e.isMake then shift.getLsbD i || e.key.mask.getLsbD i
      else shift.getLsbD i && !(e.key.mask.getLsbD i || E0ESC.getLsbD i) := by
  rw [decode_event e h]
  cases e.isMake with
  | true =>
    rw [if_pos rfl, if_pos rfl, BitVec.getLsbD_xor, BitVec.getLsbD_or, htoggle, Bool.xor_false]
  | false =>
    rw [if_neg Bool.false_ne_true, if_neg Bool.false_ne_true, BitVec.getLsbD_and, BitVec.getLsbD_not,
      BitVec.getLsbD_or, decide_eq_true hi, Bool.true_and]

theorem event_bits (m : Modifier) (e : KeyEvent) {shift : Word} (h : shift &&& E0ESC = 0) :
    ((decode e.bytes shift).2 &&& m.bit ≠ 0 ↔
      if e.key ∈ m.keys then e.isMake = true else shift &&& m.bit ≠ 0) ∧
    (decode e.bytes shift).2 &&& E0ESC = 0 := by
  obtain ⟨hmem, htoggle, hmask, htoggle'⟩ := e.key.tables m
  have hpos : m.position < 32 := by cases m <;> decide
  have hesc : E0ESC.getLsbD m.position = false := by cases m <;> decide
  have hesc' : E0ESC.getLsbD 6 = true := by decide
  rw [m.has_iff, m.has_iff, escape_iff, event_bit e h hpos htoggle, event_bit e h (by decide) htoggle',
    (escape_iff shift).mp h, hmask, hesc, hesc']
  refine ⟨?_, by cases e.isMake <;> rfl⟩
  by_cases hk : e.key ∈ m.keys
  · rw [if_pos hk, hmem.mpr hk]
    cases e.isMake <;> simp
  · have hkey : e.key.mask.getLsbD m.position = false := Bool.not_eq_true _ ▸ mt hmem.mp hk
    rw [if_neg hk, hkey]
    cases e.isMake <;> simp

theorem shiftAfter_append (es : List KeyEvent) (e : KeyEvent) :
    shiftAfter (es ++ [e]) = (decode e.bytes (shiftAfter es)).2 := by
  rw [shiftAfter, List.flatMap_append, decode_append, List.flatMap_singleton]
  rfl

theorem shiftAfter_escape (es : List KeyEvent) : shiftAfter es &&& E0ESC = 0 := by
  induction es using List.reverseRecOn with
  | nil => decide
  | append_singleton es e ih =>
    rw [shiftAfter_append]
    exact (event_bits .shift e ih).2

theorem Modifier.undisturbed_append (m : Modifier) (es : List KeyEvent) (e : KeyEvent) :
    (∃ k ∈ m.keys, m.Undisturbed k (es ++ [e])) ↔
      if e.key ∈ m.keys then e.isMake = true else ∃ k ∈ m.keys, m.Undisturbed k es := by
  split_ifs with hmem
  · constructor
    · rintro ⟨k, hk, pre, post, heq, -, hmake⟩
      rcases append_singleton_split heq with ⟨-, -, rfl⟩ | ⟨post', rfl, -⟩
      · rfl
      · exact hmake e (by simp) hmem
    · intro hmake
      refine ⟨e.key, hmem, es, [], ?_, by simp, by simp⟩
      rw [← hmake]
  · constructor
    · rintro ⟨k, hk, pre, post, heq, hlatest, hmake⟩
      rcases append_singleton_split heq with ⟨-, -, rfl⟩ | ⟨post', rfl, heq'⟩
      · exact absurd hk hmem
      · exact ⟨k, hk, pre, post', heq', fun x hx => hlatest x (by simp [hx]),
          fun x hx => hmake x (by simp [hx])⟩
    · rintro ⟨k, hk, pre, post, rfl, hlatest, hmake⟩
      refine ⟨k, hk, pre, post ++ [e], by simp, fun x hx => ?_, fun x hx hxm => ?_⟩
      · rcases List.mem_append.mp hx with hx | hx
        · exact hlatest x hx
        · rintro rfl
          exact hmem (List.mem_singleton.mp hx ▸ hk)
      · rcases List.mem_append.mp hx with hx | hx
        · exact hmake x hx hxm
        · exact absurd (List.mem_singleton.mp hx ▸ hxm) hmem

/-- The bit of a pair says that one of its keys is down, but the release of
either of them takes it back. -/
theorem modifier_bit_iff (m : Modifier) (es : List KeyEvent) :
    shiftAfter es &&& m.bit ≠ 0 ↔ ∃ k ∈ m.keys, m.Undisturbed k es := by
  induction es using List.reverseRecOn with
  | nil =>
    refine iff_of_false (fun h => h ?_) ?_
    · exact BitVec.zero_and
    · rintro ⟨k, -, pre, post, heq, -⟩
      exact absurd heq (by simp)
  | append_singleton es e ih =>
    rw [shiftAfter_append, (event_bits m e (shiftAfter_escape es)).1, m.undisturbed_append, ih]

def shiftLeft : Key :=
  ⟨false, 0x2A, by decide, by decide⟩

def shiftRight : Key :=
  ⟨false, 0x36, by decide, by decide⟩

def ctlLeft : Key :=
  ⟨false, 0x1D, by decide, by decide⟩

theorem wellFormed_append {es : List KeyEvent} {e : KeyEvent} (h : WellFormed es)
    (he : e.isMake = false → Held e.key es) : WellFormed (es ++ [e]) := by
  intro pre x post heq hx
  rcases append_singleton_split heq with ⟨-, rfl, rfl⟩ | ⟨post', -, heq'⟩
  · exact he hx
  · exact h pre x post' heq' hx

/-- Both SHIFT keys go down and the left one comes up: the right one is forgotten. -/
theorem shift_forgotten :
    WellFormed [⟨shiftLeft, true⟩, ⟨shiftRight, true⟩, ⟨shiftLeft, false⟩] ∧
      Held shiftRight [⟨shiftLeft, true⟩, ⟨shiftRight, true⟩, ⟨shiftLeft, false⟩] ∧
      shiftAfter [⟨shiftLeft, true⟩, ⟨shiftRight, true⟩, ⟨shiftLeft, false⟩] &&& SHIFT = 0 := by
  have hnil : WellFormed [] := fun pre e post heq => by simp at heq
  have htwo : WellFormed [⟨shiftLeft, true⟩, ⟨shiftRight, true⟩] :=
    wellFormed_append (wellFormed_append hnil (by simp)) (by simp)
  have hheld : Held shiftLeft [⟨shiftLeft, true⟩, ⟨shiftRight, true⟩] :=
    ⟨[], [⟨shiftRight, true⟩], rfl, by decide⟩
  exact ⟨wellFormed_append htwo fun _ => hheld,
    ⟨[⟨shiftLeft, true⟩], [⟨shiftLeft, false⟩], rfl, by decide⟩, by decide +kernel⟩

end Jos
