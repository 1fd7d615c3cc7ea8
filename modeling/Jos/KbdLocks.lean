import Mathlib.Algebra.Ring.Parity
import Jos.KbdHistory
import Jos.SystemTyping

/-! What any history of key events makes of the next key: the maps go by the latest
events of CTL and SHIFT, the case of letters by how often CAPSLOCK went down. CTL,
ALT and DEL reboot. -/

namespace Jos

inductive Lock where
  | caps
  | num
  | scroll
  deriving DecidableEq

namespace Lock

def position : Lock → Nat
  | .caps => 3
  | .num => 4
  | .scroll => 5

def bit : Lock → Word
  | .caps => CAPSLOCK
  | .num => NUMLOCK
  | .scroll => SCROLLLOCK

def key : Lock → Key
  | .caps => ⟨false, 0x3A, by decide, by decide⟩
  | .num => ⟨false, 0x45, by decide, by decide⟩
  | .scroll => ⟨false, 0x46, by decide, by decide⟩

/-- The key has gone down an odd number of times. -/
def On (l : Lock) (es : List KeyEvent) : Prop :=
  Odd (es.countP (· = ⟨l.key, true⟩))

instance (l : Lock) (es : List KeyEvent) : Decidable (l.On es) :=
  inferInstanceAs (Decidable (Odd _))

theorem has_iff (l : Lock) (shift : Word) : shift &&& l.bit ≠ 0 ↔ shift.getLsbD l.position = true := by
  have hbit : l.bit = BitVec.twoPow 32 l.position := by cases l <;> decide
  rw [hbit]
  exact and_twoPow_ne_zero (by cases l <;> decide)

theorem tables_spec : ∀ extended : Bool, ∀ n < 0x59, ∀ l ∈ [Lock.caps, .num, .scroll],
    let index := if extended then BitVec.ofNat 8 n ||| 0x80 else BitVec.ofNat 8 n
    (shiftcode index).getLsbD l.position = false ∧
      ((togglecode index).getLsbD l.position = true ↔
        extended = l.key.extended ∧ BitVec.ofNat 8 n = l.key.code) := by
  decide +kernel

theorem key_eq_iff (l : Lock) (k : Key) :
    k = l.key ↔ k.extended = l.key.extended ∧ k.code = l.key.code := by
  refine ⟨fun h => by simp [h], fun ⟨hextended, hcode⟩ => ?_⟩
  obtain ⟨extended, code, hlow, hup⟩ := k
  cases hextended
  cases hcode
  rfl

theorem tables (l : Lock) (k : Key) :
    k.mask.getLsbD l.position = false ∧
      (((togglecode k.index).setWidth 32).getLsbD l.position = true ↔ k = l.key) := by
  have hall := tables_spec k.extended k.code.toNat k.code_lt l (by cases l <;> simp)
  have hpos : l.position < 32 := by cases l <;> decide
  rw [BitVec.ofNat_toNat, BitVec.setWidth_eq, ← l.key_eq_iff] at hall
  simpa [Key.mask, hpos, Key.index] using hall

/-- A make of the key turns the lock, and nothing else does. -/
theorem event_bit (l : Lock) (e : KeyEvent) {shift : Word} (h : shift &&& E0ESC = 0) :
    (decode e.bytes shift).2 &&& l.bit ≠ 0 ↔
      if e = ⟨l.key, true⟩ then ¬ shift &&& l.bit ≠ 0 else shift &&& l.bit ≠ 0 := by
  obtain ⟨hmask, htoggle⟩ := l.tables e.key
  have hpos : l.position < 32 := by cases l <;> decide
  have hesc : E0ESC.getLsbD l.position = false := by cases l <;> decide
  rw [l.has_iff, l.has_iff, decode_event e h]
  obtain ⟨key, isMake⟩ := e
  dsimp only at hmask htoggle ⊢
  cases isMake with
  | false =>
    simp only [Bool.false_eq_true, if_false, BitVec.getLsbD_and, BitVec.getLsbD_not,
      BitVec.getLsbD_or, hmask, hesc]
    simp [hpos]
  | true =>
    by_cases hkey : key = l.key
    · have hturn : ((togglecode key.index).setWidth 32).getLsbD l.position = true := htoggle.mpr hkey
      simp only [if_true, hkey, BitVec.getLsbD_xor, BitVec.getLsbD_or]
      rw [hkey] at hmask hturn
      simp [hmask, hturn]
    · have hkeep : ((togglecode key.index).setWidth 32).getLsbD l.position = false :=
        Bool.not_eq_true _ ▸ mt htoggle.mp hkey
      simp only [if_true, BitVec.getLsbD_xor, BitVec.getLsbD_or, hkeep, hmask]
      simp [hkey]

theorem bit_iff_on (l : Lock) (es : List KeyEvent) : shiftAfter es &&& l.bit ≠ 0 ↔ l.On es := by
  induction es using List.reverseRecOn with
  | nil => simp [shiftAfter, decode, On]
  | append_singleton es e ih =>
    rw [shiftAfter_append, l.event_bit e (shiftAfter_escape es), ih, On, On, List.countP_append]
    by_cases he : e = ⟨l.key, true⟩
    · simp [he, Nat.odd_add_one]
    · simp [he]

end Lock

instance (m : Modifier) (es : List KeyEvent) : Decidable (m.Latest es) :=
  inferInstanceAs (Decidable (∃ e ∈ (es.filter fun e => e.key ∈ m.keys).getLast?, e.isMake = true))

/-- The character that the key stands for once `es` have happened, its own make last. -/
def charAfter (es : List KeyEvent) (data : Byte) : Byte :=
  let c :=
    (if Modifier.ctl.Latest es then ctlmap
      else if Modifier.shift.Latest es then shiftmap else normalmap) data
  if Lock.caps.On es then exchangeCase c else c

theorem decode_make (k : Key) {shift : Word} (h : shift &&& E0ESC = 0) :
    (decode (KeyEvent.bytes ⟨k, true⟩) shift).1 =
        (if k.extended then [0] else []) ++ [(keyPressed k.index shift).c] ∧
      rebootsIn (KeyEvent.bytes ⟨k, true⟩) shift =
        if (keyPressed k.index shift).reboot then 1 else 0 := by
  obtain ⟨hmake, -⟩ := released_ne k.code_lt
  obtain ⟨extended, code, lower, upper⟩ := k
  cases extended with
  | false =>
    have hbytes : KeyEvent.bytes ⟨⟨false, code, lower, upper⟩, true⟩ = [code] := rfl
    simp [hbytes, decode, rebootsIn, kbdData_make hmake h, Key.index]
  | true =>
    have hbytes : KeyEvent.bytes ⟨⟨true, code, lower, upper⟩, true⟩ = [0xE0, code] := rfl
    have hkey := kbdData_make_extended hmake (keyEvent_escape shift)
    rw [keyEvent_unescape h] at hkey
    have hreboots : rebootsIn [0xE0, code] shift =
      0 + (if (keyPressed (code ||| 0x80) shift).reboot then 1 else 0) := by
      simp only [rebootsIn, kbdData_escape, hkey, Bool.false_eq_true, if_false, Nat.add_zero]
    rw [hbytes, hreboots, Nat.zero_add]
    simp only [decode, kbdData_escape, hkey]
    exact ⟨rfl, rfl⟩

theorem keyPressed_shiftAfter (es : List KeyEvent) (k : Key) :
    (keyPressed k.index (shiftAfter es)).shift = shiftAfter (es ++ [⟨k, true⟩]) := by
  rw [shiftAfter_append, decode_event _ (shiftAfter_escape es)]
  rfl

theorem keyPressed_charAfter (es : List KeyEvent) (k : Key) :
    (keyPressed k.index (shiftAfter es)).c = charAfter (es ++ [⟨k, true⟩]) k.index := by
  have hshift := keyPressed_shiftAfter es k
  have hctl : shiftAfter (es ++ [⟨k, true⟩]) &&& CTL ≠ 0 ↔ _ := Modifier.ctl.bit_iff_latest _
  have hmod : shiftAfter (es ++ [⟨k, true⟩]) &&& SHIFT ≠ 0 ↔ _ := Modifier.shift.bit_iff_latest _
  have hcaps : shiftAfter (es ++ [⟨k, true⟩]) &&& CAPSLOCK ≠ 0 ↔ _ := Lock.caps.bit_iff_on _
  unfold keyPressed at hshift ⊢
  dsimp only at hshift ⊢
  rw [hshift, charcode_eq, charAfter, if_congr hctl rfl (if_congr hmod rfl rfl), if_congr hcaps rfl rfl]

theorem decode_break (k : Key) (shift : Word) :
    ∀ c ∈ (decode (KeyEvent.bytes ⟨k, false⟩) shift).1, c = 0 := by
  have hlt := k.code_lt
  obtain ⟨extended, code, lower, upper⟩ := k
  cases extended with
  | false =>
    have hbytes : KeyEvent.bytes ⟨⟨false, code, lower, upper⟩, false⟩ = [code ||| 0x80] := rfl
    simp only [hbytes, decode, kbdData_break hlt]
    simp
  | true =>
    have hbytes : KeyEvent.bytes ⟨⟨true, code, lower, upper⟩, false⟩ = [0xE0, code ||| 0x80] := rfl
    simp only [hbytes, decode, kbdData_escape, kbdData_break hlt]
    simp

/-- What is typed when `es` follow on `pre`. -/
def charsTyped : List KeyEvent → List KeyEvent → List Byte
  | _, [] => []
  | pre, e :: es =>
    (if e.isMake then [charAfter (pre ++ [e]) e.key.index] else []) ++ charsTyped (pre ++ [e]) es

theorem charsTyped_append (pre es es' : List KeyEvent) :
    charsTyped pre (es ++ es') = charsTyped pre es ++ charsTyped (pre ++ es) es' := by
  induction es generalizing pre with
  | nil => simp [charsTyped]
  | cons e es ih => simp [charsTyped, ih]

/-- The driver keeps no more of a history than the latest events of the modifiers
and the parity of CAPSLOCK. -/
theorem keyboard_types (es : List KeyEvent) :
    (decode (es.flatMap KeyEvent.bytes) 0).1.filter (· ≠ 0) = (charsTyped [] es).filter (· ≠ 0) := by
  induction es using List.reverseRecOn with
  | nil => rfl
  | append_singleton es e ih =>
    have hlast : (decode e.bytes (shiftAfter es)).1.filter (· ≠ 0) =
      (charsTyped es [e]).filter (· ≠ 0) := by
      obtain ⟨k, isMake⟩ := e
      cases isMake with
      | false => simpa [charsTyped] using decode_break k (shiftAfter es)
      | true =>
        rw [(decode_make k (shiftAfter_escape es)).1, keyPressed_charAfter]
        cases k.extended <;> simp [charsTyped]
    rw [List.flatMap_append, List.flatMap_singleton, decode_append, List.filter_append, ih,
      charsTyped_append, List.filter_append, List.nil_append, ← hlast]
    rfl

theorem letter_tables : ∀ n < 256, chr 'a' ≤ normalmap (BitVec.ofNat 8 n) →
    normalmap (BitVec.ofNat 8 n) ≤ chr 'z' →
    shiftmap (BitVec.ofNat 8 n) = normalmap (BitVec.ofNat 8 n) - 0x20 ∧
      ctlmap (BitVec.ofNat 8 n) = normalmap (BitVec.ofNat 8 n) - 0x60 ∧
      shiftcode (BitVec.ofNat 8 n) = 0 ∧ togglecode (BitVec.ofNat 8 n) = 0 ∧ n < 0x80 := by
  decide +kernel

theorem charAfter_plain {k : Key} (hshiftcode : shiftcode k.index = 0)
    (htogglecode : togglecode k.index = 0) (es : List KeyEvent) (data : Byte) :
    charAfter (es ++ [⟨k, true⟩]) data = charAfter es data := by
  have hsame : shiftAfter (es ++ [⟨k, true⟩]) = shiftAfter es := by
    rw [shiftAfter_append, decode_event _ (shiftAfter_escape es)]
    simp [Key.mask, hshiftcode, htogglecode]
  have hmod (m : Modifier) : m.Latest (es ++ [⟨k, true⟩]) ↔ m.Latest es := by
    rw [← m.bit_iff_latest, ← m.bit_iff_latest, hsame]
  have hlock : Lock.caps.On (es ++ [⟨k, true⟩]) ↔ Lock.caps.On es := by
    rw [← Lock.bit_iff_on, ← Lock.bit_iff_on, hsame]
  simp only [charAfter, hmod, hlock]

theorem exchangeCase_letter : ∀ n < 256, chr 'a' ≤ BitVec.ofNat 8 n → BitVec.ofNat 8 n ≤ chr 'z' →
    exchangeCase (BitVec.ofNat 8 n) = BitVec.ofNat 8 n - 0x20 ∧
      exchangeCase (BitVec.ofNat 8 n - 0x20) = BitVec.ofNat 8 n ∧
      exchangeCase (BitVec.ofNat 8 n - 0x60) = BitVec.ofNat 8 n - 0x60 := by
  decide +kernel

/-- CAPSLOCK and SHIFT undo each other, and CTL overrides both. -/
theorem letter_case (es : List KeyEvent) (k : Key) (hlow : chr 'a' ≤ normalmap k.index)
    (hhigh : normalmap k.index ≤ chr 'z') :
    (decode (KeyEvent.bytes ⟨k, true⟩) (shiftAfter es)).1 =
      [if Modifier.ctl.Latest es then normalmap k.index - 0x60
        else if Modifier.shift.Latest es ↔ Lock.caps.On es then normalmap k.index
        else normalmap k.index - 0x20] := by
  have htables := letter_tables k.index.toNat k.index.isLt
  have hcase := exchangeCase_letter (normalmap k.index).toNat (normalmap k.index).isLt
  rw [BitVec.ofNat_toNat, BitVec.setWidth_eq] at htables hcase
  obtain ⟨hshifted, hctl, hshiftcode, htogglecode, hindex⟩ := htables hlow hhigh
  obtain ⟨hupper, hlower, hcontrol⟩ := hcase hlow hhigh
  have hplain : k.extended = false := by
    cases hext : k.extended with
    | false => rfl
    | true =>
      have hbit : (k.code ||| 0x80).toNat < 0x80 := by simpa only [Key.index, hext, if_true] using hindex
      have hle : (0x80 : Byte).toNat ≤ (k.code ||| 0x80).toNat := by
        rw [BitVec.toNat_or]
        exact Nat.right_le_or
      exact absurd hbit (Nat.not_lt.mpr hle)
  have hchar : charAfter es k.index = if Modifier.ctl.Latest es then normalmap k.index - 0x60
      else if Modifier.shift.Latest es ↔ Lock.caps.On es then normalmap k.index
      else normalmap k.index - 0x20 := by
    rw [charAfter]
    by_cases hc : Modifier.ctl.Latest es
    · simp only [if_pos hc, hctl, hcontrol, ite_self]
    · by_cases hs : Modifier.shift.Latest es <;> by_cases hl : Lock.caps.On es <;>
        simp only [hc, hs, hl, if_true, if_false, iff_true, iff_false, not_true_eq_false, hshifted,
          hupper, hlower]
  rw [(decode_make k (shiftAfter_escape es)).1, keyPressed_charAfter,
    charAfter_plain hshiftcode htogglecode, hplain, hchar]
  rfl

/-- CAPSLOCK, and then `a`. -/
theorem letter_case_a :
    (decode (KeyEvent.bytes ⟨⟨false, 0x1E, by decide, by decide⟩, true⟩)
      (shiftAfter [⟨Lock.caps.key, true⟩])).1 =
      [if Modifier.ctl.Latest [⟨Lock.caps.key, true⟩] then chr 'a' - 0x60
        else if Modifier.shift.Latest [⟨Lock.caps.key, true⟩] ↔ Lock.caps.On [⟨Lock.caps.key, true⟩]
          then chr 'a'
        else chr 'a' - 0x20] :=
  letter_case [⟨Lock.caps.key, true⟩] ⟨false, 0x1E, by decide, by decide⟩
    (by decide +kernel) (by decide +kernel)

end Jos
