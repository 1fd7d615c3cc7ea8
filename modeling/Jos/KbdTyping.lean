import Jos.Kbd

/-! Typing on a US keyboard: from the scan codes of the keys the driver gets back the text. -/

namespace Jos

/-- A key of the main block, with the characters it is labelled. -/
structure KeyCap where
  code : Byte
  plain : Byte
  shifted : Byte
  deriving DecidableEq

def capsRow (first : Nat) (plain shifted : String) : List KeyCap :=
  ((chars plain).zip (chars shifted)).mapIdx fun i c => ⟨BitVec.ofNat 8 (first + i), c.1, c.2⟩

def usLayout : List KeyCap :=
  capsRow 0x01 "\x1B1234567890-=\x08\t" "\x1B!@#$%^&*()_+\x08\t" ++
  capsRow 0x10 "qwertyuiop[]\n" "QWERTYUIOP\x7b\x7d\n" ++
  capsRow 0x1E "asdfghjkl;'`" "ASDFGHJKL:\"~" ++
  capsRow 0x2B "\\zxcvbnm,./" "|ZXCVBNM<>?" ++
  capsRow 0x39 " " " "

inductive ShiftKey where
  | left
  | right
  deriving DecidableEq

def ShiftKey.code : ShiftKey → Byte
  | .left => 0x2A
  | .right => 0x36

/-- `Types held codes text`: with the given SHIFT key down, if any, the codes type
the text and leave both up. A key may come up at any time. -/
inductive Types : Option ShiftKey → List Byte → List Byte → Prop where
  | done : Types none [] []
  | plain {cap : KeyCap} {codes text : List Byte} (hcap : cap ∈ usLayout) (h : Types none codes text) :
      Types none (cap.code :: codes) (cap.plain :: text)
  | shifted {cap : KeyCap} {k : ShiftKey} {codes text : List Byte} (hcap : cap ∈ usLayout)
      (h : Types (some k) codes text) : Types (some k) (cap.code :: codes) (cap.shifted :: text)
  | up {cap : KeyCap} {held : Option ShiftKey} {codes text : List Byte} (hcap : cap ∈ usLayout)
      (h : Types held codes text) : Types held ((cap.code ||| 0x80) :: codes) text
  | shiftDown {k : ShiftKey} {codes text : List Byte} (h : Types (some k) codes text) :
      Types none (k.code :: codes) text
  | shiftRepeat {k : ShiftKey} {codes text : List Byte} (h : Types (some k) codes text) :
      Types (some k) (k.code :: codes) text
  | shiftUp {k : ShiftKey} {codes text : List Byte} (h : Types none codes text) :
      Types (some k) ((k.code ||| 0x80) :: codes) text

/-- No key of the modifiers is down and no escape is pending. -/
def Idle (shift : Word) : Prop :=
  shift &&& (SHIFT ||| CTL ||| ALT ||| E0ESC) = 0

def stateWith (held : Option ShiftKey) (shift : Word) : Word :=
  match held with
  | none => shift
  | some _ => shift ||| SHIFT

def letters : List (Byte × Byte) :=
  (chars "abcdefghijklmnopqrstuvwxyz").zip (chars "ABCDEFGHIJKLMNOPQRSTUVWXYZ")

def otherCase (b : Byte) : Byte :=
  ((letters.lookup b).or ((letters.map Prod.swap).lookup b)).getD b

def underLock (shift : Word) (b : Byte) : Byte :=
  if shift &&& CAPSLOCK ≠ 0 then otherCase b else b

theorem usLayout_maps : ∀ cap ∈ usLayout, normalmap cap.code = cap.plain ∧
    shiftmap cap.code = cap.shifted := by
  decide +kernel

theorem usLayout_codes : ∀ cap ∈ usLayout,
    cap.code < 0x59 ∧ shiftcode cap.code = 0 ∧ togglecode cap.code = 0 := by
  decide +kernel

theorem usLayout_chars : ∀ cap ∈ usLayout, cap.plain ≠ 0 ∧ cap.shifted ≠ 0 := by
  decide +kernel

theorem exchangeCase_eq (b : Byte) : exchangeCase b = otherCase b ∧ (exchangeCase b = 0 ↔ b = 0) := by
  have hall : ∀ n < 256, exchangeCase (BitVec.ofNat 8 n) = otherCase (BitVec.ofNat 8 n) ∧
      (exchangeCase (BitVec.ofNat 8 n) = 0 ↔ BitVec.ofNat 8 n = 0) := by
    decide +kernel
  have hb := hall b.toNat b.isLt
  rwa [BitVec.ofNat_toNat, BitVec.setWidth_eq] at hb

theorem underLock_ne_zero {b : Byte} (hb : b ≠ 0) (shift : Word) : underLock shift b ≠ 0 := by
  unfold underLock
  split_ifs
  · rw [← (exchangeCase_eq b).1]
    exact fun h => hb ((exchangeCase_eq b).2.mp h)
  · exact hb

theorem Idle.and_eq_zero {shift m : Word} (h : Idle shift)
    (hm : m &&& (SHIFT ||| CTL ||| ALT ||| E0ESC) = m) : shift &&& m = 0 :=
  and_eq_zero_of_subset h hm

theorem stateWith_escape {shift : Word} (h : Idle shift) (held : Option ShiftKey) :
    stateWith held shift &&& E0ESC = 0 := by
  have hzero : shift &&& E0ESC = 0 := h.and_eq_zero (by decide)
  cases held with
  | none => exact hzero
  | some k =>
    rw [stateWith, BitVec.and_or_distrib_right, hzero]
    decide

theorem stateWith_lock (held : Option ShiftKey) (shift : Word) :
    stateWith held shift &&& CAPSLOCK = shift &&& CAPSLOCK := by
  cases held with
  | none => rfl
  | some k =>
    have hzero : SHIFT &&& CAPSLOCK = 0 := by decide
    rw [stateWith, BitVec.and_or_distrib_right, hzero]
    exact BitVec.or_zero

theorem keyPressed_cap {cap : KeyCap} (hcap : cap ∈ usLayout) {shift : Word} (h : Idle shift)
    (held : Option ShiftKey) :
    (keyPressed cap.code (stateWith held shift)).shift = stateWith held shift ∧
      (keyPressed cap.code (stateWith held shift)).c =
        underLock shift (if held = none then cap.plain else cap.shifted) := by
  obtain ⟨-, hshift, htoggle⟩ := usLayout_codes cap hcap
  have hzero : shift &&& (CTL ||| SHIFT) = 0 := h.and_eq_zero (by decide)
  have hsame : stateWith held shift ||| (shiftcode cap.code).setWidth 32 = stateWith held shift := by
    rw [hshift]
    exact BitVec.or_zero
  have hsame' : stateWith held shift ^^^ (togglecode cap.code).setWidth 32 = stateWith held shift := by
    rw [htoggle]
    exact BitVec.xor_zero
  have hmap : charcode (stateWith held shift &&& (CTL ||| SHIFT)) cap.code =
      if held = none then cap.plain else cap.shifted := by
    cases held with
    | none =>
      rw [stateWith, hzero]
      exact (usLayout_maps cap hcap).1
    | some k =>
      rw [stateWith, BitVec.and_or_distrib_right, hzero]
      exact (usLayout_maps cap hcap).2
  simp only [keyPressed, hsame, hsame', hmap, stateWith_lock, underLock, (exchangeCase_eq _).1, and_self]

theorem keyPressed_shift (k : ShiftKey) {shift : Word} (h : Idle shift) (held : Option ShiftKey) :
    (keyPressed k.code (stateWith held shift)).shift = stateWith (some k) shift ∧
      (keyPressed k.code (stateWith held shift)).c = 0 := by
  have hzero : shift &&& (CTL ||| SHIFT) = 0 := h.and_eq_zero (by decide)
  have hcode : (shiftcode k.code).setWidth 32 = SHIFT ∧ (togglecode k.code).setWidth 32 = 0#32 ∧
      shiftmap k.code = 0 := by
    cases k <;> decide +kernel
  have hset : stateWith held shift ||| SHIFT = stateWith (some k) shift := by
    cases held with
    | none => rfl
    | some k' => exact (BitVec.or_assoc _ _ _).trans (by rw [BitVec.or_self]; rfl)
  have hmap : charcode (stateWith (some k) shift &&& (CTL ||| SHIFT)) k.code = 0 := by
    rw [stateWith, BitVec.and_or_distrib_right, hzero]
    exact hcode.2.2
  have hexchange : exchangeCase 0 = 0 := (exchangeCase_eq 0).2.mpr rfl
  simp only [keyPressed, hcode.1, hcode.2.1, hset, BitVec.xor_zero, hmap, hexchange, ite_self, and_self]

theorem kbdData_up {m : Byte} (hm : m < 0x59) (hcode : shiftcode m = 0) {shift : Word} (h : Idle shift)
    (held : Option ShiftKey) :
    kbdData (m ||| 0x80) (stateWith held shift) = ⟨0, stateWith held shift, false⟩ := by
  have hesc := stateWith_escape h held
  rw [kbdData_break hm, if_neg (not_not.mpr hesc), hcode]
  exact congrArg (Decoded.mk 0 · false) (and_not_of_and_eq_zero hesc)

theorem kbdData_shiftUp (k : ShiftKey) {shift : Word} (h : Idle shift) :
    kbdData (k.code ||| 0x80) (stateWith (some k) shift) = ⟨0, shift, false⟩ := by
  have hesc := stateWith_escape h (some k)
  have hcode : k.code < 0x59 ∧ (shiftcode k.code).setWidth 32 = SHIFT := by cases k <;> decide
  have hzero : shift &&& (SHIFT ||| E0ESC) = 0 := h.and_eq_zero (by decide)
  have hclear : SHIFT &&& ~~~(SHIFT ||| E0ESC) = 0 := by decide
  rw [kbdData_break hcode.1, if_neg (not_not.mpr hesc), hcode.2, stateWith, BitVec.and_or_distrib_right,
    and_not_of_and_eq_zero hzero, hclear]
  exact congrArg (Decoded.mk 0 · false) BitVec.or_zero

theorem decode_cons (data : Byte) (codes : List Byte) (shift : Word) :
    decode (data :: codes) shift =
      ((kbdData data shift).c :: (decode codes (kbdData data shift).shift).1,
        (decode codes (kbdData data shift).shift).2) :=
  rfl

theorem decode_quiet {data : Byte} {shift shift' : Word} (hc : (kbdData data shift).c = 0)
    (hs : (kbdData data shift).shift = shift') (codes : List Byte) :
    (decode (data :: codes) shift).1.filter (· ≠ 0) = (decode codes shift').1.filter (· ≠ 0) ∧
      (decode (data :: codes) shift).2 = (decode codes shift').2 := by
  rw [decode_cons, hc, hs]
  exact ⟨List.filter_cons_of_neg (by simp), rfl⟩

theorem decode_strike {data b : Byte} {shift shift' : Word} (hb : b ≠ 0)
    (hc : (kbdData data shift).c = b) (hs : (kbdData data shift).shift = shift') (codes : List Byte) :
    (decode (data :: codes) shift).1.filter (· ≠ 0) = b :: (decode codes shift').1.filter (· ≠ 0) ∧
      (decode (data :: codes) shift).2 = (decode codes shift').2 := by
  rw [decode_cons, hc, hs]
  exact ⟨List.filter_cons_of_pos (by simpa using hb), rfl⟩

theorem kbdData_cap {cap : KeyCap} (hcap : cap ∈ usLayout) {shift : Word} (h : Idle shift)
    (held : Option ShiftKey) :
    kbdData cap.code (stateWith held shift) = keyPressed cap.code (stateWith held shift) :=
  kbdData_make (released_ne (usLayout_codes cap hcap).1).1 (stateWith_escape h held)

theorem kbdData_shiftDown (k : ShiftKey) {shift : Word} (h : Idle shift) (held : Option ShiftKey) :
    kbdData k.code (stateWith held shift) = keyPressed k.code (stateWith held shift) :=
  kbdData_make (by cases k <;> decide) (stateWith_escape h held)

theorem decode_cap {cap : KeyCap} (hcap : cap ∈ usLayout) {shift : Word} (h : Idle shift)
    (held : Option ShiftKey) (codes : List Byte) :
    (decode (cap.code :: codes) (stateWith held shift)).1.filter (· ≠ 0) =
        underLock shift (if held = none then cap.plain else cap.shifted) ::
          (decode codes (stateWith held shift)).1.filter (· ≠ 0) ∧
      (decode (cap.code :: codes) (stateWith held shift)).2 =
        (decode codes (stateWith held shift)).2 := by
  obtain ⟨hs, hc⟩ := keyPressed_cap hcap h held
  rw [← kbdData_cap hcap h] at hs hc
  have hne : (if held = none then cap.plain else cap.shifted) ≠ 0 := by
    split_ifs
    · exact (usLayout_chars cap hcap).1
    · exact (usLayout_chars cap hcap).2
  exact decode_strike (underLock_ne_zero hne shift) hc hs codes

theorem decode_shiftDown (k : ShiftKey) {shift : Word} (h : Idle shift) (held : Option ShiftKey)
    (codes : List Byte) :
    (decode (k.code :: codes) (stateWith held shift)).1.filter (· ≠ 0) =
        (decode codes (stateWith (some k) shift)).1.filter (· ≠ 0) ∧
      (decode (k.code :: codes) (stateWith held shift)).2 =
        (decode codes (stateWith (some k) shift)).2 := by
  obtain ⟨hs, hc⟩ := keyPressed_shift k h held
  rw [← kbdData_shiftDown k h] at hs hc
  exact decode_quiet hc hs codes

theorem Types.decode {held : Option ShiftKey} {codes text : List Byte} (ht : Types held codes text)
    {shift : Word} (h : Idle shift) :
    (Jos.decode codes (stateWith held shift)).1.filter (· ≠ 0) = text.map (underLock shift) ∧
      (Jos.decode codes (stateWith held shift)).2 = shift := by
  induction ht with
  | done => exact ⟨rfl, rfl⟩
  | @plain cap codes text hcap _ ih =>
    obtain ⟨hout, hend⟩ := decode_cap hcap h none codes
    rw [List.map_cons, ← ih.1]
    exact ⟨hout, hend.trans ih.2⟩
  | @shifted cap k codes text hcap _ ih =>
    obtain ⟨hout, hend⟩ := decode_cap hcap h (some k) codes
    rw [List.map_cons, ← ih.1]
    exact ⟨hout, hend.trans ih.2⟩
  | @up cap held codes text hcap _ ih =>
    obtain ⟨hm, hcode, -⟩ := usLayout_codes cap hcap
    have hdata := kbdData_up hm hcode h held
    obtain ⟨hout, hend⟩ := decode_quiet (by rw [hdata]) (by rw [hdata]) codes
    exact ⟨hout.trans ih.1, hend.trans ih.2⟩
  | @shiftDown k codes text _ ih =>
    obtain ⟨hout, hend⟩ := decode_shiftDown k h none codes
    exact ⟨hout.trans ih.1, hend.trans ih.2⟩
  | @shiftRepeat k codes text _ ih =>
    obtain ⟨hout, hend⟩ := decode_shiftDown k h (some k) codes
    exact ⟨hout.trans ih.1, hend.trans ih.2⟩
  | @shiftUp k codes text _ ih =>
    have hdata := kbdData_shiftUp k h
    obtain ⟨hout, hend⟩ := decode_quiet (by rw [hdata]) (by rw [hdata]) codes
    exact ⟨hout.trans ih.1, hend.trans ih.2⟩

/-- Every text of the layout's characters can be typed. -/
theorem types_exists {text : List Byte}
    (h : ∀ b ∈ text, ∃ cap ∈ usLayout, b = cap.plain ∨ b = cap.shifted) :
    ∃ codes, Types none codes text := by
  induction text with
  | nil => exact ⟨[], .done⟩
  | cons b text ih =>
    obtain ⟨codes, hcodes⟩ := ih fun c hc => h c (List.mem_cons_of_mem _ hc)
    obtain ⟨cap, hcap, hb⟩ := h b List.mem_cons_self
    rcases hb with rfl | rfl
    · exact ⟨_, .plain hcap (.up hcap hcodes)⟩
    · exact ⟨_, .shiftDown (.shifted hcap (.up hcap (.shiftUp (k := .left) hcodes)))⟩

/-- Whatever codes type a text, the driver makes the text of them and comes back
to the state it was in. -/
theorem typing_decodes (shift : Word) (h : shift &&& (SHIFT ||| CTL ||| ALT ||| E0ESC) = 0)
    (codes text : List Byte) (ht : Types none codes text) :
    (decode codes shift).1.filter (· ≠ 0) = text.map (underLock shift) ∧
    (decode codes shift).2 = shift :=
  ht.decode h

/-- `Hi` under `CAPSLOCK`. -/
theorem typing_decodes_hi :
    (decode [0x36, 0x23, 0xA3, 0xB6, 0x17, 0x97] CAPSLOCK).1.filter (· ≠ 0) =
        [chr 'H', chr 'i'].map (underLock CAPSLOCK) ∧
      (decode [0x36, 0x23, 0xA3, 0xB6, 0x17, 0x97] CAPSLOCK).2 = CAPSLOCK := by
  have hh : (⟨0x23, chr 'h', chr 'H'⟩ : KeyCap) ∈ usLayout := by decide +kernel
  have hi : (⟨0x17, chr 'i', chr 'I'⟩ : KeyCap) ∈ usLayout := by decide +kernel
  exact typing_decodes CAPSLOCK (by decide) _ _ (.shiftDown (k := .right)
    (.shifted hh (.up hh (.shiftUp (.plain hi (.up hi .done))))))

end Jos
