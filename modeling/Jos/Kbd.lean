import Jos.Bits
import Jos.Printfmt

/-! The keyboard driver of `kern/console.c`: what `kbd_proc_data` makes of one
byte of a scan code, in the state `shift`. -/

namespace Jos

def KEY_HOME : Byte := 0xE0
def KEY_END : Byte := 0xE1
def KEY_UP : Byte := 0xE2
def KEY_DN : Byte := 0xE3
def KEY_LF : Byte := 0xE4
def KEY_RT : Byte := 0xE5
def KEY_PGUP : Byte := 0xE6
def KEY_PGDN : Byte := 0xE7
def KEY_INS : Byte := 0xE8
def KEY_DEL : Byte := 0xE9

def SHIFT : Word := 1 <<< 0
def CTL : Word := 1 <<< 1
def ALT : Word := 1 <<< 2
def CAPSLOCK : Word := 1 <<< 3
def NUMLOCK : Word := 1 <<< 4
def SCROLLLOCK : Word := 1 <<< 5
def E0ESC : Word := 1 <<< 6

/-- A table of 256 bytes: its first entries in order, then those given by their
index. The rest are zero, and zero is `NO`. -/
def byteTable (rows : List Byte) (designated : List (Byte × Byte)) (data : Byte) : Byte :=
  ((designated.lookup data).or rows[data.toNat]?).getD 0

def chars (s : String) : List Byte :=
  s.toList.map chr

def shiftcode : Byte → Byte :=
  byteTable [] [(0x1D, CTL.setWidth 8), (0x2A, SHIFT.setWidth 8), (0x36, SHIFT.setWidth 8),
    (0x38, ALT.setWidth 8), (0x9D, CTL.setWidth 8), (0xB8, ALT.setWidth 8)]

def togglecode : Byte → Byte :=
  byteTable [] [(0x3A, CAPSLOCK.setWidth 8), (0x45, NUMLOCK.setWidth 8), (0x46, SCROLLLOCK.setWidth 8)]

def specials : List (Byte × Byte) :=
  [(0xC7, KEY_HOME), (0x9C, chr '\n'), (0xB5, chr '/'), (0xC8, KEY_UP), (0xC9, KEY_PGUP),
    (0xCB, KEY_LF), (0xCD, KEY_RT), (0xCF, KEY_END), (0xD0, KEY_DN), (0xD1, KEY_PGDN),
    (0xD2, KEY_INS), (0xD3, KEY_DEL)]

def normalmap : Byte → Byte :=
  byteTable (
    chars "\x00\x1B123456" ++ chars "7890-=\x08\t" ++
    chars "qwertyui" ++ chars "op[]\n\x00as" ++
    chars "dfghjkl;" ++ chars "'`\x00\\zxcv" ++
    chars "bnm,./\x00*" ++ chars "\x00 \x00\x00\x00\x00\x00\x00" ++
    chars "\x00\x00\x00\x00\x00\x00\x007" ++ chars "89-456+1" ++
    chars "230.\x00\x00\x00\x00") specials

def shiftmap : Byte → Byte :=
  byteTable (
    chars "\x00\x1B!@#$%^" ++ chars "&*()_+\x08\t" ++
    chars "QWERTYUI" ++ chars "OP\x7b\x7d\n\x00AS" ++
    chars "DFGHJKL:" ++ chars "\"~\x00|ZXCV" ++
    chars "BNM<>?\x00*" ++ chars "\x00 \x00\x00\x00\x00\x00\x00" ++
    chars "\x00\x00\x00\x00\x00\x00\x007" ++ chars "89-456+1" ++
    chars "230.\x00\x00\x00\x00") specials

/-- `C(x)`, with `NO` left as it is. -/
def ctlChars (s : String) : List Byte :=
  (chars s).map fun x => if x = 0 then 0 else x - chr '@'

def ctlmap : Byte → Byte :=
  byteTable (
    chars "\x00\x00\x00\x00\x00\x00\x00\x00" ++ chars "\x00\x00\x00\x00\x00\x00\x00\x00" ++
    ctlChars "QWERTYUI" ++ ctlChars "OP\x00\x00" ++ chars "\r\x00" ++ ctlChars "AS" ++
    ctlChars "DFGHJKL\x00" ++ ctlChars "\x00\x00\x00\\ZXCV" ++
    ctlChars "BNM\x00\x00/\x00\x00")
    [(0x97, KEY_HOME), (0xB5, chr '/' - chr '@'), (0xC8, KEY_UP), (0xC9, KEY_PGUP), (0xCB, KEY_LF),
      (0xCD, KEY_RT), (0xCF, KEY_END), (0xD0, KEY_DN), (0xD1, KEY_PGDN), (0xD2, KEY_INS),
      (0xD3, KEY_DEL)]

/-- `charcode[i]`; `i` is a combination of `SHIFT` and `CTL`. -/
def charcode (i : Word) : Byte → Byte :=
  match i.toNat with
  | 0 => normalmap
  | 1 => shiftmap
  | _ => ctlmap

/-- The exchange of upper and lower case under `CAPSLOCK`. -/
def exchangeCase (c : Byte) : Byte :=
  if chr 'a' ≤ c ∧ c ≤ chr 'z' then c + (chr 'A' - chr 'a')
  else if chr 'A' ≤ c ∧ c ≤ chr 'Z' then c + (chr 'a' - chr 'A')
  else c

/-- `reboot` stands for the message `Rebooting!` and `outb(0x92, 0x3)`. -/
structure Decoded where
  c : Byte
  shift : Word
  reboot : Bool

/-- The end of `kbd_proc_data`, from `shift |= shiftcode[data]` on. -/
def keyPressed (data : Byte) (shift : Word) : Decoded :=
  let shift := shift ||| (shiftcode data).setWidth 32
  let shift := shift ^^^ (togglecode data).setWidth 32
  let c := charcode (shift &&& (CTL ||| SHIFT)) data
  let c := if shift &&& CAPSLOCK ≠ 0 then exchangeCase c else c
  ⟨c, shift, ~~~shift &&& (CTL ||| ALT) = 0 ∧ c = KEY_DEL⟩

/-- `kbd_proc_data` once it has read `data`. -/
def kbdData (data : Byte) (shift : Word) : Decoded :=
  if data = 0xE0 then ⟨0, shift ||| E0ESC, false⟩
  else if data &&& 0x80 ≠ 0 then
    let data := if shift &&& E0ESC ≠ 0 then data else data &&& 0x7F
    ⟨0, shift &&& ~~~((shiftcode data).setWidth 32 ||| E0ESC), false⟩
  else if shift &&& E0ESC ≠ 0 then keyPressed (data ||| 0x80) (shift &&& ~~~E0ESC)
  else keyPressed data shift

/-- What `kbd_proc_data` returns for the bytes, and the state it is left in. -/
def decode : List Byte → Word → List Byte × Word
  | [], shift => ([], shift)
  | data :: codes, shift =>
    let d := kbdData data shift
    let rest := decode codes d.shift
    (d.c :: rest.1, rest.2)

theorem decode_append (codes codes' : List Byte) (shift : Word) :
    decode (codes ++ codes') shift =
      ((decode codes shift).1 ++ (decode codes' (decode codes shift).2).1,
        (decode codes' (decode codes shift).2).2) := by
  induction codes generalizing shift with
  | nil => rfl
  | cons data codes ih => simp only [List.cons_append, decode, ih]

theorem kbdData_escape (shift : Word) : kbdData 0xE0 shift = ⟨0, shift ||| E0ESC, false⟩ :=
  if_pos rfl

theorem kbdData_make {m : Byte} (hm : m &&& 0x80 = 0) {shift : Word} (h : shift &&& E0ESC = 0) :
    kbdData m shift = keyPressed m shift := by
  have hne : m ≠ 0xE0 := by
    rintro rfl
    exact absurd hm (by decide)
  rw [kbdData, if_neg hne, if_neg (not_not.mpr hm), if_neg (not_not.mpr h)]

theorem kbdData_make_extended {m : Byte} (hm : m &&& 0x80 = 0) {shift : Word} (h : shift &&& E0ESC ≠ 0) :
    kbdData m shift = keyPressed (m ||| 0x80) (shift &&& ~~~E0ESC) := by
  have hne : m ≠ 0xE0 := by
    rintro rfl
    exact absurd hm (by decide)
  rw [kbdData, if_neg hne, if_neg (not_not.mpr hm), if_pos h]

theorem released_ne {m : Byte} (hm : m < 0x59) : m &&& 0x80 = 0 ∧ (m ||| 0x80) ≠ 0xE0 ∧
    (m ||| 0x80) &&& 0x80 ≠ 0 ∧ (m ||| 0x80) &&& 0x7F = m := by
  have hall : ∀ n < 0x59, BitVec.ofNat 8 n &&& 0x80 = 0 ∧ (BitVec.ofNat 8 n ||| 0x80) ≠ 0xE0 ∧
      (BitVec.ofNat 8 n ||| 0x80) &&& 0x80 ≠ 0 ∧
      (BitVec.ofNat 8 n ||| 0x80) &&& 0x7F = BitVec.ofNat 8 n := by
    decide
  simpa using hall m.toNat hm

theorem kbdData_break {m : Byte} (hm : m < 0x59) (shift : Word) :
    kbdData (m ||| 0x80) shift =
      ⟨0, shift &&& ~~~((shiftcode (if shift &&& E0ESC ≠ 0 then m ||| 0x80 else m)).setWidth 32 |||
        E0ESC), false⟩ := by
  obtain ⟨-, hne, hbit, hlow⟩ := released_ne hm
  rw [kbdData, if_neg hne, if_pos hbit, hlow]

end Jos
