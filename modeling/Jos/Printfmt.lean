import Jos.Loop
import Jos.Memory
import Mathlib.Data.BitVec
import Mathlib.Data.List.TakeWhile
import Mathlib.Logic.Function.Iterate

/-! `lib/printfmt.c`, the formatter. It hands its characters to a `putch` that
acts on any kind of state. A string that runs out before its NUL, a missing
argument and a loop that does not return are `none`. -/

namespace Jos

/-- The value of an `int` after arithmetic on it. -/
def wrap32 (i : Int) : Int :=
  i.bmod (2 ^ 32)

def chr (c : Char) : Byte :=
  BitVec.ofNat 8 c.toNat

/-- A string without its NUL. -/
@[ext]
structure CString where
  bytes : List Byte
  nonzero : ∀ b ∈ bytes, b ≠ 0

def cstr (s : String) : CString :=
  ⟨(s.toList.map chr).takeWhile (· ≠ 0), fun _ hb => by simpa using List.mem_takeWhile_imp hb⟩

namespace CString

def object (s : CString) : List Byte :=
  s.bytes ++ [0]

instance : Append CString where
  append s t := ⟨s.bytes ++ t.bytes,
    fun b hb => (List.mem_append.mp hb).elim (s.nonzero b) (t.nonzero b)⟩

@[simp] theorem append_bytes (s t : CString) : (s ++ t).bytes = s.bytes ++ t.bytes := rfl

end CString

def MAXERROR : Nat := 7

def errorText : Nat → Option CString
  | 1 => some (cstr "unspecified error")
  | 2 => some (cstr "bad environment")
  | 3 => some (cstr "invalid parameter")
  | 4 => some (cstr "out of memory")
  | 5 => some (cstr "out of environments")
  | 6 => some (cstr "segmentation fault")
  | _ => none

/-- What the formatter reads through pointers: the bytes from each address on,
and the pointers in the table `error_string`. Its sinks do not store there. -/
structure Rom where
  bytes : Word → List Byte
  errorString : Nat → Word
  errorString_none : ∀ i < MAXERROR, errorText i = none → errorString i = 0
  errorString_some : ∀ i < MAXERROR, ∀ t ∈ errorText i,
    errorString i ≠ 0 ∧ t.object <+: bytes (errorString i)

/-- The strings at the addresses that are their numbers. -/
instance : Inhabited Rom where
  default :=
    { bytes := fun p => (errorText p.toNat).elim [] CString.object
      errorString := fun i => if (errorText i).isSome then BitVec.ofNat 32 i else 0
      errorString_none := fun i _ h => by simp [h]
      errorString_some := fun i hi t ht => by
        have hne : i ≠ 0 := by
          rintro rfl
          simp [errorText] at ht
        have hi' : i < 2 ^ 32 := hi.trans (by decide)
        rw [Option.mem_def] at ht
        simp only [ht, Option.isSome_some, if_true, BitVec.toNat_ofNat, Nat.mod_eq_of_lt hi']
        refine ⟨fun h => hne ?_, List.prefix_rfl⟩
        have hz : i % 2 ^ 32 = 0 := by simpa using congrArg BitVec.toNat h
        rwa [Nat.mod_eq_of_lt hi'] at hz }

/-- A `va_list` is the words of the stack it runs over. -/
def vaInt : List Word → Option (Word × List Word)
  | [] => none
  | w :: ap => some (w, ap)

def vaLongLong : List Word → Option (BitVec 64 × List Word)
  | lo :: hi :: ap => some (hi ++ lo, ap)
  | _ => none

def getuint (ap : List Word) (lflag : Int) : Option (BitVec 64 × List Word) :=
  if lflag ≥ 2 then vaLongLong ap
  else (vaInt ap).map fun (w, ap) => (w.setWidth 64, ap)

def getint (ap : List Word) (lflag : Int) : Option (BitVec 64 × List Word) :=
  if lflag ≥ 2 then vaLongLong ap
  else (vaInt ap).map fun (w, ap) => (w.signExtend 64, ap)

/-- The pointer `fmt`, between the bytes it has passed, the last one first, and
the bytes to come. -/
structure Cursor where
  before : List Byte
  after : List Byte

namespace Cursor

/-- `*fmt++` -/
def next : Cursor → Option (Byte × Cursor)
  | ⟨_, []⟩ => none
  | ⟨before, b :: after⟩ => some (b, ⟨b :: before, after⟩)

/-- `fmt--` -/
def back : Cursor → Option Cursor
  | ⟨[], _⟩ => none
  | ⟨b :: before, after⟩ => some ⟨before, b :: after⟩

/-- `for (; fmt[-1] != '%'; fmt--)` -/
def toPercent : List Byte → List Byte → Option Cursor
  | [], _ => none
  | b :: before, after =>
    if b = chr '%' then some ⟨b :: before, after⟩ else toPercent before (b :: after)

def rewind (fmt : Cursor) : Option Cursor :=
  fmt.back.bind fun fmt => toPercent fmt.before fmt.after

end Cursor

inductive Conversion where
  | char
  | error
  | string
  | decimal
  | unsigned
  | octal
  | pointer
  | hex
  | percent
  | unrecognized
  deriving DecidableEq

/-- The cases of one character that go on to `reswitch`. -/
inductive Flag where
  | right
  | zero
  | star
  | dot
  | alt
  | long
  deriving DecidableEq

inductive SwitchCase where
  | flag (f : Flag)
  | width
  | conversion (k : Conversion)
  deriving DecidableEq

def switchCase (ch : Byte) : SwitchCase :=
  if ch = chr '-' then .flag .right
  else if ch = chr '0' then .flag .zero
  else if chr '1' ≤ ch ∧ ch ≤ chr '9' then .width
  else if ch = chr '*' then .flag .star
  else if ch = chr '.' then .flag .dot
  else if ch = chr '#' then .flag .alt
  else if ch = chr 'l' then .flag .long
  else if ch = chr 'c' then .conversion .char
  else if ch = chr 'e' then .conversion .error
  else if ch = chr 's' then .conversion .string
  else if ch = chr 'd' then .conversion .decimal
  else if ch = chr 'u' then .conversion .unsigned
  else if ch = chr 'o' then .conversion .octal
  else if ch = chr 'p' then .conversion .pointer
  else if ch = chr 'x' then .conversion .hex
  else if ch = chr '%' then .conversion .percent
  else .conversion .unrecognized

structure Escape where
  padc : Byte
  width : Int
  precision : Int
  lflag : Int
  altflag : Bool

def Escape.start : Escape :=
  ⟨chr ' ', -1, -1, 0, false⟩

/-- The label `process_precision`. -/
def Escape.processPrecision (esc : Escape) (precision : Int) : Escape :=
  if esc.width < 0 then { esc with width := precision, precision := -1 }
  else { esc with precision := precision }

def Flag.apply (f : Flag) (ap : List Word) (esc : Escape) : Option (List Word × Escape) :=
  match f with
  | .right => some (ap, { esc with padc := chr '-' })
  | .zero => some (ap, { esc with padc := chr '0' })
  | .star => (vaInt ap).map fun (w, ap) => (ap, esc.processPrecision w.toInt)
  | .dot => some (ap, { esc with width := if esc.width < 0 then 0 else esc.width })
  | .alt => some (ap, { esc with altflag := true })
  | .long => some (ap, { esc with lflag := wrap32 (esc.lflag + 1) })

/-- The loop that reads a number, `ch` being its digit read last. -/
def scanNumber (precision : Int) (ch : Byte) (before : List Byte) : List Byte → Option (Int × Cursor)
  | [] => none
  | c :: after =>
    let precision := wrap32 (precision * 10 + ch.toNat - (chr '0').toNat)
    if c < chr '0' ∨ chr '9' < c then some (precision, ⟨before, c :: after⟩)
    else scanNumber precision c (c :: before) after

structure Scan where
  fmt : Cursor
  ap : List Word
  esc : Escape

def reswitch (sc : Scan) : Option (Turn Scan (Conversion × Scan)) :=
  sc.fmt.next.bind fun (ch, fmt) =>
  match switchCase ch with
  | .flag f => (f.apply sc.ap sc.esc).map fun (ap, esc) => .again ⟨fmt, ap, esc⟩
  | .width => (scanNumber 0 ch fmt.before fmt.after).map fun (precision, fmt) =>
    .again ⟨fmt, sc.ap, sc.esc.processPrecision precision⟩
  | .conversion k => some (.leave (k, { sc with fmt := fmt }))

def strnlen : List Byte → Nat → Option Nat
  | _, 0 => some 0
  | [], _ + 1 => none
  | c :: s, size + 1 => if c = 0 then some 0 else (strnlen s size).map (· + 1)

section Putch

variable {σ : Type*} (putch : Word → σ → σ)

/-- `"0123456789abcdef"[d]` -/
def digitChar (d : Nat) : Option Byte :=
  ("0123456789abcdef".toList.map chr)[d]?

/-- `fuel` bounds the depth of the recursion. -/
def printnum (base : Nat) (padc : Byte) : Nat → Nat → Int → σ → Option σ
  | 0, _, _, _ => none
  | fuel + 1, num, width, s =>
    (if num ≥ base then printnum base padc fuel (num / base) (wrap32 (width - 1)) s
    else some ((putch (padc.signExtend 32))^[(wrap32 (width - 1)).toNat] s)).bind fun s =>
    (digitChar (num % base)).map fun d => putch (d.signExtend 32) s

/-- The label `number`: an `unsigned long long` has at most 64 digits. -/
def printNumber (num : BitVec 64) (base : Nat) (esc : Escape) (s : σ) : Option σ :=
  printnum putch base esc.padc 64 num.toNat esc.width s

/-- The loop of `%s` that pads on the left, and the width it leaves. -/
def padString (esc : Escape) (p : List Byte) (s : σ) : Option (Int × σ) :=
  if esc.width > 0 ∧ esc.padc ≠ chr '-' then
    (strnlen p (esc.precision % 2 ^ 32).toNat).map fun (n : Nat) =>
      let width := wrap32 (esc.width - n)
      (min width 0, (putch (esc.padc.signExtend 32))^[width.toNat] s)
  else some (esc.width, s)

/-- The loop of `%s` over its characters, and the width it leaves. -/
def printChars (altflag : Bool) : List Byte → Int → Int → σ → Option (Int × σ)
  | [], _, _, _ => none
  | ch :: p, precision, width, s =>
    if ch = 0 then some (width, s)
    else
      let precision' := if precision < 0 then precision else precision - 1
      if precision < 0 ∨ precision' ≥ 0 then
        let shown := if altflag ∧ (ch.toInt < 0x20 ∨ ch.toInt > 0x7E) then chr '?' else ch
        printChars altflag p precision' (wrap32 (width - 1)) (putch (shown.signExtend 32) s)
      else some (width, s)

def printString (esc : Escape) (p : List Byte) (s : σ) : Option σ :=
  (padString putch esc p s).bind fun (width, s) =>
  (printChars putch esc.altflag p esc.precision width s).map fun (width, s) =>
  (putch 0x20)^[width.toNat] s

def Rom.string (rom : Rom) (p : Word) : List Byte :=
  if p = 0 then (cstr "(null)").object else rom.bytes p

variable (rom : Rom) (printfmt : CString → List Word → σ → Option σ)

/-- `err`, after its sign is taken off. -/
def errorCode (w : Word) : Int :=
  if w.toInt < 0 then wrap32 (-w.toInt) else w.toInt

/-- `error_string[err]` is read at the byte offset `4 * err`, modulo `2 ^ 32`. -/
def printError (w : Word) (s : σ) : Option σ :=
  let err := errorCode w
  let p := rom.errorString (err % 2 ^ 30).toNat
  if err ≥ MAXERROR ∨ p = 0 then printfmt (cstr "error %d") [BitVec.ofInt 32 err] s
  else printfmt (cstr "%s") [p] s

def printDecimal (num : BitVec 64) (esc : Escape) (s : σ) : Option σ :=
  if num.toInt < 0 then printNumber putch (-num) 10 esc (putch ((chr '-').signExtend 32) s)
  else printNumber putch num 10 esc s

/-- The `switch` on a conversion: what is left of the arguments, and the sink. -/
def convert (k : Conversion) (esc : Escape) (ap : List Word) (s : σ) : Option (List Word × σ) :=
  match k with
  | .char => (vaInt ap).map fun (w, ap) => (ap, putch w s)
  | .error => (vaInt ap).bind fun (w, ap) => (printError rom printfmt w s).map (ap, ·)
  | .string => (vaInt ap).bind fun (p, ap) => (printString putch esc (rom.string p) s).map (ap, ·)
  | .decimal => (getint ap esc.lflag).bind fun (num, ap) => (printDecimal putch num esc s).map (ap, ·)
  | .unsigned => (getuint ap esc.lflag).bind fun (num, ap) =>
    (printNumber putch num 10 esc s).map (ap, ·)
  | .octal =>
    let x := (chr 'X').signExtend 32
    some (ap, putch x (putch x (putch x s)))
  | .pointer => (vaInt ap).bind fun (p, ap) =>
    (printNumber putch (p.setWidth 64) 16 esc
      (putch ((chr 'x').signExtend 32) (putch ((chr '0').signExtend 32) s))).map (ap, ·)
  | .hex => (getuint ap esc.lflag).bind fun (num, ap) =>
    (printNumber putch num 16 esc s).map (ap, ·)
  | .percent => some (ap, putch ((chr '%').signExtend 32) s)
  | .unrecognized => some (ap, putch ((chr '%').signExtend 32) s)

/-- Where the format is read on: an unrecognized escape is read again as text. -/
def resume (k : Conversion) (fmt : Cursor) : Option Cursor :=
  if k = .unrecognized then fmt.rewind else some fmt

structure Printing (σ : Type*) where
  fmt : Cursor
  ap : List Word
  sink : σ

/-- One character outside escapes, or one escape. -/
def vprintfmtTurn (st : Printing σ) : Option (Turn (Printing σ) (Printing σ)) :=
  st.fmt.next.bind fun (ch, fmt) =>
  if ch ≠ chr '%' then
    if ch = 0 then some (.leave { st with fmt := fmt })
    else some (.again { st with fmt := fmt, sink := putch (ch.setWidth 32) st.sink })
  else
    (loop reswitch (fmt.after.length + 1) ⟨fmt, st.ap, .start⟩).bind fun (k, sc) =>
    (convert putch rom printfmt k sc.esc sc.ap st.sink).bind fun (ap, s) =>
    (resume k sc.fmt).map fun fmt => .again ⟨fmt, ap, s⟩

end Putch

/-- `depth` bounds the calls of `printfmt` inside one another. -/
def vprintfmtDepth {σ : Type*} (putch : Word → σ → σ) (rom : Rom) :
    Nat → CString → List Word → σ → Option σ
  | 0, _, _, _ => none
  | depth + 1, fmt, ap, s =>
    (loop (vprintfmtTurn putch rom (vprintfmtDepth putch rom depth)) (fmt.object.length + 1)
      ⟨⟨[], fmt.object⟩, ap, s⟩).map Printing.sink

/-- The formats `vprintfmt` calls `printfmt` with call it no further. -/
def vprintfmt {σ : Type*} (putch : Word → σ → σ) (rom : Rom) (fmt : CString) (ap : List Word)
    (s : σ) : Option σ :=
  vprintfmtDepth putch rom 2 fmt ap s

end Jos
