import Jos.FormatError
import Jos.FormatWidth
import Jos.Printf

/-! What a format of several escapes prints, one escape after the other, and the
console after it. -/

namespace Jos

/-- The console after calls of `cputchar`. -/
def cputs (cs : List Word) (con : Console) : Console :=
  cs.foldl (fun con c => cputchar c con) con

@[simp] theorem cputs_nil (con : Console) : cputs [] con = con := rfl

@[simp] theorem cputs_append (cs cs' : List Word) (con : Console) :
    cputs (cs ++ cs') con = cputs cs' (cputs cs con) :=
  List.foldl_append

theorem cputs_singleton (c : Word) (con : Console) : cputs [c] con = cputchar c con := rfl

/-- The string is a format without escapes. -/
def CString.NoPercent (s : CString) : Prop :=
  s.bytes.all (fun b => b != chr '%') = true

instance (s : CString) : Decidable s.NoPercent :=
  inferInstanceAs (Decidable (_ = true))

theorem CString.NoPercent.ne {s : CString} (h : s.NoPercent) : ∀ b ∈ s.bytes, b ≠ chr '%' := by
  simpa [NoPercent] using h

/-- The characters of a format outside its escapes, and those of an argument of `%s`. -/
def CString.plain (s : CString) : List Word :=
  s.bytes.map (BitVec.setWidth 32)

def shown (s : List Byte) : List Word :=
  s.map (BitVec.signExtend 32)

/-- `%d` of an `int`. -/
def integer (v : Word) : List Word :=
  (if v.toInt < 0 then [(chr '-').signExtend 32] else []) ++ digits 10 v.toInt.natAbs

theorem integer_of_toInt {v : Word} {n : Nat} (h : v.toInt = n) : integer v = digits 10 n := by
  have hneg : ¬ (n : Int) < 0 := by omega
  rw [integer, h, if_neg hneg]
  rfl

/-- `%08x` of an address. -/
def address (a : Nat) : List Word :=
  padding (chr '0') 8 (numeral 16 a).length ++ digits 16 a

theorem foldl_putch (cs : List Word) (st : Printed) :
    cs.foldl (fun st c => putch c st) st = ⟨cputs cs st.console, st.passed ++ cs, st.cnt⟩ := by
  induction cs generalizing st with
  | nil => simp
  | cons c cs ih =>
    rw [List.foldl_cons, ih]
    simp [putch, cputs]

theorem cprintf_calls {rom : Rom} {fmt : CString} {ap calls : List Word}
    (h : putchCalls rom fmt ap = some calls) (con : Console) :
    cprintf rom fmt ap con = some (0, ⟨cputs calls con, calls, 0⟩) := by
  simp [cprintf, vcprintf, vprintfmt_eq_calls, h, foldl_putch]

section Formats

variable (rom : Rom) {rest : CString} {ap calls : List Word}

theorem putchCalls_nil : putchCalls rom (cstr "") ap = some [] := rfl

theorem putchCalls_plain {s : CString} (hs : s.NoPercent) :
    putchCalls rom s ap = some s.plain := by
  have hnil : s ++ cstr "" = s := CString.ext (List.append_nil s.bytes)
  have happend := putchCalls_text_append rom hs.ne (cstr "") ap
  rw [hnil, putchCalls_nil] at happend
  simpa [CString.plain] using happend

variable (hrest : putchCalls rom rest ap = some calls)

include hrest

theorem putchCalls_plain_then {s : CString} (hs : s.NoPercent) :
    putchCalls rom (s ++ rest) ap = some (s.plain ++ calls) := by
  simp [putchCalls_text_append rom hs.ne, hrest, CString.plain]

/-- A string of fewer than `2 ^ 31` characters is not followed by blanks. -/
theorem putchCalls_string_then {s : CString} {p : Word} (hs : s.object <+: rom.string p)
    (hlen : s.bytes.length < 2 ^ 31) :
    putchCalls rom (cstr "%s" ++ rest) (p :: ap) = some (shown s.bytes ++ calls) := by
  have hset : ([] : List Setting).foldlM Setting.apply (p :: ap, Escape.start) =
    some (p :: ap, .start) := rfl
  have hwritten : Written [] := trivial
  have hprint : printString (fun c calls => calls ++ [c]) .start (rom.string p) [] =
    some (shown s.bytes) := by
    have hstring := putchCalls_string rom hs
    have hone : ([] : List Setting).foldlM Setting.apply ([p], Escape.start) = some ([p], .start) := rfl
    rw [stringFormat_eq, putchCalls_s rom hwritten hone] at hstring
    rw [hstring, wrap32_eq_self (by omega) (by omega)]
    have hnone : (-1 - (s.bytes.length : Int)).toNat = 0 := by omega
    rw [hnone, List.replicate_zero, List.append_nil, shown]
  rw [stringFormat_eq, putchCalls_escape_then rom hwritten (by decide : (cstr "s").bytes = [chr 's'])
    (by decide : switchCase (chr 's') = .conversion .string) (by decide) hset]
  simp [convert, vaInt, hprint, hrest]

theorem putchCalls_integer_then (v : Word) :
    putchCalls rom (cstr "%d" ++ rest) (v :: ap) = some (integer v ++ calls) := by
  have hset : ([] : List Setting).foldlM Setting.apply (v :: ap, Escape.start) =
    some (v :: ap, .start) := rfl
  have hwritten : Written [] := trivial
  have hformat : cstr "%d" = escape [] (cstr "d") := by
    ext1
    decide
  have hv : (v.signExtend 64).toInt = v.toInt := BitVec.toInt_signExtend_of_le (by decide)
  have hint : getint (v :: ap) Escape.start.lflag = some (v.signExtend 64, ap) := if_neg (by decide)
  rw [hformat, putchCalls_escape_then rom hwritten (by decide : (cstr "d").bytes = [chr 'd'])
    (by decide : switchCase (chr 'd') = .conversion .decimal) (by decide) hset]
  simp [convert, hint, printDecimal_start, hv, hrest, integer, digits]

theorem putchCalls_address_then (v : Word) :
    putchCalls rom (cstr "%08x" ++ rest) (v :: ap) = some (address v.toNat ++ calls) := by
  have hwidth : WidthInRange (some 8) := by
    intro w hw
    obtain rfl := Option.some.inj hw
    decide
  have hcomes := comes_number true hwidth .none
  have hformat : cstr "%08x" = escape (numberSettings true (some 8) .none) (cstr "x") := by
    ext1
    decide
  have hnum : (v.setWidth 64).toNat = v.toNat := BitVec.toNat_setWidth_of_le (by decide)
  have huint : getuint (v :: ap) (numberEscape true (some 8) .none).lflag = some (v.setWidth 64, ap) :=
    if_neg (by decide)
  rw [hformat, putchCalls_escape_then rom hcomes.written (by decide : (cstr "x").bytes = [chr 'x'])
    (by decide : switchCase (chr 'x') = .conversion .hex) (by decide) (hcomes.fold _), convert, huint,
    Option.bind_some]
  dsimp only
  rw [printNumber_padded (by decide) (by decide) _ hcomes.width, hnum]
  simp [hrest, address, numberEscape, padChar]

end Formats

end Jos
