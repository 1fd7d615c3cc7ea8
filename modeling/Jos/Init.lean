import Jos.FormatOctal
import Jos.MonitorShell

/-! `kern/init.c`: what the kernel prints before its monitor, and `panic` in front
of it. -/

namespace Jos

/-- It is still to be written. -/
def monBacktrace (con : Console) : Option (Int × Console) :=
  some (0, con)

/-- `x` is an `int`. -/
def testBacktrace (rom : Rom) (x : Int) (con : Console) : Option Console :=
  (prints rom con (cstr "entering test_backtrace %d\n", [BitVec.ofInt 32 x])).bind fun con =>
  (if x > 0 then testBacktrace rom (x - 1) con
    else (monBacktrace con).map fun r => r.2).bind fun con =>
  prints rom con (cstr "leaving test_backtrace %d\n", [BitVec.ofInt 32 x])
termination_by x.toNat

/-- `cons_init` after its devices, and `i386_init` up to its loop. -/
def initPrints (rom : Rom) (serialExists : Bool) (con : Console) : Option Console :=
  (if serialExists then some con
    else prints rom con (cstr "Serial port does not exist!\n", [])).bind fun con =>
  (prints rom con (cstr "6828 decimal is %o octal!\n", [6828])).bind fun con =>
  testBacktrace rom 5 con

/-- `i386_init` up to its first `getchar`. -/
def Kernel.i386Init (k : Kernel) (serialExists : Bool) (line : Nat → Byte) (con : Console) :
    Option Reading :=
  (initPrints (k.rom line) serialExists con).bind (k.monitorStart line)

def signed (x : Int) : List Word :=
  (if x < 0 then [(chr '-').signExtend 32] else []) ++ digits 10 x.natAbs

def entering (x : Int) : List Word :=
  (cstr "entering test_backtrace ").plain ++ (signed x ++ (cstr "\n").plain)

def leaving (x : Int) : List Word :=
  (cstr "leaving test_backtrace ").plain ++ (signed x ++ (cstr "\n").plain)

/-- The calls from the last one to the first. -/
def levels (x : Int) : List Int :=
  if x ≤ 0 then [x] else (List.range (x.toNat + 1)).map Int.ofNat

def backtraceText (x : Int) : List Word :=
  (levels x).reverse.flatMap entering ++ (levels x).flatMap leaving

def bootText (serialExists : Bool) : List Word :=
  (if serialExists then [] else (cstr "Serial port does not exist!\n").plain) ++
    ((cstr "6828 decimal is XXX octal!\n").plain ++ backtraceText 5)

theorem integer_ofInt {x : Int} (hlow : -2 ^ 31 ≤ x) (hhigh : x < 2 ^ 31) :
    integer (BitVec.ofInt 32 x) = signed x := by
  have hx : (BitVec.ofInt 32 x).toInt = x := BitVec.toInt_ofInt_eq_self (by decide) hlow hhigh
  rw [integer, hx, signed]

theorem levels_succ {x : Int} (h : 0 < x) : levels x = levels (x - 1) ++ [x] := by
  obtain ⟨n, rfl⟩ := Int.eq_ofNat_of_zero_le h.le
  obtain ⟨n, rfl⟩ := Nat.exists_eq_add_one_of_ne_zero (by omega : n ≠ 0)
  have hpos : ¬ ((n + 1 : Nat) : Int) ≤ 0 := by omega
  have hpred : ((n + 1 : Nat) : Int) - 1 = n := by omega
  rw [levels, if_neg hpos, hpred, levels, Int.toNat_natCast, Int.toNat_natCast, List.range_succ,
    List.map_append]
  congr 1
  cases n with
  | zero => rfl
  | succ n => exact (if_neg (by omega)).symm

theorem backtraceText_succ {x : Int} (h : 0 < x) :
    backtraceText x = entering x ++ (backtraceText (x - 1) ++ leaving x) := by
  rw [backtraceText, levels_succ h, backtraceText]
  simp

section Lines

variable (rom : Rom)

theorem prints_line (name format : CString) (hname : name.NoPercent)
    (hformat : format = name ++ (cstr "%d" ++ cstr "\n")) {x : Int} (hlow : -2 ^ 31 ≤ x)
    (hhigh : x < 2 ^ 31) (con : Console) :
    prints rom con (format, [BitVec.ofInt 32 x]) =
      some (cputs (name.plain ++ (signed x ++ (cstr "\n").plain)) con) := by
  have hend : putchCalls rom (cstr "\n") [] = _ := putchCalls_plain rom (by decide +kernel)
  have hnumber := putchCalls_integer_then rom hend (BitVec.ofInt 32 x)
  rw [integer_ofInt hlow hhigh] at hnumber
  rw [hformat]
  exact prints_calls (putchCalls_plain_then rom hnumber hname) con

theorem prints_entering {x : Int} (hlow : -2 ^ 31 ≤ x) (hhigh : x < 2 ^ 31) (con : Console) :
    prints rom con (cstr "entering test_backtrace %d\n", [BitVec.ofInt 32 x]) =
      some (cputs (entering x) con) :=
  prints_line rom (cstr "entering test_backtrace ") (cstr "entering test_backtrace %d\n")
    (by decide +kernel) (CString.ext (by decide +kernel)) hlow hhigh con

theorem prints_leaving {x : Int} (hlow : -2 ^ 31 ≤ x) (hhigh : x < 2 ^ 31) (con : Console) :
    prints rom con (cstr "leaving test_backtrace %d\n", [BitVec.ofInt 32 x]) =
      some (cputs (leaving x) con) :=
  prints_line rom (cstr "leaving test_backtrace ") (cstr "leaving test_backtrace %d\n")
    (by decide +kernel) (CString.ext (by decide +kernel)) hlow hhigh con

theorem testBacktrace_eq {x : Int} (hlow : -2 ^ 31 ≤ x) (hhigh : x < 2 ^ 31) (con : Console) :
    testBacktrace rom x con = some (cputs (backtraceText x) con) := by
  induction hn : x.toNat generalizing x con with
  | zero =>
    have hstop : ¬ x > 0 := by omega
    have hlevels : levels x = [x] := if_pos (by omega)
    rw [testBacktrace.eq_def, prints_entering rom hlow hhigh, Option.bind_some, if_neg hstop]
    simp [monBacktrace, prints_leaving rom hlow hhigh, backtraceText, hlevels]
  | succ n ih =>
    have hgo : x > 0 := by omega
    have hinner := ih (x := x - 1) (by omega) (by omega) (cputs (entering x) con) (by omega)
    rw [testBacktrace.eq_def, prints_entering rom hlow hhigh, Option.bind_some, if_pos hgo, hinner,
      Option.bind_some, prints_leaving rom hlow hhigh, backtraceText_succ hgo]
    simp

theorem octalLine : putchCalls rom (cstr "6828 decimal is %o octal!\n") [6828] =
    some (cstr "6828 decimal is XXX octal!\n").plain := by
  have hformat : cstr "6828 decimal is %o octal!\n" =
      cstr "6828 decimal is " ++ (escape (numberSettings false none .none) (cstr "o") ++
        cstr " octal!\n") :=
    CString.ext (by decide +kernel)
  have hnone : WidthInRange none := by simp [WidthInRange]
  have hend : putchCalls rom (cstr " octal!\n") [6828] = _ := putchCalls_plain rom (by decide +kernel)
  have hoctal := putchCalls_o rom (comes_number false hnone .none) (cstr " octal!\n") [6828]
  rw [hend, Option.map_some] at hoctal
  rw [hformat, putchCalls_plain_then rom hoctal (by decide +kernel)]
  decide +kernel

theorem initPrints_eq (serialExists : Bool) (con : Console) :
    initPrints rom serialExists con = some (cputs (bootText serialExists) con) := by
  have hnone : prints rom con (cstr "Serial port does not exist!\n", []) = _ :=
    prints_calls (putchCalls_plain rom (by decide +kernel)) con
  have hserial : (if serialExists then some con
      else prints rom con (cstr "Serial port does not exist!\n", [])) =
      some (cputs (if serialExists then [] else (cstr "Serial port does not exist!\n").plain) con) := by
    cases serialExists with
    | false => exact hnone
    | true => rfl
  have hoctal (con : Console) : prints rom con (cstr "6828 decimal is %o octal!\n", [6828]) = _ :=
    prints_calls (octalLine rom) con
  rw [initPrints, hserial, Option.bind_some, hoctal, Option.bind_some,
    testBacktrace_eq rom (by decide) (by decide), bootText]
  simp

end Lines

namespace Kernel

variable (k : Kernel)

theorem i386Init_eq (serialExists : Bool) (line : Nat → Byte) (con : Console) :
    k.i386Init serialExists line con =
      some ⟨line, 0, cputs (bootText serialExists ++ (greeting ++ promptText)) con⟩ := by
  rw [i386Init, initPrints_eq, Option.bind_some, monitorStart_eq, ← cputs_append]

end Kernel

end Jos
