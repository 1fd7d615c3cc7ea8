import Jos.Console
import Jos.FormatCount
import Jos.Snprintf

/-! `kern/printf.c`. `vcprintf` returns a count that nothing counts up, so it is
right only about what prints nothing at all. -/

namespace Jos

/-- What `putch` acts on: the console, and the `int` that `cnt` points to.
`passed` lists the characters passed to `cputchar`. -/
structure Printed where
  console : Console
  passed : List Word
  cnt : Int

/-- `*cnt++` moves the parameter `cnt` on and stores nothing. -/
def putch (ch : Word) (st : Printed) : Printed :=
  { st with console := cputchar ch st.console, passed := st.passed ++ [ch] }

def vcprintf (rom : Rom) (fmt : CString) (ap : List Word) (con : Console) : Option (Int × Printed) :=
  (vprintfmt putch rom fmt ap ⟨con, [], 0⟩).map fun st => (st.cnt, st)

def cprintf (rom : Rom) (fmt : CString) (ap : List Word) (con : Console) : Option (Int × Printed) :=
  vcprintf rom fmt ap con

/-- `cprintf` returns the number of characters it passed to `cputchar`, which is
also what `vsnprintf` returns. -/
def CountsRight (rom : Rom) (fmt : CString) (ap : List Word) (con : Console) : Prop :=
  ∀ ret st, cprintf rom fmt ap con = some (ret, st) →
    ret = st.passed.length ∧
      ∀ m buf n ret' m', buf ≠ 0 → 1 ≤ n → vsnprintf m buf n rom fmt ap = some (ret', m') → ret = ret'

theorem cprintf_eq {rom : Rom} {fmt : CString} {ap calls : List Word}
    (hcalls : putchCalls rom fmt ap = some calls) (con : Console) :
    ∃ con', cprintf rom fmt ap con = some (0, ⟨con', calls, 0⟩) := by
  have hfold : ∀ (cs : List Word) (st : Printed), ∃ con',
      cs.foldl (fun st c => putch c st) st = ⟨con', st.passed ++ cs, st.cnt⟩ := by
    intro cs
    induction cs with
    | nil => exact fun st => ⟨st.console, by simp⟩
    | cons c cs ih =>
      intro st
      obtain ⟨con', hc⟩ := ih (putch c st)
      refine ⟨con', ?_⟩
      rw [List.foldl_cons, hc]
      simp [putch]
  obtain ⟨con', hc⟩ := hfold calls ⟨con, [], 0⟩
  refine ⟨con', ?_⟩
  rw [cprintf, vcprintf, vprintfmt_eq_calls, hcalls, Option.map_some, Option.map_some, hc]
  rfl

theorem cprintf_string {rom : Rom} {p : Word} (hne : p ≠ 0) (hp : 0 ∈ rom.bytes p) (con : Console) :
    ∃ r, cprintf rom (cstr "%s") [p] con = some r := by
  obtain ⟨st, hst⟩ := vprintfmt_string putch hne hp ⟨con, [], 0⟩
  exact ⟨(st.cnt, st), by rw [cprintf, vcprintf, hst]; rfl⟩

theorem countsRight_iff_nil {rom : Rom} {fmt : CString} {ap calls : List Word}
    (hcalls : putchCalls rom fmt ap = some calls) (con : Console) :
    CountsRight rom fmt ap con ↔ calls = [] := by
  obtain ⟨con', hret⟩ := cprintf_eq hcalls con
  constructor
  · intro h
    have hlen := (h _ _ hret).1
    exact List.eq_nil_of_length_eq_zero (by simpa using hlen.symm)
  · rintro rfl ret st hst
    obtain ⟨rfl, rfl⟩ := Prod.mk.inj (Option.some.inj (hret.symm.trans hst))
    refine ⟨rfl, fun m buf n ret' m' hbuf hn hsn => ?_⟩
    obtain ⟨m'', hcount⟩ := vsnprintf_cnt m hbuf hn hcalls
    exact (Prod.mk.inj (Option.some.inj (hcount.symm.trans hsn))).1

/-- `cprintf` counts right exactly the calls that print nothing: no character
outside escapes and no conversion but `%s`, each without a width and of a string
that is empty or cut to nothing. -/
theorem cprintf_counts_iff (rom : Rom) (fmt : CString) (ap : List Word) (con : Console)
    (hmatch : (putchCalls rom fmt ap).isSome) :
    CountsRight rom fmt ap con ↔ Silent rom (parse fmt.bytes) ap := by
  obtain ⟨calls, hcalls⟩ := Option.isSome_iff_exists.mp hmatch
  exact (countsRight_iff_nil hcalls con).trans (putchCalls_eq_nil_iff hcalls)

theorem cprintf_counts_nothing :
    CountsRight default (cstr "") [] ⟨⟨fun _ => 0, []⟩, .cga, 0, []⟩ :=
  (cprintf_counts_iff default (cstr "") [] ⟨⟨fun _ => 0, []⟩, .cga, 0, []⟩ (by decide)).mpr
    (by rw [show (cstr "").bytes = [] by decide, parse]; exact True.intro)

/-- One letter is printed, and 0 is returned. -/
theorem cprintf_miscounts_letter :
    ¬ CountsRight default (cstr "a") [] ⟨⟨fun _ => 0, []⟩, .cga, 0, []⟩ := by
  have hcalls : putchCalls default (cstr "a") [] = some [0x61] := by decide
  rw [countsRight_iff_nil hcalls]
  decide

end Jos
