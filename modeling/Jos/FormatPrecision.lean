import Jos.FormatString

/-! Precisions of `%s`: in decimal and as arguments, and what is read under them. -/

namespace Jos

/-- Both runs return, and print the same. -/
def SameCalls (rom : Rom) (fmt : CString) (ap : List Word) (fmt' : CString) (ap' : List Word) : Prop :=
  ∃ calls, putchCalls rom fmt ap = some calls ∧ putchCalls rom fmt' ap' = some calls

/-- How a precision in decimal is read: zero is the flag. -/
def literalSetting (n : Nat) : Setting :=
  if n = 0 then .flag .zero else .number n

theorem literalSetting_text (n : Nat) : (literalSetting n).text.bytes = (decimal n).bytes := by
  unfold literalSetting
  split_ifs with h
  · rw [h]
    decide
  · rfl

def literalFormat (w n : Nat) : CString :=
  cstr "%" ++ decimal w ++ cstr "." ++ decimal n ++ cstr "s"

theorem literalFormat_eq (w n : Nat) :
    literalFormat w n = escape [.number w, .flag .dot, literalSetting n] (cstr "s") := by
  have hnumber : (Setting.number w).text.bytes = (decimal w).bytes := rfl
  have hdot : (Setting.flag .dot).text.bytes = (cstr ".").bytes := by decide
  have hnil : (cstr "").bytes = [] := by decide
  ext1
  simp [literalFormat, escape, settingsText, hnumber, literalSetting_text, hdot, hnil]

theorem dotFormat_eq (n : Nat) :
    cstr "%." ++ decimal n ++ cstr "s" = escape [.flag .dot, literalSetting n] (cstr "s") := by
  have hdot : (cstr "%.").bytes = (cstr "%").bytes ++ (Setting.flag .dot).text.bytes := by decide
  have hnil : (cstr "").bytes = [] := by decide
  ext1
  simp [escape, settingsText, literalSetting_text, hdot, hnil]

theorem starFormat_eq : cstr "%*.*s" = escape [.flag .star, .flag .dot, .flag .star] (cstr "s") := by
  ext1
  decide

theorem dotStarFormat_eq : cstr "%.*s" = escape [.flag .dot, .flag .star] (cstr "s") := by
  ext1
  decide

theorem written_literal (n : Nat) (hmax : n < 2 ^ 31) : Written [literalSetting n] := by
  unfold literalSetting
  split_ifs with h
  · trivial
  · exact ⟨⟨by omega, by omega⟩, by simp, trivial⟩

theorem toInt_ofNat_lt {n : Nat} (h : n < 2 ^ 31) : (BitVec.ofNat 32 n).toInt = n := by
  rw [BitVec.toInt_eq_toNat_cond, BitVec.toNat_ofNat, Nat.mod_eq_of_lt (by omega), if_pos (by omega)]

def literalEscape (w n : Nat) : Escape :=
  if n = 0 then ⟨chr '0', w, -1, 0, false⟩ else ⟨chr ' ', w, n, 0, false⟩

theorem foldlM_literal (w n : Nat) (ap : List Word) :
    [literalSetting n].foldlM Setting.apply (ap, ⟨chr ' ', w, -1, 0, false⟩) =
      some (ap, literalEscape w n) := by
  have hwidth : ¬ (w : Int) < 0 := by omega
  unfold literalSetting literalEscape
  split_ifs
  · rfl
  · simp [Setting.apply, Escape.processPrecision, hwidth]

theorem foldlM_star (w : Nat) {n : Nat} (hn : n < 2 ^ 31) (ap : List Word) :
    [Setting.flag .star].foldlM Setting.apply (BitVec.ofNat 32 n :: ap, ⟨chr ' ', w, -1, 0, false⟩) =
      some (ap, ⟨chr ' ', w, n, 0, false⟩) := by
  have hwidth : ¬ (w : Int) < 0 := by omega
  simp [Setting.apply, Flag.apply, vaInt, Escape.processPrecision, hwidth, toInt_ofNat_lt hn]

theorem strnlen_zero (len : Nat) : min len ((0 : Int) % 2 ^ 32).toNat = shownLength 0 len :=
  rfl

theorem printString_body (esc : Escape) (hesc : wrap32 esc.width = esc.width) (s : CString)
    (t : List Byte) :
    ∃ pre post, printString (fun c calls => calls ++ [c]) esc (s.object ++ t) [] =
      some (pre ++ stringBody esc.altflag esc.precision s ++ post) := by
  by_cases hleft : esc.width > 0 ∧ esc.padc ≠ chr '-'
  · have hwidth : wrap32 (min (leftPadding esc s.bytes.length) 0) =
        min (leftPadding esc s.bytes.length) 0 := by
      rcases min_choice (leftPadding esc s.bytes.length) 0 with h | h
      · rw [h, leftPadding, wrap32_wrap32]
      · rw [h]
        rfl
    exact ⟨_, _, printString_of_pad (padString_left hleft s t []) hwidth⟩
  · exact ⟨_, _, printString_of_pad (if_neg hleft) hesc⟩

theorem printString_star {w : Nat} (hw : w < 2 ^ 31) (s : CString) (t : List Byte) :
    printString (fun c calls => calls ++ [c]) ⟨chr ' ', w, 0, 0, false⟩ (s.object ++ t) [] =
      some (List.replicate w 0x20) := by
  have hshown : shownLength 0 s.bytes.length = 0 := by simp [shownLength]
  refine (printString_padded ?_ ?_ ?_ ?_ t []).trans ?_
  · exact strnlen_zero s.bytes.length
  · dsimp only
    omega
  · dsimp only
    omega
  · dsimp only
    omega
  · have hblank : (chr ' ').signExtend 32 = (0x20 : Word) := by decide
    have hne : chr ' ' ≠ chr '-' := by decide
    simp [stringBody, hshown, padding, hblank, hne]

theorem printString_zero {w : Nat} (hw : w < 2 ^ 31) {s : CString} (hlen : s.bytes.length ≤ w)
    (t : List Byte) :
    printString (fun c calls => calls ++ [c]) ⟨chr '0', w, -1, 0, false⟩ (s.object ++ t) [] =
      some (List.replicate (w - s.bytes.length) 0x30 ++ s.bytes.map (BitVec.signExtend 32)) := by
  have hshown : shownLength (-1) s.bytes.length = s.bytes.length := by simp [shownLength]
  refine (printString_padded ?_ ?_ ?_ ?_ t []).trans ?_
  · have hlow : (-2 ^ 31 : Int) ≤ -1 := by decide
    exact strnlen_shown hlow (by decide) (by omega)
  · dsimp only
    omega
  · dsimp only
    omega
  · dsimp only
    omega
  · have hzero : (chr '0').signExtend 32 = (0x30 : Word) := by decide
    have hne : chr '0' ≠ chr '-' := by decide
    have hpad : ((w : Int) - s.bytes.length).toNat = w - s.bytes.length := by omega
    have hbody := stringBody_whole (by decide : (-1 : Int) < 0) s
    simp [hbody, hshown, padding, hzero, hne, hpad]

theorem blanks_iff (w : Nat) (s : CString) :
    List.replicate (w - s.bytes.length) (0x30 : Word) ++ s.bytes.map (BitVec.signExtend 32) =
      List.replicate w 0x20 ↔ s.bytes = List.replicate w (chr ' ') := by
  have hblank : (chr ' ').signExtend 32 = (0x20 : Word) := by decide
  constructor
  · intro heq
    have hzeros : w - s.bytes.length = 0 := by
      by_contra hpos
      have hmem : (0x30 : Word) ∈ List.replicate w (0x20 : Word) := by
        rw [← heq]
        simp [hpos]
      exact absurd (List.eq_of_mem_replicate hmem) (by decide)
    rw [hzeros, List.replicate_zero, List.nil_append, ← hblank, ← List.map_replicate] at heq
    rw [← map_setWidth_signExtend s.bytes, heq, map_setWidth_signExtend]
  · intro heq
    simp [heq, hblank]

theorem sameString_iff {w n : Nat} (hw : w < 2 ^ 31) (hn : n < 2 ^ 31) (s : CString) (t : List Byte) :
    (∃ calls,
      printString (fun c calls => calls ++ [c]) (literalEscape w n) (s.object ++ t) [] = some calls ∧
        printString (fun c calls => calls ++ [c]) ⟨chr ' ', w, n, 0, false⟩ (s.object ++ t) [] =
          some calls) ↔
      n ≠ 0 ∨ s.bytes = List.replicate w (chr ' ') := by
  have hwidth : wrap32 w = w := wrap32_eq_self (by omega) (by omega)
  cases n with
  | zero =>
    have hstar := printString_star hw s t
    constructor
    · rintro ⟨calls, hliteral, hcalls⟩
      obtain rfl : List.replicate w 0x20 = calls := Option.some.inj (hstar.symm.trans hcalls)
      -- the zero is read as a flag, and the whole string is printed
      obtain ⟨pre, post, hbody⟩ := printString_body (literalEscape w 0) hwidth s t
      have hwhole : stringBody false (-1) s = s.bytes.map (BitVec.signExtend 32) :=
        stringBody_whole (by decide) s
      have hlen : s.bytes.length ≤ w := by
        have hlength := congrArg List.length (Option.some.inj (hbody.symm.trans hliteral))
        simp only [literalEscape, if_true, hwhole, List.length_append, List.length_map,
          List.length_replicate] at hlength
        omega
      have heq := (printString_zero hw hlen t).symm.trans hliteral
      exact .inr ((blanks_iff w s).mp (Option.some.inj heq))
    · intro hblanks
      have heq := hblanks.resolve_left (not_not.mpr rfl)
      have hlen : s.bytes.length ≤ w := by simp [heq]
      refine ⟨_, ?_, hstar⟩
      rw [← (blanks_iff w s).mpr heq]
      exact printString_zero hw hlen t
  | succ n =>
    obtain ⟨pre, post, hbody⟩ := printString_body ⟨chr ' ', w, (n + 1 : Nat), 0, false⟩ hwidth s t
    exact iff_of_true ⟨_, hbody, hbody⟩ (.inl n.succ_ne_zero)

section Same

variable (rom : Rom) {s : CString} {p : Word} (hs : s.object <+: rom.string p)

include hs

theorem sameCalls_iff {w n : Nat} (hw : w < 2 ^ 31) (hn : n < 2 ^ 31) {pre pre' : List Setting}
    {args : List Word} (hwritten : Written (pre ++ [literalSetting n]))
    (hwritten' : Written (pre' ++ [.flag .star]))
    (hpre : ∀ ap, pre.foldlM Setting.apply (ap, .start) = some (ap, ⟨chr ' ', w, -1, 0, false⟩))
    (hpre' : ∀ ap, pre'.foldlM Setting.apply (args ++ ap, .start) =
      some (ap, ⟨chr ' ', w, -1, 0, false⟩)) :
    SameCalls rom (escape (pre ++ [literalSetting n]) (cstr "s")) [p]
      (escape (pre' ++ [.flag .star]) (cstr "s")) (args ++ [BitVec.ofNat 32 n, p]) ↔
        n ≠ 0 ∨ s.bytes = List.replicate w (chr ' ') := by
  obtain ⟨t, ht⟩ := hs
  have hset : (pre ++ [literalSetting n]).foldlM Setting.apply ([p], .start) =
      some ([p], literalEscape w n) := by
    rw [List.foldlM_append, hpre]
    exact foldlM_literal w n [p]
  have hset' : (pre' ++ [Setting.flag .star]).foldlM Setting.apply
    (args ++ [BitVec.ofNat 32 n, p], Escape.start) =
      some ([p], ⟨chr ' ', w, n, 0, false⟩) := by
    rw [List.foldlM_append, hpre']
    exact foldlM_star w hn [p]
  rw [SameCalls, putchCalls_s rom hwritten hset, putchCalls_s rom hwritten' hset', ← ht]
  exact sameString_iff hw hn s t

/-- A precision in decimal is one passed as an argument, except that zero is the
flag: then the string is not cut, and only one that is the padding looks the same. -/
theorem literalPrecision_iff {n : Nat} (hn : n < 2 ^ 31) :
    (∀ w, 0 < w → w < 2 ^ 31 → (SameCalls rom (literalFormat w n) [p] (cstr "%*.*s")
      [BitVec.ofNat 32 w, BitVec.ofNat 32 n, p] ↔ n ≠ 0 ∨ s.bytes = List.replicate w (chr ' '))) ∧
    (SameCalls rom (cstr "%." ++ decimal n ++ cstr "s") [p] (cstr "%.*s") [BitVec.ofNat 32 n, p] ↔
      n ≠ 0 ∨ s.bytes = []) := by
  have hlast := written_literal n hn
  constructor
  · intro w hw hmax
    have hwidth : ¬ (w : Int) < 0 := by omega
    have hwritten : Written ([.number w, .flag .dot] ++ [literalSetting n]) :=
      ⟨⟨by omega, by omega⟩, by simp [Setting.opensWithDigit], hlast⟩
    have hpre : ∀ ap, [Setting.number w, .flag .dot].foldlM Setting.apply (ap, .start) =
        some (ap, ⟨chr ' ', w, -1, 0, false⟩) := by
      intro ap
      simp [Setting.apply, Flag.apply, processPrecision_unset, Escape.start, hwidth]
    have hpre' : ∀ ap, [Setting.flag .star, .flag .dot].foldlM Setting.apply
        ([BitVec.ofNat 32 w] ++ ap, .start) = some (ap, ⟨chr ' ', w, -1, 0, false⟩) := by
      intro ap
      simp [Setting.apply, Flag.apply, vaInt, processPrecision_unset, Escape.start, toInt_ofNat_lt hmax,
        hwidth]
    have hwritten' : Written ([.flag .star, .flag .dot] ++ [.flag .star]) := trivial
    have hsame := sameCalls_iff rom hs hmax hn hwritten hwritten' hpre hpre'
    rw [literalFormat_eq, starFormat_eq]
    exact hsame
  · have hpre : ∀ ap, [Setting.flag .dot].foldlM Setting.apply (ap, .start) =
        some (ap, ⟨chr ' ', (0 : Nat), -1, 0, false⟩) := fun ap => rfl
    have hpre' : ∀ ap, [Setting.flag .dot].foldlM Setting.apply ([] ++ ap, .start) =
        some (ap, ⟨chr ' ', (0 : Nat), -1, 0, false⟩) := hpre
    have hwritten : Written ([.flag .dot] ++ [literalSetting n]) := hlast
    have hwritten' : Written ([.flag .dot] ++ [.flag .star]) := trivial
    have hpos : 0 < 2 ^ 31 := by decide
    have hsame := sameCalls_iff rom hs hpos hn hwritten hwritten' hpre hpre'
    rw [dotFormat_eq, dotStarFormat_eq]
    rwa [List.replicate_zero] at hsame

end Same

theorem literalPrecision_three :
    SameCalls default (literalFormat 5 3) [2] (cstr "%*.*s") [5, 3, 2] := by
  have hs : (cstr "bad environment").object <+: (default : Rom).string 2 := List.prefix_rfl
  exact ((literalPrecision_iff default hs (by decide : 3 < 2 ^ 31)).1 5 (by decide) (by decide)).mpr
    (.inl (by decide))

/-- `%5.0s` of `ab` prints zeros and the text, `%*.*s` five blanks. -/
theorem not_sameCalls_zero :
    ¬ SameCalls ((default : Rom).hold 7 [0x61, 0x62, 0] (by decide)) (literalFormat 5 0) [7]
      (cstr "%*.*s") [5, 0, 7] := by
  rintro ⟨calls, hliteral, hstar⟩
  have hzeros : putchCalls ((default : Rom).hold 7 [0x61, 0x62, 0] (by decide)) (literalFormat 5 0) [7] =
      some [0x30, 0x30, 0x30, 0x61, 0x62] := by decide
  have hblanks : putchCalls ((default : Rom).hold 7 [0x61, 0x62, 0] (by decide)) (cstr "%*.*s")
    [5, 0, 7] =
      some [0x20, 0x20, 0x20, 0x20, 0x20] := by decide
  rw [hzeros, Option.some.injEq] at hliteral
  rw [hblanks, ← hliteral] at hstar
  exact absurd hstar (by decide)

theorem strnlen_nonzero {s : List Byte} (hs : ∀ b ∈ s, b ≠ 0) (t : List Byte) :
    strnlen (s ++ t) s.length = some s.length := by
  induction s with
  | nil => rw [List.length_nil, strnlen]
  | cons c s ih =>
    have hc : c ≠ 0 := hs c (by simp)
    rw [List.cons_append, List.length_cons, strnlen, if_neg hc,
      ih fun b hb => hs b (List.mem_cons_of_mem _ hb)]
    rfl

section Chars

variable {σ : Type*} (putch : Word → σ → σ) (alt : Bool)

theorem printChars_cons {c : Byte} (hc : c ≠ 0) (s : List Byte) (n : Nat) (width : Int) (st : σ) :
    printChars putch alt (c :: s) (n + 1 : Nat) width st =
      printChars putch alt s n (wrap32 (width - 1)) (putch ((shownChar alt c).signExtend 32) st) := by
  have hsign : ¬ ((n + 1 : Nat) : Int) < 0 := by omega
  have hless : ((n + 1 : Nat) : Int) - 1 = n := by omega
  have hgo : (n : Int) ≥ 0 := by omega
  rw [printChars, if_neg hc]
  simp only [hsign, hless, hgo, if_false, or_true, if_true, shownChar, unprintable_iff]

/-- The loop over the characters reads one more before it looks at the precision. -/
theorem printChars_overread {s : List Byte} (hs : ∀ b ∈ s, b ≠ 0) (width : Int) (st : σ) :
    printChars putch alt s s.length width st = none := by
  induction s generalizing width st with
  | nil => rw [printChars]
  | cons c s ih =>
    rw [List.length_cons, printChars_cons putch alt (hs c (by simp))]
    exact ih (fun b hb => hs b (List.mem_cons_of_mem _ hb)) _ _

/-- Whatever that one is, it is not printed. -/
theorem printChars_read {s : List Byte} (hs : ∀ b ∈ s, b ≠ 0) (b : Byte) (t : List Byte) (width : Int)
    (st : σ) : printChars putch alt (s ++ b :: t) s.length width st =
      printChars putch alt (s ++ [0]) s.length width st := by
  induction s generalizing width st with
  | nil => simp [printChars]
  | cons c s ih =>
    have hc : c ≠ 0 := hs c (by simp)
    rw [List.cons_append, List.cons_append, List.length_cons, printChars_cons putch alt hc,
      printChars_cons putch alt hc]
    exact ih (fun b hb => hs b (List.mem_cons_of_mem _ hb)) _ _

variable {putch} {esc : Escape}

theorem padString_read {s : List Byte} (hs : ∀ b ∈ s, b ≠ 0) (hprecision : esc.precision = s.length)
    (hlen : s.length < 2 ^ 31) (t : List Byte) (st : σ) :
    padString putch esc (s ++ t) st = padString putch esc s st := by
  have hsize : (esc.precision % 2 ^ 32).toNat = s.length := by omega
  have hbare := strnlen_nonzero hs []
  rw [List.append_nil] at hbare
  simp only [padString, hsize, strnlen_nonzero hs t, hbare]

theorem printString_overread {s : List Byte} (hs : ∀ b ∈ s, b ≠ 0)
    (hprecision : esc.precision = s.length) (st : σ) : printString putch esc s st = none := by
  rw [printString]
  cases padString putch esc s st with
  | none => rfl
  | some r =>
    rw [Option.bind_some, hprecision]
    dsimp only
    rw [printChars_overread putch _ hs]
    rfl

theorem printString_read {s : List Byte} (hs : ∀ b ∈ s, b ≠ 0) (hprecision : esc.precision = s.length)
    (hlen : s.length < 2 ^ 31) (b : Byte) (t : List Byte) (st : σ) :
    printString putch esc (s ++ b :: t) st = printString putch esc (s ++ [0]) st := by
  simp only [printString, padString_read hs hprecision hlen, hprecision, printChars_read putch _ hs b t]

end Chars

/-- A precision does not bound what is read: of a text of as many characters the
byte after it is read too, whatever it is, and nothing else. -/
theorem precision_overread {flags : List Flag} (hflags : ∀ f ∈ flags, f.IsPad) {width : Given}
    (hwidth : width.Readable) {s : CString} (hlen : s.bytes.length < 2 ^ 31) {q : Word} (hq : q ≠ 0) :
    (∀ rom : Rom, rom.bytes q = s.bytes →
      putchCalls rom (escape (stringSettings flags width (some (BitVec.ofNat 32 s.bytes.length)))
        (cstr "s")) (width.args ++ [BitVec.ofNat 32 s.bytes.length, q]) = none) ∧
    ∃ calls, ∀ (rom : Rom) (b : Byte) (t : List Byte), rom.bytes q = s.bytes ++ b :: t →
      putchCalls rom (escape (stringSettings flags width (some (BitVec.ofNat 32 s.bytes.length)))
        (cstr "s")) (width.args ++ [BitVec.ofNat 32 s.bytes.length, q]) = some calls := by
  let esc := stringEscape flags width (some (BitVec.ofNat 32 s.bytes.length))
  have hprecision : esc.precision = s.bytes.length := toInt_ofNat_lt hlen
  have hvalue := width.value_lt hwidth
  have hesc : wrap32 esc.width = esc.width := by
    have hmax : esc.width = max width.value 0 := rfl
    exact wrap32_eq_self (by omega) (by omega)
  have hprinted : ∀ rom : Rom, putchCalls rom
      (escape (stringSettings flags width (some (BitVec.ofNat 32 s.bytes.length))) (cstr "s"))
        (width.args ++ [BitVec.ofNat 32 s.bytes.length, q]) =
          printString (fun c calls => calls ++ [c]) esc (rom.bytes q) [] := by
    intro rom
    have hset := foldlM_stringSettings hflags width (some (BitVec.ofNat 32 s.bytes.length)) [q]
    refine (putchCalls_s rom (written_stringSettings flags hwidth _) hset).trans ?_
    rw [Rom.string, if_neg hq]
  refine ⟨fun rom hbytes => ?_, ?_⟩
  · rw [hprinted, hbytes]
    exact printString_overread s.nonzero hprecision []
  · obtain ⟨pre, post, hbody⟩ := printString_body esc hesc s []
    refine ⟨pre ++ stringBody esc.altflag esc.precision s ++ post, fun rom b t hbytes => ?_⟩
    rw [hprinted, hbytes, printString_read s.nonzero hprecision hlen, ← hbody, List.append_nil]
    rfl

theorem precision_overread_abc :
    putchCalls ((default : Rom).hold 7 (cstr "abc").bytes (by decide))
      (escape (stringSettings [.alt] (.literal 5) (some 3)) (cstr "s")) [3, 7] = none :=
  (precision_overread (by simp [Flag.IsPad]) (by exact ⟨by decide, by decide⟩)
    (by decide : (cstr "abc").bytes.length < 2 ^ 31) (by decide)).1 _ rfl

/-- `%.*s` with precision 3 faults where just three bytes can be read. -/
theorem not_precision_bounds :
    ¬ (putchCalls ((default : Rom).hold 7 [0x61, 0x62, 0x63] (by decide)) (cstr "%.*s")
      [3, 7]).isSome := by
  decide

end Jos
