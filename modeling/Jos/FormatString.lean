import Jos.FormatEscape

/-! What `%s` prints: padding, the characters up to the precision, padding. -/

namespace Jos

theorem strnlen_eq (s : CString) (t : List Byte) (size : Nat) :
    strnlen (s.object ++ t) size = some (min s.bytes.length size) := by
  obtain ⟨l, hl⟩ := s
  simp only [CString.object, List.append_assoc, List.singleton_append]
  induction l generalizing size with
  | nil => cases size <;> simp [strnlen]
  | cons c l ih =>
    have hc : c ≠ 0 := hl c (by simp)
    cases size with
    | zero => simp [strnlen]
    | succ size =>
      simp only [List.cons_append, strnlen, if_neg hc,
        ih _ (fun b hb => hl b (List.mem_cons_of_mem _ hb)),
        Option.map_some, List.length_cons, Nat.add_min_add_right]

def shownLength (precision : Int) (len : Nat) : Nat :=
  if precision < 0 then len else min len precision.toNat

/-- The character in place of `ch`, under the flag `#` if `alt`. -/
def shownChar (alt : Bool) (ch : Byte) : Byte :=
  if alt ∧ ¬ (chr ' ' ≤ ch ∧ ch ≤ chr '~') then chr '?' else ch

theorem unprintable_iff (ch : Byte) :
    (ch.toInt < 0x20 ∨ ch.toInt > 0x7E) ↔ ¬ (chr ' ' ≤ ch ∧ ch ≤ chr '~') := by
  have hblank : (chr ' ').toNat = 0x20 := by decide
  have htilde : (chr '~').toNat = 0x7E := by decide
  rw [BitVec.le_def, BitVec.le_def, hblank, htilde, BitVec.toInt_eq_toNat_cond]
  split_ifs <;> omega

theorem wrap32_wrap32 (i : Int) : wrap32 (wrap32 i) = wrap32 i :=
  Int.bmod_bmod

theorem printChars_eq (alt : Bool) (s : CString) (t : List Byte) (precision : Int) {width : Int}
    (hwidth : wrap32 width = width) (calls : List Word) :
    printChars (fun c calls => calls ++ [c]) alt (s.object ++ t) precision width calls =
      some (wrap32 (width - shownLength precision s.bytes.length), calls ++
        (s.bytes.take (shownLength precision s.bytes.length)).map
          fun ch => (shownChar alt ch).signExtend 32) := by
  obtain ⟨l, hl⟩ := s
  simp only [CString.object, List.append_assoc, List.singleton_append]
  induction l generalizing precision width calls with
  | nil => simp [printChars, shownLength, hwidth]
  | cons ch l ih =>
    have hch : ch ≠ 0 := hl ch (by simp)
    have hl' : ∀ b ∈ l, b ≠ 0 := fun b hb => hl b (List.mem_cons_of_mem _ hb)
    rw [List.cons_append, printChars, if_neg hch]
    by_cases hzero : precision = 0
    · simp [hzero, shownLength, hwidth]
    · have hgo : precision < 0 ∨ (if precision < 0 then precision else precision - 1) ≥ 0 := by
        split_ifs <;> omega
      have hshown : shownLength precision (l.length + 1) =
          shownLength (if precision < 0 then precision else precision - 1) l.length + 1 := by
        unfold shownLength
        split_ifs <;> omega
      dsimp only
      rw [if_pos hgo, ih _ (wrap32_wrap32 _) _ hl', List.length_cons, hshown, List.take_succ_cons,
        wrap32_sub_one]
      simp [shownChar, unprintable_iff]

theorem iterate_calls (c : Word) (n : Nat) (calls : List Word) :
    (fun calls : List Word => calls ++ [c])^[n] calls = calls ++ List.replicate n c := by
  rw [← foldl_calls, foldl_replicate_putch (fun c (calls : List Word) => calls ++ [c])]

/-- The width of the padding on the left: that of a string of `len` characters
less those that `strnlen` counts, which takes the precision as unsigned. -/
def leftPadding (esc : Escape) (len : Nat) : Int :=
  wrap32 (esc.width - min len (esc.precision % 2 ^ 32).toNat)

theorem padString_left {esc : Escape} (hleft : esc.width > 0 ∧ esc.padc ≠ chr '-') (s : CString)
    (t : List Byte) (calls : List Word) :
    padString (fun c calls => calls ++ [c]) esc (s.object ++ t) calls =
      some (min (leftPadding esc s.bytes.length) 0,
        calls ++ List.replicate (leftPadding esc s.bytes.length).toNat (esc.padc.signExtend 32)) := by
  rw [padString, if_pos hleft, strnlen_eq, Option.map_some]
  dsimp only
  rw [iterate_calls, leftPadding]

def stringBody (alt : Bool) (precision : Int) (s : CString) : List Word :=
  (s.bytes.take (shownLength precision s.bytes.length)).map fun ch => (shownChar alt ch).signExtend 32

theorem stringBody_whole {precision : Int} (h : precision < 0) (s : CString) :
    stringBody false precision s = s.bytes.map (BitVec.signExtend 32) := by
  simp [stringBody, shownLength, shownChar, h]

theorem printString_of_pad {esc : Escape} {s : CString} {t : List Byte} {width : Int}
    {calls calls' : List Word}
    (hpad : padString (fun c calls => calls ++ [c]) esc (s.object ++ t) calls = some (width, calls'))
    (hwidth : wrap32 width = width) :
    printString (fun c calls => calls ++ [c]) esc (s.object ++ t) calls =
      some (calls' ++ stringBody esc.altflag esc.precision s ++
        List.replicate (wrap32 (width - shownLength esc.precision s.bytes.length)).toNat 0x20) := by
  rw [printString, hpad, Option.bind_some]
  dsimp only
  rw [printChars_eq _ _ _ _ hwidth, Option.map_some]
  dsimp only
  rw [iterate_calls, stringBody]

/-- `strnlen` counts the characters that are printed: its bound is the precision
as unsigned. -/
theorem strnlen_shown {precision : Int} (hlow : -2 ^ 31 ≤ precision) (hhigh : precision < 2 ^ 31)
    {len : Nat} (hlen : len < 2 ^ 31) :
    min len (precision % 2 ^ 32).toNat = shownLength precision len := by
  unfold shownLength
  split_ifs <;> omega

section Fits

variable {esc : Escape} {s : CString}
  (hcount : min s.bytes.length (esc.precision % 2 ^ 32).toNat = shownLength esc.precision s.bytes.length)
  (hlow : -2 ^ 31 ≤ esc.width - shownLength esc.precision s.bytes.length)
  (hfits : 0 < esc.width → -2 ^ 31 ≤ esc.width - 2 * shownLength esc.precision s.bytes.length)
  (hhigh : esc.width < 2 ^ 31) (t : List Byte) (calls : List Word)

include hlow hhigh

theorem printString_right (hright : ¬ (esc.width > 0 ∧ esc.padc ≠ chr '-')) :
    printString (fun c calls => calls ++ [c]) esc (s.object ++ t) calls =
      some (calls ++ stringBody esc.altflag esc.precision s ++
        padding (chr ' ') esc.width (shownLength esc.precision s.bytes.length)) := by
  have hpad : padString (fun c calls => calls ++ [c]) esc (s.object ++ t) calls =
    some (esc.width, calls) :=
    if_neg hright
  rw [printString_of_pad hpad (wrap32_eq_self (by omega) (by omega)),
    wrap32_eq_self (by omega) (by omega)]
  rfl

include hcount hfits

theorem printString_left (hleft : esc.width > 0 ∧ esc.padc ≠ chr '-') :
    printString (fun c calls => calls ++ [c]) esc (s.object ++ t) calls =
      some (calls ++ padding esc.padc esc.width (shownLength esc.precision s.bytes.length) ++
        stringBody esc.altflag esc.precision s) := by
  have hfits := hfits hleft.1
  have hpadding : leftPadding esc s.bytes.length =
      esc.width - shownLength esc.precision s.bytes.length := by
    rw [leftPadding, hcount, wrap32_eq_self (by omega) (by omega)]
  have hpad := padString_left hleft s t calls
  rw [hpadding] at hpad
  have hnone : (min (esc.width - shownLength esc.precision s.bytes.length) 0 -
      shownLength esc.precision s.bytes.length : Int).toNat = 0 := by omega
  rw [printString_of_pad hpad (wrap32_eq_self (by omega) (by omega)),
    wrap32_eq_self (by omega) (by omega), hnone, List.replicate_zero, List.append_nil]
  rfl

/-- `%s` pads to the width on one side. -/
theorem printString_padded :
    printString (fun c calls => calls ++ [c]) esc (s.object ++ t) calls =
      some (calls ++
        (if esc.padc ≠ chr '-' then padding esc.padc esc.width (shownLength esc.precision s.bytes.length)
          else []) ++
        stringBody esc.altflag esc.precision s ++
        (if esc.padc ≠ chr '-' then []
          else padding (chr ' ') esc.width (shownLength esc.precision s.bytes.length))) := by
  by_cases hleft : esc.width > 0 ∧ esc.padc ≠ chr '-'
  · rw [printString_left hcount hlow hfits hhigh t calls hleft, if_pos hleft.2, if_pos hleft.2,
      List.append_nil]
  · rw [printString_right hlow hhigh t calls hleft]
    split_ifs with hpadc
    · have hnone : (esc.width - shownLength esc.precision s.bytes.length).toNat = 0 := by
        by_contra hpos
        exact hleft ⟨by omega, hpadc⟩
      simp [padding, hnone]
    · rw [List.append_nil]

end Fits

inductive Given where
  | absent
  | star (n : Word)
  | literal (n : Nat)

namespace Given

def settings : Given → List Setting
  | absent => []
  | star _ => [.flag .star]
  | literal n => [.number n]

def args : Given → List Word
  | absent => []
  | star n => [n]
  | literal _ => []

def value : Given → Int
  | absent => -1
  | star n => n.toInt
  | literal n => n

/-- A width in decimal is read as a width. -/
def Readable : Given → Prop
  | absent => True
  | star _ => True
  | literal n => 0 < n ∧ n < 2 ^ 31

theorem value_lt {width : Given} (h : width.Readable) : width.value < 2 ^ 31 := by
  cases width with
  | absent => exact (by decide : (-1 : Int) < 2 ^ 31)
  | star n => exact BitVec.toInt_lt
  | literal n =>
    have hmax : n < 2 ^ 31 := h.2
    simp only [value]
    omega

end Given

def Flag.IsPad (f : Flag) : Prop :=
  f = .right ∨ f = .zero ∨ f = .alt

def Flag.pad (padc : Byte) : Flag → Byte
  | .right => chr '-'
  | .zero => chr '0'
  | _ => padc

def lastPad (flags : List Flag) : Byte :=
  flags.foldl Flag.pad (chr ' ')

/-- Flags, a width, and a precision after `.` that is passed as an argument. -/
def stringSettings (flags : List Flag) (width : Given) (precision : Option Word) : List Setting :=
  flags.map .flag ++ (width.settings ++ precision.elim [] fun _ => [.flag .dot, .flag .star])

def precisionValue (precision : Option Word) : Int :=
  precision.elim (-1) BitVec.toInt

/-- A precision leaves no negative width. -/
def stringEscape (flags : List Flag) (width : Given) (precision : Option Word) : Escape :=
  ⟨lastPad flags, if precision.isSome then max width.value 0 else width.value,
    precisionValue precision, 0, decide (.alt ∈ flags)⟩

theorem foldlM_flags {flags : List Flag} (hflags : ∀ f ∈ flags, f.IsPad) (ap : List Word)
    (esc : Escape) :
    (flags.map Setting.flag).foldlM Setting.apply (ap, esc) =
      some (ap, { esc with
        padc := flags.foldl Flag.pad esc.padc, altflag := esc.altflag || decide (.alt ∈ flags) }) := by
  induction flags generalizing esc with
  | nil => simp
  | cons f flags ih =>
    have hrest := ih fun g hg => hflags g (List.mem_cons_of_mem _ hg)
    rw [List.map_cons, List.foldlM_cons]
    rcases hflags f (by simp) with rfl | rfl | rfl
    all_goals simp [Setting.apply, Flag.apply, hrest, Flag.pad]

theorem dot_max (width : Int) : (if width < 0 then 0 else width) = max width 0 := by
  split_ifs <;> omega

theorem processPrecision_unset (esc : Escape) (hesc : esc.width = -1) (n : Int) :
    esc.processPrecision n = { esc with width := n, precision := -1 } :=
  if_pos (by omega)

theorem foldlM_given (width : Given) (ap : List Word) {esc : Escape} (hwidth : esc.width = -1)
    (hprecision : esc.precision = -1) :
    width.settings.foldlM Setting.apply (width.args ++ ap, esc) =
      some (ap, { esc with width := width.value, precision := -1 }) := by
  cases width with
  | absent =>
    obtain ⟨padc, w, prec, lflag, altflag⟩ := esc
    obtain rfl : w = -1 := hwidth
    obtain rfl : prec = -1 := hprecision
    rfl
  | star n =>
    simp [Given.settings, Given.args, Given.value, Setting.apply, Flag.apply, vaInt,
      processPrecision_unset esc hwidth]
  | literal n =>
    simp [Given.settings, Given.args, Given.value, Setting.apply, processPrecision_unset esc hwidth]

theorem foldlM_stringSettings {flags : List Flag} (hflags : ∀ f ∈ flags, f.IsPad) (width : Given)
    (precision : Option Word) (ap : List Word) :
    (stringSettings flags width precision).foldlM Setting.apply
      (width.args ++ (precision.toList ++ ap), .start) =
        some (ap, stringEscape flags width precision) := by
  rw [stringSettings, List.foldlM_append, foldlM_flags hflags, Option.bind_eq_bind, Option.bind_some,
    List.foldlM_append, foldlM_given width _ rfl rfl, Option.bind_eq_bind, Option.bind_some]
  cases precision with
  | none => rfl
  | some n =>
    have hnonneg : ¬ max width.value 0 < 0 := by omega
    simp [Setting.apply, Flag.apply, vaInt, Escape.processPrecision, stringEscape, precisionValue,
      dot_max, hnonneg, lastPad, Escape.start]

theorem written_stringSettings (flags : List Flag) {width : Given} (hwidth : width.Readable)
    (precision : Option Word) : Written (stringSettings flags width precision) := by
  induction flags with
  | nil =>
    cases width with
    | absent | star n => cases precision <;> simp [stringSettings, Given.settings, Written]
    | literal n =>
      obtain ⟨hpos, hmax⟩ := hwidth
      cases precision <;>
        simp [stringSettings, Given.settings, Written, Setting.opensWithDigit, hpos] <;> omega
  | cons f flags ih => exact ih

theorem padding_max (padc : Byte) (width : Int) (len : Nat) :
    padding padc (max width 0) len = padding padc width len := by
  unfold padding
  congr 1
  omega

theorem putchCalls_s (rom : Rom) {settings : List Setting} (h : Written settings) {ap : List Word}
    {p : Word} {esc : Escape} (hset : settings.foldlM Setting.apply (ap, .start) = some ([p], esc)) :
    putchCalls rom (escape settings (cstr "s")) ap =
      printString (fun c calls => calls ++ [c]) esc (rom.string p) [] := by
  rw [putchCalls_escape rom h (by decide : (cstr "s").bytes = [chr 's'])
    (by decide : switchCase (chr 's') = .conversion .string) (by decide) hset, convert, vaInt,
    Option.bind_some]
  dsimp only
  rw [Option.map_map]
  exact Option.map_id'

/-- The string `s` at `p` is cut to its precision, and padded to its width on the
left, or with `-` on the right. -/
def PrintsString (rom : Rom) (s : CString) (p : Word) : Prop :=
  ∀ (flags : List Flag) (width : Given) (precision : Option Word), (∀ f ∈ flags, f.IsPad) →
    width.Readable →
    -2 ^ 30 < width.value →
    putchCalls rom (escape (stringSettings flags width precision) (cstr "s"))
      (width.args ++ (precision.toList ++ [p])) =
        some (if lastPad flags ≠ chr '-' then
          padding (lastPad flags) width.value (shownLength (precisionValue precision) s.bytes.length) ++
            stringBody (decide (.alt ∈ flags)) (precisionValue precision) s
        else stringBody (decide (.alt ∈ flags)) (precisionValue precision) s ++
          padding (chr ' ') width.value (shownLength (precisionValue precision) s.bytes.length))

theorem printsString {rom : Rom} {s : CString} (hlen : s.bytes.length < 2 ^ 30) {p : Word}
    (hs : s.object <+: rom.string p) : PrintsString rom s p := by
  intro flags width precision hflags hwidth hlow
  obtain ⟨t, ht⟩ := hs
  have hhigh := width.value_lt hwidth
  have hprecision : -2 ^ 31 ≤ precisionValue precision ∧ precisionValue precision < 2 ^ 31 := by
    cases precision with
    | none => exact ⟨by decide, by decide⟩
    | some n => exact ⟨BitVec.le_toInt n, BitVec.toInt_lt⟩
  have hcount := strnlen_shown hprecision.1 hprecision.2 (hlen.trans (by decide))
  have hshown : shownLength (stringEscape flags width precision).precision s.bytes.length ≤
    s.bytes.length :=
    hcount ▸ min_le_left _ _
  have hesc : -2 ^ 30 < (stringEscape flags width precision).width ∧
      (stringEscape flags width precision).width < 2 ^ 31 := by
    simp only [stringEscape]
    split_ifs <;> omega
  have hpadding : ∀ padc len, padding padc (stringEscape flags width precision).width len =
      padding padc width.value len := by
    intro padc len
    simp only [stringEscape]
    split_ifs
    · exact padding_max _ _ _
    · rfl
  rw [putchCalls_s rom (written_stringSettings flags hwidth precision)
    (foldlM_stringSettings hflags width precision [p]), ← ht,
    printString_padded hcount (by omega) (by omega) hesc.2, hpadding, hpadding]
  by_cases hpad : lastPad flags = chr '-'
  · simp [stringEscape, hpad]
  · simp [stringEscape, hpad]

/-- `%s` pads and truncates exactly, and a null pointer prints as `(null)`. -/
theorem strings_printed (rom : Rom) :
    (∀ (s : CString) (p : Word), s.bytes.length < 2 ^ 30 → p ≠ 0 → s.object <+: rom.bytes p →
      PrintsString rom s p) ∧ PrintsString rom (cstr "(null)") 0 := by
  refine ⟨fun s p hlen hp hs => printsString hlen ?_, printsString (by decide) ?_⟩
  · rwa [Rom.string, if_neg hp]
  · exact List.prefix_rfl

theorem strings_printed_right :
    putchCalls default (escape (stringSettings [.right] (.star 5) (some 3)) (cstr "s")) [5, 3, 2] =
      some [0x62, 0x61, 0x64, 0x20, 0x20] := by
  have hprints := (strings_printed default).1 (cstr "bad environment") 2 (by decide) (by decide)
    List.prefix_rfl [.right] (.star 5) (some 3) (by simp [Flag.IsPad])
    trivial (by decide : (-2 ^ 30 : Int) < (5 : Word).toInt)
  exact hprints.trans (by decide)

/-- The memory with `l` at `p`. -/
def Rom.hold (rom : Rom) (p : Word) (l : List Byte) (hp : ∀ i < MAXERROR, rom.errorString i ≠ p) :
    Rom where
  bytes q := if q = p then l else rom.bytes q
  errorString := rom.errorString
  errorString_none := rom.errorString_none
  errorString_some i hi t ht := by
    rw [if_neg (hp i hi)]
    exact rom.errorString_some i hi t ht

end Jos
