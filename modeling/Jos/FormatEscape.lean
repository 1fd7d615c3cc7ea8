import Jos.FormatAppend
import Jos.FormatNumber

/-! Escapes as a caller writes them: flags, numbers in decimal and the
conversion. The formatter reads back the settings that were written. -/

namespace Jos

def Flag.byte : Flag → Byte
  | .right => chr '-'
  | .zero => chr '0'
  | .star => chr '*'
  | .dot => chr '.'
  | .alt => chr '#'
  | .long => chr 'l'

theorem digitByte_toNat {d : Nat} (h : d < 10) : (digitByte d).toNat = 0x30 + d := by
  have hall : ∀ d < 10, (digitByte d).toNat = 0x30 + d := by decide
  exact hall d h

theorem digitByte_digit {d : Nat} (h : d < 10) : ¬ (digitByte d < chr '0' ∨ chr '9' < digitByte d) := by
  have hall : ∀ d < 10, ¬ (digitByte d < chr '0' ∨ chr '9' < digitByte d) := by decide
  exact hall d h

theorem switchCase_digitByte {d : Nat} (h : d < 10) (hd : d ≠ 0) :
    switchCase (digitByte d) = .width := by
  have hall : ∀ d < 10, d ≠ 0 → switchCase (digitByte d) = .width := by decide
  exact hall d h hd

/-- A number in decimal. -/
def decimal (w : Nat) : CString :=
  ⟨(numeral 10 w).map digitByte, fun b hb => by
    obtain ⟨d, hd, rfl⟩ := List.mem_map.mp hb
    exact digitByte_ne_zero ((numeral_lt (by decide) hd).trans (by decide))⟩

theorem flag_ne_zero (f : Flag) : f.byte ≠ 0 := by
  cases f <;> decide

theorem switchCase_byte (f : Flag) : switchCase f.byte = .flag f := by
  cases f <;> decide

theorem parseEscape_flag (f : Flag) (l : List Byte) :
    parseEscape (f.byte :: l) = (parseEscape l).set (.flag f) := by
  simp [parseEscape, switchCase_byte]

theorem parseEscape_conversion {ch : Byte} {k : Conversion} (hs : switchCase ch = .conversion k)
    (l : List Byte) : parseEscape (ch :: l) = ⟨[], k, l⟩ := by
  simp [parseEscape, hs]

theorem wrap32_horner (v d : Int) : wrap32 (wrap32 v * 10 + d) = wrap32 (v * 10 + d) := by
  rw [wrap32, wrap32, wrap32, ← Int.bmod_add_bmod, Int.bmod_mul_bmod, Int.bmod_add_bmod]

theorem wrap32_digit {d : Nat} (h : d < 10) (v : Int) :
    wrap32 (wrap32 v * 10 + (digitByte d).toNat - (chr '0').toNat) = wrap32 (v * 10 + d) := by
  have hzero : (chr '0').toNat = 0x30 := by decide
  rw [← wrap32_horner, digitByte_toNat h, hzero]
  congr 1
  omega

/-- The text does not go on with a digit. -/
def NoDigit (l : List Byte) : Prop :=
  ∀ c ∈ l.head?, c < chr '0' ∨ chr '9' < c

theorem takeNumber_digits {d : Nat} {ds : List Nat} (hds : ∀ x ∈ d :: ds, x < 10) {l : List Byte}
    (hl : NoDigit l) (v : Int) :
    takeNumber (wrap32 v) (digitByte d) (ds.map digitByte ++ l) =
      (wrap32 ((d :: ds).foldl (fun (v : Int) (d : Nat) => v * 10 + d) v), l) := by
  induction ds generalizing d v with
  | nil =>
    cases l with
    | nil => simp [takeNumber, wrap32_digit (hds d (by simp))]
    | cons c l => simp [takeNumber, wrap32_digit (hds d (by simp)), hl c rfl]
  | cons e ds ih =>
    have hds' : ∀ x ∈ e :: ds, x < 10 := fun x hx => hds x (List.mem_cons_of_mem _ hx)
    rw [List.map_cons, List.cons_append, takeNumber]
    simp only [if_neg (digitByte_digit (hds' e (by simp))), wrap32_digit (hds d (by simp))]
    rw [ih hds' (v * 10 + d)]
    rfl

/-- A number above zero is read as itself: its first digit is not the flag. -/
theorem parseEscape_decimal {w : Nat} (hw : 0 < w) (hmax : w < 2 ^ 31) {l : List Byte} (hl : NoDigit l) :
    parseEscape ((decimal w).bytes ++ l) = (parseEscape l).set (.number w) := by
  have hdigits : ∀ x ∈ numeral 10 w, x < 10 := fun x hx => numeral_lt (by decide) hx
  have hhorner : (numeral 10 w).foldl (fun (v : Int) (d : Nat) => v * 10 + d) 0 = w :=
    horner_numeral 10 w
  obtain ⟨d, ds, hd⟩ := List.exists_cons_of_ne_nil (numeral_ne_nil 10 w)
  rw [hd] at hdigits hhorner
  have hcase := switchCase_digitByte (hdigits d (by simp)) (numeral_head hw.ne' hd)
  have hnumber : takeNumber 0 (digitByte d) (ds.map digitByte ++ l) = ((w : Int), l) := by
    have htake := takeNumber_digits hdigits hl 0
    rwa [hhorner, wrap32_eq_self (by omega) (by omega), wrap32_eq_self (by omega) (by omega)] at htake
  simp [decimal, hd, parseEscape, hcase, hnumber]

def Setting.text : Setting → CString
  | .flag f => ⟨[f.byte], by simpa using flag_ne_zero f⟩
  | .number n => decimal n.toNat

def Setting.opensWithDigit : Setting → Bool
  | .flag .zero => true
  | .flag _ => false
  | .number _ => true

/-- Settings that can be told apart in writing: no number is followed by a digit,
and none is zero. -/
def Written : List Setting → Prop
  | [] => True
  | .flag _ :: settings => Written settings
  | .number n :: settings => (0 < n ∧ n < 2 ^ 31) ∧ (∀ f ∈ settings.head?, f.opensWithDigit = false) ∧
    Written settings

def settingsText : List Setting → CString
  | [] => cstr ""
  | f :: settings => f.text ++ settingsText settings

/-- The format of one escape. -/
def escape (settings : List Setting) (conv : CString) : CString :=
  cstr "%" ++ settingsText settings ++ conv

theorem noDigit_conversion {ch : Byte} {k : Conversion} (hs : switchCase ch = .conversion k)
    (l : List Byte) : NoDigit (ch :: l) := by
  intro c hc
  by_contra hdigit
  rw [← Option.some.inj hc] at hdigit
  exact switchCase_digit hdigit k hs

theorem noDigit_settings {settings : List Setting} (h : ∀ f ∈ settings.head?, f.opensWithDigit = false)
    {ch : Byte} {k : Conversion} (hs : switchCase ch = .conversion k) (l : List Byte) :
    NoDigit ((settingsText settings).bytes ++ ch :: l) := by
  cases settings with
  | nil => exact noDigit_conversion hs l
  | cons f settings =>
    have hf := h f rfl
    intro c hc
    cases f with
    | number n => simp [Setting.opensWithDigit] at hf
    | flag f =>
      obtain rfl : f.byte = c := Option.some.inj hc
      revert hf
      cases f <;> decide

theorem parseEscape_written {settings : List Setting} (h : Written settings) {ch : Byte} {k : Conversion}
    (hs : switchCase ch = .conversion k) (l : List Byte) :
    parseEscape ((settingsText settings).bytes ++ ch :: l) = ⟨settings, k, l⟩ := by
  induction settings with
  | nil => exact parseEscape_conversion hs l
  | cons f settings ih =>
    cases f with
    | flag f =>
      have htext : (settingsText (.flag f :: settings)).bytes = f.byte ::
        (settingsText settings).bytes := rfl
      rw [htext, List.cons_append, parseEscape_flag, ih h]
      rfl
    | number n =>
      obtain ⟨⟨hpos, hmax⟩, hnext, hrest⟩ := h
      have htext : (settingsText (.number n :: settings)).bytes =
          (decimal n.toNat).bytes ++ (settingsText settings).bytes := rfl
      rw [htext, List.append_assoc,
        parseEscape_decimal (by omega) (by omega) (noDigit_settings hnext hs l), ih hrest,
        Int.toNat_of_nonneg hpos.le]
      rfl

theorem putchCalls_escape_then (rom : Rom) {settings : List Setting} (h : Written settings)
    {conv : CString} {ch : Byte} {k : Conversion} (hconv : conv.bytes = [ch])
    (hs : switchCase ch = .conversion k)
    (hk : k ≠ .unrecognized) {ap ap' : List Word} {esc : Escape}
    (hset : settings.foldlM Setting.apply (ap, Escape.start) = some (ap', esc)) (rest : CString) :
    putchCalls rom (escape settings conv ++ rest) ap =
      (convert (fun c calls => calls ++ [c]) rom
        (vprintfmtDepth (fun c calls => calls ++ [c]) rom 1) k esc ap' []).bind fun st =>
          (putchCalls rom rest st.1).map (st.2 ++ ·) := by
  have hpercent : (cstr "%").bytes = [chr '%'] := by decide
  have hfmt : (escape settings conv ++ rest).bytes =
      chr '%' :: ((settingsText settings).bytes ++ ch :: rest.bytes) := by
    simp [escape, hconv, hpercent]
  have hparse : parse (escape settings conv ++ rest).bytes = .escape settings k :: parse rest.bytes := by
    rw [hfmt]
    simp [parse, afterEscape, parseEscape_written h hs, hk]
  have hfirst : Piece.run (fun c calls => calls ++ [c]) rom
      (vprintfmtDepth (fun c calls => calls ++ [c]) rom 1) (ap, []) (.escape settings k) =
      convert (fun c calls => calls ++ [c]) rom
        (vprintfmtDepth (fun c calls => calls ++ [c]) rom 1) k esc ap' [] := by
    simp [Piece.run, hset]
  rw [putchCalls, vprintfmt, vprintfmtDepth_eq, hparse, runPieces, List.foldlM_cons, hfirst,
    Option.bind_eq_bind, Option.map_bind]
  congr 1
  funext st
  rw [← vprintfmt_from, vprintfmt, vprintfmtDepth_eq]
  rfl

theorem putchCalls_escape (rom : Rom) {settings : List Setting} (h : Written settings) {conv : CString}
    {ch : Byte} {k : Conversion} (hconv : conv.bytes = [ch]) (hs : switchCase ch = .conversion k)
    (hk : k ≠ .unrecognized) {ap ap' : List Word} {esc : Escape}
    (hset : settings.foldlM Setting.apply (ap, Escape.start) = some (ap', esc)) :
    putchCalls rom (escape settings conv) ap =
      (convert (fun c calls => calls ++ [c]) rom
        (vprintfmtDepth (fun c calls => calls ++ [c]) rom 1) k esc ap' []).map Prod.snd := by
  have hfmt : escape settings conv = escape settings conv ++ cstr "" :=
    CString.ext (List.append_nil _).symm
  have hnothing (ap : List Word) : putchCalls rom (cstr "") ap = some [] := rfl
  rw [hfmt, putchCalls_escape_then rom h hconv hs hk hset]
  simp only [hnothing, Option.map_some, List.append_nil]
  rw [Option.map_eq_bind]
  rfl

example : escape [.flag .zero, .number 18, .flag .dot, .number 2, .flag .long] (cstr "x") =
    cstr "%018.2lx" := by
  ext1
  decide

end Jos
