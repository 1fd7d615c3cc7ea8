import Jos.FormatEscape

/-! The numeric conversions with a width in decimal: the numeral, and the
padding on its left. -/

namespace Jos

/-- The `l`s of a conversion. -/
inductive Longs where
  | none
  | one
  | two
  deriving DecidableEq

namespace Longs

def settings : Longs → List Setting
  | .none => []
  | .one => [.flag .long]
  | .two => [.flag .long, .flag .long]

def lflag : Longs → Int
  | .none => 0
  | .one => 1
  | .two => 2

def bits : Longs → Nat
  | .none => 32
  | .one => 32
  | .two => 64

/-- The words in which a value is passed: its low half, and the other only to `ll`. -/
def args (longs : Longs) (v : BitVec 64) : List Word :=
  match longs with
  | .none => [v.setWidth 32]
  | .one => [v.setWidth 32]
  | .two => [v.setWidth 32, v.extractLsb' 32 32]

end Longs

theorem append_halves (v : BitVec 64) : v.extractLsb' 32 32 ++ v.setWidth 32 = v := by
  apply BitVec.eq_of_getLsbD_eq
  intro i hi
  rw [BitVec.getLsbD_append]
  split_ifs with hlow
  · simp [hlow]
  · have hindex : 32 + (i - 32) = i := by omega
    have hlt : i - 32 < 32 := by omega
    simp [hlt, hindex]

theorem getuint_args (longs : Longs) (v : BitVec 64) :
    ∃ num, getuint (longs.args v) longs.lflag = some (num, []) ∧
      num.toNat = v.toNat % 2 ^ longs.bits := by
  have hword : ((v.setWidth 32).setWidth 64).toNat = v.toNat % 2 ^ 32 := by
    rw [BitVec.toNat_setWidth_of_le (by decide), BitVec.toNat_setWidth]
  cases longs with
  | none => exact ⟨_, rfl, hword⟩
  | one => exact ⟨_, rfl, hword⟩
  | two => exact ⟨_, rfl, by rw [append_halves]; exact (Nat.mod_eq_of_lt v.isLt).symm⟩

theorem getint_args (longs : Longs) (v : BitVec 64) :
    ∃ num, getint (longs.args v) longs.lflag = some (num, []) ∧
      num.toInt = (v.setWidth longs.bits).toInt := by
  cases longs with
  | none => exact ⟨_, rfl, BitVec.toInt_signExtend_of_le (by decide)⟩
  | one => exact ⟨_, rfl, BitVec.toInt_signExtend_of_le (by decide)⟩
  | two => exact ⟨_, rfl, by rw [append_halves, Longs.bits, BitVec.setWidth_eq]⟩

/-- An optional flag `0`, an optional width, and the `l`s. -/
def numberSettings (zero : Bool) (width : Option Nat) (longs : Longs) : List Setting :=
  (if zero then [.flag .zero] else []) ++ (width.toList.map fun w => .number w) ++ longs.settings

def padChar (zero : Bool) : Byte :=
  if zero then chr '0' else chr ' '

def numberEscape (zero : Bool) (width : Option Nat) (longs : Longs) : Escape :=
  ⟨padChar zero, width.elim (-1) fun w => w, -1, longs.lflag, false⟩

theorem foldlM_numberSettings (zero : Bool) (width : Option Nat) (longs : Longs) (ap : List Word) :
    (numberSettings zero width longs).foldlM Setting.apply (ap, .start) =
      some (ap, numberEscape zero width longs) := by
  cases zero <;> cases width <;> cases longs <;> rfl

def WidthInRange (width : Option Nat) : Prop :=
  ∀ w ∈ width, 0 < w ∧ w < 2 ^ 31

theorem written_numberSettings (zero : Bool) {width : Option Nat} (hwidth : WidthInRange width)
    (longs : Longs) : Written (numberSettings zero width longs) := by
  cases width with
  | none => cases zero <;> cases longs <;> simp [numberSettings, Longs.settings, Written]
  | some w =>
    obtain ⟨hpos, hmax⟩ := hwidth w rfl
    have hmax' : (w : Int) < 2 ^ 31 := by omega
    cases zero <;> cases longs <;>
      simp [numberSettings, Longs.settings, Written, Setting.opensWithDigit, hpos] <;> omega

theorem numberEscape_widthSet (zero : Bool) {width : Option Nat} (hwidth : WidthInRange width)
    (longs : Longs) : (numberEscape zero width longs).WidthSet := by
  cases width with
  | none => exact ⟨le_rfl, (by decide : (-1 : Int) < 2 ^ 31)⟩
  | some w =>
    obtain ⟨hpos, hmax⟩ := hwidth w rfl
    exact ⟨by dsimp only [numberEscape, Option.elim]; omega,
      by dsimp only [numberEscape, Option.elim]; omega⟩

/-- The settings of an escape come to `esc`, whatever the arguments. -/
structure Comes (settings : List Setting) (esc : Escape) : Prop where
  written : Written settings
  fold : ∀ ap, settings.foldlM Setting.apply (ap, .start) = some (ap, esc)
  width : esc.WidthSet

theorem comes_number (zero : Bool) {width : Option Nat} (hwidth : WidthInRange width) (longs : Longs) :
    Comes (numberSettings zero width longs) (numberEscape zero width longs) :=
  ⟨written_numberSettings zero hwidth longs, foldlM_numberSettings zero width longs,
    numberEscape_widthSet zero hwidth longs⟩

section Numbers

variable (rom : Rom) {settings : List Setting} {esc : Escape} (h : Comes settings esc) {longs : Longs}
  (hlflag : esc.lflag = longs.lflag) (v : BitVec 64)

include h hlflag

theorem putchCalls_unsigned_number {conv : CString} {ch : Byte} {k : Conversion} {base : Nat}
    (hb : 2 ≤ base) (hb' : base ≤ 16) (hconv : conv.bytes = [ch]) (hs : switchCase ch = .conversion k)
    (hk : k ≠ .unrecognized)
    (hconvert : ∀ ap s, convert (fun c calls => calls ++ [c]) rom
      (vprintfmtDepth (fun c calls => calls ++ [c]) rom 1) k esc ap s =
        (getuint ap esc.lflag).bind fun (num, ap) =>
          (printNumber (fun c calls => calls ++ [c]) num base esc s).map (ap, ·)) :
    putchCalls rom (escape settings conv) (longs.args v) =
      some (padding esc.padc esc.width (numeral base (v.toNat % 2 ^ longs.bits)).length ++
        digits base (v.toNat % 2 ^ longs.bits)) := by
  obtain ⟨num, hget, hnum⟩ := getuint_args longs v
  rw [putchCalls_escape rom h.written hconv hs hk (h.fold _), hconvert, hlflag, hget, Option.bind_some]
  dsimp only
  rw [printNumber_padded hb hb' num h.width, hnum]
  rfl

theorem putchCalls_u : putchCalls rom (escape settings (cstr "u")) (longs.args v) =
    some (padding esc.padc esc.width (numeral 10 (v.toNat % 2 ^ longs.bits)).length ++
      digits 10 (v.toNat % 2 ^ longs.bits)) :=
  putchCalls_unsigned_number rom h hlflag v (by decide) (by decide)
    (by decide : (cstr "u").bytes = [chr 'u']) (by decide : _ = SwitchCase.conversion .unsigned)
    (by decide) fun _ _ => rfl

theorem putchCalls_x : putchCalls rom (escape settings (cstr "x")) (longs.args v) =
    some (padding esc.padc esc.width (numeral 16 (v.toNat % 2 ^ longs.bits)).length ++
      digits 16 (v.toNat % 2 ^ longs.bits)) :=
  putchCalls_unsigned_number rom h hlflag v (by decide) (by decide)
    (by decide : (cstr "x").bytes = [chr 'x']) (by decide : _ = SwitchCase.conversion .hex)
    (by decide) fun _ _ => rfl

theorem putchCalls_d : putchCalls rom (escape settings (cstr "d")) (longs.args v) =
    some ((if (v.setWidth longs.bits).toInt < 0 then [(chr '-').signExtend 32] else []) ++
      padding esc.padc esc.width (numeral 10 (v.setWidth longs.bits).toInt.natAbs).length ++
      digits 10 (v.setWidth longs.bits).toInt.natAbs) := by
  obtain ⟨num, hget, hnum⟩ := getint_args longs v
  rw [putchCalls_escape rom h.written (by decide : (cstr "d").bytes = [chr 'd'])
    (by decide : switchCase (chr 'd') = .conversion .decimal) (by decide) (h.fold _), convert,
    hlflag, hget, Option.bind_some]
  dsimp only
  rw [printDecimal_padded num h.width, hnum]
  rfl

end Numbers

/-- `printnum` prints the numeral in any base, padded to the width; so do the
conversions to unsigned numbers, and `%d` prints the sign and the numeral. -/
theorem numbers_printed {σ : Type*} (putch : Word → σ → σ) (rom : Rom) :
    (∀ (base num : Nat) (width : Int) (padc : Byte) (s : σ), 2 ≤ base → base ≤ 16 → num < 2 ^ 64 →
      -1 ≤ width → width < 2 ^ 31 → printnum putch base padc 64 num width s =
        some ((padding padc width (numeral base num).length ++ digits base num).foldl
          (fun s c => putch c s) s)) ∧
    (∀ (zero : Bool) (width : Option Nat) (longs : Longs) (v : BitVec 64), WidthInRange width →
      putchCalls rom (escape (numberSettings zero width longs) (cstr "u")) (longs.args v) =
          some (padding (padChar zero) (width.elim (-1) fun w => w)
            (numeral 10 (v.toNat % 2 ^ longs.bits)).length ++ digits 10 (v.toNat % 2 ^ longs.bits)) ∧
        putchCalls rom (escape (numberSettings zero width longs) (cstr "x")) (longs.args v) =
          some (padding (padChar zero) (width.elim (-1) fun w => w)
            (numeral 16 (v.toNat % 2 ^ longs.bits)).length ++ digits 16 (v.toNat % 2 ^ longs.bits))) ∧
    ∀ (longs : Longs) (v : BitVec 64),
      putchCalls rom (escape longs.settings (cstr "d")) (longs.args v) =
        some ((if (v.setWidth longs.bits).toInt < 0 then [(chr '-').signExtend 32] else []) ++
          digits 10 (v.setWidth longs.bits).toInt.natAbs) := by
  refine ⟨fun base num width padc s hb hb' hnum hlow hhigh =>
    printnum_padded putch hb hb' padc hnum hlow hhigh s, fun zero width longs v hwidth => ?_,
    fun longs v => ?_⟩
  · have hcomes := comes_number zero hwidth longs
    exact ⟨putchCalls_u rom hcomes rfl v, putchCalls_x rom hcomes rfl v⟩
  · have hnone : WidthInRange none := by simp [WidthInRange]
    have hcomes : Comes longs.settings (numberEscape false none longs) := comes_number false hnone longs
    rw [putchCalls_d rom hcomes rfl v]
    simp [padding, numberEscape]

theorem numbers_printed_hex :
    putchCalls default (escape [.flag .zero, .number 5, .flag .long] (cstr "x")) [0x2A] =
      some [0x30, 0x30, 0x30, 0x32, 0x61] := by
  have hwidth : WidthInRange (some 5) := by simp [WidthInRange]
  have hprinted :=
    ((numbers_printed (fun _ (s : Unit) => s) default).2.1 true (some 5) .one 0x2A hwidth).2
  exact hprinted.trans (by decide)

end Jos
