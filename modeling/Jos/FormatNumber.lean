import Jos.FormatSink
import Jos.Numeral

/-! What the numeric conversions print: padding, then the numeral. -/

namespace Jos

def digitByte (d : Nat) : Byte :=
  (digitChar d).getD 0

def digitWord (d : Nat) : Word :=
  (digitByte d).signExtend 32

theorem digitByte_ne_zero {d : Nat} (h : d < 16) : digitByte d ≠ 0 := by
  have hall : ∀ d < 16, digitByte d ≠ 0 := by decide
  exact hall d h

theorem setWidth_signExtend (b : Byte) : (b.signExtend 32).setWidth 8 = b := by
  ext i hi
  have hi' : i < 32 := by omega
  simp [BitVec.getLsbD_signExtend, hi, hi', ← BitVec.getLsbD_eq_getElem]

theorem map_setWidth_signExtend (s : List Byte) :
    (s.map (BitVec.signExtend 32)).map (BitVec.setWidth 8) = s := by
  rw [List.map_map]
  exact List.map_id'' setWidth_signExtend s

theorem digitChar_eq {d : Nat} (h : d < 16) : digitChar d = some (digitByte d) := by
  have hlen : ("0123456789abcdef".toList.map chr).length = 16 := by simp
  obtain ⟨b, hb⟩ : ∃ b, digitChar d = some b :=
    ⟨_, List.getElem?_eq_getElem (h.trans_eq hlen.symm)⟩
  rw [digitByte, hb, Option.getD_some]

theorem wrap32_sub_one (i j : Int) : wrap32 (wrap32 (i - 1) - j) = wrap32 (i - (j + 1)) := by
  rw [wrap32, wrap32, wrap32, Int.bmod_sub_bmod]
  congr 1
  omega

/-- The padding is that of the width less the digits, as an `int`. -/
theorem printnum_eq {σ : Type*} (putch : Word → σ → σ) {base : Nat} (hb : 2 ≤ base) (hb' : base ≤ 16)
    (padc : Byte) {fuel num : Nat} (hf : num < base ^ (fuel + 1)) (width : Int) (s : σ) :
    printnum putch base padc (fuel + 1) num width s =
      some ((numeral base num).foldl (fun s d => putch (digitWord d) s)
        ((putch (padc.signExtend 32))^[(wrap32 (width - (numeral base num).length)).toNat] s)) := by
  have hdigit : digitChar (num % base) = some (digitByte (num % base)) :=
    digitChar_eq ((Nat.mod_lt _ (by omega)).trans_le hb')
  induction fuel generalizing num width s with
  | zero =>
    have hlt : num < base := by simpa using hf
    rw [printnum, if_neg (by omega), Option.bind_some, hdigit, numeral_of_lt hlt, Nat.mod_eq_of_lt hlt]
    rfl
  | succ fuel ih =>
    by_cases hge : num ≥ base
    · have hq : num / base < base ^ (fuel + 1) := by
        rw [Nat.div_lt_iff_lt_mul (by omega), ← Nat.pow_succ]
        exact hf
      rw [printnum, if_pos hge, ih hq _ _ (digitChar_eq ((Nat.mod_lt _ (by omega)).trans_le hb')),
        Option.bind_some, hdigit, numeral_of_le hb hge, List.foldl_append, List.length_append,
        wrap32_sub_one]
      rfl
    · have hlt : num < base := Nat.lt_of_not_le hge
      rw [printnum, if_neg hge, Option.bind_some, hdigit, numeral_of_lt hlt, Nat.mod_eq_of_lt hlt]
      rfl

theorem wrap32_eq_self {i : Int} (hlow : -2 ^ 31 ≤ i) (hhigh : i < 2 ^ 31) : wrap32 i = i :=
  Int.bmod_eq_of_le (by omega) (by omega)

theorem foldl_replicate_putch {σ : Type*} (putch : Word → σ → σ) (n : Nat) (c : Word) (s : σ) :
    (List.replicate n c).foldl (fun s c => putch c s) s = (putch c)^[n] s := by
  induction n generalizing s with
  | zero => rfl
  | succ n ih => simp [List.replicate_succ, ih]

/-- The characters before a numeral of `len` digits. -/
def padding (padc : Byte) (width : Int) (len : Nat) : List Word :=
  List.replicate (width - len).toNat (padc.signExtend 32)

def digits (base num : Nat) : List Word :=
  (numeral base num).map digitWord

/-- `printnum` pads the numeral on the left to the width. -/
theorem printnum_padded {σ : Type*} (putch : Word → σ → σ) {base : Nat} (hb : 2 ≤ base) (hb' : base ≤ 16)
    (padc : Byte) {num : Nat} (hnum : num < 2 ^ 64) {width : Int} (hlow : -1 ≤ width)
    (hhigh : width < 2 ^ 31) (s : σ) :
    printnum putch base padc 64 num width s =
      some ((padding padc width (numeral base num).length ++ digits base num).foldl
        (fun s c => putch c s) s) := by
  have hfuel : num < base ^ (63 + 1) := hnum.trans_le (Nat.pow_le_pow_left hb 64)
  have hlen := numeral_length_le hb hfuel
  rw [printnum_eq putch hb hb' padc hfuel, wrap32_eq_self (by omega) (by omega), padding, digits,
    List.foldl_append, foldl_replicate_putch, List.foldl_map]

theorem foldl_calls (cs calls : List Word) :
    cs.foldl (fun calls c => calls ++ [c]) calls = calls ++ cs := by
  induction cs generalizing calls with
  | nil => simp
  | cons c cs ih => simp [ih]

/-- The width of an escape after a width in decimal, or with none. -/
def Escape.WidthSet (esc : Escape) : Prop :=
  -1 ≤ esc.width ∧ esc.width < 2 ^ 31

theorem printNumber_padded {base : Nat} (hb : 2 ≤ base) (hb' : base ≤ 16) (num : BitVec 64)
    {esc : Escape} (hesc : esc.WidthSet) (calls : List Word) :
    printNumber (fun c calls => calls ++ [c]) num base esc calls =
      some (calls ++ padding esc.padc esc.width (numeral base num.toNat).length ++
        digits base num.toNat) := by
  rw [printNumber, printnum_padded _ hb hb' _ num.isLt hesc.1 hesc.2, foldl_calls, List.append_assoc]

/-- The sign comes before the padding. -/
theorem printDecimal_padded (num : BitVec 64) {esc : Escape} (hesc : esc.WidthSet) (calls : List Word) :
    printDecimal (fun c calls => calls ++ [c]) num esc calls =
      some (calls ++ (if num.toInt < 0 then [(chr '-').signExtend 32] else []) ++
        padding esc.padc esc.width (numeral 10 num.toInt.natAbs).length ++
        digits 10 num.toInt.natAbs) := by
  unfold printDecimal
  split_ifs with hneg
  · have habs : (-num).toNat = num.toInt.natAbs := by
      rw [BitVec.toNat_neg]
      rw [BitVec.toInt_eq_toNat_cond] at hneg ⊢
      split_ifs at hneg ⊢ <;> omega
    rw [printNumber_padded (by decide) (by decide) _ hesc, habs]
  · have habs : num.toNat = num.toInt.natAbs := by
      rw [BitVec.toInt_eq_toNat_cond] at hneg ⊢
      split_ifs at hneg ⊢ <;> omega
    rw [printNumber_padded (by decide) (by decide) _ hesc, habs, List.append_nil]

theorem widthSet_start : Escape.start.WidthSet :=
  ⟨le_rfl, by decide⟩

theorem padding_start (len : Nat) : padding Escape.start.padc Escape.start.width len = [] := by
  simp [padding, Escape.start]

theorem printDecimal_start (num : BitVec 64) (calls : List Word) :
    printDecimal (fun c calls => calls ++ [c]) num .start calls =
      some (calls ++ (if num.toInt < 0 then [(chr '-').signExtend 32] else []) ++
        (numeral 10 num.toInt.natAbs).map digitWord) := by
  rw [printDecimal_padded num widthSet_start, padding_start, List.append_nil]
  rfl

theorem putchCalls_conversion (rom : Rom) {fmt : CString} {ch : Byte} {k : Conversion}
    (hfmt : fmt.bytes = [chr '%', ch]) (hs : switchCase ch = .conversion k) (hk : k ≠ .unrecognized)
    (ap : List Word) : putchCalls rom fmt ap =
      (convert (fun c calls => calls ++ [c]) rom
        (vprintfmtDepth (fun c calls => calls ++ [c]) rom 1) k .start ap []).map Prod.snd := by
  rw [putchCalls, vprintfmt, vprintfmtDepth_eq, hfmt, parse_conversion hs hk]
  simp [runPieces, Piece.run]

theorem getint_start (v : Word) : getint [v] Escape.start.lflag = some (v.signExtend 64, []) :=
  if_neg (by decide)

theorem putchCalls_decimal (rom : Rom) (v : Word) : putchCalls rom (cstr "%d") [v] =
    some ((if v.toInt < 0 then [(chr '-').signExtend 32] else []) ++
      (numeral 10 v.toInt.natAbs).map digitWord) := by
  have hv : (v.signExtend 64).toInt = v.toInt := BitVec.toInt_signExtend_of_le (by decide)
  rw [putchCalls_conversion rom (by decide) (show switchCase (chr 'd') = .conversion .decimal by decide)
    (by decide), convert, getint_start, Option.bind_some]
  dsimp only
  rw [printDecimal_start, hv]
  rfl

end Jos
