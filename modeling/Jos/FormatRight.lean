import Jos.FormatString
import Jos.FormatWidth

/-! The flag `-` on numbers: `printnum` pads on the left with the character of the
flag, where `%s` pads on the right with blanks. -/

namespace Jos

def rightSettings (w : Nat) : List Setting :=
  [.flag .right, .number w]

/-- The numeral, then blanks up to the width, as `%s` pads the same text. -/
def PadsRight (rom : Rom) (conv : CString) (base w : Nat) (v : Word) : Prop :=
  ∃ calls, putchCalls rom (escape (rightSettings w) conv) [v] = some calls ∧
    calls = digits base v.toNat ++ List.replicate (w - (numeral base v.toNat).length) 0x20 ∧
    ∀ (s : CString) (p : Word), s.bytes = (numeral base v.toNat).map digitByte →
      s.object <+: rom.string p → putchCalls rom (escape (rightSettings w) (cstr "s")) [p] = some calls

theorem comes_right {w : Nat} (hw : 0 < w) (hmax : w < 2 ^ 31) :
    Comes (rightSettings w) ⟨chr '-', w, -1, 0, false⟩ := by
  refine ⟨?_, fun ap => rfl, ?_⟩
  · simp only [rightSettings, Written]
    refine ⟨by omega, by simp⟩
  · constructor
    · dsimp only
      omega
    · dsimp only
      omega

theorem digitByte_ne_minus {d : Nat} (h : d < 16) : digitWord d ≠ (chr '-').signExtend 32 := by
  have hall : ∀ d < 16, digitWord d ≠ (chr '-').signExtend 32 := by decide
  exact hall d h

section Printed

variable {rom : Rom} {conv : CString} {base w : Nat} (hb : 2 ≤ base) (hb' : base ≤ 16) {v : Word}
  (hprinted : putchCalls rom (escape (rightSettings w) conv) [v] =
    some (padding (chr '-') w (numeral base v.toNat).length ++ digits base v.toNat))

include hb hb' hprinted

/-- The first character is a digit, or the flag. -/
theorem padsRight_le (h : PadsRight rom conv base w v) : w ≤ (numeral base v.toNat).length := by
  obtain ⟨calls, hcalls, heq, -⟩ := h
  rw [hprinted, Option.some.injEq] at hcalls
  rw [← hcalls] at heq
  by_contra hpad
  obtain ⟨d, ds, hd⟩ := List.exists_cons_of_ne_nil (numeral_ne_nil base v.toNat)
  obtain ⟨k, hk⟩ := Nat.exists_eq_succ_of_ne_zero
    (by omega : ((w : Int) - (numeral base v.toNat).length).toNat ≠ 0)
  have hdigit : d < 16 := (numeral_lt hb (hd ▸ List.mem_cons_self)).trans_le hb'
  rw [padding, hk, digits, hd] at heq
  simp only [List.replicate_succ, List.map_cons, List.cons_append, List.cons.injEq] at heq
  exact digitByte_ne_minus hdigit heq.1.symm

omit hb' in
theorem padsRight_full (hw : 0 < w) (hmax : w < 2 ^ 31) (hle : w ≤ (numeral base v.toNat).length) :
    PadsRight rom conv base w v := by
  have hnone : w - (numeral base v.toNat).length = 0 := by omega
  have hpadding : ∀ padc, padding padc w (numeral base v.toNat).length = [] := by
    intro padc
    have hzero : ((w : Int) - (numeral base v.toNat).length).toNat = 0 := by omega
    rw [padding, hzero, List.replicate_zero]
  rw [hpadding, List.nil_append] at hprinted
  refine ⟨_, hprinted, by rw [hnone, List.replicate_zero, List.append_nil], fun s p hs hp => ?_⟩
  have hlen : s.bytes.length < 2 ^ 30 := by
    have hnum : v.toNat < base ^ (31 + 1) := v.isLt.trans_le (Nat.pow_le_pow_left hb 32)
    have hle := numeral_length_le hb hnum
    rw [hs, List.length_map]
    omega
  have hprints := printsString hlen hp [.right] (.literal w) none (by simp [Flag.IsPad]) ⟨hw, hmax⟩
    (by simp only [Given.value]; omega)
  have hbody : stringBody false (-1) s = digits base v.toNat := by
    rw [stringBody_whole (by decide), hs, List.map_map]
    rfl
  have hshown : shownLength (-1) s.bytes.length = (numeral base v.toNat).length := by
    rw [hs, List.length_map]
    rfl
  refine hprints.trans ?_
  simp only [precisionValue, Option.elim_none, hshown, Given.value, hpadding]
  simp [lastPad, Flag.pad, hbody]

end Printed

/-- A number is right in its field exactly when there is nothing to pad. -/
theorem padsRight_iff (rom : Rom) {w : Nat} (hw : 0 < w) (hmax : w < 2 ^ 31) (v : Word) :
    (PadsRight rom (cstr "u") 10 w v ↔ w ≤ (numeral 10 v.toNat).length) ∧
      (PadsRight rom (cstr "x") 16 w v ↔ w ≤ (numeral 16 v.toNat).length) := by
  have hcomes := comes_right hw hmax
  have hargs : Longs.none.args (v.setWidth 64) = [v] := by simp [Longs.args]
  have hv : (v.setWidth 64).toNat % 2 ^ Longs.none.bits = v.toNat := by
    rw [BitVec.toNat_setWidth_of_le (by decide)]
    exact Nat.mod_eq_of_lt v.isLt
  have hlflag : (⟨chr '-', w, -1, 0, false⟩ : Escape).lflag = Longs.none.lflag := rfl
  have hu := putchCalls_u rom hcomes hlflag (v.setWidth 64)
  have hx := putchCalls_x rom hcomes hlflag (v.setWidth 64)
  rw [hargs, hv] at hu hx
  exact ⟨⟨padsRight_le (by decide) (by decide) hu, padsRight_full (by decide) hu hw hmax⟩,
    ⟨padsRight_le (by decide) (by decide) hx, padsRight_full (by decide) hx hw hmax⟩⟩

theorem padsRight_two : PadsRight default (cstr "x") 16 2 0x2A :=
  (padsRight_iff default (by decide) (by decide) 0x2A).2.mpr (by decide)

/-- A field of 5 for 3 is filled with the flag. -/
theorem not_padsRight : ¬ PadsRight default (cstr "u") 10 5 3 := by
  rintro ⟨calls, hcalls, heq, -⟩
  have hprinted : putchCalls default (escape (rightSettings 5) (cstr "u")) [3] =
      some [0x2D, 0x2D, 0x2D, 0x2D, 0x33] := by decide
  rw [hprinted, Option.some.injEq] at hcalls
  rw [← hcalls] at heq
  exact absurd heq (by decide)

end Jos
