import Jos.FormatText

/-! `%e`: error codes of either sign, and the index into the table of texts. -/

namespace Jos

/-- The index with which `error_string` is read, when it is. -/
def errorIndex (w : Word) : Option Int :=
  if errorCode w ≥ MAXERROR then none else some (errorCode w)

theorem printError_index {σ : Type*} (rom : Rom) (printfmt : CString → List Word → σ → Option σ)
    (w : Word) (s : σ) : printError rom printfmt w s =
      match (errorIndex w).map fun i => rom.errorString (i % 2 ^ 30).toNat with
      | none => printfmt (cstr "error %d") [BitVec.ofInt 32 (errorCode w)] s
      | some p => if p = 0 then printfmt (cstr "error %d") [BitVec.ofInt 32 (errorCode w)] s
        else printfmt (cstr "%s") [p] s := by
  unfold printError errorIndex
  by_cases h : errorCode w ≥ MAXERROR <;> simp [h]

section Printfmt

variable {σ : Type*} (putch : Word → σ → σ) (rom : Rom)
  (printfmt printfmt' : CString → List Word → σ → Option σ)

theorem convert_printfmt {k : Conversion} (hk : k ≠ .error) (esc : Escape) (ap : List Word) (s : σ) :
    convert putch rom printfmt k esc ap s = convert putch rom printfmt' k esc ap s := by
  cases k with
  | error => exact absurd rfl hk
  | char | string | decimal | unsigned | octal | pointer | hex | percent | unrecognized => rfl

theorem runPieces_printfmt {ps : List Piece} (hps : ∀ settings, .escape settings .error ∉ ps)
    (ap : List Word) (s : σ) :
    runPieces putch rom printfmt ps ap s = runPieces putch rom printfmt' ps ap s := by
  induction ps generalizing ap s with
  | nil => rfl
  | cons p ps ih =>
    have hrest := ih fun settings hmem => hps settings (List.mem_cons_of_mem _ hmem)
    have hp : p.run putch rom printfmt (ap, s) = p.run putch rom printfmt' (ap, s) := by
      cases p with
      | literal ch => rfl
      | escape settings k =>
        have hk : k ≠ .error := by
          rintro rfl
          exact hps settings (by simp)
        simp only [Piece.run, convert_printfmt putch rom printfmt printfmt' hk]
    simp only [runPieces, List.foldlM_cons] at hrest ⊢
    rw [hp]
    congr 1
    funext st
    exact hrest st.1 st.2

end Printfmt

theorem vprintfmtDepth_one {σ : Type*} (putch : Word → σ → σ) (rom : Rom) {fmt : CString}
    (hfmt : ∀ settings, .escape settings .error ∉ parse fmt.bytes) (ap : List Word) (s : σ) :
    vprintfmtDepth putch rom 1 fmt ap s = vprintfmt putch rom fmt ap s := by
  rw [vprintfmt, vprintfmtDepth_eq, vprintfmtDepth_eq, runPieces_printfmt putch rom _ _ hfmt]

theorem putchCalls_text_append (rom : Rom) {s : CString} (hs : ∀ b ∈ s.bytes, b ≠ chr '%')
    (fmt : CString) (ap : List Word) : putchCalls rom (s ++ fmt) ap =
      (putchCalls rom fmt ap).map fun calls => s.bytes.map (BitVec.setWidth 32) ++ calls := by
  have hfrom := vprintfmt_from rom fmt ap (s.bytes.map (BitVec.setWidth 32))
  rw [← hfrom, putchCalls, vprintfmt, vprintfmt, vprintfmtDepth_eq, vprintfmtDepth_eq,
    CString.append_bytes, parse_text hs, runPieces_text, List.nil_append]

theorem parse_errorFormat :
    parse (cstr "error %d").bytes = (cstr "error ").bytes.map .literal ++ [.escape [] .decimal] := by
  have hbytes : (cstr "error %d").bytes = (cstr "error ").bytes ++ [chr '%', chr 'd'] := by decide
  rw [hbytes, parse_text (by decide),
    parse_conversion (by decide : switchCase (chr 'd') = .conversion .decimal) (by decide)]

theorem putchCalls_errorFormat (rom : Rom) (v : Word) : putchCalls rom (cstr "error %d") [v] =
    some ((cstr "error ").bytes.map (BitVec.setWidth 32) ++
      ((if v.toInt < 0 then [(chr '-').signExtend 32] else []) ++ digits 10 v.toInt.natAbs)) := by
  have hbytes : cstr "error %d" = cstr "error " ++ cstr "%d" := by
    ext1
    decide
  rw [hbytes, putchCalls_text_append rom (by decide), putchCalls_decimal]
  rfl

/-- The text of the table for the absolute value, or the absolute value itself. -/
def errorOutput (w : Word) : List Word :=
  match errorText w.toInt.natAbs with
  | some t => t.bytes.map (BitVec.signExtend 32)
  | none => (cstr "error ").bytes.map (BitVec.setWidth 32) ++ digits 10 w.toInt.natAbs

theorem errorText_lt {i : Nat} {t : CString} (h : errorText i = some t) : i < MAXERROR := by
  unfold errorText at h
  split at h
  all_goals first | decide | simp at h

theorem errorText_length {i : Nat} {t : CString} (h : errorText i = some t) : t.bytes.length < 32 := by
  unfold errorText at h
  split at h <;> simp only [Option.some.injEq, reduceCtorEq] at h <;> subst h <;> decide

theorem natAbs_lt {w : Word} (hw : w ≠ 0x80000000) : w.toInt.natAbs < 2 ^ 31 := by
  have hlow : -2 ^ 31 < w.toInt := by
    refine lt_of_le_of_ne (BitVec.le_toInt w) fun hmin => hw (BitVec.eq_of_toInt_eq ?_)
    rw [← hmin]
    decide
  have hhigh : w.toInt < 2 ^ 31 := BitVec.toInt_lt
  omega

theorem errorCode_eq {w : Word} (hw : w ≠ 0x80000000) : errorCode w = w.toInt.natAbs := by
  have habs := natAbs_lt hw
  unfold errorCode
  split_ifs with hneg
  · rw [wrap32_eq_self (by omega) (by omega)]
    omega
  · omega

theorem errorOutput_neg {w : Word} (hw : w ≠ 0x80000000) : errorOutput (-w) = errorOutput w := by
  have habs : (-w).toInt.natAbs = w.toInt.natAbs := by
    rw [BitVec.toInt_neg_of_ne_intMin hw, Int.natAbs_neg]
  rw [errorOutput, errorOutput, habs]

section Output

variable (rom : Rom) {w : Word} (hw : w ≠ 0x80000000)

include hw

theorem printError_text {t : CString} (ht : errorText w.toInt.natAbs = some t) :
    printError rom (vprintfmtDepth (fun c calls => calls ++ [c]) rom 1) w [] =
      some (t.bytes.map (BitVec.signExtend 32)) := by
  have herr := errorCode_eq hw
  have hlt := errorText_lt ht
  have hlen := errorText_length ht
  obtain ⟨hne, hprefix⟩ := rom.errorString_some _ hlt t ht
  have hindex : errorIndex w = some (w.toInt.natAbs : Int) := by
    rw [errorIndex, herr, if_neg (by omega)]
  have hread : ((w.toInt.natAbs : Int) % 2 ^ 30).toNat = w.toInt.natAbs := by
    simp only [MAXERROR] at hlt
    omega
  have hstring : t.object <+: rom.string (rom.errorString w.toInt.natAbs) := by
    rwa [Rom.string, if_neg hne]
  have hwidth : (wrap32 (-1 - t.bytes.length)).toNat = 0 := by
    rw [wrap32_eq_self (by omega) (by omega)]
    omega
  have hprinted := putchCalls_string rom hstring
  rw [hwidth, List.replicate_zero, List.append_nil] at hprinted
  rw [printError_index, hindex, Option.map_some]
  dsimp only
  rw [hread, if_neg hne, vprintfmtDepth_one _ rom (by simp [parse_string])]
  exact hprinted

theorem printError_number (hnone : errorText w.toInt.natAbs = none) :
    printError rom (vprintfmtDepth (fun c calls => calls ++ [c]) rom 1) w [] =
      some ((cstr "error ").bytes.map (BitVec.setWidth 32) ++ digits 10 w.toInt.natAbs) := by
  have herr := errorCode_eq hw
  have hmax := natAbs_lt hw
  have hnumber : errorCode w ≥ MAXERROR ∨ rom.errorString (errorCode w % 2 ^ 30).toNat = 0 := by
    by_cases hlt : w.toInt.natAbs < MAXERROR
    · have hindex : (errorCode w % 2 ^ 30).toNat = w.toInt.natAbs := by
        rw [herr]
        simp only [MAXERROR] at hlt
        omega
      exact .inr (hindex ▸ rom.errorString_none _ hlt hnone)
    · exact .inl (by omega)
  have hvalue : (BitVec.ofInt 32 (errorCode w)).toInt = w.toInt.natAbs := by
    rw [herr, BitVec.toInt_ofInt]
    exact Int.bmod_eq_of_le (by omega) (by omega)
  have hprinted := putchCalls_errorFormat rom (BitVec.ofInt 32 (errorCode w))
  rw [hvalue, if_neg (by omega), List.nil_append, Int.natAbs_natCast] at hprinted
  simp only [printError, hnumber, if_true]
  rw [vprintfmtDepth_one _ rom (by simp [parse_errorFormat])]
  exact hprinted

end Output

theorem putchCalls_error (rom : Rom) {w : Word} (hw : w ≠ 0x80000000) :
    putchCalls rom (cstr "%e") [w] = some (errorOutput w) := by
  have hprinted : printError rom (vprintfmtDepth (fun c calls => calls ++ [c]) rom 1) w [] =
      some (errorOutput w) := by
    unfold errorOutput
    split
    · exact printError_text rom hw ‹_›
    · exact printError_number rom hw ‹_›
  rw [putchCalls_conversion rom (by decide) (by decide : switchCase (chr 'e') = .conversion .error)
    (by decide), convert, vaInt, Option.bind_some]
  dsimp only
  rw [hprinted]
  rfl

/-- The index is inside the table, and the output is that of the absolute value. -/
def AcceptsError (rom : Rom) (w : Word) : Prop :=
  (∀ i ∈ errorIndex w, 0 ≤ i ∧ i < MAXERROR) ∧
    putchCalls rom (cstr "%e") [w] = putchCalls rom (cstr "%e") [-w] ∧
    putchCalls rom (cstr "%e") [w] = some (errorOutput w)

/-- The least `int` is its own negation, and no index. -/
theorem acceptsError_iff (rom : Rom) (w : Word) : AcceptsError rom w ↔ w ≠ 0x80000000 := by
  constructor
  · rintro ⟨hindex, -, -⟩ rfl
    have hmin : errorIndex 0x80000000 = some (-2 ^ 31) := by decide
    exact absurd (hindex _ hmin).1 (by decide)
  · intro hw
    have hneg : -w ≠ 0x80000000 := by
      intro heq
      rw [neg_eq_iff_eq_neg] at heq
      exact hw heq
    refine ⟨fun i hi => ?_, ?_, putchCalls_error rom hw⟩
    · rw [errorIndex, errorCode_eq hw] at hi
      split_ifs at hi with hin
      · simp at hi
      · rw [Option.mem_some_iff] at hi
        omega
    · rw [putchCalls_error rom hw, putchCalls_error rom hneg, errorOutput_neg hw]

theorem not_acceptsError : ¬ AcceptsError default 0x80000000 := by
  rintro ⟨-, -, hprinted⟩
  have hminus : putchCalls default (cstr "%e") [0x80000000] =
      some ((cstr "error -2147483648").bytes.map (BitVec.setWidth 32)) := by decide
  rw [hminus] at hprinted
  exact absurd hprinted (by decide)

end Jos
