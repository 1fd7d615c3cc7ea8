import Jos.FormatPrecision

/-! Text of a format, and the same text through `%s`. -/

namespace Jos

theorem parse_text {l : List Byte} (hl : ∀ b ∈ l, b ≠ chr '%') (t : List Byte) :
    parse (l ++ t) = l.map .literal ++ parse t := by
  induction l with
  | nil => rfl
  | cons b l ih =>
    have hb : b ≠ chr '%' := hl b (by simp)
    rw [List.cons_append, parse, if_pos hb, ih fun c hc => hl c (List.mem_cons_of_mem _ hc)]
    rfl

theorem runPieces_text (rom : Rom) (printfmt : CString → List Word → List Word → Option (List Word))
    (l : List Byte) (ps : List Piece) (ap calls : List Word) :
    runPieces (fun c calls => calls ++ [c]) rom printfmt (l.map .literal ++ ps) ap calls =
      runPieces (fun c calls => calls ++ [c]) rom printfmt ps ap
        (calls ++ l.map (BitVec.setWidth 32)) := by
  induction l generalizing calls with
  | nil => simp
  | cons b l ih =>
    have hstep := ih (calls ++ [b.setWidth 32])
    rw [List.append_assoc] at hstep
    exact hstep

/-- Text is printed with its characters as unsigned. -/
theorem putchCalls_text (rom : Rom) {s : CString} (hs : ∀ b ∈ s.bytes, b ≠ chr '%') :
    putchCalls rom s [] = some (s.bytes.map (BitVec.setWidth 32)) := by
  have hparse := parse_text hs []
  rw [List.append_nil] at hparse
  rw [putchCalls, vprintfmt, vprintfmtDepth_eq, hparse, runPieces_text]
  simp [parse, runPieces]

theorem stringFormat_eq : cstr "%s" = escape [] (cstr "s") := by
  ext1
  decide

/-- `%s` takes them as signed, and may end with blanks: the width that is not set
is one less for each character, as an `int`. -/
theorem putchCalls_string (rom : Rom) {s : CString} {p : Word} (hs : s.object <+: rom.string p) :
    putchCalls rom (cstr "%s") [p] = some (s.bytes.map (BitVec.signExtend 32) ++
      List.replicate (wrap32 (-1 - s.bytes.length)).toNat 0x20) := by
  obtain ⟨t, ht⟩ := hs
  have hpad : padString (fun c calls => calls ++ [c]) .start (s.object ++ t) [] = some (-1, []) :=
    if_neg (by decide)
  have hset : ([] : List Setting).foldlM Setting.apply ([p], Escape.start) = some ([p], .start) := rfl
  have hbody : stringBody false (-1) s = s.bytes.map (BitVec.signExtend 32) :=
    stringBody_whole (by decide) s
  have hwritten : Written [] := trivial
  rw [stringFormat_eq, putchCalls_s rom hwritten hset, ← ht, printString_of_pad hpad (by decide)]
  simp [Escape.start, hbody, shownLength]

theorem signExtend_eq_setWidth_iff (b : Byte) : b.signExtend 32 = b.setWidth 32 ↔ b < 0x80 := by
  have hsigned : (b.signExtend 32).toInt = b.toInt := BitVec.toInt_signExtend_of_le (by decide)
  have hunsigned : (b.setWidth 32).toInt = b.toNat := by
    rw [BitVec.toInt_eq_toNat_cond, BitVec.toNat_setWidth_of_le (by decide), if_pos (by omega)]
  have hlt : b < 0x80 ↔ b.toNat < 0x80 := by rfl
  rw [← BitVec.toInt_inj, hsigned, hunsigned, hlt, BitVec.toInt_eq_toNat_cond]
  split_ifs <;> omega

theorem wrap32_nonpos_iff (len : Nat) : wrap32 (-1 - len) ≤ 0 ↔ (len + 1) % 2 ^ 32 ≤ 2 ^ 31 := by
  rw [wrap32, Int.bmod_def]
  split_ifs <;> omega

/-- Text prints the same through `%s` exactly when its characters are ASCII, up to
the length where the width wraps around. -/
theorem string_text_iff (rom : Rom) {s : CString} (hpercent : ∀ b ∈ s.bytes, b ≠ chr '%') {p : Word}
    (hs : s.object <+: rom.string p) :
    SameCalls rom (cstr "%s") [p] s [] ↔
      (∀ b ∈ s.bytes, b < 0x80) ∧ (s.bytes.length + 1) % 2 ^ 32 ≤ 2 ^ 31 := by
  rw [SameCalls, putchCalls_text rom hpercent, putchCalls_string rom hs, ← wrap32_nonpos_iff]
  constructor
  · rintro ⟨calls, hstring, htext⟩
    have heq := Option.some.inj (hstring.trans htext.symm)
    have hlength := congrArg List.length heq
    simp only [List.length_append, List.length_map, List.length_replicate] at hlength
    have hnone : (wrap32 (-1 - s.bytes.length)).toNat = 0 := by omega
    rw [hnone, List.replicate_zero, List.append_nil, List.map_inj_left] at heq
    exact ⟨fun b hb => (signExtend_eq_setWidth_iff b).mp (heq b hb), by omega⟩
  · rintro ⟨hascii, hwidth⟩
    have hnone : (wrap32 (-1 - s.bytes.length)).toNat = 0 := by omega
    have hbytes : s.bytes.map (BitVec.signExtend 32) = s.bytes.map (BitVec.setWidth 32) :=
      List.map_inj_left.mpr fun b hb => (signExtend_eq_setWidth_iff b).mpr (hascii b hb)
    exact ⟨_, by rw [hnone, List.replicate_zero, List.append_nil, hbytes], rfl⟩

theorem string_text_ok : SameCalls default (cstr "%s") [2] (cstr "bad environment") [] :=
  (string_text_iff default (by decide) List.prefix_rfl).mpr (by decide)

/-- The character 0xE9 gets attribute bits from `%s` alone. -/
theorem not_string_text :
    ¬ SameCalls ((default : Rom).hold 7 [0xE9, 0] (by decide)) (cstr "%s") [7] ⟨[0xE9], by decide⟩
      [] := by
  rintro ⟨calls, hstring, htext⟩
  have hsigned : putchCalls ((default : Rom).hold 7 [0xE9, 0] (by decide)) (cstr "%s") [7] =
      some [0xFFFFFFE9] := by decide
  have hunsigned : putchCalls ((default : Rom).hold 7 [0xE9, 0] (by decide)) ⟨[0xE9], by decide⟩ [] =
      some [0xE9] := by decide
  rw [hsigned, ← htext, hunsigned] at hstring
  exact absurd hstring (by decide)

end Jos
