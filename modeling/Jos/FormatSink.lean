import Jos.FormatScan

/-! The formatter treats its sink as a black box: every sink receives the same
characters in the same order, those of `putchCalls`. -/

namespace Jos

theorem printError_hom {σ τ : Type*} {h : τ → σ} {printfmt : CString → List Word → σ → Option σ}
    {printfmt' : CString → List Word → τ → Option τ}
    (hp : ∀ fmt ap t, printfmt fmt ap (h t) = (printfmt' fmt ap t).map h) (rom : Rom) (w : Word)
    (t : τ) : printError rom printfmt w (h t) = (printError rom printfmt' w t).map h := by
  unfold printError
  dsimp only
  split_ifs <;> rw [hp]

section Hom

variable {σ τ : Type*} {putch : Word → σ → σ} {putch' : Word → τ → τ} {h : τ → σ}
  (hh : ∀ c t, h (putch' c t) = putch c (h t))

include hh

theorem iterate_hom (c : Word) (n : Nat) (t : τ) :
    h ((putch' c)^[n] t) = (putch c)^[n] (h t) :=
  Function.Semiconj.iterate_right (hh c) n t

theorem printnum_hom (base : Nat) (padc : Byte) (fuel num : Nat) (width : Int) (t : τ) :
    printnum putch base padc fuel num width (h t) =
      (printnum putch' base padc fuel num width t).map h := by
  induction fuel generalizing num width t with
  | zero => rfl
  | succ fuel ih =>
    simp only [printnum]
    split_ifs
    · rw [ih, Option.bind_map, Option.map_bind]
      congr 1
      funext u
      cases digitChar (num % base) <;> simp [hh]
    · simp only [Option.bind_some, ← iterate_hom hh]
      cases digitChar (num % base) <;> simp [hh]

theorem printNumber_hom (num : BitVec 64) (base : Nat) (esc : Escape) (t : τ) :
    printNumber putch num base esc (h t) = (printNumber putch' num base esc t).map h :=
  printnum_hom hh base esc.padc 64 num.toNat esc.width t

theorem printDecimal_hom (num : BitVec 64) (esc : Escape) (t : τ) :
    printDecimal putch num esc (h t) = (printDecimal putch' num esc t).map h := by
  unfold printDecimal
  split_ifs
  · rw [← hh, printNumber_hom hh]
  · rw [printNumber_hom hh]

theorem padString_hom (esc : Escape) (p : List Byte) (t : τ) :
    padString putch esc p (h t) = (padString putch' esc p t).map (Prod.map id h) := by
  unfold padString
  split_ifs
  · simp only [← iterate_hom hh, Option.map_map]
    rfl
  · rfl

theorem printChars_hom (altflag : Bool) (p : List Byte) (precision width : Int) (t : τ) :
    printChars putch altflag p precision width (h t) =
      (printChars putch' altflag p precision width t).map (Prod.map id h) := by
  induction p generalizing precision width t with
  | nil => rfl
  | cons ch p ih =>
    simp only [printChars]
    split_ifs
    all_goals first | rfl | (rw [← hh, ih])

theorem printString_hom (esc : Escape) (p : List Byte) (t : τ) :
    printString putch esc p (h t) = (printString putch' esc p t).map h := by
  simp only [printString, padString_hom hh, Option.bind_map, Option.map_bind]
  congr 1
  funext u
  simp [printChars_hom hh, iterate_hom hh, Function.comp_def]

variable {printfmt : CString → List Word → σ → Option σ} {printfmt' : CString → List Word → τ → Option τ}
  (hp : ∀ fmt ap t, printfmt fmt ap (h t) = (printfmt' fmt ap t).map h) (rom : Rom)

include hp

theorem convert_hom (k : Conversion) (esc : Escape) (ap : List Word) (t : τ) :
    convert putch rom printfmt k esc ap (h t) =
      (convert putch' rom printfmt' k esc ap t).map (Prod.map id h) := by
  cases k with
  | char => simp [convert, hh, Function.comp_def]
  | error => simp [convert, printError_hom hp, Option.map_bind, Function.comp_def]
  | string => simp [convert, printString_hom hh, Option.map_bind, Function.comp_def]
  | decimal => simp [convert, printDecimal_hom hh, Option.map_bind, Function.comp_def]
  | unsigned => simp [convert, printNumber_hom hh, Option.map_bind, Function.comp_def]
  | octal => simp [convert, hh]
  | pointer => simp [convert, ← hh, printNumber_hom hh, Option.map_bind, Function.comp_def]
  | hex => simp [convert, printNumber_hom hh, Option.map_bind, Function.comp_def]
  | percent => simp [convert, hh]
  | unrecognized => simp [convert, hh]

theorem Piece.run_hom (ap : List Word) (t : τ) (p : Piece) :
    Piece.run putch rom printfmt (ap, h t) p =
      (Piece.run putch' rom printfmt' (ap, t) p).map (Prod.map id h) := by
  cases p with
  | literal ch => simp [Piece.run, hh]
  | escape settings k =>
    simp [Piece.run, convert_hom hh hp, Option.map_bind]

theorem runPieces_hom (ps : List Piece) (ap : List Word) (t : τ) :
    runPieces putch rom printfmt ps ap (h t) =
      (runPieces putch' rom printfmt' ps ap t).map (Prod.map id h) := by
  induction ps generalizing ap t with
  | nil => rfl
  | cons p ps ih =>
    simp only [runPieces, List.foldlM_cons, Piece.run_hom hh hp] at ih ⊢
    cases Piece.run putch' rom printfmt' (ap, t) p with
    | none => rfl
    | some st => exact ih st.1 st.2

end Hom

theorem vprintfmtDepth_hom {σ τ : Type*} {putch : Word → σ → σ} {putch' : Word → τ → τ} {h : τ → σ}
    (hh : ∀ c t, h (putch' c t) = putch c (h t)) (rom : Rom) (depth : Nat) (fmt : CString)
    (ap : List Word) (t : τ) :
    vprintfmtDepth putch rom depth fmt ap (h t) =
      (vprintfmtDepth putch' rom depth fmt ap t).map h := by
  induction depth generalizing fmt ap t with
  | zero => rfl
  | succ depth ih =>
    rw [vprintfmtDepth_eq, vprintfmtDepth_eq, runPieces_hom hh ih, Option.map_map, Option.map_map]
    rfl

/-- The arguments of the calls of `putch`, the first one first. -/
def putchCalls (rom : Rom) (fmt : CString) (ap : List Word) : Option (List Word) :=
  vprintfmt (fun c calls => calls ++ [c]) rom fmt ap []

theorem vprintfmt_eq_calls {σ : Type*} (putch : Word → σ → σ) (rom : Rom) (fmt : CString)
    (ap : List Word) (s : σ) :
    vprintfmt putch rom fmt ap s =
      (putchCalls rom fmt ap).map fun calls => calls.foldl (fun s c => putch c s) s :=
  vprintfmtDepth_hom (h := fun calls : List Word => calls.foldl (fun s c => putch c s) s)
    (fun c calls => by rw [List.foldl_append]; rfl) rom 2 fmt ap []

theorem vprintfmt_from (rom : Rom) (fmt : CString) (ap calls : List Word) :
    vprintfmt (fun c calls => calls ++ [c]) rom fmt ap calls =
      (putchCalls rom fmt ap).map fun new => calls ++ new := by
  have hh : vprintfmt (fun c calls => calls ++ [c]) rom fmt ap (calls ++ []) =
      (putchCalls rom fmt ap).map fun new => calls ++ new :=
    vprintfmtDepth_hom (h := fun new : List Word => calls ++ new)
      (fun c new => (List.append_assoc calls new [c]).symm) rom 2 fmt ap []
  rwa [List.append_nil] at hh

end Jos
