import Mathlib.Data.List.TakeWhile
import Mathlib.Tactic.Common

/-! The words of a text: its maximal runs of letters that are not separators. -/

namespace Jos

section Words

variable {α : Type*} (sep : α → Bool)

def words (text : List α) : List (List α) :=
  (text.splitOnP sep).filter fun w => !w.isEmpty

variable {sep} {text w rest : List α} {c : α}

theorem words_nil : words sep [] = [] := rfl

theorem words_cons_sep (hc : sep c = true) (text : List α) : words sep (c :: text) = words sep text := by
  rw [words, List.splitOnP_cons_eq_if_modifyHead, if_pos hc, List.filter_cons_of_neg (by simp)]
  rfl

theorem words_dropWhile (text : List α) : words sep (text.dropWhile sep) = words sep text := by
  induction text with
  | nil => rfl
  | cons c text ih =>
    by_cases hc : sep c = true
    · rw [List.dropWhile_cons_of_pos hc, words_cons_sep hc, ih]
    · rw [List.dropWhile_cons_of_neg hc]

theorem filter_words_cons (hw : w ≠ []) (ws : List (List α)) :
    (w :: ws).filter (fun w => !w.isEmpty) = w :: ws.filter fun w => !w.isEmpty := by
  simp [hw]

/-- A word is followed by a separator or by nothing. -/
theorem words_append (hw : w ≠ []) (hletters : ∀ c ∈ w, sep c = false)
    (hrest : ∀ c ∈ rest.head?, sep c = true) : words sep (w ++ rest) = w :: words sep rest := by
  cases rest with
  | nil =>
    rw [List.append_nil, words, List.splitOnP_eq_singleton hletters, filter_words_cons hw]
    rfl
  | cons c rest =>
    have hc : sep c = true := hrest c rfl
    rw [words, List.splitOnP_append_cons_of_forall_mem hletters c hc, filter_words_cons hw,
      words_cons_sep hc]
    rfl

theorem sep_of_head_dropWhile (text : List α) :
    ∀ c ∈ (text.dropWhile fun c => !sep c).head?, sep c = true := by
  intro c hc
  have hhead := List.head?_dropWhile_not (fun c => !sep c) text
  rw [Option.mem_def.mp hc] at hhead
  simpa using hhead

theorem letters_of_mem_takeWhile (text : List α) :
    ∀ c ∈ text.takeWhile fun c => !sep c, sep c = false := by
  intro c hc
  simpa using List.mem_takeWhile_imp hc

theorem takeWhile_letters_ne_nil (hc : sep c = false) (text : List α) :
    ((c :: text).takeWhile fun c => !sep c) ≠ [] := by
  simp [hc]

theorem words_takeWhile (hc : sep c = false) (text : List α) :
    words sep (c :: text) =
      ((c :: text).takeWhile fun c => !sep c) :: words sep ((c :: text).dropWhile fun c => !sep c) := by
  have hwords := words_append (takeWhile_letters_ne_nil hc text) (letters_of_mem_takeWhile (c :: text))
    (sep_of_head_dropWhile (c :: text))
  rwa [List.takeWhile_append_dropWhile] at hwords

theorem forall_getElem_concat {P : Nat → List α → Prop} {ws : List (List α)}
    (hold : ∀ i (h : i < ws.length), P i ws[i]) (hnew : P ws.length w) (i : Nat)
    (h : i < (ws ++ [w]).length) : P i (ws ++ [w])[i] := by
  by_cases hi : i < ws.length
  · rw [List.getElem_append_left hi]
    exact hold i hi
  · have hlast : i = ws.length := by
      rw [List.length_append, List.length_singleton] at h
      omega
    subst hlast
    rw [List.getElem_concat_length rfl]
    exact hnew

end Words

end Jos
