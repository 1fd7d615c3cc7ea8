import Jos.Memory

/-! `lib/string.c`: the functions that move memory, as built with `ASM`, and those
that look through strings. -/

namespace Jos

/-- Copies down when the destination starts inside the source, up otherwise,
in words when both pointers and the size allow it. -/
def memmove (m : Memory) (dst src n : Nat) : Memory :=
  if src < dst ∧ src + n > dst then
    if (src + n) % 4 = 0 ∧ (dst + n) % 4 = 0 ∧ n % 4 = 0 then m.copyDown 4 (n / 4) dst src
    else m.copyDown 1 n dst src
  else
    if src % 4 = 0 ∧ dst % 4 = 0 ∧ n % 4 = 0 then m.copyUp 4 (n / 4) dst src
    else m.copyUp 1 n dst src

theorem memmove_byte (m : Memory) (dst src n x : Nat) :
    (memmove m dst src n).byte x =
      if dst ≤ x ∧ x < dst + n then m.byte (src + (x - dst)) else m.byte x := by
  by_cases hdown : src < dst ∧ src + n > dst
  · by_cases hw : (src + n) % 4 = 0 ∧ (dst + n) % 4 = 0 ∧ n % 4 = 0
    · have hn : 4 * (n / 4) = n := by omega
      rw [memmove, if_pos hdown, if_pos hw, Memory.copyDown_byte _ _ _ _ _ (by omega), hn]
    · rw [memmove, if_pos hdown, if_neg hw, Memory.copyDown_byte _ _ _ _ _ (by omega), Nat.one_mul]
  · by_cases hw : src % 4 = 0 ∧ dst % 4 = 0 ∧ n % 4 = 0
    · have hn : 4 * (n / 4) = n := by omega
      rw [memmove, if_neg hdown, if_pos hw, Memory.copyUp_byte _ _ _ _ _ (by omega), hn]
    · rw [memmove, if_neg hdown, if_neg hw, Memory.copyUp_byte _ _ _ _ _ (by omega), Nat.one_mul]

theorem within_memmove {lo hi : Nat} (m : Memory) (dst src n : Nat) (hlo : lo ≤ dst)
    (hhi : dst + n ≤ hi) : Memory.Within lo hi m (memmove m dst src n) := by
  unfold memmove
  split_ifs
  · exact Memory.within_copyDown _ _ _ _ _ hlo (by omega)
  · exact Memory.within_copyDown _ _ _ _ _ hlo (by omega)
  · exact Memory.within_copyUp _ _ _ _ _ hlo (by omega)
  · exact Memory.within_copyUp _ _ _ _ _ hlo (by omega)

/-- The bytes from the one found on. `s` is the bytes that can be read from the
string's address on. -/
def strfind (c : Byte) : List Byte → Option (List Byte)
  | [] => none
  | b :: s => if b = 0 ∨ b = c then some (b :: s) else strfind c s

theorem strfind_eq (c : Byte) {s : List Byte} (h : 0 ∈ s) :
    strfind c s = some (s.dropWhile fun b => b ≠ 0 ∧ b ≠ c) := by
  induction s with
  | nil => simp at h
  | cons b s ih =>
    by_cases hb : b = 0 ∨ b = c
    · have hstop : ¬ (b ≠ 0 ∧ b ≠ c) := by rwa [← not_or, not_not]
      rw [strfind, if_pos hb, List.dropWhile_cons_of_neg (by simpa using hstop)]
    · have hgo : b ≠ 0 ∧ b ≠ c := not_or.mp hb
      have hs : 0 ∈ s := (List.mem_cons.mp h).resolve_left (Ne.symm hgo.1)
      rw [strfind, if_neg hb, List.dropWhile_cons_of_pos (by simpa using hgo)]
      exact ih hs

/-- `some none` is the null pointer. -/
def strchr (c : Byte) : List Byte → Option (Option (List Byte))
  | [] => none
  | b :: s => if b = 0 then some none else if b = c then some (some (b :: s)) else strchr c s

theorem strchr_isSome (c : Byte) {s : List Byte} (h : ∀ b ∈ s, b ≠ 0) :
    (strchr c (s ++ [0])).map Option.isSome = some (decide (c ∈ s)) := by
  induction s with
  | nil => rfl
  | cons b s ih =>
    rw [List.cons_append, strchr, if_neg (h b List.mem_cons_self)]
    by_cases hb : b = c
    · rw [if_pos hb]
      simp [hb]
    · rw [if_neg hb, ih fun x hx => h x (List.mem_cons_of_mem _ hx)]
      simp [Ne.symm hb]

/-- The string at `p` against one whose bytes are given. -/
def strcmp (m : Memory) (p : Nat) : List Byte → Option Int
  | [] => none
  | b :: q =>
    if m.byte p ≠ 0 ∧ m.byte p = b then strcmp m (p + 1) q else some ((m.byte p).toNat - b.toNat)

theorem byte_sub_eq_zero_iff (a b : Byte) : (a.toNat : Int) - b.toNat = 0 ↔ a = b := by
  rw [Int.sub_eq_zero, Int.ofNat_inj, BitVec.toNat_inj]

theorem strcmp_eq_zero_iff {m : Memory} {p : Nat} {s t : List Byte} (hs : ∀ b ∈ s, b ≠ 0)
    (ht : ∀ b ∈ t, b ≠ 0) (hp : m.view p (s.length + 1) = s ++ [0]) :
    ∃ d, strcmp m p (t ++ [0]) = some d ∧ (d = 0 ↔ s = t) := by
  induction t generalizing p s with
  | nil =>
    refine ⟨(m.byte p).toNat - (0 : Byte).toNat, if_neg fun h => h.1 h.2,
      (byte_sub_eq_zero_iff _ _).trans ?_⟩
    cases s with
    | nil =>
      have hbyte : m.byte p = 0 := (List.cons_eq_cons.mp ((m.view_succ p 0).symm.trans hp)).1
      exact iff_of_true hbyte rfl
    | cons a s =>
      have hbyte : m.byte p = a := (List.cons_eq_cons.mp ((m.view_succ p _).symm.trans hp)).1
      rw [hbyte]
      exact iff_of_false (hs a List.mem_cons_self) (List.cons_ne_nil a s)
  | cons b t ih =>
    have hb : b ≠ 0 := ht b List.mem_cons_self
    cases s with
    | nil =>
      have hbyte : m.byte p = 0 := (List.cons_eq_cons.mp ((m.view_succ p 0).symm.trans hp)).1
      refine ⟨(m.byte p).toNat - b.toNat, if_neg fun h => h.1 hbyte, (byte_sub_eq_zero_iff _ _).trans ?_⟩
      rw [hbyte]
      exact iff_of_false hb.symm (List.cons_ne_nil b t).symm
    | cons a s =>
      obtain ⟨hbyte, hrest⟩ := List.cons_eq_cons.mp ((m.view_succ p _).symm.trans hp)
      have ha : a ≠ 0 := hs a List.mem_cons_self
      by_cases hab : a = b
      · obtain ⟨d, hd, hiff⟩ := ih (fun x hx => hs x (List.mem_cons_of_mem _ hx))
          (fun x hx => ht x (List.mem_cons_of_mem _ hx)) hrest
        refine ⟨d, (if_pos ⟨hbyte.trans_ne ha, hbyte.trans hab⟩).trans hd, hiff.trans ?_⟩
        rw [hab, List.cons_inj_right]
      · refine ⟨(m.byte p).toNat - b.toNat, if_neg fun h => hab (hbyte.symm.trans h.2), ?_⟩
        rw [hbyte, byte_sub_eq_zero_iff]
        exact iff_of_false hab fun h => hab (List.cons_eq_cons.mp h).1

end Jos
