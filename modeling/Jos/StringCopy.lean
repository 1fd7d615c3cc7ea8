import Jos.Runcmd

/-! `lib/string.c`: the functions that copy strings. A string copied into itself
past its start is copied for ever. -/

namespace Jos

def strlenBody (m : Memory) (st : Nat × Nat) : Option (Turn (Nat × Nat) Nat) :=
  some (if m.byte st.2 ≠ 0 then .again (st.1 + 1, st.2 + 1) else .leave st.1)

/-- For strings whose length is an `int`. -/
def strlen (fuel : Nat) (m : Memory) (s : Nat) : Option Nat :=
  loop (strlenBody m) fuel (0, s)

structure Copying where
  mem : Memory
  dst : Nat
  src : Nat

def strcpyBody (st : Copying) : Option (Turn Copying Memory) :=
  let c := st.mem.byte st.src
  let mem := st.mem.store st.dst c
  some (if c ≠ 0 then .again ⟨mem, st.dst + 1, st.src + 1⟩ else .leave mem)

def strcpy (fuel : Nat) (m : Memory) (dst src : Nat) : Option Memory :=
  loop strcpyBody fuel ⟨m, dst, src⟩

def strcat (fuel : Nat) (m : Memory) (dst src : Nat) : Option Memory :=
  (strlen fuel m dst).bind fun len => strcpy fuel m (dst + len) src

/-- `n` more bytes are stored. -/
def strncpy : Nat → Memory → Nat → Nat → Memory
  | 0, m, _, _ => m
  | n + 1, m, dst, src =>
    let m := m.store dst (m.byte src)
    strncpy n m (dst + 1) (if m.byte src ≠ 0 then src + 1 else src)

/-- The loop of `strlcpy`, which stores at most `n` bytes. -/
def strlcpyLoop : Nat → Memory → Nat → Nat → Memory × Nat
  | 0, m, dst, _ => (m, dst)
  | n + 1, m, dst, src =>
    if m.byte src ≠ 0 then strlcpyLoop n (m.store dst (m.byte src)) (dst + 1) (src + 1) else (m, dst)

def strlcpy (m : Memory) (dst src size : Nat) : Memory × Nat :=
  if size > 0 then
    let r := strlcpyLoop (size - 1) m dst src
    (r.1.store r.2 0, r.2 - dst)
  else (m, 0)

variable {m : Memory} {dst src : Nat} {c : Byte} {d s : List Byte}

theorem Spells.of_cons (hbyte : m.byte dst = c) (hc : c ≠ 0) (h : Spells m (dst + 1) s) :
    Spells m dst (c :: s) := by
  refine ⟨fun b hb => ?_, by rw [List.length_cons, m.view_succ, hbyte, h.bytes, List.cons_append]⟩
  rcases List.mem_cons.mp hb with rfl | hb
  · exact hc
  · exact h.nonzero b hb

theorem strlen_eq (h : Spells m src s) (n : Nat) {fuel : Nat} (hfuel : s.length < fuel) :
    loop (strlenBody m) fuel (n, src) = some (n + s.length) := by
  induction s generalizing src n fuel with
  | nil =>
    obtain ⟨fuel, rfl⟩ := Nat.exists_eq_add_one_of_ne_zero (Nat.ne_zero_of_lt hfuel)
    exact loop_leave fuel (by simp [strlenBody, h.nil])
  | cons c s ih =>
    obtain ⟨fuel, rfl⟩ := Nat.exists_eq_add_one_of_ne_zero (Nat.ne_zero_of_lt hfuel)
    obtain ⟨hbyte, hc, hrest⟩ := h.cons
    have hturn : strlenBody m (n, src) = some (.again (n + 1, src + 1)) :=
      congrArg some (if_pos (hbyte.trans_ne hc))
    rw [loop_again fuel hturn, ih hrest _ (Nat.lt_of_succ_lt_succ hfuel), List.length_cons]
    congr 1
    omega

theorem strlen_length (h : Spells m src s) {fuel len : Nat} (hlen : strlen fuel m src = some len) :
    len = s.length := by
  obtain ⟨hview, hnul⟩ := h.view_end
  refine loop_partial (· = s.length) (fun st : Nat × Nat => st.2 = src + st.1 ∧ st.1 ≤ s.length) ?_ ?_
    ⟨rfl, Nat.zero_le _⟩ hlen
  · rintro ⟨n, p⟩ st' ⟨hp, hn⟩ hturn
    dsimp only at hp hn
    unfold strlenBody at hturn
    split_ifs at hturn with hc
    · cases hturn
      have hne : n ≠ s.length := by
        rintro rfl
        exact hc (hp ▸ hnul)
      exact ⟨by dsimp only; omega, by dsimp only; omega⟩
    · cases hturn
  · rintro ⟨n, p⟩ r ⟨hp, hn⟩ hturn
    dsimp only at hp hn
    unfold strlenBody at hturn
    split_ifs at hturn with hc
    · cases hturn
    · cases hturn
      by_contra hne
      have hmem : m.byte p ∈ s := by
        rw [← hview, hp]
        exact List.mem_map.mpr ⟨n, List.mem_range.mpr (by dsimp only at hne; omega), rfl⟩
      exact hc (h.nonzero _ hmem)

/-- The copy starts inside the string, or on its NUL. -/
def IntoItself (dst src : Nat) (s : List Byte) : Prop :=
  src < dst ∧ dst ≤ src + s.length

instance (dst src : Nat) (s : List Byte) : Decidable (IntoItself dst src s) :=
  inferInstanceAs (Decidable (_ ∧ _))

theorem strcpy_copies (h : Spells m src s) (hover : ¬ IntoItself dst src s) {fuel : Nat}
    (hfuel : s.length < fuel) :
    ∃ m', strcpy fuel m dst src = some m' ∧ Spells m' dst s ∧
    Memory.Within dst (dst + s.length + 1) m m' := by
  induction s generalizing m dst src fuel with
  | nil =>
    obtain ⟨fuel, rfl⟩ := Nat.exists_eq_add_one_of_ne_zero (Nat.ne_zero_of_lt hfuel)
    refine ⟨m.store dst 0, loop_leave fuel (by simp [strcpyBody, h.nil]), ?_,
      Memory.within_store m 0 le_rfl (by simp)⟩
    exact .of_view (by simp) rfl (m.store_byte_same dst 0)
  | cons c s ih =>
    obtain ⟨fuel, rfl⟩ := Nat.exists_eq_add_one_of_ne_zero (Nat.ne_zero_of_lt hfuel)
    obtain ⟨hbyte, hc, hrest⟩ := h.cons
    simp only [IntoItself, List.length_cons] at hover
    have hturn : strcpyBody ⟨m, dst, src⟩ = some (.again ⟨m.store dst c, dst + 1, src + 1⟩) := by
      rw [strcpyBody]
      dsimp only
      rw [hbyte, if_pos hc]
    have hspells : Spells (m.store dst c) (src + 1) s :=
      hrest.congr fun a ha hle => Memory.store_byte_ne (by omega)
    have hnext : ¬ IntoItself (dst + 1) (src + 1) s := by
      unfold IntoItself
      omega
    obtain ⟨m', hloop, hcopy, hwithin⟩ := ih hspells hnext (Nat.lt_of_succ_lt_succ hfuel)
    refine ⟨m', (loop_again fuel hturn).trans hloop, hcopy.of_cons ?_ hc, ?_⟩
    · rw [hwithin.frame dst (by omega)]
      exact m.store_byte_same dst c
    · rw [List.length_cons]
      exact (Memory.within_store m c le_rfl (by omega)).trans (hwithin.mono (by omega) (by omega))

/-- The gap between the pointers stays, and no NUL ever comes into it. -/
theorem strcpy_endless (h : Spells m src s) (hover : IntoItself dst src s) (fuel : Nat) :
    strcpy fuel m dst src = none := by
  refine loop_endless (fun st => st.src < st.dst ∧ ∀ a, st.src ≤ a → a < st.dst →
    st.mem.byte a ≠ 0) ?_ ?_ fuel
  · rintro ⟨mem, dst, src⟩ ⟨hlt, hgap⟩
    dsimp only at hlt hgap
    have hc := hgap src le_rfl hlt
    refine ⟨⟨mem.store dst (mem.byte src), dst + 1, src + 1⟩, congrArg some (if_pos hc),
      Nat.succ_lt_succ hlt, ?_⟩
    intro a ha hlt'
    dsimp only at ha hlt' ⊢
    by_cases hdst : a = dst
    · rw [hdst, Memory.store_byte_same]
      exact hc
    · rw [Memory.store_byte_ne hdst]
      exact hgap a (by omega) (by omega)
  · obtain ⟨hlt, hle⟩ := hover
    refine ⟨hlt, fun a ha hlt' => ?_⟩
    dsimp only at ha hlt' ⊢
    obtain ⟨j, rfl⟩ := Nat.exists_eq_add_of_le ha
    have hmem : m.byte (src + j) ∈ s := by
      rw [← h.view_end.1]
      exact List.mem_map.mpr ⟨j, List.mem_range.mpr (by omega), rfl⟩
    exact h.nonzero _ hmem

/-- `strcat` appends, and stores only from the NUL of `dst` on; it does not end when
that NUL is in the string appended. -/
theorem strcat_appends (m : Memory) (dst src : Nat) (d s : List Byte) (hd : Spells m dst d)
    (hs : Spells m src s) :
    (IntoItself (dst + d.length) src s → ∀ fuel, strcat fuel m dst src = none) ∧
      (¬ IntoItself (dst + d.length) src s → ∀ fuel, d.length < fuel → s.length < fuel →
        ∃ m', strcat fuel m dst src = some m' ∧ Spells m' dst (d ++ s) ∧
          Memory.Within (dst + d.length) (dst + d.length + s.length + 1) m m') := by
  constructor
  · intro hover fuel
    cases hlen : strlen fuel m dst with
    | none => rw [strcat, hlen, Option.bind_none]
    | some len =>
      rw [strcat, hlen, Option.bind_some, strlen_length hd hlen]
      exact strcpy_endless hs hover fuel
  · intro hover fuel hdfuel hsfuel
    have hlen : strlen fuel m dst = some d.length := (strlen_eq hd 0 hdfuel).trans (by rw [Nat.zero_add])
    obtain ⟨m', hcopy, hspells, hwithin⟩ := strcpy_copies hs hover hsfuel
    refine ⟨m', by rw [strcat, hlen, Option.bind_some, hcopy], .of_view ?_ ?_ ?_, hwithin⟩
    · intro b hb
      exact (List.mem_append.mp hb).elim (hd.nonzero b) (hs.nonzero b)
    · have hkept : m'.view dst d.length = d :=
        (Memory.view_congr fun a _ hlt => hwithin.frame a (.inl hlt)).trans hd.view_end.1
      rw [List.length_append, Memory.view_add, hkept, hspells.view_end.1]
    · rw [List.length_append, ← Nat.add_assoc]
      exact hspells.view_end.2

def wordAt (p : Nat) (s : CString) : Memory :=
  ⟨fun a => if p ≤ a then s.bytes.getD (a - p) 0 else 0, []⟩

/-- `strcat(s, s)` -/
theorem strcat_appends_itself : ¬ ∃ fuel m, strcat fuel (wordAt 100 (cstr "ab")) 100 100 = some m := by
  have hs : Spells (wordAt 100 (cstr "ab")) 100 (cstr "ab").bytes := ⟨(cstr "ab").nonzero, by decide⟩
  rintro ⟨fuel, m, hcopy⟩
  rw [(strcat_appends _ 100 100 _ _ hs hs).1 (by decide) fuel] at hcopy
  cases hcopy

theorem strlcpyLoop_spec (n : Nat) (m : Memory) (dst src : Nat) :
    ∃ t : List Byte, (strlcpyLoop n m dst src).2 = dst + t.length ∧ t.length ≤ n ∧ (∀ b ∈ t, b ≠ 0) ∧
      (strlcpyLoop n m dst src).1.view dst t.length = t ∧
      Memory.Within dst (dst + t.length) m (strlcpyLoop n m dst src).1 ∧
      ∀ s, Spells m src s → ¬ IntoItself dst src s → t = s.take n := by
  induction n generalizing m dst src with
  | zero => exact ⟨[], rfl, le_rfl, by simp, rfl, .refl _ _ _, fun s _ _ => rfl⟩
  | succ n ih =>
    by_cases hc : m.byte src ≠ 0
    · obtain ⟨t, hend, hlen, hne, hview, hwithin, hcopy⟩ := ih (m.store dst (m.byte src)) (dst + 1)
        (src + 1)
      have hloop : strlcpyLoop (n + 1) m dst src =
        strlcpyLoop n (m.store dst (m.byte src)) (dst + 1) (src + 1) :=
        if_pos hc
      rw [hloop]
      refine ⟨m.byte src :: t, by rw [hend, List.length_cons]; omega, by simpa using hlen, ?_, ?_,
        ?_, ?_⟩
      · intro b hb
        rcases List.mem_cons.mp hb with rfl | hb
        · exact hc
        · exact hne b hb
      · rw [List.length_cons, Memory.view_succ, hview, hwithin.frame dst (by omega),
          Memory.store_byte_same]
      · rw [List.length_cons]
        exact (Memory.within_store m _ le_rfl (by omega)).trans (hwithin.mono (by omega) (by omega))
      · intro s hs hover
        cases s with
        | nil => exact absurd hs.nil hc
        | cons c s =>
          obtain ⟨hbyte, -, hrest⟩ := hs.cons
          simp only [IntoItself, List.length_cons] at hover
          have hspells : Spells (m.store dst (m.byte src)) (src + 1) s :=
            hrest.congr fun a ha hle => Memory.store_byte_ne (by omega)
          have hnext : ¬ IntoItself (dst + 1) (src + 1) s := by
            unfold IntoItself
            omega
          rw [List.take_succ_cons, ← hcopy s hspells hnext, hbyte]
    · have hloop : strlcpyLoop (n + 1) m dst src = (m, dst) := if_neg hc
      rw [hloop]
      refine ⟨[], rfl, Nat.zero_le _, by simp, rfl, .refl _ _ _, fun s hs _ => ?_⟩
      cases s with
      | nil => rfl
      | cons c s =>
        obtain ⟨hbyte, hne, -⟩ := hs.cons
        exact absurd (hbyte.trans_ne hne) hc

/-- Whatever `src` points to, `strlcpy` leaves a string of the length it returns, less
than `size`, and stores nothing past it; a string apart from `dst` it cuts short. -/
theorem strlcpy_terminates (m : Memory) (dst src size : Nat) (hsize : 0 < size) :
    ∃ t, (strlcpy m dst src size).2 = t.length ∧ t.length < size ∧
      Spells (strlcpy m dst src size).1 dst t ∧
      Memory.Within dst (dst + t.length + 1) m (strlcpy m dst src size).1 ∧
      ∀ s, Spells m src s → ¬ IntoItself dst src s → t = s.take (size - 1) := by
  obtain ⟨t, hend, hlen, hne, hview, hwithin, hcopy⟩ := strlcpyLoop_spec (size - 1) m dst src
  have hcall : strlcpy m dst src size =
    ((strlcpyLoop (size - 1) m dst src).1.store (dst + t.length) 0, t.length) := by
    rw [strlcpy, if_pos hsize]
    dsimp only
    rw [hend, Nat.add_sub_cancel_left]
  rw [hcall]
  refine ⟨t, rfl, by omega, .of_view hne ?_ (Memory.store_byte_same _ _ _), ?_, hcopy⟩
  · exact (Memory.view_congr fun a _ hlt => Memory.store_byte_ne (by omega)).trans hview
  · exact (hwithin.mono le_rfl (by omega)).trans (Memory.within_store _ _ (by omega) (by omega))

theorem strlcpy_terminates_three :
    ∃ t, (strlcpy (wordAt 100 (cstr "abc")) 200 100 3).2 = t.length ∧ t.length < 3 ∧
      Spells (strlcpy (wordAt 100 (cstr "abc")) 200 100 3).1 200 t ∧
      Memory.Within 200 (200 + t.length + 1) (wordAt 100 (cstr "abc"))
        (strlcpy (wordAt 100 (cstr "abc")) 200 100 3).1 ∧
      ∀ s, Spells (wordAt 100 (cstr "abc")) 100 s → ¬ IntoItself 200 100 s → t = s.take (3 - 1) :=
  strlcpy_terminates _ 200 100 3 (by decide)

theorem strncpy_spec (n : Nat) (hs : Spells m src s) (hover : ¬ IntoItself dst src s) :
    (strncpy n m dst src).view dst n = (s ++ List.replicate n 0).take n ∧
      Memory.Within dst (dst + n) m (strncpy n m dst src) := by
  induction n generalizing m dst src s with
  | zero => exact ⟨rfl, .refl _ _ _⟩
  | succ n ih =>
    cases s with
    | nil =>
      have hsame : (m.store dst 0).byte src = 0 := by
        by_cases hsrc : src = dst
        · rw [hsrc, Memory.store_byte_same]
        · rw [Memory.store_byte_ne hsrc, hs.nil]
      have hcall : strncpy (n + 1) m dst src = strncpy n (m.store dst 0) (dst + 1) src := by
        simp only [strncpy, hs.nil, hsame, ne_eq, not_true, if_false]
      have hspells : Spells (m.store dst 0) src [] := .of_view (by simp) rfl hsame
      have hnext : ¬ IntoItself (dst + 1) src [] := by
        simp only [IntoItself, List.length_nil]
        omega
      obtain ⟨hview, hwithin⟩ := ih hspells hnext
      rw [hcall]
      refine ⟨?_, (Memory.within_store m _ le_rfl (by omega)).trans (hwithin.mono (by omega) (by omega))⟩
      rw [Memory.view_succ, hview, hwithin.frame dst (by omega), Memory.store_byte_same]
      rfl
    | cons c s =>
      obtain ⟨hbyte, hc, hrest⟩ := hs.cons
      simp only [IntoItself, List.length_cons] at hover
      have hsame : (m.store dst c).byte src = c := by
        by_cases hsrc : src = dst
        · rw [hsrc, Memory.store_byte_same]
        · rw [Memory.store_byte_ne hsrc, hbyte]
      have hcall : strncpy (n + 1) m dst src = strncpy n (m.store dst c) (dst + 1) (src + 1) := by
        simp only [strncpy, hbyte, hsame, if_pos hc]
      have hspells : Spells (m.store dst c) (src + 1) s :=
        hrest.congr fun a ha hle => Memory.store_byte_ne (by omega)
      have hnext : ¬ IntoItself (dst + 1) (src + 1) s := by
        unfold IntoItself
        omega
      obtain ⟨hview, hwithin⟩ := ih hspells hnext
      rw [hcall]
      refine ⟨?_, (Memory.within_store m _ le_rfl (by omega)).trans (hwithin.mono (by omega) (by omega))⟩
      have htake : ((s ++ List.replicate n 0) ++ [0]).take n = (s ++ List.replicate n 0).take n :=
        List.take_append_of_le_length (by simp)
      rw [Memory.view_succ, hview, hwithin.frame dst (by omega), Memory.store_byte_same,
        List.replicate_succ', List.cons_append, List.take_succ_cons, ← List.append_assoc, htake]

/-- `strncpy` stores just `n` bytes: the string, and NULs after it if it is shorter.
Only then is there a string. -/
theorem strncpy_pads (m : Memory) (dst src : Nat) (s : List Byte) (n : Nat) (hs : Spells m src s)
    (hover : ¬ IntoItself dst src s) :
    (strncpy n m dst src).view dst n = (s ++ List.replicate n 0).take n ∧
      Memory.Within dst (dst + n) m (strncpy n m dst src) ∧
      ((∃ t, Spells (strncpy n m dst src) dst t ∧ t.length < n) ↔ s.length < n) := by
  obtain ⟨hview, hwithin⟩ := strncpy_spec n hs hover
  have hbyte : ∀ j < n, (s ++ List.replicate n 0)[j]? = some ((strncpy n m dst src).byte (dst + j)) := by
    intro j hj
    have hj' := congrArg (·[j]?) hview
    rw [List.getElem?_take_of_lt hj, List.getElem?_eq_getElem (by simpa using hj),
      Memory.view_getElem] at hj'
    exact hj'.symm
  refine ⟨hview, hwithin, ?_, fun hlt => ⟨s, .of_view hs.nonzero ?_ ?_, hlt⟩⟩
  · rintro ⟨t, ht, hlt⟩
    by_contra hle
    have hnul := hbyte t.length hlt
    rw [ht.view_end.2, List.getElem?_append_left (by omega)] at hnul
    exact hs.nonzero 0 (List.mem_of_getElem? hnul) rfl
  · refine List.ext_getElem (by simp) fun j _ hj => ?_
    have hchar := hbyte j (by omega)
    rw [List.getElem?_append_left hj, List.getElem?_eq_getElem hj] at hchar
    rw [Memory.view_getElem, Option.some.inj hchar]
  · have hnul := hbyte s.length hlt
    rw [List.getElem?_append_right le_rfl, Nat.sub_self, List.getElem?_replicate,
      if_pos (by omega)] at hnul
    exact (Option.some.inj hnul).symm

theorem strncpy_pads_four :
    (strncpy 4 (wordAt 100 (cstr "ab")) 200 100).view 200 4 =
        ((cstr "ab").bytes ++ List.replicate 4 0).take 4 ∧
      Memory.Within 200 (200 + 4) (wordAt 100 (cstr "ab")) (strncpy 4 (wordAt 100 (cstr "ab")) 200 100) ∧
      ((∃ t, Spells (strncpy 4 (wordAt 100 (cstr "ab")) 200 100) 200 t ∧ t.length < 4) ↔
        (cstr "ab").bytes.length < 4) :=
  strncpy_pads _ 200 100 _ 4 ⟨(cstr "ab").nonzero, by decide⟩ (by decide)

end Jos
