import Jos.Bits
import Jos.StringCopy

/-! `lib/string.c`: the functions that compare strings and memory, in the order of
dictionaries, and the one that looks through memory. -/

namespace Jos

def strncmp (m : Memory) : Nat → Nat → Nat → Int
  | 0, _, _ => 0
  | n + 1, p, q =>
    if m.byte p ≠ 0 ∧ m.byte p = m.byte q then strncmp m n (p + 1) (q + 1)
    else (m.byte p).toNat - (m.byte q).toNat

def memcmp (m : Memory) : Nat → Nat → Nat → Int
  | 0, _, _ => 0
  | n + 1, s1, s2 =>
    if m.byte s1 ≠ m.byte s2 then (m.byte s1).toNat - (m.byte s2).toNat else memcmp m n (s1 + 1) (s2 + 1)

/-- A result of one of the functions tells how `s` stands to `t`. -/
structure Orders (d : Int) (s t : List Byte) : Prop where
  lt : d < 0 ↔ s < t
  eq : d = 0 ↔ s = t

theorem byte_sub_neg_iff (a b : Byte) : (a.toNat : Int) - b.toNat < 0 ↔ a < b := by
  rw [BitVec.lt_def]
  omega

theorem Orders.refl (s : List Byte) : Orders 0 s s :=
  ⟨iff_of_false (by decide) (List.lt_irrefl s), iff_of_true rfl rfl⟩

theorem Orders.cons {d : Int} {s t : List Byte} (h : Orders d s t) (c : Byte) :
    Orders d (c :: s) (c :: t) := by
  refine ⟨h.lt.trans ?_, h.eq.trans (List.cons_inj_right c).symm⟩
  simp

theorem orders_of_ne {a b : Byte} (h : a ≠ b) (s t : List Byte) :
    Orders (a.toNat - b.toNat) (a :: s) (b :: t) := by
  refine ⟨(byte_sub_neg_iff a b).trans ?_, (byte_sub_eq_zero_iff a b).trans ?_⟩
  · simp [List.cons_lt_cons_iff, h]
  · exact iff_of_false h fun he => h (List.cons_eq_cons.mp he).1

theorem orders_nil_cons {c : Byte} (hc : c ≠ 0) (t : List Byte) :
    Orders ((0 : Byte).toNat - c.toNat) [] (c :: t) := by
  have hpos : 0 < c.toNat := Nat.pos_of_ne_zero fun h => hc (BitVec.eq_of_toNat_eq h)
  have hzero : (0 : Byte).toNat = 0 := rfl
  exact ⟨iff_of_true (by omega) (List.nil_lt_cons c t),
    iff_of_false (by omega) (List.cons_ne_nil c t).symm⟩

theorem orders_cons_nil {c : Byte} (hc : c ≠ 0) (s : List Byte) :
    Orders (c.toNat - (0 : Byte).toNat) (c :: s) [] := by
  have hpos : 0 < c.toNat := Nat.pos_of_ne_zero fun h => hc (BitVec.eq_of_toNat_eq h)
  have hzero : (0 : Byte).toNat = 0 := rfl
  exact ⟨iff_of_false (by omega) (List.not_lt_nil _), iff_of_false (by omega) (List.cons_ne_nil c s)⟩

variable {m : Memory} {p q : Nat} {s t : List Byte}

theorem strncmp_orders (n : Nat) (hs : Spells m p s) (ht : Spells m q t) :
    Orders (strncmp m n p q) (s.take n) (t.take n) := by
  induction n generalizing p q s t with
  | zero => exact .refl []
  | succ n ih =>
    cases s with
    | nil =>
      have hstop : strncmp m (n + 1) p q = (0 : Byte).toNat - (m.byte q).toNat := by
        rw [strncmp, if_neg fun h => h.1 hs.nil, hs.nil]
      rw [hstop]
      cases t with
      | nil =>
        rw [ht.nil]
        exact .refl []
      | cons c t =>
        obtain ⟨hbyte, hc, -⟩ := ht.cons
        rw [hbyte]
        exact orders_nil_cons hc _
    | cons a s =>
      obtain ⟨hbyte, ha, hrest⟩ := hs.cons
      cases t with
      | nil =>
        have hstop : strncmp m (n + 1) p q = a.toNat - (0 : Byte).toNat := by
          rw [strncmp, if_neg fun h => h.1 (h.2.trans ht.nil), hbyte, ht.nil]
        rw [hstop]
        exact orders_cons_nil ha _
      | cons b t =>
        obtain ⟨hbyte', hb, hrest'⟩ := ht.cons
        by_cases hab : a = b
        · have hgo : strncmp m (n + 1) p q = strncmp m n (p + 1) (q + 1) :=
            if_pos ⟨hbyte.trans_ne ha, hbyte.trans (hab.trans hbyte'.symm)⟩
          rw [hgo, ← hab]
          exact (ih hrest hrest').cons a
        · have hstop : strncmp m (n + 1) p q = a.toNat - b.toNat := by
            rw [strncmp, if_neg fun h => hab (hbyte.symm.trans (h.2.trans hbyte')), hbyte, hbyte']
          rw [hstop]
          exact orders_of_ne hab _ _

theorem memcmp_orders (m : Memory) (n p q : Nat) :
    Orders (memcmp m n p q) (m.view p n) (m.view q n) := by
  induction n generalizing p q with
  | zero => exact .refl []
  | succ n ih =>
    rw [Memory.view_succ, Memory.view_succ]
    by_cases hne : m.byte p ≠ m.byte q
    · rw [memcmp, if_pos hne]
      exact orders_of_ne hne _ _
    · rw [memcmp, if_neg hne, not_not.mp hne]
      exact (ih _ _).cons _

theorem strcmp_orders (hs : Spells m p s) (ht : ∀ b ∈ t, b ≠ 0) :
    ∃ d, strcmp m p (t ++ [0]) = some d ∧ Orders d s t := by
  induction t generalizing p s with
  | nil =>
    have hstop : strcmp m p ([] ++ [0]) = some (((m.byte p).toNat : Int) - (0 : Byte).toNat) :=
      if_neg fun h => h.1 h.2
    refine ⟨_, hstop, ?_⟩
    cases s with
    | nil =>
      rw [hs.nil]
      exact .refl []
    | cons a s =>
      obtain ⟨hbyte, ha, -⟩ := hs.cons
      rw [hbyte]
      exact orders_cons_nil ha s
  | cons b t ih =>
    have hb := ht b List.mem_cons_self
    cases s with
    | nil =>
      have hstop : strcmp m p (b :: t ++ [0]) = some (((m.byte p).toNat : Int) - b.toNat) :=
        if_neg fun h => h.1 hs.nil
      refine ⟨_, hstop, ?_⟩
      rw [hs.nil]
      exact orders_nil_cons hb t
    | cons a s =>
      obtain ⟨hbyte, ha, hrest⟩ := hs.cons
      by_cases hab : a = b
      · obtain ⟨d, hd, hord⟩ := ih hrest fun x hx => ht x (List.mem_cons_of_mem _ hx)
        exact ⟨d, (if_pos ⟨hbyte.trans_ne ha, hbyte.trans hab⟩).trans hd, hab ▸ hord.cons a⟩
      · have hstop : strcmp m p (b :: t ++ [0]) = some (((m.byte p).toNat : Int) - b.toNat) :=
          if_neg fun h => hab (hbyte.symm.trans h.2)
        refine ⟨_, hstop, ?_⟩
        rw [hbyte]
        exact orders_of_ne hab s t

/-- The three comparisons order strings and memory as dictionaries do, by unsigned
bytes; `strncmp` does so for the first `n` characters. -/
theorem comparisons_order (m : Memory) (p q : Nat) (s t : List Byte) (hs : Spells m p s)
    (ht : Spells m q t) (n : Nat) :
    (∃ d, strcmp m p (t ++ [0]) = some d ∧ Orders d s t) ∧
    Orders (strncmp m n p q) (s.take n) (t.take n) ∧
      Orders (memcmp m n p q) (m.view p n) (m.view q n) :=
  ⟨strcmp_orders hs ht.nonzero, strncmp_orders n hs ht, memcmp_orders m n p q⟩

theorem comparisons_order_ab :
    (∃ d, strcmp (wordAt 100 (cstr "ab")) 100 ((cstr "b").bytes ++ [0]) = some d ∧
        Orders d (cstr "ab").bytes (cstr "b").bytes) ∧
      Orders (strncmp (wordAt 100 (cstr "ab")) 1 100 101) ((cstr "ab").bytes.take 1)
        ((cstr "b").bytes.take 1) ∧
      Orders (memcmp (wordAt 100 (cstr "ab")) 1 100 101) ((wordAt 100 (cstr "ab")).view 100 1)
        ((wordAt 100 (cstr "ab")).view 101 1) :=
  comparisons_order (wordAt 100 (cstr "ab")) 100 101 _ _ ⟨(cstr "ab").nonzero, by decide⟩
    ⟨(cstr "b").nonzero, by decide⟩ 1

/-- The end of the memory that `memfind` looks through is an address. -/
def memfindBody (m : Memory) (c : Byte) (ends s : Word) : Option (Turn Word Word) :=
  some (if s < ends then if m.byte s.toNat = c then .leave s else .again (s + 1) else .leave s)

def memfind (fuel : Nat) (m : Memory) (s c n : Word) : Option Word :=
  loop (memfindBody m (c.setWidth 8) (s + n)) fuel s

/-- Where the first `c` is, or the end of the memory. -/
def firstOf (m : Memory) (c : Byte) (s n : Nat) : Nat :=
  (m.view s n).findIdx (· = c)

theorem firstOf_succ (m : Memory) (c : Byte) (s n : Nat) :
    firstOf m c s (n + 1) = if m.byte s = c then 0 else firstOf m c (s + 1) n + 1 := by
  rw [firstOf, Memory.view_succ, List.findIdx_cons]
  by_cases hc : m.byte s = c <;> simp [hc, firstOf]

theorem memfind_loop {c : Byte} {ends : Word} (k : Nat) {s : Word} (hk : s.toNat + k = ends.toNat)
    {fuel : Nat} (hfuel : k < fuel) :
    loop (memfindBody m c ends) fuel s = some (s + BitVec.ofNat 32 (firstOf m c s.toNat k)) := by
  induction k generalizing s fuel with
  | zero =>
    obtain ⟨fuel, rfl⟩ := Nat.exists_eq_add_one_of_ne_zero (Nat.ne_zero_of_lt hfuel)
    have hend : ¬ s < ends := by
      rw [BitVec.lt_def]
      omega
    refine loop_leave fuel ?_
    rw [memfindBody, if_neg hend]
    simp [firstOf, Memory.view]
  | succ k ih =>
    obtain ⟨fuel, rfl⟩ := Nat.exists_eq_add_one_of_ne_zero (Nat.ne_zero_of_lt hfuel)
    have hin : s < ends := by
      rw [BitVec.lt_def]
      omega
    rw [firstOf_succ]
    by_cases hc : m.byte s.toNat = c
    · have hturn : memfindBody m c ends s = some (.leave s) := by rw [memfindBody, if_pos hin, if_pos hc]
      rw [loop_leave fuel hturn, if_pos hc]
      simp
    · have hturn : memfindBody m c ends s = some (.again (s + 1)) := by
        rw [memfindBody, if_pos hin, if_neg hc]
      have hlt := ends.isLt
      have hnext : (s + 1).toNat = s.toNat + 1 := toNat_add_ofNat_of_lt (k := 1) (by omega)
      rw [loop_again fuel hturn, if_neg hc, ih (by omega) (Nat.lt_of_succ_lt_succ hfuel), hnext,
        BitVec.ofNat_add, BitVec.add_assoc, BitVec.add_comm (1 : Word)]
      rfl

/-- `memfind` finds the first `c`, unless the memory ends at the very top: then it
looks at nothing. -/
theorem memfind_finds_iff (m : Memory) (s c n : Word) (hfits : s.toNat + n.toNat ≤ 2 ^ 32) (fuel : Nat)
    (hfuel : n.toNat < fuel) :
    memfind fuel m s c n = some (s + BitVec.ofNat 32 (firstOf m (c.setWidth 8) s.toNat n.toNat)) ↔
      s.toNat + n.toNat < 2 ^ 32 ∨ firstOf m (c.setWidth 8) s.toNat n.toNat = 0 := by
  by_cases hwrap : s.toNat + n.toNat < 2 ^ 32
  · refine iff_of_true (memfind_loop n.toNat ?_ hfuel) (.inl hwrap)
    rw [BitVec.toNat_add_of_lt hwrap]
  · have hend : (s + n).toNat = 0 := by
      have htop : s.toNat + n.toNat = 2 ^ 32 := by omega
      rw [BitVec.toNat_add, htop, Nat.mod_self]
    have hstop : ¬ s < s + n := by
      rw [BitVec.lt_def, hend]
      exact Nat.not_lt_zero _
    obtain ⟨fuel, rfl⟩ := Nat.exists_eq_add_one_of_ne_zero (Nat.ne_zero_of_lt hfuel)
    have hcall : memfind (fuel + 1) m s c n = some s := loop_leave fuel (congrArg some (if_neg hstop))
    have hle : firstOf m (c.setWidth 8) s.toNat n.toNat ≤ (m.view s.toNat n.toNat).length :=
      List.findIdx_le_length
    have hn := n.isLt
    rw [Memory.view_length] at hle
    rw [hcall, or_iff_right hwrap]
    generalize firstOf m (c.setWidth 8) s.toNat n.toNat = first at hle
    constructor
    · intro h
      have hsame := congrArg BitVec.toNat (BitVec.self_eq_add_right.mp (Option.some.inj h))
      rw [BitVec.toNat_ofNat, Nat.mod_eq_of_lt (by omega)] at hsame
      exact hsame
    · rintro rfl
      simp

/-- The last four bytes of the memory, and no `b` first. -/
theorem memfind_finds_iff_top :
    memfind 5 (wordAt 0xFFFFFFFC (cstr "ab")) 0xFFFFFFFC 0x62 4 =
        some (0xFFFFFFFC + BitVec.ofNat 32 (firstOf (wordAt 0xFFFFFFFC (cstr "ab")) 0x62 0xFFFFFFFC 4)) ↔
      0xFFFFFFFC + 4 < 2 ^ 32 ∨ firstOf (wordAt 0xFFFFFFFC (cstr "ab")) 0x62 0xFFFFFFFC 4 = 0 :=
  memfind_finds_iff (wordAt 0xFFFFFFFC (cstr "ab")) 0xFFFFFFFC 0x62 4 (by decide) 5 (by decide)

end Jos
