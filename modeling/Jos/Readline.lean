import Jos.Printf

/-! `lib/readline.c` against the rules of a line editor. The two part ways when
DEL is typed on an empty line, where the code stores it like a letter. -/

namespace Jos

def BUFLEN : Nat := 1024

/-- `kern/console.c` -/
def iscons (_fdnum : Int) : Int := 1

structure Reading where
  buf : Nat → Byte
  i : Nat
  con : Console

def echo (echoing c : Int) (con : Console) : Console :=
  if echoing ≠ 0 then cputchar (BitVec.ofInt 32 c) con else con

def setBuf (buf : Nat → Byte) (i : Nat) (b : Byte) : Nat → Byte :=
  fun j => if j = i then b else buf j

/-- One turn of the loop; `c` is what `getchar` returns. It leaves with NULL or `buf`. -/
def readlineTurn (rom : Rom) (echoing c : Int) (st : Reading) :
    Option (Turn Reading (Option (Nat → Byte) × Console)) :=
  if c < 0 then
    (cprintf rom (cstr "read error: %e\n") [BitVec.ofInt 32 c] st.con).map fun r =>
      .leave (none, r.2.console)
  else if (c = 0x08 ∨ c = 0x7F) ∧ st.i > 0 then
    some (.again { st with con := echo echoing 0x08 st.con, i := st.i - 1 })
  else if c ≥ 0x20 ∧ st.i < BUFLEN - 1 then
    some (.again ⟨setBuf st.buf st.i (BitVec.ofInt 8 c), st.i + 1, echo echoing c st.con⟩)
  else if c = 0x0A ∨ c = 0x0D then
    some (.leave (some (setBuf st.buf st.i 0), echo echoing 0x0A st.con))
  else some (.again st)

/-- The loop over the answers of `getchar`; without another one it waits. -/
def readlineLoop (rom : Rom) (echoing : Int) :
    List Int → Reading → Option (Option (Nat → Byte) × Console)
  | [], _ => none
  | c :: cs, st => (readlineTurn rom echoing c st).bind fun
    | .leave r => some r
    | .again st => readlineLoop rom echoing cs st

def readline (rom : Rom) (prompt : Word) (cs : List Int) (buf : Nat → Byte) (con : Console) :
    Option (Option (Nat → Byte) × Console) :=
  (if prompt ≠ 0 then (cprintf rom (cstr "%s") [prompt] con).map fun r => r.2.console
    else some con).bind fun con => readlineLoop rom (iscons 0) cs ⟨buf, 0, con⟩

def lineOf (buf : Nat → Byte) : List Byte :=
  ((List.range BUFLEN).map buf).takeWhile (· ≠ 0)

def DEL : Byte :=
  0x7F

def IsErase (c : Byte) : Prop :=
  c = 0x08 ∨ c = DEL

instance (c : Byte) : Decidable (IsErase c) :=
  inferInstanceAs (Decidable (_ ∨ _))

def IsPrint (c : Byte) : Prop :=
  0x20 ≤ c

instance (c : Byte) : Decidable (IsPrint c) :=
  inferInstanceAs (Decidable (_ ≤ _))

def editKey (text : List Byte) (c : Byte) : List Byte :=
  if IsErase c then text.dropLast
  else if IsPrint c then if text.length < BUFLEN - 1 then text ++ [c] else text
  else text

/-- An erase key on an empty line goes on to the branch for printable ones. -/
def storeKey (text : List Byte) (c : Byte) : List Byte :=
  if IsErase c ∧ text ≠ [] then text.dropLast
  else if IsPrint c ∧ text.length < BUFLEN - 1 then text ++ [c]
  else text

/-- The line that the branches build of the keys. -/
def stored (keys : List Byte) : List Byte :=
  keys.foldl storeKey []

def IsKey (c : Byte) : Prop :=
  c ≠ 0 ∧ c ≠ 0x0A ∧ c ≠ 0x0D

instance (c : Byte) : Decidable (IsKey c) :=
  inferInstanceAs (Decidable (_ ∧ _))

def typed (keys : List Byte) (last : Byte) : List Int :=
  (keys ++ [last]).map fun c => (c.toNat : Int)

/-- `readline` returns the line of the rules, and no erase key is in it. -/
def EditsRight (rom : Rom) (prompt : Word) (keys : List Byte) (last : Byte) (buf : Nat → Byte)
    (con : Console) : Prop :=
  ∃ buf' con', readline rom prompt (typed keys last) buf con = some (some buf', con') ∧
    lineOf buf' = keys.foldl editKey [] ∧ ∀ c ∈ lineOf buf', ¬ IsErase c

structure Stored (st : Reading) (text : List Byte) : Prop where
  i : st.i = text.length
  room : text.length < BUFLEN
  chars : ∀ j (h : j < text.length), st.buf j = text[j]
  nonzero : ∀ c ∈ text, c ≠ 0

theorem getchar_eq_iff (c b : Byte) : (c.toNat : Int) = b.toNat ↔ c = b := by
  rw [Int.ofNat_inj, BitVec.toNat_inj]

theorem getchar_isErase (c : Byte) : ((c.toNat : Int) = 0x08 ∨ (c.toNat : Int) = 0x7F) ↔ IsErase c :=
  or_congr (getchar_eq_iff c 0x08) (getchar_eq_iff c DEL)

theorem getchar_printable (c : Byte) : (c.toNat : Int) ≥ 0x20 ↔ IsPrint c := by
  rw [IsPrint, BitVec.le_def]
  exact Int.ofNat_le

theorem Stored.pop {st : Reading} {text : List Byte} (h : Stored st text) (con : Console) :
    Stored { st with con := con, i := st.i - 1 } text.dropLast := by
  refine ⟨by simp [h.i], ?_, fun j hj => ?_, fun c hc => h.nonzero c (List.mem_of_mem_dropLast hc)⟩
  · have := h.room
    rw [List.length_dropLast]
    omega
  · rw [List.getElem_dropLast]
    exact h.chars j _

theorem Stored.push {st : Reading} {text : List Byte} (h : Stored st text) {c : Byte} (hc : c ≠ 0)
    (hroom : text.length < BUFLEN - 1) (con : Console) :
    Stored ⟨setBuf st.buf st.i c, st.i + 1, con⟩ (text ++ [c]) := by
  refine ⟨by simp [h.i], by rw [List.length_append, List.length_singleton]; omega, fun j hj => ?_, ?_⟩
  · rcases Nat.lt_succ_iff_lt_or_eq.mp (by simpa using hj) with hj' | rfl
    · have hne : j ≠ st.i := by rw [h.i]; omega
      simp only [setBuf, if_neg hne, List.getElem_append_left hj']
      exact h.chars j hj'
    · simp [setBuf, h.i]
  · intro b hb
    rcases List.mem_append.mp hb with hb | hb
    · exact h.nonzero b hb
    · exact List.mem_singleton.mp hb ▸ hc

/-- What a turn does that does not end the line. -/
inductive KeyTurn (echoing : Int) (c : Byte) (st : Reading) : Reading → Prop where
  | erase (hc : IsErase c) (hi : st.i > 0) :
      KeyTurn echoing c st { st with con := echo echoing 0x08 st.con, i := st.i - 1 }
  | store (hc : ¬ (IsErase c ∧ st.i > 0)) (hp : IsPrint c) (hi : st.i < BUFLEN - 1) :
      KeyTurn echoing c st ⟨setBuf st.buf st.i c, st.i + 1, echo echoing c.toNat st.con⟩
  | ignore (hc : ¬ (IsErase c ∧ st.i > 0)) (hp : ¬ (IsPrint c ∧ st.i < BUFLEN - 1)) :
      KeyTurn echoing c st st

theorem readlineTurn_key (rom : Rom) (echoing : Int) (st : Reading) {c : Byte} (hc : IsKey c) :
    ∃ st', readlineTurn rom echoing c.toNat st = some (.again st') ∧ KeyTurn echoing c st st' := by
  have hpos : ¬ (c.toNat : Int) < 0 := by omega
  have hend : ¬ ((c.toNat : Int) = 0x0A ∨ (c.toNat : Int) = 0x0D) := fun he =>
    he.elim (fun he => hc.2.1 ((getchar_eq_iff c 0x0A).mp he))
      (fun he => hc.2.2 ((getchar_eq_iff c 0x0D).mp he))
  simp only [readlineTurn, if_neg hpos, getchar_isErase, getchar_printable]
  by_cases herase : IsErase c ∧ st.i > 0
  · rw [if_pos herase]
    exact ⟨_, rfl, .erase herase.1 herase.2⟩
  rw [if_neg herase]
  by_cases hprint : IsPrint c ∧ st.i < BUFLEN - 1
  · rw [if_pos hprint]
    have hbyte : BitVec.ofInt 8 (c.toNat : Int) = c := by simp
    rw [hbyte]
    exact ⟨_, rfl, .store herase hprint.1 hprint.2⟩
  · rw [if_neg hprint, if_neg hend]
    exact ⟨_, rfl, .ignore herase hprint⟩

theorem Stored.turn {echoing : Int} {st st' : Reading} {text : List Byte} (h : Stored st text)
    {c : Byte} (hc : c ≠ 0) (hst : KeyTurn echoing c st st') : Stored st' (storeKey text c) := by
  have hne : st.i > 0 ↔ text ≠ [] := by rw [h.i]; exact List.length_pos_iff
  cases hst with
  | erase hc hi =>
    rw [storeKey, if_pos ⟨hc, hne.mp hi⟩]
    exact h.pop _
  | store herase hp hi =>
    rw [h.i] at hi
    rw [hne] at herase
    rw [storeKey, if_neg herase, if_pos ⟨hp, hi⟩]
    exact h.push hc hi _
  | ignore herase hp =>
    rw [h.i] at hp
    rw [hne] at herase
    rw [storeKey, if_neg herase, if_neg hp]
    exact h

theorem Stored.key (rom : Rom) (echoing : Int) {st : Reading} {text : List Byte} (h : Stored st text)
    {c : Byte} (hc : IsKey c) :
    ∃ st', readlineTurn rom echoing c.toNat st = some (.again st') ∧ Stored st' (storeKey text c) := by
  obtain ⟨st', hturn, hst'⟩ := readlineTurn_key rom echoing st hc
  exact ⟨st', hturn, h.turn hc.1 hst'⟩

theorem lineOf_setBuf {st : Reading} {text : List Byte} (h : Stored st text) :
    lineOf (setBuf st.buf st.i 0) = text := by
  obtain ⟨k, hk⟩ := Nat.exists_eq_add_of_le (show text.length + 1 ≤ BUFLEN from h.room)
  have hline : (List.range text.length).map (setBuf st.buf st.i 0) = text := by
    refine List.ext_getElem (by simp) fun j h₁ h₂ => ?_
    have hne : j ≠ st.i := by rw [h.i]; omega
    simp [setBuf, hne, h.chars j h₂]
  rw [lineOf, hk, List.range_add, List.range_succ, List.map_append, List.map_append, hline,
    List.append_assoc, List.takeWhile_append_of_pos (by simpa using h.nonzero)]
  simp [setBuf, h.i]

theorem readlineTurn_newline (rom : Rom) (echoing : Int) (st : Reading) {c : Byte}
    (hc : c = 0x0A ∨ c = 0x0D) :
    readlineTurn rom echoing c.toNat st =
      some (.leave (some (setBuf st.buf st.i 0), echo echoing 0x0A st.con)) := by
  have hpos : ¬ (c.toNat : Int) < 0 := by omega
  have herase : ¬ IsErase c := by rcases hc with rfl | rfl <;> decide
  have hprint : ¬ IsPrint c := by rcases hc with rfl | rfl <;> decide
  have hend : (c.toNat : Int) = 0x0A ∨ (c.toNat : Int) = 0x0D :=
    hc.imp (getchar_eq_iff c 0x0A).mpr (getchar_eq_iff c 0x0D).mpr
  simp only [readlineTurn, if_neg hpos, getchar_isErase, getchar_printable, herase, hprint,
    false_and, if_false, if_pos hend]

theorem Stored.finish (rom : Rom) (echoing : Int) {st : Reading} {text : List Byte} (h : Stored st text)
    {c : Byte} (hc : c = 0x0A ∨ c = 0x0D) :
    ∃ buf con, readlineTurn rom echoing c.toNat st = some (.leave (some buf, con)) ∧ lineOf buf = text :=
  ⟨_, _, readlineTurn_newline rom echoing st hc, lineOf_setBuf h⟩

theorem Stored.loop (rom : Rom) (echoing : Int) {keys : List Byte} (hkeys : ∀ c ∈ keys, IsKey c)
    {last : Byte} (hlast : last = 0x0A ∨ last = 0x0D) {st : Reading} {text : List Byte}
    (h : Stored st text) :
    ∃ buf con, readlineLoop rom echoing (typed keys last) st =
      some (some buf, con) ∧ lineOf buf = keys.foldl storeKey text := by
  induction keys generalizing st text with
  | nil =>
    obtain ⟨buf, con, hturn, hline⟩ := h.finish rom echoing hlast
    exact ⟨buf, con, by simp [typed, readlineLoop, hturn], hline⟩
  | cons c keys ih =>
    obtain ⟨st', hturn, hst'⟩ := h.key rom echoing (hkeys c (by simp))
    obtain ⟨buf, con, hloop, hline⟩ := ih (fun b hb => hkeys b (List.mem_cons_of_mem _ hb)) hst'
    refine ⟨buf, con, ?_, hline⟩
    rw [typed, List.cons_append, List.map_cons, readlineLoop, hturn, Option.bind_some]
    exact hloop

theorem readline_stored (rom : Rom) {prompt : Word} (hprompt : prompt = 0 ∨ 0 ∈ rom.bytes prompt)
    {keys : List Byte} (hkeys : ∀ c ∈ keys, IsKey c) {last : Byte} (hlast : last = 0x0A ∨ last = 0x0D)
    (buf : Nat → Byte) (con : Console) :
    ∃ buf' con', readline rom prompt (typed keys last) buf con = some (some buf', con') ∧
      lineOf buf' = stored keys := by
  have hcon : ∃ con₁, (if prompt ≠ 0 then (cprintf rom (cstr "%s") [prompt] con).map fun r => r.2.console
      else some con) = some con₁ := by
    by_cases hp : prompt = 0
    · exact ⟨con, if_neg (not_not.mpr hp)⟩
    · obtain ⟨ret, hret⟩ := cprintf_string hp (hprompt.resolve_left hp) con
      exact ⟨ret.2.console, by rw [if_pos hp, hret]; rfl⟩
  obtain ⟨con₁, hcon₁⟩ := hcon
  have hstart : Stored ⟨buf, 0, con₁⟩ [] := ⟨rfl, by decide, by simp, by simp⟩
  rw [readline, hcon₁]
  exact hstart.loop rom (iscons 0) hkeys hlast

/-- How many characters stand on the line after one more key. -/
def standKey (n : Nat) (c : Byte) : Nat :=
  if IsErase c ∧ n ≠ 0 then n - 1
  else if IsPrint c ∧ n < BUFLEN - 1 then n + 1
  else n

def standing (keys : List Byte) : Nat :=
  keys.foldl standKey 0

/-- Whenever DEL is typed while no character stands, the line is later empty again. -/
def DelErased (keys : List Byte) : Prop :=
  ∀ pre post, keys = pre ++ DEL :: post → standing pre = 0 →
    ∃ post', post' <+: post ∧ standing (pre ++ DEL :: post') = 0

theorem storeKey_length (text : List Byte) (c : Byte) :
    (storeKey text c).length = standKey text.length c := by
  have hne : text ≠ [] ↔ text.length ≠ 0 := List.length_eq_zero_iff.not.symm
  simp only [storeKey, standKey, hne]
  split_ifs
  · exact List.length_dropLast
  · exact List.length_append
  · rfl

theorem stored_append (keys : List Byte) (c : Byte) :
    stored (keys ++ [c]) = storeKey (stored keys) c := by
  simp [stored]

theorem stored_length (keys : List Byte) : (stored keys).length = standing keys := by
  induction keys using List.reverseRecOn with
  | nil => rfl
  | append_singleton keys c ih =>
    rw [stored_append, storeKey_length, ih, standing, standing, List.foldl_append]
    rfl

theorem isErase_del : IsErase DEL :=
  .inr rfl

/-- The first character of the line stays until the line is empty. -/
theorem storeKey_cons (b : Byte) (text : List Byte) (c : Byte) :
    storeKey (b :: text) c = [] ∨ (storeKey (b :: text) c).head? = some b := by
  unfold storeKey
  split_ifs
  · cases text with
    | nil => exact .inl rfl
    | cons b' text => exact .inr rfl
  · exact .inr rfl
  · exact .inr rfl

theorem storeKey_nil_head (c : Byte) : (storeKey [] c).head? = some DEL ↔ c = DEL := by
  by_cases hp : IsPrint c
  · have hroom : IsPrint c ∧ ([] : List Byte).length < BUFLEN - 1 := ⟨hp, by decide⟩
    rw [storeKey, if_neg (by simp), if_pos hroom]
    simp
  · rw [storeKey, if_neg (by simp), if_neg (not_and_of_not_left _ hp)]
    refine ⟨by simp, ?_⟩
    rintro rfl
    exact absurd (by decide) hp

theorem storeKey_head (text : List Byte) (c : Byte) :
    (storeKey text c).head? = some DEL ↔
      c = DEL ∧ text = [] ∨ text.head? = some DEL ∧ storeKey text c ≠ [] := by
  cases text with
  | nil => simpa using storeKey_nil_head c
  | cons b text =>
    rcases storeKey_cons b text c with he | he
    · simp [he]
    · have hne : storeKey (b :: text) c ≠ [] := by
        rintro hn
        simp [hn] at he
      simp [he, hne]

/-- The line begins with DEL exactly when a DEL was stored and the line has not
been empty since. -/
theorem stored_head (keys : List Byte) : (stored keys).head? = some DEL ↔
    ∃ pre post, keys = pre ++ DEL :: post ∧ standing pre = 0 ∧
      ∀ post', post' <+: post → standing (pre ++ DEL :: post') ≠ 0 := by
  induction keys using List.reverseRecOn with
  | nil => simp [stored]
  | append_singleton keys c ih =>
    rw [stored_append, storeKey_head, ih, ← stored_append, ← List.length_eq_zero_iff, ne_eq,
      ← List.length_eq_zero_iff, stored_length, stored_length]
    constructor
    · rintro (⟨rfl, hz⟩ | ⟨⟨pre, post, rfl, hz, hpost⟩, hne⟩)
      · refine ⟨keys, [], rfl, hz, fun post' hp => ?_⟩
        obtain rfl := List.prefix_nil.mp hp
        rw [← stored_length, stored_append,
          List.eq_nil_of_length_eq_zero ((stored_length keys).trans hz)]
        decide
      · refine ⟨pre, post ++ [c], by simp, hz, fun post' hp => ?_⟩
        rcases List.prefix_concat_iff.mp hp with rfl | hp
        · simpa using hne
        · exact hpost post' hp
    · rintro ⟨pre, post, he, hz, hpost⟩
      rcases append_singleton_split he with ⟨rfl, rfl, rfl⟩ | ⟨post', rfl, rfl⟩
      · exact .inl ⟨rfl, hz⟩
      · refine .inr ⟨⟨pre, post', rfl, hz, fun p hp => hpost p (hp.trans (List.prefix_append _ _))⟩, ?_⟩
        simpa using hpost _ List.prefix_rfl

/-- The line the branches build against the line of the rules: the same, or one
that begins with DEL and is no shorter. -/
structure Edits (text ruled : List Byte) : Prop where
  room : text.length < BUFLEN
  clean : ∀ c ∈ ruled, ¬ IsErase c
  same : text = ruled ∨
    text.head? = some DEL ∧ ruled.length ≤ text.length ∧ text.length ≤ ruled.length + 1

theorem editKey_clean {ruled : List Byte} (h : ∀ c ∈ ruled, ¬ IsErase c) (c : Byte) :
    ∀ b ∈ editKey ruled c, ¬ IsErase b := by
  unfold editKey
  split_ifs with herase
  · exact fun b hb => h b (List.mem_of_mem_dropLast hb)
  · intro b hb
    rcases List.mem_append.mp hb with hb | hb
    · exact h b hb
    · exact List.mem_singleton.mp hb ▸ herase
  · exact h
  · exact h

theorem storeKey_room {text : List Byte} (h : text.length < BUFLEN) (c : Byte) :
    (storeKey text c).length < BUFLEN := by
  rw [storeKey_length]
  unfold standKey
  split_ifs <;> omega

theorem storeKey_eq_editKey {text : List Byte} {c : Byte} (h : IsErase c → text ≠ []) :
    storeKey text c = editKey text c := by
  by_cases herase : IsErase c
  · rw [storeKey, editKey, if_pos ⟨herase, h herase⟩, if_pos herase]
  · rw [storeKey, editKey, if_neg (not_and_of_not_left _ herase), if_neg herase]
    by_cases hp : IsPrint c
    · simp only [hp, true_and, if_true]
    · simp only [hp, false_and, if_false]

theorem editKey_length (ruled : List Byte) (c : Byte) : (editKey ruled c).length =
    if IsErase c then ruled.length - 1
    else if IsPrint c ∧ ruled.length < BUFLEN - 1 then ruled.length + 1 else ruled.length := by
  by_cases herase : IsErase c
  · rw [editKey, if_pos herase, if_pos herase, List.length_dropLast]
  · rw [editKey, if_neg herase, if_neg herase]
    by_cases hp : IsPrint c
    · by_cases hroom : ruled.length < BUFLEN - 1 <;> simp [hp, hroom]
    · simp [hp]

theorem Edits.key {text ruled : List Byte} (h : Edits text ruled) (c : Byte) :
    Edits (storeKey text c) (editKey ruled c) := by
  refine ⟨storeKey_room h.room c, editKey_clean h.clean c, ?_⟩
  rcases h.same with rfl | ⟨hhead, hle, hge⟩
  · by_cases hbad : IsErase c ∧ text = []
    · obtain ⟨hc, rfl⟩ := hbad
      rw [editKey, if_pos hc, List.dropLast_nil]
      rcases hc with rfl | rfl
      · exact .inl (by decide)
      · exact .inr ⟨by decide, Nat.zero_le _, by decide⟩
    · exact .inl (storeKey_eq_editKey fun he hn => hbad ⟨he, hn⟩)
  · have hlen := storeKey_length text c
    have hlen' := editKey_length ruled c
    have hroom := h.room
    obtain ⟨b, text, rfl⟩ := List.exists_cons_of_ne_nil (l := text) (by rintro rfl; simp at hhead)
    obtain rfl : b = DEL := by simpa using hhead
    have hpos : (DEL :: text).length ≠ 0 := by simp
    have hlengths : (editKey ruled c).length ≤ (storeKey (DEL :: text) c).length ∧
        ((storeKey (DEL :: text) c).length = 0 ∨
          (storeKey (DEL :: text) c).length ≤ (editKey ruled c).length + 1) := by
      by_cases herase : IsErase c
      · rw [if_pos herase] at hlen'
        rw [standKey, if_pos ⟨herase, hpos⟩] at hlen
        omega
      · rw [if_neg herase] at hlen'
        rw [standKey, if_neg (not_and_of_not_left _ herase)] at hlen
        by_cases hp : IsPrint c
        · simp only [hp, true_and] at hlen hlen'
          split_ifs at hlen hlen' <;> omega
        · simp only [hp, false_and, if_false] at hlen hlen'
          omega
    rcases storeKey_cons DEL text c with he | he
    · rw [he] at hlengths ⊢
      exact .inl (List.eq_nil_of_length_eq_zero (Nat.le_zero.mp hlengths.1)).symm
    · have hne : (storeKey (DEL :: text) c).length ≠ 0 := by
        rw [ne_eq, List.length_eq_zero_iff]
        rintro hn
        simp [hn] at he
      exact .inr ⟨he, hlengths.1, hlengths.2.resolve_left hne⟩

theorem edits_stored (keys : List Byte) : Edits (stored keys) (keys.foldl editKey []) := by
  induction keys using List.reverseRecOn with
  | nil => exact ⟨by decide, by simp, .inl rfl⟩
  | append_singleton keys c ih =>
    rw [stored_append, List.foldl_append]
    exact ih.key c

theorem stored_eq_iff (keys : List Byte) : stored keys = keys.foldl editKey [] ↔ DelErased keys := by
  have hh := edits_stored keys
  have hspoiled : (stored keys).head? = some DEL ↔ ¬ DelErased keys := by
    rw [stored_head]
    simp only [DelErased, not_forall, not_exists, not_and, exists_prop]
  rw [← not_iff_not, ← hspoiled]
  constructor
  · exact fun hne => (hh.same.resolve_left hne).1
  · intro hhead he
    have hmem : DEL ∈ keys.foldl editKey [] := he ▸ List.mem_of_mem_head? hhead
    exact hh.clean DEL hmem isErase_del

theorem editsRight_iff_stored (rom : Rom) {prompt : Word} (hprompt : prompt = 0 ∨ 0 ∈ rom.bytes prompt)
    {keys : List Byte} (hkeys : ∀ c ∈ keys, IsKey c) {last : Byte} (hlast : last = 0x0A ∨ last = 0x0D)
    (buf : Nat → Byte) (con : Console) :
    EditsRight rom prompt keys last buf con ↔ stored keys = keys.foldl editKey [] := by
  obtain ⟨buf', con', hret, hline⟩ := readline_stored rom hprompt hkeys hlast buf con
  constructor
  · rintro ⟨buf₂, con₂, hret₂, heq, -⟩
    have hbuf := (Prod.mk.inj (Option.some.inj (hret.symm.trans hret₂))).1
    rw [← hline, Option.some.inj hbuf, heq]
  · intro heq
    rw [heq] at hline
    exact ⟨buf', con', hret, hline, fun c hc => (edits_stored keys).clean c (hline ▸ hc)⟩

/-- `readline` edits the line by the rules exactly when every DEL typed on an
empty line is erased again. -/
theorem readline_edits_iff (rom : Rom) (prompt : Word) (hprompt : prompt = 0 ∨ 0 ∈ rom.bytes prompt)
    (keys : List Byte) (hkeys : ∀ c ∈ keys, IsKey c) (last : Byte) (hlast : last = 0x0A ∨ last = 0x0D)
    (buf : Nat → Byte) (con : Console) :
    EditsRight rom prompt keys last buf con ↔ DelErased keys :=
  (editsRight_iff_stored rom hprompt hkeys hlast buf con).trans (stored_eq_iff keys)

theorem readline_edits_letter :
    EditsRight default 0 [0x61, DEL] 0x0A (fun _ => 0) ⟨⟨fun _ => 0, []⟩, .cga, 0, []⟩ :=
  (readline_edits_iff default 0 (.inl rfl) [0x61, DEL] (by decide) 0x0A (.inl rfl) (fun _ => 0)
    ⟨⟨fun _ => 0, []⟩, .cga, 0, []⟩).mpr ((stored_eq_iff _).mp (by decide))

/-- DEL on an empty line is returned as the line. -/
theorem readline_returns_del :
    ¬ EditsRight default 0 [DEL] 0x0A (fun _ => 0) ⟨⟨fun _ => 0, []⟩, .cga, 0, []⟩ := by
  rw [editsRight_iff_stored default (.inl rfl) (by decide) (.inl rfl)]
  decide

end Jos
