import Jos.Bits
import Jos.ConsoleRoll
import Jos.Readline

/-! The line `readline` is editing is on the screen, up to the cursor. A full
line is shorter than the window less a row, so a scroll never takes part of it. -/

namespace Jos

/-- What `getchar` returns for the keys. -/
def answers (keys : List Byte) : List Int :=
  keys.map fun c => (c.toNat : Int)

/-- The state at the top of the loop once the answers have been taken; none if the
loop was left. -/
def readlineState (rom : Rom) (echoing : Int) : List Int → Reading → Option Reading
  | [], st => some st
  | c :: cs, st => (readlineTurn rom echoing c st).bind fun
    | .leave _ => none
    | .again st => readlineState rom echoing cs st

/-- The first `st.i` bytes of the buffer are the low bytes of the cells before the cursor. -/
structure OnScreen (st : Reading) : Prop where
  room : st.i ≤ BUFLEN - 1
  before : st.i ≤ st.con.crtPos
  pos : st.con.crtPos < CRT_SIZE
  cells : ∀ j < st.i, (st.con.cell (st.con.crtPos - st.i + j)).setWidth 8 = st.buf j

/-- The same of the roll the screen is a window of. -/
structure OnRoll (st : Reading) (r : Roll (BitVec 16)) : Prop where
  shows : Shows 0 st.con r
  room : st.i ≤ BUFLEN - 1
  before : CRT_COLS * r.top + st.i ≤ r.cursor
  cells : ∀ j < st.i, (r.cells (r.cursor - st.i + j)).setWidth 8 = st.buf j

theorem OnRoll.onScreen {st : Reading} {r : Roll (BitVec 16)} (h : OnRoll st r) : OnScreen st := by
  have hpos := h.shows.pos
  have hlt := h.shows.lt
  have hbefore := h.before
  refine ⟨h.room, by omega, hlt, fun j hj => ?_⟩
  rw [h.shows.cells _ (by omega), ← h.cells j hj]
  congr 2
  omega

theorem onRoll_start (buf : Nat → Byte) {con : Console} (h : con.crtPos < CRT_SIZE) :
    OnRoll ⟨buf, 0, con⟩ (rollStart con) :=
  ⟨shows_start h, Nat.zero_le _, Nat.zero_le _, fun _ hj => absurd hj (Nat.not_lt_zero _)⟩

theorem rollPutc_erase {r : Roll (BitVec 16)} (hs : r.Sound CRT_COLS CRT_ROWS 0x0720 0)
    (h : CRT_COLS * r.top < r.cursor) :
    (rollPutc 0x08 r).cursor = r.cursor - 1 ∧ (rollPutc 0x08 r).top = r.top ∧
      ∀ i < r.cursor - 1, (rollPutc 0x08 r).cells i = r.cells i := by
  have hr : rollPutc 0x08 r = (r.erase CRT_COLS
    ((withAttr 0x08 &&& ~~~0xFF ||| 0x20).setWidth 16)).follow
      CRT_COLS CRT_ROWS := rfl
  have htop := Roll.follow_top (by decide)
    (hs.erase ((withAttr 0x08 &&& ~~~0xFF ||| 0x20).setWidth 16)).widen
  have hbelow := hs.below
  rw [hr]
  rw [Roll.erase, if_pos h] at htop ⊢
  refine ⟨rfl, htop.trans (if_pos ?_), fun i hi => if_neg hi.ne⟩
  dsimp only
  simp only [CRT_ROWS, CRT_COLS] at *
  omega

theorem rollWrite_spec {r : Roll (BitVec 16)} (hs : r.Sound CRT_COLS CRT_ROWS 0x0720 0) (v : BitVec 16) :
    (rollWrite v r).cursor = r.cursor + 1 ∧
      (∀ i, (rollWrite v r).cells i = if i = r.cursor then v else r.cells i) ∧
      ((rollWrite v r).top = r.top ∨
        CRT_COLS * (rollWrite v r).top + CRT_COLS * (CRT_ROWS - 1) ≤ r.cursor + 1) := by
  have htop : (rollWrite v r).top = _ := Roll.follow_top (by decide) (hs.write v (by decide))
  refine ⟨rfl, fun _ => rfl, ?_⟩
  split_ifs at htop with hin
  · exact .inl htop
  · rw [htop]
    refine .inr ?_
    simp only [Roll.write, CRT_ROWS, CRT_COLS] at *
    omega

theorem char_and (c : Byte) : c.setWidth 32 &&& (0xFF : Word) = c.setWidth 32 := by
  apply BitVec.eq_of_toNat_eq
  have hlow : (c.setWidth 32 &&& (0xFF : Word)).toNat = (c.setWidth 32).toNat % 2 ^ 8 :=
    toNat_and_low (c.setWidth 32) (by decide : 8 ≤ 32)
  rw [hlow, BitVec.toNat_setWidth]
  omega

theorem low_and (c : Word) : (c &&& 0xFF).setWidth 8 = c.setWidth 8 :=
  setWidth_and_low c (by decide : 8 ≤ 32)

theorem glyph_low (c : Byte) : (glyph (c.setWidth 32)).setWidth 8 = c := by
  rw [glyph, BitVec.setWidth_setWidth_of_le _ (by decide), ← low_and, withAttr_char, low_and]
  simp

theorem rollPutc_print {c : Byte} (hc : IsPrint c) (r : Roll (BitVec 16)) :
    rollPutc (c.setWidth 32) r = rollWrite (glyph (c.setWidth 32)) r := by
  have hne : ∀ b : Word, b.toNat < 0x20 → c.setWidth 32 ≠ b := by
    intro b hb heq
    have hcb : c.toNat % 2 ^ 32 = b.toNat := heq ▸ (BitVec.toNat_setWidth 32 c).symm
    have hge : 0x20 ≤ c.toNat := hc
    omega
  simp only [rollPutc, char_and]
  rw [if_neg (hne 0x08 (by decide)), if_neg (hne 0x0A (by decide)), if_neg (hne 0x0D (by decide)),
    if_neg (hne 0x09 (by decide))]

theorem echo_iscons (c : Int) (con : Console) :
    echo (iscons 0) c con = consPutc (BitVec.ofInt 32 c) con :=
  if_pos (by decide)

theorem OnRoll.turn {st st' : Reading} {r : Roll (BitVec 16)} (h : OnRoll st r) {c : Byte}
    (hst : KeyTurn (iscons 0) c st st') : ∃ r', OnRoll st' r' := by
  have hbefore := h.before
  have hroom := h.room
  cases hst with
  | erase hc hi =>
    obtain ⟨-, hshows⟩ := h.shows.consPutc_of_cgaPutc fun _ hh => hh.cgaPutc (BitVec.ofInt 32 0x08)
    obtain ⟨hcursor, htop, hcells⟩ := rollPutc_erase h.shows.sound (by omega)
    rw [echo_iscons]
    refine ⟨rollPutc 0x08 r, hshows, by dsimp only; omega, ?_, fun j hj => ?_⟩
    · rw [htop]
      dsimp only
      omega
    · dsimp only at hj ⊢
      rw [hcursor, hcells _ (by omega), ← h.cells j (by omega)]
      congr 2
      omega
  | store hc hp hi =>
    have hchar : BitVec.ofInt 32 (c.toNat : Int) = c.setWidth 32 := by
      apply BitVec.eq_of_toNat_eq
      simp
    obtain ⟨-, hshows⟩ := h.shows.consPutc_of_cgaPutc fun _ hh => hh.cgaPutc (c.setWidth 32)
    rw [rollPutc_print hp] at hshows
    obtain ⟨hcursor, hcells, htop⟩ := rollWrite_spec h.shows.sound (glyph (c.setWidth 32))
    rw [echo_iscons, hchar]
    refine ⟨_, hshows, by dsimp only; omega, ?_, fun j hj => ?_⟩
    · dsimp only
      simp only [BUFLEN, CRT_ROWS, CRT_COLS] at *
      omega
    · dsimp only at hj ⊢
      rw [hcursor, hcells, setBuf]
      by_cases hji : j = st.i
      · rw [if_pos (by omega), if_pos hji, glyph_low]
      · rw [if_neg (by omega), if_neg hji, ← h.cells j (by omega)]
        congr 2
        omega
  | ignore hc hp => exact ⟨r, h⟩

theorem KeyTurn.frame {echoing : Int} {c : Byte} {st st' : Reading} (hst : KeyTurn echoing c st st')
    {j : Nat} (hj : BUFLEN ≤ j) : st'.buf j = st.buf j := by
  cases hst with
  | erase hc hi => rfl
  | store hc hp hi => exact if_neg (by omega)
  | ignore hc hp => rfl

theorem storeKey_print {text : List Byte} (h : ∀ b ∈ text, IsPrint b) (c : Byte) :
    ∀ b ∈ storeKey text c, IsPrint b := by
  unfold storeKey
  split_ifs with herase hprint
  · exact fun b hb => h b (List.mem_of_mem_dropLast hb)
  · intro b hb
    rcases List.mem_append.mp hb with hb | hb
    · exact h b hb
    · exact List.mem_singleton.mp hb ▸ hprint.1
  · exact h

/-- The line so far, in the buffer and on the screen. -/
structure Editing (buf : Nat → Byte) (st : Reading) (text : List Byte) : Prop where
  stored : Stored st text
  screen : ∃ r, OnRoll st r
  print : ∀ b ∈ text, IsPrint b
  frame : ∀ j, BUFLEN ≤ j → st.buf j = buf j

theorem editing_start (buf : Nat → Byte) {con : Console} (h : con.crtPos < CRT_SIZE) :
    Editing buf ⟨buf, 0, con⟩ [] :=
  ⟨⟨rfl, by decide, by simp, by simp⟩, ⟨_, onRoll_start buf h⟩, by simp, fun _ _ => rfl⟩

theorem Editing.turn {buf : Nat → Byte} {st st' : Reading} {text : List Byte} (h : Editing buf st text)
    {c : Byte} (hc : IsKey c) (hst : KeyTurn (iscons 0) c st st') :
    Editing buf st' (storeKey text c) := by
  obtain ⟨r, hr⟩ := h.screen
  exact ⟨h.stored.turn hc.1 hst, hr.turn hst, storeKey_print h.print c,
    fun j hj => (hst.frame hj).trans (h.frame j hj)⟩

theorem Editing.run (rom : Rom) {buf : Nat → Byte} {keys : List Byte} (hkeys : ∀ c ∈ keys, IsKey c)
    {st : Reading} {text : List Byte} (h : Editing buf st text) :
    ∃ st', readlineState rom (iscons 0) (answers keys) st = some st' ∧
      Editing buf st' (keys.foldl storeKey text) := by
  induction keys generalizing st text with
  | nil => exact ⟨st, rfl, h⟩
  | cons c keys ih =>
    obtain ⟨st₁, hturn, hst₁⟩ := readlineTurn_key rom (iscons 0) st (hkeys c (by simp))
    obtain ⟨st', hrun, hst'⟩ := ih (fun b hb => hkeys b (List.mem_cons_of_mem _ hb))
      (h.turn (hkeys c (by simp)) hst₁)
    refine ⟨st', ?_, hst'⟩
    rw [answers, List.map_cons, readlineState, hturn, Option.bind_some]
    exact hrun

theorem readlineLoop_append (rom : Rom) (echoing : Int) {cs rest : List Int} {st st' : Reading}
    (h : readlineState rom echoing cs st = some st') :
    readlineLoop rom echoing (cs ++ rest) st = readlineLoop rom echoing rest st' := by
  induction cs generalizing st with
  | nil =>
    cases h
    rfl
  | cons c cs ih =>
    rw [readlineState] at h
    obtain ⟨turn, hturn, hrun⟩ := Option.bind_eq_some_iff.mp h
    rw [List.cons_append, readlineLoop, hturn, Option.bind_some]
    cases turn with
    | leave r => cases hrun
    | again st₁ => exact ih hrun

/-- At the top of the loop, after any keys, the line is on the screen; a newline
then returns it. -/
theorem readline_shows_line (rom : Rom) (buf : Nat → Byte) (con : Console) (hpos : con.crtPos < CRT_SIZE)
    (keys : List Byte) (hkeys : ∀ c ∈ keys, IsKey c) :
    ∃ st, readlineState rom (iscons 0) (answers keys) ⟨buf, 0, con⟩ = some st ∧ OnScreen st ∧
      (∀ j, BUFLEN ≤ j → st.buf j = buf j) ∧
      ∀ last, last = 0x0A ∨ last = 0x0D → ∀ rest, ∃ buf' con',
        readlineLoop rom (iscons 0) (answers (keys ++ last :: rest)) ⟨buf, 0, con⟩ =
          some (some buf', con') ∧
        (lineOf buf').length = st.i ∧ (∀ c ∈ lineOf buf', 0x20 ≤ c.toNat) ∧
        ∀ j, BUFLEN ≤ j → buf' j = buf j := by
  obtain ⟨st, hrun, h⟩ := (editing_start buf hpos).run rom hkeys
  obtain ⟨r, hr⟩ := h.screen
  refine ⟨st, hrun, hr.onScreen, h.frame, fun last hlast rest =>
    ⟨setBuf st.buf st.i 0, echo (iscons 0) 0x0A st.con, ?_, ?_, ?_, fun j hj => ?_⟩⟩
  · rw [answers, List.map_append, List.map_cons]
    refine (readlineLoop_append rom (iscons 0) hrun).trans ?_
    rw [readlineLoop, readlineTurn_newline rom (iscons 0) st hlast, Option.bind_some]
  · rw [lineOf_setBuf h.stored, h.stored.i]
  · rw [lineOf_setBuf h.stored]
    exact h.print
  · have hroom := hr.room
    have hne : j ≠ st.i := by
      simp only [BUFLEN] at *
      omega
    rw [setBuf, if_neg hne, h.frame j hj]

/-- Two characters, the second after a scroll, and one of them erased. -/
theorem readline_shows_line_wrapped :
    ∃ st, readlineState default (iscons 0) (answers [0x41, 0x42, 0x08])
        ⟨fun _ => 0, 0, ⟨⟨fun _ => 0, []⟩, .cga, 1999, []⟩⟩ = some st ∧ OnScreen st :=
  have ⟨st, hrun, hst, _⟩ := readline_shows_line default (fun _ => 0) ⟨⟨fun _ => 0, []⟩, .cga, 1999, []⟩
    (by decide) [0x41, 0x42, 0x08] (by decide)
  ⟨st, hrun, hst⟩

end Jos
