import Jos.Console
import Jos.Roll

/-! The CGA console refines an unbounded roll of 80-column rows. The screen is
a window of 25 rows on it, and scrolling moves the window. -/

namespace Jos

def glyph (c : Word) : BitVec 16 :=
  (withAttr c).setWidth 16

def rollWrite (v : BitVec 16) (r : Roll (BitVec 16)) : Roll (BitVec 16) :=
  (r.write v).follow CRT_COLS CRT_ROWS

/-- What the console means by a character. A tab is five blanks. -/
def rollPutc (c : Word) (r : Roll (BitVec 16)) : Roll (BitVec 16) :=
  let ch := c &&& 0xFF
  if ch = 0x08 then
    (r.erase CRT_COLS ((withAttr c &&& ~~~0xFF ||| 0x20).setWidth 16)).follow CRT_COLS CRT_ROWS
  else if ch = 0x0A then (r.newline CRT_COLS).follow CRT_COLS CRT_ROWS
  else if ch = 0x0D then (r.home CRT_COLS).follow CRT_COLS CRT_ROWS
  else if ch = 0x09 then (rollWrite 0x0720)^[5] r
  else rollWrite (glyph c) r

/-- The roll a screen starts: its own cells, and blanks below them. -/
def rollStart (con : Console) : Roll (BitVec 16) :=
  { cells := fun i => if i < CRT_SIZE then con.cell i else 0x0720
    cursor := con.crtPos
    top := 0 }

namespace Console

theorem putCell_cell (con : Console) (i j : Nat) (v : BitVec 16) :
    (con.putCell i v).cell j = if j = i then v else con.cell j := by
  split_ifs with h
  · subst j
    exact Memory.load16_store16_same _ _ _
  · exact Memory.load16_store16_ne (a := con.crtBuf + 2 * i) (x := con.crtBuf + 2 * j) (by omega)

@[simp] theorem cell_crtPos (con : Console) (p i : Nat) :
    Console.cell { con with crtPos := p } i = con.cell i := rfl

end Console

/-- `con'` comes from `con` by stores into `crt_buf[0 .. CRT_SIZE)` only. -/
structure Drawn (con con' : Console) : Prop where
  adapter : con'.adapter = con.adapter
  within : Memory.Within con.crtBuf (con.crtBuf + 2 * CRT_SIZE) con.mem con'.mem

theorem crtBuf_congr {con con' : Console} (h : con'.adapter = con.adapter) :
    con'.crtBuf = con.crtBuf := by
  simp only [Console.crtBuf, h]

theorem Drawn.refl (con : Console) : Drawn con con :=
  ⟨rfl, .refl _ _ _⟩

theorem Drawn.trans {con con' con'' : Console} (h : Drawn con con') (h' : Drawn con' con'') :
    Drawn con con'' := by
  have hw := h'.within
  rw [crtBuf_congr h.adapter] at hw
  exact ⟨h'.adapter.trans h.adapter, h.within.trans hw⟩

theorem Drawn.setPos {con con' : Console} (h : Drawn con con') (p : Nat) :
    Drawn con { con' with crtPos := p } :=
  ⟨h.adapter, h.within⟩

theorem Drawn.outb {con con' : Console} (h : Drawn con con') (p : Nat) (b : Byte) :
    Drawn con (con'.outb p b) :=
  ⟨h.adapter, h.within⟩

theorem drawn_putCell {con : Console} {i : Nat} (v : BitVec 16) (hi : i < CRT_SIZE) :
    Drawn con (con.putCell i v) :=
  ⟨rfl, Memory.within_store16 _ _ (by omega) (by omega)⟩

theorem foldl_putCell (con : Console) (v : BitVec 16) (a n : Nat) (hn : a + n ≤ CRT_SIZE) :
    let con' := (List.range' a n).foldl (fun con i => con.putCell i v) con
    Drawn con con' ∧ ∀ j, con'.cell j = if a ≤ j ∧ j < a + n then v else con.cell j := by
  induction n generalizing con a with
  | zero => exact ⟨.refl con, fun j => by simp [show ¬ (a ≤ j ∧ j < a) by omega]⟩
  | succ n ih =>
    have hh := ih (con.putCell a v) (a + 1) (by omega)
    refine ⟨(drawn_putCell v (by omega)).trans hh.1, fun j => ?_⟩
    simp only [List.range'_succ, List.foldl_cons, hh.2 j, Console.putCell_cell]
    split_ifs <;> first | rfl | omega

theorem blankRow_spec (con : Console) :
    Drawn con (blankRow con) ∧ ∀ j < CRT_SIZE, (blankRow con).cell j =
      if j < CRT_SIZE - CRT_COLS then con.cell j else 0x0720 := by
  have hh := foldl_putCell con (0x0700 ||| 0x20) (CRT_SIZE - CRT_COLS) CRT_COLS (by decide)
  refine ⟨hh.1, fun j hj => (hh.2 j).trans ?_⟩
  by_cases hlt : j < CRT_SIZE - CRT_COLS
  · rw [if_neg (by omega), if_pos hlt]
  · have hs : CRT_SIZE - CRT_COLS + CRT_COLS = CRT_SIZE := rfl
    rw [if_pos (by omega), if_neg hlt]
    rfl

theorem moveRows_spec (con : Console) :
    Drawn con (moveRows con) ∧
      ∀ j < CRT_SIZE - CRT_COLS, (moveRows con).cell j = con.cell (j + CRT_COLS) := by
  have hfit : (CRT_SIZE - CRT_COLS) * 2 ≤ 2 * CRT_SIZE := by decide
  refine ⟨⟨rfl, within_memmove _ _ _ _ le_rfl (by omega)⟩, fun j hj => ?_⟩
  apply Memory.load16_congr
  · show (memmove _ _ _ _).byte (con.crtBuf + 2 * j) = con.mem.byte (con.crtBuf + 2 * (j + CRT_COLS))
    rw [memmove_byte, if_pos (by omega)]
    congr 1
    omega
  · show (memmove _ _ _ _).byte (con.crtBuf + 2 * j + 1) =
      con.mem.byte (con.crtBuf + 2 * (j + CRT_COLS) + 1)
    rw [memmove_byte, if_pos (by omega)]
    congr 1
    omega

theorem cgaScroll_spec {con : Console} (h : CRT_SIZE ≤ con.crtPos) :
    Drawn con (cgaScroll con) ∧ (cgaScroll con).crtPos = con.crtPos - CRT_COLS ∧
      ∀ j < CRT_SIZE, (cgaScroll con).cell j =
        if j < CRT_SIZE - CRT_COLS then con.cell (j + CRT_COLS) else 0x0720 := by
  have hmove := moveRows_spec con
  have hblank := blankRow_spec (moveRows con)
  have hdrawn := hmove.1.trans hblank.1
  rw [cgaScroll, if_pos h]
  refine ⟨hdrawn.setPos _, rfl, fun j hj => ?_⟩
  rw [Console.cell_crtPos, hblank.2 j hj]
  split_ifs with hrow
  · exact hmove.2 j hrow
  · rfl

/-- The screen is the window of the roll; before scrolling the cursor may be
one row below it. -/
structure Shows (slack : Nat) (con : Console) (r : Roll (BitVec 16)) : Prop where
  sound : r.Sound CRT_COLS CRT_ROWS 0x0720 slack
  pos : con.crtPos + CRT_COLS * r.top = r.cursor
  cells : ∀ i < CRT_SIZE, con.cell i = r.cells (CRT_COLS * r.top + i)

theorem Shows.lt {con : Console} {r : Roll (BitVec 16)} (h : Shows 0 con r) :
    con.crtPos < CRT_SIZE := by
  have hb := h.sound.below
  have hp := h.pos
  simp only [CRT_SIZE, CRT_ROWS, CRT_COLS] at *
  omega

theorem Shows.scroll {con : Console} {r : Roll (BitVec 16)} (h : Shows 1 con r) :
    Drawn con (cgaScroll con) ∧ Shows 0 (cgaScroll con) (r.follow CRT_COLS CRT_ROWS) := by
  have hp := h.pos
  have hsound := h.sound.follow (by decide) (by decide)
  have htop := Roll.follow_top (by decide) h.sound
  by_cases hlt : con.crtPos < CRT_SIZE
  · have hin : r.cursor < CRT_COLS * (r.top + CRT_ROWS) := by
      simp only [CRT_SIZE, CRT_ROWS, CRT_COLS] at *
      omega
    rw [if_pos hin] at htop
    rw [cgaScroll, if_neg (by omega)]
    exact ⟨.refl con, hsound, by rw [htop]; exact hp, by rw [htop]; exact h.cells⟩
  · have hin : ¬ r.cursor < CRT_COLS * (r.top + CRT_ROWS) := by
      simp only [CRT_SIZE, CRT_ROWS, CRT_COLS] at *
      omega
    rw [if_neg hin] at htop
    obtain ⟨hd, hpos, hcell⟩ := cgaScroll_spec (Nat.le_of_not_lt hlt)
    refine ⟨hd, hsound, ?_, fun i hi => ?_⟩
    · rw [hpos, htop]
      show con.crtPos - CRT_COLS + CRT_COLS * (r.top + 1) = r.cursor
      simp only [CRT_SIZE, CRT_ROWS, CRT_COLS] at *
      omega
    · rw [hcell i hi, htop]
      show _ = r.cells (CRT_COLS * (r.top + 1) + i)
      split_ifs with hrow
      · rw [h.cells _ (by omega)]
        congr 1
        simp only [CRT_COLS]
        omega
      · refine (h.sound.fresh _ ?_).symm
        simp only [CRT_SIZE, CRT_ROWS, CRT_COLS] at *
        omega

/-- What follows the `switch` of `cga_putc` moves the window to the cursor. -/
theorem Shows.finish {con con' : Console} {r : Roll (BitVec 16)} (hd : Drawn con con')
    (h : Shows 1 con' r) : Drawn con (cgaCursor (cgaScroll con')) ∧
      Shows 0 (cgaCursor (cgaScroll con')) (r.follow CRT_COLS CRT_ROWS) := by
  obtain ⟨hd', hs⟩ := h.scroll
  exact ⟨((((hd.trans hd').outb _ _).outb _ _).outb _ _).outb _ _, hs.sound, hs.pos, hs.cells⟩

theorem Shows.erase {con : Console} {r : Roll (BitVec 16)} (h : Shows 0 con r) (v : BitVec 16) :
    let con' := if con.crtPos > 0 then
        { con with crtPos := con.crtPos - 1 }.putCell (con.crtPos - 1) v else con
    Drawn con con' ∧ Shows 1 con' (r.erase CRT_COLS v) := by
  have hlt := h.lt
  have hp := h.pos
  have hs := (h.sound.erase v).widen
  by_cases hpos : con.crtPos > 0
  · have hc : CRT_COLS * r.top < r.cursor := by omega
    have hr : r.erase CRT_COLS v = { r with
        cells := fun i => if i = r.cursor - 1 then v else r.cells i, cursor := r.cursor - 1 } :=
      if_pos hc
    simp only [if_pos hpos]
    have hd : Drawn con (con.putCell (con.crtPos - 1) v) := drawn_putCell v (by omega)
    refine ⟨⟨rfl, hd.within⟩, hs, ?_, fun i hi => ?_⟩
    · rw [hr]
      show con.crtPos - 1 + CRT_COLS * r.top = r.cursor - 1
      omega
    · rw [hr, Console.putCell_cell]
      show _ = if CRT_COLS * r.top + i = r.cursor - 1 then v else r.cells (CRT_COLS * r.top + i)
      have hi' : i = con.crtPos - 1 ↔ CRT_COLS * r.top + i = r.cursor - 1 := by omega
      simp only [hi', Console.cell_crtPos, h.cells i hi]
  · have hc : ¬ CRT_COLS * r.top < r.cursor := by omega
    have hr : r.erase CRT_COLS v = r := if_neg hc
    rw [hr] at hs ⊢
    simp only [if_neg hpos]
    exact ⟨.refl con, hs, hp, h.cells⟩

theorem Shows.newline {con : Console} {r : Roll (BitVec 16)} (h : Shows 0 con r) :
    let pos := (con.crtPos + CRT_COLS) % 2 ^ 16
    Shows 1 { con with crtPos := pos - pos % CRT_COLS } (r.newline CRT_COLS) := by
  have hlt := h.lt
  have hp := h.pos
  refine ⟨h.sound.newline (by decide), ?_, h.cells⟩
  simp only [Roll.newline, CRT_SIZE, CRT_ROWS, CRT_COLS] at *
  omega

theorem Shows.home {con : Console} {r : Roll (BitVec 16)} (h : Shows 0 con r) :
    Shows 1 { con with crtPos := con.crtPos - con.crtPos % CRT_COLS } (r.home CRT_COLS) := by
  have hp := h.pos
  refine ⟨(h.sound.home (by decide)).widen, ?_, h.cells⟩
  simp only [Roll.home, CRT_COLS] at *
  omega

theorem Shows.write {con : Console} {r : Roll (BitVec 16)} (h : Shows 0 con r) (v : BitVec 16) :
    let con' := { con.putCell con.crtPos v with crtPos := (con.crtPos + 1) % 2 ^ 16 }
    Drawn con con' ∧ Shows 1 con' (r.write v) := by
  have hlt := h.lt
  have hp := h.pos
  refine ⟨(drawn_putCell v hlt).setPos _, h.sound.write v (by decide), ?_, fun i hi => ?_⟩
  · show (con.crtPos + 1) % 2 ^ 16 + CRT_COLS * r.top = r.cursor + 1
    simp only [CRT_SIZE, CRT_ROWS, CRT_COLS] at *
    omega
  · rw [Console.cell_crtPos, Console.putCell_cell]
    show _ = if CRT_COLS * r.top + i = r.cursor then v else r.cells (CRT_COLS * r.top + i)
    have hi' : i = con.crtPos ↔ CRT_COLS * r.top + i = r.cursor := by omega
    simp only [hi', h.cells i hi]

theorem Shows.cgaPutc_of_ne_tab {c : Word} (hc : c &&& 0xFF ≠ 0x09) {con : Console}
    {r : Roll (BitVec 16)} (h : Shows 0 con r) :
    Drawn con (cgaPutc c con) ∧ Shows 0 (cgaPutc c con) (rollPutc c r) := by
  rw [cgaPutc, rollPutc]
  simp only [withAttr_char]
  by_cases h₁ : c &&& 0xFF = 0x08
  · simp only [if_pos h₁]
    have hh := h.erase ((withAttr c &&& ~~~0xFF ||| 0x20).setWidth 16)
    exact Shows.finish hh.1 hh.2
  by_cases h₂ : c &&& 0xFF = 0x0A
  · simp only [if_neg h₁, if_pos h₂]
    exact Shows.finish ((Drawn.refl con).setPos _) h.newline
  by_cases h₃ : c &&& 0xFF = 0x0D
  · simp only [if_neg h₁, if_neg h₂, if_pos h₃]
    exact Shows.finish ((Drawn.refl con).setPos _) h.home
  · simp only [if_neg h₁, if_neg h₂, if_neg h₃, if_neg hc, dif_neg hc]
    have hh := h.write (glyph c)
    exact Shows.finish hh.1 hh.2

theorem Shows.consPutc_of_cgaPutc {c : Word} {con : Console} {r r' : Roll (BitVec 16)}
    (h : Shows 0 con r) (hstep : ∀ con, Shows 0 con r → Drawn con (cgaPutc c con) ∧
      Shows 0 (cgaPutc c con) r') :
    Drawn con (consPutc c con) ∧ Shows 0 (consPutc c con) r' := by
  rw [consPutc]
  have hh := hstep (lptPutc c (serialPutc c con)) ⟨h.sound, h.pos, h.cells⟩
  exact ⟨((((Drawn.refl con).outb _ _).outb _ _).outb _ _ |>.outb _ _).trans hh.1, hh.2⟩

theorem Shows.consPutc_blank {con : Console} {r : Roll (BitVec 16)} (h : Shows 0 con r) :
    Drawn con (consPutc 0x20 con) ∧ Shows 0 (consPutc 0x20 con) (rollWrite 0x0720 r) :=
  h.consPutc_of_cgaPutc fun _ hh => hh.cgaPutc_of_ne_tab (by decide)

theorem cgaPutc_tab {c : Word} (hc : c &&& 0xFF = 0x09) (con : Console) :
    cgaPutc c con = cgaCursor (cgaScroll
      (consPutc 0x20 (consPutc 0x20 (consPutc 0x20 (consPutc 0x20 (consPutc 0x20 con)))))) := by
  have h₁ : c &&& 0xFF ≠ 0x08 := by rw [hc]; decide
  have h₂ : c &&& 0xFF ≠ 0x0A := by rw [hc]; decide
  have h₃ : c &&& 0xFF ≠ 0x0D := by rw [hc]; decide
  rw [cgaPutc]
  simp only [withAttr_char, if_neg h₁, if_neg h₂, if_neg h₃, dif_pos hc]

theorem rollPutc_tab {c : Word} (hc : c &&& 0xFF = 0x09) (r : Roll (BitVec 16)) :
    rollPutc c r = (rollWrite 0x0720)^[5] r := by
  have h₁ : c &&& 0xFF ≠ 0x08 := by rw [hc]; decide
  have h₂ : c &&& 0xFF ≠ 0x0A := by rw [hc]; decide
  have h₃ : c &&& 0xFF ≠ 0x0D := by rw [hc]; decide
  simp only [rollPutc, if_neg h₁, if_neg h₂, if_neg h₃, if_pos hc]

theorem Shows.cgaPutc (c : Word) {con : Console} {r : Roll (BitVec 16)} (h : Shows 0 con r) :
    Drawn con (cgaPutc c con) ∧ Shows 0 (cgaPutc c con) (rollPutc c r) := by
  by_cases hc : c &&& 0xFF = 0x09
  · obtain ⟨d₁, h₁⟩ := h.consPutc_blank
    obtain ⟨d₂, h₂⟩ := h₁.consPutc_blank
    obtain ⟨d₃, h₃⟩ := h₂.consPutc_blank
    obtain ⟨d₄, h₄⟩ := h₃.consPutc_blank
    obtain ⟨d₅, h₅⟩ := h₄.consPutc_blank
    -- the nested calls have scrolled already, so the outer call does not
    rw [cgaPutc_tab hc, rollPutc_tab hc, cgaScroll, if_neg (not_le.mpr h₅.lt)]
    have hd := d₁.trans (d₂.trans (d₃.trans (d₄.trans d₅)))
    exact ⟨(((hd.outb _ _).outb _ _).outb _ _).outb _ _, h₅.sound, h₅.pos, h₅.cells⟩
  · exact h.cgaPutc_of_ne_tab hc

theorem shows_start {con : Console} (h : con.crtPos < CRT_SIZE) : Shows 0 con (rollStart con) := by
  refine ⟨⟨Nat.zero_le _, by simpa [rollStart, CRT_SIZE, CRT_ROWS, CRT_COLS] using h, ?_⟩,
    rfl, fun i hi => ?_⟩
  · intro i hi
    have hge : ¬ i < CRT_SIZE := by
      simp only [rollStart, CRT_SIZE, CRT_ROWS, CRT_COLS] at *
      omega
    simp [rollStart, hge]
  · simp [rollStart, hi]

theorem Shows.foldl_cgaPutc (cs : List Word) {con : Console} {r : Roll (BitVec 16)}
    (h : Shows 0 con r) :
    Drawn con (cs.foldl (fun con c => Jos.cgaPutc c con) con) ∧
      Shows 0 (cs.foldl (fun con c => Jos.cgaPutc c con) con)
        (cs.foldl (fun r c => rollPutc c r) r) := by
  induction cs generalizing con r with
  | nil => exact ⟨.refl con, h⟩
  | cons c cs ih =>
    have hh := h.cgaPutc c
    have ht := ih hh.2
    exact ⟨hh.1.trans ht.1, ht.2⟩

/-- The CGA console refines the roll: the cursor is where the roll's is in the
window, every cell is the roll's, and every store made lies in `crt_buf`. -/
theorem cga_refines_roll (con : Console) (hpos : con.crtPos < CRT_SIZE) (cs : List Word) :
    let con' := cs.foldl (fun con c => cgaPutc c con) con
    let r := cs.foldl (fun r c => rollPutc c r) (rollStart con)
    CRT_COLS * r.top ≤ r.cursor ∧ con'.crtPos = r.cursor - CRT_COLS * r.top ∧
      con'.crtPos < CRT_SIZE ∧ (∀ i < CRT_SIZE, con'.cell i = r.cells (CRT_COLS * r.top + i)) ∧
      con'.crtBuf = con.crtBuf ∧
      ∃ new, con'.mem.stores = new ++ con.mem.stores ∧
        ∀ a ∈ new, con.crtBuf ≤ a ∧ a < con.crtBuf + 2 * CRT_SIZE := by
  have hh := (shows_start hpos).foldl_cgaPutc cs
  have hp := hh.2.pos
  exact ⟨hh.2.sound.above, by omega, hh.2.lt, hh.2.cells, crtBuf_congr hh.1.adapter, hh.1.within.logged⟩

theorem cga_refines_roll_last_cell :
    (cgaPutc 0x41 ⟨⟨fun _ => 0, []⟩, .cga, 1999, []⟩).crtPos = 1920 :=
  (cga_refines_roll ⟨⟨fun _ => 0, []⟩, .cga, 1999, []⟩ (by decide) [0x41]).2.1.trans (by decide)

end Jos
