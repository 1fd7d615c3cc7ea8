import Jos.ConsoleRoll

/-! `cga_init` of `kern/console.c` takes the cursor from the 6845 as it is. What
`cga_putc` does from a cursor that is off the screen. -/

namespace Jos

/-- What `cga_init` finds: whether there is memory behind the CGA buffer, and
the two halves of the cursor. -/
structure Display where
  cga : Bool
  cursorHigh : Byte
  cursorLow : Byte

/-- `*cp = v`, lost where there is no memory. -/
def Display.poke (hw : Display) (m : Memory) (v : BitVec 16) : Memory :=
  if hw.cga then m.store16 (KERNBASE + CGA_BUF) v else m

def cgaInit (hw : Display) (m : Memory) : Console :=
  let was := m.load16 (KERNBASE + CGA_BUF)
  let m := hw.poke m 0xA55A
  let con : Console :=
    if m.load16 (KERNBASE + CGA_BUF) ≠ 0xA55A then ⟨m, .mono, 0, []⟩
    else ⟨hw.poke m was, .cga, 0, []⟩
  let con := (con.outb con.addr6845 14).outb con.addr6845 15
  let pos : Word := hw.cursorHigh.setWidth 32 <<< 8 ||| hw.cursorLow.setWidth 32
  { con with crtPos := (pos.setWidth 16).toNat }

/-- The cursor that the 6845 reports. -/
def Display.cursor (hw : Display) : Nat :=
  2 ^ 8 * hw.cursorHigh.toNat + hw.cursorLow.toNat

theorem Display.cursor_lt (hw : Display) : hw.cursor < 2 ^ 16 := by
  have hhigh := hw.cursorHigh.isLt
  have hlow := hw.cursorLow.isLt
  rw [cursor]
  omega

theorem cgaInit_crtPos (hw : Display) (m : Memory) : (cgaInit hw m).crtPos = hw.cursor := by
  have hhigh := hw.cursorHigh.isLt
  have hlow := hw.cursorLow.isLt
  have hor : hw.cursorHigh.toNat <<< 8 ||| hw.cursorLow.toNat = hw.cursor := by
    rw [← Nat.shiftLeft_add_eq_or_of_lt hlow, Nat.shiftLeft_eq, Display.cursor, Nat.mul_comm]
  have hlt : hw.cursor < 2 ^ 16 := hw.cursor_lt
  have hpos : ((hw.cursorHigh.setWidth 32 <<< 8 ||| hw.cursorLow.setWidth 32 : Word).setWidth 16).toNat =
      hw.cursor := by
    rw [BitVec.toNat_setWidth, BitVec.toNat_or, BitVec.toNat_shiftLeft, BitVec.toNat_setWidth,
      BitVec.toNat_setWidth, Nat.mod_eq_of_lt (a := hw.cursorHigh.toNat) (by omega),
      Nat.mod_eq_of_lt (a := hw.cursorLow.toNat) (by omega), Nat.shiftLeft_eq,
      Nat.mod_eq_of_lt (a := hw.cursorHigh.toNat * 2 ^ 8) (by omega), ← Nat.shiftLeft_eq, hor,
      Nat.mod_eq_of_lt hlt]
  exact hpos

def cgaRun (calls : List Word) (con : Console) : Console :=
  calls.foldl (fun con c => cgaPutc c con) con

/-- All that the calls store is stored in `crt_buf[0 .. CRT_SIZE)`, and after each
of them the cursor is there too. -/
structure StaysOnScreen (con : Console) (calls : List Word) : Prop where
  drawn : Drawn con (cgaRun calls con)
  pos : ∀ pre, pre <+: calls → pre ≠ [] → (cgaRun pre con).crtPos < CRT_SIZE

/-- The characters that bring a cursor back from below the screen; a newline does
when the cursor wraps. -/
def Recovers (pos : Nat) (c : Word) : Prop :=
  (c &&& 0xFF = 0x08 ∧ pos = CRT_SIZE) ∨ (c &&& 0xFF = 0x0D ∧ pos < CRT_SIZE + CRT_COLS) ∨
    (c &&& 0xFF = 0x0A ∧ 2 ^ 16 ≤ pos + CRT_COLS)

instance (pos : Nat) (c : Word) : Decidable (Recovers pos c) :=
  inferInstanceAs (Decidable (_ ∨ _))

theorem Memory.Within.of_suffix {lo hi a : Nat} {m m' : Memory} (h : Memory.Within lo hi m m')
    (hs : a :: m.stores <:+ m'.stores) : lo ≤ a ∧ a < hi := by
  obtain ⟨new, hnew, hin⟩ := h.logged
  obtain ⟨pre, hpre⟩ := hs
  have hsplit : pre ++ [a] ++ m.stores = new ++ m.stores := by
    rw [← hnew, ← hpre, List.append_assoc, List.singleton_append]
  exact hin a (List.append_cancel_right hsplit ▸ by simp)

theorem Drawn.suffix {con con' : Console} (h : Drawn con con') : con.mem.stores <:+ con'.mem.stores := by
  obtain ⟨new, hnew, -⟩ := h.within.logged
  exact ⟨new, hnew.symm⟩

theorem drawn_cgaScroll (con : Console) : Drawn con (cgaScroll con) := by
  by_cases h : CRT_SIZE ≤ con.crtPos
  · exact (cgaScroll_spec h).1
  · rw [cgaScroll, if_neg h]
    exact .refl con

/-- What follows the `switch` of `cga_putc`. -/
theorem drawn_finish (con : Console) : Drawn con (cgaCursor (cgaScroll con)) :=
  ((((drawn_cgaScroll con).outb _ _).outb _ _).outb _ _).outb _ _

theorem finish_crtPos (con : Console) : (cgaCursor (cgaScroll con)).crtPos =
    if CRT_SIZE ≤ con.crtPos then con.crtPos - CRT_COLS else con.crtPos := by
  show (cgaScroll con).crtPos = _
  by_cases h : CRT_SIZE ≤ con.crtPos
  · rw [(cgaScroll_spec h).2.1, if_pos h]
  · rw [cgaScroll, if_neg h, if_neg h]

/-- `crt_buf[i]` was stored on the way from `con` to `con'`. -/
def Painted (con : Console) (i : Nat) (con' : Console) : Prop :=
  (con.crtBuf + 2 * i) :: con.mem.stores <:+ con'.mem.stores

theorem Painted.lt {con con' : Console} {i : Nat} (h : Painted con i con') (hd : Drawn con con') :
    i < CRT_SIZE := by
  have hin := hd.within.of_suffix h
  omega

theorem painted_putCell (con : Console) (i : Nat) (v : BitVec 16) (p : Nat) :
    Painted con i (cgaCursor (cgaScroll { con.putCell i v with crtPos := p })) := by
  have hput : (con.crtBuf + 2 * i) :: con.mem.stores <:+ (con.putCell i v).mem.stores :=
    ⟨[con.crtBuf + 2 * i + 1], rfl⟩
  exact hput.trans (drawn_finish { con.putCell i v with crtPos := p }).suffix

theorem cgaPutc_erase {c : Word} (hc : c &&& 0xFF = 0x08) {con : Console} (hpos : 0 < con.crtPos) :
    cgaPutc c con = cgaCursor (cgaScroll { con.putCell (con.crtPos - 1)
      ((withAttr c &&& ~~~0xFF ||| 0x20).setWidth 16) with crtPos := con.crtPos - 1 }) := by
  rw [cgaPutc]
  simp only [withAttr_char, if_pos hc, if_pos hpos]
  rfl

theorem cgaPutc_newline {c : Word} (hc : c &&& 0xFF = 0x0A) (con : Console) :
    cgaPutc c con = cgaCursor (cgaScroll { con with
      crtPos := (con.crtPos + CRT_COLS) % 2 ^ 16 - (con.crtPos + CRT_COLS) % 2 ^ 16 % CRT_COLS }) := by
  have h₁ : c &&& 0xFF ≠ 0x08 := by rw [hc]; decide
  rw [cgaPutc]
  simp only [withAttr_char, if_neg h₁, if_pos hc]

theorem cgaPutc_home {c : Word} (hc : c &&& 0xFF = 0x0D) (con : Console) :
    cgaPutc c con = cgaCursor (cgaScroll { con with crtPos := con.crtPos - con.crtPos % CRT_COLS }) := by
  have h₁ : c &&& 0xFF ≠ 0x08 := by rw [hc]; decide
  have h₂ : c &&& 0xFF ≠ 0x0A := by rw [hc]; decide
  rw [cgaPutc]
  simp only [withAttr_char, if_neg h₁, if_neg h₂, if_pos hc]

theorem cgaPutc_write {c : Word} (h₁ : c &&& 0xFF ≠ 0x08) (h₂ : c &&& 0xFF ≠ 0x0A)
    (h₃ : c &&& 0xFF ≠ 0x0D) (h₄ : c &&& 0xFF ≠ 0x09) (con : Console) :
    cgaPutc c con = cgaCursor (cgaScroll { con.putCell con.crtPos (glyph c) with
      crtPos := (con.crtPos + 1) % 2 ^ 16 }) := by
  rw [cgaPutc]
  simp only [withAttr_char, if_neg h₁, if_neg h₂, if_neg h₃, dif_neg h₄]
  rfl

theorem cgaPutc_paints {c : Word} (h₁ : c &&& 0xFF ≠ 0x08) (h₂ : c &&& 0xFF ≠ 0x0A)
    (h₃ : c &&& 0xFF ≠ 0x0D) (con : Console) : Painted con con.crtPos (cgaPutc c con) := by
  by_cases h₄ : c &&& 0xFF = 0x09
  · have hblank : ∀ con, Painted con con.crtPos (consPutc 0x20 con) := by
      intro con
      rw [consPutc, cgaPutc_write (by decide) (by decide) (by decide) (by decide)]
      exact painted_putCell (lptPutc 0x20 (serialPutc 0x20 con)) con.crtPos _ _
    have hkeep : ∀ con, con.mem.stores <:+ (consPutc 0x20 con).mem.stores := fun con =>
      (List.suffix_cons _ _).trans (hblank con)
    rw [cgaPutc_tab h₄]
    exact (hblank con).trans ((hkeep _).trans ((hkeep _).trans ((hkeep _).trans
      ((hkeep _).trans (drawn_finish _).suffix))))
  · rw [cgaPutc_write h₁ h₂ h₃ h₄]
    exact painted_putCell con con.crtPos _ _

theorem Recovers.cgaPutc {con : Console} {c : Word} (h : Recovers con.crtPos c)
    (hpos : con.crtPos < 2 ^ 16) :
    Drawn con (cgaPutc c con) ∧ (cgaPutc c con).crtPos < CRT_SIZE := by
  have hsize : CRT_SIZE = 2000 := rfl
  have hcols : CRT_COLS = 80 := rfl
  rcases h with ⟨hc, hat⟩ | ⟨hc, hat⟩ | ⟨hc, hat⟩
  · rw [cgaPutc_erase hc (by omega), finish_crtPos]
    have hput : Drawn con (con.putCell (con.crtPos - 1) _) :=
      drawn_putCell ((withAttr c &&& ~~~0xFF ||| 0x20).setWidth 16) (by omega)
    refine ⟨(hput.setPos _).trans (drawn_finish _), ?_⟩
    dsimp only
    rw [hcols]
    split_ifs <;> omega
  · rw [cgaPutc_home hc, finish_crtPos]
    refine ⟨((Drawn.refl con).setPos _).trans (drawn_finish _), ?_⟩
    dsimp only
    rw [hcols]
    split_ifs <;> omega
  · rw [cgaPutc_newline hc, finish_crtPos]
    refine ⟨((Drawn.refl con).setPos _).trans (drawn_finish _), ?_⟩
    dsimp only
    rw [hcols]
    split_ifs <;> omega

/-- Any other character leaves the cursor below the screen or is stored there. -/
theorem cgaPutc_strays {con : Console} {c : Word} (h : ¬ Recovers con.crtPos c)
    (hoff : CRT_SIZE ≤ con.crtPos) (hpos : con.crtPos < 2 ^ 16) :
    CRT_SIZE ≤ (cgaPutc c con).crtPos ∨ ∃ i, CRT_SIZE ≤ i ∧ Painted con i (cgaPutc c con) := by
  have hsize : CRT_SIZE = 2000 := rfl
  have hcols : CRT_COLS = 80 := rfl
  simp only [Recovers, not_or, not_and] at h
  obtain ⟨herase, hhome, hnewline⟩ := h
  by_cases h₁ : c &&& 0xFF = 0x08
  · have hne := herase h₁
    refine .inr ⟨con.crtPos - 1, by omega, ?_⟩
    rw [cgaPutc_erase h₁ (by omega)]
    exact painted_putCell con _ _ _
  by_cases h₂ : c &&& 0xFF = 0x0A
  · have hlt := hnewline h₂
    rw [cgaPutc_newline h₂, finish_crtPos]
    refine .inl ?_
    dsimp only
    rw [hcols]
    split_ifs <;> omega
  by_cases h₃ : c &&& 0xFF = 0x0D
  · have hge := hhome h₃
    rw [cgaPutc_home h₃, finish_crtPos]
    refine .inl ?_
    dsimp only
    rw [hcols]
    split_ifs <;> omega
  · exact .inr ⟨con.crtPos, hoff, cgaPutc_paints h₁ h₂ h₃ con⟩

theorem staysOnScreen_nil (con : Console) : StaysOnScreen con [] :=
  ⟨.refl con, fun _ hpre hne => absurd (List.prefix_nil.mp hpre) hne⟩

theorem cgaRun_lt {con : Console} (h : con.crtPos < CRT_SIZE) (calls : List Word) :
    Drawn con (cgaRun calls con) ∧ (cgaRun calls con).crtPos < CRT_SIZE := by
  obtain ⟨hdrawn, hshows⟩ := (shows_start h).foldl_cgaPutc calls
  exact ⟨hdrawn, hshows.lt⟩

theorem staysOnScreen_cons_of {con : Console} {c : Word} (calls : List Word)
    (hdrawn : Drawn con (cgaPutc c con)) (hlt : (cgaPutc c con).crtPos < CRT_SIZE) :
    StaysOnScreen con (c :: calls) := by
  refine ⟨hdrawn.trans (cgaRun_lt hlt calls).1, fun pre hpre hne => ?_⟩
  obtain ⟨x, pre, rfl⟩ := List.exists_cons_of_ne_nil hne
  obtain ⟨rfl, -⟩ := List.cons_prefix_cons.mp hpre
  exact (cgaRun_lt hlt pre).2

theorem staysOnScreen_cons_iff {con : Console} {c : Word} (calls : List Word)
    (hpos : con.crtPos < 2 ^ 16) :
    StaysOnScreen con (c :: calls) ↔ con.crtPos < CRT_SIZE ∨ Recovers con.crtPos c := by
  by_cases hon : con.crtPos < CRT_SIZE
  · have hfirst := cgaRun_lt hon [c]
    exact iff_of_true (staysOnScreen_cons_of calls hfirst.1 hfirst.2) (.inl hon)
  have hoff : CRT_SIZE ≤ con.crtPos := Nat.le_of_not_lt hon
  rw [or_iff_right hon]
  refine ⟨fun hstays => ?_, fun hrec => ?_⟩
  · have hlt : (cgaPutc c con).crtPos < CRT_SIZE :=
      hstays.pos [c] (List.prefix_iff_eq_append.mpr rfl) (List.cons_ne_nil c [])
    by_contra hrec
    rcases cgaPutc_strays hrec hoff hpos with hge | ⟨i, hi, hpainted⟩
    · omega
    · have hlast : Painted con i (cgaRun (c :: calls) con) :=
        hpainted.trans (cgaRun_lt hlt calls).1.suffix
      have hin := hlast.lt hstays.drawn
      omega
  · obtain ⟨hdrawn, hlt⟩ := hrec.cgaPutc hpos
    exact staysOnScreen_cons_of calls hdrawn hlt

/-- The calls stay on the screen from the cursor found, except when it is off the
screen and the first of them does not bring it back. -/
theorem cga_stays_iff (hw : Display) (m : Memory) (calls : List Word) :
    StaysOnScreen (cgaInit hw m) calls ↔
      hw.cursor < CRT_SIZE ∨ ∀ c ∈ calls.head?, Recovers hw.cursor c := by
  cases calls with
  | nil => exact iff_of_true (staysOnScreen_nil _) (.inr (by simp))
  | cons c calls =>
    have hpos := cgaInit_crtPos hw m
    rw [staysOnScreen_cons_iff calls (hpos ▸ hw.cursor_lt), hpos]
    simp

/-- A cursor parked one cell below the screen. -/
def parked : Display :=
  ⟨true, 0x07, 0xD0⟩

theorem cga_leaves_screen :
    ¬ ∀ (hw : Display) (m : Memory) (calls : List Word), StaysOnScreen (cgaInit hw m) calls := by
  intro h
  have hstays := h parked ⟨fun _ => 0, []⟩ [0x41]
  have hpos : (cgaInit parked ⟨fun _ => 0, []⟩).crtPos = 2000 := cgaInit_crtPos parked _
  rw [staysOnScreen_cons_iff [] (by rw [hpos]; decide), hpos] at hstays
  revert hstays
  decide

end Jos
