import Jos.ConsoleRoll

/-! What of the console's output the serial line carries. -/

namespace Jos

/-- The bytes written to the transmit register of COM1. -/
def Console.sent (con : Console) : List Byte :=
  con.out.filterMap fun (port, b) => if port = COM1 + COM_TX then some b else none

namespace Console

theorem sent_outb (con : Console) (port : Nat) (b : Byte) :
    (con.outb port b).sent = con.sent ++ if port = COM1 + COM_TX then [b] else [] := by
  simp only [sent, outb, List.filterMap_append, List.filterMap_cons, List.filterMap_nil]
  split_ifs <;> rfl

theorem sent_outb_other (con : Console) {port : Nat} (b : Byte) (h : port ≠ COM1 + COM_TX) :
    (con.outb port b).sent = con.sent := by
  rw [sent_outb, if_neg h, List.append_nil]

theorem addr6845_ne (con : Console) :
    con.addr6845 ≠ COM1 + COM_TX ∧ con.addr6845 + 1 ≠ COM1 + COM_TX := by
  unfold addr6845
  cases con.adapter <;> decide

end Console

theorem serialPutc_sent (c : Word) (con : Console) :
    (serialPutc c con).sent = con.sent ++ [c.setWidth 8] := by
  rw [serialPutc, Console.sent_outb, if_pos rfl]

theorem lptPutc_sent (c : Word) (con : Console) : (lptPutc c con).sent = con.sent := by
  rw [lptPutc, Console.sent_outb_other _ _ (by decide), Console.sent_outb_other _ _ (by decide),
    Console.sent_outb_other _ _ (by decide)]

theorem cgaCursor_sent (con : Console) : (cgaCursor con).sent = con.sent := by
  obtain ⟨hindex, hdata⟩ := con.addr6845_ne
  rw [cgaCursor, Console.sent_outb_other _ _ hdata, Console.sent_outb_other _ _ hindex,
    Console.sent_outb_other _ _ hdata, Console.sent_outb_other _ _ hindex]

theorem blankRow_out (con : Console) : (blankRow con).out = con.out := by
  unfold blankRow
  generalize List.range' _ _ = cells
  induction cells generalizing con with
  | nil => rfl
  | cons i cells ih => exact ih (con.putCell i (0x0700 ||| 0x20))

theorem moveRows_out (con : Console) : (moveRows con).out = con.out := rfl

theorem cgaScroll_out (con : Console) : (cgaScroll con).out = con.out := by
  unfold cgaScroll
  split_ifs
  · dsimp only
    rw [blankRow_out, moveRows_out]
  · rfl

theorem cgaFinish_sent (con : Console) : (cgaCursor (cgaScroll con)).sent = con.sent := by
  rw [cgaCursor_sent, Console.sent, cgaScroll_out, Console.sent]

theorem cgaPutc_sent_of_ne_tab {c : Word} (hc : c &&& 0xFF ≠ 0x09) (con : Console) :
    (cgaPutc c con).sent = con.sent := by
  rw [cgaPutc]
  simp only [withAttr_char]
  rw [cgaFinish_sent]
  split_ifs <;> rfl

theorem consPutc_sent_of_ne_tab {c : Word} (hc : c &&& 0xFF ≠ 0x09) (con : Console) :
    (consPutc c con).sent = con.sent ++ [c.setWidth 8] := by
  rw [consPutc, cgaPutc_sent_of_ne_tab hc, lptPutc_sent, serialPutc_sent]

theorem consPutc_sent_tab {c : Word} (hc : c &&& 0xFF = 0x09) (con : Console) :
    (consPutc c con).sent = con.sent ++ c.setWidth 8 :: List.replicate 5 0x20 := by
  have hblank := consPutc_sent_of_ne_tab (c := 0x20) (by decide)
  rw [consPutc, cgaPutc_tab hc, cgaFinish_sent, hblank, hblank, hblank, hblank, hblank, lptPutc_sent,
    serialPutc_sent]
  simp only [List.append_assoc]
  rfl

def sentFor (c : Word) : List Byte :=
  c.setWidth 8 :: if c &&& 0xFF = 0x09 then List.replicate 5 0x20 else []

theorem cputchar_sent (c : Word) (con : Console) : (cputchar c con).sent = con.sent ++ sentFor c := by
  rw [cputchar, sentFor]
  split_ifs with hc
  · exact consPutc_sent_tab hc con
  · exact consPutc_sent_of_ne_tab hc con

theorem foldl_cputchar_sent (cs : List Word) (con : Console) :
    (cs.foldl (fun con c => cputchar c con) con).sent = con.sent ++ cs.flatMap sentFor := by
  induction cs generalizing con with
  | nil => exact (List.append_nil _).symm
  | cons c cs ih =>
    rw [List.foldl_cons, ih, cputchar_sent, List.flatMap_cons, List.append_assoc]

theorem length_le_sent (cs : List Word) : cs.length ≤ (cs.flatMap sentFor).length := by
  induction cs with
  | nil => exact le_rfl
  | cons c cs ih =>
    simp only [List.flatMap_cons, List.length_append, List.length_cons, sentFor]
    omega

/-- The screen writes a tab as five blanks through all the devices, so the line
carries just what was printed only where no tab is. -/
theorem cputchar_sent_iff (con : Console) (cs : List Word) :
    (cs.foldl (fun con c => cputchar c con) con).sent = con.sent ++ cs.map (·.setWidth 8) ↔
      ∀ c ∈ cs, c &&& 0xFF ≠ 0x09 := by
  rw [foldl_cputchar_sent, List.append_cancel_left_eq]
  induction cs with
  | nil => simp
  | cons c cs ih =>
    rw [List.flatMap_cons, List.map_cons, sentFor, List.cons_append, List.cons_inj_right,
      List.forall_mem_cons]
    by_cases hc : c &&& 0xFF = 0x09
    · have hlen := length_le_sent cs
      refine iff_of_false (fun h => ?_) fun h => h.1 hc
      have hlens := congrArg List.length h
      rw [if_pos hc, List.length_append, List.length_replicate, List.length_map] at hlens
      omega
    · rw [if_neg hc, List.nil_append, ih, and_iff_right hc]

/-- A tab, and then the blanks the screen makes of it. -/
theorem cputchar_sends_blanks :
    let con : Console := ⟨⟨fun _ => 0, []⟩, .cga, 0, []⟩
    (cputchar 0x09 con).sent = con.sent ++ [0x09, 0x20, 0x20, 0x20, 0x20, 0x20] ∧
      (cputchar 0x09 con).sent ≠ con.sent ++ [(0x09 : Word)].map (·.setWidth 8) := by
  intro con
  have hsent : (cputchar 0x09 con).sent = con.sent ++ [0x09, 0x20, 0x20, 0x20, 0x20, 0x20] :=
    cputchar_sent 0x09 con
  refine ⟨hsent, ?_⟩
  rw [hsent]
  decide

end Jos
