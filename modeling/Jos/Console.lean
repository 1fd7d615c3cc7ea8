import Jos.StringFns
import Mathlib.Data.BitVec

/-! `kern/console.c`, the output half: every character goes to the serial
port, the parallel port and the CGA screen. The ready polls of the two ports
only wait, so they leave no trace here. -/

namespace Jos

def COM1 : Nat := 0x3F8
def COM_TX : Nat := 0
def LPT1 : Nat := 0x378

def KERNBASE : Nat := 0xF0000000
def CGA_BUF : Nat := 0xB8000
def CGA_BASE : Nat := 0x3D4
def MONO_BUF : Nat := 0xB0000
def MONO_BASE : Nat := 0x3B4
def CRT_ROWS : Nat := 25
def CRT_COLS : Nat := 80
def CRT_SIZE : Nat := CRT_ROWS * CRT_COLS

inductive Adapter where
  | cga
  | mono
  deriving DecidableEq, Repr

/-- `out` lists the bytes written to I/O ports, the earliest first. -/
structure Console where
  mem : Memory
  adapter : Adapter
  crtPos : Nat
  out : List (Nat × Byte)

namespace Console

def crtBuf (con : Console) : Nat :=
  match con.adapter with
  | .cga => KERNBASE + CGA_BUF
  | .mono => KERNBASE + MONO_BUF

def addr6845 (con : Console) : Nat :=
  match con.adapter with
  | .cga => CGA_BASE
  | .mono => MONO_BASE

def outb (con : Console) (port : Nat) (b : Byte) : Console :=
  { con with out := con.out ++ [(port, b)] }

/-- `crt_buf[i]` -/
def cell (con : Console) (i : Nat) : BitVec 16 :=
  con.mem.load16 (con.crtBuf + 2 * i)

/-- `crt_buf[i] = v` -/
def putCell (con : Console) (i : Nat) (v : BitVec 16) : Console :=
  { con with mem := con.mem.store16 (con.crtBuf + 2 * i) v }

end Console

def serialPutc (c : Word) (con : Console) : Console :=
  con.outb (COM1 + COM_TX) (c.setWidth 8)

def lptPutc (c : Word) (con : Console) : Console :=
  ((con.outb (LPT1 + 0) (c.setWidth 8)).outb (LPT1 + 2) (0x08 ||| 0x04 ||| 0x01)).outb (LPT1 + 2) 0x08

/-- A character without an attribute is black on white. -/
def withAttr (c : Word) : Word :=
  if c &&& ~~~0xFF = 0 then c ||| 0x0700 else c

theorem withAttr_char (c : Word) : withAttr c &&& 0xFF = c &&& 0xFF := by
  unfold withAttr
  split_ifs
  · rw [BitVec.and_comm, BitVec.and_or_distrib_left]
    simp [BitVec.and_comm]
  · rfl

def moveRows (con : Console) : Console :=
  { con with mem := memmove con.mem con.crtBuf (con.crtBuf + 2 * CRT_COLS) ((CRT_SIZE - CRT_COLS) * 2) }

def blankRow (con : Console) : Console :=
  (List.range' (CRT_SIZE - CRT_COLS) CRT_COLS).foldl (fun con i => con.putCell i (0x0700 ||| 0x20)) con

/-- The part of `cga_putc` after the `switch` that scrolls. -/
def cgaScroll (con : Console) : Console :=
  if con.crtPos ≥ CRT_SIZE then
    { blankRow (moveRows con) with crtPos := con.crtPos - CRT_COLS }
  else con

/-- The part of `cga_putc` that moves the cursor of the 6845. -/
def cgaCursor (con : Console) : Console :=
  let pos := BitVec.ofNat 16 con.crtPos
  (((con.outb con.addr6845 14).outb (con.addr6845 + 1) ((pos >>> 8).setWidth 8)).outb
    con.addr6845 15).outb (con.addr6845 + 1) (pos.setWidth 8)

mutual

/-- `crt_pos` is a `uint16_t`. -/
def cgaPutc (c : Word) (con : Console) : Console :=
  let ch := withAttr c &&& 0xFF
  let con :=
    if ch = 0x08 then
      if con.crtPos > 0 then
        { con with crtPos := con.crtPos - 1 }.putCell (con.crtPos - 1)
          ((withAttr c &&& ~~~0xFF ||| 0x20).setWidth 16)
      else con
    else if ch = 0x0A then
      let pos := (con.crtPos + CRT_COLS) % 2 ^ 16
      { con with crtPos := pos - pos % CRT_COLS }
    else if ch = 0x0D then
      { con with crtPos := con.crtPos - con.crtPos % CRT_COLS }
    else if _h : ch = 0x09 then
      consPutc 0x20 (consPutc 0x20 (consPutc 0x20 (consPutc 0x20 (consPutc 0x20 con))))
    else
      { con.putCell con.crtPos ((withAttr c).setWidth 16) with crtPos := (con.crtPos + 1) % 2 ^ 16 }
  cgaCursor (cgaScroll con)
termination_by if c &&& 0xFF = 0x09 then 2 else 0
decreasing_by
  all_goals
    have hc : c &&& 0xFF = 0x09 := (withAttr_char c).symm.trans _h
    rw [if_pos hc]
    decide

def consPutc (c : Word) (con : Console) : Console :=
  cgaPutc c (lptPutc c (serialPutc c con))
termination_by (if c &&& 0xFF = 0x09 then 2 else 0) + 1

end

def cputchar (c : Word) (con : Console) : Console :=
  consPutc c con

end Jos
