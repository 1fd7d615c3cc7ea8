import Jos.Bits
import Jos.Loop
import Jos.Memory

/-! `boot/main.c`, the disk half: `readsect` programs the first IDE disk and
reads one sector, `readseg` reads the sectors around a range of memory. -/

namespace Jos

def SECTSIZE : Nat := 512

/-- The disk controller transfers the bytes from `transfer` on once it has got
a read command. Polling it only waits, so it leaves no trace here. -/
structure Machine where
  mem : Memory
  disk : Nat → Byte
  count : Byte
  lbaLow : Byte
  lbaMid : Byte
  lbaHigh : Byte
  device : Byte
  transfer : Nat

namespace Machine

/-- The sector number in the registers of the controller: four bits of it are
in the one that selects the device. -/
def lba (pc : Machine) : Nat :=
  pc.lbaLow.toNat + 2 ^ 8 * pc.lbaMid.toNat + 2 ^ 16 * pc.lbaHigh.toNat + 2 ^ 24 * (pc.device.toNat % 16)

def outb (port : Nat) (b : Byte) (pc : Machine) : Machine :=
  if port = 0x1F2 then { pc with count := b }
  else if port = 0x1F3 then { pc with lbaLow := b }
  else if port = 0x1F4 then { pc with lbaMid := b }
  else if port = 0x1F5 then { pc with lbaHigh := b }
  else if port = 0x1F6 then { pc with device := b }
  else if port = 0x1F7 ∧ b = 0x20 then { pc with transfer := SECTSIZE * pc.lba }
  else pc

/-- `insl` from the data port, `cnt` words of four bytes. -/
def insl (dst cnt : Nat) (pc : Machine) : Machine :=
  { pc with mem := pc.mem.storeBlock dst (4 * cnt) fun i => pc.disk (pc.transfer + i) }

end Machine

def readsect (dst offset : Word) (pc : Machine) : Machine :=
  let pc := pc.outb 0x1F2 1
  let pc := pc.outb 0x1F3 (offset.setWidth 8)
  let pc := pc.outb 0x1F4 ((offset >>> 8).setWidth 8)
  let pc := pc.outb 0x1F5 ((offset >>> 16).setWidth 8)
  let pc := pc.outb 0x1F6 ((offset >>> 24 ||| 0xE0).setWidth 8)
  let pc := pc.outb 0x1F7 0x20
  pc.insl dst.toNat (SECTSIZE / 4)

structure Sectors where
  pa : Word
  offset : Word
  pc : Machine

def readsegBody (endPa : Word) (st : Sectors) : Option (Turn Sectors Machine) :=
  if st.pa < endPa then
    some (.again ⟨st.pa + 512, st.offset + 1, readsect st.pa st.offset st.pc⟩)
  else some (.leave st.pc)

/-- There are `2 ^ 23` sectors of memory, so a loop that goes on longer never ends. -/
def readseg (pa count offset : Word) (pc : Machine) : Option Machine :=
  loop (readsegBody (pa + count)) (2 ^ 23 + 1) ⟨pa &&& ~~~511, offset / 512 + 1, pc⟩

theorem device_mod (offset : Word) :
    ((offset >>> 24 ||| 0xE0).setWidth 8).toNat % 16 = offset.toNat / 2 ^ 24 % 16 := by
  have hor : (offset.toNat / 2 ^ 24 ||| 0xE0) % 2 ^ 4 = offset.toNat / 2 ^ 24 % 2 ^ 4 := by
    rw [Nat.or_mod_two_pow]
    exact Nat.or_zero _
  rw [BitVec.toNat_setWidth, BitVec.toNat_or, BitVec.toNat_ushiftRight, Nat.shiftRight_eq_div_pow,
    Nat.mod_mod_of_dvd _ (by decide)]
  exact hor

theorem readsect_lba (offset : Word) (h : offset.toNat < 2 ^ 28) :
    (offset.setWidth 8).toNat + 2 ^ 8 * ((offset >>> 8).setWidth 8).toNat +
      2 ^ 16 * ((offset >>> 16).setWidth 8).toNat +
      2 ^ 24 * (((offset >>> 24 ||| 0xE0).setWidth 8).toNat % 16) = offset.toNat := by
  rw [device_mod]
  simp only [BitVec.toNat_setWidth, BitVec.toNat_ushiftRight, Nat.shiftRight_eq_div_pow]
  omega

theorem readsect_mem (dst : Word) {offset : Word} (h : offset.toNat < 2 ^ 28) (pc : Machine) :
    (readsect dst offset pc).mem = pc.mem.storeBlock dst.toNat SECTSIZE fun i =>
      pc.disk (SECTSIZE * offset.toNat + i) := by
  have hraw : (readsect dst offset pc).mem = pc.mem.storeBlock dst.toNat SECTSIZE fun i =>
      pc.disk (SECTSIZE * ((offset.setWidth 8).toNat + 2 ^ 8 * ((offset >>> 8).setWidth 8).toNat +
        2 ^ 16 * ((offset >>> 16).setWidth 8).toNat +
        2 ^ 24 * (((offset >>> 24 ||| 0xE0).setWidth 8).toNat % 16)) + i) := rfl
  rw [hraw, readsect_lba offset h]

def sectorFloor (a : Nat) : Nat :=
  a / 512 * 512

def sectorCeil (a : Nat) : Nat :=
  (a + 511) / 512 * 512

theorem toNat_floor (pa : Word) : (pa &&& ~~~(511 : Word)).toNat = sectorFloor pa.toNat :=
  toNat_and_not_low pa 9

/-- The state of `readseg` for `pa` and `offset` after `k` sectors. -/
structure Reads (pa offset : Word) (pc : Machine) (k : Nat) (st : Sectors) : Prop where
  start : st.pa.toNat = sectorFloor pa.toNat + 512 * k
  sector : st.offset.toNat = offset.toNat / 512 + 1 + k
  disk : st.pc.disk = pc.disk
  bytes : ∀ a, st.pc.mem.byte a =
    if sectorFloor pa.toNat ≤ a ∧ a < sectorFloor pa.toNat + 512 * k then
      pc.disk (512 + (a - sectorFloor pa.toNat) + sectorFloor offset.toNat)
    else pc.mem.byte a
  within : Memory.Within (sectorFloor pa.toNat) (sectorFloor pa.toNat + 512 * k) pc.mem st.pc.mem

theorem reads_start (pa offset : Word) (pc : Machine) :
    Reads pa offset pc 0 ⟨pa &&& ~~~511, offset / 512 + 1, pc⟩ := by
  refine ⟨by rw [toNat_floor, Nat.mul_zero, Nat.add_zero], ?_, rfl, fun a => ?_, .refl _ _ _⟩
  · have hdiv : (offset / 512).toNat = offset.toNat / 512 := BitVec.toNat_udiv
    have hone : (1 : Word).toNat = 1 := rfl
    have := offset.isLt
    rw [BitVec.toNat_add, hdiv, hone]
    omega
  · rw [if_neg (by omega)]

theorem Reads.step {pa offset : Word} {pc : Machine} {k : Nat} {st : Sectors}
    (h : Reads pa offset pc k st) (hroom : st.pa.toNat + 512 < 2 ^ 32) :
    Reads pa offset pc (k + 1) ⟨st.pa + 512, st.offset + 1, readsect st.pa st.offset st.pc⟩ := by
  have hstart := h.start
  have hsector := h.sector
  have hoffset := offset.isLt
  have hlt : st.offset.toNat < 2 ^ 28 := by omega
  have hmem := readsect_mem st.pa hlt st.pc
  have hfloor : sectorFloor offset.toNat = offset.toNat / 512 * 512 := rfl
  have hsize : (512 : Word).toNat = 512 := rfl
  have hone : (1 : Word).toNat = 1 := rfl
  refine ⟨?_, ?_, h.disk, fun a => ?_, ?_⟩
  · rw [BitVec.toNat_add, hsize]
    omega
  · rw [BitVec.toNat_add, hone]
    omega
  · rw [hmem]
    by_cases hnew : st.pa.toNat ≤ a ∧ a < st.pa.toNat + 512
    · have hat : SECTSIZE * st.offset.toNat + (a - st.pa.toNat) =
          512 + (a - sectorFloor pa.toNat) + sectorFloor offset.toNat := by
        rw [SECTSIZE]
        omega
      rw [if_pos (by omega), ← hat, ← h.disk]
      exact if_pos hnew
    · have hold : (st.pc.mem.storeBlock st.pa.toNat SECTSIZE fun i =>
          st.pc.disk (SECTSIZE * st.offset.toNat + i)).byte a = st.pc.mem.byte a := if_neg hnew
      rw [hold, h.bytes]
      exact if_congr (by omega) rfl rfl
  · rw [hmem]
    refine (h.within.mono le_rfl (by omega)).trans (Memory.within_storeBlock _ _ (by omega) ?_)
    rw [SECTSIZE]
    omega

theorem sectorFloor_le (a : Nat) : sectorFloor a ≤ a :=
  Nat.div_mul_le_self a 512

theorem le_sectorCeil (a : Nat) : a ≤ sectorCeil a := by
  rw [sectorCeil]
  omega

/-- The last sector of the memory is out of reach here, so the pointer never wraps. -/
theorem Reads.turn {pa offset : Word} {pc : Machine} {k : Nat} {st : Sectors}
    (hk : Reads pa offset pc k st) {count : Word} (h : pa.toNat + count.toNat ≤ 2 ^ 32 - 512)
    (hceil : sectorFloor pa.toNat + 512 * k ≤ sectorCeil (pa.toNat + count.toNat)) :
    (readsegBody (pa + count) st = some (.leave st.pc) ∧
      sectorFloor pa.toNat + 512 * k = sectorCeil (pa.toNat + count.toNat)) ∨
    ∃ st', readsegBody (pa + count) st = some (.again st') ∧ Reads pa offset pc (k + 1) st' ∧
      sectorFloor pa.toNat + 512 * (k + 1) ≤ sectorCeil (pa.toNat + count.toNat) := by
  have hend : (pa + count).toNat = pa.toNat + count.toNat := by
    rw [BitVec.toNat_add]
    omega
  have hfloor : sectorFloor pa.toNat = pa.toNat / 512 * 512 := rfl
  have hround : sectorCeil (pa.toNat + count.toNat) = (pa.toNat + count.toNat + 511) / 512 * 512 := rfl
  have hstart := hk.start
  by_cases hlt : st.pa < pa + count
  · have hlt' : st.pa.toNat < pa.toNat + count.toNat := hend ▸ BitVec.lt_def.mp hlt
    exact .inr ⟨_, if_pos hlt, hk.step (by omega), by omega⟩
  · have hge : pa.toNat + count.toNat ≤ st.pa.toNat := by
      rw [← hend]
      exact BitVec.le_def.mp (BitVec.not_lt.mp hlt)
    exact .inl ⟨if_neg hlt, by omega⟩

theorem sectorFloor_le_sectorCeil (a n : Nat) : sectorFloor a ≤ sectorCeil (a + n) :=
  calc sectorFloor a ≤ a := sectorFloor_le a
    _ ≤ a + n := Nat.le_add_right a n
    _ ≤ sectorCeil (a + n) := le_sectorCeil (a + n)

/-- `readseg` copies whole sectors, from the one that holds `pa` to the one that
holds the last byte. -/
theorem readseg_spec (pa count offset : Word) (pc : Machine)
    (h : pa.toNat + count.toNat ≤ 2 ^ 32 - 512) :
    ∃ pc', readseg pa count offset pc = some pc' ∧ pc'.disk = pc.disk ∧
      (∀ a, pc'.mem.byte a =
        if sectorFloor pa.toNat ≤ a ∧ a < sectorCeil (pa.toNat + count.toNat) then
          pc.disk (512 + (a - sectorFloor pa.toNat) + sectorFloor offset.toNat)
        else pc.mem.byte a) ∧
      Memory.Within (sectorFloor pa.toNat) (sectorCeil (pa.toNat + count.toNat)) pc.mem pc'.mem := by
  have hround : sectorCeil (pa.toNat + count.toNat) = (pa.toNat + count.toNat + 511) / 512 * 512 := rfl
  refine loop_total (fun st => ∃ k, Reads pa offset pc k st ∧
      sectorFloor pa.toNat + 512 * k ≤ sectorCeil (pa.toNat + count.toNat))
    (fun st => (sectorCeil (pa.toNat + count.toNat) - st.pa.toNat) / 512) ?_
    ⟨0, reads_start pa offset pc, ?_⟩ ?_
  · rintro st ⟨k, hk, hceil⟩
    have hstart := hk.start
    rcases hk.turn h hceil with ⟨hleave, hall⟩ | ⟨st', hagain, hnext, hceil'⟩
    · refine .inl ⟨st.pc, hleave, hk.disk, ?_⟩
      rw [← hall]
      exact ⟨hk.bytes, hk.within⟩
    · have hstart' := hnext.start
      exact .inr ⟨st', hagain, ⟨k + 1, hnext, hceil'⟩, by omega⟩
  · rw [Nat.mul_zero, Nat.add_zero]
    exact sectorFloor_le_sectorCeil _ _
  · omega

end Jos
