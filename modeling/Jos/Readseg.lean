import Jos.Disk

/-! `readseg` of `boot/main.c`, sector by sector: what is programmed for each of
them, and how many there are. -/

namespace Jos

/-- `readseg`, given up when it goes on after `n` sectors. -/
def readsegUpTo (n : Nat) (pa count offset : Word) (pc : Machine) : Option Machine :=
  loop (readsegBody (pa + count)) (n + 1) ⟨pa &&& ~~~511, offset / 512 + 1, pc⟩

theorem readsegUpTo_all : readsegUpTo (2 ^ 23) = readseg :=
  rfl

/-- The sectors that `readseg` reads: the arguments of each call of `readsect` and
the machine before it. -/
def sectorsRead (pa count offset : Word) (pc : Machine) : List Sectors :=
  rounds (readsegBody (pa + count)) (2 ^ 23 + 1) ⟨pa &&& ~~~511, offset / 512 + 1, pc⟩

/-- What the call of `readsect` in `st` programs makes up the sector number, and
the device register keeps the bits that ask for the first disk by block address. -/
structure Programs (st : Sectors) : Prop where
  number : (readsect st.pa st.offset st.pc).lba = st.offset.toNat
  drive : (readsect st.pa st.offset st.pc).device.toNat / 16 = 0xE

theorem device_div {offset : Word} (h : offset.toNat < 2 ^ 28) :
    ((offset >>> 24 ||| 0xE0).setWidth 8).toNat / 16 = 0xE := by
  have hor : ∀ y < 16, (y ||| 0xE0) % 2 ^ 8 / 16 = 0xE := by decide
  rw [BitVec.toNat_setWidth, BitVec.toNat_or, BitVec.toNat_ushiftRight, Nat.shiftRight_eq_div_pow]
  exact hor _ (by omega)

theorem programs {st : Sectors} (h : st.offset.toNat < 2 ^ 28) : Programs st :=
  ⟨readsect_lba st.offset h, device_div h⟩

theorem sectorsRead_spec (pa count offset : Word) (pc : Machine)
    (h : pa.toNat + count.toNat ≤ 2 ^ 32 - 512) :
    (sectorsRead pa count offset pc).length =
        (sectorCeil (pa.toNat + count.toNat) - sectorFloor pa.toNat) / 512 ∧
      ∀ k st, (sectorsRead pa count offset pc)[k]? = some st → Reads pa offset pc k st := by
  have hround : sectorCeil (pa.toNat + count.toNat) = (pa.toNat + count.toNat + 511) / 512 * 512 := rfl
  have hfirst := reads_start pa offset pc
  have hstart := hfirst.start
  have hle := sectorFloor_le_sectorCeil pa.toNat count.toNat
  have hbody : ∀ k st, Reads pa offset pc k st ∧
      sectorFloor pa.toNat + 512 * k ≤ sectorCeil (pa.toNat + count.toNat) →
      (∃ pc', readsegBody (pa + count) st = some (.leave pc') ∧
        (sectorCeil (pa.toNat + count.toNat) - st.pa.toNat) / 512 = 0) ∨
      ∃ st', readsegBody (pa + count) st = some (.again st') ∧
        (Reads pa offset pc (k + 1) st' ∧
          sectorFloor pa.toNat + 512 * (k + 1) ≤ sectorCeil (pa.toNat + count.toNat)) ∧
        (sectorCeil (pa.toNat + count.toNat) - st.pa.toNat) / 512 =
          (sectorCeil (pa.toNat + count.toNat) - st'.pa.toNat) / 512 + 1 := by
    intro k st hst
    have hat := hst.1.start
    rcases hst.1.turn h hst.2 with ⟨hleave, hend⟩ | ⟨st', hagain, hnext, hceil⟩
    · exact .inl ⟨st.pc, hleave, by omega⟩
    · have hat' := hnext.start
      exact .inr ⟨st', hagain, ⟨hnext, hceil⟩, by omega⟩
  obtain ⟨hlen, hall⟩ := rounds_spec _ _ hbody ⟨hfirst, by omega⟩
    (show _ < 2 ^ 23 + 1 by dsimp only; omega)
  refine ⟨?_, fun k st hst => ?_⟩
  · rw [← Nat.add_zero (sectorFloor pa.toNat), ← Nat.mul_zero 512, ← hstart]
    exact hlen
  · have hk := (hall k st hst).1
    rwa [Nat.zero_add] at hk

/-- When the range is as far into its first sector as the offset is, `readseg`
copies the image, from whole sectors around the range that it names in full. -/
theorem readseg_copies (pa count offset : Word) (pc : Machine) (image : Nat → Byte)
    (hmod : pa.toNat % 512 = offset.toNat % 512) (hend : pa.toNat + count.toNat ≤ 2 ^ 32 - 512)
    (himage : ∀ i, pc.disk (512 + i) = image i) :
    ∃ pc', readseg pa count offset pc = some pc' ∧
      (∀ i < count.toNat, pc'.mem.byte (pa.toNat + i) = image (offset.toNat + i)) ∧
      Memory.Within (sectorFloor pa.toNat) (sectorCeil (pa.toNat + count.toNat)) pc.mem pc'.mem ∧
      (sectorsRead pa count offset pc).length =
        (sectorCeil (pa.toNat + count.toNat) - sectorFloor pa.toNat) / 512 ∧
      ∀ k st, (sectorsRead pa count offset pc)[k]? = some st →
        st.pa.toNat = sectorFloor pa.toNat + 512 * k ∧
        st.offset.toNat = offset.toNat / 512 + 1 + k ∧ Programs st := by
  have hpa : sectorFloor pa.toNat = pa.toNat / 512 * 512 := rfl
  have hoffset : sectorFloor offset.toNat = offset.toNat / 512 * 512 := rfl
  have hround : sectorCeil (pa.toNat + count.toNat) = (pa.toNat + count.toNat + 511) / 512 * 512 := rfl
  obtain ⟨pc', hrun, -, hbytes, hin⟩ := readseg_spec pa count offset pc hend
  obtain ⟨hlen, hall⟩ := sectorsRead_spec pa count offset pc hend
  refine ⟨pc', hrun, fun i hi => ?_, hin, hlen, fun k st hk => ?_⟩
  · have hat : 512 + (pa.toNat + i - sectorFloor pa.toNat) + sectorFloor offset.toNat =
        512 + (offset.toNat + i) := by omega
    rw [hbytes, if_pos (by omega), hat, himage]
  · have hreads := hall k st hk
    have hlt : k < (sectorsRead pa count offset pc).length := (List.getElem?_eq_some_iff.mp hk).1
    have hsector := hreads.sector
    have hoff := offset.isLt
    exact ⟨hreads.start, hsector, programs (by omega)⟩

/-- Each byte of the disk is the low half of its index. -/
def striped : Machine where
  mem := ⟨fun _ => 0, []⟩
  disk := BitVec.ofNat 8
  count := 0
  lbaLow := 0
  lbaMid := 0
  lbaHigh := 0
  device := 0
  transfer := 0

theorem readseg_copies_page :
    ∃ pc', readseg 0x10010 0x1000 0x1010 striped = some pc' ∧
      (∀ i < 0x1000, pc'.mem.byte (0x10010 + i) = BitVec.ofNat 8 (512 + (0x1010 + i))) ∧
      Memory.Within (sectorFloor 0x10010) (sectorCeil 0x11010) striped.mem pc'.mem ∧
      (sectorsRead 0x10010 0x1000 0x1010 striped).length =
        (sectorCeil 0x11010 - sectorFloor 0x10010) / 512 ∧
      ∀ k st, (sectorsRead 0x10010 0x1000 0x1010 striped)[k]? = some st →
        st.pa.toNat = sectorFloor 0x10010 + 512 * k ∧ st.offset.toNat = 0x1010 / 512 + 1 + k ∧
          Programs st :=
  readseg_copies 0x10010 0x1000 0x1010 striped (fun i => BitVec.ofNat 8 (512 + i)) (by decide)
    (by decide) fun _ => rfl

theorem sectorsRead_length_le {n : Nat} {pa count offset : Word} {pc pc' : Machine}
    (h : readsegUpTo n pa count offset pc = some pc') :
    (sectorsRead pa count offset pc).length ≤ n :=
  rounds_length_le h _

theorem toNat_add_sector (p : Word) : (p + 512).toNat = (p.toNat + 512) % 2 ^ 32 :=
  BitVec.toNat_add p 512

/-- No sector starts above the start of the last one, so a loop that is to stop
there goes round to the bottom of the memory. -/
theorem readseg_endless {pa count : Word} (h : 2 ^ 32 - 512 < (pa + count).toNat) (offset : Word)
    (pc : Machine) (n : Nat) : readsegUpTo n pa count offset pc = none := by
  refine loop_endless (fun st => st.pa.toNat % 512 = 0) (fun st hst => ?_) ?_ _
  · have hlt : st.pa < pa + count := BitVec.lt_def.mpr (by omega)
    refine ⟨_, if_pos hlt, ?_⟩
    rw [toNat_add_sector]
    omega
  · rw [toNat_floor, sectorFloor]
    omega

/-- A sum that wraps leaves less than one sector to read. -/
theorem sectorsLeft_le (pa count : Word) :
    ((pa + count).toNat + 511 - sectorFloor pa.toNat) / 512 ≤ count.toNat / 512 + 2 := by
  have hfloor : sectorFloor pa.toNat = pa.toNat / 512 * 512 := rfl
  have hsum : (pa + count).toNat = (pa.toNat + count.toNat) % 2 ^ 32 := BitVec.toNat_add pa count
  have hpa := pa.isLt
  have hcount := count.isLt
  omega

theorem readseg_ends (pa count offset : Word) (pc : Machine) (h : (pa + count).toNat ≤ 2 ^ 32 - 512) :
    ∃ pc', readsegUpTo (count.toNat / 512 + 2) pa count offset pc = some pc' := by
  have hbound := sectorsLeft_le pa count
  have hrun : ∃ pc', readsegUpTo (count.toNat / 512 + 2) pa count offset pc = some pc' ∧ True := by
    refine loop_total (fun _ => True)
      (fun st => ((pa + count).toNat + 511 - st.pa.toNat) / 512) (fun st _ => ?_) trivial ?_
    · by_cases hlt : st.pa < pa + count
      · have hlt' := BitVec.lt_def.mp hlt
        refine .inr ⟨_, if_pos hlt, trivial, ?_⟩
        rw [toNat_add_sector]
        omega
      · exact .inl ⟨st.pc, if_neg hlt, trivial⟩
    · rw [toNat_floor]
      omega
  obtain ⟨pc', hpc', -⟩ := hrun
  exact ⟨pc', hpc'⟩

/-- The loop of `readseg` ends within two sectors more than `count` fills, except
when it is to stop above the start of the last sector of the memory. -/
theorem readseg_ends_iff (pa count offset : Word) (pc : Machine) :
    (∃ pc', readsegUpTo (count.toNat / 512 + 2) pa count offset pc = some pc') ↔
      (pa + count).toNat ≤ 2 ^ 32 - 512 := by
  refine ⟨fun ⟨pc', hrun⟩ => ?_, readseg_ends pa count offset pc⟩
  by_contra hend
  rw [readseg_endless (by omega)] at hrun
  cases hrun

theorem readseg_goes_round :
    ¬ ∀ (pa count offset : Word) (pc : Machine),
      ∃ pc', readsegUpTo (count.toNat / 512 + 2) pa count offset pc = some pc' := by
  intro h
  obtain ⟨pc', hrun⟩ := h 0xFFFFFE00 0x1FF 0 striped
  rw [readseg_endless (by decide)] at hrun
  cases hrun

end Jos
