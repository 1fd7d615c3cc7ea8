import Jos.Disk
import Jos.Overlay

/-! `bootmain` of `boot/main.c`: the kernel image on disk, the memory that its
segments are loaded into, and when each of them comes out whole. -/

namespace Jos

def ELFHDR : Word := 0x10000

def ELF_MAGIC : Word := 0x464C457F

structure Headers where
  ph : Word
  pc : Machine

/-- A program header takes 32 bytes, with `p_offset` 4, `p_pa` 12 and `p_memsz`
20 bytes into it. It is read again from memory on each turn. -/
def bootBody (eph : Word) (st : Headers) : Option (Turn Headers Machine) :=
  if st.ph < eph then
    (readseg (st.pc.mem.load32 (st.ph + 12).toNat) (st.pc.mem.load32 (st.ph + 20).toNat)
      (st.pc.mem.load32 (st.ph + 4).toNat) st.pc).map fun pc => .again ⟨st.ph + 32, pc⟩
  else some (.leave st.pc)

/-- The loop makes at most `e_phnum` turns, a number of sixteen bits. -/
def loadSegments (ph eph : Word) (pc : Machine) : Option Machine :=
  loop (bootBody eph) (2 ^ 16 + 1) ⟨ph, pc⟩

/-- Where control goes from `bootmain`: it spins at `bad`, or calls the kernel. -/
inductive Control where
  | bad
  | entry (va : Word)

def bootmain (pc : Machine) : Option (Control × Machine) :=
  (readseg ELFHDR (BitVec.ofNat 32 (SECTSIZE * 8)) 0 pc).bind fun pc =>
    if pc.mem.load32 ELFHDR.toNat ≠ ELF_MAGIC then some (.bad, pc)
    else
      let ph := ELFHDR + pc.mem.load32 (ELFHDR + 28).toNat
      let eph := ph + 32 * (pc.mem.load16 (ELFHDR + 44).toNat).setWidth 32
      (loadSegments ph eph pc).map fun pc => (.entry (pc.mem.load32 (ELFHDR + 24).toNat), pc)

def word16 (f : Nat → Byte) (k : Nat) : BitVec 16 :=
  f (k + 1) ++ f k

def word32 (f : Nat → Byte) (k : Nat) : Word :=
  f (k + 3) ++ f (k + 2) ++ f (k + 1) ++ f k

structure Segment where
  pa : Word
  memsz : Word
  offset : Word

namespace Segment

def stop (s : Segment) : Nat := s.pa.toNat + s.memsz.toNat

def Holds (s : Segment) (a : Nat) : Prop := s.pa.toNat ≤ a ∧ a < s.stop

def source (s : Segment) (a : Nat) : Nat := a + s.offset.toNat - s.pa.toNat

structure Sound (s : Segment) : Prop where
  nonempty : 0 < s.memsz.toNat
  congruent : s.pa.toNat % 512 = s.offset.toNat % 512
  room : s.stop ≤ 2 ^ 32 - 512
  apart : sectorCeil s.stop ≤ 0x10000 ∨ 0x11000 ≤ sectorFloor s.pa.toNat

end Segment

def phoff (f : Nat → Byte) : Nat := (word32 f 28).toNat

def phnum (f : Nat → Byte) : Nat := (word16 f 44).toNat

def segment (f : Nat → Byte) (i : Nat) : Segment where
  pa := word32 f (phoff f + 32 * i + 12)
  memsz := word32 f (phoff f + 32 * i + 20)
  offset := word32 f (phoff f + 32 * i + 4)

/-- A kernel image that a linker may well make: `byte` is the file. -/
structure KernelImage where
  byte : Nat → Byte
  magic : word32 byte 0 = ELF_MAGIC
  table : phoff byte + 32 * phnum byte ≤ 4096
  sound : ∀ i < phnum byte, (segment byte i).Sound
  ordered : ∀ i j, i < j → j < phnum byte → (segment byte i).stop ≤ (segment byte j).pa.toNat

/-- The kernel starts at the second sector of the disk. -/
def KernelImage.On (img : KernelImage) (pc : Machine) : Prop :=
  ∀ k, pc.disk (512 + k) = img.byte k

/-- `bootmain` calls the kernel with every segment in its place. -/
def KernelImage.Intact (img : KernelImage) (pc : Machine) : Prop :=
  ∃ pc', bootmain pc = some (.entry (word32 img.byte 24), pc') ∧
    ∀ i < phnum img.byte, ∀ a, (segment img.byte i).Holds a →
      pc'.mem.byte a = img.byte ((segment img.byte i).source a)

/-- Where the last later segment that starts in the sector of a byte of segment
`i` puts a byte over it, the image has equal bytes for the two. -/
def KernelImage.TailsAgree (img : KernelImage) : Prop :=
  ∀ i j a, i < j → j < phnum img.byte → (segment img.byte i).Holds a →
    sectorFloor (segment img.byte j).pa.toNat ≤ a →
    (∀ k, j < k → k < phnum img.byte → a < sectorFloor (segment img.byte k).pa.toNat) →
    img.byte ((segment img.byte j).source a) = img.byte ((segment img.byte i).source a)

def KernelImage.patch (img : KernelImage) (i a : Nat) : Option Byte :=
  if sectorFloor (segment img.byte i).pa.toNat ≤ a ∧ a < sectorCeil (segment img.byte i).stop then
    some (img.byte ((segment img.byte i).source a))
  else none

theorem Segment.Sound.source_eq {s : Segment} (h : s.Sound) {a : Nat}
    (ha : sectorFloor s.pa.toNat ≤ a) :
    512 + (a - sectorFloor s.pa.toNat) + sectorFloor s.offset.toNat = 512 + s.source a := by
  have hcong := h.congruent
  rw [Segment.source]
  rw [sectorFloor] at ha
  rw [sectorFloor, sectorFloor]
  omega

theorem load_segment (img : KernelImage) {pc : Machine} (hon : img.On pc) {i : Nat}
    (hi : i < phnum img.byte) :
    ∃ pc', readseg (segment img.byte i).pa (segment img.byte i).memsz (segment img.byte i).offset pc =
        some pc' ∧ img.On pc' ∧ ∀ a, pc'.mem.byte a = (img.patch i a).getD (pc.mem.byte a) := by
  have hs := img.sound i hi
  obtain ⟨pc', hread, hdisk, hbytes, -⟩ := readseg_spec (segment img.byte i).pa
    (segment img.byte i).memsz (segment img.byte i).offset pc hs.room
  refine ⟨pc', hread, fun k => by rw [hdisk]; exact hon k, fun a => ?_⟩
  rw [hbytes, KernelImage.patch, ← Segment.stop]
  by_cases hin : sectorFloor (segment img.byte i).pa.toNat ≤ a ∧ a < sectorCeil (segment img.byte i).stop
  · rw [if_pos hin, if_pos hin, hs.source_eq hin.1, hon, Option.getD_some]
  · rw [if_neg hin, if_neg hin, Option.getD_none]

theorem patch_header (img : KernelImage) {i k : Nat} (hi : i < phnum img.byte) (hk : k < 4096) :
    img.patch i (0x10000 + k) = none := by
  have hapart := (img.sound i hi).apart
  exact if_neg (by omega)

def HeaderPage (f : Nat → Byte) (m : Memory) : Prop := ∀ k < 4096, m.byte (0x10000 + k) = f k

theorem HeaderPage.load32_eq {f : Nat → Byte} {m : Memory} (h : HeaderPage f m) {a k : Nat}
    (ha : a = 0x10000 + k) (hk : k + 4 ≤ 4096) : m.load32 a = word32 f k := by
  subst ha
  simp only [Memory.load32, word32, Nat.add_assoc, h k (by omega), h (k + 1) (by omega),
    h (k + 2) (by omega), h (k + 3) (by omega)]

theorem HeaderPage.load16_eq {f : Nat → Byte} {m : Memory} (h : HeaderPage f m) {a k : Nat}
    (ha : a = 0x10000 + k) (hk : k + 2 ≤ 4096) : m.load16 a = word16 f k := by
  subst ha
  simp only [Memory.load16, word16, Nat.add_assoc, h k (by omega), h (k + 1) (by omega)]

theorem load_headerPage (img : KernelImage) {pc : Machine} (hon : img.On pc) :
    ∃ pc', readseg ELFHDR (BitVec.ofNat 32 (SECTSIZE * 8)) 0 pc = some pc' ∧ img.On pc' ∧
      HeaderPage img.byte pc'.mem := by
  have hstart : ELFHDR.toNat = 0x10000 := rfl
  have hcount : (BitVec.ofNat 32 (SECTSIZE * 8)).toNat = 4096 := rfl
  have hzero : (0 : Word).toNat = 0 := rfl
  obtain ⟨pc', hread, hdisk, hbytes, -⟩ := readseg_spec ELFHDR (BitVec.ofNat 32 (SECTSIZE * 8)) 0 pc
    (by rw [hstart, hcount]; omega)
  refine ⟨pc', hread, fun k => by rw [hdisk]; exact hon k, fun k hk => ?_⟩
  have hfloor : sectorFloor 0x10000 = 0x10000 := rfl
  have hfloor' : sectorFloor 0 = 0 := rfl
  have hceil : sectorCeil (0x10000 + 4096) = 0x11000 := rfl
  rw [hbytes, hstart, hcount, hzero, hfloor, hfloor', hceil, if_pos ⟨by omega, by omega⟩,
    Nat.add_sub_cancel_left, Nat.add_zero]
  exact hon k

/-- The state of the loop after `i` turns that began in `pc`. -/
structure Loaded (img : KernelImage) (pc : Machine) (i : Nat) (st : Headers) : Prop where
  ph : st.ph.toNat = 0x10000 + (phoff img.byte + 32 * i)
  on : img.On st.pc
  bytes : ∀ a, st.pc.mem.byte a = overlay img.patch pc.mem.byte i a

theorem Loaded.header {img : KernelImage} {pc : Machine} {i : Nat} {st : Headers}
    (h : Loaded img pc i st) (hpage : HeaderPage img.byte pc.mem) (hi : i ≤ phnum img.byte) :
    HeaderPage img.byte st.pc.mem := by
  intro k hk
  rw [h.bytes, overlay_untouched fun j hj => patch_header img (by omega) hk]
  exact hpage k hk

theorem Loaded.field {img : KernelImage} {pc : Machine} {i : Nat} {st : Headers}
    (h : Loaded img pc i st) (hpage : HeaderPage img.byte pc.mem) (hi : i < phnum img.byte)
    {c : Word} (hc : c.toNat + 4 ≤ 32) :
    st.pc.mem.load32 (st.ph + c).toNat = word32 img.byte (phoff img.byte + 32 * i + c.toNat) := by
  have htable := img.table
  have hph := h.ph
  have hat : (st.ph + c).toNat = 0x10000 + (phoff img.byte + 32 * i + c.toNat) := by
    rw [BitVec.toNat_add]
    omega
  exact (h.header hpage (by omega)).load32_eq hat (by omega)

theorem Loaded.step {img : KernelImage} {pc : Machine} {i : Nat} {st : Headers}
    (h : Loaded img pc i st) (hpage : HeaderPage img.byte pc.mem) (hi : i < phnum img.byte)
    {eph : Word} (hlt : st.ph < eph) :
    ∃ st', bootBody eph st = some (.again st') ∧ Loaded img pc (i + 1) st' := by
  obtain ⟨pc', hread, hon, hbytes⟩ := load_segment img h.on hi
  refine ⟨⟨st.ph + 32, pc'⟩, ?_, ?_, hon, fun a => ?_⟩
  · have hpa : st.pc.mem.load32 (st.ph + 12).toNat = (segment img.byte i).pa :=
      h.field hpage hi (by decide)
    have hmemsz : st.pc.mem.load32 (st.ph + 20).toNat = (segment img.byte i).memsz :=
      h.field hpage hi (by decide)
    have hoffset : st.pc.mem.load32 (st.ph + 4).toNat = (segment img.byte i).offset :=
      h.field hpage hi (by decide)
    rw [bootBody, if_pos hlt, hpa, hmemsz, hoffset, hread, Option.map_some]
  · have htable := img.table
    have hph := h.ph
    have hsize : (32 : Word).toNat = 32 := rfl
    rw [BitVec.toNat_add, hsize]
    omega
  · rw [hbytes, h.bytes, overlay]

theorem load_segments (img : KernelImage) {pc : Machine} (hon : img.On pc)
    (hpage : HeaderPage img.byte pc.mem) {ph eph : Word}
    (hph : ph.toNat = 0x10000 + phoff img.byte)
    (heph : eph.toNat = 0x10000 + (phoff img.byte + 32 * phnum img.byte)) :
    ∃ pc', loadSegments ph eph pc = some pc' ∧ HeaderPage img.byte pc'.mem ∧
      ∀ a, pc'.mem.byte a = overlay img.patch pc.mem.byte (phnum img.byte) a := by
  refine loop_total (fun st => ∃ i ≤ phnum img.byte, Loaded img pc i st)
    (fun st => (eph.toNat - st.ph.toNat) / 32) ?_ ⟨0, Nat.zero_le _, ?_⟩ ?_
  · rintro st ⟨i, hi, h⟩
    have hat := h.ph
    by_cases hlt : st.ph < eph
    · have hlt' : st.ph.toNat < eph.toNat := BitVec.lt_def.mp hlt
      obtain ⟨st', hbody, h'⟩ := h.step hpage (by omega) hlt
      have hat' := h'.ph
      exact .inr ⟨st', hbody, ⟨i + 1, by omega, h'⟩, by omega⟩
    · have hge : eph.toNat ≤ st.ph.toNat := BitVec.le_def.mp (BitVec.not_lt.mp hlt)
      obtain rfl : i = phnum img.byte := by omega
      exact .inl ⟨st.pc, if_neg hlt, h.header hpage le_rfl, h.bytes⟩
  · exact ⟨by rw [hph, Nat.mul_zero, Nat.add_zero], hon, fun _ => rfl⟩
  · have hnum : phnum img.byte < 2 ^ 16 := BitVec.isLt _
    dsimp only
    omega

/-- `bootmain` leaves memory as the header page overwritten by one segment after
another, each of them rounded to sectors. -/
theorem bootmain_loads (img : KernelImage) {pc : Machine} (hon : img.On pc) :
    ∃ (m : Nat → Byte) (pc' : Machine), bootmain pc = some (.entry (word32 img.byte 24), pc') ∧
      ∀ a, pc'.mem.byte a = overlay img.patch m (phnum img.byte) a := by
  obtain ⟨pc₁, hread, hon₁, hpage⟩ := load_headerPage img hon
  have hmagic : pc₁.mem.load32 ELFHDR.toNat = ELF_MAGIC :=
    (hpage.load32_eq (k := 0) (by decide) (by decide)).trans img.magic
  have hoff : pc₁.mem.load32 (ELFHDR + 28).toNat = word32 img.byte 28 :=
    hpage.load32_eq (by decide) (by decide)
  have hnum : pc₁.mem.load16 (ELFHDR + 44).toNat = word16 img.byte 44 :=
    hpage.load16_eq (by decide) (by decide)
  have htable := img.table
  have hELFHDR : ELFHDR.toNat = 0x10000 := rfl
  have hph : (ELFHDR + word32 img.byte 28).toNat = 0x10000 + phoff img.byte := by
    rw [BitVec.toNat_add, hELFHDR, ← phoff]
    omega
  have hsize : (32 * (word16 img.byte 44).setWidth 32 : Word).toNat = 32 * phnum img.byte := by
    have h32 : (32 : Word).toNat = 32 := rfl
    rw [BitVec.toNat_mul, BitVec.toNat_setWidth, h32, ← phnum]
    omega
  have heph : (ELFHDR + word32 img.byte 28 + 32 * (word16 img.byte 44).setWidth 32).toNat =
      0x10000 + (phoff img.byte + 32 * phnum img.byte) := by
    rw [BitVec.toNat_add, hph, hsize]
    omega
  obtain ⟨pc₂, hloop, hpage₂, hbytes⟩ := load_segments img hon₁ hpage hph heph
  refine ⟨pc₁.mem.byte, pc₂, ?_, hbytes⟩
  have hentry : pc₂.mem.load32 (ELFHDR + 24).toNat = word32 img.byte 24 :=
    hpage₂.load32_eq (by decide) (by decide)
  rw [bootmain, hread, Option.bind_some, if_neg (not_not.mpr hmagic), hoff, hnum]
  dsimp only
  rw [hloop, Option.map_some, hentry]

theorem patch_own (img : KernelImage) {i a : Nat} (ha : (segment img.byte i).Holds a) :
    img.patch i a = some (img.byte ((segment img.byte i).source a)) :=
  if_pos ⟨(sectorFloor_le _).trans ha.1, ha.2.trans_le (le_sectorCeil _)⟩

/-- A later segment reaches down into this one by rounding its start only. -/
theorem patch_later (img : KernelImage) {i j a : Nat} (hij : i < j) (hj : j < phnum img.byte)
    (ha : (segment img.byte i).Holds a) :
    img.patch j a = if sectorFloor (segment img.byte j).pa.toNat ≤ a then
      some (img.byte ((segment img.byte j).source a)) else none := by
  have hbelow : a < sectorCeil (segment img.byte j).stop :=
    calc a < (segment img.byte i).stop := ha.2
      _ ≤ (segment img.byte j).pa.toNat := img.ordered i j hij hj
      _ ≤ (segment img.byte j).stop := Nat.le_add_right _ _
      _ ≤ sectorCeil (segment img.byte j).stop := le_sectorCeil _
  rw [KernelImage.patch]
  exact if_congr (and_iff_left hbelow) rfl rfl

theorem patch_later_none_iff (img : KernelImage) {i j a : Nat} (hij : i < j)
    (hj : j < phnum img.byte) (ha : (segment img.byte i).Holds a) :
    img.patch j a = none ↔ a < sectorFloor (segment img.byte j).pa.toNat := by
  rw [patch_later img hij hj ha]
  by_cases h : sectorFloor (segment img.byte j).pa.toNat ≤ a
  · have hge : ¬ a < sectorFloor (segment img.byte j).pa.toNat := by omega
    simp only [if_pos h, reduceCtorEq, hge]
  · have hlt : a < sectorFloor (segment img.byte j).pa.toNat := by omega
    simp only [if_neg h, hlt]

theorem overlay_own_iff (img : KernelImage) (m : Nat → Byte) {i a : Nat} (hi : i < phnum img.byte)
    (ha : (segment img.byte i).Holds a) :
    overlay img.patch m (phnum img.byte) a = img.byte ((segment img.byte i).source a) ↔
      ∀ j, i < j → j < phnum img.byte → sectorFloor (segment img.byte j).pa.toNat ≤ a →
        (∀ k, j < k → k < phnum img.byte → a < sectorFloor (segment img.byte k).pa.toNat) →
        img.byte ((segment img.byte j).source a) = img.byte ((segment img.byte i).source a) := by
  rw [overlay_eq_iff hi (patch_own img ha)]
  refine forall_congr' fun j => forall_congr' fun hij => forall_congr' fun hj => ?_
  have hlast : (∀ k, j < k → k < phnum img.byte → img.patch k a = none) ↔
      ∀ k, j < k → k < phnum img.byte → a < sectorFloor (segment img.byte k).pa.toNat :=
    forall_congr' fun k => forall_congr' fun hjk => forall_congr' fun hk =>
      patch_later_none_iff img (hij.trans hjk) hk ha
  rw [hlast, patch_later img hij hj ha]
  constructor
  · intro h hfloor hk
    exact h hk _ (if_pos hfloor)
  · intro h hk c hc
    by_cases hfloor : sectorFloor (segment img.byte j).pa.toNat ≤ a
    · rw [if_pos hfloor, Option.some.injEq] at hc
      exact hc ▸ h hfloor hk
    · rw [if_neg hfloor] at hc
      cases hc

/-- Every segment is loaded whole exactly when no later segment that starts in
the sector where it ends brings other bytes with it. -/
theorem bootmain_intact_iff (img : KernelImage) (pc : Machine) (hon : img.On pc) :
    img.Intact pc ↔ img.TailsAgree := by
  obtain ⟨m, pc', hboot, hbytes⟩ := bootmain_loads img hon
  constructor
  · rintro ⟨pc'', hboot', hall⟩ i j a hij hj ha
    obtain rfl : pc' = pc'' := (Prod.mk.inj (Option.some.inj (hboot.symm.trans hboot'))).2
    have hown := hall i (by omega) a ha
    rw [hbytes] at hown
    exact (overlay_own_iff img m (by omega) ha).mp hown j hij hj
  · intro hagree
    refine ⟨pc', hboot, fun i hi a ha => ?_⟩
    rw [hbytes]
    exact (overlay_own_iff img m hi ha).mpr fun j hij hj => hagree i j a hij hj ha

/-- Two segments of sixteen bytes that share a sector of memory but none of the file. -/
def sharedFile (k : Nat) : Byte :=
  ([(0, 0x7F), (1, 0x45), (2, 0x4C), (3, 0x46), (26, 0x10), (28, 52), (44, 2),
    (57, 0x10), (66, 0x10), (72, 0x10), (88, 0x10), (89, 0x20), (96, 0x10), (98, 0x10), (104, 0x10),
    (0x1000, 0xAA)].lookup k).getD 0

def sharedSector : KernelImage where
  byte := sharedFile
  magic := by decide
  table := by decide
  sound := by
    intro i hi
    have htwo : phnum sharedFile = 2 := by decide
    have hcases : i = 0 ∨ i = 1 := by omega
    rcases hcases with rfl | rfl
    · exact ⟨by decide, by decide, by decide, by decide⟩
    · exact ⟨by decide, by decide, by decide, by decide⟩
  ordered := by
    intro i j hij hj
    have htwo : phnum sharedFile = 2 := by decide
    obtain ⟨rfl, rfl⟩ : i = 0 ∧ j = 1 := by omega
    decide

def sharedDisk : Machine where
  mem := ⟨fun _ => 0, []⟩
  disk := fun k => sharedFile (k - 512)
  count := 0
  lbaLow := 0
  lbaMid := 0
  lbaHigh := 0
  device := 0
  transfer := 0

theorem sharedSector_on : sharedSector.On sharedDisk := by
  intro k
  simp only [sharedSector, sharedDisk, Nat.add_sub_cancel_left]

theorem bootmain_intact_iff_shared : sharedSector.Intact sharedDisk ↔ sharedSector.TailsAgree :=
  bootmain_intact_iff sharedSector sharedDisk sharedSector_on

theorem bootmain_damages_shared :
    ¬ ∀ (img : KernelImage) (pc : Machine), img.On pc → img.Intact pc := by
  intro h
  obtain ⟨pc', hboot, hall⟩ := h sharedSector sharedDisk sharedSector_on
  obtain ⟨m, pc'', hboot', hbytes⟩ := bootmain_loads sharedSector sharedSector_on
  obtain rfl : pc' = pc'' := (Prod.mk.inj (Option.some.inj (hboot.symm.trans hboot'))).2
  have hfirst : (segment sharedSector.byte 0).Holds 0x100000 := ⟨by decide, by decide⟩
  have hown := hall 0 (by decide) 0x100000 hfirst
  rw [hbytes] at hown
  have htwo : phnum sharedSector.byte = 2 := by decide
  have hlost := (overlay_own_iff sharedSector m (by decide) hfirst).mp hown 1 (by decide) (by decide)
    (by decide) fun k hk hkn => by omega
  revert hlost
  decide

end Jos
