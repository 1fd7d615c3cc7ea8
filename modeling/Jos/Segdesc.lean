import Jos.BitFields
import Jos.Bits
import Jos.Memory

/-! Segment descriptors of `inc/mmu.h`: the bit-fields that the C compiler lays out,
and the bytes that the macro for the assembler emits. -/

namespace Jos

structure Segdesc where
  sdLim15_0 : BitVec 16
  sdBase15_0 : BitVec 16
  sdBase23_16 : BitVec 8
  sdType : BitVec 4
  sdS : BitVec 1
  sdDpl : BitVec 2
  sdP : BitVec 1
  sdLim19_16 : BitVec 4
  sdAvl : BitVec 1
  sdRsv1 : BitVec 1
  sdDb : BitVec 1
  sdG : BitVec 1
  sdBase31_24 : BitVec 8

namespace Segdesc

def fields (d : Segdesc) : List BitField :=
  [⟨16, d.sdLim15_0⟩, ⟨16, d.sdBase15_0⟩, ⟨8, d.sdBase23_16⟩, ⟨4, d.sdType⟩, ⟨1, d.sdS⟩, ⟨2, d.sdDpl⟩,
    ⟨1, d.sdP⟩, ⟨4, d.sdLim19_16⟩, ⟨1, d.sdAvl⟩, ⟨1, d.sdRsv1⟩, ⟨1, d.sdDb⟩, ⟨1, d.sdG⟩,
    ⟨8, d.sdBase31_24⟩]

/-- The units are those of `unsigned`. -/
def packed (d : Segdesc) : Nat :=
  packFrom 32 0 d.fields

def bytes (d : Segdesc) : List Byte :=
  bytesFrom d.packed 0 8

/-- `SEG(type, base, lim, dpl)` of C. -/
def seg (type base lim dpl : Word) : Segdesc where
  sdLim15_0 := (lim >>> 12 &&& 0xFFFF).setWidth 16
  sdBase15_0 := (base &&& 0xFFFF).setWidth 16
  sdBase23_16 := (base >>> 16 &&& 0xFF).setWidth 8
  sdType := type.setWidth 4
  sdS := 1
  sdDpl := dpl.setWidth 2
  sdP := 1
  sdLim19_16 := (lim >>> 28).setWidth 4
  sdAvl := 0
  sdRsv1 := 0
  sdDb := 1
  sdG := 1
  sdBase31_24 := (base >>> 24).setWidth 8

end Segdesc

/-- `.word` -/
def dotWord (e : Word) : List Byte :=
  [e.extractLsb' 0 8, e.extractLsb' 8 8]

/-- `.byte` -/
def dotByte (e : Word) : List Byte :=
  [e.setWidth 8]

/-- `SEG(type, base, lim)` of the assembler. -/
def segAsm (type base lim : Word) : List Byte :=
  dotWord (lim >>> 12 &&& 0xFFFF) ++ dotWord (base &&& 0xFFFF) ++
    dotByte (base >>> 16 &&& 0xFF) ++ dotByte (0x90 ||| type) ++
    dotByte (0xC0 ||| lim >>> 28 &&& 0xF) ++ dotByte (base >>> 24 &&& 0xFF)

/-- What the processor makes of a descriptor. -/
structure Descriptor where
  base : Word
  limit : Word
  type : BitVec 4
  s : BitVec 1
  dpl : BitVec 2
  p : BitVec 1
  db : BitVec 1
  deriving DecidableEq

namespace Descriptor

/-- A limit in pages is one of the last byte of a page. -/
def scaled (g : BitVec 1) (lim : BitVec 20) : Word :=
  if g = 1 then lim ++ (0xFFF : BitVec 12) else lim.setWidth 32

def decode (bytes : List Byte) : Descriptor :=
  let q := fromBytes bytes
  { base := bitsAt q 56 8 ++ bitsAt q 32 8 ++ bitsAt q 16 16
    limit := scaled (bitsAt q 55 1) (bitsAt q 48 4 ++ bitsAt q 0 16)
    type := bitsAt q 40 4
    s := bitsAt q 44 1
    dpl := bitsAt q 45 2
    p := bitsAt q 47 1
    db := bitsAt q 54 1 }

end Descriptor

namespace Segdesc

/-- No field crosses from the first `unsigned` into the second, so none is moved. -/
theorem placed (d : Segdesc) : placeFrom 32 0 d.fields =
    [(0, ⟨16, d.sdLim15_0⟩), (16, ⟨16, d.sdBase15_0⟩), (32, ⟨8, d.sdBase23_16⟩), (40, ⟨4, d.sdType⟩),
      (44, ⟨1, d.sdS⟩), (45, ⟨2, d.sdDpl⟩), (47, ⟨1, d.sdP⟩), (48, ⟨4, d.sdLim19_16⟩),
      (52, ⟨1, d.sdAvl⟩), (53, ⟨1, d.sdRsv1⟩), (54, ⟨1, d.sdDb⟩), (55, ⟨1, d.sdG⟩),
      (56, ⟨8, d.sdBase31_24⟩)] := by
  simp [fields, placeFrom, place]

theorem bitsAt_packed (d : Segdesc) : ∀ p ∈ placeFrom 32 0 d.fields,
    bitsAt d.packed p.1 p.2.width = p.2.value :=
  fun _ hp => bitsAt_packFrom (by decide) hp

theorem bitsAt_bytes (d : Segdesc) {off width : Nat} (h : off + width ≤ 64) :
    bitsAt (fromBytes d.bytes) off width = bitsAt d.packed off width := by
  rw [bytes, fromBytes_bytesFrom, Nat.pow_zero, Nat.div_one]
  exact bitsAt_mod d.packed h

/-- The processor reads the fields that the compiler laid out. -/
theorem decode_bytes (d : Segdesc) : Descriptor.decode d.bytes =
    { base := d.sdBase31_24 ++ d.sdBase23_16 ++ d.sdBase15_0
      limit := Descriptor.scaled d.sdG (d.sdLim19_16 ++ d.sdLim15_0)
      type := d.sdType
      s := d.sdS
      dpl := d.sdDpl
      p := d.sdP
      db := d.sdDb } := by
  have hfields := d.bitsAt_packed
  simp only [placed, List.forall_mem_cons] at hfields
  obtain ⟨hlim, hbase, hmid, htype, hs, hdpl, hp, hlim', -, -, hdb, hg, htop, -⟩ := hfields
  simp (disch := decide) only [Descriptor.decode, bitsAt_bytes]
  rw [hlim, hbase, hmid, htype, hs, hdpl, hp, hlim', hdb, hg, htop]

theorem bytes_eq (d : Segdesc) : d.bytes =
    [d.sdLim15_0.extractLsb' 0 8, d.sdLim15_0.extractLsb' 8 8,
      d.sdBase15_0.extractLsb' 0 8, d.sdBase15_0.extractLsb' 8 8,
      d.sdBase23_16, d.sdP ++ d.sdDpl ++ d.sdS ++ d.sdType,
      d.sdG ++ d.sdDb ++ d.sdRsv1 ++ d.sdAvl ++ d.sdLim19_16, d.sdBase31_24] := by
  have hfields := d.bitsAt_packed
  simp only [placed, List.forall_mem_cons] at hfields
  obtain ⟨hlim, hbase, hmid, htype, hs, hdpl, hp, hlim', havl, hrsv, hdb, hg, htop, -⟩ := hfields
  rw [← hlim, ← hbase, ← hmid, ← htype, ← hs, ← hdpl, ← hp, ← hlim', ← havl, ← hrsv, ← hdb, ← hg, ← htop]
  rw [extract_bitsAt _ _ (by decide), extract_bitsAt _ _ (by decide), extract_bitsAt _ _ (by decide),
    extract_bitsAt _ _ (by decide)]
  have haccess : bitsAt d.packed 47 1 ++ bitsAt d.packed 45 2 ++ bitsAt d.packed 44 1 ++
      bitsAt d.packed 40 4 = bitsAt d.packed 40 8 := by
    rw [bitsAt_append d.packed 45 2 1, bitsAt_append d.packed 44 1 (1 + 2),
      bitsAt_append d.packed 40 4 (1 + 2 + 1)]
  have hflags : bitsAt d.packed 55 1 ++ bitsAt d.packed 54 1 ++ bitsAt d.packed 53 1 ++
      bitsAt d.packed 52 1 ++ bitsAt d.packed 48 4 = bitsAt d.packed 48 8 := by
    rw [bitsAt_append d.packed 54 1 1, bitsAt_append d.packed 53 1 (1 + 1),
      bitsAt_append d.packed 52 1 (1 + 1 + 1), bitsAt_append d.packed 48 4 (1 + 1 + 1 + 1)]
  rw [haccess, hflags]
  rfl

end Segdesc

theorem seg_base (base : Word) :
    (base >>> 24).setWidth 8 ++ (base >>> 16 &&& 0xFF).setWidth 8 ++ (base &&& 0xFFFF).setWidth 16 =
      base := by
  have hmid : (base >>> 16 &&& 0xFF).setWidth 8 = bitsAt base.toNat 16 8 :=
    (setWidth_and_low _ (by decide)).trans (setWidth_shift base 16 8)
  have hlow : (base &&& 0xFFFF).setWidth 16 = bitsAt base.toNat 0 16 := by
    rw [← setWidth_shift base 0 16, BitVec.ushiftRight_zero]
    exact setWidth_and_low base (by decide)
  rw [setWidth_shift, hmid, hlow, bitsAt_append _ 16 8 8, bitsAt_append _ 0 16 (8 + 8)]
  exact bitsAt_toNat base

theorem seg_limit (lim : Word) :
    Descriptor.scaled 1 ((lim >>> 28).setWidth 4 ++ (lim >>> 12 &&& 0xFFFF).setWidth 16) =
      lim ||| 0xFFF := by
  have hlow : (lim >>> 12 &&& 0xFFFF).setWidth 16 = bitsAt lim.toNat 12 16 :=
    (setWidth_and_low _ (by decide)).trans (setWidth_shift lim 12 16)
  rw [setWidth_shift, hlow, bitsAt_append _ 12 16 4, Descriptor.scaled, if_pos rfl]
  apply BitVec.eq_of_getLsbD_eq
  intro i hi
  have hones : (0xFFF : Word).getLsbD i = decide (i < 12) := getLsbD_low 12 hi
  rw [BitVec.getLsbD_append, BitVec.getLsbD_or, hones, getLsbD_bitsAt]
  by_cases hlt : i < 12
  · have hones' : (0xFFF : BitVec 12).getLsbD i = decide (i < 12) := getLsbD_low 12 hlt
    rw [if_pos hlt, hones', decide_eq_true hlt, Bool.or_true]
  · have hat : 12 + (i - 12) = i := by omega
    rw [if_neg hlt, decide_eq_true (by omega), decide_eq_false hlt, Bool.true_and, Bool.or_false, hat]
    rfl

/-- The byte of the type, and the one of the flags. -/
theorem access_byte (type : BitVec 4) :
    (1 : BitVec 1) ++ (0 : BitVec 2) ++ (1 : BitVec 1) ++ type =
      (0x90 ||| type.setWidth 32 : Word).setWidth 8 := by
  have hall : ∀ n < 16, (1 : BitVec 1) ++ (0 : BitVec 2) ++ (1 : BitVec 1) ++ BitVec.ofNat 4 n =
      (0x90 ||| (BitVec.ofNat 4 n).setWidth 32 : Word).setWidth 8 := by decide
  simpa using hall type.toNat type.isLt

theorem flags_byte (lim : Word) :
    (1 : BitVec 1) ++ (1 : BitVec 1) ++ (0 : BitVec 1) ++ (0 : BitVec 1) ++ (lim >>> 28).setWidth 4 =
      (0xC0 ||| lim >>> 28 &&& 0xF).setWidth 8 := by
  have hall : ∀ n < 16, (1 : BitVec 1) ++ (1 : BitVec 1) ++ (0 : BitVec 1) ++ (0 : BitVec 1) ++
      (BitVec.ofNat 32 n).setWidth 4 = (0xC0 ||| BitVec.ofNat 32 n &&& 0xF : Word).setWidth 8 := by
        decide
  have hlt : (lim >>> 28).toNat < 16 := by
    have := lim.isLt
    rw [BitVec.toNat_ushiftRight, Nat.shiftRight_eq_div_pow]
    omega
  have hn := hall _ hlt
  rwa [BitVec.ofNat_toNat, BitVec.setWidth_eq] at hn

theorem bytes_seg (type : BitVec 4) (base lim : Word) :
    (Segdesc.seg (type.setWidth 32) base lim 0).bytes = segAsm (type.setWidth 32) base lim := by
  have hword (e : Word) : dotWord e =
    [(e.setWidth 16).extractLsb' 0 8, (e.setWidth 16).extractLsb' 8 8] := by
    rw [BitVec.extractLsb'_setWidth_of_le (by decide),
      BitVec.extractLsb'_setWidth_of_le (by decide), dotWord]
  have htype : (type.setWidth 32).setWidth 4 = type := by simp
  have htop : (base >>> 24 &&& 0xFF).setWidth 8 = (base >>> 24).setWidth 8 :=
    setWidth_and_low _ (by decide)
  rw [Segdesc.bytes_eq, segAsm, hword, hword]
  simp only [dotByte]
  rw [← flags_byte, ← access_byte, htop, Segdesc.seg, htype]
  rfl

/-- Both macros encode the same descriptor, and the processor gets back what was
encoded, the limit with the last byte of its last page. -/
theorem seg_encodings_agree (type : BitVec 4) (base lim : Word) :
    segAsm (type.setWidth 32) base lim = (Segdesc.seg (type.setWidth 32) base lim 0).bytes ∧
      Descriptor.decode (segAsm (type.setWidth 32) base lim) =
        { base := base, limit := lim ||| 0xFFF, type := type, s := 1, dpl := 0, p := 1, db := 1 } := by
  have hbytes := bytes_seg type base lim
  have htype : (type.setWidth 32).setWidth 4 = type := by simp
  refine ⟨hbytes.symm, ?_⟩
  rw [← hbytes, Segdesc.decode_bytes]
  simp only [Segdesc.seg]
  rw [seg_base, seg_limit, htype]
  rfl

example : segAsm 0xA 0 0xFFFFFFFF = [0xFF, 0xFF, 0, 0, 0, 0x9A, 0xCF, 0] := by
  decide

end Jos
