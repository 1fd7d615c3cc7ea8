import Jos.BitFields
import Jos.Console
import Jos.Paging

/-! `kern/entrypgdir.c`: the page directory and the page table that `entry.S` turns
paging on with, and the address space that they make. -/

namespace Jos

/-- The numbers in the initializer of `entry_pgtable`, eight of its lines a line. -/
def entryFrames : List Nat :=
  [0x000000, 0x001000, 0x002000, 0x003000, 0x004000, 0x005000, 0x006000, 0x007000,
    0x008000, 0x009000, 0x00a000, 0x00b000, 0x00c000, 0x00d000, 0x00e000, 0x00f000,
    0x010000, 0x011000, 0x012000, 0x013000, 0x014000, 0x015000, 0x016000, 0x017000,
    0x018000, 0x019000, 0x01a000, 0x01b000, 0x01c000, 0x01d000, 0x01e000, 0x01f000,
    0x020000, 0x021000, 0x022000, 0x023000, 0x024000, 0x025000, 0x026000, 0x027000,
    0x028000, 0x029000, 0x02a000, 0x02b000, 0x02c000, 0x02d000, 0x02e000, 0x02f000,
    0x030000, 0x031000, 0x032000, 0x033000, 0x034000, 0x035000, 0x036000, 0x037000,
    0x038000, 0x039000, 0x03a000, 0x03b000, 0x03c000, 0x03d000, 0x03e000, 0x03f000,
    0x040000, 0x041000, 0x042000, 0x043000, 0x044000, 0x045000, 0x046000, 0x047000,
    0x048000, 0x049000, 0x04a000, 0x04b000, 0x04c000, 0x04d000, 0x04e000, 0x04f000,
    0x050000, 0x051000, 0x052000, 0x053000, 0x054000, 0x055000, 0x056000, 0x057000,
    0x058000, 0x059000, 0x05a000, 0x05b000, 0x05c000, 0x05d000, 0x05e000, 0x05f000,
    0x060000, 0x061000, 0x062000, 0x063000, 0x064000, 0x065000, 0x066000, 0x067000,
    0x068000, 0x069000, 0x06a000, 0x06b000, 0x06c000, 0x06d000, 0x06e000, 0x06f000,
    0x070000, 0x071000, 0x072000, 0x073000, 0x074000, 0x075000, 0x076000, 0x077000,
    0x078000, 0x079000, 0x07a000, 0x07b000, 0x07c000, 0x07d000, 0x07e000, 0x07f000,
    0x080000, 0x081000, 0x082000, 0x083000, 0x084000, 0x085000, 0x086000, 0x087000,
    0x088000, 0x089000, 0x08a000, 0x08b000, 0x08c000, 0x08d000, 0x08e000, 0x08f000,
    0x090000, 0x091000, 0x092000, 0x093000, 0x094000, 0x095000, 0x096000, 0x097000,
    0x098000, 0x099000, 0x09a000, 0x09b000, 0x09c000, 0x09d000, 0x09e000, 0x09f000,
    0x0a0000, 0x0a1000, 0x0a2000, 0x0a3000, 0x0a4000, 0x0a5000, 0x0a6000, 0x0a7000,
    0x0a8000, 0x0a9000, 0x0aa000, 0x0ab000, 0x0ac000, 0x0ad000, 0x0ae000, 0x0af000,
    0x0b0000, 0x0b1000, 0x0b2000, 0x0b3000, 0x0b4000, 0x0b5000, 0x0b6000, 0x0b7000,
    0x0b8000, 0x0b9000, 0x0ba000, 0x0bb000, 0x0bc000, 0x0bd000, 0x0be000, 0x0bf000,
    0x0c0000, 0x0c1000, 0x0c2000, 0x0c3000, 0x0c4000, 0x0c5000, 0x0c6000, 0x0c7000,
    0x0c8000, 0x0c9000, 0x0ca000, 0x0cb000, 0x0cc000, 0x0cd000, 0x0ce000, 0x0cf000,
    0x0d0000, 0x0d1000, 0x0d2000, 0x0d3000, 0x0d4000, 0x0d5000, 0x0d6000, 0x0d7000,
    0x0d8000, 0x0d9000, 0x0da000, 0x0db000, 0x0dc000, 0x0dd000, 0x0de000, 0x0df000,
    0x0e0000, 0x0e1000, 0x0e2000, 0x0e3000, 0x0e4000, 0x0e5000, 0x0e6000, 0x0e7000,
    0x0e8000, 0x0e9000, 0x0ea000, 0x0eb000, 0x0ec000, 0x0ed000, 0x0ee000, 0x0ef000,
    0x0f0000, 0x0f1000, 0x0f2000, 0x0f3000, 0x0f4000, 0x0f5000, 0x0f6000, 0x0f7000,
    0x0f8000, 0x0f9000, 0x0fa000, 0x0fb000, 0x0fc000, 0x0fd000, 0x0fe000, 0x0ff000,
    0x100000, 0x101000, 0x102000, 0x103000, 0x104000, 0x105000, 0x106000, 0x107000,
    0x108000, 0x109000, 0x10a000, 0x10b000, 0x10c000, 0x10d000, 0x10e000, 0x10f000,
    0x110000, 0x111000, 0x112000, 0x113000, 0x114000, 0x115000, 0x116000, 0x117000,
    0x118000, 0x119000, 0x11a000, 0x11b000, 0x11c000, 0x11d000, 0x11e000, 0x11f000,
    0x120000, 0x121000, 0x122000, 0x123000, 0x124000, 0x125000, 0x126000, 0x127000,
    0x128000, 0x129000, 0x12a000, 0x12b000, 0x12c000, 0x12d000, 0x12e000, 0x12f000,
    0x130000, 0x131000, 0x132000, 0x133000, 0x134000, 0x135000, 0x136000, 0x137000,
    0x138000, 0x139000, 0x13a000, 0x13b000, 0x13c000, 0x13d000, 0x13e000, 0x13f000,
    0x140000, 0x141000, 0x142000, 0x143000, 0x144000, 0x145000, 0x146000, 0x147000,
    0x148000, 0x149000, 0x14a000, 0x14b000, 0x14c000, 0x14d000, 0x14e000, 0x14f000,
    0x150000, 0x151000, 0x152000, 0x153000, 0x154000, 0x155000, 0x156000, 0x157000,
    0x158000, 0x159000, 0x15a000, 0x15b000, 0x15c000, 0x15d000, 0x15e000, 0x15f000,
    0x160000, 0x161000, 0x162000, 0x163000, 0x164000, 0x165000, 0x166000, 0x167000,
    0x168000, 0x169000, 0x16a000, 0x16b000, 0x16c000, 0x16d000, 0x16e000, 0x16f000,
    0x170000, 0x171000, 0x172000, 0x173000, 0x174000, 0x175000, 0x176000, 0x177000,
    0x178000, 0x179000, 0x17a000, 0x17b000, 0x17c000, 0x17d000, 0x17e000, 0x17f000,
    0x180000, 0x181000, 0x182000, 0x183000, 0x184000, 0x185000, 0x186000, 0x187000,
    0x188000, 0x189000, 0x18a000, 0x18b000, 0x18c000, 0x18d000, 0x18e000, 0x18f000,
    0x190000, 0x191000, 0x192000, 0x193000, 0x194000, 0x195000, 0x196000, 0x197000,
    0x198000, 0x199000, 0x19a000, 0x19b000, 0x19c000, 0x19d000, 0x19e000, 0x19f000,
    0x1a0000, 0x1a1000, 0x1a2000, 0x1a3000, 0x1a4000, 0x1a5000, 0x1a6000, 0x1a7000,
    0x1a8000, 0x1a9000, 0x1aa000, 0x1ab000, 0x1ac000, 0x1ad000, 0x1ae000, 0x1af000,
    0x1b0000, 0x1b1000, 0x1b2000, 0x1b3000, 0x1b4000, 0x1b5000, 0x1b6000, 0x1b7000,
    0x1b8000, 0x1b9000, 0x1ba000, 0x1bb000, 0x1bc000, 0x1bd000, 0x1be000, 0x1bf000,
    0x1c0000, 0x1c1000, 0x1c2000, 0x1c3000, 0x1c4000, 0x1c5000, 0x1c6000, 0x1c7000,
    0x1c8000, 0x1c9000, 0x1ca000, 0x1cb000, 0x1cc000, 0x1cd000, 0x1ce000, 0x1cf000,
    0x1d0000, 0x1d1000, 0x1d2000, 0x1d3000, 0x1d4000, 0x1d5000, 0x1d6000, 0x1d7000,
    0x1d8000, 0x1d9000, 0x1da000, 0x1db000, 0x1dc000, 0x1dd000, 0x1de000, 0x1df000,
    0x1e0000, 0x1e1000, 0x1e2000, 0x1e3000, 0x1e4000, 0x1e5000, 0x1e6000, 0x1e7000,
    0x1e8000, 0x1e9000, 0x1ea000, 0x1eb000, 0x1ec000, 0x1ed000, 0x1ee000, 0x1ef000,
    0x1f0000, 0x1f1000, 0x1f2000, 0x1f3000, 0x1f4000, 0x1f5000, 0x1f6000, 0x1f7000,
    0x1f8000, 0x1f9000, 0x1fa000, 0x1fb000, 0x1fc000, 0x1fd000, 0x1fe000, 0x1ff000,
    0x200000, 0x201000, 0x202000, 0x203000, 0x204000, 0x205000, 0x206000, 0x207000,
    0x208000, 0x209000, 0x20a000, 0x20b000, 0x20c000, 0x20d000, 0x20e000, 0x20f000,
    0x210000, 0x211000, 0x212000, 0x213000, 0x214000, 0x215000, 0x216000, 0x217000,
    0x218000, 0x219000, 0x21a000, 0x21b000, 0x21c000, 0x21d000, 0x21e000, 0x21f000,
    0x220000, 0x221000, 0x222000, 0x223000, 0x224000, 0x225000, 0x226000, 0x227000,
    0x228000, 0x229000, 0x22a000, 0x22b000, 0x22c000, 0x22d000, 0x22e000, 0x22f000,
    0x230000, 0x231000, 0x232000, 0x233000, 0x234000, 0x235000, 0x236000, 0x237000,
    0x238000, 0x239000, 0x23a000, 0x23b000, 0x23c000, 0x23d000, 0x23e000, 0x23f000,
    0x240000, 0x241000, 0x242000, 0x243000, 0x244000, 0x245000, 0x246000, 0x247000,
    0x248000, 0x249000, 0x24a000, 0x24b000, 0x24c000, 0x24d000, 0x24e000, 0x24f000,
    0x250000, 0x251000, 0x252000, 0x253000, 0x254000, 0x255000, 0x256000, 0x257000,
    0x258000, 0x259000, 0x25a000, 0x25b000, 0x25c000, 0x25d000, 0x25e000, 0x25f000,
    0x260000, 0x261000, 0x262000, 0x263000, 0x264000, 0x265000, 0x266000, 0x267000,
    0x268000, 0x269000, 0x26a000, 0x26b000, 0x26c000, 0x26d000, 0x26e000, 0x26f000,
    0x270000, 0x271000, 0x272000, 0x273000, 0x274000, 0x275000, 0x276000, 0x277000,
    0x278000, 0x279000, 0x27a000, 0x27b000, 0x27c000, 0x27d000, 0x27e000, 0x27f000,
    0x280000, 0x281000, 0x282000, 0x283000, 0x284000, 0x285000, 0x286000, 0x287000,
    0x288000, 0x289000, 0x28a000, 0x28b000, 0x28c000, 0x28d000, 0x28e000, 0x28f000,
    0x290000, 0x291000, 0x292000, 0x293000, 0x294000, 0x295000, 0x296000, 0x297000,
    0x298000, 0x299000, 0x29a000, 0x29b000, 0x29c000, 0x29d000, 0x29e000, 0x29f000,
    0x2a0000, 0x2a1000, 0x2a2000, 0x2a3000, 0x2a4000, 0x2a5000, 0x2a6000, 0x2a7000,
    0x2a8000, 0x2a9000, 0x2aa000, 0x2ab000, 0x2ac000, 0x2ad000, 0x2ae000, 0x2af000,
    0x2b0000, 0x2b1000, 0x2b2000, 0x2b3000, 0x2b4000, 0x2b5000, 0x2b6000, 0x2b7000,
    0x2b8000, 0x2b9000, 0x2ba000, 0x2bb000, 0x2bc000, 0x2bd000, 0x2be000, 0x2bf000,
    0x2c0000, 0x2c1000, 0x2c2000, 0x2c3000, 0x2c4000, 0x2c5000, 0x2c6000, 0x2c7000,
    0x2c8000, 0x2c9000, 0x2ca000, 0x2cb000, 0x2cc000, 0x2cd000, 0x2ce000, 0x2cf000,
    0x2d0000, 0x2d1000, 0x2d2000, 0x2d3000, 0x2d4000, 0x2d5000, 0x2d6000, 0x2d7000,
    0x2d8000, 0x2d9000, 0x2da000, 0x2db000, 0x2dc000, 0x2dd000, 0x2de000, 0x2df000,
    0x2e0000, 0x2e1000, 0x2e2000, 0x2e3000, 0x2e4000, 0x2e5000, 0x2e6000, 0x2e7000,
    0x2e8000, 0x2e9000, 0x2ea000, 0x2eb000, 0x2ec000, 0x2ed000, 0x2ee000, 0x2ef000,
    0x2f0000, 0x2f1000, 0x2f2000, 0x2f3000, 0x2f4000, 0x2f5000, 0x2f6000, 0x2f7000,
    0x2f8000, 0x2f9000, 0x2fa000, 0x2fb000, 0x2fc000, 0x2fd000, 0x2fe000, 0x2ff000,
    0x300000, 0x301000, 0x302000, 0x303000, 0x304000, 0x305000, 0x306000, 0x307000,
    0x308000, 0x309000, 0x30a000, 0x30b000, 0x30c000, 0x30d000, 0x30e000, 0x30f000,
    0x310000, 0x311000, 0x312000, 0x313000, 0x314000, 0x315000, 0x316000, 0x317000,
    0x318000, 0x319000, 0x31a000, 0x31b000, 0x31c000, 0x31d000, 0x31e000, 0x31f000,
    0x320000, 0x321000, 0x322000, 0x323000, 0x324000, 0x325000, 0x326000, 0x327000,
    0x328000, 0x329000, 0x32a000, 0x32b000, 0x32c000, 0x32d000, 0x32e000, 0x32f000,
    0x330000, 0x331000, 0x332000, 0x333000, 0x334000, 0x335000, 0x336000, 0x337000,
    0x338000, 0x339000, 0x33a000, 0x33b000, 0x33c000, 0x33d000, 0x33e000, 0x33f000,
    0x340000, 0x341000, 0x342000, 0x343000, 0x344000, 0x345000, 0x346000, 0x347000,
    0x348000, 0x349000, 0x34a000, 0x34b000, 0x34c000, 0x34d000, 0x34e000, 0x34f000,
    0x350000, 0x351000, 0x352000, 0x353000, 0x354000, 0x355000, 0x356000, 0x357000,
    0x358000, 0x359000, 0x35a000, 0x35b000, 0x35c000, 0x35d000, 0x35e000, 0x35f000,
    0x360000, 0x361000, 0x362000, 0x363000, 0x364000, 0x365000, 0x366000, 0x367000,
    0x368000, 0x369000, 0x36a000, 0x36b000, 0x36c000, 0x36d000, 0x36e000, 0x36f000,
    0x370000, 0x371000, 0x372000, 0x373000, 0x374000, 0x375000, 0x376000, 0x377000,
    0x378000, 0x379000, 0x37a000, 0x37b000, 0x37c000, 0x37d000, 0x37e000, 0x37f000,
    0x380000, 0x381000, 0x382000, 0x383000, 0x384000, 0x385000, 0x386000, 0x387000,
    0x388000, 0x389000, 0x38a000, 0x38b000, 0x38c000, 0x38d000, 0x38e000, 0x38f000,
    0x390000, 0x391000, 0x392000, 0x393000, 0x394000, 0x395000, 0x396000, 0x397000,
    0x398000, 0x399000, 0x39a000, 0x39b000, 0x39c000, 0x39d000, 0x39e000, 0x39f000,
    0x3a0000, 0x3a1000, 0x3a2000, 0x3a3000, 0x3a4000, 0x3a5000, 0x3a6000, 0x3a7000,
    0x3a8000, 0x3a9000, 0x3aa000, 0x3ab000, 0x3ac000, 0x3ad000, 0x3ae000, 0x3af000,
    0x3b0000, 0x3b1000, 0x3b2000, 0x3b3000, 0x3b4000, 0x3b5000, 0x3b6000, 0x3b7000,
    0x3b8000, 0x3b9000, 0x3ba000, 0x3bb000, 0x3bc000, 0x3bd000, 0x3be000, 0x3bf000,
    0x3c0000, 0x3c1000, 0x3c2000, 0x3c3000, 0x3c4000, 0x3c5000, 0x3c6000, 0x3c7000,
    0x3c8000, 0x3c9000, 0x3ca000, 0x3cb000, 0x3cc000, 0x3cd000, 0x3ce000, 0x3cf000,
    0x3d0000, 0x3d1000, 0x3d2000, 0x3d3000, 0x3d4000, 0x3d5000, 0x3d6000, 0x3d7000,
    0x3d8000, 0x3d9000, 0x3da000, 0x3db000, 0x3dc000, 0x3dd000, 0x3de000, 0x3df000,
    0x3e0000, 0x3e1000, 0x3e2000, 0x3e3000, 0x3e4000, 0x3e5000, 0x3e6000, 0x3e7000,
    0x3e8000, 0x3e9000, 0x3ea000, 0x3eb000, 0x3ec000, 0x3ed000, 0x3ee000, 0x3ef000,
    0x3f0000, 0x3f1000, 0x3f2000, 0x3f3000, 0x3f4000, 0x3f5000, 0x3f6000, 0x3f7000,
    0x3f8000, 0x3f9000, 0x3fa000, 0x3fb000, 0x3fc000, 0x3fd000, 0x3fe000, 0x3ff000]

/-- `entry_pgtable[i]`, each number of the initializer with `| PTE_P | PTE_W`. -/
def entryPgtable (i : Nat) : Word :=
  entryFrames[i]?.elim 0 fun frame => BitVec.ofNat 32 frame ||| PTE_P ||| PTE_W

/-- `entry_pgdir[i]`, with `entry_pgtable` linked at `pgtable`. -/
def entryPgdir (pgtable : Word) (i : Nat) : Word :=
  if i = 0 then pgtable - BitVec.ofNat 32 KERNBASE + PTE_P
  else if i = KERNBASE >>> PDXSHIFT then pgtable - BitVec.ofNat 32 KERNBASE + PTE_P + PTE_W
  else 0

/-- The tables are in memory: the directory at `pgdir`, and the page table where one
linked at `pgtable` is loaded. -/
structure BootTables (m : Memory) (pgdir : Nat) (pgtable : Word) : Prop where
  aligned : pgtable.toNat % PGSIZE = 0
  linked : KERNBASE ≤ pgtable.toNat ∧ pgtable.toNat < KERNBASE + PTSIZE
  dir : ∀ i < NPDENTRIES, m.load32 (pgdir + 4 * i) = entryPgdir pgtable i
  table : ∀ i < NPTENTRIES, m.load32 (pgtable.toNat - KERNBASE + 4 * i) = entryPgtable i

/-- The map that the comments of the source describe. -/
def bootMap (la : Word) : Option Mapping :=
  if la.toNat < PTSIZE then some ⟨la, false⟩
  else if KERNBASE ≤ la.toNat ∧ la.toNat < KERNBASE + PTSIZE then
    some ⟨la - BitVec.ofNat 32 KERNBASE, true⟩
  else none

theorem entryFrames_eq : entryFrames = (List.range 1024).map (4096 * ·) := by
  decide +kernel

theorem entryPgtable_entry {i : Nat} (hi : i < 1024) : Entry (entryPgtable i) (4096 * i) true := by
  have hframe : entryFrames[i]? = some (4096 * i) := by
    rw [entryFrames_eq, List.getElem?_map, List.getElem?_range hi]
    rfl
  have hlow : 2 ^ 12 * i + 3 = 2 ^ 12 * i ||| 3 := Nat.two_pow_add_eq_or_of_lt (by decide) i
  refine ⟨Nat.mul_mod_right 4096 i, ?_⟩
  rw [entryPgtable, hframe, Option.elim_some, BitVec.or_assoc, BitVec.toNat_or, BitVec.toNat_ofNat,
    Nat.mod_eq_of_lt (by omega)]
  exact hlow.symm

section Linked

variable {pgtable : Word} (haligned : pgtable.toNat % PGSIZE = 0)
  (hlinked : KERNBASE ≤ pgtable.toNat ∧ pgtable.toNat < KERNBASE + PTSIZE)

include haligned hlinked

/-- The page table is loaded below `KERNBASE`, so its address and the flags add up. -/
theorem entryPgdir_entry {pde : Word} {writable : Bool}
    (hpde : pde.toNat = (pgtable - BitVec.ofNat 32 KERNBASE).toNat + 1 + 2 * writable.toNat) :
    Entry pde (pgtable.toNat - KERNBASE) writable := by
  have hbase : KERNBASE = 960 * 2 ^ 22 := by decide
  have haligned' : pgtable.toNat % 4096 = 0 := haligned
  have hlow := hlinked.1
  have hsub : (pgtable - BitVec.ofNat 32 KERNBASE).toNat = pgtable.toNat - KERNBASE :=
    toNat_sub_ofNat_of_le hlow
  refine ⟨?_, hsub ▸ hpde⟩
  show (pgtable.toNat - KERNBASE) % 4096 = 0
  omega

omit haligned in
theorem loaded_lt : (pgtable - BitVec.ofNat 32 KERNBASE).toNat < 2 ^ 22 := by
  have hsub : (pgtable - BitVec.ofNat 32 KERNBASE).toNat = pgtable.toNat - KERNBASE :=
    toNat_sub_ofNat_of_le hlinked.1
  have hlt : pgtable.toNat < KERNBASE + 2 ^ 22 := hlinked.2
  omega

theorem entryPgdir_low : Entry (entryPgdir pgtable 0) (pgtable.toNat - KERNBASE) false := by
  have hlt := loaded_lt hlinked
  refine entryPgdir_entry haligned hlinked ?_
  rw [entryPgdir, if_pos rfl, BitVec.toNat_add_of_lt]
  · rfl
  · have hp : PTE_P.toNat = 1 := rfl
    omega

theorem entryPgdir_high : Entry (entryPgdir pgtable 960) (pgtable.toNat - KERNBASE) true := by
  have hlt := loaded_lt hlinked
  have hindex : 960 = KERNBASE >>> PDXSHIFT := by decide
  have hp : PTE_P.toNat = 1 := rfl
  have hw : PTE_W.toNat = 2 := rfl
  have hadd : (pgtable - BitVec.ofNat 32 KERNBASE + PTE_P).toNat =
      (pgtable - BitVec.ofNat 32 KERNBASE).toNat + PTE_P.toNat := BitVec.toNat_add_of_lt (by omega)
  refine entryPgdir_entry haligned hlinked ?_
  rw [entryPgdir, if_neg (by decide), if_pos hindex, BitVec.toNat_add_of_lt (by omega), hadd]
  rfl

end Linked

theorem entryPgdir_none (pgtable : Word) {i : Nat} (hlow : i ≠ 0) (hhigh : i ≠ 960) :
    entryPgdir pgtable i = 0 := by
  have hindex : KERNBASE >>> PDXSHIFT = 960 := by decide
  rw [entryPgdir, if_neg hlow, hindex, if_neg hhigh]

section Map

variable {m : Memory} {pgdir : Nat} {pgtable : Word}

/-- The frame of a page is its number within its four megabytes. -/
theorem walk_entry {table : Nat} {la pa : Word} {writable : Bool}
    (hdir : Leads (m.load32 (pgdir + 4 * PDX la)) table writable)
    (htable : ∀ i < NPTENTRIES, Leads (m.load32 (table + 4 * i)) (4096 * i) true)
    (hpa : pa.toNat = la.toNat % 2 ^ 22) : walk m pgdir la = some ⟨pa, writable⟩ := by
  have hptx := PTX_eq la
  have hin : PTX la < NPTENTRIES := hptx.trans_lt (Nat.mod_lt _ (by decide))
  rw [walk_mapped hdir (htable _ hin) (by omega : pa.toNat = _), Bool.and_true]

theorem BootTables.walk_eq (h : BootTables m pgdir pgtable) {la pa : Word} {writable : Bool}
    (hdir : Entry (m.load32 (pgdir + 4 * PDX la)) (pgtable.toNat - KERNBASE) writable)
    (hpa : pa.toNat = la.toNat % 2 ^ 22) : walk m pgdir la = some ⟨pa, writable⟩ :=
  walk_entry hdir.leads (fun i hi => (h.table i hi ▸ entryPgtable_entry hi).leads) hpa

/-- In every memory that holds the tables, the walk maps each address as the
comments say. -/
theorem boot_map_implemented (h : BootTables m pgdir pgtable) (la : Word) :
    walk m pgdir la = bootMap la := by
  have hsize : PTSIZE = 2 ^ 22 := by decide
  have hbase : KERNBASE = 960 * 2 ^ 22 := by decide
  have hpdx := PDX_eq la
  have hlt := la.isLt
  have hload := h.dir (PDX la) (by rw [NPDENTRIES]; omega)
  rw [bootMap, hsize]
  by_cases hlow : la.toNat < 2 ^ 22
  · have hzero : PDX la = 0 := by omega
    rw [if_pos hlow]
    refine h.walk_eq ?_ (Nat.mod_eq_of_lt hlow).symm
    rw [hload, hzero]
    exact entryPgdir_low h.aligned h.linked
  · rw [if_neg hlow]
    by_cases hhigh : KERNBASE ≤ la.toNat ∧ la.toNat < KERNBASE + 2 ^ 22
    · have hindex : PDX la = 960 := by omega
      have hsub : (la - BitVec.ofNat 32 KERNBASE).toNat = la.toNat - KERNBASE :=
        toNat_sub_ofNat_of_le hhigh.1
      rw [if_pos hhigh]
      refine h.walk_eq ?_ (by omega)
      rw [hload, hindex]
      exact entryPgdir_high h.aligned h.linked
    · rw [if_neg hhigh]
      exact walk_unmapped (hload.trans (entryPgdir_none pgtable (by omega) (by omega)))

end Map

/-- The bytes of the words `f 0`, `f 1` and so on, laid out from `base` on. -/
def wordBytes (f : Nat → Word) (base a : Nat) : Byte :=
  (f ((a - base) / 4)).extractLsb' (8 * ((a - base) % 4)) 8

theorem word_of_bytes (v : Word) :
    v.extractLsb' 24 8 ++ v.extractLsb' 16 8 ++ v.extractLsb' 8 8 ++ v.extractLsb' 0 8 = v := by
  have hbits (k : Nat) : v.extractLsb' k 8 = bitsAt v.toNat k 8 :=
    BitVec.setWidth_ushiftRight_eq_extractLsb.symm.trans (setWidth_shift v k 8)
  rw [hbits, hbits, hbits, hbits, bitsAt_append _ 16 8 8, bitsAt_append _ 8 8 (8 + 8),
    bitsAt_append _ 0 8 (8 + 8 + 8)]
  exact bitsAt_toNat v

theorem load32_words {m : Memory} {f : Nat → Word} {base i : Nat}
    (h : ∀ k < 4, m.byte (base + 4 * i + k) = wordBytes f base (base + 4 * i + k)) :
    m.load32 (base + 4 * i) = f i := by
  have hbyte : ∀ k < 4, m.byte (base + 4 * i + k) = (f i).extractLsb' (8 * k) 8 := by
    intro k hk
    have hdiv : (base + 4 * i + k - base) / 4 = i := by omega
    have hmod : (base + 4 * i + k - base) % 4 = k := by omega
    rw [h k hk, wordBytes, hdiv, hmod]
  have hfirst : m.byte (base + 4 * i) = (f i).extractLsb' 0 8 := hbyte 0 (by decide)
  rw [Memory.load32, hbyte 3 (by decide), hbyte 2 (by decide), hbyte 1 (by decide), hfirst]
  exact word_of_bytes (f i)

/-- The page table at 0x110000, and the directory at 0x112000. -/
def bootImage : Memory where
  byte a :=
    if 0x112000 ≤ a then wordBytes (entryPgdir 0xF0110000) 0x112000 a
    else wordBytes entryPgtable 0x110000 a
  stores := []

theorem bootTables_image : BootTables bootImage 0x112000 0xF0110000 where
  aligned := by decide
  linked := by decide
  dir i _ := load32_words fun k _ => if_pos (by omega)
  table i hi := by
    have hi' : i < 1024 := hi
    have hloaded : (0xF0110000 : Word).toNat - KERNBASE = 0x110000 := by decide
    rw [hloaded]
    exact load32_words fun k hk => if_neg (by omega)

theorem boot_map_implemented_kernel : walk bootImage 0x112000 0xF0100074 = bootMap 0xF0100074 :=
  boot_map_implemented bootTables_image 0xF0100074

end Jos
