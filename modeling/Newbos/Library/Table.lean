import Newbos.Library.Stack

/-!
# Tables of word pairs

A table in memory whose entries are two words each, as the descriptor tables
of the processor are.  Writing one entry leaves the others and the bytes
around the table.
-/

namespace Newbos

/-- Address of an entry. -/
def tableSlot (table : BitVec 32) (index : Nat) : BitVec 32 :=
  table + BitVec.ofNat 32 (8 * index)

def readSlot (mem : ByteMemory) (table : BitVec 32) (index : Nat) :
    BitVec 32 × BitVec 32 :=
  (readWord mem (tableSlot table index),
    readWord mem (tableSlot table index + 4#32))

def writeSlot (table : BitVec 32) (index : Nat)
    (words : BitVec 32 × BitVec 32) (mem : ByteMemory) : ByteMemory :=
  writeWord (writeWord mem (tableSlot table index) words.1)
    (tableSlot table index + 4#32) words.2

/-- The register of a table, with the last byte of the table and its address,
and how it is loaded from a pointer. -/
structure TableRegister where
  limit : BitVec 16
  base : BitVec 32
  deriving DecidableEq, Repr

def loadTable (pointer : BitVec 32) (mem : ByteMemory) : TableRegister where
  limit := readHalf mem pointer
  base := readWord mem (pointer + 2#32)

def storeTable (pointer : BitVec 32) (limit : BitVec 16) (base : BitVec 32)
    (mem : ByteMemory) : ByteMemory :=
  writeWord (writeHalf mem pointer limit) (pointer + 2#32) base

/-- Two memories hold the same table of so many entries. -/
def SameTable (table : BitVec 32) (count : Nat) (mem other : ByteMemory) :
    Prop :=
  ∀ offset : BitVec 32, offset.toNat < 8 * count →
    other (table + offset) = mem (table + offset)

section Slots

variable {table : BitVec 32} {index other count : Nat}
  {words : BitVec 32 × BitVec 32} {mem later : ByteMemory}

theorem readSlot_writeSlot :
    readSlot (writeSlot table index words mem) table index = words := by
  have apart : readWord (writeSlot table index words mem)
      (tableSlot table index) = words.1 := by
    rw [writeSlot, readWord_writeWord_other (by bv_omega) (by bv_omega),
      readWord_writeWord]
  rw [readSlot, apart, writeSlot, readWord_writeWord]

theorem tableSlot_distance (small : index < 268435456)
    (otherSmall : other < 268435456) (different : other ≠ index) :
    8 ≤ (tableSlot table other - tableSlot table index).toNat ∧
      (tableSlot table other - tableSlot table index).toNat ≤
        4294967288 := by
  have distance : tableSlot table other - tableSlot table index =
      BitVec.ofNat 32 (8 * other) - BitVec.ofNat 32 (8 * index) := by
    rw [tableSlot, tableSlot]
    bv_omega
  rw [distance, BitVec.toNat_sub, BitVec.toNat_ofNat, BitVec.toNat_ofNat]
  omega

theorem readSlot_writeSlot_other (small : index < 268435456)
    (otherSmall : other < 268435456) (different : other ≠ index) :
    readSlot (writeSlot table index words mem) table other =
      readSlot mem table other := by
  obtain ⟨above, below⟩ :=
    @tableSlot_distance table index other small otherSmall different
  have kept (offset : BitVec 32) (inEntry : offset.toNat ≤ 4) :
      readWord (writeSlot table index words mem)
        (tableSlot table other + offset) =
          readWord mem (tableSlot table other + offset) := by
    rw [writeSlot, readWord_writeWord_other (by bv_omega) (by bv_omega),
      readWord_writeWord_other (by bv_omega) (by bv_omega)]
  have first := kept 0#32 (by decide)
  rw [BitVec.add_zero] at first
  rw [readSlot, readSlot, first, kept 4#32 (by decide)]

theorem writeSlot_outside {offset : BitVec 32}
    (inside : index < count) (small : count ≤ 268435456)
    (outside : 8 * count ≤ offset.toNat) :
    writeSlot table index words mem (table + offset) =
      mem (table + offset) := by
  have distance : table + offset - tableSlot table index =
      offset - BitVec.ofNat 32 (8 * index) := by
    rw [tableSlot]
    bv_omega
  have nextDistance : table + offset - (tableSlot table index + 4#32) =
      offset - BitVec.ofNat 32 (8 * index + 4) := by
    rw [tableSlot, BitVec.ofNat_add]
    bv_omega
  have range := offset.isLt
  rw [writeSlot, writeWord_outside, writeWord_outside]
  · rw [distance, BitVec.toNat_sub, BitVec.toNat_ofNat]
    omega
  · rw [nextDistance, BitVec.toNat_sub, BitVec.toNat_ofNat]
    omega

/-- The entries of a table are given by its bytes. -/
theorem SameTable.readSlot (same : SameTable table count mem later)
    (inside : index < count) (small : count ≤ 268435456) :
    readSlot later table index = readSlot mem table index := by
  have kept (start : Nat) (inEntry : start ≤ 4) :
      readWord later (tableSlot table index + BitVec.ofNat 32 start) =
        readWord mem (tableSlot table index + BitVec.ofNat 32 start) := by
    apply readWord_congr
    intro offset inWord
    have place : tableSlot table index + BitVec.ofNat 32 start + offset =
        table + (BitVec.ofNat 32 (8 * index + start) + offset) := by
      rw [tableSlot, BitVec.ofNat_add]
      simp only [BitVec.add_assoc]
    rw [place]
    apply same
    rw [BitVec.toNat_add, BitVec.toNat_ofNat]
    omega
  have first := kept 0 (by decide)
  rw [BitVec.add_zero] at first
  have second := kept 4 (by decide)
  rw [Newbos.readSlot, Newbos.readSlot, first]
  exact congrArg _ second

/-- The register gets what was stored when the pointer is not touched. -/
theorem loadTable_storeTable {pointer base : BitVec 32} {limit : BitVec 16}
    (same : ∀ offset : BitVec 32, offset.toNat < 6 →
      later (pointer + offset) =
        storeTable pointer limit base mem (pointer + offset)) :
    loadTable pointer later = ⟨limit, base⟩ := by
  have half : readHalf later pointer =
      readHalf (writeHalf mem pointer limit) pointer := by
    apply readHalf_congr
    intro offset inside
    rw [same offset (by omega), storeTable, writeWord_outside]
    bv_omega
  have word : readWord later (pointer + 2#32) =
      readWord (storeTable pointer limit base mem) (pointer + 2#32) := by
    apply readWord_congr
    intro offset inside
    rw [BitVec.add_assoc]
    exact same _ (by bv_omega)
  rw [loadTable, half, word, readHalf_writeHalf, storeTable,
    readWord_writeWord]

theorem storeTable_outside {pointer base target : BitVec 32}
    {limit : BitVec 16} (outside : 6 ≤ (target - pointer).toNat) :
    storeTable pointer limit base mem target = mem target := by
  rw [storeTable, writeWord_outside (by bv_omega),
    writeHalf_outside (by omega)]

end Slots

end Newbos
