import Mathlib.Data.BitVec

/-!
# Words on a stack

Byte-addressed memory of a 32-bit machine, little-endian words in it, and the
list of words that a downward-growing stack holds from its pointer upwards.
Addresses wrap around.
-/

namespace Newbos

abbrev ByteMemory := BitVec 32 → BitVec 8

def readWord (mem : ByteMemory) (address : BitVec 32) : BitVec 32 :=
  mem (address + 3#32) ++ mem (address + 2#32) ++ mem (address + 1#32) ++
    mem address

def writeWord (mem : ByteMemory) (address word : BitVec 32) : ByteMemory :=
  fun other =>
    if (other - address).toNat < 4 then
      word.extractLsb' (8 * (other - address).toNat) 8
    else mem other

def readHalf (mem : ByteMemory) (address : BitVec 32) : BitVec 16 :=
  mem (address + 1#32) ++ mem address

def writeHalf (mem : ByteMemory) (address : BitVec 32) (half : BitVec 16) :
    ByteMemory :=
  fun other =>
    if (other - address).toNat < 2 then
      half.extractLsb' (8 * (other - address).toNat) 8
    else mem other

/-- The words from an address upwards. -/
def HoldsWords (mem : ByteMemory) : BitVec 32 → List (BitVec 32) → Prop
  | _, [] => True
  | address, word :: rest =>
      readWord mem address = word ∧ HoldsWords mem (address + 4#32) rest

section Bytes

variable {mem other : ByteMemory} {address word : BitVec 32}

theorem writeWord_inside {offset : BitVec 32} (inside : offset.toNat < 4) :
    writeWord mem address word (address + offset) =
      word.extractLsb' (8 * offset.toNat) 8 := by
  have distance : address + offset - address = offset := by
    rw [BitVec.add_comm, BitVec.add_sub_cancel]
  rw [writeWord, distance, if_pos inside]

theorem writeWord_outside {target : BitVec 32}
    (outside : 4 ≤ (target - address).toNat) :
    writeWord mem address word target = mem target := by
  rw [writeWord, if_neg (Nat.not_lt_of_le outside)]

/-- A word is the concatenation of its bytes. -/
theorem append_bytes (word : BitVec 32) :
    word.extractLsb' 24 8 ++ word.extractLsb' 16 8 ++ word.extractLsb' 8 8 ++
      word.extractLsb' 0 8 = word := by
  apply BitVec.eq_of_getLsbD_eq
  intro index small
  simp only [BitVec.getLsbD_append, BitVec.getLsbD_extractLsb', Nat.zero_add]
  by_cases first : index < 8
  · simp [first]
  · by_cases second : index - 8 < 8
    · have position : 8 + (index - 8) = index := by omega
      simp [first, second, position]
    · by_cases third : index - 8 - 8 < 8
      · have position : 16 + (index - 8 - 8) = index := by omega
        simp [first, second, third, position]
      · have position : 24 + (index - 8 - 8 - 8) = index := by omega
        have last : index - 8 - 8 - 8 < 8 := by omega
        simp [first, second, third, last, position]

theorem readWord_writeWord : readWord (writeWord mem address word) address =
    word := by
  have lowest : writeWord mem address word address =
      word.extractLsb' 0 8 := by
    have inside : writeWord mem address word (address + 0#32) =
        word.extractLsb' (8 * (0#32).toNat) 8 := writeWord_inside (by decide)
    rwa [BitVec.add_zero] at inside
  rw [readWord, writeWord_inside (by decide), writeWord_inside (by decide),
    writeWord_inside (by decide), lowest]
  exact append_bytes word

theorem readWord_congr
    (same : ∀ offset : BitVec 32, offset.toNat < 4 →
      other (address + offset) = mem (address + offset)) :
    readWord other address = readWord mem address := by
  have lowest := same 0#32 (by decide)
  rw [BitVec.add_zero] at lowest
  rw [readWord, readWord, same 3#32 (by decide), same 2#32 (by decide),
    same 1#32 (by decide), lowest]

/-- A word apart from the one that is written. -/
theorem readWord_writeWord_other {target : BitVec 32}
    (above : 4 ≤ (target - address).toNat)
    (below : 4 ≤ (address - target).toNat) :
    readWord (writeWord mem address word) target = readWord mem target := by
  apply readWord_congr
  intro offset inside
  apply writeWord_outside
  bv_omega

/-- Two words at distances from one address that do not overlap. -/
theorem readWord_writeWord_apart {base : BitVec 32} {written read : Nat}
    (writtenSmall : written + 4 ≤ 4294967296)
    (readSmall : read + 4 ≤ 4294967296)
    (apart : written + 4 ≤ read ∨ read + 4 ≤ written) :
    readWord (writeWord mem (base + BitVec.ofNat 32 written) word)
        (base + BitVec.ofNat 32 read) =
      readWord mem (base + BitVec.ofNat 32 read) := by
  have forward : base + BitVec.ofNat 32 read -
      (base + BitVec.ofNat 32 written) =
        BitVec.ofNat 32 read - BitVec.ofNat 32 written := by bv_omega
  have backward : base + BitVec.ofNat 32 written -
      (base + BitVec.ofNat 32 read) =
        BitVec.ofNat 32 written - BitVec.ofNat 32 read := by bv_omega
  apply readWord_writeWord_other
  · rw [forward, BitVec.toNat_sub, BitVec.toNat_ofNat, BitVec.toNat_ofNat]
    omega
  · rw [backward, BitVec.toNat_sub, BitVec.toNat_ofNat, BitVec.toNat_ofNat]
    omega

theorem writeHalf_outside {half : BitVec 16} {target : BitVec 32}
    (outside : 2 ≤ (target - address).toNat) :
    writeHalf mem address half target = mem target := by
  rw [writeHalf, if_neg (Nat.not_lt_of_le outside)]

theorem readHalf_writeHalf {half : BitVec 16} :
    readHalf (writeHalf mem address half) address = half := by
  have next : address + 1#32 - address = 1#32 := by bv_omega
  have here : address - address = 0#32 := BitVec.sub_self address
  simp only [readHalf, writeHalf, next, here]
  apply BitVec.eq_of_getLsbD_eq
  intro index small
  rw [if_pos (by decide), if_pos (by decide), BitVec.getLsbD_append]
  by_cases first : index < 8
  · simp [first]
  · have position : 8 + (index - 8) = index := by omega
    have inside : index - 8 < 8 := by omega
    simp [first, inside, position]

theorem readHalf_congr
    (same : ∀ offset : BitVec 32, offset.toNat < 2 →
      other (address + offset) = mem (address + offset)) :
    readHalf other address = readHalf mem address := by
  have lowest := same 0#32 (by decide)
  rw [BitVec.add_zero] at lowest
  rw [readHalf, readHalf, same 1#32 (by decide), lowest]

end Bytes

namespace HoldsWords

variable {mem other : ByteMemory} {address : BitVec 32}
  {words : List (BitVec 32)}

/-- Only the bytes of the words matter. -/
theorem congr (holds : HoldsWords mem address words)
    (small : 4 * words.length ≤ 4294967296)
    (same : ∀ offset : BitVec 32, offset.toNat < 4 * words.length →
      other (address + offset) = mem (address + offset)) :
    HoldsWords other address words := by
  induction words generalizing address with
  | nil => trivial
  | cons word rest induction =>
      obtain ⟨first, tail⟩ := holds
      simp only [List.length_cons] at small same
      refine ⟨?_, ?_⟩
      · rw [← first]
        apply readWord_congr
        intro offset inside
        exact same offset (by omega)
      · apply induction tail (by omega)
        intro offset inside
        have sum : (4#32 + offset).toNat = 4 + offset.toNat := by
          rw [BitVec.toNat_add, BitVec.toNat_ofNat]
          omega
        rw [BitVec.add_assoc]
        exact same (4#32 + offset) (by omega)

/-- Pushing a word puts it in front. -/
theorem push (holds : HoldsWords mem address words) (word : BitVec 32)
    (room : 4 * words.length + 4 ≤ 4294967296) :
    HoldsWords (writeWord mem (address - 4#32) word) (address - 4#32)
      (word :: words) := by
  refine ⟨readWord_writeWord, ?_⟩
  rw [BitVec.sub_add_cancel]
  apply holds.congr (by omega)
  intro offset inside
  apply writeWord_outside
  have distance : address + offset - (address - 4#32) = offset + 4#32 := by
    bv_omega
  rw [distance, BitVec.toNat_add, BitVec.toNat_ofNat]
  omega

theorem append_left {rest : List (BitVec 32)}
    (holds : HoldsWords mem address (words ++ rest)) :
    HoldsWords mem address words := by
  induction words generalizing address with
  | nil => trivial
  | cons word tail induction =>
      obtain ⟨first, later⟩ := holds
      exact ⟨first, induction later⟩

/-- One of the words, by its number. -/
theorem get (holds : HoldsWords mem address words) {index : Nat}
    {word : BitVec 32} (found : words[index]? = some word) :
    readWord mem (address + BitVec.ofNat 32 (4 * index)) = word := by
  induction words generalizing address index with
  | nil => cases found
  | cons first rest induction =>
      obtain ⟨atFirst, tail⟩ := holds
      cases index with
      | zero =>
          cases found
          simpa using atFirst
      | succ index =>
          have later := induction tail found
          rwa [BitVec.add_assoc, ← BitVec.ofNat_add, Nat.add_comm 4,
            ← Nat.mul_succ] at later

end HoldsWords

end Newbos
