import Newbos.Paging.Boot

/-!
# Setting up the bitmap

`construct_bitmap` cuts the frames of the bitmap out of a region, maps them
and initialises the bitmap byte by byte; the allocator then reads it as
little-endian words, whose bits it numbers from the top.
-/

namespace Newbos

/-- The first loop of `construct_bitmap`, from a partial sum. -/
def totalPfsFrom : List MemoryMap → Nat → Nat
  | [], totalPfs => totalPfs
  | region :: rest, totalPfs =>
      totalPfsFrom rest (w32 (totalPfs + region.len / fourKb))

/-- `total_pfs`. -/
def totalPfs (mmap : List MemoryMap) : Nat :=
  totalPfsFrom mmap 0

/-- `bitmap_pfs`. -/
def bitmapPfs (mmap : List MemoryMap) : Nat :=
  divCeil (divCeil (totalPfs mmap) 8) fourKb

/-- The number of frames that are left to manage, `page_frames.len`. -/
def managedPfs (mmap : List MemoryMap) : Nat :=
  sub32 (totalPfs mmap) (bitmapPfs mmap)

theorem totalPfsFrom_lt {mmap : List MemoryMap} {total : Nat}
    (small : total < 4294967296) : totalPfsFrom mmap total < 4294967296 := by
  induction mmap generalizing total with
  | nil => exact small
  | cons region rest induction => exact induction (w32_lt _)

theorem managedPfs_lt (mmap : List MemoryMap) :
    managedPfs mmap < 4294967296 :=
  sub32_lt (totalPfsFrom_lt (by decide)) _

/-- The second loop of `construct_bitmap`: the address of the bitmap's bytes,
and the regions without them. -/
def carveRegion (bytes : Nat) : List MemoryMap → Option (Nat × List MemoryMap)
  | [] => none
  | region :: rest =>
      if bytes ≤ region.len then
        some (region.addr,
          ⟨w32 (region.addr + bytes), sub32 region.len bytes⟩ :: rest)
      else
        (carveRegion bytes rest).map fun (paddr, carved) =>
          (paddr, region :: carved)

/-- The third loop of `construct_bitmap`, on a byte that is 0. -/
def lastByte : Nat → UInt8
  | 0 => 0
  | count + 1 => lastByte count ||| (0x01 <<< UInt8.ofNat (7 - count))

/-- The bytes of the bitmap: `memset`, and the last byte once more.  The bytes
behind them stay as they were. -/
def initialBytes (held : Nat → UInt8) (len : Nat) : Nat → UInt8 :=
  let bitmapSize := divCeil len 8
  Store.set (fun offset => if offset < bitmapSize then 0xFF else held offset)
    (bitmapSize - 1) (lastByte (len % 8))

/-- The little-endian words of some bytes. -/
def wordsOf (bytes : Nat → UInt8) (word : Nat) : BitVec 32 :=
  (bytes (4 * word + 3)).toBitVec ++ (bytes (4 * word + 2)).toBitVec ++
    (bytes (4 * word + 1)).toBitVec ++ (bytes (4 * word)).toBitVec

/-- `construct_bitmap`: its result, and what it leaves behind.  Until
`page_frames.start` is set, `machine.bits` is the memory that the old value
points to; `held` are the bytes that are in the mapped frames when they become
the bitmap.  The call of the mapper passes `PAGING_PL0` for `rw` and
`PAGING_READ_WRITE` for `pl`. -/
def constructBitmap (layout : Layout) (held : Nat → UInt8)
    (machine : Machine) : Option (Nat × Layout × Machine) :=
  let len := managedPfs layout.mmap
  let bitmapSize := divCeil len 8
  match carveRegion (w32 (bitmapPfs layout.mmap * fourKb)) layout.mmap with
  | none => some (1, { layout with len := len }, machine)
  | some (paddr, mmap) =>
      let layout := { layout with mmap := mmap, len := len }
      let (vaddr, machine) := pdtKernelFindNextVaddr layout bitmapSize machine
      if vaddr = 0 then some (1, layout, machine)
      else
        match pdtMapKernelMemory layout paddr vaddr bitmapSize 0 1
            machine with
        | none => none
        | some (mappedMem, machine) =>
            if mappedMem < bitmapSize then some (1, layout, machine)
            else
              some (0, { layout with start := vaddr },
                { machine with bits := wordsOf (initialBytes held len) })

/-- What a successful call has gone through. -/
theorem constructBitmap_succeeds {layout after : Layout}
    {held : Nat → UInt8} {machine afterMachine : Machine}
    (success : constructBitmap layout held machine =
      some (0, after, afterMachine)) :
    ∃ paddr mmap vaddr searched mappedMem mapped,
      carveRegion (w32 (bitmapPfs layout.mmap * fourKb)) layout.mmap =
        some (paddr, mmap) ∧
      pdtKernelFindNextVaddr
          { layout with mmap := mmap, len := managedPfs layout.mmap }
          (divCeil (managedPfs layout.mmap) 8) machine = (vaddr, searched) ∧
      vaddr ≠ 0 ∧
      pdtMapKernelMemory
          { layout with mmap := mmap, len := managedPfs layout.mmap } paddr
          vaddr (divCeil (managedPfs layout.mmap) 8) 0 1 searched =
        some (mappedMem, mapped) ∧
      divCeil (managedPfs layout.mmap) 8 ≤ mappedMem ∧
      after = ⟨layout.kernelPdt, layout.kernelPt, mmap, vaddr,
        managedPfs layout.mmap⟩ ∧
      afterMachine = { mapped with
        bits := wordsOf (initialBytes held (managedPfs layout.mmap)) } := by
  unfold constructBitmap at success
  split at success
  · cases success
  · rename_i paddr mmap carved
    rcases found : pdtKernelFindNextVaddr
      { layout with mmap := mmap, len := managedPfs layout.mmap }
      (divCeil (managedPfs layout.mmap) 8) machine with ⟨vaddr, searched⟩
    simp only [found] at success
    split_ifs at success with noAddress
    · cases success
    · split at success
      · cases success
      · rename_i mappedMem mapped mapping
        split_ifs at success with tooLittle
        · cases success
        · cases success
          exact ⟨paddr, mmap, vaddr, searched, mappedMem, mapped, carved,
            found, noAddress, mapping, Nat.le_of_not_lt tooLittle, rfl, rfl⟩

/-! ## The bits of the bitmap -/

section Bits

variable {held : Nat → UInt8} {len : Nat}

theorem wordsOf_getLsbD (bytes : Nat → UInt8) (word : Nat) {bit : Nat}
    (small : bit < 32) :
    (wordsOf bytes word).getLsbD bit =
      (bytes (4 * word + bit / 8)).toBitVec.getLsbD (bit % 8) := by
  simp only [wordsOf, BitVec.getLsbD_append]
  split_ifs with inFirst inSecond inThird
  · rw [Nat.div_eq_of_lt inFirst, Nat.mod_eq_of_lt inFirst, Nat.add_zero]
  · have byte : bit / 8 = 1 := by omega
    have inside : bit % 8 = bit - 8 := by omega
    rw [byte, inside]
  · have byte : bit / 8 = 2 := by omega
    have inside : bit % 8 = bit - 8 - 8 := by omega
    rw [byte, inside]
  · have byte : bit / 8 = 3 := by omega
    have inside : bit % 8 = bit - 8 - 8 - 8 := by omega
    rw [byte, inside]

/-- The byte that holds a bit, counted as the allocator counts the bits. -/
def byteOfBit (bitIdx : Nat) : Nat :=
  4 * (bitIdx / 32) + (31 - bitIdx % 32) / 8

theorem bitAt_wordsOf (bytes : Nat → UInt8) (bitIdx : Nat) :
    bitAt (wordsOf bytes) bitIdx =
      (bytes (byteOfBit bitIdx)).toBitVec.getLsbD (7 - bitIdx % 8) := by
  have inByte : (31 - bitIdx % 32) % 8 = 7 - bitIdx % 8 := by omega
  rw [bitAt, wordsOf_getLsbD _ _ (by omega), inByte, byteOfBit]

theorem lastByte_getLsbD {count bit : Nat} (few : count < 8)
    (small : bit < 8) :
    (lastByte count).toBitVec.getLsbD bit = decide (8 - count ≤ bit) := by
  have table : ∀ count < 8, ∀ bit < 8,
      (lastByte count).toBitVec.getLsbD bit = decide (8 - count ≤ bit) := by
    decide
  exact table count few bit small

/-- The bitmap that `construct_bitmap` leaves, bit by bit. -/
theorem bitAt_initial (held : Nat → UInt8) (len bitIdx : Nat) :
    bitAt (wordsOf (initialBytes held len)) bitIdx =
      if byteOfBit bitIdx = divCeil len 8 - 1 then
        decide (bitIdx % 8 < len % 8)
      else if byteOfBit bitIdx < divCeil len 8 then true
      else (held (byteOfBit bitIdx)).toBitVec.getLsbD (7 - bitIdx % 8) := by
  rw [bitAt_wordsOf, initialBytes]
  simp only [Store.set]
  split_ifs with last initialised
  · rw [lastByte_getLsbD (Nat.mod_lt _ (by decide)) (by omega)]
    have sameBound : 8 - len % 8 ≤ 7 - bitIdx % 8 ↔
        bitIdx % 8 < len % 8 := by omega
    simp only [sameBound]
  · have allOnes : ∀ bit < 8, (0xFF : UInt8).toBitVec.getLsbD bit = true := by
      decide
    exact allOnes _ (by omega)
  · rfl

theorem byte_eq_of_bits {first second : UInt8}
    (same : ∀ position < 8, first.toBitVec.getLsbD (7 - position) =
      second.toBitVec.getLsbD (7 - position)) : first = second := by
  apply UInt8.toBitVec_inj.mp
  apply BitVec.eq_of_getLsbD_eq
  intro bit small
  have bitEq := same (7 - bit) (by omega)
  have restore : 7 - (7 - bit) = bit := by omega
  rw [restore] at bitEq
  exact bitEq

theorem bitAt_initial_whole (held : Nat → UInt8) {len bitIdx : Nat}
    (whole : byteOfBit bitIdx + 1 < divCeil len 8) :
    bitAt (wordsOf (initialBytes held len)) bitIdx = true := by
  rw [bitAt_initial, if_neg (by omega), if_pos (by omega)]

theorem bitAt_initial_last (held : Nat → UInt8) {len bitIdx : Nat}
    (last : byteOfBit bitIdx + 1 = divCeil len 8) :
    bitAt (wordsOf (initialBytes held len)) bitIdx =
      decide (bitIdx % 8 < len % 8) := by
  rw [bitAt_initial, if_pos (by omega)]

theorem bitAt_initial_behind (held : Nat → UInt8) {len bitIdx : Nat}
    (behind : divCeil len 8 ≤ byteOfBit bitIdx) :
    bitAt (wordsOf (initialBytes held len)) bitIdx =
      (held (byteOfBit bitIdx)).toBitVec.getLsbD (7 - bitIdx % 8) := by
  have positive : 0 < divCeil len 8 := Nat.succ_pos _
  rw [bitAt_initial, if_neg (by omega), if_neg (by omega)]

/-- The bit of each index that the allocator scans is set exactly when the
index numbers a managed frame. -/
def MarksManaged (bits : Nat → BitVec 32) (len : Nat) : Prop :=
  ∀ bitIdx < 32 * divCeil len 32, bitAt bits bitIdx = true ↔ bitIdx < len

/-- The bytes behind the initialised ones that belong to the last word, when
that word holds one initialised byte. -/
structure LeftOver (held : Nat → UInt8) (bitmapSize : Nat) : Prop where
  first : held bitmapSize = 0
  second : held (bitmapSize + 1) = 0
  third : held (bitmapSize + 2) = 0xFF

/-- The same, by the bits of the bytes, from the byte with the lowest
indices. -/
theorem leftOver_iff {bitmapSize : Nat} :
    LeftOver held bitmapSize ↔ ∀ byte position, byte < 3 → position < 8 →
      (held (bitmapSize + 2 - byte)).toBitVec.getLsbD (7 - position) =
        decide (byte = 0) := by
  have zeroes : ∀ position < 8,
      (0 : UInt8).toBitVec.getLsbD (7 - position) = false := by decide
  have ones : ∀ position < 8,
      (0xFF : UInt8).toBitVec.getLsbD (7 - position) = true := by decide
  constructor
  · rintro ⟨first, second, third⟩ byte position inWord inByte
    match byte with
    | 0 => exact third ▸ ones position inByte
    | 1 => exact second ▸ zeroes position inByte
    | 2 => exact first ▸ zeroes position inByte
  · intro bits
    refine ⟨?_, ?_, ?_⟩
    · apply byte_eq_of_bits
      intro position inByte
      rw [zeroes position inByte]
      exact bits 2 position (by decide) inByte
    · apply byte_eq_of_bits
      intro position inByte
      rw [zeroes position inByte]
      exact bits 1 position (by decide) inByte
    · apply byte_eq_of_bits
      intro position inByte
      rw [ones position inByte]
      exact bits 0 position (by decide) inByte

/-- With one initialised byte in the last word, that byte is 0, and the bits
of the last eight frames are in a byte that was not initialised. -/
theorem initial_marksManaged_oneByte {words : Nat}
    (word : 32 * words + 8 < 4294967296) :
    MarksManaged (wordsOf (initialBytes held (32 * words + 8)))
        (32 * words + 8) ↔
      LeftOver held (4 * words + 1) := by
  have size : divCeil (32 * words + 8) 8 = 4 * words + 1 := by
    rw [divCeil, sub32_of_le (by omega)]
    omega
  have scanned : divCeil (32 * words + 8) 32 = words + 1 := by
    rw [divCeil, sub32_of_le (by omega)]
    omega
  have behind : ∀ byte position, byte < 3 → position < 8 →
      bitAt (wordsOf (initialBytes held (32 * words + 8)))
          (32 * words + 8 * byte + position) =
        (held (4 * words + 1 + 2 - byte)).toBitVec.getLsbD
          (7 - position) := by
    intro byte position inWord inByte
    have place : byteOfBit (32 * words + 8 * byte + position) =
        4 * words + 1 + 2 - byte := by
      unfold byteOfBit
      omega
    have bit : (32 * words + 8 * byte + position) % 8 = position := by omega
    rw [bitAt_initial_behind held (by omega), place, bit]
  rw [leftOver_iff]
  constructor
  · intro marks byte position inWord inByte
    rw [← behind byte position inWord inByte]
    apply Bool.eq_iff_iff.mpr
    rw [marks _ (by omega), decide_eq_true_iff]
    omega
  · intro leftOver bitIdx scan
    by_cases early : bitIdx < 32 * words
    · have inside : byteOfBit bitIdx + 1 < divCeil (32 * words + 8) 8 := by
        unfold byteOfBit
        omega
      rw [bitAt_initial_whole held inside]
      exact iff_of_true rfl (by omega)
    · obtain ⟨byte, position, inByte, rfl⟩ : ∃ byte position, position < 8 ∧
          bitIdx = 32 * words + 8 * byte + position :=
        ⟨(bitIdx - 32 * words) / 8, bitIdx % 8, by omega, by omega⟩
      by_cases inWord : byte < 3
      · rw [behind byte position inWord inByte,
          leftOver byte position inWord inByte, decide_eq_true_iff]
        omega
      · have last : byteOfBit (32 * words + 8 * byte + position) + 1 =
            divCeil (32 * words + 8) 8 := by
          unfold byteOfBit
          omega
        rw [bitAt_initial_last held last, decide_eq_true_iff]
        omega

/-- An index whose bit is wrong, for every other number of frames in the last
word. -/
theorem initial_misplaced {len : Nat} (word : len < 4294967296)
    (other : len % 32 ≠ 8) :
    ¬MarksManaged (wordsOf (initialBytes held len)) len := by
  intro marks
  have size : 0 < len → divCeil len 8 = (len - 1) / 8 + 1 := by
    intro positive
    rw [divCeil, sub32_of_le positive]
  have scanned : 0 < len → divCeil len 32 = (len - 1) / 32 + 1 := by
    intro positive
    rw [divCeil, sub32_of_le positive]
  by_cases none : len = 0
  · -- `div_ceil` wraps, and the whole address space counts as bitmap.
    subst none
    have marked := marks 0 (by decide)
    rw [bitAt_initial_whole held (by decide)] at marked
    exact absurd (marked.mp rfl) (Nat.not_lt_zero 0)
  · have positive : 0 < len := Nat.pos_of_ne_zero none
    have bytes := size positive
    have words := scanned positive
    by_cases full : len % 32 = 0
    · -- The last byte has been cleared and holds the first bits of its word.
      have marked := marks (len - 32) (by omega)
      have last : byteOfBit (len - 32) + 1 = divCeil len 8 := by
        unfold byteOfBit
        omega
      rw [bitAt_initial_last held last, decide_eq_true_iff] at marked
      omega
    · by_cases one : len % 32 < 8
      · -- The only byte of the last word holds its last bits.
        have marked := marks (len / 32 * 32 + 24) (by omega)
        have last : byteOfBit (len / 32 * 32 + 24) + 1 = divCeil len 8 := by
          unfold byteOfBit
          omega
        rw [bitAt_initial_last held last, decide_eq_true_iff] at marked
        omega
      · -- The first byte of the last word is full.
        have marked := marks (len / 32 * 32 + 31) (by omega)
        have whole : byteOfBit (len / 32 * 32 + 31) + 1 < divCeil len 8 := by
          unfold byteOfBit
          omega
        have beyond := marked.mp (bitAt_initial_whole held whole)
        omega

theorem initial_marksManaged_iff {len : Nat} (word : len < 4294967296) :
    MarksManaged (wordsOf (initialBytes held len)) len ↔
      len % 32 = 8 ∧ LeftOver held (divCeil len 8) := by
  by_cases oneByte : len % 32 = 8
  · obtain ⟨words, rfl⟩ : ∃ words, len = 32 * words + 8 :=
      ⟨len / 32, by omega⟩
    have size : divCeil (32 * words + 8) 8 = 4 * words + 1 := by
      rw [divCeil, sub32_of_le (by omega)]
      omega
    rw [initial_marksManaged_oneByte word, size]
    exact (and_iff_right oneByte).symm
  · exact iff_of_false (initial_misplaced word oneByte)
      fun holds => oneByte holds.1

end Bits

/-- The initial bitmap marks exactly the managed frames when eight of them are
left for its last word, and the three bytes behind the initialised ones happen
to hold the rest of that word. -/
theorem construct_bitmap_marks_iff {layout after : Layout}
    {held : Nat → UInt8} {machine afterMachine : Machine}
    (success : constructBitmap layout held machine =
      some (0, after, afterMachine)) :
    MarksManaged afterMachine.bits after.len ↔
      managedPfs layout.mmap % 32 = 8 ∧
        LeftOver held (divCeil (managedPfs layout.mmap) 8) := by
  obtain ⟨_, _, _, _, _, _, _, _, _, _, _, rfl, rfl⟩ :=
    constructBitmap_succeeds success
  exact initial_marksManaged_iff (managedPfs_lt layout.mmap)

/-- The kernel's structures and one region above 1 MiB, before the bitmap is
set up. -/
def regionLayout (pages : Nat) : Layout :=
  { kernelPdt := 1
    kernelPt := 2
    mmap := [⟨0x100000, fourKb * pages⟩]
    start := 0
    len := 0 }

/-- Eight frames, with the fitting bytes behind the one that is initialised. -/
theorem construct_bitmap_marks_iff_eightFrames :
    ∃ after afterMachine,
      constructBitmap (regionLayout 9)
          (fun offset => if offset = 3 then 0xFF else 0)
          (bootMachine (regionLayout 9) 5) =
        some (0, after, afterMachine) ∧
      MarksManaged afterMachine.bits after.len := by
  have evaluated : (constructBitmap (regionLayout 9)
      (fun offset => if offset = 3 then 0xFF else 0)
      (bootMachine (regionLayout 9) 5)).map Prod.fst = some 0 := by
    decide +kernel
  obtain ⟨⟨result, after, afterMachine⟩, success, isZero⟩ :=
    Option.map_eq_some_iff.mp evaluated
  obtain rfl : result = 0 := isZero
  exact ⟨after, afterMachine, success, (construct_bitmap_marks_iff
    success).mpr ⟨by decide, by decide, by decide, by decide⟩⟩

/-- Three frames: the bits of the frames 24, 25 and 26 are set, and none of
the three that exist. -/
theorem construct_bitmap_misplaces :
    ∃ after afterMachine,
      constructBitmap (regionLayout 4) (fun _ => 0)
          (bootMachine (regionLayout 4) 5) =
        some (0, after, afterMachine) ∧
      after.len = 3 ∧ after.mmap = [⟨0x101000, 0x3000⟩] ∧
      afterMachine.bits 0 = 0x000000E0#32 ∧
      ¬MarksManaged afterMachine.bits after.len := by
  have evaluated : (constructBitmap (regionLayout 4) (fun _ => 0)
      (bootMachine (regionLayout 4) 5)).map (fun result =>
        (result.1, result.2.1.len, result.2.1.mmap, result.2.2.bits 0)) =
      some (0, 3, [⟨0x101000, 0x3000⟩], 0x000000E0#32) := by
    decide +kernel
  obtain ⟨⟨result, after, afterMachine⟩, success, same⟩ :=
    Option.map_eq_some_iff.mp evaluated
  obtain ⟨rfl, frames, regions, bits⟩ : result = 0 ∧ after.len = 3 ∧
      after.mmap = [⟨0x101000, 0x3000⟩] ∧
      afterMachine.bits 0 = 0x000000E0#32 := by
    simpa using same
  refine ⟨after, afterMachine, success, frames, regions, bits, ?_⟩
  intro marks
  have marked := marks 24 (by rw [frames]; decide)
  have isSet : bitAt afterMachine.bits 24 = true := by
    rw [bitAt, bits]
    decide
  rw [frames] at marked
  exact absurd (marked.mp isSet) (by decide)

end Newbos
