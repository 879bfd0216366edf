import Newbos.Machine

/-!
# The page-frame allocator

`pfa_allocate` scans the bitmap for a run of set bits and `pfa_free` looks up
the bit of an address.  Both update the bitmap by exclusive or.  An index past
the pages of the bitmap reaches whatever the kernel has mapped behind them.
-/

namespace Newbos

/-- `toggle_bit`. -/
def toggleBit (layout : Layout) (bitIdx : Nat) (machine : Machine) :
    Machine :=
  let word := bitIdx / 32
  let mask : BitVec 32 := 1#32 <<< (31 - bitIdx % 32)
  if word < layout.bitmapWords then
    { machine with
      bits := Store.set machine.bits word (machine.bits word ^^^ mask) }
  else
    machine.xorWord layout (w32 (layout.start + 4 * word)) mask

def toggleBitsFrom (layout : Layout) : Nat → Nat → Machine → Machine
  | 0, _, machine => machine
  | count + 1, bitIdx, machine =>
      toggleBitsFrom layout count (bitIdx + 1)
        (toggleBit layout bitIdx machine)

/-- `toggle_bits`; the loop runs while `i < bit_idx + num_bits`. -/
def toggleBits (layout : Layout) (bitIdx numBits : Nat) (machine : Machine) :
    Machine :=
  toggleBitsFrom layout (w32 (bitIdx + numBits) - bitIdx) bitIdx machine

/-- Outcome of scanning a part of the bitmap: the index at which
`pfa_allocate` returns, or its variables `frames_found` and `bit_idx`. -/
inductive ScanResult where
  | found (bitIdx : Nat)
  | pending (framesFound bitIdx : Nat)

/-- The inner loop of `pfa_allocate` over the bits of word `i`; the first
argument counts the bits that are left. -/
def scanCell (mmap : List MemoryMap) (numPageFrames : Nat)
    (cell : BitVec 32) (i : Nat) : Nat → Nat → Nat → ScanResult
  | 0, framesFound, bitIdx => .pending framesFound bitIdx
  | remaining + 1, framesFound, bitIdx =>
      let j := 31 - remaining
      if (cell >>> (31 - j)) &&& 1#32 = 1#32 then
        let bitIdx := if framesFound = 0 then w32 (i * 32 + j) else bitIdx
        let framesFound := w32 (framesFound + 1)
        if framesFound = numPageFrames then
          if fitsInOneMmapEntry mmap bitIdx numPageFrames then
            .found bitIdx
          else
            scanCell mmap numPageFrames cell i remaining 0 bitIdx
        else
          scanCell mmap numPageFrames cell i remaining framesFound bitIdx
      else
        scanCell mmap numPageFrames cell i remaining 0 bitIdx

/-- The outer loop of `pfa_allocate` from word `i`; the first argument counts
the words that are left. -/
def scanWords (mmap : List MemoryMap) (numPageFrames : Nat)
    (bits : Nat → BitVec 32) : Nat → Nat → Nat → Nat → Option Nat
  | 0, _, _, _ => none
  | remaining + 1, i, framesFound, bitIdx =>
      if bits i ≠ 0#32 then
        match scanCell mmap numPageFrames (bits i) i 32 framesFound bitIdx with
        | .found bitIdx => some bitIdx
        | .pending framesFound bitIdx =>
            scanWords mmap numPageFrames bits remaining (i + 1) framesFound
              bitIdx
      else
        scanWords mmap numPageFrames bits remaining (i + 1) 0 bitIdx

/-- `pfa_allocate`: the physical address of the block, or 0. -/
def pfaAllocate (layout : Layout) (numPageFrames : Nat) (machine : Machine) :
    Nat × Machine :=
  match scanWords layout.mmap numPageFrames machine.bits
      (divCeil layout.len 32) 0 0 0 with
  | some bitIdx =>
      (paddrForIdx layout.mmap bitIdx,
        toggleBits layout bitIdx numPageFrames machine)
  | none => (0, machine)

/-- `pfa_free`. -/
def pfaFree (layout : Layout) (paddr : Nat) (machine : Machine) : Machine :=
  let bitIdx := idxForPaddr layout.mmap layout.len paddr
  if bitIdx = layout.len then machine else toggleBit layout bitIdx machine

/-- One bit of the bitmap, numbered as the allocator numbers them. -/
def bitAt (bits : Nat → BitVec 32) (bitIdx : Nat) : Bool :=
  (bits (bitIdx / 32)).getLsbD (31 - bitIdx % 32)

/-! ## Bits -/

theorem shifted_one_iff (cell : BitVec 32) (shift : Nat) :
    (cell >>> shift) &&& 1#32 = 1#32 ↔ cell.getLsbD shift = true := by
  rw [BitVec.and_one_eq_setWidth_ofBool_getLsbD]
  rw [BitVec.getLsbD_ushiftRight, Nat.add_zero]
  cases cell.getLsbD shift
  · simp
  · simp

theorem bitAt_word (bits : Nat → BitVec 32) {word j : Nat} (small : j < 32) :
    bitAt bits (32 * word + j) = (bits word).getLsbD (31 - j) := by
  have wordEq : (32 * word + j) / 32 = word := by omega
  have bitEq : (32 * word + j) % 32 = j := by omega
  simp [bitAt, wordEq, bitEq]

theorem bits_eq_of_bitAt_eq {first second : Nat → BitVec 32}
    (same : ∀ bitIdx, bitAt first bitIdx = bitAt second bitIdx) :
    first = second := by
  funext word
  apply BitVec.eq_of_getLsbD_eq
  intro position small
  have bitEq := same (32 * word + (31 - position))
  rw [bitAt_word _ (by omega), bitAt_word _ (by omega)] at bitEq
  have restore : 31 - (31 - position) = position := by omega
  rwa [restore] at bitEq

theorem bitAt_xor (bits : Nat → BitVec 32) (bitIdx other : Nat) :
    bitAt (Store.set bits (bitIdx / 32)
        (bits (bitIdx / 32) ^^^ (1#32 <<< (31 - bitIdx % 32)))) other =
      (bitAt bits other ^^ decide (other = bitIdx)) := by
  unfold bitAt
  by_cases sameWord : other / 32 = bitIdx / 32
  · rw [sameWord, Store.set_same, BitVec.getLsbD_xor,
      BitVec.getLsbD_shiftLeft, BitVec.getLsbD_one]
    congr 1
    have otherSmall : 31 - other % 32 < 32 := by omega
    by_cases same : other = bitIdx
    · subst same
      simp [otherSmall]
    · have different : ¬31 - other % 32 = 31 - bitIdx % 32 := by omega
      simp only [otherSmall, decide_true, Bool.true_and, same, decide_false,
        Bool.and_eq_false_imp]
      intro notBelow
      simp only [Bool.not_eq_true', decide_eq_false_iff_not,
        Nat.not_lt] at notBelow
      simp only [decide_eq_false_iff_not]
      omega
  · rw [Store.set_other _ _ sameWord]
    have different : other ≠ bitIdx := by
      intro equality
      exact sameWord (by rw [equality])
    simp [different]

/-! ## Toggling inside the bitmap -/

theorem Layout.word_lt_bitmapWords {layout : Layout} {bitIdx : Nat}
    (lenSmall : layout.len ≤ 1048320) (inRange : bitIdx < layout.len) :
    bitIdx / 32 < layout.bitmapWords := by
  have lenPred : sub32 layout.len 1 = layout.len - 1 :=
    sub32_of_le (by omega)
  have bytesPred : sub32 ((layout.len - 1) / 8 + 1) 1 =
      (layout.len - 1) / 8 := by
    rw [sub32_of_le (by omega)]
    omega
  simp only [Layout.bitmapWords, divCeil, lenPred, bytesPred, fourKb]
  omega

theorem toggleBit_of_lt {layout : Layout} {bitIdx : Nat}
    (lenSmall : layout.len ≤ 1048320) (inRange : bitIdx < layout.len)
    (machine : Machine) :
    ∃ bits, toggleBit layout bitIdx machine = { machine with bits := bits } ∧
      ∀ index, bitAt bits index =
        (bitAt machine.bits index ^^ decide (index = bitIdx)) := by
  refine ⟨_, ?_, bitAt_xor machine.bits bitIdx⟩
  simp only [toggleBit]
  rw [if_pos (Layout.word_lt_bitmapWords lenSmall inRange)]

theorem toggleBitsFrom_of_le {layout : Layout}
    (lenSmall : layout.len ≤ 1048320) :
    ∀ {count bitIdx : Nat} (machine : Machine),
      bitIdx + count ≤ layout.len →
      ∃ bits, toggleBitsFrom layout count bitIdx machine =
          { machine with bits := bits } ∧
        ∀ index, bitAt bits index =
          (bitAt machine.bits index ^^
            decide (bitIdx ≤ index ∧ index < bitIdx + count)) := by
  intro count
  induction count with
  | zero =>
      intro bitIdx machine _
      refine ⟨machine.bits, rfl, ?_⟩
      intro index
      have outside : ¬(bitIdx ≤ index ∧ index < bitIdx + 0) := by omega
      rw [decide_eq_false outside, Bool.xor_false]
  | succ count induction =>
      intro bitIdx machine inRange
      obtain ⟨first, firstEq, firstBits⟩ :=
        toggleBit_of_lt lenSmall (by omega : bitIdx < layout.len) machine
      have restRange : bitIdx + 1 + count ≤ layout.len := by omega
      obtain ⟨bits, restEq, restBits⟩ :=
        induction { machine with bits := first } restRange
      refine ⟨bits, ?_, ?_⟩
      · rw [toggleBitsFrom, firstEq, restEq]
      · intro index
        rw [restBits, firstBits, Bool.xor_assoc]
        congr 1
        by_cases same : index = bitIdx
        · subst same
          simp
        · have step : (bitIdx + 1 ≤ index ∧ index < bitIdx + 1 + count) ↔
              (bitIdx ≤ index ∧ index < bitIdx + (count + 1)) := by omega
          rw [decide_eq_false same, Bool.false_xor, decide_eq_decide]
          exact step

theorem toggleBits_of_le {layout : Layout}
    (lenSmall : layout.len ≤ 1048320) {bitIdx numBits : Nat}
    (machine : Machine) (inRange : bitIdx + numBits ≤ layout.len) :
    ∃ bits, toggleBits layout bitIdx numBits machine =
        { machine with bits := bits } ∧
      ∀ index, bitAt bits index =
        (bitAt machine.bits index ^^
          decide (bitIdx ≤ index ∧ index < bitIdx + numBits)) := by
  have count : w32 (bitIdx + numBits) - bitIdx = numBits := by
    rw [w32_of_lt (by omega)]
    omega
  rw [toggleBits, count]
  exact toggleBitsFrom_of_le lenSmall machine inRange

/-! ## The scan -/

/-- The scan's variables just before index `stop`: the last `framesFound` bits
are set and start at `bitIdx`. -/
def RunBefore (bits : Nat → BitVec 32) (stop framesFound bitIdx : Nat) :
    Prop :=
  framesFound = 0 ∨
    bitIdx + framesFound = stop ∧
      ∀ index, bitIdx ≤ index → index < stop → bitAt bits index = true

/-- A run of set bits below `limit` that one region holds. -/
structure Accepted (mmap : List MemoryMap) (numPageFrames : Nat)
    (bits : Nat → BitVec 32) (limit bitIdx : Nat) : Prop where
  below : bitIdx + numPageFrames ≤ limit
  set : ∀ index, bitIdx ≤ index → index < bitIdx + numPageFrames →
    bitAt bits index = true
  fits : fitsInOneMmapEntry mmap bitIdx numPageFrames = true

/-- What a scan step guarantees at index `stop`. -/
def ScanResult.Sound (mmap : List MemoryMap) (numPageFrames : Nat)
    (bits : Nat → BitVec 32) (stop : Nat) : ScanResult → Prop
  | .found bitIdx => Accepted mmap numPageFrames bits stop bitIdx
  | .pending framesFound bitIdx =>
      framesFound < numPageFrames ∧ RunBefore bits stop framesFound bitIdx

theorem RunBefore.extend {bits : Nat → BitVec 32}
    {stop framesFound bitIdx : Nat}
    (run : RunBefore bits stop framesFound bitIdx)
    (set : bitAt bits stop = true) :
    (if framesFound = 0 then stop else bitIdx) + (framesFound + 1) =
        stop + 1 ∧
      ∀ index, (if framesFound = 0 then stop else bitIdx) ≤ index →
        index < stop + 1 → bitAt bits index = true := by
  rcases run with none | ⟨length, earlier⟩
  · subst none
    refine ⟨by simp, ?_⟩
    intro index lower upper
    have same : index = stop := by
      simp only [if_true] at lower
      omega
    rw [same]
    exact set
  · by_cases none : framesFound = 0
    · subst none
      refine ⟨by simp, ?_⟩
      intro index lower upper
      have same : index = stop := by
        simp only [if_true] at lower
        omega
      rw [same]
      exact set
    · rw [if_neg none]
      refine ⟨by omega, ?_⟩
      intro index lower upper
      by_cases last : index = stop
      · rw [last]
        exact set
      · exact earlier index lower (by omega)

theorem scanCell_succ (mmap : List MemoryMap) {numPageFrames : Nat}
    (bits : Nat → BitVec 32) {i remaining framesFound : Nat} (bitIdx : Nat)
    (wordSmall : 32 * i ≤ 4294967264) (bound : remaining < 32)
    (foundSmall : framesFound + 1 < 4294967296) :
    scanCell mmap numPageFrames (bits i) i (remaining + 1) framesFound
        bitIdx =
      if bitAt bits (32 * i + (31 - remaining)) = true then
        let first :=
          if framesFound = 0 then 32 * i + (31 - remaining) else bitIdx
        if framesFound + 1 = numPageFrames then
          if fitsInOneMmapEntry mmap first numPageFrames then .found first
          else scanCell mmap numPageFrames (bits i) i remaining 0 first
        else
          scanCell mmap numPageFrames (bits i) i remaining (framesFound + 1)
            first
      else scanCell mmap numPageFrames (bits i) i remaining 0 bitIdx := by
  have wordIndex : w32 (i * 32 + (31 - remaining)) =
      32 * i + (31 - remaining) := by
    rw [w32_of_lt (by omega)]
    omega
  have bit : (bits i >>> (31 - (31 - remaining))) &&& 1#32 = 1#32 ↔
      bitAt bits (32 * i + (31 - remaining)) = true := by
    rw [bitAt_word _ (by omega)]
    exact shifted_one_iff _ _
  simp only [scanCell, wordIndex, w32_of_lt foundSmall, bit]

theorem scanCell_sound (mmap : List MemoryMap) {numPageFrames : Nat}
    (bits : Nat → BitVec 32) {i : Nat} (wordSmall : 32 * i ≤ 4294967264)
    (numSmall : numPageFrames < 4294967296) :
    ∀ {remaining framesFound bitIdx : Nat}, remaining ≤ 32 →
      framesFound < numPageFrames →
      RunBefore bits (32 * i + (32 - remaining)) framesFound bitIdx →
      (scanCell mmap numPageFrames (bits i) i remaining framesFound
        bitIdx).Sound mmap numPageFrames bits (32 * i + 32) := by
  intro remaining
  induction remaining with
  | zero =>
      intro framesFound bitIdx _ fewer run
      exact ⟨fewer, run⟩
  | succ remaining induction =>
      intro framesFound bitIdx bound fewer run
      have position : 32 * i + (32 - (remaining + 1)) =
          32 * i + (31 - remaining) := by omega
      have nextPosition : 32 * i + (31 - remaining) + 1 =
          32 * i + (32 - remaining) := by omega
      rw [position] at run
      rw [scanCell_succ mmap bits bitIdx wordSmall (by omega) (by omega)]
      split
      · rename_i set
        obtain ⟨length, allSet⟩ := run.extend set
        dsimp only
        generalize (if framesFound = 0 then 32 * i + (31 - remaining)
          else bitIdx) = first at length allSet ⊢
        split
        · rename_i enough
          split
          · rename_i fits
            exact
              { below := by omega
                set := fun index lower upper =>
                  allSet index lower (by omega)
                fits := fits }
          · exact induction (by omega) (by omega) (Or.inl rfl)
        · rename_i notEnough
          refine induction (by omega) (by omega) (Or.inr ⟨by omega, ?_⟩)
          intro index lower upper
          exact allSet index lower (by omega)
      · exact induction (by omega) (by omega) (Or.inl rfl)

theorem scanWords_sound (mmap : List MemoryMap) {numPageFrames : Nat}
    (bits : Nat → BitVec 32) (numSmall : numPageFrames < 4294967296) :
    ∀ {remaining i framesFound bitIdx result : Nat},
      i + remaining ≤ 134217728 →
      framesFound < numPageFrames →
      RunBefore bits (32 * i) framesFound bitIdx →
      scanWords mmap numPageFrames bits remaining i framesFound bitIdx =
        some result →
      Accepted mmap numPageFrames bits (32 * (i + remaining)) result := by
  intro remaining
  induction remaining with
  | zero =>
      intro i framesFound bitIdx result _ _ _ success
      simp [scanWords] at success
  | succ remaining induction =>
      intro i framesFound bitIdx result bound fewer run success
      have sameLimit : 32 * (i + (remaining + 1)) =
          32 * (i + 1 + remaining) := by omega
      rw [sameLimit]
      simp only [scanWords] at success
      split at success
      · have cellSound := scanCell_sound mmap bits (i := i) (by omega)
          numSmall (Nat.le_refl 32) fewer (by simpa using run)
        split at success
        · rename_i found equality
          rw [equality] at cellSound
          have same : found = result := by simpa using success
          subst same
          exact
            { below := by
                have below := cellSound.below
                omega
              set := cellSound.set
              fits := cellSound.fits }
        · rename_i laterFound laterIdx equality
          rw [equality] at cellSound
          obtain ⟨laterFewer, laterRun⟩ := cellSound
          exact induction (by omega) laterFewer laterRun success
      · exact induction (by omega) (by omega) (Or.inl rfl) success

/-! ## Specifications -/

/-- A layout whose frame map is as `frames_init` leaves it. -/
def Layout.FramesOk (layout : Layout) : Prop :=
  FramesWellFormed layout.mmap layout.len

/-- The bitmap marks a managed frame as free. -/
def frameFree (layout : Layout) (machine : Machine) (frame : Nat) : Prop :=
  bitAt machine.bits (idxForPaddr layout.mmap layout.len (fourKb * frame)) =
    true

/-- The frame numbers of a block of `count` frames that starts at an
address. -/
def blockFrames (paddr count : Nat) : List Nat :=
  List.range' (paddr / fourKb) count

theorem idxForPaddr_frame {layout : Layout} (framesOk : layout.FramesOk)
    {position frame : Nat}
    (found : (mmapFrames layout.mmap)[position]? = some frame) :
    idxForPaddr layout.mmap layout.len (fourKb * frame) = position :=
  idxForPaddr_eq framesOk (by simpa [fourKb] using found)

/-- What a successful `pfa_allocate` returns and changes. -/
structure Allocated (layout : Layout) (numPageFrames : Nat)
    (machine : Machine) (paddr : Nat) (after : Machine)
    (position frame : Nat) : Prop where
  address : paddr = fourKb * frame
  oneRegion : ∃ region ∈ layout.mmap, region.addr ≤ fourKb * frame ∧
    fourKb * (frame + numPageFrames) ≤ region.addr + region.len
  numbered : ∀ step, step < numPageFrames →
    (mmapFrames layout.mmap)[position + step]? = some (frame + step)
  wasFree : ∀ index, position ≤ index → index < position + numPageFrames →
    bitAt machine.bits index = true
  unchanged : after = { machine with bits := after.bits }
  toggled : ∀ index, bitAt after.bits index =
    (bitAt machine.bits index ^^
      decide (position ≤ index ∧ index < position + numPageFrames))

/-- `pfa_allocate` returns 0 and changes nothing, or hands out a run of free
frames of one region. -/
theorem pfaAllocate_spec {layout : Layout}
    (framesOk : FramesDisjoint layout.mmap layout.len)
    {numPageFrames : Nat} (positive : 1 ≤ numPageFrames)
    (numSmall : numPageFrames < 4294967296) (machine : Machine) :
    pfaAllocate layout numPageFrames machine = (0, machine) ∨
      ∃ position frame, Allocated layout numPageFrames machine
        (pfaAllocate layout numPageFrames machine).1
        (pfaAllocate layout numPageFrames machine).2 position frame := by
  have lenSmall := framesOk.len_le
  unfold pfaAllocate
  split
  · rename_i bitIdx success
    right
    -- `div_ceil` of an empty bitmap wraps to 2^27 words, the largest count.
    have wordsSmall : divCeil layout.len 32 ≤ 134217728 := by
      unfold divCeil
      have pred := sub32_lt (by omega : layout.len < 4294967296) 1
      omega
    have accepted := scanWords_sound layout.mmap machine.bits numSmall
      (by omega) (by omega) (Or.inl rfl) success
    obtain ⟨region, member, frame, lower, upper, numbered⟩ :=
      fitsInOneMmapEntry_sound framesOk (by simpa using accepted.below)
        accepted.fits
    have firstNumbered := numbered 0 (by omega)
    have lastNumbered := numbered (numPageFrames - 1) (by omega)
    obtain ⟨lastInRange, _⟩ := List.getElem?_eq_some_iff.mp lastNumbered
    rw [framesOk.frames_length] at lastInRange
    obtain ⟨bits, toggledEq, toggled⟩ :=
      toggleBits_of_le lenSmall machine
        (by omega : bitIdx + numPageFrames ≤ layout.len)
    refine ⟨bitIdx, frame, ?_⟩
    exact
      { address := paddrForIdx_eq framesOk firstNumbered
        oneRegion := ⟨region, member, lower, upper⟩
        numbered := numbered
        wasFree := accepted.set
        unchanged := by rw [toggledEq]
        toggled := by rw [toggledEq]; exact toggled }
  · exact Or.inl rfl

/-- `pfa_free` of a managed frame flips the bit of that frame. -/
theorem pfaFree_spec {layout : Layout} (framesOk : layout.FramesOk)
    {position paddr : Nat}
    (found : (mmapFrames layout.mmap)[position]? = some (paddr / fourKb))
    (machine : Machine) :
    pfaFree layout paddr machine =
        { machine with bits := (pfaFree layout paddr machine).bits } ∧
      ∀ index, bitAt (pfaFree layout paddr machine).bits index =
        (bitAt machine.bits index ^^ decide (index = position)) := by
  obtain ⟨inRange, _⟩ := List.getElem?_eq_some_iff.mp found
  rw [framesOk.unordered.frames_length] at inRange
  obtain ⟨bits, toggledEq, toggled⟩ :=
    toggleBit_of_lt framesOk.unordered.len_le inRange machine
  have freed : pfaFree layout paddr machine =
      toggleBit layout position machine := by
    simp only [pfaFree]
    rw [idxForPaddr_eq framesOk found, if_neg (Nat.ne_of_lt inRange)]
  rw [freed, toggledEq]
  exact ⟨rfl, toggled⟩

/-! ## The same in terms of frames -/

/-- A managed frame that nobody holds. -/
def FreeFrame (layout : Layout) (machine : Machine) (frame : Nat) : Prop :=
  frame ∈ mmapFrames layout.mmap ∧ frameFree layout machine frame

theorem FreeFrame.congr {layout : Layout} {machine other : Machine}
    (same : other.bits = machine.bits) (frame : Nat) :
    FreeFrame layout other frame ↔ FreeFrame layout machine frame := by
  simp only [FreeFrame, frameFree, same]

theorem freeFrame_iff {layout : Layout} (framesOk : layout.FramesOk)
    {machine : Machine} {position frame : Nat}
    (found : (mmapFrames layout.mmap)[position]? = some frame) :
    FreeFrame layout machine frame ↔ bitAt machine.bits position = true := by
  rw [FreeFrame, frameFree, idxForPaddr_frame framesOk found]
  constructor
  · exact fun free => free.2
  · exact fun bit => ⟨List.mem_of_getElem? found, bit⟩

/-- What a successful `pfa_allocate` does to the free frames. -/
structure TakesFrames (layout : Layout) (count : Nat) (machine : Machine)
    (paddr : Nat) (after : Machine) (frame : Nat) : Prop where
  address : paddr = fourKb * frame
  notNull : paddr ≠ 0
  wasFree : ∀ taken, frame ≤ taken → taken < frame + count →
    FreeFrame layout machine taken
  unchanged : after = { machine with bits := after.bits }
  free : ∀ other, FreeFrame layout after other ↔
    FreeFrame layout machine other ∧
      ¬(frame ≤ other ∧ other < frame + count)

theorem TakesFrames.mem_blockFrames {layout : Layout}
    {count paddr frame : Nat} {machine after : Machine}
    (taken : TakesFrames layout count machine paddr after frame)
    {other : Nat} :
    other ∈ blockFrames paddr count ↔
      frame ≤ other ∧ other < frame + count := by
  have start : paddr / fourKb = frame := by
    rw [taken.address]
    simp [fourKb]
  rw [blockFrames, start, List.mem_range'_1]

theorem Allocated.takesFrames {layout : Layout} (framesOk : layout.FramesOk)
    {count paddr position frame : Nat} {machine after : Machine}
    (positive : 1 ≤ count)
    (allocated : Allocated layout count machine paddr after position frame) :
    TakesFrames layout count machine paddr after frame := by
  have numbered : ∀ taken, frame ≤ taken → taken < frame + count →
      (mmapFrames layout.mmap)[position + (taken - frame)]? =
        some taken := by
    intro taken lower upper
    have entry := allocated.numbered (taken - frame) (by omega)
    rwa [Nat.add_sub_cancel' lower] at entry
  refine ⟨allocated.address, ?_, ?_, allocated.unchanged, ?_⟩
  · have bounds := framesOk.unordered.frame_bounds
      (List.mem_of_getElem? (numbered frame (by omega) (by omega)))
    rw [allocated.address]
    simp only [fourKb]
    omega
  · intro taken lower upper
    rw [freeFrame_iff framesOk (numbered taken lower upper)]
    exact allocated.wasFree _ (by omega) (by omega)
  · intro other
    by_cases managed : other ∈ mmapFrames layout.mmap
    · obtain ⟨index, found⟩ := List.mem_iff_getElem?.mp managed
      rw [freeFrame_iff framesOk found, freeFrame_iff framesOk found,
        allocated.toggled]
      have inside : (position ≤ index ∧ index < position + count) ↔
          frame ≤ other ∧ other < frame + count := by
        constructor
        · intro bounds
          have entry := allocated.numbered (index - position) (by omega)
          rw [Nat.add_sub_cancel' bounds.1, found] at entry
          have same := Option.some.inj entry
          omega
        · intro bounds
          have same := framesOk.unordered.position_unique found
            (numbered other bounds.1 bounds.2)
          omega
      by_cases inBlock : frame ≤ other ∧ other < frame + count
      · have wasSet := allocated.wasFree index (inside.mpr inBlock).1
          (inside.mpr inBlock).2
        simp [inside, inBlock, wasSet]
      · simp [inside, inBlock]
    · simp [FreeFrame, managed]

/-- `pfa_allocate` returns 0 and changes nothing, or takes free frames. -/
theorem pfaAllocate_frames {layout : Layout} (framesOk : layout.FramesOk)
    {count : Nat} (positive : 1 ≤ count) (small : count < 4294967296)
    (machine : Machine) :
    pfaAllocate layout count machine = (0, machine) ∨
      ∃ frame, TakesFrames layout count machine
        (pfaAllocate layout count machine).1
        (pfaAllocate layout count machine).2 frame := by
  cases pfaAllocate_spec framesOk.unordered positive small machine with
  | inl failed => exact Or.inl failed
  | inr success =>
      obtain ⟨position, frame, allocated⟩ := success
      exact Or.inr ⟨frame, allocated.takesFrames framesOk positive⟩

/-- `pfa_free` gives back a frame that was taken. -/
theorem pfaFree_frames {layout : Layout} (framesOk : layout.FramesOk)
    {machine : Machine} {frame : Nat}
    (managed : frame ∈ mmapFrames layout.mmap)
    (taken : ¬FreeFrame layout machine frame) :
    pfaFree layout (fourKb * frame) machine =
        { machine with bits :=
          (pfaFree layout (fourKb * frame) machine).bits } ∧
      ∀ other, FreeFrame layout (pfaFree layout (fourKb * frame) machine)
          other ↔ FreeFrame layout machine other ∨ other = frame := by
  obtain ⟨position, found⟩ := List.mem_iff_getElem?.mp managed
  have aligned : fourKb * frame / fourKb = frame := by simp [fourKb]
  obtain ⟨unchanged, toggled⟩ := pfaFree_spec framesOk
    (by rw [aligned]; exact found) machine
  refine ⟨unchanged, ?_⟩
  intro other
  by_cases otherManaged : other ∈ mmapFrames layout.mmap
  · obtain ⟨index, otherFound⟩ := List.mem_iff_getElem?.mp otherManaged
    rw [freeFrame_iff framesOk otherFound, freeFrame_iff framesOk otherFound,
      toggled]
    rw [freeFrame_iff framesOk found] at taken
    by_cases same : other = frame
    · subst same
      have samePosition := framesOk.unordered.position_unique otherFound found
      subst samePosition
      simp [taken]
    · have differentPosition : index ≠ position := by
        intro equal
        subst equal
        exact same (Option.some.inj (otherFound.symm.trans found))
      simp [same, differentPosition]
  · have different : other ≠ frame := fun same => otherManaged (same ▸ managed)
    simp [FreeFrame, otherManaged, different]

/-- A bit past the last frame number marks no frame. -/
theorem toggleBit_freeFrame {layout : Layout} (framesOk : layout.FramesOk)
    {bitIdx : Nat} (past : layout.len ≤ bitIdx) (machine : Machine)
    (frame : Nat) :
    FreeFrame layout (toggleBit layout bitIdx machine) frame ↔
      FreeFrame layout machine frame := by
  by_cases managed : frame ∈ mmapFrames layout.mmap
  · obtain ⟨position, found⟩ := List.mem_iff_getElem?.mp managed
    obtain ⟨inRange, _⟩ := List.getElem?_eq_some_iff.mp found
    rw [framesOk.unordered.frames_length] at inRange
    have different : position ≠ bitIdx := by omega
    rw [freeFrame_iff framesOk found, freeFrame_iff framesOk found,
      toggleBit]
    split_ifs
    · rw [bitAt_xor, decide_eq_false different, Bool.xor_false]
    · rw [Machine.xorWord]
      split <;> rfl
  · simp only [FreeFrame, managed, false_and]

theorem pfaFree_null {layout : Layout} (framesOk : layout.FramesOk)
    (machine : Machine) (frame : Nat) :
    FreeFrame layout (pfaFree layout 0 machine) frame ↔
      FreeFrame layout machine frame := by
  rw [pfaFree]
  split_ifs
  · exact Iff.rfl
  · exact toggleBit_freeFrame framesOk (idxForPaddr_null framesOk) machine
      frame

/-- Only the bitmap decides what `pfa_allocate` returns. -/
theorem pfaAllocate_fst_congr (layout : Layout) (count : Nat)
    {machine other : Machine} (bits : other.bits = machine.bits) :
    (pfaAllocate layout count other).1 =
      (pfaAllocate layout count machine).1 := by
  simp only [pfaAllocate, bits]
  split <;> rfl

end Newbos
