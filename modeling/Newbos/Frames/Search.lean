import Newbos.Frames.Safety

/-!
# Which blocks the search finds

`pfa_allocate` counts set bits and tests a block whenever it has counted
enough of them.  After a test that fails it starts to count afresh, so inside
one run of set bits it tests only the blocks that follow each other from the
start of the run.  The run may reach over several regions.
-/

namespace Newbos

/-- Number of consecutive set bits that end just before an index. -/
def setBefore (bits : Nat → BitVec 32) : Nat → Nat
  | 0 => 0
  | index + 1 => if bitAt bits index then setBefore bits index + 1 else 0

/-- Free frames at consecutive indices, all of them in one region. -/
structure FreeBlock (layout : Layout) (machine : Machine)
    (numPageFrames first : Nat) : Prop where
  below : first + numPageFrames ≤ layout.len
  set : ∀ index, first ≤ index → index < first + numPageFrames →
    bitAt machine.bits index = true
  oneRegion : ∃ region ∈ layout.mmap, ∀ index, first ≤ index →
    index < first + numPageFrames →
    region.Contains (paddrForIdx layout.mmap index)

/-! ## The test of a block -/

/-- `fits_in_one_mmap_entry` accepts the frames of one region. -/
theorem fitsInOneMmapEntryFrom_complete {mmap : List MemoryMap}
    (wellFormed : MmapWellFormed mmap)
    {position pfs currentOffset first last : Nat} {region : MemoryMap}
    (member : region ∈ mmap)
    (small : currentOffset + mmapBytes mmap < 4294967296)
    (runSmall : currentOffset + fourKb * (position + pfs) < 4294967296)
    (positive : 1 ≤ pfs)
    (atFirst : (mmapFrames mmap)[position]? = some first)
    (atLast : (mmapFrames mmap)[position + (pfs - 1)]? = some last)
    (firstInside : region.Contains (fourKb * first))
    (lastInside : region.Contains (fourKb * last)) :
    fitsInOneMmapEntryFrom (currentOffset + fourKb * position) pfs mmap
      currentOffset = true := by
  induction mmap generalizing position currentOffset with
  | nil => cases member
  | cons head rest induction =>
      have headFormed := wellFormed.region head List.mem_cons_self
      have addrAligned := headFormed.addrAligned
      have lenAligned := headFormed.lenAligned
      have bytes : mmapBytes (head :: rest) = head.len + mmapBytes rest := by
        simp [mmapBytes]
      rw [bytes] at small
      -- A frame of the head region is in no later one.
      have apart : ∀ later ∈ rest, ∀ paddr, later.Contains paddr →
          ¬head.Contains paddr := by
        intro later laterMember paddr inside inHead
        exact (List.pairwise_cons.mp wellFormed.disjoint).1 later laterMember
          paddr inHead inside
      have inRest : ∀ {index frame : Nat}, head.len / fourKb ≤ index →
          (mmapFrames (head :: rest))[index]? = some frame →
          ∃ later ∈ rest, later.Contains (fourKb * frame) := by
        intro index frame late atIndex
        rw [mmapFrames_cons_getElem?, if_neg (Nat.not_lt_of_le late)]
          at atIndex
        exact (mem_mmapFrames_iff wellFormed.tail.region).mp
          (List.mem_of_getElem? atIndex)
      rw [fitsInOneMmapEntryFrom_cons lenAligned (by omega) runSmall]
      by_cases inHead : position < head.len / fourKb
      · have firstInHead : head.Contains (fourKb * first) := by
          rw [mmapFrames_cons_getElem?, if_pos inHead] at atFirst
          have firstEq := Option.some.inj atFirst
          unfold MemoryMap.Contains
          simp only [fourKb] at *
          omega
        have isHead : region = head := by
          cases List.mem_cons.mp member with
          | inl same => exact same
          | inr later =>
              exact absurd firstInHead (apart region later _ firstInside)
        subst isHead
        have lastInHead : position + (pfs - 1) < region.len / fourKb := by
          by_contra late
          obtain ⟨later, laterMember, inside⟩ :=
            inRest (Nat.le_of_not_lt late) atLast
          exact apart later laterMember _ inside lastInside
        rw [if_pos inHead, decide_eq_true_eq]
        simp only [fourKb] at *
        omega
      · have late := Nat.le_of_not_lt inHead
        have isLater : region ∈ rest := by
          cases List.mem_cons.mp member with
          | inl same =>
              obtain ⟨later, laterMember, inside⟩ := inRest late atFirst
              exact absurd (same ▸ firstInside)
                (apart later laterMember _ inside)
          | inr later => exact later
        have shifted : position + (pfs - 1) - head.len / fourKb =
            position - head.len / fourKb + (pfs - 1) := by omega
        rw [mmapFrames_cons_getElem?, if_neg inHead] at atFirst
        rw [mmapFrames_cons_getElem?, if_neg (by omega), shifted] at atLast
        rw [if_neg inHead]
        apply induction wellFormed.tail isLater (by omega) _ atFirst atLast
        simp only [fourKb] at *
        omega

theorem fitsInOneMmapEntry_complete {mmap : List MemoryMap}
    {len first pfs : Nat} (wellFormed : FramesWellFormed mmap len)
    (positive : 1 ≤ pfs) (below : first + pfs ≤ len) {region : MemoryMap}
    (member : region ∈ mmap)
    (inside : ∀ index, first ≤ index → index < first + pfs →
      region.Contains (paddrForIdx mmap index)) :
    fitsInOneMmapEntry mmap first pfs = true := by
  have lenSmall := wellFormed.unordered.len_le
  have numbered : ∀ index, first ≤ index → index < first + pfs →
      ∃ frame, (mmapFrames mmap)[index]? = some frame ∧
        region.Contains (fourKb * frame) := by
    intro index lower upper
    obtain ⟨frame, atIndex⟩ :=
      wellFormed.unordered.exists_frame (by omega : index < len)
    refine ⟨frame, atIndex, ?_⟩
    rw [← paddrForIdx_eq wellFormed.unordered atIndex]
    exact inside index lower upper
  obtain ⟨firstFrame, atFirst, firstInside⟩ :=
    numbered first (Nat.le_refl _) (by omega)
  obtain ⟨lastFrame, atLast, lastInside⟩ :=
    numbered (first + (pfs - 1)) (by omega) (by omega)
  have offset : w32 (first * fourKb) = 0 + fourKb * first := by
    rw [w32_of_lt (by simp only [fourKb]; omega)]
    simp only [fourKb]
    omega
  rw [fitsInOneMmapEntry, offset]
  exact fitsInOneMmapEntryFrom_complete wellFormed.map member
    (by simpa using wellFormed.unordered.bytes_lt)
    (by simp only [fourKb]; omega) positive atFirst atLast firstInside
    lastInside

theorem FreeBlock.fits {layout : Layout} {machine : Machine}
    {numPageFrames first : Nat} (framesOk : layout.FramesOk)
    (positive : 1 ≤ numPageFrames)
    (block : FreeBlock layout machine numPageFrames first) :
    fitsInOneMmapEntry layout.mmap first numPageFrames = true := by
  obtain ⟨region, member, inside⟩ := block.oneRegion
  exact fitsInOneMmapEntry_complete framesOk positive block.below member
    inside

/-! ## The blocks that are tested -/

/-- The block of `count` bits that ends at `stop` is tested. -/
def Tested (bits : Nat → BitVec 32) (count stop : Nat) : Prop :=
  0 < setBefore bits stop ∧ setBefore bits stop % count = 0

/-- The variables of the scan just before index `stop`. -/
structure Counting (bits : Nat → BitVec 32)
    (count stop framesFound bitIdx : Nat) : Prop where
  found : framesFound = setBefore bits stop % count
  first : framesFound ≠ 0 → bitIdx + framesFound = stop

/-- A scan from `start` to `stop` ends at the first tested block that fits. -/
def ScanResult.Exact (mmap : List MemoryMap) (count : Nat)
    (bits : Nat → BitVec 32) (start stop : Nat) : ScanResult → Prop
  | .found bitIdx => bitIdx + count ≤ stop ∧
      Tested bits count (bitIdx + count) ∧
      fitsInOneMmapEntry mmap bitIdx count = true
  | .pending framesFound bitIdx =>
      Counting bits count stop framesFound bitIdx ∧
      ∀ last, start < last → last ≤ stop → Tested bits count last →
        fitsInOneMmapEntry mmap (last - count) count = false

section Scan

variable {bits : Nat → BitVec 32} {count : Nat}

theorem setBefore_of_set {index : Nat} (set : bitAt bits index = true) :
    setBefore bits (index + 1) = setBefore bits index + 1 := by
  rw [setBefore, if_pos set]

theorem setBefore_of_clear {index : Nat} (clear : bitAt bits index = false) :
    setBefore bits (index + 1) = 0 := by
  rw [setBefore, clear]
  rfl

theorem setBefore_add {first : Nat} : ∀ {length : Nat},
    (∀ index, first ≤ index → index < first + length →
      bitAt bits index = true) →
    setBefore bits (first + length) = setBefore bits first + length := by
  intro length
  induction length with
  | zero => intro _; rfl
  | succ length induction =>
      intro set
      have shorter := induction fun index lower upper =>
        set index lower (by omega)
      rw [← Nat.add_assoc, setBefore_of_set (set _ (by omega) (by omega)),
        shorter, Nat.add_assoc]

theorem Counting.clear {stop : Nat} (bitIdx : Nat)
    (clear : bitAt bits stop = false) :
    Counting bits count (stop + 1) 0 bitIdx := by
  refine ⟨?_, fun impossible => absurd rfl impossible⟩
  rw [setBefore_of_clear clear, Nat.zero_mod]

theorem Counting.start {stop framesFound bitIdx : Nat}
    (counting : Counting bits count stop framesFound bitIdx) :
    (if framesFound = 0 then stop else bitIdx) + (framesFound + 1) =
      stop + 1 := by
  by_cases none : framesFound = 0
  · rw [if_pos none, none]
  · rw [if_neg none, ← Nat.add_assoc, counting.first none]

theorem Counting.set_mod {stop framesFound bitIdx : Nat}
    (counting : Counting bits count stop framesFound bitIdx)
    (set : bitAt bits stop = true) :
    setBefore bits (stop + 1) % count = (framesFound + 1) % count := by
  rw [setBefore_of_set set, counting.found, Nat.mod_add_mod]

theorem Counting.full {stop framesFound bitIdx : Nat}
    (counting : Counting bits count stop framesFound bitIdx)
    (set : bitAt bits stop = true) (enough : framesFound + 1 = count)
    (first : Nat) :
    Tested bits count (stop + 1) ∧
      Counting bits count (stop + 1) 0 first := by
  have modulo : setBefore bits (stop + 1) % count = 0 := by
    rw [counting.set_mod set, enough, Nat.mod_self]
  refine ⟨⟨?_, modulo⟩, modulo.symm, fun impossible => absurd rfl impossible⟩
  rw [setBefore_of_set set]
  exact Nat.succ_pos _

theorem Counting.longer {stop framesFound bitIdx first : Nat}
    (counting : Counting bits count stop framesFound bitIdx)
    (set : bitAt bits stop = true) (fewer : framesFound + 1 < count)
    (start : first + (framesFound + 1) = stop + 1) :
    ¬Tested bits count (stop + 1) ∧
      Counting bits count (stop + 1) (framesFound + 1) first := by
  have modulo := counting.set_mod set
  rw [Nat.mod_eq_of_lt fewer] at modulo
  refine ⟨?_, modulo.symm, fun _ => start⟩
  intro tested
  rw [tested.2] at modulo
  exact absurd modulo.symm (Nat.succ_ne_zero _)

/-- Nothing new is tested at the next index, so a scan from there decides the
scan from here. -/
theorem ScanResult.Exact.earlier {mmap : List MemoryMap}
    {start stop : Nat} {result : ScanResult}
    (exact_ : result.Exact mmap count bits (start + 1) stop)
    (untested : Tested bits count (start + 1) →
      fitsInOneMmapEntry mmap (start + 1 - count) count = false) :
    result.Exact mmap count bits start stop := by
  cases result with
  | found bitIdx => exact exact_
  | pending framesFound bitIdx =>
      refine ⟨exact_.1, ?_⟩
      intro last lower upper tested
      by_cases next : last = start + 1
      · rw [next] at tested ⊢
        exact untested tested
      · exact exact_.2 last (by omega) upper tested

theorem scanCell_exact (mmap : List MemoryMap) (bits : Nat → BitVec 32)
    {i : Nat} (wordSmall : 32 * i ≤ 4294967264) (positive : 1 ≤ count)
    (countSmall : count < 4294967296) :
    ∀ {remaining framesFound bitIdx : Nat}, remaining ≤ 32 →
      Counting bits count (32 * i + (32 - remaining)) framesFound bitIdx →
      (scanCell mmap count (bits i) i remaining framesFound bitIdx).Exact
        mmap count bits (32 * i + (32 - remaining)) (32 * i + 32) := by
  intro remaining
  induction remaining with
  | zero =>
      intro framesFound bitIdx _ counting
      refine ⟨counting, ?_⟩
      intro last lower upper
      omega
  | succ remaining induction =>
      intro framesFound bitIdx bound counting
      have position : 32 * i + (32 - (remaining + 1)) =
          32 * i + (31 - remaining) := by omega
      have nextPosition : 32 * i + (32 - remaining) =
          32 * i + (31 - remaining) + 1 := by omega
      rw [position] at counting ⊢
      rw [nextPosition] at induction
      have fewer : framesFound < count := by
        rw [counting.found]
        exact Nat.mod_lt _ positive
      rw [scanCell_succ mmap bits bitIdx wordSmall (by omega) (by omega)]
      split
      · rename_i set
        have length := counting.start
        dsimp only
        generalize (if framesFound = 0 then 32 * i + (31 - remaining)
          else bitIdx) = first at length ⊢
        split
        · rename_i enough
          obtain ⟨tested, restart⟩ :=
            counting.full set enough first
          rw [← length, enough] at tested
          split
          · rename_i fits
            exact ⟨by omega, tested, fits⟩
          · rename_i tooWide
            apply (induction (by omega) restart).earlier
            intro _
            rw [← length, enough, Nat.add_sub_cancel]
            exact Bool.eq_false_iff.mpr tooWide
        · rename_i notEnough
          obtain ⟨untested, longer⟩ :=
            counting.longer set (by omega) length
          apply (induction (by omega) longer).earlier
          exact fun tested => absurd tested untested
      · rename_i bitClear
        have clear : bitAt bits (32 * i + (31 - remaining)) = false :=
          Bool.eq_false_iff.mpr bitClear
        apply (induction (by omega) (Counting.clear bitIdx clear)).earlier
        intro tested
        have nonempty := tested.1
        rw [setBefore_of_clear clear] at nonempty
        omega

theorem bitAt_zeroWord {i j : Nat} (zero : bits i = 0#32) (small : j < 32) :
    bitAt bits (32 * i + j) = false := by
  rw [bitAt_word _ small, zero, BitVec.getLsbD_zero]

theorem scanWords_exact (mmap : List MemoryMap) (bits : Nat → BitVec 32)
    (positive : 1 ≤ count) (countSmall : count < 4294967296) :
    ∀ {remaining i framesFound bitIdx : Nat}, i + remaining ≤ 134217728 →
      Counting bits count (32 * i) framesFound bitIdx →
      match scanWords mmap count bits remaining i framesFound bitIdx with
      | some result => result + count ≤ 32 * (i + remaining) ∧
          Tested bits count (result + count) ∧
          fitsInOneMmapEntry mmap result count = true
      | none => ∀ last, 32 * i < last → last ≤ 32 * (i + remaining) →
          Tested bits count last →
          fitsInOneMmapEntry mmap (last - count) count = false := by
  intro remaining
  induction remaining with
  | zero =>
      intro i framesFound bitIdx _ _ last lower upper
      omega
  | succ remaining induction =>
      intro i framesFound bitIdx bound counting
      have sameLimit : i + (remaining + 1) = i + 1 + remaining := by omega
      have nextWord : 32 * (i + 1) = 32 * i + 32 := by omega
      rw [sameLimit]
      simp only [scanWords]
      by_cases zero : bits i = 0#32
      · rw [if_neg (by simp [zero])]
        have nothing : ∀ j, j < 32 → setBefore bits (32 * i + j + 1) = 0 :=
          fun j small => setBefore_of_clear (bitAt_zeroWord zero small)
        have restart : Counting bits count (32 * (i + 1)) 0 bitIdx := by
          rw [nextWord]
          exact Counting.clear bitIdx (bitAt_zeroWord zero (by decide))
        have rest := induction (by omega) restart
        split
        · rename_i result equality
          rw [equality] at rest
          exact rest
        · rename_i equality
          rw [equality] at rest
          intro last lower upper tested
          by_cases inWord : last ≤ 32 * i + 32
          · have nonempty := tested.1
            have same : last = 32 * i + (last - 32 * i - 1) + 1 := by omega
            rw [same, nothing _ (by omega)] at nonempty
            omega
          · exact rest last (by omega) upper tested
      · rw [if_pos zero]
        have cell := scanCell_exact mmap bits (i := i) (by omega) positive
          countSmall (Nat.le_refl 32) (by simpa using counting)
        cases equality : scanCell mmap count (bits i) i 32 framesFound
            bitIdx with
        | found result =>
            rw [equality] at cell
            exact ⟨by have := cell.1; omega, cell.2⟩
        | pending laterFound laterIdx =>
            rw [equality] at cell
            obtain ⟨laterCounting, untested⟩ := cell
            have rest := induction (i := i + 1) (by omega)
              (by rw [nextWord]; exact laterCounting)
            dsimp only
            split
            · rename_i result found
              rw [found] at rest
              exact rest
            · rename_i found
              rw [found] at rest
              intro last lower upper tested
              by_cases inWord : last ≤ 32 * i + 32
              · exact untested last (by omega) inWord tested
              · exact rest last (by omega) upper tested

end Scan

section Completeness

variable {layout : Layout} {numPageFrames : Nat}

/-- `div_ceil` of an empty bitmap wraps to 2^27 words, the largest count. -/
theorem bitmapCells_le (framesOk : layout.FramesOk) :
    0 + divCeil layout.len 32 ≤ 134217728 := by
  have lenSmall := framesOk.unordered.len_le
  have pred := sub32_lt (by omega : layout.len < 4294967296) 1
  rw [divCeil]
  omega

/-- `pfa_allocate` succeeds exactly when a free block follows a multiple of
its length of set bits. -/
theorem pfaAllocate_ne_zero_iff (framesOk : layout.FramesOk)
    (positive : 1 ≤ numPageFrames) (numSmall : numPageFrames < 4294967296)
    (machine : Machine) :
    (pfaAllocate layout numPageFrames machine).1 ≠ 0 ↔
      ∃ first, FreeBlock layout machine numPageFrames first ∧
        setBefore machine.bits first % numPageFrames = 0 := by
  have scan := scanWords_exact layout.mmap machine.bits positive numSmall
    (bitmapCells_le framesOk)
    (⟨(Nat.zero_mod _).symm, fun impossible => absurd rfl impossible⟩ :
      Counting machine.bits numPageFrames (32 * 0) 0 0)
  cases outcome : scanWords layout.mmap numPageFrames machine.bits
      (divCeil layout.len 32) 0 0 0 with
  | none =>
      rw [outcome] at scan
      have failed : (pfaAllocate layout numPageFrames machine).1 = 0 := by
        simp only [pfaAllocate, outcome]
      constructor
      · exact fun success => absurd failed success
      · rintro ⟨first, block, grid⟩
        have below := block.below
        have total := setBefore_add block.set
        have inWords : first + numPageFrames ≤
            32 * (0 + divCeil layout.len 32) := by
          rw [divCeil, sub32_of_le (by omega)]
          omega
        have tested : Tested machine.bits numPageFrames
            (first + numPageFrames) := by
          refine ⟨by omega, ?_⟩
          rw [total, Nat.add_mod_right]
          exact grid
        have tooWide := scan (first + numPageFrames) (by omega) inWords tested
        rw [Nat.add_sub_cancel, block.fits framesOk positive] at tooWide
        cases tooWide
  | some first =>
      rw [outcome] at scan
      obtain ⟨inWords, tested, fits⟩ := scan
      rw [Nat.zero_add] at inWords
      have accepted := scanWords_sound layout.mmap machine.bits numSmall
        (bitmapCells_le framesOk) (by omega) (Or.inl rfl) outcome
      obtain ⟨region, member, frame, lower, upper, numbered⟩ :=
        fitsInOneMmapEntry_sound framesOk.unordered inWords fits
      have address : ∀ step, step < numPageFrames →
          paddrForIdx layout.mmap (first + step) = fourKb * (frame + step) :=
        fun step within =>
          paddrForIdx_eq framesOk.unordered (numbered step within)
      have bounds := framesOk.unordered.frame_bounds
        (List.mem_of_getElem? (numbered 0 positive))
      have success : (pfaAllocate layout numPageFrames machine).1 ≠ 0 := by
        simp only [pfaAllocate, outcome]
        rw [show first = first + 0 from rfl, address 0 positive]
        simp only [fourKb]
        omega
      refine iff_of_true success ⟨first, ⟨?_, accepted.set, ?_⟩, ?_⟩
      · obtain ⟨lastInRange, _⟩ := List.getElem?_eq_some_iff.mp
          (numbered (numPageFrames - 1) (by omega))
        rw [framesOk.unordered.frames_length] at lastInRange
        omega
      · refine ⟨region, member, ?_⟩
        intro index indexLower indexUpper
        obtain ⟨step, rfl⟩ := Nat.exists_eq_add_of_le indexLower
        rw [address step (by omega), MemoryMap.Contains]
        simp only [fourKb] at *
        omega
      · have grid := tested.2
        rwa [setBefore_add accepted.set, Nat.add_mod_right] at grid

/-- `pfa_allocate` finds a block whenever one exists, exactly when one of the
blocks that exist follows a multiple of its length of set bits. -/
theorem pfa_allocate_finds_block_iff (framesOk : layout.FramesOk)
    (positive : 1 ≤ numPageFrames) (numSmall : numPageFrames < 4294967296)
    (machine : Machine) :
    ((∃ first, FreeBlock layout machine numPageFrames first) →
        (pfaAllocate layout numPageFrames machine).1 ≠ 0) ↔
      ((∃ first, FreeBlock layout machine numPageFrames first) →
        ∃ first, FreeBlock layout machine numPageFrames first ∧
          setBefore machine.bits first % numPageFrames = 0) := by
  rw [pfaAllocate_ne_zero_iff framesOk positive numSmall machine]

end Completeness

theorem pfa_allocate_finds_block_iff_twoFrames :
    FreeBlock twoFrameLayout blankMachine 2 0 ∧
      (pfaAllocate twoFrameLayout 2 blankMachine).1 ≠ 0 := by
  have block : FreeBlock twoFrameLayout blankMachine 2 0 := by
    refine ⟨by decide, ?_, ⟨0x100000, 0x2000⟩, by decide, ?_⟩
    · intro index _ upper
      have cases_ : index = 0 ∨ index = 1 := by omega
      rcases cases_ with rfl | rfl <;> decide
    · intro index _ upper
      have cases_ : index = 0 ∨ index = 1 := by omega
      rcases cases_ with rfl | rfl <;>
        exact ⟨by decide +kernel, by decide +kernel⟩
  exact ⟨block, (pfa_allocate_finds_block_iff twoFrameLayout_framesOk
    (by decide) (by decide) blankMachine).mpr
    (fun exists_ => ⟨0, block, by decide⟩) ⟨0, block⟩⟩

/-- One frame at 1 MiB and two at 2 MiB. -/
def splitLayout : Layout :=
  { kernelPdt := 1
    kernelPt := 2
    mmap := [⟨0x100000, 0x1000⟩, ⟨0x200000, 0x2000⟩]
    start := 0xC0003000
    len := 3 }

/-- All three frames free. -/
def threeFree : Machine :=
  { blankMachine with bits := fun _ => 0xE0000000#32 }

theorem splitLayout_framesOk : splitLayout.FramesOk where
  map :=
    { region := by
        intro entry member
        have cases_ : entry = ⟨0x100000, 0x1000⟩ ∨
            entry = ⟨0x200000, 0x2000⟩ := by
          simpa [splitLayout] using member
        rcases cases_ with rfl | rfl
        · exact ⟨by decide, by decide, by decide⟩
        · exact ⟨by decide, by decide, by decide⟩
      ascending := by simp [splitLayout]
      disjoint := by
        simp only [splitLayout, List.pairwise_cons, List.mem_singleton,
          forall_eq, List.not_mem_nil, false_implies, implies_true,
          List.Pairwise.nil, and_true, MemoryMap.Contains]
        omega }
  aboveOneMb := by decide
  total := by decide

/-- The two frames of the second region are free, but the scan counts the one
frame of the first region with them. -/
theorem pfa_allocate_misses_block :
    splitLayout.FramesOk ∧ FreeBlock splitLayout threeFree 2 1 ∧
      (pfaAllocate splitLayout 2 threeFree).1 = 0 := by
  refine ⟨splitLayout_framesOk, ⟨by decide, ?_, ⟨0x200000, 0x2000⟩,
    by decide, ?_⟩, by decide +kernel⟩
  · intro index lower upper
    have cases_ : index = 1 ∨ index = 2 := by omega
    rcases cases_ with rfl | rfl <;> decide
  · intro index lower upper
    have cases_ : index = 1 ∨ index = 2 := by omega
    rcases cases_ with rfl | rfl <;>
      exact ⟨by decide +kernel, by decide +kernel⟩

end Newbos
