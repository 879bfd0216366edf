import Newbos.Heap.Kmalloc
import Newbos.Library.Ring

/-!
# The free-list invariant

The free list is a ring in address order that holds the static header `base`.
Free blocks and live blocks are disjoint and tile the acquired ranges, and no
free block ends where its successor begins.
-/

namespace Newbos

/-- The virtual range of the kernel image, which holds `base` somewhere after
its first section. -/
structure KernelImage where
  start : Nat
  stop : Nat
  base : Nat
  startBeforeBase : start < base
  baseInside : base + headerSize ≤ stop
  below : stop ≤ 4294967296

/-- First address after a range. -/
def HeapRange.stop (range : HeapRange) : Nat :=
  range.vaddr + fourKb * range.pages

/-- What the paging code promises about one acquired range. -/
structure RangeOk (image : KernelImage) (range : HeapRange) : Prop where
  aligned : range.vaddr % fourKb = 0
  below : range.stop ≤ 4294967296
  outsideImage : range.stop ≤ image.start ∨ image.stop ≤ range.vaddr

/-- All acquired ranges are page-aligned and disjoint from each other and
from the kernel image. -/
structure RangesOk (image : KernelImage) (ranges : List HeapRange) :
    Prop where
  each : ∀ range ∈ ranges, RangeOk image range
  disjoint : ranges.Pairwise fun earlier later =>
    earlier.stop ≤ later.vaddr ∨ later.stop ≤ earlier.vaddr

theorem RangesOk.of_append {image : KernelImage}
    {earlier later : List HeapRange}
    (rangesOk : RangesOk image (earlier ++ later)) :
    RangesOk image earlier where
  each := fun range member =>
    rangesOk.each range (List.mem_append_left _ member)
  disjoint := (List.pairwise_append.mp rangesOk.disjoint).1

/-- First address after the block whose header is at `address`. -/
def blockEnd (mem : Nat → Header) (address : Nat) : Nat :=
  address + headerSize * (mem address).size

/-- An address belongs to an acquired range. -/
def InRanges (ranges : List HeapRange) (address : Nat) : Prop :=
  ∃ range ∈ ranges, range.vaddr ≤ address ∧ address < range.stop

/-- The free blocks other than `base`, and the live blocks. -/
def IsBlock (base : Nat) (free : Finset Nat) (live : List Nat)
    (address : Nat) : Prop :=
  address ∈ free ∧ address ≠ base ∨ address ∈ live

/-- Ring structure, disjointness and exact coverage. -/
structure HeapCore (image : KernelImage) (mem : Nat → Header)
    (ranges : List HeapRange) (free : Finset Nat) (live : List Nat) :
    Prop where
  ring : RingSucc free fun address => (mem address).next
  baseFree : image.base ∈ free
  baseSize : (mem image.base).size = 0
  sizePos : ∀ address, IsBlock image.base free live address →
    0 < (mem address).size
  liveNodup : live.Nodup
  liveNotFree : ∀ address ∈ live, address ∉ free
  disjoint : ∀ first second, IsBlock image.base free live first →
    IsBlock image.base free live second → first ≠ second →
    blockEnd mem first ≤ second ∨ blockEnd mem second ≤ first
  cover : ∀ address,
    (∃ block, IsBlock image.base free live block ∧ block ≤ address ∧
        address < blockEnd mem block) ↔ InRanges ranges address
  rangesPos : ∀ range ∈ ranges, 0 < range.vaddr ∧ 0 < range.pages

/-- No free block ends where its successor begins. -/
def Coalesced (base : Nat) (mem : Nat → Header) (free : Finset Nat) : Prop :=
  ∀ address ∈ free, address ≠ base →
    blockEnd mem address ≠ (mem address).next

/-- The invariant of an initialised heap whose live blocks have `least` units
or more. -/
structure HeapInv (least : Nat) (image : KernelImage) (heap : Heap)
    (free : Finset Nat) (live : List Nat) : Prop where
  core : HeapCore image heap.mem heap.ranges free live
  freepFree : heap.freep ∈ free
  coalesced : Coalesced image.base heap.mem free
  liveLarge : ∀ address ∈ live, least ≤ (heap.mem address).size

theorem HeapInv.mono {least smaller : Nat} {image : KernelImage} {heap : Heap}
    {free : Finset Nat} {live : List Nat}
    (invariant : HeapInv least image heap free live)
    (ordered : smaller ≤ least) : HeapInv smaller image heap free live where
  core := invariant.core
  freepFree := invariant.freepFree
  coalesced := invariant.coalesced
  liveLarge address isLive :=
    ordered.trans (invariant.liveLarge address isLive)

namespace HeapCore

variable {image : KernelImage} {mem : Nat → Header}
  {ranges : List HeapRange} {free : Finset Nat} {live : List Nat}

/-- A block lies above address 0, below 4 GiB, and on one side of the kernel
image. -/
theorem block_bounds (core : HeapCore image mem ranges free live)
    (rangesOk : RangesOk image ranges) {block : Nat}
    (isBlock : IsBlock image.base free live block) :
    0 < block ∧ blockEnd mem block ≤ 4294967296 ∧
      (blockEnd mem block ≤ image.start ∨ image.stop ≤ block) := by
  have positive := core.sizePos block isBlock
  have nonempty : block < blockEnd mem block := by
    simp only [blockEnd, headerSize]
    omega
  have inside : ∀ address, block ≤ address → address < blockEnd mem block →
      ∃ range, RangeOk image range ∧ 0 < range.vaddr ∧
        range.vaddr ≤ address ∧ address < range.stop := by
    intro address lower upper
    obtain ⟨range, member, contains⟩ :=
      (core.cover address).mp ⟨block, isBlock, lower, upper⟩
    exact ⟨range, rangesOk.each range member,
      (core.rangesPos range member).1, contains⟩
  obtain ⟨first, firstOk, firstPos, firstLower, _⟩ :=
    inside block (Nat.le_refl _) nonempty
  obtain ⟨last, lastOk, _, _, lastUpper⟩ :=
    inside (blockEnd mem block - 1) (by omega) (by omega)
  have lastBelow := lastOk.below
  refine ⟨by omega, by omega, ?_⟩
  -- An image address inside the block would be in a range.
  have imageNonempty := image.startBeforeBase
  have imageEnd := image.baseInside
  by_contra straddles
  have overlap : ∃ address, block ≤ address ∧
      address < blockEnd mem block ∧ image.start ≤ address ∧
      address < image.stop := by
    refine ⟨max block image.start, ?_⟩
    omega
  obtain ⟨address, lower, upper, imageLower, imageUpper⟩ := overlap
  obtain ⟨range, rangeOk, _, rangeLower, rangeUpper⟩ :=
    inside address lower upper
  have outside := rangeOk.outsideImage
  omega

theorem block_ne_base (core : HeapCore image mem ranges free live)
    (rangesOk : RangesOk image ranges) {block : Nat}
    (isBlock : IsBlock image.base free live block) : block ≠ image.base := by
  have bounds := core.block_bounds rangesOk isBlock
  have positive := core.sizePos block isBlock
  have before := image.startBeforeBase
  have inside := image.baseInside
  simp only [blockEnd, headerSize] at *
  omega

theorem free_bounds (core : HeapCore image mem ranges free live)
    (rangesOk : RangesOk image ranges) {node : Nat} (member : node ∈ free) :
    0 < node ∧ node < 4294967296 := by
  by_cases isBase : node = image.base
  · have before := image.startBeforeBase
    have inside := image.baseInside
    have below := image.below
    simp only [headerSize] at *
    omega
  · have isBlock : IsBlock image.base free live node :=
      Or.inl ⟨member, isBase⟩
    have bounds := core.block_bounds rangesOk isBlock
    have positive := core.sizePos node isBlock
    simp only [blockEnd, headerSize] at *
    omega

theorem blockEnd_le_of_lt (core : HeapCore image mem ranges free live)
    (rangesOk : RangesOk image ranges) {block node : Nat}
    (isBlock : IsBlock image.base free live block) (member : node ∈ free)
    (above : block < node) : blockEnd mem block ≤ node := by
  have bounds := core.block_bounds rangesOk isBlock
  have before := image.startBeforeBase
  have inside := image.baseInside
  by_cases isBase : node = image.base
  · simp only [headerSize] at *
    omega
  · have nodeBlock : IsBlock image.base free live node :=
      Or.inl ⟨member, isBase⟩
    have nodePos := core.sizePos node nodeBlock
    rcases core.disjoint block node isBlock nodeBlock (by omega) with
      ordered | reversed
    · exact ordered
    · simp only [blockEnd, headerSize] at *
      omega

/-- Moving blocks between the free list and the live blocks keeps everything
that depends on sizes only. -/
theorem relink (core : HeapCore image mem ranges free live)
    {after : Nat → Header} {freeAfter : Finset Nat} {liveAfter : List Nat}
    (sizes : ∀ address, (after address).size = (mem address).size)
    (ring : RingSucc freeAfter fun address => (after address).next)
    (baseFree : image.base ∈ freeAfter)
    (blocks : ∀ address, IsBlock image.base freeAfter liveAfter address ↔
      IsBlock image.base free live address)
    (liveNodup : liveAfter.Nodup)
    (liveNotFree : ∀ address ∈ liveAfter, address ∉ freeAfter) :
    HeapCore image after ranges freeAfter liveAfter where
  ring := ring
  baseFree := baseFree
  baseSize := by rw [sizes, core.baseSize]
  sizePos := fun address isBlock => by
    rw [sizes]
    exact core.sizePos address ((blocks address).mp isBlock)
  liveNodup := liveNodup
  liveNotFree := liveNotFree
  disjoint := fun first second firstBlock secondBlock different => by
    simp only [blockEnd, sizes]
    exact core.disjoint first second ((blocks first).mp firstBlock)
      ((blocks second).mp secondBlock) different
  cover := fun address => by
    simp only [blockEnd, sizes, blocks]
    exact core.cover address
  rangesPos := core.rangesPos

/-- Link a live block into its gap of the free list. -/
theorem release (core : HeapCore image mem ranges free live)
    (rangesOk : RangesOk image ranges) {p bp : Nat} (pFree : p ∈ free)
    (bpLive : bp ∈ live)
    (gap : InGap (fun address => (mem address).next) p bp) :
    HeapCore image (setNext (setNext mem bp (mem p).next) p bp) ranges
      (insert bp free) (live.erase bp) := by
  have bpFresh := core.liveNotFree bp bpLive
  have bpNotBase := core.block_ne_base rangesOk (Or.inr bpLive)
  have different : p ≠ bp := fun equality => bpFresh (equality ▸ pFree)
  refine core.relink ?_ ?_ ?_ ?_ (core.liveNodup.erase bp) ?_
  · intro address
    simp only [setNext, Store.set]
    split_ifs <;> simp_all
  · refine (core.ring.insert pFree bpFresh gap).congr ?_
    intro address _
    simp only [setNext, Store.set, Function.update_apply]
    split_ifs <;> simp_all
  · exact Finset.mem_insert_of_mem core.baseFree
  · intro address
    simp only [IsBlock, Finset.mem_insert, core.liveNodup.mem_erase_iff]
    constructor
    · rintro (⟨rfl | isFree, notBase⟩ | ⟨_, isLive⟩)
      · exact Or.inr bpLive
      · exact Or.inl ⟨isFree, notBase⟩
      · exact Or.inr isLive
    · rintro (⟨isFree, notBase⟩ | isLive)
      · exact Or.inl ⟨Or.inr isFree, notBase⟩
      · by_cases same : address = bp
        · exact Or.inl ⟨Or.inl same, same ▸ bpNotBase⟩
        · exact Or.inr ⟨same, isLive⟩
  · intro address isLive
    obtain ⟨notBp, older⟩ := core.liveNodup.mem_erase_iff.mp isLive
    rw [Finset.mem_insert]
    rintro (same | isFree)
    · exact notBp same
    · exact core.liveNotFree address older isFree

theorem takeWhole (core : HeapCore image mem ranges free live)
    {prevp : Nat} (prevFree : prevp ∈ free)
    (notBase : (mem prevp).next ≠ image.base) :
    HeapCore image (setNext mem prevp (mem (mem prevp).next).next) ranges
      (free.erase (mem prevp).next) ((mem prevp).next :: live) := by
  have taken : (mem prevp).next ∈ free := core.ring.mem prevp prevFree
  have notLive : (mem prevp).next ∉ live := fun isLive =>
    core.liveNotFree _ isLive taken
  -- A ring of one node is `base` alone, which is never taken.
  have different : (mem prevp).next ≠ prevp := by
    intro same
    have steps := core.ring.step prevp prevFree
    have baseBounds := core.baseFree
    simp only [same, lt_irrefl, false_and, false_or] at steps
    have baseSame := steps.2 image.base baseBounds
    exact notBase (by omega)
  refine core.relink ?_ ?_ ?_ ?_ (List.nodup_cons.mpr
    ⟨notLive, core.liveNodup⟩) ?_
  · intro address
    simp only [setNext, Store.set]
    split_ifs <;> simp_all
  · refine (core.ring.erase prevFree different).congr ?_
    intro address _
    simp only [setNext, Store.set, Function.update_apply]
    split_ifs <;> simp_all
  · exact Finset.mem_erase.mpr ⟨notBase.symm, core.baseFree⟩
  · intro address
    simp only [IsBlock, Finset.mem_erase, List.mem_cons]
    constructor
    · rintro (⟨⟨_, isFree⟩, addressNotBase⟩ | rfl | isLive)
      · exact Or.inl ⟨isFree, addressNotBase⟩
      · exact Or.inl ⟨taken, notBase⟩
      · exact Or.inr isLive
    · rintro (⟨isFree, addressNotBase⟩ | isLive)
      · by_cases same : address = (mem prevp).next
        · exact Or.inr (Or.inl same)
        · exact Or.inl ⟨⟨same, isFree⟩, addressNotBase⟩
      · exact Or.inr (Or.inr isLive)
  · intro address isLive
    rw [Finset.mem_erase]
    rintro ⟨notTaken, isFree⟩
    rcases List.mem_cons.mp isLive with same | older
    · exact notTaken same
    · exact core.liveNotFree address older isFree

section Merging

/-- The header of `lower` after it has absorbed `upper`. -/
abbrev merged (mem : Nat → Header) (lower upper : Nat) : Nat → Header :=
  Store.set mem lower
    ⟨(mem upper).next, (mem lower).size + (mem upper).size⟩

variable {lower upper : Nat}

theorem blockEnd_merged (adjacent : blockEnd mem lower = upper) :
    blockEnd (merged mem lower upper) lower = blockEnd mem upper := by
  simp only [blockEnd, Store.set_same, headerSize] at *
  omega

theorem blockEnd_merged_other {other : Nat} (notLower : other ≠ lower) :
    blockEnd (merged mem lower upper) other = blockEnd mem other := by
  simp only [blockEnd, Store.set_other _ _ notLower]

variable (core : HeapCore image mem ranges free live)
include core

theorem isBlock_erase (upperFree : upper ∈ free) {other : Nat}
    (isBlock : IsBlock image.base (free.erase upper) live other) :
    IsBlock image.base free live other ∧ other ≠ upper := by
  rcases isBlock with ⟨isFree, notBase⟩ | isLive
  · obtain ⟨notUpper, wasFree⟩ := Finset.mem_erase.mp isFree
    exact ⟨Or.inl ⟨wasFree, notBase⟩, notUpper⟩
  · refine ⟨Or.inr isLive, ?_⟩
    rintro rfl
    exact core.liveNotFree other isLive upperFree

variable (lowerBlock : IsBlock image.base free live lower)
  (upperBlock : IsBlock image.base free live upper)
  (adjacent : blockEnd mem lower = upper)
include lowerBlock upperBlock adjacent

theorem merged_disjoint (upperFree : upper ∈ free) {first second : Nat}
    (firstBlock : IsBlock image.base (free.erase upper) live first)
    (secondBlock : IsBlock image.base (free.erase upper) live second)
    (distinct : first ≠ second) :
    blockEnd (merged mem lower upper) first ≤ second ∨
      blockEnd (merged mem lower upper) second ≤ first := by
  obtain ⟨firstOld, firstNotUpper⟩ := core.isBlock_erase upperFree firstBlock
  obtain ⟨secondOld, secondNotUpper⟩ :=
    core.isBlock_erase upperFree secondBlock
  have plain := core.disjoint first second firstOld secondOld distinct
  have firstUpper := core.disjoint first upper firstOld upperBlock
    firstNotUpper
  have secondUpper := core.disjoint second upper secondOld upperBlock
    secondNotUpper
  have firstPos := core.sizePos first firstOld
  have secondPos := core.sizePos second secondOld
  have lowerPos := core.sizePos lower lowerBlock
  by_cases firstLower : first = lower
  · subst firstLower
    rw [blockEnd_merged adjacent, blockEnd_merged_other distinct.symm]
    simp only [blockEnd, headerSize] at *
    omega
  · by_cases secondLower : second = lower
    · subst secondLower
      rw [blockEnd_merged adjacent, blockEnd_merged_other firstLower]
      simp only [blockEnd, headerSize] at *
      omega
    · rw [blockEnd_merged_other firstLower,
        blockEnd_merged_other secondLower]
      exact plain

theorem merged_cover (lowerAfter :
      IsBlock image.base (free.erase upper) live lower)
    (upperFree : upper ∈ free) (address : Nat) :
    (∃ block, IsBlock image.base (free.erase upper) live block ∧
        block ≤ address ∧
        address < blockEnd (merged mem lower upper) block) ↔
      InRanges ranges address := by
  have upperPos := core.sizePos upper upperBlock
  rw [← core.cover address]
  constructor
  · rintro ⟨block, isBlock, from_, to_⟩
    have wasBlock := (core.isBlock_erase upperFree isBlock).1
    by_cases isLower : block = lower
    · subst isLower
      rw [blockEnd_merged adjacent] at to_
      by_cases beforeUpper : address < upper
      · exact ⟨block, lowerBlock, from_, by omega⟩
      · exact ⟨upper, upperBlock, by omega, to_⟩
    · rw [blockEnd_merged_other isLower] at to_
      exact ⟨block, wasBlock, from_, to_⟩
  · rintro ⟨block, isBlock, from_, to_⟩
    by_cases isUpper : block = upper
    · subst isUpper
      refine ⟨lower, lowerAfter, ?_, ?_⟩
      · simp only [blockEnd, headerSize] at adjacent
        omega
      · rw [blockEnd_merged adjacent]
        exact to_
    · by_cases isLower : block = lower
      · subst isLower
        refine ⟨block, lowerAfter, from_, ?_⟩
        rw [blockEnd_merged adjacent]
        simp only [blockEnd, headerSize] at *
        omega
      · refine ⟨block, ?_, from_, ?_⟩
        · rcases isBlock with ⟨isFree, notBase⟩ | isLive
          · exact Or.inl ⟨Finset.mem_erase.mpr ⟨isUpper, isFree⟩, notBase⟩
          · exact Or.inr isLive
        · rw [blockEnd_merged_other isLower]
          exact to_

end Merging

/-- Absorb the successor of a free block that begins where it ends. -/
theorem merge (core : HeapCore image mem ranges free live)
    {lower upper : Nat} (lowerFree : lower ∈ free)
    (successor : (mem lower).next = upper) (lowerNotBase : lower ≠ image.base)
    (upperNotBase : upper ≠ image.base)
    (adjacent : blockEnd mem lower = upper) :
    HeapCore image
      (Store.set mem lower
        ⟨(mem upper).next, (mem lower).size + (mem upper).size⟩)
      ranges (free.erase upper) live := by
  have upperFree : upper ∈ free := by
    rw [← successor]
    exact core.ring.mem lower lowerFree
  have lowerBlock : IsBlock image.base free live lower :=
    Or.inl ⟨lowerFree, lowerNotBase⟩
  have upperBlock : IsBlock image.base free live upper :=
    Or.inl ⟨upperFree, upperNotBase⟩
  have lowerPos := core.sizePos lower lowerBlock
  have different : upper ≠ lower := by
    simp only [blockEnd, headerSize] at adjacent
    omega
  have lowerAfter : IsBlock image.base (free.erase upper) live lower :=
    Or.inl ⟨Finset.mem_erase.mpr ⟨different.symm, lowerFree⟩, lowerNotBase⟩
  constructor
  · have lowerNext : (mem lower).next ≠ lower := by
      rw [successor]
      exact different
    have erased := core.ring.erase lowerFree lowerNext
    rw [successor] at erased
    refine erased.congr ?_
    intro address _
    simp only [Store.set, Function.update_apply]
    split_ifs <;> rfl
  · exact Finset.mem_erase.mpr ⟨upperNotBase.symm, core.baseFree⟩
  · rw [Store.set_other _ _ lowerNotBase.symm]
    exact core.baseSize
  · intro address isBlock
    by_cases isLower : address = lower
    · subst isLower
      rw [Store.set_same]
      simp only
      omega
    · rw [Store.set_other _ _ isLower]
      exact core.sizePos address (core.isBlock_erase upperFree isBlock).1
  · exact core.liveNodup
  · intro address isLive isFree
    exact core.liveNotFree address isLive (Finset.mem_of_mem_erase isFree)
  · intro first second firstBlock secondBlock distinct
    exact core.merged_disjoint lowerBlock upperBlock adjacent upperFree
      firstBlock secondBlock distinct
  · exact core.merged_cover lowerBlock upperBlock adjacent lowerAfter
      upperFree
  · exact core.rangesPos

theorem addLive (core : HeapCore image mem ranges free live)
    {after : Nat → Header} {rangesAfter : List HeapRange} {block : Nat}
    (nexts : ∀ address, (after address).next = (mem address).next)
    (baseSize : (after image.base).size = 0)
    (blockNew : ¬IsBlock image.base free live block)
    (blockNotBase : block ≠ image.base)
    (blockPos : 0 < (after block).size)
    (sizePos : ∀ address, IsBlock image.base free live address →
      0 < (after address).size)
    (separate : ∀ address, IsBlock image.base free live address →
      blockEnd after address ≤ block ∨ blockEnd after block ≤ address)
    (disjoint : ∀ first second, IsBlock image.base free live first →
      IsBlock image.base free live second → first ≠ second →
      blockEnd after first ≤ second ∨ blockEnd after second ≤ first)
    (cover : ∀ address,
      ((∃ older, IsBlock image.base free live older ∧ older ≤ address ∧
          address < blockEnd after older) ∨
        block ≤ address ∧ address < blockEnd after block) ↔
      InRanges rangesAfter address)
    (rangesPos : ∀ range ∈ rangesAfter, 0 < range.vaddr ∧ 0 < range.pages) :
    HeapCore image after rangesAfter free (block :: live) := by
  have split : ∀ address, IsBlock image.base free (block :: live) address ↔
      address = block ∨ IsBlock image.base free live address := by
    intro address
    simp only [IsBlock, List.mem_cons]
    tauto
  constructor
  · exact core.ring.congr fun address _ => nexts address
  · exact core.baseFree
  · exact baseSize
  · intro address isBlock
    rcases (split address).mp isBlock with rfl | older
    · exact blockPos
    · exact sizePos address older
  · exact List.nodup_cons.mpr
      ⟨fun isLive => blockNew (Or.inr isLive), core.liveNodup⟩
  · intro address isLive isFree
    rcases List.mem_cons.mp isLive with rfl | older
    · exact blockNew (Or.inl ⟨isFree, blockNotBase⟩)
    · exact core.liveNotFree address older isFree
  · intro first second firstBlock secondBlock different
    rcases (split first).mp firstBlock with rfl | firstOld
    · rcases (split second).mp secondBlock with rfl | secondOld
      · exact absurd rfl different
      · exact (separate second secondOld).symm
    · rcases (split second).mp secondBlock with rfl | secondOld
      · exact separate first firstOld
      · exact disjoint first second firstOld secondOld different
  · intro address
    rw [← cover address]
    constructor
    · rintro ⟨older, isBlock, lower, upper⟩
      rcases (split older).mp isBlock with rfl | wasBlock
      · exact Or.inr ⟨lower, upper⟩
      · exact Or.inl ⟨older, wasBlock, lower, upper⟩
    · rintro (⟨older, wasBlock, lower, upper⟩ | ⟨lower, upper⟩)
      · exact ⟨older, (split older).mpr (Or.inr wasBlock), lower, upper⟩
      · exact ⟨block, (split block).mpr (Or.inl rfl), lower, upper⟩
  · exact rangesPos

/-- The ends of the blocks when the upper part of a block is cut off. -/
structure CutsTail (mem after : Nat → Header) (p tail : Nat) : Prop where
  inside : p < tail ∧ tail < blockEnd mem p
  frontEnd : blockEnd after p = tail
  tailEnd : blockEnd after tail = blockEnd mem p
  otherEnd : ∀ address, address ≠ p → address ≠ tail →
    blockEnd after address = blockEnd mem address

theorem cutsTail {p nunits tail : Nat} (positive : 0 < nunits)
    (smaller : nunits < (mem p).size)
    (tailEq : p + headerSize * ((mem p).size - nunits) = tail) :
    CutsTail mem
      (setSize (setSize mem p ((mem p).size - nunits)) tail nunits) p
      tail := by
  have inside : p < tail ∧ tail < blockEnd mem p ∧
      tail + headerSize * nunits = blockEnd mem p := by
    simp only [blockEnd, headerSize] at *
    omega
  have notTail : p ≠ tail := Nat.ne_of_lt inside.1
  refine ⟨⟨inside.1, inside.2.1⟩, ?_, ?_, ?_⟩
  · simp only [blockEnd, setSize, Store.set_other _ _ notTail,
      Store.set_same]
    exact tailEq
  · simp only [blockEnd, setSize, Store.set_same] at *
    exact inside.2.2
  · intro address notP notTail
    simp only [blockEnd, setSize, Store.set_other _ _ notTail,
      Store.set_other _ _ notP]

section Cutting

variable {after : Nat → Header} {p tail : Nat}
  (cuts : CutsTail mem after p tail)
  (core : HeapCore image mem ranges free live)
  (pBlock : IsBlock image.base free live p)
  (oldNotTail : ∀ address, IsBlock image.base free live address →
    address ≠ tail)
include cuts core pBlock oldNotTail

theorem CutsTail.disjoint {first second : Nat}
    (firstBlock : IsBlock image.base free live first)
    (secondBlock : IsBlock image.base free live second)
    (different : first ≠ second) :
    blockEnd after first ≤ second ∨ blockEnd after second ≤ first := by
  have inside := cuts.inside
  have firstNotTail := oldNotTail first firstBlock
  have secondNotTail := oldNotTail second secondBlock
  have plain := core.disjoint first second firstBlock secondBlock different
  by_cases firstP : first = p
  · subst firstP
    rw [cuts.frontEnd, cuts.otherEnd second different.symm secondNotTail]
    omega
  · by_cases secondP : second = p
    · subst secondP
      rw [cuts.frontEnd, cuts.otherEnd first firstP firstNotTail]
      omega
    · rw [cuts.otherEnd first firstP firstNotTail,
        cuts.otherEnd second secondP secondNotTail]
      exact plain

theorem CutsTail.cover (address : Nat) :
    ((∃ block, IsBlock image.base free live block ∧ block ≤ address ∧
          address < blockEnd after block) ∨
        tail ≤ address ∧ address < blockEnd after tail) ↔
      InRanges ranges address := by
  have inside := cuts.inside
  rw [← core.cover address, cuts.tailEnd]
  constructor
  · rintro (⟨older, isBlock, lower, upper⟩ | ⟨lower, upper⟩)
    · by_cases same : older = p
      · subst same
        rw [cuts.frontEnd] at upper
        exact ⟨older, isBlock, lower, by omega⟩
      · rw [cuts.otherEnd older same (oldNotTail older isBlock)] at upper
        exact ⟨older, isBlock, lower, upper⟩
    · exact ⟨p, pBlock, by omega, upper⟩
  · rintro ⟨older, isBlock, lower, upper⟩
    by_cases same : older = p
    · subst same
      by_cases inTail : tail ≤ address
      · exact Or.inr ⟨inTail, upper⟩
      · exact Or.inl ⟨older, isBlock, lower, by rw [cuts.frontEnd]; omega⟩
    · refine Or.inl ⟨older, isBlock, lower, ?_⟩
      rw [cuts.otherEnd older same (oldNotTail older isBlock)]
      exact upper

end Cutting

theorem takeTail (core : HeapCore image mem ranges free live)
    (rangesOk : RangesOk image ranges) {p nunits : Nat} (pFree : p ∈ free)
    (pNotBase : p ≠ image.base) (positive : 0 < nunits)
    (smaller : nunits < (mem p).size) :
    HeapCore image
      (setSize (setSize mem p ((mem p).size - nunits))
        (p + headerSize * ((mem p).size - nunits)) nunits)
      ranges free ((p + headerSize * ((mem p).size - nunits)) :: live) := by
  have pBlock : IsBlock image.base free live p := Or.inl ⟨pFree, pNotBase⟩
  have pBounds := core.block_bounds rangesOk pBlock
  have before := image.startBeforeBase
  have imageEnd := image.baseInside
  generalize tailEq : p + headerSize * ((mem p).size - nunits) = tail
  have cuts := cutsTail positive smaller tailEq
  have inside := cuts.inside
  have tailNotBase : tail ≠ image.base := by
    simp only [headerSize] at *
    omega
  have tailNew : ¬IsBlock image.base free live tail := by
    intro isBlock
    have tailPos := core.sizePos tail isBlock
    have apart := core.disjoint p tail pBlock isBlock (by omega)
    simp only [blockEnd, headerSize] at *
    omega
  have oldNotTail : ∀ address, IsBlock image.base free live address →
      address ≠ tail := by
    rintro address isBlock rfl
    exact tailNew isBlock
  refine core.addLive ?_ ?_ tailNew tailNotBase ?_ ?_ ?_ ?_ ?_
    core.rangesPos
  · intro address
    simp only [setSize, Store.set]
    split_ifs <;> simp_all
  · simp only [setSize, Store.set_other _ _ tailNotBase.symm,
      Store.set_other _ _ pNotBase.symm]
    exact core.baseSize
  · simp only [setSize, Store.set_same]
    exact positive
  · intro address isBlock
    have notTail := oldNotTail address isBlock
    by_cases same : address = p
    · subst same
      simp only [setSize, Store.set_other _ _ notTail, Store.set_same]
      omega
    · simp only [setSize, Store.set_other _ _ notTail,
        Store.set_other _ _ same]
      exact core.sizePos address isBlock
  · intro address isBlock
    by_cases same : address = p
    · subst same
      exact Or.inl (Nat.le_of_eq cuts.frontEnd)
    · have notTail := oldNotTail address isBlock
      have apart := core.disjoint address p isBlock pBlock same
      rw [cuts.otherEnd address same notTail, cuts.tailEnd]
      omega
  · intro first second firstBlock secondBlock different
    exact cuts.disjoint core pBlock oldNotTail firstBlock secondBlock
      different
  · exact cuts.cover core pBlock oldNotTail

/-- A new range starts out as one live block. -/
theorem grow (core : HeapCore image mem ranges free live) {range : HeapRange}
    (rangesOk : RangesOk image (ranges ++ [range]))
    (vaddrPos : 0 < range.vaddr) (pagesPos : 0 < range.pages) :
    HeapCore image (setSize mem range.vaddr (512 * range.pages))
      (ranges ++ [range]) free (range.vaddr :: live) := by
  have rangeOk := rangesOk.each range (by simp)
  have outside := rangeOk.outsideImage
  have before := image.startBeforeBase
  have inside := image.baseInside
  have notBase : range.vaddr ≠ image.base := by
    simp only [HeapRange.stop, headerSize] at *
    omega
  have earlierApart : ∀ earlier ∈ ranges,
      earlier.stop ≤ range.vaddr ∨ range.stop ≤ earlier.vaddr :=
    fun earlier member =>
      (List.pairwise_append.mp rangesOk.disjoint).2.2 earlier member range
        (by simp)
  have oldOutside : ∀ address, IsBlock image.base free live address →
      ∀ position, address ≤ position → position < blockEnd mem address →
        ¬(range.vaddr ≤ position ∧ position < range.stop) := by
    intro address isBlock position lower upper contains
    obtain ⟨earlier, member, from_, to_⟩ :=
      (core.cover position).mp ⟨address, isBlock, lower, upper⟩
    have apart := earlierApart earlier member
    omega
  have rangeNonempty : range.vaddr < range.stop := by
    simp only [HeapRange.stop, fourKb]
    omega
  have apart : ∀ address, IsBlock image.base free live address →
      blockEnd mem address ≤ range.vaddr ∨ range.stop ≤ address := by
    intro address isBlock
    have positive := core.sizePos address isBlock
    by_contra overlap
    refine oldOutside address isBlock (max address range.vaddr) ?_ ?_ ?_
    · omega
    · simp only [blockEnd, headerSize] at *
      omega
    · omega
  have new : ¬IsBlock image.base free live range.vaddr := by
    intro isBlock
    have positive := core.sizePos _ isBlock
    have := apart _ isBlock
    simp only [blockEnd, headerSize] at *
    omega
  have endNew : blockEnd (setSize mem range.vaddr (512 * range.pages))
      range.vaddr = range.stop := by
    simp only [blockEnd, setSize, Store.set_same, HeapRange.stop, headerSize,
      fourKb]
    omega
  have endOld : ∀ address, IsBlock image.base free live address →
      blockEnd (setSize mem range.vaddr (512 * range.pages)) address =
        blockEnd mem address := by
    intro address isBlock
    have different : address ≠ range.vaddr := fun same =>
      new (same ▸ isBlock)
    simp only [blockEnd, setSize, Store.set_other _ _ different]
  refine core.addLive ?_ ?_ new notBase ?_ ?_ ?_ ?_ ?_ ?_
  · intro address
    simp only [setSize, Store.set]
    split_ifs <;> simp_all
  · simp only [setSize, Store.set_other _ _ notBase.symm]
    exact core.baseSize
  · simp only [setSize, Store.set_same]
    omega
  · intro address isBlock
    have different : address ≠ range.vaddr := fun same =>
      new (same ▸ isBlock)
    simp only [setSize, Store.set_other _ _ different]
    exact core.sizePos address isBlock
  · intro address isBlock
    rw [endOld address isBlock, endNew]
    exact apart address isBlock
  · intro first second firstBlock secondBlock different
    rw [endOld first firstBlock, endOld second secondBlock]
    exact core.disjoint first second firstBlock secondBlock different
  · intro address
    rw [endNew]
    simp only [InRanges, List.mem_append, List.mem_singleton]
    constructor
    · rintro (⟨older, isBlock, lower, upper⟩ | contains)
      · rw [endOld older isBlock] at upper
        obtain ⟨earlier, member, contains⟩ :=
          (core.cover address).mp ⟨older, isBlock, lower, upper⟩
        exact ⟨earlier, Or.inl member, contains⟩
      · exact ⟨range, Or.inr rfl, contains⟩
    · rintro ⟨found, member | rfl, contains⟩
      · obtain ⟨older, isBlock, lower, upper⟩ :=
          (core.cover address).mpr ⟨found, member, contains⟩
        refine Or.inl ⟨older, isBlock, lower, ?_⟩
        rw [endOld older isBlock]
        exact upper
      · exact Or.inr contains
  · intro found member
    rcases List.mem_append.mp member with earlier | last
    · exact core.rangesPos found earlier
    · rw [List.mem_singleton.mp last]
      exact ⟨vaddrPos, pagesPos⟩

end HeapCore

end Newbos
