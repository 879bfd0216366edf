import Newbos.Heap.Safety
import Newbos.Paging.Beside
import Newbos.Paging.UserSpace
import Newbos.Process.Growth

/-!
# The pages of the heap

The kernel image and the ranges of the heap lie in mapped pages of the kernel
half, and the frames behind the ranges are the kernel's.  `acquire_more_heap`
asks for pages that are not mapped, so what it adds lies beside them, and the
free list stays sound without a promise about the page source.  `kmalloc` works
in no process directory.
-/

namespace Newbos

/-- The pages between two addresses are mapped. -/
def PagesMapped (layout : Layout) (machine : Machine) (start stop : Nat) :
    Prop :=
  ∀ page, start / 4096 ≤ page → 4096 * page < stop →
    ∃ frame, machine.translate layout.kernelPdt (4096 * page) = some frame

/-- The kernel image and the ranges of the heap, in mapped pages of the kernel
half. -/
structure HeapMapped (layout : Layout) (image : KernelImage)
    (ranges : List HeapRange) (machine : Machine) : Prop where
  rangesOk : RangesOk image ranges
  imageHalf : kernelStartVaddr ≤ image.start
  image : PagesMapped layout machine image.start image.stop
  rangeHalf : ∀ range ∈ ranges,
    kernelStartVaddr ≤ range.vaddr ∧ 0 < range.pages
  ranges : ∀ range ∈ ranges,
    PagesMapped layout machine range.vaddr range.stop

/-- The heap with its live blocks, in mapped pages. -/
structure HeapReady (layout : Layout) (image : KernelImage) (kernel : Kernel)
    (live : List Nat) : Prop where
  mapped : HeapMapped layout image kernel.heap.ranges kernel.machine
  tracked : ∃ free,
    HeapTracked image (initFreeList image.base kernel.heap) free live

/-- A range in pages that have just been mapped. -/
structure FreshRange (layout : Layout) (range : HeapRange)
    (machine after : Machine) : Prop where
  positive : 0 < range.pages
  aligned : range.vaddr % 4096 = 0
  kernelHalf : kernelStartVaddr ≤ range.vaddr
  below : range.stop ≤ 4294967296
  unmapped : ∀ page < range.pages,
    machine.translate layout.kernelPdt (range.vaddr + 4096 * page) = none
  mapped : PagesMapped layout after range.vaddr range.stop

/-- The frames behind the heap are the kernel's. -/
def HeapBacked (spaces : Spaces) (heap : Heap) : Prop :=
  ∀ range ∈ heap.ranges, ∀ frame ∈ blockFrames range.paddr range.pages,
    frame ∈ spaces.kernel

/-- The invariant of the address spaces for a kernel. -/
structure KernelSpaces (layout : Layout) (exempt : Entry → Prop)
    (spaces : Spaces) (kernel : Kernel) : Prop where
  inv : SpaceInv layout exempt spaces kernel.machine
  heap : HeapBacked spaces kernel.heap

/-- A step of the kernel. -/
structure KernelEvolves (layout : Layout) (exempt : Entry → Prop)
    (spaces : Spaces) (kernel : Kernel) (later : Spaces) (after : Kernel) :
    Prop where
  evolves : Evolves layout exempt spaces kernel.machine later after.machine
  heap : HeapBacked later after.heap

/-- The heap before the first request, or with its blocks. -/
def HeapBlocks (image : KernelImage) (heap : Heap) (live : List Nat) : Prop :=
  HeapUnused heap live ∨ ∃ free, HeapTracked image heap free live

/-- A sound heap in mapped pages. -/
structure HeapSound (layout : Layout) (image : KernelImage) (kernel : Kernel)
    (live : List Nat) : Prop where
  mapped : HeapMapped layout image kernel.heap.ranges kernel.machine
  blocks : HeapBlocks image kernel.heap live

/-- What a part of the kernel does that works in at most one directory and asks
the heap for blocks: a sound heap stays sound and keeps its live blocks. -/
structure Advances (layout : Layout) (exempt : Entry → Prop) (base pdt : Nat)
    (spaces : Spaces) (kernel : Kernel) (later : Spaces) (after : Kernel) :
    Prop where
  works : WorksIn layout exempt pdt spaces kernel.machine later after.machine
  heap : HeapBacked later after.heap
  sound : ∀ {image live}, image.base = base →
    HeapSound layout image kernel live →
    ∃ laterLive, live <:+ laterLive ∧ HeapSound layout image after laterLive

section Ranges

variable {layout : Layout} {image : KernelImage} {ranges : List HeapRange}
  {range : HeapRange} {machine after : Machine} {start stop : Nat}

theorem Machine.translate_page (machine : Machine) (directory vaddr : Nat) :
    machine.translate directory vaddr =
      machine.translate directory (4096 * (vaddr / 4096)) := by
  have slot : virtualToPdtIdx vaddr =
      virtualToPdtIdx (4096 * (vaddr / 4096)) := by
    simp only [virtualToPdtIdx_eq]
    omega
  have entry : virtualToPtIdx vaddr =
      virtualToPtIdx (4096 * (vaddr / 4096)) := by
    simp only [virtualToPtIdx_eq]
    omega
  simp only [translate, ← slot, ← entry]

theorem PagesMapped.keep (mapped : PagesMapped layout machine start stop)
    (keeps : KeepsPages layout machine after)
    (lower : kernelStartVaddr ≤ start) (below : stop ≤ 4294967296) :
    PagesMapped layout after start stop := by
  intro page first last
  obtain ⟨frame, walk⟩ := mapped page first last
  refine ⟨frame, keeps.translate ?_ (by omega) walk⟩
  simp only [kernelStartVaddr] at *
  omega

theorem FreshRange.beside (fresh : FreshRange layout range machine after)
    (mapped : PagesMapped layout machine start stop)
    (nonempty : start < stop) :
    range.stop ≤ start ∨ stop ≤ range.vaddr := by
  by_contra overlaps
  have positive := fresh.positive
  have aligned := fresh.aligned
  have ends : range.stop = range.vaddr + 4096 * range.pages := rfl
  have shared : ∃ page < range.pages,
      start / 4096 ≤ range.vaddr / 4096 + page ∧
        4096 * (range.vaddr / 4096 + page) < stop := by
    by_cases inside : start / 4096 ≤ range.vaddr / 4096
    · exact ⟨0, positive, by omega, by omega⟩
    · exact ⟨start / 4096 - range.vaddr / 4096, by omega, by omega, by omega⟩
  obtain ⟨page, within, first, last⟩ := shared
  obtain ⟨frame, walk⟩ := mapped _ first last
  have address : 4096 * (range.vaddr / 4096 + page) =
      range.vaddr + 4096 * page := by omega
  rw [address, fresh.unmapped page within] at walk
  cases walk

theorem HeapMapped.keep (mapped : HeapMapped layout image ranges machine)
    (keeps : KeepsPages layout machine after) :
    HeapMapped layout image ranges after where
  rangesOk := mapped.rangesOk
  imageHalf := mapped.imageHalf
  image := mapped.image.keep keeps mapped.imageHalf image.below
  rangeHalf := mapped.rangeHalf
  ranges range member := (mapped.ranges range member).keep keeps
    (mapped.rangeHalf range member).1 (mapped.rangesOk.each range member).below

theorem HeapMapped.grow (mapped : HeapMapped layout image ranges machine)
    (keeps : KeepsPages layout machine after)
    (fresh : FreshRange layout range machine after) :
    HeapMapped layout image (ranges ++ [range]) after := by
  have kept := mapped.keep keeps
  have imageNonempty : image.start < image.stop := by
    have before := image.startBeforeBase
    have inside := image.baseInside
    omega
  have isRange : RangeOk image range := by
    refine ⟨fresh.aligned, fresh.below, ?_⟩
    rcases fresh.beside mapped.image imageNonempty with ordered | reversed
    · exact Or.inl ordered
    · exact Or.inr reversed
  refine ⟨⟨?_, ?_⟩, mapped.imageHalf, kept.image, ?_, ?_⟩
  · intro other member
    rcases List.mem_append.mp member with earlier | isNew
    · exact mapped.rangesOk.each other earlier
    · rw [List.mem_singleton.mp isNew]
      exact isRange
  · refine List.pairwise_append.mpr
      ⟨mapped.rangesOk.disjoint, List.pairwise_singleton _ _, ?_⟩
    intro other member last isNew
    rw [List.mem_singleton.mp isNew]
    have positive := (mapped.rangeHalf other member).2
    have nonempty : other.vaddr < other.stop := by
      simp only [HeapRange.stop, fourKb]
      omega
    exact (fresh.beside (mapped.ranges other member) nonempty).symm
  · intro other member
    rcases List.mem_append.mp member with earlier | isNew
    · exact mapped.rangeHalf other earlier
    · rw [List.mem_singleton.mp isNew]
      exact ⟨fresh.kernelHalf, fresh.positive⟩
  · intro other member
    rcases List.mem_append.mp member with earlier | isNew
    · exact kept.ranges other earlier
    · rw [List.mem_singleton.mp isNew]
      exact fresh.mapped

end Ranges

section Blocks

variable {σ : Type} {source : PageSource σ} {state stateAfter : σ}
  {image : KernelImage} {heap after : Heap} {live : List Nat} {fuel : Nat}

theorem HeapBlocks.ready (blocks : HeapBlocks image heap live)
    (rangesOk : RangesOk image heap.ranges) :
    ∃ free, HeapTracked image (initFreeList image.base heap) free live := by
  rcases blocks with unused | ⟨free, tracked⟩
  · exact ⟨_, unused.ready⟩
  · exact ⟨free, tracked.ready rangesOk⟩

theorem HeapBlocks.zero_notMem (blocks : HeapBlocks image heap live)
    (rangesOk : RangesOk image heap.ranges) : 0 ∉ live := by
  intro member
  rcases blocks with unused | ⟨free, tracked⟩
  · rw [unused.live] at member
    cases member
  · have header := tracked.invariant.user_pointer rangesOk
      (List.mem_map_of_mem member)
    exact header.1 (tracked.pointers 0 member)

theorem HeapBlocks.kmalloc (blocks : HeapBlocks image heap live)
    (rangesOk : RangesOk image heap.ranges) {nbytes result : Nat}
    (small : nbytes ≤ 4294967288)
    (success : Newbos.kmalloc source image.base fuel nbytes heap state =
      some (result, after, stateAfter))
    (rangesOkAfter : RangesOk image after.ranges) :
    HeapBlocks image after
      (if result = 0 then live else result :: live) := by
  by_cases zero : nbytes = 0
  · simp only [Newbos.kmalloc, zero, if_true] at success
    cases success
    exact blocks
  · obtain ⟨free, tracked⟩ := blocks.ready rangesOk
    exact Or.inr (kmalloc_tracked tracked zero small success rangesOkAfter)

theorem HeapBlocks.kfree (blocks : HeapBlocks image heap live)
    (rangesOk : RangesOk image heap.ranges) {ap : Nat}
    (allowed : ap = 0 ∨ ap ∈ live)
    (success : Newbos.kfree fuel ap heap = some after) :
    HeapBlocks image after (live.erase ap) := by
  rcases blocks with unused | ⟨free, tracked⟩
  · have null : ap = 0 := by
      rcases allowed with null | member
      · exact null
      · rw [unused.live] at member
        cases member
    simp only [Newbos.kfree, null, if_true] at success
    cases success
    left
    refine ⟨unused.freep, unused.ranges, ?_⟩
    rw [unused.live]
    rfl
  · right
    by_cases null : ap = 0
    · simp only [Newbos.kfree, null, if_true] at success
      cases success
      rw [null, List.erase_of_not_mem
        (HeapBlocks.zero_notMem (Or.inr ⟨free, tracked⟩) rangesOk)]
      exact ⟨free, tracked⟩
    · obtain ⟨freeAfter, released, _⟩ := kfree_tracked tracked rangesOk
        (allowed.resolve_left null) success
      exact ⟨freeAfter, released⟩

end Blocks

section Steps

variable {layout : Layout} {exempt : Entry → Prop}
  {spaces between later : Spaces} {machine afterMachine : Machine}
  {kernel middle after : Kernel}

theorem HeapBacked.grows {heap : Heap} (backed : HeapBacked spaces heap)
    (grows : spaces.Grows later) : HeapBacked later heap :=
  fun range member frame inRange =>
    grows.kernel (backed range member frame inRange)

theorem HeapBacked.congr {heap other : Heap}
    (backed : HeapBacked spaces heap) (same : other.ranges = heap.ranges) :
    HeapBacked spaces other := by
  rw [HeapBacked, same]
  exact backed

theorem KernelEvolves.owned
    (step : KernelEvolves layout exempt spaces kernel later after) :
    KernelSpaces layout exempt later after :=
  ⟨step.evolves.inv, step.heap⟩

theorem KernelSpaces.step (owned : KernelSpaces layout exempt spaces kernel)
    (evolves : Evolves layout exempt spaces kernel.machine later
      after.machine) (heap : after.heap = kernel.heap) :
    KernelEvolves layout exempt spaces kernel later after :=
  ⟨evolves, (owned.heap.grows evolves.grows).congr (by rw [heap])⟩

theorem Advances.step {base pdt : Nat}
    (advances : Advances layout exempt base pdt spaces kernel later after) :
    KernelEvolves layout exempt spaces kernel later after :=
  ⟨advances.works.evolves, advances.heap⟩

theorem Advances.trans {base pdt : Nat}
    (first : Advances layout exempt base pdt spaces kernel between middle)
    (second : Advances layout exempt base pdt between middle later after) :
    Advances layout exempt base pdt spaces kernel later after where
  works := first.works.trans second.works
  heap := second.heap
  sound := by
    intro image live isBase sound
    obtain ⟨middleLive, grows, middleSound⟩ := first.sound isBase sound
    obtain ⟨laterLive, further, laterSound⟩ :=
      second.sound isBase middleSound
    exact ⟨laterLive, grows.trans further, laterSound⟩

theorem KernelSpaces.advance
    (owned : KernelSpaces layout exempt spaces kernel) (base : Nat)
    {pdt : Nat} (works : WorksIn layout exempt pdt spaces kernel.machine later
      after.machine) (heap : after.heap = kernel.heap) :
    Advances layout exempt base pdt spaces kernel later after where
  works := works
  heap := (owned.step works.evolves heap).heap
  sound := by
    intro image live _ sound
    refine ⟨live, List.suffix_refl live, ?_, ?_⟩
    · rw [heap]
      exact sound.mapped.keep works.evolves.keeps
    · rw [heap]
      exact sound.blocks

end Steps

section Growth

variable {layout : Layout} {exempt : Entry → Prop}
  {spaces later : Spaces} {machine after : Machine}
  (ok : layout.BootOk)
include ok

omit ok in
theorem SpaceInv.holdsTable (inv : SpaceInv layout exempt spaces machine)
    {pdtIdx : Nat} (lower : 768 ≤ pdtIdx) (small : pdtIdx < 1024)
    (present : (machine.mem layout.kernelPdt pdtIdx).isPresent = true) :
    (machine.mem layout.kernelPdt pdtIdx).HoldsTable := by
  cases spaces.slot exempt small with
  | inl owning =>
      exact (spaceOwnership_half layout exempt spaces).walk
        (inv.holds.directoryEntry owning) present
  | inr boot =>
      rw [inv.holds.boot boot, Ownership.bootEntry, if_pos (by
        rcases boot.2 with isKernel | isZero
        · exact isKernel
        · omega)]
      exact pdtEntry_holdsTable layout.kernelPt 1 0

theorem SpaceInv.kernelTables (inv : SpaceInv layout exempt spaces machine) :
    TablesOwned layout machine layout.kernelPdt :=
  inv.holds.tablesOwned (inv.lawful ok)
    (spaces.slot exempt (show 0 < 1024 by decide))
    (fun _ small _ => spaces.slot exempt small)

omit ok in
theorem SpaceInv.foundPages (inv : SpaceInv layout exempt spaces machine)
    {vaddr size : Nat} (sizePos : 1 ≤ size) (sizeSmall : size ≤ fourMb)
    (found : (pdtKernelFindNextVaddr layout size machine).1 = vaddr)
    (notNull : vaddr ≠ 0) : FoundPages layout machine size vaddr := by
  have kernelSlot := inv.holds.bootPresent (Ownership.kernelSlot_boot layout)
  have rounded := le_alignUp_fourKb (show size ≤ 4294963200 by
    simp only [fourMb] at sizeSmall; omega)
  have whole := alignUp_fourKb_mod size
  have pagesPos : 1 ≤ alignUp size fourKb / fourKb := by
    simp only [fourKb] at *
    omega
  have pagesSmall : alignUp size fourKb / fourKb ≤ 1024 := by
    simp only [fourKb, fourMb] at *
    omega
  rcases pdtKernelFindNextVaddr_spec layout machine pagesPos pagesSmall with
    ⟨pdtIdx, first, lower, upper, free, _, isFound⟩ | ⟨_, failed⟩
  · rw [isFound] at found
    rw [← found]
    exact free.found kernelSlot lower upper
  · rw [failed] at found
    exact absurd found.symm notNull

theorem SpaceInv.mapProgress (inv : SpaceInv layout exempt spaces machine)
    {paddr vaddr size result : Nat} (paddrSmall : paddr < 4294967296)
    (sizePos : 1 ≤ size) (sizeSmall : size ≤ fourMb)
    (found : (pdtKernelFindNextVaddr layout size machine).1 = vaddr)
    (notNull : vaddr ≠ 0)
    (mapped : pdtMapKernelMemory layout paddr vaddr size 1 0 machine =
      some (result, after)) (success : result ≠ 0) :
    FoundPages layout machine size vaddr ∧ result = alignUp size fourKb ∧
      ∃ count, 4096 * count = alignUp size fourKb ∧
        MapProgress layout layout.kernelPdt paddr vaddr 1 0 machine count
          after := by
  have pages := inv.foundPages sizePos sizeSmall found notNull
  have half := pages.kernelHalf
  have below := pages.below
  have oneSlot := pages.oneSlot
  simp only [kernelStartVaddr, fourMb] at half sizeSmall oneSlot
  have rounded := (le_alignUp_fourKb (show size ≤ 4294963200 by omega)).1
  have range : RangeTables machine layout.kernelPdt vaddr
      (alignUp size fourKb) := by
    intro page within present
    refine inv.holdsTable ?_ (virtualToPdtIdx_lt _) present
    rw [virtualToPdtIdx_eq]
    omega
  obtain ⟨_, _, returned, outcome⟩ := pdtMapMemory_outcome ok.toOk
    (inv.kernelTables ok) paddrSmall (show vaddr < 4294967296 by omega)
    (show size < 4294967296 by omega) range 1 0
  rw [pdtMapKernelMemory, returned] at mapped
  cases mapped
  cases outcome with
  | stopped => exact absurd rfl success
  | complete whole progress => exact ⟨pages, rfl, _, whole, progress⟩

theorem SpaceInv.mapFound (inv : SpaceInv layout exempt spaces machine)
    {paddr vaddr size result : Nat} (paddrSmall : paddr < 4294967296)
    (sizePos : 1 ≤ size) (sizeSmall : size ≤ fourMb)
    (found : (pdtKernelFindNextVaddr layout size machine).1 = vaddr)
    (notNull : vaddr ≠ 0)
    (mapped : pdtMapKernelMemory layout paddr vaddr size 1 0 machine =
      some (result, after)) (success : result ≠ 0) :
    FoundPages layout machine size vaddr ∧ result = alignUp size fourKb ∧
      ∀ page, page < alignUp size fourKb / fourKb →
        machine.translate layout.kernelPdt (vaddr + fourKb * page) = none ∧
        after.translate layout.kernelPdt (vaddr + fourKb * page) =
          some (w32 (paddr + fourKb * page) / fourKb) := by
  obtain ⟨pages, isResult, count, whole, progress⟩ := inv.mapProgress ok
    paddrSmall sizePos sizeSmall found notNull mapped success
  refine ⟨pages, isResult, ?_⟩
  intro page within
  have early : page < count := by
    simp only [fourKb] at within whole
    omega
  rw [Machine.translate_eq_mapping, Machine.translate_eq_mapping,
    progress.unmapped early, progress.mapping_page early]
  exact ⟨rfl, rfl⟩

/-- The range that `acquire_more_heap` is granted, for requests of up to 4
MiB. -/
theorem growth_fresh (inv : SpaceInv layout exempt spaces machine)
    {nunits : Nat} (small : growthPages nunits ≤ 1024) {range : HeapRange}
    (grown : growth (pagingSource layout) nunits machine =
      some (some range, after)) : FreshRange layout range machine after := by
  have positive := growthPages_pos nunits
  have bytes : w32 (growthPages nunits * fourKb) =
      4096 * growthPages nunits := by
    simp only [fourKb, w32]
    omega
  rcases pfaAllocate_frames ok.framesOk positive (growthPages_lt nunits)
    machine with failed | ⟨frame, taken⟩
  · simp only [growth, pagingSource, failed, if_true] at grown
    cases grown
  · rcases growth_after_frames taken.notNull grown with
      ⟨impossible, _⟩ | ⟨vaddr, result, mapped, isRange, notNull, found⟩
    · cases impossible
    obtain ⟨rfl, whole⟩ := isRange range rfl
    rw [bytes] at mapped found whole
    generalize pfaAllocate layout (growthPages nunits) machine =
      allocated at *
    obtain ⟨paddr, allocated⟩ := allocated
    dsimp only at taken mapped found ⊢
    have mem : allocated.mem = machine.mem := by rw [taken.unchanged]
    have frameSmall := (ok.framesOk.unordered.frame_bounds
      (taken.wasFree frame (Nat.le_refl _) (by omega)).1).2
    have address : paddr = fourKb * frame := taken.address
    obtain ⟨pages, _, translations⟩ :=
      (inv.takeKernel taken).inv.mapFound ok
        (show paddr < 4294967296 by simp only [fourKb] at address; omega)
        (show 1 ≤ 4096 * growthPages nunits by omega)
        (show 4096 * growthPages nunits ≤ fourMb by
          simp only [fourMb]; omega) found notNull mapped (by omega)
    have rounded : alignUp (4096 * growthPages nunits) fourKb =
        4096 * growthPages nunits := by
      simp [alignUp, fourKb]
    have count : 4096 * growthPages nunits / fourKb =
        growthPages nunits := by
      simp [fourKb]
    rw [rounded, count] at translations
    have below := pages.below
    rw [rounded] at below
    refine ⟨positive, pages.aligned, pages.kernelHalf, below, ?_, ?_⟩
    · intro page within
      have was := (translations page within).1
      rw [Machine.translate, mem] at was
      exact was
    · intro page first last
      have aligned := pages.aligned
      simp only [HeapRange.stop, fourKb] at first last
      obtain ⟨step, rfl⟩ := Nat.exists_eq_add_of_le first
      have now := (translations step (by omega)).2
      have place : 4096 * (vaddr / 4096 + step) =
          vaddr + fourKb * step := by
        simp only [fourKb]
        omega
      rw [place]
      exact ⟨_, now⟩

omit ok in
theorem growthPages_le {nunits : Nat} (small : nunits ≤ 524288) :
    growthPages nunits ≤ 1024 := by
  have bounded : ∀ units, 1 ≤ units → units ≤ 524288 →
      divCeil (w32 (units * headerSize)) fourKb ≤ 1024 := by
    intro units positive below
    simp only [headerSize, fourKb, divCeil]
    rw [w32_of_lt (by omega), sub32_of_le (by omega)]
    omega
  rw [growthPages]
  split_ifs with few
  · exact bounded minBlockSize (by decide) (by decide)
  · have positive : 1 ≤ nunits :=
      Nat.le_trans (by decide) (Nat.le_of_not_lt few)
    exact bounded nunits positive small

omit ok in
theorem growthPages_request {nbytes : Nat}
    (small : nbytes + headerSize ≤ fourMb) :
    growthPages (requestUnits nbytes) ≤ 1024 := by
  apply growthPages_le
  simp only [requestUnits, headerSize, fourMb, w32] at *
  omega

/-- The calls of `acquire_more_heap`, however they end. -/
theorem growth_worksIn (pdt : Nat)
    (inv : SpaceInv layout exempt spaces machine) {nunits : Nat}
    {outcome : Option HeapRange}
    (grown : growth (pagingSource layout) nunits machine =
      some (outcome, after)) :
    ∃ later, WorksIn layout exempt pdt spaces machine later after ∧
      ∀ range, outcome = some range →
        ∀ frame ∈ blockFrames range.paddr range.pages,
          frame ∈ later.kernel := by
  rcases pfaAllocate_frames ok.framesOk (growthPages_pos nunits)
    (growthPages_lt nunits) machine with failed | ⟨frame, taken⟩
  · simp only [growth, pagingSource, failed, if_true] at grown
    cases grown
    exact ⟨spaces, inv.idle, fun range impossible => by cases impossible⟩
  · have takes : WorksIn layout exempt pdt spaces machine _ _ :=
      .of_bits (inv.takeKernel taken) taken.unchanged
    refine ⟨spaces.addKernel (blockFrames
      (pfaAllocate layout (growthPages nunits) machine).1
      (growthPages nunits)), ?_, ?_⟩
    · rcases growth_after_frames taken.notNull grown with
        ⟨_, rfl⟩ | ⟨_, _, mapped, _⟩
      · exact takes
      · exact takes.trans
          (takes.evolves.inv.mapKernel_worksIn ok (w32_lt _) mapped)
    · rintro range rfl member inBlock
      rcases growth_after_frames taken.notNull grown with
        ⟨impossible, _⟩ | ⟨_, _, _, isRange, _⟩
      · cases impossible
      · rw [(isRange range rfl).1] at inBlock
        exact List.mem_append_left _ inBlock

section Kmalloc

variable {kernel after : Kernel}
  (owned : KernelSpaces layout exempt spaces kernel)
  {base fuel nbytes address : Nat}
include owned

theorem KernelSpaces.kmallocWorks (pdt : Nat)
    (returned : kernel.kmalloc layout base fuel nbytes =
      some (address, after)) :
    ∃ later,
      WorksIn layout exempt pdt spaces kernel.machine later after.machine ∧
      HeapBacked later after.heap ∧
      (growthPages (requestUnits nbytes) ≤ 1024 → ∀ image,
        HeapMapped layout image kernel.heap.ranges kernel.machine →
        HeapMapped layout image after.heap.ranges after.machine) := by
  simp only [Kernel.kmalloc, Option.bind_eq_bind,
    Option.bind_eq_some_iff] at returned
  obtain ⟨⟨block, heap, machine⟩, taken, result⟩ := returned
  cases result
  refine kmalloc_rule (fun ranges middle => ∃ later,
    WorksIn layout exempt pdt spaces kernel.machine later middle ∧
    (∀ range ∈ ranges, ∀ frame ∈ blockFrames range.paddr range.pages,
      frame ∈ later.kernel) ∧
    (growthPages (requestUnits nbytes) ≤ 1024 → ∀ image,
      HeapMapped layout image kernel.heap.ranges kernel.machine →
      HeapMapped layout image ranges middle)) ?_
    ⟨spaces, owned.inv.idle, owned.heap, fun _ _ => id⟩ taken
  rintro ranges middle outcome after ⟨between, works, backed, mapped⟩ grown
  have inv := works.evolves.inv
  obtain ⟨later, further, isKernel⟩ := growth_worksIn ok pdt inv grown
  refine ⟨later, works.trans further, ?_, ?_⟩
  · intro range member frame inRange
    rcases List.mem_append.mp member with earlier | isNew
    · exact further.evolves.grows.kernel
        (backed range earlier frame inRange)
    · exact isKernel range (Option.mem_toList.mp isNew) frame inRange
  · intro pages image initially
    have mapped := mapped pages image initially
    cases outcome with
    | none =>
        rw [Option.toList_none, List.append_nil]
        exact mapped.keep further.evolves.keeps
    | some range =>
        exact mapped.grow further.evolves.keeps
          (growth_fresh ok inv pages grown)

theorem KernelSpaces.kmalloc
    (returned : kernel.kmalloc layout base fuel nbytes =
      some (address, after)) :
    ∃ later, KernelEvolves layout exempt spaces kernel later after := by
  obtain ⟨later, works, backed, _⟩ :=
    owned.kmallocWorks ok layout.kernelPdt returned
  exact ⟨later, works.evolves, backed⟩

/-- `kmalloc` in mapped pages. -/
theorem KernelSpaces.kmallocReady {image : KernelImage} {live : List Nat}
    (ready : HeapReady layout image kernel live) (positive : nbytes ≠ 0)
    (small : nbytes ≤ 4294967288)
    (pages : growthPages (requestUnits nbytes) ≤ 1024)
    (returned : kernel.kmalloc layout image.base fuel nbytes =
      some (address, after)) :
    HeapReady layout image after
      (if address = 0 then live else address :: live) := by
  obtain ⟨_, _, _, mapped⟩ :=
    owned.kmallocWorks ok layout.kernelPdt returned
  have mapped := mapped pages image ready.mapped
  simp only [Kernel.kmalloc, Option.bind_eq_bind,
    Option.bind_eq_some_iff] at returned
  obtain ⟨⟨block, heap, machine⟩, taken, result⟩ := returned
  cases result
  obtain ⟨free, tracked⟩ := ready.tracked
  obtain ⟨freeAfter, trackedAfter⟩ :=
    kmalloc_tracked tracked positive small taken mapped.rangesOk
  exact ⟨mapped, freeAfter, trackedAfter.ready mapped.rangesOk⟩

/-- `kmalloc`, for requests that fit into 4 MiB with their header. -/
theorem KernelSpaces.kmallocSound {image : KernelImage} {live : List Nat}
    (sound : HeapSound layout image kernel live)
    (small : nbytes + headerSize ≤ fourMb)
    (returned : kernel.kmalloc layout image.base fuel nbytes =
      some (address, after)) :
    HeapSound layout image after
      (if address = 0 then live else address :: live) := by
  obtain ⟨_, _, _, mapped⟩ :=
    owned.kmallocWorks ok layout.kernelPdt returned
  have mapped := mapped (growthPages_request small) image sound.mapped
  simp only [Kernel.kmalloc, Option.bind_eq_bind,
    Option.bind_eq_some_iff] at returned
  obtain ⟨⟨block, heap, machine⟩, taken, result⟩ := returned
  cases result
  refine ⟨mapped, sound.blocks.kmalloc sound.mapped.rangesOk ?_ taken
    mapped.rangesOk⟩
  simp only [headerSize, fourMb] at small
  omega

theorem KernelSpaces.request (pdt : Nat)
    (small : nbytes + headerSize ≤ fourMb)
    (returned : kernel.kmalloc layout base fuel nbytes =
      some (address, after)) :
    ∃ later, Advances layout exempt base pdt spaces kernel later after := by
  obtain ⟨later, works, backed, _⟩ := owned.kmallocWorks ok pdt returned
  refine ⟨later, works, backed, ?_⟩
  rintro image live rfl sound
  refine ⟨_, ?_, owned.kmallocSound ok sound small returned⟩
  split_ifs
  · exact List.suffix_refl live
  · exact List.suffix_cons _ live

end Kmalloc

theorem Advances.inDirectory {kernel after : Kernel} {base : Nat}
    (advances : Advances layout exempt base layout.kernelPdt spaces kernel
      later after) (owned : KernelSpaces layout exempt spaces kernel)
    (pdt : Nat) :
    Advances layout exempt base pdt spaces kernel later after := by
  obtain ⟨works, heap, sound⟩ := advances
  refine ⟨⟨works.evolves, ?_, works.active, works.faulted⟩, heap, sound⟩
  intro other member _
  exact works.others other member
    (owned.inv.notKernelPdt ok (Or.inl member)).symm

end Growth

end Newbos
