import Newbos.Process.Initialised

/-!
# The memory of the heap

`kmalloc` hands out blocks of pages that the paging code has mapped to frames
of the allocator.  The rest of the kernel takes frames, maps pages and creates
directories in between.  In every such run two bytes of live blocks are two
bytes of memory.
-/

namespace Newbos

/-! ## Runs -/

/-- What other parts of the kernel do with the machine between two calls of
the heap. -/
inductive PagingCall (layout : Layout) : Machine → Machine → Prop where
  | pfaAllocate {machine : Machine} (count : Nat) :
      1 ≤ count → count < 4294967296 →
      PagingCall layout machine (Newbos.pfaAllocate layout count machine).2
  | pdtMapKernelMemory {machine after : Machine}
      {paddr vaddr size result : Nat} :
      size < 4294967296 →
      Newbos.pdtMapKernelMemory layout paddr vaddr size 1 0 machine =
        some (result, after) →
      PagingCall layout machine after
  | pdtCreate {machine after : Machine} {vaddr paddr : Nat} :
      ¬Ownership.CreateSlips layout machine →
      Newbos.pdtCreate layout machine = some (vaddr, paddr, after) →
      PagingCall layout machine after

/-- The kernel and the live results of `kmalloc`, whose requests fit into 4
MiB with their header. -/
inductive KernelHeapRun (layout : Layout) (base : Nat) (start : Kernel) :
    Kernel → List Nat → Prop where
  | start : KernelHeapRun layout base start start []
  | kmalloc {kernel after : Kernel} {live : List Nat}
      {fuel nbytes address : Nat} :
      KernelHeapRun layout base start kernel live →
      nbytes + headerSize ≤ fourMb →
      kernel.kmalloc layout base fuel nbytes = some (address, after) →
      KernelHeapRun layout base start after
        (if address = 0 then live else address :: live)
  | kfree {kernel : Kernel} {live : List Nat} {fuel ap : Nat} {heap : Heap} :
      KernelHeapRun layout base start kernel live →
      ap = 0 ∨ ap ∈ live →
      Newbos.kfree fuel ap kernel.heap = some heap →
      KernelHeapRun layout base start { kernel with heap := heap }
        (live.erase ap)
  | paging {kernel : Kernel} {live : List Nat} {machine : Machine} :
      KernelHeapRun layout base start kernel live →
      PagingCall layout kernel.machine machine →
      KernelHeapRun layout base start { kernel with machine := machine } live

/-- The byte of memory behind a kernel address. -/
def Machine.kernelByte (machine : Machine) (layout : Layout) (address : Nat) :
    Option Nat :=
  (machine.translate layout.kernelPdt address).map fun frame =>
    4096 * frame + address % 4096

/-- A byte of the block of a pointer, with its header. -/
def BlockByte (heap : Heap) (ap address : Nat) : Prop :=
  headerOf ap ≤ address ∧ address < blockEnd heap.mem (headerOf ap)

/-- Live blocks lie in frames of the allocator that are taken and hold no page
table, and no two of their bytes are one byte of memory. -/
structure OwnsMemory (layout : Layout) (kernel : Kernel) (live : List Nat) :
    Prop where
  backed : ∀ ap ∈ live, ∀ address, BlockByte kernel.heap ap address →
    ∃ frame,
      kernel.machine.translate layout.kernelPdt address = some frame ∧
      frame ∈ mmapFrames layout.mmap ∧
      ¬FreeFrame layout kernel.machine frame ∧
      frame ≠ layout.kernelPdt ∧
      ∀ pdtIdx < numEntries,
        (kernel.machine.mem layout.kernelPdt pdtIdx).isPresent = true →
        (kernel.machine.mem layout.kernelPdt pdtIdx).frame ≠ frame
  distinct : ∀ ap ∈ live, ∀ other ∈ live, ∀ address otherAddress,
    BlockByte kernel.heap ap address →
    BlockByte kernel.heap other otherAddress →
    kernel.machine.kernelByte layout address =
      kernel.machine.kernelByte layout otherAddress →
    ap = other ∧ address = otherAddress

/-! ## Ranges and frames -/

/-- The pages of a range are mapped to its frames in order. -/
def RangeBacked (layout : Layout) (machine : Machine) (range : HeapRange) :
    Prop :=
  ∀ page < range.pages,
    machine.translate layout.kernelPdt (range.vaddr + 4096 * page) =
      some (range.paddr / fourKb + page)

/-- Ranges without a common frame. -/
def FramesApart (range other : HeapRange) : Prop :=
  ∀ frame ∈ blockFrames range.paddr range.pages,
    frame ∉ blockFrames other.paddr other.pages

instance : Std.Symm FramesApart :=
  ⟨fun _ _ apart frame inOther inRange => apart frame inRange inOther⟩

/-- The ranges of the heap, with frames of their own. -/
structure HeapMemory (layout : Layout) (exempt : Entry → Prop)
    (image : KernelImage) (spaces : Spaces) (ranges : List HeapRange)
    (machine : Machine) : Prop where
  inv : SpaceInv layout exempt spaces machine
  mapped : HeapMapped layout image ranges machine
  owned : ∀ range ∈ ranges, ∀ frame ∈ blockFrames range.paddr range.pages,
    frame ∈ spaces.kernel
  backed : ∀ range ∈ ranges, RangeBacked layout machine range
  apart : ranges.Pairwise FramesApart

section Ranges

variable {layout : Layout} {exempt : Entry → Prop} {image : KernelImage}
  {spaces later : Spaces} {ranges : List HeapRange}
  {machine after : Machine}

theorem HeapMemory.evolve
    (memory : HeapMemory layout exempt image spaces ranges machine)
    (evolves : Evolves layout exempt spaces machine later after) :
    HeapMemory layout exempt image later ranges after where
  inv := evolves.inv
  mapped := memory.mapped.keep evolves.keeps
  owned range member frame inRange :=
    evolves.grows.kernel (memory.owned range member frame inRange)
  backed range member page within := by
    have half := (memory.mapped.rangeHalf range member).1
    have below := (memory.mapped.rangesOk.each range member).below
    simp only [HeapRange.stop, fourKb] at below
    exact evolves.keeps.translate (by omega) (by omega)
      (memory.backed range member page within)
  apart := memory.apart

theorem HeapMemory.translate
    (memory : HeapMemory layout exempt image spaces ranges machine)
    {range : HeapRange} (member : range ∈ ranges) {address : Nat}
    (lower : range.vaddr ≤ address) (upper : address < range.stop) :
    machine.translate layout.kernelPdt address =
        some (range.paddr / fourKb + (address - range.vaddr) / 4096) ∧
      range.paddr / fourKb + (address - range.vaddr) / 4096 ∈
        blockFrames range.paddr range.pages := by
  have aligned := (memory.mapped.rangesOk.each range member).aligned
  simp only [HeapRange.stop, fourKb] at upper aligned
  have within : (address - range.vaddr) / 4096 < range.pages := by omega
  have page : range.vaddr + 4096 * ((address - range.vaddr) / 4096) =
      4096 * (address / 4096) := by omega
  have walk := memory.backed range member _ within
  rw [page, ← machine.translate_page] at walk
  refine ⟨walk, ?_⟩
  rw [blockFrames, List.mem_range'_1]
  omega

/-- No two bytes of the ranges are one byte of memory. -/
theorem HeapMemory.kernelByte_injective
    (memory : HeapMemory layout exempt image spaces ranges machine)
    {address other : Nat} (inRanges : InRanges ranges address)
    (otherInRanges : InRanges ranges other)
    (same : machine.kernelByte layout address =
      machine.kernelByte layout other) : address = other := by
  obtain ⟨range, member, lower, upper⟩ := inRanges
  obtain ⟨otherRange, otherMember, otherLower, otherUpper⟩ := otherInRanges
  obtain ⟨walk, inBlock⟩ := memory.translate member lower upper
  obtain ⟨otherWalk, inOther⟩ :=
    memory.translate otherMember otherLower otherUpper
  rw [Machine.kernelByte, Machine.kernelByte, walk, otherWalk] at same
  have bytes : 4096 * (range.paddr / fourKb +
        (address - range.vaddr) / 4096) + address % 4096 =
      4096 * (otherRange.paddr / fourKb +
        (other - otherRange.vaddr) / 4096) + other % 4096 :=
    Option.some.inj same
  have frames : range.paddr / fourKb + (address - range.vaddr) / 4096 =
      otherRange.paddr / fourKb + (other - otherRange.vaddr) / 4096 := by
    omega
  by_cases sameRange : range = otherRange
  · subst sameRange
    have aligned := (memory.mapped.rangesOk.each range member).aligned
    simp only [fourKb] at aligned
    omega
  · rw [frames] at inBlock
    exact absurd inOther
      (memory.apart.forall member otherMember sameRange _ inBlock)

end Ranges

section Growth

variable {layout : Layout} {exempt : Entry → Prop} {image : KernelImage}
  {spaces : Spaces} {ranges : List HeapRange} {machine after : Machine}
  (ok : layout.BootOk)
include ok

/-- The range that `acquire_more_heap` is granted is mapped to frames that
were free. -/
theorem growth_backed (inv : SpaceInv layout exempt spaces machine)
    {nunits : Nat} (small : growthPages nunits ≤ 1024) {range : HeapRange}
    (grown : growth (pagingSource layout) nunits machine =
      some (some range, after)) :
    RangeBacked layout after range ∧
      ∀ frame ∈ blockFrames range.paddr range.pages,
        FreeFrame layout machine frame := by
  have positive := growthPages_pos nunits
  have bytes : w32 (growthPages nunits * fourKb) =
      4096 * growthPages nunits := by
    simp only [fourKb, w32]
    omega
  rcases pfaAllocate_frames ok.framesOk positive (growthPages_lt nunits)
    machine with failed | ⟨frame, taken⟩
  · simp only [growth, pagingSource, failed, if_true] at grown
    cases grown
  rcases growth_after_frames taken.notNull grown with
    ⟨impossible, _⟩ | ⟨vaddr, result, mapped, isRange, notNull, found⟩
  · cases impossible
  obtain ⟨rfl, whole⟩ := isRange range rfl
  rw [bytes] at mapped found whole
  have last := (ok.framesOk.unordered.frame_bounds
    (taken.wasFree (frame + (growthPages nunits - 1)) (by omega)
      (by omega)).1).2
  have address := taken.address
  simp only [fourKb] at address
  obtain ⟨_, _, translations⟩ := (inv.takeKernel taken).inv.mapFound ok
    (show _ < 4294967296 by omega)
    (show 1 ≤ 4096 * growthPages nunits by omega)
    (show 4096 * growthPages nunits ≤ fourMb by
      simp only [fourMb]; omega) found notNull mapped (by omega)
  refine ⟨?_, ?_⟩
  · intro page within
    change page < growthPages nunits at within
    have rounded : alignUp (4096 * growthPages nunits) fourKb / fourKb =
        growthPages nunits := by
      simp [alignUp, fourKb]
    rw [rounded] at translations
    have place := (translations page within).2
    have shifted : (4096 * frame + 4096 * page) / 4096 =
        4096 * frame / 4096 + page := by omega
    simp only [fourKb] at place ⊢
    rw [place, address, w32_of_lt (by omega), shifted]
  · intro other member
    have inside := taken.mem_blockFrames.mp member
    exact taken.wasFree other inside.1 inside.2

theorem HeapMemory.grow
    (memory : HeapMemory layout exempt image spaces ranges machine)
    {nunits : Nat} (small : growthPages nunits ≤ 1024)
    {outcome : Option HeapRange}
    (grown : growth (pagingSource layout) nunits machine =
      some (outcome, after)) :
    ∃ later, HeapMemory layout exempt image later
      (ranges ++ outcome.toList) after := by
  obtain ⟨later, works, isKernel⟩ :=
    growth_worksIn ok layout.kernelPdt memory.inv grown
  have evolves := works.evolves
  have kept := memory.evolve evolves
  cases outcome with
  | none =>
      rw [Option.toList_none, List.append_nil]
      exact ⟨later, kept⟩
  | some range =>
      have fresh := growth_fresh ok memory.inv small grown
      obtain ⟨backed, wasFree⟩ := growth_backed ok memory.inv small grown
      refine ⟨later, kept.inv, memory.mapped.grow evolves.keeps fresh, ?_, ?_,
        ?_⟩
      · exact List.forall_mem_append.mpr ⟨kept.owned, by
          simpa using isKernel range rfl⟩
      · exact List.forall_mem_append.mpr ⟨kept.backed, by
          simpa using backed⟩
      · refine List.pairwise_append.mpr
          ⟨kept.apart, List.pairwise_singleton _ _, ?_⟩
        intro earlier member added isNew frame inEarlier inNew
        rw [Option.toList_some, List.mem_singleton] at isNew
        subst isNew
        exact memory.inv.free_unused (wasFree frame inNew)
          (Or.inr (Or.inr (memory.owned earlier member frame inEarlier)))

theorem HeapMemory.kmalloc {heap afterHeap : Heap}
    (memory : HeapMemory layout exempt image spaces heap.ranges machine)
    {base fuel nbytes address : Nat} (small : nbytes + headerSize ≤ fourMb)
    (returned : Newbos.kmalloc (pagingSource layout) base fuel nbytes heap
      machine = some (address, afterHeap, after)) :
    ∃ later, HeapMemory layout exempt image later afterHeap.ranges after := by
  have pages := growthPages_request small
  refine kmalloc_rule (fun ranges middle =>
    ∃ later, HeapMemory layout exempt image later ranges middle) ?_
    ⟨spaces, memory⟩ returned
  rintro ranges middle outcome after ⟨between, kept⟩ grown
  exact kept.grow ok pages grown

/-- The other parts of the kernel work in no process directory. -/
theorem SpaceInv.paging (inv : SpaceInv layout exempt spaces machine)
    (called : PagingCall layout machine after) :
    ∃ later,
      WorksIn layout exempt layout.kernelPdt spaces machine later after := by
  cases called with
  | pfaAllocate count positive small =>
      rcases pfaAllocate_frames ok.framesOk positive small machine with
        failed | ⟨frame, taken⟩
      · rw [failed]
        exact ⟨spaces, inv.idle⟩
      · exact ⟨_, .of_bits (inv.takeKernel taken) taken.unchanged⟩
  | pdtMapKernelMemory small mapped =>
      exact ⟨_, inv.mapKernel_worksIn ok small mapped⟩
  | pdtCreate noSlip created =>
      have neverSlips : ∀ {vaddr : Nat},
          Ownership.CreateSlips layout machine → vaddr ≠ 0 :=
        fun slips => absurd slips noSlip
      rcases inv.pdtCreate ok noSlip created with ⟨_, evolves⟩ | ⟨frame, isNew⟩
      · exact ⟨_, inv.pdtCreate_worksIn ok neverSlips evolves created⟩
      · exact ⟨_, inv.pdtCreate_worksIn ok neverSlips isNew.evolves created⟩

theorem HeapMemory.paging
    (memory : HeapMemory layout exempt image spaces ranges machine)
    (called : PagingCall layout machine after) :
    ∃ later, HeapMemory layout exempt image later ranges after := by
  obtain ⟨later, works⟩ := memory.inv.paging ok called
  exact ⟨later, memory.evolve works.evolves⟩

theorem SpaceInv.used_notTable (inv : SpaceInv layout exempt spaces machine)
    {frame : Nat} (inUse : spaces.Uses frame) :
    frame ≠ layout.kernelPdt ∧ ∀ pdtIdx < numEntries,
      (machine.mem layout.kernelPdt pdtIdx).isPresent = true →
      (machine.mem layout.kernelPdt pdtIdx).frame ≠ frame := by
  refine ⟨(inv.notKernelPdt ok inUse).symm, ?_⟩
  rintro pdtIdx small present rfl
  exact (inv.holds.table_notDirectory (inv.lawful ok)
    (spaces.slot exempt small) present).2 inUse

end Growth

/-! ## All runs -/

/-- The heap of a kernel with its memory. -/
structure PagedHeap (layout : Layout) (exempt : Entry → Prop)
    (image : KernelImage) (kernel : Kernel) (live : List Nat) : Prop where
  memory : ∃ spaces, HeapMemory layout exempt image spaces
    kernel.heap.ranges kernel.machine
  blocks : HeapBlocks image kernel.heap live

section AllRuns

variable {layout : Layout} {exempt : Entry → Prop} {image : KernelImage}
  {start kernel : Kernel} {live : List Nat} (ok : layout.BootOk)
include ok

theorem KernelHeapRun.invariant
    (initial : PagedHeap layout exempt image start [])
    (run : KernelHeapRun layout image.base start kernel live) :
    PagedHeap layout exempt image kernel live := by
  induction run with
  | start => exact initial
  | @kmalloc kernel after live fuel nbytes address _ small returned
      induction =>
      obtain ⟨⟨spaces, memory⟩, blocks⟩ := induction
      simp only [Kernel.kmalloc, Option.bind_eq_bind,
        Option.bind_eq_some_iff] at returned
      obtain ⟨⟨block, heap, machine⟩, taken, result⟩ := returned
      cases result
      obtain ⟨later, kept⟩ := memory.kmalloc ok small taken
      refine ⟨⟨later, kept⟩, ?_⟩
      apply blocks.kmalloc memory.mapped.rangesOk _ taken
        kept.mapped.rangesOk
      simp only [headerSize, fourMb] at small
      omega
  | kfree _ allowed freed induction =>
      obtain ⟨⟨spaces, memory⟩, blocks⟩ := induction
      refine ⟨⟨spaces, ?_⟩,
        blocks.kfree memory.mapped.rangesOk allowed freed⟩
      rw [kfree_ranges freed]
      exact memory
  | paging _ called induction =>
      obtain ⟨⟨spaces, memory⟩, blocks⟩ := induction
      exact ⟨memory.paging ok called, blocks⟩

theorem PagedHeap.ownsMemory
    (paged : PagedHeap layout exempt image kernel live) :
    OwnsMemory layout kernel live := by
  obtain ⟨⟨spaces, memory⟩, unused | ⟨free, tracked⟩⟩ := paged
  · rw [unused.live]
    exact ⟨by simp, by simp⟩
  have core := tracked.invariant.core
  have inRanges : ∀ ap ∈ live, ∀ address,
      BlockByte kernel.heap ap address →
      InRanges kernel.heap.ranges address := by
    intro ap member address inside
    exact (core.cover address).mp
      ⟨headerOf ap, Or.inr (List.mem_map_of_mem member), inside⟩
  constructor
  · intro ap member address inside
    obtain ⟨range, isRange, lower, upper⟩ := inRanges ap member address inside
    obtain ⟨walk, inBlock⟩ := memory.translate isRange lower upper
    have inUse : spaces.Uses _ :=
      Or.inr (Or.inr (memory.owned range isRange _ inBlock))
    exact ⟨_, walk, memory.inv.managed inUse, memory.inv.holds.kept inUse,
      memory.inv.used_notTable ok inUse⟩
  · intro ap member other otherMember address otherAddress inside otherInside
      same
    have sameAddress := memory.kernelByte_injective
      (inRanges ap member address inside)
      (inRanges other otherMember otherAddress otherInside) same
    subst sameAddress
    refine ⟨?_, rfl⟩
    by_contra different
    have headers : headerOf ap ≠ headerOf other := by
      intro sameHeader
      apply different
      rw [← tracked.pointers ap member, sameHeader,
        tracked.pointers other otherMember]
    have apart := tracked.blocksTile.disjoint (headerOf ap) (headerOf other)
      (Or.inr (List.mem_map_of_mem member))
      (Or.inr (List.mem_map_of_mem otherMember)) headers
    simp only [BlockByte] at inside otherInside
    omega

/-- In every run from the boot directory in which `kmalloc` and `kfree` take
turns with the rest of the kernel, the live blocks own their memory: nobody
has promised anything about the page source. -/
theorem heap_blocks_own_memory
    (boot : KernelDirectory layout exempt start.machine)
    (unused : HeapUnused start.heap [])
    (mapped : HeapMapped layout image [] start.machine)
    (run : KernelHeapRun layout image.base start kernel live) :
    OwnsMemory layout kernel live := by
  have initial : PagedHeap layout exempt image start [] := by
    refine ⟨⟨Spaces.empty, ?_⟩, Or.inl unused⟩
    rw [unused.ranges]
    exact ⟨boot.spaceInv, mapped, by simp, by simp, .nil⟩
  exact (run.invariant ok initial).ownsMemory ok

end AllRuns

/-- Two blocks, and a frame that is taken in between. -/
theorem heap_blocks_own_memory_twoBlocks :
    ∃ kernel ap other, ap ≠ 0 ∧ other ≠ 0 ∧
      OwnsMemory highLayout kernel [other, ap] := by
  have evaluated : ((highKernel.kmalloc highLayout threePageImage.base 64
      100).bind fun first =>
        ((Kernel.kmalloc highLayout threePageImage.base 64 200
          { first.2 with
            machine := (pfaAllocate highLayout 1 first.2.machine).2 }).map
          fun second => decide (first.1 ≠ 0 ∧ second.1 ≠ 0))) =
      some true := by
    decide +kernel
  obtain ⟨⟨ap, middle⟩, first, rest⟩ := Option.bind_eq_some_iff.mp evaluated
  obtain ⟨⟨other, kernel⟩, second, notNull⟩ :=
    Option.map_eq_some_iff.mp rest
  obtain ⟨notNull, otherNotNull⟩ := of_decide_eq_true notNull
  have run : KernelHeapRun highLayout threePageImage.base highKernel middle
      [ap] := by
    have one := KernelHeapRun.start.kmalloc (by decide) first
    rwa [if_neg notNull] at one
  have both := (run.paging (.pfaAllocate 1 (by decide) (by decide))).kmalloc
    (by decide) second
  rw [if_neg otherNotNull] at both
  exact ⟨kernel, ap, other, notNull, otherNotNull,
    heap_blocks_own_memory highLayout_bootOk highKernel_boot ⟨rfl, rfl, rfl⟩
      highKernel_ready.mapped both⟩

end Newbos
