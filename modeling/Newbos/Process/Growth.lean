import Newbos.Heap.Requests
import Newbos.Paging.Boot
import Newbos.Paging.Directory
import Newbos.Process.Create

/-!
# Requests that fail

`acquire_more_heap` takes page frames, then looks for an address, then maps
the frames.  A failure of the later steps does not give the frames back, so
that a failed request leaves the state as it was only when it already fails
for want of frames.
-/

namespace Newbos

section Mapping

variable {layout : Layout}

/-- No frame is free after a step that was not free before. -/
def FreesNone (layout : Layout) (machine after : Machine) : Prop :=
  ∀ frame, FreeFrame layout after frame → FreeFrame layout machine frame

theorem FreesNone.of_bits {machine after : Machine}
    (same : after.bits = machine.bits) : FreesNone layout machine after :=
  fun frame => (FreeFrame.congr same frame).mp

theorem FreesNone.trans {machine middle after : Machine}
    (first : FreesNone layout machine middle)
    (second : FreesNone layout middle after) :
    FreesNone layout machine after :=
  fun frame free => first frame (second frame free)

theorem ptMapLoop_bits (layout : Layout) (pdtIdx size : Nat)
    (rw pl : UInt8) (remaining paddr mappedSize : Nat) (machine : Machine) :
    (ptMapLoop layout pdtIdx size rw pl remaining paddr mappedSize
      machine).2.bits = machine.bits := by
  induction remaining generalizing paddr mappedSize machine with
  | zero => rfl
  | succ remaining induction =>
      simp only [ptMapLoop]
      split_ifs
      · rfl
      · rfl
      · exact induction _ _ _
      · rfl

theorem openTable_freesNone (framesOk : layout.FramesOk) (pdt pdtIdx : Nat)
    (machine : Machine) :
    FreesNone layout machine (openTable layout pdt pdtIdx machine).2 := by
  unfold openTable
  split_ifs
  · exact .of_bits rfl
  · rcases pfaAllocate_frames framesOk (Nat.le_refl 1) (by decide) machine
      with failed | ⟨frame, taken⟩
    · simp only [failed, if_true]
      exact .of_bits rfl
    · have kept : FreesNone layout machine (pfaAllocate layout 1 machine).2 :=
        fun other free => ((taken.free other).mp free).1
      simp only [if_neg taken.notNull]
      exact kept.trans (.of_bits rfl)

theorem pdtMapLoop_freesNone (framesOk : layout.FramesOk) {pdt : Nat}
    {rw pl : UInt8} {result : Nat} {after : Machine} :
    ∀ {fuel paddr vaddr size total : Nat} {machine : Machine},
      pdtMapLoop layout pdt rw pl fuel paddr vaddr size total machine =
        some (result, after) →
      FreesNone layout machine after := by
  intro fuel
  induction fuel with
  | zero =>
      intro paddr vaddr size total machine mapped
      cases mapped
  | succ fuel induction =>
      intro paddr vaddr size total machine mapped
      have opened := openTable_freesNone framesOk pdt (virtualToPdtIdx vaddr)
        machine
      have written := ptMapLoop_bits layout (virtualToPdtIdx vaddr) size rw pl
        (numEntries - virtualToPtIdx vaddr) paddr 0
        (openTable layout pdt (virtualToPdtIdx vaddr) machine).2
      simp only [pdtMapLoop] at mapped
      split_ifs at mapped
      · cases mapped
        exact .of_bits rfl
      · cases mapped
        exact opened
      · cases mapped
        exact opened.trans (.of_bits written)
      · refine (opened.trans ?_).trans (induction mapped)
        exact .of_bits written
      · refine (opened.trans ?_).trans (induction mapped)
        exact .of_bits written

/-- What the calls of `acquire_more_heap` can do once frames are there: there
is no address for them, or the mapping ran, to its end or not. -/
theorem growth_after_frames {nunits : Nat} {outcome : Option HeapRange}
    {machine after : Machine}
    (found : (pfaAllocate layout (growthPages nunits) machine).1 ≠ 0)
    (grown : growth (pagingSource layout) nunits machine =
      some (outcome, after)) :
    (outcome = none ∧
        after = (pfaAllocate layout (growthPages nunits) machine).2) ∨
      ∃ vaddr mapped,
        pdtMapKernelMemory layout
            (pfaAllocate layout (growthPages nunits) machine).1 vaddr
            (w32 (growthPages nunits * fourKb)) 1 0
            (pfaAllocate layout (growthPages nunits) machine).2 =
          some (mapped, after) ∧
        (∀ range, outcome = some range →
          range = ⟨vaddr, (pfaAllocate layout (growthPages nunits) machine).1,
              growthPages nunits⟩ ∧
            w32 (growthPages nunits * fourKb) ≤ mapped) ∧
        vaddr ≠ 0 ∧
        (pdtKernelFindNextVaddr layout (w32 (growthPages nunits * fourKb))
          (pfaAllocate layout (growthPages nunits) machine).2).1 = vaddr := by
  generalize allocatedEq : pfaAllocate layout (growthPages nunits) machine =
    allocated at *
  obtain ⟨paddr, allocated⟩ := allocated
  simp only [growth, pagingSource, allocatedEq, if_neg found,
    pdtKernelFindNextVaddr_machine] at grown
  split_ifs at grown with isNull
  · cases grown
    exact Or.inl ⟨rfl, rfl⟩
  · split at grown
    · cases grown
    · rename_i mapped
      split_ifs at grown with short
      · cases grown
        exact Or.inr ⟨_, _, mapped,
          fun range impossible =>
            absurd impossible.symm (Option.some_ne_none range),
          isNull, rfl⟩
      · cases grown
        exact Or.inr ⟨_, _, mapped, fun range same =>
          ⟨(Option.some.inj same).symm, Nat.le_of_not_lt short⟩, isNull, rfl⟩

/-- `acquire_more_heap` gives no frame back, however it ends. -/
theorem growth_freesNone (framesOk : layout.FramesOk) {nunits : Nat}
    {outcome : Option HeapRange} {machine after : Machine}
    (grown : growth (pagingSource layout) nunits machine =
      some (outcome, after)) : FreesNone layout machine after := by
  rcases pfaAllocate_frames framesOk (growthPages_pos nunits)
    (growthPages_lt nunits) machine with failed | ⟨frame, taken⟩
  · simp only [growth, pagingSource, failed, if_true] at grown
    cases grown
    exact .of_bits rfl
  · have kept : FreesNone layout machine
        (pfaAllocate layout (growthPages nunits) machine).2 :=
      fun other free => ((taken.free other).mp free).1
    rcases growth_after_frames taken.notNull grown with
      ⟨_, rfl⟩ | ⟨_, _, mapped, _⟩
    · exact kept
    · exact kept.trans (pdtMapLoop_freesNone framesOk mapped)

/-- The frames that `acquire_more_heap` has found stay taken. -/
theorem growth_takesFrame (framesOk : layout.FramesOk) {nunits : Nat}
    {outcome : Option HeapRange} {machine after : Machine}
    (found : (pfaAllocate layout (growthPages nunits) machine).1 ≠ 0)
    (grown : growth (pagingSource layout) nunits machine =
      some (outcome, after)) :
    ∃ frame, FreeFrame layout machine frame ∧
      ¬FreeFrame layout after frame := by
  rcases pfaAllocate_frames framesOk (growthPages_pos nunits)
    (growthPages_lt nunits) machine with failed | ⟨frame, taken⟩
  · rw [failed] at found
    exact absurd rfl found
  · have inBlock : frame ≤ frame ∧ frame < frame + growthPages nunits :=
      ⟨Nat.le_refl _, Nat.lt_add_of_pos_right (growthPages_pos nunits)⟩
    have notFree : ¬FreeFrame layout
        (pfaAllocate layout (growthPages nunits) machine).2 frame :=
      fun free => ((taken.free frame).mp free).2 inBlock
    refine ⟨frame, taken.wasFree frame inBlock.1 inBlock.2, fun free => ?_⟩
    rcases growth_after_frames found grown with ⟨_, rfl⟩ | ⟨_, _, mapped, _⟩
    · exact notFree free
    · exact notFree (pdtMapLoop_freesNone framesOk mapped frame free)

end Mapping

/-! ## The state after a failed request -/

/-- The same blocks are on the free list, in the same order and with the same
roving pointer. -/
def SameFreeList (free : Finset Nat) (heap after : Heap) : Prop :=
  after.freep = heap.freep ∧
    ∀ node ∈ free, after.mem node = heap.mem node

theorem kmallocSearch_freesNone {layout : Layout}
    (framesOk : layout.FramesOk) {nunits fuel prevp p result : Nat}
    {heap after : Heap} {machine afterMachine : Machine}
    (search : kmallocSearch (pagingSource layout) nunits fuel prevp p heap
      machine = some (result, after, afterMachine)) :
    FreesNone layout machine afterMachine :=
  kmallocSearch_rule (fun _ middle => FreesNone layout machine middle)
    (fun kept grown => kept.trans (growth_freesNone framesOk grown))
    (.of_bits rfl) search

/-- Without frames for the growth and without a free block that is large
enough a request fails and changes nothing. -/
theorem kmalloc_refused {layout : Layout}
    (framesOk : layout.FramesOk) {image : KernelImage} {heap after : Heap}
    {free : Finset Nat} {live : List Nat} {machine afterMachine : Machine}
    {fuel nbytes result : Nat}
    (invariant : HeapInv 0 image (initFreeList image.base heap) free live)
    (positive : 1 ≤ nbytes)
    (noFrames :
      (pfaAllocate layout (growthPages (requestUnits nbytes)) machine).1 = 0)
    (noneFits : NoneFits (requestUnits nbytes)
      (initFreeList image.base heap).mem free)
    (returned : kmalloc (pagingSource layout) image.base fuel nbytes heap
      machine = some (result, after, afterMachine)) :
    result = 0 ∧ after = initFreeList image.base heap ∧
      afterMachine = machine := by
  rw [kmalloc, if_neg (Nat.ne_of_gt positive)] at returned
  rcases kmallocSearch_lap invariant returned with
    ⟨prevp, prevFree, fits, _⟩ |
      ⟨_, rest, p, grown, middle, acquired, continued⟩
  · exact absurd (noneFits _ (invariant.core.ring.mem prevp prevFree))
      (Nat.not_lt_of_le fits)
  · rcases pfaAllocate_frames framesOk (growthPages_pos _)
      (growthPages_lt (requestUnits nbytes)) machine with none | ⟨_, taken⟩
    · simp only [acquireMoreHeap, Newbos.growth, pagingSource, none,
        if_true] at acquired
      cases acquired
      have same := (continued.resolve_right fun more => more.1 rfl).2
      cases same
      exact ⟨rfl, rfl, rfl⟩
    · exact absurd noFrames taken.notNull

/-- A request that fails leaves the free list, the bitmap and the kernel's
translations as they were exactly when `pfa_allocate` has no frames for the
growth and no free block is large enough. -/
theorem kmalloc_failure_traceless_iff {layout : Layout}
    (framesOk : layout.FramesOk) {image : KernelImage} {heap after : Heap}
    {free : Finset Nat} {live : List Nat} {machine afterMachine : Machine}
    {fuel nbytes : Nat}
    (invariant : HeapInv 0 image (initFreeList image.base heap) free live)
    (positive : 1 ≤ nbytes)
    (failed : kmalloc (pagingSource layout) image.base fuel nbytes heap
      machine = some (0, after, afterMachine)) :
    (SameFreeList free (initFreeList image.base heap) after ∧
        afterMachine.bits = machine.bits ∧
        ∀ vaddr, afterMachine.translate layout.kernelPdt vaddr =
          machine.translate layout.kernelPdt vaddr) ↔
      (pfaAllocate layout (growthPages (requestUnits nbytes)) machine).1 = 0 ∧
        NoneFits (requestUnits nbytes) (initFreeList image.base heap).mem
          free := by
  refine ⟨fun unchanged => ?_, fun refused => ?_⟩
  · rw [kmalloc, if_neg (Nat.ne_of_gt positive)] at failed
    rcases kmallocSearch_lap invariant failed with
      ⟨prevp, prevFree, fits, took, _⟩ |
        ⟨noneFits, rest, p, grown, middle, acquired, continued⟩
    · have changes :=
        takeBlock_changes invariant prevFree (Nat.succ_pos _) fits
      rw [took] at changes
      obtain ⟨node, member, changed⟩ := changes
      exact absurd (unchanged.1.2 node member) changed
    · obtain ⟨outcome, growth, _⟩ := acquireMoreHeap_growth acquired
      refine ⟨?_, noneFits⟩
      by_contra found
      obtain ⟨frame, wasFree, notFree⟩ :=
        growth_takesFrame framesOk found growth
      rw [← FreeFrame.congr unchanged.2.1] at wasFree
      rcases continued with ⟨_, same⟩ | ⟨_, search⟩
      · cases same
        exact notFree wasFree
      · exact notFree (kmallocSearch_freesNone framesOk search frame wasFree)
  · obtain ⟨_, rfl, rfl⟩ := kmalloc_refused framesOk invariant positive
      refused.1 refused.2 failed
    exact ⟨⟨rfl, fun _ _ => rfl⟩, rfl, fun _ => rfl⟩

/-- A request on an unused heap over an exhausted bitmap. -/
theorem kmalloc_failure_traceless_iff_noFrames :
    ∃ after afterMachine,
      kmalloc (pagingSource twoFrameLayout) oneMegabyteImage.base 8 1
          (Heap.initial fun _ => ⟨0, 0⟩)
          { blankMachine with bits := fun _ => 0#32 } =
        some (0, after, afterMachine) ∧
      afterMachine.bits = fun _ => 0#32 := by
  obtain ⟨invariant, noneFits⟩ : HeapInv 0 oneMegabyteImage
      (initFreeList oneMegabyteImage.base (Heap.initial fun _ => ⟨0, 0⟩))
      {oneMegabyteImage.base} [] ∧
    NoneFits (requestUnits 1) (initFreeList oneMegabyteImage.base
      (Heap.initial fun _ => ⟨0, 0⟩)).mem {oneMegabyteImage.base} := by
    refine ⟨initFreeList_inv 0 oneMegabyteImage rfl rfl, ?_⟩
    intro node member
    rw [Finset.mem_singleton.mp member]
    decide
  have failed : kmalloc (pagingSource twoFrameLayout) oneMegabyteImage.base 8
      1 (Heap.initial fun _ => ⟨0, 0⟩)
      { blankMachine with bits := fun _ => 0#32 } =
    some (0, initFreeList oneMegabyteImage.base
        (Heap.initial fun _ => ⟨0, 0⟩),
      { blankMachine with bits := fun _ => 0#32 }) := rfl
  have unchanged := (kmalloc_failure_traceless_iff twoFrameLayout_framesOk
    invariant (by decide) failed).mpr ⟨rfl, noneFits⟩
  exact ⟨_, _, failed, unchanged.2.1⟩

/-- The kernel's table has no room for two more pages, and the frames of the
growth were the last ones, so that no further table can be opened: the request
fails and keeps both frames. -/
theorem kmalloc_failure_leaks :
    HeapInv 0 oneMegabyteImage
        (initFreeList oneMegabyteImage.base (Heap.initial fun _ => ⟨0, 0⟩))
        {oneMegabyteImage.base} [] ∧
      ∃ after afterMachine,
        kmalloc (pagingSource twoFrameLayout) oneMegabyteImage.base 8 1
            (Heap.initial fun _ => ⟨0, 0⟩)
            (bootMachine twoFrameLayout 1023) =
          some (0, after, afterMachine) ∧
        (bootMachine twoFrameLayout 1023).bits 0 = 0xFFFFFFFF#32 ∧
        afterMachine.bits 0 = 0x3FFFFFFF#32 := by
  refine ⟨initFreeList_inv 0 oneMegabyteImage rfl rfl, ?_⟩
  have evaluated : (kmalloc (pagingSource twoFrameLayout)
      oneMegabyteImage.base 8 1 (Heap.initial fun _ => ⟨0, 0⟩)
      (bootMachine twoFrameLayout 1023)).map (fun outcome =>
        (outcome.1, outcome.2.2.bits 0)) = some (0, 0x3FFFFFFF#32) := by
    decide +kernel
  obtain ⟨⟨result, after, afterMachine⟩, outcome, same⟩ :=
    Option.map_eq_some_iff.mp evaluated
  obtain ⟨rfl, taken⟩ : result = 0 ∧ afterMachine.bits 0 = 0x3FFFFFFF#32 :=
    Prod.mk.inj same
  exact ⟨after, afterMachine, outcome, rfl, taken⟩

end Newbos
