import Newbos.Heap.Allocation

/-!
# Safety of the heap over whole runs

A run is any sequence of `kmalloc` and `kfree` calls in which `kfree` is given
a null pointer or a live result.  Every state of a run that has made one
allocation request has a sound free list and exact coverage.
-/

namespace Newbos

inductive HeapCall where
  | kmalloc (nbytes : Nat)
  | kfree (ap : Nat)
  deriving DecidableEq, Repr

/-- The heap and the live results after a list of calls, newest first.  The
page source may answer as it likes as long as the ranges it grants are
fresh. -/
inductive HeapRun {σ : Type} (source : PageSource σ) (image : KernelImage)
    (mem : Nat → Header) (start : σ) :
    List HeapCall → Heap → σ → List Nat → Prop where
  | start : HeapRun source image mem start [] (Heap.initial mem) start []
  | kmalloc {calls heap state live fuel nbytes result after stateAfter} :
      HeapRun source image mem start calls heap state live →
      nbytes ≤ 4294967288 →
      kmalloc source image.base fuel nbytes heap state =
        some (result, after, stateAfter) →
      RangesOk image after.ranges →
      HeapRun source image mem start (.kmalloc nbytes :: calls) after
        stateAfter (if result = 0 then live else result :: live)
  | kfree {calls heap state live fuel ap after} :
      HeapRun source image mem start calls heap state live →
      ap = 0 ∨ ap ∈ live →
      kfree fuel ap heap = some after →
      HeapRun source image mem start (.kfree ap :: calls) after state
        (live.erase ap)

/-- `(header_t *)ap - 1`. -/
def headerOf (ap : Nat) : Nat :=
  sub32 ap headerSize

/-- The list reached from `freep` is a finite ring with `base` on it once and
one descent. -/
structure FreeListOk (base : Nat) (heap : Heap) (free : Finset Nat) :
    Prop where
  nodup : (ringWalk (fun address => (heap.mem address).next) heap.freep
    free.card).Nodup
  visits : ∀ node, node ∈ ringWalk (fun address => (heap.mem address).next)
    heap.freep free.card ↔ node ∈ free
  circular : (fun address => (heap.mem address).next)^[free.card]
    heap.freep = heap.freep
  oneDescent : ∃! node, node ∈ free ∧ (heap.mem node).next ≤ node
  baseFree : base ∈ free
  baseSize : (heap.mem base).size = 0

/-- Free and live blocks are disjoint and cover the acquired ranges. -/
structure BlocksTile (base : Nat) (heap : Heap) (free : Finset Nat)
    (live : List Nat) : Prop where
  liveNodup : (live.map headerOf).Nodup
  notBoth : ∀ address ∈ live.map headerOf, address ∉ free
  disjoint : ∀ first second, IsBlock base free (live.map headerOf) first →
    IsBlock base free (live.map headerOf) second → first ≠ second →
    blockEnd heap.mem first ≤ second ∨ blockEnd heap.mem second ≤ first
  cover : ∀ address,
    (∃ block, IsBlock base free (live.map headerOf) block ∧
        block ≤ address ∧ address < blockEnd heap.mem block) ↔
      InRanges heap.ranges address

/-- The invariant, over the pointers that callers hold. -/
structure HeapTracked (image : KernelImage) (heap : Heap) (free : Finset Nat)
    (live : List Nat) : Prop where
  invariant : HeapInv 2 image heap free (live.map headerOf)
  pointers : ∀ ap ∈ live, headerAdd (headerOf ap) 1 = ap

theorem HeapInv.freeListOk {least : Nat} {image : KernelImage} {heap : Heap}
    {free : Finset Nat} {live : List Nat}
    (invariant : HeapInv least image heap free live) :
    FreeListOk image.base heap free := by
  obtain ⟨nodup, visits, circular, oneDescent⟩ :=
    invariant.core.ring.lap invariant.freepFree
  exact
    { nodup := nodup
      visits := visits
      circular := circular
      oneDescent := oneDescent
      baseFree := invariant.core.baseFree
      baseSize := invariant.core.baseSize }

theorem HeapTracked.blocksTile {image : KernelImage} {heap : Heap}
    {free : Finset Nat} {live : List Nat}
    (tracked : HeapTracked image heap free live) :
    BlocksTile image.base heap free live where
  liveNodup := tracked.invariant.core.liveNodup
  notBoth := tracked.invariant.core.liveNotFree
  disjoint := tracked.invariant.core.disjoint
  cover := tracked.invariant.core.cover

section Steps

variable {σ : Type} {source : PageSource σ} {image : KernelImage}
  {heap after : Heap} {free : Finset Nat} {live : List Nat}
  {state stateAfter : σ} {fuel : Nat}

/-- The first allocation request builds a list of `base` alone. -/
theorem initFreeList_inv (least : Nat) (image : KernelImage) {heap : Heap}
    (unused : heap.freep = 0) (noRanges : heap.ranges = []) :
    HeapInv least image (initFreeList image.base heap) {image.base} [] := by
  have noBlock : ∀ address, ¬IsBlock image.base {image.base} [] address := by
    simp [IsBlock]
  rw [initFreeList, if_pos unused]
  constructor
  · constructor
    · constructor
      · intro node member
        rw [Finset.mem_singleton] at member
        simp [member, setSize, setNext]
      · intro node member
        rw [Finset.mem_singleton] at member
        simp [member, setSize, setNext]
    · exact Finset.mem_singleton_self _
    · simp [setSize]
    · exact fun address isBlock => absurd isBlock (noBlock address)
    · exact List.nodup_nil
    · simp
    · exact fun first _ isBlock => absurd isBlock (noBlock first)
    · intro address
      simp [noBlock, InRanges, noRanges]
    · simp [noRanges]
  · exact Finset.mem_singleton_self _
  · intro address member notBase
    exact absurd (Finset.mem_singleton.mp member) notBase
  · simp

theorem initFreeList_of_ne {base : Nat} (used : heap.freep ≠ 0) :
    initFreeList base heap = heap := by
  rw [initFreeList, if_neg used]

theorem initFreeList_ranges (base : Nat) (heap : Heap) :
    (initFreeList base heap).ranges = heap.ranges := by
  unfold initFreeList
  split_ifs <;> rfl

/-- The units asked for leave room behind the header unless the rounding
wraps. -/
theorem kmalloc_units {nbytes : Nat} (positive : nbytes ≠ 0)
    (small : nbytes ≤ 4294967288) :
    2 ≤ w32 (nbytes + headerSize - 1) / headerSize + 1 := by
  simp only [headerSize, w32]
  omega

theorem kmalloc_outcome {least : Nat}
    (invariant : HeapInv least image (initFreeList image.base heap) free live)
    {nbytes result : Nat} (positive : nbytes ≠ 0)
    (large : least ≤ w32 (nbytes + headerSize - 1) / headerSize + 1)
    (success : kmalloc source image.base fuel nbytes heap state =
      some (result, after, stateAfter))
    (rangesOk : RangesOk image after.ranges) :
    KmallocOutcome least image source
      (w32 (nbytes + headerSize - 1) / headerSize + 1)
      (initFreeList image.base heap) free live state result after
      stateAfter := by
  simp only [kmalloc, if_neg positive] at success
  refine kmallocSearch_outcome invariant (Nat.succ_pos _) large ?_ success
    rangesOk
  simp only [headerSize, w32]
  omega

theorem kmalloc_tracked
    (ready : HeapTracked image (initFreeList image.base heap) free live)
    {nbytes result : Nat} (positive : nbytes ≠ 0)
    (small : nbytes ≤ 4294967288)
    (success : kmalloc source image.base fuel nbytes heap state =
      some (result, after, stateAfter))
    (rangesOk : RangesOk image after.ranges) :
    ∃ freeAfter, HeapTracked image after freeAfter
      (if result = 0 then live else result :: live) := by
  have outcome := kmalloc_outcome ready.invariant positive
    (kmalloc_units positive small) success rangesOk
  have tookBlock {freeAfter : Finset Nat} {block : Nat}
      (kmalloced : Kmalloced 2 image (live.map headerOf)
        (w32 (nbytes + headerSize - 1) / headerSize + 1) result after
        freeAfter block) :
      ∃ freeAfter, HeapTracked image after freeAfter
        (if result = 0 then live else result :: live) := by
    obtain ⟨notNull, header⟩ := kmalloced.invariant.user_pointer rangesOk
      (List.mem_cons_self ..)
    rw [← kmalloced.result] at notNull header
    rw [if_neg notNull]
    refine ⟨freeAfter, ?_, ?_⟩
    · rw [List.map_cons, headerOf, header]
      exact kmalloced.invariant
    · intro ap member
      rcases List.mem_cons.mp member with rfl | older
      · rw [headerOf, header, kmalloced.result]
      · exact ready.pointers ap older
  cases outcome with
  | taken _ _ _ _ kmalloced => exact tookBlock kmalloced
  | refused _ _ isNull unchanged =>
      rw [if_pos isNull, unchanged]
      exact ⟨free, ready⟩
  | grown _ _ kmalloced => exact tookBlock kmalloced

theorem map_headerOf_erase {ap : Nat} (nodup : (live.map headerOf).Nodup)
    (member : ap ∈ live) :
    (live.erase ap).map headerOf =
      (live.map headerOf).erase (headerOf ap) := by
  induction live with
  | nil => cases member
  | cons first rest induction =>
      obtain ⟨fresh, restNodup⟩ := List.nodup_cons.mp nodup
      by_cases same : first = ap
      · subst same
        simp
      · have inRest : ap ∈ rest :=
          (List.mem_cons.mp member).resolve_left fun equal => same equal.symm
        have notSame : headerOf first ≠ headerOf ap := fun equal =>
          fresh (equal ▸ List.mem_map_of_mem inRest)
        rw [List.erase_cons_tail (by simpa using same), List.map_cons,
          List.map_cons, List.erase_cons_tail (by simpa using notSame),
          induction restNodup inRest]

theorem kfree_tracked (tracked : HeapTracked image heap free live)
    (rangesOk : RangesOk image heap.ranges) {ap : Nat} (isLive : ap ∈ live)
    (success : kfree fuel ap heap = some after) :
    ∃ freeAfter, HeapTracked image after freeAfter (live.erase ap) ∧
      (∀ other ∈ live, other ≠ ap →
        after.mem (headerOf other) = heap.mem (headerOf other)) ∧
      freeAfter.card ≤ free.card + 1 := by
  have header : headerOf ap ∈ live.map headerOf := List.mem_map_of_mem isLive
  rw [← tracked.pointers ap isLive] at success
  have notNull := (tracked.invariant.user_pointer rangesOk header).1
  obtain ⟨freeAfter, released⟩ :=
    kfree_spec tracked.invariant rangesOk header notNull success
  refine ⟨freeAfter, ⟨?_, ?_⟩, ?_, released.card⟩
  · rw [map_headerOf_erase tracked.invariant.core.liveNodup isLive]
    exact released.invariant
  · exact fun other member =>
      tracked.pointers other (List.mem_of_mem_erase member)
  · intro other member different
    refine released.others _ (List.mem_map_of_mem member) ?_
    intro same
    refine different ?_
    rw [← tracked.pointers other member, same, tracked.pointers ap isLive]

theorem kmalloc_total {least : Nat}
    (invariant : HeapInv least image (initFreeList image.base heap) free live)
    (rangesOk : RangesOk image heap.ranges) {nbytes : Nat}
    (positive : nbytes ≠ 0)
    (large : least ≤ w32 (nbytes + headerSize - 1) / headerSize + 1)
    (growthOk : GrowthOk image source
      (w32 (nbytes + headerSize - 1) / headerSize + 1) heap state)
    (enough : 2 * free.card + 3 ≤ fuel) :
    Returns image (kmalloc source image.base fuel nbytes heap state) := by
  have freepFree := invariant.freepFree
  obtain ⟨steps, bound, reached⟩ :=
    invariant.core.ring.exists_iterate
      (invariant.core.ring.mem _ freepFree) freepFree
  rw [GrowthOk, ← initFreeList_ranges image.base] at growthOk
  rw [← initFreeList_ranges image.base] at rangesOk
  have inRange : w32 (nbytes + headerSize - 1) / headerSize + 1 ≤
      536870912 := by
    simp only [headerSize, w32]
    omega
  rw [kmalloc, if_neg positive]
  exact kmallocSearch_total invariant rangesOk large inRange growthOk
    (by omega) reached

end Steps

/-! ## The heap determines its live blocks -/

section Unique

variable {image : KernelImage} {mem : Nat → Header} {ranges : List HeapRange}
  {heap : Heap} {free otherFree : Finset Nat} {live otherLive : List Nat}

end Unique

section Runs

variable {σ : Type} {source : PageSource σ} {image : KernelImage}
  {mem : Nat → Header} {start : σ} {calls : List HeapCall} {heap : Heap}
  {state : σ} {live : List Nat}

/-- Some call asked for at least one byte. -/
def Requested (calls : List HeapCall) : Prop :=
  ∃ nbytes, 1 ≤ nbytes ∧ .kmalloc nbytes ∈ calls

/-- The heap before the first request. -/
structure HeapUnused (heap : Heap) (live : List Nat) : Prop where
  freep : heap.freep = 0
  ranges : heap.ranges = []
  live : live = []

theorem HeapUnused.ready (unused : HeapUnused heap live) :
    HeapTracked image (initFreeList image.base heap) {image.base} live := by
  refine ⟨?_, ?_⟩
  · rw [unused.live]
    exact initFreeList_inv 2 image unused.freep unused.ranges
  · rw [unused.live]
    simp

theorem HeapTracked.ready {free : Finset Nat}
    (tracked : HeapTracked image heap free live)
    (rangesOk : RangesOk image heap.ranges) :
    HeapTracked image (initFreeList image.base heap) free live := by
  have bounds := tracked.invariant.core.free_bounds rangesOk
    tracked.invariant.freepFree
  rwa [initFreeList_of_ne (by omega)]

theorem HeapRun.invariant
    (run : HeapRun source image mem start calls heap state live) :
    RangesOk image heap.ranges ∧
      (¬Requested calls ∧ HeapUnused heap live ∨
        Requested calls ∧ ∃ free, HeapTracked image heap free live) := by
  induction run with
  | start =>
      refine ⟨⟨by simp [Heap.initial], by simp [Heap.initial]⟩, Or.inl ?_⟩
      exact ⟨by simp [Requested], rfl, rfl, rfl⟩
  | @kmalloc calls heap state live fuel nbytes result after stateAfter _
      small success rangesOk induction =>
      refine ⟨rangesOk, ?_⟩
      by_cases zero : nbytes = 0
      · subst zero
        simp only [Newbos.kmalloc, if_true] at success
        cases success
        have same : Requested (.kmalloc 0 :: calls) ↔ Requested calls := by
          simp only [Requested, List.mem_cons, HeapCall.kmalloc.injEq]
          constructor
          · rintro ⟨nbytes, positive, rfl | member⟩
            · omega
            · exact ⟨nbytes, positive, member⟩
          · rintro ⟨nbytes, positive, member⟩
            exact ⟨nbytes, positive, Or.inr member⟩
        rw [same]
        exact induction.2
      · refine Or.inr ⟨⟨nbytes, by omega, List.mem_cons_self ..⟩, ?_⟩
        obtain ⟨heapOk, ⟨_, unused⟩ | ⟨_, free, tracked⟩⟩ := induction
        · exact kmalloc_tracked unused.ready zero small success rangesOk
        · exact kmalloc_tracked (tracked.ready heapOk) zero small success
            rangesOk
  | @kfree calls heap state live fuel ap after _ allowed success
      induction =>
      have same : Requested (.kfree ap :: calls) ↔ Requested calls := by
        simp [Requested]
      rw [same]
      by_cases null : ap = 0
      · subst null
        simp only [Newbos.kfree, if_true] at success
        cases success
        refine ⟨induction.1, ?_⟩
        rcases induction.2 with ⟨unrequested, unused⟩ |
          ⟨requested, free, tracked⟩
        · refine Or.inl ⟨unrequested, unused.freep, unused.ranges, ?_⟩
          rw [unused.live]
          rfl
        · refine Or.inr ⟨requested, free, ?_⟩
          have absent : 0 ∉ live := by
            intro member
            have header := tracked.invariant.user_pointer induction.1
              (List.mem_map_of_mem member)
            exact header.1 (tracked.pointers 0 member)
          rwa [List.erase_of_not_mem absent]
      · have isLive := allowed.resolve_left null
        rw [kfree_ranges success]
        refine ⟨induction.1, ?_⟩
        rcases induction.2 with ⟨_, unused⟩ | ⟨requested, free, tracked⟩
        · rw [unused.live] at isLive
          cases isLive
        · obtain ⟨freeAfter, after, _⟩ :=
            kfree_tracked tracked induction.1 isLive success
          exact Or.inr ⟨requested, freeAfter, after⟩

/-- In every run, before the first request for at least one byte nothing has
been acquired; after it the free list is a ring through `base` with one
descent, and free and live blocks tile the acquired ranges.  Every further
call returns, as far as the page source does. -/
theorem heap_safety
    (run : HeapRun source image mem start calls heap state live) :
    (¬Requested calls →
      heap.freep = 0 ∧ heap.ranges = [] ∧ live = []) ∧
    (Requested calls → ∃ free, FreeListOk image.base heap free ∧
      BlocksTile image.base heap free live) ∧
    (∀ nbytes, nbytes ≤ 4294967288 →
      GrowthOk image source (w32 (nbytes + headerSize - 1) / headerSize + 1)
        heap state →
      ∃ bound, ∀ fuel, bound ≤ fuel → ∃ outcome,
        kmalloc source image.base fuel nbytes heap state = some outcome) ∧
    (∀ ap, ap = 0 ∨ ap ∈ live → ∃ bound, ∀ fuel, bound ≤ fuel →
      ∃ after, kfree fuel ap heap = some after) := by
  obtain ⟨rangesOk, cases_⟩ := run.invariant
  refine ⟨?_, ?_, ?_, ?_⟩
  · intro unrequested
    rcases cases_ with ⟨_, unused⟩ | ⟨requested, _⟩
    · exact ⟨unused.freep, unused.ranges, unused.live⟩
    · exact absurd requested unrequested
  · intro requested
    rcases cases_ with ⟨unrequested, _⟩ | ⟨_, free, tracked⟩
    · exact absurd requested unrequested
    · exact ⟨free, tracked.invariant.freeListOk, tracked.blocksTile⟩
  · intro nbytes small growthOk
    have ready : ∃ free, HeapTracked image (initFreeList image.base heap)
        free live := by
      rcases cases_ with ⟨_, unused⟩ | ⟨_, free, tracked⟩
      · exact ⟨_, unused.ready⟩
      · exact ⟨free, tracked.ready rangesOk⟩
    obtain ⟨free, ready⟩ := ready
    refine ⟨2 * free.card + 3, fun fuel enough => ?_⟩
    by_cases zero : nbytes = 0
    · exact ⟨_, if_pos zero⟩
    · obtain ⟨_, _, _, success, _⟩ := kmalloc_total ready.invariant rangesOk
        zero (kmalloc_units zero small) growthOk enough
      exact ⟨_, success⟩
  · rintro ap (rfl | isLive)
    · exact ⟨0, fun fuel _ => ⟨heap, by simp [kfree]⟩⟩
    · rcases cases_ with ⟨_, unused⟩ | ⟨_, free, tracked⟩
      · rw [unused.live] at isLive
        cases isLive
      · refine ⟨free.card, fun fuel enough => ?_⟩
        rw [← tracked.pointers ap isLive]
        exact kfree_total tracked.invariant rangesOk
          (List.mem_map_of_mem isLive) enough

end Runs

/-- A page source that never fails and hands out ascending addresses. -/
def ascendingSource : PageSource Nat where
  pfaAllocate := fun _ vaddr => (1048576, vaddr)
  findNextVaddr := fun _ vaddr => (vaddr, vaddr)
  mapKernelMemory := fun _ _ bytes _ _ vaddr =>
    some (bytes, vaddr + bytes)

/-- A one-megabyte image with `base` in the middle. -/
def oneMegabyteImage : KernelImage where
  start := 3222274048
  stop := 3223322624
  base := 3222798336
  startBeforeBase := by decide
  baseInside := by decide
  below := by decide

theorem oneRange_ok :
    RangesOk oneMegabyteImage [⟨3225419776, 1048576, 2⟩] where
  each := by
    intro range member
    rw [List.mem_singleton] at member
    subst member
    exact ⟨by decide, by decide, by decide⟩
  disjoint := List.pairwise_singleton _ _

theorem heap_safety_oneRequest :
    ∃ heap,
      HeapRun ascendingSource oneMegabyteImage (fun _ => ⟨0, 0⟩) 3225419776
        [.kmalloc 100] heap 3225427968 [3225427864] ∧
      ∃ free, FreeListOk oneMegabyteImage.base heap free ∧
        BlocksTile oneMegabyteImage.base heap free [3225427864] := by
  have run := @HeapRun.kmalloc _ ascendingSource oneMegabyteImage
    (fun _ => ⟨0, 0⟩) 3225419776 [] _ _ [] 8 100 3225427864 _ 3225427968
    .start (by decide) rfl oneRange_ok
  have requested : Requested [.kmalloc 100] :=
    ⟨100, by decide, List.mem_singleton_self _⟩
  exact ⟨_, run, (heap_safety run).2.1 requested⟩

/-- Before the first request there is no free list to speak of. -/
theorem heap_unused_has_no_base :
    ∃ heap,
      HeapRun ascendingSource oneMegabyteImage (fun _ => ⟨0, 0⟩) 3225419776
        [.kmalloc 0] heap 3225419776 [] ∧
      ¬∃ free, FreeListOk oneMegabyteImage.base heap free ∧
        BlocksTile oneMegabyteImage.base heap free [] := by
  refine ⟨Heap.initial fun _ => ⟨0, 0⟩, ?_, ?_⟩
  · exact @HeapRun.kmalloc _ ascendingSource oneMegabyteImage
      (fun _ => ⟨0, 0⟩) 3225419776 [] _ _ [] 0 0 0 _ _ .start (by decide) rfl
      ⟨by simp [Heap.initial], by simp [Heap.initial]⟩
  · rintro ⟨free, listOk, _⟩
    have reached := (listOk.visits oneMegabyteImage.base).mpr listOk.baseFree
    simp only [ringWalk, List.mem_map] at reached
    obtain ⟨steps, _, atBase⟩ := reached
    have stuck : (fun _ : Nat => 0)^[steps] 0 = 0 := by
      exact Function.iterate_fixed rfl steps
    have absurd_ : oneMegabyteImage.base = 0 := atBase.symm.trans stuck
    exact absurd absurd_ (by decide)

end Newbos
