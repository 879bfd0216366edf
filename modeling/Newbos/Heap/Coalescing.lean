import Newbos.Heap.Safety
import Newbos.Library.Interval

/-!
# Coalescing

The free blocks of a tracked heap are the maximal intervals of what the live
blocks leave of the acquired ranges.  Which blocks they are therefore does not
depend on the order in which live blocks were freed.
-/

namespace Newbos

/-- Address and size of every block on the list reached from `freep`. -/
def freeBlocks (heap : Heap) : Set (Nat × Nat) :=
  { block | heap.freep ≠ 0 ∧
    (∃ steps, (fun address => (heap.mem address).next)^[steps] heap.freep =
      block.1) ∧
    (heap.mem block.1).size = block.2 }

/-- Free the given pointers one after the other. -/
def kfreeAll (fuel : Nat) : List Nat → Heap → Option Heap
  | [], heap => some heap
  | ap :: rest, heap =>
      match kfree fuel ap heap with
      | none => none
      | some after => kfreeAll fuel rest after

/-- Acquired, and not part of a live block. -/
def Unallocated (heap : Heap) (live : List Nat) (address : Nat) : Prop :=
  InRanges heap.ranges address ∧
    ¬∃ ap ∈ live, headerOf ap ≤ address ∧
      address < blockEnd heap.mem (headerOf ap)

section Tracked

variable {image : KernelImage} {heap : Heap} {free : Finset Nat}
  {live : List Nat}

theorem HeapTracked.mem_freeBlocks (tracked : HeapTracked image heap free live)
    (rangesOk : RangesOk image heap.ranges) {address size : Nat} :
    (address, size) ∈ freeBlocks heap ↔
      address ∈ free ∧ (heap.mem address).size = size := by
  have ring := tracked.invariant.core.ring
  have freepFree := tracked.invariant.freepFree
  have notNull := tracked.invariant.core.free_bounds rangesOk freepFree
  constructor
  · rintro ⟨_, ⟨steps, reached⟩, sized⟩
    refine ⟨?_, sized⟩
    simp only at reached
    rw [← reached]
    exact ring.iterate_mem freepFree steps
  · rintro ⟨member, sized⟩
    obtain ⟨steps, _, reached⟩ := ring.exists_iterate freepFree member
    exact ⟨by omega, ⟨steps, reached⟩, sized⟩

theorem HeapTracked.separated (tracked : HeapTracked image heap free live)
    (rangesOk : RangesOk image heap.ranges) :
    Separated { address | address ∈ free ∧ address ≠ image.base }
      (blockEnd heap.mem) := by
  have core := tracked.invariant.core
  constructor
  · rintro address ⟨member, notBase⟩
    have positive := core.sizePos address (Or.inl ⟨member, notBase⟩)
    simp only [blockEnd, headerSize]
    omega
  · rintro first ⟨firstFree, firstNotBase⟩ second ⟨secondFree, secondNotBase⟩
      different
    have apart := core.disjoint first second
      (Or.inl ⟨firstFree, firstNotBase⟩)
      (Or.inl ⟨secondFree, secondNotBase⟩) different
    have firstGap := tracked.invariant.not_adjacent rangesOk firstFree
      firstNotBase secondFree
    have secondGap := tracked.invariant.not_adjacent rangesOk secondFree
      secondNotBase firstFree
    omega

theorem HeapTracked.unallocated_iff
    (tracked : HeapTracked image heap free live) (address : Nat) :
    (∃ block ∈ { block | block ∈ free ∧ block ≠ image.base },
        block ≤ address ∧ address < blockEnd heap.mem block) ↔
      Unallocated heap live address := by
  have core := tracked.invariant.core
  rw [Unallocated, ← core.cover address]
  constructor
  · rintro ⟨block, isFree, lower, upper⟩
    refine ⟨⟨block, Or.inl isFree, lower, upper⟩, ?_⟩
    rintro ⟨ap, isLive, liveLower, liveUpper⟩
    have header : headerOf ap ∈ live.map headerOf :=
      List.mem_map_of_mem isLive
    have different : block ≠ headerOf ap := fun same =>
      core.liveNotFree _ header (same ▸ isFree.1)
    have apart := core.disjoint block (headerOf ap) (Or.inl isFree)
      (Or.inr header) different
    omega
  · rintro ⟨⟨block, isFree | isLive, lower, upper⟩, notLive⟩
    · exact ⟨block, isFree, lower, upper⟩
    · obtain ⟨ap, member, rfl⟩ := List.mem_map.mp isLive
      exact absurd ⟨ap, member, lower, upper⟩ notLive

/-- The free blocks are `base` and the maximal unallocated intervals. -/
theorem HeapTracked.freeBlocks_eq (tracked : HeapTracked image heap free live)
    (rangesOk : RangesOk image heap.ranges) :
    freeBlocks heap = { block | block = (image.base, 0) ∨
      MaximalInterval (Unallocated heap live) block.1
        (block.1 + headerSize * block.2) } := by
  have baseFree := tracked.invariant.core.baseFree
  have baseSize := tracked.invariant.core.baseSize
  have intervals := tracked.separated rangesOk
  ext ⟨address, size⟩
  rw [tracked.mem_freeBlocks rangesOk]
  simp only [Set.mem_ofPred_eq, Prod.mk.injEq]
  rw [← MaximalInterval.congr tracked.unallocated_iff, ← intervals.mem_iff]
  simp only [Set.mem_ofPred_eq, blockEnd, headerSize]
  constructor
  · rintro ⟨member, sized⟩
    by_cases isBase : address = image.base
    · subst isBase
      exact Or.inl ⟨rfl, sized.symm.trans baseSize⟩
    · exact Or.inr ⟨⟨member, isBase⟩, by omega⟩
  · rintro (⟨rfl, rfl⟩ | ⟨⟨member, _⟩, sized⟩)
    · exact ⟨baseFree, baseSize⟩
    · exact ⟨member, by omega⟩

theorem kfreeAll_tracked {fuel : Nat} :
    ∀ {order : List Nat} {heap : Heap} {free : Finset Nat} {live : List Nat},
      HeapTracked image heap free live → RangesOk image heap.ranges →
      order.Nodup → (∀ ap ∈ order, ap ∈ live) →
      free.card + order.length ≤ fuel →
      ∃ after freeAfter, kfreeAll fuel order heap = some after ∧
        HeapTracked image after freeAfter (live.diff order) ∧
        after.ranges = heap.ranges ∧
        ∀ ap ∈ live.diff order,
          after.mem (headerOf ap) = heap.mem (headerOf ap) := by
  intro order
  induction order with
  | nil =>
      intro heap free live tracked _ _ _ _
      exact ⟨heap, free, rfl, by simpa using tracked, rfl, fun _ _ => rfl⟩
  | cons ap rest induction =>
      intro heap free live tracked rangesOk nodup subset enough
      obtain ⟨fresh, restNodup⟩ := List.nodup_cons.mp nodup
      have isLive := subset ap (List.mem_cons_self ..)
      have header : headerOf ap ∈ live.map headerOf :=
        List.mem_map_of_mem isLive
      have liveNodup : live.Nodup :=
        tracked.invariant.core.liveNodup.of_map headerOf
      simp only [List.length_cons] at enough
      obtain ⟨middle, freeing⟩ := kfree_total tracked.invariant rangesOk
        header (show free.card ≤ fuel by omega)
      rw [tracked.pointers ap isLive] at freeing
      obtain ⟨freeMiddle, trackedMiddle, others, card⟩ :=
        kfree_tracked tracked rangesOk isLive freeing
      have ranges := kfree_ranges freeing
      have restLive : ∀ other ∈ rest, other ∈ live.erase ap := by
        intro other member
        refine (List.mem_erase_of_ne ?_).mpr
          (subset other (List.mem_cons_of_mem _ member))
        rintro rfl
        exact fresh member
      obtain ⟨after, freeAfter, freed, trackedAfter, rangesAfter, kept⟩ :=
        induction trackedMiddle (by rw [ranges]; exact rangesOk) restNodup
          restLive (by omega)
      refine ⟨after, freeAfter, ?_, ?_, rangesAfter.trans ranges, ?_⟩
      · simp only [kfreeAll, freeing, freed]
      · rw [List.diff_cons]
        exact trackedAfter
      · intro other member
        rw [List.diff_cons] at member
        have inErase := (List.diff_sublist _ _).subset member
        obtain ⟨different, wasLive⟩ := liveNodup.mem_erase_iff.mp inErase
        rw [kept other member, others other wasLive different]

end Tracked

theorem HeapUnused.freeBlocks_eq {heap : Heap} {live : List Nat}
    (unused : HeapUnused heap live) : freeBlocks heap = ∅ := by
  ext block
  simp [freeBlocks, unused.freep]

section Runs

variable {σ : Type} {source : PageSource σ} {image : KernelImage}
  {mem : Nat → Header} {start : σ} {calls : List HeapCall} {heap : Heap}
  {state : σ} {live : List Nat}

theorem kfreeAll_freeBlocks {free : Finset Nat}
    (tracked : HeapTracked image heap free live)
    (rangesOk : RangesOk image heap.ranges) {fuel : Nat} {order : List Nat}
    (nodup : order.Nodup) (subset : ∀ ap ∈ order, ap ∈ live)
    (enough : free.card + order.length ≤ fuel) :
    ∃ after, kfreeAll fuel order heap = some after ∧
      freeBlocks after = { block | block = (image.base, 0) ∨
        MaximalInterval (Unallocated heap (live.diff order)) block.1
          (block.1 + headerSize * block.2) } := by
  obtain ⟨after, freeAfter, freed, trackedAfter, ranges, kept⟩ :=
    kfreeAll_tracked tracked rangesOk nodup subset enough
  refine ⟨after, freed, ?_⟩
  rw [trackedAfter.freeBlocks_eq (by rw [ranges]; exact rangesOk)]
  have same : ∀ address, Unallocated after (live.diff order) address ↔
      Unallocated heap (live.diff order) address := by
    intro address
    unfold Unallocated
    rw [ranges]
    have sameEnds : ∀ ap ∈ live.diff order,
        blockEnd after.mem (headerOf ap) =
          blockEnd heap.mem (headerOf ap) := by
      intro ap member
      rw [blockEnd, kept ap member, blockEnd]
    refine and_congr_right fun _ => not_congr (exists_congr fun ap => ?_)
    refine and_congr_right fun member => ?_
    rw [sameEnds ap member]
  simp only [MaximalInterval.congr same]

/-- In every reachable state no two free blocks touch, freeing any live blocks
in any two orders gives the same free blocks, and freeing all of them leaves
one block for each maximal union of acquired ranges, and `base` as soon as
there is a free list. -/
theorem heap_coalescing
    (run : HeapRun source image mem start calls heap state live) :
    (∀ lower ∈ freeBlocks heap, ∀ upper ∈ freeBlocks heap,
      lower.1 ≠ upper.1 → lower.1 + headerSize * lower.2 ≠ upper.1) ∧
    (∀ first second : List Nat, first.Perm second → first.Nodup →
      (∀ ap ∈ first, ap ∈ live) →
      ∃ bound, ∀ fuel, bound ≤ fuel → ∃ firstAfter secondAfter,
        kfreeAll fuel first heap = some firstAfter ∧
        kfreeAll fuel second heap = some secondAfter ∧
        freeBlocks firstAfter = freeBlocks secondAfter) ∧
    (∀ order : List Nat, order.Perm live →
      ∃ bound, ∀ fuel, bound ≤ fuel → ∃ after,
        kfreeAll fuel order heap = some after ∧
        freeBlocks after = { block |
          Requested calls ∧ block = (image.base, 0) ∨
          MaximalInterval (InRanges heap.ranges) block.1
            (block.1 + headerSize * block.2) }) := by
  obtain ⟨rangesOk, ⟨unrequested, unused⟩ | ⟨requested, free, tracked⟩⟩ :=
    run.invariant
  · have noBlocks := unused.freeBlocks_eq
    refine ⟨by simp [noBlocks], ?_, ?_⟩
    · intro first second order _ subset
      have firstNil : first = [] := by
        rw [unused.live] at subset
        exact List.eq_nil_iff_forall_not_mem.mpr fun ap member =>
          List.not_mem_nil (subset ap member)
      subst firstNil
      obtain rfl := List.nil_perm.mp order
      exact ⟨0, fun fuel _ => ⟨heap, heap, rfl, rfl, rfl⟩⟩
    · intro order same
      rw [unused.live] at same
      obtain rfl := List.perm_nil.mp same
      refine ⟨0, fun fuel _ => ⟨heap, rfl, ?_⟩⟩
      rw [noBlocks, unused.ranges]
      ext block
      simp only [Set.mem_empty_iff_false, Set.mem_ofPred_eq, unrequested,
        false_and, false_or, false_iff]
      intro maximal
      have covered := maximal.inside block.1 (Nat.le_refl _) maximal.nonempty
      simp [InRanges] at covered
  · have liveNodup : live.Nodup :=
      tracked.invariant.core.liveNodup.of_map headerOf
    refine ⟨?_, ?_, ?_⟩
    · rintro ⟨lower, lowerSize⟩ lowerMember ⟨upper, upperSize⟩ upperMember
        different
      obtain ⟨lowerFree, rfl⟩ :=
        (tracked.mem_freeBlocks rangesOk).mp lowerMember
      obtain ⟨upperFree, _⟩ :=
        (tracked.mem_freeBlocks rangesOk).mp upperMember
      by_cases isBase : lower = image.base
      · subst isBase
        simpa only [tracked.invariant.core.baseSize, Nat.mul_zero,
          Nat.add_zero] using different
      · exact tracked.invariant.not_adjacent rangesOk lowerFree isBase
          upperFree
    · intro first second order nodup subset
      refine ⟨free.card + first.length, fun fuel enough => ?_⟩
      obtain ⟨firstAfter, firstFreed, firstBlocks⟩ :=
        kfreeAll_freeBlocks tracked rangesOk nodup subset enough
      have secondEnough : free.card + second.length ≤ fuel := by
        rw [← order.length_eq]
        exact enough
      obtain ⟨secondAfter, secondFreed, secondBlocks⟩ :=
        kfreeAll_freeBlocks tracked rangesOk (order.nodup_iff.mp nodup)
          (fun ap member => subset ap (order.mem_iff.mpr member))
          secondEnough
      refine ⟨firstAfter, secondAfter, firstFreed, secondFreed, ?_⟩
      rw [firstBlocks, secondBlocks, order.diff_left]
    · intro order same
      refine ⟨free.card + order.length, fun fuel enough => ?_⟩
      obtain ⟨after, freed, blocks⟩ :=
        kfreeAll_freeBlocks tracked rangesOk (same.nodup_iff.mpr liveNodup)
          (fun ap member => same.mem_iff.mp member) enough
      refine ⟨after, freed, ?_⟩
      have nothingLive : live.diff order = [] := by
        rw [same.diff_left]
        refine List.eq_nil_iff_forall_not_mem.mpr fun ap member => ?_
        obtain ⟨isLive, notLive⟩ := liveNodup.mem_sdiff_iff.mp member
        exact notLive isLive
      rw [blocks, nothingLive]
      have whole : ∀ address, Unallocated heap [] address ↔
          InRanges heap.ranges address := by
        simp [Unallocated]
      simp only [MaximalInterval.congr whole, requested, true_and]

end Runs

theorem heap_coalescing_twoRequests :
    ∃ heap,
      HeapRun ascendingSource oneMegabyteImage (fun _ => ⟨0, 0⟩) 3225419776
        [.kmalloc 200, .kmalloc 100] heap 3225427968
        [3225427656, 3225427864] ∧
      ∃ bound, ∀ fuel, bound ≤ fuel → ∃ upwards downwards,
        kfreeAll fuel [3225427656, 3225427864] heap = some upwards ∧
        kfreeAll fuel [3225427864, 3225427656] heap = some downwards ∧
        freeBlocks upwards = freeBlocks downwards ∧
        freeBlocks upwards = { block |
          Requested [.kmalloc 200, .kmalloc 100] ∧
              block = (oneMegabyteImage.base, 0) ∨
            MaximalInterval (InRanges heap.ranges) block.1
              (block.1 + headerSize * block.2) } := by
  have first := @HeapRun.kmalloc _ ascendingSource oneMegabyteImage
    (fun _ => ⟨0, 0⟩) 3225419776 [] _ _ [] 8 100 3225427864 _ 3225427968
    .start (by decide) rfl oneRange_ok
  have both := @HeapRun.kmalloc _ ascendingSource oneMegabyteImage
    (fun _ => ⟨0, 0⟩) 3225419776 _ _ _ _ 8 200 3225427656 _ 3225427968
    first (by decide) rfl oneRange_ok
  obtain ⟨_, anyOrder, all⟩ := heap_coalescing both
  obtain ⟨orders, sameBlocks⟩ := anyOrder [3225427656, 3225427864]
    [3225427864, 3225427656] (.swap ..) (by decide) (fun _ member => member)
  obtain ⟨bound, leaves⟩ := all [3225427656, 3225427864] (.refl _)
  refine ⟨_, both, orders + bound, fun fuel enough => ?_⟩
  obtain ⟨upwards, downwards, freed, otherFreed, same⟩ :=
    sameBlocks fuel (by omega)
  obtain ⟨after, freedAll, blocks⟩ := leaves fuel (by omega)
  cases freed.symm.trans freedAll
  exact ⟨upwards, downwards, freed, otherFreed, same, blocks⟩

/-- With nothing requested there is no free list, so freeing everything does
not leave `base`. -/
theorem heap_unused_leaves_no_base :
    HeapRun ascendingSource oneMegabyteImage (fun _ => ⟨0, 0⟩) 3225419776 []
        (Heap.initial fun _ => ⟨0, 0⟩) 3225419776 [] ∧
      kfreeAll 0 [] (Heap.initial fun _ => ⟨0, 0⟩) =
        some (Heap.initial fun _ => ⟨0, 0⟩) ∧
      freeBlocks (Heap.initial fun _ => ⟨0, 0⟩) ≠ { block |
        block = (oneMegabyteImage.base, 0) ∨
        MaximalInterval (InRanges (Heap.initial fun _ => ⟨0, 0⟩).ranges)
          block.1 (block.1 + headerSize * block.2) } := by
  refine ⟨.start, rfl, ?_⟩
  intro same
  have member : (oneMegabyteImage.base, 0) ∈
      freeBlocks (Heap.initial fun _ => ⟨0, 0⟩) := by
    rw [same]
    exact Or.inl rfl
  exact member.1 rfl

end Newbos
