import Newbos.Heap.Safety

/-!
# Requests of every size

`kmalloc` rounds a request up to header units modulo `2^32`, so that the
largest requests ask for one unit, which is no more than the header.  The free
list stays sound for all requests, and the loops end; a block of one unit at
the end of the address space is taken although its pointer is null.
-/

namespace Newbos

/-- `nunits`, as `kmalloc` computes it. -/
abbrev requestUnits (nbytes : Nat) : Nat :=
  w32 (nbytes + headerSize - 1) / headerSize + 1

section Size

variable {σ : Type} {source : PageSource σ} {image : KernelImage}
  {heap after : Heap} {free : Finset Nat} {live : List Nat}
  {state stateAfter : σ} {fuel : Nat}

theorem requestUnits_enough_iff {nbytes : Nat} (positive : 1 ≤ nbytes)
    (word : nbytes < 4294967296) :
    nbytes ≤ (requestUnits nbytes - 1) * headerSize ↔
      nbytes ≤ 4294967288 := by
  simp only [requestUnits, headerSize, w32]
  omega

/-- What growing the heap for a request keeps true, `kmalloc` keeps true. -/
theorem kmalloc_rule (inv : List HeapRange → σ → Prop) {nbytes : Nat}
    (step : ∀ {ranges state outcome stateAfter}, inv ranges state →
      growth source (requestUnits nbytes) state =
        some (outcome, stateAfter) →
      inv (ranges ++ outcome.toList) stateAfter)
    (holds : inv heap.ranges state) {base result : Nat}
    (success : kmalloc source base fuel nbytes heap state =
      some (result, after, stateAfter)) : inv after.ranges stateAfter := by
  rw [kmalloc] at success
  split_ifs at success
  · cases success
    exact holds
  · rw [← initFreeList_ranges base] at holds
    exact kmallocSearch_rule inv step holds success

theorem Kmalloced.block {least nunits result block : Nat}
    {freeAfter : Finset Nat}
    (kmalloced : Kmalloced least image live nunits result after freeAfter
      block) (rangesOk : RangesOk image after.ranges) :
    headerOf result = block ∧ ∀ address, block ≤ address →
      address < blockEnd after.mem block → InRanges after.ranges address := by
  have isLive : block ∈ block :: live := List.mem_cons_self ..
  constructor
  · rw [headerOf, kmalloced.result]
    exact kmalloced.invariant.header_of_pointer rangesOk isLive
  · intro address lower upper
    exact (kmalloced.invariant.core.cover address).mp
      ⟨block, Or.inr isLive, lower, upper⟩

/-- The block behind the pointer that `kmalloc` hands out lies in the heap and
is as large as requested exactly when the rounding does not wrap. -/
theorem kmalloc_block_large_iff
    (invariant : HeapInv 0 image (initFreeList image.base heap) free live)
    {nbytes result : Nat} (positive : 1 ≤ nbytes)
    (word : nbytes < 4294967296)
    (success : kmalloc source image.base fuel nbytes heap state =
      some (result, after, stateAfter))
    (rangesOk : RangesOk image after.ranges) (notNull : result ≠ 0) :
    (nbytes ≤ ((after.mem (headerOf result)).size - 1) * headerSize ∧
      ∀ address, headerOf result ≤ address →
        address < blockEnd after.mem (headerOf result) →
        InRanges after.ranges address) ↔
      nbytes ≤ 4294967288 := by
  have outcome := kmalloc_outcome invariant (Nat.ne_of_gt positive)
    (Nat.zero_le _) success rangesOk
  obtain ⟨freeAfter, block, kmalloced⟩ := outcome.kmalloced notNull
  obtain ⟨header, inside⟩ := kmalloced.block rangesOk
  rw [header, kmalloced.size, requestUnits_enough_iff positive word]
  exact and_iff_left inside

end Size

theorem kmalloc_block_large_iff_hundred :
    ∃ after stateAfter,
      kmalloc ascendingSource oneMegabyteImage.base 8 100
          (Heap.initial fun _ => ⟨0, 0⟩) 3225419776 =
        some (3225427864, after, stateAfter) ∧
      100 ≤ ((after.mem (headerOf 3225427864)).size - 1) * headerSize := by
  have success : kmalloc ascendingSource oneMegabyteImage.base 8 100
      (Heap.initial fun _ => ⟨0, 0⟩) 3225419776 =
        some (3225427864, _, 3225427968) := rfl
  exact ⟨_, _, success, ((kmalloc_block_large_iff
    (initFreeList_inv 0 oneMegabyteImage rfl rfl) (by decide) (by decide)
    success oneRange_ok (by decide)).mpr (by decide)).1⟩

/-- A request for almost 4 GiB is answered by a block of one unit. -/
theorem kmalloc_block_too_small :
    ∃ after stateAfter,
      kmalloc ascendingSource oneMegabyteImage.base 8 4294967295
          (Heap.initial fun _ => ⟨0, 0⟩) 3225419776 =
        some (3225427968, after, stateAfter) ∧
      RangesOk oneMegabyteImage after.ranges ∧
      (after.mem (headerOf 3225427968)).size = 1 := by
  refine ⟨_, _, rfl, oneRange_ok, by decide⟩

/-! ## Counting the calls of `acquire_more_heap`

Each call asks for page frames once. -/

/-- A page source that counts how often page frames are asked for. -/
def PageSource.counted {σ : Type} (source : PageSource σ) :
    PageSource (Nat × σ) where
  pfaAllocate := fun pages state =>
    let (paddr, after) := source.pfaAllocate pages state.2
    (paddr, state.1 + 1, after)
  findNextVaddr := fun size state =>
    let (vaddr, after) := source.findNextVaddr size state.2
    (vaddr, state.1, after)
  mapKernelMemory := fun paddr vaddr size rw pl state =>
    (source.mapKernelMemory paddr vaddr size rw pl state.2).map
      fun (mapped, after) => (mapped, state.1, after)

section Counting

variable {σ : Type} {source : PageSource σ} {nunits : Nat}

theorem growth_counted (count : Nat) (state : σ) :
    growth source.counted nunits (count, state) =
      (growth source nunits state).map fun (outcome, after) =>
        (outcome, count + 1, after) := by
  rcases allocated : source.pfaAllocate (growthPages nunits) state with
    ⟨paddr, afterFrames⟩
  have frames : source.counted.pfaAllocate (growthPages nunits)
      (count, state) = (paddr, count + 1, afterFrames) := by
    simp only [PageSource.counted, allocated]
  rcases found : source.findNextVaddr (w32 (growthPages nunits * fourKb))
    afterFrames with ⟨vaddr, afterSearch⟩
  have space : source.counted.findNextVaddr
      (w32 (growthPages nunits * fourKb)) (count + 1, afterFrames) =
        (vaddr, count + 1, afterSearch) := by
    simp only [PageSource.counted, found]
  simp only [growth, allocated, frames, found, space]
  split_ifs
  · rfl
  · rfl
  · simp only [PageSource.counted]
    cases source.mapKernelMemory paddr vaddr
      (w32 (growthPages nunits * fourKb)) 1 0 afterSearch with
    | none => rfl
    | some mapped =>
        simp only [Option.map_some]
        split_ifs
        · rfl
        · rfl

/-- The outcome of a call without the count. -/
def uncounted (outcome : Option (Nat × Heap × Nat × σ)) :
    Option (Nat × Heap × σ) :=
  outcome.map fun (result, heap, _, state) => (result, heap, state)

theorem acquireMoreHeap_counted (fuel count : Nat) (heap : Heap)
    (state : σ) :
    acquireMoreHeap source.counted fuel nunits heap (count, state) =
      (acquireMoreHeap source fuel nunits heap state).map
        fun (p, heap, after) => (p, heap, count + 1, after) := by
  simp only [acquireMoreHeap, growth_counted]
  cases growth source nunits state with
  | none => rfl
  | some grown =>
      obtain ⟨outcome, after⟩ := grown
      cases outcome with
      | none => rfl
      | some range =>
          simp only [Option.map_some]
          split
          · rfl
          · rfl

theorem kmallocSearch_counted (fuel prevp p count : Nat) (heap : Heap)
    (state : σ) :
    uncounted (kmallocSearch source.counted nunits fuel prevp p heap
      (count, state)) =
        kmallocSearch source nunits fuel prevp p heap state := by
  induction fuel generalizing prevp p count heap state with
  | zero => rfl
  | succ fuel induction =>
      simp only [kmallocSearch, acquireMoreHeap_counted]
      split_ifs with fits wrapped
      · rfl
      · cases acquireMoreHeap source fuel nunits heap state with
        | none => rfl
        | some acquired =>
            simp only [Option.map_some]
            split_ifs
            · rfl
            · exact induction _ _ _ _ _
      · exact induction _ _ _ _ _

theorem kmalloc_counted (base fuel nbytes count : Nat) (heap : Heap)
    (state : σ) :
    uncounted (kmalloc source.counted base fuel nbytes heap (count, state)) =
      kmalloc source base fuel nbytes heap state := by
  unfold kmalloc
  split_ifs
  · rfl
  · exact kmallocSearch_counted _ _ _ _ _ _

theorem GrowthOk.counted {image : KernelImage} {heap : Heap} {state : σ}
    (growthOk : GrowthOk image source nunits heap state) (count : Nat) :
    GrowthOk image source.counted nunits heap (count, state) := by
  obtain ⟨outcome, after, grown, fresh⟩ := growthOk
  refine ⟨outcome, (count + 1, after), ?_, fresh⟩
  rw [growth_counted, grown, Option.map_some]

theorem KmallocOutcome.counted_le {least : Nat} {image : KernelImage}
    {heap after : Heap} {free : Finset Nat} {live : List Nat} {state : σ}
    {result count : Nat} {stateAfter : Nat × σ}
    (outcome : KmallocOutcome least image source.counted nunits heap free live
      (count, state) result after stateAfter) :
    stateAfter.1 ≤ count + 1 := by
  have once {answer : Option HeapRange}
      (grown : growth source.counted nunits (count, state) =
        some (answer, stateAfter)) : stateAfter.1 ≤ count + 1 := by
    rw [growth_counted, Option.map_eq_some_iff] at grown
    obtain ⟨plain, _, same⟩ := grown
    cases same
    exact Nat.le_refl _
  cases outcome with
  | taken _ _ _ unchanged _ =>
      rw [unchanged]
      exact Nat.le_succ count
  | refused _ growth _ _ => exact once growth
  | grown _ growth _ => exact once growth

end Counting

/-! ## Runs with every request -/

/-- The heap and the live results after calls of `kmalloc` with any 32-bit
argument and of `kfree` with live results. -/
inductive HeapHistory {σ : Type} (source : PageSource σ) (image : KernelImage)
    (mem : Nat → Header) (start : σ) : Heap → σ → List Nat → Prop where
  | start : HeapHistory source image mem start (Heap.initial mem) start []
  | kmalloc {heap state live fuel nbytes result after stateAfter} :
      HeapHistory source image mem start heap state live →
      nbytes < 4294967296 →
      kmalloc source image.base fuel nbytes heap state =
        some (result, after, stateAfter) →
      RangesOk image after.ranges →
      HeapHistory source image mem start after stateAfter
        (if result = 0 then live else result :: live)
  | kfree {heap state live fuel ap after} :
      HeapHistory source image mem start heap state live →
      ap ∈ live →
      kfree fuel ap heap = some after →
      HeapHistory source image mem start after state (live.erase ap)

/-- The invariant, over the headers of taken blocks.  Callers hold the
pointers of some of them. -/
structure HeapHeld (image : KernelImage) (heap : Heap) (free : Finset Nat)
    (held live : List Nat) : Prop where
  invariant : HeapInv 0 image heap free held
  nodup : live.Nodup
  pointers : ∀ ap ∈ live, ap ≠ 0 ∧ headerOf ap ∈ held ∧
    headerAdd (headerOf ap) 1 = ap

section Histories

variable {σ : Type} {source : PageSource σ} {image : KernelImage}
  {mem : Nat → Header} {start : σ} {heap after : Heap}
  {state stateAfter : σ} {free : Finset Nat} {held live : List Nat}
  {fuel : Nat}

theorem HeapHeld.kmalloc
    (ready : HeapHeld image (initFreeList image.base heap) free held live)
    {nbytes result : Nat} (positive : nbytes ≠ 0)
    (success : kmalloc source image.base fuel nbytes heap state =
      some (result, after, stateAfter))
    (rangesOk : RangesOk image after.ranges) :
    ∃ freeAfter heldAfter, HeapHeld image after freeAfter heldAfter
      (if result = 0 then live else result :: live) := by
  have outcome := kmalloc_outcome ready.invariant positive (Nat.zero_le _)
    success rangesOk
  have tookBlock {freeAfter : Finset Nat} {block : Nat}
      (kmalloced : Kmalloced 0 image held (requestUnits nbytes) result after
        freeAfter block) :
      ∃ freeAfter heldAfter, HeapHeld image after freeAfter heldAfter
        (if result = 0 then live else result :: live) := by
    have older : ∀ ap ∈ live, ap ≠ 0 ∧ headerOf ap ∈ block :: held ∧
        headerAdd (headerOf ap) 1 = ap := by
      intro ap member
      obtain ⟨notNull, header, pointer⟩ := ready.pointers ap member
      exact ⟨notNull, List.mem_cons_of_mem _ header, pointer⟩
    refine ⟨freeAfter, block :: held, ?_⟩
    split_ifs with isNull
    · exact ⟨kmalloced.invariant, ready.nodup, older⟩
    · have header := (kmalloced.block rangesOk).1
      refine ⟨kmalloced.invariant, List.nodup_cons.mpr ⟨?_, ready.nodup⟩, ?_⟩
      · intro member
        have twice := kmalloced.invariant.core.liveNodup
        rw [← header] at twice
        exact (List.nodup_cons.mp twice).1 (ready.pointers result member).2.1
      · intro ap member
        rcases List.mem_cons.mp member with rfl | inLive
        · rw [header]
          exact ⟨isNull, List.mem_cons_self .., kmalloced.result.symm⟩
        · exact older ap inLive
  cases outcome with
  | taken _ _ _ _ kmalloced => exact tookBlock kmalloced
  | refused _ _ isNull unchanged =>
      rw [if_pos isNull, unchanged]
      exact ⟨free, held, ready⟩
  | grown _ _ kmalloced => exact tookBlock kmalloced

theorem HeapHeld.kfree (holds : HeapHeld image heap free held live)
    (rangesOk : RangesOk image heap.ranges) {ap : Nat} (isLive : ap ∈ live)
    (success : kfree fuel ap heap = some after) :
    ∃ freeAfter,
      HeapHeld image after freeAfter (held.erase (headerOf ap))
        (live.erase ap) := by
  obtain ⟨notNull, header, pointer⟩ := holds.pointers ap isLive
  rw [← pointer] at notNull success
  obtain ⟨freeAfter, freed⟩ :=
    kfree_spec holds.invariant rangesOk header notNull success
  refine ⟨freeAfter, freed.invariant, holds.nodup.erase ap, ?_⟩
  intro other member
  obtain ⟨different, wasLive⟩ := holds.nodup.mem_erase_iff.mp member
  obtain ⟨otherNotNull, otherHeader, otherPointer⟩ :=
    holds.pointers other wasLive
  refine ⟨otherNotNull, ?_, otherPointer⟩
  refine holds.invariant.core.liveNodup.mem_erase_iff.mpr ⟨?_, otherHeader⟩
  intro same
  rw [same, pointer] at otherPointer
  exact different otherPointer.symm

/-- The invariant of a used heap, or of the heap as the first request sets it
up. -/
theorem HeapHeld.ready (rangesOk : RangesOk image heap.ranges)
    (holds : HeapUnused heap live ∨
      ∃ free held, HeapHeld image heap free held live) :
    ∃ free held,
      HeapHeld image (initFreeList image.base heap) free held live := by
  rcases holds with unused | ⟨free, held, holds⟩
  · refine ⟨{image.base}, [],
      initFreeList_inv 0 image unused.freep unused.ranges, ?_, ?_⟩
    · rw [unused.live]
      exact List.nodup_nil
    · rw [unused.live]
      intro ap member
      cases member
  · have bounds := holds.invariant.core.free_bounds rangesOk
      holds.invariant.freepFree
    rw [initFreeList_of_ne (Nat.ne_of_gt bounds.1)]
    exact ⟨free, held, holds⟩

theorem HeapHistory.invariant
    (history : HeapHistory source image mem start heap state live) :
    RangesOk image heap.ranges ∧
      (HeapUnused heap live ∨
        ∃ free held, HeapHeld image heap free held live) := by
  induction history with
  | start =>
      refine ⟨⟨by simp [Heap.initial], by simp [Heap.initial]⟩, Or.inl ?_⟩
      exact ⟨rfl, rfl, rfl⟩
  | @kmalloc heap state live fuel nbytes result after stateAfter _ _ success
      rangesOk induction =>
      refine ⟨rangesOk, ?_⟩
      by_cases zero : nbytes = 0
      · rw [Newbos.kmalloc, if_pos zero] at success
        cases success
        exact induction.2
      · obtain ⟨free, held, ready⟩ := HeapHeld.ready induction.1 induction.2
        exact Or.inr (ready.kmalloc zero success rangesOk)
  | @kfree heap state live fuel ap after _ isLive success induction =>
      rw [kfree_ranges success]
      refine ⟨induction.1, Or.inr ?_⟩
      rcases induction.2 with unused | ⟨free, held, holds⟩
      · rw [unused.live] at isLive
        cases isLive
      · obtain ⟨freeAfter, freed⟩ := holds.kfree induction.1 isLive success
        exact ⟨freeAfter, _, freed⟩

/-- In every reachable state a request of any size returns after growing the
heap once at most, as far as the page source answers it with fresh ranges, and
the search of `kfree` ends within one lap of the free list, for every live
block and for a range just acquired. -/
theorem heap_loops_end
    (history : HeapHistory source image mem start heap state live) :
    (∀ nbytes, nbytes < 4294967296 →
      GrowthOk image source (requestUnits nbytes) heap state →
      ∃ bound, ∀ fuel, bound ≤ fuel →
        ∃ result after calls stateAfter,
          kmalloc source.counted image.base fuel nbytes heap (0, state) =
            some (result, after, calls, stateAfter) ∧
          calls ≤ 1 ∧
          kmalloc source image.base fuel nbytes heap state =
            some (result, after, stateAfter)) ∧
    ∃ free, FreeListOk image.base (initFreeList image.base heap) free ∧
      (∀ ap ∈ live, ∃ p,
        kfreeSearch heap.mem (headerOf ap) free.card heap.freep = some p) ∧
      ∀ range : HeapRange, 0 < range.vaddr → 0 < range.pages →
        RangesOk image (heap.ranges ++ [range]) → ∃ p,
          kfreeSearch (setSize (initFreeList image.base heap).mem range.vaddr
              (512 * range.pages))
            range.vaddr free.card (initFreeList image.base heap).freep =
              some p := by
  obtain ⟨rangesOk, holds⟩ := history.invariant
  obtain ⟨free, held, ready⟩ := HeapHeld.ready rangesOk holds
  refine ⟨?_, free, ready.invariant.freeListOk, ?_, ?_⟩
  · intro nbytes _ growthOk
    refine ⟨2 * free.card + 3, fun fuel enough => ?_⟩
    by_cases zero : nbytes = 0
    · exact ⟨0, heap, 0, state, if_pos zero, by decide, if_pos zero⟩
    · obtain ⟨result, after, ⟨calls, stateAfter⟩, success, afterOk⟩ :=
        kmalloc_total ready.invariant rangesOk zero (Nat.zero_le _)
          (growthOk.counted 0) enough
      have outcome := kmalloc_outcome ready.invariant zero (Nat.zero_le _)
        success afterOk
      refine ⟨result, after, calls, stateAfter, success, outcome.counted_le,
        ?_⟩
      rw [← kmalloc_counted image.base fuel nbytes 0, success]
      rfl
  · intro ap isLive
    rcases holds with unused | ⟨freeUsed, heldUsed, used⟩
    · rw [unused.live] at isLive
      cases isLive
    · have bounds := used.invariant.core.free_bounds rangesOk
        used.invariant.freepFree
      rw [initFreeList_of_ne (Nat.ne_of_gt bounds.1)] at ready
      exact ready.invariant.kfreeSearch_lap (ready.pointers ap isLive).2.1
        (Nat.le_refl _)
  · intro range vaddrPos pagesPos fresh
    rw [← initFreeList_ranges image.base] at fresh
    exact (ready.invariant.grow fresh vaddrPos pagesPos
      (Nat.zero_le _)).kfreeSearch_lap (List.mem_cons_self ..)
        (Nat.le_refl _)

end Histories

theorem heap_loops_end_oneRequest :
    ∃ heap,
      HeapHistory ascendingSource oneMegabyteImage (fun _ => ⟨0, 0⟩)
        3225419776 heap 3225427968 [3225427864] ∧
      ∃ free, FreeListOk oneMegabyteImage.base heap free ∧
        ∃ p, kfreeSearch heap.mem (headerOf 3225427864) free.card heap.freep =
          some p := by
  have history := @HeapHistory.kmalloc _ ascendingSource oneMegabyteImage
    (fun _ => ⟨0, 0⟩) 3225419776 _ _ [] 8 100 3225427864 _ 3225427968
    .start (by decide) rfl oneRange_ok
  obtain ⟨free, listOk, ends, _⟩ := (heap_loops_end history).2
  exact ⟨_, history, free, listOk, ends _ (List.mem_singleton_self _)⟩

end Newbos
