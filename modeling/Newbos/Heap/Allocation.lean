import Newbos.Heap.Kfree

/-!
# Correctness of `kmalloc`

The search of `kmalloc` walks the free list from the roving pointer.  It takes
the first block that is large enough; after a whole lap it grows the heap,
which frees the new range and makes the next lap succeed.
-/

namespace Newbos

variable {least : Nat} {image : KernelImage} {heap after : Heap}
  {free : Finset Nat} {live : List Nat}

/-- No free block ends where any other free block begins. -/
theorem HeapInv.not_adjacent (invariant : HeapInv least image heap free live)
    (rangesOk : RangesOk image heap.ranges) {lower upper : Nat}
    (lowerFree : lower ∈ free) (lowerNotBase : lower ≠ image.base)
    (upperFree : upper ∈ free) : blockEnd heap.mem lower ≠ upper := by
  intro adjacent
  have lowerBlock : IsBlock image.base free live lower :=
    Or.inl ⟨lowerFree, lowerNotBase⟩
  have positive := invariant.core.sizePos lower lowerBlock
  have apart := invariant.coalesced lower lowerFree lowerNotBase
  have above : lower < upper := by
    simp only [blockEnd, headerSize] at *
    omega
  rcases invariant.core.ring.step lower lowerFree with
    ⟨ascending, closest⟩ | ⟨_, bounds⟩
  · have reached := invariant.core.blockEnd_le_of_lt rangesOk lowerBlock
      (invariant.core.ring.mem lower lowerFree) ascending
    have between := closest upper upperFree
    omega
  · have last := (bounds upper upperFree).2
    omega

/-! ## Taking a block -/

theorem HeapInv.takeWhole (invariant : HeapInv least image heap free live)
    (rangesOk : RangesOk image heap.ranges) {prevp : Nat}
    (prevFree : prevp ∈ free)
    (positive : 0 < (heap.mem (heap.mem prevp).next).size)
    (large : least ≤ (heap.mem (heap.mem prevp).next).size) :
    HeapInv least image
      { heap with
        mem := setNext heap.mem prevp (heap.mem (heap.mem prevp).next).next
        freep := prevp }
      (free.erase (heap.mem prevp).next) ((heap.mem prevp).next :: live) := by
  have nextFree := invariant.core.ring.mem prevp prevFree
  have notBase : (heap.mem prevp).next ≠ image.base := by
    intro same
    rw [same, invariant.core.baseSize] at positive
    exact Nat.lt_irrefl 0 positive
  have core := invariant.core.takeWhole prevFree notBase
  have sizes : ∀ address, (setNext heap.mem prevp
      (heap.mem (heap.mem prevp).next).next address).size =
      (heap.mem address).size := by
    intro address
    simp only [setNext, Store.set]
    split_ifs with same
    · rw [same]
    · rfl
  have prevOther : prevp ≠ (heap.mem prevp).next := by
    intro same
    have alone := invariant.core.ring.step prevp prevFree
    rw [← same] at alone
    simp only [lt_irrefl, false_and, false_or] at alone
    have baseSame := alone.2 image.base invariant.core.baseFree
    exact notBase (by rw [← same]; omega)
  refine ⟨core, Finset.mem_erase.mpr ⟨prevOther, prevFree⟩, ?_, ?_⟩
  · intro address member addressNotBase
    obtain ⟨_, wasFree⟩ := Finset.mem_erase.mp member
    simp only [blockEnd, sizes]
    by_cases same : address = prevp
    · subst same
      simp only [setNext, Store.set_same]
      exact invariant.not_adjacent rangesOk wasFree addressNotBase
        (invariant.core.ring.mem _ nextFree)
    · simp only [setNext, Store.set_other _ _ same]
      exact invariant.coalesced address wasFree addressNotBase
  · intro address isLive
    simp only [sizes]
    rcases List.mem_cons.mp isLive with rfl | older
    · exact large
    · exact invariant.liveLarge address older

theorem HeapInv.takeTail (invariant : HeapInv least image heap free live)
    (rangesOk : RangesOk image heap.ranges) {prevp p nunits : Nat}
    (prevFree : prevp ∈ free) (pFree : p ∈ free) (positive : 0 < nunits)
    (large : least ≤ nunits) (smaller : nunits < (heap.mem p).size) :
    HeapInv least image
      { heap with
        mem := setSize (setSize heap.mem p ((heap.mem p).size - nunits))
          (p + headerSize * ((heap.mem p).size - nunits)) nunits
        freep := prevp }
      free ((p + headerSize * ((heap.mem p).size - nunits)) :: live) := by
  have pNotBase : p ≠ image.base := by
    rintro rfl
    rw [invariant.core.baseSize] at smaller
    omega
  have core := invariant.core.takeTail rangesOk pFree pNotBase positive
    smaller
  generalize tailEq :
    p + headerSize * ((heap.mem p).size - nunits) = tail at *
  have tailNotFree := core.liveNotFree tail (List.mem_cons_self ..)
  refine ⟨core, prevFree, ?_, ?_⟩
  · intro address member notBase
    have notTail : address ≠ tail := fun same => tailNotFree (same ▸ member)
    simp only [blockEnd, setSize, Store.set_other _ _ notTail]
    by_cases same : address = p
    · subst same
      simp only [Store.set_same]
      rw [tailEq]
      intro reaches
      exact tailNotFree (reaches ▸ invariant.core.ring.mem address pFree)
    · simp only [Store.set_other _ _ same]
      exact invariant.coalesced address member notBase
  · intro address isLive
    by_cases same : address = tail
    · subst same
      simpa only [setSize, Store.set_same] using large
    · have older : address ∈ live :=
        (List.mem_cons.mp isLive).resolve_left same
      have notP : address ≠ p := fun equal =>
        invariant.core.liveNotFree address older (equal ▸ pFree)
      simp only [setSize, Store.set_other _ _ same, Store.set_other _ _ notP]
      exact invariant.liveLarge address older

/-- A successful `kmalloc`: one new live block of the requested size. -/
structure Kmalloced (least : Nat) (image : KernelImage) (live : List Nat)
    (nunits : Nat) (result : Nat) (after : Heap) (freeAfter : Finset Nat)
    (block : Nat) : Prop where
  result : result = headerAdd block 1
  invariant : HeapInv least image after freeAfter (block :: live)
  size : (after.mem block).size = nunits

theorem takeBlock_spec (invariant : HeapInv least image heap free live)
    (rangesOk : RangesOk image heap.ranges) {prevp nunits : Nat}
    (prevFree : prevp ∈ free) (positive : 0 < nunits)
    (large : least ≤ nunits)
    (fits : nunits ≤ (heap.mem (heap.mem prevp).next).size) :
    ∃ freeAfter block, Kmalloced least image live nunits
      (takeBlock heap nunits prevp (heap.mem prevp).next).1
      (takeBlock heap nunits prevp (heap.mem prevp).next).2
      freeAfter block := by
  have pFree := invariant.core.ring.mem prevp prevFree
  generalize pEq : (heap.mem prevp).next = p at *
  unfold takeBlock
  split_ifs with exact_
  · refine ⟨free.erase p, p, rfl, ?_, ?_⟩
    · have taken := invariant.takeWhole rangesOk prevFree
        (by rw [pEq, exact_]; exact positive)
        (by rw [pEq, exact_]; exact large)
      rwa [pEq] at taken
    · simp only [setNext, Store.set]
      split_ifs with same
      · rw [← same]
        exact exact_
      · exact exact_
  · have taken := invariant.takeTail rangesOk prevFree pFree positive large
      (by omega)
    have tailEq : headerAdd p ((heap.mem p).size - nunits) =
        p + headerSize * ((heap.mem p).size - nunits) := by
      have bounds := taken.core.block_bounds rangesOk
        (Or.inr (List.mem_cons_self ..))
      have blockPos := taken.core.sizePos _
        (Or.inr (List.mem_cons_self ..))
      refine w32_of_lt ?_
      simp only [blockEnd, headerSize] at *
      omega
    refine ⟨free, p + headerSize * ((heap.mem p).size - nunits), ?_, ?_, ?_⟩
    · simp only [tailEq]
    · simp only [tailEq]
      exact taken
    · simp only [tailEq, setSize, Store.set_same]

theorem takeBlock_changes (invariant : HeapInv least image heap free live)
    {prevp nunits : Nat} (prevFree : prevp ∈ free) (positive : 0 < nunits)
    (fits : nunits ≤ (heap.mem (heap.mem prevp).next).size) :
    ∃ node ∈ free,
      (takeBlock heap nunits prevp (heap.mem prevp).next).2.mem node ≠
        heap.mem node := by
  have pFree := invariant.core.ring.mem prevp prevFree
  have pNotBase : (heap.mem prevp).next ≠ image.base := by
    intro same
    rw [same, invariant.core.baseSize] at fits
    omega
  unfold takeBlock
  split_ifs with whole
  · refine ⟨prevp, prevFree, fun same => ?_⟩
    have sameNext := congrArg Header.next same
    simp only [setNext, Store.set_same] at sameNext
    have alone := invariant.core.ring.step _ pFree
    simp only [sameNext, lt_irrefl, false_and, false_or] at alone
    have baseSame := alone.2 image.base invariant.core.baseFree
    exact pNotBase (by omega)
  · refine ⟨_, pFree, fun same => ?_⟩
    have sameSize := congrArg Header.size same
    simp only [setSize, Store.set] at sameSize
    split_ifs at sameSize <;> simp only at sameSize <;> omega

theorem takeBlock_ranges (heap : Heap) (nunits prevp p : Nat) :
    (takeBlock heap nunits prevp p).2.ranges = heap.ranges := by
  unfold takeBlock
  split_ifs <;> rfl

/-! ## Growing the heap -/

theorem growthPages_pos (nunits : Nat) : 0 < growthPages nunits := by
  exact Nat.succ_pos _

theorem growthPages_lt (nunits : Nat) : growthPages nunits < 4294967296 := by
  simp only [growthPages, divCeil, fourKb]
  have small := sub32_lt (w32_lt ((if nunits < minBlockSize then minBlockSize
    else nunits) * headerSize)) 1
  omega

theorem growthPages_enough {nunits : Nat}
    (small : growthPages nunits < 1048576) (inRange : nunits ≤ 536870912) :
    nunits ≤ 512 * growthPages nunits := by
  simp only [growthPages, divCeil, minBlockSize, headerSize, fourKb, w32,
    sub32] at *
  split_ifs at * <;> omega

theorem growth_range {σ : Type} {source : PageSource σ} {nunits : Nat}
    {state stateAfter : σ} {range : HeapRange}
    (success : growth source nunits state = some (some range, stateAfter)) :
    0 < range.vaddr ∧ range.pages = growthPages nunits := by
  simp only [growth] at success
  split_ifs at success with noFrames noVaddr
  · simp at success
  · simp at success
  · split at success
    · cases success
    · split_ifs at success
      · simp at success
      · simp only [Option.some.injEq, Prod.mk.injEq] at success
        obtain ⟨rfl, _⟩ := success
        exact ⟨Nat.pos_of_ne_zero noVaddr, rfl⟩

theorem HeapInv.grow (invariant : HeapInv least image heap free live)
    {range : HeapRange}
    (rangesOk : RangesOk image (heap.ranges ++ [range]))
    (vaddrPos : 0 < range.vaddr) (pagesPos : 0 < range.pages)
    (large : least ≤ 512 * range.pages) :
    HeapInv least image
      { heap with
        mem := setSize heap.mem range.vaddr (512 * range.pages)
        ranges := heap.ranges ++ [range] }
      free (range.vaddr :: live) := by
  have core := invariant.core.grow rangesOk vaddrPos pagesPos
  have notFree := core.liveNotFree range.vaddr (List.mem_cons_self ..)
  refine ⟨core, invariant.freepFree, ?_, ?_⟩
  · intro address member notBase
    have different : address ≠ range.vaddr := fun same =>
      notFree (same ▸ member)
    simp only [blockEnd, setSize, Store.set_other _ _ different]
    exact invariant.coalesced address member notBase
  · intro address isLive
    by_cases same : address = range.vaddr
    · subst same
      simp only [setSize, Store.set_same]
      exact large
    · simp only [setSize, Store.set_other _ _ same]
      exact invariant.liveLarge address
        ((List.mem_cons.mp isLive).resolve_left same)

private theorem range_units {range : HeapRange} (rangeOk : RangeOk image range)
    (vaddrPos : 0 < range.vaddr) :
    w32 (range.pages * fourKb) / headerSize = 512 * range.pages ∧
      range.pages < 1048576 := by
  have below := rangeOk.below
  simp only [HeapRange.stop, fourKb, headerSize, w32] at *
  omega

/-- What a successful `acquire_more_heap` leaves behind. -/
structure Acquired (least : Nat) (image : KernelImage) (heap : Heap)
    (free : Finset Nat) (live : List Nat) (nunits p : Nat) (after : Heap)
    (freeAfter : Finset Nat) : Prop where
  freep : p = after.freep
  invariant : HeapInv least image after freeAfter live
  card : freeAfter.card ≤ free.card + 1
  reachable : nunits ≤ (after.mem after.freep).size ∨
    nunits ≤ (after.mem (after.mem after.freep).next).size

section Acquire

variable {σ : Type} {source : PageSource σ} {nunits fuel : Nat}
  {state stateAfter : σ}

/-- `acquire_more_heap` grows the ranges by what it is granted. -/
theorem acquireMoreHeap_growth {p : Nat}
    (success : acquireMoreHeap source fuel nunits heap state =
      some (p, after, stateAfter)) :
    ∃ outcome, growth source nunits state = some (outcome, stateAfter) ∧
      after.ranges = heap.ranges ++ outcome.toList := by
  simp only [acquireMoreHeap] at success
  split at success
  · cases success
  · rename_i refused
    cases success
    exact ⟨none, refused, (List.append_nil _).symm⟩
  · rename_i range _ grown
    split at success
    · cases success
    · rename_i freeing
      cases success
      exact ⟨some range, grown, kfree_ranges freeing⟩

/-- Freeing a grown range keeps the invariant, and the range can be reached
from the new roving pointer. -/
theorem acquireMoreHeap_spec (invariant : HeapInv least image heap free live)
    (large : least ≤ nunits) (inRange : nunits ≤ 536870912) {p : Nat}
    (success : acquireMoreHeap source fuel nunits heap state =
      some (p, after, stateAfter))
    (rangesOk : RangesOk image after.ranges) :
    (p = 0 ∧ after = heap ∧
        growth source nunits state = some (none, stateAfter)) ∨
      ∃ range freeAfter,
        growth source nunits state = some (some range, stateAfter) ∧
        after.ranges = heap.ranges ++ [range] ∧
        Acquired least image heap free live nunits p after freeAfter := by
  simp only [acquireMoreHeap] at success
  split at success
  · cases success
  · rename_i refused
    cases success
    exact Or.inl ⟨rfl, rfl, refused⟩
  · rename_i range _ grown
    obtain ⟨vaddrPos, pages⟩ := growth_range grown
    have pagesPos : 0 < range.pages := pages ▸ growthPages_pos nunits
    split at success
    · cases success
    · rename_i freeing
      cases success
      rw [kfree_ranges freeing] at rangesOk
      obtain ⟨units, small⟩ :=
        range_units (rangesOk.each range (by simp)) vaddrPos
      rw [units] at freeing
      have enough : nunits ≤ 512 * range.pages := by
        rw [pages] at small ⊢
        exact growthPages_enough small inRange
      have grownInv := invariant.grow rangesOk vaddrPos pagesPos
        (large.trans enough)
      have notNull := grownInv.pointer_ne_zero rangesOk
        (List.mem_cons_self ..)
        (by simp only [setSize, Store.set_same]; omega)
      obtain ⟨freeAfter, released⟩ := kfree_spec grownInv rangesOk
        (List.mem_cons_self ..) notNull freeing
      refine Or.inr ⟨range, freeAfter, grown, ?_, rfl, ?_, released.card, ?_⟩
      · exact kfree_ranges freeing
      · have erased := released.invariant
        rwa [List.erase_cons_head] at erased
      · have reachable := released.reachable
        simp only [setSize, Store.set_same] at reachable
        exact reachable.imp enough.trans enough.trans

/-- The page source returns, and what it hands out is a fresh range. -/
def GrowthOk (image : KernelImage) (source : PageSource σ) (nunits : Nat)
    (heap : Heap) (state : σ) : Prop :=
  ∃ outcome stateAfter, growth source nunits state =
      some (outcome, stateAfter) ∧
    ∀ range, outcome = some range →
      RangesOk image (heap.ranges ++ [range])

theorem acquireMoreHeap_total (invariant : HeapInv least image heap free live)
    (growthOk : GrowthOk image source nunits heap state)
    (enough : free.card ≤ fuel) :
    ∃ p after stateAfter, acquireMoreHeap source fuel nunits heap state =
      some (p, after, stateAfter) ∧
        (p = 0 ∧ after = heap ∨ RangesOk image after.ranges) := by
  obtain ⟨outcome, stateAfter, grown, fresh⟩ := growthOk
  cases outcome with
  | none =>
      refine ⟨0, heap, stateAfter, ?_, Or.inl ⟨rfl, rfl⟩⟩
      simp only [acquireMoreHeap, grown]
  | some range =>
      have rangesOk := fresh range rfl
      obtain ⟨vaddrPos, pages⟩ := growth_range grown
      have pagesPos : 0 < range.pages := pages ▸ growthPages_pos nunits
      obtain ⟨units, _⟩ :=
        range_units (rangesOk.each range (by simp)) vaddrPos
      have anyLive := invariant.mono (Nat.zero_le _)
      obtain ⟨after, freeing⟩ := kfree_total
        (anyLive.grow rangesOk vaddrPos pagesPos (Nat.zero_le _)) rangesOk
        (List.mem_cons_self ..) enough
      refine ⟨after.freep, after, stateAfter, ?_, Or.inr ?_⟩
      · simp only [acquireMoreHeap, grown, units, freeing]
      · rw [kfree_ranges freeing]
        exact rangesOk

/-! ## The search -/

/-- What growing the heap keeps true of the ranges and the pages, the search
keeps true. -/
theorem kmallocSearch_rule (inv : List HeapRange → σ → Prop)
    (step : ∀ {ranges state outcome stateAfter}, inv ranges state →
      growth source nunits state = some (outcome, stateAfter) →
      inv (ranges ++ outcome.toList) stateAfter) {result : Nat} :
    ∀ {fuel prevp p : Nat} {heap : Heap} {state : σ},
      inv heap.ranges state →
      kmallocSearch source nunits fuel prevp p heap state =
        some (result, after, stateAfter) →
      inv after.ranges stateAfter := by
  intro fuel
  induction fuel with
  | zero =>
      intro prevp p heap state _ success
      simp [kmallocSearch] at success
  | succ fuel induction =>
      intro prevp p heap state holds success
      simp only [kmallocSearch] at success
      split_ifs at success with fits wrapped
      · cases success
        rw [takeBlock_ranges]
        exact holds
      · split at success
        · cases success
        · rename_i acquiring
          obtain ⟨outcome, grown, ranges⟩ := acquireMoreHeap_growth acquiring
          have kept := step holds grown
          rw [← ranges] at kept
          split_ifs at success
          · cases success
            exact kept
          · exact induction kept success
      · exact induction holds success

theorem kmallocSearch_ranges {prevp p result : Nat}
    (success : kmallocSearch source nunits fuel prevp p heap state =
      some (result, after, stateAfter)) :
    heap.ranges <+: after.ranges :=
  kmallocSearch_rule (fun ranges _ => heap.ranges <+: ranges)
    (fun earlier _ => earlier.trans (List.prefix_append _ _))
    (List.prefix_refl _) success

theorem RangesOk.of_prefix {earlier ranges : List HeapRange}
    (rangesOk : RangesOk image ranges) (initial : earlier <+: ranges) :
    RangesOk image earlier := by
  obtain ⟨later, rfl⟩ := initial
  exact rangesOk.of_append

/-- Every free block is too small. -/
def NoneFits (nunits : Nat) (mem : Nat → Header) (free : Finset Nat) : Prop :=
  ∀ node ∈ free, (mem node).size < nunits

/-- The ways in which a call for `nunits` units can end: a block that is large
enough is taken, the page source refuses, or the heap grows once and a block
is taken then. -/
inductive KmallocOutcome (least : Nat) (image : KernelImage)
    (source : PageSource σ) (nunits : Nat) (heap : Heap) (free : Finset Nat)
    (live : List Nat) (state : σ) (result : Nat) (after : Heap)
    (stateAfter : σ) : Prop where
  | taken {prevp : Nat} {freeAfter : Finset Nat} {block : Nat}
      (prevFree : prevp ∈ free)
      (fits : nunits ≤ (heap.mem (heap.mem prevp).next).size)
      (took : takeBlock heap nunits prevp (heap.mem prevp).next =
        (result, after))
      (unchanged : stateAfter = state)
      (kmalloced : Kmalloced least image live nunits result after freeAfter
        block)
  | refused
      (noneFits : NoneFits nunits heap.mem free)
      (growth : growth source nunits state = some (none, stateAfter))
      (isNull : result = 0)
      (unchanged : after = heap)
  | grown {range : HeapRange} {freeAfter : Finset Nat} {block : Nat}
      (noneFits : NoneFits nunits heap.mem free)
      (growth : growth source nunits state = some (some range, stateAfter))
      (kmalloced : Kmalloced least image live nunits result after freeAfter
        block)

theorem KmallocOutcome.kmalloced {result : Nat}
    (outcome : KmallocOutcome least image source nunits heap free live state
      result after stateAfter) (notNull : result ≠ 0) :
    ∃ freeAfter block,
      Kmalloced least image live nunits result after freeAfter block := by
  cases outcome with
  | taken _ _ _ _ kmalloced => exact ⟨_, _, kmalloced⟩
  | refused _ _ isNull _ => exact absurd isNull notNull
  | grown _ _ kmalloced => exact ⟨_, _, kmalloced⟩

/-- When the roving block is large enough the search ends before it comes to
growing the heap. -/
theorem kmallocSearch_fits (invariant : HeapInv least image heap free live)
    (positive : 0 < nunits) (large : least ≤ nunits) {result : Nat}
    (rangesOk : RangesOk image heap.ranges)
    (fits : nunits ≤ (heap.mem heap.freep).size) :
    ∀ {fuel prevp : Nat}, prevp ∈ free →
      kmallocSearch source nunits fuel prevp (heap.mem prevp).next heap
        state = some (result, after, stateAfter) →
      stateAfter = state ∧ ∃ freeAfter block,
        Kmalloced least image live nunits result after freeAfter block := by
  intro fuel
  induction fuel with
  | zero =>
      intro prevp _ success
      simp [kmallocSearch] at success
  | succ fuel induction =>
      intro prevp prevFree success
      simp only [kmallocSearch] at success
      split_ifs at success with found wrapped
      · have taken := takeBlock_spec invariant rangesOk prevFree positive
          large found
        cases success
        exact ⟨rfl, taken⟩
      · exact absurd (wrapped ▸ fits) found
      · exact induction (invariant.core.ring.mem prevp prevFree) success

theorem kmallocSearch_acquired {p result : Nat} {grown : Heap}
    {freeAfter : Finset Nat}
    (acquired : Acquired least image heap free live nunits p grown freeAfter)
    (positive : 0 < nunits) (large : least ≤ nunits)
    (rangesOk : RangesOk image grown.ranges)
    (success : kmallocSearch source nunits fuel p (grown.mem p).next grown
      state = some (result, after, stateAfter)) :
    stateAfter = state ∧ ∃ freeLast block,
      Kmalloced least image live nunits result after freeLast block := by
  obtain ⟨rfl, invariant, _, reachable⟩ := acquired
  rcases reachable with atFreep | atNext
  · exact kmallocSearch_fits invariant positive large rangesOk atFreep
      invariant.freepFree success
  · cases fuel with
    | zero => simp [kmallocSearch] at success
    | succ fuel =>
        simp only [kmallocSearch, if_pos atNext] at success
        have taken := takeBlock_spec invariant rangesOk invariant.freepFree
          positive large atNext
        cases success
        exact ⟨rfl, taken⟩

theorem HeapInv.noneFits_of_lap
    (invariant : HeapInv least image heap free live) {steps : Nat}
    (tried : ∀ step ≤ steps, (heap.mem
      ((fun address => (heap.mem address).next)^[step + 1] heap.freep)).size <
        nunits)
    (wrapped : (fun address => (heap.mem address).next)^[steps + 1]
      heap.freep = heap.freep) : NoneFits nunits heap.mem free := by
  intro node member
  obtain ⟨count, countPos, countLe, rfl⟩ :=
    invariant.core.ring.exists_iterate_of_period invariant.freepFree member
      (Nat.succ_pos steps) wrapped
  have early := tried (count - 1) (by omega)
  rwa [Nat.sub_add_cancel countPos] at early

/-- How the first lap of the search ends: a block is taken, or none fits and
the heap is to grow. -/
def LapOutcome (source : PageSource σ) (nunits : Nat) (heap : Heap)
    (free : Finset Nat) (state : σ) (result : Nat) (after : Heap)
    (stateAfter : σ) : Prop :=
  (∃ last ∈ free, nunits ≤ (heap.mem (heap.mem last).next).size ∧
    takeBlock heap nunits last (heap.mem last).next = (result, after) ∧
    stateAfter = state) ∨
  NoneFits nunits heap.mem free ∧ ∃ rest p grown stateGrown,
    acquireMoreHeap source rest nunits heap state =
      some (p, grown, stateGrown) ∧
    (p = 0 ∧ (0, grown, stateGrown) = (result, after, stateAfter) ∨
      p ≠ 0 ∧ kmallocSearch source nunits rest p (grown.mem p).next grown
        stateGrown = some (result, after, stateAfter))

theorem kmallocSearch_lap_from
    (invariant : HeapInv least image heap free live) {result : Nat} :
    ∀ {fuel prevp : Nat} (steps : Nat),
      prevp = (fun address => (heap.mem address).next)^[steps] heap.freep →
      (∀ step < steps, (heap.mem
        ((fun address => (heap.mem address).next)^[step + 1]
          heap.freep)).size < nunits) →
      kmallocSearch source nunits fuel prevp (heap.mem prevp).next heap
        state = some (result, after, stateAfter) →
      LapOutcome source nunits heap free state result after stateAfter := by
  intro fuel
  induction fuel with
  | zero =>
      intro prevp steps _ _ success
      simp [kmallocSearch] at success
  | succ fuel induction =>
      intro prevp steps position tried success
      have prevFree : prevp ∈ free :=
        position ▸ invariant.core.ring.iterate_mem invariant.freepFree steps
      have present : (heap.mem prevp).next =
          (fun address => (heap.mem address).next)^[steps + 1]
            heap.freep := by
        rw [Function.iterate_succ_apply', position]
      have triedToo (small : ¬nunits ≤ (heap.mem (heap.mem prevp).next).size) :
          ∀ step ≤ steps, (heap.mem
            ((fun address => (heap.mem address).next)^[step + 1]
              heap.freep)).size < nunits := by
        intro step bound
        rcases Nat.lt_or_eq_of_le bound with earlier | rfl
        · exact tried step earlier
        · rw [← present]
          exact Nat.lt_of_not_le small
      simp only [kmallocSearch] at success
      split_ifs at success with fits wrapped
      · cases success
        exact Or.inl ⟨prevp, prevFree, fits, rfl, rfl⟩
      · refine Or.inr ⟨invariant.noneFits_of_lap (triedToo fits)
          (present.symm.trans wrapped), ?_⟩
        split at success
        · cases success
        · rename_i p grown stateGrown acquiring
          refine ⟨fuel, p, grown, stateGrown, acquiring, ?_⟩
          split_ifs at success with failed
          · exact Or.inl ⟨failed, Option.some.inj success⟩
          · exact Or.inr ⟨failed, success⟩
      · exact induction (steps + 1) present
          (fun step bound => triedToo fits step (Nat.le_of_lt_succ bound))
          success

theorem kmallocSearch_lap (invariant : HeapInv least image heap free live)
    {result : Nat}
    (success : kmallocSearch source nunits fuel heap.freep
      (heap.mem heap.freep).next heap state =
        some (result, after, stateAfter)) :
    LapOutcome source nunits heap free state result after stateAfter :=
  kmallocSearch_lap_from invariant 0 rfl
    (fun step bound => absurd bound (Nat.not_lt_zero step)) success

theorem kmallocSearch_outcome
    (invariant : HeapInv least image heap free live) (positive : 0 < nunits)
    (large : least ≤ nunits) (inRange : nunits ≤ 536870912) {result : Nat}
    (success : kmallocSearch source nunits fuel heap.freep
      (heap.mem heap.freep).next heap state =
        some (result, after, stateAfter))
    (rangesOk : RangesOk image after.ranges) :
    KmallocOutcome least image source nunits heap free live state result
      after stateAfter := by
  have heapRangesOk := rangesOk.of_prefix (kmallocSearch_ranges success)
  rcases kmallocSearch_lap invariant success with
    ⟨prevp, prevFree, fits, took, unchanged⟩ |
      ⟨noneFits, rest, p, grown, stateGrown, acquiring, continued⟩
  · obtain ⟨freeAfter, block, kmalloced⟩ := takeBlock_spec invariant
      heapRangesOk prevFree positive large fits
    rw [took] at kmalloced
    exact .taken prevFree fits took unchanged kmalloced
  · have grownOk : RangesOk image grown.ranges := by
      rcases continued with ⟨_, same⟩ | ⟨_, search⟩
      · cases same
        exact rangesOk
      · exact rangesOk.of_prefix (kmallocSearch_ranges search)
    rcases acquireMoreHeap_spec invariant large inRange acquiring grownOk with
      ⟨isNull, rfl, refused⟩ | ⟨range, _, grows, _, acquired⟩
    · have same := (continued.resolve_right fun more => more.1 isNull).2
      cases same
      exact .refused noneFits refused rfl rfl
    · have bounds := acquired.invariant.core.free_bounds grownOk
        acquired.invariant.freepFree
      rw [← acquired.freep] at bounds
      have search := (continued.resolve_left fun failed =>
        Nat.ne_of_gt bounds.1 failed.1).2
      obtain ⟨rfl, _, _, kmalloced⟩ := kmallocSearch_acquired acquired
        positive large grownOk search
      exact .grown noneFits grows kmalloced

theorem kmallocSearch_of_large (fits : nunits ≤ (heap.mem heap.freep).size) :
    ∀ {steps fuel prevp p : Nat}, steps < fuel →
      (fun address => (heap.mem address).next)^[steps] p = heap.freep →
      ∃ result after, kmallocSearch source nunits fuel prevp p heap state =
        some (result, after, state) ∧ after.ranges = heap.ranges := by
  intro steps
  induction steps with
  | zero =>
      intro fuel prevp p enough reached
      obtain ⟨fuel, rfl⟩ : ∃ rest, fuel = rest + 1 := ⟨fuel - 1, by omega⟩
      simp only [Function.iterate_zero, id_eq] at reached
      subst reached
      simp only [kmallocSearch, if_pos fits]
      exact ⟨_, _, rfl, takeBlock_ranges _ _ _ _⟩
  | succ steps induction =>
      intro fuel prevp p enough reached
      obtain ⟨fuel, rfl⟩ : ∃ rest, fuel = rest + 1 := ⟨fuel - 1, by omega⟩
      simp only [kmallocSearch]
      split_ifs with found wrapped
      · exact ⟨_, _, rfl, takeBlock_ranges _ _ _ _⟩
      · exact absurd (wrapped ▸ fits) found
      · rw [Function.iterate_succ_apply] at reached
        exact induction (by omega) reached

theorem kmallocSearch_of_acquired {p : Nat} {grown : Heap}
    {freeAfter : Finset Nat}
    (acquired : Acquired least image heap free live nunits p grown freeAfter)
    (enough : free.card + 2 ≤ fuel) :
    ∃ result after, kmallocSearch source nunits fuel p (grown.mem p).next
      grown state = some (result, after, state) ∧
        after.ranges = grown.ranges := by
  obtain ⟨rfl, invariant, card, reachable⟩ := acquired
  rcases reachable with atFreep | atNext
  · obtain ⟨steps, bound, reached⟩ := invariant.core.ring.exists_iterate
      (invariant.core.ring.mem _ invariant.freepFree) invariant.freepFree
    exact kmallocSearch_of_large atFreep (by omega) reached
  · obtain ⟨fuel, rfl⟩ : ∃ rest, fuel = rest + 1 := ⟨fuel - 1, by omega⟩
    simp only [kmallocSearch, if_pos atNext]
    exact ⟨_, _, rfl, takeBlock_ranges _ _ _ _⟩

/-- The call returns a heap whose ranges are sound. -/
def Returns (image : KernelImage) (outcome : Option (Nat × Heap × σ)) :
    Prop :=
  ∃ result after stateAfter, outcome = some (result, after, stateAfter) ∧
    RangesOk image after.ranges

theorem kmallocSearch_at_freep
    (invariant : HeapInv least image heap free live)
    (rangesOk : RangesOk image heap.ranges)
    (large : least ≤ nunits) (inRange : nunits ≤ 536870912)
    (growthOk : GrowthOk image source nunits heap state) {prevp : Nat}
    (enough : free.card + 3 ≤ fuel) :
    Returns image
      (kmallocSearch source nunits fuel prevp heap.freep heap state) := by
  obtain ⟨fuel, rfl⟩ : ∃ rest, fuel = rest + 1 := ⟨fuel - 1, by omega⟩
  simp only [kmallocSearch, if_true]
  split_ifs with found
  · refine ⟨_, _, _, rfl, ?_⟩
    rw [takeBlock_ranges]
    exact rangesOk
  · obtain ⟨p, grown, stateGrown, acquiring, fresh⟩ :=
      acquireMoreHeap_total invariant growthOk
        (show free.card ≤ fuel by omega)
    simp only [acquiring]
    split_ifs with failed
    · refine ⟨_, _, _, rfl, ?_⟩
      rcases fresh with ⟨_, rfl⟩ | grownOk
      · exact rangesOk
      · exact grownOk
    · have grownOk := fresh.resolve_left fun refused => failed refused.1
      rcases acquireMoreHeap_spec invariant large inRange acquiring grownOk
        with ⟨isNull, _⟩ | ⟨_, _, _, _, acquired⟩
      · exact absurd isNull failed
      · obtain ⟨result, after, success, sameRanges⟩ :=
          kmallocSearch_of_acquired acquired
            (show free.card + 2 ≤ fuel by omega)
        exact ⟨result, after, stateGrown, success, sameRanges ▸ grownOk⟩

/-- The search returns after at most two laps. -/
theorem kmallocSearch_total (invariant : HeapInv least image heap free live)
    (rangesOk : RangesOk image heap.ranges)
    (large : least ≤ nunits) (inRange : nunits ≤ 536870912)
    (growthOk : GrowthOk image source nunits heap state) :
    ∀ {steps fuel prevp p : Nat}, steps + free.card + 3 ≤ fuel →
      (fun address => (heap.mem address).next)^[steps] p = heap.freep →
      Returns image
        (kmallocSearch source nunits fuel prevp p heap state) := by
  -- The number of steps left to the roving pointer decreases until growth.
  intro steps
  induction steps with
  | zero =>
      intro fuel prevp p enough reached
      simp only [Function.iterate_zero, id_eq] at reached
      subst reached
      exact kmallocSearch_at_freep invariant rangesOk large inRange growthOk
        (by omega)
  | succ steps induction =>
      intro fuel prevp p enough reached
      by_cases wrapped : p = heap.freep
      · subst wrapped
        exact kmallocSearch_at_freep invariant rangesOk large inRange growthOk
          (by omega)
      · obtain ⟨fuel, rfl⟩ : ∃ rest, fuel = rest + 1 := ⟨fuel - 1, by omega⟩
        simp only [kmallocSearch, if_neg wrapped]
        split_ifs with found
        · refine ⟨_, _, _, rfl, ?_⟩
          rw [takeBlock_ranges]
          exact rangesOk
        · rw [Function.iterate_succ_apply] at reached
          exact induction (by omega) reached

end Acquire

end Newbos
