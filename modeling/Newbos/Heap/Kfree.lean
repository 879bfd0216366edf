import Newbos.Heap.Invariant

/-!
# Correctness of `kfree`

Freeing links the block into its gap of the ring and then absorbs the upper
neighbour, is absorbed by the lower neighbour, both or neither.  Each of the
four outcomes is a composition of the same two steps.
-/

namespace Newbos

theorem kfreeSearch_sound {mem : Nat → Header} {free : Finset Nat}
    (ring : RingSucc free fun address => (mem address).next) {bp : Nat} :
    ∀ {fuel start p : Nat}, start ∈ free →
      kfreeSearch mem bp fuel start = some p →
      p ∈ free ∧ InGap (fun address => (mem address).next) p bp := by
  intro fuel
  induction fuel with
  | zero =>
      intro start p _ success
      simp [kfreeSearch] at success
  | succ fuel induction =>
      intro start p member success
      simp only [kfreeSearch] at success
      split_ifs at success with between wrap
      · cases success
        exact ⟨member, Or.inl between⟩
      · cases success
        exact ⟨member, Or.inr wrap⟩
      · exact induction (ring.mem start member) success

theorem kfreeSearch_of_iterate {mem : Nat → Header} {bp : Nat} :
    ∀ {steps fuel start : Nat}, steps < fuel →
      InGap (fun address => (mem address).next)
        ((fun address => (mem address).next)^[steps] start) bp →
      ∃ p, kfreeSearch mem bp fuel start = some p := by
  intro steps
  induction steps with
  | zero =>
      intro fuel start enough gap
      obtain ⟨fuel, rfl⟩ : ∃ rest, fuel = rest + 1 := ⟨fuel - 1, by omega⟩
      refine ⟨start, ?_⟩
      simp only [Function.iterate_zero, id_eq, InGap] at gap
      simp only [kfreeSearch]
      split_ifs with between wrap
      · rfl
      · rfl
      · rcases gap with first | second
        · exact absurd first between
        · exact absurd second wrap
  | succ steps induction =>
      intro fuel start enough gap
      obtain ⟨fuel, rfl⟩ : ∃ rest, fuel = rest + 1 := ⟨fuel - 1, by omega⟩
      simp only [kfreeSearch]
      split_ifs
      · exact ⟨start, rfl⟩
      · exact ⟨start, rfl⟩
      · rw [Function.iterate_succ_apply] at gap
        exact induction (by omega) gap

/-- The search ends within one lap of the free list. -/
theorem kfreeSearch_total {mem : Nat → Header} {free : Finset Nat}
    (ring : RingSucc free fun address => (mem address).next)
    {bp start fuel : Nat} (startFree : start ∈ free) (fresh : bp ∉ free)
    (enough : free.card ≤ fuel) :
    ∃ p, kfreeSearch mem bp fuel start = some p := by
  obtain ⟨node, nodeFree, gap⟩ := ring.exists_gap ⟨start, startFree⟩ fresh
  obtain ⟨steps, stepsBound, reached⟩ :=
    ring.exists_iterate startFree nodeFree
  have early : steps < fuel := by omega
  rw [← reached] at gap
  exact kfreeSearch_of_iterate early gap

/-! ## The two joins as steps on the ring -/

section Joins

variable {least : Nat} {image : KernelImage} {heap : Heap}
  {free : Finset Nat} {live : List Nat} {p bp : Nat}

/-- The pointer comparison for the upper neighbour, without the 32-bit
wrap. -/
theorem upper_iff (invariant : HeapInv least image heap free live)
    (rangesOk : RangesOk image heap.ranges) (pFree : p ∈ free)
    (bpLive : bp ∈ live) :
    headerAdd bp (heap.mem bp).size = (heap.mem p).next ↔
      blockEnd heap.mem bp = (heap.mem p).next := by
  have bounds := invariant.core.block_bounds rangesOk (Or.inr bpLive)
  have nextBounds := invariant.core.free_bounds rangesOk
    (invariant.core.ring.mem p pFree)
  simp only [headerAdd, blockEnd, w32] at *
  omega

theorem lower_iff (invariant : HeapInv least image heap free live)
    (rangesOk : RangesOk image heap.ranges) (pFree : p ∈ free)
    (bpLive : bp ∈ live) :
    headerAdd p (heap.mem p).size = bp ↔ blockEnd heap.mem p = bp := by
  have bpBlock : IsBlock image.base free live bp := Or.inr bpLive
  have bpBounds := invariant.core.block_bounds rangesOk bpBlock
  have bpPos := invariant.core.sizePos bp bpBlock
  by_cases isBase : p = image.base
  · have small := (invariant.core.free_bounds rangesOk pFree).2
    rw [isBase] at small ⊢
    simp only [headerAdd, blockEnd, w32, invariant.core.baseSize] at *
    omega
  · have bounds := invariant.core.block_bounds rangesOk
      (Or.inl ⟨pFree, isBase⟩)
    simp only [headerAdd, blockEnd, w32, headerSize] at *
    omega

/-- When `bp` ends where the successor of `p` begins, that successor is a
block of its own. -/
theorem upper_neighbour (invariant : HeapInv least image heap free live)
    (rangesOk : RangesOk image heap.ranges) (pFree : p ∈ free)
    (bpLive : bp ∈ live)
    (adjacent : blockEnd heap.mem bp = (heap.mem p).next) :
    (heap.mem p).next ≠ image.base ∧ (heap.mem p).next ≠ p ∧
      (heap.mem p).next ≠ bp := by
  have bpBlock : IsBlock image.base free live bp := Or.inr bpLive
  have bounds := invariant.core.block_bounds rangesOk bpBlock
  have positive := invariant.core.sizePos bp bpBlock
  have before := image.startBeforeBase
  have inside := image.baseInside
  have notBase : (heap.mem p).next ≠ image.base := by
    simp only [blockEnd, headerSize] at *
    omega
  refine ⟨notBase, ?_, ?_⟩
  · intro same
    have steps := invariant.core.ring.step p pFree
    simp only [same, lt_irrefl, false_and, false_or] at steps
    have baseSame := steps.2 image.base invariant.core.baseFree
    exact notBase (by omega)
  · simp only [blockEnd, headerSize] at *
    omega

/-- The header that `joinUpper` leaves in the freed block. -/
def freedHeader (mem : Nat → Header) (p bp : Nat) : Header :=
  if blockEnd mem bp = (mem p).next then
    ⟨(mem (mem p).next).next, (mem bp).size + (mem (mem p).next).size⟩
  else ⟨(mem p).next, (mem bp).size⟩

theorem joinUpper_eq (invariant : HeapInv least image heap free live)
    (rangesOk : RangesOk image heap.ranges) (pFree : p ∈ free)
    (bpLive : bp ∈ live) :
    joinUpper heap.mem p bp =
      Store.set heap.mem bp (freedHeader heap.mem p bp) := by
  have different : p ≠ bp := fun same =>
    invariant.core.liveNotFree bp bpLive (same ▸ pFree)
  unfold joinUpper freedHeader
  by_cases adjacent : blockEnd heap.mem bp = (heap.mem p).next
  · rw [if_pos adjacent, if_pos ((upper_iff invariant rangesOk pFree
      bpLive).mpr adjacent)]
    obtain ⟨nextNotBase, _, nextNotBp⟩ :=
      upper_neighbour invariant rangesOk pFree bpLive adjacent
    have nextFree := invariant.core.ring.mem p pFree
    have nextBounds := invariant.core.block_bounds rangesOk
      (Or.inl ⟨nextFree, nextNotBase⟩)
    have small : (heap.mem bp).size + (heap.mem (heap.mem p).next).size <
        4294967296 := by
      simp only [blockEnd, headerSize] at *
      omega
    simp only [setNext, setSize, Store.set_same, Store.set_set,
      Store.set_other _ _ different, Store.set_other _ _ nextNotBp,
      w32_of_lt small]
  · rw [if_neg adjacent, if_neg fun same => adjacent
      ((upper_iff invariant rangesOk pFree bpLive).mp same)]
    rfl

theorem joinLower_eq (invariant : HeapInv least image heap free live)
    (rangesOk : RangesOk image heap.ranges) (pFree : p ∈ free)
    (bpLive : bp ∈ live) :
    joinLower (joinUpper heap.mem p bp) p bp =
      Store.set (Store.set heap.mem bp (freedHeader heap.mem p bp)) p
        (if blockEnd heap.mem p = bp then
          ⟨(freedHeader heap.mem p bp).next,
            (heap.mem p).size + (freedHeader heap.mem p bp).size⟩
        else ⟨bp, (heap.mem p).size⟩) := by
  have different : p ≠ bp := fun same =>
    invariant.core.liveNotFree bp bpLive (same ▸ pFree)
  rw [joinUpper_eq invariant rangesOk pFree bpLive]
  simp only [joinLower, Store.set_other _ _ different]
  by_cases adjacent : blockEnd heap.mem p = bp
  · rw [if_pos adjacent, if_pos ((lower_iff invariant rangesOk pFree
      bpLive).mpr adjacent)]
    have bpBounds := invariant.core.block_bounds rangesOk (Or.inr bpLive)
    have small : (heap.mem p).size + (freedHeader heap.mem p bp).size <
        4294967296 := by
      unfold freedHeader
      split_ifs with upper
      · have nextFree := invariant.core.ring.mem p pFree
        obtain ⟨nextNotBase, _, _⟩ :=
          upper_neighbour invariant rangesOk pFree bpLive upper
        have nextBounds := invariant.core.block_bounds rangesOk
          (Or.inl ⟨nextFree, nextNotBase⟩)
        simp only [blockEnd, headerSize] at *
        omega
      · simp only [blockEnd, headerSize] at *
        omega
    simp only [setNext, setSize, Store.set_same, Store.set_set,
      Store.set_other _ _ different, Store.set_other _ _ different.symm,
      w32_of_lt small]
  · rw [if_neg adjacent, if_neg fun same => adjacent
      ((lower_iff invariant rangesOk pFree bpLive).mp same)]
    simp only [setNext, Store.set_other _ _ different]

theorem joinLower_other (invariant : HeapInv least image heap free live)
    (rangesOk : RangesOk image heap.ranges) (pFree : p ∈ free)
    (bpLive : bp ∈ live) {address : Nat} (notP : address ≠ p)
    (notBp : address ≠ bp) :
    joinLower (joinUpper heap.mem p bp) p bp address = heap.mem address := by
  rw [joinLower_eq invariant rangesOk pFree bpLive,
    Store.set_other _ _ notP, Store.set_other _ _ notBp]

/-- The free list after `bp` is linked and its upper neighbour absorbed. -/
def freeAfterUpper (mem : Nat → Header) (free : Finset Nat) (p bp : Nat) :
    Finset Nat :=
  if blockEnd mem bp = (mem p).next then
    (insert bp free).erase (mem p).next
  else insert bp free

/-- The free list after `kfree`. -/
def freeAfter (mem : Nat → Header) (free : Finset Nat) (p bp : Nat) :
    Finset Nat :=
  if blockEnd mem p = bp then (freeAfterUpper mem free p bp).erase bp
  else freeAfterUpper mem free p bp

theorem freeAfter_card_le (mem : Nat → Header) (free : Finset Nat)
    (p bp : Nat) : (freeAfter mem free p bp).card ≤ free.card + 1 := by
  have inserted := Finset.card_insert_le bp free
  have upper : (freeAfterUpper mem free p bp).card ≤ free.card + 1 := by
    unfold freeAfterUpper
    split_ifs
    · exact (Finset.card_erase_le).trans inserted
    · exact inserted
  unfold freeAfter
  split_ifs
  · exact (Finset.card_erase_le).trans upper
  · exact upper

theorem core_after_upper (invariant : HeapInv least image heap free live)
    (rangesOk : RangesOk image heap.ranges) (pFree : p ∈ free)
    (bpLive : bp ∈ live)
    (gap : InGap (fun address => (heap.mem address).next) p bp) :
    HeapCore image
      (Store.set (Store.set heap.mem bp (freedHeader heap.mem p bp)) p
        ⟨bp, (heap.mem p).size⟩)
      heap.ranges (freeAfterUpper heap.mem free p bp) (live.erase bp) := by
  have bpFresh := invariant.core.liveNotFree bp bpLive
  have different : p ≠ bp := fun same => bpFresh (same ▸ pFree)
  have bpNotBase := invariant.core.block_ne_base rangesOk (Or.inr bpLive)
  have released := invariant.core.release rangesOk pFree bpLive gap
  simp only [setNext, Store.set_other _ _ different] at released
  unfold freedHeader freeAfterUpper
  split_ifs with adjacent
  · obtain ⟨nextNotBase, nextNotP, nextNotBp⟩ :=
      upper_neighbour invariant rangesOk pFree bpLive adjacent
    have merged := released.merge (Finset.mem_insert_self bp free)
      (by simp [Store.set_other _ _ different.symm]) bpNotBase nextNotBase
      (by simpa [blockEnd, Store.set_other _ _ different.symm] using adjacent)
    refine cast (congrArg (fun after => HeapCore image after heap.ranges _ _)
      ?_) merged
    funext address
    by_cases atP : address = p
    · subst atP
      simp [Store.set_other _ _ different]
    · by_cases atBp : address = bp
      · subst atBp
        simp [Store.set_other _ _ atP, Store.set_other _ _ nextNotP,
          Store.set_other _ _ nextNotBp]
      · simp [Store.set_other _ _ atP, Store.set_other _ _ atBp]
  · exact released

theorem mem_freeAfterUpper (invariant : HeapInv least image heap free live)
    (rangesOk : RangesOk image heap.ranges) (pFree : p ∈ free)
    (bpLive : bp ∈ live) :
    p ∈ freeAfterUpper heap.mem free p bp ∧
      bp ∈ freeAfterUpper heap.mem free p bp := by
  unfold freeAfterUpper
  split_ifs with adjacent
  · obtain ⟨_, nextNotP, nextNotBp⟩ :=
      upper_neighbour invariant rangesOk pFree bpLive adjacent
    simp only [Finset.mem_erase, Finset.mem_insert]
    exact ⟨⟨nextNotP.symm, Or.inr pFree⟩, nextNotBp.symm, Or.inl trivial⟩
  · simp only [Finset.mem_insert]
    exact ⟨Or.inr pFree, Or.inl trivial⟩

theorem lower_not_base (invariant : HeapInv least image heap free live)
    (rangesOk : RangesOk image heap.ranges) (bpLive : bp ∈ live)
    (adjacent : blockEnd heap.mem p = bp) : p ≠ image.base := by
  rintro rfl
  refine invariant.core.block_ne_base rangesOk (Or.inr bpLive) ?_
  rw [← adjacent, blockEnd, invariant.core.baseSize, Nat.mul_zero,
    Nat.add_zero]

theorem core_after_lower (invariant : HeapInv least image heap free live)
    (rangesOk : RangesOk image heap.ranges) (pFree : p ∈ free)
    (bpLive : bp ∈ live)
    (gap : InGap (fun address => (heap.mem address).next) p bp) :
    HeapCore image (joinLower (joinUpper heap.mem p bp) p bp)
      heap.ranges (freeAfter heap.mem free p bp) (live.erase bp) := by
  have bpFresh := invariant.core.liveNotFree bp bpLive
  have different : p ≠ bp := fun same => bpFresh (same ▸ pFree)
  have bpNotBase := invariant.core.block_ne_base rangesOk (Or.inr bpLive)
  have upper := core_after_upper invariant rangesOk pFree bpLive gap
  rw [joinLower_eq invariant rangesOk pFree bpLive, freeAfter]
  split_ifs with adjacent
  · have pNotBase := lower_not_base invariant rangesOk bpLive adjacent
    have merged := upper.merge
      (mem_freeAfterUpper invariant rangesOk pFree bpLive).1
      (by simp) pNotBase bpNotBase
      (by simpa [blockEnd] using adjacent)
    simpa [Store.set_other _ _ different.symm] using merged
  · exact upper

theorem freedHeader_end_ne (invariant : HeapInv least image heap free live)
    (rangesOk : RangesOk image heap.ranges) (pFree : p ∈ free)
    (bpLive : bp ∈ live) :
    bp + headerSize * (freedHeader heap.mem p bp).size ≠
      (freedHeader heap.mem p bp).next := by
  unfold freedHeader
  split_ifs with adjacent
  · obtain ⟨nextNotBase, _, _⟩ :=
      upper_neighbour invariant rangesOk pFree bpLive adjacent
    have apart := invariant.coalesced _ (invariant.core.ring.mem p pFree)
      nextNotBase
    simp only [blockEnd, headerSize] at *
    omega
  · exact adjacent

theorem HeapInv.release (invariant : HeapInv least image heap free live)
    (rangesOk : RangesOk image heap.ranges) (pFree : p ∈ free)
    (bpLive : bp ∈ live)
    (gap : InGap (fun address => (heap.mem address).next) p bp) :
    HeapInv least image
      { heap with
        mem := joinLower (joinUpper heap.mem p bp) p bp
        freep := p }
      (freeAfter heap.mem free p bp) (live.erase bp) := by
  have bpFresh := invariant.core.liveNotFree bp bpLive
  have different : p ≠ bp := fun same => bpFresh (same ▸ pFree)
  have members := mem_freeAfterUpper invariant rangesOk pFree bpLive
  refine ⟨core_after_lower invariant rangesOk pFree bpLive gap, ?_, ?_, ?_⟩
  · simp only [freeAfter]
    split_ifs
    · exact Finset.mem_erase.mpr ⟨different, members.1⟩
    · exact members.1
  · have freedEnd := freedHeader_end_ne invariant rangesOk pFree bpLive
    intro address member notBase
    simp only [joinLower_eq invariant rangesOk pFree bpLive]
    rw [blockEnd]
    by_cases atP : address = p
    · subst atP
      rw [Store.set_same]
      by_cases adjacent : blockEnd heap.mem address = bp
      · simp only [if_pos adjacent]
        simp only [blockEnd, headerSize] at *
        omega
      · simp only [if_neg adjacent]
        exact adjacent
    · rw [Store.set_other _ _ atP]
      by_cases atBp : address = bp
      · subst atBp
        rw [Store.set_same]
        exact freedEnd
      · rw [Store.set_other _ _ atBp]
        refine invariant.coalesced address ?_ notBase
        simp only [freeAfter, freeAfterUpper] at member
        split_ifs at member <;>
          simp only [Finset.mem_erase, Finset.mem_insert] at member <;> tauto
  · intro address isLive
    obtain ⟨notBp, wasLive⟩ := invariant.core.liveNodup.mem_erase_iff.mp isLive
    have notP : address ≠ p := fun same =>
      invariant.core.liveNotFree address wasLive (same ▸ pFree)
    simp only [joinLower_other invariant rangesOk pFree bpLive notP notBp]
    exact invariant.liveLarge address wasLive

/-- The freed block is part of the new roving block or of its successor. -/
theorem freed_block_reachable (invariant : HeapInv least image heap free live)
    (rangesOk : RangesOk image heap.ranges) (pFree : p ∈ free)
    (bpLive : bp ∈ live) :
    let after := joinLower (joinUpper heap.mem p bp) p bp
    (heap.mem bp).size ≤ (after p).size ∨
      (heap.mem bp).size ≤ (after (after p).next).size := by
  have bpFresh := invariant.core.liveNotFree bp bpLive
  have different : p ≠ bp := fun same => bpFresh (same ▸ pFree)
  have larger : (heap.mem bp).size ≤ (freedHeader heap.mem p bp).size := by
    unfold freedHeader
    split_ifs
    · exact Nat.le_add_right _ _
    · exact Nat.le_refl _
  intro after
  simp only [after, joinLower_eq invariant rangesOk pFree bpLive]
  split_ifs
  · refine Or.inl ?_
    rw [Store.set_same]
    exact larger.trans (Nat.le_add_left _ _)
  · refine Or.inr ?_
    rw [Store.set_same, Store.set_other _ _ different.symm, Store.set_same]
    exact larger

end Joins

theorem kfree_ranges {fuel ap : Nat} {heap after : Heap}
    (success : kfree fuel ap heap = some after) :
    after.ranges = heap.ranges := by
  simp only [kfree] at success
  split_ifs at success
  · rw [← Option.some.inj success]
  · split at success
    · cases success
    · rw [← Option.some.inj success]

/-- What `kfree` of the block `bp` leaves behind. -/
structure Freed (least : Nat) (image : KernelImage) (heap : Heap)
    (free : Finset Nat) (live : List Nat) (bp : Nat) (after : Heap)
    (freeAfter : Finset Nat) : Prop where
  invariant : HeapInv least image after freeAfter (live.erase bp)
  card : freeAfter.card ≤ free.card + 1
  ranges : after.ranges = heap.ranges
  others : ∀ address ∈ live, address ≠ bp →
    after.mem address = heap.mem address
  reachable : (heap.mem bp).size ≤ (after.mem after.freep).size ∨
    (heap.mem bp).size ≤ (after.mem (after.mem after.freep).next).size

section Spec

variable {least : Nat} {image : KernelImage} {heap : Heap}
  {free : Finset Nat} {live : List Nat} {bp : Nat}

/-- The pointer handed out for a live block leads back to its header, also
when it wraps to null. -/
theorem HeapInv.header_of_pointer
    (invariant : HeapInv least image heap free live)
    (rangesOk : RangesOk image heap.ranges) (bpLive : bp ∈ live) :
    sub32 (headerAdd bp 1) headerSize = bp := by
  have bounds := invariant.core.block_bounds rangesOk (Or.inr bpLive)
  have positive := invariant.core.sizePos bp (Or.inr bpLive)
  have room : bp + headerSize ≤ 4294967296 := by
    simp only [blockEnd, headerSize] at *
    omega
  rw [headerAdd, Nat.mul_one]
  rcases Nat.lt_or_eq_of_le room with below | wraps
  · rw [w32_of_lt below, sub32_of_le (Nat.le_add_left _ _),
      Nat.add_sub_cancel]
  · have header : bp = 4294967288 := by
      simp only [headerSize] at wraps
      omega
    rw [header]
    rfl

/-- Only a block of a single unit can end at 4 GiB right after its header. -/
theorem HeapInv.pointer_ne_zero
    (invariant : HeapInv least image heap free live)
    (rangesOk : RangesOk image heap.ranges) (bpLive : bp ∈ live)
    (large : 2 ≤ (heap.mem bp).size) : headerAdd bp 1 ≠ 0 := by
  have bounds := invariant.core.block_bounds rangesOk (Or.inr bpLive)
  simp only [blockEnd, headerAdd, headerSize, w32] at *
  omega

theorem HeapInv.user_pointer (invariant : HeapInv 2 image heap free live)
    (rangesOk : RangesOk image heap.ranges) (bpLive : bp ∈ live) :
    headerAdd bp 1 ≠ 0 ∧ sub32 (headerAdd bp 1) headerSize = bp :=
  ⟨invariant.pointer_ne_zero rangesOk bpLive
      (invariant.liveLarge bp bpLive),
    invariant.header_of_pointer rangesOk bpLive⟩

theorem kfree_spec (invariant : HeapInv least image heap free live)
    (rangesOk : RangesOk image heap.ranges) (bpLive : bp ∈ live)
    (notNull : headerAdd bp 1 ≠ 0) {fuel : Nat} {after : Heap}
    (success : kfree fuel (headerAdd bp 1) heap = some after) :
    ∃ freeAfter, Freed least image heap free live bp after freeAfter := by
  have header := invariant.header_of_pointer rangesOk bpLive
  simp only [kfree, if_neg notNull, header] at success
  split at success
  · cases success
  · rename_i p found
    cases success
    obtain ⟨pFree, gap⟩ :=
      kfreeSearch_sound invariant.core.ring invariant.freepFree found
    exact ⟨freeAfter heap.mem free p bp,
      { invariant := invariant.release rangesOk pFree bpLive gap
        card := freeAfter_card_le _ _ _ _
        ranges := rfl
        others := fun address isLive notBp =>
          joinLower_other invariant rangesOk pFree bpLive
            (fun same => invariant.core.liveNotFree address isLive
              (same ▸ pFree)) notBp
        reachable := freed_block_reachable invariant rangesOk pFree bpLive }⟩

/-- The search of `kfree` ends within one lap of the free list. -/
theorem HeapInv.kfreeSearch_lap
    (invariant : HeapInv least image heap free live) (bpLive : bp ∈ live)
    {fuel : Nat} (enough : free.card ≤ fuel) :
    ∃ p, kfreeSearch heap.mem bp fuel heap.freep = some p :=
  kfreeSearch_total invariant.core.ring invariant.freepFree
    (invariant.core.liveNotFree bp bpLive) enough

theorem kfree_total (invariant : HeapInv least image heap free live)
    (rangesOk : RangesOk image heap.ranges) (bpLive : bp ∈ live)
    {fuel : Nat} (enough : free.card ≤ fuel) :
    ∃ after, kfree fuel (headerAdd bp 1) heap = some after := by
  have header := invariant.header_of_pointer rangesOk bpLive
  obtain ⟨p, found⟩ := invariant.kfreeSearch_lap bpLive enough
  unfold kfree
  split_ifs
  · exact ⟨_, rfl⟩
  · simp only [header, found]
    exact ⟨_, rfl⟩

end Spec

end Newbos
