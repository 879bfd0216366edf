import Newbos.Frames.Allocator

/-!
# Safety of the page-frame allocator over whole runs

A run is any interleaving of `pfa_allocate` and `pfa_free` in which every
freed frame belongs to a block that was handed out and not yet given back.
The bitmap then always differs from the initial one in exactly the bits of
the live frames.
-/

namespace Newbos

/-- Machine states reached by allocator calls, with the frames that are live
in them. -/
inductive AllocatorRun (layout : Layout) (initial : Machine) :
    Machine → List Nat → Prop where
  | start : AllocatorRun layout initial initial []
  | allocate {machine : Machine} {live : List Nat} (numPageFrames : Nat) :
      AllocatorRun layout initial machine live →
      1 ≤ numPageFrames → numPageFrames < 4294967296 →
      AllocatorRun layout initial
        (pfaAllocate layout numPageFrames machine).2
        (if (pfaAllocate layout numPageFrames machine).1 = 0 then live
          else blockFrames (pfaAllocate layout numPageFrames machine).1
            numPageFrames ++ live)
  | free {machine : Machine} {live : List Nat} (paddr : Nat) :
      AllocatorRun layout initial machine live →
      paddr / fourKb ∈ live →
      AllocatorRun layout initial (pfaFree layout paddr machine)
        (live.erase (paddr / fourKb))

/-- The bitmap differs from the initial one in the bits of the live frames,
and those bits are clear. -/
structure AllocatorInv (layout : Layout) (initial machine : Machine)
    (live : List Nat) : Prop where
  managed : ∀ frame ∈ live, frame ∈ mmapFrames layout.mmap
  nodup : live.Nodup
  bits : ∀ index, bitAt machine.bits index =
    (bitAt initial.bits index ^^
      decide (∃ frame ∈ live, (mmapFrames layout.mmap)[index]? = some frame))
  clear : ∀ index frame, (mmapFrames layout.mmap)[index]? = some frame →
    frame ∈ live → bitAt machine.bits index = false

namespace AllocatorInv

variable {layout : Layout} {initial machine : Machine} {live : List Nat}

theorem start (layout : Layout) (initial : Machine) :
    AllocatorInv layout initial initial [] where
  managed := by simp
  nodup := List.nodup_nil
  bits := by simp
  clear := by simp

theorem block_member {numPageFrames paddr position frame member : Nat}
    {after : Machine}
    (allocated : Allocated layout numPageFrames machine paddr after position
      frame) (inBlock : member ∈ blockFrames paddr numPageFrames) :
    ∃ offset < numPageFrames,
      (mmapFrames layout.mmap)[position + offset]? = some member := by
  have start : paddr / fourKb = frame := by
    rw [allocated.address]
    simp
  rw [blockFrames, start, List.mem_range'_1] at inBlock
  have numbered := allocated.numbered (member - frame) (by omega)
  have sameFrame : frame + (member - frame) = member := by omega
  rw [sameFrame] at numbered
  exact ⟨member - frame, by omega, numbered⟩

/-- No frame of a block that `pfa_allocate` returns is live. -/
theorem block_not_live (invariant : AllocatorInv layout initial machine live)
    {numPageFrames paddr position frame : Nat} {after : Machine}
    (allocated : Allocated layout numPageFrames machine paddr after position
      frame) :
    ∀ member ∈ blockFrames paddr numPageFrames, member ∉ live := by
  intro member inBlock isLive
  obtain ⟨offset, inside, numbered⟩ := block_member allocated inBlock
  have cleared := invariant.clear _ _ numbered isLive
  have wasSet := allocated.wasFree (position + offset) (by omega) (by omega)
  rw [cleared] at wasSet
  simp at wasSet

theorem block_index_iff (framesOk : layout.FramesOk)
    {numPageFrames paddr position frame : Nat} {after : Machine}
    (allocated : Allocated layout numPageFrames machine paddr after position
      frame) (index : Nat) :
    (∃ member ∈ blockFrames paddr numPageFrames,
        (mmapFrames layout.mmap)[index]? = some member) ↔
      position ≤ index ∧ index < position + numPageFrames := by
  constructor
  · rintro ⟨member, inBlock, found⟩
    obtain ⟨offset, inside, numbered⟩ := block_member allocated inBlock
    have sameIndex := framesOk.unordered.position_unique found numbered
    omega
  · rintro ⟨lower, upper⟩
    have start : paddr / fourKb = frame := by
      rw [allocated.address]
      simp
    have numbered := allocated.numbered (index - position) (by omega)
    have sameIndex : position + (index - position) = index := by omega
    rw [sameIndex] at numbered
    refine ⟨_, ?_, numbered⟩
    rw [blockFrames, start, List.mem_range'_1]
    omega

theorem allocate (framesOk : layout.FramesOk)
    (invariant : AllocatorInv layout initial machine live)
    {numPageFrames paddr position frame : Nat} {after : Machine}
    (allocated : Allocated layout numPageFrames machine paddr after position
      frame) :
    AllocatorInv layout initial after
      (blockFrames paddr numPageFrames ++ live) := by
  have fresh := invariant.block_not_live allocated
  have indices := block_index_iff framesOk allocated
  constructor
  · intro member inLive
    rcases List.mem_append.mp inLive with inBlock | older
    · obtain ⟨_, _, numbered⟩ := block_member allocated inBlock
      exact List.mem_of_getElem? numbered
    · exact invariant.managed member older
  · refine List.nodup_append'.mpr ⟨List.nodup_range', invariant.nodup, ?_⟩
    intro member inBlock older
    exact fresh member inBlock older
  · intro index
    rw [allocated.toggled, invariant.bits, Bool.xor_assoc]
    congr 1
    by_cases inBlock : position ≤ index ∧ index < position + numPageFrames
    · obtain ⟨member, blockMember, found⟩ := (indices index).mpr inBlock
      have notOlder : ¬∃ other ∈ live,
          (mmapFrames layout.mmap)[index]? = some other := by
        rintro ⟨other, older, otherFound⟩
        rw [found] at otherFound
        cases otherFound
        exact fresh member blockMember older
      have now : ∃ other ∈ blockFrames paddr numPageFrames ++ live,
          (mmapFrames layout.mmap)[index]? = some other :=
        ⟨member, List.mem_append_left _ blockMember, found⟩
      rw [decide_eq_true inBlock, decide_eq_false notOlder,
        decide_eq_true now]
      rfl
    · have same : (∃ other ∈ blockFrames paddr numPageFrames ++ live,
            (mmapFrames layout.mmap)[index]? = some other) ↔
          ∃ other ∈ live,
            (mmapFrames layout.mmap)[index]? = some other := by
        constructor
        · rintro ⟨other, member, found⟩
          rcases List.mem_append.mp member with blockMember | older
          · exact absurd ((indices index).mp ⟨other, blockMember, found⟩)
              inBlock
          · exact ⟨other, older, found⟩
        · rintro ⟨other, older, found⟩
          exact ⟨other, List.mem_append_right _ older, found⟩
      rw [decide_eq_false inBlock, Bool.xor_false]
      exact (decide_eq_decide.mpr same).symm
  · intro index member found inLive
    rw [allocated.toggled]
    by_cases inBlock : position ≤ index ∧ index < position + numPageFrames
    · rw [allocated.wasFree index inBlock.1 inBlock.2,
        decide_eq_true inBlock]
      rfl
    · rcases List.mem_append.mp inLive with blockMember | older
      · exact absurd ((indices index).mp ⟨member, blockMember, found⟩)
          inBlock
      · rw [invariant.clear index member found older,
          decide_eq_false inBlock]
        rfl

theorem free (framesOk : layout.FramesOk)
    (invariant : AllocatorInv layout initial machine live) {paddr : Nat}
    (isLive : paddr / fourKb ∈ live) :
    AllocatorInv layout initial (pfaFree layout paddr machine)
      (live.erase (paddr / fourKb)) := by
  obtain ⟨position, found⟩ :=
    List.mem_iff_getElem?.mp (invariant.managed _ isLive)
  obtain ⟨_, toggled⟩ := pfaFree_spec framesOk found machine
  have onlyHere : ∀ index, index ≠ position →
      (mmapFrames layout.mmap)[index]? ≠ some (paddr / fourKb) := by
    intro index different atIndex
    exact different (framesOk.unordered.position_unique atIndex found)
  constructor
  · intro member inLive
    exact invariant.managed member (List.mem_of_mem_erase inLive)
  · exact invariant.nodup.erase _
  · intro index
    rw [toggled, invariant.bits, Bool.xor_assoc]
    congr 1
    by_cases here : index = position
    · subst here
      have before : ∃ frame ∈ live,
          (mmapFrames layout.mmap)[index]? = some frame :=
        ⟨_, isLive, found⟩
      have after : ¬∃ frame ∈ live.erase (paddr / fourKb),
          (mmapFrames layout.mmap)[index]? = some frame := by
        rintro ⟨frame, member, atIndex⟩
        rw [found] at atIndex
        cases atIndex
        exact (invariant.nodup.mem_erase_iff.mp member).1 rfl
      rw [decide_eq_true before, decide_eq_false after, decide_eq_true rfl]
      rfl
    · have same : (∃ frame ∈ live.erase (paddr / fourKb),
            (mmapFrames layout.mmap)[index]? = some frame) ↔
          ∃ frame ∈ live,
            (mmapFrames layout.mmap)[index]? = some frame := by
        constructor
        · rintro ⟨frame, member, atIndex⟩
          exact ⟨frame, List.mem_of_mem_erase member, atIndex⟩
        · rintro ⟨frame, member, atIndex⟩
          refine ⟨frame, invariant.nodup.mem_erase_iff.mpr ⟨?_, member⟩,
            atIndex⟩
          intro equality
          exact onlyHere index here (by rw [atIndex, equality])
      rw [decide_eq_false here, Bool.xor_false]
      exact (decide_eq_decide.mpr same).symm
  · intro index frame atIndex inLive
    obtain ⟨different, older⟩ := invariant.nodup.mem_erase_iff.mp inLive
    have elsewhere : index ≠ position := by
      intro equality
      subst equality
      rw [found] at atIndex
      cases atIndex
      exact different rfl
    rw [toggled, invariant.clear index frame atIndex older,
      decide_eq_false elsewhere]
    rfl

theorem of_run (framesOk : layout.FramesOk)
    (run : AllocatorRun layout initial machine live) :
    AllocatorInv layout initial machine live := by
  induction run with
  | start => exact AllocatorInv.start layout initial
  | @allocate machine live numPageFrames _ positive numSmall induction =>
      rcases pfaAllocate_spec framesOk.unordered positive numSmall machine
        with
        failed | ⟨position, frame, allocated⟩
      · rw [failed]
        simpa using induction
      · have nonzero : (pfaAllocate layout numPageFrames machine).1 ≠ 0 := by
          have managed := List.mem_of_getElem?
            (allocated.numbered 0 (by omega))
          have bounds := framesOk.unordered.frame_bounds managed
          rw [allocated.address]
          simp only [fourKb]
          omega
        rw [if_neg nonzero]
        exact induction.allocate framesOk allocated
  | free paddr _ isLive induction => exact induction.free framesOk isLive

end AllocatorInv

/-- Over every run of allocations and frees, a non-zero result of
`pfa_allocate` is a block of consecutive frames of one region, none of them
live; the bits of live frames are clear; and when nothing is live the bitmap
is the initial one. -/
theorem pfa_safety {layout : Layout} {initial machine : Machine}
    {live : List Nat} (framesOk : layout.FramesOk)
    (run : AllocatorRun layout initial machine live) :
    (∀ numPageFrames paddr after, 1 ≤ numPageFrames →
        numPageFrames < 4294967296 →
        pfaAllocate layout numPageFrames machine = (paddr, after) →
        paddr ≠ 0 →
        (∃ region ∈ layout.mmap, paddr % fourKb = 0 ∧ region.addr ≤ paddr ∧
          paddr + fourKb * numPageFrames ≤ region.addr + region.len) ∧
        ∀ frame ∈ blockFrames paddr numPageFrames, frame ∉ live) ∧
      (∀ frame ∈ live, ¬frameFree layout machine frame) ∧
      (live = [] → machine.bits = initial.bits) := by
  have invariant := AllocatorInv.of_run framesOk run
  refine ⟨?_, ?_, ?_⟩
  · intro numPageFrames paddr after positive numSmall result nonzero
    rcases pfaAllocate_spec framesOk.unordered positive numSmall machine
        with
      failed | ⟨position, frame, allocated⟩
    · rw [failed] at result
      cases result
      exact absurd rfl nonzero
    · rw [result] at allocated
      have address : paddr = fourKb * frame := allocated.address
      obtain ⟨region, member, lower, upper⟩ := allocated.oneRegion
      refine ⟨⟨region, member, ?_, ?_, ?_⟩,
        invariant.block_not_live allocated⟩
      · rw [address]
        simp
      · rw [address]
        exact lower
      · rw [address]
        simp only [fourKb] at *
        omega
  · intro frame isLive free
    obtain ⟨position, found⟩ :=
      List.mem_iff_getElem?.mp (invariant.managed frame isLive)
    have cleared := invariant.clear position frame found isLive
    rw [frameFree, idxForPaddr_frame framesOk found, cleared] at free
    simp at free
  · intro noneLive
    apply bits_eq_of_bitAt_eq
    intro index
    rw [invariant.bits, noneLive]
    simp

/-- Two frames at 1 MiB. -/
def twoFrameLayout : Layout :=
  { kernelPdt := 1
    kernelPt := 2
    mmap := [⟨0x100000, 0x2000⟩]
    start := 0xC0003000
    len := 2 }

/-- Empty page tables and a bitmap with every bit set. -/
def blankMachine : Machine :=
  { mem := fun _ _ => Entry.empty
    bits := fun _ => 0xFFFFFFFF#32
    active := 1
    faulted := false }

theorem twoFrameLayout_framesOk : twoFrameLayout.FramesOk where
  map :=
    { region := by
        intro entry member
        have same : entry = ⟨0x100000, 0x2000⟩ := by
          simpa [twoFrameLayout] using member
        subst same
        exact ⟨by decide, by decide, by decide⟩
      ascending := List.pairwise_singleton _ _
      disjoint := List.pairwise_singleton _ _ }
  aboveOneMb := by decide
  total := by decide

theorem pfa_safety_twoFrames :
    ∃ machine, AllocatorRun twoFrameLayout blankMachine machine [257] ∧
      ¬frameFree twoFrameLayout machine 257 := by
  have started : AllocatorRun twoFrameLayout blankMachine blankMachine [] :=
    AllocatorRun.start
  have allocated := AllocatorRun.allocate 2 started (by decide) (by decide)
  have freed := AllocatorRun.free 0x100000 allocated (by decide +kernel)
  have liveEq : (if (pfaAllocate twoFrameLayout 2 blankMachine).1 = 0 then []
      else blockFrames (pfaAllocate twoFrameLayout 2 blankMachine).1 2 ++
        []).erase (0x100000 / fourKb) = [257] := by decide +kernel
  rw [liveEq] at freed
  exact ⟨_, freed,
    (pfa_safety twoFrameLayout_framesOk freed).2.1 257 (by simp)⟩

/-! ## Addresses of no region

`pdt_create` hands its failed allocation to `pfa_free`, so an address that no
region holds does reach it. -/

/-- `idx_for_paddr` compares an address with the upper end of each region
only.  An address that is not managed is recognised when it lies behind all
regions, and in no other case. -/
theorem pfa_free_unmanaged_iff {layout : Layout} {machine : Machine}
    {paddr : Nat} (wellFormed : MmapWellFormed layout.mmap)
    (total : mmapBytes layout.mmap = layout.len * fourKb)
    (unmanaged : ∀ region ∈ layout.mmap, ¬region.Contains paddr) :
    (idxForPaddr layout.mmap layout.len paddr = layout.len ∧
        pfaFree layout paddr machine = machine) ↔
      ∀ region ∈ layout.mmap, region.addr + region.len ≤ paddr := by
  constructor
  · rintro ⟨rejected, _⟩ region member
    by_contra early
    have small : 0 + mmapBytes layout.mmap ≤ 4294963200 :=
      wellFormed.add_bytes_le (by omega) fun _ _ _ => Nat.zero_le _
    exact idxForPaddrFrom_ne wellFormed (by omega) small unmanaged
      ⟨region, member, by omega⟩ rejected
  · intro above
    have rejected : idxForPaddr layout.mmap layout.len paddr = layout.len :=
      idxForPaddrFrom_above wellFormed above 0
    refine ⟨rejected, ?_⟩
    simp only [pfaFree, rejected, if_true]

theorem pfa_free_unmanaged_iff_twoFrames :
    pfaFree twoFrameLayout 0x102000 blankMachine = blankMachine :=
  ((pfa_free_unmanaged_iff twoFrameLayout_framesOk.map (by decide)
    (by simp [twoFrameLayout, MemoryMap.Contains])).mpr (by decide)).2

/-- Address 0, which `pdt_create` frees when it finds no frame, has the number
`0x100000 - 256`, and freeing it flips a bit of whatever is mapped behind the
bitmap. -/
theorem pfa_free_zero_toggles :
    twoFrameLayout.FramesOk ∧
      (∀ region ∈ twoFrameLayout.mmap, ¬region.Contains 0) ∧
      idxForPaddr twoFrameLayout.mmap twoFrameLayout.len 0 = 1048320 ∧
      ∃ machine : Machine,
        (pfaFree twoFrameLayout 0 machine).faulted = false ∧
          (pfaFree twoFrameLayout 0 machine).mem 768 1016 ≠
            machine.mem 768 1016 := by
  refine ⟨twoFrameLayout_framesOk, ?_, by decide,
    { blankMachine with mem := fun _ _ => ptEntry 0x300000 1 0 }, ?_, ?_⟩
  · simp [twoFrameLayout, MemoryMap.Contains]
  · decide +kernel
  · decide +kernel

end Newbos
