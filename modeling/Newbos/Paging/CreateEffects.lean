import Newbos.Frames.Search
import Newbos.Paging.MapCalls
import Newbos.Paging.Spaces

/-!
# The effects of `pdt_create`

`pdt_create` takes a frame, an address and a mapping, and tests the last of the
three results only.  For every state of the bitmap and of the kernel's page
tables it is stated here whether it delivers a directory or leaves the machine
as it was, or does neither.
-/

namespace Newbos

/-- The kernel's directory has the two boot entries, and its other present
entries name page tables of their own, which are managed frames in use.  The
tables may hold anything. -/
def kernelOwnership (layout : Layout) : Ownership where
  owns pdt pdtIdx := pdt = layout.kernelPdt ∧ pdtIdx < 1024 ∧
    ¬Ownership.BootSlot layout pdt pdtIdx
  reserved _ := False
  directoryEntry _ _ entry :=
    entry.isPresent = true → entry.bitP = true ∧ entry.bitPS = false
  tableEntry _ _ _ := True

theorem kernelOwnership_lawful {layout : Layout} (ok : layout.BootOk) :
    (kernelOwnership layout).Lawful layout where
  ok := ok
  notBoot owning := owning.2.2
  directory owning := Or.inl owning.1
  managed impossible := impossible.elim
  emptyDirectoryEntry _ _ := fun present => by cases present
  emptyTableEntry _ _ := trivial

theorem kernelOwnership_half (layout : Layout) :
    (kernelOwnership layout).KernelHalf layout where
  owns {pdtIdx} small := by
    by_cases boot : Ownership.BootSlot layout layout.kernelPdt pdtIdx
    · exact Or.inr boot
    · exact Or.inl ⟨rfl, small, boot⟩
  table _ _ := trivial
  entry _ _ := fun _ => ⟨(pdtEntry_flags ..).2.1, (pdtEntry_flags ..).2.2.1⟩
  walk allowed := allowed

/-- A new directory is delivered: a frame that was free and is in use, full of
zeros, at an address of the kernel half that maps to it. -/
structure DeliversDirectory (layout : Layout) (machine : Machine)
    (vaddr paddr : Nat) (after : Machine) : Prop where
  paddrNotNull : paddr ≠ 0
  wasFree : FreeFrame layout machine (paddr / fourKb)
  isTaken : ¬FreeFrame layout after (paddr / fourKb)
  aligned : paddr % fourKb = 0
  kernelHalf : kernelStartVaddr ≤ vaddr
  mapped : after.translate layout.kernelPdt vaddr = some (paddr / fourKb)
  zeroed : ∀ index, after.mem (paddr / fourKb) index = Entry.empty

/-- `pdt_create` delivers a directory, or returns null pointers and leaves
memory and the bitmap, and with them all translations, as they were. -/
def DeliversOrKeeps (layout : Layout) (machine : Machine)
    (vaddr paddr : Nat) (after : Machine) : Prop :=
  vaddr ≠ 0 ∧ DeliversDirectory layout machine vaddr paddr after ∨
    vaddr = 0 ∧ paddr = 0 ∧ after = machine

/-- Some page of the kernel half can be mapped. -/
def KernelPageFree (layout : Layout) (machine : Machine) : Prop :=
  ∃ pdtIdx first, 768 ≤ pdtIdx ∧ pdtIdx < 1024 ∧
    FreePages layout machine pdtIdx 1 first

/-- The first free page of the kernel half lies in a slot without a page
table. -/
def FirstPageNeedsTable (layout : Layout) (machine : Machine) : Prop :=
  ∃ pdtIdx, 768 ≤ pdtIdx ∧ pdtIdx < 1024 ∧
    (machine.mem layout.kernelPdt pdtIdx).isPresent = false ∧
    ∀ earlier first, 768 ≤ earlier → earlier < pdtIdx →
      ¬FreePages layout machine earlier 1 first

/-- The states in which `pdt_create` does what it should. -/
inductive CreateSound (layout : Layout) (machine : Machine) : Prop where
  /-- There is a free frame and a free page for it. -/
  | page : (∃ frame, FreeFrame layout machine frame) →
      KernelPageFree layout machine → CreateSound layout machine
  /-- There is no free page, and mapping at address 0 fails, since the first
  word of memory reads as a present entry. -/
  | noPage : (∃ frame, FreeFrame layout machine frame) →
      (machine.mem 0 0).isPresent = true → CreateSound layout machine
  /-- There is no frame for the directory, nor for the page table that its
  page needs, and `pfa_free` recognises address 0. -/
  | noTable : (¬∃ frame, FreeFrame layout machine frame) →
      FirstPageNeedsTable layout machine →
      idxForPaddr layout.mmap layout.len 0 = layout.len →
      CreateSound layout machine
  /-- There is no frame and no page, mapping at address 0 fails, and `pfa_free`
  recognises address 0. -/
  | nothing : (¬∃ frame, FreeFrame layout machine frame) →
      ¬KernelPageFree layout machine →
      (machine.mem 0 0).isPresent = true →
      idxForPaddr layout.mmap layout.len 0 = layout.len →
      CreateSound layout machine
  /-- There is no frame and no page, and the first frame, which is cleared,
  is clear already. -/
  | clear : (¬∃ frame, FreeFrame layout machine frame) →
      ¬KernelPageFree layout machine →
      (∀ index, machine.mem 0 index = Entry.empty) →
      CreateSound layout machine

section Search

variable {layout : Layout} {machine : Machine}

theorem pdtFind_zero_iff :
    (pdtKernelFindNextVaddr layout pdtSize machine).1 = 0 ↔
      ¬KernelPageFree layout machine := by
  have pages : alignUp pdtSize fourKb / fourKb = 1 := by decide
  rcases pdtKernelFindNextVaddr_spec layout machine
    (Nat.le_of_eq pages.symm) (by rw [pages]; decide) with
    ⟨pdtIdx, first, lower, upper, free, _, found⟩ | ⟨none, failed⟩
  · rw [pages] at free
    rw [found]
    constructor
    · intro isNull
      omega
    · intro full
      exact absurd ⟨pdtIdx, first, lower, upper, free⟩ full
  · rw [pages] at none
    rw [failed]
    refine ⟨fun _ => ?_, fun _ => rfl⟩
    rintro ⟨pdtIdx, first, lower, upper, free⟩
    exact none pdtIdx first lower upper free

theorem pdtFind_absent_iff (free : KernelPageFree layout machine) :
    (machine.mem layout.kernelPdt (virtualToPdtIdx
        (pdtKernelFindNextVaddr layout pdtSize machine).1)).isPresent =
          false ↔
      FirstPageNeedsTable layout machine := by
  have pages : alignUp pdtSize fourKb / fourKb = 1 := by decide
  have sizePos : 1 ≤ alignUp pdtSize fourKb / fourKb := by decide
  have sizeSmall : alignUp pdtSize fourKb / fourKb ≤ 1024 := by decide
  have slots : numEntries - kernelPtPdtIdx ≤ 256 := by decide
  rcases pdtKernelFindNextVaddr_spec layout machine sizePos sizeSmall with
    ⟨pdtIdx, first, lower, upper, found, _, search⟩ | ⟨none, _⟩
  · have inTable := found.1
    rw [pages] at found inTable
    have atSlot : virtualToPdtIdx
        (pdtKernelFindNextVaddr layout pdtSize machine).1 = pdtIdx := by
      rw [search]
      exact virtualToPdtIdx_address upper (by omega)
    rw [atSlot]
    have full : ∀ earlier other, 768 ≤ earlier → earlier < pdtIdx →
        ¬FreePages layout machine earlier 1 other := by
      intro earlier other early before
      rw [← atSlot, pdtKernelFindNextVaddr] at before
      have none := @pdtFindLoop_first layout pdtSize machine sizePos
        sizeSmall _ slots earlier other early before
      rwa [pages] at none
    constructor
    · intro absent
      exact ⟨pdtIdx, lower, upper, absent, full⟩
    · rintro ⟨needing, early, small, absent, fullBefore⟩
      have allFree : FreePages layout machine needing 1 0 := by
        refine ⟨by omega, ?_⟩
        rintro index _ _ ⟨present, _⟩
        rw [absent] at present
        cases present
      have notLater : ¬needing < pdtIdx := fun before =>
        full needing 0 early before allFree
      have notEarlier : ¬pdtIdx < needing := fun before =>
        fullBefore pdtIdx first (by omega) before found
      have same : pdtIdx = needing := by omega
      rw [same]
      exact absent
  · obtain ⟨pdtIdx, first, lower, upper, isFree⟩ := free
    rw [pages] at none
    exact absurd isFree (none pdtIdx first lower upper)

theorem FirstPageNeedsTable.pageFree
    (needsTable : FirstPageNeedsTable layout machine) :
    KernelPageFree layout machine := by
  obtain ⟨pdtIdx, lower, upper, absent, _⟩ := needsTable
  refine ⟨pdtIdx, 0, lower, upper, by omega, ?_⟩
  rintro index _ _ ⟨present, _⟩
  rw [absent] at present
  cases present

theorem pfaAllocate_one_zero_iff (framesOk : layout.FramesOk)
    (machine : Machine) :
    (pfaAllocate layout 1 machine).1 = 0 ↔
      ¬∃ frame, FreeFrame layout machine frame := by
  rw [← not_iff_not, not_not, ← Ne,
    pfaAllocate_ne_zero_iff framesOk (Nat.le_refl 1) (by decide) machine]
  constructor
  · rintro ⟨position, block, _⟩
    have inRange := block.below
    obtain ⟨frame, found⟩ :=
      framesOk.unordered.exists_frame (show position < layout.len by omega)
    refine ⟨frame, (freeFrame_iff framesOk found).mpr ?_⟩
    exact block.set position (Nat.le_refl _) (Nat.lt_succ_self _)
  · rintro ⟨frame, free⟩
    obtain ⟨position, found⟩ := List.mem_iff_getElem?.mp free.1
    have isSet := (freeFrame_iff framesOk found).mp free
    obtain ⟨inRange, _⟩ := List.getElem?_eq_some_iff.mp found
    rw [framesOk.unordered.frames_length] at inRange
    obtain ⟨region, member, inside⟩ :=
      (mem_mmapFrames_iff framesOk.unordered.region).mp free.1
    refine ⟨position, ⟨inRange, ?_, region, member, ?_⟩, Nat.mod_one _⟩
    · intro index lower upper
      rwa [show index = position by omega]
    · intro index lower upper
      rw [show index = position by omega,
        paddrForIdx_eq framesOk.unordered found]
      exact inside

end Search

section Toggle

variable {layout : Layout} {machine : Machine} {bitIdx paddr : Nat}

theorem Entry.toWord_ofWord (word : BitVec 32) :
    (Entry.ofWord word).toWord = word := by
  apply BitVec.eq_of_getLsbD_eq
  intro index small
  simp only [Entry.toWord, Entry.ofWord, BitVec.getLsbD_append,
    BitVec.getLsbD_extractLsb', Nat.zero_add]
  by_cases lowest : index < 8
  · simp [lowest]
  · by_cases middle : index - 8 < 8
    · have position : 8 + (index - 8) = index := by omega
      simp [lowest, middle, position]
    · have position : 16 + (index - 8 - 8) = index := by omega
      have highest : index - 8 - 8 < 16 := by omega
      simp [lowest, middle, highest, position]

theorem mask_ne_zero (bitIdx : Nat) :
    (1#32 <<< (31 - bitIdx % 32) : BitVec 32) ≠ 0#32 := by
  intro zero
  have bit := congrArg (fun word => word.getLsbD (31 - bitIdx % 32)) zero
  have small : 31 - bitIdx % 32 < 32 := by omega
  simp [small] at bit

/-- Flipping a bit changes the bitmap, or memory, or ends in a fault. -/
theorem toggleBit_ne (running : machine.faulted = false) :
    toggleBit layout bitIdx machine ≠ machine := by
  intro same
  rw [toggleBit] at same
  split_ifs at same with inBitmap
  · have bits : Store.set machine.bits (bitIdx / 32)
        (machine.bits (bitIdx / 32) ^^^ 1#32 <<< (31 - bitIdx % 32)) =
          machine.bits := congrArg Machine.bits same
    have flipped := bitAt_xor machine.bits bitIdx bitIdx
    rw [bits] at flipped
    simp at flipped
  · rw [Machine.xorWord] at same
    split at same
    case h_1 frame walk =>
      generalize indexEq : w32 (layout.start + 4 * (bitIdx / 32)) / 4 % 1024 =
        index at same
      have entry := congrArg (fun after => (after.mem frame index).toWord) same
      simp only [Machine.setEntry_mem, and_self, if_true,
        Entry.toWord_ofWord] at entry
      apply mask_ne_zero bitIdx
      have cancelled := congrArg
        (fun word => (machine.mem frame index).toWord ^^^ word) entry
      simpa only [← BitVec.xor_assoc, BitVec.xor_self, BitVec.zero_xor]
        using cancelled
    case h_2 walk =>
      have faulted := congrArg Machine.faulted same
      rw [running] at faulted
      cases faulted

/-- `pfa_free` does nothing only for an address that it recognises as
unmanaged. -/
theorem pfaFree_eq_iff (running : machine.faulted = false) :
    pfaFree layout paddr machine = machine ↔
      idxForPaddr layout.mmap layout.len paddr = layout.len := by
  rw [pfaFree]
  split_ifs with unmanaged
  · exact ⟨fun _ => unmanaged, fun _ => rfl⟩
  · exact ⟨fun same => absurd same (toggleBit_ne running),
      fun isLen => absurd isLen unmanaged⟩

theorem pfaFree_pfaAllocate (framesOk : layout.FramesOk) (machine : Machine)
    (success : (pfaAllocate layout 1 machine).1 ≠ 0) :
    pfaFree layout (pfaAllocate layout 1 machine).1
      (pfaAllocate layout 1 machine).2 = machine := by
  rcases pfaAllocate_spec framesOk.unordered (Nat.le_refl 1) (by decide)
    machine with failed | ⟨position, frame, taken⟩
  · rw [failed] at success
    exact absurd rfl success
  · have found := taken.numbered 0 Nat.one_pos
    rw [Nat.add_zero, Nat.add_zero] at found
    have aligned : (pfaAllocate layout 1 machine).1 / fourKb = frame := by
      rw [taken.address]
      simp [fourKb]
    obtain ⟨unchanged, toggled⟩ := pfaFree_spec framesOk
      (by rw [aligned]; exact found) (pfaAllocate layout 1 machine).2
    have bits : (pfaFree layout (pfaAllocate layout 1 machine).1
        (pfaAllocate layout 1 machine).2).bits = machine.bits := by
      apply bits_eq_of_bitAt_eq
      intro index
      have sameIndex : (position ≤ index ∧ index < position + 1) ↔
          index = position := by omega
      rw [toggled, taken.toggled, decide_eq_decide.mpr sameIndex,
        Bool.xor_assoc, Bool.xor_self, Bool.xor_false]
    rw [unchanged, bits, taken.unchanged]

end Toggle

namespace Ownership

section Create

variable {own : Ownership} {layout : Layout} {machine allocated : Machine}
  {paddr : Nat}

/-- Mapping a page at the address that was found does nothing when it
fails. -/
theorem Holds.mapPage_fails (holds : own.Holds layout machine)
    (lawful : own.Lawful layout) (fails : PageMapFails layout pdtSize machine)
    (paddr : Nat) :
    pdtMapKernelMemory layout paddr
      (pdtKernelFindNextVaddr layout pdtSize machine).1 pdtSize 1 0 machine =
        some (0, machine) := by
  apply pdtMapMemory_failsAtOnce lawful.ok.toOk lawful.ok.distinct (by decide)
  rw [PageMapFails] at fails
  split_ifs at fails with isNull
  · refine Or.inr (Or.inl ?_)
    rw [isNull, show virtualToPdtIdx 0 = 0 by decide,
      show virtualToPtIdx 0 = 0 by decide, holds.identity,
      show identityEntry.frame = 0 by decide]
    exact ⟨by decide, Or.inl fails⟩
  · exact Or.inr (Or.inr fails)

/-- What `pdt_create` returns once it has called `pfa_allocate`. -/
theorem Holds.pdtCreate_cases (holds : own.Holds layout allocated)
    (lawful : own.Lawful layout) (half : own.KernelHalf layout)
    (returned : pfaAllocate layout 1 machine = (paddr, allocated)) :
    PageMapFails layout pdtSize allocated ∧
        Newbos.pdtCreate layout machine =
          some (0, 0, pfaFree layout paddr allocated) ∨
      ¬PageMapFails layout pdtSize allocated ∧ ∃ mapped after,
        pdtMapKernelMemory layout paddr
            (pdtKernelFindNextVaddr layout pdtSize allocated).1 pdtSize 1 0
            allocated = some (4096, mapped) ∧
        after = zeroPage layout
          (pdtKernelFindNextVaddr layout pdtSize allocated).1 mapped ∧
        Newbos.pdtCreate layout machine =
          some ((pdtKernelFindNextVaddr layout pdtSize allocated).1, paddr,
            after) ∧
        ((pdtKernelFindNextVaddr layout pdtSize allocated).1 = 0 →
          after = allocated.zeroFrame 0) := by
  obtain ⟨vaddr, result, mapped, found, mapping, kept, _, _, zeroed,
    outcome⟩ := holds.mapKernelPage lawful half paddr
      (show alignUp pdtSize fourKb = 4096 by decide) (by decide)
  have unfolded : Newbos.pdtCreate layout machine =
      if result < pdtSize then some (0, 0, pfaFree layout paddr mapped)
      else some (vaddr, paddr, zeroPage layout vaddr mapped) := by
    unfold Newbos.pdtCreate
    rw [returned]
    dsimp only
    rw [found]
    dsimp only
    rw [mapping]
  rcases outcome with ⟨whole, _⟩ | ⟨nothing, same, fails⟩
  · refine Or.inr ⟨?_, mapped, _, ?_, rfl, ?_, ?_⟩
    · intro fails
      have failed := holds.mapPage_fails lawful fails paddr
      rw [found, mapping] at failed
      cases failed
      cases whole
    · rw [found, mapping, whole]
    · rw [unfolded, if_neg (by rw [whole]; decide), found]
    · rw [found]
      rintro rfl
      rw [kept.zeroPage_zero, zeroed rfl]
  · refine Or.inl ⟨fails, ?_⟩
    rw [unfolded, if_pos (by rw [nothing]; decide), same]

theorem Created.delivers {vaddr : Nat} {after : Machine}
    (created : Created own layout machine vaddr paddr after)
    (vaddrNotNull : vaddr ≠ 0) (paddrNotNull : paddr ≠ 0)
    (kernelHalf : kernelStartVaddr ≤ vaddr)
    (mapped : after.translate layout.kernelPdt vaddr =
      some (paddr / fourKb)) :
    DeliversDirectory layout machine vaddr paddr after := by
  cases created with
  | @directory frame _ _ wasFree kept zeroed =>
      have aligned : fourKb * frame / fourKb = frame := by simp [fourKb]
      have inBlock : Block frame 1 (fourKb * frame / fourKb) :=
        block_one.mpr aligned
      refine ⟨paddrNotNull, ?_, kept.kept (Or.inr inBlock),
        Nat.mul_mod_right fourKb frame, kernelHalf, mapped, ?_⟩
      · rw [aligned]
        exact wasFree
      · rw [aligned]
        exact zeroed
  | failed isNull _ =>
      cases isNull with
      | inl noAddress => exact absurd noAddress vaddrNotNull
      | inr noFrame => exact absurd noFrame paddrNotNull

theorem Holds.pdtCreate_frame_iff (holds : own.Holds layout machine)
    (lawful : own.Lawful layout) (half : own.KernelHalf layout)
    {frame : Nat}
    (taken : TakesFrames layout 1 machine (fourKb * frame) allocated frame)
    (success : pfaAllocate layout 1 machine = (fourKb * frame, allocated)) :
    ∃ vaddr paddr after,
      Newbos.pdtCreate layout machine = some (vaddr, paddr, after) ∧
      (DeliversOrKeeps layout machine vaddr paddr after ↔
        CreateSound layout machine) := by
  have hasFrame : ∃ frame, FreeFrame layout machine frame :=
    ⟨frame, taken.wasFree frame (Nat.le_refl _) (Nat.lt_succ_self _)⟩
  have sameMem : allocated.mem = machine.mem := by rw [taken.unchanged]
  have pageFree : KernelPageFree layout allocated ↔
      KernelPageFree layout machine := by
    simp only [KernelPageFree, FreePages, PageTaken, Blocked, sameMem]
  rcases (holds.takesFrames taken).pdtCreate_cases (lawful.takesFrames taken)
    (half.reserve _) success with ⟨fails, returned⟩ |
      ⟨works, _, after, _, _, returned, _⟩
  · refine ⟨0, 0, _, returned, fun _ => ?_, fun _ => Or.inr ⟨rfl, rfl, ?_⟩⟩
    · by_cases isNull :
          (pdtKernelFindNextVaddr layout pdtSize allocated).1 = 0
      · rw [PageMapFails, if_pos isNull, sameMem] at fails
        exact .noPage hasFrame fails
      · rw [pdtFind_zero_iff, not_not, pageFree] at isNull
        exact .page hasFrame isNull
    · have restored := pfaFree_pfaAllocate lawful.ok.framesOk machine
        (by rw [success]; exact taken.notNull)
      rwa [success] at restored
  · refine ⟨_, _, after, returned, ?_⟩
    by_cases isNull :
        (pdtKernelFindNextVaddr layout pdtSize allocated).1 = 0
    · rw [PageMapFails, if_pos isNull, sameMem] at works
      have full : ¬KernelPageFree layout machine := by
        rw [← pageFree]
        exact pdtFind_zero_iff.mp isNull
      constructor
      · rintro (⟨notNull, _⟩ | ⟨_, noAddress, _⟩)
        · exact absurd isNull notNull
        · exact absurd noAddress taken.notNull
      · intro sound
        cases sound with
        | page _ free => exact absurd free full
        | noPage _ present => exact absurd present works
        | noTable noFrame => exact absurd hasFrame noFrame
        | nothing noFrame => exact absurd hasFrame noFrame
        | clear noFrame => exact absurd hasFrame noFrame
    · refine ⟨fun _ => ?_, fun _ => Or.inl ⟨isNull, ?_⟩⟩
      · rw [pdtFind_zero_iff, not_not, pageFree] at isNull
        exact .page hasFrame isNull
      · obtain ⟨vaddr, paddr, final, same, created, _, _, walk⟩ :=
          holds.pdtCreate_frame lawful half taken success
        rw [returned] at same
        cases same
        obtain ⟨kernelHalf, _, mapped⟩ := walk isNull
        exact created.delivers isNull taken.notNull kernelHalf mapped

theorem Holds.pdtCreate_noFrame_iff (holds : own.Holds layout machine)
    (lawful : own.Lawful layout) (half : own.KernelHalf layout)
    (running : machine.faulted = false)
    (failed : pfaAllocate layout 1 machine = (0, machine)) :
    ∃ vaddr paddr after,
      Newbos.pdtCreate layout machine = some (vaddr, paddr, after) ∧
      (DeliversOrKeeps layout machine vaddr paddr after ↔
        CreateSound layout machine) := by
  have noFrame : ¬∃ frame, FreeFrame layout machine frame :=
    (pfaAllocate_one_zero_iff lawful.ok.framesOk machine).mp (by rw [failed])
  rcases holds.pdtCreate_cases lawful half failed with ⟨fails, returned⟩ |
    ⟨works, _, after, _, _, returned, cleared⟩
  · refine ⟨0, 0, _, returned, ?_, ?_⟩
    · rintro (⟨notNull, _⟩ | ⟨_, _, same⟩)
      · exact absurd rfl notNull
      · rw [pfaFree_eq_iff running] at same
        by_cases isNull :
            (pdtKernelFindNextVaddr layout pdtSize machine).1 = 0
        · rw [PageMapFails, if_pos isNull] at fails
          exact .nothing noFrame (pdtFind_zero_iff.mp isNull) fails same
        · rw [PageMapFails, if_neg isNull] at fails
          have free : KernelPageFree layout machine := by
            rwa [pdtFind_zero_iff, not_not] at isNull
          exact .noTable noFrame ((pdtFind_absent_iff free).mp fails.1) same
    · intro sound
      refine Or.inr ⟨rfl, rfl, (pfaFree_eq_iff running).mpr ?_⟩
      cases sound with
      | page hasFrame => exact absurd hasFrame noFrame
      | noPage hasFrame => exact absurd hasFrame noFrame
      | noTable _ _ recognised => exact recognised
      | nothing _ _ _ recognised => exact recognised
      | clear _ full clear =>
          rw [PageMapFails, if_pos (pdtFind_zero_iff.mpr full), clear 0]
            at fails
          cases fails
  · refine ⟨_, _, after, returned, ?_⟩
    by_cases isNull : (pdtKernelFindNextVaddr layout pdtSize machine).1 = 0
    · rw [PageMapFails, if_pos isNull] at works
      have full := pdtFind_zero_iff.mp isNull
      rw [cleared isNull]
      constructor
      · rintro (⟨notNull, _⟩ | ⟨_, _, same⟩)
        · exact absurd isNull notNull
        · refine .clear noFrame full fun index => ?_
          rw [← same, Machine.zeroFrame_mem, if_pos rfl]
      · intro sound
        refine Or.inr ⟨isNull, rfl, ?_⟩
        cases sound with
        | page hasFrame => exact absurd hasFrame noFrame
        | noPage hasFrame => exact absurd hasFrame noFrame
        | noTable _ needsTable => exact absurd needsTable.pageFree full
        | nothing _ _ present => exact absurd present works
        | clear _ _ clear =>
            apply Machine.ext_mem
            · intro frame position
              rw [Machine.zeroFrame_mem]
              split_ifs with first
              · rw [first, clear position]
              · rfl
            · rfl
            · rfl
            · rfl
    · rw [PageMapFails, if_neg isNull, failed] at works
      constructor
      · rintro (⟨_, delivers⟩ | ⟨noAddress, _⟩)
        · exact absurd rfl delivers.paddrNotNull
        · exact absurd noAddress isNull
      · intro sound
        have free : KernelPageFree layout machine := by
          rwa [pdtFind_zero_iff, not_not] at isNull
        cases sound with
        | page hasFrame => exact absurd hasFrame noFrame
        | noPage hasFrame => exact absurd hasFrame noFrame
        | noTable _ needsTable =>
            exact absurd ⟨(pdtFind_absent_iff free).mpr needsTable, rfl⟩ works
        | nothing _ full => exact absurd free full
        | clear _ full => exact absurd free full

end Create

end Ownership

/-- In every state of the bitmap and of the kernel's page tables `pdt_create`
returns, and it delivers a directory or has no effect exactly in the sound
states. -/
theorem pdt_create_delivers_or_keeps_iff {layout : Layout} {machine : Machine}
    (ok : layout.BootOk)
    (holds : (kernelOwnership layout).Holds layout machine)
    (running : machine.faulted = false) :
    ∃ vaddr paddr after,
      pdtCreate layout machine = some (vaddr, paddr, after) ∧
      (DeliversOrKeeps layout machine vaddr paddr after ↔
        CreateSound layout machine) := by
  have lawful := kernelOwnership_lawful ok
  have half := kernelOwnership_half layout
  rcases pfaAllocate_one ok.toOk machine with failed |
    ⟨frame, address, _, _, _, _, _, taken⟩
  · exact holds.pdtCreate_noFrame_iff lawful half running failed
  · exact holds.pdtCreate_frame_iff lawful half taken (Prod.ext address rfl)

theorem bootMachine_kernelOwnership {layout : Layout} (ok : layout.BootOk)
    (pages : Nat) (bits : Nat → BitVec 32) :
    (kernelOwnership layout).Holds layout
      { bootMachine layout pages with bits := bits } := by
  have boot : Boot layout { bootMachine layout pages with bits := bits } := by
    obtain ⟨identity, kernelSlot, others, table⟩ :=
      bootMachine_boot ok.distinct pages
    exact ⟨identity, kernelSlot, others, table⟩
  apply (boot.kernelDirectory fun _ => False).spaceInv.holds.mono
  · rintro pdt pdtIdx ⟨rfl, small, notBoot⟩
    exact ⟨small, Or.inl ⟨rfl, notBoot⟩⟩
  · exact fun impossible => impossible.elim
  · rintro pdt pdtIdx entry ⟨sound, rights⟩ present
    exact ⟨sound.isPresent_iff.mp present, (rights present).1⟩
  · exact fun _ => trivial

theorem pdt_create_delivers_or_keeps_iff_boot :
    ∃ vaddr paddr after,
      pdtCreate twoFrameLayout (bootMachine twoFrameLayout 5) =
        some (vaddr, paddr, after) ∧
      (DeliversOrKeeps twoFrameLayout (bootMachine twoFrameLayout 5) vaddr
          paddr after ↔
        CreateSound twoFrameLayout (bootMachine twoFrameLayout 5)) :=
  pdt_create_delivers_or_keeps_iff twoFrameLayout_bootOk
    (bootMachine_kernelOwnership twoFrameLayout_bootOk 5 _) rfl

/-- The boot directory with no free frame. -/
def fullMachine : Machine :=
  { bootMachine twoFrameLayout 5 with bits := fun _ => 0#32 }

/-- Without a free frame `pdt_create` maps physical address 0 and returns the
page, although its slot has a table and the page itself was free. -/
theorem pdt_create_delivers_frame_zero :
    (kernelOwnership twoFrameLayout).Holds twoFrameLayout fullMachine ∧
      ∃ after,
        pdtCreate twoFrameLayout fullMachine = some (0xC0005000, 0, after) ∧
        ¬DeliversOrKeeps twoFrameLayout fullMachine 0xC0005000 0 after := by
  refine ⟨bootMachine_kernelOwnership twoFrameLayout_bootOk 5 _, ?_⟩
  have evaluated : (pdtCreate twoFrameLayout fullMachine).map
      (fun result => (result.1, result.2.1)) = some (0xC0005000, 0) := by
    decide +kernel
  obtain ⟨⟨vaddr, paddr, after⟩, returned, pair⟩ :=
    Option.map_eq_some_iff.mp evaluated
  obtain ⟨rfl, rfl⟩ := Prod.mk.inj pair
  refine ⟨after, returned, ?_⟩
  rintro (⟨_, delivers⟩ | ⟨noAddress, _⟩)
  · exact delivers.paddrNotNull rfl
  · cases noAddress

end Newbos
