import Newbos.Paging.Pages

/-!
# Reserving frames and creating directories

Frames that the allocator hands out become reserved, and a directory made by
`pdt_create` is a reserved frame full of zeroes.
-/

namespace Newbos

theorem pdtKernelFindNextVaddr_machine (layout : Layout) (size : Nat)
    (machine : Machine) :
    (pdtKernelFindNextVaddr layout size machine).2 = machine := by
  rw [pdtKernelFindNextVaddr]
  generalize numEntries - kernelPtPdtIdx = remaining
  induction remaining with
  | zero => rfl
  | succ remaining induction =>
      simp only [pdtFindLoop]
      cases present :
          (machine.mem layout.kernelPdt (1023 - remaining)).isPresent with
      | true =>
          simp only [if_true, kernelSetTemporaryEntry_restore]
          split_ifs
          · rfl
          · exact induction
      | false =>
          simp only [Bool.false_eq_true, if_false]
          split_ifs
          · rfl
          · exact induction

namespace Ownership

/-- More frames in use. -/
def reserve (own : Ownership) (extra : Nat → Prop) : Ownership :=
  { own with reserved := fun frame => own.reserved frame ∨ extra frame }

section Reserve

variable {own : Ownership} {layout : Layout} {machine after : Machine}
  {extra : Nat → Prop}

theorem Lawful.reserve (lawful : own.Lawful layout)
    (managed : ∀ frame, extra frame → frame ∈ mmapFrames layout.mmap) :
    (own.reserve extra).Lawful layout where
  ok := lawful.ok
  notBoot := lawful.notBoot
  directory owning := (lawful.directory owning).imp_right Or.inl
  managed isReserved := isReserved.elim lawful.managed (managed _)
  emptyDirectoryEntry := lawful.emptyDirectoryEntry
  emptyTableEntry := lawful.emptyTableEntry

theorem Holds.reserve (holds : own.Holds layout machine)
    (spare : ∀ frame, extra frame → own.Spare layout machine frame)
    (inUse : ∀ frame, extra frame → ¬FreeFrame layout machine frame) :
    (own.reserve extra).Holds layout machine where
  boot := holds.boot
  bootTableEntry := holds.bootTableEntry
  directoryEntry := holds.directoryEntry
  managed := holds.managed
  taken := holds.taken
  notReserved owning present isReserved := by
    cases isReserved with
    | inl earlier => exact holds.notReserved owning present earlier
    | inr isExtra => exact (spare _ isExtra).unnamed owning present rfl
  injective := holds.injective
  kept isReserved := isReserved.elim holds.kept (inUse _)
  tableEntry := holds.tableEntry

theorem Holds.mono {weaker : Ownership} (holds : own.Holds layout machine)
    (owns : ∀ {pdt pdtIdx}, weaker.owns pdt pdtIdx → own.owns pdt pdtIdx)
    (reserved : ∀ {frame}, weaker.reserved frame → own.reserved frame)
    (directoryEntry : ∀ {pdt pdtIdx entry},
      own.directoryEntry pdt pdtIdx entry →
      weaker.directoryEntry pdt pdtIdx entry)
    (tableEntry : ∀ {pdt pdtIdx entry}, own.tableEntry pdt pdtIdx entry →
      weaker.tableEntry pdt pdtIdx entry) :
    weaker.Holds layout machine where
  boot := holds.boot
  bootTableEntry boot ptIdx := tableEntry (holds.bootTableEntry boot ptIdx)
  directoryEntry owning := directoryEntry (holds.directoryEntry (owns owning))
  managed owning := holds.managed (owns owning)
  taken owning := holds.taken (owns owning)
  notReserved owning present isReserved :=
    holds.notReserved (owns owning) present (reserved isReserved)
  injective owning otherOwning :=
    holds.injective (owns owning) (owns otherOwning)
  kept isReserved := holds.kept (reserved isReserved)
  tableEntry owning present ptIdx :=
    tableEntry (holds.tableEntry (owns owning) present ptIdx)

theorem Holds.unreserve (holds : (own.reserve extra).Holds layout machine) :
    own.Holds layout machine :=
  holds.mono id Or.inl id id

theorem Holds.of_unowned (holds : own.Holds layout machine)
    (lawful : own.Lawful layout) {frame : Nat}
    (isReserved : own.reserved frame)
    (owned : ∀ pdtIdx, own.owns frame pdtIdx →
      after.mem frame pdtIdx = machine.mem frame pdtIdx)
    (elsewhere : ∀ other, other ≠ frame → after.mem other = machine.mem other)
    (bits : after.bits = machine.bits) : own.Holds layout after := by
  have notKernel : frame ≠ layout.kernelPdt := by
    rintro rfl
    exact lawful.ok.kernelPdtUnmanaged (lawful.managed isReserved)
  have directory : ∀ {pdt pdtIdx}, own.Slot layout pdt pdtIdx →
      after.mem pdt pdtIdx = machine.mem pdt pdtIdx := by
    intro pdt pdtIdx slot
    by_cases same : pdt = frame
    · subst same
      cases slot with
      | inl owning => exact owned _ owning
      | inr boot => exact absurd boot.1 notKernel
    · rw [elsewhere _ same]
  have table : ∀ {pdt pdtIdx}, own.Slot layout pdt pdtIdx →
      (machine.mem pdt pdtIdx).isPresent = true →
      after.mem (machine.mem pdt pdtIdx).frame =
        machine.mem (machine.mem pdt pdtIdx).frame := by
    intro pdt pdtIdx slot present
    apply elsewhere
    rintro rfl
    exact (holds.table_notDirectory lawful slot present).2 isReserved
  apply holds.of_slots directory
  · intro other isFree
    exact Or.inl ((FreeFrame.congr bits other).mp isFree)
  · intro pdt pdtIdx boot ptIdx
    have same := table (Or.inr boot) (holds.bootPresent boot)
    rw [holds.bootFrame lawful boot] at same
    rw [same]
    exact holds.bootTableEntry boot ptIdx
  · intro pdt pdtIdx owning present ptIdx
    rw [table (Or.inl owning) present]
    exact holds.tableEntry owning present ptIdx

theorem Holds.of_reserved (holds : own.Holds layout machine)
    (lawful : own.Lawful layout) {frame : Nat}
    (isReserved : own.reserved frame)
    (ownsNone : ∀ pdtIdx, ¬own.owns frame pdtIdx)
    (elsewhere : ∀ other, other ≠ frame → after.mem other = machine.mem other)
    (bits : after.bits = machine.bits) : own.Holds layout after :=
  holds.of_unowned lawful isReserved
    (fun pdtIdx owning => absurd owning (ownsNone pdtIdx)) elsewhere bits

theorem Untouched.unreserve {pdt : Nat}
    (untouched : (own.reserve extra).Untouched layout pdt machine after) :
    own.Untouched layout pdt machine after :=
  ⟨fun kind _ outside => untouched.cell (kind.imp_right Or.inl) outside,
    untouched.active, untouched.faulted⟩

theorem Untouched.of_bits {pdt : Nat} (unchanged :
    after = { machine with bits := after.bits }) :
    own.Untouched layout pdt machine after := by
  refine ⟨?_, ?_, ?_⟩
  · intro frame _ index _
    rw [unchanged]
  · rw [unchanged]
  · rw [unchanged]

/-- The frames of a block. -/
def Block (frame count other : Nat) : Prop :=
  frame ≤ other ∧ other < frame + count

theorem block_one {frame other : Nat} :
    Block frame 1 other ↔ other = frame := by
  rw [Block]
  omega

theorem Holds.takesFrames (holds : own.Holds layout machine)
    {count paddr frame : Nat}
    (taken : TakesFrames layout count machine paddr after frame) :
    (own.reserve (Block frame count)).Holds layout after := by
  have mem : after.mem = machine.mem := by rw [taken.unchanged]
  have allocated := holds.of_bits mem fun other isFree =>
    Or.inl ((taken.free other).mp isFree).1
  apply allocated.reserve
  · intro other inBlock
    exact (holds.spare_of_free (taken.wasFree other inBlock.1
      inBlock.2)).of_bits mem
  · intro other inBlock isFree
    exact ((taken.free other).mp isFree).2 inBlock

theorem Lawful.takesFrames (lawful : own.Lawful layout)
    {count paddr frame : Nat}
    (taken : TakesFrames layout count machine paddr after frame) :
    (own.reserve (Block frame count)).Lawful layout :=
  lawful.reserve fun other inBlock =>
    (taken.wasFree other inBlock.1 inBlock.2).1

theorem Holds.pfaFree_spare (holds : own.Holds layout machine)
    (lawful : own.Lawful layout) {frame : Nat}
    (spare : own.Spare layout machine frame)
    (inUse : ¬FreeFrame layout machine frame) :
    own.Holds layout (pfaFree layout (fourKb * frame) machine) := by
  obtain ⟨unchanged, free⟩ :=
    pfaFree_frames lawful.ok.framesOk spare.managed inUse
  have mem : (pfaFree layout (fourKb * frame) machine).mem =
      machine.mem := by rw [unchanged]
  apply holds.of_bits mem
  intro other isFree
  rcases (free other).mp isFree with wasFree | rfl
  · exact Or.inl wasFree
  · exact Or.inr spare

end Reserve

/-- One more directory, owning the tables of some of its entries. -/
def addDirectory (own : Ownership) (directory : Nat)
    (indices : Nat → Prop) : Ownership :=
  { own with owns := fun pdt pdtIdx =>
      own.owns pdt pdtIdx ∨ pdt = directory ∧ indices pdtIdx }

section AddDirectory

variable {own : Ownership} {layout : Layout} {machine : Machine}
  {directory : Nat} {indices : Nat → Prop}

theorem Holds.addDirectory (holds : own.Holds layout machine)
    (lawful : own.Lawful layout)
    (zeroes : ∀ index, machine.mem directory index = Entry.empty) :
    (own.addDirectory directory indices).Holds layout machine := by
  have earlier : ∀ {pdt pdtIdx},
      (own.addDirectory directory indices).owns pdt pdtIdx →
      (machine.mem pdt pdtIdx).isPresent = true → own.owns pdt pdtIdx := by
    intro pdt pdtIdx owning present
    rcases owning with old | ⟨rfl, _⟩
    · exact old
    · rw [zeroes] at present
      cases present
  constructor
  case boot => exact holds.boot
  case bootTableEntry => exact holds.bootTableEntry
  case directoryEntry =>
    intro pdt pdtIdx owning
    rcases owning with old | ⟨rfl, _⟩
    · exact holds.directoryEntry old
    · rw [zeroes]
      exact lawful.emptyDirectoryEntry ..
  case managed =>
    exact fun owning present =>
      holds.managed (earlier owning present) present
  case taken =>
    exact fun owning present => holds.taken (earlier owning present) present
  case notReserved =>
    exact fun owning present =>
      holds.notReserved (earlier owning present) present
  case injective =>
    exact fun owning otherOwning present otherPresent =>
      holds.injective (earlier owning present)
        (earlier otherOwning otherPresent) present otherPresent
  case kept => exact holds.kept
  case tableEntry =>
    exact fun owning present =>
      holds.tableEntry (earlier owning present) present

end AddDirectory

/-- The kernel's directory owns all but the boot entries, and takes what
`PAGING_READ_WRITE` and `PAGING_PL0` write. -/
structure KernelHalf (own : Ownership) (layout : Layout) : Prop where
  owns : ∀ {pdtIdx}, pdtIdx < 1024 →
    own.Slot layout layout.kernelPdt pdtIdx
  table : ∀ pdtIdx paddr,
    own.tableEntry layout.kernelPdt pdtIdx (ptEntry paddr 1 0)
  entry : ∀ pdtIdx frame,
    own.directoryEntry layout.kernelPdt pdtIdx
      (pdtEntry (fourKb * frame) 0 1 0)
  walk : ∀ {pdtIdx entry}, own.directoryEntry layout.kernelPdt pdtIdx entry →
    entry.isPresent = true → entry.bitP = true ∧ entry.bitPS = false

section Create

variable {own : Ownership} {layout : Layout} {machine after : Machine}

theorem KernelHalf.mapAllowed (half : own.KernelHalf layout)
    (paddr vaddr size : Nat) :
    own.MapAllowed layout layout.kernelPdt paddr vaddr size 1 0 :=
  fun _ _ => ⟨half.owns (virtualToPdtIdx_lt _), half.table _ _, half.entry _⟩

theorem KernelHalf.keepsPages (half : own.KernelHalf layout)
    (holds : own.Holds layout machine) (lawful : own.Lawful layout)
    {paddr vaddr size result : Nat} (sizeSmall : size < 4294967296)
    (mapped : pdtMapKernelMemory layout paddr vaddr size 1 0 machine =
      some (result, after)) : KeepsPages layout machine after :=
  holds.mapMemory_keepsPages lawful half.owns ⟨0, half.owns (by decide)⟩
    sizeSmall (half.mapAllowed paddr vaddr _) mapped

theorem KernelHalf.reserve (half : own.KernelHalf layout)
    (extra : Nat → Prop) : (own.reserve extra).KernelHalf layout :=
  ⟨half.owns, half.table, half.entry, half.walk⟩

theorem Holds.mapRound_page (holds : own.Holds layout machine)
    (lawful : own.Lawful layout) {pdt paddr vaddr size mapped : Nat}
    {rw pl : UInt8}
    (slot : own.Slot layout pdt (virtualToPdtIdx vaddr))
    (round : MapRound layout pdt paddr vaddr size rw pl machine mapped after)
    (some_ : mapped ≠ 0) :
    (after.mem pdt (virtualToPdtIdx vaddr)).isPresent = true ∧
      after.mem (after.mem pdt (virtualToPdtIdx vaddr)).frame
        (virtualToPtIdx vaddr) = ptEntry paddr rw pl := by
  cases round with
  | noFrame _ _ => exact absurd rfl some_
  | leaked _ _ _ _ => exact absurd rfl some_
  | @existing count present run =>
      have notDirectory := holds.table_notDirectory lawful slot present
      have directory := writeEntries_elsewhere machine
        (machine.mem pdt (virtualToPdtIdx vaddr)).frame
        (virtualToPtIdx vaddr) count (pageEntries paddr rw pl) pdt
        (lawful.ne_of_notDirectory notDirectory slot)
      rw [directory]
      refine ⟨present, ?_⟩
      simp only [Machine.writeEntries, true_and]
      rw [if_pos ⟨Nat.le_refl _, by omega⟩, Nat.sub_self, pageEntries,
        Nat.mul_zero, Nat.add_zero]
  | @fresh frame count allocated absent _ taken positive run =>
      have spare := holds.spare_of_free
        (taken.wasFree frame (Nat.le_refl _) (Nat.lt_succ_self _))
      have pdtNe :=
        lawful.ne_of_notDirectory (spare.notDirectory lawful) slot
      have below := (lawful.ok.framesOk.unordered.frame_bounds spare.managed).2
      have linked : (pdtEntry (fourKb * frame) 0 rw pl).frame = frame := by
        rw [pdtEntry_frame]
        simp only [fourKb]
        omega
      rw [Machine.setEntry_mem, if_pos ⟨rfl, rfl⟩, linked]
      refine ⟨(pdtEntry_flags ..).1, ?_⟩
      rw [Machine.setEntry_mem, if_neg (fun same => pdtNe same.1.symm)]
      simp only [Machine.writeEntries, true_and]
      rw [if_pos ⟨Nat.le_refl _, by omega⟩, Nat.sub_self, pageEntries,
        Nat.mul_zero, Nat.add_zero]

theorem Holds.translate_mapped (holds : own.Holds layout machine)
    (lawful : own.Lawful layout) (half : own.KernelHalf layout)
    {paddr vaddr size mapped : Nat} (notIdentity : virtualToPdtIdx vaddr ≠ 0)
    (sizePos : size ≠ 0)
    (round : MapRound layout layout.kernelPdt paddr vaddr size 1 0 machine
      mapped after) (some_ : mapped ≠ 0) :
    after.translate layout.kernelPdt vaddr =
      some (paddr % 4294967296 / 4096) := by
  have slot := half.owns (virtualToPdtIdx_lt vaddr)
  obtain ⟨present, page⟩ := holds.mapRound_page lawful slot round some_
  have kept := (holds.mapRound lawful (half.mapAllowed paddr vaddr size)
    sizePos round).1
  have walk : (after.mem layout.kernelPdt (virtualToPdtIdx vaddr)).bitP =
        true ∧
      (after.mem layout.kernelPdt (virtualToPdtIdx vaddr)).bitPS = false := by
    cases slot with
    | inl owning => exact half.walk (kept.directoryEntry owning) present
    | inr boot =>
        rcases boot.2 with isKernel | isIdentity
        · rw [kept.boot boot, bootEntry, if_pos isKernel]
          exact ⟨(pdtEntry_flags ..).2.1, (pdtEntry_flags ..).2.2.1⟩
        · exact absurd isIdentity notIdentity
  have isP := (ptEntry_flags paddr 1 0).2.1
  simp only [Machine.translate, walk.1, walk.2, if_true, page, isP,
    Bool.false_eq_true, if_false, ptEntry_frame]

/-- Mapping one page at the address that the search returns fails in two
cases: the page needs a page table for which there is no frame, or the search
failed and the first word of memory looks like a present entry. -/
def PageMapFails (layout : Layout) (size : Nat) (machine : Machine) : Prop :=
  if (pdtKernelFindNextVaddr layout size machine).1 = 0 then
    (machine.mem 0 0).isPresent = true
  else
    (machine.mem layout.kernelPdt (virtualToPdtIdx
      (pdtKernelFindNextVaddr layout size machine).1)).isPresent = false ∧
    (pfaAllocate layout 1 machine).1 = 0

theorem Holds.identity (holds : own.Holds layout machine) :
    machine.mem layout.kernelPdt 0 = identityEntry := by
  rw [holds.boot ⟨rfl, Or.inr rfl⟩, bootEntry, if_neg (by decide)]

theorem zeroFrame_writeEntries (machine : Machine) (frame first count : Nat)
    (entries : Nat → Entry) :
    (machine.writeEntries frame first count entries).zeroFrame frame =
      machine.zeroFrame frame := by
  apply Machine.ext_mem
  · intro other position
    rw [Machine.zeroFrame_mem, Machine.zeroFrame_mem]
    split_ifs with same
    · rfl
    · rw [writeEntries_elsewhere _ _ _ _ _ _ same]
  · rfl
  · rfl
  · rfl

theorem Holds.mapAtZero (holds : own.Holds layout machine)
    (lawful : own.Lawful layout) (half : own.KernelHalf layout)
    (paddr : Nat) {size : Nat} (onePage : alignUp size fourKb = 4096) :
    ∃ result after,
      pdtMapKernelMemory layout paddr 0 size 1 0 machine =
        some (result, after) ∧
      own.Holds layout after ∧
      own.Untouched layout layout.kernelPdt machine after ∧
      after.zeroFrame 0 = machine.zeroFrame 0 ∧
      (result = 4096 ∨ result = 0 ∧ after = machine ∧
        (machine.mem 0 0).isPresent = true) := by
  have identity := holds.identity
  have present : (machine.mem layout.kernelPdt
      (virtualToPdtIdx 0)).isPresent = true := by
    rw [show virtualToPdtIdx 0 = 0 by decide, identity]
    decide
  have unmanaged : ¬FreeFrame layout machine layout.kernelPdt := fun isFree =>
    lawful.ok.kernelPdtUnmanaged isFree.1
  obtain ⟨mapped, after, round, _, unfolded⟩ := pdtMapLoop_round lawful.ok.toOk
    paddr 0 1 0 lawful.ok.distinct unmanaged (show 4096 % 4096 = 0 by rfl)
    (by decide) (by decide)
  obtain ⟨kept, untouched⟩ := holds.mapRound lawful
    (half.mapAllowed paddr 0 4096) (by decide) round
  rw [pdtMapKernelMemory, pdtMapMemory]
  simp only [onePage]
  rw [show 4096 / fourKb + 1 = 1 + 1 by decide, unfolded, afterRound]
  cases round with
  | noFrame absent _ =>
      rw [present] at absent
      cases absent
  | leaked absent _ _ _ =>
      rw [present] at absent
      cases absent
  | fresh absent _ _ _ _ =>
      rw [present] at absent
      cases absent
  | @existing count _ run =>
      have inSize := run.inSize
      have sameElsewhere := zeroFrame_writeEntries machine
        (machine.mem layout.kernelPdt (virtualToPdtIdx 0)).frame
        (virtualToPtIdx 0) count (pageEntries paddr 1 0)
      have firstFrame : (machine.mem layout.kernelPdt
          (virtualToPdtIdx 0)).frame = 0 := by
        rw [show virtualToPdtIdx 0 = 0 by decide, identity]
        decide
      rw [firstFrame] at sameElsewhere
      by_cases none : count = 0
      · subst none
        refine ⟨0, _, rfl, kept, untouched, ?_, Or.inr ⟨rfl, ?_, ?_⟩⟩
        · rw [firstFrame]
          exact sameElsewhere
        · exact Machine.writeEntries_zero ..
        · have stop := run.stop
          rw [show virtualToPdtIdx 0 = 0 by decide,
            show virtualToPtIdx 0 = 0 by decide, identity,
            show identityEntry.frame = 0 by decide] at stop
          rcases stop with impossible | impossible | blocked
          · omega
          · omega
          · rcases blocked with isPresent | atTmp | atTmp
            · exact isPresent
            · exact absurd atTmp.1 (by decide)
            · exact absurd atTmp.2 (by decide)
      · have one : count = 1 := by omega
        subst one
        refine ⟨4096, _, rfl, kept, untouched, ?_, Or.inl rfl⟩
        rw [firstFrame]
        exact sameElsewhere

theorem Holds.mapKernelPage (holds : own.Holds layout machine)
    (lawful : own.Lawful layout) (half : own.KernelHalf layout)
    (paddr : Nat) {size : Nat} (onePage : alignUp size fourKb = 4096)
    (sizeSmall : size < 4294967296) :
    ∃ vaddr result after,
      pdtKernelFindNextVaddr layout size machine = (vaddr, machine) ∧
      pdtMapKernelMemory layout paddr vaddr size 1 0 machine =
        some (result, after) ∧
      own.Holds layout after ∧
      own.Untouched layout layout.kernelPdt machine after ∧
      KeepsPages layout machine after ∧
      (vaddr = 0 → after.zeroFrame 0 = machine.zeroFrame 0) ∧
      (result = 4096 ∧ (vaddr ≠ 0 →
          after.translate layout.kernelPdt vaddr =
            some (paddr % 4294967296 / 4096)) ∨
        result = 0 ∧ after = machine ∧ PageMapFails layout size machine) := by
  have pages : alignUp size fourKb / fourKb = 1 := by
    rw [onePage]
    decide
  rcases pdtKernelFindNextVaddr_spec layout machine
    (Nat.le_of_eq pages.symm) (by rw [pages]; decide) with
    ⟨pdtIdx, first, lower, upper, free, _, found⟩ | ⟨none, failed⟩
  · have inTable := free.1
    have slotEq := virtualToPdtIdx_address upper
      (show first < 1024 by omega)
    obtain ⟨result, after, mapped, round, outcome⟩ :=
      pdtMapKernelMemory_freePages lawful.ok.toOk
        (holds.bootPresent (kernelSlot_boot layout))
        (Nat.le_of_eq pages.symm) (by rw [onePage]; decide) upper free paddr
        1 0
    have sizePos : alignUp size fourKb ≠ 0 := by
      rw [onePage]
      decide
    obtain ⟨kept, untouched⟩ := holds.mapRound lawful
      (half.mapAllowed _ _ _) sizePos round
    refine ⟨_, result, after, found, mapped, kept, untouched,
      half.keepsPages holds lawful sizeSmall mapped, by omega, ?_⟩
    rcases outcome with whole | ⟨nothing, same, absent, noFrame⟩
    · rw [onePage] at whole
      refine Or.inl ⟨whole, fun _ => ?_⟩
      exact holds.translate_mapped lawful half (by omega) sizePos round
        (by omega)
    · refine Or.inr ⟨nothing, same, ?_⟩
      have vaddrEq : (pdtKernelFindNextVaddr layout size machine).1 =
          4194304 * pdtIdx + 4096 * first := by
        rw [found]
      rw [PageMapFails, vaddrEq, if_neg (by omega), slotEq, noFrame]
      exact ⟨absent, rfl⟩
  · obtain ⟨result, after, mapped, kept, untouched, zeroed, outcome⟩ :=
      holds.mapAtZero lawful half paddr onePage
    refine ⟨0, result, after, failed, mapped, kept, untouched,
      half.keepsPages holds lawful sizeSmall mapped, fun _ => zeroed, ?_⟩
    rcases outcome with success | ⟨nothing, same, present⟩
    · exact Or.inl ⟨success, fun notNull => absurd rfl notNull⟩
    · refine Or.inr ⟨nothing, same, ?_⟩
      rw [PageMapFails, failed, if_pos rfl]
      exact present

/-- `memset` at address 0 clears the first frame. -/
theorem Holds.zeroPage_zero (holds : own.Holds layout machine) :
    zeroPage layout 0 machine = machine.zeroFrame 0 := by
  have walk : machine.translate layout.kernelPdt 0 = some 0 := by
    simp only [Machine.translate, show virtualToPdtIdx 0 = 0 by decide,
      holds.identity]
    rw [if_pos (by decide), if_pos (by decide)]
    decide
  rw [zeroPage, walk]

theorem Holds.slot_of_zero (holds : own.Holds layout machine)
    (lawful : own.Lawful layout) {pdt pdtIdx : Nat}
    (slot : own.Slot layout pdt pdtIdx)
    (present : (machine.mem pdt pdtIdx).isPresent = true)
    (isZero : (machine.mem pdt pdtIdx).frame = 0) :
    pdt = layout.kernelPdt ∧ pdtIdx = 0 := by
  cases slot with
  | inl owning =>
      have managed := holds.managed owning present
      rw [isZero] at managed
      exact absurd managed lawful.zero_unmanaged
  | inr boot =>
      rw [holds.bootFrame lawful boot, bootTable] at isZero
      split_ifs at isZero with isKernel
      · exact absurd isZero lawful.ok.kernelPtPos
      · exact ⟨boot.1, boot.2.resolve_left isKernel⟩

theorem Holds.table_ne_zero (holds : own.Holds layout machine)
    (lawful : own.Lawful layout) (half : own.KernelHalf layout)
    {pdtIdx : Nat} (small : pdtIdx < 1024) (notIdentity : pdtIdx ≠ 0)
    (present : (machine.mem layout.kernelPdt pdtIdx).isPresent = true) :
    (machine.mem layout.kernelPdt pdtIdx).frame ≠ 0 := fun isZero =>
  notIdentity (holds.slot_of_zero lawful (half.owns small) present isZero).2

theorem Lawful.firstFrame_notDirectory (lawful : own.Lawful layout) :
    own.NotDirectory layout 0 :=
  ⟨Ne.symm lawful.ok.kernelPdtPos, fun isReserved =>
    lawful.zero_unmanaged (lawful.managed isReserved)⟩

theorem Lawful.firstFrame_untouched (lawful : own.Lawful layout)
    (only : FirstFrameOnly machine after) (pdt : Nat) :
    own.Untouched layout pdt machine after :=
  .of_notDirectory lawful.firstFrame_notDirectory only.elsewhere only.active
    only.faulted

theorem Holds.firstFrame (holds : own.Holds layout machine)
    (lawful : own.Lawful layout) (half : own.KernelHalf layout)
    (only : FirstFrameOnly machine after)
    (entries : ∀ {pdt pdtIdx}, own.Slot layout pdt pdtIdx →
      (machine.mem pdt pdtIdx).isPresent = true →
      (machine.mem pdt pdtIdx).frame = 0 → ∀ ptIdx,
      own.tableEntry pdt pdtIdx (after.mem 0 ptIdx)) :
    own.Holds layout after ∧
      (∀ pdt, own.Untouched layout pdt machine after) ∧
      KeepsPages layout machine after := by
  refine ⟨holds.of_table lawful lawful.firstFrame_notDirectory only.elsewhere
      only.bits entries, lawful.firstFrame_untouched only,
    KeepsPages.of_frame lawful.ok.kernelPdtPos ?_ only.elsewhere⟩
  intro pdtIdx lower upper present
  exact holds.table_ne_zero lawful half upper (by omega) present

theorem Holds.zeroFrame_zero (holds : own.Holds layout machine)
    (lawful : own.Lawful layout) (half : own.KernelHalf layout) :
    own.Holds layout (machine.zeroFrame 0) ∧
      own.Untouched layout layout.kernelPdt machine (machine.zeroFrame 0) ∧
      KeepsPages layout machine (machine.zeroFrame 0) := by
  obtain ⟨kept, untouched, keeps⟩ := holds.firstFrame lawful half
    (FirstFrameOnly.zeroFrame machine) (by
      intro pdt pdtIdx _ _ _ ptIdx
      rw [Machine.zeroFrame_mem, if_pos rfl]
      exact lawful.emptyTableEntry ..)
  exact ⟨kept, untouched _, keeps⟩

theorem Holds.firstFrame_translate (holds : own.Holds layout machine)
    (lawful : own.Lawful layout) (half : own.KernelHalf layout)
    (only : FirstFrameOnly machine after) (vaddr : Nat) :
    after.translate layout.kernelPdt vaddr =
      machine.translate layout.kernelPdt vaddr := by
  have kernelPdt := only.elsewhere layout.kernelPdt lawful.ok.kernelPdtPos
  simp only [Machine.translate, kernelPdt]
  by_cases isIdentity : virtualToPdtIdx vaddr = 0
  · rw [isIdentity, holds.identity]
    rfl
  · by_cases valid : (machine.mem layout.kernelPdt
        (virtualToPdtIdx vaddr)).bitP = true
    · have notZero := holds.table_ne_zero lawful half
        (virtualToPdtIdx_lt vaddr) isIdentity (Entry.isPresent_of_bitP valid)
      rw [only.elsewhere _ notZero]
    · rw [if_neg valid, if_neg valid]

/-- `pdt_create` gives back a frame it never had: there is no free frame for
the directory, and the page for it cannot be mapped. -/
def CreateSlips (layout : Layout) (machine : Machine) : Prop :=
  (pfaAllocate layout 1 machine).1 = 0 ∧ PageMapFails layout pdtSize machine

/-- What `pdt_create` leaves behind: a new directory, or a failure that the
caller can see. -/
inductive Created (own : Ownership) (layout : Layout) (machine : Machine) :
    Nat → Nat → Machine → Prop where
  | directory {vaddr frame : Nat} {after : Machine} : vaddr ≠ 0 →
      FreeFrame layout machine frame →
      (own.reserve (Block frame 1)).Holds layout after →
      (∀ index, after.mem frame index = Entry.empty) →
      Created own layout machine vaddr (fourKb * frame) after
  | failed {vaddr paddr : Nat} {after : Machine} : vaddr = 0 ∨ paddr = 0 →
      own.Holds layout after → Created own layout machine vaddr paddr after

/-- `pdt_create` when no frame is free. -/
theorem Holds.pdtCreate_noFrame (holds : own.Holds layout machine)
    (lawful : own.Lawful layout) (half : own.KernelHalf layout)
    (noFrame : pfaAllocate layout 1 machine = (0, machine)) :
    CreateSlips layout machine ∧
        pdtCreate layout machine =
          some (0, 0, pfaFree layout 0 machine) ∨
      ∃ vaddr after, pdtCreate layout machine = some (vaddr, 0, after) ∧
        Created own layout machine vaddr 0 after ∧
        own.Untouched layout layout.kernelPdt machine after ∧
        KeepsPages layout machine after := by
  obtain ⟨vaddr, result, after, found, mapped, kept, untouched, keeps, -,
    outcome⟩ := holds.mapKernelPage lawful half 0
      (show alignUp pdtSize fourKb = 4096 by decide) (by decide)
  have zeroed := kept.zeroFrame_zero lawful half
  have unfolded : pdtCreate layout machine =
      if result < pdtSize then some (0, 0, pfaFree layout 0 after)
      else some (vaddr, 0, zeroPage layout vaddr after) := by
    unfold Newbos.pdtCreate
    rw [noFrame]
    dsimp only
    rw [found]
    dsimp only
    rw [mapped]
  rcases outcome with ⟨whole, walk⟩ | ⟨nothing, same, fails⟩
  · refine Or.inr ⟨vaddr, after.zeroFrame 0, ?_, ?_, ?_, ?_⟩
    · rw [unfolded, if_neg (by rw [whole]; decide)]
      by_cases isNull : vaddr = 0
      · rw [isNull, kept.zeroPage_zero]
      · rw [zeroPage, walk isNull]
    · exact .failed (Or.inr rfl) zeroed.1
    · exact untouched.trans zeroed.2.1
    · exact keeps.trans zeroed.2.2
  · refine Or.inl ⟨⟨by rw [noFrame], fails⟩, ?_⟩
    rw [unfolded, if_pos (by rw [nothing]; decide), same]

theorem Holds.zeroedDirectory {vaddr frame : Nat}
    (kept : (own.reserve (Block frame 1)).Holds layout after)
    (lawful : own.Lawful layout) (half : own.KernelHalf layout)
    (notNull : vaddr ≠ 0) (wasFree : FreeFrame layout machine frame)
    (spare : own.Spare layout after frame) :
    Created own layout machine vaddr (fourKb * frame)
        (after.zeroFrame frame) ∧
      own.Untouched layout layout.kernelPdt after (after.zeroFrame frame) ∧
      KeepsPages layout after (after.zeroFrame frame) := by
  have elsewhere := zeroFrame_elsewhere after frame
  have zeroed := kept.unreserve.of_spare lawful spare elsewhere rfl
  refine ⟨.directory notNull wasFree (zeroed.reserve ?_ ?_) ?_,
    .of_notDirectory (spare.notDirectory lawful) elsewhere rfl rfl,
    kept.unreserve.keepsPages_spare lawful half.owns spare elsewhere⟩
  · intro other isFrame
    rw [block_one.mp isFrame]
    refine ⟨spare.managed, spare.notReserved, ?_⟩
    intro pdt pdtIdx owning
    rw [elsewhere pdt (lawful.ne_of_notDirectory
      (spare.notDirectory lawful) (Or.inl owning))]
    exact spare.unnamed owning
  · intro other isFrame isFree
    exact kept.kept (Or.inr isFrame) isFree
  · intro index
    rw [Machine.zeroFrame_mem, if_pos rfl]

/-- `pdt_create` with a frame for the directory. -/
theorem Holds.pdtCreate_frame (holds : own.Holds layout machine)
    (lawful : own.Lawful layout) (half : own.KernelHalf layout)
    {frame : Nat} {allocated : Machine}
    (taken : TakesFrames layout 1 machine (fourKb * frame) allocated frame)
    (success : pfaAllocate layout 1 machine = (fourKb * frame, allocated)) :
    ∃ vaddr paddr after,
      pdtCreate layout machine = some (vaddr, paddr, after) ∧
      Created own layout machine vaddr paddr after ∧
      own.Untouched layout layout.kernelPdt machine after ∧
      KeepsPages layout machine after ∧
      (vaddr ≠ 0 → kernelStartVaddr ≤ vaddr ∧ vaddr < 4294967296 ∧
        after.translate layout.kernelPdt vaddr =
          some (paddr / fourKb)) := by
  have reserved := holds.takesFrames taken
  have reservedLawful := lawful.takesFrames taken
  have wasFree := taken.wasFree frame (Nat.le_refl _) (Nat.lt_succ_self _)
  have below := (lawful.ok.framesOk.unordered.frame_bounds wasFree.1).2
  have inBlock : Block frame 1 frame := block_one.mpr rfl
  have allocatedUntouched : own.Untouched layout layout.kernelPdt machine
      allocated := Untouched.of_bits taken.unchanged
  obtain ⟨vaddr, result, after, found, mapped, kept, untouched, mapKeeps, -,
    outcome⟩ := reserved.mapKernelPage reservedLawful (half.reserve _)
      (fourKb * frame) (show alignUp pdtSize fourKb = 4096 by decide)
      (by decide)
  have keeps : KeepsPages layout machine after :=
    (KeepsPages.of_mem (by rw [taken.unchanged])).trans mapKeeps
  have unfolded : pdtCreate layout machine =
      if result < pdtSize then
        some (0, 0, pfaFree layout (fourKb * frame) after)
      else
        some (vaddr, fourKb * frame, zeroPage layout vaddr after) := by
    unfold Newbos.pdtCreate
    rw [success]
    dsimp only
    rw [found]
    dsimp only
    rw [mapped]
  have throughout := allocatedUntouched.trans untouched.unreserve
  have spare : own.Spare layout after frame := by
    refine ⟨wasFree.1, fun isReserved => holds.kept isReserved wasFree, ?_⟩
    rintro pdt pdtIdx owning present rfl
    exact kept.notReserved owning present (Or.inr inBlock)
  rcases outcome with ⟨whole, walk⟩ | ⟨nothing, same, fails⟩
  · by_cases isNull : vaddr = 0
    · have zeroed := kept.unreserve.zeroFrame_zero lawful half
      refine ⟨0, fourKb * frame, after.zeroFrame 0, ?_, ?_, ?_, ?_, ?_⟩
      · rw [unfolded, if_neg (by rw [whole]; decide), isNull,
          kept.zeroPage_zero]
      · exact .failed (Or.inl rfl) zeroed.1
      · exact throughout.trans zeroed.2.1
      · exact keeps.trans zeroed.2.2
      · exact fun notNull => absurd rfl notNull
    · have target : fourKb * frame % 4294967296 / 4096 = frame := by
        simp only [fourKb]
        omega
      obtain ⟨created, zeroUntouched, zeroKeeps⟩ :=
        kept.zeroedDirectory lawful half isNull wasFree spare
      refine ⟨vaddr, fourKb * frame, after.zeroFrame frame, ?_, created,
        throughout.trans zeroUntouched, keeps.trans zeroKeeps, ?_⟩
      · rw [unfolded, if_neg (by rw [whole]; decide), zeroPage,
          walk isNull, target]
      · intro notNull
        rcases reserved.findPage (show alignUp pdtSize fourKb = 4096 by
          decide) with failed | ⟨pages, _⟩
        · rw [found] at failed
          exact absurd failed notNull
        · rw [found] at pages
          have below := pages.below
          have upper : vaddr < 4294967296 := by
            have onePage : alignUp pdtSize fourKb = 4096 := by decide
            omega
          refine ⟨pages.kernelHalf, upper, ?_⟩
          rw [show fourKb * frame / fourKb = frame by simp [fourKb]]
          apply zeroKeeps.translate pages.kernelHalf upper
          rw [walk isNull, target]
  · have inUse : ¬FreeFrame layout after frame := kept.kept (Or.inr inBlock)
    have unchanged :=
      (pfaFree_frames lawful.ok.framesOk wasFree.1 inUse).1
    refine ⟨0, 0, pfaFree layout (fourKb * frame) after, ?_, ?_, ?_, ?_, ?_⟩
    · rw [unfolded, if_pos (by rw [nothing]; decide)]
    · exact .failed (Or.inl rfl)
        (kept.unreserve.pfaFree_spare lawful spare inUse)
    · exact throughout.trans (Untouched.of_bits unchanged)
    · exact keeps.trans (.of_mem (by rw [unchanged]))
    · exact fun notNull => absurd rfl notNull

/-- `pdt_create` returns.  Unless it slips, it leaves a new directory or a
visible failure, and in both cases the invariant. -/
theorem Holds.pdtCreate (holds : own.Holds layout machine)
    (lawful : own.Lawful layout) (half : own.KernelHalf layout) :
    CreateSlips layout machine ∧
        Newbos.pdtCreate layout machine =
          some (0, 0, pfaFree layout 0 machine) ∨
      ∃ vaddr paddr after,
        Newbos.pdtCreate layout machine = some (vaddr, paddr, after) ∧
        Created own layout machine vaddr paddr after ∧
        own.Untouched layout layout.kernelPdt machine after ∧
        KeepsPages layout machine after ∧
        (vaddr ≠ 0 → paddr ≠ 0 →
          kernelStartVaddr ≤ vaddr ∧ vaddr < 4294967296 ∧
          after.translate layout.kernelPdt vaddr =
            some (paddr / fourKb)) := by
  rcases pfaAllocate_one lawful.ok.toOk machine with noFrame |
    ⟨frame, address, _, _, _, _, _, taken⟩
  · rcases holds.pdtCreate_noFrame lawful half noFrame with slips |
      ⟨vaddr, after, returned, created, untouched, keeps⟩
    · exact Or.inl slips
    · exact Or.inr ⟨vaddr, 0, after, returned, created, untouched, keeps,
        fun _ hasFrame => absurd rfl hasFrame⟩
  · obtain ⟨vaddr, paddr, after, returned, created, untouched, keeps,
      walk⟩ := holds.pdtCreate_frame lawful half taken (Prod.ext address rfl)
    exact Or.inr ⟨vaddr, paddr, after, returned, created, untouched, keeps,
      fun notNull _ => walk notNull⟩

theorem Holds.pdtCreate_delivered (holds : own.Holds layout machine)
    (lawful : own.Lawful layout) (half : own.KernelHalf layout)
    {vaddr paddr : Nat} {after : Machine}
    (created : Newbos.pdtCreate layout machine = some (vaddr, paddr, after))
    (notNull : vaddr ≠ 0) (hasFrame : paddr ≠ 0) :
    ∃ frame, paddr = fourKb * frame ∧ FreeFrame layout machine frame ∧
      (own.reserve (Block frame 1)).Holds layout after ∧
      ∀ index, after.mem frame index = Entry.empty := by
  rcases holds.pdtCreate lawful half with
    ⟨_, slipped⟩ | ⟨_, _, _, returned, outcome, _⟩
  · rw [slipped] at created
    cases created
    exact absurd rfl notNull
  · rw [returned] at created
    cases created
    cases outcome with
    | failed failure _ =>
        exact absurd failure (not_or.mpr ⟨notNull, hasFrame⟩)
    | @directory frame _ _ wasFree kept zeroes =>
        exact ⟨frame, rfl, wasFree, kept, zeroes⟩

end Create

end Ownership

end Newbos
