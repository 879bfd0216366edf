import Newbos.Paging.Finder

/-!
# Ownership of page-table frames

Which directory entries own the page table they name.  The invariant is stated
over the set of owning entries, the frames reserved for other uses, and what
directory entries and page-table entries may hold, so that the results about
page tables, about the kernel half and about processes can share it.
-/

namespace Newbos

structure Ownership where
  /-- Directory entries that own the table they name. -/
  owns : Nat → Nat → Prop
  /-- Frames in use that hold no owned table. -/
  reserved : Nat → Prop
  /-- What an owning entry may hold. -/
  directoryEntry : Nat → Nat → Entry → Prop
  /-- What the table of an entry may hold. -/
  tableEntry : Nat → Nat → Entry → Prop

namespace Ownership

/-- The two boot entries of the kernel's directory. -/
def BootSlot (layout : Layout) (pdt pdtIdx : Nat) : Prop :=
  pdt = layout.kernelPdt ∧ (pdtIdx = kernelPtPdtIdx ∨ pdtIdx = 0)

/-- What `boot.s` writes there. -/
def bootEntry (layout : Layout) (pdtIdx : Nat) : Entry :=
  if pdtIdx = kernelPtPdtIdx then pdtEntry (fourKb * layout.kernelPt) 0 1 0
  else identityEntry

/-- The frame that a boot entry names.  Entry 0 is a 4 MiB page, but mapping
and unmapping take its first frame for a page table. -/
def bootTable (layout : Layout) (pdtIdx : Nat) : Nat :=
  if pdtIdx = kernelPtPdtIdx then layout.kernelPt else 0

/-- The entries that mapping and unmapping may work on. -/
def Slot (own : Ownership) (layout : Layout) (pdt pdtIdx : Nat) : Prop :=
  own.owns pdt pdtIdx ∨ BootSlot layout pdt pdtIdx

/-- Directories are reserved frames, or the kernel's directory. -/
structure Lawful (own : Ownership) (layout : Layout) : Prop where
  ok : layout.BootOk
  notBoot : ∀ {pdt pdtIdx}, own.owns pdt pdtIdx →
    ¬BootSlot layout pdt pdtIdx
  directory : ∀ {pdt pdtIdx}, own.owns pdt pdtIdx →
    pdt = layout.kernelPdt ∨ own.reserved pdt
  managed : ∀ {frame}, own.reserved frame → frame ∈ mmapFrames layout.mmap
  emptyDirectoryEntry : ∀ pdt pdtIdx,
    own.directoryEntry pdt pdtIdx Entry.empty
  emptyTableEntry : ∀ pdt pdtIdx, own.tableEntry pdt pdtIdx Entry.empty

/-- The ownership invariant. -/
structure Holds (own : Ownership) (layout : Layout) (machine : Machine) :
    Prop where
  boot : ∀ {pdt pdtIdx}, BootSlot layout pdt pdtIdx →
    machine.mem pdt pdtIdx = bootEntry layout pdtIdx
  bootTableEntry : ∀ {pdt pdtIdx}, BootSlot layout pdt pdtIdx → ∀ ptIdx,
    own.tableEntry pdt pdtIdx
      (machine.mem (bootTable layout pdtIdx) ptIdx)
  directoryEntry : ∀ {pdt pdtIdx}, own.owns pdt pdtIdx →
    own.directoryEntry pdt pdtIdx (machine.mem pdt pdtIdx)
  managed : ∀ {pdt pdtIdx}, own.owns pdt pdtIdx →
    (machine.mem pdt pdtIdx).isPresent = true →
    (machine.mem pdt pdtIdx).frame ∈ mmapFrames layout.mmap
  taken : ∀ {pdt pdtIdx}, own.owns pdt pdtIdx →
    (machine.mem pdt pdtIdx).isPresent = true →
    ¬FreeFrame layout machine (machine.mem pdt pdtIdx).frame
  notReserved : ∀ {pdt pdtIdx}, own.owns pdt pdtIdx →
    (machine.mem pdt pdtIdx).isPresent = true →
    ¬own.reserved (machine.mem pdt pdtIdx).frame
  injective : ∀ {pdt pdtIdx other otherIdx}, own.owns pdt pdtIdx →
    own.owns other otherIdx →
    (machine.mem pdt pdtIdx).isPresent = true →
    (machine.mem other otherIdx).isPresent = true →
    (machine.mem pdt pdtIdx).frame = (machine.mem other otherIdx).frame →
    pdt = other ∧ pdtIdx = otherIdx
  kept : ∀ {frame}, own.reserved frame → ¬FreeFrame layout machine frame
  tableEntry : ∀ {pdt pdtIdx}, own.owns pdt pdtIdx →
    (machine.mem pdt pdtIdx).isPresent = true → ∀ ptIdx,
    own.tableEntry pdt pdtIdx
      (machine.mem (machine.mem pdt pdtIdx).frame ptIdx)

/-- A managed frame that is neither reserved nor an owned table. -/
structure Spare (own : Ownership) (layout : Layout) (machine : Machine)
    (frame : Nat) : Prop where
  managed : frame ∈ mmapFrames layout.mmap
  notReserved : ¬own.reserved frame
  unnamed : ∀ {pdt pdtIdx}, own.owns pdt pdtIdx →
    (machine.mem pdt pdtIdx).isPresent = true →
    (machine.mem pdt pdtIdx).frame ≠ frame

section Steps

variable {own : Ownership} {layout : Layout} {machine after : Machine}

theorem kernelSlot_boot (layout : Layout) :
    BootSlot layout layout.kernelPdt kernelPtPdtIdx :=
  ⟨rfl, Or.inl rfl⟩

theorem Lawful.zero_unmanaged (lawful : own.Lawful layout) :
    0 ∉ mmapFrames layout.mmap := by
  intro managed
  have bounds := lawful.ok.framesOk.unordered.frame_bounds managed
  omega

theorem Lawful.bootTable_unmanaged (lawful : own.Lawful layout)
    (pdtIdx : Nat) : bootTable layout pdtIdx ∉ mmapFrames layout.mmap := by
  rw [bootTable]
  split_ifs
  · exact lawful.ok.kernelPtUnmanaged
  · exact lawful.zero_unmanaged

theorem Lawful.bootTable_ne_kernelPdt (lawful : own.Lawful layout)
    (pdtIdx : Nat) : bootTable layout pdtIdx ≠ layout.kernelPdt := by
  rw [bootTable]
  split_ifs
  · exact Ne.symm lawful.ok.distinct
  · exact Ne.symm lawful.ok.kernelPdtPos

theorem Lawful.bootTable_injective (lawful : own.Lawful layout)
    {pdt pdtIdx other otherIdx : Nat} (boot : BootSlot layout pdt pdtIdx)
    (otherBoot : BootSlot layout other otherIdx)
    (same : bootTable layout pdtIdx = bootTable layout otherIdx) :
    pdt = other ∧ pdtIdx = otherIdx := by
  refine ⟨boot.1.trans otherBoot.1.symm, ?_⟩
  have kernelPtPos := lawful.ok.kernelPtPos
  rcases boot.2 with rfl | rfl
  · rcases otherBoot.2 with rfl | rfl
    · rfl
    · exact absurd same kernelPtPos
  · rcases otherBoot.2 with rfl | rfl
    · exact absurd same.symm kernelPtPos
    · rfl

theorem Holds.bootPresent (holds : own.Holds layout machine)
    {pdt pdtIdx : Nat} (boot : BootSlot layout pdt pdtIdx) :
    (machine.mem pdt pdtIdx).isPresent = true := by
  rw [holds.boot boot, bootEntry]
  split_ifs
  · exact (pdtEntry_flags ..).1
  · decide

theorem Holds.bootFrame (holds : own.Holds layout machine)
    (lawful : own.Lawful layout) {pdt pdtIdx : Nat}
    (boot : BootSlot layout pdt pdtIdx) :
    (machine.mem pdt pdtIdx).frame = bootTable layout pdtIdx := by
  have below := lawful.ok.kernelPtBelow
  rw [holds.boot boot, bootEntry, bootTable]
  split_ifs
  · rw [pdtEntry_frame]
    simp only [fourKb]
    omega
  · decide

theorem Lawful.slot_directory (lawful : own.Lawful layout)
    {pdt pdtIdx : Nat} (slot : own.Slot layout pdt pdtIdx) :
    pdt = layout.kernelPdt ∨ own.reserved pdt := by
  cases slot with
  | inl owning => exact lawful.directory owning
  | inr boot => exact Or.inl boot.1

theorem Lawful.directory_ne_kernelPt (lawful : own.Lawful layout)
    {pdt pdtIdx : Nat} (slot : own.Slot layout pdt pdtIdx) :
    pdt ≠ layout.kernelPt := by
  rintro rfl
  cases lawful.slot_directory slot with
  | inl same => exact lawful.ok.distinct same.symm
  | inr isReserved =>
      exact lawful.ok.kernelPtUnmanaged (lawful.managed isReserved)

theorem Holds.directory_taken (holds : own.Holds layout machine)
    (lawful : own.Lawful layout) {pdt pdtIdx : Nat}
    (slot : own.Slot layout pdt pdtIdx) :
    ¬FreeFrame layout machine pdt := by
  cases lawful.slot_directory slot with
  | inl same =>
      rw [same]
      exact fun free => lawful.ok.kernelPdtUnmanaged free.1
  | inr isReserved => exact holds.kept isReserved

/-- A frame that is no directory of the invariant. -/
def NotDirectory (own : Ownership) (layout : Layout) (frame : Nat) : Prop :=
  frame ≠ layout.kernelPdt ∧ ¬own.reserved frame

theorem Lawful.ne_of_notDirectory (lawful : own.Lawful layout)
    {frame pdt pdtIdx : Nat} (notDirectory : own.NotDirectory layout frame)
    (slot : own.Slot layout pdt pdtIdx) : pdt ≠ frame := by
  rintro rfl
  cases lawful.slot_directory slot with
  | inl same => exact notDirectory.1 same
  | inr isReserved => exact notDirectory.2 isReserved

theorem Holds.table_notDirectory (holds : own.Holds layout machine)
    (lawful : own.Lawful layout) {pdt pdtIdx : Nat}
    (slot : own.Slot layout pdt pdtIdx)
    (present : (machine.mem pdt pdtIdx).isPresent = true) :
    own.NotDirectory layout (machine.mem pdt pdtIdx).frame := by
  cases slot with
  | inl owning =>
      refine ⟨?_, holds.notReserved owning present⟩
      intro same
      apply lawful.ok.kernelPdtUnmanaged
      rw [← same]
      exact holds.managed owning present
  | inr boot =>
      rw [holds.bootFrame lawful boot]
      exact ⟨lawful.bootTable_ne_kernelPdt pdtIdx, fun isReserved =>
        lawful.bootTable_unmanaged pdtIdx (lawful.managed isReserved)⟩

theorem Holds.slot_unique (holds : own.Holds layout machine)
    (lawful : own.Lawful layout) {pdt pdtIdx other otherIdx : Nat}
    (slot : own.Slot layout pdt pdtIdx)
    (otherSlot : own.Slot layout other otherIdx)
    (present : (machine.mem pdt pdtIdx).isPresent = true)
    (otherPresent : (machine.mem other otherIdx).isPresent = true)
    (same : (machine.mem pdt pdtIdx).frame =
      (machine.mem other otherIdx).frame) :
    pdt = other ∧ pdtIdx = otherIdx := by
  cases slot with
  | inl owning =>
      cases otherSlot with
      | inl otherOwning =>
          exact holds.injective owning otherOwning present otherPresent same
      | inr otherBoot =>
          have managed := holds.managed owning present
          rw [same, holds.bootFrame lawful otherBoot] at managed
          exact absurd managed (lawful.bootTable_unmanaged otherIdx)
  | inr boot =>
      cases otherSlot with
      | inl otherOwning =>
          have managed := holds.managed otherOwning otherPresent
          rw [← same, holds.bootFrame lawful boot] at managed
          exact absurd managed (lawful.bootTable_unmanaged pdtIdx)
      | inr otherBoot =>
          rw [holds.bootFrame lawful boot, holds.bootFrame lawful otherBoot]
            at same
          exact lawful.bootTable_injective boot otherBoot same

theorem Holds.slot_tableEntry (holds : own.Holds layout machine)
    (lawful : own.Lawful layout) {pdt pdtIdx : Nat}
    (slot : own.Slot layout pdt pdtIdx)
    (present : (machine.mem pdt pdtIdx).isPresent = true) (ptIdx : Nat) :
    own.tableEntry pdt pdtIdx
      (machine.mem (machine.mem pdt pdtIdx).frame ptIdx) := by
  cases slot with
  | inl owning => exact holds.tableEntry owning present ptIdx
  | inr boot =>
      rw [holds.bootFrame lawful boot]
      exact holds.bootTableEntry boot ptIdx

theorem Holds.spare_of_free (holds : own.Holds layout machine) {frame : Nat}
    (free : FreeFrame layout machine frame) :
    own.Spare layout machine frame := by
  refine ⟨free.1, fun isReserved => holds.kept isReserved free, ?_⟩
  intro pdt pdtIdx owning present same
  apply holds.taken owning present
  rw [same]
  exact free

theorem Spare.notDirectory {frame : Nat} (lawful : own.Lawful layout)
    (spare : own.Spare layout machine frame) :
    own.NotDirectory layout frame := by
  refine ⟨?_, spare.notReserved⟩
  rintro rfl
  exact lawful.ok.kernelPdtUnmanaged spare.managed

/-- The entries of the slots stay, their tables stay good, and only spare
frames become free. -/
theorem Holds.of_slots (holds : own.Holds layout machine)
    (slots : ∀ {pdt pdtIdx}, own.Slot layout pdt pdtIdx →
      after.mem pdt pdtIdx = machine.mem pdt pdtIdx)
    (free : ∀ frame, FreeFrame layout after frame →
      FreeFrame layout machine frame ∨ own.Spare layout machine frame)
    (bootTables : ∀ {pdt pdtIdx}, BootSlot layout pdt pdtIdx → ∀ ptIdx,
      own.tableEntry pdt pdtIdx (after.mem (bootTable layout pdtIdx) ptIdx))
    (tables : ∀ {pdt pdtIdx}, own.owns pdt pdtIdx →
      (machine.mem pdt pdtIdx).isPresent = true → ∀ ptIdx,
      own.tableEntry pdt pdtIdx
        (after.mem (machine.mem pdt pdtIdx).frame ptIdx)) :
    own.Holds layout after := by
  constructor
  case boot =>
    intro pdt pdtIdx boot
    rw [slots (Or.inr boot)]
    exact holds.boot boot
  case bootTableEntry => exact bootTables
  case directoryEntry =>
    intro pdt pdtIdx owning
    rw [slots (Or.inl owning)]
    exact holds.directoryEntry owning
  case managed =>
    intro pdt pdtIdx owning
    rw [slots (Or.inl owning)]
    exact holds.managed owning
  case taken =>
    intro pdt pdtIdx owning
    rw [slots (Or.inl owning)]
    intro present isFree
    cases free _ isFree with
    | inl wasFree => exact holds.taken owning present wasFree
    | inr spare => exact spare.unnamed owning present rfl
  case notReserved =>
    intro pdt pdtIdx owning
    rw [slots (Or.inl owning)]
    exact holds.notReserved owning
  case injective =>
    intro pdt pdtIdx other otherIdx owning otherOwning
    rw [slots (Or.inl owning), slots (Or.inl otherOwning)]
    exact holds.injective owning otherOwning
  case kept =>
    intro frame isReserved isFree
    cases free frame isFree with
    | inl wasFree => exact holds.kept isReserved wasFree
    | inr spare => exact spare.notReserved isReserved
  case tableEntry =>
    intro pdt pdtIdx owning
    rw [slots (Or.inl owning)]
    exact tables owning

/-- Only the bitmap changes, and only spare frames become free. -/
theorem Holds.of_bits (holds : own.Holds layout machine)
    (mem : after.mem = machine.mem)
    (free : ∀ frame, FreeFrame layout after frame →
      FreeFrame layout machine frame ∨ own.Spare layout machine frame) :
    own.Holds layout after := by
  apply holds.of_slots _ free
  · rw [mem]
    exact holds.bootTableEntry
  · rw [mem]
    exact holds.tableEntry
  · intros
    rw [mem]

theorem Spare.of_bits {frame : Nat} (spare : own.Spare layout machine frame)
    (mem : after.mem = machine.mem) : own.Spare layout after frame := by
  refine ⟨spare.managed, spare.notReserved, ?_⟩
  rw [mem]
  exact spare.unnamed

/-- Only a frame that is no directory changes, and it stays a good table for
whichever slot names it. -/
theorem Holds.of_table (holds : own.Holds layout machine)
    (lawful : own.Lawful layout) {frame : Nat}
    (notDirectory : own.NotDirectory layout frame)
    (elsewhere : ∀ other, other ≠ frame → after.mem other = machine.mem other)
    (bits : after.bits = machine.bits)
    (entries : ∀ {pdt pdtIdx}, own.Slot layout pdt pdtIdx →
      (machine.mem pdt pdtIdx).isPresent = true →
      (machine.mem pdt pdtIdx).frame = frame → ∀ ptIdx,
      own.tableEntry pdt pdtIdx (after.mem frame ptIdx)) :
    own.Holds layout after := by
  have directory : ∀ {pdt pdtIdx}, own.Slot layout pdt pdtIdx →
      after.mem pdt = machine.mem pdt := fun slot =>
    elsewhere _ (lawful.ne_of_notDirectory notDirectory slot)
  apply holds.of_slots
  · intro pdt pdtIdx slot
    rw [directory slot]
  · intro other isFree
    exact Or.inl ((FreeFrame.congr bits other).mp isFree)
  · intro pdt pdtIdx boot ptIdx
    by_cases same : bootTable layout pdtIdx = frame
    · rw [same]
      apply entries (Or.inr boot) (holds.bootPresent boot)
      rw [holds.bootFrame lawful boot, same]
    · rw [elsewhere _ same]
      exact holds.bootTableEntry boot ptIdx
  · intro pdt pdtIdx owning present ptIdx
    by_cases same : (machine.mem pdt pdtIdx).frame = frame
    · rw [same]
      exact entries (Or.inl owning) present same ptIdx
    · rw [elsewhere _ same]
      exact holds.tableEntry owning present ptIdx

theorem Holds.of_spare (holds : own.Holds layout machine)
    (lawful : own.Lawful layout) {frame : Nat}
    (spare : own.Spare layout machine frame)
    (elsewhere : ∀ other, other ≠ frame → after.mem other = machine.mem other)
    (bits : after.bits = machine.bits) : own.Holds layout after := by
  apply holds.of_table lawful (spare.notDirectory lawful) elsewhere bits
  rintro pdt pdtIdx (owning | boot) present same
  · exact absurd same (spare.unnamed owning present)
  · rw [holds.bootFrame lawful boot] at same
    rw [← same] at spare
    exact absurd spare.managed (lawful.bootTable_unmanaged pdtIdx)

/-- A change of one owning entry.  Every other memory cell and every frame
that is still named keeps its state. -/
theorem Holds.of_entry (holds : own.Holds layout machine)
    (lawful : own.Lawful layout) {pdt pdtIdx : Nat}
    (owning : own.owns pdt pdtIdx)
    (elsewhere : ∀ other position, ¬(other = pdt ∧ position = pdtIdx) →
      after.mem other position = machine.mem other position)
    (free : ∀ frame, FreeFrame layout after frame →
      FreeFrame layout machine frame ∨
        (machine.mem pdt pdtIdx).isPresent = true ∧
          frame = (machine.mem pdt pdtIdx).frame)
    (entry : own.directoryEntry pdt pdtIdx (after.mem pdt pdtIdx))
    (named : (after.mem pdt pdtIdx).isPresent = true →
      own.Spare layout machine (after.mem pdt pdtIdx).frame ∧
      ¬FreeFrame layout after (after.mem pdt pdtIdx).frame ∧
      ∀ ptIdx, own.tableEntry pdt pdtIdx
        (machine.mem (after.mem pdt pdtIdx).frame ptIdx)) :
    own.Holds layout after := by
  have boot : ∀ {other otherIdx}, BootSlot layout other otherIdx →
      after.mem other otherIdx = machine.mem other otherIdx := by
    intro other otherIdx isBoot
    apply elsewhere
    rintro ⟨rfl, rfl⟩
    exact lawful.notBoot owning isBoot
  have table : ∀ {frame}, own.NotDirectory layout frame →
      after.mem frame = machine.mem frame := by
    intro frame notDirectory
    funext position
    apply elsewhere
    rintro ⟨rfl, _⟩
    exact lawful.ne_of_notDirectory notDirectory (Or.inl owning) rfl
  have others : ∀ {other otherIdx}, own.owns other otherIdx →
      ¬(other = pdt ∧ otherIdx = pdtIdx) →
      (machine.mem other otherIdx).isPresent = true →
      ¬FreeFrame layout after (machine.mem other otherIdx).frame := by
    intro other otherIdx otherOwning different present isFree
    rcases free _ isFree with wasFree | ⟨wasPresent, same⟩
    · exact holds.taken otherOwning present wasFree
    · exact different
        (holds.injective otherOwning owning present wasPresent same)
  constructor
  case boot =>
    intro other otherIdx isBoot
    rw [boot isBoot]
    exact holds.boot isBoot
  case bootTableEntry =>
    intro other otherIdx isBoot
    have isTable := holds.table_notDirectory lawful (Or.inr isBoot)
      (holds.bootPresent isBoot)
    rw [holds.bootFrame lawful isBoot] at isTable
    rw [table isTable]
    exact holds.bootTableEntry isBoot
  case directoryEntry =>
    intro other otherIdx otherOwning
    by_cases same : other = pdt ∧ otherIdx = pdtIdx
    · obtain ⟨rfl, rfl⟩ := same
      exact entry
    · rw [elsewhere _ _ same]
      exact holds.directoryEntry otherOwning
  case managed =>
    intro other otherIdx otherOwning
    by_cases same : other = pdt ∧ otherIdx = pdtIdx
    · obtain ⟨rfl, rfl⟩ := same
      exact fun present => (named present).1.managed
    · rw [elsewhere _ _ same]
      exact holds.managed otherOwning
  case taken =>
    intro other otherIdx otherOwning
    by_cases same : other = pdt ∧ otherIdx = pdtIdx
    · obtain ⟨rfl, rfl⟩ := same
      exact fun present => (named present).2.1
    · rw [elsewhere _ _ same]
      exact others otherOwning same
  case notReserved =>
    intro other otherIdx otherOwning
    by_cases same : other = pdt ∧ otherIdx = pdtIdx
    · obtain ⟨rfl, rfl⟩ := same
      exact fun present => (named present).1.notReserved
    · rw [elsewhere _ _ same]
      exact holds.notReserved otherOwning
  case injective =>
    intro first firstIdx second secondIdx firstOwning secondOwning
    by_cases isFirst : first = pdt ∧ firstIdx = pdtIdx
    · obtain ⟨rfl, rfl⟩ := isFirst
      by_cases isSecond : second = first ∧ secondIdx = firstIdx
      · intros
        exact ⟨isSecond.1.symm, isSecond.2.symm⟩
      · rw [elsewhere _ _ isSecond]
        intro present secondPresent same
        exact absurd same.symm
          ((named present).1.unnamed secondOwning secondPresent)
    · rw [elsewhere _ _ isFirst]
      by_cases isSecond : second = pdt ∧ secondIdx = pdtIdx
      · obtain ⟨rfl, rfl⟩ := isSecond
        intro firstPresent present same
        exact absurd same
          ((named present).1.unnamed firstOwning firstPresent)
      · rw [elsewhere _ _ isSecond]
        exact holds.injective firstOwning secondOwning
  case kept =>
    intro frame isReserved isFree
    rcases free _ isFree with wasFree | ⟨present, rfl⟩
    · exact holds.kept isReserved wasFree
    · exact holds.notReserved owning present isReserved
  case tableEntry =>
    intro other otherIdx otherOwning
    by_cases same : other = pdt ∧ otherIdx = pdtIdx
    · obtain ⟨rfl, rfl⟩ := same
      intro present ptIdx
      rw [table ((named present).1.notDirectory lawful)]
      exact (named present).2.2 ptIdx
    · rw [elsewhere _ _ same]
      intro present
      rw [table (holds.table_notDirectory lawful (Or.inl otherOwning)
        present)]
      exact holds.tableEntry otherOwning present

/-- What mapping needs of its arguments: the slots are worked on by right, and
the entries it writes there are allowed. -/
def MapAllowed (own : Ownership) (layout : Layout)
    (pdt paddr vaddr size : Nat) (rw pl : UInt8) : Prop :=
  ∀ offset, offset < size →
    own.Slot layout pdt (virtualToPdtIdx (vaddr + offset)) ∧
    own.tableEntry pdt (virtualToPdtIdx (vaddr + offset))
      (ptEntry (paddr + offset) rw pl) ∧
    ∀ frame, own.directoryEntry pdt (virtualToPdtIdx (vaddr + offset))
      (pdtEntry (fourKb * frame) 0 rw pl)

theorem virtualToPdtIdx_offset {vaddr step : Nat}
    (inTable : virtualToPtIdx vaddr + step < 1024) :
    virtualToPdtIdx (vaddr + 4096 * step) = virtualToPdtIdx vaddr := by
  rw [virtualToPtIdx_eq] at inTable
  rw [virtualToPdtIdx_eq, virtualToPdtIdx_eq]
  omega

theorem MapAllowed.entries {pdt paddr vaddr size count pdtFrame : Nat}
    {rw pl : UInt8} {tables : Machine}
    (allowed : own.MapAllowed layout pdt paddr vaddr size rw pl)
    (run : TableRun layout tables pdtFrame (virtualToPdtIdx vaddr)
      (virtualToPtIdx vaddr) size count)
    {step : Nat} (within : step < count) :
    own.tableEntry pdt (virtualToPdtIdx vaddr)
      (pageEntries paddr rw pl step) := by
  have inTable := run.inTable
  have inSize := run.inSize
  have entry := (allowed (4096 * step) (by omega)).2.1
  rw [virtualToPdtIdx_offset (by omega)] at entry
  exact entry

/-- Reserved frames and the kernel's directory keep their contents, except for
the owning entries of one directory. -/
structure Untouched (own : Ownership) (layout : Layout) (pdt : Nat)
    (machine after : Machine) : Prop where
  cell : ∀ {frame}, frame = layout.kernelPdt ∨ own.reserved frame →
    ∀ {index}, ¬(frame = pdt ∧ own.owns pdt index) →
    after.mem frame index = machine.mem frame index
  active : after.active = machine.active
  faulted : after.faulted = machine.faulted

theorem Untouched.refl (own : Ownership) (layout : Layout) (pdt : Nat)
    (machine : Machine) : own.Untouched layout pdt machine machine :=
  ⟨fun _ _ _ => rfl, rfl, rfl⟩

theorem Untouched.trans {pdt : Nat} {middle : Machine}
    (first : own.Untouched layout pdt machine middle)
    (second : own.Untouched layout pdt middle after) :
    own.Untouched layout pdt machine after := by
  refine ⟨?_, second.active.trans first.active,
    second.faulted.trans first.faulted⟩
  intro frame kind index outside
  exact (second.cell kind outside).trans (first.cell kind outside)

theorem Untouched.of_notDirectory {pdt frame : Nat}
    (notDirectory : own.NotDirectory layout frame)
    (elsewhere : ∀ other, other ≠ frame → after.mem other = machine.mem other)
    (active : after.active = machine.active)
    (faulted : after.faulted = machine.faulted) :
    own.Untouched layout pdt machine after := by
  refine ⟨?_, active, faulted⟩
  intro other kind index _
  rw [elsewhere]
  rintro rfl
  cases kind with
  | inl same => exact notDirectory.1 same
  | inr isReserved => exact notDirectory.2 isReserved

theorem Untouched.of_entry {pdt pdtIdx : Nat}
    (owning : own.owns pdt pdtIdx)
    (elsewhere : ∀ other position, ¬(other = pdt ∧ position = pdtIdx) →
      after.mem other position = machine.mem other position)
    (active : after.active = machine.active)
    (faulted : after.faulted = machine.faulted) :
    own.Untouched layout pdt machine after := by
  refine ⟨?_, active, faulted⟩
  intro other _ index outside
  apply elsewhere
  rintro ⟨rfl, rfl⟩
  exact outside ⟨rfl, owning⟩

theorem writeEntries_elsewhere (machine : Machine) (frame first count : Nat)
    (entries : Nat → Entry) :
    ∀ other, other ≠ frame →
      (machine.writeEntries frame first count entries).mem other =
        machine.mem other := by
  intro other different
  funext position
  simp [Machine.writeEntries, different]

theorem clearEntries_elsewhere (machine : Machine) (frame first count : Nat) :
    ∀ other, other ≠ frame →
      (machine.clearEntries frame first count).mem other =
        machine.mem other := by
  intro other different
  funext position
  simp [Machine.clearEntries, different]

theorem zeroFrame_elsewhere (machine : Machine) (frame : Nat) :
    ∀ other, other ≠ frame →
      (machine.zeroFrame frame).mem other = machine.mem other := by
  intro other different
  funext position
  rw [Machine.zeroFrame_mem, if_neg different]

theorem Holds.takeZeroed (holds : own.Holds layout machine)
    (lawful : own.Lawful layout) {frame : Nat}
    (taken : TakesFrames layout 1 machine (fourKb * frame) after frame) :
    own.Holds layout (after.zeroFrame frame) ∧
      own.Spare layout (after.zeroFrame frame) frame ∧
      ¬FreeFrame layout (after.zeroFrame frame) frame ∧
      (∀ pdt, own.Untouched layout pdt machine (after.zeroFrame frame)) := by
  have wasFree := taken.wasFree frame (Nat.le_refl _) (Nat.lt_succ_self _)
  have spare := holds.spare_of_free wasFree
  have mem : after.mem = machine.mem := by rw [taken.unchanged]
  have allocated := holds.of_bits mem fun other isFree =>
    Or.inl ((taken.free other).mp isFree).1
  have stillSpare := spare.of_bits mem
  have elsewhere := zeroFrame_elsewhere after frame
  refine ⟨allocated.of_spare lawful stillSpare elsewhere rfl, ?_, ?_, ?_⟩
  · refine ⟨spare.managed, spare.notReserved, ?_⟩
    intro pdt pdtIdx owning
    rw [elsewhere pdt (lawful.ne_of_notDirectory (spare.notDirectory lawful)
      (Or.inl owning))]
    exact stillSpare.unnamed owning
  · intro isFree
    rw [FreeFrame.congr (Machine.zeroFrame_bits ..), taken.free] at isFree
    exact isFree.2 ⟨Nat.le_refl _, Nat.lt_succ_self _⟩
  · intro pdt
    apply Untouched.of_notDirectory (spare.notDirectory lawful)
    · intro other different
      rw [elsewhere other different, mem]
    · rw [Machine.zeroFrame_active, taken.unchanged]
    · rw [Machine.zeroFrame_faulted, taken.unchanged]

theorem Holds.mapRound (holds : own.Holds layout machine)
    (lawful : own.Lawful layout)
    {pdt paddr vaddr size mapped : Nat} {rw pl : UInt8}
    (allowed : own.MapAllowed layout pdt paddr vaddr size rw pl)
    (sizePos : size ≠ 0)
    (round : MapRound layout pdt paddr vaddr size rw pl machine mapped
      after) :
    own.Holds layout after ∧ own.Untouched layout pdt machine after := by
  obtain ⟨slot, -, link⟩ := allowed 0 (Nat.pos_of_ne_zero sizePos)
  rw [Nat.add_zero] at slot link
  cases round with
  | noFrame _ _ => exact ⟨holds, Untouched.refl ..⟩
  | @existing count present run =>
      have notDirectory := holds.table_notDirectory lawful slot present
      have elsewhere := writeEntries_elsewhere machine
        (machine.mem pdt (virtualToPdtIdx vaddr)).frame
        (virtualToPtIdx vaddr) count (pageEntries paddr rw pl)
      refine ⟨holds.of_table lawful notDirectory elsewhere rfl ?_,
        Untouched.of_notDirectory notDirectory elsewhere rfl rfl⟩
      intro other otherIdx otherSlot otherPresent same ptIdx
      -- Only the slot of the round names the table.
      obtain ⟨rfl, rfl⟩ :=
        holds.slot_unique lawful otherSlot slot otherPresent present same
      simp only [Machine.writeEntries]
      split_ifs with written
      · exact allowed.entries run (by omega)
      · exact holds.slot_tableEntry lawful slot present ptIdx
  | leaked _ taken _ _ =>
      obtain ⟨zeroed, -, -, untouched⟩ := holds.takeZeroed lawful taken
      exact ⟨zeroed, untouched pdt⟩
  | @fresh frame count allocated absent _ taken positive run =>
      obtain ⟨zeroed, spare, inUse, untouched⟩ :=
        holds.takeZeroed lawful taken
      have owning : own.owns pdt (virtualToPdtIdx vaddr) := by
        cases slot with
        | inl owning => exact owning
        | inr boot =>
            rw [holds.bootPresent boot] at absent
            cases absent
      have notDirectory := spare.notDirectory lawful
      have pdtNe := lawful.ne_of_notDirectory notDirectory slot
      have elsewhere := writeEntries_elsewhere (allocated.zeroFrame frame)
        frame (virtualToPtIdx vaddr) count (pageEntries paddr rw pl)
      have filled := zeroed.of_spare lawful spare elsewhere rfl
      have filledUntouched := (untouched pdt).trans
        (Untouched.of_notDirectory notDirectory elsewhere rfl rfl)
      have below := (lawful.ok.framesOk.unordered.frame_bounds spare.managed).2
      have linked : (pdtEntry (fourKb * frame) 0 rw pl).frame = frame := by
        rw [pdtEntry_frame]
        simp only [fourKb]
        omega
      have others : ∀ other position,
          ¬(other = pdt ∧ position = virtualToPdtIdx vaddr) →
          (((allocated.zeroFrame frame).writeEntries frame
            (virtualToPtIdx vaddr) count (pageEntries paddr rw pl)).setEntry
            pdt (virtualToPdtIdx vaddr)
            (pdtEntry (fourKb * frame) 0 rw pl)).mem other position =
          ((allocated.zeroFrame frame).writeEntries frame
            (virtualToPtIdx vaddr) count (pageEntries paddr rw pl)).mem other
            position := by
        intro other position different
        rw [Machine.setEntry_mem, if_neg different]
      constructor
      · apply filled.of_entry lawful owning others
        · intro other isFree
          exact Or.inl isFree
        · rw [Machine.setEntry_mem, if_pos ⟨rfl, rfl⟩]
          exact link frame
        · intro _
          rw [Machine.setEntry_mem, if_pos ⟨rfl, rfl⟩, linked]
          refine ⟨⟨spare.managed, spare.notReserved, ?_⟩, inUse, ?_⟩
          · intro other otherIdx otherOwning
            rw [elsewhere other (lawful.ne_of_notDirectory notDirectory
              (Or.inl otherOwning))]
            exact spare.unnamed otherOwning
          · intro ptIdx
            simp only [Machine.writeEntries, Machine.zeroFrame_mem]
            split_ifs with written
            · exact allowed.entries run (by omega)
            · exact lawful.emptyTableEntry ..
      · exact filledUntouched.trans
          (Untouched.of_entry owning others rfl rfl)

theorem Holds.clearEntries (holds : own.Holds layout machine)
    (lawful : own.Lawful layout) {pdt pdtIdx : Nat}
    (slot : own.Slot layout pdt pdtIdx)
    (present : (machine.mem pdt pdtIdx).isPresent = true)
    (first count : Nat) :
    own.Holds layout (machine.clearEntries (machine.mem pdt pdtIdx).frame
        first count) ∧
      own.Untouched layout pdt machine
        (machine.clearEntries (machine.mem pdt pdtIdx).frame first count) := by
  have notDirectory := holds.table_notDirectory lawful slot present
  have elsewhere := clearEntries_elsewhere machine
    (machine.mem pdt pdtIdx).frame first count
  refine ⟨holds.of_table lawful notDirectory elsewhere rfl ?_,
    Untouched.of_notDirectory notDirectory elsewhere rfl rfl⟩
  intro other otherIdx otherSlot otherPresent same ptIdx
  obtain ⟨rfl, rfl⟩ :=
    holds.slot_unique lawful otherSlot slot otherPresent present same
  simp only [Machine.clearEntries]
  split_ifs with cleared
  · exact lawful.emptyTableEntry ..
  · exact holds.slot_tableEntry lawful slot present ptIdx

/-- Owning entries stay, or are emptied with their table given back. -/
structure Releases (own : Ownership) (layout : Layout) (pdt : Nat)
    (machine after : Machine) : Prop where
  free : ∀ {frame}, FreeFrame layout machine frame →
    FreeFrame layout after frame
  entry : ∀ {pdtIdx}, own.owns pdt pdtIdx →
    after.mem pdt pdtIdx = machine.mem pdt pdtIdx ∨
      (machine.mem pdt pdtIdx).isPresent = true ∧
      after.mem pdt pdtIdx = Entry.empty ∧
      FreeFrame layout after (machine.mem pdt pdtIdx).frame

theorem Releases.refl (own : Ownership) (layout : Layout) (pdt : Nat)
    (machine : Machine) : own.Releases layout pdt machine machine :=
  ⟨id, fun _ => Or.inl rfl⟩

theorem Releases.trans {pdt : Nat} {middle : Machine}
    (first : own.Releases layout pdt machine middle)
    (second : own.Releases layout pdt middle after) :
    own.Releases layout pdt machine after := by
  refine ⟨fun free => second.free (first.free free), ?_⟩
  intro pdtIdx owning
  rcases first.entry owning with same | ⟨present, emptied, free⟩
  · rw [← same]
    exact second.entry owning
  · rcases second.entry owning with same | ⟨stillPresent, _⟩
    · exact Or.inr ⟨present, same.trans emptied, second.free free⟩
    · rw [emptied] at stillPresent
      cases stillPresent

/-- What unmapping needs of an address it works at.  It must not give back the
frame of the boot entry 0, which the allocator does not manage. -/
def UnmapAllowed (own : Ownership) (layout : Layout) (pdt size vaddr : Nat) :
    Prop :=
  own.Slot layout pdt (virtualToPdtIdx vaddr) ∧
    (pdt = layout.kernelPdt → virtualToPdtIdx vaddr = 0 → size < fourMb)

theorem Holds.unmapRound (holds : own.Holds layout machine)
    (lawful : own.Lawful layout)
    {pdt vaddr size count : Nat}
    (allowed : own.UnmapAllowed layout pdt size vaddr)
    (round : UnmapRound layout pdt vaddr size machine count after) :
    own.Holds layout after ∧ own.Untouched layout pdt machine after ∧
      own.Releases layout pdt machine after := by
  obtain ⟨slot, small⟩ := allowed
  cases round with
  | cleared present _ _ _ _ _ =>
      have notDirectory := holds.table_notDirectory lawful slot present
      obtain ⟨cleared, untouched⟩ :=
        holds.clearEntries lawful slot present (virtualToPtIdx vaddr) count
      refine ⟨cleared, untouched, id, ?_⟩
      intro pdtIdx _
      rw [clearEntries_elsewhere machine _ _ _ pdt
        (lawful.ne_of_notDirectory notDirectory slot)]
      exact Or.inl rfl
  | closed present _ notKernel whole =>
      obtain ⟨cleared, untouched⟩ :=
        holds.clearEntries lawful slot present 0 1024
      have notDirectory := holds.table_notDirectory lawful slot present
      have directory := clearEntries_elsewhere machine
        (machine.mem pdt (virtualToPdtIdx vaddr)).frame 0 1024 pdt
        (lawful.ne_of_notDirectory notDirectory slot)
      have owning : own.owns pdt (virtualToPdtIdx vaddr) := by
        cases slot with
        | inl owning => exact owning
        | inr boot =>
            rcases boot.2 with isKernel | isIdentity
            · exact absurd isKernel notKernel
            · exact absurd whole (Nat.not_le_of_lt (small boot.1 isIdentity))
      have managed := holds.managed owning present
      have inUse := cleared.taken owning (by rw [directory]; exact present)
      rw [directory] at inUse
      generalize frameEq :
        (machine.mem pdt (virtualToPdtIdx vaddr)).frame = frame at *
      obtain ⟨unchanged, free⟩ :=
        pfaFree_frames lawful.ok.framesOk managed inUse
      have others : ∀ other position,
          ¬(other = pdt ∧ position = virtualToPdtIdx vaddr) →
          ((pfaFree layout (fourKb * frame)
            (machine.clearEntries frame 0 1024)).setEntry pdt
            (virtualToPdtIdx vaddr) Entry.empty).mem other position =
          (machine.clearEntries frame 0 1024).mem other position := by
        intro other position different
        rw [Machine.setEntry_mem, if_neg different, unchanged]
      have emptied : ((pfaFree layout (fourKb * frame)
            (machine.clearEntries frame 0 1024)).setEntry pdt
            (virtualToPdtIdx vaddr) Entry.empty).mem pdt
            (virtualToPdtIdx vaddr) = Entry.empty := by
        rw [Machine.setEntry_mem, if_pos ⟨rfl, rfl⟩]
      constructor
      · apply cleared.of_entry lawful owning others
        · intro other isFree
          rw [FreeFrame.congr (Machine.setEntry_bits ..), free] at isFree
          rw [directory, frameEq]
          cases isFree with
          | inl wasFree => exact Or.inl wasFree
          | inr same => exact Or.inr ⟨present, same⟩
        · rw [emptied]
          exact lawful.emptyDirectoryEntry ..
        · intro linked
          rw [emptied] at linked
          cases linked
      refine ⟨?_, ⟨?_, ?_⟩⟩
      · apply untouched.trans
        apply Untouched.of_entry owning others
        · rw [Machine.setEntry_active, unchanged]
        · rw [Machine.setEntry_faulted, unchanged]
      · intro other wasFree
        rw [FreeFrame.congr (Machine.setEntry_bits ..), free]
        exact Or.inl wasFree
      · intro pdtIdx _
        by_cases here : pdtIdx = virtualToPdtIdx vaddr
        · rw [here]
          refine Or.inr ⟨present, emptied, ?_⟩
          rw [FreeFrame.congr (Machine.setEntry_bits ..), free, frameEq]
          exact Or.inr rfl
        · rw [others pdt pdtIdx fun same => here same.2, directory]
          exact Or.inl rfl

/-- Only the remaining addresses matter after a round. -/
theorem MapAllowed.rest {pdt paddr vaddr size mapped : Nat} {rw pl : UInt8}
    (allowed : own.MapAllowed layout pdt paddr vaddr size rw pl) :
    own.MapAllowed layout pdt (w32 (paddr + mapped)) (w32 (vaddr + mapped))
      (size - mapped) rw pl := by
  intro offset within
  have slotEq : virtualToPdtIdx (w32 (vaddr + mapped) + offset) =
      virtualToPdtIdx (vaddr + (mapped + offset)) := by
    rw [virtualToPdtIdx_eq, virtualToPdtIdx_eq, w32]
    omega
  have entryEq : ∀ rw pl, ptEntry (w32 (paddr + mapped) + offset) rw pl =
      ptEntry (paddr + (mapped + offset)) rw pl := by
    intro rw pl
    have same : w32 (w32 (paddr + mapped) + offset) =
        w32 (paddr + (mapped + offset)) := by
      simp only [w32]
      omega
    rw [← ptEntry_w32, same, ptEntry_w32]
  rw [slotEq, entryEq]
  exact allowed (mapped + offset) (by omega)

/-- `pdt_map_memory` returns and keeps the invariant. -/
theorem Holds.mapMemory (holds : own.Holds layout machine)
    (lawful : own.Lawful layout) {pdt : Nat}
    (directory : ∃ pdtIdx, own.Slot layout pdt pdtIdx)
    {paddr vaddr size : Nat} {rw pl : UInt8} (sizeSmall : size < 4294967296)
    (allowed : own.MapAllowed layout pdt paddr vaddr (alignUp size fourKb)
      rw pl) :
    ∃ result after,
      pdtMapMemory layout pdt paddr vaddr size rw pl machine =
        some (result, after) ∧
      own.Holds layout after ∧ own.Untouched layout pdt machine after := by
  obtain ⟨someIdx, someSlot⟩ := directory
  exact pdtMapLoop_rule lawful.ok.toOk (lawful.directory_ne_kernelPt someSlot)
    (fun paddr vaddr size _ middle =>
      own.MapAllowed layout pdt paddr vaddr size rw pl ∧
        own.Holds layout middle ∧ own.Untouched layout pdt machine middle)
    (fun _ after =>
      own.Holds layout after ∧ own.Untouched layout pdt machine after)
    (fun _ _ _ _ _ inv => inv.2.1.directory_taken lawful someSlot)
    (fun _ _ _ _ inv => inv.2)
    (fun _ _ _ _ _ _ inv sizePos round => by
      obtain ⟨kept, untouched⟩ := inv.2.1.mapRound lawful inv.1 sizePos round
      exact ⟨kept, inv.2.2.trans untouched⟩)
    (fun _ _ _ _ _ _ _ inv sizePos _ _ round => by
      obtain ⟨kept, untouched⟩ := inv.2.1.mapRound lawful inv.1 sizePos round
      exact ⟨inv.1.rest, kept, inv.2.2.trans untouched⟩)
    ⟨allowed, holds, Untouched.refl ..⟩ (alignUp_fourKb_mod size)
    (alignUp_lt fourKb sizeSmall) (Nat.lt_succ_self _)

theorem Holds.unmap_slotOk (holds : own.Holds layout machine)
    (lawful : own.Lawful layout) {pdt size vaddr : Nat}
    (allowed : own.UnmapAllowed layout pdt size vaddr)
    (present : (machine.mem pdt (virtualToPdtIdx vaddr)).isPresent = true)
    (same : layout.kernelPt =
      (machine.mem pdt (virtualToPdtIdx vaddr)).frame) :
    virtualToPdtIdx vaddr = kernelPtPdtIdx := by
  have kernel := kernelSlot_boot layout
  have unique := holds.slot_unique lawful allowed.1 (Or.inr kernel) present
    (holds.bootPresent kernel)
    (by rw [holds.bootFrame lawful kernel, ← same, bootTable, if_pos rfl])
  exact unique.2

/-- A `pdt_unmap_memory` that works on its own slots and returns keeps the
invariant. -/
theorem Holds.unmapMemory (holds : own.Holds layout machine)
    (lawful : own.Lawful layout)
    {fuel pdt vaddr size result : Nat} (sizeSmall : size < 4294967296)
    (worksAt : WorksAt layout pdt (alignUp size fourKb)
      (w32 (vaddr + alignUp size fourKb))
      (own.UnmapAllowed layout pdt (alignUp size fourKb))
      (vaddr, 0, machine))
    (success : pdtUnmapMemory layout fuel pdt vaddr size machine =
      some (result, after)) :
    own.Holds layout after ∧ own.Untouched layout pdt machine after ∧
      own.Releases layout pdt machine after := by
  have looped := pdtUnmapLoop_rule
    (fun _ middle => own.Holds layout middle ∧
      own.Untouched layout pdt machine middle ∧
      own.Releases layout pdt machine middle)
    (alignUp_fourKb_mod size) (alignUp_lt fourKb sizeSmall)
    (fun _ _ inv _ allowed => inv.1.unmap_slotOk lawful allowed)
    (fun _ _ inv _ _ _ => inv)
    (fun _ _ _ _ inv _ allowed round => by
      obtain ⟨kept, untouched, releases⟩ :=
        inv.1.unmapRound lawful allowed round
      exact ⟨kept, inv.2.1.trans untouched, inv.2.2.trans releases⟩)
    ⟨holds, Untouched.refl .., Releases.refl ..⟩ worksAt success
  obtain ⟨_, _, inv⟩ := looped
  exact inv

end Steps

end Ownership

end Newbos
