import Newbos.Paging.Directory

/-!
# Page tables have one owner

The kernel's directory and any number of process directories that have not
been loaded yet, under mapping, unmapping and allocation of data frames.
-/

namespace Newbos

/-- Every entry but the boot ones owns its table.  The 4 MiB page of boot entry
0 is no page table, so nothing is said about its contents. -/
def tableOwnership (layout : Layout) (directories data : List Nat) :
    Ownership where
  owns pdt pdtIdx := pdtIdx < 1024 ∧
    (pdt = layout.kernelPdt ∧ ¬Ownership.BootSlot layout pdt pdtIdx ∨
      pdt ∈ directories)
  reserved frame := frame ∈ directories ∨ frame ∈ data
  directoryEntry _ _ entry :=
    entry.Sound ∧ (entry.isPresent = true → entry.bitPS = false)
  tableEntry pdt pdtIdx entry :=
    pdt = layout.kernelPdt ∧ pdtIdx = 0 ∨ entry.Sound

/-- A call of `pdt_map_memory`, on kernel addresses if it is on the kernel's
directory. -/
def MapsIn (layout : Layout) (directories : List Nat)
    (pdt vaddr size : Nat) : Prop :=
  pdt ∈ directories ∨
    pdt = layout.kernelPdt ∧ kernelStartVaddr ≤ vaddr ∧
      vaddr + alignUp size fourKb ≤ 4294967296

/-- A call of `pdt_unmap_memory`.  On the kernel's directory, every address
that the loop works at is a kernel address. -/
def UnmapsIn (layout : Layout) (directories : List Nat)
    (pdt vaddr size : Nat) (machine : Machine) : Prop :=
  pdt ∈ directories ∨
    pdt = layout.kernelPdt ∧
      WorksAt layout pdt (alignUp size fourKb)
        (w32 (vaddr + alignUp size fourKb)) (kernelStartVaddr ≤ ·)
        (vaddr, 0, machine)

/-- Runs from a boot state, with the directories that `pdt_create` made and
the frames handed out for data. -/
inductive PagingRun (layout : Layout) (initial : Machine) :
    Machine → List Nat → List Nat → Prop where
  | start : PagingRun layout initial initial [] []
  | allocate {machine : Machine} {directories data : List Nat}
      (count : Nat) : PagingRun layout initial machine directories data →
      1 ≤ count → count < 4294967296 →
      PagingRun layout initial (pfaAllocate layout count machine).2
        directories
        (if (pfaAllocate layout count machine).1 = 0 then data
        else blockFrames (pfaAllocate layout count machine).1 count ++ data)
  | create {machine after : Machine} {directories data : List Nat}
      {vaddr paddr : Nat} :
      PagingRun layout initial machine directories data →
      pdtCreate layout machine = some (vaddr, paddr, after) →
      vaddr ≠ 0 → paddr ≠ 0 →
      PagingRun layout initial after (paddr / fourKb :: directories) data
  | map {machine after : Machine} {directories data : List Nat}
      {pdt vaddr size result : Nat} (paddr : Nat) (rw pl : UInt8) :
      PagingRun layout initial machine directories data →
      MapsIn layout directories pdt vaddr size → size < 4294967296 →
      pdtMapMemory layout pdt paddr vaddr size rw pl machine =
        some (result, after) →
      PagingRun layout initial after directories data
  | unmap {machine after : Machine} {directories data : List Nat}
      {fuel pdt vaddr size result : Nat} :
      PagingRun layout initial machine directories data →
      UnmapsIn layout directories pdt vaddr size machine →
      size < 4294967296 →
      pdtUnmapMemory layout fuel pdt vaddr size machine =
        some (result, after) →
      PagingRun layout initial after directories data

section Instance

variable {layout : Layout} {directories data : List Nat}

theorem ptEntry_sound (addr : Nat) (rw pl : UInt8) :
    (ptEntry addr rw pl).Sound := Or.inr (ptEntry_flags ..).2.1

theorem tableOwnership_slot (data : List Nat) {pdt pdtIdx : Nat}
    (small : pdtIdx < 1024)
    (directory : pdt = layout.kernelPdt ∨ pdt ∈ directories) :
    (tableOwnership layout directories data).Slot layout pdt pdtIdx := by
  by_cases boot : Ownership.BootSlot layout pdt pdtIdx
  · exact Or.inr boot
  · exact Or.inl ⟨small, directory.imp_left fun same => ⟨same, boot⟩⟩

theorem kernelAddress_unmapAllowed {size address : Nat}
    (small : address < 4294967296)
    (kernelAddress : kernelStartVaddr ≤ address) :
    (tableOwnership layout directories data).UnmapAllowed layout
      layout.kernelPdt size address := by
  refine ⟨tableOwnership_slot data (virtualToPdtIdx_lt _) (Or.inl rfl), ?_⟩
  intro _ isZero
  simp only [kernelStartVaddr] at kernelAddress
  rw [virtualToPdtIdx_eq] at isZero
  omega

theorem tableOwnership_half :
    (tableOwnership layout directories data).KernelHalf layout where
  owns small := tableOwnership_slot data small (Or.inl rfl)
  table _ paddr := Or.inr (ptEntry_sound paddr 1 0)
  entry _ _ := ⟨Or.inr (pdtEntry_flags ..).2.1,
    fun _ => (pdtEntry_flags ..).2.2.1⟩
  walk good present := ⟨good.1.isPresent_iff.mp present, good.2 present⟩

/-- The frames the run keeps are managed. -/
structure RunFrames (layout : Layout) (directories data : List Nat) :
    Prop where
  directories : ∀ frame ∈ directories, frame ∈ mmapFrames layout.mmap
  data : ∀ frame ∈ data, frame ∈ mmapFrames layout.mmap

theorem tableOwnership_lawful (ok : layout.BootOk)
    (frames : RunFrames layout directories data) :
    (tableOwnership layout directories data).Lawful layout where
  ok := ok
  notBoot := by
    intro pdt pdtIdx owning boot
    rcases owning.2 with ⟨_, notBoot⟩ | isDirectory
    · exact notBoot boot
    · rw [boot.1] at isDirectory
      exact ok.kernelPdtUnmanaged (frames.directories _ isDirectory)
  directory owning := by
    rcases owning.2 with ⟨same, _⟩ | isDirectory
    · exact Or.inl same
    · exact Or.inr (Or.inl isDirectory)
  managed isReserved :=
    isReserved.elim (frames.directories _) (frames.data _)
  emptyDirectoryEntry _ _ := ⟨Or.inl rfl, fun present => by cases present⟩
  emptyTableEntry _ _ := Or.inr (Or.inl rfl)

theorem tableOwnership_reserve {directories data more : List Nat}
    {extra : Nat → Prop} (same : ∀ frame, extra frame ↔ frame ∈ more) :
    (tableOwnership layout directories data).reserve extra =
      tableOwnership layout directories (more ++ data) := by
  have reserved : (fun frame =>
        (frame ∈ directories ∨ frame ∈ data) ∨ extra frame) =
      fun frame => frame ∈ directories ∨ frame ∈ more ++ data := by
    funext frame
    rw [same, List.mem_append]
    exact propext (by tauto)
  rw [Ownership.reserve, tableOwnership, tableOwnership]
  simp only [reserved]

theorem tableOwnership_create {directories data : List Nat} {frame : Nat} :
    ((tableOwnership layout directories data).reserve
        (Ownership.Block frame 1)).addDirectory frame (· < 1024) =
      tableOwnership layout (frame :: directories) data := by
  have owns : (fun pdt pdtIdx => (pdtIdx < 1024 ∧
        (pdt = layout.kernelPdt ∧ ¬Ownership.BootSlot layout pdt pdtIdx ∨
          pdt ∈ directories)) ∨ pdt = frame ∧ pdtIdx < 1024) =
      fun pdt pdtIdx => pdtIdx < 1024 ∧
        (pdt = layout.kernelPdt ∧ ¬Ownership.BootSlot layout pdt pdtIdx ∨
          pdt ∈ frame :: directories) := by
    funext pdt pdtIdx
    rw [List.mem_cons]
    exact propext (by tauto)
  have reserved : (fun other => (other ∈ directories ∨ other ∈ data) ∨
        Ownership.Block frame 1 other) =
      fun other => other ∈ frame :: directories ∨ other ∈ data := by
    funext other
    rw [List.mem_cons, Ownership.block_one]
    exact propext (by tauto)
  rw [Ownership.addDirectory, Ownership.reserve, tableOwnership,
    tableOwnership]
  simp only [owns, reserved]

/-- The ownership invariant of a run. -/
structure PagingInv (layout : Layout) (machine : Machine)
    (directories data : List Nat) : Prop where
  frames : RunFrames layout directories data
  holds : (tableOwnership layout directories data).Holds layout machine

theorem Boot.pagingInv {machine : Machine} (boot : Boot layout machine) :
    PagingInv layout machine [] [] := by
  have noSlot : ∀ {pdt pdtIdx}, (tableOwnership layout [] []).owns pdt pdtIdx →
      machine.mem pdt pdtIdx = Entry.empty := by
    intro pdt pdtIdx owning
    rcases owning.2 with ⟨rfl, notBoot⟩ | impossible
    · apply boot.others
      · exact fun isIdentity => notBoot ⟨rfl, Or.inr isIdentity⟩
      · exact fun isKernel => notBoot ⟨rfl, Or.inl isKernel⟩
    · cases impossible
  have absent : ∀ {pdt pdtIdx}, (tableOwnership layout [] []).owns pdt pdtIdx →
      (machine.mem pdt pdtIdx).isPresent ≠ true := by
    intro pdt pdtIdx owning
    rw [noSlot owning]
    decide
  refine ⟨⟨by simp, by simp⟩, ?_⟩
  constructor
  case boot =>
    rintro pdt pdtIdx ⟨rfl, rfl | rfl⟩
    · exact boot.kernelSlot
    · exact boot.identity
  case bootTableEntry =>
    rintro pdt pdtIdx ⟨rfl, rfl | rfl⟩ ptIdx
    · rw [Ownership.bootTable, if_pos rfl]
      cases boot.table ptIdx with
      | inl isEmpty => exact Or.inr (Or.inl isEmpty)
      | inr isPage =>
          rw [isPage]
          exact Or.inr (ptEntry_sound ..)
    · exact Or.inl ⟨rfl, rfl⟩
  case directoryEntry =>
    intro pdt pdtIdx owning
    rw [noSlot owning]
    exact ⟨Or.inl rfl, fun present => by cases present⟩
  case managed =>
    exact fun owning present => absurd present (absent owning)
  case taken => exact fun owning present => absurd present (absent owning)
  case notReserved =>
    exact fun owning present => absurd present (absent owning)
  case injective =>
    exact fun owning _ present => absurd present (absent owning)
  case kept => rintro frame (impossible | impossible) <;> cases impossible
  case tableEntry =>
    exact fun owning present => absurd present (absent owning)

section Steps

variable (ok : layout.BootOk) {machine after : Machine}
include ok

theorem PagingInv.lawful (inv : PagingInv layout machine directories data) :
    (tableOwnership layout directories data).Lawful layout :=
  tableOwnership_lawful ok inv.frames

theorem PagingInv.allocate
    (inv : PagingInv layout machine directories data) {count : Nat}
    (positive : 1 ≤ count) (small : count < 4294967296) :
    PagingInv layout (pfaAllocate layout count machine).2 directories
      (if (pfaAllocate layout count machine).1 = 0 then data
      else blockFrames (pfaAllocate layout count machine).1 count ++
        data) := by
  rcases pfaAllocate_frames ok.framesOk positive small machine with failed |
    ⟨frame, taken⟩
  · rw [failed, if_pos rfl]
    exact inv
  · have block : ∀ other, Ownership.Block frame count other ↔
        other ∈ blockFrames (pfaAllocate layout count machine).1 count :=
      fun _ => taken.mem_blockFrames.symm
    rw [if_neg taken.notNull]
    constructor
    · refine ⟨inv.frames.directories, ?_⟩
      intro other member
      cases List.mem_append.mp member with
      | inl inBlock =>
          have bounds := (block other).mpr inBlock
          exact (taken.wasFree other bounds.1 bounds.2).1
      | inr earlier => exact inv.frames.data other earlier
    · rw [← tableOwnership_reserve block]
      exact inv.holds.takesFrames taken

theorem PagingInv.create (inv : PagingInv layout machine directories data)
    {vaddr paddr : Nat}
    (created : pdtCreate layout machine = some (vaddr, paddr, after))
    (notNull : vaddr ≠ 0) (hasFrame : paddr ≠ 0) :
    PagingInv layout after (paddr / fourKb :: directories) data := by
  have lawful := inv.lawful ok
  obtain ⟨frame, rfl, wasFree, kept, zeroes⟩ :=
    inv.holds.pdtCreate_delivered lawful tableOwnership_half created notNull
      hasFrame
  have frameEq : fourKb * frame / fourKb = frame := by simp [fourKb]
  rw [frameEq]
  have managed : ∀ other, Ownership.Block frame 1 other →
      other ∈ mmapFrames layout.mmap := by
    intro other isFrame
    rw [Ownership.block_one.mp isFrame]
    exact wasFree.1
  constructor
  · refine ⟨?_, inv.frames.data⟩
    intro other member
    cases List.mem_cons.mp member with
    | inl same =>
        rw [same]
        exact wasFree.1
    | inr earlier => exact inv.frames.directories other earlier
  · rw [← tableOwnership_create]
    exact kept.addDirectory (lawful.reserve managed) zeroes

theorem PagingInv.map (inv : PagingInv layout machine directories data)
    {pdt paddr vaddr size result : Nat} {rw pl : UInt8}
    (mapsIn : MapsIn layout directories pdt vaddr size)
    (sizeSmall : size < 4294967296)
    (mapped : pdtMapMemory layout pdt paddr vaddr size rw pl machine =
      some (result, after)) :
    PagingInv layout after directories data := by
  have lawful := inv.lawful ok
  have directory : pdt = layout.kernelPdt ∨ pdt ∈ directories := by
    rcases mapsIn with isDirectory | ⟨same, _⟩
    · exact Or.inr isDirectory
    · exact Or.inl same
  have allowed : (tableOwnership layout directories data).MapAllowed layout
      pdt paddr vaddr (alignUp size fourKb) rw pl := by
    intro offset _
    refine ⟨tableOwnership_slot data (virtualToPdtIdx_lt _) directory,
      Or.inr (ptEntry_sound ..), ?_⟩
    intro frame
    exact ⟨Or.inr (pdtEntry_flags ..).2.1, fun _ => (pdtEntry_flags ..).2.2.1⟩
  obtain ⟨_, _, returned, kept, _⟩ := inv.holds.mapMemory lawful
    ⟨0, tableOwnership_slot data (by decide) directory⟩ sizeSmall allowed
  rw [mapped] at returned
  simp only [Option.some.injEq, Prod.mk.injEq] at returned
  obtain ⟨rfl, rfl⟩ := returned
  exact ⟨inv.frames, kept⟩

theorem PagingInv.unmapAllowed
    (inv : PagingInv layout machine directories data)
    {pdt vaddr size : Nat}
    (unmapsIn : UnmapsIn layout directories pdt vaddr size machine) :
    WorksAt layout pdt (alignUp size fourKb)
      (w32 (vaddr + alignUp size fourKb))
      ((tableOwnership layout directories data).UnmapAllowed layout pdt
        (alignUp size fourKb)) (vaddr, 0, machine) := by
  rcases unmapsIn with isDirectory | ⟨rfl, worksAt⟩
  · intro steps _
    refine ⟨tableOwnership_slot data (virtualToPdtIdx_lt _)
      (Or.inr isDirectory),
      ?_⟩
    rintro rfl
    exact absurd (inv.frames.directories _ isDirectory) ok.kernelPdtUnmanaged
  · refine WorksAt.mono worksAt ?_
    intro address below kernelAddress
    exact kernelAddress_unmapAllowed (Nat.lt_trans below (w32_lt _))
      kernelAddress

theorem PagingInv.unmap (inv : PagingInv layout machine directories data)
    {fuel pdt vaddr size result : Nat}
    (unmapsIn : UnmapsIn layout directories pdt vaddr size machine)
    (sizeSmall : size < 4294967296)
    (unmapped : pdtUnmapMemory layout fuel pdt vaddr size machine =
      some (result, after)) :
    PagingInv layout after directories data ∧
      (tableOwnership layout directories data).Releases layout pdt machine
        after := by
  have allowed := inv.unmapAllowed ok unmapsIn
  obtain ⟨kept, _, releases⟩ := inv.holds.unmapMemory
    (inv.lawful ok) sizeSmall allowed unmapped
  exact ⟨⟨inv.frames, kept⟩, releases⟩

theorem PagingRun.inv {initial : Machine} (boot : Boot layout initial)
    (run : PagingRun layout initial machine directories data) :
    PagingInv layout machine directories data := by
  induction run with
  | start => exact boot.pagingInv
  | allocate count _ positive small induction =>
      exact induction.allocate ok positive small
  | create _ created notNull hasFrame induction =>
      exact induction.create ok created notNull
        hasFrame
  | map paddr rw pl _ mapsIn sizeSmall mapped induction =>
      exact induction.map ok mapsIn sizeSmall mapped
  | unmap _ unmapsIn sizeSmall unmapped induction =>
      exact (induction.unmap ok unmapsIn sizeSmall
        unmapped).1

end Steps

end Instance

/-- A present directory entry other than the boot ones. -/
structure NamesTable (layout : Layout) (machine : Machine)
    (directories : List Nat) (pdt pdtIdx : Nat) : Prop where
  directory : pdt = layout.kernelPdt ∨ pdt ∈ directories
  index : pdtIdx < 1024
  notBoot : ¬(pdt = layout.kernelPdt ∧ (pdtIdx = 768 ∨ pdtIdx = 0))
  present : (machine.mem pdt pdtIdx).isPresent = true

/-- Every entry is zero or present for the processor, and every page table has
one owner. -/
structure PageTablesOwned (layout : Layout) (machine : Machine)
    (directories data : List Nat) : Prop where
  directoryEntry : ∀ {pdt pdtIdx},
    pdt = layout.kernelPdt ∨ pdt ∈ directories → pdtIdx < 1024 →
    (machine.mem pdt pdtIdx = Entry.empty ∨
        (machine.mem pdt pdtIdx).bitP = true) ∧
      ((machine.mem pdt pdtIdx).isPresent = true ↔
        (machine.mem pdt pdtIdx).bitP = true)
  tableEntry : ∀ {pt}, pt = layout.kernelPt ∨
      (∃ pdt pdtIdx, NamesTable layout machine directories pdt pdtIdx ∧
        (machine.mem pdt pdtIdx).frame = pt) → ∀ ptIdx,
    (machine.mem pt ptIdx = Entry.empty ∨
        (machine.mem pt ptIdx).bitP = true) ∧
      ((machine.mem pt ptIdx).isPresent = true ↔
        (machine.mem pt ptIdx).bitP = true)
  oneOwner : ∀ {pdt pdtIdx other otherIdx},
    NamesTable layout machine directories pdt pdtIdx →
    NamesTable layout machine directories other otherIdx →
    (machine.mem pdt pdtIdx).frame = (machine.mem other otherIdx).frame →
    pdt = other ∧ pdtIdx = otherIdx
  managed : ∀ {pdt pdtIdx}, NamesTable layout machine directories pdt pdtIdx →
    (machine.mem pdt pdtIdx).frame ∈ mmapFrames layout.mmap
  allocated : ∀ {pdt pdtIdx},
    NamesTable layout machine directories pdt pdtIdx →
    ¬frameFree layout machine (machine.mem pdt pdtIdx).frame
  notData : ∀ {pdt pdtIdx}, NamesTable layout machine directories pdt pdtIdx →
    (machine.mem pdt pdtIdx).frame ∉ data

section Results

variable {layout : Layout} {initial machine : Machine}
  {directories data : List Nat}

theorem NamesTable.owns {pdt pdtIdx : Nat}
    (names : NamesTable layout machine directories pdt pdtIdx) :
    (tableOwnership layout directories data).owns pdt pdtIdx :=
  ⟨names.index, names.directory.imp_left fun same => ⟨same, names.notBoot⟩⟩

theorem Entry.Sound.and_iff {entry : Entry} (sound : entry.Sound) :
    (entry = Entry.empty ∨ entry.bitP = true) ∧
      (entry.isPresent = true ↔ entry.bitP = true) :=
  ⟨sound, sound.isPresent_iff⟩

theorem PagingInv.pageTablesOwned
    (inv : PagingInv layout machine directories data) :
    PageTablesOwned layout machine directories data := by
  have holds := inv.holds
  constructor
  case directoryEntry =>
    intro pdt pdtIdx directory small
    cases tableOwnership_slot data small directory with
    | inl owning => exact (holds.directoryEntry owning).1.and_iff
    | inr boot =>
        have sound : (Ownership.bootEntry layout pdtIdx).Sound := by
          rw [Ownership.bootEntry]
          split_ifs
          · exact Or.inr (pdtEntry_flags ..).2.1
          · exact Or.inr (by decide)
        rw [holds.boot boot]
        exact sound.and_iff
  case tableEntry =>
    rintro pt (rfl | ⟨pdt, pdtIdx, names, rfl⟩) ptIdx
    · have entry := holds.bootTableEntry (Ownership.kernelSlot_boot layout)
        ptIdx
      rw [Ownership.bootTable, if_pos rfl] at entry
      rcases entry with ⟨_, impossible⟩ | sound
      · cases impossible
      · exact sound.and_iff
    · rcases holds.tableEntry names.owns names.present ptIdx with
        ⟨same, isZero⟩ | sound
      · exact absurd ⟨same, Or.inr isZero⟩ names.notBoot
      · exact sound.and_iff
  case oneOwner =>
    exact fun names others same =>
      holds.injective names.owns others.owns names.present others.present same
  case managed => exact fun names => holds.managed names.owns names.present
  case allocated =>
    intro pdt pdtIdx names isFree
    exact holds.taken names.owns names.present
      ⟨holds.managed names.owns names.present, isFree⟩
  case notData =>
    exact fun names member =>
      holds.notReserved names.owns names.present (Or.inr member)

/-- Page tables have one owner in every reachable state.  A table that loses
its directory entry is back in the allocator's hands, and no entry names a
frame that the allocator counts as free. -/
theorem page_table_ownership (ok : layout.BootOk) (boot : Boot layout initial)
    (run : PagingRun layout initial machine directories data) :
    PageTablesOwned layout machine directories data ∧
    (∀ {fuel pdt vaddr size result : Nat} {after : Machine},
      UnmapsIn layout directories pdt vaddr size machine →
      size < 4294967296 →
      pdtUnmapMemory layout fuel pdt vaddr size machine =
        some (result, after) →
      ∀ pdtIdx, NamesTable layout machine directories pdt pdtIdx →
        after.mem pdt pdtIdx = machine.mem pdt pdtIdx ∨
        after.mem pdt pdtIdx = Entry.empty ∧
          frameFree layout after (machine.mem pdt pdtIdx).frame) ∧
    (∀ frame, frame ∈ mmapFrames layout.mmap →
      frameFree layout machine frame →
      ∀ pdt pdtIdx, NamesTable layout machine directories pdt pdtIdx →
        (machine.mem pdt pdtIdx).frame ≠ frame) := by
  have inv := run.inv ok boot
  refine ⟨inv.pageTablesOwned, ?_, ?_⟩
  · intro fuel pdt vaddr size result after unmapsIn sizeSmall unmapped pdtIdx
      names
    have releases := (inv.unmap ok unmapsIn sizeSmall unmapped).2
    rcases releases.entry names.owns with same | ⟨_, emptied, free⟩
    · exact Or.inl same
    · exact Or.inr ⟨emptied, free.2⟩
  · rintro frame managed isFree pdt pdtIdx names rfl
    exact inv.holds.taken names.owns names.present ⟨managed, isFree⟩

/-- Four frames at 1 MiB. -/
def fourFrameLayout : Layout :=
  { kernelPdt := 1
    kernelPt := 2
    mmap := [⟨0x100000, 0x4000⟩]
    start := 0xC0003000
    len := 4 }

theorem fourFrameLayout_bootOk : fourFrameLayout.BootOk where
  framesOk :=
    { map :=
        { region := by
            intro entry member
            have same : entry = ⟨0x100000, 0x4000⟩ := by
              simpa [fourFrameLayout] using member
            subst same
            exact ⟨by decide, by decide, by decide⟩
          ascending := List.pairwise_singleton _ _
          disjoint := List.pairwise_singleton _ _ }
      aboveOneMb := by decide
      total := by decide }
  distinct := by decide
  kernelPdtBelow := by decide
  kernelPtBelow := by decide
  kernelPdtUnmanaged := by decide
  kernelPtUnmanaged := by decide
  kernelPdtPos := by decide
  kernelPtPos := by decide

/-- The machine with a frame for data. -/
abbrev dataMachine : Machine :=
  (pfaAllocate fourFrameLayout 1 (bootMachine fourFrameLayout 5)).2

/-- A process directory and the data frame, which is mapped both there and for
the kernel; then the process's 4 MiB around it are unmapped. -/
theorem page_table_ownership_process :
    ∃ mapped unmapped,
      PagingRun fourFrameLayout (bootMachine fourFrameLayout 5) mapped
        [257] [256] ∧
      PageTablesOwned fourFrameLayout mapped [257] [256] ∧
      (mapped.mem 257 32).frame = 258 ∧ (mapped.mem 1 769).frame = 259 ∧
      PagingRun fourFrameLayout (bootMachine fourFrameLayout 5) unmapped
        [257] [256] ∧
      PageTablesOwned fourFrameLayout unmapped [257] [256] ∧
      unmapped.mem 257 32 = Entry.empty ∧
      frameFree fourFrameLayout unmapped 258 := by
  have evaluated : ((pdtCreate fourFrameLayout dataMachine).bind
      fun created =>
        (pdtMapMemory fourFrameLayout 257 0x100000 0x8000000 4096 1 1
          created.2.2).bind fun first =>
        (pdtMapMemory fourFrameLayout 1 0x100000 0xC0400000 4096 1 0
          first.2).bind fun second =>
        (pdtUnmapMemory fourFrameLayout 5 257 0x8000000 0x400000
          second.2).map fun last =>
            ([created.1, created.2.1, (second.2.mem 257 32).frame,
                (second.2.mem 1 769).frame, (last.2.mem 257 32).frame],
              (second.2.mem 257 32).isPresent)) =
      some ([0xC0005000, 0x101000, 258, 259, 0], true) := by
    decide +kernel
  obtain ⟨⟨vaddr, paddr, created⟩, creates, rest⟩ :=
    Option.bind_eq_some_iff.mp evaluated
  obtain ⟨⟨_, first⟩, mapsFirst, rest⟩ := Option.bind_eq_some_iff.mp rest
  obtain ⟨⟨_, second⟩, mapsSecond, rest⟩ := Option.bind_eq_some_iff.mp rest
  obtain ⟨⟨_, last⟩, unmaps, shown⟩ := Option.map_eq_some_iff.mp rest
  simp only [Prod.mk.injEq, List.cons.injEq, and_true] at shown
  obtain ⟨⟨vaddrEq, paddrEq, table, kernelTable, emptied⟩, present⟩ := shown
  have boot := bootMachine_boot fourFrameLayout_bootOk.distinct 5
  have data : PagingRun fourFrameLayout (bootMachine fourFrameLayout 5)
      dataMachine [] [256] :=
    .allocate 1 .start (by decide) (by decide)
  have directory : PagingRun fourFrameLayout (bootMachine fourFrameLayout 5)
      created [257] [256] := by
    have one := PagingRun.create data creates (by rw [vaddrEq]; decide)
      (by rw [paddrEq]; decide)
    rwa [paddrEq] at one
  have mapped : PagingRun fourFrameLayout (bootMachine fourFrameLayout 5)
      second [257] [256] :=
    (directory.map 0x100000 1 1 (Or.inl (List.mem_singleton_self _))
      (by decide) mapsFirst).map 0x100000 1 0
        (Or.inr ⟨rfl, by decide, by decide⟩) (by decide) mapsSecond
  have unmapsIn : UnmapsIn fourFrameLayout [257] 257 0x8000000 0x400000
      second := Or.inl (List.mem_singleton_self _)
  have unmapped := mapped.unmap unmapsIn (by decide) unmaps
  obtain ⟨owned, releases, _⟩ :=
    page_table_ownership fourFrameLayout_bootOk boot mapped
  have names : NamesTable fourFrameLayout second [257] 257 32 :=
    ⟨Or.inr (List.mem_singleton_self _), by decide, by decide, present⟩
  obtain ⟨gone, free⟩ :=
    (releases unmapsIn (by decide) unmaps 32 names).resolve_left fun same => by
      rw [same, table] at emptied
      cases emptied
  rw [table] at free
  exact ⟨second, last, mapped, owned, table, kernelTable, unmapped,
    (page_table_ownership fourFrameLayout_bootOk boot unmapped).1, gone, free⟩

end Results

end Newbos
