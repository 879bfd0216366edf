import Newbos.Paging.Coherence

/-!
# Address spaces

The frames that the directories of processes, their user pages and the kernel
use.  A page table that user pages are mapped in names only frames that were
allocated for its own directory.
-/

namespace Newbos

/-- The frames in use: the directories that `pdt_create` made, those of them
that have been loaded, the frames allocated for the user pages of each
directory, and the frames allocated for the kernel. -/
structure Spaces where
  directories : List Nat
  loaded : List Nat
  user : List (Nat × Nat)
  kernel : List Nat

namespace Spaces

def empty : Spaces :=
  { directories := []
    loaded := []
    user := []
    kernel := [] }

def addDirectory (spaces : Spaces) (frame : Nat) : Spaces :=
  { spaces with directories := frame :: spaces.directories }

def addUser (spaces : Spaces) (pdt frame : Nat) : Spaces :=
  { spaces with user := (pdt, frame) :: spaces.user }

def addKernel (spaces : Spaces) (frames : List Nat) : Spaces :=
  { spaces with kernel := frames ++ spaces.kernel }

def load (spaces : Spaces) (pdt : Nat) : Spaces :=
  { spaces with loaded := pdt :: spaces.loaded }

/-- The kernel half of a process directory owns no table, and loading takes
away its entry 0. -/
def Owns (spaces : Spaces) (layout : Layout) (pdt pdtIdx : Nat) : Prop :=
  pdtIdx < 1024 ∧
    (pdt = layout.kernelPdt ∧ ¬Ownership.BootSlot layout pdt pdtIdx ∨
      pdt ∈ spaces.directories ∧ pdtIdx < 768 ∧
        (pdtIdx = 0 → pdt ∉ spaces.loaded))

def Uses (spaces : Spaces) (frame : Nat) : Prop :=
  frame ∈ spaces.directories ∨ (∃ pdt, (pdt, frame) ∈ spaces.user) ∨
    frame ∈ spaces.kernel

end Spaces

/-- The rights that `PAGING_READ_WRITE` and `PAGING_PL0` give. -/
def Entry.Supervisor (entry : Entry) : Prop :=
  entry.bitUS = false ∧ entry.bitRW = true

/-- Kernel pages are for the supervisor, apart from exempt entries, and user
pages are frames allocated for their directory. -/
def spaceOwnership (layout : Layout) (exempt : Entry → Prop)
    (spaces : Spaces) : Ownership where
  owns := spaces.Owns layout
  reserved := spaces.Uses
  directoryEntry pdt _ entry :=
    entry.Sound ∧ (entry.isPresent = true →
      entry.bitPS = false ∧ (pdt = layout.kernelPdt → entry.Supervisor))
  tableEntry pdt pdtIdx entry :=
    pdt = layout.kernelPdt ∧ pdtIdx = 0 ∨
      entry.Sound ∧ (entry.isPresent = true →
        if pdt = layout.kernelPdt then entry.Supervisor ∨ exempt entry
        else (pdt, entry.frame) ∈ spaces.user)

/-- The invariant of the address spaces. -/
structure SpaceInv (layout : Layout) (exempt : Entry → Prop)
    (spaces : Spaces) (machine : Machine) : Prop where
  managed : ∀ {frame}, spaces.Uses frame → frame ∈ mmapFrames layout.mmap
  holds : (spaceOwnership layout exempt spaces).Holds layout machine
  oneOwner : ∀ {pdt other frame}, (pdt, frame) ∈ spaces.user →
    (other, frame) ∈ spaces.user → pdt = other
  notDirectory : ∀ {pdt frame}, (pdt, frame) ∈ spaces.user →
    frame ∉ spaces.directories
  notKernel : ∀ {pdt frame}, (pdt, frame) ∈ spaces.user →
    frame ∉ spaces.kernel
  loaded : ∀ {pdt}, pdt ∈ spaces.loaded → pdt ∈ spaces.directories
  copies : ∀ {pdt pdtIdx}, pdt ∈ spaces.directories → pdtIdx < 1024 →
    ¬spaces.Owns layout pdt pdtIdx →
    machine.mem pdt pdtIdx = Entry.empty ∨
      (machine.mem layout.kernelPdt pdtIdx).isPresent = true ∧
        machine.mem pdt pdtIdx = machine.mem layout.kernelPdt pdtIdx

/-- More frames in use, and nothing loaded. -/
structure Spaces.Grows (spaces later : Spaces) : Prop where
  directories : ∀ {frame}, frame ∈ spaces.directories →
    frame ∈ later.directories
  user : ∀ {pdt frame}, (pdt, frame) ∈ spaces.user →
    (pdt, frame) ∈ later.user
  kernel : ∀ {frame}, frame ∈ spaces.kernel → frame ∈ later.kernel
  loaded : later.loaded = spaces.loaded

theorem Spaces.Grows.refl (spaces : Spaces) : spaces.Grows spaces :=
  ⟨id, id, id, rfl⟩

theorem Spaces.Grows.trans {spaces middle later : Spaces}
    (first : spaces.Grows middle) (second : middle.Grows later) :
    spaces.Grows later :=
  ⟨fun member => second.directories (first.directories member),
    fun member => second.user (first.user member),
    fun member => second.kernel (first.kernel member),
    second.loaded.trans first.loaded⟩

/-- What a step of the kernel does to the address spaces. -/
structure Evolves (layout : Layout) (exempt : Entry → Prop)
    (spaces : Spaces) (machine : Machine) (later : Spaces)
    (after : Machine) : Prop where
  inv : SpaceInv layout exempt later after
  grows : spaces.Grows later
  keeps : KeepsPages layout machine after

theorem Evolves.trans {layout : Layout} {exempt : Entry → Prop}
    {spaces between later : Spaces} {machine middle after : Machine}
    (first : Evolves layout exempt spaces machine between middle)
    (second : Evolves layout exempt between middle later after) :
    Evolves layout exempt spaces machine later after :=
  ⟨second.inv, first.grows.trans second.grows, first.keeps.trans second.keeps⟩

section Steps

variable {layout : Layout} {exempt : Entry → Prop} {spaces : Spaces}
  {machine after : Machine}

theorem Spaces.slot (spaces : Spaces) (exempt : Entry → Prop) {pdtIdx : Nat}
    (small : pdtIdx < 1024) :
    (spaceOwnership layout exempt spaces).Slot layout layout.kernelPdt
      pdtIdx := by
  by_cases boot : Ownership.BootSlot layout layout.kernelPdt pdtIdx
  · exact Or.inr boot
  · exact Or.inl ⟨small, Or.inl ⟨rfl, boot⟩⟩

theorem ptEntry_supervisor (paddr : Nat) :
    (ptEntry paddr 1 0).Supervisor := by
  have flags := ptEntry_flags paddr 1 0
  exact ⟨flags.2.2.2.trans (by decide), flags.2.2.1.trans (by decide)⟩

theorem pdtEntry_supervisor (paddr : Nat) :
    (pdtEntry paddr 0 1 0).Supervisor := by
  have flags := pdtEntry_flags paddr 1 0
  exact ⟨flags.2.2.2.2.trans (by decide), flags.2.2.2.1.trans (by decide)⟩

theorem spaceOwnership_half (layout : Layout) (exempt : Entry → Prop)
    (spaces : Spaces) :
    (spaceOwnership layout exempt spaces).KernelHalf layout where
  owns small := spaces.slot exempt small
  table _ paddr := by
    refine Or.inr ⟨ptEntry_sound paddr 1 0, fun _ => ?_⟩
    rw [if_pos rfl]
    exact Or.inl (ptEntry_supervisor paddr)
  entry _ frame := ⟨Or.inr (pdtEntry_flags ..).2.1, fun _ =>
    ⟨(pdtEntry_flags ..).2.2.1, fun _ => pdtEntry_supervisor _⟩⟩
  walk good present := ⟨good.1.isPresent_iff.mp present, (good.2 present).1⟩

theorem Spaces.unowned_idx {pdt pdtIdx : Nat}
    (member : pdt ∈ spaces.directories) (small : pdtIdx < 1024)
    (unowned : ¬spaces.Owns layout pdt pdtIdx) :
    pdtIdx = 0 ∨ 768 ≤ pdtIdx := by
  by_contra inside
  apply unowned
  refine ⟨small, Or.inr ⟨member, by omega, ?_⟩⟩
  intro isZero
  exact absurd (Or.inl isZero) inside

variable (ok : layout.BootOk)
include ok

theorem spaceOwnership_lawful (exempt : Entry → Prop)
    (managed : ∀ {frame}, spaces.Uses frame →
      frame ∈ mmapFrames layout.mmap) :
    (spaceOwnership layout exempt spaces).Lawful layout where
  ok := ok
  notBoot := by
    intro pdt pdtIdx owning boot
    rcases owning.2 with ⟨_, notBoot⟩ | ⟨isDirectory, _⟩
    · exact notBoot boot
    · rw [boot.1] at isDirectory
      exact ok.kernelPdtUnmanaged (managed (Or.inl isDirectory))
  directory owning := by
    rcases owning.2 with ⟨same, _⟩ | ⟨isDirectory, _⟩
    · exact Or.inl same
    · exact Or.inr (Or.inl isDirectory)
  managed := managed
  emptyDirectoryEntry _ _ := ⟨Or.inl rfl, fun present => by cases present⟩
  emptyTableEntry _ _ :=
    Or.inr ⟨Or.inl rfl, fun present => by cases present⟩

theorem SpaceInv.lawful (inv : SpaceInv layout exempt spaces machine) :
    (spaceOwnership layout exempt spaces).Lawful layout :=
  spaceOwnership_lawful ok exempt inv.managed

theorem SpaceInv.notKernelPdt (inv : SpaceInv layout exempt spaces machine)
    {frame : Nat} (inUse : spaces.Uses frame) : layout.kernelPdt ≠ frame := by
  rintro rfl
  exact ok.kernelPdtUnmanaged (inv.managed inUse)

omit ok in
theorem SpaceInv.free_unused (inv : SpaceInv layout exempt spaces machine)
    {frame : Nat} (isFree : FreeFrame layout machine frame) :
    ¬spaces.Uses frame :=
  fun inUse => inv.holds.kept inUse isFree

omit ok in
theorem SpaceInv.copies_kept (inv : SpaceInv layout exempt spaces machine)
    (kept : (spaceOwnership layout exempt spaces).Holds layout after)
    (keeps : KeepsPages layout machine after) {pdt pdtIdx : Nat}
    (member : pdt ∈ spaces.directories) (small : pdtIdx < 1024)
    (unowned : ¬spaces.Owns layout pdt pdtIdx)
    (same : after.mem pdt pdtIdx = machine.mem pdt pdtIdx) :
    after.mem pdt pdtIdx = Entry.empty ∨
      (after.mem layout.kernelPdt pdtIdx).isPresent = true ∧
        after.mem pdt pdtIdx = after.mem layout.kernelPdt pdtIdx := by
  rw [same]
  rcases inv.copies member small unowned with isEmpty | ⟨present, isCopy⟩
  · exact Or.inl isEmpty
  · have kernelSame : after.mem layout.kernelPdt pdtIdx =
        machine.mem layout.kernelPdt pdtIdx := by
      rcases Spaces.unowned_idx member small unowned with isZero | lower
      · have boot : Ownership.BootSlot layout layout.kernelPdt pdtIdx :=
          ⟨rfl, Or.inr isZero⟩
        rw [kept.boot boot, inv.holds.boot boot]
      · exact keeps.slot lower small present
    rw [kernelSame]
    exact Or.inr ⟨present, isCopy⟩

omit ok in
theorem SpaceInv.keep (inv : SpaceInv layout exempt spaces machine)
    (kept : (spaceOwnership layout exempt spaces).Holds layout after)
    {pdt : Nat} (untouched : (spaceOwnership layout exempt spaces).Untouched
      layout pdt machine after)
    (keeps : KeepsPages layout machine after) :
    Evolves layout exempt spaces machine spaces after := by
  refine ⟨⟨inv.managed, kept, inv.oneOwner, inv.notDirectory, inv.notKernel,
    inv.loaded, ?_⟩, .refl spaces, keeps⟩
  intro other pdtIdx member small unowned
  apply inv.copies_kept kept keeps member small unowned
  apply untouched.cell (Or.inr (Or.inl member))
  rintro ⟨rfl, owning⟩
  exact unowned owning

theorem SpaceInv.firstFrame (inv : SpaceInv layout exempt spaces machine)
    (only : FirstFrameOnly machine after) :
    Evolves layout exempt spaces machine spaces after := by
  obtain ⟨kept, untouched, keeps⟩ := inv.holds.firstFrame (inv.lawful ok)
    (spaceOwnership_half layout exempt spaces) only (by
      intro pdt pdtIdx slot present isZero ptIdx
      exact Or.inl (inv.holds.slot_of_zero (inv.lawful ok) slot present
        isZero))
  exact inv.keep kept (untouched layout.kernelPdt) keeps

theorem SpaceInv.firstFrame_translate
    (inv : SpaceInv layout exempt spaces machine)
    (only : FirstFrameOnly machine after) (vaddr : Nat) :
    after.translate layout.kernelPdt vaddr =
      machine.translate layout.kernelPdt vaddr :=
  inv.holds.firstFrame_translate (inv.lawful ok)
    (spaceOwnership_half layout exempt spaces) only vaddr

omit ok in
theorem SpaceInv.takeKernel (inv : SpaceInv layout exempt spaces machine)
    {count paddr frame : Nat}
    (taken : TakesFrames layout count machine paddr after frame) :
    Evolves layout exempt spaces machine
      (spaces.addKernel (blockFrames paddr count)) after := by
  have mem : after.mem = machine.mem := by rw [taken.unchanged]
  have wasFree : ∀ other ∈ blockFrames paddr count,
      FreeFrame layout machine other := by
    intro other member
    have inBlock := taken.mem_blockFrames.mp member
    exact taken.wasFree other inBlock.1 inBlock.2
  have keeps : KeepsPages layout machine after := .of_mem mem
  have kept : (spaceOwnership layout exempt
      (spaces.addKernel (blockFrames paddr count))).Holds layout after := by
    refine (inv.holds.takesFrames taken).mono ?_ ?_ ?_ ?_
    · exact id
    · intro other inUse
      rcases inUse with isDirectory | isUser | isKernel
      · exact Or.inl (Or.inl isDirectory)
      · exact Or.inl (Or.inr (Or.inl isUser))
      · rcases List.mem_append.mp isKernel with isNew | earlier
        · exact Or.inr (taken.mem_blockFrames.mp isNew)
        · exact Or.inl (Or.inr (Or.inr earlier))
    · exact id
    · exact id
  refine ⟨⟨?_, kept, inv.oneOwner, inv.notDirectory, ?_, inv.loaded, ?_⟩,
    ⟨id, id, fun member => List.mem_append_right _ member, rfl⟩, keeps⟩
  · intro other inUse
    rcases inUse with isDirectory | isUser | isKernel
    · exact inv.managed (Or.inl isDirectory)
    · exact inv.managed (Or.inr (Or.inl isUser))
    · rcases List.mem_append.mp isKernel with isNew | earlier
      · exact (wasFree other isNew).1
      · exact inv.managed (Or.inr (Or.inr earlier))
  · intro pdt other isUser isKernel
    rcases List.mem_append.mp isKernel with isNew | earlier
    · exact inv.free_unused (wasFree other isNew) (Or.inr (Or.inl ⟨_, isUser⟩))
    · exact inv.notKernel isUser earlier
  · rw [mem]
    exact inv.copies

omit ok in
theorem SpaceInv.takeUser (inv : SpaceInv layout exempt spaces machine)
    {paddr frame : Nat} (pdt : Nat)
    (taken : TakesFrames layout 1 machine paddr after frame) :
    Evolves layout exempt spaces machine (spaces.addUser pdt frame) after := by
  have mem : after.mem = machine.mem := by rw [taken.unchanged]
  have wasFree := taken.wasFree frame (Nat.le_refl _) (Nat.lt_succ_self _)
  have fresh := inv.free_unused wasFree
  have kept : (spaceOwnership layout exempt
      (spaces.addUser pdt frame)).Holds layout after := by
    refine (inv.holds.takesFrames taken).mono ?_ ?_ ?_ ?_
    · exact id
    · intro other inUse
      rcases inUse with isDirectory | ⟨owner, isUser⟩ | isKernel
      · exact Or.inl (Or.inl isDirectory)
      · rcases List.mem_cons.mp isUser with isNew | earlier
        · cases isNew
          exact Or.inr ⟨Nat.le_refl _, Nat.lt_succ_self _⟩
        · exact Or.inl (Or.inr (Or.inl ⟨owner, earlier⟩))
      · exact Or.inl (Or.inr (Or.inr isKernel))
    · exact id
    · intro other pdtIdx entry good
      refine good.imp_right fun entryGood => ⟨entryGood.1, fun present => ?_⟩
      have rights := entryGood.2 present
      split_ifs at rights ⊢
      · exact rights
      · exact List.mem_cons_of_mem _ rights
  refine ⟨⟨?_, kept, ?_, ?_, ?_, inv.loaded, ?_⟩,
    ⟨id, fun member => List.mem_cons_of_mem _ member, id, rfl⟩,
    .of_mem mem⟩
  · intro other inUse
    rcases inUse with isDirectory | ⟨owner, isUser⟩ | isKernel
    · exact inv.managed (Or.inl isDirectory)
    · rcases List.mem_cons.mp isUser with isNew | earlier
      · cases isNew
        exact wasFree.1
      · exact inv.managed (Or.inr (Or.inl ⟨owner, earlier⟩))
    · exact inv.managed (Or.inr (Or.inr isKernel))
  · intro first second shared isFirst isSecond
    rcases List.mem_cons.mp isFirst with firstNew | firstEarlier
    · rcases List.mem_cons.mp isSecond with secondNew | secondEarlier
      · cases firstNew
        cases secondNew
        rfl
      · cases firstNew
        exact absurd (Or.inr (Or.inl ⟨_, secondEarlier⟩)) fresh
    · rcases List.mem_cons.mp isSecond with secondNew | secondEarlier
      · cases secondNew
        exact absurd (Or.inr (Or.inl ⟨_, firstEarlier⟩)) fresh
      · exact inv.oneOwner firstEarlier secondEarlier
  · intro owner other isUser isDirectory
    rcases List.mem_cons.mp isUser with isNew | earlier
    · cases isNew
      exact fresh (Or.inl isDirectory)
    · exact inv.notDirectory earlier isDirectory
  · intro owner other isUser isKernel
    rcases List.mem_cons.mp isUser with isNew | earlier
    · cases isNew
      exact fresh (Or.inr (Or.inr isKernel))
    · exact inv.notKernel earlier isKernel
  · rw [mem]
    exact inv.copies

/-- `pdt_map_kernel_memory`, with the rights that the kernel gives itself. -/
theorem SpaceInv.mapKernel (inv : SpaceInv layout exempt spaces machine)
    {paddr vaddr size result : Nat} (sizeSmall : size < 4294967296)
    (mapped : pdtMapKernelMemory layout paddr vaddr size 1 0 machine =
      some (result, after)) :
    Evolves layout exempt spaces machine spaces after := by
  have lawful := inv.lawful ok
  have half := spaceOwnership_half layout exempt spaces
  obtain ⟨_, _, returned, kept, untouched⟩ := inv.holds.mapMemory lawful
    ⟨0, half.owns (by decide)⟩ sizeSmall (half.mapAllowed paddr vaddr _)
  have same := mapped
  rw [pdtMapKernelMemory, returned] at same
  cases same
  exact inv.keep kept untouched
    (half.keepsPages inv.holds lawful sizeSmall mapped)

theorem SpaceInv.userAllowed (inv : SpaceInv layout exempt spaces machine)
    {pdt frame vaddr size : Nat} (member : pdt ∈ spaces.directories)
    (isUser : (pdt, frame) ∈ spaces.user)
    (userHalf : virtualToPdtIdx vaddr < 768)
    (notLoaded : pdt ∉ spaces.loaded) (aligned : vaddr % 4096 = 0)
    (onePage : alignUp size fourKb = 4096) :
    (spaceOwnership layout exempt spaces).MapAllowed layout pdt
      (fourKb * frame) vaddr (alignUp size fourKb) 1 1 := by
  have below := (ok.framesOk.unordered.frame_bounds
    (inv.managed (Or.inr (Or.inl ⟨_, isUser⟩)))).2
  have notKernel := inv.notKernelPdt ok (Or.inl member)
  have owning : spaces.Owns layout pdt (virtualToPdtIdx vaddr) :=
    ⟨by omega, Or.inr ⟨member, userHalf, fun _ => notLoaded⟩⟩
  intro offset within
  rw [onePage] at within
  have slotEq : virtualToPdtIdx (vaddr + offset) =
      virtualToPdtIdx vaddr := by
    rw [virtualToPdtIdx_eq, virtualToPdtIdx_eq]
    omega
  have entryFrame : (ptEntry (fourKb * frame + offset) 1 1).frame =
      frame := by
    rw [ptEntry_frame]
    simp only [fourKb]
    omega
  rw [slotEq]
  refine ⟨Or.inl owning, Or.inr ⟨ptEntry_sound .., fun _ => ?_⟩,
    fun other => ⟨Or.inr (pdtEntry_flags ..).2.1, fun _ =>
      ⟨(pdtEntry_flags ..).2.2.1, fun same => absurd same.symm notKernel⟩⟩⟩
  rw [if_neg (Ne.symm notKernel), entryFrame]
  exact isUser

theorem SpaceInv.mapUser (inv : SpaceInv layout exempt spaces machine)
    {pdt frame vaddr size result : Nat} (member : pdt ∈ spaces.directories)
    (isUser : (pdt, frame) ∈ spaces.user)
    (userHalf : virtualToPdtIdx vaddr < 768)
    (notLoaded : pdt ∉ spaces.loaded) (aligned : vaddr % 4096 = 0)
    (onePage : alignUp size fourKb = 4096) (sizeSmall : size < 4294967296)
    (mapped : pdtMapMemory layout pdt (fourKb * frame) vaddr size 1 1
      machine = some (result, after)) :
    Evolves layout exempt spaces machine spaces after := by
  have lawful := inv.lawful ok
  have half := spaceOwnership_half layout exempt spaces
  have allowed := inv.userAllowed ok member isUser userHalf notLoaded aligned
    onePage
  have directory : ∃ pdtIdx,
      (spaceOwnership layout exempt spaces).Slot layout pdt pdtIdx :=
    ⟨0, Or.inl ⟨by decide, Or.inr ⟨member, by decide, fun _ => notLoaded⟩⟩⟩
  obtain ⟨_, _, returned, kept, untouched⟩ :=
    inv.holds.mapMemory lawful directory sizeSmall allowed
  have keeps := inv.holds.mapMemory_keepsPages lawful half.owns directory
    sizeSmall allowed mapped
  rw [mapped] at returned
  cases returned
  exact inv.keep kept untouched keeps

/-- Mapping a page of kernel memory where the search says and unmapping it
again. -/
theorem SpaceInv.pageWindow (inv : SpaceInv layout exempt spaces machine)
    {middle : Machine} {paddr vaddr size fuel mappedSize freedSize : Nat}
    (onePage : alignUp size fourKb = 4096) (sizeSmall : size < 4294967296)
    (found : (pdtKernelFindNextVaddr layout size machine).1 = vaddr)
    (mapped : pdtMapKernelMemory layout paddr vaddr size 1 0 machine =
      some (mappedSize, middle))
    (unmapped : pdtUnmapKernelMemory layout fuel vaddr size middle =
      some (freedSize, after)) :
    Evolves layout exempt spaces machine spaces after ∧
      (∀ pdt ∈ spaces.directories, ∀ pdtIdx,
        after.mem pdt pdtIdx = machine.mem pdt pdtIdx) ∧
      ((pfaAllocate layout 1 machine).1 = 0 → after.bits = machine.bits) := by
  have half := spaceOwnership_half layout exempt spaces
  obtain ⟨kept, untouched, keeps, bits⟩ := inv.holds.pageWindow
    (inv.lawful ok) half.owns onePage sizeSmall
    (half.mapAllowed paddr vaddr _) found mapped unmapped
  refine ⟨inv.keep kept untouched keeps, ?_, bits⟩
  intro pdt member pdtIdx
  apply untouched.cell (Or.inr (Or.inl member))
  exact fun same => inv.notKernelPdt ok (Or.inl member) same.1.symm

/-- A directory that `pdt_create` has made. -/
structure NewSpace (layout : Layout) (exempt : Entry → Prop)
    (spaces : Spaces) (machine : Machine) (vaddr paddr frame : Nat)
    (after : Machine) : Prop where
  notNull : vaddr ≠ 0
  address : paddr = fourKb * frame
  wasFree : FreeFrame layout machine frame
  evolves : Evolves layout exempt spaces machine (spaces.addDirectory frame)
    after
  zeroes : ∀ index, after.mem frame index = Entry.empty
  kernelHalf : kernelStartVaddr ≤ vaddr ∧ vaddr < 4294967296
  walk : after.translate layout.kernelPdt vaddr = some frame

omit ok in
theorem SpaceInv.addDirectory (inv : SpaceInv layout exempt spaces machine)
    (lawful : (spaceOwnership layout exempt spaces).Lawful layout)
    {frame : Nat} (wasFree : FreeFrame layout machine frame)
    (kept : ((spaceOwnership layout exempt spaces).reserve
      (Ownership.Block frame 1)).Holds layout after)
    (zeroes : ∀ index, after.mem frame index = Entry.empty)
    (untouched : (spaceOwnership layout exempt spaces).Untouched layout
      layout.kernelPdt machine after)
    (keeps : KeepsPages layout machine after) :
    Evolves layout exempt spaces machine (spaces.addDirectory frame)
      after := by
  have managed : ∀ other, Ownership.Block frame 1 other →
      other ∈ mmapFrames layout.mmap := by
    intro other isFrame
    rw [Ownership.block_one.mp isFrame]
    exact wasFree.1
  have added : (((spaceOwnership layout exempt spaces).reserve
      (Ownership.Block frame 1)).addDirectory frame (· < 768)).Holds layout
      after := kept.addDirectory (lawful.reserve managed) zeroes
  have stays : (spaceOwnership layout exempt
      (spaces.addDirectory frame)).Holds layout after := by
    refine added.mono ?_ ?_ ?_ ?_
    · intro pdt pdtIdx owning
      rcases owning.2 with kernel | ⟨member, userHalf, notLoaded⟩
      · exact Or.inl ⟨owning.1, Or.inl kernel⟩
      · rcases List.mem_cons.mp member with isNew | earlier
        · exact Or.inr ⟨isNew, userHalf⟩
        · exact Or.inl ⟨owning.1, Or.inr ⟨earlier, userHalf, notLoaded⟩⟩
    · intro other inUse
      rcases inUse with isDirectory | inUse
      · rcases List.mem_cons.mp isDirectory with isNew | earlier
        · exact Or.inr (Ownership.block_one.mpr isNew)
        · exact Or.inl (Or.inl earlier)
      · exact Or.inl (Or.inr inUse)
    · exact id
    · exact id
  refine ⟨⟨?_, stays, inv.oneOwner, ?_, inv.notKernel, ?_, ?_⟩,
    ⟨fun member => List.mem_cons_of_mem _ member, id, id, rfl⟩, keeps⟩
  · intro other inUse
    rcases inUse with isDirectory | inUse
    · rcases List.mem_cons.mp isDirectory with isNew | earlier
      · rw [isNew]
        exact wasFree.1
      · exact inv.managed (Or.inl earlier)
    · exact inv.managed (Or.inr inUse)
  · intro pdt other isUser isDirectory
    rcases List.mem_cons.mp isDirectory with isNew | earlier
    · rw [isNew] at isUser
      exact inv.free_unused wasFree (Or.inr (Or.inl ⟨_, isUser⟩))
    · exact inv.notDirectory isUser earlier
  · exact fun isLoaded => List.mem_cons_of_mem _ (inv.loaded isLoaded)
  · intro pdt pdtIdx member small unowned
    rcases List.mem_cons.mp member with rfl | earlier
    · exact Or.inl (zeroes pdtIdx)
    · have wasUnowned : ¬spaces.Owns layout pdt pdtIdx := by
        rintro ⟨_, kernel | ⟨_, userHalf, notLoaded⟩⟩
        · exact unowned ⟨small, Or.inl kernel⟩
        · exact unowned ⟨small, Or.inr ⟨member, userHalf, notLoaded⟩⟩
      apply inv.copies_kept kept.unreserve keeps earlier small wasUnowned
      apply untouched.cell (Or.inr (Or.inl earlier))
      rintro ⟨rfl, owning⟩
      exact wasUnowned owning

/-- `pdt_create`: it slips, fails, or makes a directory. -/
theorem SpaceInv.pdtCreate_outcome
    (inv : SpaceInv layout exempt spaces machine) {vaddr paddr : Nat}
    (created : Newbos.pdtCreate layout machine =
      some (vaddr, paddr, after)) :
    (Ownership.CreateSlips layout machine ∧ vaddr = 0 ∧ paddr = 0 ∧
        after = pfaFree layout 0 machine) ∨
      ((vaddr = 0 ∨ paddr = 0) ∧
        Evolves layout exempt spaces machine spaces after) ∨
      ∃ frame, NewSpace layout exempt spaces machine vaddr paddr frame
        after := by
  have lawful := inv.lawful ok
  rcases inv.holds.pdtCreate lawful (spaceOwnership_half layout exempt spaces)
    with ⟨slips, returned⟩ |
      ⟨_, _, _, returned, outcome, untouched, keeps, walk⟩
  · rw [created] at returned
    cases returned
    exact Or.inl ⟨slips, rfl, rfl, rfl⟩
  · rw [created] at returned
    cases returned
    cases outcome with
    | failed failure kept =>
        exact Or.inr (Or.inl ⟨failure, inv.keep kept untouched keeps⟩)
    | @directory frame _ notNull wasFree kept zeroes =>
        have frameEq : fourKb * frame / fourKb = frame := by simp [fourKb]
        have bounds := ok.framesOk.unordered.frame_bounds wasFree.1
        have hasFrame : fourKb * frame ≠ 0 := by
          simp only [fourKb]
          omega
        obtain ⟨lower, upper, translates⟩ := walk notNull hasFrame
        rw [frameEq] at translates
        exact Or.inr (Or.inr ⟨frame, notNull, rfl, wasFree,
          inv.addDirectory lawful wasFree kept zeroes untouched keeps, zeroes,
          ⟨lower, upper⟩, translates⟩)

theorem SpaceInv.pdtCreate (inv : SpaceInv layout exempt spaces machine)
    {vaddr paddr : Nat} (noSlip : ¬Ownership.CreateSlips layout machine)
    (created : Newbos.pdtCreate layout machine =
      some (vaddr, paddr, after)) :
    (vaddr = 0 ∨ paddr = 0) ∧
        Evolves layout exempt spaces machine spaces after ∨
      ∃ frame, NewSpace layout exempt spaces machine vaddr paddr frame
        after := by
  rcases inv.pdtCreate_outcome ok created with ⟨slips, _⟩ | outcome
  · exact absurd slips noSlip
  · exact outcome

/-- `pdt_load_process_pdt` on a directory of the run. -/
theorem SpaceInv.load (inv : SpaceInv layout exempt spaces machine)
    {pdt : Nat} (member : pdt ∈ spaces.directories) (pdtPaddr : Nat) :
    SpaceInv layout exempt (spaces.load pdt)
        (pdtLoadProcessPdt layout pdt pdtPaddr machine) ∧
      KeepsPages layout machine
        (pdtLoadProcessPdt layout pdt pdtPaddr machine) := by
  have different := inv.notKernelPdt ok (Or.inl member)
  have elsewhere := pdtLoadProcessPdt_elsewhere different pdtPaddr machine
  have kernelSame := elsewhere _ different
  have half := spaceOwnership_half layout exempt spaces
  have unloaded : (spaceOwnership layout exempt
      (spaces.load pdt)).Holds layout machine := by
    refine inv.holds.mono ?_ ?_ ?_ ?_
    · intro other pdtIdx owning
      refine ⟨owning.1, owning.2.imp_right fun directory =>
        ⟨directory.1, directory.2.1, fun isZero isLoaded => ?_⟩⟩
      exact directory.2.2 isZero (List.mem_cons_of_mem _ isLoaded)
    · exact id
    · exact id
    · exact id
  have owned : ∀ pdtIdx, (spaces.load pdt).Owns layout pdt pdtIdx →
      pdtIdx ≠ 0 ∧ pdtIdx < 768 := by
    rintro pdtIdx ⟨_, ⟨same, _⟩ | ⟨_, userHalf, notLoaded⟩⟩
    · exact absurd same.symm different
    · exact ⟨fun isZero => notLoaded isZero List.mem_cons_self, userHalf⟩
  refine ⟨⟨inv.managed, ?_, inv.oneOwner, inv.notDirectory, inv.notKernel, ?_,
    ?_⟩, ?_⟩
  · apply unloaded.of_unowned (spaceOwnership_lawful ok exempt inv.managed)
      (Or.inl member) ?_ elsewhere (pdtLoadProcessPdt_bits ..)
    intro pdtIdx owning
    obtain ⟨notFirst, userHalf⟩ := owned pdtIdx owning
    rw [pdtLoadProcessPdt_userHalf different _ _ userHalf, if_neg notFirst]
  · intro other isLoaded
    rcases List.mem_cons.mp isLoaded with rfl | earlier
    · exact member
    · exact inv.loaded earlier
  · intro other pdtIdx otherMember small unowned
    rw [kernelSame]
    by_cases same : other = pdt
    · subst same
      rcases Spaces.unowned_idx otherMember small unowned with rfl | lower
      · have boot : Ownership.BootSlot layout layout.kernelPdt 0 :=
          ⟨rfl, Or.inr rfl⟩
        rw [pdtLoadProcessPdt_userHalf different _ _ (by decide), if_pos rfl]
        exact Or.inr ⟨inv.holds.bootPresent boot, rfl⟩
      · rw [pdtLoadProcessPdt_kernelHalf different _ _ lower small]
        split_ifs with present
        · exact Or.inr ⟨present, rfl⟩
        · apply inv.copies otherMember small
          rintro ⟨_, ⟨isKernel, _⟩ | ⟨_, userHalf, _⟩⟩
          · exact different isKernel.symm
          · omega
    · rw [elsewhere other same]
      apply inv.copies otherMember small
      rintro ⟨_, kernel | ⟨isDirectory, userHalf, notLoaded⟩⟩
      · exact unowned ⟨small, Or.inl kernel⟩
      · refine unowned ⟨small, Or.inr ⟨isDirectory, userHalf, ?_⟩⟩
        intro isZero isLoaded
        rcases List.mem_cons.mp isLoaded with isPdt | earlier
        · exact same isPdt
        · exact notLoaded isZero earlier
  · exact inv.holds.keepsPages_reserved (inv.lawful ok) half.owns
      (Or.inl member) elsewhere

end Steps

/-! ## The start -/

/-- The directory of the boot, and a page table of supervisor pages and
exempt ones. -/
structure KernelDirectory (layout : Layout) (exempt : Entry → Prop)
    (machine : Machine) : Prop where
  identity : machine.mem layout.kernelPdt 0 = identityEntry
  kernelSlot : machine.mem layout.kernelPdt kernelPtPdtIdx =
    pdtEntry (fourKb * layout.kernelPt) 0 1 0
  others : ∀ index, index ≠ 0 → index ≠ kernelPtPdtIdx →
    machine.mem layout.kernelPdt index = Entry.empty
  table : ∀ index, (machine.mem layout.kernelPt index).Sound ∧
    ((machine.mem layout.kernelPt index).isPresent = true →
      (machine.mem layout.kernelPt index).Supervisor ∨
        exempt (machine.mem layout.kernelPt index))

section Start

variable {layout : Layout} {exempt : Entry → Prop} {machine : Machine}

theorem Boot.kernelDirectory (boot : Boot layout machine)
    (exempt : Entry → Prop) : KernelDirectory layout exempt machine := by
  refine ⟨boot.identity, boot.kernelSlot, boot.others, ?_⟩
  intro index
  rcases boot.table index with isEmpty | isPage
  · rw [isEmpty]
    exact ⟨Or.inl rfl, fun present => by cases present⟩
  · rw [isPage]
    exact ⟨ptEntry_sound .., fun _ => Or.inl (ptEntry_supervisor _)⟩

theorem KernelDirectory.spaceInv
    (boot : KernelDirectory layout exempt machine) :
    SpaceInv layout exempt Spaces.empty machine := by
  have noSlot : ∀ {pdt pdtIdx}, Spaces.empty.Owns layout pdt pdtIdx →
      machine.mem pdt pdtIdx = Entry.empty := by
    rintro pdt pdtIdx ⟨_, ⟨rfl, notBoot⟩ | ⟨impossible, _⟩⟩
    · apply boot.others
      · exact fun isIdentity => notBoot ⟨rfl, Or.inr isIdentity⟩
      · exact fun isKernel => notBoot ⟨rfl, Or.inl isKernel⟩
    · cases impossible
  have absent : ∀ {pdt pdtIdx}, Spaces.empty.Owns layout pdt pdtIdx →
      (machine.mem pdt pdtIdx).isPresent ≠ true := by
    intro pdt pdtIdx owning
    rw [noSlot owning]
    decide
  have unused : ∀ {frame}, ¬Spaces.empty.Uses frame := by
    rintro frame (impossible | ⟨_, impossible⟩ | impossible) <;>
      cases impossible
  refine ⟨fun inUse => absurd inUse unused, ?_, ?_, ?_, ?_, ?_, ?_⟩
  · constructor
    case boot =>
      rintro pdt pdtIdx ⟨rfl, rfl | rfl⟩
      · exact boot.kernelSlot
      · exact boot.identity
    case bootTableEntry =>
      rintro pdt pdtIdx ⟨rfl, rfl | rfl⟩ ptIdx
      · rw [Ownership.bootTable, if_pos rfl]
        refine Or.inr ((boot.table ptIdx).imp_right fun rights present => ?_)
        rw [if_pos rfl]
        exact rights present
      · exact Or.inl ⟨rfl, rfl⟩
    case directoryEntry =>
      intro pdt pdtIdx owning
      rw [noSlot owning]
      exact ⟨Or.inl rfl, fun present => by cases present⟩
    case managed =>
      exact fun owning present => absurd present (absent owning)
    case taken => exact fun owning present => absurd present (absent owning)
    case notReserved =>
      exact fun owning present => absurd present (absent owning)
    case injective =>
      exact fun owning _ present => absurd present (absent owning)
    case kept => exact fun inUse => absurd inUse unused
    case tableEntry =>
      exact fun owning present => absurd present (absent owning)
  all_goals
    intros
    contradiction

end Start

/-! ## What user code can reach -/

/-- The processor lets user code reach the frame through the directory. -/
def UserReaches (machine : Machine) (directory frame : Nat) : Prop :=
  ∃ vaddr page, machine.mapping directory vaddr = some page ∧
    page.user = true ∧ page.frame = frame

section Reach

variable {layout : Layout} {exempt : Entry → Prop} {spaces : Spaces}
  {machine : Machine}

theorem SpaceInv.kernelSlot_supervisor
    (inv : SpaceInv layout exempt spaces machine) {pdtIdx : Nat}
    (small : pdtIdx < 1024)
    (present : (machine.mem layout.kernelPdt pdtIdx).isPresent = true) :
    (machine.mem layout.kernelPdt pdtIdx).Supervisor := by
  have slot : (spaceOwnership layout exempt spaces).Slot layout
      layout.kernelPdt pdtIdx := spaces.slot exempt small
  cases slot with
  | inl owning => exact ((inv.holds.directoryEntry owning).2 present).2 rfl
  | inr boot =>
      rw [inv.holds.boot boot, Ownership.bootEntry]
      split_ifs
      · exact pdtEntry_supervisor _
      · exact ⟨by decide, by decide⟩

variable (ok : layout.BootOk)
include ok

/-- User code reaches only frames allocated for its directory. -/
theorem SpaceInv.user_of_reaches (inv : SpaceInv layout exempt spaces machine)
    {pdt frame : Nat} (member : pdt ∈ spaces.directories)
    (reaches : UserReaches machine pdt frame) :
    (pdt, frame) ∈ spaces.user := by
  obtain ⟨vaddr, page, mapped, isUser, rfl⟩ := reaches
  have different := inv.notKernelPdt ok (Or.inl member)
  have small := virtualToPdtIdx_lt vaddr
  have valid : (machine.mem pdt (virtualToPdtIdx vaddr)).bitP = true := by
    by_contra invalid
    simp only [Machine.mapping, if_neg invalid] at mapped
    cases mapped
  have present := Entry.isPresent_of_bitP valid
  by_cases owning : spaces.Owns layout pdt (virtualToPdtIdx vaddr)
  · have entry := inv.holds.directoryEntry owning
    rw [Machine.mapping_table ⟨valid, (entry.2 present).1⟩,
      Entry.smallPage] at mapped
    split_ifs at mapped with pageValid
    cases mapped
    rw [Machine.leaf, if_pos present] at pageValid ⊢
    rcases inv.holds.tableEntry owning present (virtualToPtIdx vaddr) with
      ⟨same, _⟩ | ⟨_, rights⟩
    · exact absurd same.symm different
    · have isOwn := rights (Entry.isPresent_of_bitP pageValid)
      rw [if_neg (Ne.symm different)] at isOwn
      exact isOwn
  · rcases inv.copies member small owning with isEmpty | ⟨kernelHas, isCopy⟩
    · rw [isEmpty] at valid
      cases valid
    · have supervisor := (inv.kernelSlot_supervisor small kernelHas).1
      rw [← isCopy] at supervisor
      simp only [Machine.mapping, if_pos valid, Entry.smallPage,
        Entry.largePage, supervisor, Bool.false_and] at mapped
      split_ifs at mapped <;> cases mapped <;> cases isUser

theorem SpaceInv.user_notTable (inv : SpaceInv layout exempt spaces machine)
    {owner frame : Nat} (isUser : (owner, frame) ∈ spaces.user)
    {pdt pdtIdx : Nat}
    (directory : pdt = layout.kernelPdt ∨ pdt ∈ spaces.directories)
    (small : pdtIdx < 1024)
    (present : (machine.mem pdt pdtIdx).isPresent = true) :
    (machine.mem pdt pdtIdx).frame ≠ frame := by
  have lawful := inv.lawful ok
  have inUse : spaces.Uses frame := Or.inr (Or.inl ⟨owner, isUser⟩)
  have kernelTable : ∀ {pdtIdx}, pdtIdx < 1024 →
      (machine.mem layout.kernelPdt pdtIdx).isPresent = true →
      (machine.mem layout.kernelPdt pdtIdx).frame ≠ frame := by
    rintro pdtIdx small present rfl
    exact (inv.holds.table_notDirectory lawful (spaces.slot exempt small)
      present).2 inUse
  rcases directory with rfl | member
  · exact kernelTable small present
  · by_cases owning : spaces.Owns layout pdt pdtIdx
    · rintro rfl
      exact inv.holds.notReserved owning present inUse
    · rcases inv.copies member small owning with isEmpty |
        ⟨kernelHas, isCopy⟩
      · rw [isEmpty] at present
        cases present
      · rw [isCopy]
        exact kernelTable small kernelHas

end Reach

end Newbos
