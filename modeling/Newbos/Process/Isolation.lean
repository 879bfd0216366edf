import Newbos.Process.Spaces

/-!
# Isolation of processes

Any run of `kmalloc`, `kfree`, `process_create` and `pdt_load_process_pdt`
keeps the frames of a process to itself, unless `pdt_create` gives back a frame
that it never had.
-/

namespace Newbos

/-- What `process_create` leaves of a process, also when it fails: the pointer
to its directory, the directory's address, and the frames of its kernel
stack. -/
structure Spawned where
  pdt : Nat
  pdtPaddr : Nat
  kernelStack : List Nat

def Spawned.directory (process : Spawned) : Nat := process.pdtPaddr / fourKb

theorem Spawned.directory_eq {process : Spawned} {frame : Nat}
    (address : process.pdtPaddr = fourKb * frame) :
    process.directory = frame := by
  rw [Spawned.directory, address]
  exact Nat.mul_div_cancel_left frame (by decide)

/-- The process of a record, unless it has no directory. -/
def Kernel.spawned (kernel : Kernel) (p : Nat) : Option Spawned :=
  if (kernel.processes p).pdtPaddr = 0 then none
  else
    some
      { pdt := (kernel.processes p).pdt
        pdtPaddr := (kernel.processes p).pdtPaddr
        kernelStack := kernel.stackFrames p }

/-- `pdt_load_process_pdt` through the pointer to a directory. -/
def Kernel.loadProcessPdt (layout : Layout) (pdt pdtPaddr : Nat)
    (kernel : Kernel) : Kernel :=
  { kernel with
    machine :=
      match kernel.machine.translate layout.kernelPdt pdt with
      | some frame => pdtLoadProcessPdt layout frame pdtPaddr kernel.machine
      | none => { kernel.machine with faulted := true } }

/-- Calls of a kernel in any order, and the processes that they leave.
`process_create` is called in allowed states. -/
inductive SpaceRun (layout : Layout) (base : Nat)
    (allowed : Nat → Kernel → Prop) (start : Kernel) :
    Kernel → List Spawned → Prop where
  | start : SpaceRun layout base allowed start start []
  | kmalloc {kernel after : Kernel} {processes : List Spawned}
      {fuel nbytes address : Nat} :
      SpaceRun layout base allowed start kernel processes →
      kernel.kmalloc layout base fuel nbytes = some (address, after) →
      SpaceRun layout base allowed start after processes
  | kfree {kernel : Kernel} {processes : List Spawned} {fuel ap : Nat}
      {heap : Heap} :
      SpaceRun layout base allowed start kernel processes →
      Newbos.kfree fuel ap kernel.heap = some heap →
      SpaceRun layout base allowed start { kernel with heap := heap }
        processes
  | processCreate {kernel middle after : Kernel} {processes : List Spawned}
      {fuel p result : Nat} :
      SpaceRun layout base allowed start kernel processes →
      allowed fuel kernel →
      kernel.kmalloc layout base fuel processSize = some (p, middle) →
      Newbos.processCreate layout base fuel kernel = some (result, after) →
      SpaceRun layout base allowed start after
        ((after.spawned p).toList ++ processes)
  | load {kernel : Kernel} {processes : List Spawned} {process : Spawned} :
      SpaceRun layout base allowed start kernel processes →
      process ∈ processes →
      SpaceRun layout base allowed start
        (kernel.loadProcessPdt layout process.pdt process.pdtPaddr) processes

/-- When `process_create` has initialised its record, there is a free frame for
the directory, or the page for it can be mapped without one. -/
def CreatesDirectory (layout : Layout) (base fuel : Nat) (kernel : Kernel) :
    Prop :=
  ∀ p middle id,
    kernel.kmalloc layout base fuel processSize = some (p, middle) →
    schedulerNextPid fuel middle = some id →
    ¬Ownership.CreateSlips layout (middle.initializeProcess p id).machine

/-- A frame that user code of a process can reach belongs to no other process,
is no directory and no page table, and backs neither the heap nor a kernel
stack. -/
structure Isolated (layout : Layout) (kernel : Kernel)
    (processes : List Spawned) : Prop where
  others : processes.Pairwise fun process other => ∀ frame,
    UserReaches kernel.machine process.directory frame →
    ¬UserReaches kernel.machine other.directory frame
  directories : ∀ process ∈ processes, ∀ frame,
    UserReaches kernel.machine process.directory frame →
    frame ≠ layout.kernelPdt ∧ ∀ other ∈ processes, frame ≠ other.directory
  tables : ∀ process ∈ processes, ∀ frame,
    UserReaches kernel.machine process.directory frame →
    ∀ pdt, pdt = layout.kernelPdt ∨
        (∃ other ∈ processes, other.directory = pdt) →
      ∀ pdtIdx < numEntries,
        (kernel.machine.mem pdt pdtIdx).isPresent = true →
        (kernel.machine.mem pdt pdtIdx).frame ≠ frame
  heap : ∀ process ∈ processes, ∀ frame,
    UserReaches kernel.machine process.directory frame →
    ∀ range ∈ kernel.heap.ranges, frame ∉ blockFrames range.paddr range.pages
  kernelStacks : ∀ process ∈ processes, ∀ frame,
    UserReaches kernel.machine process.directory frame →
    ∀ other ∈ processes, frame ∉ other.kernelStack

/-- The address spaces of the processes of a run. -/
structure SpawnedSpaces (layout : Layout) (exempt : Entry → Prop)
    (spaces : Spaces) (kernel : Kernel) (processes : List Spawned) :
    Prop where
  owned : KernelSpaces layout exempt spaces kernel
  directory : ∀ process ∈ processes, DirectoryAt layout spaces kernel.machine
    process.pdt process.directory
  distinct : processes.Pairwise fun process other =>
    process.directory ≠ other.directory
  kernelStack : ∀ process ∈ processes, ∀ frame ∈ process.kernelStack,
    frame ∈ spaces.kernel

section Runs

variable {layout : Layout} {exempt : Entry → Prop} {base : Nat}
  {spaces later : Spaces} {kernel after : Kernel}
  {processes : List Spawned} {directory p result : Nat}

theorem SpawnedSpaces.step
    (spawned : SpawnedSpaces layout exempt spaces kernel processes)
    (step : KernelEvolves layout exempt spaces kernel later after) :
    SpawnedSpaces layout exempt later after processes where
  owned := step.owned
  directory process member :=
    (spawned.directory process member).evolve step.evolves
  distinct := spawned.distinct
  kernelStack process member frame inStack :=
    step.evolves.grows.kernel
      (spawned.kernelStack process member frame inStack)

theorem SpawnedSpaces.spawn
    (spawned : SpawnedSpaces layout exempt spaces kernel processes)
    (spawns : Spawns layout exempt base directory p result spaces kernel later
      after) :
    SpawnedSpaces layout exempt later after
      ((after.spawned p).toList ++ processes) := by
  have kept := spawned.step spawns.advances.step
  by_cases isNull : (after.processes p).pdtPaddr = 0
  · rw [Kernel.spawned, if_pos isNull]
    exact kept
  · obtain ⟨isDirectory, address⟩ :=
      spawns.isNew.resolve_left fun gaveUp => isNull gaveUp.2
    rw [Kernel.spawned, if_neg isNull]
    constructor
    · exact kept.owned
    · intro process member
      rcases List.mem_cons.mp member with rfl | earlier
      · rw [Spawned.directory_eq address]
        exact isDirectory
      · exact kept.directory process earlier
    · refine List.pairwise_cons.mpr ⟨?_, kept.distinct⟩
      intro other member
      rw [Spawned.directory_eq address]
      rintro rfl
      exact spawns.fresh (Or.inl (spawned.directory other member).member)
    · intro process member
      rcases List.mem_cons.mp member with rfl | earlier
      · exact fun frame inStack => (spawns.stack frame inStack).2
      · exact kept.kernelStack process earlier

variable (ok : layout.BootOk)
include ok

/-- `pdt_load_process_pdt` on a process of the run. -/
theorem SpawnedSpaces.load
    (spawned : SpawnedSpaces layout exempt spaces kernel processes)
    {process : Spawned} (member : process ∈ processes) :
    SpawnedSpaces layout exempt (spaces.load process.directory)
      (kernel.loadProcessPdt layout process.pdt process.pdtPaddr)
      processes := by
  have directory := spawned.directory process member
  obtain ⟨inv, keeps⟩ := spawned.owned.inv.load ok directory.member
    process.pdtPaddr
  rw [Kernel.loadProcessPdt, directory.walk]
  constructor
  · exact ⟨inv, spawned.owned.heap⟩
  · intro other otherMember
    have otherDirectory := spawned.directory other otherMember
    exact ⟨otherDirectory.member, otherDirectory.kernelHalf,
      keeps.translate otherDirectory.kernelHalf.1
        otherDirectory.kernelHalf.2 otherDirectory.walk⟩
  · exact spawned.distinct
  · exact spawned.kernelStack

/-- The invariant holds throughout a run in which `pdt_create` does not
slip. -/
theorem SpaceRun.invariant {start : Kernel}
    (boot : KernelDirectory layout exempt start.machine)
    (noHeap : start.heap.ranges = [])
    (run : SpaceRun layout base (CreatesDirectory layout base) start kernel
      processes) :
    ∃ spaces, SpawnedSpaces layout exempt spaces kernel processes := by
  induction run with
  | start =>
      refine ⟨Spaces.empty, ⟨boot.spaceInv, ?_⟩, ?_, .nil, ?_⟩
      · intro range member
        rw [noHeap] at member
        cases member
      · exact fun _ impossible => by cases impossible
      · exact fun _ impossible => by cases impossible
  | kmalloc _ returned induction =>
      obtain ⟨spaces, spawned⟩ := induction
      obtain ⟨later, step⟩ := spawned.owned.kmalloc ok returned
      exact ⟨later, spawned.step step⟩
  | kfree _ returned induction =>
      obtain ⟨spaces, spawned⟩ := induction
      refine ⟨spaces, spawned.step ⟨spawned.owned.inv.refl, ?_⟩⟩
      exact spawned.owned.heap.congr (kfree_ranges returned)
  | processCreate _ allowed allocated created induction =>
      obtain ⟨spaces, spawned⟩ := induction
      obtain ⟨_, later, spawns⟩ := spawned.owned.processCreate ok allocated
        (fun _ => allowed _ _ _ allocated) created
      exact ⟨later, spawned.spawn spawns⟩
  | load _ member induction =>
      obtain ⟨spaces, spawned⟩ := induction
      exact ⟨_, spawned.load ok member⟩

/-- The invariant isolates the processes. -/
theorem SpawnedSpaces.isolated
    (spawned : SpawnedSpaces layout exempt spaces kernel processes) :
    Isolated layout kernel processes := by
  have inv := spawned.owned.inv
  have isUser : ∀ process ∈ processes, ∀ frame,
      UserReaches kernel.machine process.directory frame →
      (process.directory, frame) ∈ spaces.user := by
    intro process member frame reaches
    exact inv.user_of_reaches ok (spawned.directory process member).member
      reaches
  constructor
  · refine spawned.distinct.imp_of_mem ?_
    intro process other member otherMember different frame reaches
      otherReaches
    exact different (inv.oneOwner (isUser process member frame reaches)
      (isUser other otherMember frame otherReaches))
  · intro process member frame reaches
    have isOwn := isUser process member frame reaches
    refine ⟨?_, ?_⟩
    · exact (inv.notKernelPdt ok (Or.inr (Or.inl ⟨_, isOwn⟩))).symm
    · rintro other otherMember rfl
      exact inv.notDirectory isOwn
        (spawned.directory other otherMember).member
  · intro process member frame reaches pdt isDirectory pdtIdx small present
    apply inv.user_notTable ok (isUser process member frame reaches) ?_ small
      present
    rcases isDirectory with isKernel | ⟨other, otherMember, rfl⟩
    · exact Or.inl isKernel
    · exact Or.inr (spawned.directory other otherMember).member
  · intro process member frame reaches range inHeap inRange
    exact inv.notKernel (isUser process member frame reaches)
      (spawned.owned.heap range inHeap frame inRange)
  · intro process member frame reaches other otherMember inStack
    exact inv.notKernel (isUser process member frame reaches)
      (spawned.kernelStack other otherMember frame inStack)

end Runs

/-- In a run from the boot directory in which every call of `pdt_create` finds
a frame or a page, the processes are isolated. -/
theorem processes_isolated {layout : Layout} (ok : layout.BootOk)
    {base : Nat} {start kernel : Kernel} {processes : List Spawned}
    (boot : KernelDirectory layout (fun _ => True) start.machine)
    (noHeap : start.heap.ranges = [])
    (run : SpaceRun layout base (CreatesDirectory layout base) start kernel
      processes) : Isolated layout kernel processes := by
  obtain ⟨spaces, spawned⟩ := run.invariant ok boot noHeap
  exact spawned.isolated ok

/-! ## A full page table -/

/-- 36 frames above 127 MiB. -/
def highLayout : Layout :=
  { kernelPdt := 1
    kernelPt := 2
    mmap := [⟨0x7FEE000, 36 * fourKb⟩]
    start := kernelStartVaddr + 990 * fourKb
    len := 36 }

theorem highLayout_bootOk : highLayout.BootOk where
  framesOk :=
    { map :=
        { region := by
            intro entry member
            have same : entry = ⟨0x7FEE000, 36 * fourKb⟩ := by
              simpa [highLayout] using member
            subst same
            exact ⟨by decide, by decide, by decide⟩
          ascending := List.pairwise_singleton _ _
          disjoint := List.pairwise_singleton _ _ }
      aboveOneMb := by decide
      total := by decide }
  distinct := by decide
  kernelPdtBelow := by decide
  kernelPtBelow := by decide
  kernelPdtUnmanaged := by decide
  kernelPtUnmanaged := by decide
  kernelPdtPos := by decide
  kernelPtPos := by decide

/-- The kernel at boot, with 32 entries of its page table left. -/
def highKernel : Kernel := startKernel (bootMachine highLayout 991)

theorem highKernel_boot :
    KernelDirectory highLayout (fun _ => True) highKernel.machine :=
  (bootMachine_boot highLayout_bootOk.distinct 991).kernelDirectory _

theorem CreatesDirectory.of_frame {layout : Layout} {base fuel p : Nat}
    {kernel middle : Kernel}
    (allocated : kernel.kmalloc layout base fuel processSize =
      some (p, middle))
    (frame : (pfaAllocate layout 1 middle.machine).1 ≠ 0) :
    CreatesDirectory layout base fuel kernel := by
  intro other otherMiddle id returned _ slips
  rw [allocated] at returned
  cases returned
  have same : (pfaAllocate layout 1
      (middle.initializeProcess p id).machine).1 =
        (pfaAllocate layout 1 middle.machine).1 :=
    pfaAllocate_fst_congr layout 1 (Machine.storeThrough_frame ..).bits
  exact frame (same.symm.trans slips.1)

theorem processes_isolated_twoProcesses :
    ∃ kernel process other,
      SpaceRun highLayout 0xC0002000
        (CreatesDirectory highLayout 0xC0002000) highKernel kernel
        [other, process] ∧
      UserReaches kernel.machine process.directory 32753 ∧
      UserReaches kernel.machine other.directory 32759 ∧
      Isolated highLayout kernel [other, process] := by
  have evaluated : ((highKernel.kmalloc highLayout 0xC0002000 64
      processSize).bind fun record =>
      (processCreate highLayout 0xC0002000 64 highKernel).bind fun first =>
      (first.2.kmalloc highLayout 0xC0002000 64 processSize).bind
        fun second =>
      (processCreate highLayout 0xC0002000 64 first.2).map fun created =>
        ([(first.2.processes record.1).pdtPaddr,
            (created.2.processes second.1).pdtPaddr,
            (pfaAllocate highLayout 1 record.2.machine).1,
            (pfaAllocate highLayout 1 second.2.machine).1],
          [created.2.machine.mapping 32752 0,
            created.2.machine.mapping 32758 0])) =
      some ([fourKb * 32752, fourKb * 32758, fourKb * 32752, fourKb * 32758],
        [some ⟨32753, true, true⟩, some ⟨32759, true, true⟩]) := by
    set_option maxRecDepth 100000 in
    decide +kernel
  obtain ⟨⟨p, withRecord⟩, allocated, evaluated⟩ :=
    Option.bind_eq_some_iff.mp evaluated
  obtain ⟨⟨_, middle⟩, created, evaluated⟩ :=
    Option.bind_eq_some_iff.mp evaluated
  obtain ⟨⟨q, withSecond⟩, allocatedSecond, evaluated⟩ :=
    Option.bind_eq_some_iff.mp evaluated
  obtain ⟨⟨_, after⟩, createdSecond, values⟩ :=
    Option.map_eq_some_iff.mp evaluated
  simp only [Prod.mk.injEq, List.cons.injEq, and_true] at values
  obtain ⟨⟨pdtPaddr, otherPaddr, frame, otherFrame⟩, codePage, otherPage⟩ :=
    values
  have allowed : CreatesDirectory highLayout 0xC0002000 64 highKernel :=
    .of_frame allocated (by rw [frame]; decide)
  have allowedSecond : CreatesDirectory highLayout 0xC0002000 64 middle :=
    .of_frame allocatedSecond (by rw [otherFrame]; decide)
  have run := SpaceRun.processCreate
    (SpaceRun.processCreate .start allowed allocated created) allowedSecond
    allocatedSecond createdSecond
  rw [Kernel.spawned, if_neg (by rw [otherPaddr]; decide), Kernel.spawned,
    if_neg (by rw [pdtPaddr]; decide)] at run
  refine ⟨after, _, _, run, ⟨0, ⟨32753, true, true⟩, ?_, rfl, rfl⟩,
    ⟨0, ⟨32759, true, true⟩, ?_, rfl, rfl⟩,
    processes_isolated highLayout_bootOk highKernel_boot rfl run⟩
  · rw [Spawned.directory_eq pdtPaddr]
    exact codePage
  · rw [Spawned.directory_eq otherPaddr]
    exact otherPage

/-- The heap takes all frames but six, and a process the rest.  The next
`pdt_create` finds no frame and gives back address 0, which flips a bit of the
process's directory: entry 0 names the directory itself. -/
theorem processes_not_isolated :
    ∃ kernel processes,
      SpaceRun highLayout 0xC0002000 (fun _ _ => True) highKernel kernel
        processes ∧
      ¬Isolated highLayout kernel processes := by
  have evaluated : ((highKernel.kmalloc highLayout 0xC0002000 64
      (29 * fourKb)).bind fun heap =>
      (heap.2.kmalloc highLayout 0xC0002000 64 processSize).bind fun first =>
      (processCreate highLayout 0xC0002000 64 heap.2).bind fun process =>
      (process.2.kmalloc highLayout 0xC0002000 64 processSize).bind
        fun second =>
      (processCreate highLayout 0xC0002000 64 process.2).map fun failed =>
        ((process.2.processes first.1).pdtPaddr,
          (failed.2.processes second.1).pdtPaddr,
          failed.2.machine.mapping 32780 0)) =
      some (fourKb * 32780, 0, some ⟨32780, true, true⟩) := by
    set_option maxRecDepth 100000 in
    decide +kernel
  obtain ⟨⟨_, heapKernel⟩, heap, evaluated⟩ :=
    Option.bind_eq_some_iff.mp evaluated
  obtain ⟨⟨first, _⟩, firstRecord, evaluated⟩ :=
    Option.bind_eq_some_iff.mp evaluated
  obtain ⟨⟨_, kernel⟩, created, evaluated⟩ :=
    Option.bind_eq_some_iff.mp evaluated
  obtain ⟨⟨second, _⟩, secondRecord, evaluated⟩ :=
    Option.bind_eq_some_iff.mp evaluated
  obtain ⟨⟨_, after⟩, failed, values⟩ := Option.map_eq_some_iff.mp evaluated
  simp only [Prod.mk.injEq] at values
  obtain ⟨pdtPaddr, noDirectory, reaches⟩ := values
  have heapRun : SpaceRun highLayout 0xC0002000 (fun _ _ => True) highKernel
      heapKernel [] := .kmalloc .start heap
  have run := SpaceRun.processCreate (SpaceRun.processCreate heapRun trivial
    firstRecord created) trivial secondRecord failed
  rw [Kernel.spawned, if_pos noDirectory, Kernel.spawned,
    if_neg (by rw [pdtPaddr]; decide)] at run
  refine ⟨after, _, run, fun isolated => ?_⟩
  apply (isolated.directories _ List.mem_cons_self 32780
    ⟨0, ⟨32780, true, true⟩, ?_, rfl, rfl⟩).2 _ List.mem_cons_self
  · rw [Spawned.directory_eq pdtPaddr]
  · rw [Spawned.directory_eq pdtPaddr]
    exact reaches

end Newbos
