import Newbos.Kernel.HeapMemory
import Newbos.Process.Dispatch
import Newbos.Process.Pids

/-!
# Processes in a running kernel

Processes are created, queued and scheduled while the rest of the kernel takes
and frees memory.  In every such run a process keeps the frames that it had
when `process_create` returned it, and every switch is to a process of the run
on its own directory, stack and kernel stack.  Its code page is there until the
first switch, which replaces it by a page of the kernel.  The kernel's own
pointers are followed through `kernel_pdt`.
-/

namespace Newbos

/-! ## Runs -/

/-- What the calls of `scheduler_schedule` do to the kernel's data.  The task
state segment and the registers are no part of it. -/
def Kernel.perform (layout : Layout) (kernel : Kernel) :
    SchedulerAction → Kernel
  | .tssSetKernelStack _ _ => kernel
  | .pdtLoadProcessPdt pdt pdtPaddr =>
      kernel.loadProcessPdt layout pdt pdtPaddr
  | .runProcessInUserMode _ => kernel

/-- `scheduler_schedule`. -/
def Kernel.schedulerSchedule (layout : Layout) (kernel : Kernel) : Kernel :=
  let (queue, actions) :=
    Newbos.schedulerSchedule kernel.processes kernel.queue
  actions.foldl (Kernel.perform layout) { kernel with queue := queue }

/-- The process that `scheduler_schedule` switches to. -/
def Kernel.nextProcess (kernel : Kernel) : Option Nat :=
  let (queue, actions) :=
    Newbos.schedulerSchedule kernel.processes kernel.queue
  if actions = [] then none else some (queue.elements queue.start).ps

/-- A process that `process_create` returned, with the frames of its
directory, its code, its stack and its kernel stack at that time. -/
structure CreatedProcess where
  record : Nat
  directory : Nat
  code : Nat
  stack : Nat
  kernelStack : Nat
  deriving DecidableEq, Repr

def CreatedProcess.frames (process : CreatedProcess) : List Nat :=
  [process.directory, process.code, process.stack, process.kernelStack]

/-- Different records and no common frame. -/
def CreatedProcess.Apart (process other : CreatedProcess) : Prop :=
  process.record ≠ other.record ∧ process.frames.Disjoint other.frames

instance : Std.Symm CreatedProcess.Apart :=
  ⟨fun _ _ apart => ⟨apart.1.symm, apart.2.symm⟩⟩

/-- The frames behind the pointers of a record. -/
def Kernel.inspect (layout : Layout) (kernel : Kernel) (p : Nat) :
    CreatedProcess :=
  let process := kernel.processes p
  let frameAt directory vaddr :=
    (kernel.machine.translate directory vaddr).getD 0
  let directory := frameAt layout.kernelPdt process.pdt
  { record := p
    directory := directory
    code := frameAt directory process.current.eip
    stack := frameAt directory process.current.esp
    kernelStack := frameAt layout.kernelPdt process.kernelStackStartVaddr }

/-- The processes that have been created, the records that have been switched
to, last first, and the live blocks that `kmalloc` gave to other callers. -/
structure History where
  created : List CreatedProcess
  switched : List Nat
  blocks : List Nat

/-- Calls in any order.  `process_create` may fail, `scheduler_add_process`
gets what it returned, also when that is a null pointer, and other parts of the
kernel use the heap and the paging code. -/
inductive ProcessesRun (layout : Layout) (base : Nat) (start : Kernel) :
    Kernel → History → Prop where
  | start : ProcessesRun layout base start start ⟨[], [], []⟩
  | kmalloc {kernel after : Kernel} {history : History}
      {fuel nbytes address : Nat} :
      ProcessesRun layout base start kernel history →
      nbytes + headerSize ≤ fourMb →
      kernel.kmalloc layout base fuel nbytes = some (address, after) →
      ProcessesRun layout base start after
        { history with
          blocks :=
            if address = 0 then history.blocks
            else address :: history.blocks }
  | kfree {kernel : Kernel} {history : History} {fuel ap : Nat}
      {heap : Heap} :
      ProcessesRun layout base start kernel history →
      ap = 0 ∨ ap ∈ history.blocks →
      Newbos.kfree fuel ap kernel.heap = some heap →
      ProcessesRun layout base start { kernel with heap := heap }
        { history with blocks := history.blocks.erase ap }
  | paging {kernel : Kernel} {history : History} {machine : Machine} :
      ProcessesRun layout base start kernel history →
      PagingCall layout kernel.machine machine →
      ProcessesRun layout base start { kernel with machine := machine }
        history
  | processCreate {kernel after : Kernel} {history : History}
      {fuel result : Nat} :
      ProcessesRun layout base start kernel history →
      CreatesDirectory layout base fuel kernel →
      Newbos.processCreate layout base fuel kernel = some (result, after) →
      ProcessesRun layout base start after
        { history with
          created :=
            if result = 0 then history.created
            else after.inspect layout result :: history.created }
  | schedulerAddProcess {kernel after : Kernel} {history : History}
      {fuel p e : Nat} {result : Int} :
      ProcessesRun layout base start kernel history →
      p = 0 ∨ p ∈ history.created.map CreatedProcess.record →
      kernel.schedulerAddProcess layout base fuel p =
        some (result, e, after) →
      ProcessesRun layout base start after history
  | schedulerSchedule {kernel : Kernel} {history : History} :
      ProcessesRun layout base start kernel history →
      ProcessesRun layout base start (kernel.schedulerSchedule layout)
        { history with
          switched := kernel.nextProcess.toList ++ history.switched }

/-- The frames of a process are where its record and its directory say, taken
and different.  Its code page is there until it is first switched to: then
entry 0 of the directory becomes the kernel's, and the kernel stack is in the
directory too. -/
structure KeepsMemory (layout : Layout) (kernel : Kernel)
    (switched : List Nat) (process : CreatedProcess) : Prop where
  directory :
    kernel.machine.translate layout.kernelPdt
        (kernel.processes process.record).pdt = some process.directory ∧
      (kernel.processes process.record).pdtPaddr = fourKb * process.directory
  context : (kernel.processes process.record).current = initialContext
  stack : kernel.machine.mapping process.directory initialContext.esp =
    some ⟨process.stack, true, true⟩
  code : kernel.machine.mapping process.directory initialContext.eip =
    some (if process.record ∈ switched then ⟨0, true, false⟩
      else ⟨process.code, true, true⟩)
  kernelStack : ∀ pdt, pdt = layout.kernelPdt ∨
      pdt = process.directory ∧ process.record ∈ switched →
    kernel.machine.mapping pdt
        (kernel.processes process.record).kernelStackStartVaddr =
      some ⟨process.kernelStack, true, false⟩
  distinct : process.frames.Nodup
  allocated : ∀ frame ∈ process.frames, frame ∈ mmapFrames layout.mmap ∧
    ¬FreeFrame layout kernel.machine frame

/-- The processes of a run. -/
structure ProcessesSound (layout : Layout) (start kernel : Kernel)
    (history : History) : Prop where
  memory : ∀ process ∈ history.created,
    KeepsMemory layout kernel history.switched process
  apart : history.created.Pairwise CreatedProcess.Apart
  active : ∀ p, history.switched.head? = some p →
    ∃ process ∈ history.created, process.record = p ∧
      kernel.machine.active = process.directory
  switches : ∀ p, kernel.nextProcess = some p →
    p ∈ history.created.map CreatedProcess.record ∧
      (Newbos.schedulerSchedule kernel.processes kernel.queue).2 =
        switchTo (kernel.processes p)
  faulted : kernel.machine.faulted = start.machine.faulted

/-! ## One process -/

/-- What the invariant of a run says of a process. -/
structure Resident (layout : Layout) (spaces : Spaces) (kernel : Kernel)
    (process : CreatedProcess) : Prop where
  isDirectory : DirectoryAt layout spaces kernel.machine
    (kernel.processes process.record).pdt process.directory
  pdtPaddr : (kernel.processes process.record).pdtPaddr =
    fourKb * process.directory
  context : (kernel.processes process.record).current = initialContext
  stackPage : kernel.machine.mapping process.directory procInitialEsp =
    some ⟨process.stack, true, true⟩
  codeUser : (process.directory, process.code) ∈ spaces.user
  codePage : process.directory ∉ spaces.loaded →
    kernel.machine.mapping process.directory 0 =
      some ⟨process.code, true, true⟩
  firstEntry : process.directory ∈ spaces.loaded →
    kernel.machine.mem process.directory 0 = identityEntry
  kernelHalf :
    kernelStartVaddr ≤
        (kernel.processes process.record).kernelStackStartVaddr ∧
      (kernel.processes process.record).kernelStackStartVaddr < 4294967296
  kernelStackWalk : kernel.machine.translate layout.kernelPdt
      (kernel.processes process.record).kernelStackStartVaddr =
    some process.kernelStack
  kernelStackUsed : process.kernelStack ∈ spaces.kernel
  kernelStackEntry : process.directory ∈ spaces.loaded →
    kernel.machine.mem process.directory (virtualToPdtIdx
        (kernel.processes process.record).kernelStackStartVaddr) =
      kernel.machine.mem layout.kernelPdt (virtualToPdtIdx
        (kernel.processes process.record).kernelStackStartVaddr)
  distinct : process.frames.Nodup

section Resident

variable {layout : Layout} {exempt : Entry → Prop}
  {spaces later : Spaces} {kernel after : Kernel} {process : CreatedProcess}
  {machine : Machine} {pdt : Nat}

theorem Machine.present_of_translate {directory vaddr frame : Nat}
    (walk : machine.translate directory vaddr = some frame) :
    (machine.mem directory (virtualToPdtIdx vaddr)).isPresent = true := by
  by_contra absent
  rw [Machine.translate_eq_mapping, Machine.mapping_absent
    (by simpa using absent)] at walk
  cases walk

theorem kernelHalf_slot {vaddr : Nat}
    (half : kernelStartVaddr ≤ vaddr ∧ vaddr < 4294967296) :
    768 ≤ virtualToPdtIdx vaddr ∧ virtualToPdtIdx vaddr < 1024 := by
  simp only [kernelStartVaddr] at half
  rw [virtualToPdtIdx_eq]
  omega

theorem Resident.stackOwned
    (resident : Resident layout spaces kernel process) :
    spaces.Owns layout process.directory (virtualToPdtIdx procInitialEsp) :=
  ⟨by decide, Or.inr ⟨resident.isDirectory.member, by decide,
    fun impossible => absurd impossible (by decide)⟩⟩

theorem Resident.advance (resident : Resident layout spaces kernel process)
    (works : WorksIn layout exempt pdt spaces kernel.machine later
      after.machine) (beside : process.directory ≠ pdt)
    (record : after.processes process.record =
      kernel.processes process.record) :
    Resident layout later after process := by
  have keeps := works.others _ resident.isDirectory.member beside
  have grows := works.evolves.grows
  obtain ⟨lower, small⟩ := kernelHalf_slot resident.kernelHalf
  have kernelEntry := works.evolves.keeps.slot lower small
    (Machine.present_of_translate resident.kernelStackWalk)
  constructor
  · rw [record]
    exact resident.isDirectory.evolve works.evolves
  · rw [record]
    exact resident.pdtPaddr
  · rw [record]
    exact resident.context
  · rw [keeps.mapping resident.stackOwned]
    exact resident.stackPage
  · exact grows.user resident.codeUser
  · intro notLoaded
    rw [grows.loaded] at notLoaded
    have owning : spaces.Owns layout process.directory (virtualToPdtIdx 0) :=
      ⟨by decide, Or.inr ⟨resident.isDirectory.member, by decide,
        fun _ => notLoaded⟩⟩
    rw [keeps.mapping owning]
    exact resident.codePage notLoaded
  · intro isLoaded
    rw [grows.loaded] at isLoaded
    rw [keeps.entry]
    exact resident.firstEntry isLoaded
  · rw [record]
    exact resident.kernelHalf
  · rw [record]
    exact works.evolves.keeps.translate resident.kernelHalf.1
      resident.kernelHalf.2 resident.kernelStackWalk
  · exact grows.kernel resident.kernelStackUsed
  · intro isLoaded
    rw [grows.loaded] at isLoaded
    rw [record, keeps.entry, kernelEntry]
    exact resident.kernelStackEntry isLoaded
  · exact resident.distinct

variable (ok : layout.BootOk)
include ok

/-- Loading a directory keeps the pages of user space, apart from those under
its own entry 0. -/
theorem SpaceInv.load_mapping (inv : SpaceInv layout exempt spaces machine)
    {loading directory vaddr : Nat} (member : loading ∈ spaces.directories)
    (owning : spaces.Owns layout directory (virtualToPdtIdx vaddr))
    (userHalf : virtualToPdtIdx vaddr < 768)
    (notFirst : directory = loading → virtualToPdtIdx vaddr ≠ 0)
    (pdtPaddr : Nat) :
    (pdtLoadProcessPdt layout loading pdtPaddr machine).mapping directory
      vaddr = machine.mapping directory vaddr := by
  have notKernel := inv.notKernelPdt ok (Or.inl member)
  have elsewhere := pdtLoadProcessPdt_elsewhere notKernel pdtPaddr machine
  have entry : (pdtLoadProcessPdt layout loading pdtPaddr machine).mem
      directory (virtualToPdtIdx vaddr) =
        machine.mem directory (virtualToPdtIdx vaddr) := by
    by_cases same : directory = loading
    · rw [same, pdtLoadProcessPdt_userHalf notKernel _ _ userHalf,
        if_neg (notFirst same)]
    · rw [elsewhere _ same]
  apply Machine.mapping_congr entry
  intro table
  apply Machine.leaf_congr entry
  rw [elsewhere]
  rintro same
  apply inv.holds.notReserved owning table.isPresent
  rw [same]
  exact Or.inl member

/-- `pdt_load_process_pdt` on the directory of some process. -/
theorem Resident.load (resident : Resident layout spaces kernel process)
    (inv : SpaceInv layout exempt spaces kernel.machine) {loading : Nat}
    (member : loading ∈ spaces.directories) {pdtPaddr : Nat}
    (loaded : after.machine =
      pdtLoadProcessPdt layout loading pdtPaddr kernel.machine)
    (records : after.processes = kernel.processes) :
    Resident layout (spaces.load loading) after process := by
  have isMember := resident.isDirectory.member
  have notKernel := inv.notKernelPdt ok (Or.inl member)
  obtain ⟨_, keeps⟩ := inv.load ok member pdtPaddr
  obtain ⟨lower, small⟩ := kernelHalf_slot resident.kernelHalf
  have present := Machine.present_of_translate resident.kernelStackWalk
  have elsewhere :=
    pdtLoadProcessPdt_elsewhere notKernel pdtPaddr kernel.machine
  have kernelSame := elsewhere _ notKernel
  constructor
  · rw [records, loaded]
    exact ⟨isMember, resident.isDirectory.kernelHalf,
      keeps.translate resident.isDirectory.kernelHalf.1
        resident.isDirectory.kernelHalf.2 resident.isDirectory.walk⟩
  · rw [records]
    exact resident.pdtPaddr
  · rw [records]
    exact resident.context
  · rw [loaded, inv.load_mapping ok member resident.stackOwned (by decide)
      (fun _ => by decide)]
    exact resident.stackPage
  · exact resident.codeUser
  · intro notLoaded
    obtain ⟨notLoading, notEarlier⟩ :=
      not_or.mp (mt List.mem_cons.mpr notLoaded)
    rw [loaded, inv.load_mapping ok member ⟨by decide, Or.inr ⟨isMember,
      by decide, fun _ => notEarlier⟩⟩ (by decide)
      (fun same => absurd same notLoading)]
    exact resident.codePage notEarlier
  · intro isLoaded
    rw [loaded]
    by_cases same : process.directory = loading
    · rw [same, pdtLoadProcessPdt_userHalf notKernel _ _ (by decide),
        if_pos rfl]
      exact inv.holds.boot ⟨rfl, Or.inr rfl⟩
    · rw [elsewhere _ same]
      exact resident.firstEntry
        ((List.mem_cons.mp isLoaded).resolve_left same)
  · rw [records]
    exact resident.kernelHalf
  · rw [records, loaded]
    exact keeps.translate resident.kernelHalf.1 resident.kernelHalf.2
      resident.kernelStackWalk
  · exact resident.kernelStackUsed
  · intro isLoaded
    rw [records, loaded, kernelSame]
    by_cases same : process.directory = loading
    · rw [same, pdtLoadProcessPdt_kernelHalf notKernel _ _ lower small,
        if_pos present]
    · rw [elsewhere _ same]
      exact resident.kernelStackEntry
        ((List.mem_cons.mp isLoaded).resolve_left same)
  · exact resident.distinct


omit ok in
theorem SpaceInv.kernelPage (inv : SpaceInv layout exempt spaces machine)
    (lawful : (spaceOwnership layout exempt spaces).Lawful layout)
    (unmanaged : ∀ entry, exempt entry → entry.frame ∉ mmapFrames layout.mmap)
    {vaddr frame : Nat}
    (kernelHalf : kernelStartVaddr ≤ vaddr ∧ vaddr < 4294967296)
    (walk : machine.translate layout.kernelPdt vaddr = some frame)
    (managed : frame ∈ mmapFrames layout.mmap) :
    machine.mapping layout.kernelPdt vaddr = some ⟨frame, true, false⟩ := by
  have present := Machine.present_of_translate walk
  obtain ⟨lower, small⟩ := kernelHalf_slot kernelHalf
  have rights := inv.kernelSlot_supervisor small present
  have mapped :=
    Machine.mapping_table (inv.holdsTable lower small present)
  rw [Machine.translate_eq_mapping, mapped] at walk
  rw [mapped]
  rw [Machine.leaf, if_pos present] at walk ⊢
  simp only [Entry.smallPage] at walk ⊢
  split_ifs at walk ⊢ with valid
  · have isFrame := Option.some.inj walk
    dsimp only at isFrame
    rcases inv.holds.slot_tableEntry lawful (spaces.slot exempt small) present
      (virtualToPtIdx vaddr) with ⟨_, isZero⟩ | ⟨_, pageRights⟩
    · omega
    · have either := pageRights (Entry.isPresent_of_bitP valid)
      rw [if_pos rfl] at either
      rcases either with supervisor | isExempt
      · rw [isFrame, rights.1, rights.2, supervisor.1, supervisor.2]
        rfl
      · exact absurd managed (isFrame ▸ unmanaged _ isExempt)
  · cases walk

omit ok in
theorem CreatedProcess.mem_frames {frame : Nat} :
    frame ∈ process.frames ↔ frame = process.directory ∨
      frame = process.code ∨ frame = process.stack ∨
        frame = process.kernelStack := by
  simp [CreatedProcess.frames]

theorem Resident.stackUser
    (resident : Resident layout spaces kernel process)
    (inv : SpaceInv layout exempt spaces kernel.machine) :
    (process.directory, process.stack) ∈ spaces.user :=
  inv.user_of_reaches ok resident.isDirectory.member
    ⟨procInitialEsp, _, resident.stackPage, rfl, rfl⟩

theorem Resident.uses (resident : Resident layout spaces kernel process)
    (inv : SpaceInv layout exempt spaces kernel.machine) {frame : Nat}
    (member : frame ∈ process.frames) : spaces.Uses frame := by
  rcases CreatedProcess.mem_frames.mp member with rfl | rfl | rfl | rfl
  · exact Or.inl resident.isDirectory.member
  · exact Or.inr (Or.inl ⟨_, resident.codeUser⟩)
  · exact Or.inr (Or.inl ⟨_, resident.stackUser ok inv⟩)
  · exact Or.inr (Or.inr resident.kernelStackUsed)

theorem Resident.disjoint {other : CreatedProcess}
    (resident : Resident layout spaces kernel process)
    (otherResident : Resident layout spaces kernel other)
    (inv : SpaceInv layout exempt spaces kernel.machine)
    (directory : process.directory ∉ other.frames)
    (kernelStack : process.kernelStack ∉ other.frames) :
    process.frames.Disjoint other.frames := by
  have notOwner : process.directory ≠ other.directory := fun same =>
    directory (CreatedProcess.mem_frames.mpr (Or.inl same))
  have userApart : ∀ {frame}, (process.directory, frame) ∈ spaces.user →
      frame ∉ other.frames := by
    intro frame isUser member
    rcases CreatedProcess.mem_frames.mp member with rfl | rfl | rfl | rfl
    · exact inv.notDirectory isUser otherResident.isDirectory.member
    · exact notOwner (inv.oneOwner isUser otherResident.codeUser)
    · exact notOwner (inv.oneOwner isUser (otherResident.stackUser ok inv))
    · exact inv.notKernel isUser otherResident.kernelStackUsed
  intro frame member
  rcases CreatedProcess.mem_frames.mp member with rfl | rfl | rfl | rfl
  · exact directory
  · exact userApart resident.codeUser
  · exact userApart (resident.stackUser ok inv)
  · exact kernelStack

theorem Resident.keepsMemory
    (resident : Resident layout spaces kernel process)
    (inv : SpaceInv layout exempt spaces kernel.machine)
    (unmanaged : ∀ entry, exempt entry → entry.frame ∉ mmapFrames layout.mmap)
    {switched : List Nat} (loaded : process.directory ∈ spaces.loaded ↔
      process.record ∈ switched) :
    KeepsMemory layout kernel switched process where
  directory := ⟨resident.isDirectory.walk, resident.pdtPaddr⟩
  context := resident.context
  stack := resident.stackPage
  code := by
    split_ifs with isSwitched
    · have first := resident.firstEntry (loaded.mpr isSwitched)
      simp only [Machine.mapping, show virtualToPdtIdx initialContext.eip = 0 by
        decide, first]
      rfl
    · exact resident.codePage (mt loaded.mp isSwitched)
  kernelStack := by
    have page := inv.kernelPage (inv.lawful ok) unmanaged resident.kernelHalf
      resident.kernelStackWalk
      (inv.managed (Or.inr (Or.inr resident.kernelStackUsed)))
    rintro pdt (rfl | ⟨rfl, isSwitched⟩)
    · exact page
    · have entry := resident.kernelStackEntry (loaded.mpr isSwitched)
      rw [← page]
      apply Machine.mapping_congr entry
      intro _
      rw [Machine.leaf, Machine.leaf, entry]
  distinct := resident.distinct
  allocated frame member :=
    ⟨inv.managed (resident.uses ok inv member),
      inv.holds.kept (resident.uses ok inv member)⟩

/-- A process that `process_create` has just returned. -/
theorem CreatesProcess.resident {base fuel p directory : Nat} {parts : Parts}
    (creates : CreatesProcess layout base fuel kernel p parts after)
    {middle : Kernel} (succeeds : p ≠ 0)
    (inv : SpaceInv layout exempt later after.machine)
    (spawns : Spawns layout exempt base directory p p spaces middle later
      after) (notLoaded : directory ∉ later.loaded) :
    after.inspect layout p = ⟨p, directory, parts.codeFrame, parts.stackFrame,
        parts.kernelStackFrame⟩ ∧
      ¬spaces.Uses parts.kernelStackFrame ∧
      Resident layout later after ⟨p, directory, parts.codeFrame,
        parts.stackFrame, parts.kernelStackFrame⟩ := by
  obtain ⟨isDirectory, address⟩ :=
    spawns.isNew.resolve_left fun gaveUp => succeeds gaveUp.1
  have walk := isDirectory.walk
  obtain rfl : parts.directory = directory := by
    rw [creates.pdt] at walk
    exact Option.some.inj walk
  have context := creates.current.trans creates.userMode
  have codePage := creates.eip
  have stackPage := creates.esp
  rw [creates.userMode] at codePage stackPage
  have inStack : parts.kernelStackFrame ∈ after.stackFrames p := by
    simp only [Kernel.stackFrames, creates.kernelStackPaddrs,
      if_neg creates.kernelStack.1, creates.kernelStack.2]
    simp [blockFrames, fourKb]
  have codeUser : (parts.directory, parts.codeFrame) ∈ later.user :=
    inv.user_of_reaches ok isDirectory.member ⟨_, _, codePage, rfl, rfl⟩
  refine ⟨?_, (spawns.stack _ inStack).1, ?_⟩
  · simp only [Kernel.inspect, context, walk, Option.getD_some,
      Machine.translate_eq_mapping _ parts.directory, codePage, stackPage,
      Option.map_some, creates.startVaddr]
  · exact
      { isDirectory := isDirectory
        pdtPaddr := address
        context := context
        stackPage := stackPage
        codeUser := codeUser
        codePage := fun _ => codePage
        firstEntry := fun isLoaded => absurd isLoaded notLoaded
        kernelHalf := creates.kernelHalf
        kernelStackWalk := creates.startVaddr
        kernelStackUsed := (spawns.stack _ inStack).2
        kernelStackEntry := fun isLoaded => absurd isLoaded notLoaded
        distinct := creates.distinct }

end Resident

/-! ## The run queue -/

/-- A queue of processes of the run and null pointers, in elements that the
kernel keeps. -/
def QueueSound (queue : RunQueue) (records kept : List Nat) : Prop :=
  ∃ nodes, QueueShape queue nodes ∧
    (∀ p ∈ queue.contents nodes, p = 0 ∨ p ∈ records) ∧
    ∀ e ∈ nodes, e ∈ kept

section Queue

variable {queue : RunQueue} {nodes records kept : List Nat}

theorem QueueSound.mono {moreRecords more : List Nat}
    (sound : QueueSound queue records kept)
    (recordsKept : ∀ p ∈ records, p ∈ moreRecords)
    (stillKept : ∀ e ∈ kept, e ∈ more) :
    QueueSound queue moreRecords more := by
  obtain ⟨nodes, shape, contents, elements⟩ := sound
  exact ⟨nodes, shape,
    fun p member => (contents p member).imp_right (recordsKept p),
    fun e member => stillKept e (elements e member)⟩

theorem QueueSound.add (sound : QueueSound queue records kept) {p e : Nat}
    (known : p = 0 ∨ p ∈ records) (notNull : e ≠ 0) (fresh : e ∉ kept) :
    QueueSound (schedulerAddProcess p e queue).2 records (e :: kept) := by
  obtain ⟨nodes, shape, contents, elements⟩ := sound
  have notNode : e ∉ nodes := fun member => fresh (elements e member)
  refine ⟨nodes ++ [e], (shape.add p notNull notNode).1, ?_, ?_⟩
  · rw [contents_add shape notNull notNode]
    intro other member
    rcases List.mem_append.mp member with earlier | isNew
    · exact contents other earlier
    · rw [List.mem_singleton.mp isNew]
      exact known
  · intro other member
    rcases List.mem_append.mp member with earlier | isNew
    · exact List.mem_cons_of_mem e (elements other earlier)
    · rw [List.mem_singleton.mp isNew]
      exact List.mem_cons_self

/-- `scheduler_schedule` keeps the processes of the queue, and switches to
nobody or to one of them. -/
theorem QueueSound.schedule (sound : QueueSound queue records kept)
    (processes : Nat → Process) :
    QueueSound (schedulerSchedule processes queue).1 records kept ∧
      ((schedulerSchedule processes queue).2 = [] ∨
        ∃ p ∈ records,
          ((schedulerSchedule processes queue).1.elements
            (schedulerSchedule processes queue).1.start).ps = p ∧
          (schedulerSchedule processes queue).2 =
            dispatch (processes p)) := by
  obtain ⟨nodes, shape, contents, elements⟩ := sound
  by_cases idle : (queue.contents nodes).headD 0 = 0
  · rw [schedule_idle processes shape idle]
    exact ⟨⟨nodes, shape, contents, elements⟩, Or.inl rfl⟩
  cases nodes with
  | nil => exact absurd rfl idle
  | cons first rest =>
      obtain ⟨rotated, contentsEq, actions⟩ :=
        schedule_head processes shape idle
      have sameContents : ∀ {p}, p ∈ (queue.contents (first :: rest)).rotate
          1 ↔ p ∈ queue.contents (first :: rest) := List.mem_rotate
      refine ⟨⟨rest ++ [first], rotated, ?_, ?_⟩, ?_⟩
      · intro p member
        rw [contentsEq] at member
        exact contents p (sameContents.mp member)
      · intro e member
        exact elements e
          ((List.perm_append_singleton first rest).mem_iff.mp member)
      · rw [actions, ← contentsEq]
        generalize schedulerSchedule processes queue = result at *
        obtain ⟨queueAfter, _⟩ := result
        dsimp only at rotated contentsEq ⊢
        -- The head of the rotated queue is the process that arrives.
        obtain ⟨head, tail, nodesEq⟩ : ∃ head tail,
            rest ++ [first] = head :: tail :=
          List.exists_cons_of_ne_nil (by simp)
        rw [nodesEq] at rotated contentsEq ⊢
        have headEq : (queueAfter.contents (head :: tail)).headD 0 =
            (queueAfter.elements queueAfter.start).ps := by
          rw [rotated.chain.1]
          rfl
        rw [headEq]
        split_ifs with arrived
        · exact Or.inl rfl
        · refine Or.inr ⟨_, ?_, rfl, rfl⟩
          apply (contents _ _).resolve_left arrived
          apply sameContents.mp
          rw [← contentsEq, ← headEq]
          exact List.mem_cons_self

end Queue

/-! ## All runs -/

/-- The invariant of a run.  The live blocks are those of other callers and
those that the kernel keeps for its processes. -/
structure RunInv (layout : Layout) (exempt : Entry → Prop)
    (image : KernelImage) (start : Kernel) (spaces : Spaces)
    (live kept : List Nat) (kernel : Kernel) (history : History) : Prop where
  owned : KernelSpaces layout exempt spaces kernel
  heap : HeapSound layout image kernel live
  blocks : live.Perm (history.blocks ++ kept)
  residents : ∀ process ∈ history.created,
    process.record ∈ kept ∧ Resident layout spaces kernel process
  apart : history.created.Pairwise CreatedProcess.Apart
  queue : QueueSound kernel.queue
    (history.created.map CreatedProcess.record) kept
  loaded : ∀ process ∈ history.created,
    process.directory ∈ spaces.loaded ↔ process.record ∈ history.switched
  switched : ∀ p ∈ history.switched,
    p ∈ history.created.map CreatedProcess.record
  active : ∀ p, history.switched.head? = some p →
    ∃ process ∈ history.created, process.record = p ∧
      kernel.machine.active = process.directory
  faulted : kernel.machine.faulted = start.machine.faulted

section Steps

variable {layout : Layout} {exempt : Entry → Prop} {image : KernelImage}
  {start kernel after : Kernel} {spaces later : Spaces}
  {live kept laterLive moreKept blocks : List Nat} {history : History}
  {pdt fuel p : Nat}

theorem HeapSound.ready (sound : HeapSound layout image kernel live) :
    HeapReady layout image kernel live :=
  ⟨sound.mapped, sound.blocks.ready sound.mapped.rangesOk⟩

theorem HeapSound.zero_notMem (sound : HeapSound layout image kernel live) :
    0 ∉ live :=
  sound.blocks.zero_notMem sound.mapped.rangesOk

/-- A step that works in no directory of the run and keeps the records. -/
theorem RunInv.advance
    (inv : RunInv layout exempt image start spaces live kept kernel history)
    (works : WorksIn layout exempt pdt spaces kernel.machine later
      after.machine)
    (backed : HeapBacked later after.heap)
    (sound : HeapSound layout image after laterLive)
    (split : laterLive.Perm (blocks ++ moreKept))
    (keeps : ∀ block ∈ kept, block ∈ moreKept)
    (beside : pdt ∉ spaces.directories)
    (records : ∀ process ∈ history.created,
      after.processes process.record = kernel.processes process.record)
    (queue : QueueSound after.queue
      (history.created.map CreatedProcess.record) moreKept) :
    RunInv layout exempt image start later laterLive moreKept after
      { history with blocks := blocks } where
  owned := ⟨works.evolves.inv, backed⟩
  heap := sound
  blocks := split
  residents process member := by
    obtain ⟨isKept, resident⟩ := inv.residents process member
    refine ⟨keeps _ isKept, resident.advance works ?_ (records _ member)⟩
    rintro rfl
    exact beside resident.isDirectory.member
  apart := inv.apart
  queue := queue
  loaded process member := by
    rw [works.evolves.grows.loaded]
    exact inv.loaded process member
  switched := inv.switched
  active := by
    rw [works.active]
    exact inv.active
  faulted := works.faulted.trans inv.faulted

variable (ok : layout.BootOk)
include ok

theorem RunInv.kmalloc
    (inv : RunInv layout exempt image start spaces live kept kernel history)
    {nbytes address : Nat} (small : nbytes + headerSize ≤ fourMb)
    (returned : kernel.kmalloc layout image.base fuel nbytes =
      some (address, after))
    (split : (if address = 0 then live else address :: live).Perm
      (blocks ++ moreKept))
    (keeps : ∀ block ∈ kept, block ∈ moreKept) :
    ∃ later, RunInv layout exempt image start later
      (if address = 0 then live else address :: live) moreKept after
      { history with blocks := blocks } := by
  obtain ⟨later, works, backed, _⟩ :=
    inv.owned.kmallocWorks ok layout.kernelPdt returned
  obtain ⟨queue, processes, _⟩ := Kernel.kmalloc_keeps returned
  refine ⟨later, inv.advance works backed
    (inv.owned.kmallocSound ok inv.heap small returned) split keeps
    (fun member => inv.owned.inv.notKernelPdt ok (Or.inl member) rfl)
    (fun _ _ => by rw [processes]) ?_⟩
  rw [queue]
  exact inv.queue.mono (fun _ => id) keeps

/-- A block that another caller gets. -/
theorem RunInv.lends
    (inv : RunInv layout exempt image start spaces live kept kernel history)
    {nbytes address : Nat} (small : nbytes + headerSize ≤ fourMb)
    (returned : kernel.kmalloc layout image.base fuel nbytes =
      some (address, after)) :
    ∃ later laterLive, RunInv layout exempt image start later laterLive kept
      after { history with
        blocks :=
          if address = 0 then history.blocks
          else address :: history.blocks } := by
  have split : (if address = 0 then live else address :: live).Perm
      ((if address = 0 then history.blocks
        else address :: history.blocks) ++ kept) := by
    split_ifs
    · exact inv.blocks
    · exact inv.blocks.cons address
  obtain ⟨later, request⟩ := inv.kmalloc ok small returned split fun _ => id
  exact ⟨later, _, request⟩

/-- A block that the kernel keeps. -/
theorem RunInv.takes
    (inv : RunInv layout exempt image start spaces live kept kernel history)
    {nbytes address : Nat} (small : nbytes + headerSize ≤ fourMb)
    (returned : kernel.kmalloc layout image.base fuel nbytes =
      some (address, after)) :
    ∃ later laterLive moreKept,
      RunInv layout exempt image start later laterLive moreKept after
        history ∧
      (∀ block ∈ kept, block ∈ moreKept) ∧
      (address ≠ 0 → address ∉ kept ∧ address ∈ moreKept) := by
  by_cases isNull : address = 0
  · obtain ⟨later, request⟩ := inv.kmalloc ok small returned
      (by rw [if_pos isNull]; exact inv.blocks) (fun _ => id)
    exact ⟨later, _, kept, request, fun _ => id,
      fun notNull => absurd isNull notNull⟩
  · have split : (address :: live).Perm (history.blocks ++ address :: kept) :=
      (inv.blocks.cons address).trans List.perm_middle.symm
    obtain ⟨later, request⟩ := inv.kmalloc ok small returned
      (by rw [if_neg isNull]; exact split)
      (fun _ => List.mem_cons_of_mem address)
    refine ⟨later, _, address :: kept, request,
      fun _ => List.mem_cons_of_mem address, fun _ => ⟨?_, List.mem_cons_self⟩⟩
    have nodup := request.heap.ready.nodup
    rw [if_neg isNull] at nodup
    intro isKept
    exact (List.nodup_cons.mp nodup).1
      (inv.blocks.mem_iff.mpr (List.mem_append_right _ isKept))

theorem RunInv.paging
    (inv : RunInv layout exempt image start spaces live kept kernel history)
    {machine : Machine} (called : PagingCall layout kernel.machine machine) :
    ∃ later, RunInv layout exempt image start later live kept
      { kernel with machine := machine } history := by
  obtain ⟨later, works⟩ := inv.owned.inv.paging ok called
  refine ⟨later, inv.advance works ?_ ?_ inv.blocks
    (fun _ => id) ?_ (fun _ _ => rfl) inv.queue⟩
  · exact inv.owned.heap.grows works.evolves.grows
  · exact ⟨inv.heap.mapped.keep works.evolves.keeps, inv.heap.blocks⟩
  · exact fun member => inv.owned.inv.notKernelPdt ok (Or.inl member) rfl

/-- A step that leaves the machine as it is. -/
theorem RunInv.idles
    (inv : RunInv layout exempt image start spaces live kept kernel history)
    {heap : Heap} {queue : RunQueue} (backed : HeapBacked spaces heap)
    (sound : HeapSound layout image
      { kernel with heap := heap, queue := queue } laterLive)
    (split : laterLive.Perm (blocks ++ kept))
    (represents : QueueSound queue
      (history.created.map CreatedProcess.record) kept) :
    RunInv layout exempt image start spaces laterLive kept
      { kernel with heap := heap, queue := queue }
      { history with blocks := blocks } := by
  have idle : WorksIn layout exempt layout.kernelPdt spaces kernel.machine
      spaces kernel.machine := inv.owned.inv.idle
  exact inv.advance idle backed sound split (fun _ => id)
    (fun member => inv.owned.inv.notKernelPdt ok (Or.inl member) rfl)
    (fun _ _ => rfl) represents

theorem RunInv.kfree
    (inv : RunInv layout exempt image start spaces live kept kernel history)
    {ap : Nat} {heap : Heap} (allowed : ap = 0 ∨ ap ∈ history.blocks)
    (freed : Newbos.kfree fuel ap kernel.heap = some heap) :
    RunInv layout exempt image start spaces (live.erase ap) kept
      { kernel with heap := heap }
      { history with blocks := history.blocks.erase ap } := by
  have notNull := inv.heap.zero_notMem
  have isLive : ap = 0 ∨ ap ∈ live := allowed.imp_right fun member =>
    inv.blocks.mem_iff.mpr (List.mem_append_left kept member)
  have split : (live.erase ap).Perm (history.blocks.erase ap ++ kept) := by
    rcases allowed with rfl | member
    · have notBlock : 0 ∉ history.blocks := fun member =>
        notNull (inv.blocks.mem_iff.mpr (List.mem_append_left kept member))
      rw [List.erase_of_not_mem notNull, List.erase_of_not_mem notBlock]
      exact inv.blocks
    · rw [← List.erase_append_left kept member]
      exact inv.blocks.erase ap
  refine inv.idles ok (inv.owned.heap.congr (kfree_ranges freed)) ⟨?_, ?_⟩
    split inv.queue
  · rw [kfree_ranges freed]
    exact inv.heap.mapped
  · exact inv.heap.blocks.kfree inv.heap.mapped.rangesOk isLive freed

omit ok in
/-- A new process on the list. -/
theorem RunInv.enter
    (inv : RunInv layout exempt image start spaces live kept kernel history)
    {process : CreatedProcess} (isKept : process.record ∈ kept)
    (resident : Resident layout spaces kernel process)
    (notLoaded : process.directory ∉ spaces.loaded)
    (apart : ∀ other ∈ history.created, process.Apart other) :
    RunInv layout exempt image start spaces live kept kernel
      { history with created := process :: history.created } where
  owned := inv.owned
  heap := inv.heap
  blocks := inv.blocks
  residents := List.forall_mem_cons.mpr ⟨⟨isKept, resident⟩, inv.residents⟩
  apart := List.pairwise_cons.mpr ⟨apart, inv.apart⟩
  queue := inv.queue.mono (fun _ => List.mem_cons_of_mem _) (fun _ => id)
  loaded := by
    refine List.forall_mem_cons.mpr ⟨iff_of_false notLoaded ?_, inv.loaded⟩
    intro isSwitched
    obtain ⟨other, member, same⟩ :=
      List.mem_map.mp (inv.switched _ isSwitched)
    exact (apart other member).1 same.symm
  switched p isSwitched := List.mem_cons_of_mem _ (inv.switched p isSwitched)
  active p isLast := by
    obtain ⟨other, member, isActive⟩ := inv.active p isLast
    exact ⟨other, List.mem_cons_of_mem _ member, isActive⟩
  faulted := inv.faulted

theorem RunInv.processCreate
    (inv : RunInv layout exempt image start spaces live kept kernel history)
    (allowed : CreatesDirectory layout image.base fuel kernel) {result : Nat}
    (created : Newbos.processCreate layout image.base fuel kernel =
      some (result, after)) :
    ∃ later laterLive moreKept,
      RunInv layout exempt image start later laterLive moreKept after
        { history with
          created :=
            if result = 0 then history.created
            else after.inspect layout result :: history.created } := by
  obtain ⟨p, middle, allocated, creation⟩ := processCreate_creation created
  obtain ⟨between, middleLive, middleKept, request, _, isNew⟩ :=
    inv.takes ok (by decide) allocated
  have notKept : p ∉ kept := by
    intro isKept
    by_cases isNull : p = 0
    · rw [isNull] at isKept
      exact inv.heap.zero_notMem
        (inv.blocks.mem_iff.mpr (List.mem_append_right _ isKept))
    · exact (isNew isNull).1 isKept
  have differs : ∀ process ∈ history.created, process.record ≠ p := by
    rintro process member rfl
    exact notKept (inv.residents process member).1
  obtain ⟨directory, later, spawns⟩ := request.owned.spawns ok
    (fun id => allowed _ _ id allocated) creation
  obtain ⟨laterLive, ⟨added, rfl⟩, sound⟩ :=
    spawns.advances.sound rfl request.heap
  have split : (added ++ middleLive).Perm
      (history.blocks ++ (added ++ middleKept)) := by
    refine (request.blocks.append_left added).trans ?_
    rw [← List.append_assoc, ← List.append_assoc]
    exact List.perm_append_comm.append_right middleKept
  obtain ⟨queue, others⟩ := creation.keeps
  have advanced := request.advance spawns.advances.works
    spawns.advances.heap sound split
    (fun _ => List.mem_append_right added)
    (fun member => spawns.fresh (Or.inl member))
    (fun process member => others _ (differs process member)) (by
      rw [queue]
      exact request.queue.mono (fun _ => id)
        (fun _ => List.mem_append_right added))
  refine ⟨later, added ++ middleLive, added ++ middleKept, ?_⟩
  by_cases gaveUp : result = 0
  · rw [if_pos gaveUp]
    exact advanced
  rw [if_neg gaveUp]
  obtain rfl := creation.result_eq gaveUp
  have notLoaded : directory ∉ later.loaded := by
    rw [spawns.advances.works.evolves.grows.loaded]
    exact fun isLoaded =>
      spawns.fresh (Or.inl (request.owned.inv.loaded isLoaded))
  obtain ⟨parts, creates⟩ :=
    inv.owned.createsProcess ok inv.heap.ready created gaveUp
  obtain ⟨inspected, kernelStackFresh, resident⟩ := creates.resident ok gaveUp
    advanced.owned.inv spawns notLoaded
  rw [inspected]
  refine advanced.enter (List.mem_append_right added (isNew gaveUp).2) resident
    notLoaded ?_
  intro other member
  have wasResident := (request.residents other member).2
  refine ⟨(differs other member).symm, resident.disjoint ok
    (advanced.residents other member).2 advanced.owned.inv ?_ ?_⟩
  · exact fun inFrames =>
      spawns.fresh (wasResident.uses ok request.owned.inv inFrames)
  · exact fun inFrames =>
      kernelStackFresh (wasResident.uses ok request.owned.inv inFrames)

theorem RunInv.schedulerAddProcess
    (inv : RunInv layout exempt image start spaces live kept kernel history)
    (known : p = 0 ∨ p ∈ history.created.map CreatedProcess.record)
    {e : Nat} {result : Int}
    (returned : kernel.schedulerAddProcess layout image.base fuel p =
      some (result, e, after)) :
    ∃ later laterLive moreKept,
      RunInv layout exempt image start later laterLive moreKept after
        history := by
  simp only [Kernel.schedulerAddProcess, Option.bind_eq_bind,
    Option.bind_eq_some_iff] at returned
  obtain ⟨⟨element, middle⟩, allocated, added⟩ := returned
  obtain ⟨later, laterLive, moreKept, request, keeps, isNew⟩ :=
    inv.takes ok (by decide) allocated
  have sameQueue := (Kernel.kmalloc_keeps allocated).1
  cases added
  refine ⟨later, laterLive, moreKept, ?_⟩
  by_cases isNull : element = 0
  · rw [isNull, schedulerAddProcess_null]
    exact request
  obtain ⟨notKept, isKept⟩ := isNew isNull
  have queue := inv.queue.add known isNull notKept
  rw [← sameQueue] at queue
  exact request.idles ok request.owned.heap
    ⟨request.heap.mapped, request.heap.blocks⟩ request.blocks
    (queue.mono (fun _ => id) (List.forall_mem_cons.mpr ⟨isKept, keeps⟩))

/-- `pdt_load_process_pdt` on a process of the run. -/
theorem RunInv.load
    (inv : RunInv layout exempt image start spaces live kept kernel history)
    {process : CreatedProcess} (member : process ∈ history.created) :
    RunInv layout exempt image start (spaces.load process.directory) live kept
      (kernel.loadProcessPdt layout (kernel.processes process.record).pdt
        (kernel.processes process.record).pdtPaddr)
      { history with switched := process.record :: history.switched } := by
  obtain ⟨_, resident⟩ := inv.residents process member
  have isMember := resident.isDirectory.member
  rw [resident.pdtPaddr, Kernel.loadProcessPdt, resident.isDirectory.walk]
  obtain ⟨loaded, keeps⟩ :=
    inv.owned.inv.load ok isMember (fourKb * process.directory)
  constructor
  · exact ⟨loaded, inv.owned.heap⟩
  · exact ⟨inv.heap.mapped.keep keeps, inv.heap.blocks⟩
  · exact inv.blocks
  · intro other otherMember
    obtain ⟨isKept, otherResident⟩ := inv.residents other otherMember
    exact ⟨isKept, otherResident.load ok inv.owned.inv isMember rfl rfl⟩
  · exact inv.apart
  · exact inv.queue
  · intro other otherMember
    by_cases same : other = process
    · subst same
      exact iff_of_true List.mem_cons_self List.mem_cons_self
    · obtain ⟨records, frames⟩ := inv.apart.forall otherMember member same
      have directories : other.directory ≠ process.directory := fun shared =>
        frames (CreatedProcess.mem_frames.mpr (Or.inl rfl))
          (CreatedProcess.mem_frames.mpr (Or.inl shared))
      simp only [Spaces.load, List.mem_cons, records, directories, false_or]
      exact inv.loaded other otherMember
  · exact List.forall_mem_cons.mpr
      ⟨List.mem_map_of_mem member, inv.switched⟩
  · intro p isLast
    refine ⟨process, member, Option.some.inj isLast, ?_⟩
    exact Nat.mul_div_cancel_left process.directory (by decide)
  · exact (pdtLoadProcessPdt_faulted ..).trans inv.faulted

omit ok in
theorem Kernel.schedulerSchedule_idle (layout : Layout)
    (idle : (Newbos.schedulerSchedule kernel.processes kernel.queue).2 =
      []) :
    kernel.schedulerSchedule layout =
        { kernel with
          queue :=
            (Newbos.schedulerSchedule kernel.processes kernel.queue).1 } ∧
      kernel.nextProcess = none := by
  simp only [Kernel.schedulerSchedule, Kernel.nextProcess, idle]
  exact ⟨rfl, rfl⟩

omit ok in
theorem Kernel.schedulerSchedule_switch (layout : Layout) {process : Process}
    (actions : (Newbos.schedulerSchedule kernel.processes kernel.queue).2 =
      switchTo process) :
    kernel.schedulerSchedule layout =
        Kernel.loadProcessPdt layout process.pdt process.pdtPaddr
          { kernel with
            queue :=
              (Newbos.schedulerSchedule kernel.processes kernel.queue).1 } ∧
      kernel.nextProcess = some
        ((Newbos.schedulerSchedule kernel.processes kernel.queue).1.elements
          (Newbos.schedulerSchedule kernel.processes
            kernel.queue).1.start).ps := by
  simp only [Kernel.schedulerSchedule, Kernel.nextProcess, actions]
  exact ⟨rfl, rfl⟩

omit ok in
/-- `scheduler_schedule` switches to nobody, or to a process of the run. -/
theorem RunInv.switches
    (inv : RunInv layout exempt image start spaces live kept kernel
      history) :
    (Newbos.schedulerSchedule kernel.processes kernel.queue).2 = [] ∧
        kernel.nextProcess = none ∨
      ∃ process ∈ history.created,
        (Newbos.schedulerSchedule kernel.processes kernel.queue).2 =
          switchTo (kernel.processes process.record) ∧
        kernel.nextProcess = some process.record := by
  rcases (inv.queue.schedule kernel.processes).2 with
    idle | ⟨p, known, arrived, actions⟩
  · exact Or.inl ⟨idle, (kernel.schedulerSchedule_idle layout idle).2⟩
  · obtain ⟨process, member, rfl⟩ := List.mem_map.mp known
    have context := (inv.residents process member).2.context
    rw [dispatch_user (by rw [context]; decide)] at actions
    refine Or.inr ⟨process, member, actions, ?_⟩
    rw [← arrived]
    exact (kernel.schedulerSchedule_switch layout actions).2

theorem RunInv.schedulerSchedule
    (inv : RunInv layout exempt image start spaces live kept kernel
      history) :
    ∃ later, RunInv layout exempt image start later live kept
      (kernel.schedulerSchedule layout)
      { history with
        switched := kernel.nextProcess.toList ++ history.switched } := by
  have represents := (inv.queue.schedule kernel.processes).1
  have sound : HeapSound layout image
      { kernel with
        queue := (Newbos.schedulerSchedule kernel.processes
          kernel.queue).1 } live := ⟨inv.heap.mapped, inv.heap.blocks⟩
  have rotated := inv.idles ok inv.owned.heap sound inv.blocks represents
  rcases inv.switches with ⟨idle, nobody⟩ | ⟨process, member, actions, next⟩
  · rw [(kernel.schedulerSchedule_idle layout idle).1, nobody]
    exact ⟨spaces, rotated⟩
  · rw [(kernel.schedulerSchedule_switch layout actions).1, next]
    exact ⟨_, rotated.load ok member⟩

end Steps

section AllRuns

variable {layout : Layout} {exempt : Entry → Prop} {image : KernelImage}
  {start kernel : Kernel} {spaces : Spaces} {live kept : List Nat}
  {history : History} (ok : layout.BootOk)
include ok

theorem ProcessesRun.invariant
    (initial : RunInv layout exempt image start Spaces.empty [] [] start
      ⟨[], [], []⟩)
    (run : ProcessesRun layout image.base start kernel history) :
    ∃ spaces live kept,
      RunInv layout exempt image start spaces live kept kernel history := by
  induction run with
  | start => exact ⟨_, _, _, initial⟩
  | kmalloc _ small returned induction =>
      obtain ⟨spaces, live, kept, inv⟩ := induction
      obtain ⟨later, laterLive, lent⟩ := inv.lends ok small returned
      exact ⟨later, laterLive, kept, lent⟩
  | kfree _ allowed freed induction =>
      obtain ⟨spaces, live, kept, inv⟩ := induction
      exact ⟨spaces, _, kept, inv.kfree ok allowed freed⟩
  | paging _ called induction =>
      obtain ⟨spaces, live, kept, inv⟩ := induction
      obtain ⟨later, paged⟩ := inv.paging ok called
      exact ⟨later, live, kept, paged⟩
  | processCreate _ allowed created induction =>
      obtain ⟨spaces, live, kept, inv⟩ := induction
      exact inv.processCreate ok allowed created
  | schedulerAddProcess _ known returned induction =>
      obtain ⟨spaces, live, kept, inv⟩ := induction
      exact inv.schedulerAddProcess ok known returned
  | schedulerSchedule _ induction =>
      obtain ⟨spaces, live, kept, inv⟩ := induction
      obtain ⟨later, switched⟩ := inv.schedulerSchedule ok
      exact ⟨later, live, kept, switched⟩

theorem RunInv.sound
    (unmanaged : ∀ entry, exempt entry → entry.frame ∉ mmapFrames layout.mmap)
    (inv : RunInv layout exempt image start spaces live kept kernel
      history) : ProcessesSound layout start kernel history where
  memory process member :=
    (inv.residents process member).2.keepsMemory ok inv.owned.inv unmanaged
      (inv.loaded process member)
  apart := inv.apart
  active := inv.active
  switches p next := by
    rcases inv.switches with ⟨_, nobody⟩ | ⟨process, member, actions, found⟩
    · rw [nobody] at next
      cases next
    · rw [found] at next
      cases next
      exact ⟨List.mem_map_of_mem member, actions⟩
  faulted := inv.faulted

end AllRuns

end Newbos
