import Newbos.Paging.MapCalls
import Newbos.Process.HeapPages

/-!
# The address spaces of processes

Every part of `process_create` keeps the invariant of the address spaces, on
the ways out that report a failure as well as on those that do not.  It works
in one new directory at most, so that the directories of the other processes
keep their entries and their page tables.
-/

namespace Newbos

section Creating

variable {layout : Layout} {exempt : Entry → Prop}
  {spaces between later : Spaces} {kernel middle after : Kernel}
  {base directory fuel p : Nat}

/-- A pointer into the kernel half to a directory of the run. -/
structure DirectoryAt (layout : Layout) (spaces : Spaces) (machine : Machine)
    (pdt frame : Nat) : Prop where
  member : frame ∈ spaces.directories
  kernelHalf : kernelStartVaddr ≤ pdt ∧ pdt < 4294967296
  walk : machine.translate layout.kernelPdt pdt = some frame

theorem DirectoryAt.evolve {machine afterMachine : Machine} {pdt frame : Nat}
    (directory : DirectoryAt layout spaces machine pdt frame)
    (evolves : Evolves layout exempt spaces machine later afterMachine) :
    DirectoryAt layout later afterMachine pdt frame where
  member := evolves.grows.directories directory.member
  kernelHalf := directory.kernelHalf
  walk := evolves.keeps.translate directory.kernelHalf.1
    directory.kernelHalf.2 directory.walk

/-- A part of `process_create` that keeps the directory of the record. -/
structure Stage (layout : Layout) (exempt : Entry → Prop)
    (base directory p : Nat) (spaces : Spaces) (kernel : Kernel)
    (later : Spaces) (after : Kernel) : Prop where
  advances : Advances layout exempt base directory spaces kernel later after
  pdt : (after.processes p).pdt = (kernel.processes p).pdt
  pdtPaddr : (after.processes p).pdtPaddr = (kernel.processes p).pdtPaddr
  stack : (after.processes p).kernelStackPaddrs =
    (kernel.processes p).kernelStackPaddrs

theorem Stage.owned
    (stage : Stage layout exempt base directory p spaces kernel later
      after) : KernelSpaces layout exempt later after :=
  stage.advances.step.owned

theorem Stage.trans
    (first : Stage layout exempt base directory p spaces kernel between
      middle)
    (second : Stage layout exempt base directory p between middle later
      after) :
    Stage layout exempt base directory p spaces kernel later after :=
  ⟨first.advances.trans second.advances, second.pdt.trans first.pdt,
    second.pdtPaddr.trans first.pdtPaddr, second.stack.trans first.stack⟩

theorem KernelSpaces.machineStage
    (owned : KernelSpaces layout exempt spaces kernel) (base p : Nat)
    {machine : Machine}
    (works : WorksIn layout exempt directory spaces kernel.machine later
      machine) :
    Stage layout exempt base directory p spaces kernel later
      { kernel with machine := machine } :=
  ⟨owned.advance base works rfl, rfl, rfl, rfl⟩

variable (ok : layout.BootOk)
include ok

theorem KernelSpaces.recordStage
    (owned : KernelSpaces layout exempt spaces kernel)
    (base directory : Nat) {machine : Machine}
    (only : FirstFrameOnly kernel.machine machine)
    (elements : Nat → PaddrEle) (words : List (Nat × Nat))
    (update : Process → Process)
    (pdt : ∀ process, (update process).pdt = process.pdt)
    (pdtPaddr : ∀ process, (update process).pdtPaddr = process.pdtPaddr)
    (stack : ∀ process,
      (update process).kernelStackPaddrs = process.kernelStackPaddrs) :
    Stage layout exempt base directory p spaces kernel spaces
      (Kernel.updateProcess
        { kernel with machine := machine, paddrEles := elements } p words
        update) := by
  refine ⟨owned.advance base (owned.inv.firstFrame_worksIn ok
    (only.trans (Machine.storeThrough_frame ..))) rfl, ?_, ?_, ?_⟩
  · rw [Kernel.updateProcess_same, pdt]
  · rw [Kernel.updateProcess_same, pdtPaddr]
  · rw [Kernel.updateProcess_same, stack]

theorem KernelSpaces.initializeProcess
    (owned : KernelSpaces layout exempt spaces kernel)
    (base directory p id : Nat) :
    Advances layout exempt base directory spaces kernel spaces
      (kernel.initializeProcess p id) :=
  owned.advance base
    (owned.inv.firstFrame_worksIn ok (Machine.storeThrough_frame ..)) rfl

theorem KernelSpaces.kmallocStage
    (owned : KernelSpaces layout exempt spaces kernel) (directory p : Nat)
    {address nbytes : Nat} (small : nbytes + headerSize ≤ fourMb)
    (returned : kernel.kmalloc layout base fuel nbytes =
      some (address, after)) :
    ∃ later, Stage layout exempt base directory p spaces kernel later
      after := by
  obtain ⟨later, advances⟩ := owned.request ok directory small returned
  have same := (Kernel.kmalloc_keeps returned).2.1
  refine ⟨later, advances, ?_, ?_, ?_⟩ <;> rw [same]

theorem SpaceInv.mapUserAt {machine afterMachine : Machine}
    (inv : SpaceInv layout exempt spaces machine)
    {pdt frame vaddr size result : Nat}
    (isDirectory : DirectoryAt layout spaces machine pdt directory)
    (isUser : (directory, frame) ∈ spaces.user)
    (userHalf : virtualToPdtIdx vaddr < 768)
    (notLoaded : directory ∉ spaces.loaded) (aligned : vaddr % 4096 = 0)
    (onePage : alignUp size fourKb = 4096) (sizeSmall : size < 4294967296)
    (mapped : pdtMapMemoryAt layout pdt (fourKb * frame) vaddr size 1 1
      machine = some (result, afterMachine)) :
    WorksIn layout exempt directory spaces machine spaces afterMachine := by
  simp only [pdtMapMemoryAt, isDirectory.walk] at mapped
  exact inv.mapUser_worksIn ok isDirectory.member isUser userHalf notLoaded
    aligned onePage sizeSmall mapped

theorem SpaceInv.loadCode {machine allocated mapped unmapped final : Machine}
    (inv : SpaceInv layout exempt spaces machine)
    {pdt paddr kernelVaddr mappedSize freedSize codeSize : Nat}
    (isDirectory : DirectoryAt layout spaces machine pdt directory)
    (notLoaded : directory ∉ spaces.loaded)
    (noTable : machine.mem directory 0 = Entry.empty)
    (allocation : pfaAllocate layout 1 machine = (paddr, allocated))
    (found : (pdtKernelFindNextVaddr layout 42 allocated).1 = kernelVaddr)
    (windowMapped : pdtMapKernelMemory layout paddr kernelVaddr 42 1 0
      allocated = some (mappedSize, mapped))
    (windowUnmapped : pdtUnmapKernelMemory layout fuel kernelVaddr 42 mapped =
      some (freedSize, unmapped))
    (codeMapped : pdtMapMemoryAt layout pdt paddr 0 42 1 1 unmapped =
      some (codeSize, final)) :
    ∃ later, WorksIn layout exempt directory spaces machine later final := by
  rcases pfaAllocate_frames ok.framesOk (Nat.le_refl 1) (by decide) machine
    with failed | ⟨frame, taken⟩
  · -- Without a frame for the code there is none for its table either.
    rw [failed] at allocation
    cases allocation
    have window : WorksIn layout exempt directory spaces machine spaces
        unmapped := inv.pageWindow_worksIn ok (by decide) (by decide) found
      windowMapped windowUnmapped
    obtain ⟨_, sameSlots, sameBits⟩ := inv.pageWindow ok (by decide)
      (by decide) found windowMapped windowUnmapped
    have noFrame : (pfaAllocate layout 1 machine).1 = 0 := by rw [failed]
    have fails : FailsAtOnce layout unmapped directory 0
        (alignUp 42 fourKb) := by
      refine Or.inr (Or.inr ⟨?_, ?_⟩)
      · rw [show virtualToPdtIdx 0 = 0 by decide,
          sameSlots directory isDirectory.member 0, noTable]
        rfl
      · rw [pfaAllocate_fst_congr layout 1 (sameBits noFrame), noFrame]
    have notPt : directory ≠ layout.kernelPt := by
      rintro rfl
      exact ok.kernelPtUnmanaged (inv.managed (Or.inl isDirectory.member))
    simp only [pdtMapMemoryAt, (isDirectory.evolve window.evolves).walk]
      at codeMapped
    rw [pdtMapMemory_failsAtOnce ok.toOk notPt (by decide) fails]
      at codeMapped
    cases codeMapped
    exact ⟨spaces, window⟩
  · rw [allocation] at taken
    have takes : WorksIn layout exempt directory spaces machine _ _ :=
      .of_bits (inv.takeUser directory taken) taken.unchanged
    have address : paddr = fourKb * frame := taken.address
    have window : WorksIn layout exempt directory _ _ _ unmapped :=
      takes.evolves.inv.pageWindow_worksIn ok (by decide) (by decide) found
        windowMapped windowUnmapped
    have throughout := takes.trans window
    rw [address] at codeMapped
    have code := window.evolves.inv.mapUserAt ok
      (isDirectory.evolve throughout.evolves) List.mem_cons_self (by decide)
      notLoaded (by decide) (by decide) (by decide) codeMapped
    exact ⟨_, throughout.trans code⟩

theorem KernelSpaces.loadCode
    (owned : KernelSpaces layout exempt spaces kernel)
    (isDirectory : DirectoryAt layout spaces kernel.machine
      (kernel.processes p).pdt directory)
    (notLoaded : directory ∉ spaces.loaded)
    (noTable : kernel.machine.mem directory 0 = Entry.empty)
    (loaded : Newbos.loadCode layout base fuel p kernel = some after) :
    ∃ later, Stage layout exempt base directory p spaces kernel later
      after := by
  simp only [Newbos.loadCode, Option.bind_eq_bind,
    Option.bind_eq_some_iff] at loaded
  obtain ⟨⟨_, mapped⟩, windowMapped, ⟨_, unmapped⟩, windowUnmapped,
    ⟨_, final⟩, codeMapped, ⟨codePaddrs, middle⟩, returned, result⟩ := loaded
  have sameMachine := pdtKernelFindNextVaddr_machine layout 42
    (pfaAllocate layout (divCeil 42 fourKb) kernel.machine).2
  rw [sameMachine] at windowMapped
  obtain ⟨between, works⟩ := owned.inv.loadCode ok isDirectory notLoaded
    noTable rfl rfl windowMapped windowUnmapped codeMapped
  have first := owned.machineStage base p works
  obtain ⟨later, second⟩ :=
    first.owned.kmallocStage ok directory p (by decide) returned
  refine ⟨later, first.trans (second.trans ?_)⟩
  rw [← Option.some.inj result]
  exact second.owned.recordStage ok base directory
    (Machine.storeThrough_frame ..) _ _ _ (fun _ => rfl) (fun _ => rfl)
    (fun _ => rfl)

theorem KernelSpaces.loadStack
    (owned : KernelSpaces layout exempt spaces kernel)
    (isDirectory : DirectoryAt layout spaces kernel.machine
      (kernel.processes p).pdt directory)
    (notLoaded : directory ∉ spaces.loaded) {success : Bool}
    (loaded : Newbos.loadStack layout base fuel p kernel =
      some (success, after)) :
    ∃ later, Stage layout exempt base directory p spaces kernel later
      after := by
  have onePage : divCeil procInitialStackSize fourKb = 1 := by decide
  simp only [Newbos.loadStack, Option.bind_eq_bind, onePage] at loaded
  rcases pfaAllocate_frames ok.framesOk (Nat.le_refl 1) (by decide)
    kernel.machine with failed | ⟨frame, taken⟩
  · rw [failed, if_pos rfl] at loaded
    cases loaded
    exact ⟨spaces, owned.machineStage base p owned.inv.idle⟩
  · have takes : WorksIn layout exempt directory spaces kernel.machine _ _ :=
      .of_bits (owned.inv.takeUser directory taken) taken.unchanged
    rw [if_neg taken.notNull, Option.bind_eq_some_iff] at loaded
    obtain ⟨⟨mappedMemorySize, machine⟩, mapped, rest⟩ := loaded
    rw [taken.address] at mapped
    have maps := takes.evolves.inv.mapUserAt ok
      (isDirectory.evolve takes.evolves) List.mem_cons_self (by decide)
      notLoaded (by decide) (by decide) (by decide) mapped
    have first := owned.machineStage base p (takes.trans maps)
    split_ifs at rest
    · cases rest
      exact ⟨_, first⟩
    · rw [Option.bind_eq_some_iff] at rest
      obtain ⟨⟨stackPaddrs, middle⟩, returned, result⟩ := rest
      obtain ⟨later, second⟩ :=
        first.owned.kmallocStage ok directory p (by decide) returned
      refine ⟨later, first.trans ?_⟩
      dsimp only at result
      split_ifs at result
      · cases result
        exact second
      · rw [← (Prod.mk.inj (Option.some.inj result)).2]
        exact second.trans (second.owned.recordStage ok base directory
          (.refl _) _ _ _ (fun _ => rfl) (fun _ => rfl) (fun _ => rfl))

/-- The frames of the record's kernel stack. -/
def Kernel.stackFrames (kernel : Kernel) (p : Nat) : List Nat :=
  let start := (kernel.processes p).kernelStackPaddrs.start
  if start = 0 then []
  else blockFrames (kernel.paddrEles start).paddr
    (kernel.paddrEles start).count

omit ok in
theorem Kernel.stackFrames_none
    (noStack : (kernel.processes p).kernelStackPaddrs = ⟨0, 0⟩) :
    kernel.stackFrames p = [] := by
  rw [Kernel.stackFrames, noStack]
  rfl

/-- The part of `process_create` that gives the record a kernel stack of new
frames of the kernel, or none. -/
structure StackStage (layout : Layout) (exempt : Entry → Prop)
    (base directory p : Nat) (spaces : Spaces) (kernel : Kernel)
    (later : Spaces) (after : Kernel) : Prop where
  advances : Advances layout exempt base directory spaces kernel later after
  pdt : (after.processes p).pdt = (kernel.processes p).pdt
  pdtPaddr : (after.processes p).pdtPaddr = (kernel.processes p).pdtPaddr
  frames : ∀ frame ∈ after.stackFrames p,
    ¬spaces.Uses frame ∧ frame ∈ later.kernel

omit ok in
theorem Stage.stackStage
    (stage : Stage layout exempt base directory p spaces kernel later after)
    (noStack : (kernel.processes p).kernelStackPaddrs = ⟨0, 0⟩) :
    StackStage layout exempt base directory p spaces kernel later after := by
  refine ⟨stage.advances, stage.pdt, stage.pdtPaddr, ?_⟩
  intro frame member
  rw [Kernel.stackFrames_none (stage.stack.trans noStack)] at member
  cases member

theorem Stage.enterStack {paddr count element : Nat}
    (stage : Stage layout exempt base directory p spaces kernel later after)
    (isKernel : ∀ frame ∈ blockFrames paddr count,
      ¬spaces.Uses frame ∧ frame ∈ later.kernel)
    (notNull : element ≠ 0) (words : List (Nat × Nat)) (vaddr : Nat) :
    StackStage layout exempt base directory p spaces kernel later
      (Kernel.updateProcess
        { after with
          paddrEles := Store.set after.paddrEles element ⟨paddr, count, 0⟩ }
        p words fun process =>
          { process with
            kernelStackPaddrs := ⟨element, element⟩
            kernelStackStartVaddr := vaddr }) := by
  have last : Advances layout exempt base directory later after later
      (Kernel.updateProcess
        { after with
          paddrEles := Store.set after.paddrEles element ⟨paddr, count, 0⟩ }
        p words fun process =>
          { process with
            kernelStackPaddrs := ⟨element, element⟩
            kernelStackStartVaddr := vaddr }) :=
    stage.owned.advance base (stage.owned.inv.firstFrame_worksIn ok
      (Machine.storeThrough_frame ..)) rfl
  refine ⟨stage.advances.trans last, ?_, ?_, ?_⟩
  · rw [Kernel.updateProcess_same]
    exact stage.pdt
  · rw [Kernel.updateProcess_same]
    exact stage.pdtPaddr
  · intro frame member
    rw [Kernel.stackFrames, Kernel.updateProcess_same] at member
    simp only [if_neg notNull, Kernel.updateProcess, Store.set_same] at member
    exact isKernel frame member

theorem KernelSpaces.loadKernelStack
    (owned : KernelSpaces layout exempt spaces kernel) (directory : Nat)
    (noStack : (kernel.processes p).kernelStackPaddrs = ⟨0, 0⟩)
    {success : Bool}
    (loaded : Newbos.loadKernelStack layout base fuel p kernel =
      some (success, after)) :
    ∃ later, StackStage layout exempt base directory p spaces kernel later
      after := by
  have onePage : divCeil kernelStackSize fourKb = 1 := by decide
  simp only [Newbos.loadKernelStack, Option.bind_eq_bind, onePage] at loaded
  rcases pfaAllocate_frames ok.framesOk (Nat.le_refl 1) (by decide)
    kernel.machine with failed | ⟨frame, taken⟩
  · rw [failed, if_pos rfl] at loaded
    cases loaded
    exact ⟨spaces,
      (owned.machineStage base p owned.inv.idle).stackStage noStack⟩
  · have takes : WorksIn layout exempt directory spaces kernel.machine _ _ :=
      .of_bits (owned.inv.takeKernel taken) taken.unchanged
    rw [if_neg taken.notNull, pdtKernelFindNextVaddr_machine] at loaded
    split_ifs at loaded with notFound
    · cases loaded
      exact ⟨_, (owned.machineStage base p takes).stackStage noStack⟩
    · rw [Option.bind_eq_some_iff] at loaded
      obtain ⟨⟨mappedMemorySize, machine⟩, mapped, rest⟩ := loaded
      have maps : WorksIn layout exempt directory _ _ _ machine :=
        takes.evolves.inv.mapKernel_worksIn ok (w32_lt _) mapped
      have first := owned.machineStage base p (takes.trans maps)
      split_ifs at rest
      · cases rest
        exact ⟨_, first.stackStage noStack⟩
      · rw [Option.bind_eq_some_iff] at rest
        obtain ⟨⟨kernelStackPaddrs, middle⟩, returned, result⟩ := rest
        obtain ⟨later, second⟩ :=
          first.owned.kmallocStage ok directory p (by decide) returned
        dsimp only at result
        split_ifs at result with isNull
        · cases result
          exact ⟨later, (first.trans second).stackStage noStack⟩
        · rw [← (Prod.mk.inj (Option.some.inj result)).2]
          refine ⟨later, (first.trans second).enterStack ok ?_ isNull _ _⟩
          intro other member
          have inBlock := taken.mem_blockFrames.mp member
          exact ⟨owned.inv.free_unused
              (taken.wasFree other inBlock.1 inBlock.2),
            second.advances.works.evolves.grows.kernel
              (List.mem_append_left _ member)⟩

/-- A record with a new directory. -/
structure NewDirectory (layout : Layout) (exempt : Entry → Prop)
    (base p : Nat) (spaces : Spaces) (kernel : Kernel) (later : Spaces)
    (after : Kernel) (frame : Nat) : Prop where
  advances : Advances layout exempt base frame spaces kernel later after
  fresh : ¬spaces.Uses frame
  directory : DirectoryAt layout later after.machine (after.processes p).pdt
    frame
  pdtPaddr : (after.processes p).pdtPaddr = fourKb * frame

section NewDirectory

omit ok

variable {frame : Nat}

theorem NewDirectory.then
    (isNew : NewDirectory layout exempt base p spaces kernel between middle
      frame)
    (advances : Advances layout exempt base frame between middle later after)
    (pdt : (after.processes p).pdt = (middle.processes p).pdt)
    (pdtPaddr : (after.processes p).pdtPaddr =
      (middle.processes p).pdtPaddr) :
    NewDirectory layout exempt base p spaces kernel later after frame where
  advances := isNew.advances.trans advances
  fresh := isNew.fresh
  directory := by
    rw [pdt]
    exact isNew.directory.evolve advances.works.evolves
  pdtPaddr := pdtPaddr.trans isNew.pdtPaddr

theorem NewDirectory.preceded
    (isNew : NewDirectory layout exempt base p between middle later after
      frame)
    (advances : Advances layout exempt base frame spaces kernel between
      middle) :
    NewDirectory layout exempt base p spaces kernel later after frame where
  advances := advances.trans isNew.advances
  fresh inUse := isNew.fresh (advances.works.evolves.grows.uses inUse)
  directory := isNew.directory
  pdtPaddr := isNew.pdtPaddr

theorem NewDirectory.notLoaded
    (isNew : NewDirectory layout exempt base p spaces kernel later after
      frame)
    (owned : KernelSpaces layout exempt spaces kernel) :
    frame ∉ later.loaded := by
  rw [isNew.advances.works.evolves.grows.loaded]
  exact fun isLoaded => isNew.fresh (Or.inl (owned.inv.loaded isLoaded))

end NewDirectory

/-- "Load process page tables", when there is a directory. -/
structure LoadsTables (layout : Layout) (exempt : Entry → Prop)
    (base p : Nat) (spaces : Spaces) (kernel after : Kernel) (frame : Nat) :
    Prop where
  isNew : NewDirectory layout exempt base p spaces kernel
    (spaces.addDirectory frame) after frame
  wasFree : FreeFrame layout kernel.machine frame
  zeroes : ∀ index, after.machine.mem frame index = Entry.empty
  keeps : KeepsPages layout kernel.machine after.machine
  kernelStackPaddrs : (after.processes p).kernelStackPaddrs =
    (kernel.processes p).kernelStackPaddrs
  userMode : (after.processes p).userMode = (kernel.processes p).userMode
  heap : after.heap = kernel.heap
  paddrEles : after.paddrEles = kernel.paddrEles

theorem KernelSpaces.loadsTables
    (owned : KernelSpaces layout exempt spaces kernel) (base : Nat)
    (loaded : Newbos.loadPageTables layout p kernel = some (true, after)) :
    ∃ frame, LoadsTables layout exempt base p spaces kernel after frame := by
  simp only [Newbos.loadPageTables, Option.bind_eq_bind,
    Option.bind_eq_some_iff] at loaded
  obtain ⟨⟨pdt, paddr, machine⟩, created, result⟩ := loaded
  dsimp only at result
  split_ifs at result with failed
  · cases result
  obtain ⟨frame, isNew⟩ := ((owned.inv.pdtCreate_outcome ok
    created).resolve_left fun slips => failed (Or.inl slips.2.1)).resolve_left
      fun failure => failed failure.1
  obtain ⟨_, rfl⟩ := Prod.mk.inj (Option.some.inj result)
  have creates : WorksIn layout exempt frame spaces kernel.machine _ machine :=
    owned.inv.pdtCreate_worksIn ok (fun _ => isNew.notNull) isNew.evolves
      created
  have stores : FirstFrameOnly machine
      (machine.storeThrough p [(pdt, 2), (paddr, 3)]) :=
    Machine.storeThrough_frame ..
  have works := creates.trans (isNew.evolves.inv.firstFrame_worksIn ok stores)
  have notFirst : frame ≠ 0 := by
    have above := (ok.framesOk.unordered.frame_bounds isNew.wasFree.1).1
    omega
  refine ⟨frame, ⟨owned.advance base works rfl, ?_, ?_, ?_⟩, isNew.wasFree,
    ?_, works.evolves.keeps, ?_, ?_, rfl, rfl⟩
  · exact owned.inv.free_unused isNew.wasFree
  · rw [Kernel.updateProcess_same]
    refine ⟨List.mem_cons_self, isNew.kernelHalf, ?_⟩
    exact (isNew.evolves.inv.firstFrame_translate ok stores pdt).trans
      isNew.walk
  · rw [Kernel.updateProcess_same]
    exact isNew.address
  · intro index
    exact (congrFun (stores.elsewhere frame notFirst) index).trans
      (isNew.zeroes index)
  · rw [Kernel.updateProcess_same]
  · rw [Kernel.updateProcess_same]

theorem NewDirectory.loadCode {frame : Nat}
    (isNew : NewDirectory layout exempt base p spaces kernel between middle
      frame)
    (owned : KernelSpaces layout exempt spaces kernel)
    (noTable : middle.machine.mem frame 0 = Entry.empty)
    (loaded : Newbos.loadCode layout base fuel p middle = some after) :
    ∃ later,
      NewDirectory layout exempt base p spaces kernel later after frame ∧
      (after.processes p).kernelStackPaddrs =
        (middle.processes p).kernelStackPaddrs := by
  obtain ⟨later, code⟩ := isNew.advances.step.owned.loadCode ok
    isNew.directory (isNew.notLoaded owned) noTable loaded
  exact ⟨later, isNew.then code.advances code.pdt code.pdtPaddr, code.stack⟩

theorem NewDirectory.loadStack {frame : Nat}
    (isNew : NewDirectory layout exempt base p spaces kernel between middle
      frame)
    (owned : KernelSpaces layout exempt spaces kernel) {success : Bool}
    (loaded : Newbos.loadStack layout base fuel p middle =
      some (success, after)) :
    ∃ later,
      NewDirectory layout exempt base p spaces kernel later after frame ∧
      (after.processes p).kernelStackPaddrs =
        (middle.processes p).kernelStackPaddrs := by
  obtain ⟨later, stack⟩ := isNew.advances.step.owned.loadStack ok
    isNew.directory (isNew.notLoaded owned) loaded
  exact ⟨later, isNew.then stack.advances stack.pdt stack.pdtPaddr,
    stack.stack⟩

/-- A record with a new directory, and a kernel stack of new frames of the
kernel or none. -/
structure Furnished (layout : Layout) (exempt : Entry → Prop) (base p : Nat)
    (spaces : Spaces) (kernel : Kernel) (later : Spaces) (after : Kernel)
    (frame : Nat) : Prop where
  isNew : NewDirectory layout exempt base p spaces kernel later after frame
  stack : ∀ other ∈ after.stackFrames p,
    ¬spaces.Uses other ∧ other ∈ later.kernel

omit ok in
theorem NewDirectory.furnished {frame : Nat}
    (isNew : NewDirectory layout exempt base p spaces kernel later after
      frame)
    (noStack : (after.processes p).kernelStackPaddrs = ⟨0, 0⟩) :
    Furnished layout exempt base p spaces kernel later after frame := by
  refine ⟨isNew, ?_⟩
  rw [Kernel.stackFrames_none noStack]
  exact fun _ impossible => by cases impossible

theorem NewDirectory.loadKernelStack {frame : Nat}
    (isNew : NewDirectory layout exempt base p spaces kernel between middle
      frame)
    (noStack : (middle.processes p).kernelStackPaddrs = ⟨0, 0⟩)
    {success : Bool}
    (loaded : Newbos.loadKernelStack layout base fuel p middle =
      some (success, after)) :
    ∃ later,
      Furnished layout exempt base p spaces kernel later after frame := by
  obtain ⟨later, last⟩ :=
    isNew.advances.step.owned.loadKernelStack ok frame noStack loaded
  refine ⟨later, isNew.then last.advances last.pdt last.pdtPaddr, ?_⟩
  intro other member
  obtain ⟨unused, isKernel⟩ := last.frames other member
  exact ⟨fun inUse =>
    unused (isNew.advances.works.evolves.grows.uses inUse), isKernel⟩

theorem Furnished.setCurrent {frame : Nat}
    (furnished : Furnished layout exempt base p spaces kernel later after
      frame) :
    Furnished layout exempt base p spaces kernel later (setCurrent p after)
      frame := by
  have last : Stage layout exempt base frame p later after later
      (Newbos.setCurrent p after) :=
    furnished.isNew.advances.step.owned.recordStage ok base frame (.refl _)
      after.paddrEles _ _ (fun _ => rfl) (fun _ => rfl) (fun _ => rfl)
  refine ⟨furnished.isNew.then last.advances last.pdt last.pdtPaddr, ?_⟩
  intro other member
  rw [Kernel.stackFrames, last.stack] at member
  exact furnished.stack other member

/-- `process_create` with its record: it gives up at the page tables, or there
is a directory from then on. -/
theorem KernelSpaces.creation
    (owned : KernelSpaces layout exempt spaces kernel) {result : Nat}
    (creation : Creation layout base fuel p kernel result after) :
    (result = 0 ∧ ∃ id, schedulerNextPid fuel kernel = some id ∧
        loadPageTables layout p (kernel.initializeProcess p id) =
          some (false, after)) ∨
      ∃ id withTables later frame,
        schedulerNextPid fuel kernel = some id ∧
        loadPageTables layout p (kernel.initializeProcess p id) =
          some (true, withTables) ∧
        FreeFrame layout kernel.machine frame ∧
        Furnished layout exempt base p spaces kernel later after frame := by
  have records (directory id : Nat) :=
    owned.initializeProcess ok base directory p id
  -- The record has no kernel stack before it is given one.
  have withCode {id : Nat} {withTables withCode : Kernel}
      (tables : loadPageTables layout p (kernel.initializeProcess p id) =
        some (true, withTables))
      (coded : Newbos.loadCode layout base fuel p withTables =
        some withCode) :
      ∃ later frame, FreeFrame layout kernel.machine frame ∧
        NewDirectory layout exempt base p spaces kernel later withCode
          frame ∧
        (withCode.processes p).kernelStackPaddrs = ⟨0, 0⟩ := by
    obtain ⟨frame, loads⟩ :=
      (records 0 id).step.owned.loadsTables ok base tables
    obtain ⟨later, isNew, sameStack⟩ := (loads.isNew.preceded
      (records frame id)).loadCode ok owned (loads.zeroes 0) coded
    refine ⟨later, frame, (FreeFrame.congr
      (Machine.storeThrough_frame ..).bits frame).mp loads.wasFree, isNew, ?_⟩
    rw [sameStack, loads.kernelStackPaddrs, Kernel.initializeProcess,
      Kernel.updateProcess_same]
    rfl
  cases creation with
  | @noTables id _ counted tables =>
      exact Or.inl ⟨rfl, id, counted, tables⟩
  | noStack counted tables coded stacked =>
      obtain ⟨_, frame, wasFree, isNew, noStack⟩ := withCode tables coded
      obtain ⟨later, isNew, sameStack⟩ := isNew.loadStack ok owned stacked
      exact Or.inr ⟨_, _, later, frame, counted, tables, wasFree,
        isNew.furnished (sameStack.trans noStack)⟩
  | noKernelStack counted tables coded stacked kernelStacked =>
      obtain ⟨_, frame, wasFree, isNew, noStack⟩ := withCode tables coded
      obtain ⟨_, isNew, sameStack⟩ := isNew.loadStack ok owned stacked
      obtain ⟨later, furnished⟩ := isNew.loadKernelStack ok
        (sameStack.trans noStack) kernelStacked
      exact Or.inr ⟨_, _, later, frame, counted, tables, wasFree, furnished⟩
  | complete counted tables coded stacked kernelStacked =>
      obtain ⟨_, frame, wasFree, isNew, noStack⟩ := withCode tables coded
      obtain ⟨_, isNew, sameStack⟩ := isNew.loadStack ok owned stacked
      obtain ⟨later, furnished⟩ := isNew.loadKernelStack ok
        (sameStack.trans noStack) kernelStacked
      exact Or.inr ⟨_, _, later, frame, counted, tables, wasFree,
        furnished.setCurrent ok⟩

omit ok in
/-- "Load process page tables" gives up when `pdt_create` returns a null
pointer. -/
theorem loadPageTables_false
    (loaded : Newbos.loadPageTables layout p kernel = some (false, after)) :
    ∃ pdt paddr machine,
      Newbos.pdtCreate layout kernel.machine = some (pdt, paddr, machine) ∧
      (pdt = 0 ∨ paddr = 0) ∧ after = { kernel with machine := machine } := by
  simp only [Newbos.loadPageTables, Option.bind_eq_bind,
    Option.bind_eq_some_iff] at loaded
  obtain ⟨⟨pdt, paddr, machine⟩, created, result⟩ := loaded
  dsimp only at result
  split_ifs at result with failed
  · cases result
    exact ⟨pdt, paddr, machine, created, failed, rfl⟩
  · cases result

/-- The same for the address spaces, unless `pdt_create` slips. -/
theorem KernelSpaces.loadPageTables_fails
    (owned : KernelSpaces layout exempt spaces kernel)
    (base directory : Nat)
    (noSlip : ¬Ownership.CreateSlips layout kernel.machine)
    (loaded : Newbos.loadPageTables layout p kernel = some (false, after)) :
    Stage layout exempt base directory p spaces kernel spaces after := by
  obtain ⟨pdt, paddr, machine, created, failed, rfl⟩ :=
    loadPageTables_false loaded
  rcases owned.inv.pdtCreate ok noSlip created with ⟨_, evolves⟩ |
    ⟨frame, isNew⟩
  · exact owned.machineStage base p (owned.inv.pdtCreate_worksIn ok
      (fun slips => absurd slips noSlip) evolves created)
  · have below := (ok.framesOk.unordered.frame_bounds isNew.wasFree.1).1
    have hasFrame : paddr ≠ 0 := by
      rw [isNew.address]
      simp only [fourKb]
      omega
    exact absurd failed (not_or.mpr ⟨isNew.notNull, hasFrame⟩)

/-- What `process_create` leaves: no directory or a new one, the only one that
it has worked in, and a kernel stack of new frames of the kernel. -/
structure Spawns (layout : Layout) (exempt : Entry → Prop)
    (base directory p result : Nat) (spaces : Spaces) (kernel : Kernel)
    (later : Spaces) (after : Kernel) : Prop where
  advances : Advances layout exempt base directory spaces kernel later after
  fresh : ¬spaces.Uses directory
  stack : ∀ frame ∈ after.stackFrames p,
    ¬spaces.Uses frame ∧ frame ∈ later.kernel
  isNew : result = 0 ∧ (after.processes p).pdtPaddr = 0 ∨
    DirectoryAt layout later after.machine (after.processes p).pdt
        directory ∧
      (after.processes p).pdtPaddr = fourKb * directory

theorem KernelSpaces.spawns
    (owned : KernelSpaces layout exempt spaces kernel)
    (noSlip : ∀ id, schedulerNextPid fuel kernel = some id →
      ¬Ownership.CreateSlips layout (kernel.initializeProcess p id).machine)
    {result : Nat}
    (creation : Creation layout base fuel p kernel result after) :
    ∃ directory later,
      Spawns layout exempt base directory p result spaces kernel later
        after := by
  rcases owned.creation ok creation with
    ⟨isNull, id, counted, tables⟩ | ⟨_, _, later, frame, _, _, _, furnished⟩
  · have records :=
      owned.initializeProcess ok base layout.kernelPdt p id
    have stage := records.step.owned.loadPageTables_fails ok base
      layout.kernelPdt (noSlip id counted) tables
    refine ⟨layout.kernelPdt, spaces, records.trans stage.advances, ?_, ?_,
      Or.inl ⟨isNull, ?_⟩⟩
    · exact fun inUse => owned.inv.notKernelPdt ok inUse rfl
    · rw [Kernel.stackFrames_none]
      · exact fun _ impossible => by cases impossible
      · rw [stage.stack, Kernel.initializeProcess,
          Kernel.updateProcess_same]
        rfl
    · rw [stage.pdtPaddr, Kernel.initializeProcess,
        Kernel.updateProcess_same]
      rfl
  · exact ⟨frame, later, furnished.isNew.advances, furnished.isNew.fresh,
      furnished.stack,
      Or.inr ⟨furnished.isNew.directory, furnished.isNew.pdtPaddr⟩⟩

theorem KernelSpaces.processCreate
    (owned : KernelSpaces layout exempt spaces kernel) {result : Nat}
    (allocated : kernel.kmalloc layout base fuel processSize =
      some (p, middle))
    (noSlip : ∀ id, schedulerNextPid fuel middle = some id →
      ¬Ownership.CreateSlips layout (middle.initializeProcess p id).machine)
    (created : Newbos.processCreate layout base fuel kernel =
      some (result, after)) :
    ∃ directory later,
      Spawns layout exempt base directory p result spaces kernel later
        after := by
  obtain ⟨_, _, returned, creation⟩ := processCreate_creation created
  rw [allocated] at returned
  cases returned
  obtain ⟨between, allocates⟩ :=
    owned.request ok layout.kernelPdt (by decide) allocated
  obtain ⟨directory, later, spawns⟩ :=
    allocates.step.owned.spawns ok noSlip creation
  have grows := allocates.works.evolves.grows
  exact ⟨directory, later,
    (allocates.inDirectory ok owned directory).trans spawns.advances,
    fun inUse => spawns.fresh (grows.uses inUse),
    fun frame member => ⟨fun inUse =>
      (spawns.stack frame member).1 (grows.uses inUse),
      (spawns.stack frame member).2⟩, spawns.isNew⟩

end Creating

end Newbos
