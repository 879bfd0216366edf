import Newbos.Library.Chain
import Newbos.Process.HeapPages
import Newbos.Process.Isolation

/-!
# What a new process has

When `process_create` returns a record, its code, its stack and its kernel
stack have frames of their own, which are mapped where the record says.  The
list element of the code is the only part that keeps something of what was in
memory before: its `next` is not written.
-/

namespace Newbos

/-! ## A complete record -/

/-- A `struct paddr_list`: a null-terminated chain that starts at `start` and
ends at `stop`. -/
structure IsPaddrList (elements : Nat → PaddrEle) (list : PaddrList)
    (nodes : List Nat) : Prop where
  chain : IsChain (fun node => (elements node).next) list.start nodes
  last : nodes.getLast? = some list.stop

/-- The frames that the elements of a list name. -/
def paddrFrames (elements : Nat → PaddrEle) (nodes : List Nat) : List Nat :=
  nodes.flatMap fun node =>
    blockFrames (elements node).paddr (elements node).count

/-- A complete record, with the frame of its directory and the elements of its
three lists. -/
structure InitialisedAs (layout : Layout) (kernel : Kernel)
    (process : Process) (directory : Nat)
    (code stack kernelStack : List Nat) : Prop where
  pdt : kernel.machine.translate layout.kernelPdt process.pdt =
    some directory
  codeList : IsPaddrList kernel.paddrEles process.codePaddrs code
  stackList : IsPaddrList kernel.paddrEles process.stackPaddrs stack
  kernelStackList :
    IsPaddrList kernel.paddrEles process.kernelStackPaddrs kernelStack
  eip : ∃ page,
    kernel.machine.mapping directory process.userMode.eip = some page ∧
    page.user = true ∧
    (paddrFrames kernel.paddrEles code).head? = some page.frame
  esp : ∃ page,
    kernel.machine.mapping directory process.userMode.esp = some page ∧
    page.user = true ∧
    paddrFrames kernel.paddrEles stack = [page.frame]
  startVaddr : ∃ frame ∈ paddrFrames kernel.paddrEles kernelStack,
    kernel.machine.translate layout.kernelPdt
      process.kernelStackStartVaddr = some frame
  distinct : (directory :: (paddrFrames kernel.paddrEles code ++
    paddrFrames kernel.paddrEles stack ++
    paddrFrames kernel.paddrEles kernelStack)).Nodup
  allocated : ∀ frame ∈ directory :: (paddrFrames kernel.paddrEles code ++
      paddrFrames kernel.paddrEles stack ++
      paddrFrames kernel.paddrEles kernelStack),
    frame ∈ mmapFrames layout.mmap ∧
      ¬FreeFrame layout kernel.machine frame
  current : process.current = process.userMode

/-- A record that `process_create` has initialised completely. -/
def Initialised (layout : Layout) (kernel : Kernel) (p : Nat) : Prop :=
  ∃ directory code stack kernelStack,
    InitialisedAs layout kernel (kernel.processes p) directory code stack
      kernelStack

/-- `process_create` up to the list element of the code: the block that
`kmalloc` gives it. -/
def codeElement (layout : Layout) (base fuel : Nat) (kernel : Kernel) :
    Option Nat := do
  let (p, kernel) ← kernel.kmalloc layout base fuel processSize
  let id ← schedulerNextPid fuel kernel
  let kernel := kernel.initializeProcess p id
  let (_, kernel) ← loadPageTables layout p kernel
  let kernel ← loadCode layout base fuel p kernel
  some (kernel.processes p).codePaddrs.start

/-- There is a block for the list element of the code, and a null pointer
stands where its `next` will be. -/
def CodeElementClear (layout : Layout) (base fuel : Nat) (kernel : Kernel) :
    Prop :=
  ∃ block, codeElement layout base fuel kernel = some block ∧ block ≠ 0 ∧
    (kernel.paddrEles block).next = 0

theorem IsPaddrList.single {elements : Nat → PaddrEle} {block : Nat}
    (notNull : block ≠ 0) (ends : (elements block).next = 0) :
    IsPaddrList elements ⟨block, block⟩ [block] :=
  ⟨⟨rfl, notNull, ends⟩, rfl⟩

theorem IsPaddrList.stop_next {elements : Nat → PaddrEle} {list : PaddrList}
    {nodes : List Nat} (isList : IsPaddrList elements list nodes) :
    (elements list.stop).next = 0 :=
  isList.chain.next_last isList.last

theorem IsPaddrList.start_ne {elements : Nat → PaddrEle} {list : PaddrList}
    {nodes : List Nat} (isList : IsPaddrList elements list nodes) :
    list.start ≠ 0 := by
  intro isNull
  have empty := isList.chain.start_eq_zero_iff.mp isNull
  have last := isList.last
  rw [empty] at last
  cases last

theorem paddrFrames_single {elements : Nat → PaddrEle} {block frame : Nat}
    (address : (elements block).paddr = fourKb * frame)
    (count : (elements block).count = 1) :
    paddrFrames elements [block] = [frame] := by
  simp [paddrFrames, blockFrames, address, count, fourKb]

/-! ## A kernel that is creating a process -/

/-- A kernel with a new directory. -/
structure Creating (layout : Layout) (exempt : Entry → Prop)
    (image : KernelImage) (directory : Nat) (spaces : Spaces)
    (live : List Nat) (kernel : Kernel) : Prop where
  owned : KernelSpaces layout exempt spaces kernel
  ready : HeapReady layout image kernel live
  space : UserSpace spaces kernel.machine directory

/-- What `kmalloc` leaves of it. -/
structure TakesBlock (layout : Layout) (exempt : Entry → Prop)
    (image : KernelImage) (directory : Nat) (spaces : Spaces)
    (live : List Nat) (kernel : Kernel) (address : Nat) (later : Spaces)
    (after : Kernel) : Prop where
  creating : Creating layout exempt image directory later
    (if address = 0 then live else address :: live) after
  evolves : Evolves layout exempt spaces kernel.machine later after.machine
  keeps : KeepsSpace directory kernel.machine after.machine
  freesNone : FreesNone layout kernel.machine after.machine
  processes : after.processes = kernel.processes
  paddrEles : after.paddrEles = kernel.paddrEles

section Creating

variable {layout : Layout} {exempt : Entry → Prop} {image : KernelImage}
  {directory : Nat} {spaces later : Spaces} {live : List Nat}
  {kernel after : Kernel} {machine afterMachine : Machine} {fuel p : Nat}

theorem HeapReady.nodup (ready : HeapReady layout image kernel live) :
    live.Nodup := by
  obtain ⟨free, tracked⟩ := ready.tracked
  exact tracked.invariant.core.liveNodup.of_map _

theorem Creating.machineStep
    (creating : Creating layout exempt image directory spaces live kernel)
    (evolves : Evolves layout exempt spaces kernel.machine later machine)
    (space : UserSpace later machine directory) :
    Creating layout exempt image directory later live
      { kernel with machine := machine } where
  owned := ⟨evolves.inv, creating.owned.heap.grows evolves.grows⟩
  ready := ⟨creating.ready.mapped.keep evolves.keeps, creating.ready.tracked⟩
  space := space

theorem Creating.congr
    (creating : Creating layout exempt image directory spaces live kernel)
    (sameMachine : after.machine = kernel.machine)
    (sameHeap : after.heap = kernel.heap) :
    Creating layout exempt image directory spaces live after := by
  obtain ⟨⟨inv, backed⟩, ⟨mapped, tracked⟩, space⟩ := creating
  rw [← sameMachine] at inv mapped space
  rw [← sameHeap] at backed mapped tracked
  exact ⟨⟨inv, backed⟩, ⟨mapped, tracked⟩, space⟩

/-- The record, when it is updated after `kmalloc`. -/
theorem TakesBlock.updateProcess {address : Nat}
    (request : TakesBlock layout exempt image directory spaces live kernel
      address later after) (machine : Machine)
    (elements : Nat → PaddrEle) (words : List (Nat × Nat))
    (update : Process → Process) :
    (Kernel.updateProcess
      { after with machine := machine, paddrEles := elements } p words
      update).processes p = update (kernel.processes p) := by
  rw [Kernel.updateProcess_same]
  dsimp only
  rw [request.processes]

/-- `esp` at the top of the kernel stack lies in its page. -/
theorem kernelStackStart_page {vaddr : Nat} (aligned : vaddr % 4096 = 0)
    (lower : kernelStartVaddr ≤ vaddr) (upper : vaddr + 4096 ≤ 4294967296) :
    sub32 (w32 (vaddr + 4096)) 4 / 4096 = vaddr / 4096 := by
  simp only [kernelStartVaddr] at lower
  by_cases wraps : vaddr + 4096 = 4294967296
  · rw [wraps, show sub32 (w32 4294967296) 4 = 4294967292 by decide]
    omega
  · rw [w32_of_lt (by omega), sub32_of_le (by omega)]
    omega

variable (ok : layout.BootOk)
include ok

theorem TakesBlock.stores {address : Nat}
    (request : TakesBlock layout exempt image directory spaces live kernel
      address later after)
    (only : FirstFrameOnly after.machine machine) :
    TakesBlock layout exempt image directory spaces live kernel address
      later { after with machine := machine } := by
  have inv := request.creating.owned.inv
  have evolves := inv.firstFrame ok only
  have keeps := request.creating.space.firstFrame ok inv only
  exact
    { creating := request.creating.machineStep evolves
        (request.creating.space.keep (.refl later) keeps)
      evolves := request.evolves.trans evolves
      keeps := request.keeps.trans keeps
      freesNone := request.freesNone.trans (.of_bits only.bits)
      processes := request.processes
      paddrEles := request.paddrEles }

theorem growth_keepsSpace (inv : SpaceInv layout exempt spaces machine)
    (space : UserSpace spaces machine directory) {nunits : Nat}
    {outcome : Option HeapRange}
    (grown : growth (pagingSource layout) nunits machine =
      some (outcome, afterMachine)) :
    KeepsSpace directory machine afterMachine := by
  rcases pfaAllocate_frames ok.framesOk (growthPages_pos nunits)
    (growthPages_lt nunits) machine with failed | ⟨frame, taken⟩
  · simp only [growth, pagingSource, failed, if_true] at grown
    cases grown
    exact .of_mem rfl
  · have takes := inv.takeKernel taken
    have kept : KeepsSpace directory machine
        (pfaAllocate layout (growthPages nunits) machine).2 :=
      .of_mem (by rw [taken.unchanged])
    rcases growth_after_frames taken.notNull grown with
      ⟨_, rfl⟩ | ⟨_, _, mapped, _⟩
    · exact kept
    · exact kept.trans ((space.keep takes.grows kept).mapKernel ok takes.inv
        (w32_lt _) mapped)

theorem Creating.kmalloc
    (creating : Creating layout exempt image directory spaces live kernel)
    {nbytes address : Nat} (positive : nbytes ≠ 0)
    (small : nbytes ≤ 4294967288)
    (pages : growthPages (requestUnits nbytes) ≤ 1024)
    (returned : kernel.kmalloc layout image.base fuel nbytes =
      some (address, after)) :
    ∃ later, TakesBlock layout exempt image directory spaces live kernel
      address later after := by
  obtain ⟨later, step⟩ := creating.owned.kmalloc ok returned
  have ready := creating.owned.kmallocReady ok creating.ready positive small
    pages returned
  simp only [Kernel.kmalloc, Option.bind_eq_bind,
    Option.bind_eq_some_iff] at returned
  obtain ⟨⟨block, heap, machine⟩, taken, result⟩ := returned
  cases result
  obtain ⟨_, keeps, freesNone⟩ : (∃ between,
        Evolves layout exempt spaces kernel.machine between machine) ∧
      KeepsSpace directory kernel.machine machine ∧
      FreesNone layout kernel.machine machine := by
    refine kmalloc_rule (fun _ middle => (∃ between,
        Evolves layout exempt spaces kernel.machine between middle) ∧
      KeepsSpace directory kernel.machine middle ∧
      FreesNone layout kernel.machine middle) ?_
      ⟨⟨spaces, creating.owned.inv.refl⟩, .of_mem rfl, .of_bits rfl⟩ taken
    rintro ranges middle outcome after ⟨⟨between, evolves⟩, keeps, freesNone⟩
      grown
    obtain ⟨further, next, _⟩ :=
      growth_worksIn ok layout.kernelPdt evolves.inv grown
    refine ⟨⟨further, evolves.trans next.evolves⟩, keeps.trans ?_,
      freesNone.trans (growth_freesNone ok.framesOk grown)⟩
    exact growth_keepsSpace ok evolves.inv
      (creating.space.keep evolves.grows keeps) grown
  exact ⟨later, ⟨step.owned, ready,
    creating.space.keep step.evolves.grows keeps⟩, step.evolves, keeps,
    freesNone, rfl, rfl⟩

/-! ## The parts of `process_create` -/

/-- "Load process page tables", when it succeeds. -/
structure LoadsDirectory (layout : Layout) (exempt : Entry → Prop)
    (image : KernelImage) (p : Nat) (live : List Nat) (kernel : Kernel)
    (directory : Nat) (later : Spaces) (after : Kernel) : Prop where
  creating : Creating layout exempt image directory later live after
  zeroes : ∀ index, after.machine.mem directory index = Entry.empty
  directory : DirectoryAt layout later after.machine (after.processes p).pdt
    directory
  userMode : (after.processes p).userMode = (kernel.processes p).userMode
  paddrEles : after.paddrEles = kernel.paddrEles

theorem KernelSpaces.loadsDirectory
    (owned : KernelSpaces layout exempt spaces kernel)
    (ready : HeapReady layout image kernel live)
    (loaded : Newbos.loadPageTables layout p kernel = some (true, after)) :
    ∃ directory later,
      LoadsDirectory layout exempt image p live kernel directory later
        after := by
  obtain ⟨frame, loads⟩ := owned.loadsTables ok 0 loaded
  have isNew := loads.isNew
  refine ⟨frame, spaces.addDirectory frame, ⟨isNew.advances.step.owned, ?_,
    ?_⟩,
    loads.zeroes, isNew.directory, loads.userMode, loads.paddrEles⟩
  · constructor
    · rw [loads.heap]
      exact ready.mapped.keep loads.keeps
    · rw [loads.heap]
      exact ready.tracked
  · exact ⟨List.mem_cons_self, isNew.notLoaded owned,
      fun pdtIdx _ _ => loads.zeroes pdtIdx⟩

/-- "Load process code", when its page has been mapped. -/
structure LoadsCode (layout : Layout) (exempt : Entry → Prop)
    (image : KernelImage) (p directory : Nat) (spaces : Spaces)
    (live : List Nat) (kernel : Kernel) (frame block : Nat) (later : Spaces)
    (after : Kernel) : Prop where
  creating : Creating layout exempt image directory later
    (if block = 0 then live else block :: live) after
  evolves : Evolves layout exempt spaces kernel.machine later after.machine
  isUser : (directory, frame) ∈ later.user
  page : after.machine.mapping directory 0 = some ⟨frame, true, true⟩
  slots : ∀ pdtIdx < 1024, pdtIdx ≠ 0 →
    after.machine.mem directory pdtIdx = Entry.empty
  process : after.processes p =
    { kernel.processes p with
      codePaddrs := ⟨block, block⟩
      userMode := { (kernel.processes p).userMode with eip := 0 }
      codeStartVaddr := 0 }
  elements : after.paddrEles = Store.set kernel.paddrEles block
    { kernel.paddrEles block with paddr := fourKb * frame, count := 1 }

theorem Kernel.kmalloc_freesNone {base nbytes address : Nat}
    (returned : kernel.kmalloc layout base fuel nbytes =
      some (address, after)) :
    FreesNone layout kernel.machine after.machine := by
  simp only [Kernel.kmalloc, Option.bind_eq_bind,
    Option.bind_eq_some_iff] at returned
  obtain ⟨⟨block, heap, machine⟩, taken, result⟩ := returned
  cases result
  exact kmalloc_rule (fun _ middle => FreesNone layout kernel.machine middle)
    (fun kept grown => kept.trans (growth_freesNone ok.framesOk grown))
    (.of_bits rfl) taken

theorem DirectoryAt.map_freesNone {pdt paddr vaddr size result : Nat}
    {rw pl : UInt8}
    (isDirectory : DirectoryAt layout spaces machine pdt directory)
    (mapped : pdtMapMemoryAt layout pdt paddr vaddr size rw pl machine =
      some (result, afterMachine)) :
    FreesNone layout machine afterMachine := by
  simp only [pdtMapMemoryAt, isDirectory.walk] at mapped
  exact pdtMapLoop_freesNone ok.framesOk mapped

theorem Creating.loadCode
    (creating : Creating layout exempt image directory spaces live kernel)
    (isDirectory : DirectoryAt layout spaces kernel.machine
      (kernel.processes p).pdt directory)
    (zeroes : ∀ index, kernel.machine.mem directory index = Entry.empty)
    (loaded : Newbos.loadCode layout image.base fuel p kernel = some after) :
    (¬∃ frame, FreeFrame layout after.machine frame) ∨
      ∃ frame block later,
        LoadsCode layout exempt image p directory spaces live kernel frame
          block later after := by
  have onePage : alignUp 42 fourKb = 4096 := by decide
  have oneFrame : divCeil 42 fourKb = 1 := by decide
  simp only [Newbos.loadCode, Option.bind_eq_bind,
    Option.bind_eq_some_iff, oneFrame, pdtKernelFindNextVaddr_machine]
    at loaded
  obtain ⟨⟨_, mapped⟩, windowMapped, ⟨_, unmapped⟩, windowUnmapped,
    ⟨_, final⟩, codeMapped, ⟨block, middle⟩, returned, result⟩ := loaded
  dsimp only at windowMapped windowUnmapped codeMapped returned result
  have inv := creating.owned.inv
  rcases pfaAllocate_frames ok.framesOk (Nat.le_refl 1) (by decide)
    kernel.machine with failed | ⟨frame, taken⟩
  · left
    have noFrame : (pfaAllocate layout 1 kernel.machine).1 = 0 := by
      rw [failed]
    rw [failed] at windowMapped windowUnmapped
    dsimp only at windowMapped windowUnmapped
    obtain ⟨window, _, sameBits⟩ := inv.pageWindow ok onePage (by decide) rfl
      windowMapped windowUnmapped
    have kept : FreesNone layout kernel.machine after.machine := by
      have mapping := (isDirectory.evolve window).map_freesNone ok codeMapped
      have request := Kernel.kmalloc_freesNone ok returned
      cases result
      refine (((FreesNone.of_bits (sameBits noFrame)).trans mapping).trans
        request).trans (.of_bits ?_)
      exact ((Machine.storeThrough_frame ..).trans
        (Machine.storeThrough_frame ..)).bits
    rintro ⟨frame, free⟩
    exact (pfaAllocate_one_zero_iff ok.framesOk kernel.machine).mp noFrame
      ⟨frame, kept frame free⟩
  · have takes := inv.takeUser directory taken
    have member := creating.space.member
    have isUser : (directory, frame) ∈
        (spaces.addUser directory frame).user := List.mem_cons_self
    have sameMem : (pfaAllocate layout 1 kernel.machine).2.mem =
        kernel.machine.mem := by rw [taken.unchanged]
    obtain ⟨window, sameSlots, _⟩ := takes.inv.pageWindow ok onePage
      (by decide) rfl windowMapped windowUnmapped
    have throughout := takes.trans window
    have stillZero : ∀ index, unmapped.mem directory index = Entry.empty := by
      intro index
      rw [sameSlots directory member index, sameMem]
      exact zeroes index
    have space : UserSpace (spaces.addUser directory frame) unmapped
        directory :=
      ⟨member, creating.space.notLoaded, fun index _ _ => stillZero index⟩
    rw [taken.address] at codeMapped result
    simp only [pdtMapMemoryAt, (isDirectory.evolve throughout).walk]
      at codeMapped
    have code := window.inv.mapUser ok member isUser (by decide)
      space.notLoaded (by decide) onePage (by decide) codeMapped
    rcases space.mapPage ok window.inv isUser (by decide) (by decide)
      (by rw [stillZero]; rfl) onePage (by decide) codeMapped with
      ⟨_, maps⟩ | ⟨_, same, none⟩
    · right
      obtain ⟨later, request⟩ := (creating.machineStep (throughout.trans code)
        maps.space).kmalloc ok (by decide) (by decide) (by decide) returned
      have sameElements := request.paddrEles
      have stored := request.stores ok
        ((Machine.storeThrough_frame middle.machine block
          [(fourKb * frame, 0), (1, 1)]).trans
        (Machine.storeThrough_frame _ p
          [(block, 31), (block, 32), (0, 27), (0, 30)]))
      cases result
      refine ⟨frame, block, later, stored.creating.congr rfl rfl,
        (throughout.trans code).trans stored.evolves,
        request.evolves.grows.user isUser, ?_, ?_, ?_, ?_⟩
      · rw [← maps.page]
        exact stored.keeps.mapping (by decide)
      · intro pdtIdx small notFirst
        rw [← stillZero pdtIdx, ← maps.slots pdtIdx small notFirst]
        exact stored.keeps.slot pdtIdx
      · exact request.updateProcess _ _ _ _
      · dsimp only [Kernel.updateProcess]
        rw [sameElements]
    · left
      have request := Kernel.kmalloc_freesNone ok returned
      cases result
      rintro ⟨other, free⟩
      subst same
      have stored := (Machine.storeThrough_frame middle.machine block
        [(fourKb * frame, 0), (1, 1)]).trans (Machine.storeThrough_frame _ p
          [(block, 31), (block, 32), (0, 27), (0, 30)])
      exact none ⟨other, request other
        ((FreeFrame.congr stored.bits other).mp free)⟩

/-- "Load process stack", when it succeeds. -/
structure LoadsStack (layout : Layout) (exempt : Entry → Prop)
    (image : KernelImage) (p directory : Nat) (spaces : Spaces)
    (live : List Nat) (kernel : Kernel) (frame block : Nat) (later : Spaces)
    (after : Kernel) : Prop where
  creating : Creating layout exempt image directory later (block :: live)
    after
  evolves : Evolves layout exempt spaces kernel.machine later after.machine
  wasFree : FreeFrame layout kernel.machine frame
  isUser : (directory, frame) ∈ later.user
  page : after.machine.mapping directory procInitialStackVaddr =
    some ⟨frame, true, true⟩
  others : ∀ address, virtualToPdtIdx address < 767 →
    after.machine.mapping directory address =
      kernel.machine.mapping directory address
  notNull : block ≠ 0
  process : after.processes p =
    { kernel.processes p with
      stackPaddrs := ⟨block, block⟩
      stackStartVaddr := procInitialStackVaddr
      userMode :=
        { (kernel.processes p).userMode with esp := procInitialEsp } }
  elements : after.paddrEles =
    Store.set kernel.paddrEles block ⟨fourKb * frame, 1, 0⟩

theorem Creating.loadStack
    (creating : Creating layout exempt image directory spaces live kernel)
    (isDirectory : DirectoryAt layout spaces kernel.machine
      (kernel.processes p).pdt directory)
    (absent : (kernel.machine.mem directory 767).isPresent = false)
    (loaded : Newbos.loadStack layout image.base fuel p kernel =
      some (true, after)) :
    ∃ frame block later,
      LoadsStack layout exempt image p directory spaces live kernel frame
        block later after := by
  have onePage : divCeil procInitialStackSize fourKb = 1 := by decide
  have slot : virtualToPdtIdx procInitialStackVaddr = 767 := by decide
  have inv := creating.owned.inv
  simp only [Newbos.loadStack, Option.bind_eq_bind, onePage] at loaded
  rcases pfaAllocate_frames ok.framesOk (Nat.le_refl 1) (by decide)
    kernel.machine with failed | ⟨frame, taken⟩
  · rw [failed, if_pos rfl] at loaded
    cases loaded
  · have takes := inv.takeUser directory taken
    have isUser : (directory, frame) ∈
        (spaces.addUser directory frame).user := List.mem_cons_self
    have kept : KeepsSpace directory kernel.machine
        (pfaAllocate layout 1 kernel.machine).2 :=
      .of_mem (by rw [taken.unchanged])
    have space := creating.space.keep takes.grows kept
    rw [if_neg taken.notNull, Option.bind_eq_some_iff] at loaded
    obtain ⟨⟨mappedMemorySize, machine⟩, mapped, rest⟩ := loaded
    rw [taken.address] at mapped rest
    simp only [pdtMapMemoryAt, (isDirectory.evolve takes).walk] at mapped
    have maps := takes.inv.mapUser ok space.member isUser (by decide)
      space.notLoaded (by decide) (by decide) (by decide) mapped
    dsimp only at rest
    split_ifs at rest with short
    · cases rest
    rcases space.mapPage ok takes.inv isUser (by decide) (by decide)
      (by rw [kept.slot, slot]; exact absent) (by decide) (by decide) mapped
      with ⟨_, page⟩ | ⟨isZero, _⟩
    · rw [Option.bind_eq_some_iff] at rest
      obtain ⟨⟨block, middle⟩, returned, result⟩ := rest
      dsimp only at result
      split_ifs at result with isNull
      · cases result
      obtain ⟨later, request⟩ := (creating.machineStep (takes.trans maps)
        page.space).kmalloc ok (by decide) (by decide) (by decide) returned
      have sameElements := request.paddrEles
      have stored := request.stores ok (Machine.storeThrough_frame
        middle.machine p [(block, 33), (block, 34),
          (procInitialStackVaddr, 29), (procInitialEsp, 24)])
      have stillCreating := stored.creating
      rw [if_neg isNull] at stillCreating
      cases result
      refine ⟨frame, block, later, stillCreating.congr rfl rfl,
        (takes.trans maps).trans stored.evolves,
        taken.wasFree frame (Nat.le_refl _) (Nat.lt_succ_self _),
        request.evolves.grows.user isUser, ?_, ?_, isNull, ?_, ?_⟩
      · rw [← page.page]
        exact stored.keeps.mapping (by rw [slot]; decide)
      · intro address lower
        calc
          _ = machine.mapping directory address :=
            stored.keeps.mapping (by omega)
          _ = (pfaAllocate layout 1 kernel.machine).2.mapping directory
              address := page.others address (by rw [slot]; omega)
          _ = kernel.machine.mapping directory address :=
            kept.mapping (by omega)
      · exact request.updateProcess _ _ _ _
      · dsimp only [Kernel.updateProcess]
        rw [sameElements]
    · exact absurd short (by rw [isZero]; decide)

/-- "Load process kernel stack", when it succeeds. -/
structure LoadsKernelStack (layout : Layout) (exempt : Entry → Prop)
    (image : KernelImage) (p directory : Nat) (spaces : Spaces)
    (live : List Nat) (kernel : Kernel) (frame block : Nat) (later : Spaces)
    (after : Kernel) : Prop where
  creating : Creating layout exempt image directory later (block :: live)
    after
  evolves : Evolves layout exempt spaces kernel.machine later after.machine
  keeps : KeepsSpace directory kernel.machine after.machine
  wasFree : FreeFrame layout kernel.machine frame
  isKernel : frame ∈ later.kernel
  kernelHalf : kernelStartVaddr ≤ (after.processes p).kernelStackStartVaddr ∧
    (after.processes p).kernelStackStartVaddr < 4294967296
  page : after.machine.translate layout.kernelPdt
    (after.processes p).kernelStackStartVaddr = some frame
  notNull : block ≠ 0
  process : ∃ vaddr, after.processes p =
    { kernel.processes p with
      kernelStackPaddrs := ⟨block, block⟩
      kernelStackStartVaddr := vaddr }
  elements : after.paddrEles =
    Store.set kernel.paddrEles block ⟨fourKb * frame, 1, 0⟩

theorem Creating.loadKernelStack
    (creating : Creating layout exempt image directory spaces live kernel)
    (loaded : Newbos.loadKernelStack layout image.base fuel p kernel =
      some (true, after)) :
    ∃ frame block later,
      LoadsKernelStack layout exempt image p directory spaces live kernel
        frame block later after := by
  have onePage : divCeil kernelStackSize fourKb = 1 := by decide
  have bytes : w32 (1 * fourKb) = 4096 := by decide
  have inv := creating.owned.inv
  simp only [Newbos.loadKernelStack, Option.bind_eq_bind, onePage, bytes]
    at loaded
  rcases pfaAllocate_frames ok.framesOk (Nat.le_refl 1) (by decide)
    kernel.machine with failed | ⟨frame, taken⟩
  · rw [failed, if_pos rfl] at loaded
    cases loaded
  · have takes := inv.takeKernel taken
    have wasFree := taken.wasFree frame (Nat.le_refl _) (Nat.lt_succ_self _)
    have below := (ok.framesOk.unordered.frame_bounds wasFree.1).2
    have isKernel : frame ∈ (spaces.addKernel (blockFrames
        (pfaAllocate layout 1 kernel.machine).1 1)).kernel :=
      List.mem_append_left _ (taken.mem_blockFrames.mpr
        ⟨Nat.le_refl _, Nat.lt_succ_self _⟩)
    have kept : KeepsSpace directory kernel.machine
        (pfaAllocate layout 1 kernel.machine).2 :=
      .of_mem (by rw [taken.unchanged])
    have space := creating.space.keep takes.grows kept
    rw [if_neg taken.notNull, pdtKernelFindNextVaddr_machine] at loaded
    generalize found : (pdtKernelFindNextVaddr layout 4096
      (pfaAllocate layout 1 kernel.machine).2).1 = vaddr at loaded
    split_ifs at loaded with notFound
    · cases loaded
    rw [Option.bind_eq_some_iff] at loaded
    obtain ⟨⟨mappedMemorySize, machine⟩, mapped, rest⟩ := loaded
    dsimp only at rest
    split_ifs at rest with short
    · cases rest
    rw [Option.bind_eq_some_iff] at rest
    obtain ⟨⟨block, middle⟩, returned, result⟩ := rest
    dsimp only at result
    split_ifs at result with isNull
    · cases result
    rw [taken.address] at mapped result
    have maps := takes.inv.mapKernel ok (by decide) mapped
    have mapsSpace := space.mapKernel ok takes.inv (by decide) mapped
    obtain ⟨pages, _, translations⟩ := takes.inv.mapFound ok
      (show fourKb * frame < 4294967296 by simp only [fourKb]; omega)
      (by decide) (by decide) found notFound mapped (by omega)
    have target : w32 (fourKb * frame + fourKb * 0) / fourKb = frame := by
      simp only [fourKb, w32]
      omega
    have walk := (translations 0 (by decide)).2
    rw [target, Nat.mul_zero, Nat.add_zero] at walk
    obtain ⟨later, request⟩ := (creating.machineStep (takes.trans maps)
      (space.keep (.refl _) mapsSpace)).kmalloc ok (by decide) (by decide)
        (by decide) returned
    have sameElements := request.paddrEles
    have stored := request.stores ok (Machine.storeThrough_frame
      middle.machine p [(block, 35), (block, 36),
        (sub32 (w32 (vaddr + 4096)) 4, 28)])
    have stillCreating := stored.creating
    rw [if_neg isNull] at stillCreating
    have lower := pages.kernelHalf
    have upper := pages.below
    have onlyPage : alignUp 4096 fourKb = 4096 := by decide
    rw [onlyPage] at upper
    have top := kernelStackStart_page pages.aligned lower upper
    cases result
    refine ⟨frame, block, later, stillCreating.congr rfl rfl,
      (takes.trans maps).trans stored.evolves,
      (kept.trans mapsSpace).trans stored.keeps, wasFree,
      request.evolves.grows.kernel isKernel, ?_, ?_, isNull,
      ⟨sub32 (w32 (vaddr + 4096)) 4, ?_⟩, ?_⟩
    · have small : sub32 (w32 (vaddr + 4096)) 4 < 4294967296 :=
        sub32_lt (w32_lt _) 4
      simp only [kernelStartVaddr] at lower
      rw [Kernel.updateProcess_same]
      dsimp only [kernelStartVaddr]
      omega
    · rw [Kernel.updateProcess_same, Machine.translate_eq_mapping,
        Machine.mapping_page top, ← Machine.translate_eq_mapping]
      exact stored.evolves.keeps.translate lower (by omega) walk
    · exact request.updateProcess _ _ _ _
    · dsimp only [Kernel.updateProcess]
      rw [sameElements]

/-- The frames and the list elements that a new process has. -/
structure Parts where
  directory : Nat
  codeFrame : Nat
  stackFrame : Nat
  kernelStackFrame : Nat
  code : Nat
  stack : Nat
  kernelStack : Nat

def Parts.frames (parts : Parts) : List Nat :=
  [parts.directory, parts.codeFrame, parts.stackFrame,
    parts.kernelStackFrame]

omit ok in
theorem Parts.frames_nodup {parts : Parts}
    (inv : SpaceInv layout exempt spaces machine)
    (isDirectory : parts.directory ∈ spaces.directories)
    (isCode : (parts.directory, parts.codeFrame) ∈ spaces.user)
    (isStack : (parts.directory, parts.stackFrame) ∈ spaces.user)
    (codeNotStack : parts.codeFrame ≠ parts.stackFrame)
    (kernelStackFresh : ¬spaces.Uses parts.kernelStackFrame) :
    parts.frames.Nodup := by
  have notCode : parts.directory ≠ parts.codeFrame := fun same =>
    inv.notDirectory isCode (same ▸ isDirectory)
  have notStack : parts.directory ≠ parts.stackFrame := fun same =>
    inv.notDirectory isStack (same ▸ isDirectory)
  have notKernelStack : ∀ {frame}, spaces.Uses frame →
      frame ≠ parts.kernelStackFrame := by
    rintro frame inUse rfl
    exact kernelStackFresh inUse
  have directoryFresh := notKernelStack (Or.inl isDirectory)
  have codeFresh := notKernelStack (Or.inr (Or.inl ⟨_, isCode⟩))
  have stackFresh := notKernelStack (Or.inr (Or.inl ⟨_, isStack⟩))
  simp [Parts.frames, notCode, notStack, codeNotStack, directoryFresh,
    codeFresh, stackFresh]

omit ok in
/-- The list elements lie in different blocks, where there is one for the
code. -/
theorem elements_distinct {code stack kernelStack : Nat}
    (nodup : (kernelStack :: stack ::
      if code = 0 then live else code :: live).Nodup)
    (stackNotNull : stack ≠ 0) (kernelStackNotNull : kernelStack ≠ 0) :
    stack ≠ code ∧ kernelStack ≠ code ∧ kernelStack ≠ stack := by
  obtain ⟨notLive, nodup⟩ := List.nodup_cons.mp nodup
  obtain ⟨notEarlier, _⟩ := List.nodup_cons.mp nodup
  refine ⟨?_, ?_, fun same => notLive (same ▸ List.mem_cons_self)⟩
  · rintro rfl
    rw [if_neg stackNotNull] at notEarlier
    exact notEarlier List.mem_cons_self
  · rintro rfl
    rw [if_neg kernelStackNotNull] at notLive
    exact notLive (List.mem_cons_of_mem _ List.mem_cons_self)

/-- The context with which a new process starts. -/
def initialContext : Registers :=
  { (initialProcess 0).userMode with esp := procInitialEsp }

/-- What `process_create` has done when it returns a record. -/
structure CreatesProcess (layout : Layout) (base fuel : Nat)
    (kernel : Kernel) (p : Nat) (parts : Parts) (after : Kernel) : Prop where
  codeElement : codeElement layout base fuel kernel = some parts.code
  pdt : after.machine.translate layout.kernelPdt (after.processes p).pdt =
    some parts.directory
  eip : after.machine.mapping parts.directory
    (after.processes p).userMode.eip = some ⟨parts.codeFrame, true, true⟩
  esp : after.machine.mapping parts.directory
    (after.processes p).userMode.esp = some ⟨parts.stackFrame, true, true⟩
  kernelHalf : kernelStartVaddr ≤ (after.processes p).kernelStackStartVaddr ∧
    (after.processes p).kernelStackStartVaddr < 4294967296
  startVaddr : after.machine.translate layout.kernelPdt
    (after.processes p).kernelStackStartVaddr = some parts.kernelStackFrame
  codePaddrs : (after.processes p).codePaddrs = ⟨parts.code, parts.code⟩
  stackPaddrs : (after.processes p).stackPaddrs = ⟨parts.stack, parts.stack⟩
  kernelStackPaddrs : (after.processes p).kernelStackPaddrs =
    ⟨parts.kernelStack, parts.kernelStack⟩
  code : after.paddrEles parts.code =
    { kernel.paddrEles parts.code with
      paddr := fourKb * parts.codeFrame, count := 1 }
  stack : parts.stack ≠ 0 ∧
    after.paddrEles parts.stack = ⟨fourKb * parts.stackFrame, 1, 0⟩
  kernelStack : parts.kernelStack ≠ 0 ∧
    after.paddrEles parts.kernelStack = ⟨fourKb * parts.kernelStackFrame, 1, 0⟩
  distinct : parts.frames.Nodup
  allocated : ∀ frame ∈ parts.frames, frame ∈ mmapFrames layout.mmap ∧
    ¬FreeFrame layout after.machine frame
  userMode : (after.processes p).userMode = initialContext
  current : (after.processes p).current = (after.processes p).userMode

omit ok in
/-- The only part that can be missing is the end of the code's list. -/
theorem CreatesProcess.initialised_iff {base : Nat} {parts : Parts}
    (creates : CreatesProcess layout base fuel kernel p parts after) :
    Initialised layout after p ↔ CodeElementClear layout base fuel kernel := by
  constructor
  · rintro ⟨directory, code, stack, kernelStack, complete⟩
    have isList := complete.codeList
    rw [creates.codePaddrs] at isList
    have ends := isList.stop_next
    dsimp only at ends
    rw [creates.code] at ends
    exact ⟨parts.code, creates.codeElement, isList.start_ne, ends⟩
  · rintro ⟨block, isElement, notNull, ends⟩
    rw [creates.codeElement] at isElement
    cases isElement
    have codeFrames : paddrFrames after.paddrEles [parts.code] =
        [parts.codeFrame] :=
      paddrFrames_single (by rw [creates.code]) (by rw [creates.code])
    have stackFrames : paddrFrames after.paddrEles [parts.stack] =
        [parts.stackFrame] :=
      paddrFrames_single (by rw [creates.stack.2]) (by rw [creates.stack.2])
    have kernelStackFrames : paddrFrames after.paddrEles [parts.kernelStack] =
        [parts.kernelStackFrame] :=
      paddrFrames_single (by rw [creates.kernelStack.2])
        (by rw [creates.kernelStack.2])
    refine ⟨parts.directory, [parts.code], [parts.stack],
      [parts.kernelStack], creates.pdt, ?_, ?_, ?_, ⟨_, creates.eip, rfl, ?_⟩,
      ⟨_, creates.esp, rfl, stackFrames⟩,
      ⟨_, ?_, creates.startVaddr⟩, ?_, ?_, creates.current⟩
    · rw [creates.codePaddrs]
      exact .single notNull (by rw [creates.code]; exact ends)
    · rw [creates.stackPaddrs]
      exact .single creates.stack.1 (by rw [creates.stack.2])
    · rw [creates.kernelStackPaddrs]
      exact .single creates.kernelStack.1 (by rw [creates.kernelStack.2])
    · rw [codeFrames]
      rfl
    · rw [kernelStackFrames]
      exact List.mem_singleton_self _
    · rw [codeFrames, stackFrames, kernelStackFrames]
      exact creates.distinct
    · rw [codeFrames, stackFrames, kernelStackFrames]
      exact creates.allocated

theorem loadStack_hasFrame {base : Nat}
    (loaded : Newbos.loadStack layout base fuel p kernel =
      some (true, after)) :
    ∃ frame, FreeFrame layout kernel.machine frame := by
  have onePage : divCeil procInitialStackSize fourKb = 1 := by decide
  by_contra none
  have noFrame := (pfaAllocate_one_zero_iff ok.framesOk kernel.machine).mpr
    none
  simp only [Newbos.loadStack, onePage, if_pos noFrame] at loaded
  cases loaded

omit ok in
/-- The parts of `process_create` when it returns a record. -/
theorem processCreate_success {base : Nat}
    (created : Newbos.processCreate layout base fuel kernel = some (p, after))
    (succeeds : p ≠ 0) :
    ∃ middle id withTables withCode withStack final,
      kernel.kmalloc layout base fuel processSize = some (p, middle) ∧
      schedulerNextPid fuel middle = some id ∧
      loadPageTables layout p (middle.initializeProcess p id) =
        some (true, withTables) ∧
      loadCode layout base fuel p withTables = some withCode ∧
      loadStack layout base fuel p withCode = some (true, withStack) ∧
      loadKernelStack layout base fuel p withStack = some (true, final) ∧
      after = setCurrent p final := by
  obtain ⟨record, middle, allocated, creation⟩ :=
    processCreate_creation created
  cases creation with
  | noTables => exact absurd rfl succeeds
  | noStack => exact absurd rfl succeeds
  | noKernelStack => exact absurd rfl succeeds
  | complete counted tables coded stacked kernelStacked =>
      exact ⟨middle, _, _, _, _, _, allocated, counted, tables, coded,
        stacked, kernelStacked, rfl⟩

theorem KernelSpaces.createsProcess
    (owned : KernelSpaces layout exempt spaces kernel)
    (ready : HeapReady layout image kernel live)
    (created : Newbos.processCreate layout image.base fuel kernel =
      some (p, after)) (succeeds : p ≠ 0) :
    ∃ parts, CreatesProcess layout image.base fuel kernel p parts after := by
  obtain ⟨middle, id, withTables, withCode, withStack, final, allocated,
    counted, tables, coded, stacked, kernelStacked, rfl⟩ :=
      processCreate_success created succeeds
  obtain ⟨_, step⟩ := owned.kmalloc ok allocated
  have readyRecord := owned.kmallocReady ok ready (by decide) (by decide)
    (by decide) allocated
  have record := step.owned.initializeProcess ok image.base
    layout.kernelPdt p id
  obtain ⟨directory, tablesLater, loads⟩ :=
    record.step.owned.loadsDirectory ok
      ⟨readyRecord.mapped.keep record.works.evolves.keeps,
        readyRecord.tracked⟩ tables
  rcases loads.creating.loadCode ok loads.directory loads.zeroes coded with
    none | ⟨codeFrame, code, codeLater, isCode⟩
  · exact absurd (loadStack_hasFrame ok stacked) none
  have codeDirectory : DirectoryAt layout codeLater withCode.machine
      (withCode.processes p).pdt directory := by
    rw [isCode.process]
    exact loads.directory.evolve isCode.evolves
  obtain ⟨stackFrame, stack, stackLater, isStack⟩ := isCode.creating.loadStack
    ok codeDirectory (by rw [isCode.slots 767 (by decide) (by decide)]; rfl)
    stacked
  have stackDirectory : DirectoryAt layout stackLater withStack.machine
      (withStack.processes p).pdt directory := by
    rw [isStack.process]
    exact codeDirectory.evolve isStack.evolves
  obtain ⟨kernelStackFrame, kernelStack, later, isKernelStack⟩ :=
    isStack.creating.loadKernelStack ok kernelStacked
  obtain ⟨startVaddr, process⟩ := isKernelStack.process
  have inv := isKernelStack.creating.owned.inv
  have different := elements_distinct isKernelStack.creating.ready.nodup
    isStack.notNull isKernelStack.notNull
  have isDirectory : directory ∈ later.directories :=
    isKernelStack.creating.space.member
  have isCodeUser : (directory, codeFrame) ∈ stackLater.user :=
    isStack.evolves.grows.user isCode.isUser
  have codeUser := isKernelStack.evolves.grows.user isCodeUser
  have stackUser := isKernelStack.evolves.grows.user isStack.isUser
  have stackFresh :=
    isCode.creating.owned.inv.free_unused isStack.wasFree
  have kernelStackFresh :=
    isStack.creating.owned.inv.free_unused isKernelStack.wasFree
  have recordElements := (Kernel.kmalloc_keeps allocated).2.2
  have sameElements : withTables.paddrEles = kernel.paddrEles :=
    loads.paddrEles.trans recordElements
  refine ⟨⟨directory, codeFrame, stackFrame, kernelStackFrame, code, stack,
    kernelStack⟩, ?_⟩
  have sameMachine := setCurrent_machine succeeds final
  constructor
  · simp only [Newbos.codeElement, Option.bind_eq_bind, allocated, counted,
      tables, coded, Option.bind_some]
    rw [isCode.process]
  · rw [sameMachine, setCurrent_same, process]
    exact (stackDirectory.evolve isKernelStack.evolves).walk
  · rw [sameMachine, setCurrent_same, process, isStack.process,
      isCode.process]
    calc
      _ = withStack.machine.mapping directory 0 :=
        isKernelStack.keeps.mapping (by decide)
      _ = withCode.machine.mapping directory 0 :=
        isStack.others 0 (by decide)
      _ = _ := isCode.page
  · rw [sameMachine, setCurrent_same, process, isStack.process]
    calc
      _ = withStack.machine.mapping directory procInitialEsp :=
        isKernelStack.keeps.mapping (by decide)
      _ = withStack.machine.mapping directory procInitialStackVaddr :=
        Machine.mapping_page (by decide)
      _ = _ := isStack.page
  · rw [setCurrent_same]
    exact isKernelStack.kernelHalf
  · rw [sameMachine, setCurrent_same]
    exact isKernelStack.page
  · rw [setCurrent_same, process, isStack.process, isCode.process]
  · rw [setCurrent_same, process, isStack.process]
  · rw [setCurrent_same, process]
  · dsimp only [setCurrent, Kernel.updateProcess]
    rw [isKernelStack.elements, Store.set_other _ _ different.2.1.symm,
      isStack.elements, Store.set_other _ _ different.1.symm,
      isCode.elements, Store.set_same, sameElements]
  · refine ⟨isStack.notNull, ?_⟩
    dsimp only [setCurrent, Kernel.updateProcess]
    rw [isKernelStack.elements, Store.set_other _ _ different.2.2.symm,
      isStack.elements, Store.set_same]
  · refine ⟨isKernelStack.notNull, ?_⟩
    dsimp only [setCurrent, Kernel.updateProcess]
    rw [isKernelStack.elements, Store.set_same]
  · refine Parts.frames_nodup isStack.creating.owned.inv
      isStack.creating.space.member isCodeUser isStack.isUser ?_
      kernelStackFresh
    intro same
    have isUser := isCode.isUser
    rw [show codeFrame = stackFrame from same] at isUser
    exact stackFresh (Or.inr (Or.inl ⟨_, isUser⟩))
  · intro frame member
    have inUse : later.Uses frame := by
      simp only [Parts.frames, List.mem_cons, List.not_mem_nil, or_false]
        at member
      rcases member with rfl | rfl | rfl | rfl
      · exact Or.inl isDirectory
      · exact Or.inr (Or.inl ⟨_, codeUser⟩)
      · exact Or.inr (Or.inl ⟨_, stackUser⟩)
      · exact Or.inr (Or.inr isKernelStack.isKernel)
    rw [sameMachine]
    exact ⟨inv.managed inUse, inv.holds.kept inUse⟩
  · rw [setCurrent_same, process, isStack.process, isCode.process]
    dsimp only
    rw [loads.userMode, Kernel.initializeProcess, Kernel.updateProcess_same]
    rfl
  · rw [setCurrent_same]

/-- Where the address spaces and the heap are sound, a process that
`process_create` returns is initialised exactly when there is a block for the
list element of its code with a null pointer in it. -/
theorem process_create_initialises_iff
    (owned : KernelSpaces layout exempt spaces kernel)
    (ready : HeapReady layout image kernel live)
    (created : Newbos.processCreate layout image.base fuel kernel =
      some (p, after)) (succeeds : p ≠ 0) :
    Initialised layout after p ↔
      CodeElementClear layout image.base fuel kernel := by
  obtain ⟨parts, creates⟩ := owned.createsProcess ok ready created succeeds
  exact creates.initialised_iff

end Creating

/-- Three pages of kernel. -/
def threePageImage : KernelImage where
  start := 0xC0000000
  stop := 0xC0003000
  base := 0xC0002000
  startBeforeBase := by decide
  baseInside := by decide
  below := by decide

theorem threePageImage_ready {kernel : Kernel}
    (unused : HeapUnused kernel.heap [])
    (mapped : ∀ page < 3, (kernel.machine.translate highLayout.kernelPdt
      (4096 * (786432 + page))).isSome = true) :
    HeapReady highLayout threePageImage kernel [] := by
  refine ⟨⟨⟨?_, ?_⟩, by decide, ?_, ?_, ?_⟩, _, unused.ready⟩
  · rw [unused.ranges]
    exact fun _ impossible => by cases impossible
  · rw [unused.ranges]
    exact .nil
  · intro page lower upper
    simp only [threePageImage] at lower upper
    obtain ⟨step, rfl⟩ : ∃ step, page = 786432 + step :=
      ⟨page - 786432, by omega⟩
    exact Option.isSome_iff_exists.mp (mapped step (by omega))
  · rw [unused.ranges]
    exact fun _ impossible => by cases impossible
  · rw [unused.ranges]
    exact fun _ impossible => by cases impossible

theorem highKernel_ready :
    HeapReady highLayout threePageImage highKernel [] :=
  threePageImage_ready ⟨rfl, rfl, rfl⟩ (by decide +kernel)

/-- The first process, in memory that was zero. -/
theorem process_create_initialises_iff_first :
    ∃ p after,
      processCreate highLayout threePageImage.base 64 highKernel =
        some (p, after) ∧
      Initialised highLayout after p := by
  have evaluated : ((processCreate highLayout threePageImage.base 64
      highKernel).map fun created => decide (created.1 ≠ 0),
      (codeElement highLayout threePageImage.base 64 highKernel).map
        fun block => decide (block ≠ 0)) = (some true, some true) := by
    decide +kernel
  obtain ⟨created, element⟩ := Prod.mk.inj evaluated
  obtain ⟨⟨p, after⟩, created, succeeds⟩ := Option.map_eq_some_iff.mp created
  obtain ⟨block, element, notNull⟩ := Option.map_eq_some_iff.mp element
  have owned : KernelSpaces highLayout (fun _ => True) Spaces.empty
      highKernel :=
    ⟨highKernel_boot.spaceInv, fun _ impossible => by cases impossible⟩
  exact ⟨p, after, created, (process_create_initialises_iff highLayout_bootOk
    owned highKernel_ready created (of_decide_eq_true succeeds)).mpr
      ⟨block, element, of_decide_eq_true notNull, rfl⟩⟩

/-- In memory that was not zero the list of the code does not end. -/
theorem process_create_leaves_next :
    ∃ p after,
      processCreate highLayout threePageImage.base 64
          { highKernel with paddrEles := fun _ => ⟨0, 0, 1⟩ } =
        some (p, after) ∧
      p ≠ 0 ∧ ¬Initialised highLayout after p := by
  have evaluated : (processCreate highLayout threePageImage.base 64
      { highKernel with paddrEles := fun _ => ⟨0, 0, 1⟩ }).map (fun created =>
        (decide (created.1 ≠ 0), (created.2.paddrEles
          (created.2.processes created.1).codePaddrs.stop).next)) =
      some (true, 1) := by
    decide +kernel
  obtain ⟨⟨p, after⟩, created, values⟩ := Option.map_eq_some_iff.mp evaluated
  obtain ⟨succeeds, next⟩ := Prod.mk.inj values
  refine ⟨p, after, created, of_decide_eq_true succeeds, ?_⟩
  rintro ⟨directory, code, stack, kernelStack, complete⟩
  have ends := complete.codeList.stop_next
  rw [next] at ends
  cases ends

end Newbos
