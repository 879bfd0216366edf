import Newbos.Heap.Kmalloc
import Newbos.Paging.Tables
import Newbos.Process.Scheduler

/-!
# Creating processes

`process_create` takes a record from the heap, numbers it, and gives it a
directory, a code page, a stack and a kernel stack.  It gives up in several
places, and goes on in others although a call has failed.
-/

namespace Newbos

/-- The kernel's data: the machine, the heap's headers, the records that live
in heap blocks, by address, and the run queue. -/
structure Kernel where
  machine : Machine
  heap : Heap
  processes : Nat → Process
  paddrEles : Nat → PaddrEle
  queue : RunQueue

/-- `PROC_INITIAL_STACK_SIZE`, in page frames. -/
abbrev procInitialStackSize : Nat := 1

/-- `PROC_INITIAL_STACK_VADDR`. -/
abbrev procInitialStackVaddr : Nat := kernelStartVaddr - fourKb

/-- `PROC_INITIAL_ESP`. -/
abbrev procInitialEsp : Nat := kernelStartVaddr - 4

/-- `KERNEL_STACK_SIZE`. -/
abbrev kernelStackSize : Nat := fourKb

/-- `SEGSEL_USER_SPACE_CS`. -/
abbrev segselUserSpaceCs : Nat := 0x18

/-- `SEGSEL_USER_SPACE_DS`. -/
abbrev segselUserSpaceDs : Nat := 0x20

/-- `REG_EFLAGS_DEFAULT`. -/
abbrev regEflagsDefault : Nat := 0x202

/-- `sizeof(struct process)`. -/
abbrev processSize : Nat := 148

/-- `sizeof(struct paddr_ele)`. -/
abbrev paddrEleSize : Nat := 12

/-- `sizeof(struct process_list_element)`. -/
abbrev processListElementSize : Nat := 8

/-- The calls of `acquire_more_heap`, on the paging code. -/
def pagingSource (layout : Layout) : PageSource Machine :=
  { pfaAllocate := pfaAllocate layout
    findNextVaddr := pdtKernelFindNextVaddr layout
    mapKernelMemory := pdtMapKernelMemory layout }

/-- The loop of `scheduler_next_pid`; `none` when it does not end within the
fuel. -/
def schedulerNextPidLoop (queue : RunQueue) (processes : Nat → Process) :
    Nat → Nat → Nat → Option Nat
  | 0, _, _ => none
  | fuel + 1, p, maxPid =>
      if p = 0 then some maxPid
      else
        let element := queue.elements p
        let maxPid :=
          if element.ps ≠ 0 ∧ maxPid < (processes element.ps).id then
            (processes element.ps).id
          else maxPid
        schedulerNextPidLoop queue processes fuel element.next maxPid

/-- `scheduler_next_pid`. -/
def schedulerNextPid (fuel : Nat) (kernel : Kernel) : Option Nat :=
  (schedulerNextPidLoop kernel.queue kernel.processes fuel
    kernel.queue.start 0).map fun maxPid => w32 (maxPid + 1)

/-- Four zero bytes in every register. -/
def Registers.zero : Registers :=
  ⟨0, 0, 0, 0, 0, 0, 0, 0, 0, 0, 0, 0⟩

/-- The record as `process_create` initialises it. -/
def initialProcess (id : Nat) : Process :=
  { id := id
    parentId := 0
    pdt := 0
    pdtPaddr := 0
    current := Registers.zero
    userMode :=
      { Registers.zero with
        eflags := regEflagsDefault
        ss := segselUserSpaceDs ||| 0x03
        cs := segselUserSpaceCs ||| 0x03 }
    kernelStackStartVaddr := 0
    stackStartVaddr := procInitialStackVaddr
    codeStartVaddr := 0
    codePaddrs := ⟨0, 0⟩
    stackPaddrs := ⟨0, 0⟩
    kernelStackPaddrs := ⟨0, 0⟩ }

namespace Machine

/-- Words stored through a pointer, each with its position.  Blocks of the heap
are stores of their own.  Address 0 is mapped to itself, so that the words of a
null pointer go to the first frame, where the paging code finds them when it
maps at address 0. -/
def storeThrough (machine : Machine) (pointer : Nat)
    (words : List (Nat × Nat)) : Machine :=
  if pointer = 0 then
    words.foldl (fun machine word => machine.setEntry 0 word.2
      (Entry.ofWord (BitVec.ofNat 32 word.1))) machine
  else machine

theorem storeThrough_of_ne {pointer : Nat} (notNull : pointer ≠ 0)
    (machine : Machine) (words : List (Nat × Nat)) :
    machine.storeThrough pointer words = machine :=
  if_neg notNull

theorem storeThrough_frame (machine : Machine) (pointer : Nat)
    (words : List (Nat × Nat)) :
    FirstFrameOnly machine (machine.storeThrough pointer words) := by
  rw [storeThrough]
  split_ifs
  · induction words generalizing machine with
    | nil => exact .refl machine
    | cons word words induction =>
        exact (FirstFrameOnly.setEntry machine ..).trans (induction _)
  · exact .refl machine

end Machine

namespace Kernel

/-- Assign to members of the record of a process, whose words are stored. -/
def updateProcess (kernel : Kernel) (p : Nat) (words : List (Nat × Nat))
    (update : Process → Process) : Kernel :=
  { kernel with
    machine := kernel.machine.storeThrough p words
    processes :=
      Store.set kernel.processes p (update (kernel.processes p)) }

@[simp] theorem updateProcess_same (kernel : Kernel) (p : Nat)
    (words : List (Nat × Nat)) (update : Process → Process) :
    (kernel.updateProcess p words update).processes p =
      update (kernel.processes p) :=
  Store.set_same ..

theorem updateProcess_other (kernel : Kernel) {p other : Nat}
    (words : List (Nat × Nat)) (update : Process → Process)
    (different : other ≠ p) :
    (kernel.updateProcess p words update).processes other =
      kernel.processes other :=
  Store.set_other _ _ different

theorem updateProcess_machine (kernel : Kernel) {p : Nat}
    (words : List (Nat × Nat)) (update : Process → Process)
    (notNull : p ≠ 0) :
    (kernel.updateProcess p words update).machine = kernel.machine :=
  Machine.storeThrough_of_ne notNull ..

/-- "Initialize process structure." -/
def initializeProcess (kernel : Kernel) (p id : Nat) : Kernel :=
  kernel.updateProcess p (initialProcess id).members.zipIdx fun _ =>
    initialProcess id

/-- `kmalloc` on the kernel's own memory. -/
def kmalloc (layout : Layout) (base fuel nbytes : Nat) (kernel : Kernel) :
    Option (Nat × Kernel) := do
  let (address, heap, machine) ← Newbos.kmalloc (pagingSource layout) base
    fuel nbytes kernel.heap kernel.machine
  some (address, { kernel with heap := heap, machine := machine })

theorem kmalloc_keeps {layout : Layout} {base fuel nbytes address : Nat}
    {kernel after : Kernel}
    (returned : kernel.kmalloc layout base fuel nbytes =
      some (address, after)) :
    after.queue = kernel.queue ∧ after.processes = kernel.processes ∧
      after.paddrEles = kernel.paddrEles := by
  simp only [kmalloc, Option.bind_eq_bind, Option.bind_eq_some_iff]
    at returned
  obtain ⟨_, _, result⟩ := returned
  cases result
  exact ⟨rfl, rfl, rfl⟩

end Kernel

/-- `pdt_map_memory` through the pointer to a directory. -/
def pdtMapMemoryAt (layout : Layout) (pdt paddr vaddr size : Nat)
    (rw pl : UInt8) (machine : Machine) : Option (Nat × Machine) :=
  match machine.translate layout.kernelPdt pdt with
  | some frame => pdtMapMemory layout frame paddr vaddr size rw pl machine
  | none => some (0, { machine with faulted := true })

section Create

variable (layout : Layout) (base fuel p : Nat)

/-- "Load process page tables"; `false` when `process_create` gives up. -/
def loadPageTables (kernel : Kernel) : Option (Bool × Kernel) := do
  let (pdt, paddr, machine) ← pdtCreate layout kernel.machine
  let kernel := { kernel with machine := machine }
  if pdt = 0 ∨ paddr = 0 then some (false, kernel)
  else
    some (true, kernel.updateProcess p [(pdt, 2), (paddr, 3)] fun process =>
      { process with pdt := pdt, pdtPaddr := paddr })

/-- "Load process code".  Nothing is checked, and the element's `next` is left
as it was; without an element a null pointer is written through. -/
def loadCode (kernel : Kernel) : Option Kernel := do
  let vaddr := 0
  let fileSize := 42
  let pfs := divCeil fileSize fourKb
  let (paddr, machine) := pfaAllocate layout pfs kernel.machine
  let (kernelVaddr, machine) := pdtKernelFindNextVaddr layout fileSize machine
  let (_, machine) ←
    pdtMapKernelMemory layout paddr kernelVaddr fileSize 1 0 machine
  let (_, machine) ←
    pdtUnmapKernelMemory layout fuel kernelVaddr fileSize machine
  let (_, machine) ← pdtMapMemoryAt layout (kernel.processes p).pdt paddr
    vaddr fileSize 1 1 machine
  let kernel := { kernel with machine := machine }
  let (codePaddrs, kernel) ← kernel.kmalloc layout base fuel paddrEleSize
  let element :=
    { kernel.paddrEles codePaddrs with paddr := paddr, count := pfs }
  let kernel :=
    { kernel with
      machine :=
        kernel.machine.storeThrough codePaddrs [(paddr, 0), (pfs, 1)]
      paddrEles := Store.set kernel.paddrEles codePaddrs element }
  some (kernel.updateProcess p
    [(codePaddrs, 31), (codePaddrs, 32), (vaddr, 27), (vaddr, 30)]
    fun process =>
      { process with
        codePaddrs := ⟨codePaddrs, codePaddrs⟩
        userMode := { process.userMode with eip := vaddr }
        codeStartVaddr := vaddr })

/-- "Load process stack". -/
def loadStack (kernel : Kernel) : Option (Bool × Kernel) := do
  let pfs := divCeil procInitialStackSize fourKb
  let (paddr, machine) := pfaAllocate layout pfs kernel.machine
  let kernel := { kernel with machine := machine }
  if paddr = 0 then some (false, kernel)
  else
    let bytes := w32 (pfs * fourKb)
    let (mappedMemorySize, machine) ← pdtMapMemoryAt layout
      (kernel.processes p).pdt paddr procInitialStackVaddr bytes 1 1
      kernel.machine
    let kernel := { kernel with machine := machine }
    if mappedMemorySize < bytes then some (false, kernel)
    else
      let (stackPaddrs, kernel) ← kernel.kmalloc layout base fuel paddrEleSize
      if stackPaddrs = 0 then some (false, kernel)
      else
        let kernel :=
          { kernel with
            paddrEles := Store.set kernel.paddrEles stackPaddrs
              ⟨paddr, pfs, 0⟩ }
        some (true, kernel.updateProcess p
          [(stackPaddrs, 33), (stackPaddrs, 34), (procInitialStackVaddr, 29),
            (procInitialEsp, 24)]
          fun process =>
            { process with
              stackPaddrs := ⟨stackPaddrs, stackPaddrs⟩
              stackStartVaddr := procInitialStackVaddr
              userMode := { process.userMode with esp := procInitialEsp } })

/-- "Load process kernel stack". -/
def loadKernelStack (kernel : Kernel) : Option (Bool × Kernel) := do
  let pfs := divCeil kernelStackSize fourKb
  let (paddr, machine) := pfaAllocate layout pfs kernel.machine
  let kernel := { kernel with machine := machine }
  if paddr = 0 then some (false, kernel)
  else
    let bytes := w32 (pfs * fourKb)
    let (vaddr, machine) := pdtKernelFindNextVaddr layout bytes kernel.machine
    let kernel := { kernel with machine := machine }
    if vaddr = 0 then some (false, kernel)
    else
      let (mappedMemorySize, machine) ← pdtMapKernelMemory layout paddr vaddr
        bytes 1 0 kernel.machine
      let kernel := { kernel with machine := machine }
      if mappedMemorySize ≠ bytes then some (false, kernel)
      else
        let (kernelStackPaddrs, kernel) ←
          kernel.kmalloc layout base fuel paddrEleSize
        if kernelStackPaddrs = 0 then some (false, kernel)
        else
          let kernel :=
            { kernel with
              paddrEles := Store.set kernel.paddrEles kernelStackPaddrs
                ⟨paddr, pfs, 0⟩ }
          some (true, kernel.updateProcess p
            [(kernelStackPaddrs, 35), (kernelStackPaddrs, 36),
              (sub32 (w32 (vaddr + bytes)) 4, 28)]
            fun process =>
              { process with
                kernelStackPaddrs := ⟨kernelStackPaddrs, kernelStackPaddrs⟩
                kernelStackStartVaddr := sub32 (w32 (vaddr + bytes)) 4 })

/-- The last assignment of `process_create`. -/
def setCurrent (kernel : Kernel) : Kernel :=
  kernel.updateProcess p ((kernel.processes p).userMode.members.zipIdx 4)
    fun process => { process with current := process.userMode }

end Create

theorem setCurrent_same (p : Nat) (kernel : Kernel) :
    (setCurrent p kernel).processes p =
      { kernel.processes p with
        current := (kernel.processes p).userMode } := by
  rw [setCurrent, Kernel.updateProcess_same]

theorem setCurrent_machine {p : Nat} (notNull : p ≠ 0) (kernel : Kernel) :
    (setCurrent p kernel).machine = kernel.machine :=
  kernel.updateProcess_machine _ _ notNull

/-- `process_create`: the record's address, or 0.  A null pointer from the
first `kmalloc` is written through.  The members that are read back then lie
behind the words that a null element, or a page mapped at address 0, replaces
in the same frame. -/
def processCreate (layout : Layout) (base fuel : Nat) (kernel : Kernel) :
    Option (Nat × Kernel) := do
  let (p, kernel) ← kernel.kmalloc layout base fuel processSize
  let id ← schedulerNextPid fuel kernel
  let kernel := kernel.initializeProcess p id
  let (loaded, kernel) ← loadPageTables layout p kernel
  if ¬loaded then some (0, kernel)
  else
    let kernel ← loadCode layout base fuel p kernel
    let (loaded, kernel) ← loadStack layout base fuel p kernel
    if ¬loaded then some (0, kernel)
    else
      let (loaded, kernel) ← loadKernelStack layout base fuel p kernel
      if ¬loaded then some (0, kernel)
      else
        some (p, setCurrent p kernel)

/-- How far `process_create` gets with the record `p`. -/
inductive Creation (layout : Layout) (base fuel p : Nat) (kernel : Kernel) :
    Nat → Kernel → Prop where
  | noTables {id : Nat} {after : Kernel}
      (counted : schedulerNextPid fuel kernel = some id)
      (tables : loadPageTables layout p (kernel.initializeProcess p id) =
        some (false, after)) :
      Creation layout base fuel p kernel 0 after
  | noStack {id : Nat} {withTables withCode after : Kernel}
      (counted : schedulerNextPid fuel kernel = some id)
      (tables : loadPageTables layout p (kernel.initializeProcess p id) =
        some (true, withTables))
      (coded : loadCode layout base fuel p withTables = some withCode)
      (stacked : loadStack layout base fuel p withCode =
        some (false, after)) :
      Creation layout base fuel p kernel 0 after
  | noKernelStack {id : Nat} {withTables withCode withStack after : Kernel}
      (counted : schedulerNextPid fuel kernel = some id)
      (tables : loadPageTables layout p (kernel.initializeProcess p id) =
        some (true, withTables))
      (coded : loadCode layout base fuel p withTables = some withCode)
      (stacked : loadStack layout base fuel p withCode =
        some (true, withStack))
      (kernelStacked : loadKernelStack layout base fuel p withStack =
        some (false, after)) :
      Creation layout base fuel p kernel 0 after
  | complete {id : Nat} {withTables withCode withStack final : Kernel}
      (counted : schedulerNextPid fuel kernel = some id)
      (tables : loadPageTables layout p (kernel.initializeProcess p id) =
        some (true, withTables))
      (coded : loadCode layout base fuel p withTables = some withCode)
      (stacked : loadStack layout base fuel p withCode =
        some (true, withStack))
      (kernelStacked : loadKernelStack layout base fuel p withStack =
        some (true, final)) :
      Creation layout base fuel p kernel p
        (setCurrent p final)

/-- `process_create` takes a record and goes on with it. -/
theorem processCreate_creation {layout : Layout} {base fuel result : Nat}
    {kernel after : Kernel}
    (created : processCreate layout base fuel kernel =
      some (result, after)) :
    ∃ p middle,
      kernel.kmalloc layout base fuel processSize = some (p, middle) ∧
      Creation layout base fuel p middle result after := by
  simp only [processCreate, Option.bind_eq_bind,
    Option.bind_eq_some_iff] at created
  obtain ⟨⟨p, middle⟩, allocated, id, counted, ⟨hasTables, withTables⟩,
    tables, rest⟩ := created
  refine ⟨p, middle, allocated, ?_⟩
  cases hasTables with
  | false =>
      cases rest
      exact .noTables counted tables
  | true =>
      rw [if_neg (not_not_intro rfl), Option.bind_eq_some_iff] at rest
      obtain ⟨withCode, coded, rest⟩ := rest
      rw [Option.bind_eq_some_iff] at rest
      obtain ⟨⟨hasStack, withStack⟩, stacked, rest⟩ := rest
      cases hasStack with
      | false =>
          cases rest
          exact .noStack counted tables coded stacked
      | true =>
          rw [if_neg (not_not_intro rfl), Option.bind_eq_some_iff] at rest
          obtain ⟨⟨hasKernelStack, final⟩, kernelStacked, rest⟩ := rest
          cases hasKernelStack with
          | false =>
              cases rest
              exact .noKernelStack counted tables coded stacked kernelStacked
          | true =>
              cases rest
              exact .complete counted tables coded stacked kernelStacked

/-- `scheduler_add_process` with its `kmalloc`. -/
def Kernel.schedulerAddProcess (layout : Layout) (base fuel p : Nat)
    (kernel : Kernel) : Option (Int × Nat × Kernel) := do
  let (e, kernel) ← kernel.kmalloc layout base fuel processListElementSize
  let (result, queue) := Newbos.schedulerAddProcess p e kernel.queue
  some (result, e, { kernel with queue := queue })

/-- The kernel as it is when `frames_init` returns, with the heap unused. -/
def startKernel (machine : Machine) : Kernel where
  machine := machine
  heap := Heap.initial fun _ => ⟨0, 0⟩
  processes := fun _ => initialProcess 0
  paddrEles := fun _ => ⟨0, 0, 0⟩
  queue := ⟨fun _ => ⟨0, 0⟩, 0, 0⟩

end Newbos
