import Newbos.Library.Stack

/-!
# Interrupt stubs

The 48 stubs of `interrupts_assembler.s` save the processor state as a
`registers_t` on the stack, call a C function with its address, and restore
the state.  The processor is modelled in protected mode, as far as the stubs
can see it.
-/

namespace Newbos

/-- Registers and memory.  The upper half of a segment register's stack word
is zero. -/
structure Cpu where
  eax : BitVec 32
  ecx : BitVec 32
  edx : BitVec 32
  ebx : BitVec 32
  esp : BitVec 32
  ebp : BitVec 32
  esi : BitVec 32
  edi : BitVec 32
  eip : BitVec 32
  eflags : BitVec 32
  cs : BitVec 16
  ds : BitVec 16
  es : BitVec 16
  fs : BitVec 16
  gs : BitVec 16
  ss : BitVec 16
  mem : ByteMemory

inductive Segment where
  | ds
  | es
  | fs
  | gs
  deriving DecidableEq, Repr

namespace Cpu

def push (word : BitVec 32) (cpu : Cpu) : Cpu :=
  { cpu with
    esp := cpu.esp - 4#32
    mem := writeWord cpu.mem (cpu.esp - 4#32) word }

/-- The word on top of the stack. -/
def top (cpu : Cpu) : BitVec 32 :=
  readWord cpu.mem cpu.esp

def drop (cpu : Cpu) : Cpu :=
  { cpu with esp := cpu.esp + 4#32 }

def segment (cpu : Cpu) : Segment → BitVec 16
  | .ds => cpu.ds
  | .es => cpu.es
  | .fs => cpu.fs
  | .gs => cpu.gs

def setSegment (selector : BitVec 16) (cpu : Cpu) : Segment → Cpu
  | .ds => { cpu with ds := selector }
  | .es => { cpu with es := selector }
  | .fs => { cpu with fs := selector }
  | .gs => { cpu with gs := selector }

/-- The privilege level of a code segment selector. -/
def ring (selector : BitVec 16) : BitVec 16 :=
  selector &&& 3#16

end Cpu

/-- The instructions of the stubs, other than the call and the jumps. -/
inductive Instruction where
  | cli
  | pushImmediate (value : BitVec 32)
  | pusha
  | pushSegment (segment : Segment)
  | movAx (value : BitVec 16)
  | movSegmentAx (segment : Segment)
  | pushEsp
  | addEsp (value : BitVec 32)
  | popSegment (segment : Segment)
  | popa
  | iret
  deriving DecidableEq, Repr

/-- `pusha` pushes the stack pointer it started with. -/
def pusha (cpu : Cpu) : Cpu :=
  cpu |>.push cpu.eax |>.push cpu.ecx |>.push cpu.edx |>.push cpu.ebx
    |>.push cpu.esp |>.push cpu.ebp |>.push cpu.esi |>.push cpu.edi

/-- `popa` skips the word of the stack pointer. -/
def popa (cpu : Cpu) : Cpu :=
  let cpu := { cpu with edi := cpu.top }.drop
  let cpu := { cpu with esi := cpu.top }.drop
  let cpu := { cpu with ebp := cpu.top }.drop
  let cpu := cpu.drop
  let cpu := { cpu with ebx := cpu.top }.drop
  let cpu := { cpu with edx := cpu.top }.drop
  let cpu := { cpu with ecx := cpu.top }.drop
  { cpu with eax := cpu.top }.drop

/-- `iret` pops a stack pointer too when it returns to an outer ring. -/
def iret (cpu : Cpu) : Cpu :=
  let current := Cpu.ring cpu.cs
  let cpu := { cpu with eip := cpu.top }.drop
  let cpu := { cpu with cs := cpu.top.setWidth 16 }.drop
  let cpu := { cpu with eflags := cpu.top }.drop
  if current < Cpu.ring cpu.cs then
    { cpu with
      esp := cpu.top
      ss := cpu.drop.top.setWidth 16 }
  else cpu

/-- One instruction.  `add` also changes the arithmetic flags, which `iret`
overwrites before anything reads them. -/
def Instruction.run (cpu : Cpu) : Instruction → Cpu
  | .cli => { cpu with eflags := cpu.eflags &&& ~~~0x200#32 }
  | .pushImmediate value => cpu.push value
  | .pusha => Newbos.pusha cpu
  | .pushSegment segment => cpu.push ((cpu.segment segment).setWidth 32)
  | .movAx value =>
      { cpu with eax := cpu.eax &&& 0xFFFF0000#32 ||| value.setWidth 32 }
  | .movSegmentAx segment => cpu.setSegment (cpu.eax.setWidth 16) segment
  | .pushEsp => cpu.push cpu.esp
  | .addEsp value => { cpu with esp := cpu.esp + value }
  | .popSegment segment => (cpu.setSegment (cpu.top.setWidth 16) segment).drop
  | .popa => Newbos.popa cpu
  | .iret => Newbos.iret cpu

/-- The C functions that the stubs call. -/
inductive Callee where
  | interruptHandler
  | irqHandler
  deriving DecidableEq, Repr

/-- A stub with its jump to the common part: the instructions before the call,
the function, and the instructions after it. -/
structure Stub where
  before : List Instruction
  callee : Callee
  after : List Instruction
  deriving DecidableEq, Repr

/-- The common part of the stubs, which differs in the function only. -/
def commonStub (callee : Callee) : Stub :=
  { before :=
      [.pusha,
        .pushSegment .ds, .pushSegment .es, .pushSegment .fs,
        .pushSegment .gs,
        .movAx 0x10#16,
        .movSegmentAx .ds, .movSegmentAx .es, .movSegmentAx .fs,
        .movSegmentAx .gs,
        .pushEsp]
    callee := callee
    after :=
      [.addEsp 4#32,
        .popSegment .gs, .popSegment .fs, .popSegment .es, .popSegment .ds,
        .popa,
        .addEsp 4#32, .addEsp 4#32,
        .iret] }

def isrCommonStub : Stub := commonStub .interruptHandler

def irqCommonStub : Stub := commonStub .irqHandler

/-- A stub that pushes 0 in place of an error code, and its number. -/
def Stub.withoutErrorCode (common : Stub) (number : BitVec 32) : Stub :=
  { common with before :=
      [.cli, .pushImmediate 0#32, .pushImmediate number] ++ common.before }

/-- A stub that leaves the error code to the processor. -/
def Stub.withErrorCode (common : Stub) (number : BitVec 32) : Stub :=
  { common with before :=
      [.cli, .pushImmediate number] ++ common.before }

def isr0 : Stub := isrCommonStub.withoutErrorCode 0
def isr1 : Stub := isrCommonStub.withoutErrorCode 1
def isr2 : Stub := isrCommonStub.withoutErrorCode 2
def isr3 : Stub := isrCommonStub.withoutErrorCode 3
def isr4 : Stub := isrCommonStub.withoutErrorCode 4
def isr5 : Stub := isrCommonStub.withoutErrorCode 5
def isr6 : Stub := isrCommonStub.withoutErrorCode 6
def isr7 : Stub := isrCommonStub.withoutErrorCode 7
def isr8 : Stub := isrCommonStub.withErrorCode 8
def isr9 : Stub := isrCommonStub.withoutErrorCode 9
def isr10 : Stub := isrCommonStub.withErrorCode 10
def isr11 : Stub := isrCommonStub.withErrorCode 11
def isr12 : Stub := isrCommonStub.withErrorCode 12
def isr13 : Stub := isrCommonStub.withErrorCode 13
def isr14 : Stub := isrCommonStub.withErrorCode 14
def isr15 : Stub := isrCommonStub.withoutErrorCode 15
def isr16 : Stub := isrCommonStub.withoutErrorCode 16
def isr17 : Stub := isrCommonStub.withoutErrorCode 17
def isr18 : Stub := isrCommonStub.withoutErrorCode 18
def isr19 : Stub := isrCommonStub.withoutErrorCode 19
def isr20 : Stub := isrCommonStub.withoutErrorCode 20
def isr21 : Stub := isrCommonStub.withoutErrorCode 21
def isr22 : Stub := isrCommonStub.withoutErrorCode 22
def isr23 : Stub := isrCommonStub.withoutErrorCode 23
def isr24 : Stub := isrCommonStub.withoutErrorCode 24
def isr25 : Stub := isrCommonStub.withoutErrorCode 25
def isr26 : Stub := isrCommonStub.withoutErrorCode 26
def isr27 : Stub := isrCommonStub.withoutErrorCode 27
def isr28 : Stub := isrCommonStub.withoutErrorCode 28
def isr29 : Stub := isrCommonStub.withoutErrorCode 29
def isr30 : Stub := isrCommonStub.withoutErrorCode 30
def isr31 : Stub := isrCommonStub.withoutErrorCode 31

def irq0 : Stub := irqCommonStub.withoutErrorCode 32
def irq1 : Stub := irqCommonStub.withoutErrorCode 33
def irq2 : Stub := irqCommonStub.withoutErrorCode 34
def irq3 : Stub := irqCommonStub.withoutErrorCode 35
def irq4 : Stub := irqCommonStub.withoutErrorCode 36
def irq5 : Stub := irqCommonStub.withoutErrorCode 37
def irq6 : Stub := irqCommonStub.withoutErrorCode 38
def irq7 : Stub := irqCommonStub.withoutErrorCode 39
def irq8 : Stub := irqCommonStub.withoutErrorCode 40
def irq9 : Stub := irqCommonStub.withoutErrorCode 41
def irq10 : Stub := irqCommonStub.withoutErrorCode 42
def irq11 : Stub := irqCommonStub.withoutErrorCode 43
def irq12 : Stub := irqCommonStub.withoutErrorCode 44
def irq13 : Stub := irqCommonStub.withoutErrorCode 45
def irq14 : Stub := irqCommonStub.withoutErrorCode 46
def irq15 : Stub := irqCommonStub.withoutErrorCode 47

/-- The gates set by `init_isr` and `init_irq`, in the order of vectors. -/
def idtGates : List Stub :=
  [isr0, isr1, isr2, isr3, isr4, isr5, isr6, isr7, isr8, isr9, isr10, isr11,
   isr12, isr13, isr14, isr15, isr16, isr17, isr18, isr19, isr20, isr21, isr22,
   isr23, isr24, isr25, isr26, isr27, isr28, isr29, isr30, isr31, irq0, irq1,
   irq2, irq3, irq4, irq5, irq6, irq7, irq8, irq9, irq10, irq11, irq12, irq13,
   irq14, irq15]

def idtGate (vector : Nat) : Stub :=
  idtGates.getD vector isr0

/-- Vectors for which the processor pushes an error code. -/
def pushesErrorCode (vector : Nat) : Bool :=
  vector ∈ [8, 10, 11, 12, 13, 14, 17]

/-- What an interrupt takes from outside the stubs: the stack of the task
state segment, the address in each gate, and the address behind each call. -/
structure Platform where
  esp0 : BitVec 32
  ss0 : BitVec 16
  base : Nat → BitVec 32
  returnAddress : Callee → BitVec 32

/-- The processor enters an interrupt gate with selector 0x08.  It switches
stacks when it comes from an outer ring, and clears the flags TF, IF, NT, RF
and VM. -/
def deliver (platform : Platform) (vector : Nat) (errorCode : BitVec 32)
    (cpu : Cpu) : Cpu :=
  let entered :=
    if Cpu.ring cpu.cs ≠ 0#16 then
      { cpu with esp := platform.esp0, ss := platform.ss0 }
        |>.push (cpu.ss.setWidth 32) |>.push cpu.esp
    else cpu
  let entered := entered |>.push cpu.eflags |>.push (cpu.cs.setWidth 32)
    |>.push cpu.eip
  let entered := if pushesErrorCode vector then entered.push errorCode
    else entered
  { entered with
    eip := platform.base vector
    cs := 0x08#16
    eflags := entered.eflags &&& ~~~0x34300#32 }

/-- The state in which a stub executes its call. -/
def Stub.atCall (stub : Stub) (platform : Platform) (vector : Nat)
    (errorCode : BitVec 32) (cpu : Cpu) : Cpu :=
  stub.before.foldl Instruction.run (deliver platform vector errorCode cpu)

/-- The state at the first instruction of the C function. -/
def Stub.inHandler (stub : Stub) (platform : Platform) (vector : Nat)
    (errorCode : BitVec 32) (cpu : Cpu) : Cpu :=
  (stub.atCall platform vector errorCode cpu).push
    (platform.returnAddress stub.callee)

/-- The state after `iret`.  A handler takes the state at its first
instruction to the state after its `ret`. -/
def Stub.afterIret (stub : Stub) (platform : Platform)
    (handlers : Callee → Cpu → Cpu) (vector : Nat) (errorCode : BitVec 32)
    (cpu : Cpu) : Cpu :=
  stub.after.foldl Instruction.run
    (handlers stub.callee (stub.inHandler platform vector errorCode cpu))

/-- `registers_t`. -/
structure RegistersT where
  gs : BitVec 32
  fs : BitVec 32
  es : BitVec 32
  ds : BitVec 32
  edi : BitVec 32
  esi : BitVec 32
  ebp : BitVec 32
  esp : BitVec 32
  ebx : BitVec 32
  edx : BitVec 32
  ecx : BitVec 32
  eax : BitVec 32
  interruptNumber : BitVec 32
  errorCode : BitVec 32
  eip : BitVec 32
  cs : BitVec 32
  eflags : BitVec 32
  useresp : BitVec 32
  ss : BitVec 32
  deriving DecidableEq, Repr

/-- `sizeof(registers_t)`. -/
abbrev sizeofRegistersT : Nat := 76

/-- The structure at a pointer. -/
def registersAt (mem : ByteMemory) (regs : BitVec 32) : RegistersT :=
  let field := fun index => readWord mem (regs + BitVec.ofNat 32 (4 * index))
  { gs := field 0
    fs := field 1
    es := field 2
    ds := field 3
    edi := field 4
    esi := field 5
    ebp := field 6
    esp := field 7
    ebx := field 8
    edx := field 9
    ecx := field 10
    eax := field 11
    interruptNumber := field 12
    errorCode := field 13
    eip := field 14
    cs := field 15
    eflags := field 16
    useresp := field 17
    ss := field 18 }

end Newbos
