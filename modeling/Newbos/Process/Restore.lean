import Newbos.Interrupts.Stubs
import Newbos.Process.Record

/-!
# Restoring a context

`run_process_in_user_mode` of `scheduler_assembler.s` up to the point where it
leaves for the process.  Its base register doubles as the scratch register of
the segment loads, which come before the last use of the base.
-/

namespace Newbos

/-- The general registers that are loaded. -/
inductive GeneralRegister where
  | eax
  | ebx
  | ecx
  | edx
  | ebp
  | esi
  | edi
  deriving DecidableEq, Repr

def Cpu.setRegister (value : BitVec 32) (cpu : Cpu) : GeneralRegister → Cpu
  | .eax => { cpu with eax := value }
  | .ebx => { cpu with ebx := value }
  | .ecx => { cpu with ecx := value }
  | .edx => { cpu with edx := value }
  | .ebp => { cpu with ebp := value }
  | .esi => { cpu with esi := value }
  | .edi => { cpu with edi := value }

/-- The instructions of `run_process_in_user_mode`: those that the stubs use
too, `mov offset(%esp), %eax`, `mov offset(%eax), register` and
`push offset(%eax)`. -/
inductive RestoreInstruction where
  | common (instruction : Instruction)
  | movEaxEsp (offset : BitVec 32)
  | mov (offset : BitVec 32) (register : GeneralRegister)
  | push (offset : BitVec 32)
  deriving DecidableEq, Repr

def RestoreInstruction.run (cpu : Cpu) : RestoreInstruction → Cpu
  | .common instruction => instruction.run cpu
  | .movEaxEsp offset =>
      { cpu with eax := readWord cpu.mem (cpu.esp + offset) }
  | .mov offset register =>
      cpu.setRegister (readWord cpu.mem (cpu.eax + offset)) register
  | .push offset => cpu.push (readWord cpu.mem (cpu.eax + offset))

/-- The loads of all registers but `eax`. -/
def loadRegisters : List RestoreInstruction :=
  [.mov 4#32 .ebx, .mov 8#32 .ecx, .mov 12#32 .edx, .mov 16#32 .ebp,
    .mov 20#32 .esi, .mov 24#32 .edi]

/-- The words that `iret` would pop. -/
def pushReturn : List RestoreInstruction :=
  [.push 28#32, .push 32#32, .push 36#32, .push 40#32, .push 44#32]

def loadSegments : List RestoreInstruction :=
  [.common (.movAx 0x18#16), .common (.movSegmentAx .ds),
    .common (.movSegmentAx .es), .common (.movSegmentAx .fs),
    .common (.movSegmentAx .gs)]

/-- `run_process_in_user_mode` up to the load of `eax`. -/
def runProcessInUserMode : List RestoreInstruction :=
  [.common .cli, .movEaxEsp 4#32] ++ loadRegisters ++ pushReturn ++
    loadSegments ++ [.mov 0#32 .eax]

def RestoreInstruction.runAll (cpu : Cpu) (code : List RestoreInstruction) :
    Cpu :=
  code.foldl RestoreInstruction.run cpu

/-- `struct _registers` in memory, field by field. -/
def Registers.words (registers : Registers) : List (BitVec 32) :=
  registers.members.map (BitVec.ofNat 32)

/-- `sizeof(struct _registers)`. -/
abbrev sizeofRegisters : Nat := 48

/-- A call with a pointer to a saved context, which lies outside of the part
of the stack that is not in use. -/
structure CalledWith (cpu : Cpu) (address : BitVec 32)
    (registers : Registers) : Prop where
  argument : readWord cpu.mem (cpu.esp + 4#32) = address
  saved : HoldsWords cpu.mem address registers.words
  apart : ∀ offset : BitVec 32, offset.toNat < sizeofRegisters →
    20 ≤ (address + offset - (cpu.esp - 20#32)).toNat

/-- The point of transfer has the saved values in the registers and the words
for the return on top of the stack. -/
structure RestoresContext (cpu : Cpu) (registers : Registers) : Prop where
  eax : cpu.eax = BitVec.ofNat 32 registers.eax
  ebx : cpu.ebx = BitVec.ofNat 32 registers.ebx
  ecx : cpu.ecx = BitVec.ofNat 32 registers.ecx
  edx : cpu.edx = BitVec.ofNat 32 registers.edx
  ebp : cpu.ebp = BitVec.ofNat 32 registers.ebp
  esi : cpu.esi = BitVec.ofNat 32 registers.esi
  edi : cpu.edi = BitVec.ofNat 32 registers.edi
  stack : HoldsWords cpu.mem cpu.esp
    ([registers.eip, registers.cs, registers.eflags, registers.esp,
      registers.ss].map (BitVec.ofNat 32))

/-- The stack memory once the words for the return are pushed. -/
def returnPushed (cpu : Cpu) (registers : Registers) : Cpu :=
  cpu |>.push (BitVec.ofNat 32 registers.ss)
    |>.push (BitVec.ofNat 32 registers.esp)
    |>.push (BitVec.ofNat 32 registers.eflags)
    |>.push (BitVec.ofNat 32 registers.cs)
    |>.push (BitVec.ofNat 32 registers.eip)

/-- The base register after the load of its lower half. -/
def clobbered (address : BitVec 32) : BitVec 32 :=
  address &&& 0xFFFF0000#32 ||| 0x18#32

/-- The base register points to the saved context, of which the last `room`
bytes under the stack pointer are clear. -/
structure PointsTo (cpu : Cpu) (address : BitVec 32) (registers : Registers)
    (room : Nat) : Prop where
  base : cpu.eax = address
  saved : HoldsWords cpu.mem address registers.words
  apart : ∀ offset : BitVec 32, offset.toNat < sizeofRegisters →
    room ≤ (address + offset - (cpu.esp - BitVec.ofNat 32 room)).toNat

section Steps

variable {cpu : Cpu} {address : BitVec 32} {registers : Registers}
  {room : Nat} {word : BitVec 32}

theorem PointsTo.read (points : PointsTo cpu address registers room)
    (index : Nat) (field : registers.words[index]? = some word) :
    readWord cpu.mem (cpu.eax + BitVec.ofNat 32 (4 * index)) = word := by
  rw [points.base]
  exact points.saved.get field

/-- What lies above the clear bytes under the stack pointer lies above the next
word to be pushed. -/
theorem above_pushed {esp target : BitVec 32} (small : room < 1024)
    (away : room + 4 ≤
      (target - (esp - BitVec.ofNat 32 (room + 4))).toNat) :
    4 ≤ (target - (esp - 4#32)).toNat := by
  rw [BitVec.ofNat_add] at away
  bv_omega

theorem PointsTo.push (points : PointsTo cpu address registers (room + 4))
    (small : room < 1024) (word : BitVec 32) :
    PointsTo (cpu.push word) address registers room := by
  have below : cpu.esp - BitVec.ofNat 32 (room + 4) =
      cpu.esp - 4#32 - BitVec.ofNat 32 room := by
    rw [BitVec.ofNat_add]
    bv_omega
  refine ⟨points.base, ?_, ?_⟩
  · apply points.saved.congr (by simp [Registers.words, Registers.members])
    intro offset inside
    apply writeWord_outside
    exact above_pushed small (points.apart offset inside)
  · intro offset inside
    have away := points.apart offset inside
    rw [below] at away
    exact Nat.le_trans (Nat.le_add_right room 4) away

theorem runAll_append (first second : List RestoreInstruction) :
    RestoreInstruction.runAll cpu (first ++ second) =
      RestoreInstruction.runAll (RestoreInstruction.runAll cpu first)
        second :=
  List.foldl_append ..

/-- The first two instructions. -/
def fetchArgument (cpu : Cpu) : Cpu :=
  { cpu with
    eflags := cpu.eflags &&& ~~~0x200#32
    eax := readWord cpu.mem (cpu.esp + 4#32) }

theorem CalledWith.pointsTo (called : CalledWith cpu address registers) :
    PointsTo (fetchArgument cpu) address registers 20 where
  base := called.argument
  saved := called.saved
  apart := called.apart

/-- All registers but `eax` with their saved values. -/
def registersLoaded (cpu : Cpu) (registers : Registers) : Cpu :=
  { cpu with
    ebx := BitVec.ofNat 32 registers.ebx
    ecx := BitVec.ofNat 32 registers.ecx
    edx := BitVec.ofNat 32 registers.edx
    ebp := BitVec.ofNat 32 registers.ebp
    esi := BitVec.ofNat 32 registers.esi
    edi := BitVec.ofNat 32 registers.edi }

theorem PointsTo.runAll_loadRegisters
    (points : PointsTo cpu address registers room) :
    RestoreInstruction.runAll cpu loadRegisters =
      registersLoaded cpu registers := by
  have ebx := points.read 1 rfl
  have ecx := points.read 2 rfl
  have edx := points.read 3 rfl
  have ebp := points.read 4 rfl
  have esi := points.read 5 rfl
  have edi := points.read 6 rfl
  simp only [RestoreInstruction.runAll, loadRegisters, List.foldl_cons,
    List.foldl_nil, RestoreInstruction.run, Cpu.setRegister]
  rw [registersLoaded, ← ebx, ← ecx, ← edx, ← ebp, ← esi, ← edi]

theorem PointsTo.runAll_pushReturn
    (points : PointsTo cpu address registers 20) :
    RestoreInstruction.runAll cpu pushReturn =
      returnPushed cpu registers := by
  have atSs := points.push (by decide) (BitVec.ofNat 32 registers.ss)
  have atEsp := atSs.push (by decide) (BitVec.ofNat 32 registers.esp)
  have atEflags := atEsp.push (by decide) (BitVec.ofNat 32 registers.eflags)
  have atCs := atEflags.push (by decide) (BitVec.ofNat 32 registers.cs)
  have ss := points.read 7 rfl
  have esp := atSs.read 8 rfl
  have eflags := atEsp.read 9 rfl
  have cs := atEflags.read 10 rfl
  have eip := atCs.read 11 rfl
  simp only [RestoreInstruction.runAll, pushReturn, List.foldl_cons,
    List.foldl_nil, RestoreInstruction.run]
  rw [ss, esp, eflags, cs, eip, returnPushed]

/-- The segment registers with the selector, and the base register that it
went through. -/
def segmentsLoaded (cpu : Cpu) : Cpu :=
  { cpu with
    eax := clobbered cpu.eax
    ds := 0x18#16
    es := 0x18#16
    fs := 0x18#16
    gs := 0x18#16 }

theorem clobbered_setWidth (base : BitVec 32) :
    (clobbered base).setWidth 16 = 0x18#16 := by
  rw [clobbered, BitVec.setWidth_or, BitVec.setWidth_and]
  simp

theorem runAll_loadSegments (cpu : Cpu) :
    RestoreInstruction.runAll cpu loadSegments = segmentsLoaded cpu := by
  have selector := clobbered_setWidth cpu.eax
  simp only [RestoreInstruction.runAll, loadSegments, List.foldl_cons,
    List.foldl_nil, RestoreInstruction.run, Instruction.run, Cpu.setSegment]
  change
    { cpu with
      eax := clobbered cpu.eax
      ds := (clobbered cpu.eax).setWidth 16
      es := (clobbered cpu.eax).setWidth 16
      fs := (clobbered cpu.eax).setWidth 16
      gs := (clobbered cpu.eax).setWidth 16 } = _
  rw [selector, segmentsLoaded]

end Steps

/-- The state at the point of transfer. -/
def atTransfer (cpu : Cpu) : Cpu :=
  RestoreInstruction.runAll cpu runProcessInUserMode

section Transfer

variable {cpu : Cpu} {address : BitVec 32} {registers : Registers}

theorem CalledWith.atTransfer_eq (called : CalledWith cpu address registers) :
    atTransfer cpu = RestoreInstruction.run
      (segmentsLoaded (returnPushed
        (registersLoaded (fetchArgument cpu) registers) registers))
      (.mov 0#32 .eax) := by
  have points := called.pointsTo
  have loaded : PointsTo (registersLoaded (fetchArgument cpu) registers)
      address registers 20 := ⟨points.base, points.saved, points.apart⟩
  rw [atTransfer, runProcessInUserMode, runAll_append, runAll_append,
    runAll_append, runAll_append]
  change RestoreInstruction.runAll (RestoreInstruction.runAll
    (RestoreInstruction.runAll
      (RestoreInstruction.runAll (fetchArgument cpu) loadRegisters)
      pushReturn) loadSegments) [.mov 0#32 .eax] = _
  rw [points.runAll_loadRegisters, loaded.runAll_pushReturn,
    runAll_loadSegments]
  rfl

theorem returnPushed_holds (cpu : Cpu) (registers : Registers) :
    HoldsWords (returnPushed cpu registers).mem
      (returnPushed cpu registers).esp
      ([registers.eip, registers.cs, registers.eflags, registers.esp,
        registers.ss].map (BitVec.ofNat 32)) := by
  have none : HoldsWords cpu.mem cpu.esp [] := trivial
  have ss := none.push (BitVec.ofNat 32 registers.ss) (by decide)
  have esp := ss.push (BitVec.ofNat 32 registers.esp) (by simp)
  have eflags := esp.push (BitVec.ofNat 32 registers.eflags) (by simp)
  have cs := eflags.push (BitVec.ofNat 32 registers.cs) (by simp)
  exact cs.push (BitVec.ofNat 32 registers.eip) (by simp)

/-- `eax` gets the word at the clobbered base. -/
theorem CalledWith.atTransfer_eax
    (called : CalledWith cpu address registers) :
    (atTransfer cpu).eax =
      readWord (returnPushed cpu registers).mem (clobbered address) := by
  rw [called.atTransfer_eq]
  change readWord (returnPushed cpu registers).mem
    (clobbered (readWord cpu.mem (cpu.esp + 4#32)) + 0#32) = _
  rw [called.argument, BitVec.add_zero]

theorem CalledWith.restores (called : CalledWith cpu address registers)
    (eax : (atTransfer cpu).eax = BitVec.ofNat 32 registers.eax) :
    RestoresContext (atTransfer cpu) registers := by
  rw [called.atTransfer_eq] at eax ⊢
  exact ⟨eax, rfl, rfl, rfl, rfl, rfl, rfl, returnPushed_holds _ registers⟩

/-- A context whose address has the selector as its lower half is restored. -/
theorem CalledWith.restores_of_selector
    (called : CalledWith cpu address registers)
    (lower : clobbered address = address) :
    RestoresContext (atTransfer cpu) registers := by
  apply called.restores
  rw [called.atTransfer_eax, lower]
  have points := called.pointsTo
  have atSs := points.push (by decide) (BitVec.ofNat 32 registers.ss)
  have atEsp := atSs.push (by decide) (BitVec.ofNat 32 registers.esp)
  have atEflags := atEsp.push (by decide) (BitVec.ofNat 32 registers.eflags)
  have atCs := atEflags.push (by decide) (BitVec.ofNat 32 registers.cs)
  have atEip := atCs.push (by decide) (BitVec.ofNat 32 registers.eip)
  exact atEip.saved.1

/-- The saved context is restored exactly when the word at the clobbered base
happens to be the saved `eax`. -/
theorem run_process_in_user_mode_restores_iff
    (called : CalledWith cpu address registers) :
    RestoresContext (atTransfer cpu) registers ↔
      readWord (returnPushed cpu registers).mem (clobbered address) =
        BitVec.ofNat 32 registers.eax := by
  rw [← called.atTransfer_eax]
  constructor
  · exact RestoresContext.eax
  · exact called.restores

end Transfer

/-- A call with a context of zeros, except for `eax`, at an address. -/
def sampleCall (address : BitVec 32) : Cpu :=
  { eax := 0, ecx := 0, edx := 0, ebx := 0, esp := 0xC0108000#32, ebp := 0
    esi := 0, edi := 0, eip := 0, eflags := 0, cs := 0x08#16, ds := 0x10#16
    es := 0x10#16, fs := 0x10#16, gs := 0x10#16, ss := 0x10#16
    mem := writeWord (writeWord (fun _ => 0#8) 0xC0108004#32 address)
      address 7#32 }

def sampleRegisters : Registers :=
  { eax := 7, ebx := 0, ecx := 0, edx := 0, ebp := 0, esi := 0, edi := 0
    ss := 0, esp := 0, eflags := 0, cs := 0, eip := 0 }

theorem sampleCall_calledWith {address : BitVec 32}
    (choice : address = 0xC0200000#32 ∨ address = 0xC0200018#32) :
    CalledWith (sampleCall address) address sampleRegisters := by
  refine ⟨?_, ?_, ?_⟩
  · rcases choice with rfl | rfl <;> decide
  · simp only [Registers.words, Registers.members, sampleRegisters, List.map,
      HoldsWords]
    rcases choice with rfl | rfl <;> decide
  · intro offset inside
    have small : offset.toNat < 48 := inside
    change 20 ≤ (address + offset - (0xC0108000#32 - 20#32)).toNat
    rcases choice with rfl | rfl <;> bv_omega

theorem run_process_in_user_mode_restores_iff_sample :
    RestoresContext (atTransfer (sampleCall 0xC0200018#32)) sampleRegisters ↔
      readWord (returnPushed (sampleCall 0xC0200018#32) sampleRegisters).mem
        (clobbered 0xC0200018#32) = BitVec.ofNat 32 sampleRegisters.eax :=
  run_process_in_user_mode_restores_iff (sampleCall_calledWith (Or.inr rfl))

/-- A context at the start of a page gets the word 24 bytes further on. -/
theorem run_process_in_user_mode_loses_eax :
    CalledWith (sampleCall 0xC0200000#32) 0xC0200000#32 sampleRegisters ∧
      ¬RestoresContext (atTransfer (sampleCall 0xC0200000#32))
        sampleRegisters := by
  have called := sampleCall_calledWith (Or.inl rfl)
  refine ⟨called, ?_⟩
  intro restores
  have eax := restores.eax
  rw [called.atTransfer_eax] at eax
  revert eax
  decide

end Newbos
