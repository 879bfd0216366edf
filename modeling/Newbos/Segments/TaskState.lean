import Newbos.Interrupts.Idt
import Newbos.Segments.Gdt

/-!
# The kernel stack of a process

`tss_set_kernel_stack` stores a stack pointer in the task state segment that
`gdt_init` has loaded.  The processor switches to it when an interrupt comes in
user mode, and the stub saves the state of the process on that stack.
-/

namespace Newbos

/-- `tss_set_kernel_stack`; `tss` is the address that `tss_init` returns. -/
def tssSetKernelStack (tss : BitVec 32) (segsel : BitVec 16)
    (vaddr : BitVec 32) (mem : ByteMemory) : ByteMemory :=
  writeHalf (writeWord mem (tss + 4#32) vaddr) (tss + 8#32) segsel

/-- The stack for ring 0 in the task state segment. -/
def TaskRegister.platform (task : TaskRegister) (mem : ByteMemory)
    (platform : Platform) : Platform :=
  { platform with
    esp0 := readWord mem (task.base + 4#32)
    ss0 := readHalf mem (task.base + 8#32) }

/-- The first instruction of the C function that a stub calls. -/
def enterHandler (platform : Platform) (vector : Nat) (cause : Cause)
    (cpu : Cpu) : Cpu :=
  let stub := idtGate vector
  (stub.before.foldl Instruction.run (cause.deliver platform vector cpu)).push
    (platform.returnAddress stub.callee)

/-! ## What is written -/

/-- So many words are pushed onto a stack, and nothing else is written. -/
structure Pushed (stack : BitVec 32 × BitVec 16) (mem : ByteMemory)
    (count : Nat) (state : Cpu) : Prop where
  esp : state.esp = stack.1 - BitVec.ofNat 32 (4 * count)
  ss : state.ss = stack.2
  kept : ∀ address, 4 * count ≤ (address - state.esp).toNat →
    state.mem address = mem address

def Instruction.pushes : Instruction → Nat
  | .pusha => 8
  | .pushImmediate _ | .pushSegment _ | .pushEsp => 1
  | _ => 0

/-- Instructions that take nothing from the stack. -/
def Instruction.saves : Instruction → Bool
  | .addEsp _ | .popSegment _ | .popa | .iret => false
  | _ => true

section Pushes

variable {stack : BitVec 32 × BitVec 16} {mem : ByteMemory} {count : Nat}
  {state : Cpu}

theorem Pushed.push (pushed : Pushed stack mem count state)
    (room : count < 1024) (word : BitVec 32) :
    Pushed stack mem (count + 1) (state.push word) := by
  have esp : (state.push word).esp =
      stack.1 - BitVec.ofNat 32 (4 * (count + 1)) := by
    rw [Cpu.push_esp, pushed.esp, Nat.mul_succ, BitVec.ofNat_add]
    bv_omega
  refine ⟨esp, pushed.ss, ?_⟩
  intro address outside
  rw [Cpu.push_esp] at outside
  have distance : (address - state.esp).toNat =
      (address - (state.esp - 4#32)).toNat - 4 := by
    bv_omega
  have written : (state.push word).mem address = state.mem address :=
    writeWord_outside (by omega)
  rw [written]
  exact pushed.kept address (by omega)

theorem Pushed.congr {other : Cpu} (pushed : Pushed stack mem count state)
    (esp : other.esp = state.esp) (ss : other.ss = state.ss)
    (sameMem : other.mem = state.mem) : Pushed stack mem count other := by
  refine ⟨esp.trans pushed.esp, ss.trans pushed.ss, ?_⟩
  rw [esp, sameMem]
  exact pushed.kept

theorem Pushed.control (pushed : Pushed stack mem count state)
    (eip eflags : BitVec 32) (cs : BitVec 16) :
    Pushed stack mem count
      { state with eip := eip, eflags := eflags, cs := cs } :=
  pushed.congr rfl rfl rfl

theorem Pushed.pusha (pushed : Pushed stack mem count state)
    (room : count < 1000) :
    Pushed stack mem (count + 8) (Newbos.pusha state) :=
  (((((((pushed.push (by omega) state.eax).push (by omega)
    state.ecx).push (by omega) state.edx).push (by omega)
    state.ebx).push (by omega) state.esp).push (by omega)
    state.ebp).push (by omega) state.esi).push (by omega) state.edi

theorem Pushed.run (pushed : Pushed stack mem count state)
    (room : count < 1000) {instruction : Instruction}
    (saves : instruction.saves = true) :
    Pushed stack mem (count + instruction.pushes) (instruction.run state) := by
  cases instruction with
  | cli => exact pushed.congr rfl rfl rfl
  | pushImmediate value => exact pushed.push (by omega) value
  | pusha => exact pushed.pusha room
  | pushSegment segment => exact pushed.push (by omega) _
  | movAx value => exact pushed.congr rfl rfl rfl
  | movSegmentAx segment => cases segment <;> exact pushed.congr rfl rfl rfl
  | pushEsp => exact pushed.push (by omega) state.esp
  | addEsp | popSegment | popa | iret => cases saves

theorem Pushed.runAll (pushed : Pushed stack mem count state)
    {code : List Instruction} (saves : ∀ i ∈ code, i.saves = true)
    (room : count + (code.map Instruction.pushes).sum < 1000) :
    Pushed stack mem (count + (code.map Instruction.pushes).sum)
      (code.foldl Instruction.run state) := by
  induction code generalizing count state with
  | nil => exact pushed
  | cons instruction code induction =>
      rw [List.map_cons, List.sum_cons] at room ⊢
      rw [← Nat.add_assoc]
      have first := pushed.run (by omega)
        (saves instruction List.mem_cons_self)
      exact induction first
        (fun i member => saves i (List.mem_cons_of_mem _ member)) (by omega)

end Pushes

section Entry

variable (platform : Platform) {vector : Nat} (cause : Cause) (cpu : Cpu)

theorem pushed_deliver (vector : Nat) (errorCode : BitVec 32) :
    ∃ count ≤ 6, Pushed (platform.stack cpu) cpu.mem count
      (deliver platform vector errorCode cpu) := by
  have outer : ∃ count ≤ 2, Pushed (platform.stack cpu) cpu.mem count
      (if Cpu.ring cpu.cs ≠ 0#16 then
        { cpu with esp := platform.esp0, ss := platform.ss0 }
          |>.push (cpu.ss.setWidth 32) |>.push cpu.esp
      else cpu) := by
    by_cases user : Cpu.ring cpu.cs ≠ 0#16
    · rw [if_pos user, Platform.stack, if_pos user]
      have none : Pushed (platform.esp0, platform.ss0) cpu.mem 0
          { cpu with esp := platform.esp0, ss := platform.ss0 } :=
        ⟨(BitVec.sub_zero _).symm, rfl, fun _ _ => rfl⟩
      exact ⟨2, Nat.le_refl _, (none.push (by decide) _).push (by decide) _⟩
    · rw [if_neg user, Platform.stack, if_neg user]
      exact ⟨0, Nat.zero_le _, (BitVec.sub_zero _).symm, rfl, fun _ _ => rfl⟩
  obtain ⟨count, small, pushed⟩ := outer
  have addressed := ((pushed.push (by omega) cpu.eflags).push (by omega)
    (cpu.cs.setWidth 32)).push (by omega) cpu.eip
  by_cases coded : pushesErrorCode vector = true
  · refine ⟨count + 1 + 1 + 1 + 1, by omega, ?_⟩
    unfold deliver
    apply Pushed.control
    rw [if_pos coded]
    exact addressed.push (by omega) errorCode
  · refine ⟨count + 1 + 1 + 1, by omega, ?_⟩
    unfold deliver
    apply Pushed.control
    rw [if_neg coded]
    exact addressed

theorem pushed_cause (vector : Nat) :
    ∃ count ≤ 6, Pushed (platform.stack cpu) cpu.mem count
      (cause.deliver platform vector cpu) := by
  cases cause with
  | hardware errorCode => exact pushed_deliver platform cpu vector errorCode
  | instruction =>
      exact pushed_deliver
        { platform with base := fun _ => platform.base vector } cpu 3 0#32

theorem idtGate_pushes :
    ∀ vector < 48,
      (∀ i ∈ (idtGate vector).before, i.saves = true) ∧
        ((idtGate vector).before.map Instruction.pushes).sum ≤ 15 := by
  decide

/-- An entry takes at most 22 words of the stack, and writes nothing else. -/
theorem pushed_enterHandler (valid : vector < 48) :
    ∃ count ≤ 22, Pushed (platform.stack cpu) cpu.mem count
      (enterHandler platform vector cause cpu) := by
  obtain ⟨count, small, pushed⟩ := pushed_cause platform cause cpu vector
  obtain ⟨saves, few⟩ := idtGate_pushes vector valid
  have called := (pushed.runAll saves (by omega)).push (by omega)
    (platform.returnAddress (idtGate vector).callee)
  exact ⟨_, by omega, called⟩

end Entry

/-! ## The stack of the process -/

/-- The task state segment still has the stack that `tss_set_kernel_stack`
stored. -/
def KeepsKernelStack (tss : BitVec 32) (segsel : BitVec 16)
    (vaddr : BitVec 32) (mem : ByteMemory) : Prop :=
  ∃ before, ∀ offset : BitVec 32, 4 ≤ offset.toNat → offset.toNat < 10 →
    mem (tss + offset) = tssSetKernelStack tss segsel vaddr before
      (tss + offset)

theorem KeepsKernelStack.platform {tss vaddr : BitVec 32}
    {segsel : BitVec 16} {mem : ByteMemory}
    (keeps : KeepsKernelStack tss segsel vaddr mem) (limit : BitVec 20)
    (platform : Platform) :
    TaskRegister.platform ⟨tss, limit⟩ mem platform =
      { platform with
        esp0 := vaddr
        ss0 := segsel } := by
  obtain ⟨before, kept⟩ := keeps
  have esp0 : readWord mem (tss + 4#32) =
      readWord (writeWord before (tss + 4#32) vaddr) (tss + 4#32) := by
    apply readWord_congr
    intro offset inside
    rw [BitVec.add_assoc, kept _ (by bv_omega) (by bv_omega),
      tssSetKernelStack, writeHalf_outside]
    bv_omega
  have ss0 : readHalf mem (tss + 8#32) =
      readHalf (tssSetKernelStack tss segsel vaddr before) (tss + 8#32) := by
    apply readHalf_congr
    intro offset inside
    rw [BitVec.add_assoc]
    exact kept _ (by bv_omega) (by bv_omega)
  rw [TaskRegister.platform, esp0, ss0, readWord_writeWord, tssSetKernelStack,
    readHalf_writeHalf]

/-- Every interrupt in user mode, of any of the 48 vectors and by any cause,
switches to the kernel stack of the process that was dispatched last.  All
that the processor and the stub write lies in the page of that stack. -/
theorem user_interrupts_use_kernel_stack {gdtEntries gdtPtr tss : BitVec 32}
    (placed : GdtPlaced gdtEntries gdtPtr) {start after : Cpu}
    {gdtr : TableRegister} {task : TaskRegister}
    (booted : gdtInit gdtEntries gdtPtr tss start = some (gdtr, task, after))
    {page : BitVec 32} (aligned : page.toNat % 4096 = 0) {cpu : Cpu}
    (user : Cpu.ring cpu.cs ≠ 0#16)
    (table : SameTable gdtEntries 6 after.mem cpu.mem)
    (keeps : KeepsKernelStack tss 0x10#16 (page + 4092#32) cpu.mem)
    (platform : Platform) {vector : Nat} (valid : vector < 48)
    (cause : Cause) :
    let entry :=
      enterHandler (task.platform cpu.mem platform) vector cause cpu
    gdtrDescriptor gdtr cpu.mem entry.ss = some (flatSegment 0x2#4 0#2) ∧
      (∃ count ≤ 22, entry.esp = page + 4092#32 - BitVec.ofNat 32 (4 * count)) ∧
      ∀ address : BitVec 32, address.toNat / 4096 ≠ page.toNat / 4096 →
        entry.mem address = cpu.mem address := by
  obtain ⟨rfl, rfl, mem⟩ := gdtInit_some placed booted
  rw [mem] at table
  intro entry
  have stack : Platform.stack (TaskRegister.platform ⟨tss, 103#20⟩ cpu.mem
      platform) cpu = (page + 4092#32, 0x10#16) := by
    rw [keeps.platform, Platform.stack, if_pos user]
  obtain ⟨count, small, pushed⟩ :=
    pushed_enterHandler (TaskRegister.platform ⟨tss, 103#20⟩ cpu.mem platform)
      cause cpu valid
  rw [stack] at pushed
  refine ⟨?_, ⟨count, small, pushed.esp⟩, ?_⟩
  · have ss : entry.ss = 0x10#16 := pushed.ss
    rw [ss, gdtrDescriptor_gdtLoaded table]
    rfl
  · intro address otherPage
    apply pushed.kept
    have range := address.isLt
    have pageRange := page.isLt
    have top : (page + 4092#32).toNat = page.toNat + 4092 := by
      rw [BitVec.toNat_add, BitVec.toNat_ofNat]
      omega
    have esp : entry.esp.toNat = page.toNat + 4092 - 4 * count := by
      rw [pushed.esp, BitVec.toNat_sub, top, BitVec.toNat_ofNat]
      omega
    change 4 * count ≤ (address - entry.esp).toNat
    rw [BitVec.toNat_sub, esp]
    omega

/-- A process that is interrupted by the keyboard, with its kernel stack in
the page at 0xC0200000. -/
def dispatchedCpu : Cpu :=
  { quietCpu with
    cs := 0x1B#16
    mem := tssSetKernelStack 0x100030#32 0x10#16 0xC0200FFC#32
      (gdtLoaded 0x100000#32 0x10A000#32 0x100030#32 quietCpu.mem) }

theorem user_interrupts_use_kernel_stack_keyboard :
    let entry := enterHandler
      (TaskRegister.platform ⟨0x100030#32, 103#20⟩ dispatchedCpu.mem
        quietPlatform) 33 (.hardware 0#32) dispatchedCpu
    entry.mem 0x1000#32 = dispatchedCpu.mem 0x1000#32 := by
  have table : SameTable 0x100000#32 6
      (gdtLoaded 0x100000#32 0x10A000#32 0x100030#32 quietCpu.mem)
      dispatchedCpu.mem := by
    intro offset inside
    have small : offset.toNat < 48 := inside
    change writeHalf (writeWord _ _ _) _ _ _ = _
    rw [writeHalf_outside (by bv_omega), writeWord_outside (by bv_omega)]
  have keeps : KeepsKernelStack 0x100030#32 0x10#16
      (0xC0200000#32 + 4092#32) dispatchedCpu.mem := ⟨_, fun _ _ _ => rfl⟩
  exact (user_interrupts_use_kernel_stack gdtPlaced_oneMib
    (gdtInit_eq gdtPlaced_oneMib quietCpu) (by decide) (by decide) table keeps
    quietPlatform (by decide) (.hardware 0#32)).2.2 0x1000#32 (by decide)

end Newbos
