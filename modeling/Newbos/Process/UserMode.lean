import Newbos.Process.Restore
import Newbos.Segments.TaskState

/-!
# The way back from `run_process_in_user_mode`

In place of `iret` the function drops the words for it and returns, so that
the kernel goes on behind the call with the context of the process.
-/

namespace Newbos

/-- `pop %eax`. -/
def popEax (cpu : Cpu) : Cpu :=
  { cpu with eax := cpu.top }.drop

/-- `ret`. -/
def ret (cpu : Cpu) : Cpu :=
  { cpu with eip := cpu.top }.drop

/-- `run_process_in_user_mode`, from the call to its return. -/
def runProcessReturned (cpu : Cpu) : Cpu :=
  ret (popEax (popEax (popEax (popEax (popEax (atTransfer cpu))))))

/-- Data can be written through the segment. -/
def Descriptor.writable (descriptor : Descriptor) : Bool :=
  descriptor.present && descriptor.isSegment &&
    !descriptor.type.getLsbD 3 && descriptor.type.getLsbD 1

section Return

variable {cpu : Cpu} {address : BitVec 32} {registers : Registers}

/-- The words for `iret` are the only ones that are written. -/
theorem pushed_returnPushed (cpu : Cpu) (registers : Registers) :
    Pushed (cpu.esp, cpu.ss) cpu.mem 5 (returnPushed cpu registers) := by
  have none : Pushed (cpu.esp, cpu.ss) cpu.mem 0 cpu :=
    ⟨(BitVec.sub_zero _).symm, rfl, fun _ _ => rfl⟩
  exact ((((none.push (by decide) _).push (by decide) _).push (by decide)
    _).push (by decide) _).push (by decide) _

theorem returnPushed_eq {other : Cpu} (esp : other.esp = cpu.esp)
    (sameMem : other.mem = cpu.mem) :
    returnPushed other registers =
      { other with
        esp := (returnPushed cpu registers).esp
        mem := (returnPushed cpu registers).mem } := by
  simp only [returnPushed, Cpu.push, esp, sameMem]

/-- The five words are dropped through `eax`. -/
theorem popEax_five (state : Cpu) :
    popEax (popEax (popEax (popEax (popEax state)))) =
      { state with
        eax := readWord state.mem (state.esp + 16#32)
        esp := state.esp + 20#32 } := by
  simp only [popEax, Cpu.top, Cpu.drop, BitVec.add_assoc, BitVec.reduceAdd]

theorem CalledWith.runProcessReturned_eq
    (called : CalledWith cpu address registers) :
    runProcessReturned cpu =
      { registersLoaded cpu registers with
        eax := BitVec.ofNat 32 registers.ss
        eip := cpu.top
        esp := cpu.esp + 4#32
        eflags := cpu.eflags &&& ~~~0x200#32
        ds := 0x18#16
        es := 0x18#16
        fs := 0x18#16
        gs := 0x18#16
        mem := (returnPushed cpu registers).mem } := by
  have pushed := pushed_returnPushed cpu registers
  have holds := returnPushed_holds cpu registers
  have ss : readWord (returnPushed cpu registers).mem
      ((returnPushed cpu registers).esp + 16#32) =
        BitVec.ofNat 32 registers.ss :=
    @HoldsWords.get _ _ _ holds 4 _ rfl
  have esp : (returnPushed cpu registers).esp + 20#32 = cpu.esp := by
    rw [pushed.esp]
    exact BitVec.sub_add_cancel _ _
  have caller : readWord (returnPushed cpu registers).mem cpu.esp =
      cpu.top := by
    apply readWord_congr
    intro offset inside
    apply pushed.kept
    rw [pushed.esp]
    bv_omega
  have before :
      returnPushed (registersLoaded (fetchArgument cpu) registers) registers =
        { registersLoaded (fetchArgument cpu) registers with
          esp := (returnPushed cpu registers).esp
          mem := (returnPushed cpu registers).mem } :=
    @returnPushed_eq cpu registers _ rfl rfl
  rw [runProcessReturned, popEax_five, called.atTransfer_eq, before]
  simp only [RestoreInstruction.run, Cpu.setRegister, segmentsLoaded, ret,
    registersLoaded, fetchArgument, Cpu.top, Cpu.drop, ss, esp, caller]

end Return

/-- The process is never entered: the function returns to its caller in the
same ring and on the same stack, with the registers of the process.
Interrupts stay disabled, and nothing can be written through `ds` any more,
which names the code segment of user mode as the other three data segments
do. -/
theorem run_process_in_user_mode_returns {gdtEntries gdtPtr tss : BitVec 32}
    (placed : GdtPlaced gdtEntries gdtPtr) {start booted : Cpu}
    {gdtr : TableRegister} {task : TaskRegister}
    (boot : gdtInit gdtEntries gdtPtr tss start = some (gdtr, task, booted))
    {cpu : Cpu} {address : BitVec 32} {registers : Registers}
    (called : CalledWith cpu address registers) :
    let after := runProcessReturned cpu
    after.eip = cpu.top ∧ after.esp = cpu.esp + 4#32 ∧ after.cs = cpu.cs ∧
      after.ss = cpu.ss ∧ after.eax = BitVec.ofNat 32 registers.ss ∧
      after.ebx = BitVec.ofNat 32 registers.ebx ∧
      after.ecx = BitVec.ofNat 32 registers.ecx ∧
      after.edx = BitVec.ofNat 32 registers.edx ∧
      after.ebp = BitVec.ofNat 32 registers.ebp ∧
      after.esi = BitVec.ofNat 32 registers.esi ∧
      after.edi = BitVec.ofNat 32 registers.edi ∧
      after.eflags.getLsbD 9 = false ∧
      (∀ target, 20 ≤ (target - (cpu.esp - 20#32)).toNat →
        after.mem target = cpu.mem target) ∧
      ∀ segment, SameTable gdtEntries 6 booted.mem after.mem →
        ∃ descriptor,
          gdtrDescriptor gdtr after.mem (after.segment segment) =
            some descriptor ∧ descriptor.writable = false := by
  intro after
  have returned : after = _ := called.runProcessReturned_eq
  have pushed := pushed_returnPushed cpu registers
  have selector (segment : Segment) : after.segment segment = 0x18#16 := by
    rw [returned]
    cases segment <;> rfl
  obtain ⟨rfl, _, mem⟩ := gdtInit_some placed boot
  rw [mem]
  refine ⟨?_, ?_, ?_, ?_, ?_, ?_, ?_, ?_, ?_, ?_, ?_, ?_, ?_, ?_⟩
  · rw [returned]
  · rw [returned]
  · rw [returned]
    rfl
  · rw [returned]
    rfl
  · rw [returned]
  iterate 6
    · rw [returned]
      rfl
  · rw [returned]
    simp
  · intro target outside
    rw [returned]
    apply pushed.kept
    rw [pushed.esp]
    exact outside
  · intro segment table
    refine ⟨flatSegment 0xA#4 3#2, ?_, rfl⟩
    rw [selector, gdtrDescriptor_gdtLoaded table]
    rfl

/-- A context at 0xC0200000, with the stack in the page at 0xC0107000. -/
theorem run_process_in_user_mode_returns_sample :
    let cpu := sampleCall 0xC0200000#32
    (runProcessReturned cpu).eip = cpu.top ∧
      (runProcessReturned cpu).eflags.getLsbD 9 = false := by
  obtain ⟨eip, _, _, _, _, _, _, _, _, _, _, interrupts, _⟩ :=
    run_process_in_user_mode_returns gdtPlaced_oneMib
      (@gdtInit_eq _ _ 0x100030#32 gdtPlaced_oneMib quietCpu)
      (sampleCall_calledWith (Or.inl rfl))
  exact ⟨eip, interrupts⟩

end Newbos
