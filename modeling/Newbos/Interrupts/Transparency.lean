import Newbos.Interrupts.Stubs

/-!
# Transparency of interrupts

The words on the stack are followed from the processor's entry through a stub
to the C function, and back through `iret`.  Every stub but `isr17` shows the
interrupted state to the C function and restores it.
-/

namespace Newbos

/-- The two words pushed when the processor comes from an outer ring. -/
def outerFrame (cpu : Cpu) : List (BitVec 32) :=
  if Cpu.ring cpu.cs ≠ 0#16 then [cpu.esp, cpu.ss.setWidth 32] else []

/-- What the processor pushes, error code apart. -/
def returnFrame (cpu : Cpu) : List (BitVec 32) :=
  [cpu.eip, cpu.cs.setWidth 32, cpu.eflags] ++ outerFrame cpu

/-- What the common part of the stubs pushes when it starts at a stack
pointer. -/
def generalFrame (cpu : Cpu) (esp : BitVec 32) : List (BitVec 32) :=
  [cpu.gs.setWidth 32, cpu.fs.setWidth 32, cpu.es.setWidth 32,
    cpu.ds.setWidth 32, cpu.edi, cpu.esi, cpu.ebp, esp, cpu.ebx, cpu.edx,
    cpu.ecx, cpu.eax]

/-- The stack that an interrupt uses. -/
def Platform.stack (platform : Platform) (cpu : Cpu) : BitVec 32 × BitVec 16 :=
  if Cpu.ring cpu.cs ≠ 0#16 then (platform.esp0, platform.ss0)
  else (cpu.esp, cpu.ss)

/-- A state on the way to the C function: some words are on the stack, and the
other registers still have their interrupted values. -/
structure Saving (platform : Platform) (cpu state : Cpu)
    (words : List (BitVec 32)) : Prop where
  holds : HoldsWords state.mem state.esp words
  esp : state.esp + BitVec.ofNat 32 (4 * words.length) =
    (platform.stack cpu).1
  ss : state.ss = (platform.stack cpu).2
  registers : state =
    { cpu with
      esp := state.esp
      eip := state.eip
      eflags := state.eflags
      cs := state.cs
      ss := state.ss
      mem := state.mem }

/-- All registers agree. -/
def SameRegisters (cpu other : Cpu) : Prop :=
  { cpu with mem := other.mem } = other

/-- A C function returns to its caller and leaves the structure at its
argument as it was. -/
structure ReturnsUnchanged (handler : Cpu → Cpu) (entry : Cpu) : Prop where
  esp : (handler entry).esp = entry.esp + 4#32
  cs : (handler entry).cs = entry.cs
  ss : (handler entry).ss = entry.ss
  fields : ∀ offset : BitVec 32, offset.toNat < sizeofRegistersT →
    (handler entry).mem (readWord entry.mem (entry.esp + 4#32) + offset) =
      entry.mem (readWord entry.mem (entry.esp + 4#32) + offset)

/-- The fields of the structure are the interrupted values, the vector and an
error code.  Nothing is said of `esp`, nor of the two last fields, which the
processor pushes from an outer ring only. -/
structure ShowsInterrupted (fields : RegistersT) (cpu : Cpu) (vector : Nat)
    (errorCode : BitVec 32) : Prop where
  gs : fields.gs = cpu.gs.setWidth 32
  fs : fields.fs = cpu.fs.setWidth 32
  es : fields.es = cpu.es.setWidth 32
  ds : fields.ds = cpu.ds.setWidth 32
  edi : fields.edi = cpu.edi
  esi : fields.esi = cpu.esi
  ebp : fields.ebp = cpu.ebp
  ebx : fields.ebx = cpu.ebx
  edx : fields.edx = cpu.edx
  ecx : fields.ecx = cpu.ecx
  eax : fields.eax = cpu.eax
  interruptNumber : fields.interruptNumber = BitVec.ofNat 32 vector
  errorCode : fields.errorCode = errorCode
  eip : fields.eip = cpu.eip
  cs : fields.cs = cpu.cs.setWidth 32
  eflags : fields.eflags = cpu.eflags

section Push

variable (cpu : Cpu) (word : BitVec 32)

@[simp]
theorem Cpu.push_esp : (cpu.push word).esp = cpu.esp - 4#32 := rfl

@[simp]
theorem Cpu.push_cs : (cpu.push word).cs = cpu.cs := rfl

@[simp]
theorem Cpu.push_ss : (cpu.push word).ss = cpu.ss := rfl

end Push

section Entry

variable {platform : Platform} {cpu state : Cpu} {words : List (BitVec 32)}

theorem Saving.push (saving : Saving platform cpu state words)
    (word : BitVec 32) (room : words.length < 64) :
    Saving platform cpu (state.push word) (word :: words) := by
  refine ⟨saving.holds.push word (by omega), ?_, saving.ss, ?_⟩
  · rw [← saving.esp]
    simp only [Cpu.push, List.length_cons, Nat.mul_succ]
    rw [BitVec.ofNat_add]
    bv_omega
  · rw [Cpu.push]
    rw [saving.registers]

theorem Saving.control (saving : Saving platform cpu state words)
    (eip eflags : BitVec 32) (cs : BitVec 16) :
    Saving platform cpu
      { state with eip := eip, eflags := eflags, cs := cs } words := by
  refine ⟨saving.holds, saving.esp, saving.ss, ?_⟩
  rw [saving.registers]

theorem returnFrame_length (cpu : Cpu) : (returnFrame cpu).length ≤ 5 := by
  unfold returnFrame outerFrame
  split <;> simp

theorem saving_outer (platform : Platform) (cpu : Cpu) :
    Saving platform cpu
      (if Cpu.ring cpu.cs ≠ 0#16 then
        { cpu with esp := platform.esp0, ss := platform.ss0 }
          |>.push (cpu.ss.setWidth 32) |>.push cpu.esp
      else cpu)
      (outerFrame cpu) := by
  by_cases outer : Cpu.ring cpu.cs ≠ 0#16
  · rw [outerFrame, if_pos outer, if_pos outer]
    have start : Saving platform cpu
        { cpu with esp := platform.esp0, ss := platform.ss0 } [] := by
      refine ⟨trivial, ?_, ?_, rfl⟩
      · simp [Platform.stack, outer]
      · simp [Platform.stack, outer]
    exact (start.push _ (by simp)).push _ (by simp)
  · rw [outerFrame, if_neg outer, if_neg outer]
    refine ⟨trivial, ?_, ?_, rfl⟩
    · simp [Platform.stack, outer]
    · simp [Platform.stack, outer]

theorem saving_deliver (platform : Platform) (vector : Nat)
    (errorCode : BitVec 32) (cpu : Cpu) :
    Saving platform cpu (deliver platform vector errorCode cpu)
      ((if pushesErrorCode vector then [errorCode] else []) ++
        returnFrame cpu) := by
  have bound := returnFrame_length cpu
  have outer := saving_outer platform cpu
  have outerBound : (outerFrame cpu).length ≤ 2 := by
    rw [returnFrame, List.length_append] at bound
    exact Nat.le_of_add_le_add_left bound
  have addressed := ((outer.push cpu.eflags (by omega)).push
    (cpu.cs.setWidth 32) (by simp; omega)).push cpu.eip (by simp; omega)
  unfold deliver
  apply Saving.control
  by_cases coded : pushesErrorCode vector = true
  · rw [if_pos coded, if_pos coded]
    exact addressed.push errorCode (by simp; omega)
  · rw [if_neg coded, if_neg coded]
    exact addressed

theorem Saving.cli (saving : Saving platform cpu state words) :
    Saving platform cpu (Instruction.run state .cli) words :=
  saving.control state.eip _ state.cs

theorem saving_withoutErrorCode (common : Stub) (number : BitVec 32)
    (saving : Saving platform cpu state words) (room : words.length < 32) :
    ∃ numbered, Saving platform cpu numbered (number :: 0#32 :: words) ∧
      numbered.cs = state.cs ∧
      (common.withoutErrorCode number).before.foldl Instruction.run state =
        common.before.foldl Instruction.run numbered := by
  have coded := saving.cli.push 0#32 (by omega)
  have numbered := coded.push number (by simp; omega)
  exact ⟨_, numbered, rfl, rfl⟩

theorem saving_withErrorCode (common : Stub) (number : BitVec 32)
    (saving : Saving platform cpu state words) (room : words.length < 32) :
    ∃ numbered, Saving platform cpu numbered (number :: words) ∧
      numbered.cs = state.cs ∧
      (common.withErrorCode number).before.foldl Instruction.run state =
        common.before.foldl Instruction.run numbered := by
  have numbered := saving.cli.push number (by omega)
  exact ⟨_, numbered, rfl, rfl⟩

theorem Saving.pusha (saving : Saving platform cpu state words)
    (room : words.length < 32) :
    Saving platform cpu (Newbos.pusha state)
      ([cpu.edi, cpu.esi, cpu.ebp, state.esp, cpu.ebx, cpu.edx, cpu.ecx,
        cpu.eax] ++ words) := by
  have pushed := (((saving.push state.eax (by omega)).push state.ecx
    (by simp; omega)).push state.edx (by simp; omega)).push state.ebx
    (by simp; omega)
  have pushedAll := (((pushed.push state.esp (by simp; omega)).push state.ebp
    (by simp; omega)).push state.esi (by simp; omega)).push state.edi
    (by simp; omega)
  have words : [state.edi, state.esi, state.ebp, state.esp, state.ebx,
      state.edx, state.ecx, state.eax] = [cpu.edi, cpu.esi, cpu.ebp,
      state.esp, cpu.ebx, cpu.edx, cpu.ecx, cpu.eax] := by
    rw [saving.registers]
  rw [← words]
  exact pushedAll

theorem Saving.pushSegment (saving : Saving platform cpu state words)
    (segment : Segment) (room : words.length < 64) :
    Saving platform cpu (Instruction.run state (.pushSegment segment))
      ((cpu.segment segment).setWidth 32 :: words) := by
  have same : state.segment segment = cpu.segment segment := by
    rw [saving.registers]
    cases segment <;> rfl
  rw [← same]
  exact saving.push _ room

theorem run_loadSegments (saved : Cpu) :
    ∃ call, [Instruction.movAx 0x10#16, .movSegmentAx .ds, .movSegmentAx .es,
        .movSegmentAx .fs, .movSegmentAx .gs, .pushEsp].foldl
        Instruction.run saved = call ∧
      call.mem = writeWord saved.mem (saved.esp - 4#32) saved.esp ∧
      call.esp = saved.esp - 4#32 ∧ call.cs = saved.cs ∧
      call.ss = saved.ss :=
  ⟨_, rfl, rfl, rfl, rfl, rfl⟩

theorem commonStub_before (callee : Callee)
    (saving : Saving platform cpu state words) (room : words.length < 32) :
    ∃ call, (commonStub callee).before.foldl Instruction.run state = call ∧
      HoldsWords call.mem call.esp
        ((call.esp + 4#32) :: (generalFrame cpu state.esp ++ words)) ∧
      call.esp + 52#32 = state.esp ∧
      call.cs = state.cs ∧
      call.ss = state.ss := by
  have general := saving.pusha room
  have segments := (((general.pushSegment .ds (by simp; omega)).pushSegment .es
    (by simp; omega)).pushSegment .fs (by simp; omega)).pushSegment .gs
    (by simp; omega)
  generalize savedEq : Instruction.run (Instruction.run (Instruction.run
    (Instruction.run (pusha state) (.pushSegment .ds)) (.pushSegment .es))
    (.pushSegment .fs)) (.pushSegment .gs) = saved at segments
  have pointer : saved.esp + 48#32 = state.esp := by
    rw [← savedEq]
    simp only [Instruction.run, pusha, Cpu.push_esp]
    bv_omega
  have codeSegment : saved.cs = state.cs := by
    rw [← savedEq]
    simp only [Instruction.run, pusha, Cpu.push_cs]
  have stackSegment : saved.ss = state.ss := by
    rw [← savedEq]
    simp only [Instruction.run, pusha, Cpu.push_ss]
  obtain ⟨call, run, mem, esp, cs, ss⟩ := run_loadSegments saved
  refine ⟨call, ?_, ?_, ?_, by rw [cs, codeSegment], by rw [ss, stackSegment]⟩
  · have started : Instruction.run state .pusha = Newbos.pusha state := rfl
    rw [← run, ← savedEq]
    simp only [commonStub, List.foldl_cons, List.foldl_nil, started]
  · have argument : call.esp + 4#32 = saved.esp := by
      rw [esp, BitVec.sub_add_cancel]
    rw [argument, mem, esp]
    exact segments.holds.push saved.esp (by simp; omega)
  · rw [esp, ← pointer]
    bv_omega

end Entry

section Return

variable {cpu state : Cpu} {words : List (BitVec 32)}

theorem setWidth_selector (selector : BitVec 16) :
    (selector.setWidth 32).setWidth 16 = selector := by
  rw [BitVec.setWidth_setWidth_of_le _ (by decide), BitVec.setWidth_eq]

theorem iret_eip (state : Cpu) : (iret state).eip = state.top := by
  have either : ∀ (outer : Prop) [Decidable outer] (far near : Cpu),
      far.eip = state.top → near.eip = state.top →
      (if outer then far else near).eip = state.top := by
    intro outer _ far near farEip nearEip
    by_cases taken : outer
    · rw [if_pos taken, farEip]
    · rw [if_neg taken, nearEip]
  exact either _ _ _ rfl rfl

theorem iret_restores (inner : Cpu.ring state.cs = 0#16)
    (holds : HoldsWords state.mem state.esp (returnFrame cpu))
    (sameStack : Cpu.ring cpu.cs = 0#16 →
      state.esp + 12#32 = cpu.esp ∧ state.ss = cpu.ss) :
    iret state =
      { state with
        eip := cpu.eip
        cs := cpu.cs
        eflags := cpu.eflags
        esp := cpu.esp
        ss := cpu.ss } := by
  rw [returnFrame] at holds
  simp only [List.cons_append, List.nil_append, HoldsWords,
    BitVec.add_assoc, BitVec.reduceAdd] at holds
  obtain ⟨eipWord, csWord, eflagsWord, outerWords⟩ := holds
  simp only [iret, Cpu.top, Cpu.drop, BitVec.add_assoc, BitVec.reduceAdd,
    eipWord, csWord, eflagsWord, setWidth_selector, inner]
  by_cases outer : Cpu.ring cpu.cs = 0#16
  · obtain ⟨pointer, segment⟩ := sameStack outer
    rw [if_neg (by simp [outer]), pointer, segment]
  · rw [outerFrame, if_pos outer] at outerWords
    simp only [HoldsWords, BitVec.add_assoc, BitVec.reduceAdd] at outerWords
    obtain ⟨espWord, ssWord, _⟩ := outerWords
    rw [if_pos (by bv_omega), espWord, ssWord, setWidth_selector]

/-- The common part, from the return of the C function to `iret`. -/
theorem commonStub_after (callee : Callee) {esp number code : BitVec 32}
    (holds : HoldsWords state.mem (state.esp + 4#32)
      (generalFrame cpu esp ++ number :: code :: words)) :
    (commonStub callee).after.foldl Instruction.run state =
        iret { cpu with
          esp := state.esp + 60#32
          eip := state.eip
          eflags := state.eflags
          cs := state.cs
          ss := state.ss
          mem := state.mem } ∧
      HoldsWords state.mem (state.esp + 60#32) words := by
  simp only [generalFrame, List.cons_append, List.nil_append, HoldsWords,
    BitVec.add_assoc, BitVec.reduceAdd] at holds
  obtain ⟨gsWord, fsWord, esWord, dsWord, ediWord, esiWord, ebpWord, _,
    ebxWord, edxWord, ecxWord, eaxWord, _, _, rest⟩ := holds
  refine ⟨?_, rest⟩
  simp only [commonStub, List.foldl_cons, List.foldl_nil, Instruction.run,
    popa, Cpu.top, Cpu.drop, Cpu.setSegment, BitVec.add_assoc,
    BitVec.reduceAdd, gsWord, fsWord, esWord, dsWord, ediWord, esiWord,
    ebpWord, ebxWord, edxWord, ecxWord, eaxWord, setWidth_selector]

end Return

section Whole

variable {platform : Platform} {cpu numbered : Cpu} {stub : Stub}
  {vector : Nat} {errorCode number code : BitVec 32}
  {words : List (BitVec 32)}

/-- What is on the stack at the first instruction of the C function, for a
stub that reaches the common part with its number and a code on top. -/
theorem inHandler_frame
    (saving : Saving platform cpu numbered (number :: code :: words))
    (room : words.length < 8)
    (before : stub.before.foldl Instruction.run
      (deliver platform vector errorCode cpu) =
        (commonStub stub.callee).before.foldl Instruction.run numbered)
    {entry : Cpu}
    (entered : stub.inHandler platform vector errorCode cpu = entry) :
    readWord entry.mem (entry.esp + 4#32) = entry.esp + 8#32 ∧
      HoldsWords entry.mem (entry.esp + 8#32)
        (generalFrame cpu numbered.esp ++ number :: code :: words) ∧
      entry.esp + 56#32 = numbered.esp ∧
      entry.cs = numbered.cs ∧ entry.ss = numbered.ss := by
  obtain ⟨call, run, holds, pointer, codeSegment, stackSegment⟩ :=
    commonStub_before stub.callee saving (by simp; omega)
  have pushed := holds.push (platform.returnAddress stub.callee)
    (by simp [generalFrame]; omega)
  have called : entry = call.push (platform.returnAddress stub.callee) := by
    rw [← entered, Stub.inHandler, Stub.atCall, before, run]
  have above : entry.esp + 8#32 = call.esp + 4#32 := by
    rw [called, Cpu.push_esp]
    bv_omega
  obtain ⟨_, argument, rest⟩ := pushed
  rw [BitVec.sub_add_cancel] at argument rest
  have slot : entry.esp + 4#32 = call.esp := by
    rw [called, Cpu.push_esp, BitVec.sub_add_cancel]
  refine ⟨?_, ?_, ?_, ?_, ?_⟩
  · rw [slot, above, called]
    exact argument
  · rw [above, called]
    exact rest
  · rw [← pointer, called, Cpu.push_esp]
    bv_omega
  · rw [called, Cpu.push_cs, codeSegment]
  · rw [called, Cpu.push_ss, stackSegment]

theorem registersAt_shows {mem : ByteMemory} {regs esp : BitVec 32}
    (holds : HoldsWords mem regs
      (generalFrame cpu esp ++ BitVec.ofNat 32 vector :: code ::
        returnFrame cpu)) :
    ShowsInterrupted (registersAt mem regs) cpu vector code ∧
      (registersAt mem regs).esp = esp := by
  refine ⟨⟨?_, ?_, ?_, ?_, ?_, ?_, ?_, ?_, ?_, ?_, ?_, ?_, ?_, ?_, ?_, ?_⟩,
    ?_⟩
  all_goals exact holds.get rfl

theorem afterIret_frame {handlers : Callee → Cpu → Cpu} {entry : Cpu}
    {esp : BitVec 32}
    (entered : stub.inHandler platform vector errorCode cpu = entry)
    (after : stub.after = (commonStub stub.callee).after)
    (argument : readWord entry.mem (entry.esp + 4#32) = entry.esp + 8#32)
    (holds : HoldsWords entry.mem (entry.esp + 8#32)
      (generalFrame cpu esp ++ number :: code :: words))
    (short : words.length ≤ 5)
    (unchanged : ReturnsUnchanged (handlers stub.callee) entry) :
    ∃ back : Cpu,
      stub.afterIret platform handlers vector errorCode cpu = iret back ∧
      HoldsWords back.mem back.esp words ∧
      back.esp = entry.esp + 64#32 ∧ back.cs = entry.cs ∧
      back.ss = entry.ss ∧
      back = { cpu with
        esp := back.esp
        eip := back.eip
        eflags := back.eflags
        cs := back.cs
        ss := back.ss
        mem := back.mem } := by
  have kept : HoldsWords (handlers stub.callee entry).mem
      ((handlers stub.callee entry).esp + 4#32)
      (generalFrame cpu esp ++ number :: code :: words) := by
    have place : (handlers stub.callee entry).esp + 4#32 =
        entry.esp + 8#32 := by
      rw [unchanged.esp]
      bv_omega
    have fields := unchanged.fields
    rw [argument] at fields
    rw [place]
    apply holds.congr
    · simp [generalFrame]
      omega
    · intro offset inside
      apply fields offset
      simp only [generalFrame, List.cons_append, List.nil_append,
        List.length_cons] at inside
      rw [sizeofRegistersT]
      omega
  obtain ⟨restored, rest⟩ := commonStub_after stub.callee kept
  refine ⟨{ cpu with
      esp := (handlers stub.callee entry).esp + 60#32
      eip := (handlers stub.callee entry).eip
      eflags := (handlers stub.callee entry).eflags
      cs := (handlers stub.callee entry).cs
      ss := (handlers stub.callee entry).ss
      mem := (handlers stub.callee entry).mem },
    ?_, rest, ?_, unchanged.cs, unchanged.ss, rfl⟩
  · rw [Stub.afterIret, entered, after]
    exact restored
  · rw [unchanged.esp]
    bv_omega

end Whole

/-- The stub that a vector should have. -/
def transparentStub (vector : Nat) : Stub :=
  let common :=
    commonStub (if vector < 32 then .interruptHandler else .irqHandler)
  if pushesErrorCode vector then
    common.withErrorCode (BitVec.ofNat 32 vector)
  else common.withoutErrorCode (BitVec.ofNat 32 vector)

theorem transparentStub_callee (vector : Nat) :
    (transparentStub vector).callee =
      if vector < 32 then .interruptHandler else .irqHandler := by
  by_cases coded : pushesErrorCode vector = true
  · rw [transparentStub, if_pos coded]
    rfl
  · rw [transparentStub, if_neg coded]
    rfl

theorem transparentStub_after (vector : Nat) :
    (transparentStub vector).after =
      (commonStub (transparentStub vector).callee).after := by
  by_cases coded : pushesErrorCode vector = true
  · rw [transparentStub, if_pos coded]
    rfl
  · rw [transparentStub, if_neg coded]
    rfl

theorem idtGate_eq_transparentStub :
    ∀ vector < 48, vector ≠ 17 → idtGate vector = transparentStub vector := by
  decide

/-- A transparent stub reaches the common part with its vector and the error
code, or 0, on top of the processor's words. -/
theorem saving_transparentStub (platform : Platform) (vector : Nat)
    (errorCode : BitVec 32) (cpu : Cpu) :
    ∃ numbered,
      Saving platform cpu numbered
        (BitVec.ofNat 32 vector ::
          (if pushesErrorCode vector then errorCode else 0#32) ::
          returnFrame cpu) ∧
      numbered.cs = 0x08#16 ∧
      (transparentStub vector).before.foldl Instruction.run
        (deliver platform vector errorCode cpu) =
          (commonStub (transparentStub vector).callee).before.foldl
            Instruction.run numbered := by
  have delivered := saving_deliver platform vector errorCode cpu
  have bound := returnFrame_length cpu
  by_cases coded : pushesErrorCode vector = true
  · rw [if_pos coded] at delivered
    obtain ⟨numbered, saving, codeSegment, run⟩ := saving_withErrorCode
      (commonStub (if vector < 32 then .interruptHandler else .irqHandler))
      (BitVec.ofNat 32 vector) delivered (by simp; omega)
    refine ⟨numbered, ?_, codeSegment, ?_⟩
    · rw [if_pos coded]
      exact saving
    · rw [transparentStub, if_pos coded]
      exact run
  · rw [if_neg coded] at delivered
    obtain ⟨numbered, saving, codeSegment, run⟩ := saving_withoutErrorCode
      (commonStub (if vector < 32 then .interruptHandler else .irqHandler))
      (BitVec.ofNat 32 vector) delivered (by simp; omega)
    refine ⟨numbered, ?_, codeSegment, ?_⟩
    · rw [if_neg coded]
      exact saving
    · rw [transparentStub, if_neg coded]
      exact run

/-- Through every stub but `isr17` the C function sees the interrupted state,
and `iret` goes back to it when the structure is left unchanged.  The `esp`
field is the stack pointer at `pusha`, the address of `interrupt_number`. -/
theorem interrupts_transparent (platform : Platform) (vector : Nat)
    (valid : vector < 48) (notAlignment : vector ≠ 17)
    (errorCode : BitVec 32) (cpu : Cpu) :
    let stub := idtGate vector
    let entry := stub.inHandler platform vector errorCode cpu
    let regs := readWord entry.mem (entry.esp + 4#32)
    stub.callee =
        (if vector < 32 then Callee.interruptHandler else .irqHandler) ∧
      ShowsInterrupted (registersAt entry.mem regs) cpu vector
        (if pushesErrorCode vector then errorCode else 0#32) ∧
      (registersAt entry.mem regs).esp = regs + 48#32 ∧
      ∀ handlers : Callee → Cpu → Cpu,
        ReturnsUnchanged (handlers stub.callee) entry →
        SameRegisters
          (stub.afterIret platform handlers vector errorCode cpu) cpu := by
  intro stub entry regs
  have gate : stub = transparentStub vector :=
    idtGate_eq_transparentStub vector valid notAlignment
  have callee := transparentStub_callee vector
  have after := transparentStub_after vector
  obtain ⟨numbered, saving, codeSegment, before⟩ :=
    saving_transparentStub platform vector errorCode cpu
  rw [← gate] at callee after before
  have bound := returnFrame_length cpu
  obtain ⟨argument, holds, pointer, entryCode, entryStack⟩ :=
    inHandler_frame saving (by omega) before (rfl : _ = entry)
  have place : regs = entry.esp + 8#32 := argument
  obtain ⟨shows, espField⟩ := registersAt_shows holds
  refine ⟨callee, ?_, ?_, ?_⟩
  · rw [place]
    exact shows
  · rw [place, espField, ← pointer]
    bv_omega
  · intro handlers unchanged
    obtain ⟨back, restored, rest, backEsp, backCs, backSs, registers⟩ :=
      afterIret_frame (rfl : _ = entry) after argument holds bound unchanged
    have inner : Cpu.ring back.cs = 0#16 := by
      rw [backCs, entryCode, codeSegment]
      rfl
    have sameStack : Cpu.ring cpu.cs = 0#16 →
        back.esp + 12#32 = cpu.esp ∧ back.ss = cpu.ss := by
      intro kernel
      have start := saving.esp
      have segment := saving.ss
      simp only [returnFrame, outerFrame, Platform.stack, kernel, ne_eq,
        not_true_eq_false, if_false, List.append_nil, List.length_cons,
        List.length_nil] at start segment
      refine ⟨?_, ?_⟩
      · rw [← start, ← pointer, backEsp]
        bv_omega
      · rw [backSs, entryStack, segment]
    rw [SameRegisters, restored, iret_restores inner rest sameStack,
      registers]

/-- A platform, and an interrupted state in which all registers are zero. -/
def quietPlatform : Platform :=
  { esp0 := 0x1000#32
    ss0 := 0x10#16
    base := fun _ => 0#32
    returnAddress := fun _ => 0#32 }

def quietCpu : Cpu :=
  { eax := 0, ecx := 0, edx := 0, ebx := 0, esp := 0, ebp := 0, esi := 0,
    edi := 0, eip := 0, eflags := 0, cs := 0, ds := 0, es := 0, fs := 0,
    gs := 0, ss := 0, mem := fun _ => 0 }

theorem returnsUnchanged_drop (entry : Cpu) :
    ReturnsUnchanged Cpu.drop entry :=
  ⟨rfl, rfl, rfl, fun _ _ => rfl⟩

theorem interrupts_transparent_quiet :
    let entry := (idtGate 13).inHandler quietPlatform 13 5#32 quietCpu
    ShowsInterrupted
        (registersAt entry.mem (readWord entry.mem (entry.esp + 4#32)))
        quietCpu 13 5#32 ∧
      SameRegisters
        ((idtGate 13).afterIret quietPlatform (fun _ => Cpu.drop) 13 5#32
          quietCpu) quietCpu := by
  obtain ⟨_, shows, _, restores⟩ := interrupts_transparent quietPlatform 13
    (by decide) (by decide) 5#32 quietCpu
  have coded : (if pushesErrorCode 13 then 5#32 else 0#32) = 5#32 := rfl
  rw [coded] at shows
  exact ⟨shows, restores (fun _ => Cpu.drop) (returnsUnchanged_drop _)⟩

/-- The `esp` field is not the interrupted stack pointer. -/
theorem interrupt_esp_field_moved :
    let entry := (idtGate 0).inHandler quietPlatform 0 0#32 quietCpu
    (registersAt entry.mem (readWord entry.mem (entry.esp + 4#32))).esp ≠
      quietCpu.esp := by
  decide +kernel

/-- `isr17` pushes a 0 above the error code that the processor pushes.  The
frame is shifted by a word: the C function sees the error code as `eip`, and
`iret` jumps to it. -/
theorem isr17_shifts_frame (platform : Platform) (errorCode : BitVec 32)
    (cpu : Cpu) :
    let entry := isr17.inHandler platform 17 errorCode cpu
    let regs := readWord entry.mem (entry.esp + 4#32)
    (registersAt entry.mem regs).errorCode = 0#32 ∧
      (registersAt entry.mem regs).eip = errorCode ∧
      ∀ handlers : Callee → Cpu → Cpu,
        ReturnsUnchanged (handlers isr17.callee) entry →
        (isr17.afterIret platform handlers 17 errorCode cpu).eip =
          errorCode := by
  intro entry regs
  have delivered := saving_deliver platform 17 errorCode cpu
  have bound := returnFrame_length cpu
  rw [if_pos (by decide)] at delivered
  obtain ⟨numbered, saving, codeSegment, before⟩ := saving_withoutErrorCode
    isrCommonStub 17#32 delivered (by simp; omega)
  have started : isr17.before.foldl Instruction.run
      (deliver platform 17 errorCode cpu) =
        (commonStub isr17.callee).before.foldl Instruction.run numbered :=
    before
  obtain ⟨argument, holds, _, _, _⟩ := inHandler_frame saving
    (by simp; omega) started (rfl : _ = entry)
  have place : regs = entry.esp + 8#32 := argument
  refine ⟨?_, ?_, ?_⟩
  · rw [place]
    exact holds.get rfl
  · rw [place]
    exact holds.get rfl
  · intro handlers unchanged
    have shown : HoldsWords entry.mem (entry.esp + 8#32)
        (generalFrame cpu numbered.esp ++ 17#32 :: 0#32 :: [errorCode]) := by
      have split : generalFrame cpu numbered.esp ++ 17#32 :: 0#32 ::
          ([errorCode] ++ returnFrame cpu) =
          (generalFrame cpu numbered.esp ++ 17#32 :: 0#32 :: [errorCode]) ++
            returnFrame cpu := rfl
      rw [split] at holds
      exact holds.append_left
    obtain ⟨back, restored, ⟨popped, _⟩, _⟩ := afterIret_frame
      (rfl : _ = entry) rfl argument shown (by simp) unchanged
    rw [restored, iret_eip]
    exact popped

end Newbos
