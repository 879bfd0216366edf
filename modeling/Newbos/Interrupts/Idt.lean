import Newbos.Interrupts.Transparency
import Newbos.Library.Table
import Newbos.Strings

/-!
# The interrupt descriptor table

`clear_idt`, `init_isr` and `init_irq` fill a table in memory, and `idt_flush`
tells the processor where it is.  The processor takes an entry apart when an
interrupt comes; `int` instructions of user code come through the same gates,
but without an error code.
-/

namespace Newbos

/-! ## The code -/

/-- The memory of the processor, as the string functions see it. -/
def bytesOf (mem : ByteMemory) : Nat → UInt8 :=
  fun address => ⟨mem (BitVec.ofNat 32 address)⟩

def memoryOf (bytes : Nat → UInt8) : ByteMemory :=
  fun address => (bytes address.toNat).toBitVec

/-- `idt_entry_t`. -/
structure IdtEntry where
  baseLo : BitVec 16
  selector : BitVec 16
  always0 : BitVec 8
  flags : BitVec 8
  baseHi : BitVec 16
  deriving DecidableEq, Repr

/-- The two words of a packed entry. -/
def IdtEntry.words (entry : IdtEntry) : BitVec 32 × BitVec 32 :=
  (entry.selector ++ entry.baseLo,
    entry.baseHi ++ entry.flags ++ entry.always0)

/-- `sizeof(idt_entry_t)`. -/
abbrev sizeofIdtEntry : Nat := 8

/-- What `idt_set_gate` stores. -/
def idtEntry (base : BitVec 32) (selector : BitVec 16) (flags : BitVec 8) :
    IdtEntry where
  baseLo := (base &&& 0xFFFF#32).setWidth 16
  baseHi := ((base >>> 16) &&& 0xFFFF#32).setWidth 16
  selector := selector
  always0 := 0#8
  flags := flags ||| 0x60#8

/-- `idt_set_gate`; `idtEntries` is the address of the array. -/
def idtSetGate (idtEntries : BitVec 32) (number : Nat) (base : BitVec 32)
    (selector : BitVec 16) (flags : BitVec 8) (mem : ByteMemory) :
    ByteMemory :=
  writeSlot idtEntries number (idtEntry base selector flags).words mem

/-- `clear_idt`; `idtPtr` is the address of `idt_ptr`. -/
def clearIdt (idtEntries idtPtr : BitVec 32) (mem : ByteMemory) :
    ByteMemory :=
  let mem := storeTable idtPtr (BitVec.ofNat 16 (sizeofIdtEntry * 256 - 1))
    idtEntries mem
  memoryOf (memset idtEntries.toNat 0 (sizeofIdtEntry * 256) (bytesOf mem)).2

/-- The gates from number `first` on, as `init_isr` and `init_irq` set them
one by one. -/
def setGates (idtEntries : BitVec 32) (base : Nat → BitVec 32) (first : Nat) :
    Nat → ByteMemory → ByteMemory
  | 0, mem => mem
  | count + 1, mem =>
      idtSetGate idtEntries (first + count) (base count) 0x08#16 0x8E#8
        (setGates idtEntries base first count mem)

/-- The gates of `init_isr`, to `isr0` and those that follow. -/
def initIsrGates (idtEntries : BitVec 32) (isr : Nat → BitVec 32) :
    ByteMemory → ByteMemory :=
  setGates idtEntries isr 0 32

/-- The gates of `init_irq`, to `irq0` and those that follow. -/
def initIrqGates (idtEntries : BitVec 32) (irq : Nat → BitVec 32) :
    ByteMemory → ByteMemory :=
  setGates idtEntries irq 32 16

/-- `idt_flush`. -/
def idtFlush (idtPtr : BitVec 32) (mem : ByteMemory) : TableRegister :=
  loadTable idtPtr mem

/-- The memory in which `kernel_main` enables interrupts. -/
def idtMemory (idtEntries idtPtr : BitVec 32) (isr irq : Nat → BitVec 32)
    (mem : ByteMemory) : ByteMemory :=
  initIrqGates idtEntries irq
    (initIsrGates idtEntries isr (clearIdt idtEntries idtPtr mem))

/-- The address in each gate. -/
def stubAddress (isr irq : Nat → BitVec 32) (vector : Nat) : BitVec 32 :=
  if vector < 32 then isr vector else irq (vector - 32)

/-! ## The processor -/

/-- A gate, as the processor takes it apart. -/
structure Gate where
  offset : BitVec 32
  selector : BitVec 16
  type : BitVec 5
  privilege : BitVec 2
  present : Bool
  deriving DecidableEq, Repr

def Gate.ofWords (words : BitVec 32 × BitVec 32) : Gate where
  offset := words.2.extractLsb' 16 16 ++ words.1.extractLsb' 0 16
  selector := words.1.extractLsb' 16 16
  type := words.2.extractLsb' 8 5
  privilege := words.2.extractLsb' 13 2
  present := words.2.getLsbD 15

/-- The gate of a vector, inside the table's limit. -/
def idtrGate (idtr : TableRegister) (mem : ByteMemory) (vector : Nat) :
    Option Gate :=
  if sizeofIdtEntry * vector + 7 ≤ idtr.limit.toNat then
    some (Gate.ofWords (readSlot mem idtr.base vector))
  else none

/-- What raises an interrupt: the hardware, or an `int` instruction. -/
inductive Cause where
  | hardware (errorCode : BitVec 32)
  | instruction
  deriving DecidableEq, Repr

/-- The entry by an `int` instruction.  No error code is pushed for it, as for
vector 3. -/
def deliverInstruction (platform : Platform) (vector : Nat) (cpu : Cpu) :
    Cpu :=
  deliver { platform with base := fun _ => platform.base vector } 3 0#32 cpu

def Cause.deliver (platform : Platform) (vector : Nat) (cpu : Cpu) :
    Cause → Cpu
  | .hardware errorCode => Newbos.deliver platform vector errorCode cpu
  | .instruction => deliverInstruction platform vector cpu

/-- A gate lets an instruction through from rings up to its own. -/
def Gate.Allows (gate : Gate) (cpu : Cpu) : Cause → Prop
  | .hardware _ => True
  | .instruction => (Cpu.ring cpu.cs).toNat ≤ gate.privilege.toNat

instance (gate : Gate) (cpu : Cpu) (cause : Cause) :
    Decidable (gate.Allows cpu cause) :=
  match cause with
  | .hardware _ => .isTrue trivial
  | .instruction => inferInstanceAs (Decidable (_ ≤ _))

/-- The type of a 32-bit interrupt gate. -/
abbrev interruptGateType : BitVec 5 := 0x0E#5

/-- How the processor comes from an interrupted state to the first instruction
of a stub; `none` when the gate is none that it may enter. -/
def enterInterrupt (idtr : TableRegister) (platform : Platform) (vector : Nat)
    (cause : Cause) (cpu : Cpu) : Option Cpu :=
  (idtrGate idtr cpu.mem vector).bind fun gate =>
    if gate.present = true ∧ gate.type = interruptGateType ∧
        gate.Allows cpu cause then
      some { cause.deliver { platform with base := fun _ => gate.offset }
        vector cpu with cs := gate.selector }
    else none

/-! ## The table in memory -/

/-- The gate that `idt_set_gate` makes of a stub's address. -/
def stubGate (base : BitVec 32) : Gate where
  offset := base
  selector := 0x08#16
  type := interruptGateType
  privilege := 3#2
  present := true

theorem idtEntry_gate (base : BitVec 32) :
    Gate.ofWords (idtEntry base 0x08#16 0x8E#8).words = stubGate base := by
  have mask (value : BitVec 32) :
      (value &&& 0xFFFF#32).setWidth 16 = value.setWidth 16 := by
    rw [BitVec.setWidth_and]
    exact BitVec.and_allOnes
  have flags : 0x8E#8 ||| 0x60#8 = 0xEE#8 := rfl
  simp only [idtEntry, IdtEntry.words, mask, flags, Gate.ofWords, stubGate,
    Gate.mk.injEq]
  refine ⟨?_, ?_, ?_, ?_, ?_⟩
  · rw [BitVec.extractLsb'_append_eq_of_le (by decide),
      BitVec.extractLsb'_append_eq_left, BitVec.extractLsb'_append_eq_right,
      BitVec.setWidth_ushiftRight_eq_extractLsb,
      BitVec.setWidth_eq_extractLsb' (by decide)]
    exact BitVec.extractLsb'_append_extractLsb'
  · exact BitVec.extractLsb'_append_eq_left
  · rw [BitVec.extractLsb'_append_eq_of_le (by decide),
      BitVec.extractLsb'_append_eq_of_add_le (by decide)]
    rfl
  · rw [BitVec.extractLsb'_append_eq_of_le (by decide),
      BitVec.extractLsb'_append_eq_of_add_le (by decide)]
    rfl
  · rw [BitVec.getLsbD_append, BitVec.getLsbD_append]
    rfl

section Table

variable {idtEntries idtPtr : BitVec 32} {base isr irq : Nat → BitVec 32}
  {first count index : Nat} {mem : ByteMemory}

theorem readSlot_setGates (range : first + count ≤ 256)
    (small : index < 256) :
    readSlot (setGates idtEntries base first count mem) idtEntries index =
      if first ≤ index ∧ index < first + count then
        (idtEntry (base (index - first)) 0x08#16 0x8E#8).words
      else readSlot mem idtEntries index := by
  induction count with
  | zero =>
      rw [setGates, if_neg (by omega)]
  | succ count induction =>
      rw [setGates, idtSetGate]
      by_cases last : index = first + count
      · subst last
        rw [readSlot_writeSlot, if_pos (by omega), Nat.add_sub_cancel_left]
      · rw [readSlot_writeSlot_other (by omega) (by omega) last,
          induction (by omega)]
        have same : (first ≤ index ∧ index < first + count) ↔
            first ≤ index ∧ index < first + (count + 1) := by omega
        simp only [same]

theorem setGates_outside (range : first + count ≤ 256) {offset : BitVec 32}
    (outside : 2048 ≤ offset.toNat) :
    setGates idtEntries base first count mem (idtEntries + offset) =
      mem (idtEntries + offset) := by
  induction count with
  | zero => rfl
  | succ count induction =>
      rw [setGates, idtSetGate,
        writeSlot_outside (show first + count < 256 by omega) (by decide)
          outside]
      exact induction (by omega)

/-- Where the linker has put `idt_entries` and `idt_ptr`. -/
structure IdtPlaced (idtEntries idtPtr : BitVec 32) : Prop where
  entries : idtEntries.toNat + 2048 ≤ 4294967296
  ptr : idtPtr.toNat + 6 ≤ 4294967296
  apart : idtPtr.toNat + 6 ≤ idtEntries.toNat ∨
    idtEntries.toNat + 2048 ≤ idtPtr.toNat

/-- `clear_idt` clears the table, and writes no other byte but those of
`idt_ptr`. -/
theorem clearIdt_apply (placed : IdtPlaced idtEntries idtPtr)
    (address : BitVec 32) :
    clearIdt idtEntries idtPtr mem address =
      if idtEntries.toNat ≤ address.toNat ∧
          address.toNat < idtEntries.toNat + 2048 then 0#8
      else storeTable idtPtr 2047#16 idtEntries mem address := by
  have limit : BitVec.ofNat 16 (2048 - 1) = 2047#16 := rfl
  have size : sizeofIdtEntry * 256 = 2048 := rfl
  simp only [clearIdt, size, limit, memoryOf]
  rw [memset_eq 0 placed.entries]
  have back : BitVec.ofNat 32 address.toNat = address := by
    rw [BitVec.ofNat_toNat, BitVec.setWidth_eq]
  split_ifs
  · rfl
  · simp only [bytesOf, back]

theorem readSlot_clearIdt (placed : IdtPlaced idtEntries idtPtr)
    (small : index < 256) :
    readSlot (clearIdt idtEntries idtPtr mem) idtEntries index =
      (0#32, 0#32) := by
  have range := placed.entries
  have zero (offset : BitVec 32) (inEntry : offset.toNat < 8) :
      clearIdt idtEntries idtPtr mem (tableSlot idtEntries index + offset) =
        0#8 := by
    have place : (tableSlot idtEntries index + offset).toNat =
        idtEntries.toNat + 8 * index + offset.toNat := by
      rw [tableSlot, BitVec.toNat_add, BitVec.toNat_add, BitVec.toNat_ofNat]
      omega
    rw [clearIdt_apply placed, if_pos (by omega)]
  have word (start : BitVec 32) (inEntry : start.toNat ≤ 4) :
      readWord (clearIdt idtEntries idtPtr mem)
        (tableSlot idtEntries index + start) = 0#32 := by
    have lowest := zero start (by omega)
    simp only [readWord, BitVec.add_assoc]
    rw [zero (start + 3#32) (by bv_omega), zero (start + 2#32) (by bv_omega),
      zero (start + 1#32) (by bv_omega), lowest]
    rfl
  have first := word 0#32 (by decide)
  rw [BitVec.add_zero] at first
  rw [readSlot, first, word 4#32 (by decide)]

theorem idtMemory_gate (placed : IdtPlaced idtEntries idtPtr)
    (small : index < 256) :
    Gate.ofWords (readSlot (idtMemory idtEntries idtPtr isr irq mem)
        idtEntries index) =
      if index < 48 then stubGate (stubAddress isr irq index)
      else Gate.ofWords (0#32, 0#32) := by
  rw [idtMemory, initIrqGates, initIsrGates,
    readSlot_setGates (by decide) small, readSlot_setGates (by decide) small,
    readSlot_clearIdt placed small, stubAddress]
  by_cases isIrq : 32 ≤ index ∧ index < 32 + 16
  · rw [if_pos isIrq, if_pos isIrq.2, if_neg (by omega), idtEntry_gate]
  · rw [if_neg isIrq]
    by_cases isIsr : 0 ≤ index ∧ index < 0 + 32
    · rw [if_pos isIsr, if_pos (by omega), if_pos (by omega), idtEntry_gate,
        Nat.sub_zero]
    · rw [if_neg isIsr, if_neg (by omega)]

/-- `idt_ptr` is not touched once it is set. -/
theorem idtMemory_ptr (placed : IdtPlaced idtEntries idtPtr)
    {offset : BitVec 32} (inside : offset.toNat < 6) :
    idtMemory idtEntries idtPtr isr irq mem (idtPtr + offset) =
      storeTable idtPtr 2047#16 idtEntries mem (idtPtr + offset) := by
  have entries := placed.entries
  have ptr := placed.ptr
  have apart := placed.apart
  have place : (idtPtr + offset).toNat = idtPtr.toNat + offset.toNat := by
    rw [BitVec.toNat_add]
    omega
  have beyond : 2048 ≤ (idtPtr + offset - idtEntries).toNat := by
    rw [BitVec.toNat_sub, place]
    omega
  have address : idtEntries + (idtPtr + offset - idtEntries) =
      idtPtr + offset := by
    rw [BitVec.add_comm, BitVec.sub_add_cancel]
  have kept (base : Nat → BitVec 32) (first count : Nat)
      (range : first + count ≤ 256) (mem : ByteMemory) :
      setGates idtEntries base first count mem (idtPtr + offset) =
        mem (idtPtr + offset) := by
    rw [← address]
    exact setGates_outside range beyond
  rw [idtMemory, initIrqGates, kept irq 32 16 (by decide), initIsrGates,
    kept isr 0 32 (by decide), clearIdt_apply placed, if_neg (by omega)]

theorem idtFlush_idtMemory (placed : IdtPlaced idtEntries idtPtr) :
    idtFlush idtPtr (idtMemory idtEntries idtPtr isr irq mem) =
      ⟨2047#16, idtEntries⟩ :=
  loadTable_storeTable fun _ inside => idtMemory_ptr placed inside

end Table

/-! ## Entering a stub -/

theorem ring_le (selector : BitVec 16) : (Cpu.ring selector).toNat ≤ 3 := by
  rw [Cpu.ring, BitVec.toNat_and]
  exact Nat.and_le_right

section Entering

variable {idtEntries idtPtr : BitVec 32} {isr irq : Nat → BitVec 32}
  {mem : ByteMemory} {cpu : Cpu} {vector : Nat}

theorem enterInterrupt_stub (placed : IdtPlaced idtEntries idtPtr)
    (platform : Platform)
    (same : SameTable idtEntries 256
      (idtMemory idtEntries idtPtr isr irq mem) cpu.mem)
    (hasStub : vector < 48) (cause : Cause) :
    enterInterrupt
        (idtFlush idtPtr (idtMemory idtEntries idtPtr isr irq mem))
        platform vector cause cpu =
      some (cause.deliver
        { platform with base := stubAddress isr irq } vector cpu) := by
  have inTable : vector < 256 := by omega
  have limit : (2047#16).toNat = 2047 := rfl
  rw [idtFlush_idtMemory placed, enterInterrupt, idtrGate]
  simp only [limit, sizeofIdtEntry]
  rw [if_pos (by omega), Option.bind_some, same.readSlot inTable (by decide),
    idtMemory_gate placed inTable, if_pos hasStub, if_pos]
  · cases cause with
    | hardware errorCode => rfl
    | instruction => rfl
  · refine ⟨rfl, rfl, ?_⟩
    cases cause with
    | hardware errorCode => trivial
    | instruction => exact ring_le cpu.cs

theorem enterInterrupt_refused (placed : IdtPlaced idtEntries idtPtr)
    (platform : Platform)
    (same : SameTable idtEntries 256
      (idtMemory idtEntries idtPtr isr irq mem) cpu.mem)
    (noStub : ¬vector < 48) (cause : Cause) :
    enterInterrupt
        (idtFlush idtPtr (idtMemory idtEntries idtPtr isr irq mem))
        platform vector cause cpu = none := by
  have limit : (2047#16).toNat = 2047 := rfl
  rw [idtFlush_idtMemory placed, enterInterrupt, idtrGate]
  simp only [limit, sizeofIdtEntry]
  by_cases inTable : vector < 256
  · have absent : (Gate.ofWords (0#32, 0#32)).present = false := rfl
    rw [if_pos (by omega), Option.bind_some,
      same.readSlot inTable (by decide), idtMemory_gate placed inTable,
      if_neg noStub, if_neg]
    rintro ⟨isPresent, _⟩
    rw [absent] at isPresent
    cases isPresent
  · rw [if_neg (by omega)]
    rfl

end Entering

/-- Every interrupt, of the hardware or of an instruction in any ring, enters
the stub of its vector for the 48 vectors that have one, and is refused for
the others. -/
theorem interrupts_enter_stubs {idtEntries idtPtr : BitVec 32}
    (placed : IdtPlaced idtEntries idtPtr) (isr irq : Nat → BitVec 32)
    (mem : ByteMemory) (platform : Platform) (cpu : Cpu)
    (same : SameTable idtEntries 256
      (idtMemory idtEntries idtPtr isr irq mem) cpu.mem)
    (vector : Nat) (cause : Cause) :
    enterInterrupt
        (idtFlush idtPtr (idtMemory idtEntries idtPtr isr irq mem))
        platform vector cause cpu =
      if vector < 48 then
        some (cause.deliver
          { platform with base := stubAddress isr irq } vector cpu)
      else none := by
  by_cases hasStub : vector < 48
  · rw [if_pos hasStub]
    exact enterInterrupt_stub placed platform same hasStub cause
  · rw [if_neg hasStub]
    exact enterInterrupt_refused placed platform same hasStub cause

theorem placed_oneMib : IdtPlaced 0x100008#32 0x100000#32 where
  entries := by decide
  ptr := by decide
  apart := by decide

def sampleIdt : ByteMemory :=
  idtMemory 0x100008#32 0x100000#32 (fun _ => 0#32) (fun _ => 0x1000#32)
    quietCpu.mem

theorem interrupts_enter_stubs_keyboard :
    enterInterrupt (idtFlush 0x100000#32 sampleIdt) quietPlatform 33
        (.hardware 0#32) { quietCpu with mem := sampleIdt } =
      some (deliver
        { quietPlatform with
          base := stubAddress (fun _ => 0#32) fun _ => 0x1000#32 } 33 0#32
        { quietCpu with mem := sampleIdt }) :=
  interrupts_enter_stubs placed_oneMib (fun _ => 0#32) (fun _ => 0x1000#32)
    quietCpu.mem quietPlatform { quietCpu with mem := sampleIdt }
    (fun _ _ => rfl) 33 (.hardware 0#32)

/-! ## Instructions at vectors with an error code -/

/-- Vectors whose stubs leave the error code to the processor. -/
def takesErrorCode (vector : Nat) : Bool :=
  vector ∈ [8, 10, 11, 12, 13, 14]

theorem idtGate_withErrorCode :
    ∀ vector < 48, takesErrorCode vector = true →
      idtGate vector =
        isrCommonStub.withErrorCode (BitVec.ofNat 32 vector) := by
  decide

/-- The word that these stubs take for an error code is the return address of
the instruction, and the frame is shifted by that word. -/
theorem instruction_shiftsFrame (platform : Platform) {vector : Nat}
    (valid : vector < 48) (takes : takesErrorCode vector = true) (cpu : Cpu) :
    let stub := idtGate vector
    let entry :=
      (stub.before.foldl Instruction.run
        (Cause.instruction.deliver platform vector cpu)).push
          (platform.returnAddress stub.callee)
    let regs := readWord entry.mem (entry.esp + 4#32)
    (registersAt entry.mem regs).errorCode = cpu.eip ∧
      (registersAt entry.mem regs).eip = cpu.cs.setWidth 32 ∧
      (registersAt entry.mem regs).cs = cpu.eflags ∧
      (Cpu.ring cpu.cs ≠ 0#16 →
        (registersAt entry.mem regs).eflags = cpu.esp) ∧
      ∀ handler : Cpu → Cpu, ReturnsUnchanged handler entry →
        (stub.after.foldl Instruction.run (handler entry)).eip =
          cpu.cs.setWidth 32 := by
  intro stub entry regs
  have gate : stub = isrCommonStub.withErrorCode (BitVec.ofNat 32 vector) :=
    idtGate_withErrorCode vector valid takes
  have delivered := saving_deliver
    { platform with base := fun _ => platform.base vector } 3 0#32 cpu
  have bound := returnFrame_length cpu
  rw [if_neg (by decide), List.nil_append] at delivered
  obtain ⟨numbered, saving, _, before⟩ := saving_withErrorCode isrCommonStub
    (BitVec.ofNat 32 vector) delivered (by omega)
  have callee : stub.callee = .interruptHandler := by
    rw [gate]
    rfl
  have started : stub.before.foldl Instruction.run
      (deliver { platform with base := fun _ => platform.base vector } 3 0#32
        cpu) =
        (commonStub stub.callee).before.foldl Instruction.run numbered := by
    rw [callee, gate]
    exact before
  have after : stub.after = (commonStub stub.callee).after := by
    rw [callee, gate]
    rfl
  rw [returnFrame, List.cons_append] at saving
  rw [returnFrame, List.length_append] at bound
  have outerBound : (outerFrame cpu).length ≤ 2 :=
    Nat.le_of_add_le_add_left bound
  obtain ⟨argument, holds, _, _, _⟩ := inHandler_frame saving
    (by simp; omega) started (rfl : _ = entry)
  have place : regs = entry.esp + 8#32 := argument
  refine ⟨?_, ?_, ?_, ?_, ?_⟩
  · rw [place]
    exact holds.get rfl
  · rw [place]
    exact holds.get rfl
  · rw [place]
    exact holds.get rfl
  · intro outer
    rw [outerFrame, if_pos outer] at holds
    rw [place]
    exact holds.get rfl
  · intro handler unchanged
    obtain ⟨back, restored, ⟨popped, _⟩, _⟩ := @afterIret_frame _ _ _ _ _ _ _
      _ (fun _ => handler) _ _ (rfl : _ = entry) after argument holds
      (by simp; omega) unchanged
    have returned : (stub.after.foldl Instruction.run
        (handler entry)) = iret back := restored
    rw [returned, iret_eip]
    exact popped

/-- Code of any ring reaches these stubs with an `int` instruction.  The C
function sees the frame shifted by a word, with the return address for an error
code, the interrupted flags for a code segment and the interrupted stack
pointer for flags, and `iret` takes the number of the code segment for its
return address. -/
theorem int_instruction_shifts_frame {idtEntries idtPtr : BitVec 32}
    (placed : IdtPlaced idtEntries idtPtr) (isr irq : Nat → BitVec 32)
    (mem : ByteMemory) (platform : Platform) (cpu : Cpu)
    (same : SameTable idtEntries 256
      (idtMemory idtEntries idtPtr isr irq mem) cpu.mem)
    {vector : Nat} (valid : vector < 48)
    (takes : takesErrorCode vector = true) :
    ∃ entered,
      enterInterrupt
          (idtFlush idtPtr (idtMemory idtEntries idtPtr isr irq mem))
          platform vector .instruction cpu = some entered ∧
        let stub := idtGate vector
        let entry := (stub.before.foldl Instruction.run entered).push
          (platform.returnAddress stub.callee)
        let regs := readWord entry.mem (entry.esp + 4#32)
        (registersAt entry.mem regs).errorCode = cpu.eip ∧
          (registersAt entry.mem regs).eip = cpu.cs.setWidth 32 ∧
          (registersAt entry.mem regs).cs = cpu.eflags ∧
          (Cpu.ring cpu.cs ≠ 0#16 →
            (registersAt entry.mem regs).eflags = cpu.esp) ∧
          ∀ handler : Cpu → Cpu, ReturnsUnchanged handler entry →
            (stub.after.foldl Instruction.run (handler entry)).eip =
              cpu.cs.setWidth 32 :=
  ⟨_, enterInterrupt_stub placed platform same valid .instruction,
    instruction_shiftsFrame
      { platform with base := stubAddress isr irq } valid takes cpu⟩

/-- `int $13` in user mode at address 0x1000, with its stack at 0x2000. -/
def userCpu : Cpu :=
  { quietCpu with
    eip := 0x1000#32
    cs := 0x1B#16
    esp := 0x2000#32
    mem := sampleIdt }

theorem int_instruction_shifts_frame_thirteen :
    ∃ entered,
      enterInterrupt (idtFlush 0x100000#32 sampleIdt) quietPlatform 13
          .instruction userCpu = some entered ∧
        let stub := idtGate 13
        let entry := (stub.before.foldl Instruction.run entered).push
          (quietPlatform.returnAddress stub.callee)
        (stub.after.foldl Instruction.run entry.drop).eip = 0x1B#32 := by
  obtain ⟨entered, enters, _, _, _, _, returns⟩ :=
    int_instruction_shifts_frame placed_oneMib (fun _ => 0#32)
      (fun _ => 0x1000#32) quietCpu.mem quietPlatform userCpu
      (fun _ _ => rfl) (show 13 < 48 by decide) (by decide)
  exact ⟨entered, enters, returns Cpu.drop (returnsUnchanged_drop _)⟩

end Newbos
