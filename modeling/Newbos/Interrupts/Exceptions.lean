import Newbos.Interrupts.Transparency
import Newbos.Tty.Printk

/-!
# Unhandled exceptions

`interrupt_handler` calls the handler that is registered for an exception, or
prints the interrupted registers and calls `abort`, which does not return.
-/

namespace Newbos

/-- `exception_messages`. -/
def exceptionMessages : List String :=
  ["Divide Error", "Debug Exceptions", "NMI Interrupt", "Breakpoint",
    "INTO Detected Overflow", "BOUND Range Exceeded", "Invalid Opcode",
    "Coprocessor Not Available", "Double Exception",
    "Coprocessor Segment Overrun", "Invalid Task State Segment",
    "Segment Not Present", "Stack Fault", "General Protection", "Page Fault",
    "(reserved)", "Coprocessor Error"] ++ List.replicate 16 "(reserved)"

/-- The literals that make up the format of the report. -/
def reportFormat : List String :=
  ["Unhandled exception - %X : [errno - %X]: %s\n",
    "Data segments: gs[%X], fs[%X], es[%X], ds[%X]\n",
    "edi: %X\n",
    "esi: %X\n",
    "ebp: %X\n",
    "esp: %X\n",
    "ebx: %X\n",
    "edx: %X\n",
    "ecx: %X\n",
    "eax: %X\n",
    "eip: %X\n",
    "cs: %X\n",
    "eflags: %X\n",
    "usersp: %X\n",
    "ss: %X\n"]

/-- Its bytes, which no elaboration should compute. -/
@[irreducible]
def reportBytes : List UInt8 :=
  reportFormat.flatMap asciiBytes

/-- The arguments of the report; the third one points to a message. -/
def reportWords (messages : Nat → Nat) (regs : RegistersT) : List Nat :=
  [regs.interruptNumber.toNat,
    regs.errorCode.toNat,
    messages regs.interruptNumber.toNat,
    regs.gs.toNat,
    regs.fs.toNat,
    regs.es.toNat,
    regs.ds.toNat,
    regs.edi.toNat,
    regs.esi.toNat,
    regs.ebp.toNat,
    regs.esp.toNat,
    regs.ebx.toNat,
    regs.edx.toNat,
    regs.ecx.toNat,
    regs.eax.toNat,
    regs.eip.toNat,
    regs.cs.toNat,
    regs.eflags.toNat,
    regs.useresp.toNat,
    regs.ss.toNat]

/-- Where the strings of the kernel are. -/
structure ExceptionStrings where
  report : Nat
  messages : Nat → Nat
  abort : Nat

/-- How `interrupt_handler` ends: in a call of a handler, or in the loop of
`abort` with what has been printed. -/
inductive ExceptionEnd (Handler : Type) where
  | called (handler : Handler) (regs : RegistersT)
  | aborted (out : Output)

/-- `interrupt_handler` and `abort`; `none` when a string does not end within
the fuel. -/
def interruptHandler {Handler : Type}
    (exceptionHandlers : Nat → Option Handler) (mem : Nat → UInt8)
    (strings : ExceptionStrings) (fuel : Nat) (regs : RegistersT)
    (out : Output) : Option (ExceptionEnd Handler) :=
  match exceptionHandlers regs.interruptNumber.toNat with
  | some handler => some (.called handler regs)
  | none =>
      let words := reportWords strings.messages regs
      (printk mem (fun ap => words.getD ap 0) strings.report fuel out).bind
        fun report =>
          (printk mem (fun _ => 0) strings.abort fuel report.out).map
            fun abort => .aborted abort.out

/-! ## The report -/

/-- An argument as it is printed here. -/
def Argument.shown : Argument → List UInt8
  | .value n => hexadecimal n
  | .text bytes => bytes

/-- The conversion that prints an argument so. -/
def Argument.conversion : Argument → List UInt8
  | .value _ => [asciiPercent, asciiUpperX]
  | .text _ => [asciiPercent, asciiS]

/-- The values of the report, each behind the text in front of it. -/
def reportItems (regs : RegistersT) (message : List UInt8) :
    List (String × Argument) :=
  [("Unhandled exception - ", .value regs.interruptNumber.toNat),
    (" : [errno - ", .value regs.errorCode.toNat),
    ("]: ", .text message),
    ("\nData segments: gs[", .value regs.gs.toNat),
    ("], fs[", .value regs.fs.toNat),
    ("], es[", .value regs.es.toNat),
    ("], ds[", .value regs.ds.toNat),
    ("]\nedi: ", .value regs.edi.toNat),
    ("\nesi: ", .value regs.esi.toNat),
    ("\nebp: ", .value regs.ebp.toNat),
    ("\nesp: ", .value regs.esp.toNat),
    ("\nebx: ", .value regs.ebx.toNat),
    ("\nedx: ", .value regs.edx.toNat),
    ("\necx: ", .value regs.ecx.toNat),
    ("\neax: ", .value regs.eax.toNat),
    ("\neip: ", .value regs.eip.toNat),
    ("\ncs: ", .value regs.cs.toNat),
    ("\neflags: ", .value regs.eflags.toNat),
    ("\nusersp: ", .value regs.useresp.toNat),
    ("\nss: ", .value regs.ss.toNat)]

def reportText (regs : RegistersT) (message : List UInt8) : List UInt8 :=
  (reportItems regs message).flatMap
      (fun item => asciiBytes item.1 ++ item.2.shown) ++ asciiBytes "\n"

section Expansion

variable {format expansion : List UInt8} {arguments : List Argument}

theorem Expands.conversion (argument : Argument)
    (expands : Expands format arguments expansion) :
    Expands (argument.conversion ++ format) (argument :: arguments)
      (argument.shown ++ expansion) := by
  cases argument with
  | value n => exact .hexadecimal n expands
  | text bytes => exact .string bytes expands

theorem Expands.items {items : List (String × Argument)}
    (plain : ∀ item ∈ items, asciiPercent ∉ asciiBytes item.1)
    (expands : Expands format [] expansion) :
    Expands
      (items.flatMap (fun item =>
        asciiBytes item.1 ++ item.2.conversion) ++ format)
      (items.map Prod.snd)
      (items.flatMap (fun item => asciiBytes item.1 ++ item.2.shown) ++
        expansion) := by
  induction items with
  | nil => exact expands
  | cons item rest induction =>
      obtain ⟨first, later⟩ := List.forall_mem_cons.mp plain
      simp only [List.flatMap_cons, List.append_assoc, List.map_cons]
      exact .literal first (.conversion item.2 (induction later))

end Expansion

theorem reportBytes_eq (regs : RegistersT) (message : List UInt8) :
    reportBytes =
      (reportItems regs message).flatMap (fun item =>
        asciiBytes item.1 ++ item.2.conversion) ++ asciiBytes "\n" := by
  unfold reportBytes
  simp only [reportItems, List.flatMap_cons, List.flatMap_nil,
    Argument.conversion]
  decide +kernel

theorem reportBytes_length : reportBytes.length < 400 := by
  unfold reportBytes
  decide +kernel

theorem reportBytes_noNul : 0 ∉ reportBytes := by
  unfold reportBytes
  decide +kernel

theorem trailingPercents_concat {b : UInt8} (plain : b ≠ asciiPercent)
    (format : List UInt8) : trailingPercents (format ++ [b]) = 0 := by
  simp [trailingPercents, List.rtakeWhile, plain]

theorem reportBytes_expands (regs : RegistersT) (message : List UInt8) :
    Expands reportBytes
      ((reportItems regs message).map Prod.snd) (reportText regs message) := by
  have newline : asciiPercent ∉ asciiBytes "\n" := by decide
  have lineEnd := Expands.literal newline .done
  have plain : ∀ text ∈ (reportItems regs message).map Prod.fst,
      asciiPercent ∉ asciiBytes text := by
    simp only [reportItems, List.map_cons, List.map_nil]
    decide +kernel
  rw [List.append_nil] at lineEnd
  rw [reportBytes_eq regs message]
  apply Expands.items _ lineEnd
  intro item member
  exact plain item.1 (List.mem_map_of_mem member)

/-- The structure that the C function is to see. -/
def interruptedRegs (cpu : Cpu) (vector : Nat)
    (errorCode esp useresp ss : BitVec 32) : RegistersT :=
  { gs := cpu.gs.setWidth 32
    fs := cpu.fs.setWidth 32
    es := cpu.es.setWidth 32
    ds := cpu.ds.setWidth 32
    edi := cpu.edi
    esi := cpu.esi
    ebp := cpu.ebp
    esp := esp
    ebx := cpu.ebx
    edx := cpu.edx
    ecx := cpu.ecx
    eax := cpu.eax
    interruptNumber := BitVec.ofNat 32 vector
    errorCode := errorCode
    eip := cpu.eip
    cs := cpu.cs.setWidth 32
    eflags := cpu.eflags
    useresp := useresp
    ss := ss }

theorem ShowsInterrupted.eq {fields : RegistersT} {cpu : Cpu} {vector : Nat}
    {code : BitVec 32} (shows : ShowsInterrupted fields cpu vector code) :
    fields = interruptedRegs cpu vector code fields.esp fields.useresp
      fields.ss := by
  rw [interruptedRegs, ← shows.gs, ← shows.fs, ← shows.es, ← shows.ds,
    ← shows.edi, ← shows.esi, ← shows.ebp, ← shows.ebx, ← shows.edx,
    ← shows.ecx, ← shows.eax, ← shows.interruptNumber, ← shows.errorCode,
    ← shows.eip, ← shows.cs, ← shows.eflags]

section Report

variable (platform : Platform) {vector : Nat} (errorCode : BitVec 32)
  (cpu : Cpu)

/-- Through every stub but `isr17`, the structure holds the interrupted
registers, and the stack pointer and segment of an outer ring. -/
theorem registersAt_interrupted (valid : vector < 48)
    (notAlignment : vector ≠ 17) {entry : Cpu}
    (entered : (idtGate vector).inHandler platform vector errorCode cpu =
      entry) :
    ∃ esp useresp ss,
      registersAt entry.mem (readWord entry.mem (entry.esp + 4#32)) =
        interruptedRegs cpu vector
          (if pushesErrorCode vector then errorCode else 0#32) esp useresp
          ss ∧
      (Cpu.ring cpu.cs ≠ 0#16 →
        useresp = cpu.esp ∧ ss = cpu.ss.setWidth 32) := by
  have gate := idtGate_eq_transparentStub vector valid notAlignment
  obtain ⟨numbered, saving, _, before⟩ :=
    saving_transparentStub platform vector errorCode cpu
  rw [← gate] at before
  have bound := returnFrame_length cpu
  obtain ⟨argument, holds, _⟩ :=
    inHandler_frame saving (by omega) before entered
  obtain ⟨shows, _⟩ := registersAt_shows holds
  rw [argument]
  refine ⟨_, _, _, shows.eq, ?_⟩
  intro outer
  rw [returnFrame, outerFrame, if_pos outer] at holds
  exact ⟨holds.get rfl, holds.get rfl⟩

variable {Handler : Type} {exceptionHandlers : Nat → Option Handler}
  {mem : Nat → UInt8} {strings : ExceptionStrings} {message : List UInt8}

/-- The report is printed, and then the kernel stays in `abort`. -/
theorem interruptHandler_unhandled {regs : RegistersT} {fuel : Nat}
    (unhandled : exceptionHandlers regs.interruptNumber.toNat = none)
    (report : HoldsString mem strings.report reportBytes)
    (messageHeld : HoldsString mem
      (strings.messages regs.interruptNumber.toNat) message)
    (abort : HoldsString mem strings.abort (asciiBytes "abort()\n"))
    (enough : 400 ≤ fuel) (short : message.length < fuel) (out : Output) :
    interruptHandler exceptionHandlers mem strings fuel regs out =
      some (.aborted (out.writeAll
        (reportText regs message ++ asciiBytes "abort()\n"))) := by
  have supplies : Supplies mem
      (fun ap => (reportWords strings.messages regs).getD ap 0) 0
      ((reportItems regs message).map Prod.snd) :=
    ⟨rfl, rfl, messageHeld, rfl, rfl, rfl, rfl, rfl, rfl, rfl, rfl, rfl, rfl,
      rfl, rfl, rfl, rfl, rfl, rfl, rfl, trivial⟩
  have texts : ∀ bytes, .text bytes ∈ (reportItems regs message).map
      Prod.snd → bytes.length < fuel := by
    intro bytes member
    simp only [reportItems, List.map_cons, List.map_nil, List.mem_cons,
      reduceCtorEq, Argument.text.injEq, false_or, or_false,
      List.not_mem_nil] at member
    rw [member]
    exact short
  have newline : (10 : UInt8) ≠ asciiPercent := by decide
  have paired : Even (trailingPercents reportBytes) := by
    have noPercent : trailingPercents reportBytes = 0 := by
      rw [reportBytes_eq regs message]
      exact trailingPercents_concat newline _
    rw [noPercent]
    decide
  have abortLength : (asciiBytes "abort()\n").length < 400 := by decide
  obtain ⟨printed, printedEq, printedOut⟩ := printk_expands
    (reportBytes_expands regs message) paired report supplies texts
    (Nat.lt_of_lt_of_le reportBytes_length enough) out
  have plain : asciiPercent ∉ asciiBytes "abort()\n" := by decide
  have abortExpands := Expands.literal plain .done
  rw [List.append_nil] at abortExpands
  obtain ⟨aborted, abortedEq, abortedOut⟩ := @printk_expands mem
    (fun _ => 0) strings.abort fuel _ _ _ abortExpands (by decide) abort
    trivial (fun _ member => absurd member List.not_mem_nil)
    (Nat.lt_of_lt_of_le abortLength enough) printed.out
  rw [interruptHandler, unhandled]
  simp only [printedEq, Option.bind_some, abortedEq, Option.map_some]
  rw [abortedOut, printedOut, Output.writeAll_append]

/-- An exception without a handler is reported on the screen with the
registers that it has interrupted, each behind its name, and the kernel does
not go on.  A stack pointer is shown that belongs to the interrupted code when
this was in an outer ring. -/
theorem unhandled_exceptions_are_reported (isException : vector < 32)
    (notAlignment : vector ≠ 17)
    (unhandled : exceptionHandlers vector = none)
    (report : HoldsString mem strings.report reportBytes)
    (messageHeld : HoldsString mem (strings.messages vector)
      (asciiBytes (exceptionMessages.getD vector "")))
    (abort : HoldsString mem strings.abort (asciiBytes "abort()\n"))
    (out : Output) {fuel : Nat} (enough : 400 ≤ fuel) {entry : Cpu}
    (entered : (idtGate vector).inHandler platform vector errorCode cpu =
      entry) :
    (idtGate vector).callee = .interruptHandler ∧
      ∃ esp useresp ss after,
        (Cpu.ring cpu.cs ≠ 0#16 →
          useresp = cpu.esp ∧ ss = cpu.ss.setWidth 32) ∧
        interruptHandler exceptionHandlers mem strings fuel
            (registersAt entry.mem
              (readWord entry.mem (entry.esp + 4#32))) out =
          some (.aborted after) ∧
        out.Writes after
          (reportText (interruptedRegs cpu vector
              (if pushesErrorCode vector then errorCode else 0#32) esp
              useresp ss)
            (asciiBytes (exceptionMessages.getD vector "")) ++
          asciiBytes "abort()\n") := by
  have gate := idtGate_eq_transparentStub vector (by omega) notAlignment
  have callee := transparentStub_callee vector
  rw [← gate, if_pos isException] at callee
  obtain ⟨esp, useresp, ss, fields, outer⟩ := registersAt_interrupted
    platform errorCode cpu (by omega) notAlignment entered
  have number : (BitVec.ofNat 32 vector).toNat = vector := by
    rw [BitVec.toNat_ofNat]
    omega
  have messageShort : ∀ vector < 32,
      (asciiBytes (exceptionMessages.getD vector "")).length < 400 := by
    decide +kernel
  have messageLength := messageShort vector isException
  refine ⟨callee, esp, useresp, ss, _, outer, ?_, out.writes_writeAll _⟩
  rw [fields]
  refine interruptHandler_unhandled ?_ report ?_ abort enough ?_ out
  · simp only [interruptedRegs, number]
    exact unhandled
  · simp only [interruptedRegs, number]
    exact messageHeld
  · exact Nat.lt_of_lt_of_le messageLength enough

/-- The strings of a general protection exception, one behind the other. -/
def protectionStrings : ExceptionStrings where
  report := 0x1000
  messages _ := 0x1000 + (reportBytes ++ [0]).length
  abort := 0x1000 +
    (reportBytes ++ [0] ++ (asciiBytes "General Protection" ++ [0])).length

def protectionMemory : Nat → UInt8 :=
  stringAt 0x1000
    (reportBytes ++ [0] ++ (asciiBytes "General Protection" ++ [0]) ++
      (asciiBytes "abort()\n" ++ [0]))

/-- A general protection exception with an error code of 5, while no handler
is registered. -/
theorem unhandled_exceptions_are_reported_protection :
    let entry := (idtGate 13).inHandler quietPlatform 13 5#32 quietCpu
    ∃ esp useresp ss after,
      @interruptHandler Unit (fun _ => none) protectionMemory
          protectionStrings 400
          (registersAt entry.mem (readWord entry.mem (entry.esp + 4#32)))
          ⟨ttyClear zeroTty, []⟩ = some (.aborted after) ∧
        Shows after.tty (Terminal.blank.writeAll
          (reportText (interruptedRegs quietCpu 13 5#32 esp useresp ss)
            (asciiBytes "General Protection") ++ asciiBytes "abort()\n")) := by
  have reportLength := reportBytes_length
  have messageNoNul : 0 ∉ asciiBytes "General Protection" := by decide
  have abortNoNul : 0 ∉ asciiBytes "abort()\n" := by decide
  have messageLength : (asciiBytes "General Protection").length = 18 := rfl
  have abortLength : (asciiBytes "abort()\n").length = 8 := rfl
  have report : HoldsString protectionMemory protectionStrings.report
      reportBytes := by
    have held := @stringAt_holdsString 0x1000 [] reportBytes reportBytes_noNul
      (by rw [List.length_nil]; omega)
      (asciiBytes "General Protection" ++ [0] ++
        (asciiBytes "abort()\n" ++ [0]))
    simpa only [protectionMemory, protectionStrings, List.append_assoc,
      List.cons_append, List.nil_append, List.length_nil, Nat.add_zero] using
      held
  have message : HoldsString protectionMemory
      (protectionStrings.messages 13) (asciiBytes "General Protection") := by
    have held := @stringAt_holdsString 0x1000 (reportBytes ++ [0]) _
      messageNoNul (by
        rw [List.length_append, List.length_singleton]
        omega)
      (asciiBytes "abort()\n" ++ [0])
    simpa only [protectionMemory, protectionStrings, List.append_assoc,
      List.cons_append, List.nil_append] using held
  have abort : HoldsString protectionMemory protectionStrings.abort
      (asciiBytes "abort()\n") := by
    have held := @stringAt_holdsString 0x1000
      (reportBytes ++ [0] ++ (asciiBytes "General Protection" ++ [0])) _
      abortNoNul (by
        simp only [List.length_append, List.length_singleton]
        omega) []
    simpa only [protectionMemory, protectionStrings, List.append_assoc,
      List.cons_append, List.nil_append] using held
  have reported := @unhandled_exceptions_are_reported quietPlatform 13 5#32
    quietCpu Unit (fun _ => none) protectionMemory protectionStrings
    (by decide) (by decide) rfl report message abort ⟨ttyClear zeroTty, []⟩
    400 (Nat.le_refl 400) _ rfl
  obtain ⟨_, esp, useresp, ss, after, _, aborted, writes⟩ := reported
  exact ⟨esp, useresp, ss, after, aborted,
    writes.shown Terminal.blank (clear_shows zeroTty)⟩

end Report

end Newbos
