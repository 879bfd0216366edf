import Newbos.Interrupts.Controller
import Newbos.Interrupts.Idt
import Newbos.Library.Service

/-!
# Device requests

A request passes through the controllers, a gate and a stub to `irq_handler`,
which ends the interrupt and then calls the registered handler.  Requests come
at any time, and user code can enter the same stubs with an `int` instruction.
All runs are runs of the service by priority.
-/

namespace Newbos

/-! ## The code -/

/-- What a C function does outside of its frame, in order. -/
inductive IrqAction (Handler : Type) where
  | outb (port : UInt16) (value : UInt8)
  | call (handler : Handler) (regs : RegistersT)
  | exception (regs : RegistersT)

/-- `irq_handler`. -/
def irqHandler {Handler : Type} (interruptHandlers : Nat → Option Handler)
    (regs : RegistersT) : List (IrqAction Handler) :=
  let number := regs.interruptNumber.toNat
  let endSlave := if 40 ≤ number then [.outb 0xA0 0x20] else []
  let call :=
    match interruptHandlers number with
    | some handler => [.call handler regs]
    | none => []
  endSlave ++ .outb 0x20 0x20 :: call

/-- The C function that a stub calls.  A vector without a gate is an exception
too. -/
def calleeActions {Handler : Type} (interruptHandlers : Nat → Option Handler)
    (vector : Nat) (regs : RegistersT) : List (IrqAction Handler) :=
  match (idtGate vector).callee with
  | .irqHandler => irqHandler interruptHandlers regs
  | .interruptHandler => [.exception regs]

/-- The structure that the C function gets.  The controllers send no error
code, and neither does an instruction. -/
def interruptRegs (platform : Platform) (vector : Nat) (cpu : Cpu) :
    RegistersT :=
  let stub := idtGate vector
  let entry :=
    (stub.before.foldl Instruction.run
      (deliverInstruction platform vector cpu)).push
        (platform.returnAddress stub.callee)
  registersAt entry.mem (readWord entry.mem (entry.esp + 4#32))

/-- The controllers, `interrupt_handlers`, and what is left to do of a C
function that runs. -/
structure IrqState (Handler : Type) where
  pics : Pics
  interruptHandlers : Nat → Option Handler
  remaining : Option (List (IrqAction Handler))

inductive IrqEvent (Handler : Type) where
  | raised (line : Fin 16)
  | interrupt (vector : Nat)
  | instruction (vector : Nat)
  | called (handler : Handler) (number : Nat)
  | exception (number : Nat)
  deriving DecidableEq, Repr

section Steps

variable {Handler : Type}

/-- The steps of the processor.  It takes an interrupt in any state that has
them enabled; the stubs keep them disabled until `iret`. -/
inductive IrqServe (platform : Platform) :
    Transition (IrqState Handler) (IrqEvent Handler) where
  | interrupt {pics after : Pics} {handlers : Nat → Option Handler}
      {vector : UInt8} (cpu : Cpu) :
      cpu.eflags.getLsbD 9 = true →
      pics.acknowledge = some (vector, after) →
      IrqServe platform ⟨pics, handlers, none⟩
        (some (.interrupt vector.toNat))
        ⟨after, handlers, some (calleeActions handlers vector.toNat
          (interruptRegs platform vector.toNat cpu))⟩
  | outb {pics : Pics} {handlers : Nat → Option Handler} {port : UInt16}
      {value : UInt8} {rest : List (IrqAction Handler)} :
      IrqServe platform ⟨pics, handlers, some (.outb port value :: rest)⟩
        none ⟨pics.outb port value, handlers, some rest⟩
  | call {pics : Pics} {handlers : Nat → Option Handler} {handler : Handler}
      {regs : RegistersT} {rest : List (IrqAction Handler)} :
      IrqServe platform ⟨pics, handlers, some (.call handler regs :: rest)⟩
        (some (.called handler regs.interruptNumber.toNat))
        ⟨pics, handlers, some rest⟩
  | exception {pics : Pics} {handlers : Nat → Option Handler}
      {regs : RegistersT} {rest : List (IrqAction Handler)} :
      IrqServe platform ⟨pics, handlers, some (.exception regs :: rest)⟩
        (some (.exception regs.interruptNumber.toNat))
        ⟨pics, handlers, some rest⟩
  | iret {pics : Pics} {handlers : Nat → Option Handler} :
      IrqServe platform ⟨pics, handlers, some []⟩ none ⟨pics, handlers, none⟩

/-- All steps: a device raises its line, an `int` instruction of any ring
enters the stub of a line, and `register_irq_handler`. -/
inductive IrqStep (platform : Platform) :
    Transition (IrqState Handler) (IrqEvent Handler) where
  | serve {state after : IrqState Handler} {event : Option (IrqEvent Handler)} :
      IrqServe platform state event after → IrqStep platform state event after
  | raise {pics : Pics} {handlers : Nat → Option Handler}
      {remaining : Option (List (IrqAction Handler))} (line : Fin 16) :
      line ≠ 2 →
      IrqStep platform ⟨pics, handlers, remaining⟩ (some (.raised line))
        ⟨pics.raise line, handlers, remaining⟩
  | instruction {pics : Pics} {handlers : Nat → Option Handler}
      (line : Fin 16) (cpu : Cpu) :
      IrqStep platform ⟨pics, handlers, none⟩
        (some (.instruction (32 + line)))
        ⟨pics, handlers, some (calleeActions handlers (32 + line)
          (interruptRegs platform (32 + line) cpu))⟩
  | register {pics : Pics} {handlers : Nat → Option Handler} (number : UInt8)
      (handler : Option Handler) :
      IrqStep platform ⟨pics, handlers, none⟩ none
        ⟨pics, Function.update handlers number.toNat handler, none⟩

/-! ## Service -/

/-- The handler of a line, with the number that it is called for. -/
def dueCalls (handlers : Nat → Option Handler) (line : Fin 16) :
    List (Handler × Nat) :=
  (handlers (32 + line)).toList.map fun handler => (handler, 32 + line.val)

/-- How the service of a line appears. -/
def shownEvent : ServiceEvent (Fin 16) (Handler × Nat) → IrqEvent Handler
  | .raised line => .raised line
  | .accepted line => .interrupt (32 + line)
  | .asked line => .instruction (32 + line)
  | .called call => .called call.1 call.2

def IrqAction.due : IrqAction Handler → Option (Handler × Nat)
  | .call handler regs => some (handler, regs.interruptNumber.toNat)
  | _ => none

/-- Only calls are left. -/
def OnlyCalls (actions : List (IrqAction Handler)) : Prop :=
  ∀ action ∈ actions, ∃ handler regs, action = .call handler regs

/-- The lines in service, from the entry into `irq_handler` on. -/
inductive Ending (pics : Pics) : Option (List (IrqAction Handler)) → Prop where
  | slave {calls : List (IrqAction Handler)} :
      OnlyCalls calls →
      AtMostOne pics.master.inService →
      AtMostOne pics.slave.inService →
      Ending pics (some (.outb 0xA0 0x20 :: .outb 0x20 0x20 :: calls))
  | master {calls : List (IrqAction Handler)} :
      OnlyCalls calls →
      AtMostOne pics.master.inService →
      pics.slave.inService = (fun _ => false) →
      Ending pics (some (.outb 0x20 0x20 :: calls))
  | calls {calls : List (IrqAction Handler)} :
      OnlyCalls calls → pics.Idle → Ending pics (some calls)
  | done : pics.Idle → Ending pics none

/-- The state of the service that a state of the machine stands for. -/
structure Serves (state : IrqState Handler)
    (service : Service (Fin 16) (Handler × Nat)) : Prop where
  programmed : state.pics.Programmed
  cascadeFree : state.pics.master.requested 2 = false
  ending : Ending state.pics state.remaining
  pending : service.pending = state.pics.latched
  calls : service.calls = dueCalls state.interruptHandlers
  owed : service.owed = state.remaining.map (List.filterMap IrqAction.due)

/-! ### The frame and the handler -/

theorem idtGate_irq :
    ∀ line : Fin 16, idtGate (32 + line) =
      irqCommonStub.withoutErrorCode (BitVec.ofNat 32 (32 + line)) := by
  decide

/-- `irq_handler` gets the vector of the stub. -/
theorem interruptRegs_number (platform : Platform) (line : Fin 16)
    (cpu : Cpu) :
    (interruptRegs platform (32 + line) cpu).interruptNumber.toNat =
      32 + line := by
  have gate := idtGate_irq line
  have delivered := saving_deliver
    { platform with base := fun _ => platform.base (32 + line) } 3 0#32 cpu
  have bound := returnFrame_length cpu
  rw [if_neg (by decide), List.nil_append] at delivered
  obtain ⟨numbered, saving, _, before⟩ := saving_withoutErrorCode
    irqCommonStub (BitVec.ofNat 32 (32 + line)) delivered (by omega)
  have callee : (idtGate (32 + line)).callee = .irqHandler := by
    rw [gate]
    rfl
  have started : (idtGate (32 + line)).before.foldl Instruction.run
      (deliver { platform with base := fun _ => platform.base (32 + line) } 3
        0#32 cpu) =
        (commonStub (idtGate (32 + line)).callee).before.foldl
          Instruction.run numbered := by
    rw [callee, gate]
    exact before
  let entry := (idtGate (32 + line)).inHandler
    { platform with base := fun _ => platform.base (32 + line) } 3 0#32 cpu
  obtain ⟨argument, holds, _⟩ := inHandler_frame saving (by omega) started
    (rfl : _ = entry)
  have word : readWord entry.mem
      (readWord entry.mem (entry.esp + 4#32) + BitVec.ofNat 32 (4 * 12)) =
        BitVec.ofNat 32 (32 + line) := by
    rw [argument]
    exact holds.get rfl
  have number : (interruptRegs platform (32 + line) cpu).interruptNumber =
      BitVec.ofNat 32 (32 + line) := word
  rw [number, BitVec.toNat_ofNat]
  omega

theorem calleeActions_eq (handlers : Nat → Option Handler) (line : Fin 16)
    (regs : RegistersT) (number : regs.interruptNumber.toNat = 32 + line) :
    calleeActions handlers (32 + line) regs =
      (if 8 ≤ line.val then [.outb 0xA0 0x20] else []) ++
        .outb 0x20 0x20 ::
          (handlers (32 + line)).toList.map (.call · regs) := by
  have callee : (idtGate (32 + line)).callee = .irqHandler := by
    rw [idtGate_irq]
    rfl
  have upper : 40 ≤ 32 + line.val ↔ 8 ≤ line.val := by omega
  rw [calleeActions, callee]
  simp only [irqHandler, number, upper]
  cases handlers (32 + line) <;> rfl

/-! ### The controllers -/

section Programmed

variable {pics : Pics}

theorem Pics.Programmed.raise (programmed : pics.Programmed)
    (line : Fin 16) : (pics.raise line).Programmed := by
  cases programmed
  by_cases low : line.val < 8
  · rw [Pics.raise, if_pos low]
    constructor <;> assumption
  · rw [Pics.raise, if_neg low]
    constructor <;> assumption

theorem Pics.Programmed.serve (programmed : pics.Programmed)
    (line : Fin 16) : (pics.serve line).Programmed := by
  cases programmed
  by_cases low : line.val < 8
  · rw [Pics.serve, if_pos low]
    constructor <;> assumption
  · rw [Pics.serve, if_neg low]
    constructor <;> assumption

theorem Pics.Programmed.endMaster (programmed : pics.Programmed) :
    (pics.outb 0x20 0x20).Programmed := by
  cases programmed
  rw [outb_master_end, Pic.endOfInterrupt_eq]
  constructor <;> assumption

theorem Pics.Programmed.endSlave (programmed : pics.Programmed) :
    (pics.outb 0xA0 0x20).Programmed := by
  cases programmed
  rw [outb_slave_end, Pic.endOfInterrupt_eq]
  constructor <;> assumption

theorem latched_endMaster (line : Fin 16) :
    (pics.outb 0x20 0x20).latched line = pics.latched line := by
  rw [outb_master_end, Pic.endOfInterrupt_eq]
  rfl

theorem latched_endSlave (line : Fin 16) :
    (pics.outb 0xA0 0x20).latched line = pics.latched line := by
  rw [outb_slave_end, Pic.endOfInterrupt_eq]
  rfl

/-- At most one line is in service at a controller, and at the slave only if
the line is one of its own. -/
structure OneInService (pics : Pics) (line : Fin 16) : Prop where
  master : AtMostOne pics.master.inService
  slave : AtMostOne pics.slave.inService
  low : line.val < 8 → pics.slave.inService = fun _ => false

theorem Pics.Idle.oneInService (idle : pics.Idle) (line : Fin 16) :
    OneInService pics line where
  master := by
    rw [idle.master]
    exact atMostOne_none
  slave := by
    rw [idle.slave]
    exact atMostOne_none
  low := fun _ => idle.slave

theorem Pics.Programmed.oneInService (programmed : pics.Programmed)
    (idle : pics.Idle) (line : Fin 16) :
    OneInService (pics.serve line) line := by
  have mode : (0x01 : UInt8) &&& 0x02 = 0 := rfl
  have master := atMostOne_update idle.master
  have slave := atMostOne_update idle.slave
  by_cases low : line.val < 8
  · have untouched := idle.oneInService line
    rw [Pics.serve, if_pos low]
    refine ⟨?_, untouched.slave, untouched.low⟩
    simp only [Pic.acknowledge, programmed.masterMode, mode, if_true]
    exact master _
  · rw [Pics.serve, if_neg low]
    refine ⟨?_, ?_, fun isLow => absurd isLow low⟩
    · simp only [Pic.acknowledge, programmed.masterMode, mode, if_true]
      exact master _
    · simp only [Pic.acknowledge, programmed.slaveMode, mode, if_true]
      exact slave _

end Programmed

/-! ### The simulation -/

section Simulation

variable {platform : Platform} {state after : IrqState Handler}
  {service : Service (Fin 16) (Handler × Nat)}
  {event : Option (IrqEvent Handler)}

theorem onlyCalls_due (handlers : Nat → Option Handler) (line : Fin 16)
    {regs : RegistersT} (number : regs.interruptNumber.toNat = 32 + line) :
    OnlyCalls ((handlers (32 + line)).toList.map (.call · regs)) ∧
      ((handlers (32 + line)).toList.map
        (IrqAction.call · regs)).filterMap IrqAction.due =
          dueCalls handlers line := by
  refine ⟨?_, ?_⟩
  · intro action member
    obtain ⟨handler, _, rfl⟩ := List.mem_map.mp member
    exact ⟨handler, regs, rfl⟩
  · rw [dueCalls]
    cases handlers (32 + line) with
    | none => rfl
    | some handler =>
        simp only [Option.toList_some, List.map_cons, List.map_nil,
          List.filterMap_cons, List.filterMap_nil, IrqAction.due, number]

theorem latched_raise_eq (pics : Pics) (line : Fin 16) :
    (pics.raise line).latched =
      Function.update pics.latched line true := by
  funext other
  rw [latched_raise, Function.update_apply]
  by_cases same : other = line <;> simp [same]

theorem latched_serve_eq {pics : Pics}
    (cascadeFree : pics.master.requested 2 = false) (line : Fin 16) :
    (pics.serve line).latched =
      Function.update pics.latched line false := by
  funext other
  rw [latched_serve cascadeFree, Function.update_apply]
  by_cases same : other = line <;> simp [same]

/-- The entry into `irq_handler`, with the line in service or, for an
instruction, with none. -/
theorem OneInService.ending {pics : Pics} {line : Fin 16}
    (one : OneInService pics line) (handlers : Nat → Option Handler)
    {regs : RegistersT} (number : regs.interruptNumber.toNat = 32 + line) :
    Ending pics (some (calleeActions handlers (32 + line) regs)) := by
  have only := (onlyCalls_due handlers line number).1
  rw [calleeActions_eq handlers line regs number]
  by_cases upper : 8 ≤ line.val
  · rw [if_pos upper]
    exact .slave only one.master one.slave
  · rw [if_neg upper]
    exact .master only one.master (one.low (by omega))

theorem due_calleeActions (handlers : Nat → Option Handler) {line : Fin 16}
    {regs : RegistersT} (number : regs.interruptNumber.toNat = 32 + line) :
    (calleeActions handlers (32 + line) regs).filterMap IrqAction.due =
      dueCalls handlers line := by
  have due := (onlyCalls_due handlers line number).2
  rw [calleeActions_eq handlers line regs number]
  by_cases upper : 8 ≤ line.val
  · rw [if_pos upper]
    exact due
  · rw [if_neg upper]
    exact due

theorem vector_toNat :
    ∀ line : Fin 16, (UInt8.ofNat (32 + line)).toNat = 32 + line := by
  decide

/-- The serving steps are those of the service, with `outb` in between. -/
theorem serve_simulates :
    Simulates (@IrqServe Handler platform)
      (ServeStep priorityOrder) shownEvent Serves := by
  intro state event after service serves taken
  obtain ⟨pending, calls, owed⟩ := service
  obtain ⟨programmed, cascadeFree, ending, samePending, sameCalls, sameOwed⟩ :=
    serves
  subst samePending sameCalls sameOwed
  cases taken with
  | @interrupt pics after handlers vector cpu enabled acknowledged =>
      cases ending with
      | done idle =>
          rw [acknowledge_idle programmed idle] at acknowledged
          obtain ⟨line, first, given⟩ := Option.map_eq_some_iff.mp acknowledged
          obtain ⟨rfl, rfl⟩ := Prod.mk.inj given
          have number := interruptRegs_number platform line cpu
          rw [vector_toNat]
          refine ⟨[.accepted line], _, Run.single (ServeStep.accept first), rfl,
            programmed.serve line, serve_cascadeFree cascadeFree line,
            (programmed.oneInService idle line).ending handlers number,
            (latched_serve_eq cascadeFree line).symm, rfl, ?_⟩
          exact congrArg some (due_calleeActions handlers number).symm
  | @outb pics handlers port value rest =>
      refine ⟨[], _, .start, rfl, ?_⟩
      cases ending with
      | slave only master slave =>
          have noSlave : (pics.outb 0xA0 0x20).slave.inService =
              fun _ => false := Pic.endOfInterrupt_inService slave
          exact ⟨programmed.endSlave, cascadeFree,
            .master only master noSlave, (funext latched_endSlave).symm, rfl,
            rfl⟩
      | master only master noSlave =>
          have noMaster : (pics.outb 0x20 0x20).master.inService =
              fun _ => false := Pic.endOfInterrupt_inService master
          have requests : (pics.outb 0x20 0x20).latched (masterLine 2) =
              pics.latched (masterLine 2) := latched_endMaster (masterLine 2)
          rw [latched_masterLine, latched_masterLine, cascadeFree] at requests
          exact ⟨programmed.endMaster, requests,
            .calls only ⟨noMaster, noSlave⟩, (funext latched_endMaster).symm,
            rfl, rfl⟩
      | calls only _ =>
          obtain ⟨handler, regs, isCall⟩ := only _ List.mem_cons_self
          cases isCall
  | @call pics handlers handler regs rest =>
      cases ending with
      | calls only idle =>
          refine ⟨[.called (handler, regs.interruptNumber.toNat)], _,
            Run.single ServeStep.call, rfl, programmed, cascadeFree,
            .calls ?_ idle, rfl, rfl, rfl⟩
          exact fun action member => only action (List.mem_cons_of_mem _ member)
  | exception =>
      cases ending with
      | calls only _ =>
          obtain ⟨handler, regs, isCall⟩ := only _ List.mem_cons_self
          cases isCall
  | iret =>
      cases ending with
      | calls _ idle =>
          exact ⟨[], _, Run.single ServeStep.finish, rfl, programmed,
            cascadeFree, .done idle, rfl, rfl, rfl⟩

theorem dueCalls_update_line (handlers : Nat → Option Handler)
    (line : Fin 16) (handler : Option Handler) :
    dueCalls (Function.update handlers (32 + line) handler) =
      Function.update (dueCalls handlers) line
        (handler.toList.map fun handler => (handler, 32 + line.val)) := by
  funext other
  by_cases same : other = line
  · subst same
    rw [Function.update_self, dueCalls, Function.update_self]
  · have different : 32 + other.val ≠ 32 + line.val := by omega
    rw [Function.update_of_ne same, dueCalls, dueCalls,
      Function.update_of_ne different]

theorem dueCalls_update_other (handlers : Nat → Option Handler) {number : Nat}
    (other : ∀ line : Fin 16, number ≠ 32 + line)
    (handler : Option Handler) :
    dueCalls (Function.update handlers number handler) = dueCalls handlers := by
  funext line
  rw [dueCalls, dueCalls, Function.update_of_ne (other line).symm]

theorem Ending.raise {pics : Pics}
    {remaining : Option (List (IrqAction Handler))}
    (ending : Ending pics remaining) (line : Fin 16) :
    Ending (pics.raise line) remaining := by
  have master : (pics.raise line).master.inService =
      pics.master.inService := by
    rw [Pics.raise]
    split <;> rfl
  have slave : (pics.raise line).slave.inService = pics.slave.inService := by
    rw [Pics.raise]
    split <;> rfl
  cases ending with
  | slave only masterOne slaveOne =>
      exact .slave only (master ▸ masterOne) (slave ▸ slaveOne)
  | master only masterOne noSlave =>
      exact .master only (master ▸ masterOne) (slave ▸ noSlave)
  | calls only idle =>
      exact .calls only ⟨master ▸ idle.master, slave ▸ idle.slave⟩
  | done idle => exact .done ⟨master ▸ idle.master, slave ▸ idle.slave⟩

/-- Every step is one of the service, or part of one. -/
theorem step_simulates :
    Simulates (@IrqStep Handler platform)
      (ServiceStep priorityOrder) shownEvent Serves := by
  intro state event after service serves taken
  cases taken with
  | serve served =>
      obtain ⟨events, later, run, same, related⟩ :=
        serve_simulates state event after service serves served
      exact ⟨events, later, run.mono fun _ _ _ => .serve, same, related⟩
  | raise line device =>
      obtain ⟨pending, calls, owed⟩ := service
      obtain ⟨programmed, cascadeFree, ending, samePending, sameCalls,
        sameOwed⟩ := serves
      subst samePending sameCalls sameOwed
      refine ⟨[.raised line], _, Run.single (ServiceStep.raise line), rfl,
        programmed.raise line, raise_cascadeFree cascadeFree device, ?_,
        (latched_raise_eq _ line).symm, rfl, rfl⟩
      exact ending.raise line
  | @instruction pics handlers line cpu =>
      obtain ⟨pending, calls, owed⟩ := service
      obtain ⟨programmed, cascadeFree, ending, samePending, sameCalls,
        sameOwed⟩ := serves
      subst samePending sameCalls sameOwed
      have number := interruptRegs_number platform line cpu
      cases ending with
      | done idle =>
          refine ⟨[.asked line], _, Run.single (ServiceStep.ask line), rfl,
            programmed, cascadeFree,
            (idle.oneInService line).ending handlers number, rfl, rfl, ?_⟩
          exact congrArg some (due_calleeActions handlers number).symm
  | @register pics handlers number handler =>
      obtain ⟨pending, calls, owed⟩ := service
      obtain ⟨programmed, cascadeFree, ending, samePending, sameCalls,
        sameOwed⟩ := serves
      subst samePending sameCalls sameOwed
      by_cases inRange : 32 ≤ number.toNat ∧ number.toNat < 48
      · let line : Fin 16 := ⟨number.toNat - 32, by omega⟩
        have place : number.toNat = 32 + line.val := by
          change _ = 32 + (number.toNat - 32)
          omega
        refine ⟨[], _, Run.single (ServiceStep.register line
          (handler.toList.map fun handler => (handler, 32 + line.val))), rfl,
          programmed, cascadeFree, ending, rfl, ?_, rfl⟩
        simp only [place]
        exact (dueCalls_update_line handlers line handler).symm
      · have other : ∀ line : Fin 16, number.toNat ≠ 32 + line := by
          intro line same
          omega
        refine ⟨[], _, .start, rfl, programmed, cascadeFree, ending, rfl, ?_,
          rfl⟩
        exact (dueCalls_update_other handlers other handler).symm

/-- What the service of a state is still to show. -/
def servedEvents (state : IrqState Handler) : List (IrqEvent Handler) :=
  (Service.expected priorityOrder
    ⟨state.pics.latched, dueCalls state.interruptHandlers,
      state.remaining.map (List.filterMap IrqAction.due)⟩).map shownEvent

/-- The steps that are left, with at most five for each pending line. -/
def servingSteps (state : IrqState Handler) : Nat :=
  5 * (priorityOrder.filter state.pics.latched).length +
    state.remaining.elim 0 fun actions => actions.length + 1

theorem calleeActions_length (handlers : Nat → Option Handler)
    {line : Fin 16} {regs : RegistersT}
    (number : regs.interruptNumber.toNat = 32 + line) :
    (calleeActions handlers (32 + line) regs).length ≤ 3 := by
  rw [calleeActions_eq handlers line regs number]
  by_cases upper : 8 ≤ line.val
  · rw [if_pos upper]
    cases handlers (32 + line) <;> simp
  · rw [if_neg upper]
    cases handlers (32 + line) <;> simp

theorem priorityOrder_nodup : priorityOrder.Nodup := by
  decide

theorem serve_lowers (serves : Serves state service)
    (taken : IrqServe platform state event after) :
    servingSteps after < servingSteps state := by
  obtain ⟨programmed, cascadeFree, ending, _⟩ := serves
  cases taken with
  | @interrupt pics after handlers vector cpu enabled acknowledged =>
      cases ending with
      | done idle =>
          rw [acknowledge_idle programmed idle] at acknowledged
          obtain ⟨line, first, given⟩ := Option.map_eq_some_iff.mp acknowledged
          obtain ⟨rfl, rfl⟩ := Prod.mk.inj given
          have number := interruptRegs_number platform line cpu
          have short := calleeActions_length handlers number
          rw [vector_toNat]
          simp only [servingSteps, filter_eq_cons priorityOrder_nodup first,
            latched_serve_eq cascadeFree, List.length_cons, Option.elim]
          omega
  | @outb pics handlers port value rest =>
      have latched : (pics.outb port value).latched = pics.latched := by
        cases ending with
        | slave => exact funext latched_endSlave
        | master => exact funext latched_endMaster
        | calls only _ =>
            obtain ⟨handler, regs, isCall⟩ := only _ List.mem_cons_self
            cases isCall
      simp only [servingSteps, latched, Option.elim, List.length_cons]
      omega
  | call =>
      simp only [servingSteps, Option.elim, List.length_cons]
      omega
  | exception =>
      simp only [servingSteps, Option.elim, List.length_cons]
      omega
  | iret =>
      simp only [servingSteps, Option.elim, List.length_nil]
      omega

/-- A state with interrupts enabled. -/
def enabledCpu : Cpu :=
  { quietCpu with eflags := 0x200#32 }

/-- When the processor can go no further with interrupts enabled, no request
is left. -/
theorem served_of_quiet (serves : Serves state service)
    (quiet : Quiet (IrqServe platform) state) :
    state.remaining = none ∧ state.pics.Idle ∧
      ∀ line, state.pics.latched line = false := by
  obtain ⟨pics, handlers, remaining⟩ := state
  obtain ⟨programmed, cascadeFree, ending, _⟩ := serves
  cases ending with
  | slave => exact absurd .outb (quiet _ _)
  | master => exact absurd .outb (quiet _ _)
  | @calls actions only idle =>
      cases actions with
      | nil => exact absurd .iret (quiet _ _)
      | cons action rest =>
          obtain ⟨handler, regs, rfl⟩ := only _ List.mem_cons_self
          exact absurd .call (quiet _ _)
  | done idle =>
      refine ⟨rfl, idle, ?_⟩
      have given := acknowledge_idle programmed idle
      cases first : priorityOrder.find? pics.latched with
      | some line =>
          rw [first] at given
          exact absurd (.interrupt enabledCpu rfl given) (quiet _ _)
      | none =>
          have none := List.find?_eq_none.mp first
          intro line
          by_cases cascade : line = 2
          · subst cascade
            exact cascadeFree
          · apply Bool.eq_false_iff.mpr
            apply none
            revert line
            decide

end Simulation

end Steps

/-! ## All runs -/

/-- The steps that leave a handler in `interrupt_handlers`. -/
def KeepsHandler {Handler : Type} (platform : Platform) (number : Nat) :
    Transition (IrqState Handler) (IrqEvent Handler) :=
  fun state event after =>
    IrqStep platform state event after ∧
      (after.interruptHandlers number).isSome

def restingPic : Pic where
  requested := fun _ => false
  inService := fun _ => false
  masked := fun _ => false
  offset := 0x08
  cascade := 0
  mode := 0
  single := false
  needsMode := true
  expects := .mask

def restingPics : Pics := ⟨restingPic, restingPic⟩

theorem keyPressed_run :
    ∃ state, Run (KeepsHandler quietPlatform 33)
      ⟨restingPics.initIrq, fun _ => some (), none⟩
      [.raised 1, .interrupt 33] state := by
  have raised : KeepsHandler quietPlatform 33
      ⟨restingPics.initIrq, fun _ => some (), none⟩ (some (.raised 1))
      ⟨restingPics.initIrq.raise 1, fun _ => some (), none⟩ :=
    ⟨.raise 1 (by decide), rfl⟩
  have acknowledged : (restingPics.initIrq.raise 1).acknowledge =
      some (33, (restingPics.initIrq.raise 1).serve 1) := rfl
  have interrupted : KeepsHandler quietPlatform 33
      ⟨restingPics.initIrq.raise 1, fun _ => some (), none⟩
      (some (.interrupt 33)) _ :=
    ⟨.serve (.interrupt enabledCpu rfl acknowledged), rfl⟩
  exact ⟨_, (Run.single raised).next interrupted⟩

section Runs

variable {Handler : Type} (platform : Platform) (pics : Pics)
  (handlers : Nat → Option Handler)
  {events : List (IrqEvent Handler)} {state : IrqState Handler}

theorem serves_initIrq :
    Serves ⟨pics.initIrq, handlers, none⟩
      ⟨fun _ => false, dueCalls handlers, none⟩ where
  programmed := initIrq_programmed pics
  cascadeFree := rfl
  ending := .done (initIrq_idle pics)
  pending := (funext (initIrq_latched pics)).symm
  calls := rfl
  owed := rfl

/-- After `init_irq`, every run of devices, user code, controllers, stubs and
`irq_handler` is a run of the service by priority, whatever the controllers
held before.  Handlers are called for one request at a time, with its vector,
and no line stays in service after `iret`. -/
theorem device_requests_refine_service
    (run : Run (IrqStep platform) ⟨pics.initIrq, handlers, none⟩ events
      state) :
    ∃ shown service,
      Run (ServiceStep priorityOrder)
        ⟨fun _ => false, dueCalls handlers, none⟩ shown service ∧
      shown.map shownEvent = events ∧ Serves state service :=
  step_simulates.run (serves_initIrq pics handlers) run

theorem device_requests_refine_service_key :
    ∃ state shown service,
      Run (ServiceStep priorityOrder)
        ⟨fun _ => false, dueCalls fun _ => some (), none⟩ shown service ∧
      shown.map shownEvent = [.raised 1, .interrupt 33] ∧
      Serves state service := by
  obtain ⟨state, run⟩ := keyPressed_run
  exact ⟨state, device_requests_refine_service quietPlatform restingPics _
    (run.mono fun _ _ _ taken => taken.1)⟩

/-- From every state of such a run, the processor comes to an end with all
requests if it keeps interrupts enabled, after a bounded number of steps on
every way.  It has then served each pending line once, in the order of
priority, and nothing else. -/
theorem pending_requests_are_served
    (run : Run (IrqStep platform) ⟨pics.initIrq, handlers, none⟩ events
      state) :
    (∃ served last, Run (IrqServe platform) state served last ∧
      Quiet (IrqServe platform) last) ∧
    (∀ count last, Steps (IrqServe platform) state count last →
      count ≤ servingSteps state) ∧
    ∀ served last, Run (IrqServe platform) state served last →
      Quiet (IrqServe platform) last →
      served = servedEvents state ∧ last.remaining = none ∧
        last.pics.Idle ∧ ∀ line, last.pics.latched line = false := by
  obtain ⟨_, service, _, _, serves⟩ :=
    step_simulates.run (serves_initIrq pics handlers) run
  have kept : ∀ (state : IrqState Handler) event after,
      (∃ service, Serves state service) →
      IrqServe platform state event after →
      ∃ service, Serves after service := by
    rintro state event after ⟨service, serves⟩ taken
    obtain ⟨_, later, _, _, related⟩ :=
      serve_simulates state event after service serves taken
    exact ⟨later, related⟩
  have lowers : ∀ (state : IrqState Handler) event after,
      (∃ service, Serves state service) →
      IrqServe platform state event after →
      servingSteps after < servingSteps state := by
    rintro state event after ⟨service, serves⟩ taken
    exact serve_lowers serves taken
  refine ⟨?_, ?_, ?_⟩
  · exact exists_quiet _ servingSteps kept lowers state ⟨service, serves⟩
  · intro count last steps
    have bounded :=
      (steps.add_measure_le _ _ kept lowers ⟨service, serves⟩).2
    omega
  · intro served last serving quiet
    obtain ⟨shown, later, abstractRun, same, related⟩ :=
      serve_simulates.run serves serving
    obtain ⟨notRemaining, idle, notLatched⟩ := served_of_quiet related quiet
    refine ⟨?_, notRemaining, idle, notLatched⟩
    have nothing : later.Served priorityOrder := by
      refine ⟨?_, ?_⟩
      · rw [related.owed, notRemaining]
        rfl
      · intro line _
        rw [related.pending, notLatched]
    have all := Service.events_of_run priorityOrder_nodup abstractRun
    rw [nothing.expected, List.append_nil] at all
    rw [← same, ← all, servedEvents, ← serves.pending, ← serves.calls,
      ← serves.owed]

theorem twoRaised_run :
    Run (IrqStep quietPlatform)
      ⟨restingPics.initIrq, fun _ => some (), none⟩ [.raised 4, .raised 1]
      ⟨(restingPics.initIrq.raise 4).raise 1, fun _ => some (), none⟩ :=
  (Run.single (IrqStep.raise 4 (by decide))).next
    (IrqStep.raise 1 (by decide))

theorem pending_requests_are_served_twoLines :
    let state : IrqState Unit :=
      ⟨(restingPics.initIrq.raise 4).raise 1, fun _ => some (), none⟩
    (∃ last, Run (IrqServe quietPlatform) state
        [.interrupt 33, .called () 33, .interrupt 36, .called () 36] last ∧
      last.remaining = none ∧ last.pics.Idle ∧
        ∀ line, last.pics.latched line = false) ∧
      ∀ count last, Steps (IrqServe quietPlatform) state count last →
        count ≤ 10 := by
  obtain ⟨⟨served, last, serving, quiet⟩, bounded, ends⟩ :=
    pending_requests_are_served quietPlatform restingPics _ twoRaised_run
  obtain ⟨same, done⟩ := ends served last serving quiet
  have inOrder : servedEvents
      ⟨(restingPics.initIrq.raise 4).raise 1, fun _ => some (), none⟩ =
        [.interrupt 33, .called () 33, .interrupt 36, .called () 36] := by
    decide
  rw [same, inOrder] at serving
  exact ⟨⟨last, serving, done⟩, bounded⟩

/-! ### Accounting -/

/-- The processor enters the stub of a vector. -/
def IrqEvent.enters (number : Nat) : IrqEvent Handler → Bool
  | .interrupt vector => vector == number
  | .instruction vector => vector == number
  | _ => false

/-- A handler is called for a vector. -/
def IrqEvent.calls (number : Nat) : IrqEvent Handler → Bool
  | .called _ vector => vector == number
  | _ => false

/-- The calls for a vector that are still to come in the service at hand. -/
def owedCalls (number : Nat) (state : IrqState Handler) : Nat :=
  ((state.remaining.getD []).filterMap IrqAction.due).countP
    fun call => call.2 == number

/-- A line with a handler owes one call for its vector, and none for the
others. -/
theorem countP_dueCalls {handlers : Nat → Option Handler} {line : Fin 16}
    {number : Nat} (registered : (handlers number).isSome) :
    (dueCalls handlers line).countP (fun call => call.2 == number) =
      if 32 + line.val = number then 1 else 0 := by
  by_cases same : 32 + line.val = number
  · obtain ⟨handler, isHandler⟩ := Option.isSome_iff_exists.mp registered
    rw [if_pos same, dueCalls, same, isHandler]
    simp
  · rw [if_neg same, dueCalls]
    cases handlers (32 + line) with
    | none => rfl
    | some handler => simp [same]

variable {platform pics handlers} {number : Nat}

/-- What one step adds to the entries it adds to the calls. -/
theorem KeepsHandler.balance {after : IrqState Handler}
    {event : Option (IrqEvent Handler)}
    {service : Service (Fin 16) (Handler × Nat)}
    (serves : Serves state service)
    (taken : KeepsHandler platform number state event after) :
    event.toList.countP (IrqEvent.calls number) + owedCalls number after =
      owedCalls number state +
        event.toList.countP (IrqEvent.enters number) := by
  obtain ⟨step, registered⟩ := taken
  have entered (line : Fin 16) (cpu : Cpu)
      (handlers : Nat → Option Handler)
      (registered : (handlers number).isSome) :
      ((calleeActions handlers (32 + line)
        (interruptRegs platform (32 + line) cpu)).filterMap
          IrqAction.due).countP (fun call => call.2 == number) =
        if 32 + line.val = number then 1 else 0 := by
    rw [due_calleeActions handlers (interruptRegs_number platform line cpu),
      countP_dueCalls registered]
  cases step with
  | raise line device => exact Nat.zero_add _
  | instruction line cpu =>
      have due := entered line cpu _ registered
      simp only [owedCalls, Option.getD, due]
      by_cases same : 32 + line.val = number
      · simp [same, IrqEvent.calls, IrqEvent.enters]
      · simp [same, IrqEvent.calls, IrqEvent.enters]
  | register _ _ => rfl
  | serve served =>
      cases served with
      | @interrupt pics after handlers vector cpu enabled acknowledged =>
          obtain ⟨programmed, _, ending, _⟩ := serves
          cases ending with
          | done idle =>
              rw [acknowledge_idle programmed idle] at acknowledged
              obtain ⟨line, first, given⟩ :=
                Option.map_eq_some_iff.mp acknowledged
              obtain ⟨rfl, rfl⟩ := Prod.mk.inj given
              have due := entered line cpu handlers registered
              simp only [owedCalls, Option.getD, vector_toNat, due]
              by_cases same : 32 + line.val = number
              · simp [same, IrqEvent.calls, IrqEvent.enters]
              · simp [same, IrqEvent.calls, IrqEvent.enters]
      | outb => exact Nat.zero_add _
      | @call pics handlers handler regs rest =>
          simp only [owedCalls, Option.getD, List.filterMap_cons,
            IrqAction.due, List.countP_cons]
          by_cases same : regs.interruptNumber.toNat = number
          · simp [same, IrqEvent.calls, IrqEvent.enters, Nat.add_comm]
          · simp [same, IrqEvent.calls, IrqEvent.enters]
      | exception => exact Nat.zero_add _
      | iret => rfl

theorem KeepsHandler.balanced
    (run : Run (KeepsHandler platform number)
      ⟨pics.initIrq, handlers, none⟩ events state) :
    (∃ service, Serves state service) ∧
      events.countP (IrqEvent.calls number) + owedCalls number state =
        events.countP (IrqEvent.enters number) := by
  apply run.invariant
    (fun events state => (∃ service, Serves state service) ∧
      events.countP (IrqEvent.calls number) + owedCalls number state =
        events.countP (IrqEvent.enters number))
    ⟨⟨_, serves_initIrq pics handlers⟩, rfl⟩
  rintro events state event after ⟨⟨service, serves⟩, balance⟩ taken
  obtain ⟨_, later, _, _, related⟩ :=
    step_simulates state event after service serves taken.1
  refine ⟨⟨later, related⟩, ?_⟩
  have step := taken.balance serves
  rw [List.countP_append, List.countP_append]
  omega

/-- While a handler stays registered for a vector, it is called once for every
entry through the stub of that vector: as often as the processor has entered
it, but for the call that the service at hand still owes. -/
theorem handler_called_for_every_entry
    (run : Run (KeepsHandler platform number)
      ⟨pics.initIrq, handlers, none⟩ events state) :
    events.countP (IrqEvent.calls number) + owedCalls number state =
      events.countP (IrqEvent.enters number) :=
  (KeepsHandler.balanced run).2

theorem handler_called_for_every_entry_key :
    ∃ state : IrqState Unit,
      ([.raised 1, .interrupt 33] : List (IrqEvent Unit)).countP
          (IrqEvent.calls 33) + owedCalls 33 state =
        ([.raised 1, .interrupt 33] : List (IrqEvent Unit)).countP
          (IrqEvent.enters 33) := by
  obtain ⟨state, run⟩ := keyPressed_run
  exact ⟨state, handler_called_for_every_entry run⟩

end Runs

end Newbos
