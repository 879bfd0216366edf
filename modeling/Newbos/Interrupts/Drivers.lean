import Newbos.Interrupts.Timer
import Newbos.Tty.Keyboard

/-!
# The drivers at work

The timer and the keyboard print from their interrupt handlers.  In every run
of devices, controllers, stubs and `irq_handler`, what they print follows the
interrupts that the processor takes.
-/

namespace Newbos

/-! ## The code -/

/-- The handlers that the kernel registers. -/
inductive Driver where
  | timer
  | keyboard
  deriving DecidableEq, Repr

/-- `tick`, and what has been printed. -/
structure DriverState where
  tick : Nat
  out : Output

/-- `keyboard_init`; `IRQ1` is 33. -/
def keyboardInit {Handler : Type} (keyboardCallback : Handler)
    (interruptHandlers : Nat → Option Handler) : Nat → Option Handler :=
  registerIrqHandler 33 keyboardCallback interruptHandlers

/-- Where the formats of the handlers are. -/
structure DriverStrings where
  timer : Nat
  keyboard : Nat

section Code

variable (mem : Nat → UInt8) (strings : DriverStrings) (fuel : Nat)

/-- `timer_callback`. -/
def timerCallback (drivers : DriverState) : Option DriverState :=
  let tick := w32 (drivers.tick + 1)
  (printk mem (fun _ => tick) strings.timer fuel drivers.out).map fun state =>
    ⟨tick, state.out⟩

/-- What an event does to the drivers; port 0x60 holds the byte then. -/
def runDriver (drivers : DriverState) :
    IrqEvent Driver × UInt8 → Option DriverState
  | (.called .timer _, _) => timerCallback mem strings fuel drivers
  | (.called .keyboard _, scancode) =>
      (keyboardCallback mem strings.keyboard fuel scancode drivers.out).map
        fun out => { drivers with out := out }
  | _ => some drivers

def runDrivers (events : List (IrqEvent Driver × UInt8))
    (drivers : DriverState) : Option DriverState :=
  events.foldlM (runDriver mem strings fuel) drivers

end Code

/-! ## What is printed -/

/-- The line of a tick. -/
def tickLine (tick : Nat) : List UInt8 :=
  asciiBytes "Tick: " ++ hexadecimal tick ++ asciiBytes "\n"

/-- What a key prints, where `text` is the string at the address of its
character. -/
def keyText (text : UInt8 → List UInt8) (scancode : UInt8) : List UInt8 :=
  if Released scancode then [] else text (keyboardKey scancode)

def IrqEvent.isTick : IrqEvent Driver → Bool
  | .called .timer _ => true
  | _ => false

/-- What an event prints after a number of ticks. -/
def eventText (text : UInt8 → List UInt8) (ticks : Nat) :
    IrqEvent Driver × UInt8 → List UInt8
  | (.called .timer _, _) => tickLine (w32 (ticks + 1))
  | (.called .keyboard _, scancode) => keyText text scancode
  | _ => []

/-- What events print; the lines of the ticks are numbered. -/
def eventsText (text : UInt8 → List UInt8) :
    Nat → List (IrqEvent Driver × UInt8) → List UInt8
  | _, [] => []
  | ticks, event :: rest =>
      eventText text ticks event ++
        eventsText text (ticks + event.1.isTick.toNat) rest

/-- The strings that the handlers print from. -/
structure HoldsFormats (mem : Nat → UInt8) (strings : DriverStrings)
    (text : UInt8 → List UInt8) (fuel : Nat) : Prop where
  timer : HoldsString mem strings.timer (asciiBytes "Tick: %X\n")
  keyboard : HoldsString mem strings.keyboard (asciiBytes "%s")
  keys : ∀ scancode, ¬Released scancode →
    HoldsString mem (keyboardKey scancode).toNat (text (keyboardKey scancode))
  enough : 10 ≤ fuel
  keysEnough : ∀ key, (text key).length + 3 ≤ fuel

section Printing

variable {mem : Nat → UInt8} {strings : DriverStrings}
  {text : UInt8 → List UInt8} {fuel : Nat}

theorem timerCallback_prints (holds : HoldsFormats mem strings text fuel)
    (ticks : Nat) (out : Output) :
    timerCallback mem strings fuel ⟨w32 ticks, out⟩ =
      some ⟨w32 (ticks + 1), out.writeAll (tickLine (w32 (ticks + 1)))⟩ := by
  have counted : w32 (w32 ticks + 1) = w32 (ticks + 1) := by
    simp only [w32]
    omega
  have before : asciiPercent ∉ asciiBytes "Tick: " := by decide
  have behind : asciiPercent ∉ asciiBytes "\n" := by decide
  have expands := Expands.literal before
    (.hexadecimal (w32 (ticks + 1)) (.literal behind .done))
  obtain ⟨final, returned, printed⟩ := @printk_expands mem
    (fun _ => w32 (ticks + 1)) strings.timer fuel _ _ _ expands (by decide)
    holds.timer ⟨rfl, trivial⟩ (by simp) (by
      have length : (asciiBytes "Tick: %X\n").length = 9 := rfl
      exact Nat.lt_of_lt_of_le (Nat.lt_of_le_of_lt length.le (by decide))
        holds.enough) out
  simp only [timerCallback, counted, returned, Option.map_some, printed]
  rw [tickLine, List.append_nil, List.append_assoc]

theorem runDriver_prints (holds : HoldsFormats mem strings text fuel)
    (ticks : Nat) (out : Output) (event : IrqEvent Driver × UInt8) :
    runDriver mem strings fuel ⟨w32 ticks, out⟩ event =
      some ⟨w32 (ticks + event.1.isTick.toNat),
        out.writeAll (eventText text ticks event)⟩ := by
  obtain ⟨event, scancode⟩ := event
  cases event with
  | called driver number =>
      cases driver with
      | timer => exact timerCallback_prints holds ticks out
      | keyboard =>
          by_cases released : Released scancode
          · simp only [runDriver, keyboardCallback, eventText, keyText,
              if_pos released]
            rfl
          · have written := @keyboardCallback_pressed mem strings.keyboard
              fuel scancode out released holds.keyboard _
              (holds.keys scancode released)
              (holds.keysEnough (keyboardKey scancode))
            simp only [runDriver, written, eventText, keyText,
              if_neg released]
            rfl
  | raised _ => rfl
  | interrupt _ => rfl
  | instruction _ => rfl
  | exception _ => rfl

theorem runDrivers_prints (holds : HoldsFormats mem strings text fuel)
    (events : List (IrqEvent Driver × UInt8)) (ticks : Nat) (out : Output) :
    runDrivers mem strings fuel events ⟨w32 ticks, out⟩ =
      some ⟨w32 (ticks + (events.map Prod.fst).countP IrqEvent.isTick),
        out.writeAll (eventsText text ticks events)⟩ := by
  induction events generalizing ticks out with
  | nil => rfl
  | cons event rest induction =>
      have counted : ∀ b : Bool, b.toNat = if b = true then 1 else 0 := by
        decide
      rw [runDrivers, List.foldlM_cons, runDriver_prints holds]
      have later := induction (ticks + event.1.isTick.toNat)
        (out.writeAll (eventText text ticks event))
      rw [runDrivers] at later
      rw [Option.bind_eq_bind, Option.bind_some, later, eventsText,
        Output.writeAll_append, List.map_cons, List.countP_cons, counted]
      rw [Nat.add_assoc, Nat.add_comm (List.countP _ _)]

end Printing

/-! ## All runs -/

/-- The steps that leave the timer registered for its line, and for it only. -/
def KeepsTimer (platform : Platform) :
    Transition (IrqState Driver) (IrqEvent Driver) :=
  fun state event after =>
    IrqStep platform state event after ∧
      ∀ number, after.interruptHandlers number = some .timer ↔ number = 32

section Runs

variable {Handler : Type} {platform : Platform}
  {state after : IrqState Handler} {event : Option (IrqEvent Handler)}

/-- What is owed are calls of the registered handlers. -/
def OwesRegistered (state : IrqState Handler) : Prop :=
  ∀ call ∈ (state.remaining.getD []).filterMap IrqAction.due,
    state.interruptHandlers call.2 = some call.1

theorem owesRegistered_entry (pics : Pics)
    (handlers : Nat → Option Handler) (line : Fin 16) (cpu : Cpu) :
    OwesRegistered ⟨pics, handlers, some (calleeActions handlers (32 + line)
      (interruptRegs platform (32 + line) cpu))⟩ := by
  intro call member
  simp only [Option.getD] at member
  rw [due_calleeActions handlers (interruptRegs_number platform line cpu),
    dueCalls] at member
  obtain ⟨handler, registered, rfl⟩ := List.mem_map.mp member
  exact Option.mem_toList.mp registered

/-- Only registered handlers are called, for the vector that they are
registered for. -/
theorem OwesRegistered.step {service : Service (Fin 16) (Handler × Nat)}
    (serves : Serves state service) (owes : OwesRegistered state)
    (taken : IrqStep platform state event after) :
    OwesRegistered after ∧ ∀ handler number,
      event = some (.called handler number) →
        after.interruptHandlers number = some handler := by
  cases taken with
  | raise line device => exact ⟨owes, by simp⟩
  | instruction line cpu => exact ⟨owesRegistered_entry _ _ line cpu, by simp⟩
  | register _ _ => exact ⟨by simp [OwesRegistered], by simp⟩
  | serve served =>
      cases served with
      | @interrupt pics after handlers vector cpu enabled acknowledged =>
          obtain ⟨programmed, _, ending, _⟩ := serves
          cases ending with
          | done idle =>
              rw [acknowledge_idle programmed idle] at acknowledged
              obtain ⟨line, first, given⟩ :=
                Option.map_eq_some_iff.mp acknowledged
              obtain ⟨rfl, rfl⟩ := Prod.mk.inj given
              rw [vector_toNat]
              exact ⟨owesRegistered_entry _ handlers line cpu, by simp⟩
      | outb => exact ⟨owes, by simp⟩
      | @call pics handlers handler regs rest =>
          obtain ⟨first, later⟩ := List.forall_mem_cons.mp owes
          refine ⟨later, ?_⟩
          rintro _ _ ⟨⟩
          exact first
      | exception => exact ⟨owes, by simp⟩
      | iret => exact ⟨owes, by simp⟩

end Runs

section Ticks

variable {platform : Platform} {pics : Pics} {handlers : Nat → Option Driver}
  {state : IrqState Driver}

theorem countP_isTick {events : List (IrqEvent Driver)}
    (run : Run (KeepsTimer platform) ⟨pics.initIrq, handlers, none⟩ events
      state) :
    events.countP IrqEvent.isTick = events.countP (IrqEvent.calls 32) := by
  have kept := run.invariant
    (fun events state => (∃ service, Serves state service) ∧
      OwesRegistered state ∧
      events.countP IrqEvent.isTick = events.countP (IrqEvent.calls 32))
    ⟨⟨_, serves_initIrq pics handlers⟩, by simp [OwesRegistered], rfl⟩ ?_
  · exact kept.2.2
  · rintro events state event after ⟨⟨service, serves⟩, owes, same⟩
      ⟨taken, registered⟩
    obtain ⟨_, later, _, _, related⟩ :=
      step_simulates state event after service serves taken
    obtain ⟨owesAfter, called⟩ := owes.step serves taken
    refine ⟨⟨later, related⟩, owesAfter, ?_⟩
    rw [List.countP_append, List.countP_append, same]
    cases event with
    | none => rfl
    | some event =>
        cases event with
        | called handler number =>
            have isRegistered := called handler number rfl
            have onTimer := registered number
            rw [isRegistered] at onTimer
            cases handler with
            | timer =>
                have number32 : number = 32 := onTimer.mp rfl
                rw [number32]
                rfl
            | keyboard =>
                have other : number ≠ 32 := by
                  rintro same
                  exact nomatch onTimer.mpr same
                simp [IrqEvent.isTick, IrqEvent.calls, other]
        | raised _ => rfl
        | interrupt _ => rfl
        | instruction _ => rfl
        | exception _ => rfl

variable {mem : Nat → UInt8} {strings : DriverStrings}
  {text : UInt8 → List UInt8} {fuel : Nat}
  {events : List (IrqEvent Driver × UInt8)}

/-- `interrupt_handlers` after `keyboard_init` and `timer_init`. -/
def driverHandlers : Nat → Option Driver :=
  registerIrqHandler 32 .timer (keyboardInit .keyboard fun _ => none)

theorem driverHandlers_timer (number : Nat) :
    driverHandlers number = some .timer ↔ number = 32 := by
  simp only [driverHandlers, keyboardInit, registerIrqHandler,
    Function.update_apply, UInt8.reduceToNat]
  split_ifs with timer keyboard
  · simp [timer]
  · simp [timer]
  · simp [timer]

theorem driver_run {pics after : Pics} {line : Fin 16} {vector : UInt8}
    {driver : Driver} (lower : line.val < 8) (device : line ≠ 2)
    (registered : driverHandlers (32 + line) = some driver)
    (acknowledged : (pics.raise line).acknowledge = some (vector, after))
    (number : vector.toNat = 32 + line) :
    Run (KeepsTimer quietPlatform) ⟨pics, driverHandlers, none⟩
      [.raised line, .interrupt (32 + line), .called driver (32 + line)]
      ⟨after.outb 0x20 0x20, driverHandlers, none⟩ := by
  let regs := interruptRegs quietPlatform (32 + line) enabledCpu
  have regsNumber : regs.interruptNumber.toNat = 32 + line :=
    interruptRegs_number quietPlatform line enabledCpu
  have actions : calleeActions driverHandlers (32 + line) regs =
      [.outb 0x20 0x20, .call driver regs] := by
    rw [calleeActions_eq driverHandlers line regs regsNumber,
      if_neg (Nat.not_le_of_lt lower), registered]
    rfl
  have raised : KeepsTimer quietPlatform ⟨pics, driverHandlers, none⟩
      (some (.raised line)) ⟨pics.raise line, driverHandlers, none⟩ :=
    ⟨.raise line device, driverHandlers_timer⟩
  have interrupted : KeepsTimer quietPlatform
      ⟨pics.raise line, driverHandlers, none⟩
      (some (.interrupt (32 + line)))
      ⟨after, driverHandlers,
        some [.outb 0x20 0x20, .call driver regs]⟩ := by
    have taken := @IrqServe.interrupt _ quietPlatform _ _ driverHandlers _
      enabledCpu rfl acknowledged
    rw [number, actions] at taken
    exact ⟨.serve taken, driverHandlers_timer⟩
  have ended : KeepsTimer quietPlatform
      ⟨after, driverHandlers, some [.outb 0x20 0x20, .call driver regs]⟩ none
      ⟨after.outb 0x20 0x20, driverHandlers, some [.call driver regs]⟩ :=
    ⟨.serve .outb, driverHandlers_timer⟩
  have called : KeepsTimer quietPlatform
      ⟨after.outb 0x20 0x20, driverHandlers, some [.call driver regs]⟩
      (some (.called driver (32 + line)))
      ⟨after.outb 0x20 0x20, driverHandlers, some []⟩ := by
    rw [← regsNumber]
    exact ⟨.serve .call, driverHandlers_timer⟩
  have returned : KeepsTimer quietPlatform
      ⟨after.outb 0x20 0x20, driverHandlers, some []⟩ none
      ⟨after.outb 0x20 0x20, driverHandlers, none⟩ :=
    ⟨.serve .iret, driverHandlers_timer⟩
  exact ((((Run.single raised).next interrupted).next ended).next called).next
    returned

/-- The timer interrupts, and then the keyboard. -/
theorem tickAndKey_run :
    ∃ pics, Run (KeepsTimer quietPlatform)
      ⟨restingPics.initIrq, driverHandlers, none⟩
      [.raised 0, .interrupt 32, .called .timer 32, .raised 1,
        .interrupt 33, .called .keyboard 33]
      ⟨pics, driverHandlers, none⟩ := by
  have tick := @driver_run restingPics.initIrq _ 0 32 .timer (by decide)
    (by decide) rfl rfl rfl
  have key := @driver_run
    (((restingPics.initIrq.raise 0).serve 0).outb 0x20 0x20) _ 1 33 .keyboard
    (by decide) (by decide) rfl rfl rfl
  exact ⟨_, tick.trans key⟩

/-- In every run the handlers return, and the screen shows a line for each tick
and the text of each key in the order of their calls.  The lines are numbered,
and `tick` is the number of entries through the stub of the timer, less the
call that the service at hand still owes. -/
theorem drivers_print_interrupts (holds : HoldsFormats mem strings text fuel)
    (run : Run (KeepsTimer platform) ⟨pics.initIrq, handlers, none⟩
      (events.map Prod.fst) state) (out : Output) :
    ∃ ticks after,
      runDrivers mem strings fuel events ⟨0, out⟩ = some ⟨w32 ticks, after⟩ ∧
      out.Writes after (eventsText text 0 events) ∧
      ticks + owedCalls 32 state =
        (events.map Prod.fst).countP (IrqEvent.enters 32) := by
  have keepsHandler : Run (KeepsHandler platform 32)
      ⟨pics.initIrq, handlers, none⟩ (events.map Prod.fst) state := by
    apply run.mono
    rintro _ _ after ⟨taken, registered⟩
    refine ⟨taken, ?_⟩
    rw [(registered 32).mpr rfl]
    rfl
  have balanced := (KeepsHandler.balanced keepsHandler).2
  have printed := runDrivers_prints holds events 0 out
  rw [countP_isTick run, Nat.zero_add] at printed
  exact ⟨_, _, printed, out.writes_writeAll _, balanced⟩

/-- The formats, one behind the other above the codes of the keys, and the
string `a` at the code of its own character. -/
def driverMemory (address : Nat) : UInt8 :=
  if address = 97 then 97
  else
    stringAt 0x1000
      (asciiBytes "Tick: %X\n" ++ [0] ++ (asciiBytes "%s" ++ [0])) address

/-- The strings of the keys in that memory. -/
def driverText (key : UInt8) : List UInt8 :=
  if key = 97 then [97] else []

theorem holdsFormats_driverMemory :
    HoldsFormats driverMemory ⟨0x1000, 0x100A⟩ driverText 10 where
  timer := by decide
  keyboard := by decide
  keys := by
    intro scancode _
    generalize keyboardKey scancode = key
    by_cases isA : key = 97
    · rw [isA]
      decide
    · have small := key.toNat_lt
      have low : w32 key.toNat = key.toNat := w32_of_lt (by omega)
      have notA : key.toNat ≠ 97 := fun same =>
        isA (UInt8.toNat_inj.mp same)
      rw [driverText, if_neg isA, HoldsString, low, driverMemory,
        if_neg notA]
      exact if_neg (by omega)
  enough := Nat.le_refl 10
  keysEnough := by
    intro key
    rw [driverText]
    split_ifs <;> decide

/-- A tick, and the key `a`. -/
theorem drivers_print_interrupts_tickAndKey :
    let events : List (IrqEvent Driver × UInt8) :=
      [(.raised 0, 0), (.interrupt 32, 0), (.called .timer 32, 0),
        (.raised 1, 0), (.interrupt 33, 0), (.called .keyboard 33, 0x1E)]
    ∃ after,
      runDrivers driverMemory ⟨0x1000, 0x100A⟩ 10 events
          ⟨0, ⟨ttyClear zeroTty, []⟩⟩ = some ⟨1, after⟩ ∧
        Shows after.tty (Terminal.blank.writeAll (tickLine 1 ++ [97])) := by
  intro events
  obtain ⟨pics, run⟩ := tickAndKey_run
  obtain ⟨ticks, after, printed, writes, balance⟩ := @drivers_print_interrupts
    quietPlatform restingPics driverHandlers _ driverMemory
    ⟨0x1000, 0x100A⟩ driverText 10 events holdsFormats_driverMemory run
    ⟨ttyClear zeroTty, []⟩
  have one : ticks = 1 := balance
  have text : eventsText driverText 0 events = tickLine 1 ++ [97] := by
    decide
  refine ⟨after, ?_, ?_⟩
  · rw [printed, one]
    rfl
  · rw [← text]
    exact writes.shown Terminal.blank (clear_shows zeroTty)

end Ticks

end Newbos
