import Mathlib.Data.List.Basic

/-!
# Transition systems and simulation

A system takes steps, and a step may show an event.  What every step keeps
holds after every run, a measure that every step lowers bounds the runs, and a
simulation turns the runs of one system into runs of another that show the
same events.
-/

namespace Newbos

/-- Steps between states, with the event that each one shows. -/
abbrev Transition (State Event : Type) : Type :=
  State → Option Event → State → Prop

section Runs

variable {State Event : Type} {step : Transition State Event}
  {start state after : State} {events later : List Event}

/-- The states that are reached, with the events shown on the way. -/
inductive Run (step : Transition State Event) (start : State) :
    List Event → State → Prop where
  | start : Run step start [] start
  | next {events : List Event} {state after : State} {event : Option Event} :
      Run step start events state →
      step state event after →
      Run step start (events ++ event.toList) after

theorem Run.single {event : Option Event} (taken : step state event after) :
    Run step state event.toList after :=
  Run.next Run.start taken

theorem Run.trans (first : Run step start events state)
    (second : Run step state later after) :
    Run step start (events ++ later) after := by
  induction second with
  | start => rwa [List.append_nil]
  | next _ taken induction =>
      rw [← List.append_assoc]
      exact induction.next taken

/-- A property of the events so far and the state that every step keeps. -/
theorem Run.invariant (run : Run step start events state)
    (inv : List Event → State → Prop) (atStart : inv [] start)
    (kept : ∀ events state event after, inv events state →
      step state event after → inv (events ++ event.toList) after) :
    inv events state := by
  induction run with
  | start => exact atStart
  | next _ taken induction => exact kept _ _ _ _ induction taken

/-- Where each step shows the next part of what is expected, a run shows the
first part of it. -/
theorem Run.expected (run : Run step start events state)
    (expected : State → List Event)
    (each : ∀ state event after, step state event after →
      expected state = event.toList ++ expected after) :
    expected start = events ++ expected state := by
  induction run with
  | start => rfl
  | next _ taken induction =>
      rw [induction, each _ _ _ taken, List.append_assoc]

/-- A run of a system is one of every system that has its steps. -/
theorem Run.mono {other : Transition State Event}
    (run : Run step start events state)
    (allowed : ∀ state event after, step state event after →
      other state event after) : Run other start events state := by
  induction run with
  | start => exact .start
  | next _ taken induction => exact induction.next (allowed _ _ _ taken)

end Runs

section Simulation

variable {Concrete Abstract Event SpecEvent : Type}
  {step : Transition Concrete Event} {spec : Transition Abstract SpecEvent}
  {shown : SpecEvent → Event} {related : Concrete → Abstract → Prop}
  {start state : Concrete} {abstract : Abstract} {events : List Event}

/-- Every concrete step is an abstract run that shows the same event. -/
def Simulates (step : Transition Concrete Event)
    (spec : Transition Abstract SpecEvent) (shown : SpecEvent → Event)
    (related : Concrete → Abstract → Prop) : Prop :=
  ∀ state event after abstract, related state abstract →
    step state event after →
    ∃ specEvents later, Run spec abstract specEvents later ∧
      specEvents.map shown = event.toList ∧ related after later

theorem Simulates.run (simulates : Simulates step spec shown related)
    (initial : related start abstract) (run : Run step start events state) :
    ∃ specEvents later, Run spec abstract specEvents later ∧
      specEvents.map shown = events ∧ related state later := by
  induction run with
  | start => exact ⟨[], abstract, .start, rfl, initial⟩
  | next _ taken induction =>
      obtain ⟨before, middle, first, same, relatedMiddle⟩ := induction
      obtain ⟨after, later, second, sameAfter, relatedLater⟩ :=
        simulates _ _ _ _ relatedMiddle taken
      refine ⟨before ++ after, later, first.trans second, ?_, relatedLater⟩
      rw [List.map_append, same, sameAfter]

end Simulation

section Termination

variable {State Event : Type} {step : Transition State Event}
  {start state : State}

/-- A state in which no step is possible. -/
def Quiet (step : Transition State Event) (state : State) : Prop :=
  ∀ event after, ¬step state event after

/-- Steps that keep an invariant and lower a measure lead to a state in which
none is possible. -/
theorem exists_quiet (inv : State → Prop) (measure : State → Nat)
    (kept : ∀ state event after, inv state → step state event after →
      inv after)
    (lowers : ∀ state event after, inv state → step state event after →
      measure after < measure state) (start : State) (initial : inv start) :
    ∃ events state, Run step start events state ∧ Quiet step state := by
  by_cases quiet : Quiet step start
  · exact ⟨[], start, .start, quiet⟩
  · unfold Quiet at quiet
    push Not at quiet
    obtain ⟨event, after, taken⟩ := quiet
    have lower := lowers _ _ _ initial taken
    obtain ⟨events, state, run, last⟩ := exists_quiet inv measure kept lowers
      after (kept _ _ _ initial taken)
    exact ⟨_, state, (Run.single taken).trans run, last⟩
termination_by measure start

/-- The states that are reached in a number of steps. -/
inductive Steps (step : Transition State Event) (start : State) :
    Nat → State → Prop where
  | zero : Steps step start 0 start
  | succ {count : Nat} {state after : State} {event : Option Event} :
      Steps step start count state →
      step state event after →
      Steps step start (count + 1) after

/-- The measure bounds the number of steps. -/
theorem Steps.add_measure_le (inv : State → Prop) (measure : State → Nat)
    (kept : ∀ state event after, inv state → step state event after →
      inv after)
    (lowers : ∀ state event after, inv state → step state event after →
      measure after < measure state) (initial : inv start) {count : Nat}
    (steps : Steps step start count state) :
    inv state ∧ count + measure state ≤ measure start := by
  induction steps with
  | zero => exact ⟨initial, Nat.le_of_eq (Nat.zero_add _)⟩
  | succ _ taken induction =>
      obtain ⟨held, bounded⟩ := induction
      have lower := lowers _ _ _ held taken
      exact ⟨kept _ _ _ held taken, by omega⟩

end Termination

end Newbos
