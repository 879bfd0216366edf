import Newbos.Library.Transition

/-!
# Service by priority

Requests are latched and taken one at a time, the one that comes first in a
given order before the others.  Each is answered by the calls that are due for
its line.  Serving shows every pending line once.
-/

namespace Newbos

/-- Pending requests, the calls that are due for each line, and the calls left
for the line in service. -/
structure Service (Line Call : Type) where
  pending : Line → Bool
  calls : Line → List Call
  owed : Option (List Call)

inductive ServiceEvent (Line Call : Type) where
  | raised (line : Line)
  | accepted (line : Line)
  | asked (line : Line)
  | called (call : Call)
  deriving DecidableEq, Repr

section Steps

variable {Line Call : Type}

namespace Service

/-- The events of the service of one line. -/
def answers (calls : Line → List Call) (line : Line) :
    List (ServiceEvent Line Call) :=
  .accepted line :: (calls line).map .called

/-- The events still to come when no further request is made. -/
def expected (order : List Line) (state : Service Line Call) :
    List (ServiceEvent Line Call) :=
  (state.owed.getD []).map .called ++
    (order.filter state.pending).flatMap (answers state.calls)

end Service

/-- Nothing is in service and no line of the order is pending. -/
structure Service.Served (order : List Line) (state : Service Line Call) :
    Prop where
  owed : state.owed = none
  pending : ∀ line ∈ order, state.pending line = false

theorem Service.Served.expected {order : List Line}
    {state : Service Line Call} (served : state.Served order) :
    state.expected order = [] := by
  have none : order.filter state.pending = [] := by
    apply List.filter_eq_nil_iff.mpr
    intro line member
    rw [served.pending line member]
    exact Bool.false_ne_true
  rw [Service.expected, served.owed, none]
  rfl

variable [DecidableEq Line]

/-- The steps that serve what is pending. -/
inductive ServeStep (order : List Line) :
    Transition (Service Line Call) (ServiceEvent Line Call) where
  | accept {pending : Line → Bool} {calls : Line → List Call} {line : Line} :
      order.find? pending = some line →
      ServeStep order ⟨pending, calls, none⟩ (some (.accepted line))
        ⟨Function.update pending line false, calls, some (calls line)⟩
  | call {pending : Line → Bool} {calls : Line → List Call} {call : Call}
      {owed : List Call} :
      ServeStep order ⟨pending, calls, some (call :: owed)⟩
        (some (.called call)) ⟨pending, calls, some owed⟩
  | finish {pending : Line → Bool} {calls : Line → List Call} :
      ServeStep order ⟨pending, calls, some []⟩ none ⟨pending, calls, none⟩

/-- All steps: requests come at any time, and between two services a line may
be asked for directly or get other calls. -/
inductive ServiceStep (order : List Line) :
    Transition (Service Line Call) (ServiceEvent Line Call) where
  | serve {state after : Service Line Call}
      {event : Option (ServiceEvent Line Call)} :
      ServeStep order state event after → ServiceStep order state event after
  | raise {pending : Line → Bool} {calls : Line → List Call}
      {owed : Option (List Call)} (line : Line) :
      ServiceStep order ⟨pending, calls, owed⟩ (some (.raised line))
        ⟨Function.update pending line true, calls, owed⟩
  | ask {pending : Line → Bool} {calls : Line → List Call} (line : Line) :
      ServiceStep order ⟨pending, calls, none⟩ (some (.asked line))
        ⟨pending, calls, some (calls line)⟩
  | register {pending : Line → Bool} {calls : Line → List Call} (line : Line)
      (due : List Call) :
      ServiceStep order ⟨pending, calls, none⟩ none
        ⟨pending, Function.update calls line due, none⟩

variable {order : List Line} {start state after : Service Line Call}
  {event : Option (ServiceEvent Line Call)}
  {events : List (ServiceEvent Line Call)}

/-- The first line that is found is the first of those that satisfy the
condition. -/
theorem filter_eq_cons (nodup : order.Nodup) {pending : Line → Bool}
    {line : Line} (first : order.find? pending = some line) :
    order.filter pending =
      line :: order.filter (Function.update pending line false) := by
  induction order with
  | nil => cases first
  | cons head tail induction =>
      obtain ⟨notInTail, tailNodup⟩ := List.nodup_cons.mp nodup
      by_cases isPending : pending head = true
      · rw [List.find?_cons_of_pos isPending] at first
        cases first
        rw [List.filter_cons_of_pos isPending, List.filter_cons_of_neg
          (by rw [Function.update_self]; exact Bool.false_ne_true)]
        congr 1
        apply List.filter_congr
        intro other member
        rw [Function.update_of_ne]
        rintro rfl
        exact notInTail member
      · rw [List.find?_cons_of_neg isPending] at first
        have different : head ≠ line := by
          rintro rfl
          exact isPending (List.find?_some first)
        rw [List.filter_cons_of_neg isPending, List.filter_cons_of_neg
          (by rwa [Function.update_of_ne different]),
          induction tailNodup first]

/-- Each step shows the next of the expected events. -/
theorem ServeStep.expected (nodup : order.Nodup)
    (taken : ServeStep order state event after) :
    state.expected order = event.toList ++ after.expected order := by
  cases taken with
  | accept first =>
      simp only [Service.expected, filter_eq_cons nodup first,
        List.flatMap_cons, Service.answers]
      rfl
  | call => rfl
  | finish => rfl

/-- Serving shows the expected events in their order. -/
theorem Service.events_of_run (nodup : order.Nodup)
    (run : Run (ServeStep order) start events state) :
    start.expected order = events ++ state.expected order :=
  run.expected (Service.expected order) fun _ _ _ => ServeStep.expected nodup

end Steps

end Newbos
