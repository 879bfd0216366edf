import Mathlib.Data.Fintype.Pigeonhole
import Mathlib.Logic.Function.Iterate
import Mathlib.Logic.Relation

/-!
# Loops that may not end

A `while` loop is a test and a step.  It ends when some state that it reaches
fails the test; an invariant that implies the test shows that it does not.  A
loop that is left from inside its body is a step that may have no next state.
-/

namespace Newbos

variable {σ : Type} {test : σ → Prop} {step : σ → σ} {state : σ}

/-- The loop ends when it is started in a state. -/
def Ends (test : σ → Prop) (step : σ → σ) (state : σ) : Prop :=
  ∃ rounds, ¬test (step^[rounds] state)

theorem Ends.of_done (done : ¬test state) : Ends test step state :=
  ⟨0, done⟩

/-- One round does not decide whether a loop ends. -/
theorem ends_step_iff (running : test state) :
    Ends test step state ↔ Ends test step (step state) := by
  constructor
  · rintro ⟨rounds, done⟩
    cases rounds with
    | zero => exact absurd running done
    | succ rounds => exact ⟨rounds, done⟩
  · rintro ⟨rounds, done⟩
    exact ⟨rounds + 1, done⟩

theorem not_ends_of_invariant (inv : σ → Prop)
    (live : ∀ state, inv state → test state)
    (kept : ∀ state, inv state → inv (step state)) (holds : inv state) :
    ¬Ends test step state := by
  rintro ⟨rounds, done⟩
  induction rounds generalizing state with
  | zero => exact done (live state holds)
  | succ rounds induction => exact induction (kept state holds) done

/-- A loop whose test holds of finitely many states only ends exactly when it
does not come back to a state before that. -/
theorem ends_iff_no_return (states : Finset σ)
    (finite : ∀ state, test state → state ∈ states) :
    Ends test step state ↔
      ∀ later, (∀ round ≤ later, test (step^[round] state)) →
        ∀ earlier < later, step^[earlier] state ≠ step^[later] state := by
  constructor
  · intro ends later running earlier before same
    -- The states in front of the second visit are all there is to come.
    refine not_ends_of_invariant
      (fun other => ∃ round < later, other = step^[round] state)
      ?_ ?_ ⟨0, by omega, rfl⟩ ends
    · rintro other ⟨round, early, rfl⟩
      exact running round (Nat.le_of_lt early)
    · rintro other ⟨round, early, rfl⟩
      rw [← Function.iterate_succ_apply' step]
      by_cases last : round + 1 = later
      · exact ⟨earlier, before, by rw [same, ← last]⟩
      · exact ⟨round + 1, by omega, rfl⟩
  · intro noReturn
    by_contra forever
    have running : ∀ round, test (step^[round] state) := by
      intro round
      by_contra done
      exact forever ⟨round, done⟩
    let visited : Nat → states := fun round =>
      ⟨step^[round] state, finite _ (running round)⟩
    obtain ⟨first, second, different, same⟩ :=
      Finite.exists_ne_map_eq_of_infinite visited
    have sameState : step^[first] state = step^[second] state :=
      congrArg Subtype.val same
    rcases Nat.lt_or_gt_of_ne different with before | before
    · exact noReturn second (fun round _ => running round) first before
        sameState
    · exact noReturn first (fun round _ => running round) second before
        sameState.symm

/-- A loop that tests after its body, for at most so many rounds. -/
def doWhile (again : σ → Bool) (body : σ → σ) : Nat → σ → Option σ
  | 0, _ => none
  | rounds + 1, state =>
      if again (body state) then doWhile again body rounds (body state)
      else some (body state)

/-- The loop is left after the first round whose test fails. -/
theorem doWhile_eq_iterate {again : σ → Bool} {body : σ → σ}
    {rounds bound : Nat} {state : σ}
    (running : ∀ round < rounds, again (body^[round + 1] state) = true)
    (done : again (body^[rounds + 1] state) = false)
    (enough : rounds < bound) :
    doWhile again body bound state = some (body^[rounds + 1] state) := by
  induction rounds generalizing state bound with
  | zero =>
      cases bound with
      | zero => exact absurd enough (Nat.not_lt_zero 0)
      | succ bound =>
          rw [Function.iterate_one] at done
          simp [doWhile, done]
  | succ rounds induction =>
      cases bound with
      | zero => exact absurd enough (Nat.not_lt_zero _)
      | succ bound =>
          have first : again (body state) = true := running 0 (by omega)
          rw [doWhile, if_pos first]
          exact induction
            (fun round early => running (round + 1) (by omega)) done
            (by omega)

/-- More rounds do not change a result. -/
theorem doWhile_mono {again : σ → Bool} {body : σ → σ} {bound more : Nat}
    {state final : σ} (ended : doWhile again body bound state = some final)
    (later : bound ≤ more) : doWhile again body more state = some final := by
  induction bound generalizing state more with
  | zero => cases ended
  | succ bound induction =>
      cases more with
      | zero => exact absurd later (Nat.not_succ_le_zero bound)
      | succ more =>
          rw [doWhile] at ended ⊢
          by_cases running : again (body state) = true
          · rw [if_pos running] at ended ⊢
            exact induction ended (by omega)
          · rw [if_neg running] at ended ⊢
            exact ended

/-- The loop whose body is `body` comes to a state. -/
def Visits (body : σ → Option σ) : σ → σ → Prop :=
  Relation.ReflTransGen fun state next => body state = some next

theorem Visits.invariant {body : σ → Option σ} {start : σ}
    (inv : σ → Prop)
    (kept : ∀ state next, inv state → body state = some next → inv next)
    (holds : inv start) (visits : Visits body start state) : inv state := by
  induction visits with
  | refl => exact holds
  | tail _ step induction => exact kept _ _ induction step

/-! ## Loops and their bodies -/

section Bodies

variable {ρ : Type} {body : σ → Option σ} {leave : σ → ρ} {start : σ}

/-- `run` is the loop with this body: it goes on from the next state, and where
there is none it is left. -/
def HasBody (body : σ → Option σ) (leave run : σ → ρ) : Prop :=
  ∀ state, run state = (body state).elim (leave state) run

/-- The same for a loop that counts its rounds down. -/
def HasFueledBody (body : σ → Option σ) (leave : σ → ρ)
    (run : Nat → σ → ρ) : Prop :=
  ∀ fuel state,
    run (fuel + 1) state = (body state).elim (leave state) (run fuel)

/-- What a loop returns is what it returns from any state that it visits. -/
theorem HasBody.visits {run : σ → ρ} (loop : HasBody body leave run)
    (visits : Visits body start state) :
    run start = (body state).elim (leave state) run := by
  rw [← loop state]
  refine visits.invariant (fun state => run start = run state) ?_ rfl
  intro state next same step
  rw [same, loop state, step]
  rfl

theorem HasFueledBody.visits {run : Nat → σ → ρ}
    (loop : HasFueledBody body leave run)
    (visits : Visits body start state) :
    ∃ rounds, ∀ fuel, run (fuel + 1 + rounds) start =
      (body state).elim (leave state) (run fuel) := by
  suffices same : ∃ rounds, ∀ fuel,
      run (fuel + rounds) start = run fuel state by
    obtain ⟨rounds, same⟩ := same
    refine ⟨rounds, ?_⟩
    intro fuel
    rw [same, loop]
  refine visits.invariant (fun state => ∃ rounds, ∀ fuel,
    run (fuel + rounds) start = run fuel state) ?_ ⟨0, fun _ => rfl⟩
  rintro state next ⟨rounds, same⟩ step
  refine ⟨rounds + 1, ?_⟩
  intro fuel
  have again : run (fuel + 1) state = run fuel next := by
    rw [loop, step]
    rfl
  rw [← again, ← same, Nat.add_right_comm, Nat.add_assoc]

end Bodies

end Newbos
