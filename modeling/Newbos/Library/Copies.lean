import Mathlib.Logic.Function.Basic

/-!
# Copies inside one store

Copies that are made one after the other read and write the same store, so
that one of them may read what an earlier one has written.  Where none does,
they have the effect of making all of them at once.
-/

namespace Newbos

/-- The assignment of the value at one position to another. -/
structure Copy (ι : Type) where
  target : ι
  source : ι

variable {ι α : Type} [DecidableEq ι]

def Copy.run (copy : Copy ι) (store : ι → α) : ι → α :=
  Function.update store copy.target (store copy.source)

/-- The copies of a list, one after the other. -/
def runCopies (copies : List (Copy ι)) (store : ι → α) : ι → α :=
  copies.foldl (fun store copy => copy.run store) store

/-- No copy reads or writes the target of an earlier one. -/
def Undisturbed (copies : List (Copy ι)) : Prop :=
  copies.Pairwise fun earlier later =>
    later.source ≠ earlier.target ∧ later.target ≠ earlier.target

section Runs

variable (copy : Copy ι) (copies : List (Copy ι)) (store : ι → α)

theorem Copy.run_target : copy.run store copy.target = store copy.source :=
  Function.update_self ..

theorem Copy.run_other {position : ι} (other : position ≠ copy.target) :
    copy.run store position = store position :=
  Function.update_of_ne other ..

theorem runCopies_cons :
    runCopies (copy :: copies) store = runCopies copies (copy.run store) :=
  rfl

theorem runCopies_append (later : List (Copy ι)) :
    runCopies (copies ++ later) store =
      runCopies later (runCopies copies store) :=
  List.foldl_append

end Runs

variable {copies : List (Copy ι)} {store : ι → α}

/-- Positions that no copy writes keep their values. -/
theorem runCopies_other {position : ι}
    (other : ∀ copy ∈ copies, position ≠ copy.target) :
    runCopies copies store position = store position := by
  induction copies generalizing store with
  | nil => rfl
  | cons copy copies induction =>
      obtain ⟨notFirst, notLater⟩ := List.forall_mem_cons.mp other
      rw [runCopies_cons, induction notLater, copy.run_other store notFirst]

/-- Every copy has the value that its source had in front of all of them. -/
theorem Undisturbed.runCopies_target (undisturbed : Undisturbed copies)
    {copy : Copy ι} (member : copy ∈ copies) :
    runCopies copies store copy.target = store copy.source := by
  induction copies generalizing store with
  | nil => cases member
  | cons first copies induction =>
      obtain ⟨afterFirst, rest⟩ := List.pairwise_cons.mp undisturbed
      rw [runCopies_cons]
      rcases List.mem_cons.mp member with isFirst | later
      · subst isFirst
        rw [runCopies_other fun other otherMember =>
          (afterFirst other otherMember).2.symm]
        exact copy.run_target store
      · rw [induction rest later]
        exact first.run_other store (afterFirst copy later).1

end Newbos
