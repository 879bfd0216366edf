import Mathlib.Order.Interval.Finset.Nat

/-!
# Maximal intervals of a set of natural numbers

Intervals that are pairwise disjoint and do not touch are the maximal
intervals of their union.  The union therefore determines them.
-/

namespace Newbos

/-- `[first, last)` is covered, and cannot be extended on either side. -/
structure MaximalInterval (covered : Nat → Prop) (first last : Nat) :
    Prop where
  nonempty : first < last
  inside : ∀ position, first ≤ position → position < last → covered position
  before : ∀ position, position + 1 = first → ¬covered position
  after : ¬covered last

theorem MaximalInterval.congr {covered other : Nat → Prop}
    (same : ∀ position, covered position ↔ other position)
    {first last : Nat} :
    MaximalInterval covered first last ↔ MaximalInterval other first last := by
  have equal : covered = other := funext fun position =>
    propext (same position)
  rw [equal]

/-- Non-empty intervals with a gap between any two of them. -/
structure Separated (starts : Set Nat) (stop : Nat → Nat) : Prop where
  nonempty : ∀ start ∈ starts, start < stop start
  apart : ∀ first ∈ starts, ∀ second ∈ starts, first ≠ second →
    stop first < second ∨ stop second < first

theorem Separated.mem_iff {starts : Set Nat} {stop : Nat → Nat}
    (separated : Separated starts stop) {first last : Nat} :
    first ∈ starts ∧ stop first = last ↔
      MaximalInterval (fun position => ∃ start ∈ starts,
        start ≤ position ∧ position < stop start) first last := by
  constructor
  · rintro ⟨member, rfl⟩
    have nonempty := separated.nonempty first member
    refine ⟨nonempty, ?_, ?_, ?_⟩
    · exact fun position lower upper => ⟨first, member, lower, upper⟩
    · rintro position adjacent ⟨other, otherMember, lower, upper⟩
      have apart := separated.apart first member other otherMember (by omega)
      omega
    · rintro ⟨other, otherMember, lower, upper⟩
      have different : first ≠ other := by
        rintro rfl
        omega
      have apart := separated.apart first member other otherMember different
      omega
  · intro maximal
    obtain ⟨start, member, lower, upper⟩ :=
      maximal.inside first (Nat.le_refl _) maximal.nonempty
    have sameStart : start = first := by
      by_contra different
      exact maximal.before (first - 1) (by omega)
        ⟨start, member, by omega, by omega⟩
    subst sameStart
    refine ⟨member, ?_⟩
    rcases Nat.lt_trichotomy (stop start) last with early | same | late
    · obtain ⟨other, otherMember, otherLower, otherUpper⟩ :=
        maximal.inside (stop start) (by omega) early
      have different : start ≠ other := by
        rintro rfl
        omega
      have apart := separated.apart start member other otherMember different
      omega
    · exact same
    · exact absurd ⟨start, member, Nat.le_of_lt maximal.nonempty, late⟩
        maximal.after

end Newbos
