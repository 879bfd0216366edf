import Newbos.Library.Word

/-!
# Null-terminated chains

A chain is the list of nodes met by following `next` from a start pointer to
the null pointer.  Writing outside the chain keeps it, and a fresh node can be
hung behind its last node.
-/

namespace Newbos

/-- Following `next` from `start` visits exactly `nodes` and ends at null. -/
def IsChain (next : Nat → Nat) : Nat → List Nat → Prop
  | start, [] => start = 0
  | start, node :: rest =>
      start = node ∧ node ≠ 0 ∧ IsChain next (next node) rest

namespace IsChain

variable {next : Nat → Nat} {start : Nat} {nodes : List Nat}

theorem start_eq_zero_iff (chain : IsChain next start nodes) :
    start = 0 ↔ nodes = [] := by
  cases nodes with
  | nil =>
      constructor
      · intro _
        rfl
      · intro _
        exact chain
  | cons node rest =>
      constructor
      · intro null
        exact absurd (chain.1.symm.trans null) chain.2.1
      · intro impossible
        cases impossible

/-- The start pointer determines the chain. -/
theorem unique (chain : IsChain next start nodes) {other : List Nat}
    (otherChain : IsChain next start other) : nodes = other := by
  induction nodes generalizing start other with
  | nil => exact (otherChain.start_eq_zero_iff.mp chain).symm
  | cons node rest induction =>
      cases other with
      | nil => exact absurd (chain.1.symm.trans otherChain) chain.2.1
      | cons otherNode otherRest =>
          obtain ⟨rfl, _, tail⟩ := chain
          obtain ⟨rfl, _, otherTail⟩ := otherChain
          rw [induction tail otherTail]

/-- The last node of a chain points to null. -/
theorem next_last (chain : IsChain next start nodes) {last : Nat}
    (isLast : nodes.getLast? = some last) : next last = 0 := by
  induction nodes generalizing start with
  | nil => cases isLast
  | cons node rest induction =>
      obtain ⟨_, _, tail⟩ := chain
      cases rest with
      | nil =>
          cases isLast
          exact tail
      | cons second rest =>
          rw [List.getLast?_cons_cons] at isLast
          exact induction tail isLast

/-- Hang a fresh node behind the last node. -/
theorem append (chain : IsChain next start nodes) (nodup : nodes.Nodup)
    {last node : Nat} (isLast : nodes.getLast? = some last)
    (notNull : node ≠ 0) (fresh : node ∉ nodes)
    {other : Nat → Nat} (atNode : other node = 0)
    (atLast : other last = node)
    (elsewhere : ∀ earlier ∈ nodes, earlier ≠ last →
      other earlier = next earlier) :
    IsChain other start (nodes ++ [node]) := by
  induction nodes generalizing start with
  | nil => cases isLast
  | cons first rest induction =>
      obtain ⟨startEq, firstNotNull, tail⟩ := chain
      obtain ⟨firstFresh, restNodup⟩ := List.nodup_cons.mp nodup
      refine ⟨startEq, firstNotNull, ?_⟩
      cases rest with
      | nil =>
          cases isLast
          exact ⟨atLast, notNull, atNode⟩
      | cons second rest =>
          rw [List.getLast?_cons_cons] at isLast
          have firstNotLast : first ≠ last := by
            intro same
            apply firstFresh
            rw [same]
            exact List.mem_of_getLast? isLast
          rw [elsewhere first (List.mem_cons_self ..) firstNotLast]
          apply induction tail restNodup isLast
          · intro member
            exact fresh (List.mem_cons_of_mem _ member)
          · intro earlier member
            exact elsewhere earlier (List.mem_cons_of_mem _ member)

end IsChain

end Newbos
