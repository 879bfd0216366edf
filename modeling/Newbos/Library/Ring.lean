import Mathlib.Data.Finset.Sort
import Mathlib.Dynamics.PeriodicPts.Defs
import Mathlib.Logic.Function.Iterate

/-!
# Circular lists in address order

A ring is a finite set of nodes of a linear order together with a successor
function that leads from each node to the next larger one and from the
largest back to the smallest.  Such a list can be entered at any node.
-/

namespace Newbos

variable {α : Type} [LinearOrder α]

/-- `next` is the cyclic successor on the nodes of `ring`. -/
structure RingSucc (ring : Finset α) (next : α → α) : Prop where
  mem : ∀ node ∈ ring, next node ∈ ring
  step : ∀ node ∈ ring,
    (node < next node ∧ ∀ other ∈ ring, ¬(node < other ∧ other < next node)) ∨
      (next node ≤ node ∧ ∀ other ∈ ring, next node ≤ other ∧ other ≤ node)

/-- The position of `value` is between `node` and its successor, or past the
one place where the order wraps around. -/
def InGap (next : α → α) (node value : α) : Prop :=
  node < value ∧ value < next node ∨
    next node ≤ node ∧ (node < value ∨ value < next node)

namespace RingSucc

variable {ring : Finset α} {next : α → α}

theorem congr (succ : RingSucc ring next) {other : α → α}
    (same : ∀ node ∈ ring, other node = next node) :
    RingSucc ring other := by
  constructor
  · intro node member
    rw [same node member]
    exact succ.mem node member
  · intro node member
    rw [same node member]
    exact succ.step node member

/-- Link a new node into the gap after `node`. -/
theorem insert (succ : RingSucc ring next) {node value : α}
    (member : node ∈ ring) (fresh : value ∉ ring)
    (gap : InGap next node value) :
    RingSucc (insert value ring)
      (Function.update (Function.update next value (next node)) node
        value) := by
  have different : node ≠ value := fun equality => fresh (equality ▸ member)
  have atNode : Function.update (Function.update next value (next node))
      node value node = value := by simp
  have atValue : Function.update (Function.update next value (next node))
      node value value = next node := by
    simp [Function.update_of_ne different.symm]
  have elsewhere : ∀ other ∈ ring, other ≠ node →
      Function.update (Function.update next value (next node)) node value
        other = next other := by
    intro other otherMember notNode
    have notValue : other ≠ value := fun equality =>
      fresh (equality ▸ otherMember)
    simp [Function.update_of_ne notNode, Function.update_of_ne notValue]
  constructor
  · intro other otherMember
    rcases Finset.mem_insert.mp otherMember with rfl | older
    · rw [atValue]
      exact Finset.mem_insert_of_mem (succ.mem node member)
    · by_cases same : other = node
      · subst same
        rw [atNode]
        exact Finset.mem_insert_self _ _
      · rw [elsewhere other older same]
        exact Finset.mem_insert_of_mem (succ.mem other older)
  · intro other otherMember
    have nodeStep := succ.step node member
    rcases Finset.mem_insert.mp otherMember with rfl | older
    · rw [atValue]
      grind [InGap]
    · have otherStep := succ.step other older
      by_cases same : other = node
      · subst same
        rw [atNode]
        grind [InGap]
      · rw [elsewhere other older same]
        grind [InGap]

/-- Unlink the node after `node`. -/
theorem erase (succ : RingSucc ring next) {node : α} (member : node ∈ ring)
    (different : next node ≠ node) :
    RingSucc (ring.erase (next node))
      (Function.update next node (next (next node))) := by
  have removed := succ.mem node member
  have nodeStep := succ.step node member
  have removedStep := succ.step _ removed
  have afterMember := succ.mem _ removed
  constructor
  · intro other otherMember
    obtain ⟨notRemoved, older⟩ := Finset.mem_erase.mp otherMember
    by_cases same : other = node
    · subst same
      rw [Function.update_self]
      refine Finset.mem_erase.mpr ⟨?_, afterMember⟩
      grind
    · rw [Function.update_of_ne same]
      refine Finset.mem_erase.mpr ⟨?_, succ.mem other older⟩
      have otherStep := succ.step other older
      grind
  · intro other otherMember
    obtain ⟨notRemoved, older⟩ := Finset.mem_erase.mp otherMember
    have otherStep := succ.step other older
    by_cases same : other = node
    · subst same
      rw [Function.update_self]
      grind
    · rw [Function.update_of_ne same]
      grind

/-- Every value outside a ring belongs to the gap after one of its nodes. -/
theorem exists_gap (succ : RingSucc ring next) (nonempty : ring.Nonempty)
    {value : α} (fresh : value ∉ ring) :
    ∃ node ∈ ring, InGap next node value := by
  by_cases below : (ring.filter (· < value)).Nonempty
  · obtain ⟨node, chosen, largest⟩ :=
      Finset.exists_max_image _ id below
    obtain ⟨member, nodeBelow⟩ := Finset.mem_filter.mp chosen
    refine ⟨node, member, ?_⟩
    have nextMember := succ.mem node member
    have nextLargest : next node < value → next node ≤ node := fun before =>
      largest _ (Finset.mem_filter.mpr ⟨nextMember, before⟩)
    have nodeStep := succ.step node member
    grind [InGap]
  · obtain ⟨node, member, largest⟩ := Finset.exists_max_image ring id nonempty
    refine ⟨node, member, ?_⟩
    have nextMember := succ.mem node member
    have nextAbove : ¬next node < value := fun nextBelow =>
      below ⟨next node, Finset.mem_filter.mpr ⟨nextMember, nextBelow⟩⟩
    have nodeStep := succ.step node member
    have nextLargest : next node ≤ node := largest _ nextMember
    grind [InGap]

/-! ## Walking around a ring -/

private theorem sort_lt_iff {first second : Nat} {left right : α}
    (atFirst : ring.sort[first]? = some left)
    (atSecond : ring.sort[second]? = some right) :
    left < right ↔ first < second := by
  obtain ⟨firstRange, rfl⟩ := List.getElem?_eq_some_iff.mp atFirst
  obtain ⟨secondRange, rfl⟩ := List.getElem?_eq_some_iff.mp atSecond
  exact (Finset.sortedLT_sort ring).getElem_lt_getElem_iff

/-- In ascending order the successor is the next element, cyclically. -/
theorem next_sort (succ : RingSucc ring next) {index : Nat} {node : α}
    (atIndex : ring.sort[index]? = some node) :
    ring.sort[(index + 1) % ring.card]? = some (next node) := by
  obtain ⟨inRange, _⟩ := List.getElem?_eq_some_iff.mp atIndex
  rw [Finset.length_sort] at inRange
  have member : node ∈ ring :=
    (Finset.mem_sort _).mp (List.mem_of_getElem? atIndex)
  obtain ⟨target, atTarget⟩ := List.mem_iff_getElem?.mp
    ((Finset.mem_sort (· ≤ ·)).mpr (succ.mem node member))
  obtain ⟨targetRange, _⟩ := List.getElem?_eq_some_iff.mp atTarget
  rw [Finset.length_sort] at targetRange
  have lookup : ∀ position, position < ring.card →
      ∃ other ∈ ring, ring.sort[position]? = some other := by
    intro position bound
    have small : position < ring.sort.length := by
      rwa [Finset.length_sort]
    exact ⟨_, (Finset.mem_sort _).mp (List.getElem_mem small),
      List.getElem?_eq_getElem small⟩
  have order := sort_lt_iff atIndex atTarget
  rcases succ.step node member with ⟨ascending, adjacent⟩ | ⟨wrap, bounds⟩
  · have later : index < target := order.mp ascending
    have same : target = index + 1 := by
      by_contra different
      obtain ⟨between, betweenMember, atBetween⟩ :=
        lookup (index + 1) (by omega)
      exact adjacent between betweenMember
        ⟨(sort_lt_iff atIndex atBetween).mpr (by omega),
          (sort_lt_iff atBetween atTarget).mpr (by omega)⟩
    rw [Nat.mod_eq_of_lt (by omega), ← same]
    exact atTarget
  · obtain ⟨first, firstMember, atFirst⟩ := lookup 0 (by omega)
    obtain ⟨last, lastMember, atLast⟩ := lookup (ring.card - 1) (by omega)
    have targetFirst : ¬0 < target := fun positive =>
      absurd ((sort_lt_iff atFirst atTarget).mpr positive)
        (not_lt.mpr (bounds first firstMember).1)
    have indexLast : ¬index < ring.card - 1 := fun earlier =>
      absurd ((sort_lt_iff atIndex atLast).mpr earlier)
        (not_lt.mpr (bounds last lastMember).2)
    have wrapped : (index + 1) % ring.card = target := by
      have full : index + 1 = ring.card := by omega
      rw [full, Nat.mod_self]
      omega
    rw [wrapped]
    exact atTarget

theorem iterate_sort (succ : RingSucc ring next) {index : Nat} {node : α}
    (atIndex : ring.sort[index]? = some node) (count : Nat) :
    ring.sort[(index + count) % ring.card]? = some (next^[count] node) := by
  induction count with
  | zero =>
      obtain ⟨inRange, _⟩ := List.getElem?_eq_some_iff.mp atIndex
      rw [Finset.length_sort] at inRange
      simpa [Nat.mod_eq_of_lt inRange] using atIndex
  | succ count induction =>
      rw [Function.iterate_succ_apply']
      have advanced := succ.next_sort induction
      rwa [Nat.mod_add_mod, Nat.add_assoc] at advanced

theorem iterate_mem (succ : RingSucc ring next) {node : α}
    (member : node ∈ ring) (count : Nat) : next^[count] node ∈ ring := by
  induction count with
  | zero => exact member
  | succ count induction =>
      rw [Function.iterate_succ_apply']
      exact succ.mem _ induction

/-- Every node is reached from every other in less than one lap. -/
theorem exists_iterate (succ : RingSucc ring next) {start target : α}
    (startMember : start ∈ ring) (targetMember : target ∈ ring) :
    ∃ count, count < ring.card ∧ next^[count] start = target := by
  obtain ⟨from_, atFrom⟩ := List.mem_iff_getElem?.mp
    ((Finset.mem_sort (· ≤ ·)).mpr startMember)
  obtain ⟨to_, atTo⟩ := List.mem_iff_getElem?.mp
    ((Finset.mem_sort (· ≤ ·)).mpr targetMember)
  obtain ⟨fromRange, _⟩ := List.getElem?_eq_some_iff.mp atFrom
  obtain ⟨toRange, _⟩ := List.getElem?_eq_some_iff.mp atTo
  rw [Finset.length_sort] at fromRange toRange
  refine ⟨(to_ + (ring.card - from_)) % ring.card,
    Nat.mod_lt _ (by omega), ?_⟩
  have reached := succ.iterate_sort atFrom
    ((to_ + (ring.card - from_)) % ring.card)
  have position : (from_ + (to_ + (ring.card - from_)) % ring.card) %
      ring.card = to_ := by
    rw [Nat.add_mod_mod]
    have full : from_ + (to_ + (ring.card - from_)) = to_ + ring.card := by
      omega
    rw [full, Nat.add_mod_right, Nat.mod_eq_of_lt toRange]
  rw [position, atTo] at reached
  exact (Option.some.inj reached).symm

/-- A successor function has one ring through a node. -/
theorem unique (succ : RingSucc ring next) {other : Finset α}
    (otherSucc : RingSucc other next) {start : α} (member : start ∈ ring)
    (otherMember : start ∈ other) : ring = other := by
  ext node
  constructor
  · intro isNode
    obtain ⟨count, _, rfl⟩ := succ.exists_iterate member isNode
    exact otherSucc.iterate_mem otherMember count
  · intro isNode
    obtain ⟨count, _, rfl⟩ := otherSucc.exists_iterate otherMember isNode
    exact succ.iterate_mem member count

/-- Walking from a node back to it for the first time or a later one passes
every node. -/
theorem exists_iterate_of_period (succ : RingSucc ring next)
    {start target : α} (startMember : start ∈ ring)
    (targetMember : target ∈ ring) {period : Nat} (positive : 0 < period)
    (periodic : next^[period] start = start) :
    ∃ count, 0 < count ∧ count ≤ period ∧ next^[count] start = target := by
  obtain ⟨count, _, reached⟩ := succ.exists_iterate startMember targetMember
  have folded : next^[count % period] start = target := by
    have isPeriodic : Function.IsPeriodicPt next period start := periodic
    rw [isPeriodic.iterate_mod_apply, reached]
  by_cases whole : count % period = 0
  · rw [whole] at folded
    exact ⟨period, positive, Nat.le_refl _, periodic.trans folded⟩
  · exact ⟨count % period, Nat.pos_of_ne_zero whole,
      Nat.le_of_lt (Nat.mod_lt _ positive), folded⟩

end RingSucc

/-- The first `count` nodes met from `start`. -/
def ringWalk (next : α → α) (start : α) (count : Nat) : List α :=
  (List.range count).map fun steps => next^[steps] start

/-- One lap from any node meets every node exactly once, returns to where it
began, and goes down in exactly one place. -/
theorem RingSucc.lap {ring : Finset α} {next : α → α}
    (succ : RingSucc ring next) {start : α} (member : start ∈ ring) :
    (ringWalk next start ring.card).Nodup ∧
      (∀ node, node ∈ ringWalk next start ring.card ↔ node ∈ ring) ∧
      next^[ring.card] start = start ∧
      ∃! node, node ∈ ring ∧ next node ≤ node := by
  have surjective : ∀ node, node ∈ ringWalk next start ring.card ↔
      node ∈ ring := by
    intro node
    simp only [ringWalk, List.mem_map, List.mem_range]
    constructor
    · rintro ⟨count, _, rfl⟩
      exact succ.iterate_mem member count
    · intro nodeMember
      exact succ.exists_iterate member nodeMember
  refine ⟨?_, surjective, ?_, ?_⟩
  · have sameSet : (ringWalk next start ring.card).toFinset = ring := by
      ext node
      rw [List.mem_toFinset, surjective]
    have length : (ringWalk next start ring.card).length = ring.card := by
      simp [ringWalk]
    have card : (ringWalk next start ring.card).toFinset.card =
        (ringWalk next start ring.card).length := by
      rw [sameSet, length]
    exact Multiset.coe_nodup.mp
      (Multiset.toFinset_card_eq_card_iff_nodup.mp card)
  · obtain ⟨index, atIndex⟩ := List.mem_iff_getElem?.mp
      ((Finset.mem_sort (· ≤ ·)).mpr member)
    obtain ⟨inRange, _⟩ := List.getElem?_eq_some_iff.mp atIndex
    rw [Finset.length_sort] at inRange
    have reached := succ.iterate_sort atIndex ring.card
    rw [Nat.add_mod_right, Nat.mod_eq_of_lt inRange, atIndex] at reached
    exact (Option.some.inj reached).symm
  · obtain ⟨last, lastMember, largest⟩ :=
      Finset.exists_max_image ring id ⟨start, member⟩
    refine ⟨last, ⟨lastMember, largest _ (succ.mem last lastMember)⟩, ?_⟩
    rintro other ⟨otherMember, descends⟩
    have otherStep := succ.step other otherMember
    have lastBelow : last ≤ other := by grind
    exact le_antisymm (largest other otherMember) lastBelow

end Newbos
