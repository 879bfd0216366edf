import Mathlib.Data.List.Perm.Subperm

/-!
# Numbering by the largest number in use

Items are numbered when they are created, by one more than the largest number
that is registered at that time, and are registered later.  Numbers of
registered items are distinct exactly when of any two items one was registered
before the other was created.
-/

namespace Newbos

/-- What happens to the items. -/
inductive NumberingEvent (α : Type) where
  | created (item : α)
  | registered (item : α)
  deriving DecidableEq

variable {α : Type}

/-- The registered items of a history, newest first. -/
def registeredItems : List (NumberingEvent α) → List α
  | [] => []
  | .created _ :: history => registeredItems history
  | .registered item :: history => item :: registeredItems history

def createdItems : List (NumberingEvent α) → List α
  | [] => []
  | .created item :: history => item :: createdItems history
  | .registered _ :: history => createdItems history

def largestNumber (number : α → Nat) : List α → Nat
  | [] => 0
  | item :: items => max (number item) (largestNumber number items)

/-- The numbers of a history, newest event first. -/
inductive Numbered : List (NumberingEvent α) → (α → Nat) → Prop where
  | start (number : α → Nat) : Numbered [] number
  | created {history : List (NumberingEvent α)} {number after : α → Nat}
      {item : α} :
      Numbered history number →
      .created item ∉ history →
      after item = largestNumber number (registeredItems history) + 1 →
      (∀ other, other ≠ item → after other = number other) →
      Numbered (.created item :: history) after
  | registered {history : List (NumberingEvent α)} {number : α → Nat}
      {item : α} :
      Numbered history number →
      .created item ∈ history →
      .registered item ∉ history →
      Numbered (.registered item :: history) number

/-- The first item was registered when the second was created. -/
def RegisteredBefore (history : List (NumberingEvent α))
    (first second : α) : Prop :=
  ∃ later earlier, history = later ++ .created second :: earlier ∧
    .registered first ∈ earlier

theorem RegisteredBefore.cons {history : List (NumberingEvent α)}
    {first second : α} (before : RegisteredBefore history first second)
    (event : NumberingEvent α) :
    RegisteredBefore (event :: history) first second := by
  obtain ⟨later, earlier, split, member⟩ := before
  exact ⟨event :: later, earlier, by rw [split]; rfl, member⟩

section Largest

variable {number after : α → Nat} {items : List α} {item : α}

theorem le_largestNumber (member : item ∈ items) :
    number item ≤ largestNumber number items := by
  induction items with
  | nil => cases member
  | cons head tail induction =>
      rw [largestNumber]
      rcases List.mem_cons.mp member with rfl | later
      · exact Nat.le_max_left _ _
      · exact Nat.le_trans (induction later) (Nat.le_max_right _ _)

theorem largestNumber_congr
    (same : ∀ item ∈ items, after item = number item) :
    largestNumber after items = largestNumber number items := by
  induction items with
  | nil => rfl
  | cons head tail induction =>
      rw [largestNumber, largestNumber, same head List.mem_cons_self,
        induction fun item member => same item (List.mem_cons_of_mem _ member)]

theorem largestNumber_le {bound : Nat}
    (below : ∀ item ∈ items, number item ≤ bound) :
    largestNumber number items ≤ bound := by
  induction items with
  | nil => exact Nat.zero_le _
  | cons head tail induction =>
      rw [largestNumber]
      exact Nat.max_le.mpr ⟨below head List.mem_cons_self,
        induction fun item member =>
          below item (List.mem_cons_of_mem _ member)⟩

theorem largestNumber_perm {others : List α} (perm : items.Perm others) :
    largestNumber number items = largestNumber number others := by
  apply Nat.le_antisymm
  · exact largestNumber_le fun item member =>
      le_largestNumber (perm.mem_iff.mp member)
  · exact largestNumber_le fun item member =>
      le_largestNumber (perm.mem_iff.mpr member)

theorem mem_createdItems {history : List (NumberingEvent α)} :
    item ∈ createdItems history ↔ .created item ∈ history := by
  induction history with
  | nil => simp [createdItems]
  | cons event history induction =>
      cases event with
      | created other => simp [createdItems, induction]
      | registered other => simp [createdItems, induction]

theorem mem_registeredItems {history : List (NumberingEvent α)} :
    item ∈ registeredItems history ↔ .registered item ∈ history := by
  induction history with
  | nil => simp [registeredItems]
  | cons event history induction =>
      cases event with
      | created other => simp [registeredItems, induction]
      | registered other => simp [registeredItems, induction]

end Largest

namespace Numbered

variable {history : List (NumberingEvent α)} {number : α → Nat}
  {first second : α}

theorem created_of_registered (numbered : Numbered history number)
    (member : .registered first ∈ history) : .created first ∈ history := by
  induction numbered with
  | start => cases member
  | created _ _ _ _ induction =>
      rcases List.mem_cons.mp member with same | earlier
      · cases same
      · exact List.mem_cons_of_mem _ (induction earlier)
  | registered _ isCreated _ induction =>
      rcases List.mem_cons.mp member with same | earlier
      · cases same
        exact List.mem_cons_of_mem _ isCreated
      · exact List.mem_cons_of_mem _ (induction earlier)

/-- A new number does not change those that are registered. -/
theorem largest_created {item : α} {after : α → Nat}
    (numbered : Numbered history number) (fresh : .created item ∉ history)
    (kept : ∀ other, other ≠ item → after other = number other) :
    largestNumber after (registeredItems history) =
      largestNumber number (registeredItems history) := by
  apply largestNumber_congr
  intro other member
  apply kept
  rintro rfl
  exact fresh (numbered.created_of_registered (mem_registeredItems.mp member))

/-- Numbers are given out one after the other. -/
theorem number_le (numbered : Numbered history number)
    (member : .created first ∈ history) :
    number first ≤ largestNumber number (registeredItems history) + 1 := by
  induction numbered with
  | start => cases member
  | created before fresh given kept induction =>
      rw [registeredItems, before.largest_created fresh kept]
      rcases List.mem_cons.mp member with same | earlier
      · cases same
        exact Nat.le_of_eq given
      · rw [kept first fun same => fresh (same ▸ earlier)]
        exact induction earlier
  | registered _ _ _ induction =>
      rcases List.mem_cons.mp member with same | earlier
      · cases same
      · rw [registeredItems, largestNumber]
        have bound := induction earlier
        omega

theorem largest_le (numbered : Numbered history number) :
    largestNumber number (registeredItems history) ≤
      (registeredItems history).length := by
  induction numbered with
  | start => exact Nat.le_refl _
  | created before fresh _ kept induction =>
      rw [registeredItems, before.largest_created fresh kept]
      exact induction
  | registered before isCreated _ induction =>
      have bound := before.number_le isCreated
      rw [registeredItems, largestNumber, List.length_cons]
      omega

theorem registeredItems_nodup (numbered : Numbered history number) :
    (registeredItems history).Nodup := by
  induction numbered with
  | start => exact List.nodup_nil
  | created _ _ _ _ induction => exact induction
  | registered _ _ fresh induction =>
      exact List.nodup_cons.mpr
        ⟨fun member => fresh (mem_registeredItems.mp member), induction⟩

/-- No more items are registered than created. -/
theorem length_le (numbered : Numbered history number) :
    (registeredItems history).length ≤ (createdItems history).length := by
  apply (List.subperm_of_subset numbered.registeredItems_nodup ?_).length_le
  intro item member
  exact mem_createdItems.mpr
    (numbered.created_of_registered (mem_registeredItems.mp member))

/-- An item that is registered before another is created has the smaller
number. -/
theorem number_lt (numbered : Numbered history number)
    (before : RegisteredBefore history first second) :
    number first < number second := by
  induction numbered with
  | start =>
      obtain ⟨later, earlier, split, _⟩ := before
      cases later <;> cases split
  | @created history number after item earlierNumbered fresh given kept
      induction =>
      obtain ⟨later, earlier, split, member⟩ := before
      cases later with
      | nil =>
          cases split
          have isRegistered := earlierNumbered.created_of_registered member
          rw [given, kept first fun same => fresh (same ▸ isRegistered)]
          have bound : number first ≤ largestNumber number
              (registeredItems history) :=
            le_largestNumber (mem_registeredItems.mpr member)
          omega
      | cons newest later =>
          cases split
          have isCreated : NumberingEvent.created second ∈
              later ++ .created second :: earlier := by simp
          have isRegistered := earlierNumbered.created_of_registered
            (show NumberingEvent.registered first ∈
              later ++ .created second :: earlier by simp [member])
          rw [kept first fun same => fresh (same ▸ isRegistered),
            kept second fun same => fresh (same ▸ isCreated)]
          exact induction ⟨later, earlier, rfl, member⟩
  | registered _ _ _ induction =>
      obtain ⟨later, earlier, split, member⟩ := before
      cases later with
      | nil => cases split
      | cons newest later =>
          cases split
          exact induction ⟨later, earlier, rfl, member⟩

/-- Until an item is registered, its number is larger than those in use or is
taken by another. -/
theorem pending (numbered : Numbered history number)
    (isCreated : .created first ∈ history)
    (unregistered : .registered first ∉ history) :
    largestNumber number (registeredItems history) < number first ∨
      ∃ other, other ≠ first ∧ .registered other ∈ history ∧
        number other = number first := by
  induction numbered with
  | start => cases isCreated
  | @created history number after item before fresh given kept induction =>
      rw [registeredItems, before.largest_created fresh kept]
      by_cases own : item = first
      · subst own
        rw [given]
        exact Or.inl (Nat.lt_succ_self _)
      · have earlier : NumberingEvent.created first ∈ history := by
          rcases List.mem_cons.mp isCreated with same | earlier
          · cases same
            exact absurd rfl own
          · exact earlier
        rw [kept first (Ne.symm own)]
        rcases induction earlier fun member =>
          unregistered (List.mem_cons_of_mem _ member) with
          larger | ⟨other, different, member, same⟩
        · exact Or.inl larger
        · refine Or.inr ⟨other, different, List.mem_cons_of_mem _ member, ?_⟩
          have otherCreated := before.created_of_registered member
          rw [kept other fun isItem => fresh (isItem ▸ otherCreated)]
          exact same
  | @registered history number item before itemCreated _ induction =>
      have different : item ≠ first := by
        rintro rfl
        exact unregistered List.mem_cons_self
      have earlier : NumberingEvent.created first ∈ history := by
        rcases List.mem_cons.mp isCreated with same | earlier
        · cases same
        · exact earlier
      rcases induction earlier fun member =>
        unregistered (List.mem_cons_of_mem _ member) with
        larger | ⟨other, otherDifferent, member, same⟩
      · have bound := before.number_le itemCreated
        have firstBound := before.number_le earlier
        rw [registeredItems, largestNumber]
        by_cases below : number item < number first
        · exact Or.inl (by omega)
        · exact Or.inr ⟨item, different, List.mem_cons_self, by omega⟩
      · exact Or.inr ⟨other, otherDifferent, List.mem_cons_of_mem _ member,
          same⟩

/-- An item created while another is pending takes its number, if that is not
taken already. -/
theorem created_pending {item : α} {after : α → Nat}
    (before : Numbered history number) (fresh : .created item ∉ history)
    (given : after item =
      largestNumber number (registeredItems history) + 1)
    (kept : ∀ other, other ≠ item → after other = number other)
    (isCreated : .created first ∈ history)
    (unregistered : .registered first ∉ history) :
    after first = after item ∨ ∃ other, other ≠ first ∧
      .registered other ∈ history ∧ after other = after first := by
  have firstKept := kept first fun same => fresh (same ▸ isCreated)
  rcases before.pending isCreated unregistered with
    larger | ⟨other, different, member, same⟩
  · have bound := before.number_le isCreated
    exact Or.inl (by omega)
  · have otherCreated := before.created_of_registered member
    refine Or.inr ⟨other, different, member, ?_⟩
    rw [firstKept, kept other fun isItem => fresh (isItem ▸ otherCreated)]
    exact same

/-- Of two items that are created before either is registered, one has a
number that another has too. -/
theorem clash (numbered : Numbered history number)
    (different : first ≠ second)
    (firstCreated : .created first ∈ history)
    (secondCreated : .created second ∈ history)
    (notBefore : ¬RegisteredBefore history first second)
    (notAfter : ¬RegisteredBefore history second first) :
    number first = number second ∨
      (∃ other, other ≠ first ∧ .registered other ∈ history ∧
        number other = number first) ∨
      ∃ other, other ≠ second ∧ .registered other ∈ history ∧
        number other = number second := by
  induction numbered with
  | start => cases firstCreated
  | @created history number after item before fresh given kept induction =>
      by_cases isFirst : item = first
      · subst isFirst
        have earlier : NumberingEvent.created second ∈ history := by
          simpa [Ne.symm different] using secondCreated
        rcases before.created_pending fresh given kept earlier
          fun member => notAfter ⟨[], history, rfl, member⟩ with
          same | ⟨other, otherDifferent, member, same⟩
        · exact Or.inl same.symm
        · exact Or.inr (Or.inr ⟨other, otherDifferent,
            List.mem_cons_of_mem _ member, same⟩)
      · have earlier : NumberingEvent.created first ∈ history := by
          simpa [Ne.symm isFirst] using firstCreated
        by_cases isSecond : item = second
        · subst isSecond
          rcases before.created_pending fresh given kept earlier
            fun member => notBefore ⟨[], history, rfl, member⟩ with
            same | ⟨other, otherDifferent, member, same⟩
          · exact Or.inl same
          · exact Or.inr (Or.inl ⟨other, otherDifferent,
              List.mem_cons_of_mem _ member, same⟩)
        · have otherEarlier : NumberingEvent.created second ∈ history := by
            simpa [Ne.symm isSecond] using secondCreated
          have firstKept := kept first (Ne.symm isFirst)
          have secondKept := kept second (Ne.symm isSecond)
          have otherKept : ∀ other, .registered other ∈ history →
              after other = number other := by
            intro other member
            apply kept
            rintro rfl
            exact fresh (before.created_of_registered member)
          rw [firstKept, secondKept]
          rcases induction earlier otherEarlier
            (fun order => notBefore (order.cons _))
            (fun order => notAfter (order.cons _)) with
            same | ⟨other, apart, member, same⟩ |
              ⟨other, apart, member, same⟩
          · exact Or.inl same
          · exact Or.inr (Or.inl ⟨other, apart,
              List.mem_cons_of_mem _ member,
              by rw [otherKept other member]; exact same⟩)
          · exact Or.inr (Or.inr ⟨other, apart,
              List.mem_cons_of_mem _ member,
              by rw [otherKept other member]; exact same⟩)
  | @registered history number item before itemCreated _ induction =>
      have firstEarlier : NumberingEvent.created first ∈ history := by
        simpa using firstCreated
      have secondEarlier : NumberingEvent.created second ∈ history := by
        simpa using secondCreated
      rcases induction firstEarlier secondEarlier
        (fun order => notBefore (order.cons _))
        (fun order => notAfter (order.cons _)) with
        same | ⟨other, apart, member, same⟩ | ⟨other, apart, member, same⟩
      · exact Or.inl same
      · exact Or.inr (Or.inl ⟨other, apart,
          List.mem_cons_of_mem _ member, same⟩)
      · exact Or.inr (Or.inr ⟨other, apart,
          List.mem_cons_of_mem _ member, same⟩)

/-- Registered items have distinct numbers exactly when they come one after
the other. -/
theorem distinct_iff (numbered : Numbered history number) :
    (∀ first second, .registered first ∈ history →
      .registered second ∈ history → first ≠ second →
      number first ≠ number second) ↔
    ∀ first second, .registered first ∈ history →
      .registered second ∈ history → first ≠ second →
      RegisteredBefore history first second ∨
        RegisteredBefore history second first := by
  constructor
  · intro distinct first second firstMember secondMember different
    by_contra apart
    rw [not_or] at apart
    rcases numbered.clash different
      (numbered.created_of_registered firstMember)
      (numbered.created_of_registered secondMember) apart.1 apart.2 with
      same | ⟨other, otherApart, member, same⟩ |
        ⟨other, otherApart, member, same⟩
    · exact distinct first second firstMember secondMember different same
    · exact distinct other first member firstMember otherApart same
    · exact distinct other second member secondMember otherApart same
  · intro ordered first second firstMember secondMember different
    rcases ordered first second firstMember secondMember different with
      before | before
    · exact Nat.ne_of_lt (numbered.number_lt before)
    · exact Nat.ne_of_gt (numbered.number_lt before)

end Numbered

end Newbos
