import Mathlib.Data.Nat.Bitwise
import Mathlib.Order.Interval.Finset.Nat

/-!
# Thirty-two-bit unsigned arithmetic

Unsigned machine integers are represented by natural numbers, and every
operation that can leave the range is followed by an explicit reduction.  The
lemmas say when that reduction does nothing.
-/

namespace Newbos

/-- The value of an unsigned 32-bit expression. -/
def w32 (value : Nat) : Nat :=
  value % 4294967296

/-- Unsigned 32-bit subtraction of two 32-bit values. -/
def sub32 (left right : Nat) : Nat :=
  if right ≤ left then left - right else left + 4294967296 - right

theorem w32_lt (value : Nat) : w32 value < 4294967296 :=
  Nat.mod_lt _ (by decide)

theorem w32_of_lt {value : Nat} (small : value < 4294967296) :
    w32 value = value :=
  Nat.mod_eq_of_lt small

theorem sub32_lt {left : Nat} (small : left < 4294967296) (right : Nat) :
    sub32 left right < 4294967296 := by
  unfold sub32
  split <;> omega

theorem sub32_of_le {left right : Nat} (ordered : right ≤ left) :
    sub32 left right = left - right := by
  rw [sub32, if_pos ordered]

theorem sub32_of_lt {left right : Nat} (borrow : left < right) :
    sub32 left right = left + 4294967296 - right := by
  rw [sub32, if_neg (Nat.not_le_of_lt borrow)]

/-- Replace the value of a total store at one address. -/
def Store.set {α : Type} (store : Nat → α) (address : Nat) (value : α) :
    Nat → α :=
  fun other => if other = address then value else store other

@[simp] theorem Store.set_same {α : Type} (store : Nat → α) (address : Nat)
    (value : α) : Store.set store address value address = value := by
  simp [Store.set]

theorem Store.set_other {α : Type} (store : Nat → α) {address other : Nat}
    (value : α) (different : other ≠ address) :
    Store.set store address value other = store other := by
  simp [Store.set, different]

@[simp] theorem Store.set_set {α : Type} (store : Nat → α) (address : Nat)
    (first second : α) :
    Store.set (Store.set store address first) address second =
      Store.set store address second := by
  funext other
  by_cases same : other = address
  · simp [same]
  · simp [Store.set_other, same]

end Newbos
