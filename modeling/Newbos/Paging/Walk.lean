import Newbos.Paging.Rounds

/-!
# The processor's walk

What a directory means to the processor: for every page a frame and the rights
that both levels grant.  A walk reads one directory entry, and one page-table
entry unless the page is a large one.
-/

namespace Newbos

/-- A page as the processor sees it. -/
structure Mapping where
  frame : Nat
  writable : Bool
  user : Bool
  deriving DecidableEq, Repr

/-- The entry names a page table. -/
def Entry.HoldsTable (entry : Entry) : Prop :=
  entry.bitP = true ∧ entry.bitPS = false

instance (entry : Entry) : Decidable entry.HoldsTable :=
  inferInstanceAs (Decidable (_ ∧ _))

/-- What a large page, or a page-table entry under a directory entry, gives. -/
def Entry.largePage (pde : Entry) (ptIdx : Nat) : Mapping :=
  { frame := pde.paddr / 4194304 * 1024 + ptIdx
    writable := pde.bitRW
    user := pde.bitUS }

def Entry.smallPage (pde pte : Entry) : Option Mapping :=
  if pte.bitP then
    some
      { frame := pte.frame
        writable := pde.bitRW && pte.bitRW
        user := pde.bitUS && pte.bitUS }
  else none

namespace Machine

/-- The walk from a directory, with the rights of both levels. -/
def mapping (machine : Machine) (directory vaddr : Nat) : Option Mapping :=
  let pde := machine.mem directory (virtualToPdtIdx vaddr)
  if pde.bitP then
    if pde.bitPS then some (pde.largePage (virtualToPtIdx vaddr))
    else pde.smallPage (machine.mem pde.frame (virtualToPtIdx vaddr))
  else none

/-- The page-table entry of a page, empty where its slot is. -/
def leaf (machine : Machine) (pdt pdtIdx ptIdx : Nat) : Entry :=
  if (machine.mem pdt pdtIdx).isPresent then
    machine.mem (machine.mem pdt pdtIdx).frame ptIdx
  else Entry.empty

end Machine

theorem Entry.bitP_eq_false {entry : Entry}
    (absent : entry.isPresent = false) : entry.bitP = false := by
  have zero : entry.config = 0 := by
    simpa [isPresent] using absent
  rw [bitP, zero]
  decide

theorem Entry.HoldsTable.isPresent {entry : Entry}
    (table : entry.HoldsTable) : entry.isPresent = true := by
  by_contra absent
  have unset := entry.bitP_eq_false (by simpa using absent)
  rw [table.1] at unset
  cases unset

theorem Entry.empty_smallPage (pde : Entry) :
    pde.smallPage Entry.empty = none := by
  rw [smallPage, empty_bitP]
  rfl

section Walk

variable {machine : Machine} {directory vaddr : Nat}

theorem Machine.translate_eq_mapping (machine : Machine)
    (directory vaddr : Nat) :
    machine.translate directory vaddr =
      (machine.mapping directory vaddr).map Mapping.frame := by
  simp only [translate, mapping, Entry.largePage, Entry.smallPage]
  split_ifs <;> rfl

theorem Machine.mapping_absent
    (absent : (machine.mem directory
      (virtualToPdtIdx vaddr)).isPresent = false) :
    machine.mapping directory vaddr = none := by
  simp only [mapping]
  rw [Entry.bitP_eq_false absent]
  rfl

theorem Machine.mapping_table
    (table : (machine.mem directory (virtualToPdtIdx vaddr)).HoldsTable) :
    machine.mapping directory vaddr =
      (machine.mem directory (virtualToPdtIdx vaddr)).smallPage
        (machine.leaf directory (virtualToPdtIdx vaddr)
          (virtualToPtIdx vaddr)) := by
  simp only [mapping]
  rw [if_pos table.1, if_neg (by simp [table.2]), leaf,
    if_pos table.isPresent]

theorem Machine.mapping_noTable {other : Machine} {otherDirectory : Nat}
    (same : other.mem otherDirectory (virtualToPdtIdx vaddr) =
      machine.mem directory (virtualToPdtIdx vaddr))
    (noTable : ¬(machine.mem directory
      (virtualToPdtIdx vaddr)).HoldsTable) :
    other.mapping otherDirectory vaddr = machine.mapping directory vaddr := by
  simp only [mapping]
  rw [same]
  by_cases valid : (machine.mem directory (virtualToPdtIdx vaddr)).bitP = true
  · by_cases large :
        (machine.mem directory (virtualToPdtIdx vaddr)).bitPS = true
    · rw [if_pos valid, if_pos large, if_pos valid, if_pos large]
    · exact absurd ⟨valid, by simpa using large⟩ noTable
  · rw [if_neg valid, if_neg valid]

theorem Machine.mapping_congr {other : Machine} {otherDirectory : Nat}
    (same : other.mem otherDirectory (virtualToPdtIdx vaddr) =
      machine.mem directory (virtualToPdtIdx vaddr))
    (sameLeaf : (machine.mem directory
        (virtualToPdtIdx vaddr)).HoldsTable →
      other.leaf otherDirectory (virtualToPdtIdx vaddr)
          (virtualToPtIdx vaddr) =
        machine.leaf directory (virtualToPdtIdx vaddr)
          (virtualToPtIdx vaddr)) :
    other.mapping otherDirectory vaddr = machine.mapping directory vaddr := by
  by_cases table :
      (machine.mem directory (virtualToPdtIdx vaddr)).HoldsTable
  · have otherTable :
        (other.mem otherDirectory (virtualToPdtIdx vaddr)).HoldsTable := by
      rw [same]
      exact table
    rw [mapping_table table, mapping_table otherTable, same, sameLeaf table]
  · exact mapping_noTable same table

theorem Machine.leaf_congr {other : Machine}
    {otherDirectory pdtIdx ptIdx : Nat}
    (same : other.mem otherDirectory pdtIdx = machine.mem directory pdtIdx)
    (sameTable : other.mem (machine.mem directory pdtIdx).frame ptIdx =
      machine.mem (machine.mem directory pdtIdx).frame ptIdx) :
    other.leaf otherDirectory pdtIdx ptIdx =
      machine.leaf directory pdtIdx ptIdx := by
  rw [leaf, leaf, same, sameTable]

theorem Machine.mapping_page {first second : Nat}
    (samePage : first / 4096 = second / 4096) :
    machine.mapping directory first = machine.mapping directory second := by
  have sameSlot : virtualToPdtIdx first = virtualToPdtIdx second := by
    rw [virtualToPdtIdx_eq, virtualToPdtIdx_eq]
    omega
  have sameIndex : virtualToPtIdx first = virtualToPtIdx second := by
    rw [virtualToPtIdx_eq, virtualToPtIdx_eq]
    omega
  simp only [mapping]
  rw [sameSlot, sameIndex]

end Walk

theorem samePage_of_idx {first second : Nat} (firstSmall : first < 4294967296)
    (secondSmall : second < 4294967296)
    (sameSlot : virtualToPdtIdx first = virtualToPdtIdx second)
    (sameIndex : virtualToPtIdx first = virtualToPtIdx second) :
    first / 4096 = second / 4096 := by
  rw [virtualToPdtIdx_eq, virtualToPdtIdx_eq] at sameSlot
  rw [virtualToPtIdx_eq, virtualToPtIdx_eq] at sameIndex
  omega

end Newbos
