import Newbos.Paging.Walk
import Newbos.Paging.Unmapping

/-!
# What unmapping removes

`pdt_unmap_memory` asks the table of every slot for the whole size, so that in
the last slot of a range that crosses a boundary it goes on behind the end.
The pages that it removes are given exactly.
-/

namespace Newbos

/-- The present slots of a range hold page tables of their own, which come
from the allocator where the call frees them.  Slots outside the range may be
large pages. -/
structure RangeOwned (layout : Layout) (machine : Machine)
    (pdt vaddr bytes : Nat) : Prop where
  table : ∀ slot, RangeSlots vaddr bytes slot →
    (machine.mem pdt slot).isPresent = true →
    (machine.mem pdt slot).HoldsTable
  managed : TablesManaged layout machine pdt vaddr bytes
    (RangeSlots vaddr bytes)
  apart : ∀ slot < 1024, (machine.mem pdt slot).HoldsTable →
    (machine.mem pdt slot).frame ≠ pdt
  unshared : ∀ slot other, RangeSlots vaddr bytes slot → other < 1024 →
    other ≠ slot → (machine.mem pdt slot).isPresent = true →
    (machine.mem pdt other).HoldsTable →
    (machine.mem pdt other).frame ≠ (machine.mem pdt slot).frame

/-- The page whose entry is the temporary entry, through whatever slot. -/
def TemporaryPage (layout : Layout) (machine : Machine)
    (pdt address : Nat) : Prop :=
  (machine.mem pdt (virtualToPdtIdx address)).frame = layout.kernelPt ∧
    virtualToPtIdx address = kernelTmpPtIdx

instance (layout : Layout) (machine : Machine) (pdt address : Nat) :
    Decidable (TemporaryPage layout machine pdt address) :=
  inferInstanceAs (Decidable (_ ∧ _))

/-- The slot of the last page of a range. -/
def lastSlot (vaddr bytes : Nat) : Nat :=
  (vaddr + bytes - 1) / fourMb

/-- The end of what is removed: the end of the range inside its first slot,
and otherwise the whole size counted from the last boundary, inside the last
slot. -/
def unmapEnd (vaddr bytes : Nat) : Nat :=
  if lastSlot vaddr bytes = vaddr / fourMb then vaddr + bytes
  else fourMb * lastSlot vaddr bytes +
    4096 * min (bytes / fourKb) (slotEntries (lastSlot vaddr bytes))

section Rounds

variable {layout : Layout} {pdt vaddr bytes : Nat} {machine : Machine}

theorem RangeOwned.congr {after : Machine}
    (owned : RangeOwned layout machine pdt vaddr bytes)
    (kept : ∀ slot, after.mem pdt slot = machine.mem pdt slot ∨
      after.mem pdt slot = Entry.empty) :
    RangeOwned layout after pdt vaddr bytes := by
  have same : ∀ slot, (after.mem pdt slot).isPresent = true →
      after.mem pdt slot = machine.mem pdt slot := by
    intro slot present
    rcases kept slot with unchanged | emptied
    · exact unchanged
    · rw [emptied] at present
      cases present
  refine ⟨?_, ?_, ?_, ?_⟩
  · intro slot reached present
    have unchanged := same slot present
    rw [unchanged] at present ⊢
    exact owned.table slot reached present
  · intro slot reached present
    have unchanged := same slot present
    rw [unchanged] at present ⊢
    exact owned.managed slot reached present
  · intro slot small holds
    have unchanged := same slot holds.isPresent
    rw [unchanged] at holds ⊢
    exact owned.apart slot small holds
  · intro slot other reached small different present holds
    have unchangedOther := same other holds.isPresent
    have unchanged := same slot present
    rw [unchangedOther] at holds ⊢
    rw [unchanged] at present ⊢
    exact owned.unshared slot other reached small different present holds

/-- Clearing a table unmaps the pages of the cleared entries, the temporary
entry apart. -/
theorem RangeOwned.clearTable_mapping {start size : Nat}
    (owned : RangeOwned layout machine pdt start bytes)
    (reached : RangeSlots start bytes (virtualToPdtIdx vaddr))
    (present : (machine.mem pdt (virtualToPdtIdx vaddr)).isPresent = true)
    (address : Nat) :
    (machine.clearTable layout pdt vaddr size).mapping pdt address =
      if virtualToPdtIdx address = virtualToPdtIdx vaddr ∧
          virtualToPtIdx vaddr ≤ virtualToPtIdx address ∧
          virtualToPtIdx address <
            virtualToPtIdx vaddr + chunkPages size vaddr ∧
          ¬TemporaryPage layout machine pdt address then none
      else machine.mapping pdt address := by
  have table := owned.table _ reached present
  have directory : ∀ slot, (machine.clearTable layout pdt vaddr size).mem
      pdt slot = machine.mem pdt slot :=
    Machine.clearTable_directory (owned.managed _ reached present).1
  by_cases own : virtualToPdtIdx address = virtualToPdtIdx vaddr
  · rw [← own] at table present
    have tableAfter : ((machine.clearTable layout pdt vaddr size).mem pdt
        (virtualToPdtIdx address)).HoldsTable := by
      rw [directory]
      exact table
    rw [Machine.mapping_table tableAfter, Machine.mapping_table table,
      Machine.leaf, Machine.leaf, directory, if_pos present,
      if_pos present, Machine.clearTable_mem]
    by_cases inside : virtualToPdtIdx address = virtualToPdtIdx vaddr ∧
        virtualToPtIdx vaddr ≤ virtualToPtIdx address ∧
        virtualToPtIdx address <
          virtualToPtIdx vaddr + chunkPages size vaddr ∧
        ¬TemporaryPage layout machine pdt address
    · rw [if_pos inside]
      split_ifs with cleared
      · exact Entry.empty_smallPage _
      · have absent : (machine.mem (machine.mem pdt
            (virtualToPdtIdx address)).frame
              (virtualToPtIdx address)).isPresent = false := by
          by_contra set
          exact cleared ⟨⟨by rw [own], inside.2.1, inside.2.2.1⟩,
            inside.2.2.2, by simpa using set⟩
        rw [Entry.smallPage, Entry.bitP_eq_false absent]
        rfl
    · rw [if_neg inside, if_neg]
      rintro ⟨bounds, notTemporary, _⟩
      exact inside ⟨own, bounds.2.1, bounds.2.2, notTemporary⟩
  · rw [if_neg fun all => own all.1]
    apply Machine.mapping_congr (directory _)
    intro holds
    apply Machine.leaf_congr (directory _)
    rw [Machine.clearTable_mem, if_neg]
    intro all
    exact owned.unshared _ _ reached (virtualToPdtIdx_lt _) own present
      holds all.1.1

theorem inChunk_iff {size here address : Nat} (small : here < 4294967296)
    (aligned : here % 4096 = 0) (addressSmall : address < 4294967296) :
    (here ≤ address ∧ address < here + 4096 * chunkPages size here) ↔
      virtualToPdtIdx address = virtualToPdtIdx here ∧
        virtualToPtIdx here ≤ virtualToPtIdx address ∧
        virtualToPtIdx address <
          virtualToPtIdx here + chunkPages size here := by
  have entries := slotEntries_le (here / fourMb)
  rw [chunkPages_eq small, virtualToPdtIdx_of_lt small,
    virtualToPdtIdx_of_lt addressSmall, virtualToPtIdx_eq, virtualToPtIdx_eq]
  simp only [fourMb, fourKb] at *
  omega

theorem RangeOwned.round {start here : Nat} (ok : layout.Ok)
    (owned : RangeOwned layout machine pdt start bytes)
    (bytesAligned : bytes % 4096 = 0) (bytesSmall : bytes < 4294967296)
    (aligned : here % 4096 = 0) (small : here < 4294967296)
    (later : start ≤ here)
    (reached : RangeSlots start bytes (here / fourMb))
    (present : (machine.mem pdt (here / fourMb)).isPresent = true)
    (freedSize : Nat) :
    ∃ after, pdtUnmapStep layout pdt bytes (here, freedSize, machine) =
        (w32 (here + 4096 * chunkPages bytes here),
          4096 * chunkPages bytes here, after) ∧
      RangeOwned layout after pdt start bytes ∧
      (∀ slot, slot ≠ here / fourMb →
        after.mem pdt slot = machine.mem pdt slot) ∧
      ∀ address < 4294967296, after.mapping pdt address =
        if (here ≤ address ∧
              address < here + 4096 * chunkPages bytes here) ∧
            ¬TemporaryPage layout machine pdt address then none
        else machine.mapping pdt address := by
  obtain ⟨after, step, memory⟩ := pdtUnmapStep_memory ok.framesOk aligned
    small bytesAligned bytesSmall owned.managed reached (fun _ => later)
    present freedSize
  obtain ⟨apart, managed⟩ := owned.managed _ reached present
  have slotEq := virtualToPdtIdx_of_lt small
  rw [← slotEq] at present apart managed reached
  have directory : ∀ slot, (machine.clearTable layout pdt here bytes).mem
      pdt slot = machine.mem pdt slot := Machine.clearTable_directory apart
  refine ⟨after, step, ?_, ?_, ?_⟩
  · apply owned.congr
    intro slot
    rw [memory]
    split_ifs
    · exact Or.inr rfl
    · exact Or.inl (directory slot)
  · intro slot other
    rw [memory, if_neg fun all => other (by rw [← slotEq]; exact all.1.2)]
    exact directory slot
  · intro address addressSmall
    have cleared := @RangeOwned.clearTable_mapping layout pdt here bytes
      machine start bytes owned reached present address
    simp only [inChunk_iff small aligned addressSmall, and_assoc]
    by_cases own : virtualToPdtIdx address = virtualToPdtIdx here ∧
        Closes bytes here
    · have bounds := own.2.bounds aligned small
      have entry : ¬TemporaryPage layout machine pdt address := by
        rw [TemporaryPage, own.1]
        intro temporary
        apply ok.kernelPtUnmanaged
        rw [← temporary.1]
        refine managed ?_ bounds.2 own.2.2
        simp only [fourMb] at *
        omega
      rw [if_pos, Machine.mapping_absent]
      · rw [memory, if_pos ⟨⟨rfl, own.1⟩, own.2⟩]
        rfl
      · have index := virtualToPtIdx_lt address
        have first : virtualToPtIdx here = 0 := by
          rw [virtualToPtIdx_eq]
          simp only [fourMb] at bounds
          omega
        have count : chunkPages bytes here = 1024 := by
          have whole := own.2.1
          simp only [fourMb] at whole
          omega
        rw [first, count]
        exact ⟨own.1, Nat.zero_le _, by omega, entry⟩
    · rw [← cleared]
      have sameSlot : after.mem pdt (virtualToPdtIdx address) =
          (machine.clearTable layout pdt here bytes).mem pdt
            (virtualToPdtIdx address) := by
        rw [memory, if_neg fun all => own ⟨all.1.2, all.2⟩]
      apply Machine.mapping_congr sameSlot
      intro holds
      apply Machine.leaf_congr sameSlot
      rw [memory, if_neg]
      rintro ⟨⟨isDirectory, _⟩, _⟩
      rw [directory] at holds isDirectory
      exact owned.apart _ (virtualToPdtIdx_lt _) holds isDirectory

end Rounds

/-! ## Where the rounds come to -/

section Positions

variable {vaddr bytes here : Nat}

theorem lastSlot_bounds (running : here < vaddr + bytes) :
    fourMb * lastSlot vaddr bytes < vaddr + bytes ∧
      vaddr + bytes ≤ fourMb * (lastSlot vaddr bytes + 1) := by
  simp only [lastSlot, fourMb]
  omega

variable (bytesAligned : bytes % 4096 = 0)
  (position : here = vaddr ∨ here % fourMb = 0 ∧ vaddr < here)
  (running : here < vaddr + bytes)
include bytesAligned position running

theorem chunk_last (small : here < 4294967296)
    (own : here / fourMb = lastSlot vaddr bytes)
    (kernel : here / fourMb = kernelPtPdtIdx →
      vaddr + bytes ≤ kernelTmpVaddr) :
    here + 4096 * chunkPages bytes here = unmapEnd vaddr bytes ∧
      vaddr + bytes ≤ unmapEnd vaddr bytes := by
  have bounds := lastSlot_bounds running
  rw [chunkPages_eq small, unmapEnd, ← own]
  rw [← own] at bounds
  have entries : vaddr + bytes ≤
      fourMb * (here / fourMb) + 4096 * slotEntries (here / fourMb) := by
    rw [slotEntries]
    split_ifs with isKernel
    · have bound := kernel isKernel
      rw [isKernel]
      simp only [fourMb, kernelPtPdtIdx, kernelTmpVaddr] at *
      omega
    · simp only [fourMb] at *
      omega
  generalize slotEntries (here / fourMb) = available at *
  split_ifs with first
  · have start : here = vaddr := by
      simp only [fourMb] at *
      omega
    rw [start] at *
    simp only [fourMb, fourKb] at *
    omega
  · have boundary : here = fourMb * (here / fourMb) := by
      simp only [fourMb] at *
      omega
    have index : here / 4096 % 1024 = 0 := by
      simp only [fourMb] at *
      omega
    rw [← boundary] at entries ⊢
    rw [index]
    simp only [fourKb]
    omega

theorem chunk_before (aligned : vaddr % 4096 = 0)
    (small : here < 4294967296)
    (other : here / fourMb ≠ lastSlot vaddr bytes)
    (kernel : here / fourMb = kernelPtPdtIdx →
      vaddr + bytes ≤ kernelTmpVaddr) :
    here + 4096 * chunkPages bytes here = fourMb * (here / fourMb + 1) ∧
      here / fourMb < lastSlot vaddr bytes := by
  have bounds := lastSlot_bounds running
  have earlier : here / fourMb < lastSlot vaddr bytes := by
    simp only [fourMb] at *
    omega
  refine ⟨?_, earlier⟩
  have notKernel : here / fourMb ≠ kernelPtPdtIdx := by
    intro isKernel
    have bound := kernel isKernel
    simp only [fourMb, kernelPtPdtIdx, kernelTmpVaddr] at *
    omega
  rw [chunkPages_eq small, slotEntries, if_neg notKernel]
  generalize lastSlot vaddr bytes = last at *
  clear kernel notKernel other
  simp only [fourMb, fourKb] at *
  omega

/-- The rounds stay inside what is removed, and end there or at the next
boundary of the range. -/
theorem chunk_position (aligned : vaddr % 4096 = 0)
    (fits : vaddr + bytes < 4294967296)
    (noWrap : fourMb ≤ bytes → vaddr + bytes ≤ 0xFFC00000)
    (kernel : here / fourMb = kernelPtPdtIdx →
      vaddr + bytes ≤ kernelTmpVaddr) :
    here + 4096 * chunkPages bytes here < 4294967296 ∧
      here + 4096 * chunkPages bytes here ≤ unmapEnd vaddr bytes ∧
      ((here + 4096 * chunkPages bytes here) % fourMb = 0 ∧
          here < here + 4096 * chunkPages bytes here ∧
          here + 4096 * chunkPages bytes here < vaddr + bytes ∨
        vaddr + bytes ≤ here + 4096 * chunkPages bytes here ∧
          unmapEnd vaddr bytes ≤ here + 4096 * chunkPages bytes here) := by
  have bounds := lastSlot_bounds running
  by_cases own : here / fourMb = lastSlot vaddr bytes
  · obtain ⟨next, reached⟩ := chunk_last bytesAligned position running
      (by omega) own kernel
    rw [next]
    refine ⟨?_, Nat.le_refl _, Or.inr ⟨reached, Nat.le_refl _⟩⟩
    rw [unmapEnd]
    split_ifs with first
    · exact fits
    · have entries := slotEntries_le (lastSlot vaddr bytes)
      have atMost : min (bytes / fourKb)
          (slotEntries (lastSlot vaddr bytes)) ≤ 1024 := by omega
      have inBytes : 4096 * min (bytes / fourKb)
          (slotEntries (lastSlot vaddr bytes)) ≤ bytes := by
        simp only [fourKb]
        omega
      simp only [fourMb] at *
      omega
  · obtain ⟨next, earlier⟩ := chunk_before bytesAligned position running
      aligned (by omega) own kernel
    rw [next]
    have crosses : lastSlot vaddr bytes ≠ vaddr / fourMb := by
      simp only [fourMb] at *
      omega
    have behind : fourMb * lastSlot vaddr bytes ≤ unmapEnd vaddr bytes := by
      rw [unmapEnd, if_neg crosses]
      exact Nat.le_add_right _ _
    refine ⟨?_, ?_, Or.inl ⟨?_, ?_, ?_⟩⟩
    · simp only [fourMb] at *
      omega
    · simp only [fourMb] at *
      omega
    · simp [fourMb]
    · simp only [fourMb]
      omega
    · simp only [fourMb] at *
      omega

end Positions

/-! ## Whole calls -/

/-- What the loop has done when it comes to an address: the slots ahead are
untouched, and the pages passed are removed. -/
structure UnmapProgress (layout : Layout) (pdt vaddr bytes : Nat)
    (initial : Machine) (here : Nat) (machine : Machine) : Prop where
  position : here = vaddr ∨
    here % fourMb = 0 ∧ vaddr < here ∧ here < vaddr + bytes ∨
    vaddr + bytes ≤ here ∧ unmapEnd vaddr bytes ≤ here
  owned : RangeOwned layout machine pdt vaddr bytes
  ahead : ∀ slot, here / fourMb ≤ slot → here < vaddr + bytes →
    machine.mem pdt slot = initial.mem pdt slot
  mapping : ∀ address < 4294967296, machine.mapping pdt address =
    if (vaddr ≤ address ∧ address < here ∧
          address < unmapEnd vaddr bytes) ∧
        ¬TemporaryPage layout initial pdt address then none
    else initial.mapping pdt address

section Calls

variable {layout : Layout} {pdt vaddr bytes here freedSize : Nat}
  {initial machine : Machine}

theorem UnmapProgress.start
    (owned : RangeOwned layout initial pdt vaddr bytes) :
    UnmapProgress layout pdt vaddr bytes initial vaddr initial := by
  refine ⟨Or.inl rfl, owned, fun _ _ _ => rfl, ?_⟩
  intro address _
  rw [if_neg]
  omega

section Step

variable (aligned : vaddr % 4096 = 0) (bytesAligned : bytes % 4096 = 0)
  (fits : vaddr + bytes < 4294967296)
  (passed : RangePassed initial pdt vaddr (vaddr + bytes))
  (progress : UnmapProgress layout pdt vaddr bytes initial here machine)
  (unfinished : here < vaddr + bytes)
include aligned bytesAligned fits passed progress unfinished

omit aligned bytesAligned fits passed in
theorem UnmapProgress.running_position :
    here = vaddr ∨ here % fourMb = 0 ∧ vaddr < here := by
  rcases progress.position with start | boundary | ended
  · exact Or.inl start
  · exact Or.inr ⟨boundary.1, boundary.2.1⟩
  · exact absurd unfinished (Nat.not_lt_of_le ended.1)

theorem UnmapProgress.chunk (ok : layout.Ok)
    (noWrap : fourMb ≤ bytes → vaddr + bytes ≤ 0xFFC00000)
    (present : (machine.mem pdt (here / fourMb)).isPresent = true) :
    ∃ next freed after, pdtUnmapStep layout pdt bytes
        (here, freedSize, machine) = (next, freed, after) ∧
      UnmapProgress layout pdt vaddr bytes initial next after := by
  have position := progress.running_position unfinished
  have initially := progress.ahead _ (Nat.le_refl _) unfinished
  have kernel : here / fourMb = kernelPtPdtIdx →
      vaddr + bytes ≤ kernelTmpVaddr := by
    intro isKernel
    by_contra beyond
    have absent := passed.2
      (by simp only [fourMb, kernelPtPdtIdx, kernelTmpVaddr] at *; omega)
      (by omega)
    rw [← isKernel, ← initially, present] at absent
    cases absent
  obtain ⟨small, inside, ended⟩ := chunk_position bytesAligned position
    unfinished aligned fits noWrap kernel
  obtain ⟨after, step, owned, kept, mapped⟩ := progress.owned.round ok
    bytesAligned (by omega)
    (show here % 4096 = 0 by simp only [fourMb] at *; omega) (by omega)
    (by omega) ⟨by simp only [fourMb] at *; omega,
      by simp only [fourMb] at *; omega, by simp only [fourMb] at *; omega⟩
    present freedSize
  rw [w32_of_lt small] at step
  generalize here + 4096 * chunkPages bytes here = next at *
  refine ⟨next, _, after, step, ?_, owned, ?_, ?_⟩
  · rcases ended with boundary | ended
    · exact Or.inr (Or.inl ⟨boundary.1, by omega, boundary.2.2⟩)
    · exact Or.inr (Or.inr ended)
  · intro slot later early
    have beyond : here / fourMb < slot := by
      simp only [fourMb] at *
      omega
    rw [kept slot (Nat.ne_of_gt beyond)]
    exact progress.ahead slot (Nat.le_of_lt beyond) unfinished
  · intro address addressSmall
    rw [mapped address addressSmall, progress.mapping address addressSmall]
    by_cases inChunk : here ≤ address ∧ address < next
    · have sameEntry := progress.ahead (virtualToPdtIdx address)
        (by rw [virtualToPdtIdx_of_lt addressSmall]
            simp only [fourMb]
            omega) unfinished
      have notBefore : ¬((vaddr ≤ address ∧ address < here ∧
          address < unmapEnd vaddr bytes) ∧
            ¬TemporaryPage layout initial pdt address) := by
        omega
      have bounds : vaddr ≤ address ∧ address < next ∧
          address < unmapEnd vaddr bytes := by
        omega
      rw [if_neg notBefore]
      simp only [inChunk, bounds, TemporaryPage, sameEntry, and_self,
        true_and]
    · rw [if_neg fun all => inChunk all.1]
      have sameBounds : (vaddr ≤ address ∧ address < here ∧
          address < unmapEnd vaddr bytes) ↔
          (vaddr ≤ address ∧ address < next ∧
            address < unmapEnd vaddr bytes) := by
        omega
      simp only [sameBounds]

/-- An empty slot is passed at the start of a range only. -/
theorem UnmapProgress.skip
    (start : (initial.mem pdt (vaddr / fourMb)).isPresent = false →
      vaddr % fourMb ≠ 0 ∧ vaddr < 0xFFC00000)
    (absent : (machine.mem pdt (here / fourMb)).isPresent = false) :
    ∃ next freed after, pdtUnmapStep layout pdt bytes
        (here, freedSize, machine) = (next, freed, after) ∧
      UnmapProgress layout pdt vaddr bytes initial next after := by
  have initially := progress.ahead _ (Nat.le_refl _) unfinished
  rw [initially] at absent
  have first : here = vaddr := by
    rcases progress.running_position unfinished with first | boundary
    · exact first
    · have needed := passed.1 (here / fourMb)
        (by simp only [fourMb] at *; omega)
        (by simp only [fourMb] at *; omega)
      rw [absent] at needed
      cases needed
  subst first
  obtain ⟨notFirst, notLast⟩ := start absent
  have next : alignUp here fourMb = fourMb * (here / fourMb + 1) := by
    rw [alignUp, if_neg notFirst]
    simp only [fourMb, w32] at *
    omega
  refine ⟨fourMb * (here / fourMb + 1), freedSize, machine, ?_, ?_,
    progress.owned, ?_, ?_⟩
  · rw [pdtUnmapStep_skip (by omega) (by rw [initially]; exact absent), next]
  · by_cases crosses : fourMb * (here / fourMb + 1) < here + bytes
    · refine Or.inr (Or.inl ⟨?_, ?_, crosses⟩)
      · simp [fourMb]
      · simp only [fourMb]
        omega
    · refine Or.inr (Or.inr ?_)
      rw [unmapEnd, if_pos]
      · omega
      · simp only [lastSlot, fourMb] at *
        omega
  · intro slot later _
    exact progress.ahead slot (by simp only [fourMb] at *; omega) unfinished
  · intro address addressSmall
    rw [progress.mapping address addressSmall, if_neg (by omega)]
    split_ifs with removed
    · apply Machine.mapping_absent
      rw [virtualToPdtIdx_of_lt addressSmall, show address / fourMb =
        here / fourMb by simp only [fourMb] at *; omega]
      exact absent
    · rfl

end Step

theorem UnmapProgress.ended
    (progress : UnmapProgress layout pdt vaddr bytes initial here machine)
    (running : bytes ≠ 0) (ended : vaddr + bytes ≤ here) (address : Nat)
    (small : address < 4294967296) :
    machine.mapping pdt address =
      if (vaddr ≤ address ∧ address < unmapEnd vaddr bytes) ∧
          ¬TemporaryPage layout initial pdt address then none
      else initial.mapping pdt address := by
  have beyond : unmapEnd vaddr bytes ≤ here := by
    rcases progress.position with start | boundary | last
    · omega
    · omega
    · exact last.2
  have sameBounds : (vaddr ≤ address ∧ address < here ∧
      address < unmapEnd vaddr bytes) ↔
      (vaddr ≤ address ∧ address < unmapEnd vaddr bytes) := by
    omega
  rw [progress.mapping address small]
  simp only [sameBounds]

theorem unmapEnd_zero (vaddr : Nat) : unmapEnd vaddr 0 ≤ vaddr := by
  rw [unmapEnd]
  split_ifs
  · exact Nat.le_refl _
  · simp only [lastSlot, fourMb, fourKb, Nat.zero_div, Nat.zero_min]
    omega

theorem unmapEnd_le (fits : vaddr + bytes < 4294967296) :
    unmapEnd vaddr bytes ≤ 4294967296 := by
  have entries := slotEntries_le (lastSlot vaddr bytes)
  rw [unmapEnd]
  split_ifs
  · exact Nat.le_of_lt fits
  · simp only [lastSlot, fourMb, fourKb] at *
    omega

theorem le_unmapEnd (bytesAligned : bytes % 4096 = 0)
    (fits : vaddr + bytes < 4294967296)
    (returns : UnmapReturns machine pdt vaddr bytes) (running : bytes ≠ 0) :
    vaddr + bytes ≤ unmapEnd vaddr bytes := by
  obtain empty | wraps | ⟨_, _, passed⟩ := returns
  · exact absurd empty running
  · omega
  · rw [unmapEnd]
    split_ifs with inside
    · exact Nat.le_refl _
    · have present := passed.1 (lastSlot vaddr bytes)
        (by simp only [lastSlot, fourMb] at *; omega)
        (by simp only [lastSlot, fourMb] at *; omega)
      have kernel : lastSlot vaddr bytes = kernelPtPdtIdx →
          vaddr + bytes ≤ kernelTmpVaddr := by
        intro isKernel
        by_contra beyond
        have absent := passed.2
          (by simp only [lastSlot, fourMb, kernelPtPdtIdx,
                kernelTmpVaddr] at *
              omega)
          (by omega)
        rw [← isKernel, present] at absent
        cases absent
      rw [slotEntries]
      split_ifs with isKernel
      · have bound := kernel isKernel
        simp only [lastSlot, fourMb, fourKb, kernelPtPdtIdx,
          kernelTmpVaddr] at *
        omega
      · simp only [lastSlot, fourMb, fourKb] at *
        omega

theorem pdtUnmapMemory_mapping {size fuel result : Nat} {after : Machine}
    (ok : layout.Ok) (aligned : vaddr % 4096 = 0)
    (fits : vaddr + alignUp size fourKb < 4294967296)
    (owned : RangeOwned layout machine pdt vaddr (alignUp size fourKb))
    (returned : pdtUnmapMemory layout fuel pdt vaddr size machine =
      some (result, after)) :
    UnmapReturns machine pdt vaddr (alignUp size fourKb) ∧
      ∀ address < 4294967296, after.mapping pdt address =
        if (vaddr ≤ address ∧
              address < unmapEnd vaddr (alignUp size fourKb)) ∧
            ¬TemporaryPage layout machine pdt address then none
        else machine.mapping pdt address := by
  have ends := (pdtUnmapMemory_some_iff size).mp ⟨fuel, _, returned⟩
  have bytesAligned := alignUp_fourKb_mod size
  simp only [pdtUnmapMemory] at returned
  generalize alignUp size fourKb = bytes at *
  rw [w32_of_lt fits] at ends returned
  by_cases running : bytes ≠ 0
  · have returns := (unmapEnds_range_iff ok.framesOk aligned bytesAligned
      running fits owned.managed).mp ends
    refine ⟨returns, ?_⟩
    obtain empty | wraps | ⟨start, noWrap, passed⟩ := returns
    · exact absurd empty running
    · omega
    · obtain ⟨last, ended, progress⟩ := pdtUnmapLoop_inv
        (UnmapProgress layout pdt vaddr bytes machine)
        (by
          intro here freedSize middle progress unfinished
          cases present : (middle.mem pdt (here / fourMb)).isPresent with
          | true =>
              exact progress.chunk aligned bytesAligned fits passed
                unfinished ok noWrap present
          | false =>
              exact progress.skip aligned bytesAligned fits passed
                unfinished start present)
        (UnmapProgress.start owned) returned
      exact progress.ended running ended
  · have empty : bytes = 0 := by omega
    subst empty
    refine ⟨Or.inl rfl, ?_⟩
    obtain ⟨last, _, _, rfl⟩ := pdtUnmapLoop_inv
      (fun here middle => vaddr ≤ here ∧ middle = machine)
      (by
        intro here freedSize middle holds unfinished
        omega)
      ⟨Nat.le_refl _, rfl⟩ returned
    intro address _
    have none := unmapEnd_zero vaddr
    rw [if_neg (by omega)]

/-- Nothing behind the end of the range is mapped where the call goes on, and
no page of the range has the temporary entry for its own. -/
def UnmapExact (layout : Layout) (machine : Machine)
    (pdt vaddr bytes : Nat) : Prop :=
  (∀ address, vaddr + bytes ≤ address → address < unmapEnd vaddr bytes →
    ¬TemporaryPage layout machine pdt address →
    machine.mapping pdt address = none) ∧
  ∀ address, vaddr ≤ address → address < vaddr + bytes →
    TemporaryPage layout machine pdt address →
    machine.mapping pdt address = none

/-- A call that returns unmaps exactly its range when nothing is mapped behind
the end of the range, as far as the call goes on in the last slot. -/
theorem pdt_unmap_memory_exact_iff {size fuel result : Nat}
    {after : Machine} (ok : layout.Ok) (aligned : vaddr % 4096 = 0)
    (fits : vaddr + alignUp size fourKb < 4294967296)
    (owned : RangeOwned layout machine pdt vaddr (alignUp size fourKb))
    (returned : pdtUnmapMemory layout fuel pdt vaddr size machine =
      some (result, after)) :
    (∀ address, vaddr ≤ address → address < vaddr + alignUp size fourKb →
        address / 4096 ≠ kernelTmpVaddr / 4096 →
        after.mapping pdt address = none) ∧
      (∀ address < 4294967296,
        ¬(vaddr ≤ address ∧ address < vaddr + alignUp size fourKb) →
        after.mapping pdt address = machine.mapping pdt address) ↔
      UnmapExact layout machine pdt vaddr (alignUp size fourKb) := by
  obtain ⟨returns, mapped⟩ := pdtUnmapMemory_mapping ok aligned fits
    owned returned
  have bytesAligned := alignUp_fourKb_mod size
  generalize alignUp size fourKb = bytes at *
  have bound := unmapEnd_le fits
  constructor
  · rintro ⟨removed, outside⟩
    refine ⟨?_, ?_⟩
    · intro address behind early entry
      have small : address < 4294967296 := by omega
      rw [← outside address small (by omega), mapped address small,
        if_pos ⟨by omega, entry⟩]
    · intro address lower upper entry
      by_cases temporary : address / 4096 = kernelTmpVaddr / 4096
      · have slot : address / fourMb = kernelPtPdtIdx := by
          simp only [kernelTmpVaddr, kernelPtPdtIdx, fourMb] at *
          omega
        obtain empty | wraps | ⟨_, _, passed⟩ := returns
        · omega
        · omega
        · apply Machine.mapping_absent
          rw [virtualToPdtIdx_of_lt (by omega), slot]
          exact passed.2
            (by simp only [kernelTmpVaddr] at temporary ⊢; omega)
            (by simp only [kernelTmpVaddr] at temporary ⊢; omega)
      · rw [← removed address lower upper temporary,
          mapped address (by omega), if_neg fun all => all.2 entry]
  · rintro ⟨behind, entries⟩
    refine ⟨?_, ?_⟩
    · intro address lower upper _
      have reached := le_unmapEnd bytesAligned fits returns (by omega)
      rw [mapped address (by omega)]
      by_cases entry : TemporaryPage layout machine pdt address
      · rw [if_neg fun all => all.2 entry]
        exact entries address lower upper entry
      · rw [if_pos ⟨by omega, entry⟩]
    · intro address small outside
      rw [mapped address small]
      split_ifs with removed
      · exact (behind address (by omega) removed.1.2 removed.2).symm
      · rfl

theorem Boot.rangeOwned (ok : layout.Ok) (boot : Boot layout machine)
    (inSlot : ∀ slot, RangeSlots vaddr bytes slot → slot = kernelPtPdtIdx) :
    RangeOwned layout machine layout.kernelPdt vaddr bytes := by
  have frameEq := boot.kernelSlot_frame ok
  have onlyTable : ∀ slot,
      (machine.mem layout.kernelPdt slot).HoldsTable →
      slot = kernelPtPdtIdx := by
    intro slot holds
    by_contra other
    by_cases identity : slot = 0
    · rw [identity, boot.identity] at holds
      exact absurd holds (by decide)
    · rw [boot.others slot identity other] at holds
      exact absurd holds (by decide)
  refine ⟨?_, ?_, ?_, ?_⟩
  · intro slot reached _
    rw [inSlot slot reached, boot.kernelSlot]
    exact ⟨(pdtEntry_flags ..).2.1, (pdtEntry_flags ..).2.2.1⟩
  · intro slot reached _
    refine ⟨?_, fun _ _ other => absurd (inSlot slot reached) other⟩
    rw [inSlot slot reached, frameEq]
    exact Ne.symm ok.distinct
  · intro slot _ holds
    rw [onlyTable slot holds, frameEq]
    exact Ne.symm ok.distinct
  · intro slot other reached _ different _ holds
    rw [onlyTable other holds, inSlot slot reached] at different
    exact absurd rfl different

/-- One page of the boot table. -/
theorem pdt_unmap_memory_exact_iff_bootPage :
    ∃ fuel result after, pdtUnmapMemory twoFrameLayout fuel
        twoFrameLayout.kernelPdt 0xC0000000 4096
        (bootMachine twoFrameLayout 2) = some (result, after) ∧
      after.mapping twoFrameLayout.kernelPdt 0xC0000000 = none ∧
      after.mapping twoFrameLayout.kernelPdt 0xC0001000 =
        (bootMachine twoFrameLayout 2).mapping twoFrameLayout.kernelPdt
          0xC0001000 := by
  have boot := bootMachine_boot twoFrameLayout_ok.distinct 2
  have bytes : alignUp 4096 fourKb = 4096 := by decide
  have owned : RangeOwned twoFrameLayout (bootMachine twoFrameLayout 2)
      twoFrameLayout.kernelPdt 0xC0000000 (alignUp 4096 fourKb) := by
    apply boot.rangeOwned twoFrameLayout_ok
    intro slot reached
    rw [bytes] at reached
    simp only [RangeSlots, fourMb, kernelPtPdtIdx] at *
    omega
  obtain ⟨⟨result, after⟩, returned⟩ : ∃ output,
      pdtUnmapMemory twoFrameLayout 2 twoFrameLayout.kernelPdt 0xC0000000
        4096 (bootMachine twoFrameLayout 2) = some output :=
    Option.isSome_iff_exists.mp (by decide +kernel)
  have exact := (pdt_unmap_memory_exact_iff twoFrameLayout_ok (by decide)
    (by decide) owned returned).mpr (by
      rw [bytes]
      refine ⟨?_, ?_⟩
      · intro address behind early
        rw [show unmapEnd 0xC0000000 4096 = 0xC0001000 by decide] at early
        omega
      · intro address lower upper temporary
        have index := temporary.2
        rw [virtualToPtIdx_eq] at index
        simp only [kernelTmpPtIdx] at index
        omega)
  rw [bytes] at exact
  exact ⟨2, result, after, returned,
    exact.1 _ (by decide) (by decide) (by decide),
    exact.2 _ (by decide) (by decide)⟩

/-- A directory in frame 16 with tables in two neighbouring slots, and one
page, the second of the later slot. -/
def neighboursMachine : Machine :=
  { blankMachine with
    mem := fun frame index =>
      if frame = 16 ∧ index = 1 then pdtEntry (fourKb * 17) 0 1 1
      else if frame = 16 ∧ index = 2 then pdtEntry (fourKb * 18) 0 1 1
      else if frame = 18 ∧ index = 1 then ptEntry (fourKb * 32) 1 1
      else Entry.empty }

theorem neighboursMachine_owned :
    RangeOwned twoFrameLayout neighboursMachine 16 0x7FF000 8192 := by
  have slots : ∀ slot,
      (neighboursMachine.mem 16 slot).isPresent = true →
      slot = 1 ∨ slot = 2 := by
    intro slot present
    by_contra other
    have empty : neighboursMachine.mem 16 slot = Entry.empty := by
      simp only [neighboursMachine]
      rw [if_neg (by omega), if_neg (by omega), if_neg (by omega)]
    rw [empty] at present
    cases present
  have first : (neighboursMachine.mem 16 1).HoldsTable ∧
      (neighboursMachine.mem 16 1).frame = 17 := by decide
  have second : (neighboursMachine.mem 16 2).HoldsTable ∧
      (neighboursMachine.mem 16 2).frame = 18 := by decide
  refine ⟨?_, ?_, ?_, ?_⟩
  · intro slot _ present
    rcases slots slot present with rfl | rfl
    · exact first.1
    · exact second.1
  · intro slot _ present
    refine ⟨?_, fun _ large => absurd large (by decide)⟩
    rcases slots slot present with rfl | rfl
    · rw [first.2]
      decide
    · rw [second.2]
      decide
  · intro slot _ holds
    rcases slots slot holds.isPresent with rfl | rfl
    · rw [first.2]
      decide
    · rw [second.2]
      decide
  · intro slot other _ _ different present holds
    rcases slots slot present with rfl | rfl
    · rcases slots other holds.isPresent with rfl | rfl
      · exact absurd rfl different
      · rw [first.2, second.2]
        decide
    · rcases slots other holds.isPresent with rfl | rfl
      · rw [first.2, second.2]
        decide
      · exact absurd rfl different

/-- Two pages are asked for, the last of one slot and the first of the next:
the second round takes two pages as well. -/
theorem pdt_unmap_memory_overruns :
    RangeOwned twoFrameLayout neighboursMachine 16 0x7FF000
        (alignUp 8192 fourKb) ∧
      ∃ fuel result after, pdtUnmapMemory twoFrameLayout fuel 16 0x7FF000
          8192 neighboursMachine = some (result, after) ∧
        ¬(0x7FF000 ≤ 0x801000 ∧ 0x801000 < 0x7FF000 + alignUp 8192 fourKb) ∧
        neighboursMachine.translate 16 0x801000 = some 32 ∧
        after.translate 16 0x801000 = none := by
  have bytes : alignUp 8192 fourKb = 8192 := by decide
  refine ⟨?_, ?_⟩
  · rw [bytes]
    exact neighboursMachine_owned
  · obtain ⟨⟨result, after⟩, returned⟩ : ∃ output,
        pdtUnmapMemory twoFrameLayout 3 16 0x7FF000 8192 neighboursMachine =
          some output :=
      Option.isSome_iff_exists.mp (by decide +kernel)
    have gone : (pdtUnmapMemory twoFrameLayout 3 16 0x7FF000 8192
        neighboursMachine).map (fun output =>
          output.2.translate 16 0x801000) = some none := by decide +kernel
    rw [returned] at gone
    exact ⟨3, result, after, returned, by decide, by decide,
      Option.some.inj gone⟩

end Calls

end Newbos
