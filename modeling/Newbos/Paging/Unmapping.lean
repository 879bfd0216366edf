import Newbos.Library.Loop
import Newbos.Paging.Boot

/-!
# When unmapping ends

`pdt_unmap_memory` skips an empty slot by rounding its address up, which is no
progress at a 4 MiB boundary, and asks every later page table for the whole
size again.  The calls that end are described exactly.
-/

namespace Newbos

/-- Each of some slots has a table other than the directory itself, and one
that a call from `first` on frees comes from the allocator. -/
def TablesManaged (layout : Layout) (machine : Machine)
    (pdt first size : Nat) (slots : Nat → Prop) : Prop :=
  ∀ slot, slots slot → (machine.mem pdt slot).isPresent = true →
    (machine.mem pdt slot).frame ≠ pdt ∧
      (first ≤ fourMb * slot → fourMb ≤ size → slot ≠ kernelPtPdtIdx →
        (machine.mem pdt slot).frame ∈ mmapFrames layout.mmap)

/-- The slots that a range reaches into. -/
def RangeSlots (vaddr bytes slot : Nat) : Prop :=
  vaddr / fourMb ≤ slot ∧ slot < 1024 ∧ fourMb * slot < vaddr + bytes

section Rounds

variable {layout : Layout} {pdt size vaddr : Nat} {machine : Machine}

theorem virtualToPdtIdx_of_lt (small : vaddr < 4294967296) :
    virtualToPdtIdx vaddr = vaddr / fourMb := by
  rw [virtualToPdtIdx_eq]
  simp only [fourMb]
  omega

theorem chunkPages_eq (small : vaddr < 4294967296) :
    chunkPages size vaddr = min (size / fourKb)
      (slotEntries (vaddr / fourMb) - vaddr / 4096 % 1024) := by
  rw [chunkPages, virtualToPdtIdx_of_lt small, virtualToPtIdx_eq]

theorem Machine.clearTable_mem (frame index : Nat) :
    (machine.clearTable layout pdt vaddr size).mem frame index =
      if (frame = (machine.mem pdt (virtualToPdtIdx vaddr)).frame ∧
            virtualToPtIdx vaddr ≤ index ∧
            index < virtualToPtIdx vaddr + chunkPages size vaddr) ∧
          ¬(frame = layout.kernelPt ∧ index = kernelTmpPtIdx) ∧
          (machine.mem frame index).isPresent = true then Entry.empty
      else machine.mem frame index := by
  rw [Machine.clearTable, kernelSetTemporaryEntry, kernelGetTemporaryEntry,
    Machine.setEntry_mem]
  by_cases temporary : frame = layout.kernelPt ∧ index = kernelTmpPtIdx
  · rw [if_pos temporary, if_neg fun all => all.2.1 temporary,
      temporary.1, temporary.2]
  · rw [if_neg temporary]
    simp only [Machine.clearEntries, temporary, not_false_eq_true, true_and]

theorem Machine.clearTable_absent {frame index : Nat}
    (absent : (machine.mem frame index).isPresent = false) :
    ((machine.clearTable layout pdt vaddr size).mem frame
      index).isPresent = false := by
  rw [Machine.clearTable_mem]
  split_ifs
  · rfl
  · exact absent

theorem Machine.clearTable_directory
    (apart : (machine.mem pdt (virtualToPdtIdx vaddr)).frame ≠ pdt)
    (slot : Nat) :
    (machine.clearTable layout pdt vaddr size).mem pdt slot =
      machine.mem pdt slot := by
  rw [Machine.clearTable_mem, if_neg fun all => apart all.1.1.symm]

theorem pfaFree_mem (framesOk : layout.FramesOk) {frame : Nat}
    (managed : frame ∈ mmapFrames layout.mmap) (machine : Machine) :
    (pfaFree layout (fourKb * frame) machine).mem = machine.mem := by
  obtain ⟨position, found⟩ := List.mem_iff_getElem?.mp managed
  have aligned : fourKb * frame / fourKb = frame :=
    Nat.mul_div_cancel_left _ (by decide)
  rw [(pfaFree_spec framesOk (by rw [aligned]; exact found) machine).1]

/-- The round frees the table of its slot. -/
def Closes (size vaddr : Nat) : Prop :=
  4096 * chunkPages size vaddr = fourMb ∧
    virtualToPdtIdx vaddr ≠ kernelPtPdtIdx

instance (size vaddr : Nat) : Decidable (Closes size vaddr) :=
  inferInstanceAs (Decidable (_ ∧ _))

theorem Closes.bounds (aligned : vaddr % 4096 = 0)
    (small : vaddr < 4294967296) (closes : Closes size vaddr) :
    vaddr % fourMb = 0 ∧ fourMb ≤ size := by
  have entries := slotEntries_le (vaddr / fourMb)
  have whole := closes.1
  rw [chunkPages_eq small] at whole
  simp only [fourMb, fourKb] at *
  omega

theorem pdtUnmapStep_memory (framesOk : layout.FramesOk)
    (aligned : vaddr % 4096 = 0) (small : vaddr < 4294967296)
    (sizeAligned : size % 4096 = 0) (sizeSmall : size < 4294967296)
    {first : Nat} {slots : Nat → Prop}
    (tables : TablesManaged layout machine pdt first size slots)
    (reached : slots (vaddr / fourMb))
    (later : vaddr % fourMb = 0 → first ≤ vaddr)
    (present : (machine.mem pdt (vaddr / fourMb)).isPresent = true)
    (freedSize : Nat) :
    ∃ after, pdtUnmapStep layout pdt size (vaddr, freedSize, machine) =
        (w32 (vaddr + 4096 * chunkPages size vaddr),
          4096 * chunkPages size vaddr, after) ∧
      ∀ frame index, after.mem frame index =
        if (frame = pdt ∧ index = virtualToPdtIdx vaddr) ∧
            Closes size vaddr then Entry.empty
        else (machine.clearTable layout pdt vaddr size).mem frame
          index := by
  have slotEq := virtualToPdtIdx_of_lt small
  have managed := (tables _ reached present).2
  rw [← slotEq] at present managed
  refine ⟨_, pdtUnmapStep_eq present sizeAligned sizeSmall freedSize, ?_⟩
  intro frame index
  by_cases closes : Closes size vaddr
  · have fromFirst : first ≤ fourMb * virtualToPdtIdx vaddr := by
      have start := (closes.bounds aligned small).1
      have ordered := later start
      simp only [fourMb] at *
      omega
    have freed := pfaFree_mem framesOk
      (managed fromFirst (closes.bounds aligned small).2 closes.2)
      (machine.clearTable layout pdt vaddr size)
    rw [if_pos (show _ ∧ _ from closes), Machine.setEntry_mem, freed]
    simp only [closes, and_true]
  · rw [if_neg (show ¬(_ ∧ _) from closes), if_neg fun all => closes all.2]

theorem pdtUnmapStep_chunk (framesOk : layout.FramesOk)
    (aligned : vaddr % 4096 = 0) (small : vaddr < 4294967296)
    (sizeAligned : size % 4096 = 0) (sizeSmall : size < 4294967296)
    {first : Nat} {slots : Nat → Prop}
    (tables : TablesManaged layout machine pdt first size slots)
    (reached : slots (vaddr / fourMb))
    (later : vaddr % fourMb = 0 → first ≤ vaddr)
    (present : (machine.mem pdt (vaddr / fourMb)).isPresent = true)
    (freedSize : Nat) :
    ∃ after, pdtUnmapStep layout pdt size (vaddr, freedSize, machine) =
        (w32 (vaddr + 4096 * chunkPages size vaddr),
          4096 * chunkPages size vaddr, after) ∧
      TablesManaged layout after pdt first size slots ∧
      ∀ slot, slot = kernelPtPdtIdx ∨ slot ≠ vaddr / fourMb →
        after.mem pdt slot = machine.mem pdt slot := by
  obtain ⟨after, step, memory⟩ := pdtUnmapStep_memory framesOk aligned small
    sizeAligned sizeSmall tables reached later present freedSize
  have slotEq := virtualToPdtIdx_of_lt small
  have apart := (tables _ reached present).1
  rw [← slotEq] at apart
  refine ⟨after, step, ?_, ?_⟩
  · intro slot inSlots stillPresent
    rw [memory] at stillPresent ⊢
    split_ifs at stillPresent ⊢
    · cases stillPresent
    · rw [Machine.clearTable_directory apart] at stillPresent ⊢
      exact tables slot inSlots stillPresent
  · intro slot other
    rw [memory, if_neg]
    · exact Machine.clearTable_directory apart slot
    · rintro ⟨⟨_, own⟩, closes⟩
      rcases other with kernel | notOwn
      · exact closes.2 (by rw [← own, kernel])
      · exact notOwn (by rw [own, slotEq])

/-- Below the last slot a round comes at most to its first page; a whole last
table leads back to the first page of the address space. -/
theorem chunkPages_low {offset : Nat} (inPage : offset < 4096)
    (start : vaddr % 4096 ≤ offset) (low : vaddr ≤ 0xFFC00000 + offset)
    (atLast : vaddr / fourMb = 1023 → fourMb ≤ size) :
    w32 (vaddr + 4096 * chunkPages size vaddr) ≤ 0xFFC00000 + offset := by
  rw [chunkPages_eq (by omega)]
  by_cases last : vaddr / fourMb = 1023
  · have large := atLast last
    rw [last, show slotEntries 1023 = 1024 by rfl]
    simp only [fourMb, fourKb, w32] at *
    omega
  · have entries := slotEntries_le (vaddr / fourMb)
    simp only [fourMb, fourKb, w32] at *
    omega

theorem pdtUnmapStep_skip (small : vaddr < 4294967296)
    (absent : (machine.mem pdt (vaddr / fourMb)).isPresent = false)
    (freedSize : Nat) :
    pdtUnmapStep layout pdt size (vaddr, freedSize, machine) =
      (alignUp vaddr fourMb, freedSize, machine) := by
  rw [← virtualToPdtIdx_of_lt small] at absent
  exact pdtUnmapStep_absent absent freedSize

end Rounds

/-- The loop of `pdt_unmap_memory` ends from a state. -/
abbrev UnmapEnds (layout : Layout) (pdt size endVaddr : Nat)
    (state : Nat × Nat × Machine) : Prop :=
  Ends (fun state => state.1 < endVaddr) (pdtUnmapStep layout pdt size) state

section Progress

variable {layout : Layout} {pdt size endVaddr : Nat}

theorem unmapEnds_step_iff {state : Nat × Nat × Machine}
    (running : state.1 < endVaddr) :
    UnmapEnds layout pdt size endVaddr state ↔
      UnmapEnds layout pdt size endVaddr
        (pdtUnmapStep layout pdt size state) := by
  apply ends_step_iff
  exact running

theorem unmapEnds_of_done {state : Nat × Nat × Machine}
    (done : endVaddr ≤ state.1) :
    UnmapEnds layout pdt size endVaddr state :=
  Ends.of_done (Nat.not_lt_of_le done)

theorem pdtUnmapLoop_some_iff {state : Nat × Nat × Machine} :
    (∃ fuel result, pdtUnmapLoop layout pdt size endVaddr fuel state =
      some result) ↔ UnmapEnds layout pdt size endVaddr state := by
  constructor
  · rintro ⟨fuel, result, returned⟩
    induction fuel generalizing state with
    | zero => cases returned
    | succ fuel induction =>
        rw [pdtUnmapLoop] at returned
        by_cases running : state.1 < endVaddr
        · rw [if_pos running] at returned
          exact (unmapEnds_step_iff running).mpr (induction returned)
        · exact unmapEnds_of_done (Nat.le_of_not_lt running)
  · rintro ⟨rounds, done⟩
    induction rounds generalizing state with
    | zero =>
        refine ⟨1, state.2, ?_⟩
        rw [pdtUnmapLoop]
        exact if_neg done
    | succ rounds induction =>
        by_cases running : state.1 < endVaddr
        · obtain ⟨fuel, result, returned⟩ := induction done
          refine ⟨fuel + 1, result, ?_⟩
          rw [pdtUnmapLoop, if_pos running]
          exact returned
        · refine ⟨1, state.2, ?_⟩
          rw [pdtUnmapLoop, if_neg running]

/-- The loop rule for calls that return. -/
theorem pdtUnmapLoop_inv (inv : Nat → Machine → Prop)
    (step : ∀ here freedSize machine, inv here machine → here < endVaddr →
      ∃ next freed after, pdtUnmapStep layout pdt size
        (here, freedSize, machine) = (next, freed, after) ∧ inv next after) :
    ∀ {fuel here freedSize result : Nat} {machine after : Machine},
      inv here machine →
      pdtUnmapLoop layout pdt size endVaddr fuel (here, freedSize, machine) =
        some (result, after) →
      ∃ last, endVaddr ≤ last ∧ inv last after := by
  intro fuel
  induction fuel with
  | zero =>
      intro here freedSize result machine after _ returned
      cases returned
  | succ fuel induction =>
      intro here freedSize result machine after holds returned
      rw [pdtUnmapLoop] at returned
      by_cases unfinished : here < endVaddr
      · obtain ⟨next, freed, middle, stepped, kept⟩ :=
          step here freedSize machine holds unfinished
        rw [if_pos unfinished, stepped] at returned
        exact induction kept returned
      · rw [if_neg unfinished] at returned
        cases returned
        exact ⟨here, Nat.le_of_not_lt unfinished, holds⟩

variable (framesOk : layout.FramesOk) (sizeAligned : size % 4096 = 0)
  (sizeSmall : size < 4294967296)
include framesOk sizeAligned sizeSmall

/-- The temporary page is never passed while its table is there. -/
theorem not_ends_at_temporary {machine : Machine} {freedSize first : Nat}
    {slots : Nat → Prop}
    (tables : TablesManaged layout machine pdt first size slots)
    (reached : slots kernelPtPdtIdx)
    (present : (machine.mem pdt kernelPtPdtIdx).isPresent = true)
    (inRange : kernelTmpVaddr < endVaddr) :
    ¬UnmapEnds layout pdt size endVaddr
      (kernelTmpVaddr, freedSize, machine) := by
  apply not_ends_of_invariant fun state => state.1 = kernelTmpVaddr ∧
    TablesManaged layout state.2.2 pdt first size slots ∧
    (state.2.2.mem pdt kernelPtPdtIdx).isPresent = true
  · rintro ⟨vaddr, freedSize, machine⟩ ⟨rfl, _, _⟩
    exact inRange
  · rintro ⟨vaddr, freedSize, machine⟩ ⟨rfl, tables, present⟩
    obtain ⟨after, step, managed, kept⟩ := pdtUnmapStep_chunk framesOk
      (show kernelTmpVaddr % 4096 = 0 by decide)
      (show kernelTmpVaddr < 4294967296 by decide) sizeAligned sizeSmall
      tables reached (fun boundary => absurd boundary (by decide)) present
      freedSize
    have stays : chunkPages size kernelTmpVaddr = 0 := by
      have noEntries : slotEntries (kernelTmpVaddr / fourMb) -
          kernelTmpVaddr / 4096 % 1024 = 0 := by decide
      rw [chunkPages_eq (by decide), noEntries, Nat.min_zero]
    simp only [step, stays]
    refine ⟨by decide, managed, ?_⟩
    rw [kept kernelPtPdtIdx (Or.inl rfl)]
    exact present
  · exact ⟨rfl, tables, present⟩

omit framesOk sizeAligned sizeSmall in
theorem not_ends_at_empty {machine : Machine} {slot freedSize : Nat}
    (small : slot < 1024)
    (absent : (machine.mem pdt slot).isPresent = false)
    (inRange : fourMb * slot < endVaddr) :
    ¬UnmapEnds layout pdt size endVaddr
      (fourMb * slot, freedSize, machine) := by
  have slotEq : fourMb * slot / fourMb = slot := by
    simp only [fourMb]
    omega
  have stays : pdtUnmapStep layout pdt size
      (fourMb * slot, freedSize, machine) =
        (fourMb * slot, freedSize, machine) := by
    rw [pdtUnmapStep_skip (by simp only [fourMb]; omega)
      (by rw [slotEq]; exact absent), alignUp, if_pos]
    simp [fourMb]
  apply not_ends_of_invariant
    (fun state => state = (fourMb * slot, freedSize, machine))
  · rintro _ rfl
    exact inRange
  · rintro _ rfl
    exact stays
  · rfl

omit framesOk in
/-- A range that ends in the last slot is not left when the loop comes to that
slot and turns back to address 0, or cannot enter it. -/
theorem not_ends_below_last {machine : Machine} {vaddr freedSize : Nat}
    {offset : Nat} (inPage : offset < 4096) (start : vaddr % 4096 ≤ offset)
    (low : vaddr ≤ 0xFFC00000 + offset)
    (inRange : 0xFFC00000 + offset < endVaddr)
    (turns : fourMb ≤ size ∨ (machine.mem pdt 1023).isPresent = false) :
    ¬UnmapEnds layout pdt size endVaddr (vaddr, freedSize, machine) := by
  apply not_ends_of_invariant fun state => state.1 % 4096 ≤ offset ∧
    state.1 ≤ 0xFFC00000 + offset ∧
    (fourMb ≤ size ∨ (state.2.2.mem pdt 1023).isPresent = false)
  · rintro ⟨vaddr, freedSize, machine⟩ ⟨_, low, _⟩
    exact Nat.lt_of_le_of_lt low inRange
  · rintro ⟨vaddr, freedSize, machine⟩ ⟨start, low, turns⟩
    simp only at start low turns
    have small : vaddr < 4294967296 := by omega
    cases present : (machine.mem pdt (vaddr / fourMb)).isPresent with
    | false =>
        rw [pdtUnmapStep_skip small present]
        refine ⟨?_, ?_, turns⟩
        all_goals
          simp only [alignUp, fourMb, w32] at *
          split_ifs
          all_goals omega
    | true =>
        have atLast : vaddr / fourMb = 1023 → fourMb ≤ size := by
          intro last
          rcases turns with large | absent
          · exact large
          · rw [last, absent] at present
            cases present
        rw [← virtualToPdtIdx_of_lt small] at present
        rw [pdtUnmapStep_eq present sizeAligned sizeSmall]
        refine ⟨?_, chunkPages_low inPage start low atLast, ?_⟩
        · simp only [w32]
          omega
        · rcases turns with large | absent
          · exact Or.inl large
          · by_cases whole : 4096 * chunkPages size vaddr = fourMb
            · refine Or.inl ?_
              rw [chunkPages] at whole
              simp only [fourMb, fourKb] at *
              omega
            · refine Or.inr ?_
              simp only [whole, false_and, if_false]
              exact Machine.clearTable_absent absent
  · exact ⟨start, low, turns⟩

theorem unmapEnds_boundary_step {machine : Machine}
    {slot freedSize first : Nat} (slotSmall : slot < 1024)
    {slots : Nat → Prop}
    (tables : TablesManaged layout machine pdt first size slots)
    (reached : slots slot) (fromFirst : first ≤ fourMb * slot)
    (present : (machine.mem pdt slot).isPresent = true)
    (running : fourMb * slot < endVaddr) :
    ∃ after freed,
      (UnmapEnds layout pdt size endVaddr
          (fourMb * slot, freedSize, machine) ↔
        UnmapEnds layout pdt size endVaddr
          (w32 (fourMb * slot + 4096 * min (size / fourKb)
            (slotEntries slot)), freed, after)) ∧
      TablesManaged layout after pdt first size slots ∧
      ∀ other, other = kernelPtPdtIdx ∨ other ≠ slot →
        after.mem pdt other = machine.mem pdt other := by
  have slotEq : fourMb * slot / fourMb = slot := by
    simp only [fourMb]
    omega
  have firstEntry : fourMb * slot / 4096 % 1024 = 0 := by
    simp only [fourMb]
    omega
  have small : fourMb * slot < 4294967296 := by
    simp only [fourMb]
    omega
  obtain ⟨after, step, managed, kept⟩ := pdtUnmapStep_chunk framesOk
    (show fourMb * slot % 4096 = 0 by simp only [fourMb]; omega) small
    sizeAligned sizeSmall tables (by rw [slotEq]; exact reached)
    (fun _ => fromFirst) (by rw [slotEq]; exact present) freedSize
  rw [slotEq] at kept
  refine ⟨after, 4096 * chunkPages size (fourMb * slot), ?_, managed, kept⟩
  rw [unmapEnds_step_iff running, step, chunkPages_eq small, slotEq,
    firstEntry, Nat.sub_zero]

/-- After the round from the boundary of the kernel's slot. -/
theorem unmapEnds_kernelSlot_iff {machine after : Machine}
    {freed first : Nat}
    (sizeBound : endVaddr < fourMb * kernelPtPdtIdx + size)
    {slots : Nat → Prop}
    (tables : TablesManaged layout after pdt first size slots)
    (reached : slots kernelPtPdtIdx)
    (stillPresent : (after.mem pdt kernelPtPdtIdx).isPresent = true)
    (present : (machine.mem pdt kernelPtPdtIdx).isPresent = true) :
    UnmapEnds layout pdt size endVaddr
        (w32 (fourMb * kernelPtPdtIdx + 4096 * min (size / fourKb) 1023),
          freed, after) ↔
      (∀ later, kernelPtPdtIdx ≤ later → fourMb * later < endVaddr →
        (machine.mem pdt later).isPresent = true) ∧
      ¬(fourMb * kernelPtPdtIdx ≤ kernelTmpVaddr ∧
        kernelTmpVaddr < endVaddr) := by
  by_cases beyond : kernelTmpVaddr < endVaddr
  · have next : w32 (fourMb * kernelPtPdtIdx +
        4096 * min (size / fourKb) 1023) = kernelTmpVaddr := by
      simp only [fourMb, fourKb, w32, kernelPtPdtIdx, kernelTmpVaddr] at *
      omega
    rw [next]
    refine ⟨fun ends => absurd ends (not_ends_at_temporary framesOk
      sizeAligned sizeSmall tables reached stillPresent beyond), ?_⟩
    intro conditions
    exact absurd ⟨by decide, beyond⟩ conditions.2
  · refine ⟨fun _ => ⟨?_, fun inRange => beyond inRange.2⟩,
      fun _ => unmapEnds_of_done ?_⟩
    · intro later ordered inRange
      have same : later = kernelPtPdtIdx := by
        simp only [fourMb, kernelPtPdtIdx, kernelTmpVaddr] at *
        omega
      rw [same]
      exact present
    · simp only [fourMb, fourKb, w32, kernelPtPdtIdx, kernelTmpVaddr] at *
      omega

omit framesOk sizeAligned sizeSmall in
theorem slotsPresent_succ {machine after : Machine} {slot : Nat}
    (present : (machine.mem pdt slot).isPresent = true)
    (kept : ∀ other, other ≠ slot →
      after.mem pdt other = machine.mem pdt other) :
    (∀ later, slot + 1 ≤ later → fourMb * later < endVaddr →
        (after.mem pdt later).isPresent = true) ↔
      ∀ later, slot ≤ later → fourMb * later < endVaddr →
        (machine.mem pdt later).isPresent = true := by
  constructor
  · intro conditions later ordered inRange
    by_cases own : later = slot
    · rw [own]
      exact present
    · rw [← kept later own]
      exact conditions later (by omega) inRange
  · intro conditions later ordered inRange
    rw [kept later (by omega)]
    exact conditions later (by omega) inRange

theorem unmapEnds_boundary_iff
    (noWrap : fourMb ≤ size → endVaddr ≤ 0xFFC00000)
    (endSmall : endVaddr < 4294967296) {left first : Nat} :
    ∀ {slot freedSize : Nat} {machine : Machine}, slot + left = 1024 →
      first ≤ fourMb * slot → endVaddr < fourMb * slot + size →
      TablesManaged layout machine pdt first size
        (fun later => slot ≤ later ∧ fourMb * later < endVaddr) →
      (UnmapEnds layout pdt size endVaddr
          (fourMb * slot, freedSize, machine) ↔
        (∀ later, slot ≤ later → fourMb * later < endVaddr →
          (machine.mem pdt later).isPresent = true) ∧
        ¬(fourMb * slot ≤ kernelTmpVaddr ∧ kernelTmpVaddr < endVaddr)) := by
  induction left with
  | zero =>
      intro slot freedSize machine last _ _ _
      have beyond : endVaddr ≤ fourMb * slot := by
        simp only [fourMb]
        omega
      refine ⟨fun _ => ⟨?_, by omega⟩, fun _ => unmapEnds_of_done beyond⟩
      intro later ordered inRange
      simp only [fourMb] at *
      omega
  | succ left induction =>
      intro slot freedSize machine position fromFirst sizeBound tables
      by_cases running : fourMb * slot < endVaddr
      · cases present : (machine.mem pdt slot).isPresent with
        | false =>
            have stuck : ¬UnmapEnds layout pdt size endVaddr
                (fourMb * slot, freedSize, machine) :=
              not_ends_at_empty (by omega) present running
            refine ⟨fun ends => absurd ends stuck, ?_⟩
            intro conditions
            have needed := conditions.1 slot (Nat.le_refl _) running
            rw [present] at needed
            cases needed
        | true =>
            obtain ⟨after, freed, stepIff, managed, kept⟩ :=
              unmapEnds_boundary_step framesOk sizeAligned sizeSmall
                (show slot < 1024 by omega) tables ⟨Nat.le_refl _, running⟩
                fromFirst present running
            rw [stepIff]
            by_cases kernel : slot = kernelPtPdtIdx
            · subst kernel
              rw [show slotEntries kernelPtPdtIdx = 1023 by rfl]
              exact unmapEnds_kernelSlot_iff framesOk sizeAligned sizeSmall
                sizeBound managed ⟨Nat.le_refl _, running⟩
                (by rw [kept _ (Or.inl rfl)]; exact present) present
            · rw [slotEntries, if_neg kernel]
              by_cases large : fourMb ≤ size
              · have bound := noWrap large
                have next : w32 (fourMb * slot + 4096 *
                    min (size / fourKb) 1024) = fourMb * (slot + 1) := by
                  simp only [fourMb, fourKb, w32] at *
                  omega
                have laterTables : TablesManaged layout after pdt first size
                    (fun later => slot + 1 ≤ later ∧
                      fourMb * later < endVaddr) := by
                  intro later bounds
                  exact managed later ⟨by omega, bounds.2⟩
                rw [next, induction (by omega)
                  (by simp only [fourMb] at *; omega)
                  (by simp only [fourMb] at *; omega) laterTables]
                refine and_congr ?_ ?_
                · exact slotsPresent_succ present
                    fun other different => kept other (Or.inr different)
                · simp only [fourMb, kernelPtPdtIdx, kernelTmpVaddr] at *
                  omega
              · have beyond : endVaddr ≤ w32 (fourMb * slot + 4096 *
                    min (size / fourKb) 1024) := by
                  simp only [fourMb, fourKb, w32] at *
                  omega
                refine ⟨fun _ => ⟨?_, ?_⟩, fun _ => unmapEnds_of_done beyond⟩
                · intro later ordered inRange
                  have same : later = slot := by
                    simp only [fourMb] at *
                    omega
                  rw [same]
                  exact present
                · simp only [fourMb, kernelPtPdtIdx, kernelTmpVaddr] at *
                  omega
      · refine ⟨fun _ => ⟨?_, by omega⟩,
          fun _ => unmapEnds_of_done (Nat.le_of_not_lt running)⟩
        intro later ordered inRange
        simp only [fourMb] at *
        omega

/-- What the loop needs of the rest of a range once its first slot is
passed. -/
def RangePassed (machine : Machine) (pdt vaddr endVaddr : Nat) : Prop :=
  (∀ slot, vaddr < fourMb * slot → fourMb * slot < endVaddr →
    (machine.mem pdt slot).isPresent = true) ∧
  (vaddr ≤ kernelTmpVaddr → kernelTmpVaddr < endVaddr →
    (machine.mem pdt kernelPtPdtIdx).isPresent = false)

section Range

variable {vaddr freedSize : Nat} {machine : Machine}
  (aligned : vaddr % 4096 = 0) (fits : vaddr + size < 4294967296)
  (noWrap : fourMb ≤ size → vaddr + size ≤ 0xFFC00000)
include aligned fits noWrap

theorem unmapEnds_second_iff {after : Machine}
    (kept : ∀ slot, slot ≠ vaddr / fourMb →
      after.mem pdt slot = machine.mem pdt slot)
    (temporary : vaddr / fourMb = kernelPtPdtIdx →
      (machine.mem pdt kernelPtPdtIdx).isPresent = false)
    (notLast : vaddr < 0xFFC00000)
    (tables : TablesManaged layout after pdt vaddr size
      (RangeSlots vaddr size)) :
    UnmapEnds layout pdt size (vaddr + size)
        (fourMb * (vaddr / fourMb + 1), freedSize, after) ↔
      RangePassed machine pdt vaddr (vaddr + size) := by
  have later : TablesManaged layout after pdt vaddr size (fun slot =>
      vaddr / fourMb + 1 ≤ slot ∧ fourMb * slot < vaddr + size) := by
    intro slot bounds
    refine tables slot ⟨by omega, ?_, bounds.2⟩
    simp only [fourMb] at *
    omega
  rw [unmapEnds_boundary_iff framesOk sizeAligned sizeSmall noWrap fits
    (show vaddr / fourMb + 1 + (1023 - vaddr / fourMb) = 1024 by
      simp only [fourMb]
      omega)
    (by simp only [fourMb]; omega) (by simp only [fourMb]; omega) later]
  constructor
  · rintro ⟨conditions, notTemporary⟩
    refine ⟨?_, ?_⟩
    · intro slot ahead inRange
      have beyond : vaddr / fourMb + 1 ≤ slot := by
        simp only [fourMb] at *
        omega
      rw [← kept slot (by omega)]
      exact conditions slot beyond inRange
    · intro ordered inRange
      by_cases own : vaddr / fourMb = kernelPtPdtIdx
      · exact temporary own
      · refine absurd ⟨?_, inRange⟩ notTemporary
        simp only [fourMb, kernelTmpVaddr, kernelPtPdtIdx] at *
        omega
  · rintro ⟨conditions, gone⟩
    refine ⟨?_, ?_⟩
    · intro slot ordered inRange
      rw [kept slot (by omega)]
      exact conditions slot (by simp only [fourMb] at *; omega) inRange
    · rintro ⟨ordered, inRange⟩
      have absent := gone (by simp only [fourMb] at *; omega) inRange
      have present := conditions kernelPtPdtIdx
        (by simp only [fourMb, kernelTmpVaddr, kernelPtPdtIdx] at *; omega)
        (by simp only [fourMb, kernelTmpVaddr, kernelPtPdtIdx] at *; omega)
      rw [absent] at present
      cases present

theorem unmapEnds_skip_iff (notFirst : vaddr % fourMb ≠ 0)
    (notLast : vaddr < 0xFFC00000) (running : size ≠ 0)
    (absent : (machine.mem pdt (vaddr / fourMb)).isPresent = false)
    (tables : TablesManaged layout machine pdt vaddr size
      (RangeSlots vaddr size)) :
    UnmapEnds layout pdt size (vaddr + size) (vaddr, freedSize, machine) ↔
      RangePassed machine pdt vaddr (vaddr + size) := by
  have next : alignUp vaddr fourMb = fourMb * (vaddr / fourMb + 1) := by
    rw [alignUp, if_neg notFirst]
    simp only [fourMb, w32] at *
    omega
  rw [unmapEnds_step_iff (by simp only; omega),
    pdtUnmapStep_skip (by omega) absent, next]
  apply unmapEnds_second_iff framesOk sizeAligned sizeSmall aligned fits
    noWrap (fun slot _ => rfl) ?_ notLast tables
  intro own
  rw [← own]
  exact absent

theorem unmapEnds_chunk_iff (running : size ≠ 0)
    (present : (machine.mem pdt (vaddr / fourMb)).isPresent = true)
    (tables : TablesManaged layout machine pdt vaddr size
      (RangeSlots vaddr size)) :
    UnmapEnds layout pdt size (vaddr + size) (vaddr, freedSize, machine) ↔
      RangePassed machine pdt vaddr (vaddr + size) := by
  have small : vaddr < 4294967296 := by omega
  obtain ⟨after, step, managed, kept⟩ := pdtUnmapStep_chunk framesOk aligned
    small sizeAligned sizeSmall tables
    ⟨Nat.le_refl _, by simp only [fourMb]; omega,
      by simp only [fourMb]; omega⟩ (fun _ => Nat.le_refl _) present
    freedSize
  rw [unmapEnds_step_iff (by simp only; omega), step, chunkPages_eq small,
    slotEntries]
  by_cases kernel : vaddr / fourMb = kernelPtPdtIdx
  · rw [if_pos kernel]
    by_cases inRange : kernelTmpVaddr < vaddr + size
    · have next : w32 (vaddr + 4096 * min (size / fourKb)
          (1023 - vaddr / 4096 % 1024)) = kernelTmpVaddr := by
        simp only [fourMb, fourKb, w32, kernelPtPdtIdx, kernelTmpVaddr] at *
        omega
      rw [kernel] at present
      rw [next]
      constructor
      · intro ends
        refine absurd ends (not_ends_at_temporary framesOk sizeAligned
          sizeSmall managed ?_ ?_ inRange)
        · refine ⟨Nat.le_of_eq kernel, by decide, ?_⟩
          simp only [fourMb, kernelPtPdtIdx, kernelTmpVaddr] at *
          omega
        · rw [kept kernelPtPdtIdx (Or.inl rfl)]
          exact present
      · rintro ⟨_, temporary⟩
        have ordered : vaddr ≤ kernelTmpVaddr := by
          simp only [fourMb, kernelPtPdtIdx, kernelTmpVaddr] at *
          omega
        rw [temporary ordered inRange] at present
        cases present
    · refine ⟨fun _ => ⟨?_, fun _ early => absurd early inRange⟩,
        fun _ => unmapEnds_of_done ?_⟩
      · intro slot ahead early
        simp only [fourMb, kernelPtPdtIdx, kernelTmpVaddr] at *
        omega
      · simp only [fourMb, fourKb, w32, kernelPtPdtIdx, kernelTmpVaddr] at *
        omega
  · rw [if_neg kernel]
    by_cases inSlot : vaddr + size ≤ fourMb * (vaddr / fourMb + 1)
    · refine ⟨fun _ => ⟨?_, ?_⟩, fun _ => unmapEnds_of_done ?_⟩
      · intro slot ahead early
        simp only [fourMb] at *
        omega
      · intro ordered early
        simp only [fourMb, kernelPtPdtIdx, kernelTmpVaddr] at *
        omega
      · simp only [fourMb, fourKb, w32] at *
        omega
    · have next : w32 (vaddr + 4096 * min (size / fourKb)
          (1024 - vaddr / 4096 % 1024)) = fourMb * (vaddr / fourMb + 1) := by
        simp only [fourMb, fourKb, w32] at *
        omega
      rw [next]
      apply unmapEnds_second_iff framesOk sizeAligned sizeSmall aligned fits
        noWrap (fun slot other => kept slot (Or.inr other))
        (fun own => absurd own kernel) ?_ managed
      simp only [fourMb] at *
      omega

end Range

end Progress

/-- The calls of `pdt_unmap_memory` whose loop ends.  An empty range, or one
that is taken for empty because its end is beyond 32 bits, ends at once.
Otherwise a range may start inside an empty slot but not at its boundary, and
not in the last slot; every slot that the range enters at its boundary is
present; the temporary page is not in the range, unless its table is missing
and the range starts above its boundary; and a whole table may be asked for
only below the last slot. -/
def UnmapReturns (machine : Machine) (pdt vaddr bytes : Nat) : Prop :=
  bytes = 0 ∨ 4294967296 ≤ vaddr + bytes ∨
    ((machine.mem pdt (vaddr / fourMb)).isPresent = false →
      vaddr % fourMb ≠ 0 ∧ vaddr < 0xFFC00000) ∧
    (fourMb ≤ bytes → vaddr + bytes ≤ 0xFFC00000) ∧
    RangePassed machine pdt vaddr (vaddr + bytes)

section Calls

variable {layout : Layout} {pdt vaddr : Nat} {machine : Machine}

/-- A range that starts at the boundary of an empty slot, or inside the last
slot when that is empty. -/
theorem not_ends_at_start {size endVaddr freedSize : Nat}
    (aligned : vaddr % 4096 = 0) (sizeAligned : size % 4096 = 0)
    (sizeSmall : size < 4294967296) (running : vaddr < endVaddr)
    (fits : endVaddr < 4294967296)
    (absent : (machine.mem pdt (vaddr / fourMb)).isPresent = false)
    (outside : ¬(vaddr % fourMb ≠ 0 ∧ vaddr < 0xFFC00000)) :
    ¬UnmapEnds layout pdt size endVaddr (vaddr, freedSize, machine) := by
  by_cases boundary : vaddr % fourMb = 0
  · have start : vaddr = fourMb * (vaddr / fourMb) := by
      simp only [fourMb] at *
      omega
    have small : vaddr / fourMb < 1024 := by
      simp only [fourMb]
      omega
    rw [start]
    exact not_ends_at_empty small absent (by rw [← start]; exact running)
  · have last : vaddr / fourMb = 1023 := by
      simp only [fourMb] at *
      omega
    have turned : alignUp vaddr fourMb = 0 := by
      simp only [alignUp, fourMb, w32] at *
      rw [if_neg boundary]
      omega
    rw [unmapEnds_step_iff running, pdtUnmapStep_skip (by omega) absent,
      turned]
    rw [last] at absent
    refine not_ends_below_last sizeAligned sizeSmall
      (show 0 < 4096 by decide) (Nat.le_refl 0) (by decide) ?_
      (Or.inr absent)
    simp only [fourMb] at *
    omega

theorem unmapEnds_range_iff {size freedSize : Nat}
    (framesOk : layout.FramesOk) (aligned : vaddr % 4096 = 0)
    (sizeAligned : size % 4096 = 0) (running : size ≠ 0)
    (fits : vaddr + size < 4294967296)
    (tables : TablesManaged layout machine pdt vaddr size
      (RangeSlots vaddr size)) :
    UnmapEnds layout pdt size (vaddr + size) (vaddr, freedSize, machine) ↔
      UnmapReturns machine pdt vaddr size := by
  have sizeSmall : size < 4294967296 := by omega
  have unfolded : UnmapReturns machine pdt vaddr size ↔
      ((machine.mem pdt (vaddr / fourMb)).isPresent = false →
        vaddr % fourMb ≠ 0 ∧ vaddr < 0xFFC00000) ∧
      (fourMb ≤ size → vaddr + size ≤ 0xFFC00000) ∧
      RangePassed machine pdt vaddr (vaddr + size) := by
    rw [UnmapReturns]
    simp only [running, Nat.not_le.mpr fits, false_or]
  rw [unfolded]
  by_cases noWrap : fourMb ≤ size → vaddr + size ≤ 0xFFC00000
  · cases present : (machine.mem pdt (vaddr / fourMb)).isPresent with
    | true =>
        rw [unmapEnds_chunk_iff framesOk sizeAligned sizeSmall aligned fits
          noWrap running present tables]
        refine ⟨fun passed => ⟨?_, noWrap, passed⟩, fun all => all.2.2⟩
        intro absent
        cases absent
    | false =>
        by_cases inside : vaddr % fourMb ≠ 0 ∧ vaddr < 0xFFC00000
        · rw [unmapEnds_skip_iff framesOk sizeAligned sizeSmall aligned fits
            noWrap inside.1 inside.2 running present tables]
          exact ⟨fun passed => ⟨fun _ => inside, noWrap, passed⟩,
            fun all => all.2.2⟩
        · refine ⟨fun ends => absurd ends ?_,
            fun all => absurd (all.1 rfl) inside⟩
          exact not_ends_at_start aligned sizeAligned sizeSmall (by omega)
            fits present inside
  · refine ⟨fun ends => absurd ends ?_, fun all => absurd all.2.1 noWrap⟩
    have large : fourMb ≤ size := by
      by_contra small
      exact noWrap fun large => absurd large small
    apply not_ends_below_last sizeAligned sizeSmall
      (show 0 < 4096 by decide) (Nat.le_of_eq aligned)
    · simp only [fourMb] at *
      omega
    · omega
    · exact Or.inl large

theorem pdtUnmapMemory_some_iff (size : Nat) :
    (∃ fuel result, pdtUnmapMemory layout fuel pdt vaddr size machine =
        some result) ↔
      UnmapEnds layout pdt (alignUp size fourKb)
        (w32 (vaddr + alignUp size fourKb)) (vaddr, 0, machine) :=
  pdtUnmapLoop_some_iff

/-- `pdt_unmap_memory` returns exactly on the ranges above, for a directory
whose tables in the range are other frames than itself, and come from the
allocator where the call frees them. -/
theorem pdt_unmap_memory_returns_iff {size : Nat}
    (framesOk : layout.FramesOk) (aligned : vaddr % 4096 = 0)
    (small : vaddr < 4294967296) (sizeSmall : size < 4294967296)
    (tables : TablesManaged layout machine pdt vaddr (alignUp size fourKb)
      (RangeSlots vaddr (alignUp size fourKb))) :
    (∃ fuel result, pdtUnmapMemory layout fuel pdt vaddr size machine =
        some result) ↔
      UnmapReturns machine pdt vaddr (alignUp size fourKb) := by
  have bytesSmall := alignUp_lt fourKb sizeSmall
  have bytesAligned := alignUp_fourKb_mod size
  rw [pdtUnmapMemory_some_iff]
  generalize alignUp size fourKb = bytes at *
  by_cases running : bytes ≠ 0 ∧ vaddr + bytes < 4294967296
  · rw [w32_of_lt running.2]
    exact unmapEnds_range_iff framesOk aligned bytesAligned running.1
      running.2 tables
  · refine ⟨fun _ => ?_, fun _ => unmapEnds_of_done ?_⟩
    · rw [UnmapReturns]
      omega
    · simp only [w32]
      omega

/-- The boot table, from which one page is unmapped. -/
theorem pdt_unmap_memory_returns_iff_bootPage :
    0xC0000000 % 4096 = 0 ∧
      ∃ fuel result, pdtUnmapMemory twoFrameLayout fuel
        twoFrameLayout.kernelPdt 0xC0000000 4096
        (bootMachine twoFrameLayout 1) = some result := by
  have boot := bootMachine_boot twoFrameLayout_ok.distinct 1
  have bytes : alignUp 4096 fourKb = 4096 := by decide
  refine ⟨by decide, (pdt_unmap_memory_returns_iff twoFrameLayout_framesOk
    (by decide) (by decide) (by decide) ?_).mpr ?_⟩
  · rw [bytes]
    intro slot reached present
    have kernel : slot = kernelPtPdtIdx := by
      simp only [RangeSlots, fourMb, kernelPtPdtIdx] at *
      omega
    refine ⟨?_, fun _ _ other => absurd kernel other⟩
    rw [kernel, boot.kernelSlot_frame twoFrameLayout_ok]
    decide
  · rw [bytes]
    refine Or.inr (Or.inr ⟨?_, by decide, ?_, ?_⟩)
    · intro absent
      rw [show 0xC0000000 / fourMb = kernelPtPdtIdx by decide,
        boot.kernelSlot_present] at absent
      cases absent
    · intro slot ahead early
      simp only [fourMb] at *
      omega
    · intro _ early
      exact absurd early (by decide)

/-- At the boundary of an empty slot the loop stays where it is. -/
theorem pdt_unmap_memory_hangs :
    0xC0400000 % 4096 = 0 ∧
      ∀ fuel, pdtUnmapMemory twoFrameLayout fuel twoFrameLayout.kernelPdt
        0xC0400000 4096 (bootMachine twoFrameLayout 1) = none := by
  refine ⟨by decide, ?_⟩
  intro fuel
  have stuck : ¬UnmapEnds twoFrameLayout twoFrameLayout.kernelPdt
      (alignUp 4096 fourKb) (w32 (0xC0400000 + alignUp 4096 fourKb))
      (0xC0400000, 0, bootMachine twoFrameLayout 1) := by
    have absent : ((bootMachine twoFrameLayout 1).mem
        twoFrameLayout.kernelPdt 769).isPresent = false := by decide
    exact not_ends_at_empty (by decide) absent (by decide)
  cases returned : pdtUnmapMemory twoFrameLayout fuel
      twoFrameLayout.kernelPdt 0xC0400000 4096
      (bootMachine twoFrameLayout 1) with
  | none => rfl
  | some result =>
      exact absurd ((pdtUnmapMemory_some_iff 4096).mp
        ⟨fuel, result, returned⟩) stuck

end Calls

end Newbos
