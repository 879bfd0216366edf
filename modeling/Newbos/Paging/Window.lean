import Newbos.Paging.Directory
import Newbos.Paging.Unmapping

/-!
# The temporary page

Every table is reached through the last entry of the kernel's own page table.
The loops are followed state by state: from the opening of the window to its
restoration the entry names the table that is worked on, also when that table
is the kernel's own.
-/

namespace Newbos

/-! ## Loop bodies -/

/-- One iteration of `pt_map_memory`, from the entries left, `paddr`,
`mapped_size` and the machine. -/
def ptMapStep (layout : Layout) (pdtIdx size : Nat) (rw pl : UInt8) :
    Nat × Nat × Nat × Machine → Option (Nat × Nat × Nat × Machine)
  | (0, _, _, _) => none
  | (remaining + 1, paddr, mappedSize, machine) =>
      let ptIdx := 1023 - remaining
      let pt := window layout machine
      if mappedSize < size ∧ (machine.mem pt ptIdx).isPresent = false ∧
          ¬(pdtIdx = kernelPtPdtIdx ∧ ptIdx = kernelTmpPtIdx) then
        some (remaining, w32 (paddr + fourKb), w32 (mappedSize + fourKb),
          machine.setEntry pt ptIdx (ptEntry paddr rw pl))
      else none

/-- One iteration of `pt_unmap_memory`. -/
def ptUnmapStep (layout : Layout) (pdtIdx size : Nat) :
    Nat × Nat × Machine → Option (Nat × Nat × Machine)
  | (0, _, _) => none
  | (remaining + 1, freedSize, machine) =>
      let ptIdx := 1023 - remaining
      let pt := window layout machine
      if freedSize < size ∧
          ¬(pdtIdx = kernelPtPdtIdx ∧ ptIdx = kernelTmpPtIdx) then
        some (remaining, w32 (freedSize + fourKb),
          if (machine.mem pt ptIdx).isPresent then
            machine.setEntry pt ptIdx Entry.empty
          else machine)
      else none

/-- The variables of the loop of `pdt_map_memory`. -/
structure MapState where
  paddr : Nat
  vaddr : Nat
  size : Nat
  totalMappedSize : Nat
  machine : Machine

/-- One iteration of `pdt_map_memory`; nothing when it returns. -/
def pdtMapStep (layout : Layout) (pdt : Nat) (rw pl : UInt8)
    (state : MapState) : Option MapState :=
  if state.size = 0 then none
  else
    let pdtIdx := virtualToPdtIdx state.vaddr
    let tmpEntry := kernelGetTemporaryEntry layout state.machine
    let absent := !(state.machine.mem pdt pdtIdx).isPresent
    let (ptPaddr, machine) := openTable layout pdt pdtIdx state.machine
    if absent ∧ ptPaddr = 0 then none
    else
      let (mappedSize, machine) := ptMapMemory layout pdtIdx state.paddr
        state.vaddr state.size rw pl machine
      if mappedSize = 0 then none
      else
        let machine :=
          if (machine.mem pdt pdtIdx).isPresent then machine
          else machine.setEntry pdt pdtIdx (pdtEntry ptPaddr 0 rw pl)
        some
          { paddr := w32 (state.paddr + mappedSize)
            vaddr := w32 (state.vaddr + mappedSize)
            size := state.size - mappedSize
            totalMappedSize := w32 (state.totalMappedSize + mappedSize)
            machine := kernelSetTemporaryEntry layout tmpEntry machine }

/-- One iteration of `pdt_unmap_memory`, while the loop runs. -/
def pdtUnmapBody (layout : Layout) (pdt size endVaddr : Nat)
    (state : Nat × Nat × Machine) : Option (Nat × Nat × Machine) :=
  if state.1 < endVaddr then some (pdtUnmapStep layout pdt size state)
  else none

/-- The search of `pdt_kernel_find_next_vaddr` in one slot. -/
def pdtFindSlot (layout : Layout) (size pdtIdx : Nat) (machine : Machine) :
    Nat × Machine :=
  let entry := machine.mem layout.kernelPdt pdtIdx
  if entry.isPresent then
    let tmpEntry := kernelGetTemporaryEntry layout machine
    let machine := kernelMapTemporaryMemory layout entry.paddr machine
    (ptKernelFindNextVaddr layout pdtIdx size machine,
      kernelSetTemporaryEntry layout tmpEntry machine)
  else (pdtIdx <<< 22, machine)

/-- One iteration of `pdt_kernel_find_next_vaddr`, from the slots left. -/
def pdtFindStep (layout : Layout) (size : Nat) :
    Nat × Machine → Option (Nat × Machine)
  | (0, _) => none
  | (remaining + 1, machine) =>
      let (vaddr, machine) := pdtFindSlot layout size (1023 - remaining) machine
      if vaddr ≠ 0 then none else some (remaining, machine)

/-- What `pdt_kernel_find_next_vaddr` returns when its loop is left. -/
def pdtFindLeave (layout : Layout) (size : Nat) :
    Nat × Machine → Nat × Machine
  | (0, machine) => (0, machine)
  | (remaining + 1, machine) =>
      pdtFindSlot layout size (1023 - remaining) machine

section Bodies

variable {layout : Layout} {pdt pdtIdx size : Nat} {rw pl : UInt8}

theorem ptMapLoop_hasBody : HasBody (ptMapStep layout pdtIdx size rw pl)
    (fun state => state.2.2) (fun state => ptMapLoop layout pdtIdx size rw pl
      state.1 state.2.1 state.2.2.1 state.2.2.2) := by
  rintro ⟨remaining, paddr, mappedSize, machine⟩
  cases remaining with
  | zero => rfl
  | succ remaining =>
      simp only [ptMapLoop, ptMapStep]
      by_cases unfinished : mappedSize < size
      · cases present : (machine.mem (window layout machine)
            (1023 - remaining)).isPresent with
        | true => simp [unfinished]
        | false =>
            by_cases temporary : pdtIdx = kernelPtPdtIdx ∧
                1023 - remaining = kernelTmpPtIdx
            · simp [unfinished, temporary]
            · simp [unfinished, temporary]
      · simp [unfinished]

theorem ptUnmapLoop_hasBody : HasBody (ptUnmapStep layout pdtIdx size)
    (fun state => state.2)
    (fun state => ptUnmapLoop layout pdtIdx size state.1 state.2.1
      state.2.2) := by
  rintro ⟨remaining, freedSize, machine⟩
  cases remaining with
  | zero => rfl
  | succ remaining =>
      simp only [ptUnmapLoop, ptUnmapStep]
      by_cases unfinished : freedSize < size
      · by_cases temporary : pdtIdx = kernelPtPdtIdx ∧
            1023 - remaining = kernelTmpPtIdx
        · simp [unfinished, temporary]
        · simp [unfinished, temporary]
      · simp [unfinished]

/-- The loop of `pdt_map_memory` from a state. -/
def MapState.loop (layout : Layout) (pdt : Nat) (rw pl : UInt8) (fuel : Nat)
    (state : MapState) : Option (Nat × Machine) :=
  pdtMapLoop layout pdt rw pl fuel state.paddr state.vaddr state.size
    state.totalMappedSize state.machine

theorem pdtMapLoop_hasBody : HasFueledBody (pdtMapStep layout pdt rw pl)
    (MapState.loop layout pdt rw pl 1) (MapState.loop layout pdt rw pl) := by
  intro fuel state
  simp only [MapState.loop, pdtMapLoop, pdtMapStep]
  split_ifs
  all_goals rfl

theorem pdtUnmapLoop_hasBody {endVaddr : Nat} :
    HasFueledBody (pdtUnmapBody layout pdt size endVaddr)
      (fun state => some state.2)
      (pdtUnmapLoop layout pdt size endVaddr) := by
  intro fuel state
  rw [pdtUnmapLoop, pdtUnmapBody]
  split_ifs
  all_goals rfl

theorem pdtFindLoop_hasBody : HasBody (pdtFindStep layout size)
    (pdtFindLeave layout size)
    (fun state => pdtFindLoop layout size state.1 state.2) := by
  rintro ⟨remaining, machine⟩
  cases remaining with
  | zero => rfl
  | succ remaining =>
      simp only [pdtFindLoop, pdtFindStep, pdtFindLeave, pdtFindSlot]
      split_ifs
      all_goals rfl

theorem pdtFindStep_machine {remaining : Nat} {machine : Machine}
    {next : Nat × Machine}
    (step : pdtFindStep layout size (remaining, machine) = some next) :
    next.2 = machine := by
  cases remaining with
  | zero => cases step
  | succ remaining =>
      simp only [pdtFindStep, pdtFindSlot,
        kernelSetTemporaryEntry_restore] at step
      split_ifs at step
      all_goals
        cases step
        rfl

end Bodies

/-! ## Inside the window -/

/-- The temporary entry names the table at `ptPaddr`, and the entry that is
read or written next is that of an address in the slot of the table. -/
structure InWindow (layout : Layout) (pdtIdx ptPaddr address : Nat)
    (remaining : Nat) (machine : Machine) : Prop where
  entry : kernelGetTemporaryEntry layout machine = ptEntry ptPaddr 1 0
  table : window layout machine = ptPaddr / fourKb
  page : 0 < remaining → virtualToPdtIdx address = pdtIdx ∧
    virtualToPtIdx address = 1024 - remaining

section Inside

variable {layout : Layout} {pdt size ptPaddr vaddr : Nat} {rw pl : UInt8}
  {opened : Machine}

theorem InWindow.of_entry {remaining done : Nat} {machine : Machine}
    (small : ptPaddr < 4294967296)
    (entry : kernelGetTemporaryEntry layout machine = ptEntry ptPaddr 1 0)
    (position : virtualToPtIdx vaddr + done + remaining = 1024) :
    InWindow layout (virtualToPdtIdx vaddr) ptPaddr (vaddr + 4096 * done)
      remaining machine := by
  refine ⟨entry, ?_, ?_⟩
  · rw [window, entry, ptEntry_frame, Nat.mod_eq_of_lt small]
  · intro left
    obtain ⟨slot, index⟩ := page_idx
      (show virtualToPtIdx vaddr + done < 1024 by omega)
    exact ⟨slot, by omega⟩

/-- One iteration of `pt_map_memory`.  The temporary entry is present while it
is in use, so that it is not written. -/
theorem ptMapStep_window {pdtIdx remaining paddr mappedSize : Nat}
    {machine : Machine} {next : Nat × Nat × Nat × Machine}
    (shown : kernelGetTemporaryEntry layout machine = ptEntry ptPaddr 1 0)
    (step : ptMapStep layout pdtIdx size rw pl
      (remaining, paddr, mappedSize, machine) = some next) :
    remaining = next.1 + 1 ∧ next.2.2.1 = w32 (mappedSize + fourKb) ∧
      kernelGetTemporaryEntry layout next.2.2.2 = ptEntry ptPaddr 1 0 := by
  cases remaining with
  | zero => cases step
  | succ remaining =>
      simp only [ptMapStep] at step
      split_ifs at step with allowed
      cases step
      refine ⟨rfl, rfl, ?_⟩
      rw [kernelGetTemporaryEntry, Machine.setEntry_mem, if_neg]
      · exact shown
      · rintro ⟨sameFrame, sameIndex⟩
        have absent := allowed.2.1
        rw [← sameFrame, ← sameIndex] at absent
        rw [kernelGetTemporaryEntry] at shown
        rw [shown, (ptEntry_flags ..).1] at absent
        cases absent

/-- One iteration of `pt_unmap_memory`, which leaves the temporary entry out
where it works on the kernel's table. -/
theorem ptUnmapStep_window {pdtIdx remaining freedSize : Nat}
    {machine : Machine} {next : Nat × Nat × Machine}
    (small : ptPaddr < 4294967296)
    (kernelOnly : ptPaddr / fourKb = layout.kernelPt →
      pdtIdx = kernelPtPdtIdx)
    (shown : kernelGetTemporaryEntry layout machine = ptEntry ptPaddr 1 0)
    (step : ptUnmapStep layout pdtIdx size
      (remaining, freedSize, machine) = some next) :
    remaining = next.1 + 1 ∧ next.2.1 = w32 (freedSize + fourKb) ∧
      kernelGetTemporaryEntry layout next.2.2 = ptEntry ptPaddr 1 0 := by
  have table : window layout machine = ptPaddr / fourKb := by
    rw [window, shown, ptEntry_frame, Nat.mod_eq_of_lt small]
  cases remaining with
  | zero => cases step
  | succ remaining =>
      simp only [ptUnmapStep] at step
      split_ifs at step with allowed present
      · cases step
        refine ⟨rfl, rfl, ?_⟩
        rw [kernelGetTemporaryEntry, Machine.setEntry_mem, if_neg]
        · exact shown
        · rintro ⟨sameFrame, sameIndex⟩
          rw [table] at sameFrame
          exact allowed.2 ⟨kernelOnly sameFrame.symm, sameIndex.symm⟩
      · cases step
        exact ⟨rfl, rfl, shown⟩

theorem w32_nextPage {done : Nat} (small : done < 1024) :
    w32 (4096 * done + fourKb) = 4096 * (done + 1) := by
  rw [w32_of_lt]
  · rfl
  · simp only [fourKb]
    omega

/-- The states of the loop of `pt_map_memory`. -/
theorem inWindow_ptMap (small : ptPaddr < 4294967296)
    (entry : kernelGetTemporaryEntry layout opened = ptEntry ptPaddr 1 0)
    {pdtIdx paddr remaining paddrNow mappedSize : Nat} {machine : Machine}
    (slot : pdtIdx = virtualToPdtIdx vaddr)
    (visits : Visits (ptMapStep layout pdtIdx size rw pl)
      (numEntries - virtualToPtIdx vaddr, paddr, 0, opened)
      (remaining, paddrNow, mappedSize, machine)) :
    InWindow layout pdtIdx ptPaddr (vaddr + mappedSize) remaining
      machine := by
  have first := virtualToPtIdx_lt vaddr
  obtain ⟨shown, done, counted, position⟩ := visits.invariant
    (fun state => kernelGetTemporaryEntry layout state.2.2.2 =
        ptEntry ptPaddr 1 0 ∧
      ∃ done, state.2.2.1 = 4096 * done ∧
        virtualToPtIdx vaddr + done + state.1 = 1024)
    (by
      rintro ⟨remaining, paddr, mappedSize, machine⟩ next
        ⟨shown, done, counted, position⟩ step
      obtain ⟨left, grown, kept⟩ := ptMapStep_window shown step
      simp only at counted position
      refine ⟨kept, done + 1, ?_, by omega⟩
      rw [grown, counted, w32_nextPage (by omega)])
    ⟨entry, 0, rfl, by simp only [numEntries]; omega⟩
  simp only at shown counted position
  rw [counted, slot]
  exact InWindow.of_entry small shown position

/-- The states of the loop of `pt_unmap_memory`, where the kernel's table is
reached through its own slot. -/
theorem inWindow_ptUnmap (small : ptPaddr < 4294967296)
    (entry : kernelGetTemporaryEntry layout opened = ptEntry ptPaddr 1 0)
    {pdtIdx remaining freedSize : Nat} {machine : Machine}
    (slot : pdtIdx = virtualToPdtIdx vaddr)
    (kernelOnly : ptPaddr / fourKb = layout.kernelPt →
      pdtIdx = kernelPtPdtIdx)
    (visits : Visits (ptUnmapStep layout pdtIdx size)
      (numEntries - virtualToPtIdx vaddr, 0, opened)
      (remaining, freedSize, machine)) :
    InWindow layout pdtIdx ptPaddr (vaddr + freedSize) remaining
      machine := by
  have first := virtualToPtIdx_lt vaddr
  obtain ⟨shown, done, counted, position⟩ := visits.invariant
    (fun state => kernelGetTemporaryEntry layout state.2.2 =
        ptEntry ptPaddr 1 0 ∧
      ∃ done, state.2.1 = 4096 * done ∧
        virtualToPtIdx vaddr + done + state.1 = 1024)
    (by
      rintro ⟨remaining, freedSize, machine⟩ next
        ⟨shown, done, counted, position⟩ step
      obtain ⟨left, grown, kept⟩ :=
        ptUnmapStep_window small kernelOnly shown step
      simp only at counted position
      refine ⟨kept, done + 1, ?_, by omega⟩
      rw [grown, counted, w32_nextPage (by omega)])
    ⟨entry, 0, rfl, by simp only [numEntries]; omega⟩
  simp only at shown counted position
  rw [counted, slot]
  exact InWindow.of_entry small shown position

end Inside

/-! ## Whole calls -/

section Map

variable {layout : Layout} {pdt : Nat} {rw pl : UInt8} {machine : Machine}

theorem openTable_entry (ok : layout.Ok) {pdtIdx ptPaddr : Nat}
    {opened : Machine}
    (opens : openTable layout pdt pdtIdx machine = (ptPaddr, opened))
    (notNull : ptPaddr = 0 → (machine.mem pdt pdtIdx).isPresent = true) :
    ptPaddr < 4294967296 ∧
      kernelGetTemporaryEntry layout opened = ptEntry ptPaddr 1 0 := by
  cases present : (machine.mem pdt pdtIdx).isPresent with
  | true =>
      rw [openTable, if_pos present] at opens
      cases opens
      have below := (machine.mem pdt pdtIdx).frame_lt
      refine ⟨?_, ?_⟩
      · rw [Entry.paddr_eq_frame]
        simp only [fourKb]
        omega
      · rw [kernelGetTemporaryEntry, kernelMapTemporaryMemory,
          Machine.setEntry_mem, if_pos ⟨rfl, rfl⟩]
  | false =>
      rcases pfaAllocate_one ok machine with failed |
        ⟨frame, address, positive, below, notPt, _⟩
      · simp only [openTable, present, Bool.false_eq_true, if_false, failed,
          if_true] at opens
        cases opens
        rw [present] at notNull
        exact absurd (notNull rfl) Bool.false_ne_true
      · have allocated : (pfaAllocate layout 1 machine).1 ≠ 0 := by
          rw [address]
          exact positive
        simp only [openTable, present, Bool.false_eq_true, if_false,
          allocated] at opens
        rw [address, window_kernelMapTemporaryMemory frame below] at opens
        cases opens
        refine ⟨by simp only [fourKb]; omega, ?_⟩
        rw [kernelGetTemporaryEntry, Machine.zeroFrame_mem,
          if_neg (Ne.symm notPt), kernelMapTemporaryMemory,
          Machine.setEntry_mem, if_pos ⟨rfl, rfl⟩]

theorem openTable_noFrame (ok : layout.Ok) {pdtIdx : Nat}
    (absent : (machine.mem pdt pdtIdx).isPresent = false)
    (null : (openTable layout pdt pdtIdx machine).1 = 0) :
    (openTable layout pdt pdtIdx machine).2 = machine := by
  rcases pfaAllocate_one ok machine with failed | ⟨frame, address, positive, _⟩
  · simp only [openTable, absent, Bool.false_eq_true, if_false, failed,
      if_true]
  · have allocated : (pfaAllocate layout 1 machine).1 ≠ 0 := by
      rw [address]
      exact positive
    simp only [openTable, absent, Bool.false_eq_true, if_false,
      allocated] at null

theorem kernelSetTemporaryEntry_get (entry : Entry) (machine : Machine) :
    kernelGetTemporaryEntry layout
      (kernelSetTemporaryEntry layout entry machine) = entry := by
  rw [kernelGetTemporaryEntry, kernelSetTemporaryEntry,
    Machine.setEntry_mem, if_pos ⟨rfl, rfl⟩]

/-- The entry is put back on every way out of `pdt_map_memory`. -/
theorem pdtMapLoop_restores (ok : layout.Ok) :
    ∀ {fuel paddr vaddr size total result : Nat} {machine after : Machine},
      pdtMapLoop layout pdt rw pl fuel paddr vaddr size total machine =
        some (result, after) →
      kernelGetTemporaryEntry layout after =
        kernelGetTemporaryEntry layout machine := by
  intro fuel
  induction fuel with
  | zero =>
      intro paddr vaddr size total result machine after returned
      cases returned
  | succ fuel induction =>
      intro paddr vaddr size total result machine after returned
      simp only [pdtMapLoop] at returned
      split_ifs at returned with done noFrame stopped present
      · cases returned
        rfl
      · cases returned
        rw [openTable_noFrame ok (by simpa using noFrame.1) noFrame.2]
      · cases returned
        exact kernelSetTemporaryEntry_get ..
      · rw [induction returned]
        exact kernelSetTemporaryEntry_get ..
      · rw [induction returned]
        exact kernelSetTemporaryEntry_get ..

/-- During a call of `pdt_map_memory` the window shows the table of the
address that is worked on, and after it the temporary entry is as before.  The
states are those of the two loops, which go on from each of them to what the
call returns. -/
def MapWindow (layout : Layout) (pdt paddr vaddr size : Nat)
    (rw pl : UInt8) (machine : Machine) : Prop :=
  (∀ round, Visits (pdtMapStep layout pdt rw pl)
      ⟨paddr, vaddr, alignUp size fourKb, 0, machine⟩ round →
    (∃ rounds, ∀ fuel,
      pdtMapLoop layout pdt rw pl (fuel + 1 + rounds) paddr vaddr
          (alignUp size fourKb) 0 machine =
        (pdtMapStep layout pdt rw pl round).elim
          (round.loop layout pdt rw pl 1)
          (MapState.loop layout pdt rw pl fuel)) ∧
    ∀ ptPaddr opened, openTable layout pdt (virtualToPdtIdx round.vaddr)
        round.machine = (ptPaddr, opened) →
    (ptPaddr = 0 → (round.machine.mem pdt
      (virtualToPdtIdx round.vaddr)).isPresent = true) →
    ((round.machine.mem pdt
        (virtualToPdtIdx round.vaddr)).isPresent = true →
      ptPaddr = (round.machine.mem pdt
        (virtualToPdtIdx round.vaddr)).paddr) ∧
    ∀ remaining paddrNow mappedSize now,
      Visits (ptMapStep layout (virtualToPdtIdx round.vaddr) round.size rw pl)
        (numEntries - virtualToPtIdx round.vaddr, round.paddr, 0, opened)
        (remaining, paddrNow, mappedSize, now) →
      ptMapMemory layout (virtualToPdtIdx round.vaddr) round.paddr
          round.vaddr round.size rw pl opened =
        (ptMapStep layout (virtualToPdtIdx round.vaddr) round.size rw pl
          (remaining, paddrNow, mappedSize, now)).elim (mappedSize, now)
          (fun next => ptMapLoop layout (virtualToPdtIdx round.vaddr)
            round.size rw pl next.1 next.2.1 next.2.2.1 next.2.2.2) ∧
      InWindow layout (virtualToPdtIdx round.vaddr) ptPaddr
        (round.vaddr + mappedSize) remaining now) ∧
  ∀ result after,
    pdtMapMemory layout pdt paddr vaddr size rw pl machine =
      some (result, after) →
    kernelGetTemporaryEntry layout after =
      kernelGetTemporaryEntry layout machine

theorem mapWindow (ok : layout.Ok) (pdt paddr vaddr size : Nat)
    (rw pl : UInt8) (machine : Machine) :
    MapWindow layout pdt paddr vaddr size rw pl machine := by
  refine ⟨?_, fun result after returned => pdtMapLoop_restores ok returned⟩
  intro round visits
  refine ⟨pdtMapLoop_hasBody.visits visits, ?_⟩
  intro ptPaddr opened opens notNull
  refine ⟨?_, ?_⟩
  · intro present
    rw [openTable, if_pos present] at opens
    exact (congrArg Prod.fst opens).symm
  · intro remaining paddrNow mappedSize now inner
    obtain ⟨small, entry⟩ := openTable_entry ok opens notNull
    exact ⟨ptMapLoop_hasBody.visits inner,
      inWindow_ptMap small entry rfl inner⟩

end Map

section Unmap

variable {layout : Layout} {pdt size : Nat} {initial machine : Machine}

/-- Slots are at most emptied, and the temporary entry is as before. -/
structure Emptied (layout : Layout) (pdt : Nat)
    (initial machine : Machine) : Prop where
  slots : ∀ slot, machine.mem pdt slot = initial.mem pdt slot ∨
    machine.mem pdt slot = Entry.empty
  temporary : kernelGetTemporaryEntry layout machine =
    kernelGetTemporaryEntry layout initial

theorem Emptied.refl (layout : Layout) (pdt : Nat) (machine : Machine) :
    Emptied layout pdt machine machine :=
  ⟨fun _ => Or.inl rfl, rfl⟩

theorem Emptied.present (emptied : Emptied layout pdt initial machine)
    {slot : Nat} (present : (machine.mem pdt slot).isPresent = true) :
    machine.mem pdt slot = initial.mem pdt slot := by
  rcases emptied.slots slot with same | gone
  · exact same
  · rw [gone] at present
    cases present

theorem Emptied.clearTable {vaddr : Nat}
    (emptied : Emptied layout pdt initial machine) :
    Emptied layout pdt initial
      (machine.clearTable layout pdt vaddr size) := by
  refine ⟨?_, ?_⟩
  · intro slot
    rw [Machine.clearTable_mem]
    split_ifs
    · exact Or.inr rfl
    · exact emptied.slots slot
  · rw [← emptied.temporary]
    exact kernelSetTemporaryEntry_get ..

/-- A round keeps this, if it frees a frame of the allocator only. -/
theorem Emptied.step (ok : layout.Ok) (pdtNotPt : pdt ≠ layout.kernelPt)
    (sizeAligned : size % 4096 = 0) (sizeSmall : size < 4294967296)
    {vaddr : Nat} (managed : Closes size vaddr →
      (initial.mem pdt (virtualToPdtIdx vaddr)).isPresent = true →
      (initial.mem pdt (virtualToPdtIdx vaddr)).frame ∈
        mmapFrames layout.mmap)
    (freedSize : Nat) (emptied : Emptied layout pdt initial machine) :
    Emptied layout pdt initial
      (pdtUnmapStep layout pdt size (vaddr, freedSize, machine)).2.2 := by
  cases present : (machine.mem pdt (virtualToPdtIdx vaddr)).isPresent with
  | false =>
      rw [pdtUnmapStep_absent present]
      exact emptied
  | true =>
      rw [pdtUnmapStep_eq present sizeAligned sizeSmall]
      split_ifs with closes
      · have cleared := @Emptied.clearTable layout pdt size initial machine
          vaddr emptied
        have owned : (machine.mem pdt (virtualToPdtIdx vaddr)).frame ∈
            mmapFrames layout.mmap := by
          have same := emptied.present present
          rw [same] at present ⊢
          exact managed closes present
        have freed := pfaFree_mem ok.framesOk owned
          (machine.clearTable layout pdt vaddr size)
        refine ⟨?_, ?_⟩
        · intro slot
          simp only [Machine.setEntry_mem, freed]
          split_ifs
          · exact Or.inr rfl
          · exact cleared.slots slot
        · simp only [kernelGetTemporaryEntry, Machine.setEntry_mem, freed]
          rw [if_neg fun directory => pdtNotPt directory.1.symm]
          exact cleared.temporary
      · exact emptied.clearTable

/-- The address of a call that returns stays in front of it: in the last slot
it is where the call started, in the first page, or behind the end. -/
structure UnmapAhead (layout : Layout) (pdt size endVaddr vaddr : Nat)
    (state : Nat × Nat × Machine) : Prop where
  notBefore : vaddr ≤ state.1
  small : state.1 < 4294967296
  ends : UnmapEnds layout pdt size endVaddr state
  last : 0xFFC00000 ≤ state.1 → state.1 = vaddr ∨
    state.1 < 0xFFC00000 + 4096 ∨ endVaddr ≤ state.1

theorem UnmapAhead.step {vaddr here freedSize : Nat}
    (sizeAligned : size % 4096 = 0) (fits : vaddr + size < 4294967296)
    (ahead : UnmapAhead layout pdt size (vaddr + size) vaddr
      (here, freedSize, machine)) (running : here < vaddr + size) :
    UnmapAhead layout pdt size (vaddr + size) vaddr
      (pdtUnmapStep layout pdt size (here, freedSize, machine)) := by
  have sizeSmall : size < 4294967296 := by omega
  have ends := (unmapEnds_step_iff running).mp ahead.ends
  have notBefore : vaddr ≤ here := ahead.notBefore
  have small : here < 4294967296 := ahead.small
  have last : 0xFFC00000 ≤ here → here = vaddr ∨
    here < 0xFFC00000 + 4096 ∨ vaddr + size ≤ here := ahead.last
  cases present : (machine.mem pdt (here / fourMb)).isPresent with
  | false =>
      rw [pdtUnmapStep_skip small present] at ends ⊢
      by_cases boundary : here % fourMb = 0
      · rw [alignUp, if_pos boundary] at ends ⊢
        exact ⟨notBefore, small, ends, last⟩
      · by_cases inside : here / fourMb < 1023
        · have next : alignUp here fourMb =
              here + (fourMb - here % fourMb) := by
            rw [alignUp, if_neg boundary, w32_of_lt]
            simp only [fourMb] at *
            omega
          rw [next] at ends ⊢
          refine ⟨?_, ?_, ends, ?_⟩
          all_goals
            simp only [fourMb] at *
            omega
        · -- Behind the last slot the loop starts again at address 0.
          have turned : alignUp here fourMb = 0 := by
            rw [alignUp, if_neg boundary]
            simp only [fourMb, w32] at *
            omega
          have lastSlot : here / fourMb = 1023 := by
            simp only [fourMb] at *
            omega
          rw [lastSlot] at present
          rw [turned] at ends
          refine absurd ends (not_ends_below_last sizeAligned sizeSmall
            (show 0 < 4096 by decide) (Nat.le_refl 0) (by decide) ?_
            (Or.inr present))
          simp only [fourMb] at *
          omega
  | true =>
      have chunk : chunkPages size here = _ := chunkPages_eq small
      have entries := slotEntries_le (here / fourMb)
      rw [← virtualToPdtIdx_of_lt small] at present
      rw [pdtUnmapStep_eq present sizeAligned sizeSmall] at ends ⊢
      by_cases inside : here / fourMb < 1023
      · have next : w32 (here + 4096 * chunkPages size here) =
            here + 4096 * chunkPages size here := by
          rw [w32_of_lt]
          simp only [fourMb] at *
          omega
        rw [next] at ends ⊢
        refine ⟨?_, ?_, ends, ?_⟩
        all_goals
          simp only [fourMb] at *
          omega
      · have lastSlot : here / fourMb = 1023 := by
          simp only [fourMb] at *
          omega
        rw [lastSlot, show slotEntries 1023 = 1024 by rfl] at chunk
        by_cases stops : size / fourKb < 1024 - here / 4096 % 1024
        · have next : w32 (here + 4096 * chunkPages size here) =
              here + size := by
            rw [chunk, Nat.min_eq_left (Nat.le_of_lt stops), w32_of_lt]
            all_goals
              simp only [fourMb, fourKb] at *
              omega
          rw [next] at ends ⊢
          refine ⟨?_, ?_, ends, ?_⟩
          all_goals
            simp only [fourMb, fourKb] at *
            omega
        · -- The slot is passed, which only a call of 4 MiB can do.
          refine absurd ahead.ends (not_ends_below_last sizeAligned
            sizeSmall (Nat.mod_lt here (show 0 < 4096 by decide))
            (Nat.le_refl _) ?_ ?_ (Or.inl ?_))
          all_goals
            simp only [fourMb, fourKb] at *
            omega

theorem unmapAhead_visits {vaddr : Nat} {state : Nat × Nat × Machine}
    (vaddrSmall : vaddr < 4294967296) (sizeAligned : size % 4096 = 0)
    (fits : vaddr + size < 4294967296)
    (ends : UnmapEnds layout pdt size (vaddr + size) (vaddr, 0, machine))
    (visits : Visits (pdtUnmapBody layout pdt size (vaddr + size))
      (vaddr, 0, machine) state) :
    UnmapAhead layout pdt size (vaddr + size) vaddr state := by
  refine visits.invariant
    (UnmapAhead layout pdt size (vaddr + size) vaddr) ?_
    ⟨Nat.le_refl _, vaddrSmall, ends, fun _ => Or.inl rfl⟩
  rintro ⟨here, freedSize, round⟩ next ahead step
  simp only [pdtUnmapBody] at step
  split_ifs at step with running
  cases step
  exact ahead.step sizeAligned fits running

/-- The tables that a call can free, those of slots that it enters at their
first page, come from the allocator. -/
def FreesManaged (layout : Layout) (machine : Machine)
    (pdt vaddr bytes : Nat) : Prop :=
  fourMb ≤ bytes → ∀ slot, RangeSlots vaddr bytes slot →
    vaddr < fourMb * slot + fourKb → slot ≠ kernelPtPdtIdx →
    (machine.mem pdt slot).isPresent = true →
    (machine.mem pdt slot).frame ∈ mmapFrames layout.mmap

/-- The same for a call of `pdt_unmap_memory` that returns, which opens the
window on present slots only. -/
def UnmapWindow (layout : Layout) (pdt vaddr size : Nat)
    (machine : Machine) : Prop :=
  ∀ fuel result after,
    pdtUnmapMemory layout fuel pdt vaddr size machine =
      some (result, after) →
    (∀ here freedSize round,
      Visits (pdtUnmapBody layout pdt (alignUp size fourKb)
        (w32 (vaddr + alignUp size fourKb))) (vaddr, 0, machine)
        (here, freedSize, round) →
      (∃ rounds, ∀ fuel,
        pdtUnmapMemory layout (fuel + 1 + rounds) pdt vaddr size machine =
          (pdtUnmapBody layout pdt (alignUp size fourKb)
            (w32 (vaddr + alignUp size fourKb))
            (here, freedSize, round)).elim (some (freedSize, round))
            (pdtUnmapLoop layout pdt (alignUp size fourKb)
              (w32 (vaddr + alignUp size fourKb)) fuel)) ∧
      (here < w32 (vaddr + alignUp size fourKb) →
        (round.mem pdt (virtualToPdtIdx here)).isPresent = true →
        ∀ opened, kernelMapTemporaryMemory layout
          (round.mem pdt (virtualToPdtIdx here)).paddr round = opened →
        ∀ remaining freedNow now,
          Visits (ptUnmapStep layout (virtualToPdtIdx here)
              (alignUp size fourKb))
            (numEntries - virtualToPtIdx here, 0, opened)
            (remaining, freedNow, now) →
          ptUnmapMemory layout (virtualToPdtIdx here) here
              (alignUp size fourKb) opened =
            (ptUnmapStep layout (virtualToPdtIdx here) (alignUp size fourKb)
              (remaining, freedNow, now)).elim (freedNow, now)
              (fun next => ptUnmapLoop layout (virtualToPdtIdx here)
                (alignUp size fourKb) next.1 next.2.1 next.2.2) ∧
          InWindow layout (virtualToPdtIdx here)
            (round.mem pdt (virtualToPdtIdx here)).paddr (here + freedNow)
            remaining now)) ∧
    kernelGetTemporaryEntry layout after =
      kernelGetTemporaryEntry layout machine

theorem pdtUnmapLoop_last {endVaddr fuel : Nat}
    {state : Nat × Nat × Machine} {result : Nat × Machine}
    (returned : pdtUnmapLoop layout pdt size endVaddr fuel state =
      some result) :
    ∃ here, Visits (pdtUnmapBody layout pdt size endVaddr) state
      (here, result) := by
  induction fuel generalizing state with
  | zero => cases returned
  | succ fuel induction =>
      rw [pdtUnmapLoop] at returned
      split_ifs at returned with running
      · obtain ⟨here, visits⟩ := induction returned
        refine ⟨here, Relation.ReflTransGen.head ?_ visits⟩
        rw [pdtUnmapBody, if_pos running]
      · cases returned
        exact ⟨state.1, Relation.ReflTransGen.refl⟩

/-- In every state of a call that returns the slots are at most emptied. -/
theorem emptied_visits (ok : layout.Ok) (pdtNotPt : pdt ≠ layout.kernelPt)
    {vaddr : Nat} (vaddrSmall : vaddr < 4294967296)
    (sizeAligned : size % 4096 = 0) (sizeSmall : size < 4294967296)
    (managed : FreesManaged layout machine pdt vaddr size)
    (ends : UnmapEnds layout pdt size (w32 (vaddr + size))
      (vaddr, 0, machine)) {state : Nat × Nat × Machine}
    (visits : Visits (pdtUnmapBody layout pdt size (w32 (vaddr + size)))
      (vaddr, 0, machine) state) :
    Emptied layout pdt machine state.2.2 := by
  by_cases fits : vaddr + size < 4294967296
  · rw [w32_of_lt fits] at ends visits
    induction visits with
    | refl => exact Emptied.refl ..
    | @tail middle next before step emptied =>
        have ahead := unmapAhead_visits vaddrSmall sizeAligned fits ends
          before
        obtain ⟨here, freedSize, round⟩ := middle
        simp only [pdtUnmapBody] at step
        split_ifs at step with running
        cases step
        refine emptied.step ok pdtNotPt sizeAligned sizeSmall ?_ freedSize
        intro closes present
        have notBefore : vaddr ≤ here := ahead.notBefore
        have small : here < 4294967296 := ahead.small
        have whole := closes.1
        have entries := slotEntries_le (here / fourMb)
        rw [chunkPages_eq small] at whole
        rw [virtualToPdtIdx_of_lt small] at present ⊢
        refine managed ?_ _ ?_ ?_ ?_ present
        · simp only [fourMb, fourKb] at *
          omega
        · refine ⟨?_, ?_, ?_⟩
          all_goals
            simp only [fourMb] at *
            omega
        · simp only [fourMb, fourKb] at *
          omega
        · rw [← virtualToPdtIdx_of_lt small]
          exact closes.2
  · -- The end has wrapped around, so that the loop is not entered.
    cases visits.cases_head with
    | inl same =>
        rw [← same]
        exact Emptied.refl ..
    | inr entered =>
        obtain ⟨next, step, _⟩ := entered
        have done : ¬vaddr < w32 (vaddr + size) := by
          rw [w32]
          omega
        rw [pdtUnmapBody, if_neg done] at step
        cases step

theorem unmapWindow (ok : layout.Ok) (pdtNotPt : pdt ≠ layout.kernelPt)
    (kernelOnly : ∀ slot < 1024, (machine.mem pdt slot).isPresent = true →
      (machine.mem pdt slot).frame = layout.kernelPt →
      slot = kernelPtPdtIdx)
    {vaddr : Nat} (vaddrSmall : vaddr < 4294967296)
    (sizeSmall : size < 4294967296)
    (managed : FreesManaged layout machine pdt vaddr
      (alignUp size fourKb)) : UnmapWindow layout pdt vaddr size machine := by
  intro fuel result after returned
  have ends := (pdtUnmapMemory_some_iff size).mp ⟨fuel, _, returned⟩
  have visited := fun state => @emptied_visits layout pdt
    (alignUp size fourKb) machine ok pdtNotPt vaddr vaddrSmall
    (alignUp_fourKb_mod size) (alignUp_lt fourKb sizeSmall) managed ends state
  refine ⟨?_, ?_⟩
  · intro here freedSize round visits
    refine ⟨pdtUnmapLoop_hasBody.visits visits, ?_⟩
    intro _ present opened opens remaining freedNow now inner
    have emptied := visited _ visits
    have below := (round.mem pdt (virtualToPdtIdx here)).frame_lt
    refine ⟨ptUnmapLoop_hasBody.visits inner, ?_⟩
    refine inWindow_ptUnmap ?_ ?_ rfl ?_ inner
    · rw [Entry.paddr_eq_frame]
      simp only [fourKb]
      omega
    · rw [← opens, kernelGetTemporaryEntry, kernelMapTemporaryMemory,
        Machine.setEntry_mem, if_pos ⟨rfl, rfl⟩]
    · intro isKernel
      rw [emptied.present present] at isKernel present
      exact kernelOnly _ (virtualToPdtIdx_lt here) present isKernel
  · obtain ⟨here, last⟩ := pdtUnmapLoop_last returned
    exact (visited _ last).temporary

end Unmap

section Find

variable {layout : Layout} {machine : Machine}

/-- The same for `pdt_kernel_find_next_vaddr`, whose inner loop only reads, and
which changes nothing. -/
def FindWindow (layout : Layout) (size : Nat) (machine : Machine) : Prop :=
  (∀ slots round, Visits (pdtFindStep layout size)
      (numEntries - kernelPtPdtIdx, machine) (slots + 1, round) →
    pdtKernelFindNextVaddr layout size machine =
      (pdtFindStep layout size (slots + 1, round)).elim
        (pdtFindSlot layout size (1023 - slots) round)
        (fun next => pdtFindLoop layout size next.1 next.2) ∧
    round = machine ∧ ∀ remaining ≤ 1024,
      InWindow layout (1023 - slots)
        (round.mem layout.kernelPdt (1023 - slots)).paddr
        (fourMb * (1023 - slots) + 4096 * (1024 - remaining)) remaining
        (kernelMapTemporaryMemory layout
          (round.mem layout.kernelPdt (1023 - slots)).paddr round)) ∧
  (pdtKernelFindNextVaddr layout size machine).2 = machine

theorem findWindow (layout : Layout) (size : Nat) (machine : Machine) :
    FindWindow layout size machine := by
  refine ⟨?_, pdtKernelFindNextVaddr_machine layout size machine⟩
  intro slots round visits
  have unchanged : round = machine := visits.invariant
    (fun state => state.2 = machine)
    (by
      rintro ⟨remaining, round⟩ next same step
      rw [pdtFindStep_machine step]
      exact same)
    rfl
  refine ⟨pdtFindLoop_hasBody.visits visits, unchanged, ?_⟩
  intro remaining within
  have below := (round.mem layout.kernelPdt (1023 - slots)).frame_lt
  have slotIdx : virtualToPdtIdx (fourMb * (1023 - slots)) =
      1023 - slots := by
    rw [virtualToPdtIdx_eq]
    simp only [fourMb]
    omega
  have first : virtualToPtIdx (fourMb * (1023 - slots)) = 0 := by
    rw [virtualToPtIdx_eq]
    simp only [fourMb]
    omega
  have shown := @InWindow.of_entry layout
    (round.mem layout.kernelPdt (1023 - slots)).paddr
    (fourMb * (1023 - slots)) remaining (1024 - remaining)
    (kernelMapTemporaryMemory layout
      (round.mem layout.kernelPdt (1023 - slots)).paddr round)
    (by rw [Entry.paddr_eq_frame]; simp only [fourKb]; omega)
    (by rw [kernelGetTemporaryEntry, kernelMapTemporaryMemory,
          Machine.setEntry_mem, if_pos ⟨rfl, rfl⟩])
    (by omega)
  rw [slotIdx] at shown
  exact shown

end Find

/-- The temporary page is transparent and stable: where the kernel's page table
is named by its own slot only, every table entry that a call reads or writes
through the window belongs to the table of the address it works on, and the
temporary entry is as before when the call returns. -/
theorem temporary_page_transparent {layout : Layout} (ok : layout.Ok)
    {pdt : Nat} (pdtNotPt : pdt ≠ layout.kernelPt) {machine : Machine}
    (kernelOnly : ∀ slot < 1024, (machine.mem pdt slot).isPresent = true →
      (machine.mem pdt slot).frame = layout.kernelPt →
      slot = kernelPtPdtIdx) :
    (∀ paddr vaddr size rw pl,
      MapWindow layout pdt paddr vaddr size rw pl machine) ∧
    (∀ vaddr < 4294967296, ∀ size < 4294967296,
      FreesManaged layout machine pdt vaddr (alignUp size fourKb) →
      UnmapWindow layout pdt vaddr size machine) ∧
    ∀ size, FindWindow layout size machine := by
  refine ⟨?_, ?_, ?_⟩
  · intro paddr vaddr size rw pl
    exact mapWindow ok pdt paddr vaddr size rw pl machine
  · intro vaddr vaddrSmall size sizeSmall managed
    exact unmapWindow ok pdtNotPt kernelOnly vaddrSmall sizeSmall managed
  · intro size
    exact findWindow layout size machine

/-- The boot directory, where the window is opened on the kernel's own table
as well. -/
theorem temporary_page_transparent_boot :
    MapWindow twoFrameLayout 1 0x101000 0xC0005000 4096 1 0
        (bootMachine twoFrameLayout 5) ∧
      UnmapWindow twoFrameLayout 1 0xC0000000 4096
        (bootMachine twoFrameLayout 5) ∧
      FindWindow twoFrameLayout 4096 (bootMachine twoFrameLayout 5) := by
  have boot := bootMachine_boot twoFrameLayout_ok.distinct 5
  have kernelOnly : ∀ slot < 1024,
      ((bootMachine twoFrameLayout 5).mem 1 slot).isPresent = true →
      ((bootMachine twoFrameLayout 5).mem 1 slot).frame =
        twoFrameLayout.kernelPt → slot = kernelPtPdtIdx := by
    intro slot _ present named
    by_contra other
    by_cases identity : slot = 0
    · rw [identity] at named
      exact absurd named (by decide)
    · have empty := boot.others slot identity other
      rw [show (bootMachine twoFrameLayout 5).mem 1 slot = Entry.empty from
        empty] at present
      cases present
  obtain ⟨maps, unmaps, finds⟩ := temporary_page_transparent
    twoFrameLayout_ok (show 1 ≠ twoFrameLayout.kernelPt by decide) kernelOnly
  refine ⟨maps _ _ _ _ _, unmaps _ (by decide) _ (by decide) ?_, finds _⟩
  intro large
  exact absurd large (by decide)

end Newbos
