import Newbos.Paging.Tables

/-!
# Rounds of mapping and unmapping

One round of `pdt_map_memory` or `pdt_unmap_memory` works on one page table.
Its effect on memory is given in closed form, with the temporary entry
restored, so that whole calls can be reasoned about round by round.
-/

namespace Newbos

/-- A frame map, and kernel structures in frames of their own outside it. -/
structure Layout.Ok (layout : Layout) : Prop where
  framesOk : layout.FramesOk
  distinct : layout.kernelPdt ≠ layout.kernelPt
  kernelPdtBelow : layout.kernelPdt < 1048576
  kernelPtBelow : layout.kernelPt < 1048576
  kernelPdtUnmanaged : layout.kernelPdt ∉ mmapFrames layout.mmap
  kernelPtUnmanaged : layout.kernelPt ∉ mmapFrames layout.mmap

namespace Machine

/-- Overwrite `count` consecutive entries of a frame. -/
def writeEntries (machine : Machine) (frame first count : Nat)
    (entries : Nat → Entry) : Machine :=
  { machine with
    mem := fun other position =>
      if other = frame ∧ first ≤ position ∧ position < first + count then
        entries (position - first)
      else machine.mem other position }

/-- Zero those of `count` consecutive entries of a frame that are present. -/
def clearEntries (machine : Machine) (frame first count : Nat) : Machine :=
  { machine with
    mem := fun other position =>
      if (other = frame ∧ first ≤ position ∧ position < first + count) ∧
          (machine.mem other position).isPresent then Entry.empty
      else machine.mem other position }

theorem ext_mem {first second : Machine}
    (mem : ∀ frame position, first.mem frame position =
      second.mem frame position)
    (bits : first.bits = second.bits) (active : first.active = second.active)
    (faulted : first.faulted = second.faulted) : first = second := by
  have memEq : first.mem = second.mem := by
    funext frame position
    exact mem frame position
  cases first
  cases second
  simp_all

theorem setEntry_self (machine : Machine) (frame position : Nat) :
    machine.setEntry frame position (machine.mem frame position) =
      machine := by
  apply ext_mem
  · intro other index
    rw [setEntry_mem]
    split_ifs with same
    · rw [same.1, same.2]
    · rfl
  · rfl
  · rfl
  · rfl

theorem writeEntries_zero (machine : Machine) (frame first : Nat)
    (entries : Nat → Entry) :
    machine.writeEntries frame first 0 entries = machine := by
  apply ext_mem
  · intro other position
    simp only [writeEntries]
    rw [if_neg (by omega)]
  · rfl
  · rfl
  · rfl

theorem writeEntries_succ (machine : Machine) (frame first count : Nat)
    (entries : Nat → Entry) :
    (machine.setEntry frame first (entries 0)).writeEntries frame (first + 1)
        count (fun step => entries (step + 1)) =
      machine.writeEntries frame first (count + 1) entries := by
  apply ext_mem
  · intro other position
    simp only [writeEntries, setEntry_mem]
    by_cases atFirst : other = frame ∧ position = first
    · obtain ⟨rfl, rfl⟩ := atFirst
      simp
    · rw [if_neg atFirst]
      by_cases inside : other = frame ∧ first + 1 ≤ position ∧
          position < first + 1 + count
      · have step : position - (first + 1) + 1 = position - first := by omega
        rw [if_pos inside, if_pos (by omega), step]
      · rw [if_neg inside, if_neg (by omega)]
  · rfl
  · rfl
  · rfl

theorem clearEntries_zero (machine : Machine) (frame first : Nat) :
    machine.clearEntries frame first 0 = machine := by
  apply ext_mem
  · intro other position
    simp only [clearEntries]
    rw [if_neg (by omega)]
  · rfl
  · rfl
  · rfl

theorem clearEntries_succ (machine : Machine) (frame first count : Nat) :
    (if (machine.mem frame first).isPresent then
        machine.setEntry frame first Entry.empty
      else machine).clearEntries frame (first + 1) count =
      machine.clearEntries frame first (count + 1) := by
  apply ext_mem
  · intro other position
    by_cases atFirst : other = frame ∧ position = first
    · obtain ⟨rfl, rfl⟩ := atFirst
      simp only [clearEntries]
      split_ifs <;> simp_all [setEntry_mem]
    · have same : (if (machine.mem frame first).isPresent then
          machine.setEntry frame first Entry.empty
        else machine).mem other position = machine.mem other position := by
        split_ifs
        · rw [setEntry_mem, if_neg atFirst]
        · rfl
      simp only [clearEntries, same]
      have range : (other = frame ∧ first + 1 ≤ position ∧
          position < first + 1 + count) ↔
          (other = frame ∧ first ≤ position ∧
            position < first + (count + 1)) := by omega
      simp only [range]
  · simp only [clearEntries]
    split_ifs <;> rfl
  · simp only [clearEntries]
    split_ifs <;> rfl
  · simp only [clearEntries]
    split_ifs <;> rfl

theorem writeEntries_restore (machine : Machine) {frame first count : Nat}
    (entries : Nat → Entry) {other position : Nat} (entry : Entry)
    (outside : ¬(other = frame ∧ first ≤ position ∧
      position < first + count)) :
    ((machine.setEntry other position entry).writeEntries frame first count
        entries).setEntry other position (machine.mem other position) =
      machine.writeEntries frame first count entries := by
  apply ext_mem
  · intro someFrame somePosition
    rw [setEntry_mem]
    simp only [writeEntries, setEntry_mem]
    by_cases same : someFrame = other ∧ somePosition = position
    · obtain ⟨rfl, rfl⟩ := same
      simp [outside]
    · simp only [if_neg same]
  · rfl
  · rfl
  · rfl

/-- An entry that is overwritten afterwards does not matter while a table is
cleared. -/
theorem clearEntries_reopen (machine : Machine) (frame first count : Nat)
    (other position : Nat) (entry restored : Entry) :
    ((machine.setEntry other position entry).clearEntries frame first
        count).setEntry other position restored =
      (machine.clearEntries frame first count).setEntry other position
        restored := by
  apply ext_mem
  · intro someFrame somePosition
    rw [setEntry_mem, setEntry_mem]
    simp only [clearEntries, setEntry_mem]
    by_cases same : someFrame = other ∧ somePosition = position
    · simp only [if_pos same]
    · simp only [if_neg same]
  · rfl
  · rfl
  · rfl

theorem clearEntries_restore (machine : Machine) {frame first count : Nat}
    {other position : Nat}
    (outside : ¬(other = frame ∧ first ≤ position ∧
      position < first + count)) :
    (machine.clearEntries frame first count).setEntry other position
        (machine.mem other position) =
      machine.clearEntries frame first count := by
  have kept : (machine.clearEntries frame first count).mem other position =
      machine.mem other position := by
    simp [clearEntries, outside]
  rw [← kept]
  exact setEntry_self ..

end Machine

theorem ptEntry_w32 (addr : Nat) (rw pl : UInt8) :
    ptEntry (w32 addr) rw pl = ptEntry addr rw pl := by
  have low : ((w32 addr) >>> 12) &&& 15 = (addr >>> 12) &&& 15 := by
    have mask := fun value => Nat.and_two_pow_sub_one_eq_mod value 4
    simp only [Nat.reducePow, Nat.reduceSub] at mask
    rw [mask, mask, Nat.shiftRight_eq_div_pow, Nat.shiftRight_eq_div_pow, w32]
    omega
  have high : ((w32 addr) >>> 16) &&& 65535 = (addr >>> 16) &&& 65535 := by
    have mask := fun value => Nat.and_two_pow_sub_one_eq_mod value 16
    simp only [Nat.reducePow, Nat.reduceSub] at mask
    rw [mask, mask, Nat.shiftRight_eq_div_pow, Nat.shiftRight_eq_div_pow, w32]
    omega
  simp only [ptEntry, low, high]

/-- The entries that `pt_map_memory` writes. -/
def pageEntries (paddr : Nat) (rw pl : UInt8) (step : Nat) : Entry :=
  ptEntry (paddr + fourKb * step) rw pl

/-- `pt_map_memory` stops at this entry of a table.  The temporary entry is
present while it is in use, whichever slot its table is reached through. -/
def Blocked (layout : Layout) (machine : Machine) (pt pdtIdx ptIdx : Nat) :
    Prop :=
  (machine.mem pt ptIdx).isPresent = true ∨
    pdtIdx = kernelPtPdtIdx ∧ ptIdx = kernelTmpPtIdx ∨
    layout.kernelPt = pt ∧ ptIdx = kernelTmpPtIdx

section Loops

variable {layout : Layout} {pdtIdx pt size : Nat}

theorem window_setEntry {machine : Machine} {ptIdx : Nat} (entry : Entry)
    (inWindow : window layout machine = pt)
    (notTemporary : ¬(layout.kernelPt = pt ∧ kernelTmpPtIdx = ptIdx)) :
    window layout (machine.setEntry pt ptIdx entry) = pt := by
  rw [window, kernelGetTemporaryEntry, Machine.setEntry_mem,
    if_neg notTemporary]
  exact inWindow

/-- `pt_map_memory` fills consecutive entries that are not present, up to the
size, the end of the table or the first entry at which it is blocked. -/
structure PtMapped (layout : Layout) (pdtIdx pt size : Nat) (rw pl : UInt8)
    (remaining paddr mappedSize : Nat) (machine : Machine)
    (result : Nat × Machine) (count : Nat) : Prop where
  inTable : count ≤ remaining
  mapped : result.1 = mappedSize + 4096 * count
  effect : result.2 = machine.writeEntries pt (1024 - remaining) count
    (pageEntries paddr rw pl)
  free : ∀ ptIdx, 1024 - remaining ≤ ptIdx →
    ptIdx < 1024 - remaining + count → ¬Blocked layout machine pt pdtIdx ptIdx
  inSize : mappedSize + 4096 * count ≤ size
  stop : mappedSize + 4096 * count = size ∨ count = remaining ∨
    Blocked layout machine pt pdtIdx (1024 - remaining + count)

theorem PtMapped.nothing {rw pl : UInt8} {remaining paddr mappedSize : Nat}
    {machine : Machine} (within : mappedSize ≤ size)
    (stop : mappedSize = size ∨ 0 = remaining ∨
      Blocked layout machine pt pdtIdx (1024 - remaining)) :
    PtMapped layout pdtIdx pt size rw pl remaining paddr mappedSize machine
      (mappedSize, machine) 0 := by
  refine ⟨Nat.zero_le _, rfl, ?_, ?_, within, stop⟩
  · exact (Machine.writeEntries_zero ..).symm
  · intro ptIdx lower upper
    omega

theorem PtMapped.next {rw pl : UInt8}
    {remaining paddr mappedSize count : Nat} {machine : Machine}
    {result : Nat × Machine} (inTable : remaining + 1 ≤ 1024)
    (notBlocked : ¬Blocked layout machine pt pdtIdx (1023 - remaining))
    (rest : PtMapped layout pdtIdx pt size rw pl remaining
      (w32 (paddr + fourKb)) (mappedSize + 4096)
      (machine.setEntry pt (1023 - remaining) (ptEntry paddr rw pl)) result
      count) :
    PtMapped layout pdtIdx pt size rw pl (remaining + 1) paddr mappedSize
      machine result (count + 1) := by
  have here : 1024 - (remaining + 1) = 1023 - remaining := by omega
  have nextIdx : 1024 - remaining = 1023 - remaining + 1 := by omega
  have sameLater : ∀ ptIdx, 1024 - remaining ≤ ptIdx →
      (Blocked layout (machine.setEntry pt (1023 - remaining)
        (ptEntry paddr rw pl)) pt pdtIdx ptIdx ↔
        Blocked layout machine pt pdtIdx ptIdx) := by
    intro ptIdx later
    rw [Blocked, Machine.setEntry_mem, if_neg (by omega), Blocked]
  constructor
  · exact Nat.succ_le_succ rest.inTable
  · rw [rest.mapped]
    omega
  · have entries : pageEntries (w32 (paddr + fourKb)) rw pl =
        fun step => pageEntries paddr rw pl (step + 1) := by
      funext step
      have same : w32 (w32 (paddr + fourKb) + fourKb * step) =
          w32 (paddr + fourKb * (step + 1)) := by
        simp only [w32, fourKb]
        omega
      rw [pageEntries, pageEntries, ← ptEntry_w32, same, ptEntry_w32]
    have first : ptEntry paddr rw pl = pageEntries paddr rw pl 0 := by
      simp [pageEntries]
    rw [rest.effect, here, nextIdx, entries, first]
    exact Machine.writeEntries_succ ..
  · intro ptIdx lower upper
    by_cases same : ptIdx = 1023 - remaining
    · rw [same]
      exact notBlocked
    · rw [← sameLater ptIdx (by omega)]
      exact rest.free ptIdx (by omega) (by omega)
  · rw [Nat.mul_succ, Nat.add_comm (4096 * count), ← Nat.add_assoc]
    exact rest.inSize
  · have later : 1024 - (remaining + 1) + (count + 1) =
        1024 - remaining + count := by omega
    rcases rest.stop with full | ended | stopped
    · exact Or.inl (by omega)
    · exact Or.inr (Or.inl (by omega))
    · refine Or.inr (Or.inr ?_)
      rw [later, ← sameLater _ (by omega)]
      exact stopped

theorem ptMapLoop_spec (pdtIdx : Nat) (rw pl : UInt8)
    (sizeAligned : size % 4096 = 0) (sizeSmall : size < 4294967296) :
    ∀ {remaining : Nat} (paddr : Nat) {mappedSize : Nat}
      {machine : Machine},
      remaining ≤ 1024 → window layout machine = pt →
      (machine.mem layout.kernelPt kernelTmpPtIdx).isPresent = true →
      mappedSize % 4096 = 0 → mappedSize ≤ size →
      ∃ count, PtMapped layout pdtIdx pt size rw pl remaining paddr
        mappedSize machine
        (ptMapLoop layout pdtIdx size rw pl remaining paddr mappedSize
          machine) count := by
  intro remaining
  induction remaining with
  | zero =>
      intro paddr mappedSize machine _ _ _ _ within
      exact ⟨0, .nothing within (Or.inr (Or.inl rfl))⟩
  | succ remaining induction =>
      intro paddr mappedSize machine inTable inWindow open_ aligned within
      have ptIdxEq : 1023 - remaining = 1024 - (remaining + 1) := by omega
      simp only [ptMapLoop, inWindow]
      by_cases unfinished : mappedSize < size
      · rw [if_pos unfinished]
        by_cases blocked : Blocked layout machine pt pdtIdx (1023 - remaining)
        · have stops : (machine.mem pt (1023 - remaining)).isPresent = true ∨
              pdtIdx = kernelPtPdtIdx ∧
                1023 - remaining = kernelTmpPtIdx := by
            rcases blocked with present | tmp | ⟨same, atTmp⟩
            · exact Or.inl present
            · exact Or.inr tmp
            · rw [← same, atTmp]
              exact Or.inl open_
          have atOnce : PtMapped layout pdtIdx pt size rw pl (remaining + 1)
              paddr mappedSize machine (mappedSize, machine) 0 := by
            apply PtMapped.nothing within
            rw [← ptIdxEq]
            exact Or.inr (Or.inr blocked)
          refine ⟨0, ?_⟩
          rcases stops with present | tmp
          · rw [if_pos present]
            exact atOnce
          · rw [if_pos tmp, ite_self]
            exact atOnce
        · have notPresent : ¬(machine.mem pt (1023 - remaining)).isPresent =
              true := fun present => blocked (Or.inl present)
          have notTmp : ¬(pdtIdx = kernelPtPdtIdx ∧
              1023 - remaining = kernelTmpPtIdx) := fun tmp =>
            blocked (Or.inr (Or.inl tmp))
          rw [if_neg notPresent, if_neg notTmp]
          have mappedNext : w32 (mappedSize + fourKb) =
              mappedSize + 4096 := by
            apply w32_of_lt
            simp only [fourKb]
            omega
          have window' : window layout (machine.setEntry pt
              (1023 - remaining) (ptEntry paddr rw pl)) = pt := by
            apply window_setEntry _ inWindow
            rintro ⟨isKernelPt, isTmp⟩
            exact blocked (Or.inr (Or.inr ⟨isKernelPt, isTmp.symm⟩))
          have stillOpen : ((machine.setEntry pt (1023 - remaining)
              (ptEntry paddr rw pl)).mem layout.kernelPt
                kernelTmpPtIdx).isPresent = true := by
            rw [Machine.setEntry_mem]
            split_ifs
            · exact (ptEntry_flags ..).1
            · exact open_
          have stillAligned : (mappedSize + 4096) % 4096 = 0 := by
            omega
          have stillWithin : mappedSize + 4096 ≤ size := by
            omega
          obtain ⟨count, rest⟩ := induction (w32 (paddr + fourKb)) (by omega)
            window' stillOpen stillAligned stillWithin
          rw [mappedNext]
          exact ⟨count + 1, rest.next inTable blocked⟩
      · rw [if_neg unfinished]
        exact ⟨0, .nothing within (Or.inl (by omega))⟩

/-- `pt_unmap_memory` clears consecutive entries up to the size, the end of
the table or the temporary entry. -/
structure PtUnmapped (pdtIdx pt size : Nat) (remaining freedSize : Nat)
    (machine : Machine) (result : Nat × Machine) (count : Nat) : Prop where
  inTable : count ≤ remaining
  freed : result.1 = freedSize + 4096 * count
  effect : result.2 = machine.clearEntries pt (1024 - remaining) count
  notTemporary : ∀ ptIdx, 1024 - remaining ≤ ptIdx →
    ptIdx < 1024 - remaining + count →
    ¬(pdtIdx = kernelPtPdtIdx ∧ ptIdx = kernelTmpPtIdx)
  inSize : freedSize + 4096 * count ≤ size
  stop : freedSize + 4096 * count = size ∨ count = remaining ∨
    pdtIdx = kernelPtPdtIdx ∧ 1024 - remaining + count = kernelTmpPtIdx

theorem PtUnmapped.nothing {remaining freedSize : Nat} {machine : Machine}
    (within : freedSize ≤ size)
    (stop : freedSize = size ∨ 0 = remaining ∨
      pdtIdx = kernelPtPdtIdx ∧ 1024 - remaining = kernelTmpPtIdx) :
    PtUnmapped pdtIdx pt size remaining freedSize machine
      (freedSize, machine) 0 := by
  refine ⟨Nat.zero_le _, rfl, ?_, ?_, within, stop⟩
  · exact (Machine.clearEntries_zero ..).symm
  · intro ptIdx lower upper
    omega

theorem PtUnmapped.next {remaining freedSize count : Nat} {machine : Machine}
    {result : Nat × Machine} (inTable : remaining + 1 ≤ 1024)
    (notTmp : ¬(pdtIdx = kernelPtPdtIdx ∧
      1023 - remaining = kernelTmpPtIdx))
    (rest : PtUnmapped pdtIdx pt size remaining (freedSize + 4096)
      (if (machine.mem pt (1023 - remaining)).isPresent then
        machine.setEntry pt (1023 - remaining) Entry.empty
      else machine) result count) :
    PtUnmapped pdtIdx pt size (remaining + 1) freedSize machine result
      (count + 1) := by
  have here : 1024 - (remaining + 1) = 1023 - remaining := by omega
  have nextIdx : 1024 - remaining = 1023 - remaining + 1 := by omega
  constructor
  · exact Nat.succ_le_succ rest.inTable
  · rw [rest.freed]
    omega
  · rw [rest.effect, here, nextIdx]
    exact Machine.clearEntries_succ ..
  · intro ptIdx lower upper
    by_cases same : ptIdx = 1023 - remaining
    · rw [same]
      exact notTmp
    · exact rest.notTemporary ptIdx (by omega) (by omega)
  · rw [Nat.mul_succ, Nat.add_comm (4096 * count), ← Nat.add_assoc]
    exact rest.inSize
  · have later : 1024 - (remaining + 1) + (count + 1) =
        1024 - remaining + count := by omega
    rcases rest.stop with full | ended | stopped
    · exact Or.inl (by omega)
    · exact Or.inr (Or.inl (by omega))
    · refine Or.inr (Or.inr ?_)
      rw [later]
      exact stopped

/-- The window is needed for the entries that are left: the temporary entry is
the last one of its table. -/
theorem ptUnmapLoop_spec (pdtIdx : Nat) (sizeAligned : size % 4096 = 0)
    (sizeSmall : size < 4294967296) :
    ∀ {remaining freedSize : Nat} {machine : Machine},
      remaining ≤ 1024 → (0 < remaining → window layout machine = pt) →
      freedSize % 4096 = 0 → freedSize ≤ size →
      ∃ count, PtUnmapped pdtIdx pt size remaining freedSize machine
        (ptUnmapLoop layout pdtIdx size remaining freedSize machine)
        count := by
  intro remaining
  induction remaining with
  | zero =>
      intro freedSize machine _ _ _ within
      exact ⟨0, .nothing within (Or.inr (Or.inl rfl))⟩
  | succ remaining induction =>
      intro freedSize machine inTable inWindow aligned within
      have ptIdxEq : 1023 - remaining = 1024 - (remaining + 1) := by omega
      have shown := inWindow (Nat.succ_pos _)
      simp only [ptUnmapLoop, shown]
      by_cases unfinished : freedSize < size
      · rw [if_pos unfinished]
        by_cases tmp : pdtIdx = kernelPtPdtIdx ∧
            1023 - remaining = kernelTmpPtIdx
        · rw [if_pos tmp]
          rw [ptIdxEq] at tmp
          exact ⟨0, .nothing within (Or.inr (Or.inr tmp))⟩
        · rw [if_neg tmp]
          have freedNext : w32 (freedSize + fourKb) = freedSize + 4096 := by
            apply w32_of_lt
            simp only [fourKb]
            omega
          have window' : 0 < remaining → window layout
              (if (machine.mem pt (1023 - remaining)).isPresent then
                machine.setEntry pt (1023 - remaining) Entry.empty
              else machine) = pt := by
            intro more
            split_ifs
            · apply window_setEntry _ shown
              rintro ⟨_, isTmp⟩
              simp only [kernelTmpPtIdx] at isTmp
              omega
            · exact shown
          have stillAligned : (freedSize + 4096) % 4096 = 0 := by
            omega
          have stillWithin : freedSize + 4096 ≤ size := by
            omega
          obtain ⟨count, rest⟩ := induction (by omega) window' stillAligned
            stillWithin
          rw [freedNext]
          exact ⟨count + 1, rest.next inTable tmp⟩
      · rw [if_neg unfinished]
        exact ⟨0, .nothing within (Or.inl (by omega))⟩

end Loops

/-- A maximal run of entries that `pt_map_memory` fills in one table. -/
structure TableRun (layout : Layout) (machine : Machine)
    (pt pdtIdx ptIdx size count : Nat) : Prop where
  inTable : ptIdx + count ≤ 1024
  free : ∀ index, ptIdx ≤ index → index < ptIdx + count →
    ¬Blocked layout machine pt pdtIdx index
  inSize : 4096 * count ≤ size
  stop : 4096 * count = size ∨ ptIdx + count = 1024 ∨
    Blocked layout machine pt pdtIdx (ptIdx + count)

theorem TableRun.full {layout : Layout} {machine : Machine}
    {pt pdtIdx ptIdx size count : Nat}
    (run : TableRun layout machine pt pdtIdx ptIdx size count)
    (fits : 4096 * ptIdx + size ≤ 4194304)
    (free : ∀ index, ptIdx ≤ index → 4096 * index < 4096 * ptIdx + size →
      ¬Blocked layout machine pt pdtIdx index) : 4096 * count = size := by
  have inSize := run.inSize
  rcases run.stop with whole | ended | blocked
  · exact whole
  · omega
  · by_contra short
    exact free (ptIdx + count) (by omega) (by omega) blocked

/-- One round of `pdt_map_memory`, with the size it maps; 0 ends the call. -/
inductive MapRound (layout : Layout) (pdt paddr vaddr size : Nat)
    (rw pl : UInt8) (machine : Machine) : Nat → Machine → Prop where
  | noFrame :
      (machine.mem pdt (virtualToPdtIdx vaddr)).isPresent = false →
      pfaAllocate layout 1 machine = (0, machine) →
      MapRound layout pdt paddr vaddr size rw pl machine 0 machine
  | existing {count : Nat} :
      (machine.mem pdt (virtualToPdtIdx vaddr)).isPresent = true →
      TableRun layout machine (machine.mem pdt (virtualToPdtIdx vaddr)).frame
        (virtualToPdtIdx vaddr) (virtualToPtIdx vaddr) size count →
      MapRound layout pdt paddr vaddr size rw pl machine (4096 * count)
        (machine.writeEntries
          (machine.mem pdt (virtualToPdtIdx vaddr)).frame
          (virtualToPtIdx vaddr) count (pageEntries paddr rw pl))
  | leaked {frame : Nat} {allocated : Machine} :
      (machine.mem pdt (virtualToPdtIdx vaddr)).isPresent = false →
      TakesFrames layout 1 machine (fourKb * frame) allocated frame →
      virtualToPdtIdx vaddr = kernelPtPdtIdx →
      virtualToPtIdx vaddr = kernelTmpPtIdx →
      MapRound layout pdt paddr vaddr size rw pl machine 0
        (allocated.zeroFrame frame)
  | fresh {frame count : Nat} {allocated : Machine} :
      (machine.mem pdt (virtualToPdtIdx vaddr)).isPresent = false →
      pfaAllocate layout 1 machine = (fourKb * frame, allocated) →
      TakesFrames layout 1 machine (fourKb * frame) allocated frame →
      1 ≤ count →
      TableRun layout (allocated.zeroFrame frame) frame (virtualToPdtIdx vaddr)
        (virtualToPtIdx vaddr) size count →
      MapRound layout pdt paddr vaddr size rw pl machine (4096 * count)
        (((allocated.zeroFrame frame).writeEntries frame
          (virtualToPtIdx vaddr) count (pageEntries paddr rw pl)).setEntry
          pdt (virtualToPdtIdx vaddr) (pdtEntry (fourKb * frame) 0 rw pl))

theorem virtualToPtIdx_lt (vaddr : Nat) : virtualToPtIdx vaddr < 1024 := by
  rw [virtualToPtIdx_eq]
  omega

theorem virtualToPdtIdx_lt (vaddr : Nat) : virtualToPdtIdx vaddr < 1024 := by
  rw [virtualToPdtIdx_eq]
  omega

theorem page_idx {vaddr step : Nat}
    (inTable : virtualToPtIdx vaddr + step < 1024) :
    virtualToPdtIdx (vaddr + 4096 * step) = virtualToPdtIdx vaddr ∧
      virtualToPtIdx (vaddr + 4096 * step) = virtualToPtIdx vaddr + step := by
  simp only [virtualToPdtIdx_eq, virtualToPtIdx_eq] at *
  omega

section Rounds

variable {layout : Layout} {pdt size : Nat} {rw pl : UInt8}

theorem window_kernelMapTemporaryMemory (frame : Nat)
    (below : frame < 1048576) (machine : Machine) :
    window layout (kernelMapTemporaryMemory layout (fourKb * frame) machine) =
      frame := by
  rw [window, kernelGetTemporaryEntry, kernelMapTemporaryMemory,
    Machine.setEntry_mem, if_pos ⟨rfl, rfl⟩, ptEntry_frame]
  simp only [fourKb]
  omega

/-- Putting the temporary entry back undoes the opening of the window. -/
theorem kernelSetTemporaryEntry_restore (paddr : Nat) (machine : Machine) :
    kernelSetTemporaryEntry layout (kernelGetTemporaryEntry layout machine)
      (kernelMapTemporaryMemory layout paddr machine) = machine := by
  apply Machine.ext_mem
  · intro other position
    simp only [kernelSetTemporaryEntry, kernelGetTemporaryEntry,
      kernelMapTemporaryMemory, Machine.setEntry_mem]
    split_ifs with temporary
    · rw [temporary.1, temporary.2]
    · rfl
  · rfl
  · rfl
  · rfl

theorem blocked_window {machine : Machine} {paddr frame pdtIdx index : Nat} :
    Blocked layout (kernelMapTemporaryMemory layout paddr machine) frame
        pdtIdx index ↔
      Blocked layout machine frame pdtIdx index := by
  rw [Blocked, kernelMapTemporaryMemory, Machine.setEntry_mem, Blocked]
  by_cases temporary : frame = layout.kernelPt ∧ index = kernelTmpPtIdx
  · simp [temporary]
  · rw [if_neg temporary]

/-- `pt_map_memory` through the window, with the temporary entry restored. -/
theorem ptMapMemory_window (machine : Machine) {pdtIdx frame : Nat}
    (paddr vaddr : Nat) (rw pl : UInt8) (below : frame < 1048576)
    (sizeAligned : size % 4096 = 0) (sizeSmall : size < 4294967296) :
    ∃ count, TableRun layout machine frame pdtIdx (virtualToPtIdx vaddr) size
        count ∧
      ptMapMemory layout pdtIdx paddr vaddr size rw pl
          (kernelMapTemporaryMemory layout (fourKb * frame) machine) =
        (4096 * count,
          (kernelMapTemporaryMemory layout (fourKb * frame)
            machine).writeEntries frame (virtualToPtIdx vaddr) count
            (pageEntries paddr rw pl)) ∧
      ¬(layout.kernelPt = frame ∧ virtualToPtIdx vaddr ≤ kernelTmpPtIdx ∧
        kernelTmpPtIdx < virtualToPtIdx vaddr + count) := by
  have ptIdxSmall := virtualToPtIdx_lt vaddr
  have firstEq : 1024 - (numEntries - virtualToPtIdx vaddr) =
      virtualToPtIdx vaddr := by
    simp only [numEntries]
    omega
  have open_ : ((kernelMapTemporaryMemory layout (fourKb * frame)
      machine).mem layout.kernelPt kernelTmpPtIdx).isPresent = true := by
    rw [kernelMapTemporaryMemory, Machine.setEntry_mem, if_pos ⟨rfl, rfl⟩]
    exact (ptEntry_flags ..).1
  obtain ⟨count, mapped⟩ := ptMapLoop_spec pdtIdx rw pl sizeAligned sizeSmall
    paddr
    (show numEntries - virtualToPtIdx vaddr ≤ 1024 by
      simp only [numEntries]; omega)
    (window_kernelMapTemporaryMemory frame below machine) open_
    (show 0 % 4096 = 0 by rfl) (Nat.zero_le size)
  refine ⟨count, ⟨?_, ?_, ?_, ?_⟩, ?_, ?_⟩
  · have := mapped.inTable
    simp only [numEntries] at this
    omega
  · intro index lower upper
    rw [← blocked_window]
    exact mapped.free index (by omega) (by omega)
  · have := mapped.inSize
    omega
  · rcases mapped.stop with full | ended | stopped
    · exact Or.inl (by omega)
    · refine Or.inr (Or.inl ?_)
      simp only [numEntries] at ended
      omega
    · rw [firstEq, blocked_window] at stopped
      exact Or.inr (Or.inr stopped)
  · rw [ptMapMemory]
    refine Prod.ext ?_ ?_
    · rw [mapped.mapped]
      exact Nat.zero_add _
    · rw [mapped.effect, firstEq]
  · rintro ⟨same, lower, upper⟩
    exact mapped.free kernelTmpPtIdx (by omega) (by omega)
      (Or.inr (Or.inr ⟨same, rfl⟩))

/-- The rest of a call after a round. -/
def afterRound (layout : Layout) (pdt : Nat) (rw pl : UInt8)
    (fuel paddr vaddr size totalMappedSize mappedSize : Nat)
    (machine : Machine) : Option (Nat × Machine) :=
  if mappedSize = 0 then some (0, machine)
  else
    pdtMapLoop layout pdt rw pl fuel (w32 (paddr + mappedSize))
      (w32 (vaddr + mappedSize)) (size - mappedSize)
      (w32 (totalMappedSize + mappedSize)) machine

theorem openTable_existing {machine : Machine} {pdtIdx : Nat}
    (present : (machine.mem pdt pdtIdx).isPresent = true) :
    openTable layout pdt pdtIdx machine =
      ((machine.mem pdt pdtIdx).paddr,
        kernelMapTemporaryMemory layout
          (fourKb * (machine.mem pdt pdtIdx).frame) machine) := by
  rw [openTable, if_pos present, Entry.paddr_eq_frame]

theorem pdtMapLoop_existing {machine : Machine}
    {paddr vaddr : Nat} (pdtNotPt : pdt ≠ layout.kernelPt)
    (present : (machine.mem pdt (virtualToPdtIdx vaddr)).isPresent = true)
    (sizeAligned : size % 4096 = 0) (sizeSmall : size < 4294967296)
    (sizePos : size ≠ 0) :
    ∃ mapped after,
      MapRound layout pdt paddr vaddr size rw pl machine mapped after ∧
      mapped ≤ size ∧
      ∀ fuel total, pdtMapLoop layout pdt rw pl (fuel + 1) paddr vaddr size
          total machine =
        afterRound layout pdt rw pl fuel paddr vaddr size total mapped
          after := by
  obtain ⟨count, run, mapped, outside⟩ := ptMapMemory_window machine paddr
    vaddr rw pl (machine.mem pdt (virtualToPdtIdx vaddr)).frame_lt sizeAligned
    sizeSmall
  refine ⟨4096 * count, _, .existing present run, run.inSize, ?_⟩
  intro fuel total
  have restored := machine.writeEntries_restore (pageEntries paddr rw pl)
    (ptEntry (fourKb * (machine.mem pdt (virtualToPdtIdx vaddr)).frame) 1 0)
    outside
  have stillPresent : (((kernelMapTemporaryMemory layout
      (fourKb * (machine.mem pdt (virtualToPdtIdx vaddr)).frame)
      machine).writeEntries (machine.mem pdt (virtualToPdtIdx vaddr)).frame
        (virtualToPtIdx vaddr) count (pageEntries paddr rw pl)).mem pdt
        (virtualToPdtIdx vaddr)).isPresent = true := by
    simp only [Machine.writeEntries, kernelMapTemporaryMemory,
      Machine.setEntry_mem]
    split_ifs with written temporary
    · exact (ptEntry_flags ..).1
    · exact absurd temporary.1 pdtNotPt
    · exact present
  rw [pdtMapLoop, if_neg sizePos]
  simp only [openTable_existing present, present, Bool.not_true,
    Bool.false_eq_true, false_and, if_false, mapped, stillPresent, if_true]
  unfold afterRound
  split_ifs with none
  · rw [kernelSetTemporaryEntry, kernelGetTemporaryEntry,
      kernelMapTemporaryMemory, restored]
  · rw [kernelSetTemporaryEntry, kernelGetTemporaryEntry,
      kernelMapTemporaryMemory, restored]

theorem kernelMapTemporaryMemory_zeroFrame {machine : Machine}
    {frame paddr : Nat} (different : layout.kernelPt ≠ frame) :
    (kernelMapTemporaryMemory layout paddr machine).zeroFrame frame =
      kernelMapTemporaryMemory layout paddr (machine.zeroFrame frame) := by
  apply Machine.ext_mem
  · intro other position
    simp only [kernelMapTemporaryMemory, Machine.setEntry_mem,
      Machine.zeroFrame_mem]
    split_ifs with zeroed written
    · exact absurd (written.1.symm.trans zeroed) different
    · rfl
    · rfl
    · rfl
  · rfl
  · rfl
  · rfl

theorem pfaAllocate_one (ok : layout.Ok) (machine : Machine) :
    pfaAllocate layout 1 machine = (0, machine) ∨
      ∃ frame, (pfaAllocate layout 1 machine).1 = fourKb * frame ∧
        fourKb * frame ≠ 0 ∧ frame < 1048576 ∧
        frame ≠ layout.kernelPt ∧ frame ≠ layout.kernelPdt ∧
        FreeFrame layout machine frame ∧
        TakesFrames layout 1 machine (fourKb * frame)
          (pfaAllocate layout 1 machine).2 frame := by
  cases pfaAllocate_frames ok.framesOk (Nat.le_refl 1) (by decide) machine with
  | inl failed => exact Or.inl failed
  | inr success =>
      obtain ⟨frame, taken⟩ := success
      have address := taken.address
      have notNull := taken.notNull
      have wasFree := taken.wasFree frame (Nat.le_refl _) (Nat.lt_succ_self _)
      rw [address] at notNull taken
      refine Or.inr ⟨frame, address, notNull, ?_, ?_, ?_, wasFree, taken⟩
      · exact (ok.framesOk.unordered.frame_bounds wasFree.1).2
      · rintro rfl
        exact ok.kernelPtUnmanaged wasFree.1
      · rintro rfl
        exact ok.kernelPdtUnmanaged wasFree.1

theorem pdtMapLoop_opens {machine allocated : Machine}
    {paddr vaddr frame : Nat} (pdtNotPt : pdt ≠ layout.kernelPt)
    (absent : (machine.mem pdt (virtualToPdtIdx vaddr)).isPresent = false)
    (sizeAligned : size % 4096 = 0) (sizeSmall : size < 4294967296)
    (sizePos : size ≠ 0)
    (allocatedPair : pfaAllocate layout 1 machine =
      (fourKb * frame, allocated))
    (memEq : allocated.mem = machine.mem) (notNull : fourKb * frame ≠ 0)
    (below : frame < 1048576) (notPt : frame ≠ layout.kernelPt)
    (notPdt : frame ≠ pdt) :
    ∃ count,
      TableRun layout (allocated.zeroFrame frame) frame
        (virtualToPdtIdx vaddr) (virtualToPtIdx vaddr) size count ∧
      ∀ fuel total, pdtMapLoop layout pdt rw pl (fuel + 1) paddr vaddr size
          total machine =
        afterRound layout pdt rw pl fuel paddr vaddr size total (4096 * count)
          (if count = 0 then allocated.zeroFrame frame
          else ((allocated.zeroFrame frame).writeEntries frame
            (virtualToPtIdx vaddr) count (pageEntries paddr rw pl)).setEntry
            pdt (virtualToPdtIdx vaddr)
            (pdtEntry (fourKb * frame) 0 rw pl)) := by
  obtain ⟨count, run, mapped, outside⟩ := ptMapMemory_window
    (allocated.zeroFrame frame) paddr vaddr rw pl below sizeAligned sizeSmall
  refine ⟨count, run, ?_⟩
  intro fuel total
  have opened : openTable layout pdt (virtualToPdtIdx vaddr) machine =
      (fourKb * frame, kernelMapTemporaryMemory layout (fourKb * frame)
        (allocated.zeroFrame frame)) := by
    rw [openTable, if_neg (by simp [absent]), allocatedPair]
    simp only [if_neg notNull, window_kernelMapTemporaryMemory frame below]
    rw [kernelMapTemporaryMemory_zeroFrame (Ne.symm notPt)]
  have temporary : kernelGetTemporaryEntry layout machine =
      (allocated.zeroFrame frame).mem layout.kernelPt kernelTmpPtIdx := by
    rw [Machine.zeroFrame_mem, if_neg (Ne.symm notPt), memEq]
    rfl
  have restored := (allocated.zeroFrame frame).writeEntries_restore
    (pageEntries paddr rw pl) (ptEntry (fourKb * frame) 1 0) outside
  have stillAbsent : (((kernelMapTemporaryMemory layout (fourKb * frame)
      (allocated.zeroFrame frame)).writeEntries frame
        (virtualToPtIdx vaddr) count (pageEntries paddr rw pl)).mem pdt
        (virtualToPdtIdx vaddr)).isPresent = false := by
    simp only [Machine.writeEntries, kernelMapTemporaryMemory,
      Machine.setEntry_mem, Machine.zeroFrame_mem]
    rw [if_neg (fun written => notPdt written.1.symm),
      if_neg (fun tmp => pdtNotPt tmp.1), if_neg (Ne.symm notPdt), memEq]
    exact absent
  rw [pdtMapLoop, if_neg sizePos]
  by_cases nothing : count = 0
  · subst nothing
    rw [Machine.writeEntries_zero, Machine.writeEntries_zero] at restored
    rw [Machine.writeEntries_zero] at mapped
    simp only [opened, notNull, and_false, if_false, mapped, Nat.mul_zero,
      if_true, afterRound]
    rw [kernelSetTemporaryEntry, temporary, kernelMapTemporaryMemory,
      restored]
  · have notZero : 4096 * count ≠ 0 := by omega
    simp only [opened, notNull, and_false, if_false, mapped, notZero,
      stillAbsent, Bool.false_eq_true, afterRound, nothing]
    have commuted : kernelSetTemporaryEntry layout
        (kernelGetTemporaryEntry layout machine)
        (((kernelMapTemporaryMemory layout (fourKb * frame)
          (allocated.zeroFrame frame)).writeEntries frame
            (virtualToPtIdx vaddr) count
            (pageEntries paddr rw pl)).setEntry pdt (virtualToPdtIdx vaddr)
          (pdtEntry (fourKb * frame) 0 rw pl)) =
        ((allocated.zeroFrame frame).writeEntries frame
          (virtualToPtIdx vaddr) count (pageEntries paddr rw pl)).setEntry
          pdt (virtualToPdtIdx vaddr)
          (pdtEntry (fourKb * frame) 0 rw pl) := by
      rw [← restored, temporary, kernelSetTemporaryEntry,
        kernelMapTemporaryMemory]
      apply Machine.ext_mem
      · intro other position
        simp only [Machine.setEntry_mem]
        by_cases atTmp : other = layout.kernelPt ∧
            position = kernelTmpPtIdx
        · have notSlot : ¬(other = pdt ∧
              position = virtualToPdtIdx vaddr) := fun slot =>
            pdtNotPt (slot.1.symm.trans atTmp.1)
          simp only [if_pos atTmp, if_neg notSlot]
        · simp only [if_neg atTmp]
      · rfl
      · rfl
      · rfl
    rw [commuted]

theorem pdtMapLoop_absent (ok : layout.Ok) {machine : Machine}
    {paddr vaddr : Nat} (pdtNotPt : pdt ≠ layout.kernelPt)
    (pdtTaken : ¬FreeFrame layout machine pdt)
    (absent : (machine.mem pdt (virtualToPdtIdx vaddr)).isPresent = false)
    (sizeAligned : size % 4096 = 0) (sizeSmall : size < 4294967296)
    (sizePos : size ≠ 0) :
    ∃ mapped after,
      MapRound layout pdt paddr vaddr size rw pl machine mapped after ∧
      mapped ≤ size ∧
      ∀ fuel total, pdtMapLoop layout pdt rw pl (fuel + 1) paddr vaddr size
          total machine =
        afterRound layout pdt rw pl fuel paddr vaddr size total mapped
          after := by
  rcases pfaAllocate_one ok machine with failed |
    ⟨frame, address, notNull, below, notPt, _, wasFree, taken⟩
  · refine ⟨0, machine, .noFrame absent failed, Nat.zero_le _, ?_⟩
    intro fuel total
    rw [pdtMapLoop, if_neg sizePos]
    simp [openTable, absent, failed, afterRound]
  · generalize allocatedEq : (pfaAllocate layout 1 machine).2 = allocated at *
    have notPdt : frame ≠ pdt := by
      rintro rfl
      exact pdtTaken wasFree
    have memEq : allocated.mem = machine.mem := by
      rw [taken.unchanged]
    have allocatedPair : pfaAllocate layout 1 machine =
        (fourKb * frame, allocated) := Prod.ext address allocatedEq
    obtain ⟨count, run, unfolded⟩ := @pdtMapLoop_opens layout pdt size rw pl
      machine allocated paddr vaddr frame pdtNotPt absent sizeAligned
      sizeSmall sizePos allocatedPair memEq notNull below notPt notPdt
    by_cases nothing : count = 0
    · subst nothing
      have ptIdxSmall := virtualToPtIdx_lt vaddr
      have tmpSlot : virtualToPdtIdx vaddr = kernelPtPdtIdx ∧
          virtualToPtIdx vaddr = kernelTmpPtIdx := by
        rcases run.stop with full | ended | blocked | atTmp | same
        · omega
        · omega
        · simp [Machine.zeroFrame_mem] at blocked
        · exact atTmp
        · exact absurd same.1.symm notPt
      exact ⟨0, _, .leaked absent taken tmpSlot.1 tmpSlot.2, Nat.zero_le _,
        unfolded⟩
    · simp only [if_neg nothing] at unfolded
      exact ⟨4096 * count, _,
        .fresh absent allocatedPair taken (Nat.pos_of_ne_zero nothing) run,
        run.inSize, unfolded⟩

/-- Every round of `pdt_map_memory` is one of the four kinds. -/
theorem pdtMapLoop_round (ok : layout.Ok) {machine : Machine}
    (paddr vaddr : Nat) (rw pl : UInt8) (pdtNotPt : pdt ≠ layout.kernelPt)
    (pdtTaken : ¬FreeFrame layout machine pdt)
    (sizeAligned : size % 4096 = 0) (sizeSmall : size < 4294967296)
    (sizePos : size ≠ 0) :
    ∃ mapped after,
      MapRound layout pdt paddr vaddr size rw pl machine mapped after ∧
      mapped ≤ size ∧
      ∀ fuel total, pdtMapLoop layout pdt rw pl (fuel + 1) paddr vaddr size
          total machine =
        afterRound layout pdt rw pl fuel paddr vaddr size total mapped
          after := by
  cases present : (machine.mem pdt (virtualToPdtIdx vaddr)).isPresent with
  | true =>
      exact pdtMapLoop_existing pdtNotPt present sizeAligned sizeSmall sizePos
  | false =>
      exact pdtMapLoop_absent ok pdtNotPt pdtTaken present sizeAligned
        sizeSmall sizePos

/-- The loop rule of `pdt_map_memory`.  The assertion `inv` speaks about the
arguments of a round, and is kept by every round that does not end the call.
The call always returns. -/
theorem pdtMapLoop_rule (ok : layout.Ok) (pdtNotPt : pdt ≠ layout.kernelPt)
    (inv : Nat → Nat → Nat → Nat → Machine → Prop)
    (post : Nat → Machine → Prop)
    (pdtTaken : ∀ paddr vaddr size total machine,
      inv paddr vaddr size total machine → ¬FreeFrame layout machine pdt)
    (finish : ∀ paddr vaddr total machine,
      inv paddr vaddr 0 total machine → post total machine)
    (fail : ∀ paddr vaddr size total machine after,
      inv paddr vaddr size total machine → size ≠ 0 →
      MapRound layout pdt paddr vaddr size rw pl machine 0 after →
      post 0 after)
    (step : ∀ paddr vaddr size total machine mapped after,
      inv paddr vaddr size total machine → size ≠ 0 → mapped ≠ 0 →
      mapped ≤ size →
      MapRound layout pdt paddr vaddr size rw pl machine mapped after →
      inv (w32 (paddr + mapped)) (w32 (vaddr + mapped)) (size - mapped)
        (w32 (total + mapped)) after) :
    ∀ {fuel paddr vaddr size total : Nat} {machine : Machine},
      inv paddr vaddr size total machine → size % 4096 = 0 →
      size < 4294967296 → size / 4096 < fuel →
      ∃ result after, pdtMapLoop layout pdt rw pl fuel paddr vaddr size total
          machine = some (result, after) ∧ post result after := by
  intro fuel
  induction fuel with
  | zero =>
      intro paddr vaddr size total machine _ _ _ enough
      omega
  | succ fuel induction =>
      intro paddr vaddr size total machine holds aligned small enough
      by_cases done : size = 0
      · subst done
        refine ⟨total, machine, ?_, finish _ _ _ _ holds⟩
        rw [pdtMapLoop, if_pos rfl]
      · obtain ⟨mapped, after, round, within, unfolded⟩ :=
          pdtMapLoop_round ok paddr vaddr rw pl pdtNotPt
            (pdtTaken _ _ _ _ _ holds) aligned small done
        rw [unfolded fuel total, afterRound]
        by_cases ended : mapped = 0
        · subst ended
          rw [if_pos rfl]
          exact ⟨0, after, rfl, fail _ _ _ _ _ _ holds done round⟩
        · rw [if_neg ended]
          have whole : mapped % 4096 = 0 := by
            cases round
            · rfl
            · omega
            · rfl
            · omega
          exact induction (step _ _ _ _ _ _ _ holds done ended within round)
            (by omega) (by omega) (by omega)

/-! ## Unmapping -/

/-- The entries of a slot that unmapping may clear. -/
def slotEntries (pdtIdx : Nat) : Nat :=
  if pdtIdx = kernelPtPdtIdx then 1023 else 1024

/-- The number of pages that one round passes at an address. -/
def chunkPages (size vaddr : Nat) : Nat :=
  min (size / fourKb)
    (slotEntries (virtualToPdtIdx vaddr) - virtualToPtIdx vaddr)

theorem slotEntries_le (pdtIdx : Nat) : slotEntries pdtIdx ≤ 1024 := by
  rw [slotEntries]
  split_ifs
  · decide
  · exact Nat.le_refl _

theorem PtUnmapped.count_eq {pdtIdx pt ptIdx count : Nat}
    {machine : Machine} {result : Nat × Machine}
    (unmapped : PtUnmapped pdtIdx pt size (1024 - ptIdx) 0 machine result
      count)
    (inTable : ptIdx < 1024) (sizeAligned : size % 4096 = 0) :
    count = min (size / fourKb) (slotEntries pdtIdx - ptIdx) := by
  have remaining := unmapped.inTable
  have inSize := unmapped.inSize
  have stop := unmapped.stop
  by_cases kernel : pdtIdx = kernelPtPdtIdx
  · have below : ¬(1024 - (1024 - ptIdx) ≤ 1023 ∧
        1023 < 1024 - (1024 - ptIdx) + count) := by
      rintro ⟨lower, upper⟩
      exact unmapped.notTemporary 1023 lower upper ⟨kernel, rfl⟩
    simp only [kernel, true_and, kernelTmpPtIdx] at stop
    rw [slotEntries, if_pos kernel]
    simp only [fourKb]
    omega
  · simp only [kernel, false_and, or_false] at stop
    rw [slotEntries, if_neg kernel]
    simp only [fourKb]
    omega

/-- `pt_unmap_memory` on a table that has just been put into the window. -/
theorem ptUnmapMemory_window (machine : Machine) (vaddr : Nat) {frame : Nat}
    (below : frame < 1048576) (sizeAligned : size % 4096 = 0)
    (sizeSmall : size < 4294967296) :
    ptUnmapMemory layout (virtualToPdtIdx vaddr) vaddr size
        (kernelMapTemporaryMemory layout (fourKb * frame) machine) =
      (4096 * chunkPages size vaddr,
        (kernelMapTemporaryMemory layout (fourKb * frame)
          machine).clearEntries frame (virtualToPtIdx vaddr)
            (chunkPages size vaddr)) := by
  have ptIdxSmall := virtualToPtIdx_lt vaddr
  have shown : window layout (kernelMapTemporaryMemory layout
      (fourKb * frame) machine) = frame :=
    window_kernelMapTemporaryMemory frame below machine
  obtain ⟨count, unmapped⟩ := ptUnmapLoop_spec (virtualToPdtIdx vaddr)
    sizeAligned sizeSmall
    (show numEntries - virtualToPtIdx vaddr ≤ 1024 by
      simp only [numEntries]; omega)
    (fun _ => shown) (show 0 % 4096 = 0 by rfl) (Nat.zero_le size)
  have firstEq : 1024 - (numEntries - virtualToPtIdx vaddr) =
      virtualToPtIdx vaddr := by
    simp only [numEntries]
    omega
  have countEq : count = chunkPages size vaddr :=
    unmapped.count_eq ptIdxSmall sizeAligned
  rw [← countEq, ptUnmapMemory]
  refine Prod.ext ?_ ?_
  · rw [unmapped.freed]
    exact Nat.zero_add _
  · rw [unmapped.effect, firstEq]

/-- What a round leaves of the table of an address: entries from that address
on are cleared, and the temporary entry is put back. -/
def Machine.clearTable (layout : Layout) (pdt vaddr size : Nat)
    (machine : Machine) : Machine :=
  kernelSetTemporaryEntry layout (kernelGetTemporaryEntry layout machine)
    (machine.clearEntries (machine.mem pdt (virtualToPdtIdx vaddr)).frame
      (virtualToPtIdx vaddr) (chunkPages size vaddr))

theorem pdtUnmapStep_absent {vaddr : Nat} {machine : Machine}
    (absent : (machine.mem pdt (virtualToPdtIdx vaddr)).isPresent = false)
    (freedSize : Nat) :
    pdtUnmapStep layout pdt size (vaddr, freedSize, machine) =
      (alignUp vaddr fourMb, freedSize, machine) := by
  simp [pdtUnmapStep, absent]

theorem pdtUnmapStep_eq {vaddr : Nat} {machine : Machine}
    (present : (machine.mem pdt (virtualToPdtIdx vaddr)).isPresent = true)
    (sizeAligned : size % 4096 = 0) (sizeSmall : size < 4294967296)
    (freedSize : Nat) :
    pdtUnmapStep layout pdt size (vaddr, freedSize, machine) =
      (w32 (vaddr + 4096 * chunkPages size vaddr),
        4096 * chunkPages size vaddr,
        if 4096 * chunkPages size vaddr = fourMb ∧
            virtualToPdtIdx vaddr ≠ kernelPtPdtIdx then
          (pfaFree layout (fourKb * (machine.mem pdt
            (virtualToPdtIdx vaddr)).frame)
            (machine.clearTable layout pdt vaddr size)).setEntry pdt
              (virtualToPdtIdx vaddr) Entry.empty
        else machine.clearTable layout pdt vaddr size) := by
  have freed := @ptUnmapMemory_window layout size machine vaddr _
    (Entry.frame_lt (machine.mem pdt (virtualToPdtIdx vaddr)))
    sizeAligned sizeSmall
  simp only [pdtUnmapStep, present, if_true, Entry.paddr_eq_frame, freed]
  rw [kernelSetTemporaryEntry, kernelMapTemporaryMemory,
    Machine.clearEntries_reopen]
  rfl

/-- One round of `pdt_unmap_memory` on a present slot, with the number of
entries it passes. -/
inductive UnmapRound (layout : Layout) (pdt vaddr size : Nat)
    (machine : Machine) : Nat → Machine → Prop where
  | cleared {count : Nat} :
      (machine.mem pdt (virtualToPdtIdx vaddr)).isPresent = true →
      virtualToPtIdx vaddr + count ≤ 1024 →
      (∀ index, virtualToPtIdx vaddr ≤ index →
        index < virtualToPtIdx vaddr + count →
        ¬(virtualToPdtIdx vaddr = kernelPtPdtIdx ∧
          index = kernelTmpPtIdx)) →
      4096 * count ≤ size →
      (4096 * count = size ∨ virtualToPtIdx vaddr + count = 1024 ∨
        virtualToPdtIdx vaddr = kernelPtPdtIdx ∧
          virtualToPtIdx vaddr + count = kernelTmpPtIdx) →
      (count = 1024 → virtualToPdtIdx vaddr = kernelPtPdtIdx) →
      UnmapRound layout pdt vaddr size machine count
        (machine.clearEntries
          (machine.mem pdt (virtualToPdtIdx vaddr)).frame
          (virtualToPtIdx vaddr) count)
  | closed :
      (machine.mem pdt (virtualToPdtIdx vaddr)).isPresent = true →
      virtualToPtIdx vaddr = 0 →
      virtualToPdtIdx vaddr ≠ kernelPtPdtIdx →
      fourMb ≤ size →
      UnmapRound layout pdt vaddr size machine 1024
        ((pfaFree layout
          (fourKb * (machine.mem pdt (virtualToPdtIdx vaddr)).frame)
          (machine.clearEntries
            (machine.mem pdt (virtualToPdtIdx vaddr)).frame 0 1024)).setEntry
          pdt (virtualToPdtIdx vaddr) Entry.empty)

/-- Where the kernel's page table is reached through its own slot only, the
temporary entry is not among those cleared. -/
theorem Machine.clearTable_eq {vaddr : Nat} {machine : Machine}
    (slotOk : layout.kernelPt =
        (machine.mem pdt (virtualToPdtIdx vaddr)).frame →
      virtualToPdtIdx vaddr = kernelPtPdtIdx) :
    machine.clearTable layout pdt vaddr size =
      machine.clearEntries (machine.mem pdt (virtualToPdtIdx vaddr)).frame
        (virtualToPtIdx vaddr) (chunkPages size vaddr) := by
  apply Machine.clearEntries_restore
  rintro ⟨isKernel, lower, upper⟩
  rw [chunkPages, slotEntries, if_pos (slotOk isKernel)] at upper
  simp only [kernelTmpPtIdx] at *
  omega

theorem pdtUnmapStep_present {vaddr : Nat} {machine : Machine}
    (present : (machine.mem pdt (virtualToPdtIdx vaddr)).isPresent = true)
    (slotOk : layout.kernelPt =
        (machine.mem pdt (virtualToPdtIdx vaddr)).frame →
      virtualToPdtIdx vaddr = kernelPtPdtIdx)
    (sizeAligned : size % 4096 = 0) (sizeSmall : size < 4294967296) :
    ∃ count after, UnmapRound layout pdt vaddr size machine count after ∧
      ∀ freedSize, pdtUnmapStep layout pdt size (vaddr, freedSize, machine) =
        (w32 (vaddr + 4096 * count), 4096 * count, after) := by
  have ptIdxSmall := virtualToPtIdx_lt vaddr
  have cleared : machine.clearTable layout pdt vaddr size = _ :=
    Machine.clearTable_eq slotOk
  by_cases whole : 4096 * chunkPages size vaddr = fourMb ∧
      virtualToPdtIdx vaddr ≠ kernelPtPdtIdx
  · have entries := slotEntries_le (virtualToPdtIdx vaddr)
    have countEq : chunkPages size vaddr = 1024 := by
      simp only [fourMb] at whole
      omega
    have firstZero : virtualToPtIdx vaddr = 0 := by
      rw [chunkPages] at countEq
      omega
    refine ⟨1024, _, .closed present firstZero whole.2 ?_, ?_⟩
    · rw [chunkPages] at countEq
      simp only [fourMb, fourKb] at *
      omega
    · intro freedSize
      rw [pdtUnmapStep_eq present sizeAligned sizeSmall, if_pos whole,
        cleared, countEq, firstZero]
  · refine ⟨chunkPages size vaddr, _,
      .cleared present ?_ ?_ ?_ ?_ ?_, ?_⟩
    · rw [chunkPages]
      have entries := slotEntries_le (virtualToPdtIdx vaddr)
      omega
    · intro index lower upper temporary
      rw [chunkPages, slotEntries, if_pos temporary.1] at upper
      simp only [kernelTmpPtIdx] at temporary
      omega
    · rw [chunkPages]
      simp only [fourKb]
      omega
    · rw [chunkPages, slotEntries]
      split_ifs with kernel
      · simp only [fourKb, kernelTmpPtIdx]
        omega
      · simp only [fourKb]
        omega
    · intro full
      by_contra notKernel
      exact whole ⟨by rw [full], notKernel⟩
    · intro freedSize
      rw [pdtUnmapStep_eq present sizeAligned sizeSmall, if_neg whole,
        cleared]

/-- Every address that the loop of `pdt_unmap_memory` works at is allowed. -/
def WorksAt (layout : Layout) (pdt size endVaddr : Nat)
    (allowed : Nat → Prop) (state : Nat × Nat × Machine) : Prop :=
  ∀ steps, (∀ earlier, earlier ≤ steps →
      ((pdtUnmapStep layout pdt size)^[earlier] state).1 < endVaddr) →
    allowed ((pdtUnmapStep layout pdt size)^[steps] state).1

theorem WorksAt.here {endVaddr : Nat} {allowed : Nat → Prop}
    {state : Nat × Nat × Machine}
    (worksAt : WorksAt layout pdt size endVaddr allowed state)
    (unfinished : state.1 < endVaddr) : allowed state.1 := by
  apply worksAt 0
  intro earlier first
  rw [Nat.le_zero.mp first]
  exact unfinished

theorem WorksAt.next {endVaddr : Nat} {allowed : Nat → Prop}
    {state : Nat × Nat × Machine}
    (worksAt : WorksAt layout pdt size endVaddr allowed state)
    (unfinished : state.1 < endVaddr) :
    WorksAt layout pdt size endVaddr allowed
      (pdtUnmapStep layout pdt size state) := by
  intro steps below
  apply worksAt (steps + 1)
  intro earlier within
  cases earlier with
  | zero => exact unfinished
  | succ earlier => exact below earlier (Nat.le_of_succ_le_succ within)

theorem WorksAt.mono {endVaddr : Nat} {allowed weaker : Nat → Prop}
    {state : Nat × Nat × Machine}
    (worksAt : WorksAt layout pdt size endVaddr allowed state)
    (implied : ∀ address, address < endVaddr → allowed address →
      weaker address) :
    WorksAt layout pdt size endVaddr weaker state := by
  intro steps below
  exact implied _ (below steps (Nat.le_refl _)) (worksAt steps below)

/-- The loop rule of `pdt_unmap_memory`, for calls that return. -/
theorem pdtUnmapLoop_rule {endVaddr : Nat} {allowed : Nat → Prop}
    (inv : Nat → Machine → Prop) (sizeAligned : size % 4096 = 0)
    (sizeSmall : size < 4294967296)
    (slotOk : ∀ vaddr machine, inv vaddr machine → vaddr < endVaddr →
      allowed vaddr →
      (machine.mem pdt (virtualToPdtIdx vaddr)).isPresent = true →
      layout.kernelPt = (machine.mem pdt (virtualToPdtIdx vaddr)).frame →
      virtualToPdtIdx vaddr = kernelPtPdtIdx)
    (skip : ∀ vaddr machine, inv vaddr machine → vaddr < endVaddr →
      allowed vaddr →
      (machine.mem pdt (virtualToPdtIdx vaddr)).isPresent = false →
      inv (alignUp vaddr fourMb) machine)
    (step : ∀ vaddr machine count after, inv vaddr machine →
      vaddr < endVaddr → allowed vaddr →
      UnmapRound layout pdt vaddr size machine count after →
      inv (w32 (vaddr + 4096 * count)) after) :
    ∀ {fuel vaddr freedSize result : Nat} {machine after : Machine},
      inv vaddr machine →
      WorksAt layout pdt size endVaddr allowed (vaddr, freedSize, machine) →
      pdtUnmapLoop layout pdt size endVaddr fuel
        (vaddr, freedSize, machine) = some (result, after) →
      ∃ last, endVaddr ≤ last ∧ inv last after := by
  intro fuel
  induction fuel with
  | zero =>
      intro vaddr freedSize result machine after _ _ success
      cases success
  | succ fuel induction =>
      intro vaddr freedSize result machine after holds worksAt success
      rw [pdtUnmapLoop] at success
      by_cases unfinished : vaddr < endVaddr
      · have allowedHere := worksAt.here unfinished
        have later := worksAt.next unfinished
        rw [if_pos unfinished] at success
        cases present :
            (machine.mem pdt (virtualToPdtIdx vaddr)).isPresent with
        | true =>
            obtain ⟨count, middle, round, unfolded⟩ :=
              pdtUnmapStep_present present
                (slotOk vaddr machine holds unfinished allowedHere present)
                sizeAligned sizeSmall
            rw [unfolded] at success later
            exact induction (step _ _ _ _ holds unfinished allowedHere round)
              later success
        | false =>
            rw [pdtUnmapStep_absent present] at success later
            exact induction (skip _ _ holds unfinished allowedHere present)
              later success
      · rw [if_neg unfinished] at success
        cases success
        exact ⟨vaddr, Nat.le_of_not_lt unfinished, holds⟩

end Rounds

end Newbos
