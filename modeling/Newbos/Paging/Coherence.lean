import Newbos.Paging.TableOwnership

/-!
# The kernel half of the active directory

`pdt_load_process_pdt` copies the kernel's directory entries into a process
directory.  Mapping and unmapping kernel memory edit `kernel_pdt` only, so the
copy stays exact as long as no slot is opened or closed.
-/

namespace Newbos

/-- A mapping call adds an entry to `kernel_pdt`: some page lies in an empty
slot, no earlier page stops the call, and there is a frame for the page
table. -/
def MapOpens (layout : Layout) (vaddr size : Nat) (machine : Machine) :
    Prop :=
  ∃ page, page < alignUp size fourKb / fourKb ∧
    (machine.mem layout.kernelPdt
      (virtualToPdtIdx (vaddr + 4096 * page))).isPresent = false ∧
    (∀ earlier, earlier < page →
      (machine.mem layout.kernelPdt
        (virtualToPdtIdx (vaddr + 4096 * earlier))).isPresent = true ∧
      ¬PageTaken layout machine (virtualToPdtIdx (vaddr + 4096 * earlier))
        (virtualToPtIdx (vaddr + 4096 * earlier))) ∧
    (pfaAllocate layout 1 machine).1 ≠ 0

/-- An unmapping call that returns removes an entry from `kernel_pdt`: it
clears a whole slot, and its end is below the end of the address space. -/
def UnmapCloses (vaddr size : Nat) : Prop :=
  fourMb ≤ alignUp size fourKb ∧ vaddr + alignUp size fourKb < 4294967296

section Pages

variable {vaddr : Nat}

theorem page_index_injective {first second : Nat}
    (below : vaddr + 4096 * second < 4294967296) (order : first ≤ second)
    (sameSlot : virtualToPdtIdx (vaddr + 4096 * first) =
      virtualToPdtIdx (vaddr + 4096 * second)) :
    virtualToPtIdx (vaddr + 4096 * second) =
      virtualToPtIdx (vaddr + 4096 * first) + (second - first) := by
  rw [virtualToPdtIdx_eq, virtualToPdtIdx_eq] at sameSlot
  rw [virtualToPtIdx_eq, virtualToPtIdx_eq]
  omega

end Pages

namespace Ownership

section Map

variable {own : Ownership} {layout : Layout} {machine middle after : Machine}
  {vaddr bytes : Nat}

/-- The first `pages` pages of a mapping call lie in slots that were open from
the start.  Nothing else has changed. -/
structure MappedSoFar (own : Ownership) (layout : Layout)
    (machine : Machine) (vaddr bytes pages : Nat) (middle : Machine) :
    Prop where
  holds : own.Holds layout middle
  directory : middle.mem layout.kernelPdt = machine.mem layout.kernelPdt
  bits : middle.bits = machine.bits
  mapped : ∀ page, page < pages →
    (machine.mem layout.kernelPdt
      (virtualToPdtIdx (vaddr + 4096 * page))).isPresent = true ∧
    ¬PageTaken layout machine (virtualToPdtIdx (vaddr + 4096 * page))
      (virtualToPtIdx (vaddr + 4096 * page))
  later : ∀ page, pages ≤ page → 4096 * page < bytes →
    (machine.mem layout.kernelPdt
      (virtualToPdtIdx (vaddr + 4096 * page))).isPresent = true →
    middle.mem (machine.mem layout.kernelPdt
        (virtualToPdtIdx (vaddr + 4096 * page))).frame
        (virtualToPtIdx (vaddr + 4096 * page)) =
      machine.mem (machine.mem layout.kernelPdt
        (virtualToPdtIdx (vaddr + 4096 * page))).frame
        (virtualToPtIdx (vaddr + 4096 * page))

theorem MappedSoFar.start (holds : own.Holds layout machine) :
    MappedSoFar own layout machine vaddr bytes 0 machine :=
  ⟨holds, rfl, rfl, fun _ impossible => absurd impossible (Nat.not_lt_zero _),
    fun _ _ _ _ => rfl⟩

theorem MappedSoFar.existing (lawful : own.Lawful layout)
    (half : own.KernelHalf layout) {pages count size paddr : Nat}
    {rw pl : UInt8}
    (soFar : MappedSoFar own layout machine vaddr bytes pages middle)
    (below : vaddr + bytes ≤ 4294967296)
    (inBytes : 4096 * pages + size = bytes)
    (kept : own.Holds layout (middle.writeEntries
      (middle.mem layout.kernelPdt
        (virtualToPdtIdx (vaddr + 4096 * pages))).frame
      (virtualToPtIdx (vaddr + 4096 * pages)) count
      (pageEntries paddr rw pl)))
    (present : (middle.mem layout.kernelPdt
      (virtualToPdtIdx (vaddr + 4096 * pages))).isPresent = true)
    (run : TableRun layout middle (middle.mem layout.kernelPdt
        (virtualToPdtIdx (vaddr + 4096 * pages))).frame
      (virtualToPdtIdx (vaddr + 4096 * pages))
      (virtualToPtIdx (vaddr + 4096 * pages)) size count) :
    MappedSoFar own layout machine vaddr bytes (pages + count)
      (middle.writeEntries (middle.mem layout.kernelPdt
          (virtualToPdtIdx (vaddr + 4096 * pages))).frame
        (virtualToPtIdx (vaddr + 4096 * pages)) count
        (pageEntries paddr rw pl)) := by
  have slot := half.owns (virtualToPdtIdx_lt (vaddr + 4096 * pages))
  have notDirectory := soFar.holds.table_notDirectory lawful slot present
  have inTable := run.inTable
  have inSize := run.inSize
  have sameSlot : ∀ step, step < count →
      virtualToPdtIdx (vaddr + 4096 * (pages + step)) =
        virtualToPdtIdx (vaddr + 4096 * pages) ∧
      virtualToPtIdx (vaddr + 4096 * (pages + step)) =
        virtualToPtIdx (vaddr + 4096 * pages) + step := by
    intro step within
    rw [Nat.mul_add, ← Nat.add_assoc]
    exact ⟨virtualToPdtIdx_offset (by omega),
      (page_idx (by omega)).2⟩
  have directory := soFar.directory
  rw [directory] at present run notDirectory kept ⊢
  refine ⟨kept, ?_, soFar.bits, ?_, ?_⟩
  · rw [writeEntries_elsewhere _ _ _ _ _ _ (Ne.symm notDirectory.1),
      directory]
  · intro page within
    by_cases earlier : page < pages
    · exact soFar.mapped page earlier
    · obtain ⟨step, rfl⟩ : ∃ step, page = pages + step :=
        ⟨page - pages, by omega⟩
      obtain ⟨slotEq, indexEq⟩ := sameSlot step (by omega)
      have same := soFar.later (pages + step) (by omega) (by omega)
      rw [slotEq, indexEq] at same ⊢
      refine ⟨present, ?_⟩
      rintro ⟨_, blocked⟩
      apply run.free _ (Nat.le_add_right _ step) (by omega)
      rw [Blocked, same present]
      exact blocked
  · intro page later inside isPresent
    rw [← soFar.later page (by omega) inside isPresent]
    simp only [Machine.writeEntries]
    rw [if_neg]
    rintro ⟨sameTable, lower, upper⟩
    -- The same table is the same slot, where later pages come later.
    have samePage := soFar.holds.slot_unique lawful
      (half.owns (virtualToPdtIdx_lt (vaddr + 4096 * page))) slot
      (by rw [directory]; exact isPresent) (by rw [directory]; exact present)
      (by rw [directory]; exact sameTable)
    have order := page_index_injective (by omega) (show pages ≤ page by omega)
      samePage.2.symm
    omega

theorem MappedSoFar.round (lawful : own.Lawful layout)
    (half : own.KernelHalf layout) {pages paddr size mapped whole : Nat}
    {rw pl : UInt8}
    (soFar : MappedSoFar own layout machine vaddr (alignUp whole fourKb) pages
      middle)
    (below : vaddr + alignUp whole fourKb ≤ 4294967296)
    (opensNone : ¬MapOpens layout vaddr whole machine)
    (inBytes : 4096 * pages + size = alignUp whole fourKb)
    (sizePos : size ≠ 0)
    (allowed : own.MapAllowed layout layout.kernelPdt paddr
      (vaddr + 4096 * pages) size rw pl)
    (round : MapRound layout layout.kernelPdt paddr (vaddr + 4096 * pages)
      size rw pl middle mapped after) :
    ∃ count, mapped = 4096 * count ∧
      MappedSoFar own layout machine vaddr (alignUp whole fourKb)
        (pages + count) after := by
  have kept := (soFar.holds.mapRound lawful allowed sizePos round).1
  have aligned := alignUp_fourKb_mod whole
  cases round with
  | noFrame _ _ => exact ⟨0, rfl, soFar⟩
  | @existing count present run =>
      exact ⟨count, rfl,
        soFar.existing lawful half below inBytes kept present run⟩
  | leaked absent _ isKernel _ =>
      have present := soFar.holds.bootPresent (kernelSlot_boot layout)
      rw [isKernel, present] at absent
      cases absent
  | fresh absent success taken _ _ =>
      exfalso
      apply opensNone
      refine ⟨pages, ?_, ?_, soFar.mapped, ?_⟩
      · simp only [fourKb] at *
        omega
      · rw [← soFar.directory]
        exact absent
      · rw [← pfaAllocate_fst_congr layout 1 soFar.bits, success]
        exact taken.notNull

/-- A mapping call that opens no slot leaves `kernel_pdt` as it was. -/
theorem Holds.map_keeps_directory (holds : own.Holds layout machine)
    (lawful : own.Lawful layout) (half : own.KernelHalf layout)
    {paddr size result : Nat} {rw pl : UInt8}
    (allowed : own.MapAllowed layout layout.kernelPdt paddr vaddr
      (alignUp size fourKb) rw pl)
    (below : vaddr + alignUp size fourKb ≤ 4294967296)
    (sizeSmall : size < 4294967296)
    (opensNone : ¬MapOpens layout vaddr size machine)
    (mapped : pdtMapKernelMemory layout paddr vaddr size rw pl machine =
      some (result, after)) :
    after.mem layout.kernelPdt = machine.mem layout.kernelPdt := by
  have looped : ∃ result after,
      pdtMapKernelMemory layout paddr vaddr size rw pl machine =
        some (result, after) ∧
      after.mem layout.kernelPdt = machine.mem layout.kernelPdt := by
    refine pdtMapLoop_rule lawful.ok.toOk lawful.ok.distinct
      (fun paddr' vaddr' size' _ middle =>
        own.MapAllowed layout layout.kernelPdt paddr' vaddr' size' rw pl ∧
        ∃ pages, 4096 * pages + size' = alignUp size fourKb ∧
          (size' ≠ 0 → vaddr' = vaddr + 4096 * pages) ∧
          MappedSoFar own layout machine vaddr (alignUp size fourKb) pages
            middle)
      (fun _ after =>
        after.mem layout.kernelPdt = machine.mem layout.kernelPdt)
      (fun _ _ _ _ _ _ isFree => lawful.ok.kernelPdtUnmanaged isFree.1)
      ?_ ?_ ?_
      ⟨allowed, 0, by omega, fun _ => rfl, MappedSoFar.start holds⟩
      (alignUp_fourKb_mod size) (alignUp_lt fourKb sizeSmall)
      (Nat.lt_succ_self _)
    · rintro _ _ _ _ ⟨_, _, _, _, soFar⟩
      exact soFar.directory
    · rintro _ _ _ _ _ _ ⟨allowed, pages, inBytes, address, soFar⟩ sizePos
        round
      rw [address sizePos] at allowed round
      obtain ⟨_, _, next⟩ := soFar.round lawful half below opensNone inBytes
        sizePos allowed round
      exact next.directory
    · rintro _ _ size' _ _ mapped _ ⟨allowed, pages, inBytes, address, soFar⟩
        sizePos _ within round
      refine ⟨allowed.rest, ?_⟩
      rw [address sizePos] at allowed round
      obtain ⟨count, rfl, next⟩ := soFar.round lawful half below opensNone
        inBytes sizePos allowed round
      refine ⟨pages + count, by omega, ?_, next⟩
      intro unfinished
      rw [address sizePos, w32_of_lt (by omega)]
      omega
  obtain ⟨_, _, returned, same⟩ := looped
  rw [mapped] at returned
  simp only [Option.some.injEq, Prod.mk.injEq] at returned
  rw [returned.2]
  exact same

/-- An unmapping call that closes no slot leaves `kernel_pdt` as it was. -/
theorem Holds.unmap_keeps_directory (holds : own.Holds layout machine)
    (lawful : own.Lawful layout) {fuel size result : Nat}
    (sizeSmall : size < 4294967296)
    (worksAt : WorksAt layout layout.kernelPdt (alignUp size fourKb)
      (w32 (vaddr + alignUp size fourKb))
      (own.UnmapAllowed layout layout.kernelPdt (alignUp size fourKb))
      (vaddr, 0, machine))
    (closesNone : ¬UnmapCloses vaddr size)
    (unmapped : pdtUnmapKernelMemory layout fuel vaddr size machine =
      some (result, after)) :
    after.mem layout.kernelPdt = machine.mem layout.kernelPdt := by
  have bytesSmall := alignUp_lt fourKb sizeSmall
  by_cases small : alignUp size fourKb < fourMb
  · obtain ⟨_, _, inv⟩ := pdtUnmapLoop_rule
      (fun _ middle => own.Holds layout middle ∧
        middle.mem layout.kernelPdt = machine.mem layout.kernelPdt)
      (alignUp_fourKb_mod size) bytesSmall
      (fun _ _ inv _ allowed => inv.1.unmap_slotOk lawful allowed)
      (fun _ _ inv _ _ _ => inv)
      (fun vaddr middle count after inv _ allowed round => by
        refine ⟨(inv.1.unmapRound lawful allowed round).1, ?_⟩
        cases round with
        | cleared present _ _ _ _ _ =>
            have notDirectory := inv.1.table_notDirectory lawful allowed.1
              present
            rw [clearEntries_elsewhere _ _ _ _ _ (Ne.symm notDirectory.1)]
            exact inv.2
        | closed _ _ _ whole => exact absurd small (Nat.not_lt_of_le whole))
      ⟨holds, rfl⟩ worksAt unmapped
    exact inv.2
  · -- The end wraps to 0, so the loop is not entered.
    have wraps : 4294967296 ≤ vaddr + alignUp size fourKb := by
      by_contra fits
      exact closesNone ⟨Nat.le_of_not_lt small, Nat.lt_of_not_le fits⟩
    have ended : ¬vaddr < w32 (vaddr + alignUp size fourKb) := by
      rw [w32]
      omega
    cases fuel with
    | zero => cases unmapped
    | succ fuel =>
        rw [pdtUnmapKernelMemory, pdtUnmapMemory, pdtUnmapLoop,
          if_neg ended] at unmapped
        simp only [Option.some.injEq, Prod.mk.injEq] at unmapped
        rw [← unmapped.2]

end Map

end Ownership

/-! ## Loading a directory -/

section Load

variable {layout : Layout} {pdt : Nat}

theorem pdtLoadLoop_bits (layout : Layout) (pdt : Nat) :
    ∀ (remaining : Nat) (machine : Machine),
      (pdtLoadLoop layout pdt remaining machine).bits = machine.bits
  | 0, _ => rfl
  | remaining + 1, machine => by
      rw [pdtLoadLoop, pdtLoadLoop_bits layout pdt remaining]
      split_ifs <;> rfl

theorem pdtLoadLoop_faulted (layout : Layout) (pdt : Nat) :
    ∀ (remaining : Nat) (machine : Machine),
      (pdtLoadLoop layout pdt remaining machine).faulted = machine.faulted
  | 0, _ => rfl
  | remaining + 1, machine => by
      rw [pdtLoadLoop, pdtLoadLoop_faulted layout pdt remaining]
      split_ifs <;> rfl

theorem pdtLoadLoop_mem (different : layout.kernelPdt ≠ pdt) :
    ∀ {remaining : Nat} (machine : Machine), remaining ≤ 1024 →
      ∀ frame index, (pdtLoadLoop layout pdt remaining machine).mem frame
          index =
        if frame = pdt ∧ (1024 - remaining ≤ index ∧ index < 1024) ∧
            (machine.mem layout.kernelPdt index).isPresent = true then
          machine.mem layout.kernelPdt index
        else machine.mem frame index := by
  intro remaining
  induction remaining with
  | zero =>
      intro machine _ frame index
      rw [pdtLoadLoop, if_neg (by omega)]
  | succ remaining induction =>
      intro machine inTable frame index
      have kernelSame : ∀ position,
          (if (machine.mem layout.kernelPdt (1023 - remaining)).isPresent then
            machine.setEntry pdt (1023 - remaining)
              (machine.mem layout.kernelPdt (1023 - remaining))
          else machine).mem layout.kernelPdt position =
          machine.mem layout.kernelPdt position := by
        intro position
        split_ifs
        · rw [Machine.setEntry_mem, if_neg fun same => different same.1]
        · rfl
      rw [pdtLoadLoop, induction _ (by omega)]
      simp only [kernelSame]
      by_cases here : index = 1023 - remaining
      · subst here
        have later : ¬(frame = pdt ∧ (1024 - remaining ≤ 1023 - remaining ∧
            1023 - remaining < 1024) ∧ (machine.mem layout.kernelPdt
              (1023 - remaining)).isPresent = true) := by
          rintro ⟨_, range, _⟩
          omega
        rw [if_neg later]
        by_cases present : (machine.mem layout.kernelPdt
            (1023 - remaining)).isPresent = true
        · rw [if_pos present, Machine.setEntry_mem]
          by_cases sameFrame : frame = pdt
          · rw [if_pos ⟨sameFrame, rfl⟩,
              if_pos ⟨sameFrame, by omega, present⟩]
          · rw [if_neg fun same => sameFrame same.1,
              if_neg fun same => sameFrame same.1]
        · rw [if_neg present, if_neg fun same => present same.2.2]
      · have range : (1024 - remaining ≤ index ∧ index < 1024) ↔
            (1024 - (remaining + 1) ≤ index ∧ index < 1024) := by omega
        have other : (if (machine.mem layout.kernelPdt
              (1023 - remaining)).isPresent then
            machine.setEntry pdt (1023 - remaining)
              (machine.mem layout.kernelPdt (1023 - remaining))
          else machine).mem frame index = machine.mem frame index := by
          split_ifs
          · rw [Machine.setEntry_mem, if_neg fun same => here same.2]
          · rfl
        simp only [range, other]

theorem pdtLoadProcessPdt_bits (layout : Layout) (pdt pdtPaddr : Nat)
    (machine : Machine) :
    (pdtLoadProcessPdt layout pdt pdtPaddr machine).bits = machine.bits := by
  simp only [pdtLoadProcessPdt]
  rw [pdtLoadLoop_bits, Machine.setEntry_bits]

theorem pdtLoadProcessPdt_faulted (layout : Layout) (pdt pdtPaddr : Nat)
    (machine : Machine) :
    (pdtLoadProcessPdt layout pdt pdtPaddr machine).faulted =
      machine.faulted := by
  simp only [pdtLoadProcessPdt]
  rw [pdtLoadLoop_faulted, Machine.setEntry_faulted]

theorem pdtLoadProcessPdt_elsewhere (different : layout.kernelPdt ≠ pdt)
    (pdtPaddr : Nat) (machine : Machine) :
    ∀ other, other ≠ pdt →
      (pdtLoadProcessPdt layout pdt pdtPaddr machine).mem other =
        machine.mem other := by
  intro other notPdt
  funext index
  simp only [pdtLoadProcessPdt]
  rw [pdtLoadLoop_mem different _ (by decide),
    if_neg fun same => notPdt same.1, Machine.setEntry_mem,
    if_neg fun same => notPdt same.1]

theorem pdtLoadProcessPdt_kernelHalf (different : layout.kernelPdt ≠ pdt)
    (pdtPaddr : Nat) (machine : Machine) {index : Nat} (lower : 768 ≤ index)
    (upper : index < 1024) :
    (pdtLoadProcessPdt layout pdt pdtPaddr machine).mem pdt index =
      if (machine.mem layout.kernelPdt index).isPresent then
        machine.mem layout.kernelPdt index
      else machine.mem pdt index := by
  have kernelSame : ∀ position, (machine.setEntry pdt 0
      (machine.mem layout.kernelPdt 0)).mem layout.kernelPdt position =
      machine.mem layout.kernelPdt position := by
    intro position
    rw [Machine.setEntry_mem, if_neg fun same => different same.1]
  have inHalf : 1024 - (numEntries - kernelPtPdtIdx) ≤ index ∧
      index < 1024 := by
    simp only [numEntries, kernelPtPdtIdx]
    omega
  simp only [pdtLoadProcessPdt]
  rw [pdtLoadLoop_mem different _ (by decide), kernelSame]
  by_cases present : (machine.mem layout.kernelPdt index).isPresent = true
  · rw [if_pos ⟨rfl, inHalf, present⟩, if_pos present]
  · have notZero : ¬(pdt = pdt ∧ index = 0) := by omega
    rw [if_neg fun same => present same.2.2, if_neg present,
      Machine.setEntry_mem, if_neg notZero]

/-- Below the kernel half, only entry 0 changes. -/
theorem pdtLoadProcessPdt_userHalf (different : layout.kernelPdt ≠ pdt)
    (pdtPaddr : Nat) (machine : Machine) {slot : Nat} (user : slot < 768) :
    (pdtLoadProcessPdt layout pdt pdtPaddr machine).mem pdt slot =
      if slot = 0 then machine.mem layout.kernelPdt 0
      else machine.mem pdt slot := by
  simp only [pdtLoadProcessPdt]
  rw [pdtLoadLoop_mem different _ (by decide), if_neg, Machine.setEntry_mem]
  · by_cases first : slot = 0
    · rw [if_pos ⟨rfl, first⟩, if_pos first]
    · rw [if_neg fun same => first same.2, if_neg first]
  · rintro ⟨_, ⟨lower, _⟩, _⟩
    simp only [numEntries, kernelPtPdtIdx] at lower
    omega

end Load

/-! ## Runs -/

/-- The calls that the rest of the kernel makes, in any order. -/
inductive KernelCall where
  | map (paddr vaddr size : Nat) (rw pl : UInt8)
  | unmap (vaddr size : Nat)
  | load (pdt : Nat)

/-- A call on kernel addresses that returns. -/
def KernelCall.Returns (layout : Layout) (directories : List Nat) :
    KernelCall → Machine → Machine → Prop
  | .map paddr vaddr size rw pl, machine, after =>
      (kernelStartVaddr ≤ vaddr ∧
        vaddr + alignUp size fourKb ≤ 4294967296 ∧ size < 4294967296) ∧
      ∃ result, pdtMapKernelMemory layout paddr vaddr size rw pl machine =
        some (result, after)
  | .unmap vaddr size, machine, after =>
      (WorksAt layout layout.kernelPdt (alignUp size fourKb)
          (w32 (vaddr + alignUp size fourKb)) (kernelStartVaddr ≤ ·)
          (vaddr, 0, machine) ∧ size < 4294967296) ∧
      ∃ fuel result, pdtUnmapKernelMemory layout fuel vaddr size machine =
        some (result, after)
  | .load pdt, machine, after =>
      pdt ∈ directories ∧
        after = pdtLoadProcessPdt layout pdt (fourKb * pdt) machine

def KernelCall.isLoad : KernelCall → Bool
  | .map .. => false
  | .unmap .. => false
  | .load _ => true

/-- The call neither opens nor closes a slot of `kernel_pdt`. -/
def KernelCall.KeepsSlots (layout : Layout) :
    KernelCall → Machine → Prop
  | .map _ vaddr size _ _, machine => ¬MapOpens layout vaddr size machine
  | .unmap vaddr size, _ => ¬UnmapCloses vaddr size
  | .load _, _ => True

/-- Runs of kernel calls, with a flag that is set by the first load, after
which every call meets a condition on the state before it. -/
inductive KernelRun (layout : Layout) (directories : List Nat)
    (condition : KernelCall → Machine → Prop) (initial : Machine) :
    Bool → Machine → Prop where
  | start : KernelRun layout directories condition initial false initial
  | call {loaded : Bool} {machine after : Machine} (call : KernelCall) :
      KernelRun layout directories condition initial loaded machine →
      (loaded = true → condition call machine) →
      call.Returns layout directories machine after →
      KernelRun layout directories condition initial (loaded || call.isLoad)
        after

/-- The kernel half of the active directory is that of `kernel_pdt`: every
kernel address has the same translation, and no entry names a page table that
has been given back. -/
structure KernelHalfCoherent (layout : Layout) (machine : Machine) :
    Prop where
  translate : ∀ vaddr, kernelStartVaddr ≤ vaddr → vaddr < 4294967296 →
    machine.translate machine.active vaddr =
      machine.translate layout.kernelPdt vaddr
  notFreed : ∀ index, 768 ≤ index → index < 1024 →
    (machine.mem machine.active index).isPresent = true →
    ¬FreeFrame layout machine (machine.mem machine.active index).frame

/-- The directories exist, and their kernel halves are still empty. -/
structure DirectoriesReady (layout : Layout) (machine : Machine)
    (directories : List Nat) : Prop where
  created : ∃ boot data, Boot layout boot ∧
    PagingRun layout boot machine directories data
  kernelHalf : ∀ pdt ∈ directories, ∀ index, 768 ≤ index → index < 1024 →
    machine.mem pdt index = Entry.empty

/-- Copies of kernel entries are exact. -/
structure CoherenceInv (layout : Layout) (directories : List Nat)
    (loaded : Bool) (machine : Machine) : Prop where
  frames : RunFrames layout [] directories
  holds : (tableOwnership layout [] directories).Holds layout machine
  copies : ∀ pdt ∈ directories, ∀ index, 768 ≤ index → index < 1024 →
    machine.mem pdt index = Entry.empty ∨
      loaded = true ∧
        machine.mem pdt index = machine.mem layout.kernelPdt index
  active : loaded = true → machine.active ∈ directories ∧
    ∀ index, 768 ≤ index → index < 1024 →
      machine.mem machine.active index = machine.mem layout.kernelPdt index

section Coherence

variable {layout : Layout} {directories : List Nat} {machine after : Machine}
  {loaded : Bool}

theorem DirectoriesReady.inv (ok : layout.BootOk)
    (ready : DirectoriesReady layout machine directories) :
    CoherenceInv layout directories false machine := by
  obtain ⟨boot, data, isBoot, run⟩ := ready.created
  have inv := run.inv ok isBoot
  refine ⟨⟨by simp, inv.frames.directories⟩, ?_, ?_, ?_⟩
  · apply inv.holds.mono
    · intro pdt pdtIdx owning
      refine ⟨owning.1, Or.inl ?_⟩
      rcases owning.2 with kernel | impossible
      · exact kernel
      · cases impossible
    · intro frame isReserved
      rcases isReserved with impossible | isDirectory
      · cases impossible
      · exact Or.inl isDirectory
    · exact id
    · exact id
  · intro pdt member index lower upper
    exact Or.inl (ready.kernelHalf pdt member index lower upper)
  · intro impossible
    cases impossible

theorem CoherenceInv.lawful (ok : layout.BootOk)
    (inv : CoherenceInv layout directories loaded machine) :
    (tableOwnership layout [] directories).Lawful layout :=
  tableOwnership_lawful ok inv.frames

theorem CoherenceInv.directory_ne (ok : layout.BootOk)
    (inv : CoherenceInv layout directories loaded machine) {pdt : Nat}
    (member : pdt ∈ directories) : layout.kernelPdt ≠ pdt := by
  rintro rfl
  exact ok.kernelPdtUnmanaged (inv.frames.data _ member)

/-- A call that leaves the directories alone, and `kernel_pdt` too once a
directory has been loaded. -/
theorem CoherenceInv.edit (ok : layout.BootOk)
    (inv : CoherenceInv layout directories loaded machine)
    (kept : (tableOwnership layout [] directories).Holds layout after)
    (untouched : (tableOwnership layout [] directories).Untouched layout
      layout.kernelPdt machine after)
    (keeps : loaded = true →
      after.mem layout.kernelPdt = machine.mem layout.kernelPdt) :
    CoherenceInv layout directories loaded after := by
  have directory : ∀ pdt ∈ directories, ∀ index,
      after.mem pdt index = machine.mem pdt index := by
    intro pdt member index
    apply untouched.cell (Or.inr (Or.inr member))
    exact fun same => inv.directory_ne ok member same.1.symm
  refine ⟨inv.frames, kept, ?_, ?_⟩
  · intro pdt member index lower upper
    rw [directory pdt member]
    rcases inv.copies pdt member index lower upper with isEmpty |
      ⟨isLoaded, same⟩
    · exact Or.inl isEmpty
    · rw [keeps isLoaded]
      exact Or.inr ⟨isLoaded, same⟩
  · intro isLoaded
    obtain ⟨member, same⟩ := inv.active isLoaded
    rw [untouched.active]
    refine ⟨member, ?_⟩
    intro index lower upper
    rw [directory _ member, keeps isLoaded]
    exact same index lower upper

theorem CoherenceInv.load (ok : layout.BootOk)
    (inv : CoherenceInv layout directories loaded machine) {pdt : Nat}
    (member : pdt ∈ directories) :
    CoherenceInv layout directories true
      (pdtLoadProcessPdt layout pdt (fourKb * pdt) machine) := by
  have different := inv.directory_ne ok member
  have elsewhere := pdtLoadProcessPdt_elsewhere different (fourKb * pdt)
    machine
  have kernelSame := elsewhere _ different
  -- Where the kernel has no entry, the directory has none either.
  have copied : ∀ index, 768 ≤ index → index < 1024 →
      (pdtLoadProcessPdt layout pdt (fourKb * pdt) machine).mem pdt index =
        machine.mem layout.kernelPdt index := by
    intro index lower upper
    rw [pdtLoadProcessPdt_kernelHalf different _ _ lower upper]
    split_ifs with present
    · rfl
    · rcases inv.copies pdt member index lower upper with isEmpty | ⟨_, same⟩
      · have sound : (machine.mem layout.kernelPdt index).Sound := by
          rcases tableOwnership_slot directories upper (Or.inl rfl) with
            owning | boot
          · exact (inv.holds.directoryEntry owning).1
          · exact absurd (inv.holds.bootPresent boot) present
        rw [isEmpty]
        exact (sound.eq_empty (by simpa using present)).symm
      · exact same
  refine ⟨inv.frames, ?_, ?_, ?_⟩
  · apply inv.holds.of_reserved (inv.lawful ok) (Or.inr member) ?_ elsewhere
    · exact pdtLoadProcessPdt_bits ..
    · intro pdtIdx owning
      rcases owning.2 with ⟨same, _⟩ | impossible
      · exact different same.symm
      · cases impossible
  · intro other otherMember index lower upper
    by_cases same : other = pdt
    · rw [same, copied index lower upper, kernelSame]
      exact Or.inr ⟨rfl, rfl⟩
    · rw [elsewhere other same, kernelSame]
      rcases inv.copies other otherMember index lower upper with isEmpty |
        ⟨_, isCopy⟩
      · exact Or.inl isEmpty
      · exact Or.inr ⟨rfl, isCopy⟩
  · intro _
    have activeEq : (pdtLoadProcessPdt layout pdt (fourKb * pdt)
        machine).active = pdt := by
      simp [pdtLoadProcessPdt, fourKb]
    rw [activeEq]
    refine ⟨member, ?_⟩
    intro index lower upper
    rw [copied index lower upper, kernelSame]

/-- Every call keeps the copies exact. -/
theorem CoherenceInv.call (ok : layout.BootOk)
    (inv : CoherenceInv layout directories loaded machine)
    (call : KernelCall)
    (keepsSlots : loaded = true → call.KeepsSlots layout machine)
    (returns : call.Returns layout directories machine after) :
    CoherenceInv layout directories (loaded || call.isLoad) after := by
  have lawful := inv.lawful ok
  cases call with
  | map paddr vaddr size rw pl =>
      obtain ⟨⟨kernelAddress, below, sizeSmall⟩, result, mapped⟩ := returns
      have allowed : (tableOwnership layout [] directories).MapAllowed layout
          layout.kernelPdt paddr vaddr (alignUp size fourKb) rw pl := by
        intro offset _
        refine ⟨tableOwnership_slot _ (virtualToPdtIdx_lt _) (Or.inl rfl),
          Or.inr (ptEntry_sound ..), ?_⟩
        intro frame
        exact ⟨Or.inr (pdtEntry_flags ..).2.1,
          fun _ => (pdtEntry_flags ..).2.2.1⟩
      obtain ⟨_, _, returned, kept, untouched⟩ := inv.holds.mapMemory lawful
        ⟨0, Or.inr ⟨rfl, Or.inr rfl⟩⟩ sizeSmall allowed
      rw [pdtMapKernelMemory] at mapped
      rw [mapped] at returned
      simp only [Option.some.injEq, Prod.mk.injEq] at returned
      obtain ⟨rfl, rfl⟩ := returned
      rw [KernelCall.isLoad, Bool.or_false]
      apply inv.edit ok kept untouched
      intro isLoaded
      exact inv.holds.map_keeps_directory lawful tableOwnership_half allowed
        below sizeSmall (keepsSlots isLoaded) mapped
  | unmap vaddr size =>
      obtain ⟨⟨worksAt, sizeSmall⟩, fuel, result, unmapped⟩ := returns
      have allowed : WorksAt layout layout.kernelPdt (alignUp size fourKb)
          (w32 (vaddr + alignUp size fourKb))
          ((tableOwnership layout [] directories).UnmapAllowed layout
            layout.kernelPdt (alignUp size fourKb)) (vaddr, 0, machine) := by
        refine WorksAt.mono worksAt ?_
        intro address below kernelAddress
        exact kernelAddress_unmapAllowed
          (Nat.lt_trans below (w32_lt _)) kernelAddress
      obtain ⟨kept, untouched, _⟩ := inv.holds.unmapMemory lawful sizeSmall
        allowed unmapped
      rw [KernelCall.isLoad, Bool.or_false]
      apply inv.edit ok kept untouched
      intro isLoaded
      exact inv.holds.unmap_keeps_directory lawful sizeSmall allowed
        (keepsSlots isLoaded) unmapped
  | load pdt =>
      obtain ⟨member, rfl⟩ := returns
      rw [KernelCall.isLoad, Bool.or_true]
      exact inv.load ok member

theorem KernelRun.inv {initial : Machine} (ok : layout.BootOk)
    (ready : DirectoriesReady layout initial directories)
    (run : KernelRun layout directories (KernelCall.KeepsSlots layout)
      initial loaded machine) :
    CoherenceInv layout directories loaded machine := by
  induction run with
  | start => exact ready.inv ok
  | call call _ keepsSlots returns induction =>
      exact induction.call ok call keepsSlots returns

/-- Coherence of the kernel half, in every run that opens and closes no slot
of `kernel_pdt` after the first load. -/
theorem kernel_half_coherence {initial : Machine} (ok : layout.BootOk)
    (ready : DirectoriesReady layout initial directories)
    (run : KernelRun layout directories (KernelCall.KeepsSlots layout)
      initial true machine) :
    KernelHalfCoherent layout machine := by
  have inv := run.inv ok ready
  obtain ⟨_, same⟩ := inv.active rfl
  constructor
  · intro vaddr lower upper
    have slot : 768 ≤ virtualToPdtIdx vaddr := by
      simp only [kernelStartVaddr] at lower
      rw [virtualToPdtIdx_eq]
      omega
    simp only [Machine.translate, same _ slot (virtualToPdtIdx_lt vaddr)]
  · intro index lower upper present
    rw [same index lower upper] at present ⊢
    rcases tableOwnership_slot directories upper (Or.inl rfl) with
      owning | boot
    · exact inv.holds.taken owning present
    · rw [inv.holds.bootFrame (inv.lawful ok) boot]
      exact fun isFree =>
        (inv.lawful ok).bootTable_unmanaged index isFree.1

end Coherence

theorem twoFrameLayout_ready :
    ∃ initial, pdtCreate twoFrameLayout (bootMachine twoFrameLayout 5) =
        some (0xC0005000, 0x100000, initial) ∧
      DirectoriesReady twoFrameLayout initial [256] := by
  have evaluated : (pdtCreate twoFrameLayout
      (bootMachine twoFrameLayout 5)).map (fun created =>
        (created.1, created.2.1, (List.range 1024).all fun index =>
          created.2.2.mem 256 index = Entry.empty)) =
      some (0xC0005000, 0x100000, true) := by
    decide +kernel
  obtain ⟨⟨vaddr, paddr, initial⟩, created, values⟩ :=
    Option.map_eq_some_iff.mp evaluated
  simp only [Prod.mk.injEq, List.all_eq_true, List.mem_range,
    decide_eq_true_eq] at values
  obtain ⟨rfl, rfl, zeroes⟩ := values
  refine ⟨initial, created, ?_, ?_⟩
  · exact ⟨_, [], bootMachine_boot twoFrameLayout_ok.distinct 5,
      .create .start created (by decide) (by decide)⟩
  · intro pdt member index _ upper
    rw [List.mem_singleton.mp member]
    exact zeroes index upper

/-- Loading a directory and mapping a page in the kernel's own slot. -/
theorem kernel_half_coherence_ownSlot :
    ∃ initial machine, DirectoriesReady twoFrameLayout initial [256] ∧
      KernelRun twoFrameLayout [256] (KernelCall.KeepsSlots twoFrameLayout)
        initial true machine ∧
      KernelHalfCoherent twoFrameLayout machine := by
  obtain ⟨initial, created, ready⟩ := twoFrameLayout_ready
  have evaluated : ((pdtCreate twoFrameLayout
      (bootMachine twoFrameLayout 5)).bind fun created =>
        (pdtMapKernelMemory twoFrameLayout 0x101000 0xC0006000 4096 1 0
          (pdtLoadProcessPdt twoFrameLayout 256 0x100000 created.2.2)).map
          fun mapped => (mapped.1, ((pdtLoadProcessPdt twoFrameLayout 256
            0x100000 created.2.2).mem 1 768).isPresent)) =
      some (4096, true) := by
    decide +kernel
  rw [created, Option.bind_some] at evaluated
  obtain ⟨⟨result, machine⟩, mapped, values⟩ :=
    Option.map_eq_some_iff.mp evaluated
  simp only [Prod.mk.injEq] at values
  have loaded : KernelRun twoFrameLayout [256]
      (KernelCall.KeepsSlots twoFrameLayout) initial true
      (pdtLoadProcessPdt twoFrameLayout 256 0x100000 initial) :=
    .call (.load 256) .start (fun impossible => by cases impossible)
      ⟨by simp, rfl⟩
  have opensNone : ¬MapOpens twoFrameLayout 0xC0006000 4096
      (pdtLoadProcessPdt twoFrameLayout 256 0x100000 initial) := by
    rintro ⟨page, within, absent, -, -⟩
    have first : page = 0 := by
      have pages : alignUp 4096 fourKb / fourKb = 1 := by decide
      omega
    subst first
    have slot : virtualToPdtIdx (0xC0006000 + 4096 * 0) = 768 := by decide
    rw [slot, show twoFrameLayout.kernelPdt = 1 by rfl, values.2] at absent
    cases absent
  have run : KernelRun twoFrameLayout [256]
      (KernelCall.KeepsSlots twoFrameLayout) initial true machine :=
    .call (.map 0x101000 0xC0006000 4096 1 0) loaded (fun _ => opensNone)
      ⟨by decide, result, mapped⟩
  exact ⟨initial, machine, ready, run,
    kernel_half_coherence twoFrameLayout_bootOk ready run⟩

/-- A page mapped in a new slot after the load is invisible to the running
kernel. -/
theorem kernel_half_incoherent :
    ∃ initial machine, DirectoriesReady twoFrameLayout initial [256] ∧
      KernelRun twoFrameLayout [256] (fun _ _ => True) initial true machine ∧
      ¬KernelHalfCoherent twoFrameLayout machine := by
  obtain ⟨initial, created, ready⟩ := twoFrameLayout_ready
  have evaluated : ((pdtCreate twoFrameLayout
      (bootMachine twoFrameLayout 5)).bind fun created =>
        (pdtMapKernelMemory twoFrameLayout 0x200000 0xC0400000 4096 1 0
          (pdtLoadProcessPdt twoFrameLayout 256 0x100000 created.2.2)).map
          fun mapped => (mapped.2.translate mapped.2.active 0xC0400000,
            mapped.2.translate 1 0xC0400000)) =
      some (none, some 512) := by
    decide +kernel
  rw [created, Option.bind_some] at evaluated
  obtain ⟨⟨result, machine⟩, mapped, values⟩ :=
    Option.map_eq_some_iff.mp evaluated
  simp only [Prod.mk.injEq] at values
  have loaded : KernelRun twoFrameLayout [256] (fun _ _ => True) initial true
      (pdtLoadProcessPdt twoFrameLayout 256 0x100000 initial) :=
    .call (.load 256) .start (fun _ => trivial) ⟨by simp, rfl⟩
  refine ⟨initial, machine, ready, ?_, ?_⟩
  · exact .call (.map 0x200000 0xC0400000 4096 1 0) loaded
      (fun _ => trivial) ⟨by decide, result, mapped⟩
  · intro coherent
    have same := coherent.translate 0xC0400000 (by decide) (by decide)
    rw [values.1] at same
    exact absurd (same.trans values.2) (by decide)

end Newbos
