import Newbos.Paging.Ownership
import Newbos.Paging.Walk

/-!
# Kernel pages that stay

Mapping writes only entries that are not present, so the pages of the kernel
half keep their entries, and a pointer into a kernel page stays good.
-/

namespace Newbos

/-- Present entries of the kernel half keep their values. -/
structure KeepsPages (layout : Layout) (machine after : Machine) : Prop where
  slot : ∀ {pdtIdx}, 768 ≤ pdtIdx → pdtIdx < 1024 →
    (machine.mem layout.kernelPdt pdtIdx).isPresent = true →
    after.mem layout.kernelPdt pdtIdx = machine.mem layout.kernelPdt pdtIdx
  page : ∀ {pdtIdx ptIdx}, 768 ≤ pdtIdx → pdtIdx < 1024 →
    (machine.mem layout.kernelPdt pdtIdx).isPresent = true →
    (machine.mem (machine.mem layout.kernelPdt pdtIdx).frame
      ptIdx).isPresent = true →
    after.mem (machine.mem layout.kernelPdt pdtIdx).frame ptIdx =
      machine.mem (machine.mem layout.kernelPdt pdtIdx).frame ptIdx

namespace KeepsPages

variable {layout : Layout} {machine middle after : Machine}

theorem of_mem (same : after.mem = machine.mem) :
    KeepsPages layout machine after :=
  ⟨fun _ _ _ => by rw [same], fun _ _ _ _ => by rw [same]⟩

theorem trans (first : KeepsPages layout machine middle)
    (second : KeepsPages layout middle after) :
    KeepsPages layout machine after := by
  constructor
  · intro pdtIdx lower upper present
    have same := first.slot lower upper present
    rw [second.slot lower upper (by rw [same]; exact present), same]
  · intro pdtIdx ptIdx lower upper present pagePresent
    have same := first.slot lower upper present
    have samePage := first.page lower upper present pagePresent
    have later := @second.page pdtIdx ptIdx lower upper
      (by rw [same]; exact present)
      (by rw [same, samePage]; exact pagePresent)
    rw [same] at later
    rw [later, samePage]

/-- A change of a frame that is neither the kernel's directory nor one of its
tables. -/
theorem of_frame {frame : Nat} (notDirectory : layout.kernelPdt ≠ frame)
    (notTable : ∀ pdtIdx, 768 ≤ pdtIdx → pdtIdx < 1024 →
      (machine.mem layout.kernelPdt pdtIdx).isPresent = true →
      (machine.mem layout.kernelPdt pdtIdx).frame ≠ frame)
    (elsewhere : ∀ other, other ≠ frame →
      after.mem other = machine.mem other) :
    KeepsPages layout machine after := by
  constructor
  · intro pdtIdx _ _ _
    rw [elsewhere _ notDirectory]
  · intro pdtIdx ptIdx lower upper present _
    rw [elsewhere _ (notTable pdtIdx lower upper present)]

end KeepsPages

theorem Entry.isPresent_of_bitP {entry : Entry} (valid : entry.bitP = true) :
    entry.isPresent = true := by
  by_contra absent
  rw [Entry.bitP_eq_false (by simpa using absent)] at valid
  cases valid

theorem KeepsPages.translate {layout : Layout} {machine after : Machine}
    (keeps : KeepsPages layout machine after) {vaddr frame : Nat}
    (lower : kernelStartVaddr ≤ vaddr) (upper : vaddr < 4294967296)
    (walk : machine.translate layout.kernelPdt vaddr = some frame) :
    after.translate layout.kernelPdt vaddr = some frame := by
  have slotLower : 768 ≤ virtualToPdtIdx vaddr := by
    simp only [kernelStartVaddr] at lower
    rw [virtualToPdtIdx_eq]
    omega
  have slotUpper := virtualToPdtIdx_lt vaddr
  simp only [Machine.translate] at walk ⊢
  by_cases valid : (machine.mem layout.kernelPdt
      (virtualToPdtIdx vaddr)).bitP = true
  · have present := Entry.isPresent_of_bitP valid
    rw [keeps.slot slotLower slotUpper present]
    rw [if_pos valid] at walk ⊢
    by_cases large : (machine.mem layout.kernelPdt
        (virtualToPdtIdx vaddr)).bitPS = true
    · rw [if_pos large] at walk ⊢
      exact walk
    · rw [if_neg large] at walk ⊢
      by_cases pageValid : (machine.mem (machine.mem layout.kernelPdt
          (virtualToPdtIdx vaddr)).frame (virtualToPtIdx vaddr)).bitP = true
      · rw [keeps.page slotLower slotUpper present
          (Entry.isPresent_of_bitP pageValid)]
        exact walk
      · rw [if_neg pageValid] at walk
        cases walk
  · rw [if_neg valid] at walk
    cases walk

namespace Ownership

section Pages

variable {own : Ownership} {layout : Layout} {machine middle after : Machine}

theorem Holds.keepsPages_reserved (holds : own.Holds layout machine)
    (lawful : own.Lawful layout)
    (kernelSlots : ∀ {pdtIdx}, pdtIdx < 1024 →
      own.Slot layout layout.kernelPdt pdtIdx)
    {frame : Nat} (isReserved : own.reserved frame)
    (elsewhere : ∀ other, other ≠ frame →
      after.mem other = machine.mem other) :
    KeepsPages layout machine after := by
  apply KeepsPages.of_frame ?_ ?_ elsewhere
  · rintro rfl
    exact lawful.ok.kernelPdtUnmanaged (lawful.managed isReserved)
  · rintro pdtIdx _ upper present rfl
    exact (holds.table_notDirectory lawful (kernelSlots upper)
      present).2 isReserved

theorem Spare.not_table (lawful : own.Lawful layout)
    (holds : own.Holds layout machine) {frame pdt pdtIdx : Nat}
    (spare : own.Spare layout machine frame)
    (slot : own.Slot layout pdt pdtIdx)
    (present : (machine.mem pdt pdtIdx).isPresent = true) :
    (machine.mem pdt pdtIdx).frame ≠ frame := by
  cases slot with
  | inl owning => exact spare.unnamed owning present
  | inr boot =>
      rw [holds.bootFrame lawful boot]
      rintro rfl
      exact lawful.bootTable_unmanaged pdtIdx spare.managed

theorem Holds.keepsPages_spare (holds : own.Holds layout machine)
    (lawful : own.Lawful layout)
    (kernelSlots : ∀ {pdtIdx}, pdtIdx < 1024 →
      own.Slot layout layout.kernelPdt pdtIdx)
    {frame : Nat} (spare : own.Spare layout machine frame)
    (elsewhere : ∀ other, other ≠ frame →
      after.mem other = machine.mem other) :
    KeepsPages layout machine after := by
  apply KeepsPages.of_frame (Ne.symm (spare.notDirectory lawful).1) ?_
    elsewhere
  intro pdtIdx _ upper present
  exact spare.not_table lawful holds (kernelSlots upper) present

theorem Holds.mapRound_keepsPages (holds : own.Holds layout machine)
    (lawful : own.Lawful layout)
    (kernelSlots : ∀ {pdtIdx}, pdtIdx < 1024 →
      own.Slot layout layout.kernelPdt pdtIdx)
    {pdt paddr vaddr size mapped : Nat} {rw pl : UInt8}
    (slot : own.Slot layout pdt (virtualToPdtIdx vaddr))
    (round : MapRound layout pdt paddr vaddr size rw pl machine mapped
      after) : KeepsPages layout machine after := by
  cases round with
  | noFrame _ _ => exact .of_mem rfl
  | @existing count present run =>
      have notDirectory := holds.table_notDirectory lawful slot present
      have elsewhere := writeEntries_elsewhere machine
        (machine.mem pdt (virtualToPdtIdx vaddr)).frame
        (virtualToPtIdx vaddr) count (pageEntries paddr rw pl)
      constructor
      · intro pdtIdx _ _ _
        rw [elsewhere _ (Ne.symm notDirectory.1)]
      · intro pdtIdx ptIdx _ upper slotPresent pagePresent
        simp only [Machine.writeEntries]
        rw [if_neg]
        rintro ⟨sameTable, lower, below⟩
        obtain ⟨rfl, rfl⟩ := holds.slot_unique lawful (kernelSlots upper) slot
          slotPresent present sameTable
        exact run.free ptIdx lower below (Or.inl pagePresent)
  | @leaked frame allocated _ taken _ _ =>
      have wasFree := taken.wasFree frame (Nat.le_refl _)
        (Nat.lt_succ_self _)
      apply holds.keepsPages_spare lawful kernelSlots
        (holds.spare_of_free wasFree)
      intro other different
      rw [zeroFrame_elsewhere allocated frame other different,
        taken.unchanged]
  | @fresh frame count allocated absent _ taken _ _ =>
      have wasFree := taken.wasFree frame (Nat.le_refl _)
        (Nat.lt_succ_self _)
      have spare := holds.spare_of_free wasFree
      have mem : allocated.mem = machine.mem := by rw [taken.unchanged]
      have elsewhere : ∀ other position, other ≠ frame →
          ¬(other = pdt ∧ position = virtualToPdtIdx vaddr) →
          (((allocated.zeroFrame frame).writeEntries frame
            (virtualToPtIdx vaddr) count (pageEntries paddr rw pl)).setEntry
            pdt (virtualToPdtIdx vaddr)
            (pdtEntry (fourKb * frame) 0 rw pl)).mem other position =
          machine.mem other position := by
        intro other position notFrame different
        rw [Machine.setEntry_mem, if_neg different,
          writeEntries_elsewhere _ _ _ _ _ _ notFrame,
          zeroFrame_elsewhere _ _ _ notFrame, mem]
      constructor
      · intro pdtIdx _ _ present
        apply elsewhere _ _ (Ne.symm (spare.notDirectory lawful).1)
        rintro ⟨rfl, rfl⟩
        rw [absent] at present
        cases present
      · intro pdtIdx ptIdx _ upper present _
        have isTable := holds.table_notDirectory lawful (kernelSlots upper)
          present
        apply elsewhere
        · exact spare.not_table lawful holds (kernelSlots upper) present
        · rintro ⟨same, _⟩
          exact lawful.ne_of_notDirectory isTable slot same.symm

theorem Holds.mapMemory_keepsPages (holds : own.Holds layout machine)
    (lawful : own.Lawful layout)
    (kernelSlots : ∀ {pdtIdx}, pdtIdx < 1024 →
      own.Slot layout layout.kernelPdt pdtIdx)
    {pdt : Nat} (directory : ∃ pdtIdx, own.Slot layout pdt pdtIdx)
    {paddr vaddr size result : Nat} {rw pl : UInt8}
    (sizeSmall : size < 4294967296)
    (allowed : own.MapAllowed layout pdt paddr vaddr (alignUp size fourKb)
      rw pl)
    (mapped : pdtMapMemory layout pdt paddr vaddr size rw pl machine =
      some (result, after)) : KeepsPages layout machine after := by
  obtain ⟨someIdx, someSlot⟩ := directory
  have roundSlot : ∀ {paddr vaddr size}, size ≠ 0 →
      own.MapAllowed layout pdt paddr vaddr size rw pl →
      own.Slot layout pdt (virtualToPdtIdx vaddr) := fun sizePos allowed =>
    (allowed 0 (Nat.pos_of_ne_zero sizePos)).1
  have looped : ∃ result after,
      pdtMapMemory layout pdt paddr vaddr size rw pl machine =
        some (result, after) ∧ KeepsPages layout machine after :=
    pdtMapLoop_rule lawful.ok.toOk (lawful.directory_ne_kernelPt someSlot)
      (fun paddr vaddr size _ middle =>
        own.MapAllowed layout pdt paddr vaddr size rw pl ∧
          own.Holds layout middle ∧ KeepsPages layout machine middle)
      (fun _ after => KeepsPages layout machine after)
      (fun _ _ _ _ _ inv => inv.2.1.directory_taken lawful someSlot)
      (fun _ _ _ _ inv => inv.2.2)
      (fun _ _ _ _ _ _ inv sizePos round =>
        inv.2.2.trans (inv.2.1.mapRound_keepsPages lawful kernelSlots
          (roundSlot sizePos inv.1) round))
      (fun _ _ _ _ _ _ _ inv sizePos _ _ round =>
        ⟨inv.1.rest, (inv.2.1.mapRound lawful inv.1 sizePos round).1,
          inv.2.2.trans (inv.2.1.mapRound_keepsPages lawful kernelSlots
            (roundSlot sizePos inv.1) round)⟩)
      ⟨allowed, holds, .of_mem rfl⟩ (alignUp_fourKb_mod size)
      (alignUp_lt fourKb sizeSmall) (Nat.lt_succ_self _)
  obtain ⟨_, _, returned, keeps⟩ := looped
  rw [mapped] at returned
  cases returned
  exact keeps

theorem Holds.mapMemory_noFrame (holds : own.Holds layout machine)
    (lawful : own.Lawful layout) {paddr vaddr size result : Nat}
    {rw pl : UInt8} (sizeSmall : size < 4294967296)
    (allowed : own.MapAllowed layout layout.kernelPdt paddr vaddr
      (alignUp size fourKb) rw pl)
    (noFrame : (pfaAllocate layout 1 machine).1 = 0)
    (mapped : pdtMapKernelMemory layout paddr vaddr size rw pl machine =
      some (result, after)) : after.bits = machine.bits := by
  have kernel := kernelSlot_boot layout
  have roundBits : ∀ {middle after : Machine} {paddr vaddr size mapped},
      own.Holds layout middle → middle.bits = machine.bits →
      MapRound layout layout.kernelPdt paddr vaddr size rw pl middle mapped
        after → after.bits = machine.bits := by
    intro middle after paddr vaddr size mapped middleHolds same round
    cases round with
    | noFrame _ _ => exact same
    | existing _ _ => exact same
    | leaked absent _ isKernel _ =>
        rw [isKernel, middleHolds.bootPresent kernel] at absent
        cases absent
    | fresh _ success taken _ _ =>
        have none := pfaAllocate_fst_congr layout 1 same
        rw [success, noFrame] at none
        exact absurd none taken.notNull
  have looped : ∃ result after,
      pdtMapMemory layout layout.kernelPdt paddr vaddr size rw pl machine =
        some (result, after) ∧ after.bits = machine.bits :=
    pdtMapLoop_rule lawful.ok.toOk lawful.ok.distinct
      (fun paddr vaddr size _ middle =>
        own.MapAllowed layout layout.kernelPdt paddr vaddr size rw pl ∧
          own.Holds layout middle ∧ middle.bits = machine.bits)
      (fun _ after => after.bits = machine.bits)
      (fun _ _ _ _ _ inv =>
        inv.2.1.directory_taken lawful (Or.inr kernel))
      (fun _ _ _ _ inv => inv.2.2)
      (fun _ _ _ _ _ _ inv _ round => roundBits inv.2.1 inv.2.2 round)
      (fun _ _ _ _ _ _ _ inv sizePos _ _ round =>
        ⟨inv.1.rest, (inv.2.1.mapRound lawful inv.1 sizePos round).1,
          roundBits inv.2.1 inv.2.2 round⟩)
      ⟨allowed, holds, rfl⟩ (alignUp_fourKb_mod size)
      (alignUp_lt fourKb sizeSmall) (Nat.lt_succ_self _)
  obtain ⟨_, _, returned, same⟩ := looped
  rw [pdtMapKernelMemory, returned] at mapped
  cases mapped
  exact same

/-- The one entry that unmapping a page may change. -/
def PageCell (layout : Layout) (machine : Machine)
    (vaddr frame position : Nat) : Prop :=
  (machine.mem layout.kernelPdt (virtualToPdtIdx vaddr)).isPresent = true ∧
    frame = (machine.mem layout.kernelPdt (virtualToPdtIdx vaddr)).frame ∧
    position = virtualToPtIdx vaddr

/-- Unmapping one page of kernel memory.  In an empty slot the loop would move
on to the next one, unless the address is its first. -/
theorem Holds.unmapPage (holds : own.Holds layout machine)
    (lawful : own.Lawful layout)
    (kernelSlots : ∀ {pdtIdx}, pdtIdx < 1024 →
      own.Slot layout layout.kernelPdt pdtIdx)
    {fuel vaddr size result : Nat} (aligned : vaddr % 4096 = 0)
    (small : vaddr < 4294967296) (onePage : alignUp size fourKb = 4096)
    (slotStart : (machine.mem layout.kernelPdt
      (virtualToPdtIdx vaddr)).isPresent = false → vaddr % 4194304 = 0)
    (unmapped : pdtUnmapKernelMemory layout fuel vaddr size machine =
      some (result, after)) :
    own.Holds layout after ∧
      own.Untouched layout layout.kernelPdt machine after ∧
      after.bits = machine.bits ∧
      ∀ frame position, ¬PageCell layout machine vaddr frame position →
        after.mem frame position = machine.mem frame position := by
  have worksAt : WorksAt layout layout.kernelPdt 4096 (w32 (vaddr + 4096))
      (own.UnmapAllowed layout layout.kernelPdt 4096) (vaddr, 0, machine) :=
    fun _ _ => ⟨kernelSlots (virtualToPdtIdx_lt _), fun _ _ => by decide⟩
  rw [pdtUnmapKernelMemory, pdtUnmapMemory] at unmapped
  simp only [onePage] at unmapped
  have slotSame : ∀ {middle : Machine},
      (∀ frame position, ¬PageCell layout machine vaddr frame position →
        middle.mem frame position = machine.mem frame position) →
      middle.mem layout.kernelPdt (virtualToPdtIdx vaddr) =
        machine.mem layout.kernelPdt (virtualToPdtIdx vaddr) := by
    intro middle cells
    apply cells
    rintro ⟨present, same, _⟩
    exact (holds.table_notDirectory lawful
      (kernelSlots (virtualToPdtIdx_lt vaddr)) present).1 same.symm
  have looped := pdtUnmapLoop_rule
    (fun address middle => own.Holds layout middle ∧
      own.Untouched layout layout.kernelPdt machine middle ∧
      (address = vaddr ∨ vaddr + 4096 ≤ address) ∧
      middle.bits = machine.bits ∧
      ∀ frame position, ¬PageCell layout machine vaddr frame position →
        middle.mem frame position = machine.mem frame position)
    (by decide) (by decide)
    (fun _ _ inv _ allowed => inv.1.unmap_slotOk lawful allowed)
    ?_ ?_ ⟨holds, .refl .., Or.inl rfl, rfl, fun _ _ _ => rfl⟩ worksAt
    unmapped
  · obtain ⟨_, _, kept, untouched, _, bits, cells⟩ := looped
    exact ⟨kept, untouched, bits, cells⟩
  · rintro address middle ⟨kept, untouched, place, bits, cells⟩ below _
      absent
    refine ⟨kept, untouched, Or.inl ?_, bits, cells⟩
    have here : address = vaddr := by
      simp only [w32] at below
      omega
    subst here
    rw [slotSame cells] at absent
    rw [alignUp, if_pos (slotStart absent)]
  · rintro address middle count after ⟨kept, untouched, place, bits, cells⟩
      below allowed round
    have here : address = vaddr := by
      simp only [w32] at below
      omega
    subst here
    obtain ⟨nextKept, nextUntouched, _⟩ :=
      kept.unmapRound lawful allowed round
    cases round with
    | closed _ _ _ whole => exact absurd whole (by decide)
    | cleared present _ _ inSize _ _ =>
        refine ⟨nextKept, untouched.trans nextUntouched, ?_, bits, ?_⟩
        · simp only [w32] at *
          omega
        · intro frame position outside
          simp only [Machine.clearEntries]
          rw [if_neg, cells frame position outside]
          rintro ⟨⟨sameTable, lower, upper⟩, _⟩
          rw [slotSame cells] at present sameTable
          exact outside ⟨present, sameTable, by omega⟩

/-- The search for one page: it fails, or it finds a page, which is the first
of its slot when the slot is empty. -/
theorem Holds.findPage (holds : own.Holds layout machine) {size : Nat}
    (onePage : alignUp size fourKb = 4096) :
    (pdtKernelFindNextVaddr layout size machine).1 = 0 ∨
      FoundPages layout machine size
        (pdtKernelFindNextVaddr layout size machine).1 ∧
      ((machine.mem layout.kernelPdt (virtualToPdtIdx
          (pdtKernelFindNextVaddr layout size machine).1)).isPresent =
          false →
        (pdtKernelFindNextVaddr layout size machine).1 % 4194304 = 0) := by
  have pages : alignUp size fourKb / fourKb = 1 := by
    rw [onePage]
    decide
  rcases pdtKernelFindNextVaddr_spec layout machine
    (Nat.le_of_eq pages.symm) (by rw [pages]; decide) with
    ⟨pdtIdx, first, lower, upper, free, fromStart, found⟩ | ⟨_, failed⟩
  · right
    have inTable := free.1
    rw [found]
    refine ⟨free.found (holds.bootPresent (kernelSlot_boot layout)) lower
      upper, ?_⟩
    rw [virtualToPdtIdx_address upper (by omega)]
    intro absent
    rw [fromStart absent]
    omega
  · left
    rw [failed]

/-- Mapping a page where the search says and unmapping it again. -/
theorem Holds.pageWindow (holds : own.Holds layout machine)
    (lawful : own.Lawful layout)
    (kernelSlots : ∀ {pdtIdx}, pdtIdx < 1024 →
      own.Slot layout layout.kernelPdt pdtIdx)
    {paddr vaddr size fuel mappedSize freedSize : Nat} {rw pl : UInt8}
    (onePage : alignUp size fourKb = 4096) (sizeSmall : size < 4294967296)
    (allowed : own.MapAllowed layout layout.kernelPdt paddr vaddr
      (alignUp size fourKb) rw pl)
    (found : (pdtKernelFindNextVaddr layout size machine).1 = vaddr)
    (mapped : pdtMapKernelMemory layout paddr vaddr size rw pl machine =
      some (mappedSize, middle))
    (unmapped : pdtUnmapKernelMemory layout fuel vaddr size middle =
      some (freedSize, after)) :
    own.Holds layout after ∧
      own.Untouched layout layout.kernelPdt machine after ∧
      KeepsPages layout machine after ∧
      ((pfaAllocate layout 1 machine).1 = 0 → after.bits = machine.bits) := by
  have kernel := kernelSlot_boot layout
  obtain ⟨_, _, returned, kept, untouched⟩ := holds.mapMemory lawful
    ⟨0, kernelSlots (by decide)⟩ sizeSmall allowed
  have same := mapped
  rw [pdtMapKernelMemory, returned] at same
  cases same
  have keeps := holds.mapMemory_keepsPages lawful kernelSlots
    ⟨0, kernelSlots (by decide)⟩ sizeSmall allowed mapped
  have place : vaddr % 4096 = 0 ∧ vaddr < 4294967296 ∧
      ((middle.mem layout.kernelPdt
          (virtualToPdtIdx vaddr)).isPresent = false →
        vaddr % 4194304 = 0) ∧
      (768 ≤ virtualToPdtIdx vaddr → UnmappedAt layout machine vaddr) := by
    rcases holds.findPage onePage with isNull | ⟨pages, slotStart⟩
    · rw [found] at isNull
      subst isNull
      exact ⟨rfl, by decide, fun _ => rfl, fun lower =>
        absurd lower (by decide)⟩
    · rw [found] at pages slotStart
      have below := pages.below
      have unmappedAt := pages.unmapped 0 (by rw [onePage]; decide)
      rw [onePage] at below
      refine ⟨pages.aligned, by omega, ?_, fun _ => unmappedAt⟩
      intro absent
      apply slotStart
      by_contra present
      have lower : 768 ≤ virtualToPdtIdx vaddr := by
        have half := pages.kernelHalf
        simp only [kernelStartVaddr] at half
        rw [virtualToPdtIdx_eq]
        omega
      have wasPresent : (machine.mem layout.kernelPdt
          (virtualToPdtIdx vaddr)).isPresent = true := by simpa using present
      rw [keeps.slot lower (virtualToPdtIdx_lt _) wasPresent, wasPresent]
        at absent
      cases absent
  obtain ⟨aligned, small, slotStart, wasUnmapped⟩ := place
  obtain ⟨stillKept, stillUntouched, bits, cells⟩ := kept.unmapPage lawful
    kernelSlots aligned small onePage slotStart unmapped
  refine ⟨stillKept, untouched.trans stillUntouched, ⟨?_, ?_⟩, ?_⟩
  · intro pdtIdx lower upper present
    rw [cells, keeps.slot lower upper present]
    rintro ⟨slotPresent, sameTable, _⟩
    exact (kept.table_notDirectory lawful
      (kernelSlots (virtualToPdtIdx_lt vaddr)) slotPresent).1 sameTable.symm
  · intro pdtIdx ptIdx lower upper present pagePresent
    have slotSame := keeps.slot lower upper present
    rw [cells, keeps.page lower upper present pagePresent]
    rintro ⟨slotPresent, sameTable, rfl⟩
    -- The page that is cleared was free before.
    rw [← slotSame] at sameTable
    obtain ⟨_, rfl⟩ := kept.slot_unique lawful (kernelSlots upper)
      (kernelSlots (virtualToPdtIdx_lt vaddr))
      (by rw [slotSame]; exact present) slotPresent sameTable
    rw [wasUnmapped lower present] at pagePresent
    cases pagePresent
  · intro noFrame
    rw [bits]
    exact holds.mapMemory_noFrame lawful sizeSmall allowed noFrame mapped

end Pages

end Ownership

end Newbos
