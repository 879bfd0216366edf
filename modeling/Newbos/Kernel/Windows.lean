import Newbos.Paging.UnmapRange
import Newbos.Process.Isolation
import Newbos.Process.HeapPages

/-!
# Windows of the kernel

To reach a frame the kernel looks for free pages, maps the frame there and
unmaps the pages again.  Such a window can always be closed, and closing it
restores every translation unless the window ends with the address space.
-/

namespace Newbos

/-- Free pages of one slot that have been mapped. -/
structure OpenWindow (layout : Layout) (machine : Machine)
    (vaddr bytes : Nat) (middle : Machine) : Prop where
  aligned : vaddr % 4096 = 0
  whole : bytes % 4096 = 0
  positive : 0 < bytes
  kernelHalf : kernelStartVaddr ≤ vaddr
  oneSlot : vaddr % fourMb + bytes ≤ fourMb
  below : vaddr + bytes ≤ 4294967296
  notTemporary : ∀ address, vaddr ≤ address → address < vaddr + bytes →
    address / 4096 ≠ kernelTmpVaddr / 4096
  free : ∀ address, vaddr ≤ address → address < vaddr + bytes →
    machine.translate layout.kernelPdt address = none
  present : (middle.mem layout.kernelPdt (vaddr / fourMb)).isPresent = true
  mapped : ∀ address, vaddr ≤ address → address < vaddr + bytes →
    middle.translate layout.kernelPdt address ≠ none
  others : ∀ address < 4294967296,
    ¬(vaddr ≤ address ∧ address < vaddr + bytes) →
    middle.translate layout.kernelPdt address =
      machine.translate layout.kernelPdt address

section Windows

variable {layout : Layout} {exempt : Entry → Prop} {spaces : Spaces}
  {machine middle after : Machine} (ok : layout.BootOk)
include ok

theorem SpaceInv.rangeOwned (inv : SpaceInv layout exempt spaces machine)
    {vaddr bytes : Nat} (kernelHalf : kernelStartVaddr ≤ vaddr) :
    RangeOwned layout machine layout.kernelPdt vaddr bytes := by
  have lawful := inv.lawful ok
  have upper : ∀ slot, RangeSlots vaddr bytes slot → 768 ≤ slot := by
    intro slot reached
    simp only [RangeSlots, kernelStartVaddr, fourMb] at *
    omega
  have notDirectory : ∀ slot < 1024,
      (machine.mem layout.kernelPdt slot).isPresent = true →
      (machine.mem layout.kernelPdt slot).frame ≠ layout.kernelPdt :=
    fun slot small present => (inv.holds.table_notDirectory lawful
      (spaces.slot exempt small) present).1
  refine ⟨?_, ?_, ?_, ?_⟩
  · intro slot reached present
    exact inv.holdsTable (upper slot reached) reached.2.1 present
  · intro slot reached present
    refine ⟨notDirectory slot reached.2.1 present, ?_⟩
    intro _ _ notKernelPt
    refine inv.holds.managed ⟨reached.2.1, Or.inl ⟨rfl, ?_⟩⟩ present
    rintro ⟨_, isKernelPt | isZero⟩
    · exact notKernelPt isKernelPt
    · have lower := upper slot reached
      omega
  · exact fun slot small holds => notDirectory slot small holds.isPresent
  · intro slot other reached small different present holds same
    exact different (inv.holds.slot_unique lawful (spaces.slot exempt small)
      (spaces.slot exempt reached.2.1) holds.isPresent present same).2

/-- A present slot of the kernel half that names `kernel_pt` is slot 768. -/
theorem SpaceInv.kernelPtSlot (inv : SpaceInv layout exempt spaces machine)
    {pdtIdx : Nat} (small : pdtIdx < 1024)
    (present : (machine.mem layout.kernelPdt pdtIdx).isPresent = true)
    (names : (machine.mem layout.kernelPdt pdtIdx).frame = layout.kernelPt) :
    pdtIdx = kernelPtPdtIdx := by
  have lawful := inv.lawful ok
  have kernel := Ownership.kernelSlot_boot layout
  refine (inv.holds.slot_unique lawful (spaces.slot exempt small)
    (Or.inr kernel) present (inv.holds.bootPresent kernel) ?_).2
  rw [names, inv.holds.bootFrame lawful kernel, Ownership.bootTable,
    if_pos rfl]

theorem SpaceInv.opensWindow (inv : SpaceInv layout exempt spaces machine)
    {paddr vaddr size result : Nat} (paddrSmall : paddr < 4294967296)
    (sizePos : 1 ≤ size) (sizeSmall : size ≤ fourMb)
    (found : (pdtKernelFindNextVaddr layout size machine).1 = vaddr)
    (notNull : vaddr ≠ 0)
    (mapped : pdtMapKernelMemory layout paddr vaddr size 1 0 machine =
      some (result, middle)) (success : result ≠ 0) :
    OpenWindow layout machine vaddr (alignUp size fourKb) middle := by
  obtain ⟨pages, isResult, count, whole, progress⟩ := inv.mapProgress ok
    paddrSmall sizePos sizeSmall found notNull mapped success
  have aligned := pages.aligned
  have below := pages.below
  have positive : 0 < count := by omega
  have inRange : ∀ address, vaddr ≤ address →
      address < vaddr + alignUp size fourKb →
      ∃ page < count, 4096 * (address / 4096) = vaddr + 4096 * page := by
    intro address lower upper
    exact ⟨address / 4096 - vaddr / 4096, by omega, by omega⟩
  constructor
  · exact aligned
  · exact alignUp_fourKb_mod size
  · omega
  · exact pages.kernelHalf
  · exact pages.oneSlot
  · exact below
  · intro address lower upper temporary
    obtain ⟨page, within, start⟩ := inRange address lower upper
    apply pages.notTemporary page
    · simp only [fourKb] at whole ⊢
      omega
    · simp only [fourKb, kernelTmpVaddr] at temporary ⊢
      omega
  · intro address lower upper
    obtain ⟨page, within, start⟩ := inRange address lower upper
    rw [machine.translate_page, start, Machine.translate_eq_mapping,
      progress.unmapped within]
    rfl
  · have table := (progress.slots 0 positive).isPresent
    rwa [Nat.mul_zero, Nat.add_zero, virtualToPdtIdx_of_lt (by omega)]
      at table
  · intro address lower upper
    obtain ⟨page, within, start⟩ := inRange address lower upper
    rw [middle.translate_page, start, Machine.translate_eq_mapping,
      progress.mapping_page within]
    exact Option.some_ne_none _
  · intro address small outside
    rw [Machine.translate_eq_mapping, Machine.translate_eq_mapping,
      progress.mapping_other]
    intro among
    have inside := among.inRange aligned (by omega) small
    omega

/-- A window that does not end with the address space is closed. -/
theorem OpenWindow.closes {vaddr size : Nat}
    (opened : OpenWindow layout machine vaddr (alignUp size fourKb) middle)
    (inv : SpaceInv layout exempt spaces middle)
    (fits : vaddr + alignUp size fourKb < 4294967296) :
    (∃ fuel result,
      pdtUnmapKernelMemory layout fuel vaddr size middle = some result) ∧
    ∀ fuel freed after, pdtUnmapKernelMemory layout fuel vaddr size middle =
        some (freed, after) →
      ∀ address < 4294967296, after.translate layout.kernelPdt address =
        machine.translate layout.kernelPdt address := by
  have owned : RangeOwned layout middle layout.kernelPdt vaddr
      (alignUp size fourKb) := inv.rangeOwned ok opened.kernelHalf
  have oneSlot := opened.oneSlot
  have positive := opened.positive
  refine ⟨?_, ?_⟩
  · have returns : UnmapReturns middle layout.kernelPdt vaddr
        (alignUp size fourKb) := by
      refine Or.inr (Or.inr ⟨?_, ?_, ?_, ?_⟩)
      · rw [opened.present]
        exact fun absent => by cases absent
      · intro large
        simp only [fourMb] at *
        omega
      · intro slot lower upper
        simp only [fourMb] at *
        omega
      · intro lower upper
        exact absurd rfl (opened.notTemporary kernelTmpVaddr lower upper)
    have ends : UnmapEnds layout layout.kernelPdt (alignUp size fourKb)
        (vaddr + alignUp size fourKb) (vaddr, 0, middle) :=
      (unmapEnds_range_iff ok.framesOk opened.aligned opened.whole
        (by omega) fits owned.managed).mpr returns
    rw [← w32_of_lt fits] at ends
    exact (pdtUnmapMemory_some_iff size).mpr ends
  · intro fuel freed after returned address small
    obtain ⟨_, unmapped⟩ := pdtUnmapMemory_mapping ok.toOk opened.aligned fits
      owned returned
    have stop : unmapEnd vaddr (alignUp size fourKb) =
        vaddr + alignUp size fourKb := by
      rw [unmapEnd, if_pos]
      simp only [lastSlot, fourMb] at *
      omega
    rw [stop] at unmapped
    rw [Machine.translate_eq_mapping, unmapped address small]
    by_cases inside : vaddr ≤ address ∧ address < vaddr + alignUp size fourKb
    · have notTemporary : ¬TemporaryPage layout middle layout.kernelPdt
          address := by
        rintro ⟨names, index⟩
        have slot : virtualToPdtIdx address = vaddr / fourMb := by
          rw [virtualToPdtIdx_of_lt small]
          simp only [fourMb] at *
          omega
        have isKernelPt := inv.kernelPtSlot ok (virtualToPdtIdx_lt address)
          (by rw [slot]; exact opened.present) names
        apply opened.notTemporary address inside.1 inside.2
        rw [virtualToPtIdx_eq] at index
        rw [virtualToPdtIdx_eq] at isKernelPt
        simp only [kernelPtPdtIdx, kernelTmpPtIdx, kernelTmpVaddr] at *
        omega
      rw [if_pos ⟨inside, notTemporary⟩, opened.free address inside.1
        inside.2]
      rfl
    · rw [if_neg fun all => inside all.1, ← Machine.translate_eq_mapping,
        opened.others address small inside]

omit ok in
/-- The end of a window at the end of the address space is 0, and nothing is
unmapped. -/
theorem pdtUnmapKernelMemory_atEnd {vaddr size fuel freed : Nat}
    (atEnd : vaddr + alignUp size fourKb = 4294967296)
    (returned : pdtUnmapKernelMemory layout fuel vaddr size middle =
      some (freed, after)) : after = middle := by
  have wraps : w32 4294967296 = 0 := rfl
  rw [pdtUnmapKernelMemory, pdtUnmapMemory] at returned
  simp only [atEnd, wraps] at returned
  cases fuel with
  | zero => cases returned
  | succ fuel =>
      rw [pdtUnmapLoop, if_neg (Nat.not_lt_zero _)] at returned
      cases returned
      rfl

/-- A window is found, mapped and unmapped again.  The last call returns, and
each address translates as it did before the first one, exactly when the
window does not end with the address space. -/
theorem kernel_window_closes_iff
    (inv : SpaceInv layout exempt spaces machine)
    {paddr vaddr size result : Nat} (paddrSmall : paddr < 4294967296)
    (sizePos : 1 ≤ size) (sizeSmall : size ≤ fourMb)
    (found : (pdtKernelFindNextVaddr layout size machine).1 = vaddr)
    (notNull : vaddr ≠ 0)
    (mapped : pdtMapKernelMemory layout paddr vaddr size 1 0 machine =
      some (result, middle)) (success : result ≠ 0) :
    (∃ fuel outcome,
      pdtUnmapKernelMemory layout fuel vaddr size middle = some outcome) ∧
    ∀ fuel freed after,
      pdtUnmapKernelMemory layout fuel vaddr size middle =
        some (freed, after) →
      ((∀ address < 4294967296, after.translate layout.kernelPdt address =
          machine.translate layout.kernelPdt address) ↔
        vaddr + alignUp size fourKb < 4294967296) := by
  have opened := inv.opensWindow ok paddrSmall sizePos sizeSmall found
    notNull mapped success
  have invMiddle := (inv.mapKernel ok (by
    simp only [fourMb] at sizeSmall
    omega) mapped).inv
  by_cases fits : vaddr + alignUp size fourKb < 4294967296
  · obtain ⟨returns, restores⟩ := opened.closes ok invMiddle fits
    refine ⟨returns, ?_⟩
    intro fuel freed after returned
    exact ⟨fun _ => fits, fun _ => restores fuel freed after returned⟩
  · have below := opened.below
    have atEnd : vaddr + alignUp size fourKb = 4294967296 := by omega
    have positive := opened.positive
    refine ⟨⟨1, (0, middle), ?_⟩, ?_⟩
    · rw [pdtUnmapKernelMemory, pdtUnmapMemory]
      simp only [atEnd]
      rfl
    · intro fuel freed after returned
      rw [pdtUnmapKernelMemory_atEnd atEnd returned]
      refine ⟨?_, fun within => absurd within fits⟩
      intro restored
      have same := restored vaddr (by omega)
      rw [opened.free vaddr (Nat.le_refl _) (by omega)] at same
      exact absurd same (opened.mapped vaddr (Nat.le_refl _) (by omega))

end Windows

/-- The window for the code of a process, on its first frame. -/
theorem kernel_window_closes_iff_code :
    ∃ vaddr middle fuel freed after,
      pdtMapKernelMemory highLayout 0x7FEE000 vaddr 42 1 0
        highKernel.machine = some (4096, middle) ∧
      pdtUnmapKernelMemory highLayout fuel vaddr 42 middle =
        some (freed, after) ∧
      ∀ address < 4294967296,
        after.translate highLayout.kernelPdt address =
          highKernel.machine.translate highLayout.kernelPdt address := by
  have evaluated : (pdtKernelFindNextVaddr highLayout 42
        highKernel.machine).1 = 0xC03DF000 ∧
      (pdtMapKernelMemory highLayout 0x7FEE000 0xC03DF000 42 1 0
        highKernel.machine).map Prod.fst = some 4096 := by
    decide +kernel
  obtain ⟨found, mapped⟩ := evaluated
  obtain ⟨⟨result, middle⟩, mapped, isResult⟩ :=
    Option.map_eq_some_iff.mp mapped
  obtain rfl : result = 4096 := isResult
  obtain ⟨⟨fuel, ⟨freed, after⟩, returned⟩, restores⟩ :=
    kernel_window_closes_iff highLayout_bootOk highKernel_boot.spaceInv
      (by decide) (by decide) (by decide) found (by decide) mapped (by decide)
  exact ⟨_, middle, fuel, freed, after, mapped, returned,
    (restores fuel freed after returned).mpr (by decide)⟩

end Newbos
