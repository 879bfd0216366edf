import Newbos.Paging.BitmapFrames
import Newbos.Process.Create

/-!
# Rights of the kernel's mappings

All callers of `pdt_map_kernel_memory` pass `PAGING_READ_WRITE` and
`PAGING_PL0`, and `construct_bitmap` passes them in the other order: user code
can read the bitmap, and the bitmap's pages are not writable.
-/

namespace Newbos

/-- The pages of the kernel half are supervisor pages and writable, in the
page tables and in the directory. -/
def KernelMappingsProtected (layout : Layout) (machine : Machine) : Prop :=
  ∀ pdtIdx, kernelPtPdtIdx ≤ pdtIdx → pdtIdx < numEntries →
    (machine.mem layout.kernelPdt pdtIdx).isPresent = true →
    ∀ ptIdx < numEntries,
      (machine.mem (machine.mem layout.kernelPdt pdtIdx).frame
        ptIdx).isPresent = true →
      ((machine.mem layout.kernelPdt pdtIdx).bitUS = false ∧
        (machine.mem layout.kernelPdt pdtIdx).bitRW = true) ∧
      (machine.mem (machine.mem layout.kernelPdt pdtIdx).frame
        ptIdx).bitUS = false ∧
      (machine.mem (machine.mem layout.kernelPdt pdtIdx).frame
        ptIdx).bitRW = true

section Bitmap

variable {layout after : Layout} {machine afterMachine : Machine}
  {held : Nat → UInt8}

theorem not_protected {pdtIdx ptIdx frame paddr : Nat}
    (lower : kernelPtPdtIdx ≤ pdtIdx) (upper : pdtIdx < numEntries)
    (inTable : ptIdx < numEntries)
    (present : (machine.mem layout.kernelPdt pdtIdx).isPresent = true)
    (table : (machine.mem layout.kernelPdt pdtIdx).frame = frame)
    (page : machine.mem frame ptIdx = ptEntry paddr 0 1) :
    ¬KernelMappingsProtected layout machine := by
  intro isProtected
  obtain ⟨isPage, _, _, user⟩ := ptEntry_flags paddr 0 1
  rw [← page, ← table] at isPage user
  have supervisor :=
    (isProtected pdtIdx lower upper present ptIdx inTable isPage).2.1
  rw [user] at supervisor
  cases supervisor

theorem mapped_existing_not_protected
    (distinct : layout.kernelPdt ≠ layout.kernelPt)
    (below : layout.kernelPt < 1048576)
    (kernelSlot : machine.mem layout.kernelPdt kernelPtPdtIdx =
      pdtEntry (fourKb * layout.kernelPt) 0 1 0)
    {paddr first count : Nat} (positive : 1 ≤ count)
    (inTable : first + count ≤ 1024) :
    ¬KernelMappingsProtected layout
      (machine.writeEntries layout.kernelPt first count
        (pageEntries paddr 0 1)) := by
  have pde : (machine.writeEntries layout.kernelPt first count
      (pageEntries paddr 0 1)).mem layout.kernelPdt kernelPtPdtIdx =
        pdtEntry (fourKb * layout.kernelPt) 0 1 0 := by
    simp only [Machine.writeEntries, distinct, false_and, if_false]
    exact kernelSlot
  apply @not_protected layout _ kernelPtPdtIdx first layout.kernelPt paddr
  · exact Nat.le_refl _
  · decide
  · simp only [numEntries]
    omega
  · rw [pde]
    exact (pdtEntry_flags ..).1
  · rw [pde, pdtEntry_frame]
    simp only [fourKb]
    omega
  · simp only [Machine.writeEntries, true_and]
    rw [if_pos (by omega), Nat.sub_self]
    rfl

theorem mapped_fresh_not_protected {frame pdtIdx paddr count : Nat}
    (lower : kernelPtPdtIdx ≤ pdtIdx) (upper : pdtIdx < numEntries)
    (positive : 1 ≤ count) (below : frame < 1048576)
    (notPdt : frame ≠ layout.kernelPdt) :
    ¬KernelMappingsProtected layout
      ((machine.writeEntries frame 0 count (pageEntries paddr 0 1)).setEntry
        layout.kernelPdt pdtIdx (pdtEntry (fourKb * frame) 0 0 1)) := by
  apply @not_protected layout _ pdtIdx 0 frame paddr
  · exact lower
  · exact upper
  · decide
  · rw [Machine.setEntry_mem, if_pos ⟨rfl, rfl⟩]
    exact (pdtEntry_flags ..).1
  · rw [Machine.setEntry_mem, if_pos ⟨rfl, rfl⟩, pdtEntry_frame]
    simp only [fourKb]
    omega
  · rw [Machine.setEntry_mem, if_neg (fun slot => notPdt slot.1)]
    simp only [Machine.writeEntries, true_and]
    rw [if_pos ⟨Nat.le_refl _, by omega⟩]
    rfl

theorem Boot.slot_of_present (boot : Boot layout machine) {pdtIdx : Nat}
    (lower : kernelPtPdtIdx ≤ pdtIdx)
    (present : (machine.mem layout.kernelPdt pdtIdx).isPresent = true) :
    pdtIdx = kernelPtPdtIdx := by
  by_contra different
  simp only [kernelPtPdtIdx] at *
  rw [boot.others pdtIdx (by omega) different] at present
  cases present

theorem bitmap_fresh_not_protected (boot : Boot layout machine)
    (framesOk : FramesDisjoint layout.mmap layout.len)
    (distinct : layout.kernelPdt ≠ layout.kernelPt)
    (kernelPdtUnmanaged : layout.kernelPdt ∉ mmapFrames layout.mmap)
    (kernelPtUnmanaged : layout.kernelPt ∉ mmapFrames layout.mmap)
    {pdtIdx paddr size count mappedMem : Nat}
    (lower : kernelPtPdtIdx ≤ pdtIdx) (upper : pdtIdx < numEntries)
    (absent : (machine.mem layout.kernelPdt pdtIdx).isPresent = false)
    (bytes : alignUp size fourKb = 4096 * count) (positive : 1 ≤ count)
    (few : count ≤ 1024)
    (mapping : pdtMapKernelMemory layout paddr (4194304 * pdtIdx) size 0 1
      machine = some (mappedMem, afterMachine))
    (success : mappedMem ≠ 0) :
    ¬KernelMappingsProtected layout afterMachine := by
  simp only [numEntries] at upper
  have slot : virtualToPdtIdx (4194304 * pdtIdx) = pdtIdx := by
    rw [virtualToPdtIdx_eq]
    omega
  have index : virtualToPtIdx (4194304 * pdtIdx) = 0 := by
    rw [virtualToPtIdx_eq]
    omega
  have notKernel : pdtIdx ≠ kernelPtPdtIdx := by
    rintro rfl
    rw [boot.kernelSlot, (pdtEntry_flags ..).1] at absent
    cases absent
  rw [pdtMapKernelMemory, pdtMapMemory, bytes] at mapping
  have notNone : 4096 * count ≠ 0 := by omega
  rcases pfaAllocate_spec framesOk (Nat.le_refl 1) (by decide) machine with
    failed | ⟨position, frame, allocated⟩
  · simp only [pdtMapLoop, notNone, slot, absent, openTable, failed,
      Bool.not_false, Bool.false_eq_true, if_false, if_true, and_self]
      at mapping
    cases mapping
    exact absurd rfl success
  · have managed : frame ∈ mmapFrames layout.mmap :=
      List.mem_of_getElem? (allocated.numbered 0 (by decide))
    have bounds := framesOk.frame_bounds managed
    have notPdt : frame ≠ layout.kernelPdt := by
      rintro rfl
      exact kernelPdtUnmanaged managed
    have notPt : frame ≠ layout.kernelPt := by
      rintro rfl
      exact kernelPtUnmanaged managed
    rw [← slot] at absent
    obtain ⟨filled, run, unfolded⟩ := @pdtMapLoop_opens layout
      layout.kernelPdt (4096 * count) 0 1 machine
      (pfaAllocate layout 1 machine).2 paddr (4194304 * pdtIdx) frame distinct
      absent (by omega) (by omega) notNone
      (Prod.ext allocated.address rfl) (by rw [allocated.unchanged])
      (by simp only [fourKb]; omega) bounds.2 notPt notPdt
    have whole : 4096 * filled = 4096 * count := by
      apply run.full
      · rw [index]
        omega
      · rw [slot]
        rintro position _ _ (isPresent | atTmp | ⟨same, _⟩)
        · simp [Machine.zeroFrame_mem] at isPresent
        · exact notKernel atTmp.1
        · exact notPt same.symm
    have filledPos : filled ≠ 0 := by omega
    rw [unfolded, afterRound, if_neg (by omega), if_neg filledPos, whole,
      Nat.sub_self] at mapping
    obtain ⟨fuel, fuelEq⟩ : ∃ fuel, 4096 * count / fourKb = fuel + 1 :=
      ⟨count - 1, by simp only [fourKb]; omega⟩
    rw [fuelEq, pdtMapLoop, if_pos rfl] at mapping
    cases mapping
    rw [slot, index]
    exact mapped_fresh_not_protected lower upper (by omega) bounds.2 notPdt

/-- Where the kernel and the usable memory lie when `construct_bitmap` is
called. -/
structure FramesInitOk (layout : Layout) : Prop where
  regions : RegionsOk layout.mmap
  distinct : layout.kernelPdt ≠ layout.kernelPt
  kernelPtBelow : layout.kernelPt < 1048576
  kernelPdtUnmanaged : layout.kernelPdt ∉ mmapFrames layout.mmap
  kernelPtUnmanaged : layout.kernelPt ∉ mmapFrames layout.mmap

theorem carveRegion_none {mmap : List MemoryMap} {bytes : Nat}
    (tooSmall : ∀ region ∈ mmap, region.len < bytes) :
    carveRegion bytes mmap = none := by
  induction mmap with
  | nil => rfl
  | cons region rest induction =>
      obtain ⟨headSmall, restSmall⟩ := List.forall_mem_cons.mp tooSmall
      rw [carveRegion, if_neg (Nat.not_le_of_lt headSmall),
        induction restSmall]
      rfl

theorem constructBitmap_oneFrame (ok : FramesInitOk layout)
    (success : constructBitmap layout held machine =
      some (0, after, afterMachine)) :
    1 ≤ (mmapFrames layout.mmap).length := by
  obtain ⟨_, _, _, _, _, _, carve, _⟩ := constructBitmap_succeeds success
  by_contra noFrame
  have empty : (mmapFrames layout.mmap).length = 0 := by omega
  have bytes : w32 (bitmapPfs layout.mmap * fourKb) = 536870912 := by
    rw [bitmapPfs, ok.regions.totalPfs_eq, empty]
    rfl
  rw [bytes, carveRegion_none] at carve
  · cases carve
  · intro region member
    by_contra large
    have first : region.addr / fourKb ∈ region.frames := by
      apply List.mem_range'_1.mpr
      simp only [fourKb]
      omega
    have some := List.length_pos_of_mem
      (List.mem_flatMap.mpr ⟨region, member, first⟩)
    exact absurd empty (Nat.ne_of_gt some)

/-- With one frame the bitmap would describe none: `div_ceil` wraps, and the
search takes an empty slot, in which nothing can be mapped. -/
theorem constructBitmap_twoFrames (ok : FramesInitOk layout)
    (boot : Boot layout machine)
    (success : constructBitmap layout held machine =
      some (0, after, afterMachine)) :
    2 ≤ (mmapFrames layout.mmap).length := by
  have oneFrame := constructBitmap_oneFrame ok success
  obtain ⟨paddr, mmap, vaddr, searched, mappedMem, mapped, carve, found,
    notNull, mapping, enough, -, -⟩ := constructBitmap_succeeds success
  by_contra few
  have one : (mmapFrames layout.mmap).length = 1 := by omega
  have none : managedPfs layout.mmap = 0 := by
    rw [managedPfs, bitmapPfs, ok.regions.totalPfs_eq, one]
    rfl
  rw [ok.regions.bitmapPfs_w32 oneFrame] at carve
  have carved := carveRegion_spec ok.regions.region ok.regions.disjoint carve
  have framesOk := carved.framesDisjoint ok.regions oneFrame
  rw [none] at framesOk found mapping enough
  have size : divCeil 0 8 = 536870912 := by decide
  have bytes : alignUp 536870912 fourKb = 536870912 := by decide
  rw [size] at found mapping enough
  -- The boot directory has one page table, and its next slot is empty.
  have kernelSlot : (machine.mem layout.kernelPdt (1023 - 255)).isPresent =
      true := by
    rw [boot.kernelSlot]
    exact (pdtEntry_flags ..).1
  have nextSlot : (machine.mem layout.kernelPdt (1023 - 254)).isPresent =
      false := by
    rw [boot.others _ (by decide) (by decide)]
    rfl
  have searchEq : pdtKernelFindNextVaddr
      { layout with mmap := mmap, len := 0 } 536870912 machine =
        (4194304 * 769, machine) := by
    rcases @pdtFindLoop_present { layout with mmap := mmap, len := 0 }
      536870912 machine 255 (by decide) (by decide) kernelSlot with
      ⟨first, free, _⟩ | ⟨_, skipped⟩
    · have inTable := free.1
      rw [bytes] at inTable
      simp only [fourKb] at inTable
      omega
    · exact skipped.trans (pdtFindLoop_absent (by decide) nextSlot)
  rw [searchEq] at found
  cases found
  have slot : virtualToPdtIdx (4194304 * 769) = 769 := by decide
  have noFrame : pfaAllocate { layout with mmap := mmap, len := 0 } 1
      machine = (0, machine) := by
    rcases @pfaAllocate_spec { layout with mmap := mmap, len := 0 } framesOk
      1 (Nat.le_refl 1) (by decide) machine with
      failed | ⟨position, frame, allocated⟩
    · exact failed
    · have numbered := List.length_pos_of_mem
        (List.mem_of_getElem? (allocated.numbered 0 (by decide)))
      rw [framesOk.frames_length] at numbered
      exact absurd numbered (Nat.lt_irrefl 0)
  have absent : (machine.mem layout.kernelPdt 769).isPresent = false :=
    nextSlot
  rw [pdtMapKernelMemory, pdtMapMemory, bytes] at mapping
  simp only [pdtMapLoop, slot, absent, openTable, noFrame, Bool.not_false,
    Bool.false_eq_true, if_false, if_true, and_self] at mapping
  rw [if_neg (by decide)] at mapping
  cases mapping
  exact absurd enough (by decide)

theorem constructBitmap_not_protected (ok : FramesInitOk layout)
    (boot : Boot layout machine)
    (success : constructBitmap layout held machine =
      some (0, after, afterMachine)) :
    ¬KernelMappingsProtected after afterMachine := by
  have twoFrames := constructBitmap_twoFrames ok boot success
  obtain ⟨paddr, mmap, vaddr, searched, mappedMem, mapped, carve, found,
    notNull, mapping, enough, rfl, rfl⟩ := constructBitmap_succeeds success
  obtain ⟨count, _, countPos, fewPages, _, bytes⟩ :=
    ok.regions.bitmapBytes twoFrames
  have bytesPos := (ok.regions.roundings twoFrames).bytesPos
  rw [ok.regions.bitmapPfs_w32 (by omega)] at carve
  have carved := carveRegion_spec ok.regions.region ok.regions.disjoint carve
  have pageCount : alignUp (divCeil (managedPfs layout.mmap) 8) fourKb /
      fourKb = count := by
    rw [bytes]
    exact Nat.mul_div_cancel_left _ (by decide)
  have unmanaged : ∀ frame, frame ∉ mmapFrames layout.mmap →
      frame ∉ mmapFrames mmap := fun frame outside inside =>
    outside (carved.frames.mem_iff.mpr (List.mem_append_right _ inside))
  rcases pdtKernelFindNextVaddr_spec { layout with
      mmap := mmap, len := managedPfs layout.mmap } machine
    (by rw [pageCount]; exact countPos)
    (by rw [pageCount]; exact fewPages) with
    ⟨pdtIdx, first, lower, upper, free, fromStart, result⟩ | ⟨_, failed⟩
  · rw [result] at found
    cases found
    have kernelHalf : kernelPtPdtIdx ≤ pdtIdx := lower
    cases present : (machine.mem layout.kernelPdt pdtIdx).isPresent with
    | true =>
        obtain rfl := boot.slot_of_present kernelHalf present
        have inTable := free.1
        rw [pageCount] at inTable
        have filled := @pdtMapKernelMemory_existing { layout with
            mmap := mmap, len := managedPfs layout.mmap } _ machine
          ok.distinct (by rw [pageCount]; exact countPos) (by omega) _ first
          (by decide) present free paddr 0 1
        rw [filled] at mapping
        cases mapping
        have table : (machine.mem layout.kernelPdt kernelPtPdtIdx).frame =
            layout.kernelPt := by
          have below := ok.kernelPtBelow
          rw [boot.kernelSlot, pdtEntry_frame]
          simp only [fourKb]
          omega
        simp only [table, pageCount]
        exact mapped_existing_not_protected ok.distinct ok.kernelPtBelow
          boot.kernelSlot countPos inTable
    | false =>
        obtain rfl := fromStart present
        have bootAfter : Boot { layout with
            mmap := mmap, len := managedPfs layout.mmap } machine :=
          ⟨boot.identity, boot.kernelSlot, boot.others, boot.table⟩
        have exposed := bitmap_fresh_not_protected bootAfter
          (carved.framesDisjoint ok.regions (by omega)) ok.distinct
          (unmanaged _ ok.kernelPdtUnmanaged)
          (unmanaged _ ok.kernelPtUnmanaged) kernelHalf upper present bytes
          countPos fewPages mapping (by omega)
        exact exposed
  · rw [failed] at found
    cases found
    exact absurd rfl notNull

end Bitmap

/-! ## Runs -/

/-- The calls that the kernel makes after `frames_init`. -/
inductive KernelStep (layout : Layout) (base : Nat) : Kernel → Kernel → Prop
    where
  | pdtCreate {kernel : Kernel} {pdt paddr : Nat} {machine : Machine}
      (success : pdtCreate layout kernel.machine =
        some (pdt, paddr, machine)) :
      KernelStep layout base kernel { kernel with machine := machine }
  | kmalloc {kernel after : Kernel} {fuel nbytes address : Nat}
      (success : kernel.kmalloc layout base fuel nbytes =
        some (address, after)) :
      KernelStep layout base kernel after
  | kfree {kernel : Kernel} {heap : Heap} {fuel ap : Nat}
      (success : kfree fuel ap kernel.heap = some heap) :
      KernelStep layout base kernel { kernel with heap := heap }
  | processCreate {kernel after : Kernel} {fuel p : Nat}
      (success : processCreate layout base fuel kernel = some (p, after)) :
      KernelStep layout base kernel after

/-- A run with the states it has gone through, the last one first. -/
inductive KernelSteps (layout : Layout) (base : Nat) (start : Kernel) :
    List Kernel → Prop where
  | start : KernelSteps layout base start [start]
  | step {kernel after : Kernel} {earlier : List Kernel} :
      KernelSteps layout base start (kernel :: earlier) →
      KernelStep layout base kernel after →
      KernelSteps layout base start (after :: kernel :: earlier)

theorem KernelSteps.start_mem {layout : Layout} {base : Nat}
    {start : Kernel} {visited : List Kernel}
    (run : KernelSteps layout base start visited) : start ∈ visited := by
  induction run with
  | start => exact List.mem_singleton_self _
  | step _ _ induction => exact List.mem_cons_of_mem _ induction

/-- No run keeps the kernel's mappings supervisor-only and writable: the
bitmap is mapped the other way before the first call. -/
theorem kernel_mappings_exposed {layout after : Layout}
    (ok : FramesInitOk layout) {machine afterMachine : Machine}
    (boot : Boot layout machine) {held : Nat → UInt8}
    (success : constructBitmap layout held machine =
      some (0, after, afterMachine))
    {base : Nat} {start : Kernel} (framesInit : start.machine = afterMachine)
    {visited : List Kernel} (run : KernelSteps after base start visited) :
    ¬∀ kernel ∈ visited, KernelMappingsProtected after kernel.machine := by
  intro allProtected
  have atStart := allProtected start run.start_mem
  rw [framesInit] at atStart
  exact constructBitmap_not_protected ok boot success atStart

theorem regionLayout_framesInitOk : FramesInitOk (regionLayout 4) where
  regions := regionLayout_regionsOk
  distinct := by decide
  kernelPtBelow := by decide
  kernelPdtUnmanaged := by decide
  kernelPtUnmanaged := by decide

theorem kernel_mappings_exposed_threeFrames :
    ∃ after afterMachine,
      constructBitmap (regionLayout 4) (fun _ => 0)
          (bootMachine (regionLayout 4) 5) =
        some (0, after, afterMachine) ∧
      ¬∀ kernel ∈ [startKernel afterMachine],
        KernelMappingsProtected after kernel.machine := by
  have evaluated : (constructBitmap (regionLayout 4) (fun _ => 0)
      (bootMachine (regionLayout 4) 5)).map Prod.fst = some 0 := by
    decide +kernel
  obtain ⟨⟨result, after, afterMachine⟩, success, isZero⟩ :=
    Option.map_eq_some_iff.mp evaluated
  obtain rfl : result = 0 := isZero
  have boot := bootMachine_boot regionLayout_framesInitOk.distinct 5
  exact ⟨after, afterMachine, success, @kernel_mappings_exposed _ _
    regionLayout_framesInitOk _ _ boot _ success 0xC0002000
    (startKernel afterMachine) rfl _ .start⟩

/-- The page of the bitmap in the kernel's own table. -/
theorem construct_bitmap_swaps_rights :
    ∃ after afterMachine,
      constructBitmap (regionLayout 4) (fun _ => 0)
          (bootMachine (regionLayout 4) 5) =
        some (0, after, afterMachine) ∧
      afterMachine.mem 1 768 = pdtEntry (fourKb * 2) 0 1 0 ∧
      (afterMachine.mem 2 5).isPresent = true ∧
      (afterMachine.mem 2 5).bitUS = true ∧
      (afterMachine.mem 2 5).bitRW = false := by
  have evaluated : (constructBitmap (regionLayout 4) (fun _ => 0)
      (bootMachine (regionLayout 4) 5)).map (fun result =>
        (result.1, result.2.2.mem 1 768, result.2.2.mem 2 5)) =
      some (0, pdtEntry (fourKb * 2) 0 1 0, ptEntry 0x100000 0 1) := by
    decide +kernel
  obtain ⟨⟨result, after, afterMachine⟩, success, same⟩ :=
    Option.map_eq_some_iff.mp evaluated
  obtain ⟨rfl, slot, page⟩ : result = 0 ∧
      afterMachine.mem 1 768 = pdtEntry (fourKb * 2) 0 1 0 ∧
      afterMachine.mem 2 5 = ptEntry 0x100000 0 1 := by
    simpa using same
  refine ⟨after, afterMachine, success, slot, ?_⟩
  rw [page]
  decide

end Newbos
