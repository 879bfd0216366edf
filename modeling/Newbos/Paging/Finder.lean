import Newbos.Paging.Boot

/-!
# The address finder and the mapper

`pdt_kernel_find_next_vaddr` scans page tables for a run of free entries, and
`pdt_map_memory` later fills the run.  Both are compared here with one notion
of a free page, that of `Blocked`.
-/

namespace Newbos

/-- The page at an index of a slot is taken as far as the mapper can see.  In
an empty slot every page is free. -/
def PageTaken (layout : Layout) (machine : Machine) (pdtIdx ptIdx : Nat) :
    Prop :=
  (machine.mem layout.kernelPdt pdtIdx).isPresent = true ∧
    Blocked layout machine (machine.mem layout.kernelPdt pdtIdx).frame pdtIdx
      ptIdx

/-- `kernel_pdt` has no page at an address. -/
def UnmappedAt (layout : Layout) (machine : Machine) (vaddr : Nat) : Prop :=
  (machine.mem layout.kernelPdt (virtualToPdtIdx vaddr)).isPresent = true →
    (machine.mem (machine.mem layout.kernelPdt (virtualToPdtIdx vaddr)).frame
      (virtualToPtIdx vaddr)).isPresent = false

/-- The address that `pt_kernel_find_next_vaddr` builds from two indices. -/
theorem indices_address {pdtIdx ptIdx : Nat} (small : ptIdx < 1024) :
    (pdtIdx <<< 22) ||| (ptIdx <<< 12) =
      4194304 * pdtIdx + 4096 * ptIdx := by
  have below : ptIdx <<< 12 < 2 ^ 22 := by
    rw [Nat.shiftLeft_eq]
    omega
  rw [← Nat.shiftLeft_add_eq_or_of_lt below, Nat.shiftLeft_eq,
    Nat.shiftLeft_eq]
  omega

theorem virtualToPdtIdx_address {pdtIdx ptIdx : Nat} (slot : pdtIdx < 1024)
    (small : ptIdx < 1024) :
    virtualToPdtIdx (4194304 * pdtIdx + 4096 * ptIdx) = pdtIdx := by
  rw [virtualToPdtIdx_eq]
  omega

theorem virtualToPtIdx_address (pdtIdx : Nat) {ptIdx : Nat}
    (small : ptIdx < 1024) :
    virtualToPtIdx (4194304 * pdtIdx + 4096 * ptIdx) = ptIdx := by
  rw [virtualToPtIdx_eq]
  omega

/-! ## The scan of one table -/

section Scan

variable {layout : Layout} {pdtIdx numToFind pt : Nat} {machine : Machine}

/-- A run of free entries of a table. -/
def FreeRun (layout : Layout) (machine : Machine)
    (pt pdtIdx numToFind first : Nat) : Prop :=
  first + numToFind ≤ 1024 ∧
    ∀ index, first ≤ index → index < first + numToFind →
      ¬Blocked layout machine pt pdtIdx index

/-- The variables of the scan just before index `stop`: the last `numFound`
entries are free, the one before them is not, and no run that is long enough
has ended yet. -/
structure Scanned (layout : Layout) (machine : Machine)
    (pt pdtIdx numToFind stop numFound orgI : Nat) : Prop where
  short : numFound < numToFind
  inside : numFound ≤ stop
  origin : numFound ≠ 0 → orgI + numFound = stop
  free : ∀ index, stop - numFound ≤ index → index < stop →
    ¬Blocked layout machine pt pdtIdx index
  maximal : numFound = stop ∨
    Blocked layout machine pt pdtIdx (stop - numFound - 1)
  none : ∀ first, first + numToFind ≤ stop →
    ¬FreeRun layout machine pt pdtIdx numToFind first

theorem Scanned.start (pdtIdx : Nat) (positive : 1 ≤ numToFind) :
    Scanned layout machine pt pdtIdx numToFind 0 0 0 := by
  refine ⟨positive, Nat.le_refl _, fun absurd_ => absurd rfl absurd_, ?_,
    Or.inl rfl, ?_⟩
  · intro index _ upper
    omega
  · intro first within
    omega

theorem Scanned.reset {stop numFound orgI : Nat}
    (scanned : Scanned layout machine pt pdtIdx numToFind stop numFound orgI)
    (blocked : Blocked layout machine pt pdtIdx stop) :
    Scanned layout machine pt pdtIdx numToFind (stop + 1) 0 orgI := by
  have short := scanned.short
  refine ⟨by omega, Nat.zero_le _, fun absurd_ => absurd rfl absurd_, ?_,
    Or.inr blocked, ?_⟩
  · intro index lower upper
    omega
  · intro first within run
    by_cases earlier : first + numToFind ≤ stop
    · exact scanned.none first earlier run
    · exact run.2 stop (by omega) (by omega) blocked

theorem Scanned.extend {stop numFound orgI : Nat}
    (scanned : Scanned layout machine pt pdtIdx numToFind stop numFound orgI)
    (free : ¬Blocked layout machine pt pdtIdx stop)
    (short : numFound + 1 < numToFind) :
    Scanned layout machine pt pdtIdx numToFind (stop + 1) (numFound + 1)
      (if numFound = 0 then stop else orgI) := by
  have inside := scanned.inside
  have shifted : stop + 1 - (numFound + 1) = stop - numFound := by omega
  refine ⟨short, by omega, ?_, ?_, ?_, ?_⟩
  · intro _
    split_ifs with none
    · omega
    · have := scanned.origin none
      omega
  · intro index lower upper
    by_cases last : index = stop
    · rw [last]
      exact free
    · exact scanned.free index (by omega) (by omega)
  · rw [shifted]
    cases scanned.maximal with
    | inl whole => exact Or.inl (by omega)
    | inr before => exact Or.inr before
  · intro first within run
    by_cases earlier : first + numToFind ≤ stop
    · exact scanned.none first earlier run
    · -- A run that ends here would reach over the entry before the scan's.
      cases scanned.maximal with
      | inl whole => omega
      | inr before => exact run.2 _ (by omega) (by omega) before

/-- `pt_kernel_find_next_vaddr` finds a free run, or there is none. -/
theorem ptFindLoop_spec (inWindow : window layout machine = pt)
    (opened : (machine.mem layout.kernelPt kernelTmpPtIdx).isPresent = true) :
    ∀ {remaining numFound orgI : Nat}, remaining ≤ 1024 →
      Scanned layout machine pt pdtIdx numToFind (1024 - remaining) numFound
        orgI →
      (∃ first, FreeRun layout machine pt pdtIdx numToFind first ∧
        ptFindLoop layout pdtIdx numToFind machine remaining numFound orgI =
          (pdtIdx <<< 22) ||| (first <<< 12)) ∨
      ((∀ first, ¬FreeRun layout machine pt pdtIdx numToFind first) ∧
        ptFindLoop layout pdtIdx numToFind machine remaining numFound orgI =
          0) := by
  intro remaining
  induction remaining with
  | zero =>
      intro numFound orgI _ scanned
      refine Or.inr ⟨?_, rfl⟩
      intro first run
      exact scanned.none first run.1 run
  | succ remaining induction =>
      intro numFound orgI inTable scanned
      have here : 1024 - (remaining + 1) = 1023 - remaining := by omega
      have next : 1024 - remaining = 1023 - remaining + 1 := by omega
      rw [here] at scanned
      have stops : ((machine.mem (window layout machine)
            (1023 - remaining)).isPresent = true ∨
          pdtIdx = kernelPtPdtIdx ∧ 1023 - remaining = kernelTmpPtIdx) ↔
          Blocked layout machine pt pdtIdx (1023 - remaining) := by
        rw [inWindow]
        constructor
        · intro blocked
          cases blocked with
          | inl present => exact Or.inl present
          | inr atTmp => exact Or.inr (Or.inl atTmp)
        · rintro (present | atTmp | ⟨same, isTmp⟩)
          · exact Or.inl present
          · exact Or.inr atTmp
          · rw [← same, isTmp]
            exact Or.inl opened
      simp only [ptFindLoop]
      by_cases blocked : Blocked layout machine pt pdtIdx (1023 - remaining)
      · rw [if_pos (stops.mpr blocked)]
        apply induction (by omega)
        rw [next]
        exact scanned.reset blocked
      · rw [if_neg (fun stop => blocked (stops.mp stop))]
        by_cases found : numFound + 1 = numToFind
        · rw [if_pos found]
          refine Or.inl ⟨_, ⟨?_, ?_⟩, rfl⟩
          · split_ifs with none
            · omega
            · have := scanned.origin none
              omega
          · intro index lower upper
            by_cases last : index = 1023 - remaining
            · rw [last]
              exact blocked
            · apply scanned.free index
              · split_ifs at lower with none
                · omega
                · have := scanned.origin none
                  omega
              · split_ifs at upper with none
                · omega
                · have := scanned.origin none
                  omega
        · rw [if_neg found]
          apply induction (by omega)
          rw [next]
          have short := scanned.short
          exact scanned.extend blocked (by omega)

end Scan

/-! ## The scan of the directory -/

section Directory

variable {layout : Layout} {size : Nat} {machine : Machine}

/-- Enough free pages in a row, within one slot. -/
def FreePages (layout : Layout) (machine : Machine)
    (pdtIdx count first : Nat) : Prop :=
  first + count ≤ 1024 ∧
    ∀ index, first ≤ index → index < first + count →
      ¬PageTaken layout machine pdtIdx index

theorem pdtFindLoop_present {remaining : Nat}
    (sizePos : 1 ≤ alignUp size fourKb / fourKb) (slots : remaining < 256)
    (present :
      (machine.mem layout.kernelPdt (1023 - remaining)).isPresent = true) :
    (∃ first, FreePages layout machine (1023 - remaining)
        (alignUp size fourKb / fourKb) first ∧
      pdtFindLoop layout size (remaining + 1) machine =
        (4194304 * (1023 - remaining) + 4096 * first, machine)) ∨
    ((∀ first, ¬FreePages layout machine (1023 - remaining)
        (alignUp size fourKb / fourKb) first) ∧
      pdtFindLoop layout size (remaining + 1) machine =
        pdtFindLoop layout size remaining machine) := by
  generalize slotEq : 1023 - remaining = pdtIdx at *
  have kernelSlot : 768 ≤ pdtIdx := by omega
  generalize tableEq : (machine.mem layout.kernelPdt pdtIdx).frame = pt
  have below : pt < 1048576 := by
    rw [← tableEq]
    exact Entry.frame_lt _
  have opened : ((kernelMapTemporaryMemory layout (fourKb * pt)
      machine).mem layout.kernelPt kernelTmpPtIdx).isPresent = true := by
    rw [kernelMapTemporaryMemory, Machine.setEntry_mem, if_pos ⟨rfl, rfl⟩]
    exact (ptEntry_flags ..).1
  have unfolded : pdtFindLoop layout size (remaining + 1) machine =
      if ptKernelFindNextVaddr layout pdtIdx size
          (kernelMapTemporaryMemory layout (fourKb * pt) machine) ≠ 0 then
        (ptKernelFindNextVaddr layout pdtIdx size
          (kernelMapTemporaryMemory layout (fourKb * pt) machine), machine)
      else pdtFindLoop layout size remaining machine := by
    simp only [pdtFindLoop, slotEq, present, if_true,
      Entry.paddr_eq_frame, tableEq, kernelSetTemporaryEntry_restore]
  have pages : ∀ first,
      FreeRun layout
        (kernelMapTemporaryMemory layout (fourKb * pt) machine) pt pdtIdx
        (alignUp size fourKb / fourKb) first ↔
      FreePages layout machine pdtIdx (alignUp size fourKb / fourKb)
        first := by
    intro first
    simp only [FreeRun, FreePages, PageTaken, blocked_window, present,
      tableEq, true_and]
  have scan := ptFindLoop_spec
    (window_kernelMapTemporaryMemory pt below machine) opened
    (Nat.le_refl 1024) (Scanned.start pdtIdx sizePos)
  rw [unfolded]
  rcases scan with ⟨first, run, found⟩ | ⟨none, failed⟩
  · refine Or.inl ⟨first, (pages first).mp run, ?_⟩
    have inTable := run.1
    rw [indices_address (by omega)] at found
    rw [ptKernelFindNextVaddr, found, if_pos (by omega)]
  · refine Or.inr ⟨fun first free => none first ((pages first).mpr free), ?_⟩
    rw [ptKernelFindNextVaddr, failed, if_neg (by simp)]

/-- An empty slot of the directory, which the search takes for any size. -/
theorem pdtFindLoop_absent {remaining : Nat} (slots : remaining < 256)
    (absent :
      (machine.mem layout.kernelPdt (1023 - remaining)).isPresent = false) :
    pdtFindLoop layout size (remaining + 1) machine =
      (4194304 * (1023 - remaining), machine) := by
  have notNull : (1023 - remaining) <<< 22 ≠ 0 := by
    rw [Nat.shiftLeft_eq]
    omega
  simp only [pdtFindLoop, absent, Bool.false_eq_true, if_false, ne_eq,
    notNull, not_false_eq_true, if_true]
  rw [Nat.shiftLeft_eq, Nat.mul_comm]

theorem pdtFindLoop_slot (machine : Machine) {remaining : Nat}
    (sizePos : 1 ≤ alignUp size fourKb / fourKb)
    (sizeSmall : alignUp size fourKb / fourKb ≤ 1024)
    (slots : remaining < 256) :
    (∃ first, FreePages layout machine (1023 - remaining)
        (alignUp size fourKb / fourKb) first ∧
      ((machine.mem layout.kernelPdt (1023 - remaining)).isPresent = false →
        first = 0) ∧
      pdtFindLoop layout size (remaining + 1) machine =
        (4194304 * (1023 - remaining) + 4096 * first, machine)) ∨
    ((∀ first, ¬FreePages layout machine (1023 - remaining)
        (alignUp size fourKb / fourKb) first) ∧
      pdtFindLoop layout size (remaining + 1) machine =
        pdtFindLoop layout size remaining machine) := by
  cases present : (machine.mem layout.kernelPdt
      (1023 - remaining)).isPresent with
  | false =>
      refine Or.inl ⟨0, ⟨by omega, ?_⟩, fun _ => rfl,
        pdtFindLoop_absent slots present⟩
      rintro index _ _ ⟨isPresent, _⟩
      rw [present] at isPresent
      cases isPresent
  | true =>
      rcases pdtFindLoop_present sizePos slots present with
        ⟨first, free, found⟩ | ⟨none, skipped⟩
      · exact Or.inl ⟨first, free, nofun, found⟩
      · exact Or.inr ⟨none, skipped⟩

theorem pdtFindLoop_spec (layout : Layout) (machine : Machine)
    (sizePos : 1 ≤ alignUp size fourKb / fourKb)
    (sizeSmall : alignUp size fourKb / fourKb ≤ 1024) :
    ∀ {remaining : Nat}, remaining ≤ 256 →
      (∃ pdtIdx first, 1024 - remaining ≤ pdtIdx ∧ pdtIdx < 1024 ∧
        FreePages layout machine pdtIdx (alignUp size fourKb / fourKb)
          first ∧
        ((machine.mem layout.kernelPdt pdtIdx).isPresent = false →
          first = 0) ∧
        pdtFindLoop layout size remaining machine =
          (4194304 * pdtIdx + 4096 * first, machine)) ∨
      ((∀ pdtIdx first, 1024 - remaining ≤ pdtIdx → pdtIdx < 1024 →
        ¬FreePages layout machine pdtIdx (alignUp size fourKb / fourKb)
          first) ∧
        pdtFindLoop layout size remaining machine = (0, machine)) := by
  intro remaining
  induction remaining with
  | zero =>
      intro _
      refine Or.inr ⟨?_, rfl⟩
      intro pdtIdx first lower upper
      omega
  | succ remaining induction =>
      intro slots
      rcases pdtFindLoop_slot machine sizePos sizeSmall
        (show remaining < 256 by omega) with
        ⟨first, free, fromStart, found⟩ | ⟨none, skipped⟩
      · exact Or.inl ⟨_, first, by omega, by omega, free, fromStart, found⟩
      · rw [skipped]
        rcases induction (by omega) with
          ⟨pdtIdx, first, lower, upper, free, fromStart, found⟩ |
            ⟨later, failed⟩
        · exact Or.inl ⟨pdtIdx, first, by omega, upper, free, fromStart,
            found⟩
        · refine Or.inr ⟨?_, failed⟩
          intro pdtIdx first lower upper
          by_cases here : pdtIdx = 1023 - remaining
          · rw [here]
            exact none first
          · exact later pdtIdx first (by omega) upper

/-- `pdt_kernel_find_next_vaddr` finds free pages in one slot, or there are
none.  It leaves memory as it was. -/
theorem pdtKernelFindNextVaddr_spec (layout : Layout) (machine : Machine)
    (sizePos : 1 ≤ alignUp size fourKb / fourKb)
    (sizeSmall : alignUp size fourKb / fourKb ≤ 1024) :
    (∃ pdtIdx first, 768 ≤ pdtIdx ∧ pdtIdx < 1024 ∧
      FreePages layout machine pdtIdx (alignUp size fourKb / fourKb) first ∧
      ((machine.mem layout.kernelPdt pdtIdx).isPresent = false →
        first = 0) ∧
      pdtKernelFindNextVaddr layout size machine =
        (4194304 * pdtIdx + 4096 * first, machine)) ∨
    ((∀ pdtIdx first, 768 ≤ pdtIdx → pdtIdx < 1024 →
      ¬FreePages layout machine pdtIdx (alignUp size fourKb / fourKb)
        first) ∧
      pdtKernelFindNextVaddr layout size machine = (0, machine)) :=
  pdtFindLoop_spec layout machine sizePos sizeSmall
    (show numEntries - kernelPtPdtIdx ≤ 256 by decide)

theorem pdtFindLoop_first (machine : Machine)
    (sizePos : 1 ≤ alignUp size fourKb / fourKb)
    (sizeSmall : alignUp size fourKb / fourKb ≤ 1024) :
    ∀ {remaining : Nat}, remaining ≤ 256 → ∀ {slot first : Nat},
      1024 - remaining ≤ slot →
      slot < virtualToPdtIdx (pdtFindLoop layout size remaining machine).1 →
      ¬FreePages layout machine slot (alignUp size fourKb / fourKb)
        first := by
  intro remaining
  induction remaining with
  | zero =>
      intro _ slot first lower before
      have small := virtualToPdtIdx_lt
        (pdtFindLoop layout size 0 machine).1
      omega
  | succ remaining induction =>
      intro slots slot first lower before
      rcases pdtFindLoop_slot machine sizePos sizeSmall
        (show remaining < 256 by omega) with
        ⟨here, free, _, found⟩ | ⟨none, skipped⟩
      · have inTable := free.1
        rw [found, virtualToPdtIdx_address (by omega) (by omega)] at before
        omega
      · rw [skipped] at before
        by_cases atSlot : slot = 1023 - remaining
        · rw [atSlot]
          exact none first
        · exact induction (by omega) (by omega) before

/-- The mapper fills free pages in one round, unless it finds no frame for the
page table of an empty slot. -/
theorem pdtMapKernelMemory_freePages (ok : layout.Ok)
    (kernelSlot :
      (machine.mem layout.kernelPdt kernelPtPdtIdx).isPresent = true)
    (sizePos : 1 ≤ alignUp size fourKb / fourKb)
    (sizeSmall : alignUp size fourKb < 4294967296) {pdtIdx first : Nat}
    (slot : pdtIdx < 1024)
    (free : FreePages layout machine pdtIdx (alignUp size fourKb / fourKb)
      first)
    (paddr : Nat) (rw pl : UInt8) :
    ∃ result after,
      pdtMapKernelMemory layout paddr (4194304 * pdtIdx + 4096 * first) size
          rw pl machine = some (result, after) ∧
      MapRound layout layout.kernelPdt paddr
        (4194304 * pdtIdx + 4096 * first) (alignUp size fourKb) rw pl machine
        result after ∧
      (result = alignUp size fourKb ∨
        result = 0 ∧ after = machine ∧
          (machine.mem layout.kernelPdt pdtIdx).isPresent = false ∧
          pfaAllocate layout 1 machine = (0, machine)) := by
  have aligned := alignUp_fourKb_mod size
  rw [pdtMapKernelMemory, pdtMapMemory]
  generalize alignUp size fourKb = bytes at *
  simp only [fourKb] at *
  have inTable := free.1
  have firstSmall : first < 1024 := by omega
  have unmanaged : ¬FreeFrame layout machine layout.kernelPdt := fun isFree =>
    ok.kernelPdtUnmanaged isFree.1
  have slotEq := virtualToPdtIdx_address slot firstSmall
  have indexEq := virtualToPtIdx_address pdtIdx firstSmall
  generalize 4194304 * pdtIdx + 4096 * first = vaddr at *
  obtain ⟨mapped, after, round, _, unfolded⟩ := pdtMapLoop_round ok paddr
    vaddr rw pl ok.distinct unmanaged aligned sizeSmall
    (show bytes ≠ 0 by omega)
  rw [unfolded, afterRound]
  have absentSlot : (machine.mem layout.kernelPdt pdtIdx).isPresent = false →
      pdtIdx ≠ kernelPtPdtIdx := by
    rintro absent rfl
    rw [kernelSlot] at absent
    cases absent
  by_cases whole : mapped = bytes
  · subst whole
    rw [if_neg (by omega), Nat.sub_self]
    obtain ⟨fuel, fuelEq⟩ : ∃ fuel, mapped / 4096 = fuel + 1 :=
      ⟨mapped / 4096 - 1, by omega⟩
    rw [fuelEq, pdtMapLoop, if_pos rfl, Nat.zero_add, w32_of_lt sizeSmall]
    exact ⟨mapped, after, rfl, round, Or.inl rfl⟩
  · -- Only a missing frame stops the round before the last page.
    cases round with
    | noFrame absent failed =>
        refine ⟨0, _, rfl, .noFrame absent failed, ?_⟩
        rw [slotEq] at absent
        exact Or.inr ⟨rfl, rfl, absent, failed⟩
    | existing present run =>
        rw [slotEq, indexEq] at run
        rw [slotEq] at present
        refine absurd (run.full (by omega) ?_) whole
        intro index lower upper blocked
        exact free.2 index lower (by omega) ⟨present, blocked⟩
    | leaked absent _ isKernel _ =>
        rw [slotEq] at absent isKernel
        exact absurd isKernel (absentSlot absent)
    | fresh absent _ taken _ run =>
        rw [slotEq] at absent run
        rw [indexEq] at run
        have wasFree := taken.wasFree _ (Nat.le_refl _) (Nat.lt_succ_self _)
        refine absurd (run.full (by omega) ?_) whole
        rintro index lower upper (present | atTmp | ⟨same, _⟩)
        · simp [Machine.zeroFrame_mem] at present
        · exact absentSlot absent atTmp.1
        · rw [← same] at wasFree
          exact ok.kernelPtUnmanaged wasFree.1

/-- The mapper fills free pages of a table that is there, whatever the frame
map. -/
theorem pdtMapKernelMemory_existing
    (distinct : layout.kernelPdt ≠ layout.kernelPt)
    (sizePos : 1 ≤ alignUp size fourKb / fourKb)
    (sizeSmall : alignUp size fourKb < 4294967296) {pdtIdx first : Nat}
    (slot : pdtIdx < 1024)
    (present : (machine.mem layout.kernelPdt pdtIdx).isPresent = true)
    (free : FreePages layout machine pdtIdx (alignUp size fourKb / fourKb)
      first)
    (paddr : Nat) (rw pl : UInt8) :
    pdtMapKernelMemory layout paddr (4194304 * pdtIdx + 4096 * first) size rw
        pl machine =
      some (alignUp size fourKb, machine.writeEntries
        (machine.mem layout.kernelPdt pdtIdx).frame first
        (alignUp size fourKb / fourKb) (pageEntries paddr rw pl)) := by
  have aligned := alignUp_fourKb_mod size
  rw [pdtMapKernelMemory, pdtMapMemory]
  generalize alignUp size fourKb = bytes at *
  simp only [fourKb] at *
  have inTable := free.1
  have firstSmall : first < 1024 := by omega
  have slotEq := virtualToPdtIdx_address slot firstSmall
  have indexEq := virtualToPtIdx_address pdtIdx firstSmall
  generalize 4194304 * pdtIdx + 4096 * first = vaddr at *
  rw [← slotEq] at present
  obtain ⟨mapped, after, round, _, unfolded⟩ :=
    @pdtMapLoop_existing layout layout.kernelPdt bytes rw pl machine paddr
      vaddr distinct present aligned sizeSmall (by omega)
  rw [unfolded, afterRound]
  cases round with
  | noFrame absent => simp [present] at absent
  | leaked absent => simp [present] at absent
  | fresh absent => simp [present] at absent
  | @existing count _ run =>
      rw [slotEq] at present
      rw [slotEq, indexEq] at run ⊢
      have whole : 4096 * count = bytes := by
        apply run.full
        · omega
        · intro index lower upper blocked
          exact free.2 index lower (by omega) ⟨present, blocked⟩
      subst whole
      have pages : 4096 * count / 4096 = count := by omega
      obtain ⟨fuel, rfl⟩ : ∃ fuel, count = fuel + 1 :=
        ⟨count - 1, by omega⟩
      rw [if_neg (by omega), Nat.sub_self, pages, pdtMapLoop, if_pos rfl,
        Nat.zero_add, w32_of_lt sizeSmall]

/-- The pages that a successful search promises. -/
structure FoundPages (layout : Layout) (machine : Machine)
    (size vaddr : Nat) : Prop where
  aligned : vaddr % 4096 = 0
  unmapped : ∀ page, page < alignUp size fourKb / fourKb →
    UnmappedAt layout machine (vaddr + fourKb * page)
  kernelHalf : kernelStartVaddr ≤ vaddr
  oneSlot : vaddr % fourMb + alignUp size fourKb ≤ fourMb
  below : vaddr + alignUp size fourKb ≤ 4294967296
  notTemporary : ∀ page, page < alignUp size fourKb / fourKb →
    vaddr + fourKb * page ≠ kernelTmpVaddr

theorem FreePages.found {pdtIdx first : Nat}
    (kernelSlot :
      (machine.mem layout.kernelPdt kernelPtPdtIdx).isPresent = true)
    (lower : 768 ≤ pdtIdx) (upper : pdtIdx < 1024)
    (free : FreePages layout machine pdtIdx (alignUp size fourKb / fourKb)
      first) :
    FoundPages layout machine size (4194304 * pdtIdx + 4096 * first) := by
  have bytesAligned := alignUp_fourKb_mod size
  have inTable := free.1
  have pages := free.2
  generalize bytesEq : alignUp size fourKb = bytes at *
  simp only [fourKb] at inTable pages
  refine ⟨by omega, ?_, ?_, ?_, ?_, ?_⟩
  · intro page within present
    rw [bytesEq] at within
    simp only [fourKb] at within present ⊢
    have addressEq : 4194304 * pdtIdx + 4096 * first + 4096 * page =
        4194304 * pdtIdx + 4096 * (first + page) := by omega
    rw [addressEq, virtualToPdtIdx_address upper (by omega)] at present
    rw [addressEq, virtualToPdtIdx_address upper (by omega),
      virtualToPtIdx_address pdtIdx (by omega)]
    by_contra isPresent
    apply pages (first + page) (by omega) (by omega)
    exact ⟨present, Or.inl (by simpa using isPresent)⟩
  · simp only [kernelStartVaddr]
    omega
  · rw [bytesEq]
    simp only [fourMb]
    omega
  · rw [bytesEq]
    omega
  · intro page within isTmp
    rw [bytesEq] at within
    simp only [fourKb, kernelTmpVaddr] at within isTmp
    -- The temporary page is the last one of the kernel's own table.
    have isKernelSlot : pdtIdx = kernelPtPdtIdx := by
      simp only [kernelPtPdtIdx]
      omega
    apply pages (first + page) (by omega) (by omega)
    refine ⟨by rw [isKernelSlot]; exact kernelSlot, Or.inr (Or.inl ?_)⟩
    refine ⟨isKernelSlot, ?_⟩
    simp only [kernelTmpPtIdx, kernelPtPdtIdx] at *
    omega

end Directory

/-- The finder and the mapper agree.  A found address starts enough free pages
of the kernel half inside one slot, the mapper then maps all of them unless a
page table is needed and there is no frame for it, and a search fails only
when no slot has that many free pages in a row. -/
theorem find_next_vaddr_agrees {layout : Layout} (ok : layout.Ok)
    {machine : Machine}
    (kernelSlot :
      (machine.mem layout.kernelPdt kernelPtPdtIdx).isPresent = true)
    {size : Nat} (sizePos : 1 ≤ size) (sizeSmall : size ≤ fourMb) :
    (pdtKernelFindNextVaddr layout size machine).2 = machine ∧
    (∀ vaddr, (pdtKernelFindNextVaddr layout size machine).1 = vaddr →
      vaddr ≠ 0 →
      FoundPages layout machine size vaddr ∧
      ∀ paddr rw pl, ∃ result after,
        pdtMapKernelMemory layout paddr vaddr size rw pl machine =
          some (result, after) ∧
        (result = alignUp size fourKb ∨
          (machine.mem layout.kernelPdt
            (virtualToPdtIdx vaddr)).isPresent = false ∧
          (pfaAllocate layout 1 machine).1 = 0)) ∧
    ((pdtKernelFindNextVaddr layout size machine).1 = 0 →
      ∀ pdtIdx first, 768 ≤ pdtIdx → pdtIdx < 1024 →
        first + alignUp size fourKb / fourKb ≤ 1024 →
        ∃ index, first ≤ index ∧
          index < first + alignUp size fourKb / fourKb ∧
          PageTaken layout machine pdtIdx index) := by
  have rounded := le_alignUp_fourKb (show size ≤ 4294963200 by
    simp only [fourMb] at sizeSmall; omega)
  have whole := alignUp_fourKb_mod size
  have pagesPos : 1 ≤ alignUp size fourKb / fourKb := by
    simp only [fourKb] at *
    omega
  have pagesSmall : alignUp size fourKb / fourKb ≤ 1024 := by
    simp only [fourKb, fourMb] at *
    omega
  have bytesSmall : alignUp size fourKb < 4294967296 := by
    simp only [fourKb, fourMb] at *
    omega
  rcases pdtKernelFindNextVaddr_spec layout machine pagesPos pagesSmall with
    ⟨pdtIdx, first, lower, upper, free, _, found⟩ | ⟨none, failed⟩
  · rw [found]
    have inTable := free.1
    refine ⟨rfl, ?_, ?_⟩
    · rintro vaddr rfl notNull
      refine ⟨free.found kernelSlot lower upper, ?_⟩
      rw [virtualToPdtIdx_address upper (by omega)]
      intro paddr rw pl
      obtain ⟨result, after, mapped, -, outcome⟩ :=
        pdtMapKernelMemory_freePages ok kernelSlot pagesPos bytesSmall upper
          free paddr rw pl
      refine ⟨result, after, mapped, ?_⟩
      rcases outcome with whole | ⟨-, -, absent, failed⟩
      · exact Or.inl whole
      · exact Or.inr ⟨absent, by rw [failed]⟩
    · intro isNull
      omega
  · rw [failed]
    refine ⟨rfl, ?_, ?_⟩
    · intro vaddr isNull notNull
      exact absurd isNull.symm notNull
    · intro _ pdtIdx first lower upper fits
      have notFree := none pdtIdx first lower upper
      by_contra allFree
      apply notFree
      refine ⟨fits, ?_⟩
      intro index within stop taken
      exact allFree ⟨index, within, stop, taken⟩

/-- With five kernel pages mapped, the next free page is the sixth. -/
theorem find_next_vaddr_agrees_boot :
    pdtKernelFindNextVaddr twoFrameLayout 42 (bootMachine twoFrameLayout 5) =
        (0xC0005000, bootMachine twoFrameLayout 5) ∧
      FoundPages twoFrameLayout (bootMachine twoFrameLayout 5) 42
        0xC0005000 := by
  have agrees := find_next_vaddr_agrees twoFrameLayout_ok
    (bootMachine_boot twoFrameLayout_ok.distinct 5).kernelSlot_present
    (show 1 ≤ 42 by decide) (by decide)
  have found : (pdtKernelFindNextVaddr twoFrameLayout 42
      (bootMachine twoFrameLayout 5)).1 = 0xC0005000 := by
    decide +kernel
  exact ⟨Prod.ext found agrees.1,
    (agrees.2.1 0xC0005000 found (by decide)).1⟩

end Newbos
