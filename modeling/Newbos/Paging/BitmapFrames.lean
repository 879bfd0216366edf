import Newbos.Paging.Bitmap
import Newbos.Paging.Finder

/-!
# The bitmap's own frames

The frames under the bitmap leave the frame map before it is set up.  The
number of frames that is cut out comes from all regions, the number that is
mapped from the remaining ones, and the words that the allocator reads from
the remaining ones again.
-/

namespace Newbos

/-! ## Cutting out frames -/

/-- What is left of a list of regions once some frames are cut out of it. -/
structure Carved (mmap : List MemoryMap) (pfs paddr : Nat)
    (carved : List MemoryMap) : Prop where
  region : ∀ entry ∈ carved, entry.WellFormed
  aligned : paddr % fourKb = 0
  inside : ∀ entry ∈ carved, ∃ whole ∈ mmap, whole.addr ≤ entry.addr ∧
    entry.addr + entry.len ≤ whole.addr + whole.len
  disjoint : carved.Pairwise fun first second =>
    ∀ paddr, first.Contains paddr → ¬second.Contains paddr
  frames : (mmapFrames mmap).Perm
    (List.range' (paddr / fourKb) pfs ++ mmapFrames carved)

section Carving

variable {region : MemoryMap} {rest carved : List MemoryMap}
  {pfs paddr : Nat}

/-- The frames come from the front of the first region. -/
theorem Carved.cut (headFormed : region.WellFormed)
    (restFormed : ∀ entry ∈ rest, entry.WellFormed)
    (disjoint : (region :: rest).Pairwise fun first second =>
      ∀ paddr, first.Contains paddr → ¬second.Contains paddr)
    (fits : fourKb * pfs ≤ region.len) :
    Carved (region :: rest) pfs region.addr
      (⟨region.addr + fourKb * pfs, region.len - fourKb * pfs⟩ :: rest) := by
  obtain ⟨headDisjoint, restDisjoint⟩ := List.pairwise_cons.mp disjoint
  obtain ⟨addrAligned, lenAligned, below⟩ := headFormed
  simp only [fourKb] at *
  refine ⟨?_, addrAligned, ?_, ?_, ?_⟩
  · refine List.forall_mem_cons.mpr ⟨⟨?_, ?_, ?_⟩, restFormed⟩
    · simp only [fourKb]
      omega
    · simp only [fourKb]
      omega
    · simp only
      omega
  · intro entry member
    rcases List.mem_cons.mp member with rfl | later
    · refine ⟨region, List.mem_cons_self .., ?_, ?_⟩
      · simp only
        omega
      · simp only
        omega
    · exact ⟨entry, List.mem_cons_of_mem _ later, Nat.le_refl _,
        Nat.le_refl _⟩
  · refine List.pairwise_cons.mpr ⟨?_, restDisjoint⟩
    intro later member address inCut
    apply headDisjoint later member
    unfold MemoryMap.Contains at *
    simp only at inCut
    omega
  · have split : region.frames =
        List.range' (region.addr / 4096) pfs ++
          (⟨region.addr + 4096 * pfs, region.len - 4096 * pfs⟩ :
            MemoryMap).frames := by
      have start : (region.addr + 4096 * pfs) / 4096 =
          region.addr / 4096 + pfs := by omega
      have count : region.len / 4096 =
          pfs + (region.len - 4096 * pfs) / 4096 := by omega
      simp only [MemoryMap.frames, fourKb, start]
      rw [count, List.range'_append_1]
    simp only [mmapFrames, List.flatMap_cons, split, List.append_assoc]
    exact List.Perm.refl _

/-- The frames come from a later region. -/
theorem Carved.skip (headFormed : region.WellFormed)
    (headDisjoint : ∀ later ∈ rest,
      ∀ paddr, region.Contains paddr → ¬later.Contains paddr)
    (restSpec : Carved rest pfs paddr carved) :
    Carved (region :: rest) pfs paddr (region :: carved) := by
  refine ⟨?_, restSpec.aligned, ?_, ?_, ?_⟩
  · exact List.forall_mem_cons.mpr ⟨headFormed, restSpec.region⟩
  · intro entry member
    rcases List.mem_cons.mp member with rfl | later
    · exact ⟨entry, List.mem_cons_self .., Nat.le_refl _, Nat.le_refl _⟩
    · obtain ⟨whole, wholeMember, bounds⟩ := restSpec.inside entry later
      exact ⟨whole, List.mem_cons_of_mem _ wholeMember, bounds⟩
  · refine List.pairwise_cons.mpr ⟨?_, restSpec.disjoint⟩
    intro later member address inHead
    obtain ⟨whole, wholeMember, lower, upper⟩ := restSpec.inside later member
    have outside := headDisjoint whole wholeMember address inHead
    unfold MemoryMap.Contains at *
    omega
  · have frames := restSpec.frames.append_left region.frames
    refine frames.trans ?_
    simp only [mmapFrames, List.flatMap_cons]
    exact List.perm_append_comm_assoc ..

theorem carveRegion_spec {mmap : List MemoryMap}
    (regions : ∀ entry ∈ mmap, entry.WellFormed)
    (disjoint : mmap.Pairwise fun first second =>
      ∀ paddr, first.Contains paddr → ¬second.Contains paddr)
    (carve : carveRegion (fourKb * pfs) mmap = some (paddr, carved)) :
    Carved mmap pfs paddr carved := by
  induction mmap generalizing carved with
  | nil => cases carve
  | cons region rest induction =>
      obtain ⟨headFormed, restFormed⟩ := List.forall_mem_cons.mp regions
      obtain ⟨headDisjoint, restDisjoint⟩ := List.pairwise_cons.mp disjoint
      have below := headFormed.below
      rw [carveRegion] at carve
      by_cases fits : fourKb * pfs ≤ region.len
      · rw [if_pos fits, w32_of_lt (by omega), sub32_of_le fits] at carve
        cases carve
        exact Carved.cut headFormed restFormed disjoint fits
      · rw [if_neg fits] at carve
        obtain ⟨⟨start, restCarved⟩, found, same⟩ :=
          Option.map_eq_some_iff.mp carve
        cases same
        exact Carved.skip headFormed headDisjoint
          (induction restFormed restDisjoint found)

end Carving

/-! ## The four roundings -/

/-- The regions before the bitmap is cut out, as `frames_init` has aligned
them. -/
structure RegionsOk (mmap : List MemoryMap) : Prop where
  region : ∀ entry ∈ mmap, entry.WellFormed
  disjoint : mmap.Pairwise fun first second =>
    ∀ paddr, first.Contains paddr → ¬second.Contains paddr
  aboveOneMb : ∀ entry ∈ mmap, 0x100000 ≤ entry.addr

section Roundings

variable {mmap : List MemoryMap}

theorem RegionsOk.framesDisjoint (ok : RegionsOk mmap) :
    FramesDisjoint mmap (mmapFrames mmap).length where
  region := ok.region
  disjoint := ok.disjoint
  aboveOneMb := ok.aboveOneMb
  total := by rw [← mmapFrames_length ok.region, Nat.mul_comm]

theorem totalPfsFrom_eq (regions : ∀ entry ∈ mmap, entry.WellFormed)
    {total : Nat} (small : total + (mmapFrames mmap).length < 4294967296) :
    totalPfsFrom mmap total = total + (mmapFrames mmap).length := by
  induction mmap generalizing total with
  | nil => rfl
  | cons region rest induction =>
      obtain ⟨_, restFormed⟩ := List.forall_mem_cons.mp regions
      have count : (mmapFrames (region :: rest)).length =
          region.len / fourKb + (mmapFrames rest).length := by
        simp [mmapFrames, MemoryMap.frames]
      rw [count] at small
      rw [totalPfsFrom, w32_of_lt (by omega),
        induction restFormed (by omega), count, Nat.add_assoc]

theorem RegionsOk.totalPfs_eq (ok : RegionsOk mmap) :
    totalPfs mmap = (mmapFrames mmap).length := by
  have bound := ok.framesDisjoint.len_le
  rw [totalPfs, totalPfsFrom_eq ok.region (by omega), Nat.zero_add]

theorem divCeil_of_pos {num : Nat} (positive : 1 ≤ num) (den : Nat) :
    divCeil num den = (num - 1) / den + 1 := by
  rw [divCeil, sub32_of_le positive]

theorem divCeil_pages {num : Nat} (positive : 1 ≤ num) :
    divCeil (divCeil num 8) fourKb = (num - 1) / 8 / 4096 + 1 := by
  rw [divCeil_of_pos positive, divCeil_of_pos (Nat.succ_pos _),
    Nat.succ_sub_one]

theorem RegionsOk.bitmapPfs_eq (ok : RegionsOk mmap)
    (oneFrame : 1 ≤ (mmapFrames mmap).length) :
    bitmapPfs mmap = ((mmapFrames mmap).length - 1) / 8 / 4096 + 1 := by
  rw [bitmapPfs, ok.totalPfs_eq]
  exact divCeil_pages oneFrame

theorem RegionsOk.bitmapPfs_w32 (ok : RegionsOk mmap)
    (oneFrame : 1 ≤ (mmapFrames mmap).length) :
    w32 (bitmapPfs mmap * fourKb) = fourKb * bitmapPfs mmap := by
  have bound := ok.framesDisjoint.len_le
  have cut := ok.bitmapPfs_eq oneFrame
  rw [w32_of_lt (by simp only [fourKb]; omega), Nat.mul_comm]

theorem RegionsOk.split (ok : RegionsOk mmap)
    (oneFrame : 1 ≤ (mmapFrames mmap).length) :
    bitmapPfs mmap + managedPfs mmap = (mmapFrames mmap).length := by
  have cut := ok.bitmapPfs_eq oneFrame
  rw [managedPfs, ok.totalPfs_eq, sub32_of_le (by omega)]
  omega

/-- The numbers that `construct_bitmap` computes from two frames or more. -/
structure Roundings (mmap : List MemoryMap) : Prop where
  some : 1 ≤ managedPfs mmap
  bytesPos : 1 ≤ divCeil (managedPfs mmap) 8
  pages : divCeil (divCeil (managedPfs mmap) 8) fourKb ≤ bitmapPfs mmap
  words : divCeil (managedPfs mmap) 32 ≤
    1024 * divCeil (divCeil (managedPfs mmap) 8) fourKb

theorem RegionsOk.roundings (ok : RegionsOk mmap)
    (twoFrames : 2 ≤ (mmapFrames mmap).length) : Roundings mmap := by
  have cut := ok.bitmapPfs_eq (by omega)
  have split := ok.split (by omega)
  have positive : 1 ≤ managedPfs mmap := by omega
  have mapped := divCeil_pages positive
  refine ⟨positive, Nat.succ_pos _, ?_, ?_⟩
  · rw [mapped]
    omega
  · rw [mapped, divCeil_of_pos positive]
    omega

/-- `align_up` to whole pages, as a number of pages. -/
theorem alignUp_pages {size : Nat} (positive : 1 ≤ size)
    (small : size ≤ 1048576) :
    alignUp size fourKb = fourKb * divCeil size fourKb := by
  obtain ⟨lower, upper⟩ := le_alignUp_fourKb (n := size) (by omega)
  have whole := alignUp_fourKb_mod size
  rw [divCeil_of_pos positive]
  simp only [fourKb] at *
  omega

theorem RegionsOk.bitmapBytes (ok : RegionsOk mmap)
    (twoFrames : 2 ≤ (mmapFrames mmap).length) :
    ∃ count, divCeil (divCeil (managedPfs mmap) 8) fourKb = count ∧
      1 ≤ count ∧ count ≤ 1024 ∧ count ≤ bitmapPfs mmap ∧
      alignUp (divCeil (managedPfs mmap) 8) fourKb = 4096 * count := by
  have bound := ok.framesDisjoint.len_le
  have split := ok.split (by omega)
  obtain ⟨some, bytesPos, pages, _⟩ := ok.roundings twoFrames
  have bitmapSize : divCeil (managedPfs mmap) 8 ≤ 1048576 := by
    rw [divCeil_of_pos some]
    omega
  refine ⟨_, rfl, Nat.succ_pos _, ?_, pages,
    alignUp_pages bytesPos bitmapSize⟩
  rw [divCeil_pages some]
  omega

end Roundings

/-! ## Where the bitmap lies -/

/-- A physical frame that is mapped for the bitmap. -/
def BitmapFrame (after : Layout) (machine : Machine) (frame : Nat) : Prop :=
  ∃ page < divCeil (divCeil after.len 8) fourKb,
    machine.translate after.kernelPdt (after.start + fourKb * page) =
      some frame

/-- The bitmap has frames of its own, and they hold all words in use. -/
structure BitmapStored (layout after : Layout) (machine : Machine) :
    Prop where
  total : after.len * fourKb = mmapBytes after.mmap
  cutOut : ∀ frame, BitmapFrame after machine frame →
    frame ∈ mmapFrames layout.mmap ∧ frame ∉ mmapFrames after.mmap
  paddrForIdx : ∀ frame, BitmapFrame after machine frame →
    ∀ bitIdx, paddrForIdx after.mmap bitIdx / fourKb ≠ frame
  pfaAllocate : ∀ frame, BitmapFrame after machine frame →
    ∀ count state, count < 4294967296 →
      (pfaAllocate after count state).1 ≠ 0 →
      frame ∉ blockFrames (pfaAllocate after count state).1 count
  words : ∀ word, word < divCeil after.len 32 ∨
      (∃ bitIdx < after.len, word = bitIdx / 32) →
    ∃ frame, BitmapFrame after machine frame ∧
      machine.translate after.kernelPdt (w32 (after.start + 4 * word)) =
        some frame

section Storage

variable {layout after : Layout} {machine afterMachine : Machine}
  {held : Nat → UInt8}

theorem kernelTable_translate (distinct : layout.kernelPdt ≠ layout.kernelPt)
    (below : layout.kernelPt < 1048576)
    (kernelSlot : machine.mem layout.kernelPdt kernelPtPdtIdx =
      pdtEntry (fourKb * layout.kernelPt) 0 1 0)
    {paddr first pages : Nat} (inTable : first + pages ≤ 1024)
    (small : paddr + fourKb * pages ≤ 4294967296) (rw pl : UInt8)
    {address page : Nat} (within : page < pages)
    (onPage : address / 4096 = 1024 * kernelPtPdtIdx + first + page) :
    (machine.writeEntries layout.kernelPt first pages
        (pageEntries paddr rw pl)).translate layout.kernelPdt address =
      some ((paddr + fourKb * page) / fourKb) := by
  have slot : virtualToPdtIdx address = kernelPtPdtIdx := by
    rw [virtualToPdtIdx_eq]
    simp only [kernelPtPdtIdx] at *
    omega
  have index : virtualToPtIdx address = first + page := by
    rw [virtualToPtIdx_eq]
    simp only [kernelPtPdtIdx] at *
    omega
  have pde : (machine.writeEntries layout.kernelPt first pages
      (pageEntries paddr rw pl)).mem layout.kernelPdt kernelPtPdtIdx =
        pdtEntry (fourKb * layout.kernelPt) 0 1 0 := by
    simp only [Machine.writeEntries, distinct, false_and, if_false]
    exact kernelSlot
  obtain ⟨_, valid, smallPages, _⟩ :=
    pdtEntry_flags (fourKb * layout.kernelPt) 1 0
  have table : (pdtEntry (fourKb * layout.kernelPt) 0 1 0).frame =
      layout.kernelPt := by
    rw [pdtEntry_frame]
    simp only [fourKb]
    omega
  have pte : (machine.writeEntries layout.kernelPt first pages
      (pageEntries paddr rw pl)).mem layout.kernelPt (first + page) =
        ptEntry (paddr + fourKb * page) rw pl := by
    simp only [Machine.writeEntries, true_and]
    rw [if_pos (by omega), Nat.add_sub_cancel_left, pageEntries]
  obtain ⟨_, mapped, _⟩ := ptEntry_flags (paddr + fourKb * page) rw pl
  have noWrap : (paddr + fourKb * page) % 4294967296 =
      paddr + fourKb * page := by
    simp only [fourKb] at *
    omega
  simp only [Machine.translate, slot, index, pde, valid, smallPages, table,
    pte, mapped, if_true, Bool.false_eq_true, if_false]
  rw [ptEntry_frame, noWrap]

theorem Carved.frame {mmap carved : List MemoryMap} {pfs paddr page : Nat}
    (spec : Carved mmap pfs paddr carved) (within : page < pfs) :
    paddr / fourKb + page ∈ mmapFrames mmap := by
  apply spec.frames.mem_iff.mpr
  apply List.mem_append_left
  exact List.mem_range'_1.mpr
    ⟨Nat.le_add_right _ _, Nat.add_lt_add_left within _⟩

theorem Carved.frame_notLeft {mmap carved : List MemoryMap}
    {pfs paddr page : Nat} (spec : Carved mmap pfs paddr carved)
    (nodup : (mmapFrames mmap).Nodup) (within : page < pfs) :
    paddr / fourKb + page ∉ mmapFrames carved := by
  have bothNodup := spec.frames.nodup_iff.mp nodup
  have apart := (List.nodup_append'.mp bothNodup).2.2
  intro left
  apply apart _ left
  exact List.mem_range'_1.mpr
    ⟨Nat.le_add_right _ _, Nat.add_lt_add_left within _⟩

/-- What a successful call has mapped, when the bitmap fits into the kernel's
own table. -/
structure BitmapPlaced (layout after : Layout) (machine : Machine)
    (paddr : Nat) : Prop where
  len : after.len = managedPfs layout.mmap
  carved : Carved layout.mmap (bitmapPfs layout.mmap) paddr after.mmap
  aligned : after.start % 4096 = 0
  below : after.start +
    4096 * divCeil (divCeil after.len 8) fourKb ≤ 4294967296
  translate : ∀ address page, page < divCeil (divCeil after.len 8) fourKb →
    address / 4096 = after.start / 4096 + page →
    machine.translate after.kernelPdt address = some (paddr / fourKb + page)

theorem constructBitmap_placed (ok : RegionsOk layout.mmap)
    (twoFrames : 2 ≤ (mmapFrames layout.mmap).length)
    (distinct : layout.kernelPdt ≠ layout.kernelPt)
    (below : layout.kernelPt < 1048576)
    (kernelSlot : machine.mem layout.kernelPdt kernelPtPdtIdx =
      pdtEntry (fourKb * layout.kernelPt) 0 1 0)
    (success : constructBitmap layout held machine =
      some (0, after, afterMachine))
    (inKernelTable : after.start < kernelStartVaddr + fourMb) :
    ∃ paddr, BitmapPlaced layout after afterMachine paddr := by
  obtain ⟨paddr, mmap, vaddr, searched, mappedMem, mapped, carve, found,
    notNull, mapping, enough, rfl, rfl⟩ := constructBitmap_succeeds success
  obtain ⟨count, countEq, countPos, fewPages, inCut, rounded⟩ :=
    ok.bitmapBytes twoFrames
  rw [ok.bitmapPfs_w32 (by omega)] at carve
  have carved := carveRegion_spec ok.region ok.disjoint carve
  have pageCount : alignUp (divCeil (managedPfs layout.mmap) 8) fourKb /
      fourKb = count := by
    rw [rounded]
    exact Nat.mul_div_cancel_left _ (by decide)
  rcases pdtKernelFindNextVaddr_spec { layout with
      mmap := mmap, len := managedPfs layout.mmap } machine
    (by rw [pageCount]; exact countPos)
    (by rw [pageCount]; exact fewPages) with
    ⟨pdtIdx, first, lower, upper, free, _, result⟩ | ⟨_, failed⟩
  · rw [result] at found
    cases found
    have inTable := free.1
    rw [pageCount] at inTable
    obtain rfl : pdtIdx = kernelPtPdtIdx := by
      simp only [kernelStartVaddr, fourMb, kernelPtPdtIdx] at *
      omega
    have present := (pdtEntry_flags (fourKb * layout.kernelPt) 1 0).1
    rw [← kernelSlot] at present
    have filled := @pdtMapKernelMemory_existing { layout with
        mmap := mmap, len := managedPfs layout.mmap } _ machine distinct
      (by rw [pageCount]; exact countPos) (by omega) _ first (by decide)
      present free paddr 0 1
    rw [filled] at mapping
    cases mapping
    have table : (machine.mem layout.kernelPdt kernelPtPdtIdx).frame =
        layout.kernelPt := by
      rw [kernelSlot, pdtEntry_frame]
      simp only [fourKb]
      omega
    refine ⟨paddr, rfl, carved, ?_, ?_, ?_⟩
    · simp only [kernelPtPdtIdx]
      omega
    · simp only [countEq, kernelPtPdtIdx]
      omega
    · intro address page within onPage
      simp only [countEq] at within
      -- The last mapped frame is one of the frames that were cut out.
      have lastFrame := carved.frame (show count - 1 < bitmapPfs layout.mmap
        by omega)
      have lastBelow := (ok.framesDisjoint.frame_bounds lastFrame).2
      have paddrAligned := carved.aligned
      have place : (paddr + fourKb * page) / fourKb =
          paddr / fourKb + page := by
        simp only [fourKb] at *
        omega
      rw [← place]
      simp only [table, pageCount]
      apply kernelTable_translate distinct below kernelSlot inTable
      · simp only [fourKb] at *
        omega
      · exact within
      · simp only [kernelPtPdtIdx] at *
        omega
  · rw [failed] at found
    cases found
    exact absurd rfl notNull

theorem Carved.framesDisjoint {mmap : List MemoryMap} {paddr : Nat}
    (ok : RegionsOk layout.mmap)
    (oneFrame : 1 ≤ (mmapFrames layout.mmap).length)
    (carved : Carved layout.mmap (bitmapPfs layout.mmap) paddr mmap) :
    FramesDisjoint mmap (managedPfs layout.mmap) where
  region := carved.region
  disjoint := carved.disjoint
  aboveOneMb := by
    intro entry member
    obtain ⟨whole, wholeMember, lower, _⟩ := carved.inside entry member
    exact Nat.le_trans (ok.aboveOneMb whole wholeMember) lower
  total := by
    have count := carved.frames.length_eq
    have split := ok.split oneFrame
    rw [List.length_append, List.length_range'] at count
    rw [← mmapFrames_length carved.region, Nat.mul_comm]
    congr 1
    omega

theorem BitmapPlaced.frame {paddr frame : Nat} (ok : RegionsOk layout.mmap)
    (twoFrames : 2 ≤ (mmapFrames layout.mmap).length)
    (placed : BitmapPlaced layout after machine paddr)
    (mapped : BitmapFrame after machine frame) :
    frame ∈ mmapFrames layout.mmap ∧ frame ∉ mmapFrames after.mmap := by
  obtain ⟨page, within, translated⟩ := mapped
  have aligned := placed.aligned
  have onPage := placed.translate (after.start + fourKb * page) page within
    (by simp only [fourKb]; omega)
  rw [onPage] at translated
  cases translated
  rw [placed.len] at within
  have inCut := Nat.lt_of_lt_of_le within (ok.roundings twoFrames).pages
  exact ⟨placed.carved.frame inCut,
    placed.carved.frame_notLeft ok.framesDisjoint.frames_nodup inCut⟩

theorem BitmapPlaced.word {paddr word : Nat} (ok : RegionsOk layout.mmap)
    (twoFrames : 2 ≤ (mmapFrames layout.mmap).length)
    (placed : BitmapPlaced layout after machine paddr)
    (scanned : word < divCeil after.len 32) :
    ∃ frame, BitmapFrame after machine frame ∧
      machine.translate after.kernelPdt (w32 (after.start + 4 * word)) =
        some frame := by
  have words := (ok.roundings twoFrames).words
  rw [← placed.len] at words
  have aligned := placed.aligned
  have below := placed.below
  have within : word / 1024 < divCeil (divCeil after.len 8) fourKb := by
    omega
  rw [w32_of_lt (by omega)]
  refine ⟨paddr / fourKb + word / 1024, ⟨word / 1024, within, ?_⟩, ?_⟩
  · apply placed.translate _ _ within
    simp only [fourKb]
    omega
  · apply placed.translate _ _ within
    omega

/-- The bitmap's own frames leave the frame map, are never handed out, and
hold every word that the allocator reads or writes. -/
theorem construct_bitmap_storage (ok : RegionsOk layout.mmap)
    (twoFrames : 2 ≤ (mmapFrames layout.mmap).length)
    (distinct : layout.kernelPdt ≠ layout.kernelPt)
    (below : layout.kernelPt < 1048576)
    (kernelSlot : machine.mem layout.kernelPdt kernelPtPdtIdx =
      pdtEntry (fourKb * layout.kernelPt) 0 1 0)
    (success : constructBitmap layout held machine =
      some (0, after, afterMachine))
    (inKernelTable : after.start < kernelStartVaddr + fourMb) :
    BitmapStored layout after afterMachine := by
  obtain ⟨paddr, placed⟩ := constructBitmap_placed ok twoFrames distinct
    below kernelSlot success inKernelTable
  have framesOk := placed.carved.framesDisjoint ok (by omega)
  rw [← placed.len] at framesOk
  refine ⟨framesOk.total.symm, fun _ => placed.frame ok twoFrames, ?_, ?_, ?_⟩
  · rintro frame mapped bitIdx rfl
    obtain ⟨managed, notLeft⟩ := placed.frame ok twoFrames mapped
    have bounds := ok.framesDisjoint.frame_bounds managed
    rcases paddrForIdx_frame framesOk bitIdx with none | member
    · rw [none] at bounds
      simp only [fourKb] at bounds
      omega
    · exact notLeft member
  · intro frame mapped count state small notNull member
    obtain ⟨lower, upper⟩ := List.mem_range'_1.mp member
    have positive : 1 ≤ count := by omega
    rcases pfaAllocate_spec framesOk positive small state with
      failed | ⟨position, first, allocated⟩
    · rw [failed] at notNull
      exact notNull rfl
    · apply (placed.frame ok twoFrames mapped).2
      have start : (pfaAllocate after count state).1 / fourKb = first := by
        rw [allocated.address]
        exact Nat.mul_div_cancel_left _ (by decide)
      have numbered := allocated.numbered (frame - first) (by omega)
      rw [show first + (frame - first) = frame by omega] at numbered
      exact List.mem_of_getElem? numbered
  · rintro word (scanned | ⟨bitIdx, managed, rfl⟩)
    · exact placed.word ok twoFrames scanned
    · apply placed.word ok twoFrames
      rw [divCeil_of_pos (by omega)]
      omega

end Storage

theorem regionLayout_regionsOk : RegionsOk (regionLayout 4).mmap where
  region := by
    intro entry member
    rw [List.mem_singleton.mp member]
    exact ⟨by decide, by decide, by decide⟩
  disjoint := List.pairwise_singleton _ _
  aboveOneMb := by
    intro entry member
    rw [List.mem_singleton.mp member]

theorem construct_bitmap_storage_threeFrames :
    ∃ after afterMachine,
      constructBitmap (regionLayout 4) (fun _ => 0)
          (bootMachine (regionLayout 4) 5) =
        some (0, after, afterMachine) ∧
      BitmapStored (regionLayout 4) after afterMachine := by
  have evaluated : (constructBitmap (regionLayout 4) (fun _ => 0)
      (bootMachine (regionLayout 4) 5)).map (fun result =>
        (result.1, result.2.1.start)) = some (0, 0xC0005000) := by
    decide +kernel
  obtain ⟨⟨result, after, afterMachine⟩, success, same⟩ :=
    Option.map_eq_some_iff.mp evaluated
  obtain ⟨rfl, start⟩ : result = 0 ∧ after.start = 0xC0005000 :=
    Prod.mk.inj same
  refine ⟨after, afterMachine, success, construct_bitmap_storage
    regionLayout_regionsOk (by decide) (by decide) (by decide) ?_ success ?_⟩
  · rfl
  · rw [start]
    decide

end Newbos
