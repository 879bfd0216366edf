import Newbos.Frames.Multiboot
import Newbos.Process.Protection

/-!
# From the boot loader's memory map to the frame map

`frames_init` calls `fill_memory_map`, rounds the recorded regions to whole
pages, and lets `construct_bitmap` cut the bitmap's frames out of them.  On a
memory map that none of the three steps mistreats, the frames that are left
are the free ones, in a layout on which the rest of the paging code can rely.
-/

namespace Newbos

/-- `frames_init`, without what it prints: the result of `construct_bitmap`,
which it drops, and what it leaves behind.  More regions than `mmap` has room
for would overwrite what lies behind the array. -/
def framesInit (memory : Nat → UInt8) (kernelPhysicalStart kernelPhysicalEnd
    kernelPdtVaddr kernelPtVaddr : Nat) (minfo : MultibootInfo) (fuel : Nat)
    (held : Nat → UInt8) (machine : Machine) :
    Option (Nat × Layout × Machine) :=
  match fillMemoryMap memory kernelPhysicalStart kernelPhysicalEnd minfo
      fuel with
  | none => none
  | some mmap =>
      if maxNumMemoryMap < mmap.length then none
      else
        constructBitmap
          { kernelPdt := kernelPdtVaddr / fourKb
            kernelPt := kernelPtVaddr / fourKb
            mmap := alignRegions mmap
            start := 0
            len := 0 } held machine

/-! ## Regions in order -/

/-- A region ends where the other one starts, or in front of it. -/
def MemoryMap.Before (lower upper : MemoryMap) : Prop :=
  lower.addr + lower.len ≤ upper.addr

section Order

variable {mmap carved : List MemoryMap} {pfs paddr : Nat}

theorem MemoryMap.Before.le {lower upper : MemoryMap}
    (before : lower.Before upper) : lower.addr ≤ upper.addr :=
  Nat.le_trans (Nat.le_add_right _ _) before

theorem MemoryMap.Before.disjoint {lower upper : MemoryMap}
    (before : lower.Before upper) :
    ∀ paddr, lower.Contains paddr → ¬upper.Contains paddr := by
  unfold MemoryMap.Before MemoryMap.Contains at *
  omega

theorem mmapWellFormed_of_before (regions : ∀ entry ∈ mmap, entry.WellFormed)
    (ordered : mmap.Pairwise MemoryMap.Before) : MmapWellFormed mmap where
  region := regions
  ascending := ordered.imp MemoryMap.Before.le
  disjoint := ordered.imp MemoryMap.Before.disjoint

theorem carveRegion_ordered (regions : ∀ entry ∈ mmap, entry.WellFormed)
    (ordered : mmap.Pairwise MemoryMap.Before)
    (carve : carveRegion (fourKb * pfs) mmap = some (paddr, carved)) :
    carved.Pairwise MemoryMap.Before := by
  induction mmap generalizing carved with
  | nil => cases carve
  | cons region rest induction =>
      obtain ⟨headFormed, restFormed⟩ := List.forall_mem_cons.mp regions
      obtain ⟨headBefore, restOrdered⟩ := List.pairwise_cons.mp ordered
      have below := headFormed.below
      rw [carveRegion] at carve
      by_cases fits : fourKb * pfs ≤ region.len
      · rw [if_pos fits, w32_of_lt (by omega), sub32_of_le fits] at carve
        cases carve
        refine List.pairwise_cons.mpr ⟨?_, restOrdered⟩
        intro later member
        have before := headBefore later member
        unfold MemoryMap.Before at *
        simp only
        omega
      · rw [if_neg fits] at carve
        obtain ⟨⟨start, restCarved⟩, found, same⟩ :=
          Option.map_eq_some_iff.mp carve
        cases same
        refine List.pairwise_cons.mpr ⟨?_, induction restFormed restOrdered
          found⟩
        have spec := carveRegion_spec restFormed
          (restOrdered.imp MemoryMap.Before.disjoint) found
        intro later member
        obtain ⟨whole, wholeMember, lower, _⟩ := spec.inside later member
        exact Nat.le_trans (headBefore whole wholeMember) lower

theorem carveRegion_isSome_iff {bytes : Nat} :
    (carveRegion bytes mmap).isSome = true ↔
      ∃ region ∈ mmap, bytes ≤ region.len := by
  induction mmap with
  | nil => simp [carveRegion]
  | cons region rest induction =>
      rw [carveRegion]
      split_ifs with fits
      · simp [fits]
      · simp [fits, induction]

end Order

/-! ## The boot loader's memory map -/

/-- One entry ends where the other one starts, or in front of it. -/
def MultibootMmapEntry.Before (lower upper : MultibootMmapEntry) : Prop :=
  lower.addr + lower.len ≤ upper.addr

/-- A memory map that `frames_init` treats well.  The entries are in order,
usable memory lies below 4 GiB, and one entry holds the kernel, whose length
is not smaller than the kernel's end address; each region that is recorded
comes to its first page boundary. -/
structure BootMap (kernelPhysicalStart kernelPhysicalEnd : Nat)
    (entries : List MultibootMmapEntry) (holder : MultibootMmapEntry) :
    Prop where
  ordered : entries.Pairwise MultibootMmapEntry.Before
  below : ∀ entry ∈ entries, entry.type = multibootMemoryAvailable →
    entry.addr + entry.len < 4294967296
  member : holder ∈ entries
  available : holder.type = multibootMemoryAvailable
  lower : holder.addr ≤ kernelPhysicalStart
  nonempty : kernelPhysicalStart < kernelPhysicalEnd
  upper : kernelPhysicalEnd < holder.addr + holder.len
  long : kernelPhysicalEnd ≤ holder.len
  aboveOneMb : 0x100000 ≤ kernelPhysicalStart
  reaches : ∀ entry ∈ entries, ∀ region,
    recordedRegion kernelPhysicalStart kernelPhysicalEnd entry =
      some region →
    (region.addr + 4095) / fourKb * fourKb ≤ region.addr + region.len

/-- The part of an entry that is free: of the kernel's entry, what lies behind
the kernel. -/
def usablePart (kernelPhysicalEnd : Nat) (holder entry : MultibootMmapEntry) :
    MemoryMap :=
  if entry = holder then
    ⟨kernelPhysicalEnd, holder.addr + holder.len - kernelPhysicalEnd⟩
  else ⟨entry.addr, entry.len⟩

/-- The part of an entry that is recorded.  The kernel's end address is taken
from the length of the kernel's entry, as if that entry started at 0. -/
def recordedPart (kernelPhysicalEnd : Nat)
    (holder entry : MultibootMmapEntry) : MemoryMap :=
  if entry = holder then
    ⟨kernelPhysicalEnd, holder.len - kernelPhysicalEnd⟩
  else ⟨entry.addr, entry.len⟩

section Map

variable {kernelPhysicalStart kernelPhysicalEnd : Nat}
  {entries : List MultibootMmapEntry} {holder entry : MultibootMmapEntry}
  {region : MemoryMap}

theorem BootMap.apart
    (map : BootMap kernelPhysicalStart kernelPhysicalEnd entries holder)
    (member : entry ∈ entries) (other : entry ≠ holder) :
    entry.Before holder ∨ holder.Before entry := by
  have eitherSide : entries.Pairwise fun first second =>
      MultibootMmapEntry.Before first second ∨
        MultibootMmapEntry.Before second first :=
    map.ordered.imp Or.inl
  have symmetric : Std.Symm fun first second : MultibootMmapEntry =>
      first.Before second ∨ second.Before first := ⟨fun _ _ => Or.symm⟩
  exact eitherSide.forall member map.member other

theorem BootMap.beside
    (map : BootMap kernelPhysicalStart kernelPhysicalEnd entries holder)
    (member : entry ∈ entries) (other : entry ≠ holder) :
    entry.addr + entry.len ≤ kernelPhysicalStart ∨
      kernelPhysicalEnd < entry.addr := by
  have lower := map.lower
  have upper := map.upper
  rcases map.apart member other with before | behind
  · unfold MultibootMmapEntry.Before at before
    omega
  · unfold MultibootMmapEntry.Before at behind
    omega

theorem BootMap.recorded_eq
    (map : BootMap kernelPhysicalStart kernelPhysicalEnd entries holder)
    (member : entry ∈ entries) :
    recordedRegion kernelPhysicalStart kernelPhysicalEnd entry =
      if entry.type = multibootMemoryAvailable ∧
          0x100000 < (recordedPart kernelPhysicalEnd holder entry).addr then
        some (recordedPart kernelPhysicalEnd holder entry)
      else none := by
  have lower := map.lower
  have upper := map.upper
  have long := map.long
  have nonempty := map.nonempty
  by_cases available : entry.type = multibootMemoryAvailable
  · have below := map.below entry member available
    have addrEq : w32 entry.addr = entry.addr := w32_of_lt (by omega)
    have lenEq : w32 entry.len = entry.len := w32_of_lt (by omega)
    rw [recordedRegion, if_pos available]
    simp only [addrEq, lenEq, w32_of_lt below, recordedPart, available,
      true_and]
    by_cases same : entry = holder
    · subst same
      have isCut : entry.addr ≤ kernelPhysicalStart ∧
          kernelPhysicalEnd < entry.addr + entry.len := ⟨lower, upper⟩
      simp only [if_pos isCut, if_pos, sub32_of_le long]
    · have notCut : ¬(entry.addr ≤ kernelPhysicalStart ∧
          kernelPhysicalEnd < entry.addr + entry.len) := by
        have beside := map.beside member same
        omega
      simp only [if_neg notCut, if_neg same]
  · rw [recordedRegion, if_neg available, if_neg fun both =>
      available both.1]

/-- A region of usable memory inside an entry and beside the kernel. -/
structure MemoryMap.PartOf (region : MemoryMap)
    (kernelPhysicalStart kernelPhysicalEnd : Nat)
    (entry : MultibootMmapEntry) : Prop where
  available : entry.type = multibootMemoryAvailable
  start : entry.addr ≤ region.addr
  finish : region.addr + region.len ≤ entry.addr + entry.len
  beside : region.addr + region.len ≤ kernelPhysicalStart ∨
    kernelPhysicalEnd ≤ region.addr
  aboveOneMb : 0x100000 < region.addr

theorem BootMap.partOf
    (map : BootMap kernelPhysicalStart kernelPhysicalEnd entries holder)
    (member : entry ∈ entries)
    (recorded : recordedRegion kernelPhysicalStart kernelPhysicalEnd entry =
      some region) :
    region.PartOf kernelPhysicalStart kernelPhysicalEnd entry := by
  rw [map.recorded_eq member] at recorded
  split_ifs at recorded with recordable
  cases recorded
  obtain ⟨available, aboveOneMb⟩ := recordable
  have lower := map.lower
  have upper := map.upper
  have long := map.long
  have nonempty := map.nonempty
  unfold recordedPart at *
  split_ifs at * with same
  · subst same
    refine ⟨available, ?_, ?_, ?_, aboveOneMb⟩
    · simp only
      omega
    · simp only
      omega
    · exact Or.inr (Nat.le_refl _)
  · refine ⟨available, Nat.le_refl _, Nat.le_refl _, ?_, aboveOneMb⟩
    have beside := map.beside member same
    simp only
    omega

theorem MemoryMap.PartOf.freeByte {paddr : Nat}
    (part : region.PartOf kernelPhysicalStart kernelPhysicalEnd entry)
    (member : entry ∈ entries) (inside : region.Contains paddr) :
    FreeByte kernelPhysicalStart kernelPhysicalEnd entries paddr := by
  obtain ⟨lower, upper⟩ := inside
  have start := part.start
  have finish := part.finish
  have beside := part.beside
  refine ⟨⟨entry, member, part.available, ?_⟩, ?_⟩
  · unfold MultibootMmapEntry.Contains
    omega
  · omega

theorem MemoryMap.PartOf.align
    (part : region.PartOf kernelPhysicalStart kernelPhysicalEnd entry)
    (below : entry.addr + entry.len < 4294967296)
    (reaches : (region.addr + 4095) / fourKb * fourKb ≤
      region.addr + region.len) :
    (alignRegion region).WellFormed ∧
      (alignRegion region).PartOf kernelPhysicalStart kernelPhysicalEnd
        entry := by
  obtain ⟨available, start, finish, beside, aboveOneMb⟩ := part
  have first : region.addr ≤ (region.addr + 4095) / fourKb * fourKb := by
    simp only [fourKb]
    omega
  have pages : (region.addr + 4095) / fourKb * fourKb ≤
      (region.addr + region.len) / fourKb * fourKb :=
    Nat.mul_le_mul_right _ ((Nat.le_div_iff_mul_le (by decide)).mpr reaches)
  have ends : (region.addr + 4095) / fourKb * fourKb +
      ((region.addr + region.len) / fourKb * fourKb -
        (region.addr + 4095) / fourKb * fourKb) ≤
      region.addr + region.len := by
    rw [Nat.add_sub_cancel' pages]
    exact Nat.div_mul_le_self _ _
  rw [alignRegion_reaching (by omega) reaches]
  refine ⟨⟨Nat.mul_mod_left _ _, ?_, ?_⟩, ⟨available, ?_, ?_, ?_, ?_⟩⟩
  · simp only [← Nat.sub_mul]
    exact Nat.mul_mod_left _ _
  · exact Nat.lt_of_le_of_lt (Nat.le_trans ends finish) below
  · exact Nat.le_trans start first
  · exact Nat.le_trans ends finish
  · exact beside.imp (Nat.le_trans ends) fun behind =>
      Nat.le_trans behind first
  · exact Nat.lt_of_lt_of_le aboveOneMb first

/-- The regions that `frames_init` hands to `construct_bitmap`. -/
def bootRegions (kernelPhysicalStart kernelPhysicalEnd : Nat)
    (entries : List MultibootMmapEntry) : List MemoryMap :=
  alignRegions (entries.filterMap
    (recordedRegion kernelPhysicalStart kernelPhysicalEnd))

theorem mem_bootRegions_iff :
    region ∈ bootRegions kernelPhysicalStart kernelPhysicalEnd entries ↔
      ∃ entry ∈ entries, ∃ stored,
        recordedRegion kernelPhysicalStart kernelPhysicalEnd entry =
            some stored ∧
          alignRegion stored = region := by
  simp only [bootRegions, alignRegions, List.mem_map, List.mem_filterMap]
  constructor
  · rintro ⟨stored, ⟨entry, member, recorded⟩, same⟩
    exact ⟨entry, member, stored, recorded, same⟩
  · rintro ⟨entry, member, stored, recorded, same⟩
    exact ⟨stored, ⟨entry, member, recorded⟩, same⟩

theorem BootMap.align
    (map : BootMap kernelPhysicalStart kernelPhysicalEnd entries holder)
    (member : entry ∈ entries)
    (recorded : recordedRegion kernelPhysicalStart kernelPhysicalEnd entry =
      some region) :
    (alignRegion region).WellFormed ∧
      (alignRegion region).PartOf kernelPhysicalStart kernelPhysicalEnd
        entry := by
  have part := map.partOf member recorded
  exact part.align (map.below entry member part.available)
    (map.reaches entry member region recorded)

theorem BootMap.wellFormed
    (map : BootMap kernelPhysicalStart kernelPhysicalEnd entries holder) :
    ∀ region ∈ bootRegions kernelPhysicalStart kernelPhysicalEnd entries,
      region.WellFormed := by
  intro region member
  obtain ⟨entry, entryMember, stored, recorded, rfl⟩ :=
    mem_bootRegions_iff.mp member
  exact (map.align entryMember recorded).1

theorem BootMap.partOf_entry
    (map : BootMap kernelPhysicalStart kernelPhysicalEnd entries holder)
    (member : region ∈ bootRegions kernelPhysicalStart kernelPhysicalEnd
      entries) :
    ∃ entry ∈ entries,
      region.PartOf kernelPhysicalStart kernelPhysicalEnd entry := by
  obtain ⟨entry, entryMember, stored, recorded, rfl⟩ :=
    mem_bootRegions_iff.mp member
  exact ⟨entry, entryMember, (map.align entryMember recorded).2⟩

theorem BootMap.bootRegions_ordered
    (map : BootMap kernelPhysicalStart kernelPhysicalEnd entries holder) :
    (bootRegions kernelPhysicalStart kernelPhysicalEnd entries).Pairwise
      MemoryMap.Before := by
  refine List.pairwise_map.mpr (List.pairwise_filterMap.mpr
    (map.ordered.imp_of_mem ?_))
  intro lower upper lowerMember upperMember before first firstRecorded second
    secondRecorded
  have finish := (map.align lowerMember firstRecorded).2.finish
  have start := (map.align upperMember secondRecorded).2.start
  exact Nat.le_trans finish (Nat.le_trans before start)

theorem BootMap.regionsOk
    (map : BootMap kernelPhysicalStart kernelPhysicalEnd entries holder) :
    RegionsOk
      (bootRegions kernelPhysicalStart kernelPhysicalEnd entries) where
  region := map.wellFormed
  disjoint := map.bootRegions_ordered.imp MemoryMap.Before.disjoint
  aboveOneMb := by
    intro region member
    obtain ⟨_, _, part⟩ := map.partOf_entry member
    exact Nat.le_of_lt part.aboveOneMb

/-- A whole frame of the free part of an entry above 1 MiB. -/
def UsableFrame (kernelPhysicalEnd : Nat)
    (entries : List MultibootMmapEntry) (holder : MultibootMmapEntry)
    (frame : Nat) : Prop :=
  ∃ entry ∈ entries, entry.type = multibootMemoryAvailable ∧
    0x100000 < (usablePart kernelPhysicalEnd holder entry).addr ∧
    (usablePart kernelPhysicalEnd holder entry).addr ≤ fourKb * frame ∧
    fourKb * frame + fourKb ≤
      (usablePart kernelPhysicalEnd holder entry).addr +
        (usablePart kernelPhysicalEnd holder entry).len

/-- A frame of the kernel's entry that reaches behind its recorded part. -/
def CutOffFrame (holder : MultibootMmapEntry) (frame : Nat) : Prop :=
  holder.Contains (fourKb * frame) ∧ holder.len < fourKb * frame + fourKb

theorem BootMap.wholeFrame
    (map : BootMap kernelPhysicalStart kernelPhysicalEnd entries holder)
    (member : entry ∈ entries)
    (recorded : recordedRegion kernelPhysicalStart kernelPhysicalEnd entry =
      some region) (frame : Nat) :
    (alignRegion region).Contains (fourKb * frame) ↔
      region.addr ≤ fourKb * frame ∧
        fourKb * frame + fourKb ≤ region.addr + region.len := by
  have part := map.partOf member recorded
  have below := map.below entry member part.available
  have finish := part.finish
  have pages := ((alignRegion_wholePages_iff (by omega)).mpr
    (map.reaches entry member region recorded)).pages (fourKb * frame)
  have page : fourKb * frame / fourKb * fourKb = fourKb * frame := by
    rw [Nat.mul_div_cancel_left _ (by decide), Nat.mul_comm]
  rw [pages, MemoryMap.HoldsPageOf, page]

theorem BootMap.notHeld
    (map : BootMap kernelPhysicalStart kernelPhysicalEnd entries holder)
    (member : entry ∈ entries) (other : entry ≠ holder) {paddr : Nat}
    (inside : entry.Contains paddr) : ¬holder.Contains paddr := by
  have apart := map.apart member other
  unfold MultibootMmapEntry.Before at apart
  unfold MultibootMmapEntry.Contains at *
  omega

/-- Recording loses the frames at the end of the kernel's entry that its
length, cut too far, leaves out.  Rounding loses none. -/
theorem BootMap.usableFrame_iff
    (map : BootMap kernelPhysicalStart kernelPhysicalEnd entries holder)
    {frame : Nat} :
    frame ∈ mmapFrames
        (bootRegions kernelPhysicalStart kernelPhysicalEnd entries) ↔
      UsableFrame kernelPhysicalEnd entries holder frame ∧
        ¬CutOffFrame holder frame := by
  have lower := map.lower
  have nonempty := map.nonempty
  have upper := map.upper
  have long := map.long
  rw [mem_mmapFrames_iff map.wellFormed]
  constructor
  · rintro ⟨region, member, inside⟩
    obtain ⟨entry, entryMember, stored, recorded, rfl⟩ :=
      mem_bootRegions_iff.mp member
    obtain ⟨start, finish⟩ :=
      (map.wholeFrame entryMember recorded frame).mp inside
    rw [map.recorded_eq entryMember] at recorded
    split_ifs at recorded with recordable
    cases recorded
    obtain ⟨available, aboveOneMb⟩ := recordable
    by_cases same : entry = holder
    · subst same
      simp only [recordedPart, if_pos] at start finish aboveOneMb
      refine ⟨⟨entry, entryMember, available, ?_⟩, fun cut => ?_⟩
      · simp only [usablePart, if_pos]
        omega
      · have outside := cut.2
        omega
    · simp only [recordedPart, if_neg same] at start finish aboveOneMb
      refine ⟨⟨entry, entryMember, available, ?_⟩, fun cut => ?_⟩
      · simp only [usablePart, if_neg same]
        exact ⟨aboveOneMb, start, finish⟩
      · refine map.notHeld entryMember same ⟨start, ?_⟩ cut.1
        simp only [fourKb] at *
        omega
  · rintro ⟨⟨entry, entryMember, available, usable⟩, kept⟩
    by_cases same : entry = holder
    · subst same
      simp only [usablePart, if_pos] at usable
      have inRecord : fourKb * frame + fourKb ≤ entry.len := by
        refine Nat.le_of_not_lt fun outside => kept ⟨⟨?_, ?_⟩, outside⟩
        · omega
        · simp only [fourKb] at *
          omega
      have recorded := map.recorded_eq entryMember
      simp only [recordedPart, if_pos] at recorded
      rw [if_pos ⟨available, usable.1⟩] at recorded
      refine ⟨_, mem_bootRegions_iff.mpr
          ⟨entry, entryMember, _, recorded, rfl⟩,
        (map.wholeFrame entryMember recorded frame).mpr ⟨usable.2.1, ?_⟩⟩
      simp only
      omega
    · simp only [usablePart, if_neg same] at usable
      have recorded := map.recorded_eq entryMember
      simp only [recordedPart, if_neg same] at recorded
      rw [if_pos ⟨available, usable.1⟩] at recorded
      exact ⟨_, mem_bootRegions_iff.mpr
          ⟨entry, entryMember, _, recorded, rfl⟩,
        (map.wholeFrame entryMember recorded frame).mpr usable.2⟩

end Map

/-! ## Room for the bitmap -/

/-- The kernel's own page table is free behind its first pages, and has room
for any bitmap in front of the temporary entry. -/
structure BitmapRoom (layout : Layout) (machine : Machine) (pages : Nat) :
    Prop where
  behind : ∀ index, pages ≤ index → index < numEntries →
    (machine.mem layout.kernelPt index).isPresent = false
  room : pages + 32 ≤ kernelTmpPtIdx

section Bitmap

variable {layout after : Layout} {machine afterMachine : Machine}
  {held : Nat → UInt8} {pages : Nat}

theorem RegionsOk.bitmapPfs_le {mmap : List MemoryMap} (ok : RegionsOk mmap)
    (oneFrame : 1 ≤ (mmapFrames mmap).length) : bitmapPfs mmap ≤ 32 := by
  have bound := ok.framesDisjoint.len_le
  rw [ok.bitmapPfs_eq oneFrame]
  omega

theorem BitmapRoom.search (room : BitmapRoom layout machine pages)
    (boot : Boot layout machine) (below : layout.kernelPt < 1048576)
    {size : Nat} (positive : 1 ≤ alignUp size fourKb / fourKb)
    (few : alignUp size fourKb / fourKb ≤ 32) :
    ∃ first,
      FreePages layout machine kernelPtPdtIdx (alignUp size fourKb / fourKb)
        first ∧
      pdtKernelFindNextVaddr layout size machine =
        (4194304 * kernelPtPdtIdx + 4096 * first, machine) := by
  have table : (machine.mem layout.kernelPdt kernelPtPdtIdx).frame =
      layout.kernelPt := by
    rw [boot.kernelSlot, pdtEntry_frame]
    simp only [fourKb]
    omega
  have present : (machine.mem layout.kernelPdt (1023 - 255)).isPresent =
      true := by
    rw [boot.kernelSlot]
    exact (pdtEntry_flags ..).1
  have inFront := room.room
  have free : FreePages layout machine kernelPtPdtIdx
      (alignUp size fourKb / fourKb) pages := by
    simp only [kernelTmpPtIdx] at inFront
    refine ⟨by omega, ?_⟩
    rintro index lower upper ⟨_, taken⟩
    rw [table] at taken
    rcases taken with isPresent | ⟨_, isTmp⟩ | ⟨_, isTmp⟩
    · rw [room.behind index lower (by simp only [numEntries]; omega)]
        at isPresent
      cases isPresent
    · simp only [kernelTmpPtIdx] at isTmp
      omega
    · simp only [kernelTmpPtIdx] at isTmp
      omega
  rcases pdtFindLoop_present positive (by decide) present with
    ⟨first, pagesFree, found⟩ | ⟨none, _⟩
  · exact ⟨first, pagesFree, found⟩
  · exact absurd free (none pages)

theorem FramesInitOk.bitmapPages (ok : FramesInitOk layout)
    (twoFrames : 2 ≤ (mmapFrames layout.mmap).length) :
    1 ≤ alignUp (divCeil (managedPfs layout.mmap) 8) fourKb / fourKb ∧
      alignUp (divCeil (managedPfs layout.mmap) 8) fourKb / fourKb ≤ 32 ∧
      alignUp (divCeil (managedPfs layout.mmap) 8) fourKb < 4294967296 ∧
      divCeil (managedPfs layout.mmap) 8 ≤
        alignUp (divCeil (managedPfs layout.mmap) 8) fourKb := by
  obtain ⟨count, pageCount, positive, _, inCut, bytes⟩ :=
    ok.regions.bitmapBytes twoFrames
  have few := ok.regions.bitmapPfs_le (by omega)
  have bytesPos := (ok.regions.roundings twoFrames).bytesPos
  rw [divCeil_of_pos bytesPos] at pageCount
  rw [bytes]
  simp only [fourKb] at *
  omega

/-- With room in the page table, the bitmap is set up exactly when there are
two frames and one region holds it. -/
theorem constructBitmap_returns_iff (ok : FramesInitOk layout)
    (boot : Boot layout machine) (room : BitmapRoom layout machine pages) :
    (∃ after afterMachine, constructBitmap layout held machine =
        some (0, after, afterMachine)) ↔
      2 ≤ (mmapFrames layout.mmap).length ∧
        ∃ region ∈ layout.mmap,
          fourKb * bitmapPfs layout.mmap ≤ region.len := by
  constructor
  · rintro ⟨after, afterMachine, success⟩
    have twoFrames := constructBitmap_twoFrames ok boot success
    obtain ⟨paddr, mmap, _, _, _, _, carve, _⟩ :=
      constructBitmap_succeeds success
    rw [ok.regions.bitmapPfs_w32 (by omega)] at carve
    exact ⟨twoFrames, carveRegion_isSome_iff.mp (by rw [carve]; rfl)⟩
  · rintro ⟨twoFrames, fits⟩
    obtain ⟨⟨paddr, mmap⟩, carve⟩ :=
      Option.isSome_iff_exists.mp (carveRegion_isSome_iff.mpr fits)
    obtain ⟨positive, few, small, enough⟩ := ok.bitmapPages twoFrames
    have bootAfter : Boot { layout with
        mmap := mmap, len := managedPfs layout.mmap } machine :=
      ⟨boot.identity, boot.kernelSlot, boot.others, boot.table⟩
    have roomAfter : BitmapRoom { layout with
        mmap := mmap, len := managedPfs layout.mmap } machine pages :=
      ⟨room.behind, room.room⟩
    obtain ⟨first, free, found⟩ :=
      roomAfter.search bootAfter ok.kernelPtBelow positive few
    have present : (machine.mem layout.kernelPdt kernelPtPdtIdx).isPresent =
        true := by
      rw [boot.kernelSlot]
      exact (pdtEntry_flags ..).1
    have mapped := @pdtMapKernelMemory_existing { layout with
        mmap := mmap, len := managedPfs layout.mmap } _ machine ok.distinct
      positive small kernelPtPdtIdx first (by decide) present free paddr 0 1
    have notNull : 4194304 * kernelPtPdtIdx + 4096 * first ≠ 0 := by
      simp only [kernelPtPdtIdx]
      omega
    unfold constructBitmap
    rw [ok.regions.bitmapPfs_w32 (by omega), carve]
    simp only [found, if_neg notNull, mapped,
      if_neg (Nat.not_lt_of_le enough)]
    exact ⟨_, _, rfl⟩

theorem constructBitmap_start (ok : FramesInitOk layout)
    (boot : Boot layout machine) (room : BitmapRoom layout machine pages)
    (success : constructBitmap layout held machine =
      some (0, after, afterMachine)) :
    after.start < kernelStartVaddr + fourMb := by
  have twoFrames := constructBitmap_twoFrames ok boot success
  obtain ⟨positive, few, _, _⟩ := ok.bitmapPages twoFrames
  obtain ⟨_, mmap, vaddr, _, _, _, _, found, _, _, _, rfl, _⟩ :=
    constructBitmap_succeeds success
  have bootAfter : Boot { layout with
      mmap := mmap, len := managedPfs layout.mmap } machine :=
    ⟨boot.identity, boot.kernelSlot, boot.others, boot.table⟩
  have roomAfter : BitmapRoom { layout with
      mmap := mmap, len := managedPfs layout.mmap } machine pages :=
    ⟨room.behind, room.room⟩
  obtain ⟨first, free, searched⟩ :=
    roomAfter.search bootAfter ok.kernelPtBelow positive few
  rw [searched] at found
  cases found
  have inTable := free.1
  simp only [kernelPtPdtIdx, kernelStartVaddr, fourMb]
  omega

end Bitmap

/-! ## The whole call -/

/-- The kernel's directory and page table are different pages of its image. -/
structure KernelTables (kernelPhysicalStart kernelPhysicalEnd kernelPdtVaddr
    kernelPtVaddr : Nat) : Prop where
  pdtAligned : kernelPdtVaddr % fourKb = 0
  ptAligned : kernelPtVaddr % fourKb = 0
  distinct : kernelPdtVaddr ≠ kernelPtVaddr
  pdtInside : kernelPhysicalStart ≤ kernelPdtVaddr ∧
    kernelPdtVaddr < kernelPhysicalEnd
  ptInside : kernelPhysicalStart ≤ kernelPtVaddr ∧
    kernelPtVaddr < kernelPhysicalEnd

/-- The layout that `construct_bitmap` is called with. -/
def bootLayout (kernelPhysicalStart kernelPhysicalEnd kernelPdtVaddr
    kernelPtVaddr : Nat) (entries : List MultibootMmapEntry) : Layout :=
  { kernelPdt := kernelPdtVaddr / fourKb
    kernelPt := kernelPtVaddr / fourKb
    mmap := bootRegions kernelPhysicalStart kernelPhysicalEnd entries
    start := 0
    len := 0 }

/-! ## The emulator's memory -/

theorem ramEntry_bootMap :
    BootMap 0x100000 0x110000 [ramEntry] ramEntry where
  ordered := List.pairwise_singleton _ _
  below := by
    intro entry member _
    rw [List.mem_singleton.mp member]
    decide
  member := List.mem_singleton_self _
  available := rfl
  lower := by decide
  nonempty := by decide
  upper := by decide
  long := by decide
  aboveOneMb := by decide
  reaches := by
    intro entry member region recorded
    rw [List.mem_singleton.mp member] at recorded
    have same : recordedRegion 0x100000 0x110000 ramEntry =
        some ⟨0x110000, 0x7DD0000⟩ := by decide
    rw [same] at recorded
    cases recorded
    decide

theorem ramEntry_twoFrames :
    2 ≤ (mmapFrames (bootRegions 0x100000 0x110000 [ramEntry])).length := by
  have bytes := mmapFrames_length ramEntry_bootMap.wellFormed
  have total : mmapBytes (bootRegions 0x100000 0x110000 [ramEntry]) =
      0x7DD0000 := by decide
  simp only [fourKb] at bytes
  omega

theorem ramEntry_kernelTables :
    KernelTables 0x100000 0x110000 0x101000 0x102000 where
  pdtAligned := by decide
  ptAligned := by decide
  distinct := by decide
  pdtInside := by decide
  ptInside := by decide

/-- The layout and the memory before `frames_init` runs on the emulator. -/
abbrev ramLayout : Layout :=
  bootLayout 0x100000 0x110000 0x101000 0x102000 [ramEntry]

theorem ramLayout_bitmapRoom :
    BitmapRoom ramLayout (bootMachine ramLayout 272) 272 where
  behind := by
    intro index lower _
    have different : ramLayout.kernelPt ≠ ramLayout.kernelPdt := by decide
    have unmapped : ¬index < 272 := Nat.not_lt_of_le lower
    simp only [bootMachine, if_neg different, unmapped, and_false, if_false]
    rfl
  room := by decide

/-- `frames_init` on the emulator. -/
abbrev ramFramesInit : Option (Nat × Layout × Machine) :=
  framesInit (bufferAt 0x9000 ([ramEntry].flatMap MultibootMmapEntry.bytes))
    0x100000 0x110000 0x101000 0x102000
    (MultibootInfo.ofEntries 0x9000 [ramEntry]) 2 (fun _ => 0)
    (bootMachine ramLayout 272)

theorem ramFramesInit_returns :
    ∃ after afterMachine, ramFramesInit = some (0, after, afterMachine) := by
  have evaluated : ramFramesInit.map Prod.fst = some 0 := by decide +kernel
  obtain ⟨⟨result, after, afterMachine⟩, returned, isZero⟩ :=
    Option.map_eq_some_iff.mp evaluated
  obtain rfl : result = 0 := isZero
  exact ⟨after, afterMachine, returned⟩

theorem ramEntry_walk :
    MmapEntries (bufferAt 0x9000 ([ramEntry].flatMap
        MultibootMmapEntry.bytes))
      (MultibootInfo.ofEntries 0x9000 [ramEntry]).mmapEnd
      (MultibootInfo.ofEntries 0x9000 [ramEntry]).mmapAddr [ramEntry] :=
  MultibootInfo.ofEntries_walk 0x9000 [ramEntry] (by simp [ramEntry_plain])
    (by decide)

theorem ramLayout_boot : Boot ramLayout (bootMachine ramLayout 272) :=
  bootMachine_boot (by decide) 272

section Call

variable {memory : Nat → UInt8} {kernelPhysicalStart kernelPhysicalEnd
    kernelPdtVaddr kernelPtVaddr : Nat}
  {minfo : MultibootInfo} {fuel : Nat} {held : Nat → UInt8}
  {machine afterMachine state : Machine} {after : Layout}
  {entries : List MultibootMmapEntry} {holder : MultibootMmapEntry}
  {live : List Nat} {pages : Nat}

theorem BootMap.unmanaged
    (map : BootMap kernelPhysicalStart kernelPhysicalEnd entries holder)
    {paddr : Nat} (aligned : paddr % fourKb = 0)
    (inside : kernelPhysicalStart ≤ paddr ∧ paddr < kernelPhysicalEnd) :
    paddr / fourKb ∉ mmapFrames
      (bootRegions kernelPhysicalStart kernelPhysicalEnd entries) := by
  intro managed
  obtain ⟨region, member, contains⟩ :=
    (mem_mmapFrames_iff map.wellFormed).mp managed
  rw [Nat.mul_div_cancel' (Nat.dvd_of_mod_eq_zero aligned)] at contains
  obtain ⟨entry, entryMember, part⟩ := map.partOf_entry member
  exact (part.freeByte entryMember contains).2 inside

theorem BootMap.framesInitOk
    (map : BootMap kernelPhysicalStart kernelPhysicalEnd entries holder)
    (tables : KernelTables kernelPhysicalStart kernelPhysicalEnd
      kernelPdtVaddr kernelPtVaddr) :
    FramesInitOk (bootLayout kernelPhysicalStart kernelPhysicalEnd
      kernelPdtVaddr kernelPtVaddr entries) where
  regions := map.regionsOk
  distinct := by
    have pdtAligned := tables.pdtAligned
    have ptAligned := tables.ptAligned
    have distinct := tables.distinct
    simp only [bootLayout, fourKb] at *
    omega
  kernelPtBelow := by
    have below := map.below holder map.member map.available
    have upper := map.upper
    have inside := tables.ptInside
    simp only [bootLayout, fourKb]
    omega
  kernelPdtUnmanaged := map.unmanaged tables.pdtAligned tables.pdtInside
  kernelPtUnmanaged := map.unmanaged tables.ptAligned tables.ptInside

theorem framesInit_eq (hasMmap : minfo.HasMmap)
    (walk : MmapEntries memory minfo.mmapEnd minfo.mmapAddr entries)
    (enough : entries.length < fuel)
    (few : (entries.filterMap (recordedRegion kernelPhysicalStart
      kernelPhysicalEnd)).length ≤ maxNumMemoryMap) :
    framesInit memory kernelPhysicalStart kernelPhysicalEnd kernelPdtVaddr
        kernelPtVaddr minfo fuel held machine =
      constructBitmap (bootLayout kernelPhysicalStart kernelPhysicalEnd
        kernelPdtVaddr kernelPtVaddr entries) held machine := by
  have filled : fillMemoryMap memory kernelPhysicalStart kernelPhysicalEnd
      minfo fuel = some (entries.filterMap
        (recordedRegion kernelPhysicalStart kernelPhysicalEnd)) :=
    (if_pos hasMmap).trans (walk.fill enough [])
  simp only [framesInit, filled, if_neg (Nat.not_lt_of_le few)]
  rfl

theorem framesInit_succeeds (hasMmap : minfo.HasMmap)
    (walk : MmapEntries memory minfo.mmapEnd minfo.mmapAddr entries)
    (success : framesInit memory kernelPhysicalStart kernelPhysicalEnd
      kernelPdtVaddr kernelPtVaddr minfo fuel held machine =
        some (0, after, afterMachine)) :
    constructBitmap (bootLayout kernelPhysicalStart kernelPhysicalEnd
        kernelPdtVaddr kernelPtVaddr entries) held machine =
      some (0, after, afterMachine) := by
  unfold framesInit at success
  split at success
  · cases success
  · rename_i mmap filled
    split_ifs at success
    rw [fillMemoryMap_eq hasMmap walk filled] at success
    exact success

/-- On a memory map that it treats well, `frames_init` sets up the bitmap
exactly when there are two frames and one region holds the bitmap. -/
theorem frames_init_succeeds_iff (hasMmap : minfo.HasMmap)
    (walk : MmapEntries memory minfo.mmapEnd minfo.mmapAddr entries)
    (map : BootMap kernelPhysicalStart kernelPhysicalEnd entries holder)
    (tables : KernelTables kernelPhysicalStart kernelPhysicalEnd
      kernelPdtVaddr kernelPtVaddr)
    (boot : Boot (bootLayout kernelPhysicalStart kernelPhysicalEnd
      kernelPdtVaddr kernelPtVaddr entries) machine)
    (room : BitmapRoom (bootLayout kernelPhysicalStart kernelPhysicalEnd
      kernelPdtVaddr kernelPtVaddr entries) machine pages)
    (enough : entries.length < fuel)
    (few : (entries.filterMap (recordedRegion kernelPhysicalStart
      kernelPhysicalEnd)).length ≤ maxNumMemoryMap) :
    (∃ after afterMachine, framesInit memory kernelPhysicalStart
        kernelPhysicalEnd kernelPdtVaddr kernelPtVaddr minfo fuel held
          machine = some (0, after, afterMachine)) ↔
      2 ≤ (mmapFrames
          (bootRegions kernelPhysicalStart kernelPhysicalEnd
            entries)).length ∧
        ∃ region ∈ bootRegions kernelPhysicalStart kernelPhysicalEnd entries,
          fourKb * bitmapPfs (bootRegions kernelPhysicalStart
            kernelPhysicalEnd entries) ≤ region.len := by
  rw [framesInit_eq hasMmap walk enough few]
  exact constructBitmap_returns_iff (map.framesInitOk tables) boot room

theorem frames_init_succeeds_iff_emulator :
    ∃ after afterMachine, ramFramesInit = some (0, after, afterMachine) := by
  refine (frames_init_succeeds_iff (by decide) ramEntry_walk ramEntry_bootMap
    ramEntry_kernelTables ramLayout_boot ramLayout_bitmapRoom (by decide)
    (by decide)).mpr ⟨ramEntry_twoFrames, ⟨0x110000, 0x7DD0000⟩, ?_, ?_⟩
  · decide
  · decide

theorem BootMap.bootOk
    (map : BootMap kernelPhysicalStart kernelPhysicalEnd entries holder)
    (tables : KernelTables kernelPhysicalStart kernelPhysicalEnd
      kernelPdtVaddr kernelPtVaddr)
    (twoFrames : 2 ≤ (mmapFrames (bootRegions kernelPhysicalStart
      kernelPhysicalEnd entries)).length)
    (success : constructBitmap (bootLayout kernelPhysicalStart
      kernelPhysicalEnd kernelPdtVaddr kernelPtVaddr entries) held machine =
        some (0, after, afterMachine)) : after.BootOk := by
  have ok := map.framesInitOk tables
  obtain ⟨paddr, mmap, _, _, _, _, carve, _, _, _, _, rfl, _⟩ :=
    constructBitmap_succeeds success
  rw [ok.regions.bitmapPfs_w32
    (show 1 ≤ (mmapFrames (bootRegions _ _ _)).length by omega)] at carve
  have carved := carveRegion_spec ok.regions.region ok.regions.disjoint carve
  have framesOk := carved.framesDisjoint ok.regions
    (show 1 ≤ (mmapFrames (bootRegions _ _ _)).length by omega)
  have unmanaged : ∀ frame, frame ∉ mmapFrames (bootLayout
      kernelPhysicalStart kernelPhysicalEnd kernelPdtVaddr kernelPtVaddr
      entries).mmap → frame ∉ mmapFrames mmap := fun frame outside inside =>
    outside (carved.frames.mem_iff.mpr (List.mem_append_right _ inside))
  have aboveOneMb := map.aboveOneMb
  have pdtInside := tables.pdtInside
  have ptInside := tables.ptInside
  have below := map.below holder map.member map.available
  have upper := map.upper
  refine ⟨⟨⟨mmapWellFormed_of_before carved.region
      (carveRegion_ordered ok.regions.region map.bootRegions_ordered carve),
      framesOk.aboveOneMb, framesOk.total⟩, ok.distinct, ?_,
      ok.kernelPtBelow, unmanaged _ ok.kernelPdtUnmanaged,
      unmanaged _ ok.kernelPtUnmanaged⟩, ?_, ?_⟩
  · simp only [bootLayout, fourKb]
    omega
  · simp only [bootLayout, fourKb]
    omega
  · simp only [bootLayout, fourKb]
    omega

/-- The usable frames that are not cut off are the bitmap's, which follow each
other, and the ones that the allocator manages; the bitmap has a bit for each
of them. -/
structure FramesDivided (kernelPhysicalEnd : Nat)
    (entries : List MultibootMmapEntry) (holder : MultibootMmapEntry)
    (after : Layout) (machine : Machine) (first count : Nat) : Prop where
  usable : ∀ frame, UsableFrame kernelPhysicalEnd entries holder frame ∧
      ¬CutOffFrame holder frame ↔
    (first ≤ frame ∧ frame < first + count) ∨ frame ∈ mmapFrames after.mmap
  apart : ∀ frame ∈ mmapFrames after.mmap,
    ¬(first ≤ frame ∧ frame < first + count)
  bits : count = divCeil (divCeil (after.len + count) 8) fourKb
  bitmap : ∀ frame, BitmapFrame after machine frame →
    first ≤ frame ∧ frame < first + count

/-- What `frames_init` leaves is a layout in which the kernel's structures are
not managed.  The usable frames that have been lost are the ones cut off from
the kernel's entry. -/
theorem frames_init_divides_frames (hasMmap : minfo.HasMmap)
    (walk : MmapEntries memory minfo.mmapEnd minfo.mmapAddr entries)
    (map : BootMap kernelPhysicalStart kernelPhysicalEnd entries holder)
    (tables : KernelTables kernelPhysicalStart kernelPhysicalEnd
      kernelPdtVaddr kernelPtVaddr)
    (boot : Boot (bootLayout kernelPhysicalStart kernelPhysicalEnd
      kernelPdtVaddr kernelPtVaddr entries) machine)
    (room : BitmapRoom (bootLayout kernelPhysicalStart kernelPhysicalEnd
      kernelPdtVaddr kernelPtVaddr entries) machine pages)
    (success : framesInit memory kernelPhysicalStart kernelPhysicalEnd
      kernelPdtVaddr kernelPtVaddr minfo fuel held machine =
        some (0, after, afterMachine)) :
    after.BootOk ∧
      ∃ first count, FramesDivided kernelPhysicalEnd entries holder after
        afterMachine first count := by
  have built := framesInit_succeeds hasMmap walk success
  have ok := map.framesInitOk tables
  have twoFrames := constructBitmap_twoFrames ok boot built
  obtain ⟨paddr, placed⟩ := constructBitmap_placed ok.regions twoFrames
    ok.distinct ok.kernelPtBelow boot.kernelSlot built
    (constructBitmap_start ok boot room built)
  have split := ok.regions.split (by omega)
  refine ⟨map.bootOk tables twoFrames built, paddr / fourKb,
    bitmapPfs (bootLayout kernelPhysicalStart kernelPhysicalEnd
      kernelPdtVaddr kernelPtVaddr entries).mmap, ?_, ?_, ?_, ?_⟩
  · intro frame
    rw [← map.usableFrame_iff, ← List.mem_range'_1, ← List.mem_append]
    exact placed.carved.frames.mem_iff
  · intro frame managed inBitmap
    have inside := placed.carved.frame_notLeft
      ok.regions.framesDisjoint.frames_nodup
      (show frame - paddr / fourKb < _ by omega)
    rw [Nat.add_sub_cancel' inBitmap.1] at inside
    exact inside managed
  · rw [placed.len, Nat.add_comm, split, ← ok.regions.totalPfs_eq]
    rfl
  · rintro frame ⟨page, within, translated⟩
    have aligned := placed.aligned
    have onPage := placed.translate (after.start + fourKb * page) page within
      (by simp only [fourKb]; omega)
    rw [onPage] at translated
    cases translated
    rw [placed.len] at within
    have inCut := Nat.lt_of_lt_of_le within
      (ok.regions.roundings twoFrames).pages
    omega

theorem frames_init_divides_frames_emulator :
    ∃ after afterMachine, ramFramesInit = some (0, after, afterMachine) ∧
      after.BootOk ∧
        ∃ first count, FramesDivided 0x110000 [ramEntry] ramEntry after
          afterMachine first count := by
  obtain ⟨after, afterMachine, success⟩ := ramFramesInit_returns
  exact ⟨after, afterMachine, success, frames_init_divides_frames (by decide)
    ramEntry_walk ramEntry_bootMap ramEntry_kernelTables ramLayout_boot
    ramLayout_bitmapRoom success⟩

/-- A recorded frame is free, and lies above 1 MiB. -/
theorem BootMap.freeFrame
    (map : BootMap kernelPhysicalStart kernelPhysicalEnd entries holder)
    {frame offset : Nat}
    (recorded : frame ∈ mmapFrames
      (bootRegions kernelPhysicalStart kernelPhysicalEnd entries))
    (inFrame : offset < fourKb) :
    0x100000 < fourKb * frame + offset ∧
      FreeByte kernelPhysicalStart kernelPhysicalEnd entries
        (fourKb * frame + offset) := by
  obtain ⟨region, member, lower, upper⟩ :=
    (mem_mmapFrames_iff map.wellFormed).mp recorded
  obtain ⟨start, pages, _⟩ := map.wellFormed region member
  obtain ⟨entry, entryMember, part⟩ := map.partOf_entry member
  have aboveOneMb := part.aboveOneMb
  refine ⟨by omega, part.freeByte entryMember ⟨by omega, ?_⟩⟩
  simp only [fourKb] at *
  omega

theorem AllocatorRun.unchanged {layout : Layout} {initial : Machine}
    (framesOk : layout.FramesOk)
    (run : AllocatorRun layout initial state live) :
    state = { initial with bits := state.bits } := by
  induction run with
  | start => rfl
  | @allocate state live numPageFrames run positive small induction =>
      rcases pfaAllocate_spec framesOk.unordered positive small state with
        failed | ⟨position, frame, allocated⟩
      · rw [failed]
        exact induction
      · rw [allocated.unchanged, induction]
  | @free state live paddr run isLive induction =>
      obtain ⟨position, found⟩ := List.mem_iff_getElem?.mp
        ((AllocatorInv.of_run framesOk run).managed _ isLive)
      rw [(pfaFree_spec framesOk found state).1, induction]

/-- After `frames_init`, over every run of allocations and frees of frames that
are in use, the frames that are handed out are different free ones above 1 MiB,
and none is the bitmap's. -/
theorem allocated_frames_are_free (hasMmap : minfo.HasMmap)
    (walk : MmapEntries memory minfo.mmapEnd minfo.mmapAddr entries)
    (map : BootMap kernelPhysicalStart kernelPhysicalEnd entries holder)
    (tables : KernelTables kernelPhysicalStart kernelPhysicalEnd
      kernelPdtVaddr kernelPtVaddr)
    (boot : Boot (bootLayout kernelPhysicalStart kernelPhysicalEnd
      kernelPdtVaddr kernelPtVaddr entries) machine)
    (room : BitmapRoom (bootLayout kernelPhysicalStart kernelPhysicalEnd
      kernelPdtVaddr kernelPtVaddr entries) machine pages)
    (success : framesInit memory kernelPhysicalStart kernelPhysicalEnd
      kernelPdtVaddr kernelPtVaddr minfo fuel held machine =
        some (0, after, afterMachine))
    (run : AllocatorRun after afterMachine state live) :
    live.Nodup ∧ ∀ frame ∈ live,
      (∀ offset < fourKb, 0x100000 < fourKb * frame + offset ∧
        FreeByte kernelPhysicalStart kernelPhysicalEnd entries
          (fourKb * frame + offset)) ∧
      ¬BitmapFrame after state frame := by
  have built := framesInit_succeeds hasMmap walk success
  have ok := map.framesInitOk tables
  have twoFrames := constructBitmap_twoFrames ok boot built
  obtain ⟨paddr, placed⟩ := constructBitmap_placed ok.regions twoFrames
    ok.distinct ok.kernelPtBelow boot.kernelSlot built
    (constructBitmap_start ok boot room built)
  have framesOk := (map.bootOk tables twoFrames built).framesOk
  have invariant := AllocatorInv.of_run framesOk run
  refine ⟨invariant.nodup, fun frame isLive => ⟨?_, ?_⟩⟩
  · intro offset inFrame
    have managed := placed.carved.frames.mem_iff.mpr
      (List.mem_append_right _ (invariant.managed frame isLive))
    exact map.freeFrame managed inFrame
  · rw [run.unchanged framesOk]
    intro inBitmap
    exact (placed.frame ok.regions twoFrames inBitmap).2
      (invariant.managed frame isLive)

end Call

end Newbos
