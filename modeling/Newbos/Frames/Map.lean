import Newbos.Library.Word

/-!
# The frame map

The page-frame allocator numbers the 4 KiB frames of all usable regions in
one sequence.  Three separately written walks over the region list translate
between a frame's number and its address.
-/

namespace Newbos

/-- `struct memory_map`: one usable region of physical memory, in bytes. -/
structure MemoryMap where
  addr : Nat
  len : Nat
  deriving DecidableEq, Repr

/-- `FOUR_KB`, `PT_ENTRY_SIZE` and `PAGE_SIZE`. -/
abbrev fourKb : Nat := 4096

/-- `div_ceil`, with the unsigned wrap of its `num - 1`. -/
def divCeil (num den : Nat) : Nat :=
  sub32 num 1 / den + 1

/-- `align_up`. -/
def alignUp (n a : Nat) : Nat :=
  if n % a = 0 then n else w32 (n + (a - n % a))

theorem alignUp_lt {n : Nat} (a : Nat) (small : n < 4294967296) :
    alignUp n a < 4294967296 := by
  rw [alignUp]
  split_ifs
  · exact small
  · exact w32_lt _

theorem alignUp_fourKb_mod (n : Nat) : alignUp n fourKb % 4096 = 0 := by
  simp only [alignUp, fourKb, w32]
  split_ifs <;> omega

theorem le_alignUp_fourKb {n : Nat} (small : n ≤ 4294963200) :
    n ≤ alignUp n fourKb ∧ alignUp n fourKb < n + 4096 := by
  simp only [alignUp, fourKb, w32]
  split_ifs <;> omega

/-- `align_down`. -/
def alignDown (n a : Nat) : Nat :=
  n - n % a

/-- The loop of `idx_for_paddr`; `len` is `page_frames.len`. -/
def idxForPaddrFrom (len paddr : Nat) : List MemoryMap → Nat → Nat
  | [], _ => len
  | region :: rest, byteOffset =>
      if paddr < w32 (region.addr + region.len) then
        w32 (byteOffset + sub32 paddr region.addr) / fourKb
      else
        idxForPaddrFrom len paddr rest (w32 (byteOffset + region.len))

/-- `idx_for_paddr`. -/
def idxForPaddr (mmap : List MemoryMap) (len paddr : Nat) : Nat :=
  idxForPaddrFrom len paddr mmap 0

/-- The loop of `fits_in_one_mmap_entry`. -/
def fitsInOneMmapEntryFrom (offset pfs : Nat) : List MemoryMap → Nat → Bool
  | [], _ => false
  | region :: rest, currentOffset =>
      if w32 (currentOffset + region.len) ≤ offset then
        fitsInOneMmapEntryFrom offset pfs rest
          (w32 (currentOffset + region.len))
      else
        decide (w32 (sub32 offset currentOffset + w32 (pfs * fourKb)) ≤
          region.len)

/-- `fits_in_one_mmap_entry`. -/
def fitsInOneMmapEntry (mmap : List MemoryMap) (bitIdx pfs : Nat) : Bool :=
  fitsInOneMmapEntryFrom (w32 (bitIdx * fourKb)) pfs mmap 0

/-- The loop of `paddr_for_idx`. -/
def paddrForIdxFrom (offset : Nat) : List MemoryMap → Nat → Nat
  | [], _ => 0
  | region :: rest, currentOffset =>
      if w32 (currentOffset + region.len) ≤ offset then
        paddrForIdxFrom offset rest (w32 (currentOffset + region.len))
      else
        w32 (region.addr + sub32 offset currentOffset)

/-- `paddr_for_idx`. -/
def paddrForIdx (mmap : List MemoryMap) (bitIdx : Nat) : Nat :=
  paddrForIdxFrom (w32 (bitIdx * fourKb)) mmap 0

/-- A physical address lies in a region. -/
def MemoryMap.Contains (region : MemoryMap) (paddr : Nat) : Prop :=
  region.addr ≤ paddr ∧ paddr < region.addr + region.len

/-- What the boot loader and `frames_init` promise about one region. -/
structure MemoryMap.WellFormed (region : MemoryMap) : Prop where
  addrAligned : region.addr % fourKb = 0
  lenAligned : region.len % fourKb = 0
  below : region.addr + region.len < 4294967296

/-- A list of usable regions in ascending order that share no address. -/
structure MmapWellFormed (mmap : List MemoryMap) : Prop where
  region : ∀ entry ∈ mmap, entry.WellFormed
  ascending : mmap.Pairwise fun lower upper => lower.addr ≤ upper.addr
  disjoint : mmap.Pairwise fun lower upper =>
    ∀ paddr, lower.Contains paddr → ¬upper.Contains paddr

/-- Size in bytes of all regions together. -/
def mmapBytes (mmap : List MemoryMap) : Nat :=
  (mmap.map MemoryMap.len).sum

/-- The frame map left by `frames_init`: its regions lie above 1 MiB, where
`fill_memory_map` starts, and the bitmap has one bit for each frame. -/
structure FramesWellFormed (mmap : List MemoryMap) (len : Nat) : Prop where
  map : MmapWellFormed mmap
  aboveOneMb : ∀ entry ∈ mmap, 0x100000 ≤ entry.addr
  total : mmapBytes mmap = len * fourKb

/-- The same for regions in any order. -/
structure FramesDisjoint (mmap : List MemoryMap) (len : Nat) : Prop where
  region : ∀ entry ∈ mmap, entry.WellFormed
  disjoint : mmap.Pairwise fun first second =>
    ∀ paddr, first.Contains paddr → ¬second.Contains paddr
  aboveOneMb : ∀ entry ∈ mmap, 0x100000 ≤ entry.addr
  total : mmapBytes mmap = len * fourKb

theorem FramesWellFormed.unordered {mmap : List MemoryMap} {len : Nat}
    (wellFormed : FramesWellFormed mmap len) : FramesDisjoint mmap len where
  region := wellFormed.map.region
  disjoint := wellFormed.map.disjoint
  aboveOneMb := wellFormed.aboveOneMb
  total := wellFormed.total

/-- The frame numbers of one region, in order. -/
def MemoryMap.frames (region : MemoryMap) : List Nat :=
  List.range' (region.addr / fourKb) (region.len / fourKb)

/-- The frame numbers of all regions, in order. -/
def mmapFrames (mmap : List MemoryMap) : List Nat :=
  mmap.flatMap MemoryMap.frames

theorem mem_frames_iff {region : MemoryMap} (wellFormed : region.WellFormed)
    {frame : Nat} :
    frame ∈ region.frames ↔ region.Contains (fourKb * frame) := by
  have addrAligned := wellFormed.addrAligned
  have lenAligned := wellFormed.lenAligned
  simp only [MemoryMap.frames, MemoryMap.Contains, List.mem_range'_1,
    fourKb] at *
  omega

theorem mem_mmapFrames_iff {mmap : List MemoryMap}
    (regions : ∀ entry ∈ mmap, entry.WellFormed) {frame : Nat} :
    frame ∈ mmapFrames mmap ↔
      ∃ region ∈ mmap, region.Contains (fourKb * frame) := by
  simp only [mmapFrames, List.mem_flatMap]
  constructor
  · rintro ⟨region, member, inside⟩
    exact ⟨region, member,
      (mem_frames_iff (regions region member)).mp inside⟩
  · rintro ⟨region, member, inside⟩
    exact ⟨region, member,
      (mem_frames_iff (regions region member)).mpr inside⟩

theorem MmapWellFormed.tail {region : MemoryMap} {rest : List MemoryMap}
    (wellFormed : MmapWellFormed (region :: rest)) : MmapWellFormed rest where
  region := fun entry member =>
    wellFormed.region entry (List.mem_cons_of_mem _ member)
  ascending := (List.pairwise_cons.mp wellFormed.ascending).2
  disjoint := (List.pairwise_cons.mp wellFormed.disjoint).2

theorem MmapWellFormed.head_end_le {region later : MemoryMap}
    {rest : List MemoryMap} (wellFormed : MmapWellFormed (region :: rest))
    (member : later ∈ rest) {paddr : Nat} (inside : later.Contains paddr) :
    region.addr + region.len ≤ paddr := by
  have ordered := (List.pairwise_cons.mp wellFormed.ascending).1 later member
  have separate := (List.pairwise_cons.mp wellFormed.disjoint).1 later member
  have startInside : later.Contains later.addr := by
    unfold MemoryMap.Contains at *
    omega
  have startOutside : ¬region.Contains later.addr := fun overlap =>
    separate later.addr overlap startInside
  unfold MemoryMap.Contains at *
  omega

theorem mmapFrames_ascending {mmap : List MemoryMap}
    (wellFormed : MmapWellFormed mmap) :
    (mmapFrames mmap).Pairwise (· < ·) := by
  induction mmap with
  | nil => exact List.Pairwise.nil
  | cons region rest induction =>
      have headFormed := wellFormed.region region (by simp)
      refine List.pairwise_append.mpr
        ⟨List.pairwise_lt_range', induction wellFormed.tail, ?_⟩
      intro lower lowerMember upper upperMember
      have lowerInside := (mem_frames_iff headFormed).mp lowerMember
      obtain ⟨later, laterMember, upperInside⟩ :=
        (mem_mmapFrames_iff wellFormed.tail.region).mp upperMember
      have separated := wellFormed.head_end_le laterMember upperInside
      unfold MemoryMap.Contains at lowerInside
      simp only [fourKb] at *
      omega

theorem mmapFrames_nodup {mmap : List MemoryMap}
    (regions : ∀ entry ∈ mmap, entry.WellFormed)
    (disjoint : mmap.Pairwise fun first second =>
      ∀ paddr, first.Contains paddr → ¬second.Contains paddr) :
    (mmapFrames mmap).Nodup := by
  induction mmap with
  | nil => exact List.nodup_nil
  | cons region rest induction =>
      obtain ⟨headDisjoint, restDisjoint⟩ := List.pairwise_cons.mp disjoint
      obtain ⟨headFormed, restFormed⟩ := List.forall_mem_cons.mp regions
      refine List.nodup_append'.mpr ⟨List.nodup_range',
        induction restFormed restDisjoint, ?_⟩
      intro frame inHead inRest
      have inside := (mem_frames_iff headFormed).mp inHead
      obtain ⟨later, member, inLater⟩ :=
        (mem_mmapFrames_iff restFormed).mp inRest
      exact headDisjoint later member _ inside inLater

theorem mmapFrames_length {mmap : List MemoryMap}
    (regions : ∀ entry ∈ mmap, entry.WellFormed) :
    fourKb * (mmapFrames mmap).length = mmapBytes mmap := by
  induction mmap with
  | nil => rfl
  | cons region rest induction =>
      obtain ⟨headFormed, restFormed⟩ := List.forall_mem_cons.mp regions
      have lenAligned := headFormed.lenAligned
      have restLength := induction restFormed
      simp only [mmapFrames, mmapBytes, List.flatMap_cons, List.length_append,
        List.map_cons, List.sum_cons, MemoryMap.frames,
        List.length_range', fourKb] at *
      omega

theorem mmapFrames_cons_getElem? (region : MemoryMap)
    (rest : List MemoryMap) (position : Nat) :
    (mmapFrames (region :: rest))[position]? =
      if position < region.len / fourKb then
        some (region.addr / fourKb + position)
      else (mmapFrames rest)[position - region.len / fourKb]? := by
  have split : mmapFrames (region :: rest) =
      region.frames ++ mmapFrames rest := rfl
  rw [split, List.getElem?_append]
  simp only [MemoryMap.frames, List.length_range']
  by_cases inHead : position < region.len / fourKb
  · rw [if_pos inHead, if_pos inHead, List.getElem?_range' inHead]
    simp
  · rw [if_neg inHead, if_neg inHead]

namespace FramesDisjoint

variable {mmap : List MemoryMap} {len : Nat}

theorem frames_nodup (wellFormed : FramesDisjoint mmap len) :
    (mmapFrames mmap).Nodup :=
  mmapFrames_nodup wellFormed.region wellFormed.disjoint

theorem frames_length (wellFormed : FramesDisjoint mmap len) :
    (mmapFrames mmap).length = len := by
  have bytes := mmapFrames_length wellFormed.region
  have total := wellFormed.total
  simp only [fourKb] at *
  omega

theorem exists_frame (wellFormed : FramesDisjoint mmap len) {index : Nat}
    (small : index < len) : ∃ frame, (mmapFrames mmap)[index]? = some frame :=
  ⟨_, List.getElem?_eq_getElem (by rwa [wellFormed.frames_length])⟩

theorem frame_bounds (wellFormed : FramesDisjoint mmap len) {frame : Nat}
    (member : frame ∈ mmapFrames mmap) : 256 ≤ frame ∧ frame < 1048576 := by
  obtain ⟨region, regionMember, inside⟩ :=
    (mem_mmapFrames_iff wellFormed.region).mp member
  have above := wellFormed.aboveOneMb region regionMember
  have below := (wellFormed.region region regionMember).below
  have aligned := (wellFormed.region region regionMember).addrAligned
  unfold MemoryMap.Contains at inside
  simp only [fourKb] at *
  omega

theorem len_le (wellFormed : FramesDisjoint mmap len) : len ≤ 1048320 := by
  have subset : (mmapFrames mmap).toFinset ⊆ Finset.Ico 256 1048576 := by
    intro frame member
    have bounds := wellFormed.frame_bounds (List.mem_toFinset.mp member)
    exact Finset.mem_Ico.mpr bounds
  have card := Finset.card_le_card subset
  rw [List.toFinset_card_of_nodup wellFormed.frames_nodup,
    wellFormed.frames_length, Nat.card_Ico] at card
  exact card

theorem bytes_lt (wellFormed : FramesDisjoint mmap len) :
    mmapBytes mmap < 4294967296 := by
  have bound := wellFormed.len_le
  rw [wellFormed.total]
  simp only [fourKb]
  omega

theorem position_unique (wellFormed : FramesDisjoint mmap len)
    {first second frame : Nat}
    (atFirst : (mmapFrames mmap)[first]? = some frame)
    (atSecond : (mmapFrames mmap)[second]? = some frame) :
    first = second := by
  obtain ⟨inRange, _⟩ := List.getElem?_eq_some_iff.mp atFirst
  exact (List.getElem?_inj inRange wellFormed.frames_nodup).mp
    (atFirst.trans atSecond.symm)

end FramesDisjoint

/-! ## The three walks -/

theorem paddrForIdxFrom_eq {mmap : List MemoryMap}
    (regions : ∀ entry ∈ mmap, entry.WellFormed)
    {position frame currentOffset : Nat}
    (found : (mmapFrames mmap)[position]? = some frame)
    (small : currentOffset + mmapBytes mmap < 4294967296) :
    paddrForIdxFrom (currentOffset + fourKb * position) mmap currentOffset =
      fourKb * frame := by
  induction mmap generalizing position currentOffset with
  | nil => simp [mmapFrames] at found
  | cons region rest induction =>
      obtain ⟨headFormed, restFormed⟩ := List.forall_mem_cons.mp regions
      have addrAligned := headFormed.addrAligned
      have lenAligned := headFormed.lenAligned
      have below := headFormed.below
      have bytes : mmapBytes (region :: rest) =
          region.len + mmapBytes rest := by simp [mmapBytes]
      rw [bytes] at small
      have noWrap : w32 (currentOffset + region.len) =
          currentOffset + region.len := w32_of_lt (by omega)
      rw [mmapFrames_cons_getElem?] at found
      simp only [paddrForIdxFrom, noWrap]
      split at found
      · rename_i inHead
        have frameEq : region.addr / fourKb + position = frame := by
          simpa using found
        have notSkipped : ¬currentOffset + region.len ≤
            currentOffset + fourKb * position := by
          simp only [fourKb] at *
          omega
        have insideEq : sub32 (currentOffset + fourKb * position)
            currentOffset = fourKb * position := by
          rw [sub32_of_le (by omega)]
          omega
        rw [if_neg notSkipped, insideEq, w32_of_lt]
        · simp only [fourKb] at *
          omega
        · simp only [fourKb] at *
          omega
      · rename_i inRest
        have skipped : currentOffset + region.len ≤
            currentOffset + fourKb * position := by
          simp only [fourKb] at *
          omega
        have sameOffset : currentOffset + fourKb * position =
            currentOffset + region.len +
              fourKb * (position - region.len / fourKb) := by
          simp only [fourKb] at *
          omega
        rw [if_pos skipped, sameOffset]
        exact induction restFormed found (by omega)

theorem idxForPaddrFrom_eq {mmap : List MemoryMap}
    (wellFormed : MmapWellFormed mmap)
    {len position paddr byteOffset : Nat}
    (found : (mmapFrames mmap)[position]? = some (paddr / fourKb))
    (small : byteOffset + mmapBytes mmap < 4294967296)
    (offsetAligned : byteOffset % fourKb = 0) :
    idxForPaddrFrom len paddr mmap byteOffset =
      byteOffset / fourKb + position := by
  induction mmap generalizing position byteOffset with
  | nil => simp [mmapFrames] at found
  | cons region rest induction =>
      have headFormed := wellFormed.region region (by simp)
      have addrAligned := headFormed.addrAligned
      have lenAligned := headFormed.lenAligned
      have below := headFormed.below
      have bytes : mmapBytes (region :: rest) =
          region.len + mmapBytes rest := by simp [mmapBytes]
      rw [bytes] at small
      have endEq : w32 (region.addr + region.len) =
          region.addr + region.len := w32_of_lt below
      rw [mmapFrames_cons_getElem?] at found
      simp only [idxForPaddrFrom, endEq]
      split at found
      · rename_i inHead
        have frameEq : region.addr / fourKb + position = paddr / fourKb := by
          simpa using found
        have beforeEnd : paddr < region.addr + region.len := by
          simp only [fourKb] at *
          omega
        have afterStart : region.addr ≤ paddr := by
          simp only [fourKb] at *
          omega
        rw [if_pos beforeEnd, sub32_of_le afterStart, w32_of_lt (by omega)]
        simp only [fourKb] at *
        omega
      · rename_i inRest
        have member : paddr / fourKb ∈ mmapFrames rest :=
          List.mem_of_getElem? found
        obtain ⟨later, laterMember, inside⟩ :=
          (mem_mmapFrames_iff wellFormed.tail.region).mp member
        have pastEnd := wellFormed.head_end_le laterMember inside
        have notBefore : ¬paddr < region.addr + region.len := by
          simp only [fourKb] at *
          omega
        rw [if_neg notBefore, w32_of_lt (by omega),
          induction wellFormed.tail found (by omega)
            (by simp only [fourKb] at *; omega)]
        simp only [fourKb] at *
        omega

theorem paddrForIdx_eq {mmap : List MemoryMap} {len position frame : Nat}
    (wellFormed : FramesDisjoint mmap len)
    (found : (mmapFrames mmap)[position]? = some frame) :
    paddrForIdx mmap position = fourKb * frame := by
  obtain ⟨inRange, _⟩ := List.getElem?_eq_some_iff.mp found
  rw [wellFormed.frames_length] at inRange
  have bound := wellFormed.len_le
  have small : 0 + mmapBytes mmap < 4294967296 := by
    simpa using wellFormed.bytes_lt
  have walk := paddrForIdxFrom_eq wellFormed.region found small
  rw [Nat.zero_add, Nat.mul_comm] at walk
  rw [paddrForIdx, w32_of_lt (by simp only [fourKb]; omega)]
  exact walk

/-- `paddr_for_idx` answers with an address in a region, or with 0. -/
theorem paddrForIdxFrom_inside {mmap : List MemoryMap}
    (regions : ∀ entry ∈ mmap, entry.WellFormed) {offset currentOffset : Nat}
    (small : currentOffset + mmapBytes mmap < 4294967296)
    (reached : currentOffset ≤ offset) :
    paddrForIdxFrom offset mmap currentOffset = 0 ∨
      ∃ region ∈ mmap,
        region.Contains (paddrForIdxFrom offset mmap currentOffset) := by
  induction mmap generalizing currentOffset with
  | nil => exact Or.inl rfl
  | cons region rest induction =>
      obtain ⟨headFormed, restFormed⟩ := List.forall_mem_cons.mp regions
      have below := headFormed.below
      have bytes : mmapBytes (region :: rest) =
          region.len + mmapBytes rest := by simp [mmapBytes]
      rw [bytes] at small
      rw [paddrForIdxFrom, w32_of_lt (by omega)]
      by_cases skipped : currentOffset + region.len ≤ offset
      · rw [if_pos skipped]
        rcases induction restFormed (by omega) skipped with
          none | ⟨later, member, inside⟩
        · exact Or.inl none
        · exact Or.inr ⟨later, List.mem_cons_of_mem _ member, inside⟩
      · rw [if_neg skipped, sub32_of_le reached, w32_of_lt (by omega)]
        refine Or.inr ⟨region, List.mem_cons_self .., ?_, ?_⟩
        · omega
        · omega

theorem paddrForIdx_frame {mmap : List MemoryMap} {len : Nat}
    (wellFormed : FramesDisjoint mmap len) (bitIdx : Nat) :
    paddrForIdx mmap bitIdx = 0 ∨
      paddrForIdx mmap bitIdx / fourKb ∈ mmapFrames mmap := by
  have bytes := wellFormed.bytes_lt
  rcases paddrForIdxFrom_inside wellFormed.region
    (show 0 + mmapBytes mmap < 4294967296 by omega)
    (Nat.zero_le (w32 (bitIdx * fourKb))) with none | ⟨region, member, inside⟩
  · exact Or.inl none
  · refine Or.inr ((mem_mmapFrames_iff wellFormed.region).mpr
      ⟨region, member, ?_⟩)
    have formed := wellFormed.region region member
    have addrAligned := formed.addrAligned
    rw [paddrForIdx]
    unfold MemoryMap.Contains at *
    simp only [fourKb] at *
    omega

theorem idxForPaddr_eq {mmap : List MemoryMap} {len position paddr : Nat}
    (wellFormed : FramesWellFormed mmap len)
    (found : (mmapFrames mmap)[position]? = some (paddr / fourKb)) :
    idxForPaddr mmap len paddr = position := by
  have small : 0 + mmapBytes mmap < 4294967296 := by
    simpa using wellFormed.unordered.bytes_lt
  have walk : idxForPaddrFrom len paddr mmap 0 = 0 / fourKb + position :=
    idxForPaddrFrom_eq wellFormed.map found small (by simp)
  simpa [idxForPaddr] using walk

/-- Regions behind a bound share the rest of the address space, less its last
page. -/
theorem MmapWellFormed.add_bytes_le {mmap : List MemoryMap}
    (wellFormed : MmapWellFormed mmap) {lower : Nat}
    (small : lower ≤ 4294963200)
    (behind : ∀ region ∈ mmap, 0 < region.len → lower ≤ region.addr) :
    lower + mmapBytes mmap ≤ 4294963200 := by
  induction mmap generalizing lower with
  | nil => simpa [mmapBytes] using small
  | cons region rest induction =>
      have headFormed := wellFormed.region region (by simp)
      have addrAligned := headFormed.addrAligned
      have lenAligned := headFormed.lenAligned
      have below := headFormed.below
      have bytes : mmapBytes (region :: rest) =
          region.len + mmapBytes rest := by simp [mmapBytes]
      rw [bytes]
      by_cases empty : region.len = 0
      · have restBytes := induction wellFormed.tail small
          fun later member => behind later (List.mem_cons_of_mem _ member)
        omega
      · have start := behind region (by simp) (by omega)
        have restBytes : region.addr + region.len + mmapBytes rest ≤
            4294963200 := by
          apply induction wellFormed.tail
          · simp only [fourKb] at *
            omega
          · intro later member nonempty
            exact wellFormed.head_end_le member ⟨Nat.le_refl _, by omega⟩
        omega

/-- Addresses behind all regions are the ones `idx_for_paddr` rejects. -/
theorem idxForPaddrFrom_above {mmap : List MemoryMap}
    (wellFormed : MmapWellFormed mmap) {len paddr : Nat}
    (above : ∀ region ∈ mmap, region.addr + region.len ≤ paddr)
    (byteOffset : Nat) :
    idxForPaddrFrom len paddr mmap byteOffset = len := by
  induction mmap generalizing byteOffset with
  | nil => rfl
  | cons region rest induction =>
      have below := (wellFormed.region region (by simp)).below
      have past := above region (by simp)
      rw [idxForPaddrFrom, w32_of_lt below, if_neg (by omega)]
      exact induction wellFormed.tail
        (fun later member => above later (List.mem_cons_of_mem _ member)) _

theorem MmapWellFormed.cons_bytes_le {region : MemoryMap}
    {rest : List MemoryMap} (wellFormed : MmapWellFormed (region :: rest)) :
    region.addr + mmapBytes (region :: rest) ≤ 4294963200 := by
  have headFormed := wellFormed.region region (by simp)
  have addrAligned := headFormed.addrAligned
  have below := headFormed.below
  apply wellFormed.add_bytes_le
  · simp only [fourKb] at addrAligned
    omega
  · intro other member nonempty
    rcases List.mem_cons.mp member with same | later
    · rw [same]
    · exact (List.pairwise_cons.mp wellFormed.ascending).1 _ later

theorem idxForPaddr_null {mmap : List MemoryMap} {len : Nat}
    (wellFormed : FramesWellFormed mmap len) :
    len ≤ idxForPaddr mmap len 0 := by
  have total := wellFormed.total
  cases mmap with
  | nil => exact Nat.le_refl _
  | cons region rest =>
      have above := wellFormed.aboveOneMb region (by simp)
      have below := (wellFormed.map.region region (by simp)).below
      have room := wellFormed.map.cons_bytes_le
      rw [idxForPaddr, idxForPaddrFrom, w32_of_lt below,
        if_pos (by omega), sub32_of_lt (by omega)]
      simp only [w32, fourKb] at *
      omega

/-- For an address in front of some region but in none, `idx_for_paddr` gives
the number of a frame of an earlier region or, after a borrow, a number past
the last frame. -/
theorem idxForPaddrFrom_ne {mmap : List MemoryMap}
    (wellFormed : MmapWellFormed mmap) {len paddr byteOffset : Nat}
    (total : byteOffset + mmapBytes mmap = len * fourKb)
    (small : byteOffset + mmapBytes mmap ≤ 4294963200)
    (unmanaged : ∀ region ∈ mmap, ¬region.Contains paddr)
    (before : ∃ region ∈ mmap, paddr < region.addr + region.len) :
    idxForPaddrFrom len paddr mmap byteOffset ≠ len := by
  induction mmap generalizing byteOffset with
  | nil =>
      obtain ⟨region, member, _⟩ := before
      simp at member
  | cons region rest induction =>
      have headFormed := wellFormed.region region (by simp)
      have below := headFormed.below
      have bytes : mmapBytes (region :: rest) =
          region.len + mmapBytes rest := by simp [mmapBytes]
      rw [idxForPaddrFrom, w32_of_lt below]
      by_cases inFront : paddr < region.addr + region.len
      · have notInside := unmanaged region (by simp)
        have borrow : paddr < region.addr := by
          unfold MemoryMap.Contains at notInside
          omega
        have room := wellFormed.cons_bytes_le
        rw [if_pos inFront, sub32_of_lt borrow]
        simp only [w32, fourKb] at *
        omega
      · rw [if_neg inFront, w32_of_lt (by omega)]
        apply induction wellFormed.tail (by omega) (by omega)
        · intro later member
          exact unmanaged later (List.mem_cons_of_mem _ member)
        · obtain ⟨later, member, early⟩ := before
          rcases List.mem_cons.mp member with same | inRest
          · exact absurd (same ▸ early) inFront
          · exact ⟨later, inRest, early⟩

theorem fitsInOneMmapEntryFrom_cons {region : MemoryMap}
    {rest : List MemoryMap} {position pfs currentOffset : Nat}
    (lenAligned : region.len % fourKb = 0)
    (small : currentOffset + region.len < 4294967296)
    (runSmall : currentOffset + fourKb * (position + pfs) < 4294967296) :
    fitsInOneMmapEntryFrom (currentOffset + fourKb * position) pfs
        (region :: rest) currentOffset =
      if position < region.len / fourKb then
        decide (fourKb * (position + pfs) ≤ region.len)
      else
        fitsInOneMmapEntryFrom (currentOffset + region.len +
            fourKb * (position - region.len / fourKb)) pfs rest
          (currentOffset + region.len) := by
  rw [fitsInOneMmapEntryFrom, w32_of_lt small]
  by_cases inHead : position < region.len / fourKb
  · have insideEq : sub32 (currentOffset + fourKb * position)
        currentOffset = fourKb * position := by
      rw [sub32_of_le (Nat.le_add_right ..)]
      exact Nat.add_sub_cancel_left ..
    have runEq : w32 (pfs * fourKb) = pfs * fourKb :=
      w32_of_lt (by simp only [fourKb] at *; omega)
    have sumEq : w32 (fourKb * position + pfs * fourKb) =
        fourKb * (position + pfs) := by
      rw [w32_of_lt (by simp only [fourKb] at *; omega), Nat.mul_comm pfs,
        Nat.mul_add]
    rw [if_neg (by simp only [fourKb] at *; omega), if_pos inHead, insideEq,
      runEq, sumEq]
  · have sameOffset : currentOffset + fourKb * position =
        currentOffset + region.len +
          fourKb * (position - region.len / fourKb) := by
      simp only [fourKb] at *
      omega
    rw [if_pos (by simp only [fourKb] at *; omega), if_neg inHead, sameOffset]

/-- A run of frames accepted by `fits_in_one_mmap_entry` is consecutive in the
numbering and in memory, inside one region. -/
theorem fitsInOneMmapEntryFrom_sound {mmap : List MemoryMap}
    (regions : ∀ entry ∈ mmap, entry.WellFormed)
    {position pfs currentOffset : Nat}
    (small : currentOffset + mmapBytes mmap < 4294967296)
    (runSmall : currentOffset + fourKb * (position + pfs) < 4294967296)
    (fits : fitsInOneMmapEntryFrom (currentOffset + fourKb * position) pfs
      mmap currentOffset = true) :
    ∃ region ∈ mmap, ∃ frame,
      region.addr ≤ fourKb * frame ∧
      fourKb * (frame + pfs) ≤ region.addr + region.len ∧
      fourKb * frame < region.addr + region.len ∧
      ∀ step, step < pfs →
        (mmapFrames mmap)[position + step]? = some (frame + step) := by
  induction mmap generalizing position currentOffset with
  | nil => simp [fitsInOneMmapEntryFrom] at fits
  | cons region rest induction =>
      obtain ⟨headFormed, restFormed⟩ := List.forall_mem_cons.mp regions
      have addrAligned := headFormed.addrAligned
      have lenAligned := headFormed.lenAligned
      have bytes : mmapBytes (region :: rest) =
          region.len + mmapBytes rest := by simp [mmapBytes]
      rw [bytes] at small
      rw [fitsInOneMmapEntryFrom_cons lenAligned (by omega) runSmall] at fits
      by_cases startsInHead : position < region.len / fourKb
      · rw [if_pos startsInHead, decide_eq_true_eq] at fits
        refine ⟨region, List.mem_cons_self, region.addr / fourKb + position,
          ?_, ?_, ?_, ?_⟩
        · simp only [fourKb] at *
          omega
        · simp only [fourKb] at *
          omega
        · simp only [fourKb] at *
          omega
        · intro step stepBound
          have inHead : position + step < region.len / fourKb := by
            simp only [fourKb] at *
            omega
          rw [mmapFrames_cons_getElem?, if_pos inHead, Nat.add_assoc]
      · rw [if_neg startsInHead] at fits
        obtain ⟨found, member, frame, start, finish, first, frames⟩ :=
          induction restFormed (by omega)
            (by simp only [fourKb] at *; omega) fits
        refine ⟨found, List.mem_cons_of_mem _ member, frame, start, finish,
          first, ?_⟩
        intro step stepBound
        have shifted : position + step - region.len / fourKb =
            position - region.len / fourKb + step := by
          omega
        rw [mmapFrames_cons_getElem?, if_neg (by omega), shifted]
        exact frames step stepBound

theorem fitsInOneMmapEntryFrom_empty {mmap : List MemoryMap}
    (empty : mmapBytes mmap = 0) (offset pfs : Nat) :
    fitsInOneMmapEntryFrom offset pfs mmap 0 = false := by
  induction mmap with
  | nil => rfl
  | cons region rest induction =>
      have bytes : region.len + mmapBytes rest = 0 := by
        simpa [mmapBytes] using empty
      have headEmpty : region.len = 0 := by omega
      have skipped : w32 (0 + region.len) = 0 := by rw [headEmpty]; rfl
      simp only [fitsInOneMmapEntryFrom, skipped, Nat.zero_le, if_true]
      exact induction (by omega)

/-- The form in which `pfa_allocate` uses the test: any run that ends inside
the bitmap's words. -/
theorem fitsInOneMmapEntry_sound {mmap : List MemoryMap}
    {len position pfs : Nat} (wellFormed : FramesDisjoint mmap len)
    (inWords : position + pfs ≤ 32 * divCeil len 32)
    (fits : fitsInOneMmapEntry mmap position pfs = true) :
    ∃ region ∈ mmap, ∃ frame,
      region.addr ≤ fourKb * frame ∧
      fourKb * (frame + pfs) ≤ region.addr + region.len ∧
      ∀ step, step < pfs →
        (mmapFrames mmap)[position + step]? = some (frame + step) := by
  have lenSmall := wellFormed.len_le
  have total := wellFormed.total
  by_cases none : len = 0
  · have empty : mmapBytes mmap = 0 := by rw [total, none, Nat.zero_mul]
    rw [fitsInOneMmapEntry, fitsInOneMmapEntryFrom_empty empty] at fits
    simp at fits
  · have pred : sub32 len 1 = len - 1 := sub32_of_le (by omega)
    have runSmall : 0 + fourKb * (position + pfs) < 4294967296 := by
      rw [divCeil, pred] at inWords
      simp only [fourKb]
      omega
    have offset : w32 (position * fourKb) = 0 + fourKb * position := by
      rw [w32_of_lt (by simp only [fourKb] at *; omega)]
      simp only [fourKb]
      omega
    rw [fitsInOneMmapEntry, offset] at fits
    obtain ⟨region, member, frame, lower, upper, _, numbered⟩ :=
      fitsInOneMmapEntryFrom_sound wellFormed.region
        (by simpa using wellFormed.bytes_lt) runSmall fits
    exact ⟨region, member, frame, lower, upper, numbered⟩

end Newbos
