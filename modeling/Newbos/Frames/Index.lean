import Newbos.Frames.Search

/-!
# Frame numbers and frame addresses

The three walks over the region list describe one numbering: `paddr_for_idx`
and `idx_for_paddr` are inverse to each other, and `fits_in_one_mmap_entry`
recognises the runs of numbers whose frames follow one another in one region.
-/

namespace Newbos

/-- The whole frame at an address lies in the region. -/
def MemoryMap.ContainsFrame (region : MemoryMap) (paddr : Nat) : Prop :=
  region.addr ≤ paddr ∧ paddr + fourKb ≤ region.addr + region.len

/-- The `pfs` frames numbered from `bitIdx` on are consecutive frames of one
region. -/
def InOneRegion (mmap : List MemoryMap) (bitIdx pfs : Nat) : Prop :=
  ∃ region ∈ mmap, ∀ k, k < pfs →
    region.ContainsFrame (paddrForIdx mmap (bitIdx + k)) ∧
      paddrForIdx mmap (bitIdx + k) = paddrForIdx mmap bitIdx + fourKb * k

section Numbering

variable {mmap : List MemoryMap} {len : Nat}

theorem idxForPaddr_paddrForIdx (wellFormed : FramesWellFormed mmap len)
    {bitIdx : Nat} (small : bitIdx < len) :
    idxForPaddr mmap len (paddrForIdx mmap bitIdx) = bitIdx := by
  obtain ⟨frame, numbered⟩ := wellFormed.unordered.exists_frame small
  rw [paddrForIdx_eq wellFormed.unordered numbered]
  apply idxForPaddr_eq wellFormed
  rwa [Nat.mul_div_cancel_left frame (by decide : 0 < fourKb)]

/-- An aligned address in a region is the address of a numbered frame. -/
theorem exists_index (wellFormed : FramesWellFormed mmap len) {paddr : Nat}
    (aligned : paddr % fourKb = 0) {region : MemoryMap}
    (member : region ∈ mmap) (inside : region.Contains paddr) :
    ∃ bitIdx, bitIdx < len ∧ paddrForIdx mmap bitIdx = paddr := by
  have whole : fourKb * (paddr / fourKb) = paddr :=
    Nat.mul_div_cancel' (Nat.dvd_of_mod_eq_zero aligned)
  have managed : paddr / fourKb ∈ mmapFrames mmap := by
    apply (mem_mmapFrames_iff wellFormed.map.region).mpr
    exact ⟨region, member, whole.symm ▸ inside⟩
  obtain ⟨bitIdx, numbered⟩ := List.getElem?_of_mem managed
  obtain ⟨inRange, _⟩ := List.getElem?_eq_some_iff.mp numbered
  rw [wellFormed.unordered.frames_length] at inRange
  refine ⟨bitIdx, inRange, ?_⟩
  rw [paddrForIdx_eq wellFormed.unordered numbered, whole]

theorem paddrForIdx_idxForPaddr (wellFormed : FramesWellFormed mmap len)
    {paddr : Nat} (aligned : paddr % fourKb = 0) {region : MemoryMap}
    (member : region ∈ mmap) (inside : region.Contains paddr) :
    paddrForIdx mmap (idxForPaddr mmap len paddr) = paddr := by
  obtain ⟨bitIdx, small, addressed⟩ :=
    exists_index wellFormed aligned member inside
  rw [← addressed, idxForPaddr_paddrForIdx wellFormed small]

theorem paddrForIdx_strictMono (wellFormed : FramesWellFormed mmap len)
    {first second : Nat} (before : first < second) (small : second < len) :
    paddrForIdx mmap first < paddrForIdx mmap second := by
  obtain ⟨lower, atFirst⟩ :=
    wellFormed.unordered.exists_frame (by omega : first < len)
  obtain ⟨upper, atSecond⟩ := wellFormed.unordered.exists_frame small
  obtain ⟨firstInRange, lowerEq⟩ := List.getElem?_eq_some_iff.mp atFirst
  obtain ⟨secondInRange, upperEq⟩ := List.getElem?_eq_some_iff.mp atSecond
  have ascending := List.pairwise_iff_getElem.mp
    (mmapFrames_ascending wellFormed.map) first second firstInRange
    secondInRange before
  rw [lowerEq, upperEq] at ascending
  rw [paddrForIdx_eq wellFormed.unordered atFirst,
    paddrForIdx_eq wellFormed.unordered atSecond]
  exact Nat.mul_lt_mul_of_pos_left ascending (by decide)

theorem inOneRegion_of_fits (wellFormed : FramesWellFormed mmap len)
    {bitIdx pfs : Nat} (positive : 1 ≤ pfs)
    (inWords : bitIdx + pfs ≤ 32 * divCeil len 32)
    (fits : fitsInOneMmapEntry mmap bitIdx pfs = true) :
    bitIdx + pfs ≤ len ∧ InOneRegion mmap bitIdx pfs := by
  obtain ⟨region, member, frame, lower, upper, numbered⟩ :=
    fitsInOneMmapEntry_sound wellFormed.unordered inWords fits
  have address : ∀ k, k < pfs →
      paddrForIdx mmap (bitIdx + k) = fourKb * (frame + k) := fun k inRun =>
    paddrForIdx_eq wellFormed.unordered (numbered k inRun)
  have firstAddress : paddrForIdx mmap bitIdx = fourKb * frame :=
    address 0 positive
  constructor
  · obtain ⟨inRange, _⟩ := List.getElem?_eq_some_iff.mp
      (numbered (pfs - 1) (by omega))
    rw [wellFormed.unordered.frames_length] at inRange
    omega
  · refine ⟨region, member, ?_⟩
    intro k inRun
    rw [address k inRun, firstAddress]
    simp only [MemoryMap.ContainsFrame, fourKb] at *
    omega

theorem fitsInOneMmapEntry_iff (wellFormed : FramesWellFormed mmap len)
    {bitIdx pfs : Nat} (positive : 1 ≤ pfs)
    (inWords : bitIdx + pfs ≤ 32 * divCeil len 32) :
    fitsInOneMmapEntry mmap bitIdx pfs = true ↔
      bitIdx + pfs ≤ len ∧ InOneRegion mmap bitIdx pfs := by
  constructor
  · exact inOneRegion_of_fits wellFormed positive inWords
  · rintro ⟨below, region, member, inside⟩
    apply fitsInOneMmapEntry_complete wellFormed positive below member
    intro index lower upper
    obtain ⟨⟨start, finish⟩, _⟩ := inside (index - bitIdx) (by omega)
    rw [Nat.add_sub_cancel' lower] at start finish
    simp only [MemoryMap.Contains, fourKb] at *
    omega

/-- The frame numbers below `page_frames.len` and the 4 KiB frames of the
regions correspond one to one, in ascending order, and the test of a run that
`pfa_allocate` makes is exact. -/
theorem frame_index_bijection (wellFormed : FramesWellFormed mmap len) :
    (∀ bitIdx, bitIdx < len →
      idxForPaddr mmap len (paddrForIdx mmap bitIdx) = bitIdx) ∧
    (∀ region ∈ mmap, ∀ paddr, paddr % fourKb = 0 → region.Contains paddr →
      paddrForIdx mmap (idxForPaddr mmap len paddr) = paddr) ∧
    (∀ first second, first < second → second < len →
      paddrForIdx mmap first < paddrForIdx mmap second) ∧
    (∀ bitIdx pfs, 1 ≤ pfs → bitIdx + pfs ≤ 32 * divCeil len 32 →
      (fitsInOneMmapEntry mmap bitIdx pfs = true ↔
        bitIdx + pfs ≤ len ∧ InOneRegion mmap bitIdx pfs)) := by
  refine ⟨?_, ?_, ?_, ?_⟩
  · intro bitIdx small
    exact idxForPaddr_paddrForIdx wellFormed small
  · intro region member paddr aligned inside
    exact paddrForIdx_idxForPaddr wellFormed aligned member inside
  · intro first second before small
    exact paddrForIdx_strictMono wellFormed before small
  · intro bitIdx pfs positive inWords
    exact fitsInOneMmapEntry_iff wellFormed positive inWords

end Numbering

/-- Two regions of three frames: the second run of two frames stays in one
region and the first does not. -/
theorem frame_index_bijection_split :
    idxForPaddr splitLayout.mmap 3 (paddrForIdx splitLayout.mmap 2) = 2 ∧
      fitsInOneMmapEntry splitLayout.mmap 1 2 = true ∧
      ¬InOneRegion splitLayout.mmap 0 2 := by
  obtain ⟨inverse, _, _, exact_⟩ := frame_index_bijection splitLayout_framesOk
  refine ⟨inverse 2 (by decide), by decide, ?_⟩
  intro oneRegion
  exact absurd ((exact_ 0 2 (by decide) (by decide)).mpr
    ⟨by decide, oneRegion⟩) (by decide)

end Newbos
