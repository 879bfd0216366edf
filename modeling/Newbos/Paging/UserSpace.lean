import Newbos.Paging.CreateEffects

/-!
# The user half of a new directory

Until a directory is loaded its kernel half is empty.  Mapping a page of its
own fills one entry, or fails for want of a frame and changes nothing, and
mapping kernel memory leaves the directory and its page tables alone.
-/

namespace Newbos

/-- The frames of a directory: it and the page tables of its user half. -/
def DirectoryFrame (machine : Machine) (pdt frame : Nat) : Prop :=
  frame = pdt ∨ ∃ pdtIdx < 768,
    (machine.mem pdt pdtIdx).isPresent = true ∧
      (machine.mem pdt pdtIdx).frame = frame

/-- A step that leaves a directory and its page tables alone. -/
def KeepsSpace (pdt : Nat) (machine after : Machine) : Prop :=
  ∀ frame, DirectoryFrame machine pdt frame →
    ∀ index, after.mem frame index = machine.mem frame index

namespace KeepsSpace

variable {pdt : Nat} {machine middle after : Machine}

theorem of_mem (same : after.mem = machine.mem) :
    KeepsSpace pdt machine after :=
  fun _ _ _ => by rw [same]

theorem slot (keeps : KeepsSpace pdt machine after) (pdtIdx : Nat) :
    after.mem pdt pdtIdx = machine.mem pdt pdtIdx :=
  keeps pdt (Or.inl rfl) pdtIdx

theorem trans (first : KeepsSpace pdt machine middle)
    (second : KeepsSpace pdt middle after) :
    KeepsSpace pdt machine after := by
  intro frame isFrame index
  have still : DirectoryFrame middle pdt frame := by
    refine isFrame.imp_right ?_
    rintro ⟨pdtIdx, small, named⟩
    rw [← first.slot pdtIdx] at named
    exact ⟨pdtIdx, small, named⟩
  exact (second frame still index).trans (first frame isFrame index)

theorem mapping (keeps : KeepsSpace pdt machine after) {vaddr : Nat}
    (userHalf : virtualToPdtIdx vaddr < 768) :
    after.mapping pdt vaddr = machine.mapping pdt vaddr := by
  apply Machine.mapping_congr (keeps.slot _)
  intro table
  apply Machine.leaf_congr (keeps.slot _)
  exact keeps _ (Or.inr ⟨_, userHalf, table.isPresent, rfl⟩) _

end KeepsSpace

/-- A directory that has not been loaded yet. -/
structure UserSpace (spaces : Spaces) (machine : Machine) (pdt : Nat) :
    Prop where
  member : pdt ∈ spaces.directories
  notLoaded : pdt ∉ spaces.loaded
  upper : ∀ pdtIdx, 768 ≤ pdtIdx → pdtIdx < 1024 →
    machine.mem pdt pdtIdx = Entry.empty

section Steps

variable {layout : Layout} {exempt : Entry → Prop} {spaces later : Spaces}
  {machine after : Machine} {pdt : Nat}

theorem UserSpace.owns (space : UserSpace spaces machine pdt) {pdtIdx : Nat}
    (userHalf : pdtIdx < 768) : spaces.Owns layout pdt pdtIdx :=
  ⟨by omega, Or.inr ⟨space.member, userHalf, fun _ => space.notLoaded⟩⟩

theorem UserSpace.keep (space : UserSpace spaces machine pdt)
    (grows : spaces.Grows later) (keeps : KeepsSpace pdt machine after) :
    UserSpace later after pdt where
  member := grows.directories space.member
  notLoaded := by
    rw [grows.loaded]
    exact space.notLoaded
  upper pdtIdx lower small := by
    rw [keeps.slot]
    exact space.upper pdtIdx lower small

/-- In an empty slot of the user half, a round that maps nothing has found no
frame. -/
theorem MapRound.noFrame_of_zero {paddr vaddr size mapped : Nat}
    {rw pl : UInt8}
    (round : MapRound layout pdt paddr vaddr size rw pl machine mapped after)
    (nothing : mapped = 0) (userHalf : virtualToPdtIdx vaddr < 768)
    (absent : (machine.mem pdt (virtualToPdtIdx vaddr)).isPresent = false) :
    (pfaAllocate layout 1 machine).1 = 0 ∧ after = machine := by
  cases round with
  | noFrame _ failed => exact ⟨by rw [failed], rfl⟩
  | existing present =>
      rw [absent] at present
      cases present
  | leaked _ _ isKernel => exact absurd userHalf (by rw [isKernel]; decide)
  | fresh _ _ _ positive => omega

variable (ok : layout.BootOk)
include ok

theorem UserSpace.tablesOwned (space : UserSpace spaces machine pdt)
    (inv : SpaceInv layout exempt spaces machine) :
    TablesOwned layout machine pdt := by
  have slot {pdtIdx : Nat} (userHalf : pdtIdx < 768) :
      (spaceOwnership layout exempt spaces).Slot layout pdt pdtIdx :=
    Or.inl (space.owns userHalf)
  apply inv.holds.tablesOwned (inv.lawful ok)
    (slot (show 0 < 768 by decide))
  intro pdtIdx small table
  by_cases userHalf : pdtIdx < 768
  · exact slot userHalf
  · rw [space.upper pdtIdx (Nat.le_of_not_lt userHalf) small] at table
    exact absurd table (by decide)

theorem UserSpace.firstFrame (space : UserSpace spaces machine pdt)
    (inv : SpaceInv layout exempt spaces machine)
    (only : FirstFrameOnly machine after) : KeepsSpace pdt machine after := by
  have lawful := inv.lawful ok
  intro frame isFrame index
  rw [only.elsewhere]
  rintro rfl
  rcases isFrame with isDirectory | ⟨pdtIdx, userHalf, present, named⟩
  · have managed := inv.managed (Or.inl space.member)
    rw [← isDirectory] at managed
    exact lawful.zero_unmanaged managed
  · have managed := inv.holds.managed (space.owns userHalf) present
    rw [named] at managed
    exact lawful.zero_unmanaged managed

theorem UserSpace.mapKernel (space : UserSpace spaces machine pdt)
    (inv : SpaceInv layout exempt spaces machine)
    {paddr vaddr size result : Nat} (sizeSmall : size < 4294967296)
    (mapped : pdtMapKernelMemory layout paddr vaddr size 1 0 machine =
      some (result, after)) : KeepsSpace pdt machine after := by
  have notKernel := inv.notKernelPdt ok (Or.inl space.member)
  have owns : ∀ {other pdtIdx}, (kernelOwnership layout).owns other pdtIdx →
      (spaceOwnership layout exempt spaces).owns other pdtIdx :=
    fun owning => ⟨owning.2.1, Or.inl ⟨owning.1, owning.1 ▸ owning.2.2⟩⟩
  have kernelHolds : (kernelOwnership layout).Holds layout machine :=
    inv.holds.mono owns (fun impossible => impossible.elim)
      (fun good present =>
        ⟨good.1.isPresent_iff.mp present, (good.2 present).1⟩)
      (fun _ => trivial)
  -- The frames of the directory are none of the kernel's tables.
  have managed : ∀ frame, DirectoryFrame machine pdt frame →
      frame ∈ mmapFrames layout.mmap := by
    rintro frame (rfl | ⟨pdtIdx, userHalf, present, rfl⟩)
    · exact inv.managed (Or.inl space.member)
    · exact inv.holds.managed (space.owns userHalf) present
  have held : ((kernelOwnership layout).reserve
      (DirectoryFrame machine pdt)).Holds layout machine := by
    apply kernelHolds.reserve
    · refine fun frame isFrame => ⟨managed frame isFrame, id, ?_⟩
      intro other otherIdx owning present same
      rcases isFrame with rfl | ⟨pdtIdx, userHalf, tablePresent, rfl⟩
      · apply inv.holds.notReserved (owns owning) present
        rw [same]
        exact Or.inl space.member
      · have unique := inv.holds.injective (owns owning)
          (space.owns userHalf) present tablePresent same
        exact notKernel (owning.1.symm.trans unique.1)
    · rintro frame (rfl | ⟨pdtIdx, userHalf, present, rfl⟩)
      · exact inv.holds.kept (Or.inl space.member)
      · exact inv.holds.taken (space.owns userHalf) present
  have half := (kernelOwnership_half layout).reserve
    (DirectoryFrame machine pdt)
  obtain ⟨_, _, returned, _, untouched⟩ := held.mapMemory
    ((kernelOwnership_lawful ok).reserve managed)
    ⟨0, half.owns (by decide)⟩ sizeSmall (half.mapAllowed paddr vaddr _)
  rw [pdtMapKernelMemory, returned] at mapped
  cases mapped
  intro frame isFrame index
  apply untouched.cell (Or.inr (Or.inr isFrame))
  rintro ⟨rfl, owning⟩
  rcases isFrame with same | ⟨pdtIdx, userHalf, present, same⟩
  · exact notKernel (owning.1.symm.trans same)
  · have table := inv.holds.notReserved (space.owns userHalf) present
    have isManaged := inv.holds.managed (space.owns userHalf) present
    rw [same, owning.1] at isManaged
    exact ok.kernelPdtUnmanaged isManaged

/-- A page of a directory that has been mapped for its user. -/
structure MapsUser (spaces : Spaces) (pdt vaddr frame : Nat)
    (machine after : Machine) : Prop where
  space : UserSpace spaces after pdt
  page : after.mapping pdt vaddr = some ⟨frame, true, true⟩
  others : ∀ address, virtualToPdtIdx address ≠ virtualToPdtIdx vaddr →
    after.mapping pdt address = machine.mapping pdt address
  slots : ∀ pdtIdx < 1024, pdtIdx ≠ virtualToPdtIdx vaddr →
    after.mem pdt pdtIdx = machine.mem pdt pdtIdx

theorem UserSpace.mapPage (space : UserSpace spaces machine pdt)
    (inv : SpaceInv layout exempt spaces machine)
    {frame vaddr size result : Nat}
    (isUser : (pdt, frame) ∈ spaces.user)
    (userHalf : virtualToPdtIdx vaddr < 768) (vaddrSmall : vaddr < 4294967296)
    (absent : (machine.mem pdt (virtualToPdtIdx vaddr)).isPresent = false)
    (onePage : alignUp size fourKb = 4096) (sizeSmall : size < 4294967296)
    (mapped : pdtMapMemory layout pdt (fourKb * frame) vaddr size 1 1
      machine = some (result, after)) :
    result = 4096 ∧ MapsUser spaces pdt vaddr frame machine after ∨
      result = 0 ∧ after = machine ∧
        ¬∃ other, FreeFrame layout machine other := by
  have below := (ok.framesOk.unordered.frame_bounds
    (inv.managed (Or.inr (Or.inl ⟨_, isUser⟩)))).2
  have range : RangeTables machine pdt vaddr (alignUp size fourKb) := by
    intro page within present
    rw [onePage] at within
    have first : page = 0 := by omega
    rw [first, Nat.mul_zero, Nat.add_zero, absent] at present
    cases present
  obtain ⟨_, _, returned, outcome⟩ := pdtMapMemory_outcome ok.toOk
    (space.tablesOwned ok inv)
    (show fourKb * frame < 4294967296 by simp only [fourKb]; omega)
    vaddrSmall sizeSmall range 1 1
  rw [mapped] at returned
  cases returned
  rw [onePage] at outcome
  cases outcome with
  | @complete pages _ whole progress =>
      have one : pages = 1 := by omega
      subst one
      have slotOf : ∀ {pdtIdx ptIdx}, AmongPages vaddr 1 pdtIdx ptIdx →
          pdtIdx = virtualToPdtIdx vaddr := by
        rintro pdtIdx ptIdx ⟨page, within, slot, _⟩
        rw [← slot, Nat.lt_one_iff.mp within, Nat.mul_zero, Nat.add_zero]
      have slots : ∀ pdtIdx < 1024, pdtIdx ≠ virtualToPdtIdx vaddr →
          after.mem pdt pdtIdx = machine.mem pdt pdtIdx := by
        intro pdtIdx small different
        cases was : (machine.mem pdt pdtIdx).isPresent with
        | true => exact progress.kept pdtIdx small was
        | false =>
            rcases progress.opened pdtIdx small was with
              same | ⟨⟨ptIdx, among⟩, _⟩
            · exact same
            · exact absurd (slotOf among) different
      refine Or.inl ⟨rfl, ⟨space.member, space.notLoaded, ?_⟩, ?_, ?_, slots⟩
      · intro pdtIdx lower small
        rw [slots pdtIdx small (by omega)]
        exact space.upper pdtIdx lower small
      · have table := progress.slots 0 Nat.one_pos
        have page := progress.mapping_page Nat.one_pos
        rw [Nat.mul_zero, Nat.add_zero] at table page
        rcases progress.opened _ (virtualToPdtIdx_lt vaddr) absent with
          same | ⟨_, other, opened⟩
        · rw [same] at table
          rw [table.isPresent] at absent
          cases absent
        · obtain ⟨_, _, _, writable, user⟩ :=
            pdtEntry_flags (fourKb * other) 1 1
          have target : w32 (fourKb * frame + 4096 * 0) / 4096 = frame := by
            simp only [fourKb, w32]
            omega
          rw [page, opened, writable, user, target]
          rfl
      · intro address different
        apply progress.mapping_other
        exact fun among => different (slotOf among)
  | @stopped pages rest middle _ whole unfinished progress round =>
      have first : pages = 0 := by omega
      subst first
      have start := progress.first rfl
      subst start
      have here : w32 (vaddr + 4096 * 0) = vaddr := w32_of_lt vaddrSmall
      rw [here] at round
      obtain ⟨noFrame, unchanged⟩ :=
        round.noFrame_of_zero rfl userHalf absent
      exact Or.inr ⟨rfl, unchanged,
        (pfaAllocate_one_zero_iff ok.framesOk middle).mp noFrame⟩

end Steps

end Newbos
