import Newbos.Paging.Spaces

/-!
# Working beside a directory

While the kernel works on its own half or in the directory of one process, the
tables of another directory can be counted as reserved frames.  The rounds of
mapping and unmapping leave reserved frames alone, so the other directory
keeps its entries and its tables.
-/

namespace Newbos

namespace Ownership

/-- A page table that a directory owns. -/
def TableOf (own : Ownership) (machine : Machine) (directory frame : Nat) :
    Prop :=
  ∃ pdtIdx, own.owns directory pdtIdx ∧
    (machine.mem directory pdtIdx).isPresent = true ∧
    (machine.mem directory pdtIdx).frame = frame

/-- Without the slots of a directory. -/
def without (own : Ownership) (directory : Nat) : Ownership :=
  { own with
    owns := fun pdt pdtIdx => own.owns pdt pdtIdx ∧ pdt ≠ directory }

/-- The slots of a directory are nobody's, and its tables are reserved. -/
def settle (own : Ownership) (machine : Machine) (directory : Nat) :
    Ownership :=
  (own.without directory).reserve (own.TableOf machine directory)

/-- The entries of a directory and the tables that it owns stay as they
are. -/
structure KeepsTables (own : Ownership) (directory : Nat)
    (machine after : Machine) : Prop where
  entry : ∀ index, after.mem directory index = machine.mem directory index
  table : ∀ {frame}, own.TableOf machine directory frame → ∀ index,
    after.mem frame index = machine.mem frame index

section Settle

variable {own : Ownership} {layout : Layout} {directory pdt : Nat}
  {machine middle after : Machine}

theorem Holds.settle (holds : own.Holds layout machine) (directory : Nat) :
    (own.settle machine directory).Holds layout machine := by
  have others : (own.without directory).Holds layout machine :=
    holds.mono And.left id id id
  apply others.reserve
  · rintro frame ⟨pdtIdx, owning, present, rfl⟩
    refine ⟨holds.managed owning present, holds.notReserved owning present,
      ?_⟩
    rintro other otherIdx ⟨otherOwning, different⟩ otherPresent same
    exact different
      (holds.injective otherOwning owning otherPresent present same).1
  · rintro frame ⟨pdtIdx, owning, present, rfl⟩
    exact holds.taken owning present

theorem Lawful.settle (lawful : own.Lawful layout)
    (holds : own.Holds layout machine) (directory : Nat) :
    (own.settle machine directory).Lawful layout := by
  have others : (own.without directory).Lawful layout :=
    { ok := lawful.ok
      notBoot := fun owning => lawful.notBoot owning.1
      directory := fun owning => lawful.directory owning.1
      managed := lawful.managed
      emptyDirectoryEntry := lawful.emptyDirectoryEntry
      emptyTableEntry := lawful.emptyTableEntry }
  apply others.reserve
  rintro frame ⟨pdtIdx, owning, present, rfl⟩
  exact holds.managed owning present

theorem Slot.settle {pdtIdx : Nat} (slot : own.Slot layout pdt pdtIdx)
    (different : pdt ≠ directory) :
    (own.settle machine directory).Slot layout pdt pdtIdx :=
  slot.imp_left fun owning => ⟨owning, different⟩

theorem KernelHalf.settle (half : own.KernelHalf layout)
    (different : layout.kernelPdt ≠ directory) :
    (own.settle machine directory).KernelHalf layout :=
  ⟨fun small => (half.owns small).settle different, half.table, half.entry,
    half.walk⟩

theorem MapAllowed.settle {paddr vaddr size : Nat} {rw pl : UInt8}
    (allowed : own.MapAllowed layout pdt paddr vaddr size rw pl)
    (different : pdt ≠ directory) :
    (own.settle machine directory).MapAllowed layout pdt paddr vaddr size rw
      pl := by
  intro offset within
  obtain ⟨slot, entries⟩ := allowed offset within
  exact ⟨slot.settle different, entries⟩

theorem Untouched.keepsTables
    (untouched : (own.settle machine directory).Untouched layout pdt machine
      after)
    (lawful : own.Lawful layout) (holds : own.Holds layout machine)
    (isReserved : own.reserved directory) (different : pdt ≠ directory) :
    own.KeepsTables directory machine after := by
  constructor
  · intro index
    apply untouched.cell (Or.inr (Or.inl isReserved))
    exact fun same => different same.1.symm
  · rintro frame ⟨pdtIdx, owning, present, rfl⟩ index
    apply untouched.cell
    · exact Or.inr (Or.inr ⟨pdtIdx, owning, present, rfl⟩)
    · -- A table is no directory.
      rintro ⟨same, working, _⟩
      rcases lawful.directory working with isKernel | isDirectory
      · have managed := holds.managed owning present
        rw [same, isKernel] at managed
        exact lawful.ok.kernelPdtUnmanaged managed
      · apply holds.notReserved owning present
        rw [same]
        exact isDirectory

theorem KeepsTables.of_mem (same : after.mem = machine.mem) :
    own.KeepsTables directory machine after :=
  ⟨fun _ => by rw [same], fun _ _ => by rw [same]⟩

theorem TableOf.keep {later : Ownership} {frame : Nat}
    (isTable : own.TableOf machine directory frame)
    (entry : ∀ index, after.mem directory index =
      machine.mem directory index)
    (owns : ∀ {pdtIdx}, own.owns directory pdtIdx →
      later.owns directory pdtIdx) :
    later.TableOf after directory frame := by
  obtain ⟨pdtIdx, owning, present, named⟩ := isTable
  rw [← entry pdtIdx] at present named
  exact ⟨pdtIdx, owns owning, present, named⟩

theorem KeepsTables.trans {later : Ownership}
    (first : own.KeepsTables directory machine middle)
    (second : later.KeepsTables directory middle after)
    (owns : ∀ {pdtIdx}, own.owns directory pdtIdx →
      later.owns directory pdtIdx) :
    own.KeepsTables directory machine after where
  entry index := (second.entry index).trans (first.entry index)
  table isTable index :=
    (second.table (isTable.keep first.entry owns) index).trans
      (first.table isTable index)

/-- Pages under the directory's own tables keep their translations and
rights. -/
theorem KeepsTables.mapping (keeps : own.KeepsTables directory machine after)
    {vaddr : Nat} (owning : own.owns directory (virtualToPdtIdx vaddr)) :
    after.mapping directory vaddr = machine.mapping directory vaddr := by
  apply Machine.mapping_congr (keeps.entry _)
  intro table
  apply Machine.leaf_congr (keeps.entry _)
  exact keeps.table ⟨_, owning, table.isPresent, rfl⟩ _

end Settle

end Ownership

/-! ## Address spaces -/

/-- A step of the kernel that works in at most one process directory: the
other directories keep their entries and their tables, nothing is loaded, and
no address faults. -/
structure WorksIn (layout : Layout) (exempt : Entry → Prop) (pdt : Nat)
    (spaces : Spaces) (machine : Machine) (later : Spaces)
    (after : Machine) : Prop where
  evolves : Evolves layout exempt spaces machine later after
  others : ∀ other ∈ spaces.directories, other ≠ pdt →
    (spaceOwnership layout exempt spaces).KeepsTables other machine after
  active : after.active = machine.active
  faulted : after.faulted = machine.faulted

section Spaces

variable {layout : Layout} {exempt : Entry → Prop} {pdt : Nat}
  {spaces between later : Spaces} {machine middle after : Machine}

theorem Spaces.Grows.owns (grows : spaces.Grows later) {directory : Nat}
    {pdtIdx : Nat} (owning : spaces.Owns layout directory pdtIdx) :
    later.Owns layout directory pdtIdx := by
  refine ⟨owning.1, owning.2.imp_right fun isOwn =>
    ⟨grows.directories isOwn.1, isOwn.2.1, ?_⟩⟩
  rw [grows.loaded]
  exact isOwn.2.2

theorem Spaces.Grows.uses (grows : spaces.Grows later) {frame : Nat}
    (inUse : spaces.Uses frame) : later.Uses frame :=
  inUse.imp grows.directories
    (Or.imp (fun ⟨owner, isUser⟩ => ⟨owner, grows.user isUser⟩) grows.kernel)

theorem WorksIn.trans
    (first : WorksIn layout exempt pdt spaces machine between middle)
    (second : WorksIn layout exempt pdt between middle later after) :
    WorksIn layout exempt pdt spaces machine later after where
  evolves := first.evolves.trans second.evolves
  others other member different :=
    (first.others other member different).trans
      (second.others other
        (first.evolves.grows.directories member) different)
      first.evolves.grows.owns
  active := second.active.trans first.active
  faulted := second.faulted.trans first.faulted

theorem WorksIn.of_bits
    (evolves : Evolves layout exempt spaces machine later after)
    (unchanged : after = { machine with bits := after.bits }) :
    WorksIn layout exempt pdt spaces machine later after where
  evolves := evolves
  others _ _ _ := .of_mem (by rw [unchanged])
  active := by rw [unchanged]
  faulted := by rw [unchanged]

theorem SpaceInv.refl (inv : SpaceInv layout exempt spaces machine) :
    Evolves layout exempt spaces machine spaces machine :=
  ⟨inv, .refl spaces, .of_mem rfl⟩

theorem SpaceInv.idle (inv : SpaceInv layout exempt spaces machine) :
    WorksIn layout exempt pdt spaces machine spaces machine :=
  .of_bits inv.refl rfl

/-- A step that leaves the reserved frames alone, with any other directory
among them. -/
theorem SpaceInv.worksIn (inv : SpaceInv layout exempt spaces machine)
    (ok : layout.BootOk)
    (evolves : Evolves layout exempt spaces machine later after)
    {directory : Nat} (worksAt : directory = pdt ∨
      directory = layout.kernelPdt)
    (untouched : ∀ other, directory ≠ other →
      ((spaceOwnership layout exempt spaces).settle machine other).Untouched
        layout directory machine after) :
    WorksIn layout exempt pdt spaces machine later after := by
  have anyOther := untouched (directory + 1) (Nat.ne_of_lt (Nat.lt_succ_self _))
  refine ⟨evolves, ?_, anyOther.active, anyOther.faulted⟩
  intro other member notPdt
  have different : directory ≠ other := by
    rcases worksAt with rfl | rfl
    · exact notPdt.symm
    · exact inv.notKernelPdt ok (Or.inl member)
  exact (untouched other different).keepsTables (inv.lawful ok) inv.holds
    (Or.inl member) different

variable (ok : layout.BootOk)
include ok

theorem SpaceInv.mapKernel_worksIn
    (inv : SpaceInv layout exempt spaces machine)
    {paddr vaddr size result : Nat} (sizeSmall : size < 4294967296)
    (mapped : pdtMapKernelMemory layout paddr vaddr size 1 0 machine =
      some (result, after)) :
    WorksIn layout exempt pdt spaces machine spaces after := by
  apply inv.worksIn ok (inv.mapKernel ok sizeSmall mapped) (Or.inr rfl)
  intro other different
  have half : ((spaceOwnership layout exempt spaces).settle machine
      other).KernelHalf layout :=
    (spaceOwnership_half layout exempt spaces).settle different
  obtain ⟨_, _, returned, _, untouched⟩ :=
    (inv.holds.settle other).mapMemory ((inv.lawful ok).settle inv.holds other)
      ⟨0, half.owns (by decide)⟩ sizeSmall (half.mapAllowed paddr vaddr _)
  rw [pdtMapKernelMemory, returned] at mapped
  cases mapped
  exact untouched

theorem SpaceInv.pageWindow_worksIn
    (inv : SpaceInv layout exempt spaces machine)
    {paddr vaddr size fuel mappedSize freedSize : Nat}
    (onePage : alignUp size fourKb = 4096) (sizeSmall : size < 4294967296)
    (found : (pdtKernelFindNextVaddr layout size machine).1 = vaddr)
    (mapped : pdtMapKernelMemory layout paddr vaddr size 1 0 machine =
      some (mappedSize, middle))
    (unmapped : pdtUnmapKernelMemory layout fuel vaddr size middle =
      some (freedSize, after)) :
    WorksIn layout exempt pdt spaces machine spaces after := by
  obtain ⟨evolves, _⟩ :=
    inv.pageWindow ok onePage sizeSmall found mapped unmapped
  apply inv.worksIn ok evolves (Or.inr rfl)
  intro other different
  have half : ((spaceOwnership layout exempt spaces).settle machine
      other).KernelHalf layout :=
    (spaceOwnership_half layout exempt spaces).settle different
  obtain ⟨_, untouched, _⟩ := (inv.holds.settle other).pageWindow
    ((inv.lawful ok).settle inv.holds other) half.owns onePage sizeSmall
    (half.mapAllowed paddr vaddr _) found mapped unmapped
  exact untouched

theorem SpaceInv.firstFrame_worksIn
    (inv : SpaceInv layout exempt spaces machine)
    (only : FirstFrameOnly machine after) :
    WorksIn layout exempt pdt spaces machine spaces after := by
  apply inv.worksIn ok (inv.firstFrame ok only) (Or.inr rfl)
  intro other _
  exact ((inv.lawful ok).settle inv.holds other).firstFrame_untouched only _

theorem SpaceInv.pdtCreate_worksIn
    (inv : SpaceInv layout exempt spaces machine) {vaddr paddr : Nat}
    (noSlip : Ownership.CreateSlips layout machine → vaddr ≠ 0)
    (evolves : Evolves layout exempt spaces machine later after)
    (created : Newbos.pdtCreate layout machine =
      some (vaddr, paddr, after)) :
    WorksIn layout exempt pdt spaces machine later after := by
  apply inv.worksIn ok evolves (Or.inr rfl)
  intro other different
  have half : ((spaceOwnership layout exempt spaces).settle machine
      other).KernelHalf layout :=
    (spaceOwnership_half layout exempt spaces).settle different
  rcases (inv.holds.settle other).pdtCreate
    ((inv.lawful ok).settle inv.holds other) half with
    ⟨slips, returned⟩ | ⟨_, _, _, returned, _, untouched, _⟩
  · rw [created] at returned
    cases returned
    exact absurd rfl (noSlip slips)
  · rw [created] at returned
    cases returned
    exact untouched

theorem SpaceInv.mapUser_worksIn
    (inv : SpaceInv layout exempt spaces machine)
    {frame vaddr size result : Nat} (member : pdt ∈ spaces.directories)
    (isUser : (pdt, frame) ∈ spaces.user)
    (userHalf : virtualToPdtIdx vaddr < 768)
    (notLoaded : pdt ∉ spaces.loaded) (aligned : vaddr % 4096 = 0)
    (onePage : alignUp size fourKb = 4096) (sizeSmall : size < 4294967296)
    (mapped : pdtMapMemory layout pdt (fourKb * frame) vaddr size 1 1
      machine = some (result, after)) :
    WorksIn layout exempt pdt spaces machine spaces after := by
  apply inv.worksIn ok (inv.mapUser ok member isUser userHalf notLoaded
    aligned onePage sizeSmall mapped) (Or.inl rfl)
  intro other different
  have slot : ((spaceOwnership layout exempt spaces).settle machine
      other).Slot layout pdt 0 :=
    Ownership.Slot.settle
      (Or.inl ⟨by decide, Or.inr ⟨member, by decide, fun _ => notLoaded⟩⟩)
      different
  have allowed := inv.userAllowed ok member isUser userHalf notLoaded
    aligned onePage
  obtain ⟨_, _, returned, _, untouched⟩ :=
    (inv.holds.settle other).mapMemory ((inv.lawful ok).settle inv.holds other)
      ⟨0, slot⟩ sizeSmall (allowed.settle different)
  rw [mapped] at returned
  cases returned
  exact untouched

end Spaces

end Newbos
