import Newbos.Paging.Mapping

/-!
# Calls of the mapper

A successful `pdt_map_memory` installs exactly the requested pages.  A call
that fails has undone nothing: it leaves no trace only when it fails at its
first page.
-/

namespace Newbos

section Calls

variable {layout : Layout} {machine after : Machine}
  {pdt paddr vaddr size : Nat} {rw pl : UInt8}

/-- A page table has one owner, so a directory whose page tables are all owned
can be mapped into. -/
theorem Ownership.Holds.tablesOwned {own : Ownership}
    (holds : own.Holds layout machine) (lawful : own.Lawful layout)
    {someIdx : Nat} (someSlot : own.Slot layout pdt someIdx)
    (slots : ∀ pdtIdx < 1024, (machine.mem pdt pdtIdx).HoldsTable →
      own.Slot layout pdt pdtIdx) : TablesOwned layout machine pdt := by
  refine ⟨lawful.directory_ne_kernelPt someSlot,
    holds.directory_taken lawful someSlot, ?_, ?_, ?_⟩
  · intro pdtIdx small table free
    cases slots pdtIdx small table with
    | inl owning => exact holds.taken owning table.isPresent free
    | inr boot =>
        rw [holds.bootFrame lawful boot] at free
        exact lawful.bootTable_unmanaged pdtIdx free.1
  · intro pdtIdx small table same
    have slot := slots pdtIdx small table
    have notDirectory := holds.table_notDirectory lawful slot table.isPresent
    exact lawful.ne_of_notDirectory notDirectory slot same.symm
  · intro pdtIdx small other otherSmall table otherTable same
    exact (holds.slot_unique lawful (slots pdtIdx small table)
      (slots other otherSmall otherTable) table.isPresent
      otherTable.isPresent same).2

theorem PagingInv.tablesOwned {directories data : List Nat}
    (ok : layout.BootOk) (inv : PagingInv layout machine directories data)
    (directory : pdt = layout.kernelPdt ∨ pdt ∈ directories) :
    TablesOwned layout machine pdt :=
  inv.holds.tablesOwned (inv.lawful ok)
    (tableOwnership_slot data (show 0 < 1024 by decide) directory)
    (fun _ small _ => tableOwnership_slot data small directory)

theorem AmongPages.inRange {pages address : Nat}
    (aligned : vaddr % 4096 = 0) (fits : vaddr + 4096 * pages ≤ 4294967296)
    (small : address < 4294967296)
    (among : AmongPages vaddr pages (virtualToPdtIdx address)
      (virtualToPtIdx address)) :
    vaddr ≤ address ∧ address < vaddr + 4096 * pages := by
  obtain ⟨page, within, slot, index⟩ := among
  have same := samePage_of_idx (by omega) small slot index
  omega

/-- A call that returns something other than 0 has mapped the whole range, all
of it unmapped before, and nothing else. -/
theorem pdt_map_memory_installs (ok : layout.Ok)
    (owned : TablesOwned layout machine pdt)
    (paddrSmall : paddr < 4294967296) (vaddrSmall : vaddr < 4294967296)
    (sizeSmall : size < 4294967296) (vaddrAligned : vaddr % 4096 = 0)
    (fits : vaddr + alignUp size fourKb ≤ 4294967296)
    (range : RangeTables machine pdt vaddr (alignUp size fourKb))
    (rw pl : UInt8) :
    ∃ result after,
      pdtMapMemory layout pdt paddr vaddr size rw pl machine =
        some (result, after) ∧
      (result ≠ 0 →
        result = alignUp size fourKb ∧
        (∀ page, page < alignUp size fourKb / fourKb →
          machine.translate pdt (vaddr + fourKb * page) = none ∧
          after.translate pdt (vaddr + fourKb * page) =
            some (w32 (paddr + fourKb * page) / fourKb)) ∧
        ∀ address, address < 4294967296 →
          ¬(vaddr ≤ address ∧ address < vaddr + alignUp size fourKb) →
          after.translate pdt address = machine.translate pdt address) := by
  obtain ⟨result, after, returned, outcome⟩ := pdtMapMemory_outcome ok owned
    paddrSmall vaddrSmall sizeSmall range rw pl
  refine ⟨result, after, returned, ?_⟩
  intro success
  cases outcome with
  | @complete pages _ whole progress =>
      refine ⟨rfl, ?_, ?_⟩
      · intro page within
        have early : page < pages := by
          simp only [fourKb] at within whole
          omega
        rw [Machine.translate_eq_mapping, Machine.translate_eq_mapping,
          progress.unmapped early, progress.mapping_page early]
        exact ⟨rfl, rfl⟩
      · intro address small outside
        rw [Machine.translate_eq_mapping, Machine.translate_eq_mapping,
          progress.mapping_other]
        intro among
        have inRange := among.inRange vaddrAligned (by omega) small
        omega
  | stopped => exact absurd rfl success

/-- One page in the empty slot 769 of the boot directory. -/
theorem pdt_map_memory_installs_onePage :
    ∃ result after,
      pdtMapMemory twoFrameLayout 1 0x101000 0xC0400000 4096 1 0
        (bootMachine twoFrameLayout 5) = some (result, after) ∧
      result = 4096 ∧ after.translate 1 0xC0400000 = some 257 := by
  have boot := bootMachine_boot twoFrameLayout_ok.distinct 5
  have owned : TablesOwned twoFrameLayout (bootMachine twoFrameLayout 5) 1 :=
    boot.pagingInv.tablesOwned twoFrameLayout_bootOk (Or.inl rfl)
  have range : RangeTables (bootMachine twoFrameLayout 5) 1 0xC0400000
      (alignUp 4096 fourKb) := by
    intro page within present
    have first : page = 0 := by
      have bytes : alignUp 4096 fourKb = 4096 := by decide
      omega
    subst first
    exact absurd present (by decide +kernel)
  have evaluated : (pdtMapMemory twoFrameLayout 1 0x101000 0xC0400000 4096 1 0
      (bootMachine twoFrameLayout 5)).map Prod.fst = some 4096 := by
    decide +kernel
  obtain ⟨result, after, returned, success⟩ := pdt_map_memory_installs
    twoFrameLayout_ok owned (show 0x101000 < 4294967296 by decide)
    (by decide) (show 4096 < 4294967296 by decide) (by decide) (by decide)
    range 1 0
  rw [returned] at evaluated
  have whole : result = 4096 := Option.some.inj evaluated
  obtain ⟨_, pages, _⟩ := success (by omega)
  exact ⟨result, after, returned, whole, (pages 0 (by decide)).2⟩

end Calls

/-! ## Calls that fail -/

/-- The call ends before it has mapped a page or taken a frame: its size wraps
around to 0, its first page is mapped already or reserved, or there is no frame
for the table of its first page. -/
def FailsAtOnce (layout : Layout) (machine : Machine)
    (pdt vaddr bytes : Nat) : Prop :=
  bytes = 0 ∨
    (machine.mem pdt (virtualToPdtIdx vaddr)).isPresent = true ∧
      Blocked layout machine
        (machine.mem pdt (virtualToPdtIdx vaddr)).frame
        (virtualToPdtIdx vaddr) (virtualToPtIdx vaddr) ∨
    (machine.mem pdt (virtualToPdtIdx vaddr)).isPresent = false ∧
      (pfaAllocate layout 1 machine).1 = 0

/-- Every page translates as before, and the bitmap is unchanged. -/
def LeavesNoTrace (machine after : Machine) (pdt : Nat) : Prop :=
  (∀ address, address < 4294967296 →
    after.translate pdt address = machine.translate pdt address) ∧
  after.bits = machine.bits

section Failures

variable {layout : Layout} {machine after : Machine}
  {pdt paddr vaddr size : Nat} {rw pl : UInt8}

theorem pdtMapMemory_failsAtOnce (ok : layout.Ok)
    (notPt : pdt ≠ layout.kernelPt) (sizeSmall : size < 4294967296)
    (fails : FailsAtOnce layout machine pdt vaddr (alignUp size fourKb)) :
    pdtMapMemory layout pdt paddr vaddr size rw pl machine =
      some (0, machine) := by
  have bytesSmall := alignUp_lt fourKb sizeSmall
  have bytesAligned := alignUp_fourKb_mod size
  unfold pdtMapMemory
  generalize alignUp size fourKb = bytes at *
  by_cases nothing : bytes = 0
  · subst nothing
    rfl
  · rcases fails with impossible | ⟨present, blocked⟩ | ⟨absent, noFrame⟩
    · exact absurd impossible nothing
    · obtain ⟨mapped, after, round, _, unfolded⟩ :=
        @pdtMapLoop_existing layout pdt bytes rw pl machine paddr vaddr notPt
          present bytesAligned bytesSmall nothing
      rw [unfolded, afterRound]
      cases round with
      | noFrame absent =>
          rw [present] at absent
          cases absent
      | @existing count _ run =>
          have stops : count = 0 := by
            by_contra moves
            exact run.free _ (Nat.le_refl _) (by omega) blocked
          subst stops
          rw [Machine.writeEntries_zero]
          rfl
      | leaked absent =>
          rw [present] at absent
          cases absent
      | fresh absent =>
          rw [present] at absent
          cases absent
    · rcases pfaAllocate_one ok machine with failed |
        ⟨frame, address, notNull, _⟩
      · rw [pdtMapLoop, if_neg nothing]
        simp [openTable, absent, failed]
      · rw [← address] at notNull
        exact absurd noFrame notNull

theorem TablesOwned.mapping_zeroFrame {allocated : Machine} {frame : Nat}
    (owned : TablesOwned layout machine pdt)
    (free : FreeFrame layout machine frame)
    (sameMem : allocated.mem = machine.mem) (address : Nat) :
    (allocated.zeroFrame frame).mapping pdt address =
      machine.mapping pdt address := by
  have slotSmall := virtualToPdtIdx_lt address
  have notPdt : pdt ≠ frame := by
    rintro rfl
    exact owned.taken free
  have sameSlot : (allocated.zeroFrame frame).mem pdt
      (virtualToPdtIdx address) =
        machine.mem pdt (virtualToPdtIdx address) := by
    rw [Machine.zeroFrame_mem, if_neg notPdt, sameMem]
  apply Machine.mapping_congr sameSlot
  intro table
  have notTable : (machine.mem pdt (virtualToPdtIdx address)).frame ≠
      frame := by
    intro same
    apply owned.tableTaken _ slotSmall table
    rw [same]
    exact free
  apply Machine.leaf_congr sameSlot
  rw [Machine.zeroFrame_mem, if_neg notTable, sameMem]

theorem MapRound.mapping_of_zero (owned : TablesOwned layout machine pdt)
    {from_ target mapped : Nat}
    (round : MapRound layout pdt from_ target size rw pl machine mapped after)
    (nothing : mapped = 0) (address : Nat) :
    after.mapping pdt address = machine.mapping pdt address := by
  cases round with
  | noFrame => rfl
  | @existing count =>
      have none : count = 0 := by omega
      subst none
      rw [Machine.writeEntries_zero]
  | leaked _ takes =>
      apply owned.mapping_zeroFrame
        (takes.wasFree _ (Nat.le_refl _) (Nat.lt_succ_self _))
      rw [takes.unchanged]
  | fresh _ _ _ positive => omega

theorem MapRound.failsAtOnce (sizePos : size ≠ 0) {from_ mapped : Nat}
    (round : MapRound layout pdt from_ vaddr size rw pl machine mapped after)
    (nothing : mapped = 0) (sameBits : after.bits = machine.bits)
    (bytes : Nat) : FailsAtOnce layout machine pdt vaddr bytes := by
  cases round with
  | noFrame absent failed =>
      refine Or.inr (Or.inr ⟨absent, ?_⟩)
      rw [failed]
  | @existing count present run =>
      have none : count = 0 := by omega
      subst none
      have inTable := virtualToPtIdx_lt vaddr
      refine Or.inr (Or.inl ⟨present, ?_⟩)
      rcases run.stop with full | ended | blocked
      · omega
      · omega
      · exact blocked
  | @leaked frame allocated _ takes =>
      -- The frame was free, and the bitmap says that it is not any more.
      have wasFree := takes.wasFree frame (Nat.le_refl _)
        (Nat.lt_succ_self _)
      have stillFree : FreeFrame layout allocated frame :=
        (FreeFrame.congr sameBits frame).mpr wasFree
      have nowTaken := ((takes.free frame).mp stillFree).2
      omega
  | fresh _ _ _ positive => omega

theorem MapOutcome.failsAtOnce {bytes result : Nat}
    (outcome : MapOutcome layout pdt paddr vaddr bytes rw pl machine result
      after)
    (vaddrSmall : vaddr < 4294967296) (isZero : result = 0)
    (noTrace : LeavesNoTrace machine after pdt) :
    FailsAtOnce layout machine pdt vaddr bytes := by
  cases outcome with
  | complete => exact Or.inl isZero
  | @stopped pages size middle _ _ sizePos progress round =>
      by_cases first : pages = 0
      · subst first
        have start := progress.first rfl
        subst start
        have here : w32 (vaddr + 4096 * 0) = vaddr := w32_of_lt vaddrSmall
        rw [here] at round
        exact round.failsAtOnce sizePos rfl noTrace.2 bytes
      · -- The first page was unmapped, and is mapped when the call ends.
        have early : 0 < pages := Nat.pos_of_ne_zero first
        have was := progress.unmapped early
        have now := progress.mapping_page early
        have same := noTrace.1 vaddr vaddrSmall
        rw [Nat.mul_zero, Nat.add_zero] at was now
        rw [Machine.translate_eq_mapping, Machine.translate_eq_mapping,
          round.mapping_of_zero progress.owned rfl, was, now] at same
        cases same

/-- When `pdt_map_memory` returns 0, everything is as before if it fails at
once, and in a directory that owns its tables only then. -/
theorem pdt_map_memory_no_trace_iff (ok : layout.Ok)
    (notPt : pdt ≠ layout.kernelPt)
    (paddrSmall : paddr < 4294967296) (vaddrSmall : vaddr < 4294967296)
    (sizeSmall : size < 4294967296)
    (failed : pdtMapMemory layout pdt paddr vaddr size rw pl machine =
      some (0, after)) :
    (FailsAtOnce layout machine pdt vaddr (alignUp size fourKb) →
      LeavesNoTrace machine after pdt) ∧
    (TablesOwned layout machine pdt →
      RangeTables machine pdt vaddr (alignUp size fourKb) →
      LeavesNoTrace machine after pdt →
      FailsAtOnce layout machine pdt vaddr (alignUp size fourKb)) := by
  refine ⟨?_, ?_⟩
  · intro fails
    rw [pdtMapMemory_failsAtOnce ok notPt sizeSmall fails] at failed
    cases failed
    exact ⟨fun _ _ => rfl, rfl⟩
  · intro owned range noTrace
    obtain ⟨result, final, returned, outcome⟩ := pdtMapMemory_outcome ok owned
      paddrSmall vaddrSmall sizeSmall range rw pl
    rw [failed] at returned
    cases returned
    exact outcome.failsAtOnce vaddrSmall rfl noTrace

/-- The last page of the kernel's table that may be mapped, and the temporary
page behind it: the call returns 0 and has mapped the first. -/
def tornCall : Option (Nat × Machine) :=
  pdtMapMemory twoFrameLayout 1 0x101000 0xC03FE000 8192 1 0
    (bootMachine twoFrameLayout 5)

theorem pdt_map_memory_leaves_page :
    tornCall.map (fun result =>
        (result.1, result.2.translate 1 0xC03FE000)) =
      some (0, some 257) ∧
    (bootMachine twoFrameLayout 5).translate 1 0xC03FE000 = none := by
  decide +kernel

/-- A page that is mapped already. -/
theorem pdt_map_memory_no_trace_iff_mapped :
    ∃ after,
      pdtMapMemory twoFrameLayout 1 0x101000 0xC0000000 4096 1 0
        (bootMachine twoFrameLayout 5) = some (0, after) ∧
      LeavesNoTrace (bootMachine twoFrameLayout 5) after 1 := by
  have evaluated : (pdtMapMemory twoFrameLayout 1 0x101000 0xC0000000 4096 1 0
      (bootMachine twoFrameLayout 5)).map Prod.fst = some 0 := by
    decide +kernel
  obtain ⟨⟨result, after⟩, returned, isZero⟩ :=
    Option.map_eq_some_iff.mp evaluated
  simp only at isZero
  subst isZero
  have fails : FailsAtOnce twoFrameLayout (bootMachine twoFrameLayout 5) 1
      0xC0000000 (alignUp 4096 fourKb) :=
    Or.inr (Or.inl ⟨by decide +kernel, Or.inl (by decide +kernel)⟩)
  exact ⟨after, returned, (pdt_map_memory_no_trace_iff twoFrameLayout_ok
    (by decide) (by decide) (by decide) (by decide) returned).1 fails⟩

end Failures

end Newbos
