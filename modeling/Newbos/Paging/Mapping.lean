import Newbos.Paging.Walk
import Newbos.Paging.TableOwnership

/-!
# What mapping does to a directory

A call of `pdt_map_memory` is followed page by page.  After any number of its
pages the directory differs from the initial one in these pages only, and in
the slots opened for them.
-/

namespace Newbos

/-- What the ownership of page tables says about one directory: it and its
tables are taken, and no two slots share a table. -/
structure TablesOwned (layout : Layout) (machine : Machine) (pdt : Nat) :
    Prop where
  notPt : pdt ≠ layout.kernelPt
  taken : ¬FreeFrame layout machine pdt
  tableTaken : ∀ pdtIdx < 1024, (machine.mem pdt pdtIdx).HoldsTable →
    ¬FreeFrame layout machine (machine.mem pdt pdtIdx).frame
  notDirectory : ∀ pdtIdx < 1024, (machine.mem pdt pdtIdx).HoldsTable →
    (machine.mem pdt pdtIdx).frame ≠ pdt
  oneOwner : ∀ pdtIdx < 1024, ∀ other < 1024,
    (machine.mem pdt pdtIdx).HoldsTable → (machine.mem pdt other).HoldsTable →
    (machine.mem pdt pdtIdx).frame = (machine.mem pdt other).frame →
    pdtIdx = other

/-- The slots of a range are empty or hold page tables. -/
def RangeTables (machine : Machine) (pdt vaddr bytes : Nat) : Prop :=
  ∀ page, 4096 * page < bytes →
    (machine.mem pdt (virtualToPdtIdx (vaddr + 4096 * page))).isPresent =
      true →
    (machine.mem pdt (virtualToPdtIdx (vaddr + 4096 * page))).HoldsTable

/-- One of the first pages of a range has these indices. -/
def AmongPages (vaddr pages pdtIdx ptIdx : Nat) : Prop :=
  ∃ page < pages, virtualToPdtIdx (vaddr + 4096 * page) = pdtIdx ∧
    virtualToPtIdx (vaddr + 4096 * page) = ptIdx

/-- A directory after the first pages of a call. -/
structure MapProgress (layout : Layout) (pdt paddr vaddr : Nat)
    (rw pl : UInt8) (initial : Machine) (pages : Nat) (machine : Machine) :
    Prop where
  first : pages = 0 → machine = initial
  owned : TablesOwned layout machine pdt
  kept : ∀ pdtIdx < 1024, (initial.mem pdt pdtIdx).isPresent = true →
    machine.mem pdt pdtIdx = initial.mem pdt pdtIdx
  opened : ∀ pdtIdx < 1024, (initial.mem pdt pdtIdx).isPresent = false →
    machine.mem pdt pdtIdx = initial.mem pdt pdtIdx ∨
      (∃ ptIdx, AmongPages vaddr pages pdtIdx ptIdx) ∧
        ∃ frame, machine.mem pdt pdtIdx = pdtEntry (fourKb * frame) 0 rw pl
  slots : ∀ page < pages,
    (machine.mem pdt (virtualToPdtIdx (vaddr + 4096 * page))).HoldsTable
  wereFree : ∀ page < pages,
    (initial.leaf pdt (virtualToPdtIdx (vaddr + 4096 * page))
      (virtualToPtIdx (vaddr + 4096 * page))).isPresent = false
  leaves : ∀ page < pages,
    machine.leaf pdt (virtualToPdtIdx (vaddr + 4096 * page))
      (virtualToPtIdx (vaddr + 4096 * page)) =
        ptEntry (paddr + 4096 * page) rw pl
  others : ∀ pdtIdx < 1024, ∀ ptIdx < 1024,
    ((initial.mem pdt pdtIdx).isPresent = true →
      (initial.mem pdt pdtIdx).HoldsTable) →
    ¬AmongPages vaddr pages pdtIdx ptIdx →
    machine.leaf pdt pdtIdx ptIdx = initial.leaf pdt pdtIdx ptIdx

/-- The effect of a round on a directory: `count` free entries of one table
are filled, and the slot is opened if it was empty. -/
structure Fills (layout : Layout) (pdt slot first count : Nat)
    (entries : Nat → Entry) (rw pl : UInt8) (machine after : Machine) :
    Prop where
  owned : TablesOwned layout after pdt
  table : (after.mem pdt slot).HoldsTable
  kept : ∀ pdtIdx, (machine.mem pdt pdtIdx).isPresent = true →
    after.mem pdt pdtIdx = machine.mem pdt pdtIdx
  opened : ∀ pdtIdx, (machine.mem pdt pdtIdx).isPresent = false →
    after.mem pdt pdtIdx = machine.mem pdt pdtIdx ∨
      pdtIdx = slot ∧
        ∃ frame, after.mem pdt pdtIdx = pdtEntry (fourKb * frame) 0 rw pl
  free : ∀ ptIdx, first ≤ ptIdx → ptIdx < first + count →
    (machine.leaf pdt slot ptIdx).isPresent = false
  leaves : ∀ pdtIdx < 1024, ∀ ptIdx,
    ((machine.mem pdt pdtIdx).isPresent = true →
      (machine.mem pdt pdtIdx).HoldsTable) →
    after.leaf pdt pdtIdx ptIdx =
      if pdtIdx = slot ∧ first ≤ ptIdx ∧ ptIdx < first + count then
        entries (ptIdx - first)
      else machine.leaf pdt pdtIdx ptIdx

section Pages

theorem virtualToPdtIdx_w32 (vaddr : Nat) :
    virtualToPdtIdx (w32 vaddr) = virtualToPdtIdx vaddr := by
  rw [virtualToPdtIdx_eq, virtualToPdtIdx_eq, w32]
  omega

theorem virtualToPtIdx_w32 (vaddr : Nat) :
    virtualToPtIdx (w32 vaddr) = virtualToPtIdx vaddr := by
  rw [virtualToPtIdx_eq, virtualToPtIdx_eq, w32]
  omega

end Pages

section Progress

variable {layout : Layout} {pdt paddr vaddr : Nat} {rw pl : UInt8}
  {initial machine : Machine} {pages : Nat}

theorem MapProgress.start (owned : TablesOwned layout initial pdt) :
    MapProgress layout pdt paddr vaddr rw pl initial 0 initial where
  first _ := rfl
  owned := owned
  kept _ _ _ := rfl
  opened _ _ _ := Or.inl rfl
  slots page impossible := absurd impossible (Nat.not_lt_zero page)
  wereFree page impossible := absurd impossible (Nat.not_lt_zero page)
  leaves page impossible := absurd impossible (Nat.not_lt_zero page)
  others _ _ _ _ _ _ := rfl

theorem pdtEntry_holdsTable (frame : Nat) (rw pl : UInt8) :
    (pdtEntry (fourKb * frame) 0 rw pl).HoldsTable :=
  ⟨(pdtEntry_flags ..).2.1, (pdtEntry_flags ..).2.2.1⟩

theorem pdtEntry_table {frame : Nat} (below : frame < 1048576)
    (rw pl : UInt8) :
    (pdtEntry (fourKb * frame) 0 rw pl).frame = frame := by
  rw [pdtEntry_frame]
  simp only [fourKb]
  omega

theorem amongPages_add {count pdtIdx ptIdx : Nat}
    (among : AmongPages vaddr pages pdtIdx ptIdx) :
    AmongPages vaddr (pages + count) pdtIdx ptIdx := by
  obtain ⟨page, early, indices⟩ := among
  exact ⟨page, Nat.lt_add_right count early, indices⟩

theorem amongPages_round {count : Nat}
    (inTable : virtualToPtIdx (vaddr + 4096 * pages) + count ≤ 1024)
    {page : Nat} (late : pages ≤ page) (within : page < pages + count) :
    virtualToPdtIdx (vaddr + 4096 * page) =
        virtualToPdtIdx (vaddr + 4096 * pages) ∧
      virtualToPtIdx (vaddr + 4096 * page) =
        virtualToPtIdx (vaddr + 4096 * pages) + (page - pages) := by
  have split : vaddr + 4096 * page =
      vaddr + 4096 * pages + 4096 * (page - pages) := by omega
  rw [split]
  exact page_idx (by omega)

theorem amongPages_of_index {count ptIdx : Nat}
    (inTable : virtualToPtIdx (vaddr + 4096 * pages) + count ≤ 1024)
    (lower : virtualToPtIdx (vaddr + 4096 * pages) ≤ ptIdx)
    (upper : ptIdx < virtualToPtIdx (vaddr + 4096 * pages) + count) :
    AmongPages vaddr (pages + count)
      (virtualToPdtIdx (vaddr + 4096 * pages)) ptIdx := by
  generalize stepEq : ptIdx - virtualToPtIdx (vaddr + 4096 * pages) = step
  have late : pages ≤ pages + step := Nat.le_add_right _ _
  obtain ⟨slot, index⟩ := amongPages_round inTable late (by omega)
  refine ⟨pages + step, by omega, slot, ?_⟩
  rw [index]
  omega

theorem writeEntries_slot (owned : TablesOwned layout machine pdt)
    {slot : Nat} (slotSmall : slot < 1024)
    (table : (machine.mem pdt slot).HoldsTable) (first count : Nat)
    (entries : Nat → Entry) (pdtIdx : Nat) :
    (machine.writeEntries (machine.mem pdt slot).frame first count
        entries).mem pdt pdtIdx = machine.mem pdt pdtIdx := by
  have notDirectory := owned.notDirectory slot slotSmall table
  simp only [Machine.writeEntries]
  rw [if_neg (fun written => notDirectory written.1.symm)]

theorem writeEntries_leaf (owned : TablesOwned layout machine pdt)
    {slot : Nat} (slotSmall : slot < 1024)
    (table : (machine.mem pdt slot).HoldsTable) (first count : Nat)
    (entries : Nat → Entry) {pdtIdx : Nat} (small : pdtIdx < 1024)
    (tableOrAbsent : (machine.mem pdt pdtIdx).isPresent = true →
      (machine.mem pdt pdtIdx).HoldsTable) (ptIdx : Nat) :
    (machine.writeEntries (machine.mem pdt slot).frame first count
        entries).leaf pdt pdtIdx ptIdx =
      if pdtIdx = slot ∧ first ≤ ptIdx ∧ ptIdx < first + count then
        entries (ptIdx - first)
      else machine.leaf pdt pdtIdx ptIdx := by
  rw [Machine.leaf, Machine.leaf, writeEntries_slot owned slotSmall table]
  by_cases present : (machine.mem pdt pdtIdx).isPresent = true
  · rw [if_pos present, if_pos present]
    simp only [Machine.writeEntries]
    by_cases same : pdtIdx = slot
    · subst same
      simp
    · have different : (machine.mem pdt pdtIdx).frame ≠
          (machine.mem pdt slot).frame := fun equal =>
        same (owned.oneOwner _ small _ slotSmall (tableOrAbsent present)
          table equal)
      rw [if_neg (fun written => different written.1),
        if_neg (fun written => same written.1)]
  · have different : pdtIdx ≠ slot := by
      rintro rfl
      exact present table.isPresent
    rw [if_neg present, if_neg present,
      if_neg (fun written => different written.1)]

theorem TablesOwned.congr {other : Machine}
    (owned : TablesOwned layout machine pdt)
    (slots : ∀ pdtIdx, other.mem pdt pdtIdx = machine.mem pdt pdtIdx)
    (bits : other.bits = machine.bits) : TablesOwned layout other pdt where
  notPt := owned.notPt
  taken := by
    rw [FreeFrame.congr bits]
    exact owned.taken
  tableTaken pdtIdx small := by
    rw [slots, FreeFrame.congr bits]
    exact owned.tableTaken pdtIdx small
  notDirectory pdtIdx small := by
    rw [slots]
    exact owned.notDirectory pdtIdx small
  oneOwner pdtIdx small another otherSmall := by
    rw [slots, slots]
    exact owned.oneOwner pdtIdx small another otherSmall

theorem fills_existing (owned : TablesOwned layout machine pdt)
    {slot : Nat} (slotSmall : slot < 1024)
    (table : (machine.mem pdt slot).HoldsTable) {first size count : Nat}
    (run : TableRun layout machine (machine.mem pdt slot).frame slot first
      size count) (entries : Nat → Entry) :
    Fills layout pdt slot first count entries rw pl machine
      (machine.writeEntries (machine.mem pdt slot).frame first count
        entries) where
  owned := owned.congr (writeEntries_slot owned slotSmall table first count
    entries) rfl
  table := by
    rw [writeEntries_slot owned slotSmall table]
    exact table
  kept pdtIdx _ := writeEntries_slot owned slotSmall table _ _ _ pdtIdx
  opened pdtIdx _ :=
    Or.inl (writeEntries_slot owned slotSmall table _ _ _ pdtIdx)
  free ptIdx lower upper := by
    have notBlocked := run.free ptIdx lower upper
    rw [Machine.leaf, if_pos table.isPresent]
    by_contra present
    exact notBlocked (Or.inl (by simpa using present))
  leaves _ small ptIdx tableOrAbsent :=
    writeEntries_leaf owned slotSmall table _ _ _ small tableOrAbsent ptIdx

/-- A table is opened in a slot that was empty, with some entries filled. -/
structure OpensTable (layout : Layout) (pdt slot frame first count : Nat)
    (entries : Nat → Entry) (rw pl : UInt8) (machine after : Machine) :
    Prop where
  entry : after.mem pdt slot = pdtEntry (fourKb * frame) 0 rw pl
  entryFrame : (after.mem pdt slot).frame = frame
  others : ∀ pdtIdx, pdtIdx ≠ slot →
    after.mem pdt pdtIdx = machine.mem pdt pdtIdx
  table : ∀ ptIdx, after.mem frame ptIdx =
    if first ≤ ptIdx ∧ ptIdx < first + count then entries (ptIdx - first)
    else Entry.empty
  elsewhere : ∀ other, other ≠ frame → other ≠ pdt → ∀ ptIdx,
    after.mem other ptIdx = machine.mem other ptIdx
  nowTaken : ∀ other, FreeFrame layout after other →
    FreeFrame layout machine other ∧ other ≠ frame

theorem opensTable_fresh {slot frame : Nat} {allocated : Machine}
    (notPdt : frame ≠ pdt)
    (takes : TakesFrames layout 1 machine (fourKb * frame) allocated frame)
    (below : frame < 1048576) (first count : Nat) (entries : Nat → Entry) :
    OpensTable layout pdt slot frame first count entries rw pl machine
      (((allocated.zeroFrame frame).writeEntries frame first count
        entries).setEntry pdt slot (pdtEntry (fourKb * frame) 0 rw pl)) := by
  have sameMem : allocated.mem = machine.mem := by rw [takes.unchanged]
  constructor
  · rw [Machine.setEntry_mem, if_pos ⟨rfl, rfl⟩]
  · rw [Machine.setEntry_mem, if_pos ⟨rfl, rfl⟩]
    exact pdtEntry_table below rw pl
  · intro pdtIdx different
    rw [Machine.setEntry_mem, if_neg (fun same => different same.2)]
    simp only [Machine.writeEntries, Machine.zeroFrame_mem]
    rw [if_neg (fun written => notPdt written.1.symm), if_neg (Ne.symm notPdt),
      sameMem]
  · intro ptIdx
    rw [Machine.setEntry_mem, if_neg (fun same => notPdt same.1)]
    simp [Machine.writeEntries, Machine.zeroFrame_mem]
  · intro other notFrame notDirectory ptIdx
    rw [Machine.setEntry_mem, if_neg (fun same => notDirectory same.1)]
    simp only [Machine.writeEntries, Machine.zeroFrame_mem]
    rw [if_neg (fun written => notFrame written.1), if_neg notFrame, sameMem]
  · intro other free
    have stillFree : FreeFrame layout allocated other :=
      (FreeFrame.congr rfl other).mp free
    rw [takes.free] at stillFree
    exact ⟨stillFree.1, fun same => stillFree.2 (by omega)⟩

section Opening

variable {slot frame first count : Nat} {entries : Nat → Entry}
  {after : Machine}
  (opens : OpensTable layout pdt slot frame first count entries rw pl machine
    after)
  (owned : TablesOwned layout machine pdt)
  (notTable : ∀ pdtIdx < 1024, (machine.mem pdt pdtIdx).HoldsTable →
    (machine.mem pdt pdtIdx).frame ≠ frame)
include opens owned notTable

theorem OpensTable.tablesOwned (notPdt : frame ≠ pdt) :
    TablesOwned layout after pdt := by
  refine ⟨owned.notPt, ?_, ?_, ?_, ?_⟩
  · exact fun free => owned.taken (opens.nowTaken pdt free).1
  · intro pdtIdx small table free
    by_cases same : pdtIdx = slot
    · subst same
      exact (opens.nowTaken _ free).2 opens.entryFrame
    · rw [opens.others pdtIdx same] at table free
      exact owned.tableTaken pdtIdx small table (opens.nowTaken _ free).1
  · intro pdtIdx small table
    by_cases same : pdtIdx = slot
    · rw [same, opens.entryFrame]
      exact notPdt
    · rw [opens.others pdtIdx same] at table ⊢
      exact owned.notDirectory pdtIdx small table
  · intro pdtIdx small other otherSmall table otherTable sameFrame
    by_cases same : pdtIdx = slot
    · by_cases otherSame : other = slot
      · rw [same, otherSame]
      · rw [opens.others other otherSame] at otherTable sameFrame
        rw [same, opens.entryFrame] at sameFrame
        exact absurd sameFrame.symm (notTable other otherSmall otherTable)
    · by_cases otherSame : other = slot
      · rw [opens.others pdtIdx same] at table sameFrame
        rw [otherSame, opens.entryFrame] at sameFrame
        exact absurd sameFrame (notTable pdtIdx small table)
      · rw [opens.others pdtIdx same] at table sameFrame
        rw [opens.others other otherSame] at otherTable sameFrame
        exact owned.oneOwner pdtIdx small other otherSmall table otherTable
          sameFrame

theorem OpensTable.leaf
    (absent : (machine.mem pdt slot).isPresent = false) {pdtIdx : Nat}
    (small : pdtIdx < 1024) (ptIdx : Nat)
    (tableOrAbsent : (machine.mem pdt pdtIdx).isPresent = true →
      (machine.mem pdt pdtIdx).HoldsTable) :
    after.leaf pdt pdtIdx ptIdx =
      if pdtIdx = slot ∧ first ≤ ptIdx ∧ ptIdx < first + count then
        entries (ptIdx - first)
      else machine.leaf pdt pdtIdx ptIdx := by
  by_cases same : pdtIdx = slot
  · subst same
    have opened : (after.mem pdt pdtIdx).isPresent = true := by
      rw [opens.entry]
      exact (pdtEntry_holdsTable frame rw pl).isPresent
    rw [Machine.leaf, if_pos opened, opens.entryFrame, opens.table,
      Machine.leaf, absent]
    simp
  · rw [if_neg (fun written => same written.1), Machine.leaf, Machine.leaf,
      opens.others pdtIdx same]
    by_cases present : (machine.mem pdt pdtIdx).isPresent = true
    · have table := tableOrAbsent present
      rw [if_pos present, if_pos present]
      exact opens.elsewhere _ (notTable pdtIdx small table)
        (owned.notDirectory pdtIdx small table) ptIdx
    · rw [if_neg present, if_neg present]

end Opening

theorem fills_fresh (owned : TablesOwned layout machine pdt)
    {slot frame : Nat} {allocated : Machine}
    (absent : (machine.mem pdt slot).isPresent = false)
    (takes : TakesFrames layout 1 machine (fourKb * frame) allocated frame)
    (below : frame < 1048576) (first count : Nat) (entries : Nat → Entry) :
    Fills layout pdt slot first count entries rw pl machine
      (((allocated.zeroFrame frame).writeEntries frame first count
        entries).setEntry pdt slot (pdtEntry (fourKb * frame) 0 rw pl)) := by
  have wasFree := takes.wasFree frame (Nat.le_refl _) (Nat.lt_succ_self _)
  have notPdt : frame ≠ pdt := by
    rintro rfl
    exact owned.taken wasFree
  have notTable : ∀ pdtIdx < 1024, (machine.mem pdt pdtIdx).HoldsTable →
      (machine.mem pdt pdtIdx).frame ≠ frame := by
    intro pdtIdx small table same
    apply owned.tableTaken pdtIdx small table
    rw [same]
    exact wasFree
  have opens := @opensTable_fresh layout pdt rw pl machine slot frame
    allocated notPdt takes below first count entries
  refine ⟨opens.tablesOwned owned notTable notPdt, ?_, ?_, ?_, ?_, ?_⟩
  · rw [opens.entry]
    exact pdtEntry_holdsTable frame rw pl
  · intro pdtIdx present
    apply opens.others
    rintro rfl
    rw [absent] at present
    cases present
  · intro pdtIdx _
    by_cases same : pdtIdx = slot
    · rw [same]
      exact Or.inr ⟨rfl, frame, opens.entry⟩
    · exact Or.inl (opens.others pdtIdx same)
  · intro ptIdx _ _
    rw [Machine.leaf, absent]
    rfl
  · intro pdtIdx small ptIdx tableOrAbsent
    exact opens.leaf owned notTable absent small ptIdx tableOrAbsent

theorem MapRound.fills (ok : layout.Ok)
    (owned : TablesOwned layout machine pdt)
    (tableOrAbsent :
      (machine.mem pdt (virtualToPdtIdx vaddr)).isPresent = true →
      (machine.mem pdt (virtualToPdtIdx vaddr)).HoldsTable)
    {size mapped : Nat} {after : Machine}
    (round : MapRound layout pdt paddr vaddr size rw pl machine mapped after)
    (progress : mapped ≠ 0) :
    ∃ count, mapped = 4096 * count ∧
      virtualToPtIdx vaddr + count ≤ 1024 ∧
      Fills layout pdt (virtualToPdtIdx vaddr) (virtualToPtIdx vaddr) count
        (pageEntries paddr rw pl) rw pl machine after := by
  have slotSmall := virtualToPdtIdx_lt vaddr
  cases round with
  | noFrame => exact absurd rfl progress
  | existing present run =>
      exact ⟨_, rfl, run.inTable,
        fills_existing owned slotSmall (tableOrAbsent present) run _⟩
  | leaked => exact absurd rfl progress
  | @fresh frame count allocated absent _ takes _ run =>
      have wasFree := takes.wasFree frame (Nat.le_refl _)
        (Nat.lt_succ_self _)
      have below := (ok.framesOk.unordered.frame_bounds wasFree.1).2
      exact ⟨count, rfl, run.inTable,
        fills_fresh owned absent takes below _ _ _⟩

theorem pageEntries_add (step : Nat) :
    pageEntries (w32 (paddr + 4096 * pages)) rw pl step =
      ptEntry (paddr + 4096 * (pages + step)) rw pl := by
  have same : w32 (w32 (paddr + 4096 * pages) + fourKb * step) =
      w32 (paddr + 4096 * (pages + step)) := by
    simp only [w32, fourKb]
    omega
  rw [pageEntries, ← ptEntry_w32, same, ptEntry_w32]

section Round

variable
  (progress : MapProgress layout pdt paddr vaddr rw pl initial pages machine)
include progress

theorem MapProgress.tableOrAbsent {pdtIdx : Nat} (small : pdtIdx < 1024)
    (initially : (initial.mem pdt pdtIdx).isPresent = true →
      (initial.mem pdt pdtIdx).HoldsTable) :
    (machine.mem pdt pdtIdx).isPresent = true →
      (machine.mem pdt pdtIdx).HoldsTable := by
  intro present
  cases was : (initial.mem pdt pdtIdx).isPresent with
  | true =>
      rw [progress.kept pdtIdx small was]
      exact initially was
  | false =>
      rcases progress.opened pdtIdx small was with same | ⟨_, frame, opened⟩
      · rw [same, was] at present
        cases present
      · rw [opened]
        exact pdtEntry_holdsTable frame rw pl

theorem MapProgress.not_amongPages {pdtIdx ptIdx : Nat}
    (free : (machine.leaf pdt pdtIdx ptIdx).isPresent = false) :
    ¬AmongPages vaddr pages pdtIdx ptIdx := by
  rintro ⟨page, early, rfl, rfl⟩
  rw [progress.leaves page early, (ptEntry_flags ..).1] at free
  cases free

theorem MapProgress.fills {count : Nat} {after : Machine}
    (initially :
      (initial.mem pdt (virtualToPdtIdx (vaddr + 4096 * pages))).isPresent =
        true →
      (initial.mem pdt
        (virtualToPdtIdx (vaddr + 4096 * pages))).HoldsTable)
    (positive : 1 ≤ count)
    (inTable : virtualToPtIdx (vaddr + 4096 * pages) + count ≤ 1024)
    (fills : Fills layout pdt (virtualToPdtIdx (vaddr + 4096 * pages))
      (virtualToPtIdx (vaddr + 4096 * pages)) count
      (pageEntries (w32 (paddr + 4096 * pages)) rw pl) rw pl machine after) :
    MapProgress layout pdt paddr vaddr rw pl initial (pages + count)
      after := by
  have slotSmall := virtualToPdtIdx_lt (vaddr + 4096 * pages)
  have earlyTable : ∀ page < pages, after.mem pdt
      (virtualToPdtIdx (vaddr + 4096 * page)) =
        machine.mem pdt (virtualToPdtIdx (vaddr + 4096 * page)) := by
    intro page early
    exact fills.kept _ (progress.slots page early).isPresent
  refine ⟨?_, fills.owned, ?_, ?_, ?_, ?_, ?_, ?_⟩
  · intro none
    omega
  · intro pdtIdx small present
    have kept := progress.kept pdtIdx small present
    rw [fills.kept pdtIdx (by rw [kept]; exact present), kept]
  · intro pdtIdx small absent
    rcases progress.opened pdtIdx small absent with
      same | ⟨⟨ptIdx, among⟩, frame, opened⟩
    · rcases fills.opened pdtIdx (by rw [same]; exact absent) with
        unchanged | ⟨isSlot, frame, opened⟩
      · exact Or.inl (unchanged.trans same)
      · refine Or.inr ⟨⟨virtualToPtIdx (vaddr + 4096 * pages), ?_⟩, frame,
          opened⟩
        rw [isSlot]
        exact amongPages_of_index inTable (Nat.le_refl _) (by omega)
    · refine Or.inr ⟨⟨ptIdx, amongPages_add among⟩, frame, ?_⟩
      rw [fills.kept pdtIdx, opened]
      rw [opened]
      exact (pdtEntry_holdsTable frame rw pl).isPresent
  · intro page within
    by_cases early : page < pages
    · rw [earlyTable page early]
      exact progress.slots page early
    · rw [(amongPages_round inTable (by omega) within).1]
      exact fills.table
  · intro page within
    by_cases early : page < pages
    · exact progress.wereFree page early
    · obtain ⟨slot, index⟩ := amongPages_round inTable (by omega) within
      have free := fills.free (virtualToPtIdx (vaddr + 4096 * page))
        (by omega) (by omega)
      rw [slot, ← progress.others _ slotSmall _ (virtualToPtIdx_lt _)
        initially (progress.not_amongPages free)]
      exact free
  · intro page within
    by_cases early : page < pages
    · have table := progress.slots page early
      have leaf := progress.leaves page early
      have notFilled : ¬(virtualToPdtIdx (vaddr + 4096 * page) =
            virtualToPdtIdx (vaddr + 4096 * pages) ∧
          virtualToPtIdx (vaddr + 4096 * pages) ≤
            virtualToPtIdx (vaddr + 4096 * page) ∧
          virtualToPtIdx (vaddr + 4096 * page) <
            virtualToPtIdx (vaddr + 4096 * pages) + count) := by
        rintro ⟨slot, lower, upper⟩
        have free := fills.free _ lower upper
        rw [← slot] at free
        exact progress.not_amongPages free ⟨page, early, rfl, rfl⟩
      rw [fills.leaves _ (virtualToPdtIdx_lt _) _ (fun _ => table),
        if_neg notFilled]
      exact leaf
    · obtain ⟨slot, index⟩ := amongPages_round inTable (by omega) within
      rw [fills.leaves _ (virtualToPdtIdx_lt _) _, if_pos (by omega), index,
        Nat.add_sub_cancel_left, pageEntries_add]
      · have pageEq : pages + (page - pages) = page := by omega
        rw [pageEq]
      · rw [slot]
        exact progress.tableOrAbsent slotSmall initially
  · intro pdtIdx small ptIdx ptSmall initialTable notAmong
    have notFilled : ¬(pdtIdx = virtualToPdtIdx (vaddr + 4096 * pages) ∧
        virtualToPtIdx (vaddr + 4096 * pages) ≤ ptIdx ∧
        ptIdx < virtualToPtIdx (vaddr + 4096 * pages) + count) := by
      rintro ⟨rfl, lower, upper⟩
      exact notAmong (amongPages_of_index inTable lower upper)
    rw [fills.leaves pdtIdx small ptIdx
      (progress.tableOrAbsent small initialTable), if_neg notFilled]
    exact progress.others pdtIdx small ptIdx ptSmall initialTable
      (fun among => notAmong (amongPages_add among))

/-- The processor sees no change outside the pages. -/
theorem MapProgress.mapping_other {address : Nat}
    (notAmong : ¬AmongPages vaddr pages (virtualToPdtIdx address)
      (virtualToPtIdx address)) :
    machine.mapping pdt address = initial.mapping pdt address := by
  have slotSmall := virtualToPdtIdx_lt address
  have indexSmall := virtualToPtIdx_lt address
  cases was : (initial.mem pdt (virtualToPdtIdx address)).isPresent with
  | true =>
      apply Machine.mapping_congr (progress.kept _ slotSmall was)
      intro table
      exact progress.others _ slotSmall _ indexSmall (fun _ => table) notAmong
  | false =>
      rw [Machine.mapping_absent was]
      rcases progress.opened _ slotSmall was with same | ⟨_, frame, opened⟩
      · apply Machine.mapping_absent
        rw [same]
        exact was
      · have table : (machine.mem pdt
            (virtualToPdtIdx address)).HoldsTable := by
          rw [opened]
          exact pdtEntry_holdsTable frame rw pl
        have noLeaf : initial.leaf pdt (virtualToPdtIdx address)
            (virtualToPtIdx address) = Entry.empty := by
          rw [Machine.leaf, was]
          rfl
        rw [Machine.mapping_table table, progress.others _ slotSmall _
          indexSmall (fun present => by rw [was] at present; cases present)
          notAmong, noLeaf, Entry.empty_smallPage]

theorem MapProgress.mapping_page {page : Nat} (early : page < pages) :
    machine.mapping pdt (vaddr + 4096 * page) =
      some
        { frame := w32 (paddr + 4096 * page) / 4096
          writable := (machine.mem pdt
            (virtualToPdtIdx (vaddr + 4096 * page))).bitRW && (1 &&& rw != 0)
          user := (machine.mem pdt
            (virtualToPdtIdx (vaddr + 4096 * page))).bitUS &&
              (1 &&& pl != 0) } := by
  obtain ⟨_, valid, writable, user⟩ := ptEntry_flags (paddr + 4096 * page)
    rw pl
  rw [Machine.mapping_table (progress.slots page early),
    progress.leaves page early, Entry.smallPage, if_pos valid, ptEntry_frame,
    writable, user]
  rfl

theorem MapProgress.unmapped {page : Nat} (early : page < pages) :
    initial.mapping pdt (vaddr + 4096 * page) = none := by
  have slotSmall := virtualToPdtIdx_lt (vaddr + 4096 * page)
  cases was : (initial.mem pdt
      (virtualToPdtIdx (vaddr + 4096 * page))).isPresent with
  | true =>
      have table := progress.slots page early
      rw [progress.kept _ slotSmall was] at table
      rw [Machine.mapping_table table, Entry.smallPage,
        Entry.bitP_eq_false (progress.wereFree page early)]
      rfl
  | false => exact Machine.mapping_absent was

end Round

/-- How a call of `pdt_map_memory` ends: with all its pages mapped, or in a
round that maps nothing after some of them. -/
inductive MapOutcome (layout : Layout) (pdt paddr vaddr bytes : Nat)
    (rw pl : UInt8) (initial : Machine) : Nat → Machine → Prop where
  | complete {pages : Nat} {machine : Machine} :
      4096 * pages = bytes →
      MapProgress layout pdt paddr vaddr rw pl initial pages machine →
      MapOutcome layout pdt paddr vaddr bytes rw pl initial bytes machine
  | stopped {pages size : Nat} {machine after : Machine} :
      4096 * pages + size = bytes → size ≠ 0 →
      MapProgress layout pdt paddr vaddr rw pl initial pages machine →
      MapRound layout pdt (w32 (paddr + 4096 * pages))
        (w32 (vaddr + 4096 * pages)) size rw pl machine 0 after →
      MapOutcome layout pdt paddr vaddr bytes rw pl initial 0 after

/-- The loop of `pdt_map_memory` between two rounds. -/
def MapLoopInv (layout : Layout) (pdt paddr vaddr bytes : Nat)
    (rw pl : UInt8) (initial : Machine)
    (paddrNow vaddrNow size total : Nat) (machine : Machine) : Prop :=
  ∃ pages,
    paddrNow = w32 (paddr + 4096 * pages) ∧
    vaddrNow = w32 (vaddr + 4096 * pages) ∧
    4096 * pages + size = bytes ∧ total = 4096 * pages ∧
    MapProgress layout pdt paddr vaddr rw pl initial pages machine

theorem MapLoopInv.round (ok : layout.Ok) {bytes : Nat}
    (bytesSmall : bytes < 4294967296)
    (range : RangeTables initial pdt vaddr bytes)
    {paddrNow vaddrNow size total mapped : Nat} {after : Machine}
    (inv : MapLoopInv layout pdt paddr vaddr bytes rw pl initial paddrNow
      vaddrNow size total machine)
    (moves : mapped ≠ 0) (within : mapped ≤ size)
    (round : MapRound layout pdt paddrNow vaddrNow size rw pl machine mapped
      after) :
    MapLoopInv layout pdt paddr vaddr bytes rw pl initial
      (w32 (paddrNow + mapped)) (w32 (vaddrNow + mapped)) (size - mapped)
      (w32 (total + mapped)) after := by
  obtain ⟨pages, rfl, rfl, sizeEq, rfl, progress⟩ := inv
  have initially := range pages (by omega)
  have tableOrAbsent := progress.tableOrAbsent (virtualToPdtIdx_lt _)
    initially
  rw [← virtualToPdtIdx_w32] at tableOrAbsent
  obtain ⟨count, rfl, inTable, fills⟩ := round.fills ok progress.owned
    tableOrAbsent moves
  rw [virtualToPdtIdx_w32, virtualToPtIdx_w32] at fills
  rw [virtualToPtIdx_w32] at inTable
  refine ⟨pages + count, ?_, ?_, by omega, ?_,
    progress.fills initially (by omega) inTable fills⟩
  · simp only [w32]
    omega
  · simp only [w32]
    omega
  · simp only [w32]
    omega

theorem pdtMapMemory_outcome (ok : layout.Ok)
    (owned : TablesOwned layout initial pdt)
    (paddrSmall : paddr < 4294967296) (vaddrSmall : vaddr < 4294967296)
    {size : Nat} (sizeSmall : size < 4294967296)
    (range : RangeTables initial pdt vaddr (alignUp size fourKb))
    (rw pl : UInt8) :
    ∃ result after,
      pdtMapMemory layout pdt paddr vaddr size rw pl initial =
        some (result, after) ∧
      MapOutcome layout pdt paddr vaddr (alignUp size fourKb) rw pl initial
        result after := by
  have bytesSmall := alignUp_lt fourKb sizeSmall
  apply pdtMapLoop_rule ok owned.notPt
    (MapLoopInv layout pdt paddr vaddr (alignUp size fourKb) rw pl initial)
    (MapOutcome layout pdt paddr vaddr (alignUp size fourKb) rw pl initial)
  · rintro _ _ _ _ machine ⟨_, _, _, _, _, progress⟩
    exact progress.owned.taken
  · rintro _ _ _ machine ⟨pages, _, _, sizeEq, rfl, progress⟩
    rw [Nat.add_zero] at sizeEq
    rw [sizeEq]
    exact .complete sizeEq progress
  · rintro _ _ size _ machine after ⟨pages, rfl, rfl, sizeEq, _, progress⟩
      unfinished round
    exact .stopped sizeEq unfinished progress round
  · intro _ _ _ _ machine mapped after inv _ moves within round
    exact inv.round ok bytesSmall range moves within round
  · refine ⟨0, ?_, ?_, ?_, rfl, .start owned⟩
    · exact (w32_of_lt paddrSmall).symm
    · exact (w32_of_lt vaddrSmall).symm
    · exact Nat.zero_add _
  · exact alignUp_fourKb_mod size
  · exact bytesSmall
  · exact Nat.lt_succ_self _

end Progress

end Newbos
