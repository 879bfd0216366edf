import Newbos.Paging.Coherence
import Newbos.Paging.Rights

/-!
# Loading a process directory

`pdt_load_process_pdt` replaces entry 0 of the directory by the kernel's.  The
pages of a process keep their meaning exactly when those below 4 MiB mean the
same to the kernel.
-/

namespace Newbos

/-- A process directory: `pdt_create` made it, successful calls of
`pdt_map_memory` on user addresses filled it, and whatever else the kernel did
left its frames alone. -/
inductive UserDirectory (layout : Layout) (pdt : Nat) : Machine → Prop where
  | created {machine after : Machine} {directories data : List Nat}
      {vaddr : Nat} :
      PagingInv layout machine directories data →
      pdtCreate layout machine = some (vaddr, fourKb * pdt, after) →
      vaddr ≠ 0 → fourKb * pdt ≠ 0 → UserDirectory layout pdt after
  | mapped {machine after : Machine} {call : MapCall} {result : Nat} :
      UserDirectory layout pdt machine → call.Words →
      call.vaddr + alignUp call.size fourKb ≤ kernelStartVaddr →
      pdtMapMemory layout pdt call.paddr call.vaddr call.size call.rw call.pl
        machine = some (result, after) →
      call.size ≤ result → UserDirectory layout pdt after
  | kept {machine after : Machine} :
      UserDirectory layout pdt machine →
      (∀ slot, after.mem pdt slot = machine.mem pdt slot) →
      (∀ slot, (machine.mem pdt slot).isPresent = true →
        after.mem (machine.mem pdt slot).frame =
          machine.mem (machine.mem pdt slot).frame) →
      (∀ frame, FreeFrame layout after frame → frame ≠ pdt ∧
        ∀ slot, (machine.mem pdt slot).isPresent = true →
          (machine.mem pdt slot).frame ≠ frame) →
      UserDirectory layout pdt after

/-- What a process directory looks like. -/
structure UserTables (layout : Layout) (machine : Machine) (pdt : Nat) :
    Prop where
  owned : TablesOwned layout machine pdt
  notKernel : layout.kernelPdt ≠ pdt
  tables : ∀ slot < 1024, (machine.mem pdt slot).isPresent = true →
    (machine.mem pdt slot).HoldsTable
  userHalf : ∀ slot, 768 ≤ slot → slot < 1024 →
    (machine.mem pdt slot).isPresent = false

section User

variable {layout : Layout} {pdt : Nat} {machine after : Machine}

theorem UserTables.of_create (ok : layout.BootOk)
    {directories data : List Nat} {vaddr : Nat}
    (inv : PagingInv layout machine directories data)
    (created : pdtCreate layout machine = some (vaddr, fourKb * pdt, after))
    (notNull : vaddr ≠ 0) (hasFrame : fourKb * pdt ≠ 0) :
    UserTables layout after pdt := by
  have frameEq : fourKb * pdt / fourKb = pdt := by simp [fourKb]
  have invAfter := inv.create ok created notNull hasFrame
  rw [frameEq] at invAfter
  have zeroes : ∀ slot, after.mem pdt slot = Entry.empty := by
    obtain ⟨frame, address, _, _, zeroes⟩ :=
      inv.holds.pdtCreate_delivered (inv.lawful ok) tableOwnership_half
        created notNull hasFrame
    have same : pdt = frame := by
      simp only [fourKb] at address
      omega
    rw [same]
    exact zeroes
  have managed := invAfter.frames.directories pdt List.mem_cons_self
  refine ⟨invAfter.tablesOwned ok (Or.inr List.mem_cons_self), ?_, ?_, ?_⟩
  · rintro rfl
    exact ok.kernelPdtUnmanaged managed
  · intro slot _ present
    rw [zeroes slot] at present
    cases present
  · intro slot _ _
    rw [zeroes slot]
    rfl

theorem UserTables.of_map (ok : layout.Ok)
    (user : UserTables layout machine pdt) {call : MapCall} {result : Nat}
    (words : call.Words)
    (below : call.vaddr + alignUp call.size fourKb ≤ kernelStartVaddr)
    (mapped : pdtMapMemory layout pdt call.paddr call.vaddr call.size call.rw
      call.pl machine = some (result, after))
    (success : call.size ≤ result) : UserTables layout after pdt := by
  obtain ⟨_, _, returned, outcome⟩ := pdtMapMemory_outcome ok user.owned
    words.paddr words.vaddr words.size
    (fun _ _ => user.tables _ (virtualToPdtIdx_lt _)) call.rw call.pl
  rw [mapped] at returned
  cases returned
  have progress := outcome.progress success
  refine ⟨progress.owned, user.notKernel, ?_, ?_⟩
  · intro slot small
    exact progress.tableOrAbsent small (user.tables slot small)
  · intro slot lower upper
    have absent := user.userHalf slot lower upper
    rcases progress.opened slot upper absent with same |
      ⟨⟨_, page, within, isSlot, _⟩, _⟩
    · rw [same]
      exact absent
    · simp only [kernelStartVaddr, fourKb] at below within
      rw [virtualToPdtIdx_eq] at isSlot
      omega

theorem UserTables.of_kept (user : UserTables layout machine pdt)
    (slots : ∀ slot, after.mem pdt slot = machine.mem pdt slot)
    (taken : ∀ frame, FreeFrame layout after frame → frame ≠ pdt ∧
      ∀ slot, (machine.mem pdt slot).isPresent = true →
        (machine.mem pdt slot).frame ≠ frame) :
    UserTables layout after pdt where
  owned :=
    { notPt := user.owned.notPt
      taken := fun free => (taken pdt free).1 rfl
      tableTaken := by
        intro slot _ table free
        rw [slots] at table free
        exact (taken _ free).2 slot table.isPresent rfl
      notDirectory := by
        intro slot small
        rw [slots]
        exact user.owned.notDirectory slot small
      oneOwner := by
        intro slot small other otherSmall
        rw [slots, slots]
        exact user.owned.oneOwner slot small other otherSmall }
  notKernel := user.notKernel
  tables := by
    intro slot small
    rw [slots]
    exact user.tables slot small
  userHalf := by
    intro slot lower upper
    rw [slots]
    exact user.userHalf slot lower upper

theorem UserDirectory.tables (ok : layout.BootOk)
    (directory : UserDirectory layout pdt machine) :
    UserTables layout machine pdt := by
  induction directory with
  | created inv created notNull hasFrame =>
      exact .of_create ok inv created notNull hasFrame
  | mapped _ words below mapped success user =>
      exact user.of_map ok.toOk words below mapped success
  | kept _ slots _ taken user => exact user.of_kept slots taken

theorem UserTables.mapping_loaded (user : UserTables layout machine pdt)
    (pdtPaddr : Nat) {address : Nat} (lower : fourMb ≤ address)
    (upper : address < kernelStartVaddr) :
    (pdtLoadProcessPdt layout pdt pdtPaddr machine).mapping pdt address =
      machine.mapping pdt address := by
  have slotSmall := virtualToPdtIdx_lt address
  have slotEq := virtualToPdtIdx_eq address
  simp only [fourMb] at lower
  simp only [kernelStartVaddr] at upper
  have sameSlot := pdtLoadProcessPdt_userHalf user.notKernel pdtPaddr machine
    (show virtualToPdtIdx address < 768 by omega)
  rw [if_neg (by omega)] at sameSlot
  apply Machine.mapping_congr sameSlot
  intro table
  apply Machine.leaf_congr sameSlot
  rw [pdtLoadProcessPdt_elsewhere user.notKernel pdtPaddr machine _
    (user.owned.notDirectory _ slotSmall table)]

theorem mapping_loaded_first (different : layout.kernelPdt ≠ pdt)
    (noAlias : (machine.mem layout.kernelPdt 0).HoldsTable →
      (machine.mem layout.kernelPdt 0).frame ≠ pdt)
    (pdtPaddr : Nat) {address : Nat} (below : address < fourMb) :
    (pdtLoadProcessPdt layout pdt pdtPaddr machine).mapping pdt address =
      machine.mapping layout.kernelPdt address := by
  have first : virtualToPdtIdx address = 0 := by
    simp only [fourMb] at below
    rw [virtualToPdtIdx_eq]
    omega
  have sameSlot := pdtLoadProcessPdt_userHalf different pdtPaddr machine
    (show 0 < 768 by decide)
  rw [if_pos rfl, ← first] at sameSlot
  apply Machine.mapping_congr sameSlot
  intro table
  apply Machine.leaf_congr sameSlot
  rw [first] at table ⊢
  rw [pdtLoadProcessPdt_elsewhere different pdtPaddr machine _
    (noAlias table)]

/-- A user page in the first 4 MiB is lost to a supervisor entry 0. -/
theorem mapping_supervisor {address : Nat} (below : address < fourMb)
    (supervisor : (machine.mem layout.kernelPdt 0).bitUS = false)
    {page : Mapping}
    (mapped : machine.mapping layout.kernelPdt address = some page) :
    page.user = false := by
  have first : virtualToPdtIdx address = 0 := by
    simp only [fourMb] at below
    rw [virtualToPdtIdx_eq]
    omega
  simp only [Machine.mapping, Entry.smallPage, Entry.largePage] at mapped
  rw [first, supervisor] at mapped
  split_ifs at mapped
  · cases mapped
    rfl
  · cases mapped
    rfl

end User

/-- The pages of the process keep their frames and rights. -/
def KeepsUserPages (layout : Layout) (machine : Machine) (pdt : Nat) : Prop :=
  ∀ address, address < kernelStartVaddr → ∀ page,
    machine.mapping pdt address = some page →
    (pdtLoadProcessPdt layout pdt (fourKb * pdt) machine).mapping pdt
      address = some page

/-- The pages of the process below 4 MiB are the same pages for the kernel. -/
def FirstPagesShared (layout : Layout) (machine : Machine) (pdt : Nat) :
    Prop :=
  ∀ address, address < fourMb → ∀ page,
    machine.mapping pdt address = some page →
    machine.mapping layout.kernelPdt address = some page

/-- Loading keeps the pages of a process exactly when those below 4 MiB are
shared with the kernel.  With a supervisor entry 0, as at boot, no page of the
first 4 MiB is accessible to the user, so that the code page that
`process_create` maps at 0 is lost. -/
theorem loading_keeps_user_pages_iff {layout : Layout} {pdt : Nat}
    {machine : Machine} (ok : layout.BootOk)
    (directory : UserDirectory layout pdt machine)
    (noAlias : (machine.mem layout.kernelPdt 0).HoldsTable →
      (machine.mem layout.kernelPdt 0).frame ≠ pdt) :
    (KeepsUserPages layout machine pdt ↔
      FirstPagesShared layout machine pdt) ∧
    ((machine.mem layout.kernelPdt 0).bitUS = false →
      ∀ address, address < fourMb → ∀ page,
        (pdtLoadProcessPdt layout pdt (fourKb * pdt) machine).mapping pdt
          address = some page → page.user = false) := by
  have user := directory.tables ok
  refine ⟨⟨?_, ?_⟩, ?_⟩
  · intro keeps address below page mapped
    have kept := keeps address (Nat.lt_trans below (by decide)) page mapped
    rwa [mapping_loaded_first user.notKernel noAlias _ below] at kept
  · intro shared address upper page mapped
    by_cases below : address < fourMb
    · rw [mapping_loaded_first user.notKernel noAlias _ below]
      exact shared address below page mapped
    · rw [user.mapping_loaded _ (Nat.le_of_not_lt below) upper]
      exact mapped
  · intro supervisor address below page mapped
    rw [mapping_loaded_first user.notKernel noAlias _ below] at mapped
    exact mapping_supervisor below supervisor mapped

/-- A new directory with one user page. -/
def userPageRun (vaddr : Nat) : Option (Nat × Machine) :=
  (pdtCreate twoFrameLayout (bootMachine twoFrameLayout 5)).bind
    fun created => pdtMapMemory twoFrameLayout 256 0x200000 vaddr 42 1 1
      created.2.2

/-- The code page at 0 of a new process is another frame, and a supervisor
page, once the process has been loaded. -/
theorem loading_loses_code_page :
    (userPageRun 0).map (fun mapped =>
        (mapped.1, mapped.2.mapping 256 0,
          (pdtLoadProcessPdt twoFrameLayout 256 (fourKb * 256)
            mapped.2).mapping 256 0)) =
      some (4096,
        some
          { frame := 0x200
            writable := true
            user := true },
        some
          { frame := 0
            writable := true
            user := false }) := by
  decide +kernel

theorem loading_keeps_user_pages_iff_secondSlot :
    ∃ machine, UserDirectory twoFrameLayout 256 machine ∧
      KeepsUserPages twoFrameLayout machine 256 := by
  have evaluated : (userPageRun 0x400000).map (fun mapped =>
      (mapped.1, (mapped.2.mem 256 0).isPresent, mapped.2.mem 1 0)) =
      some (4096, false, identityEntry) := by
    decide +kernel
  obtain ⟨⟨result, machine⟩, ran, values⟩ :=
    Option.map_eq_some_iff.mp evaluated
  simp only [Prod.mk.injEq] at values
  obtain ⟨rfl, noFirst, kernelFirst⟩ := values
  obtain ⟨initial, created, _⟩ := twoFrameLayout_ready
  rw [userPageRun, created, Option.bind_some] at ran
  have inv := (bootMachine_boot twoFrameLayout_ok.distinct 5).pagingInv
  have empty : UserDirectory twoFrameLayout 256 initial :=
    .created inv created (by decide) (by decide)
  have call : (MapCall.mk 0x200000 0x400000 42 1 1).Words :=
    ⟨by decide, by decide, by decide⟩
  have directory : UserDirectory twoFrameLayout 256 machine :=
    .mapped empty call (by decide) ran (by decide)
  have noTable : ¬(machine.mem twoFrameLayout.kernelPdt 0).HoldsTable := by
    rw [show twoFrameLayout.kernelPdt = 1 by rfl, kernelFirst]
    decide
  refine ⟨machine, directory, (loading_keeps_user_pages_iff
    twoFrameLayout_bootOk directory
    (fun table => absurd table noTable)).1.mpr ?_⟩
  intro address below page mapped
  have first : virtualToPdtIdx address = 0 := by
    simp only [fourMb] at below
    rw [virtualToPdtIdx_eq]
    omega
  rw [Machine.mapping_absent (by rw [first]; exact noFirst)] at mapped
  cases mapped

end Newbos
