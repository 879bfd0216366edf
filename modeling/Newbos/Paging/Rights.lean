import Newbos.Paging.MapCalls

/-!
# Rights of mapped pages

A directory entry is written by the first call that touches its slot, and is
left alone by the later ones.  The rights of a page are therefore the rights
its own call asked for, less those that the first call of the slot did not ask
for.
-/

namespace Newbos

/-- The arguments of `pdt_map_memory`, apart from the directory. -/
structure MapCall where
  paddr : Nat
  vaddr : Nat
  size : Nat
  rw : UInt8
  pl : UInt8
  deriving DecidableEq, Repr

namespace MapCall

/-- The arguments are 32-bit words. -/
structure Words (call : MapCall) : Prop where
  paddr : call.paddr < 4294967296
  vaddr : call.vaddr < 4294967296
  size : call.size < 4294967296

def pages (call : MapCall) : Nat :=
  alignUp call.size fourKb / fourKb

def page (call : MapCall) (number : Nat) : Nat :=
  call.vaddr + 4096 * number

/-- The call maps a page of this slot. -/
def touches (call : MapCall) (slot : Nat) : Bool :=
  decide (∃ number < call.pages, virtualToPdtIdx (call.page number) = slot)

/-- The R/W and U/S bits that a call asks for. -/
def writable (call : MapCall) : Bool :=
  1 &&& call.rw != 0

def user (call : MapCall) : Bool :=
  1 &&& call.pl != 0

end MapCall

/-- A sequence of calls on one directory that all map what they were asked
to. -/
def mapAll (layout : Layout) (pdt : Nat) : List MapCall → Machine →
    Option Machine
  | [], machine => some machine
  | call :: rest, machine =>
      match pdtMapMemory layout pdt call.paddr call.vaddr call.size call.rw
          call.pl machine with
      | some (result, after) =>
          if call.size ≤ result then mapAll layout pdt rest after else none
      | none => none

/-- The directory after a sequence of calls on an empty one. -/
structure BuiltBy (layout : Layout) (pdt : Nat) (calls : List MapCall)
    (machine : Machine) : Prop where
  owned : TablesOwned layout machine pdt
  slots : ∀ slot < 1024,
    (machine.mem pdt slot).isPresent = false ∧
        (∀ call ∈ calls, call.touches slot = false) ∨
      ∃ first frame, calls.find? (fun call => call.touches slot) =
          some first ∧
        machine.mem pdt slot = pdtEntry (fourKb * frame) 0 first.rw first.pl
  leaves : ∀ call ∈ calls, ∀ number < call.pages,
    machine.leaf pdt (virtualToPdtIdx (call.page number))
      (virtualToPtIdx (call.page number)) =
        ptEntry (call.paddr + 4096 * number) call.rw call.pl

section Building

variable {layout : Layout} {pdt : Nat} {calls : List MapCall}
  {machine : Machine}

theorem MapCall.touches_iff {call : MapCall} {slot : Nat} :
    call.touches slot = true ↔
      ∃ ptIdx, AmongPages call.vaddr call.pages slot ptIdx := by
  rw [touches, decide_eq_true_iff]
  constructor
  · rintro ⟨number, within, same⟩
    exact ⟨_, number, within, same, rfl⟩
  · rintro ⟨_, number, within, same, _⟩
    exact ⟨number, within, same⟩

theorem BuiltBy.start (notPt : pdt ≠ layout.kernelPt)
    (taken : ¬FreeFrame layout machine pdt)
    (empty : ∀ slot < 1024, machine.mem pdt slot = Entry.empty) :
    BuiltBy layout pdt [] machine := by
  have noTable : ∀ slot < 1024, ¬(machine.mem pdt slot).HoldsTable := by
    intro slot small table
    rw [empty slot small] at table
    exact absurd table.1 (by decide)
  refine ⟨⟨notPt, taken, ?_, ?_, ?_⟩, ?_, ?_⟩
  · exact fun slot small table => absurd table (noTable slot small)
  · exact fun slot small table => absurd table (noTable slot small)
  · exact fun slot small _ _ table => absurd table (noTable slot small)
  · intro slot small
    rw [empty slot small]
    exact Or.inl ⟨by decide, fun call member => by cases member⟩
  · intro call member
    cases member

theorem BuiltBy.tableOrAbsent (built : BuiltBy layout pdt calls machine)
    {slot : Nat} (small : slot < 1024)
    (present : (machine.mem pdt slot).isPresent = true) :
    (machine.mem pdt slot).HoldsTable := by
  rcases built.slots slot small with ⟨absent, _⟩ | ⟨first, frame, _, opened⟩
  · rw [absent] at present
    cases present
  · rw [opened]
    exact pdtEntry_holdsTable frame first.rw first.pl

/-- A successful call has mapped all its pages. -/
theorem MapOutcome.progress {paddr vaddr size result : Nat} {rw pl : UInt8}
    {after : Machine}
    (outcome : MapOutcome layout pdt paddr vaddr (alignUp size fourKb) rw pl
      machine result after)
    (success : size ≤ result) :
    MapProgress layout pdt paddr vaddr rw pl machine
      (alignUp size fourKb / fourKb) after := by
  cases outcome with
  | @complete pages _ whole progress =>
      have pagesEq : alignUp size fourKb / fourKb = pages := by
        simp only [fourKb] at whole ⊢
        omega
      rw [pagesEq]
      exact progress
  | stopped sizeEq sizePos =>
      have nothing : size = 0 := Nat.le_zero.mp success
      subst nothing
      have bytes : alignUp 0 fourKb = 0 := by decide
      omega

theorem BuiltBy.call (built : BuiltBy layout pdt calls machine)
    {call : MapCall} {after : Machine}
    (progress : MapProgress layout pdt call.paddr call.vaddr call.rw call.pl
      machine call.pages after) :
    BuiltBy layout pdt (calls ++ [call]) after := by
  refine ⟨progress.owned, ?_, ?_⟩
  · intro slot small
    rcases built.slots slot small with
      ⟨absent, untouched⟩ | ⟨first, frame, found, opened⟩
    · have noneFound : calls.find? (fun call => call.touches slot) = none := by
        apply List.find?_eq_none.mpr
        intro earlier member
        simp [untouched earlier member]
      rcases progress.opened slot small absent with
        same | ⟨among, frame, opened⟩
      · refine Or.inl ⟨by rw [same]; exact absent, ?_⟩
        intro other member
        rcases List.mem_append.mp member with earlier | last
        · exact untouched other earlier
        · have isCall := List.mem_singleton.mp last
          subst isCall
          by_contra touched
          rw [Bool.not_eq_false, MapCall.touches_iff] at touched
          obtain ⟨_, number, within, isSlot, _⟩ := touched
          have table := (progress.slots number within).isPresent
          rw [isSlot, same, absent] at table
          cases table
      · refine Or.inr ⟨call, frame, ?_, opened⟩
        rw [List.find?_append, noneFound, Option.none_or]
        simp [MapCall.touches_iff.mpr among]
    · refine Or.inr ⟨first, frame, ?_, ?_⟩
      · rw [List.find?_append, found]
        rfl
      · rw [progress.kept slot small, opened]
        rw [opened]
        exact (pdtEntry_holdsTable frame first.rw first.pl).isPresent
  · intro other member number within
    rcases List.mem_append.mp member with earlier | last
    · have leaf := built.leaves other earlier number within
      have notAmong : ¬AmongPages call.vaddr call.pages
          (virtualToPdtIdx (other.page number))
          (virtualToPtIdx (other.page number)) := by
        rintro ⟨fresh, freshWithin, slot, index⟩
        have wasFree := progress.wereFree fresh freshWithin
        rw [slot, index, leaf, (ptEntry_flags ..).1] at wasFree
        cases wasFree
      rw [progress.others _ (virtualToPdtIdx_lt _) _ (virtualToPtIdx_lt _)
        (built.tableOrAbsent (virtualToPdtIdx_lt _)) notAmong]
      exact leaf
    · have isCall := List.mem_singleton.mp last
      subst isCall
      exact progress.leaves number within

theorem BuiltBy.mapAll (ok : layout.Ok) {more : List MapCall}
    {final : Machine} (built : BuiltBy layout pdt calls machine)
    (words : ∀ call ∈ more, call.Words)
    (run : mapAll layout pdt more machine = some final) :
    BuiltBy layout pdt (calls ++ more) final := by
  induction more generalizing calls machine with
  | nil =>
      cases run
      rw [List.append_nil]
      exact built
  | cons call rest induction =>
      have callWords := words call List.mem_cons_self
      obtain ⟨result, after, returned, outcome⟩ := pdtMapMemory_outcome ok
        built.owned callWords.paddr callWords.vaddr callWords.size
        (fun _ _ => built.tableOrAbsent (virtualToPdtIdx_lt _)) call.rw call.pl
      simp only [Newbos.mapAll, returned] at run
      by_cases success : call.size ≤ result
      · rw [if_pos success] at run
        have next := built.call (outcome.progress success)
        have restWords : ∀ other ∈ rest, other.Words := fun other member =>
          words other (List.mem_cons_of_mem call member)
        have whole := induction next restWords run
        rwa [List.append_assoc] at whole
      · rw [if_neg success] at run
        cases run

theorem BuiltBy.mapping (built : BuiltBy layout pdt calls machine)
    {call : MapCall} (member : call ∈ calls) {number : Nat}
    (within : number < call.pages) :
    ∃ first, calls.find? (fun other =>
        other.touches (virtualToPdtIdx (call.page number))) = some first ∧
      machine.mapping pdt (call.page number) =
        some
          { frame := w32 (call.paddr + 4096 * number) / 4096
            writable := first.writable && call.writable
            user := first.user && call.user } := by
  have touched : call.touches (virtualToPdtIdx (call.page number)) = true :=
    MapCall.touches_iff.mpr ⟨_, number, within, rfl, rfl⟩
  rcases built.slots _ (virtualToPdtIdx_lt (call.page number)) with
    ⟨_, untouched⟩ | ⟨first, frame, found, opened⟩
  · rw [untouched call member] at touched
    cases touched
  · refine ⟨first, found, ?_⟩
    have table : (machine.mem pdt
        (virtualToPdtIdx (call.page number))).HoldsTable := by
      rw [opened]
      exact pdtEntry_holdsTable frame first.rw first.pl
    obtain ⟨_, _, _, slotWritable, slotUser⟩ := pdtEntry_flags
      (fourKb * frame) first.rw first.pl
    obtain ⟨_, valid, writable, user⟩ := ptEntry_flags
      (call.paddr + 4096 * number) call.rw call.pl
    rw [Machine.mapping_table table, built.leaves call member number within,
      opened, Entry.smallPage, if_pos valid, slotWritable, slotUser, writable,
      user, ptEntry_frame]
    rfl

end Building

/-- Every page of the calls has exactly the rights its call asked for. -/
def RightsAsAsked (pdt : Nat) (calls : List MapCall) (machine : Machine) :
    Prop :=
  ∀ call ∈ calls, ∀ number < call.pages,
    ∃ page, machine.mapping pdt (call.page number) = some page ∧
      page.writable = call.writable ∧ page.user = call.user

/-- The first call that touches a slot asks for all the rights that later
calls ask for there. -/
def FirstCallsGrant (calls : List MapCall) : Prop :=
  ∀ call ∈ calls, ∀ number < call.pages, ∀ first,
    calls.find? (fun other =>
      other.touches (virtualToPdtIdx (call.page number))) = some first →
    (call.writable = true → first.writable = true) ∧
      (call.user = true → first.user = true)

/-- After successful calls on an empty directory, pages have the rights asked
for exactly when the first calls of their slots grant them. -/
theorem mapped_rights_iff {layout : Layout} {pdt : Nat}
    {calls : List MapCall} {initial final : Machine} (ok : layout.Ok)
    (notPt : pdt ≠ layout.kernelPt) (taken : ¬FreeFrame layout initial pdt)
    (empty : ∀ slot < 1024, initial.mem pdt slot = Entry.empty)
    (words : ∀ call ∈ calls, call.Words)
    (run : mapAll layout pdt calls initial = some final) :
    RightsAsAsked pdt calls final ↔ FirstCallsGrant calls := by
  have built : BuiltBy layout pdt ([] ++ calls) final :=
    (BuiltBy.start notPt taken empty).mapAll ok words run
  rw [List.nil_append] at built
  constructor
  · intro asked call member number within first found
    obtain ⟨page, mapped, writable, user⟩ := asked call member number within
    obtain ⟨other, otherFound, mapping⟩ := built.mapping member within
    rw [found] at otherFound
    cases otherFound
    rw [mapping] at mapped
    cases mapped
    exact ⟨Bool.and_eq_right_iff_imp.mp writable,
      Bool.and_eq_right_iff_imp.mp user⟩
  · intro grant call member number within
    obtain ⟨first, found, mapping⟩ := built.mapping member within
    obtain ⟨writable, user⟩ := grant call member number within first found
    exact ⟨_, mapping, Bool.and_eq_right_iff_imp.mpr writable,
      Bool.and_eq_right_iff_imp.mpr user⟩

/-- The first managed frame is taken for a directory, and is all zero. -/
def emptyDirectory : Machine :=
  { bootMachine twoFrameLayout 5 with bits := fun _ => 0x7FFFFFFF#32 }

theorem emptyDirectory_taken :
    ¬FreeFrame twoFrameLayout emptyDirectory 256 := by
  intro free
  have unset : bitAt emptyDirectory.bits (idxForPaddr twoFrameLayout.mmap
      twoFrameLayout.len (fourKb * 256)) = false := by
    decide +kernel
  exact absurd free.2 (by rw [frameFree, unset]; decide)

theorem emptyDirectory_empty (slot : Nat) :
    emptyDirectory.mem 256 slot = Entry.empty := by
  simp [emptyDirectory, bootMachine, twoFrameLayout]

/-- A read-only supervisor page, and behind it a writable user page. -/
def supervisorPage : MapCall :=
  { paddr := 0x200000
    vaddr := 0x400000
    size := 4096
    rw := 0
    pl := 0 }

def userPage : MapCall :=
  { paddr := 0x201000
    vaddr := 0x401000
    size := 4096
    rw := 1
    pl := 1 }

/-- The second page is neither writable nor for the user. -/
theorem mapped_rights_lost :
    (mapAll twoFrameLayout 256 [supervisorPage, userPage] emptyDirectory).map
        (fun final => final.mapping 256 userPage.vaddr) =
      some (some
        { frame := 0x201
          writable := false
          user := false }) ∧
    userPage.writable = true ∧ userPage.user = true := by
  decide +kernel

theorem mapped_rights_iff_userFirst :
    ∃ final, mapAll twoFrameLayout 256 [userPage, supervisorPage]
        emptyDirectory = some final ∧
      RightsAsAsked 256 [userPage, supervisorPage] final := by
  have evaluated : (mapAll twoFrameLayout 256 [userPage, supervisorPage]
      emptyDirectory).isSome = true := by
    decide +kernel
  obtain ⟨final, run⟩ := Option.isSome_iff_exists.mp evaluated
  have words : ∀ call ∈ [userPage, supervisorPage], call.Words := by
    intro call member
    rcases List.mem_pair.mp member with rfl | rfl
    · exact ⟨by decide, by decide, by decide⟩
    · exact ⟨by decide, by decide, by decide⟩
  refine ⟨final, run, (mapped_rights_iff twoFrameLayout_ok (by decide)
    emptyDirectory_taken (fun slot _ => emptyDirectory_empty slot) words
    run).mpr ?_⟩
  intro call member number within first found
  have isUser : first = userPage := by
    have onePage : ∀ other ∈ [userPage, supervisorPage], other.pages = 1 := by
      decide
    rw [onePage call member, Nat.lt_one_iff] at within
    subst within
    rcases List.mem_pair.mp member with rfl | rfl
    · exact Option.some.inj (found.symm.trans (by decide))
    · exact Option.some.inj (found.symm.trans (by decide))
  rw [isUser]
  exact ⟨fun _ => by decide, fun _ => by decide⟩

end Newbos
