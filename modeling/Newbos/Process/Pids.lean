import Newbos.Library.Numbering
import Newbos.Paging.Boot
import Newbos.Process.Create

/-!
# Process ids

`process_create` numbers a process by the run queue as it stands, and the
process enters the queue later.  Creations and additions are followed through
every interleaving.
-/

namespace Newbos

/-- What the parts of `process_create` leave alone. -/
structure Loads (p : Nat) (kernel after : Kernel) : Prop where
  queue : after.queue = kernel.queue
  others : ∀ other, other ≠ p →
    after.processes other = kernel.processes other
  id : (after.processes p).id = (kernel.processes p).id

section Loads

variable {layout : Layout} {base fuel p : Nat}
  {kernel middle after : Kernel}

theorem Loads.of_eq (queue : after.queue = kernel.queue)
    (processes : after.processes = kernel.processes) :
    Loads p kernel after :=
  ⟨queue, fun _ _ => by rw [processes], by rw [processes]⟩

theorem Loads.trans (first : Loads p kernel middle)
    (second : Loads p middle after) : Loads p kernel after := by
  refine ⟨second.queue.trans first.queue, ?_, second.id.trans first.id⟩
  intro other different
  rw [second.others other different, first.others other different]

theorem Loads.update {words : List (Nat × Nat)} {update : Process → Process}
    (loads : Loads p kernel middle)
    (keepsId : ∀ process, (update process).id = process.id) :
    Loads p kernel (middle.updateProcess p words update) := by
  refine ⟨loads.queue, ?_, ?_⟩
  · intro other different
    rw [Kernel.updateProcess_other _ _ _ different,
      loads.others other different]
  · rw [Kernel.updateProcess_same, keepsId, loads.id]

/-- The memory for a list element is taken and the element recorded, unless
there is none. -/
theorem Loads.record {nbytes block : Nat} {loaded : Bool}
    {allocated : Kernel} {elements : Nat → PaddrEle}
    {words : List (Nat × Nat)} {update : Process → Process}
    (loads : Loads p kernel middle)
    (taken : middle.kmalloc layout base fuel nbytes =
      some (block, allocated))
    (result : (if block = 0 then some (false, allocated)
      else some (true, { allocated with
        paddrEles := elements }.updateProcess p words update)) =
      some (loaded, after))
    (keepsId : ∀ process, (update process).id = process.id) :
    Loads p kernel after := by
  obtain ⟨queue, processes, _⟩ := Kernel.kmalloc_keeps taken
  have request := loads.trans (.of_eq queue processes)
  split_ifs at result
  · cases result
    exact request
  · cases result
    exact .update ⟨request.queue, request.others, request.id⟩ keepsId

theorem loadPageTables_loads {loaded : Bool}
    (returned : loadPageTables layout p kernel = some (loaded, after)) :
    Loads p kernel after := by
  simp only [loadPageTables, Option.bind_eq_bind,
    Option.bind_eq_some_iff] at returned
  obtain ⟨⟨pdt, paddr, machine⟩, _, result⟩ := returned
  split_ifs at result
  · cases result
    exact .of_eq rfl rfl
  · cases result
    exact .update (.of_eq rfl rfl) fun _ => rfl

theorem loadCode_loads
    (returned : loadCode layout base fuel p kernel = some after) :
    Loads p kernel after := by
  simp only [loadCode, Option.bind_eq_bind,
    Option.bind_eq_some_iff] at returned
  obtain ⟨⟨_, _⟩, _, ⟨_, _⟩, _, ⟨_, _⟩, _, ⟨_, allocated⟩, taken, result⟩ :=
    returned
  cases result
  obtain ⟨queue, processes, _⟩ := Kernel.kmalloc_keeps taken
  exact .update (.of_eq queue processes) fun _ => rfl

theorem loadStack_loads {loaded : Bool}
    (returned : loadStack layout base fuel p kernel =
      some (loaded, after)) :
    Loads p kernel after := by
  simp only [loadStack, Option.bind_eq_bind] at returned
  split_ifs at returned
  · cases returned
    exact .of_eq rfl rfl
  · simp only [Option.bind_eq_some_iff] at returned
    obtain ⟨⟨_, _⟩, _, rest⟩ := returned
    split_ifs at rest
    · cases rest
      exact .of_eq rfl rfl
    · simp only [Option.bind_eq_some_iff] at rest
      obtain ⟨⟨_, _⟩, taken, result⟩ := rest
      apply Loads.record _ taken result fun _ => rfl
      exact .of_eq rfl rfl

theorem loadKernelStack_loads {loaded : Bool}
    (returned : loadKernelStack layout base fuel p kernel =
      some (loaded, after)) :
    Loads p kernel after := by
  simp only [loadKernelStack, Option.bind_eq_bind] at returned
  split_ifs at returned
  · cases returned
    exact .of_eq rfl rfl
  · cases returned
    exact .of_eq rfl rfl
  · simp only [Option.bind_eq_some_iff] at returned
    obtain ⟨⟨_, _⟩, _, rest⟩ := returned
    split_ifs at rest
    · cases rest
      exact .of_eq rfl rfl
    · simp only [Option.bind_eq_some_iff] at rest
      obtain ⟨⟨_, _⟩, taken, result⟩ := rest
      apply Loads.record _ taken result fun _ => rfl
      exact .of_eq rfl rfl

theorem Creation.loads {result : Nat}
    (creation : Creation layout base fuel p kernel result after) :
    ∃ id, schedulerNextPid fuel kernel = some id ∧
      Loads p (kernel.initializeProcess p id) after := by
  cases creation with
  | noTables counted tables =>
      exact ⟨_, counted, loadPageTables_loads tables⟩
  | noStack counted tables coded stacked =>
      exact ⟨_, counted, ((loadPageTables_loads tables).trans
        (loadCode_loads coded)).trans (loadStack_loads stacked)⟩
  | noKernelStack counted tables coded stacked kernelStacked =>
      exact ⟨_, counted, (((loadPageTables_loads tables).trans
        (loadCode_loads coded)).trans (loadStack_loads stacked)).trans
          (loadKernelStack_loads kernelStacked)⟩
  | complete counted tables coded stacked kernelStacked =>
      exact ⟨_, counted, ((((loadPageTables_loads tables).trans
        (loadCode_loads coded)).trans (loadStack_loads stacked)).trans
          (loadKernelStack_loads kernelStacked)).update fun _ => rfl⟩

/-- The other records and the queue stay as they are. -/
theorem Creation.keeps {result : Nat}
    (creation : Creation layout base fuel p kernel result after) :
    after.queue = kernel.queue ∧ ∀ other, other ≠ p →
      after.processes other = kernel.processes other := by
  obtain ⟨_, _, loads⟩ := creation.loads
  refine ⟨loads.queue, ?_⟩
  intro other different
  rw [loads.others other different, Kernel.initializeProcess,
    Kernel.updateProcess_other _ _ _ different]

theorem Creation.result_eq {result : Nat}
    (creation : Creation layout base fuel p kernel result after)
    (success : result ≠ 0) : result = p := by
  cases creation with
  | noTables => exact absurd rfl success
  | noStack => exact absurd rfl success
  | noKernelStack => exact absurd rfl success
  | complete => rfl

/-- A successful call numbers the new record and leaves the others and the
queue as they are. -/
theorem processCreate_id
    (returned : processCreate layout base fuel kernel = some (p, after))
    (success : p ≠ 0) :
    after.queue = kernel.queue ∧
      (∀ other, other ≠ p →
        after.processes other = kernel.processes other) ∧
      ∃ id, schedulerNextPid fuel kernel = some id ∧
        (after.processes p).id = id := by
  obtain ⟨record, allocated, taken, creation⟩ :=
    processCreate_creation returned
  obtain rfl := creation.result_eq success
  obtain ⟨queue, processes, _⟩ := Kernel.kmalloc_keeps taken
  obtain ⟨sameQueue, others⟩ := creation.keeps
  obtain ⟨id, numbered, loads⟩ := creation.loads
  refine ⟨sameQueue.trans queue, ?_, id, ?_, ?_⟩
  · intro other different
    rw [others other different, processes]
  · rw [schedulerNextPid, queue, processes] at numbered
    exact numbered
  · rw [loads.id, Kernel.initializeProcess, Kernel.updateProcess_same]
    rfl

end Loads

/-! ## The next id -/

/-- The loop of `scheduler_next_pid` finds the largest id in the queue. -/
theorem schedulerNextPidLoop_eq {queue : RunQueue}
    {processes : Nat → Process} {nodes : List Nat} {fuel : Nat} :
    ∀ {start maxPid result : Nat},
      IsChain (fun address => (queue.elements address).next) start nodes →
      (∀ p ∈ queue.contents nodes, p ≠ 0) →
      schedulerNextPidLoop queue processes fuel start maxPid = some result →
      result = max maxPid
        (largestNumber (fun p => (processes p).id)
          (queue.contents nodes)) := by
  induction nodes generalizing fuel with
  | nil =>
      intro start maxPid result chain _ returned
      cases fuel with
      | zero => cases returned
      | succ fuel =>
          have empty : start = 0 := chain
          rw [schedulerNextPidLoop, if_pos empty] at returned
          cases returned
          exact (Nat.max_eq_left (Nat.zero_le _)).symm
  | cons node rest induction =>
      intro start maxPid result chain notNull returned
      obtain ⟨startEq, nodeNotNull, tail⟩ := chain
      subst startEq
      cases fuel with
      | zero => cases returned
      | succ fuel =>
          have hasProcess : (queue.elements start).ps ≠ 0 :=
            notNull _ (by simp [RunQueue.contents])
          simp only [schedulerNextPidLoop, if_neg nodeNotNull, ne_eq,
            hasProcess, not_false_eq_true, true_and] at returned
          have later := induction tail
            (fun p member => notNull p (List.mem_cons_of_mem _ member))
            returned
          have split : largestNumber (fun p => (processes p).id)
              (queue.contents (start :: rest)) =
              max (processes (queue.elements start).ps).id
                (largestNumber (fun p => (processes p).id)
                  (queue.contents rest)) := rfl
          rw [later, split]
          split_ifs
          all_goals omega

theorem schedulerNextPid_eq {kernel : Kernel} {nodes : List Nat}
    {fuel id : Nat} (shape : QueueShape kernel.queue nodes)
    (notNull : ∀ p ∈ kernel.queue.contents nodes, p ≠ 0)
    (returned : schedulerNextPid fuel kernel = some id) :
    id = w32 (largestNumber (fun p => (kernel.processes p).id)
      (kernel.queue.contents nodes) + 1) := by
  simp only [schedulerNextPid, Option.map_eq_some_iff] at returned
  obtain ⟨maxPid, found, rfl⟩ := returned
  have largest := schedulerNextPidLoop_eq shape.chain notNull found
  rw [Nat.zero_max] at largest
  rw [largest]

/-! ## Creations and additions in any order -/

/-- A run of successful `process_create` calls and of `scheduler_add_process`
calls, with what has happened and the element blocks in use.  A created process
is added at most once, and the blocks that `kmalloc` returns are new. -/
inductive ProcessRun (layout : Layout) (base : Nat) :
    Kernel → List (NumberingEvent Nat) → List Nat → Prop where
  | start {kernel : Kernel} :
      kernel.queue.start = 0 →
      kernel.queue.stop = 0 →
      ProcessRun layout base kernel [] []
  | create {kernel after : Kernel} {events : List (NumberingEvent Nat)}
      {blocks : List Nat} {fuel p : Nat} :
      ProcessRun layout base kernel events blocks →
      processCreate layout base fuel kernel = some (p, after) →
      p ≠ 0 →
      .created p ∉ events →
      ProcessRun layout base after (.created p :: events) blocks
  | add {kernel after : Kernel} {events : List (NumberingEvent Nat)}
      {blocks : List Nat} {fuel p e : Nat} :
      ProcessRun layout base kernel events blocks →
      .created p ∈ events →
      .registered p ∉ events →
      kernel.schedulerAddProcess layout base fuel p = some (0, e, after) →
      e ∉ blocks →
      ProcessRun layout base after (.registered p :: events) (e :: blocks)
  | addFailed {kernel after : Kernel} {events : List (NumberingEvent Nat)}
      {blocks : List Nat} {fuel p e : Nat} :
      ProcessRun layout base kernel events blocks →
      kernel.schedulerAddProcess layout base fuel p = some (-1, e, after) →
      ProcessRun layout base after events blocks

/-- What holds between the calls of a run. -/
structure PidInv (kernel : Kernel) (events : List (NumberingEvent Nat))
    (blocks nodes : List Nat) : Prop where
  shape : QueueShape kernel.queue nodes
  contents : (kernel.queue.contents nodes).Perm (registeredItems events)
  blocks : nodes.Perm blocks
  numbered : Numbered events fun p => (kernel.processes p).id
  notNull : ∀ p, .created p ∈ events → p ≠ 0

section Runs

variable {layout : Layout} {base fuel p e : Nat} {kernel after : Kernel}
  {events : List (NumberingEvent Nat)} {blocks nodes : List Nat}

theorem PidInv.contents_notNull (inv : PidInv kernel events blocks nodes) :
    ∀ p ∈ kernel.queue.contents nodes, p ≠ 0 := by
  intro p member
  apply inv.notNull
  exact inv.numbered.created_of_registered
    (mem_registeredItems.mp (inv.contents.mem_iff.mp member))

/-- A new process gets the next number of the history. -/
theorem PidInv.create (inv : PidInv kernel events blocks nodes)
    (returned : processCreate layout base fuel kernel = some (p, after))
    (success : p ≠ 0) (fresh : .created p ∉ events)
    (few : (createdItems events).length + 1 < 4294967295) :
    PidInv after (.created p :: events) blocks nodes := by
  obtain ⟨queue, others, id, found, idEq⟩ := processCreate_id returned success
  have next := schedulerNextPid_eq inv.shape inv.contents_notNull found
  rw [largestNumber_perm inv.contents, w32_of_lt] at next
  · refine ⟨?_, ?_, inv.blocks, ?_, ?_⟩
    · rw [queue]
      exact inv.shape
    · rw [queue]
      exact inv.contents
    · refine .created inv.numbered fresh (idEq.trans next) ?_
      intro other different
      rw [others other different]
    · intro q member
      rcases List.mem_cons.mp member with same | earlier
      · cases same
        exact success
      · exact inv.notNull q earlier
  · have bound := inv.numbered.largest_le
    have length := inv.numbered.length_le
    omega

theorem addProcess_keeps {result : Int}
    (returned : kernel.schedulerAddProcess layout base fuel p =
      some (result, e, after)) :
    schedulerAddProcess p e kernel.queue = (result, after.queue) ∧
      after.processes = kernel.processes := by
  simp only [Kernel.schedulerAddProcess, Option.bind_eq_bind,
    Option.bind_eq_some_iff] at returned
  obtain ⟨⟨block, allocated⟩, taken, result⟩ := returned
  obtain ⟨queue, processes, _⟩ := Kernel.kmalloc_keeps taken
  cases result
  rw [queue]
  exact ⟨rfl, processes⟩

theorem PidInv.add (inv : PidInv kernel events blocks nodes)
    (isCreated : .created p ∈ events) (once : .registered p ∉ events)
    (returned : kernel.schedulerAddProcess layout base fuel p =
      some (0, e, after)) (fresh : e ∉ blocks) :
    PidInv after (.registered p :: events) (e :: blocks)
      (nodes ++ [e]) := by
  obtain ⟨added, processes⟩ := addProcess_keeps returned
  have notNull : e ≠ 0 := by
    rintro rfl
    rw [schedulerAddProcess_null] at added
    cases added
  have freshNode : e ∉ nodes := fun member =>
    fresh (inv.blocks.mem_iff.mp member)
  have queue : after.queue = (schedulerAddProcess p e kernel.queue).2 := by
    rw [added]
  refine ⟨?_, ?_, ?_, ?_, ?_⟩
  · rw [queue]
    exact (inv.shape.add p notNull freshNode).1
  · rw [queue, contents_add inv.shape notNull freshNode]
    exact (List.perm_append_singleton p _).trans (inv.contents.cons p)
  · exact (List.perm_append_singleton e _).trans (inv.blocks.cons e)
  · rw [processes]
    exact .registered inv.numbered isCreated once
  · intro q member
    rcases List.mem_cons.mp member with same | earlier
    · cases same
    · exact inv.notNull q earlier

theorem PidInv.addFailed (inv : PidInv kernel events blocks nodes)
    (returned : kernel.schedulerAddProcess layout base fuel p =
      some (-1, e, after)) : PidInv after events blocks nodes := by
  obtain ⟨added, processes⟩ := addProcess_keeps returned
  have null : e = 0 := by
    by_contra notNull
    simp [schedulerAddProcess, notNull] at added
  rw [null, schedulerAddProcess_null] at added
  have queue : after.queue = kernel.queue := (Prod.ext_iff.mp added).2.symm
  refine ⟨?_, ?_, inv.blocks, ?_, inv.notNull⟩
  · rw [queue]
    exact inv.shape
  · rw [queue]
    exact inv.contents
  · rw [processes]
    exact inv.numbered

theorem ProcessRun.invariant
    (run : ProcessRun layout base kernel events blocks)
    (few : (createdItems events).length < 4294967295) :
    ∃ nodes, PidInv kernel events blocks nodes := by
  induction run with
  | start empty noStop =>
      refine ⟨[], ⟨empty, List.nodup_nil, noStop⟩, .refl _, .refl _,
        .start _, ?_⟩
      intro p member
      cases member
  | create _ returned success fresh induction =>
      rw [createdItems, List.length_cons] at few
      obtain ⟨nodes, inv⟩ := induction (by omega)
      exact ⟨nodes, inv.create returned success fresh few⟩
  | @add kernel after events blocks fuel p e _ isCreated once returned fresh
      induction =>
      obtain ⟨nodes, inv⟩ := induction few
      exact ⟨nodes ++ [e], inv.add isCreated once returned fresh⟩
  | addFailed _ returned induction =>
      obtain ⟨nodes, inv⟩ := induction few
      exact ⟨nodes, inv.addFailed returned⟩

/-- The ids in the run queue are distinct exactly when of any two processes in
it one was added before the other was created. -/
theorem process_ids_distinct_iff
    (run : ProcessRun layout base kernel events blocks)
    (few : (createdItems events).length < 4294967295)
    (chain : IsChain (fun address => (kernel.queue.elements address).next)
      kernel.queue.start nodes) :
    ((kernel.queue.contents nodes).map
        fun p => (kernel.processes p).id).Nodup ↔
      ∀ first second, .registered first ∈ events →
        .registered second ∈ events → first ≠ second →
        RegisteredBefore events first second ∨
          RegisteredBefore events second first := by
  obtain ⟨others, inv⟩ := run.invariant few
  have same := chain.unique inv.shape.chain
  subst same
  have distinct : (kernel.queue.contents nodes).Nodup :=
    inv.contents.nodup_iff.mpr inv.numbered.registeredItems_nodup
  rw [List.nodup_map_iff_inj_on distinct, ← inv.numbered.distinct_iff]
  have member : ∀ p, p ∈ kernel.queue.contents nodes ↔
      .registered p ∈ events := by
    intro p
    rw [inv.contents.mem_iff, mem_registeredItems]
  constructor
  · intro injective first second firstMember secondMember different sameId
    exact different (injective first ((member first).mpr firstMember) second
      ((member second).mpr secondMember) sameId)
  · intro separate first firstMember second secondMember sameId
    by_contra different
    exact separate first second ((member first).mp firstMember)
      ((member second).mp secondMember) different sameId

end Runs

/-- Room for the records and stacks of two processes. -/
def sixteenFrameLayout : Layout :=
  { kernelPdt := 1
    kernelPt := 2
    mmap := [⟨0x100000, 0x10000⟩]
    start := 0xC0003000
    len := 16 }

/-- The kernel after `frames_init`. -/
def bootKernel : Kernel :=
  { machine := bootMachine sixteenFrameLayout 5
    heap := Heap.initial fun _ => ⟨0, 0⟩
    processes := fun _ => initialProcess 0
    paddrEles := fun _ => ⟨0, 0, 0⟩
    queue := ⟨fun _ => ⟨0, 0⟩, 0, 0⟩ }

/-- The first two elements of the queue, and the ids they lead to. -/
def Kernel.queuedPair (kernel : Kernel) : List Nat :=
  let first := kernel.queue.start
  let second := (kernel.queue.elements first).next
  [first, second, (kernel.queue.elements second).next,
    (kernel.processes (kernel.queue.elements first).ps).id,
    (kernel.processes (kernel.queue.elements second).ps).id]

theorem Kernel.queuedPair_ids {kernel : Kernel}
    {first second firstId secondId : Nat}
    (pair : kernel.queuedPair = [first, second, 0, firstId, secondId])
    (firstNotNull : first ≠ 0) (secondNotNull : second ≠ 0) :
    IsChain (fun address => (kernel.queue.elements address).next)
      kernel.queue.start [first, second] ∧
    (kernel.queue.contents [first, second]).map
      (fun p => (kernel.processes p).id) = [firstId, secondId] := by
  simp only [queuedPair, List.cons.injEq, and_true] at pair
  obtain ⟨rfl, rfl, last, rfl, rfl⟩ := pair
  exact ⟨⟨rfl, firstNotNull, rfl, secondNotNull, last⟩, rfl⟩

/-- A process is created after the other has been added. -/
theorem process_ids_distinct_inTurn :
    ∃ kernel events blocks nodes,
      ProcessRun sixteenFrameLayout 0xC0002000 kernel events blocks ∧
      nodes.length = 2 ∧
      ((kernel.queue.contents nodes).map
        fun p => (kernel.processes p).id).Nodup := by
  have evaluated : (processCreate sixteenFrameLayout 0xC0002000 64
      bootKernel).bind (fun first =>
        (first.2.schedulerAddProcess sixteenFrameLayout 0xC0002000 64
          first.1).bind fun firstAdded =>
        (processCreate sixteenFrameLayout 0xC0002000 64
          firstAdded.2.2).bind fun second =>
        (second.2.schedulerAddProcess sixteenFrameLayout 0xC0002000 64
          second.1).map fun secondAdded =>
        ((firstAdded.1, secondAdded.1),
          [first.1, second.1, firstAdded.2.1, secondAdded.2.1],
          secondAdded.2.2.queuedPair)) =
      some ((0, 0), [0xC0006F68, 0xC0006E70, 0xC0006F10, 0xC0006E18],
        [0xC0006F10, 0xC0006E18, 0, 1, 2]) := by
    decide +kernel
  simp only [Option.bind_eq_some_iff, Option.map_eq_some_iff] at evaluated
  obtain ⟨⟨first, afterFirst⟩, createFirst, ⟨_, firstBlock, addedFirst⟩,
    addFirst, ⟨second, afterSecond⟩, createSecond,
    ⟨_, secondBlock, kernel⟩, addSecond, values⟩ := evaluated
  simp only [Prod.mk.injEq, List.cons.injEq, and_true] at values
  obtain ⟨⟨rfl, rfl⟩, ⟨rfl, rfl, rfl, rfl⟩, pair⟩ := values
  dsimp only at addFirst createSecond addSecond
  have run := ProcessRun.add (.create (.add (.create (.start rfl rfl)
    createFirst (by decide) (by decide)) (by decide) (by decide) addFirst
    (by decide)) createSecond (by decide) (by decide)) (by decide) (by decide)
    addSecond (by decide)
  obtain ⟨chain, _⟩ := Kernel.queuedPair_ids pair (by decide) (by decide)
  refine ⟨kernel, _, _, [0xC0006F10, 0xC0006E18], run, rfl, ?_⟩
  apply (process_ids_distinct_iff run (by decide) chain).mpr
  have before : RegisteredBefore
      [.registered 0xC0006E70, .created 0xC0006E70, .registered 0xC0006F68,
        .created 0xC0006F68] 0xC0006F68 0xC0006E70 :=
    ⟨[_], _, rfl, by decide⟩
  intro one other oneAdded otherAdded different
  simp only [List.mem_cons, NumberingEvent.registered.injEq, reduceCtorEq,
    List.not_mem_nil, or_false, false_or] at oneAdded otherAdded
  rcases oneAdded with rfl | rfl <;> rcases otherAdded with rfl | rfl
  · exact absurd rfl different
  · exact Or.inr before
  · exact Or.inl before
  · exact absurd rfl different

/-- Two processes created before either is added share an id. -/
theorem process_ids_shared :
    ∃ kernel events blocks nodes,
      ProcessRun sixteenFrameLayout 0xC0002000 kernel events blocks ∧
      (createdItems events).length < 4294967295 ∧
      IsChain (fun address => (kernel.queue.elements address).next)
        kernel.queue.start nodes ∧
      ¬((kernel.queue.contents nodes).map
        fun p => (kernel.processes p).id).Nodup := by
  have evaluated : (processCreate sixteenFrameLayout 0xC0002000 64
      bootKernel).bind (fun first =>
        (processCreate sixteenFrameLayout 0xC0002000 64
          first.2).bind fun second =>
        (second.2.schedulerAddProcess sixteenFrameLayout 0xC0002000 64
          first.1).bind fun firstAdded =>
        (firstAdded.2.2.schedulerAddProcess sixteenFrameLayout 0xC0002000 64
          second.1).map fun secondAdded =>
        ((firstAdded.1, secondAdded.1),
          [first.1, second.1, firstAdded.2.1, secondAdded.2.1],
          secondAdded.2.2.queuedPair)) =
      some ((0, 0), [0xC0006F68, 0xC0006E80, 0xC0006E28, 0xC0006E18],
        [0xC0006E28, 0xC0006E18, 0, 1, 1]) := by
    decide +kernel
  simp only [Option.bind_eq_some_iff, Option.map_eq_some_iff] at evaluated
  obtain ⟨⟨first, afterFirst⟩, createFirst, ⟨second, afterSecond⟩,
    createSecond, ⟨_, firstBlock, addedFirst⟩, addFirst,
    ⟨_, secondBlock, kernel⟩, addSecond, values⟩ := evaluated
  simp only [Prod.mk.injEq, List.cons.injEq, and_true] at values
  obtain ⟨⟨rfl, rfl⟩, ⟨rfl, rfl, rfl, rfl⟩, pair⟩ := values
  dsimp only at createSecond addFirst addSecond
  have run := ProcessRun.add (.add (.create (.create (.start rfl rfl)
    createFirst (by decide) (by decide)) createSecond (by decide)
    (by decide)) (by decide) (by decide) addFirst (by decide)) (by decide)
    (by decide) addSecond (by decide)
  obtain ⟨chain, ids⟩ := Kernel.queuedPair_ids pair (by decide) (by decide)
  refine ⟨kernel, _, _, _, run, by decide, chain, ?_⟩
  rw [ids]
  decide

end Newbos
