import Newbos.Library.Chain
import Newbos.Process.Record

/-!
# The run queue

`scheduler_add_process` appends to an intrusive singly linked list, and
`scheduler_schedule` moves its head to the end and dispatches the new head.
The pointers are shown to represent a functional queue of processes, over
every interleaving of the two.
-/

namespace Newbos

/-- `SEGSEL_KERNEL_CS`. -/
abbrev segselKernelCs : Nat := 0x08

/-- `SEGSEL_KERNEL_DS`. -/
abbrev segselKernelDs : Nat := 0x10

/-- `struct process_list_element`. -/
structure ProcessListElement where
  next : Nat
  ps : Nat
  deriving DecidableEq, Repr

/-- `runnable_processes` and the elements it is threaded through. -/
structure RunQueue where
  elements : Nat → ProcessListElement
  start : Nat
  stop : Nat

/-- What `scheduler_schedule` asks of the rest of the kernel. -/
inductive SchedulerAction where
  | tssSetKernelStack (segsel vaddr : Nat)
  | pdtLoadProcessPdt (pdt pdtPaddr : Nat)
  | runProcessInUserMode (registers : Registers)
  deriving DecidableEq, Repr

def RunQueue.setElement (queue : RunQueue) (address : Nat)
    (element : ProcessListElement) : RunQueue :=
  { queue with elements := Store.set queue.elements address element }

def RunQueue.setNext (queue : RunQueue) (address next : Nat) : RunQueue :=
  queue.setElement address { queue.elements address with next := next }

/-- `scheduler_add_process`, given the result of its `kmalloc`. -/
def schedulerAddProcess (p e : Nat) (queue : RunQueue) : Int × RunQueue :=
  if e = 0 then (-1, queue)
  else
    let queue := queue.setElement e ⟨0, p⟩
    let queue :=
      if queue.start = 0 then { queue with start := e }
      else queue.setNext queue.stop e
    (0, { queue with stop := e })

/-- The calls that switch to a process. -/
def dispatch (process : Process) : List SchedulerAction :=
  [.tssSetKernelStack segselKernelDs process.kernelStackStartVaddr,
    .pdtLoadProcessPdt process.pdt process.pdtPaddr] ++
  if process.current.cs = segselKernelCs then []
  else [.runProcessInUserMode process.current]

/-- `scheduler_schedule`: the queue it leaves and the calls it makes. -/
def schedulerSchedule (processes : Nat → Process) (queue : RunQueue) :
    RunQueue × List SchedulerAction :=
  if queue.start = 0 ∨ (queue.elements queue.start).ps = 0 then (queue, [])
  else
    let e := queue.start
    let queue :=
      if (queue.elements e).next ≠ 0 then
        let queue := { queue with start := (queue.elements e).next }
        let queue := queue.setNext e 0
        let queue := queue.setNext queue.stop e
        { queue with stop := e }
      else queue
    let p := (queue.elements queue.start).ps
    if p = 0 then (queue, [])
    else (queue, dispatch (processes p))

/-- The chain of elements, and the pointer to its last one. -/
structure QueueShape (queue : RunQueue) (nodes : List Nat) : Prop where
  chain : IsChain (fun address => (queue.elements address).next) queue.start
    nodes
  nodup : nodes.Nodup
  stop : queue.stop = nodes.getLast?.getD 0

/-- Write element `e` and hang it behind the last element. -/
def RunQueue.hang (queue : RunQueue) (e ps : Nat) : RunQueue :=
  { elements := Store.set (Store.set queue.elements e ⟨0, ps⟩) queue.stop
      ⟨e, (Store.set queue.elements e ⟨0, ps⟩ queue.stop).ps⟩
    start := queue.start
    stop := e }

theorem schedulerAddProcess_first {queue : RunQueue} {p e : Nat}
    (notNull : e ≠ 0) (empty : queue.start = 0) :
    schedulerAddProcess p e queue =
      (0, { elements := Store.set queue.elements e ⟨0, p⟩
            start := e
            stop := e }) := by
  simp [schedulerAddProcess, notNull, RunQueue.setElement, empty]

theorem schedulerAddProcess_later {queue : RunQueue} {p e : Nat}
    (notNull : e ≠ 0) (nonempty : queue.start ≠ 0) :
    schedulerAddProcess p e queue = (0, queue.hang e p) := by
  simp [schedulerAddProcess, notNull, RunQueue.setElement, RunQueue.setNext,
    nonempty, RunQueue.hang]

/-- The queue after the head has been moved to the end. -/
def RunQueue.rotated (queue : RunQueue) : RunQueue :=
  if (queue.elements queue.start).next = 0 then queue
  else
    { queue with start := (queue.elements queue.start).next }.hang queue.start
      (queue.elements queue.start).ps

theorem schedulerSchedule_head {processes : Nat → Process} {queue : RunQueue}
    (nonempty : queue.start ≠ 0)
    (hasProcess : (queue.elements queue.start).ps ≠ 0) :
    schedulerSchedule processes queue =
      (queue.rotated,
        if (queue.rotated.elements queue.rotated.start).ps = 0 then []
        else dispatch
          (processes (queue.rotated.elements queue.rotated.start).ps)) := by
  by_cases alone : (queue.elements queue.start).next = 0
  · simp [schedulerSchedule, nonempty, hasProcess, alone, RunQueue.rotated]
  · simp only [schedulerSchedule, nonempty, hasProcess, alone,
      RunQueue.rotated, RunQueue.setNext, RunQueue.setElement, or_self,
      if_false, ne_eq, not_false_eq_true, if_true, RunQueue.hang]
    split_ifs <;> rfl

theorem schedulerSchedule_idle {processes : Nat → Process} {queue : RunQueue}
    (idle : queue.start = 0 ∨ (queue.elements queue.start).ps = 0) :
    schedulerSchedule processes queue = (queue, []) := by
  rw [schedulerSchedule, if_pos idle]

namespace QueueShape

variable {queue : RunQueue} {nodes : List Nat}

theorem stop_getLast (shape : QueueShape queue nodes) (nonempty : nodes ≠ []) :
    nodes.getLast? = some queue.stop := by
  rw [shape.stop, List.getLast?_eq_some_getLast nonempty]
  rfl

theorem hang (shape : QueueShape queue nodes) (nonempty : nodes ≠ [])
    {e ps : Nat} (notNull : e ≠ 0) (fresh : e ∉ nodes) :
    QueueShape (queue.hang e ps) (nodes ++ [e]) ∧
      ∀ address, ((queue.hang e ps).elements address).ps =
        if address = e then ps else (queue.elements address).ps := by
  have isLast := shape.stop_getLast nonempty
  have stopNotNew : queue.stop ≠ e := by
    intro same
    apply fresh
    rw [← same]
    exact List.mem_of_getLast? isLast
  refine ⟨⟨?_, ?_, ?_⟩, ?_⟩
  · apply shape.chain.append shape.nodup isLast notNull fresh
    · simp [RunQueue.hang, Store.set_other _ _ stopNotNew.symm]
    · simp [RunQueue.hang]
    · intro earlier member notLast
      have notNew : earlier ≠ e := fun same => fresh (same ▸ member)
      simp [RunQueue.hang, Store.set_other, notLast, notNew]
  · rw [List.nodup_append]
    refine ⟨shape.nodup, List.nodup_singleton e, ?_⟩
    intro first member second isNew same
    rw [List.mem_singleton.mp isNew] at same
    exact fresh (same ▸ member)
  · simp [RunQueue.hang]
  · intro address
    by_cases atStop : address = queue.stop
    · subst atStop
      simp [RunQueue.hang, Store.set_other _ _ stopNotNew, stopNotNew]
    · by_cases same : address = e
      · subst same
        simp [RunQueue.hang, Store.set_other _ _ atStop]
      · simp [RunQueue.hang, Store.set_other, atStop, same]

theorem add (shape : QueueShape queue nodes) (p : Nat) {e : Nat}
    (notNull : e ≠ 0) (fresh : e ∉ nodes) :
    QueueShape (schedulerAddProcess p e queue).2 (nodes ++ [e]) ∧
      ∀ address, ((schedulerAddProcess p e queue).2.elements address).ps =
        if address = e then p else (queue.elements address).ps := by
  by_cases empty : queue.start = 0
  · rw [schedulerAddProcess_first notNull empty]
    have noNodes := shape.chain.start_eq_zero_iff.mp empty
    subst noNodes
    refine ⟨⟨?_, List.nodup_singleton e, rfl⟩, ?_⟩
    · exact ⟨rfl, notNull, by simp [IsChain]⟩
    · intro address
      by_cases same : address = e
      · simp [same]
      · simp [Store.set_other, same]
  · rw [schedulerAddProcess_later notNull empty]
    apply shape.hang _ notNull fresh
    intro none
    exact empty (shape.chain.start_eq_zero_iff.mpr none)

theorem rotated {first : Nat} {rest : List Nat}
    (shape : QueueShape queue (first :: rest)) :
    QueueShape queue.rotated (rest ++ [first]) ∧
      ∀ address, (queue.rotated.elements address).ps =
        (queue.elements address).ps := by
  obtain ⟨startEq, firstNotNull, tail⟩ := shape.chain
  obtain ⟨firstFresh, restNodup⟩ := List.nodup_cons.mp shape.nodup
  subst startEq
  by_cases alone : (queue.elements queue.start).next = 0
  · have noRest := tail.start_eq_zero_iff.mp alone
    subst noRest
    rw [RunQueue.rotated, if_pos alone]
    exact ⟨shape, fun _ => rfl⟩
  · have nonempty : rest ≠ [] := fun none =>
      alone (tail.start_eq_zero_iff.mpr none)
    rw [RunQueue.rotated, if_neg alone]
    have shorter : QueueShape
        { queue with start := (queue.elements queue.start).next } rest := by
      refine ⟨tail, restNodup, ?_⟩
      have stopEq := shape.stop
      rwa [List.getLast?_cons_of_ne_nil nonempty] at stopEq
    obtain ⟨appended, processes⟩ :=
      shorter.hang nonempty firstNotNull firstFresh
    refine ⟨appended, ?_⟩
    intro address
    rw [processes address]
    split_ifs with same
    · rw [same]
    · rfl

end QueueShape

/-- A queue reached by calls in any order, with the processes added so far and
the element blocks that `kmalloc` has handed out for them. -/
inductive SchedulerRun : RunQueue → List Nat → List Nat → Prop where
  | start (elements : Nat → ProcessListElement) :
      SchedulerRun ⟨elements, 0, 0⟩ [] []
  | addFailed {queue added allocated} (p : Nat) :
      SchedulerRun queue added allocated →
      SchedulerRun (schedulerAddProcess p 0 queue).2 added allocated
  | add {queue added allocated} (p e : Nat) :
      SchedulerRun queue added allocated →
      e ≠ 0 →
      e ∉ allocated →
      SchedulerRun (schedulerAddProcess p e queue).2 (p :: added)
        (e :: allocated)
  | schedule {queue added allocated} (processes : Nat → Process) :
      SchedulerRun queue added allocated →
      SchedulerRun (schedulerSchedule processes queue).1 added allocated

/-- The processes of the elements, in queue order. -/
def RunQueue.contents (queue : RunQueue) (nodes : List Nat) : List Nat :=
  nodes.map fun address => (queue.elements address).ps

section Steps

variable {queue : RunQueue} {nodes : List Nat} {p e : Nat}

theorem schedulerAddProcess_null (p : Nat) (queue : RunQueue) :
    schedulerAddProcess p 0 queue = (-1, queue) := by
  simp [schedulerAddProcess]

theorem contents_add (shape : QueueShape queue nodes) (notNull : e ≠ 0)
    (fresh : e ∉ nodes) :
    (schedulerAddProcess p e queue).2.contents (nodes ++ [e]) =
      queue.contents nodes ++ [p] := by
  obtain ⟨_, processes⟩ := shape.add p notNull fresh
  simp only [RunQueue.contents, List.map_append, List.map_cons, List.map_nil,
    processes, if_true]
  congr 1
  apply List.map_congr_left
  intro address member
  rw [if_neg]
  intro same
  exact fresh (same ▸ member)

/-- With a process at its head the queue is rotated by one, and the process
that arrives at the head is dispatched. -/
theorem schedule_head (processes : Nat → Process) {first : Nat}
    {rest : List Nat} (shape : QueueShape queue (first :: rest))
    (hasProcess : (queue.elements first).ps ≠ 0) :
    QueueShape (schedulerSchedule processes queue).1 (rest ++ [first]) ∧
      (schedulerSchedule processes queue).1.contents (rest ++ [first]) =
        (queue.contents (first :: rest)).rotate 1 ∧
      (schedulerSchedule processes queue).2 =
        if ((queue.contents (first :: rest)).rotate 1).headD 0 = 0 then []
        else dispatch (processes
          (((queue.contents (first :: rest)).rotate 1).headD 0)) := by
  obtain ⟨startEq, firstNotNull, _⟩ := shape.chain
  obtain ⟨rotated, sameProcesses⟩ := shape.rotated
  have nonempty : queue.start ≠ 0 := startEq ▸ firstNotNull
  rw [← startEq] at hasProcess
  rw [schedulerSchedule_head nonempty hasProcess]
  have contentsEq : queue.rotated.contents (rest ++ [first]) =
      (queue.contents (first :: rest)).rotate 1 := by
    simp [RunQueue.contents, sameProcesses]
  refine ⟨rotated, contentsEq, ?_⟩
  have headEq : ((queue.contents (first :: rest)).rotate 1).headD 0 =
      (queue.rotated.elements queue.rotated.start).ps := by
    rw [← contentsEq]
    have chain := rotated.chain
    cases rest with
    | nil =>
        simp only [List.nil_append] at chain ⊢
        rw [chain.1]
        rfl
    | cons second rest =>
        simp only [List.cons_append] at chain ⊢
        rw [chain.1]
        rfl
  rw [headEq]

theorem schedule_idle (processes : Nat → Process)
    (shape : QueueShape queue nodes)
    (idle : (queue.contents nodes).headD 0 = 0) :
    schedulerSchedule processes queue = (queue, []) := by
  apply schedulerSchedule_idle
  cases nodes with
  | nil => exact Or.inl shape.chain
  | cons first rest =>
      refine Or.inr ?_
      rw [shape.chain.1]
      exact idle

end Steps

/-- The chain of every reachable queue holds what was added, in elements that
were allocated for it. -/
theorem SchedulerRun.invariant {queue : RunQueue} {added allocated : List Nat}
    (run : SchedulerRun queue added allocated) :
    ∃ nodes, QueueShape queue nodes ∧ (queue.contents nodes).Perm added ∧
      nodes.Perm allocated := by
  induction run with
  | start elements =>
      exact ⟨[], ⟨rfl, List.nodup_nil, rfl⟩, .refl _, .refl _⟩
  | addFailed p run induction =>
      rw [schedulerAddProcess_null]
      exact induction
  | @add queue added allocated p e run notNull unallocated induction =>
      obtain ⟨nodes, shape, sameContents, sameNodes⟩ := induction
      have fresh : e ∉ nodes := fun member =>
        unallocated (sameNodes.mem_iff.mp member)
      refine ⟨nodes ++ [e], (shape.add p notNull fresh).1, ?_, ?_⟩
      · rw [contents_add shape notNull fresh]
        exact List.perm_append_singleton p _ |>.trans (sameContents.cons p)
      · exact List.perm_append_singleton e _ |>.trans (sameNodes.cons e)
  | @schedule queue added allocated processes run induction =>
      obtain ⟨nodes, shape, sameContents, sameNodes⟩ := induction
      by_cases idle : (queue.contents nodes).headD 0 = 0
      · rw [schedule_idle processes shape idle]
        exact ⟨nodes, shape, sameContents, sameNodes⟩
      · cases nodes with
        | nil => exact absurd rfl idle
        | cons first rest =>
            obtain ⟨rotated, contentsEq, _⟩ :=
              schedule_head processes shape idle
            refine ⟨rest ++ [first], rotated, ?_, ?_⟩
            · rw [contentsEq]
              exact (List.rotate_perm _ 1).trans sameContents
            · exact List.perm_append_singleton first rest |>.trans sameNodes

end Newbos
