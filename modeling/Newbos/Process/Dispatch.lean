import Newbos.Process.Create

/-!
# Windows of scheduler calls

As many consecutive calls of `scheduler_schedule` as the queue has elements.
Without null pointers in the queue they reach every process; a null pointer
that arrives at the head stays there.
-/

namespace Newbos

/-- A number of consecutive calls: the queue they leave and what they do. -/
def scheduleCalls (processes : Nat → Process) :
    Nat → RunQueue → RunQueue × List SchedulerAction
  | 0, queue => (queue, [])
  | calls + 1, queue =>
      let first := schedulerSchedule processes queue
      let later := scheduleCalls processes calls first.1
      (later.1, first.2 ++ later.2)

/-- The three calls that run a process in user mode. -/
def switchTo (process : Process) : List SchedulerAction :=
  [.tssSetKernelStack segselKernelDs process.kernelStackStartVaddr,
    .pdtLoadProcessPdt process.pdt process.pdtPaddr,
    .runProcessInUserMode process.current]

/-- As many calls as there are elements switch to the process of every element
that has one, once each and in some order. -/
def DispatchesEach (processes : Nat → Process) (queue : RunQueue)
    (nodes : List Nat) : Prop :=
  ∃ order : List Nat,
    order.Perm ((queue.contents nodes).filter (· ≠ 0)) ∧
      (scheduleCalls processes nodes.length queue).2 =
        order.flatMap fun p => switchTo (processes p)

/-- The processes that a number of calls dispatches, on the functional
queue. -/
def dispatched : Nat → List Nat → List Nat
  | 0, _ => []
  | calls + 1, contents =>
      if contents.headD 0 = 0 ∨ (contents.rotate 1).headD 0 = 0 then []
      else (contents.rotate 1).headD 0 :: dispatched calls (contents.rotate 1)

section Functional

variable {contents : List Nat} {calls : Nat}

theorem dispatched_null (idle : contents.headD 0 = 0) :
    dispatched calls contents = [] := by
  cases calls with
  | zero => rfl
  | succ calls => rw [dispatched, if_pos (Or.inl idle)]

theorem dispatched_eq_take (noNull : ∀ p ∈ contents, p ≠ 0)
    (window : calls ≤ contents.length) :
    dispatched calls contents = (contents.rotate 1).take calls := by
  induction calls generalizing contents with
  | zero => rfl
  | succ calls induction =>
      have headNotNull : ∀ queue : List Nat, queue ≠ [] →
          (∀ p ∈ queue, p ≠ 0) → queue.headD 0 ≠ 0 := by
        intro queue nonempty live
        obtain ⟨head, tail, rfl⟩ := List.exists_cons_of_ne_nil nonempty
        exact live head List.mem_cons_self
      have nonempty : contents ≠ [] := by
        intro empty
        subst empty
        exact absurd window (Nat.not_succ_le_zero calls)
      have rotatedNoNull : ∀ p ∈ contents.rotate 1, p ≠ 0 :=
        fun p member => noNull p (List.mem_rotate.mp member)
      have later := induction rotatedNoNull (by
        rw [List.length_rotate]
        omega)
      obtain ⟨next, rest, rotated⟩ : ∃ next rest,
          contents.rotate 1 = next :: rest := by
        apply List.exists_cons_of_ne_nil
        rwa [Ne, List.rotate_eq_nil_iff]
      have lengths := congrArg List.length rotated
      rw [List.length_rotate, List.length_cons] at lengths
      have running : ¬(contents.headD 0 = 0 ∨
          (contents.rotate 1).headD 0 = 0) := by
        rw [not_or]
        refine ⟨headNotNull _ nonempty noNull, headNotNull _ ?_ rotatedNoNull⟩
        rw [rotated]
        exact List.cons_ne_nil next rest
      rw [dispatched, if_neg running, later, rotated, List.rotate_cons_succ,
        List.rotate_zero, List.take_append_of_le_length (by omega)]
      rfl

/-- The processes in front of the first null pointer are all that is ever
dispatched, without the one at the head. -/
theorem dispatched_length_le {before after : List Nat}
    (noNull : ∀ p ∈ before, p ≠ 0) :
    (dispatched calls (before ++ 0 :: after)).length ≤ before.length - 1 := by
  induction before generalizing after calls with
  | nil =>
      rw [List.nil_append, dispatched_null rfl]
      exact Nat.le_refl 0
  | cons first rest induction =>
      cases calls with
      | zero => exact Nat.zero_le _
      | succ calls =>
          cases rest with
          | nil => simp [dispatched]
          | cons second rest =>
              have later : (dispatched calls
                  (second :: rest ++ 0 :: (after ++ [first]))).length ≤
                    (second :: rest).length - 1 :=
                induction fun p member =>
                  noNull p (List.mem_cons_of_mem first member)
              have rotated : (first :: second :: rest ++ 0 :: after).rotate 1 =
                  second :: rest ++ 0 :: (after ++ [first]) := by
                simp
              rw [dispatched, rotated]
              split_ifs
              · exact Nat.zero_le _
              · simp only [List.length_cons] at later ⊢
                omega

end Functional

section Windows

variable {processes : Nat → Process} {queue : RunQueue} {nodes : List Nat}
  {calls : Nat}

theorem scheduleCalls_actions (shape : QueueShape queue nodes) (calls : Nat) :
    (scheduleCalls processes calls queue).2 =
      (dispatched calls (queue.contents nodes)).flatMap
        fun p => dispatch (processes p) := by
  induction calls generalizing queue nodes with
  | zero => rfl
  | succ calls induction =>
      by_cases idle : (queue.contents nodes).headD 0 = 0
      · have same := induction shape
        rw [dispatched_null idle] at same ⊢
        rw [scheduleCalls, schedule_idle processes shape idle]
        exact same
      · cases nodes with
        | nil => exact absurd rfl idle
        | cons first rest =>
            obtain ⟨rotated, contentsEq, actions⟩ :=
              schedule_head processes shape idle
            have later := induction rotated
            rw [contentsEq] at later
            rw [scheduleCalls, dispatched]
            simp only
            rw [later, actions]
            by_cases arrived :
                ((queue.contents (first :: rest)).rotate 1).headD 0 = 0
            · rw [if_pos arrived, if_pos (Or.inr arrived),
                dispatched_null arrived]
              rfl
            · rw [if_neg arrived, if_neg (not_or.mpr ⟨idle, arrived⟩)]
              rfl

theorem dispatch_user {process : Process}
    (user : process.current.cs ≠ segselKernelCs) :
    dispatch process = switchTo process := by
  rw [dispatch, if_neg user]
  rfl

theorem dispatch_length_le (process : Process) :
    (dispatch process).length ≤ 3 := by
  rw [dispatch]
  split_ifs <;> simp

theorem flatMap_dispatch_length_le (processes : Nat → Process)
    (order : List Nat) :
    (order.flatMap fun p => dispatch (processes p)).length ≤
      3 * order.length := by
  induction order with
  | nil => exact Nat.le_refl 0
  | cons p rest induction =>
      have first := dispatch_length_le (processes p)
      rw [List.flatMap_cons, List.length_append, List.length_cons]
      omega

theorem flatMap_switchTo_length (processes : Nat → Process)
    (order : List Nat) :
    (order.flatMap fun p => switchTo (processes p)).length =
      3 * order.length := by
  induction order with
  | nil => rfl
  | cons p rest induction =>
      rw [List.flatMap_cons, List.length_append, induction, List.length_cons,
        Nat.mul_succ, Nat.add_comm]
      rfl

/-- A queue with a null pointer and a process leaves some process out. -/
theorem not_dispatchesEach (shape : QueueShape queue nodes)
    (null : 0 ∈ queue.contents nodes)
    (live : ∃ p ∈ queue.contents nodes, p ≠ 0) :
    ¬DispatchesEach processes queue nodes := by
  rintro ⟨order, each, actions⟩
  obtain ⟨before, after, contentsEq, noNull⟩ :=
    List.eq_append_cons_of_mem null
  have few := @dispatched_length_le nodes.length before after
    fun p member isNull => noNull (isNull ▸ member)
  have someProcess : 0 < order.length := by
    obtain ⟨p, member, notNull⟩ := live
    have inOrder : p ∈ order := by
      apply each.mem_iff.mpr
      exact List.mem_filter.mpr ⟨member, by simpa using notNull⟩
    exact List.length_pos_of_mem inOrder
  have enough : before.length ≤ order.length := by
    have kept : before.filter (· ≠ 0) = before := by
      apply List.filter_eq_self.mpr
      intro p member
      simpa using fun isNull : p = 0 => noNull (isNull ▸ member)
    rw [each.length_eq, contentsEq, List.filter_append, List.length_append,
      kept]
    exact Nat.le_add_right _ _
  have most := flatMap_dispatch_length_le processes
    (dispatched nodes.length (queue.contents nodes))
  rw [← scheduleCalls_actions shape, actions, flatMap_switchTo_length,
    contentsEq] at most
  omega

theorem dispatchesEach_of_noNull (shape : QueueShape queue nodes)
    (user : ∀ p ∈ queue.contents nodes,
      (processes p).current.cs ≠ segselKernelCs)
    (noNull : ∀ p ∈ queue.contents nodes, p ≠ 0) :
    DispatchesEach processes queue nodes := by
  have lengths : (queue.contents nodes).length = nodes.length :=
    List.length_map _
  refine ⟨(queue.contents nodes).rotate 1, ?_, ?_⟩
  · rw [List.filter_eq_self.mpr (by simpa using noNull)]
    exact List.rotate_perm _ 1
  · rw [scheduleCalls_actions shape,
      dispatched_eq_take noNull (Nat.le_of_eq lengths.symm),
      List.take_of_length_le (by rw [List.length_rotate, lengths])]
    apply List.flatMap_congr
    intro p member
    exact dispatch_user (user p (List.mem_rotate.mp member))

theorem dispatchesEach_of_allNull (shape : QueueShape queue nodes)
    (allNull : ∀ p ∈ queue.contents nodes, p = 0) :
    DispatchesEach processes queue nodes := by
  have idle : (queue.contents nodes).headD 0 = 0 := by
    cases nodes with
    | nil => rfl
    | cons first rest => exact allNull _ List.mem_cons_self
  refine ⟨[], ?_, ?_⟩
  · rw [List.filter_eq_nil_iff.mpr (by simpa using allNull)]
  · rw [scheduleCalls_actions shape, dispatched_null idle]
    rfl

end Windows

/-- In every reachable state, as many calls as the queue has elements switch to
the process of every element that has one exactly when null pointers and
processes were not mixed in what was added. -/
theorem round_robin_dispatches_each_iff {queue : RunQueue}
    {added allocated : List Nat} (run : SchedulerRun queue added allocated)
    (processes : Nat → Process)
    (user : ∀ p ∈ added, p ≠ 0 →
      (processes p).current.cs ≠ segselKernelCs) :
    ∃ nodes, QueueShape queue nodes ∧
      (queue.contents nodes).Perm added ∧
      (DispatchesEach processes queue nodes ↔
        (∀ p ∈ added, p ≠ 0) ∨ ∀ p ∈ added, p = 0) := by
  obtain ⟨nodes, shape, sameContents, -⟩ := run.invariant
  refine ⟨nodes, shape, sameContents, ?_, ?_⟩
  · intro each
    by_contra mixed
    push Not at mixed
    obtain ⟨⟨null, nullAdded, isNull⟩, p, processAdded, notNull⟩ := mixed
    subst isNull
    exact not_dispatchesEach shape (sameContents.mem_iff.mpr nullAdded)
      ⟨p, sameContents.mem_iff.mpr processAdded, notNull⟩ each
  · intro unmixed
    cases unmixed with
    | inl noNull =>
        apply dispatchesEach_of_noNull shape
        · intro p member
          have isAdded := sameContents.mem_iff.mp member
          exact user p isAdded (noNull p isAdded)
        · exact fun p member => noNull p (sameContents.mem_iff.mp member)
    | inr allNull =>
        apply dispatchesEach_of_allNull shape
        exact fun p member => allNull p (sameContents.mem_iff.mp member)

/-- Records of processes about to enter user mode. -/
def userProcesses (p : Nat) : Process :=
  { initialProcess p with current := (initialProcess p).userMode }

theorem round_robin_dispatches_each_iff_twoProcesses :
    ∃ queue, SchedulerRun queue [7, 5] [32, 16] ∧
      ∃ nodes, QueueShape queue nodes ∧
        (queue.contents nodes).Perm [7, 5] ∧
        (DispatchesEach userProcesses queue nodes ↔
          (∀ p ∈ [7, 5], p ≠ 0) ∨ ∀ p ∈ [7, 5], p = 0) := by
  have run := SchedulerRun.add 7 32
    (SchedulerRun.add 5 16 (SchedulerRun.start fun _ => ⟨0, 0⟩)
      (by decide) (by decide)) (by decide) (by decide)
  refine ⟨_, run, round_robin_dispatches_each_iff run userProcesses ?_⟩
  intro p _ _
  have user : segselUserSpaceCs ||| 0x03 ≠ segselKernelCs := by decide
  exact user

/-- A null pointer in front of a process keeps it from ever running. -/
theorem round_robin_stops_at_null :
    ∃ queue, SchedulerRun queue [5, 0] [32, 16] ∧
      ∀ nodes, QueueShape queue nodes →
        ¬DispatchesEach userProcesses queue nodes := by
  have run := SchedulerRun.add 5 32
    (SchedulerRun.add 0 16 (SchedulerRun.start fun _ => ⟨0, 0⟩)
      (by decide) (by decide)) (by decide) (by decide)
  refine ⟨_, run, ?_⟩
  intro nodes shape
  obtain ⟨known, knownShape, sameContents, -⟩ := run.invariant
  have sameNodes := knownShape.chain.unique shape.chain
  subst sameNodes
  exact not_dispatchesEach shape
    (sameContents.mem_iff.mpr (by decide))
    ⟨5, sameContents.mem_iff.mpr (by decide), by decide⟩

end Newbos
