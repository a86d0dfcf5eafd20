/-
Libet/Wakeup.lean

`EventBase::SafeCall` and the handler of the wakeup channel.

A `SafeCall` is two steps of its thread, `m_tasks.push` and one byte sent on the
wakeup pipe.  The handler takes some bytes off the pipe, as many as one `recv`
returns, and then pops and runs tasks until the queue is empty; a task may call
`SafeCall` itself.  The bytes are all alike, so the pipe is their number.  Steps
of all parties interleave in any order.

Bytes and tasks do not correspond: one `recv` swallows many wakeups, and one
drain runs tasks whose bytes come later.  What holds (`WakeupInv`) is that a
queue with a task in it has somebody on the way to it: a byte in the pipe, the
handler at work, or a thread that has still to send.

Main results: `wakeup_loses_no_task`, and `exists_drain`, by which the loop can
always get to the end of the queue.
-/
import Libet.Lib.Exec
import Libet.SafeQueue
import Mathlib.Logic.Function.Basic

namespace Libet

/-! ### The parties -/

/-- Who calls `SafeCall`: a thread, or the task that the handler runs. -/
inductive Caller (Thread : Type*)
  | thread (t : Thread)
  | task
  deriving DecidableEq, Repr

/-- Where a caller stands. -/
inductive CallPoint
  /-- not in `SafeCall` -/
  | out
  /-- between `m_tasks.push` and `Wakeup` -/
  | pushed
  deriving DecidableEq, Repr

/-- Where the handler of the wakeup channel stands. -/
inductive HandlerPoint (Task : Type*)
  /-- the loop is elsewhere -/
  | idle
  /-- at `m_tasks.pop_wait(&task, 0)` -/
  | popping
  /-- inside `task()` -/
  | running (task : Task)
  deriving DecidableEq, Repr

def HandlerPoint.isRunning {Task : Type*} : HandlerPoint Task → Bool
  | .running _ => true
  | _ => false

/-- The task queue, the number of unread bytes in the wakeup pipe, and where
everybody stands. -/
structure WakeupState (Thread Task : Type*) where
  tasks : SafeQueue Task
  pipe : Nat
  call : Caller Thread → CallPoint
  handler : HandlerPoint Task

/-- What one of the parties does. -/
inductive WakeupLabel (Thread Task : Type*)
  /-- `m_tasks.push(move(task))` in `SafeCall` -/
  | push (p : Caller Thread) (task : Task)
  /-- `Wakeup()` in `SafeCall` -/
  | send (p : Caller Thread)
  /-- the poller calls the handler, whose `recv` returns `n` bytes -/
  | recv (n : Nat)
  /-- `pop_wait`, with a waiting time of 0 -/
  | pop
  /-- `task()` returns -/
  | ret
  deriving DecidableEq, Repr

section Machine

variable {Thread Task : Type*} [DecidableEq Thread]

/-- Nobody has called `SafeCall` yet; `taskCapacity` is the constructor's. -/
def WakeupState.init (taskCapacity : Nat) : WakeupState Thread Task :=
  ⟨SafeQueue.new taskCapacity, 0, fun _ => .out, .idle⟩

/-- One step of one party. -/
def wakeupStep (s : WakeupState Thread Task) :
    WakeupLabel Thread Task → Option (WakeupState Thread Task)
  | .push p task =>
      -- `SafeCall` does not look at what `push` returns
      if s.call p = .out ∧ (p = .task → s.handler.isRunning) then
        some { s with tasks := (s.tasks.push task).2, call := Function.update s.call p .pushed }
      else none
  | .send p =>
      if s.call p = .pushed then
        some { s with pipe := s.pipe + 1, call := Function.update s.call p .out }
      else none
  | .recv n =>
      match s.handler with
      | .idle =>
          if 0 < n ∧ n ≤ min 1024 s.pipe then
            some { s with pipe := s.pipe - n, handler := .popping }
          else none
      | _ => none
  | .pop =>
      match s.handler with
      | .popping =>
          match s.tasks.popWait with
          | (some task, tasks) => some { s with tasks := tasks, handler := .running task }
          | (none, tasks) => some { s with tasks := tasks, handler := .idle }
      | _ => none
  | .ret =>
      match s.handler with
      | .running _ => if s.call .task = .out then some { s with handler := .popping } else none
      | _ => none

/-! ### What is observed -/

/-- What happens to a task. -/
inductive WakeupEvent (Task : Type*)
  /-- `SafeCall` has pushed it -/
  | pushed (task : Task)
  /-- the handler has popped it and runs it -/
  | ran (task : Task)
  deriving DecidableEq, Repr

/-- The events of one step. -/
def wakeupEvents (s : WakeupState Thread Task) : WakeupLabel Thread Task → List (WakeupEvent Task)
  | .push _ task => [.pushed task]
  | .pop => (s.tasks.popWait.1.map .ran).toList
  | _ => []

def WakeupEvent.pushedOf : WakeupEvent Task → Option Task
  | .pushed task => some task
  | .ran _ => none

def WakeupEvent.ranOf : WakeupEvent Task → Option Task
  | .ran task => some task
  | .pushed _ => none

/-- The tasks that were pushed, in order. -/
def pushedTasks (l : List (WakeupEvent Task)) : List Task := l.filterMap WakeupEvent.pushedOf

/-- The tasks that were run, in order. -/
def ranTasks (l : List (WakeupEvent Task)) : List Task := l.filterMap WakeupEvent.ranOf

end Machine

/-! ### The invariant -/

section Invariant

variable {Thread Task : Type*}

namespace WakeupState

/-- Somebody is on the way to the queue. -/
def Awake (s : WakeupState Thread Task) : Prop :=
  0 < s.pipe ∨ s.handler ≠ .idle ∨ ∃ p, s.call p = .pushed

/-- The handler is idle, no `SafeCall` is between its push and its send, and the
pipe holds no unread byte. -/
def Quiescent (s : WakeupState Thread Task) : Prop :=
  s.handler = .idle ∧ (∀ p, s.call p = .out) ∧ s.pipe = 0

/-- The handler at work is on the way to the queue. -/
theorem Awake.of_popping {s : WakeupState Thread Task} (h : s.handler = .popping) : s.Awake := by
  right
  left
  rw [h]
  intro he
  cases he

theorem Awake.of_running {s : WakeupState Thread Task} {task : Task}
    (h : s.handler = .running task) : s.Awake := by
  right
  left
  rw [h]
  intro he
  cases he

theorem Quiescent.not_awake {s : WakeupState Thread Task} (h : s.Quiescent) : ¬ s.Awake := by
  obtain ⟨hidle, hout, hpipe⟩ := h
  rintro (hpos | hbusy | ⟨p, hp⟩)
  · exact absurd hpipe (Nat.ne_of_gt hpos)
  · exact hbusy hidle
  · rw [hout p] at hp
    cases hp

end WakeupState

/-- The invariant of all parties, with what has happened so far. -/
structure WakeupInv (s : WakeupState Thread Task) (l : List (WakeupEvent Task)) : Prop where
  unbounded : s.tasks.capacity = 0 ∧ s.tasks.exited = false
  account : pushedTasks l = ranTasks l ++ s.tasks.items
  awake : s.tasks.items ≠ [] → s.Awake
  /-- only a running task can be inside `SafeCall` -/
  task_out : s.handler.isRunning = false → s.call .task = .out

theorem wakeupInv_init : WakeupInv (WakeupState.init 0 : WakeupState Thread Task) [] where
  unbounded := ⟨rfl, rfl⟩
  account := rfl
  awake h := absurd rfl h
  task_out _ := rfl

variable {s s' : WakeupState Thread Task} {l : List (WakeupEvent Task)}

/-- A step that leaves the queue alone. -/
theorem WakeupInv.quiet (h : WakeupInv s l) (htasks : s'.tasks = s.tasks)
    (hawake : s.tasks.items ≠ [] → s'.Awake)
    (hout : s'.handler.isRunning = false → s'.call .task = .out) : WakeupInv s' (l ++ []) := by
  rw [List.append_nil]
  constructor
  · rw [htasks]
    exact h.unbounded
  · rw [htasks]
    exact h.account
  · rw [htasks]
    exact hawake
  · exact hout

/-- The handler takes the front task and runs it. -/
theorem WakeupInv.ran (h : WakeupInv s l) {task : Task} {rest : List Task}
    (hitems : s.tasks.items = task :: rest) :
    WakeupInv { s with tasks := { s.tasks with items := rest }, handler := .running task }
      (l ++ [.ran task]) := by
  have hacc := h.account
  rw [hitems] at hacc
  refine ⟨h.unbounded, ?_, fun _ => .of_running rfl, fun hrun => by cases hrun⟩
  simp only [pushedTasks, ranTasks, List.filterMap_append] at hacc ⊢
  rw [hacc, List.append_assoc]
  simp [WakeupEvent.pushedOf, WakeupEvent.ranOf]

variable [DecidableEq Thread]

/-- A caller pushes a task, and has still to send. -/
theorem WakeupInv.push (h : WakeupInv s l) {p : Caller Thread}
    (hen : p = .task → s.handler.isRunning) (task : Task) :
    WakeupInv { s with tasks := (s.tasks.push task).2, call := Function.update s.call p .pushed }
      (l ++ [.pushed task]) := by
  rw [SafeQueue.push_unbounded h.unbounded.1 h.unbounded.2]
  constructor
  · exact h.unbounded
  · simp only [pushedTasks, ranTasks, List.filterMap_append]
    rw [← pushedTasks, ← ranTasks, h.account, List.append_assoc]
    simp [WakeupEvent.pushedOf, WakeupEvent.ranOf]
  · intro _
    exact Or.inr (Or.inr ⟨p, Function.update_self ..⟩)
  · intro hrun
    have hp : .task ≠ p := by
      rintro rfl
      exact absurd (hen rfl) (by rw [hrun]; exact Bool.false_ne_true)
    show Function.update s.call p .pushed .task = .out
    rw [Function.update_of_ne hp]
    exact h.task_out hrun

theorem WakeupInv.step {a : WakeupLabel Thread Task} (hstep : wakeupStep s a = some s')
    (h : WakeupInv s l) : WakeupInv s' (l ++ wakeupEvents s a) := by
  cases a with
  | push p task =>
      simp only [wakeupStep] at hstep
      split at hstep
      · rename_i hen
        cases hstep
        exact h.push hen.2 task
      · cases hstep
  | send p =>
      simp only [wakeupStep] at hstep
      split at hstep
      · cases hstep
        apply h.quiet
        · rfl
        · intro _
          exact Or.inl (Nat.succ_pos _)
        · intro hrun
          show Function.update s.call p .out .task = .out
          rw [Function.update_apply]
          split
          · rfl
          · exact h.task_out hrun
      · cases hstep
  | recv n =>
      simp only [wakeupStep] at hstep
      split at hstep
      · rename_i hidle
        split at hstep
        · cases hstep
          apply h.quiet
          · rfl
          · intro _
            exact .of_popping rfl
          · intro _
            apply h.task_out
            rw [hidle]
            rfl
        · cases hstep
      · cases hstep
  | pop =>
      simp only [wakeupStep] at hstep
      split at hstep
      · rename_i hpop
        rcases SafeQueue.popWait_cases (q := s.tasks) with ⟨hitems, heq⟩ | ⟨task, rest, hitems, heq⟩
        · -- the queue was empty, and still is
          rw [heq] at hstep
          cases hstep
          rw [wakeupEvents, heq]
          apply h.quiet
          · rfl
          · intro hne
            exact absurd hitems hne
          · intro _
            apply h.task_out
            rw [hpop]
            rfl
        · rw [heq] at hstep
          cases hstep
          rw [wakeupEvents, heq]
          exact h.ran hitems
      · cases hstep
  | ret =>
      simp only [wakeupStep] at hstep
      split at hstep
      · split at hstep
        · rename_i hout
          cases hstep
          apply h.quiet
          · rfl
          · intro _
            exact .of_popping rfl
          · intro _
            exact hout
        · cases hstep
      · cases hstep

theorem wakeupInv_of_run {as : List (WakeupLabel Thread Task)}
    (h : Exec.exec wakeupStep (WakeupState.init 0) as = some s) :
    WakeupInv s (Exec.trace wakeupStep wakeupEvents (WakeupState.init 0) as) :=
  Exec.history (fun _ _ _ _ hstep hi => WakeupInv.step hstep hi) h wakeupInv_init

/-! ### No task is lost -/

/-- **The wakeup protocol loses no task.**  However the steps of any number of
threads, of the handler and of the tasks it runs interleave: the tasks that were
run are the first of those that were pushed, in the same order and each once;
and when the handler is idle, no `SafeCall` is between its push and its send,
and the pipe is empty, then the queue is empty and every task was run. -/
theorem wakeup_loses_no_task {as : List (WakeupLabel Thread Task)}
    (h : Exec.exec wakeupStep (WakeupState.init 0) as = some s) :
    ranTasks (Exec.trace wakeupStep wakeupEvents (WakeupState.init 0) as) <+:
        pushedTasks (Exec.trace wakeupStep wakeupEvents (WakeupState.init 0) as) ∧
      (s.Quiescent → s.tasks.items = [] ∧
        ranTasks (Exec.trace wakeupStep wakeupEvents (WakeupState.init 0) as) =
          pushedTasks (Exec.trace wakeupStep wakeupEvents (WakeupState.init 0) as)) := by
  have hinv := wakeupInv_of_run h
  refine ⟨⟨s.tasks.items, hinv.account.symm⟩, fun hquiet => ?_⟩
  have hempty : s.tasks.items = [] := by
    by_contra hne
    exact hquiet.not_awake (hinv.awake hne)
  refine ⟨hempty, ?_⟩
  rw [hinv.account, hempty, List.append_nil]

/-- Two threads push; the handler is woken by the byte of the first, runs both
tasks, of which the first calls `SafeCall` itself, and goes idle before the
second thread sends. -/
theorem wakeup_loses_no_task_late_byte :
    ∃ s : WakeupState Bool Nat, Exec.exec wakeupStep (WakeupState.init 0)
        [.push (.thread true) 1, .push (.thread false) 2, .send (.thread true), .recv 1, .pop,
          .push .task 3, .send .task, .ret, .pop, .ret, .pop, .ret, .pop, .recv 1, .pop,
          .send (.thread false), .recv 1, .pop] = some s ∧ s.Quiescent ∧
      s.tasks.items = [] ∧
      ranTasks (Exec.trace wakeupStep wakeupEvents (WakeupState.init 0 : WakeupState Bool Nat)
        [.push (.thread true) 1, .push (.thread false) 2, .send (.thread true), .recv 1, .pop,
          .push .task 3, .send .task, .ret, .pop, .ret, .pop, .ret, .pop, .recv 1, .pop,
          .send (.thread false), .recv 1, .pop]) = [1, 2, 3] := by
  obtain ⟨s, hrun, hquiet⟩ : ∃ s, Exec.exec wakeupStep
      (WakeupState.init 0 : WakeupState Bool Nat)
      [.push (.thread true) 1, .push (.thread false) 2, .send (.thread true), .recv 1, .pop,
        .push .task 3, .send .task, .ret, .pop, .ret, .pop, .ret, .pop, .recv 1, .pop,
        .send (.thread false), .recv 1, .pop] = some s ∧ s.Quiescent := by
    refine ⟨_, rfl, rfl, fun p => ?_, rfl⟩
    rcases p with (_ | _) | _ <;> rfl
  obtain ⟨hempty, hran⟩ := (wakeup_loses_no_task hrun).2 hquiet
  exact ⟨s, hrun, hquiet, hempty, hran⟩

/-! ### The loop can always get to the end -/

/-- The step is not a new push. -/
def WakeupLabel.isPush : WakeupLabel Thread Task → Bool
  | .push _ _ => true
  | _ => false

/-- Without a new push the parties can get to an empty queue. -/
def Drains (s : WakeupState Thread Task) : Prop :=
  ∃ bs s', Exec.exec wakeupStep s bs = some s' ∧ (∀ b ∈ bs, b.isPush = false) ∧
    s'.tasks.items = []

theorem Drains.nil (h : s.tasks.items = []) : Drains s := by
  refine ⟨[], s, rfl, ?_, h⟩
  intro b hb
  cases hb

theorem Drains.cons {b : WakeupLabel Thread Task} (hstep : wakeupStep s b = some s')
    (hb : b.isPush = false) (h : Drains s') : Drains s := by
  obtain ⟨bs, t, hrun, hbs, hempty⟩ := h
  refine ⟨b :: bs, t, ?_, ?_, hempty⟩
  · rw [Exec.exec_cons, hstep]
    exact hrun
  · intro c hc
    rcases List.mem_cons.mp hc with rfl | hc
    · exact hb
    · exact hbs c hc

/-- Whoever is between its push and its send sends. -/
theorem Drains.send {p : Caller Thread} (hp : s.call p = .pushed)
    (h : Drains { s with pipe := s.pipe + 1, call := Function.update s.call p .out }) :
    Drains s :=
  .cons (b := .send p) (if_pos hp) rfl h

/-- The handler at its `pop_wait` runs one task after the other. -/
theorem drains_popping (items : List Task) : ∀ s : WakeupState Thread Task,
    s.tasks.items = items → s.handler = .popping → s.call .task = .out → Drains s := by
  induction items with
  | nil =>
      intro s hitems _ _
      exact .nil hitems
  | cons task rest ih =>
      intro s hitems hpop hout
      let q : SafeQueue Task := { s.tasks with items := rest }
      have hstep : wakeupStep s .pop =
          some { s with tasks := q, handler := .running task } := by
        simp only [wakeupStep, hpop, SafeQueue.popWait, hitems]
        rfl
      have hret : wakeupStep { s with tasks := q, handler := .running task } .ret =
          some { s with tasks := q, handler := .popping } := if_pos hout
      exact .cons hstep rfl (.cons hret rfl (ih _ rfl rfl hout))

theorem WakeupInv.drains (h : WakeupInv s l) : Drains s := by
  cases hhandler : s.handler with
  | popping =>
      exact drains_popping _ s rfl hhandler (h.task_out (by rw [hhandler]; rfl))
  | running task =>
      -- the task finishes the `SafeCall` it may be in, and returns
      have hret : ∀ s : WakeupState Thread Task, s.handler = .running task →
          s.call .task = .out → Drains s := by
        intro s hrun hout
        have hstep : wakeupStep s .ret = some { s with handler := .popping } := by
          simp only [wakeupStep, hrun, hout, if_true]
        exact .cons hstep rfl (drains_popping _ _ rfl rfl hout)
      cases hcall : s.call .task with
      | out => exact hret s hhandler hcall
      | pushed =>
          refine .send hcall (hret _ hhandler ?_)
          show Function.update s.call .task .out .task = .out
          exact Function.update_self ..
  | idle =>
      by_cases hitems : s.tasks.items = []
      · exact .nil hitems
      have hout : s.call .task = .out := h.task_out (by rw [hhandler]; rfl)
      have hrecv : ∀ s : WakeupState Thread Task, s.handler = .idle → 0 < s.pipe →
          s.call .task = .out → Drains s := by
        intro s hidle hpos hout
        have hstep : wakeupStep s (.recv 1) =
            some { s with pipe := s.pipe - 1, handler := .popping } := by
          simp only [wakeupStep, hidle]
          exact if_pos ⟨Nat.one_pos, Nat.le_min.mpr ⟨by decide, hpos⟩⟩
        exact .cons hstep rfl (drains_popping _ _ rfl rfl hout)
      rcases h.awake hitems with hpos | hbusy | ⟨p, hp⟩
      · exact hrecv s hhandler hpos hout
      · exact absurd hhandler hbusy
      · -- a thread has still to send its byte, which wakes the handler
        have hne : .task ≠ p := by
          rintro rfl
          rw [hp] at hout
          cases hout
        refine .send hp (hrecv _ hhandler (Nat.succ_pos _) ?_)
        exact (Function.update_of_ne hne ..).trans hout

/-- Steps that are not pushes push nothing. -/
theorem pushedTasks_of_not_isPush {bs : List (WakeupLabel Thread Task)}
    (hbs : ∀ b ∈ bs, b.isPush = false) : ∀ s : WakeupState Thread Task,
    pushedTasks (Exec.trace wakeupStep wakeupEvents s bs) = [] := by
  induction bs with
  | nil => exact fun _ => rfl
  | cons b bs ih =>
      intro s
      have hout : pushedTasks (wakeupEvents s b) = [] := by
        cases b with
        | push p task => cases hbs _ List.mem_cons_self
        | pop =>
            simp only [wakeupEvents]
            cases s.tasks.popWait.1 <;> rfl
        | send p => rfl
        | recv n => rfl
        | ret => rfl
      simp only [Exec.trace]
      split
      · rfl
      · simp only [pushedTasks, List.filterMap_append] at hout ⊢
        rw [hout, List.nil_append]
        exact ih (fun c hc => hbs c (List.mem_cons_of_mem _ hc)) _

/-- **The loop can always get to the end of the queue.**  From every reachable
state, without any new `SafeCall`, the parties can go on until exactly the tasks
pushed so far have been run. -/
theorem exists_drain {as : List (WakeupLabel Thread Task)}
    (h : Exec.exec wakeupStep (WakeupState.init 0) as = some s) :
    ∃ bs s', (∀ b ∈ bs, b.isPush = false) ∧
      Exec.exec wakeupStep (WakeupState.init 0) (as ++ bs) = some s' ∧
      ranTasks (Exec.trace wakeupStep wakeupEvents (WakeupState.init 0) (as ++ bs)) =
        pushedTasks (Exec.trace wakeupStep wakeupEvents (WakeupState.init 0) as) := by
  obtain ⟨bs, s', hrun, hbs, hempty⟩ := (wakeupInv_of_run h).drains
  have hall : Exec.exec wakeupStep (WakeupState.init 0) (as ++ bs) = some s' := by
    rw [Exec.exec_append, h]
    exact hrun
  refine ⟨bs, s', hbs, hall, ?_⟩
  have hacc := (wakeupInv_of_run hall).account
  rw [hempty, List.append_nil] at hacc
  rw [← hacc, Exec.trace_append h]
  simp only [pushedTasks, List.filterMap_append]
  rw [← pushedTasks, ← pushedTasks, pushedTasks_of_not_isPush hbs, List.append_nil]

end Invariant

end Libet
