/-
Libet/SafeCall.lean

`EventBase::SafeCall` on a queue of any capacity, under every scheduling.

`SafeCall` does not look at what `push` returns: on a full queue the task is
dropped, and the byte is sent all the same.  What the loop owes for one call is at
most its byte, the `recv` and the last `pop_wait` of the drain that the byte starts,
and the `pop_wait` and the return of its task (`WakeupState.Owes`): no step but a new
push makes that more, so without new calls all parties come to rest.

* `WakeupMove` — what a step of the machine can do.
* `WakeupLog` — what was accepted, and what of it was run.

Main result: `safeCall_of_run`.
-/
import Libet.Wakeup
import Mathlib.Data.Finset.Card

namespace Libet

variable {Thread Task : Type*} {s s' : WakeupState Thread Task}

/-! ### What a step does -/

section Moves

variable [DecidableEq Thread]

/-- The steps of `wakeupStep`, each with what it needs. -/
inductive WakeupMove (s : WakeupState Thread Task) :
    WakeupLabel Thread Task → WakeupState Thread Task → Prop
  | push {p : Caller Thread} {task : Task} (hout : s.call p = .out) :
      WakeupMove s (.push p task)
        { s with tasks := (s.tasks.push task).2, call := Function.update s.call p .pushed }
  | send {p : Caller Thread} (hpushed : s.call p = .pushed) :
      WakeupMove s (.send p)
        { s with pipe := s.pipe + 1, call := Function.update s.call p .out }
  | recv {n : Nat} (hidle : s.handler = .idle) (hpos : 0 < n) (hle : n ≤ s.pipe) :
      WakeupMove s (.recv n) { s with pipe := s.pipe - n, handler := .popping }
  | drained (hpop : s.handler = .popping) (hitems : s.tasks.items = []) :
      WakeupMove s .pop { s with handler := .idle }
  | pop {task : Task} {rest : List Task} (hpop : s.handler = .popping)
      (hitems : s.tasks.items = task :: rest) :
      WakeupMove s .pop
        { s with tasks := { s.tasks with items := rest }, handler := .running task }
  | ret {task : Task} (hrun : s.handler = .running task) :
      WakeupMove s .ret { s with handler := .popping }

theorem wakeupMove_of_wakeupStep {a : WakeupLabel Thread Task}
    (hstep : wakeupStep s a = some s') : WakeupMove s a s' := by
  cases a with
  | push p task =>
      simp only [wakeupStep] at hstep
      split at hstep
      · rename_i hen
        cases hstep
        exact .push hen.1
      · cases hstep
  | send p =>
      simp only [wakeupStep] at hstep
      split at hstep
      · rename_i hpushed
        cases hstep
        exact .send hpushed
      · cases hstep
  | recv n =>
      simp only [wakeupStep] at hstep
      split at hstep
      · rename_i hidle
        split at hstep
        · rename_i hn
          cases hstep
          exact .recv hidle hn.1 (hn.2.trans (Nat.min_le_right ..))
        · cases hstep
      · cases hstep
  | pop =>
      simp only [wakeupStep] at hstep
      split at hstep
      · rename_i hpop
        obtain ⟨hitems, heq⟩ | ⟨task, rest, hitems, heq⟩ :=
          SafeQueue.popWait_cases (q := s.tasks)
        · rw [heq] at hstep
          cases hstep
          exact .drained hpop hitems
        · rw [heq] at hstep
          cases hstep
          exact .pop hpop hitems
      · cases hstep
  | ret =>
      simp only [wakeupStep] at hstep
      split at hstep
      · rename_i task hrun
        split at hstep
        · cases hstep
          exact .ret hrun
        · cases hstep
      · cases hstep

end Moves

/-! ### What is still to be done -/

/-- How far the handler is from going idle, if the queue is empty. -/
def HandlerPoint.rank : HandlerPoint Task → Nat
  | .idle => 0
  | .popping => 1
  | .running _ => 2

/-- No more than `n` steps are still to be done for the calls of `SafeCall` so far.
The callers in `inside` have still to send; a byte is good for one `recv` and the end
of one drain, a task for its `pop_wait` and its return. -/
def WakeupState.Owes (s : WakeupState Thread Task) (n : Nat) : Prop :=
  ∃ inside : Finset (Caller Thread), (∀ p, p ∈ inside ↔ s.call p = .pushed) ∧
    n = 3 * inside.card + 2 * s.pipe + 2 * s.tasks.items.length + s.handler.rank

theorem WakeupState.owes_init (c : Nat) :
    (WakeupState.init c : WakeupState Thread Task).Owes 0 := by
  refine ⟨∅, fun p => ?_, rfl⟩
  constructor
  · intro hp
    exact absurd hp (Finset.notMem_empty p)
  · intro hp
    cases hp

/-- A push adds at most one task. -/
theorem SafeQueue.length_push_le {q : SafeQueue Task} {task : Task} :
    (q.push task).2.items.length ≤ q.items.length + 1 := by
  rcases SafeQueue.push_cases (q := q) (v := task) with heq | heq
  · rw [heq]
    exact Nat.le_succ _
  · rw [heq, List.length_append]
    rfl

section Steps

variable [DecidableEq Thread]

/-- **Every step pays for itself**, and a push for what it asks for. -/
theorem WakeupState.Owes.step {a : WakeupLabel Thread Task} {n : Nat} (h : s.Owes n)
    (hmove : WakeupMove s a s') :
    ∃ n', s'.Owes n' ∧ n' + 1 ≤ n + (if a.isPush then 6 else 0) := by
  obtain ⟨inside, hinside, rfl⟩ := h
  cases hmove with
  | @push p task hout =>
      have hnot : p ∉ inside := fun hp => by
        rw [(hinside p).mp hp] at hout
        cases hout
      refine ⟨_, ⟨insert p inside, fun p' => ?_, rfl⟩, ?_⟩
      · show p' ∈ insert p inside ↔ Function.update s.call p .pushed p' = .pushed
        rw [Finset.mem_insert, Function.update_apply, hinside]
        by_cases hp' : p' = p <;> simp [hp']
      · have hlen : (s.tasks.push task).2.items.length ≤ _ := SafeQueue.length_push_le
        rw [Finset.card_insert_of_notMem hnot]
        simp only [WakeupLabel.isPush, if_true]
        omega
  | @send p hpushed =>
      have hcard := Finset.card_erase_of_mem ((hinside p).mpr hpushed)
      have hpos := Finset.card_pos.mpr ⟨p, (hinside p).mpr hpushed⟩
      refine ⟨_, ⟨inside.erase p, fun p' => ?_, rfl⟩, ?_⟩
      · show p' ∈ inside.erase p ↔ Function.update s.call p .out p' = .pushed
        rw [Finset.mem_erase, Function.update_apply, hinside]
        by_cases hp' : p' = p <;> simp [hp']
      · rw [hcard]
        simp only [WakeupLabel.isPush]
        omega
  | recv hidle hpos hle =>
      refine ⟨_, ⟨inside, hinside, rfl⟩, ?_⟩
      simp only [hidle, HandlerPoint.rank, WakeupLabel.isPush]
      omega
  | drained hpop hitems =>
      refine ⟨_, ⟨inside, hinside, rfl⟩, ?_⟩
      simp only [hpop, HandlerPoint.rank, WakeupLabel.isPush]
      omega
  | pop hpop hitems =>
      refine ⟨_, ⟨inside, hinside, rfl⟩, ?_⟩
      simp only [hpop, hitems, HandlerPoint.rank, WakeupLabel.isPush, List.length_cons]
      omega
  | ret hrun =>
      refine ⟨_, ⟨inside, hinside, rfl⟩, ?_⟩
      simp only [hrun, HandlerPoint.rank, WakeupLabel.isPush]
      omega

/-- A run is at most six times as long as the number of its pushes. -/
theorem length_le_of_run {c : Nat} {as : List (WakeupLabel Thread Task)}
    (h : Exec.exec wakeupStep (WakeupState.init c) as = some s) :
    as.length ≤ 6 * as.countP WakeupLabel.isPush := by
  obtain ⟨n, -, hle⟩ := Exec.length_add_credit_le (I := WakeupState.Owes) 6 WakeupLabel.isPush
    (fun _ _ _ _ hstep hn => hn.step (wakeupMove_of_wakeupStep hstep)) h (WakeupState.owes_init c)
  omega

end Steps

/-! ### What was accepted and run -/

/-- The events of one step; a task that `push` refuses is not pushed. -/
def callEvents (s : WakeupState Thread Task) : WakeupLabel Thread Task → List (WakeupEvent Task)
  | .push _ task => if (s.tasks.push task).1 then [.pushed task] else []
  | .pop => (s.tasks.popWait.1.map .ran).toList
  | _ => []

/-- What has happened to the tasks, on a queue for `c` of them. -/
structure WakeupLog (c : Nat) (s : WakeupState Thread Task) (l : List (WakeupEvent Task)) :
    Prop where
  capacity : s.tasks.capacity = c
  exited : s.tasks.exited = false
  room : c ≠ 0 → s.tasks.items.length ≤ c
  account : pushedTasks l = ranTasks l ++ s.tasks.items
  awake : s.tasks.items ≠ [] → s.Awake

variable {c : Nat} {l : List (WakeupEvent Task)}

theorem wakeupLog_init (c : Nat) :
    WakeupLog c (WakeupState.init c : WakeupState Thread Task) [] where
  capacity := rfl
  exited := rfl
  room _ := Nat.zero_le c
  account := rfl
  awake h := absurd rfl h

namespace WakeupLog

/-- A queue that has not been told to exit refuses a task exactly if it is full. -/
theorem push_eq (h : WakeupLog c s l) (task : Task) :
    s.tasks.push task =
      if c ≠ 0 ∧ s.tasks.items.length = c then (false, s.tasks)
      else (true, { s.tasks with items := s.tasks.items ++ [task] }) := by
  have hfull : (s.tasks.exited = true ∨
      s.tasks.capacity ≠ 0 ∧ s.tasks.capacity ≤ s.tasks.items.length) ↔
      c ≠ 0 ∧ s.tasks.items.length = c := by
    rw [h.capacity, h.exited]
    constructor
    · rintro (hf | ⟨hc, hle⟩)
      · cases hf
      · exact ⟨hc, Nat.le_antisymm (h.room hc) hle⟩
    · rintro ⟨hc, heq⟩
      exact Or.inr ⟨hc, heq.ge⟩
  rw [SafeQueue.push]
  exact if_congr hfull rfl rfl

/-- A step that leaves the queue alone. -/
theorem quiet (h : WakeupLog c s l) (htasks : s'.tasks = s.tasks)
    (hawake : s.tasks.items ≠ [] → s'.Awake) : WakeupLog c s' (l ++ []) := by
  rw [List.append_nil]
  constructor
  case capacity => rw [htasks, h.capacity]
  case exited => rw [htasks, h.exited]
  case room => rw [htasks]; exact h.room
  case account => rw [htasks]; exact h.account
  case awake => rw [htasks]; exact hawake

/-- The handler takes the front task and runs it. -/
theorem pop (h : WakeupLog c s l) {task : Task} {rest : List Task}
    (hitems : s.tasks.items = task :: rest) :
    WakeupLog c { s with tasks := { s.tasks with items := rest }, handler := .running task }
      (l ++ [.ran task]) := by
  constructor
  case capacity => exact h.capacity
  case exited => exact h.exited
  case room =>
    intro hc
    have hle := h.room hc
    rw [hitems, List.length_cons] at hle
    exact Nat.le_of_succ_le hle
  case account =>
    have hacc := h.account
    rw [hitems] at hacc
    simp only [pushedTasks, ranTasks, List.filterMap_append] at hacc ⊢
    rw [hacc, List.append_assoc]
    simp [WakeupEvent.pushedOf, WakeupEvent.ranOf]
  case awake => exact fun _ => .of_running rfl

variable [DecidableEq Thread]

/-- A caller pushes a task, or finds the queue full. -/
theorem push (h : WakeupLog c s l) (p : Caller Thread) (task : Task) :
    WakeupLog c
      { s with tasks := (s.tasks.push task).2, call := Function.update s.call p .pushed }
      (l ++ callEvents s (.push p task)) := by
  have hawake : ∀ tasks : SafeQueue Task,
      ({ s with tasks, call := Function.update s.call p .pushed } :
        WakeupState Thread Task).Awake :=
    fun _ => Or.inr (Or.inr ⟨p, Function.update_self ..⟩)
  rw [callEvents, h.push_eq task]
  split
  · exact h.quiet rfl fun _ => hawake s.tasks
  · rename_i hroom
    constructor
    case capacity => exact h.capacity
    case exited => exact h.exited
    case room =>
      intro hc
      have hle := h.room hc
      have hne : s.tasks.items.length ≠ c := fun heq => hroom ⟨hc, heq⟩
      show (s.tasks.items ++ [task]).length ≤ c
      rw [List.length_append, List.length_singleton]
      omega
    case account =>
      simp only [if_true, pushedTasks, ranTasks, List.filterMap_append]
      rw [← pushedTasks, ← ranTasks, h.account, List.append_assoc]
      simp [WakeupEvent.pushedOf, WakeupEvent.ranOf]
    case awake => exact fun _ => hawake _

theorem step {a : WakeupLabel Thread Task} (h : WakeupLog c s l) (hmove : WakeupMove s a s') :
    WakeupLog c s' (l ++ callEvents s a) := by
  cases hmove with
  | push hout => exact h.push _ _
  | send hpushed => exact h.quiet rfl fun _ => Or.inl (Nat.succ_pos _)
  | recv hidle hpos hle => exact h.quiet rfl fun _ => .of_popping rfl
  | drained hpop hitems =>
      rw [callEvents, SafeQueue.popWait, hitems]
      exact h.quiet rfl fun hne => absurd hitems hne
  | pop hpop hitems =>
      rw [callEvents, SafeQueue.popWait, hitems]
      exact h.pop hitems
  | ret hrun => exact h.quiet rfl fun _ => .of_popping rfl

end WakeupLog

variable [DecidableEq Thread]

theorem wakeupLog_of_run {as : List (WakeupLabel Thread Task)}
    (h : Exec.exec wakeupStep (WakeupState.init c) as = some s) :
    WakeupLog c s (Exec.trace wakeupStep callEvents (WakeupState.init c) as) :=
  Exec.history (fun _ _ _ _ hstep hi => hi.step (wakeupMove_of_wakeupStep hstep)) h
    (wakeupLog_init c)

/-! ### At rest -/

/-- Nobody can go on without a new call of `SafeCall`. -/
def WakeupState.Stuck (s : WakeupState Thread Task) : Prop :=
  ∀ a : WakeupLabel Thread Task, a.isPush = false → wakeupStep s a = none

/-- The parties only stop at the end: the handler is idle, and nobody has still to send. -/
theorem WakeupState.Stuck.quiescent (h : s.Stuck) : s.Quiescent := by
  have hout : ∀ p, s.call p = .out := by
    intro p
    cases hp : s.call p with
    | out => rfl
    | pushed =>
        have hsend := h (.send p) rfl
        simp only [wakeupStep, hp, if_true] at hsend
        cases hsend
  have hidle : s.handler = .idle := by
    cases hhandler : s.handler with
    | idle => rfl
    | popping =>
        have hpop := h .pop rfl
        simp only [wakeupStep, hhandler] at hpop
        split at hpop <;> cases hpop
    | running task =>
        have hret := h .ret rfl
        simp only [wakeupStep, hhandler, hout .task, if_true] at hret
        cases hret
  refine ⟨hidle, hout, ?_⟩
  by_contra hne
  have hrecv := h (.recv 1) rfl
  have hpos : 0 < 1 ∧ 1 ≤ min 1024 s.pipe :=
    ⟨Nat.one_pos, Nat.le_min.mpr ⟨by decide, Nat.one_le_iff_ne_zero.mpr hne⟩⟩
  simp only [wakeupStep, hidle, if_pos hpos] at hrecv
  cases hrecv

/-- **`SafeCall` on a queue for `c` tasks (any number if `c` is 0), under every
scheduling.**  The tasks that the queue accepts are run in that order, each once, those
that have not been run being in the queue; a task is refused exactly if the queue holds
`c` of them; a run is at most six times as long as the number of calls in it; and where
it can only go on with a new call, every task that was accepted has been run. -/
theorem safeCall_of_run {as : List (WakeupLabel Thread Task)}
    (h : Exec.exec wakeupStep (WakeupState.init c) as = some s) :
    pushedTasks (Exec.trace wakeupStep callEvents (WakeupState.init c) as) =
        ranTasks (Exec.trace wakeupStep callEvents (WakeupState.init c) as) ++ s.tasks.items ∧
      (∀ task, (s.tasks.push task).1 = false ↔ c ≠ 0 ∧ s.tasks.items.length = c) ∧
      as.length ≤ 6 * as.countP WakeupLabel.isPush ∧
      (s.Stuck → s.Quiescent ∧ s.tasks.items = []) := by
  have hlog := wakeupLog_of_run h
  refine ⟨hlog.account, fun task => ?_, length_le_of_run h, fun hstuck => ?_⟩
  · rw [hlog.push_eq task]
    by_cases hfull : c ≠ 0 ∧ s.tasks.items.length = c
    · rw [if_pos hfull]
      exact iff_of_true rfl hfull
    · rw [if_neg hfull]
      exact iff_of_false (by simp) hfull
  · refine ⟨hstuck.quiescent, ?_⟩
    by_contra hne
    exact hstuck.quiescent.not_awake (hlog.awake hne)

/-- A queue for one task.  The task of the second thread is refused, but its byte wakes the
handler for that of the first thread, whose own byte comes when all is done. -/
theorem safeCall_of_run_refused :
    ∃ s : WakeupState Bool Nat, Exec.exec wakeupStep (WakeupState.init 1)
        [.push (.thread true) 1, .push (.thread false) 2, .send (.thread false), .recv 1, .pop,
          .push .task 3, .send .task, .ret, .pop, .ret, .pop, .send (.thread true), .recv 2,
          .pop] = some s ∧ s.Stuck ∧
      pushedTasks (Exec.trace wakeupStep callEvents
          (WakeupState.init 1 : WakeupState Bool Nat)
          [.push (.thread true) 1, .push (.thread false) 2, .send (.thread false), .recv 1, .pop,
            .push .task 3, .send .task, .ret, .pop, .ret, .pop, .send (.thread true), .recv 2,
            .pop]) = [1, 3] ∧
      s.Quiescent ∧ s.tasks.items = [] := by
  obtain ⟨s, hrun, hstuck⟩ : ∃ s, Exec.exec wakeupStep
      (WakeupState.init 1 : WakeupState Bool Nat)
      [.push (.thread true) 1, .push (.thread false) 2, .send (.thread false), .recv 1, .pop,
        .push .task 3, .send .task, .ret, .pop, .ret, .pop, .send (.thread true), .recv 2,
        .pop] = some s ∧ s.Stuck := by
    refine ⟨_, rfl, fun a ha => ?_⟩
    cases a with
    | push p task => cases ha
    | send p => rcases p with (_ | _) | _ <;> rfl
    | recv n =>
        refine if_neg fun hn => ?_
        exact absurd (hn.1.trans_le (hn.2.trans (Nat.min_le_right ..))) (Nat.lt_irrefl 0)
    | pop => rfl
    | ret => rfl
  exact ⟨s, hrun, hstuck, rfl, (safeCall_of_run hrun).2.2.2 hstuck⟩

end Libet
