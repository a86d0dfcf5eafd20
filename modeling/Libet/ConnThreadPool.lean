/-
Libet/ConnThreadPool.lean

`ConnThreadPool` (`Threads.h`, `Threads.cpp`).

A task is added under the id of a channel and goes into the queue of the worker
with the number `id % n`.  Each worker is a thread that pops its own queue and
runs what it finds until the queue is told to exit.  Clients, workers and `Exit`
interleave in any order.

No connection has a lock of its own: that its tasks are started in the order
they were added and never two at once (`conn_tasks_in_order`) follows from the
routing and from one account per worker (`PoolInv`): what was accepted for it is
what it has started, what it has popped and not yet started, and its queue.
-/
import Libet.Lib.Exec
import Libet.Poller
import Libet.SafeQueue
import Mathlib.Algebra.GroupWithZero.Nat
import Mathlib.Data.Fin.Basic
import Mathlib.Logic.Function.Basic

namespace Libet

/-! ### Workers and pool -/

/-- Where the thread of a worker stands. -/
inductive WorkerPoint (α : Type*)
  /-- the thread is not there yet -/
  | created
  /-- at `while (!worker.m_tasks->exited())` -/
  | checking
  /-- in `pop_wait(&task)` -/
  | popping
  /-- `pop_wait` has returned the task -/
  | held (task : α)
  /-- inside `task()` -/
  | running (task : α)
  | finished
  deriving DecidableEq, Repr

/-- `struct WorkerImp`. -/
structure WorkerImp (α : Type*) where
  tasks : SafeQueue α
  point : WorkerPoint α

namespace WorkerImp

variable {α : Type*} (w : WorkerImp α)

/-- The task that is popped and not started. -/
def held : List α :=
  match w.point with
  | .held task => [task]
  | _ => []

/-- The task that is running. -/
def running : List α :=
  match w.point with
  | .running task => [task]
  | _ => []

end WorkerImp

/-- `struct ConnThreadPool` with `n` workers.  A task stands next to the id under
which it was added. -/
structure ConnThreadPool (n : Nat) (Task : Type*) where
  workers : Fin n → WorkerImp (ChannelId × Task)

/-- What one of the parties does. -/
inductive PoolLabel (n : Nat) (Task : Type*)
  /-- a client calls `AddTask` -/
  | addTask (id : ChannelId) (task : Task)
  /-- `Start` makes the thread of a worker -/
  | start (k : Fin n)
  /-- a worker looks whether its queue has exited -/
  | check (k : Fin n)
  /-- its `pop_wait` returns -/
  | pop (k : Fin n)
  /-- it calls `task()` -/
  | run (k : Fin n)
  /-- `task()` returns -/
  | ret (k : Fin n)
  /-- `Exit` tells the queue of a worker -/
  | exit (k : Fin n)
  deriving DecidableEq, Repr

namespace ConnThreadPool

variable {n : Nat} {Task : Type*}

/-- `ConnThreadPool::ConnThreadPool`.  The workers' queues have any capacities;
the constructor of the source leaves them unbounded, whatever `maxTaskNum` is. -/
def new (capacity : Fin n → Nat) : ConnThreadPool n Task :=
  ⟨fun k => ⟨SafeQueue.new (capacity k), .created⟩⟩

/-- `Index`; the ids of channels are positive. -/
def index (n : Nat) [NeZero n] (id : ChannelId) : Fin n := Fin.ofNat n id

def setWorker (s : ConnThreadPool n Task) (k : Fin n) (w : WorkerImp (ChannelId × Task)) :
    ConnThreadPool n Task :=
  ⟨Function.update s.workers k w⟩

/-- `AddTask`. -/
def addTask [NeZero n] (s : ConnThreadPool n Task) (id : ChannelId) (task : Task) :
    Bool × ConnThreadPool n Task :=
  let w := s.workers (index n id)
  let r := w.tasks.push (id, task)
  (r.1, s.setWorker (index n id) { w with tasks := r.2 })

/-- What an `AddTask` does. -/
theorem addTask_cases [NeZero n] (s : ConnThreadPool n Task) (id : ChannelId) (task : Task) :
    s.addTask id task = (false, s) ∨
      s.addTask id task = (true, s.setWorker (index n id) { s.workers (index n id) with
        tasks := { (s.workers (index n id)).tasks with
          items := (s.workers (index n id)).tasks.items ++ [(id, task)] } }) := by
  rcases SafeQueue.push_cases (q := (s.workers (index n id)).tasks) (v := (id, task))
    with heq | heq
  · left
    simp only [addTask, heq, setWorker, Function.update_eq_self]
  · right
    simp only [addTask, heq]

end ConnThreadPool

open ConnThreadPool

section Machine

variable {n : Nat} [NeZero n] {Task : Type*}

/-- One step of one party. -/
def poolStep (s : ConnThreadPool n Task) : PoolLabel n Task → Option (ConnThreadPool n Task)
  | .addTask id task => some (s.addTask id task).2
  | .start k =>
      match (s.workers k).point with
      | .created => some (s.setWorker k { s.workers k with point := .checking })
      | _ => none
  | .check k =>
      match (s.workers k).point with
      | .checking => some (s.setWorker k { s.workers k with
          point := if (s.workers k).tasks.exited then .finished else .popping })
      | _ => none
  | .pop k =>
      match (s.workers k).point with
      | .popping =>
          -- a `pop_wait` that is not ready waits
          if (s.workers k).tasks.Ready then
            match (s.workers k).tasks.popWait with
            | (some task, q) => some (s.setWorker k ⟨q, .held task⟩)
            | (none, q) => some (s.setWorker k ⟨q, .checking⟩)
          else none
      | _ => none
  | .run k =>
      match (s.workers k).point with
      | .held task => some (s.setWorker k { s.workers k with point := .running task })
      | _ => none
  | .ret k =>
      match (s.workers k).point with
      | .running _ => some (s.setWorker k { s.workers k with point := .checking })
      | _ => none
  | .exit k => some (s.setWorker k { s.workers k with tasks := (s.workers k).tasks.exit })

/-! ### What is observed -/

/-- What happens to a task. -/
inductive PoolEvent (Task : Type*)
  /-- `AddTask` has returned `true` -/
  | accepted (x : ChannelId × Task)
  | started (x : ChannelId × Task)
  | ended (x : ChannelId × Task)
  deriving DecidableEq, Repr

/-- The events of one step. -/
def poolEvents (s : ConnThreadPool n Task) : PoolLabel n Task → List (PoolEvent Task)
  | .addTask id task => if (s.addTask id task).1 then [.accepted (id, task)] else []
  | .run k => (s.workers k).held.map .started
  | .ret k => (s.workers k).running.map .ended
  | _ => []

end Machine

section Logs

variable {Task : Type*}

def PoolEvent.acceptedOf : PoolEvent Task → Option (ChannelId × Task)
  | .accepted x => some x
  | _ => none

def PoolEvent.startedOf : PoolEvent Task → Option (ChannelId × Task)
  | .started x => some x
  | _ => none

def PoolEvent.endedOf : PoolEvent Task → Option (ChannelId × Task)
  | .ended x => some x
  | _ => none

/-- The tasks that were accepted, in order. -/
def acceptedTasks (l : List (PoolEvent Task)) : List (ChannelId × Task) :=
  l.filterMap PoolEvent.acceptedOf

/-- The tasks that were started, in order. -/
def startedTasks (l : List (PoolEvent Task)) : List (ChannelId × Task) :=
  l.filterMap PoolEvent.startedOf

/-- The tasks that have ended, in order. -/
def endedTasks (l : List (PoolEvent Task)) : List (ChannelId × Task) :=
  l.filterMap PoolEvent.endedOf

/-- The tasks of one id. -/
def ofId (id : ChannelId) (l : List (ChannelId × Task)) : List (ChannelId × Task) :=
  l.filter fun x => x.1 = id

/-- The tasks of one worker. -/
def ofWorker {n : Nat} [NeZero n] (k : Fin n) (l : List (ChannelId × Task)) :
    List (ChannelId × Task) :=
  l.filter fun x => index n x.1 = k

variable {n : Nat} [NeZero n] {k : Fin n} {id : ChannelId} {x : ChannelId × Task}
variable {l l' : List (ChannelId × Task)}

theorem ofWorker_append : ofWorker k (l ++ l') = ofWorker k l ++ ofWorker k l' :=
  List.filter_append ..

theorem ofWorker_singleton (hk : index n x.1 = k) : ofWorker k [x] = [x] := by
  simp only [ofWorker, List.filter_cons, hk, decide_true, if_true, List.filter_nil]

theorem ofWorker_singleton_ne (hk : k ≠ index n x.1) : ofWorker k [x] = [] := by
  simp only [ofWorker, List.filter_cons, decide_eq_true_eq, if_neg (Ne.symm hk), List.filter_nil]

theorem index_of_mem_ofWorker (hx : x ∈ ofWorker k l) : index n x.1 = k :=
  of_decide_eq_true (List.mem_filter.mp hx).2

/-- The tasks of an id are among those of its worker. -/
theorem ofId_ofWorker (n : Nat) [NeZero n] (id : ChannelId) (l : List (ChannelId × Task)) :
    ofId id (ofWorker (index n id) l) = ofId id l := by
  simp only [ofId, ofWorker, List.filter_filter]
  apply List.filter_congr
  intro x _
  by_cases hx : x.1 = id
  · simp [hx]
  · simp [hx]

end Logs

/-! ### The account of a worker -/

section Account

variable {n : Nat} [NeZero n] {Task : Type*}

/-- Of worker `k`: what it was given and what it has done with it. -/
structure WorkerAccount (k : Fin n) (w : WorkerImp (ChannelId × Task))
    (l : List (PoolEvent Task)) : Prop where
  accepted : ofWorker k (acceptedTasks l) =
    ofWorker k (startedTasks l) ++ w.held ++ w.tasks.items
  started : ofWorker k (startedTasks l) = ofWorker k (endedTasks l) ++ w.running

/-- The invariant of the pool, with what has happened so far. -/
def PoolInv (s : ConnThreadPool n Task) (l : List (PoolEvent Task)) : Prop :=
  ∀ k, WorkerAccount k (s.workers k) l

variable {s s' : ConnThreadPool n Task} {l : List (PoolEvent Task)} {k : Fin n}
variable {w : WorkerImp (ChannelId × Task)} {x : ChannelId × Task}

theorem acceptedTasks_append (es : List (PoolEvent Task)) :
    acceptedTasks (l ++ es) = acceptedTasks l ++ acceptedTasks es := List.filterMap_append ..

theorem startedTasks_append (es : List (PoolEvent Task)) :
    startedTasks (l ++ es) = startedTasks l ++ startedTasks es := List.filterMap_append ..

theorem endedTasks_append (es : List (PoolEvent Task)) :
    endedTasks (l ++ es) = endedTasks l ++ endedTasks es := List.filterMap_append ..

namespace WorkerAccount

/-- The account of a worker depends on what happens to its own tasks. -/
theorem frame (h : WorkerAccount k w l) {es : List (PoolEvent Task)}
    (hacc : ofWorker k (acceptedTasks es) = []) (hstart : ofWorker k (startedTasks es) = [])
    (hend : ofWorker k (endedTasks es) = []) : WorkerAccount k w (l ++ es) := by
  constructor
  · rw [acceptedTasks_append, startedTasks_append, ofWorker_append, ofWorker_append, hacc, hstart,
      List.append_nil, List.append_nil]
    exact h.accepted
  · rw [startedTasks_append, endedTasks_append, ofWorker_append, ofWorker_append, hstart, hend,
      List.append_nil, List.append_nil]
    exact h.started

/-- A task that a worker has was routed to it. -/
theorem index_held (h : WorkerAccount k w l) (hx : x ∈ w.held) : index n x.1 = k := by
  apply index_of_mem_ofWorker (l := acceptedTasks l)
  rw [h.accepted]
  exact List.mem_append_left _ (List.mem_append_right _ hx)

theorem index_running (h : WorkerAccount k w l) (hx : x ∈ w.running) : index n x.1 = k := by
  apply index_of_mem_ofWorker (l := startedTasks l)
  rw [h.started]
  exact List.mem_append_right _ hx

end WorkerAccount

theorem poolInv_new (capacity : Fin n → Nat) :
    PoolInv (ConnThreadPool.new capacity : ConnThreadPool n Task) [] :=
  fun _ => ⟨rfl, rfl⟩

/-- A step of one worker, with events about tasks of that worker only. -/
theorem PoolInv.setWorker (h : PoolInv s l) (k : Fin n) {es : List (PoolEvent Task)}
    (hw : WorkerAccount k w (l ++ es))
    (hes : ∀ j, j ≠ k → ofWorker j (acceptedTasks es) = [] ∧ ofWorker j (startedTasks es) = [] ∧
      ofWorker j (endedTasks es) = []) : PoolInv (s.setWorker k w) (l ++ es) := by
  intro j
  simp only [ConnThreadPool.setWorker, Function.update_apply]
  split
  · rename_i hj
    rw [hj]
    exact hw
  · rename_i hj
    obtain ⟨hacc, hstart, hend⟩ := hes j hj
    exact (h j).frame hacc hstart hend

/-- A step without events that changes neither what a worker has nor its
queue. -/
theorem PoolInv.quiet (h : PoolInv s l) (k : Fin n) (hheld : w.held = (s.workers k).held)
    (hrunning : w.running = (s.workers k).running)
    (hitems : w.tasks.items = (s.workers k).tasks.items) :
    PoolInv (s.setWorker k w) (l ++ []) := by
  refine h.setWorker k ?_ fun j _ => ⟨rfl, rfl, rfl⟩
  rw [List.append_nil]
  obtain ⟨hacc, hstart⟩ := h k
  rw [← hheld, ← hitems] at hacc
  rw [← hrunning] at hstart
  exact ⟨hacc, hstart⟩

theorem PoolInv.addTask (h : PoolInv s l) (id : ChannelId) (task : Task) :
    PoolInv (s.addTask id task).2 (l ++ poolEvents s (.addTask id task)) := by
  rcases s.addTask_cases id task with heq | heq
  · rw [poolEvents, heq, if_neg Bool.false_ne_true, List.append_nil]
    exact h
  · rw [poolEvents, heq, if_pos rfl]
    refine h.setWorker _ ?_ fun j hj => ⟨ofWorker_singleton_ne hj, rfl, rfl⟩
    obtain ⟨hacc, hstart⟩ := h (index n id)
    constructor
    · -- the task is the last of those accepted, and of the queue
      rw [acceptedTasks_append, startedTasks_append, ofWorker_append, ofWorker_append, hacc]
      show _ ++ ofWorker (index n id) [(id, task)] = _ ++ [] ++ _ ++ (_ ++ [(id, task)])
      rw [ofWorker_singleton (x := (id, task)) rfl, List.append_nil, List.append_assoc]
      rfl
    · rw [startedTasks_append, endedTasks_append, ofWorker_append, ofWorker_append, hstart]
      show _ ++ _ ++ [] = _ ++ [] ++ _
      rw [List.append_nil, List.append_nil]
      rfl

/-- The front task goes from the queue to the worker. -/
theorem PoolInv.pop (h : PoolInv s l) (hpoint : (s.workers k).point = .popping)
    {rest : List (ChannelId × Task)} (hitems : (s.workers k).tasks.items = x :: rest) :
    PoolInv (s.setWorker k ⟨{ (s.workers k).tasks with items := rest }, .held x⟩) (l ++ []) := by
  refine h.setWorker k ?_ fun j _ => ⟨rfl, rfl, rfl⟩
  rw [List.append_nil]
  obtain ⟨hacc, hstart⟩ := h k
  simp only [WorkerImp.held, WorkerImp.running, hpoint, List.append_nil] at hacc hstart
  constructor
  · rw [hacc, hitems, List.append_assoc]
    rfl
  · rw [hstart]
    exact (List.append_nil _).symm

/-- The worker starts the task it has popped. -/
theorem PoolInv.run (h : PoolInv s l) (hpoint : (s.workers k).point = .held x) :
    PoolInv (s.setWorker k { s.workers k with point := .running x }) (l ++ [.started x]) := by
  have hheld : (s.workers k).held = [x] := by simp only [WorkerImp.held, hpoint]
  have hk : index n x.1 = k := by
    apply (h k).index_held
    rw [hheld]
    exact List.mem_singleton_self x
  obtain ⟨hacc, hstart⟩ := h k
  rw [hheld] at hacc
  simp only [WorkerImp.running, hpoint] at hstart
  refine h.setWorker k ⟨?_, ?_⟩ fun j hj => ⟨rfl, ofWorker_singleton_ne (hk.symm ▸ hj), rfl⟩
  · rw [acceptedTasks_append, startedTasks_append, ofWorker_append, ofWorker_append, hacc]
    show _ ++ [] = _ ++ ofWorker k [x] ++ [] ++ _
    rw [ofWorker_singleton hk, List.append_nil, List.append_nil]
  · rw [startedTasks_append, endedTasks_append, ofWorker_append, ofWorker_append, hstart]
    show _ ++ [] ++ ofWorker k [x] = _ ++ [] ++ [x]
    rw [ofWorker_singleton hk]

/-- The task that a worker runs returns. -/
theorem PoolInv.ret (h : PoolInv s l) (hpoint : (s.workers k).point = .running x) :
    PoolInv (s.setWorker k { s.workers k with point := .checking }) (l ++ [.ended x]) := by
  have hrunning : (s.workers k).running = [x] := by simp only [WorkerImp.running, hpoint]
  have hk : index n x.1 = k := by
    apply (h k).index_running
    rw [hrunning]
    exact List.mem_singleton_self x
  obtain ⟨hacc, hstart⟩ := h k
  rw [hrunning] at hstart
  simp only [WorkerImp.held, hpoint] at hacc
  refine h.setWorker k ⟨?_, ?_⟩ fun j hj => ⟨rfl, rfl, ofWorker_singleton_ne (hk.symm ▸ hj)⟩
  · rw [acceptedTasks_append, startedTasks_append, ofWorker_append, ofWorker_append, hacc]
    show _ ++ [] = _ ++ [] ++ [] ++ _
    rw [List.append_nil, List.append_nil, List.append_nil]
  · rw [startedTasks_append, endedTasks_append, ofWorker_append, ofWorker_append, hstart]
    show _ ++ [] = _ ++ ofWorker k [x] ++ []
    rw [ofWorker_singleton hk]

theorem PoolInv.step {a : PoolLabel n Task} (hstep : poolStep s a = some s') (h : PoolInv s l) :
    PoolInv s' (l ++ poolEvents s a) := by
  cases a with
  | addTask id task =>
      cases hstep
      exact h.addTask id task
  | start k =>
      simp only [poolStep] at hstep
      split at hstep <;> cases hstep
      rename_i hpoint
      refine h.quiet k ?_ ?_ ?_
      · simp only [WorkerImp.held, hpoint]
      · simp only [WorkerImp.running, hpoint]
      · rfl
  | check k =>
      simp only [poolStep] at hstep
      split at hstep <;> cases hstep
      rename_i hpoint
      refine h.quiet k ?_ ?_ ?_
      · cases hexit : (s.workers k).tasks.exited <;> simp [WorkerImp.held, hpoint]
      · cases hexit : (s.workers k).tasks.exited <;> simp [WorkerImp.running, hpoint]
      · rfl
  | pop k =>
      simp only [poolStep] at hstep
      split at hstep
      · rename_i hpoint
        split at hstep
        · rcases SafeQueue.popWait_cases (q := (s.workers k).tasks)
            with ⟨-, heq⟩ | ⟨x, rest, hitems, heq⟩
          · rw [heq] at hstep
            cases hstep
            refine h.quiet k ?_ ?_ ?_
            · simp only [WorkerImp.held, hpoint]
            · simp only [WorkerImp.running, hpoint]
            · rfl
          · rw [heq] at hstep
            cases hstep
            exact h.pop hpoint hitems
        · cases hstep
      · cases hstep
  | run k =>
      simp only [poolStep] at hstep
      split at hstep <;> cases hstep
      rename_i x hpoint
      have hev : poolEvents s (.run k) = [.started x] := by
        simp only [poolEvents, WorkerImp.held, hpoint, List.map_cons, List.map_nil]
      rw [hev]
      exact h.run hpoint
  | ret k =>
      simp only [poolStep] at hstep
      split at hstep <;> cases hstep
      rename_i x hpoint
      have hev : poolEvents s (.ret k) = [.ended x] := by
        simp only [poolEvents, WorkerImp.running, hpoint, List.map_cons, List.map_nil]
      rw [hev]
      exact h.ret hpoint
  | exit k =>
      cases hstep
      exact h.quiet k rfl rfl rfl

theorem poolInv_of_run {capacity : Fin n → Nat} {as : List (PoolLabel n Task)}
    (h : Exec.exec poolStep (ConnThreadPool.new capacity) as = some s) :
    PoolInv s (Exec.trace poolStep poolEvents (ConnThreadPool.new capacity) as) :=
  Exec.history (fun _ _ _ _ hstep hi => PoolInv.step hstep hi) h (poolInv_new capacity)

/-! ### The tasks of a connection -/

/-- What is promised about the tasks of each id. -/
structure TasksInOrder (s : ConnThreadPool n Task) (l : List (PoolEvent Task)) : Prop where
  /-- they are started in the order they were accepted, each once -/
  order : ∀ id, ofId id (startedTasks l) <+: ofId id (acceptedTasks l)
  /-- they end in that order too, and at most one has not ended yet -/
  alone : ∀ id, ∃ now, ofId id (startedTasks l) = ofId id (endedTasks l) ++ now ∧ now.length ≤ 1
  /-- no two workers run tasks of one id -/
  apart : ∀ j k x y, x ∈ (s.workers j).running → y ∈ (s.workers k).running → x.1 = y.1 →
    j = k ∧ x = y
  /-- a refused `AddTask` changes nothing -/
  refused : ∀ id task, (s.addTask id task).1 = false → (s.addTask id task).2 = s
  /-- what was accepted for a worker has ended, is running, is held, or queued -/
  kept : ∀ k, ofWorker k (acceptedTasks l) =
    ofWorker k (endedTasks l) ++ (s.workers k).running ++ (s.workers k).held ++
      (s.workers k).tasks.items

theorem WorkerImp.running_length (w : WorkerImp (ChannelId × Task)) : w.running.length ≤ 1 := by
  simp only [WorkerImp.running]
  split
  · exact Nat.le_refl 1
  · exact Nat.zero_le 1

theorem WorkerImp.eq_of_mem_running (hx : x ∈ w.running) {y : ChannelId × Task}
    (hy : y ∈ w.running) : x = y := by
  simp only [WorkerImp.running] at hx hy
  split at hx
  · rename_i task hpoint
    rw [hpoint] at hy
    rw [List.mem_singleton.mp hx, List.mem_singleton.mp hy]
  · cases hx

theorem ofId_append (id : ChannelId) (l l' : List (ChannelId × Task)) :
    ofId id (l ++ l') = ofId id l ++ ofId id l' :=
  List.filter_append ..

theorem PoolInv.tasksInOrder (h : PoolInv s l) : TasksInOrder s l where
  order := by
    intro id
    -- the tasks of the id are those of it that its worker was given
    rw [← ofId_ofWorker n, ← ofId_ofWorker n id (acceptedTasks l), (h (index n id)).accepted,
      List.append_assoc, ofId_append]
    exact List.prefix_append ..
  alone := by
    intro id
    refine ⟨ofId id (s.workers (index n id)).running, ?_, ?_⟩
    · rw [← ofId_ofWorker n, ← ofId_ofWorker n id (endedTasks l), (h (index n id)).started,
        ofId_append]
    · exact (List.length_filter_le _ _).trans (WorkerImp.running_length _)
  apart := by
    intro j k x y hx hy he
    have hjk : j = k := by
      rw [← (h j).index_running hx, ← (h k).index_running hy, he]
    subst hjk
    exact ⟨rfl, WorkerImp.eq_of_mem_running hx hy⟩
  refused := by
    intro id task hfalse
    rcases s.addTask_cases id task with heq | heq
    · rw [heq]
    · rw [heq] at hfalse
      cases hfalse
  kept := by
    intro k
    rw [(h k).accepted, (h k).started]

/-- **Per-connection order.**  With any number of workers, any capacities and any
interleaving of `AddTask`, of the workers and of `Exit`: the accepted tasks of
one id are started in the order they were accepted, each once and never two at
the same time; a refused `AddTask` changes nothing; and no accepted task is
lost. -/
theorem conn_tasks_in_order {capacity : Fin n → Nat} {as : List (PoolLabel n Task)}
    (h : Exec.exec poolStep (ConnThreadPool.new capacity) as = some s) :
    TasksInOrder s (Exec.trace poolStep poolEvents (ConnThreadPool.new capacity) as) :=
  (poolInv_of_run h).tasksInOrder

/-- Two workers; the first gets tasks of the ids 2 and 4, the second, whose queue
holds one task, those of 3, of which the third is refused. -/
theorem conn_tasks_in_order_two :
    ∃ s : ConnThreadPool 2 Nat, Exec.exec poolStep (ConnThreadPool.new fun k => k.val)
        [.start 1, .addTask 2 20, .addTask 3 30, .start 0, .check 1, .pop 1, .addTask 3 31,
          .addTask 3 32, .addTask 4 40, .check 0, .run 1, .pop 0, .run 0, .exit 0, .ret 1,
          .ret 0] = some s ∧
      TasksInOrder s (Exec.trace poolStep poolEvents
        (ConnThreadPool.new fun k => k.val : ConnThreadPool 2 Nat)
        [.start 1, .addTask 2 20, .addTask 3 30, .start 0, .check 1, .pop 1, .addTask 3 31,
          .addTask 3 32, .addTask 4 40, .check 0, .run 1, .pop 0, .run 0, .exit 0, .ret 1,
          .ret 0]) :=
  ⟨_, rfl, conn_tasks_in_order rfl⟩

end Account

end Libet
