/-
Libet/PeriodicServer.lean

A server that sends to its clients periodically.

`PeriodicallySendTest` registers a repeating task in the timer callback of a
connection, keeps its `TimerId` in `m_timerTasks`, and cancels all of `m_timerTasks`
when the state callback sees `Closed`.  The task holds the connection alive; what
keeps it from sending on a connection that is gone is that the two callbacks are
called in the right order and that `Cancel` finds the timer.  The timers and the
connections meet here: the callbacks of one event of the loop are told to the timers
in the order of the trace (`SendTimers.tell`), and everything else the timers can do
comes in between.

* `Sends` — the repeating timers of a connection are those in its `m_timerTasks`.
* `sendTasks` — how many there are, counted off the trace.

Main result: `sends_of_run`.
-/
import Libet.ConnCalls
import Libet.TimerTicks

namespace Libet

variable {τ : Type*}

/-! ### The server -/

/-- The callbacks of `PeriodicallySendTest`, but for the timers: a heartbeat is answered,
and an idle callback is registered on every new connection.  The four bytes that are
compared are read from where the message begins, whatever its size. -/
def periodicallySendTest : App where
  plat := .x64
  slots := ⟨some .onMsg, false, true, true⟩
  onRead _ _ := []
  onMsg w i msg :=
    if ((w.con i).input.content.drop msg.off).take 4 = [4, 0, 0, 0] then
      [.sendMsg i ([4, 0, 0, 0] ++ [104, 101, 97, 114, 116, 98, 101, 97, 116])]
    else []
  onWrite _ _ := []
  onState w i := if (w.con i).state = .connected then [.addIdleCB i 15] else []
  onTimer _ _ := []

/-- What is registered with the timers: the task of a connection, which sends to it,
or any other one. -/
inductive ServerTask (τ : Type*)
  | send (con : ConnId)
  | other (task : τ)
  deriving DecidableEq

/-- `RunAfter`, at the clock value `now`; `RunEvery` is the case `milli = 0`. -/
def Timers.runAfter (s : Timers τ) (now milli : Int) (task : τ) (interval : Int) :
    TimerId × Timers τ :=
  s.runAt now (now + milli) task interval

/-- The timers with the `m_timerTasks` of every connection; `notFound` counts the
messages `Can't find timer`. -/
structure SendTimers (τ : Type*) where
  timers : TimerState (ServerTask τ)
  timerTasks : ConnId → List TimerId
  notFound : Nat

namespace SendTimers

/-- The timer callback: the task of this connection, with the interval 1000, and
`m_timerTasks.emplace_back`.  In `PeriodicallySendTest` it comes from `RunEvery`. -/
def onTimer (now : Int) (delay : Nat) (i : ConnId) (s : SendTimers τ) : SendTimers τ :=
  let r := s.timers.base.runAfter now delay (.send i) 1000
  { s with timers := { s.timers with base := r.2, issued := r.1 :: s.timers.issued }
           timerTasks := Function.update s.timerTasks i (s.timerTasks i ++ [r.1]) }

/-- One turn of the loop of `onClosed`, whose first timer is `task`. -/
def cancelTask (i : ConnId) (task : TimerId) (s : SendTimers τ) : SendTimers τ :=
  let r := s.timers.base.cancel task
  { timers := { s.timers with base := r.2 }
    timerTasks := Function.update s.timerTasks i (s.timerTasks i).tail
    notFound := if r.1 then s.notFound else s.notFound + 1 }

/-- `while (!con->m_timerTasks.empty())`. -/
def onClosed (i : ConnId) : List TimerId → SendTimers τ → SendTimers τ
  | [], s => s
  | task :: tasks, s => onClosed i tasks (s.cancelTask i task)

/-- What the two callbacks do to the timers. -/
def tell (now : Int) (delay : Nat) (s : SendTimers τ) : Event → SendTimers τ
  | .timerCb i => s.onTimer now delay i
  | .stateCb i .closed => onClosed i (s.timerTasks i) s
  | _ => s

end SendTimers

/-- The server: its world, its timers, the task that is running, and the timers that
belong to others. -/
structure PeriodicServer (τ : Type*) where
  world : World
  sends : SendTimers τ
  running : Option (ServerTask τ)
  others : List TimerId

/-- What can happen next. -/
inductive ServerLabel (τ : Type*)
  /-- an event of the loop, or, at any time, the clock or a call from some thread -/
  | event (a : Input)
  | handleTimeouts
  /-- the next due task is run; if it is one that sends, it sends `data` -/
  | fire (data : List UInt8)
  | ret
  | finish
  /-- `RunAt` for another task -/
  | runAt (milli : Int) (task : τ) (interval : Int)
  /-- `Cancel` of another task -/
  | cancel (timerid : TimerId)
  | exit
  /-- the loop ends -/
  | clear

/-- The event does not need the loop thread. -/
def Input.anytime : Input → Bool
  | .user _ | .tick _ => true
  | _ => false

namespace PeriodicServer

variable (app : App) (delay : Nat)

/-- The server before its loop runs. -/
def init (wakeupFd listenFd : Int) : PeriodicServer τ :=
  ⟨World.init wakeupFd listenFd, ⟨TimerState.init, fun _ => [], 0⟩, none, []⟩

/-- The timers take a step. -/
def onTimers (σ : PeriodicServer τ) (a : TimerAction (ServerTask τ)) :
    Option (PeriodicServer τ) :=
  (timerStep σ.sends.timers a).map fun t => { σ with sends := { σ.sends with timers := t } }

/-- The task whose code `fire` runs. -/
def due (σ : PeriodicServer τ) : Option (ServerTask τ) :=
  match σ.sends.timers.control with
  | .loopHead now =>
      (σ.sends.timers.base.takeDue now).bind fun due =>
        (due.2.startTask σ.world.now due.1).map Prod.fst
  | _ => none

/-- The code of a task: `con->SendMsg(buf)`, where `buf` is generated data. -/
def runTask (data : List UInt8) (w : World) : ServerTask τ → World
  | .send i => w.runOp (.sendMsg i data)
  | .other _ => w

/-- One step of the server. -/
def step (σ : PeriodicServer τ) : ServerLabel τ → Option (PeriodicServer τ)
  | .event a =>
      if σ.sends.timers.control = .outside ∨ a.anytime then
        (worldStep app σ.world a).map fun w =>
          { σ with world := w
                   sends := (w.trace.drop σ.world.trace.length).foldl
                     (SendTimers.tell w.now delay) σ.sends }
      else none
  | .handleTimeouts => σ.onTimers (.handleTimeouts σ.world.now)
  | .fire data =>
      σ.due.bind fun task => (σ.onTimers (.fire σ.world.now)).map fun σ' =>
        { σ' with running := some task, world := runTask data σ.world task }
  | .ret => (σ.onTimers .ret).map fun σ' => { σ' with running := none }
  | .finish => σ.onTimers (.finish σ.world.now)
  | .runAt milli task interval =>
      (σ.onTimers (.runAt σ.world.now milli (.other task) interval)).map fun σ' =>
        { σ' with others := (σ.sends.timers.base.runAt σ.world.now milli (.other task)
                    interval).1 :: σ.others }
  | .cancel timerid => if timerid ∈ σ.others then σ.onTimers (.cancel timerid) else none
  | .exit => σ.onTimers .exit
  | .clear => if σ.sends.timers.base.exit then σ.onTimers .clear else none

end PeriodicServer

/-! ### The repeating timers of a connection -/

variable {b b' : Timers (ServerTask τ)} {s : SendTimers τ} {others : List TimerId}
variable {now : Int} {delay : Nat} {i : ConnId} {k : TimerId}

/-- As long as `Exit` has not been called, every timer in `m_timerTasks` is there, and
none of them was ever missed. -/
structure Lasting (s : SendTimers τ) : Prop where
  rep : ∀ {i k}, k ∈ s.timerTasks i → ∃ r, s.timers.base.timerReps.Has k r ∧
    r.cb = .send i ∧ r.interval = 1000
  nodup : ∀ i, (s.timerTasks i).Nodup
  notFound : s.notFound = 0

/-- The repeating timers that send are those in `m_timerTasks`, and `Cancel` takes them
for what they are; the timers of others are none of them. -/
structure Sends (s : SendTimers τ) (others : List TimerId) : Prop where
  inv : TimersInv s.timers.base s.timers.issued
  rep : ∀ {k r i}, s.timers.base.timerReps.Has k r → r.cb = .send i →
    k ∈ s.timerTasks i ∧ k.first < 0
  user : ∀ {k i}, ¬ s.timers.base.timers.Has k (.user (.send i))
  issued : ∀ {i k}, k ∈ s.timerTasks i → k ∈ s.timers.issued
  lasting : s.timers.base.exit = false → Lasting s
  others_issued : ∀ {k}, k ∈ others → k ∈ s.timers.issued
  others_rep : ∀ {k r i}, k ∈ others → s.timers.base.timerReps.Has k r → r.cb ≠ .send i

theorem Sends.init : Sends (⟨TimerState.init, fun _ => [], 0⟩ : SendTimers τ) [] where
  inv := timersInv_new
  rep h := absurd h OrdMap.not_has_empty
  user h := absurd h OrdMap.not_has_empty
  issued h := absurd h List.not_mem_nil
  lasting _ := ⟨fun h => absurd h List.not_mem_nil, fun _ => List.nodup_nil, rfl⟩
  others_issued h := absurd h List.not_mem_nil
  others_rep h := absurd h List.not_mem_nil

/-! ### The timer callback -/

theorem mem_update_append {tasks : ConnId → List TimerId} {j : ConnId} {k' : TimerId} :
    k' ∈ Function.update tasks i (tasks i ++ [k]) j ↔ k' ∈ tasks j ∨ (j = i ∧ k' = k) := by
  rcases eq_or_ne j i with rfl | hne
  · simp
  · simp [hne]

/-- **The timer callback** adds one timer to `m_timerTasks` and to the timers. -/
theorem Sends.onTimer (h : Sends s others) (hnow : 0 < now) (delay : Nat) (i : ConnId) :
    Sends (s.onTimer now delay i) others := by
  have hinv := h.inv.runAt now (now + delay) (.send i) 1000
  cases hexit : s.timers.base.exit with
  | true =>
      -- `TimerId()` goes into the list, and nothing else happens
      have hrun : s.timers.base.runAt now (now + delay) (.send i) 1000 =
          (⟨0, 0⟩, s.timers.base) := by
        rw [Timers.runAt, if_pos hexit]
      rw [hrun] at hinv
      simp only [SendTimers.onTimer, Timers.runAfter, hrun]
      refine ⟨hinv, fun hr hcb => ?_, h.user, fun hk => ?_, fun hne => ?_, fun hk => ?_,
        h.others_rep⟩
      · obtain ⟨hmem, hneg⟩ := h.rep hr hcb
        exact ⟨mem_update_append.mpr (Or.inl hmem), hneg⟩
      · rcases mem_update_append.mp hk with hk | ⟨-, rfl⟩
        · exact List.mem_cons_of_mem _ (h.issued hk)
        · exact List.mem_cons_self
      · rw [hexit] at hne
        cases hne
      · exact List.mem_cons_of_mem _ (h.others_issued hk)
  | false =>
      have hrun := Timers.runAt_repeating hexit now (now + delay) (.send i)
        (show (1000 : Int) ≠ 0 by decide)
      -- the identifier has a number that no timer has
      have hfresh : ∀ {k}, k ∈ s.timers.issued →
          k ≠ ⟨-(now + delay), s.timers.base.timerSeq + 1⟩ := by
        rintro k hk rfl
        have := h.inv.issued_seq hk
        simp only at this
        omega
      rw [hrun] at hinv
      simp only [SendTimers.onTimer, Timers.runAfter, hrun]
      refine ⟨hinv, fun hr hcb => ?_, fun hk => ?_, fun hk => ?_, fun _ => ⟨fun hk => ?_,
        fun j => ?_, (h.lasting hexit).notFound⟩, fun hk => ?_, fun hk hr => ?_⟩
      · simp only [Timers.refreshNearest_timerReps] at hr
        rcases OrdMap.has_set.mp hr with ⟨rfl, rfl⟩ | ⟨-, hr⟩
        · obtain rfl := ServerTask.send.inj hcb
          exact ⟨mem_update_append.mpr (Or.inr ⟨rfl, rfl⟩), by simp only; omega⟩
        · obtain ⟨hmem, hneg⟩ := h.rep hr hcb
          exact ⟨mem_update_append.mpr (Or.inl hmem), hneg⟩
      · simp only [Timers.refreshNearest_timers] at hk
        rcases OrdMap.has_set.mp hk with ⟨-, hk⟩ | ⟨-, hk⟩
        · cases hk
        · exact h.user hk
      · rcases mem_update_append.mp hk with hk | ⟨-, rfl⟩
        · exact List.mem_cons_of_mem _ (h.issued hk)
        · exact List.mem_cons_self
      · simp only [Timers.refreshNearest_timerReps]
        rcases mem_update_append.mp hk with hk | ⟨rfl, rfl⟩
        · obtain ⟨r, hr, hcb⟩ := (h.lasting hexit).rep hk
          exact ⟨r, OrdMap.has_set.mpr (Or.inr ⟨hfresh (h.issued hk), hr⟩), hcb⟩
        · exact ⟨_, OrdMap.has_set.mpr (Or.inl ⟨rfl, rfl⟩), rfl, rfl⟩
      · have hnodup := (h.lasting hexit).nodup
        dsimp only
        rcases eq_or_ne j i with rfl | hne
        · rw [Function.update_self, List.nodup_append]
          refine ⟨hnodup j, List.nodup_singleton _, fun k hk k' hk' => ?_⟩
          rw [List.mem_singleton.mp hk']
          exact hfresh (h.issued hk)
        · rw [Function.update_of_ne hne]
          exact hnodup j
      · exact List.mem_cons_of_mem _ (h.others_issued hk)
      · simp only [Timers.refreshNearest_timerReps] at hr
        rcases OrdMap.has_set.mp hr with ⟨rfl, -⟩ | ⟨-, hr⟩
        · exact absurd rfl (hfresh (h.others_issued hk))
        · exact h.others_rep hk hr

/-! ### The state callback -/

theorem mem_update_tail {tasks : ConnId → List TimerId} {ks : List TimerId}
    (hi : tasks i = k :: ks) {j : ConnId} {k' : TimerId} :
    (k' ∈ Function.update tasks i (tasks i).tail j → k' ∈ tasks j) ∧
      (k' ∈ tasks j → k' ≠ k → k' ∈ Function.update tasks i (tasks i).tail j) := by
  rcases eq_or_ne j i with rfl | hne
  · rw [Function.update_self, hi, List.tail_cons]
    exact ⟨List.mem_cons_of_mem k, fun hk hne => (List.mem_cons.mp hk).resolve_left hne⟩
  · rw [Function.update_of_ne hne]
    exact ⟨id, fun hk _ => hk⟩

/-- A timer that `Cancel` does not find has no record, and `Exit` has been called. -/
theorem Sends.of_notFound (h : Sends s others) (hk : k ∈ s.timerTasks i)
    (hc : s.timers.base.cancel k = (false, s.timers.base)) :
    (∀ {r j}, s.timers.base.timerReps.Has k r → r.cb ≠ .send j) ∧
      s.timers.base.exit = true := by
  have hrep : ∀ {r j}, s.timers.base.timerReps.Has k r → r.cb ≠ .send j := by
    intro r j hr hcb
    rw [Timers.cancel, if_pos (h.rep hr hcb).2, OrdMap.find?_eq_some.mpr hr] at hc
    cases congrArg Prod.fst hc
  refine ⟨hrep, ?_⟩
  by_contra hexit
  obtain ⟨r, hr, hcb, -⟩ := (h.lasting (by simpa using hexit)).rep hk
  exact hrep hr hcb

/-- **One turn of the loop** takes the first timer out of `m_timerTasks` and out of the
timers. -/
theorem Sends.cancelTask (h : Sends s others) {ks : List TimerId}
    (hi : s.timerTasks i = k :: ks) : Sends (s.cancelTask i k) others := by
  have hk : k ∈ s.timerTasks i := hi ▸ List.mem_cons_self
  have hinv := h.inv.cancel (h.issued hk)
  have hout : ∀ {j k'}, k' ∈ Function.update s.timerTasks i (s.timerTasks i).tail j →
      k' ∈ s.timerTasks j := fun hk' => (mem_update_tail hi).1 hk'
  -- while the timers last, a timer that stays in a list is another one
  have hne : s.timers.base.exit = false → ∀ {j k'},
      k' ∈ Function.update s.timerTasks i (s.timerTasks i).tail j → k' ≠ k := by
    rintro hexit j k' hk' rfl
    have hlast := h.lasting hexit
    rcases eq_or_ne j i with rfl | hji
    · rw [Function.update_self, hi] at hk'
      have hnodup := hlast.nodup j
      rw [hi] at hnodup
      exact (List.nodup_cons.mp hnodup).1 hk'
    · obtain ⟨r, hr, hcb, -⟩ := hlast.rep hk
      obtain ⟨r', hr', hcb', -⟩ := hlast.rep (hout hk')
      rw [hr.unique hr', hcb'] at hcb
      exact hji (ServerTask.send.inj hcb)
  have hnodup : s.timers.base.exit = false →
      ∀ j, (Function.update s.timerTasks i (s.timerTasks i).tail j).Nodup := by
    intro hexit j
    have hnodup := (h.lasting hexit).nodup
    rcases eq_or_ne j i with rfl | hji
    · rw [Function.update_self]
      exact (hnodup j).tail
    · rw [Function.update_of_ne hji]
      exact hnodup j
  rcases h.inv.cancel_cases (h.issued hk) with hc | ⟨p, hp, hc⟩ | ⟨t, ht, hc⟩
  · -- it is not found
    obtain ⟨hrep, hexit⟩ := h.of_notFound hk hc
    rw [hc] at hinv
    simp only [SendTimers.cancelTask, hc]
    refine ⟨hinv, fun {k' r j} hr hcb => ?_, h.user, fun hk' => h.issued (hout hk'),
      fun hno => ?_, h.others_issued, h.others_rep⟩
    · obtain ⟨hmem, hneg⟩ := h.rep hr hcb
      refine ⟨(mem_update_tail hi).2 hmem ?_, hneg⟩
      rintro rfl
      exact hrep hr hcb
    · rw [hexit] at hno
      cases hno
  · -- its record goes, with the entry
    rw [hc] at hinv
    simp only [SendTimers.cancelTask, hc]
    refine ⟨hinv, fun {k' r j} hr hcb => ?_, fun hu => h.user (OrdMap.has_erase.mp hu).2,
      fun hk' => h.issued (hout hk'), fun hexit => ⟨fun hk' => ?_, hnodup hexit,
      (h.lasting hexit).notFound⟩, h.others_issued,
      fun hk' hr => h.others_rep hk' (OrdMap.has_erase.mp hr).2⟩
    · obtain ⟨hk', hr⟩ := OrdMap.has_erase.mp hr
      obtain ⟨hmem, hneg⟩ := h.rep hr hcb
      exact ⟨(mem_update_tail hi).2 hmem hk', hneg⟩
    · obtain ⟨r, hr, hcb⟩ := (h.lasting hexit).rep (hout hk')
      exact ⟨r, OrdMap.has_erase.mpr ⟨hne hexit hk', hr⟩, hcb⟩
  · -- it is a task of another kind, which only happens behind `Exit`
    have hrep : ∀ {r}, ¬ s.timers.base.timerReps.Has k r := fun hr => h.inv.seq_ne ht hr rfl
    have hexit : s.timers.base.exit = true := by
      by_contra hexit
      obtain ⟨r, hr, -⟩ := (h.lasting (by simpa using hexit)).rep hk
      exact hrep hr
    rw [hc] at hinv
    simp only [SendTimers.cancelTask, hc]
    refine ⟨hinv, fun {k' r j} hr hcb => ?_, fun hu => h.user (OrdMap.has_erase.mp hu).2,
      fun hk' => h.issued (hout hk'), fun hno => ?_, h.others_issued, h.others_rep⟩
    · obtain ⟨hmem, hneg⟩ := h.rep hr hcb
      refine ⟨(mem_update_tail hi).2 hmem ?_, hneg⟩
      rintro rfl
      exact hrep hr
    · rw [hexit] at hno
      cases hno

theorem timerTasks_cancelTask {ks : List TimerId} (hi : s.timerTasks i = k :: ks) :
    (s.cancelTask i k).timerTasks = Function.update s.timerTasks i ks := by
  rw [SendTimers.cancelTask, hi, List.tail_cons]

/-- **The state callback** empties `m_timerTasks`. -/
theorem Sends.onClosed {ks : List TimerId} (h : Sends s others) (hi : s.timerTasks i = ks) :
    Sends (SendTimers.onClosed i ks s) others := by
  induction ks generalizing s with
  | nil => exact h
  | cons k ks ih =>
      refine ih (h.cancelTask hi) ?_
      rw [timerTasks_cancelTask hi, Function.update_self]

theorem timerTasks_onClosed {ks : List TimerId} (hi : s.timerTasks i = ks) :
    (SendTimers.onClosed i ks s).timerTasks = Function.update s.timerTasks i [] := by
  induction ks generalizing s with
  | nil =>
      have hsame := Function.update_eq_self i s.timerTasks
      rw [hi] at hsame
      exact hsame.symm
  | cons k ks ih =>
      have htasks := timerTasks_cancelTask hi
      rw [SendTimers.onClosed, ih (by rw [htasks, Function.update_self]), htasks,
        Function.update_idem]

/-- What one callback does keeps the timers in order. -/
theorem Sends.tell (h : Sends s others) (hnow : 0 < now) (delay : Nat) (e : Event) :
    Sends (s.tell now delay e) others := by
  cases e with
  | timerCb i => exact h.onTimer hnow delay i
  | stateCb i st =>
      cases st with
      | closed => exact h.onClosed rfl
      | _ => exact h
  | _ => exact h

/-- What the callbacks of one event do. -/
theorem Sends.tells (h : Sends s others) (hnow : 0 < now) (delay : Nat) (es : List Event) :
    Sends (es.foldl (SendTimers.tell now delay) s) others := by
  induction es generalizing s with
  | nil => exact h
  | cons e es ih => exact ih (h.tell hnow delay e)

/-! ### How many timers a connection has -/

/-- The number of timers in `m_timerTasks` of connection `i` behind one more event. -/
def countTask (i : ConnId) (n : Nat) : Event → Nat
  | .timerCb j => if j = i then n + 1 else n
  | .stateCb j .closed => if j = i then 0 else n
  | _ => n

/-- The number of timers in `m_timerTasks` of connection `i`, counted off the trace. -/
def sendTasks (i : ConnId) (tr : List Event) : Nat := tr.foldl (countTask i) 0

theorem length_tell (now : Int) (delay : Nat) (s : SendTimers τ) (i : ConnId) (e : Event) :
    ((s.tell now delay e).timerTasks i).length = countTask i (s.timerTasks i).length e := by
  cases e with
  | timerCb j =>
      simp only [SendTimers.tell, SendTimers.onTimer, countTask]
      rcases eq_or_ne j i with rfl | hne
      · rw [Function.update_self, if_pos rfl, List.length_append, List.length_singleton]
      · rw [Function.update_of_ne hne.symm, if_neg hne]
  | stateCb j st =>
      cases st with
      | closed =>
          simp only [SendTimers.tell, countTask]
          rw [timerTasks_onClosed rfl]
          rcases eq_or_ne j i with rfl | hne
          · rw [Function.update_self, if_pos rfl, List.length_nil]
          · rw [Function.update_of_ne hne.symm, if_neg hne]
      | _ => rfl
  | _ => rfl

theorem length_tells (now : Int) (delay : Nat) (s : SendTimers τ) (i : ConnId)
    (es : List Event) :
    ((es.foldl (SendTimers.tell now delay) s).timerTasks i).length =
      es.foldl (countTask i) (s.timerTasks i).length := by
  induction es generalizing s with
  | nil => rfl
  | cons e es ih => rw [List.foldl_cons, List.foldl_cons, ih, length_tell]

/-- Only the calls of the two callbacks count. -/
theorem foldl_countTask (i : ConnId) (tr : List Event) (n : Nat) :
    tr.foldl (countTask i) n = (connCalls i tr).foldl (countTask i) n := by
  induction tr generalizing n with
  | nil => rfl
  | cons e tr ih =>
      have hother : countTask i n e = n → connCalls i (e :: tr) = connCalls i tr →
          (e :: tr).foldl (countTask i) n = (connCalls i (e :: tr)).foldl (countTask i) n := by
        intro hn hcalls
        rw [List.foldl_cons, hn, hcalls]
        exact ih n
      have hself : connCalls i (e :: tr) = e :: connCalls i tr →
          (e :: tr).foldl (countTask i) n = (connCalls i (e :: tr)).foldl (countTask i) n := by
        intro hcalls
        rw [List.foldl_cons, hcalls, List.foldl_cons]
        exact ih _
      cases e with
      | timerCb j =>
          by_cases hj : j = i
          · exact hself (List.filter_cons_of_pos (decide_eq_true hj))
          · exact hother (if_neg hj) (List.filter_cons_of_neg (by simpa using hj))
      | stateCb j st =>
          by_cases hj : j = i
          · exact hself (List.filter_cons_of_pos (decide_eq_true hj))
          · refine hother ?_ (List.filter_cons_of_neg (by simpa using hj))
            cases st with
            | closed => exact if_neg hj
            | _ => rfl
      | _ => exact hother rfl rfl

/-- Between two events, a connection that is connected has one timer, and every other
one has none. -/
theorem sendTasks_of_called {v : Hub} (h : v.Called) (i : ConnId) :
    sendTasks i v.trace = if (v.peer i).state = .connected then 1 else 0 := by
  rw [sendTasks, foldl_countTask, h i]
  cases (v.peer i).state <;> simp [ConnState.calls, countTask]

/-! ### What the timers do on their own -/

/-- From `b` to `b'` the repeating timers that send are the same, but that `Exit` lets go
of them. -/
structure SameSends (b b' : Timers (ServerTask τ)) : Prop where
  reps : ∀ {k r' i}, b'.timerReps.Has k r' → r'.cb = .send i →
    ∃ r, b.timerReps.Has k r ∧ r.cb = .send i
  user : ∀ {k i}, b'.timers.Has k (.user (.send i)) → b.timers.Has k (.user (.send i))
  exit : b'.exit = false → b.exit = false
  kept : b'.exit = false → ∀ {k r i}, b.timerReps.Has k r → r.cb = .send i →
    ∃ r', b'.timerReps.Has k r' ∧ r'.cb = r.cb ∧ r'.interval = r.interval

theorem SameSends.refl (b : Timers (ServerTask τ)) : SameSends b b :=
  ⟨fun hr hcb => ⟨_, hr, hcb⟩, id, id, fun _ _ _ _ hr _ => ⟨_, hr, rfl, rfl⟩⟩

theorem SameSends.refresh (h : SameSends b b') (now : Int) :
    SameSends b (b'.refreshNearest now) := by
  have hexit : (b'.refreshNearest now).exit = b'.exit := by
    rw [Timers.refreshNearest]
    split <;> rfl
  constructor
  · intro k r' i hr
    rw [Timers.refreshNearest_timerReps] at hr
    exact h.reps hr
  · intro k i hu
    rw [Timers.refreshNearest_timers] at hu
    exact h.user hu
  · rw [hexit]
    exact h.exit
  · rw [hexit, Timers.refreshNearest_timerReps]
    exact h.kept

/-- The records are the same, and entries have only gone. -/
theorem SameSends.of_reps (hreps : b'.timerReps = b.timerReps)
    (htimers : ∀ {k i}, b'.timers.Has k (.user (.send i)) → b.timers.Has k (.user (.send i)))
    (hexit : b'.exit = false → b.exit = false) : SameSends b b' := by
  refine ⟨fun hr hcb => ?_, htimers, hexit, fun _ {k r i} hr _ => ?_⟩
  · rw [hreps] at hr
    exact ⟨_, hr, hcb⟩
  · rw [hreps]
    exact ⟨r, hr, rfl, rfl⟩

theorem SameSends.runAt (h : ∀ {k r}, b.timerReps.Has k r → k.second ≤ b.timerSeq)
    (now milli : Int) (task : τ) (interval : Int) :
    SameSends b (b.runAt now milli (.other task) interval).2 := by
  simp only [Timers.runAt]
  split
  · exact .refl b
  · split
    · -- a record of another task, under a new number
      apply SameSends.refresh
      refine ⟨fun hr hcb => ?_, fun hu => ?_, id, fun _ {k r i} hr _ => ?_⟩
      · rcases OrdMap.has_set.mp hr with ⟨-, rfl⟩ | ⟨-, hr⟩
        · cases hcb
        · exact ⟨_, hr, hcb⟩
      · rcases OrdMap.has_set.mp hu with ⟨-, hu⟩ | ⟨-, hu⟩
        · cases hu
        · exact hu
      · refine ⟨r, OrdMap.has_set.mpr (Or.inr ⟨?_, hr⟩), rfl, rfl⟩
        rintro rfl
        have := h hr
        simp only at this
        omega
    · apply SameSends.refresh
      refine .of_reps rfl (fun {k i} hu => ?_) id
      simp only [OrdMap.insert] at hu
      split at hu
      · exact hu
      · rcases OrdMap.has_set.mp hu with ⟨-, hu⟩ | ⟨-, hu⟩
        · cases hu
        · exact hu

theorem SameSends.cancel {issued : List TimerId} (h : TimersInv b issued) (hk : k ∈ issued)
    (hother : ∀ {r i}, b.timerReps.Has k r → r.cb ≠ .send i) : SameSends b (b.cancel k).2 := by
  rcases h.cancel_cases hk with hc | ⟨p, hp, hc⟩ | ⟨t, ht, hc⟩
  · rw [hc]
    exact .refl b
  · rw [hc]
    refine ⟨fun hr hcb => ⟨_, (OrdMap.has_erase.mp hr).2, hcb⟩,
      fun hu => (OrdMap.has_erase.mp hu).2, id, fun _ {k' r i} hr hcb => ?_⟩
    refine ⟨r, OrdMap.has_erase.mpr ⟨?_, hr⟩, rfl, rfl⟩
    rintro rfl
    exact hother hr hcb
  · rw [hc]
    exact .of_reps rfl (fun hu => (OrdMap.has_erase.mp hu).2) id

/-- A task is run: a record moves on. -/
theorem SameSends.turn {v : TimerTask (ServerTask τ)} (h : Turn b k v b') : SameSends b b' := by
  cases h with
  | user hk => exact .of_reps rfl (fun hu => (OrdMap.has_erase.mp hu).2) id
  | @repeatable tr r hr clock =>
      have hexit : (b.rearmed clock tr r).exit = b.exit := by
        rw [Timers.rearmed, Timers.refreshNearest]
        split <;> rfl
      refine ⟨fun hr' hcb => ?_, fun hu => ?_, fun he => hexit.symm.trans he,
        fun _ {k r' i} hr' hcb => ?_⟩
      · rcases has_rearmed_reps.mp hr' with ⟨rfl, rfl⟩ | ⟨-, hr'⟩
        · exact ⟨r, hr, hcb⟩
        · exact ⟨_, hr', hcb⟩
      · rw [Timers.rearmed, Timers.refreshNearest_timers] at hu
        rcases OrdMap.has_set.mp hu with ⟨-, hu⟩ | ⟨-, hu⟩
        · cases hu
        · exact (OrdMap.has_erase.mp hu).2
      · by_cases hk : k = tr
        · subst hk
          obtain rfl := hr.unique hr'
          exact ⟨_, has_rearmed_reps.mpr (Or.inl ⟨rfl, rfl⟩), rfl, rfl⟩
        · exact ⟨r', has_rearmed_reps.mpr (Or.inr ⟨hk, hr'⟩), rfl, rfl⟩

/-- The step is none of the callbacks of a connection, and the maps are cleared behind
`Exit` only. -/
def Foreign (others : List TimerId) (t : TimerState (ServerTask τ)) :
    TimerAction (ServerTask τ) → Prop
  | .runAt _ _ task _ => ∃ x, task = .other x
  | .cancel timerid => timerid ∈ others
  | .clear => t.base.exit = true
  | _ => True

theorem Sends.sameSends (h : Sends s others) {a : TimerAction (ServerTask τ)}
    {t : TimerState (ServerTask τ)} (hstep : timerStep s.timers a = some t)
    (ha : Foreign others s.timers a) : SameSends s.timers.base t.base := by
  cases a with
  | runAt clock milli task interval =>
      obtain ⟨x, rfl⟩ := ha
      cases TimerStep.of_timerStep hstep with
      | runAt huser => exact .runAt h.inv.reps_seq clock milli x interval
  | cancel timerid =>
      cases TimerStep.of_timerStep hstep with
      | cancel huser hissued =>
          exact .cancel h.inv hissued fun hr => h.others_rep (show timerid ∈ others from ha) hr
  | fire clock =>
      obtain ⟨-, k, v, -, -, -, -, hturn⟩ := timerStep_fire h.inv hstep
      exact .turn hturn
  | handleTimeouts now =>
      cases TimerStep.of_timerStep hstep with
      | handleTimeouts hctl => exact .refl _
  | ret =>
      cases TimerStep.of_timerStep hstep with
      | ret hctl => exact .refl _
  | finish clock =>
      cases TimerStep.of_timerStep hstep with
      | finish hctl hdue => exact (SameSends.refl _).refresh clock
  | exit =>
      cases TimerStep.of_timerStep hstep with
      | exit huser => exact .of_reps rfl id fun he => by cases he
  | clear =>
      cases TimerStep.of_timerStep hstep with
      | clear hctl =>
          have hexit : s.timers.base.exit = true := ha
          exact ⟨fun hr => absurd hr OrdMap.not_has_empty,
            fun hu => absurd hu OrdMap.not_has_empty, id, fun he => by cases hexit.symm.trans he⟩

/-- **A step of the timers** that is none of the callbacks of a connection. -/
theorem Sends.step (h : Sends s others) {a : TimerAction (ServerTask τ)}
    {t : TimerState (ServerTask τ)} (hstep : timerStep s.timers a = some t)
    (ha : Foreign others s.timers a) : Sends { s with timers := t } others := by
  have hsame := h.sameSends hstep ha
  have hissued := timerStep_issued hstep
  refine ⟨timerStep_inv hstep h.inv, fun hr hcb => ?_, fun hu => h.user (hsame.user hu),
    fun hk => hissued (h.issued hk), fun hexit => ?_, fun hk => hissued (h.others_issued hk),
    fun hk hr hcb => ?_⟩
  · obtain ⟨r, hr, hcb⟩ := hsame.reps hr hcb
    exact h.rep hr hcb
  · have hlast := h.lasting (hsame.exit hexit)
    refine ⟨fun hk => ?_, hlast.nodup, hlast.notFound⟩
    obtain ⟨r, hr, hcb, hint⟩ := hlast.rep hk
    obtain ⟨r', hr', hcb', hint'⟩ := hsame.kept hexit hr hcb
    exact ⟨r', hr', hcb'.trans hcb, hint'.trans hint⟩
  · obtain ⟨r, hr, hcb⟩ := hsame.reps hr hcb
    exact h.others_rep hk hr hcb

/-- The identifier of another task that has just been registered. -/
theorem Sends.add_other (h : Sends s others) {clock milli : Int} {task : τ} {interval : Int}
    {t : TimerState (ServerTask τ)}
    (hstep : timerStep s.timers (.runAt clock milli (.other task) interval) = some t) :
    Sends { s with timers := t }
      ((s.timers.base.runAt clock milli (.other task) interval).1 :: others) := by
  have hnext := h.step hstep ⟨task, rfl⟩
  refine { hnext with others_issued := fun hk => ?_, others_rep := fun hk hr hcb => ?_ }
  · rcases List.mem_cons.mp hk with rfl | hk
    · cases TimerStep.of_timerStep hstep with
      | runAt huser => exact List.mem_cons_self
    · exact hnext.others_issued hk
  · rcases List.mem_cons.mp hk with rfl | hk
    · cases hexit : s.timers.base.exit with
      | true =>
          -- `TimerId()` is not the identifier of a repeating timer
          have hneg := (hnext.rep hr hcb).2
          rw [Timers.runAt, if_pos hexit] at hneg
          exact absurd hneg (lt_irrefl _)
      | false =>
          obtain ⟨hreg, -⟩ := registered_of_runAt h.inv hexit hstep
          rw [(hreg.rep hr).2] at hcb
          cases hcb
    · exact hnext.others_rep hk hr hcb

/-! ### Runs -/

namespace PeriodicServer

variable {app : App} {σ σ' : PeriodicServer τ}

/-- What holds in every run of such a server. -/
structure Serving (slots : Slots) (σ : PeriodicServer τ) : Prop where
  told : σ.world.Told slots
  sends : Sends σ.sends σ.others
  tasks : ∀ i, (σ.sends.timerTasks i).length = sendTasks i σ.world.trace
  /-- a task runs inside a pass only -/
  busy : σ.running.isSome → ∃ now, σ.sends.timers.control = .callback now
  running : ∀ {i}, σ.running = some (.send i) → (σ.world.con i).state = .connected

namespace Serving

variable {slots : Slots}

theorem init (slots : Slots) (wakeupFd listenFd : Int) :
    (PeriodicServer.init wakeupFd listenFd : PeriodicServer τ).Serving slots where
  told := World.told_init slots wakeupFd listenFd
  sends := Sends.init
  tasks _ := rfl
  busy h := by cases h
  running h := by cases h

/-- A connection with a timer is connected. -/
theorem connected_of_mem (h : σ.Serving slots) (hk : k ∈ σ.sends.timerTasks i) :
    (σ.world.con i).state = .connected := by
  have hlen := h.tasks i
  rw [show sendTasks i σ.world.trace = _ from sendTasks_of_called h.told.called i] at hlen
  split at hlen
  · assumption
  · rw [List.length_eq_zero_iff.mp hlen] at hk
    cases hk

/-- **The task that `fire` runs** sends to a connection that is connected. -/
theorem connected_of_due (h : σ.Serving slots) (hdue : σ.due = some (.send i)) :
    (σ.world.con i).state = .connected := by
  simp only [due] at hdue
  split at hdue
  · obtain ⟨⟨task, b⟩, htake, hstart⟩ := Option.bind_eq_some_iff.mp hdue
    obtain ⟨x, hx, hsend⟩ := Option.map_eq_some_iff.mp hstart
    obtain ⟨k, hk, rfl⟩ := takeDue_some htake
    cases task with
    | user t =>
        cases hx
        obtain rfl : t = .send i := hsend
        exact absurd hk h.sends.user
    | repeatable tr =>
        obtain ⟨r, hr, rfl⟩ := Option.map_eq_some_iff.mp hx
        exact h.connected_of_mem (h.sends.rep (OrdMap.find?_eq_some.mp hr) hsend).1
  · cases hdue

/-- The timers take a step that is none of the callbacks of a connection. -/
theorem timers (h : σ.Serving slots) {a : TimerAction (ServerTask τ)}
    {t : TimerState (ServerTask τ)} (hstep : timerStep σ.sends.timers a = some t)
    (ha : Foreign σ.others σ.sends.timers a)
    (hbusy : σ.running.isSome → ∃ now, t.control = .callback now) :
    Serving slots { σ with sends := { σ.sends with timers := t } } where
  told := h.told
  sends := h.sends.step hstep ha
  tasks := h.tasks
  busy := hbusy
  running := h.running

/-- Outside a callback no task is running. -/
theorem not_busy (h : σ.Serving slots)
    (hctl : ∀ now, σ.sends.timers.control ≠ .callback now) : ¬ σ.running.isSome := by
  intro hrun
  obtain ⟨now, hcb⟩ := h.busy hrun
  exact hctl now hcb

end Serving

/-- An event that does not need the loop thread is nothing to the connections. -/
theorem hub_of_anytime {w w' : World} {a : Input} (ha : a.anytime)
    (hstep : worldStep app w a = some w') (hw : w.Good) : w'.hub = w.hub := by
  have hsim := (worldStep_refines hstep hw.refines).hub
  cases a with
  | user op => exact hsim
  | tick now => exact hsim
  | _ => cases ha

theorem control_tells (now : Int) (delay : Nat) (s : SendTimers τ) (es : List Event) :
    (es.foldl (SendTimers.tell now delay) s).timers.control = s.timers.control := by
  have hclosed : ∀ (ks : List TimerId) (i : ConnId) (s : SendTimers τ),
      (SendTimers.onClosed i ks s).timers.control = s.timers.control := by
    intro ks i
    induction ks with
    | nil => exact fun _ => rfl
    | cons k ks ih => exact fun s => ih (s.cancelTask i k)
  have htell : ∀ (s : SendTimers τ) (e : Event),
      (s.tell now delay e).timers.control = s.timers.control := by
    intro s e
    cases e with
    | stateCb i st =>
        cases st with
        | closed => exact hclosed _ i s
        | _ => rfl
    | _ => rfl
  induction es generalizing s with
  | nil => rfl
  | cons e es ih => rw [List.foldl_cons, ih, htell]

namespace Serving

/-- An event of the loop. -/
theorem event (hcb : app.slots.stateCb = true) (htimer : app.slots.timerCb = true)
    (h : σ.Serving app.slots) {a : Input} {w : World}
    (hfree : σ.sends.timers.control = .outside ∨ a.anytime)
    (hstep : worldStep app σ.world a = some w) (hnow : 0 < w.now) (delay : Nat) :
    Serving app.slots { σ with
      world := w
      sends := (w.trace.drop σ.world.trace.length).foldl (SendTimers.tell w.now delay)
        σ.sends } := by
  obtain ⟨es, htr⟩ := h.told.good.exists_trace hstep
  rw [htr, List.drop_left]
  refine ⟨called_of_worldStep hcb htimer hstep h.told, h.sends.tells hnow delay es,
    fun i => ?_, fun hrun => ?_, fun {i} hrun => ?_⟩
  · show ((es.foldl _ σ.sends).timerTasks i).length = sendTasks i w.trace
    rw [length_tells, h.tasks i, htr, sendTasks, sendTasks, List.foldl_append]
  · show ∃ now, (es.foldl _ σ.sends).timers.control = .callback now
    rw [control_tells]
    exact h.busy hrun
  · rcases hfree with hctl | ha
    · have hrun : σ.running = some (.send i) := hrun
      refine absurd ?_ (h.not_busy fun now hc => ?_)
      · rw [hrun]
        rfl
      · rw [hctl] at hc
        cases hc
    · have hpeer := congrArg (fun v : Hub => (v.peer i).state)
        (hub_of_anytime ha hstep h.told.good)
      exact Eq.trans hpeer (h.running hrun)

/-- The code of a task is an operation of the caller, or none. -/
theorem runTask (hcb : app.slots.stateCb = true) (htimer : app.slots.timerCb = true)
    {w : World} (h : w.Told app.slots) (data : List UInt8) (task : ServerTask τ) :
    (runTask data w task).Told app.slots ∧ (PeriodicServer.runTask data w task).hub = w.hub := by
  cases task with
  | other x => exact ⟨h, rfl⟩
  | send i =>
      have hstep : worldStep app w (.user (.sendMsg i data)) =
          some (w.runOp (.sendMsg i data)) := rfl
      exact ⟨called_of_worldStep hcb htimer hstep h, hub_of_anytime rfl hstep h.good⟩

/-- The next due task is run. -/
theorem fire (hcb : app.slots.stateCb = true) (htimer : app.slots.timerCb = true)
    (h : σ.Serving app.slots) (data : List UInt8) {task : ServerTask τ} {clock : Int}
    {t : TimerState (ServerTask τ)} (hdue : σ.due = some task)
    (hstep : timerStep σ.sends.timers (.fire clock) = some t) :
    Serving app.slots { σ with
      world := PeriodicServer.runTask data σ.world task
      sends := { σ.sends with timers := t }
      running := some task } := by
  obtain ⟨htold, hhub⟩ := runTask hcb htimer h.told data task
  obtain ⟨now, -, -, -, -, -, hctl, -⟩ := timerStep_fire h.sends.inv hstep
  refine ⟨htold, h.sends.step hstep trivial, fun i => ?_, fun _ => ⟨now, hctl⟩,
    fun {i} hrun => ?_⟩
  · have htr := congrArg Hub.trace hhub
    exact (h.tasks i).trans (congrArg (sendTasks i) htr.symm)
  · obtain rfl := Option.some.inj hrun
    have hpeer := congrArg (fun v : Hub => (v.peer i).state) hhub
    exact Eq.trans hpeer (h.connected_of_due hdue)

/-- **One step keeps it.** -/
theorem step (hcb : app.slots.stateCb = true) (htimer : app.slots.timerCb = true) {delay : Nat}
    {a : ServerLabel τ} (hstep : PeriodicServer.step app delay σ a = some σ')
    (hnow : 0 < σ'.world.now) (h : σ.Serving app.slots) : σ'.Serving app.slots := by
  cases a with
  | event a =>
      simp only [PeriodicServer.step] at hstep
      split at hstep
      · rename_i hfree
        obtain ⟨w, hw, rfl⟩ := Option.map_eq_some_iff.mp hstep
        exact h.event hcb htimer hfree hw hnow delay
      · cases hstep
  | handleTimeouts =>
      obtain ⟨t, ht, rfl⟩ := Option.map_eq_some_iff.mp hstep
      refine h.timers ht trivial fun hrun => absurd hrun (h.not_busy fun now hc => ?_)
      cases TimerStep.of_timerStep ht with
      | handleTimeouts hctl => cases hctl.symm.trans hc
  | fire data =>
      obtain ⟨task, hdue, hrun⟩ := Option.bind_eq_some_iff.mp hstep
      obtain ⟨σ₁, hσ₁, rfl⟩ := Option.map_eq_some_iff.mp hrun
      obtain ⟨t, ht, rfl⟩ := Option.map_eq_some_iff.mp hσ₁
      exact h.fire hcb htimer data hdue ht
  | ret =>
      obtain ⟨σ₁, hσ₁, rfl⟩ := Option.map_eq_some_iff.mp hstep
      obtain ⟨t, ht, rfl⟩ := Option.map_eq_some_iff.mp hσ₁
      exact ⟨h.told, h.sends.step ht trivial, h.tasks, fun hrun => by (cases hrun),
        fun hrun => by cases hrun⟩
  | finish =>
      obtain ⟨t, ht, rfl⟩ := Option.map_eq_some_iff.mp hstep
      refine h.timers ht trivial fun hrun => absurd hrun (h.not_busy fun now hc => ?_)
      cases TimerStep.of_timerStep ht with
      | finish hctl hdue => cases hctl.symm.trans hc
  | runAt milli task interval =>
      obtain ⟨σ₁, hσ₁, rfl⟩ := Option.map_eq_some_iff.mp hstep
      obtain ⟨t, ht, rfl⟩ := Option.map_eq_some_iff.mp hσ₁
      refine ⟨h.told, h.sends.add_other ht, h.tasks, fun hrun => ?_, h.running⟩
      cases TimerStep.of_timerStep ht with
      | runAt huser => exact h.busy hrun
  | cancel timerid =>
      simp only [PeriodicServer.step] at hstep
      split at hstep
      · rename_i hmem
        obtain ⟨t, ht, rfl⟩ := Option.map_eq_some_iff.mp hstep
        refine h.timers ht hmem fun hrun => ?_
        cases TimerStep.of_timerStep ht with
        | cancel huser hissued => exact h.busy hrun
      · cases hstep
  | exit =>
      obtain ⟨t, ht, rfl⟩ := Option.map_eq_some_iff.mp hstep
      refine h.timers ht trivial fun hrun => ?_
      cases TimerStep.of_timerStep ht with
      | exit huser => exact h.busy hrun
  | clear =>
      simp only [PeriodicServer.step] at hstep
      split at hstep
      · rename_i hexit
        obtain ⟨t, ht, rfl⟩ := Option.map_eq_some_iff.mp hstep
        refine h.timers ht hexit fun hrun => absurd hrun (h.not_busy fun now hc => ?_)
        cases TimerStep.of_timerStep ht with
        | clear hctl => cases hctl.symm.trans hc
      · cases hstep

end Serving

end PeriodicServer

/-! ### Main result -/

/-- **A server that sends periodically.**  Take any run of such a server: connections
come, are read from, fail and go, other code registers and cancels timers and calls the
connections, passes come when they come, and the clock, which is positive, may go back.
A task that sends runs only for a connection that is connected and has its channel.  A
connection that is not connected has nothing in `m_timerTasks`, and no record of the
timers sends to it.  Until `Exit` is called, `Cancel` has found every timer it was asked for,
and a connection that is connected has exactly one timer, which is in its
`m_timerTasks`, comes every 1000 ms, and is what `Cancel` will find. -/
theorem sends_of_run {app : App} (hcb : app.slots.stateCb = true)
    (htimer : app.slots.timerCb = true) {delay : Nat} {wakeupFd listenFd : Int}
    {as : List (ServerLabel τ)} {σ : PeriodicServer τ}
    (hrun : Exec.exec (PeriodicServer.step app delay) (PeriodicServer.init wakeupFd listenFd) as =
      some σ)
    (hclock : Exec.Along (PeriodicServer.step app delay) (fun _ _ σ' => 0 < σ'.world.now)
      (PeriodicServer.init wakeupFd listenFd) as) (i : ConnId) :
    (σ.running = some (.send i) →
      (σ.world.con i).state = .connected ∧ (σ.world.con i).channel.isSome) ∧
    ((σ.world.con i).state ≠ .connected → σ.sends.timerTasks i = [] ∧
      ∀ k r, σ.sends.timers.base.timerReps.Has k r → r.cb ≠ .send i) ∧
    (σ.sends.timers.base.exit = false → σ.sends.notFound = 0 ∧
      ((σ.world.con i).state = .connected → ∃ k r, σ.sends.timerTasks i = [k] ∧
        σ.sends.timers.base.timerReps.Has k r ∧ r.cb = .send i ∧ r.interval = 1000 ∧
        (σ.sends.timers.base.cancel k).1 = true ∧
        ∀ k' r', σ.sends.timers.base.timerReps.Has k' r' → r'.cb = .send i → k' = k)) := by
  have h : σ.Serving app.slots :=
    Exec.invariant_along (fun _ _ _ hstep hnow hs => hs.step hcb htimer hstep hnow) hclock hrun
      (PeriodicServer.Serving.init app.slots wakeupFd listenFd)
  have hlen := h.tasks i
  rw [show sendTasks i σ.world.trace = _ from sendTasks_of_called h.told.called i] at hlen
  refine ⟨fun hr => ?_, fun hs => ?_, fun hexit => ⟨(h.sends.lasting hexit).notFound,
    fun hs => ?_⟩⟩
  · have hs := h.running hr
    refine ⟨hs, ?_⟩
    have hopen : (σ.world.hub.peer i).isOpen = true :=
      (h.told.good.settled.open_iff i).trans (by
        show (σ.world.con i).state.live = true
        rw [hs]
        rfl)
    obtain ⟨ch, hch⟩ := Hub.exists_channel_of_isOpen hopen
    obtain ⟨c, hc, -⟩ := Option.map_eq_some_iff.mp hch
    rw [hc]
    rfl
  · refine ⟨?_, fun k r hr hsend => hs (h.connected_of_mem (h.sends.rep hr hsend).1)⟩
    rw [if_neg (show ¬ (σ.world.hub.peer i).state = .connected from hs)] at hlen
    exact List.length_eq_zero_iff.mp hlen
  · rw [if_pos (show (σ.world.hub.peer i).state = .connected from hs)] at hlen
    obtain ⟨k, hk⟩ := List.length_eq_one_iff.mp hlen
    have hmem : k ∈ σ.sends.timerTasks i := hk ▸ List.mem_singleton_self k
    obtain ⟨r, hr, hsend, hint⟩ := (h.sends.lasting hexit).rep hmem
    refine ⟨k, r, hk, hr, hsend, hint, ?_, fun k' r' hr' hsend' => ?_⟩
    · rw [Timers.cancel, if_pos (h.sends.rep hr hsend).2, OrdMap.find?_eq_some.mpr hr]
    · have hmem' := (h.sends.rep hr' hsend').1
      rw [hk] at hmem'
      exact List.mem_singleton.mp hmem'

/-- A heartbeat is answered, one pass sends, and the client goes. -/
def heartbeatAndSend : List (ServerLabel Unit) :=
  [.event (.tick 5000),
    .event (.accept 6 [.data 0 [0, 0, 8, 4, 0, 0, 0], .wouldBlock, .closed]
      [.accept 100, .accept 100] [1]),
    .event (.readable 0), .handleTimeouts, .fire [1, 2, 3], .ret, .finish, .event (.readable 0)]

theorem sends_of_run_heartbeatAndSend : ∃ σ,
    Exec.exec (PeriodicServer.step periodicallySendTest 0) (PeriodicServer.init 4 5)
      heartbeatAndSend = some σ ∧
      (σ.world.con 0).state ≠ .connected ∧ σ.sends.timerTasks 0 = [] := by
  have hrun : (Exec.exec (PeriodicServer.step periodicallySendTest 0) (PeriodicServer.init 4 5)
      heartbeatAndSend).map (fun σ => decide ((σ.world.con 0).state = .closed)) = some true := by
    decide +kernel
  obtain ⟨σ, hσ, hs⟩ := Option.map_eq_some_iff.mp hrun
  have hs : (σ.world.con 0).state ≠ .connected := by
    rw [of_decide_eq_true hs]
    decide
  have hclock : Exec.Along (PeriodicServer.step periodicallySendTest 0)
      (fun _ _ σ' => 0 < σ'.world.now) (PeriodicServer.init 4 5) heartbeatAndSend := by
    decide +kernel
  exact ⟨σ, hσ, hs, ((sends_of_run rfl rfl hσ hclock 0).2.1 hs).1⟩

end Libet
