/-
Libet/IdleClose.lean

Idle connections are closed.

The closes that a pass of `CallIdles` queues go through `SafeCall` into the queue of
tasks, and the tasks start the teardowns, while other events of the loop come in
between.  A queued close is run once all tasks in front of it have been, and the
connection is gone from then on, whatever else happens (`gone_of_run`).

A burst updates the nodes of its connection, if the connection is still connected
behind it (`fresh_handleRead`), so a connection that is read from is not closed before
its idle time has gone by.

Main results: `idleClose_of_run`, `spared_of_run`.
-/
import Libet.IdleServer
import Libet.Reassembly

namespace Libet

variable {app : App} {w w' : World} {i : ConnId} {idle : Int}

/-! ### The queue of tasks -/

/-- The event runs the first task of the queue. -/
def Input.isTask : Input → Bool
  | .task => true
  | _ => false

variable {u u' : World} {l : List ConnId} {j : ConnId} {as : List Input}

/-- The caller queues tasks at the end. -/
theorem prefix_runOp (op : UserOp) (h : l <+: w.base.tasks) : l <+: (w.runOp op).base.tasks := by
  refine World.runOp_rule (P := fun w => l <+: w.base.tasks) (fun _ _ _ h => h)
    (fun i h => h.trans (List.prefix_append _ [i])) (fun {w i} lst h hch => ?_) op h
  have htasks : (w.base.registerIdle w.now lst i).2.tasks = w.base.tasks := by
    rw [EventBase.registerIdle]
    split <;> rfl
  rw [World.runOp, if_pos hch]
  show l <+: (w.base.registerIdle w.now lst i).2.tasks
  rwa [htasks]

/-- No handler takes a task out of the queue. -/
theorem prefix_rule (app : App) (l : List ConnId) :
    World.CallRule app fun w => l <+: w.base.tasks := by
  refine .of_runOp prefix_runOp (fun _ _ _ h => h) (fun h _ => h) (fun _ h => h)
    (fun h _ _ _ htasks => htasks.symm ▸ h) (fun {w} i h => ?_) (fun {w} i h => ?_)
  · have htasks := EventBase.foldl_frame (g := EventBase.tasks) (f := EventBase.unregisterIdle)
      (fun _ _ => rfl) (w.con i).idleIds w.base
    exact htasks.symm ▸ h
  · have htasks := EventBase.foldl_frame (g := EventBase.tasks)
      (f := fun b id => b.updateIdle w.now id) (fun _ _ => rfl) (w.con i).idleIds w.base
    exact htasks.symm ▸ h

theorem prefix_of_worldStep {a : Input} (hstep : worldStep app u a = some u') (ha : a ≠ .task)
    (h : l <+: u.base.tasks) : l <+: u'.base.tasks :=
  (prefix_rule app l).worldStep hstep h (fun _ _ _ _ _ => h) (fun _ _ he => absurd he ha)
    (fun op _ => prefix_runOp op h) fun _ _ => h

/-- The loop runs the task in front. -/
theorem prefix_of_task (hstep : worldStep app u .task = some u')
    (h : j :: l <+: u.base.tasks) : u.base.tasks.head? = some j ∧ l <+: u'.base.tasks := by
  obtain ⟨rest, hrest⟩ := h
  rw [worldStep, ← hrest] at hstep
  obtain rfl := Option.some.inj hstep
  refine ⟨by rw [← hrest]; rfl, (prefix_rule app l).postedClose ?_⟩
  exact List.prefix_append l rest

/-- A close that has been run leaves no channel behind. -/
theorem Hub.closeChannel_channel {v : Hub} {p : Platform} (hv : v.Settled) (hc : v.Consistent)
    (i : ConnId) : ((v.closeChannel p i).peer i).channel = none := by
  cases hopen : (v.peer i).isOpen with
  | true =>
      have hlive := (hv.open_iff i).symm.trans hopen
      have hs : (v.peer i).pending = [] ∨ (v.peer i).state = .connected := by
        cases hst : (v.peer i).state with
        | handshaking => exact Or.inl (hv.empty i hst)
        | connected => exact Or.inr rfl
        | invalid | closed | failed => rw [hst] at hlive; cases hlive
      exact ((settled_rule ⟨none, false, false, false⟩).closeChannel hv hlive hopen hs).2.2.2
  | false =>
      rw [Hub.closeChannel, if_neg (by simp [hopen])]
      exact hc.channel_none i ((hv.open_iff i).symm.trans hopen)

/-- The task of a close, seen from the hub. -/
theorem hub_of_task (hstep : worldStep app u .task = some u') (hu : u.Good)
    (hhead : u.base.tasks.head? = some j) : u'.hub = u.hub.closeChannel app.plat j := by
  have hsim := (worldStep_refines hstep hu.refines).hub
  rw [Input.action, hhead] at hsim
  exact hsim

/-! ### Connections that are closed -/

/-- The state callback of connection `i` has seen `Connected`; if `gone`, its channel
is gone. -/
def Told (i : ConnId) (gone : Prop) (w : World) : Prop :=
  i < w.nextConn ∧ .stateCb i .connected ∈ w.trace ∧ (gone → (w.con i).channel = none)

theorem told_rule (app : App) (i : ConnId) (gone : Prop) : World.Rule app (Told i gone) := by
  have hset : ∀ {w : World} {j c}, Told i gone w → ((w.con j).channel = none → c.channel = none) →
      Told i gone (w.set j c) := by
    intro w j c h hch
    refine ⟨h.1, h.2.1, fun hgone => ?_⟩
    rcases eq_or_ne i j with rfl | hne
    · simp only [World.set, Function.update_self]
      exact hch (h.2.2 hgone)
    · simp only [World.set, Function.update_of_ne hne]
      exact h.2.2 hgone
  refine .of_quiet (fun {w} j f hf h => ?_) (fun {w j} lst h hch => ?_)
    (fun h hc => hset h hc.channel_none) (fun h _ => ?_) (fun h _ _ _ => h) (fun i h => ?_)
    (fun _ h => h) (fun {w fd} recvs sends selects h => ?_) (fun _ h => h)
  · exact hset h (hf ⟨w.con j, w.base.poller⟩).channel_none
  · rw [World.runOp, if_pos hch]
    exact hset h id
  · exact ⟨h.1, List.mem_append_left _ h.2.1, h.2.2⟩
  · exact ⟨h.1, List.mem_append_left _ h.2.1, h.2.2⟩
  · refine ⟨Nat.lt_succ_of_lt h.1, List.mem_append_left _ h.2.1, fun hgone => ?_⟩
    exact (congrArg TcpConn.channel (Function.update_of_ne (Nat.ne_of_lt h.1) ..)).trans
      (h.2.2 hgone)

/-- **A queued close is run**, by the time that as many tasks have been run as were
queued up to it, and the connection is gone from then on, whatever else happens. -/
theorem gone_of_run (hi : i ∈ l) (hgood : u.Good) (hc : u.hub.Consistent)
    (htold : Told i False u) (hqueued : l <+: u.base.tasks)
    (hrun : Exec.exec (worldStep app) u as = some u')
    (hlen : l.length ≤ as.countP Input.isTask) : Told i True u' := by
  induction as generalizing u l with
  | nil =>
      rw [List.countP_nil, Nat.le_zero, List.length_eq_zero_iff] at hlen
      rw [hlen] at hi
      cases hi
  | cons a as ih =>
      obtain ⟨t, hstep, hrest⟩ := Exec.exec_cons_some hrun
      have hgood' := good_of_worldStep hstep hgood
      have hc' := ok_of_worldStep (Hub.consistent_rule app.slots) hstep hgood hc
        fun _ _ => Or.inl trivial
      have htold' := (told_rule app i False).worldStep hstep htold
      by_cases ha : a = .task
      · subst ha
        obtain ⟨k, l, rfl⟩ := List.exists_cons_of_ne_nil (List.ne_nil_of_mem hi)
        obtain ⟨hhead, hqueued'⟩ := prefix_of_task hstep hqueued
        rcases List.mem_cons.mp hi with rfl | hi
        · -- it is the task in front
          refine (told_rule app i True).exec hrest ⟨htold'.1, htold'.2.1, fun _ => ?_⟩
          have hnone := Hub.closeChannel_channel (p := app.plat) hgood.settled hc i
          rw [← hub_of_task hstep hgood hhead] at hnone
          exact Option.map_eq_none_iff.mp hnone
        · refine ih hi hgood' hc' htold' hqueued' hrest ?_
          rw [List.countP_cons_of_pos rfl] at hlen
          exact Nat.le_of_succ_le_succ hlen
      · have hno : ¬ a.isTask := by
          intro htask
          cases a with
          | task => exact ha rfl
          | _ => cases htask
        rw [List.countP_cons_of_neg hno] at hlen
        exact ih hi hgood' hc' htold' (prefix_of_worldStep hstep ha hqueued) hrest hlen

/-- **The tasks alone** can be run to the end of what is queued, and they close the
connections that are queued and no others. -/
theorem exec_tasks (hgood : u.Good) (hc : u.hub.Consistent) (hqueued : l <+: u.base.tasks) :
    ∃ u', Exec.exec (worldStep app) u (List.replicate l.length .task) = some u' ∧
      ∀ i, if i ∈ l then (u'.hub.peer i).channel = none else u'.hub.peer i = u.hub.peer i := by
  induction l generalizing u with
  | nil => exact ⟨u, rfl, fun i => (if_neg List.not_mem_nil).mpr rfl⟩
  | cons k l ih =>
      obtain ⟨t, hstep⟩ : ∃ t, worldStep app u .task = some t := by
        obtain ⟨rest, hrest⟩ := hqueued
        rw [worldStep, ← hrest]
        exact ⟨_, rfl⟩
      obtain ⟨hhead, hqueued'⟩ := prefix_of_task hstep hqueued
      have hhub := hub_of_task hstep hgood hhead
      have hgood' := good_of_worldStep hstep hgood
      have hc' := ok_of_worldStep (Hub.consistent_rule app.slots) hstep hgood hc
        fun _ _ => Or.inl trivial
      obtain ⟨u', hrun, hpeers⟩ := ih hgood' hc' hqueued'
      refine ⟨u', ?_, fun i => ?_⟩
      · rw [List.length_cons, List.replicate_succ, Exec.exec_cons, hstep]
        exact hrun
      · have hpeer := hpeers i
        by_cases hmem : i ∈ l
        · rw [if_pos hmem] at hpeer
          rwa [if_pos (List.mem_cons_of_mem k hmem)]
        · rw [if_neg hmem, hhub] at hpeer
          rcases eq_or_ne i k with rfl | hne
          · -- closed by the first task, and left alone by the others
            rw [if_pos List.mem_cons_self, hpeer]
            exact Hub.closeChannel_channel hgood.settled hc i
          · rw [if_neg (List.not_mem_cons_of_ne_of_not_mem hne hmem), hpeer]
            exact (Hub.Concerns.closeChannel u.hub k).peer i hne

/-- Once it is gone, a connection that was connected is closed and out of `m_conns`. -/
theorem closed_of_told (h : Told i True w) (hgood : w.Good) {slots : Slots}
    (ht : w.hub.Tracked slots) :
    (w.con i).state = .closed ∧ (w.con i).channel = none ∧ i ∉ w.base.conns := by
  obtain ⟨-, hmem, hnone⟩ := h
  have hnone := hnone trivial
  have hlive : (w.con i).state.live = false := by
    have hopen : (w.hub.peer i).isOpen = false := by
      show (((w.con i).channel.map _).map Prod.snd).getD false = false
      rw [hnone]
      rfl
    exact (hgood.settled.open_iff i).symm.trans hopen
  refine ⟨?_, hnone, fun hconn => ?_⟩
  · have hin : .connected ∈ notified i w.trace := List.mem_filterMap.mpr ⟨_, hmem, if_pos rfl⟩
    rw [show notified i w.trace = _ from (ht.lifecycle i).notified_eq] at hin
    split at hin
    · have hin : .connected ∈ (w.con i).state.notices := hin
      cases hs : (w.con i).state with
      | closed => rfl
      | handshaking | connected => rw [hs] at hlive; cases hlive
      | invalid | failed => rw [hs] at hin; exact absurd hin (by decide)
    · cases hin
  · have hlive' : (w.con i).state.live := (ht.consistent.mem_conns i).mp hconn
    rw [hlive] at hlive'
    cases hlive'

/-! ### Connections that are read from -/

/-- The nodes of connection `i` were updated at `s` or later. -/
def World.Fresh (s : Int) (i : ConnId) (w : World) : Prop :=
  s ≤ w.now / 1000 ∧ ∀ lst, ∀ n ∈ w.base.idleList lst, n.conn = i → s ≤ n.updated

namespace World.Fresh

variable {s : Int}

theorem frame (h : w.Fresh s i) (hconns : w'.base.idleConns = w.base.idleConns)
    (hnow : w.now / 1000 ≤ w'.now / 1000) : w'.Fresh s i := by
  refine ⟨h.1.trans hnow, fun lst n hn => h.2 lst n ?_⟩
  rwa [EventBase.idleList, hconns] at hn

theorem runOp (op : UserOp) (h : w.Fresh s i) : (w.runOp op).Fresh s i := by
  refine World.runOp_rule (fun _ _ _ h => h) (fun _ h => h) (fun {w j} lst h hch => ?_) op h
  have hnow : (w.runOp (.addIdleCB j lst)).now = w.now := by
    rw [World.runOp, if_pos hch]
    rfl
  refine ⟨hnow.symm ▸ h.1, fun lst' n hn hconn => ?_⟩
  rw [idleList_addIdleCB hch] at hn
  split at hn
  · rcases List.mem_append.mp hn with hn | hn
    · exact h.2 lst n hn hconn
    · rw [List.mem_singleton.mp hn]
      exact h.1
  · exact h.2 lst' n hn hconn

/-- Nodes only get newer. -/
theorem rule (app : App) (s : Int) (i : ConnId) : World.CallRule app (World.Fresh s i) := by
  refine .of_runOp runOp (fun _ _ _ h => h) (fun h _ => h) (fun _ h => h)
    (fun h hconns _ _ _ => h.frame hconns le_rfl) (fun j h => ?_) (fun j h => ?_)
  · exact ⟨h.1, fun lst n hn => h.2 lst n (EventBase.mem_of_foldl_unregisterIdle hn)⟩
  · refine ⟨h.1, fun lst n hn hconn => ?_⟩
    obtain ⟨m, hm, -, hconn', hup, -⟩ := EventBase.touched_foldl hn
    rcases hup with hup | hup
    · rw [hup]
      exact h.2 lst m hm (hconn'.trans hconn)
    · rw [hup]
      exact h.1

theorem step {a : Input} (hstep : worldStep app w a = some w') (hclock : Forward w a w')
    (h : w.Fresh s i) : w'.Fresh s i := by
  refine (rule app s i).worldStep hstep h (fun _ _ _ _ _ => h) (fun _ _ _ _ => h)
    (fun op _ => h.runOp op) fun now ha => ?_
  subst ha
  exact h.frame rfl (Int.ediv_le_ediv (by decide) hclock)

/-- The loop over `m_idleIds` reaches every node of the connection. -/
theorem of_updateIdles (h : w.Listed) : (Libet.updateIdles i w).Fresh (w.now / 1000) i := by
  refine ⟨le_rfl, fun lst n hn hconn => ?_⟩
  obtain ⟨m, hm, hnode, hconn', -, hids⟩ := EventBase.touched_foldl hn
  have hown := h.owned lst m hm
  rw [hconn', hconn, hnode] at hown
  exact (hids hown).ge

end World.Fresh

theorem state_callState (app : App) (i : ConnId) (w : World) :
    ((callState app i w).con i).state = (w.con i).state := by
  rw [callState]
  split
  · exact congrArg Peer.state (congrFun (congrArg Hub.peer (World.quiet_runOps _ _).hub) i)
  · rfl

/-- Nothing else is called when the channel of a connection that is gone is deleted. -/
theorem state_deleteChannel {hr : World → World} (hhr : Refines.Inert hr i)
    (h1 : (w.con i).state ≠ .handshaking) (h2 : (w.con i).state ≠ .connected) :
    ((deleteChannel hr i w).con i).state = (w.con i).state := by
  have hreset : ((w.set i { w.con i with
      readCb := none, writeCb := false, stateCb := false, timerCb := false,
      channel := none }).con i).state = (w.con i).state := by
    simp only [World.set, Function.update_self]
  simp only [deleteChannel]
  split
  · exact hreset
  · rename_i ch hch
    rw [destroyChannel]
    split
    · rw [hhr (removeChannel ch _) (hreset.symm ▸ h1) (hreset.symm ▸ h2)]
      exact hreset
    · exact hreset

/-- `Cleanup` leaves the state terminal. -/
theorem state_cleanup {hr : World → World} (hhr : Refines.Inert hr i) (w : World) :
    ((cleanup app hr i w).con i).state ≠ .connected := by
  rw [cleanup]
  generalize callRead app i (channelClose hr i) w = w
  have hterm : (if (w.con i).state = .handshaking then ConnState.failed else .closed) ≠
      .handshaking ∧ (if (w.con i).state = .handshaking then ConnState.failed else .closed) ≠
      .connected := by
    split <;> decide
  unfold tearDown
  dsimp only
  generalize (if (w.con i).state = .handshaking then ConnState.failed else .closed) = s at hterm ⊢
  have hset : ((w.setState i s).con i).state = s := by
    rw [World.setState]
    split
    · assumption
    · simp only [World.log, World.set, Function.update_self]
  have hremoved : ((removeConn i (unregisterIdles i (callState app i (w.setState i s)))).con i).state
      = s := by
    rw [removeConn]
    split <;> exact (state_callState app i _).trans hset
  show ((deleteChannel hr i _).con i).state ≠ .connected
  rw [state_deleteChannel hhr (by rw [hremoved]; exact hterm.1) (by rw [hremoved]; exact hterm.2),
    hremoved]
  exact hterm.2

/-- **A burst that leaves the connection connected** has updated its nodes. -/
theorem fresh_readLoop {hr : World → World} (hhr : Refines.Inert hr i)
    (hfresh : ∀ {s w}, World.Fresh s i w → World.Fresh s i (hr w)) {script : List RecvResult}
    (h : w.Listed) : ((readLoop app hr i script w).con i).state = .connected →
      (readLoop app hr i script w).Fresh (w.now / 1000) i := by
  have hroom : ∀ {w : World}, w.Listed → (makeRoomInput i w).Listed := fun h => h.set rfl
  have hrecv : ∀ {w : World} rest, w.Listed → (setRecvs i rest w).Listed := fun _ h => h.set rfl
  have hadd : ∀ {w : World} bs, w.Listed → (addInput i bs w).Listed := fun _ h => h.set rfl
  induction script, w using readLoop.induct i with
  | case1 script w hs =>
      rw [readLoop_of_ne hs]
      exact fun hs' => absurd hs' hs
  | case2 script w hs w' hfd =>
      rw [readLoop_shut (not_not.mp hs) hfd]
      exact fun hs' => absurd hs' (state_cleanup hhr _)
  | case3 script w hs w' hfd rest hscript =>
      -- the end of the burst
      rw [readLoop_wouldBlock (not_not.mp hs) hfd hscript]
      intro _
      have r := World.Fresh.rule app (w.now / 1000) i
      exact r.callRead (r.channelClose hfresh)
        (World.Fresh.of_updateIdles (hrecv rest (hroom h)))
  | case4 script w hs w' hfd b bs rest hscript ih =>
      rw [readLoop_data (not_not.mp hs) hfd hscript]
      exact ih (hadd _ (hrecv rest (hroom h)))
  | case5 script w hs w' hfd res rest hne hne' hscript =>
      rw [readLoop_stop (not_not.mp hs) hfd hscript hne hne']
      exact fun hs' => absurd hs' (state_cleanup hhr _)

/-- A handshake that fails ends in `Cleanup`. -/
theorem state_handleHandshake {hr : World → World} (hhr : Refines.Inert hr i)
    (hs : (w.con i).state = .handshaking) (hret : (handleHandshake app hr i w).1 ≠ 0) :
    ((handleHandshake app hr i w).2.con i).state ≠ .connected := by
  rw [handleHandshake, if_neg (not_not_intro hs)] at hret ⊢
  dsimp only at hret ⊢
  split
  · rename_i hsel
    rw [if_pos hsel] at hret
    exact absurd rfl hret
  · exact state_cleanup hhr _

/-- No handler sets the clock. -/
theorem now_rule (app : App) (t : Int) : World.CallRule app fun w => w.now = t :=
  .of_runOp (fun op h => World.runOp_rule (P := fun w => w.now = t) (fun _ _ _ h => h)
      (fun _ h => h) (fun _ h hch => by rw [World.runOp, if_pos hch]; exact h) op h)
    (fun _ _ _ h => h) (fun h _ => h) (fun _ h => h) (fun h _ _ _ _ => h) (fun _ h => h)
    fun _ h => h

/-- `HandleRead` updates the nodes of a connection that it leaves connected. -/
theorem fresh_handleRead (h : w.Listed) (hs : ((handleRead app i w).con i).state = .connected) :
    (handleRead app i w).Fresh (w.now / 1000) i := by
  have hinert := Refines.inert_handleReadWith app id i
  have hfresh : ∀ {s w}, World.Fresh s i w → World.Fresh s i (handleReadWith app id i w) :=
    fun h => (World.Fresh.rule app _ i).handleReadWith id h
  rw [handleRead, handleReadWith] at hs ⊢
  by_cases hshake : (w.con i).state = .handshaking
  · rw [if_pos hshake] at hs ⊢
    by_cases hret : (handleHandshake app (handleReadWith app id i) i w).1 ≠ 0
    · rw [if_pos hret] at hs
      exact absurd hs (state_handleHandshake hinert hshake hret)
    · rw [if_neg hret] at hs ⊢
      have hlisted : (handleHandshake app (handleReadWith app id i) i w).2.Listed :=
        (World.Listed.rule app).handleHandshake
          (fun h => (World.Listed.rule app).handleReadWith id h) h
      have hnow : (handleHandshake app (handleReadWith app id i) i w).2.now = w.now :=
        (now_rule app w.now).handleHandshake
          (fun h => (now_rule app w.now).handleReadWith id h) rfl
      have hread := fresh_readLoop hinert hfresh hlisted hs
      rwa [hnow] at hread
  · rw [if_neg hshake, if_neg (not_not_intro rfl)] at hs ⊢
    exact fresh_readLoop hinert hfresh h hs

/-! ### Runs -/

variable {before : List Input} {wakeupFd listenFd : Int}

/-- **Idle connections are closed, and no others.**  A pass of `CallIdles` comes at any
moment of any run of such a server in which the clock does not go back.  Whatever
happens afterwards, once the tasks that are queued then have been run, every
connection that had a node that was due is closed, and one that is still connected
had a node that was not.  If these tasks are all that is run, the connections that
are left are those that had no node that was due, and whose close was not queued
before. -/
theorem idleClose_of_run (hserver : IdleServer idle app)
    (hrun : Exec.exec (worldStep app) (World.init wakeupFd listenFd) before = some w)
    (hclock : Exec.Along (worldStep app) Forward (World.init wakeupFd listenFd) before) :
    (∀ as w', Exec.exec (worldStep app) (callIdles w) as = some w' →
      (callIdles w).base.tasks.length ≤ as.countP Input.isTask →
      ∀ i, (w.con i).state = .connected →
        ((∃ lst, ∃ n ∈ w.base.idleList lst, n.conn = i ∧ n.updated + lst ≤ w.now / 1000) →
          (w'.con i).state = .closed ∧ (w'.con i).channel = none ∧ i ∉ w'.base.conns) ∧
        ((w'.con i).state = .connected →
          ∃ n ∈ w.base.idleList idle, n.conn = i ∧ w.now / 1000 < n.updated + idle)) ∧
    ∃ w', Exec.exec (worldStep app) (callIdles w)
        (List.replicate (callIdles w).base.tasks.length .task) = some w' ∧
      ∀ i, (w'.con i).state = .connected ↔ (w.con i).state = .connected ∧ i ∉ w.base.tasks ∧
        ∀ lst, ∀ n ∈ w.base.idleList lst, n.conn = i → w.now / 1000 < n.updated + lst := by
  have h := World.Served.of_run hserver hrun hclock
  have hpass := callIdles_eq h.listed.ok
  have hquiet : w.Quiet (callIdles w) := by
    rw [hpass]
    exact ⟨rfl, fun _ => rfl⟩
  have hgood : (callIdles w).Good :=
    ⟨hquiet.hub.symm ▸ h.good.refines.quiet hquiet, hquiet.hub.symm ▸ h.good.settled⟩
  have htracked : (callIdles w).hub.Tracked app.slots := hquiet.hub.symm ▸ h.tracked
  have htasks : (callIdles w).base.tasks = w.base.tasks ++ w.idleCloses := by
    rw [hpass]
  have hdue : ∀ {i}, (w.con i).state = .connected →
      (∃ lst, ∃ n ∈ w.base.idleList lst, n.conn = i ∧ n.updated + lst ≤ w.now / 1000) →
      i ∈ (callIdles w).base.tasks := by
    intro i hs hn
    rw [htasks]
    exact List.mem_append_right _ (mem_idleCloses.mpr ⟨h.channel_isSome hs, hn⟩)
  constructor
  · intro as w' hlater hlen i hs
    have hclosed : (∃ lst, ∃ n ∈ w.base.idleList lst, n.conn = i ∧
        n.updated + lst ≤ w.now / 1000) →
        (w'.con i).state = .closed ∧ (w'.con i).channel = none ∧ i ∉ w'.base.conns := by
      intro hn
      have htold : Told i False w :=
        ⟨h.lt_nextConn hs, h.stateCb_mem hserver hs, False.elim⟩
      have htold : Told i False (callIdles w) := by
        rw [hpass]
        exact htold
      have hgone := gone_of_run (hdue hs hn) hgood htracked.consistent htold
        (List.prefix_refl _) hlater hlen
      exact closed_of_told hgone (good_of_exec hlater hgood)
        (ok_of_exec (Hub.tracked_rule app.slots) hlater hgood htracked)
    refine ⟨hclosed, fun hs' => ?_⟩
    obtain ⟨n, hn, hconn⟩ := h.exists_node hserver hs
    refine ⟨n, hn, hconn, ?_⟩
    by_contra hle
    have hstate := (hclosed ⟨idle, n, hn, hconn, by omega⟩).1
    rw [hs'] at hstate
    cases hstate
  · obtain ⟨w', hrun', hpeers⟩ := @exec_tasks app _ _ hgood htracked.consistent (List.prefix_refl _)
    refine ⟨w', hrun', fun i => ?_⟩
    have hpeer := hpeers i
    by_cases hi : i ∈ (callIdles w).base.tasks
    · rw [if_pos hi] at hpeer
      have hlive : (w'.con i).state.live = false := by
        refine ((good_of_exec hrun' hgood).settled.open_iff i).symm.trans ?_
        rw [Peer.isOpen, hpeer]
        rfl
      refine iff_of_false (fun hs => ?_) ?_
      · rw [hs] at hlive
        cases hlive
      · rintro ⟨-, hnot, hfresh⟩
        rw [htasks] at hi
        obtain ⟨-, lst, n, hn, hconn, hdue⟩ :=
          mem_idleCloses.mp ((List.mem_append.mp hi).resolve_left hnot)
        exact absurd hdue (not_le.mpr (hfresh lst n hn hconn))
    · rw [if_neg hi] at hpeer
      have hstate : (w'.con i).state = (w.con i).state :=
        (congrArg Peer.state hpeer).trans
          (congrArg Peer.state (congrFun (congrArg Hub.peer hquiet.hub) i))
      rw [hstate]
      refine ⟨fun hs => ⟨hs, fun hmem => hi ?_, fun lst n hn hconn => ?_⟩, fun hs => hs.1⟩
      · rw [htasks]
        exact List.mem_append_left _ hmem
      · by_contra hle
        exact hi (hdue hs ⟨lst, n, hn, hconn, not_lt.mp hle⟩)

/-- Two connections, the second connected ten seconds behind the first.  The pass at
sixteen seconds queues the close of the first, and an event of the second comes before
it is run. -/
theorem idleClose_of_run_two :
    ∃ w w', Exec.exec (worldStep heartbeatTest) (World.init 4 5) [.accept 6 [] [] [1],
        .writable 0, .tick 10000, .accept 7 [] [] [1], .writable 1, .tick 16000] = some w ∧
      Exec.exec (worldStep heartbeatTest) (callIdles w) [.readable 1, .task] = some w' ∧
      (w'.con 0).state = .closed := by
  have hrun : (Exec.exec (worldStep heartbeatTest) (World.init 4 5) [.accept 6 [] [] [1],
      .writable 0, .tick 10000, .accept 7 [] [] [1], .writable 1, .tick 16000]).map (fun w =>
        ((w.con 0).state, w.base.idleList 15, w.now, (callIdles w).base.tasks.length,
          (Exec.exec (worldStep heartbeatTest) (callIdles w) [.readable 1, .task]).isSome)) =
      some (.connected, [⟨0, 0, 0⟩, ⟨1, 1, 10⟩], 16000, 1, true) := by
    decide +kernel
  obtain ⟨w, hw, heq⟩ := Option.map_eq_some_iff.mp hrun
  simp only [Prod.mk.injEq] at heq
  obtain ⟨hs, hlist, hnow, hlen, hsome⟩ := heq
  obtain ⟨w', hw'⟩ := Option.isSome_iff_exists.mp hsome
  refine ⟨w, w', hw, hw', ?_⟩
  refine (((idleClose_of_run idleServer_heartbeatTest hw (by decide +kernel)).1 _ w' hw'
    hlen.le 0 hs).1 ⟨15, ⟨0, 0, 0⟩, ?_, rfl, ?_⟩).1
  · rw [hlist]
    exact List.mem_cons_self
  · rw [hnow]
    decide

/-- **A connection that is read from is left alone.**  If a connection is connected
behind a burst, then a later pass closes it only when one of its idle times has gone by
since then. -/
theorem spared_of_run {w₁ w₂ : World}
    (hrun : Exec.exec (worldStep app) (World.init wakeupFd listenFd) before = some w)
    (hclock : Exec.Along (worldStep app) Forward (World.init wakeupFd listenFd) before)
    (hread : worldStep app w (.readable i) = some w₁) (hs : (w₁.con i).state = .connected)
    (hlater : Exec.exec (worldStep app) w₁ as = some w₂)
    (hclock' : Exec.Along (worldStep app) Forward w₁ as)
    (hmem : i ∈ (callIdles w₂).base.tasks) (hnot : i ∉ w₂.base.tasks) :
    ∃ lst, ∃ n ∈ w₂.base.idleList lst, n.conn = i ∧ w.now / 1000 + lst ≤ w₂.now / 1000 := by
  have hboth : ∀ {as : List Input} {u u' : World},
      Exec.Along (worldStep app) Forward u as → Exec.exec (worldStep app) u as = some u' →
      IdleInv u ∧ u.Listed → IdleInv u' ∧ u'.Listed := by
    intro as u u' hclock hrun h
    refine Exec.invariant_along (I := fun u => IdleInv u ∧ u.Listed) ?_ hclock hrun h
    exact fun _ _ _ hstep hc h =>
      ⟨(IdleInv.rule app).worldStep hstep h.1, h.2.step hstep hc h.1⟩
  have h := hboth hclock hrun ⟨idleInv_init wakeupFd listenFd, World.Listed.init wakeupFd listenFd⟩
  have h₁ := @hboth [.readable i] w w₁ (fun _ _ => ⟨trivial, trivial⟩)
    (by rw [Exec.exec_cons, hread]; rfl) h
  have h₂ := hboth hclock' hlater h₁
  -- the nodes are as new as the burst, from then on
  have hfresh₁ : w₁.Fresh (w.now / 1000) i := by
    simp only [worldStep] at hread
    split at hread
    · obtain rfl := Option.some.inj hread
      exact fresh_handleRead h.2 hs
    · cases hread
  have hfresh₂ : w₂.Fresh (w.now / 1000) i :=
    Exec.invariant_along (I := World.Fresh (w.now / 1000) i)
      (fun _ _ _ hstep hc h => h.step hstep hc) hclock' hlater hfresh₁
  rw [callIdles_eq h₂.2.ok] at hmem
  obtain ⟨-, lst, n, hn, hconn, hdue⟩ :=
    mem_idleCloses.mp ((List.mem_append.mp hmem).resolve_left hnot)
  refine ⟨lst, n, hn, hconn, ?_⟩
  have hnew := hfresh₂.2 lst n hn hconn
  have hdue : n.updated + lst ≤ w₂.now / 1000 := hdue
  omega

/-- A byte comes after fifteen seconds; the pass at thirty seconds closes the connection,
for fifteen seconds have gone by since then. -/
theorem spared_of_run_heartbeatTest :
    ∃ w w₁ w₂, Exec.exec (worldStep heartbeatTest) (World.init 4 5)
        [.accept 6 [.data 0 [], .wouldBlock] [] [1], .writable 0, .tick 15000] = some w ∧
      worldStep heartbeatTest w (.readable 0) = some w₁ ∧
      Exec.exec (worldStep heartbeatTest) w₁ [.tick 30000] = some w₂ ∧
      ∃ lst, ∃ n ∈ w₂.base.idleList lst, n.conn = 0 ∧ w.now / 1000 + lst ≤ w₂.now / 1000 := by
  have hrun : (Exec.exec (worldStep heartbeatTest) (World.init 4 5)
      [.accept 6 [.data 0 [], .wouldBlock] [] [1], .writable 0, .tick 15000]).bind (fun w =>
        (worldStep heartbeatTest w (.readable 0)).bind fun w₁ =>
          (Exec.exec (worldStep heartbeatTest) w₁ [.tick 30000]).map fun w₂ =>
            ((w₁.con 0).state, w₁.now, (callIdles w₂).base.tasks, w₂.base.tasks)) =
      some (.connected, 15000, [0], []) := by
    decide +kernel
  obtain ⟨w, hw, hrun⟩ := Option.bind_eq_some_iff.mp hrun
  obtain ⟨w₁, hw₁, hrun⟩ := Option.bind_eq_some_iff.mp hrun
  obtain ⟨w₂, hw₂, heq⟩ := Option.map_eq_some_iff.mp hrun
  simp only [Prod.mk.injEq] at heq
  obtain ⟨hs, hnow, htasks, hbefore⟩ := heq
  refine ⟨w, w₁, w₂, hw, hw₁, hw₂, spared_of_run hw (by decide +kernel) hw₁ hs hw₂ ?_ ?_ ?_⟩
  · have hforward : w₁.now ≤ 30000 := by
      rw [hnow]
      decide
    exact fun _ _ => ⟨hforward, trivial⟩
  · rw [htasks]
    exact List.mem_singleton_self _
  · rw [hbefore]
    exact List.not_mem_nil

end Libet
