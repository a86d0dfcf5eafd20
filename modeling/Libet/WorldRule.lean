/-
Libet/WorldRule.lean

A rule for properties of whole worlds.

The hub does not see the sending side and the idle lists.  For these the
functions of `TcpConn.cpp` are taken apart once, here, down to the few changes
that they make: an operation of the caller, a change of the receiving side of a
connection, of the registry or of the idle lists.  What survives each of these
survives every event of the loop (`World.Rule.worldStep`), whatever the
callbacks do and however deep they are nested.

`PollerRule` tells apart the two moments at which a channel leaves the poller
(`shut`, `drop`).  A property that does not care is served by `Rule`.
-/
import Libet.Lib.Exec
import Libet.TcpConn

namespace Libet

/-- From `c` to `c'` only the receiving side has changed; the channel may have
been shut or dropped. -/
structure Receives (c c' : TcpConn) : Prop where
  output : c'.output = c.output
  idleIds : c'.idleIds = c.idleIds
  accepted : c'.sock.accepted = c.sock.accepted
  sendFailed : c'.sock.sendFailed = c.sock.sendFailed
  submitted : c'.submitted = c.submitted
  channel : c'.channel.isSome → c.channel.isSome ∧ c'.writable = c.writable

namespace World

/-- The changes that a world goes through, with what each does to the poller. -/
structure PollerRule (app : App) (P : World → Prop) : Prop where
  /-- the caller does something -/
  runOp : ∀ {w} op, P w → P (w.runOp op)
  /-- the receiving side of a connection changes, its channel does not -/
  keeps : ∀ {w i c}, P w → Receives (w.con i) c → c.channel = (w.con i).channel →
    P (w.set i c)
  log : ∀ {w e}, P w → (∀ i, e ≠ .unregisteredIdles i) → P (w.log e)
  /-- the registry or the queue of tasks changes -/
  base : ∀ {w b}, P w → b.idleConns = w.base.idleConns → b.nextNode = w.base.nextNode →
    b.unregistered = w.base.unregistered → b.poller = w.base.poller →
    (b.conns = w.base.conns ∨ ∃ i, b = w.base.removeConn i) → P { w with base := b }
  unregisterIdles : ∀ {w} i, P w → P (unregisterIdles i w)
  updateIdles : ∀ {w} i, P w → P (updateIdles i w)
  /-- the first and the last part of `HandleWrite` -/
  flush : ∀ {w} i, P w → P (w.onLink i fun l => l.flush)
  unwatch : ∀ {w} i, P w → P (unwatch i w)
  /-- `Channel::Close` on an open channel -/
  shut : ∀ {w i ch}, P w → (w.con i).channel = some ch → ch.fd ≠ SOCKET_ERROR →
    P (shutChannel i ch w)
  /-- the connection, which is not registered any more, lets go of its channel, whose
  destructor closes it -/
  drop : ∀ {w i ch c}, P w → (w.con i).channel = some ch → Receives (w.con i) c →
    c.channel = none → i ∉ w.base.conns →
    P (if ch.fd ≠ SOCKET_ERROR then removeChannel ch (w.set i c) else w.set i c)

namespace PollerRule

variable {app : App} {P : World → Prop} {w : World} {i : ConnId}
variable {hr close : World → World}
variable (r : PollerRule app P)
include r

/-- A change that leaves the channel alone. -/
theorem same {c : TcpConn} (h : P w) (hch : c.channel = (w.con i).channel)
    (hout : c.output = (w.con i).output) (hids : c.idleIds = (w.con i).idleIds)
    (hacc : c.sock.accepted = (w.con i).sock.accepted)
    (hfail : c.sock.sendFailed = (w.con i).sock.sendFailed)
    (hsub : c.submitted = (w.con i).submitted) : P (w.set i c) :=
  r.keeps h ⟨hout, hids, hacc, hfail, hsub,
    fun hs => ⟨hch ▸ hs, by rw [TcpConn.writable, TcpConn.writable, hch]⟩⟩ hch

theorem runOps (h : P w) (ops : List UserOp) : P (w.runOps ops) := by
  induction ops generalizing w with
  | nil => exact h
  | cons op ops ih => exact ih (r.runOp op h)

theorem setState (h : P w) (s : ConnState) : P (w.setState i s) := by
  rw [World.setState]
  split
  · exact h
  · exact r.log (r.same h rfl rfl rfl rfl rfl rfl) fun _ e => by cases e

/-! ### The read callback -/

theorem callMsg (h : P w) (ret : Int) (msg : Slice) : P (callMsg app i ret msg w) := by
  have hlog : P (w.log (.msgCb i ((w.con i).sock.received - (w.con i).input.size) msg
      (msg.bytes (w.con i).input.content))) := r.log h fun _ e => by cases e
  exact r.same (r.runOps hlog _) rfl rfl rfl rfl rfl rfl

theorem onMsg (hclose : ∀ {w}, P w → P (close w)) (h : P w) : P (onMsg app i close w) := by
  induction w using onMsg.induct app i with
  | case1 w r' =>
      rename_i hneg
      rw [Libet.onMsg, if_pos hneg]
      exact hclose (r.log h fun _ e => by cases e)
  | case2 w r' hneg hpos =>
      rename_i ih
      rw [Libet.onMsg, if_neg hneg, dif_pos hpos]
      exact ih (r.callMsg h _ _)
  | case3 w r' hneg =>
      rename_i hpos
      rw [Libet.onMsg, if_neg hneg, dif_neg hpos]
      exact h

theorem callRead (hclose : ∀ {w}, P w → P (close w)) (h : P w) :
    P (callRead app i close w) := by
  have hlog : P (w.log (.readCb i)) := r.log h fun _ e => by cases e
  rw [Libet.callRead]
  split
  · exact h
  · split
    · exact h
    · exact r.runOps hlog _
    · exact r.onMsg hclose hlog

theorem callState (h : P w) : P (callState app i w) := by
  rw [Libet.callState]
  split
  · exact r.runOps (r.log h fun _ e => by cases e) _
  · exact h

theorem callTimer (h : P w) : P (callTimer app i w) := by
  rw [Libet.callTimer]
  split
  · exact r.runOps (r.log h fun _ e => by cases e) _
  · exact h

/-! ### Closing and cleaning up -/

theorem channelClose (hhr : ∀ {w}, P w → P (hr w)) (h : P w) : P (channelClose hr i w) := by
  rw [Libet.channelClose]
  split
  · exact h
  · rename_i ch hch
    split
    · rename_i hfd
      exact hhr (r.shut h hch hfd)
    · exact h

theorem removeConn (h : P w) : P (removeConn i w) := by
  rw [Libet.removeConn]
  split
  · exact r.log (r.base h rfl rfl rfl rfl (Or.inr ⟨i, rfl⟩)) fun _ e => by cases e
  · exact h

theorem deleteChannel (hhr : ∀ {w}, P w → P (hr w)) (h : P w) (hconns : i ∉ w.base.conns) :
    P (deleteChannel hr i w) := by
  have hreset : Receives (w.con i) { w.con i with
      readCb := none, writeCb := false, stateCb := false, timerCb := false,
      channel := none } := ⟨rfl, rfl, rfl, rfl, rfl, fun hs => by cases hs⟩
  simp only [Libet.deleteChannel]
  split
  · rename_i hch
    exact r.keeps h hreset hch.symm
  · rename_i ch hch
    have hdrop := r.drop h hch hreset rfl hconns
    -- the destructor calls `Close` once more, on the open descriptor only
    simp only [destroyChannel]
    refine r.log ?_ fun _ e => by cases e
    split <;> rename_i hfd
    · rw [if_pos hfd] at hdrop
      exact hhr hdrop
    · rwa [if_neg hfd] at hdrop

omit r in
theorem not_mem_removeConn (w : World) (i : ConnId) : i ∉ (Libet.removeConn i w).base.conns := by
  rw [Libet.removeConn]
  split
  · exact fun hmem => of_decide_eq_true (List.mem_filter.mp hmem).2 rfl
  · rename_i hnot
    exact hnot

theorem tearDown (hhr : ∀ {w}, P w → P (hr w)) (h : P w) : P (tearDown app hr i w) :=
  r.log (r.deleteChannel hhr (r.removeConn (r.unregisterIdles i
    (r.callState (r.setState h _)))) (not_mem_removeConn _ i)) fun _ e => by cases e

theorem cleanup (hhr : ∀ {w}, P w → P (hr w)) (h : P w) : P (cleanup app hr i w) :=
  r.tearDown hhr (r.callRead (r.channelClose hhr) h)

/-! ### Events -/

theorem handleHandshake (hhr : ∀ {w}, P w → P (hr w)) (h : P w) :
    P (handleHandshake app hr i w).2 := by
  rw [Libet.handleHandshake]
  split
  · exact h
  · have hsel : P (w.set i { w.con i with
        sock := ((w.con i).sock.select (w.con i).fd).2 }) := by
      refine r.same h rfl rfl rfl ?_ ?_ rfl
      · simp only [Socket.select]; split <;> rfl
      · simp only [Socket.select]; split <;> rfl
    dsimp only
    -- `select` has asked the socket: the handshake ends, or `Cleanup` runs
    split
    · exact r.callTimer (r.callState (r.setState hsel _))
    · exact r.cleanup hhr hsel

theorem readLoop (hhr : ∀ {w}, P w → P (hr w)) {script : List RecvResult} (h : P w) :
    P (readLoop app hr i script w) := by
  have hroom : ∀ {w}, P w → P (makeRoomInput i w) :=
    fun h => r.same h rfl rfl rfl rfl rfl rfl
  have hrecv : ∀ {w} rest, P w → P (setRecvs i rest w) :=
    fun _ h => r.same h rfl rfl rfl rfl rfl rfl
  have hadd : ∀ {w} bs, P w → P (addInput i bs w) :=
    fun _ h => r.same h rfl rfl rfl rfl rfl rfl
  induction script, w using readLoop.induct i with
  | case1 script w hs =>
      rw [readLoop_of_ne hs]
      exact h
  | case2 script w hs w' hfd =>
      rw [readLoop_shut (not_not.mp hs) hfd]
      exact r.cleanup hhr (hroom h)
  | case3 script w hs w' hfd rest hscript =>
      rw [readLoop_wouldBlock (not_not.mp hs) hfd hscript]
      exact r.callRead (r.channelClose hhr) (r.updateIdles i (hrecv rest (hroom h)))
  | case4 script w hs w' hfd b bs rest hscript ih =>
      rw [readLoop_data (not_not.mp hs) hfd hscript]
      exact ih (hadd _ (hrecv rest (hroom h)))
  | case5 script w hs w' hfd res rest hne hne' hscript =>
      rw [readLoop_stop (not_not.mp hs) hfd hscript hne hne']
      exact r.cleanup hhr (hrecv rest (hroom h))

theorem handleReadWith (hhr : ∀ {w}, P w → P (hr w)) (h : P w) :
    P (handleReadWith app hr i w) := by
  have hshake : P (if (w.con i).state = .handshaking then Libet.handleHandshake app hr i w
      else (0, w)).2 := by
    split
    · exact r.handleHandshake hhr h
    · exact h
  unfold Libet.handleReadWith
  generalize (if (w.con i).state = .handshaking then Libet.handleHandshake app hr i w
    else (0, w)) = x at hshake ⊢
  dsimp only
  split
  · exact hshake
  · exact r.readLoop hhr hshake

theorem handleRead (h : P w) : P (handleRead app i w) :=
  r.handleReadWith (r.handleReadWith id) h

theorem handleWrite (h : P w) : P (handleWrite app i w) := by
  rw [Libet.handleWrite]
  split
  · exact r.handleHandshake r.handleRead h
  · apply r.unwatch i
    rw [callWrite]
    split
    · exact r.runOps (r.flush i h) _
    · exact r.flush i h
  · exact h

theorem postedClose (h : P w) : P (postedClose app i w) := by
  rw [Libet.postedClose]
  split
  · exact r.channelClose r.handleRead h
  · exact h

/-- **The rule for one event**; what a new connection and the clock do is said
apart. -/
theorem worldStep {a : Input} {w' : World} (hstep : worldStep app w a = some w') (h : P w)
    (haccept : ∀ fd recvs sends selects, a = .accept fd recvs sends selects →
      fd ≠ SOCKET_ERROR → P (handleAccept app fd (Socket.ofScripts recvs sends selects) w))
    (htick : ∀ now, P { w with now := now }) : P w' := by
  cases a with
  | accept fd recvs sends selects =>
      simp only [Libet.worldStep] at hstep
      split at hstep
      · cases hstep
      · rename_i hfd
        obtain rfl := Option.some.inj hstep
        exact haccept fd recvs sends selects rfl hfd
  | readable i =>
      simp only [Libet.worldStep] at hstep
      split at hstep
      · obtain rfl := Option.some.inj hstep
        exact r.handleRead h
      · cases hstep
  | writable i =>
      simp only [Libet.worldStep] at hstep
      split at hstep
      · obtain rfl := Option.some.inj hstep
        exact r.handleWrite h
      · cases hstep
  | task =>
      simp only [Libet.worldStep] at hstep
      split at hstep
      · cases hstep
      · obtain rfl := Option.some.inj hstep
        exact r.postedClose (r.base h rfl rfl rfl rfl (Or.inl rfl))
  | user op =>
      obtain rfl := Option.some.inj hstep
      exact r.runOp op h
  | tick now =>
      obtain rfl := Option.some.inj hstep
      exact htick now

end PollerRule

/-- The changes that a world goes through. -/
structure Rule (app : App) (P : World → Prop) : Prop where
  /-- the caller does something -/
  runOp : ∀ {w} op, P w → P (w.runOp op)
  /-- the receiving side of a connection changes -/
  receives : ∀ {w i c}, P w → Receives (w.con i) c → P (w.set i c)
  log : ∀ {w e}, P w → (∀ i, e ≠ .unregisteredIdles i) → P (w.log e)
  /-- the registry, the poller or the queue of tasks changes -/
  base : ∀ {w b}, P w → b.idleConns = w.base.idleConns → b.nextNode = w.base.nextNode →
    b.unregistered = w.base.unregistered → P { w with base := b }
  unregisterIdles : ∀ {w} i, P w → P (unregisterIdles i w)
  updateIdles : ∀ {w} i, P w → P (updateIdles i w)
  /-- the first and the last part of `HandleWrite` -/
  flush : ∀ {w} i, P w → P (w.onLink i fun l => l.flush)
  unwatch : ∀ {w} i, P w → P (unwatch i w)
  accept : ∀ {w fd} recvs sends selects, P w →
    P (handleAccept app fd (Socket.ofScripts recvs sends selects) w)
  tick : ∀ {w} now, P w → P { w with now := now }

namespace Rule

variable {app : App} {P : World → Prop} {w w' : World}
variable (r : Rule app P)
include r

/-- When a channel leaves the poller is of no concern. -/
theorem poller : PollerRule app P where
  runOp := r.runOp
  keeps h hc _ := r.receives h hc
  log := r.log
  base h h1 h2 h3 _ _ := r.base h h1 h2 h3
  unregisterIdles := r.unregisterIdles
  updateIdles := r.updateIdles
  flush := r.flush
  unwatch := r.unwatch
  shut {w i ch} h hch _ := by
    -- the channel that leaves the poller keeps its flags
    refine r.receives (r.base h rfl rfl rfl) ⟨rfl, rfl, rfl, rfl, rfl, fun _ => ?_⟩
    have hch : ((removeChannel ch w).con i).channel = some ch := hch
    simp [TcpConn.writable, hch]
  drop h _ hc _ _ := by
    split
    · exact r.base (r.receives h hc) rfl rfl rfl
    · exact r.receives h hc

/-- **The rule.**  What survives the changes survives every event. -/
theorem worldStep {a : Input} (hstep : worldStep app w a = some w') (h : P w) : P w' :=
  r.poller.worldStep hstep h (fun _ recvs sends selects _ _ => r.accept recvs sends selects h)
    fun now => r.tick now h

/-- What survives the changes holds in every world that a run reaches. -/
theorem exec {as : List Input} (hrun : Exec.exec (Libet.worldStep app) w as = some w')
    (h : P w) : P w' :=
  Exec.invariant (fun _ _ _ => r.worldStep) hrun h

omit r in
/-- The rule for a property to which the sending side is nothing. -/
theorem of_quiet
    (onLink : ∀ {w} i f, (∀ l, Libet.Quiet l (f l)) → P w → P (w.onLink i f))
    (addIdleCB : ∀ {w i} idle, P w → (w.con i).channel.isSome →
      P (w.runOp (.addIdleCB i idle)))
    (receives : ∀ {w i c}, P w → Receives (w.con i) c → P (w.set i c))
    (log : ∀ {w e}, P w → (∀ i, e ≠ .unregisteredIdles i) → P (w.log e))
    (base : ∀ {w b}, P w → b.idleConns = w.base.idleConns → b.nextNode = w.base.nextNode →
      b.unregistered = w.base.unregistered → P { w with base := b })
    (unregisterIdles : ∀ {w} i, P w → P (Libet.unregisterIdles i w))
    (updateIdles : ∀ {w} i, P w → P (Libet.updateIdles i w))
    (accept : ∀ {w fd} recvs sends selects, P w →
      P (handleAccept app fd (Socket.ofScripts recvs sends selects) w))
    (tick : ∀ {w} now, P w → P { w with now := now }) : Rule app P where
  runOp {w} op h := by
    cases op with
    | send i buf => exact onLink i (·.send buf) (fun l => l.quiet_send buf) h
    | sendBuffer i buf =>
        exact onLink i (fun l => (l.sendBuffer buf.1).1) (fun l => l.quiet_sendBuffer buf.1) h
    | sendMsg i msg => exact onLink i (·.sendMsg msg) (fun l => l.quiet_sendMsg msg) h
    | sendOutput i => exact onLink i (·.sendOutput) (fun l => l.quiet_sendOutput) h
    | close i =>
        simp only [World.runOp]
        split
        · exact base h rfl rfl rfl
        · exact h
    | addIdleCB i idle =>
        by_cases hch : (w.con i).channel.isSome
        · exact addIdleCB idle h hch
        · rw [World.runOp, if_neg hch]
          exact h
  receives := receives
  log := log
  base := base
  unregisterIdles := unregisterIdles
  updateIdles := updateIdles
  flush i h := onLink i (·.flush) (fun l => l.quiet_flush) h
  unwatch {w} i h := by
    rw [Libet.unwatch]
    split
    · exact onLink i (·.enableWrite false) (fun l => l.quiet_enableWrite false) h
    · exact h
  accept := accept
  tick := tick

end Rule

end World

/-- Connections are not forgotten. -/
theorem born_rule (app : App) (i : ConnId) : World.Rule app (fun w => i < w.nextConn) :=
  .of_quiet (fun _ _ _ h => h) (fun {_ _} _ h hch => by rw [World.runOp, if_pos hch]; exact h)
    (fun h _ => h) (fun h _ => h) (fun h _ _ _ => h) (fun _ h => h) (fun _ h => h)
    (fun _ _ _ h => Nat.lt_succ_of_lt h) (fun _ h => h)

end Libet
