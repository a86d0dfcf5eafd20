/-
Libet/CallRule.lean

A rule for properties that depend on what the callbacks of a program do.

`World.PollerRule` serves the properties that no operation of the caller can
break, so a callback is any sequence of operations there.  What an echo server
has sent, and which connections an idle timeout watches, are other matters: they
depend on which operations the callbacks run, and when.  Here the call of a
callback is one change, and a property has to survive the callbacks of one `App`
only.  What happens outside the handlers (`Input.user`, a new connection, the
clock, a task that leaves the queue) is left to the run.
-/
import Libet.WorldRule

namespace Libet

namespace World

/-- The changes that a world goes through, with the callbacks of `app`. -/
structure CallRule (app : App) (P : World → Prop) : Prop where
  log : ∀ {w e}, P w → (∀ i off msg bytes, e ≠ .msgCb i off msg bytes) →
    (∀ i s, e ≠ .stateCb i s) → P (w.log e)
  /-- the state, `m_input` or the receiving side of the socket of a connection changes -/
  conn : ∀ {w i} state input sock, P w → sock.accepted = (w.con i).sock.accepted →
    sock.sendFailed = (w.con i).sock.sendFailed →
    P (w.set i { w.con i with state := state, input := input, sock := sock })
  /-- the registry or the poller changes -/
  base : ∀ {w b}, P w → b.idleConns = w.base.idleConns → b.nextNode = w.base.nextNode →
    b.unregistered = w.base.unregistered → b.tasks = w.base.tasks → P { w with base := b }
  unregisterIdles : ∀ {w} i, P w → P (unregisterIdles i w)
  updateIdles : ∀ {w} i, P w → P (updateIdles i w)
  /-- the first and the last part of `HandleWrite` -/
  flush : ∀ {w} i, P w → P (w.onLink i fun l => l.flush)
  unwatch : ∀ {w} i, P w → P (unwatch i w)
  /-- the descriptor of the channel is closed -/
  shut : ∀ {w i ch}, P w → (w.con i).channel = some ch →
    P (w.set i { w.con i with channel := some { ch with fd := SOCKET_ERROR } })
  /-- the callbacks are reset and the channel is let go of -/
  drop : ∀ {w i}, P w → P (w.set i { w.con i with
    readCb := none, writeCb := false, stateCb := false, timerCb := false, channel := none })
  /-- a message is handed to the callback and consumed -/
  callMsg : ∀ {w i}, P w → (w.con i).readCb = some .onMsg →
    P (callMsg app i (tryDecode app.plat (w.con i).input.content Slice.empty).1
      (tryDecode app.plat (w.con i).input.content Slice.empty).2 w)
  onRead : ∀ {w i}, P w → (w.con i).readCb = some .onRead → P (w.runOps (app.onRead w i))
  /-- the state callback is told the state -/
  callState : ∀ {w i}, P w → (w.con i).stateCb = true → P (callState app i w)
  onTimer : ∀ {w} i, P w → P (w.runOps (app.onTimer w i))
  onWrite : ∀ {w} i, P w → P (w.runOps (app.onWrite w i))

/-- What the caller does changes the sending side of a connection, queues a close
or registers an idle callback. -/
theorem runOp_rule {P : World → Prop} {w : World}
    (onLink : ∀ {w} i f, (∀ l, Libet.Quiet l (f l)) → P w → P (w.onLink i f))
    (safeCall : ∀ {w} i, P w → P { w with base := w.base.safeCall i })
    (addIdleCB : ∀ {w i} idle, P w → (w.con i).channel.isSome →
      P (w.runOp (.addIdleCB i idle))) (op : UserOp) (h : P w) : P (w.runOp op) := by
  cases op with
  | send i buf => exact onLink i (·.send buf) (fun l => l.quiet_send buf) h
  | sendBuffer i buf =>
      exact onLink i (fun l => (l.sendBuffer buf.1).1) (fun l => l.quiet_sendBuffer buf.1) h
  | sendMsg i msg => exact onLink i (·.sendMsg msg) (fun l => l.quiet_sendMsg msg) h
  | sendOutput i => exact onLink i (·.sendOutput) (fun l => l.quiet_sendOutput) h
  | close i =>
      simp only [World.runOp]
      split
      · exact safeCall i h
      · exact h
  | addIdleCB i idle =>
      by_cases hch : (w.con i).channel.isSome
      · exact addIdleCB idle h hch
      · rw [World.runOp, if_neg hch]
        exact h

/-- What every operation keeps, a callback keeps. -/
theorem runOps_rule {P : World → Prop} (runOp : ∀ {w} op, P w → P (World.runOp w op)) {w : World}
    (h : P w) (ops : List UserOp) : P (w.runOps ops) := by
  induction ops generalizing w with
  | nil => exact h
  | cons op ops ih => exact ih (runOp op h)

namespace CallRule

variable {app : App} {P : World → Prop} {w : World} {i : ConnId}

/-- The rule for a property that the callbacks of every program keep. -/
theorem of_runOp (runOp : ∀ {w} op, P w → P (World.runOp w op))
    (onLink : ∀ {w} i f, (∀ l, Libet.Quiet l (f l)) → P w → P (w.onLink i f))
    (receives : ∀ {w i c}, P w → Receives (w.con i) c → P (w.set i c))
    (log : ∀ {w} e, P w → P (w.log e))
    (base : ∀ {w b}, P w → b.idleConns = w.base.idleConns → b.nextNode = w.base.nextNode →
      b.unregistered = w.base.unregistered → b.tasks = w.base.tasks → P { w with base := b })
    (unregisterIdles : ∀ {w} i, P w → P (Libet.unregisterIdles i w))
    (updateIdles : ∀ {w} i, P w → P (Libet.updateIdles i w)) : CallRule app P where
  log h _ _ := log _ h
  conn {w i} _ _ _ h hacc hfail := receives h ⟨rfl, rfl, hacc, hfail, rfl, fun hs => ⟨hs, rfl⟩⟩
  base := base
  unregisterIdles := unregisterIdles
  updateIdles := updateIdles
  flush i h := onLink i (·.flush) (fun l => l.quiet_flush) h
  unwatch {w} i h := by
    rw [Libet.unwatch]
    split
    · exact onLink i (·.enableWrite false) (fun l => l.quiet_enableWrite false) h
    · exact h
  shut {w i ch} h hch := by
    refine receives h ⟨rfl, rfl, rfl, rfl, rfl, fun _ => ?_⟩
    simp [TcpConn.writable, hch]
  drop h := receives h ⟨rfl, rfl, rfl, rfl, rfl, fun hs => by cases hs⟩
  callMsg {w i} h _ := by
    rw [Libet.callMsg]
    exact receives (runOps_rule runOp (log _ h) _) ⟨rfl, rfl, rfl, rfl, rfl, fun hs => ⟨hs, rfl⟩⟩
  onRead h _ := runOps_rule runOp h _
  callState {w i} h hcb := by
    rw [Libet.callState, if_pos hcb]
    exact runOps_rule runOp (log _ h) _
  onTimer _ h := runOps_rule runOp h _
  onWrite _ h := runOps_rule runOp h _

variable {hr close : World → World}
variable (r : CallRule app P)
include r

theorem setState (h : P w) (s : ConnState) : P (w.setState i s) := by
  rw [World.setState]
  split
  · exact h
  · exact r.log (r.conn s (w.con i).input (w.con i).sock h rfl rfl) (fun _ _ _ _ e => by cases e) fun _ _ e => by cases e

/-! ### The callbacks -/

/-- The loop of `OnMsg`; the callback does not reset itself. -/
theorem onMsg (hclose : ∀ {w}, P w → P (close w)) (h : P w)
    (hcb : (w.con i).readCb = some .onMsg) : P (onMsg app i close w) := by
  induction w using onMsg.induct app i with
  | case1 w r' =>
      rename_i hneg
      rw [Libet.onMsg, if_pos hneg]
      exact hclose (r.log h (fun _ _ _ _ e => by cases e) fun _ _ e => by cases e)
  | case2 w r' hneg hpos =>
      rename_i ih
      rw [Libet.onMsg, if_neg hneg, dif_pos hpos]
      refine ih (r.callMsg h hcb) ?_
      have hquiet := World.quiet_runOps
        (w.log (.msgCb i ((w.con i).sock.received - (w.con i).input.size) r'.2
          (r'.2.bytes (w.con i).input.content)))
        (app.onMsg (w.log (.msgCb i ((w.con i).sock.received - (w.con i).input.size) r'.2
          (r'.2.bytes (w.con i).input.content))) i r'.2)
      have hpeer := congrArg Peer.readCb (congrFun (congrArg Hub.peer hquiet.hub) i)
      simp only [Libet.callMsg, World.consumeInput, World.set, Function.update_self]
      exact hpeer.trans hcb
  | case3 w r' hneg =>
      rename_i hpos
      rw [Libet.onMsg, if_neg hneg, dif_neg hpos]
      exact h

theorem callRead (hclose : ∀ {w}, P w → P (close w)) (h : P w) :
    P (callRead app i close w) := by
  have hlog : P (w.log (.readCb i)) := r.log h (fun _ _ _ _ e => by cases e) fun _ _ e => by cases e
  rw [Libet.callRead]
  split
  · exact h
  · split
    · exact h
    · rename_i hcb
      exact r.onRead hlog hcb
    · rename_i hcb
      exact r.onMsg hclose hlog hcb

theorem toldState (h : P w) : P (Libet.callState app i w) := by
  by_cases hcb : (w.con i).stateCb = true
  · exact r.callState h hcb
  · rw [Libet.callState, if_neg hcb]
    exact h

theorem callTimer (h : P w) : P (callTimer app i w) := by
  rw [Libet.callTimer]
  split
  · exact r.onTimer i (r.log h (fun _ _ _ _ e => by cases e) fun _ _ e => by cases e)
  · exact h

/-! ### Closing and cleaning up -/

theorem removeChannel (ch : Channel) (h : P w) : P (removeChannel ch w) :=
  r.base h rfl rfl rfl rfl

theorem channelClose (hhr : ∀ {w}, P w → P (hr w)) (h : P w) : P (channelClose hr i w) := by
  rw [Libet.channelClose]
  split
  · exact h
  · rename_i ch hch
    split
    · exact hhr (r.shut (r.removeChannel ch h) hch)
    · exact h

theorem removeConn (h : P w) : P (removeConn i w) := by
  rw [Libet.removeConn]
  split
  · exact r.log (r.base h rfl rfl rfl rfl) (fun _ _ _ _ e => by cases e) fun _ _ e => by cases e
  · exact h

theorem deleteChannel (hhr : ∀ {w}, P w → P (hr w)) (h : P w) : P (deleteChannel hr i w) := by
  simp only [Libet.deleteChannel]
  split
  · exact r.drop h
  · rename_i ch hch
    simp only [destroyChannel]
    refine r.log ?_ (fun _ _ _ _ e => by cases e) fun _ _ e => by cases e
    split
    · exact hhr (r.removeChannel ch (r.drop h))
    · exact r.drop h

theorem tearDown (hhr : ∀ {w}, P w → P (hr w)) (h : P w) : P (tearDown app hr i w) :=
  r.log (r.deleteChannel hhr (r.removeConn (r.unregisterIdles i
    (r.toldState (r.setState h _))))) (fun _ _ _ _ e => by cases e) fun _ _ e => by cases e

theorem cleanup (hhr : ∀ {w}, P w → P (hr w)) (h : P w) : P (cleanup app hr i w) :=
  r.tearDown hhr (r.callRead (r.channelClose hhr) h)

/-! ### Events -/

theorem handleHandshake (hhr : ∀ {w}, P w → P (hr w)) (h : P w) :
    P (handleHandshake app hr i w).2 := by
  rw [Libet.handleHandshake]
  split
  · exact h
  · have hsel : P (w.set i { w.con i with
        sock := ((w.con i).sock.select (w.con i).fd).2 }) := by
      refine r.conn (w.con i).state (w.con i).input _ h ?_ ?_
      · simp only [Socket.select]; split <;> rfl
      · simp only [Socket.select]; split <;> rfl
    dsimp only
    -- `select` has asked the socket: the handshake ends, or `Cleanup` runs
    split
    · exact r.callTimer (r.toldState (r.setState hsel _))
    · exact r.cleanup hhr hsel

theorem readLoop (hhr : ∀ {w}, P w → P (hr w)) {script : List RecvResult} (h : P w) :
    P (readLoop app hr i script w) := by
  have hroom : ∀ {w}, P w → P (makeRoomInput i w) :=
    fun h => r.conn _ _ _ h rfl rfl
  have hrecv : ∀ {w} rest, P w → P (setRecvs i rest w) :=
    fun _ h => r.conn _ _ _ h rfl rfl
  have hadd : ∀ {w} bs, P w → P (addInput i bs w) :=
    fun _ h => r.conn _ _ _ h rfl rfl
  induction script, w using readLoop.induct i with
  | case1 script w hs =>
      rw [readLoop_of_ne hs]
      exact h
  | case2 script w hs w' hfd =>
      rw [readLoop_shut (not_not.mp hs) hfd]
      exact r.cleanup hhr (hroom h)
  | case3 script w hs w' hfd rest hscript =>
      rw [readLoop_wouldBlock (not_not.mp hs) hfd hscript]
      exact r.callRead (r.channelClose hhr) (r.updateIdles i (hrecv rest (hroom h)))
  | case4 script w hs w' hfd b bs rest hscript ih =>
      rw [readLoop_data (not_not.mp hs) hfd hscript]
      exact ih (hadd _ (hrecv rest (hroom h)))
  | case5 script w hs w' hfd res rest hne hne' hscript =>
      rw [readLoop_stop (not_not.mp hs) hfd hscript hne hne']
      exact r.cleanup hhr (hrecv rest (hroom h))

theorem handleReadWith (hhr : ∀ {w}, P w → P (hr w)) (h : P w) :
    P (handleReadWith app hr i w) := by
  have hshake : P (if (w.con i).state = .handshaking then Libet.handleHandshake app hr i w
      else (0, w)).2 := by
    split
    · exact r.handleHandshake hhr h
    · exact h
  unfold Libet.handleReadWith
  generalize (if (w.con i).state = .handshaking then Libet.handleHandshake app hr i w
    else (0, w)) = x at hshake ⊢
  dsimp only
  split
  · exact hshake
  · exact r.readLoop hhr hshake

theorem handleRead (h : P w) : P (handleRead app i w) :=
  r.handleReadWith (r.handleReadWith id) h

theorem handleWrite (h : P w) : P (handleWrite app i w) := by
  rw [Libet.handleWrite]
  split
  · exact r.handleHandshake r.handleRead h
  · apply r.unwatch i
    rw [callWrite]
    split
    · exact r.onWrite i (r.flush i h)
    · exact r.flush i h
  · exact h

theorem postedClose (h : P w) : P (postedClose app i w) := by
  rw [Libet.postedClose]
  split
  · exact r.channelClose r.handleRead h
  · exact h

/-- **The rule for one event**; what happens outside the handlers is said apart. -/
theorem worldStep {a : Input} {w' : World} (hstep : worldStep app w a = some w') (h : P w)
    (haccept : ∀ fd recvs sends selects, a = .accept fd recvs sends selects →
      P (handleAccept app fd (Socket.ofScripts recvs sends selects) w))
    (hpop : ∀ i rest, a = .task → w.base.tasks = i :: rest →
      P { w with base := { w.base with tasks := rest } })
    (huser : ∀ op, a = .user op → P (w.runOp op))
    (htick : ∀ now, a = .tick now → P { w with now := now }) : P w' := by
  cases a with
  | accept fd recvs sends selects =>
      simp only [Libet.worldStep] at hstep
      split at hstep
      · cases hstep
      · obtain rfl := Option.some.inj hstep
        exact haccept fd recvs sends selects rfl
  | readable i =>
      simp only [Libet.worldStep] at hstep
      split at hstep
      · obtain rfl := Option.some.inj hstep
        exact r.handleRead h
      · cases hstep
  | writable i =>
      simp only [Libet.worldStep] at hstep
      split at hstep
      · obtain rfl := Option.some.inj hstep
        exact r.handleWrite h
      · cases hstep
  | task =>
      simp only [Libet.worldStep] at hstep
      split at hstep
      · cases hstep
      · rename_i i rest htasks
        obtain rfl := Option.some.inj hstep
        exact r.postedClose (hpop i rest rfl htasks)
  | user op =>
      obtain rfl := Option.some.inj hstep
      exact huser op rfl
  | tick now =>
      obtain rfl := Option.some.inj hstep
      exact htick now rfl

end CallRule

end World

end Libet
