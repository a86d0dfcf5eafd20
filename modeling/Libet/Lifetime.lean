/-
Libet/Lifetime.lean

How long a `TcpConn` lives.

A `TcpConn` is destroyed when nobody holds it any more.  The library holds it in
the two closures of its channel, in `m_conns`, in the nodes of its idle callbacks
and in the closes it has queued; what code of the caller holds, in a timer or a
task of a worker say, comes with every event.  A `World` keeps the record of every
connection for good, as if it were held for good.

That makes a difference in one place.  While the channel is there, its closures
hold the connection, and the last thing `Cleanup` does is to delete the channel.
Only the `Cleanup` at the end of a burst calls code that may run a whole `Cleanup`
of the same connection, and then goes on.  `behindRead` is the world in which it goes
on.  In most bursts the channel is still there (`two_le_owners_behindRead`); in a bad
one the read callback has closed it, and it is gone, and its closures with it
(`behindRead_spec`).  `Dangles` says when `Cleanup` then goes on with something else
that is gone.

* `heldStep` — an event; undefined behaviour may leave any world.
* `Sound` — the event does not lead to undefined behaviour.
* `exec_of_sound` — a run of sound events is a run of the event base, and its
  bursts spare the idle callbacks.

Main results: `tornDownOnce_of_soundRun` and `lifecycle_of_soundRun`.
-/
import Libet.Teardown

namespace Libet

/-! ### Who holds a connection -/

/-- The shared pointers to connection `i` that the library has: those in the two
closures of its channel, in `m_conns`, in idle nodes and in queued closes. -/
def World.owners (w : World) (i : ConnId) : Nat :=
  (if (w.con i).channel.isSome then 2 else 0) + w.base.conns.count i +
    (w.base.idleConns.entries.flatMap Prod.snd).countP (·.conn = i) + w.base.tasks.count i

/-! ### The end of a burst -/

/-- `HandleRead` behind the handshake. -/
def shaken (app : App) (hr : World → World) (i : ConnId) (w : World) : World :=
  if (w.con i).state = .handshaking then (handleHandshake app hr i w).2 else w

/-- The loop of `HandleRead` up to the result of `recv` that ends it. -/
def readTo (i : ConnId) (script : List RecvResult) (w : World) : World :=
  if (w.con i).state ≠ .connected then w
  else
    let w := makeRoomInput i w
    if (w.con i).fd = SOCKET_ERROR then w
    else
      match _h : recv (w.con i).input.space script with
      | (.data b bs, rest) => readTo i rest (addInput i (b :: bs) (setRecvs i rest w))
      | (_, rest) => setRecvs i rest w
termination_by weight script
decreasing_by exact weight_recv _h

/-- The world in which the `Cleanup` at the end of a burst goes on behind its read
callback. -/
def behindRead (app : App) (i : ConnId) (w : World) : World :=
  let hr := handleReadWith app id i
  let w := shaken app hr i w
  callRead app i (channelClose hr i) (readTo i (w.con i).sock.recvs w)

/-- The next event of connection `i` brings a burst with the end of the stream
behind it. -/
def Hub.EndsStream (v : Hub) (i : ConnId) : Prop :=
  let c := v.peer i
  (c.state = .connected ∨ (c.state = .handshaking ∧ c.selects.head? = some 1)) ∧
    (burst c.recvs).2.1 ≠ .wouldBlock

theorem Hub.badBurst_iff {p : Platform} {v : Hub} {i : ConnId} :
    v.BadBurst p i ↔ v.EndsStream i ∧ (v.peer i).feed.GivesUp p := by
  simp only [BadBurst, EndsStream, and_assoc]

variable {app : App} {w w' : World} {v : Hub} {i : ConnId}

theorem readTo_data {script rest : List RecvResult} {b : UInt8} {bs : List UInt8}
    (hs : (w.con i).state = .connected)
    (hfd : ((makeRoomInput i w).con i).fd ≠ SOCKET_ERROR)
    (hrecv : recv ((makeRoomInput i w).con i).input.space script = (.data b bs, rest)) :
    readTo i script w =
      readTo i rest (addInput i (b :: bs) (setRecvs i rest (makeRoomInput i w))) := by
  rw [readTo, if_neg (not_not_intro hs)]
  dsimp only
  rw [if_neg hfd]
  split <;> rename_i heq <;> cases hrecv.symm.trans heq
  · rfl
  · rename_i hne
    exact absurd rfl (hne b bs)

theorem readTo_stop {script rest : List RecvResult} {r : RecvResult}
    (hs : (w.con i).state = .connected)
    (hfd : ((makeRoomInput i w).con i).fd ≠ SOCKET_ERROR)
    (hrecv : recv ((makeRoomInput i w).con i).input.space script = (r, rest))
    (hdata : ∀ b bs, r ≠ .data b bs) :
    readTo i script w = setRecvs i rest (makeRoomInput i w) := by
  rw [readTo, if_neg (not_not_intro hs)]
  dsimp only
  rw [if_neg hfd]
  split <;> rename_i heq <;> cases hrecv.symm.trans heq
  · exact absurd rfl (hdata _ _)
  · rfl

/-- A piece of the burst can be fed first. -/
theorem Peer.feed_data {c : Peer} {bs : List UInt8} {rest : List RecvResult}
    (h : burst c.recvs = (bs ++ (burst rest).1, (burst rest).2)) :
    { c with pending := c.pending ++ bs
             received := c.received + bs.length
             recvs := rest }.feed = c.feed := by
  simp only [Peer.feed, h, List.length_append, List.append_assoc, Nat.add_assoc]

/-- The loop feeds the burst to the connection and ends in `Cleanup`. -/
theorem refines_readTo (app : App) {script : List RecvResult} (h : Refines w v)
    (hscript : (v.peer i).recvs = script) (hs : (v.peer i).state = .connected)
    (hopen : (v.peer i).isOpen = true) (hend : (burst script).2.1 ≠ .wouldBlock) :
    Refines (readTo i script w) (v.put i (v.peer i).feed) ∧
      ∀ hr, readLoop app hr i script w = cleanup app hr i (readTo i script w) := by
  induction script, w using readTo.induct i generalizing v with
  | case1 script w hne =>
      have hs' : (v.peer i).state = (w.con i).state := by rw [h.peer]; rfl
      exact absurd (hs'.symm.trans hs) hne
  | case2 script w hne =>
      rename_i hfd
      rw [(h.makeRoomInput (i := i)).fd_eq_iff, hopen] at hfd
      cases hfd
  | case3 script w hne w₁ =>
      -- a piece of the burst
      rename_i hfd b bs rest hrecv ih
      have hroom := h.makeRoomInput (i := i)
      obtain ⟨hb, hspace⟩ := burst_recv_data hrecv
      have hadd := (hroom.setRecvs (i := i) rest).addInput (i := i)
        (show (b :: bs).length ≤ _ by simpa [setRecvs, World.set] using hspace)
      simp only [Hub.put_peer, Hub.put_put] at hadd
      have hnext := ih hadd (by simp) (by simpa using hs) (by simpa [Peer.isOpen] using hopen)
        (by rw [hb] at hend; exact hend)
      rw [Hub.put_peer, Hub.put_put, Peer.feed_data (by rw [hscript]; exact hb)] at hnext
      rw [readTo_data (not_not.mp hne) hfd hrecv]
      refine ⟨hnext.1, fun hr => ?_⟩
      rw [readLoop_data (not_not.mp hne) hfd hrecv]
      exact hnext.2 hr
  | case4 script w hne w₁ =>
      -- the peer has closed, or an error
      rename_i hfd r rest hdata hrecv
      have hroom := h.makeRoomInput (i := i)
      obtain ⟨hblock, hclosed, herror⟩ := burst_recv_stop (h.room_pos i) hrecv
      have hempty : ∃ stop, burst script = ([], stop, rest) := by
        cases r with
        | data b bs => exact absurd rfl (hdata b bs)
        | wouldBlock => exact ⟨_, hblock rfl⟩
        | closed => exact ⟨_, hclosed rfl⟩
        | error => exact ⟨_, herror rfl⟩
      obtain ⟨stop, hb⟩ := hempty
      have hfeed : (v.peer i).feed = { v.peer i with recvs := rest } := by
        simp only [Peer.feed, hscript, hb, List.append_nil, List.length_nil, Nat.add_zero]
      rw [readTo_stop (not_not.mp hne) hfd hrecv hdata, hfeed]
      refine ⟨hroom.setRecvs rest, fun hr => ?_⟩
      refine readLoop_stop (not_not.mp hne) hfd hrecv (fun hr => ?_) hdata
      rw [hblock hr] at hend
      exact absurd rfl hend

/-- The handshake, if there is one, goes through, and the loop follows. -/
theorem refines_shaken {hr : World → World} (hhr : Refines.Closes app i hr) (hw : w.Good)
    (h : w.hub.EndsStream i) :
    ∃ u : Hub, Refines (shaken app hr i w) u ∧ u.Settled ∧ (u.peer i).state = .connected ∧
      (u.peer i).recvs = (w.hub.peer i).recvs ∧
      (∀ p, (u.peer i).feed.GivesUp p ↔ (w.hub.peer i).feed.GivesUp p) ∧
      handleReadWith app hr i w =
        readLoop app hr i ((shaken app hr i w).con i).sock.recvs (shaken app hr i w) := by
  obtain ⟨hs | ⟨hs, hsel⟩, -⟩ := h
  · have hne : ¬ (w.con i).state = .handshaking := by
      rw [show (w.con i).state = .connected from hs]
      simp
    refine ⟨w.hub, ?_, hw.settled, hs, rfl, fun _ => Iff.rfl, ?_⟩
    · rw [shaken, if_neg hne]
      exact hw.refines
    · rw [handleReadWith, shaken, if_neg hne, if_neg hne]
      simp
  · have hopen : (w.hub.peer i).isOpen = true := by rw [hw.settled.open_iff, hs]; rfl
    have hpeer := Hub.handshake_peer (p := app.plat) hsel
    obtain ⟨hend, hret⟩ := hw.refines.handleHandshake hhr hs hopen
    have hs' : (w.con i).state = .handshaking := hs
    have hshaken : shaken app hr i w = (handleHandshake app hr i w).2 := by rw [shaken, if_pos hs']
    refine ⟨w.hub.handshake app.plat i, hshaken ▸ hend, ?_, by rw [hpeer], by rw [hpeer],
      fun p => ?_, ?_⟩
    · exact (Hub.settled_rule app.slots).handshake hw.settled hs hopen (hw.settled.empty i hs)
    · rw [hpeer]
      exact Iff.rfl
    · rw [handleReadWith, if_pos hs', if_neg (not_not.mpr (hret.mpr (by rw [hpeer])))]
      rw [hshaken]

/-- **The end of a burst.**  `HandleRead` ends with `Cleanup`, which goes on in
`behindRead`.  In a bad burst the channel is gone by then and the state callback is
reset; in any other the channel is still there. -/
theorem behindRead_spec (app : App) (hw : w.Good) (h : w.hub.EndsStream i) :
    handleRead app i w =
        tearDown app (handleReadWith app id i) i (behindRead app i w) ∧
      ((¬ w.hub.BadBurst app.plat i ∧ ((behindRead app i w).con i).channel.isSome) ∨
        (w.hub.BadBurst app.plat i ∧ ((behindRead app i w).con i).channel = none ∧
          ((behindRead app i w).con i).stateCb = false)) := by
  have hhr : Refines.Closes app i (handleReadWith app id i) := Refines.closes_handleReadWith fun _ _ _ => rfl
  obtain ⟨u, hu, hsettled, hs, hrecvs, hgives, hread⟩ := refines_shaken hhr hw h
  have hscript : (u.peer i).recvs =
      ((shaken app (handleReadWith app id i) i w).con i).sock.recvs := by rw [hu.peer]; rfl
  have hopen : (u.peer i).isOpen = true := by rw [hsettled.open_iff, hs]; rfl
  obtain ⟨hto, hloop⟩ := refines_readTo app hu hscript hs hopen
    (by rw [← hscript, hrecvs]; exact h.2)
  have hput : (u.put i (u.peer i).feed).peer i = (u.peer i).feed := Hub.put_peer ..
  have hbehind : Refines (behindRead app i w)
      ((u.put i (u.peer i).feed).callRead app.plat (Hub.closeChannel app.plat i) i) :=
    Refines.callRead (fun h' _ => h'.channelClose hhr) hto
  refine ⟨(hread.trans (hloop _)).trans rfl, ?_⟩
  have hfed : (u.put i (u.peer i).feed).Settled :=
    (Hub.settled_rule app.slots).data _ _ _ hsettled hs
  -- what the read callback has made of the connection
  obtain ⟨-, hcase⟩ := (Hub.settled_rule app.slots).callRead (p := app.plat) (i := i) hfed
    (by rw [hput]; exact hopen) (Or.inr (by rw [hput]; exact hs))
  rw [hput, hgives] at hcase
  have hch := hbehind.channel_eq (i := i)
  have hcb := congrArg Peer.stateCb (hbehind.peer i)
  rw [Hub.badBurst_iff, and_iff_right h]
  refine hcase.imp (fun hc => ⟨hc.1, ?_⟩) fun hc => ⟨hc.1, ?_, hcb.symm.trans hc.2.2.1⟩
  · obtain ⟨ch, hopen'⟩ := Hub.exists_channel_of_isOpen hc.2.2
    rw [hopen'] at hch
    obtain ⟨c, hc, -⟩ := Option.map_eq_some_iff.mp hch.symm
    rw [hc]
    rfl
  · rw [hc.2.2.2] at hch
    exact Option.map_eq_none_iff.mp hch.symm

/-- In any other burst the closures of the channel hold the connection when `Cleanup`
goes on. -/
theorem two_le_owners_behindRead (hw : w.Good) (h : w.hub.EndsStream i)
    (hgood : ¬ w.hub.BadBurst app.plat i) : 2 ≤ (behindRead app i w).owners i := by
  obtain ⟨-, ⟨-, hch⟩ | ⟨hbad, -⟩⟩ := behindRead_spec app hw h
  · rw [World.owners, if_pos hch]
    omega
  · exact absurd hbad hgood

/-- A `Cleanup` that finds no channel and no state callback leaves the ids alone. -/
theorem idleIds_tearDown {hr : World → World} (hch : (w.con i).channel = none)
    (hcb : (w.con i).stateCb = false) :
    ((tearDown app hr i w).con i).idleIds = (w.con i).idleIds := by
  have hset : ∀ s, ((w.setState i s).con i).channel = none ∧
      ((w.setState i s).con i).stateCb = false ∧
      ((w.setState i s).con i).idleIds = (w.con i).idleIds := by
    intro s
    rw [World.setState]
    split
    · exact ⟨hch, hcb, rfl⟩
    · simp only [World.log, World.set, Function.update_self]
      exact ⟨hch, hcb, trivial⟩
  have hremove : ∀ w : World, (removeConn i w).con = w.con := by
    intro w
    rw [removeConn]
    split <;> rfl
  obtain ⟨hch', hcb', hids⟩ := hset (if (w.con i).state = .handshaking then .failed else .closed)
  rw [tearDown, callState, if_neg (by rw [hcb']; simp), deleteChannel]
  simp only [hremove, unregisterIdles, World.log, hch', World.set, Function.update_self]
  exact hids

/-! ### Undefined behaviour -/

/-- The `Cleanup` at the end of a bad burst goes on with something that is gone: with
the connection, if nobody holds it; with `con`, which was in a closure of the channel,
when `RemoveConn` compares it with the connections in `m_conns`; or with the nodes of
the idle callbacks, which the inner `Cleanup` has erased. -/
def Dangles (app : App) (held : ConnId → Bool) (w : World) (i : ConnId) : Prop :=
  w.hub.BadBurst app.plat i ∧
    ((held i = false ∧ (behindRead app i w).owners i = 0) ∨
      (behindRead app i w).base.conns ≠ [] ∨
      ((behindRead app i w).con i).idleIds ≠ [])

instance (app : App) (held : ConnId → Bool) (w : World) (i : ConnId) :
    Decidable (Dangles app held w i) := by
  unfold Dangles
  infer_instance

/-- An event. -/
structure HeldInput where
  input : Input
  /-- the connections that code of the caller holds when a read callback of the event has
  returned to `Cleanup` -/
  held : ConnId → Bool
  /-- what the event leaves if its behaviour is undefined -/
  left : World

/-- One event.  Where it leads to undefined behaviour, any world may follow. -/
def heldStep (app : App) (w : World) (a : HeldInput) : Option World :=
  match a.input with
  | .readable i => if Dangles app a.held w i then some a.left else worldStep app w (.readable i)
  | b => worldStep app w b

theorem heldStep_of_dangles {held : ConnId → Bool} (h : Dangles app held w i) (left : World) :
    heldStep app w ⟨.readable i, held, left⟩ = some left :=
  if_pos h

/-- The behaviour of the event is defined. -/
def Sound (app : App) (w : World) (a : HeldInput) : Prop :=
  ∀ i, a.input = .readable i → ¬ Dangles app a.held w i

theorem worldStep_of_sound {a : HeldInput} (h : heldStep app w a = some w')
    (hsound : Sound app w a) : worldStep app w a.input = some w' := by
  unfold heldStep at h
  split at h
  · rename_i i hi
    rw [if_neg (hsound i hi)] at h
    rw [hi]
    exact h
  · exact h

/-- A sound event spares the idle callbacks: it meets a bad burst only where none is
registered. -/
theorem spares_of_sound {a : HeldInput} (hw : w.Good)
    (h : worldStep app w a.input = some w') (hsound : Sound app w a) :
    SparesIdles app w a.input w' := by
  intro i hi hbad
  obtain ⟨hread, ⟨hno, -⟩ | ⟨-, hch, hcb⟩⟩ :=
    behindRead_spec app hw (Hub.badBurst_iff.mp hbad).1
  · exact absurd hbad hno
  · rw [hi, worldStep] at h
    split at h <;> cases h
    rw [hread, idleIds_tearDown hch hcb]
    by_contra hids
    exact hsound i hi ⟨hbad, Or.inr (Or.inr hids)⟩

/-! ### Runs -/

variable {as : List HeldInput} {wakeupFd listenFd : Int}

/-- A run of sound events is a run of the event base. -/
theorem exec_of_sound
    (h : Exec.exec (heldStep app) (World.init wakeupFd listenFd) as = some w)
    (hsound : Exec.Along (heldStep app) (fun w a _ => Sound app w a)
      (World.init wakeupFd listenFd) as) :
    Exec.exec (worldStep app) (World.init wakeupFd listenFd) (as.map HeldInput.input) = some w ∧
      Exec.Along (worldStep app) (SparesIdles app) (World.init wakeupFd listenFd)
        (as.map HeldInput.input) := by
  refine Exec.relabel (I := World.Good) (fun s a s' hstep hs hw => ?_) hsound h
    (good_init wakeupFd listenFd)
  have hstep' := worldStep_of_sound hstep hs
  exact ⟨hstep', spares_of_sound hw hstep' hs, good_of_worldStep hstep' hw⟩

/-- A message and the end of the stream in one burst, on a connection that nobody
else holds. -/
def quietRun : List HeldInput :=
  [⟨.accept 6 [.data 0 [0, 0, 6, 7, 8], .closed] [.accept 9] [1], fun _ => false,
    World.init 4 5⟩, ⟨.readable 0, fun _ => false, World.init 4 5⟩]

theorem sound_quietRun : Exec.Along (heldStep heartbeatTest)
    (fun w a _ => Sound heartbeatTest w a) (World.init 4 5) quietRun := by
  intro w₁ h₁
  refine ⟨fun i hi => (by cases hi), fun w₂ h₂ => ⟨fun i hi hbad => ?_, trivial⟩⟩
  cases hi
  cases h₁
  exact absurd hbad.1 (by decide +kernel)

/-- A bad header and the end of the stream in one burst. -/
def badRun (held : Bool) (left : World) : List HeldInput :=
  [⟨.accept 6 [.data 0 [16, 0, 1, 0], .closed] [] [1], fun _ => held, left⟩,
    ⟨.readable 0, fun _ => held, left⟩]

/-- The world behind the first event of `badRun`. -/
def badPeer : World :=
  handleAccept heartbeatTest 6 (Socket.ofScripts [.data 0 [16, 0, 1, 0], .closed] [] [1])
    (World.init 4 5)

theorem exec_badRun (held : Bool) (left : World) :
    Exec.exec (heldStep heartbeatTest) (World.init 4 5) (badRun held left) = some left := by
  have haccept : heldStep heartbeatTest (World.init 4 5)
      ⟨.accept 6 [.data 0 [16, 0, 1, 0], .closed] [] [1], fun _ => held, left⟩ = some badPeer :=
    rfl
  have hdangles : Dangles heartbeatTest (fun _ => held) badPeer 0 := by
    cases held <;> decide +kernel
  rw [badRun, Exec.exec_cons, haccept, Option.bind_some, Exec.exec_cons,
    heldStep_of_dangles hdangles]
  rfl

/-- **A teardown gives back once**, in every run of sound events. -/
theorem tornDownOnce_of_soundRun
    (h : Exec.exec (heldStep app) (World.init wakeupFd listenFd) as = some w)
    (hsound : Exec.Along (heldStep app) (fun w a _ => Sound app w a)
      (World.init wakeupFd listenFd) as) : w.TornDownOnce := by
  obtain ⟨hrun, hspare⟩ := exec_of_sound h hsound
  exact tornDownOnce_of_run hrun hspare

/-- The ids are given back once. -/
theorem tornDownOnce_of_soundRun_heartbeatTest :
    ∃ w, Exec.exec (heldStep heartbeatTest) (World.init 4 5) quietRun = some w ∧
      w.base.unregistered = [(⟨15, 0⟩, true)] ∧ w.TornDownOnce := by
  have hrun : (Exec.exec (heldStep heartbeatTest) (World.init 4 5) quietRun).map
      (fun w => w.base.unregistered) = some [(⟨15, 0⟩, true)] := by
    decide +kernel
  obtain ⟨w, hw, hrecord⟩ := Option.map_eq_some_iff.mp hrun
  exact ⟨w, hw, hrecord, tornDownOnce_of_soundRun hw sound_quietRun⟩

/-- The connection is held, so it is still there for the outer `Cleanup`, which passes
the `IdleId` to `UnregisterIdle` a second time, when its node is gone.  The run goes on
as if that did nothing. -/
theorem tornDownOnce_fails :
    ∃ w, handleRead heartbeatTest 0 badPeer = w ∧
      Exec.exec (heldStep heartbeatTest) (World.init 4 5) (badRun true w) = some w ∧
      w.base.unregistered = [(⟨15, 0⟩, true), (⟨15, 0⟩, false)] ∧ ¬ w.TornDownOnce := by
  have hrecord : (handleRead heartbeatTest 0 badPeer).base.unregistered =
      [(⟨15, 0⟩, true), (⟨15, 0⟩, false)] := by
    decide +kernel
  refine ⟨_, rfl, exec_badRun true _, hrecord, fun h => ?_⟩
  have hflag := h.present (⟨15, 0⟩, false) (hrecord ▸ by decide)
  cases hflag

/-- **The life of a connection** is in order in every run of sound events. -/
theorem lifecycle_of_soundRun
    (h : Exec.exec (heldStep app) (World.init wakeupFd listenFd) as = some w)
    (hsound : Exec.Along (heldStep app) (fun w a _ => Sound app w a)
      (World.init wakeupFd listenFd) as) (i : ConnId) : w.OrderlyLife app.slots i :=
  lifecycle_of_run (exec_of_sound h hsound).1 i

/-- `Cleanup` runs to its end. -/
theorem lifecycle_of_soundRun_heartbeatTest :
    ∃ w, Exec.exec (heldStep heartbeatTest) (World.init 4 5) quietRun = some w ∧
      .cleanedUp 0 ∈ w.trace ∧ w.OrderlyLife heartbeatTest.slots 0 := by
  have hrun : (Exec.exec (heldStep heartbeatTest) (World.init 4 5) quietRun).map
      (fun w => decide (.cleanedUp 0 ∈ w.trace)) = some true := by
    decide +kernel
  obtain ⟨w, hw, hmem⟩ := Option.map_eq_some_iff.mp hrun
  exact ⟨w, hw, of_decide_eq_true hmem, lifecycle_of_soundRun hw sound_quietRun 0⟩

/-- Nobody holds the connection, so the outer `Cleanup` goes on with what the memory
holds by then.  If that looks like a connected `TcpConn` with a state callback, the
callback is told `Closed` once more. -/
theorem lifecycle_fails :
    ∃ c w, (behindRead heartbeatTest 0 badPeer).owners 0 = 0 ∧
      tearDown heartbeatTest (handleReadWith heartbeatTest id 0) 0
        ((behindRead heartbeatTest 0 badPeer).set 0 c) = w ∧
      Exec.exec (heldStep heartbeatTest) (World.init 4 5) (badRun false w) = some w ∧
      notified 0 w.trace = [.connected, .closed, .closed] ∧
      ¬ w.OrderlyLife heartbeatTest.slots 0 := by
  have htold : notified 0 (tearDown heartbeatTest (handleReadWith heartbeatTest id 0) 0
      ((behindRead heartbeatTest 0 badPeer).set 0 { TcpConn.new (Socket.ofScripts [] [] []) with
        state := .connected, stateCb := true })).trace = [.connected, .closed, .closed] := by
    decide +kernel
  refine ⟨_, _, by decide +kernel, rfl, exec_badRun false _, htold, fun h => ?_⟩
  have hprefix := h.notified_prefix
  rw [htold] at hprefix
  revert hprefix
  decide

end Libet
