/-
Libet/Refine.lean

`TcpConn.cpp` refines the hub.

`Refines w v` says that `w` looks like `v` and that its input buffers are well
formed.  Every function of the receiving side takes a world that refines `v` to
one that refines what the hub's function makes of `v`, whatever the caller's
code does in between; so the hub is a complete account of the receiving side
(`worldStep_refines`).
-/
import Libet.Lib.Exec
import Libet.TcpConn

namespace Libet

/-- `w` looks like `v`. -/
structure Refines (w : World) (v : Hub) : Prop where
  hub : w.hub = v
  input_wf : ∀ j, (w.con j).input.WF
  counted : ∀ j, (w.con j).input.content.length ≤ (w.con j).sock.received

namespace Refines

variable {w w' : World} {v : Hub} {i : ConnId} {app : App}

theorem peer (h : Refines w v) (j : ConnId) : v.peer j = (w.con j).peer := by
  rw [← h.hub]; rfl

theorem pending_le (h : Refines w v) (j : ConnId) :
    (v.peer j).pending.length ≤ (v.peer j).received := by
  rw [h.peer]; exact h.counted j

/-! ### Parts of a step -/

theorem quiet (h : Refines w v) (hq : w.Quiet w') : Refines w' v := by
  refine ⟨hq.hub.trans h.hub, fun j => ?_, fun j => ?_⟩
  · rw [hq.input]; exact h.input_wf j
  · have hpeer : (w'.con j).peer = (w.con j).peer := congrFun (congrArg Hub.peer hq.hub) j
    have hrec : (w'.con j).sock.received = (w.con j).sock.received :=
      congrArg Peer.received hpeer
    rw [hq.input, hrec]
    exact h.counted j

theorem runOps (h : Refines w v) (ops : List UserOp) : Refines (w.runOps ops) v :=
  h.quiet (World.quiet_runOps w ops)

theorem log (h : Refines w v) (e : Event) : Refines (w.log e) (v.log e) :=
  ⟨by rw [← h.hub]; rfl, h.input_wf, h.counted⟩

theorem set (h : Refines w v) {c : TcpConn} {P : Peer} (hP : c.peer = P) (hwf : c.input.WF)
    (hcount : c.input.content.length ≤ c.sock.received) :
    Refines (w.set i c) (v.put i P) := by
  subst hP
  refine ⟨?_, fun j => ?_, fun j => ?_⟩
  · rw [← h.hub]
    simp only [World.hub, World.set, Hub.put, Hub.mk.injEq, and_true]
    funext j
    rcases eq_or_ne j i with rfl | hj
    · rw [Function.update_self, Function.update_self]
    · rw [Function.update_of_ne hj, Function.update_of_ne hj]
  · rcases eq_or_ne j i with rfl | hj
    · simpa only [World.set, Function.update_self] using hwf
    · simpa only [World.set, Function.update_of_ne hj] using h.input_wf j
  · rcases eq_or_ne j i with rfl | hj
    · simpa only [World.set, Function.update_self] using hcount
    · simpa only [World.set, Function.update_of_ne hj] using h.counted j

/-- `set` where neither the input nor the count of received bytes changes. -/
theorem set_frame (h : Refines w v) {c : TcpConn} {P : Peer} (hP : c.peer = P)
    (hinput : c.input = (w.con i).input) (hrec : c.sock.received = (w.con i).sock.received) :
    Refines (w.set i c) (v.put i P) :=
  h.set hP (by rw [hinput]; exact h.input_wf i)
    (by rw [hinput, hrec]; exact h.counted i)

theorem setState (h : Refines w v) (s : ConnState) :
    Refines (w.setState i s) (v.setState i s) := by
  obtain rfl := h.hub
  rw [World.setState, Hub.setState]
  -- a repeated state is neither set nor recorded
  split
  · rename_i hs
    rw [if_pos (show (w.hub.peer i).state = s from hs)]
    exact h
  · rename_i hs
    rw [if_neg (show ¬ (w.hub.peer i).state = s from hs)]
    exact (h.set_frame (c := { w.con i with state := s }) rfl rfl rfl).log _

theorem consumeInput (h : Refines w v) {n : Nat} (hn : n ≤ (v.peer i).pending.length) :
    Refines (w.consumeInput i n)
      (v.put i { v.peer i with pending := (v.peer i).pending.drop n }) := by
  obtain rfl := h.hub
  have hwf := h.input_wf i
  have hc := Buffer.content_consume (w.con i).input n
  have hle : n ≤ (w.con i).input.size := by
    rw [← Buffer.content_length hwf]; exact hn
  refine h.set ?_ (Buffer.wf_consume hwf hle) ?_
  · simp only [TcpConn.peer, hc]
    rfl
  · have := h.counted i
    rw [hc, List.length_drop]
    exact (Nat.sub_le _ _).trans this

theorem callState (h : Refines w v) : Refines (callState app i w) (v.callState i) := by
  obtain rfl := h.hub
  rw [Libet.callState, Hub.callState]
  split
  · rename_i hs
    rw [if_pos (show (w.hub.peer i).stateCb = true from hs)]
    exact (h.log _).runOps _
  · rename_i hs
    rw [if_neg (show ¬ (w.hub.peer i).stateCb = true from hs)]
    exact h

/-! ### The read callback -/

theorem callMsg (h : Refines w v) {ret : Int} {m : Slice}
    (hn : ret.toNat ≤ (v.peer i).pending.length) :
    Refines (callMsg app i ret m w) (v.deliverOne i ret.toNat m) := by
  obtain rfl := h.hub
  have hoff : (w.hub.peer i).offset = (w.con i).sock.received - (w.con i).input.size := by
    rw [← Buffer.content_length (h.input_wf i)]
    rfl
  unfold Libet.callMsg Hub.deliverOne
  dsimp only
  rw [hoff]
  exact ((h.log _).runOps _).consumeInput hn

/-- The loop of `OnMsg`, if what it does after an error refines `close'`. -/
theorem onMsg {close : World → World} {close' : Hub → Hub}
    (hclose : ∀ {w' v'}, Refines w' v' → (v'.peer i).channel = (v.peer i).channel →
      Refines (close w') (close' v'))
    (h : Refines w v) :
    Refines (onMsg app i close w) (Hub.onMsg app.plat close' i v) := by
  induction w using onMsg.induct app i generalizing v with
  | case1 w r =>
      -- the header is bad: the loop ends with `close`
      rename_i hneg
      obtain rfl := h.hub
      have hbad : lengthParse app.plat (w.hub.peer i).pending = .bad :=
        lengthParse_bad.mpr hneg
      rw [Libet.onMsg, if_pos hneg, Hub.onMsg_bad hbad]
      exact hclose (h.log _) rfl
  | case2 w r hneg hpos =>
      -- one message, which the hub delivers in one step of its drain
      rename_i ih
      obtain rfl := h.hub
      have hitem : lengthParse app.plat (w.hub.peer i).pending = _ :=
        lengthParse_of_pos hpos
      rw [Libet.onMsg, if_neg hneg, dif_pos hpos,
        Hub.onMsg_item (h.pending_le i) hitem]
      have hmsg : Refines (Libet.callMsg app i r.1 r.2 w)
          (w.hub.deliverOne i r.1.toNat r.2) :=
        h.callMsg (Framing.item_le (lengthFraming app.plat) hitem)
      refine ih (fun hw' hch => hclose hw' (hch.trans ?_)) hmsg
      simp [Hub.deliverOne]
  | case3 w r hneg =>
      -- the frame is not complete yet
      rename_i hpos
      obtain rfl := h.hub
      have hmore : lengthParse app.plat (w.hub.peer i).pending = .more :=
        lengthParse_of_zero hneg hpos
      rw [Libet.onMsg, if_neg hneg, dif_neg hpos, Hub.onMsg_more hmore]
      exact h

theorem callRead {close : World → World} {close' : Hub → Hub}
    (hclose : ∀ {w' v'}, Refines w' v' → (v'.peer i).channel = (v.peer i).channel →
      Refines (close w') (close' v'))
    (h : Refines w v) :
    Refines (callRead app i close w) (Hub.callRead app.plat close' i v) := by
  obtain rfl := h.hub
  have hsize := Buffer.size_eq_zero_iff (h.input_wf i)
  rw [Libet.callRead, Hub.callRead]
  split
  · rename_i h0
    rw [if_pos (show (w.hub.peer i).pending = [] from hsize.mp h0)]
    exact h
  · rename_i h0
    rw [if_neg (show ¬ (w.hub.peer i).pending = [] from fun e => h0 (hsize.mpr e))]
    rw [show (w.hub.peer i).readCb = (w.con i).readCb from rfl]
    rcases (w.con i).readCb with - | - | -
    · exact h
    · exact (h.log _).runOps _
    · exact onMsg hclose (h.log (.readCb i))

/-! ### Closing and cleaning up -/

/-- `hr` has nothing to do with a connection that is not open any more. -/
def Inert (hr : World → World) (i : ConnId) : Prop :=
  ∀ w : World, (w.con i).state ≠ .handshaking → (w.con i).state ≠ .connected → hr w = w

theorem removeChannel (h : Refines w v) (ch : Channel) :
    Refines (removeChannel ch w) (v.removeChannel ch.id) := by
  obtain rfl := h.hub
  exact ⟨rfl, h.input_wf, h.counted⟩

theorem channel_eq (h : Refines w v) :
    (v.peer i).channel =
      (w.con i).channel.map fun ch => (ch.id, decide (ch.fd ≠ SOCKET_ERROR)) := by
  rw [h.peer]; rfl

theorem shutChannel (h : Refines w v) {ch : Channel} (hch : (w.con i).channel = some ch)
    (hfd : ch.fd ≠ SOCKET_ERROR) :
    Refines (shutChannel i ch w) (v.shutChannel i) := by
  have hpeer : (v.peer i).channel = some (ch.id, true) := by
    simp [h.channel_eq, hch, hfd]
  obtain rfl := h.hub
  have hset := (h.removeChannel ch).set_frame (i := i)
    (c := { w.con i with channel := some { ch with fd := SOCKET_ERROR } })
    (P := { w.hub.peer i with channel := some (ch.id, false) })
    (by simp [World.hub, TcpConn.peer]) rfl rfl
  rw [Hub.shutChannel]
  rw [hpeer]
  exact hset

theorem removeConn (h : Refines w v) : Refines (removeConn i w) (v.removeConn i) := by
  obtain rfl := h.hub
  rw [Libet.removeConn, Hub.removeConn]
  split
  · rename_i hi
    rw [if_pos (show i ∈ w.hub.conns from hi)]
    have hbase : Refines { w with base := w.base.removeConn i }
        { w.hub with conns := w.hub.conns.filter (· ≠ i) } :=
      ⟨rfl, h.input_wf, h.counted⟩
    exact hbase.log _
  · rename_i hi
    rw [if_neg (show ¬ i ∈ w.hub.conns from hi)]
    exact h

theorem unregisterIdles (h : Refines w v) :
    Refines (unregisterIdles i w) (v.log (.unregisteredIdles i)) := by
  obtain rfl := h.hub
  -- the hub does not see the idle lists
  have hlists := EventBase.foldl_frame (g := fun b => (b.conns, b.poller))
    (f := EventBase.unregisterIdle) (fun _ _ => rfl) (w.con i).idleIds w.base
  obtain ⟨h1, h2⟩ := Prod.mk.inj hlists
  have hbase' : Refines
      { w with base := (w.con i).idleIds.foldl EventBase.unregisterIdle w.base } w.hub :=
    ⟨by simp only [World.hub, h1, h2], h.input_wf, h.counted⟩
  exact hbase'.log _

theorem destroyChannel {hr : World → World} (hhr : Inert hr i) (h : Refines w v)
    (h1 : (w.con i).state ≠ .handshaking) (h2 : (w.con i).state ≠ .connected)
    (ch : Channel) :
    Refines (destroyChannel hr i ch w)
      ((if decide (ch.fd ≠ SOCKET_ERROR) then v.removeChannel ch.id else v).log
        (.deletedChannel i ch.id)) := by
  rw [Libet.destroyChannel]
  refine log ?_ _
  -- the `HandleRead` inside the destructor finds a connection that is gone
  by_cases hfd : ch.fd ≠ SOCKET_ERROR
  · rw [if_pos hfd, if_pos (decide_eq_true hfd), hhr (Libet.removeChannel ch w) h1 h2]
    exact h.removeChannel ch
  · rw [if_neg hfd, if_neg (by simpa using hfd)]
    exact h

theorem deleteChannel {hr : World → World} (hhr : Inert hr i) (h : Refines w v)
    (h1 : (w.con i).state ≠ .handshaking) (h2 : (w.con i).state ≠ .connected) :
    Refines (deleteChannel hr i w) (v.deleteChannel i) := by
  have hch := h.channel_eq (i := i)
  obtain rfl := h.hub
  have hreset : Refines
      (w.set i { w.con i with readCb := none, writeCb := false, stateCb := false,
                              timerCb := false, channel := none })
      (w.hub.put i { w.hub.peer i with readCb := none, stateCb := false, timerCb := false,
                                       channel := none }) :=
    h.set_frame rfl rfl rfl
  unfold Libet.deleteChannel Hub.deleteChannel
  dsimp only
  rw [hch]
  cases (w.con i).channel with
  | none => exact hreset
  | some ch =>
      exact hreset.destroyChannel hhr (by simpa [World.set] using h1)
        (by simpa [World.set] using h2) ch

theorem tearDown {hr : World → World} (hhr : Inert hr i) (h : Refines w v) :
    Refines (tearDown app hr i w) (v.terminate i) := by
  have hstate : (w.con i).state = (v.peer i).state := by rw [h.peer]; rfl
  have hne := (v.peer i).terminal_ne
  unfold Libet.tearDown Hub.terminate
  dsimp only
  rw [hstate, ← Peer.terminal]
  generalize (v.peer i).terminal = s at hne ⊢
  have hrem : Refines
      (Libet.removeConn i (Libet.unregisterIdles i
        (Libet.callState app i (w.setState i s))))
      ((((v.setState i s).callState i).log (.unregisteredIdles i)).removeConn i) :=
    (h.setState s).callState.unregisterIdles.removeConn
  -- the state is terminal by then, so `hr` is inert
  have hend : ∀ {w'}, Refines w'
      ((((v.setState i s).callState i).log (.unregisteredIdles i)).removeConn i) →
      (w'.con i).state = s := by
    intro w' h'
    have hp := congrArg Peer.state (h'.peer i)
    rw [Hub.removeConn_peer, Hub.log_peer, Hub.callState_peer, Hub.setState_peer] at hp
    exact hp.symm
  refine (hrem.deleteChannel hhr ?_ ?_).log _
  · rw [hend hrem]
    exact hne.1
  · rw [hend hrem]
    exact hne.2

/-- What `Channel::Close` refines once the descriptor is closed: nothing. -/
theorem channelClose_shut {hr : World → World} (h : Refines w v)
    (hshut : (v.peer i).isOpen = false) : Refines (channelClose hr i w) v := by
  rw [Libet.channelClose]
  split
  · exact h
  · rename_i ch hch
    have : ch.fd = SOCKET_ERROR := by
      simpa [Peer.isOpen, h.channel_eq, hch] using hshut
    rw [if_neg (by simp [this])]
    exact h

theorem isOpen_eq {c c' : Peer} (h : c.channel = c'.channel) : c.isOpen = c'.isOpen := by
  rw [Peer.isOpen, Peer.isOpen, h]

/-- `Cleanup` once the descriptor is closed. -/
theorem cleanup_shut {hr : World → World} (hhr : Inert hr i) (h : Refines w v)
    (hshut : (v.peer i).isOpen = false) :
    Refines (cleanup app hr i w) ((v.callRead app.plat id i).terminate i) := by
  refine tearDown hhr (callRead (fun h' hch => ?_) h)
  exact channelClose_shut h' ((isOpen_eq hch).trans hshut)

end Refines

/-! ### Reading once the descriptor is closed -/

namespace Refines

variable {w : World} {v : Hub} {i : ConnId} {app : App}

/-- A connection that is not open any more is not read. -/
theorem inert_handleReadWith (app : App) (hr : World → World) (i : ConnId) :
    Inert (handleReadWith app hr i) i := by
  intro w h1 h2
  rw [handleReadWith]
  rw [if_neg h1]
  dsimp only
  rw [if_neg (by simp), readLoop_of_ne h2]

theorem fd_eq_iff (h : Refines w v) :
    (w.con i).fd = SOCKET_ERROR ↔ (v.peer i).isOpen = false := by
  rw [Peer.isOpen, h.channel_eq, TcpConn.fd]
  cases (w.con i).channel <;> simp

theorem updateIdles (h : Refines w v) : Refines (updateIdles i w) v := by
  obtain rfl := h.hub
  have hlists := EventBase.foldl_frame (g := fun b => (b.conns, b.poller))
    (f := fun b id => b.updateIdle w.now id) (fun _ _ => rfl) (w.con i).idleIds w.base
  obtain ⟨h1, h2⟩ := Prod.mk.inj hlists
  refine ⟨?_, h.input_wf, h.counted⟩
  simp only [Libet.updateIdles, World.hub, h1, h2]

theorem makeRoomInput (h : Refines w v) : Refines (makeRoomInput i w) v := by
  obtain ⟨hwf, hc, -⟩ := Buffer.makeRoom_spec (h.input_wf i)
  have hset := h.set (i := i) (c := { w.con i with input := (w.con i).input.makeRoom })
    (P := v.peer i) (by simp only [h.peer, TcpConn.peer, hc]) hwf
    (by rw [hc]; exact h.counted i)
  rwa [Hub.put_self] at hset

theorem room_pos (h : Refines w v) (i : ConnId) :
    0 < ((Libet.makeRoomInput i w).con i).input.space := by
  simp only [Libet.makeRoomInput, World.set, Function.update_self]
  exact (Buffer.makeRoom_spec (h.input_wf i)).2.2

theorem setRecvs (h : Refines w v) (rest : List RecvResult) :
    Refines (setRecvs i rest w) (v.put i { v.peer i with recvs := rest }) := by
  obtain rfl := h.hub
  exact h.set_frame rfl rfl rfl

theorem addInput (h : Refines w v) {bs : List UInt8} (hbs : bs.length ≤ (w.con i).input.space) :
    Refines (addInput i bs w)
      (v.put i { v.peer i with pending := (v.peer i).pending ++ bs
                               received := (v.peer i).received + bs.length }) := by
  obtain rfl := h.hub
  obtain ⟨hwf, hc⟩ := Buffer.writeEnd_addSize_spec (h.input_wf i) hbs
  refine h.set ?_ hwf ?_
  · simp only [TcpConn.peer, hc]
    rfl
  · have := h.counted i
    rw [hc, List.length_append]
    simp only
    omega

/-- `HandleHandshake` once the descriptor is closed. -/
theorem handleHandshake_shut {hr : World → World} (hhr : Inert hr i) (h : Refines w v)
    (hs : (w.con i).state = .handshaking) (hshut : (v.peer i).isOpen = false) :
    (handleHandshake app hr i w).1 = -1 ∧
      Refines (handleHandshake app hr i w).2 ((v.callRead app.plat id i).terminate i) := by
  have hfd := h.fd_eq_iff.mpr hshut
  have hset := h.set_frame (i := i) (c := { w.con i with sock := (w.con i).sock })
    (P := v.peer i) (by rw [h.peer]) rfl rfl
  rw [Hub.put_self] at hset
  rw [Libet.handleHandshake]
  rw [if_neg (by simp [hs])]
  simp only [Socket.select, hfd, if_pos]
  rw [if_neg (by simp)]
  exact ⟨rfl, hset.cleanup_shut hhr hshut⟩

/-- `HandleRead` once the descriptor is closed, whatever `hr` is. -/
theorem readDead {hr : World → World} (hhr : Inert hr i) (h : Refines w v)
    (hshut : (v.peer i).isOpen = false) :
    Refines (handleReadWith app hr i w) (v.readDead app.plat i) := by
  have hstate : (v.peer i).state = (w.con i).state := by rw [h.peer]; rfl
  rw [handleReadWith, Hub.readDead]
  rw [hstate]
  cases hs : (w.con i).state with
  | handshaking =>
      -- `select` and `recv` fail on a shut descriptor, so `Cleanup` runs in both live states
      obtain ⟨h1, h2⟩ := @handleHandshake_shut w v i app hr hhr h hs hshut
      rw [if_pos rfl]
      dsimp only
      rw [h1, if_pos (by simp)]
      exact h2
  | connected =>
      have hroom := h.makeRoomInput (i := i)
      rw [if_neg (by simp)]
      dsimp only
      rw [if_neg (by simp), readLoop_shut hs (hroom.fd_eq_iff.mpr hshut)]
      exact hroom.cleanup_shut hhr hshut
  | invalid | closed | failed =>
      rw [if_neg (by simp)]
      dsimp only
      rw [if_neg (by simp), readLoop_of_ne (by simp [hs])]
      exact h

/-! ### Steps -/

/-- `hr` is a `HandleRead` as far as `Channel::Close` needs one. -/
structure Closes (app : App) (i : ConnId) (hr : World → World) : Prop where
  inert : Inert hr i
  dead : ∀ {w v}, Refines w v → (v.peer i).isOpen = false →
    Refines (hr w) (v.readDead app.plat i)

theorem closes_handleReadWith {hr : World → World} (hhr : Inert hr i) :
    Closes app i (handleReadWith app hr i) :=
  ⟨inert_handleReadWith app hr i, fun h hshut => h.readDead hhr hshut⟩

variable {hr : World → World}

theorem channelClose (hhr : Closes app i hr) (h : Refines w v) :
    Refines (channelClose hr i w) (v.closeChannel app.plat i) := by
  rw [Hub.closeChannel]
  cases hopen : (v.peer i).isOpen with
  | false =>
      rw [if_neg (by simp)]
      exact h.channelClose_shut hopen
  | true =>
      rw [if_pos rfl]
      have hfd : ¬ (w.con i).fd = SOCKET_ERROR := by rw [h.fd_eq_iff, hopen]; simp
      rw [Libet.channelClose]
      cases hch : (w.con i).channel with
      | none => simp [TcpConn.fd, hch] at hfd
      | some ch =>
          have hfd : ch.fd ≠ SOCKET_ERROR := by simpa [TcpConn.fd, hch] using hfd
          dsimp only
          rw [if_pos hfd]
          -- the `HandleRead` inside `Close` meets a shut descriptor
          apply hhr.dead (h.shutChannel hch hfd)
          rw [Peer.isOpen, (h.shutChannel hch hfd).channel_eq]
          simp [Libet.shutChannel, World.set]

theorem cleanup (hhr : Closes app i hr) (h : Refines w v) :
    Refines (cleanup app hr i w) (v.cleanup app.plat i) :=
  tearDown hhr.inert (callRead (fun h' _ => h'.channelClose hhr) h)

theorem callTimer (h : Refines w v) :
    Refines (callTimer app i w)
      (if (v.peer i).timerCb then v.log (.timerCb i) else v) := by
  obtain rfl := h.hub
  rw [Libet.callTimer]
  split
  · rename_i ht
    rw [if_pos (show (w.hub.peer i).timerCb = true from ht)]
    exact (h.log _).runOps _
  · rename_i ht
    rw [if_neg (show ¬ (w.hub.peer i).timerCb = true from ht)]
    exact h

/-- `HandleHandshake` on an open descriptor. -/
theorem handleHandshake (hhr : Closes app i hr) (h : Refines w v)
    (hs : (v.peer i).state = .handshaking) (hopen : (v.peer i).isOpen = true) :
    Refines (handleHandshake app hr i w).2 (v.handshake app.plat i) ∧
      ((handleHandshake app hr i w).1 = 0 ↔
        ((v.handshake app.plat i).peer i).state = .connected) := by
  obtain rfl := h.hub
  have hfd : ¬ (w.con i).fd = SOCKET_ERROR := by rw [h.fd_eq_iff, hopen]; simp
  have hset := h.set_frame (i := i)
    (c := { w.con i with sock := ((w.con i).sock.select (w.con i).fd).2 })
    (P := { w.hub.peer i with selects := (w.hub.peer i).selects.tail })
    (by simp [Socket.select, hfd, World.hub, TcpConn.peer]) rfl
    (by simp [Socket.select, hfd])
  -- the hub reads the same answer off the script
  have hret : ((w.con i).sock.select (w.con i).fd).1 = 1 ↔
      (w.hub.peer i).selects.head? = some 1 := by
    simp only [Socket.select, if_neg hfd, World.hub, TcpConn.peer]
    cases (w.con i).sock.selects.head? <;> simp
  rw [Libet.handleHandshake, Hub.handshake]
  rw [if_neg (show ¬ (w.con i).state ≠ .handshaking from not_not.mpr hs)]
  dsimp only
  by_cases hsel : ((w.con i).sock.select (w.con i).fd).1 = 1
  · rw [if_pos hsel, if_pos (hret.mp hsel)]
    refine ⟨(hset.setState .connected).callState.callTimer, iff_of_true rfl ?_⟩
    split <;> simp only [Hub.log_peer, Hub.callState_peer, Hub.setState_peer]
  · rw [if_neg hsel, if_neg (mt hret.mpr hsel)]
    refine ⟨hset.cleanup hhr, iff_of_false (by simp) ?_⟩
    rw [Hub.cleanup, Hub.terminate_peer]
    exact (Peer.terminal_ne _).2

/-- The loop of `HandleRead` reads a burst. -/
theorem readLoop (hhr : Closes app i hr) {script : List RecvResult} (h : Refines w v)
    (hscript : (v.peer i).recvs = script) (hopen : (v.peer i).isOpen = true) :
    Refines (readLoop app hr i script w)
      (if (v.peer i).state = .connected then v.readBurst app.plat i else v) := by
  induction script, w using readLoop.induct i generalizing v with
  | case1 script w hs =>
      have hs' : (v.peer i).state = (w.con i).state := by rw [h.peer]; rfl
      rw [readLoop_of_ne hs, if_neg (by rw [hs']; exact hs)]
      exact h
  | case2 script w hs w' =>
      -- the descriptor is open
      rename_i hfd
      rw [(h.makeRoomInput (i := i)).fd_eq_iff, hopen] at hfd
      cases hfd
  | case3 script w hs w' hfd rest =>
      -- no more data for now
      rename_i hrecv
      have hs' : (v.peer i).state = .connected := by rw [h.peer]; exact not_not.mp hs
      have hroom := h.makeRoomInput (i := i)
      have hb := (burst_recv_stop (h.room_pos i) hrecv).1 rfl
      rw [if_pos hs', Hub.readBurst_stop (by rw [hscript]; exact hb),
        readLoop_wouldBlock (not_not.mp hs) hfd hrecv]
      exact callRead (fun h' _ => h'.channelClose hhr) (hroom.setRecvs rest).updateIdles
  | case4 script w hs w' hfd b bs rest =>
      -- a piece of the burst
      rename_i hrecv ih
      have hs' : (v.peer i).state = .connected := by rw [h.peer]; exact not_not.mp hs
      have hroom := h.makeRoomInput (i := i)
      obtain ⟨hb, hspace⟩ := burst_recv_data hrecv
      have hadd := (hroom.setRecvs (i := i) rest).addInput (i := i)
        (show (b :: bs).length ≤ _ by simpa [Libet.setRecvs, World.set] using hspace)
      simp only [Hub.put_peer, Hub.put_put] at hadd
      have hnext := ih hadd (by simp) (by simpa [Peer.isOpen] using hopen)
      rw [if_pos (by simpa using hs')] at hnext
      rw [if_pos hs', Hub.readBurst_data (by rw [hscript]; exact hb),
        readLoop_data (not_not.mp hs) hfd hrecv]
      exact hnext
  | case5 script w hs w' hfd r rest hr1 =>
      -- the peer has closed, or an error
      rename_i hr2 hrecv
      have hs' : (v.peer i).state = .connected := by rw [h.peer]; exact not_not.mp hs
      have hroom := h.makeRoomInput (i := i)
      obtain ⟨-, hclosed, herror⟩ := burst_recv_stop (h.room_pos i) hrecv
      have hend := @cleanup _ _ i app _ hhr (hroom.setRecvs (i := i) rest)
      rw [readLoop_stop (not_not.mp hs) hfd hrecv hr1 hr2, if_pos hs']
      cases r with
      | data b bs => exact absurd rfl (hr2 b bs)
      | wouldBlock => exact absurd rfl hr1
      | closed =>
          rw [Hub.readBurst_stop (by rw [hscript]; exact hclosed rfl)]
          exact hend
      | error =>
          rw [Hub.readBurst_stop (by rw [hscript]; exact herror rfl)]
          exact hend

/-- `HandleRead` on an open descriptor. -/
theorem readOpen (hhr : Closes app i hr) (h : Refines w v) (hopen : (v.peer i).isOpen = true) :
    Refines (handleReadWith app hr i w) (v.read app.plat i) := by
  have hstate : (v.peer i).state = (w.con i).state := by rw [h.peer]; rfl
  have hloop : ∀ {w' v'}, Refines w' v' → (v'.peer i).isOpen = true →
      Refines (Libet.readLoop app hr i (w'.con i).sock.recvs w')
        (if (v'.peer i).state = .connected then v'.readBurst app.plat i else v') :=
    fun h' hopen' => h'.readLoop hhr (by rw [h'.peer]; rfl) hopen'
  rw [handleReadWith, Hub.read]
  rw [if_pos hopen, hstate]
  by_cases hs : (w.con i).state = .handshaking
  · obtain ⟨hend, hret⟩ := @handleHandshake _ _ i app _ hhr h (hstate.trans hs) hopen
    rw [if_pos hs, if_pos hs]
    dsimp only
    -- the loop runs when the handshake has returned 0, and the hub asks for the state
    by_cases h0 : (Libet.handleHandshake app hr i w).1 = 0
    · rw [if_neg (not_not.mpr h0)]
      apply hloop hend
      rw [(Hub.handshake_connected (hret.mp h0)).2]
      exact hopen
    · rw [if_pos h0, if_neg (mt hret.mpr h0)]
      exact hend
  · rw [if_neg hs, if_neg hs]
    exact hloop h hopen

theorem handleReadWith (hhr : Closes app i hr) (h : Refines w v) :
    Refines (handleReadWith app hr i w) (v.read app.plat i) := by
  cases hopen : (v.peer i).isOpen with
  | true => exact h.readOpen hhr hopen
  | false =>
      rw [Hub.read, if_neg (by simp [hopen])]
      exact h.readDead hhr.inert hopen

theorem closes_handleRead (app : App) (i : ConnId) : Closes app i (handleRead app i) :=
  closes_handleReadWith (inert_handleReadWith app id i)

theorem handleRead (h : Refines w v) : Refines (handleRead app i w) (v.read app.plat i) :=
  h.handleReadWith (closes_handleReadWith fun _ _ _ => rfl)

theorem handleWrite (h : Refines w v) : Refines (handleWrite app i w) (v.write app.plat i) := by
  have hstate : (v.peer i).state = (w.con i).state := by rw [h.peer]; rfl
  have hhr := closes_handleRead app i
  rw [Libet.handleWrite, Hub.write]
  rw [hstate]
  cases hs : (w.con i).state with
  | handshaking =>
      rw [if_pos rfl]
      cases hopen : (v.peer i).isOpen with
      | true => exact (h.handleHandshake hhr (hstate.trans hs) hopen).1
      | false => exact (h.handleHandshake_shut hhr.inert hs hopen).2
  | connected =>
      rw [if_neg (by simp)]
      have hflush : w.Quiet (w.onLink i fun l => l.flush) :=
        World.quiet_onLink w i (·.flush) fun l => l.quiet_flush
      exact ((h.quiet hflush).quiet (quiet_callWrite app i _)).quiet (quiet_unwatch i _)
  | invalid | closed | failed =>
      rw [if_neg (by simp)]
      exact h

/-- The lists and counters of the base change. -/
theorem registry (h : Refines w v) {b : EventBase} {conns : List ConnId}
    {live : List ChannelId} (hconns : b.conns = conns)
    (hlive : b.poller.liveChannels = live) (n : ConnId) (m : ChannelId) :
    Refines { w with base := b, nextConn := n, nextChannel := m }
      { v with conns := conns, live := live, nextConn := n, nextChannel := m } := by
  obtain rfl := h.hub
  subst hconns hlive
  exact ⟨rfl, h.input_wf, h.counted⟩

theorem handleAccept (h : Refines w v) {fd : Int} (hfd : fd ≠ SOCKET_ERROR)
    (recvs : List RecvResult) (sends : List SendResult) (selects : List Int) :
    Refines (handleAccept app fd (Socket.ofScripts recvs sends selects) w)
      (v.accept app.slots (Socket.ofScripts recvs sends selects)) := by
  obtain rfl := h.hub
  have hset := h.set (i := w.nextConn)
    (c := acceptedCon app ⟨w.nextChannel, fd, true, false⟩
      (Socket.ofScripts recvs sends selects))
    (P := Hub.acceptedPeer app.slots w.nextChannel (Socket.ofScripts recvs sends selects))
    (by simp [TcpConn.peer, acceptedCon, Hub.acceptedPeer, hfd, TcpConn.new,
      Socket.ofScripts])
    Buffer.wf_new (Nat.zero_le _)
  exact (hset.registry rfl rfl _ _).log _

theorem postedClose (h : Refines w v) :
    Refines (postedClose app i w) (v.closeChannel app.plat i) := by
  rw [Libet.postedClose]
  split
  · exact h.channelClose (closes_handleRead app i)
  · rename_i hch
    have hnone : (w.con i).channel = none := by simpa using hch
    rw [Hub.closeChannel, if_neg (by simp [Peer.isOpen, h.channel_eq, hnone])]
    exact h

end Refines

/-! ### Runs -/

/-- What an event of the loop is to the hub. -/
def Input.action (w : World) : Input → Option Hub.Action
  | .accept _ recvs sends selects => some (.accept (Socket.ofScripts recvs sends selects))
  | .readable i => some (.read i)
  | .writable i => some (.write i)
  | .task => w.base.tasks.head?.map .close
  | .user _ => none
  | .tick _ => none

/-- **One event refines one step of the hub**, or none. -/
theorem worldStep_refines {app : App} {w w' : World} {v : Hub} {a : Input}
    (hstep : worldStep app w a = some w') (h : Refines w v) :
    Refines w' ((a.action w).elim v (v.step app.plat app.slots)) := by
  cases a with
  | accept fd recvs sends selects =>
      simp only [worldStep] at hstep
      split at hstep
      · cases hstep
      · rename_i hfd
        cases hstep
        exact h.handleAccept hfd recvs sends selects
  | readable i =>
      simp only [worldStep] at hstep
      split at hstep <;> cases hstep
      exact h.handleRead
  | writable i =>
      simp only [worldStep] at hstep
      split at hstep <;> cases hstep
      exact h.handleWrite
  | task =>
      simp only [worldStep] at hstep
      split at hstep
      · cases hstep
      · rename_i i rest htasks
        cases hstep
        rw [Input.action, htasks]
        have hq : w.Quiet { w with base := { w.base with tasks := rest } } := ⟨rfl, fun _ => rfl⟩
        exact (h.quiet hq).postedClose
  | user op =>
      cases hstep
      exact h.quiet (World.quiet_runOp w op)
  | tick now =>
      cases hstep
      exact h.quiet ⟨rfl, fun _ => rfl⟩

end Libet
