/-
Libet/TcpConn.lean

`TcpConn.cpp` on the loop thread of one event base.

A `World` is the event base with its connections.  Code of the caller is an
`App`: for every callback, what it does with the library, as a list of
`UserOp`s that may depend on everything so far.  Callbacks send, post closes
and register idle callbacks, on any connection; they do not touch `m_input` or
close a channel themselves.

`Channel::Close` calls `HandleRead`, which calls `Cleanup`, which calls the
read callback, which may call `Channel::Close`: the functions take the
`HandleRead` that `Channel::Close` would call as a parameter `hr`.
`handleRead` ties the knot at the depth the descriptor allows, since a channel
is closed only once; `handleRead_unfold` in `Libet.Reentry` says that it solves
the recursion of the source.

The record of a connection is kept for good, while a `TcpConn` is destroyed when
nobody holds it any more.  `Cleanup` uses nothing behind its last `delete ch`; but
where its read callback has already deleted the channel, it goes on with what may be
gone.  `Libet.Lifetime` says who holds a connection, and in which runs no function
outlives what it uses.
-/
import Libet.Send

namespace Libet

/-- An event base with all connections that were ever attached to it; `now` is
what `timeMilli()` returns. -/
structure World where
  con : ConnId → TcpConn
  base : EventBase
  nextConn : ConnId
  nextChannel : ChannelId
  now : Int
  trace : List Event

/-- What code of the caller does with the library. -/
inductive UserOp
  /-- `Send(const char*, size_t)` -/
  | send (i : ConnId) (buf : List UInt8)
  /-- `Send(Buffer&)` with a buffer of the caller -/
  | sendBuffer (i : ConnId) (buf : WFBuffer)
  | sendMsg (i : ConnId) (msg : List UInt8)
  | sendOutput (i : ConnId)
  /-- `TcpConn::Close` -/
  | close (i : ConnId)
  | addIdleCB (i : ConnId) (idle : Int)

/-- The caller's code: the platform it is built for, the callbacks the server
sets, and what they do. -/
structure App where
  plat : Platform
  slots : Slots
  onRead : World → ConnId → List UserOp
  onMsg : World → ConnId → Slice → List UserOp
  onWrite : World → ConnId → List UserOp
  onState : World → ConnId → List UserOp
  onTimer : World → ConnId → List UserOp

namespace World

/-! ### Parts -/

def set (w : World) (i : ConnId) (c : TcpConn) : World :=
  { w with con := Function.update w.con i c }

def log (w : World) (e : Event) : World := { w with trace := w.trace ++ [e] }

/-- Run a function of the sending side on a connection. -/
def onLink (w : World) (i : ConnId) (f : Link → Link) : World :=
  let l := f ⟨w.con i, w.base.poller⟩
  { w.set i l.con with base := { w.base with poller := l.poller } }

/-- One operation of the caller. -/
def runOp (w : World) : UserOp → World
  | .send i buf => w.onLink i fun l => l.send buf
  | .sendBuffer i buf => w.onLink i fun l => (l.sendBuffer buf.1).1
  | .sendMsg i msg => w.onLink i fun l => l.sendMsg msg
  | .sendOutput i => w.onLink i fun l => l.sendOutput
  | .close i =>
      if (w.con i).channel.isSome then { w with base := w.base.safeCall i } else w
  | .addIdleCB i idle =>
      if (w.con i).channel.isSome then
        let r := w.base.registerIdle w.now idle i
        { w.set i { w.con i with idleIds := (w.con i).idleIds ++ [r.1] } with
          base := r.2 }
      else w

def runOps (w : World) (ops : List UserOp) : World := ops.foldl runOp w

/-- Assign `m_state`; a new value is a move. -/
def setState (w : World) (i : ConnId) (s : ConnState) : World :=
  if (w.con i).state = s then w
  else (w.set i { w.con i with state := s }).log (.moved i (w.con i).state s)

/-- `m_input.consume(len)`. -/
def consumeInput (w : World) (i : ConnId) (len : Nat) : World :=
  w.set i { w.con i with input := (w.con i).input.consume len }

/-- The world as a hub. -/
def hub (w : World) : Hub where
  peer := fun i => (w.con i).peer
  nextConn := w.nextConn
  nextChannel := w.nextChannel
  conns := w.base.conns
  live := w.base.poller.liveChannels
  trace := w.trace

/-! ### The caller's code is invisible to the hub -/

/-- `w'` differs from `w` in nothing that the receiving side uses. -/
structure Quiet (w w' : World) : Prop where
  hub : w'.hub = w.hub
  input : ∀ j, (w'.con j).input = (w.con j).input

theorem Quiet.refl (w : World) : Quiet w w := ⟨rfl, fun _ => rfl⟩

theorem Quiet.trans {w w' w'' : World} (h : Quiet w w') (h' : Quiet w' w'') :
    Quiet w w'' :=
  ⟨h'.hub.trans h.hub, fun j => (h'.input j).trans (h.input j)⟩

/-- Changing one connection and the base where a hub does not look. -/
theorem quiet_of_con {w : World} {i : ConnId} {c : TcpConn} {b : EventBase}
    (hpeer : c.peer = (w.con i).peer) (hinput : c.input = (w.con i).input)
    (hconns : b.conns = w.base.conns)
    (hlive : b.poller.liveChannels = w.base.poller.liveChannels) :
    Quiet w { w.set i c with base := b } := by
  constructor
  · simp only [hub, set, hconns, hlive, Hub.mk.injEq, and_true]
    -- peer by peer; the lists are those of the base
    funext j
    rcases eq_or_ne j i with rfl | hj
    · rw [Function.update_self, hpeer]
    · rw [Function.update_of_ne hj]
  · intro j
    rcases eq_or_ne j i with rfl | hj
    · simp only [set, Function.update_self, hinput]
    · simp only [set, Function.update_of_ne hj]

theorem quiet_onLink (w : World) (i : ConnId) (f : Link → Link)
    (hf : ∀ l, Libet.Quiet l (f l)) : Quiet w (w.onLink i f) :=
  have h := hf ⟨w.con i, w.base.poller⟩
  quiet_of_con h.peer h.input rfl h.live

theorem quiet_runOp (w : World) (op : UserOp) : Quiet w (w.runOp op) := by
  cases op with
  | send i buf => exact quiet_onLink w i (·.send buf) fun l => l.quiet_send buf
  | sendBuffer i buf =>
      exact quiet_onLink w i (fun l => (l.sendBuffer buf.1).1)
        fun l => l.quiet_sendBuffer buf.1
  | sendMsg i msg => exact quiet_onLink w i (·.sendMsg msg) fun l => l.quiet_sendMsg msg
  | sendOutput i => exact quiet_onLink w i (·.sendOutput) fun l => l.quiet_sendOutput
  | close i =>
      simp only [runOp]
      split
      · exact ⟨rfl, fun _ => rfl⟩
      · exact Quiet.refl w
  | addIdleCB i idle =>
      simp only [runOp]
      split
      · have hreg := EventBase.registers_registerIdle w.base w.now idle i
        exact quiet_of_con rfl rfl hreg.conns (congrArg _ hreg.poller)
      · exact Quiet.refl w

theorem quiet_runOps (w : World) (ops : List UserOp) : Quiet w (w.runOps ops) := by
  induction ops generalizing w with
  | nil => exact Quiet.refl w
  | cons op ops ih => exact (quiet_runOp w op).trans (ih _)

end World

/-! ### The read callback -/

section Functions

variable (app : App) (hr : World → World) (i : ConnId)

/-- `cb(con, msg); con->m_input.consume(ret);` -/
def callMsg (ret : Int) (msg : Slice) (w : World) : World :=
  let c := w.con i
  let w := w.log (.msgCb i (c.sock.received - c.input.size) msg
    (msg.bytes c.input.content))
  (w.runOps (app.onMsg w i msg)).consumeInput i ret.toNat

theorem callMsg_input (ret : Int) (msg : Slice) (w : World) :
    ((callMsg app i ret msg w).con i).input = (w.con i).input.consume ret.toNat := by
  simp only [callMsg, World.consumeInput, World.set, Function.update_self]
  rw [(World.quiet_runOps _ _).input i]
  rfl

/-- The loop of the lambda that `OnMsg` installs.  `close` stands for
`con->m_channel->Close()`. -/
def onMsg (close : World → World) (w : World) : World :=
  let r := tryDecode app.plat (w.con i).input.content Slice.empty
  if r.1 < 0 then close (w.log (.decodeError i))
  else if _h : 0 < r.1 then onMsg close (callMsg app i r.1 r.2 w)
  else w
termination_by (w.con i).input.size
decreasing_by
  rw [callMsg_input]
  have h4 := (tryDecode_pos _h).1
  have hle := Buffer.content_length_le (w.con i).input
  exact Buffer.size_consume_lt (by omega) (Int.pos_iff_toNat_pos.mp _h)

/-- `if (m_readCb && m_input.size()) m_readCb(con);` -/
def callRead (close : World → World) (w : World) : World :=
  if (w.con i).input.size = 0 then w
  else
    match (w.con i).readCb with
    | none => w
    | some .onRead =>
        let w := w.log (.readCb i)
        w.runOps (app.onRead w i)
    | some .onMsg => onMsg app i close (w.log (.readCb i))

/-- `if (m_stateCb) m_stateCb(con);` -/
def callState (w : World) : World :=
  if (w.con i).stateCb then
    let w := w.log (.stateCb i (w.con i).state)
    w.runOps (app.onState w i)
  else w

/-- `if (m_timerCb) m_timerCb(con);` -/
def callTimer (w : World) : World :=
  if (w.con i).timerCb then
    let w := w.log (.timerCb i)
    w.runOps (app.onTimer w i)
  else w

/-! ### Closing and cleaning up -/

/-- `m_base->m_poller->RemoveChannel(this)`. -/
def removeChannel (ch : Channel) (w : World) : World :=
  { w with base := { w.base with poller := w.base.poller.removeChannel ch } }

/-- The channel leaves the poller and its descriptor is closed. -/
def shutChannel (ch : Channel) (w : World) : World :=
  (removeChannel ch w).set i
    { w.con i with channel := some { ch with fd := SOCKET_ERROR } }

/-- `m_channel->Close()`. -/
def channelClose (w : World) : World :=
  match (w.con i).channel with
  | none => w
  | some ch => if ch.fd ≠ SOCKET_ERROR then hr (shutChannel i ch w) else w

/-- `for (auto &idle : m_idleIds) m_base->UnregisterIdle(idle);` -/
def unregisterIdles (w : World) : World :=
  World.log { w with base := (w.con i).idleIds.foldl EventBase.unregisterIdle w.base }
    (.unregisteredIdles i)

/-- `m_base->RemoveConn(con)`. -/
def removeConn (w : World) : World :=
  if i ∈ w.base.conns then
    World.log { w with base := w.base.removeConn i } (.removedConn i)
  else w

/-- `~Channel`, which closes the channel if it is open. -/
def destroyChannel (ch : Channel) (w : World) : World :=
  (if ch.fd ≠ SOCKET_ERROR then hr (removeChannel ch w) else w).log
    (.deletedChannel i ch.id)

/-- The callbacks are reset, `m_channel` is null, and the channel it pointed to
is deleted. -/
def deleteChannel (w : World) : World :=
  let c := w.con i
  let w := w.set i { c with readCb := none, writeCb := false, stateCb := false,
                            timerCb := false, channel := none }
  match c.channel with
  | none => w
  | some ch => destroyChannel hr i ch w

/-- `Cleanup` behind the read callback, on a connection that somebody still holds. -/
def tearDown (w : World) : World :=
  let w := w.setState i
    (if (w.con i).state = .handshaking then .failed else .closed)
  -- the callback sees the terminal state, and the channel is still there
  let w := callState app i w
  let w := removeConn i (unregisterIdles i w)
  (deleteChannel hr i w).log (.cleanedUp i)

/-- `Cleanup`. -/
def cleanup (w : World) : World :=
  tearDown app hr i (callRead app i (channelClose hr i) w)

/-! ### Handshake and reading -/

/-- `select(fd, nullptr, &writeSet, nullptr, &timeout)` on one descriptor. -/
def Socket.select (s : Socket) (fd : Int) : Int × Socket :=
  if fd = SOCKET_ERROR then (-1, s)
  else (s.selects.head?.getD 0, { s with selects := s.selects.tail })

/-- `HandleHandshake`: the returned `int`. -/
def handleHandshake (w : World) : Int × World :=
  if (w.con i).state ≠ .handshaking then (-1, w)
  else
    let c := w.con i
    let r := c.sock.select c.fd
    let w := w.set i { c with sock := r.2 }
    -- `select` says that the descriptor is writable: the connect has gone through
    if r.1 = 1 then
      (0, callTimer app i (callState app i (w.setState i .connected)))
    else (-1, cleanup app hr i w)

/-- `for (auto& idle : m_idleIds) m_base->UpdateIdle(idle);` -/
def updateIdles (w : World) : World :=
  { w with base := (w.con i).idleIds.foldl (fun b id => b.updateIdle w.now id) w.base }

/-- `m_input.makeRoom()`. -/
def makeRoomInput (w : World) : World :=
  w.set i { w.con i with input := (w.con i).input.makeRoom }

/-- A `recv` has taken its result off the script. -/
def setRecvs (rest : List RecvResult) (w : World) : World :=
  w.set i { w.con i with sock := { (w.con i).sock with recvs := rest } }

/-- The bytes `recv` has written behind `m_input` are counted in. -/
def addInput (bs : List UInt8) (w : World) : World :=
  let c := w.con i
  w.set i { c with
    input := (c.input.writeEnd bs).addSize bs.length
    sock := { c.sock with received := c.sock.received + bs.length } }

/-- The loop of `HandleRead`; `script` is what the socket still says. -/
def readLoop (script : List RecvResult) (w : World) : World :=
  if (w.con i).state ≠ .connected then w
  else
    let w := makeRoomInput i w
    if (w.con i).fd = SOCKET_ERROR then cleanup app hr i w
    else
      match _h : recv (w.con i).input.space script with
      | (.wouldBlock, rest) =>
          callRead app i (channelClose hr i) (updateIdles i (setRecvs i rest w))
      | (.data b bs, rest) => readLoop rest (addInput i (b :: bs) (setRecvs i rest w))
      -- 0 or an error
      | (_, rest) => cleanup app hr i (setRecvs i rest w)
termination_by weight script
decreasing_by exact weight_recv _h

section ReadLoop

variable {app hr i} {script rest : List RecvResult} {w : World}

/-- The loop is over. -/
theorem readLoop_of_ne (hs : (w.con i).state ≠ .connected) : readLoop app hr i script w = w := by
  rw [readLoop, if_pos hs]

/-- The descriptor is shut: `recv` is asked on `-1`. -/
theorem readLoop_shut (hs : (w.con i).state = .connected)
    (hfd : ((makeRoomInput i w).con i).fd = SOCKET_ERROR) :
    readLoop app hr i script w = cleanup app hr i (makeRoomInput i w) := by
  rw [readLoop, if_neg (not_not_intro hs)]
  dsimp only
  rw [if_pos hfd]

/-- `WSAEWOULDBLOCK`: the burst is over. -/
theorem readLoop_wouldBlock (hs : (w.con i).state = .connected)
    (hfd : ((makeRoomInput i w).con i).fd ≠ SOCKET_ERROR)
    (hrecv : recv ((makeRoomInput i w).con i).input.space script = (.wouldBlock, rest)) :
    readLoop app hr i script w =
      callRead app i (channelClose hr i) (updateIdles i (setRecvs i rest (makeRoomInput i w))) := by
  rw [readLoop, if_neg (not_not_intro hs)]
  dsimp only
  rw [if_neg hfd]
  split <;> rename_i heq <;> cases hrecv.symm.trans heq
  · rfl
  · rename_i hne _
    exact absurd rfl hne

/-- Data: the loop goes on. -/
theorem readLoop_data {b : UInt8} {bs : List UInt8} (hs : (w.con i).state = .connected)
    (hfd : ((makeRoomInput i w).con i).fd ≠ SOCKET_ERROR)
    (hrecv : recv ((makeRoomInput i w).con i).input.space script = (.data b bs, rest)) :
    readLoop app hr i script w =
      readLoop app hr i rest (addInput i (b :: bs) (setRecvs i rest (makeRoomInput i w))) := by
  rw [readLoop, if_neg (not_not_intro hs)]
  dsimp only
  rw [if_neg hfd]
  split <;> rename_i heq <;> cases hrecv.symm.trans heq
  · rfl
  · rename_i hne
    exact absurd rfl (hne b bs)

/-- The end of the stream or an error. -/
theorem readLoop_stop {r : RecvResult} (hs : (w.con i).state = .connected)
    (hfd : ((makeRoomInput i w).con i).fd ≠ SOCKET_ERROR)
    (hrecv : recv ((makeRoomInput i w).con i).input.space script = (r, rest))
    (hblock : r ≠ .wouldBlock) (hdata : ∀ b bs, r ≠ .data b bs) :
    readLoop app hr i script w = cleanup app hr i (setRecvs i rest (makeRoomInput i w)) := by
  rw [readLoop, if_neg (not_not_intro hs)]
  dsimp only
  rw [if_neg hfd]
  split <;> rename_i heq <;> cases hrecv.symm.trans heq
  · exact absurd rfl hblock
  · exact absurd rfl (hdata _ _)
  · rfl

end ReadLoop

/-- `HandleRead`, for the `HandleRead` that `Channel::Close` calls. -/
def handleReadWith (w : World) : World :=
  let r := if (w.con i).state = .handshaking then handleHandshake app hr i w else (0, w)
  if r.1 ≠ 0 then r.2
  else readLoop app hr i (r.2.con i).sock.recvs r.2

/-- `HandleRead`.  The first `Channel::Close` calls it once more; by then the
descriptor is closed, and it is not called again. -/
def handleRead (w : World) : World :=
  handleReadWith app (handleReadWith app id i) i w

/-! ### Writing and attaching -/

/-- `if (m_output.empty() && m_writeCb) m_writeCb(con);` -/
def callWrite (w : World) : World :=
  if (w.con i).output.empty ∧ (w.con i).writeCb then w.runOps (app.onWrite w i) else w

/-- `if (m_output.empty() && m_channel->Writable()) m_channel->EnableWrite(false);` -/
def unwatch (w : World) : World :=
  if (w.con i).output.empty ∧ (w.con i).writable then
    w.onLink i fun l => l.enableWrite false
  else w

theorem quiet_callWrite (w : World) : w.Quiet (callWrite app i w) := by
  rw [callWrite]
  split
  · exact World.quiet_runOps _ _
  · exact World.Quiet.refl _

theorem quiet_unwatch (w : World) : w.Quiet (unwatch i w) := by
  rw [unwatch]
  split
  · exact World.quiet_onLink _ i (·.enableWrite false) fun l => l.quiet_enableWrite false
  · exact World.Quiet.refl _

/-- `HandleWrite`. -/
def handleWrite (w : World) : World :=
  match (w.con i).state with
  | .handshaking => (handleHandshake app (handleRead app i) i w).2
  | .connected => unwatch i (callWrite app i (w.onLink i fun l => l.flush))
  | _ => w

/-- The connection after `m_createCb()`, `Attach` and the server's `On…`
calls. -/
def acceptedCon (ch : Channel) (sock : Socket) : TcpConn :=
  { TcpConn.new sock with
    state := .handshaking
    channel := some ch
    readCb := app.slots.readCb
    writeCb := app.slots.writeCb
    stateCb := app.slots.stateCb
    timerCb := app.slots.timerCb
    codec := app.slots.readCb = some .onMsg }

/-- The part of `HandleAccept` behind `accept`. -/
def handleAccept (fd : Int) (sock : Socket) (w : World) : World :=
  let ch : Channel := ⟨w.nextChannel, fd, true, false⟩
  World.log
    { w.set w.nextConn (acceptedCon app ch sock) with
      base := { w.base with poller := w.base.poller.addChannel ch }.addConn w.nextConn
      nextConn := w.nextConn + 1
      nextChannel := w.nextChannel + 1 }
    (.moved w.nextConn .invalid .handshaking)

/-- The closure that `TcpConn::Close` posts. -/
def postedClose (w : World) : World :=
  if (w.con i).channel.isSome then channelClose (handleRead app i) i w else w

end Functions

/-! ### Events of the loop -/

/-- What happens next on the loop thread. -/
inductive Input
  /-- `accept` returns `fd`, with what its socket will say -/
  | accept (fd : Int) (recvs : List RecvResult) (sends : List SendResult)
      (selects : List Int)
  /-- the poller calls `HandleRead` -/
  | readable (i : ConnId)
  /-- the poller calls `HandleWrite` -/
  | writable (i : ConnId)
  /-- the first queued task is run -/
  | task
  /-- code of the caller runs from a timer, an idle callback or a task -/
  | user (op : UserOp)
  /-- time passes -/
  | tick (now : Int)

/-- One event.  Events of connections that were never accepted do not happen,
and `accept` does not return `SOCKET_ERROR`. -/
def worldStep (app : App) (w : World) : Input → Option World
  | .accept fd recvs sends selects =>
      if fd = SOCKET_ERROR then none
      else some (handleAccept app fd (Socket.ofScripts recvs sends selects) w)
  | .readable i => if i < w.nextConn then some (handleRead app i w) else none
  | .writable i => if i < w.nextConn then some (handleWrite app i w) else none
  | .task =>
      match w.base.tasks with
      | [] => none
      | i :: rest => some (postedClose app i { w with base := { w.base with tasks := rest } })
  | .user op => some (w.runOp op)
  | .tick now => some { w with now := now }

/-- The event base as `Loop` finds it: the wakeup channel and the channel of
the listening socket are in the poller. -/
def World.init (wakeupFd listenFd : Int) : World where
  con := fun _ => TcpConn.new (Socket.ofScripts [] [] [])
  base := { EventBase.new with
    poller := (PollerSelect.new.addChannel ⟨1, wakeupFd, true, false⟩).addChannel
      ⟨2, listenFd, true, false⟩ }
  nextConn := 0
  nextChannel := 3
  now := 0
  trace := []

/-- The server of `HeartbeatTest`: it sends every message back, and registers an
idle callback on every new connection. -/
def heartbeatTest : App where
  plat := .x64
  slots := ⟨some .onMsg, false, true, false⟩
  onRead _ _ := []
  onMsg w i msg := [.sendMsg i (msg.bytes (w.con i).input.content)]
  onWrite _ _ := []
  onState w i := if (w.con i).state = .connected then [.addIdleCB i 15] else []
  onTimer _ _ := []

end Libet
