/-
Libet/Hub.lean

An abstract model of the receiving side of an event base.

A `Hub` knows of each connection only what decides when it is opened, read,
torn down and reported: its state, whether it has a channel and whether the
descriptor is still open, which callbacks are set, the bytes received and not
yet consumed (as a list, without the buffer they are in), and what the socket
will still say.  Code of the caller does not occur: nothing that it may do is
visible to a hub.  A burst of data is read in one go, and the messages in it
are those of one `drain`.

The re-entrance of the source, from `Cleanup` through the read callback and
`Channel::Close` back into `HandleRead` and `Cleanup`, is kept: the inner
`Cleanup` runs to its end and the outer one then goes on.
-/
import Libet.Conn
import Mathlib.Logic.Function.Basic

namespace Libet

/-- What is observed of a run, in order. -/
inductive Event
  /-- `m_state` changes -/
  | moved (i : ConnId) (s s' : ConnState)
  /-- the state callback runs and sees `s` -/
  | stateCb (i : ConnId) (s : ConnState)
  /-- the timer callback runs -/
  | timerCb (i : ConnId)
  /-- `m_readCb` is called -/
  | readCb (i : ConnId)
  /-- the message callback runs; the frame is at `off` in the stream, and the
  slice `msg` shows the callback `bytes` -/
  | msgCb (i : ConnId) (off : Nat) (msg : Slice) (bytes : List UInt8)
  /-- `TryDecode` has returned a negative number -/
  | decodeError (i : ConnId)
  /-- every `IdleId` of the connection is passed to `UnregisterIdle` -/
  | unregisteredIdles (i : ConnId)
  /-- the connection leaves `m_conns` -/
  | removedConn (i : ConnId)
  /-- its channel is deleted -/
  | deletedChannel (i : ConnId) (ch : ChannelId)
  /-- `Cleanup` has run to its end -/
  | cleanedUp (i : ConnId)
  deriving DecidableEq, Repr

/-- Handshaking or connected. -/
def ConnState.live : ConnState → Bool
  | .handshaking | .connected => true
  | _ => false

/-- A connection as the hub sees it; `channel` is the channel's number and
whether its descriptor is open. -/
structure Peer where
  state : ConnState
  channel : Option (ChannelId × Bool)
  readCb : Option ReadCb
  stateCb : Bool
  timerCb : Bool
  pending : List UInt8
  received : Nat
  recvs : List RecvResult
  selects : List Int
  deriving DecidableEq, Repr

/-- The callbacks a server puts on the connections it creates. -/
structure Slots where
  readCb : Option ReadCb
  writeCb : Bool
  stateCb : Bool
  timerCb : Bool
  deriving DecidableEq, Repr

/-- The connections of an event base, its registry and its poller. -/
structure Hub where
  peer : ConnId → Peer
  nextConn : ConnId
  nextChannel : ChannelId
  conns : List ConnId
  live : List ChannelId
  trace : List Event

namespace Peer

/-- The descriptor is open. -/
def isOpen (c : Peer) : Bool := (c.channel.map Prod.snd).getD false

/-- The stream offset of the first byte not yet consumed. -/
def offset (c : Peer) : Nat := c.received - c.pending.length

/-- The state that `Cleanup` gives to a connection. -/
def terminal (c : Peer) : ConnState :=
  if c.state = .handshaking then .failed else .closed

/-- The received bytes lead to a decoding error. -/
def fails (p : Platform) (c : Peer) : Bool :=
  ((lengthFraming p).drain c.offset c.pending).failed

/-- The read callback closes the channel. -/
def GivesUp (p : Platform) (c : Peer) : Prop :=
  c.readCb = some .onMsg ∧ c.fails p

/-- The peer once the next burst has arrived. -/
def feed (c : Peer) : Peer :=
  { c with pending := c.pending ++ (burst c.recvs).1
           received := c.received + (burst c.recvs).1.length
           recvs := (burst c.recvs).2.2 }

theorem terminal_eq_closed {c : Peer} (h : c.state = .connected) : c.terminal = .closed := by
  rw [terminal, h]
  rfl

theorem terminal_not_live (c : Peer) : c.terminal.live = false := by
  rw [terminal]
  split <;> rfl

theorem terminal_ne (c : Peer) : c.terminal ≠ .handshaking ∧ c.terminal ≠ .connected := by
  have h := c.terminal_not_live
  constructor <;> intro e <;> rw [e] at h <;> cases h

end Peer

namespace Hub

/-! ### Parts of a step -/

def put (v : Hub) (i : ConnId) (c : Peer) : Hub :=
  { v with peer := Function.update v.peer i c }

def log (v : Hub) (e : Event) : Hub := { v with trace := v.trace ++ [e] }

/-- Give `m_state` a value; giving it the value it has is no move. -/
def setState (v : Hub) (i : ConnId) (s : ConnState) : Hub :=
  if (v.peer i).state = s then v
  else (v.put i { v.peer i with state := s }).log (.moved i (v.peer i).state s)

/-- The events of the messages cut from `data`, which starts at `off`. -/
def msgEvents (i : ConnId) (off : Nat) (data : List UInt8)
    (items : List (Nat × Slice)) : List Event :=
  items.map fun x => .msgCb i x.1 x.2 (x.2.bytes (data.drop (x.1 - off)))

/-- Deliver what the received bytes hold. -/
def deliver (p : Platform) (i : ConnId) (v : Hub) : Hub :=
  let c := v.peer i
  let d := (lengthFraming p).drain c.offset c.pending
  { v.put i { c with pending := d.rest } with
    trace := v.trace ++ msgEvents i c.offset c.pending d.items }

/-- The lambda of `OnMsg`; `close` is the `Channel::Close` it calls. -/
def onMsg (p : Platform) (close : Hub → Hub) (i : ConnId) (v : Hub) : Hub :=
  if (v.peer i).fails p then close ((v.deliver p i).log (.decodeError i))
  else v.deliver p i

/-- The read callback, called if it is set and bytes are there. -/
def callRead (p : Platform) (close : Hub → Hub) (i : ConnId) (v : Hub) : Hub :=
  if (v.peer i).pending = [] then v
  else
    match (v.peer i).readCb with
    | none => v
    | some .onRead => v.log (.readCb i)
    | some .onMsg => onMsg p close i (v.log (.readCb i))

/-- The state callback, if it is set. -/
def callState (i : ConnId) (v : Hub) : Hub :=
  if (v.peer i).stateCb then v.log (.stateCb i (v.peer i).state) else v

/-- `RemoveConn`. -/
def removeConn (i : ConnId) (v : Hub) : Hub :=
  if i ∈ v.conns then { v with conns := v.conns.filter (· ≠ i) } |>.log (.removedConn i)
  else v

/-- `RemoveChannel`. -/
def removeChannel (ch : ChannelId) (v : Hub) : Hub :=
  { v with live := v.live.filter (· ≠ ch) }

/-- The channel leaves the poller and its descriptor is closed. -/
def shutChannel (i : ConnId) (v : Hub) : Hub :=
  match (v.peer i).channel with
  | some (ch, true) =>
      (v.removeChannel ch).put i { v.peer i with channel := some (ch, false) }
  | _ => v

/-- The callbacks are reset and the channel is deleted. -/
def deleteChannel (i : ConnId) (v : Hub) : Hub :=
  let c := v.peer i
  let v := v.put i { c with readCb := none, stateCb := false, timerCb := false,
                            channel := none }
  match c.channel with
  | none => v
  | some (ch, isOpen) =>
      (if isOpen then v.removeChannel ch else v).log (.deletedChannel i ch)

/-- `Cleanup` behind the read callback. -/
def terminate (i : ConnId) (v : Hub) : Hub :=
  let v := v.setState i (v.peer i).terminal
  let v := (v.callState i).log (.unregisteredIdles i)
  ((v.removeConn i).deleteChannel i).log (.cleanedUp i)

/-- `HandleRead` once the descriptor is closed. -/
def readDead (p : Platform) (i : ConnId) (v : Hub) : Hub :=
  match (v.peer i).state with
  | .handshaking | .connected => terminate i (callRead p id i v)
  | _ => v

/-- `Channel::Close`. -/
def closeChannel (p : Platform) (i : ConnId) (v : Hub) : Hub :=
  if (v.peer i).isOpen then readDead p i (v.shutChannel i) else v

/-- `Cleanup`, entered with the descriptor open. -/
def cleanup (p : Platform) (i : ConnId) (v : Hub) : Hub :=
  terminate i (callRead p (closeChannel p i) i v)

/-- `HandleHandshake` with the descriptor open. -/
def handshake (p : Platform) (i : ConnId) (v : Hub) : Hub :=
  let c := v.peer i
  let v := v.put i { c with selects := c.selects.tail }
  if c.selects.head? = some 1 then
    let v := (v.setState i .connected).callState i
    if (v.peer i).timerCb then v.log (.timerCb i) else v
  else cleanup p i v

/-- What follows a burst of data. -/
def endBurst (p : Platform) (i : ConnId) (v : Hub) : Stop → Hub
  | .wouldBlock => callRead p (closeChannel p i) i v
  | .closed | .error => cleanup p i v

/-- A connected peer reads until there is no more data. -/
def readBurst (p : Platform) (i : ConnId) (v : Hub) : Hub :=
  endBurst p i (v.put i (v.peer i).feed) (burst (v.peer i).recvs).2.1

/-! ### Steps -/

/-- `HandleRead`. -/
def read (p : Platform) (i : ConnId) (v : Hub) : Hub :=
  if (v.peer i).isOpen then
    let v := if (v.peer i).state = .handshaking then v.handshake p i else v
    if (v.peer i).state = .connected then v.readBurst p i else v
  else readDead p i v

/-- `HandleWrite`, of which only the handshake is seen. -/
def write (p : Platform) (i : ConnId) (v : Hub) : Hub :=
  if (v.peer i).state = .handshaking then
    if (v.peer i).isOpen then v.handshake p i
    else terminate i (callRead p id i v)
  else v

/-- A connection that has just been created and attached. -/
def acceptedPeer (slots : Slots) (ch : ChannelId) (sock : Socket) : Peer where
  state := .handshaking
  channel := some (ch, true)
  readCb := slots.readCb
  stateCb := slots.stateCb
  timerCb := slots.timerCb
  pending := []
  received := 0
  recvs := sock.recvs
  selects := sock.selects

/-- A connection is created and attached. -/
def accept (slots : Slots) (sock : Socket) (v : Hub) : Hub :=
  log
    { v.put v.nextConn (acceptedPeer slots v.nextChannel sock) with
      nextConn := v.nextConn + 1
      nextChannel := v.nextChannel + 1
      conns := v.conns ++ [v.nextConn]
      live := v.live ++ [v.nextChannel] }
    (.moved v.nextConn .invalid .handshaking)

/-- What happens to a hub. -/
inductive Action
  | accept (sock : Socket)
  | read (i : ConnId)
  | write (i : ConnId)
  | close (i : ConnId)

def step (p : Platform) (slots : Slots) (v : Hub) : Action → Hub
  | .accept sock => v.accept slots sock
  | .read i => v.read p i
  | .write i => v.write p i
  | .close i => v.closeChannel p i

/-! ### What the parts do -/

variable {p : Platform} {i j : ConnId} {v : Hub} {close : Hub → Hub}

@[simp] theorem put_peer (v : Hub) (i : ConnId) (c : Peer) : (v.put i c).peer i = c :=
  Function.update_self ..

@[simp] theorem log_peer (v : Hub) (e : Event) : (v.log e).peer = v.peer := rfl

theorem put_peer_of_ne (h : j ≠ i) (v : Hub) (c : Peer) : (v.put i c).peer j = v.peer j :=
  Function.update_of_ne h ..

theorem put_self (v : Hub) (i : ConnId) : v.put i (v.peer i) = v := by
  simp [put]

theorem put_put (v : Hub) (i : ConnId) (c c' : Peer) :
    (v.put i c).put i c' = v.put i c' := by
  simp [put]

theorem setState_peer (v : Hub) (i : ConnId) (s : ConnState) :
    (v.setState i s).peer i = { v.peer i with state := s } := by
  rw [setState]
  split
  · rename_i h
    rw [← h]
  · rw [log_peer, put_peer]

theorem setState_peer_of_ne (h : j ≠ i) (v : Hub) (s : ConnState) :
    (v.setState i s).peer j = v.peer j := by
  rw [setState]
  split
  · rfl
  · exact put_peer_of_ne h v _

@[simp] theorem callState_peer (v : Hub) (i : ConnId) : (v.callState i).peer = v.peer := by
  unfold callState; split <;> rfl

@[simp] theorem removeConn_peer (v : Hub) (i : ConnId) : (v.removeConn i).peer = v.peer := by
  unfold removeConn; split <;> rfl

theorem deleteChannel_peer (v : Hub) (i : ConnId) :
    (v.deleteChannel i).peer i =
      { v.peer i with readCb := none, stateCb := false, timerCb := false,
                      channel := none } := by
  rw [deleteChannel]
  dsimp only
  split
  · exact put_peer ..
  · rw [log_peer]
    split <;> exact put_peer ..

theorem deleteChannel_peer_of_ne (h : j ≠ i) (v : Hub) :
    (v.deleteChannel i).peer j = v.peer j := by
  unfold deleteChannel
  dsimp only
  split
  · exact put_peer_of_ne h ..
  · rw [log_peer]
    split <;> exact put_peer_of_ne h ..

/-- What the lists and counters are after parts that do not touch them. -/
theorem setState_lists (v : Hub) (i : ConnId) (s : ConnState) :
    (v.setState i s).conns = v.conns ∧ (v.setState i s).live = v.live ∧
      (v.setState i s).nextConn = v.nextConn ∧
      (v.setState i s).nextChannel = v.nextChannel := by
  rw [setState]
  split <;> exact ⟨rfl, rfl, rfl, rfl⟩

theorem callState_lists (v : Hub) (i : ConnId) :
    (v.callState i).conns = v.conns ∧ (v.callState i).live = v.live ∧
      (v.callState i).nextConn = v.nextConn ∧
      (v.callState i).nextChannel = v.nextChannel := by
  rw [callState]
  split <;> exact ⟨rfl, rfl, rfl, rfl⟩

theorem removeConn_lists (v : Hub) (i : ConnId) :
    (v.removeConn i).conns = v.conns.filter (· ≠ i) ∧ (v.removeConn i).live = v.live ∧
      (v.removeConn i).nextConn = v.nextConn ∧
      (v.removeConn i).nextChannel = v.nextChannel := by
  rw [removeConn]
  split
  · exact ⟨rfl, rfl, rfl, rfl⟩
  · rename_i hi
    refine ⟨?_, rfl, rfl, rfl⟩
    rw [List.filter_eq_self.mpr]
    intro k hk
    exact decide_eq_true fun e => hi (e ▸ hk)

/-- The channels in the poller once the one of connection `i` is out, if it was
open. -/
def liveWithout (v : Hub) (i : ConnId) : List ChannelId :=
  v.live.filter fun ch => (v.peer i).channel ≠ some (ch, true)

theorem liveWithout_of_open {ch : ChannelId} (h : (v.peer i).channel = some (ch, true)) :
    v.liveWithout i = v.live.filter (· ≠ ch) := by
  simp only [liveWithout, h, ne_eq, Option.some.injEq, Prod.mk.injEq, and_true,
    eq_comm (a := ch)]

theorem liveWithout_of_not_open (h : ∀ ch, (v.peer i).channel ≠ some (ch, true)) :
    v.liveWithout i = v.live := by
  apply List.filter_eq_self.mpr
  intro ch _
  exact decide_eq_true (h ch)

theorem shutChannel_lists (v : Hub) (i : ConnId) :
    (v.shutChannel i).conns = v.conns ∧ (v.shutChannel i).live = v.liveWithout i ∧
      (v.shutChannel i).nextConn = v.nextConn ∧
      (v.shutChannel i).nextChannel = v.nextChannel := by
  rw [shutChannel]
  split
  · rename_i ch hch
    exact ⟨rfl, (liveWithout_of_open hch).symm, rfl, rfl⟩
  · rename_i hch
    exact ⟨rfl, (liveWithout_of_not_open hch).symm, rfl, rfl⟩

theorem deleteChannel_lists (v : Hub) (i : ConnId) :
    (v.deleteChannel i).conns = v.conns ∧ (v.deleteChannel i).live = v.liveWithout i ∧
      (v.deleteChannel i).nextConn = v.nextConn ∧
      (v.deleteChannel i).nextChannel = v.nextChannel := by
  unfold deleteChannel
  dsimp only
  split
  · rename_i hch
    have hlive : v.liveWithout i = v.live := liveWithout_of_not_open (by simp [hch])
    exact ⟨rfl, hlive.symm, rfl, rfl⟩
  · rename_i ch isOpen hch
    cases isOpen with
    | true => exact ⟨rfl, (liveWithout_of_open hch).symm, rfl, rfl⟩
    | false =>
        have hlive : v.liveWithout i = v.live := liveWithout_of_not_open (by simp [hch])
        exact ⟨rfl, hlive.symm, rfl, rfl⟩

theorem terminate_lists (v : Hub) (i : ConnId) :
    (v.terminate i).conns = v.conns.filter (· ≠ i) ∧
      (v.terminate i).live = v.liveWithout i ∧
      (v.terminate i).nextConn = v.nextConn ∧
      (v.terminate i).nextChannel = v.nextChannel := by
  unfold terminate
  dsimp only
  generalize (v.peer i).terminal = s
  obtain ⟨a1, a2, a3, a4⟩ := setState_lists v i s
  obtain ⟨b1, b2, b3, b4⟩ := callState_lists (v.setState i s) i
  obtain ⟨c1, c2, c3, c4⟩ := removeConn_lists
    (((v.setState i s).callState i).log (.unregisteredIdles i)) i
  obtain ⟨d1, d2, d3, d4⟩ := deleteChannel_lists
    ((((v.setState i s).callState i).log (.unregisteredIdles i)).removeConn i) i
  refine ⟨?_, ?_, ?_, ?_⟩
  · refine d1.trans (c1.trans ?_)
    simp only [log, b1, a1]
  · apply d2.trans
    simp only [liveWithout, c2, removeConn_peer, log_peer, callState_peer, setState_peer]
    simp only [log, b2, a2]
  · exact d3.trans (c3.trans (b3.trans a3))
  · exact d4.trans (c4.trans (b4.trans a4))

/-! The events of a teardown. -/

def movedEvents (v : Hub) (i : ConnId) (s : ConnState) : List Event :=
  if (v.peer i).state = s then [] else [.moved i (v.peer i).state s]

def stateEvents (v : Hub) (i : ConnId) (s : ConnState) : List Event :=
  if (v.peer i).stateCb then [.stateCb i s] else []

def removedEvents (v : Hub) (i : ConnId) : List Event :=
  if i ∈ v.conns then [.removedConn i] else []

def deletedEvents (v : Hub) (i : ConnId) : List Event :=
  match (v.peer i).channel with
  | none => []
  | some (ch, _) => [.deletedChannel i ch]

theorem setState_trace (v : Hub) (i : ConnId) (s : ConnState) :
    (v.setState i s).trace = v.trace ++ v.movedEvents i s := by
  rw [setState, movedEvents]
  split
  · exact (List.append_nil _).symm
  · rfl

theorem callState_trace (v : Hub) (i : ConnId) :
    (v.callState i).trace = v.trace ++ v.stateEvents i (v.peer i).state := by
  rw [callState, stateEvents]
  split
  · rfl
  · exact (List.append_nil _).symm

theorem removeConn_trace (v : Hub) (i : ConnId) :
    (v.removeConn i).trace = v.trace ++ v.removedEvents i := by
  rw [removeConn, removedEvents]
  split
  · rfl
  · exact (List.append_nil _).symm

theorem deleteChannel_trace (v : Hub) (i : ConnId) :
    (v.deleteChannel i).trace = v.trace ++ v.deletedEvents i := by
  unfold deleteChannel deletedEvents
  dsimp only
  split
  · exact (List.append_nil _).symm
  · rename_i ch isOpen hch
    cases isOpen <;> rfl

theorem terminate_trace (v : Hub) (i : ConnId) :
    (v.terminate i).trace = v.trace ++
      (v.movedEvents i (v.peer i).terminal ++
        (v.stateEvents i (v.peer i).terminal ++ ([.unregisteredIdles i] ++
          (v.removedEvents i ++ (v.deletedEvents i ++ [.cleanedUp i]))))) := by
  have hcb : ∀ s, (v.setState i s).stateEvents i = v.stateEvents i := fun s => by
    funext s'
    simp only [stateEvents, setState_peer]
  have hrem : ∀ s, (((v.setState i s).callState i).log (.unregisteredIdles i)).removedEvents i
      = v.removedEvents i := fun s => by
    have h : (((v.setState i s).callState i).log (.unregisteredIdles i)).conns = v.conns :=
      (callState_lists _ i).1.trans (setState_lists v i s).1
    rw [removedEvents, h, removedEvents]
  have hdel : ∀ s, ((((v.setState i s).callState i).log
      (.unregisteredIdles i)).removeConn i).deletedEvents i = v.deletedEvents i := fun s => by
    simp only [deletedEvents, removeConn_peer, log_peer, callState_peer, setState_peer]
  rw [terminate]
  have hlog : ∀ (u : Hub) (e : Event), (u.log e).trace = u.trace ++ [e] := fun _ _ => rfl
  rw [hlog, deleteChannel_trace, hdel, removeConn_trace, hrem, hlog, callState_trace, hcb,
    setState_peer, setState_trace]
  simp only [List.append_assoc]

theorem shutChannel_peer (v : Hub) (i : ConnId) :
    (v.shutChannel i).peer i = { v.peer i with
      channel := (v.peer i).channel.map fun x => (x.1, false) } := by
  rw [shutChannel]
  split
  · rename_i ch hch
    rw [put_peer, hch]
    rfl
  · rename_i hch
    rcases hc : (v.peer i).channel with - | ⟨ch, - | -⟩
    · rw [Option.map_none, ← hc]
    · rw [Option.map_some, ← hc]
    · exact absurd hc (hch ch)

theorem shutChannel_peer_of_ne (h : j ≠ i) (v : Hub) :
    (v.shutChannel i).peer j = v.peer j := by
  rw [shutChannel]
  split
  · exact put_peer_of_ne h ..
  · rfl

theorem terminate_peer (v : Hub) (i : ConnId) :
    (v.terminate i).peer i =
      { v.peer i with
        state := (v.peer i).terminal
        readCb := none
        stateCb := false
        timerCb := false
        channel := none } := by
  rw [terminate]
  simp only [log_peer, deleteChannel_peer, removeConn_peer, callState_peer, setState_peer]

theorem terminate_peer_of_ne (h : j ≠ i) (v : Hub) :
    (v.terminate i).peer j = v.peer j := by
  rw [terminate]
  simp only [log_peer, deleteChannel_peer_of_ne h, removeConn_peer, callState_peer,
    setState_peer_of_ne h]

/-- A handshake that ends connected has connected, and done nothing else. -/
theorem handshake_connected (h : ((v.handshake p i).peer i).state = .connected) :
    (v.peer i).selects.head? = some 1 ∧
      (v.handshake p i).peer i = { v.peer i with
        selects := (v.peer i).selects.tail
        state := .connected } := by
  unfold handshake at h ⊢
  dsimp only at h ⊢
  split at h
  · rename_i hsel
    rw [if_pos hsel]
    refine ⟨hsel, ?_⟩
    split <;> simp only [log_peer, callState_peer, setState_peer, put_peer]
  · rw [cleanup, terminate_peer] at h
    exact absurd h (Peer.terminal_ne _).2

/-- A piece of the burst can be read first. -/
theorem readBurst_data {bs : List UInt8} {rest : List RecvResult}
    (h : burst (v.peer i).recvs = (bs ++ (burst rest).1, (burst rest).2)) :
    v.readBurst p i =
      (v.put i { v.peer i with pending := (v.peer i).pending ++ bs
                               received := (v.peer i).received + bs.length
                               recvs := rest }).readBurst p i := by
  simp only [readBurst, Peer.feed]
  simp only [put_peer, put_put, h, List.length_append, List.append_assoc, Nat.add_assoc]

/-- There is no more data. -/
theorem readBurst_stop {stop : Stop} {rest : List RecvResult}
    (h : burst (v.peer i).recvs = ([], stop, rest)) :
    v.readBurst p i = endBurst p i (v.put i { v.peer i with recvs := rest }) stop := by
  rw [readBurst, Peer.feed]
  simp only [h, List.append_nil, List.length_nil, Nat.add_zero]

/-! ### One message at a time -/

/-- One message is cut off the received bytes. -/
def deliverOne (i : ConnId) (n : Nat) (m : Slice) (v : Hub) : Hub :=
  let c := v.peer i
  (v.put i { c with pending := c.pending.drop n }).log
    (.msgCb i c.offset m (m.bytes c.pending))

theorem msgEvents_cons (i : ConnId) (off : Nat) (data : List UInt8) (m : Slice)
    {n : Nat} {items : List (Nat × Slice)} (h : ∀ x ∈ items, off + n ≤ x.1) :
    msgEvents i off data ((off, m) :: items) =
      .msgCb i off m (m.bytes data) :: msgEvents i (off + n) (data.drop n) items := by
  simp only [msgEvents, List.map_cons, Nat.sub_self, List.drop_zero, List.cons.injEq,
    true_and, List.drop_drop]
  apply List.map_congr_left
  intro x hx
  have := h x hx
  rw [show n + (x.1 - (off + n)) = x.1 - off by omega]

theorem offset_drop {c : Peer} {n : Nat} (hn : n ≤ c.pending.length)
    (hc : c.pending.length ≤ c.received) :
    { c with pending := c.pending.drop n }.offset = c.offset + n := by
  simp only [Peer.offset, List.length_drop]
  omega

theorem deliver_more (h : lengthParse p (v.peer i).pending = .more) :
    v.deliver p i = v ∧ (v.peer i).fails p = false := by
  have hd : ∀ off, (lengthFraming p).drain off (v.peer i).pending = ⟨[], _, false⟩ :=
    fun off => Framing.drain_more (F := lengthFraming p) h
  constructor
  · simp [deliver, hd, msgEvents, put]
  · simp [Peer.fails, hd]

theorem deliver_bad (h : lengthParse p (v.peer i).pending = .bad) :
    v.deliver p i = v ∧ (v.peer i).fails p = true := by
  have hd : ∀ off, (lengthFraming p).drain off (v.peer i).pending = ⟨[], _, true⟩ :=
    fun off => Framing.drain_bad (F := lengthFraming p) h
  constructor
  · simp [deliver, hd, msgEvents, put]
  · simp [Peer.fails, hd]

theorem deliver_item {n : Nat} {m : Slice}
    (hc : (v.peer i).pending.length ≤ (v.peer i).received)
    (h : lengthParse p (v.peer i).pending = .item n m) :
    v.deliver p i = (v.deliverOne i n m).deliver p i ∧
      (v.peer i).fails p = ((v.deliverOne i n m).peer i).fails p := by
  have hd : ∀ off, (lengthFraming p).drain off (v.peer i).pending =
      ((lengthFraming p).drain (off + n) ((v.peer i).pending.drop n)).prepend [(off, m)] :=
    fun _ => Framing.drain_item (F := lengthFraming p) h
  have hoff := offset_drop (Framing.item_le (lengthFraming p) h) hc
  have hpeer : (v.deliverOne i n m).peer i =
      { v.peer i with pending := (v.peer i).pending.drop n } := by
    simp [deliverOne]
  constructor
  · have hle : ∀ x ∈ ((lengthFraming p).drain ((v.peer i).offset + n)
        ((v.peer i).pending.drop n)).items, (v.peer i).offset + n ≤ x.1 :=
      fun x hx => Framing.off_le_of_mem_drain _ hx
    have hev := msgEvents_cons i (v.peer i).offset (v.peer i).pending m hle
    simp only [deliver, hpeer, hoff, hd]
    rw [Drained.prepend_items, List.singleton_append, hev]
    simp [deliverOne, log, put]
  · simp only [Peer.fails, hpeer, hoff, hd, Drained.prepend_failed]

/-- The loop of `OnMsg`, unrolled once. -/
theorem onMsg_more (h : lengthParse p (v.peer i).pending = .more) :
    onMsg p close i v = v := by
  obtain ⟨hd, hf⟩ := deliver_more h
  rw [onMsg, hf, if_neg Bool.false_ne_true, hd]

theorem onMsg_bad (h : lengthParse p (v.peer i).pending = .bad) :
    onMsg p close i v = close (v.log (.decodeError i)) := by
  obtain ⟨hd, hf⟩ := deliver_bad h
  rw [onMsg, hf, if_pos rfl, hd]

theorem onMsg_item {n : Nat} {m : Slice}
    (hc : (v.peer i).pending.length ≤ (v.peer i).received)
    (h : lengthParse p (v.peer i).pending = .item n m) :
    onMsg p close i v = onMsg p close i (v.deliverOne i n m) := by
  obtain ⟨hd, hf⟩ := deliver_item hc h
  rw [onMsg, onMsg, hf, hd]

end Hub

end Libet
