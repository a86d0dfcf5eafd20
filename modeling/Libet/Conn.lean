/-
Libet/Conn.lean

The data of a `TcpConn`.

The socket belongs to the operating system.  What its calls will return is a
script: `recvs`, `sends` and `selects` are the results still to come, in order,
and an exhausted script goes on with `WSAEWOULDBLOCK` (a `select` that times
out).  The socket also keeps count of what has gone through it: the number of
bytes received, the bytes accepted for sending, and whether a `::send` failed.
-/
import Libet.Codec
import Libet.Idle

namespace Libet

/-- `TcpConn::State`. -/
inductive ConnState
  | invalid
  | handshaking
  | connected
  | closed
  | failed
  deriving DecidableEq, Repr

/-- What `m_readCb` holds: a callback of the caller, or the lambda that `OnMsg`
installs. -/
inductive ReadCb
  | onRead
  | onMsg
  deriving DecidableEq, Repr

/-- What a `recv` finds. -/
inductive RecvResult
  /-- at least one byte has arrived -/
  | data (b : UInt8) (bs : List UInt8)
  /-- `SOCKET_ERROR` with `WSAEWOULDBLOCK` -/
  | wouldBlock
  /-- `0`: the peer has closed -/
  | closed
  /-- `SOCKET_ERROR` with another code -/
  | error
  deriving DecidableEq, Repr

/-- What a `::send` does. -/
inductive SendResult
  /-- it accepts `n + 1` bytes, or all it is given if those are fewer -/
  | accept (n : Nat)
  /-- `SOCKET_ERROR` with `WSAEWOULDBLOCK` -/
  | wouldBlock
  /-- `SOCKET_ERROR` with another code -/
  | error
  deriving DecidableEq, Repr

/-- The operating system's side of a connection. -/
structure Socket where
  recvs : List RecvResult
  sends : List SendResult
  selects : List Int
  received : Nat
  accepted : List UInt8
  sendFailed : Bool
  deriving DecidableEq, Repr

/-- A socket with the given scripts through which nothing has gone yet. -/
def Socket.ofScripts (recvs : List RecvResult) (sends : List SendResult)
    (selects : List Int) : Socket :=
  ⟨recvs, sends, selects, 0, [], false⟩

/-- `struct TcpConn`.  Of `m_writeCb`, `m_stateCb`, `m_timerCb` and `m_codec`
only whether they are set matters.  `submitted` records the bytes handed to the
`Send` family while there was a channel. -/
structure TcpConn where
  channel : Option Channel
  input : Buffer
  output : Buffer
  state : ConnState
  readCb : Option ReadCb
  writeCb : Bool
  stateCb : Bool
  timerCb : Bool
  idleIds : List IdleId
  codec : Bool
  sock : Socket
  submitted : List UInt8
  deriving DecidableEq, Repr

namespace TcpConn

/-- `TcpConn::TcpConn`. -/
def new (sock : Socket) : TcpConn where
  channel := none
  input := Buffer.new
  output := Buffer.new
  state := .invalid
  readCb := none
  writeCb := false
  stateCb := false
  timerCb := false
  idleIds := []
  codec := false
  sock := sock
  submitted := []

/-- `m_channel->fd()`. -/
def fd (c : TcpConn) : Int := (c.channel.map Channel.fd).getD SOCKET_ERROR

/-- `m_channel->Writable()`. -/
def writable (c : TcpConn) : Bool := (c.channel.map Channel.writable).getD false

end TcpConn

/-! ### What the receive script says -/

/-- `recv(fd, buf, space, 0)`: at most `space` bytes of the chunk that is next
are taken, the rest of it stays.  The result is what the call returns and the
script afterwards; a `recv` into no room returns `0`. -/
def recv (space : Nat) : List RecvResult → RecvResult × List RecvResult
  | [] => (.wouldBlock, [])
  | .data b bs :: rest =>
      if space = 0 then (.closed, .data b bs :: rest)
      else
        match bs.drop (space - 1) with
        | [] => (.data b bs, rest)
        | b' :: bs' => (.data b (bs.take (space - 1)), .data b' bs' :: rest)
  | r :: rest => (r, rest)

/-- How a burst of data ends. -/
inductive Stop
  | wouldBlock
  | closed
  | error
  deriving DecidableEq, Repr

/-- What `recv` delivers until it has no more data: the bytes, how they end,
and the script behind that. -/
def burst : List RecvResult → List UInt8 × Stop × List RecvResult
  | [] => ([], .wouldBlock, [])
  | .data b bs :: rest =>
      (b :: bs ++ (burst rest).1, (burst rest).2)
  | .wouldBlock :: rest => ([], .wouldBlock, rest)
  | .closed :: rest => ([], .closed, rest)
  | .error :: rest => ([], .error, rest)

/-- The number of bytes in a script, and of results. -/
def weight : List RecvResult → Nat
  | [] => 0
  | .data _ bs :: rest => bs.length + 2 + weight rest
  | _ :: rest => 1 + weight rest

/-- A `recv` that returns data makes the script shorter. -/
theorem weight_recv {space : Nat} {script rest : List RecvResult} {b : UInt8}
    {bs : List UInt8} (h : recv space script = (.data b bs, rest)) :
    weight rest < weight script := by
  unfold recv at h
  split at h
  · cases h
  · split at h
    · cases h
    · split at h
      · cases h
        simp only [weight]
        omega
      · rename_i c cs rest' _ b' bs' hdrop
        cases h
        have hlen := congrArg List.length hdrop
        simp only [List.length_drop, List.length_cons] at hlen
        simp only [weight]
        omega
  · rename_i r rest' hne
    cases h
    exact absurd rfl (hne b bs)

/-- A `recv` into some room takes the next piece of the burst. -/
theorem burst_recv_data {space : Nat} {script rest : List RecvResult} {b : UInt8}
    {bs : List UInt8} (h : recv space script = (.data b bs, rest)) :
    burst script = (b :: bs ++ (burst rest).1, (burst rest).2) ∧
      (b :: bs).length ≤ space := by
  unfold recv at h
  split at h
  · cases h
  · split at h
    · cases h
    · rename_i hspace
      split at h
      · rename_i hdrop
        cases h
        have hlen := congrArg List.length hdrop
        simp only [List.length_drop, List.length_nil] at hlen
        refine ⟨rfl, ?_⟩
        rw [List.length_cons]
        omega
      · rename_i c cs rest' _ b' bs' hdrop
        cases h
        refine ⟨?_, ?_⟩
        · simp only [burst, List.cons_append]
          rw [← List.cons_append (a := b'), ← hdrop, ← List.append_assoc,
            List.take_append_drop]
        · simp only [List.length_cons, List.length_take]
          omega
  · rename_i r rest' hne
    cases h
    exact absurd rfl (hne b bs)

/-- A `recv` into some room that returns no data ends the burst. -/
theorem burst_recv_stop {space : Nat} (hspace : 0 < space)
    {script rest : List RecvResult} {r : RecvResult}
    (h : recv space script = (r, rest)) :
    (r = .wouldBlock → burst script = ([], .wouldBlock, rest)) ∧
    (r = .closed → burst script = ([], .closed, rest)) ∧
    (r = .error → burst script = ([], .error, rest)) := by
  unfold recv at h
  split at h
  · cases h
    simp [burst]
  · split at h
    · omega
    · split at h <;> · cases h; simp
  · rename_i r' rest' hne
    cases h
    refine ⟨?_, ?_, ?_⟩ <;> · rintro rfl; rfl

end Libet
