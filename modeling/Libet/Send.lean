/-
Libet/Send.lean

The sending side of `TcpConn`.

The functions of the `Send` family work on a connection and on the poller in
which its channel is registered, a `Link`.  Bytes go to the socket at once
where they can, and behind `m_output` where they cannot; write interest is
switched on when the socket is full.

`sendBase_rule` is the induction rule of the loop in `SendBase`.  Every function
is invisible to the receiving side (`Quiet`), which is what lets the caller's
callbacks send while a connection is being read or torn down.
-/
import Libet.Hub

namespace Libet

/-! ### The socket -/

/-- What a `::send` returns. -/
inductive SendOutcome
  | sent (n : Nat)
  | wouldBlock
  | error
  deriving DecidableEq, Repr

/-- `::send(fd, buf, len, 0)`.  The length is an `int` there; a length that is
not positive after that conversion sends nothing, and a closed descriptor is an
error. -/
def Socket.send (s : Socket) (fd : Int) (buf : List UInt8) : SendOutcome × Socket :=
  let len := toInt32 buf.length
  if fd = SOCKET_ERROR ∨ len ≤ 0 then (.error, { s with sendFailed := true })
  else
    -- a script that has run out blocks; a socket that accepts takes at least one byte
    match s.sends with
    | [] => (.wouldBlock, s)
    | .accept n :: rest =>
        let n := min (n + 1) len.toNat
        (.sent n, { s with sends := rest, accepted := s.accepted ++ buf.take n })
    | .wouldBlock :: rest => (.wouldBlock, { s with sends := rest })
    | .error :: rest => (.error, { s with sends := rest, sendFailed := true })

theorem toInt32_le {n : Nat} (h : 0 < toInt32 n) :
    (toInt32 n).toNat ≤ n ∧ (toInt32 n).toNat < 2 ^ 31 := by
  simp only [toInt32, Int.bmod_def] at h ⊢
  omega

/-- A `::send` that accepts bytes accepts a non-empty prefix. -/
theorem Socket.send_sent {s s' : Socket} {fd : Int} {buf : List UInt8} {n : Nat}
    (h : s.send fd buf = (.sent n, s')) :
    0 < n ∧ n ≤ (toInt32 buf.length).toNat ∧ 0 < toInt32 buf.length ∧
      s'.accepted = s.accepted ++ buf.take n ∧ s'.sendFailed = s.sendFailed := by
  unfold Socket.send at h
  dsimp only at h
  split at h
  · cases h
  · rename_i hlen
    split at h
    · cases h
    · simp only [Prod.mk.injEq, SendOutcome.sent.injEq] at h
      obtain ⟨rfl, rfl⟩ := h
      simp only [not_or, not_le] at hlen
      refine ⟨?_, ?_, hlen.2, rfl, rfl⟩ <;> omega
    · cases h
    · cases h

theorem Socket.send_wouldBlock {s s' : Socket} {fd : Int} {buf : List UInt8}
    (h : s.send fd buf = (.wouldBlock, s')) :
    s'.accepted = s.accepted ∧ s'.sendFailed = s.sendFailed ∧ fd ≠ SOCKET_ERROR := by
  unfold Socket.send at h
  dsimp only at h
  split at h
  · cases h
  · rename_i hfd
    have hfd := fun e => hfd (Or.inl e)
    split at h
    · cases h; exact ⟨rfl, rfl, hfd⟩
    · cases h
    · cases h; exact ⟨rfl, rfl, hfd⟩
    · cases h

theorem Socket.send_error {s s' : Socket} {fd : Int} {buf : List UInt8}
    (h : s.send fd buf = (.error, s')) :
    s'.accepted = s.accepted ∧ s'.sendFailed = true := by
  unfold Socket.send at h
  dsimp only at h
  split at h
  · cases h; exact ⟨rfl, rfl⟩
  · split at h
    · cases h
    · cases h
    · cases h
    · cases h; exact ⟨rfl, rfl⟩

/-- A `::send` does not touch what `recv` and `select` will return. -/
theorem Socket.send_frame (s : Socket) (fd : Int) (buf : List UInt8) :
    (s.send fd buf).2.recvs = s.recvs ∧ (s.send fd buf).2.selects = s.selects ∧
      (s.send fd buf).2.received = s.received := by
  rw [Socket.send]
  dsimp only
  split
  · exact ⟨rfl, rfl, rfl⟩
  · split <;> exact ⟨rfl, rfl, rfl⟩

/-! ### The functions -/

/-- A connection and the poller its channel is registered with. -/
structure Link where
  con : TcpConn
  poller : PollerSelect

namespace Link

/-- `m_channel->EnableWrite(enable)`. -/
def enableWrite (l : Link) (enable : Bool) : Link :=
  match l.con.channel with
  | none => l
  | some ch =>
      let ch := { ch with writable := enable }
      ⟨{ l.con with channel := some ch }, l.poller.updateChannel ch⟩

/-- `SendBase`: the number of bytes sent, which fits an `int` (`sendBase_lt`). -/
def sendBase (l : Link) (buf : List UInt8) : Nat × Link :=
  if buf = [] then (0, l)
  else
    match _h : l.con.sock.send l.con.fd buf with
    | (.sent nsend, s) =>
        let r := sendBase { l with con := { l.con with sock := s } } (buf.drop nsend)
        (nsend + r.1, r.2)
    | (.wouldBlock, s) =>
        let l : Link := { l with con := { l.con with sock := s } }
        (0, if l.con.writable then l else l.enableWrite true)
    | (.error, s) => (0, { l with con := { l.con with sock := s } })
termination_by buf.length
decreasing_by
  obtain ⟨h0, hle, hpos, -⟩ := Socket.send_sent _h
  have := (toInt32_le hpos).1
  rw [List.length_drop]
  omega

/-- The bytes of a call are on record as submitted. -/
def submit (l : Link) (buf : List UInt8) : Link :=
  { l with con := { l.con with submitted := l.con.submitted ++ buf } }

/-- What `SendBase` left over goes behind `m_output`. -/
def appendRest (buf : List UInt8) (r : Nat × Link) : Link :=
  let rest := buf.drop r.1
  if rest = [] then r.2
  else { r.2 with con := { r.2.con with output := r.2.con.output.append rest } }

/-- `Send(const char* buf, size_t len)`. -/
def send (l : Link) (buf : List UInt8) : Link :=
  if l.con.channel.isSome then
    let l := l.submit buf
    appendRest buf (if l.con.output.empty then l.sendBase buf else (0, l))
  else l

/-- `m_output.absorb(buf)` for a `buf` of the caller. -/
def absorb (l : Link) (buf : Buffer) : Link × Buffer :=
  let r := l.con.output.absorb buf
  ({ l with con := { l.con with output := r.1 } }, r.2)

/-- First part of `Send(Buffer& buf)`: behind write interest the bytes queue. -/
def absorbWritable (x : Link × Buffer) : Link × Buffer :=
  if x.1.con.writable then x.1.absorb x.2 else x

/-- Second part: what is left is sent at once. -/
def sendNow (x : Link × Buffer) : Link × Buffer :=
  if x.2.size ≠ 0 then
    let r := x.1.sendBase x.2.content
    (r.2, x.2.consume r.1)
  else x

/-- Third part: what could not be sent queues, with write interest. -/
def absorbRest (x : Link × Buffer) : Link × Buffer :=
  if x.2.size ≠ 0 then
    let y := x.1.absorb x.2
    (if y.1.con.writable then y.1 else y.1.enableWrite true, y.2)
  else x

/-- `Send(Buffer& buf)` for a `buf` of the caller. -/
def sendBuffer (l : Link) (buf : Buffer) : Link × Buffer :=
  if l.con.channel.isSome then
    absorbRest (sendNow (absorbWritable (l.submit buf.content, buf)))
  else (l, buf)

/-- The bytes of `m_output` are sent and the count consumed. -/
def flush (l : Link) : Link :=
  let r := l.sendBase l.con.output.content
  { r.2 with con := { r.2.con with output := r.2.con.output.consume r.1 } }

/-- Write interest for a queue that could not be sent. -/
def watchRest (l : Link) : Link :=
  if l.con.output.size ≠ 0 ∧ ¬ l.con.writable then l.enableWrite true else l

/-- `SendOutput()`, which is `Send(m_output)`: absorbing a buffer into itself
does nothing. -/
def sendOutput (l : Link) : Link :=
  if l.con.channel.isSome then
    (if l.con.output.size ≠ 0 then l.flush else l).watchRest
  else l

/-- `SendMsg`.  Without a codec it follows a null pointer; nothing is done
then. -/
def sendMsg (l : Link) (msg : List UInt8) : Link :=
  if l.con.codec then
    let l := if l.con.channel.isSome then l.submit (frame msg) else l
    { l with con := { l.con with output := encode msg l.con.output } } |>.sendOutput
  else l

end Link

/-! ### `SendBase` -/

namespace Link

/-- What holds of `SendBase` if it holds when nothing is left, is kept by one
`::send` that accepts bytes, and holds when a `::send` does not. -/
theorem sendBase_rule {motive : Link → List UInt8 → Nat → Link → Prop}
    (nil : ∀ l, motive l [] 0 l)
    (sent : ∀ l buf n s (r : Nat × Link), l.con.sock.send l.con.fd buf = (.sent n, s) →
      motive { l with con := { l.con with sock := s } } (buf.drop n) r.1 r.2 →
      motive l buf (n + r.1) r.2)
    (wouldBlock : ∀ l buf s, l.con.sock.send l.con.fd buf = (.wouldBlock, s) →
      motive l buf 0
        (if l.con.writable then { l with con := { l.con with sock := s } }
        else Link.enableWrite { l with con := { l.con with sock := s } } true))
    (error : ∀ l buf s, l.con.sock.send l.con.fd buf = (.error, s) →
      motive l buf 0 { l with con := { l.con with sock := s } })
    (l : Link) (buf : List UInt8) : motive l buf (l.sendBase buf).1 (l.sendBase buf).2 := by
  induction l, buf using sendBase.induct with
  | case1 l =>
      rw [sendBase, if_pos rfl]
      exact nil l
  | case2 l buf hne nsend s h ih =>
      rw [sendBase, if_neg hne]
      split <;> rename_i heq <;> cases h.symm.trans heq
      exact sent l buf nsend s _ h ih
  | case3 l buf hne s h =>
      rw [sendBase, if_neg hne]
      split <;> rename_i heq <;> cases h.symm.trans heq
      exact wouldBlock l buf s h
  | case4 l buf hne s h =>
      rw [sendBase, if_neg hne]
      split <;> rename_i heq <;> cases h.symm.trans heq
      exact error l buf s h

/-- `SendBase` never sends more than an `int` can count: the length of every
`::send` is an `int`, and a length that is not positive ends the loop. -/
theorem sendBase_lt (l : Link) (buf : List UInt8) : (l.sendBase buf).1 < 2 ^ 31 := by
  -- by induction over the `::send`s, each of which counts the bytes that are left as an `int`
  suffices h : (l.sendBase buf).1 ≤ (toInt32 buf.length).toNat by
    rcases Int.lt_or_le 0 (toInt32 buf.length) with hpos | hneg
    · exact h.trans_lt (toInt32_le hpos).2
    · omega
  refine sendBase_rule (motive := fun _ buf n _ => n ≤ (toInt32 buf.length).toNat)
    ?_ ?_ ?_ ?_ l buf
  · intro l
    exact Nat.zero_le _
  · intro l buf n s r h ih
    obtain ⟨h0, hn, hpos, -⟩ := Socket.send_sent h
    have hle := (toInt32_le hpos).1
    simp only [toInt32, Int.bmod_def, List.length_drop] at hn hpos ih hle ⊢
    omega
  · intro l buf s h
    exact Nat.zero_le _
  · intro l buf s h
    exact Nat.zero_le _

end Link

/-! ### The receiving side does not notice -/

/-- The connection as a hub sees it. -/
def TcpConn.peer (c : TcpConn) : Peer where
  state := c.state
  channel := c.channel.map fun ch => (ch.id, decide (ch.fd ≠ SOCKET_ERROR))
  readCb := c.readCb
  stateCb := c.stateCb
  timerCb := c.timerCb
  pending := c.input.content
  received := c.sock.received
  recvs := c.sock.recvs
  selects := c.sock.selects

/-- `l'` differs from `l` in nothing that the receiving side, the registries or
the idle lists use. -/
structure Quiet (l l' : Link) : Prop where
  peer : l'.con.peer = l.con.peer
  input : l'.con.input = l.con.input
  idleIds : l'.con.idleIds = l.con.idleIds
  live : l'.poller.liveChannels = l.poller.liveChannels

namespace Quiet

variable {l l' l'' : Link}

theorem refl (l : Link) : Quiet l l := ⟨rfl, rfl, rfl, rfl⟩

theorem trans (h : Quiet l l') (h' : Quiet l' l'') : Quiet l l'' :=
  ⟨h'.peer.trans h.peer, h'.input.trans h.input, h'.idleIds.trans h.idleIds,
    h'.live.trans h.live⟩

end Quiet

namespace Link

theorem quiet_enableWrite (l : Link) (enable : Bool) : Quiet l (l.enableWrite enable) := by
  rw [enableWrite]
  split
  · exact Quiet.refl l
  · rename_i ch hch
    exact ⟨by simp [TcpConn.peer, hch], rfl, rfl, rfl⟩

theorem quiet_sock (l : Link) {s : Socket} (h : s.recvs = l.con.sock.recvs)
    (h1 : s.selects = l.con.sock.selects) (h2 : s.received = l.con.sock.received) :
    Quiet l { l with con := { l.con with sock := s } } :=
  ⟨by simp [TcpConn.peer, h, h1, h2], rfl, rfl, rfl⟩

theorem quiet_output (l : Link) (output : Buffer) :
    Quiet l { l with con := { l.con with output := output } } :=
  ⟨rfl, rfl, rfl, rfl⟩

theorem quiet_submit (l : Link) (buf : List UInt8) : Quiet l (l.submit buf) :=
  ⟨rfl, rfl, rfl, rfl⟩

theorem quiet_sendBase (l : Link) (buf : List UInt8) : Quiet l (l.sendBase buf).2 := by
  -- one `::send` touches the sending half of the socket only
  have hsock : ∀ (l : Link) buf, Quiet l
      { l with con := { l.con with sock := (l.con.sock.send l.con.fd buf).2 } } :=
    fun l buf => by
      obtain ⟨h1, h2, h3⟩ := Socket.send_frame l.con.sock l.con.fd buf
      exact l.quiet_sock h1 h2 h3
  refine sendBase_rule (motive := fun l _ _ l' => Quiet l l') Quiet.refl ?_ ?_ ?_ l buf
  · intro l buf n s r h ih
    have := hsock l buf
    rw [h] at this
    exact this.trans ih
  · intro l buf s h
    have := hsock l buf
    rw [h] at this
    split
    · exact this
    · exact this.trans (quiet_enableWrite _ true)
  · intro l buf s h
    have := hsock l buf
    rwa [h] at this

theorem quiet_appendRest (buf : List UInt8) (r : Nat × Link) :
    Quiet r.2 (appendRest buf r) := by
  rw [appendRest]
  dsimp only
  split
  · exact Quiet.refl _
  · exact quiet_output _ _

theorem quiet_send (l : Link) (buf : List UInt8) : Quiet l (l.send buf) := by
  rw [send]
  split
  · refine Quiet.trans ?_ (quiet_appendRest buf _)
    split
    · exact (l.quiet_submit buf).trans (quiet_sendBase _ buf)
    · exact l.quiet_submit buf
  · exact Quiet.refl l

theorem quiet_flush (l : Link) : Quiet l l.flush :=
  (quiet_sendBase l _).trans (quiet_output _ _)

theorem quiet_watchRest (l : Link) : Quiet l l.watchRest := by
  rw [watchRest]
  split
  · exact quiet_enableWrite l true
  · exact Quiet.refl l

theorem quiet_sendOutput (l : Link) : Quiet l l.sendOutput := by
  rw [sendOutput]
  split
  · refine Quiet.trans ?_ (quiet_watchRest _)
    split
    · exact quiet_flush l
    · exact Quiet.refl l
  · exact Quiet.refl l

theorem quiet_sendMsg (l : Link) (msg : List UInt8) : Quiet l (l.sendMsg msg) := by
  rw [sendMsg]
  split
  · refine Quiet.trans ?_ (quiet_sendOutput _)
    split
    · exact (l.quiet_submit _).trans (quiet_output _ _)
    · exact quiet_output _ _
  · exact Quiet.refl l

theorem quiet_absorb (l : Link) (buf : Buffer) : Quiet l (l.absorb buf).1 :=
  quiet_output l _

theorem quiet_sendBuffer (l : Link) (buf : Buffer) : Quiet l (l.sendBuffer buf).1 := by
  have h1 : ∀ x : Link × Buffer, Quiet x.1 (absorbWritable x).1 := fun x => by
    rw [absorbWritable]
    split
    · exact quiet_absorb _ _
    · exact Quiet.refl _
  have h2 : ∀ x : Link × Buffer, Quiet x.1 (sendNow x).1 := fun x => by
    rw [sendNow]
    split
    · exact quiet_sendBase _ _
    · exact Quiet.refl _
  have h3 : ∀ x : Link × Buffer, Quiet x.1 (absorbRest x).1 := fun x => by
    rw [absorbRest]
    split
    · dsimp only
      split
      · exact quiet_absorb _ _
      · exact (quiet_absorb _ _).trans (quiet_enableWrite _ true)
    · exact Quiet.refl _
  rw [sendBuffer]
  split
  · exact (l.quiet_submit _).trans (((h1 (_, buf)).trans (h2 _)).trans (h3 _))
  · exact Quiet.refl l

end Link

end Libet
