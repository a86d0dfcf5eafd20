/-
Libet/Echo.lean

What an echo server sends back.

`TestTcpServer` and `HeartbeatTest` install `LengthCodec` on every connection and
answer each message with `con->SendMsg(msg)`.  Decoding, the message callback,
encoding, `m_output` and the socket are put together here: what the codec has
cut off the stream, `Encode` puts together again byte by byte, so what such a
server has sent and queued is what it has received, up to the bytes that wait in
`m_input` for the rest of their message.

* `Echo` — the servers in question.
* `Echoes i` — the bytes submitted to connection `i` are the frames of the messages
  delivered to it; it survives everything an event does, by `World.CallRule`.
* `frames_of_drain` — the frames of the decoded messages and the rest are the
  decoded bytes.

Main result: `echo_of_run`.
-/
import Libet.CallRule
import Libet.RoundTrip
import Libet.TornDown

namespace Libet

/-! ### The servers -/

/-- The operation hands bytes to a connection. -/
def UserOp.sends : UserOp → Bool
  | .sendOutput _ | .close _ | .addIdleCB _ _ => false
  | _ => true

/-- The server answers every message with the message; apart from that it may
close connections and register idle callbacks. -/
structure Echo (app : App) : Prop where
  readCb : app.slots.readCb = some .onMsg
  onMsg : ∀ w i msg, app.onMsg w i msg = [.sendMsg i (msg.bytes (w.con i).input.content)]
  onState : ∀ w i, ∀ op ∈ app.onState w i, op.sends = false
  onTimer : ∀ w i, ∀ op ∈ app.onTimer w i, op.sends = false
  onWrite : ∀ w i, ∀ op ∈ app.onWrite w i, op.sends = false

theorem echo_heartbeatTest : Echo heartbeatTest where
  readCb := rfl
  onMsg _ _ _ := rfl
  onState w i op hop := by
    simp only [heartbeatTest] at hop
    split at hop
    · rw [List.mem_singleton.mp hop]
      rfl
    · cases hop
  onTimer _ _ _ hop := by cases hop
  onWrite _ _ _ hop := by cases hop

/-! ### What is kept -/

variable {app : App} {w w' : World} {i j : ConnId}

/-- A connection of an echo server, with the messages delivered to it; `known` says
that it was accepted, `watched` that nobody else sends on it. -/
structure Echoing (c : TcpConn) (ms : List (Nat × Slice × List UInt8))
    (known watched : Prop) : Prop where
  readCb : c.readCb ≠ some .onRead
  link : c.readCb.isSome → c.channel.isSome ∧ c.codec
  submitted : watched → c.submitted = ms.flatMap fun x => frame x.2.2
  fresh : ¬ known → c.readCb = none ∧ ms = []

/-- Every connection of an echo server, if nobody else sends on connection `i`. -/
def World.Echoes (i : ConnId) (w : World) : Prop :=
  ∀ j, Echoing (w.con j) (messages j w.trace) (j < w.nextConn) (j = i)

/-- Nothing that matters has changed. -/
theorem Echoing.congr {c c' : TcpConn} {ms : List (Nat × Slice × List UInt8)}
    {known watched : Prop} (h : Echoing c ms known watched) (hcb : c'.readCb = c.readCb)
    (hch : c'.channel.isSome = c.channel.isSome) (hcodec : c'.codec = c.codec)
    (hsub : watched → c'.submitted = c.submitted) : Echoing c' ms known watched := by
  constructor
  · rw [hcb]
    exact h.readCb
  · rw [hcb, hch, hcodec]
    exact h.link
  · exact fun hw => (hsub hw).trans (h.submitted hw)
  · rw [hcb]
    exact h.fresh

/-- One connection changes. -/
theorem World.Echoes.update (h : w.Echoes i) (j : ConnId) {c : TcpConn}
    (hc : Echoing c (messages j w.trace) (j < w.nextConn) (j = i)) : (w.set j c).Echoes i := by
  intro k
  rcases eq_or_ne k j with rfl | hne
  · simpa only [World.set, Function.update_self] using hc
  · simpa only [World.set, Function.update_of_ne hne] using h k

/-- One connection changes where it does not matter. -/
theorem World.Echoes.set (h : w.Echoes i) (j : ConnId) {c : TcpConn}
    (hcb : c.readCb = (w.con j).readCb) (hch : c.channel.isSome = (w.con j).channel.isSome)
    (hcodec : c.codec = (w.con j).codec) (hsub : j = i → c.submitted = (w.con j).submitted) :
    (w.set j c).Echoes i :=
  h.update j ((h j).congr hcb hch hcodec hsub)

theorem World.Echoes.log (h : w.Echoes i) {e : Event} (he : ∀ j, messages j [e] = []) :
    (w.log e).Echoes i := by
  intro j
  have hmsgs : messages j (w.log e).trace = messages j w.trace := by
    show messages j (w.trace ++ [e]) = _
    rw [messages_append, he, List.append_nil]
  rw [hmsgs]
  exact h j

/-- What the sending side does without submitting anything to connection `i`. -/
theorem World.Echoes.onLink (h : w.Echoes i) (j : ConnId) (f : Link → Link)
    (hquiet : ∀ l, Libet.Quiet l (f l)) (hcodec : ∀ l, (f l).con.codec = l.con.codec)
    (hsub : j = i → ∀ l, (f l).con.submitted = l.con.submitted) : (w.onLink j f).Echoes i := by
  have hpeer := (hquiet ⟨w.con j, w.base.poller⟩).peer
  have hch := congrArg (fun p : Peer => p.channel.isSome) hpeer
  simp only [TcpConn.peer, Option.isSome_map] at hch
  exact h.set j (congrArg Peer.readCb hpeer) hch (hcodec _) fun hj => hsub hj _

/-- An operation that sends nothing on connection `i`. -/
theorem World.Echoes.runOp (h : w.Echoes i) {op : UserOp}
    (hop : op.target = i → op.sends = false) : (w.runOp op).Echoes i := by
  cases op with
  | close j =>
      simp only [World.runOp]
      split
      · exact h
      · exact h
  | addIdleCB j idle =>
      simp only [World.runOp]
      split
      · exact h.set j rfl rfl rfl fun _ => rfl
      · exact h
  | send j buf =>
      exact h.onLink j (·.send buf) (fun l => l.quiet_send buf) (fun l => l.codec_send buf)
        fun hj => absurd (hop hj) Bool.noConfusion
  | sendBuffer j buf =>
      exact h.onLink j (fun l => (l.sendBuffer buf.1).1) (fun l => l.quiet_sendBuffer buf.1)
        (fun l => l.codec_sendBuffer buf.1) fun hj => absurd (hop hj) Bool.noConfusion
  | sendMsg j msg =>
      exact h.onLink j (·.sendMsg msg) (fun l => l.quiet_sendMsg msg)
        (fun l => l.codec_sendMsg msg) fun hj => absurd (hop hj) Bool.noConfusion
  | sendOutput j =>
      exact h.onLink j (·.sendOutput) (fun l => l.quiet_sendOutput) (fun l => l.codec_sendOutput)
        fun _ l => l.submitted_sendOutput

theorem World.Echoes.runOps (h : w.Echoes i) {ops : List UserOp}
    (hops : ∀ op ∈ ops, op.sends = false) : (w.runOps ops).Echoes i := by
  induction ops generalizing w with
  | nil => exact h
  | cons op ops ih =>
      exact ih (h.runOp fun _ => hops op List.mem_cons_self) fun op' hop' =>
        hops op' (List.mem_cons_of_mem op hop')

/-- The answer to a message puts its frame on record. -/
theorem Echoing.answer {c : TcpConn} {ms : List (Nat × Slice × List UInt8)}
    {known watched : Prop} (h : Echoing c ms known watched) (hcb : c.readCb = some .onMsg)
    (b : PollerSelect) (off : Nat) (msg : Slice) (bytes : List UInt8) :
    Echoing (Link.sendMsg ⟨c, b⟩ bytes).con (ms ++ [(off, msg, bytes)]) known watched := by
  obtain ⟨hch, hcodec⟩ := h.link (by rw [hcb]; rfl)
  have hpeer := (Link.quiet_sendMsg ⟨c, b⟩ bytes).peer
  have hsome := congrArg (fun p : Peer => p.channel.isSome) hpeer
  simp only [TcpConn.peer, Option.isSome_map] at hsome
  have hread : (Link.sendMsg ⟨c, b⟩ bytes).con.readCb = c.readCb := congrArg Peer.readCb hpeer
  constructor
  · rw [hread]
    exact h.readCb
  · rw [hread, hsome, Link.codec_sendMsg]
    exact h.link
  · intro hw
    rw [Link.submitted_sendMsg ⟨c, b⟩ hch hcodec, List.flatMap_append, List.flatMap_singleton,
      ← h.submitted hw]
  · intro hle
    have hnone := (h.fresh hle).1
    rw [hcb] at hnone
    cases hnone

/-- **A message and its answer.**  The message goes to the trace, and its frame to
the bytes submitted. -/
theorem World.Echoes.answer (h : w.Echoes i) (hcb : (w.con j).readCb = some .onMsg) (off : Nat)
    (msg : Slice) (bytes : List UInt8) :
    ((w.log (.msgCb j off msg bytes)).runOp (.sendMsg j bytes)).Echoes i := by
  intro k
  have hmsgs : messages k (w.log (.msgCb j off msg bytes)).trace =
      messages k w.trace ++ if j = k then [(off, msg, bytes)] else [] := by
    show messages k (w.trace ++ [_]) = _
    rw [messages_append]
    congr 1
    simp only [messages, List.filterMap_cons, List.filterMap_nil]
    split <;> simp_all
  show Echoing (Function.update w.con j _ k) (messages k (w.log _).trace) (k < w.nextConn) (k = i)
  rw [hmsgs]
  rcases eq_or_ne j k with rfl | hne
  · rw [Function.update_self, if_pos rfl]
    exact (h j).answer hcb _ off msg bytes
  · rw [Function.update_of_ne hne.symm, if_neg hne, List.append_nil]
    exact h k

/-- **The frames of the messages delivered are what is submitted**, through every
event of an echo server. -/
theorem echoes_rule (happ : Echo app) (i : ConnId) : World.CallRule app (World.Echoes i) where
  log {w e} h he _ := h.log fun j => by
    cases e with
    | msgCb i off msg bytes => exact absurd rfl (he i off msg bytes)
    | _ => rfl
  conn _ _ _ h _ _ := h.set _ rfl rfl rfl fun _ => rfl
  base h _ _ _ _ := h
  unregisterIdles j h := h.log (fun _ => rfl)
  updateIdles j h := h
  flush j h := h.onLink j (·.flush) (fun l => l.quiet_flush) (fun l => l.codec_sendBase _)
    fun _ l => (Link.sendBase_spec l _).submitted
  unwatch {w} j h := by
    rw [Libet.unwatch]
    split
    · exact h.onLink j (·.enableWrite false) (fun l => l.quiet_enableWrite false)
        (fun l => l.codec_enableWrite false) fun _ l => l.submitted_enableWrite false
    · exact h
  shut {w j ch} h hch := h.set j rfl (by rw [hch]; rfl) rfl fun _ => rfl
  drop {w j} h := by
    apply h.update j
    constructor
    · simp
    · simp
    · exact (h j).submitted
    · exact fun hnot => ⟨rfl, ((h j).fresh hnot).2⟩
  callMsg {w j} h hcb := by
    simp only [callMsg, happ.onMsg]
    have hanswer := h.answer hcb ((w.con j).sock.received - (w.con j).input.size)
      (tryDecode app.plat (w.con j).input.content Slice.empty).2
      ((tryDecode app.plat (w.con j).input.content Slice.empty).2.bytes
        (w.con j).input.content)
    exact hanswer.set j rfl rfl rfl fun _ => rfl
  onRead {w j} h hcb := absurd hcb (h j).readCb
  callState {w j} h hcb := by
    rw [Libet.callState, if_pos hcb]
    exact (h.log fun _ => rfl).runOps (happ.onState _ j)
  onTimer j h := h.runOps (happ.onTimer _ j)
  onWrite j h := h.runOps (happ.onWrite _ j)

/-- A new connection has a number that no message has. -/
theorem echoes_handleAccept (happ : Echo app) (h : w.Echoes i) (fd : Int) (sock : Socket) :
    (handleAccept app fd sock w).Echoes i := by
  have hnew := (h w.nextConn).fresh (Nat.lt_irrefl _)
  intro j
  have hmsgs : messages j (handleAccept app fd sock w).trace = messages j w.trace := by
    show messages j (w.trace ++ [_]) = _
    rw [messages_append]
    exact List.append_nil _
  rw [hmsgs]
  show Echoing (Function.update w.con w.nextConn _ j) (messages j w.trace) (j < w.nextConn + 1)
    (j = i)
  rcases eq_or_ne j w.nextConn with rfl | hne
  · rw [Function.update_self, hnew.2]
    constructor
    · simp [acceptedCon, happ.readCb]
    · simp [acceptedCon, happ.readCb]
    · exact fun _ => rfl
    · exact fun hnot => absurd (Nat.lt_succ_self _) hnot
  · rw [Function.update_of_ne hne]
    refine { h j with fresh := fun hnot => (h j).fresh ?_ }
    exact fun hlt => hnot (Nat.lt_succ_of_lt hlt)

theorem echoes_init (i : ConnId) (wakeupFd listenFd : Int) :
    (World.init wakeupFd listenFd).Echoes i :=
  fun _ => ⟨by simp [World.init, TcpConn.new], by simp [World.init, TcpConn.new], fun _ => rfl,
    fun _ => ⟨rfl, rfl⟩⟩

/-! ### Frames put together again -/

/-- `htonl` undoes `ntohl`. -/
theorem htonl_ntohl {d : List UInt8} (h : 4 ≤ d.length) : htonl (ntohl d) = d.take 4 := by
  match d, h with
  | b₀ :: b₁ :: b₂ :: b₃ :: _, _ =>
      have h0 := b₀.toNat_lt
      have h1 := b₁.toNat_lt
      have h2 := b₂.toNat_lt
      have h3 := b₃.toNat_lt
      have hb : ∀ {n : Nat} (b : UInt8), n % 2 ^ 8 = b.toNat → UInt8.ofNat n = b := by
        intro n b hn
        apply UInt8.toNat_inj.mp
        rw [UInt8.toNat_ofNat', hn]
      simp only [htonl, ntohl, List.take_succ_cons, List.take_zero, List.cons.injEq, and_true]
      refine ⟨hb b₀ ?_, hb b₁ ?_, hb b₂ ?_, hb b₃ ?_⟩ <;> omega

/-- The bytes behind a header, framed, are the header and these bytes. -/
theorem frame_of_header {d : List UInt8} {n : Nat} (hn : ntohl d = n) (h4 : 4 ≤ n)
    (ho : n ≤ 2 ^ 20) (hle : n ≤ d.length) : frame ((d.drop 4).take (n - 4)) = d.take n := by
  have hlen : ((d.drop 4).take (n - 4)).length = n - 4 := by
    rw [List.length_take, List.length_drop]
    omega
  have hv : toUInt32 (4 + toInt32 ((n - 4 : Nat) : Int)) = n := by
    rw [toInt32_of_lt (by omega), toUInt32]
    omega
  have h4' : 4 + (n - 4) = n := by omega
  rw [frame, hlen, hv, ← hn, htonl_ntohl (by omega), hn, ← List.take_add, h4']

/-- **Encoding what was decoded gives the stream back.**  The frames of the messages
of one run of the loop, and the bytes it leaves over, are the bytes it was given,
if no header has wrapped around. -/
theorem frames_of_drain {p : Platform} (off : Nat) (d : List UInt8)
    (hsize : ∀ x ∈ (decodeLoop p off d).items, x.2.size ≤ 2 ^ 20) :
    ((decodeLoop p off d).items.map fun x => x.2.bytes (d.drop (x.1 - off))).flatMap frame ++
      (decodeLoop p off d).rest = d := by
  induction off, d using Framing.drain.induct (lengthFraming p) with
  | case1 off d hp =>
      rw [decodeLoop, Framing.drain_more hp]
      rfl
  | case2 off d hp =>
      rw [decodeLoop, Framing.drain_bad hp]
      rfl
  | case3 off d n m hp ih =>
      have hdrain : decodeLoop p off d =
          (decodeLoop p (off + n) (d.drop n)).prepend [(off, m)] := Framing.drain_item hp
      rw [hdrain] at hsize ⊢
      obtain ⟨h4, hend⟩ := slice_of_item hp
      have hm : 4 + m.size = n := hend (hsize (off, m) List.mem_cons_self)
      have hrest := ih fun x hx => hsize x (List.mem_cons_of_mem _ hx)
      -- the later messages lie behind the first frame
      have hlater : ∀ x ∈ (decodeLoop p (off + n) (d.drop n)).items,
          x.2.bytes (d.drop (x.1 - off)) = x.2.bytes ((d.drop n).drop (x.1 - (off + n))) := by
        intro x hx
        have hoff := Framing.off_le_of_mem_drain _ hx
        rw [List.drop_drop, show n + (x.1 - (off + n)) = x.1 - off by omega]
      have hfirst : frame (m.bytes d) = d.take n := by
        obtain ⟨heq, hpos⟩ := lengthParse_item hp
        obtain ⟨-, -, ho, hle, heq'⟩ :=
          tryDecode_pos (show 0 < (tryDecode p d Slice.empty).1 by rw [heq]; simpa using hpos)
        rw [heq, Prod.mk.injEq] at heq'
        have hn : ntohl d = n := by omega
        rw [Slice.bytes, h4, show m.size = n - 4 by omega]
        exact frame_of_header hn (by omega) (by omega) (by omega)
      simp only [Drained.prepend_items, Drained.prepend_rest, List.singleton_append,
        List.map_cons, List.flatMap_cons, Nat.sub_self, List.drop_zero]
      rw [List.map_congr_left hlater, hfirst, List.append_assoc, hrest, List.take_append_drop]

/-- A message inside the bytes that have arrived is not changed by those that follow. -/
theorem Slice.bytes_append {m : Slice} {d : List UInt8} {k : Nat} (h4 : m.off = 4)
    (hle : k + 4 + m.size ≤ d.length) (post : List UInt8) :
    m.bytes ((d ++ post).drop k) = m.bytes (d.drop k) := by
  have hlen : 4 + m.size ≤ (d.drop k).length := by
    rw [List.length_drop]
    omega
  rw [List.drop_append_of_le_length (by omega), Slice.bytes, Slice.bytes, h4,
    List.drop_append_of_le_length (by omega),
    List.take_append_of_le_length (by rw [List.length_drop]; omega)]

/-- What is shown of the messages of a stream, framed, with what the loop leaves
over, is the part of the stream that has arrived. -/
theorem frames_of_shows {p : Platform} {off : Nat} {pre post : List UInt8}
    {ms : List (Nat × Slice × List UInt8)}
    (h : Shows (pre ++ post) off (decodeLoop p off pre).items ms)
    (hsize : ∀ x ∈ ms, x.2.1.size ≤ 2 ^ 20) :
    ms.flatMap (fun x => frame x.2.2) ++ (decodeLoop p off pre).rest = pre := by
  obtain ⟨hitems, hbytes⟩ := h
  have hmem : ∀ x ∈ ms, (x.1, x.2.1) ∈ (decodeLoop p off pre).items := fun x hx =>
    hitems ▸ List.mem_map_of_mem hx
  have hshown : ms.map (fun x => x.2.2) =
      (decodeLoop p off pre).items.map fun x => x.2.bytes (pre.drop (x.1 - off)) := by
    rw [← hitems, List.map_map]
    apply List.map_congr_left
    intro x hx
    obtain ⟨h4, hle⟩ := inside_of_mem_drain (hmem x hx) (hsize x hx)
    exact (hbytes x hx (hsize x hx)).trans (Slice.bytes_append h4 hle post)
  have hdrain := frames_of_drain (p := p) off pre fun x hx => by
    rw [← hitems] at hx
    obtain ⟨y, hy, rfl⟩ := List.mem_map.mp hx
    exact hsize y hy
  rwa [← hshown, List.flatMap_map] at hdrain

/-! ### Runs -/

variable {as before : List Input} {wakeupFd listenFd : Int}

/-- **The frames of the messages delivered are what was sent.** -/
theorem echoes_of_run (happ : Echo app)
    (hrun : Exec.exec (worldStep app) (World.init wakeupFd listenFd) as = some w)
    (hops : ∀ op, .user op ∈ as → op.target = i → op.sends = false) : w.Echoes i := by
  refine Exec.invariant_along
    (G := fun _ a _ => ∀ op, a = .user op → op.target = i → op.sends = false)
    (fun s a s' hstep ha hs => ?_) ?_ hrun (echoes_init i wakeupFd listenFd)
  · exact (echoes_rule happ i).worldStep hstep hs
      (fun fd _ _ _ _ => echoes_handleAccept happ hs fd _)
      (fun _ _ _ _ => hs) (fun op heq => hs.runOp (ha op heq)) fun _ _ => hs
  · exact Exec.along_of_mem _ fun a ha op heq => hops op (heq ▸ ha)

/-- **An echo server sends back the stream, byte by byte.**  Connection `i` of such a
server reads messages until it is in the state `w'`, in any pieces, with the socket
taking the answers in any pieces, and whatever the other connections do meanwhile;
outside its callbacks the caller may send on the others too, but on connection `i` it
only calls `SendOutput`, `Close` and `AddIdleCB` (`hops`).  If it is still connected,
no `::send` has failed and no header has wrapped around (`hsize`: no message has come
with a header of 1, 2 or 3), then what it has sent and queued since `w` is what it has
received since then, up to the bytes that wait in `m_input` for the rest of their
message. -/
theorem echo_of_run (happ : Echo app) (h : ReadRun app i w as w')
    (hbefore : Exec.exec (worldStep app) (World.init wakeupFd listenFd) before = some w)
    (hops : ∀ op, .user op ∈ before ++ as → op.target = i → op.sends = false)
    (hs : (w'.con i).state = .connected) (hf : (w'.con i).sock.sendFailed = false)
    (hsize : ∀ x ∈ messages i w'.trace, x.2.1.size ≤ 2 ^ 20) :
    ∃ echoed,
      stream (w.con i).sock.recvs =
        echoed ++ (w'.con i).input.content ++ stream (w'.con i).sock.recvs ∧
      (w'.con i).sock.accepted ++ (w'.con i).output.content =
        (messages i w.trace).flatMap (fun x => frame x.2.2) ++ echoed := by
  have hrun : Exec.exec (worldStep app) (World.init wakeupFd listenFd) (before ++ as) =
      some w' := by
    rw [Exec.exec_append, hbefore]
    exact h.run
  have hsub := (echoes_of_run happ hrun hops i).submitted rfl
  have hsends := (sends_rule app).exec hrun (sends_init wakeupFd listenFd)
  have hch := channel_of_connected (good_of_exec hrun (good_init wakeupFd listenFd)) hs
  have hintact := (hsends i).intact hch hf
  rw [hsub] at hintact
  cases h.reading with
  | ended ms hclosed =>
      have hclosed : (w'.con i).state = .closed := hclosed
      rw [hclosed] at hs
      cases hs
  | live pre ms _ _ _ _ hS _ _ hpend hmsgs hshows =>
      have hmsgs : messages i w'.trace = messages i w.trace ++ ms := hmsgs
      have hpend : (w'.con i).input.content =
        (decodeLoop app.plat (w.con i).sock.received pre).rest := hpend
      refine ⟨ms.flatMap fun x => frame x.2.2, ?_, ?_⟩
      · have hsize' : ∀ x ∈ ms, x.2.1.size ≤ 2 ^ 20 := fun x hx =>
          hsize x (hmsgs ▸ List.mem_append_right _ hx)
        have hshows' := hshows
        rw [hS] at hshows'
        rw [hpend, frames_of_shows hshows' hsize']
        exact hS
      · rw [hintact, hmsgs, List.flatMap_append]

/-- A message in two pieces and the header of the next, answered to a socket that takes
two bytes and then blocks. -/
theorem echo_of_run_heartbeatTest :
    ∃ w w', ReadRun heartbeatTest 0 w [.readable 0, .readable 0] w' ∧
      ∃ echoed,
        stream (w.con 0).sock.recvs =
          echoed ++ (w'.con 0).input.content ++ stream (w'.con 0).sock.recvs ∧
        (w'.con 0).sock.accepted ++ (w'.con 0).output.content =
          (messages 0 w.trace).flatMap (fun x => frame x.2.2) ++ echoed := by
  have hrun : ((Exec.exec (worldStep heartbeatTest) (World.init 4 5)
        [.accept 6 [.data 0 [0, 0], .wouldBlock, .data 6 [7, 8], .data 0 [0, 0, 5], .wouldBlock]
          [.accept 1, .wouldBlock] [1], .writable 0]).map
      fun w => ((w.con 0).state, (w.con 0).readCb, (w.con 0).input.content,
        (w.con 0).sock.recvs)) =
      some (.connected, some .onMsg, [],
        [.data 0 [0, 0], .wouldBlock, .data 6 [7, 8], .data 0 [0, 0, 5], .wouldBlock]) := by
    decide +kernel
  have hrun' : (((Exec.exec (worldStep heartbeatTest) (World.init 4 5)
        [.accept 6 [.data 0 [0, 0], .wouldBlock, .data 6 [7, 8], .data 0 [0, 0, 5], .wouldBlock]
          [.accept 1, .wouldBlock] [1], .writable 0]).bind
      fun w => Exec.exec (worldStep heartbeatTest) w [.readable 0, .readable 0]).map fun w' =>
        ((w'.con 0).state, (w'.con 0).sock.sendFailed,
          (messages 0 w'.trace).map fun x => x.2.1.size)) =
      some (.connected, false, [2]) := by
    decide +kernel
  obtain ⟨w, hw, heq⟩ := Option.map_eq_some_iff.mp hrun
  rw [hw] at hrun'
  obtain ⟨w', hw', heq'⟩ := Option.map_eq_some_iff.mp hrun'
  simp only [Prod.mk.injEq] at heq heq'
  obtain ⟨hs, hcb, hempty, hscript⟩ := heq
  obtain ⟨hs', hf, hsizes⟩ := heq'
  have h : ReadRun heartbeatTest 0 w [.readable 0, .readable 0] w' :=
    ⟨⟨4, 5, _, hw⟩, hs, hcb, hempty, by rw [hscript]; trivial, hw',
      fun _ _ => ⟨trivial, fun _ _ => ⟨trivial, trivial⟩⟩⟩
  refine ⟨w, w', h, echo_of_run echo_heartbeatTest h hw ?_ hs' hf fun x hx => ?_⟩
  · intro op hop
    simp at hop
  · have hmem : x.2.1.size ∈ [2] := hsizes ▸ List.mem_map_of_mem hx
    rw [List.mem_singleton.mp hmem]
    decide

end Libet
