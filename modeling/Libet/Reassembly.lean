/-
Libet/Reassembly.lean

The messages a connection delivers do not depend on how its bytes arrive.

Between two events a connection that reads messages has delivered the messages
that one run of the loop of `OnMsg` finds in the bytes received so far, and
holds what that run leaves over (`Reading`).  A read adds the bytes of one burst:
by `Framing.drain_append` decoding them behind what was left over is decoding
the longer stream.  A failed decoding ends the connection, and by
`Framing.drain_append_failed` the rest of the stream would not have changed
anything.  Events of other connections, and of the caller, add nothing.

Main result: `reassembled_of_run`.
-/
import Libet.Lifecycle

namespace Libet

/-! ### What one connection does leaves the others alone -/

namespace Hub

variable {p : Platform} {i j : ConnId} {v v' v'' : Hub}

/-- From `v` to `v'` only connection `j` has changed, and only events of `j`
have happened. -/
structure Concerns (j : ConnId) (v v' : Hub) : Prop where
  peer : ∀ i, i ≠ j → v'.peer i = v.peer i
  trace : ∃ es, v'.trace = v.trace ++ es ∧ ∀ e ∈ es, e.conn = j

namespace Concerns

theorem refl (j : ConnId) (v : Hub) : Concerns j v v :=
  ⟨fun _ _ => rfl, [], (List.append_nil _).symm, fun _ he => by cases he⟩

theorem trans (h : Concerns j v v') (h' : Concerns j v' v'') : Concerns j v v'' := by
  obtain ⟨es, htr, hes⟩ := h.trace
  obtain ⟨es', htr', hes'⟩ := h'.trace
  refine ⟨fun i hi => (h'.peer i hi).trans (h.peer i hi), es ++ es', ?_, fun e he => ?_⟩
  · rw [htr', htr, List.append_assoc]
  · exact (List.mem_append.mp he).elim (hes e) (hes' e)

theorem put (v : Hub) (j : ConnId) (c : Peer) : Concerns j v (v.put j c) :=
  ⟨fun _ hi => put_peer_of_ne hi v c, [], (List.append_nil _).symm, fun _ he => by cases he⟩

theorem log (v : Hub) {e : Event} (he : e.conn = j) : Concerns j v (v.log e) :=
  ⟨fun _ _ => rfl, [e], rfl, fun _ he' => List.mem_singleton.mp he' ▸ he⟩

theorem setState (v : Hub) (j : ConnId) (s : ConnState) : Concerns j v (v.setState j s) := by
  rw [Hub.setState]
  split
  · exact refl j v
  · exact (put v j _).trans (log _ rfl)

theorem callState (v : Hub) (j : ConnId) : Concerns j v (v.callState j) := by
  rw [Hub.callState]
  split
  · exact log v rfl
  · exact refl j v

theorem shutChannel (v : Hub) (j : ConnId) : Concerns j v (v.shutChannel j) := by
  refine ⟨fun _ hi => shutChannel_peer_of_ne hi v, [], ?_, fun _ he => by cases he⟩
  rw [Hub.shutChannel]
  split <;> exact (List.append_nil _).symm

theorem terminate (v : Hub) (j : ConnId) : Concerns j v (v.terminate j) := by
  refine ⟨fun _ hi => terminate_peer_of_ne hi v, _, terminate_trace v j, fun e he => ?_⟩
  rw [← closingEvents] at he
  exact conn_of_mem_terminate he

theorem deliver (v : Hub) (j : ConnId) : Concerns j v (v.deliver p j) := by
  refine ⟨fun _ hi => put_peer_of_ne hi v _, _, rfl, fun e he => ?_⟩
  exact (ofReader_of_mem_msgEvents he).conn_eq

theorem callRead {close : Hub → Hub} (hclose : ∀ v, Concerns j v (close v)) (v : Hub) :
    Concerns j v (v.callRead p close j) := by
  have hlog : Concerns j v (v.log (.readCb j)) := log v rfl
  rw [Hub.callRead]
  split
  · exact refl j v
  · split
    · exact refl j v
    · exact hlog
    · apply hlog.trans
      rw [onMsg]
      split
      · exact ((deliver _ j).trans (log _ rfl)).trans (hclose _)
      · exact deliver _ j

theorem readDead (v : Hub) (j : ConnId) : Concerns j v (v.readDead p j) := by
  rw [Hub.readDead]
  split
  · exact (callRead (refl j) v).trans (terminate _ j)
  · exact (callRead (refl j) v).trans (terminate _ j)
  · exact refl j v

theorem closeChannel (v : Hub) (j : ConnId) : Concerns j v (v.closeChannel p j) := by
  rw [Hub.closeChannel]
  split
  · exact (shutChannel v j).trans (readDead _ j)
  · exact refl j v

theorem cleanup (v : Hub) (j : ConnId) : Concerns j v (v.cleanup p j) :=
  (callRead (closeChannel · j) v).trans (terminate _ j)

theorem handshake (v : Hub) (j : ConnId) : Concerns j v (v.handshake p j) := by
  rw [Hub.handshake]
  apply (put v j { v.peer j with selects := (v.peer j).selects.tail }).trans
  dsimp only
  split
  · apply ((setState _ j .connected).trans (callState _ j)).trans
    split
    · exact log _ rfl
    · exact refl j _
  · exact cleanup _ j

theorem readBurst (v : Hub) (j : ConnId) : Concerns j v (v.readBurst p j) := by
  rw [Hub.readBurst]
  refine (put v j { v.peer j with
    pending := (v.peer j).pending ++ (burst (v.peer j).recvs).1
    received := (v.peer j).received + (burst (v.peer j).recvs).1.length
    recvs := (burst (v.peer j).recvs).2.2 }).trans ?_
  dsimp only
  cases (burst (v.peer j).recvs).2.1 with
  | wouldBlock => exact callRead (closeChannel · j) _
  | closed | error => exact cleanup _ j

theorem read (v : Hub) (j : ConnId) : Concerns j v (v.read p j) := by
  rw [Hub.read]
  split
  · dsimp only
    split
    · split
      · exact (handshake v j).trans (readBurst _ j)
      · exact handshake v j
    · split
      · exact readBurst v j
      · exact refl j v
  · exact readDead v j

theorem write (v : Hub) (j : ConnId) : Concerns j v (v.write p j) := by
  rw [Hub.write]
  split
  · split
    · exact handshake v j
    · exact (callRead (refl j) v).trans (terminate _ j)
  · exact refl j v

end Concerns

end Hub

/-! ### The messages of a trace -/

/-- The messages delivered to the callback of connection `i`, in order: where
the frame starts in the stream, the slice, and the bytes it showed. -/
def messages (i : ConnId) (tr : List Event) : List (Nat × Slice × List UInt8) :=
  tr.filterMap fun
    | .msgCb j off msg bytes => if j = i then some (off, msg, bytes) else none
    | _ => none

/-- The decoding errors of connection `i`. -/
def errors (i : ConnId) (tr : List Event) : Nat := tr.count (.decodeError i)

theorem messages_append (i : ConnId) (tr es : List Event) :
    messages i (tr ++ es) = messages i tr ++ messages i es :=
  List.filterMap_append

theorem errors_append (i : ConnId) (tr es : List Event) :
    errors i (tr ++ es) = errors i tr + errors i es :=
  List.count_append

theorem messages_of_silent {i : ConnId} {es : List Event}
    (h : ∀ e ∈ es, ¬ Hub.OfReader i e) : messages i es = [] := by
  apply List.filterMap_eq_nil_iff.mpr
  intro e he
  cases e with
  | msgCb j off msg bytes =>
      apply if_neg
      intro hj
      apply h _ he
      rw [hj]
      exact .msgCb off msg bytes
  | _ => rfl

theorem errors_of_silent {i : ConnId} {es : List Event}
    (h : ∀ e ∈ es, ¬ Hub.OfReader i e) : errors i es = 0 :=
  List.count_eq_zero.mpr fun hmem => h _ hmem .decodeError

/-- The messages in the bytes a peer holds. -/
def Peer.shown (p : Platform) (c : Peer) : List (Nat × Slice × List UInt8) :=
  ((lengthFraming p).drain c.offset c.pending).items.map fun x =>
    (x.1, x.2, x.2.bytes (c.pending.drop (x.1 - c.offset)))

namespace Hub

variable {p : Platform} {i : ConnId} {v v' v'' : Hub}

theorem messages_msgEvents (i : ConnId) (off : Nat) (data : List UInt8)
    (items : List (Nat × Slice)) :
    messages i (msgEvents i off data items) =
      items.map fun x => (x.1, x.2, x.2.bytes (data.drop (x.1 - off))) := by
  induction items with
  | nil => rfl
  | cons x items ih => simp [messages, msgEvents]

theorem errors_msgEvents (i : ConnId) (off : Nat) (data : List UInt8)
    (items : List (Nat × Slice)) : errors i (msgEvents i off data items) = 0 :=
  List.count_eq_zero.mpr fun hmem => by
    obtain ⟨x, -, hx⟩ := List.mem_map.mp hmem
    cases hx

/-! ### Parts of a read -/

/-- Nothing is delivered or received. -/
structure Keeps (i : ConnId) (v v' : Hub) : Prop where
  messages_eq : messages i v'.trace = messages i v.trace
  pending_eq : (v'.peer i).pending = (v.peer i).pending

/-- What the peer holds is delivered. -/
structure Delivers (p : Platform) (i : ConnId) (v v' : Hub) : Prop where
  messages_eq : messages i v'.trace = messages i v.trace ++ (v.peer i).shown p
  pending_eq : (v'.peer i).pending =
    ((lengthFraming p).drain (v.peer i).offset (v.peer i).pending).rest
  errors_eq : (v.peer i).fails p = false → errors i v'.trace = errors i v.trace

theorem Keeps.trans (h : Keeps i v v') (h' : Keeps i v' v'') : Keeps i v v'' :=
  ⟨h'.messages_eq.trans h.messages_eq, h'.pending_eq.trans h.pending_eq⟩

theorem keeps_terminate (v : Hub) (i : ConnId) :
    Keeps i v (v.terminate i) ∧ errors i (v.terminate i).trace = errors i v.trace := by
  have hsilent : ∀ e ∈ v.movedEvents i (v.peer i).terminal ++
      (v.stateEvents i (v.peer i).terminal ++ v.closingEvents i), ¬ OfReader i e := by
    intro e he hread
    simp only [List.mem_append] at he
    rcases he with he | he | he
    · rw [eq_of_mem_movedEvents he] at hread; cases hread
    · rw [eq_of_mem_stateEvents he] at hread; cases hread
    · exact hread.not_silent (silent_of_mem_closingEvents he).1
  have htr := terminate_trace v i
  rw [← closingEvents] at htr
  refine ⟨⟨?_, by rw [terminate_peer]⟩, ?_⟩
  · rw [htr, messages_append, messages_of_silent hsilent, List.append_nil]
  · rw [htr, errors_append, errors_of_silent hsilent, Nat.add_zero]

theorem keeps_log (v : Hub) {e : Event} (he : messages i [e] = []) : Keeps i v (v.log e) :=
  ⟨by rw [show (v.log e).trace = v.trace ++ [e] from rfl, messages_append, he,
    List.append_nil], rfl⟩

/-- Nothing more can be cut off the bytes that `i` holds. -/
def Exhausted (p : Platform) (i : ConnId) (v : Hub) : Prop :=
  ∀ off, ((lengthFraming p).drain off (v.peer i).pending).items = [] ∧
    ((lengthFraming p).drain off (v.peer i).pending).rest = (v.peer i).pending

theorem exhausted_deliver (v : Hub) (i : ConnId) : Exhausted p i (v.deliver p i) := by
  intro off
  rw [deliver_peer, Framing.drain_rest]
  exact ⟨rfl, rfl⟩

theorem delivers_deliver (v : Hub) (i : ConnId) : Delivers p i v (v.deliver p i) := by
  refine ⟨?_, by rw [deliver_peer], fun _ => ?_⟩
  · show messages i (v.trace ++ _) = _
    rw [messages_append, messages_msgEvents]
    rfl
  · show errors i (v.trace ++ _) = _
    rw [errors_append, errors_msgEvents]
    rfl

theorem keeps_deliver (h : Exhausted p i v) : Keeps i v (v.deliver p i) := by
  obtain ⟨hitems, hrest⟩ := h (v.peer i).offset
  refine ⟨?_, by rw [deliver_peer, hrest]⟩
  rw [(delivers_deliver v i).messages_eq, Peer.shown, hitems]
  exact List.append_nil _

theorem keeps_callRead (h : Exhausted p i v) : Keeps i v (v.callRead p id i) := by
  have hlog : Keeps i v (v.log (.readCb i)) := keeps_log v rfl
  have hdel : Keeps i v (Hub.deliver p i (v.log (.readCb i))) :=
    hlog.trans (keeps_deliver (v := v.log (.readCb i)) h)
  rw [callRead]
  split
  · exact ⟨rfl, rfl⟩
  · split
    · exact ⟨rfl, rfl⟩
    · exact hlog
    · rw [onMsg]
      split
      · -- a second decoding error adds no message
        exact hdel.trans (keeps_log _ rfl)
      · exact hdel

/-- Closing the channel after the decoder has given up. -/
theorem keeps_closeChannel (h : Exhausted p i v) : Keeps i v (v.closeChannel p i) := by
  have hshut : Keeps i v (v.shutChannel i) := by
    refine ⟨?_, by rw [shutChannel_peer]⟩
    rw [shutChannel]
    split <;> rfl
  have h' : Exhausted p i (v.shutChannel i) := fun off => by
    rw [shutChannel_peer]
    exact h off
  rw [closeChannel]
  split
  · apply hshut.trans
    rw [readDead]
    split
    · exact (keeps_callRead h').trans (keeps_terminate _ i).1
    · exact (keeps_callRead h').trans (keeps_terminate _ i).1
    · exact ⟨rfl, rfl⟩
  · exact ⟨rfl, rfl⟩

theorem Delivers.keeps (h : Delivers p i v v') (h' : Keeps i v' v'')
    (he : (v.peer i).fails p = false → errors i v''.trace = errors i v'.trace) :
    Delivers p i v v'' :=
  ⟨h'.messages_eq.trans h.messages_eq, h'.pending_eq.trans h.pending_eq,
    fun hf => (he hf).trans (h.errors_eq hf)⟩

/-- The read callback, for a connection that reads messages. -/
theorem delivers_callRead (hcb : (v.peer i).readCb = some .onMsg) :
    Delivers p i v (v.callRead p (closeChannel p i) i) := by
  rw [callRead]
  split
  · rename_i hnil
    have hmore : ∀ off, (lengthFraming p).drain off (v.peer i).pending =
        ⟨[], (v.peer i).pending, false⟩ := fun off => by
      refine Framing.drain_more (F := lengthFraming p) ?_
      rw [hnil]
      exact lengthParse_nil p
    refine ⟨?_, by rw [hmore], fun _ => rfl⟩
    rw [Peer.shown, hmore]
    exact (List.append_nil _).symm
  · rw [hcb]
    have hlog : Keeps i v (v.log (.readCb i)) := keeps_log v rfl
    have hdel : Delivers p i v (Hub.deliver p i (v.log (.readCb i))) := by
      obtain ⟨h1, h2, h3⟩ := delivers_deliver (p := p) (v.log (.readCb i)) i
      refine ⟨h1.trans (by rw [hlog.messages_eq]; rfl), h2, fun hf => (h3 hf).trans ?_⟩
      show errors i (v.trace ++ [_]) = _
      rw [errors_append]
      rfl
    show Delivers p i v (onMsg p (closeChannel p i) i (v.log (.readCb i)))
    rw [onMsg]
    split
    · rename_i hf
      -- the messages in front of the bad header are delivered, and closing adds none
      refine hdel.keeps ((keeps_log _ rfl).trans (keeps_closeChannel ?_)) fun hf' => ?_
      · exact exhausted_deliver (v.log (.readCb i)) i
      · exact absurd (hf'.symm.trans hf) Bool.false_ne_true
    · exact hdel

/-! ### A read -/

theorem trivial_rule :
    Rule ⟨none, false, false, false⟩ (fun _ => True) (fun _ => True) (fun _ _ => True) := by
  constructor <;> intros <;> trivial

theorem callRead_of_not_fails {close : Hub → Hub} (hcb : (v.peer i).readCb = some .onMsg)
    (hf : (v.peer i).fails p = false) :
    (v.callRead p close i).peer i = { v.peer i with
      pending := ((lengthFraming p).drain (v.peer i).offset (v.peer i).pending).rest } := by
  rw [callRead]
  split
  · rename_i hnil
    have hmore : (lengthFraming p).drain (v.peer i).offset (v.peer i).pending = _ :=
      Framing.drain_more (by rw [hnil]; exact lengthParse_nil p)
    rw [hmore]
  · rw [hcb]
    show (onMsg p close i (v.log (.readCb i))).peer i = _
    rw [onMsg]
    rw [if_neg (by rw [log_peer, hf]; simp), deliver_peer]
    rfl

/-- What a read of a connected peer does: the messages in the bytes it then
holds are delivered; it stays connected if the burst ends in `WSAEWOULDBLOCK`
and decodes, and is closed otherwise. -/
theorem readBurst_spec (hs : (v.peer i).state = .connected) (hopen : (v.peer i).isOpen)
    (hcb : (v.peer i).readCb = some .onMsg) :
    Delivers p i (v.put i (v.peer i).feed) (v.readBurst p i) ∧
      (if (burst (v.peer i).recvs).2.1 = .wouldBlock ∧ (v.peer i).feed.fails p = false then
        (v.readBurst p i).peer i = { (v.peer i).feed with
          pending := ((lengthFraming p).drain (v.peer i).feed.offset
            (v.peer i).feed.pending).rest }
      else ((v.readBurst p i).peer i).state = .closed) := by
  have hpeer : (v.put i (v.peer i).feed).peer i = (v.peer i).feed := put_peer ..
  have hcb' : ((v.put i (v.peer i).feed).peer i).readCb = some .onMsg := by
    rw [hpeer]; exact hcb
  have hdel := delivers_callRead (p := p) hcb'
  obtain ⟨-, hstate⟩ := trivial_rule.callRead (p := p) (v := v.put i (v.peer i).feed) (i := i)
    trivial (by rw [hpeer]; exact hopen) (Or.inr (by rw [hpeer]; exact hs))
  rw [hpeer] at hstate
  have hburst : v.readBurst p i =
      endBurst p i (v.put i (v.peer i).feed) (burst (v.peer i).recvs).2.1 := rfl
  rw [hburst]
  cases (burst (v.peer i).recvs).2.1 with
  | wouldBlock =>
      refine ⟨hdel, ?_⟩
      split
      · rename_i hf
        rw [endBurst, callRead_of_not_fails hcb' (by rw [hpeer]; exact hf.2), hpeer]
      · rename_i hf
        rcases hstate with ⟨hgood, -⟩ | ⟨-, hclosed, -⟩
        · refine absurd ⟨hcb, ?_⟩ hgood
          simpa using hf
        · exact hclosed
  | closed | error =>
      obtain ⟨hkeeps, herrors⟩ := keeps_terminate
        ((v.put i (v.peer i).feed).callRead p (closeChannel p i) i) i
      refine ⟨hdel.keeps hkeeps fun _ => herrors, ?_⟩
      rw [if_neg (by simp), endBurst, cleanup, terminate_peer]
      -- the peer was connected before the teardown, or closed already
      rcases hstate with ⟨-, hsame, -⟩ | ⟨-, hclosed, -⟩
      · exact Peer.terminal_eq_closed (hsame.trans hs)
      · simp [Peer.terminal, hclosed]

end Hub

/-! ### Scripts -/

/-- The bytes of a script. -/
def stream : List RecvResult → List UInt8
  | [] => []
  | .data b bs :: rest => b :: bs ++ stream rest
  | _ :: rest => stream rest

/-- The end of the stream, or an error, comes last if it comes at all. -/
def Ends : List RecvResult → Prop
  | [] => True
  | .data _ _ :: rest | .wouldBlock :: rest => Ends rest
  | .closed :: rest | .error :: rest => rest = []

/-- A burst takes bytes off the front of the stream. -/
theorem burst_spec (script : List RecvResult) (h : Ends script) :
    stream script = (burst script).1 ++ stream (burst script).2.2 ∧
      Ends (burst script).2.2 ∧
      ((burst script).2.1 ≠ .wouldBlock → stream (burst script).2.2 = []) ∧
      (burst script).2.2.length ≤ script.length - 1 := by
  induction script with
  | nil => exact ⟨rfl, trivial, fun hne => absurd rfl hne, Nat.le_refl _⟩
  | cons r rest ih =>
      cases r with
      | data b bs =>
          -- the burst goes on behind a piece of data
          obtain ⟨h1, h2, h3, h4⟩ := ih h
          refine ⟨?_, h2, h3, h4.trans (Nat.sub_le _ _)⟩
          simp only [stream, burst, h1, List.cons_append, List.append_assoc]
      | wouldBlock => exact ⟨rfl, h, fun hne => absurd rfl hne, Nat.le_refl _⟩
      | closed | error =>
          have h : rest = [] := h
          subst h
          exact ⟨rfl, trivial, fun _ => rfl, Nat.le_refl _⟩

/-! ### What a connection has delivered between two events -/

/-- The messages `ms` are `items`; those whose slice has not wrapped around
showed the callback the bytes of the stream `S` behind their header. -/
def Shows (S : List UInt8) (off : Nat) (items : List (Nat × Slice))
    (ms : List (Nat × Slice × List UInt8)) : Prop :=
  ms.map (fun x => (x.1, x.2.1)) = items ∧
    ∀ x ∈ ms, x.2.1.size ≤ 2 ^ 20 → x.2.2 = x.2.1.bytes (S.drop (x.1 - off))

variable {p : Platform} {i j : ConnId} {S : List UInt8} {off : Nat} {tr : List Event}
variable {n : Nat} {v v' : Hub}

theorem Shows.append {items items' : List (Nat × Slice)}
    {ms ms' : List (Nat × Slice × List UInt8)} (h : Shows S off items ms)
    (h' : Shows S off items' ms') : Shows S off (items ++ items') (ms ++ ms') :=
  ⟨by rw [List.map_append, h.1, h'.1],
    fun x hx => (List.mem_append.mp hx).elim (h.2 x) (h'.2 x)⟩

/-- The messages in the bytes a peer holds are shown as they are in the stream
these bytes belong to. -/
theorem shows_shown {c : Peer} {front post : List UInt8} (hoff : c.offset = off + front.length)
    (hS : S = front ++ c.pending ++ post) :
    Shows S off ((lengthFraming p).drain c.offset c.pending).items (c.shown p) := by
  refine ⟨by simp [Peer.shown, Function.comp_def], fun x hx hsize => ?_⟩
  obtain ⟨y, hy, rfl⟩ := List.mem_map.mp hx
  obtain ⟨h4, hle⟩ := inside_of_mem_drain hy hsize
  have hge := Framing.off_le_of_mem_drain _ hy
  -- the frame lies in the bytes held, so those behind them do not matter
  have hdrop : S.drop (y.1 - off) = c.pending.drop (y.1 - c.offset) ++ post := by
    rw [hS, List.append_assoc, show y.1 - off = front.length + (y.1 - c.offset) by omega,
      List.drop_length_add_append, List.drop_append_of_le_length (by omega)]
  have hlen : 4 + y.2.size ≤ (c.pending.drop (y.1 - c.offset)).length := by
    rw [List.length_drop]; omega
  simp only [hdrop, Slice.bytes, h4]
  rw [List.drop_append_of_le_length (by omega),
    List.take_append_of_le_length (by rw [List.length_drop]; omega)]

/-- Connection `i`, which reads the messages of the stream `S`, between two
events; `off` and `tr` are the offset of the first byte of `S` and the trace
when the connection had read nothing of it, and `n` reads see all of it. -/
inductive Reading (p : Platform) (i : ConnId) (S : List UInt8) (off : Nat) (tr : List Event)
    (n : Nat) (v : Hub) : Prop
  /-- the bytes `pre` have arrived and do decode -/
  | live (pre : List UInt8) (ms : List (Nat × Slice × List UInt8))
      (state : (v.peer i).state = .connected)
      (readCb : (v.peer i).readCb = some .onMsg)
      (ends : Ends (v.peer i).recvs)
      (length_le : (v.peer i).recvs.length ≤ n)
      (stream_eq : S = pre ++ stream (v.peer i).recvs)
      (received : (v.peer i).received = off + pre.length)
      (good : (decodeLoop p off pre).failed = false)
      (pending : (v.peer i).pending = (decodeLoop p off pre).rest)
      (messages_eq : messages i v.trace = messages i tr ++ ms)
      (shows_ms : Shows S off (decodeLoop p off pre).items ms)
      (errors_eq : errors i v.trace = errors i tr)
  /-- the connection is closed -/
  | ended (ms : List (Nat × Slice × List UInt8))
      (state : (v.peer i).state = .closed)
      (messages_eq : messages i v.trace = messages i tr ++ ms)
      (shows_ms : Shows S off (decodeLoop p off S).items ms)
      (good : (decodeLoop p off S).failed = false →
        (v.peer i).pending = (decodeLoop p off S).rest ∧ errors i v.trace = errors i tr)

/-- Only the peer, its messages and its errors matter. -/
theorem Reading.congr (h : Reading p i S off tr n v) (hpeer : v'.peer i = v.peer i)
    (hmessages : messages i v'.trace = messages i v.trace)
    (herrors : errors i v'.trace = errors i v.trace) : Reading p i S off tr n v' := by
  cases h with
  | live pre ms h1 h2 h3 h4 h5 h6 h7 h8 h9 h10 h11 =>
      rw [← hpeer] at h1 h2 h3 h4 h5 h6 h8
      exact .live pre ms h1 h2 h3 h4 h5 h6 h7 h8 (hmessages.trans h9) h10 (herrors.trans h11)
  | ended ms h1 h2 h3 h4 =>
      rw [← hpeer] at h1
      refine .ended ms h1 (hmessages.trans h2) h3 fun hf => ?_
      rw [hpeer, herrors]
      exact h4 hf

/-- Events of another connection. -/
theorem Reading.concerns (h : Reading p i S off tr n v) (hc : Hub.Concerns j v v')
    (hne : i ≠ j) : Reading p i S off tr n v' := by
  obtain ⟨es, htr, hes⟩ := hc.trace
  have hsilent : ∀ e ∈ es, ¬ Hub.OfReader i e := fun e he hread =>
    hne (hread.conn_eq.symm.trans (hes e he))
  apply h.congr (hc.peer i hne)
  · rw [htr, messages_append, messages_of_silent hsilent, List.append_nil]
  · rw [htr, errors_append, errors_of_silent hsilent, Nat.add_zero]

/-- Decoding a burst behind what was left over is decoding the longer stream. -/
theorem decodeLoop_feed {c : Peer} {pre : List UInt8} (hrec : c.received = off + pre.length)
    (hpend : c.pending = (decodeLoop p off pre).rest) :
    ∃ front, c.feed.offset = off + front.length ∧
      pre ++ (burst c.recvs).1 = front ++ c.feed.pending ∧
      decodeLoop p off (pre ++ (burst c.recvs).1) =
        ((lengthFraming p).drain c.feed.offset c.feed.pending).prepend
          (decodeLoop p off pre).items := by
  obtain ⟨front, hfront⟩ := Framing.drain_rest_suffix (lengthFraming p) off pre
  rw [← decodeLoop, ← hpend] at hfront
  have hlen : front.length + c.pending.length = pre.length := by
    rw [← hfront, List.length_append]
  have hoff : c.feed.offset = off + front.length := by
    simp only [Peer.offset, Peer.feed, hrec, List.length_append]
    omega
  refine ⟨front, hoff, ?_, ?_⟩
  · rw [← hfront, List.append_assoc]; rfl
  · rw [decodeLoop, Framing.drain_append, ← decodeLoop, ← hpend, hoff,
      show front.length = pre.length - c.pending.length by omega]
    rfl

/-- A read. -/
theorem Reading.read (h : Reading p i S off tr n v) (hv : v.Settled) :
    Reading p i S off tr (n - 1) (v.read p i) := by
  cases h with
  | live pre ms hs hcb hends hlen hS hrec hgood hpend hmsgs hshows herr =>
      have hopen : (v.peer i).isOpen = true := by rw [hv.open_iff, hs]; rfl
      have hne : ¬ (v.peer i).state = .handshaking := by rw [hs]; simp
      have hread : v.read p i = v.readBurst p i := by
        rw [Hub.read, if_pos hopen, if_neg hne]
        exact if_pos hs
      obtain ⟨⟨hdelMsgs, hdelPend, hdelErr⟩, hpeer⟩ :=
        Hub.readBurst_spec (p := p) hs hopen hcb
      rw [Hub.put_peer] at hdelMsgs hdelPend hdelErr
      obtain ⟨hburst, hends', hstop, hlen'⟩ := burst_spec _ hends
      obtain ⟨front, hoff, hfront, hdecode⟩ := decodeLoop_feed hrec hpend
      have hS' : S = pre ++ (burst (v.peer i).recvs).1 ++
          stream (burst (v.peer i).recvs).2.2 := by
        rw [List.append_assoc, ← hburst]; exact hS
      have hmsgs' : messages i (v.readBurst p i).trace =
          messages i tr ++ (ms ++ (v.peer i).feed.shown p) := by
        rw [hdelMsgs, ← List.append_assoc, ← hmsgs]; rfl
      have hshows' : Shows S off (decodeLoop p off (pre ++ (burst (v.peer i).recvs).1)).items
          (ms ++ (v.peer i).feed.shown p) := by
        rw [hdecode]
        exact hshows.append (shows_shown hoff (by rw [hS', hfront]))
      have hfails : (decodeLoop p off (pre ++ (burst (v.peer i).recvs).1)).failed =
          (v.peer i).feed.fails p := by rw [hdecode]; rfl
      have hrest : (decodeLoop p off (pre ++ (burst (v.peer i).recvs).1)).rest =
          ((lengthFraming p).drain (v.peer i).feed.offset (v.peer i).feed.pending).rest := by
        rw [hdecode]; rfl
      rw [hread]
      split at hpeer
      · rename_i hcont
        -- everything decoded so far, and the socket would block: still reading
        refine .live (pre ++ (burst (v.peer i).recvs).1) _ (by rw [hpeer]; exact hs)
          (by rw [hpeer]; exact hcb) (by rw [hpeer]; exact hends')
          (by rw [hpeer]; exact hlen'.trans (Nat.sub_le_sub_right hlen 1))
          (by rw [hpeer]; exact hS') ?_ (hfails.trans hcont.2) (hdelPend.trans hrest.symm)
          hmsgs' hshows' ((hdelErr hcont.2).trans herr)
        rw [hpeer, List.length_append, ← Nat.add_assoc, ← hrec]
        rfl
      · rename_i hcont
        cases hf : (v.peer i).feed.fails p with
        | true =>
            -- the rest of the stream does not matter any more
            have hall := Framing.drain_append_failed (lengthFraming p) off _
              (stream (burst (v.peer i).recvs).2.2) (hfails.trans hf)
            rw [← hS', ← decodeLoop, ← decodeLoop] at hall
            refine .ended _ hpeer hmsgs' (by rw [hall]; exact hshows') fun hgood' => ?_
            rw [hall] at hgood'
            cases hgood'
        | false =>
            -- the stream has ended, so what was received is all of it
            have hlast := hstop fun hw => hcont ⟨hw, hf⟩
            rw [hlast, List.append_nil] at hS'
            have hall := congrArg (decodeLoop p off) hS'
            refine .ended _ hpeer hmsgs' (by rw [hall]; exact hshows') fun _ => ⟨?_, ?_⟩
            · rw [hall, hrest]; exact hdelPend
            · exact (hdelErr hf).trans herr
  | ended ms hs hmsgs hshows hgood =>
      -- a closed connection is read no more
      have hshut : ¬ (v.peer i).isOpen = true := by rw [hv.open_iff, hs]; simp [ConnState.live]
      rw [Hub.read, if_neg hshut, Hub.readDead_of_not_live (by rw [hs]; simp [ConnState.live])]
      exact .ended ms hs hmsgs hshows hgood

/-! ### Runs -/

/-- An event is not a posted close of connection `i` being carried out. -/
def NotClosing (i : ConnId) (w : World) (a : Input) (_ : World) : Prop :=
  match a with
  | .task => w.base.tasks.head? ≠ some i
  | _ => True

/-- The poller calls `HandleRead` of connection `i`. -/
def Input.isReadable (i : ConnId) : Input → Bool
  | .readable j => j == i
  | _ => false

variable {app : App} {w w' : World} {a : Input} {as : List Input}

/-- Any event but a close. -/
theorem reading_of_worldStep (hstep : worldStep app w a = some w')
    (hclosing : NotClosing i w a w') (hw : w.Good) (hcon : w.hub.Consistent)
    (h : Reading app.plat i S off tr n w.hub) :
    Reading app.plat i S off tr (n - (a.isReadable i).toNat) w'.hub := by
  have hsim := (worldStep_refines hstep hw.refines).hub
  rw [hsim]
  cases a with
  | accept fd recvs sends selects =>
      -- the new connection has a number of its own
      have hne : i ≠ w.hub.nextConn := fun e => by
        have hfresh := hcon.fresh i (Nat.le_of_eq e.symm)
        cases h with
        | live _ _ hs => rw [hs] at hfresh; cases hfresh
        | ended _ hs => rw [hs] at hfresh; cases hfresh
      refine h.concerns (j := w.hub.nextConn) ⟨fun k hk => Hub.put_peer_of_ne hk .., ?_⟩ hne
      exact ⟨[.moved w.hub.nextConn .invalid .handshaking], rfl,
        fun e he => by rw [List.mem_singleton.mp he]; rfl⟩
  | readable j =>
      rcases eq_or_ne i j with rfl | hne
      · rw [Input.isReadable, beq_self_eq_true]
        exact h.read hw.settled
      · rw [Input.isReadable, beq_eq_false_iff_ne.mpr hne.symm]
        exact h.concerns (Hub.Concerns.read w.hub j) hne
  | writable j =>
      rcases eq_or_ne i j with rfl | hne
      · -- `HandleWrite` touches the receiving side in the handshake only
        have hs : ¬ (w.hub.peer i).state = .handshaking := by
          cases h with
          | live _ _ hs => rw [hs]; simp
          | ended _ hs => rw [hs]; simp
        show Reading _ _ _ _ _ _ (w.hub.write app.plat i)
        rw [Hub.write, if_neg hs]
        exact h
      · exact h.concerns (Hub.Concerns.write w.hub j) hne
  | task =>
      have hclosing : w.base.tasks.head? ≠ some i := hclosing
      rw [Input.action]
      cases hhead : w.base.tasks.head? with
      | none => exact h
      | some j =>
          exact h.concerns (Hub.Concerns.closeChannel w.hub j) fun e => hclosing (e ▸ hhead)
  | user op => exact h
  | tick now => exact h

theorem reading_of_exec (hrun : Exec.exec (worldStep app) w as = some w')
    (hclosing : Exec.Along (worldStep app) (NotClosing i) w as) (hw : w.Good)
    (hcon : w.hub.Consistent) (h : Reading app.plat i S off tr n w.hub) :
    Reading app.plat i S off tr (n - as.countP (Input.isReadable i)) w'.hub := by
  induction as generalizing w n with
  | nil =>
      cases hrun
      exact h
  | cons a as ih =>
      obtain ⟨w₁, hstep, hrest⟩ := Exec.exec_cons_some hrun
      obtain ⟨hfirst, hclosing⟩ := hclosing w₁ hstep
      have hcon' := ok_of_worldStep (Hub.consistent_rule app.slots) hstep hw hcon
        fun _ _ => Or.inl trivial
      have hnext := ih hrest hclosing (good_of_worldStep hstep hw) hcon'
        (reading_of_worldStep hstep hfirst hw hcon h)
      rw [Nat.sub_sub] at hnext
      rw [List.countP_cons, Nat.add_comm]
      cases ha : a.isReadable i <;> simpa [ha] using hnext

/-- A connected connection that has consumed everything received. -/
theorem reading_start (hs : (w.con i).state = .connected)
    (hcb : (w.con i).readCb = some .onMsg) (hempty : (w.con i).input.content = [])
    (hends : Ends (w.con i).sock.recvs) :
    Reading p i (stream (w.con i).sock.recvs) (w.con i).sock.received w.trace
      (w.con i).sock.recvs.length w.hub := by
  have hnil : decodeLoop p (w.con i).sock.received [] = ⟨[], [], false⟩ :=
    Framing.drain_more (F := lengthFraming p) (lengthParse_nil p)
  refine .live [] [] hs hcb hends (Nat.le_refl _) rfl rfl (by rw [hnil]) ?_ ?_ ?_ rfl
  · rw [hnil]; exact hempty
  · exact (List.append_nil _).symm
  · rw [hnil]
    exact ⟨rfl, fun x hx => by cases hx⟩

/-- All bytes of the stream have arrived, or the connection is closed. -/
theorem Reading.finish (h : Reading p i S off tr n v)
    (hdone : (v.peer i).state = .connected → stream (v.peer i).recvs = []) :
    ∃ ms, messages i v.trace = messages i tr ++ ms ∧ Shows S off (decodeLoop p off S).items ms ∧
      ((decodeLoop p off S).failed = false →
        (v.peer i).pending = (decodeLoop p off S).rest ∧ errors i v.trace = errors i tr) := by
  cases h with
  | live pre ms hs hcb hends hlen hS hrec hgood hpend hmsgs hshows herr =>
      have hall : S = pre := by rw [hS, hdone hs, List.append_nil]
      rw [← hall] at hpend hshows
      exact ⟨ms, hmsgs, hshows, fun _ => ⟨hpend, herr⟩⟩
  | ended ms hs hmsgs hshows hgood => exact ⟨ms, hmsgs, hshows, hgood⟩

/-- The run `as` from `w` to `w'`, in which connection `i` reads messages.  In
`w`, which is some reachable state, it is connected and has nothing in
`m_input`; what its socket says from there on ends with the stream.  Whatever
else happens, no posted close of it is carried out. -/
structure ReadRun (app : App) (i : ConnId) (w : World) (as : List Input) (w' : World) :
    Prop where
  reached : ∃ wakeupFd listenFd before,
    Exec.exec (worldStep app) (World.init wakeupFd listenFd) before = some w
  state_eq : (w.con i).state = .connected
  readCb_eq : (w.con i).readCb = some .onMsg
  content_nil : (w.con i).input.content = []
  ends : Ends (w.con i).sock.recvs
  run : Exec.exec (worldStep app) w as = some w'
  not_closing : Exec.Along (worldStep app) (NotClosing i) w as

/-- The connection reads the stream of its script. -/
theorem ReadRun.reading (h : ReadRun app i w as w') :
    Reading app.plat i (stream (w.con i).sock.recvs) (w.con i).sock.received w.trace
      ((w.con i).sock.recvs.length - as.countP (Input.isReadable i)) w'.hub := by
  obtain ⟨wakeupFd, listenFd, before, hbefore⟩ := h.reached
  exact reading_of_exec h.run h.not_closing (good_of_exec hbefore (good_init wakeupFd listenFd))
    (consistent_of_run hbefore) (reading_start h.state_eq h.readCb_eq h.content_nil h.ends)

/-- A connection that is read once for every result of its script receives all
of it, if it is not closed before. -/
theorem ReadRun.received (h : ReadRun app i w as w')
    (hreads : (w.con i).sock.recvs.length ≤ as.countP (Input.isReadable i))
    (hs' : (w'.con i).state = .connected) : stream (w'.con i).sock.recvs = [] := by
  have hend := h.reading
  rw [Nat.sub_eq_zero_of_le hreads] at hend
  cases hend with
  | live _ _ _ _ _ hlen =>
      have hnil : (w'.con i).sock.recvs = [] :=
        List.eq_nil_of_length_eq_zero (Nat.le_zero.mp hlen)
      rw [hnil]
      rfl
  | ended _ hclosed =>
      have hclosed : (w'.con i).state = .closed := hclosed
      rw [hclosed] at hs'
      cases hs'

/-- **Reassembly does not depend on how the bytes arrive.**  A connection reads
messages until all bytes of its script have arrived or it is closed, in any
pieces and at any time.  Then the messages delivered are those that one run of
the loop of `OnMsg` over the whole stream finds, and if that run meets no error,
the bytes left in `m_input` are those that it leaves over. -/
theorem reassembled_of_run (h : ReadRun app i w as w')
    (hdone : (w'.con i).state = .connected → stream (w'.con i).sock.recvs = []) :
    let loop := decodeLoop app.plat (w.con i).sock.received (stream (w.con i).sock.recvs)
    ∃ ms, messages i w'.trace = messages i w.trace ++ ms ∧
      ms.map (fun x => (x.1, x.2.1)) = loop.items ∧
      (loop.failed = false → (w'.con i).input.content = loop.rest) := by
  obtain ⟨ms, hmsgs, hshows, hrest⟩ := h.reading.finish hdone
  exact ⟨ms, hmsgs, hshows.1, fun hf => (hrest hf).1⟩

/-- Two frames cut inside the header and inside the body, with the end of the
stream behind them. -/
theorem reassembled_of_run_heartbeatTest :
    ∃ w w', ReadRun heartbeatTest 0 w [.readable 0, .readable 0, .readable 0] w' ∧
      (w.con 0).sock.recvs = [.data 0 [0, 0], .wouldBlock, .data 6 [7], .data 8 [0, 0, 0, 5],
        .wouldBlock, .data 9 [], .closed] ∧
      (w'.con 0).state = .closed ∧
      ∃ ms, messages 0 w'.trace = messages 0 w.trace ++ ms ∧
        ms.map (fun x => (x.1, x.2.1)) = [(0, ⟨4, 2⟩), (6, ⟨4, 1⟩)] ∧
        (w'.con 0).input.content = [] := by
  have hrun : ((Exec.exec (worldStep heartbeatTest) (World.init 4 5)
        [.accept 6 [.data 0 [0, 0], .wouldBlock, .data 6 [7], .data 8 [0, 0, 0, 5], .wouldBlock,
          .data 9 [], .closed] [] [1], .writable 0]).map
      fun w => ((w.con 0).state, (w.con 0).readCb, (w.con 0).input.content,
        (w.con 0).sock.received, (w.con 0).sock.recvs)) =
      some (.connected, some .onMsg, [], 0,
        [.data 0 [0, 0], .wouldBlock, .data 6 [7], .data 8 [0, 0, 0, 5], .wouldBlock,
          .data 9 [], .closed]) := by
    decide +kernel
  have hrun' : (((Exec.exec (worldStep heartbeatTest) (World.init 4 5)
        [.accept 6 [.data 0 [0, 0], .wouldBlock, .data 6 [7], .data 8 [0, 0, 0, 5], .wouldBlock,
          .data 9 [], .closed] [] [1], .writable 0]).bind
      fun w => Exec.exec (worldStep heartbeatTest) w
        [.readable 0, .readable 0, .readable 0]).map fun w' => (w'.con 0).state) =
      some .closed := by
    decide +kernel
  obtain ⟨w, hw, heq⟩ := Option.map_eq_some_iff.mp hrun
  rw [hw] at hrun'
  obtain ⟨w', hw', hs'⟩ := Option.map_eq_some_iff.mp hrun'
  simp only [Prod.mk.injEq] at heq
  obtain ⟨hs, hcb, hempty, hrec, hscript⟩ := heq
  have h : ReadRun heartbeatTest 0 w [.readable 0, .readable 0, .readable 0] w' :=
    ⟨⟨4, 5, _, hw⟩, hs, hcb, hempty, by rw [hscript]; exact rfl, hw',
      fun _ _ => ⟨trivial, fun _ _ => ⟨trivial, fun _ _ => ⟨trivial, trivial⟩⟩⟩⟩
  obtain ⟨ms, hmsgs, hitems, hrest⟩ := reassembled_of_run h fun h => by rw [hs'] at h; cases h
  rw [hrec, hscript] at hitems hrest
  exact ⟨w, w', h, hscript, hs', ms, hmsgs, hitems.trans (by decide +kernel),
    (hrest (by decide +kernel)).trans (by decide +kernel)⟩

end Libet
