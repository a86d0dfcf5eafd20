/-
Libet/Lifecycle.lean

The life of a connection.

`path s` is the way to state `s`.  The trace of a run records every change of
`m_state` and every call of the state callback; both lists are functions of the
state that has been reached: the moves of a connection are the steps of its
path, and its state callback, if there is one, has seen all of the path behind
`Handshaking`.  A second teardown, which a decoding error can bring about, finds
the connection closed and the callback reset and adds nothing, if there still is a
connection to find (`Libet.Lifetime`).

Main result: `lifecycle_of_run`.
-/
import Libet.Registry

namespace Libet

/-- The states that a connection in state `s` has been in, in order, after
`Invalid`. -/
def ConnState.path : ConnState → List ConnState
  | .invalid => []
  | .handshaking => [.handshaking]
  | .connected => [.handshaking, .connected]
  | .closed => [.handshaking, .connected, .closed]
  | .failed => [.handshaking, .failed]

/-- The moves along the path. -/
def ConnState.steps (s : ConnState) : List (ConnState × ConnState) :=
  (.invalid :: s.path).zip s.path

/-- What a state callback has seen of the path. -/
def ConnState.notices (s : ConnState) : List ConnState := s.path.tail

/-- The connection an event is about. -/
def Event.conn : Event → ConnId
  | .moved i _ _ | .stateCb i _ | .timerCb i | .readCb i | .msgCb i _ _ _ | .decodeError i
  | .unregisteredIdles i | .removedConn i | .deletedChannel i _ | .cleanedUp i => i

/-- The changes of `m_state` of connection `i`, in order. -/
def moves (i : ConnId) (tr : List Event) : List (ConnState × ConnState) :=
  tr.filterMap fun
    | .moved j s s' => if j = i then some (s, s') else none
    | _ => none

/-- The states its state callback has seen, in order. -/
def notified (i : ConnId) (tr : List Event) : List ConnState :=
  tr.filterMap fun
    | .stateCb j s => if j = i then some s else none
    | _ => none

theorem moves_append (i : ConnId) (tr es : List Event) :
    moves i (tr ++ es) = moves i tr ++ moves i es :=
  List.filterMap_append

theorem notified_append (i : ConnId) (tr es : List Event) :
    notified i (tr ++ es) = notified i tr ++ notified i es :=
  List.filterMap_append

/-- An event that is no move, no notification and no sign of the reader of
connection `i`. -/
inductive Silent (i : ConnId) : Event → Prop
  | other {e : Event} (h : e.conn ≠ i) : Silent i e
  | timerCb : Silent i (.timerCb i)
  | unregisteredIdles : Silent i (.unregisteredIdles i)
  | removedConn : Silent i (.removedConn i)
  | deletedChannel (ch : ChannelId) : Silent i (.deletedChannel i ch)
  | cleanedUp : Silent i (.cleanedUp i)

theorem moves_of_silent {i : ConnId} {es : List Event} (h : ∀ e ∈ es, Silent i e) :
    moves i es = [] := by
  apply List.filterMap_eq_nil_iff.mpr
  intro e he
  cases h e he with
  | other hne =>
      cases e with
      | moved j s s' => exact if_neg hne
      | _ => rfl
  | _ => rfl

theorem notified_of_silent {i : ConnId} {es : List Event} (h : ∀ e ∈ es, Silent i e) :
    notified i es = [] := by
  apply List.filterMap_eq_nil_iff.mpr
  intro e he
  cases h e he with
  | other hne =>
      cases e with
      | stateCb j s => exact if_neg hne
      | _ => rfl
  | _ => rfl

namespace Hub

variable {slots : Slots} {i j : ConnId} {v v' : Hub} {es : List Event}

theorem OfReader.conn_eq {e : Event} (h : OfReader i e) : e.conn = i := by
  cases h <;> rfl

theorem OfReader.not_silent {e : Event} (h : OfReader i e) : ¬ Silent i e := by
  intro hsilent
  cases hsilent with
  | other hne => exact hne h.conn_eq
  | _ => cases h

/-- When the reader of `i` is heard, `i` is connected, and its state callback
has seen so and nothing else. -/
def HeardConnected (slots : Slots) (i : ConnId) (tr : List Event) : Prop :=
  ∀ pre e post, tr = pre ++ e :: post → OfReader i e →
    moves i pre = ConnState.connected.steps ∧
      notified i pre = if slots.stateCb then ConnState.connected.notices else []

theorem HeardConnected.append {tr : List Event} (h : HeardConnected slots i tr)
    (hes : ∀ e ∈ es, ¬ OfReader i e) : HeardConnected slots i (tr ++ es) := by
  intro pre e post heq hread
  rcases List.append_eq_append_iff.mp heq with ⟨mid, rfl, hmid⟩ | ⟨mid, htr, hmid⟩
  · -- the event is one of the new ones, which are none of the reader
    exact absurd hread (hes e (hmid ▸ by simp))
  · cases mid with
    | nil => exact absurd hread (hes e (by rw [List.nil_append] at hmid; rw [← hmid]; simp))
    | cons e' mid =>
        obtain ⟨rfl, rfl⟩ := List.cons.inj hmid
        exact h pre e mid htr hread

/-- What the trace tells of connection `i` agrees with its state. -/
structure Lifecycle (slots : Slots) (i : ConnId) (v : Hub) : Prop where
  moves_eq : moves i v.trace = (v.peer i).state.steps
  notified_eq : notified i v.trace =
    if slots.stateCb then (v.peer i).state.notices else []
  stateCb_eq : (v.peer i).state.live → (v.peer i).stateCb = slots.stateCb
  heard : HeardConnected slots i v.trace
  cleaned : .cleanedUp i ∈ v.trace →
    (v.peer i).state = .closed ∨ (v.peer i).state = .failed

/-! ### The trace grows -/

/-- By silent events, and the state stays. -/
theorem Lifecycle.frame (h : v.Lifecycle slots i) (htr : v'.trace = v.trace ++ es)
    (hstate : (v'.peer i).state = (v.peer i).state)
    (hcb : (v.peer i).state.live → (v'.peer i).stateCb = (v.peer i).stateCb)
    (hes : ∀ e ∈ es, Silent i e)
    (hend : .cleanedUp i ∈ es → (v.peer i).state = .closed ∨ (v.peer i).state = .failed) :
    v'.Lifecycle slots i := by
  refine ⟨?_, ?_, fun hlive => ?_, ?_, fun hmem => ?_⟩
  · rw [htr, moves_append, moves_of_silent hes, List.append_nil, hstate, h.moves_eq]
  · rw [htr, notified_append, notified_of_silent hes, List.append_nil, hstate, h.notified_eq]
  · rw [hstate] at hlive
    rw [hcb hlive, h.stateCb_eq hlive]
  · rw [htr]
    exact h.heard.append fun e he hread => hread.not_silent (hes e he)
  · rw [htr, List.mem_append] at hmem
    rw [hstate]
    exact hmem.elim h.cleaned hend

/-- By events of another connection. -/
theorem Lifecycle.other (h : v.Lifecycle slots i) (htr : v'.trace = v.trace ++ es)
    (hpeer : v'.peer i = v.peer i) (hne : i ≠ j) (hes : ∀ e ∈ es, e.conn = j) :
    v'.Lifecycle slots i :=
  h.frame htr (by rw [hpeer]) (fun _ => by rw [hpeer])
    (fun e he => .other fun hc => hne (hc.symm.trans (hes e he)))
    fun he => absurd (hes _ he) hne

/-- By an event of the reader of a connected peer. -/
theorem Lifecycle.read (h : v.Lifecycle slots i) (hs : (v.peer j).state = .connected)
    {e : Event} (he : OfReader j e) : (v.log e).Lifecycle slots i := by
  rcases eq_or_ne i j with rfl | hne
  · have hmoves : moves i [e] = [] := by cases he <;> rfl
    have hnotified : notified i [e] = [] := by cases he <;> rfl
    have htr : (v.log e).trace = v.trace ++ [e] := rfl
    refine ⟨?_, ?_, h.stateCb_eq, fun pre e' post heq hread => ?_, fun hmem => ?_⟩
    · rw [htr, moves_append, hmoves, List.append_nil]; exact h.moves_eq
    · rw [htr, notified_append, hnotified, List.append_nil]; exact h.notified_eq
    · rw [htr] at heq
      rcases List.eq_nil_or_concat post with rfl | ⟨post, e'', rfl⟩
      · -- it is this event
        obtain ⟨rfl, -⟩ := List.append_inj' heq rfl
        rw [h.moves_eq, h.notified_eq, hs]
        exact ⟨rfl, rfl⟩
      · -- it was there before
        rw [List.concat_eq_append, ← List.cons_append, ← List.append_assoc] at heq
        exact h.heard pre e' post (List.append_inj' heq rfl).1 hread
    · rcases List.mem_append.mp hmem with hmem | hmem
      · exact h.cleaned hmem
      · cases List.mem_singleton.mp hmem
        cases he
  · apply h.other (show (v.log e).trace = v.trace ++ [e] from rfl) rfl hne
    intro e' he'
    rw [List.mem_singleton.mp he', he.conn_eq]

/-- By a move to the next state, which the state callback is told, and silent
events. -/
theorem Lifecycle.move (h : v.Lifecycle slots i) {s : ConnState}
    (hstate : (v'.peer i).state = s)
    (hsteps : s.steps = (v.peer i).state.steps ++ [((v.peer i).state, s)])
    (hnotices : s.notices = (v.peer i).state.notices ++ [s])
    (htr : v'.trace = v.trace ++ ([.moved i (v.peer i).state s] ++
      ((if slots.stateCb then [.stateCb i s] else []) ++ es)))
    (hcb : s.live → (v'.peer i).stateCb = slots.stateCb)
    (hes : ∀ e ∈ es, Silent i e)
    (hend : .cleanedUp i ∈ v.trace ++ es → s = .closed ∨ s = .failed) :
    v'.Lifecycle slots i := by
  have hmoved : moves i [.moved i (v.peer i).state s] = [((v.peer i).state, s)] := by
    simp [moves]
  have htold : moves i (if slots.stateCb then [.stateCb i s] else []) = [] ∧
      notified i (if slots.stateCb then [.stateCb i s] else []) =
        if slots.stateCb then [s] else [] := by
    cases slots.stateCb <;> simp [moves, notified]
  -- the move is one step of the path, the notification one notice, and the rest is silent
  refine ⟨?_, ?_, fun hl => ?_, ?_, fun hmem => ?_⟩
  · rw [htr, moves_append, moves_append, moves_append, hmoved, htold.1, moves_of_silent hes,
      h.moves_eq, hstate, hsteps]
    simp
  · rw [htr, notified_append, notified_append, notified_append, htold.2,
      notified_of_silent hes, h.notified_eq, hstate, hnotices]
    cases slots.stateCb <;> simp [notified]
  · rw [hstate] at hl
    exact hcb hl
  · rw [htr]
    apply h.heard.append
    intro e he hread
    rcases List.mem_append.mp he with he | he
    · cases List.mem_singleton.mp he
      cases hread
    · rcases List.mem_append.mp he with he | he
      · split at he
        · cases List.mem_singleton.mp he
          cases hread
        · cases he
      · exact hread.not_silent (hes e he)
  · rw [hstate]
    apply hend
    rw [htr] at hmem
    split at hmem <;> simpa using hmem

/-! ### The moments of a step -/

theorem eq_of_mem_stateEvents {s : ConnState} {e : Event} (h : e ∈ v.stateEvents j s) :
    e = .stateCb j s := by
  unfold stateEvents at h
  split at h
  · exact List.mem_singleton.mp h
  · cases h

theorem eq_of_mem_movedEvents {s : ConnState} {e : Event} (h : e ∈ v.movedEvents j s) :
    e = .moved j (v.peer j).state s := by
  unfold movedEvents at h
  split at h
  · cases h
  · exact List.mem_singleton.mp h

/-- A connection leaves the handshake. -/
theorem Lifecycle.connect (h : v.Lifecycle slots i) (hs : (v.peer j).state = .handshaking) :
    ((v.setState j .connected).callState j).Lifecycle slots i := by
  have htr : ((v.setState j .connected).callState j).trace =
      v.trace ++ (v.movedEvents j .connected ++ v.stateEvents j .connected) := by
    simp [callState_trace, setState_trace, stateEvents, setState_peer]
  rcases eq_or_ne i j with rfl | hne
  · have hpeer : ((v.setState i .connected).callState i).peer i =
        { v.peer i with state := .connected } := by rw [callState_peer, setState_peer]
    have hcb := h.stateCb_eq (by rw [hs]; rfl)
    rw [movedEvents, if_neg (by rw [hs]; simp), stateEvents, hcb] at htr
    rw [← List.append_nil (if slots.stateCb then _ else _)] at htr
    refine h.move (by rw [hpeer]) (by rw [hs]; rfl) (by rw [hs]; rfl)
      htr (fun _ => by rw [hpeer, ← hcb])
      (fun e he => by cases he) fun hmem => ?_
    rw [List.append_nil] at hmem
    -- a teardown would have left a terminal state
    have hend := h.cleaned hmem
    rw [hs] at hend
    rcases hend with hend | hend <;> cases hend
  · -- another connection is told nothing
    refine h.other htr ?_ hne fun e he => ?_
    · rw [callState_peer, setState_peer_of_ne hne]
    · rcases List.mem_append.mp he with he | he
      · rw [eq_of_mem_movedEvents he]; rfl
      · rw [eq_of_mem_stateEvents he]; rfl

/-- What a teardown reports behind the state callback. -/
def closingEvents (v : Hub) (i : ConnId) : List Event :=
  [.unregisteredIdles i] ++ (v.removedEvents i ++ (v.deletedEvents i ++ [.cleanedUp i]))

theorem silent_of_mem_closingEvents {e : Event} (h : e ∈ v.closingEvents i) :
    Silent i e ∧ e.conn = i := by
  simp only [closingEvents, List.mem_append, List.mem_singleton] at h
  rcases h with rfl | h | h | rfl
  · exact ⟨.unregisteredIdles, rfl⟩
  · unfold removedEvents at h
    split at h
    · rw [List.mem_singleton.mp h]; exact ⟨.removedConn, rfl⟩
    · cases h
  · unfold deletedEvents at h
    split at h
    · cases h
    · rw [List.mem_singleton.mp h]; exact ⟨.deletedChannel _, rfl⟩
  · exact ⟨.cleanedUp, rfl⟩

theorem conn_of_mem_terminate {s s' : ConnState} {e : Event}
    (h : e ∈ v.movedEvents j s ++ (v.stateEvents j s' ++ v.closingEvents j)) : e.conn = j := by
  simp only [List.mem_append] at h
  rcases h with h | h | h
  · rw [eq_of_mem_movedEvents h]; rfl
  · rw [eq_of_mem_stateEvents h]; rfl
  · exact (silent_of_mem_closingEvents h).2

/-- The terminal state is the next on the path. -/
theorem terminal_path {c : Peer} (hlive : c.state.live) :
    c.state ≠ c.terminal ∧ c.terminal.steps = c.state.steps ++ [(c.state, c.terminal)] ∧
      c.terminal.notices = c.state.notices ++ [c.terminal] ∧
      (c.terminal = .closed ∨ c.terminal = .failed) := by
  rw [Peer.terminal]
  cases hs : c.state with
  | handshaking => decide
  | connected => decide
  | invalid | closed | failed => rw [hs] at hlive; cases hlive

/-- The teardown of a connection that is handshaking or connected. -/
theorem Lifecycle.terminate (h : v.Lifecycle slots i) (hlive : (v.peer j).state.live) :
    (v.terminate j).Lifecycle slots i := by
  have htr := terminate_trace v j
  rw [← closingEvents] at htr
  rcases eq_or_ne i j with rfl | hne
  · have hpeer := terminate_peer v i
    obtain ⟨hne, hsteps, hnotices, hend⟩ := terminal_path hlive
    rw [movedEvents, if_neg hne, stateEvents, h.stateCb_eq hlive] at htr
    refine h.move (by rw [hpeer]) hsteps hnotices htr (fun hl => ?_)
      (fun e he => (silent_of_mem_closingEvents he).1) fun _ => hend
    rw [Peer.terminal_not_live] at hl
    cases hl
  · exact h.other htr (terminate_peer_of_ne hne v) hne fun e he => conn_of_mem_terminate he

/-- The second teardown: the connection is closed and its state callback reset. -/
theorem Lifecycle.terminate_closed (h : v.Lifecycle slots i) (hs : (v.peer j).state = .closed)
    (hcb : (v.peer j).stateCb = false) : (v.terminate j).Lifecycle slots i := by
  have htr := terminate_trace v j
  have hterm : (v.peer j).terminal = .closed := by rw [Peer.terminal, hs]; rfl
  -- no move, as the state is `Closed` already, and no callback to tell
  rw [movedEvents, if_pos (by rw [hs, hterm]), stateEvents, hcb, if_neg Bool.false_ne_true,
    List.nil_append, List.nil_append, ← closingEvents] at htr
  rcases eq_or_ne i j with rfl | hne
  · refine h.frame htr (by rw [terminate_peer, hterm, hs]) (fun hl => ?_)
      (fun e he => (silent_of_mem_closingEvents he).1) fun _ => Or.inl hs
    rw [hs] at hl
    cases hl
  · exact h.other htr (terminate_peer_of_ne hne v) hne
      fun e he => (silent_of_mem_closingEvents he).2

theorem Lifecycle.timer (h : v.Lifecycle slots i) (j : ConnId) :
    (v.log (.timerCb j)).Lifecycle slots i := by
  have htr : (v.log (.timerCb j)).trace = v.trace ++ [.timerCb j] := rfl
  refine h.frame htr rfl (fun _ => rfl) (fun e he => ?_) fun he => ?_
  · rw [List.mem_singleton.mp he]
    rcases eq_or_ne j i with rfl | hne
    · exact .timerCb
    · exact .other hne
  · cases List.mem_singleton.mp he

/-- A connection that was not there before. -/
theorem Lifecycle.accept (h : v.Lifecycle slots i) (hv : v.Consistent) (sock : Socket) :
    (v.accept slots sock).Lifecycle slots i := by
  have htr : (v.accept slots sock).trace =
      v.trace ++ [.moved v.nextConn .invalid .handshaking] := rfl
  rcases eq_or_ne i v.nextConn with heq | hne
  · have hpeer : (v.accept slots sock).peer i = acceptedPeer slots v.nextChannel sock := by
      rw [heq]; exact put_peer ..
    -- the number is new, so the trace tells nothing of it yet
    have hs := hv.fresh i (Nat.le_of_eq heq.symm)
    have hmoves := h.moves_eq
    have hnotified := h.notified_eq
    rw [hs] at hmoves hnotified
    refine ⟨?_, ?_, fun _ => by rw [hpeer]; rfl, ?_, fun hmem => ?_⟩
    · rw [htr, moves_append, hmoves, hpeer, heq]
      simp [moves, acceptedPeer, ConnState.steps, ConnState.path]
    · rw [htr, notified_append, hnotified, hpeer]
      simp [notified, acceptedPeer, ConnState.notices, ConnState.path]
    · rw [htr]
      apply h.heard.append
      intro e he hread
      cases List.mem_singleton.mp he
      cases hread
    · have := h.cleaned (by simpa [htr] using hmem)
      rw [hs] at this
      rcases this with this | this <;> cases this
  · apply h.other htr (put_peer_of_ne hne ..) hne
    intro e he
    rw [List.mem_singleton.mp he]
    rfl

/-- Registry, poller and traces agree, for every connection. -/
structure Tracked (slots : Slots) (v : Hub) : Prop where
  consistent : v.Consistent
  lifecycle : ∀ i, v.Lifecycle slots i

theorem Tracked.put (h : v.Tracked slots) {c : Peer} (hlive : (v.peer j).state.live)
    (hstate : c.state = (v.peer j).state) (hcb : c.stateCb = (v.peer j).stateCb)
    (hch : c.channel = (v.peer j).channel) : (v.put j c).Tracked slots := by
  refine ⟨h.consistent.put (by rw [hstate]) (fun e => by rw [e] at hlive; cases hlive) hch,
    fun i => ?_⟩
  have htr : (v.put j c).trace = v.trace ++ [] := (List.append_nil _).symm
  refine (h.lifecycle i).frame htr ?_ (fun _ => ?_) (fun e he => by cases he)
    (fun he => by cases he)
  · rcases eq_or_ne i j with rfl | hne
    · rw [put_peer, hstate]
    · rw [put_peer_of_ne hne]
  · rcases eq_or_ne i j with rfl | hne
    · rw [put_peer, hcb]
    · rw [put_peer_of_ne hne]

theorem Tracked.shutChannel (h : v.Tracked slots) (j : ConnId) :
    (v.shutChannel j).Tracked slots := by
  have htr : (v.shutChannel j).trace = v.trace ++ [] := by
    rw [List.append_nil]
    rw [Hub.shutChannel]
    split <;> rfl
  refine ⟨h.consistent.shutChannel j, fun i => ?_⟩
  refine (h.lifecycle i).frame htr ?_ (fun _ => ?_) (fun e he => by cases he)
    (fun he => by cases he)
  · rcases eq_or_ne i j with rfl | hne
    · rw [shutChannel_peer]
    · rw [shutChannel_peer_of_ne hne]
  · rcases eq_or_ne i j with rfl | hne
    · rw [shutChannel_peer]
    · rw [shutChannel_peer_of_ne hne]

/-- The lives of all connections survive every moment of a step. -/
theorem tracked_rule (slots : Slots) :
    Rule slots (fun _ => True) (Tracked slots) (fun _ => Tracked slots) :=
  have live : ∀ {v : Hub} {i s}, (v.peer i).state = s → s.live → (v.peer i).state.live :=
    fun hs hl => hs ▸ hl
  { data := fun _ _ _ h hs => h.put (live hs rfl) rfl rfl rfl
    heard := fun h hs he => ⟨h.consistent.log _, fun i => (h.lifecycle i).read hs he⟩
    select := fun _ h hs => h.put (live hs rfl) rfl rfl rfl
    connect := fun h hs => ⟨(consistent_rule slots).connect h.consistent hs,
      fun i => (h.lifecycle i).connect hs⟩
    timer := fun h => ⟨h.consistent.log _, fun i => (h.lifecycle i).timer _⟩
    shut := fun h _ _ => h.shutChannel _
    shut_data := fun _ _ _ h hs => h.put (live hs rfl) rfl rfl rfl
    shut_heard := fun h hs he => ⟨h.consistent.log _, fun i => (h.lifecycle i).read hs he⟩
    done := fun h hl ho => ⟨(consistent_rule slots).done h.consistent hl ho,
      fun i => (h.lifecycle i).terminate hl⟩
    shut_done := fun h hl => ⟨(consistent_rule slots).shut_done h.consistent hl,
      fun i => (h.lifecycle i).terminate hl⟩
    twice := fun ht h hs hcb hch => ⟨(consistent_rule slots).twice ht h.consistent hs hcb hch,
      fun i => (h.lifecycle i).terminate_closed hs hcb⟩
    accept := fun sock h => ⟨h.consistent.accept sock,
      fun i => (h.lifecycle i).accept h.consistent sock⟩ }

end Hub

/-! ### Runs -/

theorem Hub.tracked_init (slots : Slots) (wakeupFd listenFd : Int) :
    (World.init wakeupFd listenFd).hub.Tracked slots where
  consistent := consistent_init wakeupFd listenFd
  lifecycle _ :=
    { moves_eq := rfl
      notified_eq := (ite_self _).symm
      stateCb_eq := fun h => by cases h
      heard := fun pre e post h => by
        have := congrArg List.length h
        simp [World.hub, World.init] at this
      cleaned := fun h => by cases h }

/-- The life of connection `i`, as the trace tells it. -/
structure World.OrderlyLife (slots : Slots) (w : World) (i : ConnId) : Prop where
  /-- `m_state` moves from `Invalid` over `Handshaking` to `Connected` and `Closed`,
  or to `Failed` -/
  moves_prefix : moves i w.trace <+: [(.invalid, .handshaking), (.handshaking, .connected),
      (.connected, .closed)] ∨
    moves i w.trace <+: [(.invalid, .handshaking), (.handshaking, .failed)]
  /-- the last move leads to the state the connection is in -/
  moves_end : ((moves i w.trace).getLast?.map Prod.snd).getD .invalid = (w.con i).state
  /-- the state callback has seen a prefix of `Connected`, `Closed` or of `Failed` -/
  notified_prefix : notified i w.trace <+: [.connected, .closed] ∨
    notified i w.trace <+: [.failed]
  /-- when `Cleanup` has run to its end, the state is terminal, and the callback, if
  there is one, has seen it exactly once -/
  cleaned : .cleanedUp i ∈ w.trace →
    ((w.con i).state = .closed ∨ (w.con i).state = .failed) ∧
      (slots.stateCb → (notified i w.trace).count (w.con i).state = 1)
  /-- the read and message callbacks have run only when the connection had moved to
  `Connected` and not on, and when the state callback had seen `Connected` and nothing
  else -/
  heard : ∀ pre e post, w.trace = pre ++ e :: post →
    (e = .readCb i ∨ ∃ off msg bytes, e = .msgCb i off msg bytes) →
    moves i pre = [(.invalid, .handshaking), (.handshaking, .connected)] ∧
      (slots.stateCb → notified i pre = [.connected])

/-- **The life of a connection** is in order after any sequence of events, and
whatever the caller's code does, as long as the record of the connection is there for
every function that uses it (see `Libet.Lifetime`). -/
theorem lifecycle_of_run {app : App} {wakeupFd listenFd : Int} {as : List Input} {w : World}
    (h : Exec.exec (worldStep app) (World.init wakeupFd listenFd) as = some w) (i : ConnId) :
    w.OrderlyLife app.slots i := by
  have hl := (ok_of_exec (Hub.tracked_rule app.slots) h (good_init wakeupFd listenFd)
    (Hub.tracked_init app.slots wakeupFd listenFd)).lifecycle i
  have hmoves : moves i w.trace = (w.con i).state.steps := hl.moves_eq
  have hnotified : notified i w.trace =
      if app.slots.stateCb then (w.con i).state.notices else [] := hl.notified_eq
  refine ⟨?_, ?_, ?_, fun hmem => ⟨hl.cleaned hmem, fun hslot => ?_⟩,
    fun pre e post htr he => ?_⟩
  · -- what is left is read off the path of the state that has been reached
    rw [hmoves]
    cases (w.con i).state <;> decide
  · rw [hmoves]
    cases (w.con i).state <;> rfl
  · rw [hnotified]
    cases app.slots.stateCb <;> cases (w.con i).state <;> decide
  · rw [hnotified, if_pos hslot]
    rcases hl.cleaned hmem with hs | hs <;>
      rw [show (w.con i).state = _ from hs] <;> rfl
  · have hread : Hub.OfReader i e := by
      rcases he with rfl | ⟨off, msg, bytes, rfl⟩
      · exact .readCb
      · exact .msgCb off msg bytes
    obtain ⟨h1, h2⟩ := hl.heard pre e post htr hread
    exact ⟨h1, fun hslot => h2.trans (if_pos hslot)⟩

end Libet
