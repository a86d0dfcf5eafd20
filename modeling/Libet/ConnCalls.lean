/-
Libet/ConnCalls.lean

The order in which a connection's state and timer callbacks are called.

`HandleHandshake` calls `m_stateCb` and behind it `m_timerCb`; the teardown calls
`m_stateCb` again.  Between two events of the loop the calls that a connection
has had are a function of its state (`Hub.Called`), also when the handshake
and the teardown fall into one event.  The timer callback is the exception of the
hub: no part of a step but `Hub.handshake` calls it (`Hub.timings`).

Main result: `called_of_worldStep`.
-/
import Libet.Reassembly

namespace Libet

/-- The calls of `m_stateCb` and `m_timerCb` of connection `i`, in order. -/
def connCalls (i : ConnId) (tr : List Event) : List Event :=
  tr.filter fun
    | .stateCb j _ | .timerCb j => j = i
    | _ => false

/-- The calls that a connection in state `s` has had, if both callbacks are set. -/
def ConnState.calls (i : ConnId) : ConnState → List Event
  | .invalid | .handshaking => []
  | .connected => [.stateCb i .connected, .timerCb i]
  | .closed => [.stateCb i .connected, .timerCb i, .stateCb i .closed]
  | .failed => [.stateCb i .failed]

/-- The connection has been connected. -/
def ConnState.past : ConnState → Bool
  | .connected | .closed => true
  | _ => false

theorem connCalls_append (i : ConnId) (tr es : List Event) :
    connCalls i (tr ++ es) = connCalls i tr ++ connCalls i es :=
  List.filter_append ..

/-- Without a call of the timer callback, the calls are what the state callback is told. -/
theorem connCalls_of_notMem {i : ConnId} {es : List Event} (h : .timerCb i ∉ es) :
    connCalls i es = (notified i es).map (.stateCb i) := by
  induction es with
  | nil => rfl
  | cons e es ih =>
      have htail := ih fun hmem => h (List.mem_cons_of_mem e hmem)
      cases e with
      | stateCb k s =>
          by_cases hk : k = i
          · subst hk
            have hnotified : notified k (.stateCb k s :: es) = s :: notified k es := by
              simp only [notified, List.filterMap_cons, if_true]
            rw [hnotified, List.map_cons, ← htail]
            exact List.filter_cons_of_pos (decide_eq_true rfl)
          · have hnotified : notified i (.stateCb k s :: es) = notified i es := by
              simp only [notified, List.filterMap_cons, if_neg hk]
            rw [hnotified, ← htail]
            exact List.filter_cons_of_neg (by simpa using hk)
      | timerCb k =>
          have hk : k ≠ i := fun e => h (e ▸ List.mem_cons_self)
          rw [show notified i (.timerCb k :: es) = notified i es from rfl, ← htail]
          exact List.filter_cons_of_neg (by simpa using hk)
      | _ => exact htail

theorem connCalls_of_other {i j : ConnId} {es : List Event} (hes : ∀ e ∈ es, e.conn = j)
    (hne : i ≠ j) : connCalls i es = [] := by
  apply List.filter_eq_nil_iff.mpr
  intro e he
  have hconn := hes e he
  cases e with
  | stateCb k s =>
      obtain rfl : k = j := hconn
      simpa using hne.symm
  | timerCb k =>
      obtain rfl : k = j := hconn
      simpa using hne.symm
  | _ => simp

namespace Hub

variable {p : Platform} {i j : ConnId} {v v' : Hub} {slots : Slots}

/-! ### Who calls the timer callback -/

/-- How often the timer callback of connection `i` has been called. -/
def timings (i : ConnId) (v : Hub) : Nat := v.trace.count (.timerCb i)

theorem timings_of_trace {es : List Event} (htr : v'.trace = v.trace ++ es)
    (hes : .timerCb i ∉ es) : v'.timings i = v.timings i := by
  rw [timings, timings, htr, List.count_append, List.count_eq_zero.mpr hes, Nat.add_zero]

theorem timings_log (v : Hub) {e : Event} (he : e ≠ .timerCb i) :
    (v.log e).timings i = v.timings i :=
  timings_of_trace rfl fun hmem => he (List.mem_singleton.mp hmem).symm

theorem timings_setState (v : Hub) (j : ConnId) (s : ConnState) :
    (v.setState j s).timings i = v.timings i :=
  timings_of_trace (setState_trace v j s) fun hmem => by cases eq_of_mem_movedEvents hmem

theorem timings_callState (v : Hub) (j : ConnId) :
    (v.callState j).timings i = v.timings i :=
  timings_of_trace (callState_trace v j) fun hmem => by cases eq_of_mem_stateEvents hmem

theorem timings_terminate (v : Hub) (j : ConnId) :
    (v.terminate j).timings i = v.timings i := by
  refine timings_of_trace (terminate_trace v j) fun hmem => ?_
  simp only [List.mem_append] at hmem
  rcases hmem with hmem | hmem | hmem | hmem | hmem | hmem
  · cases eq_of_mem_movedEvents hmem
  · cases eq_of_mem_stateEvents hmem
  · cases List.mem_singleton.mp hmem
  · rw [removedEvents] at hmem
    split at hmem
    · cases List.mem_singleton.mp hmem
    · cases hmem
  · rw [deletedEvents] at hmem
    split at hmem
    · cases hmem
    · cases List.mem_singleton.mp hmem
  · cases List.mem_singleton.mp hmem

theorem timings_deliver (v : Hub) (j : ConnId) : (v.deliver p j).timings i = v.timings i :=
  timings_of_trace rfl fun hmem => by cases ofReader_of_mem_msgEvents hmem

theorem timings_shutChannel (v : Hub) (j : ConnId) :
    (v.shutChannel j).timings i = v.timings i := by
  rw [Hub.shutChannel]
  split <;> rfl

theorem timings_callRead {close : Hub → Hub} (hclose : ∀ v, (close v).timings i = v.timings i)
    (v : Hub) (j : ConnId) : (v.callRead p close j).timings i = v.timings i := by
  have hread : (v.log (.readCb j)).timings i = v.timings i := timings_log v fun he => by cases he
  have herr : ∀ v : Hub, (v.log (.decodeError j)).timings i = v.timings i :=
    fun v => timings_log v fun he => by cases he
  rw [Hub.callRead]
  split
  · rfl
  · split
    · rfl
    · exact hread
    · rw [onMsg]
      split
      · rw [hclose, herr, timings_deliver, hread]
      · rw [timings_deliver, hread]

theorem timings_readDead (v : Hub) (j : ConnId) : (v.readDead p j).timings i = v.timings i := by
  have hdead : (terminate j (v.callRead p id j)).timings i = v.timings i :=
    (timings_terminate _ j).trans (timings_callRead (fun _ => rfl) v j)
  rw [Hub.readDead]
  split
  · exact hdead
  · exact hdead
  · rfl

theorem timings_closeChannel (v : Hub) (j : ConnId) :
    (v.closeChannel p j).timings i = v.timings i := by
  rw [Hub.closeChannel]
  split
  · rw [timings_readDead, timings_shutChannel]
  · rfl

theorem timings_cleanup (v : Hub) (j : ConnId) : (v.cleanup p j).timings i = v.timings i := by
  rw [Hub.cleanup, timings_terminate, timings_callRead fun v => timings_closeChannel v j]

theorem timings_readBurst (v : Hub) (j : ConnId) :
    (v.readBurst p j).timings i = v.timings i := by
  rw [Hub.readBurst]
  cases (burst (v.peer j).recvs).2.1 with
  | wouldBlock => exact timings_callRead (fun v => timings_closeChannel v j) _ j
  | closed | error => exact timings_cleanup _ j

/-! ### The calls between two events -/

/-- Every connection has had the calls of its state. -/
def Called (v : Hub) : Prop := ∀ i, connCalls i v.trace = (v.peer i).state.calls i

/-- The calls of connection `j` change only. -/
theorem Called.concerns (h : v.Called) (hc : Concerns j v v')
    (hj : connCalls j v'.trace = (v'.peer j).state.calls j) : v'.Called := by
  intro i
  rcases eq_or_ne i j with rfl | hne
  · exact hj
  · obtain ⟨es, htr, hes⟩ := hc.trace
    rw [htr, connCalls_append, connCalls_of_other hes hne, List.append_nil, hc.peer i hne]
    exact h i

/-- A part of a step that does not call the timer callback, and behind which no
connection has just been connected. -/
theorem Called.quiet (h : v.Called) (hcb : slots.stateCb = true) (hc : Concerns j v v')
    (htimings : v'.timings j = v.timings j) (ht : v.Tracked slots) (ht' : v'.Tracked slots)
    (hpast : (v'.peer j).state.past → (v.peer j).state.past) : v'.Called := by
  refine h.concerns hc ?_
  obtain ⟨es, htr, -⟩ := hc.trace
  have hnone : .timerCb j ∉ es := by
    rw [timings, timings, htr, List.count_append] at htimings
    exact List.count_eq_zero.mp (by omega)
  have hnotified := (ht'.lifecycle j).notified_eq
  rw [htr, notified_append, (ht.lifecycle j).notified_eq, if_pos hcb, if_pos hcb] at hnotified
  rw [htr, connCalls_append, h j, connCalls_of_notMem hnone]
  -- the state callback is told the rest of the path
  have hrest := congrArg (List.drop (v.peer j).state.notices.length) hnotified
  rw [List.drop_left] at hrest
  rw [hrest]
  cases hs : (v.peer j).state <;> cases hs' : (v'.peer j).state <;> rw [hs, hs'] at hnotified <;>
    first
    | rfl
    | (rw [hs, hs'] at hpast; exact absurd (hpast rfl) (by decide))
    | exact absurd hnotified (by simp [ConnState.notices, ConnState.path])

theorem concerns_accept (v : Hub) (slots : Slots) (sock : Socket) :
    Concerns v.nextConn v (v.accept slots sock) := by
  refine ⟨fun _ hi => put_peer_of_ne hi v _, [_], rfl, fun e he => ?_⟩
  rw [List.mem_singleton.mp he]
  rfl

/-- A step of the hub is about one connection. -/
theorem exists_concerns_step (p : Platform) (slots : Slots) (v : Hub) (a : Action) :
    ∃ j, Concerns j v (v.step p slots a) := by
  cases a with
  | accept sock => exact ⟨_, concerns_accept v slots sock⟩
  | read i => exact ⟨i, .read v i⟩
  | write i => exact ⟨i, .write v i⟩
  | close i => exact ⟨i, .closeChannel v i⟩

/-- A new connection has had no calls. -/
theorem Called.accept (h : v.Called) (ht : v.Tracked slots) (sock : Socket) :
    (v.accept slots sock).Called := by
  refine h.concerns (concerns_accept v slots sock) ?_
  have hpeer : (v.accept slots sock).peer v.nextConn =
      acceptedPeer slots v.nextChannel sock := put_peer ..
  have hcalls := h v.nextConn
  rw [ht.consistent.fresh _ (Nat.le_refl _)] at hcalls
  rw [hpeer, show (v.accept slots sock).trace =
    v.trace ++ [.moved v.nextConn .invalid .handshaking] from rfl, connCalls_append, hcalls]
  rfl

/-- The timer callback of a connection that is not gone is set as the server sets it. -/
def Timed (slots : Slots) (v : Hub) : Prop :=
  ∀ i, (v.peer i).state.live → (v.peer i).timerCb = slots.timerCb

theorem Timed.update (h : v.Timed slots) (hother : ∀ j, j ≠ i → v'.peer j = v.peer j)
    (hi : (v'.peer i).state.live → (v'.peer i).timerCb = slots.timerCb) : v'.Timed slots := by
  intro j hlive
  rcases eq_or_ne j i with rfl | hne
  · exact hi hlive
  · rw [hother j hne] at hlive ⊢
    exact h j hlive

theorem Timed.put (h : v.Timed slots) {c : Peer} (hlive : (v.peer i).state.live)
    (hcb : c.timerCb = (v.peer i).timerCb) : (v.put i c).Timed slots := by
  refine h.update (fun j hj => put_peer_of_ne hj v c) fun _ => ?_
  rw [put_peer, hcb]
  exact h i hlive

theorem Timed.terminate (h : v.Timed slots) (i : ConnId) : (v.terminate i).Timed slots := by
  refine h.update (fun j hj => terminate_peer_of_ne hj v) fun hlive => ?_
  rw [terminate_peer, Peer.terminal_not_live] at hlive
  cases hlive

theorem timed_rule (slots : Slots) :
    Rule slots (fun _ => True) (Timed slots) (fun _ => Timed slots) where
  data _ _ _ h hs := h.put (by rw [hs]; rfl) rfl
  heard h _ _ := h
  select _ h hs := h.put (by rw [hs]; rfl) rfl
  connect {v i} h hs := by
    apply h.update (i := i)
    · intro j hj
      rw [callState_peer, setState_peer_of_ne hj]
    · intro _
      rw [callState_peer, setState_peer]
      exact h i (by rw [hs]; rfl)
  timer h := h
  shut {v i} h hlive _ := by
    refine h.update (fun j hj => shutChannel_peer_of_ne hj v) fun _ => ?_
    rw [shutChannel_peer]
    exact h i hlive
  shut_data _ _ _ h hs := h.put (by rw [hs]; rfl) rfl
  shut_heard h _ _ := h
  done h _ _ := h.terminate _
  shut_done h _ := h.terminate _
  twice _ h _ _ _ := h.terminate _
  accept {v} sock h := by
    refine h.update (fun j hj => put_peer_of_ne hj v _) fun _ => ?_
    rw [show (v.accept slots sock).peer v.nextConn = acceptedPeer slots v.nextChannel sock from
      put_peer ..]
    rfl

/-- The handshake calls the state callback and behind it the timer callback, or it
fails. -/
theorem Called.handshake (h : v.Called) (hcb : slots.stateCb = true)
    (htimer : slots.timerCb = true) (ht : v.Tracked slots) (hv : v.Settled) (hd : v.Timed slots)
    (hs : (v.peer i).state = .handshaking) : (v.handshake p i).Called := by
  have hopen : (v.peer i).isOpen = true := by rw [hv.open_iff, hs]; rfl
  have ht' := (tracked_rule slots).handshake (p := p) ht hs hopen (hv.empty i hs)
  have hc := Concerns.handshake (p := p) v i
  by_cases hsel : (v.peer i).selects.head? = some 1
  · refine h.concerns hc ?_
    have hlive : (v.peer i).state.live := by rw [hs]; rfl
    have hstate := (ht.lifecycle i).stateCb_eq hlive
    have htime := hd i hlive
    have hcalls := h i
    rw [hs] at hcalls
    have htr : (v.handshake p i).trace =
        v.trace ++ [.moved i .handshaking .connected, .stateCb i .connected, .timerCb i] := by
      simp [Hub.handshake, hsel, setState_peer, htime, htimer, callState_trace, setState_trace,
        movedEvents, stateEvents, hs, hstate, hcb, Hub.log, Hub.put]
    have hpeer : ((v.handshake p i).peer i).state = .connected := by
      simp [Hub.handshake, hsel, setState_peer, htime, htimer]
    rw [htr, connCalls_append, hcalls, hpeer]
    simp [connCalls, ConnState.calls]
  · have hshake : v.handshake p i =
        (v.put i { v.peer i with selects := (v.peer i).selects.tail }).cleanup p i := by
      rw [Hub.handshake]
      exact if_neg hsel
    refine h.quiet hcb hc ?_ ht ht' fun hpast => ?_
    · rw [hshake, timings_cleanup]
      rfl
    · -- nothing was received, so the callback of `Cleanup` has nothing to read
      rw [hshake, Hub.cleanup, Hub.callRead, if_pos (by rw [put_peer]; exact hv.empty i hs),
        terminate_peer, put_peer, Peer.terminal, hs] at hpast
      cases hpast

/-- **Between two events every connection has had the calls of its state.** -/
theorem Called.step (h : v.Called) (hcb : slots.stateCb = true) (htimer : slots.timerCb = true)
    (ht : v.Tracked slots) (hv : v.Settled) (hd : v.Timed slots) (a : Action) :
    (v.step p slots a).Called := by
  have hburst : ∀ {v : Hub} {i}, v.Called → v.Tracked slots → (v.peer i).state = .connected →
      (v.peer i).isOpen → (v.readBurst p i).Called := by
    intro v i h ht hs hopen
    refine h.quiet hcb (.readBurst v i) (timings_readBurst v i) ht
      ((tracked_rule slots).readBurst ht hs hopen (Or.inl trivial)) fun _ => ?_
    rw [hs]
    rfl
  cases a with
  | accept sock => exact h.accept ht sock
  | read i =>
      show (v.read p i).Called
      by_cases hopen : (v.peer i).isOpen
      · rw [Hub.read, if_pos hopen]
        by_cases hs : (v.peer i).state = .handshaking
        · have hshake := h.handshake (p := p) hcb htimer ht hv hd hs
          rw [if_pos hs]
          dsimp only
          split
          · rename_i hcon
            refine hburst hshake ((tracked_rule slots).handshake ht hs hopen (hv.empty i hs))
              hcon ?_
            rw [(handshake_connected hcon).2]
            exact hopen
          · exact hshake
        · rw [if_neg hs]
          dsimp only
          split
          · rename_i hcon
            exact hburst h ht hcon hopen
          · exact h
      · rw [Hub.read, if_neg hopen, readDead_of_not_live (by rw [← hv.open_iff]; exact hopen)]
        exact h
  | write i =>
      show (v.write p i).Called
      rw [Hub.write]
      split
      · rename_i hs
        rw [if_pos (by rw [hv.open_iff, hs]; rfl)]
        exact h.handshake hcb htimer ht hv hd hs
      · exact h
  | close i =>
      refine h.quiet hcb (.closeChannel v i) (timings_closeChannel v i) ht
        ((tracked_rule slots).posted ht hv) fun hpast => ?_
      cases hs : (v.peer i).state with
      | connected | closed => rfl
      | handshaking =>
          have hopen : (v.peer i).isOpen = true := by rw [hv.open_iff, hs]; rfl
          have hstate := ((tracked_rule slots).closeChannel (p := p) ht (by rw [hs]; rfl) hopen
            (Or.inl (hv.empty i hs))).2.1
          rw [show v.step p slots (.close i) = v.closeChannel p i from rfl, hstate,
            Peer.terminal, hs] at hpast
          exact absurd hpast (by decide)
      | invalid | failed =>
          have hopen : (v.peer i).isOpen = false := by rw [hv.open_iff, hs]; rfl
          rw [show v.step p slots (.close i) = v.closeChannel p i from rfl, Hub.closeChannel,
            if_neg (by rw [hopen]; decide), hs] at hpast
          exact absurd hpast (by decide)

end Hub

/-! ### Runs -/

/-- What holds of the calls in every run of a server that sets both callbacks. -/
structure World.Told (slots : Slots) (w : World) : Prop where
  good : w.Good
  tracked : w.hub.Tracked slots
  timed : w.hub.Timed slots
  called : w.hub.Called

variable {app : App} {w w' : World} {a : Input}

theorem World.told_init (slots : Slots) (wakeupFd listenFd : Int) :
    (World.init wakeupFd listenFd).Told slots where
  good := good_init wakeupFd listenFd
  tracked := Hub.tracked_init slots wakeupFd listenFd
  timed _ hlive := by cases hlive
  called _ := rfl

/-- The trace only grows. -/
theorem World.Good.exists_trace (h : w.Good) (hstep : worldStep app w a = some w') :
    ∃ es, w'.trace = w.trace ++ es := by
  have hsim := (worldStep_refines hstep h.refines).hub
  cases hact : a.action w with
  | none =>
      rw [hact] at hsim
      exact ⟨[], (congrArg Hub.trace hsim).trans (List.append_nil _).symm⟩
  | some b =>
      rw [hact] at hsim
      obtain ⟨j, hc⟩ := Hub.exists_concerns_step app.plat app.slots w.hub b
      obtain ⟨es, htr, -⟩ := hc.trace
      exact ⟨es, (congrArg Hub.trace hsim).trans htr⟩

/-- **One event of the loop.**  Behind it every connection has had the calls of its
state. -/
theorem called_of_worldStep (hcb : app.slots.stateCb = true) (htimer : app.slots.timerCb = true)
    (hstep : worldStep app w a = some w') (h : w.Told app.slots) :
    w'.Told app.slots := by
  refine ⟨good_of_worldStep hstep h.good,
    ok_of_worldStep (Hub.tracked_rule app.slots) hstep h.good h.tracked fun _ _ => Or.inl trivial,
    ok_of_worldStep (Hub.timed_rule app.slots) hstep h.good h.timed fun _ _ => Or.inl trivial, ?_⟩
  have hsim := (worldStep_refines hstep h.good.refines).hub
  rw [hsim]
  cases a.action w with
  | none => exact h.called
  | some b => exact h.called.step hcb htimer h.tracked h.good.settled h.timed b

end Libet
