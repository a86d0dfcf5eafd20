/-
Libet/HubRule.lean

What a step of the hub can do to one connection, said once.

A connection that is read has an open descriptor, or, once a decoding error has
made the read callback close the channel, a shut one.  `Rule` lists the moments
of a step: data arrives and is delivered, the handshake ends, the channel is
shut, the teardown runs, open or shut, and, if the teardown had been entered
before the error, runs a second time.  A property that survives each of them
survives every step (`Rule.step`).

`Settled` is the first instance and a premise of the rule: between two events a
connection has an open descriptor exactly while it is handshaking or connected,
and nothing is received before it is connected.
-/
import Libet.Hub

namespace Libet

namespace Hub

/-- The events of the reader of connection `i`. -/
inductive OfReader (i : ConnId) : Event → Prop
  | readCb : OfReader i (.readCb i)
  | msgCb (off : Nat) (msg : Slice) (bytes : List UInt8) :
      OfReader i (.msgCb i off msg bytes)
  | decodeError : OfReader i (.decodeError i)

/-- Between two events. -/
structure Settled (v : Hub) : Prop where
  open_iff : ∀ i, (v.peer i).isOpen = (v.peer i).state.live
  empty : ∀ i, (v.peer i).state = .handshaking → (v.peer i).pending = []

/-- The next event of connection `i` brings, in one burst, bytes that do not
decode and the end of the stream behind them. -/
def BadBurst (p : Platform) (v : Hub) (i : ConnId) : Prop :=
  let c := v.peer i
  let r := burst c.recvs
  (c.state = .connected ∨ (c.state = .handshaking ∧ c.selects.head? = some 1)) ∧
    r.2.1 ≠ .wouldBlock ∧ c.feed.GivesUp p

instance (p : Platform) (v : Hub) (i : ConnId) : Decidable (BadBurst p v i) := by
  rw [BadBurst, Peer.GivesUp]
  infer_instance

/-- The moments of a step.  `Ok` holds between them while the descriptor of
`i` is open or `i` is gone, `Shut i` while it is shut and `i` is not gone yet;
`Twice i` allows the teardown of `i` to run twice. -/
structure Rule (slots : Slots) (Twice : ConnId → Prop) (Ok : Hub → Prop)
    (Shut : ConnId → Hub → Prop) : Prop where
  /-- data is received or delivered -/
  data : ∀ {v i} d n rs, Ok v → (v.peer i).state = .connected →
    Ok (v.put i { v.peer i with pending := d, received := n, recvs := rs })
  heard : ∀ {v i e}, Ok v → (v.peer i).state = .connected → OfReader i e → Ok (v.log e)
  /-- `select` has been asked -/
  select : ∀ {v i} ss, Ok v → (v.peer i).state = .handshaking →
    Ok (v.put i { v.peer i with selects := ss })
  connect : ∀ {v i}, Ok v → (v.peer i).state = .handshaking →
    Ok ((v.setState i .connected).callState i)
  timer : ∀ {v i}, Ok v → Ok (v.log (.timerCb i))
  shut : ∀ {v i}, Ok v → (v.peer i).state.live → (v.peer i).isOpen →
    Shut i (v.shutChannel i)
  shut_data : ∀ {v i} d n rs, Shut i v → (v.peer i).state = .connected →
    Shut i (v.put i { v.peer i with pending := d, received := n, recvs := rs })
  shut_heard : ∀ {v i e}, Shut i v → (v.peer i).state = .connected → OfReader i e →
    Shut i (v.log e)
  /-- the teardown -/
  done : ∀ {v i}, Ok v → (v.peer i).state.live → (v.peer i).isOpen → Ok (v.terminate i)
  shut_done : ∀ {v i}, Shut i v → (v.peer i).state.live → Ok (v.terminate i)
  twice : ∀ {v i}, Twice i → Ok v → (v.peer i).state = .closed →
    (v.peer i).stateCb = false → (v.peer i).channel = none → Ok (v.terminate i)
  accept : ∀ {v} sock, Ok v → Ok (v.accept slots sock)

/-! ### Reading does not change what a connection is -/

variable {p : Platform} {i j : ConnId} {v : Hub}

theorem deliver_peer (v : Hub) (i : ConnId) :
    (v.deliver p i).peer i = { v.peer i with
      pending := ((lengthFraming p).drain (v.peer i).offset (v.peer i).pending).rest } :=
  put_peer ..

theorem exists_channel_of_isOpen {c : Peer} (h : c.isOpen) :
    ∃ ch, c.channel = some (ch, true) := by
  unfold Peer.isOpen at h
  cases hc : c.channel with
  | none => rw [hc] at h; cases h
  | some x =>
      obtain ⟨ch, b⟩ := x
      rw [hc] at h
      cases h
      exact ⟨ch, rfl⟩

theorem readDead_of_live (h : (v.peer i).state.live) :
    v.readDead p i = (v.callRead p id i).terminate i := by
  rw [readDead]
  split
  · rfl
  · rfl
  · rename_i h1 h2
    cases hst : (v.peer i).state with
    | handshaking => exact absurd hst h1
    | connected => exact absurd hst h2
    | invalid | closed | failed => rw [hst] at h; cases h

theorem readDead_of_not_live (h : ¬ (v.peer i).state.live = true) : v.readDead p i = v := by
  rw [readDead]
  split
  · rename_i hs
    rw [hs] at h
    exact absurd rfl h
  · rename_i hs
    rw [hs] at h
    exact absurd rfl h
  · rfl

theorem not_givesUp_of_empty {c : Peer} (h : c.pending = []) : ¬ c.GivesUp p := by
  have hmore : lengthParse p c.pending = .more := by rw [h, lengthParse_nil]
  rintro ⟨-, hfails⟩
  rw [Peer.fails, Framing.drain_more (F := lengthFraming p) hmore] at hfails
  cases hfails

/-- Without a close, the read callback only consumes. -/
theorem callRead_peer (p : Platform) (v : Hub) (i : ConnId) :
    ∃ d, (v.callRead p id i).peer i = { v.peer i with pending := d } := by
  rw [callRead]
  split
  · exact ⟨_, rfl⟩
  · split
    · exact ⟨_, rfl⟩
    · exact ⟨_, rfl⟩
    · rw [onMsg]
      split
      · exact ⟨_, deliver_peer ..⟩
      · exact ⟨_, deliver_peer ..⟩

/-- A delivery is a change of the pending bytes and the events of the reader. -/
theorem deliver_eq (v : Hub) (i : ConnId) :
    v.deliver p i =
      (msgEvents i (v.peer i).offset (v.peer i).pending
        ((lengthFraming p).drain (v.peer i).offset (v.peer i).pending).items).foldl log
      (v.put i { v.peer i with
        pending := ((lengthFraming p).drain (v.peer i).offset (v.peer i).pending).rest }) := by
  -- the events of one delivery are logged one after the other
  have hfold : ∀ (es : List Event) (v : Hub),
      es.foldl log v = { v with trace := v.trace ++ es } := by
    intro es
    induction es with
    | nil => intro v; simp
    | cons e es ih => intro v; simp [List.foldl_cons, ih, log]
  rw [hfold]
  rfl

theorem ofReader_of_mem_msgEvents {off : Nat} {data : List UInt8} {e : Event}
    {items : List (Nat × Slice)} (h : e ∈ msgEvents i off data items) : OfReader i e := by
  obtain ⟨x, -, rfl⟩ := List.mem_map.mp h
  exact .msgCb ..

/-! ### The rule -/

namespace Rule

variable {slots : Slots} {Twice : ConnId → Prop} {Ok : Hub → Prop}
variable {Shut : ConnId → Hub → Prop}

/-- Events of the reader, one after the other. -/
theorem log_all {I : Hub → Prop} (hI : ∀ {v e}, I v → (v.peer i).state = .connected →
      OfReader i e → I (v.log e)) {es : List Event} (hes : ∀ e ∈ es, OfReader i e)
    (h : I v) (hs : (v.peer i).state = .connected) : I (es.foldl log v) := by
  induction es generalizing v with
  | nil => exact h
  | cons e es ih =>
      rw [List.foldl_cons]
      exact ih (fun e' he' => hes e' (List.mem_cons_of_mem e he'))
        (hI h hs (hes e List.mem_cons_self)) hs

variable (r : Rule slots Twice Ok Shut)
include r

theorem deliver (h : Ok v) (hs : (v.peer i).state = .connected) : Ok (v.deliver p i) := by
  rw [deliver_eq]
  apply log_all r.heard (fun e he => ofReader_of_mem_msgEvents he)
  · exact r.data _ _ _ h hs
  · simpa using hs

theorem shut_deliver (h : Shut i v) (hs : (v.peer i).state = .connected) :
    Shut i (v.deliver p i) := by
  rw [deliver_eq]
  apply log_all (I := Shut i) r.shut_heard (fun e he => ofReader_of_mem_msgEvents he)
  · exact r.shut_data _ _ _ h hs
  · simpa using hs

/-- The read callback once the descriptor is shut. -/
theorem shut_callRead (h : Shut i v)
    (hs : (v.peer i).pending = [] ∨ (v.peer i).state = .connected) :
    Shut i (v.callRead p id i) := by
  rw [callRead]
  split
  · exact h
  · rename_i hne
    have hs := hs.resolve_left hne
    split
    · exact h
    · exact r.shut_heard h hs .readCb
    · have hread := r.shut_heard h hs .readCb
      rw [onMsg]
      split
      · refine r.shut_heard (r.shut_deliver hread hs) ?_ .decodeError
        rw [deliver_peer]
        exact hs
      · exact r.shut_deliver hread hs

/-- The teardown once the descriptor is shut. -/
theorem readDead (h : Shut i v) (hlive : (v.peer i).state.live)
    (hs : (v.peer i).pending = [] ∨ (v.peer i).state = .connected) :
    Ok (v.readDead p i) := by
  rw [readDead_of_live hlive]
  apply r.shut_done (r.shut_callRead h hs)
  obtain ⟨d, hd⟩ := callRead_peer p v i
  rw [hd]
  exact hlive

/-- Closing the channel from inside: the connection is gone afterwards. -/
theorem closeChannel (h : Ok v) (hlive : (v.peer i).state.live) (hopen : (v.peer i).isOpen)
    (hs : (v.peer i).pending = [] ∨ (v.peer i).state = .connected) :
    Ok (v.closeChannel p i) ∧
      ((v.closeChannel p i).peer i).state = (v.peer i).terminal ∧
      ((v.closeChannel p i).peer i).stateCb = false ∧
      ((v.closeChannel p i).peer i).channel = none := by
  have hpeer := shutChannel_peer v i
  obtain ⟨d, hd⟩ := callRead_peer p (v.shutChannel i) i
  have hgone := terminate_peer ((v.shutChannel i).callRead p id i) i
  rw [hd, hpeer] at hgone
  dsimp only at hgone
  rw [Hub.closeChannel, if_pos hopen]
  refine ⟨r.readDead (r.shut h hlive hopen) (by rw [hpeer]; exact hlive)
    (by rw [hpeer]; exact hs), ?_⟩
  rw [readDead_of_live (by rw [hpeer]; exact hlive), hgone]
  exact ⟨rfl, rfl, rfl⟩

/-- The read callback on an open descriptor: afterwards the connection is as it
was, or the bytes did not decode and it is gone. -/
theorem callRead (h : Ok v) (hopen : (v.peer i).isOpen)
    (hs : (v.peer i).pending = [] ∨ (v.peer i).state = .connected) :
    Ok (v.callRead p (Hub.closeChannel p i) i) ∧
      ((¬ (v.peer i).GivesUp p ∧
          ((v.callRead p (Hub.closeChannel p i) i).peer i).state = (v.peer i).state ∧
          ((v.callRead p (Hub.closeChannel p i) i).peer i).isOpen) ∨
        ((v.peer i).GivesUp p ∧
          ((v.callRead p (Hub.closeChannel p i) i).peer i).state = .closed ∧
          ((v.callRead p (Hub.closeChannel p i) i).peer i).stateCb = false ∧
          ((v.callRead p (Hub.closeChannel p i) i).peer i).channel = none)) := by
  rw [Hub.callRead]
  split
  · -- no bytes: the callback is not called
    rename_i hnil
    exact ⟨h, Or.inl ⟨not_givesUp_of_empty hnil, rfl, hopen⟩⟩
  · rename_i hne
    have hs := hs.resolve_left hne
    split
    · -- no callback is installed
      rename_i hcb
      exact ⟨h, Or.inl ⟨fun hbad => (by cases hcb.symm.trans hbad.1), rfl, hopen⟩⟩
    · -- a callback that keeps the bytes
      rename_i hcb
      exact ⟨r.heard h hs .readCb,
        Or.inl ⟨fun hbad => (by cases hcb.symm.trans hbad.1), rfl, hopen⟩⟩
    · -- the reader: a decoding error closes the channel from inside
      rename_i hcb
      have hread := r.heard h hs .readCb
      have hpeer := deliver_peer (p := p) (v.log (.readCb i)) i
      rw [onMsg]
      split
      · rename_i hfails
        have herr := r.heard (r.deliver (p := p) hread hs) (by rw [hpeer]; exact hs)
          (OfReader.decodeError (i := i))
        have hs' : (((Hub.deliver p i (v.log (.readCb i))).log (.decodeError i)).peer i).state
            = .connected := by rw [log_peer, hpeer]; exact hs
        obtain ⟨hok, hst, hrest⟩ := r.closeChannel (p := p) herr (by rw [hs']; rfl)
          (by rw [log_peer, hpeer]; exact hopen) (Or.inr hs')
        rw [Peer.terminal_eq_closed hs'] at hst
        exact ⟨hok, Or.inr ⟨⟨hcb, hfails⟩, hst, hrest⟩⟩
      · rename_i hfails
        refine ⟨r.deliver hread hs, Or.inl ⟨fun hbad => hfails hbad.2, ?_⟩⟩
        rw [hpeer]
        exact ⟨rfl, hopen⟩

/-- `Cleanup` entered with the descriptor open. -/
theorem cleanup (h : Ok v) (hlive : (v.peer i).state.live) (hopen : (v.peer i).isOpen)
    (hs : (v.peer i).pending = [] ∨ (v.peer i).state = .connected)
    (htwice : Twice i ∨ ¬ (v.peer i).GivesUp p) : Ok (v.cleanup p i) := by
  obtain ⟨hok, ⟨-, hst, hopen'⟩ | ⟨hbad, hst, hcb, hch⟩⟩ := r.callRead (p := p) h hopen hs
  · exact r.done hok (by rw [hst]; exact hlive) hopen'
  · -- the callback has torn the connection down already; this teardown runs behind it
    exact r.twice (htwice.resolve_right (not_not_intro hbad)) hok hst hcb hch

/-- A connected peer reads. -/
theorem readBurst (h : Ok v) (hs : (v.peer i).state = .connected) (hopen : (v.peer i).isOpen)
    (htwice : Twice i ∨ ¬ BadBurst p v i) : Ok (v.readBurst p i) := by
  have hread : Ok (v.put i (v.peer i).feed) := r.data _ _ _ h hs
  have hpeer : (v.put i (v.peer i).feed).peer i = (v.peer i).feed := put_peer ..
  have hs' : ((v.put i (v.peer i).feed).peer i).state = .connected := by rw [hpeer]; exact hs
  have hopen' : ((v.put i (v.peer i).feed).peer i).isOpen := by rw [hpeer]; exact hopen
  rw [Hub.readBurst]
  cases hstop : (burst (v.peer i).recvs).2.1 with
  | wouldBlock => exact (r.callRead hread hopen' (Or.inr hs')).1
  | closed | error =>
      -- the stream ended behind the bytes, so a decoding error here is a bad burst
      refine r.cleanup hread (by rw [hs']; rfl) hopen' (Or.inr hs')
        (htwice.imp_right fun hno hbad => hno ?_)
      rw [hpeer] at hbad
      exact ⟨Or.inl hs, by rw [hstop]; simp, hbad⟩

/-- The handshake on an open descriptor. -/
theorem handshake (h : Ok v) (hs : (v.peer i).state = .handshaking)
    (hopen : (v.peer i).isOpen) (hempty : (v.peer i).pending = []) :
    Ok (v.handshake p i) := by
  have hsel := r.select (v.peer i).selects.tail h hs
  rw [Hub.handshake]
  dsimp only
  split
  · have hcon := r.connect (i := i) hsel (by simpa using hs)
    split
    · exact r.timer hcon
    · exact hcon
  · -- nothing was received before the handshake, so the callback is not called
    refine r.cleanup hsel (by simp [hs, ConnState.live]) (by simpa [Peer.isOpen] using hopen)
      (Or.inl (by simpa using hempty)) (Or.inr ?_)
    rw [put_peer]
    exact not_givesUp_of_empty hempty

/-- `HandleRead`. -/
theorem read (h : Ok v) (hv : v.Settled) (htwice : Twice i ∨ ¬ BadBurst p v i) :
    Ok (v.read p i) := by
  unfold Hub.read
  split
  · rename_i hopen
    have hlive : (v.peer i).state.live := by rw [← hv.open_iff]; exact hopen
    -- the handshake may end in this very event, and the read goes on behind it
    by_cases hs : (v.peer i).state = .handshaking
    · have hshake := r.handshake (p := p) h hs hopen (hv.empty i hs)
      rw [if_pos hs]
      dsimp only
      split
      · rename_i hcon
        obtain ⟨hsel, hpeer⟩ := handshake_connected hcon
        refine r.readBurst hshake hcon (by rw [hpeer]; exact hopen)
          (htwice.imp_right fun hno hbad => hno ?_)
        unfold BadBurst at hbad
        rw [hpeer] at hbad
        exact ⟨Or.inr ⟨hs, hsel⟩, hbad.2⟩
      · exact hshake
    · rw [if_neg hs]
      dsimp only
      split
      · rename_i hcon
        exact r.readBurst h hcon hopen htwice
      · exact h
  · -- a shut descriptor belongs to a connection that is gone: the event is stale
    rename_i hopen
    rw [readDead_of_not_live (by rw [← hv.open_iff]; exact hopen)]
    exact h

/-- `HandleWrite`. -/
theorem write (h : Ok v) (hv : v.Settled) : Ok (v.write p i) := by
  rw [Hub.write]
  split
  · rename_i hs
    have hopen : (v.peer i).isOpen = true := by rw [hv.open_iff, hs]; rfl
    rw [if_pos hopen]
    exact r.handshake h hs hopen (hv.empty i hs)
  · exact h

/-- A posted close. -/
theorem posted (h : Ok v) (hv : v.Settled) : Ok (v.closeChannel p i) := by
  cases hopen : (v.peer i).isOpen with
  | true =>
      have hlive : (v.peer i).state.live := by rw [← hv.open_iff]; exact hopen
      refine (r.closeChannel h hlive hopen ?_).1
      cases hst : (v.peer i).state with
      | handshaking => exact Or.inl (hv.empty i hst)
      | connected => exact Or.inr rfl
      | invalid | closed | failed => rw [hst] at hlive; cases hlive
  | false =>
      rw [Hub.closeChannel, if_neg (by simp [hopen])]
      exact h

/-- **The rule.**  What survives the moments of a step survives every step that
does not bring a bad burst to a connection whose teardown must not run twice. -/
theorem step (h : Ok v) (hv : v.Settled) {a : Action}
    (htwice : ∀ i, a = .read i → Twice i ∨ ¬ BadBurst p v i) : Ok (v.step p slots a) := by
  cases a with
  | accept sock => exact r.accept sock h
  | read i => exact r.read h hv (htwice i rfl)
  | write i => exact r.write h hv
  | close i => exact r.posted h hv

end Rule

/-! ### The first instance -/

/-- `Settled` but for connection `i`, whose descriptor has just been shut. -/
structure SettledBut (i : ConnId) (v : Hub) : Prop where
  open_iff : ∀ j, j ≠ i → (v.peer j).isOpen = (v.peer j).state.live
  empty : ∀ j, (v.peer j).state = .handshaking → (v.peer j).pending = []

theorem Settled.but (h : v.Settled) (i : ConnId) : v.SettledBut i :=
  ⟨fun j _ => h.open_iff j, h.empty⟩

/-- Nothing but connection `i` has changed, and `i` is settled now. -/
theorem SettledBut.change {v' : Hub} (h : v.SettledBut i)
    (hother : ∀ j, j ≠ i → v'.peer j = v.peer j)
    (hopen : (v'.peer i).isOpen = (v'.peer i).state.live)
    (hempty : (v'.peer i).state = .handshaking → (v'.peer i).pending = []) : v'.Settled := by
  constructor
  · intro j
    rcases eq_or_ne j i with rfl | hj
    · exact hopen
    · rw [hother j hj]; exact h.open_iff j hj
  · intro j
    rcases eq_or_ne j i with rfl | hj
    · exact hempty
    · rw [hother j hj]; exact h.empty j

theorem SettledBut.change_but {v' : Hub} (h : v.SettledBut i)
    (hother : ∀ j, j ≠ i → v'.peer j = v.peer j)
    (hempty : (v'.peer i).state = .handshaking → (v'.peer i).pending = []) :
    v'.SettledBut i := by
  constructor
  · intro j hj
    rw [hother j hj]; exact h.open_iff j hj
  · intro j
    rcases eq_or_ne j i with rfl | hj
    · exact hempty
    · rw [hother j hj]; exact h.empty j

theorem SettledBut.terminate (h : v.SettledBut i) : (v.terminate i).Settled := by
  have hpeer := terminate_peer v i
  apply h.change (fun j hj => terminate_peer_of_ne hj v)
  · rw [hpeer]
    exact (Peer.terminal_not_live _).symm
  · rw [hpeer]
    exact fun h => absurd h (Peer.terminal_ne _).1

theorem settled_rule (slots : Slots) :
    Rule slots (fun _ => True) Settled SettledBut where
  data {v i} d n rs h hs := by
    apply (h.but i).change (fun j hj => put_peer_of_ne hj ..)
    · rw [put_peer]; exact h.open_iff i
    · rw [put_peer]; simp [hs]
  heard h _ _ := ⟨h.open_iff, h.empty⟩
  select {v i} ss h hs := by
    apply (h.but i).change (fun j hj => put_peer_of_ne hj ..)
    · rw [put_peer]; exact h.open_iff i
    · rw [put_peer]; exact h.empty i
  connect {v i} h hs := by
    have hpeer := setState_peer v i .connected
    refine (h.but i).change (fun j hj => ?_) ?_ ?_
    · rw [callState_peer]; exact setState_peer_of_ne hj ..
    · rw [callState_peer, hpeer]
      exact (h.open_iff i).trans (by rw [hs]; rfl)
    · rw [callState_peer, hpeer]; simp
  timer h := ⟨h.open_iff, h.empty⟩
  shut {v i} h hlive hopen := by
    apply (h.but i).change_but (fun j hj => shutChannel_peer_of_ne hj v)
    rw [shutChannel_peer]
    exact h.empty i
  shut_data {v i} d n rs h hs := by
    apply h.change_but (fun j hj => put_peer_of_ne hj ..)
    rw [put_peer]; simp [hs]
  shut_heard h _ _ := ⟨h.open_iff, h.empty⟩
  done {v i} h _ _ := (h.but i).terminate
  shut_done h _ := h.terminate
  twice {v i} _ h _ _ _ := (h.but i).terminate
  accept {v} sock h := by
    have hpeer : (v.accept slots sock).peer v.nextConn =
        acceptedPeer slots v.nextChannel sock := put_peer ..
    refine (h.but v.nextConn).change (fun j hj => ?_) ?_ ?_
    · exact put_peer_of_ne hj ..
    · rw [hpeer]; rfl
    · rw [hpeer]; exact fun _ => rfl

end Hub

end Libet
