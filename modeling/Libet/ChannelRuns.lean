/-
Libet/ChannelRuns.lean

A run of an event base is a run of its channels.

Whatever the callbacks of the caller do, and however deep they are nested in
`Channel::Close` and `Cleanup`, the poller of an event base goes through
operations of `channelStep` only (`tracks_of_run`): `HandleAccept` constructs a
channel, the `Send` family and `HandleWrite` switch write interest, and a
teardown closes and frees.  The results about all orders of operations in
`Libet.SelectSets` therefore speak of every reachable state of an event base.

Two runs show that both conditions found there are met by real traffic: a state
callback that sends a last message inserts the closed descriptor
(`closed_fd_selected`), and the sixty-third connection is never polled
(`connection_not_polled`).
-/
import Libet.SelectSets
import Libet.Teardown

namespace Libet

/-! ### The sending side switches write interest -/

/-- `EnableWrite` on a channel and its poller. -/
def switchWrite (h : Option Channel × PollerSelect) (enable : Bool) :
    Option Channel × PollerSelect :=
  match h.1 with
  | none => h
  | some ch => (some { ch with writable := enable },
      h.2.updateChannel { ch with writable := enable })

namespace Link

/-- What the poller and the connection have in common. -/
def handle (l : Link) : Option Channel × PollerSelect := (l.con.channel, l.poller)

/-- From `l` to `l'` write interest is switched a number of times. -/
def Switches (l l' : Link) : Prop :=
  ∃ enables : List Bool, l'.handle = enables.foldl switchWrite l.handle

namespace Switches

variable {l l' l'' : Link}

theorem of_eq (h : l'.handle = l.handle) : Switches l l' := ⟨[], h⟩

theorem refl (l : Link) : Switches l l := of_eq rfl

theorem trans (h : Switches l l') (h' : Switches l' l'') : Switches l l'' := by
  obtain ⟨bs, hbs⟩ := h
  obtain ⟨bs', hbs'⟩ := h'
  exact ⟨bs ++ bs', by rw [hbs', hbs, List.foldl_append]⟩

end Switches

theorem handle_enableWrite (l : Link) (enable : Bool) :
    (l.enableWrite enable).handle = switchWrite l.handle enable := by
  simp only [handle, enableWrite, switchWrite]
  split <;> rename_i hch <;> simp [hch]

theorem switches_enableWrite (l : Link) (enable : Bool) :
    Switches l (l.enableWrite enable) :=
  ⟨[enable], handle_enableWrite l enable⟩

theorem switches_sendBase (l : Link) (buf : List UInt8) : Switches l (l.sendBase buf).2 := by
  refine sendBase_rule (motive := fun l _ _ l' => Switches l l') Switches.refl ?_ ?_ ?_ l buf
  · intro l buf n s r h ih
    have hsock : Switches l { l with con := { l.con with sock := s } } := .of_eq rfl
    exact hsock.trans ih
  · intro l buf s h
    have hsock : Switches l { l with con := { l.con with sock := s } } := .of_eq rfl
    split
    · exact hsock
    · exact hsock.trans (switches_enableWrite _ true)
  · intro l buf s h
    exact .of_eq rfl

theorem switches_send (l : Link) (buf : List UInt8) : Switches l (l.send buf) := by
  have hrest : ∀ r : Nat × Link, Switches r.2 (appendRest buf r) := by
    intro r
    simp only [appendRest]
    split <;> exact .of_eq rfl
  have hsubmit : Switches l (l.submit buf) := .of_eq rfl
  simp only [send]
  split
  · apply Switches.trans _ (hrest _)
    split
    · exact hsubmit.trans (switches_sendBase _ buf)
    · exact hsubmit
  · exact .refl l

theorem switches_flush (l : Link) : Switches l l.flush :=
  (switches_sendBase l l.con.output.content).trans (.of_eq rfl)

theorem switches_watchRest (l : Link) : Switches l l.watchRest := by
  simp only [watchRest]
  split
  · exact switches_enableWrite l true
  · exact .refl l

theorem switches_sendOutput (l : Link) : Switches l l.sendOutput := by
  simp only [sendOutput]
  split
  · apply Switches.trans _ (switches_watchRest _)
    split
    · exact switches_flush l
    · exact .refl l
  · exact .refl l

theorem switches_sendMsg (l : Link) (msg : List UInt8) : Switches l (l.sendMsg msg) := by
  simp only [sendMsg]
  split
  · apply Switches.trans _ (switches_sendOutput _)
    split <;> exact .of_eq rfl
  · exact .refl l

theorem switches_sendBuffer (l : Link) (buf : Buffer) : Switches l (l.sendBuffer buf).1 := by
  have habsorb : ∀ (l : Link) b, Switches l (l.absorb b).1 := fun _ _ => .of_eq rfl
  have h1 : ∀ x : Link × Buffer, Switches x.1 (absorbWritable x).1 := by
    intro x
    simp only [absorbWritable]
    split
    · exact habsorb _ _
    · exact .refl _
  have h2 : ∀ x : Link × Buffer, Switches x.1 (sendNow x).1 := by
    intro x
    simp only [sendNow]
    split
    · exact switches_sendBase _ _
    · exact .refl _
  have h3 : ∀ x : Link × Buffer, Switches x.1 (absorbRest x).1 := by
    intro x
    simp only [absorbRest]
    split
    · split
      · exact habsorb _ _
      · exact (habsorb _ _).trans (switches_enableWrite _ true)
    · exact .refl _
  simp only [sendBuffer]
  split
  · have h0 : Switches l (l.submit buf.content) := .of_eq rfl
    exact h0.trans (((h1 (_, buf)).trans (h2 _)).trans (h3 _))
  · exact .refl l

end Link

/-! ### The channels of a world -/

section Tracks

variable (wakeupFd listenFd : Int)

/-- The channels that exist: the one `Init` makes for the wakeup pipe, the one
of the listening socket, and those of the connections. -/
inductive World.Owns (w : World) : Channel → Prop
  | wakeup : Owns w ⟨1, wakeupFd, true, false⟩
  | listen : Owns w ⟨2, listenFd, true, false⟩
  | con {i : ConnId} {ch : Channel} (h : (w.con i).channel = some ch) : Owns w ch

/-- `s` are the channels of the world `w`. -/
structure Tracks (w : World) (s : Channels) : Prop where
  poller : s.poller = w.base.poller
  lastId : s.lastId + 1 = w.nextChannel
  obj_iff : ∀ {id ch}, s.obj id = some ch ↔ ch.id = id ∧ w.Owns wakeupFd listenFd ch
  id_pos : ∀ {i ch}, (w.con i).channel = some ch → 3 ≤ ch.id
  owner : ∀ {i j ch ch'}, (w.con i).channel = some ch → (w.con j).channel = some ch' →
    ch.id = ch'.id → i = j

end Tracks

variable {wakeupFd listenFd : Int} {w w' : World} {s : Channels} {i : ConnId} {ch : Channel}

namespace World.Owns

/-- A channel exists as long as its connection, if it has one, keeps it. -/
theorem imp (h : w.Owns wakeupFd listenFd ch)
    (hcon : ∀ j, (w.con j).channel = some ch → (w'.con j).channel = some ch) :
    w'.Owns wakeupFd listenFd ch := by
  cases h with
  | wakeup => exact .wakeup
  | listen => exact .listen
  | @con j _ hch => exact .con (hcon j hch)

/-- From the third on, the identifiers are those of connections. -/
theorem exists_con (h : w.Owns wakeupFd listenFd ch) (hid : 3 ≤ ch.id) :
    ∃ j, (w.con j).channel = some ch := by
  cases h with
  | wakeup => exact absurd hid (show ¬ 3 ≤ 1 by decide)
  | listen => exact absurd hid (show ¬ 3 ≤ 2 by decide)
  | @con j _ hch => exact ⟨j, hch⟩

end World.Owns

namespace Tracks

/-- Nothing is changed that concerns channels. -/
theorem frame (h : Tracks wakeupFd listenFd w s)
    (hcon : ∀ j, (w'.con j).channel = (w.con j).channel)
    (hpoller : w'.base.poller = w.base.poller) (hnext : w'.nextChannel = w.nextChannel) :
    Tracks wakeupFd listenFd w' s where
  poller := h.poller.trans hpoller.symm
  lastId := h.lastId.trans hnext.symm
  obj_iff := by
    intro id ch
    rw [h.obj_iff]
    apply and_congr_right
    rintro -
    constructor
    · intro hown
      exact hown.imp fun j hch => (hcon j).trans hch
    · intro hown
      exact hown.imp fun j hch => (hcon j).symm.trans hch
  id_pos hch := h.id_pos ((hcon _).symm.trans hch)
  owner hch hch' := h.owner ((hcon _).symm.trans hch) ((hcon _).symm.trans hch')

/-- The channel of one connection changes or is deleted. -/
theorem replace (h : Tracks wakeupFd listenFd w s) (hch : (w.con i).channel = some ch)
    (hid : ∀ {ch'}, (w'.con i).channel = some ch' → ch'.id = ch.id)
    (hcon : ∀ j, j ≠ i → (w'.con j).channel = (w.con j).channel)
    (hnext : w'.nextChannel = w.nextChannel) :
    Tracks wakeupFd listenFd w'
      ⟨w'.base.poller, Function.update s.obj ch.id (w'.con i).channel, s.lastId⟩ where
  poller := rfl
  lastId := h.lastId.trans hnext.symm
  obj_iff := by
    intro id ch'
    simp only [Function.update_apply]
    split
    · rename_i he
      constructor
      · intro hch'
        exact ⟨(hid hch').trans he.symm, .con hch'⟩
      · -- no other channel has this identifier
        have hpos := h.id_pos hch
        rw [← he] at hpos
        rintro ⟨rfl, hown⟩
        obtain ⟨j, hch'⟩ := hown.exists_con hpos
        by_cases hj : j = i
        · rw [← hj]
          exact hch'
        · rw [hcon j hj] at hch'
          exact absurd (h.owner hch' hch he) hj
    · rename_i hne
      rw [h.obj_iff]
      apply and_congr_right
      intro hid'
      constructor
      · intro hown
        apply hown.imp
        intro j hch'
        apply (hcon j ?_).trans hch'
        rintro rfl
        obtain rfl := Option.some.inj (hch.symm.trans hch')
        exact hne hid'.symm
      · intro hown
        apply hown.imp
        intro j hch'
        apply (hcon j ?_).symm.trans hch'
        rintro rfl
        exact hne (hid'.symm.trans (hid hch'))
  id_pos := by
    intro j ch' hch'
    by_cases hj : j = i
    · subst hj
      rw [hid hch']
      exact h.id_pos hch
    · exact h.id_pos ((hcon j hj).symm.trans hch')
  owner := by
    -- the identifiers are those of before
    have hold : ∀ {j ch'}, (w'.con j).channel = some ch' →
        ∃ ch₀, (w.con j).channel = some ch₀ ∧ ch'.id = ch₀.id := by
      intro j ch' hch'
      by_cases hj : j = i
      · subst hj
        exact ⟨ch, hch, hid hch'⟩
      · exact ⟨ch', (hcon j hj).symm.trans hch', rfl⟩
    intro j k ch₁ ch₂ h₁ h₂ he
    obtain ⟨c₁, hc₁, he₁⟩ := hold h₁
    obtain ⟨c₂, hc₂, he₂⟩ := hold h₂
    exact h.owner hc₁ hc₂ (he₁.symm.trans (he.trans he₂))

end Tracks

/-! ### The two properties of a world -/

/-- Every descriptor in the select sets is the open descriptor of a channel that
is listed. -/
def World.SetsOpen (wakeupFd listenFd : Int) (w : World) : Prop :=
  ∀ fd, fd ∈ w.base.poller.allReadSet ∨ fd ∈ w.base.poller.allWriteSet →
    fd ≠ SOCKET_ERROR ∧ ∃ ch, w.Owns wakeupFd listenFd ch ∧
      ch.id ∈ w.base.poller.liveChannels ∧ ch.fd = fd

/-- Every channel that is listed is in the select sets its flags name. -/
def World.Polled (wakeupFd listenFd : Int) (w : World) : Prop :=
  ∀ ch, w.Owns wakeupFd listenFd ch → ch.id ∈ w.base.poller.liveChannels →
    (ch.readable → ch.fd ∈ w.base.poller.allReadSet) ∧
      (ch.writable → ch.fd ∈ w.base.poller.allWriteSet)

theorem Tracks.setsOpen_iff (h : Tracks wakeupFd listenFd w s) :
    s.SetsOpen ↔ w.SetsOpen wakeupFd listenFd := by
  simp only [Channels.SetsOpen, World.SetsOpen, h.poller]
  refine forall_congr' fun fd => imp_congr_right fun _ => and_congr_right fun _ => ?_
  constructor
  · rintro ⟨id, hid, ch, hch, hfd⟩
    obtain ⟨rfl, hown⟩ := h.obj_iff.mp hch
    exact ⟨ch, hown, hid, hfd⟩
  · rintro ⟨ch, hown, hid, hfd⟩
    exact ⟨ch.id, hid, ch, h.obj_iff.mpr ⟨rfl, hown⟩, hfd⟩

theorem Tracks.polled_iff (h : Tracks wakeupFd listenFd w s) :
    s.Polled ↔ w.Polled wakeupFd listenFd := by
  simp only [Channels.Polled, World.Polled, h.poller]
  constructor
  · intro hs ch hown hid
    exact hs ch.id hid ch (h.obj_iff.mpr ⟨rfl, hown⟩)
  · intro hw id hid ch hch
    obtain ⟨rfl, hown⟩ := h.obj_iff.mp hch
    exact hw ch hown hid

/-! ### Every change is a run of operations -/

/-- Some run of operations leads to the channels of `w`. -/
def Traced (wakeupFd listenFd : Int) (w : World) : Prop :=
  ∃ ops s, Exec.exec channelStep Channels.init ops = some s ∧ Tracks wakeupFd listenFd w s

namespace Traced

theorem extend (h : Traced wakeupFd listenFd w)
    (hops : ∀ s, Tracks wakeupFd listenFd w s →
      ∃ ops s', Exec.exec channelStep s ops = some s' ∧ Tracks wakeupFd listenFd w' s') :
    Traced wakeupFd listenFd w' := by
  obtain ⟨ops, s, hrun, hs⟩ := h
  obtain ⟨ops', s', hrun', hs'⟩ := hops s hs
  refine ⟨ops ++ ops', s', ?_, hs'⟩
  rw [Exec.exec_append, hrun]
  exact hrun'

theorem frame (h : Traced wakeupFd listenFd w)
    (hcon : ∀ j, (w'.con j).channel = (w.con j).channel)
    (hpoller : w'.base.poller = w.base.poller) (hnext : w'.nextChannel = w.nextChannel) :
    Traced wakeupFd listenFd w' := by
  obtain ⟨ops, s, hrun, hs⟩ := h
  exact ⟨ops, s, hrun, hs.frame hcon hpoller hnext⟩

/-- A connection changes, and its channel does not. -/
theorem set (h : Traced wakeupFd listenFd w) {c : TcpConn}
    (hch : c.channel = (w.con i).channel) : Traced wakeupFd listenFd (w.set i c) := by
  refine h.frame (fun j => ?_) rfl rfl
  rcases eq_or_ne j i with rfl | hj
  · simp only [World.set, Function.update_self, hch]
  · simp only [World.set, Function.update_of_ne hj]

/-- Operations on the channel of one connection. -/
theorem steps (h : Traced wakeupFd listenFd w) (hch : (w.con i).channel = some ch)
    (hid : ∀ {ch'}, (w'.con i).channel = some ch' → ch'.id = ch.id)
    (hcon : ∀ j, j ≠ i → (w'.con j).channel = (w.con j).channel)
    (hnext : w'.nextChannel = w.nextChannel)
    (hops : ∀ s : Channels, s.obj ch.id = some ch → s.poller = w.base.poller →
      ∃ ops, Exec.exec channelStep s ops =
        some ⟨w'.base.poller, Function.update s.obj ch.id (w'.con i).channel, s.lastId⟩) :
    Traced wakeupFd listenFd w' := by
  apply h.extend
  intro s hs
  obtain ⟨ops, hrun⟩ := hops s (hs.obj_iff.mpr ⟨rfl, .con hch⟩) hs.poller
  exact ⟨ops, _, hrun, hs.replace hch hid hcon hnext⟩

theorem enableWrite (h : Traced wakeupFd listenFd w) (i : ConnId) (enable : Bool) :
    Traced wakeupFd listenFd (w.onLink i fun l => l.enableWrite enable) := by
  cases hch : (w.con i).channel with
  | none =>
      simp only [World.onLink, Link.enableWrite, hch]
      exact h.set rfl
  | some ch =>
      have hself : ((w.onLink i fun l => l.enableWrite enable).con i).channel =
          some { ch with writable := enable } := by
        simp only [World.onLink, World.set, Function.update_self, Link.enableWrite, hch]
      have hpoller : (w.onLink i fun l => l.enableWrite enable).base.poller =
          w.base.poller.updateChannel { ch with writable := enable } := by
        simp only [World.onLink, Link.enableWrite, hch]
      refine h.steps hch ?_ (fun j hj => ?_) rfl (fun s hobj hp => ?_)
      · intro ch' hch'
        rw [hself] at hch'
        obtain rfl := Option.some.inj hch'
        rfl
      · simp only [World.onLink, World.set, Function.update_of_ne hj]
      · refine ⟨[.enableWrite ch.id enable], ?_⟩
        rw [hself, hpoller, ← hp]
        simp only [Exec.exec, channelStep, hobj, Option.map_some, Option.bind_some]
        rfl

/-- A function of the sending side runs on a connection. -/
theorem onLink (h : Traced wakeupFd listenFd w) (i : ConnId) (f : Link → Link)
    (hf : ∀ l : Link, l.Switches (f l)) : Traced wakeupFd listenFd (w.onLink i f) := by
  obtain ⟨enables, henables⟩ := hf ⟨w.con i, w.base.poller⟩
  -- by induction over the switches: the connection and the poller end up as they do
  suffices hsteps : ∀ (enables : List Bool) (w w' : World), Traced wakeupFd listenFd w →
      ((w'.con i).channel, w'.base.poller) =
        enables.foldl switchWrite ((w.con i).channel, w.base.poller) →
      (∀ j, j ≠ i → (w'.con j).channel = (w.con j).channel) →
      w'.nextChannel = w.nextChannel → Traced wakeupFd listenFd w' by
    refine hsteps enables w _ h ?_ (fun j hj => ?_) rfl
    · refine Eq.trans ?_ henables
      simp only [World.onLink, World.set, Function.update_self]
      rfl
    · simp only [World.onLink, World.set, Function.update_of_ne hj]
  intro enables
  induction enables with
  | nil =>
      intro w w' h heq hcon hnext
      obtain ⟨hself, hpoller⟩ := Prod.mk.inj heq
      apply h.frame _ hpoller hnext
      intro j
      rcases eq_or_ne j i with rfl | hj
      · exact hself
      · exact hcon j hj
  | cons enable enables ih =>
      intro w w' h heq hcon hnext
      refine ih _ w' (h.enableWrite i enable) ?_ (fun j hj => ?_) hnext
      · rw [heq, List.foldl_cons]
        congr 1
        rw [show ((w.con i).channel, w.base.poller) = Link.handle ⟨w.con i, w.base.poller⟩ from rfl,
          ← Link.handle_enableWrite]
        simp only [World.onLink, World.set, Function.update_self]
        rfl
      · rw [hcon j hj]
        simp only [World.onLink, World.set, Function.update_of_ne hj]

theorem shut (h : Traced wakeupFd listenFd w) (hch : (w.con i).channel = some ch)
    (hfd : ch.fd ≠ SOCKET_ERROR) : Traced wakeupFd listenFd (shutChannel i ch w) := by
  have hself : ((shutChannel i ch w).con i).channel = some { ch with fd := SOCKET_ERROR } := by
    simp only [shutChannel, World.set, Function.update_self]
  refine h.steps hch ?_ (fun j hj => ?_) rfl (fun s hobj hp => ⟨[.close ch.id], ?_⟩)
  · intro ch' hch'
    rw [hself] at hch'
    obtain rfl := Option.some.inj hch'
    rfl
  · simp only [shutChannel, removeChannel, World.set, Function.update_of_ne hj]
  · rw [hself]
    simp only [Exec.exec, channelStep, hobj, Option.map_some, Option.bind_some, Channels.close,
      if_pos hfd, hp]
    rfl

/-- The destructor of a channel closes it, if it is open, and frees it. -/
theorem drop (h : Traced wakeupFd listenFd w) (hch : (w.con i).channel = some ch) {c : TcpConn}
    (hnone : c.channel = none) :
    Traced wakeupFd listenFd
      (if ch.fd ≠ SOCKET_ERROR then removeChannel ch (w.set i c) else w.set i c) := by
  have hself : ((w.set i c).con i).channel = none := by
    simp only [World.set, Function.update_self, hnone]
  have hother : ∀ j, j ≠ i → ((w.set i c).con j).channel = (w.con j).channel := by
    intro j hj
    simp only [World.set, Function.update_of_ne hj]
  have hid : ∀ {ch'}, ((w.set i c).con i).channel = some ch' → ch'.id = ch.id := by
    intro ch' hch'
    rw [hself] at hch'
    cases hch'
  split
  · rename_i hfd
    refine h.steps hch hid hother rfl fun s hobj hp => ⟨[.close ch.id, .free ch.id], ?_⟩
    rw [show ((removeChannel ch (w.set i c)).con i).channel = none from hself]
    simp only [Exec.exec, channelStep, hobj, Option.map_some, Option.bind_some, Channels.close,
      if_pos hfd, Function.update_self, if_true, Channels.free, Function.update_idem, hp]
    rfl
  · rename_i hfd
    have hfd : ch.fd = SOCKET_ERROR := not_not.mp hfd
    refine h.steps hch hid hother rfl fun s hobj hp => ⟨[.free ch.id], ?_⟩
    rw [hself]
    simp only [Exec.exec, channelStep, hobj, Option.bind_some, if_pos hfd, Channels.free, hp]
    rfl

/-- A connection is accepted, on a descriptor that no channel has. -/
theorem accept (h : Traced wakeupFd listenFd w) (app : App) {fd : Int} (sock : Socket)
    (hfd : fd ≠ SOCKET_ERROR) (hfresh : ∀ ch, w.Owns wakeupFd listenFd ch → ch.fd ≠ fd)
    (hunborn : (w.con w.nextConn).channel = none) :
    Traced wakeupFd listenFd (handleAccept app fd sock w) := by
  obtain ⟨ops, s, hrun, hs⟩ := h
  have hok := channelsOk_of_run hrun
  have hstep : channelStep s (.construct fd) = some (s.construct fd) := by
    apply if_pos
    refine ⟨hfd, fun id hid heq => ?_⟩
    obtain ⟨ch, hobj, hch⟩ := Option.map_eq_some_iff.mp heq
    exact hfresh ch (hs.obj_iff.mp hobj).2 hch
  refine ⟨ops ++ [.construct fd], s.construct fd, ?_, ?_⟩
  · rw [Exec.exec_append, hrun]
    exact congrArg (Option.bind · some) hstep
  have hself : ((handleAccept app fd sock w).con w.nextConn).channel =
      some ⟨w.nextChannel, fd, true, false⟩ := by
    simp only [handleAccept, World.log, World.set, Function.update_self, acceptedCon]
  have hother : ∀ j, j ≠ w.nextConn →
      (handleAccept app fd sock w).con j = w.con j := by
    intro j hj
    simp only [handleAccept, World.log, World.set, Function.update_of_ne hj]
  -- the old channels have smaller identifiers
  have hlt : ∀ {j ch}, (w.con j).channel = some ch → ch.id ≠ w.nextChannel := by
    intro j ch hch he
    have hle := (hok.id_eq (hs.obj_iff.mpr ⟨rfl, .con hch⟩)).2
    rw [he, ← hs.lastId] at hle
    exact Nat.not_succ_le_self _ hle
  -- a channel of the new world is an old one, or the new one
  have hcon : ∀ {j ch}, ((handleAccept app fd sock w).con j).channel = some ch ↔
      (w.con j).channel = some ch ∨ j = w.nextConn ∧ ch = ⟨w.nextChannel, fd, true, false⟩ := by
    intro j ch
    by_cases hj : j = w.nextConn
    · subst hj
      rw [hself, hunborn]
      simp [eq_comm]
    · rw [hother j hj]
      simp [hj]
  have hpos : 3 ≤ w.nextChannel := by
    rw [← hs.lastId]
    exact Nat.succ_le_succ (hok.id_eq (hs.obj_iff.mpr ⟨rfl, .listen⟩)).2
  constructor
  · simp only [Channels.construct, handleAccept, World.log, EventBase.addConn, hs.poller,
      hs.lastId]
  · exact congrArg (· + 1) hs.lastId
  · intro id ch
    simp only [Channels.construct, Function.update_apply, hs.lastId]
    split
    · rename_i he
      constructor
      · intro hch
        obtain rfl := Option.some.inj hch
        exact ⟨he.symm, .con hself⟩
      · rintro ⟨hid, hown⟩
        obtain ⟨j, hch⟩ := hown.exists_con (le_of_le_of_eq hpos (hid.trans he).symm)
        rcases hcon.mp hch with hch | ⟨-, rfl⟩
        · exact absurd (hid.trans he) (hlt hch)
        · rfl
    · rename_i hne
      rw [hs.obj_iff]
      apply and_congr_right
      intro hid
      constructor
      · intro hown
        exact hown.imp fun j hch => hcon.mpr (Or.inl hch)
      · intro hown
        apply hown.imp
        intro j hch
        rcases hcon.mp hch with hch | ⟨-, rfl⟩
        · exact hch
        · exact absurd hid.symm hne
  · intro j ch hch
    rcases hcon.mp hch with hch | ⟨-, rfl⟩
    · exact hs.id_pos hch
    · exact hpos
  · intro j k ch ch' hch hch' he
    rcases hcon.mp hch with hch | ⟨hj, rfl⟩ <;> rcases hcon.mp hch' with hch' | ⟨hk, rfl⟩
    · exact hs.owner hch hch' he
    · exact absurd he (hlt hch)
    · exact absurd he.symm (hlt hch')
    · exact hj.trans hk.symm

end Traced

/-- What a world goes through are operations on its channels. -/
theorem traced_rule (app : App) : World.PollerRule app (Traced wakeupFd listenFd) where
  runOp {w} op h := by
    cases op with
    | send i buf => exact h.onLink i (·.send buf) fun l => l.switches_send buf
    | sendBuffer i buf =>
        exact h.onLink i (fun l => (l.sendBuffer buf.1).1) fun l => l.switches_sendBuffer buf.1
    | sendMsg i msg => exact h.onLink i (·.sendMsg msg) fun l => l.switches_sendMsg msg
    | sendOutput i => exact h.onLink i (·.sendOutput) fun l => l.switches_sendOutput
    | close i =>
        simp only [World.runOp]
        split
        · exact h.frame (fun _ => rfl) rfl rfl
        · exact h
    | addIdleCB i idle =>
        simp only [World.runOp]
        split
        · have hreg := EventBase.registers_registerIdle w.base w.now idle i
          refine Traced.frame (w := w.set i _) (h.set (i := i) ?_) (fun _ => rfl) hreg.poller rfl
          rfl
        · exact h
  keeps h _ hch := h.set hch
  log h _ := h.frame (fun _ => rfl) rfl rfl
  base h _ _ _ hp _ := h.frame (fun _ => rfl) hp rfl
  unregisterIdles {w} i h := h.frame (fun _ => rfl)
    (EventBase.foldl_frame (g := EventBase.poller) (f := EventBase.unregisterIdle)
      (fun _ _ => rfl) (w.con i).idleIds w.base) rfl
  updateIdles {w} i h := h.frame (fun _ => rfl)
    (EventBase.foldl_frame (g := EventBase.poller) (f := fun b id => b.updateIdle w.now id)
      (fun _ _ => rfl) (w.con i).idleIds w.base) rfl
  flush i h := h.onLink i (·.flush) fun l => l.switches_flush
  unwatch {w} i h := by
    simp only [unwatch]
    split
    · exact h.enableWrite i false
    · exact h
  shut h hch hfd := h.shut hch hfd
  drop h hch _ hnone _ := h.drop hch hnone

/-! ### Runs -/

/-- The operating system hands out descriptors that are not in use. -/
def FreshAccept (wakeupFd listenFd : Int) (w : World) : Input → Prop
  | .accept fd _ _ _ => ∀ ch, w.Owns wakeupFd listenFd ch → ch.fd ≠ fd
  | _ => True

theorem traced_init (hwakeup : wakeupFd ≠ SOCKET_ERROR) (hlisten : listenFd ≠ SOCKET_ERROR)
    (hne : wakeupFd ≠ listenFd) :
    Traced wakeupFd listenFd (World.init wakeupFd listenFd) := by
  refine ⟨[.construct wakeupFd, .construct listenFd],
    (Channels.init.construct wakeupFd).construct listenFd, ?_, ?_⟩
  · have h1 : Channels.init.FreshFd wakeupFd := ⟨hwakeup, fun id hid => by cases hid⟩
    have h2 : (Channels.init.construct wakeupFd).FreshFd listenFd := by
      refine ⟨hlisten, fun id hid heq => hne ?_⟩
      obtain rfl : id = 1 := List.mem_singleton.mp hid
      exact Option.some.inj heq
    simp only [Exec.exec, channelStep, if_pos h1, if_pos h2, Option.bind_some]
  · constructor
    · rfl
    · rfl
    · intro id ch
      simp only [Channels.construct, Channels.init, Function.update_apply]
      constructor
      · intro hch
        split at hch
        · rename_i hid
          obtain rfl := Option.some.inj hch
          exact ⟨hid.symm, .listen⟩
        · split at hch
          · rename_i hid
            obtain rfl := Option.some.inj hch
            exact ⟨hid.symm, .wakeup⟩
          · cases hch
      · rintro ⟨rfl, _ | _ | ⟨⟨⟩⟩⟩
        · rfl
        · rfl
    · intro i ch hch
      cases hch
    · intro i j ch ch' hch
      cases hch

theorem traced_of_worldStep {app : App} {a : Input} (hstep : worldStep app w a = some w')
    (hidle : IdleInv w) (hfresh : FreshAccept wakeupFd listenFd w a)
    (h : Traced wakeupFd listenFd w) : Traced wakeupFd listenFd w' := by
  apply (traced_rule app).worldStep hstep h
  · rintro fd recvs sends selects rfl hfd
    exact h.accept app _ hfd hfresh (hidle.fresh _ (Nat.le_refl _)).1
  · exact fun now => h.frame (fun _ => rfl) rfl rfl

/-- **The poller of an event base goes through a run of `channelStep`.**  In
every world that a run reaches, the poller and the channels are those that some
sequence of operations on channels leads to. -/
theorem tracks_of_run {app : App} {as : List Input} (hwakeup : wakeupFd ≠ SOCKET_ERROR)
    (hlisten : listenFd ≠ SOCKET_ERROR) (hne : wakeupFd ≠ listenFd)
    (h : Exec.exec (worldStep app) (World.init wakeupFd listenFd) as = some w)
    (hfresh : Exec.Along (worldStep app) (fun w a _ => FreshAccept wakeupFd listenFd w a)
      (World.init wakeupFd listenFd) as) :
    ∃ ops s, Exec.exec channelStep Channels.init ops = some s ∧
      Tracks wakeupFd listenFd w s :=
  (Exec.invariant_along (I := fun w => IdleInv w ∧ Traced wakeupFd listenFd w)
    (fun _ _ _ hstep hg hi => ⟨(IdleInv.rule app).worldStep hstep hi.1,
      traced_of_worldStep hstep hi.1 hg hi.2⟩) hfresh h
    ⟨idleInv_init wakeupFd listenFd, traced_init hwakeup hlisten hne⟩).2

/-! ### A closed descriptor is selected -/

/-- A server that says good-bye: its state callback sends a last message on a
connection that has just been closed. -/
def sayBye : App where
  plat := .x64
  slots := ⟨some .onMsg, false, true, false⟩
  onRead _ _ := []
  onMsg _ _ _ := []
  onWrite _ _ := []
  onState w i := if (w.con i).state = .closed then [.sendMsg i [98, 121, 101]] else []
  onTimer _ _ := []

/-- The caller closes a connection.  `Channel::Close` has taken the channel out
of the poller when the state callback sends; write interest is switched on of
the closed descriptor, and deleting the channel does not take it out again. -/
theorem closed_fd_selected :
    ¬ ∀ (app : App) (as : List Input) (w : World),
      Exec.exec (worldStep app) (World.init 4 5) as = some w → w.SetsOpen 4 5 := by
  intro hall
  have hrun : (Exec.exec (worldStep sayBye) (World.init 4 5)
      [.accept 6 [] [] [1], .readable 0, .user (.close 0), .task]).map
      (fun w => w.base.poller.allReadSet) = some [4, 5, SOCKET_ERROR] := by
    decide +kernel
  obtain ⟨w, hw, hset⟩ := Option.map_eq_some_iff.mp hrun
  have hmem : SOCKET_ERROR ∈ w.base.poller.allReadSet := by
    rw [hset]
    decide
  exact (hall sayBye _ w hw SOCKET_ERROR (Or.inl hmem)).1 rfl

/-! ### A connection is not polled -/

/-- Sixty-three connections are accepted, one after the other.  With the wakeup
channel and that of the listening socket the last of them is the sixty-fifth
channel, and the set is full. -/
theorem connection_not_polled :
    ¬ ∀ (app : App) (as : List Input) (w : World),
      Exec.exec (worldStep app) (World.init 4 5) as = some w → w.Polled 4 5 := by
  intro hall
  have hrun : (Exec.exec (worldStep sayBye) (World.init 4 5)
      ((List.range 63).map fun k => .accept (100 + k) [] [] [])).map
      (fun w => ((w.con 62).channel, decide (65 ∈ w.base.poller.liveChannels),
        decide (62 ∈ w.base.conns), decide (162 ∈ w.base.poller.allReadSet))) =
      some (some ⟨65, 162, true, false⟩, true, true, false) := by
    decide +kernel
  obtain ⟨w, hw, heq⟩ := Option.map_eq_some_iff.mp hrun
  obtain ⟨hch, hlive, -, hset⟩ := by
    simpa only [Prod.mk.injEq, decide_eq_true_eq, decide_eq_false_iff_not] using heq
  exact hset ((hall sayBye _ w hw _ (.con hch) hlive).1 rfl)

end Libet
