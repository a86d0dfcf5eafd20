/-
Libet/SelectSets.lean

The select sets of the poller.

`UpdateChannel` inserts whatever descriptor the channel holds, and `FD_SET`
does nothing when the set is full.  The sets and the list of channels are
therefore only as good as the calls:

* the sets hold nothing but open descriptors of listed channels as long as
  nobody switches a flag on of a channel that is closed already, with room in
  the set (`setsOpen_run_iff`);
* a listed channel is in the sets its flags name as long as nobody joins a set
  that is full (`polled_run_iff`), for which it is enough that no more than
  `FD_SETSIZE` channels are open at once (`polled_of_few`).
-/
import Libet.Channels

namespace Libet

namespace Channels

/-- Every descriptor in the sets is the open descriptor of a listed channel. -/
def SetsOpen (s : Channels) : Prop :=
  ∀ fd, fd ∈ s.poller.allReadSet ∨ fd ∈ s.poller.allWriteSet →
    fd ≠ SOCKET_ERROR ∧
      ∃ id ∈ s.poller.liveChannels, ∃ ch, s.obj id = some ch ∧ ch.fd = fd

/-- Every listed channel is in the sets its flags name. -/
def Polled (s : Channels) : Prop :=
  ∀ id ∈ s.poller.liveChannels, ∀ ch, s.obj id = some ch →
    (ch.readable → ch.fd ∈ s.poller.allReadSet) ∧
      (ch.writable → ch.fd ∈ s.poller.allWriteSet)

/-- `UpdateChannel` would insert into a set with room. -/
def Joins (s : Channels) (ch : Channel) : Prop :=
  ch.readable ∧ s.poller.allReadSet.length < FD_SETSIZE ∨
    ch.writable ∧ s.poller.allWriteSet.length < FD_SETSIZE

/-- The sets that the flags of `ch` name have room for it, or hold it. -/
def HasRoom (s : Channels) (ch : Channel) : Prop :=
  (ch.readable → ch.fd ∈ s.poller.allReadSet ∨ s.poller.allReadSet.length < FD_SETSIZE) ∧
    (ch.writable → ch.fd ∈ s.poller.allWriteSet ∨ s.poller.allWriteSet.length < FD_SETSIZE)

/-- The channel that an operation hands to `AddChannel` or `UpdateChannel`. -/
def handed (s : Channels) : ChannelOp → Option Channel
  | .construct fd => some ⟨s.lastId + 1, fd, true, false⟩
  | .enableRead id enable => (s.obj id).map fun ch => { ch with readable := enable }
  | .enableWrite id enable => (s.obj id).map fun ch => { ch with writable := enable }
  | .close _ | .free _ => none

/-- **No insertion of a closed descriptor**: the operation does not hand a
closed channel to the poller, or that joins no set. -/
def NoDeadInsert (s : Channels) (op : ChannelOp) : Prop :=
  ∀ ch, s.handed op = some ch → ch.fd = SOCKET_ERROR → ¬ s.Joins ch

/-- **No full set**: the operation finds room for an open channel. -/
def FindsRoom (s : Channels) (op : ChannelOp) : Prop :=
  ∀ ch, s.handed op = some ch → ch.fd ≠ SOCKET_ERROR → s.HasRoom ch

end Channels

open Channels

variable {s s' : Channels} {op : ChannelOp} {ch ch₀ : Channel} {id : ChannelId}

/-- The two `Enable` calls are one operation: an object is replaced by one with
the same descriptor, and the poller is told. -/
theorem channelStep_handed (hstep : channelStep s op = some s') (h : ChannelsOk s)
    (hch : s.handed op = some ch) :
    (∃ fd, op = .construct fd ∧ s.FreshFd fd ∧ s' = s.construct fd) ∨
      ∃ ch₀, s.obj ch.id = some ch₀ ∧ ch.fd = ch₀.fd ∧ s' = s.update ch := by
  cases op with
  | construct fd =>
      obtain ⟨hfresh, rfl⟩ := construct_of_channelStep hstep
      exact Or.inl ⟨fd, rfl, hfresh, rfl⟩
  | enableRead id enable =>
      obtain ⟨ch₀, hobj, rfl⟩ := Option.map_eq_some_iff.mp hstep
      obtain ⟨ch₁, hobj', rfl⟩ := Option.map_eq_some_iff.mp hch
      obtain rfl : ch₁ = ch₀ := Option.some.inj (hobj'.symm.trans hobj)
      obtain ⟨rfl, -⟩ := h.id_eq hobj
      exact Or.inr ⟨ch₁, hobj, rfl, rfl⟩
  | enableWrite id enable =>
      obtain ⟨ch₀, hobj, rfl⟩ := Option.map_eq_some_iff.mp hstep
      obtain ⟨ch₁, hobj', rfl⟩ := Option.map_eq_some_iff.mp hch
      obtain rfl : ch₁ = ch₀ := Option.some.inj (hobj'.symm.trans hobj)
      obtain ⟨rfl, -⟩ := h.id_eq hobj
      exact Or.inr ⟨ch₁, hobj, rfl, rfl⟩
  | close id => cases hch
  | free id => cases hch

/-! ### The sets after an operation -/

theorem mem_update_read (h : ChannelsOk s) {x : Int} :
    x ∈ (s.update ch).poller.allReadSet ↔
      if ch.readable then
        x ∈ s.poller.allReadSet ∨ x = ch.fd ∧ s.poller.allReadSet.length < FD_SETSIZE
      else x ≠ ch.fd ∧ x ∈ s.poller.allReadSet := by
  simp only [Channels.update, PollerSelect.updateChannel]
  split
  · exact mem_fdSet
  · exact mem_fdClr h.read_nodup

theorem mem_update_write (h : ChannelsOk s) {x : Int} :
    x ∈ (s.update ch).poller.allWriteSet ↔
      if ch.writable then
        x ∈ s.poller.allWriteSet ∨ x = ch.fd ∧ s.poller.allWriteSet.length < FD_SETSIZE
      else x ≠ ch.fd ∧ x ∈ s.poller.allWriteSet := by
  simp only [Channels.update, PollerSelect.updateChannel]
  split
  · exact mem_fdSet
  · exact mem_fdClr h.write_nodup

theorem update_obj_self : (s.update ch).obj ch.id = some ch := Function.update_self ..

theorem update_obj_of_ne (h : id ≠ ch.id) : (s.update ch).obj id = s.obj id :=
  Function.update_of_ne h ..

theorem update_live : (s.update ch).poller.liveChannels = s.poller.liveChannels := rfl

/-- The descriptor in a set after `UpdateChannel` was there, or is the one of
the channel, inserted with room. -/
theorem mem_update_sets (h : ChannelsOk s) {x : Int}
    (hx : x ∈ (s.update ch).poller.allReadSet ∨ x ∈ (s.update ch).poller.allWriteSet) :
    (x ∈ s.poller.allReadSet ∨ x ∈ s.poller.allWriteSet) ∨ x = ch.fd ∧ s.Joins ch := by
  rcases hx with hx | hx
  · rw [mem_update_read h] at hx
    split at hx
    · rename_i hflag
      rcases hx with hx | ⟨hx, hroom⟩
      · exact Or.inl (Or.inl hx)
      · exact Or.inr ⟨hx, Or.inl ⟨hflag, hroom⟩⟩
    · exact Or.inl (Or.inl hx.2)
  · rw [mem_update_write h] at hx
    split at hx
    · rename_i hflag
      rcases hx with hx | ⟨hx, hroom⟩
      · exact Or.inl (Or.inr hx)
      · exact Or.inr ⟨hx, Or.inr ⟨hflag, hroom⟩⟩
    · exact Or.inl (Or.inr hx.2)

/-- A channel that joins a set is in it. -/
theorem mem_update_of_joins (h : ChannelsOk s) (hj : s.Joins ch) :
    ch.fd ∈ (s.update ch).poller.allReadSet ∨ ch.fd ∈ (s.update ch).poller.allWriteSet := by
  rcases hj with ⟨hflag, hroom⟩ | ⟨hflag, hroom⟩
  · left
    rw [mem_update_read h, if_pos hflag]
    exact Or.inr ⟨rfl, hroom⟩
  · right
    rw [mem_update_write h, if_pos hflag]
    exact Or.inr ⟨rfl, hroom⟩

/-! ### No closed descriptor in the sets -/

theorem setsOpen_init : SetsOpen Channels.init := by
  intro fd hfd
  rcases hfd with hfd | hfd <;> cases hfd

theorem Channels.SetsOpen.construct (hs : SetsOpen s) (h : ChannelsOk s) {fd : Int}
    (hfresh : s.FreshFd fd) : SetsOpen (s.construct fd) := by
  have hself : (s.construct fd).obj (s.lastId + 1) = some ⟨s.lastId + 1, fd, true, false⟩ :=
    Function.update_self ..
  intro x hx
  have hx' : (x ∈ s.poller.allReadSet ∨ x ∈ s.poller.allWriteSet) ∨ x = fd := by
    rcases hx with hx | hx
    · rcases mem_fdSet.mp hx with hx | ⟨hx, -⟩
      · exact Or.inl (Or.inl hx)
      · exact Or.inr hx
    · exact Or.inl (Or.inr hx)
  rcases hx' with hx | rfl
  · obtain ⟨hne, id, hid, ch, hch, hfd⟩ := hs x hx
    have hid' : id ≠ s.lastId + 1 := by
      rintro rfl
      exact h.not_mem_new hid
    exact ⟨hne, id, List.mem_append_left _ hid, ch,
      (Function.update_of_ne hid' ..).trans hch, hfd⟩
  · exact ⟨hfresh.1, s.lastId + 1, List.mem_append_right _ (List.mem_singleton.mpr rfl), _,
      hself, rfl⟩

theorem setsOpen_update_iff (hs : SetsOpen s) (h : ChannelsOk s) (hobj : s.obj ch.id = some ch₀)
    (hfd : ch.fd = ch₀.fd) :
    SetsOpen (s.update ch) ↔ (ch.fd = SOCKET_ERROR → ¬ s.Joins ch) := by
  constructor
  · intro hs' he hj
    exact (hs' ch.fd (mem_update_of_joins h hj)).1 he
  · intro hdead x hx
    rcases mem_update_sets h hx with hx | ⟨rfl, hj⟩
    · obtain ⟨hne, id, hid, ch', hch', rfl⟩ := hs x hx
      by_cases he : id = ch.id
      · subst he
        obtain rfl : ch' = ch₀ := Option.some.inj (hch'.symm.trans hobj)
        exact ⟨hne, ch.id, hid, ch, update_obj_self, hfd⟩
      · exact ⟨hne, id, hid, ch', (update_obj_of_ne he).trans hch', rfl⟩
    · -- the channel itself has joined, so its descriptor is open and it is listed
      have hne : ch.fd ≠ SOCKET_ERROR := fun he => hdead he hj
      exact ⟨hne, ch.id, h.listed hobj (hfd ▸ hne), ch, update_obj_self, rfl⟩

theorem Channels.SetsOpen.close (hs : SetsOpen s) (h : ChannelsOk s) (hobj : s.obj id = some ch) :
    SetsOpen (s.close ch) := by
  obtain ⟨rfl, -⟩ := h.id_eq hobj
  simp only [Channels.close]
  split
  · intro x hx
    have hx' : x ≠ ch.fd ∧ (x ∈ s.poller.allReadSet ∨ x ∈ s.poller.allWriteSet) := by
      rcases hx with hx | hx
      · have := (mem_fdClr h.read_nodup).mp hx
        exact ⟨this.1, Or.inl this.2⟩
      · have := (mem_fdClr h.write_nodup).mp hx
        exact ⟨this.1, Or.inr this.2⟩
    obtain ⟨hne, id, hid, ch', hch', rfl⟩ := hs x hx'.2
    have hid' : id ≠ ch.id := by
      rintro rfl
      obtain rfl : ch' = ch := Option.some.inj (hch'.symm.trans hobj)
      exact hx'.1 rfl
    exact ⟨hne, id, List.mem_filter.mpr ⟨hid, decide_eq_true hid'⟩, ch',
      (Function.update_of_ne hid' ..).trans hch', rfl⟩
  · exact hs

theorem Channels.SetsOpen.free (hs : SetsOpen s) (h : ChannelsOk s) (hobj : s.obj id = some ch)
    (hfd : ch.fd = SOCKET_ERROR) : SetsOpen (s.free ch) := by
  obtain ⟨rfl, -⟩ := h.id_eq hobj
  intro x hx
  obtain ⟨hne, id, hid, ch', hch', rfl⟩ := hs x hx
  have hid' : id ≠ ch.id := by
    rintro rfl
    exact h.not_mem_of_closed hobj hfd hid
  exact ⟨hne, id, hid, ch', (Function.update_of_ne hid' ..).trans hch', rfl⟩

/-- What an operation that hands nothing to the poller does. -/
theorem channelStep_unhanded (hstep : channelStep s op = some s') (hch : s.handed op = none) :
    (∃ id ch, s.obj id = some ch ∧ s' = s.close ch) ∨
      ∃ id ch, s.obj id = some ch ∧ ch.fd = SOCKET_ERROR ∧ s' = s.free ch := by
  cases op with
  | construct fd => cases hch
  | enableRead id enable =>
      obtain ⟨ch, hobj, -⟩ := Option.map_eq_some_iff.mp hstep
      rw [handed, hobj] at hch
      cases hch
  | enableWrite id enable =>
      obtain ⟨ch, hobj, -⟩ := Option.map_eq_some_iff.mp hstep
      rw [handed, hobj] at hch
      cases hch
  | close id =>
      obtain ⟨ch, hobj, rfl⟩ := Option.map_eq_some_iff.mp hstep
      exact Or.inl ⟨id, ch, hobj, rfl⟩
  | free id =>
      obtain ⟨ch, hobj, hfd, rfl⟩ := free_of_channelStep hstep
      exact Or.inr ⟨id, ch, hobj, hfd, rfl⟩

/-- **One operation and the descriptors in the sets.** -/
theorem setsOpen_step_iff (hstep : channelStep s op = some s') (h : ChannelsOk s)
    (hs : SetsOpen s) : SetsOpen s' ↔ s.NoDeadInsert op := by
  cases hhanded : s.handed op with
  | none =>
      have hgood : SetsOpen s' := by
        rcases channelStep_unhanded hstep hhanded with ⟨id, ch, hobj, rfl⟩ | ⟨id, ch, hobj, hfd, rfl⟩
        · exact hs.close h hobj
        · exact hs.free h hobj hfd
      refine ⟨fun _ ch hch => ?_, fun _ => hgood⟩
      rw [hhanded] at hch
      cases hch
  | some ch =>
      have hone : s.NoDeadInsert op ↔ (ch.fd = SOCKET_ERROR → ¬ s.Joins ch) := by
        simp only [NoDeadInsert, hhanded, Option.some.injEq, forall_eq']
      rw [hone]
      rcases channelStep_handed hstep h hhanded with ⟨fd, rfl, hfresh, rfl⟩ | ⟨ch₀, hobj, hfd, rfl⟩
      · obtain rfl := Option.some.inj hhanded
        exact ⟨fun _ he => absurd he hfresh.1, fun _ => hs.construct h hfresh⟩
      · exact setsOpen_update_iff hs h hobj hfd

/-- **The select sets never hold a closed descriptor, exactly if nobody inserts
one.**  Every state along a run of operations, in any order, has only open
descriptors of listed channels in its sets if and only if no step of the run
switches a flag on of a closed channel whose set has room. -/
theorem setsOpen_run_iff (ops : List ChannelOp) :
    Exec.Along channelStep (fun _ _ s' => SetsOpen s') Channels.init ops ↔
      Exec.Along channelStep (fun s op _ => s.NoDeadInsert op) Channels.init ops :=
  Exec.along_iff (I := fun s => ChannelsOk s ∧ SetsOpen s)
    (fun _ _ _ hstep hs h => ⟨channelStep_ok hstep h.1, hs⟩)
    (fun _ _ _ hstep h => setsOpen_step_iff hstep h.1 h.2)
    ⟨channelsOk_init, setsOpen_init⟩

/-! ### Every listed channel is polled -/

theorem polled_init : Polled Channels.init := by
  intro id hid
  cases hid

theorem mem_construct_live {fd : Int} :
    id ∈ (s.construct fd).poller.liveChannels ↔ id ∈ s.poller.liveChannels ∨ id = s.lastId + 1 := by
  simp only [Channels.construct, PollerSelect.addChannel, List.mem_append, List.mem_singleton]

theorem polled_construct_iff (hp : Polled s) (h : ChannelsOk s) (fd : Int) :
    Polled (s.construct fd) ↔ s.HasRoom ⟨s.lastId + 1, fd, true, false⟩ := by
  have hself : (s.construct fd).obj (s.lastId + 1) = some ⟨s.lastId + 1, fd, true, false⟩ :=
    Function.update_self ..
  have hread : ∀ {x}, x ∈ (s.construct fd).poller.allReadSet ↔
      x ∈ s.poller.allReadSet ∨ x = fd ∧ s.poller.allReadSet.length < FD_SETSIZE := mem_fdSet
  constructor
  · intro hp'
    have hnew := hp' (s.lastId + 1) (mem_construct_live.mpr (Or.inr rfl)) _ hself
    refine ⟨fun hflag => ?_, fun hflag => by cases hflag⟩
    rcases hread.mp (hnew.1 hflag) with hx | ⟨-, hroom⟩
    · exact Or.inl hx
    · exact Or.inr hroom
  · intro hroom id hid ch hch
    rcases mem_construct_live.mp hid with hid | rfl
    · have hne : id ≠ s.lastId + 1 := by
        rintro rfl
        exact h.not_mem_new hid
      have hch' : s.obj id = some ch := by
        rw [← hch]
        exact (Function.update_of_ne hne ..).symm
      obtain ⟨hr, hw⟩ := hp id hid ch hch'
      exact ⟨fun hflag => hread.mpr (Or.inl (hr hflag)), hw⟩
    · obtain rfl := Option.some.inj (hself.symm.trans hch)
      refine ⟨fun hflag => hread.mpr ?_, fun hflag => by cases hflag⟩
      rcases hroom.1 hflag with hx | hlt
      · exact Or.inl hx
      · exact Or.inr ⟨rfl, hlt⟩

/-- A channel's own descriptor is in the sets its flags name after
`UpdateChannel`, exactly if it had room. -/
theorem mem_update_self_iff (h : ChannelsOk s) :
    ((ch.readable → ch.fd ∈ (s.update ch).poller.allReadSet) ∧
      (ch.writable → ch.fd ∈ (s.update ch).poller.allWriteSet)) ↔ s.HasRoom ch := by
  apply and_congr
  · apply forall_congr'
    intro hflag
    rw [mem_update_read h, if_pos hflag]
    simp only [true_and]
  · apply forall_congr'
    intro hflag
    rw [mem_update_write h, if_pos hflag]
    simp only [true_and]

/-- Another descriptor stays in its sets. -/
theorem mem_update_other (h : ChannelsOk s) {x : Int} (hx : x ≠ ch.fd) :
    (x ∈ s.poller.allReadSet → x ∈ (s.update ch).poller.allReadSet) ∧
      (x ∈ s.poller.allWriteSet → x ∈ (s.update ch).poller.allWriteSet) := by
  constructor
  · intro hmem
    rw [mem_update_read h]
    split
    · exact Or.inl hmem
    · exact ⟨hx, hmem⟩
  · intro hmem
    rw [mem_update_write h]
    split
    · exact Or.inl hmem
    · exact ⟨hx, hmem⟩

theorem polled_update_iff (hp : Polled s) (h : ChannelsOk s) (hobj : s.obj ch.id = some ch₀)
    (hfd : ch.fd = ch₀.fd) :
    Polled (s.update ch) ↔ (ch.fd ≠ SOCKET_ERROR → s.HasRoom ch) := by
  constructor
  · intro hp' hne
    rw [← mem_update_self_iff h]
    exact hp' ch.id (h.listed hobj (hfd ▸ hne)) ch update_obj_self
  · intro hroom id hid ch' hch'
    by_cases he : id = ch.id
    · subst he
      obtain rfl := Option.some.inj (update_obj_self.symm.trans hch')
      obtain ⟨ch₁, hobj₁, hne⟩ := h.live_iff.mp hid
      obtain rfl : ch₁ = ch₀ := Option.some.inj (hobj₁.symm.trans hobj)
      exact (mem_update_self_iff h).mpr (hroom (hfd ▸ hne))
    · rw [update_obj_of_ne he] at hch'
      obtain ⟨ch₁, hobj₁, hne⟩ := h.live_iff.mp hid
      obtain rfl : ch₁ = ch' := Option.some.inj (hobj₁.symm.trans hch')
      -- two objects do not share an open descriptor
      have hx : ch₁.fd ≠ ch.fd := fun hx => he (h.fd_inj hch' hobj hne (hx.trans hfd))
      obtain ⟨hr, hw⟩ := mem_update_other h hx
      obtain ⟨hr', hw'⟩ := hp id hid ch₁ hch'
      exact ⟨fun hflag => hr (hr' hflag), fun hflag => hw (hw' hflag)⟩

theorem Channels.Polled.close (hp : Polled s) (h : ChannelsOk s) (hobj : s.obj id = some ch) :
    Polled (s.close ch) := by
  obtain ⟨rfl, -⟩ := h.id_eq hobj
  simp only [Channels.close]
  split
  · intro id hid ch' hch'
    obtain ⟨hid, hne⟩ := List.mem_filter.mp hid
    have hne : id ≠ ch.id := of_decide_eq_true hne
    have hobj' : s.obj id = some ch' := by
      rw [← hch']
      exact (Function.update_of_ne hne ..).symm
    obtain ⟨ch₁, hobj₁, hfd⟩ := h.live_iff.mp hid
    obtain rfl : ch₁ = ch' := Option.some.inj (hobj₁.symm.trans hobj')
    have hx : ch₁.fd ≠ ch.fd := fun hx => hne (h.fd_inj hobj₁ hobj hfd hx)
    obtain ⟨hr, hw⟩ := hp id hid ch₁ hobj'
    exact ⟨fun hflag => (mem_fdClr h.read_nodup).mpr ⟨hx, hr hflag⟩,
      fun hflag => (mem_fdClr h.write_nodup).mpr ⟨hx, hw hflag⟩⟩
  · exact hp

theorem Channels.Polled.free (hp : Polled s) (h : ChannelsOk s) (hobj : s.obj id = some ch) :
    Polled (s.free ch) := by
  obtain ⟨rfl, -⟩ := h.id_eq hobj
  intro id hid ch' hch'
  simp only [Channels.free, Function.update_apply] at hch'
  split at hch'
  · cases hch'
  · exact hp id hid ch' hch'

/-- **One operation and the sets of the listed channels.** -/
theorem polled_step_iff (hstep : channelStep s op = some s') (h : ChannelsOk s)
    (hp : Polled s) : Polled s' ↔ s.FindsRoom op := by
  cases hhanded : s.handed op with
  | none =>
      have hgood : Polled s' := by
        rcases channelStep_unhanded hstep hhanded with ⟨id, ch, hobj, rfl⟩ | ⟨id, ch, hobj, -, rfl⟩
        · exact hp.close h hobj
        · exact hp.free h hobj
      refine ⟨fun _ ch hch => ?_, fun _ => hgood⟩
      rw [hhanded] at hch
      cases hch
  | some ch =>
      have hone : s.FindsRoom op ↔ (ch.fd ≠ SOCKET_ERROR → s.HasRoom ch) := by
        simp only [FindsRoom, hhanded, Option.some.injEq, forall_eq']
      rw [hone]
      rcases channelStep_handed hstep h hhanded with ⟨fd, rfl, hfresh, rfl⟩ | ⟨ch₀, hobj, hfd, rfl⟩
      · obtain rfl := Option.some.inj hhanded
        rw [polled_construct_iff hp h fd]
        exact ⟨fun hroom _ => hroom, fun hroom => hroom hfresh.1⟩
      · exact polled_update_iff hp h hobj hfd

/-- **Every listed channel is polled, exactly if nobody meets a full set.**  In
every state along a run of operations each listed channel is in the sets its
flags name if and only if every step of the run that hands an open channel to
the poller finds its descriptor in these sets, or fewer than `FD_SETSIZE`
entries. -/
theorem polled_run_iff (ops : List ChannelOp) :
    Exec.Along channelStep (fun _ _ s' => Polled s') Channels.init ops ↔
      Exec.Along channelStep (fun s op _ => s.FindsRoom op) Channels.init ops :=
  Exec.along_iff (I := fun s => ChannelsOk s ∧ Polled s)
    (fun _ _ _ hstep hp h => ⟨channelStep_ok hstep h.1, hp⟩)
    (fun _ _ _ hstep h => polled_step_iff hstep h.1 h.2)
    ⟨channelsOk_init, polled_init⟩

/-! ### Few channels -/

/-- Without closed descriptors a set is no longer than the list of channels it
leaves out none of. -/
theorem length_le_live (l : List Int) (hl : l.Nodup)
    (hopen : ∀ fd ∈ l, ∃ id ∈ s.poller.liveChannels, ∃ ch, s.obj id = some ch ∧ ch.fd = fd) :
    l.length ≤ s.poller.liveChannels.length := by
  have hsub : l ⊆ s.poller.liveChannels.map fun id => ((s.obj id).map Channel.fd).getD 0 := by
    intro fd hfd
    obtain ⟨id, hid, ch, hch, rfl⟩ := hopen fd hfd
    exact List.mem_map.mpr ⟨id, hid, by rw [hch]; rfl⟩
  have hle := (List.subperm_of_subset hl hsub).length_le
  rwa [List.length_map] at hle

/-- A listed channel that is not in a set of open descriptors has room there, if
no more than `FD_SETSIZE` channels are listed. -/
theorem room_of_few (h : ChannelsOk s) (hobj : s.obj id = some ch) (hfd : ch.fd ≠ SOCKET_ERROR)
    (hfew : s.poller.liveChannels.length ≤ FD_SETSIZE) (l : List Int) (hl : l.Nodup)
    (hopen : ∀ fd ∈ l, ∃ id ∈ s.poller.liveChannels, ∃ ch, s.obj id = some ch ∧ ch.fd = fd) :
    ch.fd ∈ l ∨ l.length < FD_SETSIZE := by
  by_cases hmem : ch.fd ∈ l
  · exact Or.inl hmem
  · right
    have hcons := length_le_live (s := s) (ch.fd :: l) (List.nodup_cons.mpr ⟨hmem, hl⟩) (by
      intro fd hfd'
      rcases List.mem_cons.mp hfd' with rfl | hfd'
      · exact ⟨id, h.listed hobj hfd, ch, hobj, rfl⟩
      · exact hopen fd hfd')
    rw [List.length_cons] at hcons
    omega

/-- With few channels every operation finds room. -/
theorem findsRoom_of_few (hstep : channelStep s op = some s') (h : ChannelsOk s)
    (hs : SetsOpen s) (hfew : s'.poller.liveChannels.length ≤ FD_SETSIZE) :
    s.FindsRoom op := by
  have hread := fun fd hfd => (hs fd (Or.inl hfd)).2
  have hwrite := fun fd hfd => (hs fd (Or.inr hfd)).2
  intro ch hch hfd
  rcases channelStep_handed hstep h hch with ⟨fd, rfl, -, rfl⟩ | ⟨ch₀, hobj, hfd', rfl⟩
  · obtain rfl := Option.some.inj hch
    simp only [Channels.construct, PollerSelect.addChannel, List.length_append,
      List.length_singleton] at hfew
    have hle := length_le_live s.poller.allReadSet h.read_nodup hread
    exact ⟨fun _ => Or.inr (by omega), fun hflag => by cases hflag⟩
  · rw [update_live] at hfew
    rw [hfd'] at hfd
    simp only [HasRoom, hfd']
    exact ⟨fun _ => room_of_few h hobj hfd hfew _ h.read_nodup hread,
      fun _ => room_of_few h hobj hfd hfew _ h.write_nodup hwrite⟩

/-- **`FD_SETSIZE` channels are fine.**  As long as no closed descriptor is
inserted and never more than `FD_SETSIZE` channels are open at once, the wakeup
channel and the listening one included, every listed channel is polled. -/
theorem polled_of_few {ops : List ChannelOp}
    (hdead : Exec.Along channelStep (fun s op _ => s.NoDeadInsert op) Channels.init ops)
    (hfew : Exec.Along channelStep
      (fun _ _ s' => s'.poller.liveChannels.length ≤ FD_SETSIZE) Channels.init ops) :
    Exec.Along channelStep (fun _ _ s' => Polled s') Channels.init ops := by
  refine Exec.along_of_invariant (I := fun s => ChannelsOk s ∧ SetsOpen s ∧ Polled s)
    ?_ ?_ (hdead.and hfew) ⟨channelsOk_init, setsOpen_init, polled_init⟩
  · intro s op s' hstep hG h
    have hroom := findsRoom_of_few hstep h.1 h.2.1 hG.2
    exact ⟨channelStep_ok hstep h.1, (setsOpen_step_iff hstep h.1 h.2.1).mpr hG.1,
      (polled_step_iff hstep h.1 h.2.2).mpr hroom⟩
  · intro s op s' hstep hG h
    exact (polled_step_iff hstep h.1 h.2.2).mpr (findsRoom_of_few hstep h.1 h.2.1 hG.2)

instance (s : Channels) (ch : Channel) : Decidable (s.Joins ch) :=
  inferInstanceAs (Decidable (_ ∨ _))

instance (s : Channels) (op : ChannelOp) : Decidable (s.NoDeadInsert op) :=
  match h : s.handed op with
  | none => isTrue fun ch hch => by cases h.symm.trans hch
  | some ch => decidable_of_iff (ch.fd = SOCKET_ERROR → ¬ s.Joins ch)
      ⟨fun hno ch' hch' => by cases h.symm.trans hch'; exact hno, fun hno => hno ch h⟩

/-- A channel is closed, switched off behind its `Close`, and freed, and its descriptor is
that of a new one. -/
theorem polled_of_few_reused :
    let ops := [.construct 5, .construct 6, .enableWrite 2 true, .close 1, .enableRead 1 false,
      .free 1, .construct 5, .enableRead 2 false, .enableWrite 3 true]
    (Exec.exec channelStep Channels.init ops).isSome ∧
      Exec.Along channelStep (fun _ _ s' => Polled s') Channels.init ops :=
  ⟨by decide, polled_of_few (by decide) (by decide)⟩

end Libet
