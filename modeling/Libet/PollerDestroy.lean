/-
Libet/PollerDestroy.lean

The destruction of a poller.

`~PollerSelect` closes the first channel of `m_liveChannels` until the list is
empty, but it enters this loop only if the member iterator `curIt`, which the
last pass of `LoopOnce` has left behind, is not at the end of the list.  `Close`
takes the channel out of the list and calls its read handler, which may operate
on any channels; every channel that is closed there leaves the list as well.

`destroysAll_iff`: the destructor closes all channels exactly if `curIt` is not
at the end or the list is empty.  A pass that dispatches the last channel leaves
`curIt` at the end.
-/
import Libet.DispatchSafety

namespace Libet

/-! ### The loop of the destructor -/

/-- Where control is in the destructor. -/
inductive DestroyControl
  /-- at `while (m_liveChannels.size())` -/
  | loop
  /-- inside the `HandleRead()` that `Close` has called -/
  | closing
  | done
  deriving DecidableEq, Repr

structure Destroy where
  chans : Channels
  control : DestroyControl

inductive DestroyLabel
  /-- a turn of the loop, up to the call of the handler -/
  | turn
  /-- the handler does something with the channels -/
  | op (op : ChannelOp)
  /-- the handler returns -/
  | ret
  deriving DecidableEq, Repr

namespace Destroy

/-- `if (curIt != m_liveChannels.end())`. -/
def start (s : Channels) : Destroy :=
  ⟨s, if s.poller.curIt.isSome then .loop else .done⟩

end Destroy

/-- One step of the destructor. -/
def destroyStep (d : Destroy) : DestroyLabel → Option Destroy
  | .turn =>
      match d.control, d.chans.poller.liveChannels with
      | .loop, [] => some { d with control := .done }
      | .loop, id :: _ =>
          (d.chans.obj id).map fun ch => ⟨d.chans.close ch, .closing⟩
      | _, _ => none
  | .op op =>
      match d.control with
      | .closing => (channelStep d.chans op).map fun s => { d with chans := s }
      | _ => none
  | .ret =>
      match d.control with
      | .closing => some { d with control := .loop }
      | _ => none

/-- The events of one step; a channel is removed where the body of its `Close`
runs. -/
def destroyEvents (d : Destroy) : DestroyLabel → List DispatchEvent
  | .turn =>
      match d.chans.poller.liveChannels with
      | [] => []
      | id :: _ => opEvents d.chans (.close id)
  | .op op => opEvents d.chans op
  | .ret => []

def DispatchEvent.removedOf : DispatchEvent → Option ChannelId
  | .removed ch => some ch
  | _ => none

/-- The channels that left the list, in order. -/
def removedChannels (l : List DispatchEvent) : List ChannelId := l.filterMap DispatchEvent.removedOf

/-- The destructor closes all channels, whatever the handlers do: it comes to its
end unless they make new channels for ever; at the end the list is empty, every
channel that was in it, or was made meanwhile, has been closed once, and the
sockets of the former are closed. -/
structure DestroysAll (s : Channels) : Prop where
  bounded : ∀ {as d}, Exec.exec destroyStep (Destroy.start s) as = some d →
    as.count .turn ≤ s.poller.liveChannels.length +
      (constructed (Exec.trace destroyStep destroyEvents (Destroy.start s) as)).length + 1
  progress : ∀ {as d}, Exec.exec destroyStep (Destroy.start s) as = some d →
    d.control = .done ∨ (destroyStep d .turn).isSome ∨ (destroyStep d .ret).isSome
  closes : ∀ {as d}, Exec.exec destroyStep (Destroy.start s) as = some d → d.control = .done →
    d.chans.poller.liveChannels = [] ∧
    (removedChannels (Exec.trace destroyStep destroyEvents (Destroy.start s) as)).Perm
      (s.poller.liveChannels ++
        constructed (Exec.trace destroyStep destroyEvents (Destroy.start s) as)) ∧
    ∀ id ∈ s.poller.liveChannels, ∀ ch, d.chans.obj id = some ch → ch.fd = SOCKET_ERROR

/-! ### The account of the list -/

variable {s s' s₀ : Channels} {d d' : Destroy} {l es : List DispatchEvent} {id : ChannelId}

theorem removedChannels_append :
    removedChannels (l ++ es) = removedChannels l ++ removedChannels es :=
  List.filterMap_append

/-- What was in the list and what has been made is what was taken out and what is
in the list. -/
def Accounts (s₀ s : Channels) (l : List DispatchEvent) : Prop :=
  (removedChannels l ++ s.poller.liveChannels).Perm (s₀.poller.liveChannels ++ constructed l)

theorem accounts_refl (s : Channels) : Accounts s s [] := by
  rw [Accounts]
  show (s.poller.liveChannels).Perm (s.poller.liveChannels ++ [])
  rw [List.append_nil]

theorem Accounts.trans (h : Accounts s₀ s l) (h' : Accounts s s' es) :
    Accounts s₀ s' (l ++ es) := by
  rw [Accounts] at h h' ⊢
  rw [removedChannels_append, constructed_append, List.append_assoc]
  refine (h'.append_left (removedChannels l)).trans ?_
  rw [← List.append_assoc, ← List.append_assoc]
  exact h.append_right (constructed es)

/-- **One operation on the channels.** -/
theorem accounts_op {op : ChannelOp} (h : ChannelsOk s) (hstep : channelStep s op = some s') :
    Accounts s s' (opEvents s op) := by
  cases op with
  | construct fd =>
      obtain ⟨-, rfl⟩ := construct_of_channelStep hstep
      exact List.Perm.refl _
  | enableRead id enable =>
      obtain ⟨ch, hch, rfl⟩ := Option.map_eq_some_iff.mp hstep
      exact accounts_refl s
  | enableWrite id enable =>
      obtain ⟨ch, hch, rfl⟩ := Option.map_eq_some_iff.mp hstep
      exact accounts_refl s
  | close id =>
      obtain ⟨ch, hch, rfl⟩ := Option.map_eq_some_iff.mp hstep
      obtain ⟨rfl, -⟩ := h.id_eq hch
      by_cases hfd : ch.fd = SOCKET_ERROR
      · -- it was closed already
        have hnot := h.not_mem_of_closed hch hfd
        rw [Channels.close, if_neg (not_not.mpr hfd), opEvents, if_neg hnot]
        exact accounts_refl s
      · have hmem := h.listed hch hfd
        rw [Accounts, Channels.close, if_pos hfd, opEvents, if_pos hmem]
        show (ch.id :: s.poller.liveChannels.filter (· ≠ ch.id)).Perm (s.poller.liveChannels ++ [])
        rw [List.append_nil]
        have hpred : (fun id => id != ch.id) = fun id => decide (id ≠ ch.id) := by
          funext id
          rw [decide_not]
          rfl
        have herase := List.perm_cons_erase hmem
        rw [h.live_nodup.erase_eq_filter, hpred] at herase
        exact herase.symm
  | free id =>
      obtain ⟨ch, hch, hfd, rfl⟩ := free_of_channelStep hstep
      exact accounts_refl s

/-! ### What a step does -/

/-- The steps of the destructor. -/
inductive DestroyStep (d : Destroy) : DestroyLabel → Destroy → List DispatchEvent → Prop
  | close {id : ChannelId} {ids : List ChannelId} {ch : Channel} (hctl : d.control = .loop)
      (hlive : d.chans.poller.liveChannels = id :: ids) (hch : d.chans.obj id = some ch) :
      DestroyStep d .turn ⟨d.chans.close ch, .closing⟩ (opEvents d.chans (.close id))
  | leave (hctl : d.control = .loop) (hlive : d.chans.poller.liveChannels = []) :
      DestroyStep d .turn { d with control := .done } []
  | op {op : ChannelOp} {s : Channels} (hctl : d.control = .closing)
      (hop : channelStep d.chans op = some s) :
      DestroyStep d (.op op) { d with chans := s } (opEvents d.chans op)
  | ret (hctl : d.control = .closing) : DestroyStep d .ret { d with control := .loop } []

theorem DestroyStep.of_destroyStep {a : DestroyLabel} (hstep : destroyStep d a = some d') :
    DestroyStep d a d' (destroyEvents d a) := by
  cases a with
  | turn =>
      simp only [destroyStep] at hstep
      split at hstep
      · rename_i hctl hlive
        cases hstep
        rw [destroyEvents, hlive]
        exact .leave hctl hlive
      · rename_i id ids hctl hlive
        obtain ⟨ch, hch, rfl⟩ := Option.map_eq_some_iff.mp hstep
        rw [destroyEvents, hlive]
        exact .close hctl hlive hch
      · cases hstep
  | op op =>
      simp only [destroyStep] at hstep
      split at hstep
      · rename_i hctl
        obtain ⟨s, hs, rfl⟩ := Option.map_eq_some_iff.mp hstep
        exact .op hctl hs
      · cases hstep
  | ret =>
      simp only [destroyStep] at hstep
      split at hstep <;> cases hstep
      rename_i hctl
      exact .ret hctl

/-- A turn of the loop is the `Close` of the first channel. -/
theorem channelStep_close {ch : Channel} (hch : s.obj id = some ch) :
    channelStep s (.close id) = some (s.close ch) := by
  rw [channelStep, hch]
  rfl

/-- A channel that exists and is listed no more was closed. -/
theorem ChannelsOk.fd_of_not_mem (h : ChannelsOk s) (hid : id ∉ s.poller.liveChannels)
    {ch : Channel} (hch : s.obj id = some ch) : ch.fd = SOCKET_ERROR := by
  by_contra hfd
  exact hid (h.listed hch hfd)

/-- Every step keeps list and objects in agreement. -/
theorem destroyStep_ok {a : DestroyLabel} (h : ChannelsOk d.chans)
    (hstep : destroyStep d a = some d') : ChannelsOk d'.chans := by
  have hsteps := DestroyStep.of_destroyStep hstep
  generalize destroyEvents d a = es at hsteps
  cases hsteps with
  | close hctl hlive hch => exact channelStep_ok (channelStep_close hch) h
  | leave hctl hlive => exact h
  | op hctl hop => exact channelStep_ok hop h
  | ret hctl => exact h

/-- The invariant of the destructor, with what has happened so far: it accounts
for the list, and behind the loop the list is empty. -/
structure DestroyInv (s₀ : Channels) (d : Destroy) (l : List DispatchEvent) : Prop where
  ok : ChannelsOk d.chans
  account : Accounts s₀ d.chans l
  empty : d.control = .done → d.chans.poller.liveChannels = []

theorem DestroyInv.step {a : DestroyLabel} (h : DestroyInv s₀ d l)
    (hstep : destroyStep d a = some d') : DestroyInv s₀ d' (l ++ destroyEvents d a) := by
  obtain ⟨hok, hacc, hempty⟩ := h
  have hok' := destroyStep_ok hok hstep
  have hsteps := DestroyStep.of_destroyStep hstep
  generalize destroyEvents d a = es at hsteps ⊢
  cases hsteps with
  | close hctl hlive hch =>
      have hclose := channelStep_close hch
      exact ⟨hok', hacc.trans (accounts_op hok hclose), fun h => by cases h⟩
  | leave hctl hlive =>
      rw [List.append_nil]
      exact ⟨hok, hacc, fun _ => hlive⟩
  | op hctl hop =>
      exact ⟨hok', hacc.trans (accounts_op hok hop), fun h => by cases hctl.symm.trans h⟩
  | ret hctl =>
      rw [List.append_nil]
      exact ⟨hok, hacc, fun h => by cases h⟩

/-- How far a step brings the destructor to its end: every turn takes a channel
out of the list, or is the last. -/
theorem count_turn_step {a : DestroyLabel} (hok : ChannelsOk d.chans)
    (hstep : destroyStep d a = some d') :
    [a].count .turn + d'.chans.poller.liveChannels.length + (if d'.control = .done then 0 else 1) ≤
      d.chans.poller.liveChannels.length + (constructed (destroyEvents d a)).length +
        (if d.control = .done then 0 else 1) := by
  have hsteps := DestroyStep.of_destroyStep hstep
  generalize destroyEvents d a = es at hsteps ⊢
  cases hsteps with
  | @close id ids ch hctl hlive hch =>
      have hacc := (accounts_op hok (channelStep_close hch)).length_eq
      have hmem : id ∈ d.chans.poller.liveChannels := by rw [hlive]; exact List.mem_cons_self
      rw [opEvents, if_pos hmem] at hacc ⊢
      simp [hctl, removedChannels, constructed, DispatchEvent.removedOf, DispatchEvent.constructedOf]
        at hacc ⊢
      omega
  | leave hctl hlive =>
      simp [hctl, hlive]
  | @op op s hctl hop =>
      have hacc := (accounts_op hok hop).length_eq
      rw [List.length_append, List.length_append] at hacc
      simp [hctl]
      omega
  | ret hctl =>
      simp [hctl]

/-- **The turns of a run**: as many as there are channels to close, and one. -/
theorem count_turn_le {as : List DestroyLabel} (hok : ChannelsOk d.chans)
    (hrun : Exec.exec destroyStep d as = some d') :
    as.count .turn + d'.chans.poller.liveChannels.length +
        (if d'.control = .done then 0 else 1) ≤
      d.chans.poller.liveChannels.length +
        (constructed (Exec.trace destroyStep destroyEvents d as)).length +
        (if d.control = .done then 0 else 1) := by
  induction as generalizing d with
  | nil =>
      obtain rfl : d = d' := Option.some.inj hrun
      simp
  | cons a as ih =>
      obtain ⟨t, hstep, hrest⟩ := Exec.exec_cons_some hrun
      have hfirst := count_turn_step hok hstep
      have hrec := ih (destroyStep_ok hok hstep) hrest
      rw [Exec.trace_cons hstep, constructed_append, List.length_append,
        show a :: as = [a] ++ as from rfl, List.count_append]
      omega

/-- The destructor is not stuck. -/
theorem destroy_progress (h : ChannelsOk d.chans) :
    d.control = .done ∨ (destroyStep d .turn).isSome ∨ (destroyStep d .ret).isSome := by
  obtain ⟨s, control⟩ := d
  cases control with
  | done => exact Or.inl rfl
  | closing => exact Or.inr (Or.inr rfl)
  | loop =>
      right
      left
      simp only [destroyStep]
      split
      · rfl
      · rename_i id ids _ hlive
        obtain ⟨ch, hch, -⟩ := h.live_iff.mp (hlive ▸ List.mem_cons_self)
        dsimp only at hch
        rw [hch]
        rfl
      · rename_i hctl hnil
        cases hlive : s.poller.liveChannels with
        | nil => exact absurd hlive (hctl rfl)
        | cons id ids => exact absurd hlive (hnil id ids rfl)

/-- **The destructor enters its loop, and closes everything.** -/
theorem destroysAll_of_loop (h : ChannelsOk s)
    (hguard : s.poller.curIt.isSome ∨ s.poller.liveChannels = []) : DestroysAll s := by
  have hstart : DestroyInv s (Destroy.start s) [] := by
    refine ⟨h, accounts_refl s, fun hdone => ?_⟩
    rcases hguard with hcur | hlive
    · rw [Destroy.start, if_pos hcur] at hdone
      cases hdone
    · exact hlive
  have hinv : ∀ {as d}, Exec.exec destroyStep (Destroy.start s) as = some d →
      DestroyInv s d (Exec.trace destroyStep destroyEvents (Destroy.start s) as) :=
    fun hrun => Exec.history (I := DestroyInv s) (fun _ _ _ _ hstep hi => hi.step hstep) hrun hstart
  refine ⟨fun hrun => ?_, fun hrun => destroy_progress (hinv hrun).ok, fun hrun hdone => ?_⟩
  · have hcount := count_turn_le h hrun
    have hslack : (if (Destroy.start s).control = .done then 0 else 1) ≤ 1 := by split <;> decide
    have hlive : (Destroy.start s).chans.poller.liveChannels = s.poller.liveChannels := rfl
    rw [hlive] at hcount
    omega
  · obtain ⟨hok, hacc, hempty⟩ := hinv hrun
    have hnil := hempty hdone
    rw [Accounts, hnil, List.append_nil] at hacc
    refine ⟨hnil, hacc, fun id hid ch hch => hok.fd_of_not_mem ?_ hch⟩
    rw [hnil]
    exact List.not_mem_nil

/-! ### The states that passes leave behind -/

/-- The channels and the poller after any operations and any passes of
`LoopOnce`. -/
inductive Reached : Channels → Prop
  | init : Reached Channels.init
  | op {s s' : Channels} {op : ChannelOp} (h : Reached s) (hop : channelStep s op = some s') :
      Reached s'
  | loopOnce {s : Channels} {rs ws : List Int} {n : Int} {as : List DispatchLabel} {d : Dispatch}
      (h : Reached s) (hrun : Exec.exec (dispatchStep rs ws) (Dispatch.start s n) as = some d)
      (hdone : d.control = .done) : Reached d.chans

theorem Reached.ok (h : Reached s) : ChannelsOk s := by
  induction h with
  | init => exact channelsOk_init
  | op h hop ih => exact channelStep_ok hop ih
  | @loopOnce s rs ws n as d h hrun hdone ih =>
      have hstart : ChannelsOk (Dispatch.start s n).chans :=
        ⟨ih.id_eq, ih.live_iff, ih.live_nodup, ih.fd_inj, Cursor.valid_head? _, ih.read_nodup,
          ih.write_nodup⟩
      exact Exec.invariant (I := fun d : Dispatch => ChannelsOk d.chans)
        (fun _ _ _ hstep hi => dispatchStep_ok hstep hi) hrun hstart

/-- **When the destructor of a poller closes every connection.**  In every state
that operations and passes of `LoopOnce` leave behind, and for all that the
handlers may do: exactly if the iterator of the last pass is not at the end of
the list, or the list is empty. -/
theorem destroysAll_iff (h : Reached s) :
    DestroysAll s ↔ s.poller.curIt.isSome ∨ s.poller.liveChannels = [] := by
  constructor
  · intro hall
    by_cases hcur : s.poller.curIt.isSome
    · exact Or.inl hcur
    · -- the loop is not entered
      have hdone : (Destroy.start s).control = .done := if_neg hcur
      have hrun : Exec.exec destroyStep (Destroy.start s) [] = some (Destroy.start s) := rfl
      exact Or.inr (hall.closes hrun hdone).1
  · exact destroysAll_of_loop h.ok

/-- One channel, on descriptor 5. -/
def oneChannel : Channels := Channels.init.construct 5

theorem reached_oneChannel : Reached oneChannel :=
  .op .init (show channelStep Channels.init (.construct 5) = some oneChannel from rfl)

/-- After a pass in which `select` timed out. -/
theorem destroysAll_timedOut : DestroysAll (Dispatch.start oneChannel 0).chans := by
  have hrun : Exec.exec (dispatchStep [] []) (Dispatch.start oneChannel 0) [] =
      some (Dispatch.start oneChannel 0) := rfl
  exact (destroysAll_iff (.loopOnce reached_oneChannel hrun rfl)).mpr (Or.inl rfl)

/-- After a pass that has dispatched the only channel, the destructor leaves it
open. -/
theorem not_destroysAll : ¬ ∀ s, Reached s → DestroysAll s := by
  intro hall
  obtain ⟨d, hrun, hdone, hcur, hlive⟩ : ∃ d : Dispatch,
      Exec.exec (dispatchStep [5] []) (Dispatch.start oneChannel 1) [.visit 0, .ret 0] = some d ∧
        d.control = .done ∧ d.chans.poller.curIt = none ∧
        d.chans.poller.liveChannels = [1] := by
    refine ⟨_, rfl, ?_, ?_, ?_⟩ <;> decide
  have hd := hall d.chans (.loopOnce reached_oneChannel hrun hdone)
  have hstart : (Destroy.start d.chans).control = .done := by
    rw [Destroy.start, hcur]
    rfl
  have hempty : Exec.exec destroyStep (Destroy.start d.chans) [] = some (Destroy.start d.chans) :=
    rfl
  have hnil := (hd.closes hempty hstart).1
  rw [Destroy.start, hlive] at hnil
  cases hnil

end Libet
