/-
Libet/DispatchSafety.lean

Which channel objects the dispatch loop touches.

The loop reads the descriptor of a channel when its turn comes, calls its
handlers, and reads the descriptor once more behind the read handler.  By then
the handler may have closed and freed the channel.  `dispatch_safe_iff` says
that this is the only way in which the loop can touch an object that is not
there.
-/
import Libet.DispatchPass

namespace Libet

/-! ### Which objects the loop touches -/

/-- The channel whose descriptor the step reads, and whose handlers it calls. -/
def Dispatch.touches (d : Dispatch) : DispatchLabel → Option ChannelId
  | .visit _ => d.chans.poller.curIt
  | .op _ => none
  | .ret _ =>
      match d.control with
      | .reading ch => some ch
      | _ => none

/-- The loop touches an object that exists and is listed. -/
def Dispatch.Safe (d : Dispatch) (a : DispatchLabel) : Prop :=
  ∀ ch, d.touches a = some ch →
    (d.chans.obj ch).isSome ∧ ch ∈ d.chans.poller.liveChannels

/-- No read handler closes its own channel. -/
def Dispatch.KeepsOwn (d : Dispatch) (a : DispatchLabel) : Prop :=
  ∀ ch, d.control = .reading ch → a ≠ .op (.close ch)

instance (d : Dispatch) (a : DispatchLabel) : Decidable (d.KeepsOwn a) :=
  match h : d.control with
  | .reading c => decidable_of_iff (a ≠ .op (.close c))
      ⟨fun hne ch he => by cases h.symm.trans he; exact hne, fun hk => hk c h⟩
  | .head | .writing _ | .done => isTrue fun ch he => by cases h.symm.trans he

section Safe

variable {rs ws : List Int} {s s' : Channels} {d d' : Dispatch} {c : ChannelId}

/-- An operation takes no channel out of the list but the one it closes. -/
theorem channelStep_keeps {op : ChannelOp} (hstep : channelStep s op = some s')
    (h : ChannelsOk s) (hne : op ≠ .close c) (hc : c ∈ s.poller.liveChannels) :
    c ∈ s'.poller.liveChannels := by
  cases op with
  | construct fd =>
      obtain ⟨-, rfl⟩ := construct_of_channelStep hstep
      exact List.mem_append_left _ hc
  | enableRead id enable =>
      obtain ⟨ch, -, rfl⟩ := Option.map_eq_some_iff.mp hstep
      exact hc
  | enableWrite id enable =>
      obtain ⟨ch, -, rfl⟩ := Option.map_eq_some_iff.mp hstep
      exact hc
  | close id =>
      obtain ⟨ch, hobj, rfl⟩ := Option.map_eq_some_iff.mp hstep
      obtain ⟨rfl, -⟩ := h.id_eq hobj
      simp only [Channels.close]
      split
      · refine List.mem_filter.mpr ⟨hc, decide_eq_true ?_⟩
        rintro rfl
        exact hne rfl
      · exact hc
  | free id =>
      obtain ⟨ch, -, -, rfl⟩ := free_of_channelStep hstep
      exact hc

/-- An operation lists no channel that has been there and is gone. -/
theorem channelStep_gone {op : ChannelOp} (hstep : channelStep s op = some s')
    (hle : c ≤ s.lastId) (hc : c ∉ s.poller.liveChannels) :
    c ∉ s'.poller.liveChannels ∧ c ≤ s'.lastId := by
  cases op with
  | construct fd =>
      obtain ⟨-, rfl⟩ := construct_of_channelStep hstep
      refine ⟨fun hmem => ?_, Nat.le_succ_of_le hle⟩
      rcases List.mem_append.mp hmem with hmem | hmem
      · exact hc hmem
      · obtain rfl := List.mem_singleton.mp hmem
        exact Nat.not_succ_le_self _ hle
  | enableRead id enable =>
      obtain ⟨ch, -, rfl⟩ := Option.map_eq_some_iff.mp hstep
      exact ⟨hc, hle⟩
  | enableWrite id enable =>
      obtain ⟨ch, -, rfl⟩ := Option.map_eq_some_iff.mp hstep
      exact ⟨hc, hle⟩
  | close id =>
      obtain ⟨ch, hobj, rfl⟩ := Option.map_eq_some_iff.mp hstep
      simp only [Channels.close]
      split
      · exact ⟨fun hmem => hc (List.mem_filter.mp hmem).1, hle⟩
      · exact ⟨hc, hle⟩
  | free id =>
      obtain ⟨ch, -, -, rfl⟩ := free_of_channelStep hstep
      exact ⟨hc, hle⟩

theorem endBody_not_reading (d : Dispatch) (dec : Bool) :
    (d.endBody dec).control ≠ .reading c := by
  have hmode := (d.endBody_spec dec).2.2.mode
  intro he
  rw [Dispatch.mode, he] at hmode
  cases hmode

theorem testWrite_not_reading (d : Dispatch) (ch : ChannelId) (fd : Int) (dec : Bool) :
    (d.testWrite ws ch fd dec).control ≠ .reading c := by
  simp only [Dispatch.testWrite]
  split
  · intro he
    cases he
  · exact endBody_not_reading d dec

theorem testWrite_chans (d : Dispatch) (ch : ChannelId) (fd : Int) (dec : Bool) :
    (d.testWrite ws ch fd dec).chans = d.chans := by
  simp only [Dispatch.testWrite]
  split
  · rfl
  · exact (d.endBody_spec dec).1

/-- What a step can do to the channels. -/
theorem dispatchStep_chans {a : DispatchLabel} (hstep : dispatchStep rs ws d a = some d') :
    (∃ junk ch, a = .visit junk ∧ d.chans.poller.curIt = some ch ∧
      d'.chans = (d.advance ch).chans) ∨
    (∃ op, a = .op op ∧ d'.control = d.control ∧ channelStep d.chans op = some d'.chans) ∨
    ∃ junk, a = .ret junk ∧ (∀ c, d'.control ≠ .reading c) ∧ d'.chans = d.chans := by
  cases a with
  | visit junk =>
      left
      simp only [dispatchStep] at hstep
      split at hstep
      · rename_i ch hctl hcur
        refine ⟨junk, ch, rfl, hcur, ?_⟩
        split at hstep <;> cases hstep
        · rfl
        · exact testWrite_chans _ _ _ _
      · cases hstep
  | op op =>
      right
      left
      simp only [dispatchStep] at hstep
      split at hstep
      · obtain ⟨s, hs, rfl⟩ := Option.map_eq_some_iff.mp hstep
        exact ⟨op, rfl, rfl, hs⟩
      · obtain ⟨s, hs, rfl⟩ := Option.map_eq_some_iff.mp hstep
        exact ⟨op, rfl, rfl, hs⟩
      · cases hstep
  | ret junk =>
      right
      right
      simp only [dispatchStep] at hstep
      split at hstep
      · cases hstep
        exact ⟨junk, rfl, fun c => testWrite_not_reading _ _ _ _, testWrite_chans _ _ _ _⟩
      · cases hstep
        exact ⟨junk, rfl, fun c => endBody_not_reading _ _, (d.endBody_spec true).1⟩
      · cases hstep

theorem advance_ok (h : ChannelsOk d.chans) (ch : ChannelId) :
    ChannelsOk (d.advance ch).chans :=
  ⟨h.id_eq, h.live_iff, h.live_nodup, h.fd_inj, Cursor.valid_next _ _, h.read_nodup,
    h.write_nodup⟩

theorem dispatchStep_ok {a : DispatchLabel} (hstep : dispatchStep rs ws d a = some d')
    (h : ChannelsOk d.chans) : ChannelsOk d'.chans := by
  rcases dispatchStep_chans hstep with ⟨junk, ch, -, -, he⟩ | ⟨op, -, -, hop⟩ | ⟨junk, -, -, he⟩
  · rw [he]
    exact advance_ok h ch
  · exact channelStep_ok hop h
  · rw [he]
    exact h

/-- A step ends inside a read handler if it begins one, or stays in it. -/
theorem dispatchStep_reading {a : DispatchLabel} (hstep : dispatchStep rs ws d a = some d')
    (hctl : d'.control = .reading c) :
    (d.chans.poller.curIt = some c ∧
      d'.chans.poller.liveChannels = d.chans.poller.liveChannels) ∨
    ∃ op, a = .op op ∧ d.control = .reading c ∧ channelStep d.chans op = some d'.chans := by
  rcases dispatchStep_chans hstep with ⟨junk, ch, rfl, hcur, he⟩ | ⟨op, rfl, hsame, hop⟩ |
    ⟨junk, -, hnot, -⟩
  · left
    have hch : ch = c := by
      simp only [dispatchStep] at hstep
      split at hstep
      · rename_i ch' hctl' hcur'
        obtain rfl : ch' = ch := Option.some.inj (hcur'.symm.trans hcur)
        split at hstep <;> cases hstep
        · exact DispatchControl.reading.inj hctl
        · exact absurd hctl (testWrite_not_reading _ _ _ _)
      · cases hstep
    rw [he]
    exact ⟨hch ▸ hcur, rfl⟩
  · exact Or.inr ⟨op, rfl, hsame ▸ hctl, hop⟩
  · exact absurd hctl (hnot c)

/-- The channel whose read handler is running is listed. -/
structure OwnListed (d : Dispatch) : Prop where
  ok : ChannelsOk d.chans
  own : ∀ {c}, d.control = .reading c → c ∈ d.chans.poller.liveChannels

theorem OwnListed.step {a : DispatchLabel} (hstep : dispatchStep rs ws d a = some d')
    (hkeeps : d.KeepsOwn a) (h : OwnListed d) : OwnListed d' := by
  refine ⟨dispatchStep_ok hstep h.ok, fun {c} hctl => ?_⟩
  rcases dispatchStep_reading hstep hctl with ⟨hcur, he⟩ | ⟨op, rfl, hctl', hop⟩
  · rw [he]
    exact h.ok.cursor c hcur
  · apply channelStep_keeps hop h.ok _ (h.own hctl')
    rintro rfl
    exact hkeeps c hctl' rfl

theorem OwnListed.safe {a : DispatchLabel} (h : OwnListed d) : d.Safe a := by
  have hlisted : ∀ {ch}, ch ∈ d.chans.poller.liveChannels →
      (d.chans.obj ch).isSome ∧ ch ∈ d.chans.poller.liveChannels := by
    intro ch hmem
    obtain ⟨obj, hobj, -⟩ := h.ok.live_iff.mp hmem
    exact ⟨Option.isSome_iff_exists.mpr ⟨obj, hobj⟩, hmem⟩
  intro ch htouch
  cases a with
  | visit junk => exact hlisted (h.ok.cursor ch htouch)
  | op op => cases htouch
  | ret junk =>
      simp only [Dispatch.touches] at htouch
      split at htouch
      · rename_i c hctl
        cases htouch
        exact hlisted (h.own hctl)
      · cases htouch

/-- Once a read handler has closed its own channel, the loop will touch it,
unless the pass stays in the handler. -/
theorem not_safe_of_own_gone {as : List DispatchLabel}
    (hrun : Exec.exec (dispatchStep rs ws) d as = some d')
    (hend : ∀ c, d'.control ≠ .reading c) (hctl : d.control = .reading c)
    (hgone : c ∉ d.chans.poller.liveChannels) (hle : c ≤ d.chans.lastId) :
    ¬ Exec.Along (dispatchStep rs ws) (fun d a _ => d.Safe a) d as := by
  induction as generalizing d with
  | nil =>
      obtain rfl : d = d' := Option.some.inj hrun
      exact absurd hctl (hend c)
  | cons a as ih =>
      obtain ⟨d₁, hstep, hrest⟩ := Exec.exec_cons_some hrun
      intro hsafe
      obtain ⟨hnow, hlater⟩ := hsafe d₁ hstep
      cases a with
      | visit junk => simp [dispatchStep, hctl] at hstep
      | op op =>
          simp only [dispatchStep, hctl] at hstep
          obtain ⟨s, hs, rfl⟩ := Option.map_eq_some_iff.mp hstep
          obtain ⟨hgone', hle'⟩ := channelStep_gone hs hle hgone
          exact ih hrest rfl hgone' hle' hlater
      | ret junk =>
          -- the write test reads the descriptor of the channel
          have htouch : d.touches (.ret junk) = some c := by
            simp only [Dispatch.touches, hctl]
          exact hgone (hnow c htouch).2

/-- A pass that touches only listed objects has no read handler that closes its
own channel. -/
theorem keepsOwn_of_safe {as : List DispatchLabel} (h : ChannelsOk d.chans)
    (hrun : Exec.exec (dispatchStep rs ws) d as = some d')
    (hend : ∀ c, d'.control ≠ .reading c)
    (hsafe : Exec.Along (dispatchStep rs ws) (fun d a _ => d.Safe a) d as) :
    Exec.Along (dispatchStep rs ws) (fun d a _ => d.KeepsOwn a) d as := by
  induction as generalizing d with
  | nil => trivial
  | cons a as ih =>
      obtain ⟨d₁, hstep, hrest⟩ := Exec.exec_cons_some hrun
      intro d₂ hstep₂
      obtain rfl : d₁ = d₂ := Option.some.inj (hstep.symm.trans hstep₂)
      have hlater := (hsafe d₁ hstep).2
      refine ⟨?_, ih (dispatchStep_ok hstep h) hrest hlater⟩
      rintro c hctl rfl
      simp only [dispatchStep, hctl] at hstep
      obtain ⟨s, hs, rfl⟩ := Option.map_eq_some_iff.mp hstep
      obtain ⟨ch, hobj, rfl⟩ := Option.map_eq_some_iff.mp hs
      obtain ⟨rfl, hle⟩ := h.id_eq hobj
      have hgone := h.not_mem_close hobj
      have hle' : ch.id ≤ (d.chans.close ch).lastId := by
        simp only [Channels.close]
        split <;> exact hle
      exact not_safe_of_own_gone hrest hend rfl hgone hle' hlater

end Safe

/-- **The loop touches only objects that exist, exactly if no read handler closes
its own channel.**  For every pass over channels that agree with the list, every
ready sets and every count: if no read handler closes the channel it runs for,
then every channel whose descriptor the loop reads or whose handler it calls
exists and is listed at that moment; and a pass that is not inside a read
handler any more had that only if no read handler closed its own channel. -/
theorem dispatch_safe_iff {s : Channels} (h : ChannelsOk s) (rs ws : List Int) (n : Int)
    (as : List DispatchLabel) :
    (Exec.Along (dispatchStep rs ws) (fun d a _ => d.KeepsOwn a) (Dispatch.start s n) as →
      Exec.Along (dispatchStep rs ws) (fun d a _ => d.Safe a) (Dispatch.start s n) as) ∧
    ∀ d, Exec.exec (dispatchStep rs ws) (Dispatch.start s n) as = some d →
      (∀ c, d.control ≠ .reading c) →
      (Exec.Along (dispatchStep rs ws) (fun d a _ => d.Safe a) (Dispatch.start s n) as ↔
        Exec.Along (dispatchStep rs ws) (fun d a _ => d.KeepsOwn a) (Dispatch.start s n) as) := by
  have hok : ChannelsOk (Dispatch.start s n).chans :=
    ⟨h.id_eq, h.live_iff, h.live_nodup, h.fd_inj, Cursor.valid_head? _, h.read_nodup,
      h.write_nodup⟩
  have hstart : OwnListed (Dispatch.start s n) := by
    refine ⟨hok, fun {c} hctl => ?_⟩
    have hmode := Dispatch.start_mode s n
    rw [Dispatch.mode, hctl] at hmode
    cases hmode
  have hforward : Exec.Along (dispatchStep rs ws) (fun d a _ => d.KeepsOwn a)
      (Dispatch.start s n) as →
      Exec.Along (dispatchStep rs ws) (fun d a _ => d.Safe a) (Dispatch.start s n) as :=
    fun hkeeps => Exec.along_of_invariant (I := OwnListed)
      (fun _ _ _ hstep hk hi => OwnListed.step hstep hk hi)
      (fun _ _ _ _ _ hi => OwnListed.safe hi) hkeeps hstart
  exact ⟨hforward, fun d hrun hend => ⟨keepsOwn_of_safe hok hrun hend, hforward⟩⟩

/-- A pass in which a connection is read and its handler opens another one. -/
theorem dispatch_safe_reading :
    ∃ s, Exec.exec channelStep Channels.init [.construct 10, .construct 11] = some s ∧
      Exec.Along (dispatchStep [11] []) (fun d a _ => d.Safe a) (Dispatch.start s 1)
        [.visit 0, .visit 0, .op (.construct 12), .op (.enableWrite 2 true), .ret 0] := by
  have hrun : Exec.exec channelStep Channels.init [.construct 10, .construct 11] = some _ := rfl
  refine ⟨_, hrun, (dispatch_safe_iff (channelsOk_of_run hrun) [11] [] 1 _).1 ?_⟩
  decide +kernel

/-- **A connection that the peer closes.**  The third channel is readable; its
read handler runs `Cleanup`, which closes and frees it; the loop then reads its
descriptor for the write test. -/
theorem not_safe_peer_close :
    ¬ ∀ (ops : List ChannelOp) (s : Channels) (rs ws : List Int) (n : Int)
      (as : List DispatchLabel), Exec.exec channelStep Channels.init ops = some s →
      (rs ++ ws).dedup.length ≤ n →
      Exec.Along (dispatchStep rs ws) (fun d a _ => d.Safe a) (Dispatch.start s n) as := by
  intro hall
  have hsafe := hall [.construct 10, .construct 11, .construct 12] _ [12] [] 1
    [.visit 0, .visit 0, .visit 0, .op (.close 3), .op (.free 3), .ret 0] rfl (by decide)
  have hlast := ((((((hsafe _ rfl).2 _ rfl).2 _ rfl).2 _ rfl).2 _ rfl).2 _ rfl).1 3 rfl
  exact absurd hlast.1 (by decide)

end Libet
