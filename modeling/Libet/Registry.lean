/-
Libet/Registry.lean

The registry, the poller and the connections agree.

A connection that is handshaking or connected stands once in `m_conns`, and its
channel once in the poller; nothing else does.  The agreement is lost nowhere,
not even in the middle of a teardown: `shutChannel` takes the channel out of the
poller when it marks it shut, and `terminate` takes the connection out of
`m_conns` when it leaves its state.

Main result: `registered_of_run`.
-/
import Libet.Runs

namespace Libet

namespace Hub

variable {v : Hub} {i j : ConnId} {slots : Slots}

/-- The poller holds the open channels, each once, and the channels `1` and `2`
of the event base itself. -/
structure ChannelsOk (v : Hub) : Prop where
  live_nodup : v.live.Nodup
  channel_mem : ∀ i ch, (v.peer i).channel = some (ch, true) → ch ∈ v.live
  live_owner : ∀ ch ∈ v.live, ch = 1 ∨ ch = 2 ∨ ∃ i, (v.peer i).channel = some (ch, true)
  channel_inj : ∀ i j ch b b', (v.peer i).channel = some (ch, b) →
    (v.peer j).channel = some (ch, b') → i = j
  channel_lt : ∀ i ch b, (v.peer i).channel = some (ch, b) → ch < v.nextChannel
  live_lt : ∀ ch ∈ v.live, ch < v.nextChannel

/-- In addition the registry holds the connections that are handshaking or
connected, each once, and only these have channels. -/
structure Consistent (v : Hub) : Prop extends ChannelsOk v where
  conns_nodup : v.conns.Nodup
  mem_conns : ∀ i, i ∈ v.conns ↔ (v.peer i).state.live
  channel_none : ∀ i, (v.peer i).state.live = false → (v.peer i).channel = none
  fresh : ∀ i, v.nextConn ≤ i → (v.peer i).state = .invalid

/-- The agreement depends on the states, the channels and the lists. -/
theorem Consistent.congr {v' : Hub} (h : v.Consistent)
    (hstate : ∀ j, (v'.peer j).state.live = (v.peer j).state.live)
    (hinv : ∀ j, (v.peer j).state = .invalid → (v'.peer j).state = .invalid)
    (hch : ∀ j, (v'.peer j).channel = (v.peer j).channel)
    (hlists : v'.conns = v.conns ∧ v'.live = v.live ∧ v'.nextConn = v.nextConn ∧
      v'.nextChannel = v.nextChannel) : v'.Consistent := by
  obtain ⟨h1, h2, h3, h4⟩ := hlists
  refine ⟨⟨?_, ?_, ?_, ?_, ?_, ?_⟩, ?_, ?_, ?_, ?_⟩
  · rw [h2]; exact h.live_nodup
  · intro j ch; rw [hch, h2]; exact h.channel_mem j ch
  · intro ch; rw [h2]; simp only [hch]; exact h.live_owner ch
  · intro j k ch b b'; rw [hch, hch]; exact h.channel_inj j k ch b b'
  · intro j ch b; rw [hch, h4]; exact h.channel_lt j ch b
  · intro ch; rw [h2, h4]; exact h.live_lt ch
  · rw [h1]; exact h.conns_nodup
  · intro j; rw [h1, hstate]; exact h.mem_conns j
  · intro j; rw [hstate, hch]; exact h.channel_none j
  · intro j; rw [h3]; exact fun hj => hinv j (h.fresh j hj)

/-- Another state, live if and only if the old one is, and other data. -/
theorem Consistent.put (h : v.Consistent) {c : Peer}
    (hlive : c.state.live = (v.peer i).state.live) (hinv : (v.peer i).state ≠ .invalid)
    (hch : c.channel = (v.peer i).channel) : (v.put i c).Consistent := by
  refine h.congr (fun j => ?_) (fun j hj => ?_) (fun j => ?_) ⟨rfl, rfl, rfl, rfl⟩
  · rcases eq_or_ne j i with rfl | hne
    · rw [put_peer, hlive]
    · rw [put_peer_of_ne hne]
  · rcases eq_or_ne j i with rfl | hne
    · exact absurd hj hinv
    · rwa [put_peer_of_ne hne]
  · rcases eq_or_ne j i with rfl | hne
    · rw [put_peer, hch]
    · rw [put_peer_of_ne hne]

theorem Consistent.log (h : v.Consistent) (e : Event) : (v.log e).Consistent :=
  h.congr (fun _ => rfl) (fun _ => id) (fun _ => rfl) ⟨rfl, rfl, rfl, rfl⟩

theorem mem_liveWithout {ch : ChannelId} :
    ch ∈ v.liveWithout i ↔ ch ∈ v.live ∧ (v.peer i).channel ≠ some (ch, true) := by
  simp [liveWithout]

/-- The channel of connection `i` leaves the poller and is not open any more. -/
theorem ChannelsOk.withdraw {v' : Hub} (h : v.ChannelsOk)
    (hlive : v'.live = v.liveWithout i) (hnext : v'.nextChannel = v.nextChannel)
    (hother : ∀ j, j ≠ i → (v'.peer j).channel = (v.peer j).channel)
    (hi : ∀ ch b, (v'.peer i).channel = some (ch, b) →
      b = false ∧ ∃ b', (v.peer i).channel = some (ch, b')) : v'.ChannelsOk := by
  -- what a channel was before
  have hch : ∀ {j ch b}, (v'.peer j).channel = some (ch, b) →
      ∃ b', (v.peer j).channel = some (ch, b') := by
    intro j ch b hj
    rcases eq_or_ne j i with rfl | hne
    · exact (hi ch b hj).2
    · exact ⟨b, (hother j hne).symm.trans hj⟩
  have hopen : ∀ {j ch}, (v'.peer j).channel = some (ch, true) →
      j ≠ i ∧ (v.peer j).channel = some (ch, true) := by
    intro j ch hj
    rcases eq_or_ne j i with rfl | hne
    · cases (hi ch true hj).1
    · exact ⟨hne, (hother j hne).symm.trans hj⟩
  constructor
  · rw [hlive]; exact h.live_nodup.filter _
  · intro j ch hj
    obtain ⟨hne, hj⟩ := hopen hj
    rw [hlive, mem_liveWithout]
    exact ⟨h.channel_mem j ch hj, fun hi => hne (h.channel_inj j i ch _ _ hj hi)⟩
  · intro ch hmem
    rw [hlive, mem_liveWithout] at hmem
    refine (h.live_owner ch hmem.1).imp_right (Or.imp_right ?_)
    rintro ⟨j, hj⟩
    have hne : j ≠ i := fun e => hmem.2 (e ▸ hj)
    exact ⟨j, (hother j hne).trans hj⟩
  · intro j k ch b b' hj hk
    obtain ⟨b₁, hj⟩ := hch hj
    obtain ⟨b₂, hk⟩ := hch hk
    exact h.channel_inj j k ch b₁ b₂ hj hk
  · intro j ch b hj
    obtain ⟨b₁, hj⟩ := hch hj
    rw [hnext]
    exact h.channel_lt j ch b₁ hj
  · intro ch hmem
    rw [hlive, mem_liveWithout] at hmem
    rw [hnext]
    exact h.live_lt ch hmem.1

/-- Connection `i`, which has no channel, gets a new one, which joins the poller. -/
theorem ChannelsOk.join {v' : Hub} (h : v.ChannelsOk) (hnone : (v.peer i).channel = none)
    (hlive : v'.live = v.live ++ [v.nextChannel]) (hnext : v'.nextChannel = v.nextChannel + 1)
    (hother : ∀ j, j ≠ i → (v'.peer j).channel = (v.peer j).channel)
    (hi : (v'.peer i).channel = some (v.nextChannel, true)) : v'.ChannelsOk := by
  have hout : v.nextChannel ∉ v.live := fun hmem => Nat.lt_irrefl _ (h.live_lt _ hmem)
  have hmem : ∀ {ch}, ch ∈ v'.live ↔ ch ∈ v.live ∨ ch = v.nextChannel := fun {ch} => by
    rw [hlive, List.mem_append, List.mem_singleton]
  -- a channel is the new one, or an old one with a smaller number
  have hch : ∀ {j ch b}, (v'.peer j).channel = some (ch, b) →
      (j = i ∧ ch = v.nextChannel) ∨
        ((v.peer j).channel = some (ch, b) ∧ ch < v.nextChannel) := by
    intro j ch b hj
    rcases eq_or_ne j i with rfl | hne
    · rw [hi] at hj
      cases hj
      exact Or.inl ⟨rfl, rfl⟩
    · rw [hother j hne] at hj
      exact Or.inr ⟨hj, h.channel_lt j ch b hj⟩
  constructor
  · rw [hlive, List.nodup_append]
    refine ⟨h.live_nodup, List.nodup_singleton _, ?_⟩
    rintro ch hold ch' hnew rfl
    exact hout (List.mem_singleton.mp hnew ▸ hold)
  · intro j ch hj
    rcases hch hj with ⟨-, rfl⟩ | ⟨hj, -⟩
    · exact hmem.mpr (Or.inr rfl)
    · exact hmem.mpr (Or.inl (h.channel_mem j ch hj))
  · intro ch hlive'
    rcases hmem.mp hlive' with hold | rfl
    · refine (h.live_owner ch hold).imp_right (Or.imp_right ?_)
      rintro ⟨j, hj⟩
      have hne : j ≠ i := fun e => by rw [e, hnone] at hj; cases hj
      exact ⟨j, (hother j hne).trans hj⟩
    · exact Or.inr (Or.inr ⟨i, hi⟩)
  · intro j k ch b b' hj hk
    rcases hch hj with ⟨rfl, rfl⟩ | ⟨hj, hlt⟩ <;> rcases hch hk with ⟨rfl, heq⟩ | ⟨hk, hlt'⟩
    · rfl
    · exact absurd hlt' (Nat.lt_irrefl _)
    · exact absurd (heq ▸ hlt) (Nat.lt_irrefl _)
    · exact h.channel_inj j k ch b b' hj hk
  · intro j ch b hj
    rw [hnext]
    rcases hch hj with ⟨-, rfl⟩ | ⟨-, hlt⟩
    · exact Nat.lt_succ_self _
    · exact Nat.lt_succ_of_lt hlt
  · intro ch hlive'
    rw [hnext]
    rcases hmem.mp hlive' with hold | rfl
    · exact Nat.lt_succ_of_lt (h.live_lt ch hold)
    · exact Nat.lt_succ_self _

/-- The channel of a connection is shut. -/
theorem Consistent.shutChannel (h : v.Consistent) (i : ConnId) :
    (v.shutChannel i).Consistent := by
  obtain ⟨h1, h2, h3, h4⟩ := shutChannel_lists v i
  have hstate : ∀ j, ((v.shutChannel i).peer j).state = (v.peer j).state := fun j => by
    rcases eq_or_ne j i with rfl | hne
    · rw [shutChannel_peer]
    · rw [shutChannel_peer_of_ne hne]
  refine ⟨h.toChannelsOk.withdraw (i := i) h2 h4 (fun j hj => ?_) (fun ch b hi => ?_),
    ?_, ?_, ?_, ?_⟩
  · rw [shutChannel_peer_of_ne hj]
  · rw [shutChannel_peer, Option.map_eq_some_iff] at hi
    obtain ⟨⟨ch', b'⟩, hi, heq⟩ := hi
    cases heq
    exact ⟨rfl, b', hi⟩
  · rw [h1]; exact h.conns_nodup
  · intro j; rw [h1, hstate]; exact h.mem_conns j
  · intro j hj
    rw [hstate] at hj
    rcases eq_or_ne j i with rfl | hne
    · rw [shutChannel_peer, h.channel_none j hj]; rfl
    · rw [shutChannel_peer_of_ne hne]; exact h.channel_none j hj
  · intro j; rw [h3, hstate]; exact h.fresh j

/-- The teardown takes a connection out of both lists. -/
theorem Consistent.terminate (h : v.Consistent) (hinv : (v.peer i).state ≠ .invalid) :
    (v.terminate i).Consistent := by
  obtain ⟨h1, h2, h3, h4⟩ := terminate_lists v i
  have hpeer := terminate_peer v i
  have hdead : ((v.terminate i).peer i).state.live = false := by
    rw [hpeer]; exact Peer.terminal_not_live _
  have hnone : ((v.terminate i).peer i).channel = none := by rw [hpeer]
  refine ⟨h.toChannelsOk.withdraw (i := i) h2 h4 (fun j hj => ?_) (fun ch b hi => ?_),
    ?_, ?_, ?_, ?_⟩
  · rw [terminate_peer_of_ne hj]
  · rw [hnone] at hi; cases hi
  · rw [h1]; exact h.conns_nodup.filter _
  · intro j
    rw [h1, List.mem_filter]
    -- `m_conns` loses `i` and the state of `i` is not live any more
    rcases eq_or_ne j i with rfl | hne
    · simp [hdead]
    · rw [terminate_peer_of_ne hne, h.mem_conns j]
      simp [hne]
  · intro j hj
    rcases eq_or_ne j i with rfl | hne
    · exact hnone
    · rw [terminate_peer_of_ne hne] at hj ⊢
      exact h.channel_none j hj
  · intro j hj
    rw [h3] at hj
    rcases eq_or_ne j i with rfl | hne
    · exact absurd (h.fresh j hj) hinv
    · rw [terminate_peer_of_ne hne]; exact h.fresh j hj

/-- A connection and a channel that were not there before. -/
theorem Consistent.accept (h : v.Consistent) (sock : Socket) :
    (v.accept slots sock).Consistent := by
  have hpeer : (v.accept slots sock).peer v.nextConn =
      acceptedPeer slots v.nextChannel sock := put_peer ..
  have hother : ∀ j, j ≠ v.nextConn → (v.accept slots sock).peer j = v.peer j :=
    fun j hj => put_peer_of_ne hj ..
  have hconns : (v.accept slots sock).conns = v.conns ++ [v.nextConn] := rfl
  have hnew := h.fresh v.nextConn (Nat.le_refl _)
  have hnone := h.channel_none v.nextConn (by rw [hnew]; rfl)
  have hout : v.nextConn ∉ v.conns := by
    rw [h.mem_conns, hnew]; simp [ConnState.live]
  refine ⟨h.toChannelsOk.join hnone rfl rfl (fun j hj => ?_) ?_, ?_, ?_, ?_, ?_⟩
  · rw [hother j hj]
  · rw [hpeer]; rfl
  · rw [hconns, List.nodup_append]
    refine ⟨h.conns_nodup, List.nodup_singleton _, ?_⟩
    rintro j hmem j' hmem' rfl
    exact hout (List.mem_singleton.mp hmem' ▸ hmem)
  · intro j
    rw [hconns, List.mem_append, List.mem_singleton]
    rcases eq_or_ne j v.nextConn with rfl | hne
    · rw [hpeer]; simp [acceptedPeer, ConnState.live]
    · rw [hother j hne, h.mem_conns j]
      simp [hne]
  · intro j hj
    rcases eq_or_ne j v.nextConn with rfl | hne
    · rw [hpeer] at hj; cases hj
    · rw [hother j hne] at hj ⊢
      exact h.channel_none j hj
  · intro j hj
    have hj : v.nextConn + 1 ≤ j := hj
    rw [hother j (Nat.ne_of_gt hj)]
    exact h.fresh j (Nat.le_of_succ_le hj)

/-- The agreement survives every moment of a step. -/
theorem consistent_rule (slots : Slots) :
    Rule slots (fun _ => True) Consistent (fun _ => Consistent) where
  data d n rs h hs := h.put rfl (by rw [hs]; simp) rfl
  heard h _ _ := h.log _
  select ss h hs := h.put rfl (by rw [hs]; simp) rfl
  connect {v i} h hs := by
    refine h.congr (fun j => ?_) (fun j hj => ?_) (fun j => ?_) ?_
    · rw [callState_peer]
      rcases eq_or_ne j i with rfl | hne
      · rw [setState_peer, hs]; rfl
      · rw [setState_peer_of_ne hne]
    · rw [callState_peer]
      rcases eq_or_ne j i with rfl | hne
      · rw [hs] at hj; cases hj
      · rwa [setState_peer_of_ne hne]
    · rw [callState_peer]
      rcases eq_or_ne j i with rfl | hne
      · rw [setState_peer]
      · rw [setState_peer_of_ne hne]
    · obtain ⟨a1, a2, a3, a4⟩ := setState_lists v i .connected
      obtain ⟨b1, b2, b3, b4⟩ := callState_lists (v.setState i .connected) i
      exact ⟨b1.trans a1, b2.trans a2, b3.trans a3, b4.trans a4⟩
  timer h := h.log _
  shut {v i} h _ _ := h.shutChannel i
  shut_data d n rs h hs := h.put rfl (by rw [hs]; simp) rfl
  shut_heard h _ _ := h.log _
  done h hlive _ := h.terminate fun e => by rw [e] at hlive; cases hlive
  shut_done h hlive := h.terminate fun e => by rw [e] at hlive; cases hlive
  twice _ h hs _ _ := h.terminate (by rw [hs]; simp)
  accept sock h := h.accept sock

end Hub

/-! ### Runs -/

theorem Hub.consistent_init (wakeupFd listenFd : Int) :
    (World.init wakeupFd listenFd).hub.Consistent where
  live_nodup := show [1, 2].Nodup by decide
  channel_mem _ _ h := by cases h
  live_owner ch h := by
    rcases List.mem_cons.mp h with rfl | h
    · exact Or.inl rfl
    · exact Or.inr (Or.inl (List.mem_singleton.mp h))
  channel_inj _ _ _ _ _ h := by cases h
  channel_lt _ _ _ h := by cases h
  live_lt ch h := by
    rcases List.mem_cons.mp h with rfl | h
    · exact show 1 < 3 by decide
    · obtain rfl := List.mem_singleton.mp h
      exact show 2 < 3 by decide
  conns_nodup := List.nodup_nil
  mem_conns i := iff_of_false List.not_mem_nil Bool.false_ne_true
  channel_none _ _ := rfl
  fresh _ _ := rfl

theorem consistent_of_run {app : App} {wakeupFd listenFd : Int} {as : List Input} {w : World}
    (h : Exec.exec (worldStep app) (World.init wakeupFd listenFd) as = some w) :
    w.hub.Consistent :=
  ok_of_exec (Hub.consistent_rule app.slots) h (good_init wakeupFd listenFd)
    (Hub.consistent_init wakeupFd listenFd)

end Libet
