/-
Libet/Teardown.lean

What a teardown gives back, it gives back once.

The hub counts the teardowns of a connection: `removedConn` and `deletedChannel`
occur at most once in every run, `unregisteredIdles` at most once unless a bad
burst makes the teardown run twice.  `IdleInv` connects the count with the idle
lists: a node is in its list until the first teardown of its connection, and
every teardown passes every `IdleId` of the connection to `UnregisterIdle` once.
Whether the second teardown still has a connection to work on is asked in
`Libet.Lifetime`.

Main result: `tornDownOnce_of_run`.
-/
import Libet.Lifecycle
import Libet.WorldRule

namespace Libet

/-! ### Idle lists -/

namespace EventBase

variable {b : EventBase} {id id' : IdleId} {ids : List IdleId}

/-- `UnregisterIdle` takes one node out. -/
theorem hasIdle_unregisterIdle (h : id'.node ≠ id.node) :
    (b.unregisterIdle id).hasIdle id' = b.hasIdle id' := by
  have hlist : (b.unregisterIdle id).idleList id'.lst = _ := idleList_of_set rfl id'.lst
  rw [Bool.eq_iff_iff, hasIdle_iff, hasIdle_iff, hlist]
  split
  · rename_i hlst
    rw [hlst]
    constructor
    · rintro ⟨n, hn, heq⟩
      exact ⟨n, (List.mem_filter.mp hn).1, heq⟩
    · rintro ⟨n, hn, heq⟩
      exact ⟨n, List.mem_filter.mpr ⟨hn, by simp [heq, h]⟩, heq⟩
  · rfl

/-- `UpdateIdle` moves a node within its list. -/
theorem hasIdle_updateIdle (b : EventBase) (now : Int) (id id' : IdleId) :
    (b.updateIdle now id).hasIdle id' = b.hasIdle id' := by
  have hlist : (b.updateIdle now id).idleList id'.lst = _ := idleList_of_set rfl id'.lst
  rw [Bool.eq_iff_iff, hasIdle_iff, hasIdle_iff, hlist]
  split
  · rename_i hlst
    rw [hlst]
    constructor
    · rintro ⟨n, hn, heq⟩
      rcases List.mem_append.mp hn with hn | hn
      · exact ⟨n, (List.mem_filter.mp hn).1, heq⟩
      · obtain ⟨m, hm, rfl⟩ := List.mem_map.mp hn
        exact ⟨m, (List.mem_filter.mp hm).1, heq⟩
    · rintro ⟨n, hn, heq⟩
      by_cases hnode : n.node = id.node
      · refine ⟨{ n with updated := now / 1000 }, List.mem_append_right _ ?_, heq⟩
        exact List.mem_map.mpr ⟨n, List.mem_filter.mpr ⟨hn, by simp [hnode]⟩, rfl⟩
      · exact ⟨n, List.mem_append_left _ (List.mem_filter.mpr ⟨hn, by simp [hnode]⟩), heq⟩
  · rfl

/-- What `RegisterIdle` does: it adds a node with a number of its own. -/
theorem registerIdle_spec (b : EventBase) (now idle : Int) (con : ConnId) :
    (b.registerIdle now idle con).1.node = b.nextNode ∧
      (b.registerIdle now idle con).2.nextNode = b.nextNode + 1 ∧
      (b.registerIdle now idle con).2.unregistered = b.unregistered ∧
      (b.registerIdle now idle con).2.hasIdle (b.registerIdle now idle con).1 = true ∧
      ∀ id, b.hasIdle id = true → (b.registerIdle now idle con).2.hasIdle id = true := by
  obtain ⟨hid, hset, hnext, hunreg, -, -⟩ := registers_registerIdle b now idle con
  have hlist := idleList_of_set hset
  refine ⟨by rw [hid], hnext, hunreg, ?_, fun id hhas => ?_⟩
  · rw [hasIdle_iff, hlist, hid, if_pos rfl]
    exact ⟨_, List.mem_append_right _ (List.mem_singleton_self _), rfl⟩
  · obtain ⟨n, hn, heq⟩ := hasIdle_iff.mp hhas
    rw [hasIdle_iff, hlist]
    refine ⟨n, ?_, heq⟩
    split
    · rename_i hlst
      exact List.mem_append_left _ (hlst ▸ hn)
    · exact hn

/-- What the loop over `m_idleIds` in `Cleanup` does. -/
structure Unregisters (b : EventBase) (ids : List IdleId) (b' : EventBase) : Prop where
  nextNode : b'.nextNode = b.nextNode
  passed : b'.unregistered.map Prod.fst = b.unregistered.map Prod.fst ++ ids
  record : ∀ x ∈ b'.unregistered, x ∈ b.unregistered ∨ (x.1 ∈ ids ∧ x.2 = b.hasIdle x.1)
  others : ∀ id, id.node ∉ ids.map IdleId.node → b'.hasIdle id = b.hasIdle id

theorem foldl_unregisterIdle (hids : (ids.map IdleId.node).Nodup) (b : EventBase) :
    Unregisters b ids (ids.foldl unregisterIdle b) := by
  induction ids generalizing b with
  | nil => exact ⟨rfl, (List.append_nil _).symm, fun x hx => Or.inl hx, fun _ _ => rfl⟩
  | cons id ids ih =>
      obtain ⟨hnot, hids⟩ := List.nodup_cons.mp hids
      obtain ⟨h1, h2, h3, h4⟩ := ih hids (b.unregisterIdle id)
      refine ⟨h1, ?_, fun x hx => ?_, fun id' hid' => ?_⟩
      · -- every id is passed
        rw [List.foldl_cons, h2]
        simp [unregisterIdle]
      · -- the flag of a later id is that of the start: the first call took another node
        rcases h3 x hx with hx | ⟨hx, hflag⟩
        · rcases List.mem_append.mp hx with hx | hx
          · exact Or.inl hx
          · obtain rfl := List.mem_singleton.mp hx
            exact Or.inr ⟨List.mem_cons_self, rfl⟩
        · refine Or.inr ⟨List.mem_cons_of_mem _ hx, hflag.trans (hasIdle_unregisterIdle ?_)⟩
          rintro heq
          exact hnot (List.mem_map.mpr ⟨x.1, hx, heq⟩)
      · rw [List.map_cons, List.mem_cons, not_or] at hid'
        exact (h4 id' hid'.2).trans (hasIdle_unregisterIdle hid'.1)

theorem foldl_updateIdle (now : Int) (ids : List IdleId) (b : EventBase) :
    (ids.foldl (fun b id => b.updateIdle now id) b).nextNode = b.nextNode ∧
      (ids.foldl (fun b id => b.updateIdle now id) b).unregistered = b.unregistered ∧
      ∀ id, (ids.foldl (fun b id => b.updateIdle now id) b).hasIdle id = b.hasIdle id := by
  induction ids generalizing b with
  | nil => exact ⟨rfl, rfl, fun _ => rfl⟩
  | cons id ids ih =>
      obtain ⟨h1, h2, h3⟩ := ih (b.updateIdle now id)
      exact ⟨h1, h2, fun id' => (h3 id').trans (hasIdle_updateIdle b now id id')⟩

end EventBase

/-! ### The invariant of the idle lists -/

/-- How often the `IdleId`s of connection `i` have been given back. -/
def passes (i : ConnId) (tr : List Event) : Nat := tr.count (.unregisteredIdles i)

theorem passes_append {i : ConnId} {e : Event} (he : e ≠ .unregisteredIdles i)
    (tr : List Event) : passes i (tr ++ [e]) = passes i tr := by
  rw [passes, List.count_append, List.count_singleton, if_neg (by simpa using he)]
  rfl

/-- The idle lists and the record of `UnregisterIdle` agree with the trace. -/
structure IdleInv (w : World) : Prop where
  node_lt : ∀ i, ∀ id ∈ (w.con i).idleIds, id.node < w.base.nextNode
  node_inj : ∀ i j, ∀ id ∈ (w.con i).idleIds, ∀ id' ∈ (w.con j).idleIds,
    id.node = id'.node → i = j
  nodup : ∀ i, ((w.con i).idleIds.map IdleId.node).Nodup
  present : ∀ i, passes i w.trace = 0 → ∀ id ∈ (w.con i).idleIds, w.base.hasIdle id
  count_le : ∀ i, ∀ id ∈ (w.con i).idleIds,
    (w.base.unregistered.map Prod.fst).count id ≤ passes i w.trace
  owner : ∀ x ∈ w.base.unregistered, ∃ i, x.1 ∈ (w.con i).idleIds ∧
    (x.2 = true ∨ 2 ≤ passes i w.trace)
  fresh : ∀ i, w.nextConn ≤ i → (w.con i).channel = none ∧ (w.con i).idleIds = []

/-- A channel that is gone does not come back. -/
theorem Receives.channel_none {c c' : TcpConn} (h : Receives c c') (hch : c.channel = none) :
    c'.channel = none := by
  by_contra hsome
  have := (h.channel (Option.isSome_iff_ne_none.mpr hsome)).1
  rw [hch] at this
  cases this

theorem Quiet.channel_none {l l' : Link} (h : Quiet l l') (hch : l.con.channel = none) :
    l'.con.channel = none := by
  have h' := congrArg Peer.channel h.peer
  simpa only [TcpConn.peer, hch, Option.map_none, Option.map_eq_none_iff] using h'

namespace IdleInv

variable {w w' : World} {i : ConnId} {app : App}

/-- An `IdleId` belongs to one connection. -/
theorem not_mem (h : IdleInv w) {j : ConnId} (hne : j ≠ i) {id : IdleId}
    (hid : id ∈ (w.con j).idleIds) : id.node ∉ (w.con i).idleIds.map IdleId.node := by
  intro hmem
  obtain ⟨id', hid', heq⟩ := List.mem_map.mp hmem
  exact hne (h.node_inj j i id hid id' hid' heq.symm)

/-- Changes that do not concern the idle lists. -/
theorem frame (h : IdleInv w) (hids : ∀ i, (w'.con i).idleIds = (w.con i).idleIds)
    (hfresh : ∀ i, w'.nextConn ≤ i → w.nextConn ≤ i ∧
      ((w.con i).channel = none → (w'.con i).channel = none))
    (hpass : ∀ i, passes i w'.trace = passes i w.trace)
    (hnode : w'.base.nextNode = w.base.nextNode)
    (hrecord : w'.base.unregistered = w.base.unregistered)
    (hhas : ∀ id, w'.base.hasIdle id = w.base.hasIdle id) : IdleInv w' := by
  constructor
  · intro i; rw [hids, hnode]; exact h.node_lt i
  · intro i j; rw [hids, hids]; exact h.node_inj i j
  · intro i; rw [hids]; exact h.nodup i
  · intro i; rw [hids, hpass]; simp only [hhas]; exact h.present i
  · intro i; rw [hids, hpass, hrecord]; exact h.count_le i
  · intro x; rw [hrecord]; simp only [hids, hpass]; exact h.owner x
  · intro i hi
    obtain ⟨hi, hch⟩ := hfresh i hi
    rw [hids]
    exact ⟨hch (h.fresh i hi).1, (h.fresh i hi).2⟩

theorem set (h : IdleInv w) {c : TcpConn} (hids : c.idleIds = (w.con i).idleIds)
    (hch : (w.con i).channel = none → c.channel = none) : IdleInv (w.set i c) := by
  refine h.frame (fun j => ?_) (fun j hj => ⟨hj, ?_⟩) (fun _ => rfl) rfl rfl fun _ => rfl
  · rcases eq_or_ne j i with rfl | hne
    · simpa only [World.set, Function.update_self] using hids
    · simp only [World.set, Function.update_of_ne hne]
  · rcases eq_or_ne j i with rfl | hne
    · simpa only [World.set, Function.update_self] using hch
    · simp only [World.set, Function.update_of_ne hne]; exact id

theorem base (h : IdleInv w) {b : EventBase} (hconns : b.idleConns = w.base.idleConns)
    (hnode : b.nextNode = w.base.nextNode)
    (hrecord : b.unregistered = w.base.unregistered) : IdleInv { w with base := b } := by
  refine h.frame (fun _ => rfl) (fun _ hi => ⟨hi, id⟩) (fun _ => rfl) hnode hrecord
    fun id => ?_
  simp only [EventBase.hasIdle, EventBase.idleList, hconns]

theorem onLink (h : IdleInv w) (i : ConnId) (f : Link → Link)
    (hf : ∀ l, Libet.Quiet l (f l)) : IdleInv (w.onLink i f) := by
  have hq := hf ⟨w.con i, w.base.poller⟩
  exact (h.set hq.idleIds hq.channel_none).base rfl rfl rfl

theorem log (h : IdleInv w) {e : Event} (he : ∀ i, e ≠ .unregisteredIdles i) :
    IdleInv (w.log e) := by
  exact h.frame (fun _ => rfl) (fun _ hi => ⟨hi, id⟩)
    (fun i => passes_append (he i) w.trace) rfl rfl fun _ => rfl

/-- A new node. -/
theorem addIdleCB (h : IdleInv w) (hch : (w.con i).channel.isSome) (idle : Int) :
    IdleInv (w.runOp (.addIdleCB i idle)) := by
  rw [World.runOp, if_pos hch]
  dsimp only
  obtain ⟨hid, hnode, hrecord, hhas, hold⟩ := w.base.registerIdle_spec w.now idle i
  generalize w.base.registerIdle w.now idle i = r at hid hnode hrecord hhas hold
  -- who has an `IdleId` afterwards, and that the new one is new
  have hmem : ∀ j id, id ∈ (Function.update w.con i { w.con i with
      idleIds := (w.con i).idleIds ++ [r.1] } j).idleIds ↔
      id ∈ (w.con j).idleIds ∨ (j = i ∧ id = r.1) := by
    intro j id
    rcases eq_or_ne j i with rfl | hne
    · simp [Function.update_self]
    · simp [hne]
  have hlt : ∀ {j id}, id ∈ (w.con j).idleIds → id.node ≠ r.1.node := fun hid' e =>
    Nat.lt_irrefl _ (hid ▸ e ▸ h.node_lt _ _ hid')
  have hnew : r.1 ∉ w.base.unregistered.map Prod.fst := fun hx => by
    obtain ⟨x, hx, heq⟩ := List.mem_map.mp hx
    obtain ⟨j, hj, -⟩ := h.owner x hx
    exact hlt hj (congrArg IdleId.node heq)
  -- the new node has the largest number, so it is in no other list and was never passed
  refine ⟨fun j id hj => ?_, fun j k id hj id' hk heq => ?_, fun j => ?_,
    fun j hp id hj => ?_, fun j id hj => ?_, fun x hx => ?_, fun j hj => ?_⟩
  · show id.node < r.2.nextNode
    rw [hnode]
    rcases (hmem j id).mp hj with hj | ⟨-, rfl⟩
    · exact Nat.lt_succ_of_lt (h.node_lt j id hj)
    · exact hid ▸ Nat.lt_succ_self _
  · rcases (hmem j id).mp hj with hj | ⟨hji, rfl⟩
    · rcases (hmem k id').mp hk with hk | ⟨-, rfl⟩
      · exact h.node_inj j k id hj id' hk heq
      · exact absurd heq (hlt hj)
    · rcases (hmem k id').mp hk with hk | ⟨hki, -⟩
      · exact absurd heq.symm (hlt hk)
      · rw [hji, hki]
  · rcases eq_or_ne j i with rfl | hne
    · simp only [World.set, Function.update_self, List.map_append, List.map_cons, List.map_nil]
      refine List.nodup_append.mpr ⟨h.nodup j, List.nodup_singleton _, ?_⟩
      rintro n hn n' hn' rfl
      obtain ⟨id, hmem', rfl⟩ := List.mem_map.mp hn
      exact hlt hmem' (List.mem_singleton.mp hn')
    · simp only [World.set, Function.update_of_ne hne]
      exact h.nodup j
  · rcases (hmem j id).mp hj with hj | ⟨-, rfl⟩
    · exact hold id (h.present j hp id hj)
    · exact hhas
  · show (r.2.unregistered.map Prod.fst).count id ≤ _
    rw [hrecord]
    rcases (hmem j id).mp hj with hj | ⟨-, rfl⟩
    · exact h.count_le j id hj
    · rw [List.count_eq_zero.mpr hnew]
      exact Nat.zero_le _
  · have hx : x ∈ r.2.unregistered := hx
    rw [hrecord] at hx
    obtain ⟨j, hj, hflag⟩ := h.owner x hx
    exact ⟨j, (hmem j x.1).mpr (Or.inl hj), hflag⟩
  · have hne : j ≠ i := fun e => by
      rw [← e, (h.fresh j hj).1] at hch
      cases hch
    simp only [World.set, Function.update_of_ne hne]
    exact h.fresh j hj

/-- All `IdleId`s of a connection are given back. -/
theorem unregisterIdles (h : IdleInv w) (i : ConnId) : IdleInv (unregisterIdles i w) := by
  have hall := EventBase.foldl_unregisterIdle (h.nodup i) w.base
  have hpass : ∀ j, passes j (Libet.unregisterIdles i w).trace =
      passes j w.trace + if j = i then 1 else 0 := by
    intro j
    show (w.trace ++ [_]).count _ = _
    rw [List.count_append, List.count_singleton]
    rcases eq_or_ne j i with rfl | hne
    · simp [passes]
    · simp [passes, hne, hne.symm]
  have hbase : (Libet.unregisterIdles i w).base =
      (w.con i).idleIds.foldl EventBase.unregisterIdle w.base := rfl
  refine ⟨?_, h.node_inj, h.nodup, fun j hp id hj => ?_, fun j id hj => ?_, fun x hx => ?_,
    h.fresh⟩
  · rw [hbase, hall.nextNode]
    exact h.node_lt
  · rw [hpass] at hp
    rcases eq_or_ne j i with rfl | hne
    · rw [if_pos rfl] at hp
      exact absurd hp (Nat.succ_ne_zero _)
    · rw [if_neg hne] at hp
      rw [hbase, hall.others id (h.not_mem hne hj)]
      exact h.present j hp id hj
  · -- every id of `i` is passed once, and none of another connection
    have hcount : (w.con i).idleIds.count id ≤ if j = i then 1 else 0 := by
      rcases eq_or_ne j i with rfl | hne
      · rw [if_pos rfl]
        exact List.nodup_iff_count_le_one.mp (h.nodup j).of_map id
      · rw [if_neg hne, List.count_eq_zero.mpr fun hi =>
          h.not_mem hne hj (List.mem_map_of_mem hi)]
    rw [hbase, hall.passed, hpass, List.count_append]
    exact Nat.add_le_add (h.count_le j id hj) hcount
  · rw [hbase] at hx
    rcases hall.record x hx with hx | ⟨hx, hflag⟩
    · obtain ⟨j, hj, hjflag⟩ := h.owner x hx
      refine ⟨j, hj, hjflag.imp_right fun h2 => ?_⟩
      rw [hpass]
      exact h2.trans (Nat.le_add_right _ _)
    · refine ⟨i, hx, ?_⟩
      -- the first pass finds the node; a later one makes two passes
      rcases Nat.eq_zero_or_pos (passes i w.trace) with hp | hp
      · exact Or.inl (hflag.trans (h.present i hp x.1 hx))
      · rw [hpass, if_pos rfl]
        exact Or.inr (Nat.succ_le_succ hp)

theorem accept (h : IdleInv w) (fd : Int) (sock : Socket) :
    IdleInv (handleAccept app fd sock w) := by
  have hother : ∀ j, j ≠ w.nextConn → (handleAccept app fd sock w).con j = w.con j :=
    fun j hne => Function.update_of_ne hne ..
  refine h.frame (fun j => ?_) (fun j hj => ?_) (fun i => passes_append (by simp) w.trace)
    rfl rfl fun _ => rfl
  · rcases eq_or_ne j w.nextConn with rfl | hne
    · rw [(h.fresh _ (Nat.le_refl _)).2]
      simp only [handleAccept, World.log, World.set, Function.update_self, acceptedCon,
        TcpConn.new]
    · rw [hother j hne]
  · have hj : w.nextConn + 1 ≤ j := hj
    rw [hother j (Nat.ne_of_gt hj)]
    exact ⟨Nat.le_of_succ_le hj, id⟩

/-- The idle lists stay in order. -/
theorem rule (app : App) : World.Rule app IdleInv :=
  .of_quiet (fun i f hf h => h.onLink i f hf) (fun idle h hch => h.addIdleCB hch idle)
    (fun h hc => h.set hc.idleIds hc.channel_none) (fun h he => h.log he)
    (fun h h1 h2 h3 => h.base h1 h2 h3) (fun i h => h.unregisterIdles i)
    (fun {w} i h =>
      have hup := EventBase.foldl_updateIdle w.now (w.con i).idleIds w.base
      h.frame (fun _ => rfl) (fun _ hi => ⟨hi, id⟩) (fun _ => rfl) hup.1 hup.2.1 hup.2.2)
    (fun {_ fd} _ _ _ h => h.accept fd _)
    (fun _ h => h.frame (fun _ => rfl) (fun _ hi => ⟨hi, id⟩) (fun _ => rfl) rfl rfl
      fun _ => rfl)

end IdleInv

/-! ### Teardowns are counted -/

/-- How often connection `i` has left `m_conns`. -/
def removals (i : ConnId) (tr : List Event) : Nat := tr.count (.removedConn i)

/-- How often a channel of connection `i` has been deleted. -/
def deletions (i : ConnId) (tr : List Event) : Nat :=
  tr.countP fun
    | .deletedChannel j _ => j == i
    | _ => false

/-- An event that gives something of connection `i` back. -/
inductive GivesBack (i : ConnId) : Event → Prop
  | unregisteredIdles : GivesBack i (.unregisteredIdles i)
  | removedConn : GivesBack i (.removedConn i)
  | deletedChannel (ch : ChannelId) : GivesBack i (.deletedChannel i ch)

/-- Nothing is counted in events that give nothing back. -/
theorem counts_append {i : ConnId} {es : List Event} (hes : ∀ e ∈ es, ¬ GivesBack i e)
    (tr : List Event) :
    passes i (tr ++ es) = passes i tr ∧ removals i (tr ++ es) = removals i tr ∧
      deletions i (tr ++ es) = deletions i tr := by
  have hp : passes i es = 0 := List.count_eq_zero.mpr fun h => hes _ h .unregisteredIdles
  have hr : removals i es = 0 := List.count_eq_zero.mpr fun h => hes _ h .removedConn
  have hd : deletions i es = 0 := List.countP_eq_zero.mpr fun e he hdel => by
    cases e with
    | deletedChannel j ch => exact hes _ he (beq_iff_eq.mp hdel ▸ .deletedChannel ch)
    | _ => cases hdel
  unfold passes removals deletions at *
  rw [List.count_append, List.count_append, List.countP_append, hp, hr, hd]
  exact ⟨rfl, rfl, rfl⟩

namespace Hub

variable {slots : Slots} {Twice : ConnId → Prop} {i j : ConnId} {v v' : Hub}
variable {es : List Event}

/-- Nothing is given back before the teardown, and nothing twice. -/
structure OnceAt (Twice : ConnId → Prop) (i : ConnId) (v : Hub) : Prop where
  removals_le : removals i v.trace ≤ 1
  removals_mem : i ∈ v.conns → removals i v.trace = 0
  deletions_le : deletions i v.trace ≤ 1
  deletions_channel : (v.peer i).channel.isSome → deletions i v.trace = 0
  passes_le : Twice i ∨ passes i v.trace ≤ 1
  passes_live : (v.peer i).state.live → passes i v.trace = 0
  unborn : (v.peer i).state = .invalid →
    passes i v.trace = 0 ∧ removals i v.trace = 0 ∧ deletions i v.trace = 0

/-- A step before or after the teardown. -/
theorem OnceAt.frame (h : v.OnceAt Twice i) (htr : v'.trace = v.trace ++ es)
    (hes : ∀ e ∈ es, ¬ GivesBack i e) (hconns : i ∈ v'.conns → i ∈ v.conns)
    (hch : (v'.peer i).channel.isSome → (v.peer i).channel.isSome)
    (hlive : (v'.peer i).state.live → (v.peer i).state.live)
    (hinv : (v'.peer i).state = .invalid → (v.peer i).state = .invalid) :
    v'.OnceAt Twice i := by
  obtain ⟨hp, hr, hd⟩ := counts_append hes v.trace
  constructor <;> rw [htr] <;> simp only [hp, hr, hd]
  · exact h.removals_le
  · exact fun hi => h.removals_mem (hconns hi)
  · exact h.deletions_le
  · exact fun hi => h.deletions_channel (hch hi)
  · exact h.passes_le
  · exact fun hi => h.passes_live (hlive hi)
  · exact fun hi => h.unborn (hinv hi)

/-- Events of another connection. -/
theorem not_givesBack_of_ne {e : Event} (h : e.conn = j) (hne : i ≠ j) : ¬ GivesBack i e := by
  rintro hback
  cases hback <;> exact hne h

theorem counts_closingEvents (v : Hub) (i : ConnId) :
    passes i (v.closingEvents i) = 1 ∧
      removals i (v.closingEvents i) = (if i ∈ v.conns then 1 else 0) ∧
      deletions i (v.closingEvents i) = (if (v.peer i).channel.isSome then 1 else 0) := by
  rw [closingEvents, removedEvents, deletedEvents, passes, removals, deletions]
  cases (v.peer i).channel <;> by_cases hi : i ∈ v.conns <;> simp [hi]

/-- A teardown, of a connection that is handshaking or connected or of one that
may be torn down twice. -/
theorem OnceAt.terminate (h : v.OnceAt Twice i) (hj : Twice j ∨ (v.peer j).state.live) :
    (v.terminate j).OnceAt Twice i := by
  have hconns := (terminate_lists v j).1
  have htr := terminate_trace v j
  rw [← closingEvents] at htr
  rcases eq_or_ne i j with rfl | hne
  · have hpeer := terminate_peer v i
    obtain ⟨hp, hr, hd⟩ := counts_closingEvents v i
    have hes : ∀ e ∈ v.movedEvents i (v.peer i).terminal ++
        v.stateEvents i (v.peer i).terminal, ¬ GivesBack i e := by
      intro e he hback
      rcases List.mem_append.mp he with he | he
      · rw [eq_of_mem_movedEvents he] at hback; cases hback
      · rw [eq_of_mem_stateEvents he] at hback; cases hback
    obtain ⟨hp', hr', hd'⟩ := counts_append hes v.trace
    -- the counts are those of before and of the closing events
    rw [← List.append_assoc (v.movedEvents i _), ← List.append_assoc] at htr
    have hp : passes i (v.terminate i).trace = passes i v.trace + 1 := by
      rw [htr, passes, List.count_append]
      exact congr (congrArg Add.add hp') hp
    have hr : removals i (v.terminate i).trace =
        removals i v.trace + if i ∈ v.conns then 1 else 0 := by
      rw [htr, removals, List.count_append]
      exact congr (congrArg Add.add hr') hr
    have hd : deletions i (v.terminate i).trace =
        deletions i v.trace + if (v.peer i).channel.isSome then 1 else 0 := by
      rw [htr, deletions, List.countP_append]
      exact congr (congrArg Add.add hd') hd
    refine ⟨?_, fun hi => ?_, ?_, fun hi => ?_, ?_, fun hi => ?_, fun hi => ?_⟩
    · rw [hr]
      split
      · rename_i hi
        rw [h.removals_mem hi]
      · exact h.removals_le
    · rw [hconns] at hi
      exact absurd rfl (of_decide_eq_true (List.mem_filter.mp hi).2)
    · rw [hd]
      split
      · rename_i hi
        rw [h.deletions_channel hi]
      · exact h.deletions_le
    · rw [hpeer] at hi
      cases hi
    · apply hj.imp_right
      intro hlive
      rw [hp, h.passes_live hlive]
    · rw [hpeer, Peer.terminal_not_live] at hi
      cases hi
    · rw [hpeer] at hi
      unfold Peer.terminal at hi
      split at hi <;> cases hi
  · have hpeer := terminate_peer_of_ne hne v
    refine h.frame htr (fun e he => not_givesBack_of_ne (conn_of_mem_terminate he) hne)
      (fun hi => ?_) (fun hi => by rwa [hpeer] at hi) (fun hi => by rwa [hpeer] at hi)
      (fun hi => by rwa [hpeer] at hi)
    rw [hconns] at hi
    exact (List.mem_filter.mp hi).1

/-- A connection that was not there before. -/
theorem OnceAt.accept (h : v.OnceAt Twice i) (hv : v.Consistent) (sock : Socket) :
    (v.accept slots sock).OnceAt Twice i := by
  have htr : (v.accept slots sock).trace =
      v.trace ++ [.moved v.nextConn .invalid .handshaking] := rfl
  have hes : ∀ e ∈ [Event.moved v.nextConn .invalid .handshaking], ¬ GivesBack i e := by
    intro e he hback
    cases List.mem_singleton.mp he
    cases hback
  rcases eq_or_ne i v.nextConn with heq | hne
  · -- a connection that has not existed has given nothing back
    obtain ⟨hp, hr, hd⟩ := h.unborn (hv.fresh i (Nat.le_of_eq heq.symm))
    obtain ⟨hp', hr', hd'⟩ := counts_append hes v.trace
    rw [hp] at hp'
    rw [hr] at hr'
    rw [hd] at hd'
    constructor <;> rw [htr] <;> simp [hp', hr', hd']
  · have hpeer : (v.accept slots sock).peer i = v.peer i := put_peer_of_ne hne ..
    refine h.frame htr hes (fun hi => ?_) (fun hi => by rwa [hpeer] at hi)
      (fun hi => by rwa [hpeer] at hi) (fun hi => by rwa [hpeer] at hi)
    rcases List.mem_append.mp hi with hi | hi
    · exact hi
    · exact absurd (List.mem_singleton.mp hi) hne

/-- Registry, poller and counts agree, for every connection. -/
structure Once (Twice : ConnId → Prop) (v : Hub) : Prop where
  consistent : v.Consistent
  at_conn : ∀ i, v.OnceAt Twice i

theorem Once.put (h : v.Once Twice) {c : Peer} (hlive : (v.peer j).state.live)
    (hstate : c.state = (v.peer j).state) (hch : c.channel = (v.peer j).channel) :
    (v.put j c).Once Twice := by
  refine ⟨h.consistent.put (by rw [hstate]) (fun e => by rw [e] at hlive; cases hlive) hch,
    fun i => ?_⟩
  have htr : (v.put j c).trace = v.trace ++ [] := (List.append_nil _).symm
  refine (h.at_conn i).frame htr (fun e he => by cases he) id ?_ ?_ ?_ <;>
    · rcases eq_or_ne i j with rfl | hne
      · rw [put_peer]
        first | (rw [hstate]; exact id) | (rw [hch]; exact id)
      · rw [put_peer_of_ne hne]; exact id

theorem Once.log (h : v.Once Twice) {e : Event} (he : ∀ i, ¬ GivesBack i e) :
    (v.log e).Once Twice := by
  refine ⟨h.consistent.log e, fun i => ?_⟩
  have htr : (v.log e).trace = v.trace ++ [e] := rfl
  exact (h.at_conn i).frame htr (fun e' he' => by rw [List.mem_singleton.mp he']; exact he i)
    id id id id

theorem OfReader.not_givesBack {e : Event} (h : OfReader j e) : ¬ GivesBack i e := by
  intro hback
  cases hback <;> cases h

theorem Once.connect (h : v.Once Twice) (hs : (v.peer j).state = .handshaking) :
    ((v.setState j .connected).callState j).Once Twice := by
  refine ⟨(consistent_rule ⟨none, false, false, false⟩).connect h.consistent hs, fun i => ?_⟩
  have htr : ((v.setState j .connected).callState j).trace =
      v.trace ++ (v.movedEvents j .connected ++ v.stateEvents j .connected) := by
    simp [callState_trace, setState_trace, stateEvents, setState_peer]
  have hlists := (callState_lists (v.setState j .connected) j).1.trans
    (setState_lists v j .connected).1
  refine (h.at_conn i).frame htr (fun e he hback => ?_) (fun hi => by rwa [hlists] at hi)
    ?_ ?_ ?_
  · rcases List.mem_append.mp he with he | he
    · rw [eq_of_mem_movedEvents he] at hback; cases hback
    · rw [eq_of_mem_stateEvents he] at hback; cases hback
  all_goals
    rw [callState_peer]
    rcases eq_or_ne i j with rfl | hne
    · rw [setState_peer]; simp [hs, ConnState.live]
    · rw [setState_peer_of_ne hne]; exact id

theorem Once.shutChannel (h : v.Once Twice) (j : ConnId) :
    (v.shutChannel j).Once Twice := by
  refine ⟨h.consistent.shutChannel j, fun i => ?_⟩
  have htr : (v.shutChannel j).trace = v.trace ++ [] := by
    rw [List.append_nil]
    rw [Hub.shutChannel]
    split <;> rfl
  refine (h.at_conn i).frame htr (fun e he => by cases he)
    (fun hi => by rwa [(shutChannel_lists v j).1] at hi) ?_ ?_ ?_ <;>
    · rcases eq_or_ne i j with rfl | hne
      · rw [shutChannel_peer]; simp
      · rw [shutChannel_peer_of_ne hne]; exact id

theorem Once.terminate (h : v.Once Twice) (hinv : (v.peer j).state ≠ .invalid)
    (hj : Twice j ∨ (v.peer j).state.live) : (v.terminate j).Once Twice :=
  ⟨h.consistent.terminate hinv, fun i => (h.at_conn i).terminate hj⟩

/-- Teardowns are counted right at every moment of a step. -/
theorem once_rule (slots : Slots) (Twice : ConnId → Prop) :
    Rule slots Twice (Once Twice) (fun _ => Once Twice) :=
  have live : ∀ {v : Hub} {i s}, (v.peer i).state = s → s.live → (v.peer i).state.live :=
    fun hs hl => hs ▸ hl
  have ne : ∀ {v : Hub} {i}, (v.peer i).state.live → (v.peer i).state ≠ .invalid :=
    fun hl e => by rw [e] at hl; cases hl
  { data := fun _ _ _ h hs => h.put (live hs rfl) rfl rfl
    heard := fun h _ he => h.log fun _ => he.not_givesBack
    select := fun _ h hs => h.put (live hs rfl) rfl rfl
    connect := fun h hs => h.connect hs
    timer := fun h => h.log fun _ hback => by cases hback
    shut := fun h _ _ => h.shutChannel _
    shut_data := fun _ _ _ h hs => h.put (live hs rfl) rfl rfl
    shut_heard := fun h _ he => h.log fun _ => he.not_givesBack
    done := fun h hl _ => h.terminate (ne hl) (Or.inr hl)
    shut_done := fun h hl => h.terminate (ne hl) (Or.inr hl)
    twice := fun ht h hs _ _ => h.terminate (by rw [hs]; simp) (Or.inl ht)
    accept := fun sock h => ⟨h.consistent.accept sock,
      fun i => (h.at_conn i).accept h.consistent sock⟩ }

/-- A handshake that goes through. -/
theorem handshake_peer {p : Platform} (hsel : (v.peer i).selects.head? = some 1) :
    (v.handshake p i).peer i =
      { v.peer i with selects := (v.peer i).selects.tail, state := .connected } := by
  refine (handshake_connected ?_).2
  rw [Hub.handshake]
  dsimp only
  rw [if_pos hsel]
  split <;> simp only [log_peer, callState_peer, setState_peer]

/-- A bad burst ends with the channel deleted. -/
theorem channel_of_badBurst {p : Platform} (hv : v.Settled) (h : BadBurst p v i) :
    ((v.read p i).peer i).channel = none := by
  obtain ⟨hstate, hstop, -⟩ := h
  -- reading a connected peer whose burst does not end in `WSAEWOULDBLOCK`
  have hread : ∀ {v' : Hub}, (burst (v'.peer i).recvs).2.1 ≠ .wouldBlock →
      ((v'.readBurst p i).peer i).channel = none := by
    intro v' hstop
    rw [Hub.readBurst]
    cases hs : (burst (v'.peer i).recvs).2.1 with
    | wouldBlock => exact absurd hs hstop
    | closed | error => simp only [endBurst, cleanup, terminate_peer]
  rcases hstate with hs | ⟨hs, hsel⟩
  · have hopen : (v.peer i).isOpen = true := by rw [hv.open_iff, hs]; rfl
    have hne : ¬ (v.peer i).state = .handshaking := by rw [hs]; simp
    rw [Hub.read, if_pos hopen, if_neg hne]
    dsimp only
    rw [if_pos hs]
    exact hread hstop
  · -- the handshake ends in this event, and the read goes on behind it
    have hopen : (v.peer i).isOpen = true := by rw [hv.open_iff, hs]; rfl
    have hpeer := handshake_peer (p := p) hsel
    rw [Hub.read, if_pos hopen, if_pos hs]
    dsimp only
    rw [if_pos (by rw [hpeer])]
    exact hread (by rw [hpeer]; exact hstop)

end Hub

/-! ### Runs -/

/-- Connection `i` is gone and has left no idle callback behind. -/
def Spent (i : ConnId) (w : World) : Prop :=
  i < w.nextConn ∧ (w.con i).channel = none ∧ (w.con i).idleIds = []

/-- Nothing is registered on a connection that is gone. -/
theorem spent_rule (app : App) (i : ConnId) : World.Rule app (Spent i) := by
  have hset : ∀ {w : World} {j c}, Spent i w → c.idleIds = (w.con j).idleIds →
      ((w.con j).channel = none → c.channel = none) → Spent i (w.set j c) := by
    intro w j c h hids hch
    refine ⟨h.1, ?_⟩
    rcases eq_or_ne i j with rfl | hne
    · simp only [World.set, Function.update_self]
      exact ⟨hch h.2.1, hids.trans h.2.2⟩
    · simp only [World.set, Function.update_of_ne hne]
      exact h.2
  refine .of_quiet (fun {w} j f hf h => ?_) (fun {w j} idle h hch => ?_)
    (fun h hc => hset h hc.idleIds hc.channel_none) (fun h _ => h) (fun h _ _ _ => h)
    (fun _ h => h) (fun _ h => h) (fun {w fd} recvs sends selects h => ?_) (fun _ h => h)
  · have hq := hf ⟨w.con j, w.base.poller⟩
    exact hset h hq.idleIds hq.channel_none
  · -- the channel of `i` is gone, so the callback is for another connection
    have hne : i ≠ j := fun e => by
      rw [← e, h.2.1] at hch
      cases hch
    rw [World.runOp, if_pos hch]
    refine ⟨h.1, ?_⟩
    simp only [World.set, Function.update_of_ne hne]
    exact h.2
  · have hother : (handleAccept app fd (Socket.ofScripts recvs sends selects) w).con i =
        w.con i := Function.update_of_ne (Nat.ne_of_lt h.1) ..
    refine ⟨Nat.lt_succ_of_lt h.1, ?_⟩
    rw [hother]
    exact h.2

/-- What a run gives back, it gives back once: every node is in its list when it
is passed to `UnregisterIdle`, and none is passed twice; a connection leaves
`m_conns` at most once, and its channel is deleted at most once. -/
structure World.TornDownOnce (w : World) : Prop where
  once : ∀ id, (w.base.unregistered.map Prod.fst).count id ≤ 1
  present : ∀ x ∈ w.base.unregistered, x.2 = true
  removals_le : ∀ i, removals i w.trace ≤ 1
  deletions_le : ∀ i, deletions i w.trace ≤ 1

/-- An event does not bring, in one burst, bytes that do not decode and the end
of the stream to a connection with an idle callback, be it registered before or
by a callback during the burst. -/
def SparesIdles (app : App) (w : World) (a : Input) (w' : World) : Prop :=
  ∀ i, a = .readable i → Hub.BadBurst app.plat w.hub i → (w'.con i).idleIds = []

theorem Hub.Once.mono {v : Hub} {Twice Twice' : ConnId → Prop} (h : v.Once Twice)
    (hT : ∀ i, Twice i → Twice' i) : v.Once Twice' :=
  ⟨h.consistent, fun i => { h.at_conn i with passes_le := (h.at_conn i).passes_le.imp_left (hT i) }⟩

theorem Hub.once_init (Twice : ConnId → Prop) (wakeupFd listenFd : Int) :
    (World.init wakeupFd listenFd).hub.Once Twice where
  consistent := consistent_init wakeupFd listenFd
  at_conn _ :=
    { removals_le := Nat.zero_le _
      removals_mem := fun _ => rfl
      deletions_le := Nat.zero_le _
      deletions_channel := fun _ => rfl
      passes_le := Or.inr (Nat.zero_le _)
      passes_live := fun _ => rfl
      unborn := fun _ => ⟨rfl, rfl, rfl⟩ }

theorem idleInv_init (wakeupFd listenFd : Int) : IdleInv (World.init wakeupFd listenFd) where
  node_lt _ _ h := by cases h
  node_inj _ _ _ h := by cases h
  nodup _ := List.nodup_nil
  present _ _ _ h := by cases h
  count_le _ _ h := by cases h
  owner _ h := by cases h
  fresh _ _ := ⟨rfl, rfl⟩

/-- What holds along a run whose bursts spare the idle callbacks. -/
structure World.Tidy (w : World) : Prop where
  good : w.Good
  idle : IdleInv w
  once : w.hub.Once fun i => Spent i w

theorem tidy_of_worldStep {app : App} {w w' : World} {a : Input}
    (hstep : worldStep app w a = some w') (hspare : SparesIdles app w a w') (h : w.Tidy) :
    w'.Tidy := by
  have honce := h.once.mono fun i hi => (spent_rule app i).worldStep hstep hi
  refine ⟨good_of_worldStep hstep h.good, (IdleInv.rule app).worldStep hstep h.idle,
    ok_of_worldStep (Hub.once_rule app.slots _) hstep h.good honce fun i ha => ?_⟩
  by_cases hbad : Hub.BadBurst app.plat w.hub i
  · -- a bad burst: the connection is gone afterwards, and it had no idle callback
    subst ha
    have hsim := (worldStep_refines hstep h.good.refines).hub
    have hch : (w'.hub.peer i).channel = none := by
      rw [hsim]
      exact Hub.channel_of_badBurst h.good.settled hbad
    have hborn : i < w.nextConn := by
      by_contra hi
      simp [worldStep, hi] at hstep
    refine Or.inl ⟨(born_rule app i).worldStep hstep hborn, ?_, hspare i rfl hbad⟩
    simpa [World.hub, TcpConn.peer] using hch
  · exact Or.inr hbad

theorem World.Tidy.tornDownOnce {w : World} (h : w.Tidy) : w.TornDownOnce where
  once id := by
    by_contra hcount
    obtain ⟨x, hx, rfl⟩ := List.mem_map.mp (List.count_pos_iff.mp
      (Nat.lt_trans Nat.one_pos (Nat.lt_of_not_le hcount)))
    obtain ⟨i, hi, -⟩ := h.idle.owner x hx
    -- either the connection had no idle callback, or its ids were given back once
    rcases (h.once.at_conn i).passes_le with hspent | hle
    · rw [hspent.2.2] at hi
      cases hi
    · exact hcount ((h.idle.count_le i x.1 hi).trans hle)
  present x hx := by
    obtain ⟨i, hi, hflag⟩ := h.idle.owner x hx
    apply hflag.resolve_right
    intro htwo
    rcases (h.once.at_conn i).passes_le with hspent | hle
    · rw [hspent.2.2] at hi
      cases hi
    · exact absurd (htwo.trans hle) (by decide)
  removals_le i := (h.once.at_conn i).removals_le
  deletions_le i := (h.once.at_conn i).deletions_le

/-- **A teardown gives back once.**  Along every run in which no burst brings
bytes that do not decode and the end of the stream to a connection with an idle
callback, whatever is torn down is torn down once. -/
theorem tornDownOnce_of_run {app : App} {wakeupFd listenFd : Int} {as : List Input} {w : World}
    (h : Exec.exec (worldStep app) (World.init wakeupFd listenFd) as = some w)
    (hspare : Exec.Along (worldStep app) (SparesIdles app) (World.init wakeupFd listenFd) as) :
    w.TornDownOnce := by
  have hinit : (World.init wakeupFd listenFd).Tidy :=
    ⟨good_init wakeupFd listenFd, idleInv_init wakeupFd listenFd,
      Hub.once_init _ wakeupFd listenFd⟩
  exact (Exec.invariant_along (fun _ _ _ => tidy_of_worldStep) hspare h hinit).tornDownOnce

end Libet
