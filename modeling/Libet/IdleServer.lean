/-
Libet/IdleServer.lean

Servers that close idle connections, and the nodes that watch the connections.

The state callback of `IdleCloseTest` and of `HeartbeatTest` registers an idle
callback on every connection that is connected now, and the idle callback closes
the connection.

* `IdleServer` — the servers in question; `callIdles` — a pass of `CallIdles`, with
  the idle callback of such a server.
* `callIdles_eq` — a pass queues the close of every connection with a node that is
  due, and does nothing else.
* `World.Listed` — the idle lists are sorted, and a node belongs to the connection
  that has its `IdleId`; `World.Guarded` — a connection whose state callback has
  seen `Connected` has an `IdleId`, as long as it has a channel.
* `World.Served.exists_node` — so a connected connection has a node, in every run in
  which the clock does not go back.
-/
import Libet.CallRule
import Libet.IdlePass
import Libet.Teardown

namespace Libet

variable {app : App} {w w' : World} {i : ConnId} {idle now : Int}

/-- The server registers an idle callback on every connection that is connected.
Apart from that its callbacks may do what they like; every idle callback is
`con->Close()`. -/
structure IdleServer (idle : Int) (app : App) : Prop where
  stateCb : app.slots.stateCb = true
  onState : ∀ w i, (w.con i).state = .connected → .addIdleCB i idle ∈ app.onState w i

theorem idleServer_heartbeatTest : IdleServer 15 heartbeatTest where
  stateCb := rfl
  onState w i hs := by
    simp only [heartbeatTest, hs, if_true]
    exact List.mem_singleton_self _

/-! ### A pass -/

/-- `while (cnt--)`, over the copied list. -/
def callIdleList (now idle : Int) : Nat → List IdleNode → World → World
  | 0, _, w => w
  | _ + 1, [], w => w
  | cnt + 1, n :: lst, w =>
      if n.Due idle now then
        callIdleList now idle cnt (lst ++ [{ n with updated := now }]) (w.runOp (.close n.conn))
      else w

/-- `CallIdles`; `Close` does not change the idle lists. -/
def callIdles (w : World) : World :=
  w.base.idleConns.entries.foldl
    (fun u e => callIdleList (w.now / 1000) e.1 e.2.length e.2 u) w

/-- The nodes that are due, with their idle times, in the order of a pass. -/
def dueNodes (b : EventBase) (now : Int) : List (Int × IdleNode) :=
  b.idleConns.entries.flatMap fun e => (e.2.filter fun n => n.Due e.1 now).map fun n => (e.1, n)

/-- These are the nodes that the pass of `IdleState.turn` calls, in its order. -/
theorem passCalls_eq (b : EventBase) (now : Int) :
    passCalls b now = (dueNodes b now).map fun x => (⟨x.1, x.2.node⟩, now) := by
  rw [passCalls, dueNodes, List.map_flatMap]
  refine congrArg (fun f => List.flatMap f b.idleConns.entries) (funext fun e => ?_)
  rw [dueCalls, List.map_map]
  rfl

/-- The closes that a pass queues. -/
def World.idleCloses (w : World) : List ConnId :=
  ((dueNodes w.base (w.now / 1000)).map fun x => x.2.conn).filter fun i =>
    (w.con i).channel.isSome

/-- Closes, one after the other. -/
theorem foldl_close (l : List ConnId) (w : World) :
    l.foldl (fun u i => u.runOp (.close i)) w =
      { w with base := { w.base with
          tasks := w.base.tasks ++ l.filter fun i => (w.con i).channel.isSome } } := by
  induction l generalizing w with
  | nil =>
      rw [List.filter_nil, List.append_nil]
      rfl
  | cons i l ih =>
      rw [List.foldl_cons, ih]
      by_cases hch : (w.con i).channel.isSome
      · simp only [World.runOp, hch, if_true, EventBase.safeCall, List.filter_cons,
          List.append_assoc, List.singleton_append]
      · simp only [World.runOp, hch, if_false, List.filter_cons, Bool.false_eq_true]

/-- The walk along one copied list closes what is due. -/
theorem callIdleList_eq (todo done : List IdleNode) (w : World)
    (hsorted : todo.Pairwise fun m n => m.updated ≤ n.updated) :
    callIdleList now idle todo.length (todo ++ done) w =
      ((todo.filter fun n => n.Due idle now).map IdleNode.conn).foldl
        (fun u i => u.runOp (.close i)) w := by
  induction todo generalizing done w with
  | nil => rfl
  | cons n todo ih =>
      rw [List.length_cons, List.cons_append, callIdleList]
      by_cases hdue : n.Due idle now
      · have hrest := ih (done ++ [{ n with updated := now }]) (w.runOp (.close n.conn))
          (List.pairwise_cons.mp hsorted).2
        rw [if_pos hdue, List.append_assoc, hrest,
          List.filter_cons_of_pos (by simpa using hdue), List.map_cons, List.foldl_cons]
      · -- the list is sorted, so nothing behind the node is due
        have hnone : (n :: todo).filter (fun n => n.Due idle now) = [] := by
          rw [List.filter_eq_nil_iff]
          intro m hm hdue'
          have hle : n.updated ≤ m.updated := by
            rcases List.mem_cons.mp hm with rfl | hm
            · exact le_rfl
            · exact List.rel_of_pairwise_cons hsorted hm
          have hdue' : m.updated + idle ≤ now := of_decide_eq_true hdue'
          exact hdue (show n.updated + idle ≤ now by omega)
        rw [if_neg hdue, hnone]
        rfl

/-- **A pass queues the close of every connection with a node that is due**, and
does nothing else. -/
theorem callIdles_eq (h : w.base.IdleOk now) :
    callIdles w = { w with base := { w.base with tasks := w.base.tasks ++ w.idleCloses } } := by
  have hsorted : ∀ e ∈ w.base.idleConns.entries,
      e.2.Pairwise fun m n => m.updated ≤ n.updated := by
    intro e he
    have hlst := h.sorted e.1
    rwa [EventBase.idleList, OrdMap.find?_eq_some.mpr he] at hlst
  have hfold : ∀ (es : List (Int × List IdleNode)) (u : World),
      (∀ e ∈ es, e.2.Pairwise fun m n => m.updated ≤ n.updated) →
      es.foldl (fun u e => callIdleList (w.now / 1000) e.1 e.2.length e.2 u) u =
        ((es.flatMap fun e => (e.2.filter fun n => n.Due e.1 (w.now / 1000)).map
          fun n => (e.1, n)).map fun x => x.2.conn).foldl (fun u i => u.runOp (.close i)) u := by
    intro es
    induction es with
    | nil => exact fun _ _ => rfl
    | cons e es ih =>
        intro u hes
        have hfirst := @callIdleList_eq e.1 (w.now / 1000) e.2 [] u (hes e List.mem_cons_self)
        rw [List.append_nil] at hfirst
        rw [List.foldl_cons, List.flatMap_cons, List.map_append, List.foldl_append, hfirst,
          List.map_map]
        exact ih _ fun e' he' => hes e' (List.mem_cons_of_mem e he')
  rw [callIdles, hfold _ w hsorted, foldl_close]
  rfl

theorem mem_dueNodes {b : EventBase} {lst : Int} {n : IdleNode} :
    (lst, n) ∈ dueNodes b now ↔ n ∈ b.idleList lst ∧ n.Due lst now := by
  rw [dueNodes, List.mem_flatMap]
  constructor
  · rintro ⟨⟨idle, l⟩, he, hmem⟩
    obtain ⟨m, hm, heq⟩ := List.mem_map.mp hmem
    cases heq
    obtain ⟨hm, hdue⟩ := List.mem_filter.mp hm
    rw [EventBase.idleList, OrdMap.find?_eq_some.mpr he]
    exact ⟨hm, of_decide_eq_true hdue⟩
  · rintro ⟨hn, hdue⟩
    rw [EventBase.idleList] at hn
    cases hfind : b.idleConns.find? lst with
    | none =>
        rw [hfind] at hn
        exact absurd hn List.not_mem_nil
    | some l =>
        rw [hfind] at hn
        exact ⟨(lst, l), OrdMap.find?_eq_some.mp hfind, List.mem_map_of_mem
          (List.mem_filter.mpr ⟨hn, decide_eq_true hdue⟩)⟩

theorem mem_idleCloses : i ∈ w.idleCloses ↔ (w.con i).channel.isSome ∧
    ∃ lst, ∃ n ∈ w.base.idleList lst, n.conn = i ∧ n.Due lst (w.now / 1000) := by
  rw [World.idleCloses, List.mem_filter, and_comm]
  apply and_congr_right
  intro _
  constructor
  · intro h
    obtain ⟨⟨lst, n⟩, hmem, rfl⟩ := List.mem_map.mp h
    obtain ⟨hn, hdue⟩ := mem_dueNodes.mp hmem
    exact ⟨lst, n, hn, rfl, hdue⟩
  · rintro ⟨lst, n, hn, rfl, hdue⟩
    exact List.mem_map.mpr ⟨(lst, n), mem_dueNodes.mpr ⟨hn, hdue⟩, rfl⟩

/-! ### The idle lists and their owners -/

/-- Who has an `IdleId` once a connection has registered an idle callback. -/
theorem mem_idleIds_addIdleCB (hch : (w.con i).channel.isSome) {lst : Int} {j : ConnId}
    {id : IdleId} : id ∈ ((w.runOp (.addIdleCB i lst)).con j).idleIds ↔
      id ∈ (w.con j).idleIds ∨ (j = i ∧ id = ⟨lst, w.base.nextNode⟩) := by
  rw [World.runOp, if_pos hch]
  dsimp only [World.set]
  rw [(EventBase.registers_registerIdle w.base w.now lst i).id]
  rcases eq_or_ne j i with rfl | hne
  · rw [Function.update_self, List.mem_append, List.mem_singleton, and_iff_right rfl]
  · rw [Function.update_of_ne hne]
    exact (or_iff_left fun h => hne h.1).symm

theorem idleList_addIdleCB (hch : (w.con i).channel.isSome) {lst lst' : Int} :
    (w.runOp (.addIdleCB i lst)).base.idleList lst' =
      if lst' = lst then w.base.idleList lst ++ [⟨w.base.nextNode, i, w.now / 1000⟩]
      else w.base.idleList lst' := by
  rw [World.runOp, if_pos hch]
  exact EventBase.idleList_of_set
    (EventBase.registers_registerIdle w.base w.now lst i).idleConns lst'

namespace EventBase

variable {b : EventBase} {id : IdleId} {ids : List IdleId} {lst : Int} {n : IdleNode}

theorem idleOk_foldl_unregisterIdle (h : b.IdleOk now) (ids : List IdleId) :
    (ids.foldl unregisterIdle b).IdleOk now := by
  induction ids generalizing b with
  | nil => exact h
  | cons id ids ih => exact ih (h.unregisterIdle id)

/-- The loop over `m_idleIds` in `Cleanup` takes nodes out. -/
theorem mem_of_foldl_unregisterIdle (hn : n ∈ (ids.foldl unregisterIdle b).idleList lst) :
    n ∈ b.idleList lst := by
  induction ids generalizing b with
  | nil => exact hn
  | cons id ids ih =>
      have hn := ih hn
      have hset : (b.unregisterIdle id).idleConns = b.idleConns.set id.lst _ := rfl
      rw [idleList_of_set hset] at hn
      split at hn
      · rename_i heq
        rw [heq]
        exact (List.mem_filter.mp hn).1
      · exact hn

/-- A node is one that was there before, updated at `s` if its `IdleId` is among
`ids`. -/
def Touched (b : EventBase) (s : Int) (ids : List IdleId) (lst : Int) (n : IdleNode) : Prop :=
  ∃ m ∈ b.idleList lst, m.node = n.node ∧ m.conn = n.conn ∧
    (n.updated = m.updated ∨ n.updated = s) ∧ (⟨lst, n.node⟩ ∈ ids → n.updated = s)

theorem touched_updateIdle (hn : n ∈ (b.updateIdle now id).idleList lst) :
    b.Touched (now / 1000) [id] lst n := by
  have hset : (b.updateIdle now id).idleConns = b.idleConns.set id.lst _ := rfl
  rw [idleList_of_set hset] at hn
  split at hn
  · rename_i heq
    subst heq
    rcases List.mem_append.mp hn with hn | hn
    · obtain ⟨hn, hne⟩ := List.mem_filter.mp hn
      refine ⟨n, hn, rfl, rfl, Or.inl rfl, fun hid => ?_⟩
      rw [← List.mem_singleton.mp hid] at hne
      exact absurd rfl (of_decide_eq_true hne)
    · obtain ⟨m, hm, rfl⟩ := List.mem_map.mp hn
      exact ⟨m, (List.mem_filter.mp hm).1, rfl, rfl, Or.inr rfl, fun _ => rfl⟩
  · rename_i hne
    refine ⟨n, hn, rfl, rfl, Or.inl rfl, fun hid => ?_⟩
    rw [← List.mem_singleton.mp hid] at hne
    exact absurd rfl hne

/-- The loop over `m_idleIds` in `HandleRead` updates the nodes of these ids. -/
theorem touched_foldl (hn : n ∈ (ids.foldl (fun b id => b.updateIdle now id) b).idleList lst) :
    b.Touched (now / 1000) ids lst n := by
  induction ids generalizing b with
  | nil => exact ⟨n, hn, rfl, rfl, Or.inl rfl, fun h => absurd h List.not_mem_nil⟩
  | cons id ids ih =>
      obtain ⟨m, hm, hnode, hconn, hup, hids⟩ := ih hn
      obtain ⟨m₀, hm₀, hnode₀, hconn₀, hup₀, hid⟩ := touched_updateIdle hm
      refine ⟨m₀, hm₀, hnode₀.trans hnode, hconn₀.trans hconn, ?_, fun hmem => ?_⟩
      · rcases hup with hup | hup
        · rw [hup]
          exact hup₀
        · exact Or.inr hup
      · rcases List.mem_cons.mp hmem with heq | hmem
        · -- updated first, and afterwards at the same time or not at all
          have hfirst := hid (List.mem_singleton.mpr (hnode ▸ heq))
          rcases hup with hup | hup
          · exact hup.trans hfirst
          · exact hup
        · exact hids hmem

theorem idleOk_foldl_updateIdle (h : b.IdleOk (now / 1000)) (ids : List IdleId) :
    (ids.foldl (fun b id => b.updateIdle now id) b).IdleOk (now / 1000) := by
  induction ids generalizing b with
  | nil => exact h
  | cons id ids ih => exact ih (h.updateIdle id)

end EventBase

/-- The idle lists are in order, and every node belongs to the connection that has
its `IdleId`. -/
structure World.Listed (w : World) : Prop where
  ok : w.base.IdleOk (w.now / 1000)
  owned : ∀ lst, ∀ n ∈ w.base.idleList lst, ⟨lst, n.node⟩ ∈ (w.con n.conn).idleIds

namespace World.Listed

/-- Changes that do not concern the idle lists. -/
theorem frame (h : w.Listed) (hconns : w'.base.idleConns = w.base.idleConns)
    (hnode : w'.base.nextNode = w.base.nextNode) (hnow : w.now / 1000 ≤ w'.now / 1000)
    (hids : ∀ i, (w.con i).idleIds ⊆ (w'.con i).idleIds) : w'.Listed := by
  have hlist : ∀ lst, w'.base.idleList lst = w.base.idleList lst := fun lst => by
    rw [EventBase.idleList, EventBase.idleList, hconns]
  have hok := h.ok.mono hnow
  constructor
  · constructor
    · intro lst; rw [hlist]; exact hok.sorted lst
    · intro lst; rw [hlist]; exact hok.past lst
    · intro lst; rw [hlist, hnode]; exact hok.fresh lst
    · intro lst; rw [hlist]; exact hok.nodup lst
  · intro lst n hn
    rw [hlist] at hn
    exact hids _ (h.owned lst n hn)

/-- A change of one connection. -/
theorem set (h : w.Listed) {c : TcpConn} (hids : c.idleIds = (w.con i).idleIds) :
    (w.set i c).Listed := by
  refine h.frame rfl rfl le_rfl fun j => ?_
  rcases eq_or_ne j i with rfl | hne
  · simp only [World.set, Function.update_self, hids]
    exact List.Subset.refl _
  · simp only [World.set, Function.update_of_ne hne]
    exact List.Subset.refl _

theorem onLink (h : w.Listed) (i : ConnId) (f : Link → Link) (hf : ∀ l, Libet.Quiet l (f l)) :
    (w.onLink i f).Listed :=
  (h.set (hf ⟨w.con i, w.base.poller⟩).idleIds).frame rfl rfl le_rfl
    fun _ => List.Subset.refl _

/-- A new node goes to the end of its list, and its `IdleId` to its connection. -/
theorem addIdleCB (h : w.Listed) (hch : (w.con i).channel.isSome) (lst : Int) :
    (w.runOp (.addIdleCB i lst)).Listed := by
  refine ⟨?_, fun lst' n hn => ?_⟩
  · rw [World.runOp, if_pos hch]
    exact h.ok.registerIdle lst i
  · rw [idleList_addIdleCB hch] at hn
    rw [mem_idleIds_addIdleCB hch]
    split at hn
    · rename_i heq
      subst heq
      rcases List.mem_append.mp hn with hn | hn
      · exact Or.inl (h.owned _ n hn)
      · rw [List.mem_singleton.mp hn]
        exact Or.inr ⟨rfl, rfl⟩
    · exact Or.inl (h.owned _ n hn)

theorem runOp (op : UserOp) (h : w.Listed) : (w.runOp op).Listed := by
  refine World.runOp_rule (fun j f hf h => h.onLink j f hf) (fun j h => ?_)
    (fun lst h hch => h.addIdleCB hch lst) op h
  exact h.frame rfl rfl le_rfl fun _ => List.Subset.refl _

theorem unregisterIdles (h : w.Listed) (i : ConnId) : (unregisterIdles i w).Listed :=
  ⟨EventBase.idleOk_foldl_unregisterIdle h.ok _,
    fun lst n hn => h.owned lst n (EventBase.mem_of_foldl_unregisterIdle hn)⟩

theorem updateIdles (h : w.Listed) (i : ConnId) : (updateIdles i w).Listed := by
  refine ⟨EventBase.idleOk_foldl_updateIdle h.ok _, fun lst n hn => ?_⟩
  obtain ⟨m, hm, hnode, hconn, -, -⟩ := EventBase.touched_foldl hn
  have hown := h.owned lst m hm
  rw [hnode, hconn] at hown
  exact hown

theorem rule (app : App) : World.CallRule app World.Listed :=
  .of_runOp runOp (fun i f hf h => h.onLink i f hf) (fun h hc => h.set hc.idleIds)
    (fun _ h => h.frame rfl rfl le_rfl fun _ => List.Subset.refl _)
    (fun h hconns hnode _ _ => h.frame hconns hnode le_rfl fun _ => List.Subset.refl _)
    (fun i h => h.unregisterIdles i) fun i h => h.updateIdles i

/-- A new connection has no node yet. -/
theorem handleAccept (h : w.Listed) (hfresh : (w.con w.nextConn).idleIds = []) (fd : Int)
    (sock : Socket) : (handleAccept app fd sock w).Listed := by
  refine h.frame rfl rfl le_rfl fun j => ?_
  show (w.con j).idleIds ⊆ (Function.update w.con w.nextConn _ j).idleIds
  rcases eq_or_ne j w.nextConn with rfl | hne
  · rw [hfresh]
    exact List.nil_subset _
  · rw [Function.update_of_ne hne]
    exact List.Subset.refl _

end World.Listed

/-! ### A connected connection is watched -/

/-- No connection gets a channel, and none loses an `IdleId`. -/
structure World.Grows (w w' : World) : Prop where
  channel : ∀ i, (w'.con i).channel.isSome → (w.con i).channel.isSome
  idleIds : ∀ i, (w.con i).idleIds ⊆ (w'.con i).idleIds

namespace World.Grows

theorem refl (w : World) : w.Grows w := ⟨fun _ => id, fun _ => List.Subset.refl _⟩

theorem trans {w'' : World} (h : w.Grows w') (h' : w'.Grows w'') : w.Grows w'' :=
  ⟨fun i hs => h.channel i (h'.channel i hs), fun i _ hid => h'.idleIds i (h.idleIds i hid)⟩

theorem set {c : TcpConn} (hids : c.idleIds = (w.con i).idleIds)
    (hch : c.channel.isSome → (w.con i).channel.isSome) : w.Grows (w.set i c) := by
  constructor <;> intro j <;> rcases eq_or_ne j i with rfl | hne
  · simpa only [World.set, Function.update_self] using hch
  · simp only [World.set, Function.update_of_ne hne]
    exact id
  · simp only [World.set, Function.update_self, hids]
    exact List.Subset.refl _
  · simp only [World.set, Function.update_of_ne hne]
    exact List.Subset.refl _

theorem onLink (w : World) (i : ConnId) (f : Link → Link) (hf : ∀ l, Libet.Quiet l (f l)) :
    w.Grows (w.onLink i f) := by
  have hq := hf ⟨w.con i, w.base.poller⟩
  have hset := set (w := w) (i := i) hq.idleIds fun hs => by
    by_contra hnone
    rw [hq.channel_none (Option.not_isSome_iff_eq_none.mp hnone)] at hs
    cases hs
  exact ⟨hset.channel, hset.idleIds⟩

theorem runOp (w : World) (op : UserOp) : w.Grows (w.runOp op) := by
  refine World.runOp_rule (P := w.Grows) (fun i f hf h => h.trans (onLink _ i f hf))
    (fun i h => ⟨h.channel, h.idleIds⟩) (fun {u i} lst h hch => h.trans ⟨fun j hs => ?_,
      fun j id hid => (mem_idleIds_addIdleCB hch).mpr (Or.inl hid)⟩) op (refl w)
  rw [World.runOp, if_pos hch] at hs
  dsimp only [World.set] at hs
  rcases eq_or_ne j i with rfl | hne
  · exact hch
  · rwa [Function.update_of_ne hne] at hs

theorem runOps (w : World) (ops : List UserOp) : w.Grows (w.runOps ops) :=
  World.runOps_rule (P := w.Grows) (fun op h => h.trans (runOp _ op)) (refl w) ops

end World.Grows

/-- A callback that registers an idle callback on a connection with a channel leaves
it with a node of the idle time. -/
theorem exists_idleId_of_mem {ops : List UserOp} (hmem : .addIdleCB i idle ∈ ops)
    (hch : ((w.runOps ops).con i).channel.isSome) :
    ∃ id ∈ ((w.runOps ops).con i).idleIds, id.lst = idle := by
  induction ops generalizing w with
  | nil => cases hmem
  | cons op ops ih =>
      rcases List.mem_cons.mp hmem with rfl | hmem
      · have hrest := World.Grows.runOps (w.runOp (.addIdleCB i idle)) ops
        have hch := (World.Grows.runOp w (.addIdleCB i idle)).channel i (hrest.channel i hch)
        exact ⟨⟨idle, w.base.nextNode⟩, hrest.idleIds i ((mem_idleIds_addIdleCB hch).mpr
          (Or.inr ⟨rfl, rfl⟩)), rfl⟩
      · exact ih hmem hch

/-- A connection whose state callback has seen `Connected` has a node of the idle
time, as long as it has a channel. -/
def World.Guarded (idle : Int) (w : World) : Prop :=
  ∀ i, .stateCb i .connected ∈ w.trace → (w.con i).channel.isSome →
    ∃ id ∈ (w.con i).idleIds, id.lst = idle

namespace World.Guarded

theorem grows (h : w.Guarded idle) (hg : w.Grows w')
    (htrace : ∀ i, .stateCb i .connected ∈ w'.trace → .stateCb i .connected ∈ w.trace) :
    w'.Guarded idle := by
  intro i hmem hch
  obtain ⟨id, hid, hlst⟩ := h i (htrace i hmem) (hg.channel i hch)
  exact ⟨id, hg.idleIds i hid, hlst⟩

theorem log (h : w.Guarded idle) {e : Event} (he : ∀ i s, e ≠ .stateCb i s) :
    (w.log e).Guarded idle := by
  have hg : w.Grows (w.log e) := ⟨fun _ => id, fun _ => List.Subset.refl _⟩
  refine h.grows hg fun i hmem => ?_
  rcases List.mem_append.mp hmem with hmem | hmem
  · exact hmem
  · exact absurd (List.mem_singleton.mp hmem).symm (he i _)

theorem runOps (h : w.Guarded idle) (ops : List UserOp) : (w.runOps ops).Guarded idle := by
  have htrace : (w.runOps ops).trace = w.trace :=
    congrArg Hub.trace (World.quiet_runOps w ops).hub
  exact h.grows (.runOps w ops) fun i hmem => htrace ▸ hmem

theorem set (h : w.Guarded idle) {c : TcpConn} (hids : c.idleIds = (w.con i).idleIds)
    (hch : c.channel.isSome → (w.con i).channel.isSome) : (w.set i c).Guarded idle :=
  h.grows (.set hids hch) fun _ => id

theorem onLink (h : w.Guarded idle) (i : ConnId) (f : Link → Link)
    (hf : ∀ l, Libet.Quiet l (f l)) : (w.onLink i f).Guarded idle :=
  h.grows (.onLink w i f hf) fun _ => id

/-- The state callback is told `Connected` and registers the idle callback. -/
theorem callState (hserver : IdleServer idle app) (h : w.Guarded idle)
    (hcb : (w.con i).stateCb = true) : (callState app i w).Guarded idle := by
  rw [Libet.callState, if_pos hcb]
  intro j hmem hch
  have hg := World.Grows.runOps (w.log (.stateCb i (w.con i).state))
    (app.onState (w.log (.stateCb i (w.con i).state)) i)
  have htrace : ((w.log (.stateCb i (w.con i).state)).runOps
      (app.onState (w.log (.stateCb i (w.con i).state)) i)).trace =
        w.trace ++ [.stateCb i (w.con i).state] :=
    congrArg Hub.trace (World.quiet_runOps _ _).hub
  rw [htrace] at hmem
  rcases List.mem_append.mp hmem with hmem | hmem
  · obtain ⟨id, hid, hlst⟩ := h j hmem (hg.channel j hch)
    exact ⟨id, hg.idleIds j hid, hlst⟩
  · obtain ⟨rfl, hs⟩ := Event.stateCb.inj (List.mem_singleton.mp hmem)
    exact exists_idleId_of_mem (hserver.onState _ _ hs.symm) hch

theorem rule (hserver : IdleServer idle app) : World.CallRule app (World.Guarded idle) where
  log h _ he := h.log he
  conn _ _ _ h _ _ := h.set rfl id
  base h _ _ _ _ := h
  unregisterIdles i h := h.log fun _ _ e => by cases e
  updateIdles i h := h
  flush i h := h.onLink i (·.flush) fun l => l.quiet_flush
  unwatch {w} i h := by
    rw [Libet.unwatch]
    split
    · exact h.onLink i (·.enableWrite false) fun l => l.quiet_enableWrite false
    · exact h
  shut h hch := h.set rfl fun _ => by rw [hch]; rfl
  drop h := h.set rfl fun hs => by cases hs
  callMsg h _ := by
    rw [Libet.callMsg]
    exact ((h.log fun _ _ e => by cases e).runOps _).set rfl id
  onRead h _ := h.runOps _
  callState h hcb := h.callState hserver hcb
  onTimer i h := h.runOps _
  onWrite i h := h.runOps _

/-- The state callback of a new connection has seen nothing yet. -/
theorem handleAccept (h : w.Guarded idle)
    (hnew : .stateCb w.nextConn .connected ∉ w.trace) (fd : Int) (sock : Socket) :
    (handleAccept app fd sock w).Guarded idle := by
  intro j hmem hch
  have hmem : .stateCb j .connected ∈ w.trace ++ [.moved w.nextConn .invalid .handshaking] := hmem
  have hmem : .stateCb j .connected ∈ w.trace := by simpa using hmem
  have hne : j ≠ w.nextConn := fun e => hnew (e ▸ hmem)
  have hcon : (Libet.handleAccept app fd sock w).con j = w.con j := Function.update_of_ne hne ..
  rw [hcon] at hch ⊢
  exact h j hmem hch

end World.Guarded

/-- The clock does not go back. -/
def Forward (w : World) (a : Input) (_ : World) : Prop :=
  match a with
  | .tick now => w.now ≤ now
  | _ => True

instance (w : World) (a : Input) (w' : World) : Decidable (Forward w a w') := by
  unfold Forward
  split <;> infer_instance

/-- The idle lists stay in order. -/
theorem World.Listed.step {a : Input} (hstep : worldStep app w a = some w')
    (hclock : Forward w a w') (hidle : IdleInv w) (h : w.Listed) : w'.Listed := by
  refine (World.Listed.rule app).worldStep hstep h (fun fd _ _ _ _ => ?_) (fun _ _ _ _ => ?_)
    (fun op _ => h.runOp op) fun now ha => ?_
  · exact h.handleAccept (hidle.fresh _ (Nat.le_refl _)).2 fd _
  · exact h.frame rfl rfl le_rfl fun _ => List.Subset.refl _
  · subst ha
    exact h.frame rfl rfl (Int.ediv_le_ediv (by decide) hclock) fun _ => List.Subset.refl _

theorem World.Listed.init (wakeupFd listenFd : Int) : (World.init wakeupFd listenFd).Listed :=
  ⟨⟨fun _ => List.Pairwise.nil, fun _ _ h => absurd h List.not_mem_nil,
    fun _ _ h => absurd h List.not_mem_nil, fun _ => List.nodup_nil⟩,
    fun _ _ h => absurd h List.not_mem_nil⟩

/-- What holds in every run of such a server. -/
structure World.Served (idle : Int) (slots : Slots) (w : World) : Prop where
  good : w.Good
  tracked : w.hub.Tracked slots
  once : w.hub.Once fun _ => True
  idleInv : IdleInv w
  listed : w.Listed
  guarded : w.Guarded idle

namespace World.Served

variable {slots : Slots}

theorem init (idle : Int) (slots : Slots) (wakeupFd listenFd : Int) :
    (World.init wakeupFd listenFd).Served idle slots where
  good := good_init wakeupFd listenFd
  tracked := Hub.tracked_init slots wakeupFd listenFd
  once := Hub.once_init _ wakeupFd listenFd
  idleInv := idleInv_init wakeupFd listenFd
  listed := Listed.init wakeupFd listenFd
  guarded _ h := absurd h List.not_mem_nil

/-- The trace tells nothing of the next connection. -/
theorem not_mem_nextConn (h : w.Served idle slots) (s : ConnState) :
    .stateCb w.nextConn s ∉ w.trace := by
  intro hmem
  have hstate : (w.hub.peer w.nextConn).state = .invalid :=
    h.tracked.consistent.fresh _ (Nat.le_refl _)
  have htold := (h.tracked.lifecycle w.nextConn).notified_eq
  rw [hstate] at htold
  have hnil : notified w.nextConn w.trace = [] := by
    refine htold.trans ?_
    split <;> rfl
  have hin : s ∈ notified w.nextConn w.trace :=
    List.mem_filterMap.mpr ⟨_, hmem, if_pos rfl⟩
  rw [hnil] at hin
  cases hin

theorem step (hserver : IdleServer idle app) {a : Input} (hstep : worldStep app w a = some w')
    (hclock : Forward w a w') (h : w.Served idle app.slots) : w'.Served idle app.slots where
  good := good_of_worldStep hstep h.good
  tracked := ok_of_worldStep (Hub.tracked_rule app.slots) hstep h.good h.tracked
    fun _ _ => Or.inl trivial
  once := ok_of_worldStep (Hub.once_rule app.slots _) hstep h.good h.once
    fun _ _ => Or.inl trivial
  idleInv := (IdleInv.rule app).worldStep hstep h.idleInv
  listed := h.listed.step hstep hclock h.idleInv
  guarded :=
    (Guarded.rule hserver).worldStep hstep h.guarded
      (fun fd _ _ _ _ => h.guarded.handleAccept (h.not_mem_nextConn _) fd _)
      (fun _ _ _ _ => h.guarded) (fun op _ => h.guarded.runOps [op]) fun _ _ => h.guarded

theorem of_run (hserver : IdleServer idle app) {wakeupFd listenFd : Int} {as : List Input}
    (hrun : Exec.exec (worldStep app) (World.init wakeupFd listenFd) as = some w)
    (hclock : Exec.Along (worldStep app) Forward (World.init wakeupFd listenFd) as) :
    w.Served idle app.slots :=
  Exec.invariant_along (fun _ _ _ hstep hc h => h.step hserver hstep hc) hclock hrun
    (init idle app.slots wakeupFd listenFd)

/-- The state callback of a connected connection has seen `Connected`. -/
theorem stateCb_mem (hserver : IdleServer idle app) (h : w.Served idle app.slots)
    (hs : (w.con i).state = .connected) : .stateCb i .connected ∈ w.trace := by
  have hnotified : notified i w.trace = [.connected] := by
    refine (h.tracked.lifecycle i).notified_eq.trans ?_
    rw [if_pos hserver.stateCb]
    show (w.con i).state.notices = _
    rw [hs]
    rfl
  have hmem : .connected ∈ notified i w.trace := hnotified ▸ List.mem_singleton_self _
  obtain ⟨e, he, heq⟩ := List.mem_filterMap.mp hmem
  cases e with
  | stateCb j s =>
      obtain ⟨rfl, hsome⟩ := Option.ite_none_right_eq_some.mp heq
      rwa [Option.some.inj hsome] at he
  | _ => cases heq

theorem lt_nextConn (h : w.Served idle app.slots) (hs : (w.con i).state = .connected) :
    i < w.nextConn := by
  by_contra hle
  have hinv : (w.con i).state = .invalid :=
    h.tracked.consistent.fresh i (Nat.le_of_not_lt hle)
  rw [hs] at hinv
  cases hinv

theorem channel_isSome (h : w.Served idle app.slots) (hs : (w.con i).state = .connected) :
    (w.con i).channel.isSome := by
  have hlive : (w.hub.peer i).state.live := by
    show (w.con i).state.live
    rw [hs]
    rfl
  obtain ⟨ch, hch⟩ := Hub.exists_channel_of_isOpen ((h.good.settled.open_iff i).trans hlive)
  obtain ⟨c, hc, -⟩ := Option.map_eq_some_iff.mp hch
  rw [hc]
  rfl

/-- **A connected connection is watched**: one of the nodes of the idle time is its
own. -/
theorem exists_node (hserver : IdleServer idle app) (h : w.Served idle app.slots)
    (hs : (w.con i).state = .connected) : ∃ n ∈ w.base.idleList idle, n.conn = i := by
  obtain ⟨id, hid, rfl⟩ := h.guarded i (h.stateCb_mem hserver hs) (h.channel_isSome hs)
  -- its node is in the list, for the ids have not been given back
  have hpass : passes i w.trace = 0 := (h.once.at_conn i).passes_live (by
    show (w.con i).state.live
    rw [hs]
    rfl)
  obtain ⟨n, hn, hnode⟩ := EventBase.hasIdle_iff.mp (h.idleInv.present i hpass id hid)
  refine ⟨n, hn, ?_⟩
  exact h.idleInv.node_inj _ _ _ (h.listed.owned _ n hn) id hid hnode

end World.Served

end Libet
