/-
Libet/IdlePass.lean

Passes of `CallIdles` over the idle lists.

`CallIdles` walks the keys of `m_idleConns`.  It copies the pair it stands at,
and then takes from the front of the copied list the nodes that are due; each is
put behind the others of the copy and its callback is called.  It stops at the
first node that is not due, and after as many nodes as the list has.

The callbacks may register, update and unregister; otherwise nothing happens
between two steps of a pass (`idleStep`).  Every list stays sorted by
`m_updated` (`IdleOk`), so the nodes that are due are in front, and a pass that
is left alone calls exactly these (`callIdles_exact`).
-/
import Libet.Idle
import Libet.Lib.Exec
import Mathlib.Algebra.Order.Ring.Int

namespace Libet

/-! ### The machine -/

/-- Where `CallIdles` stands.  `now` is the local variable, in seconds, and `it`
the iterator over the keys of `m_idleConns`, `none` at the end. -/
inductive PassPoint
  | outside
  /-- at `while (it != m_idleConns.end())` -/
  | atList (now : Int) (it : Option Int)
  /-- at `while (cnt--)`, with the copied list -/
  | inList (now : Int) (it : Option Int) (idle : Int) (lst : List IdleNode) (cnt : Nat)
  /-- inside `node.m_cb(node.m_conn)` -/
  | inCallback (now : Int) (it : Option Int) (idle : Int) (lst : List IdleNode) (cnt : Nat)
  deriving DecidableEq, Repr

/-- The user's code can run. -/
def PassPoint.user : PassPoint → Bool
  | .outside | .inCallback .. => true
  | _ => false

/-- The state: `clock` is the last clock value read, in milliseconds, and `calls`
the callbacks called so far with their times in seconds, the last one first. -/
structure IdleState where
  base : EventBase
  clock : Int
  point : PassPoint
  calls : List (IdleId × Int)

inductive IdleLabel
  | registerIdle (clock idle : Int) (con : ConnId)
  | updateIdle (clock : Int) (id : IdleId)
  | unregisterIdle (id : IdleId)
  /-- `CallIdles` begins -/
  | callIdles (clock : Int)
  /-- it takes its next step -/
  | turn
  deriving DecidableEq, Repr

/-- `m_updated + idle > now` does not hold. -/
def IdleNode.Due (idle now : Int) (n : IdleNode) : Prop := n.updated + idle ≤ now

instance (idle now : Int) (n : IdleNode) : Decidable (n.Due idle now) :=
  inferInstanceAs (Decidable (_ ≤ _))

namespace IdleState

def init (clock : Int) : IdleState := ⟨EventBase.new, clock, .outside, []⟩

/-- The next step of `CallIdles`. -/
def turn (σ : IdleState) : Option IdleState :=
  match σ.point with
  | .outside => none
  | .atList _ none => some { σ with point := .outside }
  | .atList now (some idle) =>
      let lst := σ.base.idleList idle
      some { σ with point := .inList now (σ.base.idleConns.nextKey? idle) idle lst lst.length }
  | .inList now it _ _ 0 => some { σ with point := .atList now it }
  | .inList _ _ _ [] (_ + 1) => none
  | .inList now it idle (n :: lst) (cnt + 1) =>
      if n.Due idle now then
        -- the node that is written and moved is one of the copy
        some { σ with point := .inCallback now it idle (lst ++ [{ n with updated := now }]) cnt
                      calls := (⟨idle, n.node⟩, now) :: σ.calls }
      else some { σ with point := .atList now it }
  | .inCallback now it idle lst cnt => some { σ with point := .inList now it idle lst cnt }

end IdleState

open IdleState

/-- One step.  The user's calls are made outside a pass or from a callback, with
`IdleId`s that are registered, and the clock does not go back. -/
def idleStep (σ : IdleState) : IdleLabel → Option IdleState
  | .registerIdle clock idle con =>
      if σ.point.user ∧ σ.clock ≤ clock then
        some { σ with base := (σ.base.registerIdle clock idle con).2, clock := clock }
      else none
  | .updateIdle clock id =>
      if σ.point.user ∧ σ.clock ≤ clock ∧ σ.base.hasIdle id then
        some { σ with base := σ.base.updateIdle clock id, clock := clock }
      else none
  | .unregisterIdle id =>
      if σ.point.user ∧ σ.base.hasIdle id then
        some { σ with base := σ.base.unregisterIdle id }
      else none
  | .callIdles clock =>
      if σ.point = .outside ∧ σ.clock ≤ clock then
        some { σ with clock := clock
                      point := .atList (clock / 1000) (σ.base.idleConns.first?.map Prod.fst) }
      else none
  | .turn => σ.turn

/-! ### The lists stay sorted -/

/-- The idle lists at a time, in seconds: sorted by `m_updated`, not ahead of the
time, and with nodes of different numbers that have been given out. -/
structure EventBase.IdleOk (b : EventBase) (now : Int) : Prop where
  sorted : ∀ idle, (b.idleList idle).Pairwise fun m n => m.updated ≤ n.updated
  past : ∀ idle, ∀ n ∈ b.idleList idle, n.updated ≤ now
  fresh : ∀ idle, ∀ n ∈ b.idleList idle, n.node < b.nextNode
  nodup : ∀ idle, ((b.idleList idle).map IdleNode.node).Nodup

namespace EventBase.IdleOk

variable {b b' : EventBase} {now now' clock idle : Int} {lst : List IdleNode} {id : IdleId}

theorem new (now : Int) : EventBase.new.IdleOk now where
  sorted _ := List.Pairwise.nil
  past _ _ h := absurd h List.not_mem_nil
  fresh _ _ h := absurd h List.not_mem_nil
  nodup _ := List.nodup_nil

theorem mono (h : b.IdleOk now) (hle : now ≤ now') : b.IdleOk now' :=
  ⟨h.sorted, fun idle n hn => (h.past idle n hn).trans hle, h.fresh, h.nodup⟩

/-- One list is replaced by a good one. -/
theorem set (h : b.IdleOk now) (hset : b'.idleConns = b.idleConns.set idle lst)
    (hnext : b.nextNode ≤ b'.nextNode)
    (hsorted : lst.Pairwise fun m n => m.updated ≤ n.updated)
    (hlst : ∀ n ∈ lst, n.updated ≤ now ∧ n.node < b'.nextNode)
    (hnodup : (lst.map IdleNode.node).Nodup) : b'.IdleOk now := by
  constructor
  case sorted =>
    intro idle'
    rw [EventBase.idleList_of_set hset]
    split
    · exact hsorted
    · exact h.sorted idle'
  case past =>
    intro idle' n hn
    rw [EventBase.idleList_of_set hset] at hn
    split at hn
    · exact (hlst n hn).1
    · exact h.past idle' n hn
  case fresh =>
    intro idle' n hn
    rw [EventBase.idleList_of_set hset] at hn
    split at hn
    · exact (hlst n hn).2
    · exact Nat.lt_of_lt_of_le (h.fresh idle' n hn) hnext
  case nodup =>
    intro idle'
    rw [EventBase.idleList_of_set hset]
    split
    · exact hnodup
    · exact h.nodup idle'

/-- A list with a newest node at the end. -/
theorem sorted_append (hsorted : lst.Pairwise fun m n => m.updated ≤ n.updated)
    (hpast : ∀ n ∈ lst, n.updated ≤ now) {l : List IdleNode} (hl : ∀ n ∈ l, n.updated = now) :
    (lst ++ l).Pairwise fun m n => m.updated ≤ n.updated := by
  rw [List.pairwise_append]
  refine ⟨hsorted, ?_, fun m hm n hn => ?_⟩
  · apply List.pairwise_of_forall_mem_list
    intro m hm n hn
    rw [hl m hm, hl n hn]
  · rw [hl n hn]
    exact hpast m hm

theorem registerIdle (h : b.IdleOk (clock / 1000)) (idle : Int) (con : ConnId) :
    (b.registerIdle clock idle con).2.IdleOk (clock / 1000) := by
  obtain ⟨-, hset, hnext, -, -, -⟩ := EventBase.registers_registerIdle b clock idle con
  apply h.set hset (by omega)
  · apply sorted_append (h.sorted idle) (h.past idle)
    intro n hn
    rw [List.mem_singleton.mp hn]
  · intro n hn
    rw [hnext]
    rcases List.mem_append.mp hn with hn | hn
    · exact ⟨h.past idle n hn, Nat.lt_succ_of_lt (h.fresh idle n hn)⟩
    · rw [List.mem_singleton.mp hn]
      exact ⟨le_rfl, Nat.lt_succ_self _⟩
  · rw [List.map_append, List.nodup_append]
    refine ⟨h.nodup idle, List.nodup_singleton _, ?_⟩
    intro k hk k' hk' heq
    obtain ⟨n, hn, rfl⟩ := List.mem_map.mp hk
    rw [List.map_singleton, List.mem_singleton] at hk'
    exact Nat.ne_of_lt (h.fresh idle n hn) (heq.trans hk')

theorem unregisterIdle (h : b.IdleOk now) (id : IdleId) : (b.unregisterIdle id).IdleOk now := by
  have hset : (b.unregisterIdle id).idleConns = b.idleConns.set id.lst _ := rfl
  apply h.set hset (Nat.le_refl _)
  · exact (h.sorted id.lst).sublist List.filter_sublist
  · intro n hn
    have hn := (List.mem_filter.mp hn).1
    exact ⟨h.past id.lst n hn, h.fresh id.lst n hn⟩
  · exact (h.nodup id.lst).sublist (List.filter_sublist.map _)

/-- Moving a node to the end keeps the nodes. -/
theorem perm_moved (lst : List IdleNode) (k : Nat) (now : Int) :
    List.Perm (List.map IdleNode.node (lst.filter (fun n => n.node ≠ k) ++
      (lst.filter (fun n => n.node == k)).map fun n => { n with updated := now }))
      (lst.map IdleNode.node) := by
  have hneg : (fun n : IdleNode => decide (n.node ≠ k)) = fun n => !(n.node == k) := by
    funext n
    rw [decide_not]
    rfl
  have hsplit : List.Perm (lst.filter (fun n => n.node ≠ k) ++ lst.filter (fun n => n.node == k))
      lst := by
    rw [hneg]
    exact List.perm_append_comm.trans (List.filter_append_perm _ lst)
  have hmap := hsplit.map IdleNode.node
  rw [List.map_append] at hmap
  rw [List.map_append, List.map_map]
  exact hmap

theorem updateIdle (h : b.IdleOk (clock / 1000)) (id : IdleId) :
    (b.updateIdle clock id).IdleOk (clock / 1000) := by
  have hset : (b.updateIdle clock id).idleConns = b.idleConns.set id.lst _ := rfl
  apply h.set hset (Nat.le_refl _)
  · apply sorted_append ((h.sorted id.lst).sublist List.filter_sublist)
      (fun n hn => h.past id.lst n (List.mem_filter.mp hn).1)
    intro n hn
    obtain ⟨m, -, rfl⟩ := List.mem_map.mp hn
    rfl
  · intro n hn
    rcases List.mem_append.mp hn with hn | hn
    · have hn := (List.mem_filter.mp hn).1
      exact ⟨h.past id.lst n hn, h.fresh id.lst n hn⟩
    · obtain ⟨m, hm, rfl⟩ := List.mem_map.mp hn
      exact ⟨le_rfl, h.fresh id.lst m (List.mem_filter.mp hm).1⟩
  · -- the nodes are those there were, with the updated one at the end
    exact (perm_moved (b.idleList id.lst) id.node (clock / 1000)).nodup_iff.mpr (h.nodup id.lst)

end EventBase.IdleOk

/-! ### What the user's calls do to the nodes -/

/-- Every node of the lists was there before, or has just been updated. -/
def EventBase.Refreshed (b b' : EventBase) (s : Int) : Prop :=
  ∀ idle, ∀ m ∈ b'.idleList idle, m ∈ b.idleList idle ∨ s ≤ m.updated

theorem EventBase.refreshed_registerIdle (b : EventBase) (clock idle : Int) (con : ConnId) :
    b.Refreshed (b.registerIdle clock idle con).2 (clock / 1000) := by
  intro idle' m hm
  rw [idleList_of_set (registers_registerIdle b clock idle con).idleConns] at hm
  split at hm
  · rename_i heq
    rw [heq]
    rcases List.mem_append.mp hm with hm | hm
    · exact Or.inl hm
    · rw [List.mem_singleton.mp hm]
      exact Or.inr le_rfl
  · exact Or.inl hm

theorem EventBase.refreshed_updateIdle (b : EventBase) (clock : Int) (id : IdleId) :
    b.Refreshed (b.updateIdle clock id) (clock / 1000) := by
  intro idle' m hm
  have hset : (b.updateIdle clock id).idleConns = b.idleConns.set id.lst _ := rfl
  rw [idleList_of_set hset] at hm
  split at hm
  · rename_i heq
    rw [heq]
    rcases List.mem_append.mp hm with hm | hm
    · exact Or.inl (List.mem_filter.mp hm).1
    · obtain ⟨m, -, rfl⟩ := List.mem_map.mp hm
      exact Or.inr le_rfl
  · exact Or.inl hm

theorem EventBase.refreshed_unregisterIdle (b : EventBase) (id : IdleId) (s : Int) :
    b.Refreshed (b.unregisterIdle id) s := by
  intro idle' m hm
  have hset : (b.unregisterIdle id).idleConns = b.idleConns.set id.lst _ := rfl
  rw [idleList_of_set hset] at hm
  split at hm
  · rename_i heq
    rw [heq]
    exact Or.inl (List.mem_filter.mp hm).1
  · exact Or.inl hm

/-! ### Steps -/

variable {σ σ' : IdleState} {clock₀ now : Int} {it : Option Int}

/-- What a step does: a call of the user changes the lists, the other steps do
not. -/
inductive IdleStep (σ : IdleState) : IdleLabel → IdleState → Prop
  | user {a : IdleLabel} {b' : EventBase} {clock : Int} (huser : σ.point.user = true)
      (hclock : σ.clock ≤ clock) (hb : σ.base.Refreshed b' (clock / 1000))
      (hok : σ.base.IdleOk (clock / 1000) → b'.IdleOk (clock / 1000)) :
      IdleStep σ a { σ with base := b', clock := clock }
  | callIdles {clock : Int} (hout : σ.point = .outside) (hclock : σ.clock ≤ clock) :
      IdleStep σ (.callIdles clock) { σ with
        clock := clock
        point := .atList (clock / 1000) (σ.base.idleConns.first?.map Prod.fst) }
  | turn {τ : IdleState} (hturn : σ.turn = some τ) : IdleStep σ .turn τ

theorem IdleStep.of_idleStep {a : IdleLabel} (hstep : idleStep σ a = some σ') :
    IdleStep σ a σ' := by
  cases a with
  | registerIdle clock idle con =>
      simp only [idleStep] at hstep
      split at hstep <;> cases hstep
      rename_i hen
      exact .user hen.1 hen.2 (EventBase.refreshed_registerIdle _ _ _ _)
        fun h => h.registerIdle idle con
  | updateIdle clock id =>
      simp only [idleStep] at hstep
      split at hstep <;> cases hstep
      rename_i hen
      exact .user hen.1 hen.2.1 (EventBase.refreshed_updateIdle _ _ _) fun h => h.updateIdle id
  | unregisterIdle id =>
      simp only [idleStep] at hstep
      split at hstep <;> cases hstep
      rename_i hen
      exact IdleStep.user hen.1 (le_refl σ.clock) (EventBase.refreshed_unregisterIdle _ _ _)
        fun h => h.unregisterIdle id
  | callIdles clock =>
      simp only [idleStep] at hstep
      split at hstep <;> cases hstep
      rename_i hen
      exact .callIdles hen.1 hen.2
  | turn => exact .turn hstep

/-- A step of a pass leaves the lists and the clock alone. -/
theorem IdleState.base_of_turn (hturn : σ.turn = some σ') :
    σ'.base = σ.base ∧ σ'.clock = σ.clock := by
  unfold IdleState.turn at hturn
  split at hturn
  case h_6 => split at hturn <;> cases hturn <;> exact ⟨rfl, rfl⟩
  all_goals
    cases hturn
    try exact ⟨rfl, rfl⟩

theorem IdleState.idleOk_step {a : IdleLabel} (hstep : IdleStep σ a σ')
    (h : σ.base.IdleOk (σ.clock / 1000)) : σ'.base.IdleOk (σ'.clock / 1000) := by
  cases hstep with
  | user huser hclock hb hok => exact hok (h.mono (Int.ediv_le_ediv (by decide) hclock))
  | callIdles hout hclock => exact h.mono (Int.ediv_le_ediv (by decide) hclock)
  | turn hturn =>
      obtain ⟨hbase, hclock⟩ := base_of_turn hturn
      rw [hbase, hclock]
      exact h

theorem idleOk_of_run {as : List IdleLabel}
    (hrun : Exec.exec idleStep (init clock₀) as = some σ) : σ.base.IdleOk (σ.clock / 1000) :=
  Exec.invariant (I := fun σ : IdleState => σ.base.IdleOk (σ.clock / 1000))
    (fun _ _ _ hstep hi => idleOk_step (.of_idleStep hstep) hi) hrun (EventBase.IdleOk.new _)

/-! ### A pass that is left alone -/

/-- The pass gets from one state to another by steps of its own. -/
def IdleTurns (σ σ' : IdleState) : Prop :=
  ∃ k, Exec.exec idleStep σ (List.replicate k .turn) = some σ'

theorem IdleTurns.refl (σ : IdleState) : IdleTurns σ σ := ⟨0, rfl⟩

theorem IdleTurns.head {τ : IdleState} (hturn : σ.turn = some τ) (h : IdleTurns τ σ') :
    IdleTurns σ σ' := by
  obtain ⟨k, hk⟩ := h
  refine ⟨k + 1, ?_⟩
  rw [List.replicate_succ, Exec.exec_cons]
  show (σ.turn).bind _ = _
  rw [hturn]
  exact hk

theorem IdleTurns.trans {τ : IdleState} (h : IdleTurns σ τ) (h' : IdleTurns τ σ') :
    IdleTurns σ σ' := by
  obtain ⟨j, hj⟩ := h
  obtain ⟨k, hk⟩ := h'
  refine ⟨j + k, ?_⟩
  rw [← List.replicate_append_replicate, Exec.exec_append, hj]
  exact hk

/-- The calls of the nodes of a list that are due. -/
def dueCalls (now idle : Int) (lst : List IdleNode) : List (IdleId × Int) :=
  (lst.filter fun n => n.Due idle now).map fun n => (⟨idle, n.node⟩, now)

/-- In a sorted list nothing behind a node that is not due is due. -/
theorem dueCalls_of_not_due {idle : Int} {n : IdleNode} {lst : List IdleNode}
    (hsorted : (n :: lst).Pairwise fun m n => m.updated ≤ n.updated) (hn : ¬ n.Due idle now) :
    dueCalls now idle (n :: lst) = [] := by
  have hall : ∀ m ∈ n :: lst, ¬ (decide (m.Due idle now)) = true := by
    intro m hm
    rw [decide_eq_true_eq]
    rcases List.mem_cons.mp hm with rfl | hm
    · exact hn
    · have hle := List.rel_of_pairwise_cons hsorted hm
      intro hdue
      apply hn
      rw [IdleNode.Due] at hdue ⊢
      omega
  rw [dueCalls, List.filter_eq_nil_iff.mpr hall, List.map_nil]

/-- **The walk along one copied list.**  `todo` are the nodes not yet met, `done`
those moved behind them. -/
theorem turns_list {b : EventBase} {clock idle : Int} (todo done : List IdleNode)
    (calls : List (IdleId × Int))
    (hsorted : todo.Pairwise fun m n => m.updated ≤ n.updated) :
    IdleTurns ⟨b, clock, .inList now it idle (todo ++ done) todo.length, calls⟩
      ⟨b, clock, .atList now it, (dueCalls now idle todo).reverse ++ calls⟩ := by
  induction todo generalizing done calls with
  | nil => exact .head rfl (.refl _)
  | cons n todo ih =>
      by_cases hdue : n.Due idle now
      · -- the node is called and goes behind the others
        have hcall : dueCalls now idle (n :: todo) =
            (⟨idle, n.node⟩, now) :: dueCalls now idle todo := by
          rw [dueCalls, List.filter_cons_of_pos (by simpa using hdue), List.map_cons]
          rfl
        have hrest := ih (done ++ [{ n with updated := now }])
          ((⟨idle, n.node⟩, now) :: calls) (List.pairwise_cons.mp hsorted).2
        rw [hcall, List.reverse_cons, List.append_assoc]
        rw [← List.append_assoc] at hrest
        exact .head (if_pos hdue) (.head rfl hrest)
      · rw [dueCalls_of_not_due hsorted hdue]
        exact .head (if_neg hdue) (.refl _)

/-- **The walk along the keys.** -/
theorem turns_keys {b : EventBase} {clock : Int} (h : b.IdleOk (clock / 1000))
    (pre post : List (Int × List IdleNode)) (calls : List (IdleId × Int))
    (hentries : b.idleConns.entries = pre ++ post) :
    IdleTurns ⟨b, clock, .atList now (post.head?.map Prod.fst), calls⟩
      ⟨b, clock, .outside, (post.flatMap fun e => dueCalls now e.1 e.2).reverse ++ calls⟩ := by
  induction post generalizing pre calls with
  | nil => exact .head rfl (.refl _)
  | cons e post ih =>
      obtain ⟨idle, lst⟩ := e
      have hlst : b.idleList idle = lst := by
        have hhas : b.idleConns.Has idle lst := by
          rw [OrdMap.Has, hentries]
          exact List.mem_append_right _ List.mem_cons_self
        rw [EventBase.idleList, OrdMap.find?_eq_some.mpr hhas]
        rfl
      have hsorted := h.sorted idle
      rw [hlst] at hsorted
      have hcopy : IdleState.turn ⟨b, clock, .atList now (some idle), calls⟩ =
          some ⟨b, clock, .inList now (post.head?.map Prod.fst) idle (lst ++ []) lst.length,
            calls⟩ := by
        rw [turn]
        dsimp only
        rw [hlst, OrdMap.nextKey?_of_entries hentries, List.append_nil]
      have hrest := ih (pre ++ [(idle, lst)]) ((dueCalls now idle lst).reverse ++ calls)
        (by rw [hentries, List.append_assoc]; rfl)
      rw [List.flatMap_cons, List.reverse_append, List.append_assoc]
      exact .head hcopy ((turns_list lst [] calls hsorted).trans hrest)

/-- The calls of a pass that is left alone. -/
def passCalls (b : EventBase) (now : Int) : List (IdleId × Int) :=
  b.idleConns.entries.flatMap fun e => dueCalls now e.1 e.2

theorem mem_dueCalls {idle : Int} {lst : List IdleNode} {id : IdleId} {t : Int} :
    (id, t) ∈ dueCalls now idle lst ↔
      t = now ∧ id.lst = idle ∧ ∃ n ∈ lst, n.node = id.node ∧ n.updated + idle ≤ now := by
  constructor
  · intro h
    obtain ⟨n, hn, heq⟩ := List.mem_map.mp h
    obtain ⟨hmem, hdue⟩ := List.mem_filter.mp hn
    cases heq
    exact ⟨rfl, rfl, n, hmem, rfl, of_decide_eq_true hdue⟩
  · rintro ⟨rfl, rfl, n, hmem, hnode, hdue⟩
    refine List.mem_map.mpr ⟨n, List.mem_filter.mpr ⟨hmem, decide_eq_true hdue⟩, ?_⟩
    rw [hnode]

theorem mem_passCalls {b : EventBase} {id : IdleId} {t : Int} :
    (id, t) ∈ passCalls b now ↔ t = now ∧
      ∃ n ∈ b.idleList id.lst, n.node = id.node ∧ n.updated + id.lst ≤ now := by
  rw [passCalls, List.mem_flatMap]
  constructor
  · rintro ⟨⟨idle, lst⟩, he, hmem⟩
    obtain ⟨rfl, hlst, n, hn, hdue⟩ := mem_dueCalls.mp hmem
    dsimp only at hlst hdue
    subst hlst
    refine ⟨rfl, n, ?_, hdue⟩
    rw [EventBase.idleList, OrdMap.find?_eq_some.mpr he]
    exact hn
  · rintro ⟨rfl, n, hn, hdue⟩
    rw [EventBase.idleList] at hn
    cases hfind : b.idleConns.find? id.lst with
    | none =>
        rw [hfind] at hn
        exact absurd hn List.not_mem_nil
    | some lst =>
        rw [hfind] at hn
        exact ⟨(id.lst, lst), OrdMap.find?_eq_some.mp hfind,
          mem_dueCalls.mpr ⟨rfl, rfl, n, hn, hdue⟩⟩

/-- Nobody is called twice in a pass. -/
theorem nodup_passCalls {b : EventBase} {s : Int} (h : b.IdleOk s) (now : Int) :
    ((passCalls b now).map Prod.fst).Nodup := by
  rw [passCalls, List.map_flatMap, List.nodup_flatMap]
  constructor
  · rintro ⟨idle, lst⟩ he
    have hlst : b.idleList idle = lst := by
      rw [EventBase.idleList, OrdMap.find?_eq_some.mpr he]
      rfl
    have hnodup := h.nodup idle
    rw [hlst] at hnodup
    have hsub : ((lst.filter fun n => n.Due idle now).map IdleNode.node).Nodup :=
      hnodup.sublist (List.filter_sublist.map _)
    rw [dueCalls, List.map_map]
    have hids := hsub.map (f := fun k => (⟨idle, k⟩ : IdleId))
      (fun _ _ heq => congrArg IdleId.node heq)
    rw [List.map_map] at hids
    exact hids
  · -- different keys, different ids
    apply b.idleConns.sorted.imp
    rintro ⟨idle, lst⟩ ⟨idle', lst'⟩ hlt id hid hid'
    obtain ⟨⟨_, t⟩, hmem, rfl⟩ := List.mem_map.mp hid
    obtain ⟨⟨id', t'⟩, hmem', heq⟩ := List.mem_map.mp hid'
    obtain ⟨-, hlst, -⟩ := mem_dueCalls.mp hmem
    obtain ⟨-, hlst', -⟩ := mem_dueCalls.mp hmem'
    dsimp only at hlt hlst hlst' heq
    rw [heq] at hlst'
    exact absurd (hlst.symm.trans hlst') hlt.ne

/-- **A pass is complete and exact.**  In every state that a run reaches, each
idle list is sorted by `m_updated`.  From every such state outside a pass, a pass
at any clock value that the callbacks leave alone comes to its end, changes
nothing, and calls the callbacks of exactly those registered nodes that are due,
each once. -/
theorem callIdles_exact {as : List IdleLabel}
    (hrun : Exec.exec idleStep (init clock₀) as = some σ) :
    (∀ idle, (σ.base.idleList idle).Pairwise fun m n => m.updated ≤ n.updated) ∧
      (σ.point = .outside → ∀ clock, σ.clock ≤ clock → ∃ k called,
        Exec.exec idleStep σ (.callIdles clock :: List.replicate k .turn) =
            some { σ with clock := clock, calls := called ++ σ.calls } ∧
          (called.map Prod.fst).Nodup ∧
          ∀ id t, (id, t) ∈ called ↔ t = clock / 1000 ∧
            ∃ n ∈ σ.base.idleList id.lst, n.node = id.node ∧
              n.updated + id.lst ≤ clock / 1000) := by
  have hok := idleOk_of_run hrun
  refine ⟨hok.sorted, fun hout clock hclock => ?_⟩
  have hlater : σ.base.IdleOk (clock / 1000) := hok.mono (Int.ediv_le_ediv (by decide) hclock)
  have hturns : IdleTurns
      ⟨σ.base, clock, .atList (clock / 1000) (σ.base.idleConns.entries.head?.map Prod.fst), σ.calls⟩
      ⟨σ.base, clock, .outside, (σ.base.idleConns.entries.flatMap
        fun e => dueCalls (clock / 1000) e.1 e.2).reverse ++ σ.calls⟩ :=
    turns_keys hlater [] σ.base.idleConns.entries σ.calls rfl
  obtain ⟨k, hk⟩ := hturns
  refine ⟨k, (passCalls σ.base (clock / 1000)).reverse, ?_, ?_, fun id t => ?_⟩
  · have hbegin : idleStep σ (.callIdles clock) = some ⟨σ.base, clock,
        .atList (clock / 1000) (σ.base.idleConns.entries.head?.map Prod.fst), σ.calls⟩ :=
      if_pos ⟨hout, hclock⟩
    rw [Exec.exec_cons, hbegin, Option.bind_some, hk]
    obtain ⟨base, clock', point, calls⟩ := σ
    obtain rfl : point = .outside := hout
    rfl
  · rw [List.map_reverse, List.nodup_reverse]
    exact nodup_passCalls hlater _
  · rw [List.mem_reverse]
    exact mem_passCalls

/-- Two nodes with an idle time of 2 s; the second was updated a second later. -/
def twoNodes : List IdleLabel :=
  [.registerIdle 0 2 0, .registerIdle 0 2 1, .updateIdle 1000 ⟨2, 1⟩]

theorem callIdles_exact_two : ∃ σ, Exec.exec idleStep (init 0) twoNodes = some σ ∧
    (σ.base.idleList 2).map IdleNode.updated = [0, 1] ∧
    ∃ k called, Exec.exec idleStep σ (.callIdles 2000 :: List.replicate k .turn) =
        some { σ with clock := 2000, calls := called ++ σ.calls } ∧
      (called.map Prod.fst).Nodup ∧
      ∀ id t, (id, t) ∈ called ↔ t = 2000 / 1000 ∧
        ∃ n ∈ σ.base.idleList id.lst, n.node = id.node ∧ n.updated + id.lst ≤ 2000 / 1000 := by
  refine ⟨_, rfl, by decide, ?_⟩
  have hrun : Exec.exec idleStep (init 0) twoNodes = some _ := rfl
  exact (callIdles_exact hrun).2 rfl 2000 (by decide)

end Libet
