/-
Libet/IdlePeriod.lean

How far apart the calls of an idle callback are.

`CallIdles` writes the time of a call into `m_updated` and moves the node behind
the others, but it does so in its copy of the list.  The registered node keeps
the `m_updated` that made it due, so the next pass finds it due again, a second
later, unless `UpdateIdle` or `UnregisterIdle` has come in between.

`spaced_iff`: the calls of every registration are at least its idle time apart if
and only if no pass copies a list with a node that was called less than that ago
and has not been updated since (`CopyFits`).
-/
import Libet.IdlePass

namespace Libet

open IdleState

variable {σ σ' τ : IdleState} {clock₀ now s idle : Int} {it : Option Int} {n : IdleNode}

/-- Two calls of one callback are at least its idle time apart.  The calls are
listed the last one first. -/
def SpacedCalls (calls : List (IdleId × Int)) : Prop :=
  calls.Pairwise fun later earlier => earlier.1 = later.1 → earlier.2 + later.1.lst ≤ later.2

instance (calls : List (IdleId × Int)) : Decidable (SpacedCalls calls) :=
  inferInstanceAs (Decidable (calls.Pairwise _))

/-- No pass copies a list with a node that was called less than its idle time
ago, and whose `m_updated` is still one that made it due then. -/
def CopyFits (σ : IdleState) (a : IdleLabel) (_ : IdleState) : Prop :=
  match a, σ.point with
  | .turn, .atList now (some idle) =>
      ∀ n ∈ σ.base.idleList idle, ∀ c ∈ σ.calls, c.1 = ⟨idle, n.node⟩ →
        n.Due idle c.2 → c.2 + idle ≤ now
  | _, _ => True

instance (σ : IdleState) (a : IdleLabel) (σ' : IdleState) : Decidable (CopyFits σ a σ') := by
  unfold CopyFits
  split <;> infer_instance

/-! ### The invariant -/

/-- Of a list that a pass walks: the nodes not yet met are those of the list that
was copied, except for updates since; what of them is due may be called. -/
structure WalkOk (b : EventBase) (calls : List (IdleId × Int)) (now idle : Int)
    (todo : List IdleNode) : Prop where
  nodup : (todo.map IdleNode.node).Nodup
  copied : ∀ n ∈ todo, ∀ m ∈ b.idleList idle, m.node = n.node →
    m.updated = n.updated ∨ now ≤ m.updated
  spaced : ∀ n ∈ todo, n.Due idle now → ∀ c ∈ calls, c.1 = ⟨idle, n.node⟩ → c.2 + idle ≤ now

/-- The pass is in order where it stands. -/
def PassOk (σ : IdleState) : Prop :=
  match σ.point with
  | .outside => True
  | .atList now _ => now ≤ σ.clock / 1000
  | .inList now _ idle lst cnt | .inCallback now _ idle lst cnt =>
      now ≤ σ.clock / 1000 ∧ ∃ todo done, lst = todo ++ done ∧ todo.length = cnt ∧
        WalkOk σ.base σ.calls now idle todo

/-- The invariant: a registered node was due at its calls so far, or has been
updated since. -/
structure PeriodInv (σ : IdleState) : Prop where
  ok : σ.base.IdleOk (σ.clock / 1000)
  times : ∀ c ∈ σ.calls, c.2 ≤ σ.clock / 1000
  called : ∀ idle, ∀ n ∈ σ.base.idleList idle, ∀ c ∈ σ.calls, c.1 = ⟨idle, n.node⟩ →
    n.Due idle c.2 ∨ c.2 ≤ n.updated
  spaced : SpacedCalls σ.calls
  pass : PassOk σ

theorem periodInv_init (clock₀ : Int) : PeriodInv (init clock₀) where
  ok := EventBase.IdleOk.new _
  times _ h := absurd h List.not_mem_nil
  called _ _ _ _ h := absurd h List.not_mem_nil
  spaced := List.Pairwise.nil
  pass := trivial

namespace PeriodInv

/-- A call of the user. -/
theorem user (h : PeriodInv σ) {b' : EventBase} {clock : Int} (huser : σ.point.user = true)
    (hclock : σ.clock ≤ clock) (hok : b'.IdleOk (clock / 1000))
    (hb : σ.base.Refreshed b' (clock / 1000)) :
    PeriodInv { σ with base := b', clock := clock } := by
  have hsec : σ.clock / 1000 ≤ clock / 1000 := Int.ediv_le_ediv (by decide) hclock
  refine ⟨hok, fun c hc => (h.times c hc).trans hsec, ?_, h.spaced, ?_⟩
  · intro idle m hm c hc hid
    rcases hb idle m hm with hold | hnew
    · exact h.called idle m hold c hc hid
    · exact Or.inr (((h.times c hc).trans hsec).trans hnew)
  · have hpass := h.pass
    obtain ⟨b, clock', point, calls⟩ := σ
    cases point with
    | outside => trivial
    | atList now it => cases huser
    | inList now it idle lst cnt => cases huser
    | inCallback now it idle lst cnt =>
        obtain ⟨hnow, todo, done, hlst, hcnt, hwalk⟩ := hpass
        refine ⟨hnow.trans hsec, todo, done, hlst, hcnt, hwalk.nodup, ?_, hwalk.spaced⟩
        intro n hn m hm heq
        rcases hb idle m hm with hold | hnew
        · exact hwalk.copied n hn m hold heq
        · exact Or.inr ((hnow.trans hsec).trans hnew)

/-- `auto l = *it`: the copied list may be walked. -/
theorem walkOk_copy (h : PeriodInv σ) (hfits : ∀ n ∈ σ.base.idleList idle, ∀ c ∈ σ.calls,
    c.1 = ⟨idle, n.node⟩ → n.Due idle c.2 → c.2 + idle ≤ now) :
    WalkOk σ.base σ.calls now idle (σ.base.idleList idle) where
  nodup := h.ok.nodup idle
  copied n hn m hm heq :=
    Or.inl (congrArg IdleNode.updated (List.inj_on_of_nodup_map (h.ok.nodup idle) hm hn heq))
  spaced n hn hdue c hc hid := by
    rcases h.called idle n hn c hc hid with hdue' | hle
    · exact hfits n hn c hc hid hdue'
    · -- updated since the call: the idle time has run from there
      rw [IdleNode.Due] at hdue
      omega

/-- The node in front is due and is called. -/
theorem call (h : PeriodInv σ) {lst : List IdleNode} {cnt : Nat}
    (hpoint : σ.point = .inList now it idle (n :: lst) (cnt + 1)) (hdue : n.Due idle now) :
    PeriodInv { σ with
      point := .inCallback now it idle (lst ++ [{ n with updated := now }]) cnt
      calls := (⟨idle, n.node⟩, now) :: σ.calls } := by
  have hpass := h.pass
  rw [PassOk, hpoint] at hpass
  obtain ⟨hnow, todo, done, hlst, hcnt, hwalk⟩ := hpass
  obtain ⟨todo, rfl⟩ : ∃ t, todo = n :: t := by
    cases todo with
    | nil => cases hcnt
    | cons m t =>
        rw [List.cons_append, List.cons.injEq] at hlst
        exact ⟨t, by rw [hlst.1]⟩
  rw [List.cons_append, List.cons.injEq] at hlst
  obtain ⟨hnot, hnodup⟩ := List.nodup_cons.mp hwalk.nodup
  refine ⟨h.ok, ?_, ?_, ?_, hnow, todo, done ++ [{ n with updated := now }], ?_,
    Nat.succ.inj hcnt, hnodup, fun m hm => hwalk.copied m (List.mem_cons_of_mem n hm), ?_⟩
  · intro c hc
    rcases List.mem_cons.mp hc with rfl | hc
    · exact hnow
    · exact h.times c hc
  · intro idle' m hm c hc hid
    rcases List.mem_cons.mp hc with rfl | hc
    · -- the call that is made now: the copy was up to date, or the node is since
      obtain ⟨rfl, hnode⟩ := IdleId.mk.inj hid
      rcases hwalk.copied n List.mem_cons_self m hm hnode.symm with heq | hle
      · left
        rw [IdleNode.Due, heq]
        exact hdue
      · exact Or.inr hle
    · exact h.called idle' m hm c hc hid
  · apply List.pairwise_cons.mpr ⟨fun c hc hid => ?_, h.spaced⟩
    exact hwalk.spaced n List.mem_cons_self hdue c hc hid
  · rw [hlst.2, List.append_assoc]
  · intro m hm hdue' c hc hid
    rcases List.mem_cons.mp hc with rfl | hc
    · -- another node than the one called
      obtain ⟨-, hnode⟩ := IdleId.mk.inj hid
      exact absurd (List.mem_map.mpr ⟨m, hm, hnode.symm⟩) hnot
    · exact hwalk.spaced m (List.mem_cons_of_mem n hm) hdue' c hc hid

/-- A step of a pass that fits. -/
theorem turn (h : PeriodInv σ) (hstep : σ.turn = some σ') (hfits : CopyFits σ .turn σ') :
    PeriodInv σ' := by
  have hpass := h.pass
  unfold IdleState.turn at hstep
  split at hstep
  case h_1 => cases hstep
  case h_2 =>
    obtain rfl := Option.some.inj hstep
    exact ⟨h.ok, h.times, h.called, h.spaced, trivial⟩
  case h_3 now idle hpoint =>
    obtain rfl := Option.some.inj hstep
    simp only [PassOk, CopyFits, hpoint] at hpass hfits
    exact ⟨h.ok, h.times, h.called, h.spaced, hpass, _, [], (List.append_nil _).symm, rfl,
      h.walkOk_copy hfits⟩
  case h_4 hpoint =>
    obtain rfl := Option.some.inj hstep
    simp only [PassOk, hpoint] at hpass
    exact ⟨h.ok, h.times, h.called, h.spaced, hpass.1⟩
  case h_5 => cases hstep
  case h_6 hpoint =>
    split at hstep
    · rename_i hdue
      obtain rfl := Option.some.inj hstep
      exact h.call hpoint hdue
    · obtain rfl := Option.some.inj hstep
      simp only [PassOk, hpoint] at hpass
      exact ⟨h.ok, h.times, h.called, h.spaced, hpass.1⟩
  case h_7 hpoint =>
    obtain rfl := Option.some.inj hstep
    simp only [PassOk, hpoint] at hpass
    exact ⟨h.ok, h.times, h.called, h.spaced, hpass⟩

/-- **The step lemma.** -/
theorem step (h : PeriodInv σ) {a : IdleLabel} (hstep : IdleStep σ a σ')
    (hfits : CopyFits σ a σ') : PeriodInv σ' := by
  cases hstep with
  | user huser hclock hb hok =>
      exact h.user huser hclock (hok (h.ok.mono (Int.ediv_le_ediv (by decide) hclock))) hb
  | callIdles hout hclock =>
      have hsec := Int.ediv_le_ediv (show 0 < (1000 : Int) by decide) hclock
      exact ⟨h.ok.mono hsec, fun c hc => (h.times c hc).trans hsec, h.called, h.spaced, le_rfl⟩
  | turn hturn => exact h.turn hturn hfits

end PeriodInv

/-- **A run that fits calls at most once an idle time.** -/
theorem spaced_of_copyFits {as : List IdleLabel}
    (hrun : Exec.exec idleStep (init clock₀) as = some σ)
    (hfits : Exec.Along idleStep CopyFits (init clock₀) as) : SpacedCalls σ.calls := by
  have hinv : PeriodInv σ := Exec.invariant_along (I := PeriodInv)
    (fun _ _ _ hstep hG hi => hi.step (.of_idleStep hstep) hG) hfits hrun (periodInv_init clock₀)
  exact hinv.spaced

/-! ### A copy that does not fit -/

/-- The time of the pass, or of the last clock value outside one. -/
def IdleState.time (σ : IdleState) : Int :=
  match σ.point with
  | .outside => σ.clock / 1000
  | .atList now _ | .inList now .. | .inCallback now .. => now

/-- No call is ahead of the pass, and no pass of the clock. -/
def CallsPast (σ : IdleState) : Prop :=
  (∀ c ∈ σ.calls, c.2 ≤ σ.time) ∧ σ.time ≤ σ.clock / 1000

/-- The calls of a step: none, or one at the time of the pass. -/
theorem calls_of_turn (hstep : σ.turn = some σ') :
    σ'.clock = σ.clock ∧ (σ'.calls = σ.calls ∨ ∃ id, σ'.calls = (id, σ.time) :: σ.calls) ∧
      (σ'.time = σ.time ∨ σ'.time = σ.clock / 1000) := by
  unfold turn at hstep
  split at hstep
  case h_1 => cases hstep
  case h_2 =>
    obtain rfl := Option.some.inj hstep
    exact ⟨rfl, Or.inl rfl, Or.inr rfl⟩
  case h_5 => cases hstep
  case h_6 hpoint =>
    split at hstep
    · obtain rfl := Option.some.inj hstep
      simp only [time, hpoint]
      exact ⟨trivial, Or.inr ⟨_, rfl⟩, Or.inl trivial⟩
    · obtain rfl := Option.some.inj hstep
      simp only [time, hpoint]
      exact ⟨trivial, Or.inl trivial, Or.inl trivial⟩
  all_goals
    rename_i hpoint
    obtain rfl := Option.some.inj hstep
    simp only [time, hpoint]
    exact ⟨trivial, Or.inl trivial, Or.inl trivial⟩

theorem CallsPast.step (h : CallsPast σ) {a : IdleLabel} (hstep : IdleStep σ a σ') :
    CallsPast σ' := by
  obtain ⟨hcalls, htime⟩ := h
  cases hstep with
  | @user _ b' clock huser hclock hb hok =>
      have hsec := Int.ediv_le_ediv (show 0 < (1000 : Int) by decide) hclock
      obtain ⟨base, clock', point, calls⟩ := σ
      cases point with
      | outside => exact ⟨fun c hc => (hcalls c hc).trans hsec, le_rfl⟩
      | atList now it => cases huser
      | inList now it idle lst cnt => cases huser
      | inCallback now it idle lst cnt => exact ⟨hcalls, htime.trans hsec⟩
  | callIdles hout hclock =>
      have hsec := Int.ediv_le_ediv (show 0 < (1000 : Int) by decide) hclock
      exact ⟨fun c hc => ((hcalls c hc).trans htime).trans hsec, le_rfl⟩
  | turn hturn =>
      obtain ⟨hclock, hcalls', htime'⟩ := calls_of_turn hturn
      have hle : σ.time ≤ σ'.time := by
        rcases htime' with heq | heq
        · exact heq.ge
        · rw [heq]
          exact htime
      refine ⟨fun c hc => ?_, ?_⟩
      · rcases hcalls' with heq | ⟨id, heq⟩
        · rw [heq] at hc
          exact (hcalls c hc).trans hle
        · rw [heq] at hc
          rcases List.mem_cons.mp hc with rfl | hc
          · exact hle
          · exact (hcalls c hc).trans hle
      · rw [hclock]
        rcases htime' with heq | heq
        · rw [heq]
          exact htime
        · exact heq.le

/-- The pass stands in a copy of list `idle` and has `n` before it. -/
def Meets (now idle : Int) (n : IdleNode) (p : PassPoint) : Prop :=
  ∃ it todo done, (p = .inList now it idle (todo ++ done) todo.length ∨
      p = .inCallback now it idle (todo ++ done) todo.length) ∧ n ∈ todo ∧
    todo.Pairwise fun m n => m.updated ≤ n.updated

/-- A due node that a pass has before it stays there until it is called. -/
theorem meets_step (hdue : n.Due idle now) (h : Meets now idle n σ.point) {a : IdleLabel}
    (hstep : IdleStep σ a σ') :
    (σ'.calls = σ.calls ∧ Meets now idle n σ'.point) ∨
      ∃ c, σ'.calls = c :: σ.calls ∧ (c = (⟨idle, n.node⟩, now) ∨ Meets now idle n σ'.point) := by
  cases hstep with
  | user huser hclock hb hok => exact Or.inl ⟨rfl, h⟩
  | callIdles hout hclock =>
      obtain ⟨it, todo, done, hpoint | hpoint, -⟩ := h <;> cases hout.symm.trans hpoint
  | turn hturn =>
      obtain ⟨it, todo, done, hpoint, hmem, hsorted⟩ := h
      obtain ⟨base, clock, point, calls⟩ := σ
      rcases hpoint with hpoint | hpoint
      · obtain rfl : point = _ := hpoint
        cases todo with
        | nil => exact absurd hmem List.not_mem_nil
        | cons m todo =>
            -- the node in front is not newer than `n`
            have hm : m.Due idle now := by
              rcases List.mem_cons.mp hmem with rfl | hmem'
              · exact hdue
              · have hle := List.rel_of_pairwise_cons hsorted hmem'
                rw [IdleNode.Due] at hdue ⊢
                omega
            obtain rfl := Option.some.inj ((if_pos hm).symm.trans hturn)
            refine Or.inr ⟨_, rfl, ?_⟩
            rcases List.mem_cons.mp hmem with rfl | hmem'
            · exact Or.inl rfl
            · refine Or.inr ⟨it, todo, done ++ [{ m with updated := now }], Or.inr ?_, hmem',
                (List.pairwise_cons.mp hsorted).2⟩
              show PassPoint.inCallback now it idle ((todo ++ done) ++ [_]) _ = _
              rw [List.append_assoc]
      · obtain rfl : point = _ := hpoint
        obtain rfl := Option.some.inj hturn
        exact Or.inl ⟨rfl, it, todo, done, Or.inl rfl, hmem, hsorted⟩

/-- The calls of a run stay where they are in the list. -/
theorem calls_suffix {as : List IdleLabel} (hrun : Exec.exec idleStep σ as = some σ') :
    ∃ l, σ'.calls = l ++ σ.calls := by
  refine Exec.invariant (I := fun τ : IdleState => ∃ l, τ.calls = l ++ σ.calls)
    (fun τ a τ' hstep hi => ?_) hrun ⟨[], rfl⟩
  obtain ⟨l, hl⟩ := hi
  cases IdleStep.of_idleStep hstep with
  | user => exact ⟨l, hl⟩
  | callIdles => exact ⟨l, hl⟩
  | turn hturn =>
      rcases (calls_of_turn hturn).2.1 with heq | ⟨id, heq⟩
      · exact ⟨l, heq.trans hl⟩
      · exact ⟨(id, τ.time) :: l, by rw [heq, hl]; rfl⟩

/-- **A due node is called before the pass ends.** -/
theorem called_of_meets (hdue : n.Due idle now) : ∀ {as : List IdleLabel} {σ : IdleState},
    Meets now idle n σ.point → Exec.exec idleStep σ as = some σ' → σ'.point = .outside →
      ∃ l, σ'.calls = l ++ σ.calls ∧ (⟨idle, n.node⟩, now) ∈ l
  | [], σ, hmeets, hrun, hout => by
      obtain rfl : σ = σ' := Option.some.inj hrun
      obtain ⟨it, todo, done, hpoint | hpoint, -⟩ := hmeets <;> cases hout.symm.trans hpoint
  | a :: as, σ, hmeets, hrun, hout => by
      obtain ⟨τ, hstep, hrest⟩ := Exec.exec_cons_some hrun
      rcases meets_step hdue hmeets (.of_idleStep hstep) with ⟨heq, hmeets'⟩ | ⟨c, heq, hc⟩
      · obtain ⟨l, hl, hmem⟩ := called_of_meets hdue hmeets' hrest hout
        exact ⟨l, hl.trans (by rw [heq]), hmem⟩
      · rcases hc with rfl | hmeets'
        · obtain ⟨l, hl⟩ := calls_suffix hrest
          refine ⟨l ++ [(⟨idle, n.node⟩, now)], ?_, ?_⟩
          · rw [hl, heq, List.append_assoc]
            rfl
          · exact List.mem_append_right _ (List.mem_singleton_self _)
        · obtain ⟨l, hl, hmem⟩ := called_of_meets hdue hmeets' hrest hout
          refine ⟨l ++ [c], ?_, List.mem_append_left _ hmem⟩
          rw [hl, heq, List.append_assoc]
          rfl

/-- **A copy that does not fit leads to two calls that are too close.** -/
theorem copyFits_of_spaced : ∀ {as : List IdleLabel} {σ : IdleState},
    σ.base.IdleOk (σ.clock / 1000) → CallsPast σ → Exec.exec idleStep σ as = some σ' →
      σ'.point = .outside → SpacedCalls σ'.calls → Exec.Along idleStep CopyFits σ as
  | [], _, _, _, _, _, _ => trivial
  | a :: as, σ, hok, hpast, hrun, hout, hspaced => by
      obtain ⟨τ, hstep, hrest⟩ := Exec.exec_cons_some hrun
      intro τ' hτ'
      obtain rfl : τ = τ' := Option.some.inj (hstep.symm.trans hτ')
      have hstep' := IdleStep.of_idleStep hstep
      refine ⟨?_, copyFits_of_spaced (idleOk_step hstep' hok) (hpast.step hstep') hrest hout
        hspaced⟩
      unfold CopyFits
      split
      · rename_i now idle hpoint
        intro n hn c hc hid hdue
        have hturn : σ.turn = some τ := hstep
        have hnow : c.2 ≤ now := by
          have hle := hpast.1 c hc
          simpa only [time, hpoint] using hle
        -- the node is due, and so it will be called
        have hdue' : n.Due idle now := le_trans hdue hnow
        have hcopy : σ.turn = some { σ with
            point := .inList now (σ.base.idleConns.nextKey? idle) idle (σ.base.idleList idle)
              (σ.base.idleList idle).length } := by
          simp only [turn, hpoint]
        obtain rfl := Option.some.inj (hcopy.symm.trans hturn)
        obtain ⟨l, hl, hmem⟩ := called_of_meets (σ := { σ with
            point := .inList now (σ.base.idleConns.nextKey? idle) idle (σ.base.idleList idle)
              (σ.base.idleList idle).length }) hdue'
          ⟨_, σ.base.idleList idle, [], Or.inl (by rw [List.append_nil]), hn, hok.sorted idle⟩
          hrest hout
        rw [hl, SpacedCalls, List.pairwise_append] at hspaced
        exact hspaced.2.2 _ hmem c hc hid
      · trivial

/-- **When idle callbacks are called once an idle time.**  Take any run that ends
outside a pass, with any callbacks.  The calls of every registration are at least
its idle time apart if and only if no pass copies a list with a node that was
called less than that ago and has not been updated since. -/
theorem spaced_iff {as : List IdleLabel} (hrun : Exec.exec idleStep (init clock₀) as = some σ)
    (hout : σ.point = .outside) :
    SpacedCalls σ.calls ↔ Exec.Along idleStep CopyFits (init clock₀) as :=
  ⟨copyFits_of_spaced (EventBase.IdleOk.new _)
    ⟨fun _ h => absurd h List.not_mem_nil, le_rfl⟩ hrun hout, spaced_of_copyFits hrun⟩

/-- A pass over one list with one node, which is called. -/
def passOver (clock : Int) : List IdleLabel :=
  .callIdles clock :: List.replicate 5 .turn

/-- A connection that is updated between the passes. -/
def updatedBetween : List IdleLabel :=
  .registerIdle 0 2 0 :: passOver 2000 ++ .updateIdle 2500 ⟨2, 0⟩ :: passOver 4000

theorem spaced_updatedBetween : ∃ σ, Exec.exec idleStep (init 0) updatedBetween = some σ ∧
    σ.calls = [(⟨2, 0⟩, 4), (⟨2, 0⟩, 2)] ∧ SpacedCalls σ.calls := by
  have hrun : Exec.exec idleStep (init 0) updatedBetween = some _ := rfl
  refine ⟨_, hrun, by decide, (spaced_iff hrun rfl).mpr ?_⟩
  decide +kernel

/-- A connection that stays idle: the next pass calls its callback again, after
one of its two seconds. -/
theorem calls_too_close : ∃ as σ, Exec.exec idleStep (init 0) as = some σ ∧
    σ.point = .outside ∧ σ.calls = [(⟨2, 0⟩, 3), (⟨2, 0⟩, 2)] ∧ ¬ SpacedCalls σ.calls :=
  ⟨.registerIdle 0 2 0 :: passOver 2000 ++ passOver 3000, _, rfl, rfl, by decide, by decide⟩

end Libet
