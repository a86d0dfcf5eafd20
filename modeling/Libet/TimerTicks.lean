/-
Libet/TimerTicks.lean

The deadlines a repeating timer is run for.

`RepeatableTimeout` moves the record on by `m_interval` from the deadline that it
was run for, not from the clock value at which it was run.  So however late the
passes are, whatever clock values they read and whatever the callbacks register
and cancel, the deadlines of one timer are `milli`, `milli + interval`,
`milli + 2 * interval` and so on, none of them twice and none left out.  The clock
is `system_clock`, which may go back: what counts is the latest value that a pass
has read.  The deadlines are taken to fit into an `int64_t`.

* `TickStep` — what one step can do to the record of the timer.
* `TickInv` — the relation between the record and the deadlines run for so far.

Main result: `ticks_of_run`.
-/
import Libet.TimerPass

namespace Libet

variable {τ : Type*}

/-! ### What is seen of one timer -/

/-- A pass reads the clock, or the callback of the timer is run for a deadline. -/
inductive TickEvent
  | clock (now : Int)
  | tick (deadline : Int)
  deriving DecidableEq, Repr

/-- The events of one step, as far as the timer `tid` is concerned. -/
def tickEvents (tid : TimerId) (σ : TimerState τ) : TimerAction τ → List TickEvent
  | .handleTimeouts now => [.clock now]
  | .fire _ =>
      match σ.base.timers.first? with
      | some (k, task) => if task.owner k = tid then [.tick k.first] else []
      | none => []
  | _ => []

/-- The deadlines the timer was run for, in order. -/
def ticks (l : List TickEvent) : List Int :=
  l.filterMap fun | .tick deadline => some deadline | .clock _ => none

/-- The clock values that passes have read, in order. -/
def clocks (l : List TickEvent) : List Int :=
  l.filterMap fun | .clock now => some now | .tick _ => none

/-- The clock value of the pass that is going on. -/
def TimerControl.clocks : TimerControl → List Int
  | .outside => []
  | .loopHead now => [now]
  | .callback now => [now]

/-- The first `n` deadlines from `milli` on, one every `interval`. -/
def deadlines (milli interval : Int) (n : Nat) : List Int :=
  (List.range n).map fun i : Nat => milli + i * interval

variable {l : List TickEvent}

theorem ticks_append (l l' : List TickEvent) : ticks (l ++ l') = ticks l ++ ticks l' :=
  List.filterMap_append

theorem clocks_append (l l' : List TickEvent) : clocks (l ++ l') = clocks l ++ clocks l' :=
  List.filterMap_append

@[simp] theorem ticks_append_tick (d : Int) : ticks (l ++ [.tick d]) = ticks l ++ [d] := by
  simp [ticks]

@[simp] theorem clocks_append_clock (c : Int) : clocks (l ++ [.clock c]) = clocks l ++ [c] := by
  simp [clocks]

theorem deadlines_succ (milli interval : Int) (n : Nat) :
    deadlines milli interval (n + 1) = deadlines milli interval n ++ [milli + n * interval] := by
  simp [deadlines, List.range_succ]

/-! ### What one step can do to the record -/

variable {tid : TimerId} {σ σ' : TimerState τ} {a : TimerAction τ} {task : τ} {interval : Int}

theorem tickEvents_self {k : TimerId} {v : TimerTask τ} {clock : Int}
    (hfirst : σ.base.timers.first? = some (k, v)) (h : v.owner k = tid) :
    tickEvents tid σ (.fire clock) = [.tick k.first] := by
  simp only [tickEvents, hfirst, if_pos h]

theorem tickEvents_other {k : TimerId} {v : TimerTask τ} {clock : Int}
    (hfirst : σ.base.timers.first? = some (k, v)) (h : v.owner k ≠ tid) :
    tickEvents tid σ (.fire clock) = [] := by
  simp only [tickEvents, hfirst, if_neg h]

/-- The timer is run and its record moves on by the interval; or it is not run,
and its record stays as it is or goes. -/
inductive TickStep (tid : TimerId) (σ σ' : TimerState τ) (events : List TickEvent) : Prop
  | tick {now : Int} {r : TimerRepeatable τ} (hctl : σ.control = .loopHead now)
      (hctl' : σ'.control = .callback now) (hr : σ.base.timerReps.Has tid r)
      (hdue : r.at_ ≤ now) (hevents : events = [.tick r.at_])
      (hnext : ∀ {r'}, σ'.base.timerReps.Has tid r' →
        r'.at_ = r.at_ + r.interval ∧ r'.interval = r.interval)
  | quiet (hticks : ticks events = [])
      (hkeep : ∀ {r}, σ'.base.timerReps.Has tid r → σ.base.timerReps.Has tid r)

/-- **What one step does to a repeating timer.** -/
theorem Registered.tickStep (h : Registered tid task interval σ) (hi : interval ≠ 0)
    (hstep : timerStep σ a = some σ') : TickStep tid σ σ' (tickEvents tid σ a) := by
  have hseq := h.inv.issued_seq h.issued
  cases a with
  | fire clock =>
      obtain ⟨now, k, v, hctl, hfirst, hlt, hctl', hturn⟩ := timerStep_fire h.inv hstep
      cases v with
      | user t =>
          -- the identifier of a repeating timer is the key of no one-shot task
          have hne : k ≠ tid := by
            rintro rfl
            exact hi (h.user (OrdMap.first?_has hfirst)).1
          rw [tickEvents_other hfirst hne]
          refine .quiet rfl fun {r} hr => ?_
          generalize σ'.base = b at hturn hr
          cases hturn with
          | user hk => exact hr
      | repeatable tr =>
          obtain ⟨r, hr, hkey, hreps⟩ : ∃ r, σ.base.timerReps.Has tr r ∧ k = r.timerid ∧
              ∀ {k' r'}, σ'.base.timerReps.Has k' r' → k' = tr ∧
                r' = { r with at_ := r.at_ + r.interval
                              timerid := ⟨r.at_ + r.interval, σ.base.timerSeq + 1⟩ } ∨
                k' ≠ tr ∧ σ.base.timerReps.Has k' r' := by
            generalize σ'.base = b at hturn
            cases hturn with
            | repeatable hr clock => exact ⟨_, hr, rfl, has_rearmed_reps.mp⟩
          have hat : k.first = r.at_ := by
            rw [hkey]
            exact (h.inv.rep_pending hr).2
          by_cases htr : tr = tid
          · subst htr
            have hdue : r.at_ ≤ now := hat ▸ TimerId.first_le_of_lt hlt
            refine .tick hctl hctl' hr hdue ?_ fun {r'} hr' => ?_
            · rw [tickEvents_self hfirst
                (show (TimerTask.repeatable tr : TimerTask τ).owner k = tr from rfl), hat]
            · rcases hreps hr' with ⟨-, rfl⟩ | ⟨hne, -⟩
              · exact ⟨rfl, rfl⟩
              · exact absurd rfl hne
          · rw [tickEvents_other hfirst htr]
            refine .quiet rfl fun {r'} hr' => ?_
            rcases hreps hr' with ⟨he, -⟩ | ⟨-, hr'⟩
            · exact absurd he.symm htr
            · exact hr'
  | runAt clock milli t i =>
      refine .quiet rfl fun {r} hr => ?_
      cases TimerStep.of_timerStep hstep with
      | runAt huser =>
          rcases (h.inv.runAt_onlyAdds clock milli t i).reps_new hr with hr | ⟨hnew, -⟩
          · exact hr
          · exact absurd hseq (not_le.mpr hnew)
  | cancel timerid =>
      refine .quiet rfl fun {r} hr => ?_
      cases TimerStep.of_timerStep hstep with
      | cancel huser hissued =>
          rcases h.inv.cancel_cases hissued with hc | ⟨p, -, hc⟩ | ⟨t, -, hc⟩
          · rw [hc] at hr
            exact hr
          · rw [hc] at hr
            exact (OrdMap.has_erase.mp hr).2
          · rw [hc] at hr
            exact hr
  | handleTimeouts now =>
      refine .quiet rfl fun {r} hr => ?_
      cases TimerStep.of_timerStep hstep with
      | handleTimeouts hctl => exact hr
  | ret =>
      refine .quiet rfl fun {r} hr => ?_
      cases TimerStep.of_timerStep hstep with
      | ret hctl => exact hr
  | finish clock =>
      refine .quiet rfl fun {r} hr => ?_
      cases TimerStep.of_timerStep hstep with
      | finish hctl hdue => rwa [Timers.refreshNearest_timerReps] at hr
  | exit =>
      refine .quiet rfl fun {r} hr => ?_
      cases TimerStep.of_timerStep hstep with
      | exit huser => exact hr
  | clear =>
      refine .quiet rfl fun {r} hr => ?_
      cases TimerStep.of_timerStep hstep with
      | clear hctl => exact absurd hr OrdMap.not_has_empty

/-- Numbers are never given back. -/
theorem timerStep_timerSeq (h : TimersInv σ.base σ.issued)
    (hstep : timerStep σ a = some σ') : σ.base.timerSeq ≤ σ'.base.timerSeq := by
  cases a with
  | runAt clock milli t i =>
      cases TimerStep.of_timerStep hstep with
      | runAt huser => exact (h.runAt_onlyAdds clock milli t i).seq_le
  | cancel timerid =>
      cases TimerStep.of_timerStep hstep with
      | cancel huser hissued =>
          rcases h.cancel_cases hissued with hc | ⟨p, -, hc⟩ | ⟨t, -, hc⟩
          · rw [hc]
          · rw [hc]
          · rw [hc]
  | fire clock =>
      obtain ⟨now, k, v, -, -, -, -, hturn⟩ := timerStep_fire h hstep
      generalize σ'.base = b at hturn
      cases hturn with
      | user hk => exact le_refl _
      | repeatable hr clock =>
          rw [rearmed_timerSeq]
          omega
  | finish clock =>
      cases TimerStep.of_timerStep hstep with
      | finish hctl hdue => rw [Timers.refreshNearest_timerSeq]
  | handleTimeouts now =>
      cases TimerStep.of_timerStep hstep with
      | handleTimeouts hctl => exact le_refl _
  | ret =>
      cases TimerStep.of_timerStep hstep with
      | ret hctl => exact le_refl _
  | exit =>
      cases TimerStep.of_timerStep hstep with
      | exit huser => exact le_refl _
  | clear =>
      cases TimerStep.of_timerStep hstep with
      | clear hctl => exact le_refl _

/-- What a step does to the clock values that are looked at. -/
theorem timerStep_clocks (hstep : timerStep σ a = some σ') (tid : TimerId) :
    (σ'.control.clocks = σ.control.clocks ∧ clocks (tickEvents tid σ a) = []) ∨
    (∃ now, σ.control.clocks = [] ∧ σ'.control.clocks = [now] ∧
      tickEvents tid σ a = [.clock now]) ∨
    (∃ now, σ.control.clocks = [now] ∧ σ'.control.clocks = [] ∧ tickEvents tid σ a = [] ∧
      (σ.base.takeDue now).isNone) := by
  cases TimerStep.of_timerStep hstep with
  | runAt huser => exact Or.inl ⟨rfl, rfl⟩
  | cancel huser hissued => exact Or.inl ⟨rfl, rfl⟩
  | @handleTimeouts now hctl =>
      rw [hctl]
      exact Or.inr (Or.inl ⟨now, rfl, rfl, rfl⟩)
  | fire hctl hdue hstart =>
      rw [hctl]
      refine Or.inl ⟨rfl, ?_⟩
      simp only [tickEvents]
      split
      · split
        · rfl
        · rfl
      · rfl
  | ret hctl =>
      rw [hctl]
      exact Or.inl ⟨rfl, rfl⟩
  | @finish now clock hctl hdue =>
      rw [hctl]
      exact Or.inr (Or.inr ⟨now, rfl, rfl, rfl, hdue⟩)
  | exit huser => exact Or.inl ⟨rfl, rfl⟩
  | clear hctl => exact Or.inl ⟨rfl, rfl⟩

/-! ### The invariant of a run -/

/-- The state `σ` after the events `l`, for the timer `tid` that was registered
for `milli` when a pass with the clock values `c₀` was going on. -/
structure TickInv (tid : TimerId) (task : τ) (milli interval : Int) (c₀ : List Int)
    (σ : TimerState τ) (l : List TickEvent) : Prop where
  reg : Registered tid task interval σ
  ticks_eq : ticks l = deadlines milli interval (ticks l).length
  record : ∀ {r}, σ.base.timerReps.Has tid r →
    r.at_ = milli + (ticks l).length * interval ∧ r.interval = interval
  due : ∀ d ∈ ticks l, ∃ c ∈ c₀ ++ clocks l, d ≤ c
  reading : ∀ c ∈ σ.control.clocks, c ∈ c₀ ++ clocks l
  -- the passes that are over have left nothing behind
  finished : 0 < interval → σ.base.timerSeq < 2 ^ 62 → ∀ c ∈ c₀ ++ clocks l,
    c ∉ σ.control.clocks → ∀ {r}, σ.base.timerReps.Has tid r → c < r.at_

variable {milli : Int} {c₀ : List Int}

/-- The clock values that belong to passes that are over stay so, or the step
ends a pass. -/
theorem TickInv.finished_of_keep (h : TickInv tid task milli interval c₀ σ l)
    (hstep : timerStep σ a = some σ') (hpos : 0 < interval)
    (hseq : σ'.base.timerSeq < 2 ^ 62) {c : Int}
    (hc : c ∈ c₀ ++ clocks (l ++ tickEvents tid σ a)) (hctl : c ∉ σ'.control.clocks)
    {r : TimerRepeatable τ} (hr : σ.base.timerReps.Has tid r) : c < r.at_ := by
  have hseq : σ.base.timerSeq < 2 ^ 62 := lt_of_le_of_lt (timerStep_timerSeq h.reg.inv hstep) hseq
  rcases timerStep_clocks hstep tid with ⟨hsame, hevents⟩ | ⟨now, hold, hnew, hevents⟩ |
      ⟨now, hold, -, hevents, hdue⟩
  · rw [clocks_append, hevents, List.append_nil] at hc
    exact h.finished hpos hseq c hc (hsame ▸ hctl) hr
  · -- a pass begins: its own clock value is not finished
    rw [hevents, clocks_append_clock, ← List.append_assoc, List.mem_append,
      List.mem_singleton] at hc
    rw [hnew, List.mem_singleton] at hctl
    rcases hc with hc | hc
    · exact h.finished hpos hseq c hc (hold ▸ List.not_mem_nil) hr
    · exact absurd hc hctl
  · rw [hevents, List.append_nil] at hc
    by_cases hnow : c = now
    · -- the pass ends: the entry of the record is not below the key of the loop
      subst hnow
      obtain ⟨hp, hat⟩ := h.reg.inv.rep_pending hr
      have hle := takeDue_none hdue hp
      have hnum := (h.reg.inv.timers_seq hp).2
      rw [← hat]
      by_contra hnot
      exact absurd hle (not_le.mpr (TimerId.lt_iff.mpr (by simp only; omega)))
    · exact h.finished hpos hseq c hc (by rwa [hold, List.mem_singleton]) hr

/-- **One step keeps the invariant.** -/
theorem TickInv.step (h : TickInv tid task milli interval c₀ σ l) (hi : interval ≠ 0)
    (hstep : timerStep σ a = some σ') :
    TickInv tid task milli interval c₀ σ' (l ++ tickEvents tid σ a) := by
  have hreg := h.reg.step hstep
  have hmem : ∀ {c}, c ∈ c₀ ++ clocks l → c ∈ c₀ ++ clocks (l ++ tickEvents tid σ a) := by
    intro c hc
    rw [clocks_append, ← List.append_assoc]
    exact List.mem_append_left _ hc
  have hreading : ∀ c ∈ σ'.control.clocks, c ∈ c₀ ++ clocks (l ++ tickEvents tid σ a) := by
    intro c hc
    rcases timerStep_clocks hstep tid with ⟨hsame, -⟩ | ⟨now, -, hnew, hevents⟩ |
        ⟨now, -, hnew, -⟩
    · exact hmem (h.reading c (hsame ▸ hc))
    · rw [hnew] at hc
      rw [hevents, clocks_append_clock, ← List.append_assoc]
      exact List.mem_append_right _ hc
    · rw [hnew] at hc
      exact absurd hc List.not_mem_nil
  cases h.reg.tickStep hi hstep with
  | @tick now r hctl hctl' hr hdue hevents hnext =>
      obtain ⟨hat, hint⟩ := h.record hr
      have hticks : ticks (l ++ tickEvents tid σ a) = ticks l ++ [r.at_] := by
        rw [hevents, ticks_append_tick]
      refine ⟨hreg, ?_, ?_, ?_, hreading, ?_⟩
      · rw [hticks, List.length_append, List.length_singleton, deadlines_succ,
          ← h.ticks_eq, hat]
      · intro r' hr'
        obtain ⟨hat', hint'⟩ := hnext hr'
        rw [hticks, List.length_append, List.length_singleton]
        refine ⟨?_, hint'.trans hint⟩
        rw [hat', hat, hint, Nat.cast_succ, add_one_mul, add_assoc]
      · intro d hd
        rw [hticks, List.mem_append, List.mem_singleton] at hd
        rcases hd with hd | rfl
        · obtain ⟨c, hc, hle⟩ := h.due d hd
          exact ⟨c, hmem hc, hle⟩
        · refine ⟨now, hmem (h.reading now ?_), hdue⟩
          rw [hctl]
          exact List.mem_singleton_self now
      · intro hpos hseq c hc hnot r' hr'
        have hlt := h.finished_of_keep hstep hpos hseq hc hnot hr
        have := (hnext hr').1
        omega
  | quiet hquiet hkeep =>
      have hticks : ticks (l ++ tickEvents tid σ a) = ticks l := by
        rw [ticks_append, hquiet, List.append_nil]
      refine ⟨hreg, ?_, ?_, ?_, hreading, ?_⟩
      · rw [hticks]
        exact h.ticks_eq
      · intro r hr
        rw [hticks]
        exact h.record (hkeep hr)
      · intro d hd
        rw [hticks] at hd
        obtain ⟨c, hc, hle⟩ := h.due d hd
        exact ⟨c, hmem hc, hle⟩
      · intro hpos hseq c hc hnot r hr
        exact h.finished_of_keep hstep hpos hseq hc hnot (hkeep hr)

/-- Right after `RunAt`. -/
theorem TickInv.init (hinv : TimersInv σ.base σ.issued) (hexit : σ.base.exit = false)
    (hi : interval ≠ 0) {clock : Int}
    (hreg : timerStep σ (.runAt clock milli task interval) = some σ') :
    TickInv (σ.base.runAt clock milli task interval).1 task milli interval
      σ'.control.clocks σ' [] where
  reg := (registered_of_runAt hinv hexit hreg).1
  ticks_eq := rfl
  record {r} hr := by
    cases TimerStep.of_timerStep hreg with
    | runAt huser =>
        rw [Timers.runAt_repeating hexit _ _ _ hi] at hr
        rw [Timers.refreshNearest_timerReps] at hr
        rcases OrdMap.has_set.mp hr with ⟨-, rfl⟩ | ⟨hne, -⟩
        · exact ⟨by simp [ticks], rfl⟩
        · exact absurd rfl hne
  due d hd := absurd hd List.not_mem_nil
  reading c hc := List.mem_append_left _ hc
  finished _ _ c hc hnot := by
    rw [clocks, List.filterMap_nil, List.append_nil] at hc
    exact absurd hc hnot

/-! ### Main result -/

/-- **A repeating timer loses no tick, has none twice and does not drift.**  Take
any run of the timers in which a repeating timer is registered, and any
continuation of it: the caller's code and the callbacks may register and cancel
timers, passes may come late, and the clock may go back.  Then the deadlines the
timer was run for are `milli`, `milli + interval`, `milli + 2 * interval` and so
on, in this order; and it was run for none of them before a pass had read that clock
value.  If the interval is positive, the timer still pending outside a pass, and the
sequence numbers still below the `1LL << 62` of the loop, it was run for every one up
to the latest clock value that a pass has read since it was registered. -/
theorem ticks_of_run {as bs : List (TimerAction τ)} {s s₁ s' : TimerState τ}
    {clock milli interval : Int} {task : τ}
    (hrun : Exec.exec timerStep TimerState.init as = some s)
    (hexit : s.base.exit = false) (hi : interval ≠ 0)
    (hreg : timerStep s (.runAt clock milli task interval) = some s₁)
    (hrun' : Exec.exec timerStep s₁ bs = some s') :
    let tid := (s.base.runAt clock milli task interval).1
    let l := Exec.trace timerStep (tickEvents tid) s₁ bs
    ticks l = deadlines milli interval (ticks l).length ∧
    (∀ d ∈ ticks l, ∃ c ∈ s₁.control.clocks ++ clocks l, d ≤ c) ∧
    (0 < interval → s'.base.Pending tid → s'.control = .outside →
      s'.base.timerSeq < 2 ^ 62 → ∀ i : Nat, i < (ticks l).length ↔
        ∃ c ∈ s₁.control.clocks ++ clocks l, milli + i * interval ≤ c) := by
  intro tid l
  have h : TickInv tid task milli interval s₁.control.clocks s' l :=
    Exec.history (I := TickInv tid task milli interval s₁.control.clocks)
      (fun _ _ _ _ hstep h => h.step hi hstep) hrun'
      (TickInv.init (timersInv_of_run hrun) hexit hi hreg)
  refine ⟨h.ticks_eq, h.due, fun hpos hpending hctl hseq i => ?_⟩
  constructor
  · intro hlt
    apply h.due
    rw [h.ticks_eq]
    exact List.mem_map.mpr ⟨i, List.mem_range.mpr hlt, rfl⟩
  · rintro ⟨c, hc, hle⟩
    obtain ⟨r, hr, -, -⟩ := h.reg.repeating hi hpending
    have hlt : c < r.at_ := by
      refine h.finished hpos hseq c hc ?_ hr
      rw [hctl]
      exact List.not_mem_nil
    rw [(h.record hr).1] at hlt
    have hmul : (i : Int) * interval < (ticks l).length * interval := by omega
    exact Int.ofNat_lt.mp (lt_of_mul_lt_mul_right hmul hpos.le)

/-- A late pass, and one that reads an earlier clock value. -/
theorem ticks_of_run_late :
    ∃ s₁ s' : TimerState Nat,
      timerStep TimerState.init (.runAt 0 100 7 50) = some s₁ ∧
      Exec.exec timerStep s₁ [.handleTimeouts 220, .fire 220, .ret, .fire 221, .ret, .fire 222,
        .ret, .finish 223, .handleTimeouts 120, .finish 121] = some s' ∧
      ∀ i : Nat, i < [(100 : Int), 150, 200].length ↔
        ∃ c ∈ [(220 : Int), 120], 100 + i * 50 ≤ c := by
  refine ⟨_, _, rfl, rfl, ?_⟩
  exact (@ticks_of_run Nat [] [.handleTimeouts 220, .fire 220, .ret, .fire 221, .ret,
    .fire 222, .ret, .finish 223, .handleTimeouts 120, .finish 121] TimerState.init _ _
    0 100 50 7 rfl rfl (by decide) rfl rfl).2.2 (by decide)
    ⟨⟨250, 5⟩, .repeatable ⟨-100, 1⟩, by decide +kernel, rfl⟩ rfl (by decide +kernel)

end Libet
