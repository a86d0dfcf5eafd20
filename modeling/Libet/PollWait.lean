/-
Libet/PollWait.lean

How long the loop sleeps.

`LoopOnce(waitMs)` passes the smaller of `waitMs` and `m_nextTimeout` to the
poller.  `RefreshNearest` stores the time to the nearest deadline, a difference
of two `int64_t`s, into the `int m_nextTimeout` and clamps it afterwards.  The
clamp sees the low 32 bits only: a deadline some weeks ago can look like one that
is still to come, and one some weeks ahead like one that has passed.

`pollWait_exact_iff`: after every `RefreshNearest` of every run, the wait is the
exact one if and only if the low 32 bits of the difference are harmless
(`WaitFits`).
-/
import Libet.TimerRuns

namespace Libet

variable {τ : Type*} {now waitMs d : Int}

/-- What `LoopOnce(waitMs)` passes to the poller. -/
def Timers.pollWait (s : Timers τ) (waitMs : Int) : Int := min waitMs s.nextTimeout

/-- The exact wait: until the nearest deadline, and no longer than `waitMs`. -/
def Timers.exactWait (s : Timers τ) (now waitMs : Int) : Int :=
  match s.timers.first? with
  | none => min waitMs (2 ^ 30)
  | some (t, _) => min waitMs (max 0 (t.first - now))

/-- The low 32 bits of the time `d` to the nearest deadline do no harm: `d` fits
an `int`; or it lies further back and they do not make it positive; or it lies
further ahead and they do not make it less than `waitMs`. -/
def WaitFits (d waitMs : Int) : Prop :=
  waitMs = 0 ∨ (-2 ^ 31 ≤ d ∧ d < 2 ^ 31) ∨
    (d < -2 ^ 31 ∧ (d % 2 ^ 32 = 0 ∨ 2 ^ 31 ≤ d % 2 ^ 32)) ∨
    (2 ^ 31 ≤ d ∧ waitMs ≤ d % 2 ^ 32 ∧ d % 2 ^ 32 < 2 ^ 31)

instance (d waitMs : Int) : Decidable (WaitFits d waitMs) :=
  inferInstanceAs (Decidable (_ ∨ _))

/-- The nearest deadline is harmless at the clock value `now`. -/
def Timers.NearestFits (s : Timers τ) (now waitMs : Int) : Prop :=
  ∀ e ∈ s.timers.first?, WaitFits (e.1.first - now) waitMs

instance (s : Timers τ) (now waitMs : Int) : Decidable (s.NearestFits now waitMs) :=
  inferInstanceAs (Decidable (∀ e ∈ s.timers.first?, _))

/-! ### The narrowing -/

/-- The clamp behind the conversion to `int` is the exact clamp, for a wait of
`waitMs`, exactly if the low 32 bits do no harm. -/
theorem min_toInt32_iff (h0 : 0 ≤ waitMs) (h1 : waitMs < 2 ^ 31) :
    min waitMs (if toInt32 d < 0 then 0 else toInt32 d) = min waitMs (max 0 d) ↔
      WaitFits d waitMs := by
  simp only [WaitFits, toInt32, Int.bmod_def]
  omega

/-- **One `RefreshNearest`.** -/
theorem pollWait_refreshNearest_iff (s : Timers τ) (now : Int) (h0 : 0 ≤ waitMs)
    (h1 : waitMs < 2 ^ 31) :
    (s.refreshNearest now).pollWait waitMs = (s.refreshNearest now).exactWait now waitMs ↔
      s.NearestFits now waitMs := by
  simp only [Timers.pollWait, Timers.exactWait, Timers.refreshNearest_timers, Timers.NearestFits]
  cases hfirst : s.timers.first? with
  | none =>
      rw [Timers.refreshNearest, hfirst]
      exact iff_of_true rfl fun e h => by cases h
  | some e =>
      obtain ⟨t, task⟩ := e
      rw [Timers.refreshNearest, hfirst]
      dsimp only
      rw [min_toInt32_iff h0 h1]
      constructor
      · intro h e heq
        cases heq
        exact h
      · intro h
        exact h (t, task) rfl

/-! ### Runs -/

/-- The clock value of the `RefreshNearest` with which a step ends, if it ends
with one. -/
def TimerAction.refreshes (s : TimerState τ) : TimerAction τ → Option Int
  | .runAt clock _ _ _ => if s.base.exit then none else some clock
  | .finish clock => some clock
  | .fire clock =>
      match s.base.timers.first? with
      | some (_, .repeatable _) => some clock
      | _ => none
  | _ => none

theorem Timers.refreshNearest_idem (s : Timers τ) (now : Int) :
    (s.refreshNearest now).refreshNearest now = s.refreshNearest now := by
  rw [refreshNearest, refreshNearest_timers]
  cases hfirst : s.timers.first? with
  | none =>
      rw [refreshNearest, hfirst]
  | some e =>
      rw [refreshNearest, hfirst]

/-- Such a step leaves what `RefreshNearest` at that clock value would. -/
theorem refreshed_of_timerStep {σ σ' : TimerState τ} {a : TimerAction τ}
    (hstep : timerStep σ a = some σ') (hnow : a.refreshes σ = some now) :
    σ'.base.refreshNearest now = σ'.base := by
  cases TimerStep.of_timerStep hstep with
  | @runAt clock milli task interval huser =>
      simp only [TimerAction.refreshes] at hnow
      split at hnow
      · cases hnow
      · rename_i hexit
        obtain rfl := Option.some.inj hnow
        have hexit : σ.base.exit = false := Bool.eq_false_iff.mpr hexit
        by_cases hi : interval = 0
        · subst hi
          rw [Timers.runAt_oneShot hexit]
          exact Timers.refreshNearest_idem _ _
        · rw [Timers.runAt_repeating hexit _ _ _ hi]
          exact Timers.refreshNearest_idem _ _
  | @fire now' clock task b r hctl hdue hstart =>
      obtain ⟨k, hfirst, -, rfl⟩ : ∃ k, σ.base.timers.first? = some (k, task) ∧ True ∧
          b = { σ.base with timers := σ.base.timers.erase k } := by
        simp only [Timers.takeDue] at hdue
        split at hdue
        · cases hdue
        · rename_i k task' hfirst
          split at hdue
          · cases hdue
            exact ⟨k, hfirst, trivial, rfl⟩
          · cases hdue
      simp only [TimerAction.refreshes, hfirst] at hnow
      cases task with
      | user t => cases hnow
      | repeatable tr =>
          obtain rfl := Option.some.inj hnow
          obtain ⟨r', -, rfl⟩ := Option.map_eq_some_iff.mp hstart
          exact Timers.refreshNearest_idem _ _
  | @finish now' clock hctl hdue =>
      obtain rfl := Option.some.inj hnow
      exact Timers.refreshNearest_idem _ _
  | cancel => cases hnow
  | handleTimeouts => cases hnow
  | ret => cases hnow
  | exit => cases hnow
  | clear => cases hnow

/-- The waits after the steps of a run are exact. -/
def WaitsExactly (waitMs : Int) (σ : TimerState τ) (a : TimerAction τ) (σ' : TimerState τ) :
    Prop :=
  ∀ now ∈ a.refreshes σ, σ'.base.pollWait waitMs = σ'.base.exactWait now waitMs

/-- The nearest deadlines that the steps of a run compare with the clock are
harmless. -/
def RefreshFits (waitMs : Int) (σ : TimerState τ) (a : TimerAction τ) (σ' : TimerState τ) :
    Prop :=
  ∀ now ∈ a.refreshes σ, σ'.base.NearestFits now waitMs

instance (waitMs : Int) (σ : TimerState τ) (a : TimerAction τ) (σ' : TimerState τ) :
    Decidable (RefreshFits waitMs σ a σ') :=
  inferInstanceAs (Decidable (∀ now ∈ a.refreshes σ, _))

/-- **The waits are exact, exactly if the low 32 bits do no harm.**  Take any
run of the timers, whatever the deadlines and the clock values, and any wait
that is an `int`.  After every step that ends with `RefreshNearest`, what
`LoopOnce(waitMs)` passes to the poller is the exact wait, if and only if every
nearest deadline of the run is harmless at the clock value it is compared
with. -/
theorem pollWait_exact_iff (as : List (TimerAction τ)) (h0 : 0 ≤ waitMs)
    (h1 : waitMs < 2 ^ 31) :
    Exec.Along timerStep (WaitsExactly waitMs) TimerState.init as ↔
      Exec.Along timerStep (RefreshFits waitMs) TimerState.init as := by
  apply Exec.along_iff (I := fun _ => True)
  · intro σ a σ' _ _ _
    trivial
  · intro σ a σ' hstep _
    apply forall_congr'
    intro now
    apply forall_congr'
    intro hnow
    rw [← pollWait_refreshNearest_iff _ now h0 h1, refreshed_of_timerStep hstep hnow]
  · trivial

/-- A timer for 50 ms ahead, found overdue by 7 ms. -/
theorem pollWait_exact_small :
    Exec.Along timerStep (WaitsExactly 3000) (TimerState.init : TimerState Nat)
      [.runAt 1000 1050 7 0, .handleTimeouts 1040, .finish 1057] := by
  refine (pollWait_exact_iff _ (by decide) (by decide)).mpr ?_
  decide +kernel

/-- A task for the time 0: the loop sleeps all the same. -/
theorem pollWait_overdue :
    ¬ ∀ (waitMs : Int) (as : List (TimerAction Nat)), 0 ≤ waitMs → waitMs < 2 ^ 31 →
      Exec.Along timerStep (WaitsExactly waitMs) TimerState.init as := by
  intro hall
  have hrun := hall 3000 [.runAt 1700000000000 0 7 0] (by decide) (by decide)
  obtain ⟨hwait, -⟩ := hrun _ rfl
  exact absurd (hwait 1700000000000 rfl) (by decide +kernel)

/-- A task for 30 days ahead: the loop does not sleep at all. -/
example : ((Timers.new : Timers Nat).runAt 1700000000000 1702592000000 7 0).2.pollWait 3000 = 0 := by
  decide +kernel

end Libet
