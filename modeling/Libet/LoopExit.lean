/-
Libet/LoopExit.lean

`EventBase::Loop` and `Exit`, as far as the timers are concerned.

`Loop` calls `LoopOnce(3000)` until it sees `m_exit`, clears the two timer maps and
calls `LoopOnce(0)` once more.  `Exit` only sets the flag: the poll that is going on
is not woken, and the pass behind it still runs what is due.  From then on `RunAt`
refuses, so what the passes can still run is bounded by the timers that are there
(`passBound`), and every step of the loop's own brings it closer to its end.

* `passBound_turn_lt`, `passBound_cancel_le` — what is left to run.
* `LoopInv` — where the loop is and what the timers are then.

A poll begins in the step that tests `m_exit`, and `RunAt` registers in the step that
tests it.  So where another thread calls `Exit` between the test and what follows it, the
poll counts as one that is going on, which is not woken, and the timer as registered
before.  Deadlines are taken to fit into an `int64_t`.

Main result: `loop_of_exit`.
-/
import Libet.PollWait
import Libet.TimerPass

namespace Libet

variable {τ : Type*} {s s' : Timers τ} {issued : List TimerId} {T : Int} {k : TimerId}

/-! ### What is left to run -/

/-- How often the timers of some entries can run. -/
def boundSum (T : Int) (s : Timers τ) (l : List (TimerId × TimerTask τ)) : Nat :=
  ((l.filter fun e => e.1.first ≤ T).map (entryBound T s)).sum

theorem passBound_eq (T : Int) (s : Timers τ) : passBound T s = boundSum T s s.timers.entries := rfl

variable {l l' : List (TimerId × TimerTask τ)} {e : TimerId × TimerTask τ}

theorem boundSum_cons_due (h : e.1.first ≤ T) :
    boundSum T s (e :: l) = entryBound T s e + boundSum T s l := by
  rw [boundSum, List.filter_cons, if_pos (decide_eq_true h), List.map_cons, List.sum_cons, boundSum]

theorem boundSum_cons_later (h : ¬e.1.first ≤ T) : boundSum T s (e :: l) = boundSum T s l := by
  rw [boundSum, List.filter_cons, if_neg (by simpa using h), boundSum]

theorem boundSum_perm (h : l.Perm l') : boundSum T s l = boundSum T s l' :=
  ((h.filter _).map _).sum_eq

theorem boundSum_congr (h : ∀ e ∈ l, entryBound T s' e = entryBound T s e) :
    boundSum T s' l = boundSum T s l :=
  congrArg List.sum (List.map_congr_left fun e he => h e (List.mem_of_mem_filter he))

/-- Fewer entries with no more runs each. -/
theorem boundSum_le_of_sublist (hsub : l'.Sublist l)
    (hentry : ∀ e ∈ l', entryBound T s' e ≤ entryBound T s e) :
    boundSum T s' l' ≤ boundSum T s l := by
  calc boundSum T s' l'
      ≤ boundSum T s l' := List.sum_le_sum fun e he => hentry e (List.mem_of_mem_filter he)
    _ ≤ boundSum T s l := ((hsub.filter _).map _).sum_le_sum fun n _ => Nat.zero_le n

theorem entryBound_congr (h : s'.timerReps = s.timerReps) :
    entryBound T s' e = entryBound T s e := by
  rw [entryBound, entryBound, h]

/-- `Cancel` leaves no more to run. -/
theorem passBound_cancel_le (h : TimersInv s issued) (hi : k ∈ issued) (T : Int) :
    passBound T (s.cancel k).2 ≤ passBound T s := by
  rcases h.cancel_cases hi with he | ⟨p, hp, he⟩ | ⟨t, ht, he⟩
  · rw [he]
  · rw [he]
    refine boundSum_le_of_sublist List.filter_sublist fun e he => ?_
    obtain ⟨k', v⟩ := e
    cases v with
    | user t => exact Nat.le_refl _
    | repeatable tr =>
        simp only [entryBound]
        cases hfind : (s.timerReps.erase k).find? tr with
        | none => exact Nat.zero_le _
        | some r =>
            have hr := (OrdMap.has_erase.mp (OrdMap.find?_eq_some.mp hfind)).2
            rw [OrdMap.find?_eq_some.mpr hr]
  · rw [he]
    exact boundSum_le_of_sublist List.filter_sublist fun e _ => Nat.le_of_eq (entryBound_congr rfl)

/-- A run of a repeating timer is one less to come. -/
theorem dueCount_next {r : TimerRepeatable τ} (hpos : 0 < r.interval)
    (hdue : r.at_ + r.interval ≤ T) (timerid : TimerId) :
    (({ r with at_ := r.at_ + r.interval, timerid := timerid } : TimerRepeatable τ).dueCount T) + 1 =
      r.dueCount T := by
  have hdiv : (T - (r.at_ + r.interval)) / r.interval = (T - r.at_) / r.interval - 1 := by
    rw [show T - (r.at_ + r.interval) = (T - r.at_) + (-1) * r.interval by omega,
      Int.add_mul_ediv_right _ _ hpos.ne']
    rfl
  have hone : 1 ≤ (T - r.at_) / r.interval := Int.le_ediv_of_mul_le hpos (by omega)
  simp only [TimerRepeatable.dueCount, hdiv]
  omega

/-- The entry of a rearmed timer comes under a number of its own. -/
theorem TimersInv.rearmed_entries (h : TimersInv s issued) {tr : TimerId} {r : TimerRepeatable τ}
    (clock : Int) (herase : (s.timers.erase r.timerid).entries = l)
    (hsub : ∀ e ∈ l, s.timers.Has e.1 e.2) :
    (s.rearmed clock tr r).timers.entries.Perm
      ((⟨r.at_ + r.interval, s.timerSeq + 1⟩, .repeatable tr) :: l) := by
  rw [Timers.rearmed, Timers.refreshNearest_timers]
  show (OrdMap.setEntries _ _ (s.timers.erase r.timerid).entries).Perm _
  rw [herase]
  refine OrdMap.setEntries_perm fun e he heq => ?_
  have hseq := (h.timers_seq (hsub e he)).2
  rw [heq] at hseq
  exact absurd hseq (by simp only; omega)

/-- **A turn of a pass leaves less to run.** -/
theorem passBound_turn_lt (h : TimersInv s issued)
    (hint : ∀ {k r}, s.timerReps.Has k r → 0 < r.interval) {v : TimerTask τ}
    (hturn : Turn s k v s') (hfirst : s.timers.first? = some (k, v)) (hk : k.first ≤ T) :
    passBound T s' < passBound T s := by
  obtain ⟨rest, hrest, herase, hne⟩ := OrdMap.first?_entries hfirst
  have hhas : ∀ e ∈ rest, s.timers.Has e.1 e.2 := fun e he => by
    rw [OrdMap.Has, hrest]
    exact List.mem_cons_of_mem _ he
  rw [passBound_eq T s, hrest, boundSum_cons_due (e := (k, v)) hk, passBound_eq]
  cases hturn with
  | user hk' =>
      show boundSum T _ (s.timers.erase k).entries < _
      rw [herase, boundSum_congr fun e _ => entryBound_congr (s := s) rfl]
      exact Nat.lt_add_of_pos_left Nat.zero_lt_one
  | @repeatable tr r hr clock =>
      have hfind : (s.rearmed clock tr r).timerReps.find? tr = some
          { r with at_ := r.at_ + r.interval, timerid := ⟨r.at_ + r.interval, s.timerSeq + 1⟩ } :=
        OrdMap.find?_eq_some.mpr (has_rearmed_reps.mpr (Or.inl ⟨rfl, rfl⟩))
      have hother : ∀ e ∈ rest, entryBound T (s.rearmed clock tr r) e = entryBound T s e := by
        rintro ⟨k', v'⟩ he
        cases v' with
        | user t => rfl
        | repeatable tr' =>
            have htr : tr' ≠ tr := by
              rintro rfl
              exact hne _ he (h.rep_unique hr (hhas _ he))
            obtain ⟨r', hr'⟩ := h.pending_rep (hhas _ he)
            simp only [entryBound, OrdMap.find?_eq_some.mpr hr',
              OrdMap.find?_eq_some.mpr (has_rearmed_reps.mpr (Or.inr ⟨htr, hr'⟩))]
      have hold : entryBound T s (r.timerid, .repeatable tr) = r.dueCount T := by
        simp only [entryBound, OrdMap.find?_eq_some.mpr hr]
      rw [boundSum_perm (h.rearmed_entries clock herase hhas), hold]
      by_cases hnext : r.at_ + r.interval ≤ T
      · have hnew : entryBound T (s.rearmed clock tr r)
            (⟨r.at_ + r.interval, s.timerSeq + 1⟩, .repeatable tr) + 1 = r.dueCount T := by
          simp only [entryBound, hfind]
          exact dueCount_next (hint hr) hnext _
        rw [boundSum_cons_due (by exact hnext), boundSum_congr hother]
        omega
      · rw [boundSum_cons_later (by exact hnext), boundSum_congr hother, TimerRepeatable.dueCount]
        omega

/-! ### The loop -/

/-- Where `Loop` stands; `last` is the `LoopOnce` behind the `while`. -/
inductive LoopPoint
  /-- at `while (!m_exit)` -/
  | head
  /-- in `m_poller->LoopOnce` -/
  | polling (last : Bool)
  /-- in `HandleTimeouts` -/
  | handling (last : Bool)
  | returned
  deriving DecidableEq, Repr

structure LoopState (τ : Type*) where
  timers : TimerState τ
  point : LoopPoint

inductive LoopLabel (τ : Type*)
  /-- the condition of the `while`, and what is done up to the next poll -/
  | turn
  /-- the poller returns, and `HandleTimeouts` reads `now` -/
  | handleTimeouts (now : Int)
  | fire (clock : Int)
  | ret
  | finish (clock : Int)
  /-- a handler or callback calls `RunAt`, `Cancel` or `Exit` -/
  | call (a : TimerAction τ)
  /-- another thread calls `Exit` -/
  | exit

/-- The step is one that `Loop` itself takes. -/
def LoopLabel.own : LoopLabel τ → Bool
  | .turn | .handleTimeouts _ | .fire _ | .ret | .finish _ => true
  | .call _ | .exit => false

/-- The action is a call of a function of `EventBase`. -/
def TimerAction.isCall : TimerAction τ → Bool
  | .runAt .. | .cancel _ | .exit => true
  | _ => false

/-- `Loop` is called. -/
def LoopState.start (t : TimerState τ) : LoopState τ := ⟨t, .head⟩

/-- One step. -/
def loopStep (σ : LoopState τ) : LoopLabel τ → Option (LoopState τ)
  | .turn =>
      match σ.point with
      | .head =>
          if σ.timers.base.exit then (timerStep σ.timers .clear).map (⟨·, .polling true⟩)
          else some { σ with point := .polling false }
      | _ => none
  | .handleTimeouts now =>
      match σ.point with
      | .polling last => (timerStep σ.timers (.handleTimeouts now)).map (⟨·, .handling last⟩)
      | _ => none
  | .fire clock =>
      match σ.point with
      | .handling last => (timerStep σ.timers (.fire clock)).map (⟨·, .handling last⟩)
      | _ => none
  | .ret =>
      match σ.point with
      | .handling last => (timerStep σ.timers .ret).map (⟨·, .handling last⟩)
      | _ => none
  | .finish clock =>
      match σ.point with
      | .handling last =>
          (timerStep σ.timers (.finish clock)).map (⟨·, if last then .returned else .head⟩)
      | _ => none
  | .call a =>
      match σ.point with
      | .polling _ | .handling _ =>
          if a.isCall then (timerStep σ.timers a).map (⟨·, σ.point⟩) else none
      | _ => none
  | .exit => some { σ with timers.base.exit := true }

/-- The waits that the poller is called with. -/
def loopWaits (σ : LoopState τ) : LoopLabel τ → List Int
  | .turn => [σ.timers.base.pollWait (if σ.timers.base.exit then 0 else 3000)]
  | _ => []

/-- What a step does. -/
inductive LoopStep (σ : LoopState τ) : LoopLabel τ → LoopState τ → Prop
  | again (hp : σ.point = .head) (hexit : σ.timers.base.exit = false) :
      LoopStep σ .turn { σ with point := .polling false }
  | last {t} (hp : σ.point = .head) (hexit : σ.timers.base.exit = true)
      (ht : timerStep σ.timers .clear = some t) : LoopStep σ .turn ⟨t, .polling true⟩
  | handleTimeouts {last now t} (hp : σ.point = .polling last)
      (ht : timerStep σ.timers (.handleTimeouts now) = some t) :
      LoopStep σ (.handleTimeouts now) ⟨t, .handling last⟩
  | fire {last clock t} (hp : σ.point = .handling last)
      (ht : timerStep σ.timers (.fire clock) = some t) :
      LoopStep σ (.fire clock) ⟨t, .handling last⟩
  | ret {last t} (hp : σ.point = .handling last) (ht : timerStep σ.timers .ret = some t) :
      LoopStep σ .ret ⟨t, .handling last⟩
  | finish {last clock t} (hp : σ.point = .handling last)
      (ht : timerStep σ.timers (.finish clock) = some t) :
      LoopStep σ (.finish clock) ⟨t, if last then .returned else .head⟩
  | call {a t} (hp : σ.point ≠ .head ∧ σ.point ≠ .returned) (ha : a.isCall = true)
      (ht : timerStep σ.timers a = some t) : LoopStep σ (.call a) ⟨t, σ.point⟩
  | exit : LoopStep σ .exit { σ with timers.base.exit := true }

variable {σ σ' : LoopState τ} {a : LoopLabel τ}

theorem LoopStep.of_loopStep (hstep : loopStep σ a = some σ') : LoopStep σ a σ' := by
  obtain ⟨timers, point⟩ := σ
  cases a with
  | turn =>
      cases point <;> simp only [loopStep, reduceCtorEq] at hstep
      split at hstep
      · rename_i hexit
        obtain ⟨t, ht, rfl⟩ := Option.map_eq_some_iff.mp hstep
        exact .last rfl hexit ht
      · rename_i hexit
        cases hstep
        exact .again rfl (Bool.eq_false_iff.mpr hexit)
  | handleTimeouts now =>
      cases point <;> simp only [loopStep, reduceCtorEq] at hstep
      obtain ⟨t, ht, rfl⟩ := Option.map_eq_some_iff.mp hstep
      exact .handleTimeouts rfl ht
  | fire clock =>
      cases point <;> simp only [loopStep, reduceCtorEq] at hstep
      obtain ⟨t, ht, rfl⟩ := Option.map_eq_some_iff.mp hstep
      exact .fire rfl ht
  | ret =>
      cases point <;> simp only [loopStep, reduceCtorEq] at hstep
      obtain ⟨t, ht, rfl⟩ := Option.map_eq_some_iff.mp hstep
      exact .ret rfl ht
  | finish clock =>
      cases point <;> simp only [loopStep, reduceCtorEq] at hstep
      obtain ⟨t, ht, rfl⟩ := Option.map_eq_some_iff.mp hstep
      exact .finish rfl ht
  | call a =>
      cases point <;> simp only [loopStep, reduceCtorEq] at hstep
      all_goals
        split at hstep
        · rename_i ha
          obtain ⟨t, ht, rfl⟩ := Option.map_eq_some_iff.mp hstep
          exact .call ⟨by simp, by simp⟩ ha ht
        · cases hstep
  | exit =>
      cases hstep
      exact .exit

/-! ### What holds in the loop -/

theorem Timers.runAt_of_exit (h : s.exit = true) (now milli : Int) (task : τ) (interval : Int) :
    s.runAt now milli task interval = (⟨0, 0⟩, s) := if_pos h

@[simp] theorem Timers.refreshNearest_exit (s : Timers τ) (now : Int) :
    (s.refreshNearest now).exit = s.exit := by
  unfold refreshNearest; split <;> rfl

theorem Timers.refreshNearest_nonneg (s : Timers τ) (now : Int) :
    0 ≤ (s.refreshNearest now).nextTimeout := by
  unfold refreshNearest
  split
  · exact Int.le_of_lt (show (0 : Int) < 2 ^ 30 by decide)
  · dsimp only
    split <;> omega

/-- `m_nextTimeout` is not negative, and `m_exit` stays set. -/
structure Timers.Sane (s s' : Timers τ) : Prop where
  nonneg : 0 ≤ s.nextTimeout → 0 ≤ s'.nextTimeout
  exit : s.exit = true → s'.exit = true

theorem Timers.Sane.refl (s : Timers τ) : s.Sane s := ⟨id, id⟩

theorem Timers.Sane.cancel (s : Timers τ) (k : TimerId) : s.Sane (s.cancel k).2 := by
  rw [Timers.cancel]
  split <;> split <;> exact ⟨id, id⟩

theorem Timers.Sane.runAt (s : Timers τ) (now milli : Int) (task : τ) (interval : Int) :
    s.Sane (s.runAt now milli task interval).2 := by
  rw [Timers.runAt]
  split
  · exact .refl s
  · split
    · exact ⟨fun _ => refreshNearest_nonneg _ _, fun h => by rw [refreshNearest_exit]; exact h⟩
    · exact ⟨fun _ => refreshNearest_nonneg _ _, fun h => by rw [refreshNearest_exit]; exact h⟩

theorem Timers.Sane.turn {v : TimerTask τ} (h : Turn s k v s') : s.Sane s' := by
  cases h with
  | user hk => exact ⟨id, id⟩
  | repeatable hr clock =>
      exact ⟨fun _ => refreshNearest_nonneg _ _,
        fun h => by rw [rearmed, refreshNearest_exit]; exact h⟩

theorem timerStep_sane {t t' : TimerState τ} {b : TimerAction τ}
    (h : TimersInv t.base t.issued) (hstep : timerStep t b = some t') : t.base.Sane t'.base := by
  have hturn := fun clock (hb : b = .fire clock) => timerStep_fire h (hb ▸ hstep)
  cases TimerStep.of_timerStep hstep with
  | runAt huser => exact .runAt ..
  | cancel huser hissued => exact .cancel ..
  | handleTimeouts hctl => exact .refl _
  | @fire _ clock =>
      obtain ⟨_, _, _, -, -, -, -, hturn⟩ := hturn clock rfl
      exact .turn hturn
  | ret hctl => exact .refl _
  | finish hctl hdue =>
      exact ⟨fun _ => Timers.refreshNearest_nonneg _ _,
        fun h => by rw [Timers.refreshNearest_exit]; exact h⟩
  | exit huser => exact ⟨id, fun _ => rfl⟩
  | clear hctl => exact ⟨id, id⟩

/-- `LoopOnce(0)` has been called. -/
def LoopPoint.isLast : LoopPoint → Bool
  | .head => false
  | .polling last | .handling last => last
  | .returned => true

/-- There is no timer. -/
def Timers.Clear (s : Timers τ) : Prop := s.timers.entries = [] ∧ s.timerReps.entries = []

/-- Where the loop is, and what the timers are then. -/
structure LoopInv (σ : LoopState τ) : Prop where
  inv : TimersInv σ.timers.base σ.timers.issued
  nonneg : 0 ≤ σ.timers.base.nextTimeout
  control : σ.timers.control = .outside ↔ ∀ last, σ.point ≠ .handling last
  last : σ.point.isLast = true → σ.timers.base.exit = true ∧ σ.timers.base.Clear

/-- Nothing comes back once there is no timer. -/
theorem Timers.Clear.step {t t' : TimerState τ} {b : TimerAction τ} (h : t.base.Clear)
    (hexit : t.base.exit = true) (hinv : TimersInv t.base t.issued)
    (hstep : timerStep t b = some t') : t'.base.Clear := by
  have hnone : ∀ {k v}, ¬t.base.timers.Has k v := by
    intro k v hk
    rw [OrdMap.Has, h.1] at hk
    exact absurd hk List.not_mem_nil
  have hturn := fun clock (hb : b = .fire clock) => timerStep_fire hinv (hb ▸ hstep)
  cases TimerStep.of_timerStep hstep with
  | runAt huser =>
      rw [Timers.Clear, Timers.runAt_of_exit hexit]
      exact h
  | cancel huser hissued =>
      rcases hinv.cancel_cases hissued with he | ⟨p, hp, -⟩ | ⟨t, ht, -⟩
      · rw [he]
        exact h
      · exact absurd (hinv.rep_pending hp).1 hnone
      · exact absurd ht hnone
  | handleTimeouts hctl => exact h
  | @fire _ clock =>
      obtain ⟨-, k, v, -, hfirst, -⟩ := hturn clock rfl
      exact absurd (OrdMap.first?_has hfirst) hnone
  | ret hctl => exact h
  | finish hctl hdue =>
      rw [Timers.Clear, Timers.refreshNearest_timers, Timers.refreshNearest_timerReps]
      exact h
  | exit huser => exact h
  | clear hctl => exact ⟨rfl, rfl⟩

/-- Calls do not move control. -/
theorem control_of_isCall {t t' : TimerState τ} {b : TimerAction τ} (hb : b.isCall = true)
    (hstep : timerStep t b = some t') : t'.control = t.control := by
  cases TimerStep.of_timerStep hstep <;> first | rfl | cases hb

/-- A step of the timers, with a point that agrees with where it goes. -/
theorem LoopInv.move (h : LoopInv σ) {t : TimerState τ} {b : TimerAction τ} {point : LoopPoint}
    (ht : timerStep σ.timers b = some t)
    (hcontrol : t.control = .outside ↔ ∀ last, point ≠ .handling last)
    (hlast : point.isLast = true → σ.point.isLast = true) : LoopInv ⟨t, point⟩ where
  inv := timerStep_inv ht h.inv
  nonneg := (timerStep_sane h.inv ht).nonneg h.nonneg
  control := hcontrol
  last hpoint := by
    obtain ⟨hexit, hclear⟩ := h.last (hlast hpoint)
    exact ⟨(timerStep_sane h.inv ht).exit hexit, hclear.step hexit h.inv ht⟩

/-- **The step lemma.** -/
theorem LoopInv.step (h : LoopInv σ) (hstep : LoopStep σ a σ') : LoopInv σ' := by
  cases hstep with
  | again hp hexit =>
      have hout : σ.timers.control = .outside := h.control.mpr (by rw [hp]; simp)
      exact ⟨h.inv, h.nonneg, iff_of_true hout (by simp), fun hlast => by cases hlast⟩
  | last hp hexit ht =>
      have hsane := timerStep_sane h.inv ht
      have hinv := timerStep_inv ht h.inv
      cases TimerStep.of_timerStep ht with
      | clear hctl =>
          exact ⟨hinv, hsane.nonneg h.nonneg, iff_of_true hctl (by simp), fun _ =>
            ⟨hexit, rfl, rfl⟩⟩
  | @handleTimeouts last now t hp ht =>
      refine h.move ht ?_ fun hlast => by rw [hp]; exact hlast
      cases TimerStep.of_timerStep ht with
      | handleTimeouts hctl => exact iff_of_false (by simp) (by simp)
  | @fire last clock t hp ht =>
      refine h.move ht ?_ fun hlast => by rw [hp]; exact hlast
      cases TimerStep.of_timerStep ht with
      | fire hctl hdue hstart => exact iff_of_false (by simp) (by simp)
  | @ret last t hp ht =>
      refine h.move ht ?_ fun hlast => by rw [hp]; exact hlast
      cases TimerStep.of_timerStep ht with
      | ret hctl => exact iff_of_false (by simp) (by simp)
  | @finish last clock t hp ht =>
      refine h.move ht ?_ fun hlast => ?_
      · cases TimerStep.of_timerStep ht with
        | finish hctl hdue => exact iff_of_true rfl (by cases last <;> simp)
      · rw [hp]
        cases last with
        | true => rfl
        | false => cases hlast
  | @call b t hp hb ht =>
      refine h.move ht ?_ id
      rw [control_of_isCall hb ht]
      exact h.control
  | exit =>
      exact ⟨h.inv.congr (fun _ _ => Iff.rfl) (fun _ _ => Iff.rfl) rfl, h.nonneg, h.control,
        fun hlast => ⟨rfl, (h.last hlast).2⟩⟩

/-- The loop starts in a reachable state of the timers. -/
theorem LoopInv.start {pre : List (TimerAction τ)} {t : TimerState τ}
    (hrun : Exec.exec timerStep TimerState.init pre = some t) (hout : t.control = .outside) :
    LoopInv (LoopState.start t) where
  inv := timersInv_of_run hrun
  nonneg := by
    refine (Exec.invariant (I := fun t : TimerState τ =>
      TimersInv t.base t.issued ∧ 0 ≤ t.base.nextTimeout) (fun u b u' hstep h => ?_) hrun
      ⟨timersInv_new, Int.le_of_lt (show (0 : Int) < 2 ^ 30 by decide)⟩).2
    exact ⟨timerStep_inv hstep h.1, (timerStep_sane h.1 hstep).nonneg h.2⟩
  control := iff_of_true hout fun _ => by simp [LoopState.start]
  last h := by cases h

/-! ### The end of the loop -/

theorem passBound_refreshNearest (s : Timers τ) (clock : Int) :
    passBound T (s.refreshNearest clock) = passBound T s := by
  rw [passBound_eq, passBound_eq, Timers.refreshNearest_timers]
  exact boundSum_congr fun e _ => entryBound_congr (Timers.refreshNearest_timerReps s clock)

/-- The pass that is going on has not read a clock value above `T`. -/
def TimerControl.UpTo (T : Int) : TimerControl → Prop
  | .outside => True
  | .loopHead now | .callback now => now ≤ T

/-- No pass reads a clock value above `T`. -/
def ReadsUpTo (T : Int) (_ : LoopState τ) : LoopLabel τ → LoopState τ → Prop
  | .handleTimeouts now, _ => now ≤ T
  | _, _ => True

instance (T : Int) : ∀ c : TimerControl, Decidable (c.UpTo T)
  | .outside => isTrue trivial
  | .loopHead now | .callback now => inferInstanceAs (Decidable (now ≤ T))

instance (T : Int) (σ σ' : LoopState τ) : ∀ a : LoopLabel τ, Decidable (ReadsUpTo T σ a σ')
  | .handleTimeouts now => inferInstanceAs (Decidable (now ≤ T))
  | .turn | .fire _ | .ret | .finish _ | .call _ | .exit => isTrue trivial

/-- The timers once `m_exit` is set: no new ones come, and the repeating ones move on. -/
structure Winding (T : Int) (t : TimerState τ) : Prop where
  inv : TimersInv t.base t.issued
  exit : t.base.exit = true
  interval : ∀ {k r}, t.base.timerReps.Has k r → 0 < r.interval
  upTo : t.control.UpTo T

theorem Turn.interval {v : TimerTask τ} (h : Turn s k v s')
    (hint : ∀ {k r}, s.timerReps.Has k r → 0 < r.interval) {k' : TimerId}
    {r' : TimerRepeatable τ} (hr' : s'.timerReps.Has k' r') : 0 < r'.interval := by
  cases h with
  | user hk => exact hint hr'
  | @repeatable tr r hr clock =>
      rcases has_rearmed_reps.mp hr' with ⟨-, rfl⟩ | ⟨-, hr'⟩
      · have hpos : 0 < r.interval := hint hr
        exact hpos
      · exact hint hr'

/-- **A step leaves no more to run, and a turn of a pass less.** -/
theorem Winding.step {t t' : TimerState τ} {b : TimerAction τ} (h : Winding T t)
    (hstep : timerStep t b = some t') (hup : t'.control.UpTo T) :
    Winding T t' ∧ passBound T t'.base + (if b.isFire then 1 else 0) ≤ passBound T t.base := by
  have hinv := timerStep_inv hstep h.inv
  have hexit := (timerStep_sane h.inv hstep).exit h.exit
  have hturn := fun clock (hb : b = .fire clock) => timerStep_fire h.inv (hb ▸ hstep)
  cases TimerStep.of_timerStep hstep with
  | @runAt clock milli task interval huser =>
      have hsame := Timers.runAt_of_exit h.exit clock milli task interval
      refine ⟨⟨hinv, hexit, ?_, hup⟩, ?_⟩
      · rw [hsame]
        exact h.interval
      · rw [hsame]
        exact Nat.le_refl _
  | @cancel timerid huser hissued =>
      refine ⟨⟨hinv, hexit, fun {k r} hr => h.interval (k := k) ?_, hup⟩,
        passBound_cancel_le h.inv hissued T⟩
      rcases h.inv.cancel_cases hissued with he | ⟨p, hp, he⟩ | ⟨t, ht, he⟩
      · rwa [he] at hr
      · rw [he] at hr
        exact (OrdMap.has_erase.mp hr).2
      · rwa [he] at hr
  | handleTimeouts hctl => exact ⟨⟨hinv, hexit, h.interval, hup⟩, Nat.le_refl _⟩
  | @fire now clock =>
      obtain ⟨now', k, v, hctl, hfirst, hlt, -, hturn⟩ := hturn clock rfl
      have hnow : now' ≤ T := by
        have := h.upTo
        rwa [hctl] at this
      have hlt' := passBound_turn_lt h.inv h.interval hturn hfirst
        ((TimerId.first_le_of_lt hlt).trans hnow)
      exact ⟨⟨hinv, hexit, hturn.interval h.interval, hup⟩, hlt'⟩
  | ret hctl => exact ⟨⟨hinv, hexit, h.interval, hup⟩, Nat.le_refl _⟩
  | finish hctl hdue =>
      refine ⟨⟨hinv, hexit, fun {k r} hr => ?_, hup⟩, (passBound_refreshNearest ..).le⟩
      rw [Timers.refreshNearest_timerReps] at hr
      exact h.interval hr
  | exit huser => exact ⟨⟨hinv, hexit, h.interval, hup⟩, Nat.le_refl _⟩
  | clear hctl =>
      exact ⟨⟨hinv, hexit, fun hr => absurd hr OrdMap.not_has_empty, hup⟩, Nat.zero_le _⟩

/-- The turns that are left at a point, apart from those of the passes. -/
def LoopPoint.rank : LoopPoint → Nat
  | .polling false => 5
  | .handling false => 4
  | .head => 3
  | .polling true => 2
  | .handling true => 1
  | .returned => 0

/-- A callback has to return. -/
def TimerControl.rank : TimerControl → Nat
  | .callback _ => 1
  | .outside | .loopHead _ => 0

/-- The steps that `Loop` can still take. -/
def LoopState.rank (T : Int) (σ : LoopState τ) : Nat :=
  2 * passBound T σ.timers.base + σ.point.rank + σ.timers.control.rank

theorem LoopState.rank_le (T : Int) (σ : LoopState τ) :
    σ.rank T ≤ 2 * passBound T σ.timers.base + 6 := by
  have hpoint : σ.point.rank ≤ 5 := by unfold LoopPoint.rank; split <;> omega
  have hcontrol : σ.timers.control.rank ≤ 1 := by unfold TimerControl.rank; split <;> omega
  rw [rank]
  omega

/-- What holds while the loop winds down. -/
structure WindingLoop (T : Int) (σ : LoopState τ) : Prop where
  loop : LoopInv σ
  timers : Winding T σ.timers

/-- A step of the timers to another point. -/
theorem WindingLoop.move (h : WindingLoop T σ) (hloop : LoopInv σ') {b : TimerAction τ}
    (ht : timerStep σ.timers b = some σ'.timers) (hup : σ'.timers.control.UpTo T) {n : Nat}
    (hn : σ'.point.rank + σ'.timers.control.rank + n ≤
      2 * (if b.isFire then 1 else 0) + σ.point.rank + σ.timers.control.rank) :
    WindingLoop T σ' ∧ σ'.rank T + n ≤ σ.rank T := by
  obtain ⟨hw, hle⟩ := h.timers.step ht hup
  refine ⟨⟨hloop, hw⟩, ?_⟩
  rw [LoopState.rank, LoopState.rank]
  omega

/-- **Every step of its own brings `Loop` closer to its end**, and no other step brings
it further away. -/
theorem WindingLoop.step (h : WindingLoop T σ) (hstep : LoopStep σ a σ')
    (hclock : ReadsUpTo T σ a σ') :
    WindingLoop T σ' ∧ σ'.rank T + (if a.own then 1 else 0) ≤ σ.rank T := by
  have hloop := h.loop.step hstep
  have hup := h.timers.upTo
  cases hstep with
  | again hp hexit => exact absurd (hexit.symm.trans h.timers.exit) (by decide)
  | last hp hexit ht =>
      refine h.move hloop ht ?_ ?_
      · cases TimerStep.of_timerStep ht with
        | clear hctl => exact hup
      · cases TimerStep.of_timerStep ht with
        | clear hctl => simp [hp, hctl, LoopPoint.rank, TimerControl.rank, LoopLabel.own]
  | @handleTimeouts last now t hp ht =>
      refine h.move hloop ht ?_ ?_
      · cases TimerStep.of_timerStep ht with
        | handleTimeouts hctl => exact hclock
      · cases TimerStep.of_timerStep ht with
        | handleTimeouts hctl =>
            cases last <;> simp [hp, hctl, LoopPoint.rank, TimerControl.rank, LoopLabel.own]
  | fire hp ht =>
      refine h.move hloop ht ?_ ?_
      · cases TimerStep.of_timerStep ht with
        | fire hctl hdue hstart => rwa [hctl] at hup
      · cases TimerStep.of_timerStep ht with
        | fire hctl hdue hstart =>
            simp [hp, hctl, TimerControl.rank, LoopLabel.own, TimerAction.isFire]
            omega
  | ret hp ht =>
      refine h.move hloop ht ?_ ?_
      · cases TimerStep.of_timerStep ht with
        | ret hctl => rwa [hctl] at hup
      · cases TimerStep.of_timerStep ht with
        | ret hctl =>
            simp [hp, hctl, TimerControl.rank, LoopLabel.own, TimerAction.isFire]
  | @finish last clock t hp ht =>
      refine h.move hloop ht ?_ ?_
      · cases TimerStep.of_timerStep ht with
        | finish hctl hdue => trivial
      · cases TimerStep.of_timerStep ht with
        | finish hctl hdue =>
            cases last <;> simp [hp, hctl, LoopPoint.rank, TimerControl.rank, LoopLabel.own]
  | call hp hb ht =>
      refine h.move hloop ht ?_ ?_
      · rw [control_of_isCall hb ht]
        exact hup
      · rw [control_of_isCall hb ht]
        simp [LoopLabel.own]
  | exit =>
      have htimers : Winding T { σ.timers with base.exit := true } :=
        ⟨hloop.inv, rfl, h.timers.interval, hup⟩
      exact ⟨⟨hloop, htimers⟩, Nat.le_refl _⟩

/-- `Loop` is never stuck. -/
theorem WindingLoop.progress (h : WindingLoop T σ) (hp : σ.point ≠ .returned) :
    ∃ a, a.own = true ∧ (loopStep σ a).isSome := by
  obtain ⟨timers, point⟩ := σ
  have hcontrol := h.loop.control
  cases point with
  | head =>
      have hout : timers.control = .outside := hcontrol.mpr (by simp)
      have hexit : timers.base.exit = true := h.timers.exit
      refine ⟨.turn, rfl, ?_⟩
      simp [loopStep, timerStep, hout, hexit]
  | polling last =>
      have hout : timers.control = .outside := hcontrol.mpr (by simp)
      refine ⟨.handleTimeouts 0, rfl, ?_⟩
      simp [loopStep, timerStep, hout]
  | handling last =>
      cases hctl : timers.control with
      | outside => exact absurd rfl (hcontrol.mp hctl last)
      | loopHead now =>
          cases hdue : timers.base.takeDue now with
          | none =>
              refine ⟨.finish 0, rfl, ?_⟩
              simp [loopStep, timerStep, hctl, hdue]
          | some x =>
              obtain ⟨task, b⟩ := x
              obtain ⟨r, hr, -⟩ := h.loop.inv.fire hdue 0
              refine ⟨.fire 0, rfl, ?_⟩
              simp [loopStep, timerStep, hctl, hdue, hr]
      | callback now =>
          refine ⟨.ret, rfl, ?_⟩
          simp [loopStep, timerStep, hctl]
  | returned => exact absurd rfl hp

/-- Behind `LoopOnce(0)` there is no other poll. -/
theorem LoopStep.isLast (hstep : LoopStep σ a σ') (h : σ.point.isLast = true) :
    a ≠ .turn ∧ σ'.point.isLast = true := by
  cases hstep with
  | again hp hexit | last hp hexit ht =>
      rw [hp] at h
      cases h
  | handleTimeouts hp ht | fire hp ht | ret hp ht =>
      rw [hp] at h
      exact ⟨nofun, h⟩
  | @finish last clock t hp ht =>
      rw [hp] at h
      obtain rfl : last = true := h
      exact ⟨nofun, rfl⟩
  | call hp hb ht => exact ⟨nofun, h⟩
  | exit => exact ⟨nofun, h⟩

/-- A poll of a loop that winds down is the last one, and does not wait. -/
theorem WindingLoop.waits (h : WindingLoop T σ) (hstep : LoopStep σ a σ') {l : List Int}
    (hl : l = [] ∨ l = [0] ∧ σ.point.isLast = true) :
    l ++ loopWaits σ a = [] ∨ l ++ loopWaits σ a = [0] ∧ σ'.point.isLast = true := by
  by_cases ha : loopWaits σ a = []
  · rw [ha, List.append_nil]
    exact hl.imp_right fun hlast => ⟨hlast.1, (hstep.isLast hlast.2).2⟩
  · rcases hl with rfl | ⟨-, hlast⟩
    · cases hstep with
      | again hp hexit => exact absurd (hexit.symm.trans h.timers.exit) (by decide)
      | last hp hexit ht =>
          refine Or.inr ⟨?_, rfl⟩
          simp only [List.nil_append, loopWaits, hexit, if_true, Timers.pollWait]
          rw [Int.min_eq_left h.loop.nonneg]
      | _ => exact absurd rfl ha
    · have hturn := (hstep.isLast hlast).1
      cases a with
      | turn => exact absurd rfl hturn
      | _ => exact absurd rfl ha

/-- **`Loop` ends after `Exit`.**  Take any run of `Loop`, from any state of the timers,
up to a moment when `m_exit` is set, and any way it goes on from there, with repeating
timers whose intervals are positive and passes that read clock values up to `T`.  Then
`Loop` takes a bounded number of steps more, whatever the handlers and callbacks call,
and is never stuck before it has returned; it polls at most once more, without waiting
(a poll whose test of `m_exit` came before that moment is going on already); and from
that poll on there is no timer, so that the last pass runs nothing. -/
theorem loop_of_exit {pre : List (TimerAction τ)} {t : TimerState τ} {as bs : List (LoopLabel τ)}
    (hpre : Exec.exec timerStep TimerState.init pre = some t) (hout : t.control = .outside)
    (hrun : Exec.exec loopStep (LoopState.start t) as = some σ)
    (hexit : σ.timers.base.exit = true)
    (hint : ∀ k r, σ.timers.base.timerReps.Has k r → 0 < r.interval)
    (hup : σ.timers.control.UpTo T) (hclock : Exec.Along loopStep (ReadsUpTo T) σ bs)
    (hrest : Exec.exec loopStep σ bs = some σ') :
    bs.countP LoopLabel.own ≤ 2 * passBound T σ.timers.base + 6 ∧
    (σ'.point ≠ .returned → ∃ a, a.own = true ∧ (loopStep σ' a).isSome) ∧
    (Exec.trace loopStep loopWaits σ bs = [] ∨ Exec.trace loopStep loopWaits σ bs = [0]) ∧
    (σ'.point.isLast = true → σ'.timers.base.Clear) := by
  have hloop : LoopInv σ := Exec.invariant (I := LoopInv)
    (fun _ _ _ hstep h => h.step (.of_loopStep hstep)) hrun (LoopInv.start hpre hout)
  have hstart : WindingLoop T σ := ⟨hloop, hloop.inv, hexit, hint _ _, hup⟩
  have hstep : ∀ (u : LoopState τ) a u', loopStep u a = some u' → ReadsUpTo T u a u' → WindingLoop T u →
      WindingLoop T u' ∧ u'.rank T + (if a.own then 1 else 0) ≤ u.rank T :=
    fun u a u' hu hc h => h.step (.of_loopStep hu) hc
  have hend : WindingLoop T σ' := Exec.invariant_along (I := WindingLoop T)
    (fun u a u' hu hc h => (hstep u a u' hu hc h).1) hclock hrest hstart
  refine ⟨?_, hend.progress, ?_, fun hlast => (hend.loop.last hlast).2⟩
  · have hle := Exec.countP_add_rank_le (LoopState.rank T) LoopLabel.own hstep hclock hrest hstart
    have := σ.rank_le T
    omega
  · -- a poll is the last one
    refine (Exec.history_along (I := fun u l => WindingLoop T u ∧
      (l = [] ∨ l = [0] ∧ u.point.isLast = true)) (fun u a u' l hu hc h => ?_) hclock hrest
      ⟨hstart, Or.inl rfl⟩).2.imp_right And.left
    exact ⟨(hstep u a u' hu hc h.1).1, h.1.waits (.of_loopStep hu) h.2⟩

/-- `Exit` during a poll: the pass behind it runs the repeating timer twice, and a
handler of the last poll tries to register a timer. -/
def exitWhilePolling : List (LoopLabel Nat) :=
  [.handleTimeouts 20, .fire 20, .ret, .fire 20, .ret, .finish 20, .turn,
    .call (.runAt 21 21 1 0), .handleTimeouts 21, .finish 21]

theorem loop_of_exit_whilePolling : ∃ t σ σ',
    Exec.exec timerStep TimerState.init [TimerAction.runAt 0 5 7 10] = some t ∧
      Exec.exec loopStep (LoopState.start t) [.turn, .exit] = some σ ∧
      Exec.exec loopStep σ exitWhilePolling = some σ' ∧ σ'.point = .returned ∧
      exitWhilePolling.countP LoopLabel.own ≤ 2 * passBound 21 σ.timers.base + 6 ∧
      σ'.timers.base.Clear := by
  refine ⟨_, _, _, rfl, rfl, rfl, rfl, ?_⟩
  have h := @loop_of_exit Nat 21 _ _ [.runAt 0 5 7 10] _ [.turn, .exit] exitWhilePolling rfl rfl rfl
    rfl (fun k r hr => by
      obtain rfl := (Prod.mk.inj (List.mem_singleton.mp hr)).2
      decide) trivial (by decide +kernel) rfl
  exact ⟨h.1, h.2.2.2 rfl⟩

end Libet
