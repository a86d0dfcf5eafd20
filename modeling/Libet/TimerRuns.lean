/-
Libet/TimerRuns.lean

Runs of the timer code and the invariant of its two maps.

The machine has three kinds of moments.  Outside a pass and inside a callback
the caller's code is in charge and may call `RunAt` and `Cancel`, in any number
and order; at the head of the loop of `HandleTimeouts` the next due task is
taken out and run up to the start of the caller's code.  Every state of the
machine is therefore one that the caller's code can observe, or the loop head
between two callbacks.  `RepeatableTimeout` takes the pending entry of a record
out and puts it back inside one step, which is where the invariant is broken
and restored.

Main result: `timersOk_of_run`.
-/
import Libet.Lib.Exec
import Libet.Timer

namespace Libet

variable {τ : Type*}

/-! ### The machine -/

/-- Where control is. -/
inductive TimerControl
  /-- outside `HandleTimeouts` -/
  | outside
  /-- at the loop condition of a pass that read the clock value `now` -/
  | loopHead (now : Int)
  /-- inside a callback of such a pass -/
  | callback (now : Int)
  deriving DecidableEq, Repr

/-- Whether the caller's code is in charge. -/
def TimerControl.userCode : TimerControl → Bool
  | .outside => true
  | .loopHead _ => false
  | .callback _ => true

/-- The timer fields, where control is, and the identifiers `RunAt` has
returned so far. -/
structure TimerState (τ : Type*) where
  base : Timers τ
  control : TimerControl
  issued : List TimerId

/-- What can happen next; `clock` is the value of a `timeMilli()` call. -/
inductive TimerAction (τ : Type*)
  | runAt (clock milli : Int) (task : τ) (interval : Int)
  | cancel (timerid : TimerId)
  /-- `HandleTimeouts` is called and reads `now` -/
  | handleTimeouts (now : Int)
  /-- the loop takes a due task out and runs it to its callback -/
  | fire (clock : Int)
  /-- the callback returns -/
  | ret
  /-- nothing is due any more and the pass ends -/
  | finish (clock : Int)
  /-- `Exit()` -/
  | exit
  /-- `Loop` ends and clears both maps -/
  | clear

/-- The state in which nothing has happened yet. -/
def TimerState.init : TimerState τ := ⟨Timers.new, .outside, []⟩

/-- One step of the machine. -/
def timerStep (s : TimerState τ) : TimerAction τ → Option (TimerState τ)
  | .runAt clock milli task interval =>
      if s.control.userCode then
        let r := s.base.runAt clock milli task interval
        some { s with base := r.2, issued := r.1 :: s.issued }
      else none
  | .cancel timerid =>
      if s.control.userCode ∧ timerid ∈ s.issued then
        some { s with base := (s.base.cancel timerid).2 }
      else none
  | .handleTimeouts now =>
      match s.control with
      | .outside => some { s with control := .loopHead now }
      | _ => none
  | .fire clock =>
      match s.control with
      | .loopHead now =>
          (s.base.takeDue now).bind fun due =>
            (due.2.startTask clock due.1).map fun r =>
              { s with base := r.2, control := .callback now }
      | _ => none
  | .ret =>
      match s.control with
      | .callback now => some { s with control := .loopHead now }
      | _ => none
  | .finish clock =>
      match s.control with
      | .loopHead now =>
          if (s.base.takeDue now).isNone then
            some { s with base := s.base.refreshNearest clock, control := .outside }
          else none
      | _ => none
  | .exit =>
      if s.control.userCode then some { s with base := { s.base with exit := true } }
      else none
  | .clear =>
      match s.control with
      | .outside => some { s with base := { s.base with timerReps := OrdMap.empty
                                                        timers := OrdMap.empty } }
      | _ => none

/-- When each step is taken, and what it does. -/
inductive TimerStep (s : TimerState τ) : TimerAction τ → TimerState τ → Prop
  | runAt {clock milli task interval} (huser : s.control.userCode) :
      TimerStep s (.runAt clock milli task interval)
        { s with base := (s.base.runAt clock milli task interval).2
                 issued := (s.base.runAt clock milli task interval).1 :: s.issued }
  | cancel {timerid} (huser : s.control.userCode) (hissued : timerid ∈ s.issued) :
      TimerStep s (.cancel timerid) { s with base := (s.base.cancel timerid).2 }
  | handleTimeouts {now} (hctl : s.control = .outside) :
      TimerStep s (.handleTimeouts now) { s with control := .loopHead now }
  | fire {now clock task b r} (hctl : s.control = .loopHead now)
      (hdue : s.base.takeDue now = some (task, b)) (hstart : b.startTask clock task = some r) :
      TimerStep s (.fire clock) { s with base := r.2, control := .callback now }
  | ret {now} (hctl : s.control = .callback now) :
      TimerStep s .ret { s with control := .loopHead now }
  | finish {now clock} (hctl : s.control = .loopHead now)
      (hdue : (s.base.takeDue now).isNone) :
      TimerStep s (.finish clock)
        { s with base := s.base.refreshNearest clock, control := .outside }
  | exit (huser : s.control.userCode) :
      TimerStep s .exit { s with base := { s.base with exit := true } }
  | clear (hctl : s.control = .outside) :
      TimerStep s .clear { s with base := { s.base with timerReps := OrdMap.empty
                                                        timers := OrdMap.empty } }

theorem TimerStep.of_timerStep {s s' : TimerState τ} {a : TimerAction τ}
    (hstep : timerStep s a = some s') : TimerStep s a s' := by
  cases a with
  | runAt clock milli task interval =>
      simp only [timerStep] at hstep
      split at hstep
      · rename_i huser
        cases hstep
        exact .runAt huser
      · cases hstep
  | cancel timerid =>
      simp only [timerStep] at hstep
      split at hstep
      · rename_i huser
        cases hstep
        exact .cancel huser.1 huser.2
      · cases hstep
  | handleTimeouts now =>
      simp only [timerStep] at hstep
      split at hstep
      · rename_i hctl
        cases hstep
        exact .handleTimeouts hctl
      · cases hstep
  | fire clock =>
      simp only [timerStep] at hstep
      split at hstep
      · rename_i now hctl
        obtain ⟨⟨task, b⟩, hdue, hrun⟩ := Option.bind_eq_some_iff.mp hstep
        obtain ⟨r, hstart, rfl⟩ := Option.map_eq_some_iff.mp hrun
        exact .fire hctl hdue hstart
      · cases hstep
  | ret =>
      simp only [timerStep] at hstep
      split at hstep
      · rename_i now hctl
        cases hstep
        exact .ret hctl
      · cases hstep
  | finish clock =>
      simp only [timerStep] at hstep
      split at hstep
      · rename_i now hctl
        split at hstep
        · rename_i hdue
          cases hstep
          exact .finish hctl hdue
        · cases hstep
      · cases hstep
  | exit =>
      simp only [timerStep] at hstep
      split at hstep
      · rename_i huser
        cases hstep
        exact .exit huser
      · cases hstep
  | clear =>
      simp only [timerStep] at hstep
      split at hstep
      · rename_i hctl
        cases hstep
        exact .clear hctl
      · cases hstep

/-! ### The invariant -/

/-- The two maps agree: every record has exactly one pending entry, at the key
it names, whose deadline is the record's; every `RepeatableTimeout` task points
at a record; and no two entries share a key. -/
structure TimersOk (s : Timers τ) : Prop where
  rep_pending : ∀ {k r}, s.timerReps.Has k r →
    s.timers.Has r.timerid (.repeatable k) ∧ r.timerid.first = r.at_
  rep_unique : ∀ {k r k'}, s.timerReps.Has k r → s.timers.Has k' (.repeatable k) →
    k' = r.timerid
  pending_rep : ∀ {k tr}, s.timers.Has k (.repeatable tr) → ∃ r, s.timerReps.Has tr r
  keys_nodup : (s.timers.keys ++ s.timerReps.keys).Nodup

/-- What makes the agreement inductive: sequence numbers are fresh, and no
identifier in the caller's hands is the key of a `RepeatableTimeout` task. -/
structure TimersInv (s : Timers τ) (issued : List TimerId) : Prop where
  rep_pending : ∀ {k r}, s.timerReps.Has k r →
    s.timers.Has r.timerid (.repeatable k) ∧ r.timerid.first = r.at_
  rep_unique : ∀ {k r k'}, s.timerReps.Has k r → s.timers.Has k' (.repeatable k) →
    k' = r.timerid
  pending_rep : ∀ {k tr}, s.timers.Has k (.repeatable tr) → ∃ r, s.timerReps.Has tr r
  timers_seq : ∀ {k v}, s.timers.Has k v → 0 < k.second ∧ k.second ≤ s.timerSeq
  reps_seq : ∀ {k r}, s.timerReps.Has k r → k.second ≤ s.timerSeq
  seq_ne : ∀ {k v k' r}, s.timers.Has k v → s.timerReps.Has k' r →
    k.second ≠ k'.second
  issued_seq : ∀ {k}, k ∈ issued → k.second ≤ s.timerSeq
  issued_user : ∀ {k tr}, k ∈ issued → ¬ s.timers.Has k (.repeatable tr)
  seq_nonneg : 0 ≤ s.timerSeq

variable {s : Timers τ} {issued : List TimerId}

/-- The inductive invariant gives the agreement of the two maps. -/
theorem TimersInv.ok (h : TimersInv s issued) : TimersOk s := by
  refine ⟨h.rep_pending, h.rep_unique, h.pending_rep, ?_⟩
  rw [List.nodup_append]
  refine ⟨s.timers.keys_nodup, s.timerReps.keys_nodup, ?_⟩
  rintro k hk k' hk' rfl
  obtain ⟨v, hv⟩ := OrdMap.mem_keys.mp hk
  obtain ⟨r, hr⟩ := OrdMap.mem_keys.mp hk'
  exact h.seq_ne hv hr rfl

theorem timersInv_new : TimersInv (Timers.new : Timers τ) [] where
  rep_pending h := absurd h OrdMap.not_has_empty
  rep_unique h := absurd h OrdMap.not_has_empty
  pending_rep h := absurd h OrdMap.not_has_empty
  timers_seq h := absurd h OrdMap.not_has_empty
  reps_seq h := absurd h OrdMap.not_has_empty
  seq_ne h := absurd h OrdMap.not_has_empty
  issued_seq h := absurd h List.not_mem_nil
  issued_user h := absurd h List.not_mem_nil
  seq_nonneg := Int.le_refl 0

/-- The invariant depends on the entries of the two maps and on the counter. -/
theorem TimersInv.congr {s' : Timers τ} (h : TimersInv s issued)
    (h1 : ∀ k v, s'.timers.Has k v ↔ s.timers.Has k v)
    (h2 : ∀ k r, s'.timerReps.Has k r ↔ s.timerReps.Has k r)
    (h3 : s'.timerSeq = s.timerSeq) : TimersInv s' issued where
  rep_pending hr := by
    rw [h1]; exact h.rep_pending ((h2 _ _).mp hr)
  rep_unique hr ht := h.rep_unique ((h2 _ _).mp hr) ((h1 _ _).mp ht)
  pending_rep ht := by
    obtain ⟨r, hr⟩ := h.pending_rep ((h1 _ _).mp ht)
    exact ⟨r, (h2 _ _).mpr hr⟩
  timers_seq ht := by rw [h3]; exact h.timers_seq ((h1 _ _).mp ht)
  reps_seq hr := by rw [h3]; exact h.reps_seq ((h2 _ _).mp hr)
  seq_ne ht hr := h.seq_ne ((h1 _ _).mp ht) ((h2 _ _).mp hr)
  issued_seq hi := by rw [h3]; exact h.issued_seq hi
  issued_user hi ht := h.issued_user hi ((h1 _ _).mp ht)
  seq_nonneg := by rw [h3]; exact h.seq_nonneg

theorem TimersInv.refresh (h : TimersInv s issued) (now : Int) :
    TimersInv (s.refreshNearest now) issued :=
  h.congr (fun _ _ => by rw [Timers.refreshNearest_timers])
    (fun _ _ => by rw [Timers.refreshNearest_timerReps])
    (Timers.refreshNearest_timerSeq _ _)

/-! ### What each operation preserves -/

/-- Taking out a one-shot task. -/
theorem TimersInv.erase_user (h : TimersInv s issued) {k : TimerId} {t : τ}
    (hk : s.timers.Has k (.user t)) :
    TimersInv { s with timers := s.timers.erase k } issued where
  rep_pending {k' r} hr := by
    obtain ⟨hp, hat⟩ := h.rep_pending hr
    -- the entry of a record is no one-shot task
    have hne : r.timerid ≠ k := fun e => by
      cases (e ▸ hp).unique hk
    exact ⟨OrdMap.has_erase.mpr ⟨hne, hp⟩, hat⟩
  rep_unique hr ht := h.rep_unique hr (OrdMap.has_erase.mp ht).2
  pending_rep ht := h.pending_rep (OrdMap.has_erase.mp ht).2
  timers_seq ht := h.timers_seq (OrdMap.has_erase.mp ht).2
  reps_seq := h.reps_seq
  seq_ne ht := h.seq_ne (OrdMap.has_erase.mp ht).2
  issued_seq := h.issued_seq
  issued_user hi ht := h.issued_user hi (OrdMap.has_erase.mp ht).2
  seq_nonneg := h.seq_nonneg

/-- Taking out a record together with its pending entry. -/
theorem TimersInv.erase_rep (h : TimersInv s issued) {k : TimerId}
    {p : TimerRepeatable τ} (hk : s.timerReps.Has k p) :
    TimersInv { s with timers := s.timers.erase p.timerid
                       timerReps := s.timerReps.erase k } issued where
  rep_pending {k' r} hr := by
    obtain ⟨hne, hr⟩ := OrdMap.has_erase.mp hr
    obtain ⟨hp, hat⟩ := h.rep_pending hr
    -- two records do not share an entry
    have hne' : r.timerid ≠ p.timerid := fun e => by
      have := (e ▸ hp).unique (h.rep_pending hk).1
      exact hne (TimerTask.repeatable.inj this)
    exact ⟨OrdMap.has_erase.mpr ⟨hne', hp⟩, hat⟩
  rep_unique hr ht :=
    h.rep_unique (OrdMap.has_erase.mp hr).2 (OrdMap.has_erase.mp ht).2
  pending_rep {k' tr} ht := by
    obtain ⟨hne, hp⟩ := OrdMap.has_erase.mp ht
    obtain ⟨r, hr⟩ := h.pending_rep hp
    have hne' : tr ≠ k := fun e => by
      subst e
      exact hne (h.rep_unique hk hp)
    exact ⟨r, OrdMap.has_erase.mpr ⟨hne', hr⟩⟩
  timers_seq ht := h.timers_seq (OrdMap.has_erase.mp ht).2
  reps_seq hr := h.reps_seq (OrdMap.has_erase.mp hr).2
  seq_ne ht hr := h.seq_ne (OrdMap.has_erase.mp ht).2 (OrdMap.has_erase.mp hr).2
  issued_seq := h.issued_seq
  issued_user hi ht := h.issued_user hi (OrdMap.has_erase.mp ht).2
  seq_nonneg := h.seq_nonneg

/-- A fresh one-shot task whose key is handed out. -/
theorem TimersInv.add_user (h : TimersInv s issued) (milli : Int) (t : τ) :
    TimersInv { s with timerSeq := s.timerSeq + 1
                       timers := s.timers.set ⟨milli, s.timerSeq + 1⟩ (.user t) }
      (⟨milli, s.timerSeq + 1⟩ :: issued) where
  rep_pending {k r} hr := by
    obtain ⟨hp, hat⟩ := h.rep_pending hr
    -- the new key has a sequence number that no entry has
    have hne : r.timerid ≠ ⟨milli, s.timerSeq + 1⟩ := fun e => by
      have := (h.timers_seq hp).2
      rw [e] at this
      simp only at this
      omega
    exact ⟨OrdMap.has_set.mpr (Or.inr ⟨hne, hp⟩), hat⟩
  rep_unique hr ht := by
    rcases OrdMap.has_set.mp ht with ⟨-, ht⟩ | ⟨-, ht⟩
    · cases ht
    · exact h.rep_unique hr ht
  pending_rep ht := by
    rcases OrdMap.has_set.mp ht with ⟨-, ht⟩ | ⟨-, ht⟩
    · cases ht
    · exact h.pending_rep ht
  timers_seq ht := by
    have := h.seq_nonneg
    rcases OrdMap.has_set.mp ht with ⟨rfl, -⟩ | ⟨-, ht⟩
    · simp only; omega
    · have := h.timers_seq ht
      simp only; omega
  reps_seq hr := by
    have := h.reps_seq hr
    simp only; omega
  seq_ne ht hr := by
    have := h.reps_seq hr
    rcases OrdMap.has_set.mp ht with ⟨rfl, -⟩ | ⟨-, ht⟩
    · simp only; omega
    · exact h.seq_ne ht hr
  issued_seq hk := by
    rcases List.mem_cons.mp hk with rfl | hk
    · exact Int.le_refl _
    · have := h.issued_seq hk
      simp only; omega
  issued_user {k tr} hk ht := by
    rcases OrdMap.has_set.mp ht with ⟨-, ht⟩ | ⟨hne, ht⟩
    · cases ht
    · rcases List.mem_cons.mp hk with hk | hk
      · exact hne hk
      · exact h.issued_user hk ht
  seq_nonneg := by have := h.seq_nonneg; simp only; omega

/-- A record with its pending entry under a fresh key: a new record, whose
identifier is handed out, or an old one whose entry was taken out. -/
theorem TimersInv.put_rep {n : Int} {issued' : List TimerId} {k : TimerId}
    {r : TimerRepeatable τ} (h : TimersInv s issued)
    (hseq : r.timerid.second = n) (hat : r.timerid.first = r.at_)
    (hn : s.timerSeq < n) (hk : k.second < n)
    (hgone : ∀ {k'}, ¬ s.timers.Has k' (.repeatable k))
    (hk_ne : ∀ {k' v}, s.timers.Has k' v → k'.second ≠ k.second)
    (hissued : ∀ {i}, i ∈ issued' → i ∈ issued ∨ i = k) :
    TimersInv { s with timerSeq := n
                       timerReps := s.timerReps.set k r
                       timers := s.timers.set r.timerid (.repeatable k) } issued' where
  rep_pending {k' r'} hr := by
    rcases OrdMap.has_set.mp hr with ⟨rfl, rfl⟩ | ⟨hne, hr⟩
    · exact ⟨OrdMap.has_set.mpr (Or.inl ⟨rfl, rfl⟩), hat⟩
    · obtain ⟨hp, hat'⟩ := h.rep_pending hr
      have hne' : r'.timerid ≠ r.timerid := fun e => by
        have := (h.timers_seq hp).2
        rw [e] at this
        omega
      exact ⟨OrdMap.has_set.mpr (Or.inr ⟨hne', hp⟩), hat'⟩
  rep_unique {k' r' k''} hr ht := by
    rcases OrdMap.has_set.mp hr with ⟨rfl, rfl⟩ | ⟨hne, hr⟩
    · rcases OrdMap.has_set.mp ht with ⟨rfl, -⟩ | ⟨-, ht⟩
      · rfl
      · exact absurd ht hgone
    · rcases OrdMap.has_set.mp ht with ⟨-, ht⟩ | ⟨-, ht⟩
      · exact absurd (TimerTask.repeatable.inj ht) hne
      · exact h.rep_unique hr ht
  pending_rep {k' tr} ht := by
    rcases OrdMap.has_set.mp ht with ⟨-, ht⟩ | ⟨-, ht⟩
    · cases ht
      exact ⟨r, OrdMap.has_set.mpr (Or.inl ⟨rfl, rfl⟩)⟩
    · obtain ⟨r', hr'⟩ := h.pending_rep ht
      have hne : tr ≠ k := fun e => hgone (e ▸ ht)
      exact ⟨r', OrdMap.has_set.mpr (Or.inr ⟨hne, hr'⟩)⟩
  timers_seq ht := by
    have := h.seq_nonneg
    rcases OrdMap.has_set.mp ht with ⟨rfl, -⟩ | ⟨-, ht⟩
    · simp only; omega
    · have := h.timers_seq ht
      simp only; omega
  reps_seq hr := by
    rcases OrdMap.has_set.mp hr with ⟨rfl, -⟩ | ⟨-, hr⟩
    · simp only; omega
    · have := h.reps_seq hr
      simp only; omega
  seq_ne ht hr := by
    rcases OrdMap.has_set.mp ht with ⟨rfl, -⟩ | ⟨-, hp⟩
    · rcases OrdMap.has_set.mp hr with ⟨rfl, -⟩ | ⟨-, hr⟩
      · omega
      · have := h.reps_seq hr
        omega
    · rcases OrdMap.has_set.mp hr with ⟨rfl, -⟩ | ⟨-, hr⟩
      · exact hk_ne hp
      · exact h.seq_ne hp hr
  issued_seq hi := by
    rcases hissued hi with hi | rfl
    · have := h.issued_seq hi
      simp only; omega
    · simp only; omega
  issued_user {i tr} hi ht := by
    rcases OrdMap.has_set.mp ht with ⟨rfl, -⟩ | ⟨-, hp⟩
    · rcases hissued hi with hi | hi
      · have := h.issued_seq hi
        omega
      · have := congrArg TimerId.second hi
        omega
    · rcases hissued hi with hi | rfl
      · exact h.issued_user hi hp
      · exact hk_ne hp rfl
  seq_nonneg := by have := h.seq_nonneg; simp only; omega

/-- `RunAt` keeps the invariant, with its result handed out. -/
theorem TimersInv.runAt (h : TimersInv s issued) (now milli : Int) (t : τ)
    (interval : Int) :
    TimersInv (s.runAt now milli t interval).2
      ((s.runAt now milli t interval).1 :: issued) := by
  have hpos := h.seq_nonneg
  rw [Timers.runAt]
  split
  · -- the loop has ended: `TimerId()` is returned and nothing is registered
    exact { h with
      issued_seq := fun hk => by
        rcases List.mem_cons.mp hk with rfl | hk
        · exact h.seq_nonneg
        · exact h.issued_seq hk
      issued_user := fun hk ht => by
        rcases List.mem_cons.mp hk with rfl | hk
        · have := (h.timers_seq ht).1
          simp only at this
          omega
        · exact h.issued_user hk ht }
  · have hfresh : ∀ {k' v}, s.timers.Has k' v → k'.second ≠ s.timerSeq + 1 :=
      fun ht => by have := h.timers_seq ht; omega
    split
    · -- a repeating timer: one number for its identifier, one for its entry
      refine TimersInv.refresh ?_ _
      refine h.put_rep rfl rfl ?_ ?_ ?_ hfresh ?_
      · omega
      · simp only; omega
      · intro k' ht
        obtain ⟨r, hr⟩ := h.pending_rep ht
        have := h.reps_seq hr
        simp only at this
        omega
      · intro i hi
        rcases List.mem_cons.mp hi with rfl | hi
        · exact Or.inr rfl
        · exact Or.inl hi
    · -- a one-shot timer: the key is fresh, so `emplace` inserts it
      refine TimersInv.refresh ?_ _
      rw [OrdMap.insert_of_fresh fun v hv => hfresh hv rfl]
      exact h.add_user milli t

/-- `Cancel` of an identifier the caller was given keeps the invariant. -/
theorem TimersInv.cancel (h : TimersInv s issued) {timerid : TimerId}
    (hi : timerid ∈ issued) : TimersInv (s.cancel timerid).2 issued := by
  rw [Timers.cancel]
  split
  · split
    · rename_i p hp
      exact h.erase_rep (OrdMap.find?_eq_some.mp hp)
    · exact h
  · split
    · rename_i v hv
      have hv := OrdMap.find?_eq_some.mp hv
      cases v with
      | user t => exact h.erase_user hv
      | repeatable tr =>
          -- such a key is never handed out
          exact absurd hv (h.issued_user hi)
    · exact h

theorem takeDue_some {s' : Timers τ} {now : Int} {task : TimerTask τ}
    (h : s.takeDue now = some (task, s')) :
    ∃ k, s.timers.Has k task ∧ s' = { s with timers := s.timers.erase k } := by
  unfold Timers.takeDue at h
  split at h
  · cases h
  · rename_i k t hfirst
    split at h
    · simp only [Option.some.injEq, Prod.mk.injEq] at h
      obtain ⟨rfl, rfl⟩ := h
      exact ⟨k, OrdMap.first?_has hfirst, rfl⟩
    · cases h

/-- Taking the pending entry of a record out and rearming the record. -/
theorem TimersInv.rearm (h : TimersInv s issued) {tr : TimerId}
    {r : TimerRepeatable τ} (hr : s.timerReps.Has tr r) :
    TimersInv (({ s with timers := s.timers.erase r.timerid } : Timers τ).rearm tr r)
      issued := by
  have hseq := h.reps_seq hr
  -- drop the record with its entry, then put both back
  have hput : TimersInv _ issued := (h.erase_rep hr).put_rep (n := s.timerSeq + 1)
    (r := { r with at_ := r.at_ + r.interval
                   timerid := ⟨r.at_ + r.interval, s.timerSeq + 1⟩ })
    rfl rfl (by simp only; omega) (show tr.second < _ by omega)
    (fun ht => by
      obtain ⟨hne, ht⟩ := OrdMap.has_erase.mp ht
      exact hne (h.rep_unique hr ht))
    (fun ht => h.seq_ne (OrdMap.has_erase.mp ht).2 hr)
    (fun hi => Or.inl hi)
  refine hput.congr (fun k v => Iff.rfl) (fun k r' => ?_) rfl
  simp only [Timers.rearm, OrdMap.has_set, OrdMap.has_erase]
  tauto

/-- **Taking a due task out and running it to its callback**: the record that
`RepeatableTimeout` is given is still there, and the invariant holds again when
the callback starts. -/
theorem TimersInv.fire {s' : Timers τ} {now : Int} {task : TimerTask τ}
    (h : TimersInv s issued) (hdue : s.takeDue now = some (task, s')) (clock : Int) :
    ∃ r, s'.startTask clock task = some r ∧ TimersInv r.2 issued := by
  obtain ⟨k, hk, rfl⟩ := takeDue_some hdue
  cases task with
  | user t => exact ⟨_, rfl, h.erase_user hk⟩
  | repeatable tr =>
      obtain ⟨r, hr⟩ := h.pending_rep hk
      obtain rfl : k = r.timerid := h.rep_unique hr hk
      refine ⟨(r.cb, (({ s with timers := s.timers.erase r.timerid } : Timers τ).rearm
        tr r).refreshNearest clock), ?_, (h.rearm hr).refresh clock⟩
      simp only [Timers.startTask, Timers.repeatableTimeout,
        OrdMap.find?_eq_some.mpr hr, Option.map_some]

/-! ### Runs -/

/-- One step of the machine. -/
theorem timerStep_inv {s s' : TimerState τ} {a : TimerAction τ}
    (hstep : timerStep s a = some s') (h : TimersInv s.base s.issued) :
    TimersInv s'.base s'.issued := by
  cases TimerStep.of_timerStep hstep with
  | runAt huser => exact h.runAt ..
  | cancel huser hissued => exact h.cancel hissued
  | handleTimeouts hctl => exact h
  | @fire now clock task b r hctl hdue hstart =>
      obtain ⟨r', hr', hinv⟩ := h.fire hdue clock
      obtain rfl : r' = r := Option.some.inj (hr'.symm.trans hstart)
      exact hinv
  | ret hctl => exact h
  | @finish now clock hctl hdue => exact h.refresh clock
  | exit huser => exact h.congr (fun _ _ => Iff.rfl) (fun _ _ => Iff.rfl) rfl
  | clear hctl =>
      -- `Loop` is over: both maps are empty, and the counter goes on
      exact {
        rep_pending := fun hr => absurd hr OrdMap.not_has_empty
        rep_unique := fun hr => absurd hr OrdMap.not_has_empty
        pending_rep := fun ht => absurd ht OrdMap.not_has_empty
        timers_seq := fun ht => absurd ht OrdMap.not_has_empty
        reps_seq := fun hr => absurd hr OrdMap.not_has_empty
        seq_ne := fun ht => absurd ht OrdMap.not_has_empty
        issued_seq := h.issued_seq
        issued_user := fun _ ht => absurd ht OrdMap.not_has_empty
        seq_nonneg := h.seq_nonneg }

/-- The inductive invariant holds in every state a run reaches. -/
theorem timersInv_of_run {as : List (TimerAction τ)} {s : TimerState τ}
    (h : Exec.exec timerStep TimerState.init as = some s) :
    TimersInv s.base s.issued :=
  Exec.invariant (I := fun s => TimersInv s.base s.issued)
    (fun _ _ _ => timerStep_inv) h timersInv_new

/-- **The two timer maps agree in every run.**  Whatever the callers and the
callbacks do, at every moment of every run the maps agree, and a task that is
due finds the record its pointer names. -/
theorem timersOk_of_run {as : List (TimerAction τ)} {s : TimerState τ}
    (h : Exec.exec timerStep TimerState.init as = some s) :
    TimersOk s.base ∧
      ∀ now clock task b, s.base.takeDue now = some (task, b) →
        ∃ r, b.startTask clock task = some r ∧ TimersOk r.2 := by
  have hinv := timersInv_of_run h
  refine ⟨hinv.ok, fun now clock task b hdue => ?_⟩
  obtain ⟨r, hr, hr'⟩ := hinv.fire hdue clock
  exact ⟨r, hr, hr'.ok⟩

/-- A repeating timer that cancels itself in its callback. -/
theorem timersOk_of_run_cancelled :
    ∃ s : TimerState Nat, Exec.exec timerStep TimerState.init
      [.runAt 0 100 7 50, .handleTimeouts 120, .fire 120, .cancel ⟨-100, 1⟩, .ret,
        .finish 121] = some s ∧ s.base.timerReps.entries = [] ∧ TimersOk s.base := by
  have hrun : (Exec.exec timerStep (TimerState.init : TimerState Nat)
      [.runAt 0 100 7 50, .handleTimeouts 120, .fire 120, .cancel ⟨-100, 1⟩, .ret,
        .finish 121]).map (fun s => s.base.timerReps.entries) = some [] := by
    decide +kernel
  obtain ⟨s, hs, hreps⟩ := Option.map_eq_some_iff.mp hrun
  exact ⟨s, hs, hreps, (timersOk_of_run hs).1⟩

end Libet
