/-
Libet/Cancel.lean

What becomes of one timer: who its entries belong to, and what `Cancel` does.

`RunAt` hands out one identifier per timer, and from then on the timer is known
by it: a one-shot timer has the entry of `m_timers` at that very key, a
repeating one the record of `m_timerReps` at that key and the entry whose task
points at the record.  `owner` says it in one word, so that "this timer's
entries" needs no case distinction.

* `NoNewEntry` — what a step can do for a timer that exists already: it never
  gets an entry that it did not have, apart from the one that
  `RepeatableTimeout` puts back for a record.
* `Registered` — what stays true of a timer after `RunAt`: whether it is
  one-shot or repeating, and its callback.
* `Gone` — no entry is left; no later step brings one back.

`Cancel` tells the two kinds apart by the sign of `timerid.first`, which is the
deadline of a one-shot timer and the negated deadline of a repeating one.  The
main result `cancelWorks_iff` says for which deadlines that is right.
-/
import Libet.TimerRuns

namespace Libet

variable {τ : Type*}

/-! ### The entries of one timer -/

/-- The identifier that `RunAt` handed out for the timer of an entry. -/
def TimerTask.owner (k : TimerId) : TimerTask τ → TimerId
  | .user _ => k
  | .repeatable tr => tr

/-- The timer still has an entry in `m_timers`. -/
def Timers.Pending (s : Timers τ) (tid : TimerId) : Prop :=
  ∃ k v, s.timers.Has k v ∧ v.owner k = tid

/-- The step takes an entry of this timer out and runs its task. -/
def Fires (tid : TimerId) (s : TimerState τ) : TimerAction τ → Prop
  | .fire _ => s.base.timers.first?.map (fun e => e.2.owner e.1) = some tid
  | _ => False

/-- What `Cancel(tid)` has to do when the timer is pending in `s`: return true,
take out the entries of this timer and no other, and see to it that no later
pass runs it. -/
structure CancelWorks (s : TimerState τ) (tid : TimerId) : Prop where
  returns : (s.base.cancel tid).1 = true
  timers : ∀ k v, (s.base.cancel tid).2.timers.Has k v ↔
    s.base.timers.Has k v ∧ v.owner k ≠ tid
  reps : ∀ k r, (s.base.cancel tid).2.timerReps.Has k r ↔
    s.base.timerReps.Has k r ∧ k ≠ tid
  silent : ∀ as : List (TimerAction τ),
    Exec.Along timerStep (fun u a _ => ¬ Fires tid u a)
      { s with base := (s.base.cancel tid).2 } as

/-! ### What a step can do for a timer that exists -/

/-- From `s` to `s'` the timer got no entry of a new kind: an entry was there,
or it is the one of a record that was there. -/
structure NoNewEntry (tid : TimerId) (s s' : Timers τ) : Prop where
  timers : ∀ {k v}, s'.timers.Has k v → v.owner k = tid →
    s.timers.Has k v ∨ (v = .repeatable tid ∧ ∃ r, s.timerReps.Has tid r)
  reps : ∀ {r'}, s'.timerReps.Has tid r' → ∃ r, s.timerReps.Has tid r ∧ r'.cb = r.cb

variable {tid : TimerId} {s s' : Timers τ}

theorem NoNewEntry.refl (tid : TimerId) (s : Timers τ) : NoNewEntry tid s s :=
  ⟨fun h _ => Or.inl h, fun h => ⟨_, h, rfl⟩⟩

/-- Entries may disappear. -/
theorem NoNewEntry.of_subset
    (ht : ∀ {k v}, s'.timers.Has k v → s.timers.Has k v)
    (hr : ∀ {k r}, s'.timerReps.Has k r → s.timerReps.Has k r) :
    NoNewEntry tid s s' :=
  ⟨fun h _ => Or.inl (ht h), fun h => ⟨_, hr h, rfl⟩⟩

/-- `RefreshNearest` may follow. -/
theorem NoNewEntry.refresh (h : NoNewEntry tid s s') (now : Int) :
    NoNewEntry tid s (s'.refreshNearest now) := by
  constructor
  · intro k v hk
    rw [Timers.refreshNearest_timers] at hk
    exact h.timers hk
  · intro r hr
    rw [Timers.refreshNearest_timerReps] at hr
    exact h.reps hr

/-- A new timer has an identifier of its own. -/
theorem NoNewEntry.runAt (hle : tid.second ≤ s.timerSeq) (now milli : Int) (t : τ)
    (interval : Int) : NoNewEntry tid s (s.runAt now milli t interval).2 := by
  have hne : ∀ {d n : Int}, s.timerSeq < n → (⟨d, n⟩ : TimerId) ≠ tid := by
    rintro d n hn rfl
    exact absurd hle (by simpa using hn)
  simp only [Timers.runAt]
  split
  · exact .refl tid s
  · split
    · apply NoNewEntry.refresh
      constructor
      · intro k v hk hv
        rcases OrdMap.has_set.mp hk with ⟨-, rfl⟩ | ⟨-, hk⟩
        · exact absurd hv (hne (by omega))
        · exact Or.inl hk
      · intro r hr
        rcases OrdMap.has_set.mp hr with ⟨h, -⟩ | ⟨-, hr⟩
        · exact absurd h.symm (hne (by omega))
        · exact ⟨r, hr, rfl⟩
    · apply NoNewEntry.refresh
      constructor
      · intro k v hk hv
        simp only [OrdMap.insert] at hk
        split at hk
        · exact Or.inl hk
        · rcases OrdMap.has_set.mp hk with ⟨rfl, rfl⟩ | ⟨-, hk⟩
          · exact absurd hv (hne (by omega))
          · exact Or.inl hk
      · intro r hr
        exact ⟨r, hr, rfl⟩

/-- `Cancel` only takes out. -/
theorem NoNewEntry.cancel (tid : TimerId) (s : Timers τ) (timerid : TimerId) :
    NoNewEntry tid s (s.cancel timerid).2 := by
  simp only [Timers.cancel]
  split
  · split
    · apply NoNewEntry.of_subset
      · intro k v h
        exact (OrdMap.has_erase.mp h).2
      · intro k r h
        exact (OrdMap.has_erase.mp h).2
    · exact .refl tid s
  · split
    · apply NoNewEntry.of_subset
      · intro k v h
        exact (OrdMap.has_erase.mp h).2
      · intro k r h
        exact h
    · exact .refl tid s

/-- Running a due task puts an entry back only for the record it points at. -/
theorem NoNewEntry.fire {now clock : Int} {task : TimerTask τ} {r : τ × Timers τ}
    (hdue : s.takeDue now = some (task, s')) (hr : s'.startTask clock task = some r)
    (tid : TimerId) : NoNewEntry tid s r.2 := by
  obtain ⟨k, hk, rfl⟩ := takeDue_some hdue
  cases task with
  | user t =>
      cases hr
      exact .of_subset (fun h => (OrdMap.has_erase.mp h).2) fun h => h
  | repeatable tr =>
      obtain ⟨rec, hrec, rfl⟩ := Option.map_eq_some_iff.mp hr
      have hrec := OrdMap.find?_eq_some.mp hrec
      apply NoNewEntry.refresh
      constructor
      · intro k' v hk' hv
        rcases OrdMap.has_set.mp hk' with ⟨-, rfl⟩ | ⟨-, hk'⟩
        · obtain rfl : tr = tid := hv
          exact Or.inr ⟨rfl, rec, hrec⟩
        · exact Or.inl (OrdMap.has_erase.mp hk').2
      · intro r' hr'
        rcases OrdMap.has_set.mp hr' with ⟨rfl, rfl⟩ | ⟨-, hr'⟩
        · exact ⟨rec, hrec, rfl⟩
        · exact ⟨r', hr', rfl⟩

/-- **One step gives an existing timer no new entry.** -/
theorem timerStep_noNewEntry {s s' : TimerState τ} {a : TimerAction τ}
    (hstep : timerStep s a = some s') (hle : tid.second ≤ s.base.timerSeq) :
    NoNewEntry tid s.base s'.base := by
  cases TimerStep.of_timerStep hstep with
  | runAt huser => exact .runAt hle ..
  | cancel huser hissued => exact .cancel tid s.base _
  | fire hctl hdue hstart => exact .fire hdue hstart tid
  | @finish now clock hctl hdue => exact (NoNewEntry.refl tid s.base).refresh clock
  | clear hctl =>
      exact .of_subset (fun h => absurd h OrdMap.not_has_empty)
        fun h => absurd h OrdMap.not_has_empty
  | handleTimeouts hctl => exact .refl tid s.base
  | ret hctl => exact .refl tid s.base
  | exit huser => exact .of_subset (fun h => h) fun h => h

/-- Identifiers stay handed out. -/
theorem timerStep_issued {s s' : TimerState τ} {a : TimerAction τ}
    (hstep : timerStep s a = some s') : s.issued ⊆ s'.issued := by
  cases TimerStep.of_timerStep hstep with
  | runAt huser => exact List.subset_cons_self _ _
  | _ => exact fun _ h => h

/-! ### A timer from `RunAt` on -/

/-- What is true of the timer `tid` from the `RunAt` that handed it out on: it
is one-shot or repeating according to `interval`, with its callback `task`. -/
structure Registered (tid : TimerId) (task : τ) (interval : Int) (s : TimerState τ) :
    Prop where
  inv : TimersInv s.base s.issued
  issued : tid ∈ s.issued
  user : ∀ {t}, s.base.timers.Has tid (.user t) → interval = 0 ∧ t = task
  rep : ∀ {r}, s.base.timerReps.Has tid r → interval ≠ 0 ∧ r.cb = task

/-- No entry of the timer is left. -/
structure Gone (tid : TimerId) (s : TimerState τ) : Prop where
  inv : TimersInv s.base s.issued
  issued : tid ∈ s.issued
  timers : ∀ {k v}, s.base.timers.Has k v → v.owner k ≠ tid
  reps : ∀ {r}, ¬ s.base.timerReps.Has tid r

variable {σ σ' : TimerState τ} {a : TimerAction τ} {task : τ} {interval : Int}

theorem Registered.step (hstep : timerStep σ a = some σ')
    (h : Registered tid task interval σ) : Registered tid task interval σ' := by
  have hnew := timerStep_noNewEntry hstep (h.inv.issued_seq h.issued)
  refine ⟨timerStep_inv hstep h.inv, timerStep_issued hstep h.issued, ?_, ?_⟩
  · intro t ht
    rcases hnew.timers ht rfl with ht | ⟨he, -⟩
    · exact h.user ht
    · cases he
  · intro r' hr'
    obtain ⟨r, hr, hcb⟩ := hnew.reps hr'
    obtain ⟨hne, ht⟩ := h.rep hr
    exact ⟨hne, hcb.trans ht⟩

theorem Gone.step (hstep : timerStep σ a = some σ') (h : Gone tid σ) : Gone tid σ' := by
  have hnew := timerStep_noNewEntry hstep (h.inv.issued_seq h.issued)
  refine ⟨timerStep_inv hstep h.inv, timerStep_issued hstep h.issued, ?_, ?_⟩
  · intro k v hk hv
    rcases hnew.timers hk hv with hk | ⟨-, r, hr⟩
    · exact h.timers hk hv
    · exact h.reps hr
  · intro r' hr'
    obtain ⟨r, hr, -⟩ := hnew.reps hr'
    exact h.reps hr

/-- A timer without entries does not run. -/
theorem Gone.not_fires (h : Gone tid σ) : ¬ Fires tid σ a := by
  intro hf
  cases a with
  | fire clock =>
      obtain ⟨⟨k, v⟩, hfirst, hv⟩ := Option.map_eq_some_iff.mp hf
      exact h.timers (OrdMap.first?_has hfirst) hv
  | _ => exact hf

/-- **A timer without entries never runs again.** -/
theorem Gone.silent (h : Gone tid σ) (as : List (TimerAction τ)) :
    Exec.Along timerStep (fun u a _ => ¬ Fires tid u a) σ as :=
  Exec.along_of_invariant (G := fun _ _ _ => True) (I := Gone tid)
    (fun _ _ _ hstep _ => Gone.step hstep) (fun _ _ _ _ _ hg => hg.not_fires)
    (Exec.along_of_forall (fun _ _ _ _ => trivial) as σ) h

/-- **`RunAt` registers.**  The identifier it returns carries the deadline, with
the sign of the kind. -/
theorem registered_of_runAt (h : TimersInv σ.base σ.issued) (hexit : σ.base.exit = false)
    {clock milli : Int} (hstep : timerStep σ (.runAt clock milli task interval) = some σ') :
    Registered (σ.base.runAt clock milli task interval).1 task interval σ' ∧
      (σ.base.runAt clock milli task interval).1.first =
        if interval = 0 then milli else -milli := by
  have hinv := timerStep_inv hstep h
  have hfresh : ∀ {k v}, σ.base.timers.Has k v → k.second ≠ σ.base.timerSeq + 1 := by
    intro k v hk
    have := (h.timers_seq hk).2
    omega
  have hfresh' : ∀ {k r}, σ.base.timerReps.Has k r → k.second ≠ σ.base.timerSeq + 1 := by
    intro k r hk
    have := h.reps_seq hk
    omega
  simp only [timerStep] at hstep
  split at hstep
  · cases hstep
    by_cases hi : interval = 0
    · subst hi
      rw [Timers.runAt_oneShot hexit] at hinv ⊢
      refine ⟨⟨hinv, List.mem_cons_self, ?_, ?_⟩, rfl⟩
      · intro t ht
        rw [Timers.refreshNearest_timers,
          OrdMap.insert_of_fresh fun v hv => hfresh hv rfl] at ht
        rcases OrdMap.has_set.mp ht with ⟨-, ht⟩ | ⟨hne, -⟩
        · cases ht
          exact ⟨rfl, rfl⟩
        · exact absurd rfl hne
      · intro r hr
        rw [Timers.refreshNearest_timerReps] at hr
        exact absurd rfl (hfresh' hr)
    · rw [Timers.runAt_repeating hexit _ _ _ hi] at hinv ⊢
      refine ⟨⟨hinv, List.mem_cons_self, ?_, ?_⟩, (if_neg hi).symm⟩
      · -- the entry of a repeating timer is no one-shot task
        intro t ht
        rw [Timers.refreshNearest_timers] at ht
        rcases OrdMap.has_set.mp ht with ⟨-, ht⟩ | ⟨-, ht⟩
        · cases ht
        · exact absurd rfl (hfresh ht)
      · intro r hr
        rw [Timers.refreshNearest_timerReps] at hr
        rcases OrdMap.has_set.mp hr with ⟨-, rfl⟩ | ⟨hk, -⟩
        · exact ⟨hi, rfl⟩
        · exact absurd rfl hk
  · cases hstep

/-! ### What `Cancel` does to the timer -/

/-- A pending one-shot timer has one entry, at its identifier. -/
theorem Registered.oneShot (h : Registered tid task 0 σ) (hp : σ.base.Pending tid) :
    σ.base.timers.Has tid (.user task) ∧ (∀ r, ¬ σ.base.timerReps.Has tid r) ∧
      ∀ {k v}, σ.base.timers.Has k v → v.owner k = tid → k = tid := by
  have hreps : ∀ r, ¬ σ.base.timerReps.Has tid r := by
    intro r hr
    exact (h.rep hr).1 rfl
  have huser : ∀ {k v}, σ.base.timers.Has k v → v.owner k = tid → v = .user task ∧ k = tid := by
    intro k v hk hv
    cases v with
    | user t =>
        obtain rfl : k = tid := hv
        exact ⟨by rw [(h.user hk).2], rfl⟩
    | repeatable tr =>
        obtain rfl : tr = tid := hv
        obtain ⟨r, hr⟩ := h.inv.pending_rep hk
        exact absurd hr (hreps r)
  obtain ⟨k, v, hk, hv⟩ := hp
  obtain ⟨rfl, rfl⟩ := huser hk hv
  exact ⟨hk, hreps, fun hk hv => (huser hk hv).2⟩

/-- A pending repeating timer has one record and one entry. -/
theorem Registered.repeating (h : Registered tid task interval σ) (hi : interval ≠ 0)
    (hp : σ.base.Pending tid) :
    ∃ r, σ.base.timerReps.Has tid r ∧ (∀ v, ¬ σ.base.timers.Has tid v) ∧
      ∀ {k v}, σ.base.timers.Has k v → (v.owner k = tid ↔ k = r.timerid) := by
  have hrep : ∀ {k v}, σ.base.timers.Has k v → v.owner k = tid → v = .repeatable tid := by
    intro k v hk hv
    cases v with
    | user t =>
        obtain rfl : k = tid := hv
        exact absurd (h.user hk).1 hi
    | repeatable tr => exact congrArg _ hv
  obtain ⟨k, v, hk, hv⟩ := hp
  obtain rfl := hrep hk hv
  obtain ⟨r, hr⟩ := h.inv.pending_rep hk
  refine ⟨r, hr, ?_, ?_⟩
  · intro v hv
    exact h.inv.seq_ne hv hr rfl
  · intro k' v' hk'
    constructor
    · intro hv'
      obtain rfl := hrep hk' hv'
      exact h.inv.rep_unique hr hk'
    · rintro rfl
      rw [hk'.unique (h.inv.rep_pending hr).1]
      rfl

/-- `Cancel` works once it returned true and took out exactly this timer. -/
theorem Registered.cancelWorks (h : Registered tid task interval σ)
    (hret : (σ.base.cancel tid).1 = true)
    (ht : ∀ k v, (σ.base.cancel tid).2.timers.Has k v ↔
      σ.base.timers.Has k v ∧ v.owner k ≠ tid)
    (hr : ∀ k r, (σ.base.cancel tid).2.timerReps.Has k r ↔
      σ.base.timerReps.Has k r ∧ k ≠ tid) : CancelWorks σ tid := by
  refine ⟨hret, ht, hr, fun as => ?_⟩
  apply Gone.silent
  refine ⟨h.inv.cancel h.issued, h.issued, ?_, ?_⟩
  · intro k v hk
    exact ((ht k v).mp hk).2
  · intro r hk
    exact ((hr tid r).mp hk).2 rfl

/-- The branch of `Cancel` for one-shot tasks does right by a one-shot timer. -/
theorem Registered.cancelWorks_oneShot (h : Registered tid task 0 σ)
    (hp : σ.base.Pending tid) (hsign : 0 ≤ tid.first) : CancelWorks σ tid := by
  obtain ⟨hk, hreps, honly⟩ := h.oneShot hp
  have hc : σ.base.cancel tid =
      (true, { σ.base with timers := σ.base.timers.erase tid }) := by
    simp only [Timers.cancel, if_neg (not_lt.mpr hsign), OrdMap.find?_eq_some.mpr hk]
  apply h.cancelWorks
  · rw [hc]
  · intro k v
    rw [hc, OrdMap.has_erase]
    constructor
    · rintro ⟨hne, hv⟩
      exact ⟨hv, fun ho => hne (honly hv ho)⟩
    · rintro ⟨hv, ho⟩
      refine ⟨?_, hv⟩
      rintro rfl
      rw [hv.unique hk] at ho
      exact ho rfl
  · intro k r
    rw [hc]
    constructor
    · intro hr
      refine ⟨hr, ?_⟩
      rintro rfl
      exact hreps r hr
    · intro hr
      exact hr.1

/-- The branch of `Cancel` for repeating tasks does right by a repeating timer. -/
theorem Registered.cancelWorks_repeating (h : Registered tid task interval σ)
    (hi : interval ≠ 0) (hp : σ.base.Pending tid) (hsign : tid.first < 0) :
    CancelWorks σ tid := by
  obtain ⟨p, hk, -, honly⟩ := h.repeating hi hp
  have hc : σ.base.cancel tid =
      (true, { σ.base with timers := σ.base.timers.erase p.timerid
                           timerReps := σ.base.timerReps.erase tid }) := by
    simp only [Timers.cancel, if_pos hsign, OrdMap.find?_eq_some.mpr hk]
  apply h.cancelWorks
  · rw [hc]
  · intro k v
    rw [hc, OrdMap.has_erase]
    constructor
    · rintro ⟨hne, hv⟩
      exact ⟨hv, fun ho => hne ((honly hv).mp ho)⟩
    · rintro ⟨hv, ho⟩
      exact ⟨fun he => ho ((honly hv).mpr he), hv⟩
  · intro k r
    rw [hc, OrdMap.has_erase]
    exact and_comm

/-- In the wrong branch `Cancel` finds nothing. -/
theorem Registered.cancel_wrong_branch (h : Registered tid task interval σ)
    (hp : σ.base.Pending tid)
    (hsign : if interval = 0 then tid.first < 0 else 0 ≤ tid.first) :
    σ.base.cancel tid = (false, σ.base) := by
  split at hsign
  · rename_i hi
    subst hi
    obtain ⟨-, hreps, -⟩ := h.oneShot hp
    simp only [Timers.cancel, if_pos hsign, OrdMap.find?_eq_none.mpr hreps]
  · rename_i hi
    obtain ⟨r, -, hnone, -⟩ := h.repeating hi hp
    simp only [Timers.cancel, if_neg (not_lt.mpr hsign), OrdMap.find?_eq_none.mpr hnone]

/-! ### `Cancel` in every run -/

/-- **When `Cancel` works.**  In every run, for a timer that `RunAt` registered
and that is still pending: `Cancel` of its identifier returns true, takes out
exactly its entries and silences it for good if and only if the sign of the
identifier shows its kind, that is, the deadline is not negative for a one-shot
timer and positive for a repeating one.  `RunAt(0, task, 1000)` has no negative
identifier. -/
theorem cancelWorks_iff {as bs : List (TimerAction τ)} {s s₁ s' : TimerState τ}
    {clock milli interval : Int} {task : τ}
    (hrun : Exec.exec timerStep TimerState.init as = some s)
    (hexit : s.base.exit = false)
    (hreg : timerStep s (.runAt clock milli task interval) = some s₁)
    (hrun' : Exec.exec timerStep s₁ bs = some s')
    (hpending : s'.base.Pending (s.base.runAt clock milli task interval).1) :
    CancelWorks s' (s.base.runAt clock milli task interval).1 ↔
      if interval = 0 then 0 ≤ milli else 0 < milli := by
  obtain ⟨hstart, hfirst⟩ := registered_of_runAt (timersInv_of_run hrun) hexit hreg
  have h := Exec.invariant (fun _ _ _ => Registered.step) hrun' hstart
  constructor
  · intro hw
    by_contra hneg
    have hfalse := h.cancel_wrong_branch hpending (by
      rw [hfirst]
      split at hneg <;> split <;> omega)
    have := hw.returns
    rw [hfalse] at this
    cases this
  · intro hsign
    split at hsign
    · rename_i hi
      subst hi
      apply h.cancelWorks_oneShot hpending
      rw [hfirst, if_pos rfl]
      exact hsign
    · rename_i hi
      apply h.cancelWorks_repeating hi hpending
      rw [hfirst, if_neg hi]
      omega

/-- A repeating timer that fired twice and is cancelled in between passes. -/
theorem cancelWorks_repeating_fired :
    ∃ s₁ s' : TimerState Nat,
      timerStep TimerState.init (.runAt 0 100 7 50) = some s₁ ∧
      Exec.exec timerStep s₁ [.handleTimeouts 160, .fire 160, .ret, .fire 160, .ret,
        .finish 161] = some s' ∧ CancelWorks s' ⟨-100, 1⟩ := by
  refine ⟨_, _, rfl, rfl, ?_⟩
  apply (@cancelWorks_iff Nat [] [.handleTimeouts 160, .fire 160, .ret, .fire 160, .ret,
    .finish 161] TimerState.init _ _ 0 100 50 7 rfl rfl rfl rfl ?_).mpr
  · decide
  · exact ⟨⟨200, 4⟩, .repeatable ⟨-100, 1⟩, by decide +kernel, rfl⟩

/-- **`RunAt(0, task, 1000)` cannot be cancelled.**  The timer is pending right
after its registration, and `Cancel` returns false and takes nothing out. -/
theorem not_cancelWorks_runAt_zero :
    ¬ ∀ (as bs : List (TimerAction Nat)) (s s₁ s' : TimerState Nat)
      (clock milli interval : Int) (task : Nat),
      Exec.exec timerStep TimerState.init as = some s → s.base.exit = false →
      0 ≤ interval →
      timerStep s (.runAt clock milli task interval) = some s₁ →
      Exec.exec timerStep s₁ bs = some s' →
      s'.base.Pending (s.base.runAt clock milli task interval).1 →
      CancelWorks s' (s.base.runAt clock milli task interval).1 := by
  intro hall
  have hw := hall [] [] TimerState.init _ _ 0 0 1000 7 rfl rfl (by decide) rfl rfl
    ⟨⟨0, 2⟩, .repeatable ⟨0, 1⟩, by decide +kernel, rfl⟩
  exact absurd hw.returns (by decide +kernel)

end Libet
