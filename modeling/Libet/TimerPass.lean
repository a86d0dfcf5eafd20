/-
Libet/TimerPass.lean

One pass of `HandleTimeouts`.

The loop of the pass takes the first entry of `m_timers` out as long as its
deadline is not above `now`, and the callbacks it runs may register and cancel
timers; a repeating timer is back in the map, one interval later, before its
callback starts.  The pass is therefore a run of the machine from the head of
the loop, and what it did is read off the events of the run.

* `PassInv` — the relation between the entries at the start of the pass, the
  entries now, and the events in between; every step keeps it (`PassInv.step`).
* `PassDone` — what the pass has done when it is over.

Main result: `handleTimeouts_pass`.  Sequence numbers have to stay below the
`1LL << 62` that the loop compares with: a timer rearmed under a greater number
at the deadline `now` would be left behind (`pass_leaves_due_entry`).  Deadlines are
taken to fit into an `int64_t`.
-/
import Libet.Cancel
import Mathlib.Algebra.Order.BigOperators.Group.List
import Mathlib.Algebra.Order.Group.Nat

namespace Libet

variable {τ : Type*}

/-! ### The order of the keys -/

theorem TimerId.lt_iff {s t : TimerId} :
    s < t ↔ s.first < t.first ∨ s.first = t.first ∧ s.second < t.second :=
  Prod.Lex.toLex_lt_toLex

/-- A greater deadline is a greater key. -/
theorem TimerId.lt_of_first_lt {s t : TimerId} (h : s.first < t.first) : s < t :=
  TimerId.lt_iff.mpr (Or.inl h)

theorem TimerId.first_le_of_lt {s t : TimerId} (h : s < t) : s.first ≤ t.first := by
  rcases TimerId.lt_iff.mp h with h | ⟨h, -⟩
  · exact h.le
  · exact h.le

/-! ### What one operation does to the entries that exist -/

variable {s s' : Timers τ} {issued : List TimerId}

/-- `s'` has the entries of `s` and new ones, all with the deadline `milli`. -/
structure OnlyAdds (milli : Int) (s s' : Timers τ) : Prop where
  seq_le : s.timerSeq ≤ s'.timerSeq
  timers_old : ∀ {k v}, s.timers.Has k v → s'.timers.Has k v
  timers_new : ∀ {k v}, s'.timers.Has k v →
    s.timers.Has k v ∨ s.timerSeq < k.second ∧ k.first = milli
  reps_old : ∀ {k r}, s.timerReps.Has k r → s'.timerReps.Has k r
  reps_new : ∀ {k r}, s'.timerReps.Has k r →
    s.timerReps.Has k r ∨ s.timerSeq < k.second ∧ r.at_ = milli

theorem OnlyAdds.refresh {milli : Int} (h : OnlyAdds milli s s') (now : Int) :
    OnlyAdds milli s (s'.refreshNearest now) := by
  constructor
  · rw [Timers.refreshNearest_timerSeq]
    exact h.seq_le
  · intro k v hk
    rw [Timers.refreshNearest_timers]
    exact h.timers_old hk
  · intro k v hk
    rw [Timers.refreshNearest_timers] at hk
    exact h.timers_new hk
  · intro k r hr
    rw [Timers.refreshNearest_timerReps]
    exact h.reps_old hr
  · intro k r hr
    rw [Timers.refreshNearest_timerReps] at hr
    exact h.reps_new hr

/-- **What `RunAt` can do**: it takes nothing out. -/
theorem TimersInv.runAt_onlyAdds (h : TimersInv s issued) (now milli : Int) (t : τ)
    (interval : Int) : OnlyAdds milli s (s.runAt now milli t interval).2 := by
  have hkey : ∀ {k v} {n : Int}, s.timerSeq < n → s.timers.Has k v → k ≠ ⟨milli, n⟩ := by
    rintro k v n hn hk rfl
    exact absurd (h.timers_seq hk).2 (not_le.mpr hn)
  have htid : ∀ {k r} {d n : Int}, s.timerSeq < n → s.timerReps.Has k r → k ≠ ⟨d, n⟩ := by
    rintro k r d n hn hk rfl
    exact absurd (h.reps_seq hk) (not_le.mpr hn)
  -- an entry of `m_timers` with a new number
  have hold : ∀ {n : Int} {x : TimerTask τ}, s.timerSeq < n → ∀ {k v}, s.timers.Has k v →
      (s.timers.set ⟨milli, n⟩ x).Has k v := by
    intro n x hn k v hk
    exact OrdMap.has_set.mpr (Or.inr ⟨hkey hn hk, hk⟩)
  have hnew : ∀ {n : Int} {x : TimerTask τ}, s.timerSeq < n → ∀ {k v},
      (s.timers.set ⟨milli, n⟩ x).Has k v →
      s.timers.Has k v ∨ s.timerSeq < k.second ∧ k.first = milli := by
    intro n x hn k v hk
    rcases OrdMap.has_set.mp hk with ⟨rfl, -⟩ | ⟨-, hk⟩
    · exact Or.inr ⟨hn, rfl⟩
    · exact Or.inl hk
  cases hexit : s.exit with
  | true =>
      simp only [Timers.runAt, hexit, if_true]
      exact ⟨le_refl _, id, Or.inl, id, Or.inl⟩
  | false =>
      by_cases hi : interval = 0
      · subst hi
        rw [Timers.runAt_oneShot hexit,
          OrdMap.insert_of_fresh fun v hv => hkey (by omega) hv rfl]
        apply OnlyAdds.refresh
        exact ⟨by simp only; omega, hold (by omega), hnew (by omega), id, Or.inl⟩
      · rw [Timers.runAt_repeating hexit _ _ _ hi]
        apply OnlyAdds.refresh
        refine ⟨by simp only; omega, hold (by omega), hnew (by omega), ?_, ?_⟩
        · intro k r hr
          exact OrdMap.has_set.mpr (Or.inr ⟨htid (by omega) hr, hr⟩)
        · intro k r hr
          rcases OrdMap.has_set.mp hr with ⟨rfl, rfl⟩ | ⟨-, hr⟩
          · exact Or.inr ⟨by simp only; omega, rfl⟩
          · exact Or.inl hr

/-- **What `Cancel` can do**: nothing, or it takes out one repeating timer, or
one one-shot timer. -/
theorem TimersInv.cancel_cases (h : TimersInv s issued) {timerid : TimerId}
    (hi : timerid ∈ issued) :
    s.cancel timerid = (false, s) ∨
    (∃ p, s.timerReps.Has timerid p ∧
      s.cancel timerid = (true, { s with timers := s.timers.erase p.timerid
                                         timerReps := s.timerReps.erase timerid })) ∨
    ∃ t, s.timers.Has timerid (.user t) ∧
      s.cancel timerid = (true, { s with timers := s.timers.erase timerid }) := by
  simp only [Timers.cancel]
  split
  · split
    · rename_i p hp
      exact Or.inr (Or.inl ⟨p, OrdMap.find?_eq_some.mp hp, rfl⟩)
    · exact Or.inl rfl
  · split
    · rename_i v hv
      have hv := OrdMap.find?_eq_some.mp hv
      cases v with
      | user t => exact Or.inr (Or.inr ⟨t, hv, rfl⟩)
      | repeatable tr => exact absurd hv (h.issued_user hi)
    · exact Or.inl rfl

/-- The task that the loop takes out is the first one, and it is due. -/
theorem takeDue_first {now : Int} {task : TimerTask τ}
    (hdue : s.takeDue now = some (task, s')) :
    ∃ k, s.timers.first? = some (k, task) ∧ k < ⟨now, 2 ^ 62⟩ ∧
      s' = { s with timers := s.timers.erase k } := by
  simp only [Timers.takeDue] at hdue
  split at hdue
  · cases hdue
  · rename_i k t hfirst
    split at hdue
    · rename_i hlt
      cases hdue
      exact ⟨k, hfirst, hlt, rfl⟩
    · cases hdue

/-- When the loop ends, no key is below the one it compares with. -/
theorem takeDue_none {now : Int} (hdue : (s.takeDue now).isNone) {k : TimerId}
    {v : TimerTask τ} (hk : s.timers.Has k v) : ⟨now, 2 ^ 62⟩ ≤ k := by
  simp only [Timers.takeDue] at hdue
  split at hdue
  · rename_i hfirst
    exact absurd hk (OrdMap.first?_eq_none hfirst)
  · rename_i k' t hfirst
    split at hdue
    · cases hdue
    · rename_i hlt
      exact (not_lt.mp hlt).trans (OrdMap.first?_le hfirst hk)

/-- The state when the callback of a repeating timer starts: the entry was taken
out and the record rearmed. -/
def Timers.rearmed (s : Timers τ) (clock : Int) (tr : TimerId) (r : TimerRepeatable τ) :
    Timers τ :=
  (({ s with timers := s.timers.erase r.timerid } : Timers τ).rearm tr r).refreshNearest clock

/-- What one turn of the loop does, up to the caller's code: a one-shot task is
taken out; a repeating one is put back one interval later under a new number. -/
inductive Turn (s : Timers τ) : TimerId → TimerTask τ → Timers τ → Prop
  | user {k t} (hk : s.timers.Has k (.user t)) :
      Turn s k (.user t) { s with timers := s.timers.erase k }
  | repeatable {tr r} (hr : s.timerReps.Has tr r) (clock : Int) :
      Turn s r.timerid (.repeatable tr) (s.rearmed clock tr r)

/-- **What the step `fire` does.** -/
theorem timerStep_fire {σ σ' : TimerState τ} {clock : Int}
    (h : TimersInv σ.base σ.issued) (hstep : timerStep σ (.fire clock) = some σ') :
    ∃ now k v, σ.control = .loopHead now ∧ σ.base.timers.first? = some (k, v) ∧
      k < ⟨now, 2 ^ 62⟩ ∧ σ'.control = .callback now ∧ Turn σ.base k v σ'.base := by
  cases TimerStep.of_timerStep hstep with
  | @fire now _ task b x hctl hdue hstart =>
      obtain ⟨k, hfirst, hlt, rfl⟩ := takeDue_first hdue
      refine ⟨now, k, task, hctl, hfirst, hlt, rfl, ?_⟩
      have hk := OrdMap.first?_has hfirst
      cases task with
      | user t =>
          cases hstart
          exact .user hk
      | repeatable tr =>
          obtain ⟨r, hfind, rfl⟩ := Option.map_eq_some_iff.mp hstart
          have hr : σ.base.timerReps.Has tr r := OrdMap.find?_eq_some.mp hfind
          obtain rfl : k = r.timerid := h.rep_unique hr hk
          exact .repeatable hr clock

/-! ### The events of a pass -/

/-- What a pass does to the timers: an entry is taken out and its task run, or
`Cancel` takes a timer out (and returns true). -/
inductive PassEvent (τ : Type*)
  | ran (k : TimerId) (task : TimerTask τ)
  | cancelled (timerid : TimerId)

/-- The events of one step. -/
def passEvents (σ : TimerState τ) : TimerAction τ → List (PassEvent τ)
  | .fire _ => σ.base.timers.first?.toList.map fun e => .ran e.1 e.2
  | .cancel timerid => if (σ.base.cancel timerid).1 then [.cancelled timerid] else []
  | _ => []

/-- The key of the entry that was run. -/
def PassEvent.ranKey : PassEvent τ → Option TimerId
  | .ran k _ => some k
  | .cancelled _ => none

/-- The keys that were run, in order. -/
def ranKeys (l : List (PassEvent τ)) : List TimerId := l.filterMap PassEvent.ranKey

/-- The callback of the timer `tid` is run. -/
def PassEvent.runs (tid : TimerId) : PassEvent τ → Bool
  | .ran k task => task.owner k = tid
  | .cancelled _ => false

/-- How often the callback of the timer `tid` was run. -/
def runsOf (tid : TimerId) (l : List (PassEvent τ)) : Nat := l.countP (PassEvent.runs tid)

variable {l : List (PassEvent τ)} {tid k : TimerId} {task : TimerTask τ}

@[simp] theorem ranKeys_append_ran :
    ranKeys (l ++ [.ran k task]) = ranKeys l ++ [k] := by
  simp [ranKeys, PassEvent.ranKey]

@[simp] theorem ranKeys_append_cancelled :
    ranKeys (l ++ [.cancelled tid]) = ranKeys l := by
  simp [ranKeys, PassEvent.ranKey]

theorem mem_ranKeys : k ∈ ranKeys l ↔ ∃ task, .ran k task ∈ l := by
  simp only [ranKeys, List.mem_filterMap]
  constructor
  · rintro ⟨e, he, hk⟩
    cases e with
    | ran k' task =>
        cases hk
        exact ⟨task, he⟩
    | cancelled timerid => cases hk
  · rintro ⟨task, he⟩
    exact ⟨_, he, rfl⟩

/-- One more run, of this timer. -/
theorem runsOf_append_self (h : task.owner k = tid) :
    runsOf tid (l ++ [.ran k task]) = runsOf tid l + 1 := by
  simp [runsOf, PassEvent.runs, h]

/-- One more run, of another timer. -/
theorem runsOf_append_other (h : task.owner k ≠ tid) :
    runsOf tid (l ++ [.ran k task]) = runsOf tid l := by
  simp [runsOf, PassEvent.runs, h]

@[simp] theorem runsOf_append_cancelled {timerid : TimerId} :
    runsOf tid (l ++ [.cancelled timerid]) = runsOf tid l := by
  simp [runsOf, PassEvent.runs]

/-! ### The invariant of a pass -/

/-- The record after `n` firings. -/
def TimerRepeatable.after (r : TimerRepeatable τ) (n : Nat) (timerid : TimerId) :
    TimerRepeatable τ :=
  { r with at_ := r.at_ + n * r.interval, timerid := timerid }

/-- What became of a one-shot timer that was pending when the pass began. -/
inductive OneShotStatus (k : TimerId) (t : τ) (s : Timers τ) (l : List (PassEvent τ)) : Prop
  | waiting (pending : s.timers.Has k (.user t)) (runs : runsOf k l = 0)
      (kept : .cancelled k ∉ l)
  | ran (gone : ∀ {v}, ¬ s.timers.Has k v) (runs : runsOf k l = 1)
      (kept : .cancelled k ∉ l)
  | cancelled (gone : ∀ {v}, ¬ s.timers.Has k v) (runs : runsOf k l = 0)
      (dropped : .cancelled k ∈ l)

/-- What became of a repeating timer that was pending when the pass began, with
the record `r`. -/
inductive RepeatingStatus (now : Int) (tid : TimerId) (r : TimerRepeatable τ)
    (s : Timers τ) (l : List (PassEvent τ)) : Prop
  | ticking (q : TimerId) (pending : s.timerReps.Has tid (r.after (runsOf tid l) q))
      (due : ∀ i : Nat, i < runsOf tid l → r.at_ + i * r.interval ≤ now)
      (kept : .cancelled tid ∉ l)
  | cancelled (gone : ∀ {r'}, ¬ s.timerReps.Has tid r')
      (due : ∀ i : Nat, i < runsOf tid l → r.at_ + i * r.interval ≤ now)
      (dropped : .cancelled tid ∈ l)

/-- A repeating timer, cancelled or not, only fired for deadlines up to `now`. -/
theorem RepeatingStatus.due {now : Int} {r : TimerRepeatable τ} {s : Timers τ}
    (h : RepeatingStatus now tid r s l) :
    ∀ i : Nat, i < runsOf tid l → r.at_ + i * r.interval ≤ now := by
  cases h with
  | ticking q pending due kept => exact due
  | cancelled gone due dropped => exact due

/-- The entries `s₀` at the start of a pass, the entries `s` now, and the events
`l` in between. -/
structure PassInv (now : Int) (s₀ s : Timers τ) (l : List (PassEvent τ)) : Prop where
  seq_le : s₀.timerSeq ≤ s.timerSeq
  user_old : ∀ {k t}, s.timers.Has k (.user t) →
    s₀.timers.Has k (.user t) ∨ s₀.timerSeq < k.second ∧ now < k.first
  rep_old : ∀ {tid r}, s.timerReps.Has tid r →
    (∃ r₀, s₀.timerReps.Has tid r₀) ∨ s₀.timerSeq < tid.second ∧ now < r.at_
  oneShot : ∀ {k t}, s₀.timers.Has k (.user t) → OneShotStatus k t s l
  repeating : ∀ {tid r}, s₀.timerReps.Has tid r → RepeatingStatus now tid r s l
  order : (ranKeys l).Pairwise (· < ·)
  ahead : ∀ {k k' v}, k ∈ ranKeys l → s.timers.Has k' v → k < k'
  ran_due : ∀ {k task}, .ran k task ∈ l → k.first ≤ now ∧
    ∃ k₀ v₀, s₀.timers.Has k₀ v₀ ∧ k₀.first ≤ now ∧ v₀.owner k₀ = task.owner k

variable {now : Int} {s₀ : Timers τ} {issued₀ : List TimerId}

theorem PassInv.init (now : Int) (s₀ : Timers τ) : PassInv now s₀ s₀ [] where
  seq_le := le_refl _
  user_old h := Or.inl h
  rep_old h := Or.inl ⟨_, h⟩
  oneShot h := .waiting h rfl List.not_mem_nil
  repeating {_ r} h := .ticking r.timerid (by
    simp only [TimerRepeatable.after, runsOf, List.countP_nil]
    simpa using h) (fun _ hi => absurd hi (Nat.not_lt_zero _)) List.not_mem_nil
  order := List.Pairwise.nil
  ahead h := absurd h List.not_mem_nil
  ran_due h := absurd h List.not_mem_nil

theorem PassInv.ranKey_le (h : PassInv now s₀ s l) (hk : k ∈ ranKeys l) : k.first ≤ now := by
  obtain ⟨task, ht⟩ := mem_ranKeys.mp hk
  exact (h.ran_due ht).1

/-- A callback registers a timer for later. -/
theorem PassInv.onlyAdds {milli : Int} (h : PassInv now s₀ s l) (h₀ : TimersInv s₀ issued₀)
    (hadd : OnlyAdds milli s s') (hlater : now < milli) : PassInv now s₀ s' l where
  seq_le := h.seq_le.trans hadd.seq_le
  user_old hk := by
    rcases hadd.timers_new hk with hk | ⟨hseq, hfirst⟩
    · exact h.user_old hk
    · exact Or.inr ⟨lt_of_le_of_lt h.seq_le hseq, hfirst ▸ hlater⟩
  rep_old hr := by
    rcases hadd.reps_new hr with hr | ⟨hseq, hat⟩
    · exact h.rep_old hr
    · exact Or.inr ⟨lt_of_le_of_lt h.seq_le hseq, hat ▸ hlater⟩
  oneShot {k t} hk := by
    -- a new key has a number above that of `k`
    have hgone : (∀ {v}, ¬ s.timers.Has k v) → ∀ {v}, ¬ s'.timers.Has k v := by
      intro hgone v hv
      rcases hadd.timers_new hv with hv | ⟨hseq, -⟩
      · exact hgone hv
      · exact absurd ((h₀.timers_seq hk).2.trans h.seq_le) (not_le.mpr hseq)
    cases h.oneShot hk with
    | waiting pending runs kept => exact .waiting (hadd.timers_old pending) runs kept
    | ran gone runs kept => exact .ran (hgone gone) runs kept
    | cancelled gone runs dropped => exact .cancelled (hgone gone) runs dropped
  repeating {tid r} hr := by
    cases h.repeating hr with
    | ticking q pending due kept => exact .ticking q (hadd.reps_old pending) due kept
    | cancelled gone due dropped =>
        refine .cancelled ?_ due dropped
        intro r' hr'
        rcases hadd.reps_new hr' with hr' | ⟨hseq, -⟩
        · exact gone hr'
        · exact absurd ((h₀.reps_seq hr).trans h.seq_le) (not_le.mpr hseq)
  order := h.order
  ahead hk hk' := by
    rcases hadd.timers_new hk' with hk' | ⟨-, hfirst⟩
    · exact h.ahead hk hk'
    · apply TimerId.lt_of_first_lt
      have := h.ranKey_le hk
      omega
  ran_due := h.ran_due

/-- A pending one-shot timer of the start and a record have different
identifiers. -/
theorem PassInv.oneShot_ne (h : PassInv now s₀ s l) (h₀ : TimersInv s₀ issued₀) {v}
    (hk : s₀.timers.Has k v) {r} (hr : s.timerReps.Has tid r) : k ≠ tid := by
  rintro rfl
  rcases h.rep_old hr with ⟨r₀, hr₀⟩ | ⟨hseq, -⟩
  · exact h₀.seq_ne hk hr₀ rfl
  · exact absurd (h₀.timers_seq hk).2 (not_le.mpr hseq)

/-- A repeating timer of the start and a one-shot entry have different
identifiers. -/
theorem PassInv.repeating_ne (h : PassInv now s₀ s l) (h₀ : TimersInv s₀ issued₀) {r}
    (hr : s₀.timerReps.Has tid r) {t} (hk : s.timers.Has k (.user t)) : k ≠ tid := by
  rintro rfl
  rcases h.user_old hk with hk₀ | ⟨hseq, -⟩
  · exact h₀.seq_ne hk₀ hr rfl
  · exact absurd (h₀.reps_seq hr) (not_le.mpr hseq)

/-- A callback cancels a repeating timer. -/
theorem PassInv.cancel_rep (h : PassInv now s₀ s l) (h₀ : TimersInv s₀ issued₀)
    (hs : TimersInv s issued) {p : TimerRepeatable τ} (hp : s.timerReps.Has tid p) :
    PassInv now s₀ { s with timers := s.timers.erase p.timerid
                            timerReps := s.timerReps.erase tid } (l ++ [.cancelled tid]) where
  seq_le := h.seq_le
  user_old hk := h.user_old (OrdMap.has_erase.mp hk).2
  rep_old hr := h.rep_old (OrdMap.has_erase.mp hr).2
  oneShot {k t} hk := by
    have hne : k ≠ tid := h.oneShot_ne h₀ hk hp
    have hmem : (.cancelled k ∈ l ++ [.cancelled tid] : Prop) ↔ .cancelled k ∈ l := by
      simp [hne]
    cases h.oneShot hk with
    | waiting pending runs kept =>
        refine .waiting ?_ (by simpa using runs) (hmem.not.mpr kept)
        -- the entry of the record is no one-shot task
        refine OrdMap.has_erase.mpr ⟨?_, pending⟩
        rintro rfl
        cases pending.unique (hs.rep_pending hp).1
    | ran gone runs kept =>
        exact .ran (fun hv => gone (OrdMap.has_erase.mp hv).2) (by simpa using runs)
          (hmem.not.mpr kept)
    | cancelled gone runs dropped =>
        exact .cancelled (fun hv => gone (OrdMap.has_erase.mp hv).2) (by simpa using runs)
          (hmem.mpr dropped)
  repeating {tid' r} hr := by
    have hruns : runsOf tid' (l ++ [.cancelled tid]) = runsOf tid' l :=
      runsOf_append_cancelled
    by_cases he : tid' = tid
    · subst he
      refine .cancelled (fun hr' => (OrdMap.has_erase.mp hr').1 rfl) ?_ (by simp)
      rw [hruns]
      exact (h.repeating hr).due
    · have hmem : (.cancelled tid' ∈ l ++ [.cancelled tid] : Prop) ↔ .cancelled tid' ∈ l := by
        simp [he]
      cases h.repeating hr with
      | ticking q pending due kept =>
          refine .ticking q ?_ ?_ (hmem.not.mpr kept)
          · rw [hruns]
            exact OrdMap.has_erase.mpr ⟨he, pending⟩
          · rw [hruns]
            exact due
      | cancelled gone due dropped =>
          refine .cancelled (fun hr' => gone (OrdMap.has_erase.mp hr').2) ?_
            (hmem.mpr dropped)
          rw [hruns]
          exact due
  order := by
    rw [ranKeys_append_cancelled]
    exact h.order
  ahead hk hk' := by
    rw [ranKeys_append_cancelled] at hk
    exact h.ahead hk (OrdMap.has_erase.mp hk').2
  ran_due hk := h.ran_due (by simpa using hk)

/-- The entry of a one-shot timer disappears, and an event `e` of the timer is
the reason. -/
theorem PassInv.erase_user (h : PassInv now s₀ s l) (h₀ : TimersInv s₀ issued₀) {t : τ}
    (hk : s.timers.Has k (.user t)) {e : PassEvent τ}
    (he : ∀ {tid}, tid ≠ k → runsOf tid (l ++ [e]) = runsOf tid l ∧
      (.cancelled tid ∈ l ++ [e] ↔ .cancelled tid ∈ l))
    (hself : runsOf k l = 0 → .cancelled k ∉ l → ∀ {s' : Timers τ},
      (∀ {v}, ¬ s'.timers.Has k v) → OneShotStatus k t s' (l ++ [e]))
    (horder : (ranKeys (l ++ [e])).Pairwise (· < ·))
    (hahead : ∀ {k₁ k' v}, k₁ ∈ ranKeys (l ++ [e]) →
      (s.timers.erase k).Has k' v → k₁ < k')
    (hdue : ∀ {k₁ task}, .ran k₁ task ∈ l ++ [e] → k₁.first ≤ now ∧
      ∃ k₀ v₀, s₀.timers.Has k₀ v₀ ∧ k₀.first ≤ now ∧ v₀.owner k₀ = task.owner k₁) :
    PassInv now s₀ { s with timers := s.timers.erase k } (l ++ [e]) where
  seq_le := h.seq_le
  user_old hk := h.user_old (OrdMap.has_erase.mp hk).2
  rep_old hr := h.rep_old hr
  oneShot {k' t'} hk' := by
    by_cases hkk : k' = k
    · subst hkk
      cases h.oneShot hk' with
      | waiting pending runs kept =>
          cases hk.unique pending
          exact hself runs kept fun hv => (OrdMap.has_erase.mp hv).1 rfl
      | ran gone runs kept => exact absurd hk gone
      | cancelled gone runs dropped => exact absurd hk gone
    · obtain ⟨hruns, hmem⟩ := he hkk
      cases h.oneShot hk' with
      | waiting pending runs kept =>
          exact .waiting (OrdMap.has_erase.mpr ⟨hkk, pending⟩) (hruns.trans runs)
            (hmem.not.mpr kept)
      | ran gone runs kept =>
          exact .ran (fun hv => gone (OrdMap.has_erase.mp hv).2) (hruns.trans runs)
            (hmem.not.mpr kept)
      | cancelled gone runs dropped =>
          exact .cancelled (fun hv => gone (OrdMap.has_erase.mp hv).2) (hruns.trans runs)
            (hmem.mpr dropped)
  repeating {tid' r} hr := by
    obtain ⟨hruns, hmem⟩ := he (h.repeating_ne h₀ hr hk).symm
    cases h.repeating hr with
    | ticking q pending due kept =>
        refine .ticking q ?_ ?_ (hmem.not.mpr kept)
        · rw [hruns]
          exact pending
        · rw [hruns]
          exact due
    | cancelled gone due dropped =>
        refine .cancelled gone ?_ (hmem.mpr dropped)
        rw [hruns]
        exact due
  order := horder
  ahead := hahead
  ran_due := hdue

/-- A callback cancels a one-shot timer. -/
theorem PassInv.cancel_user (h : PassInv now s₀ s l) (h₀ : TimersInv s₀ issued₀) {t : τ}
    (hk : s.timers.Has k (.user t)) :
    PassInv now s₀ { s with timers := s.timers.erase k } (l ++ [.cancelled k]) := by
  apply h.erase_user h₀ hk
  · intro tid hne
    exact ⟨runsOf_append_cancelled, by simp [hne]⟩
  · intro runs kept s' gone
    exact .cancelled gone (by simpa using runs) (by simp)
  · rw [ranKeys_append_cancelled]
    exact h.order
  · intro k₁ k' v hk₁ hk'
    rw [ranKeys_append_cancelled] at hk₁
    exact h.ahead hk₁ (OrdMap.has_erase.mp hk').2
  · intro k₁ task hk₁
    exact h.ran_due (by simpa using hk₁)

/-- The key that is taken out next is above all keys taken out before. -/
theorem PassInv.order_ran (h : PassInv now s₀ s l) {v : TimerTask τ} (hk : s.timers.Has k v)
    (task : TimerTask τ) : (ranKeys (l ++ [.ran k task])).Pairwise (· < ·) := by
  rw [ranKeys_append_ran, List.pairwise_append]
  refine ⟨h.order, List.pairwise_singleton _ _, ?_⟩
  intro k₁ hk₁ k₂ hk₂
  obtain rfl := List.mem_singleton.mp hk₂
  exact h.ahead hk₁ hk

/-- The loop runs a one-shot task. -/
theorem PassInv.turn_user (h : PassInv now s₀ s l) (h₀ : TimersInv s₀ issued₀) {t : τ}
    (hfirst : s.timers.first? = some (k, .user t)) (hle : k.first ≤ now) :
    PassInv now s₀ { s with timers := s.timers.erase k } (l ++ [.ran k (.user t)]) := by
  have hk := OrdMap.first?_has hfirst
  apply h.erase_user h₀ hk
  · intro tid hne
    exact ⟨runsOf_append_other hne.symm, by simp⟩
  · intro runs kept s' gone
    refine .ran gone ?_ (by simpa using kept)
    rw [runsOf_append_self (show (TimerTask.user t).owner k = k from rfl), runs]
  · exact h.order_ran hk _
  · intro k₁ k' v hk₁ herase
    obtain ⟨hne, hk'⟩ := OrdMap.has_erase.mp herase
    rw [ranKeys_append_ran, List.mem_append, List.mem_singleton] at hk₁
    rcases hk₁ with hk₁ | rfl
    · exact h.ahead hk₁ hk'
    · exact lt_of_le_of_ne (OrdMap.first?_le hfirst hk') hne.symm
  · intro k₁ task hk₁
    simp only [List.mem_append, List.mem_singleton, PassEvent.ran.injEq] at hk₁
    rcases hk₁ with hk₁ | ⟨rfl, rfl⟩
    · exact h.ran_due hk₁
    · rcases h.user_old hk with hk₀ | ⟨-, hlt⟩
      · exact ⟨hle, k₁, .user t, hk₀, hle, rfl⟩
      · exact absurd hle (not_le.mpr hlt)

/-- The entries after a repeating timer was rearmed. -/
theorem has_rearmed_timers {tr : TimerId} {r : TimerRepeatable τ} {clock : Int} {k v} :
    (s.rearmed clock tr r).timers.Has k v ↔
      (k = ⟨r.at_ + r.interval, s.timerSeq + 1⟩ ∧ v = .repeatable tr) ∨
        k ≠ ⟨r.at_ + r.interval, s.timerSeq + 1⟩ ∧ k ≠ r.timerid ∧ s.timers.Has k v := by
  rw [Timers.rearmed, Timers.refreshNearest_timers, Timers.rearm, OrdMap.has_set,
    OrdMap.has_erase]

/-- The records after a repeating timer was rearmed. -/
theorem has_rearmed_reps {tr : TimerId} {r : TimerRepeatable τ} {clock : Int} {k r'} :
    (s.rearmed clock tr r).timerReps.Has k r' ↔
      (k = tr ∧ r' = { r with at_ := r.at_ + r.interval
                              timerid := ⟨r.at_ + r.interval, s.timerSeq + 1⟩ }) ∨
        k ≠ tr ∧ s.timerReps.Has k r' := by
  rw [Timers.rearmed, Timers.refreshNearest_timerReps, Timers.rearm, OrdMap.has_set]

theorem rearmed_timerSeq (s : Timers τ) (clock : Int) (tr : TimerId) (r : TimerRepeatable τ) :
    (s.rearmed clock tr r).timerSeq = s.timerSeq + 1 := by
  rw [Timers.rearmed, Timers.refreshNearest_timerSeq]
  rfl

/-! ### A firing of a repeating timer -/

section Rearmed

variable {tr : TimerId} {r r₀ : TimerRepeatable τ} {q : TimerId} {clock : Int}

/-- The record of a repeating timer that is due has been there from the start
of the pass and has moved on by its interval once per firing. -/
theorem PassInv.due_rep (h : PassInv now s₀ s l) (hr : s.timerReps.Has tr r)
    (hle : r.at_ ≤ now) :
    ∃ r₀ q, s₀.timerReps.Has tr r₀ ∧ r = r₀.after (runsOf tr l) q ∧
      (∀ i : Nat, i < runsOf tr l → r₀.at_ + i * r₀.interval ≤ now) ∧ .cancelled tr ∉ l := by
  rcases h.rep_old hr with ⟨r₀, hr₀⟩ | ⟨-, hlt⟩
  · cases h.repeating hr₀ with
    | ticking q pending due kept => exact ⟨r₀, q, hr₀, hr.unique pending, due, kept⟩
    | cancelled gone due dropped => exact absurd hr gone
  · exact absurd hle (not_le.mpr hlt)

/-- One firing more. -/
theorem TimerRepeatable.after_rearm (r : TimerRepeatable τ) (n : Nat) (q q' : TimerId) :
    { r.after n q with at_ := (r.after n q).at_ + (r.after n q).interval, timerid := q' } =
      r.after (n + 1) q' := by
  simp only [TimerRepeatable.after, TimerRepeatable.mk.injEq, and_true]
  rw [Nat.cast_succ, add_one_mul, add_assoc]

/-- The one-shot timers are not touched. -/
theorem PassInv.rearmed_oneShot (h : PassInv now s₀ s l) (h₀ : TimersInv s₀ issued₀)
    (hs : TimersInv s issued) (hr : s.timerReps.Has tr r) {t : τ}
    (hk : s₀.timers.Has k (.user t)) :
    OneShotStatus k t (s.rearmed clock tr r) (l ++ [.ran r.timerid (.repeatable tr)]) := by
  have hne : tr ≠ k := (h.oneShot_ne h₀ hk hr).symm
  have hruns : runsOf k (l ++ [.ran r.timerid (.repeatable tr)]) = runsOf k l :=
    runsOf_append_other hne
  have hnew : k ≠ ⟨r.at_ + r.interval, s.timerSeq + 1⟩ := by
    rintro rfl
    have := (h₀.timers_seq hk).2.trans h.seq_le
    simp only at this
    omega
  have hgone : (∀ {v}, ¬ s.timers.Has k v) →
      ∀ {v}, ¬ (s.rearmed clock tr r).timers.Has k v := by
    intro gone v hv
    rcases has_rearmed_timers.mp hv with ⟨he, -⟩ | ⟨-, -, hv⟩
    · exact hnew he
    · exact gone hv
  cases h.oneShot hk with
  | waiting pending runs kept =>
      refine .waiting (has_rearmed_timers.mpr (Or.inr ⟨hnew, ?_, pending⟩))
        (hruns.trans runs) (by simpa using kept)
      -- the entry of the record is no one-shot task
      rintro rfl
      cases pending.unique (hs.rep_pending hr).1
  | ran gone runs kept => exact .ran (hgone gone) (hruns.trans runs) (by simpa using kept)
  | cancelled gone runs dropped =>
      exact .cancelled (hgone gone) (hruns.trans runs) (by simpa using dropped)

/-- The timer itself fired once more, the other repeating timers are not
touched. -/
theorem PassInv.rearmed_repeating (h : PassInv now s₀ s l) (hr : s.timerReps.Has tr r)
    (hle : r.at_ ≤ now) {r' : TimerRepeatable τ} (hr' : s₀.timerReps.Has tid r') :
    RepeatingStatus now tid r' (s.rearmed clock tr r)
      (l ++ [.ran r.timerid (.repeatable tr)]) := by
  by_cases he : tid = tr
  · subst he
    obtain ⟨r₀, q, hr₀, rfl, hdue, hkept⟩ := h.due_rep hr hle
    obtain rfl : r' = r₀ := hr'.unique hr₀
    have hruns : runsOf tid (l ++ [.ran (r'.after (runsOf tid l) q).timerid
        (.repeatable tid)]) = runsOf tid l + 1 :=
      runsOf_append_self rfl
    refine .ticking ⟨(r'.after (runsOf tid l) q).at_ + r'.interval, s.timerSeq + 1⟩ ?_ ?_
      (by simpa using hkept)
    · rw [hruns, ← TimerRepeatable.after_rearm r' (runsOf tid l) q]
      exact has_rearmed_reps.mpr (Or.inl ⟨rfl, rfl⟩)
    · intro i hi
      rw [hruns] at hi
      rcases Nat.lt_succ_iff_lt_or_eq.mp hi with hi | rfl
      · exact hdue i hi
      · exact hle
  · have hruns : runsOf tid (l ++ [.ran r.timerid (.repeatable tr)]) = runsOf tid l :=
      runsOf_append_other (Ne.symm he)
    cases h.repeating hr' with
    | ticking q' pending due kept =>
        refine .ticking q' ?_ ?_ (by simpa using kept)
        · rw [hruns]
          exact has_rearmed_reps.mpr (Or.inr ⟨he, pending⟩)
        · rw [hruns]
          exact due
    | cancelled gone due dropped =>
        refine .cancelled ?_ (by rw [hruns]; exact due) (by simpa using dropped)
        intro r'' hr''
        rcases has_rearmed_reps.mp hr'' with ⟨hk, -⟩ | ⟨-, hr''⟩
        · exact he hk
        · exact gone hr''

/-- The loop runs a repeating task: the timer fires once more and is pending
again one interval later. -/
theorem PassInv.turn_repeatable (h : PassInv now s₀ s l) (h₀ : TimersInv s₀ issued₀)
    (hs : TimersInv s issued) (hint : ∀ {k r}, s₀.timerReps.Has k r → 0 < r.interval)
    (hr : s.timerReps.Has tr r)
    (hfirst : s.timers.first? = some (r.timerid, .repeatable tr))
    (hle : r.timerid.first ≤ now) :
    PassInv now s₀ (s.rearmed clock tr r) (l ++ [.ran r.timerid (.repeatable tr)]) := by
  obtain ⟨hpending, hat⟩ := hs.rep_pending hr
  rw [hat] at hle
  obtain ⟨r₀, q, hr₀, hafter, -, -⟩ := h.due_rep hr hle
  have hpos : 0 < r₀.interval := hint hr₀
  have hinterval : r.interval = r₀.interval := by rw [hafter]; rfl
  have hnext : r.timerid < ⟨r.at_ + r.interval, s.timerSeq + 1⟩ :=
    TimerId.lt_of_first_lt (by rw [hat, hinterval]; exact lt_add_of_pos_right _ hpos)
  constructor
  · rw [rearmed_timerSeq]
    exact h.seq_le.trans (by omega)
  · intro k t hk
    rcases has_rearmed_timers.mp hk with ⟨-, hk⟩ | ⟨-, -, hk⟩
    · cases hk
    · exact h.user_old hk
  · intro k r' hr'
    rcases has_rearmed_reps.mp hr' with ⟨rfl, -⟩ | ⟨-, hr'⟩
    · exact Or.inl ⟨r₀, hr₀⟩
    · exact h.rep_old hr'
  · intro k t hk
    exact h.rearmed_oneShot h₀ hs hr hk
  · intro k r' hr'
    exact h.rearmed_repeating hr hle hr'
  · exact h.order_ran hpending _
  · intro k₁ k' v hk₁ hk'
    rw [ranKeys_append_ran, List.mem_append, List.mem_singleton] at hk₁
    have hle₁ : k₁ ≤ r.timerid := by
      rcases hk₁ with hk₁ | rfl
      · exact (h.ahead hk₁ hpending).le
      · exact le_refl _
    rcases has_rearmed_timers.mp hk' with ⟨rfl, -⟩ | ⟨-, hne, hk'⟩
    · exact lt_of_le_of_lt hle₁ hnext
    · exact lt_of_le_of_lt hle₁ (lt_of_le_of_ne (OrdMap.first?_le hfirst hk') hne.symm)
  · intro k₁ task hk₁
    simp only [List.mem_append, List.mem_singleton, PassEvent.ran.injEq] at hk₁
    rcases hk₁ with hk₁ | ⟨rfl, rfl⟩
    · exact h.ran_due hk₁
    · obtain ⟨hpend₀, hat₀⟩ := h₀.rep_pending hr₀
      refine ⟨hat.trans_le hle, r₀.timerid, .repeatable tr, hpend₀, ?_, rfl⟩
      have hn : 0 ≤ (runsOf tr l : Int) * r₀.interval :=
        mul_nonneg (Int.natCast_nonneg _) hpos.le
      have hr_at : r.at_ = r₀.at_ + runsOf tr l * r₀.interval := by rw [hafter]; rfl
      omega

end Rearmed

/-! ### Steps and runs of a pass -/

/-- What happens inside a pass: callbacks register timers for later only, and
the loop does not end. -/
def InPass (now : Int) (_ : TimerState τ) : TimerAction τ → TimerState τ → Prop
  | .runAt _ milli _ _, _ => now < milli
  | .finish _, _ => False
  | _, _ => True

instance (now : Int) (σ σ' : TimerState τ) :
    ∀ a : TimerAction τ, Decidable (InPass now σ a σ')
  | .runAt _ milli _ _ => inferInstanceAs (Decidable (now < milli))
  | .finish _ => isFalse id
  | .cancel _ | .handleTimeouts _ | .fire _ | .ret | .exit | .clear => isTrue trivial

/-- A moment of the pass that began with the entries `s₀`. -/
structure PassState (now : Int) (s₀ : Timers τ) (σ : TimerState τ)
    (l : List (PassEvent τ)) : Prop where
  inv : TimersInv σ.base σ.issued
  control : σ.control = .loopHead now ∨ σ.control = .callback now
  pass : PassInv now s₀ σ.base l

theorem PassState.now_eq {σ : TimerState τ} (h : PassState now s₀ σ l) {now' : Int}
    (hctl : σ.control = .loopHead now') : now' = now := by
  rcases h.control with hc | hc
  · exact TimerControl.loopHead.inj (hctl.symm.trans hc)
  · cases hctl.symm.trans hc

/-- A turn of the loop, of either kind. -/
theorem PassInv.turn (h : PassInv now s₀ s l) (h₀ : TimersInv s₀ issued₀)
    (hs : TimersInv s issued) (hint : ∀ {k r}, s₀.timerReps.Has k r → 0 < r.interval)
    {s' : Timers τ} {v : TimerTask τ} (hturn : Turn s k v s')
    (hfirst : s.timers.first? = some (k, v)) (hle : k.first ≤ now) :
    PassInv now s₀ s' (l ++ [.ran k v]) := by
  cases hturn with
  | user hk => exact h.turn_user h₀ hfirst hle
  | repeatable hr clock => exact h.turn_repeatable h₀ hs hint hr hfirst hle

/-- **One step of a pass.** -/
theorem PassState.step (h₀ : TimersInv s₀ issued₀)
    (hint : ∀ {k r}, s₀.timerReps.Has k r → 0 < r.interval)
    {σ σ' : TimerState τ} {a : TimerAction τ} (hstep : timerStep σ a = some σ')
    (htame : InPass now σ a σ') (h : PassState now s₀ σ l) :
    PassState now s₀ σ' (l ++ passEvents σ a) := by
  have hinv := timerStep_inv hstep h.inv
  have hturn := fun clock (ha : a = .fire clock) => timerStep_fire h.inv (ha ▸ hstep)
  cases TimerStep.of_timerStep hstep with
  | runAt huser =>
      show PassState now s₀ _ (l ++ [])
      rw [List.append_nil]
      exact ⟨hinv, h.control, h.pass.onlyAdds h₀ (h.inv.runAt_onlyAdds ..) htame⟩
  | cancel huser hissued =>
      refine ⟨hinv, h.control, ?_⟩
      rw [passEvents]
      rcases h.inv.cancel_cases hissued with he | ⟨p, hp, he⟩ | ⟨t, ht, he⟩
      · rw [he]
        simpa using h.pass
      · rw [he]
        exact h.pass.cancel_rep h₀ h.inv hp
      · rw [he]
        exact h.pass.cancel_user h₀ ht
  | @fire _ clock =>
      obtain ⟨now', k, v, hctl, hfirst, hlt, hctl', hturn⟩ := hturn clock rfl
      obtain rfl := h.now_eq hctl
      have hle := TimerId.first_le_of_lt hlt
      have hev : passEvents σ (.fire clock) = [.ran k v] := by
        rw [passEvents, hfirst]
        rfl
      rw [hev]
      exact ⟨hinv, Or.inr hctl', h.pass.turn h₀ h.inv hint hturn hfirst hle⟩
  | finish hctl hdue => exact absurd htame id
  | ret hctl =>
      show PassState now s₀ _ (l ++ [])
      rw [List.append_nil]
      refine ⟨hinv, Or.inl ?_, h.pass⟩
      rcases h.control with hc | hc
      · cases hctl.symm.trans hc
      · exact congrArg TimerControl.loopHead (TimerControl.callback.inj (hctl.symm.trans hc))
  | exit huser =>
      show PassState now s₀ _ (l ++ [])
      rw [List.append_nil]
      have hadd : OnlyAdds (now + 1) σ.base { σ.base with exit := true } :=
        ⟨le_refl _, id, Or.inl, id, Or.inl⟩
      exact ⟨hinv, h.control, h.pass.onlyAdds h₀ hadd (by omega)⟩
  | handleTimeouts hctl => rcases h.control with hc | hc <;> cases hctl.symm.trans hc
  | clear hctl => rcases h.control with hc | hc <;> cases hctl.symm.trans hc

/-- **The invariant of a pass holds in every run of it.** -/
theorem passState_of_run {pre as : List (TimerAction τ)} {σ σ' : TimerState τ}
    (hrun : Exec.exec timerStep TimerState.init pre = some σ)
    (hctl : σ.control = .loopHead now)
    (hint : ∀ k r, σ.base.timerReps.Has k r → 0 < r.interval)
    (htame : Exec.Along timerStep (InPass now) σ as)
    (hpass : Exec.exec timerStep σ as = some σ') :
    PassState now σ.base σ' (Exec.trace timerStep passEvents σ as) := by
  have h₀ := timersInv_of_run hrun
  have hstart : PassState now σ.base σ [] := ⟨h₀, Or.inl hctl, .init now σ.base⟩
  have hstep : ∀ u a u' l, timerStep u a = some u' → InPass now u a u' →
      PassState now σ.base u l → PassState now σ.base u' (l ++ passEvents u a) := by
    intro u a u' l hs htame h
    exact h.step h₀ (hint _ _) hs htame
  simpa using Exec.history_along hstep htame hpass hstart

/-! ### The pass ends -/

/-- The number of deadlines `at_ + i * interval` up to `now`. -/
def TimerRepeatable.dueCount (r : TimerRepeatable τ) (now : Int) : Nat :=
  ((now - r.at_) / r.interval).toNat + 1

/-- How often the timer of an entry can run in a pass. -/
def entryBound (now : Int) (s : Timers τ) (e : TimerId × TimerTask τ) : Nat :=
  match e.2 with
  | .user _ => 1
  | .repeatable tr =>
      match s.timerReps.find? tr with
      | some r => r.dueCount now
      | none => 0

/-- The entries that are due when the pass begins. -/
def dueEntries (now : Int) (s : Timers τ) : List (TimerId × TimerTask τ) :=
  s.timers.entries.filter fun e => e.1.first ≤ now

/-- How many callbacks a pass can run. -/
def passBound (now : Int) (s : Timers τ) : Nat :=
  ((dueEntries now s).map (entryBound now s)).sum

def TimerAction.isFire : TimerAction τ → Bool
  | .fire _ => true
  | _ => false

/-- Every run belongs to a timer, so the runs are counted timer by timer. -/
theorem ranKeys_length_le (D : List TimerId) :
    ∀ {l : List (PassEvent τ)}, (∀ {k task}, .ran k task ∈ l → task.owner k ∈ D) →
      (ranKeys l).length ≤ (D.map fun tid => runsOf tid l).sum
  | [], _ => Nat.zero_le _
  | .cancelled timerid :: l, h => by
      have ih := ranKeys_length_le D fun hk => h (List.mem_cons_of_mem _ hk)
      have hkeys : ranKeys (.cancelled timerid :: l) = ranKeys l := rfl
      rw [hkeys]
      simpa [runsOf, PassEvent.runs] using ih
  | .ran k task :: l, h => by
      have ih := ranKeys_length_le D fun hk => h (List.mem_cons_of_mem _ hk)
      have hone : 1 ≤ (D.map fun tid => if task.owner k = tid then 1 else 0).sum := by
        apply List.le_sum_of_mem
        exact List.mem_map.mpr ⟨task.owner k, h List.mem_cons_self, if_pos rfl⟩
      have hsum : (D.map fun tid => runsOf tid (.ran k task :: l)).sum =
          (D.map fun tid => runsOf tid l).sum +
            (D.map fun tid => if task.owner k = tid then 1 else 0).sum := by
        rw [← List.sum_map_add]
        congr 1
        apply List.map_congr_left
        intro tid _
        simp [runsOf, PassEvent.runs, List.countP_cons]
      rw [hsum]
      have hlen : (ranKeys (.ran k task :: l)).length = (ranKeys l).length + 1 := by
        simp [ranKeys, PassEvent.ranKey]
      omega

/-- A repeating timer runs at most once per deadline up to `now`. -/
theorem RepeatingStatus.runsOf_le {r : TimerRepeatable τ} (h : RepeatingStatus now tid r s l)
    (hpos : 0 < r.interval) : runsOf tid l ≤ r.dueCount now := by
  cases hn : runsOf tid l with
  | zero => exact Nat.zero_le _
  | succ n =>
      have hlast := h.due n (by omega)
      have : (n : Int) ≤ (now - r.at_) / r.interval :=
        Int.le_ediv_of_mul_le hpos (by omega)
      simp only [TimerRepeatable.dueCount]
      omega

/-- The timer of a due entry stays within the bound of the entry. -/
theorem PassInv.runsOf_le (h : PassInv now s₀ s l) (h₀ : TimersInv s₀ issued₀)
    (hint : ∀ {k r}, s₀.timerReps.Has k r → 0 < r.interval) {e : TimerId × TimerTask τ}
    (he : s₀.timers.Has e.1 e.2) : runsOf (e.2.owner e.1) l ≤ entryBound now s₀ e := by
  obtain ⟨k, v⟩ := e
  cases v with
  | user t =>
      show runsOf k l ≤ 1
      cases h.oneShot he with
      | waiting pending runs kept => exact runs.trans_le (Nat.zero_le 1)
      | ran gone runs kept => exact runs.le
      | cancelled gone runs dropped => exact runs.trans_le (Nat.zero_le 1)
  | repeatable tr =>
      obtain ⟨r, hr⟩ := h₀.pending_rep he
      simp only [entryBound, OrdMap.find?_eq_some.mpr hr]
      exact (h.repeating hr).runsOf_le (hint hr)

/-- **A pass runs a bounded number of callbacks.** -/
theorem PassInv.ran_le_passBound (h : PassInv now s₀ s l) (h₀ : TimersInv s₀ issued₀)
    (hint : ∀ {k r}, s₀.timerReps.Has k r → 0 < r.interval) :
    (ranKeys l).length ≤ passBound now s₀ := by
  have hD : ∀ {k task}, .ran k task ∈ l →
      task.owner k ∈ (dueEntries now s₀).map fun e => e.2.owner e.1 := by
    intro k task hk
    obtain ⟨-, k₀, v₀, hk₀, hle, howner⟩ := h.ran_due hk
    refine List.mem_map.mpr ⟨(k₀, v₀), ?_, howner⟩
    exact List.mem_filter.mpr ⟨hk₀, decide_eq_true hle⟩
  calc (ranKeys l).length
      ≤ (((dueEntries now s₀).map fun e => e.2.owner e.1).map fun tid => runsOf tid l).sum :=
        ranKeys_length_le _ hD
    _ = ((dueEntries now s₀).map fun e => runsOf (e.2.owner e.1) l).sum := by
        rw [List.map_map]
        rfl
    _ ≤ passBound now s₀ := by
        apply List.sum_le_sum
        intro e he
        exact h.runsOf_le h₀ hint (List.mem_of_mem_filter he)

/-- Every turn of the loop takes one entry out. -/
theorem countP_isFire : ∀ {as : List (TimerAction τ)} {σ σ' : TimerState τ},
    TimersInv σ.base σ.issued → Exec.exec timerStep σ as = some σ' →
      as.countP TimerAction.isFire =
        (ranKeys (Exec.trace timerStep passEvents σ as)).length
  | [], _, _, _, _ => rfl
  | a :: as, σ, σ', h, hrun => by
      obtain ⟨u, hu, hrest⟩ := Exec.exec_cons_some hrun
      have ih := countP_isFire (timerStep_inv hu h) hrest
      rw [Exec.trace_cons hu, List.countP_cons, ih]
      have hone : (ranKeys (passEvents σ a)).length =
          if a.isFire = true then 1 else 0 := by
        cases a with
        | fire clock =>
            obtain ⟨now, k, v, -, hfirst, -⟩ := timerStep_fire h hu
            simp [passEvents, hfirst, ranKeys, PassEvent.ranKey, TimerAction.isFire]
        | cancel timerid =>
            simp only [passEvents]
            split <;> rfl
        | _ => rfl
      have happ : ∀ l₁ l₂ : List (PassEvent τ), ranKeys (l₁ ++ l₂) = ranKeys l₁ ++ ranKeys l₂ :=
        fun _ _ => List.filterMap_append
      rw [happ, List.length_append, hone]
      omega

/-- **A pass is never stuck**: the loop runs the next task or ends, and a
callback can return. -/
theorem PassState.progress {σ : TimerState τ} (h : PassState now s₀ σ l) (clock : Int) :
    (timerStep σ (.fire clock)).isSome ∨ (timerStep σ (.finish clock)).isSome ∨
      (timerStep σ .ret).isSome := by
  rcases h.control with hctl | hctl
  · cases hdue : σ.base.takeDue now with
    | none =>
        right
        left
        simp [timerStep, hctl, hdue]
    | some x =>
        left
        obtain ⟨task, b⟩ := x
        obtain ⟨r, hr, -⟩ := h.inv.fire hdue clock
        simp [timerStep, hctl, hdue, hr]
  · right
    right
    simp [timerStep, hctl]

/-! ### What a pass has done -/

/-- What a pass has done, from the entries `s₀` at its start to the entries `s`
at its end, by the events `l`.  A timer counts as cancelled when `Cancel` took
it out. -/
structure PassDone (now : Int) (s₀ s : Timers τ) (l : List (PassEvent τ)) : Prop where
  /-- no entry that is due is left -/
  nothing_due : ∀ {k v}, s.timers.Has k v → now < k.first
  /-- a one-shot timer that was due ran exactly once, unless it was cancelled -/
  oneShot : ∀ {k t}, s₀.timers.Has k (.user t) → k.first ≤ now →
    (.cancelled k ∉ l → runsOf k l = 1) ∧ (.cancelled k ∈ l → runsOf k l = 0)
  /-- a repeating timer that was due and was not cancelled ran once for each of
  its deadlines up to `now`, and is pending at the first one above -/
  repeating : ∀ {tid r}, s₀.timerReps.Has tid r → r.at_ ≤ now → .cancelled tid ∉ l →
    runsOf tid l = r.dueCount now ∧
    (∃ q, s.timerReps.Has tid (r.after (r.dueCount now) q) ∧
      s.timers.Has q (.repeatable tid) ∧ q.first = r.at_ + r.dueCount now * r.interval) ∧
    now < r.at_ + r.dueCount now * r.interval ∧
    ∀ i : Nat, i < r.dueCount now → r.at_ + i * r.interval ≤ now
  /-- nothing ran before its deadline -/
  ran_due : ∀ {k task}, .ran k task ∈ l → k.first ≤ now
  /-- deadlines never decrease, and ties are in the order of the numbers -/
  order : (ranKeys l).Pairwise (· < ·)

/-- The deadlines `at_ + i * interval` up to `now` are `dueCount` many. -/
theorem TimerRepeatable.eq_dueCount {r : TimerRepeatable τ} (hpos : 0 < r.interval) {n : Nat}
    (hle : n ≤ r.dueCount now) (hn : now < r.at_ + n * r.interval) (hat : r.at_ ≤ now) :
    n = r.dueCount now := by
  have hlt : (now - r.at_) / r.interval < n := Int.ediv_lt_of_lt_mul hpos (by omega)
  have hnn : 0 ≤ (now - r.at_) / r.interval := Int.ediv_nonneg (by omega) hpos.le
  simp only [TimerRepeatable.dueCount] at hle ⊢
  omega

/-- At the end of the loop everything due has run. -/
theorem PassState.done {σ : TimerState τ} (h : PassState now s₀ σ l)
    (hint : ∀ {k r}, s₀.timerReps.Has k r → 0 < r.interval)
    (hdue : (σ.base.takeDue now).isNone) (hseq : σ.base.timerSeq < 2 ^ 62) (clock : Int) :
    PassDone now s₀ (σ.base.refreshNearest clock) l := by
  -- numbers are below the one the loop compares with, so deadlines decide
  have hlater : ∀ {k v}, σ.base.timers.Has k v → now < k.first := by
    intro k v hk
    have hle := takeDue_none hdue hk
    have hk_seq := (h.inv.timers_seq hk).2
    by_contra hnot
    exact absurd hle (not_le.mpr (TimerId.lt_iff.mpr (by simp only; omega)))
  constructor
  · intro k v hk
    rw [Timers.refreshNearest_timers] at hk
    exact hlater hk
  · intro k t hk hle
    cases h.pass.oneShot hk with
    | waiting pending runs kept => exact absurd hle (not_le.mpr (hlater pending))
    | ran gone runs kept => exact ⟨fun _ => runs, fun hc => absurd hc kept⟩
    | cancelled gone runs dropped => exact ⟨fun hc => absurd dropped hc, fun _ => runs⟩
  · intro tid r hr hat hkept
    cases h.pass.repeating hr with
    | cancelled gone due dropped => exact absurd dropped hkept
    | ticking q pending due kept =>
        obtain ⟨hentry, hfirst⟩ := h.inv.rep_pending pending
        have hnext : now < r.at_ + runsOf tid l * r.interval := by
          have := hlater hentry
          rw [hfirst] at this
          exact this
        have hcount : runsOf tid l = r.dueCount now :=
          TimerRepeatable.eq_dueCount (hint hr)
            ((h.pass.repeating hr).runsOf_le (hint hr)) hnext hat
        rw [hcount] at pending due hnext hfirst hentry
        refine ⟨hcount, ⟨q, ?_, ?_, hfirst⟩, hnext, due⟩
        · rw [Timers.refreshNearest_timerReps]
          exact pending
        · rw [Timers.refreshNearest_timers]
          exact hentry
  · intro k task hk
    exact (h.pass.ran_due hk).1
  · exact h.pass.order

/-- **One pass of `HandleTimeouts` ends and runs exactly what is due.**  From
every reachable state whose repeating timers have positive intervals, whatever
the callbacks do besides registering timers for later and cancelling: the loop
runs at most `passBound` callbacks and is never stuck, and when it ends with the
sequence numbers still below `1LL << 62`, the pass has done `PassDone`. -/
theorem handleTimeouts_pass {pre as : List (TimerAction τ)} {s s' : TimerState τ}
    (hrun : Exec.exec timerStep TimerState.init pre = some s)
    (hctl : s.control = .loopHead now)
    (hint : ∀ k r, s.base.timerReps.Has k r → 0 < r.interval)
    (htame : Exec.Along timerStep (InPass now) s as)
    (hpass : Exec.exec timerStep s as = some s') :
    as.countP TimerAction.isFire ≤ passBound now s.base ∧
    (∀ clock, (timerStep s' (.fire clock)).isSome ∨ (timerStep s' (.finish clock)).isSome ∨
      (timerStep s' .ret).isSome) ∧
    ∀ clock s'', timerStep s' (.finish clock) = some s'' → s''.base.timerSeq < 2 ^ 62 →
      PassDone now s.base s''.base (Exec.trace timerStep passEvents s as) := by
  have h₀ := timersInv_of_run hrun
  have h := passState_of_run hrun hctl hint htame hpass
  refine ⟨?_, h.progress, ?_⟩
  · rw [countP_isFire h₀ hpass]
    exact h.pass.ran_le_passBound h₀ (hint _ _)
  · intro clock s'' hfinish hseq
    cases TimerStep.of_timerStep hfinish with
    | @finish now' _ hctl' hdue =>
        obtain rfl := h.now_eq hctl'
        rw [Timers.refreshNearest_timerSeq] at hseq
        exact h.done (hint _ _) hdue hseq clock

/-- A pass at 120 with a one-shot timer for 100 and a repeating one for 50, 80,
110 and so on, whose second callback registers a timer for 200. -/
theorem handleTimeouts_pass_mixed :
    ∃ s s' s'' : TimerState Nat,
      Exec.exec timerStep TimerState.init
        [.runAt 0 100 7 0, .runAt 0 50 8 30, .handleTimeouts 120] = some s ∧
      Exec.exec timerStep s [.fire 120, .ret, .fire 120, .runAt 120 200 9 0, .ret,
        .fire 121, .ret, .fire 121, .ret] = some s' ∧
      timerStep s' (.finish 122) = some s'' ∧
      PassDone 120 s.base s''.base (Exec.trace timerStep passEvents s
        [.fire 120, .ret, .fire 120, .runAt 120 200 9 0, .ret, .fire 121, .ret,
          .fire 121, .ret]) := by
  refine ⟨_, _, _, rfl, rfl, rfl, ?_⟩
  refine (@handleTimeouts_pass Nat 120 [.runAt 0 100 7 0, .runAt 0 50 8 30,
    .handleTimeouts 120] _ _ _ rfl rfl ?_ ?_ rfl).2.2 122 _ rfl ?_
  · intro k r hr
    obtain ⟨-, rfl⟩ := Prod.mk.inj (List.mem_singleton.mp hr)
    decide
  · decide +kernel
  · decide +kernel

/-! ### The bound on the numbers -/

/-- Every value of the counter is reached, with nothing pending: by registering
and cancelling one timer after the other. -/
theorem reach_timerSeq (n : Nat) :
    ∃ (pre : List (TimerAction Nat)) (nt : Int) (issued : List TimerId),
      Exec.exec timerStep TimerState.init pre =
        some ⟨⟨false, nt, OrdMap.empty, OrdMap.empty, n⟩, .outside, issued⟩ := by
  induction n with
  | zero => exact ⟨[], 2 ^ 30, [], rfl⟩
  | succ n ih =>
      obtain ⟨pre, nt, issued, hpre⟩ := ih
      refine ⟨pre ++ [.runAt 0 0 0 0, .cancel ⟨0, n + 1⟩], 0, ⟨0, n + 1⟩ :: issued, ?_⟩
      rw [Exec.exec_append, hpre]
      simp [Exec.exec, timerStep, TimerControl.userCode, Timers.runAt_oneShot]
      simp [Timers.cancel, Timers.refreshNearest, OrdMap.insert, OrdMap.find?, OrdMap.empty,
        OrdMap.set, OrdMap.setEntries, OrdMap.first?, OrdMap.erase, toInt32]

/-- **A pass may leave a due entry behind.**  With the counter at `2^62 - 1` when
the pass begins, a timer rearmed for the deadline `now` gets the key
`(now, 2^62)`, which is not below the one the loop compares with. -/
theorem pass_leaves_due_entry :
    ¬ ∀ (pre as : List (TimerAction Nat)) (s s' s'' : TimerState Nat) (now clock : Int),
      Exec.exec timerStep TimerState.init pre = some s → s.control = .loopHead now →
      (∀ k r, s.base.timerReps.Has k r → 0 < r.interval) → s.base.timerSeq < 2 ^ 62 →
      Exec.Along timerStep (InPass now) s as → Exec.exec timerStep s as = some s' →
      timerStep s' (.finish clock) = some s'' →
      ∀ k v, s''.base.timers.Has k v → now < k.first := by
  intro hall
  obtain ⟨pre, nt, issued, hpre⟩ := reach_timerSeq (2 ^ 62 - 3)
  have hrun : Exec.exec timerStep TimerState.init
      (pre ++ [.runAt 0 0 7 1, .handleTimeouts 1]) =
        Exec.exec timerStep ⟨⟨false, nt, OrdMap.empty, OrdMap.empty, 2 ^ 62 - 3⟩, .outside, issued⟩
          [.runAt 0 0 7 1, .handleTimeouts 1] := by
    rw [Exec.exec_append, hpre]
    rfl
  have h := hall _ [.fire 1, .ret] _ _ _ 1 1 (hrun.trans rfl) rfl ?_ ?_ ?_ rfl rfl ⟨1, 2 ^ 62⟩
    (.repeatable ⟨0, 2 ^ 62 - 2⟩) ?_
  · exact absurd h (by decide)
  · intro k r hr
    obtain ⟨-, rfl⟩ := Prod.mk.inj (List.mem_singleton.mp hr)
    show (0 : Int) < 1
    decide
  · show (2 ^ 62 - 3 + 2 : Int) < 2 ^ 62
    decide
  · exact fun _ _ => ⟨trivial, fun _ _ => ⟨trivial, trivial⟩⟩
  · exact List.mem_singleton.mpr rfl

end Libet
