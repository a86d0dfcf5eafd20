/-
Libet/DispatchTurns.lean

The turn of one channel, in three steps.

`Turns.begin` takes the channel from the list and makes the read test,
`Turns.test` makes the write test, and `Turns.finish` counts the channel if a
handler was called.  `Turns` says what these steps have done so far, against
what `select` returned.
-/
import Libet.DispatchWalk

namespace Libet

/-! ### The turn of one channel -/

/-- How far the turn of a channel has come; `dec` is the variable of the loop. -/
inductive Mode
  | idle
  /-- the read test is behind, the write test is ahead -/
  | testing (ch : ChannelId) (dec : Bool)
  /-- both tests are behind, the count is ahead -/
  | finishing (ch : ChannelId) (dec : Bool)

namespace Mode

/-- The handler that may still be called. -/
def pending : Mode → List DispatchEvent
  | .testing ch _ => [.write ch]
  | _ => []

/-- The channel that may still be counted. -/
def running : Mode → List ChannelId
  | .idle => []
  | .testing ch _ | .finishing ch _ => [ch]

/-- The channel that will be counted. -/
def due : Mode → List ChannelId
  | .testing ch true | .finishing ch true => [ch]
  | _ => []

end Mode

/-- The channel is in the set of ready descriptors that `select` returned. -/
def Channels.Ready (s₀ : Channels) (set : List Int) (c : ChannelId) : Prop :=
  ∃ ch, s₀.obj c = some ch ∧ ch.fd ∈ set

/-- What happened to the channels so far, against what `select` returned. -/
structure Turns (rs ws : List Int) (s₀ : Channels) (n lastActive : Int) (mode : Mode)
    (l : List DispatchEvent) : Prop where
  reads : ∀ {c}, c ∈ s₀.poller.liveChannels → c ∈ turns l → (.read c ∈ l ↔ s₀.Ready rs c)
  writes : ∀ {c}, c ∈ s₀.poller.liveChannels → .tested c ∈ l →
    RemovedBefore (.tested c) c l ∨ (.write c ∈ l ↔ s₀.Ready ws c)
  tested_turn : ∀ {c}, .tested c ∈ l → c ∈ turns l
  tests : ∀ {c}, c ∈ turns l → .tested c ∈ l ∨ ∃ dec, mode = .testing c dec
  current : ∀ {c dec}, mode = .testing c dec → .tested c ∉ l
  order : (dispatched l ++ mode.pending).Sublist (handlers (turns l))
  counts : (counted l ++ mode.running).Sublist (turns l)
  count : lastActive + (counted l).length = n
  ready : ∀ {c}, c ∈ s₀.poller.liveChannels → c ∈ counted l ++ mode.due →
    s₀.Ready rs c ∨ s₀.Ready ws c

section Turns

variable {rs ws : List Int} {s₀ : Channels} {n lastActive : Int} {mode : Mode}
variable {l : List DispatchEvent} {c : ChannelId}

theorem turns_init (rs ws : List Int) (s₀ : Channels) (n : Int) :
    Turns rs ws s₀ n n .idle [] where
  reads _ h := by cases h
  writes _ h := by cases h
  tested_turn h := by cases h
  tests h := by cases h
  current h := by cases h
  order := List.Sublist.refl _
  counts := List.Sublist.refl _
  count := by simp [counted]
  ready _ h := by cases h

theorem mem_dispatched_read : .read c ∈ dispatched l ↔ .read c ∈ l := by
  simp [dispatched, DispatchEvent.isDispatch]

theorem mem_dispatched_write : .write c ∈ dispatched l ↔ .write c ∈ l := by
  simp [dispatched, DispatchEvent.isDispatch]

/-- Handlers are called for channels that had their turn. -/
theorem Turns.turn_of_read (h : Turns rs ws s₀ n lastActive mode l) (hr : .read c ∈ l) :
    c ∈ turns l :=
  mem_handlers_read.mp
    (h.order.subset (List.mem_append_left _ (mem_dispatched_read.mpr hr)))

theorem Turns.turn_of_write (h : Turns rs ws s₀ n lastActive mode l) (hw : .write c ∈ l) :
    c ∈ turns l :=
  mem_handlers_write.mp
    (h.order.subset (List.mem_append_left _ (mem_dispatched_write.mpr hw)))

/-- The turn begins: the channel is taken from the list and tested for reading. -/
theorem Turns.begin (h : Turns rs ws s₀ n lastActive .idle l) (hnew : c ∉ turns l) {fd : Int}
    (hfd : c ∈ s₀.poller.liveChannels → (fd ∈ rs ↔ s₀.Ready rs c)) :
    Turns rs ws s₀ n lastActive (.testing c (decide (fd ∈ rs))) (l ++ turnEvents rs c fd) := by
  have ht : turns (l ++ turnEvents rs c fd) = turns l ++ [c] := by
    simp only [turnEvents]
    split <;> simp [turns, DispatchEvent.turnOf]
  have hcnt : counted (l ++ turnEvents rs c fd) = counted l := by
    simp only [turnEvents]
    split <;> simp [counted, DispatchEvent.countedOf]
  have htst : ∀ {c'}, .tested c' ∈ l ++ turnEvents rs c fd ↔ .tested c' ∈ l := by
    intro c'
    simp only [turnEvents]
    split <;> simp
  have hwr : ∀ {c'}, .write c' ∈ l ++ turnEvents rs c fd ↔ .write c' ∈ l := by
    intro c'
    simp only [turnEvents]
    split <;> simp
  have hrd : ∀ {c'}, .read c' ∈ l ++ turnEvents rs c fd ↔ .read c' ∈ l ∨ c' = c ∧ fd ∈ rs := by
    intro c'
    simp only [turnEvents]
    split <;> simp [*]
  constructor
  case reads =>
    intro c' hc₀ hc'
    rw [ht, List.mem_append, List.mem_singleton] at hc'
    rw [hrd]
    rcases hc' with hc' | rfl
    · have hne : c' ≠ c := fun he => hnew (he ▸ hc')
      rw [← h.reads hc₀ hc']
      simp [hne]
    · have hno : .read c' ∉ l := fun hr => hnew (h.turn_of_read hr)
      simp [hno, hfd hc₀]
  case writes =>
    intro c' hc₀ hc'
    rw [htst] at hc'
    rw [RemovedBefore, before_append_of_mem hc', hwr]
    exact h.writes hc₀ hc'
  case tested_turn =>
    intro c' hc'
    rw [ht]
    exact List.mem_append_left _ (h.tested_turn (htst.mp hc'))
  case tests =>
    intro c' hc'
    rw [ht, List.mem_append, List.mem_singleton] at hc'
    rcases hc' with hc' | rfl
    · rcases h.tests hc' with htested | ⟨dec, he⟩
      · exact Or.inl (htst.mpr htested)
      · cases he
    · exact Or.inr ⟨_, rfl⟩
  case current =>
    intro c' dec he hc'
    cases he
    exact hnew (h.tested_turn (htst.mp hc'))
  case order =>
    rw [ht, handlers_append, dispatched_append, List.append_assoc]
    have hsub : (dispatched l).Sublist (handlers (turns l)) := by
      simpa [Mode.pending] using h.order
    apply hsub.append
    simp only [turnEvents]
    split
    · exact List.Sublist.refl _
    · exact List.sublist_append_right [DispatchEvent.read c] [DispatchEvent.write c]
  case counts =>
    rw [ht, hcnt]
    have hsub : (counted l).Sublist (turns l) := by
      simpa [Mode.running] using h.counts
    exact hsub.append (List.Sublist.refl _)
  case count =>
    rw [hcnt]
    exact h.count
  case ready =>
    intro c' hc₀ hc'
    rw [hcnt, List.mem_append] at hc'
    rcases hc' with hc' | hc'
    · exact h.ready hc₀ (List.mem_append_left _ hc')
    · by_cases hrs : fd ∈ rs
      · simp only [hrs, decide_true, Mode.due, List.mem_singleton] at hc'
        subst hc'
        exact Or.inl ((hfd hc₀).mp hrs)
      · simp [hrs, Mode.due] at hc'

/-- The write test: unless the channel was removed before, the descriptor is the
one that `select` was asked about. -/
theorem Turns.test {dec : Bool} (h : Turns rs ws s₀ n lastActive (.testing c dec) l)
    (hnodup : (turns l).Nodup) {fd : Int}
    (hfd : c ∈ s₀.poller.liveChannels → .removed c ∉ l → (fd ∈ ws ↔ s₀.Ready ws c))
    (hdec : dec = false → .removed c ∉ l) :
    Turns rs ws s₀ n lastActive (.finishing c (dec || decide (fd ∈ ws)))
      (l ++ testEvents ws c fd) := by
  have ht : turns (l ++ testEvents ws c fd) = turns l := by
    simp only [testEvents]
    split <;> simp [turns, DispatchEvent.turnOf]
  have hcnt : counted (l ++ testEvents ws c fd) = counted l := by
    simp only [testEvents]
    split <;> simp [counted, DispatchEvent.countedOf]
  have htst : ∀ {c'}, .tested c' ∈ l ++ testEvents ws c fd ↔ .tested c' ∈ l ∨ c' = c := by
    intro c'
    simp only [testEvents]
    split <;> simp
  have hrd : ∀ {c'}, .read c' ∈ l ++ testEvents ws c fd ↔ .read c' ∈ l := by
    intro c'
    simp only [testEvents]
    split <;> simp
  have hwr : ∀ {c'}, .write c' ∈ l ++ testEvents ws c fd ↔ .write c' ∈ l ∨ c' = c ∧ fd ∈ ws := by
    intro c'
    simp only [testEvents]
    split <;> simp [*]
  have hnew : .tested c ∉ l := h.current rfl
  have hrun : c ∈ turns l :=
    h.counts.subset (List.mem_append_right _ (List.mem_singleton.mpr rfl))
  -- the handler is still to come, so it was not called
  have hno : .write c ∉ l := by
    intro hw
    have hnd := (nodup_handlers hnodup).sublist h.order
    exact List.disjoint_of_nodup_append hnd (mem_dispatched_write.mpr hw)
      (List.mem_singleton.mpr rfl)
  constructor
  case reads =>
    intro c' hc₀ hc'
    rw [ht] at hc'
    rw [hrd]
    exact h.reads hc₀ hc'
  case writes =>
    intro c' hc₀ hc'
    rw [htst] at hc'
    rcases hc' with hc' | rfl
    · have hne : c' ≠ c := fun he => hnew (he ▸ hc')
      rw [RemovedBefore, before_append_of_mem hc', hwr]
      simp only [hne, false_and, or_false]
      exact h.writes hc₀ hc'
    · have hbefore : before (.tested c') (l ++ testEvents ws c' fd) = l :=
        before_append_self hnew
      rw [RemovedBefore, hbefore, hwr]
      by_cases hrem : .removed c' ∈ l
      · exact Or.inl hrem
      · right
        rw [← hfd hc₀ hrem]
        simp [hno]
  case tested_turn =>
    intro c' hc'
    rw [ht]
    rcases htst.mp hc' with hc' | rfl
    · exact h.tested_turn hc'
    · exact hrun
  case tests =>
    intro c' hc'
    rw [ht] at hc'
    left
    rcases h.tests hc' with htested | ⟨dec', he⟩
    · exact htst.mpr (Or.inl htested)
    · cases he
      exact htst.mpr (Or.inr rfl)
  case current =>
    intro c' dec' he
    cases he
  case order =>
    rw [ht, dispatched_append, Mode.pending, List.append_nil]
    refine List.Sublist.trans ?_ h.order
    apply (List.Sublist.refl _).append
    simp only [testEvents]
    split
    · exact List.Sublist.refl _
    · exact List.nil_sublist _
    all_goals simp
  case counts =>
    rw [ht, hcnt]
    exact h.counts
  case count =>
    rw [hcnt]
    exact h.count
  case ready =>
    intro c' hc₀ hc'
    rw [hcnt, List.mem_append] at hc'
    rcases hc' with hc' | hc'
    · exact h.ready hc₀ (List.mem_append_left _ hc')
    · cases dec with
      | true => exact h.ready hc₀ (List.mem_append_right _ hc')
      | false =>
          by_cases hws : fd ∈ ws
          · simp only [hws, decide_true, Bool.or_true, Mode.due, List.mem_singleton] at hc'
            subst hc'
            exact Or.inr ((hfd hc₀ (hdec rfl)).mp hws)
          · simp [hws, Mode.due] at hc'

/-- The end of the turn: a channel whose handler was called is counted. -/
theorem Turns.finish {dec : Bool} (h : Turns rs ws s₀ n lastActive (.finishing c dec) l) :
    Turns rs ws s₀ n (if dec then lastActive - 1 else lastActive) .idle
      (l ++ countEvents c dec) := by
  have ht : turns (l ++ countEvents c dec) = turns l := by
    cases dec <;> simp [countEvents, turns, DispatchEvent.turnOf]
  have hcnt : counted (l ++ countEvents c dec) = counted l ++ if dec then [c] else [] := by
    cases dec <;> simp [countEvents, counted, DispatchEvent.countedOf]
  have hdsp : dispatched (l ++ countEvents c dec) = dispatched l := by
    cases dec <;> simp [countEvents, dispatched, DispatchEvent.isDispatch]
  have htst : ∀ {c'}, .tested c' ∈ l ++ countEvents c dec ↔ .tested c' ∈ l := by
    cases dec <;> simp [countEvents]
  have hrd : ∀ {c'}, .read c' ∈ l ++ countEvents c dec ↔ .read c' ∈ l := by
    cases dec <;> simp [countEvents]
  have hwr : ∀ {c'}, .write c' ∈ l ++ countEvents c dec ↔ .write c' ∈ l := by
    cases dec <;> simp [countEvents]
  constructor
  case reads =>
    intro c' hc₀ hc'
    rw [ht] at hc'
    rw [hrd]
    exact h.reads hc₀ hc'
  case writes =>
    intro c' hc₀ hc'
    rw [htst] at hc'
    rw [RemovedBefore, before_append_of_mem hc', hwr]
    exact h.writes hc₀ hc'
  case tested_turn =>
    intro c' hc'
    rw [ht]
    exact h.tested_turn (htst.mp hc')
  case tests =>
    intro c' hc'
    rw [ht] at hc'
    rcases h.tests hc' with htested | ⟨dec', he⟩
    · exact Or.inl (htst.mpr htested)
    · cases he
  case current =>
    intro c' dec' he
    cases he
  case order =>
    rw [ht, hdsp]
    exact h.order
  case counts =>
    rw [ht, hcnt, Mode.running, List.append_nil]
    cases dec with
    | true => exact h.counts
    | false =>
        simp only [Bool.false_eq_true, if_false, List.append_nil]
        exact (List.sublist_append_left _ _).trans h.counts
  case count =>
    have hcount := h.count
    rw [hcnt]
    cases dec with
    | true =>
        simp only [if_true, List.length_append, List.length_singleton]
        push_cast
        omega
    | false => simpa using hcount
  case ready =>
    intro c' hc₀ hc'
    rw [hcnt] at hc'
    apply h.ready hc₀
    cases dec <;> simpa [Mode.due] using hc'

/-- The event is that of an operation on the channels. -/
def DispatchEvent.ofOp : DispatchEvent → Bool
  | .constructed _ | .removed _ => true
  | _ => false

theorem ofOp_of_mem_opEvents {s : Channels} {op : ChannelOp} {e : DispatchEvent}
    (he : e ∈ opEvents s op) : e.ofOp := by
  cases op with
  | construct fd =>
      obtain rfl := List.mem_singleton.mp he
      rfl
  | close id =>
      simp only [opEvents] at he
      split at he
      · obtain rfl := List.mem_singleton.mp he
        rfl
      · cases he
  | enableRead id enable => cases he
  | enableWrite id enable => cases he
  | free id => cases he

/-- The operations of a handler change nothing about the turns. -/
theorem Turns.ops {es : List DispatchEvent} (h : Turns rs ws s₀ n lastActive mode l)
    (hes : ∀ e ∈ es, e.ofOp) : Turns rs ws s₀ n lastActive mode (l ++ es) := by
  have hmem : ∀ {e : DispatchEvent}, ¬ e.ofOp → (e ∈ l ++ es ↔ e ∈ l) := by
    intro e he
    rw [List.mem_append]
    exact or_iff_left fun h => he (hes e h)
  have hnone : ∀ e ∈ es, e.turnOf = none ∧ e.countedOf = none ∧ e.isDispatch = false := by
    intro e he
    have := hes e he
    cases e <;> first | exact ⟨rfl, rfl, rfl⟩ | cases this
  have ht : turns (l ++ es) = turns l := by
    have hnil : turns es = [] := List.filterMap_eq_nil_iff.mpr fun e he => (hnone e he).1
    rw [turns_append, hnil, List.append_nil]
  have hcnt : counted (l ++ es) = counted l := by
    have hnil : counted es = [] := List.filterMap_eq_nil_iff.mpr fun e he => (hnone e he).2.1
    rw [counted_append, hnil, List.append_nil]
  have hdsp : dispatched (l ++ es) = dispatched l := by
    have hnil : dispatched es = [] := List.filter_eq_nil_iff.mpr fun e he => by
      simp [(hnone e he).2.2]
    rw [dispatched_append, hnil, List.append_nil]
  constructor
  case reads =>
    intro c hc₀ hc
    rw [ht] at hc
    rw [hmem (by simp [DispatchEvent.ofOp])]
    exact h.reads hc₀ hc
  case writes =>
    intro c hc₀ hc
    rw [hmem (by simp [DispatchEvent.ofOp])] at hc
    rw [RemovedBefore, before_append_of_mem hc, hmem (by simp [DispatchEvent.ofOp])]
    exact h.writes hc₀ hc
  case tested_turn =>
    intro c hc
    rw [hmem (by simp [DispatchEvent.ofOp])] at hc
    rw [ht]
    exact h.tested_turn hc
  case tests =>
    intro c hc
    rw [ht] at hc
    rw [hmem (by simp [DispatchEvent.ofOp])]
    exact h.tests hc
  case current =>
    intro c dec he
    rw [hmem (by simp [DispatchEvent.ofOp])]
    exact h.current he
  case order =>
    rw [ht, hdsp]
    exact h.order
  case counts =>
    rw [ht, hcnt]
    exact h.counts
  case count =>
    rw [hcnt]
    exact h.count
  case ready =>
    rw [hcnt]
    exact h.ready

end Turns

end Libet
