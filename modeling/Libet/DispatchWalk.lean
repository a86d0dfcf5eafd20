/-
Libet/DispatchWalk.lean

The walk over the list of channels.

Handlers construct and close channels while `curIt` walks the list.  `Walk`
relates the list at the start of a pass, the list now and the events in between,
as far as the list is concerned: the turns so far and the channels still in
front of the cursor are, in order, channels of the start followed by new ones,
and no channel of the start is left behind without a turn unless it was removed.
-/
import Libet.Dispatch

namespace Libet

/-! ### The list and the cursor -/

/-- What the cursor still has in front of it. -/
def Channels.rest (s : Channels) : List ChannelId :=
  Cursor.rest s.poller.liveChannels s.poller.curIt

/-- The channels at the start of a pass, the channels now, and what happened in
between, as far as the list is concerned. -/
structure Walk (s₀ s : Channels) (l : List DispatchEvent) : Prop where
  ok : ChannelsOk s
  lastId_le : s₀.lastId ≤ s.lastId
  ids : ∀ {c}, c ∈ constructed l → s₀.lastId < c ∧ c ≤ s.lastId
  nodup : (constructed l).Nodup
  /-- the turns so far and those to come are in the order of the list -/
  order : (turns l ++ s.rest).Sublist (s₀.poller.liveChannels ++ constructed l)
  /-- nobody is left behind by the cursor without a turn -/
  known : ∀ {c}, c ∈ s₀.poller.liveChannels → c ∈ s.poller.liveChannels →
    c ∈ turns l ∨ c ∈ s.rest
  fds : ∀ {c}, c ∈ s₀.poller.liveChannels → c ∈ s.poller.liveChannels →
    (s.obj c).map Channel.fd = (s₀.obj c).map Channel.fd
  left : ∀ {c}, c ∈ s₀.poller.liveChannels → c ∉ s.poller.liveChannels → .removed c ∈ l
  removed : ∀ {c}, .removed c ∈ l → c ∉ s.poller.liveChannels ∧ c ≤ s.lastId
  /-- no turn comes after a removal -/
  late : ∀ {c}, c ∈ turns l → ¬ RemovedBefore (.turn c) c l

/-- The event does not concern the list. -/
def DispatchEvent.quiet : DispatchEvent → Bool
  | .turn _ | .constructed _ | .removed _ => false
  | _ => true

section Walk

variable {s₀ s s' : Channels} {l es : List DispatchEvent} {c : ChannelId}

theorem turns_quiet (h : ∀ e ∈ es, e.quiet) : turns es = [] := by
  apply List.filterMap_eq_nil_iff.mpr
  intro e he
  have := h e he
  cases e <;> first | rfl | cases this

theorem constructed_quiet (h : ∀ e ∈ es, e.quiet) : constructed es = [] := by
  apply List.filterMap_eq_nil_iff.mpr
  intro e he
  have := h e he
  cases e <;> first | rfl | cases this

theorem Walk.quiet (h : Walk s₀ s l) (hes : ∀ e ∈ es, e.quiet) : Walk s₀ s (l ++ es) := by
  have ht : turns (l ++ es) = turns l := by rw [turns_append, turns_quiet hes, List.append_nil]
  have hc : constructed (l ++ es) = constructed l := by
    rw [constructed_append, constructed_quiet hes, List.append_nil]
  have hr : ∀ {c}, .removed c ∈ l ++ es ↔ .removed c ∈ l := by
    intro c
    rw [List.mem_append]
    exact or_iff_left fun hmem => by cases hes _ hmem
  refine ⟨h.ok, h.lastId_le, ?_, ?_, ?_, ?_, h.fds, ?_, ?_, ?_⟩
  · rw [hc]; exact h.ids
  · rw [hc]; exact h.nodup
  · rw [ht, hc]; exact h.order
  · rw [ht]; exact h.known
  · intro c h₀ hn
    exact hr.mpr (h.left h₀ hn)
  · intro c hmem
    exact h.removed (hr.mp hmem)
  · intro c hmem hrem
    rw [ht] at hmem
    rw [RemovedBefore, before_append_of_mem (mem_turns.mp hmem)] at hrem
    exact h.late hmem hrem

/-- All channels that a pass has to do with. -/
theorem Walk.all_nodup (h : Walk s₀ s l) (h₀ : ChannelsOk s₀) :
    (s₀.poller.liveChannels ++ constructed l).Nodup := by
  rw [List.nodup_append]
  refine ⟨h₀.live_nodup, h.nodup, ?_⟩
  rintro x hx y hy rfl
  obtain ⟨ch, hch, -⟩ := h₀.live_iff.mp hx
  exact absurd (h₀.id_eq hch).2 (Nat.not_le_of_lt (h.ids hy).1)

theorem Walk.turns_nodup (h : Walk s₀ s l) (h₀ : ChannelsOk s₀) :
    (turns l ++ s.rest).Nodup :=
  (h.all_nodup h₀).sublist h.order

/-! What the operations of a handler do to the walk. -/

theorem rest_construct (h : ChannelsOk s) (fd : Int) :
    (s.construct fd).rest = if s.poller.curIt = none then [] else s.rest ++ [s.lastId + 1] :=
  Cursor.rest_concat h.concat_nodup h.cursor

theorem Walk.construct (h : Walk s₀ s l) (h₀ : ChannelsOk s₀) {fd : Int}
    (hfresh : s.FreshFd fd) : Walk s₀ (s.construct fd) (l ++ [.constructed (s.lastId + 1)]) := by
  have ht : turns (l ++ [.constructed (s.lastId + 1)]) = turns l := by
    simp [turns, DispatchEvent.turnOf]
  have hc : constructed (l ++ [.constructed (s.lastId + 1)]) =
      constructed l ++ [s.lastId + 1] := constructed_append
  have hr : ∀ {c}, .removed c ∈ l ++ [.constructed (s.lastId + 1)] ↔ .removed c ∈ l := by
    intro c
    simp
  have hlive : ∀ {c}, c ∈ (s.construct fd).poller.liveChannels ↔
      c ∈ s.poller.liveChannels ∨ c = s.lastId + 1 := by
    simp [Channels.construct, PollerSelect.addChannel]
  -- the channels of the start have smaller numbers
  have hne : ∀ {c}, c ∈ s₀.poller.liveChannels → c ≠ s.lastId + 1 := by
    rintro c hc rfl
    obtain ⟨ch, hch, -⟩ := h₀.live_iff.mp hc
    exact absurd ((h₀.id_eq hch).2.trans h.lastId_le) (Nat.not_succ_le_self _)
  have hrest := rest_construct h.ok fd
  refine ⟨h.ok.construct hfresh, Nat.le_succ_of_le h.lastId_le, ?_, ?_, ?_, ?_, ?_, ?_, ?_, ?_⟩
  · intro c hmem
    rw [hc, List.mem_append, List.mem_singleton] at hmem
    rcases hmem with hmem | rfl
    · exact ⟨(h.ids hmem).1, Nat.le_succ_of_le (h.ids hmem).2⟩
    · exact ⟨Nat.lt_succ_of_le h.lastId_le, Nat.le_refl _⟩
  · rw [hc, List.nodup_append]
    refine ⟨h.nodup, List.nodup_singleton _, ?_⟩
    rintro x hx y hy rfl
    exact absurd ((List.mem_singleton.mp hy) ▸ (h.ids hx).2) (Nat.not_succ_le_self _)
  · rw [ht, hc, hrest, ← List.append_assoc]
    split
    · rename_i hnone
      have hsub := h.order
      rw [Channels.rest, hnone, Cursor.rest_none] at hsub
      exact hsub.trans (List.sublist_append_left _ _)
    · rw [← List.append_assoc]
      exact h.order.append (List.Sublist.refl _)
  · intro c hc₀ hmem
    rcases hlive.mp hmem with hmem | he
    · rw [ht, hrest]
      rcases h.known hc₀ hmem with hturn | hrest'
      · exact Or.inl hturn
      · right
        rw [if_neg]
        · exact List.mem_append_left _ hrest'
        · intro hnone
          rw [Channels.rest, hnone] at hrest'
          cases hrest'
    · exact absurd he (hne hc₀)
  · intro c hc₀ hmem
    rcases hlive.mp hmem with hmem | he
    · rw [← h.fds hc₀ hmem]
      exact congrArg _ (Function.update_of_ne (hne hc₀) ..)
    · exact absurd he (hne hc₀)
  · intro c hc₀ hn
    exact hr.mpr (h.left hc₀ fun hmem => hn (hlive.mpr (Or.inl hmem)))
  · intro c hmem
    obtain ⟨hn, hle⟩ := h.removed (hr.mp hmem)
    refine ⟨fun hl => ?_, Nat.le_succ_of_le hle⟩
    rcases hlive.mp hl with hl | rfl
    · exact hn hl
    · exact absurd hle (Nat.not_succ_le_self _)
  · intro c hmem hrem
    rw [ht] at hmem
    rw [RemovedBefore, before_append_of_mem (mem_turns.mp hmem)] at hrem
    exact h.late hmem hrem

/-- A channel that is closed leaves the walk. -/
theorem Walk.close (h : Walk s₀ s l) {id : ChannelId} {ch : Channel}
    (hobj : s.obj id = some ch) : Walk s₀ (s.close ch) (l ++ opEvents s (.close id)) := by
  obtain ⟨rfl, hle⟩ := h.ok.id_eq hobj
  have hok := h.ok.close hobj
  by_cases hfd : ch.fd = SOCKET_ERROR
  · -- it was closed already, and nothing happens
    have hclose : s.close ch = s := by simp only [Channels.close, if_neg (not_not.mpr hfd)]
    have hnot := h.ok.not_mem_of_closed hobj hfd
    rw [hclose, opEvents, if_neg hnot, List.append_nil]
    exact h
  · have hmem : ch.id ∈ s.poller.liveChannels := h.ok.listed hobj hfd
    have hev : opEvents s (.close ch.id) = [.removed ch.id] := if_pos hmem
    have hlive : ∀ {c}, c ∈ (s.close ch).poller.liveChannels ↔
        c ∈ s.poller.liveChannels ∧ c ≠ ch.id := by
      simp [Channels.close, if_pos hfd, PollerSelect.removeChannel]
    have hrest : (s.close ch).rest = s.rest.filter (· ≠ ch.id) := by
      simp only [Channels.rest, Channels.close, if_pos hfd, removeChannel_curIt]
      exact Cursor.rest_remove h.ok.live_nodup h.ok.cursor
    have ht : turns (l ++ [.removed ch.id]) = turns l := by
      simp [turns, DispatchEvent.turnOf]
    have hc : constructed (l ++ [.removed ch.id]) = constructed l := by
      simp [constructed, DispatchEvent.constructedOf]
    rw [hev]
    refine ⟨hok, ?_, ?_, ?_, ?_, ?_, ?_, ?_, ?_, ?_⟩
    · simpa [Channels.close, if_pos hfd] using h.lastId_le
    · intro c hmem
      rw [hc] at hmem
      simpa [Channels.close, if_pos hfd] using h.ids hmem
    · rw [hc]
      exact h.nodup
    · rw [ht, hc, hrest]
      exact ((List.Sublist.refl _).append List.filter_sublist).trans h.order
    · intro c hc₀ hc'
      obtain ⟨hc', hne⟩ := hlive.mp hc'
      rw [ht, hrest]
      rcases h.known hc₀ hc' with hturn | hr
      · exact Or.inl hturn
      · exact Or.inr (List.mem_filter.mpr ⟨hr, decide_eq_true hne⟩)
    · intro c hc₀ hc'
      obtain ⟨hc', hne⟩ := hlive.mp hc'
      rw [← h.fds hc₀ hc']
      simp only [Channels.close, if_pos hfd, Function.update_of_ne hne]
    · intro c hc₀ hn
      rw [List.mem_append, List.mem_singleton]
      by_cases he : c = ch.id
      · exact Or.inr (congrArg _ he)
      · exact Or.inl (h.left hc₀ fun hmem => hn (hlive.mpr ⟨hmem, he⟩))
    · intro c hc'
      rw [List.mem_append, List.mem_singleton] at hc'
      rcases hc' with hc' | hc'
      · obtain ⟨hn, hle'⟩ := h.removed hc'
        refine ⟨fun hl => hn (hlive.mp hl).1, ?_⟩
        simpa [Channels.close, if_pos hfd] using hle'
      · cases hc'
        refine ⟨fun hl => (hlive.mp hl).2 rfl, ?_⟩
        simpa [Channels.close, if_pos hfd] using hle
    · intro c hc' hrem
      rw [ht] at hc'
      rw [RemovedBefore, before_append_of_mem (mem_turns.mp hc')] at hrem
      exact h.late hc' hrem

/-- The list, the cursor and the descriptors stay as they are. -/
theorem Walk.same_list (h : Walk s₀ s l) (hok : ChannelsOk s')
    (hlive : s'.poller.liveChannels = s.poller.liveChannels)
    (hcur : s'.poller.curIt = s.poller.curIt) (hid : s'.lastId = s.lastId)
    (hfd : ∀ {c}, c ∈ s.poller.liveChannels →
      (s'.obj c).map Channel.fd = (s.obj c).map Channel.fd) : Walk s₀ s' l := by
  have hrest : s'.rest = s.rest := by rw [Channels.rest, Channels.rest, hlive, hcur]
  refine ⟨hok, ?_, ?_, h.nodup, ?_, ?_, ?_, ?_, ?_, h.late⟩
  · rw [hid]; exact h.lastId_le
  · rw [hid]; exact h.ids
  · rw [hrest]; exact h.order
  · rw [hrest, hlive]; exact h.known
  · intro c hc₀ hc
    rw [hlive] at hc
    rw [hfd hc]
    exact h.fds hc₀ hc
  · rw [hlive]; exact h.left
  · rw [hlive, hid]; exact h.removed

theorem Walk.update (h : Walk s₀ s l) {ch ch₀ : Channel} {id : ChannelId}
    (hobj : s.obj id = some ch₀) (hid : ch.id = ch₀.id) (hfd : ch.fd = ch₀.fd) :
    Walk s₀ (s.update ch) l := by
  refine h.same_list (h.ok.update hobj hid hfd) rfl rfl rfl ?_
  obtain ⟨rfl, -⟩ := h.ok.id_eq hobj
  intro c hc
  simp only [Channels.update, Function.update_apply]
  split
  · rename_i he
    rw [he, hid, hobj, Option.map_some, Option.map_some, hfd]
  · rfl

/-- **An operation of a handler keeps the walk.** -/
theorem Walk.op (h : Walk s₀ s l) (h₀ : ChannelsOk s₀) {op : ChannelOp}
    (hstep : channelStep s op = some s') : Walk s₀ s' (l ++ opEvents s op) := by
  cases op with
  | construct fd =>
      obtain ⟨hfresh, rfl⟩ := construct_of_channelStep hstep
      exact h.construct h₀ hfresh
  | enableRead id enable =>
      obtain ⟨ch, hobj, rfl⟩ := Option.map_eq_some_iff.mp hstep
      rw [opEvents, List.append_nil]
      · exact h.update hobj rfl rfl
      · simp
      · simp
  | enableWrite id enable =>
      obtain ⟨ch, hobj, rfl⟩ := Option.map_eq_some_iff.mp hstep
      rw [opEvents, List.append_nil]
      · exact h.update hobj rfl rfl
      · simp
      · simp
  | close id =>
      obtain ⟨ch, hobj, rfl⟩ := Option.map_eq_some_iff.mp hstep
      exact h.close hobj
  | free id =>
      obtain ⟨ch, hobj, hfd, rfl⟩ := free_of_channelStep hstep
      show Walk s₀ (s.free ch) (l ++ [])
      rw [List.append_nil]
      refine h.same_list (h.ok.free hobj hfd) rfl rfl rfl ?_
      obtain ⟨rfl, -⟩ := h.ok.id_eq hobj
      intro c hc
      -- a listed channel is open, so it is not the one that is freed
      have hcid : c ≠ ch.id := by
        rintro rfl
        exact h.ok.not_mem_of_closed hobj hfd hc
      exact congrArg _ (Function.update_of_ne hcid ..)

/-- **A channel has its turn**, and the cursor steps on. -/
theorem Walk.turn (h : Walk s₀ s l) (h₀ : ChannelsOk s₀) (hcur : s.poller.curIt = some c) :
    Walk s₀ { s with poller := { s.poller with
      curIt := PollerSelect.nextIt s.poller.liveChannels c } } (l ++ [.turn c]) := by
  have hvalid : Cursor.Valid s.poller.liveChannels (some c) := hcur ▸ h.ok.cursor
  obtain ⟨r, hr⟩ := Cursor.rest_some hvalid
  have hrest : s.rest = c :: r := by rw [Channels.rest, hcur, hr]
  have hrest' : Channels.rest { s with poller := { s.poller with
      curIt := PollerSelect.nextIt s.poller.liveChannels c } } = r := by
    simp only [Channels.rest, nextIt_eq_next]
    rw [Cursor.rest_next h.ok.live_nodup hvalid, hr, List.tail_cons]
  have ht : turns (l ++ [.turn c]) = turns l ++ [c] := turns_append
  have hc : constructed (l ++ [.turn c]) = constructed l := by
    simp [constructed, DispatchEvent.constructedOf]
  have hrm : ∀ {c'}, .removed c' ∈ l ++ [.turn c] ↔ .removed c' ∈ l := by simp
  have hnew : c ∉ turns l := by
    intro hmem
    have hnd := h.turns_nodup h₀
    rw [hrest] at hnd
    exact List.disjoint_of_nodup_append hnd hmem List.mem_cons_self
  refine ⟨?_, h.lastId_le, ?_, ?_, ?_, ?_, h.fds, ?_, ?_, ?_⟩
  · exact ⟨h.ok.id_eq, h.ok.live_iff, h.ok.live_nodup, h.ok.fd_inj, Cursor.valid_next _ _,
      h.ok.read_nodup, h.ok.write_nodup⟩
  · rw [hc]; exact h.ids
  · rw [hc]; exact h.nodup
  · rw [ht, hc, hrest', List.append_assoc, List.singleton_append, ← hrest]
    exact h.order
  · intro c' hc₀ hc'
    rw [ht, hrest', List.mem_append, List.mem_singleton]
    rcases h.known hc₀ hc' with hturn | hmem
    · exact Or.inl (Or.inl hturn)
    · rw [hrest] at hmem
      rcases List.mem_cons.mp hmem with rfl | hmem
      · exact Or.inl (Or.inr rfl)
      · exact Or.inr hmem
  · intro c' hc₀ hn
    exact hrm.mpr (h.left hc₀ hn)
  · intro c' hmem
    exact h.removed (hrm.mp hmem)
  · intro c' hmem hrem
    rw [ht, List.mem_append, List.mem_singleton] at hmem
    rcases hmem with hmem | rfl
    · rw [RemovedBefore, before_append_of_mem (mem_turns.mp hmem)] at hrem
      exact h.late hmem hrem
    · rw [RemovedBefore, before_append_self (mem_turns.not.mp hnew)] at hrem
      exact (h.removed hrem).1 (hvalid c' rfl)

/-- A channel that is still to come is listed, and none that had its turn comes
again. -/
theorem Walk.cur_not_turned (h : Walk s₀ s l) (h₀ : ChannelsOk s₀)
    (hcur : s.poller.curIt = some c) : c ∉ turns l ∧ c ∈ s.poller.liveChannels := by
  have hvalid : Cursor.Valid s.poller.liveChannels (some c) := hcur ▸ h.ok.cursor
  obtain ⟨r, hr⟩ := Cursor.rest_some hvalid
  refine ⟨fun hmem => ?_, hvalid c rfl⟩
  have hnd := h.turns_nodup h₀
  rw [Channels.rest, hcur, hr] at hnd
  exact List.disjoint_of_nodup_append hnd hmem List.mem_cons_self

/-- As long as a channel of the start is still to come, only channels of the
start had their turn. -/
theorem Walk.turns_subset (h : Walk s₀ s l) (h₀ : ChannelsOk s₀)
    (hc₀ : c ∈ s₀.poller.liveChannels) (hc : c ∈ s.rest) :
    turns l ⊆ s₀.poller.liveChannels := by
  obtain ⟨l₁, l₂, heq, hl₁, hl₂⟩ := List.sublist_append_iff.mp h.order
  have hnot : c ∉ l₂ := fun hmem =>
    List.disjoint_of_nodup_append (h.all_nodup h₀) hc₀ (hl₂.subset hmem)
  rcases List.append_eq_append_iff.mp heq with ⟨as, rfl, -⟩ | ⟨bs, -, rfl⟩
  · exact fun x hx => hl₁.subset (List.mem_append_left _ hx)
  · exact absurd (List.mem_append_right _ hc) hnot

end Walk

end Libet
