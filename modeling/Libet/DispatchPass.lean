/-
Libet/DispatchPass.lean

Runs of the dispatch loop.

* `DispatchInv` — the walk and the turns together, with the reason for which the
  loop goes on or stops; it holds in every run (`dispatchInv_of_run`).
* `DispatchInv.turned` — the early stop on `m_lastActive` skips nobody.
* `DispatchDone` — what a pass has done when it is over.

Main result: `dispatch_pass`.
-/
import Libet.DispatchTurns
import Mathlib.Data.List.Dedup
import Mathlib.Data.List.Flatten

namespace Libet

/-! ### Steps and runs of the loop -/

/-- The turn that control is in. -/
def Dispatch.mode (d : Dispatch) : Mode :=
  match d.control with
  | .head | .done => .idle
  | .reading ch => .testing ch true
  | .writing ch => .finishing ch true

/-- The relation between the start of a pass, the moment, and the events so
far. -/
structure DispatchInv (rs ws : List Int) (s₀ : Channels) (n : Int) (d : Dispatch)
    (l : List DispatchEvent) : Prop where
  walk : Walk s₀ d.chans l
  served : Turns rs ws s₀ n d.lastActive d.mode l
  head : d.control = .head → 0 < d.lastActive ∧ d.chans.poller.curIt.isSome
  stop : d.control = .done → d.lastActive ≤ 0 ∨ d.chans.poller.curIt = none

namespace Dispatch

/-- Between two turns. -/
structure Between (d : Dispatch) : Prop where
  mode : d.mode = .idle
  head : d.control = .head → 0 < d.lastActive ∧ d.chans.poller.curIt.isSome
  stop : d.control = .done → d.lastActive ≤ 0 ∨ d.chans.poller.curIt = none

theorem between_toHead (d : Dispatch) : d.toHead.Between := by
  simp only [toHead]
  split
  · rename_i h
    exact ⟨rfl, fun _ => h, fun he => by cases he⟩
  · rename_i h
    refine ⟨rfl, fun he => (by cases he), fun _ => ?_⟩
    by_contra hnot
    rw [not_or] at hnot
    exact h ⟨Int.not_le.mp hnot.1, Option.isSome_iff_ne_none.mpr hnot.2⟩

theorem start_mode (s : Channels) (n : Int) : (start s n).mode = .idle :=
  (between_toHead _).mode

theorem endBody_spec (d : Dispatch) (dec : Bool) :
    (d.endBody dec).chans = d.chans ∧
      (d.endBody dec).lastActive = (if dec then d.lastActive - 1 else d.lastActive) ∧
      (d.endBody dec).Between := by
  cases dec with
  | false => exact ⟨rfl, rfl, between_toHead d⟩
  | true =>
      simp only [endBody, if_true]
      split
      · rename_i hle
        exact ⟨rfl, rfl, rfl, fun he => (by cases he), fun _ => Or.inl hle⟩
      · exact ⟨rfl, rfl, between_toHead _⟩

end Dispatch

section Steps

variable {rs ws : List Int} {s₀ : Channels} {n : Int} {d d' : Dispatch}
variable {l : List DispatchEvent} {c : ChannelId}

/-- What the loop reads in a listed channel of the start is what `select` was
asked about. -/
theorem Walk.readFd_ready (h : Walk s₀ d.chans l) (h₀ : ChannelsOk s₀)
    (hc₀ : c ∈ s₀.poller.liveChannels) (hc : c ∈ d.chans.poller.liveChannels) (junk : Int)
    (set : List Int) : d.readFd c junk ∈ set ↔ s₀.Ready set c := by
  obtain ⟨ch, hch, -⟩ := h₀.live_iff.mp hc₀
  rw [Dispatch.readFd, h.fds hc₀ hc, hch]
  constructor
  · intro hmem
    exact ⟨ch, hch, hmem⟩
  · rintro ⟨ch', hch', hmem⟩
    obtain rfl : ch' = ch := Option.some.inj (hch'.symm.trans hch)
    exact hmem

theorem quiet_testEvents {e : DispatchEvent} {fd : Int} (he : e ∈ testEvents ws c fd) :
    e.quiet := by
  simp only [testEvents] at he
  split at he <;> simp only [List.mem_cons, List.not_mem_nil, or_false] at he
  · rcases he with rfl | rfl <;> rfl
  · subst he
    rfl

theorem quiet_countEvents {e : DispatchEvent} {dec : Bool} (he : e ∈ countEvents c dec) :
    e.quiet := by
  cases dec <;> simp only [countEvents, Bool.false_eq_true, if_false, if_true,
    List.mem_singleton, List.not_mem_nil] at he
  subst he
  rfl

/-- The end of a turn, from either handler. -/
theorem DispatchInv.endBody {dec : Bool} (hw : Walk s₀ d.chans l)
    (ht : Turns rs ws s₀ n d.lastActive (.finishing c dec) l) :
    DispatchInv rs ws s₀ n (d.endBody dec) (l ++ countEvents c dec) := by
  obtain ⟨hch, hla, hb⟩ := d.endBody_spec dec
  refine ⟨?_, ?_, hb.head, hb.stop⟩
  · rw [hch]
    exact hw.quiet fun _ => quiet_countEvents
  · rw [hla, hb.mode]
    exact ht.finish

/-- The write test and what follows, in a state in which the read test is
behind. -/
theorem DispatchInv.testWrite {dec : Bool} (h₀ : ChannelsOk s₀) (hw : Walk s₀ d.chans l)
    (ht : Turns rs ws s₀ n d.lastActive (.testing c dec) l)
    (hdec : dec = false → c ∈ d.chans.poller.liveChannels) (junk : Int) :
    DispatchInv rs ws s₀ n (d.testWrite ws c (d.readFd c junk) dec)
      (l ++ (testEvents ws c (d.readFd c junk) ++
        if d.readFd c junk ∈ ws then [] else countEvents c dec)) := by
  have hlisted : c ∈ s₀.poller.liveChannels → .removed c ∉ l →
      c ∈ d.chans.poller.liveChannels := by
    intro hc₀ hrem
    by_contra hn
    exact hrem (hw.left hc₀ hn)
  have htest : Turns rs ws s₀ n d.lastActive
      (.finishing c (dec || decide (d.readFd c junk ∈ ws)))
      (l ++ testEvents ws c (d.readFd c junk)) :=
    ht.test ((hw.turns_nodup h₀).sublist (List.sublist_append_left _ _))
      (fun hc₀ hrem => hw.readFd_ready h₀ hc₀ (hlisted hc₀ hrem) junk ws)
      (fun hd hrem => (hw.removed hrem).1 (hdec hd))
  have hwalk : Walk s₀ d.chans (l ++ testEvents ws c (d.readFd c junk)) :=
    hw.quiet fun _ => quiet_testEvents
  simp only [Dispatch.testWrite]
  split
  · rename_i hws
    rw [List.append_nil]
    rw [decide_eq_true hws, Bool.or_true] at htest
    exact ⟨hwalk, htest, fun he => (by cases he), fun he => by cases he⟩
  · rename_i hws
    rw [decide_eq_false hws, Bool.or_false] at htest
    rw [← List.append_assoc]
    exact .endBody hwalk htest

/-- **One step of the loop.** -/
theorem DispatchInv.step {a : DispatchLabel} (h₀ : ChannelsOk s₀)
    (hstep : dispatchStep rs ws d a = some d') (h : DispatchInv rs ws s₀ n d l) :
    DispatchInv rs ws s₀ n d' (l ++ dispatchEvents rs ws d a) := by
  cases a with
  | visit junk =>
      simp only [dispatchStep] at hstep
      split at hstep
      · rename_i c hctl hcur
        have hturns : Turns rs ws s₀ n d.lastActive .idle l := by
          have := h.served
          rwa [Dispatch.mode, hctl] at this
        obtain ⟨hnew, hlive⟩ := h.walk.cur_not_turned h₀ hcur
        have hbegin : Turns rs ws s₀ n d.lastActive
            (.testing c (decide (d.readFd c junk ∈ rs)))
            (l ++ turnEvents rs c (d.readFd c junk)) :=
          hturns.begin hnew fun hc₀ => h.walk.readFd_ready h₀ hc₀ hlive junk rs
        have hwalk : Walk s₀ (d.advance c).chans (l ++ turnEvents rs c (d.readFd c junk)) := by
          have hquiet : ∀ e ∈ (if d.readFd c junk ∈ rs then [.read c] else [] :
              List DispatchEvent), e.quiet := by
            intro e he
            split at he
            · obtain rfl := List.mem_singleton.mp he
              rfl
            · cases he
          have := (h.walk.turn h₀ hcur).quiet hquiet
          rwa [List.append_assoc] at this
        have hev : dispatchEvents rs ws d (.visit junk) = turnEvents rs c (d.readFd c junk) ++
            if d.readFd c junk ∈ rs then [] else testEvents ws c (d.readFd c junk) := by
          simp only [dispatchEvents, hcur]
        rw [hev]
        split at hstep
        · rename_i hrs
          cases hstep
          rw [if_pos hrs, List.append_nil]
          rw [decide_eq_true hrs] at hbegin
          exact ⟨hwalk, hbegin, fun he => (by cases he), fun he => by cases he⟩
        · rename_i hrs
          cases hstep
          rw [decide_eq_false hrs] at hbegin
          have hwrite := DispatchInv.testWrite (d := d.advance c) h₀ hwalk hbegin
            (fun _ => hlive) junk
          rw [if_neg hrs, ← List.append_assoc]
          have hcount : countEvents c false = [] := rfl
          simp only [hcount, ite_self, List.append_nil] at hwrite
          exact hwrite
      · cases hstep
  | op op =>
      simp only [dispatchStep] at hstep
      have hdone : ∀ s, channelStep d.chans op = some s → d.control ≠ .head →
          d.control ≠ .done →
          DispatchInv rs ws s₀ n { d with chans := s } (l ++ opEvents d.chans op) := by
        intro s hs hhead hstop
        exact ⟨h.walk.op h₀ hs, h.served.ops fun _ => ofOp_of_mem_opEvents,
          fun he => absurd he hhead, fun he => absurd he hstop⟩
      split at hstep
      · rename_i c hctl
        obtain ⟨s, hs, rfl⟩ := Option.map_eq_some_iff.mp hstep
        exact hdone s hs (by simp [hctl]) (by simp [hctl])
      · rename_i c hctl
        obtain ⟨s, hs, rfl⟩ := Option.map_eq_some_iff.mp hstep
        exact hdone s hs (by simp [hctl]) (by simp [hctl])
      · cases hstep
  | ret junk =>
      simp only [dispatchStep] at hstep
      have hturns := h.served
      split at hstep
      · rename_i c hctl
        cases hstep
        rw [Dispatch.mode, hctl] at hturns
        have hwrite := DispatchInv.testWrite h₀ h.walk hturns (fun hd => by cases hd) junk
        simp only [dispatchEvents, hctl]
        exact hwrite
      · rename_i c hctl
        cases hstep
        rw [Dispatch.mode, hctl] at hturns
        simp only [dispatchEvents, hctl]
        exact .endBody h.walk hturns
      · cases hstep

theorem dispatchInv_start (h₀ : ChannelsOk s₀) (rs ws : List Int) (n : Int) :
    DispatchInv rs ws s₀ n (Dispatch.start s₀ n) [] := by
  obtain hb := Dispatch.between_toHead ⟨{ s₀ with poller := { s₀.poller with
    curIt := s₀.poller.liveChannels.head? } }, n, .head⟩
  have hrest : (Dispatch.start s₀ n).chans.rest = s₀.poller.liveChannels :=
    Cursor.rest_head? h₀.live_nodup
  refine ⟨?_, ?_, hb.head, hb.stop⟩
  · refine ⟨?_, Nat.le_refl _, fun h => (by cases h), List.nodup_nil, ?_, ?_, fun _ _ => rfl, ?_,
      fun h => (by cases h), fun h => (by cases h)⟩
    · exact ⟨h₀.id_eq, h₀.live_iff, h₀.live_nodup, h₀.fd_inj, Cursor.valid_head? _,
        h₀.read_nodup, h₀.write_nodup⟩
    · rw [hrest]
      simp [turns, constructed]
    · intro c hc₀ _
      rw [hrest]
      exact Or.inr hc₀
    · intro c hc₀ hn
      exact absurd hc₀ hn
  · rw [Dispatch.start_mode]
    exact turns_init rs ws s₀ n

/-- **The relation holds in every run of the loop.** -/
theorem dispatchInv_of_run {as : List DispatchLabel} (h₀ : ChannelsOk s₀)
    (hrun : Exec.exec (dispatchStep rs ws) (Dispatch.start s₀ n) as = some d) :
    DispatchInv rs ws s₀ n d
      (Exec.trace (dispatchStep rs ws) (dispatchEvents rs ws) (Dispatch.start s₀ n) as) :=
  Exec.history (fun _ _ _ _ hs h => h.step h₀ hs) hrun (dispatchInv_start h₀ rs ws n)

/-! ### What a pass has done -/

/-- **The early stop skips nobody.**  A channel of the start that is ready and
was not removed has had its turn when the loop is over: the channels counted so
far have other ready descriptors. -/
theorem DispatchInv.turned (h : DispatchInv rs ws s₀ n d l) (h₀ : ChannelsOk s₀)
    (hn : (rs ++ ws).dedup.length ≤ n) (hdone : d.control = .done)
    (hc₀ : c ∈ s₀.poller.liveChannels) (hready : s₀.Ready rs c ∨ s₀.Ready ws c)
    (hkept : .removed c ∉ l) : c ∈ turns l := by
  by_contra hturn
  have hlive : c ∈ d.chans.poller.liveChannels := by
    by_contra hlost
    exact hkept (h.walk.left hc₀ hlost)
  have hrest : c ∈ d.chans.rest := (h.walk.known hc₀ hlive).resolve_left hturn
  have hcur : d.chans.poller.curIt ≠ none := by
    intro hnone
    rw [Channels.rest, hnone] at hrest
    cases hrest
  have hstop : d.lastActive ≤ 0 := (h.stop hdone).resolve_right hcur
  -- the descriptors of the counted channels and of `c` are distinct and ready
  have hcounted : counted l ⊆ turns l := fun x hx =>
    h.served.counts.subset (List.mem_append_left _ hx)
  have hsub : c :: counted l ⊆ s₀.poller.liveChannels := by
    intro x hx
    rcases List.mem_cons.mp hx with rfl | hx
    · exact hc₀
    · exact h.walk.turns_subset h₀ hc₀ hrest (hcounted hx)
  have hnodup : (c :: counted l).Nodup := by
    have hturns := (h.walk.turns_nodup h₀).sublist (List.sublist_append_left _ _)
    exact List.nodup_cons.mpr ⟨fun hx => hturn (hcounted hx),
      hturns.sublist ((List.sublist_append_left _ _).trans h.served.counts)⟩
  have hfds : ((c :: counted l).map fun x => (s₀.obj x).map Channel.fd).Nodup := by
    apply List.Nodup.map_on _ hnodup
    intro x hx y hy he
    obtain ⟨ch, hch, hfd⟩ := h₀.live_iff.mp (hsub hx)
    obtain ⟨ch', hch', -⟩ := h₀.live_iff.mp (hsub hy)
    rw [hch, hch'] at he
    exact h₀.fd_inj hch hch' hfd (Option.some.inj he)
  have hmem : ((c :: counted l).map fun x => (s₀.obj x).map Channel.fd) ⊆
      (rs ++ ws).dedup.map some := by
    intro fd hfd
    obtain ⟨x, hx, rfl⟩ := List.mem_map.mp hfd
    have hr : s₀.Ready rs x ∨ s₀.Ready ws x := by
      rcases List.mem_cons.mp hx with rfl | hx'
      · exact hready
      · exact h.served.ready (hsub hx) (List.mem_append_left _ hx')
    rcases hr with ⟨ch, hch, hin⟩ | ⟨ch, hch, hin⟩
    · exact List.mem_map.mpr ⟨ch.fd, List.mem_dedup.mpr (List.mem_append_left _ hin),
        by rw [hch]; rfl⟩
    · exact List.mem_map.mpr ⟨ch.fd, List.mem_dedup.mpr (List.mem_append_right _ hin),
        by rw [hch]; rfl⟩
  have hlen := (List.subperm_of_subset hfds hmem).length_le
  simp only [List.length_map, List.length_cons] at hlen
  have hcount := h.served.count
  omega

/-- What a pass has done, by the events `l`, from the channels `s₀` on which
`select` has returned `rs` and `ws`. -/
structure DispatchDone (rs ws : List Int) (s₀ : Channels) (l : List DispatchEvent) : Prop where
  /-- a channel that is ready to read, and is not removed before its turn, is
  read exactly once -/
  reads : ∀ {c ch}, c ∈ s₀.poller.liveChannels → s₀.obj c = some ch → ch.fd ∈ rs →
    ¬ RemovedBefore (.turn c) c l → l.count (.read c) = 1
  /-- a channel that is ready to write, and is still listed after its read
  handler, is written exactly once -/
  writes : ∀ {c ch}, c ∈ s₀.poller.liveChannels → s₀.obj c = some ch → ch.fd ∈ ws →
    ¬ RemovedBefore (.tested c) c l → l.count (.write c) = 1
  /-- a channel that is removed before its turn is not dispatched -/
  removed : ∀ {c}, RemovedBefore (.turn c) c l →
    l.count (.read c) = 0 ∧ l.count (.write c) = 0
  /-- handlers are called in the order of the list, reading before writing, each
  at most once -/
  order : (dispatched l).Sublist (handlers (s₀.poller.liveChannels ++ constructed l))

theorem handlers_sublist {l₁ l₂ : List ChannelId} (h : l₁.Sublist l₂) :
    (handlers l₁).Sublist (handlers l₂) := h.flatMap _

/-- No handler is called twice. -/
theorem DispatchInv.count_eq_one (h : DispatchInv rs ws s₀ n d l) (h₀ : ChannelsOk s₀)
    {e : DispatchEvent} (he : e.isDispatch) (hmem : e ∈ l) : l.count e = 1 := by
  have hturns := (h.walk.turns_nodup h₀).sublist (List.sublist_append_left _ _)
  have hnodup : (dispatched l).Nodup :=
    (nodup_handlers hturns).sublist ((List.sublist_append_left _ _).trans h.served.order)
  rw [← List.count_filter he]
  exact List.count_eq_one_of_mem hnodup (List.mem_filter.mpr ⟨hmem, he⟩)

theorem DispatchInv.done (h : DispatchInv rs ws s₀ n d l) (h₀ : ChannelsOk s₀)
    (hn : (rs ++ ws).dedup.length ≤ n) (hdone : d.control = .done) :
    DispatchDone rs ws s₀ l := by
  have hidle : d.mode = .idle := by rw [Dispatch.mode, hdone]
  have htested : ∀ {c}, c ∈ turns l → .tested c ∈ l := by
    intro c hc
    rcases h.served.tests hc with ht | ⟨dec, he⟩
    · exact ht
    · rw [hidle] at he
      cases he
  constructor
  · intro c ch hc₀ hch hfd hrem
    have hturn : c ∈ turns l := by
      by_contra hturn
      rw [RemovedBefore, before_of_not_mem (mem_turns.not.mp hturn)] at hrem
      exact hturn (h.turned h₀ hn hdone hc₀ (Or.inl ⟨ch, hch, hfd⟩) hrem)
    exact h.count_eq_one h₀ rfl ((h.served.reads hc₀ hturn).mpr ⟨ch, hch, hfd⟩)
  · intro c ch hc₀ hch hfd hrem
    have htest : .tested c ∈ l := by
      by_contra htest
      rw [RemovedBefore, before_of_not_mem htest] at hrem
      exact htest (htested (h.turned h₀ hn hdone hc₀ (Or.inr ⟨ch, hch, hfd⟩) hrem))
    have hiff := (h.served.writes hc₀ htest).resolve_left hrem
    exact h.count_eq_one h₀ rfl (hiff.mpr ⟨ch, hch, hfd⟩)
  · intro c hrem
    have hturn : c ∉ turns l := fun hc => h.walk.late hc hrem
    exact ⟨List.count_eq_zero.mpr fun hr => hturn (h.served.turn_of_read hr),
      List.count_eq_zero.mpr fun hw => hturn (h.served.turn_of_write hw)⟩
  · have hturns : (turns l).Sublist (s₀.poller.liveChannels ++ constructed l) :=
      (List.sublist_append_left _ _).trans h.walk.order
    exact ((List.sublist_append_left _ _).trans h.served.order).trans (handlers_sublist hturns)

end Steps

/-- **The dispatch pass misses nothing and repeats nothing.**  Whatever channels
the handlers construct, switch, close and free, their own included: the cursor
is always at the end or at a listed channel, and a pass that is over has
dispatched every ready channel that was not removed before its turn, once, in
the order of the list, and no channel that was. -/
theorem dispatch_pass {s : Channels} (h : ChannelsOk s) (rs ws : List Int) {n : Int}
    (hn : (rs ++ ws).dedup.length ≤ n) {as : List DispatchLabel} {d : Dispatch}
    (hrun : Exec.exec (dispatchStep rs ws) (Dispatch.start s n) as = some d) :
    (∀ c, d.chans.poller.curIt = some c → c ∈ d.chans.poller.liveChannels) ∧
      (d.control = .done → DispatchDone rs ws s
        (Exec.trace (dispatchStep rs ws) (dispatchEvents rs ws) (Dispatch.start s n) as)) := by
  have hinv := dispatchInv_of_run h hrun
  exact ⟨hinv.walk.ok.cursor, hinv.done h hn⟩

/-- Three channels on the descriptors 10, 11 and 12; the first and the third can
be read, the second and the third written.  The first read handler closes the
third channel and constructs a new one, which gets the same descriptor. -/
theorem dispatch_pass_reused_fd :
    ∃ s d, Exec.exec channelStep Channels.init [.construct 10, .construct 11, .construct 12]
        = some s ∧
      Exec.exec (dispatchStep [10, 12] [11, 12]) (Dispatch.start s 3)
        [.visit 0, .op (.close 3), .op (.construct 12), .ret 0, .visit 0, .ret 0, .visit 0,
          .ret 0, .ret 0] = some d ∧ d.control = .done ∧
      DispatchDone [10, 12] [11, 12] s
        (Exec.trace (dispatchStep [10, 12] [11, 12]) (dispatchEvents [10, 12] [11, 12])
          (Dispatch.start s 3) [.visit 0, .op (.close 3), .op (.construct 12), .ret 0,
            .visit 0, .ret 0, .visit 0, .ret 0, .ret 0]) := by
  have hrun : Exec.exec channelStep Channels.init
      [.construct 10, .construct 11, .construct 12] = some _ := rfl
  exact ⟨_, _, hrun, rfl, rfl,
    (dispatch_pass (channelsOk_of_run hrun) [10, 12] [11, 12] (by decide) rfl).2 rfl⟩

section Progress

variable {rs ws : List Int} {s₀ : Channels} {n : Int} {d : Dispatch} {l : List DispatchEvent}

/-- **The loop is never stuck and ends**: until it is over the loop itself can
take a step, and it visits no more channels than there were at the start and
were constructed since. -/
theorem DispatchInv.progress (h : DispatchInv rs ws s₀ n d l) :
    (d.control = .done ∨ (dispatchStep rs ws d (.visit 0)).isSome ∨
      (dispatchStep rs ws d (.ret 0)).isSome) ∧
      (turns l).length ≤ s₀.poller.liveChannels.length + (constructed l).length := by
  constructor
  · cases hctl : d.control with
    | done => exact Or.inl rfl
    | head =>
        obtain ⟨c, hcur⟩ := Option.isSome_iff_exists.mp (h.head hctl).2
        right
        left
        simp only [dispatchStep, hctl, hcur]
        split <;> rfl
    | reading c => exact Or.inr (Or.inr (by simp [dispatchStep, hctl]))
    | writing c => exact Or.inr (Or.inr (by simp [dispatchStep, hctl]))
  · have hsub := (List.sublist_append_left (Libet.turns l) _).trans h.walk.order
    simpa using hsub.length_le

end Progress

end Libet
