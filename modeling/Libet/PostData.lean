/-
Libet/PostData.lean

`EventBase::PostDataToOneConn` and `PostDataToAllConns`.

A connection lives as long as something holds it; its channel lives from `Attach`
until `Cleanup` sets `m_channel` to null.  The steps here are the moments of these
two lifetimes: `Cleanup` first takes the connection out of `m_conns` and then clears
`m_channel`.  Any thread may post between any two of them, and the workers of the pool
go on meanwhile.  Every event of the loop goes through these steps
(`exec_of_worldStep`).

Two things are one step here that are not in the source.  A post is: between the lock on
the weak handle, or on `m_conns`, and the `AddTask`s nothing happens to the channels.  And
`m_conns.Clear()` is, though it takes no lock and may race with a post to all.  A run goes
on behind a post that follows a null `m_channel` as if the post had done nothing; what
precedes such a post is what the source does.

`m_conns` holds only connections with a channel (`PostState.Inv`), so
`PostDataToAllConns` is safe.  `PostDataToOneConn` looks whether the weak handle
locks, and not at `m_channel`: `postsSafely_iff`.
-/
import Libet.ConnThreadPool
import Libet.Lifecycle
import Libet.Teardown
import Libet.WorldRule

namespace Libet

/-! ### Lifetimes -/

/-- What the closure that is posted has captured: the connection, and a copy of the
buffer. -/
structure SendTask where
  con : ConnId
  buf : Buffer
  deriving DecidableEq, Repr

/-- The connections of an event base, and its pool of `n` workers. -/
structure PostState (n : Nat) where
  /-- the number of connections made so far -/
  created : ConnId
  channel : ConnId → Option ChannelId
  conns : List ConnId
  /-- how many other owners a connection has: timers, idle callbacks, tasks of the
  loop, running functions -/
  holders : ConnId → Nat
  pool : ConnThreadPool n SendTask

inductive PostLabel (n : Nat)
  /-- `m_createCb()` hands out a new connection -/
  | create
  /-- `Attach`, with a new channel -/
  | attach (i : ConnId) (ch : ChannelId)
  /-- `m_base->RemoveConn(con)` in `Cleanup` -/
  | removeConn (i : ConnId)
  /-- `m_channel = nullptr` in `Cleanup` -/
  | clearChannel (i : ConnId)
  /-- `m_conns.Clear()` behind the loop in `Loop` -/
  | clear
  /-- somebody gets hold of a connection -/
  | hold (i : ConnId)
  /-- and lets go of it -/
  | release (i : ConnId)
  | postOne (i : ConnId) (buf : WFBuffer)
  | postAll (buf : WFBuffer)
  /-- a worker takes a step; nobody else adds tasks, and the pool exits only in
  `~EventBase` -/
  | work (a : PoolLabel n SendTask)

/-- A step of a worker's own thread. -/
def PoolLabel.isWork {n : Nat} {Task : Type*} : PoolLabel n Task → Bool
  | .addTask .. | .exit _ => false
  | _ => true

namespace PostState

variable {n : Nat} (s : PostState n) (i : ConnId)

def init (n : Nat) : PostState n := ⟨0, fun _ => none, [], fun _ => 0, .new fun _ => 0⟩

/-- A task of the connection waits, has been popped or is running. -/
def HasTask : Prop :=
  ∃ k, ∃ x ∈ (s.pool.workers k).tasks.items ++ (s.pool.workers k).held ++
    (s.pool.workers k).running, x.2.con = i

instance : Decidable (s.HasTask i) := inferInstanceAs (Decidable (∃ _, ∃ _ ∈ _, _))

/-- Something owns the connection, so that a weak handle of it locks.  The callbacks
of its channel do. -/
def Alive : Prop :=
  i ∈ s.conns ∨ (s.channel i).isSome ∨ 0 < s.holders i ∨ s.HasTask i

instance : Decidable (s.Alive i) := inferInstanceAs (Decidable (_ ∨ _))

def setChannel (ch : Option ChannelId) : PostState n :=
  { s with channel := Function.update s.channel i ch }

def setHolders (k : Nat) : PostState n := { s with holders := Function.update s.holders i k }

variable [NeZero n]

/-- `m_upConnThreadPool->AddTask(id, [con, buf]() …)`. -/
def addTask (ch : ChannelId) (buf : Buffer) : PostState n :=
  { s with pool := (s.pool.addTask ch ⟨i, buf.copyFrom⟩).2 }

end PostState

section Machine

variable {n : Nat} [NeZero n]

/-- `PostDataToOneConn`; `none` if it follows a null `m_channel`. -/
def postDataToOneConn (buf : Buffer) (i : ConnId) (s : PostState n) : Option (PostState n) :=
  if s.Alive i then (s.channel i).map fun ch => s.addTask i ch buf else some s

/-- `PostDataToAllConns`, under the lock of `m_conns`; `none` if it follows a null
`m_channel`. -/
def postDataToAllConns (buf : Buffer) (s : PostState n) : Option (PostState n) :=
  s.conns.foldlM (fun s i => (s.channel i).map fun ch => s.addTask i ch buf) s

/-- One step.  A run goes on behind a null pointer as if nothing had happened. -/
def postStep (s : PostState n) : PostLabel n → Option (PostState n)
  | .create => some { s.setHolders s.created (s.holders s.created + 1) with created := s.created + 1 }
  | .attach i ch =>
      if s.Alive i ∧ s.channel i = none then
        some { s.setChannel i (some ch) with conns := s.conns ++ [i] }
      else none
  | .removeConn i => some { s with conns := s.conns.filter (· ≠ i) }
  | .clearChannel i => if i ∈ s.conns then none else some (s.setChannel i none)
  | .clear => some { s with conns := [] }
  | .hold i => if s.Alive i then some (s.setHolders i (s.holders i + 1)) else none
  | .release i =>
      if 0 < s.holders i then some (s.setHolders i (s.holders i - 1)) else none
  | .postOne i buf => some ((postDataToOneConn buf.1 i s).getD s)
  | .postAll buf => some ((postDataToAllConns buf.1 s).getD s)
  | .work a => if a.isWork then (poolStep s.pool a).map fun p => { s with pool := p } else none

end Machine

/-! ### What a post has to do -/

section Property

variable {n : Nat} [NeZero n] (s : PostState n)

/-- The tasks for the connections of `l` with their channels, each with a copy of the
buffer, have been put at the end of the queues of their workers, and nothing else has
changed. -/
structure Posted (l : List (ChannelId × ConnId)) (buf : Buffer) (s' : PostState n) : Prop where
  frame : s' = { s with pool := s'.pool }
  workers : ∀ k, s'.pool.workers k = { s.pool.workers k with
    tasks := { (s.pool.workers k).tasks with
      items := (s.pool.workers k).tasks.items ++
        (l.filter fun x => ConnThreadPool.index n x.1 = k).map
          fun x => (x.1, ⟨x.2, buf.copyFrom⟩) } }
  copy : buf.copyFrom.content = buf.content

/-- Posts follow no null `m_channel`.  A post to one connection adds exactly one task
if it has a channel, and has no effect if it has none; a post to all adds exactly one
for each connection in `m_conns`. -/
structure PostsSafely (a : PostLabel n) (s' : PostState n) : Prop where
  one_safe : ∀ i buf, a = .postOne i buf → (postDataToOneConn buf.1 i s).isSome
  one_effect : ∀ i buf, a = .postOne i buf →
    Posted s (((s.channel i).map fun ch => (ch, i)).toList) buf.1 s'
  all_safe : ∀ buf, a = .postAll buf → (postDataToAllConns buf.1 s).isSome
  all_effect : ∀ buf, a = .postAll buf →
    (s.conns.filterMap fun i => (s.channel i).map fun ch => (ch, i)).map Prod.snd = s.conns ∧
      s.conns.Nodup ∧
      Posted s (s.conns.filterMap fun i => (s.channel i).map fun ch => (ch, i)) buf.1 s'

/-- A weak handle to which the step posts has a channel if it locks. -/
def LocksAttached : PostLabel n → Prop
  | .postOne i _ => s.Alive i → (s.channel i).isSome
  | _ => True

instance : ∀ a, Decidable (LocksAttached s a)
  | .postOne i _ => inferInstanceAs (Decidable (s.Alive i → _))
  | .create | .attach .. | .removeConn _ | .clearChannel _ | .clear | .hold _ | .release _
  | .postAll _ | .work _ => isTrue trivial

end Property

/-! ### The effect of a post -/

/-- The queues of a pool take every task. -/
def ConnThreadPool.Open {n : Nat} {Task : Type*} (p : ConnThreadPool n Task) : Prop :=
  ∀ k, (p.workers k).tasks.exited = false ∧ (p.workers k).tasks.capacity = 0

section Posts

variable {n : Nat} [NeZero n] {s t u : PostState n} {l l' : List (ChannelId × ConnId)}
  {buf : Buffer} {i : ConnId} {ch : ChannelId} {p p' : ConnThreadPool n SendTask}

/-- A worker's own step leaves its queue open. -/
theorem open_poolStep {a : PoolLabel n SendTask} (ha : a.isWork = true)
    (hstep : poolStep p a = some p') (h : p.Open) : p'.Open := by
  have hset : ∀ {k : Fin n} {w : WorkerImp (ChannelId × SendTask)},
      w.tasks.exited = false ∧ w.tasks.capacity = 0 → (p.setWorker k w).Open := by
    intro k w hw j
    simp only [ConnThreadPool.setWorker, Function.update_apply]
    split
    · exact hw
    · exact h j
  cases a with
  | addTask id task => cases ha
  | exit k => cases ha
  | start k | check k | run k | ret k =>
      rw [poolStep] at hstep
      split at hstep
      · obtain rfl := Option.some.inj hstep
        exact hset (h k)
      · cases hstep
  | pop k =>
      rw [poolStep] at hstep
      split at hstep
      · split at hstep
        · rcases SafeQueue.popWait_cases (q := (p.workers k).tasks) with
            ⟨-, hpop⟩ | ⟨task, rest, -, hpop⟩
          · rw [hpop] at hstep
            obtain rfl := Option.some.inj hstep
            exact hset (h k)
          · rw [hpop] at hstep
            obtain rfl := Option.some.inj hstep
            exact hset (h k)
        · cases hstep
      · cases hstep

theorem posted_nil (hcopy : buf.copyFrom.content = buf.content) : Posted s [] buf s := by
  refine ⟨rfl, fun k => ?_, hcopy⟩
  rw [List.filter_nil, List.map_nil, List.append_nil]

theorem Posted.append (h : Posted s l buf t) (h' : Posted t l' buf u) :
    Posted s (l ++ l') buf u := by
  refine ⟨?_, fun k => ?_, h.copy⟩
  · rw [h'.frame, h.frame]
  · rw [h'.workers k, h.workers k, List.filter_append, List.map_append, List.append_assoc]

theorem Posted.isOpen (h : Posted s l buf t) (ho : s.pool.Open) : t.pool.Open := by
  intro k
  rw [h.workers k]
  exact ho k

/-- One `AddTask`. -/
theorem posted_addTask (ho : s.pool.Open) (hcopy : buf.copyFrom.content = buf.content) :
    Posted s [(ch, i)] buf (s.addTask i ch buf) := by
  obtain ⟨hexit, hcap⟩ := ho (ConnThreadPool.index n ch)
  have hpush : (s.pool.addTask ch ⟨i, buf.copyFrom⟩).2 = s.pool.setWorker (ConnThreadPool.index n ch)
      { s.pool.workers (ConnThreadPool.index n ch) with
        tasks := { (s.pool.workers (ConnThreadPool.index n ch)).tasks with
          items := (s.pool.workers (ConnThreadPool.index n ch)).tasks.items ++ [(ch, ⟨i, buf.copyFrom⟩)] } } := by
    rw [ConnThreadPool.addTask, SafeQueue.push_unbounded hcap hexit]
  refine ⟨rfl, fun k => ?_, hcopy⟩
  show (s.pool.addTask ch ⟨i, buf.copyFrom⟩).2.workers k = _
  rw [hpush]
  show Function.update s.pool.workers (ConnThreadPool.index n ch) _ k = _
  by_cases hk : k = ConnThreadPool.index n ch
  · subst hk
    have hfilter : [(ch, i)].filter (fun x => ConnThreadPool.index n x.1 =
        ConnThreadPool.index n ch) = [(ch, i)] := List.filter_cons_of_pos (decide_eq_true rfl)
    rw [Function.update_self, hfilter]
    rfl
  · rw [Function.update_of_ne hk, List.filter_cons_of_neg (by simpa using Ne.symm hk)]
    rw [List.filter_nil, List.map_nil, List.append_nil]

/-- A post to the connections of a list that all have channels. -/
theorem posted_foldlM (hcopy : buf.copyFrom.content = buf.content) (js : List ConnId)
    (hch : ∀ i ∈ js, (s.channel i).isSome) (ho : s.pool.Open) :
    ∃ t, js.foldlM (fun s i => (s.channel i).map fun ch => s.addTask i ch buf) s = some t ∧
      Posted s (js.filterMap fun i => (s.channel i).map fun ch => (ch, i)) buf t := by
  induction js generalizing s with
  | nil => exact ⟨s, rfl, posted_nil hcopy⟩
  | cons j js ih =>
      obtain ⟨ch, hj⟩ := Option.isSome_iff_exists.mp (hch j List.mem_cons_self)
      have hone : Posted s [(ch, j)] buf (s.addTask j ch buf) := posted_addTask ho hcopy
      obtain ⟨t, ht, hrest⟩ := ih (s := s.addTask j ch buf)
        (fun i hi => hch i (List.mem_cons_of_mem _ hi)) (hone.isOpen ho)
      refine ⟨t, ?_, ?_⟩
      · rw [List.foldlM_cons, hj]
        exact ht
      · rw [List.filterMap_cons, hj]
        exact hone.append hrest

omit [NeZero n] in
/-- Connections that all have channels. -/
theorem map_snd_channels {js : List ConnId} (hch : ∀ i ∈ js, (s.channel i).isSome) :
    (js.filterMap fun i => (s.channel i).map fun ch => (ch, i)).map Prod.snd = js := by
  induction js with
  | nil => rfl
  | cons j js ih =>
      obtain ⟨ch, hj⟩ := Option.isSome_iff_exists.mp (hch j List.mem_cons_self)
      rw [List.filterMap_cons, hj]
      exact congrArg (List.cons j) (ih fun i hi => hch i (List.mem_cons_of_mem _ hi))

end Posts

/-! ### The invariant -/

section Runs

variable {n : Nat} [NeZero n] {s s' : PostState n} {a : PostLabel n} {as : List (PostLabel n)}

/-- What is in `m_conns` has a channel, and is there once; the pool takes every task. -/
structure PostState.Inv (s : PostState n) : Prop where
  hasChannel : ∀ i ∈ s.conns, (s.channel i).isSome
  nodup : s.conns.Nodup
  isOpen : s.pool.Open

omit [NeZero n] in
theorem postState_inv_init : (PostState.init n).Inv where
  hasChannel _ h := by cases h
  nodup := List.nodup_nil
  isOpen _ := ⟨rfl, rfl⟩

theorem posted_all (h : s.Inv) (buf : WFBuffer) :
    ∃ t, postDataToAllConns buf.1 s = some t ∧
      Posted s (s.conns.filterMap fun i => (s.channel i).map fun ch => (ch, i)) buf.1 t :=
  posted_foldlM buf.2.valid.copyFrom.2 s.conns h.hasChannel h.isOpen

/-- A post keeps the invariant. -/
theorem PostState.Inv.posted (h : s.Inv) {l : List (ChannelId × ConnId)} {buf : Buffer}
    (hp : Posted s l buf s') : s'.Inv := by
  refine ⟨?_, ?_, hp.isOpen h.isOpen⟩
  · rw [hp.frame]
    exact h.hasChannel
  · rw [hp.frame]
    exact h.nodup

/-- **Every step keeps the invariant**, wherever in the lifetime of a connection it is
taken. -/
theorem PostState.Inv.step (h : s.Inv) (hstep : postStep s a = some s') : s'.Inv := by
  cases a with
  | create =>
      obtain rfl := Option.some.inj hstep
      exact ⟨h.hasChannel, h.nodup, h.isOpen⟩
  | attach i ch =>
      simp only [postStep] at hstep
      split at hstep
      · rename_i hok
        obtain rfl := Option.some.inj hstep
        have hnot : i ∉ s.conns := by
          intro hmem
          have hsome := h.hasChannel i hmem
          rw [hok.2] at hsome
          cases hsome
        refine ⟨?_, ?_, h.isOpen⟩
        · intro j hj
          show (Function.update s.channel i (some ch) j).isSome
          by_cases hji : j = i
          · subst hji
            rw [Function.update_self]
            rfl
          · rw [Function.update_of_ne hji]
            rcases List.mem_append.mp hj with hj | hj
            · exact h.hasChannel j hj
            · exact absurd (List.mem_singleton.mp hj) hji
        · exact List.nodup_append.mpr ⟨h.nodup, List.nodup_singleton i, fun x hx y hy hxy =>
            hnot (List.mem_singleton.mp hy ▸ hxy ▸ hx)⟩
      · cases hstep
  | removeConn i =>
      obtain rfl := Option.some.inj hstep
      exact ⟨fun j hj => h.hasChannel j (List.mem_filter.mp hj).1, h.nodup.filter _, h.isOpen⟩
  | clearChannel i =>
      simp only [postStep] at hstep
      split at hstep
      · cases hstep
      · rename_i hnot
        obtain rfl := Option.some.inj hstep
        refine ⟨fun j hj => ?_, h.nodup, h.isOpen⟩
        have hji : j ≠ i := fun heq => hnot (heq ▸ hj)
        show (Function.update s.channel i none j).isSome
        rw [Function.update_of_ne hji]
        exact h.hasChannel j hj
  | clear =>
      obtain rfl := Option.some.inj hstep
      exact ⟨fun j hj => absurd hj List.not_mem_nil, List.nodup_nil, h.isOpen⟩
  | hold i =>
      simp only [postStep] at hstep
      split at hstep
      · obtain rfl := Option.some.inj hstep
        exact ⟨h.hasChannel, h.nodup, h.isOpen⟩
      · cases hstep
  | release i =>
      simp only [postStep] at hstep
      split at hstep
      · obtain rfl := Option.some.inj hstep
        exact ⟨h.hasChannel, h.nodup, h.isOpen⟩
      · cases hstep
  | postOne i buf =>
      obtain rfl := Option.some.inj hstep
      rw [postDataToOneConn]
      split
      · cases hch : s.channel i with
        | none => exact h
        | some ch =>
            have hp : Posted s [(ch, i)] buf.1 (s.addTask i ch buf.1) :=
              posted_addTask h.isOpen buf.2.valid.copyFrom.2
            exact h.posted hp
      · exact h
  | postAll buf =>
      obtain rfl := Option.some.inj hstep
      obtain ⟨t, ht, hp⟩ := posted_all h buf
      rw [ht]
      exact h.posted hp
  | work b =>
      simp only [postStep] at hstep
      split at hstep
      · rename_i hwork
        obtain ⟨p, hpool, rfl⟩ := Option.map_eq_some_iff.mp hstep
        exact ⟨h.hasChannel, h.nodup, open_poolStep hwork hpool h.isOpen⟩
      · cases hstep

/-- **A post to one connection** is safe exactly if the handle does not lock, or the
connection has a channel. -/
theorem isSome_postDataToOneConn (s : PostState n) (buf : Buffer) (i : ConnId) :
    (postDataToOneConn buf i s).isSome ↔ (s.Alive i → (s.channel i).isSome) := by
  rw [postDataToOneConn]
  split
  · rename_i halive
    rw [Option.isSome_map, forall_prop_of_true halive]
  · rename_i hdead
    exact iff_of_true rfl fun halive => absurd halive hdead

/-- What a post to one connection does. -/
theorem posted_one (h : s.Inv) (i : ConnId) (buf : WFBuffer) :
    Posted s (((s.channel i).map fun ch => (ch, i)).toList) buf.1
      ((postDataToOneConn buf.1 i s).getD s) := by
  have hcopy := buf.2.valid.copyFrom.2
  rw [postDataToOneConn]
  cases hch : s.channel i with
  | none =>
      -- nothing happens, or a null pointer is followed
      have hnone : (if s.Alive i then (none : Option ChannelId).map
          (fun ch => s.addTask i ch buf.1) else some s).getD s = s := by
        split <;> rfl
      rw [hnone]
      exact posted_nil hcopy
  | some ch =>
      have halive : s.Alive i := by
        refine Or.inr (Or.inl ?_)
        rw [hch]
        rfl
      rw [if_pos halive]
      exact posted_addTask h.isOpen hcopy

/-- **One step.** -/
theorem postsSafely_step (hstep : postStep s a = some s') (h : s.Inv) :
    PostsSafely s a s' ↔ LocksAttached s a := by
  constructor
  · intro hsafe
    cases a with
    | postOne i buf =>
        exact (isSome_postDataToOneConn s buf.1 i).mp (hsafe.one_safe i buf rfl)
    | create | attach | removeConn | clearChannel | clear | hold | release | postAll | work =>
        exact trivial
  · intro hlocks
    constructor
    case one_safe =>
      rintro i buf rfl
      exact (isSome_postDataToOneConn s buf.1 i).mpr hlocks
    case one_effect =>
      rintro i buf rfl
      obtain rfl := Option.some.inj hstep
      exact posted_one h i buf
    case all_safe =>
      rintro buf rfl
      obtain ⟨t, ht, -⟩ := posted_all h buf
      rw [ht]
      rfl
    case all_effect =>
      rintro buf rfl
      obtain rfl := Option.some.inj hstep
      obtain ⟨t, ht, hp⟩ := posted_all h buf
      rw [ht]
      exact ⟨map_snd_channels h.hasChannel, h.nodup, hp⟩

/-- **Posting is safe** in every state that a run reaches, exactly if each
`PostDataToOneConn` of the run is called on a weak handle whose connection is gone, or
is between `Attach` and the end of its channel in `Cleanup`. -/
theorem postsSafely_iff :
    Exec.Along postStep PostsSafely (PostState.init n) as ↔
      Exec.Along postStep (fun s a _ => LocksAttached s a) (PostState.init n) as :=
  Exec.along_iff (I := PostState.Inv) (fun _ _ _ hstep _ h => h.step hstep)
    (fun _ _ _ hstep h => postsSafely_step hstep h) postState_inv_init

/-- A buffer with one byte. -/
def oneByte : WFBuffer := ⟨Buffer.new.append [7], Buffer.wf_append Buffer.wf_new [7]⟩

/-- Posts to a connection that is attached, torn down and then gone. -/
theorem postsSafely_lifetime :
    Exec.Along postStep PostsSafely (PostState.init 2)
      [.create, .attach 0 7, .release 0, .postOne 0 oneByte, .removeConn 0, .postAll oneByte,
        .clearChannel 0, .work (.start 1), .work (.check 1), .work (.pop 1), .work (.run 1),
        .work (.ret 1), .postOne 0 oneByte] :=
  postsSafely_iff.mpr (by decide +kernel)

/-- A timer still holds the connection when its channel is gone. -/
theorem not_postsSafely_held :
    ¬Exec.Along postStep PostsSafely (PostState.init 2)
      [.create, .attach 0 7, .removeConn 0, .clearChannel 0, .postOne 0 oneByte] := by
  intro h
  have hpost := ((((h _ rfl).2 _ rfl).2 _ rfl).2 _ rfl).2 _ rfl
  exact absurd (hpost.1.one_safe 0 oneByte rfl) (by decide +kernel)

end Runs

/-! ### The events of the loop -/

section Events

variable {n : Nat} [NeZero n] {s : PostState n} {app : App} {w w' : World} {i : ConnId}

/-- The connections of `s` are those of the world. -/
structure Mirrors (s : PostState n) (w : World) : Prop where
  created : s.created = w.nextConn
  conns : s.conns = w.base.conns
  channel : ∀ i, s.channel i = (w.con i).channel.map Channel.id

/-- From `s`, steps other than posts lead to the connections of the world. -/
def Leads (s : PostState n) (w : World) : Prop :=
  ∃ as t, Exec.exec postStep s as = some t ∧ Mirrors t w

namespace Leads

/-- The change is none to the connections. -/
theorem frame (h : Leads s w) (hnext : w'.nextConn = w.nextConn)
    (hconns : w'.base.conns = w.base.conns)
    (hch : ∀ i, (w'.con i).channel.map Channel.id = (w.con i).channel.map Channel.id) :
    Leads s w' := by
  obtain ⟨as, t, hrun, hs⟩ := h
  exact ⟨as, t, hrun, hs.created.trans hnext.symm, hs.conns.trans hconns.symm,
    fun i => (hs.channel i).trans (hch i).symm⟩

/-- The change is some further steps. -/
theorem snoc (h : Leads s w) (bs : List (PostLabel n))
    (hstep : ∀ t, Mirrors t w → ∃ t', Exec.exec postStep t bs = some t' ∧ Mirrors t' w') :
    Leads s w' := by
  obtain ⟨as, t, hrun, hs⟩ := h
  obtain ⟨t', ht, hs'⟩ := hstep t hs
  refine ⟨as ++ bs, t', ?_, hs'⟩
  rw [Exec.exec_append, hrun]
  exact ht

theorem set (h : Leads s w) {c : TcpConn}
    (hch : c.channel.map Channel.id = (w.con i).channel.map Channel.id) : Leads s (w.set i c) := by
  refine Leads.frame h rfl ?_ fun j => ?_
  · rfl
  show (Function.update w.con i c j).channel.map Channel.id = _
  by_cases hj : j = i
  · subst hj
    rw [Function.update_self]
    exact hch
  · rw [Function.update_of_ne hj]

theorem quiet (h : Leads s w) (hq : w.Quiet w') : Leads s w' := by
  have hhub := hq.hub
  refine h.frame (congrArg Hub.nextConn hhub) (congrArg Hub.conns hhub) fun i => ?_
  have hpeer := congrArg Peer.channel (congrFun (congrArg Hub.peer hhub) i)
  have hid := congrArg (Option.map Prod.fst) hpeer
  simp only [World.hub, TcpConn.peer, Option.map_map] at hid
  exact hid

/-- The last owner of the channel lets go of it, behind `RemoveConn`. -/
theorem clearChannel (h : Leads s w) (hconns : i ∉ w.base.conns) {c : TcpConn}
    (hnone : c.channel = none) : Leads s (w.set i c) := by
  apply h.snoc [.clearChannel i]
  intro t hs
  refine ⟨t.setChannel i none, ?_, hs.created, hs.conns, fun j => ?_⟩
  · rw [Exec.exec_cons, postStep, if_neg (hs.conns ▸ hconns)]
    rfl
  · show Function.update t.channel i none j =
      (Function.update w.con i c j).channel.map Channel.id
    by_cases hj : j = i
    · subst hj
      rw [Function.update_self, Function.update_self, hnone]
      rfl
    · rw [Function.update_of_ne hj, Function.update_of_ne hj]
      exact hs.channel j

theorem removeConn (h : Leads s w) (i : ConnId) :
    Leads s { w with base := w.base.removeConn i } := by
  apply h.snoc [.removeConn i]
  intro t hs
  refine ⟨{ t with conns := t.conns.filter (· ≠ i) }, rfl, hs.created, ?_, hs.channel⟩
  rw [hs.conns]
  rfl

/-- `HandleAccept`. -/
theorem accept (h : Leads s w) (hnew : (w.con w.nextConn).channel = none) (fd : Int)
    (sock : Socket) : Leads s (handleAccept app fd sock w) := by
  apply h.snoc [.create, .attach w.nextConn w.nextChannel, .release w.nextConn]
  intro t hs
  -- between `m_createCb()` and the end of `addcon` the new connection has one owner more
  have hheld : 0 < Function.update t.holders t.created (t.holders t.created + 1) w.nextConn := by
    rw [hs.created, Function.update_self]
    exact Nat.succ_pos _
  have hfree : t.channel w.nextConn = none := by
    rw [hs.channel, hnew]
    rfl
  have hrun : Exec.exec postStep t [.create, .attach w.nextConn w.nextChannel,
      .release w.nextConn] = some (PostState.setHolders
        { t with
          created := t.created + 1
          channel := Function.update t.channel w.nextConn (some w.nextChannel)
          conns := t.conns ++ [w.nextConn]
          holders := Function.update t.holders t.created (t.holders t.created + 1) }
        w.nextConn (Function.update t.holders t.created (t.holders t.created + 1) w.nextConn - 1)) := by
    rw [Exec.exec_cons, postStep, Option.bind_some, Exec.exec_cons, postStep,
      if_pos ⟨Or.inr (Or.inr (Or.inl hheld)), hfree⟩, Option.bind_some, Exec.exec_cons]
    exact congrArg (Option.bind · some) (if_pos hheld)
  refine ⟨_, hrun, ?_⟩
  refine ⟨congrArg (· + 1) hs.created, congrArg (· ++ [w.nextConn]) hs.conns, fun j => ?_⟩
  show Function.update t.channel w.nextConn (some w.nextChannel) j =
    (Function.update w.con w.nextConn _ j).channel.map Channel.id
  by_cases hj : j = w.nextConn
  · subst hj
    rw [Function.update_self, Function.update_self]
    rfl
  · rw [Function.update_of_ne hj, Function.update_of_ne hj]
    exact hs.channel j

/-- What a world goes through are steps of the connections. -/
theorem rule (app : App) (s : PostState n) : World.PollerRule app (Leads s) where
  runOp op h := h.quiet (World.quiet_runOp _ op)
  keeps h _ hch := h.set (congrArg (Option.map Channel.id) hch)
  log h _ := h.frame rfl rfl fun _ => rfl
  base {w b} h _ _ _ _ hconns := by
    rcases hconns with hsame | ⟨i, rfl⟩
    · exact h.frame rfl hsame fun _ => rfl
    · exact h.removeConn i
  unregisterIdles {w} i h := h.frame rfl (EventBase.foldl_frame (g := EventBase.conns)
    (f := EventBase.unregisterIdle) (fun _ _ => rfl) (w.con i).idleIds w.base) fun _ => rfl
  updateIdles {w} i h := h.frame rfl (EventBase.foldl_frame (g := EventBase.conns)
    (f := fun b id => b.updateIdle w.now id) (fun _ _ => rfl) (w.con i).idleIds w.base)
    fun _ => rfl
  flush i h := h.quiet (World.quiet_onLink _ i (·.flush) fun l => l.quiet_flush)
  unwatch i h := h.quiet (quiet_unwatch i _)
  shut {w i ch} h hch _ := by
    have hset := h.set (i := i) (c := { w.con i with channel := some { ch with fd := SOCKET_ERROR } })
      (by rw [hch]; rfl)
    exact hset.frame rfl rfl fun _ => rfl
  drop {w i ch c} h hch _ hnone hconns := by
    have hclear := h.clearChannel hconns hnone
    split
    · exact hclear.frame rfl rfl fun _ => rfl
    · exact hclear

end Leads

/-- **Every event of the loop goes through these steps**, from whatever state of the
pool and of the other owners. -/
theorem exec_of_worldStep {a : Input} (hstep : worldStep app w a = some w') (hidle : IdleInv w)
    (h : Mirrors s w) : ∃ as t, Exec.exec postStep s as = some t ∧ Mirrors t w' := by
  have hleads : Leads s w := ⟨[], s, rfl, h⟩
  apply (Leads.rule app s).worldStep hstep hleads
  · rintro fd recvs sends selects - -
    exact hleads.accept (hidle.fresh _ (Nat.le_refl _)).1 fd _
  · exact fun now => hleads.frame rfl rfl fun _ => rfl

end Events

end Libet
