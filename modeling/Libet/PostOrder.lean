/-
Libet/PostOrder.lean

What becomes of the data that `PostDataToOneConn` and `PostDataToAllConns` post.

Each post is an `AddTask` under the id of the channel, for one connection or for every
one in `m_conns`, with the buffer copied into the task.  So the account of the workers
(`PoolInv`) goes on through the steps of `PostData`, with the posts in the place of the
calls of `AddTask`: whoever posts, from whatever thread, and whatever happens to the
connections meanwhile, the buffers of a channel are sent in the order of the posts, each
once and never two at a time.  A post to a connection whose `m_channel` is null posts
nothing here, and the run goes on; the source follows the null pointer.
-/
import Libet.PostData

namespace Libet

variable {n : Nat} [NeZero n] {s s' : PostState n} {a : PostLabel n}
  {l : List (PoolEvent SendTask)} {buf : Buffer} {ch : ChannelId} {i : ConnId}

/-- What is posted: the channel, the connection, and the bytes. -/
abbrev Post := ChannelId × ConnId × List UInt8

/-- What a step posts. -/
def posts (s : PostState n) : PostLabel n → List Post
  | .postOne i buf => ((s.channel i).map fun ch => (ch, i, buf.1.content)).toList
  | .postAll buf => s.conns.filterMap fun i => (s.channel i).map fun ch => (ch, i, buf.1.content)
  | _ => []

/-- The post that a task is about. -/
def SendTask.post (x : ChannelId × SendTask) : Post := (x.1, x.2.con, x.2.buf.content)

/-! ### The account of the workers -/

/-- The events of a step, with the posts among them. -/
def postEvents (s : PostState n) : PostLabel n → List (PoolEvent SendTask)
  | .postOne i buf =>
      ((s.channel i).map fun ch => PoolEvent.accepted (ch, ⟨i, buf.1.copyFrom⟩)).toList
  | .postAll buf => s.conns.filterMap fun i =>
      (s.channel i).map fun ch => PoolEvent.accepted (ch, ⟨i, buf.1.copyFrom⟩)
  | .work a => poolEvents s.pool a
  | _ => []

/-- The tasks of a post to connections with their channels. -/
def tasksOf (js : List (ChannelId × ConnId)) (buf : Buffer) : List (ChannelId × SendTask) :=
  js.map fun x => (x.1, ⟨x.2, buf.copyFrom⟩)

omit [NeZero n] in
theorem acceptedTasks_map (xs : List (ChannelId × SendTask)) :
    acceptedTasks (xs.map PoolEvent.accepted) = xs := by
  rw [acceptedTasks, List.filterMap_map]
  exact List.filterMap_some

omit [NeZero n] in
theorem startedTasks_map (xs : List (ChannelId × SendTask)) :
    startedTasks (xs.map PoolEvent.accepted) = [] := by
  rw [startedTasks, List.filterMap_map]
  exact List.filterMap_eq_nil_iff.mpr fun _ _ => rfl

omit [NeZero n] in
theorem endedTasks_map (xs : List (ChannelId × SendTask)) :
    endedTasks (xs.map PoolEvent.accepted) = [] := by
  rw [endedTasks, List.filterMap_map]
  exact List.filterMap_eq_nil_iff.mpr fun _ _ => rfl

/-- A post is accepted by the workers of its channels. -/
theorem PoolInv.posted (h : PoolInv s.pool l) {js : List (ChannelId × ConnId)}
    (hp : Posted s js buf s') :
    PoolInv s'.pool (l ++ (tasksOf js buf).map PoolEvent.accepted) := by
  intro k
  obtain ⟨haccepted, hstarted⟩ := h k
  have hmine : ofWorker k (tasksOf js buf) =
      (js.filter fun x => ConnThreadPool.index n x.1 = k).map
        fun x => (x.1, ⟨x.2, buf.copyFrom⟩) := List.filter_map
  rw [hp.workers k]
  constructor
  · rw [acceptedTasks_append, startedTasks_append, acceptedTasks_map, startedTasks_map,
      List.append_nil, ofWorker_append, haccepted, hmine, List.append_assoc]
    rfl
  · rw [startedTasks_append, endedTasks_append, startedTasks_map, endedTasks_map, List.append_nil,
      List.append_nil]
    exact hstarted

theorem postEvents_postOne (buf : WFBuffer) : postEvents s (.postOne i buf) =
    (tasksOf (((s.channel i).map fun ch => (ch, i)).toList) buf.1).map PoolEvent.accepted := by
  rw [postEvents]
  cases s.channel i <;> rfl

theorem postEvents_postAll (buf : WFBuffer) : postEvents s (.postAll buf) =
    (tasksOf (s.conns.filterMap fun i => (s.channel i).map fun ch => (ch, i)) buf.1).map
      PoolEvent.accepted := by
  rw [postEvents, tasksOf, List.map_filterMap, List.map_filterMap]
  apply List.filterMap_congr
  intro i _
  cases s.channel i <;> rfl

/-- **One step.** -/
theorem poolInv_postStep (hstep : postStep s a = some s') (hinv : s.Inv) (h : PoolInv s.pool l) :
    PoolInv s'.pool (l ++ postEvents s a) := by
  cases a with
  | postOne i buf =>
      obtain rfl := Option.some.inj hstep
      rw [postEvents_postOne]
      exact h.posted (posted_one hinv i buf)
  | postAll buf =>
      obtain rfl := Option.some.inj hstep
      obtain ⟨t, ht, hp⟩ := posted_all hinv buf
      rw [ht, postEvents_postAll]
      exact h.posted hp
  | work b =>
      simp only [postStep] at hstep
      split at hstep
      · obtain ⟨p, hpool, rfl⟩ := Option.map_eq_some_iff.mp hstep
        exact h.step hpool
      · cases hstep
  | create | removeConn | clear =>
      obtain rfl := Option.some.inj hstep
      show PoolInv _ (l ++ [])
      rw [List.append_nil]
      exact h
  | attach | clearChannel | hold | release =>
      simp only [postStep] at hstep
      split at hstep <;> cases hstep
      show PoolInv _ (l ++ [])
      rw [List.append_nil]
      exact h

/-- What is accepted in a step is what the step posts, byte for byte. -/
theorem posts_eq (hstep : postStep s a = some s') :
    posts s a = (acceptedTasks (postEvents s a)).map SendTask.post := by
  have htask : ∀ (buf : WFBuffer) (js : List (ChannelId × ConnId)),
      (tasksOf js buf.1).map SendTask.post = js.map fun x => (x.1, x.2, buf.1.content) := by
    intro buf js
    rw [tasksOf, List.map_map]
    apply List.map_congr_left
    intro x _
    show (x.1, x.2, buf.1.copyFrom.content) = _
    rw [buf.2.valid.copyFrom.2]
  cases a with
  | postOne i buf =>
      rw [postEvents_postOne, acceptedTasks_map, htask, posts]
      cases s.channel i <;> rfl
  | postAll buf =>
      rw [postEvents_postAll, acceptedTasks_map, htask, posts, List.map_filterMap]
      apply List.filterMap_congr
      intro i _
      cases s.channel i <;> rfl
  | work b =>
      -- a worker's own step accepts nothing
      have hwork : b.isWork = true := by
        by_contra hno
        rw [postStep, if_neg hno] at hstep
        cases hstep
      cases b with
      | addTask | exit => cases hwork
      | start | check | pop => rfl
      | run k =>
          have hnone : acceptedTasks (postEvents s (.work (.run k))) = [] := by
            rw [postEvents, poolEvents, acceptedTasks, List.filterMap_map]
            exact List.filterMap_eq_nil_iff.mpr fun _ _ => rfl
          rw [hnone]
          rfl
      | ret k =>
          have hnone : acceptedTasks (postEvents s (.work (.ret k))) = [] := by
            rw [postEvents, poolEvents, acceptedTasks, List.filterMap_map]
            exact List.filterMap_eq_nil_iff.mpr fun _ _ => rfl
          rw [hnone]
          rfl
  | create | attach | removeConn | clearChannel | clear | hold | release => rfl

/-! ### The order of the posts -/

/-- The posts to one channel. -/
def postsTo (ch : ChannelId) (ps : List Post) : List Post := ps.filter fun x => x.1 = ch

omit [NeZero n] in
theorem map_post_ofId (ch : ChannelId) (xs : List (ChannelId × SendTask)) :
    (ofId ch xs).map SendTask.post = postsTo ch (xs.map SendTask.post) := by
  rw [ofId, postsTo, List.filter_map]
  rfl

/-- What becomes of the posts `ps` of a run that leads to `s`, with the events `l`. -/
structure PostsInOrder (s : PostState n) (ps : List Post) (l : List (PoolEvent SendTask)) :
    Prop where
  /-- to each channel they are sent in order, each once, with the bytes they had -/
  order : ∀ ch, (ofId ch (startedTasks l)).map SendTask.post <+: postsTo ch ps
  /-- the next begins when the last has ended -/
  alone : ∀ ch, ∃ now, ofId ch (startedTasks l) = ofId ch (endedTasks l) ++ now ∧ now.length ≤ 1
  /-- and when no worker has anything left, all of them have been sent -/
  done : (∀ k, (s.pool.workers k).tasks.items = [] ∧ (s.pool.workers k).held = [] ∧
      (s.pool.workers k).running = []) →
    ∀ ch, (ofId ch (endedTasks l)).map SendTask.post = postsTo ch ps

/-- **Posts are sent in order.**  Connections come, are attached, torn down and go, any
thread posts to one of them or to all, and the workers go on, in any order. -/
theorem postsInOrder_of_run {as : List (PostLabel n)}
    (hrun : Exec.exec postStep (PostState.init n) as = some s) :
    PostsInOrder s (Exec.trace postStep posts (PostState.init n) as)
      (Exec.trace postStep postEvents (PostState.init n) as) := by
  have hboth : s.Inv ∧ PoolInv s.pool (Exec.trace postStep postEvents (PostState.init n) as) :=
    Exec.history (I := fun s l => s.Inv ∧ PoolInv s.pool l)
      (fun _ _ _ _ hstep h => ⟨h.1.step hstep, poolInv_postStep hstep h.1 h.2⟩) hrun
      ⟨postState_inv_init, poolInv_new fun _ => 0⟩
  have hposts : Exec.trace postStep posts (PostState.init n) as =
      (acceptedTasks (Exec.trace postStep postEvents (PostState.init n) as)).map SendTask.post :=
    Exec.trace_hom (f := fun l => (acceptedTasks l).map SendTask.post) rfl
      (fun l l' => by rw [acceptedTasks_append, List.map_append])
      (fun _ _ _ hstep => posts_eq hstep) as _
  have htasks := hboth.2.tasksInOrder
  constructor
  case order =>
    intro ch
    rw [hposts, ← map_post_ofId]
    exact (htasks.order ch).map SendTask.post
  case alone => exact htasks.alone
  case done =>
    intro hidle ch
    obtain ⟨hitems, hheld, hrunning⟩ := hidle (ConnThreadPool.index n ch)
    have hkept := htasks.kept (ConnThreadPool.index n ch)
    rw [hitems, hheld, hrunning, List.append_nil, List.append_nil, List.append_nil] at hkept
    rw [hposts, ← map_post_ofId, ← ofId_ofWorker n, ← ofId_ofWorker n ch (acceptedTasks _), hkept]

/-- Two workers and two connections.  The second connection gets a post of its own behind
one to all, and is torn down before its worker has sent them. -/
theorem postsInOrder_of_run_torn_down :
    ∃ s, Exec.exec postStep (PostState.init 2)
        [.create, .attach 0 6, .create, .attach 1 7, .postAll oneByte, .postOne 1 oneByte,
          .work (.start 1), .work (.check 1), .work (.pop 1), .removeConn 1, .clearChannel 1,
          .work (.run 1), .postAll oneByte] = some s ∧
      PostsInOrder s
        (Exec.trace postStep posts (PostState.init 2)
          [.create, .attach 0 6, .create, .attach 1 7, .postAll oneByte, .postOne 1 oneByte,
            .work (.start 1), .work (.check 1), .work (.pop 1), .removeConn 1, .clearChannel 1,
            .work (.run 1), .postAll oneByte])
        (Exec.trace postStep postEvents (PostState.init 2)
          [.create, .attach 0 6, .create, .attach 1 7, .postAll oneByte, .postOne 1 oneByte,
            .work (.start 1), .work (.check 1), .work (.pop 1), .removeConn 1, .clearChannel 1,
            .work (.run 1), .postAll oneByte]) := by
  obtain ⟨s, hrun⟩ := Option.isSome_iff_exists.mp (show (Exec.exec postStep (PostState.init 2)
      [.create, .attach 0 6, .create, .attach 1 7, .postAll oneByte, .postOne 1 oneByte,
        .work (.start 1), .work (.check 1), .work (.pop 1), .removeConn 1, .clearChannel 1,
        .work (.run 1), .postAll oneByte]).isSome by decide +kernel)
  exact ⟨s, hrun, postsInOrder_of_run hrun⟩

end Libet
