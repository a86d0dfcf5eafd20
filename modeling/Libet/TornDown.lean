/-
Libet/TornDown.lean

Calls on a connection that has been torn down.

Timers and queued tasks may hold a connection long after its `Cleanup`.  The
operations look at `m_channel`, which is null then, and do nothing: `Send`,
`Send(Buffer&)`, `Close`, `AddIdleCB` and the task of an earlier `Close` leave the
whole world as it is.  `SendMsg` does not: it puts its frame behind `m_output`
before `SendOutput` looks, and each call adds another one.

`inert_iff` says so along whole runs, in which the calls may come between any
other events.
-/
import Libet.Lifecycle
import Libet.SendRuns

namespace Libet

/-! ### Calls on one connection -/

/-- The connection that an operation is called on. -/
def UserOp.target : UserOp → ConnId
  | .send i _ | .sendBuffer i _ | .sendMsg i _ | .sendOutput i | .close i | .addIdleCB i _ => i

/-- The event is an operation on connection `i`, or the execution of a `Close` that
was posted on it. -/
def CallOn (i : ConnId) (w : World) : Input → Prop
  | .user op => op.target = i
  | .task => w.base.tasks.head? = some i
  | _ => False

/-- The world if the event does nothing; a task that does nothing is still taken out
of the queue. -/
def World.idleStep (w : World) : Input → World
  | .task => { w with base := { w.base with tasks := w.base.tasks.tail } }
  | _ => w

/-- The call has changed nothing: of the whole world, with all buffers, sockets, the
poller, the idle lists and the callbacks called so far, only an executed task is
gone; and the call has not followed a null `m_codec`. -/
structure Inert (i : ConnId) (w : World) (a : Input) (w' : World) : Prop where
  world : w' = w.idleStep a
  terminal : (w'.con i).state = .closed ∨ (w'.con i).state = .failed
  codec : ∀ msg, a = .user (.sendMsg i msg) → (w.con i).codec = true

/-! ### One call -/

variable {app : App} {w w' : World} {i : ConnId} {a : Input}

/-- A function of the sending side that gives back what it gets. -/
theorem onLink_eq_self {f : Link → Link}
    (hf : f ⟨w.con i, w.base.poller⟩ = ⟨w.con i, w.base.poller⟩) : w.onLink i f = w := by
  rw [World.onLink]
  dsimp only
  rw [hf, World.set, Function.update_eq_self]

/-- **Without a channel** an operation does nothing, unless it is a `SendMsg`. -/
theorem runOp_of_channel_none {op : UserOp} (hch : (w.con op.target).channel = none)
    (hop : ∀ msg, op ≠ .sendMsg op.target msg) : w.runOp op = w := by
  have hnot : ¬(w.con op.target).channel.isSome = true := by
    rw [hch]
    exact Bool.false_ne_true
  cases op with
  | send i buf => exact onLink_eq_self (f := (·.send buf)) (if_neg hnot)
  | sendBuffer i buf =>
      apply onLink_eq_self (f := fun l => (l.sendBuffer buf.1).1)
      exact congrArg Prod.fst (if_neg hnot)
  | sendMsg i msg => exact absurd rfl (hop msg)
  | sendOutput i => exact onLink_eq_self (f := (·.sendOutput)) (if_neg hnot)
  | close i => exact if_neg hnot
  | addIdleCB i idle => exact if_neg hnot

/-- A `SendMsg` without a channel leaves its frame in `m_output`. -/
theorem output_sendMsg_of_channel_none (hch : (w.con i).channel = none)
    (hwf : (w.con i).output.WF) (hcodec : (w.con i).codec = true) (msg : List UInt8) :
    ((w.runOp (.sendMsg i msg)).con i).output.content =
      (w.con i).output.content ++ frame msg := by
  have hnot : ¬(w.con i).channel.isSome = true := by
    rw [hch]
    exact Bool.false_ne_true
  have hsend : (Link.sendMsg ⟨w.con i, w.base.poller⟩ msg).con.output =
      encode msg (w.con i).output := by
    rw [Link.sendMsg, if_pos hcodec, if_neg hnot]
    exact congrArg (fun l : Link => l.con.output) (if_neg hnot)
  show ((w.onLink i fun l => l.sendMsg msg).con i).output.content = _
  rw [World.onLink, World.set]
  dsimp only
  rw [Function.update_self, hsend]
  exact content_encode hwf msg

/-- The task of a `Close` does nothing on a connection that has been torn down. -/
theorem postedClose_of_channel_none (hch : (w.con i).channel = none) :
    postedClose app i w = w := by
  apply if_neg
  rw [hch]
  exact Bool.false_ne_true

/-- Behind `Cleanup` the state is terminal and `m_channel` is null. -/
structure World.TornDown (i : ConnId) (w : World) : Prop where
  terminal : (w.con i).state = .closed ∨ (w.con i).state = .failed
  channel_none : (w.con i).channel = none
  output_wf : (w.con i).output.WF

theorem tornDown_of_cleanedUp {wakeupFd listenFd : Int} {as : List Input}
    (hrun : Exec.exec (worldStep app) (World.init wakeupFd listenFd) as = some w)
    (hmem : .cleanedUp i ∈ w.trace) : w.TornDown i := by
  have htracked := ok_of_exec (Hub.tracked_rule app.slots) hrun (good_init wakeupFd listenFd)
    (Hub.tracked_init app.slots wakeupFd listenFd)
  have hstate := (htracked.lifecycle i).cleaned hmem
  refine ⟨hstate, ?_, ?_⟩
  · have hlive : (w.hub.peer i).state.live = false := by
      rcases hstate with hs | hs <;> rw [hs] <;> rfl
    have hnone := htracked.consistent.channel_none i hlive
    exact Option.map_eq_none_iff.mp hnone
  · exact ((sends_rule app).exec hrun (sends_init wakeupFd listenFd) i).together.output_wf

/-- **One call on a connection that has been torn down.** -/
theorem inert_step (hstep : worldStep app w a = some w') (h : w.TornDown i)
    (hcall : CallOn i w a) : Inert i w a w' ↔ ∀ msg, a ≠ .user (.sendMsg i msg) := by
  constructor
  · rintro hinert msg rfl
    obtain rfl := Option.some.inj hstep
    have hout := output_sendMsg_of_channel_none h.channel_none h.output_wf
      (hinert.codec msg rfl) msg
    rw [hinert.world] at hout
    have hlen := congrArg List.length hout
    rw [List.length_append, frame_length] at hlen
    have hsame : w.idleStep (.user (.sendMsg i msg)) = w := rfl
    rw [hsame] at hlen
    omega
  · intro hmsg
    have hworld : w' = w.idleStep a := by
      cases a with
      | user op =>
          have hi : op.target = i := hcall
          subst hi
          obtain rfl := Option.some.inj hstep
          exact runOp_of_channel_none h.channel_none fun msg he => hmsg msg (congrArg _ he)
      | task =>
          obtain ⟨rest, hrest⟩ := List.head?_eq_some_iff.mp hcall
          rw [worldStep, hrest] at hstep
          obtain rfl := Option.some.inj hstep
          rw [World.idleStep, hrest]
          exact postedClose_of_channel_none h.channel_none
      | accept | readable | writable | tick => exact hcall.elim
    refine ⟨hworld, ?_, fun msg he => absurd he (hmsg msg)⟩
    have hcon : (w.idleStep a).con i = w.con i := by
      cases a <;> rfl
    rw [hworld, hcon]
    exact h.terminal

/-! ### Whole runs -/

/-- **A connection that has been torn down is inert** along a run, whatever is called
on it between other events, exactly if none of these calls is a `SendMsg`. -/
theorem inert_iff {wakeupFd listenFd : Int} {as : List Input} :
    Exec.Along (worldStep app)
        (fun w a w' => .cleanedUp i ∈ w.trace → CallOn i w a → Inert i w a w')
        (World.init wakeupFd listenFd) as ↔
      Exec.Along (worldStep app)
        (fun w a _ => .cleanedUp i ∈ w.trace → ∀ msg, a ≠ .user (.sendMsg i msg))
        (World.init wakeupFd listenFd) as := by
  apply Exec.along_iff
    (I := fun w => ∃ bs, Exec.exec (worldStep app) (World.init wakeupFd listenFd) bs = some w)
    ?_ ?_ ⟨[], rfl⟩
  · rintro w a w' hstep - ⟨bs, hrun⟩
    refine ⟨bs ++ [a], ?_⟩
    rw [Exec.exec_append, hrun, Option.bind_some, Exec.exec_cons, hstep]
    rfl
  · rintro w a w' hstep ⟨bs, hrun⟩
    refine forall_congr' fun hmem => ?_
    by_cases hcall : CallOn i w a
    · rw [forall_prop_of_true hcall]
      exact inert_step hstep (tornDown_of_cleanedUp hrun hmem) hcall
    · refine iff_of_true (fun h => absurd h hcall) ?_
      rintro msg rfl
      exact hcall rfl

/-- A `SendMsg` from a timer that still holds the connection. -/
theorem not_inert_sendMsg :
    ¬Exec.Along (worldStep heartbeatTest)
      (fun w a w' => .cleanedUp 0 ∈ w.trace → CallOn 0 w a → Inert 0 w a w')
      (World.init 4 5) [.accept 6 [.closed] [] [1], .readable 0, .user (.sendMsg 0 [7])] := by
  intro h
  have hinert := (((h _ rfl).2 _ rfl).2 _ rfl).1 (by decide +kernel) rfl
  have hsize := congrArg (fun w => (w.con 0).output.size) hinert.world
  exact absurd hsize (by decide +kernel)

end Libet
