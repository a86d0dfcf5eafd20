/-
Libet/SendRuns.lean

The invariant of the sending side in runs of an event base.

`SendInv` of every connection survives every change a world goes through: the
`Send` family by the lemmas of `Libet.SendInv`, and everything else because it
leaves the sending side alone.  The record of submitted bytes is what it is called:
it grows by the bytes of the operations that the events perform, in their order
(`submitted_of_run`).

Main results: `submitted_of_run` and `intact_of_run`.
-/
import Libet.CallRule
import Libet.Runs
import Libet.SendInv

namespace Libet

variable {app : App} {w : World} {i : ConnId}

/-! ### The record of submitted bytes -/

namespace Link

variable (l : Link)

theorem submitted_appendRest (buf : List UInt8) (r : Nat × Link) :
    (appendRest buf r).con.submitted = r.2.con.submitted := by
  rw [appendRest]
  dsimp only
  split <;> rfl

theorem submitted_send (h : l.con.channel.isSome) (buf : List UInt8) :
    (l.send buf).con.submitted = l.con.submitted ++ buf := by
  rw [send]
  rw [if_pos h]
  dsimp only
  rw [submitted_appendRest]
  split
  · exact (sendBase_spec _ buf).submitted
  · rfl

theorem submitted_sendOutput : l.sendOutput.con.submitted = l.con.submitted := by
  have hflush : ∀ l : Link, l.flush.con.submitted = l.con.submitted := fun l =>
    (sendBase_spec l _).submitted
  rw [sendOutput]
  split
  · rw [submitted_watchRest]
    split
    · exact hflush l
    · rfl
  · rfl

theorem submitted_sendMsg (h : l.con.channel.isSome) (hcodec : l.con.codec)
    (msg : List UInt8) : (l.sendMsg msg).con.submitted = l.con.submitted ++ frame msg := by
  rw [sendMsg]
  rw [if_pos hcodec, if_pos h]
  exact submitted_sendOutput _

theorem submitted_sendBuffer (h : l.con.channel.isSome) (buf : Buffer) :
    (l.sendBuffer buf).1.con.submitted = l.con.submitted ++ buf.content := by
  -- only `submit` writes the record; the three parts behind it leave it alone
  have h1 : ∀ x : Link × Buffer, (absorbWritable x).1.con.submitted = x.1.con.submitted :=
    fun x => by unfold absorbWritable; split <;> rfl
  have h2 : ∀ x : Link × Buffer, (sendNow x).1.con.submitted = x.1.con.submitted :=
    fun x => by
      rw [sendNow]
      split
      · exact (sendBase_spec x.1 _).submitted
      · rfl
  have h3 : ∀ x : Link × Buffer, (absorbRest x).1.con.submitted = x.1.con.submitted :=
    fun x => by
      rw [absorbRest]
      split
      · dsimp only
        split
        · rfl
        · exact submitted_enableWrite _ true
      · rfl
  rw [sendBuffer]
  rw [if_pos h, h3, h2, h1]
  rfl

end Link

/-! ### The codec stays set -/

namespace Link

theorem codec_enableWrite (l : Link) (enable : Bool) :
    (l.enableWrite enable).con.codec = l.con.codec := by
  rw [enableWrite_eq]

theorem codec_sendBase (l : Link) (buf : List UInt8) :
    (l.sendBase buf).2.con.codec = l.con.codec := by
  refine sendBase_rule (motive := fun l _ _ l' => l'.con.codec = l.con.codec) ?_ ?_ ?_ ?_ l buf
  · intro l
    rfl
  · intro l buf n s r _ ih
    exact ih
  · intro l buf s _
    split
    · rfl
    · exact codec_enableWrite _ true
  · intro l buf s _
    rfl

theorem codec_sendOutput (l : Link) : l.sendOutput.con.codec = l.con.codec := by
  have hwatch : ∀ l : Link, l.watchRest.con.codec = l.con.codec := by
    intro l
    rw [watchRest]
    split
    · exact codec_enableWrite l true
    · rfl
  rw [sendOutput]
  split
  · rw [hwatch]
    split
    · exact codec_sendBase l _
    · rfl
  · rfl

theorem codec_sendMsg (l : Link) (msg : List UInt8) :
    (l.sendMsg msg).con.codec = l.con.codec := by
  rw [sendMsg]
  split
  · rw [codec_sendOutput]
    dsimp only
    split <;> rfl
  · rfl

theorem codec_send (l : Link) (buf : List UInt8) : (l.send buf).con.codec = l.con.codec := by
  have hrest : ∀ r : Nat × Link, (appendRest buf r).con.codec = r.2.con.codec := by
    intro r
    rw [appendRest]
    dsimp only
    split <;> rfl
  rw [send]
  split
  · rw [hrest]
    split
    · exact codec_sendBase _ buf
    · rfl
  · rfl

theorem codec_sendBuffer (l : Link) (buf : Buffer) :
    (l.sendBuffer buf).1.con.codec = l.con.codec := by
  have h1 : ∀ x : Link × Buffer, (absorbWritable x).1.con.codec = x.1.con.codec :=
    fun x => by unfold absorbWritable; split <;> rfl
  have h2 : ∀ x : Link × Buffer, (sendNow x).1.con.codec = x.1.con.codec := by
    intro x
    rw [sendNow]
    split
    · exact codec_sendBase x.1 _
    · rfl
  have h3 : ∀ x : Link × Buffer, (absorbRest x).1.con.codec = x.1.con.codec := by
    intro x
    rw [absorbRest]
    split
    · dsimp only
      split
      · rfl
      · exact codec_enableWrite _ true
    · rfl
  rw [sendBuffer]
  split
  · rw [h3, h2, h1]
    rfl
  · rfl

end Link

/-! ### Operations -/

/-- The bytes that an operation hands to connection `i`. -/
def UserOp.bytes (i : ConnId) : UserOp → List UInt8
  | .send j buf => if j = i then buf else []
  | .sendBuffer j buf => if j = i then buf.1.content else []
  | .sendMsg j msg => if j = i then frame msg else []
  | _ => []

/-- Each operation on a connection that has a channel, and a codec if it is a
`SendMsg`, puts its bytes on record, in their order. -/
theorem submitted_runOp (hch : (w.con i).channel.isSome) (hcodec : (w.con i).codec)
    (op : UserOp) :
    ((w.runOp op).con i).submitted = (w.con i).submitted ++ op.bytes i := by
  have hlink : ∀ (j : ConnId) (f : Link → Link) (buf : List UInt8),
      (j = i → (f ⟨w.con i, w.base.poller⟩).con.submitted = (w.con i).submitted ++ buf) →
      ((w.onLink j f).con i).submitted =
        (w.con i).submitted ++ if j = i then buf else [] := by
    intro j f buf hf
    simp only [World.onLink, World.set]
    rcases eq_or_ne j i with rfl | hne
    · rw [Function.update_self, if_pos rfl, hf rfl]
    · rw [Function.update_of_ne hne.symm, if_neg hne, List.append_nil]
  cases op with
  | send j buf =>
      exact hlink j (·.send buf) buf fun _ => Link.submitted_send ⟨w.con i, _⟩ hch buf
  | sendBuffer j buf =>
      exact hlink j (fun l => (l.sendBuffer buf.1).1) buf.1.content
        fun _ => Link.submitted_sendBuffer ⟨w.con i, _⟩ hch buf.1
  | sendMsg j msg =>
      exact hlink j (·.sendMsg msg) (frame msg)
        fun _ => Link.submitted_sendMsg ⟨w.con i, _⟩ hch hcodec msg
  | sendOutput j =>
      have h := hlink j (·.sendOutput) [] fun _ => by
        rw [Link.submitted_sendOutput, List.append_nil]
      rw [ite_self] at h
      exact h
  | close j =>
      simp only [World.runOp, UserOp.bytes, List.append_nil]
      split <;> rfl
  | addIdleCB j idle =>
      simp only [World.runOp, UserOp.bytes, List.append_nil]
      split
      · rcases eq_or_ne i j with rfl | hne
        · simp only [World.set, Function.update_self]
        · simp only [World.set, Function.update_of_ne hne]
      · rfl

theorem codec_runOp (op : UserOp) : ((w.runOp op).con i).codec = (w.con i).codec := by
  have hset : ∀ (j : ConnId) (c : TcpConn), c.codec = (w.con j).codec →
      ((w.set j c).con i).codec = (w.con i).codec := by
    intro j c hc
    rcases eq_or_ne i j with rfl | hne
    · simpa only [World.set, Function.update_self] using hc
    · simp only [World.set, Function.update_of_ne hne]
  cases op with
  | send j buf => exact hset j _ (Link.codec_send ⟨w.con j, _⟩ buf)
  | sendBuffer j buf => exact hset j _ (Link.codec_sendBuffer ⟨w.con j, _⟩ buf.1)
  | sendMsg j msg => exact hset j _ (Link.codec_sendMsg ⟨w.con j, _⟩ msg)
  | sendOutput j => exact hset j _ (Link.codec_sendOutput ⟨w.con j, _⟩)
  | close j =>
      simp only [World.runOp]
      split <;> rfl
  | addIdleCB j idle =>
      simp only [World.runOp]
      split
      · exact hset j _ rfl
      · rfl

/-- Code of the caller does not close channels. -/
theorem World.Quiet.hasChannel {w w' : World} (h : w.Quiet w') (i : ConnId) :
    (w'.con i).channel.isSome = (w.con i).channel.isSome := by
  have hpeer := congrArg Peer.channel (congrFun (congrArg Hub.peer h.hub) i)
  have hsome := congrArg Option.isSome hpeer
  simp only [World.hub, TcpConn.peer, Option.isSome_map] at hsome
  exact hsome

theorem codec_runOps (ops : List UserOp) :
    ((w.runOps ops).con i).codec = (w.con i).codec := by
  induction ops generalizing w with
  | nil => rfl
  | cons op ops ih => exact (ih (w := w.runOp op)).trans (codec_runOp op)

/-- What the operations of one call put on record. -/
theorem submitted_runOps (hch : (w.con i).channel.isSome) (hcodec : (w.con i).codec)
    (ops : List UserOp) :
    ((w.runOps ops).con i).submitted = (w.con i).submitted ++ ops.flatMap (UserOp.bytes i) := by
  induction ops generalizing w with
  | nil => exact (List.append_nil _).symm
  | cons op ops ih =>
      rw [List.flatMap_cons, ← List.append_assoc, ← submitted_runOp hch hcodec]
      exact ih (((World.quiet_runOp w op).hasChannel i).trans hch)
        ((codec_runOp op).trans hcodec)

/-! ### Runs, operation by operation -/

/-- The operations of one call of a callback. -/
inductive CallbackOps (app : App) : List UserOp → Prop
  | onRead (w : World) (i : ConnId) : CallbackOps app (app.onRead w i)
  | onMsg (w : World) (i : ConnId) (msg : Slice) : CallbackOps app (app.onMsg w i msg)
  | onWrite (w : World) (i : ConnId) : CallbackOps app (app.onWrite w i)
  | onState (w : World) (i : ConnId) : CallbackOps app (app.onState w i)
  | onTimer (w : World) (i : ConnId) : CallbackOps app (app.onTimer w i)

/-- The operations of one event, call by call. -/
def Performs (app : App) (a : Input) (calls : List (List UserOp)) : Prop :=
  (∀ op, a = .user op → calls = [[op]]) ∧
    ((∀ op, a ≠ .user op) → ∀ ops ∈ calls, CallbackOps app ops)

/-- From `w` to `w'`, `calls` have put their bytes on record for connection `i`, if it
still has its channel. -/
structure Submits (i : ConnId) (w w' : World) (calls : List (List UserOp)) : Prop where
  codec : (w'.con i).codec = (w.con i).codec
  channel : (w'.con i).channel.isSome → (w.con i).channel.isSome
  submitted : (w'.con i).channel.isSome →
    (w'.con i).submitted = (w.con i).submitted ++ calls.flatten.flatMap (UserOp.bytes i)

namespace Submits

variable {w₀ w' : World} {j : ConnId} {calls : List (List UserOp)}

theorem refl (i : ConnId) (w : World) : Submits i w w [] :=
  ⟨rfl, id, fun _ => (List.append_nil _).symm⟩

theorem trans {w'' : World} {calls' : List (List UserOp)} (h : Submits i w w' calls)
    (h' : Submits i w' w'' calls') : Submits i w w'' (calls ++ calls') := by
  refine ⟨h'.codec.trans h.codec, fun hch => h.channel (h'.channel hch), fun hch => ?_⟩
  rw [h'.submitted hch, h.submitted (h'.channel hch), List.flatten_append, List.flatMap_append,
    List.append_assoc]

/-- Nothing is submitted. -/
theorem congr (hcodec : (w'.con i).codec = (w.con i).codec)
    (hch : (w'.con i).channel.isSome → (w.con i).channel.isSome)
    (hsub : (w'.con i).submitted = (w.con i).submitted) : Submits i w w' [] :=
  ⟨hcodec, hch, fun _ => hsub.trans (List.append_nil _).symm⟩

/-- A connection changes, and nothing is submitted. -/
theorem set {c : TcpConn} (hcodec : c.codec = (w.con j).codec)
    (hch : c.channel.isSome → (w.con j).channel.isSome)
    (hsub : c.submitted = (w.con j).submitted) : Submits i w (w.set j c) [] := by
  rcases eq_or_ne i j with rfl | hne
  · refine congr ?_ ?_ ?_
    · simpa only [World.set, Function.update_self] using hcodec
    · simpa only [World.set, Function.update_self] using hch
    · simpa only [World.set, Function.update_self] using hsub
  · have hcon : (w.set j c).con i = w.con i := Function.update_of_ne hne ..
    exact congr (by rw [hcon]) (by rw [hcon]; exact id) (by rw [hcon])

theorem consumeInput (w : World) (len : Nat) : Submits i w (w.consumeInput j len) [] :=
  set rfl id rfl

theorem onLink (f : Link → Link) (hquiet : ∀ l, Libet.Quiet l (f l))
    (hcodec : ∀ l, (f l).con.codec = l.con.codec)
    (hsub : ∀ l, (f l).con.submitted = l.con.submitted) : Submits i w (w.onLink j f) [] := by
  have hpeer := (hquiet ⟨w.con j, w.base.poller⟩).peer
  have hch := congrArg (fun p : Peer => p.channel.isSome) hpeer
  simp only [TcpConn.peer, Option.isSome_map] at hch
  have h : Submits i w (w.set j (f ⟨w.con j, w.base.poller⟩).con) [] :=
    set (hcodec _) (fun h => hch ▸ h) (hsub _)
  exact ⟨h.codec, h.channel, h.submitted⟩

/-- One call. -/
theorem runOps (hcodec : (w.con i).codec) (ops : List UserOp) :
    Submits i w (w.runOps ops) [ops] := by
  have hch := (World.quiet_runOps w ops).hasChannel i
  refine ⟨codec_runOps ops, fun h => hch ▸ h, fun h => ?_⟩
  rw [submitted_runOps (hch ▸ h) hcodec, List.flatten_singleton]

/-- A world that the calls so far have led to. -/
def By (app : App) (i : ConnId) (w₀ w : World) : Prop :=
  ∃ calls, Submits i w₀ w calls ∧ ∀ ops ∈ calls, CallbackOps app ops

theorem By.quiet (h : By app i w₀ w) (hw : Submits i w w' []) : By app i w₀ w' := by
  obtain ⟨calls, hsub, hcalls⟩ := h
  exact ⟨calls ++ [], hsub.trans hw, by rwa [List.append_nil]⟩

theorem By.call (hcodec : (w₀.con i).codec) (h : By app i w₀ w) {ops : List UserOp}
    (hops : CallbackOps app ops) : By app i w₀ (w.runOps ops) := by
  obtain ⟨calls, hsub, hcalls⟩ := h
  refine ⟨calls ++ [ops], hsub.trans (runOps (hsub.codec.trans hcodec) ops), fun ops' h' => ?_⟩
  rcases List.mem_append.mp h' with h' | h'
  · exact hcalls ops' h'
  · rw [List.mem_singleton.mp h']
    exact hops

theorem By.log (h : By app i w₀ w) (e : Event) : By app i w₀ (w.log e) :=
  h.quiet (congr rfl id rfl)

/-- Within an event, only callbacks submit. -/
theorem rule (app : App) (hcodec : (w₀.con i).codec) : World.CallRule app (By app i w₀) where
  log h _ _ := h.log _
  conn _ _ _ h _ _ := h.quiet (set rfl id rfl)
  base h _ _ _ _ := h.quiet (congr rfl id rfl)
  unregisterIdles _ h := h.quiet (congr rfl id rfl)
  updateIdles _ h := h.quiet (congr rfl id rfl)
  flush i h := h.quiet (onLink (·.flush) (fun l => l.quiet_flush) (fun l => l.codec_sendBase _)
    fun l => (Link.sendBase_spec l _).submitted)
  unwatch {w} i h := by
    rw [Libet.unwatch]
    split
    · exact h.quiet (onLink (·.enableWrite false) (fun l => l.quiet_enableWrite false)
        (fun l => l.codec_enableWrite false) fun l => l.submitted_enableWrite false)
    · exact h
  shut h hch := h.quiet (set rfl (fun _ => by rw [hch]; rfl) rfl)
  drop h := h.quiet (set rfl (fun h => by cases h) rfl)
  callMsg {w i} h _ := by
    rw [Libet.callMsg]
    exact ((h.log _).call hcodec (.onMsg _ _ _)).quiet (consumeInput _ _)
  onRead h _ := h.call hcodec (.onRead _ _)
  callState {w i} h hcb := by
    rw [Libet.callState, if_pos hcb]
    exact (h.log _).call hcodec (.onState _ _)
  onTimer _ h := h.call hcodec (.onTimer _ _)
  onWrite _ h := h.call hcodec (.onWrite _ _)

/-- One event. -/
theorem step {a : Input} (hstep : worldStep app w a = some w') (hi : i < w.nextConn)
    (hcodec : (w.con i).codec) : ∃ calls, Submits i w w' calls ∧ Performs app a calls := by
  by_cases huser : ∃ op, a = .user op
  · obtain ⟨op, rfl⟩ := huser
    obtain rfl := Option.some.inj hstep
    refine ⟨[[op]], runOps hcodec [op], fun op' heq => ?_, fun hno => absurd rfl (hno op)⟩
    cases heq
    rfl
  · have hstart : By app i w w := ⟨[], refl i w, fun _ h => by cases h⟩
    obtain ⟨calls, hsub, hcalls⟩ : By app i w w' := by
      refine (rule app hcodec).worldStep hstep hstart (fun fd recvs sends selects _ => ?_)
        (fun _ _ _ _ => hstart.quiet (congr rfl id rfl))
        (fun op heq => absurd ⟨op, heq⟩ huser) fun _ _ => hstart.quiet (congr rfl id rfl)
      -- the new connection is another one
      have hcon : (handleAccept app fd (Socket.ofScripts recvs sends selects) w).con i = w.con i :=
        Function.update_of_ne (Nat.ne_of_lt hi) ..
      exact hstart.quiet (congr (by rw [hcon]) (by rw [hcon]; exact id) (by rw [hcon]))
    exact ⟨calls, hsub, fun op heq => absurd ⟨op, heq⟩ huser, fun _ => hcalls⟩

end Submits

/-- **What is on record is what was handed over.**  In every run in which a connection
with a codec keeps its channel, the bytes submitted to it are, in order, those of the
operations that the events perform: the caller's own and those of the callbacks. -/
theorem submitted_of_run {w' : World} {as : List Input} (hi : i < w.nextConn)
    (hcodec : (w.con i).codec) (h : Exec.exec (worldStep app) w as = some w')
    (hch : (w'.con i).channel.isSome) :
    ∃ calls, List.Forall₂ (Performs app) as calls ∧
      (w'.con i).submitted =
        (w.con i).submitted ++ calls.flatten.flatten.flatMap (UserOp.bytes i) := by
  have hall : ∃ calls, List.Forall₂ (Performs app) as calls ∧
      Submits i w w' calls.flatten := by
    clear hch
    induction as generalizing w with
    | nil =>
        obtain rfl := Option.some.inj h
        exact ⟨[], .nil, .refl i w⟩
    | cons a as ih =>
        obtain ⟨t, ht, hrun⟩ := Exec.exec_cons_some h
        obtain ⟨calls, hsub, hcalls⟩ := Submits.step ht hi hcodec
        obtain ⟨rest, hrest, hsub'⟩ := ih ((born_rule app i).worldStep ht hi)
          (hsub.codec.trans hcodec) hrun
        exact ⟨calls :: rest, .cons hcalls hrest, hsub.trans hsub'⟩
  obtain ⟨calls, hcalls, hsub⟩ := hall
  exact ⟨calls, hcalls, hsub.submitted hch⟩

/-! ### Every connection -/

/-- What the receiving side does is nothing to the sending side. -/
theorem SendInv.receives {c c' : TcpConn} (h : SendInv c) (hc : Receives c c') :
    SendInv c' := by
  refine ⟨⟨?_, fun hch hf => ?_⟩, fun hch hf hne => ?_⟩
  · rw [hc.output]; exact h.together.output_wf
  · rw [hc.sendFailed] at hf
    rw [hc.accepted, hc.output, hc.submitted]
    exact h.together.stream (hc.channel hch).1 hf
  · rw [hc.sendFailed] at hf
    rw [hc.output] at hne
    rw [(hc.channel hch).2]
    exact h.watched (hc.channel hch).1 hf hne

/-- A connection that has sent nothing yet. -/
theorem sendInv_acceptedCon (app : App) (ch : Channel) (recvs : List RecvResult)
    (sends : List SendResult) (selects : List Int) :
    SendInv (acceptedCon app ch (Socket.ofScripts recvs sends selects)) where
  together := ⟨Buffer.wf_new, fun _ _ => by
    simp [acceptedCon, TcpConn.new, Socket.ofScripts, Buffer.content_new]⟩
  watched _ _ hne := absurd Buffer.content_new hne

/-- The sending side of every connection is in order. -/
def World.Sends (w : World) : Prop := ∀ i, SendInv (w.con i)

theorem World.Sends.set (h : w.Sends) (i : ConnId) {c : TcpConn} (hc : SendInv c) :
    (w.set i c).Sends := by
  intro j
  rcases eq_or_ne j i with rfl | hne
  · simpa only [World.set, Function.update_self] using hc
  · simpa only [World.set, Function.update_of_ne hne] using h j

theorem World.Sends.runOp (h : w.Sends) (op : UserOp) : (w.runOp op).Sends := by
  cases op with
  | send i buf => exact h.set i (Link.sendInv_send (l := ⟨w.con i, _⟩) (h i) buf)
  | sendBuffer i buf =>
      exact h.set i (Link.sendInv_sendBuffer (l := ⟨w.con i, _⟩) (h i) buf.2).1
  | sendMsg i msg => exact h.set i (Link.sendInv_sendMsg (l := ⟨w.con i, _⟩) (h i) msg)
  | sendOutput i =>
      exact h.set i (Link.sendInv_sendOutput (l := ⟨w.con i, _⟩) (h i).together
        fun _ => (h i).watched)
  | close i =>
      simp only [World.runOp]
      split <;> exact h
  | addIdleCB i idle =>
      simp only [World.runOp]
      split
      · exact h.set i ⟨⟨(h i).together.output_wf, (h i).together.stream⟩, (h i).watched⟩
      · exact h

theorem World.Sends.flush (h : w.Sends) (i : ConnId) : (w.onLink i fun l => l.flush).Sends :=
  h.set i (Link.sendInv_flush (l := ⟨w.con i, _⟩) (h i).together)

theorem World.Sends.unwatch (h : w.Sends) (i : ConnId) : (unwatch i w).Sends := by
  rw [Libet.unwatch]
  -- write interest goes off only when the queue is empty
  split
  · rename_i hempty
    refine h.set i (Link.sendInv_disableWrite (l := ⟨w.con i, _⟩) (h i).together ?_)
    exact (Buffer.empty_iff (h i).together.output_wf).mp hempty.1
  · exact h

/-- The sending sides stay in order. -/
theorem sends_rule (app : App) : World.Rule app World.Sends where
  runOp op h := h.runOp op
  receives {_ i _} h hc := h.set i ((h i).receives hc)
  log h _ := h
  base h _ _ _ := h
  unregisterIdles _ h := h
  updateIdles _ h := h
  flush i h := h.flush i
  unwatch i h := h.unwatch i
  accept {w fd} recvs sends selects h :=
    h.set w.nextConn (sendInv_acceptedCon app ⟨w.nextChannel, fd, true, false⟩ recvs sends
      selects)
  tick _ h := h

/-- Unless a `::send` has failed, the bytes the socket has accepted followed by
those in `m_output` are all the bytes submitted. -/
def TcpConn.Intact (c : TcpConn) : Prop :=
  c.sock.sendFailed = false → c.sock.accepted ++ c.output.content = c.submitted

theorem SendInv.intact {c : TcpConn} (h : SendInv c) (hch : c.channel.isSome) : c.Intact :=
  fun hf => by rw [← h.together.stream hch hf, List.append_nil]

theorem sends_init (wakeupFd listenFd : Int) : (World.init wakeupFd listenFd).Sends :=
  fun _ => ⟨⟨Buffer.wf_new, fun h => by cases h⟩, fun h => by cases h⟩

theorem channel_of_connected {w : World} (h : w.Good) (hs : (w.con i).state = .connected) :
    (w.con i).channel.isSome := by
  have hopen : (w.hub.peer i).isOpen = true :=
    (h.settled.open_iff i).trans (by rw [show (w.hub.peer i).state = _ from hs]; rfl)
  obtain ⟨ch, hch⟩ := Hub.exists_channel_of_isOpen hopen
  obtain ⟨c, hc, -⟩ := Option.map_eq_some_iff.mp hch
  exact Option.isSome_iff_exists.mpr ⟨c, hc⟩

/-- **Nothing is lost, duplicated or reordered on the way to the socket.**
After any sequence of events, and so after every operation of the caller and
every `HandleWrite`, the bytes that the socket of a connected connection has
accepted, followed by the content of `m_output`, are the bytes submitted to it
in order, if every `::send` so far has accepted bytes or reported
`WSAEWOULDBLOCK`.  The same holds inside the next `HandleWrite` after each of the
operations of its write callback. -/
theorem intact_of_run {wakeupFd listenFd : Int} {as : List Input}
    (h : Exec.exec (worldStep app) (World.init wakeupFd listenFd) as = some w)
    (hs : (w.con i).state = .connected) :
    (w.con i).Intact ∧
      ∀ n, (((w.onLink i fun l => l.flush).runOps
        ((app.onWrite (w.onLink i fun l => l.flush) i).take n)).con i).Intact := by
  have hsends := (sends_rule app).exec h (sends_init wakeupFd listenFd)
  have hch := channel_of_connected (good_of_exec h (good_init wakeupFd listenFd)) hs
  refine ⟨(hsends i).intact hch, fun n => ?_⟩
  have hops := (sends_rule app).poller.runOps ((sends_rule app).flush i hsends)
    ((app.onWrite (w.onLink i fun l => l.flush) i).take n)
  apply (hops i).intact
  -- the callback does not close the channel
  have hquiet := (World.quiet_onLink w i (·.flush) fun l => l.quiet_flush).trans
    (World.quiet_runOps (w.onLink i fun l => l.flush)
      ((app.onWrite (w.onLink i fun l => l.flush) i).take n))
  exact (hquiet.hasChannel i).trans hch

/-- A message that the socket takes in three pieces, and a byte behind it. -/
theorem intact_of_run_heartbeatTest :
    ∃ w, Exec.exec (worldStep heartbeatTest) (World.init 4 5)
      [.accept 6 [.data 0 [0, 0, 6, 7, 8], .wouldBlock] [.accept 1, .wouldBlock, .accept 9] [1],
        .readable 0, .user (.send 0 [9]), .writable 0] = some w ∧
      (w.con 0).sock.accepted = [0, 0, 0, 6, 7, 8, 9] ∧ (w.con 0).Intact := by
  have hrun : (Exec.exec (worldStep heartbeatTest) (World.init 4 5)
      [.accept 6 [.data 0 [0, 0, 6, 7, 8], .wouldBlock] [.accept 1, .wouldBlock, .accept 9] [1],
        .readable 0, .user (.send 0 [9]), .writable 0]).map
      (fun w => ((w.con 0).state, (w.con 0).sock.accepted)) =
      some (.connected, [0, 0, 0, 6, 7, 8, 9]) := by
    decide +kernel
  obtain ⟨w, hw, heq⟩ := Option.map_eq_some_iff.mp hrun
  obtain ⟨hs, hacc⟩ := Prod.mk.inj heq
  exact ⟨w, hw, hacc, (intact_of_run hw hs).1⟩

end Libet
