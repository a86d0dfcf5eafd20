/-
Libet/SendRace.lean

`SendMsg` on a worker thread next to `HandleWrite` on the loop's thread.

Each of the two reads `m_output`, sends, and consumes what was sent; the lock
around it is commented out.  A `Race` is the connection together with where the
two threads stand.  One step is the encoding of a frame, one `SendBase` on the
bytes then in `m_output`, or one `consume`.

Between its two steps a thread leaves the socket ahead of `m_output` by the
bytes it has sent and not yet consumed (`Ahead`).  As long as nobody sends then,
the bytes are sent once and in order (`accepted_prefix_of_run`); a `::send` that
takes bytes then takes bytes that the socket already has.
-/
import Libet.Lib.Exec
import Libet.SendInv
import Libet.TcpConn

namespace Libet

/-! ### The two threads -/

/-- Where the worker stands in `SendMsg`. -/
inductive WorkerAt
  | idle
  /-- behind `Encode` -/
  | encoded
  /-- behind `SendBase`, which has sent `n` bytes -/
  | sent (n : Nat)
  deriving DecidableEq, Repr

/-- The bytes the worker has sent and not consumed. -/
def WorkerAt.pending : WorkerAt → Nat
  | .sent n => n
  | _ => 0

/-- A connection that a worker sends messages on.  `loop` is the number of
bytes that `HandleWrite` has sent, while it is behind its `SendBase`. -/
structure Race where
  link : Link
  worker : WorkerAt
  loop : Option Nat

/-- What one of the threads does next. -/
inductive RaceStep
  | encode (msg : List UInt8)
  | workerSend
  | workerConsume
  | loopSend
  | loopConsume
  deriving DecidableEq, Repr

/-- The frame that a step appends. -/
def RaceStep.frame : RaceStep → List UInt8
  | .encode msg => Libet.frame msg
  | _ => []

namespace Link

/-- `m_output.consume(sended)`. -/
def consumeOutput (l : Link) (sended : Nat) : Link :=
  { l with con := { l.con with output := l.con.output.consume sended } }

/-- `m_codec->Encode(msg, GetOutput())`. -/
def encodeOutput (l : Link) (msg : List UInt8) : Link :=
  let l := if l.con.channel.isSome then l.submit (frame msg) else l
  { l with con := { l.con with output := encode msg l.con.output } }

@[simp] theorem output_encodeOutput (l : Link) (msg : List UInt8) :
    (l.encodeOutput msg).con.output = encode msg l.con.output := by
  rw [encodeOutput]
  split <;> rfl

/-- The end of `HandleWrite`: no write interest behind an empty `m_output`. -/
def unwatch (l : Link) : Link :=
  if l.con.output.empty ∧ l.con.writable then l.enableWrite false else l

theorem submitted_unwatch (l : Link) : l.unwatch.con.submitted = l.con.submitted := by
  rw [unwatch]
  split
  · exact l.submitted_enableWrite false
  · rfl

end Link

namespace Race

/-- The bytes sent and not consumed. -/
def pending (r : Race) : Nat := r.worker.pending + r.loop.getD 0

/-- One step.  The loop calls `HandleWrite` only while there is write interest;
`Send` does nothing more with an empty `m_output`. -/
def step (r : Race) : RaceStep → Option Race
  | .encode msg =>
      if r.worker = .idle then
        some { r with link := r.link.encodeOutput msg, worker := .encoded }
      else none
  | .workerSend =>
      if r.worker = .encoded then
        -- the loop may have emptied `m_output` in between
        if r.link.con.output.size ≠ 0 then
          let sended := r.link.sendBase r.link.con.output.content
          some { r with link := sended.2, worker := .sent sended.1 }
        else some { r with worker := .idle }
      else none
  | .workerConsume =>
      match r.worker with
      | .sent n => some { r with link := (r.link.consumeOutput n).watchRest, worker := .idle }
      | _ => none
  | .loopSend =>
      if r.loop = none ∧ r.link.con.writable then
        let sended := r.link.sendBase r.link.con.output.content
        some { r with link := sended.2, loop := some sended.1 }
      else none
  | .loopConsume =>
      match r.loop with
      | some n => some { r with link := (r.link.consumeOutput n).unwatch, loop := none }
      | none => none

/-- A connection that has just connected, its codec set and no callback for
writing; `sends` is what its `::send`s will do. -/
def init (fd : Int) (sends : List SendResult) : Race where
  link :=
    { con :=
        { TcpConn.new (Socket.ofScripts [] sends []) with
          state := .connected
          channel := some ⟨3, fd, true, false⟩
          readCb := some .onMsg
          codec := true }
      poller := PollerSelect.new.addChannel ⟨3, fd, true, false⟩ }
  worker := .idle
  loop := none

end Race

/-! ### Undisturbed, the steps are the functions -/

/-- The worker alone. -/
theorem exec_sendMsg {l : Link} (hwf : l.con.output.WF) (hcodec : l.con.codec)
    (hch : l.con.channel.isSome) (msg : List UInt8) :
    Exec.exec Race.step ⟨l, .idle, none⟩ [.encode msg, .workerSend, .workerConsume] =
      some ⟨l.sendMsg msg, .idle, none⟩ := by
  -- the frame has at least its header, so there is something to send
  have hsize : (encode msg l.con.output).size ≠ 0 := by
    rw [← Buffer.content_length (wf_encode hwf msg), content_encode hwf, List.length_append,
      frame_length]
    omega
  have hsend : l.sendMsg msg = (l.encodeOutput msg).flush.watchRest := by
    rw [Link.sendMsg, if_pos hcodec, Link.sendOutput]
    simp only [Link.encodeOutput, if_pos hch]
    exact (if_pos hch).trans (congrArg Link.watchRest (if_pos hsize))
  have hsize' : (l.encodeOutput msg).con.output.size ≠ 0 := by
    rw [Link.output_encodeOutput]
    exact hsize
  rw [hsend, Exec.exec_cons, Race.step, if_pos rfl, Option.bind_some, Exec.exec_cons, Race.step,
    if_pos rfl, if_pos hsize']
  rfl

theorem writeCb_sendBase (l : Link) (buf : List UInt8) :
    (l.sendBase buf).2.con.writeCb = l.con.writeCb := by
  refine Link.sendBase_rule (motive := fun l _ _ l' => l'.con.writeCb = l.con.writeCb)
    (fun _ => rfl) (fun _ _ _ _ _ _ ih => ih) (fun l buf s _ => ?_) (fun _ _ _ _ => rfl) l buf
  split
  · rfl
  · rw [Link.enableWrite_eq]

/-- The connection and the poller, as `Link`s see them. -/
theorem onLink_eq (w : World) (i : ConnId) (f : Link → Link) :
    (⟨(w.onLink i f).con i, (w.onLink i f).base.poller⟩ : Link) =
      f ⟨w.con i, w.base.poller⟩ := by
  simp [World.onLink, World.set]

/-- The loop alone. -/
theorem exec_handleWrite {app : App} {i : ConnId} {w : World}
    (hs : (w.con i).state = .connected) (hw : (w.con i).writable)
    (hcb : (w.con i).writeCb = false) :
    Exec.exec Race.step ⟨⟨w.con i, w.base.poller⟩, .idle, none⟩ [.loopSend, .loopConsume] =
      some ⟨⟨(handleWrite app i w).con i, (handleWrite app i w).base.poller⟩, .idle, none⟩ := by
  have hlink := onLink_eq w i fun l => l.flush
  have hcon : ((w.onLink i fun l => l.flush).con i).writeCb = false := by
    rw [show (w.onLink i fun l => l.flush).con i = _ from congrArg Link.con hlink]
    exact (writeCb_sendBase _ _).trans hcb
  -- without a write callback `HandleWrite` is its two steps
  have hcall : callWrite app i (w.onLink i fun l => l.flush) = w.onLink i fun l => l.flush :=
    if_neg fun h => by rw [hcon] at h; exact absurd h.2 (by simp)
  have hwrite : handleWrite app i w = unwatch i (w.onLink i fun l => l.flush) := by
    rw [← hcall, handleWrite, hs]
  have hend : (⟨(handleWrite app i w).con i, (handleWrite app i w).base.poller⟩ : Link) =
      (Link.flush ⟨w.con i, w.base.poller⟩).unwatch := by
    rw [hwrite, ← hlink, unwatch, Link.unwatch]
    split
    · exact onLink_eq _ i _
    · rfl
  rw [hend, Exec.exec_cons, Race.step, if_pos ⟨rfl, hw⟩]
  rfl

/-! ### How far the socket is ahead -/

/-- The socket has `k` bytes more than `m_output` has given away. -/
structure Ahead (c : TcpConn) (k : Nat) : Prop where
  hasChannel : c.channel.isSome
  output_wf : c.output.WF
  le_length : k ≤ c.output.content.length
  stream : c.sock.accepted ++ c.output.content.drop k = c.submitted

namespace Link

variable {l : Link} {k n : Nat}

/-- The next `::send` takes some bytes of `m_output`. -/
def accepts (l : Link) : Bool :=
  match (l.con.sock.send l.con.fd l.con.output.content).1 with
  | .sent _ => true
  | _ => false

theorem sendBase_of_not_accepts (h : ¬ l.accepts = true) :
    (l.sendBase l.con.output.content).1 = 0 := by
  rw [sendBase]
  split
  · rfl
  · split
    · rename_i n s hsend
      rw [accepts, hsend] at h
      exact absurd rfl h
    · rfl
    · rfl

theorem ahead_encodeOutput (h : Ahead l.con k) (msg : List UInt8) :
    Ahead (l.encodeOutput msg).con k := by
  rw [encodeOutput]
  rw [if_pos h.hasChannel]
  refine ⟨h.hasChannel, wf_encode h.output_wf msg, ?_, ?_⟩
  · show k ≤ (encode msg l.con.output).content.length
    rw [content_encode h.output_wf, List.length_append]
    exact h.le_length.trans (Nat.le_add_right _ _)
  · show l.con.sock.accepted ++ (encode msg l.con.output).content.drop k =
      l.con.submitted ++ frame msg
    rw [content_encode h.output_wf, List.drop_append_of_le_length h.le_length,
      ← List.append_assoc, h.stream]

/-- A `SendBase` on `m_output` gets the socket further ahead, and is in order if
the socket was not ahead. -/
theorem ahead_sendBase (h : Ahead l.con k) (hexcl : l.accepts → k = 0) :
    Ahead (l.sendBase l.con.output.content).2.con
      (k + (l.sendBase l.con.output.content).1) := by
  have hspec := l.sendBase_spec l.con.output.content
  by_cases hacc : l.accepts = true
  · -- the socket was level with `m_output`, so the bytes go on where it stopped
    obtain rfl := hexcl hacc
    refine ⟨hspec.hasChannel.trans h.hasChannel, by rw [hspec.output]; exact h.output_wf, ?_, ?_⟩
    · rw [hspec.output, Nat.zero_add]
      exact hspec.le
    · rw [hspec.output, hspec.accepted, hspec.submitted, Nat.zero_add, List.append_assoc,
        List.take_append_drop, ← h.stream, List.drop_zero]
  · -- nothing is accepted, so nothing changes
    have hzero := sendBase_of_not_accepts hacc
    refine ⟨hspec.hasChannel.trans h.hasChannel, by rw [hspec.output]; exact h.output_wf, ?_, ?_⟩
    · rw [hspec.output, hzero]
      exact h.le_length
    · rw [hspec.output, hspec.accepted, hspec.submitted, hzero, List.take_zero,
        List.append_nil]
      exact h.stream

theorem ahead_consumeOutput (h : Ahead l.con (n + k)) : Ahead (l.consumeOutput n).con k := by
  have hle := h.le_length
  have hsize : n ≤ l.con.output.size := by
    rw [← Buffer.content_length h.output_wf]
    omega
  refine ⟨h.hasChannel, Buffer.wf_consume h.output_wf hsize, ?_, ?_⟩
  · show k ≤ (l.con.output.consume n).content.length
    rw [Buffer.content_consume, List.length_drop]
    omega
  · show l.con.sock.accepted ++ (l.con.output.consume n).content.drop k = l.con.submitted
    rw [Buffer.content_consume, List.drop_drop]
    exact h.stream

theorem ahead_enableWrite (h : Ahead l.con k) (enable : Bool) :
    Ahead (l.enableWrite enable).con k := by
  rw [enableWrite_eq]
  exact ⟨by simpa using h.hasChannel, h.output_wf, h.le_length, h.stream⟩

theorem ahead_watchRest (h : Ahead l.con k) : Ahead l.watchRest.con k := by
  rw [watchRest]
  split
  · exact ahead_enableWrite h true
  · exact h

theorem ahead_unwatch (h : Ahead l.con k) : Ahead l.unwatch.con k := by
  rw [unwatch]
  split
  · exact ahead_enableWrite h false
  · exact h

end Link

/-! ### Runs -/

namespace Race

variable {r r' : Race} {a : RaceStep} {as : List RaceStep}

/-- No `::send` takes bytes while the other thread has sent bytes that it has
not consumed. -/
def Exclusive (r : Race) (a : RaceStep) (_ : Race) : Prop :=
  match a with
  | .workerSend => r.link.accepts → r.loop.getD 0 = 0
  | .loopSend => r.link.accepts → r.worker.pending = 0
  | _ => True

/-- No `consume` removes more than `m_output` holds. -/
def Fits (r : Race) (a : RaceStep) (_ : Race) : Prop :=
  match a with
  | .workerConsume => r.worker.pending ≤ r.link.con.output.size
  | .loopConsume => r.loop.getD 0 ≤ r.link.con.output.size
  | _ => True

instance (r : Race) (a : RaceStep) (r' : Race) : Decidable (r.Exclusive a r') :=
  match a with
  | .workerSend => inferInstanceAs (Decidable (r.link.accepts → r.loop.getD 0 = 0))
  | .loopSend => inferInstanceAs (Decidable (r.link.accepts → r.worker.pending = 0))
  | .encode _ | .workerConsume | .loopConsume => isTrue trivial

instance (r : Race) (a : RaceStep) (r' : Race) : Decidable (r.Fits a r') :=
  match a with
  | .workerConsume => inferInstanceAs (Decidable (r.worker.pending ≤ r.link.con.output.size))
  | .loopConsume => inferInstanceAs (Decidable (r.loop.getD 0 ≤ r.link.con.output.size))
  | .encode _ | .workerSend | .loopSend => isTrue trivial

/-- The invariant: the socket is ahead by what is pending. -/
def Inv (r : Race) : Prop := Ahead r.link.con r.pending

/-- What a step does, and where the threads stand before it. -/
theorem step_cases (hstep : r.step a = some r') :
    (∃ msg, a = .encode msg ∧ r.worker = .idle ∧
      r' = ⟨r.link.encodeOutput msg, .encoded, r.loop⟩) ∨
    (a = .workerSend ∧ r.worker = .encoded ∧
      r' = ⟨(r.link.sendBase r.link.con.output.content).2,
        .sent (r.link.sendBase r.link.con.output.content).1, r.loop⟩) ∨
    (a = .workerSend ∧ r.worker = .encoded ∧ r' = ⟨r.link, .idle, r.loop⟩) ∨
    (∃ n, a = .workerConsume ∧ r.worker = .sent n ∧
      r' = ⟨(r.link.consumeOutput n).watchRest, .idle, r.loop⟩) ∨
    (a = .loopSend ∧ r.loop = none ∧
      r' = ⟨(r.link.sendBase r.link.con.output.content).2, r.worker,
        some (r.link.sendBase r.link.con.output.content).1⟩) ∨
    (∃ n, a = .loopConsume ∧ r.loop = some n ∧
      r' = ⟨(r.link.consumeOutput n).unwatch, r.worker, none⟩) := by
  obtain ⟨l, worker, loop⟩ := r
  cases a with
  | encode msg =>
      simp only [step] at hstep
      split at hstep <;> cases hstep
      rename_i hidle
      exact Or.inl ⟨msg, rfl, hidle, rfl⟩
  | workerSend =>
      simp only [step] at hstep
      split at hstep
      · rename_i hat
        split at hstep <;> cases hstep
        · exact Or.inr (Or.inl ⟨rfl, hat, rfl⟩)
        · exact Or.inr (Or.inr (Or.inl ⟨rfl, hat, rfl⟩))
      · cases hstep
  | workerConsume =>
      simp only [step] at hstep
      split at hstep <;> cases hstep
      rename_i n
      exact Or.inr (Or.inr (Or.inr (Or.inl ⟨n, rfl, rfl, rfl⟩)))
  | loopSend =>
      simp only [step] at hstep
      split at hstep <;> cases hstep
      rename_i hat
      exact Or.inr (Or.inr (Or.inr (Or.inr (Or.inl ⟨rfl, hat.1, rfl⟩))))
  | loopConsume =>
      simp only [step] at hstep
      split at hstep <;> cases hstep
      rename_i n
      exact Or.inr (Or.inr (Or.inr (Or.inr (Or.inr ⟨n, rfl, rfl, rfl⟩))))

theorem inv_step (hstep : r.step a = some r') (hexcl : r.Exclusive a r') (h : r.Inv) :
    r'.Inv := by
  rw [Inv, pending] at h
  rcases step_cases hstep with ⟨msg, rfl, hat, rfl⟩ | ⟨rfl, hat, rfl⟩ | ⟨rfl, hat, rfl⟩ |
    ⟨n, rfl, hat, rfl⟩ | ⟨rfl, hat, rfl⟩ | ⟨n, rfl, hat, rfl⟩
  · rw [hat] at h
    exact Link.ahead_encodeOutput h msg
  · -- the worker has nothing pending, so what is pending is the loop's
    rw [hat, show WorkerAt.encoded.pending = 0 from rfl, Nat.zero_add] at h
    have hsend := Link.ahead_sendBase h hexcl
    rw [Nat.add_comm] at hsend
    exact hsend
  · rw [hat] at h
    exact h
  · rw [hat] at h
    have hcons := Link.ahead_watchRest (Link.ahead_consumeOutput h)
    rw [← Nat.zero_add (r.loop.getD 0)] at hcons
    exact hcons
  · rw [hat] at h
    exact Link.ahead_sendBase h hexcl
  · rw [hat, Nat.add_comm] at h
    exact Link.ahead_unwatch (Link.ahead_consumeOutput h)

theorem fits_of_inv (a : RaceStep) (h : r.Inv) : r.Fits a r' := by
  have hle := h.le_length
  rw [Buffer.content_length h.output_wf, pending] at hle
  cases a with
  | workerConsume | loopConsume => simp only [Fits]; omega
  | _ => trivial

theorem submitted_step (hstep : r.step a = some r') (hch : r.link.con.channel.isSome) :
    r'.link.con.submitted = r.link.con.submitted ++ a.frame := by
  have hsend := (r.link.sendBase_spec r.link.con.output.content).submitted
  rcases step_cases hstep with ⟨msg, rfl, -, rfl⟩ | ⟨rfl, -, rfl⟩ | ⟨rfl, -, rfl⟩ |
    ⟨n, rfl, -, rfl⟩ | ⟨rfl, -, rfl⟩ | ⟨n, rfl, -, rfl⟩
  · simp only [Link.encodeOutput, if_pos hch]
    rfl
  -- only `Encode` submits
  all_goals refine Eq.trans ?_ (List.append_nil _).symm
  · exact hsend
  · rfl
  · exact Link.submitted_watchRest _
  · exact hsend
  · exact Link.submitted_unwatch _

theorem submitted_of_exec (hrun : Exec.exec step r as = some r')
    (hexcl : Exec.Along step Exclusive r as) (h : r.Inv) :
    r'.link.con.submitted = r.link.con.submitted ++ as.flatMap RaceStep.frame := by
  induction as generalizing r with
  | nil =>
      cases hrun
      exact (List.append_nil _).symm
  | cons a as ih =>
      obtain ⟨r₁, hstep, hrest⟩ := Exec.exec_cons_some hrun
      obtain ⟨hfirst, hexcl⟩ := hexcl r₁ hstep
      rw [ih hrest hexcl (inv_step hstep hfirst h), submitted_step hstep h.hasChannel,
        List.flatMap_cons, List.append_assoc]

theorem inv_init (fd : Int) (sends : List SendResult) : (init fd sends).Inv :=
  ⟨rfl, Buffer.wf_new, Nat.le_refl 0, rfl⟩

/-- **When `SendMsg` on a worker is safe.**  In every run in which no `::send`
takes bytes while the other thread has bytes to consume, the socket has accepted
a prefix of the frames in the order in which they were submitted, and no
`consume` removes more than `m_output` holds. -/
theorem accepted_prefix_of_run {fd : Int} {sends : List SendResult}
    (hrun : Exec.exec step (init fd sends) as = some r)
    (hexcl : Exec.Along step Exclusive (init fd sends) as) :
    r.link.con.sock.accepted <+: as.flatMap RaceStep.frame ∧
      Exec.Along step Fits (init fd sends) as := by
  have hinit := inv_init fd sends
  have hinv : r.Inv := Exec.invariant_along
    (fun _ _ _ hstep hexcl h => inv_step hstep hexcl h) hexcl hrun hinit
  refine ⟨⟨r.link.con.output.content.drop r.pending, ?_⟩, ?_⟩
  · rw [hinv.stream, submitted_of_exec hrun hexcl hinit]
    rfl
  · exact Exec.along_of_invariant (fun _ _ _ hstep hexcl h => inv_step hstep hexcl h)
      (fun _ a _ _ _ h => fits_of_inv a h) hexcl hinit

/-- A frame sent in two pieces, the second one by the loop, and a second frame
that is encoded while the loop has not consumed yet. -/
theorem accepted_prefix_of_run_handover :
    ∃ r, Exec.exec step (init 6 [.accept 2, .wouldBlock, .accept 9, .accept 9])
        [.encode [7], .workerSend, .workerConsume, .loopSend, .encode [8], .loopConsume,
          .workerSend] = some r ∧
      r.link.con.sock.accepted = [0, 0, 0, 5, 7, 0, 0, 0, 5, 8] ∧
      r.link.con.sock.accepted <+: [0, 0, 0, 5, 7, 0, 0, 0, 5, 8] := by
  have hrun : (Exec.exec step (init 6 [.accept 2, .wouldBlock, .accept 9, .accept 9])
        [.encode [7], .workerSend, .workerConsume, .loopSend, .encode [8], .loopConsume,
          .workerSend]).map (fun r => r.link.con.sock.accepted) =
      some [0, 0, 0, 5, 7, 0, 0, 0, 5, 8] := by
    decide +kernel
  obtain ⟨r, hr, hacc⟩ := Option.map_eq_some_iff.mp hrun
  exact ⟨r, hr, hacc, (accepted_prefix_of_run hr (by decide +kernel)).1⟩

/-- The loop sends what the worker has sent already: the first three bytes of
the frame are accepted twice, and then more is consumed than there is. -/
theorem accepted_prefix_fails :
    ∃ r, Exec.exec step (init 6 [.accept 2, .wouldBlock, .accept 9])
        [.encode [7], .workerSend, .loopSend, .workerConsume, .loopConsume] = some r ∧
      r.link.con.sock.accepted = [0, 0, 0, 0, 0, 0, 5, 7] ∧
      ¬ r.link.con.sock.accepted <+: [0, 0, 0, 5, 7] ∧
      ¬ Exec.Along step Fits (init 6 [.accept 2, .wouldBlock, .accept 9])
        [.encode [7], .workerSend, .loopSend, .workerConsume, .loopConsume] := by
  have hrun : (Exec.exec step (init 6 [.accept 2, .wouldBlock, .accept 9])
        [.encode [7], .workerSend, .loopSend, .workerConsume, .loopConsume]).map
      (fun r => r.link.con.sock.accepted) = some [0, 0, 0, 0, 0, 0, 5, 7] := by
    decide +kernel
  obtain ⟨r, hr, hacc⟩ := Option.map_eq_some_iff.mp hrun
  exact ⟨r, hr, hacc, by rw [hacc]; decide, by decide +kernel⟩

end Race

end Libet
