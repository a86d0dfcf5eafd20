/-
Libet/SendWatch.lean

Who sends what waits in `m_output`: the poller, which calls `HandleWrite` while
write interest is on.

The calls of the sending side are steps here: the operations of the caller, and
`HandleWrite` in two parts, so that the operations of its write callback stand
between them.  Each connection starts with an empty `m_output`, and every call
leaves write interest on behind a non-empty one, except that
`Send(const char*, size_t)` relies on `SendBase` for it: after a `::send` that
fails for good, `SendBase` has not switched it on.  `unstranded_iff` says that
nothing else strands bytes.
-/
import Libet.SendRuns

namespace Libet

/-! ### The calls -/

/-- The event base, and the connections in whose write callbacks the loop is. -/
structure SendCalls where
  world : World
  callbacks : List ConnId

inductive SendCall
  /-- an operation of the caller -/
  | op (op : UserOp)
  /-- `HandleWrite`, up to the write callback if there is one to call -/
  | handleWrite (j : ConnId)
  /-- the innermost write callback returns -/
  | ret

/-- One call.  `HandleWrite` sends only on connected connections. -/
def sendCallStep (s : SendCalls) : SendCall → Option SendCalls
  | .op op => some { s with world := s.world.runOp op }
  | .handleWrite j =>
      if (s.world.con j).state = .connected then
        let w := s.world.onLink j fun l => l.flush
        if (w.con j).output.empty ∧ (w.con j).writeCb then some ⟨w, j :: s.callbacks⟩
        else some ⟨unwatch j w, s.callbacks⟩
      else none
  | .ret =>
      match s.callbacks with
      | [] => none
      | j :: rest => some ⟨unwatch j s.world, rest⟩

theorem exec_ops (ops : List UserOp) (w : World) (l : List ConnId) :
    Exec.exec sendCallStep ⟨w, l⟩ (ops.map SendCall.op) = some ⟨w.runOps ops, l⟩ := by
  induction ops generalizing w with
  | nil => rfl
  | cons op ops ih => exact ih (w.runOp op)

/-- `HandleWrite` on a connected connection is a run of these calls. -/
theorem exec_handleWrite_calls (app : App) {i : ConnId} {w : World}
    (hs : (w.con i).state = .connected) :
    ∃ as, Exec.exec sendCallStep ⟨w, []⟩ as = some ⟨handleWrite app i w, []⟩ := by
  have hwrite : handleWrite app i w =
      unwatch i (callWrite app i (w.onLink i fun l => l.flush)) := by
    rw [handleWrite, hs]
  rw [hwrite, callWrite]
  by_cases hcb : ((w.onLink i fun l => l.flush).con i).output.empty ∧
      ((w.onLink i fun l => l.flush).con i).writeCb
  · refine ⟨.handleWrite i ::
      ((app.onWrite (w.onLink i fun l => l.flush) i).map SendCall.op ++ [.ret]), ?_⟩
    rw [if_pos hcb, Exec.exec_cons, sendCallStep, if_pos hs, if_pos hcb, Option.bind_some,
      Exec.exec_append, exec_ops]
    rfl
  · refine ⟨[.handleWrite i], ?_⟩
    rw [if_neg hcb, Exec.exec_cons, sendCallStep, if_pos hs, if_neg hcb]
    rfl

/-! ### Stranded bytes -/

/-- A non-empty `m_output` means that the poller calls `HandleWrite`. -/
def Unstranded (c : TcpConn) : Prop := c.output.size ≠ 0 → c.writable = true

theorem unstranded_of_writable {c : TcpConn} (h : c.writable = true) : Unstranded c := fun _ => h

theorem unstranded_of_empty {c : TcpConn} (h : c.output.size = 0) : Unstranded c :=
  fun hne => absurd h hne

/-- A `Send(Buffer&)` behind queued bytes goes behind them in the queue, and not to
the socket. -/
def InOrder (i : ConnId) (s : SendCalls) (a : SendCall) (s' : SendCalls) : Prop :=
  ∀ buf, a = .op (.sendBuffer i buf) → (s.world.con i).output.size ≠ 0 →
    (s'.world.con i).sock = (s.world.con i).sock ∧
      (s'.world.con i).output.content = (s.world.con i).output.content ++ buf.1.content

/-- `::send` is called on an open descriptor and with a length that is positive as
an `int`. -/
def sendable (fd : Int) (len : Nat) : Bool := fd ≠ SOCKET_ERROR ∧ 0 < toInt32 len

/-- The `::send`s of `len` bytes, one after the other, take all of them, or come to
`WSAEWOULDBLOCK` before any other failure. -/
def takesOrBlocks (fd : Int) : List SendResult → Nat → Bool
  | [], len => len = 0 || sendable fd len
  | .accept n :: rest, len => len = 0 || sendable fd len &&
      takesOrBlocks fd rest (len - min (n + 1) (toInt32 len).toNat)
  | .wouldBlock :: _, len => len = 0 || sendable fd len
  | .error :: _, len => len = 0

/-- The call is not a `Send(const char*, size_t)` without write interest that meets a
failure for good before its bytes are taken. -/
def KeepsWatch (i : ConnId) (s : SendCalls) : SendCall → Prop
  | .op (.send j buf) => j = i → (s.world.con i).writable = true ∨
      takesOrBlocks (s.world.con i).fd (s.world.con i).sock.sends buf.length = true
  | _ => True

instance (c : TcpConn) : Decidable (Unstranded c) := inferInstanceAs (Decidable (_ → _))

instance (i : ConnId) (s : SendCalls) : ∀ a, Decidable (KeepsWatch i s a)
  | .op (.send j _) => inferInstanceAs (Decidable (j = i → _ ∨ _))
  | .op (.sendBuffer ..) | .op (.sendMsg ..) | .op (.sendOutput _) | .op (.close _)
  | .op (.addIdleCB ..) | .handleWrite _ | .ret => isTrue trivial

/-! ### `SendBase` and write interest -/

section Socket

variable {s s' : Socket} {fd : Int} {buf : List UInt8} {n : Nat}

theorem takesOrBlocks_zero (fd : Int) (l : List SendResult) : takesOrBlocks fd l 0 = true := by
  cases l with
  | nil => rfl
  | cons r rest => cases r <;> rfl

theorem sendable_of_not (h : ¬(fd = SOCKET_ERROR ∨ toInt32 buf.length ≤ 0)) :
    sendable fd buf.length = true := by
  rw [not_or, Int.not_le] at h
  exact decide_eq_true h

theorem takesOrBlocks_sent (h : s.send fd buf = (.sent n, s')) :
    takesOrBlocks fd s.sends buf.length = takesOrBlocks fd s'.sends (buf.drop n).length := by
  have hpos := (Socket.send_sent h).2.2.1
  rw [Socket.send] at h
  dsimp only at h
  split at h
  · cases h
  · rename_i hok
    have hsend := sendable_of_not hok
    split at h
    · cases h
    · rename_i k rest hs
      have hne : buf.length ≠ 0 := by
        intro h0
        rw [h0] at hpos
        exact absurd hpos (by decide)
      obtain ⟨hn, rfl⟩ := Prod.mk.inj h
      obtain rfl := SendOutcome.sent.inj hn
      rw [hs, takesOrBlocks, hsend, decide_eq_false hne, Bool.false_or, Bool.true_and,
        List.length_drop]
    · cases h
    · cases h

theorem takesOrBlocks_wouldBlock (h : s.send fd buf = (.wouldBlock, s')) :
    takesOrBlocks fd s.sends buf.length = true := by
  rw [Socket.send] at h
  dsimp only at h
  split at h
  · cases h
  · rename_i hok
    have hsend := sendable_of_not hok
    split at h
    · rename_i hs
      rw [hs, takesOrBlocks, hsend, Bool.or_true]
    · cases h
    · rename_i rest hs
      rw [hs, takesOrBlocks, hsend, Bool.or_true]
    · cases h

theorem takesOrBlocks_error (h : s.send fd buf = (.error, s')) (hne : buf ≠ []) :
    takesOrBlocks fd s.sends buf.length = false := by
  have hlen : decide (buf.length = 0) = false :=
    decide_eq_false fun h0 => hne (List.eq_nil_of_length_eq_zero h0)
  rw [Socket.send] at h
  dsimp only at h
  split at h
  · rename_i hbad
    have hsend : sendable fd buf.length = false := by
      apply decide_eq_false
      rintro ⟨hfd, hpos⟩
      exact hbad.elim hfd (Int.not_le.mpr hpos)
    rcases hs : s.sends with - | ⟨r, rest⟩
    · rw [takesOrBlocks, hlen, hsend, Bool.or_false]
    · cases r with
      | accept k => rw [takesOrBlocks, hlen, hsend, Bool.false_and, Bool.or_false]
      | wouldBlock => rw [takesOrBlocks, hlen, hsend, Bool.or_false]
      | error => exact hlen
  · split at h
    · cases h
    · cases h
    · cases h
    · rename_i rest hs
      rw [hs]
      exact hlen

end Socket

namespace Link

variable {l : Link} {buf : List UInt8}

/-- **Where `SendBase` leaves bytes over**, it has switched write interest on exactly
if it has come to `WSAEWOULDBLOCK`. -/
theorem sendBase_watches (l : Link) (buf : List UInt8) (hw : l.con.writable = false) :
    buf.drop (l.sendBase buf).1 = [] ∨ (l.sendBase buf).2.con.writable = true ↔
      takesOrBlocks l.con.fd l.con.sock.sends buf.length = true := by
  revert hw
  apply sendBase_rule (motive := fun l buf n l' => l.con.writable = false →
    (buf.drop n = [] ∨ l'.con.writable = true ↔
      takesOrBlocks l.con.fd l.con.sock.sends buf.length = true))
  · intro l hw
    exact iff_of_true (Or.inl rfl) (takesOrBlocks_zero _ _)
  · intro l buf n s r h ih hw
    rw [takesOrBlocks_sent h, ← List.drop_drop]
    exact ih hw
  · intro l buf s h hw
    refine iff_of_true (Or.inr ?_) (takesOrBlocks_wouldBlock h)
    rw [if_neg (Bool.eq_false_iff.mp hw)]
    exact writable_enableWrite (l := { l with con := { l.con with sock := s } })
      (isSome_of_fd (Socket.send_wouldBlock h).2.2) true
  · intro l buf s h hw
    by_cases hne : buf = []
    · subst hne
      exact iff_of_true (Or.inl rfl) (takesOrBlocks_zero _ _)
    · rw [takesOrBlocks_error h hne]
      refine iff_of_false ?_ Bool.false_ne_true
      rintro (hnil | hwrite)
      · exact hne hnil
      · exact Bool.false_ne_true (hw.symm.trans hwrite)

/-! ### Each function -/

theorem writable_appendRest (buf : List UInt8) (r : Nat × Link) :
    (appendRest buf r).con.writable = r.2.con.writable := by
  rw [appendRest]
  dsimp only
  split <;> rfl

/-- Behind an empty `m_output`, what is left over is stranded without write
interest. -/
theorem unstranded_appendRest {r : Nat × Link} (hwf : r.2.con.output.WF)
    (hsize : r.2.con.output.size = 0) :
    Unstranded (appendRest buf r).con ↔ buf.drop r.1 = [] ∨ r.2.con.writable = true := by
  rw [Unstranded, writable_appendRest, appendRest]
  dsimp only
  split
  · rename_i hnil
    exact iff_of_true (fun hne => absurd hsize hne) (Or.inl hnil)
  · rename_i hrest
    rw [or_iff_right hrest]
    refine forall_prop_of_true ?_
    intro h0
    have hc := (Buffer.size_eq_zero_iff (Buffer.wf_append hwf _)).mp h0
    rw [Buffer.content_append hwf] at hc
    exact hrest (List.append_eq_nil_iff.mp hc).2

/-- `Send(const char*, size_t)`. -/
theorem unstranded_send (h : Unstranded l.con) (hwf : l.con.output.WF)
    (hch : l.con.channel.isSome) :
    Unstranded (l.send buf).con ↔ l.con.writable = true ∨
      takesOrBlocks l.con.fd l.con.sock.sends buf.length = true := by
  rw [send, if_pos hch]
  dsimp only
  by_cases hempty : (l.submit buf).con.output.empty = true
  · rw [if_pos hempty]
    have hs := sendBase_spec (l.submit buf) buf
    have hsize := (Buffer.size_eq_zero_iff hwf).mpr ((Buffer.empty_iff hwf).mp hempty)
    rw [unstranded_appendRest (hs.output ▸ hwf) (hs.output ▸ hsize)]
    cases hw : l.con.writable with
    | true => exact iff_of_true (Or.inr (hs.writable hw)) (Or.inl rfl)
    | false =>
        rw [or_iff_right Bool.false_ne_true]
        exact sendBase_watches (l.submit buf) buf hw
  · -- behind a queue `::send` is not called
    have hw : l.con.writable = true := by
      apply h
      intro h0
      exact hempty ((Buffer.empty_iff hwf).mpr ((Buffer.size_eq_zero_iff hwf).mp h0))
    rw [if_neg hempty]
    refine iff_of_true ?_ (Or.inl hw)
    apply unstranded_of_writable
    rw [writable_appendRest]
    exact hw

theorem unstranded_sendBase (h : Unstranded l.con) (buf : List UInt8) :
    Unstranded (l.sendBase buf).2.con := by
  have hs := sendBase_spec l buf
  intro hne
  rw [hs.output] at hne
  exact hs.writable (h hne)

/-- `HandleWrite` up to the callback. -/
theorem unstranded_flush (h : Unstranded l.con) : Unstranded l.flush.con := by
  intro hne
  apply unstranded_sendBase h
  intro h0
  apply hne
  have hle := Buffer.size_consume_le (l.sendBase l.con.output.content).2.con.output
    (l.sendBase l.con.output.content).1
  rw [h0] at hle
  exact Nat.le_zero.mp hle

theorem unstranded_watchRest (hch : l.con.channel.isSome) : Unstranded l.watchRest.con := by
  rw [watchRest]
  split
  · exact unstranded_of_writable (writable_enableWrite hch true)
  · rename_i hnot
    intro hne
    by_contra hw
    exact hnot ⟨hne, hw⟩

/-- `SendOutput`. -/
theorem unstranded_sendOutput (hch : l.con.channel.isSome) : Unstranded l.sendOutput.con := by
  rw [sendOutput, if_pos hch]
  apply unstranded_watchRest
  split
  · exact (sendBase_spec l l.con.output.content).hasChannel.trans hch
  · exact hch

/-- `SendMsg`. -/
theorem unstranded_sendMsg (h : Unstranded l.con) (hch : l.con.channel.isSome)
    (msg : List UInt8) : Unstranded (l.sendMsg msg).con := by
  rw [sendMsg]
  split
  · exact unstranded_sendOutput hch
  · exact h

/-- `Send(Buffer&)`. -/
theorem unstranded_sendBuffer (h : Unstranded l.con) (hch : l.con.channel.isSome)
    (b : Buffer) : Unstranded (l.sendBuffer b).1.con := by
  have habs : ∀ x : Link × Buffer, x.1.con.channel.isSome → Unstranded x.1.con →
      (absorbWritable x).1.con.channel.isSome ∧ Unstranded (absorbWritable x).1.con := by
    intro x hx hu
    rw [absorbWritable]
    split
    · rename_i hw
      exact ⟨hx, unstranded_of_writable hw⟩
    · exact ⟨hx, hu⟩
  have hnow : ∀ x : Link × Buffer, x.1.con.channel.isSome → Unstranded x.1.con →
      (sendNow x).1.con.channel.isSome ∧ Unstranded (sendNow x).1.con := by
    intro x hx hu
    rw [sendNow]
    split
    · exact ⟨(sendBase_spec x.1 x.2.content).hasChannel.trans hx, unstranded_sendBase hu _⟩
    · exact ⟨hx, hu⟩
  rw [sendBuffer, if_pos hch]
  obtain ⟨hch1, hu1⟩ := habs (l.submit b.content, b) hch h
  obtain ⟨hch2, hu2⟩ := hnow _ hch1 hu1
  rw [absorbRest]
  split
  · dsimp only
    split
    · rename_i hw
      exact unstranded_of_writable hw
    · apply unstranded_of_writable
      apply writable_enableWrite
      exact hch2
  · exact hu2

/-- `Send(Buffer&)` behind a queue. -/
theorem sendBuffer_behind (h : Unstranded l.con) (hwf : l.con.output.WF)
    (hch : l.con.channel.isSome) {b : Buffer} (hb : b.WF) (hne : l.con.output.size ≠ 0) :
    (l.sendBuffer b).1.con.sock = l.con.sock ∧
      (l.sendBuffer b).1.con.output.content = l.con.output.content ++ b.content := by
  have hw : (l.submit b.content).con.writable = true := h hne
  have hc := Buffer.content_absorb (y := b) hwf
  have hsize : ((l.submit b.content).absorb b).2.size = 0 :=
    (Buffer.size_eq_zero_iff (Buffer.wf_absorb hwf hb).2).mpr hc.2
  have hsend : (l.sendBuffer b) = (l.submit b.content).absorb b := by
    rw [sendBuffer, if_pos hch, absorbWritable, if_pos hw, sendNow, if_neg (not_not.mpr hsize),
      absorbRest, if_neg (not_not.mpr hsize)]
  rw [hsend]
  exact ⟨rfl, hc.1⟩

end Link

/-! ### Each call -/

section Calls

variable {w w' : World} {i : ConnId} {s s' : SendCalls} {a : SendCall} {as : List SendCall}

theorem con_onLink_self (w : World) (i : ConnId) (f : Link → Link) :
    (w.onLink i f).con i = (f ⟨w.con i, w.base.poller⟩).con := Function.update_self ..

theorem con_onLink_of_ne (w : World) {i j : ConnId} (h : i ≠ j) (f : Link → Link) :
    (w.onLink j f).con i = w.con i := Function.update_of_ne h ..

/-- What all connections stand in between two calls, as far as `i` goes. -/
structure SendCalls.Inv (i : ConnId) (s : SendCalls) : Prop where
  sends : s.world.Sends
  hasChannel : (s.world.con i).channel.isSome
  unstranded : Unstranded (s.world.con i)

/-- A function of the sending side on any connection. -/
theorem unstranded_onLink (h : Unstranded (w.con i)) {j : ConnId} {f : Link → Link}
    (hf : j = i → Unstranded (f ⟨w.con i, w.base.poller⟩).con) :
    Unstranded ((w.onLink j f).con i) := by
  by_cases hj : j = i
  · subst hj
    rw [con_onLink_self]
    exact hf rfl
  · rw [con_onLink_of_ne w (Ne.symm hj)]
    exact h

theorem unstranded_unwatch (h : Unstranded (w.con i)) (j : ConnId) :
    Unstranded ((unwatch j w).con i) := by
  rw [unwatch]
  split
  · rename_i hempty
    apply unstranded_onLink h (f := fun l => l.enableWrite false)
    intro hj
    subst hj
    apply unstranded_of_empty
    rw [Link.enableWrite_eq]
    exact Nat.sub_eq_zero_of_le (Nat.le_of_eq (beq_iff_eq.mp hempty.1))
  · exact h

/-- **An operation of the caller.** -/
theorem unstranded_runOp (h : s.Inv i) (op : UserOp) :
    Unstranded ((s.world.runOp op).con i) ↔ KeepsWatch i s (.op op) := by
  obtain ⟨hsends, hch, hu⟩ := h
  have hwf := (hsends i).together.output_wf
  cases op with
  | send j buf =>
      rw [KeepsWatch, World.runOp]
      by_cases hj : j = i
      · subst hj
        rw [con_onLink_self, forall_prop_of_true rfl]
        exact Link.unstranded_send (l := ⟨s.world.con j, s.world.base.poller⟩) hu hwf hch
      · rw [con_onLink_of_ne _ (Ne.symm hj)]
        exact iff_of_true hu fun heq => absurd heq hj
  | sendBuffer j buf =>
      refine iff_of_true
        (unstranded_onLink hu (f := fun l => (l.sendBuffer buf.1).1) fun _ => ?_) trivial
      exact Link.unstranded_sendBuffer (l := ⟨s.world.con i, _⟩) hu hch buf.1
  | sendMsg j msg =>
      refine iff_of_true (unstranded_onLink hu (f := fun l => l.sendMsg msg) fun _ => ?_) trivial
      exact Link.unstranded_sendMsg (l := ⟨s.world.con i, _⟩) hu hch msg
  | sendOutput j =>
      refine iff_of_true (unstranded_onLink hu (f := fun l => l.sendOutput) fun _ => ?_) trivial
      exact Link.unstranded_sendOutput (l := ⟨s.world.con i, _⟩) hch
  | close j =>
      refine iff_of_true ?_ trivial
      rw [World.runOp]
      split <;> exact hu
  | addIdleCB j idle =>
      refine iff_of_true ?_ trivial
      rw [World.runOp]
      split
      · show Unstranded (Function.update s.world.con j _ i)
        by_cases hj : j = i
        · subst hj
          rw [Function.update_self]
          exact hu
        · rw [Function.update_of_ne (Ne.symm hj)]
          exact hu
      · exact hu

/-- **One call.**  It strands bytes exactly if it is a `Send(const char*, size_t)`
that meets a failure for good. -/
theorem unstranded_step (hstep : sendCallStep s a = some s') (h : s.Inv i) :
    Unstranded (s'.world.con i) ↔ KeepsWatch i s a := by
  cases a with
  | op op =>
      obtain rfl := Option.some.inj hstep
      exact unstranded_runOp h op
  | handleWrite j =>
      refine iff_of_true ?_ trivial
      have hflush := unstranded_onLink h.unstranded (j := j) (f := fun l => l.flush)
        fun _ => Link.unstranded_flush (l := ⟨s.world.con i, _⟩) h.unstranded
      simp only [sendCallStep] at hstep
      split at hstep
      · split at hstep
        · obtain rfl := Option.some.inj hstep
          exact hflush
        · obtain rfl := Option.some.inj hstep
          exact unstranded_unwatch hflush j
      · cases hstep
  | ret =>
      refine iff_of_true ?_ trivial
      rw [sendCallStep] at hstep
      split at hstep
      · cases hstep
      · rename_i j rest hcb
        obtain rfl := Option.some.inj hstep
        exact unstranded_unwatch h.unstranded j

/-- A call leaves the sending sides in order, and the channel there. -/
theorem quiet_sendCallStep (hstep : sendCallStep s a = some s') (h : s.world.Sends) :
    s'.world.Sends ∧ s.world.Quiet s'.world := by
  cases a with
  | op op =>
      obtain rfl := Option.some.inj hstep
      exact ⟨h.runOp op, World.quiet_runOp s.world op⟩
  | handleWrite j =>
      have hquiet := World.quiet_onLink s.world j (·.flush) fun l => l.quiet_flush
      simp only [sendCallStep] at hstep
      split at hstep
      · split at hstep
        · obtain rfl := Option.some.inj hstep
          exact ⟨h.flush j, hquiet⟩
        · obtain rfl := Option.some.inj hstep
          exact ⟨(h.flush j).unwatch j, hquiet.trans (quiet_unwatch j _)⟩
      · cases hstep
  | ret =>
      rw [sendCallStep] at hstep
      split at hstep
      · cases hstep
      · rename_i j rest hcb
        obtain rfl := Option.some.inj hstep
        exact ⟨h.unwatch j, quiet_unwatch j s.world⟩

/-- A call that strands nothing keeps the invariant. -/
theorem SendCalls.Inv.step (h : s.Inv i) (hstep : sendCallStep s a = some s')
    (hu : Unstranded (s'.world.con i)) : s'.Inv i := by
  obtain ⟨hsends, hquiet⟩ := quiet_sendCallStep hstep h.sends
  exact ⟨hsends, (hquiet.hasChannel i).trans h.hasChannel, hu⟩

theorem inOrder_step (hstep : sendCallStep s a = some s') (h : s.Inv i) : InOrder i s a s' := by
  rintro buf rfl hne
  obtain rfl := Option.some.inj hstep
  show ((s.world.onLink i fun l => (l.sendBuffer buf.1).1).con i).sock = _ ∧
    ((s.world.onLink i fun l => (l.sendBuffer buf.1).1).con i).output.content = _
  rw [con_onLink_self]
  exact Link.sendBuffer_behind (l := ⟨s.world.con i, _⟩) h.unstranded
    (h.sends i).together.output_wf h.hasChannel buf.2 hne

/-- **Unsent data has somebody to send it**, after every call of a run on a
connected connection, exactly if no `Send(const char*, size_t)` of the run, called
without write interest, meets a `::send` that fails for good before all its bytes
are taken. -/
theorem unstranded_iff {app : App} {wakeupFd listenFd : Int} {bs : List Input}
    (hrun : Exec.exec (worldStep app) (World.init wakeupFd listenFd) bs = some w)
    (hconn : (w.con i).state = .connected) (hstart : Unstranded (w.con i)) :
    Exec.Along sendCallStep
        (fun s a s' => Unstranded (s'.world.con i) ∧ InOrder i s a s') ⟨w, []⟩ as ↔
      Exec.Along sendCallStep (fun s a _ => KeepsWatch i s a) ⟨w, []⟩ as := by
  have hinv : SendCalls.Inv i ⟨w, []⟩ :=
    ⟨(sends_rule app).exec hrun (sends_init wakeupFd listenFd),
      channel_of_connected (good_of_exec hrun (good_init wakeupFd listenFd)) hconn, hstart⟩
  apply Exec.along_iff (I := SendCalls.Inv i) ?_ ?_ hinv
  · intro s a s' ht hg hi
    exact hi.step ht hg.1
  · intro s a s' ht hi
    rw [and_iff_left (inOrder_step ht hi)]
    exact unstranded_step ht hi

/-- A connection that is connected after its first read event. -/
def connectedWorld (sends : List SendResult) : World :=
  ((Exec.exec (worldStep heartbeatTest) (World.init 4 5)
    [.accept 6 [.wouldBlock] sends [1], .readable 0]).get rfl)

theorem exec_connectedWorld (sends : List SendResult) :
    Exec.exec (worldStep heartbeatTest) (World.init 4 5)
      [.accept 6 [.wouldBlock] sends [1], .readable 0] = some (connectedWorld sends) :=
  (Option.some_get rfl).symm

/-- Two bytes of which the socket takes one at once. -/
theorem unstranded_two :
    Exec.Along sendCallStep
      (fun s a s' => Unstranded (s'.world.con 0) ∧ InOrder 0 s a s')
      ⟨connectedWorld [.accept 0, .wouldBlock, .error], []⟩
      [.op (.send 0 [7, 8]), .op (.sendMsg 0 [9]), .handleWrite 0] :=
  (unstranded_iff (exec_connectedWorld _) (by decide +kernel) (by decide +kernel)).mpr
    (by decide +kernel)

/-- A `Send(const char*, size_t)` whose `::send` fails for good queues its byte, and
nobody sends it. -/
theorem stranded_send :
    Exec.exec (worldStep heartbeatTest) (World.init 4 5)
        [.accept 6 [.wouldBlock] [.error] [1], .readable 0] = some (connectedWorld [.error]) ∧
      ((connectedWorld [.error]).con 0).state = .connected ∧
      Unstranded ((connectedWorld [.error]).con 0) ∧
      ¬Exec.Along sendCallStep
        (fun s a s' => Unstranded (s'.world.con 0) ∧ InOrder 0 s a s')
        ⟨connectedWorld [.error], []⟩ [.op (.send 0 [7])] := by
  refine ⟨exec_connectedWorld _, by decide +kernel, by decide +kernel, ?_⟩
  intro h
  exact absurd (h _ rfl).1.1 (by decide +kernel)

end Calls

end Libet
