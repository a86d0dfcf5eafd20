/-
Libet/SendInv.lean

The invariant of the sending side.

What the socket has accepted followed by `m_output` is what was submitted
(`Together`), and a non-empty `m_output` means write interest (`Watched`).  The
second part makes the shortcuts of the three send paths sound: bytes may pass
`m_output` only when it is empty, and it is empty when nobody waits for the
socket.  `Together` carries the bytes a call still holds, so that it speaks
about the middle of a call too.
-/
import Libet.Send

namespace Libet

/-! ### Stream integrity -/

/-- The bytes of the sending side are together: what was accepted, what queues,
and what the current call still holds (`rest`) is what was submitted.  Nothing
is said once a `::send` has failed or the channel is gone. -/
structure Together (c : TcpConn) (rest : List UInt8) : Prop where
  output_wf : c.output.WF
  stream : c.channel.isSome → c.sock.sendFailed = false →
    c.sock.accepted ++ c.output.content ++ rest = c.submitted

/-- A queue means write interest. -/
def Watched (c : TcpConn) : Prop :=
  c.channel.isSome → c.sock.sendFailed = false → c.output.content ≠ [] →
    c.writable = true

/-- The invariant of the sending side between two calls. -/
structure SendInv (c : TcpConn) : Prop where
  together : Together c []
  watched : Watched c

/-- What `SendBase` does with `buf`: it sends `n` bytes, and stops early only
with write interest on or after a failure. -/
structure SendsPrefix (l : Link) (buf : List UInt8) (n : Nat) (l' : Link) : Prop where
  le : n ≤ buf.length
  accepted : l'.con.sock.accepted = l.con.sock.accepted ++ buf.take n
  output : l'.con.output = l.con.output
  submitted : l'.con.submitted = l.con.submitted
  hasChannel : l'.con.channel.isSome = l.con.channel.isSome
  failed : l.con.sock.sendFailed = true → l'.con.sock.sendFailed = true
  writable : l.con.writable = true → l'.con.writable = true
  early : n < buf.length → l'.con.sock.sendFailed = false → l'.con.writable = true

theorem SendsPrefix.before {l l' : Link} {buf : List UInt8} {n : Nat}
    (h : SendsPrefix l buf n l') (hch : l'.con.channel.isSome)
    (hf : l'.con.sock.sendFailed = false) :
    l.con.channel.isSome ∧ l.con.sock.sendFailed = false := by
  refine ⟨by rw [← h.hasChannel]; exact hch, ?_⟩
  cases hl : l.con.sock.sendFailed with
  | false => rfl
  | true => exact (h.failed hl).symm.trans hf

namespace Link

variable {l : Link}

theorem enableWrite_eq (l : Link) (enable : Bool) :
    (l.enableWrite enable).con =
      { l.con with channel := l.con.channel.map fun ch => { ch with writable := enable } } := by
  rw [enableWrite]
  split
  · rename_i h
    rw [h, Option.map_none, ← h]
  · rename_i h
    rw [h, Option.map_some]

theorem submitted_enableWrite (l : Link) (enable : Bool) :
    (l.enableWrite enable).con.submitted = l.con.submitted := by
  rw [enableWrite_eq]

theorem submitted_watchRest (l : Link) : l.watchRest.con.submitted = l.con.submitted := by
  rw [watchRest]
  split
  · exact l.submitted_enableWrite true
  · rfl

theorem writable_enableWrite (h : l.con.channel.isSome) (enable : Bool) :
    (l.enableWrite enable).con.writable = enable := by
  obtain ⟨ch, hch⟩ := Option.isSome_iff_exists.mp h
  simp [enableWrite_eq, TcpConn.writable, hch]

theorem isSome_of_fd {c : TcpConn} (h : c.fd ≠ SOCKET_ERROR) : c.channel.isSome := by
  cases hc : c.channel with
  | none => simp [TcpConn.fd, hc] at h
  | some ch => rfl

theorem sendBase_spec (l : Link) (buf : List UInt8) :
    SendsPrefix l buf (l.sendBase buf).1 (l.sendBase buf).2 := by
  -- nothing left; a partial send; `WSAEWOULDBLOCK`; a failure
  refine sendBase_rule ?_ ?_ ?_ ?_ l buf
  · intro l
    exact ⟨Nat.le_refl _, by simp, rfl, rfl, rfl, id, id, fun h => absurd h (by simp)⟩
  · intro l buf n s r h ih
    obtain ⟨h0, hn, hpos, hacc, hfail⟩ := Socket.send_sent h
    have hle := (toInt32_le hpos).1
    have hr := ih.le
    rw [List.length_drop] at hr
    refine ⟨by omega, ?_, ih.output, ih.submitted, ih.hasChannel, ?_, ih.writable, ?_⟩
    · rw [ih.accepted, hacc, List.append_assoc, List.take_add]
    · intro hf
      exact ih.failed (hfail.trans hf)
    · intro hlt
      exact ih.early (by rw [List.length_drop]; omega)
  · intro l buf s h
    obtain ⟨hacc, hfail, hfd⟩ := Socket.send_wouldBlock h
    split
    · rename_i hw
      exact ⟨Nat.zero_le _, by simp [hacc], rfl, rfl, rfl, fun hf => hfail.trans hf, id,
        fun _ _ => hw⟩
    · have hw := writable_enableWrite
        (l := { l with con := { l.con with sock := s } }) (isSome_of_fd hfd) true
      refine ⟨Nat.zero_le _, ?_, ?_, ?_, ?_, ?_, fun _ => hw, fun _ _ => hw⟩
      · simp [enableWrite_eq, hacc]
      · rw [enableWrite_eq]
      · rw [enableWrite_eq]
      · simp [enableWrite_eq]
      · rw [enableWrite_eq]
        exact fun hf => hfail.trans hf
  · intro l buf s h
    obtain ⟨hacc, hfail⟩ := Socket.send_error h
    exact ⟨Nat.zero_le _, by simp [hacc], rfl, rfl, rfl, fun _ => hfail, id,
      fun _ hf => absurd (hfail.symm.trans hf) (by simp)⟩

/-! ### Each function keeps the invariant -/

variable {rest buf : List UInt8}

/-- Write interest can be switched on at any time. -/
theorem sendInv_enableWrite (h : Together l.con []) :
    SendInv (l.enableWrite true).con := by
  refine ⟨⟨?_, ?_⟩, ?_⟩
  · rw [enableWrite_eq]; exact h.output_wf
  · simpa [enableWrite_eq] using h.stream
  · intro hch _ _
    have hch' : l.con.channel.isSome := by simpa [enableWrite_eq] using hch
    exact writable_enableWrite hch' true

/-- Without a queue it can be switched off. -/
theorem sendInv_disableWrite (h : Together l.con []) (hempty : l.con.output.content = []) :
    SendInv (l.enableWrite false).con := by
  refine ⟨⟨?_, ?_⟩, ?_⟩
  · rw [enableWrite_eq]; exact h.output_wf
  · simpa [enableWrite_eq] using h.stream
  · intro _ _ hne
    rw [enableWrite_eq] at hne
    exact absurd hempty hne

theorem together_submit (h : Together l.con []) (buf : List UInt8) :
    Together (l.submit buf).con buf where
  output_wf := h.output_wf
  stream hch hf := by
    rw [submit, ← h.stream hch hf, List.append_nil]

/-- Sending past an empty queue. -/
theorem together_sendBase (h : Together l.con buf)
    (hempty : l.con.channel.isSome → l.con.sock.sendFailed = false →
      l.con.output.content = []) :
    Together (l.sendBase buf).2.con (buf.drop (l.sendBase buf).1) := by
  have hs := sendBase_spec l buf
  refine ⟨by rw [hs.output]; exact h.output_wf, fun hch hf => ?_⟩
  -- both guards held before the call, so the queue was empty then
  obtain ⟨hch, hf⟩ := hs.before hch hf
  rw [hs.accepted, hs.output, hs.submitted, ← h.stream hch hf, hempty hch hf,
    List.append_nil, List.append_nil, List.append_assoc, List.take_append_drop]

/-- What is left over when `SendBase` stops waits with write interest. -/
theorem writable_of_rest (hne : buf.drop (l.sendBase buf).1 ≠ [])
    (hf : (l.sendBase buf).2.con.sock.sendFailed = false) :
    (l.sendBase buf).2.con.writable = true := by
  refine (sendBase_spec l buf).early ?_ hf
  by_contra hlen
  exact hne (List.drop_eq_nil_of_le (Nat.le_of_not_lt hlen))

/-- The rest goes behind the queue. -/
theorem together_queue (h : Together l.con rest) {output : Buffer} (hwf : output.WF)
    (hc : output.content = l.con.output.content ++ rest) :
    Together { l.con with output := output } [] where
  output_wf := hwf
  stream hch hf := by
    rw [List.append_nil, hc, ← List.append_assoc]
    exact h.stream hch hf

theorem together_append (h : Together l.con rest) :
    Together { l.con with output := l.con.output.append rest } [] :=
  together_queue h (Buffer.wf_append h.output_wf rest) (Buffer.content_append h.output_wf rest)

/-- `Send(const char*, size_t)` keeps the invariant. -/
theorem sendInv_send (h : SendInv l.con) (buf : List UInt8) : SendInv (l.send buf).con := by
  rw [send]
  split
  · have hsub := together_submit h.together buf
    dsimp only
    split
    · -- nothing queues: the bytes go out, and what is left has write interest
      rename_i hempty
      have hempty := (Buffer.empty_iff h.together.output_wf).mp hempty
      have hsent := together_sendBase hsub fun _ _ => hempty
      rw [appendRest]
      dsimp only
      split
      · rename_i hrest
        rw [hrest] at hsent
        refine ⟨hsent, fun _ _ hne => ?_⟩
        rw [(sendBase_spec _ buf).output] at hne
        exact absurd hempty hne
      · rename_i hrest
        exact ⟨together_append hsent, fun _ hf _ => writable_of_rest hrest hf⟩
    · -- the queue has write interest already
      rename_i hempty
      have hne : l.con.output.content ≠ [] := fun e =>
        hempty ((Buffer.empty_iff h.together.output_wf).mpr e)
      rw [appendRest]
      dsimp only
      split
      · rename_i hrest
        rw [List.drop_zero] at hrest
        subst hrest
        exact ⟨hsub, h.watched⟩
      · refine ⟨together_append hsub, fun hch hf _ => h.watched hch hf hne⟩
  · exact h

/-- Sending the queue itself. -/
theorem sendInv_flush (h : Together l.con []) : SendInv l.flush.con := by
  have hs := sendBase_spec l l.con.output.content
  have hlen : (l.sendBase l.con.output.content).1 ≤ l.con.output.size := by
    rw [← Buffer.content_length h.output_wf]; exact hs.le
  refine ⟨⟨?_, fun hch hf => ?_⟩, fun hch hf hne => ?_⟩
  · rw [flush, hs.output]
    exact Buffer.wf_consume h.output_wf hlen
  · obtain ⟨hch, hf⟩ := hs.before hch hf
    rw [flush, hs.accepted, hs.output, hs.submitted, ← h.stream hch hf,
      Buffer.content_consume, List.append_nil, List.append_nil, List.append_assoc,
      List.take_append_drop]
  · -- a queue that is left over stopped the call early
    rw [flush, hs.output, Buffer.content_consume] at hne
    exact writable_of_rest hne hf

theorem sendInv_watchRest (h : SendInv l.con) : SendInv l.watchRest.con := by
  rw [watchRest]
  split
  · exact sendInv_enableWrite h.together
  · exact h

/-- `SendOutput` establishes the invariant from any queue. -/
theorem sendInv_sendOutput (h : Together l.con [])
    (hw : l.con.channel = none → Watched l.con) : SendInv l.sendOutput.con := by
  rw [sendOutput]
  split
  · apply sendInv_watchRest
    split
    · exact sendInv_flush h
    · rename_i hsize
      refine ⟨h, fun _ _ hne => ?_⟩
      exact absurd ((Buffer.size_eq_zero_iff h.output_wf).mp (Decidable.not_not.mp hsize)) hne
  · rename_i hch
    exact ⟨h, hw (by simpa using hch)⟩

/-- `SendMsg` keeps the invariant, with the frame as the submitted bytes. -/
theorem sendInv_sendMsg (h : SendInv l.con) (msg : List UInt8) :
    SendInv (l.sendMsg msg).con := by
  rw [sendMsg]
  split
  · have hwf := wf_encode h.together.output_wf msg
    split
    · rename_i hch
      -- the frame joins the queue first, and `SendOutput` sends the queue
      refine sendInv_sendOutput (together_queue (together_submit h.together (frame msg))
        hwf (content_encode h.together.output_wf msg)) fun hnone => ?_
      have hnone : l.con.channel = none := hnone
      rw [hnone] at hch
      cases hch
    · rename_i hch
      exact sendInv_sendOutput ⟨hwf, fun hch' => absurd hch' hch⟩
        fun _ hch' => absurd hch' hch
  · exact h

/-- What the parts of `Send(Buffer&)` keep: the caller's buffer is the rest. -/
structure BufferInv (x : Link × Buffer) : Prop where
  buf_wf : x.2.WF
  together : Together x.1.con x.2.content
  watched : Watched x.1.con

variable {x : Link × Buffer}

theorem together_absorb (h : BufferInv x) :
    Together (x.1.absorb x.2).1.con [] ∧ (x.1.absorb x.2).2.WF ∧
      (x.1.absorb x.2).2.content = [] := by
  have hwf := Buffer.wf_absorb h.together.output_wf h.buf_wf
  have hc := Buffer.content_absorb (y := x.2) h.together.output_wf
  exact ⟨together_queue h.together hwf.1 hc.1, hwf.2, hc.2⟩

theorem bufferInv_absorb (h : BufferInv x) (hw : x.1.con.writable = true) :
    BufferInv (x.1.absorb x.2) := by
  obtain ⟨ht, hwf, hc⟩ := together_absorb h
  exact ⟨hwf, by rw [hc]; exact ht, fun _ _ _ => hw⟩

/-- Behind write interest everything is absorbed; otherwise nothing queues. -/
theorem bufferInv_absorbWritable (h : BufferInv x) :
    BufferInv (absorbWritable x) ∧
      ((absorbWritable x).2.content = [] ∨ (absorbWritable x).1.con.writable = false) := by
  rw [absorbWritable]
  split
  · rename_i hw
    exact ⟨bufferInv_absorb h hw, Or.inl (together_absorb h).2.2⟩
  · rename_i hw
    exact ⟨h, Or.inr (Bool.eq_false_iff.mpr hw)⟩

theorem bufferInv_sendNow (h : BufferInv x)
    (hq : x.2.content = [] ∨ x.1.con.writable = false) : BufferInv (sendNow x) := by
  rw [sendNow]
  split
  · rename_i hsize
    have hne : x.2.content ≠ [] := fun e => hsize ((Buffer.size_eq_zero_iff h.buf_wf).mpr e)
    have hw := hq.resolve_left hne
    have hs := sendBase_spec x.1 x.2.content
    have hlen : (x.1.sendBase x.2.content).1 ≤ x.2.size := by
      rw [← Buffer.content_length h.buf_wf]; exact hs.le
    -- without write interest nothing queues
    have hempty : x.1.con.channel.isSome → x.1.con.sock.sendFailed = false →
        x.1.con.output.content = [] := fun hch hf => by
      by_contra hout
      rw [h.watched hch hf hout] at hw
      cases hw
    refine ⟨Buffer.wf_consume h.buf_wf hlen, ?_, fun hch hf hout => ?_⟩
    · rw [Buffer.content_consume]
      exact together_sendBase h.together hempty
    · obtain ⟨hch, hf⟩ := hs.before hch hf
      rw [hs.output, hempty hch hf] at hout
      exact absurd rfl hout
  · exact h

theorem bufferInv_absorbRest (h : BufferInv x) :
    SendInv (absorbRest x).1.con ∧ (absorbRest x).2.content = [] := by
  rw [absorbRest]
  split
  · -- the socket would not take the rest: it queues, with write interest
    obtain ⟨ht, -, hc⟩ := together_absorb h
    refine ⟨?_, hc⟩
    dsimp only
    split
    · rename_i hw
      exact ⟨ht, fun _ _ _ => hw⟩
    · exact sendInv_enableWrite ht
  · rename_i hsize
    have hnil := (Buffer.size_eq_zero_iff h.buf_wf).mp (Decidable.not_not.mp hsize)
    refine ⟨⟨?_, h.watched⟩, hnil⟩
    rw [← hnil]
    exact h.together

/-- `Send(Buffer&)` keeps the invariant and, on a connection with a channel,
leaves the caller's buffer empty. -/
theorem sendInv_sendBuffer (h : SendInv l.con) {b : Buffer} (hb : b.WF) :
    SendInv (l.sendBuffer b).1.con ∧
      (l.con.channel.isSome → (l.sendBuffer b).2.content = []) := by
  rw [sendBuffer]
  split
  · have hsub : BufferInv (l.submit b.content, b) :=
      ⟨hb, together_submit h.together b.content, h.watched⟩
    obtain ⟨habs, hq⟩ := bufferInv_absorbWritable hsub
    have hrest := bufferInv_absorbRest (bufferInv_sendNow habs hq)
    exact ⟨hrest.1, fun _ => hrest.2⟩
  · rename_i hch
    exact ⟨h, fun hch' => absurd hch' hch⟩

end Link

end Libet
