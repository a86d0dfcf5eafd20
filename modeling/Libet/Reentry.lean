/-
Libet/Reentry.lean

`HandleRead` solves the recursion of the source.

`Channel::Close` calls `HandleRead` of the connection whose read callback it is
called from.  By then the descriptor is closed (`World.Shut`), so the inner call
cannot come to a `Channel::Close` that does anything, and it does not matter
what it would call (`handleReadWith_of_shut`).  This is why `handleRead`, which
ties the knot at depth two, is the function that calls itself
(`handleRead_unfold`).
-/
import Libet.TcpConn

namespace Libet

variable {app : App} {hr hr' : World → World} {i : ConnId} {w w' : World}

/-! ### Connections whose descriptor is closed -/

/-- Connection `i` has no channel, or its descriptor is closed. -/
def World.Shut (w : World) (i : ConnId) : Prop := (w.con i).fd = SOCKET_ERROR

namespace World.Shut

theorem fd_eq (h : w.Shut i) {ch : Channel} (hch : (w.con i).channel = some ch) :
    ch.fd = SOCKET_ERROR := by
  rw [Shut, TcpConn.fd, hch] at h
  exact h

theorem congr (h : w.Shut i) (hch : (w'.con i).peer.channel = (w.con i).peer.channel) :
    w'.Shut i := by
  rw [Shut, TcpConn.fd]
  cases hc : (w'.con i).channel with
  | none => rfl
  | some ch =>
      simp only [TcpConn.peer, hc, Option.map_some] at hch
      -- the channel is the old one, and its descriptor was shut
      obtain ⟨ch', hc', heq⟩ := Option.map_eq_some_iff.mp hch.symm
      have hopen := congrArg Prod.snd heq
      simp only [h.fd_eq hc', ne_eq, not_true_eq_false, decide_false] at hopen
      simpa using hopen.symm

theorem quiet (h : w.Shut i) (hq : w.Quiet w') : w'.Shut i :=
  h.congr (congrArg Peer.channel (congrFun (congrArg Hub.peer hq.hub) i))

theorem log (h : w.Shut i) (e : Event) : (w.log e).Shut i := h

theorem set (h : w.Shut i) {c : TcpConn} (hch : c.channel = (w.con i).channel) :
    (w.set i c).Shut i :=
  h.congr (by simp only [World.set, Function.update_self, TcpConn.peer, hch])

theorem setState (h : w.Shut i) (s : ConnState) : (w.setState i s).Shut i := by
  rw [World.setState]
  split
  · exact h
  · exact (h.set (c := { w.con i with state := s }) rfl).log _

theorem callState (h : w.Shut i) : (callState app i w).Shut i := by
  rw [Libet.callState]
  split
  · exact (h.log _).quiet (World.quiet_runOps _ _)
  · exact h

theorem unregisterIdles (h : w.Shut i) : (unregisterIdles i w).Shut i := h

theorem removeConn (h : w.Shut i) : (removeConn i w).Shut i := by
  rw [Libet.removeConn]
  split <;> exact h

theorem callMsg (h : w.Shut i) (ret : Int) (msg : Slice) :
    (callMsg app i ret msg w).Shut i :=
  ((h.log _).quiet (World.quiet_runOps _ _)).set rfl

end World.Shut

/-! ### The functions on them -/

theorem channelClose_of_shut (h : w.Shut i) : channelClose hr i w = w := by
  rw [channelClose]
  split
  · rfl
  · rename_i ch hch
    exact if_neg (not_not_intro (h.fd_eq hch))

/-- The loop of `OnMsg` closes nothing. -/
theorem onMsg_of_shut (h : w.Shut i) :
    onMsg app i (channelClose hr i) w = onMsg app i id w := by
  induction w using onMsg.induct app i with
  | case1 w r hneg =>
      rw [onMsg, if_pos hneg, onMsg, if_pos hneg, channelClose_of_shut (h.log _)]
      rfl
  | case2 w r hneg hpos ih =>
      rw [onMsg.eq_def app i id w, if_neg hneg, dif_pos hpos,
        onMsg.eq_def app i (channelClose hr i) w, if_neg hneg, dif_pos hpos]
      exact ih (h.callMsg _ _)
  | case3 w r hneg hpos => rw [onMsg, if_neg hneg, dif_neg hpos, onMsg, if_neg hneg, dif_neg hpos]

theorem shut_onMsg (h : w.Shut i) : (onMsg app i id w).Shut i := by
  induction w using onMsg.induct app i with
  | case1 w r hneg =>
      rw [onMsg, if_pos hneg]
      exact h.log _
  | case2 w r hneg hpos ih =>
      rw [onMsg, if_neg hneg, dif_pos hpos]
      exact ih (h.callMsg _ _)
  | case3 w r hneg hpos =>
      rw [onMsg, if_neg hneg, dif_neg hpos]
      exact h

theorem callRead_of_shut (h : w.Shut i) :
    callRead app i (channelClose hr i) w = callRead app i id w := by
  simp only [callRead]
  split
  · rfl
  · split
    · rfl
    · rfl
    · exact onMsg_of_shut (h.log _)

theorem shut_callRead (h : w.Shut i) : (callRead app i id w).Shut i := by
  rw [callRead]
  split
  · exact h
  · split
    · exact h
    · exact (h.log _).quiet (World.quiet_runOps _ _)
    · exact shut_onMsg (h.log _)

theorem deleteChannel_of_shut (h : w.Shut i) : deleteChannel hr i w = deleteChannel id i w := by
  unfold deleteChannel
  dsimp only
  split
  · rfl
  · rename_i ch hch
    have hfd : ¬ ch.fd ≠ SOCKET_ERROR := not_not_intro (h.fd_eq hch)
    rw [destroyChannel, destroyChannel, if_neg hfd, if_neg hfd]

theorem tearDown_of_shut (h : w.Shut i) : tearDown app hr i w = tearDown app id i w := by
  unfold tearDown
  dsimp only
  rw [deleteChannel_of_shut (h.setState _).callState.unregisterIdles.removeConn]

theorem cleanup_of_shut (h : w.Shut i) : cleanup app hr i w = cleanup app id i w := by
  rw [cleanup, callRead_of_shut h, tearDown_of_shut (shut_callRead h), cleanup,
    callRead_of_shut h]

/-- Neither a handshake nor a read gets anything from a closed descriptor. -/
theorem handleHandshake_of_shut (h : w.Shut i) :
    handleHandshake app hr i w = (-1, (handleHandshake app id i w).2) := by
  have hneg : ¬ ((w.con i).sock.select (w.con i).fd).1 = 1 := by
    rw [Socket.select, if_pos (show (w.con i).fd = SOCKET_ERROR from h)]
    simp
  have hset : (w.set i { w.con i with
      sock := ((w.con i).sock.select (w.con i).fd).2 }).Shut i := h.set rfl
  unfold handleHandshake
  split
  · rfl
  · dsimp only
    rw [if_neg hneg, if_neg hneg, cleanup_of_shut hset]

theorem readLoop_of_shut (h : w.Shut i) (script : List RecvResult) :
    readLoop app hr i script w = readLoop app id i script w := by
  have hroom : (makeRoomInput i w).Shut i := h.set rfl
  by_cases hs : (w.con i).state = .connected
  · -- `recv` fails at once, in both loops
    rw [readLoop_shut hs hroom, readLoop_shut hs hroom]
    exact cleanup_of_shut hroom
  · rw [readLoop_of_ne hs, readLoop_of_ne hs]

/-- On a closed descriptor it does not matter what `Channel::Close` would call. -/
theorem handleReadWith_of_shut (h : w.Shut i) :
    handleReadWith app hr i w = handleReadWith app id i w := by
  unfold handleReadWith
  dsimp only
  by_cases hs : (w.con i).state = .handshaking
  · rw [if_pos hs, if_pos hs, handleHandshake_of_shut h, @handleHandshake_of_shut app id i w h]
    rfl
  · rw [if_neg hs, if_neg hs]
    exact readLoop_of_shut h _

/-! ### `Channel::Close` calls `HandleRead` on a closed descriptor only -/

section Congr

variable (h : ∀ w : World, w.Shut i → hr w = hr' w)

include h

theorem channelClose_congr : channelClose hr i = channelClose hr' i := by
  funext w
  simp only [channelClose]
  split
  · rfl
  · split
    · -- `Close` shuts the descriptor before it calls `HandleRead`
      exact h _ (by simp [World.Shut, shutChannel, World.set, TcpConn.fd])
    · rfl

theorem deleteChannel_congr : deleteChannel hr i = deleteChannel hr' i := by
  funext w
  unfold deleteChannel
  dsimp only
  split
  · rfl
  · rename_i ch hch
    simp only [destroyChannel]
    -- `m_channel` is null by the time the destructor closes
    rw [h _ (by simp [World.Shut, removeChannel, World.set, TcpConn.fd])]

theorem cleanup_congr : cleanup app hr i = cleanup app hr' i := by
  funext w
  rw [cleanup, cleanup, channelClose_congr h, tearDown, tearDown, deleteChannel_congr h]

theorem readLoop_congr (script : List RecvResult) (w : World) :
    readLoop app hr i script w = readLoop app hr' i script w := by
  induction script, w using readLoop.induct i with
  | case1 script w hs => rw [readLoop_of_ne hs, readLoop_of_ne hs]
  | case2 script w hs w' hfd =>
      have hs := not_not.mp hs
      rw [readLoop_shut hs hfd, readLoop_shut hs hfd, cleanup_congr h]
  | case3 script w hs w' hfd rest hrecv =>
      have hs := not_not.mp hs
      rw [readLoop_wouldBlock hs hfd hrecv, readLoop_wouldBlock hs hfd hrecv,
        channelClose_congr h]
  | case4 script w hs w' hfd b bs rest hrecv ih =>
      have hs := not_not.mp hs
      rw [readLoop_data hs hfd hrecv, readLoop_data hs hfd hrecv]
      exact ih
  | case5 script w hs w' hfd r rest hblock hdata hrecv =>
      have hs := not_not.mp hs
      rw [readLoop_stop hs hfd hrecv hblock hdata, readLoop_stop hs hfd hrecv hblock hdata,
        cleanup_congr h]

theorem handleReadWith_congr : handleReadWith app hr i = handleReadWith app hr' i := by
  funext w
  have hshake : handleHandshake app hr i = handleHandshake app hr' i := by
    funext w
    rw [handleHandshake, handleHandshake, cleanup_congr h]
  simp only [handleReadWith, hshake, readLoop_congr h]

end Congr

/-- **`handleRead` is the function that calls itself.** -/
theorem handleRead_unfold (app : App) (i : ConnId) :
    handleRead app i = handleReadWith app (handleRead app i) i :=
  handleReadWith_congr fun _ h => (handleReadWith_of_shut h).symm

/-- **`HandleRead` is re-entered at most once.**  In every world, and whatever the
callbacks do, the `HandleRead` that `Channel::Close` calls from inside does not come to
call one more, so it makes no difference what that would do; and `handleRead` is the
only function that solves the recursion of the source. -/
theorem handleRead_depth (app : App) (i : ConnId) :
    (∀ hr, handleReadWith app (handleReadWith app hr i) i = handleRead app i) ∧
      ∀ hr, hr = handleReadWith app hr i ↔ hr = handleRead app i := by
  have hdepth : ∀ hr, handleReadWith app (handleReadWith app hr i) i = handleRead app i :=
    fun hr => handleReadWith_congr fun _ h => handleReadWith_of_shut h
  refine ⟨hdepth, fun hr => ⟨fun hsolves => ?_, fun heq => ?_⟩⟩
  · calc hr = handleReadWith app hr i := hsolves
      _ = handleReadWith app (handleReadWith app hr i) i :=
          congrArg (fun hr => handleReadWith app hr i) hsolves
      _ = handleRead app i := hdepth hr
  · rw [heq]
    exact handleRead_unfold app i

end Libet
