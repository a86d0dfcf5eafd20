/-
Libet/RoundTrip.lean

`Encode` and the loop of `OnMsg` agree.

Frames that `Encode` has appended one behind the other are cut apart again by
one run of the loop (`decodeLoop_frames`), and by `Reading` it does not matter
in which pieces they arrive.  Two bounds of the decoder are not the encoder's:
a frame of more than `2^20` bytes is an error, and a frame that ends with its
header is not looked at while nothing follows it, so an empty message must not
be the last one.

Main result: `roundTrip_of_run`.
-/
import Libet.Reassembly

namespace Libet

variable {p : Platform}

/-! ### Encoding a list of messages -/

/-- `Encode` called for each of the messages. -/
def encodeAll (ms : List (List UInt8)) (buf : Buffer) : Buffer :=
  ms.foldl (fun buf m => encode m buf) buf

theorem content_encodeAll (ms : List (List UInt8)) {buf : Buffer} (h : buf.WF) :
    (encodeAll ms buf).content = buf.content ++ ms.flatMap frame := by
  induction ms generalizing buf with
  | nil => exact (List.append_nil _).symm
  | cons m ms ih =>
      rw [encodeAll, List.foldl_cons, ← encodeAll, ih (wf_encode h m), content_encode h,
        List.flatMap_cons, List.append_assoc]

/-! ### Decoding them -/

/-- Where the messages of a list lie in the stream of their frames, which
starts at offset `off`. -/
def layout (off : Nat) : List (List UInt8) → List (Nat × Slice)
  | [] => []
  | m :: ms => (off, ⟨4, m.length⟩) :: layout (off + (4 + m.length)) ms

/-- A frame in range is accepted as soon as a byte follows its header. -/
theorem lengthParse_frame {m : List UInt8} (hlen : 4 + m.length ≤ 2 ^ 20) {x : List UInt8}
    (hx : m ++ x ≠ []) : lengthParse p (frame m ++ x) = .item (4 + m.length) ⟨4, m.length⟩ := by
  have hn : ntohl (frame m ++ x) = 4 + m.length := ntohl_frame (by omega) x
  have hl : (frame m ++ x).length = 4 + (m ++ x).length := by simp [Nat.add_assoc]
  have hpos := List.length_pos_iff.mpr hx
  have hfit : tryDecode p (frame m ++ x) Slice.empty = _ :=
    tryDecode_fit (by omega) (by rw [hn]; exact hlen)
      (by rw [hn, hl, List.length_append]; omega)
  have hsize : toSize p (((4 + m.length : Nat) : Int) - 4) = m.length := by
    rw [show ((4 + m.length : Nat) : Int) - 4 = (m.length : Int) by omega]
    exact toSize_natCast p (by omega)
  rw [hn, hsize] at hfit
  rw [lengthParse_of_pos (by rw [hfit]; simp only; omega), hfit, Int.toNat_natCast]

/-- **One run of the loop cuts the frames apart again.** -/
theorem decodeLoop_frames (ms : List (List UInt8)) (hlen : ∀ m ∈ ms, 4 + m.length ≤ 2 ^ 20)
    (hlast : ∀ m ∈ ms.getLast?, m ≠ []) (off : Nat) :
    decodeLoop p off (ms.flatMap frame) = ⟨layout off ms, [], false⟩ := by
  induction ms generalizing off with
  | nil => exact Framing.drain_more (lengthParse_nil p)
  | cons m ms ih =>
      -- a byte follows the header: one of the message, or of the next header
      have hne : m ++ ms.flatMap frame ≠ [] := by
        cases ms with
        | nil => simpa using hlast m rfl
        | cons m' ms => simp [frame, htonl]
      have hitem : (lengthFraming p).parse (frame m ++ ms.flatMap frame) = _ :=
        lengthParse_frame (hlen m List.mem_cons_self) hne
      have hrest := ih (fun m' hm' => hlen m' (List.mem_cons_of_mem m hm'))
        (fun m' hm' => hlast m' (List.mem_getLast?_cons hm')) (off + (4 + m.length))
      rw [decodeLoop] at hrest
      rw [List.flatMap_cons, decodeLoop, Framing.drain_item hitem,
        List.drop_left' (frame_length m), hrest]
      rfl

/-- The slices of the layout cover the messages. -/
theorem layout_bytes (front : List UInt8) (ms : List (List UInt8)) (off : Nat) :
    (layout (off + front.length) ms).map
      (fun x => x.2.bytes ((front ++ ms.flatMap frame).drop (x.1 - off))) = ms := by
  induction ms generalizing front with
  | nil => rfl
  | cons m ms ih =>
      have hrest := ih (front ++ frame m)
      rw [List.length_append, frame_length, ← Nat.add_assoc, List.append_assoc] at hrest
      rw [layout, List.map_cons, List.flatMap_cons, hrest, Nat.add_sub_cancel_left,
        List.drop_left, Slice.bytes, frame, List.append_assoc,
        List.drop_left' (htonl_length _), List.take_left]

theorem size_le_of_mem_layout {ms : List (List UInt8)} (hlen : ∀ m ∈ ms, 4 + m.length ≤ 2 ^ 20)
    {off : Nat} {x : Nat × Slice} (hx : x ∈ layout off ms) : x.2.size ≤ 2 ^ 20 := by
  induction ms generalizing off with
  | nil => cases hx
  | cons m ms ih =>
      rcases List.mem_cons.mp hx with rfl | hx
      · -- no size of the layout wraps around
        have := hlen m List.mem_cons_self
        simp only
        omega
      · exact ih (fun m' hm' => hlen m' (List.mem_cons_of_mem m hm')) hx

/-- What is shown of the messages of a list of frames is these messages. -/
theorem bytes_of_shows {ms : List (List UInt8)} (hlen : ∀ m ∈ ms, 4 + m.length ≤ 2 ^ 20)
    {off : Nat} {new : List (Nat × Slice × List UInt8)}
    (h : Shows (ms.flatMap frame) off (layout off ms) new) : new.map (fun x => x.2.2) = ms := by
  obtain ⟨hitems, hbytes⟩ := h
  calc new.map (fun x => x.2.2)
      = new.map (fun x => x.2.1.bytes ((ms.flatMap frame).drop (x.1 - off))) := by
        apply List.map_congr_left
        intro x hx
        apply hbytes x hx
        have hmem : (x.1, x.2.1) ∈ layout off ms :=
          hitems ▸ List.mem_map_of_mem hx
        exact size_le_of_mem_layout hlen hmem
    _ = (layout off ms).map (fun y => y.2.bytes ((ms.flatMap frame).drop (y.1 - off))) := by
        rw [← hitems, List.map_map]
        rfl
    _ = ms := layout_bytes [] ms off

/-- A frame that is too long is an error. -/
theorem decodeLoop_frame_over {m : List UInt8} (hover : 2 ^ 20 < 4 + m.length)
    (hlen : 4 + m.length < 2 ^ 31) (off : Nat) :
    decodeLoop p off (frame m) = ⟨[], frame m, true⟩ := by
  have hn : ntohl (frame m) = 4 + m.length := by
    rw [← List.append_nil (frame m), ntohl_frame hlen]
  have hover' : tryDecode p (frame m) Slice.empty = (-1, Slice.empty) :=
    tryDecode_over (by rw [frame_length]; omega) (by rw [hn]; exact hover)
      (by rw [hn]; exact hlen)
  exact Framing.drain_bad (F := lengthFraming p)
    (lengthParse_bad.mpr (by rw [hover']; simp))

/-- The frame of an empty message is not looked at. -/
theorem decodeLoop_frame_nil (off : Nat) :
    decodeLoop p off (frame []) = ⟨[], frame [], false⟩ := by
  have hshort : tryDecode p (frame []) Slice.empty = (0, Slice.empty) :=
    tryDecode_short (by rw [frame_length]; rfl)
  have hmore : lengthParse p (frame []) = .more :=
    lengthParse_of_zero (by rw [hshort]; simp) (by rw [hshort]; simp)
  exact Framing.drain_more (F := lengthFraming p) hmore

/-! ### Runs -/

variable {app : App} {i : ConnId} {w w' : World} {as : List Input} {ms : List (List UInt8)}

/-- **Encode and decode agree end to end.**  The frames of a list of messages,
each of at most `2^20` bytes and the last one of a message that is not empty,
arrive in any pieces.  Once the last byte has arrived, the callback has seen
exactly these messages, no error was reported and `m_input` is empty. -/
theorem roundTrip_of_run (h : ReadRun app i w as w')
    (hframes : stream (w.con i).sock.recvs = (encodeAll ms Buffer.new).content)
    (hlen : ∀ m ∈ ms, 4 + m.length ≤ 2 ^ 20) (hlast : ∀ m ∈ ms.getLast?, m ≠ [])
    (hdone : (w'.con i).state = .connected → stream (w'.con i).sock.recvs = []) :
    ∃ new, messages i w'.trace = messages i w.trace ++ new ∧
      new.map (fun x => x.2.2) = ms ∧ errors i w'.trace = errors i w.trace ∧
      (w'.con i).input.content = [] := by
  rw [content_encodeAll ms Buffer.wf_new, Buffer.content_new, List.nil_append] at hframes
  obtain ⟨new, hmsgs, hshows, hrest⟩ := h.reading.finish hdone
  rw [hframes, decodeLoop_frames ms hlen hlast] at hshows hrest
  obtain ⟨hpend, herr⟩ := hrest rfl
  exact ⟨new, hmsgs, bytes_of_shows hlen hshows, herr, hpend⟩

/-- `HeartbeatTest` reads one piece. -/
theorem readRun_piece (b : UInt8) (bs : List UInt8) :
    ∃ w w', ReadRun heartbeatTest 0 w [.readable 0] w' ∧
      (w.con 0).sock.recvs = [.data b bs] ∧
      ((w'.con 0).state = .connected → stream (w'.con 0).sock.recvs = []) := by
  obtain ⟨w, hw, hs, hcb, hempty, hscript, hconn⟩ : ∃ w,
      Exec.exec (worldStep heartbeatTest) (World.init 4 5)
        [.accept 6 [.data b bs] [] [1], .writable 0] = some w ∧
      (w.con 0).state = .connected ∧ (w.con 0).readCb = some .onMsg ∧
      (w.con 0).input.content = [] ∧ (w.con 0).sock.recvs = [.data b bs] ∧
      w.nextConn = 1 := by
    refine ⟨_, rfl, ?_, ?_, ?_, ?_, ?_⟩ <;> rfl
  have hread : Exec.exec (worldStep heartbeatTest) w [.readable 0] =
      some (handleRead heartbeatTest 0 w) := by
    simp only [Exec.exec, worldStep, hconn]
    rfl
  have h : ReadRun heartbeatTest 0 w [.readable 0] (handleRead heartbeatTest 0 w) :=
    ⟨⟨4, 5, _, hw⟩, hs, hcb, hempty, by rw [hscript]; trivial, hread,
      fun _ _ => ⟨trivial, trivial⟩⟩
  exact ⟨w, _, h, hscript, h.received (by rw [hscript]; exact Nat.le_refl 1)⟩

/-- Three messages in one piece, the middle one empty. -/
theorem roundTrip_of_run_heartbeatTest :
    ∃ w w', ReadRun heartbeatTest 0 w [.readable 0] w' ∧
      (w.con 0).sock.recvs = [.data 0 [0, 0, 5, 7, 0, 0, 0, 4, 0, 0, 0, 6, 8, 9]] ∧
      ∃ new, messages 0 w'.trace = messages 0 w.trace ++ new ∧
        new.map (fun x => x.2.2) = [[7], [], [8, 9]] ∧
        errors 0 w'.trace = errors 0 w.trace ∧ (w'.con 0).input.content = [] := by
  obtain ⟨w, w', h, hscript, hdone⟩ :=
    readRun_piece 0 [0, 0, 5, 7, 0, 0, 0, 4, 0, 0, 0, 6, 8, 9]
  exact ⟨w, w', h, hscript, roundTrip_of_run h
    (by rw [hscript]; decide) (by decide) (by decide) hdone⟩

/-- A message in whose frame the loop finds nothing is sent, and not delivered. -/
theorem readRun_undelivered {m : List UInt8} {failed : Bool}
    (hloop : ∀ off, decodeLoop .x64 off (frame m) = ⟨[], frame m, failed⟩) :
    ∃ w w', ReadRun heartbeatTest 0 w [.readable 0] w' ∧
      stream (w.con 0).sock.recvs = (encodeAll [m] Buffer.new).content ∧
      ((w'.con 0).state = .connected → stream (w'.con 0).sock.recvs = []) ∧
      messages 0 w'.trace = messages 0 w.trace ∧
      (failed = false → (w'.con 0).input.content = frame m) := by
  obtain ⟨b, bs, hm⟩ : ∃ b bs, frame m = b :: bs := ⟨_, _, rfl⟩
  obtain ⟨w, w', h, hscript, hdone⟩ := readRun_piece b bs
  have hstream : stream (w.con 0).sock.recvs = frame m := by
    rw [hscript, hm, stream, stream, List.append_nil]
  obtain ⟨new, hmsgs, ⟨hnew, -⟩, hrest⟩ := h.reading.finish hdone
  have hloop := hloop (w.con 0).sock.received
  rw [hstream, show heartbeatTest.plat = .x64 from rfl, hloop] at hnew hrest
  rw [List.map_eq_nil_iff.mp hnew, List.append_nil] at hmsgs
  refine ⟨w, w', h, ?_, hdone, hmsgs, fun hf => (hrest hf).1⟩
  rw [hstream, content_encodeAll _ Buffer.wf_new, Buffer.content_new, List.nil_append,
    List.flatMap_singleton]

/-- A last message that is empty stays in `m_input`, and a message of
`2^20 - 3` bytes is not delivered either. -/
theorem roundTrip_fails :
    (∃ w w', ReadRun heartbeatTest 0 w [.readable 0] w' ∧
      stream (w.con 0).sock.recvs = (encodeAll [[]] Buffer.new).content ∧
      ((w'.con 0).state = .connected → stream (w'.con 0).sock.recvs = []) ∧
      messages 0 w'.trace = messages 0 w.trace ∧ (w'.con 0).input.content = [0, 0, 0, 4]) ∧
    (∃ w w', ReadRun heartbeatTest 0 w [.readable 0] w' ∧
      stream (w.con 0).sock.recvs =
        (encodeAll [List.replicate (2 ^ 20 - 3) 0] Buffer.new).content ∧
      ((w'.con 0).state = .connected → stream (w'.con 0).sock.recvs = []) ∧
      messages 0 w'.trace = messages 0 w.trace) := by
  constructor
  · obtain ⟨w, w', h, hstream, hdone, hmsgs, hrest⟩ :=
      readRun_undelivered decodeLoop_frame_nil
    exact ⟨w, w', h, hstream, hdone, hmsgs, (hrest rfl).trans (by decide)⟩
  · have hloop := decodeLoop_frame_over (p := .x64) (m := List.replicate (2 ^ 20 - 3) 0)
      (by rw [List.length_replicate]; decide) (by rw [List.length_replicate]; decide)
    obtain ⟨w, w', h, hstream, hdone, hmsgs, -⟩ := readRun_undelivered hloop
    exact ⟨w, w', h, hstream, hdone, hmsgs⟩

end Libet
