/-
Libet/Dispatch.lean

The dispatch loop of `PollerSelect::LoopOnce`.

`select` has returned `lastActive` and the ready sets `rs` and `ws`.  The loop
walks the list of channels with the member iterator `curIt`, calls the handlers
of the channels whose descriptor is ready, and stops early once it has counted
`lastActive` of them.  A handler is a sequence of operations on the channels,
its own included; between the handlers the loop reads descriptors.  A channel
that was freed in its read handler is read once more, for the write test: what
the loop finds there is whatever the memory holds, the `junk` of a label.

The run of a pass is observed as a list of events: the turn of each channel,
the handlers that are called, the count against `m_lastActive`, and what the
handlers do to the list.
-/
import Libet.Channels
import Mathlib.Data.List.TakeWhile

namespace Libet

/-! ### The machine -/

/-- Where control is in the loop. -/
inductive DispatchControl
  /-- at the top of the body, the loop condition being true -/
  | head
  /-- inside `ch->HandleRead()` -/
  | reading (ch : ChannelId)
  /-- inside `ch->HandleWrite()` -/
  | writing (ch : ChannelId)
  /-- behind the loop -/
  | done
  deriving DecidableEq, Repr

/-- The channels, `m_lastActive`, and where control is. -/
structure Dispatch where
  chans : Channels
  lastActive : Int
  control : DispatchControl

namespace Dispatch

/-- `while (m_lastActive > 0 && curIt != m_liveChannels.end())`. -/
def toHead (d : Dispatch) : Dispatch :=
  { d with control :=
      if 0 < d.lastActive ∧ d.chans.poller.curIt.isSome then .head else .done }

/-- `if (dec && --m_lastActive <= 0) break;`. -/
def endBody (d : Dispatch) (dec : Bool) : Dispatch :=
  if dec then
    let d := { d with lastActive := d.lastActive - 1 }
    if d.lastActive ≤ 0 then { d with control := .done } else d.toHead
  else d.toHead

/-- `if (FD_ISSET(ch->fd(), &ws))`, where `ch->fd()` is `fd`. -/
def testWrite (ws : List Int) (d : Dispatch) (ch : ChannelId) (fd : Int) (dec : Bool) :
    Dispatch :=
  if fd ∈ ws then { d with control := .writing ch } else d.endBody dec

/-- `ch->fd()`: the descriptor of the object, or what freed memory holds. -/
def readFd (d : Dispatch) (ch : ChannelId) (junk : Int) : Int :=
  ((d.chans.obj ch).map Channel.fd).getD junk

/-- `++curIt` behind `ch`. -/
def advance (d : Dispatch) (ch : ChannelId) : Dispatch :=
  { d with chans := { d.chans with poller := { d.chans.poller with
      curIt := PollerSelect.nextIt d.chans.poller.liveChannels ch } } }

/-- The loop is entered, after `select` has returned `lastActive`. -/
def start (s : Channels) (lastActive : Int) : Dispatch :=
  toHead ⟨{ s with poller := { s.poller with curIt := s.poller.liveChannels.head? } },
    lastActive, .head⟩

end Dispatch

/-- What happens next in the loop. -/
inductive DispatchLabel
  /-- the body up to the first handler, or to its end -/
  | visit (junk : Int)
  /-- a handler does something with the channels -/
  | op (op : ChannelOp)
  /-- a handler returns, and the loop goes on -/
  | ret (junk : Int)
  deriving DecidableEq, Repr

/-- One step of the loop. -/
def dispatchStep (rs ws : List Int) (d : Dispatch) : DispatchLabel → Option Dispatch
  | .visit junk =>
      match d.control, d.chans.poller.curIt with
      | .head, some ch =>
          let fd := d.readFd ch junk
          if fd ∈ rs then some { d.advance ch with control := .reading ch }
          else some ((d.advance ch).testWrite ws ch fd false)
      | _, _ => none
  | .op op =>
      match d.control with
      | .reading _ | .writing _ =>
          (channelStep d.chans op).map fun s => { d with chans := s }
      | _ => none
  | .ret junk =>
      match d.control with
      | .reading ch => some (d.testWrite ws ch (d.readFd ch junk) true)
      | .writing _ => some (d.endBody true)
      | _ => none

/-! ### What is observed -/

/-- What happens to a channel in a pass. -/
inductive DispatchEvent
  /-- `auto ch = *curIt` -/
  | turn (ch : ChannelId)
  /-- `ch->HandleRead()` -/
  | read (ch : ChannelId)
  /-- the write test of `ch` is made -/
  | tested (ch : ChannelId)
  /-- `ch->HandleWrite()` -/
  | write (ch : ChannelId)
  /-- `--m_lastActive` -/
  | counted (ch : ChannelId)
  | constructed (ch : ChannelId)
  /-- the channel leaves the list -/
  | removed (ch : ChannelId)
  deriving DecidableEq, Repr

/-- The turn of `ch` begins, and the read test is made on `fd`. -/
def turnEvents (rs : List Int) (ch : ChannelId) (fd : Int) : List DispatchEvent :=
  .turn ch :: if fd ∈ rs then [.read ch] else []

/-- The write test of `ch` is made on `fd`. -/
def testEvents (ws : List Int) (ch : ChannelId) (fd : Int) : List DispatchEvent :=
  .tested ch :: if fd ∈ ws then [.write ch] else []

/-- The end of the turn. -/
def countEvents (ch : ChannelId) (dec : Bool) : List DispatchEvent :=
  if dec then [.counted ch] else []

/-- The events of an operation on the channels. -/
def opEvents (s : Channels) : ChannelOp → List DispatchEvent
  | .construct _ => [.constructed (s.lastId + 1)]
  | .close id => if id ∈ s.poller.liveChannels then [.removed id] else []
  | _ => []

/-- The events of one step. -/
def dispatchEvents (rs ws : List Int) (d : Dispatch) : DispatchLabel → List DispatchEvent
  | .visit junk =>
      match d.chans.poller.curIt with
      | none => []
      | some ch =>
          let fd := d.readFd ch junk
          turnEvents rs ch fd ++ if fd ∈ rs then [] else testEvents ws ch fd
  | .op op => opEvents d.chans op
  | .ret junk =>
      match d.control with
      | .reading ch =>
          let fd := d.readFd ch junk
          testEvents ws ch fd ++ if fd ∈ ws then [] else countEvents ch true
      | .writing ch => countEvents ch true
      | _ => []

/-- A handler is called. -/
def DispatchEvent.isDispatch : DispatchEvent → Bool
  | .read _ | .write _ => true
  | _ => false

def DispatchEvent.turnOf : DispatchEvent → Option ChannelId
  | .turn ch => some ch
  | _ => none

def DispatchEvent.constructedOf : DispatchEvent → Option ChannelId
  | .constructed ch => some ch
  | _ => none

def DispatchEvent.countedOf : DispatchEvent → Option ChannelId
  | .counted ch => some ch
  | _ => none

/-- The channels that had their turn, in order. -/
def turns (l : List DispatchEvent) : List ChannelId := l.filterMap DispatchEvent.turnOf

/-- The channels constructed in the pass, in order. -/
def constructed (l : List DispatchEvent) : List ChannelId :=
  l.filterMap DispatchEvent.constructedOf

/-- The channels counted against `m_lastActive`. -/
def counted (l : List DispatchEvent) : List ChannelId := l.filterMap DispatchEvent.countedOf

/-- The handlers that were called, in order. -/
def dispatched (l : List DispatchEvent) : List DispatchEvent :=
  l.filter DispatchEvent.isDispatch

/-- The handlers of the channels of a list, in order. -/
def handlers (l : List ChannelId) : List DispatchEvent :=
  l.flatMap fun ch => [.read ch, .write ch]

/-- What happened before `e`; everything, if `e` did not happen. -/
def before (e : DispatchEvent) (l : List DispatchEvent) : List DispatchEvent :=
  l.takeWhile (· ≠ e)

/-- The channel left the list, and `e` had not happened before. -/
def RemovedBefore (e : DispatchEvent) (ch : ChannelId) (l : List DispatchEvent) : Prop :=
  .removed ch ∈ before e l

section Events

variable {l es : List DispatchEvent} {e : DispatchEvent} {c : ChannelId}

@[simp] theorem turns_append : turns (l ++ es) = turns l ++ turns es := List.filterMap_append

@[simp] theorem constructed_append :
    constructed (l ++ es) = constructed l ++ constructed es := List.filterMap_append

@[simp] theorem counted_append : counted (l ++ es) = counted l ++ counted es :=
  List.filterMap_append

@[simp] theorem dispatched_append : dispatched (l ++ es) = dispatched l ++ dispatched es :=
  List.filter_append ..

@[simp] theorem handlers_append (l₁ l₂ : List ChannelId) :
    handlers (l₁ ++ l₂) = handlers l₁ ++ handlers l₂ := List.flatMap_append

theorem mem_turns : c ∈ turns l ↔ .turn c ∈ l := by
  simp only [turns, List.mem_filterMap]
  constructor
  · rintro ⟨e, he, hc⟩
    cases e <;> cases hc
    exact he
  · intro h
    exact ⟨_, h, rfl⟩

theorem mem_handlers_read {ids : List ChannelId} : .read c ∈ handlers ids ↔ c ∈ ids := by
  simp [handlers]

theorem mem_handlers_write {ids : List ChannelId} : .write c ∈ handlers ids ↔ c ∈ ids := by
  simp [handlers]

theorem nodup_handlers {ids : List ChannelId} (h : ids.Nodup) : (handlers ids).Nodup := by
  induction ids with
  | nil => exact List.nodup_nil
  | cons c ids ih =>
      obtain ⟨hc, hids⟩ := List.nodup_cons.mp h
      show (DispatchEvent.read c :: DispatchEvent.write c :: handlers ids).Nodup
      simp only [List.nodup_cons, List.mem_cons, mem_handlers_read, mem_handlers_write]
      exact ⟨by simp [hc], hc, ih hids⟩

theorem before_append_of_mem (h : e ∈ l) : before e (l ++ es) = before e l := by
  induction l with
  | nil => cases h
  | cons x xs ih =>
      simp only [before, List.cons_append, List.takeWhile_cons] at ih ⊢
      split
      · rename_i hx
        have hne : x ≠ e := of_decide_eq_true hx
        rcases List.mem_cons.mp h with rfl | h
        · exact absurd rfl hne
        · rw [ih h]
      · rfl

theorem before_of_not_mem (h : e ∉ l) : before e l = l := by
  apply List.takeWhile_eq_self_iff.mpr
  intro x hx
  exact decide_eq_true fun he => h (he ▸ hx)

/-- What came before an event that is new is everything so far. -/
theorem before_append_self (h : e ∉ l) : before e (l ++ e :: es) = l := by
  induction l with
  | nil => simp [before]
  | cons x xs ih =>
      rw [List.mem_cons, not_or] at h
      simp only [before, List.cons_append, List.takeWhile_cons] at ih ⊢
      rw [if_pos (by simpa using Ne.symm h.1), ih h.2]

end Events

end Libet
