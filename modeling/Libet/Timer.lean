/-
Libet/Timer.lean

The timers of `EventBase`.

`m_timers` maps a deadline and a sequence number to a task.  A repeating timer
has a second record, in `m_timerReps`, under the identifier that `RunAt` hands
out; its entry in `m_timers` is the closure `[this, tr] { RepeatableTimeout(tr); }`,
where `tr` points at the record.  A node of a `std::map` does not move, and keys
are never used twice, so the key of the record stands for the pointer.

Deadlines and sequence numbers are exact integers; the one narrowing, to the
`int m_nextTimeout`, is written out.  In the source they are `int64_t`: a deadline
that does not fit, such as the one `tr->m_at += tr->m_interval` gets in a pass at 10
behind `RunAt(1, task, INT64_MAX)`, is an overflow there, and runs that come to one
are not described.
-/
import Libet.CInt
import Libet.Lib.OrdMap
import Mathlib.Data.Prod.Lex

namespace Libet

/-- `TimerId`, a `std::pair` ordered lexicographically. -/
structure TimerId where
  first : Int
  second : Int
  deriving DecidableEq, Repr

namespace TimerId

instance : LinearOrder TimerId :=
  LinearOrder.lift' (fun t => toLex (t.first, t.second)) fun s t h => by
    obtain ⟨h1, h2⟩ := Prod.mk.injEq .. ▸ toLex.injective h
    cases s; cases t; simp_all

end TimerId

variable {τ : Type*}

/-- What `m_timers` holds: the caller's task, or `RepeatableTimeout(tr)`. -/
inductive TimerTask (τ : Type*)
  | user (task : τ)
  | repeatable (tr : TimerId)
  deriving DecidableEq, Repr

/-- `struct TimerRepeatable`. -/
structure TimerRepeatable (τ : Type*) where
  at_ : Int
  interval : Int
  timerid : TimerId
  cb : τ
  deriving DecidableEq, Repr

/-- The timer fields of `EventBase`; tasks are values of `τ`. -/
structure Timers (τ : Type*) where
  exit : Bool
  nextTimeout : Int
  timerReps : OrdMap TimerId (TimerRepeatable τ)
  timers : OrdMap TimerId (TimerTask τ)
  timerSeq : Int

namespace Timers

/-- The timer fields after `EventBase::EventBase`. -/
def new : Timers τ := ⟨false, 2 ^ 30, OrdMap.empty, OrdMap.empty, 0⟩

/-- `RefreshNearest`, at the clock value `now`. -/
def refreshNearest (s : Timers τ) (now : Int) : Timers τ :=
  match s.timers.first? with
  | none => { s with nextTimeout := 2 ^ 30 }
  | some (t, _) =>
      let nextTimeout := toInt32 (t.first - now)
      { s with nextTimeout := if nextTimeout < 0 then 0 else nextTimeout }

/-- `RunAt`, at the clock value `now`. -/
def runAt (s : Timers τ) (now milli : Int) (task : τ) (interval : Int) :
    TimerId × Timers τ :=
  if s.exit then (⟨0, 0⟩, s)
  else if interval ≠ 0 then
    -- the id is negative, which is how `Cancel` tells it from a one-shot one
    let tid : TimerId := ⟨-milli, s.timerSeq + 1⟩
    let rtr : TimerRepeatable τ := ⟨milli, interval, ⟨milli, s.timerSeq + 2⟩, task⟩
    (tid, { s with timerSeq := s.timerSeq + 2
                   timerReps := s.timerReps.set tid rtr
                   timers := s.timers.set rtr.timerid (.repeatable tid) }
            |>.refreshNearest now)
  else
    let tid : TimerId := ⟨milli, s.timerSeq + 1⟩
    (tid, { s with timerSeq := s.timerSeq + 1
                   timers := s.timers.insert tid (.user task) }
            |>.refreshNearest now)

/-- `Cancel`. -/
def cancel (s : Timers τ) (timerid : TimerId) : Bool × Timers τ :=
  if timerid.first < 0 then
    match s.timerReps.find? timerid with
    | some p => (true, { s with timers := s.timers.erase p.timerid
                                timerReps := s.timerReps.erase timerid })
    | none => (false, s)
  else
    match s.timers.find? timerid with
    | some _ => (true, { s with timers := s.timers.erase timerid })
    | none => (false, s)

/-- The record `*tr`, found to be `r`, moves on by its interval and gets a new
entry in `m_timers`. -/
def rearm (s : Timers τ) (tr : TimerId) (r : TimerRepeatable τ) : Timers τ :=
  let at_ := r.at_ + r.interval
  let timerid : TimerId := ⟨at_, s.timerSeq + 1⟩
  { s with timerSeq := s.timerSeq + 1
           timerReps := s.timerReps.set tr { r with at_ := at_, timerid := timerid }
           timers := s.timers.set timerid (.repeatable tr) }

/-- The part of `RepeatableTimeout` in front of `tr->m_cb()`: the callback, and
the state at the moment it starts.  `none` says that `tr` points at an erased
record. -/
def repeatableTimeout (s : Timers τ) (now : Int) (tr : TimerId) :
    Option (τ × Timers τ) :=
  (s.timerReps.find? tr).map fun r => (r.cb, (s.rearm tr r).refreshNearest now)

/-- The loop condition of `HandleTimeouts` with `m_timers.erase(begin())`: the
task taken out, if one is due at `now`. -/
def takeDue (s : Timers τ) (now : Int) : Option (TimerTask τ × Timers τ) :=
  match s.timers.first? with
  | none => none
  | some (k, task) =>
      -- `TimerId(now, 1LL << 62)` is above every key with that deadline
      if k < ⟨now, 2 ^ 62⟩ then some (task, { s with timers := s.timers.erase k })
      else none

/-- `task()` up to the start of the caller's code. -/
def startTask (s : Timers τ) (now : Int) : TimerTask τ → Option (τ × Timers τ)
  | .user task => some (task, s)
  | .repeatable tr => s.repeatableTimeout now tr

/-! ### `RefreshNearest` only touches `m_nextTimeout` -/

@[simp] theorem refreshNearest_timers (s : Timers τ) (now : Int) :
    (s.refreshNearest now).timers = s.timers := by
  unfold refreshNearest; split <;> rfl

@[simp] theorem refreshNearest_timerReps (s : Timers τ) (now : Int) :
    (s.refreshNearest now).timerReps = s.timerReps := by
  unfold refreshNearest; split <;> rfl

@[simp] theorem refreshNearest_timerSeq (s : Timers τ) (now : Int) :
    (s.refreshNearest now).timerSeq = s.timerSeq := by
  unfold refreshNearest; split <;> rfl

/-! ### The two kinds of registration -/

/-- `RunAt` with an interval registers a record and its entry. -/
theorem runAt_repeating {s : Timers τ} (hexit : s.exit = false) (now milli : Int) (task : τ)
    {interval : Int} (hi : interval ≠ 0) :
    s.runAt now milli task interval =
      (⟨-milli, s.timerSeq + 1⟩,
        { s with timerSeq := s.timerSeq + 2
                 timerReps := s.timerReps.set ⟨-milli, s.timerSeq + 1⟩
                   ⟨milli, interval, ⟨milli, s.timerSeq + 2⟩, task⟩
                 timers := s.timers.set ⟨milli, s.timerSeq + 2⟩
                   (.repeatable ⟨-milli, s.timerSeq + 1⟩) }
          |>.refreshNearest now) := by
  simp only [runAt, hexit, Bool.false_eq_true, if_false, if_pos hi]

/-- `RunAt` without an interval registers the task itself. -/
theorem runAt_oneShot {s : Timers τ} (hexit : s.exit = false) (now milli : Int) (task : τ) :
    s.runAt now milli task 0 =
      (⟨milli, s.timerSeq + 1⟩,
        { s with timerSeq := s.timerSeq + 1
                 timers := s.timers.insert ⟨milli, s.timerSeq + 1⟩ (.user task) }
          |>.refreshNearest now) := by
  simp only [runAt, hexit, Bool.false_eq_true, if_false, ne_eq, not_true_eq_false]

end Timers

end Libet
