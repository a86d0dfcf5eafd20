/-
Libet/Poller.lean

`Channel` and `PollerSelect` (`EventBase.h`, `PollerBase.cpp`).

A `Channel` is the poller's handle on a socket.  The poller keeps the sets of
descriptors it selects on and the list `m_liveChannels`; a channel stands in
that list by its `id`, which is never used twice and so serves as its address.
The callbacks of a channel are always `HandleRead` and `HandleWrite` of the
connection that owns it, so a channel does not carry them.
-/
import Mathlib.Data.List.Basic
import Mathlib.Data.List.Count

namespace Libet

/-- `int64_t Channel::m_id`. -/
abbrev ChannelId := Nat

/-- The value of a descriptor that is no longer open. -/
def SOCKET_ERROR : Int := -1

/-- The capacity of an `fd_set` on Windows. -/
def FD_SETSIZE : Nat := 64

/-- `FD_SET`: nothing happens if the descriptor is there or the set is full. -/
def fdSet (fd : Int) (s : List Int) : List Int :=
  if fd ∈ s then s else if s.length < FD_SETSIZE then s ++ [fd] else s

/-- `FD_CLR`. -/
def fdClr (fd : Int) (s : List Int) : List Int := s.erase fd

/-- `struct Channel`. -/
structure Channel where
  id : ChannelId
  fd : Int
  readable : Bool
  writable : Bool
  deriving DecidableEq, Repr

/-- `struct PollerSelect`; `curIt = none` is the end of the list. -/
structure PollerSelect where
  allReadSet : List Int
  allWriteSet : List Int
  liveChannels : List ChannelId
  curIt : Option ChannelId
  deriving DecidableEq, Repr

namespace PollerSelect

/-- `PollerSelect::PollerSelect`. -/
def new : PollerSelect := ⟨[], [], [], none⟩

def addChannel (p : PollerSelect) (ch : Channel) : PollerSelect :=
  { p with
    allReadSet := if ch.readable then fdSet ch.fd p.allReadSet else p.allReadSet
    allWriteSet := if ch.writable then fdSet ch.fd p.allWriteSet else p.allWriteSet
    liveChannels := p.liveChannels ++ [ch.id] }

/-- The element behind `id` in the list. -/
def nextIt (l : List ChannelId) (id : ChannelId) : Option ChannelId :=
  (l.dropWhile (· ≠ id)).tail.head?

def removeChannel (p : PollerSelect) (ch : Channel) : PollerSelect :=
  { allReadSet := fdClr ch.fd p.allReadSet
    allWriteSet := fdClr ch.fd p.allWriteSet
    curIt := if p.curIt = some ch.id then nextIt p.liveChannels ch.id else p.curIt
    liveChannels := p.liveChannels.filter (· ≠ ch.id) }

def updateChannel (p : PollerSelect) (ch : Channel) : PollerSelect :=
  { p with
    allReadSet :=
      if ch.readable then fdSet ch.fd p.allReadSet else fdClr ch.fd p.allReadSet
    allWriteSet :=
      if ch.writable then fdSet ch.fd p.allWriteSet else fdClr ch.fd p.allWriteSet }

end PollerSelect

end Libet
