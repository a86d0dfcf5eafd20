/-
Libet/Idle.lean

`EventBase` and its idle lists.

`m_idleConns` holds one list of `IdleNode`s for every idle time; an `IdleId`
names the list and a node of it.  The iterator of an `IdleIdImp` is modelled by
the number of the node, which is never used twice.  The callback of a node is
the caller's and is not kept; `CallIdles` works on a copy of the lists and so
never changes them.
-/
import Libet.Poller
import Libet.Timer

namespace Libet

/-- Connections are `TcpConnPtr`s; each has a number of its own. -/
abbrev ConnId := Nat

/-- A node of an idle list: its address, `m_conn` and `m_updated`. -/
structure IdleNode where
  node : Nat
  conn : ConnId
  updated : Int
  deriving DecidableEq, Repr

/-- `IdleIdImp`: the list, by its key in `m_idleConns`, and the node. -/
structure IdleId where
  lst : Int
  node : Nat
  deriving DecidableEq, Repr

/-- The tasks that the library itself hands to `RunAt`. -/
inductive BaseTask
  | callIdles
  deriving DecidableEq, Repr

/-- The fields of `EventBase` that a loop thread works on.  `tasks` holds the
closures `TcpConn::Close` queues, `unregistered` records the calls of
`UnregisterIdle`, each with whether the node was in its list. -/
structure EventBase where
  poller : PollerSelect
  conns : List ConnId
  tasks : List ConnId
  timers : Timers BaseTask
  idleConns : OrdMap Int (List IdleNode)
  idleEnabled : Bool
  nextNode : Nat
  unregistered : List (IdleId × Bool)

namespace EventBase

/-- `EventBase::EventBase`, without the wakeup channel. -/
def new : EventBase :=
  ⟨PollerSelect.new, [], [], Timers.new, OrdMap.empty, false, 0, []⟩

/-- `AddConn`. -/
def addConn (b : EventBase) (con : ConnId) : EventBase :=
  { b with conns := b.conns ++ [con] }

/-- `RemoveConn`. -/
def removeConn (b : EventBase) (con : ConnId) : EventBase :=
  { b with conns := b.conns.filter (· ≠ con) }

/-- `SafeCall` of the closure that closes `con`. -/
def safeCall (b : EventBase) (con : ConnId) : EventBase :=
  { b with tasks := b.tasks ++ [con] }

/-- The list `m_idleConns[idle]`. -/
def idleList (b : EventBase) (idle : Int) : List IdleNode :=
  (b.idleConns.find? idle).getD []

/-- `RunAfter(milli, task, interval)`, at the clock value `now`. -/
def runAfter (b : EventBase) (now milli : Int) (task : BaseTask) (interval : Int) :
    EventBase :=
  { b with timers := (b.timers.runAt now (now + milli) task interval).2 }

/-- `RegisterIdle`. -/
def registerIdle (b : EventBase) (now idle : Int) (con : ConnId) :
    IdleId × EventBase :=
  let b := if b.idleEnabled then b
    else { b.runAfter now 1000 .callIdles 1000 with idleEnabled := true }
  let lst := b.idleList idle ++ [⟨b.nextNode, con, now / 1000⟩]
  (⟨idle, b.nextNode⟩, { b with nextNode := b.nextNode + 1
                                idleConns := b.idleConns.set idle lst })

/-- The node of `id` is in its list. -/
def hasIdle (b : EventBase) (id : IdleId) : Bool :=
  (b.idleList id.lst).any (·.node == id.node)

/-- `UnregisterIdle`.  Erasing a node that is not in the list is undefined;
the record says so. -/
def unregisterIdle (b : EventBase) (id : IdleId) : EventBase :=
  { b with
    idleConns := b.idleConns.set id.lst
      ((b.idleList id.lst).filter (·.node ≠ id.node))
    unregistered := b.unregistered ++ [(id, b.hasIdle id)] }

/-- `UpdateIdle`: the node moves to the end of its list. -/
def updateIdle (b : EventBase) (now : Int) (id : IdleId) : EventBase :=
  let lst := b.idleList id.lst
  { b with
    idleConns := b.idleConns.set id.lst
      (lst.filter (·.node ≠ id.node) ++
        ((lst.filter (·.node == id.node)).map
          fun n => { n with updated := now / 1000 })) }

variable {b : EventBase} {id : IdleId}

theorem idleList_of_set {b' : EventBase} {idle : Int} {lst : List IdleNode}
    (h : b'.idleConns = b.idleConns.set idle lst) (idle' : Int) :
    b'.idleList idle' = if idle' = idle then lst else b.idleList idle' := by
  rw [idleList]
  rw [h, OrdMap.find?_set]
  split <;> rfl

/-- What `RegisterIdle` does: it adds one node, with a number of its own, at the
end of a list. -/
structure Registers (b : EventBase) (now idle : Int) (con : ConnId) (r : IdleId × EventBase) :
    Prop where
  id : r.1 = ⟨idle, b.nextNode⟩
  idleConns : r.2.idleConns =
    b.idleConns.set idle (b.idleList idle ++ [⟨b.nextNode, con, now / 1000⟩])
  nextNode : r.2.nextNode = b.nextNode + 1
  unregistered : r.2.unregistered = b.unregistered
  conns : r.2.conns = b.conns
  poller : r.2.poller = b.poller

theorem registers_registerIdle (b : EventBase) (now idle : Int) (con : ConnId) :
    Registers b now idle con (b.registerIdle now idle con) := by
  rw [registerIdle]
  split
  · exact ⟨rfl, rfl, rfl, rfl, rfl, rfl⟩
  · -- the first idle time also starts the timer
    exact ⟨rfl, rfl, rfl, rfl, rfl, rfl⟩

theorem hasIdle_iff : b.hasIdle id = true ↔ ∃ n ∈ b.idleList id.lst, n.node = id.node := by
  simp [hasIdle]

/-- What one call with an idle id keeps, a loop over idle ids keeps. -/
theorem foldl_frame {β : Type*} {g : EventBase → β} {f : EventBase → IdleId → EventBase}
    (hf : ∀ b id, g (f b id) = g b) (ids : List IdleId) (b : EventBase) :
    g (ids.foldl f b) = g b := by
  induction ids generalizing b with
  | nil => rfl
  | cons id ids ih => exact (ih (f b id)).trans (hf b id)

end EventBase

end Libet
