/-
Libet/Accept.lean

`TcpServer::HandleAccept` (`TcpServer.cpp`) as a loop, with the bases that it
gives the sockets to.

Each turn accepts a socket, asks for its two addresses and chooses a base.  If
that is the base of the server, the closure `addcon` runs at once and `Attach`es
the socket; otherwise `SafeCall` pushes the closure to the tasks of the chosen
base, whose thread runs it when it comes to it.  The other threads go on
meanwhile: they push tasks of their own, and run what has been posted to them.

`everySocketOwned_iff`: every accepted socket gets an owner exactly if no query
fails and no chosen base refuses the task.  A socket whose query fails is
dropped without `closesocket`, and `SafeCall` does not look at what `push`
returned.
-/
import Libet.Lib.Exec
import Libet.SafeQueue
import Libet.TcpConn

namespace Libet

/-! ### The loop -/

/-- What `addcon` has captured of an accepted socket, and what the socket will
say. -/
structure AddCon where
  fd : Int
  sock : Socket

/-- A task of an event base: a posted `addcon`, or one of somebody else. -/
inductive LoopTask
  | addcon (c : AddCon)
  | other

/-- Where `HandleAccept` stands. -/
inductive AcceptPoint
  /-- at `::accept` -/
  | accepting
  /-- at `getpeername` -/
  | peer (c : AddCon)
  /-- at `getsockname` -/
  | sock (c : AddCon)
  /-- at `m_bases->AllocBase()` -/
  | alloc (c : AddCon)
  | returned (r : Bool)

/-- `HandleAccept` and the event bases. -/
structure AcceptState (B : Type*) where
  point : AcceptPoint
  bases : B → World
  tasks : B → SafeQueue LoopTask

inductive AcceptLabel (B : Type*)
  /-- what `accept` returns; after that, `SetNonBlocking` is called, and what it
  returns is ignored -/
  | accept (fd : Int) (sock : Socket)
  /-- what `getpeername` returns -/
  | getpeername (r : Int)
  /-- what `getsockname` returns -/
  | getsockname (r : Int)
  /-- what `AllocBase` returns, and the dispatch to that base -/
  | allocBase (b : B)
  /-- another thread pushes a task to a base -/
  | push (b : B)
  /-- the thread of a base runs its first task -/
  | run (b : B)

/-- What happens to a socket. -/
inductive AcceptEvent (B : Type*)
  | accepted (c : AddCon)
  /-- `Attach`ed to the base at once -/
  | attached (b : B) (c : AddCon)
  /-- a task that will `Attach` it is in the queue of the base -/
  | posted (b : B) (c : AddCon)
  /-- such a task `Attach`es it -/
  | ran (b : B) (c : AddCon)
  | closed (c : AddCon)

section Machine

variable {B : Type*} [DecidableEq B] (app : App) (own : B)

/-- `HandleAccept` is called. -/
def AcceptState.init (listenFd : Int) (bases : B → World) (tasks : B → SafeQueue LoopTask) :
    AcceptState B :=
  ⟨if listenFd = SOCKET_ERROR then .returned false else .accepting, bases, tasks⟩

namespace AcceptState

variable (s : AcceptState B)

/-- The closure `addcon`, on the base `b`. -/
def addcon (b : B) (c : AddCon) : AcceptState B :=
  { s with bases := Function.update s.bases b (handleAccept app c.fd c.sock (s.bases b)) }

def setTasks (b : B) (q : SafeQueue LoopTask) : AcceptState B :=
  { s with tasks := Function.update s.tasks b q }

/-- `SafeCall`, which does not look at what `push` returns. -/
def safeCall (b : B) (task : LoopTask) : AcceptState B :=
  s.setTasks b ((s.tasks b).push task).2

end AcceptState

/-- One step; `own` is the base of the server, whose thread is in `HandleAccept`
and runs no tasks meanwhile. -/
def acceptStep (s : AcceptState B) : AcceptLabel B → Option (AcceptState B)
  | .accept fd sock =>
      match s.point with
      | .accepting =>
          some { s with point := if fd = SOCKET_ERROR then .returned true else .peer ⟨fd, sock⟩ }
      | _ => none
  | .getpeername r =>
      match s.point with
      | .peer c => some { s with point := if r < 0 then .accepting else .sock c }
      | _ => none
  | .getsockname r =>
      match s.point with
      | .sock c => some { s with point := if r < 0 then .accepting else .alloc c }
      | _ => none
  | .allocBase b =>
      match s.point with
      | .alloc c =>
          if b = own then some { s.addcon app own c with point := .accepting }
          else some { s.safeCall b (.addcon c) with point := .accepting }
      | _ => none
  | .push b => some (s.safeCall b .other)
  | .run b =>
      if b = own then none else
      match (s.tasks b).popWait with
      | (none, _) => none
      | (some .other, q) => some (s.setTasks b q)
      | (some (.addcon c), q) => some ((s.setTasks b q).addcon app b c)

/-- The events of one step. -/
def acceptEvents (s : AcceptState B) : AcceptLabel B → List (AcceptEvent B)
  | .accept fd sock => if fd = SOCKET_ERROR then [] else [.accepted ⟨fd, sock⟩]
  | .getpeername _ | .getsockname _ | .push _ => []
  | .allocBase b =>
      match s.point with
      | .alloc c =>
          if b = own then [.attached b c]
          else if ((s.tasks b).push (.addcon c)).1 then [.posted b c] else []
      | _ => []
  | .run b =>
      match (s.tasks b).popWait with
      | (some (.addcon c), _) => [.ran b c]
      | _ => []

end Machine

/-! ### Every socket has an owner -/

section Accounts

variable {B : Type*}

/-- The descriptor that `HandleAccept` has in its hands. -/
def AcceptPoint.inHand : AcceptPoint → List Int
  | .peer c | .sock c | .alloc c => [c.fd]
  | _ => []

def AcceptEvent.acceptedFd : AcceptEvent B → Option Int
  | .accepted c => some c.fd
  | _ => none

/-- The descriptor that gets an owner, or is closed. -/
def AcceptEvent.ownedFd : AcceptEvent B → Option Int
  | .attached _ c | .posted _ c | .closed c => some c.fd
  | _ => none

def acceptedFds (l : List (AcceptEvent B)) : List Int := l.filterMap AcceptEvent.acceptedFd

def ownedFds (l : List (AcceptEvent B)) : List Int := l.filterMap AcceptEvent.ownedFd

variable [DecidableEq B]

/-- What was posted to the base. -/
def AcceptEvent.postedTo (b : B) : AcceptEvent B → Option AddCon
  | .posted b' c => if b' = b then some c else none
  | _ => none

/-- What the tasks of the base `Attach`ed. -/
def AcceptEvent.ranOn (b : B) : AcceptEvent B → Option AddCon
  | .ran b' c => if b' = b then some c else none
  | _ => none

/-- What was `Attach`ed to the base. -/
def AcceptEvent.attachedTo (b : B) : AcceptEvent B → Option AddCon
  | .attached b' c | .ran b' c => if b' = b then some c else none
  | _ => none

/-- The closures in a queue. -/
def waitingCons (q : SafeQueue LoopTask) : List AddCon :=
  q.items.filterMap fun | .addcon c => some c | .other => none

end Accounts

section Property

variable {B : Type*} [DecidableEq B] (app : App) (own : B) (s : AcceptState B)
  (as : List (AcceptLabel B)) (s' : AcceptState B)

/-- In the run from `s` to `s'` every accepted socket gets exactly one owner or is
closed, and no failure keeps the loop from the sockets behind it. -/
structure EverySocketOwned : Prop where
  /-- each accepted socket is `Attach`ed, posted or closed, once -/
  account : (acceptedFds (Exec.trace (acceptStep app own) (acceptEvents own) s as)).Perm
    (ownedFds (Exec.trace (acceptStep app own) (acceptEvents own) s as))
  /-- each posted closure waits, or has been run, once and in order -/
  once : ∀ b, waitingCons (s.tasks b) ++
      (Exec.trace (acceptStep app own) (acceptEvents own) s as).filterMap
        (AcceptEvent.postedTo b) =
    (Exec.trace (acceptStep app own) (acceptEvents own) s as).filterMap (AcceptEvent.ranOn b) ++
      waitingCons (s'.tasks b)
  /-- `Attach` has been called for what was attached, and for nothing else -/
  attach : ∀ b, s'.bases b =
    ((Exec.trace (acceptStep app own) (acceptEvents own) s as).filterMap
      (AcceptEvent.attachedTo b)).foldl (fun w c => handleAccept app c.fd c.sock w) (s.bases b)
  /-- the loop is left only when `accept` fails -/
  goesOn : Exec.Along (acceptStep app own) (fun s a s' => ∀ r, s'.point = .returned r →
    s.point = .returned r ∨ ∃ sock, a = .accept SOCKET_ERROR sock) s as

/-- The queue takes a task. -/
def SafeQueue.HasRoom {α : Type*} (q : SafeQueue α) : Prop :=
  q.exited = false ∧ (q.capacity = 0 ∨ q.items.length < q.capacity)

instance {α : Type*} (q : SafeQueue α) : Decidable q.HasRoom :=
  inferInstanceAs (Decidable (_ ∧ _))

/-- The answer does not make `HandleAccept` drop the socket: a query succeeds, and
the chosen base is that of the server, or one that takes the task. -/
def KeepsSocket : AcceptLabel B → Prop
  | .getpeername r | .getsockname r => 0 ≤ r
  | .allocBase b => b = own ∨ (s.tasks b).HasRoom
  | _ => True

instance : ∀ a, Decidable (KeepsSocket own s a)
  | .getpeername r | .getsockname r => inferInstanceAs (Decidable (0 ≤ r))
  | .allocBase b => inferInstanceAs (Decidable (b = own ∨ (s.tasks b).HasRoom))
  | .accept .. | .push _ | .run _ => isTrue trivial

end Property

/-! ### One step -/

theorem SafeQueue.push_of_hasRoom {α : Type*} {q : SafeQueue α} {v : α} (h : q.HasRoom) :
    q.push v = (true, { q with items := q.items ++ [v] }) := by
  obtain ⟨hexit, hcap⟩ := h
  apply if_neg
  rintro (hexited | ⟨h0, hfull⟩)
  · exact absurd (hexit.symm.trans hexited) (by decide)
  · rcases hcap with hcap | hcap
    · exact h0 hcap
    · exact absurd hfull (Nat.not_le.mpr hcap)

theorem SafeQueue.push_of_not_hasRoom {α : Type*} {q : SafeQueue α} {v : α} (h : ¬q.HasRoom) :
    q.push v = (false, q) := by
  apply if_pos
  by_cases hexit : q.exited = true
  · exact Or.inl hexit
  · right
    have hcap := not_or.mp (not_and.mp h (Bool.eq_false_iff.mpr hexit))
    exact ⟨hcap.1, Nat.not_lt.mp hcap.2⟩

theorem waitingCons_append (q : SafeQueue LoopTask) (l : List LoopTask) :
    waitingCons { q with items := q.items ++ l } = waitingCons q ++ waitingCons ⟨l, 0, false⟩ :=
  List.filterMap_append

section Step

variable {B : Type*} [DecidableEq B] (app : App) (own : B) (s : AcceptState B)

/-- The descriptors that one step drops. -/
def lostFds (a : AcceptLabel B) : List Int :=
  if KeepsSocket own s a then [] else s.point.inHand

/-- What a step does, with its events and what it drops. -/
inductive AcceptStep : AcceptLabel B → AcceptState B → List (AcceptEvent B) → List Int → Prop
  | fails (sock : Socket) (hp : s.point = .accepting) :
      AcceptStep (.accept SOCKET_ERROR sock) { s with point := .returned true } [] []
  | accepted (c : AddCon) (hp : s.point = .accepting) (hfd : c.fd ≠ SOCKET_ERROR) :
      AcceptStep (.accept c.fd c.sock) { s with point := .peer c } [.accepted c] []
  | peer (c : AddCon) (r : Int) (hp : s.point = .peer c) (hr : 0 ≤ r) :
      AcceptStep (.getpeername r) { s with point := .sock c } [] []
  | noPeer (c : AddCon) (r : Int) (hp : s.point = .peer c) (hr : r < 0) :
      AcceptStep (.getpeername r) { s with point := .accepting } [] [c.fd]
  | sock (c : AddCon) (r : Int) (hp : s.point = .sock c) (hr : 0 ≤ r) :
      AcceptStep (.getsockname r) { s with point := .alloc c } [] []
  | noSock (c : AddCon) (r : Int) (hp : s.point = .sock c) (hr : r < 0) :
      AcceptStep (.getsockname r) { s with point := .accepting } [] [c.fd]
  | attach (c : AddCon) (hp : s.point = .alloc c) :
      AcceptStep (.allocBase own) { s.addcon app own c with point := .accepting }
        [.attached own c] []
  | post (c : AddCon) (b : B) (hp : s.point = .alloc c) (hb : b ≠ own) :
      AcceptStep (.allocBase b) { s.setTasks b
        { s.tasks b with items := (s.tasks b).items ++ [.addcon c] } with point := .accepting }
        [.posted b c] []
  | refuse (c : AddCon) (b : B) (hp : s.point = .alloc c) :
      AcceptStep (.allocBase b) { s with point := .accepting } [] [c.fd]
  | push (b : B) (q : SafeQueue LoopTask) (hq : waitingCons q = waitingCons (s.tasks b)) :
      AcceptStep (.push b) (s.setTasks b q) [] []
  | runOther (b : B) (q : SafeQueue LoopTask) (hq : waitingCons q = waitingCons (s.tasks b)) :
      AcceptStep (.run b) (s.setTasks b q) [] []
  | run (c : AddCon) (b : B) (q : SafeQueue LoopTask)
      (hq : waitingCons (s.tasks b) = c :: waitingCons q) :
      AcceptStep (.run b) ((s.setTasks b q).addcon app b c) [.ran b c] []

variable {app own s} {s' : AcceptState B} {a : AcceptLabel B} {es : List (AcceptEvent B)}
  {lost : List Int}

theorem AcceptState.setTasks_self (s : AcceptState B) (b : B) : s.setTasks b (s.tasks b) = s := by
  rw [AcceptState.setTasks, Function.update_eq_self]

theorem lostFds_of_keeps (h : KeepsSocket own s a) : lostFds own s a = [] := if_pos h

theorem lostFds_of_not_keeps (h : ¬KeepsSocket own s a) : lostFds own s a = s.point.inHand :=
  if_neg h

/-- A step does one of these. -/
theorem AcceptStep.of_acceptStep (hstep : acceptStep app own s a = some s') :
    AcceptStep app own s a s' (acceptEvents own s a) (lostFds own s a) := by
  cases a with
  | accept fd sock =>
      cases hp : s.point <;> simp only [acceptStep, hp, Option.some.injEq, reduceCtorEq] at hstep
      subst hstep
      by_cases hfd : fd = SOCKET_ERROR
      · subst hfd
        exact .fails sock hp
      · simp only [acceptEvents, if_neg hfd]
        exact .accepted ⟨fd, sock⟩ hp hfd
  | getpeername r =>
      cases hp : s.point <;> simp only [acceptStep, hp, Option.some.injEq, reduceCtorEq] at hstep
      subst hstep
      by_cases hr : r < 0
      · rw [if_pos hr, lostFds_of_not_keeps (a := .getpeername r) (Int.not_le.mpr hr), hp]
        exact .noPeer _ r hp hr
      · rw [if_neg hr, lostFds_of_keeps (a := .getpeername r) (Int.not_lt.mp hr)]
        exact .peer _ r hp (Int.not_lt.mp hr)
  | getsockname r =>
      cases hp : s.point <;> simp only [acceptStep, hp, Option.some.injEq, reduceCtorEq] at hstep
      subst hstep
      by_cases hr : r < 0
      · rw [if_pos hr, lostFds_of_not_keeps (a := .getsockname r) (Int.not_le.mpr hr), hp]
        exact .noSock _ r hp hr
      · rw [if_neg hr, lostFds_of_keeps (a := .getsockname r) (Int.not_lt.mp hr)]
        exact .sock _ r hp (Int.not_lt.mp hr)
  | allocBase b =>
      cases hp : s.point <;> simp only [acceptStep, hp, reduceCtorEq] at hstep
      rename_i c
      simp only [acceptEvents, lostFds, KeepsSocket, hp, AcceptPoint.inHand]
      by_cases hb : b = own
      · subst hb
        obtain rfl := Option.some.inj ((if_pos rfl).symm.trans hstep)
        rw [if_pos rfl, if_pos (Or.inl rfl)]
        exact .attach c hp
      · obtain rfl := Option.some.inj ((if_neg hb).symm.trans hstep)
        rw [if_neg hb, AcceptState.safeCall]
        by_cases hroom : (s.tasks b).HasRoom
        · rw [SafeQueue.push_of_hasRoom hroom, if_pos rfl, if_pos (Or.inr hroom)]
          exact .post c b hp hb
        · rw [SafeQueue.push_of_not_hasRoom hroom, if_neg Bool.false_ne_true,
            if_neg (not_or.mpr ⟨hb, hroom⟩), AcceptState.setTasks_self]
          exact .refuse c b hp
  | push b =>
      obtain rfl := Option.some.inj hstep
      apply AcceptStep.push
      rcases SafeQueue.push_cases (q := s.tasks b) (v := LoopTask.other) with hpush | hpush
      · rw [hpush]
      · rw [hpush, waitingCons_append]
        exact List.append_nil _
  | run b =>
      rw [acceptStep] at hstep
      split at hstep
      · cases hstep
      · rcases SafeQueue.popWait_cases (q := s.tasks b) with ⟨-, hpop⟩ | ⟨task, rest, hitems, hpop⟩
        · rw [hpop] at hstep
          cases hstep
        · rw [hpop] at hstep
          rw [acceptEvents, hpop]
          cases task with
          | other =>
              obtain rfl := Option.some.inj hstep
              apply AcceptStep.runOther
              rw [waitingCons, waitingCons, hitems]
              rfl
          | addcon c =>
              obtain rfl := Option.some.inj hstep
              apply AcceptStep.run
              rw [waitingCons, waitingCons, hitems]
              rfl

/-- Where `HandleAccept` drops nothing, it has asked nothing that fails. -/
theorem lostFds_eq_nil_iff (hstep : acceptStep app own s a = some s') :
    lostFds own s a = [] ↔ KeepsSocket own s a := by
  refine ⟨fun hnil => ?_, lostFds_of_keeps⟩
  by_contra hk
  have hlost := AcceptStep.of_acceptStep hstep
  rw [lostFds_of_not_keeps hk] at hnil hlost
  rw [hnil] at hlost
  generalize acceptEvents own s a = es at hlost
  cases hlost with
  | peer c r hp hr => exact hk hr
  | sock c r hp hr => exact hk hr
  | fails | accepted | push | runOther | run => exact hk trivial
  | attach c hp | post c b hp hb => rw [hp] at hnil; cases hnil

/-- **The account of one step.** -/
theorem AcceptStep.account (hstep : AcceptStep app own s a s' es lost) :
    (acceptedFds es ++ s.point.inHand).Perm (ownedFds es ++ s'.point.inHand ++ lost) := by
  cases hstep with
  | fails sock hp => rw [hp]; exact List.Perm.refl _
  | accepted c hp hfd => rw [hp]; exact List.Perm.refl _
  | peer c r hp hr => rw [hp]; exact List.Perm.refl _
  | noPeer c r hp hr => rw [hp]; exact List.Perm.refl _
  | sock c r hp hr => rw [hp]; exact List.Perm.refl _
  | noSock c r hp hr => rw [hp]; exact List.Perm.refl _
  | attach c hp => rw [hp]; exact List.Perm.refl _
  | post c b hp hb => rw [hp]; exact List.Perm.refl _
  | refuse c b hp => rw [hp]; exact List.Perm.refl _
  | push b q hq | runOther b q hq | run c b q hq =>
      show s.point.inHand.Perm (s.point.inHand ++ [])
      rw [List.append_nil]

theorem filterMap_singleton_ite {b d : B} {c : AddCon} {e : AcceptEvent B}
    {f : AcceptEvent B → Option AddCon} (hf : f e = if d = b then some c else none) :
    [e].filterMap f = if d = b then [c] else [] := by
  rw [List.filterMap_cons, hf, List.filterMap_nil]
  by_cases hb : d = b
  · rw [if_pos hb, if_pos hb]
  · rw [if_neg hb, if_neg hb]

/-- What is posted to a base is run there, once and in order. -/
theorem AcceptStep.once (hstep : AcceptStep app own s a s' es lost) (b : B) :
    waitingCons (s.tasks b) ++ es.filterMap (AcceptEvent.postedTo b) =
      es.filterMap (AcceptEvent.ranOn b) ++ waitingCons (s'.tasks b) := by
  have hset : ∀ {d : B} {q : SafeQueue LoopTask} {l m : List AddCon},
      waitingCons (s.tasks d) ++ l = m ++ waitingCons q →
      waitingCons (s.tasks b) ++ (if d = b then l else []) =
        (if d = b then m else []) ++ waitingCons (Function.update s.tasks d q b) := by
    intro d q l m hq
    by_cases hb : d = b
    · subst hb
      rw [if_pos rfl, if_pos rfl, Function.update_self]
      exact hq
    · rw [if_neg hb, if_neg hb, Function.update_of_ne (Ne.symm hb), List.append_nil]
      rfl
  cases hstep with
  | fails | accepted | peer | noPeer | sock | noSock | attach | refuse => exact List.append_nil _
  | post c d hp hb =>
      rw [filterMap_singleton_ite (b := b) (d := d) (c := c) rfl]
      have hpost := hset (l := [c]) (m := []) (waitingCons_append (s.tasks d) [.addcon c]).symm
      rw [ite_self] at hpost
      exact hpost
  | push d q hq | runOther d q hq =>
      have hpush := hset (l := []) (m := []) ((List.append_nil _).trans hq.symm)
      rw [ite_self] at hpush
      exact hpush
  | run c d q hq =>
      rw [filterMap_singleton_ite (b := b) (d := d) (c := c) (f := AcceptEvent.ranOn b) rfl]
      have hrun := hset (l := []) (m := [c]) ((List.append_nil _).trans hq)
      rw [ite_self] at hrun
      exact hrun

/-- A base is changed by what is `Attach`ed to it. -/
theorem AcceptStep.attach_eq (hstep : AcceptStep app own s a s' es lost) (b : B) :
    s'.bases b = (es.filterMap (AcceptEvent.attachedTo b)).foldl
      (fun w c => handleAccept app c.fd c.sock w) (s.bases b) := by
  have hset : ∀ (d : B) (c : AddCon), (s.addcon app d c).bases b =
      (if d = b then [c] else []).foldl (fun w c => handleAccept app c.fd c.sock w)
        (s.bases b) := by
    intro d c
    by_cases hb : d = b
    · subst hb
      rw [if_pos rfl]
      exact Function.update_self ..
    · rw [if_neg hb]
      exact Function.update_of_ne (Ne.symm hb) ..
  cases hstep with
  | fails | accepted | peer | noPeer | sock | noSock | post | refuse | push | runOther => rfl
  | attach c hp =>
      rw [filterMap_singleton_ite (b := b) (d := own) (c := c) rfl]
      exact hset own c
  | run c d q hq =>
      rw [filterMap_singleton_ite (b := b) (d := d) (c := c) rfl]
      exact hset d c

/-- Only a failing `accept` ends the loop. -/
theorem AcceptStep.goesOn (hstep : AcceptStep app own s a s' es lost) {r : Bool}
    (hr : s'.point = .returned r) :
    s.point = .returned r ∨ ∃ sock, a = .accept SOCKET_ERROR sock := by
  cases hstep with
  | fails sock hp => exact Or.inr ⟨sock, rfl⟩
  | push | runOther | run => exact Or.inl hr
  | accepted | peer | noPeer | sock | noSock | attach | post | refuse => cases hr

end Step

/-! ### A whole run -/

section Run

variable {B : Type*} [DecidableEq B] {app : App} {own : B} {s s' : AcceptState B}
  {as : List (AcceptLabel B)}

/-- **The account of a run.**  What was accepted has an owner, is in the hands of
`HandleAccept`, or has been dropped. -/
theorem account_run (hrun : Exec.exec (acceptStep app own) s as = some s') :
    (acceptedFds (Exec.trace (acceptStep app own) (acceptEvents own) s as) ++
        s.point.inHand).Perm
      (ownedFds (Exec.trace (acceptStep app own) (acceptEvents own) s as) ++ s'.point.inHand ++
        Exec.trace (acceptStep app own) (lostFds own) s as) := by
  induction as generalizing s with
  | nil =>
      obtain rfl : s = s' := Option.some.inj hrun
      show s.point.inHand.Perm (s.point.inHand ++ [])
      rw [List.append_nil]
  | cons a as ih =>
      obtain ⟨t, ht, hrest⟩ := Exec.exec_cons_some hrun
      have hstep := (AcceptStep.of_acceptStep ht).account
      have hafter := ih hrest
      rw [List.perm_iff_count] at hstep hafter ⊢
      intro fd
      specialize hstep fd
      specialize hafter fd
      rw [Exec.trace_cons ht, Exec.trace_cons ht]
      simp only [acceptedFds, ownedFds, List.filterMap_append, List.count_append] at *
      omega

/-- What is posted to a base in a run. -/
theorem once_run (hrun : Exec.exec (acceptStep app own) s as = some s') (b : B) :
    waitingCons (s.tasks b) ++
        (Exec.trace (acceptStep app own) (acceptEvents own) s as).filterMap
          (AcceptEvent.postedTo b) =
      (Exec.trace (acceptStep app own) (acceptEvents own) s as).filterMap
          (AcceptEvent.ranOn b) ++ waitingCons (s'.tasks b) := by
  apply Exec.history (I := fun t l => waitingCons (s.tasks b) ++ l.filterMap
    (AcceptEvent.postedTo b) = l.filterMap (AcceptEvent.ranOn b) ++ waitingCons (t.tasks b))
    ?_ hrun
  · exact List.append_nil _
  · intro t a t' l ht hl
    have hstep := (AcceptStep.of_acceptStep ht).once b
    rw [List.filterMap_append, List.filterMap_append, ← List.append_assoc, hl, List.append_assoc,
      List.append_assoc, hstep]

/-- What a run does to a base. -/
theorem attach_run (hrun : Exec.exec (acceptStep app own) s as = some s') (b : B) :
    s'.bases b = ((Exec.trace (acceptStep app own) (acceptEvents own) s as).filterMap
      (AcceptEvent.attachedTo b)).foldl (fun w c => handleAccept app c.fd c.sock w)
        (s.bases b) := by
  apply Exec.history (I := fun t l => t.bases b = (l.filterMap
    (AcceptEvent.attachedTo b)).foldl (fun w c => handleAccept app c.fd c.sock w) (s.bases b))
    ?_ hrun rfl
  intro t a t' l ht hl
  rw [List.filterMap_append, List.foldl_append, ← hl]
  exact (AcceptStep.of_acceptStep ht).attach_eq b

/-- **No accepted socket is leaked, exactly if** no query fails and no chosen base
refuses the task: in a run of `HandleAccept` that stands between two sockets or
has returned, every accepted socket has been `Attach`ed once, posted once to a base
that has run the task once or will, or closed, and the loop has gone on to the next
socket whatever happened. -/
theorem everySocketOwned_iff {listenFd : Int} {bases : B → World}
    {tasks : B → SafeQueue LoopTask}
    (hrun : Exec.exec (acceptStep app own) (.init listenFd bases tasks) as = some s')
    (hbetween : s'.point.inHand = []) :
    EverySocketOwned app own (.init listenFd bases tasks) as s' ↔
      Exec.Along (acceptStep app own) (fun s a _ => KeepsSocket own s a)
        (.init listenFd bases tasks) as := by
  have hacc := account_run hrun
  have hstart : (AcceptState.init listenFd bases tasks).point.inHand = [] := by
    rw [AcceptState.init]
    dsimp only
    split <;> rfl
  rw [hbetween, hstart, List.append_nil, List.append_nil] at hacc
  -- nothing is dropped exactly if every step keeps what it has in hand
  have hlost : Exec.trace (acceptStep app own) (lostFds own) (.init listenFd bases tasks) as = [] ↔
      Exec.Along (acceptStep app own) (fun s a _ => KeepsSocket own s a)
        (.init listenFd bases tasks) as := by
    rw [Exec.trace_eq_nil_iff]
    apply Exec.along_iff (I := fun _ => True) (fun _ _ _ _ _ _ => trivial) ?_ trivial
    exact fun s a s' ht _ => lostFds_eq_nil_iff ht
  rw [← hlost]
  constructor
  · intro h
    apply List.eq_nil_of_length_eq_zero
    have hlen := h.account.length_eq
    have hlen' := hacc.length_eq
    rw [List.length_append] at hlen'
    omega
  · intro hnil
    rw [hnil, List.append_nil] at hacc
    exact ⟨hacc, once_run hrun, attach_run hrun, Exec.along_of_forall
      (fun _ _ _ ht _ hr => (AcceptStep.of_acceptStep ht).goesOn hr) as _⟩

/-- Two bases without connections: that of the server, and another one. -/
def twoBases : Bool → World := fun _ => World.init 3 4

def twoQueues : Bool → SafeQueue LoopTask := fun _ => SafeQueue.new 0

/-- Two sockets, one for each base; the other base runs its task. -/
theorem everySocketOwned_two :
    ∃ s', Exec.exec (acceptStep heartbeatTest false) (.init 4 twoBases twoQueues)
        [.accept 7 (.ofScripts [] [] []), .getpeername 0, .getsockname 0, .allocBase true,
          .accept 8 (.ofScripts [] [] []), .getpeername 0, .getsockname 0, .allocBase false,
          .run true, .accept SOCKET_ERROR (.ofScripts [] [] [])] = some s' ∧
      EverySocketOwned heartbeatTest false (.init 4 twoBases twoQueues)
        [.accept 7 (.ofScripts [] [] []), .getpeername 0, .getsockname 0, .allocBase true,
          .accept 8 (.ofScripts [] [] []), .getpeername 0, .getsockname 0, .allocBase false,
          .run true, .accept SOCKET_ERROR (.ofScripts [] [] [])] s' := by
  refine ⟨_, rfl, ?_⟩
  exact (everySocketOwned_iff (B := Bool) rfl rfl).mpr (by decide +kernel)

/-- A socket whose `getpeername` fails is neither given to anybody nor closed. -/
theorem socket_leaked :
    ∃ s', Exec.exec (acceptStep heartbeatTest false) (.init 4 twoBases twoQueues)
        [.accept 7 (.ofScripts [] [] []), .getpeername (-1),
          .accept SOCKET_ERROR (.ofScripts [] [] [])] = some s' ∧
      s'.point = .returned true ∧
      ¬EverySocketOwned heartbeatTest false (.init 4 twoBases twoQueues)
        [.accept 7 (.ofScripts [] [] []), .getpeername (-1),
          .accept SOCKET_ERROR (.ofScripts [] [] [])] s' := by
  refine ⟨_, rfl, rfl, ?_⟩
  intro h
  have hlen := h.account.length_eq
  exact absurd hlen (by decide +kernel)

end Run

end Libet
