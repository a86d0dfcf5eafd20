/-
Libet/SetUp.lean

The sockets that bases and servers are set up with.

`EventBase::Init` calls `CreatePipe`, which makes three sockets, closes one of them
and returns the other two; whatever fails, it jumps to `clean`, where all of the
three that it has are closed.  `startServer` calls `Bind`, which makes the listening
socket; where one of the calls behind `::socket` fails, it returns `false` and the
socket stays open.  `~TcpServer` closes the socket of a server.

A socket is held from the call that returns it to the `closesocket` that closes it,
or whose result nobody looks at.  `setUp_of_run` says whose the held sockets are.
-/
import Libet.Lib.Exec
import Libet.Poller

namespace Libet

/-! ### The two functions -/

/-- Where `CreatePipe` or `Bind` stands: at which call, and with which sockets. -/
inductive SetUpPoint
  /-- in neither of them -/
  | idle
  | socket
  | bind (tcp : Int)
  | listen (tcp : Int)
  | getsockname (tcp : Int)
  | socket1 (tcp : Int)
  | connect (tcp tcp1 : Int)
  | accept (tcp tcp1 : Int)
  | closesocket (tcp tcp1 tcp2 : Int)
  /-- behind `clean`, with the sockets that are still to be closed -/
  | clean (fds : List Int)
  /-- the calls of `Bind` on `listenFd` -/
  | listenSocket
  | setNonBlocking (listenFd : Int)
  | bindAddr (listenFd : Int)
  | startListen (listenFd : Int)
  deriving DecidableEq, Repr

namespace SetUpPoint

/-- `goto clean`, where nothing is done if there is no socket. -/
def goClean : List Int → SetUpPoint
  | [] => .idle
  | fd :: fds => .clean (fd :: fds)

/-- The sockets that the function has in its hands. -/
def inHand : SetUpPoint → List Int
  | .idle | .socket | .listenSocket => []
  | .bind tcp | .listen tcp | .getsockname tcp | .socket1 tcp => [tcp]
  | .connect tcp tcp1 | .accept tcp tcp1 => [tcp, tcp1]
  | .closesocket tcp tcp1 tcp2 => [tcp, tcp2, tcp1]
  | .clean fds => fds
  | .setNonBlocking listenFd | .bindAddr listenFd | .startListen listenFd => [listenFd]

@[simp] theorem inHand_goClean (fds : List Int) : (goClean fds).inHand = fds := by
  cases fds <;> rfl

end SetUpPoint

/-- The sockets that are held, the two `m_wakeupFds` of each base that has them, and
the listening socket of each server. -/
structure SetUp where
  point : SetUpPoint
  held : List Int
  pipes : List (Int × Int)
  servers : List Int
  deriving DecidableEq, Repr

inductive SetUpLabel
  /-- `EventBase::Init`, and what `WSAStartup` returns -/
  | newBase (r : Int)
  /-- `TcpServer::startServer` -/
  | startServer
  /-- `~TcpServer` of the server with this socket -/
  | deleteServer (listenFd : Int)
  /-- what the call returns at which the function stands -/
  | result (r : Int)
  deriving DecidableEq, Repr

namespace SetUp

/-- Nothing has been set up. -/
def init : SetUp := ⟨.idle, [], [], []⟩

/-- The call returns a socket, or fails. -/
def opens (s : SetUp) (r : Int) (next : Int → SetUpPoint) (fds : List Int) : SetUp :=
  if r = SOCKET_ERROR then { s with point := .goClean fds }
  else { s with point := next r, held := r :: s.held }

/-- The call goes well, or fails. -/
def calls (s : SetUp) (r : Int) (next : SetUpPoint) (fds : List Int) : SetUp :=
  if r = SOCKET_ERROR then { s with point := .goClean fds } else { s with point := next }

end SetUp

/-- One step. -/
def setUpStep (s : SetUp) : SetUpLabel → Option SetUp
  | .newBase r =>
      match s.point with
      | .idle => some (if r ≠ 0 then s else { s with point := .socket })
      | _ => none
  | .startServer =>
      match s.point with
      | .idle => some { s with point := .listenSocket }
      | _ => none
  | .deleteServer listenFd =>
      match s.point with
      | .idle =>
          if listenFd ∈ s.servers then
            some { s with servers := s.servers.erase listenFd, held := s.held.erase listenFd }
          else none
      | _ => none
  | .result r =>
      match s.point with
      | .idle => none
      | .socket => some (s.opens r .bind [])
      | .bind tcp => some (s.calls r (.listen tcp) [tcp])
      | .listen tcp => some (s.calls r (.getsockname tcp) [tcp])
      | .getsockname tcp => some (s.calls r (.socket1 tcp) [tcp])
      | .socket1 tcp => some (s.opens r (.connect tcp) [tcp])
      | .connect tcp tcp1 => some (s.calls r (.accept tcp tcp1) [tcp, tcp1])
      | .accept tcp tcp1 => some (s.opens r (.closesocket tcp tcp1) [tcp, tcp1])
      | .closesocket tcp tcp1 tcp2 =>
          if r = SOCKET_ERROR then some { s with point := .goClean [tcp, tcp2, tcp1] }
          else some { s with point := .idle, held := s.held.erase tcp
                             pipes := (tcp1, tcp2) :: s.pipes }
      | .clean [] => none
      | .clean (fd :: fds) => some { s with point := .goClean fds, held := s.held.erase fd }
      | .listenSocket => some (s.opens r .setNonBlocking [])
      | .setNonBlocking listenFd =>
          some { s with point := if r ≠ 0 then .idle else .bindAddr listenFd }
      | .bindAddr listenFd =>
          some { s with point := if r = SOCKET_ERROR then .idle else .startListen listenFd }
      | .startListen listenFd =>
          if r = SOCKET_ERROR then some { s with point := .idle }
          else some { s with point := .idle, servers := listenFd :: s.servers }

/-- The sockets that `closesocket` is called for. -/
def closedBy (s : SetUp) : SetUpLabel → List Int
  | .deleteServer listenFd => [listenFd]
  | .result _ =>
      match s.point with
      | .closesocket tcp _ _ => [tcp]
      | .clean (fd :: _) => [fd]
      | _ => []
  | _ => []

/-- The socket that a `Bind` drops that fails. -/
def droppedBy (s : SetUp) : SetUpLabel → List Int
  | .result r =>
      match s.point with
      | .setNonBlocking listenFd => if r ≠ 0 then [listenFd] else []
      | .bindAddr listenFd | .startListen listenFd => if r = SOCKET_ERROR then [listenFd] else []
      | _ => []
  | _ => []

/-! ### Whose the sockets are -/

namespace SetUp

/-- The sockets of those that have one. -/
def owned (s : SetUp) : List Int :=
  s.point.inHand ++ s.pipes.flatMap (fun p => [p.1, p.2]) ++ s.servers

variable {s s' : SetUp} {a : SetUpLabel} {dropped : List Int}

/-- Every held socket has an owner, or has been dropped. -/
def Account (s : SetUp) (dropped : List Int) : Prop := s.held.Perm (s.owned ++ dropped)

/-- What a step does to the sockets. -/
inductive Moves (s s' : SetUp) : List Int → List Int → Prop
  | opens (fd : Int) (hheld : s'.held = fd :: s.held) (howned : s'.owned.Perm (fd :: s.owned)) :
      Moves s s' [] []
  | keeps {drop closed : List Int} (hheld : s'.held = s.held)
      (howned : (s'.owned ++ drop).Perm s.owned) (hclosed : ∀ fd ∈ closed, fd ∈ s.owned) :
      Moves s s' drop closed
  | closes (fd : Int) (hheld : s'.held = s.held.erase fd)
      (howned : (fd :: s'.owned).Perm s.owned) : Moves s s' [] [fd]

theorem Account.moves (h : s.Account dropped) {drop closed : List Int}
    (hmoves : s.Moves s' drop closed) : s'.Account (dropped ++ drop) := by
  rw [Account] at h ⊢
  cases hmoves with
  | opens fd hheld howned =>
      rw [hheld, List.append_nil]
      exact (h.cons fd).trans (howned.symm.append_right dropped)
  | keeps hheld howned =>
      rw [hheld]
      refine h.trans ((howned.symm.append_right dropped).trans ?_)
      rw [List.append_assoc]
      exact List.perm_append_comm.append_left _
  | closes fd hheld howned =>
      rw [hheld, List.append_nil]
      have h' : s.held.Perm (fd :: (s'.owned ++ dropped)) :=
        h.trans (howned.symm.append_right dropped)
      have herase := h'.erase fd
      rwa [List.erase_cons_head] at herase

/-- Only sockets that are held are closed. -/
theorem Account.closed (h : s.Account dropped) {drop closed : List Int}
    (hmoves : s.Moves s' drop closed) : ∀ fd ∈ closed, fd ∈ s.held := by
  have hheld : ∀ fd ∈ s.owned, fd ∈ s.held := fun fd hfd =>
    h.symm.subset (List.mem_append_left dropped hfd)
  cases hmoves with
  | opens => exact nofun
  | keeps _ _ hclosed => exact fun fd hfd => hheld fd (hclosed fd hfd)
  | closes fd _ howned =>
      intro fd' hfd'
      rw [List.mem_singleton.mp hfd']
      exact hheld fd (howned.subset List.mem_cons_self)

/-- The point moves on with the same sockets. -/
theorem Moves.on (hpoint : s'.point.inHand.Perm s.point.inHand) (hheld : s'.held = s.held)
    (hpipes : s'.pipes = s.pipes) (hservers : s'.servers = s.servers) : s.Moves s' [] [] := by
  refine .keeps hheld ?_ nofun
  rw [List.append_nil, owned, owned, hpipes, hservers]
  exact (hpoint.append_right _).append_right _

/-- A call that fails leaves what the function has to `clean`. -/
theorem moves_calls {r : Int} {next : SetUpPoint} {fds : List Int}
    (hnext : next.inHand = fds) (hfds : s.point.inHand = fds) :
    s.Moves (s.calls r next fds) [] [] := by
  rw [calls]
  split
  · exact .on (by rw [SetUpPoint.inHand_goClean, hfds]) rfl rfl rfl
  · exact .on (by rw [hnext, hfds]) rfl rfl rfl

theorem moves_opens {r : Int} {next : Int → SetUpPoint} {fds : List Int}
    (hnext : ∀ fd, (next fd).inHand.Perm (fd :: fds)) (hfds : s.point.inHand = fds) :
    s.Moves (s.opens r next fds) [] [] := by
  rw [opens]
  split
  · exact .on (by rw [SetUpPoint.inHand_goClean, hfds]) rfl rfl rfl
  · refine .opens r rfl ?_
    rw [owned, owned, hfds]
    exact ((hnext r).append_right _).append_right _

/-- **What one step does to the sockets.** -/
theorem moves_of_setUpStep (hstep : setUpStep s a = some s') :
    s.Moves s' (droppedBy s a) (closedBy s a) := by
  obtain ⟨point, held, pipes, servers⟩ := s
  cases a with
  | newBase r =>
      cases point <;> cases hstep
      split <;> exact .on (List.Perm.refl _) rfl rfl rfl
  | startServer =>
      cases point <;> cases hstep
      exact .on (List.Perm.refl _) rfl rfl rfl
  | deleteServer listenFd =>
      cases point <;> simp only [setUpStep, reduceCtorEq] at hstep
      split at hstep
      · rename_i hmem
        cases hstep
        refine .closes listenFd rfl ?_
        show (listenFd :: (([] ++ _) ++ _)).Perm _
        exact (List.perm_middle.symm.trans
          ((List.perm_cons_erase hmem).symm.append_left _))
      · cases hstep
  | result r =>
      cases point with
      | idle => cases hstep
      | socket =>
          cases hstep
          exact moves_opens (fun fd => List.Perm.refl _) rfl
      | bind tcp | listen tcp | getsockname tcp | connect tcp tcp1 =>
          cases hstep
          exact moves_calls rfl rfl
      | socket1 tcp =>
          cases hstep
          exact moves_opens (fun fd => List.Perm.swap ..) rfl
      | accept tcp tcp1 =>
          cases hstep
          exact moves_opens (fun fd => List.Perm.swap ..) rfl
      | closesocket tcp tcp1 tcp2 =>
          simp only [setUpStep] at hstep
          split at hstep
          · cases hstep
            refine .keeps rfl ?_ ?_
            · rw [droppedBy, List.append_nil]
              exact List.Perm.refl _
            · intro fd hfd
              rw [List.mem_singleton.mp hfd]
              exact List.mem_cons_self
          · cases hstep
            exact .closes tcp rfl ((List.Perm.swap ..).append_right _ |>.cons tcp)
      | clean fds =>
          cases fds with
          | nil => cases hstep
          | cons fd fds =>
              cases hstep
              refine .closes fd rfl ?_
              simp only [owned, SetUpPoint.inHand_goClean]
              exact List.Perm.refl _
      | listenSocket =>
          cases hstep
          exact moves_opens (fun fd => List.Perm.refl _) rfl
      | setNonBlocking listenFd =>
          cases hstep
          simp only [droppedBy]
          split
          · refine .keeps rfl ?_ nofun
            exact List.perm_append_comm
          · exact .on (List.Perm.refl _) rfl rfl rfl
      | bindAddr listenFd =>
          cases hstep
          simp only [droppedBy]
          split
          · refine .keeps rfl ?_ nofun
            exact List.perm_append_comm
          · exact .on (List.Perm.refl _) rfl rfl rfl
      | startListen listenFd =>
          simp only [setUpStep] at hstep
          simp only [droppedBy]
          split at hstep
          · rename_i hr
            cases hstep
            rw [if_pos hr]
            refine .keeps rfl ?_ nofun
            exact List.perm_append_comm
          · rename_i hr
            cases hstep
            rw [if_neg hr]
            refine .keeps rfl ?_ nofun
            rw [List.append_nil]
            exact List.perm_middle

/-- **Whose the sockets are.**  However bases are made and servers started and deleted,
and whatever the operating system returns: the sockets that are held are the two of each
base whose `CreatePipe` has returned a pipe, that of each server, those of the function
that is at work, and one for each `Bind` that has failed behind `::socket`, which nobody
closes.  `closesocket` is called for sockets that are held, and for no others. -/
theorem setUp_of_run {as : List SetUpLabel} (h : Exec.exec setUpStep init as = some s) :
    s.held.Perm (s.point.inHand ++ s.pipes.flatMap (fun p => [p.1, p.2]) ++ s.servers ++
        Exec.trace setUpStep droppedBy init as) ∧
      Exec.Along setUpStep (fun s a _ => ∀ fd ∈ closedBy s a, fd ∈ s.held) init as := by
  have hinit : init.Account [] := List.Perm.refl _
  constructor
  · exact Exec.history (I := Account)
      (fun _ _ _ _ hstep h => h.moves (moves_of_setUpStep hstep)) h hinit
  · refine Exec.along_of_invariant (G := fun _ _ _ => True)
      (I := fun s => ∃ dropped, s.Account dropped) ?_ ?_
      (Exec.along_of_forall (fun _ _ _ _ => trivial) as init) ⟨[], hinit⟩
    · rintro s a s' hstep - ⟨dropped, h⟩
      exact ⟨_, h.moves (moves_of_setUpStep hstep)⟩
    · rintro s a s' hstep - ⟨dropped, h⟩
      exact h.closed (moves_of_setUpStep hstep)

/-- The first `CreatePipe` fails at `::accept`, and the second returns a pipe.  The port
is taken when the first server is started; the second one is deleted at the end. -/
def portTaken : List SetUpLabel :=
  [.newBase 0, .result 3, .result 0, .result 0, .result 0, .result 4, .result 0,
    .result SOCKET_ERROR, .result 0, .result 0,
    .newBase 0, .result 3, .result 0, .result 0, .result 0, .result 4, .result 0, .result 5,
    .result 0,
    .startServer, .result 3, .result 0, .result SOCKET_ERROR,
    .startServer, .result 6, .result 0, .result 0, .result 0, .deleteServer 6]

theorem setUp_of_run_portTaken :
    Exec.exec setUpStep init portTaken = some ⟨.idle, [3, 5, 4], [(4, 5)], []⟩ ∧
      [3, 5, 4].Perm ([4, 5] ++ Exec.trace setUpStep droppedBy init portTaken) ∧
      Exec.trace setUpStep droppedBy init portTaken = [3] := by
  have hrun : Exec.exec setUpStep init portTaken = some ⟨.idle, [3, 5, 4], [(4, 5)], []⟩ := by
    decide
  exact ⟨hrun, (setUp_of_run hrun).1, by decide⟩

end SetUp

end Libet
