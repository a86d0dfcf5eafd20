/-
Libet/Runs.lean

Runs of an event base.

A run starts with `World.init` and takes `worldStep`s.  `Good` is what every
reachable world satisfies: its buffers are well formed and its hub is settled.
With it the rule for hub steps becomes a rule for runs (`ok_of_exec`): a property
of the hub that survives the moments of a step holds in every world that a run
reaches, whatever the caller's code does.
-/
import Libet.HubRule
import Libet.Refine

namespace Libet

variable {app : App} {w w' : World} {a : Input} {as : List Input}
variable {Twice : ConnId → Prop} {Ok : Hub → Prop} {Shut : ConnId → Hub → Prop}

/-- What holds of every world between two events. -/
structure World.Good (w : World) : Prop where
  refines : Refines w w.hub
  settled : w.hub.Settled

/-- A property that survives the moments of a hub step survives an event. -/
theorem ok_of_worldStep (r : Hub.Rule app.slots Twice Ok Shut)
    (hstep : worldStep app w a = some w') (hw : w.Good) (hok : Ok w.hub)
    (htwice : ∀ i, a = .readable i → Twice i ∨ ¬ Hub.BadBurst app.plat w.hub i) :
    Ok w'.hub := by
  have hsim := (worldStep_refines hstep hw.refines).hub
  cases hact : a.action w with
  | none =>
      rw [hact] at hsim
      rw [hsim]
      exact hok
  | some b =>
      rw [hact] at hsim
      rw [hsim]
      apply r.step hok hw.settled
      intro i hb
      subst hb
      cases a with
      | readable j =>
          cases hact
          exact htwice i rfl
      | accept fd recvs sends selects => cases hact
      | writable j => cases hact
      | task =>
          obtain ⟨j, -, heq⟩ := Option.map_eq_some_iff.mp hact
          cases heq
      | user op => cases hact
      | tick now => cases hact

theorem good_of_worldStep (hstep : worldStep app w a = some w') (hw : w.Good) : w'.Good := by
  refine ⟨?_, ok_of_worldStep (Hub.settled_rule app.slots) hstep hw hw.settled
    fun _ _ => Or.inl trivial⟩
  have h := worldStep_refines hstep hw.refines
  have heq := h.hub
  rw [← heq] at h
  exact h

theorem good_of_exec (h : Exec.exec (worldStep app) w as = some w') (hw : w.Good) : w'.Good :=
  Exec.invariant (fun _ _ _ => good_of_worldStep) h hw

theorem good_init (wakeupFd listenFd : Int) : (World.init wakeupFd listenFd).Good where
  refines := ⟨rfl, fun _ => Buffer.wf_new, fun _ => Nat.zero_le _⟩
  settled := ⟨fun _ => rfl, fun _ h => by cases h⟩

/-- A property of the hub that survives the moments of a step holds in every
world that a run reaches. -/
theorem ok_of_exec (r : Hub.Rule app.slots (fun _ => True) Ok Shut)
    (h : Exec.exec (worldStep app) w as = some w') (hw : w.Good) (hok : Ok w.hub) :
    Ok w'.hub :=
  (Exec.invariant (I := fun w => w.Good ∧ Ok w.hub)
    (fun _ _ _ hstep hw => ⟨good_of_worldStep hstep hw.1,
      ok_of_worldStep r hstep hw.1 hw.2 fun _ _ => Or.inl trivial⟩) h ⟨hw, hok⟩).2

end Libet
