/-
Libet/Lib/Exec.lean

Runs of a deterministic labelled machine.

A machine is a partial step function `step : σ → α → Option σ`; `none` says
that the label is not enabled in the state.  `exec step s as` runs the labels
`as` in order.  The rules of this file are all that the developments above use:

* `Exec.invariant` — what every step preserves holds at the end of every run;
* `Exec.invariant_along` — the same when the steps of the run are only known
  to satisfy a side condition `G` (`Exec.Along`);
* `Exec.along_of_invariant` — what follows from such an invariant about each
  single step holds along the run;
* `Exec.along_iff`, `Exec.along_iff_of` — a run satisfies one condition exactly if
  it satisfies another, if each of its steps does;
* `Exec.relabel` — a run whose steps are steps of another machine under other labels
  is a run of that machine;
* `Exec.simulate` — a run that asks only what can be done gets to its end, and
  does there what a function on related states does;
* `Exec.history`, `Exec.history_along` — a relation between the state and the
  events emitted so far (`Exec.trace`), kept by every step, holds of the whole
  trace;
* `Exec.trace_eq_nil_iff` — a run emits nothing exactly if no step does;
* `Exec.countP_add_rank_le`, `Exec.length_add_rank_le` — where no step raises a
  rank, those that lower it are no more than the rank at the start;
* `Exec.length_add_credit_le` — where some steps raise it by a credit and all
  others lower it, the credits pay for the whole run.

Nothing here knows what the machine does.
-/
import Mathlib.Data.List.Basic
import Mathlib.Logic.Basic

namespace Exec

variable {σ α : Type*}

/-- Run the labels of a list in order; `none` once a label is not enabled. -/
def exec (step : σ → α → Option σ) : σ → List α → Option σ
  | s, [] => some s
  | s, a :: as => (step s a).bind fun s' => exec step s' as

/-- Every step that the run from `s` takes satisfies `G`. -/
def Along (step : σ → α → Option σ) (G : σ → α → σ → Prop) : σ → List α → Prop
  | _, [] => True
  | s, a :: as => ∀ s', step s a = some s' → G s a s' ∧ Along step G s' as

variable {step : σ → α → Option σ}

theorem exec_cons (s : σ) (a : α) (as : List α) :
    exec step s (a :: as) = (step s a).bind fun s' => exec step s' as := rfl

/-- A run of at least one step takes that step first. -/
theorem exec_cons_some {s s' : σ} {a : α} {as : List α}
    (h : exec step s (a :: as) = some s') :
    ∃ t, step s a = some t ∧ exec step t as = some s' :=
  Option.bind_eq_some_iff.mp h

/-- A run in two parts. -/
theorem exec_append (s : σ) (as bs : List α) :
    exec step s (as ++ bs) = (exec step s as).bind fun s' => exec step s' bs := by
  induction as generalizing s with
  | nil => rfl
  | cons a as ih =>
      rw [List.cons_append, exec_cons, exec_cons, Option.bind_assoc]
      congr 1
      funext s'
      exact ih s'

/-- **Invariant rule with a side condition.**  If every step that satisfies
`G` preserves `I`, then `I` holds at the end of every run all of whose steps
satisfy `G`. -/
theorem invariant_along {G : σ → α → σ → Prop} {I : σ → Prop}
    (hstep : ∀ s a s', step s a = some s' → G s a s' → I s → I s') :
    ∀ {as : List α} {s s' : σ}, Along step G s as → exec step s as = some s' →
      I s → I s'
  | [], s, s', _, h, hi => by
      obtain rfl : s = s' := Option.some.inj h
      exact hi
  | a :: as, s, s', hG, h, hi => by
      obtain ⟨t, ht, hrun⟩ := exec_cons_some h
      obtain ⟨hg, hrest⟩ := hG t ht
      exact invariant_along hstep hrest hrun (hstep s a t ht hg hi)

/-- Whether a side condition holds along a run can be computed. -/
instance decidableAlong (G : σ → α → σ → Prop) [∀ s a s', Decidable (G s a s')] :
    ∀ (s : σ) (as : List α), Decidable (Along step G s as)
  | _, [] => isTrue trivial
  | s, a :: as =>
      match h : step s a with
      | none => isTrue fun t ht => absurd (h.symm.trans ht) (by simp)
      | some t =>
          have := decidableAlong G t as
          decidable_of_iff (G s a t ∧ Along step G t as)
            ⟨fun hG t' ht' => by cases h.symm.trans ht'; exact hG, fun hG => hG t h⟩

/-- Steps that satisfy `G` satisfy `H` too, if `H` follows from an invariant
that these steps preserve. -/
theorem along_of_invariant {G H : σ → α → σ → Prop} {I : σ → Prop}
    (hstep : ∀ s a s', step s a = some s' → G s a s' → I s → I s')
    (hH : ∀ s a s', step s a = some s' → G s a s' → I s → H s a s') :
    ∀ {as : List α} {s : σ}, Along step G s as → I s → Along step H s as
  | [], _, _, _ => trivial
  | a :: _, s, hG, hi => fun t ht => by
      obtain ⟨hg, hrest⟩ := hG t ht
      exact ⟨hH s a t ht hg hi, along_of_invariant hstep hH hrest (hstep s a t ht hg hi)⟩

/-- A side condition that every step satisfies is satisfied along every run. -/
theorem along_of_forall {G : σ → α → σ → Prop}
    (hG : ∀ s a s', step s a = some s' → G s a s') :
    ∀ (as : List α) (s : σ), Along step G s as
  | [], _ => trivial
  | _ :: as, _ => fun s' h => ⟨hG _ _ s' h, along_of_forall hG as s'⟩

/-- A side condition on the labels alone. -/
theorem along_of_mem {P : α → Prop} : ∀ {as : List α} (s : σ), (∀ a ∈ as, P a) →
    Along step (fun _ a _ => P a) s as
  | [], _, _ => trivial
  | a :: _, _, h => fun s' _ => ⟨h a List.mem_cons_self,
      along_of_mem s' fun b hb => h b (List.mem_cons_of_mem a hb)⟩

/-- Two side conditions of one run. -/
theorem Along.and {G H : σ → α → σ → Prop} : ∀ {as : List α} {s : σ},
    Along step G s as → Along step H s as →
      Along step (fun s a s' => G s a s' ∧ H s a s') s as
  | [], _, _, _ => trivial
  | _ :: _, _, hG, hH => fun s' hs =>
      ⟨⟨(hG s' hs).1, (hH s' hs).1⟩, (hG s' hs).2.and (hH s' hs).2⟩

/-- A side condition along a run in two parts. -/
theorem Along.append {G : σ → α → σ → Prop} : ∀ {as bs : List α} {s s' : σ},
    Along step G s as → exec step s as = some s' → Along step G s' bs →
      Along step G s (as ++ bs)
  | [], _, s, s', _, h, hG => by
      obtain rfl : s = s' := Option.some.inj h
      exact hG
  | a :: as, _, s, s', hG, h, hG' => by
      obtain ⟨t, ht, hrun⟩ := exec_cons_some h
      intro t' ht'
      obtain rfl : t = t' := Option.some.inj (ht.symm.trans ht')
      exact ⟨(hG t ht).1, (hG t ht).2.append hrun hG'⟩

/-- The second part of a run satisfies what the whole does. -/
theorem Along.of_append {G : σ → α → σ → Prop} : ∀ {as bs : List α} {s s' : σ},
    Along step G s (as ++ bs) → exec step s as = some s' → Along step G s' bs
  | [], _, s, s', hG, h => by
      obtain rfl : s = s' := Option.some.inj h
      exact hG
  | a :: as, _, s, s', hG, h => by
      obtain ⟨t, ht, hrun⟩ := exec_cons_some h
      exact (hG t ht).2.of_append hrun

/-- A side condition that every step satisfies if it satisfies another. -/
theorem Along.imp {G H : σ → α → σ → Prop} (hGH : ∀ s a s', step s a = some s' →
    G s a s' → H s a s') : ∀ {as : List α} {s : σ}, Along step G s as → Along step H s as
  | [], _, _ => trivial
  | _ :: _, s, hG => fun s' hs => ⟨hGH s _ s' hs (hG s' hs).1, (hG s' hs).2.imp hGH⟩

/-- **Exactness rule.**  If, under an invariant that the steps of `G` keep, a
step satisfies `G` exactly if it satisfies `H`, then a run does. -/
theorem along_iff {G H : σ → α → σ → Prop} {I : σ → Prop}
    (hstep : ∀ s a s', step s a = some s' → G s a s' → I s → I s')
    (hiff : ∀ s a s', step s a = some s' → I s → (G s a s' ↔ H s a s')) :
    ∀ {as : List α} {s : σ}, I s → (Along step G s as ↔ Along step H s as)
  | [], _, _ => Iff.rfl
  | a :: as, s, hi => by
      constructor
      · intro hG s' hs
        obtain ⟨hg, hrest⟩ := hG s' hs
        exact ⟨(hiff s a s' hs hi).mp hg,
          (along_iff hstep hiff (hstep s a s' hs hg hi)).mp hrest⟩
      · intro hH s' hs
        obtain ⟨hh, hrest⟩ := hH s' hs
        have hg := (hiff s a s' hs hi).mpr hh
        exact ⟨hg, (along_iff hstep hiff (hstep s a s' hs hg hi)).mpr hrest⟩

/-- The exactness rule for runs whose steps are known to satisfy `B`. -/
theorem along_iff_of {B G H : σ → α → σ → Prop} {I : σ → Prop}
    (hstep : ∀ s a s', step s a = some s' → B s a s' → G s a s' → I s → I s')
    (hiff : ∀ s a s', step s a = some s' → B s a s' → I s → (G s a s' ↔ H s a s'))
    {as : List α} {s : σ} (hB : Along step B s as) (hi : I s) :
    Along step G s as ↔ Along step H s as := by
  have hboth : Along step (fun s a s' => B s a s' ∧ G s a s') s as ↔
      Along step (fun s a s' => B s a s' ∧ H s a s') s as :=
    along_iff (I := I) (fun s a s' ht hg hi => hstep s a s' ht hg.1 hg.2 hi)
      (fun s a s' ht hi => and_congr_right fun hb => hiff s a s' ht hb hi) hi
  exact ⟨fun hG => (hboth.mp (hB.and hG)).imp fun _ _ _ _ h => h.2,
    fun hH => (hboth.mpr (hB.and hH)).imp fun _ _ _ _ h => h.2⟩

/-- **Invariant rule.**  What every step preserves holds at the end of every
run. -/
theorem invariant {I : σ → Prop}
    (hstep : ∀ s a s', step s a = some s' → I s → I s')
    {as : List α} {s s' : σ} (h : exec step s as = some s') (hi : I s) : I s' :=
  invariant_along (G := fun _ _ _ => True)
    (fun s a s' ht _ => hstep s a s' ht)
    (along_of_forall (fun _ _ _ _ => trivial) as s) h hi

/-- **Relabelling rule.**  If, under an invariant, every step that satisfies `G` is
a step of another machine under another label, and satisfies `H` there, then so is a
run. -/
theorem relabel {β : Type*} {step' : σ → β → Option σ} {f : α → β} {G : σ → α → σ → Prop}
    {H : σ → β → σ → Prop} {I : σ → Prop}
    (hstep : ∀ s a s', step s a = some s' → G s a s' → I s →
      step' s (f a) = some s' ∧ H s (f a) s' ∧ I s') :
    ∀ {as : List α} {s s' : σ}, Along step G s as → exec step s as = some s' → I s →
      exec step' s (as.map f) = some s' ∧ Along step' H s (as.map f)
  | [], _, _, _, h, _ => ⟨h, trivial⟩
  | a :: as, s, s', hG, h, hi => by
      obtain ⟨t, ht, hrun⟩ := exec_cons_some h
      obtain ⟨hg, hrest⟩ := hG t ht
      obtain ⟨ht', hh, hit⟩ := hstep s a t ht hg hi
      obtain ⟨hrun', hH⟩ := relabel hstep hrest hrun hit
      refine ⟨?_, fun t' h' => ?_⟩
      · rw [List.map_cons, exec_cons, ht']
        exact hrun'
      · obtain rfl : t = t' := Option.some.inj (ht'.symm.trans h')
        exact ⟨hh, hH⟩

/-- **Rank rule.**  If, under an invariant, no step that satisfies `G` raises the
rank and every one with a label of `p` lowers it, then a run of such steps has at
most as many labels of `p` as the rank has gone down. -/
theorem countP_add_rank_le {G : σ → α → σ → Prop} {I : σ → Prop} (rank : σ → Nat) (p : α → Bool)
    (hstep : ∀ s a s', step s a = some s' → G s a s' → I s →
      I s' ∧ rank s' + (if p a then 1 else 0) ≤ rank s) :
    ∀ {as : List α} {s s' : σ}, Along step G s as → exec step s as = some s' → I s →
      as.countP p + rank s' ≤ rank s
  | [], s, s', _, h, _ => by
      obtain rfl : s = s' := Option.some.inj h
      exact Nat.le_of_eq (Nat.zero_add _)
  | a :: as, s, s', hG, h, hi => by
      obtain ⟨t, ht, hrun⟩ := exec_cons_some h
      obtain ⟨hg, hrest⟩ := hG t ht
      obtain ⟨hit, hle⟩ := hstep s a t ht hg hi
      have hle' := countP_add_rank_le rank p hstep hrest hrun hit
      rw [List.countP_cons]
      omega

/-- If every step lowers the rank, a run is no longer than the rank has gone down. -/
theorem length_add_rank_le {G : σ → α → σ → Prop} {I : σ → Prop} (rank : σ → Nat)
    (hstep : ∀ s a s', step s a = some s' → G s a s' → I s → I s' ∧ rank s' < rank s)
    {as : List α} {s s' : σ} (hG : Along step G s as) (h : exec step s as = some s') (hi : I s) :
    as.length + rank s' ≤ rank s := by
  have hle := countP_add_rank_le rank (fun _ => true) hstep hG h hi
  rwa [List.countP_true] at hle

/-- **Credit rule.**  `I s n` says that `s` has a rank of `n`.  If every step lowers the
rank, apart from a credit of `c` that each label of `p` brings, then a run is no longer
than the rank at its start and the credits that it brings. -/
theorem length_add_credit_le {I : σ → Nat → Prop} (c : Nat) (p : α → Bool)
    (hstep : ∀ s a s' n, step s a = some s' → I s n →
      ∃ n', I s' n' ∧ n' + 1 ≤ n + (if p a then c else 0)) :
    ∀ {as : List α} {s s' : σ} {n : Nat}, exec step s as = some s' → I s n →
      ∃ n', I s' n' ∧ as.length + n' ≤ n + c * as.countP p
  | [], s, s', n, h, hi => by
      obtain rfl : s = s' := Option.some.inj h
      exact ⟨n, hi, Nat.le_of_eq (Nat.zero_add n)⟩
  | a :: as, s, s', n, h, hi => by
      obtain ⟨t, ht, hrun⟩ := exec_cons_some h
      obtain ⟨m, him, hle⟩ := hstep s a t n ht hi
      obtain ⟨n', hin', hle'⟩ := length_add_credit_le c p hstep hrun him
      refine ⟨n', hin', ?_⟩
      have hpaid : c * (a :: as).countP p = c * as.countP p + (if p a then c else 0) := by
        rw [List.countP_cons, Nat.mul_add]
        congr 1
        split
        · exact Nat.mul_one c
        · rfl
      rw [hpaid, List.length_cons]
      omega

/-! ### Runs that cannot fail -/

/-- Of every state that the run comes to, it asks only what `A` allows there. -/
def Respects (step : σ → α → Option σ) (A : σ → α → Prop) : σ → List α → Prop
  | _, [] => True
  | s, a :: as => A s a ∧ ∀ s', step s a = some s' → Respects step A s' as

/-- What a run asks is allowed, step by step. -/
theorem Respects.along {A : σ → α → Prop} : ∀ {as : List α} {s : σ},
    Respects step A s as → Along step (fun s a _ => A s a) s as
  | [], _, _ => trivial
  | _ :: _, _, h => fun s' hs => ⟨h.1, (h.2 s' hs).along⟩

/-- A run in two parts asks what is allowed, if both parts do. -/
theorem Respects.append {A : σ → α → Prop} : ∀ {as bs : List α} {s s' : σ},
    Respects step A s as → exec step s as = some s' → Respects step A s' bs →
      Respects step A s (as ++ bs)
  | [], _, s, s', _, h, hr => by
      obtain rfl : s = s' := Option.some.inj h
      exact hr
  | a :: as, _, s, s', hr, h, hr' => by
      obtain ⟨t, ht, hrun⟩ := exec_cons_some h
      refine ⟨hr.1, fun t' ht' => ?_⟩
      obtain rfl : t = t' := Option.some.inj (ht.symm.trans ht')
      exact (hr.2 t ht).append hrun hr'

/-- Whether a run asks only what is allowed can be computed. -/
instance decidableRespects (A : σ → α → Prop) [∀ s a, Decidable (A s a)] :
    ∀ (s : σ) (as : List α), Decidable (Respects step A s as)
  | _, [] => isTrue trivial
  | s, a :: as =>
      match h : step s a with
      | none => decidable_of_iff (A s a)
          ⟨fun ha => ⟨ha, fun t ht => absurd (h.symm.trans ht) (by simp)⟩, fun hr => hr.1⟩
      | some t =>
          have := decidableRespects A t as
          decidable_of_iff (A s a ∧ Respects step A t as)
            ⟨fun hr => ⟨hr.1, fun t' ht' => by cases h.symm.trans ht'; exact hr.2⟩,
              fun hr => ⟨hr.1, hr.2 t h⟩⟩

/-- **Total simulation.**  If every label that `A` allows can be taken, and `f`
does to the related states what the step does, then a run that respects `A` gets
to its end, and to a state that is related to that of `f`. -/
theorem simulate {τ : Type*} {A : σ → α → Prop} {R : σ → τ → Prop} {f : τ → α → τ}
    (hstep : ∀ s a t, A s a → R s t → ∃ s', step s a = some s' ∧ R s' (f t a)) :
    ∀ {as : List α} {s : σ} {t : τ}, Respects step A s as → R s t →
      ∃ s', exec step s as = some s' ∧ R s' (as.foldl f t)
  | [], s, _, _, hr => ⟨s, rfl, hr⟩
  | a :: as, s, t, ⟨ha, hrest⟩, hr => by
      obtain ⟨s₁, hs₁, hr₁⟩ := hstep s a t ha hr
      obtain ⟨s', hs', hr'⟩ := simulate hstep (hrest s₁ hs₁) hr₁
      refine ⟨s', ?_, hr'⟩
      rw [exec_cons, hs₁]
      exact hs'

/-! ### The events of a run -/

variable {β : Type*}

/-- What the steps of a run emit, in order. -/
def trace (step : σ → α → Option σ) (out : σ → α → List β) : σ → List α → List β
  | _, [] => []
  | s, a :: as =>
      match step s a with
      | none => []
      | some s' => out s a ++ trace step out s' as

variable {out : σ → α → List β}

theorem trace_cons {s s' : σ} {a : α} (h : step s a = some s') (as : List α) :
    trace step out s (a :: as) = out s a ++ trace step out s' as := by
  simp only [trace, h]

/-- The events of a run in two parts. -/
theorem trace_append {as : List α} {s s' : σ} (h : exec step s as = some s') (bs : List α) :
    trace step out s (as ++ bs) = trace step out s as ++ trace step out s' bs := by
  induction as generalizing s with
  | nil =>
      obtain rfl : s = s' := Option.some.inj h
      rfl
  | cons a as ih =>
      obtain ⟨t, ht, hrun⟩ := exec_cons_some h
      rw [List.cons_append, trace_cons ht, trace_cons ht, ih hrun, List.append_assoc]

/-- What a function of the events that goes through a run makes of them. -/
theorem trace_hom {γ : Type*} {out' : σ → α → List γ} {f : List β → List γ} (hnil : f [] = [])
    (happend : ∀ l l', f (l ++ l') = f l ++ f l')
    (hout : ∀ s a s', step s a = some s' → out' s a = f (out s a)) :
    ∀ (as : List α) (s : σ), trace step out' s as = f (trace step out s as)
  | [], _ => hnil.symm
  | a :: as, s => by
      cases hs : step s a with
      | none => rw [trace, trace, hs, hnil]
      | some t =>
          rw [trace_cons hs, trace_cons hs, happend, hout s a t hs, trace_hom hnil happend hout as t]

/-- A run emits nothing exactly if none of its steps does. -/
theorem trace_eq_nil_iff : ∀ {as : List α} {s : σ},
    trace step out s as = [] ↔ Along step (fun s a _ => out s a = []) s as
  | [], _ => ⟨fun _ => trivial, fun _ => rfl⟩
  | a :: as, s => by
      cases hs : step s a with
      | none =>
          rw [trace, hs]
          exact ⟨fun _ t ht => absurd (hs.symm.trans ht) (by simp), fun _ => rfl⟩
      | some t =>
          rw [trace_cons hs, List.append_eq_nil_iff, trace_eq_nil_iff]
          constructor
          · intro h t' ht'
            obtain rfl : t = t' := Option.some.inj (hs.symm.trans ht')
            exact h
          · exact fun h => h t hs

/-- **History rule.**  If every step that satisfies `G` keeps `I` between the
state and the events so far, then `I` holds at the end of every run all of
whose steps satisfy `G`. -/
theorem history_along {G : σ → α → σ → Prop} {I : σ → List β → Prop}
    (hstep : ∀ s a s' l, step s a = some s' → G s a s' → I s l → I s' (l ++ out s a)) :
    ∀ {as : List α} {s s' : σ} {l : List β}, Along step G s as →
      exec step s as = some s' → I s l → I s' (l ++ trace step out s as)
  | [], s, s', l, _, h, hi => by
      obtain rfl : s = s' := Option.some.inj h
      rw [trace, List.append_nil]
      exact hi
  | a :: as, s, s', l, hG, h, hi => by
      obtain ⟨t, ht, hrun⟩ := exec_cons_some h
      obtain ⟨hg, hrest⟩ := hG t ht
      rw [trace_cons ht, ← List.append_assoc]
      exact history_along hstep hrest hrun (hstep s a t l ht hg hi)

/-- The history rule where every step keeps `I`. -/
theorem history {I : σ → List β → Prop}
    (hstep : ∀ s a s' l, step s a = some s' → I s l → I s' (l ++ out s a))
    {as : List α} {s s' : σ} (h : exec step s as = some s') (hi : I s []) :
    I s' (trace step out s as) :=
  history_along (G := fun _ _ _ => True) (fun s a s' l ht _ => hstep s a s' l ht)
    (along_of_forall (fun _ _ _ _ => trivial) as s) h hi

end Exec
