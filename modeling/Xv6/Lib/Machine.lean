import Mathlib.Algebra.GroupWithZero.Nat
import Mathlib.Algebra.Ring.Int.Defs
import Mathlib.Data.List.Infix

/-!
# Runs of a machine

A machine has a partial step function: in a state, an event either stops it
with a reason or gives an output and the next state. `exec` is a whole run.
The rules here are the ones every safety proof uses: what each step keeps,
under a condition on the state before the step and the event, every run
keeps whose steps all meet the condition.
-/

namespace Machine

variable {S E O H : Type} (step : S → E → Except H (O × S))

/-- **The state at the end of a run**, or why the run stops before it: a step that cannot be made
stops it. -/
def exec : S → List E → Except H S
  | s, [] => .ok s
  | s, e :: es => do
    let (_, s) ← step s e
    exec s es

/-- **Every step of the run meets the condition** `C`, which may look at the
event and at the state before the step. -/
def Along (C : S → E → Prop) : S → List E → Prop
  | _, [] => True
  | s, e :: es => C s e ∧ ∀ o s', step s e = .ok (o, s') → Along C s' es

instance decidableAlong (C : S → E → Prop) [∀ s e, Decidable (C s e)] :
    (s : S) → (es : List E) → Decidable (Along step C s es)
  | _, [] => .isTrue trivial
  | s, e :: es =>
    match h : step s e with
    | .error _ => decidable_of_iff (C s e) ⟨fun hC => ⟨hC, fun _ _ h' => nomatch h.symm.trans h'⟩, And.left⟩
    | .ok (_, s') =>
      have := decidableAlong C s' es
      decidable_of_iff (C s e ∧ Along step C s' es)
        ⟨fun hC => ⟨hC.1, fun _ _ h' => by cases h.symm.trans h'; exact hC.2⟩,
          fun hC => ⟨hC.1, hC.2 _ _ h⟩⟩

section guards

variable {c : Prop} [Decidable c] {x : Except H S} {e : H} {s : S}

/-- A check that has passed. -/
theorem ok_of_ite (h : (if c then x else .error e) = .ok s) : c ∧ x = .ok s := by
  split at h
  · next hc => exact ⟨hc, h⟩
  · cases h

theorem ok_of_ite_error (h : (if c then .error e else x) = .ok s) : ¬c ∧ x = .ok s := by
  rw [← ite_not] at h
  exact ok_of_ite h

end guards

/-- A run with a fixed end can be evaluated. -/
instance decidableOk (r : Except H S) (p : S → Prop) [DecidablePred p] :
    Decidable (∃ s, r = .ok s ∧ p s) :=
  match r with
  | .error _ => .isFalse fun ⟨_, h, _⟩ => nomatch h
  | .ok s => decidable_of_iff (p s) ⟨fun h => ⟨s, rfl, h⟩, fun ⟨_, h, hp⟩ => Except.ok.inj h ▸ hp⟩

instance decidableOkOut [DecidableEq O] (r : Except H (O × S)) (o : O) (p : S → Prop)
    [DecidablePred p] : Decidable (∃ s, r = .ok (o, s) ∧ p s) :=
  decidable_of_iff (∃ x, r = .ok x ∧ x.1 = o ∧ p x.2)
    ⟨fun ⟨x, h, ho, hp⟩ => ⟨x.2, ho ▸ h, hp⟩, fun ⟨s, h, hp⟩ => ⟨(o, s), h, rfl, hp⟩⟩

variable {step}

variable {s s' : S} {es : List E}

/-- One step after the other. -/
theorem exec_cons_eq_ok {e : E} :
    exec step s (e :: es) = .ok s' ↔ ∃ o t, step s e = .ok (o, t) ∧ exec step t es = .ok s' := by
  show (step s e >>= fun r => exec step r.2 es) = .ok s' ↔ _
  cases hstep : step s e with
  | error h => exact ⟨fun h => (nomatch h), fun ⟨_, _, h, _⟩ => (nomatch h)⟩
  | ok r =>
    constructor
    · exact fun h => ⟨r.1, r.2, rfl, h⟩
    · rintro ⟨o, t, hr, h⟩
      cases hr
      exact h

/-- A run in two parts. -/
theorem exec_append_eq_ok {es' : List E} :
    exec step s (es ++ es') = .ok s' ↔ ∃ t, exec step s es = .ok t ∧ exec step t es' = .ok s' := by
  induction es generalizing s with
  | nil => exact ⟨fun h => ⟨s, rfl, h⟩, fun ⟨t, h, h'⟩ => by cases h; exact h'⟩
  | cons e es ih =>
    rw [List.cons_append, exec_cons_eq_ok]
    constructor
    · rintro ⟨o, t, hstep, h⟩
      obtain ⟨u, hes, hes'⟩ := ih.mp h
      exact ⟨u, exec_cons_eq_ok.mpr ⟨o, t, hstep, hes⟩, hes'⟩
    · rintro ⟨u, h, hes'⟩
      obtain ⟨o, t, hstep, hes⟩ := exec_cons_eq_ok.mp h
      exact ⟨o, t, hstep, ih.mpr ⟨u, hes, hes'⟩⟩

variable {C : S → E → Prop} {I : S → Prop}

/-- **The invariant rule, with a condition on the steps.** -/
theorem exec_invariant_along (hI : ∀ {s e o s'}, I s → C s e → step s e = .ok (o, s') → I s')
    (h : I s) (hC : Along step C s es) (hexec : exec step s es = .ok s') :
    I s' := by
  induction es generalizing s with
  | nil =>
    cases hexec
    exact h
  | cons e es ih =>
    obtain ⟨o, t, hstep, hes⟩ := exec_cons_eq_ok.mp hexec
    exact ih (hI h hC.1 hstep) (hC.2 o t hstep) hes

/-- A condition on the events alone. -/
theorem along_of_forall {C : E → Prop} (h : ∀ e ∈ es, C e) (s : S) :
    Along step (fun _ => C) s es := by
  induction es generalizing s with
  | nil => trivial
  | cons e es ih =>
    exact ⟨h e List.mem_cons_self, fun _ s' _ => ih (fun e he => h e (List.mem_cons_of_mem _ he)) s'⟩

/-- One more step. -/
theorem along_concat {e : E} (h : Along step C s es) (he : ∀ t, exec step s es = .ok t → C t e) :
    Along step C s (es ++ [e]) := by
  induction es generalizing s with
  | nil => exact ⟨he s rfl, fun _ _ _ => trivial⟩
  | cons e' es ih =>
    refine ⟨h.1, fun o t hstep => ih (h.2 o t hstep) (fun u hu => he u ?_)⟩
    exact exec_cons_eq_ok.mpr ⟨o, t, hstep, hu⟩

/-- An invariant may strengthen the condition. -/
theorem Along.imp {C' : S → E → Prop}
    (hI : ∀ {s e o s'}, I s → C s e → step s e = .ok (o, s') → I s')
    (hC : ∀ {s e}, I s → C s e → C' s e) (h : I s) (hes : Along step C s es) :
    Along step C' s es := by
  induction es generalizing s with
  | nil => trivial
  | cons e es ih =>
    exact ⟨hC h hes.1, fun o s' hstep => ih (hI h hes.1 hstep) (hes.2 o s' hstep)⟩

/-- **A run stops with `x` unless the condition is met**, when each step
does, in the states that the invariant allows. -/
theorem exec_ne_error_iff_along {x : H} (hI : ∀ {s e o s'}, I s → step s e = .ok (o, s') → I s')
    (hC : ∀ {s e}, I s → (step s e ≠ .error x ↔ C s e)) (h : I s) :
    exec step s es ≠ .error x ↔ Along step C s es := by
  induction es generalizing s with
  | nil => exact ⟨fun _ => trivial, fun _ => nofun⟩
  | cons e es ih =>
    show (step s e >>= fun r => exec step r.2 es) ≠ .error x
      ↔ C s e ∧ ∀ o s', step s e = .ok (o, s') → Along step C s' es
    rw [← hC h]
    cases hstep : step s e with
    | error y =>
      exact ⟨fun hy => ⟨fun hyx => hy (by cases hyx; rfl), nofun⟩,
        fun hy hyx => hy.1 (by cases hyx; rfl)⟩
    | ok r =>
      have hr := ih (hI h hstep)
      refine ⟨fun hexec => ⟨nofun, fun o s' hos => ?_⟩, fun hes => hr.mpr (hes.2 r.1 r.2 rfl)⟩
      cases hos
      exact hr.mp hexec

/-- **The invariant rule.** -/
theorem exec_invariant (hI : ∀ {s e o s'}, I s → step s e = .ok (o, s') → I s') (h : I s)
    (hexec : exec step s es = .ok s') : I s' :=
  exec_invariant_along (C := fun _ _ => True) (fun h _ => hI h) h
    (along_of_forall (C := fun _ => True) (fun _ _ => trivial) s) hexec

/-! ## Histories -/

/-- A step of a run, with the states around it. -/
structure Step (S E O : Type) where
  before : S
  event : E
  out : O
  after : S

variable (step) in
/-- **A run with its history**, the steps in order. -/
inductive Run (s : S) : List (Step S E O) → S → Prop
  | start : Run s [] s
  | next {h : List (Step S E O)} {t u : S} {e : E} {o : O} (hrun : Run s h t)
      (hstep : step t e = .ok (o, u)) : Run s (h ++ [⟨t, e, o, u⟩]) u

/-- The history of a run up to one of its steps. -/
theorem Run.split {h₁ h₂ : List (Step S E O)} {x : Step S E O} (h : Run step s (h₁ ++ x :: h₂) s') :
    Run step s h₁ x.before ∧ step x.before x.event = .ok (x.out, x.after) := by
  generalize hh : h₁ ++ x :: h₂ = l at h
  induction h generalizing h₂ with
  | start => cases h₁ <;> cases hh
  | @next l t u e o hrun hstep ih =>
    rcases List.eq_nil_or_concat h₂ with rfl | ⟨h₃, y, rfl⟩
    · obtain ⟨rfl, hx⟩ := List.append_inj' hh rfl
      cases hx
      exact ⟨hrun, hstep⟩
    · rw [List.concat_eq_append, ← List.cons_append, ← List.append_assoc] at hh
      obtain ⟨hl, -⟩ := List.append_inj' hh rfl
      exact ih hl

/-- Every run has a history. -/
theorem exists_run_of_exec (h : exec step s es = .ok s') :
    ∃ l, Run step s l s' ∧ l.map Step.event = es := by
  induction es using List.reverseRecOn generalizing s' with
  | nil =>
    cases h
    exact ⟨[], .start, rfl⟩
  | append_singleton es e ih =>
    obtain ⟨t, hes, he⟩ := exec_append_eq_ok.mp h
    obtain ⟨o, u, hstep, hu⟩ := exec_cons_eq_ok.mp he
    cases hu
    obtain ⟨l, hl, hmap⟩ := ih hes
    exact ⟨l ++ [⟨t, e, o, s'⟩], hl.next hstep, by rw [List.map_append, hmap]; rfl⟩

variable {l : List (Step S E O)}

/-- A history is one of a run. -/
theorem Run.exec (h : Run step s l s') :
    Machine.exec step s (l.map Step.event) = .ok s' := by
  induction h with
  | start => rfl
  | @next l t u e o hrun hstep ih =>
    rw [List.map_append]
    exact exec_append_eq_ok.mpr ⟨t, ih, exec_cons_eq_ok.mpr ⟨o, u, hstep, rfl⟩⟩

/-! ## Simulation -/

/-- What can be seen of a step from outside. -/
def Step.shown (x : Step S E O) : E × O := (x.event, x.out)

/-- **The simulation rule.** When every step of one machine is matched, in
related states, by a step of another on the same event and with the same
output, every run of the first is one of the second. -/
theorem Run.simulate {T H' : Type} {step' : T → E → Except H' (O × T)} {R : S → T → Prop} {t : T}
    (h : Run step s l s') (hR : R s t) (hsim : ∀ {s t e o s'}, R s t → step s e = .ok (o, s') →
      ∃ t', step' t e = .ok (o, t') ∧ R s' t') :
    ∃ l' t', Run step' t l' t' ∧ R s' t' ∧ l'.map Step.shown = l.map Step.shown := by
  induction h with
  | start => exact ⟨[], t, .start, hR, rfl⟩
  | @next l u v e o hrun hstep ih =>
    obtain ⟨l', t', hrun', hR', hshown⟩ := ih
    obtain ⟨t'', hstep', hR''⟩ := hsim hR' hstep
    refine ⟨_, t'', hrun'.next hstep', hR'', ?_⟩
    rw [List.map_append, List.map_append, hshown]
    rfl

/-- The invariant rule for a history. -/
theorem Run.invariant (hI : ∀ {s e o s'}, I s → step s e = .ok (o, s') → I s') (h : I s)
    (hrun : Run step s l s') : I s' :=
  exec_invariant hI h hrun.exec

end Machine
