import Mathlib.Data.Set.Insert

/-!
# Programs that stop with an error

A program is a `StateT S (Except E)`: it changes a state, and returns or
stops with an error. `wp m Q R s` says that from `s` the program `m` returns
in a way that `Q` allows or stops with an error that `R` allows. The rules
take a program apart along its `do` block; a loop over a list is proved with
an invariant of the part of the list that is done.
-/

namespace Wp

variable {S E A B : Type}

/-- **The weakest precondition**: a run of `m` from `s` returns with `Q`, or ends in an error that is
in `R`. With `R` false it says that there is no error. -/
def wp (m : StateT S (Except E) A) (Q : A → S → Prop) (R : E → Prop) (s : S) : Prop :=
  match m s with
  | .ok (a, s') => Q a s'
  | .error e => R e

variable {m : StateT S (Except E) A} {Q Q' : A → S → Prop} {R R' : E → Prop} {s : S}

variable {a : A}

/-- What the program returns. -/
theorem wp.ok (h : wp m Q R s) {s' : S} (hm : m s = .ok (a, s')) : Q a s' := by
  unfold wp at h
  rw [hm] at h
  exact h

/-- How the program stops. -/
theorem wp.error (h : wp m Q R s) {e : E} (hm : m s = .error e) : R e := by
  unfold wp at h
  rw [hm] at h
  exact h

theorem wp_of_run (hok : ∀ a s', m s = .ok (a, s') → Q a s') (herr : ∀ e, m s = .error e → R e) :
    wp m Q R s := by
  unfold wp
  split
  · next a s' hm => exact hok a s' hm
  · next e hm => exact herr e hm

theorem wp.mono (h : wp m Q R s) (hQ : ∀ a s', Q a s' → Q' a s') (hR : ∀ e, R e → R' e) :
    wp m Q' R' s :=
  wp_of_run (fun a s' hm => hQ a s' (h.ok hm)) (fun e hm => hR e (h.error hm))

/-- A program that does not stop with an error returns. -/
theorem wp.returns (h : wp m Q (fun _ => False) s) : ∃ a s', m s = .ok (a, s') ∧ Q a s' := by
  cases hm : m s with
  | error e => exact (h.error hm).elim
  | ok r => exact ⟨r.1, r.2, rfl, h.ok hm⟩

/-- The usual case: the errors are the same. -/
theorem wp.imp (h : wp m Q R s) (hQ : ∀ a s', Q a s' → Q' a s') : wp m Q' R s :=
  h.mono hQ (fun _ => id)

/-- Nothing is said about errors. -/
theorem wp.any (h : wp m Q R s) (hQ : ∀ a s', Q a s' → Q' a s') : wp m Q' (fun _ => True) s :=
  h.mono hQ (fun _ _ => trivial)

/-- Two facts about one program. -/
theorem wp.and (h : wp m Q R s) (h' : wp m Q' R' s) : wp m (fun a s' => Q a s' ∧ Q' a s') R s :=
  wp_of_run (fun _ _ hm => ⟨h.ok hm, h'.ok hm⟩) (fun _ hm => h.error hm)

/-- What the program returns, and that it does. -/
theorem wp.run (h : wp m Q R s) : wp m (fun a s' => Q a s' ∧ m s = .ok (a, s')) R s :=
  wp_of_run (fun _ _ hm => ⟨h.ok hm, hm⟩) (fun _ hm => h.error hm)

variable {f : A → StateT S (Except E) B}

/-- A program goes on where its first part has returned. -/
theorem run_bind {s' : S} (hm : m s = .ok (a, s')) :
    (m >>= f) s = f a s' := by
  show (m s >>= fun r => f r.1 r.2) = _
  rw [hm]
  rfl

@[simp] theorem wp_pure : wp (pure a) Q R s ↔ Q a s := Iff.rfl

@[simp] theorem wp_bind {Q : B → S → Prop} :
    wp (m >>= f) Q R s ↔ wp m (fun a s' => wp (f a) Q R s') R s := by
  have hrun : (m >>= f) s = (m s >>= fun r => f r.1 r.2) := rfl
  unfold wp
  rw [hrun]
  cases hm : m s with
  | error e => exact Iff.rfl
  | ok r => exact Iff.rfl

/-- **The rule of a sequence.** -/
theorem wp.bind {Q' : B → S → Prop} (h : wp m Q R s) (hf : ∀ a s', Q a s' → wp (f a) Q' R s') :
    wp (m >>= f) Q' R s :=
  wp_bind.mpr (h.imp hf)

theorem wp.seq {Q' : B → S → Prop} (h : wp m Q R s)
    (hf : ∀ a s', Q a s' → wp (f a) Q' (fun _ => True) s') :
    wp (m >>= f) Q' (fun _ => True) s :=
  wp_bind.mpr (h.any hf)

@[simp] theorem wp_map {f : A → B} {Q : B → S → Prop} :
    wp (f <$> m) Q R s ↔ wp m (fun a s' => Q (f a) s') R s := by
  rw [map_eq_pure_bind, wp_bind]
  rfl

@[simp] theorem wp_get {Q : S → S → Prop} :
    wp (get : StateT S (Except E) S) Q R s ↔ Q s s := Iff.rfl

@[simp] theorem wp_modify {f : S → S} {Q : PUnit → S → Prop} :
    wp (modify f : StateT S (Except E) PUnit) Q R s ↔ Q ⟨⟩ (f s) := Iff.rfl

/-- **The rule of a loop over a list.** -/
theorem wp_forM {X : Type} {l : List X} {f : X → StateT S (Except E) PUnit} {I : List X → S → Prop}
    (hstep : ∀ before x after s, l = before ++ x :: after → I before s →
      wp (f x) (fun _ s' => I (before ++ [x]) s') R s) (h : I [] s) :
    wp (l.forM f) (fun _ s' => I l s') R s := by
  have hrest : ∀ after before s, l = before ++ after → I before s →
      wp (after.forM f) (fun _ s' => I l s') R s := by
    intro after
    induction after with
    | nil =>
      intro before s hl hI
      rw [hl, List.append_nil]
      exact hI
    | cons x after ih =>
      intro before s hl hI
      show wp (f x >>= fun _ => after.forM f) _ R s
      refine (hstep before x after s hl hI).bind (fun _ s' hI' => ?_)
      exact ih (before ++ [x]) s' (by rw [hl, List.append_assoc]; rfl) hI'
  exact hrest l [] s rfl h

/-- The rule of a loop over things that are all different: the invariant is
one of the set that is done. -/
theorem wp_forM_set {X : Type} {l : List X} (hl : l.Nodup) {f : X → StateT S (Except E) PUnit}
    {I : Set X → S → Prop}
    (hstep : ∀ done x s, x ∈ l → x ∉ done → I done s → wp (f x) (fun _ s' => I (insert x done) s') R s)
    (h : I ∅ s) : wp (l.forM f) (fun _ s' => I {x | x ∈ l} s') R s := by
  refine wp_forM (I := fun before s => I {x | x ∈ before} s) (fun before x after s hx hI => ?_) ?_
  · have hnew : x ∉ before := by
      rw [hx, List.nodup_append] at hl
      exact fun hmem => hl.2.2 x hmem x List.mem_cons_self rfl
    have hset : {y | y ∈ before ++ [x]} = insert x {y | y ∈ before} := by
      ext y
      rw [Set.mem_insert_iff, Set.mem_ofPred_eq, Set.mem_ofPred_eq, List.mem_append,
        List.mem_singleton, or_comm]
    rw [hset]
    refine hstep _ x s ?_ hnew hI
    rw [hx]
    exact List.mem_append_right _ List.mem_cons_self
  · have hset : {y : X | y ∈ []} = ∅ := by simp
    rw [hset]
    exact h

/-! ## What a program leaves alone -/

/-- **A program leaves a part of the state alone**, if it returns. -/
def Keeps {T : Type} (g : S → T) (m : StateT S (Except E) A) : Prop :=
  ∀ s, wp m (fun _ s' => g s' = g s) (fun _ => True) s

namespace Keeps

variable {T : Type} {g : S → T}

theorem pure (a : A) : Keeps g (Pure.pure a : StateT S (Except E) A) := fun _ => rfl

theorem throw (e : E) : Keeps g (MonadExcept.throw e : StateT S (Except E) A) := fun _ => trivial

theorem get : Keeps g (MonadState.get : StateT S (Except E) S) := fun _ => rfl

theorem modify {f : S → S} (hf : ∀ s, g (f s) = g s) :
    Keeps g (modify f : StateT S (Except E) PUnit) := hf

theorem bind {f : A → StateT S (Except E) B} (hm : Keeps g m) (hf : ∀ a, Keeps g (f a)) :
    Keeps g (m >>= f) := by
  intro s
  exact (hm s).bind (fun a s' hs' => (hf a s').imp (fun _ _ hs'' => hs''.trans hs'))

theorem forM {X : Type} {l : List X} {f : X → StateT S (Except E) PUnit} (hf : ∀ x, Keeps g (f x)) :
    Keeps g (l.forM f) := by
  induction l with
  | nil => exact fun _ => rfl
  | cons x l ih =>
    show Keeps g (f x >>= fun _ => l.forM f)
    exact (hf x).bind (fun _ => ih)

end Keeps

end Wp
