import Xv6.Proc.Tree

/-!
# Parents and zombies

A parent that sleeps in `wait` has no zombie among its children: `exit` wakes
the parent up, and where it passes a zombie on to `initproc` it wakes
`initproc` up. `detach` passes a child on as well, and wakes nobody. If the
child is a zombie by then and `initproc` sleeps in `wait`, the zombie stays
where it is until another child of `initproc` exits.
-/

namespace Xv6

namespace Family

/-- **Nobody sleeps over a zombie.** -/
def Watched (f : Family) : Prop :=
  ∀ p q, (f.life p).asleep = true → (f.life q).parent = some p → (f.life q).stage ≠ .zombie

end Family

namespace Kernel

variable {D : Type} {n : ℕ} {k k' : Kernel D n}

/-- The process `detach` finds. -/
def detached (k : Kernel D n) (c : Fin n) (pid : Int32) : Option Slot :=
  (k.cpuProc c).bind (fun p =>
    slots.find? (fun q => (k.proc q).pid = pid.toInt ∧ (k.proc q).parent = some p))

/-- **The step that strands a zombie is excluded**: `detach` does not pass a zombie to an `initproc`
that sleeps in `wait`, which nobody would wake. -/
def Considerate (k : Kernel D n) : Event n → Prop
  | .detach c pid => ∀ q ∈ k.detached c pid, ∀ i ∈ k.initproc, (k.proc q).state = .ZOMBIE →
    ¬((k.proc i).state = .SLEEPING ∧ (k.proc i).context = .wait ∧ (k.proc i).chan = .proc i)
  | _ => True

theorem watched_of_lives (hemb : k.Embryos) (htree : k.family.Tree) (h : k.family.Watched)
    {e : Event n} {r : Option Return} (hcare : k.Considerate e) (hl : Lives k e r k') :
    k'.family.Watched := by
  have hembryo : ∀ {p np}, (k.family.life p).forking.child = some np →
      (k.family.life np).stage = .embryo := fun hp => ProcState.stage_eq_embryo.mpr (hemb.child hp)
  cases hl with
  | quiet a he hfam | refused he hfam | waitFail he hwhy hfam | userinitAlloc hb hp hfam
  | userinit hb hfam | alloc hc hp hf hnp hfam | abandon hc hp hf hfam | copy hc hp hf hfam
  | birth hc hp hf hfam | reap he hpar hz hfam | waitSleep he hz hfam | kill a hc hfind hfam =>
    rw [hfam]
    grind [Family.Watched, Forking.child]
  | @exit c p status _ a hc hp hf hinit hpar hwoken hfam =>
    have hself : (k.family.life p).parent ≠ some p := by
      obtain ⟨rank, -, hrank⟩ := htree.rank
      exact fun hpp => lt_irrefl _ (hrank p p hpp)
    intro x q hx hq hz
    have hparent := Family.bury_parent (k.family.rouse a) p q status.toInt
    rw [← hfam, hq] at hparent
    by_cases hqp : q = p
    · -- the parent of the process has been woken up
      subst hqp
      have hqx : (k.family.life q).parent = some x := (hparent.trans (if_neg hself)).symm
      exact Bool.false_ne_true ((hpar x hqx).symm.trans hx)
    · rw [hfam, Family.bury_of_ne _ p q _ hqp] at hz
      by_cases hchild : (k.family.life q).parent = some p
      · -- and so has `initproc`, for a zombie it is given
        have hinitx : k.initproc = some x := (hparent.trans (if_pos hchild)).symm
        exact Bool.false_ne_true ((hwoken q hchild hz x hinitx).symm.trans hx)
      · have hqx : (k.family.life q).parent = some x := (hparent.trans (if_neg hchild)).symm
        rw [hfam, Family.bury_asleep] at hx
        exact h x q (Family.asleep_rouse hx) hqx hz
  | @detach c p q pid _ hc hp hf hfind hfam =>
    have hfound : k.detached c pid = some q := by
      unfold detached
      rw [hc]
      exact hfind
    rw [hfam]
    intro x y hx hy hz
    rw [Family.set_keep _ q x _ Life.asleep rfl] at hx
    rw [Family.set_keep _ q y _ Life.stage rfl] at hz
    by_cases hyq : y = q
    · subst hyq
      rw [Family.set_life_self] at hy
      exact hcare y hfound x hy (ProcState.stage_eq_zombie.mp hz) (asleep_family.mp hx)
    · rw [Family.set_life_of_ne _ _ _ _ hyq] at hy
      exact h x y hx hy hz

/-- **No parent sleeps over a zombie**, in a run in which `detach` does not
pass a zombie to a sleeping `initproc`: a process that sleeps in `wait` has no
child in state `ZOMBIE`. -/
theorem no_zombie_of_exec {es : List (Event n)} {k : Kernel (Sched Slot) n}
    (hcare : Machine.Along step Considerate (start n) es) (h : (start n).exec es = .ok k)
    (p q : Slot) (hp : (k.proc p).state = .SLEEPING) (hctx : (k.proc p).context = .wait)
    (hchan : (k.proc p).chan = .proc p) (hq : (k.proc q).parent = some p) :
    (k.proc q).state ≠ .ZOMBIE := by
  have hinv : k.Running ∧ k.family.Tree ∧ k.family.Watched := by
    refine Machine.exec_invariant_along (I := fun k => k.Running ∧ k.family.Tree ∧ k.family.Watched)
      (fun hk hc hstep => ?_) ⟨Running.boot₀ Sched.queues_init, tree_boot₀ _, nofun⟩ hcare h
    have hl := lives_of_step hk.1 hstep
    exact ⟨hk.1.step hstep, tree_of_lives hk.1.toEmbryos hk.2.1 hl,
      watched_of_lives hk.1.toEmbryos hk.2.1 hk.2.2 hc hl⟩
  intro hz
  exact hinv.2.2 p q (asleep_family.mpr ⟨hp, hctx, hchan⟩) hq (ProcState.stage_eq_zombie.mpr hz)

/-- `initproc` sleeps in `wait` for its child, which forks a child of its own
on the first of two CPUs. -/
def grandchildRun : List (Event 2) :=
  let c : Fin 2 := ⟨0, Nat.two_pos⟩
  [.userinitAlloc, .userinit, .dispatch c, .forkAlloc c, .forkCopy c, .fork c, .wait c, .dispatch c,
    .forkAlloc c, .forkCopy c, .fork c]

/-- The grandchild is detached while it is alive. -/
theorem no_zombie_of_exec_detach :
    ∃ k, (start 2).exec (grandchildRun ++ [.detach 0 3]) = .ok k
      ∧ (k.proc ⟨0, by decide⟩).state = .SLEEPING
      ∧ (k.proc ⟨2, by decide⟩).parent = some ⟨0, by decide⟩
      ∧ (k.proc ⟨2, by decide⟩).state ≠ .ZOMBIE := by
  obtain ⟨k, hk, hp, hctx, hchan, hq⟩ := exists_exec_of_plain (grandchildRun ++ [.detach 0 3])
    (fun k => (k.proc ⟨0, by decide⟩).state = .SLEEPING ∧ (k.proc ⟨0, by decide⟩).context = .wait
      ∧ (k.proc ⟨0, by decide⟩).chan = .proc ⟨0, by decide⟩
      ∧ (k.proc ⟨2, by decide⟩).parent = some ⟨0, by decide⟩) (by decide +kernel)
  have hcare : Machine.Along step Considerate (start 2) (grandchildRun ++ [.detach 0 3]) := by
    refine Machine.along_concat ?_ (fun t ht => ?_)
    · -- no step before is a `detach`
      refine Machine.Along.imp (C := fun _ e => ∀ c pid, e ≠ .detach c pid) (I := fun _ => True)
        (fun _ _ _ => trivial) (fun {k e} _ he => ?_) trivial
        (Machine.along_of_forall (C := fun e : Event 2 => ∀ c pid, e ≠ .detach c pid) ?_ _)
      · cases e with
        | detach c pid => exact absurd rfl (he c pid)
        | _ => trivial
      · simp [grandchildRun]
    · obtain ⟨k', hk', hfound⟩ := exists_exec_of_plain grandchildRun
        (fun k => ∀ q ∈ k.detached 0 3, (k.proc q).state = .RUNNABLE) (by decide +kernel)
      cases ht.symm.trans hk'
      intro q hq i hi hz
      cases (hfound q hq).symm.trans hz
  exact ⟨k, hk, hp, hq, no_zombie_of_exec hcare hk _ _ hp hctx hchan hq⟩

/-- **The grandchild exits first**, on the second CPU, and is detached as a
zombie: `initproc` sleeps in `wait` with a child in state `ZOMBIE`. -/
theorem zombie_of_detach :
    ∃ k, (start 2).exec (grandchildRun ++ [.dispatch 1, .exit 1 7, .detach 0 3]) = .ok k
      ∧ k.initproc = some ⟨0, by decide⟩ ∧ (k.proc ⟨0, by decide⟩).state = .SLEEPING
      ∧ (k.proc ⟨0, by decide⟩).context = .wait
      ∧ (k.proc ⟨0, by decide⟩).chan = .proc ⟨0, by decide⟩
      ∧ (k.proc ⟨2, by decide⟩).parent = some ⟨0, by decide⟩
      ∧ (k.proc ⟨2, by decide⟩).state = .ZOMBIE := by
  obtain ⟨k, hk, hend⟩ := exists_exec_of_plain
    (grandchildRun ++ [.dispatch 1, .exit 1 7, .detach 0 3])
    (fun k => k.initproc = some ⟨0, by decide⟩ ∧ (k.proc ⟨0, by decide⟩).state = .SLEEPING
      ∧ (k.proc ⟨0, by decide⟩).context = .wait
      ∧ (k.proc ⟨0, by decide⟩).chan = .proc ⟨0, by decide⟩
      ∧ (k.proc ⟨2, by decide⟩).parent = some ⟨0, by decide⟩
      ∧ (k.proc ⟨2, by decide⟩).state = .ZOMBIE) (by decide +kernel)
  exact ⟨k, hk, hend⟩

end Kernel

end Xv6
