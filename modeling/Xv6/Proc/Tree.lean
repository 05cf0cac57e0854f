import Xv6.Proc.Family

/-!
# The tree of processes

Every process that is alive or a zombie, but for `initproc`, has a parent that
is alive, and the parents lead to `initproc`. The invariant (`Family.Tree`)
says more than that: no slot at all, free or being built, points to a parent
that is not alive, so a slot that is given to a new process is nobody's parent.
That the parents lead somewhere is a rank, `0` for `initproc` and smaller for
the parent than for the child. A new child gets a rank above its parent's, and
a process that is passed to `initproc` can keep the rank it has.
-/

namespace Xv6

open Function

namespace Family

/-- **The tree of processes**: every live process but `initproc` has a parent, which is alive, and
what is being built hangs on the process that builds it. -/
structure Tree (f : Family) : Prop where
  /-- A parent is alive. -/
  alive : ∀ {q p}, (f.life q).parent = some p → (f.life p).stage = .active
  unused : ∀ {q}, (f.life q).stage = .unused → (f.life q).parent = none
  /-- The child that is being built has its parent once `fork` has copied it. -/
  allocated : ∀ {p np}, (f.life p).forking = .allocated np → (f.life np).parent = none
  copied : ∀ {p np}, (f.life p).forking = .copied np → (f.life np).parent = some p
  parent : ∀ {q}, (f.life q).stage = .active ∨ (f.life q).stage = .zombie →
    f.initproc ≠ some q → (f.life q).parent ≠ none
  root : ∀ {i}, f.initproc = some i → (f.life i).parent = none
  /-- Before the end of `userinit` nobody is alive. -/
  booted : ∀ {q}, (f.life q).stage = .active ∨ (f.life q).stage = .zombie → f.boot = .done
  booting : ∀ {p}, f.boot = .userinit p → f.initproc = some p
  init : f.boot = .done → ∃ i, f.initproc = some i ∧ (f.life i).stage = .active
  rank : ∃ rank : Slot → ℕ, (∀ i, f.initproc = some i → rank i = 0) ∧
    ∀ q p, (f.life q).parent = some p → rank p < rank q

namespace Tree

variable {f f' : Family}

/-- The tree is about stages, parents and forks only. -/
theorem congr (h : f.Tree) (hstage : ∀ q, (f'.life q).stage = (f.life q).stage)
    (hparent : ∀ q, (f'.life q).parent = (f.life q).parent)
    (hforking : ∀ q, (f'.life q).forking = (f.life q).forking)
    (hinit : f'.initproc = f.initproc) (hboot : f'.boot = f.boot) : f'.Tree := by
  constructor <;> simp only [hstage, hparent, hforking, hinit, hboot]
  exacts [h.alive, h.unused, h.allocated, h.copied, h.parent, h.root, h.booted, h.booting, h.init,
    h.rank]

theorem rouse (h : f.Tree) (a : Slot → Bool) : (f.rouse a).Tree :=
  h.congr (fun _ => rfl) (fun _ => rfl) (fun _ => rfl) rfl rfl

variable {p : Slot}

/-- A write to fields the tree is not about. -/
theorem set (h : f.Tree) {g : Life → Life}
    (hg : ∀ l, (g l).stage = l.stage ∧ (g l).parent = l.parent ∧ (g l).forking = l.forking) :
    (f.set p g).Tree :=
  h.congr (fun q => set_keep f p q g Life.stage (hg _).1)
    (fun q => set_keep f p q g Life.parent (hg _).2.1)
    (fun q => set_keep f p q g Life.forking (hg _).2.2) rfl rfl

/-- Before the end of `userinit` nobody has a parent. -/
theorem no_parent (h : f.Tree) (hb : f.boot ≠ .done) (q p : Slot) : (f.life q).parent ≠ some p :=
  fun hq => hb (h.booted (.inl (h.alive hq)))

/-- `initproc`, once somebody is alive. -/
theorem init_of_active (h : f.Tree) (hp : (f.life p).stage = .active) :
    ∃ i, f.initproc = some i ∧ (f.life i).stage = .active :=
  h.init (h.booted (.inl hp))

/-! ### Boot -/

theorem userinitAlloc (h : f.Tree) (hb : f.boot = .main) (hp : (f.life p).stage = .unused) :
    ({ f.alloc p with initproc := some p, boot := .userinit p } : Family).Tree := by
  have hnot := h.no_parent (by rw [hb]; exact Boot.noConfusion)
  obtain ⟨-, hunused, hallocated, hcopied, -, -, hbooted, -, -, -⟩ := h
  refine ⟨?_, ?_, ?_, ?_, ?_, ?_, ?_, ?_, ?_, fun _ => 0, ?_⟩
  all_goals grind

theorem userinit (h : f.Tree) (hb : f.boot = .userinit p) :
    ({ f.set p (fun l => { l with stage := .active }) with boot := .done } : Family).Tree := by
  have hnot := h.no_parent (by rw [hb]; exact Boot.noConfusion)
  obtain ⟨-, hunused, hallocated, hcopied, -, hroot, hbooted, hbooting, -, rank, hrank⟩ := h
  refine ⟨?_, ?_, ?_, ?_, ?_, ?_, ?_, ?_, ?_, rank, ?_⟩
  all_goals grind

/-! ### Fork -/

section fork

variable {p np : Slot}

/-- The process `p` goes on in `fork`, and writes to the slot of its child,
which is nobody's parent. -/
theorem fork (h : f.Tree) {g : Life → Life} {w : Forking} (hp : (f.life p).stage = .active)
    (hnp : (f.life np).stage ≠ .active)
    (hother : ∀ q, q ≠ p → (f.life q).forking.child ≠ some np)
    (hg : (g (f.life np)).forking = (f.life np).forking)
    (hself : (g (f.life np)).parent = none ∨ (g (f.life np)).parent = some p)
    (hunused : (g (f.life np)).stage = .unused → (g (f.life np)).parent = none)
    (hlive : (g (f.life np)).stage = .active ∨ (g (f.life np)).stage = .zombie →
      (g (f.life np)).parent ≠ none)
    (hallocated : ∀ x, w = .allocated x → x = np ∧ (g (f.life np)).parent = none)
    (hcopied : ∀ x, w = .copied x → x = np ∧ (g (f.life np)).parent = some p) :
    ((f.set np g).set p (fun l => { l with forking := w })).Tree := by
  have hnpp : np ≠ p := by
    rintro rfl
    exact hnp hp
  obtain ⟨i, hi, hiactive⟩ := h.init_of_active hp
  have hbooted := h.booted (.inl hp)
  obtain ⟨halive₀, hunused₀, hallocated₀, hcopied₀, hparent₀, hroot₀, -, hbooting₀, -, rank, hrank⟩ := h
  -- the new child gets a rank above its parent's
  refine ⟨?_, ?_, ?_, ?_, ?_, ?_, ?_, ?_, ?_, update rank np (rank p + 1), ?_, ?_⟩
  all_goals grind [Forking.child, update_apply]

end fork

/-! ### Exit, `wait` and `detach` -/

/-- The process exits, and its children go to `initproc`. -/
theorem bury (h : f.Tree) (status : ℤ) (hp : (f.life p).stage = .active)
    (hf : (f.life p).forking = .no) (hinit : f.initproc ≠ some p) : (f.bury p status).Tree := by
  obtain ⟨i, hi, hiactive⟩ := h.init_of_active hp
  have hstage : ∀ q, q ≠ p → ((f.bury p status).life q).stage = (f.life q).stage := by
    intro q hq
    rw [bury_of_ne f p q status hq]
  have hself := bury_stage_self f p status
  have hroot : (f.bury p status).initproc = f.initproc ∧ (f.bury p status).boot = f.boot := ⟨rfl, rfl⟩
  have hparent : ∀ q, ((f.bury p status).life q).parent
      = if (f.life q).parent = some p then some i else (f.life q).parent := by
    intro q
    rw [bury_parent, hi]
  have hforking : ∀ q, ((f.bury p status).life q).forking = (f.life q).forking := fun q =>
    bury_forking f p q status
  have hbooted := h.booted (.inl hp)
  obtain ⟨halive₀, hunused₀, hallocated₀, hcopied₀, hparent₀, hroot₀, -, hbooting₀, -, rank, hrank⟩ := h
  -- `initproc` is below everybody who has a parent
  refine ⟨?_, ?_, ?_, ?_, ?_, ?_, ?_, ?_, ?_, rank, ?_, ?_⟩
  all_goals grind

theorem detach (h : f.Tree) {q : Slot} (hp : (f.life p).stage = .active)
    (hf : (f.life p).forking = .no) (hq : (f.life q).parent = some p) :
    (f.set q (fun l => { l with parent := f.initproc })).Tree := by
  obtain ⟨i, hi, hiactive⟩ := h.init_of_active hp
  rw [hi]
  obtain ⟨halive, hunused, hallocated, hcopied, hparent, hroot, hbooted, hbooting, -, rank, hrank⟩ := h
  refine ⟨?_, ?_, ?_, ?_, ?_, ?_, ?_, ?_, ?_, rank, ?_, ?_⟩
  all_goals grind

/-- A zombie is freed. -/
theorem reap (h : f.Tree) {q : Slot} (hz : (f.life q).stage = .zombie)
    (hcopied : ∀ x, (f.life x).forking ≠ .copied q) :
    (f.set q (fun l => { l with pid := 0, parent := none, killed := false, stage := .unused })).Tree := by
  obtain ⟨halive, hunused, hallocated, hcopied₀, hparent, hroot, hbooted, hbooting, hinit, rank, hrank⟩
    := h
  refine ⟨?_, ?_, ?_, ?_, ?_, ?_, ?_, ?_, ?_, rank, ?_, ?_⟩
  all_goals grind

end Tree

end Family

namespace Kernel

variable {D : Type} {n : ℕ} {k k' : Kernel D n}

/-- **Every step keeps the tree.** -/
theorem tree_of_lives (hemb : k.Embryos) (h : k.family.Tree) {e : Event n} {r : Option Return}
    (hl : Lives k e r k') : k'.family.Tree := by
  have hembryo : ∀ {p np}, (k.family.life p).forking.child = some np →
      (k.family.life np).stage = .embryo := fun hp => ProcState.stage_eq_embryo.mpr (hemb.child hp)
  have hother : ∀ {p np}, (k.family.life p).forking.child = some np →
      ∀ q, q ≠ p → (k.family.life q).forking.child ≠ some np := fun hp q hqp hq =>
    hqp (hemb.child_inj hq hp)
  have hstage : ∀ {q : Slot} {s : LifeStage}, (k.family.life q).stage = s → s ≠ .active →
      (k.family.life q).stage ≠ .active := fun hq hs ha => hs (hq.symm.trans ha)
  cases hl with
  | quiet a he hfam =>
    rw [hfam]
    exact h.rouse a
  | refused he hfam =>
    rw [hfam]
    exact h
  | userinitAlloc hb hp hfam =>
    rw [hfam]
    exact h.userinitAlloc hb hp
  | userinit hb hfam =>
    rw [hfam]
    exact h.userinit hb
  | @alloc c p np _ hc hp hf hnp hfam =>
    rw [hfam]
    have hset : ((k.family.set np (fun l =>
        { l with stage := .embryo, pid := k.family.nextpid })).set p
          (fun l => { l with forking := .allocated np })).Tree := by
      refine h.fork hp (hstage hnp nofun) (fun q _ hchild => ?_) rfl (.inl (h.unused hnp)) nofun
        (fun hlive => ?_) (fun x hx => ⟨by cases hx; rfl, h.unused hnp⟩) nofun
      · cases (hembryo hchild).symm.trans hnp
      · simp at hlive
    exact hset.congr (fun _ => rfl) (fun _ => rfl) (fun _ => rfl) rfl rfl
  | @abandon c p np _ hc hp hf hfam =>
    have hchild : (k.family.life p).forking.child = some np := by
      rw [hf]
      rfl
    rw [hfam]
    refine h.fork hp (hstage (hembryo hchild) nofun) (hother hchild) rfl (.inl (h.allocated hf))
      (fun _ => h.allocated hf) (fun hlive => ?_) nofun nofun
    simp at hlive
  | @copy c p np _ hc hp hf hfam =>
    have hchild : (k.family.life p).forking.child = some np := by
      rw [hf]
      rfl
    rw [hfam]
    refine h.fork hp (hstage (hembryo hchild) nofun) (hother hchild) rfl (.inr rfl) (fun hun => ?_)
      (fun _ => nofun) nofun (fun x hx => ⟨by cases hx; rfl, rfl⟩)
    cases (hembryo hchild).symm.trans hun
  | @birth c p np _ hc hp hf hfam =>
    have hchild : (k.family.life p).forking.child = some np := by
      rw [hf]
      rfl
    rw [hfam]
    refine h.fork hp (hstage (hembryo hchild) nofun) (hother hchild) rfl (.inr (h.copied hf)) nofun
      (fun _ hnone => ?_) nofun nofun
    cases (h.copied hf).symm.trans hnone
  | exit a hc hp hf hinit hpar hwoken hfam =>
    rw [hfam]
    exact (h.rouse a).bury _ hp hf hinit
  | @reap e p q _ he hpar hz hfam =>
    rw [hfam]
    refine h.reap hz (fun x hx => ?_)
    have hembq : (k.family.life q).stage = .embryo := hembryo (p := x) (by rw [hx]; rfl)
    cases hembq.symm.trans hz
  | waitFail he hwhy hfam =>
    rw [hfam]
    exact h
  | waitSleep he hz hfam =>
    rw [hfam]
    exact h.set (fun l => ⟨rfl, rfl, rfl⟩)
  | kill a hc hfind hfam =>
    rw [hfam]
    exact (h.set (g := fun l => { l with killed := true }) (fun l => ⟨rfl, rfl, rfl⟩)).rouse a
  | detach hc hp hf hfind hfam =>
    rw [hfam]
    exact h.detach hp hf (child_of_find hfind).2

/-- **The parent of the parent**, and so on. -/
def ancestor (k : Kernel D n) : ℕ → Slot → Option Slot
  | 0, q => some q
  | m + 1, q => (k.proc q).parent.bind (k.ancestor m)

theorem ancestor_of_tree (h : k.family.Tree) {i : Slot} (hi : k.initproc = some i) {q : Slot}
    (hq : (k.family.life q).stage = .active ∨ (k.family.life q).stage = .zombie) :
    ∃ m, k.ancestor m q = some i := by
  obtain ⟨rank, -, hrank⟩ := h.rank
  -- by the rank of the process
  induction hm : rank q using Nat.strong_induction_on generalizing q with
  | _ m ih =>
    by_cases hqi : q = i
    · exact ⟨0, congrArg some hqi⟩
    · have hne : k.family.initproc ≠ some q := by
        intro heq
        exact hqi (Option.some.inj (heq.symm.trans hi))
      obtain ⟨p, hp⟩ := Option.ne_none_iff_exists'.mp (h.parent hq hne)
      obtain ⟨m', hm'⟩ := ih (rank p) (hm ▸ hrank q p hp) (.inl (h.alive hp)) rfl
      refine ⟨m' + 1, ?_⟩
      show (k.proc q).parent.bind (k.ancestor m') = some i
      rw [show (k.proc q).parent = some p from hp]
      exact hm'

theorem tree_boot₀ (ds : D) : (boot₀ (n := n) ds).family.Tree where
  alive h := nomatch h
  unused _ := rfl
  allocated h := nomatch h
  copied h := nomatch h
  parent h := by rcases h with h | h <;> cases h
  root h := nomatch h
  booted h := by rcases h with h | h <;> cases h
  booting h := nomatch h
  init h := nomatch h
  rank := ⟨fun _ => 0, fun _ h => (nomatch h), fun _ _ h => nomatch h⟩

/-- The state at the end of a run from boot has both invariants. -/
theorem tree_of_run {es : List (Event n)} {k : Kernel (Sched Slot) n}
    (h : (start n).exec es = .ok k) : k.Running ∧ k.family.Tree :=
  Machine.exec_invariant (I := fun k => k.Running ∧ k.family.Tree)
    (fun hk hstep => ⟨hk.1.step hstep, tree_of_lives hk.1.toEmbryos hk.2 (lives_of_step hk.1 hstep)⟩)
    ⟨Running.boot₀ Sched.queues_init, tree_boot₀ _⟩ h

/-- **The processes are a tree with `initproc` at its root**, in every run: a
process that is alive or a zombie, but for `initproc`, has a parent that is
alive, its parents lead to `initproc`, and no slot whatever points to a parent
that is not alive. -/
theorem tree_of_exec {es : List (Event n)} {k : Kernel (Sched Slot) n}
    (h : (start n).exec es = .ok k) :
    (∀ q, (k.proc q).state = .SLEEPING ∨ (k.proc q).state = .RUNNABLE ∨
        (k.proc q).state = .RUNNING ∨ (k.proc q).state = .ZOMBIE →
      (k.initproc ≠ some q → ∃ p, (k.proc q).parent = some p ∧ ((k.proc p).state = .SLEEPING ∨
        (k.proc p).state = .RUNNABLE ∨ (k.proc p).state = .RUNNING)) ∧
      ∃ m i, k.initproc = some i ∧ k.ancestor m q = some i) ∧
    ∀ q p, (k.proc q).parent = some p → (k.proc p).state = .SLEEPING ∨
      (k.proc p).state = .RUNNABLE ∨ (k.proc p).state = .RUNNING := by
  obtain ⟨-, htree⟩ := tree_of_run h
  have halive : ∀ q p, (k.proc q).parent = some p → (k.proc p).state = .SLEEPING ∨
      (k.proc p).state = .RUNNABLE ∨ (k.proc p).state = .RUNNING := fun q p hq =>
    ProcState.stage_eq_active.mp (htree.alive hq)
  refine ⟨fun q hq => ?_, halive⟩
  have hstage : (k.family.life q).stage = .active ∨ (k.family.life q).stage = .zombie := by
    rcases hq with hq | hq | hq | hq
    · exact .inl (ProcState.stage_eq_active.mpr (.inl hq))
    · exact .inl (ProcState.stage_eq_active.mpr (.inr (.inl hq)))
    · exact .inl (ProcState.stage_eq_active.mpr (.inr (.inr hq)))
    · exact .inr (ProcState.stage_eq_zombie.mpr hq)
  constructor
  · intro hne
    obtain ⟨p, hp⟩ := Option.ne_none_iff_exists'.mp (htree.parent hstage hne)
    exact ⟨p, hp, halive q p hp⟩
  · obtain ⟨i, hi, -⟩ := htree.init (htree.booted hstage)
    obtain ⟨m, hm⟩ := ancestor_of_tree htree hi hstage
    exact ⟨m, i, hi, hm⟩

/-- `initproc` forks a child, the child forks a child of its own and exits. -/
def orphanRun : List (Event 1) :=
  [.userinitAlloc, .userinit, .dispatch 0, .forkAlloc 0, .forkCopy 0, .fork 0, .wait 0, .dispatch 0,
    .forkAlloc 0, .forkCopy 0, .fork 0, .exit 0 7]

theorem tree_of_exec_orphan :
    ∃ k, (start 1).exec orphanRun = .ok k ∧ (k.proc ⟨1, by decide⟩).state = .ZOMBIE
      ∧ (k.proc ⟨2, by decide⟩).state = .RUNNABLE
      ∧ (∃ p, (k.proc ⟨2, by decide⟩).parent = some p ∧ ((k.proc p).state = .SLEEPING ∨
        (k.proc p).state = .RUNNABLE ∨ (k.proc p).state = .RUNNING))
      ∧ ∃ m i, k.initproc = some i ∧ k.ancestor m ⟨2, by decide⟩ = some i := by
  obtain ⟨k, hk, hzombie, hrunnable, hinit⟩ := exists_exec_of_plain orphanRun
    (fun k => (k.proc ⟨1, by decide⟩).state = .ZOMBIE ∧ (k.proc ⟨2, by decide⟩).state = .RUNNABLE
      ∧ k.initproc ≠ some ⟨2, by decide⟩) (by decide +kernel)
  have htree := (tree_of_exec hk).1 ⟨2, by decide⟩ (.inr (.inl hrunnable))
  exact ⟨k, hk, hzombie, hrunnable, htree.1 hinit, htree.2⟩

end Kernel

end Xv6
