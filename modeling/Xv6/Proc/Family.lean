import Xv6.Proc.Running

/-!
# Families

What a step means to parents and children, with the scheduling left out. Of a
process a family knows whether the slot is free, being built, alive or a
zombie, whether it sleeps in `wait`, its `pid`, `parent`, `killed` and
`status`, and the child it is building (`Life`). `Kernel.Lives` lists what the
steps of the kernel do to this view of it (`Kernel.family`): most do nothing
but wake processes up in `wait`, and each of the others is the one thing its
name says. `Kernel.lives_of_step` is the refinement; what is proved of families
is proved of `Lives`, and no queue or CPU comes up again.
-/

namespace Xv6

open Function

/-- What `state` means to a family. -/
inductive LifeStage where
  | unused | embryo | active | zombie
deriving DecidableEq, Repr

def ProcState.stage : ProcState → LifeStage
  | .UNUSED => .unused
  | .EMBRYO => .embryo
  | .SLEEPING | .RUNNABLE | .RUNNING => .active
  | .ZOMBIE => .zombie

variable {s : ProcState}

theorem ProcState.stage_eq_unused : s.stage = .unused ↔ s = .UNUSED := by
  cases s <;> decide

theorem ProcState.stage_eq_embryo : s.stage = .embryo ↔ s = .EMBRYO := by
  cases s <;> decide

theorem ProcState.stage_eq_zombie : s.stage = .zombie ↔ s = .ZOMBIE := by
  cases s <;> decide

theorem ProcState.stage_eq_active :
    s.stage = .active ↔ s = .SLEEPING ∨ s = .RUNNABLE ∨ s = .RUNNING := by
  cases s <;> decide

/-- **What a family knows of a process.** -/
@[ext]
structure Life where
  stage : LifeStage
  /-- Asleep in `wait`, on itself. -/
  asleep : Bool
  pid : ℤ
  parent : Option Slot
  killed : Bool
  status : ℤ
  forking : Forking

/-- **The process table as a family.** -/
@[ext]
structure Family where
  life : Slot → Life
  initproc : Option Slot
  nextpid : ℤ
  boot : Boot

namespace Family

/-- Write to one process. -/
def set (p : Slot) (g : Life → Life) (f : Family) : Family :=
  { f with life := update f.life p (g (f.life p)) }

/-- Wake up processes in `wait`: those stay asleep that `a` says. -/
def rouse (a : Slot → Bool) (f : Family) : Family :=
  { f with life := fun q => { f.life q with asleep := a q && (f.life q).asleep } }

/-- Give the slot to a new process. -/
def alloc (p : Slot) (f : Family) : Family :=
  { f.set p (fun l => { l with stage := .embryo, pid := f.nextpid }) with
    nextpid := wrap32 (f.nextpid + 1) }

/-- Pass the children of `p` in a part of the table to `initproc`. -/
def pass (l : List Slot) (p : Slot) (f : Family) : Family :=
  { f with life := fun q => { f.life q with
      parent := if q ∈ l ∧ (f.life q).parent = some p then f.initproc else (f.life q).parent } }

/-- The process has exited. -/
def bury (p : Slot) (status : ℤ) (f : Family) : Family :=
  (f.pass slots p).set p (fun l => { l with stage := .zombie, status := status })

section

variable (f : Family) (p q : Slot) (g : Life → Life) (a b : Slot → Bool)

theorem set_life_self : (f.set p g).life p = g (f.life p) := update_self _ _ _

@[grind =] theorem set_initproc : (f.set p g).initproc = f.initproc := rfl

@[grind =] theorem set_boot : (f.set p g).boot = f.boot := rfl

@[grind =] theorem set_life : (f.set p g).life q = if q = p then g (f.life p) else f.life q :=
  update_apply _ _ _ _

theorem set_life_of_ne (h : q ≠ p) : (f.set p g).life q = f.life q := update_of_ne h _ _

/-- A write that keeps a field of its process keeps it everywhere. -/
theorem set_keep {α : Type} (o : Life → α) (hg : o (g (f.life p)) = o (f.life p)) :
    o ((f.set p g).life q) = o (f.life q) := by
  grind

variable {f p g} in
theorem set_congr {o : Life → Life} (h : g (f.life p) = o (f.life p)) : f.set p g = f.set p o := by
  unfold set
  rw [h]

variable {f p g} in
theorem set_eq_self (h : g (f.life p) = f.life p) : f.set p g = f := by
  unfold set
  rw [h, update_eq_self]

@[grind =] theorem alloc_life : (f.alloc p).life q
    = if q = p then { f.life p with stage := .embryo, pid := f.nextpid } else f.life q :=
  update_apply _ _ _ _

@[grind =] theorem rouse_life :
    (f.rouse a).life q = { f.life q with asleep := a q && (f.life q).asleep } := rfl

@[grind =] theorem pass_life (l : List Slot) : (f.pass l p).life q = { f.life q with
    parent := if q ∈ l ∧ (f.life q).parent = some p then f.initproc else (f.life q).parent } := rfl

theorem rouse_true : f.rouse (fun _ => true) = f := by
  refine Family.ext (funext fun q => ?_) rfl rfl rfl
  exact Life.ext rfl (Bool.true_and _) rfl rfl rfl rfl rfl

theorem rouse_rouse : (f.rouse a).rouse b = f.rouse (fun q => b q && a q) := by
  refine Family.ext (funext fun q => ?_) rfl rfl rfl
  exact Life.ext rfl (Bool.and_assoc _ _ _).symm rfl rfl rfl rfl rfl

theorem pass_nil : f.pass [] p = f := by
  refine Family.ext (funext fun q => ?_) rfl rfl rfl
  refine Life.ext rfl rfl rfl ?_ rfl rfl rfl
  unfold pass
  simp

theorem pass_rouse_pass (l l' : List Slot) :
    (((f.pass l p).rouse a).pass l' p).rouse b = (f.pass (l ++ l') p).rouse (fun q => b q && a q) := by
  refine Family.ext (funext fun q => ?_) rfl rfl rfl
  refine Life.ext rfl (Bool.and_assoc _ _ _).symm rfl ?_ rfl rfl rfl
  show (if q ∈ l' ∧ (if q ∈ l ∧ _ then _ else _) = some p then f.initproc else
    if q ∈ l ∧ _ then _ else _) = if q ∈ l ++ l' ∧ _ then _ else _
  grind

section bury

variable (status : ℤ)

theorem bury_parent : ((f.bury p status).life q).parent
    = if (f.life q).parent = some p then f.initproc else (f.life q).parent := by
  have hmem : q ∈ slots := List.mem_finRange q
  unfold bury
  rw [set_keep _ p q _ Life.parent rfl, pass_life]
  simp only [hmem, true_and]

theorem bury_stage_self : ((f.bury p status).life p).stage = .zombie := by
  unfold bury
  rw [set_life_self]

theorem bury_status_self : ((f.bury p status).life p).status = status := by
  unfold bury
  rw [set_life_self]

/-- Of the other processes `exit` writes the parent only. -/
theorem bury_of_ne (h : q ≠ p) : (f.bury p status).life q
    = { f.life q with parent := ((f.bury p status).life q).parent } := by
  unfold bury
  rw [set_life_of_ne _ _ _ _ h]
  rfl

theorem bury_asleep : ((f.bury p status).life q).asleep = (f.life q).asleep := by
  unfold bury
  rw [set_keep _ p q _ Life.asleep rfl]
  rfl

theorem bury_forking : ((f.bury p status).life q).forking = (f.life q).forking := by
  unfold bury
  rw [set_keep _ p q _ Life.forking rfl]
  rfl

theorem bury_pid : ((f.bury p status).life q).pid = (f.life q).pid := by
  unfold bury
  rw [set_keep _ p q _ Life.pid rfl]
  rfl

end bury

theorem asleep_rouse {f : Family} {a : Slot → Bool} {q : Slot}
    (h : ((f.rouse a).life q).asleep = true) : (f.life q).asleep = true := by
  have hq : (a q && (f.life q).asleep) = true := h
  rw [Bool.and_eq_true] at hq
  exact hq.2

end

end Family

/-- What a family knows of the process in slot `p`. -/
def Proc.life (p : Slot) (x : Proc) : Life where
  stage := x.state.stage
  asleep := decide (x.state = .SLEEPING ∧ x.context = .wait ∧ x.chan = .proc p)
  pid := x.pid
  parent := x.parent
  killed := x.killed
  status := x.status
  forking := x.forking

/-- In another state nobody sleeps in `wait`. -/
theorem Proc.asleep_of_state {p : Slot} {x : Proc} (h : x.state ≠ .SLEEPING) :
    (x.life p).asleep = false :=
  decide_eq_false (fun hx => h hx.1)

theorem Proc.asleep_congr {p : Slot} {x y : Proc} (hx : x.state ≠ .SLEEPING)
    (hy : y.state ≠ .SLEEPING) : (x.life p).asleep = (y.life p).asleep :=
  (asleep_of_state hx).trans (asleep_of_state hy).symm

namespace Kernel

variable {D : Type} {n : ℕ}

/-- **The family in the kernel.** -/
def family (k : Kernel D n) : Family where
  life := fun p => (k.proc p).life p
  initproc := k.initproc
  nextpid := k.nextpid
  boot := k.boot

theorem asleep_family {k : Kernel D n} {p : Slot} : (k.family.life p).asleep = true ↔
    (k.proc p).state = .SLEEPING ∧ (k.proc p).context = .wait ∧ (k.proc p).chan = .proc p :=
  decide_eq_true_iff

section view

variable (k : Kernel D n) (p : Slot) (g : Proc → Proc)

theorem family_congr {k k' : Kernel D n} (hproc : k'.proc = k.proc)
    (hinit : k'.initproc = k.initproc) (hpid : k'.nextpid = k.nextpid) (hboot : k'.boot = k.boot) :
    k'.family = k.family := by
  unfold family
  rw [hproc, hinit, hpid, hboot]

/-- A write to a process is a write to its life. -/
theorem family_setProc (o : Life → Life) (h : (g (k.proc p)).life p = o ((k.proc p).life p)) :
    (k.setProc p g).family = k.family.set p o := by
  refine Family.ext (funext fun q => ?_) rfl rfl rfl
  refine (apply_update (fun q x => Proc.life q x) k.proc p _ q).trans ?_
  rw [h]
  rfl

/-- A write that no family sees. -/
theorem family_setProc_keep (h : (g (k.proc p)).life p = (k.proc p).life p) :
    (k.setProc p g).family = k.family := by
  rw [family_setProc k p g id h]
  exact Family.set_eq_self rfl

variable [Scheduling D Slot]

theorem family_makeRunnable :
    (k.makeRunnable p).family
      = k.family.set p (fun l => { l with stage := .active, asleep := false }) := by
  have hsame : (k.makeRunnable p).family
      = (k.setProc p (fun x => { x with state := .RUNNABLE, accumulator := k.getMin })).family :=
    family_congr (makeRunnable_proc k p) rfl rfl rfl
  rw [hsame]
  exact family_setProc k p _ _
    (Life.ext rfl (Proc.asleep_of_state ProcState.noConfusion) rfl rfl rfl rfl rfl)

/-- The end of `userinit` and of `fork`. -/
theorem family_makeRunnable_of_embryo (h : (k.proc p).state = .EMBRYO) :
    (k.makeRunnable p).family = k.family.set p (fun l => { l with stage := .active }) := by
  have hasleep : (k.family.life p).asleep = false :=
    Proc.asleep_of_state (x := k.proc p) (by rw [h]; decide)
  rw [family_makeRunnable]
  exact Family.set_congr (Life.ext rfl hasleep.symm rfl rfl rfl rfl rfl)

theorem family_switchTo (c : Fin n) (ds : D) (h : (k.proc p).state = .RUNNABLE) :
    (k.switchTo c p ds).family = k.family := by
  have hsame : (k.switchTo c p ds).family
      = (k.setProc p (fun x => { x with state := .RUNNING })).family := rfl
  rw [hsame]
  refine family_setProc_keep k p _ (Life.ext ?_ ?_ rfl rfl rfl rfl rfl)
  · exact (congrArg ProcState.stage h).symm
  · exact Proc.asleep_congr ProcState.noConfusion (by rw [h]; decide)

theorem family_sched (c : Fin n) (ctx : Context) :
    (k.sched c p ctx).family = (k.setProc p (fun x => { x with context := ctx })).family := by
  by_cases h : (k.proc p).state = .RUNNABLE
  · rw [sched_of_runnable k p c ctx h]
    exact family_setProc_keep (((k.setProc p (fun x => { x with context := ctx })).setCpu c none).rpRemove p)
      p (fun x => { x with accumulator := wrap64 (x.accumulator + x.priority) }) rfl
  · rw [sched_of_not_runnable k p c ctx h]
    rfl

/-- Going through the scheduler means nothing to a family, but for who goes to
sleep. -/
theorem family_sched_of_state (c : Fin n) (ctx : Context) (h : (k.proc p).state ≠ .SLEEPING) :
    (k.sched c p ctx).family = k.family := by
  rw [family_sched]
  exact family_setProc_keep k p _ (Life.ext rfl (Proc.asleep_congr h h) rfl rfl rfl rfl rfl)

theorem family_yield (c : Fin n) (h : (k.proc p).state = .RUNNING) :
    ((((k.setProc p (fun x => { x with state := .RUNNABLE })).rpRemove p).pqPut p).sched
      c p .yield).family = k.family := by
  rw [family_sched_of_state]
  · refine family_setProc_keep k p (fun x => { x with state := .RUNNABLE })
      (Life.ext ?_ ?_ rfl rfl rfl rfl rfl)
    · exact (congrArg ProcState.stage h).symm
    · exact Proc.asleep_congr ProcState.noConfusion (by rw [h]; decide)
  · simp

omit [Scheduling D Slot] in
theorem family_allocproc {k k₁ : Kernel D n} {p : Slot} (ha : k.allocproc = some (p, k₁)) :
    (k.family.life p).stage = .unused ∧ k₁.family = k.family.alloc p := by
  obtain ⟨hp, hproc, hnext, -, hinit, hboot, -⟩ := allocproc_eq_some ha
  refine ⟨ProcState.stage_eq_unused.mpr hp, Family.ext (funext fun q => ?_) hinit hnext hboot⟩
  show (k₁.proc q).life q = _
  rw [hproc, apply_update (fun q x => Proc.life q x)]
  refine congrArg (fun l => update k.family.life p l q) (Life.ext rfl ?_ rfl rfl rfl rfl rfl)
  exact Proc.asleep_congr ProcState.noConfusion (by rw [hp]; decide)

/-- `sleep` is a nap in `wait` if the context and the channel say so. -/
theorem family_sleepLocked (c : Fin n) (chan : Chan) (ctx : Context)
    (h : (k.proc p).state.stage = .active) :
    (k.sleepLocked c p chan ctx).family
      = k.family.set p (fun l => { l with asleep := decide (ctx = .wait ∧ chan = .proc p) }) := by
  have hsame : (k.sleepLocked c p chan ctx).family = (k.setProc p (fun x =>
      { x with chan := chan, state := .SLEEPING, context := ctx })).family := by
    show (Kernel.sched c p ctx _).family = _
    rw [family_sched]
    refine family_congr ?_ rfl rfl rfl
    rw [setProc_proc, rpRemove_proc, setProc_proc, update_self, update_idem]
    rfl
  rw [hsame]
  refine family_setProc k p _ _ (Life.ext h.symm ?_ rfl rfl rfl rfl rfl)
  simp [Proc.life]

end view

/-! ## The loops -/

section loops

variable [Scheduling D Slot]

theorem family_makeRunnable_of_sleeping (k : Kernel D n) (p : Slot)
    (h : (k.proc p).state = .SLEEPING) :
    (k.makeRunnable p).family = k.family.rouse (fun q => decide (q ≠ p)) := by
  rw [family_makeRunnable]
  refine Family.ext (funext fun q => ?_) rfl rfl rfl
  by_cases hq : q = p
  · subst hq
    rw [Family.set_life_self]
    refine Life.ext ?_ ?_ rfl rfl rfl rfl rfl
    · show LifeStage.active = (k.proc q).state.stage
      rw [h]
      rfl
    · show false = (decide (q ≠ q) && _)
      simp
  · rw [Family.set_life_of_ne _ _ _ _ hq]
    refine Life.ext rfl ?_ rfl rfl rfl rfl rfl
    show _ = (decide (q ≠ p) && _)
    simp [hq]

theorem wakeup1_rouse (k : Kernel D n) (chan : Chan) :
    ∃ a, (k.wakeup1 chan).family = k.family.rouse a := by
  refine wakeup1_induction (I := fun k' => ∃ a, k'.family = k.family.rouse a) ?_
    ⟨fun _ => true, (Family.rouse_true _).symm⟩
  rintro k' p ⟨a, ha⟩ hs -
  refine ⟨fun q => decide (q ≠ p) && a q, ?_⟩
  rw [family_makeRunnable_of_sleeping k' p hs, ha, Family.rouse_rouse]

/-- Nobody sleeps on the channel after `wakeup1`. -/
theorem wakeup1_awake (k : Kernel D n) (chan : Chan) (q : Slot) :
    ¬(((k.wakeup1 chan).proc q).state = .SLEEPING ∧ ((k.wakeup1 chan).proc q).chan = chan) := by
  have hloop : ∀ (l : List Slot) (k : Kernel D n), (∀ q, q ∈ l ∨
      ¬((k.proc q).state = .SLEEPING ∧ (k.proc q).chan = chan)) →
      ∀ q, ¬(((l.foldl (wakeupSlot chan) k).proc q).state = .SLEEPING ∧
        ((l.foldl (wakeupSlot chan) k).proc q).chan = chan) := by
    intro l
    induction l with
    | nil => exact fun k h q => (h q).resolve_left List.not_mem_nil
    | cons p l ih =>
      intro k h
      refine ih _ (fun q => ?_)
      have hq := h q
      unfold wakeupSlot
      split
      · rw [makeRunnable_proc]
        grind [update_apply]
      · grind
  unfold wakeup1
  exact hloop slots k (fun q => .inl (List.mem_finRange q)) q

theorem asleep_wakeup1 (k : Kernel D n) (p : Slot) :
    ((k.wakeup1 (.proc p)).family.life p).asleep = false := by
  refine Bool.eq_false_of_not_eq_true (fun h => ?_)
  rw [asleep_family] at h
  exact k.wakeup1_awake (.proc p) p ⟨h.1, h.2.2⟩

/-- **The loop of `exit` over a part of the table** passes the children there
to `initproc`, and wakes it up if one of them is a zombie. -/
def Passed (curproc : Slot) (l : List Slot) (f f' : Family) : Prop :=
  (∃ a, f' = (f.pass l curproc).rouse a) ∧
    ∀ q ∈ l, (f.life q).parent = some curproc → (f.life q).stage = .zombie →
      ∀ i, f.initproc = some i → (f'.life i).asleep = false

theorem passed_passChild (curproc : Slot) (k : Kernel D n) (p : Slot) :
    Passed curproc [p] k.family (passChild curproc k p).family := by
  unfold passChild
  by_cases hp : (k.proc p).parent = some curproc
  · rw [if_pos hp]
    dsimp only
    have hfam : (k.setProc p (fun x => { x with parent := k.initproc })).family
        = k.family.pass [p] curproc := by
      rw [family_setProc k p _ (fun l => { l with parent := k.initproc }) rfl]
      refine Family.ext (funext fun q => ?_) rfl rfl rfl
      rw [Family.set_life]
      split
      · next hq =>
        rw [hq]
        simp [Family.pass, family, Proc.life, hp]
      · next hq => simp [Family.pass, hq]
    have hstate : ((k.setProc p (fun x => { x with parent := k.initproc })).proc p).state
        = (k.proc p).state := setProc_keep k p p _ Proc.state rfl
    have hinit : (k.setProc p (fun x => { x with parent := k.initproc })).initproc
        = k.initproc := rfl
    generalize k.setProc p (fun x => { x with parent := k.initproc }) = k₁ at hfam hstate hinit ⊢
    by_cases hz : (k₁.proc p).state = .ZOMBIE
    · rw [if_pos hz]
      obtain ⟨a, ha⟩ := k₁.wakeup1_rouse (.ofPtr k₁.initproc)
      refine ⟨⟨a, by rw [ha, hfam]⟩, fun q _ _ _ i hi => ?_⟩
      have hchan : Chan.ofPtr k₁.initproc = .proc i := by
        rw [hinit, show k.initproc = some i from hi]
        rfl
      rw [hchan]
      exact k₁.asleep_wakeup1 i
    · rw [if_neg hz]
      refine ⟨⟨fun _ => true, by rw [hfam, Family.rouse_true]⟩, fun q hq _ hzq => ?_⟩
      obtain rfl := List.mem_singleton.mp hq
      exact absurd (hstate.trans (ProcState.stage_eq_zombie.mp hzq)) hz
  · rw [if_neg hp]
    refine ⟨⟨fun _ => true, ?_⟩, fun q hq hpar => ?_⟩
    · rw [Family.rouse_true]
      refine Family.ext (funext fun q => Life.ext rfl rfl rfl (if_neg ?_).symm rfl rfl rfl) rfl rfl rfl
      rintro ⟨hq, hpar⟩
      exact hp (List.mem_singleton.mp hq ▸ hpar)
    · exact absurd (List.mem_singleton.mp hq ▸ hpar) hp

omit [Scheduling D Slot] in
theorem Passed.trans {curproc : Slot} {l l' : List Slot} {f f₁ f₂ : Family}
    (h : Passed curproc l f f₁) (h' : Passed curproc l' f₁ f₂) : Passed curproc (l ++ l') f f₂ := by
  obtain ⟨⟨a, rfl⟩, hwoken⟩ := h
  obtain ⟨⟨b, rfl⟩, hwoken'⟩ := h'
  refine ⟨⟨fun q => b q && a q, Family.pass_rouse_pass f curproc a b l l'⟩,
    fun q hq hpar hz i hi => ?_⟩
  by_cases hl : q ∈ l
  · have hawake := hwoken q hl hpar hz i hi
    grind
  · exact hwoken' q (by grind) (by grind) hz i hi

theorem passed_foldl (curproc : Slot) (l : List Slot) (k : Kernel D n) :
    Passed curproc l k.family (l.foldl (passChild curproc) k).family := by
  induction l generalizing k with
  | nil =>
    refine ⟨⟨fun _ => true, ?_⟩, fun q hq => absurd hq List.not_mem_nil⟩
    rw [Family.rouse_true]
    exact (Family.pass_nil _ _).symm
  | cons p l ih => exact (passed_passChild curproc k p).trans (ih _)

end loops

/-- The steps of a run, with the states around them. -/
abbrev History (D : Type) (n : ℕ) := List (Machine.Step (Kernel D n) (Event n) (Option Return))

/-! ## What a step means to the family -/

section lives

/-- The steps in which a process may be in the scan of `wait`. -/
def InWait (e : Event n) : Prop := (∃ c, e = .wait c) ∨ ∃ c, e = .dispatch c

/-- The steps that are about scheduling only. -/
def Quiet : Event n → Prop
  | .dispatch _ | .yield _ | .sleep _ _ | .wakeup _ | .priority _ _ => True
  | _ => False

/-- The requests that are turned down. -/
def Refused (e : Event n) : Prop :=
  (∃ c, e = .forkAlloc c) ∨ (∃ c pid, e = .kill c pid) ∨ ∃ c pid, e = .detach c pid

/-- **What a step means to the family.** -/
inductive Lives (k : Kernel D n) : Event n → Option Return → Kernel D n → Prop
  | quiet {e : Event n} {k' : Kernel D n} (a : Slot → Bool) (he : Quiet e)
      (h : k'.family = k.family.rouse a) : Lives k e none k'
  | refused {e : Event n} {p : Slot} {k' : Kernel D n} (he : Refused e)
      (h : k'.family = k.family) : Lives k e (some ⟨p, -1, none⟩) k'
  | userinitAlloc {p : Slot} {k' : Kernel D n} (hb : k.boot = .main)
      (hp : (k.family.life p).stage = .unused)
      (h : k'.family = { k.family.alloc p with initproc := some p, boot := .userinit p }) :
      Lives k .userinitAlloc none k'
  | userinit {p : Slot} {k' : Kernel D n} (hb : k.boot = .userinit p)
      (h : k'.family = { k.family.set p (fun l => { l with stage := .active }) with boot := .done }) :
      Lives k .userinit none k'
  | alloc {c : Fin n} {p np : Slot} {k' : Kernel D n} (hc : k.cpuProc c = some p)
      (hp : (k.family.life p).stage = .active) (hf : (k.family.life p).forking = .no)
      (hnp : (k.family.life np).stage = .unused)
      (h : k'.family = (k.family.alloc np).set p (fun l => { l with forking := .allocated np })) :
      Lives k (.forkAlloc c) none k'
  | abandon {c : Fin n} {p np : Slot} {k' : Kernel D n} (hc : k.cpuProc c = some p)
      (hp : (k.family.life p).stage = .active) (hf : (k.family.life p).forking = .allocated np)
      (h : k'.family = (k.family.set np (fun l => { l with stage := .unused })).set p
        (fun l => { l with forking := .no })) :
      Lives k (.forkFail c) (some ⟨p, -1, none⟩) k'
  | copy {c : Fin n} {p np : Slot} {k' : Kernel D n} (hc : k.cpuProc c = some p)
      (hp : (k.family.life p).stage = .active) (hf : (k.family.life p).forking = .allocated np)
      (h : k'.family = (k.family.set np (fun l => { l with parent := some p })).set p
        (fun l => { l with forking := .copied np })) :
      Lives k (.forkCopy c) none k'
  | birth {c : Fin n} {p np : Slot} {k' : Kernel D n} (hc : k.cpuProc c = some p)
      (hp : (k.family.life p).stage = .active) (hf : (k.family.life p).forking = .copied np)
      (h : k'.family = (k.family.set np (fun l => { l with stage := .active })).set p
        (fun l => { l with forking := .no })) :
      Lives k (.fork c) (some ⟨p, (k.family.life np).pid, none⟩) k'
  | exit {c : Fin n} {p : Slot} {status : Int32} {k' : Kernel D n} (a : Slot → Bool)
      (hc : k.cpuProc c = some p) (hp : (k.family.life p).stage = .active)
      (hf : (k.family.life p).forking = .no) (hinit : k.initproc ≠ some p)
      (hpar : ∀ x, (k.family.life p).parent = some x → (k'.family.life x).asleep = false)
      (hwoken : ∀ q, (k.family.life q).parent = some p → (k.family.life q).stage = .zombie →
        ∀ i, k.initproc = some i → (k'.family.life i).asleep = false)
      (h : k'.family = (k.family.rouse a).bury p status.toInt) :
      Lives k (.exit c status) none k'
  | reap {e : Event n} {p q : Slot} {k' : Kernel D n} (he : InWait e)
      (hpar : (k.family.life q).parent = some p) (hz : (k.family.life q).stage = .zombie)
      (h : k'.family = k.family.set q (fun l =>
        { l with pid := 0, parent := none, killed := false, stage := .unused })) :
      Lives k e (some ⟨p, (k.family.life q).pid, some (k.family.life q).status⟩) k'
  | waitFail {e : Event n} {p : Slot} {k' : Kernel D n} (he : InWait e)
      (hwhy : (∀ q, (k.family.life q).parent ≠ some p) ∨ (k.family.life p).killed = true)
      (h : k'.family = k.family) : Lives k e (some ⟨p, -1, none⟩) k'
  | waitSleep {e : Event n} {p : Slot} {k' : Kernel D n} (he : InWait e)
      (hz : ∀ q, (k.family.life q).parent = some p → (k.family.life q).stage ≠ .zombie)
      (h : k'.family = k.family.set p (fun l => { l with asleep := true })) : Lives k e none k'
  | kill {c : Fin n} {p q : Slot} {pid : Int32} {k' : Kernel D n} (a : Slot → Bool)
      (hc : k.cpuProc c = some p)
      (hfind : slots.find? (fun p => (k.proc p).pid = pid.toInt) = some q)
      (h : k'.family = (k.family.set q (fun l => { l with killed := true })).rouse a) :
      Lives k (.kill c pid) (some ⟨p, 0, none⟩) k'
  | detach {c : Fin n} {p q : Slot} {pid : Int32} {k' : Kernel D n} (hc : k.cpuProc c = some p)
      (hp : (k.family.life p).stage = .active) (hf : (k.family.life p).forking = .no)
      (hfind : slots.find? (fun q => (k.proc q).pid = pid.toInt ∧ (k.proc q).parent = some p)
        = some q)
      (h : k'.family = k.family.set q (fun l => { l with parent := k.initproc })) :
      Lives k (.detach c pid) (some ⟨p, 0, none⟩) k'

variable [Scheduling D Slot] {k k' : Kernel D n}

/-- The scan of `wait` by a process that is alive. -/
theorem lives_of_waits {e : Event n} {c : Fin n} {p : Slot} {r : Option Return} {k₁ : Kernel D n}
    (he : InWait e) (hfam : k₁.family = k.family) (hp : (k.family.life p).stage = .active)
    (hw : Waits c p k₁ r k') : Lives k e r k' := by
  have hlife : ∀ q, (k₁.proc q).life q = k.family.life q := fun q =>
    congrFun (congrArg Family.life hfam) q
  cases hw with
  | @reap q hpar hz =>
    have hpid : (k₁.proc q).pid = (k.family.life q).pid := congrArg Life.pid (hlife q)
    have hstatus : (k₁.proc q).status = (k.family.life q).status := congrArg Life.status (hlife q)
    rw [hpid, hstatus]
    refine .reap he (by rw [← hlife q]; exact hpar) ?_ ?_
    · rw [← hlife q]
      exact ProcState.stage_eq_zombie.mpr hz
    · rw [← hfam]
      refine family_setProc k₁ q _ _ (Life.ext rfl ?_ rfl rfl rfl rfl rfl)
      exact Proc.asleep_congr ProcState.noConfusion (by rw [hz]; decide)
  | fail hz hwhy =>
    refine .waitFail he ?_ hfam
    refine hwhy.imp (fun hnone q => ?_) (fun hkill => ?_)
    · rw [← hlife q]
      exact hnone q
    · rw [← hlife p]
      exact hkill
  | sleep hz hkid hkill =>
    refine .waitSleep (p := p) he (fun q hpar hzq => ?_) ?_
    · rw [← hlife q] at hpar hzq
      exact hz q hpar (ProcState.stage_eq_zombie.mp hzq)
    · have hactive : (k₁.proc p).state.stage = .active :=
        (congrArg Life.stage (hlife p)).trans hp
      rw [family_sleepLocked k₁ p c (.proc p) .wait hactive, hfam]
      simp

omit [Scheduling D Slot] in
/-- The writes of `exit` to the family, put together. -/
theorem family_exit_eq (f : Family) (p : Slot) (status : ℤ) (a b : Slot → Bool)
    (hp : (f.life p).asleep = false) :
    ((((f.set p (fun l => { l with status := status })).rouse a).pass slots p).rouse b).set p
        (fun l => { l with stage := .zombie, asleep := false })
      = (f.rouse (fun q => b q && a q)).bury p status := by
  unfold Family.bury
  refine Family.ext (funext fun q => ?_) rfl rfl rfl
  by_cases hq : q = p
  · subst hq
    simp only [Family.set_life_self, Family.rouse_life, Family.pass_life]
    refine Life.ext rfl ?_ rfl rfl rfl rfl rfl
    show false = (b q && a q && (f.life q).asleep)
    rw [hp, Bool.and_false]
  · simp only [Family.set_life_of_ne _ _ _ _ hq, Family.rouse_life, Family.pass_life]
    exact Life.ext rfl (Bool.and_assoc _ _ _).symm rfl rfl rfl rfl rfl

/-- `exit`, with its two loops. -/
theorem lives_exit {c : Fin n} {p : Slot} {status : Int32} (hc : k.cpuProc c = some p)
    (hp : (k.proc p).state = .RUNNING) (hf : (k.proc p).forking = .no)
    (hinit : k.initproc ≠ some p) :
    Lives k (.exit c status) none
      (((slots.foldl (passChild p)
          ((k.setProc p (fun x => { x with status := status.toInt })).wakeup1
            (.ofPtr (k.proc p).parent))).setProc p
        (fun x => { x with state := .ZOMBIE })).sched c p .exit) := by
  have hstatus : (k.setProc p (fun x => { x with status := status.toInt })).family
      = k.family.set p (fun l => { l with status := status.toInt }) := family_setProc k p _ _ rfl
  have hawake : (k.family.life p).asleep = false :=
    Proc.asleep_of_state (x := k.proc p) (by rw [hp]; decide)
  have hstage : (k.family.life p).stage = .active :=
    ProcState.stage_eq_active.mpr (.inr (.inr hp))
  generalize k.setProc p (fun x => { x with status := status.toInt }) = k₁ at hstatus ⊢
  obtain ⟨a, ha⟩ := k₁.wakeup1_rouse (.ofPtr (k.proc p).parent)
  have hparent : ∀ x, (k.proc p).parent = some x →
      ((k₁.wakeup1 (.ofPtr (k.proc p).parent)).family.life x).asleep = false := by
    intro x hx
    have hchan : Chan.ofPtr (k.proc p).parent = .proc x := by
      rw [hx]
      rfl
    rw [hchan]
    exact k₁.asleep_wakeup1 x
  generalize k₁.wakeup1 (.ofPtr (k.proc p).parent) = k₂ at ha hparent ⊢
  obtain ⟨⟨b, hb⟩, hwoken⟩ := passed_foldl p slots k₂
  generalize slots.foldl (passChild p) k₂ = k₃ at hb hwoken ⊢
  have hfam : ((k₃.setProc p (fun x => { x with state := .ZOMBIE })).sched c p .exit).family
      = k₃.family.set p (fun l => { l with stage := .zombie, asleep := false }) := by
    rw [family_sched_of_state]
    · exact family_setProc k₃ p _ _ (Life.ext rfl (Proc.asleep_of_state ProcState.noConfusion)
        rfl rfl rfl rfl rfl)
    · rw [setProc_proc_self]
      exact ProcState.noConfusion
  generalize (k₃.setProc p (fun x => { x with state := .ZOMBIE })).sched c p .exit = k₄ at hfam ⊢
  -- the last two writes wake nobody up, and put nobody to sleep
  have hlast : ∀ x, (k₃.family.life x).asleep = false → (k₄.family.life x).asleep = false := by
    intro x hx
    rw [hfam]
    grind
  have hlife₂ : ∀ q, (k₂.family.life q).parent = (k.family.life q).parent ∧
      (k₂.family.life q).stage = (k.family.life q).stage := by
    intro q
    rw [ha, hstatus]
    exact ⟨Family.set_keep k.family p q _ Life.parent rfl, Family.set_keep k.family p q _ Life.stage rfl⟩
  refine .exit (fun q => b q && a q) hc hstage hf hinit (fun x hx => ?_) (fun q hpar hz i hi => ?_) ?_
  · have hawake₂ := hparent x hx
    refine hlast x ?_
    rw [hb]
    grind
  · refine hlast i (hwoken q (List.mem_finRange q) ((hlife₂ q).1.trans hpar)
      ((hlife₂ q).2.trans hz) i ?_)
    rw [ha, hstatus]
    exact hi
  · rw [hfam, hb, ha, hstatus]
    exact family_exit_eq k.family p _ a b hawake

variable [LawfulScheduling D]

/-- **A step means one thing to the family.** -/
theorem lives_of_step (hr : k.Running) {e : Event n} {r : Option Return}
    (h : k.step e = .ok (r, k')) : Lives k e r k' := by
  have hrunning : ∀ {c p}, k.cpuProc c = some p → (k.proc p).state = .RUNNING :=
    fun hc => hr.state_of_cpu hc
  have hactive : ∀ {c p}, k.cpuProc c = some p → (k.family.life p).stage = .active :=
    fun hc => ProcState.stage_eq_active.mpr (.inr (.inr (hrunning hc)))
  have hrunnable : ∀ {p}, (k.proc p).state = .RUNNABLE → (k.family.life p).stage = .active :=
    fun hp => ProcState.stage_eq_active.mpr (.inr (.inl hp))
  have hsame : ∀ {e : Event n} {k' : Kernel D n}, Quiet e → k'.family = k.family →
      Lives k e none k' := fun he hk =>
    .quiet (fun _ => true) he (by rw [hk, Family.rouse_true])
  have hclear : ∀ {c p ds}, (k.proc p).state = .RUNNABLE →
      ((k.switchTo c p ds).setProc p (fun x => { x with chan := .null })).family = k.family := by
    intro c p ds hp
    rw [family_setProc_keep, family_switchTo k p c ds hp]
    rw [switchTo_proc, update_self]
    exact Life.ext rfl (Proc.asleep_congr ProcState.noConfusion ProcState.noConfusion)
      rfl rfl rfl rfl rfl
  cases moves_of_step h with
  | @userinitAlloc p k₁ hb ha =>
    obtain ⟨hp, hfam⟩ := family_allocproc ha
    refine .userinitAlloc hb hp ?_
    rw [← hfam]
    rfl
  | @userinit p hb =>
    refine .userinit hb ?_
    have hfam := family_makeRunnable_of_embryo (k.setProc p (fun x => { x with priority := 5 })) p
      (by rw [setProc_proc_self]; exact hr.boot hb)
    rw [family_setProc_keep k p _ rfl] at hfam
    rw [← hfam]
    rfl
  | idle => exact hsame trivial rfl
  | drop => exact hsame trivial rfl
  | dispatch hc he hp => exact hsame trivial (family_switchTo k _ _ _ hp)
  | dispatchSleep hc he hp => exact hsame trivial (hclear hp)
  | dispatchWait hc he hp hctx hw =>
    exact lives_of_waits (.inr ⟨_, rfl⟩) (hclear hp) (hrunnable hp) hw
  | yield hc => exact hsame trivial (family_yield k _ _ (hrunning hc))
  | @sleep c p chan hc hf =>
    refine hsame trivial ?_
    rw [family_sleepLocked k p c chan .sleep (hactive hc)]
    refine Family.set_eq_self (Life.ext rfl ?_ rfl rfl rfl rfl rfl)
    refine .trans ?_ (Proc.asleep_of_state (x := k.proc p) (by rw [hrunning hc]; decide)).symm
    simp
  | @wakeup chan =>
    obtain ⟨a, ha⟩ := k.wakeup1_rouse chan
    exact .quiet a trivial ha
  | forkNoProc => exact .refused (.inl ⟨_, rfl⟩) rfl
  | @forkAlloc c p np k₁ hc hf ha =>
    obtain ⟨hnp, hfam⟩ := family_allocproc ha
    refine .alloc hc (hactive hc) hf hnp ?_
    rw [family_setProc k₁ p _ (fun l => { l with forking := .allocated np }) rfl, hfam]
  | @forkFail c p np hc hf =>
    refine .abandon hc (hactive hc) hf ?_
    have hnp : (k.setProc np (fun x => { x with state := .UNUSED })).family
        = k.family.set np (fun l => { l with stage := .unused }) := by
      refine family_setProc k np _ _ (Life.ext rfl ?_ rfl rfl rfl rfl rfl)
      have hemb : (k.proc np).state = .EMBRYO := hr.child (by rw [hf]; rfl)
      exact Proc.asleep_congr ProcState.noConfusion (by rw [hemb]; decide)
    rw [← hnp]
    exact family_setProc _ p _ _ rfl
  | @forkCopy c p np hc hf =>
    refine .copy hc (hactive hc) hf ?_
    have hnp : (k.setProc np (fun x => { x with parent := some p })).family
        = k.family.set np (fun l => { l with parent := some p }) := family_setProc k np _ _ rfl
    rw [← hnp]
    exact family_setProc _ p _ _ rfl
  | @fork c p np hc hf =>
    refine .birth hc (hactive hc) hf ?_
    have hfam := family_makeRunnable_of_embryo (k.setProc np (fun x => { x with priority := 5 })) np
      (by rw [setProc_proc_self]; exact hr.child (by rw [hf]; rfl))
    rw [family_setProc_keep k np _ rfl] at hfam
    rw [← hfam]
    exact family_setProc _ p _ _ rfl
  | exit hc hf hinit => exact lives_exit hc (hrunning hc) hf hinit
  | wait hc hf hw => exact lives_of_waits (.inl ⟨_, rfl⟩) rfl (hactive hc) hw
  | killNone => exact .refused (.inr (.inl ⟨_, _, rfl⟩)) rfl
  | @killSleeping c p q pid hc hf hfind hs =>
    refine .kill (fun x => decide (x ≠ q)) hc hfind ?_
    rw [family_makeRunnable_of_sleeping, family_setProc k q _ (fun l => { l with killed := true }) rfl]
    rw [setProc_proc_self]
    exact hs
  | @kill c p q pid hc hf hfind hs =>
    refine .kill (fun _ => true) hc hfind ?_
    rw [Family.rouse_true]
    exact family_setProc k q _ _ rfl
  | detachNone => exact .refused (.inr (.inr ⟨_, _, rfl⟩)) rfl
  | detach hc hf hfind =>
    exact .detach hc (hactive hc) hf hfind (family_setProc k _ _ _ rfl)
  | priority => exact hsame trivial (family_setProc_keep k _ _ rfl)

end lives

end Kernel

end Xv6
