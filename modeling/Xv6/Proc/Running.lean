import Xv6.Proc.Moves

/-!
# The three views of "running"

A process is running if its state says so, if some CPU's `proc` points to
it, and if it is in `rpholder`. `Running` is the invariant that the three
agree, together with what it needs to be inductive: the slot a `fork` is
building, or `userinit`, stays in state `EMBRYO` and has one builder, so
that the writes made without the lock cannot hit a running process.

The invariant says nothing about the priority queue and does not need to:
`rpholder.add` follows an extraction, which has freed a link.
-/

namespace Xv6

open Function

namespace Kernel

variable {D : Type} {n : ℕ} [Scheduling D Slot] [LawfulScheduling D]

/-- **The three views of what runs agree**: the states in the table, the processes of the CPUs, of
which no two have the same one, and the list `rpholder`. -/
structure Views (k : Kernel D n) : Prop where
  state_iff_cpu : ∀ p, (k.proc p).state = .RUNNING ↔ ∃ c, k.cpuProc c = some p
  cpu_inj : ∀ {c c' p}, k.cpuProc c = some p → k.cpuProc c' = some p → c = c'
  mem_rp_iff : ∀ p, p ∈ k.queues.rp ↔ (k.proc p).state = .RUNNING
  nodup_rp : k.queues.rp.Nodup

omit [Scheduling D Slot] [LawfulScheduling D] in
/-- **Every embryo has one builder**: a `fork` or `userinit`. -/
structure Embryos (k : Kernel D n) : Prop where
  child : ∀ {p np}, (k.proc p).forking.child = some np → (k.proc np).state = .EMBRYO
  child_inj : ∀ {p q np}, (k.proc p).forking.child = some np →
    (k.proc q).forking.child = some np → p = q
  boot : ∀ {p}, k.boot = .userinit p → (k.proc p).state = .EMBRYO
  boot_child : ∀ {p q}, k.boot = .userinit p → (k.proc q).forking.child ≠ some p

/-- **The invariant of this file**, which every step preserves. -/
structure Running (k : Kernel D n) : Prop extends Views k, Embryos k

variable {k k' : Kernel D n} {c : Fin n} {p : Slot}

/-! ## Embryos -/

namespace Embryos

omit [Scheduling D Slot] [LawfulScheduling D]

/-- No embryo is lost, and nobody starts or ends building one. -/
theorem congr (h : k.Embryos) (hemb : ∀ p, (k.proc p).state = .EMBRYO → (k'.proc p).state = .EMBRYO)
    (hchild : ∀ p, (k'.proc p).forking.child = (k.proc p).forking.child)
    (hboot : k'.boot = k.boot) : k'.Embryos := by
  obtain ⟨hchild₀, hinj, hboot₀, hboot_child⟩ := h
  constructor <;> grind

/-- **A `fork` begins**: an unused slot becomes the embryo of `p`. -/
theorem startFork (h : k.Embryos) {np : Slot} (hnp : (k.proc np).state = .UNUSED)
    (hemb : ∀ q, (k.proc q).state = .EMBRYO → (k'.proc q).state = .EMBRYO)
    (hnp' : (k'.proc np).state = .EMBRYO)
    (hchild : ∀ q, (k'.proc q).forking.child
      = if q = p then some np else (k.proc q).forking.child)
    (hboot : k'.boot = k.boot) : k'.Embryos := by
  obtain ⟨hchild₀, hinj, hboot₀, hboot_child⟩ := h
  constructor <;> grind [Forking.child]

/-- **A `fork` ends**: its embryo is one no longer, and the process has
none. -/
theorem endFork (h : k.Embryos) {np : Slot} (hp : (k.proc p).forking.child = some np)
    (hstate : ∀ q, q ≠ np → (k'.proc q).state = (k.proc q).state)
    (hchild : ∀ q, (k'.proc q).forking.child = if q = p then none else (k.proc q).forking.child)
    (hboot : k'.boot = k.boot) : k'.Embryos := by
  obtain ⟨hchild₀, hinj, hboot₀, hboot_child⟩ := h
  constructor <;> grind

/-- `userinit` begins. -/
theorem startBoot (h : k.Embryos) {np : Slot} (hnp : (k.proc np).state = .UNUSED)
    (hemb : ∀ q, (k.proc q).state = .EMBRYO → (k'.proc q).state = .EMBRYO)
    (hnp' : (k'.proc np).state = .EMBRYO)
    (hchild : ∀ q, (k'.proc q).forking.child = (k.proc q).forking.child)
    (hboot : k'.boot = .userinit np) : k'.Embryos := by
  obtain ⟨hchild₀, hinj, hboot₀, hboot_child⟩ := h
  constructor <;> grind

/-- `userinit` ends. -/
theorem endBoot (h : k.Embryos) {np : Slot} (hb : k.boot = .userinit np)
    (hstate : ∀ q, q ≠ np → (k'.proc q).state = (k.proc q).state)
    (hchild : ∀ q, (k'.proc q).forking.child = (k.proc q).forking.child)
    (hboot : k'.boot = .done) : k'.Embryos := by
  obtain ⟨hchild₀, hinj, hboot₀, hboot_child⟩ := h
  constructor <;> grind

end Embryos

/-! ## Leaving and entering a CPU -/

namespace Views

theorem state_of_cpu (h : k.Views) (hc : k.cpuProc c = some p) : (k.proc p).state = .RUNNING :=
  (h.state_iff_cpu p).mpr ⟨c, hc⟩

/-- The same processes run. -/
theorem congr (h : k.Views) (hrun : ∀ p, (k'.proc p).state = .RUNNING ↔ (k.proc p).state = .RUNNING)
    (hcpu : k'.cpuProc = k.cpuProc) (hrp : k'.queues.rp = k.queues.rp) : k'.Views where
  state_iff_cpu p := by
    rw [hrun, hcpu]
    exact h.state_iff_cpu p
  cpu_inj := by
    rw [hcpu]
    exact h.cpu_inj
  mem_rp_iff p := by
    rw [hrp, hrun]
    exact h.mem_rp_iff p
  nodup_rp := by
    rw [hrp]
    exact h.nodup_rp

/-- One slot is written that was not running and is not now. -/
theorem congr_off (h : k.Views) (np : Slot)
    (hstate : ∀ q, q ≠ np → (k'.proc q).state = (k.proc q).state)
    (hnp : (k.proc np).state ≠ .RUNNING) (hnp' : (k'.proc np).state ≠ .RUNNING)
    (hcpu : k'.cpuProc = k.cpuProc) (hrp : k'.queues.rp = k.queues.rp) : k'.Views := by
  exact h.congr (fun q => by grind) hcpu hrp

/-- **Leaving**: the process on CPU `c` stops running, in all three views. -/
theorem leave (h : k.Views) (hc : k.cpuProc c = some p)
    (hproc : ∀ q, q ≠ p → (k'.proc q).state = (k.proc q).state)
    (hp : (k'.proc p).state ≠ .RUNNING)
    (hcpu : k'.cpuProc = update k.cpuProc c none)
    (hrp : k'.queues.rp = k.queues.rp.erase p) : k'.Views := by
  have hcpu_iff : ∀ c' q, k'.cpuProc c' = some q ↔ k.cpuProc c' = some q ∧ q ≠ p := by
    intro c' q
    have hinj := @h.cpu_inj c' c
    rw [hcpu, update_apply]
    split <;> grind
  have hrun : ∀ q, (k'.proc q).state = .RUNNING ↔ (k.proc q).state = .RUNNING ∧ q ≠ p := by
    grind
  refine ⟨fun q => ?_, ?_, fun q => ?_, ?_⟩
  · rw [hrun, h.state_iff_cpu]
    simp only [hcpu_iff, exists_and_right]
  · intro c₁ c₂ q h₁ h₂
    exact h.cpu_inj ((hcpu_iff _ _).mp h₁).1 ((hcpu_iff _ _).mp h₂).1
  · rw [hrp, h.nodup_rp.mem_erase_iff, hrun, h.mem_rp_iff, and_comm]
  · rw [hrp]
    exact h.nodup_rp.erase p

/-- **Entering**: the process taken from the queue runs on the idle CPU
`c`, in all three views. There is a link for `rpholder` because the queue
has just given one back. -/
theorem switchTo (h : k.Views) (hc : k.cpuProc c = none) {ds : D}
    (he : Scheduling.pqExtractMin k.ds = (some p, ds)) (hp : (k.proc p).state = .RUNNABLE) :
    (k.switchTo c p ds).Views := by
  have hstate : ∀ q, ((k.switchTo c p ds).proc q).state
      = if q = p then .RUNNING else (k.proc q).state := by
    intro q
    rw [switchTo_proc, update_apply]
    split <;> rfl
  have hnot : ∀ c', k.cpuProc c' ≠ some p := by
    intro c' hc'
    have := (h.state_of_cpu hc').symm.trans hp
    cases this
  have hrp : (k.switchTo c p ds).queues.rp = k.queues.rp ++ [p] := by
    obtain ⟨a, es, -, hq⟩ := k.queues_switchTo p c he
    rw [hq]
  refine ⟨fun q => ?_, ?_, fun q => ?_, ?_⟩
  · rw [hstate, switchTo_cpuProc]
    by_cases hqp : q = p
    · rw [if_pos hqp]
      exact ⟨fun _ => ⟨c, hqp ▸ update_self _ _ _⟩, fun _ => rfl⟩
    · rw [if_neg hqp, h.state_iff_cpu]
      exact exists_congr (fun c' => by rw [update_apply]; split <;> grind)
  · intro c₁ c₂ q h₁ h₂
    rw [switchTo_cpuProc, update_apply] at h₁ h₂
    have hinj := @h.cpu_inj
    grind
  · rw [hrp, hstate, List.mem_append, List.mem_singleton, h.mem_rp_iff]
    by_cases hqp : q = p <;> simp [hqp]
  · rw [hrp, List.nodup_append]
    refine ⟨h.nodup_rp, List.nodup_singleton p, ?_⟩
    rintro a ha b hb rfl
    rw [List.mem_singleton.mp hb, h.mem_rp_iff, hp] at ha
    cases ha

end Views

/-! ## Steps and runs -/

namespace Running

theorem boot₀ {ds : D} (hds : LawfulScheduling.hom.toFun ds = Queues.empty) :
    (Kernel.boot₀ (n := n) ds).Running := by
  have hq : (Kernel.boot₀ (n := n) ds).queues = Queues.empty := hds
  refine ⟨⟨fun p => ?_, ?_, fun p => ?_, ?_⟩, ⟨?_, ?_, ?_, ?_⟩⟩
  · simp [Kernel.boot₀, Proc.zero]
  · simp [Kernel.boot₀]
  · rw [hq]
    simp [Queues.empty, Kernel.boot₀, Proc.zero]
  · rw [hq]
    exact List.nodup_nil
  all_goals simp [Kernel.boot₀, Proc.zero, Forking.child]

variable (h : k.Running)

include h

/-- **Steps that do not touch the views** keep the invariant: the same
processes run, no embryo is lost, and nobody starts or ends a `fork`. -/
theorem congr (hrun : ∀ p, (k'.proc p).state = .RUNNING ↔ (k.proc p).state = .RUNNING)
    (hemb : ∀ p, (k.proc p).state = .EMBRYO → (k'.proc p).state = .EMBRYO)
    (hchild : ∀ p, (k'.proc p).forking.child = (k.proc p).forking.child)
    (hcpu : k'.cpuProc = k.cpuProc) (hrp : k'.queues.rp = k.queues.rp) (hboot : k'.boot = k.boot) :
    k'.Running :=
  ⟨h.toViews.congr hrun hcpu hrp, h.toEmbryos.congr hemb hchild hboot⟩

/-- One process is written, and neither its being running nor its being an
embryo changes. -/
theorem setProc {f : Proc → Proc}
    (hrun : (f (k.proc p)).state = .RUNNING ↔ (k.proc p).state = .RUNNING)
    (hemb : (k.proc p).state = .EMBRYO → (f (k.proc p)).state = .EMBRYO)
    (hchild : (f (k.proc p)).forking.child = (k.proc p).forking.child) :
    (k.setProc p f).Running := by
  refine h.congr (fun q => ?_) (fun q hq => ?_) (fun q => ?_) rfl rfl rfl
  all_goals
    rw [setProc_proc]
    grind [update_apply]

/-- A sleeping process is made runnable. -/
theorem makeRunnable (hp : (k.proc p).state = .SLEEPING) :
    (k.makeRunnable p).Running := by
  refine (h.setProc (p := p) (f := fun x => { x with state := .RUNNABLE, accumulator := k.getMin })
    ?_ ?_ rfl).congr (fun q => ?_) (fun q hq => ?_) (fun q => ?_) rfl ?_ rfl
  · simp [hp]
  · simp [hp]
  · rw [makeRunnable_proc, setProc_proc]
  · rw [makeRunnable_proc]
    exact hq
  · rw [makeRunnable_proc, setProc_proc]
  · rw [queues_makeRunnable, Queues.put_rp]
    rfl

theorem wakeup1 (chan : Chan) : (k.wakeup1 chan).Running :=
  wakeup1_induction (fun _ _ h hs _ => h.makeRunnable hs) h

theorem switchTo (hc : k.cpuProc c = none) {ds : D}
    (he : Scheduling.pqExtractMin k.ds = (some p, ds)) (hp : (k.proc p).state = .RUNNABLE) :
    (k.switchTo c p ds).Running := by
  refine ⟨h.toViews.switchTo hc he hp, h.toEmbryos.congr (fun q hq => ?_) (fun q => ?_) rfl⟩
  all_goals
    rw [switchTo_proc]
    grind [update_apply]

section

variable (hc : k.cpuProc c = some p)

include hc

/-- `sched` after the process has put its state. Its having left `rpholder`
already makes no difference. -/
theorem sched (ctx : Context) (hproc : ∀ q, q ≠ p → (k'.proc q).state = (k.proc q).state)
    (hp : (k'.proc p).state ≠ .RUNNING)
    (hchild : ∀ q, (k'.proc q).forking.child = (k.proc q).forking.child)
    (hcpu : k'.cpuProc = k.cpuProc)
    (hrp : k'.queues.rp = k.queues.rp ∨ k'.queues.rp = k.queues.rp.erase p)
    (hboot : k'.boot = k.boot) : (k'.sched c p ctx).Running := by
  refine ⟨h.toViews.leave hc (fun q hq => ?_) ?_ ?_ ?_,
    h.toEmbryos.congr (fun q hq => ?_) (fun q => ?_) ?_⟩
  · rw [sched_state]
    exact hproc q hq
  · rw [sched_state]
    exact hp
  · rw [sched_cpuProc, hcpu]
  · rw [rp_sched]
    obtain hrp | hrp := hrp
    · rw [hrp]
    · rw [hrp]
      exact List.erase_of_not_mem h.nodup_rp.not_mem_erase
  · -- the process that leaves was running, so it is not an embryo
    rw [sched_state, hproc q ?_, hq]
    rintro rfl
    rw [h.state_of_cpu hc] at hq
    cases hq
  · rw [sched_forking]
    exact hchild q
  · rw [sched_boot, hboot]

theorem sleepLocked (chan : Chan) (ctx : Context) :
    (k.sleepLocked c p chan ctx).Running := by
  refine h.sched hc ctx (fun q hq => ?_) ?_ (fun q => ?_) rfl (.inr ?_) rfl
  · simp [update_of_ne hq]
  · simp
  · by_cases hq : q = p
    · subst hq
      simp
    · simp [update_of_ne hq]
  · simp

theorem yield :
    ((((k.setProc p (fun x => { x with state := .RUNNABLE })).rpRemove p).pqPut p).sched
      c p .yield).Running := by
  refine h.sched hc .yield (fun q hq => ?_) ?_ (fun q => ?_) rfl (.inr ?_) rfl
  · simp [update_of_ne hq]
  · simp
  · by_cases hq : q = p
    · subst hq
      simp
    · simp [update_of_ne hq]
  · simp

theorem waits {r : Option Return} (hw : Waits c p k r k') : k'.Running := by
  cases hw with
  | reap _ hz => exact h.setProc (by simp [hz]) (by simp [hz]) rfl
  | fail => exact h
  | sleep => exact h.sleepLocked hc _ _

end

theorem startFork {np : Slot} {k₁ : Kernel D n} (ha : k.allocproc = some (np, k₁)) :
    (k₁.setProc p (fun x => { x with forking := .allocated np })).Running := by
  obtain ⟨hnp, hproc, -, hcpu, -, hboot, hds⟩ := allocproc_eq_some ha
  refine ⟨h.toViews.congr_off np (fun q hq => ?_) (by rw [hnp]; decide) ?_ hcpu
    (congrArg (fun ds => (LawfulScheduling.hom.toFun ds).rp) hds),
    h.toEmbryos.startFork (p := p) hnp (fun q hq => ?_) ?_ (fun q => ?_) hboot⟩
  all_goals
    rw [setProc_proc, hproc]
    grind [update_apply, Forking.child]

theorem endFork (np : Slot) (hp : (k.proc p).forking.child = some np)
    (hstate : ∀ q, q ≠ np → (k'.proc q).state = (k.proc q).state)
    (hnp : (k'.proc np).state ≠ .RUNNING)
    (hchild : ∀ q, (k'.proc q).forking.child = if q = p then none else (k.proc q).forking.child)
    (hcpu : k'.cpuProc = k.cpuProc) (hrp : k'.queues.rp = k.queues.rp) (hboot : k'.boot = k.boot) :
    k'.Running :=
  ⟨h.toViews.congr_off np hstate (by rw [h.child hp]; decide) hnp hcpu hrp,
    h.toEmbryos.endFork hp hstate hchild hboot⟩

theorem exit (hc : k.cpuProc c = some p) (status : ℤ) (chan : Chan) :
    (((slots.foldl (passChild p)
        ((k.setProc p (fun x => { x with status := status })).wakeup1 chan)).setProc p
      (fun x => { x with state := .ZOMBIE })).sched c p .exit).Running := by
  -- the loops wake sleepers and pass children on; the CPUs stay as they are
  obtain ⟨hloop, hcpu⟩ := exitLoops_induction
    (I := fun k' : Kernel D n => k'.Running ∧ k'.cpuProc = k.cpuProc) p chan
    (fun k' q hk' _ => ⟨hk'.1.setProc Iff.rfl id rfl, hk'.2⟩)
    (fun k' q hk' hs _ => ⟨hk'.1.makeRunnable hs, hk'.2⟩)
    ⟨h.setProc (p := p) (f := fun x => { x with status := status }) Iff.rfl id rfl, rfl⟩
  generalize slots.foldl (passChild p)
    ((k.setProc p (fun x => { x with status := status })).wakeup1 chan) = k₂ at hloop hcpu ⊢
  refine hloop.sched (by rw [hcpu]; exact hc) .exit (fun q hq => ?_) ?_ (fun q => ?_) rfl
    (.inl rfl) rfl
  · rw [setProc_proc_of_ne _ _ _ _ hq]
  · rw [setProc_proc_self]
    exact ProcState.noConfusion
  · exact setProc_keep _ _ _ _ (fun x => x.forking.child) rfl

/-- **Every step keeps the three views together.** -/
theorem step {e : Event n} {r : Option Return} (hstep : k.step e = .ok (r, k')) :
    k'.Running := by
  cases moves_of_step hstep with
  | @userinitAlloc np k₁ hb ha =>
    obtain ⟨hnp, hproc, -, hcpu, -, hboot, hds⟩ := allocproc_eq_some ha
    refine ⟨h.toViews.congr_off np (fun q hq => ?_) (by rw [hnp]; decide) ?_ hcpu
      (congrArg (fun ds => (LawfulScheduling.hom.toFun ds).rp) hds),
      h.toEmbryos.startBoot hnp (fun q hq => ?_) ?_ (fun q => ?_) rfl⟩
    all_goals
      rw [hproc]
      grind [update_apply]
  | @userinit p hb =>
    refine ⟨h.toViews.congr_off p (fun q hq => ?_) (by rw [h.boot hb]; decide) ?_ rfl ?_,
      h.toEmbryos.endBoot hb (fun q hq => ?_) (fun q => ?_) rfl⟩
    rotate_left 2
    · show (Kernel.makeRunnable p _).queues.rp = _
      simp
    all_goals
      simp only [makeRunnable_proc, setProc_proc]
      grind [update_apply]
  | idle => exact h
  | @drop c p ds hc he hp =>
    refine h.congr (fun _ => Iff.rfl) (fun _ => id) (fun _ => rfl) rfl ?_ rfl
    obtain ⟨a, es, -, hds⟩ := k.exists_of_pqExtractMin p he
    show (LawfulScheduling.hom.toFun ds).rp = k.queues.rp
    rw [hds]
  | dispatch hc he hp => exact h.switchTo hc he hp
  | dispatchSleep hc he hp =>
    exact (h.switchTo hc he hp).setProc Iff.rfl id rfl
  | dispatchWait hc he hp hctx hw =>
    refine ((h.switchTo hc he hp).setProc Iff.rfl id rfl).waits ?_ hw
    exact update_self _ _ _
  | yield hc => exact h.yield hc
  | sleep hc hf => exact h.sleepLocked hc _ _
  | wakeup => exact h.wakeup1 _
  | forkNoProc => exact h
  | forkAlloc hc hf ha => exact h.startFork ha
  | @forkFail c p np hc hf =>
    refine h.endFork (p := p) np (by rw [hf]; rfl) (fun q hq => ?_) ?_ (fun q => ?_) rfl rfl
      rfl
    all_goals
      simp only [setProc_proc]
      grind [update_apply, Forking.child]
  | @forkCopy c p np hc hf =>
    refine (h.setProc (p := np) (f := fun x => { x with parent := some p }) Iff.rfl id rfl).setProc
      Iff.rfl id ?_
    simp only [setProc_proc, update_apply]
    split_ifs <;> simp_all [Forking.child]
  | @fork c p np hc hf =>
    refine h.endFork (p := p) np (by rw [hf]; rfl) (fun q hq => ?_) ?_ (fun q => ?_) rfl ?_
      rfl
    rotate_left 3
    · simp
    all_goals
      simp only [setProc_proc, makeRunnable_proc]
      grind [update_apply, Forking.child]
  | exit hc hf hinit => exact h.exit hc _ _
  | wait hc hf hw => exact h.waits hc hw
  | killNone => exact h
  | killSleeping hc hf hfind hs =>
    refine (h.setProc (f := fun x => { x with killed := true }) Iff.rfl id rfl).makeRunnable ?_
    simpa using hs
  | kill => exact h.setProc Iff.rfl id rfl
  | detachNone => exact h
  | detach => exact h.setProc Iff.rfl id rfl
  | priority => exact h.setProc Iff.rfl id rfl

end Running

omit [LawfulScheduling D] in
/-- The state at the end of a run from boot has the invariant. -/
theorem running_of_exec {es : List (Event n)} {k : Kernel (Sched Slot) n}
    (h : (start n).exec es = .ok k) : k.Running :=
  Machine.exec_invariant (fun hk hstep => hk.step hstep) (Running.boot₀ Sched.queues_init) h

/-- **The three views of "running" agree in every run**, on any number of
CPUs: the processes in state `RUNNING`, those some `c->proc` points to and
those in `rpholder` are the same; no process is on two CPUs or twice in
`rpholder`; and `rpholder.add` after an extraction does not fail. -/
theorem views_of_exec {es : List (Event n)} {k : Kernel (Sched Slot) n}
    (h : (start n).exec es = .ok k) :
    (∀ p, (k.proc p).state = .RUNNING ↔ ∃ c, k.cpuProc c = some p)
      ∧ (∀ p, p ∈ k.queues.rp ↔ (k.proc p).state = .RUNNING)
      ∧ (∀ c c' p, k.cpuProc c = some p → k.cpuProc c' = some p → c = c')
      ∧ k.queues.rp.Nodup
      ∧ (∀ p ds, Scheduling.pqExtractMin k.ds = (some p, ds) → (Scheduling.rpAdd p ds).1 = true) := by
  have hk := running_of_exec h
  exact ⟨hk.state_iff_cpu, hk.mem_rp_iff, fun _ _ _ => hk.cpu_inj, hk.nodup_rp,
    fun p ds he => k.rpAdd_after_pqExtractMin p he⟩

/-- After forks, a sleep and a wakeup on two CPUs. -/
theorem views_of_exec_wakeRun : ∃ k, (start 2).exec wakeRun = .ok k
    ∧ (∀ p, (k.proc p).state = .RUNNING ↔ ∃ c, k.cpuProc c = some p)
    ∧ (∀ p, p ∈ k.queues.rp ↔ (k.proc p).state = .RUNNING)
    ∧ (∀ c c' p, k.cpuProc c = some p → k.cpuProc c' = some p → c = c')
    ∧ k.queues.rp.Nodup
    ∧ ∀ p ds, Scheduling.pqExtractMin k.ds = (some p, ds) → (Scheduling.rpAdd p ds).1 = true := by
  obtain ⟨k, -, hk, -⟩ := exec_wakeRun
  exact ⟨k, hk, views_of_exec hk⟩

end Kernel

end Xv6
