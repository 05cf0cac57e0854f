import Xv6.Proc.Kernel

/-!
# The kernel does not see the structures

The kernel works through the scheduling interface only, so it commutes with
every homomorphism of implementations: running on the program's structures
and then taking their queues is running on the queues. What a concrete run
does can thus be computed on plain lists (`Kernel.exec_map`).
-/

namespace Xv6

variable {D D' : Type} {n : ℕ} [Scheduling D Slot] [Scheduling D' Slot]

namespace Kernel

/-- The kernel over the image of its structures. -/
def map (h : Scheduling.Hom D D') (k : Kernel D n) : Kernel D' n :=
  ⟨k.proc, k.cpuProc, k.initproc, k.nextpid, k.boot, h.toFun k.ds⟩

variable (h : Scheduling.Hom D D') (k : Kernel D n)

@[simp] theorem map_proc : (k.map h).proc = k.proc := rfl
@[simp] theorem map_cpuProc : (k.map h).cpuProc = k.cpuProc := rfl
@[simp] theorem map_initproc : (k.map h).initproc = k.initproc := rfl
@[simp] theorem map_boot : (k.map h).boot = k.boot := rfl
@[simp] theorem map_ds : (k.map h).ds = h.toFun k.ds := rfl

@[simp] theorem map_setProc (p : Slot) (f : Proc → Proc) :
    (k.map h).setProc p f = (k.setProc p f).map h := rfl

@[simp] theorem map_setCpu (c : Fin n) (p : Option Slot) :
    (k.map h).setCpu c p = (k.setCpu c p).map h := rfl

@[simp] theorem map_pqPut (p : Slot) : (k.map h).pqPut p = (k.pqPut p).map h := by
  unfold pqPut
  rw [map_ds, h.pqPut]
  rfl

@[simp] theorem map_rpAdd (p : Slot) : (k.map h).rpAdd p = (k.rpAdd p).map h := by
  unfold rpAdd
  rw [map_ds, h.rpAdd]
  rfl

@[simp] theorem map_rpRemove (p : Slot) : (k.map h).rpRemove p = (k.rpRemove p).map h := by
  unfold rpRemove
  rw [map_ds, h.rpRemove]
  rfl

@[simp] theorem map_getMin : (k.map h).getMin = k.getMin := by
  unfold getMin
  rw [map_ds, h.pqIsEmpty, h.rpIsEmpty, h.pqGetMinAccumulator, h.rpGetMinAccumulator]
  rfl

@[simp] theorem map_makeRunnable (p : Slot) :
    (k.map h).makeRunnable p = (k.makeRunnable p).map h := by
  simp only [makeRunnable, map_setProc, map_getMin, map_pqPut]

@[simp] theorem map_wakeup1 (chan : Chan) : (k.map h).wakeup1 chan = (k.wakeup1 chan).map h := by
  unfold wakeup1
  refine List.foldl_hom (map h) (fun k p => ?_)
  unfold wakeupSlot
  rw [map_makeRunnable, map_proc, apply_ite (map h)]

@[simp] theorem map_allocproc :
    (k.map h).allocproc = k.allocproc.map (Prod.map id (map h)) := by
  unfold allocproc
  rw [map_proc]
  split <;> rfl

@[simp] theorem map_sched (c : Fin n) (p : Slot) (ctx : Context) :
    (k.map h).sched c p ctx = (k.sched c p ctx).map h := by
  simp only [sched, priorityScheduler₂, map_setProc, map_setCpu, map_rpRemove, map_proc, map_pqPut,
    apply_ite (map h)]

@[simp] theorem map_sleepLocked (c : Fin n) (p : Slot) (chan : Chan) (ctx : Context) :
    (k.map h).sleepLocked c p chan ctx = (k.sleepLocked c p chan ctx).map h := by
  simp only [sleepLocked, map_setProc, map_rpRemove, map_sched]

@[simp] theorem map_waitLoop (c : Fin n) (p : Slot) :
    (k.map h).waitLoop c p = Prod.map id (map h) (k.waitLoop c p) := by
  unfold waitLoop
  rw [map_proc]
  split
  · rfl
  · simp only [map_sleepLocked]
    split <;> rfl

@[simp] theorem map_resume (c : Fin n) (p : Slot) :
    (k.map h).resume c p = (k.resume c p).map (Prod.map id (map h)) := by
  simp only [resume, map_proc, map_setProc, map_waitLoop]
  cases (k.proc p).context <;> rfl

@[simp] theorem map_passChild (curproc p : Slot) :
    (k.map h).passChild curproc p = (k.passChild curproc p).map h := by
  simp only [passChild, map_proc, map_setProc, map_initproc, map_wakeup1, apply_ite (map h)]

theorem map_switchTo (c : Fin n) (p : Slot) (ds : D) :
    (k.map h).switchTo c p (h.toFun ds) = (k.switchTo c p ds).map h := by
  unfold switchTo
  rw [← map_rpAdd]
  rfl

@[simp] theorem map_priorityScheduler₁ (c : Fin n) :
    (k.map h).priorityScheduler₁ c = (k.priorityScheduler₁ c).map (Prod.map id (map h)) := by
  unfold priorityScheduler₁
  rw [map_ds, h.pqIsEmpty, h.pqExtractMin, map_proc]
  split
  · rfl
  · obtain ⟨_ | p, ds⟩ := Scheduling.pqExtractMin k.ds
    · rfl
    · show (if _ then _ else _) = Except.map _ (if _ then _ else _)
      rw [map_switchTo, apply_ite (Except.map (Prod.map id (map h)))]
      rfl

@[simp] theorem map_current (c : Fin n) : (k.map h).current c = k.current c := rfl

/-- A section that starts by looking at the current process. -/
theorem map_current_bind (c : Fin n) {f : Slot → Except Halt (Option Return × Kernel D n)}
    {g : Slot → Except Halt (Option Return × Kernel D' n)}
    (hfg : ∀ p, g p = (f p).map (Prod.map id (map h))) :
    ((k.map h).current c >>= g) = (k.current c >>= f).map (Prod.map id (map h)) := by
  rw [map_current]
  cases k.current c with
  | error e => rfl
  | ok p => exact hfg p

/-- **One step commutes with a homomorphism.** -/
theorem step_map (e : Event n) :
    (k.map h).step e = (k.step e).map (Prod.map id (map h)) := by
  cases e with
  | userinitAlloc =>
    show (k.map h).userinitAlloc = k.userinitAlloc.map _
    unfold userinitAlloc
    rw [map_boot, map_allocproc]
    cases k.boot with
    | main => cases k.allocproc <;> rfl
    | userinit p => rfl
    | done => rfl
  | userinit =>
    show (k.map h).userinit = k.userinit.map _
    unfold userinit
    rw [map_boot]
    cases k.boot with
    | main => rfl
    | userinit p =>
      simp only [map_setProc, map_makeRunnable]
      rfl
    | done => rfl
  | dispatch c =>
    show (k.map h).dispatch c = (k.dispatch c).map _
    unfold dispatch
    rw [map_cpuProc, map_priorityScheduler₁]
    cases k.cpuProc c with
    | some p => rfl
    | none =>
      cases k.priorityScheduler₁ c with
      | error e => rfl
      | ok r =>
        obtain ⟨_ | p, k₁⟩ := r
        · rfl
        · exact map_resume h k₁ c p
  | yield c =>
    show (k.map h).yield c = (k.yield c).map _
    unfold yield
    rw [map_cpuProc]
    cases k.cpuProc c with
    | none => rfl
    | some p =>
      simp only [map_setProc, map_rpRemove, map_pqPut, map_sched]
      rfl
  | sleep c chan =>
    refine map_current_bind h k c (fun p => ?_)
    rw [map_sleepLocked]
    rfl
  | wakeup chan =>
    show Except.ok (none, (k.map h).wakeup1 chan) = _
    rw [map_wakeup1]
    rfl
  | forkAlloc c =>
    refine map_current_bind h k c (fun p => ?_)
    rw [map_allocproc]
    cases k.allocproc <;> rfl
  | forkFail c =>
    show (k.map h).forkFail c = (k.forkFail c).map _
    unfold forkFail
    rw [map_cpuProc, map_proc]
    cases k.cpuProc c with
    | none => rfl
    | some p =>
      dsimp only
      cases (k.proc p).forking <;> rfl
  | forkCopy c =>
    show (k.map h).forkCopy c = (k.forkCopy c).map _
    unfold forkCopy
    rw [map_cpuProc, map_proc]
    cases k.cpuProc c with
    | none => rfl
    | some p =>
      dsimp only
      cases (k.proc p).forking <;> rfl
  | fork c =>
    show (k.map h).fork c = (k.fork c).map _
    unfold fork
    rw [map_cpuProc, map_proc]
    cases k.cpuProc c with
    | none => rfl
    | some p =>
      simp only [map_setProc, map_makeRunnable]
      cases (k.proc p).forking <;> rfl
  | exit c status =>
    refine map_current_bind h k c (fun p => ?_)
    have hfold : ∀ k : Kernel D n,
        slots.foldl (passChild p) (k.map h) = (slots.foldl (passChild p) k).map h :=
      fun k => List.foldl_hom (map h) (fun k q => map_passChild h k p q)
    simp only [map_setProc, map_initproc, map_wakeup1, map_proc, hfold, map_sched]
    split <;> rfl
  | wait c =>
    refine map_current_bind h k c (fun p => ?_)
    rw [map_waitLoop]
    rfl
  | kill c pid =>
    refine map_current_bind h k c (fun p => ?_)
    rw [map_proc]
    split
    · rfl
    · simp only [map_setProc, map_proc, map_makeRunnable, ← apply_ite (map h)]
      rfl
  | detach c pid =>
    refine map_current_bind h k c (fun p => ?_)
    rw [map_proc]
    split <;> rfl
  | priority c prio => exact map_current_bind h k c (fun p => rfl)

/-- **A run commutes with a homomorphism.** -/
theorem exec_map (es : List (Event n)) : (k.map h).exec es = (k.exec es).map (map h) := by
  induction es generalizing k with
  | nil => rfl
  | cons e es ih =>
    show ((k.map h).step e >>= fun r => Machine.exec step r.2 es)
      = (k.step e >>= fun r => Machine.exec step r.2 es).map (map h)
    rw [step_map]
    cases k.step e with
    | error e => rfl
    | ok r => exact ih r.2

variable {h k} in
/-- The process a dispatch switches to can be computed on the image. -/
theorem priorityScheduler₁_of_map {c : Fin n} {o : Option Slot} {a : Kernel D' n}
    (ha : (k.map h).priorityScheduler₁ c = .ok (o, a)) :
    ∃ k', k.priorityScheduler₁ c = .ok (o, k') := by
  rw [map_priorityScheduler₁] at ha
  cases hk : k.priorityScheduler₁ c with
  | error e =>
    rw [hk] at ha
    cases ha
  | ok r =>
    rw [hk] at ha
    cases ha
    exact ⟨r.2, rfl⟩

/-! ## The program's kernel -/

/-- The machine at boot, on the program's structures. -/
def start (n : ℕ) : Kernel (Sched Slot) n := boot₀ Sched.init

/-- The machine at boot, on plain queues. -/
def plainStart (n : ℕ) : Kernel (Queues Slot) n := boot₀ Queues.empty

/-- **A run can be computed on plain queues**: if it goes through there, it
does on the program's structures, whose queues are then those. -/
theorem exec_of_plain (es : List (Event n)) {a : Kernel (Queues Slot) n}
    (h : (plainStart n).exec es = .ok a) :
    ∃ k, (start n).exec es = .ok k ∧ k.map Sched.queuesHom = a := by
  have hboot : (start n).map Sched.queuesHom = plainStart n :=
    congrArg boot₀ Sched.queues_init
  rw [← hboot, exec_map] at h
  cases hk : (start n).exec es with
  | error e =>
    rw [hk] at h
    cases h
  | ok k =>
    rw [hk] at h
    exact ⟨k, rfl, Except.ok.inj h⟩

/-- **A property of the end of a run can be decided on plain queues.** -/
theorem exists_exec_of_plain (es : List (Event n)) (P : Kernel (Queues Slot) n → Prop)
    (h : ∃ k, (plainStart n).exec es = .ok k ∧ P k) :
    ∃ k, (start n).exec es = .ok k ∧ P (k.map Sched.queuesHom) := by
  obtain ⟨a, ha, hP⟩ := h
  obtain ⟨k, hk, rfl⟩ := exec_of_plain es ha
  exact ⟨k, hk, hP⟩

/-- **A step after a run can be decided on plain queues**: what it returns,
and a property of the states around it. -/
theorem exists_step_of_plain (es : List (Event n)) (e : Event n) (r : Option Return)
    (P : Kernel (Queues Slot) n → Kernel (Queues Slot) n → Prop)
    (h : ∃ k, (plainStart n).exec es = .ok k ∧ ∃ k', k.step e = .ok (r, k') ∧ P k k') :
    ∃ k k', (start n).exec es = .ok k ∧ k.step e = .ok (r, k') ∧
      P (k.map Sched.queuesHom) (k'.map Sched.queuesHom) := by
  obtain ⟨a, ha, b, hb, hP⟩ := h
  obtain ⟨k, hk, rfl⟩ := exec_of_plain es ha
  rw [step_map] at hb
  cases hstep : k.step e with
  | error x =>
    rw [hstep] at hb
    cases hb
  | ok x =>
    rw [hstep] at hb
    cases hb
    exact ⟨k, x.2, hk, hstep, hP⟩

/-- Two CPUs at work: the first process forks, its child goes to sleep on
the second CPU, the first process forks again, and then the child is
woken. Both children are runnable then, and nobody has yielded. -/
def wakeRun : List (Event 2) :=
  let c : Fin 2 := ⟨0, Nat.two_pos⟩
  let c' : Fin 2 := ⟨1, Nat.one_lt_two⟩
  [.userinitAlloc, .userinit, .dispatch c, .forkAlloc c, .forkCopy c, .fork c, .dispatch c',
    .sleep c' (.other 7), .forkAlloc c, .forkCopy c, .fork c, .wakeup (.other 7)]

theorem exec_wakeRun : ∃ k k', (start 2).exec wakeRun = .ok k
    ∧ k.priorityScheduler₁ 1 = .ok (some ⟨2, by decide⟩, k')
    ∧ (k.proc ⟨1, by decide⟩).state = .RUNNABLE := by
  obtain ⟨k, hk, ⟨⟨o, a⟩, ha, rfl⟩, hs⟩ := exists_exec_of_plain wakeRun
    (fun k => (∃ r, k.priorityScheduler₁ 1 = .ok r ∧ r.1 = some ⟨2, by decide⟩)
      ∧ (k.proc ⟨1, by decide⟩).state = .RUNNABLE) (by decide +kernel)
  obtain ⟨k', hd⟩ := priorityScheduler₁_of_map ha
  exact ⟨k, k', hk, hd, hs⟩

/-- **The program's structures act as plain queues**, in every step of every run. -/
theorem exec_step_refines_plain (es : List (Event n)) (e : Event n) :
    ((start n).exec es >>= (step · e)).map (Prod.map id (map Sched.queuesHom))
      = (plainStart n).exec es >>= (step · e) := by
  have hboot : (start n).map Sched.queuesHom = plainStart n := congrArg boot₀ Sched.queues_init
  rw [← hboot, exec_map]
  cases (start n).exec es with
  | error x => rfl
  | ok k => exact (step_map Sched.queuesHom k e).symm

end Kernel

end Xv6
