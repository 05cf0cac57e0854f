import Xv6.Proc.Hom

/-!
# What a step can do

Everything later proofs need to know about the kernel's functions, so that
they need not unfold them again: the fields each function writes, the
induction rules of its two loops, and `Moves`, which lists every way a step
can go through.
-/

namespace Xv6

open Function

namespace Kernel

variable {D : Type} {n : ℕ}

/-! ## Writes -/

section writes

variable (k : Kernel D n) (p q : Slot) (c : Fin n) (f : Proc → Proc) (o : Option Slot)

@[simp] theorem setProc_proc : (k.setProc p f).proc = update k.proc p (f (k.proc p)) := rfl
@[simp] theorem setProc_initproc : (k.setProc p f).initproc = k.initproc := rfl
@[simp] theorem setProc_ds : (k.setProc p f).ds = k.ds := rfl
@[simp] theorem setCpu_proc : (k.setCpu c o).proc = k.proc := rfl
@[simp] theorem setCpu_ds : (k.setCpu c o).ds = k.ds := rfl

/-- A write that keeps a field of its process keeps it everywhere. -/
theorem setProc_keep {α : Type} (g : Proc → α) (hf : g (f (k.proc p)) = g (k.proc p)) :
    g ((k.setProc p f).proc q) = g (k.proc q) := by
  by_cases hq : q = p
  · subst hq
    rw [setProc_proc, update_self, hf]
  · rw [setProc_proc, update_of_ne hq]

theorem setProc_proc_self : (k.setProc p f).proc p = f (k.proc p) :=
  update_self _ _ _

theorem setProc_proc_of_ne (h : q ≠ p) : (k.setProc p f).proc q = k.proc q :=
  update_of_ne h _ _

variable [Scheduling D Slot]

@[simp] theorem pqPut_proc : (k.pqPut p).proc = k.proc := rfl
@[simp] theorem rpRemove_proc : (k.rpRemove p).proc = k.proc := rfl

/-- `get_min` looks at no field but the accumulators. -/
theorem getMin_setProc (hf : (f (k.proc p)).accumulator = (k.proc p).accumulator) :
    (k.setProc p f).getMin = k.getMin := by
  have hacc : (k.setProc p f).getAccumulator = k.getAccumulator := by
    funext q
    exact setProc_keep k p q f Proc.accumulator hf
  unfold getMin
  rw [setProc_ds, hacc]

@[simp] theorem makeRunnable_proc : (k.makeRunnable p).proc = update k.proc p
    { k.proc p with state := .RUNNABLE, accumulator := k.getMin } := by
  unfold makeRunnable
  simp only [pqPut_proc, setProc_proc, update_idem, update_self]
  rw [getMin_setProc k p _ rfl]

@[simp] theorem switchTo_proc (ds : D) : (k.switchTo c p ds).proc
    = update k.proc p { k.proc p with state := .RUNNING } := rfl
@[simp] theorem switchTo_cpuProc (ds : D) :
    (k.switchTo c p ds).cpuProc = update k.cpuProc c (some p) := rfl

/-! `sched` leaves a context behind, empties the CPU and charges the
process its priority. -/

variable (ctx : Context)

theorem sched_of_runnable (h : (k.proc p).state = .RUNNABLE) :
    k.sched c p ctx = ((((k.setProc p (fun x => { x with context := ctx })).setCpu c none).rpRemove
      p).setProc p
        (fun x => { x with accumulator := wrap64 (x.accumulator + x.priority) })).pqPut p := by
  unfold sched priorityScheduler₂
  simp [h]

theorem sched_of_not_runnable (h : (k.proc p).state ≠ .RUNNABLE) :
    k.sched c p ctx
      = ((k.setProc p (fun x => { x with context := ctx })).setCpu c none).rpRemove p := by
  unfold sched priorityScheduler₂
  simp [h]

theorem sched_proc_of_ne (h : q ≠ p) : (k.sched c p ctx).proc q = k.proc q := by
  unfold sched priorityScheduler₂
  dsimp only
  split <;> simp [update_of_ne h]

@[simp] theorem sched_state : ((k.sched c p ctx).proc q).state = (k.proc q).state := by
  by_cases hq : q = p
  · subst hq
    unfold sched priorityScheduler₂
    dsimp only
    split <;> simp
  · rw [sched_proc_of_ne k p q c ctx hq]

@[simp] theorem sched_forking : ((k.sched c p ctx).proc q).forking = (k.proc q).forking := by
  by_cases hq : q = p
  · subst hq
    unfold sched priorityScheduler₂
    dsimp only
    split <;> simp
  · rw [sched_proc_of_ne k p q c ctx hq]

@[simp] theorem sched_cpuProc :
    (k.sched c p ctx).cpuProc = update k.cpuProc c none := by
  unfold sched priorityScheduler₂
  dsimp only
  split <;> rfl

@[simp] theorem sched_boot : (k.sched c p ctx).boot = k.boot := by
  unfold sched priorityScheduler₂
  dsimp only
  split <;> rfl

end writes

/-! ## The queues behind the structures -/

section queues

variable [Scheduling D Slot] [LawfulScheduling D]

/-- The queues the structures stand for. -/
def queues (k : Kernel D n) : Queues Slot := LawfulScheduling.hom.toFun k.ds

variable (k : Kernel D n) (p : Slot) (c : Fin n) (f : Proc → Proc) (o : Option Slot)

theorem size_queues_le : k.queues.size ≤ NPROCLIST := LawfulScheduling.size_le k.ds

theorem sorted_pq : StableQueue.Sorted k.queues.pq := LawfulScheduling.sorted k.ds

@[simp] theorem queues_setProc : (k.setProc p f).queues = k.queues := rfl
@[simp] theorem queues_setCpu : (k.setCpu c o).queues = k.queues := rfl

@[simp] theorem queues_pqPut :
    (k.pqPut p).queues = (k.queues.put (k.proc p).accumulator p).2 :=
  (congrArg Prod.snd (LawfulScheduling.hom.pqPut k.getAccumulator p k.ds)).symm

@[simp] theorem queues_rpAdd : (k.rpAdd p).queues = (k.queues.add p).2 :=
  (congrArg Prod.snd (LawfulScheduling.hom.rpAdd p k.ds)).symm

@[simp] theorem queues_rpRemove : (k.rpRemove p).queues = (k.queues.remove p).2 :=
  (congrArg Prod.snd (LawfulScheduling.hom.rpRemove p k.ds)).symm

@[simp] theorem queues_makeRunnable :
    (k.makeRunnable p).queues = (k.queues.put k.getMin p).2 := by
  unfold makeRunnable
  simp only [queues_pqPut, queues_setProc, setProc_proc, update_self]
  rw [getMin_setProc k p _ rfl]

@[simp] theorem rp_sched (ctx : Context) :
    (k.sched c p ctx).queues.rp = k.queues.rp.erase p := by
  by_cases h : (k.proc p).state = .RUNNABLE
  · rw [sched_of_runnable k p c ctx h]
    simp
  · rw [sched_of_not_runnable k p c ctx h]
    simp

variable {ds : D}

variable (h : Scheduling.pqExtractMin k.ds = (some p, ds))

include h

/-- The structures `extractMin` leaves, as queues. -/
theorem exists_of_pqExtractMin :
    ∃ a es, k.queues.pq = (a, p) :: es
      ∧ LawfulScheduling.hom.toFun ds = { k.queues with pq := es } := by
  have hq := LawfulScheduling.hom.pqExtractMin k.ds
  rw [h] at hq
  exact Queues.extractMin_eq_some _ _ hq

/-- **After an extraction there is room.** -/
theorem size_after_pqExtractMin :
    (LawfulScheduling.hom.toFun ds).size < NPROCLIST := by
  obtain ⟨a, es, hpq, hds⟩ := k.exists_of_pqExtractMin p h
  have hsize := k.size_queues_le
  unfold Queues.size at hsize
  rw [hpq, List.length_cons] at hsize
  rw [hds]
  show es.length + k.queues.rrq.length + k.queues.rp.length < NPROCLIST
  omega

theorem rpAdd_after_pqExtractMin :
    (Scheduling.rpAdd p ds).1 = true := by
  have hadd := congrArg Prod.fst (LawfulScheduling.hom.rpAdd p ds)
  rw [← hadd]
  show ((LawfulScheduling.hom.toFun ds).add p).1 = true
  unfold Queues.add
  rw [if_pos (k.size_after_pqExtractMin p h)]

/-- A dispatch moves the head of the queue to `rpholder`. -/
theorem queues_switchTo :
    ∃ a es, k.queues.pq = (a, p) :: es
      ∧ (k.switchTo c p ds).queues = { k.queues with pq := es, rp := k.queues.rp ++ [p] } := by
  have hroom := k.size_after_pqExtractMin p h
  obtain ⟨a, es, hpq, hds⟩ := k.exists_of_pqExtractMin p h
  refine ⟨a, es, hpq, ?_⟩
  show (Kernel.rpAdd p _).queues = _
  rw [queues_rpAdd]
  show ((LawfulScheduling.hom.toFun ds).add p).2 = _
  unfold Queues.add
  rw [if_pos hroom, hds]

end queues

/-! ## The two loops -/

section loops

variable [Scheduling D Slot] {k : Kernel D n} {I : Kernel D n → Prop}

/-- **The rule of `wakeup1`**: keep `I` when a process sleeping on the
channel is made runnable. -/
theorem wakeup1_induction {chan : Chan}
    (hwake : ∀ k p, I k → (k.proc p).state = .SLEEPING → (k.proc p).chan = chan →
      I (k.makeRunnable p)) (h : I k) : I (k.wakeup1 chan) := by
  unfold wakeup1
  generalize slots = l
  induction l generalizing k with
  | nil => exact h
  | cons p l ih =>
    refine ih ?_
    unfold wakeupSlot
    split
    · next hp => exact hwake k p h hp.1 hp.2
    · exact h

/-- **The rule of the loop in `exit`**: keep `I` when a child is passed to
`initproc`, and when a process sleeping on `initproc` is made runnable. -/
theorem passChildren_induction {curproc : Slot}
    (hpass : ∀ k p, I k → (k.proc p).parent = some curproc →
      I (k.setProc p (fun x => { x with parent := k.initproc })))
    (hwake : ∀ k p, I k → (k.proc p).state = .SLEEPING → (k.proc p).chan = .ofPtr k.initproc →
      I (k.makeRunnable p)) (h : I k) : I (slots.foldl (passChild curproc) k) := by
  generalize slots = l
  induction l generalizing k with
  | nil => exact h
  | cons p l ih =>
    refine ih ?_
    unfold passChild
    split
    · next hp =>
      have hk := hpass k p h hp
      dsimp only
      split
      · -- the wakeup does not write `initproc`, so it stays on one channel
        refine (wakeup1_induction (I := fun k' => I k' ∧ k'.initproc = k.initproc)
          (fun k' q hk' hs hc => ⟨hwake k' q hk'.1 hs ?_, hk'.2⟩) ⟨hk, rfl⟩).1
        rw [hk'.2]
        exact hc
      · exact hk
    · exact h

/-- **The rule of both loops of `exit`**, the wakeup of the parent and the
passing on of the children. -/
theorem exitLoops_induction (curproc : Slot) (chan : Chan)
    (hpass : ∀ k p, I k → (k.proc p).parent = some curproc →
      I (k.setProc p (fun x => { x with parent := k.initproc })))
    (hwake : ∀ k p, I k → (k.proc p).state = .SLEEPING →
      (k.proc p).chan = chan ∨ (k.proc p).chan = .ofPtr k.initproc → I (k.makeRunnable p))
    (h : I k) : I (slots.foldl (passChild curproc) (k.wakeup1 chan)) :=
  passChildren_induction hpass (fun k p hk hs hc => hwake k p hk hs (.inr hc))
    (wakeup1_induction (fun k p hk hs hc => hwake k p hk hs (.inl hc)) h)

end loops

/-! ## The ways a step goes through -/

section moves

variable [Scheduling D Slot] {k : Kernel D n}

variable {c : Fin n} {p : Slot}

omit [Scheduling D Slot] in
theorem current_eq_ok :
    k.current c = .ok p ↔ k.cpuProc c = some p ∧ (k.proc p).forking = .no := by
  unfold current
  cases hc : k.cpuProc c with
  | none => simp
  | some q =>
    dsimp only
    split
    · next hf =>
      constructor
      · rintro ⟨⟩
        exact ⟨rfl, hf⟩
      · rintro ⟨⟨⟩, -⟩
        rfl
    · next hf =>
      constructor
      · rintro ⟨⟩
      · rintro ⟨⟨⟩, hno⟩
        exact absurd hno hf

omit [Scheduling D Slot] in
/-- What `allocproc` finds and writes. -/
theorem allocproc_eq_some {k₁ : Kernel D n} (h : k.allocproc = some (p, k₁)) :
    (k.proc p).state = .UNUSED
      ∧ k₁.proc = update k.proc p
          { k.proc p with state := .EMBRYO, pid := k.nextpid, context := .forkret }
      ∧ k₁.nextpid = wrap32 (k.nextpid + 1) ∧ k₁.cpuProc = k.cpuProc ∧ k₁.initproc = k.initproc
      ∧ k₁.boot = k.boot ∧ k₁.ds = k.ds := by
  unfold allocproc at h
  split at h
  · cases h
  · next hfind =>
    cases h
    refine ⟨by simpa using List.find?_some hfind, ?_, rfl, rfl, rfl, rfl, rfl⟩
    simp [setProc]

omit [Scheduling D Slot] in
/-- The process `kill` finds. -/
theorem pid_of_find {pid : ℤ} {q : Slot}
    (h : slots.find? (fun p => (k.proc p).pid = pid) = some q) : (k.proc q).pid = pid := by
  have hq := List.find?_some h
  exact of_decide_eq_true hq

omit [Scheduling D Slot] in
/-- The process `detach` finds. -/
theorem child_of_find {pid : ℤ} {q : Slot}
    (h : slots.find? (fun q => (k.proc q).pid = pid ∧ (k.proc q).parent = some p) = some q) :
    (k.proc q).pid = pid ∧ (k.proc q).parent = some p := by
  have hq := List.find?_some h
  exact of_decide_eq_true hq

/-- **How `wait` ends its scan**: with a zombie child reaped, with `-1`, or
asleep. -/
inductive Waits (c : Fin n) (curproc : Slot) (k : Kernel D n) :
    Option Return → Kernel D n → Prop
  | reap {p : Slot} (hpar : (k.proc p).parent = some curproc) (hz : (k.proc p).state = .ZOMBIE) :
      Waits c curproc k (some ⟨curproc, (k.proc p).pid, some (k.proc p).status⟩) (k.reap p)
  | fail (hz : ∀ p, (k.proc p).parent = some curproc → (k.proc p).state ≠ .ZOMBIE)
      (h : (∀ p, (k.proc p).parent ≠ some curproc) ∨ (k.proc curproc).killed = true) :
      Waits c curproc k (some ⟨curproc, -1, none⟩) k
  | sleep (hz : ∀ p, (k.proc p).parent = some curproc → (k.proc p).state ≠ .ZOMBIE)
      (hkid : ∃ p, (k.proc p).parent = some curproc) (hkill : (k.proc curproc).killed = false) :
      Waits c curproc k none (k.sleepLocked c curproc (.proc curproc) .wait)

theorem waits_waitLoop (c : Fin n) (curproc : Slot) (k : Kernel D n) :
    Waits c curproc k (k.waitLoop c curproc).1 (k.waitLoop c curproc).2 := by
  unfold waitLoop
  cases hfind : slots.find?
    (fun p => (k.proc p).parent = some curproc ∧ (k.proc p).state = .ZOMBIE) with
  | some p =>
    have hp := List.find?_some hfind
    rw [decide_eq_true_iff] at hp
    exact .reap hp.1 hp.2
  | none =>
    have hz : ∀ p, (k.proc p).parent = some curproc → (k.proc p).state ≠ .ZOMBIE := by
      intro p hpar hz
      have := List.find?_eq_none.mp hfind p (List.mem_finRange p)
      exact this (decide_eq_true ⟨hpar, hz⟩)
    dsimp only
    by_cases hk : (!slots.any (fun p => (k.proc p).parent = some curproc)
        || (k.proc curproc).killed) = true
    · rw [if_pos hk]
      refine .fail hz ?_
      simpa [slots] using hk
    · rw [if_neg hk]
      obtain ⟨hkid, hkill⟩ : (∃ p, (k.proc p).parent = some curproc)
          ∧ (k.proc curproc).killed = false := by
        simpa [slots] using hk
      exact .sleep hz hkid hkill

/-- **Every way a step goes through**, with what it returns. -/
inductive Moves (k : Kernel D n) : Event n → Option Return → Kernel D n → Prop
  | userinitAlloc {p : Slot} {k₁ : Kernel D n} (hb : k.boot = .main)
      (ha : k.allocproc = some (p, k₁)) :
      Moves k .userinitAlloc none { k₁ with initproc := some p, boot := .userinit p }
  | userinit {p : Slot} (hb : k.boot = .userinit p) :
      Moves k .userinit none
        { (k.setProc p (fun x => { x with priority := 5 })).makeRunnable p with boot := .done }
  | idle {c : Fin n} (hc : k.cpuProc c = none) (he : Scheduling.pqIsEmpty k.ds = true) :
      Moves k (.dispatch c) none k
  | drop {c : Fin n} {p : Slot} {ds : D} (hc : k.cpuProc c = none)
      (he : Scheduling.pqExtractMin k.ds = (some p, ds)) (hp : (k.proc p).state ≠ .RUNNABLE) :
      Moves k (.dispatch c) none { k with ds }
  | dispatch {c : Fin n} {p : Slot} {ds : D} (hc : k.cpuProc c = none)
      (he : Scheduling.pqExtractMin k.ds = (some p, ds)) (hp : (k.proc p).state = .RUNNABLE)
      (hctx : (k.proc p).context = .forkret ∨ (k.proc p).context = .yield) :
      Moves k (.dispatch c) none (k.switchTo c p ds)
  | dispatchSleep {c : Fin n} {p : Slot} {ds : D} (hc : k.cpuProc c = none)
      (he : Scheduling.pqExtractMin k.ds = (some p, ds)) (hp : (k.proc p).state = .RUNNABLE)
      (hctx : (k.proc p).context = .sleep) :
      Moves k (.dispatch c) none
        ((k.switchTo c p ds).setProc p (fun x => { x with chan := .null }))
  | dispatchWait {c : Fin n} {p : Slot} {ds : D} {r : Option Return} {k' : Kernel D n}
      (hc : k.cpuProc c = none) (he : Scheduling.pqExtractMin k.ds = (some p, ds))
      (hp : (k.proc p).state = .RUNNABLE) (hctx : (k.proc p).context = .wait)
      (hw : Waits c p ((k.switchTo c p ds).setProc p (fun x => { x with chan := .null })) r k') :
      Moves k (.dispatch c) r k'
  | yield {c : Fin n} {p : Slot} (hc : k.cpuProc c = some p) :
      Moves k (.yield c) none
        ((((k.setProc p (fun x => { x with state := .RUNNABLE })).rpRemove p).pqPut p).sched
          c p .yield)
  | sleep {c : Fin n} {p : Slot} {chan : Chan} (hc : k.cpuProc c = some p)
      (hf : (k.proc p).forking = .no) :
      Moves k (.sleep c chan) none (k.sleepLocked c p chan .sleep)
  | wakeup {chan : Chan} : Moves k (.wakeup chan) none (k.wakeup1 chan)
  | forkNoProc {c : Fin n} {p : Slot} (hc : k.cpuProc c = some p)
      (hf : (k.proc p).forking = .no) (ha : k.allocproc = none) :
      Moves k (.forkAlloc c) (some ⟨p, -1, none⟩) k
  | forkAlloc {c : Fin n} {p np : Slot} {k₁ : Kernel D n} (hc : k.cpuProc c = some p)
      (hf : (k.proc p).forking = .no) (ha : k.allocproc = some (np, k₁)) :
      Moves k (.forkAlloc c) none (k₁.setProc p (fun x => { x with forking := .allocated np }))
  | forkFail {c : Fin n} {p np : Slot} (hc : k.cpuProc c = some p)
      (hf : (k.proc p).forking = .allocated np) :
      Moves k (.forkFail c) (some ⟨p, -1, none⟩)
        ((k.setProc np (fun x => { x with state := .UNUSED })).setProc p
          (fun x => { x with forking := .no }))
  | forkCopy {c : Fin n} {p np : Slot} (hc : k.cpuProc c = some p)
      (hf : (k.proc p).forking = .allocated np) :
      Moves k (.forkCopy c) none
        ((k.setProc np (fun x => { x with parent := some p })).setProc p
          (fun x => { x with forking := .copied np }))
  | fork {c : Fin n} {p np : Slot} (hc : k.cpuProc c = some p)
      (hf : (k.proc p).forking = .copied np) :
      Moves k (.fork c) (some ⟨p, (k.proc np).pid, none⟩)
        (((k.setProc np (fun x => { x with priority := 5 })).makeRunnable np).setProc p
          (fun x => { x with forking := .no }))
  | exit {c : Fin n} {p : Slot} {status : Int32} (hc : k.cpuProc c = some p)
      (hf : (k.proc p).forking = .no) (hinit : k.initproc ≠ some p) :
      Moves k (.exit c status) none
        (((slots.foldl (passChild p)
            ((k.setProc p (fun x => { x with status := status.toInt })).wakeup1
              (.ofPtr (k.proc p).parent))).setProc p
          (fun x => { x with state := .ZOMBIE })).sched c p .exit)
  | wait {c : Fin n} {p : Slot} {r : Option Return} {k' : Kernel D n}
      (hc : k.cpuProc c = some p) (hf : (k.proc p).forking = .no) (hw : Waits c p k r k') :
      Moves k (.wait c) r k'
  | killNone {c : Fin n} {p : Slot} {pid : Int32} (hc : k.cpuProc c = some p)
      (hf : (k.proc p).forking = .no) (hpid : ∀ q, (k.proc q).pid ≠ pid.toInt) :
      Moves k (.kill c pid) (some ⟨p, -1, none⟩) k
  | killSleeping {c : Fin n} {p q : Slot} {pid : Int32} (hc : k.cpuProc c = some p)
      (hf : (k.proc p).forking = .no)
      (hfind : slots.find? (fun p => (k.proc p).pid = pid.toInt) = some q)
      (hs : (k.proc q).state = .SLEEPING) :
      Moves k (.kill c pid) (some ⟨p, 0, none⟩)
        ((k.setProc q (fun x => { x with killed := true })).makeRunnable q)
  | kill {c : Fin n} {p q : Slot} {pid : Int32} (hc : k.cpuProc c = some p)
      (hf : (k.proc p).forking = .no)
      (hfind : slots.find? (fun p => (k.proc p).pid = pid.toInt) = some q)
      (hs : (k.proc q).state ≠ .SLEEPING) :
      Moves k (.kill c pid) (some ⟨p, 0, none⟩)
        (k.setProc q (fun x => { x with killed := true }))
  | detachNone {c : Fin n} {p : Slot} {pid : Int32} (hc : k.cpuProc c = some p)
      (hf : (k.proc p).forking = .no)
      (hpid : ∀ q, ¬ ((k.proc q).pid = pid.toInt ∧ (k.proc q).parent = some p)) :
      Moves k (.detach c pid) (some ⟨p, -1, none⟩) k
  | detach {c : Fin n} {p q : Slot} {pid : Int32} (hc : k.cpuProc c = some p)
      (hf : (k.proc p).forking = .no)
      (hfind : slots.find? (fun q => (k.proc q).pid = pid.toInt ∧ (k.proc q).parent = some p)
        = some q) :
      Moves k (.detach c pid) (some ⟨p, 0, none⟩)
        (k.setProc q (fun x => { x with parent := k.initproc }))
  | priority {c : Fin n} {p : Slot} {prio : Int32} (hc : k.cpuProc c = some p)
      (hf : (k.proc p).forking = .no) :
      Moves k (.priority c prio) none (k.setProc p (fun x => { x with priority := prio.toInt }))

variable {r : Option Return} {k' : Kernel D n}

theorem moves_userinitAlloc (h : k.userinitAlloc = .ok (r, k')) : Moves k .userinitAlloc r k' := by
  unfold userinitAlloc at h
  cases hb : k.boot with
  | main =>
    cases ha : k.allocproc with
    | none => simp [hb, ha] at h
    | some x =>
      simp only [hb, ha] at h
      cases h
      exact .userinitAlloc hb ha
  | userinit p => simp [hb] at h
  | done => simp [hb] at h

theorem moves_userinit (h : k.userinit = .ok (r, k')) : Moves k .userinit r k' := by
  unfold userinit at h
  cases hb : k.boot with
  | main => simp [hb] at h
  | userinit p =>
    simp only [hb] at h
    cases h
    exact .userinit hb
  | done => simp [hb] at h

/-- The first half of `Priority_Scheduler`. -/
theorem priorityScheduler₁_eq_ok {o : Option Slot} (h : k.priorityScheduler₁ c = .ok (o, k')) :
    (Scheduling.pqIsEmpty k.ds = true ∧ o = none ∧ k' = k)
      ∨ ∃ p ds, Scheduling.pqExtractMin k.ds = (some p, ds)
        ∧ (((k.proc p).state ≠ .RUNNABLE ∧ o = none ∧ k' = { k with ds })
          ∨ ((k.proc p).state = .RUNNABLE ∧ o = some p ∧ k' = k.switchTo c p ds)) := by
  unfold priorityScheduler₁ at h
  split at h
  · next hemp =>
    cases h
    exact .inl ⟨hemp, rfl, rfl⟩
  · split at h
    · cases h
    · next p ds he =>
      refine .inr ⟨p, ds, he, ?_⟩
      split at h
      · next hp =>
        cases h
        exact .inr ⟨hp, rfl, rfl⟩
      · next hp =>
        cases h
        exact .inl ⟨hp, rfl, rfl⟩

theorem moves_dispatch (h : k.dispatch c = .ok (r, k')) : Moves k (.dispatch c) r k' := by
  unfold dispatch at h
  cases hc : k.cpuProc c with
  | some p => simp [hc] at h
  | none =>
    rw [hc] at h
    cases h₁ : k.priorityScheduler₁ c with
    | error e =>
      rw [h₁] at h
      cases h
    | ok x =>
      obtain ⟨o, k₁⟩ := x
      rw [h₁] at h
      obtain ⟨hemp, rfl, rfl⟩ | ⟨p, ds, he, ⟨hp, rfl, rfl⟩ | ⟨hp, rfl, rfl⟩⟩ :=
        priorityScheduler₁_eq_ok h₁
      · cases h
        exact .idle hc hemp
      · cases h
        exact .drop hc he hp
      · replace h : (k.switchTo c p ds).resume c p = .ok (r, k') := h
        have hctx : ((k.switchTo c p ds).proc p).context = (k.proc p).context := by
          rw [switchTo_proc, update_self]
        unfold resume at h
        rw [hctx] at h
        cases hx : (k.proc p).context with
        | forkret =>
          simp only [hx] at h
          cases h
          exact .dispatch hc he hp (.inl hx)
        | yield =>
          simp only [hx] at h
          cases h
          exact .dispatch hc he hp (.inr hx)
        | sleep =>
          simp only [hx] at h
          cases h
          exact .dispatchSleep hc he hp hx
        | wait =>
          simp only [hx] at h
          have hw := waits_waitLoop c p
            ((k.switchTo c p ds).setProc p (fun x => { x with chan := .null }))
          rw [Except.ok.inj h] at hw
          exact .dispatchWait hc he hp hx hw
        | exit =>
          simp only [hx] at h
          cases h

theorem moves_yield (h : k.yield c = .ok (r, k')) : Moves k (.yield c) r k' := by
  unfold yield at h
  cases hc : k.cpuProc c with
  | none => simp [hc] at h
  | some p =>
    simp only [hc] at h
    cases h
    exact .yield hc

omit [Scheduling D Slot] in
/-- A section of a process that is not in `fork`. -/
theorem current_bind_eq_ok {f : Slot → Except Halt (Option Return × Kernel D n)}
    (h : (k.current c >>= f) = .ok (r, k')) :
    ∃ p, k.cpuProc c = some p ∧ (k.proc p).forking = .no ∧ f p = .ok (r, k') := by
  cases hcur : k.current c with
  | error e =>
    rw [hcur] at h
    cases h
  | ok p =>
    rw [hcur] at h
    obtain ⟨hc, hf⟩ := current_eq_ok.mp hcur
    exact ⟨p, hc, hf, h⟩

/-- The sections of a process in the middle of `fork`. -/
theorem moves_forkFail (h : k.forkFail c = .ok (r, k')) : Moves k (.forkFail c) r k' := by
  unfold forkFail at h
  cases hc : k.cpuProc c with
  | none => simp [hc] at h
  | some p =>
    cases hf : (k.proc p).forking with
    | allocated np =>
      simp only [hc, hf] at h
      cases h
      exact .forkFail hc hf
    | no | copied np => simp [hc, hf] at h

theorem moves_forkCopy (h : k.forkCopy c = .ok (r, k')) : Moves k (.forkCopy c) r k' := by
  unfold forkCopy at h
  cases hc : k.cpuProc c with
  | none => simp [hc] at h
  | some p =>
    cases hf : (k.proc p).forking with
    | allocated np =>
      simp only [hc, hf] at h
      cases h
      exact .forkCopy hc hf
    | no | copied np => simp [hc, hf] at h

theorem moves_fork (h : k.fork c = .ok (r, k')) : Moves k (.fork c) r k' := by
  unfold fork at h
  cases hc : k.cpuProc c with
  | none => simp [hc] at h
  | some p =>
    cases hf : (k.proc p).forking with
    | copied np =>
      simp only [hc, hf] at h
      cases h
      exact .fork hc hf
    | no | allocated np => simp [hc, hf] at h

theorem moves_forkAlloc (h : k.forkAlloc c = .ok (r, k')) :
    Moves k (.forkAlloc c) r k' := by
  obtain ⟨p, hc, hf, h⟩ := current_bind_eq_ok h
  cases ha : k.allocproc with
  | none =>
    rw [ha] at h
    cases h
    exact .forkNoProc hc hf ha
  | some x =>
    rw [ha] at h
    cases h
    exact .forkAlloc hc hf ha

theorem moves_exit {status : Int32} (h : k.exit c status = .ok (r, k')) :
    Moves k (.exit c status) r k' := by
  obtain ⟨p, hc, hf, h⟩ := current_bind_eq_ok h
  by_cases hinit : some p = k.initproc
  · simp [hinit, throw, throwThe, MonadExceptOf.throw, bind, Except.bind] at h
  · simp only [setProc_initproc, if_neg hinit, setProc_proc, update_self] at h
    cases h
    exact .exit hc hf (Ne.symm hinit)

theorem moves_kill {pid : Int32} (h : k.kill c pid = .ok (r, k')) :
    Moves k (.kill c pid) r k' := by
  obtain ⟨p, hc, hf, h⟩ := current_bind_eq_ok h
  cases hfind : slots.find? (fun p => (k.proc p).pid = pid.toInt) with
  | none =>
    rw [hfind] at h
    cases h
    refine .killNone hc hf (fun q hq => ?_)
    exact List.find?_eq_none.mp hfind q (List.mem_finRange q) (decide_eq_true hq)
  | some q =>
    rw [hfind] at h
    by_cases hs : (k.proc q).state = .SLEEPING
    · simp only [setProc_proc, update_self, if_pos hs] at h
      cases h
      exact .killSleeping hc hf hfind hs
    · simp only [setProc_proc, update_self, if_neg hs] at h
      cases h
      exact .kill hc hf hfind hs

theorem moves_detach {pid : Int32} (h : k.detach c pid = .ok (r, k')) :
    Moves k (.detach c pid) r k' := by
  obtain ⟨p, hc, hf, h⟩ := current_bind_eq_ok h
  cases hfind : slots.find?
    (fun q => (k.proc q).pid = pid.toInt ∧ (k.proc q).parent = some p) with
  | none =>
    rw [hfind] at h
    cases h
    refine .detachNone hc hf (fun q hq => ?_)
    exact List.find?_eq_none.mp hfind q (List.mem_finRange q) (decide_eq_true hq)
  | some q =>
    rw [hfind] at h
    cases h
    exact .detach hc hf hfind

/-- **A step that goes through is one of the moves.** -/
theorem moves_of_step {e : Event n} (h : k.step e = .ok (r, k')) : Moves k e r k' := by
  cases e with
  | userinitAlloc => exact moves_userinitAlloc h
  | userinit => exact moves_userinit h
  | dispatch c => exact moves_dispatch h
  | yield c => exact moves_yield h
  | sleep c chan =>
    obtain ⟨p, hc, hf, h⟩ := current_bind_eq_ok h
    cases h
    exact .sleep hc hf
  | wakeup chan =>
    cases h
    exact .wakeup
  | forkAlloc c => exact moves_forkAlloc h
  | forkFail c => exact moves_forkFail h
  | forkCopy c => exact moves_forkCopy h
  | fork c => exact moves_fork h
  | exit c status => exact moves_exit h
  | wait c =>
    obtain ⟨p, hc, hf, h⟩ := current_bind_eq_ok h
    have hw := waits_waitLoop c p k
    rw [Except.ok.inj h] at hw
    exact .wait hc hf hw
  | kill c pid => exact moves_kill h
  | detach c pid => exact moves_detach h
  | priority c prio =>
    obtain ⟨p, hc, hf, h⟩ := current_bind_eq_ok h
    cases h
    exact .priority hc hf

end moves

end Kernel

end Xv6
