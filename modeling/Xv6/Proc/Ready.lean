import Xv6.Proc.Running
import Mathlib.Data.Fintype.Card

/-!
# The queue of runnable processes, without `yield`

In a run in which nobody calls `yield` the priority queue is what it is
meant to be (`Ready`): it holds exactly the processes in state `RUNNABLE`,
each once, under its present accumulator. The pools are then never short
of links, and a dispatch takes a process with the least accumulator.

`yield` breaks the first of these at once. It puts the process into the
queue itself and then enters `sched`, and the second half of
`Priority_Scheduler`, finding the process `RUNNABLE`, puts it there again
under its next accumulator. The entries pile up, and the one under the old
key is taken as if the process had never run.
-/

namespace Xv6

open Function

namespace Kernel

variable {D : Type} {n : ℕ} [Scheduling D Slot] [LawfulScheduling D]

/-- The processes in the queue, in the order they will be taken. -/
def queued (k : Kernel D n) : List Slot := k.queues.pq.map Prod.snd

/-- **The queue is what it is meant to be**: exactly the runnable
processes, each once, under their accumulators; and nothing is in `rrq`. -/
structure Ready (k : Kernel D n) : Prop where
  nodup : k.queued.Nodup
  mem_iff : ∀ p, p ∈ k.queued ↔ (k.proc p).state = .RUNNABLE
  key : ∀ e ∈ k.queues.pq, e.1 = (k.proc e.2).accumulator
  rrq : k.queues.rrq = []

namespace Ready

variable {k k' : Kernel D n} {c : Fin n} {p : Slot}

section

variable (h : k.Ready)

include h

/-- A step that changes neither the queue nor which processes are runnable,
nor the accumulators of those. -/
theorem congr (hpq : k'.queues.pq = k.queues.pq) (hrrq : k'.queues.rrq = k.queues.rrq)
    (hrun : ∀ p, (k'.proc p).state = .RUNNABLE ↔ (k.proc p).state = .RUNNABLE)
    (hacc : ∀ p, (k.proc p).state = .RUNNABLE → (k'.proc p).accumulator = (k.proc p).accumulator) :
    k'.Ready where
  nodup := by
    unfold queued
    rw [hpq]
    exact h.nodup
  mem_iff p := by
    unfold queued
    rw [hpq, hrun]
    exact h.mem_iff p
  key e he := by
    rw [hpq] at he
    rw [hacc e.2 ((h.mem_iff e.2).mp (List.mem_map_of_mem he))]
    exact h.key e he
  rrq := by rw [hrrq, h.rrq]

/-- One process is written that was not runnable and is not now. -/
theorem setProc {f : Proc → Proc}
    (hrun : (f (k.proc p)).state = .RUNNABLE ↔ (k.proc p).state = .RUNNABLE)
    (hacc : (f (k.proc p)).accumulator = (k.proc p).accumulator) : (k.setProc p f).Ready :=
  h.congr rfl rfl
    (fun q => iff_of_eq (setProc_keep k p q f (fun x => x.state = .RUNNABLE) (propext hrun)))
    (fun q _ => setProc_keep k p q f Proc.accumulator hacc)

/-- **There is room** for every process: those in the queue and those
running are different slots. -/
theorem size_le (hv : k.Views) : k.queues.size ≤ NPROC := by
  have hnd : (k.queued ++ k.queues.rp).Nodup := by
    refine List.nodup_append.mpr ⟨h.nodup, hv.nodup_rp, ?_⟩
    rintro a ha b hb rfl
    have := ((h.mem_iff a).mp ha).symm.trans ((hv.mem_rp_iff a).mp hb)
    cases this
  have hcard := hnd.length_le_card
  unfold queued at hcard
  unfold Queues.size
  rw [List.length_append, List.length_map, Fintype.card_fin] at hcard
  rw [h.rrq, List.length_nil]
  omega

theorem size_lt (hv : k.Views) : k.queues.size < NPROCLIST := by
  have := h.size_le hv
  unfold NPROCLIST
  unfold NPROC at *
  omega

/-- **A process is made runnable**: its entry is the only one and carries
its accumulator. -/
theorem makeRunnable (hv : k.Views) (hp : (k.proc p).state ≠ .RUNNABLE) :
    (k.makeRunnable p).Ready := by
  have hpq : (k.makeRunnable p).queues.pq = StableQueue.put k.getMin p k.queues.pq := by
    rw [queues_makeRunnable, Queues.put_pq_of_lt _ _ _ (h.size_lt hv)]
  have hperm : (k.makeRunnable p).queued.Perm (p :: k.queued) := by
    unfold queued
    rw [hpq]
    exact (StableQueue.perm_put _ _ _).map Prod.snd
  refine ⟨?_, fun q => ?_, fun e he => ?_, ?_⟩
  · rw [hperm.nodup_iff, List.nodup_cons, h.mem_iff]
    exact ⟨hp, h.nodup⟩
  · rw [hperm.mem_iff, List.mem_cons, h.mem_iff, makeRunnable_proc]
    grind [update_apply]
  · rw [hpq, StableQueue.mem_put] at he
    rw [makeRunnable_proc]
    obtain rfl | he := he
    · simp
    · -- the old entries are of other processes
      have hne : e.2 ≠ p := by
        rintro rfl
        exact hp ((h.mem_iff e.2).mp (List.mem_map_of_mem he))
      rw [update_of_ne hne]
      exact h.key e he
  · rw [queues_makeRunnable, Queues.put_rrq, h.rrq]

/-- **A dispatch** takes the process out of the queue. -/
theorem switchTo {ds : D} (he : Scheduling.pqExtractMin k.ds = (some p, ds)) :
    (k.switchTo c p ds).Ready := by
  obtain ⟨a, es, hpq, hq⟩ := k.queues_switchTo p c he
  have hnd := h.nodup
  unfold queued at hnd
  rw [hpq, List.map_cons, List.nodup_cons] at hnd
  have hmem : ∀ q, q ∈ es.map Prod.snd ↔ (k.proc q).state = .RUNNABLE ∧ q ≠ p := by
    intro q
    rw [← h.mem_iff]
    unfold queued
    rw [hpq, List.map_cons, List.mem_cons]
    grind
  refine ⟨?_, fun q => ?_, fun e hmem' => ?_, ?_⟩
  · unfold queued
    rw [hq]
    exact hnd.2
  · unfold queued
    rw [hq, switchTo_proc]
    refine (hmem q).trans ?_
    grind [update_apply]
  · rw [hq] at hmem'
    have hne := ((hmem e.2).mp (List.mem_map_of_mem hmem')).2
    rw [switchTo_proc, update_of_ne hne]
    exact h.key e (by rw [hpq]; exact List.mem_cons_of_mem _ hmem')
  · rw [hq]
    exact h.rrq

/-- **A process that leaves without being runnable** is not queued. -/
theorem sched (hp : (k.proc p).state ≠ .RUNNABLE) (ctx : Context) :
    (k.sched c p ctx).Ready := by
  rw [sched_of_not_runnable k p c ctx hp]
  refine h.congr ?_ ?_ (fun q => ?_) (fun q _ => ?_)
  · simp
  · simp [Queues.remove]
  · rw [rpRemove_proc, setCpu_proc, setProc_keep k p q _ Proc.state rfl]
  · rw [rpRemove_proc, setCpu_proc, setProc_keep k p q _ Proc.accumulator rfl]

theorem sleepLocked (hp : (k.proc p).state ≠ .RUNNABLE) (chan : Chan) (ctx : Context) :
    (k.sleepLocked c p chan ctx).Ready := by
  refine Ready.sched (k := (k.setProc p _).rpRemove p) (h.congr ?_ ?_ (fun q => ?_) (fun q _ => ?_))
    ?_ ctx
  · simp
  · simp [Queues.remove]
  · rw [rpRemove_proc, setProc_proc]
    grind [update_apply]
  · rw [rpRemove_proc, setProc_keep k p q _ Proc.accumulator rfl]
  · simp

theorem waits (hp : (k.proc p).state ≠ .RUNNABLE) {r : Option Return} (hw : Waits c p k r k') :
    k'.Ready := by
  cases hw with
  | reap _ hz => exact h.setProc (by simp [hz]) rfl
  | fail => exact h
  | sleep => exact h.sleepLocked hp _ _

/-- Where nothing is queued that is not runnable, nothing is dropped. -/
theorem head_runnable {ds : D} (he : Scheduling.pqExtractMin k.ds = (some p, ds)) :
    (k.proc p).state = .RUNNABLE := by
  obtain ⟨a, es, hpq, -⟩ := k.exists_of_pqExtractMin p he
  rw [← h.mem_iff]
  unfold queued
  rw [hpq]
  exact List.mem_cons_self

theorem exit (hr : k.Running) (hc : k.cpuProc c = some p) (status : ℤ) (chan : Chan) :
    (((slots.foldl (passChild p)
        ((k.setProc p (fun x => { x with status := status })).wakeup1 chan)).setProc p
      (fun x => { x with state := .ZOMBIE })).sched c p .exit).Ready := by
  obtain ⟨hloop, hrun, hcpu⟩ := exitLoops_induction
    (I := fun k' : Kernel D n => k'.Ready ∧ k'.Running ∧ k'.cpuProc = k.cpuProc)
    p chan
    (fun k' q hk' _ => ⟨hk'.1.setProc Iff.rfl rfl, hk'.2.1.setProc Iff.rfl id rfl, hk'.2.2⟩)
    (fun k' q hk' hs _ => ⟨hk'.1.makeRunnable hk'.2.1.toViews (by rw [hs]; decide),
      hk'.2.1.makeRunnable hs, hk'.2.2⟩)
    ⟨h.setProc (p := p) (f := fun x => { x with status := status }) Iff.rfl rfl,
      hr.setProc (p := p) (f := fun x => { x with status := status }) Iff.rfl id rfl, rfl⟩
  generalize slots.foldl (passChild p)
    ((k.setProc p (fun x => { x with status := status })).wakeup1 chan) = k₂ at hloop hrun hcpu ⊢
  have hp : (k₂.proc p).state = .RUNNING := hrun.state_of_cpu (by rw [hcpu]; exact hc)
  refine (hloop.setProc ?_ rfl).sched ?_ .exit
  · rw [hp]
    exact ⟨fun h => (nomatch h), fun h => (nomatch h)⟩
  · rw [setProc_proc_self]
    exact ProcState.noConfusion

theorem allocproc {np : Slot} (ha : k.allocproc = some (np, k')) : k'.Ready := by
  obtain ⟨hnp, hproc, -, -, -, -, hds⟩ := allocproc_eq_some ha
  have hq : k'.queues = k.queues := congrArg LawfulScheduling.hom.toFun hds
  refine h.congr (congrArg Queues.pq hq) (congrArg Queues.rrq hq) (fun q => ?_) (fun q _ => ?_)
  all_goals
    rw [hproc]
    grind [update_apply]

/-- **Every step but `yield` keeps the queue what it is meant to be.** -/
theorem step (hr : k.Running) {e : Event n} {r : Option Return} (hy : ∀ c, e ≠ .yield c)
    (hstep : k.step e = .ok (r, k')) : k'.Ready := by
  have hrunning : ∀ {c p}, k.cpuProc c = some p → (k.proc p).state ≠ .RUNNABLE := by
    intro c p hc
    rw [hr.state_of_cpu hc]
    exact ProcState.noConfusion
  cases moves_of_step hstep with
  | userinitAlloc hb ha => exact (h.allocproc ha).congr rfl rfl (fun _ => Iff.rfl) (fun _ _ => rfl)
  | @userinit p hb =>
    have hp : (k.proc p).state ≠ .RUNNABLE := by
      rw [hr.boot hb]
      exact ProcState.noConfusion
    refine Ready.congr (k := (k.setProc p (fun x => { x with priority := 5 })).makeRunnable p)
      ?_ rfl rfl (fun _ => Iff.rfl) (fun _ _ => rfl)
    refine (h.setProc Iff.rfl rfl).makeRunnable (hr.setProc Iff.rfl id rfl).toViews ?_
    rw [setProc_proc_self]
    exact hp
  | idle => exact h
  | drop hc he hp => exact absurd (h.head_runnable he) hp
  | dispatch hc he hp => exact h.switchTo he
  | dispatchSleep hc he hp => exact (h.switchTo he).setProc Iff.rfl rfl
  | dispatchWait hc he hp hctx hw =>
    refine ((h.switchTo he).setProc Iff.rfl rfl).waits ?_ hw
    rw [setProc_keep _ _ _ _ Proc.state rfl, switchTo_proc, update_self]
    exact ProcState.noConfusion
  | yield => exact absurd rfl (hy _)
  | sleep hc hf => exact h.sleepLocked (hrunning hc) _ _
  | wakeup =>
    exact (wakeup1_induction (I := fun k' : Kernel D n => k'.Ready ∧ k'.Running)
      (fun k' q hk' hs _ => ⟨hk'.1.makeRunnable hk'.2.toViews (by rw [hs]; decide),
        hk'.2.makeRunnable hs⟩) ⟨h, hr⟩).1
  | forkNoProc => exact h
  | forkAlloc hc hf ha => exact (h.allocproc ha).setProc Iff.rfl rfl
  | forkFail hc hf =>
    refine (h.setProc ?_ rfl).setProc Iff.rfl rfl
    rw [hr.child (by rw [hf]; rfl)]
    exact ⟨fun h => (nomatch h), fun h => (nomatch h)⟩
  | forkCopy hc hf => exact (h.setProc Iff.rfl rfl).setProc Iff.rfl rfl
  | fork hc hf =>
    refine Ready.setProc ((h.setProc Iff.rfl rfl).makeRunnable
      (hr.setProc Iff.rfl id rfl).toViews ?_) Iff.rfl rfl
    rw [setProc_proc_self]
    show (k.proc _).state ≠ .RUNNABLE
    rw [hr.child (by rw [hf]; rfl)]
    exact ProcState.noConfusion
  | exit hc hf hinit => exact h.exit hr hc _ _
  | wait hc hf hw => exact h.waits (hrunning hc) hw
  | killNone => exact h
  | killSleeping hc hf hfind hs =>
    refine (h.setProc (f := fun x => { x with killed := true }) Iff.rfl rfl).makeRunnable
      (hr.setProc Iff.rfl id rfl).toViews ?_
    rw [setProc_proc_self]
    show (k.proc _).state ≠ .RUNNABLE
    rw [hs]
    exact ProcState.noConfusion
  | kill => exact h.setProc Iff.rfl rfl
  | detachNone => exact h
  | detach => exact h.setProc Iff.rfl rfl
  | priority => exact h.setProc Iff.rfl rfl

end

theorem boot₀ {ds : D} (hds : LawfulScheduling.hom.toFun ds = Queues.empty) :
    (Kernel.boot₀ (n := n) ds).Ready := by
  have hq : (Kernel.boot₀ (n := n) ds).queues = Queues.empty := hds
  refine ⟨?_, fun p => ?_, ?_, ?_⟩
  all_goals
    unfold queued at *
    rw [hq]
  · exact List.nodup_nil
  · exact ⟨fun h => (nomatch h), fun h => (nomatch h)⟩
  · exact fun e he => (nomatch he)
  · rfl

end Ready

/-- **`yield` queues the process twice**, if there is room for two more. -/
theorem queued_yield {k : Kernel D n} {c : Fin n} {p : Slot} (h : k.queues.size + 2 ≤ NPROCLIST) :
    ((((k.setProc p (fun x => { x with state := .RUNNABLE })).rpRemove p).pqPut p).sched
      c p .yield).queued.Perm (p :: p :: k.queued) := by
  have hput : ∀ (k : Kernel D n) q, k.queues.size < NPROCLIST →
      (k.pqPut q).queued.Perm (q :: k.queued) := by
    intro k q hk
    unfold queued
    rw [queues_pqPut, Queues.put_pq_of_lt _ _ _ hk]
    exact (StableQueue.perm_put _ _ _).map Prod.snd
  rw [sched_of_runnable _ _ _ _ (by simp)]
  have h₁ := (k.queues.size_remove_le p)
  have h₂ := (k.queues.remove p).2.size_put_le (k.proc p).accumulator p
  have h₃ := ((k.queues.remove p).2.put (k.proc p).accumulator p).2.size_remove_le p
  refine (hput _ p ?_).trans (List.Perm.cons p ?_)
  · simp only [queues_setProc, queues_rpRemove, queues_setCpu, queues_pqPut, rpRemove_proc,
      setProc_proc_self]
    omega
  · have hput₁ := hput ((k.setProc p (fun x => { x with state := .RUNNABLE })).rpRemove p) p
      (by rw [queues_rpRemove, queues_setProc]; omega)
    unfold queued at hput₁ ⊢
    simpa using hput₁

/-- A run without `yield` keeps the queue what it is meant to be. -/
theorem ready_of_exec {es : List (Event n)} {k : Kernel (Sched Slot) n}
    (hy : ∀ c, Event.yield c ∉ es) (h : (start n).exec es = .ok k) : k.Ready ∧ k.Running :=
  Machine.exec_invariant_along (C := fun _ e => ∀ c, e ≠ .yield c)
    (I := fun k : Kernel (Sched Slot) n => k.Ready ∧ k.Running)
    (fun hk hC hstep => ⟨hk.1.step hk.2 hC hstep, hk.2.step hstep⟩)
    ⟨Ready.boot₀ Sched.queues_init, Running.boot₀ Sched.queues_init⟩
    (Machine.along_of_forall (C := fun e : Event n => ∀ c, e ≠ .yield c)
      (fun _ he c hec => hy c (hec ▸ he)) _) h

/-! ## Stale and duplicate entries -/

/-- **The queue has no stale and no duplicate entry in any state of a run
exactly if the run has no `yield`.** -/
theorem queued_clean_iff_no_yield {es : List (Event n)} {k : Kernel (Sched Slot) n}
    (h : (start n).exec es = .ok k) :
    (∀ es' k', es' <+: es → (start n).exec es' = .ok k' →
        k'.queued.Nodup ∧ ∀ p ∈ k'.queued, (k'.proc p).state = .RUNNABLE)
      ↔ ∀ c, Event.yield c ∉ es := by
  constructor
  · intro hclean c hc
    -- up to the first `yield` the queue is as it should be, and has room
    cases hfind : es.find? (fun e => decide (∃ c, e = Event.yield c)) with
    | none => exact List.find?_eq_none.mp hfind _ hc (decide_eq_true ⟨c, rfl⟩)
    | some _ =>
      obtain ⟨he, es₁, es₂, rfl, hfirst⟩ := List.find?_eq_some_iff_append.mp hfind
      obtain ⟨c', rfl⟩ := of_decide_eq_true he
      obtain ⟨k₁, hk₁, hrest⟩ := Machine.exec_append_eq_ok.mp h
      obtain ⟨r, k₂, hstep, -⟩ := Machine.exec_cons_eq_ok.mp hrest
      have hno : ∀ c, Event.yield c ∉ es₁ := fun c hmem => by simpa using hfirst _ hmem
      obtain ⟨hready, hrun⟩ := ready_of_exec hno hk₁
      have hk₂ : (start n).exec (es₁ ++ [Event.yield c']) = .ok k₂ :=
        Machine.exec_append_eq_ok.mpr ⟨k₁, hk₁, Machine.exec_cons_eq_ok.mpr ⟨r, k₂, hstep, rfl⟩⟩
      have hnd := (hclean _ k₂ (by simp) hk₂).1
      cases moves_of_step hstep with
      | yield hcpu =>
        have hsize := hready.size_le hrun.toViews
        rw [(queued_yield (by unfold NPROCLIST; unfold NPROC at *; omega)).nodup_iff] at hnd
        exact absurd List.mem_cons_self (List.nodup_cons.mp hnd).1
  · intro hy es' k' hpre hexec
    obtain ⟨hready, -⟩ := ready_of_exec (fun c hc => hy c (hpre.subset hc)) hexec
    exact ⟨hready.nodup, fun p hp => (hready.mem_iff p).mp hp⟩

/-- Two processes are queued at the end of a run without `yield`. -/
theorem queued_clean_iff_no_yield_wakeRun : ∃ k, (start 2).exec wakeRun = .ok k
    ∧ ∀ es' k', es' <+: wakeRun → (start 2).exec es' = .ok k' →
      k'.queued.Nodup ∧ ∀ p ∈ k'.queued, (k'.proc p).state = .RUNNABLE := by
  obtain ⟨k, -, hk, -⟩ := exec_wakeRun
  exact ⟨k, hk, (queued_clean_iff_no_yield hk).mpr (by decide)⟩

/-- **One `yield` of the first process**: it is in the queue twice. -/
theorem queued_not_nodup_after_yield :
    ∃ k, (start 1).exec [.userinitAlloc, .userinit, .dispatch 0, .yield 0] = .ok k
      ∧ ¬ k.queued.Nodup := by
  obtain ⟨k, hk, hq⟩ :=
    exec_of_plain (n := 1) [.userinitAlloc, .userinit, .dispatch 0, .yield 0] rfl
  refine ⟨k, hk, ?_⟩
  show ¬ ((k.map Sched.queuesHom).ds.pq.map Prod.snd).Nodup
  rw [hq]
  decide +kernel

/-! ## Least accumulators -/

/-- **Without `yield` a dispatch takes a least accumulator**: the process
that `Priority_Scheduler` moves to `RUNNING` has an accumulator not above
that of any runnable process. -/
theorem dispatch_least_of_no_yield {es : List (Event n)} {k k' : Kernel (Sched Slot) n}
    {c : Fin n} {p : Slot} (hy : ∀ c, Event.yield c ∉ es) (h : (start n).exec es = .ok k)
    (hd : k.priorityScheduler₁ c = .ok (some p, k')) (q : Slot)
    (hq : (k.proc q).state = .RUNNABLE) :
    (k.proc p).accumulator ≤ (k.proc q).accumulator := by
  obtain ⟨hready, -⟩ := ready_of_exec hy h
  obtain ⟨-, ho, -⟩ | ⟨p', ds, he, ⟨-, ho, -⟩ | ⟨-, ho, -⟩⟩ := priorityScheduler₁_eq_ok hd
  · cases ho
  · cases ho
  · cases ho
    obtain ⟨a, es, hpq, -⟩ := k.exists_of_pqExtractMin p he
    have hsorted := k.sorted_pq
    have hkey := hready.key
    rw [hpq] at hsorted hkey
    have hmem := (hready.mem_iff q).mpr hq
    unfold queued at hmem
    rw [hpq, List.map_cons, List.mem_cons] at hmem
    obtain rfl | hmem := hmem
    · exact le_refl _
    · obtain ⟨e, he, rfl⟩ := List.mem_map.mp hmem
      calc (k.proc p).accumulator = a := (hkey (a, p) List.mem_cons_self).symm
        _ ≤ e.1 := (List.pairwise_cons.mp hsorted).1 e he
        _ = (k.proc e.2).accumulator := hkey e (List.mem_cons_of_mem _ he)

/-- The second CPU takes the younger child, while the older one, woken
later, is runnable too. -/
theorem dispatch_least_of_no_yield_wakeRun : ∃ k k', (start 2).exec wakeRun = .ok k
    ∧ k.priorityScheduler₁ 1 = .ok (some ⟨2, by decide⟩, k')
    ∧ (k.proc ⟨1, by decide⟩).state = .RUNNABLE
    ∧ (k.proc ⟨2, by decide⟩).accumulator ≤ (k.proc ⟨1, by decide⟩).accumulator := by
  obtain ⟨k, k', hk, hd, hs⟩ := exec_wakeRun
  exact ⟨k, k', hk, hd, hs, dispatch_least_of_no_yield (by decide) hk hd _ hs⟩

/-- **The entry under the old key.** The first process forks and yields, so
that it is queued under 0, where it was, and under 5, where it is; the
child runs and forks, and its child enters at 0 behind the old entry. The
second CPU then takes the first process, with accumulator 5, while that
child is runnable with accumulator 0. -/
theorem dispatch_not_least_after_yield :
    ∃ k k', (start 2).exec [.userinitAlloc, .userinit, .dispatch 0, .forkAlloc 0, .forkCopy 0,
        .fork 0, .yield 0, .dispatch 0, .forkAlloc 0, .forkCopy 0, .fork 0] = .ok k
      ∧ k.priorityScheduler₁ 1 = .ok (some ⟨0, by decide⟩, k')
      ∧ (k.proc ⟨2, by decide⟩).state = .RUNNABLE
      ∧ ¬ (k.proc ⟨0, by decide⟩).accumulator ≤ (k.proc ⟨2, by decide⟩).accumulator := by
  obtain ⟨k, hk, hq⟩ := exec_of_plain (n := 2) [.userinitAlloc, .userinit, .dispatch 0,
    .forkAlloc 0, .forkCopy 0, .fork 0, .yield 0, .dispatch 0, .forkAlloc 0, .forkCopy 0, .fork 0]
    rfl
  obtain ⟨k', hd⟩ := priorityScheduler₁_of_map (h := Sched.queuesHom) (k := k) (c := 1)
    (o := some ⟨0, by decide⟩) (by rw [hq]; rfl)
  refine ⟨k, k', hk, hd, ?_, ?_⟩
  · show ((k.map Sched.queuesHom).proc _).state = _
    rw [hq]
    rfl
  · show ¬ ((k.map Sched.queuesHom).proc _).accumulator ≤ ((k.map Sched.queuesHom).proc _).accumulator
    rw [hq]
    decide +kernel

end Kernel

end Xv6
