import Xv6.Proc.Ready

/-!
# Lost processes

The queue and `rpholder` share one pool of `NPROCLIST` links, and the
result of `pq.put` is ignored everywhere. A process that is made runnable
when there is no free link is in state `RUNNABLE` and in no queue, and
nobody will ever dispatch it.

As long as each step finds as many free links as it wakes processes
(`RoomFor`), no runnable process is lost. A `yield` needs none: it frees
the link of the process in `rpholder` before it asks for one. But it takes
a second one with its duplicate entry, so that one process yielding alone
uses the pool up, and the next process to be made runnable is lost.
-/

namespace Xv6

open Function

namespace Kernel

variable {D : Type} {n : ℕ}

/-! ## Sleepers -/

section sleeping

variable (S : Proc → Prop) [DecidablePred S]

/-- How many processes sleep that satisfy `S`. -/
def sleeping (k : Kernel D n) : ℕ :=
  (Finset.univ.filter (fun p => (k.proc p).state = .SLEEPING ∧ S (k.proc p))).card

variable {S} {k k' : Kernel D n} {p : Slot}

/-- A write that makes no sleeper. -/
theorem sleeping_mono
    (h : ∀ q, (k'.proc q).state = .SLEEPING ∧ S (k'.proc q) →
      (k.proc q).state = .SLEEPING ∧ S (k.proc q)) : k'.sleeping S ≤ k.sleeping S :=
  Finset.card_le_card (Finset.monotone_filter_right _ (fun q _ hq => h q hq))

theorem sleeping_setProc {f : Proc → Proc}
    (hf : (f (k.proc p)).state = .SLEEPING ∧ S (f (k.proc p)) →
      (k.proc p).state = .SLEEPING ∧ S (k.proc p)) :
    (k.setProc p f).sleeping S ≤ k.sleeping S := by
  refine sleeping_mono (fun q hq => ?_)
  rw [setProc_proc] at hq
  grind [update_apply]

/-- A sleeper that is made runnable is one less. -/
theorem sleeping_makeRunnable [Scheduling D Slot] (hs : (k.proc p).state = .SLEEPING)
    (hS : S (k.proc p)) : (k.makeRunnable p).sleeping S + 1 ≤ k.sleeping S := by
  refine Finset.card_lt_card (Finset.ssubset_iff_of_subset ?_ |>.mpr ⟨p, ?_, ?_⟩)
  · intro q hq
    rw [Finset.mem_filter, makeRunnable_proc] at hq
    rw [Finset.mem_filter]
    grind [update_apply]
  · rw [Finset.mem_filter]
    exact ⟨Finset.mem_univ p, hs, hS⟩
  · simp

variable (S) in
theorem sleeping_le (k : Kernel D n) : k.sleeping S ≤ NPROC :=
  (Finset.card_le_univ _).trans_eq (Fintype.card_fin NPROC)

end sleeping

/-- **How many processes a step may wake**: those it finds asleep on the
channels it wakes, or the new process. -/
def wakes (k : Kernel D n) : Event n → ℕ
  | .userinit => 1
  | .fork _ => 1
  | .wakeup chan => k.sleeping (fun x => x.chan = chan)
  | .kill _ pid => k.sleeping (fun x => x.pid = pid.toInt)
  | .exit c _ =>
    match k.cpuProc c with
    | none => 0
    | some p => k.sleeping
        (fun x => x.chan = .ofPtr (k.proc p).parent ∨ x.chan = .ofPtr k.initproc)
  | _ => 0

theorem wakes_le (k : Kernel D n) (e : Event n) : k.wakes e ≤ NPROC := by
  unfold wakes
  split
  · decide
  · decide
  · exact k.sleeping_le _
  · exact k.sleeping_le _
  · split
    · exact Nat.zero_le _
    · exact k.sleeping_le _
  · exact Nat.zero_le _

variable [Scheduling D Slot] [LawfulScheduling D]

/-- **There are as many free links as the step may wake processes**, so that each of them finds
one when it is put into the queue. -/
def RoomFor (k : Kernel D n) (e : Event n) : Prop := k.queues.size + k.wakes e ≤ NPROCLIST

/-! ## Every runnable process is queued -/

/-- **No runnable process is lost**: each one is in the queue of the policy, where a scheduler will
find it. -/
def NoLost (k : Kernel D n) : Prop := ∀ p, (k.proc p).state = .RUNNABLE → p ∈ k.queued

namespace NoLost

variable {k k' : Kernel D n} {c : Fin n} {p : Slot}

/-- The queue keeps its processes, and no new one is runnable. -/
theorem mono (h : k.NoLost) (hq : ∀ p ∈ k.queued, p ∈ k'.queued)
    (hrun : ∀ p, (k'.proc p).state = .RUNNABLE → (k.proc p).state = .RUNNABLE) : k'.NoLost :=
  fun p hp => hq p (h p (hrun p hp))

theorem setProc (h : k.NoLost) {f : Proc → Proc}
    (hrun : (f (k.proc p)).state = .RUNNABLE → (k.proc p).state = .RUNNABLE) :
    (k.setProc p f).NoLost := by
  refine h.mono (fun _ => id) (fun q hq => ?_)
  rw [setProc_proc] at hq
  grind [update_apply]

/-- A put keeps what is queued, and queues the process if there is room. -/
theorem mem_queued_pqPut (k : Kernel D n) (p : Slot) {q : Slot}
    (h : q ∈ k.queued ∨ q = p ∧ k.queues.size < NPROCLIST) : q ∈ (k.pqPut p).queued := by
  unfold queued at *
  rw [queues_pqPut]
  obtain hq | ⟨rfl, hroom⟩ := h
  · obtain ⟨e, he, rfl⟩ := List.mem_map.mp hq
    exact List.mem_map_of_mem (Queues.mem_put_of_mem _ _ _ he)
  · rw [Queues.put_pq_of_lt _ _ _ hroom]
    exact List.mem_map.mpr ⟨_, StableQueue.mem_put.mpr (.inl rfl), rfl⟩

/-- **A process made runnable while there is room** is queued. -/
theorem makeRunnable (h : k.NoLost) (hroom : k.queues.size < NPROCLIST) :
    (k.makeRunnable p).NoLost := by
  intro q hq
  unfold Kernel.makeRunnable
  refine mem_queued_pqPut _ p ?_
  by_cases hqp : q = p
  · exact .inr ⟨hqp, hroom⟩
  · refine .inl (h q ?_)
    rwa [makeRunnable_proc, update_of_ne hqp] at hq

/-- The induction hypothesis of a loop that wakes sleepers satisfying `S`:
there is still room for those left. -/
theorem makeRunnable_of_fits {S : Proc → Prop} [DecidablePred S]
    (h : k.NoLost ∧ k.queues.size + k.sleeping S ≤ NPROCLIST)
    (hs : (k.proc p).state = .SLEEPING) (hS : S (k.proc p)) :
    (k.makeRunnable p).NoLost
      ∧ (k.makeRunnable p).queues.size + (k.makeRunnable p).sleeping S ≤ NPROCLIST := by
  have hless := sleeping_makeRunnable hs hS
  have hsize := k.queues.size_put_le k.getMin p
  rw [← queues_makeRunnable] at hsize
  have hfits := h.2
  exact ⟨h.1.makeRunnable (by omega), by omega⟩

variable (h : k.NoLost)

include h

/-- A dispatch takes from the queue only an entry of the process it runs,
or one of a process that is not runnable. -/
theorem extract {ds : D} (he : Scheduling.pqExtractMin k.ds = (some p, ds))
    (hq : k'.queues.pq = k.queues.pq.tail) (hp : (k'.proc p).state ≠ .RUNNABLE)
    (hrun : ∀ q, (k'.proc q).state = .RUNNABLE → q ≠ p → (k.proc q).state = .RUNNABLE) :
    k'.NoLost := by
  obtain ⟨a, es, hpq, -⟩ := k.exists_of_pqExtractMin p he
  intro q hrunq
  have hqp : q ≠ p := by
    rintro rfl
    exact hp hrunq
  have hmem := h q (hrun q hrunq hqp)
  unfold queued at hmem ⊢
  rw [hq]
  rw [hpq, List.map_cons, List.mem_cons] at hmem
  rw [hpq]
  exact hmem.resolve_left hqp

theorem switchTo {ds : D} (he : Scheduling.pqExtractMin k.ds = (some p, ds)) :
    (k.switchTo c p ds).NoLost := by
  obtain ⟨a, es, hpq, hq⟩ := k.queues_switchTo p c he
  refine h.extract he (by rw [hq, hpq]; rfl) ?_ (fun q hq hqp => ?_)
  · rw [switchTo_proc, update_self]
    exact ProcState.noConfusion
  · rwa [switchTo_proc, update_of_ne hqp] at hq

/-- `sched` only adds to the queue. -/
theorem sched (ctx : Context) : (k.sched c p ctx).NoLost := by
  refine h.mono (fun q hq => ?_) (fun q hq => by rwa [sched_state] at hq)
  by_cases hp : (k.proc p).state = .RUNNABLE
  · rw [sched_of_runnable k p c ctx hp]
    refine mem_queued_pqPut _ p (.inl ?_)
    unfold queued at hq ⊢
    simpa using hq
  · rw [sched_of_not_runnable k p c ctx hp]
    unfold queued at hq ⊢
    simpa using hq

theorem sleepLocked (chan : Chan) (ctx : Context) :
    (k.sleepLocked c p chan ctx).NoLost := by
  refine NoLost.sched (k := (k.setProc p _).rpRemove p) (h.mono (fun q hq => ?_) (fun q hq => ?_)) ctx
  · unfold queued at hq ⊢
    simpa using hq
  · rw [rpRemove_proc, setProc_proc] at hq
    grind [update_apply]

theorem waits {r : Option Return} (hw : Waits c p k r k') : k'.NoLost := by
  cases hw with
  | reap _ hz => exact h.setProc ProcState.noConfusion
  | fail => exact h
  | sleep => exact h.sleepLocked _ _

/-- **`yield` never loses the process**: removing it from `rpholder` frees
the link its entry needs. -/
theorem yield (hv : k.Views) (hc : k.cpuProc c = some p) :
    ((((k.setProc p (fun x => { x with state := .RUNNABLE })).rpRemove p).pqPut p).sched
      c p .yield).NoLost := by
  refine NoLost.sched (fun q hq => mem_queued_pqPut _ p ?_) .yield
  by_cases hqp : q = p
  · have hmem : p ∈ k.queues.rp := (hv.mem_rp_iff p).mpr (hv.state_of_cpu hc)
    have hsize := Queues.size_remove_of_mem k.queues p hmem
    have hle := k.size_queues_le
    refine .inr ⟨hqp, ?_⟩
    rw [queues_rpRemove, queues_setProc]
    omega
  · refine .inl ?_
    rw [pqPut_proc, rpRemove_proc, setProc_proc_of_ne _ _ _ _ hqp] at hq
    have := h q hq
    unfold queued at this ⊢
    simpa using this

theorem exit (status : ℤ) (hroom : k.queues.size + k.sleeping
      (fun x => x.chan = .ofPtr (k.proc p).parent ∨ x.chan = .ofPtr k.initproc) ≤ NPROCLIST) :
    (((slots.foldl (passChild p)
        ((k.setProc p (fun x => { x with status := status })).wakeup1
          (.ofPtr (k.proc p).parent))).setProc p
      (fun x => { x with state := .ZOMBIE })).sched c p .exit).NoLost := by
  -- whoever the two loops wake was counted, and `initproc` does not change
  let S : Proc → Prop := fun x => x.chan = .ofPtr (k.proc p).parent ∨ x.chan = .ofPtr k.initproc
  have hstart : (k.setProc p (fun x => { x with status := status })).sleeping S ≤ k.sleeping S :=
    sleeping_setProc id
  obtain ⟨⟨hloop, -⟩, -⟩ := exitLoops_induction
    (I := fun k' : Kernel D n => (k'.NoLost ∧ k'.queues.size + k'.sleeping S ≤ NPROCLIST)
      ∧ k'.initproc = k.initproc) p (.ofPtr (k.proc p).parent)
    (fun k' q hk' _ => by
      refine ⟨⟨hk'.1.1.setProc id, ?_⟩, hk'.2⟩
      exact (Nat.add_le_add_left (sleeping_setProc id) _).trans hk'.1.2)
    (fun k' q hk' hs hchan => by
      rw [hk'.2] at hchan
      exact ⟨makeRunnable_of_fits hk'.1 hs hchan, hk'.2⟩)
    ⟨⟨h.setProc (p := p) (f := fun x => { x with status := status }) id,
      (Nat.add_le_add_left hstart _).trans hroom⟩, rfl⟩
  generalize slots.foldl (passChild p)
    ((k.setProc p (fun x => { x with status := status })).wakeup1
      (.ofPtr (k.proc p).parent)) = k₂ at hloop ⊢
  exact (hloop.setProc ProcState.noConfusion).sched .exit

theorem allocproc {np : Slot} (ha : k.allocproc = some (np, k')) : k'.NoLost := by
  obtain ⟨hnp, hproc, -, -, -, -, hds⟩ := allocproc_eq_some ha
  have hq : k'.queues = k.queues := congrArg LawfulScheduling.hom.toFun hds
  refine h.mono (fun q hmem => ?_) (fun q hrun => ?_)
  · unfold queued at hmem ⊢
    rwa [hq]
  · rw [hproc] at hrun
    grind [update_apply]

/-- **A step with room for the processes it wakes loses none.** -/
theorem step (hr : k.Running) {e : Event n} {r : Option Return} (hroom : k.RoomFor e)
    (hstep : k.step e = .ok (r, k')) : k'.NoLost := by
  cases moves_of_step hstep with
  | userinitAlloc hb ha => exact (h.allocproc ha).mono (fun _ => id) (fun _ => id)
  | userinit hb =>
    exact ((h.setProc id).makeRunnable hroom).mono (fun _ => id) (fun _ => id)
  | idle => exact h
  | @drop c p ds hc he hp =>
    obtain ⟨a, es, hpq, hds⟩ := k.exists_of_pqExtractMin p he
    refine h.extract he ?_ hp (fun _ hq _ => hq)
    show (LawfulScheduling.hom.toFun ds).pq = _
    rw [hds, hpq]
    rfl
  | dispatch hc he hp => exact h.switchTo he
  | dispatchSleep hc he hp => exact (h.switchTo he).setProc id
  | dispatchWait hc he hp hctx hw => exact ((h.switchTo he).setProc id).waits hw
  | yield hc => exact h.yield hr.toViews hc
  | sleep hc hf => exact h.sleepLocked _ _
  | @wakeup chan =>
    replace hroom : k.queues.size + k.sleeping (fun x => x.chan = chan) ≤ NPROCLIST := hroom
    exact (wakeup1_induction
      (I := fun k' : Kernel D n => k'.NoLost
        ∧ k'.queues.size + k'.sleeping (fun x => x.chan = chan) ≤ NPROCLIST)
      (fun k' q hk' hs hchan => makeRunnable_of_fits hk' hs hchan) ⟨h, hroom⟩).1
  | forkNoProc => exact h
  | forkAlloc hc hf ha => exact (h.allocproc ha).setProc id
  | forkFail hc hf => exact (h.setProc ProcState.noConfusion).setProc id
  | forkCopy hc hf => exact (h.setProc id).setProc id
  | fork hc hf => exact NoLost.setProc ((h.setProc id).makeRunnable hroom) id
  | exit hc hf hinit =>
    refine h.exit _ ?_
    unfold RoomFor wakes at hroom
    simpa only [hc] using hroom
  | wait hc hf hw => exact h.waits hw
  | killNone => exact h
  | @killSleeping c p q pid hc hf hfind hs =>
    have hpos : 0 < k.sleeping (fun x => x.pid = pid.toInt) :=
      Finset.card_pos.mpr ⟨q, Finset.mem_filter.mpr ⟨Finset.mem_univ q, hs, pid_of_find hfind⟩⟩
    replace hroom : k.queues.size + k.sleeping (fun x => x.pid = pid.toInt) ≤ NPROCLIST := hroom
    refine (h.setProc id).makeRunnable ?_
    rw [queues_setProc]
    omega
  | kill => exact h.setProc id
  | detachNone => exact h
  | detach => exact h.setProc id
  | priority => exact h.setProc id

end NoLost

/-- **No runnable process is lost in a run whose steps all have room**:
every process in state `RUNNABLE` is in the queue. -/
theorem runnable_queued_of_room {es : List (Event n)} {k : Kernel (Sched Slot) n}
    (hroom : Machine.Along step RoomFor (start n) es) (h : (start n).exec es = .ok k) (p : Slot)
    (hp : (k.proc p).state = .RUNNABLE) : p ∈ k.queued := by
  have hk := Machine.exec_invariant_along
    (I := fun k : Kernel (Sched Slot) n => k.NoLost ∧ k.Running)
    (fun hk hC hstep => ⟨hk.1.step hk.2 hC hstep, hk.2.step hstep⟩)
    ⟨fun p hp => ProcState.noConfusion hp, Running.boot₀ Sched.queues_init⟩ hroom h
  exact hk.1 p hp

/-- Without `yield` there is always room. -/
theorem along_roomFor_of_no_yield {es : List (Event n)} (hy : ∀ c, Event.yield c ∉ es) :
    Machine.Along step RoomFor (start n) es := by
  refine Machine.Along.imp (C := fun _ e => ∀ c, e ≠ .yield c)
    (I := fun k : Kernel (Sched Slot) n => k.Ready ∧ k.Running)
    (fun hk hC hstep => ⟨hk.1.step hk.2 hC hstep, hk.2.step hstep⟩) (fun {k e} hk _ => ?_)
    ⟨Ready.boot₀ Sched.queues_init, Running.boot₀ Sched.queues_init⟩
    (Machine.along_of_forall (C := fun e : Event n => ∀ c, e ≠ .yield c)
      (fun _ he c hec => hy c (hec ▸ he)) _)
  have hsize := hk.1.size_le hk.2.toViews
  have hwakes := k.wakes_le e
  unfold RoomFor NPROCLIST
  omega

/-- A process that has been woken, while another one is queued. -/
theorem runnable_queued_of_room_wakeRun : ∃ k, (start 2).exec wakeRun = .ok k
    ∧ (k.proc ⟨1, by decide⟩).state = .RUNNABLE ∧ ⟨1, by decide⟩ ∈ k.queued := by
  obtain ⟨k, -, hk, -, hs⟩ := exec_wakeRun
  exact ⟨k, hk, hs, runnable_queued_of_room (along_roomFor_of_no_yield (by decide)) hk _ hs⟩

/-! ## The pool runs out -/

/-- **A process alone**, on one CPU: nobody else is in the table, and the
queue holds it `m` times. -/
structure Alone (p : Slot) (m : ℕ) (k : Kernel (Queues Slot) 1) : Prop where
  cpu : k.cpuProc 0 = none
  state : (k.proc p).state = .RUNNABLE
  context : (k.proc p).context = .forkret ∨ (k.proc p).context = .yield
  forking : (k.proc p).forking = .no
  others : ∀ q, q ≠ p → (k.proc q).state = .UNUSED
  queued : k.ds.pq.map Prod.snd = List.replicate m p
  rrq : k.ds.rrq = []
  rp : k.ds.rp = []

/-- The same process while it runs. -/
structure AloneOnCpu (p : Slot) (m : ℕ) (k : Kernel (Queues Slot) 1) : Prop where
  cpu : k.cpuProc 0 = some p
  forking : (k.proc p).forking = .no
  others : ∀ q, q ≠ p → (k.proc q).state = .UNUSED
  running : (k.proc p).state = .RUNNING
  queued : k.ds.pq.map Prod.snd = List.replicate m p
  rrq : k.ds.rrq = []
  rp : k.ds.rp = [p]

variable {p : Slot} {m : ℕ} {k : Kernel (Queues Slot) 1}

theorem plain_pqPut_ds : (k.pqPut p).ds = (k.ds.put (k.proc p).accumulator p).2 := rfl

theorem plain_rpRemove_ds : (k.rpRemove p).ds = (k.ds.remove p).2 := rfl

/-- A put of a process among its own entries. -/
theorem map_snd_put {q : List (ℤ × Slot)} (a : ℤ) (h : q.map Prod.snd = List.replicate m p) :
    (StableQueue.put a p q).map Prod.snd = List.replicate (m + 1) p := by
  have hperm := (StableQueue.perm_put a p q).map Prod.snd
  rw [List.map_cons, h, ← List.replicate_succ] at hperm
  exact List.perm_replicate.mp hperm

/-- A put into queues that hold nothing else, while there is room. -/
theorem put_of_length_lt {q : List (ℤ × Slot)} (a : ℤ) (h : q.length < NPROCLIST) :
    (Queues.put a p ⟨q, [], []⟩).2 = ⟨StableQueue.put a p q, [], []⟩ := by
  unfold Queues.put
  exact congrArg Prod.snd (if_pos h)

/-- It gets the CPU, since nobody else is queued. -/
theorem Alone.dispatch (h : k.Alone p (m + 1)) (hm : m < NPROCLIST) :
    ∃ k', k.step (.dispatch 0) = .ok (none, k') ∧ k'.AloneOnCpu p m := by
  have hq := h.queued
  cases hpq : k.ds.pq with
  | nil =>
    rw [hpq] at hq
    cases hq
  | cons e es =>
    rw [hpq, List.map_cons, List.replicate_succ, List.cons.injEq] at hq
    obtain ⟨rfl, hes⟩ := hq
    have hempty : Scheduling.pqIsEmpty k.ds = false := by
      show decide (k.ds.pq.length = 0) = false
      rw [hpq]
      rfl
    have hext : Scheduling.pqExtractMin k.ds = (some e.2, ⟨es, k.ds.rrq, k.ds.rp⟩) := by
      show k.ds.extractMin = _
      unfold Queues.extractMin
      rw [hpq]
    have hfirst : k.priorityScheduler₁ 0
        = .ok (some e.2, k.switchTo 0 e.2 ⟨es, k.ds.rrq, k.ds.rp⟩) := by
      unfold priorityScheduler₁
      simp only [hempty, hext, h.state, Bool.false_eq_true, if_false, if_true]
    refine ⟨k.switchTo 0 e.2 ⟨es, k.ds.rrq, k.ds.rp⟩, ?_, ?_⟩
    · show k.dispatch 0 = _
      unfold Kernel.dispatch
      rw [h.cpu, hfirst]
      show (k.switchTo 0 e.2 _).resume 0 e.2 = _
      unfold resume
      rw [switchTo_proc, update_self]
      obtain hctx | hctx := h.context <;> simp only [hctx]
    · have hlen : es.length = m := by simpa using congrArg List.length hes
      have hds : (k.switchTo 0 e.2 ⟨es, k.ds.rrq, k.ds.rp⟩).ds = ⟨es, [], [e.2]⟩ := by
        show (Queues.add e.2 ⟨es, k.ds.rrq, k.ds.rp⟩).2 = _
        unfold Queues.add Queues.size
        rw [h.rrq, h.rp, if_pos (by simp only [List.length_nil]; omega)]
        rfl
      obtain ⟨-, -, -, hforking, hothers, -, -, -⟩ := h
      constructor <;> simp only [switchTo_cpuProc, switchTo_proc, hds] <;> grind [update_apply]

/-- **A `yield` adds two entries to those left.** -/
theorem AloneOnCpu.yield (h : k.AloneOnCpu p m) (hm : m + 1 < NPROCLIST) :
    ∃ k', k.step (.yield 0) = .ok (none, k') ∧ k'.Alone p (m + 2) := by
  have hlen : k.ds.pq.length = m := by simpa using congrArg List.length h.queued
  have hput₁ := map_snd_put (k.proc p).accumulator h.queued
  have hput₂ := map_snd_put (wrap64 ((k.proc p).accumulator + (k.proc p).priority)) hput₁
  obtain ⟨k', hk'⟩ : ∃ k', k' = (((k.setProc p (fun x => { x with state := .RUNNABLE })).rpRemove
    p).pqPut p).sched 0 p .yield := ⟨_, rfl⟩
  refine ⟨k', ?_, ?_⟩
  · show Kernel.yield 0 k = _
    unfold Kernel.yield
    rw [h.cpu, hk']
  · rw [sched_of_runnable _ _ _ _ (by simp)] at hk'
    -- the first removal frees the link of `rpholder`, the second finds nothing
    have hremove : (k.ds.remove p).2 = ⟨k.ds.pq, [], []⟩ := by
      unfold Queues.remove
      rw [h.rrq, h.rp, List.erase_cons_head]
    have hds : k'.ds = ⟨StableQueue.put (wrap64 ((k.proc p).accumulator + (k.proc p).priority)) p
        (StableQueue.put (k.proc p).accumulator p k.ds.pq), [], []⟩ := by
      rw [hk']
      simp only [plain_pqPut_ds, plain_rpRemove_ds, setProc_ds, setCpu_ds, setProc_proc_self,
        pqPut_proc, rpRemove_proc, setCpu_proc, hremove]
      rw [put_of_length_lt _ (by omega)]
      show (Queues.put _ p ⟨_, [], []⟩).2 = _
      rw [put_of_length_lt _ (by rw [StableQueue.length_put]; omega)]
    have hproc : k'.proc = update k.proc p
        { k.proc p with
          state := .RUNNABLE
          context := .yield
          accumulator := wrap64 ((k.proc p).accumulator + (k.proc p).priority) } := by
      rw [hk']
      simp
    have hcpu : k'.cpuProc 0 = none := by
      rw [hk']
      rfl
    obtain ⟨-, hforking, hothers, -, -, -, -⟩ := h
    constructor <;> simp only [hcpu, hproc, hds] <;> grind [update_apply]

/-- **Quanta that end in `yield`** pile up entries, one each. -/
theorem Alone.quanta (h : k.Alone p 1) {j : ℕ} (hj : j < NPROCLIST) :
    ∃ k', k.exec (List.replicate j [Event.dispatch 0, Event.yield 0]).flatten = .ok k'
      ∧ k'.Alone p (j + 1) := by
  induction j with
  | zero => exact ⟨k, rfl, h⟩
  | succ j ih =>
    obtain ⟨k₁, hk₁, h₁⟩ := ih (by omega)
    obtain ⟨k₂, hk₂, h₂⟩ := h₁.dispatch (by omega)
    obtain ⟨k₃, hk₃, h₃⟩ := h₂.yield hj
    refine ⟨k₃, ?_, h₃⟩
    rw [List.replicate_succ', List.flatten_append]
    exact Machine.exec_append_eq_ok.mpr ⟨k₁, hk₁, Machine.exec_cons_eq_ok.mpr ⟨none, k₂, hk₂,
      Machine.exec_cons_eq_ok.mpr ⟨none, k₃, hk₃, rfl⟩⟩⟩

/-- A `fork` from beginning to end: the child is runnable, and whether it is
queued is up to the put. -/
theorem exec_fork {D : Type} [Scheduling D Slot] {k k₁ : Kernel D n} {c : Fin n} {p np : Slot}
    (hc : k.cpuProc c = some p) (hf : (k.proc p).forking = .no)
    (ha : k.allocproc = some (np, k₁)) (hne : np ≠ p) :
    ∃ k' acc, k.exec [.forkAlloc c, .forkCopy c, .fork c] = .ok k'
      ∧ (k'.proc np).state = .RUNNABLE ∧ k'.ds = (Scheduling.pqPut acc np k.ds).2 := by
  obtain ⟨-, hproc, -, hcpu, -, -, hds⟩ := allocproc_eq_some ha
  have hcur : k.current c = .ok p := current_eq_ok.mpr ⟨hc, hf⟩
  let k₂ := k₁.setProc p (fun x => { x with forking := .allocated np })
  let k₃ := (k₂.setProc np (fun x => { x with parent := some p })).setProc p
    (fun x => { x with forking := .copied np })
  let k₄ := (k₃.setProc np (fun x => { x with priority := 5 })).makeRunnable np
  have h₂ : k.step (.forkAlloc c) = .ok (none, k₂) := by
    show k.forkAlloc c = _
    unfold forkAlloc
    rw [hcur, ha]
    rfl
  have h₃ : k₂.step (.forkCopy c) = .ok (none, k₃) := by
    show k₂.forkCopy c = _
    unfold forkCopy
    rw [show k₂.cpuProc c = some p from (congrFun hcpu c).trans hc]
    dsimp only
    rw [show (k₂.proc p).forking = .allocated np by rw [setProc_proc_self]]
  have h₄ : k₃.step (.fork c) = .ok (some ⟨p, (k₃.proc np).pid, none⟩,
      k₄.setProc p (fun x => { x with forking := .no })) := by
    show k₃.fork c = _
    unfold fork
    rw [show k₃.cpuProc c = some p from (congrFun hcpu c).trans hc]
    dsimp only
    rw [show (k₃.proc p).forking = .copied np by rw [setProc_proc_self]]
  obtain ⟨acc, hacc⟩ : ∃ acc, k₄.ds = (Scheduling.pqPut acc np k₁.ds).2 := ⟨_, rfl⟩
  refine ⟨k₄.setProc p (fun x => { x with forking := .no }), acc,
    Machine.exec_cons_eq_ok.mpr ⟨_, _, h₂, Machine.exec_cons_eq_ok.mpr ⟨_, _, h₃,
      Machine.exec_cons_eq_ok.mpr ⟨_, _, h₄, rfl⟩⟩⟩, ?_, ?_⟩
  · rw [setProc_proc_of_ne _ _ _ _ hne, makeRunnable_proc, update_self]
  · rw [← hds, ← hacc]
    rfl

/-- **With the pool used up, a `fork` loses its child.** -/
theorem AloneOnCpu.fork_lost (h : k.AloneOnCpu p m) (hm : NPROCLIST ≤ m + 1) :
    ∃ k' np, k.exec [.forkAlloc 0, .forkCopy 0, .fork 0] = .ok k'
      ∧ (k'.proc np).state = .RUNNABLE ∧ np ∉ k'.ds.pq.map Prod.snd := by
  have hlen : k.ds.pq.length = m := by simpa using congrArg List.length h.queued
  -- the table has more than one slot, and the others are unused
  have : Nontrivial Slot := inferInstanceAs (Nontrivial (Fin 64))
  obtain ⟨q, hq⟩ : ∃ q, q ≠ p := exists_ne p
  have hfind : (slots.find? (fun p => (k.proc p).state = .UNUSED)).isSome = true :=
    List.find?_isSome.mpr ⟨q, List.mem_finRange q, decide_eq_true (h.others q hq)⟩
  obtain ⟨⟨np, k₁⟩, ha⟩ : ∃ x, k.allocproc = some x := by
    unfold allocproc
    obtain ⟨np, hnp⟩ := Option.isSome_iff_exists.mp hfind
    rw [hnp]
    exact ⟨_, rfl⟩
  have hne : np ≠ p := by
    rintro rfl
    have := (allocproc_eq_some ha).1.symm.trans h.running
    cases this
  obtain ⟨k', acc, hexec, hrun, hds⟩ := exec_fork h.cpu h.forking ha hne
  refine ⟨k', np, hexec, hrun, ?_⟩
  have hfull : (Queues.put (acc np) np k.ds).2.pq = k.ds.pq := by
    refine Queues.put_pq_of_le _ _ _ ?_
    unfold Queues.size
    rw [h.rrq, h.rp, hlen]
    exact hm
  rw [show k'.ds.pq = k.ds.pq from (congrArg Queues.pq hds).trans hfull, h.queued]
  exact fun hmem => hne (List.eq_of_mem_replicate hmem)

/-- `userinit` leaves its process alone. -/
theorem alone_userinit : ∃ k p, (plainStart 1).exec [.userinitAlloc, .userinit] = .ok k
    ∧ k.Alone p 1 := by
  refine ⟨_, ⟨0, by decide⟩, rfl, ⟨rfl, rfl, .inl rfl, rfl, ?_, rfl, rfl, rfl⟩⟩
  decide +kernel

/-- **A runnable process that is in no queue.** The first process yields
127 times, which fills the pool with its entries; the next time it runs,
it forks. -/
theorem runnable_not_queued_after_yields :
    ∃ k p, (start 1).exec ([.userinitAlloc, .userinit]
        ++ (List.replicate 127 [Event.dispatch 0, Event.yield 0]).flatten
        ++ [.dispatch 0, .forkAlloc 0, .forkCopy 0, .fork 0]) = .ok k
      ∧ (k.proc p).state = .RUNNABLE ∧ p ∉ k.queued := by
  obtain ⟨a₀, p, h₀, halone⟩ := alone_userinit
  obtain ⟨a₁, h₁, halone₁⟩ := halone.quanta (j := 127) (by decide)
  obtain ⟨a₂, h₂, hcpu⟩ := halone₁.dispatch (by decide)
  obtain ⟨a₃, np, h₃, hrun, hlost⟩ := hcpu.fork_lost (by decide)
  obtain ⟨k, hk, hmap⟩ := exec_of_plain _ (Machine.exec_append_eq_ok.mpr
    ⟨a₁, Machine.exec_append_eq_ok.mpr ⟨a₀, h₀, h₁⟩,
      Machine.exec_cons_eq_ok.mpr ⟨none, a₂, h₂, h₃⟩⟩)
  refine ⟨k, np, hk, ?_, ?_⟩
  · show ((k.map Sched.queuesHom).proc np).state = _
    rw [hmap]
    exact hrun
  · show np ∉ (k.map Sched.queuesHom).ds.pq.map Prod.snd
    rw [hmap]
    exact hlost

end Kernel

end Xv6
