import Xv6.Proc.Tree

/-!
# Killed processes

`killed` is cleared in one place, where `wait` frees a zombie. `allocproc` does
not clear it, so a process starts with what the last use of its slot has left:
a `fork` that fails leaves the flag and the pid of its child in the free slot,
and `kill` looks at pids only, and finds free slots as well – with pid `0`
every slot that was never used. `Kernel.Fresh` says that neither happens. Then
a free slot is not killed, and a child that `fork` returns is killed only if
somebody has called `kill` with its pid since it was allocated.
-/

namespace Xv6

namespace Kernel

variable {D : Type} {n : ℕ}

/-- The process `kill` finds. -/
def target (k : Kernel D n) (pid : Int32) : Option Slot :=
  slots.find? (fun p => (k.proc p).pid = pid.toInt)

/-- The child that the process on CPU `c` is building. -/
def building (k : Kernel D n) (c : Fin n) : Option Slot :=
  (k.cpuProc c).bind (fun p => (k.proc p).forking.child)

/-- **No mark is left in a free slot**: `kill` does not find one, and no `fork`
fails with a child that was killed. -/
def Fresh (k : Kernel D n) : Event n → Prop
  | .kill _ pid => ∀ q ∈ k.target pid, (k.proc q).state ≠ .UNUSED
  | .forkFail c => ∀ np ∈ k.building c, (k.proc np).killed = false
  | _ => True

/-- `kill` was called with the pid. -/
def Kills (e : Event n) (v : ℤ) : Prop := ∃ c pid, e = .kill c pid ∧ pid.toInt = v

/-- **A process is born**: the process in slot `p` allocates its child in slot `np`, with the pid
`v`. The life of the child begins with this step. -/
def Begets (x : Machine.Step (Kernel D n) (Event n) (Option Return)) (p np : Slot) (v : ℤ) : Prop :=
  ∃ c, x.event = .forkAlloc c ∧ x.before.cpuProc c = some p ∧ (x.before.proc np).state = .UNUSED ∧
    (x.after.proc p).forking = .allocated np ∧ (x.after.proc np).pid = v

/-- **The marks and the history of the run.** -/
structure Unmarked (h : History D n) (k : Kernel D n) : Prop where
  unused : ∀ q, (k.family.life q).stage = .unused → (k.proc q).killed = false
  /-- A child that is being built is killed by a `kill` since it was allocated. -/
  child : ∀ p np, (k.proc p).forking.child = some np →
    ∃ h₀ a h₁, h = h₀ ++ a :: h₁ ∧ Begets a p np (k.proc np).pid ∧
      ((k.proc np).killed = true → ∃ y ∈ h₁, Kills y.event (k.proc np).pid)

namespace Unmarked

variable {h : History D n} {k k' : Kernel D n} {e : Event n} {r : Option Return}

theorem start (ds : D) : Unmarked [] (boot₀ (n := n) ds) where
  unused _ _ := rfl
  child _ _ h := nomatch h

/-- **A step, slot by slot**: which children are being built, that a free slot is not
killed, and what an embryo keeps. -/
theorem keep (hm : Unmarked h k) (hemb : k.Embryos) (hslot : ∀ q,
    (∀ np, (k'.family.life q).forking.child = some np → (k.family.life q).forking.child = some np ∨
      Begets ⟨k, e, r, k'⟩ q np (k'.proc np).pid ∧ (k'.proc np).killed = false) ∧
    ((k'.family.life q).stage = .unused → (k'.family.life q).killed = false) ∧
    ((k.family.life q).stage = .embryo → (k'.family.life q).pid = (k.family.life q).pid ∧
      ((k'.family.life q).killed = (k.family.life q).killed ∨ Kills e (k.family.life q).pid))) :
    Unmarked (h ++ [⟨k, e, r, k'⟩]) k' := by
  refine ⟨fun q => (hslot q).2.1, fun p np hp => ?_⟩
  rcases (hslot p).1 np hp with hp | ⟨hbegets, hkilled⟩
  · obtain ⟨hpid, hkilled⟩ := (hslot np).2.2 (ProcState.stage_eq_embryo.mpr (hemb.child hp))
    obtain ⟨h₀, a, h₁, rfl, hbegets, hkill⟩ := hm.child p np hp
    have hpid : (k'.proc np).pid = (k.proc np).pid := hpid
    refine ⟨h₀, a, h₁ ++ [⟨k, e, r, k'⟩], by rw [List.append_assoc]; rfl, hpid ▸ hbegets,
      fun hmark => ?_⟩
    rw [hpid]
    rcases hkilled with hkilled | hkilled
    · obtain ⟨y, hy, hykill⟩ := hkill (hkilled.symm.trans hmark)
      exact ⟨y, List.mem_append_left _ hy, hykill⟩
    · exact ⟨⟨k, e, r, k'⟩, List.mem_append_right _ (List.mem_singleton_self _), hkilled⟩
  · exact ⟨h, _, [], rfl, hbegets, fun hmark => by rw [hkilled] at hmark; cases hmark⟩

/-- **Every step keeps the record**, if it leaves no mark in a free slot. -/
theorem next (hm : Unmarked h k) (hemb : k.Embryos) (hl : Lives k e r k') (hfresh : k.Fresh e) :
    Unmarked (h ++ [⟨k, e, r, k'⟩]) k' := by
  have hembryo : ∀ {p np}, (k.family.life p).forking.child = some np →
      (k.family.life np).stage = .embryo := fun hp => ProcState.stage_eq_embryo.mpr (hemb.child hp)
  have hunused : ∀ q, (k.family.life q).stage = .unused → (k.family.life q).killed = false := hm.unused
  cases hl with
  | quiet a he hfam | refused he hfam | waitFail he hwhy hfam | userinitAlloc hb hp hfam
  | userinit hb hfam | copy hc hp hf hfam | birth hc hp hf hfam | reap he hpar hz hfam
  | waitSleep he hz hfam | detach hc hp hf hfind hfam =>
    refine hm.keep hemb (fun q => ?_)
    rw [hfam]
    grind [Forking.child]
  | @alloc c p np _ hc hp hf hnp hfam =>
    -- the new child: its slot was free, and not killed
    have hbegets : Begets ⟨k, .forkAlloc c, none, k'⟩ p np (k'.proc np).pid := by
      refine ⟨c, rfl, hc, ProcState.stage_eq_unused.mp hnp, ?_, rfl⟩
      show (k'.family.life p).forking = _
      rw [hfam, Family.set_life_self]
    have hkilled : (k'.proc np).killed = false := by
      show (k'.family.life np).killed = false
      rw [hfam]
      grind
    refine hm.keep hemb (fun q => ?_)
    rw [hfam]
    grind [Forking.child]
  | @abandon c p np _ hc hp hf hfam =>
    have hkilled : (k.family.life np).killed = false := by
      refine hfresh np ?_
      show (k.cpuProc c).bind _ = some np
      rw [hc]
      exact congrArg Forking.child hf
    refine hm.keep hemb (fun q => ?_)
    rw [hfam]
    grind [Forking.child]
  | exit a hc hp hf hinit hpar hwoken hfam =>
    refine hm.keep hemb (fun q => ?_)
    rw [hfam]
    grind [Family.bury]
  | @kill c p q pid _ a hc hfind hfam =>
    have hkills : Kills (n := n) (.kill c pid) (k.family.life q).pid :=
      ⟨c, pid, rfl, (pid_of_find hfind).symm⟩
    have hused : (k.family.life q).stage ≠ .unused := fun hun =>
      hfresh q hfind (ProcState.stage_eq_unused.mp hun)
    refine hm.keep hemb (fun x => ?_)
    rw [hfam]
    grind

end Unmarked

theorem unmarked_of_run {h : History (Sched Slot) n} {k : Kernel (Sched Slot) n}
    (hrun : Machine.Run step (start n) h k) (hfresh : ∀ x ∈ h, Fresh x.before x.event) :
    k.Running ∧ Unmarked h k := by
  induction hrun with
  | start => exact ⟨Running.boot₀ Sched.queues_init, Unmarked.start _⟩
  | @next h k k' e r hrun hstep ih =>
    obtain ⟨hr, hm⟩ := ih (fun x hx => hfresh x (List.mem_append_left _ hx))
    have hnow : k.Fresh e := hfresh _ (List.mem_append_right _ (List.mem_singleton_self _))
    exact ⟨hr.step hstep, hm.next hr.toEmbryos (lives_of_step hr hstep) hnow⟩

/-- `kill` writes one flag. -/
theorem killed_of_kill {k k' : Kernel (Sched Slot) n} {c : Fin n} {pid : Int32} {p : Slot}
    {o : Option ℤ} (h : k.step (.kill c pid) = .ok (some ⟨p, 0, o⟩, k')) :
    ∃ q, k.target pid = some q ∧
      ∀ x, (k'.proc x).killed = if x = q then true else (k.proc x).killed := by
  generalize hr : some (⟨p, 0, o⟩ : Return) = r at h
  cases moves_of_step h with
  | killNone => cases hr
  | @killSleeping _ _ q _ _ _ hfind _ | @kill _ _ q _ _ _ hfind _ =>
    refine ⟨q, hfind, fun x => ?_⟩
    by_cases hx : x = q
    · subst hx
      simp
    · simp [hx]

/-- The final section of `fork` writes neither pid nor flag. -/
theorem child_of_fork {k k' : Kernel (Sched Slot) n} {c : Fin n} {p : Slot} {v : ℤ} {o : Option ℤ}
    (h : k.step (.fork c) = .ok (some ⟨p, v, o⟩, k')) :
    ∃ np, (k.proc p).forking = .copied np ∧ (k.proc np).pid = v ∧
      (k'.proc np).pid = (k.proc np).pid ∧ (k'.proc np).killed = (k.proc np).killed := by
  generalize hr : some (⟨p, v, o⟩ : Return) = r at h
  cases moves_of_step h with
  | @fork _ _ np hc hf =>
    cases hr
    refine ⟨np, hf, rfl, ?_, ?_⟩
    · rw [setProc_keep _ p np _ Proc.pid rfl]
      simp
    · rw [setProc_keep _ p np _ Proc.killed rfl]
      simp

/-- **Processes start un-killed, and `kill` hits processes only**, in every run
in which no mark is left in a free slot.

The child that `fork` returns is not killed, unless `kill` was called with its
pid after it was allocated. A `kill` that returns `0` has found a process that
is there, and has written its flag and no other. -/
theorem killed_of_run {h : History (Sched Slot) n} {k : Kernel (Sched Slot) n}
    (hrun : Machine.Run step (start n) h k) (hfresh : ∀ x ∈ h, Fresh x.before x.event) :
    (∀ h₁ x h₂ c p v o, h = h₁ ++ x :: h₂ → x.event = .fork c → x.out = some ⟨p, v, o⟩ →
      ∃ np, (x.before.proc p).forking = .copied np ∧ (x.after.proc np).pid = v ∧
        ((x.after.proc np).killed = false ∨ ∃ h₀ a h₃, h₁ = h₀ ++ a :: h₃ ∧ Begets a p np v ∧
          ∃ y ∈ h₃, Kills y.event v)) ∧
    ∀ x ∈ h, ∀ c pid p o, x.event = .kill c pid → x.out = some ⟨p, 0, o⟩ →
      ∃ q, (x.before.proc q).pid = pid.toInt ∧ (x.before.proc q).state ≠ .UNUSED ∧
        ∀ y, (x.after.proc y).killed = if y = q then true else (x.before.proc y).killed := by
  refine ⟨fun h₁ x h₂ c p v o hh he hout => ?_, fun x hx c pid p o he hout => ?_⟩
  · subst hh
    obtain ⟨hrun₁, hstep⟩ := hrun.split
    obtain ⟨-, hm⟩ := unmarked_of_run hrun₁ (fun y hy => hfresh y (List.mem_append_left _ hy))
    rw [he, hout] at hstep
    obtain ⟨np, hf, hpid, hpid', hkilled⟩ := child_of_fork hstep
    refine ⟨np, hf, hpid'.trans hpid, ?_⟩
    cases hmark : (x.after.proc np).killed with
    | false => exact .inl rfl
    | true =>
      obtain ⟨h₀, a, h₃, hh, hbegets, hkill⟩ := hm.child p np (congrArg Forking.child hf)
      obtain ⟨y, hy, hykill⟩ := hkill (hkilled.symm.trans hmark)
      exact .inr ⟨h₀, a, h₃, hh, hpid ▸ hbegets, y, hy, hpid ▸ hykill⟩
  · obtain ⟨h₁, h₂, rfl⟩ := List.append_of_mem hx
    obtain ⟨-, hstep⟩ := hrun.split
    have hnow := hfresh x hx
    rw [he] at hnow
    rw [he, hout] at hstep
    obtain ⟨q, hfind, hkilled⟩ := killed_of_kill hstep
    exact ⟨q, pid_of_find hfind, hnow q hfind, hkilled⟩

/-- `initproc` up to the end of its first `fork`. -/
def firstFork : List (Event 1) :=
  let c : Fin 1 := ⟨0, Nat.one_pos⟩
  [.userinitAlloc, .userinit, .dispatch c, .forkAlloc c, .forkCopy c]

theorem killed_of_run_fork :
    ∃ (h : History (Sched Slot) 1) (x : Machine.Step (Kernel (Sched Slot) 1) (Event 1) (Option Return)),
      Machine.Run step (start 1) (h ++ [x]) x.after ∧ (∀ y ∈ h ++ [x], Fresh y.before y.event) ∧
      x.out = some ⟨⟨0, by decide⟩, 2, none⟩ ∧
      ∃ np, (x.after.proc np).pid = 2 ∧ (x.after.proc np).killed = false := by
  obtain ⟨k, k', hk, hstep, -⟩ := exists_step_of_plain firstFork (.fork 0)
    (some ⟨⟨0, by decide⟩, 2, none⟩) (fun _ _ => True) (by decide +kernel)
  obtain ⟨h, hrun, hevents⟩ := Machine.exists_run_of_exec hk
  have hmem : ∀ y ∈ h, y.event ∈ firstFork := fun y hy => hevents ▸ List.mem_map_of_mem hy
  -- no step is a `kill` or a failed `fork`
  have hfresh : ∀ y ∈ h ++ [⟨k, .fork 0, some ⟨⟨0, by decide⟩, 2, none⟩, k'⟩],
      Fresh y.before y.event := by
    intro y hy
    rcases List.mem_append.mp hy with hy | hy
    · have hevent := hmem y hy
      simp only [firstFork, List.mem_cons, List.not_mem_nil, or_false] at hevent
      rcases hevent with he | he | he | he | he <;> rw [he] <;> trivial
    · rw [List.mem_singleton] at hy
      subst hy
      trivial
  obtain ⟨np, -, hpid, hkilled⟩ :=
    (killed_of_run (hrun.next hstep) hfresh).1 h _ [] 0 _ _ _ rfl rfl rfl
  refine ⟨h, _, hrun.next hstep, hfresh, rfl, np, hpid, hkilled.resolve_right ?_⟩
  rintro ⟨h₀, a, h₃, rfl, -, y, hy, c, pid, he, -⟩
  have hevent := hmem y (List.mem_append_right _ (List.mem_cons_of_mem _ hy))
  rw [he] at hevent
  simp [firstFork] at hevent

/-- **`kill` with pid `0` hits a free slot**: it returns `0` though no process
has that pid, and the child that `fork` then builds there, with pid `2`, is
killed from the start. -/
theorem killed_of_kill_zero :
    (∃ k k', (start 1).exec [.userinitAlloc, .userinit, .dispatch 0] = .ok k ∧
      k.step (.kill 0 0) = .ok (some ⟨⟨0, by decide⟩, 0, none⟩, k') ∧
      ∀ q, (k.proc q).pid = 0 → (k.proc q).state = .UNUSED) ∧
    ∃ k k', (start 1).exec [.userinitAlloc, .userinit, .dispatch 0, .kill 0 0, .forkAlloc 0,
        .forkCopy 0] = .ok k ∧
      k.step (.fork 0) = .ok (some ⟨⟨0, by decide⟩, 2, none⟩, k') ∧
      (k'.proc ⟨1, by decide⟩).pid = 2 ∧ (k'.proc ⟨1, by decide⟩).killed = true := by
  constructor
  · obtain ⟨k, k', hk, hstep, hfree⟩ := exists_step_of_plain
      [.userinitAlloc, .userinit, .dispatch 0] (.kill (n := 1) 0 0)
      (some ⟨⟨0, by decide⟩, 0, none⟩)
      (fun k _ => ∀ q, (k.proc q).pid = 0 → (k.proc q).state = .UNUSED) (by decide +kernel)
    exact ⟨k, k', hk, hstep, hfree⟩
  · obtain ⟨k, k', hk, hstep, hchild⟩ := exists_step_of_plain
      [.userinitAlloc, .userinit, .dispatch 0, .kill 0 0, .forkAlloc 0, .forkCopy 0]
      (.fork (n := 1) 0) (some ⟨⟨0, by decide⟩, 2, none⟩)
      (fun _ k' => (k'.proc ⟨1, by decide⟩).pid = 2 ∧ (k'.proc ⟨1, by decide⟩).killed = true)
      (by decide +kernel)
    exact ⟨k, k', hk, hstep, hchild⟩

end Kernel

end Xv6
