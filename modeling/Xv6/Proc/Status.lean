import Xv6.Proc.Tree

/-!
# Exit statuses

A pid names one process as long as `nextpid` does not wrap, so what `wait`
returns can be followed back: the process with that pid is a zombie of the
caller, it has become one in an `exit` with that status, and its parent since
then is the same, or `initproc` after it was detached or orphaned. The run
carries its history for this (`Machine.Run`), and `Kernel.Records` ties the
table to it.
-/

namespace Xv6

namespace Family

/-- The process in the slot, if there is one now, was there before. -/
def Keeps (f f' : Family) (q : Slot) : Prop :=
  (f'.life q).stage ≠ .unused →
    (f.life q).stage ≠ .unused ∧ (f'.life q).pid = (f.life q).pid

/-- A zombie in the slot was one before, with the same pid, status and parent. -/
def Rests (f f' : Family) (q : Slot) : Prop :=
  (f'.life q).stage = .zombie → (f.life q).stage = .zombie ∧ (f'.life q).pid = (f.life q).pid ∧
    (f'.life q).status = (f.life q).status ∧ (f'.life q).parent = (f.life q).parent

end Family

namespace Kernel

variable {D : Type} {n : ℕ}

/-- The step has given a slot to a new process. -/
def allocates : Event n → Option Return → Bool
  | .userinitAlloc, _ => true
  | .forkAlloc _, none => true
  | _, _ => false

/-- The process in slot `q` exits with the status. -/
def Exits (k : Kernel D n) (e : Event n) (q : Slot) (status : ℤ) : Prop :=
  ∃ c s, e = .exit c s ∧ k.cpuProc c = some q ∧ s.toInt = status

/-- The parent of the process in slot `q` exits or detaches it, and `initproc` becomes its parent. -/
def PassesOn (k : Kernel D n) (e : Event n) (q : Slot) : Prop :=
  ∃ c, k.cpuProc c = (k.proc q).parent ∧
    ((∃ s, e = .exit c s) ∨ ∃ pid, e = .detach c pid ∧ pid.toInt = (k.proc q).pid)

section lives

variable {k k' : Kernel D n} {e : Event n} {r : Option Return}

/-- A step allocates a process, with the next pid, or leaves every process the
pid it has. -/
theorem Lives.pids (hemb : k.Embryos) (hl : Lives k e r k') :
    (allocates e r = false ∧ k'.nextpid = k.nextpid ∧ ∀ q, Family.Keeps k.family k'.family q) ∨
    (allocates e r = true ∧ k'.nextpid = wrap32 (k.nextpid + 1) ∧ r = none ∧
      ∃ np, (k'.proc np).pid = k.nextpid ∧ ∀ q, q ≠ np → Family.Keeps k.family k'.family q) := by
  have hembryo : ∀ {p np}, (k.family.life p).forking.child = some np →
      (k.family.life np).stage = .embryo := fun hp => ProcState.stage_eq_embryo.mpr (hemb.child hp)
  cases hl with
  | quiet a he hfam =>
    refine .inl ⟨?_, congrArg Family.nextpid hfam, by rw [hfam]; grind [Family.Keeps]⟩
    cases e <;> first | rfl | cases he
  | refused he hfam =>
    refine .inl ⟨?_, congrArg Family.nextpid hfam, by rw [hfam]; grind [Family.Keeps]⟩
    rcases he with ⟨c, rfl⟩ | ⟨c, pid, rfl⟩ | ⟨c, pid, rfl⟩ <;> rfl
  | @userinitAlloc p _ hb hp hfam =>
    refine .inr ⟨rfl, congrArg Family.nextpid hfam, rfl, p, ?_, by rw [hfam]; grind [Family.Keeps]⟩
    show (k'.family.life p).pid = k.family.nextpid
    rw [hfam]
    grind
  | @userinit p _ hb hfam =>
    have hstage : (k.family.life p).stage = .embryo := ProcState.stage_eq_embryo.mpr (hemb.boot hb)
    exact .inl ⟨rfl, congrArg Family.nextpid hfam, by rw [hfam]; grind [Family.Keeps]⟩
  | @alloc c p np _ hc hp hf hnp hfam =>
    refine .inr ⟨rfl, congrArg Family.nextpid hfam, rfl, np, ?_, by rw [hfam]; grind [Family.Keeps]⟩
    show (k'.family.life np).pid = k.family.nextpid
    rw [hfam]
    grind
  | abandon hc hp hf hfam | copy hc hp hf hfam | birth hc hp hf hfam =>
    have hchild := hembryo (congrArg Forking.child hf)
    exact .inl ⟨rfl, congrArg Family.nextpid hfam, by rw [hfam]; grind [Family.Keeps]⟩
  | exit a hc hp hf hinit hpar hwoken hfam =>
    exact .inl ⟨rfl, congrArg Family.nextpid hfam, by rw [hfam]; grind [Family.Keeps, Family.bury]⟩
  | reap he hpar hz hfam | waitFail he hz hfam | waitSleep he hz hfam =>
    refine .inl ⟨?_, congrArg Family.nextpid hfam, by rw [hfam]; grind [Family.Keeps]⟩
    rcases he with ⟨c, rfl⟩ | ⟨c, rfl⟩ <;> rfl
  | kill a hc hfind hfam | detach hc hp hf hfind hfam =>
    exact .inl ⟨rfl, congrArg Family.nextpid hfam, by rw [hfam]; grind [Family.Keeps]⟩

/-- **Where a zombie comes from**: it has just exited, or it has been one
before, and then it can only change its parent. -/
def ZombieAfter (k : Kernel D n) (e : Event n) (k' : Kernel D n) (q : Slot) : Prop :=
  (k'.proc q).pid = (k.proc q).pid ∧
    ((Exits k e q (k'.proc q).status ∧ (k'.proc q).parent = (k.proc q).parent) ∨
      ((k.family.life q).stage = .zombie ∧ (k'.proc q).status = (k.proc q).status ∧
        ((k'.proc q).parent = (k.proc q).parent ∨
          (k'.proc q).parent = k.initproc ∧ PassesOn k e q)))

theorem Lives.zombie (hemb : k.Embryos) (htree : k.family.Tree) (hl : Lives k e r k') {q : Slot}
    (hz : (k'.family.life q).stage = .zombie) : ZombieAfter k e k' q := by
  have hrests : ∀ {e : Event n}, Family.Rests k.family k'.family q → ZombieAfter k e k' q := fun h =>
    ⟨(h hz).2.1, .inr ⟨(h hz).1, (h hz).2.2.1, .inl (h hz).2.2.2⟩⟩
  cases hl with
  | quiet a he hfam => exact hrests (by rw [hfam]; grind [Family.Rests])
  | refused he hfam | waitFail he hwhy hfam => exact hrests (by rw [hfam]; grind [Family.Rests])
  | userinitAlloc hb hp hfam | userinit hb hfam =>
    refine hrests ?_
    rw [hfam]
    clear hz hfam
    grind [Family.Rests]
  | alloc hc hp hf hnp hfam => exact hrests (by rw [hfam]; grind [Family.Rests])
  | abandon hc hp hf hfam | birth hc hp hf hfam => exact hrests (by rw [hfam]; grind [Family.Rests])
  | @copy c p np _ hc hp hf hfam =>
    have hchild := hemb.child (p := p) (congrArg Forking.child hf)
    have hstage : (k.family.life np).stage = .embryo := ProcState.stage_eq_embryo.mpr hchild
    exact hrests (by rw [hfam]; grind [Family.Rests])
  | @exit c p status _ a hc hp hf hinit hpar hwoken hfam =>
    have hlife : ∀ x, (k'.proc x).life x = ((k.family.rouse a).bury p status.toInt).life x :=
      fun x => congrFun (congrArg Family.life hfam) x
    have hpid : (k'.proc q).pid = (k.proc q).pid :=
      (congrArg Life.pid (hlife q)).trans (Family.bury_pid _ p q _)
    have hparent : (k'.proc q).parent
        = if (k.proc q).parent = some p then k.initproc else (k.proc q).parent :=
      (congrArg Life.parent (hlife q)).trans (Family.bury_parent _ p q _)
    refine ⟨hpid, ?_⟩
    by_cases hqp : q = p
    · subst hqp
      have hself : (k.proc q).parent ≠ some q := by
        obtain ⟨rank, -, hrank⟩ := htree.rank
        exact fun hqq => lt_irrefl _ (hrank q q hqq)
      have hstatus : (k'.proc q).status = status.toInt :=
        (congrArg Life.status (hlife q)).trans (Family.bury_status_self _ q _)
      exact .inl ⟨⟨c, status, rfl, hc, hstatus.symm⟩, hparent.trans (if_neg hself)⟩
    · have hne := Family.bury_of_ne (k.family.rouse a) p q status.toInt hqp
      have hstatus : (k'.proc q).status = (k.proc q).status :=
        (congrArg Life.status (hlife q)).trans (congrArg Life.status hne)
      have hstage : (k.family.life q).stage = .zombie :=
        ((congrArg Life.stage (hlife q)).trans (congrArg Life.stage hne)).symm.trans hz
      refine .inr ⟨hstage, hstatus, ?_⟩
      by_cases hqpar : (k.proc q).parent = some p
      · exact .inr ⟨hparent.trans (if_pos hqpar), c, hc.trans hqpar.symm, .inl ⟨status, rfl⟩⟩
      · exact .inl (hparent.trans (if_neg hqpar))
  | reap he hpar hzx hfam => exact hrests (by rw [hfam]; grind [Family.Rests])
  | waitSleep he hzs hfam => exact hrests (by rw [hfam]; grind [Family.Rests])
  | kill a hc hfind hfam => exact hrests (by rw [hfam]; grind [Family.Rests])
  | @detach c p x pid _ hc hp hf hfind hfam =>
    obtain ⟨hpidx, hparx⟩ := child_of_find hfind
    by_cases hqx : q = x
    · subst hqx
      have hlife : (k'.proc q).life q = { (k.proc q).life q with parent := k.initproc } :=
        (congrFun (congrArg Family.life hfam) q).trans (Family.set_life_self _ _ _)
      refine ⟨congrArg Life.pid hlife, .inr ⟨?_, congrArg Life.status hlife, .inr
        ⟨congrArg Life.parent hlife, c, hc.trans hparx.symm, .inr ⟨pid, rfl, hpidx.symm⟩⟩⟩⟩
      exact (congrArg Life.stage hlife).symm.trans hz
    · exact hrests (by rw [hfam]; grind [Family.Rests])

/-- What `wait` returns with a status is the pid and the status of a zombie of
the caller, whose slot is then free. -/
theorem Lives.returns {p : Slot} {v s : ℤ} (hl : Lives k e (some ⟨p, v, some s⟩) k') :
    ∃ q, (k.proc q).pid = v ∧ (k.proc q).status = s ∧ (k.proc q).state = .ZOMBIE ∧
      (k.proc q).parent = some p ∧ (k'.proc q).state = .UNUSED := by
  cases hl with
  | @reap e p q _ he hpar hz hfam =>
    refine ⟨q, rfl, rfl, ProcState.stage_eq_zombie.mp hz, hpar, ?_⟩
    refine ProcState.stage_eq_unused.mp ?_
    show (k'.family.life q).stage = _
    rw [hfam, Family.set_life_self]

/-- `wait` returns `-1` without a status to a process that has no child or is
killed. -/
theorem Lives.fails {p : Slot} (hl : Lives k e (some ⟨p, -1, none⟩) k') (he : InWait e) :
    (∀ q, (k.proc q).parent ≠ some p) ∨ (k.proc p).killed = true := by
  generalize hr : some (⟨p, -1, none⟩ : Return) = r at hl
  cases hl with
  | waitFail _ hwhy _ =>
    cases hr
    exact hwhy
  | refused hr' _ =>
    rcases he with ⟨c, rfl⟩ | ⟨c, rfl⟩ <;> rcases hr' with ⟨_, h⟩ | ⟨_, _, h⟩ | ⟨_, _, h⟩ <;> cases h
  | abandon | birth | kill | detach => rcases he with ⟨c, h⟩ | ⟨c, h⟩ <;> cases h
  | reap => cases congrArg (Option.map Return.status) hr
  | _ => cases hr

theorem Lives.initproc (hl : Lives k e r k') : k'.initproc = k.initproc ∨ k.boot = .main := by
  have hinit : k'.initproc = k'.family.initproc := rfl
  cases hl with
  | userinitAlloc hb _ _ => exact .inr hb
  | quiet _ _ hfam | refused _ hfam | userinit _ hfam | alloc _ _ _ _ hfam | abandon _ _ _ hfam
  | copy _ _ _ hfam | birth _ _ _ hfam | exit _ _ _ _ _ _ _ hfam | reap _ _ _ hfam
  | waitFail _ _ hfam | waitSleep _ _ hfam | kill _ _ _ hfam | detach _ _ _ _ hfam =>
    refine .inl ?_
    rw [hinit, hfam]
    rfl

end lives

/-! ## The history -/

/-- The processes allocated in a run. -/
def allocated (h : History D n) : ℕ := h.countP (fun x => allocates x.event x.out)

theorem allocated_concat (h : History D n) (x : Machine.Step (Kernel D n) (Event n) (Option Return)) :
    allocated (h ++ [x]) = allocated h + if allocates x.event x.out then 1 else 0 := by
  unfold allocated
  rw [List.countP_append, List.countP_singleton]

theorem wrap32_of_lt {x : ℤ} (h₀ : 0 ≤ x) (h : x < 2 ^ 31) : wrap32 x = x := by
  unfold wrap32
  exact Int.bmod_eq_of_le_mul_two (by omega) (by omega)

/-- **The table and the history of the run.** -/
structure Records (h : History D n) (k : Kernel D n) : Prop where
  nextpid : k.nextpid = allocated h + 1
  pid : ∀ q, (k.family.life q).stage ≠ .unused → 1 ≤ (k.proc q).pid ∧ (k.proc q).pid < k.nextpid
  pid_inj : ∀ p q, (k.family.life p).stage ≠ .unused → (k.family.life q).stage ≠ .unused →
    (k.proc p).pid = (k.proc q).pid → p = q
  /-- A pid that `wait` has returned is nobody's. -/
  returned : ∀ x ∈ h, ∀ p v s, x.out = some ⟨p, v, some s⟩ →
    v < k.nextpid ∧ ∀ q, (k.family.life q).stage ≠ .unused → (k.proc q).pid ≠ v
  /-- A zombie has exited with its status, and has had its parent since then
  or has been passed to `initproc`. -/
  exited : ∀ q, (k.family.life q).stage = .zombie →
    ∃ x ∈ h, (x.before.proc q).pid = (k.proc q).pid ∧ Exits x.before x.event q (k.proc q).status ∧
      ((x.before.proc q).parent = (k.proc q).parent ∨ (k.proc q).parent = k.initproc ∧
        ∃ w ∈ h, (w.before.proc q).pid = (k.proc q).pid ∧ PassesOn w.before w.event q)

namespace Records

variable {h : History D n} {k k' : Kernel D n} {e : Event n} {r : Option Return}

theorem start (ds : D) : Records [] (boot₀ (n := n) ds) where
  nextpid := rfl
  pid _ hq := absurd rfl hq
  pid_inj _ _ hp := absurd rfl hp
  returned _ hx := absurd hx List.not_mem_nil
  exited _ hq := nomatch hq

/-- What is left of a history without an allocation. -/
theorem keep (hrec : Records h k) (hl : Lives k e r k')
    (hnext : k'.nextpid = k.nextpid) (hkeep : ∀ q, Family.Keeps k.family k'.family q) :
    ∀ x ∈ h ++ [⟨k, e, r, k'⟩], ∀ p v s, x.out = some ⟨p, v, some s⟩ →
      v < k'.nextpid ∧ ∀ q, (k'.family.life q).stage ≠ .unused → (k'.proc q).pid ≠ v := by
  intro x hx p v s hout
  rw [hnext]
  rcases List.mem_append.mp hx with hx | hx
  · obtain ⟨hv, hnone⟩ := hrec.returned x hx p v s hout
    refine ⟨hv, fun q hq => ?_⟩
    obtain ⟨hq, hpid⟩ := hkeep q hq
    have hpid : (k'.proc q).pid = (k.proc q).pid := hpid
    rw [hpid]
    exact hnone q hq
  · -- `wait` has just returned, and freed the slot
    rw [List.mem_singleton] at hx
    subst hx
    have hout : r = some ⟨p, v, some s⟩ := hout
    subst hout
    obtain ⟨z, hzpid, -, hz, -, hfree⟩ := hl.returns
    have hzstage : (k.family.life z).stage ≠ .unused := by
      rw [show (k.family.life z).stage = .zombie from ProcState.stage_eq_zombie.mpr hz]
      exact nofun
    refine ⟨hzpid ▸ (hrec.pid z hzstage).2, fun q hq heq => ?_⟩
    obtain ⟨hq', hpid⟩ := hkeep q hq
    have hqz : q = z := hrec.pid_inj q z hq' hzstage (hpid.symm.trans (heq.trans hzpid.symm))
    subst hqz
    exact hq (ProcState.stage_eq_unused.mpr hfree)

/-- **Every step keeps the record.** -/
theorem next (hrec : Records h k) (hemb : k.Embryos) (htree : k.family.Tree) (hl : Lives k e r k')
    (hfew : allocated (h ++ [⟨k, e, r, k'⟩]) < 2 ^ 31 - 1) :
    Records (h ++ [⟨k, e, r, k'⟩]) k' := by
  have hcount := allocated_concat h ⟨k, e, r, k'⟩
  have hnow := hrec.nextpid
  have hexited : ∀ q, (k'.family.life q).stage = .zombie →
      ∃ x ∈ h ++ [⟨k, e, r, k'⟩], (x.before.proc q).pid = (k'.proc q).pid ∧
        Exits x.before x.event q (k'.proc q).status ∧
        ((x.before.proc q).parent = (k'.proc q).parent ∨ (k'.proc q).parent = k'.initproc ∧
          ∃ w ∈ h ++ [⟨k, e, r, k'⟩], (w.before.proc q).pid = (k'.proc q).pid ∧
            PassesOn w.before w.event q) := by
    intro q hz
    obtain ⟨hpid, ⟨hexit, hparent⟩ | ⟨hz', hstatus, hparent⟩⟩ := hl.zombie hemb htree hz
    · exact ⟨⟨k, e, r, k'⟩, List.mem_append_right _ (List.mem_singleton_self _), hpid.symm, hexit,
        .inl hparent.symm⟩
    · obtain ⟨x, hx, hxpid, hexit, hxparent⟩ := hrec.exited q hz'
      refine ⟨x, List.mem_append_left _ hx, hxpid.trans hpid.symm, hstatus ▸ hexit, ?_⟩
      have hinit : k'.initproc = k.initproc := by
        refine hl.initproc.resolve_right (fun hb => ?_)
        cases (htree.booted (.inr hz')).symm.trans hb
      rcases hparent with hparent | ⟨hparent, hpass⟩
      · rw [hparent, hinit]
        refine hxparent.imp_right (fun ⟨hp, w, hw, hwpid, hpass⟩ => ⟨hp, w, ?_, ?_, hpass⟩)
        · exact List.mem_append_left _ hw
        · exact hwpid.trans hpid.symm
      · refine .inr ⟨hparent.trans hinit.symm, ⟨k, e, r, k'⟩, ?_, hpid.symm, hpass⟩
        exact List.mem_append_right _ (List.mem_singleton_self _)
  rcases hl.pids hemb with ⟨halloc, hnext, hkeep⟩ | ⟨halloc, hnext, rfl, np, hnp, hkeep⟩
  · have hcount : allocated (h ++ [⟨k, e, r, k'⟩]) = allocated h := by
      rw [hcount, show allocates e r = false from halloc]
      rfl
    refine ⟨by rw [hnext, hcount, hnow], fun q hq => ?_, fun p q hp hq heq => ?_,
      hrec.keep hl hnext hkeep, hexited⟩
    · obtain ⟨hq, hpid⟩ := hkeep q hq
      rw [hnext, show (k'.proc q).pid = (k.proc q).pid from hpid]
      exact hrec.pid q hq
    · obtain ⟨hp, hpidp⟩ := hkeep p hp
      obtain ⟨hq, hpidq⟩ := hkeep q hq
      exact hrec.pid_inj p q hp hq (hpidp.symm.trans (heq.trans hpidq))
  · have hcount : allocated (h ++ [⟨k, e, none, k'⟩]) = allocated h + 1 := by
      rw [hcount, show allocates e none = true from halloc]
      rfl
    -- `nextpid` does not wrap
    have hnext : k'.nextpid = k.nextpid + 1 := by
      rw [hnext]
      exact wrap32_of_lt (by omega) (by omega)
    have hpids : ∀ q, (k'.family.life q).stage ≠ .unused → q ≠ np →
        (k'.proc q).pid = (k.proc q).pid ∧ (k.family.life q).stage ≠ .unused ∧
          (k.proc q).pid < k.nextpid := by
      intro q hq hqn
      obtain ⟨hq, hpid⟩ := hkeep q hqn hq
      exact ⟨hpid, hq, (hrec.pid q hq).2⟩
    refine ⟨by rw [hnext, hcount, hnow]; push_cast; rfl, fun q hq => ?_, fun p q hp hq heq => ?_,
      fun x hx p v s hout => ?_, hexited⟩
    · have hpos := hrec.pid q
      grind
    · have hinj := hrec.pid_inj p q
      grind
    · rcases List.mem_append.mp hx with hx | hx
      · have hold := hrec.returned x hx p v s hout
        grind
      · cases List.mem_singleton.mp hx
        cases hout

end Records

theorem records_of_run {h : History (Sched Slot) n} {k : Kernel (Sched Slot) n}
    (hrun : Machine.Run step (start n) h k) (hfew : allocated h < 2 ^ 31 - 1) :
    k.Running ∧ k.family.Tree ∧ Records h k := by
  induction hrun with
  | start => exact ⟨Running.boot₀ Sched.queues_init, tree_boot₀ _, Records.start _⟩
  | @next h k k' e r hrun hstep ih =>
    have hcount := allocated_concat h ⟨k, e, r, k'⟩
    obtain ⟨hr, ht, hrec⟩ := ih (by omega)
    have hl := lives_of_step hr hstep
    exact ⟨hr.step hstep, tree_of_lives hr.toEmbryos ht hl, hrec.next hr.toEmbryos ht hl hfew⟩

theorem allocated_append (h h' : History D n) :
    allocated (h ++ h') = allocated h + allocated h' := List.countP_append

theorem allocated_le_length (h : History D n) : allocated h ≤ h.length := List.countP_le_length

/-- **Exit statuses are delivered once, to the right parent**, in every run
that allocates fewer than `2^31 - 1` processes.

Processes that are there at the same time have different pids. If `wait`,
called by `p`, returns `v` with status `s`, then a process with pid `v` was a
zombie and a child of `p` until then, its slot is free after that, and it had
exited with status `s`; at that time `p` was its parent, unless `p` is
`initproc` and the process has been detached or orphaned since; and `wait` does
not return `v` again. It returns `-1` only to a process that has no child or is
killed. -/
theorem statuses_of_run {h : History (Sched Slot) n} {k : Kernel (Sched Slot) n}
    (hrun : Machine.Run step (start n) h k) (hfew : allocated h < 2 ^ 31 - 1) :
    (∀ p q, (k.proc p).state ≠ .UNUSED → (k.proc q).state ≠ .UNUSED →
      (k.proc p).pid = (k.proc q).pid → p = q) ∧
    (∀ h₁ x h₂ p v s, h = h₁ ++ x :: h₂ → x.out = some ⟨p, v, some s⟩ →
      (∃ q, (x.before.proc q).pid = v ∧ (x.before.proc q).state = .ZOMBIE ∧
        (x.before.proc q).parent = some p ∧ (x.after.proc q).state = .UNUSED ∧
        ∃ y ∈ h₁, (y.before.proc q).pid = v ∧ Exits y.before y.event q s ∧
          ((y.before.proc q).parent = some p ∨ x.before.initproc = some p ∧
            ∃ w ∈ h₁, (w.before.proc q).pid = v ∧ PassesOn w.before w.event q)) ∧
      ∀ y ∈ h₂, ∀ p' s', y.out ≠ some ⟨p', v, some s'⟩) ∧
    ∀ x ∈ h, ∀ p o, InWait x.event → x.out = some ⟨p, -1, o⟩ →
      (∀ q, (x.before.proc q).parent ≠ some p) ∨ (x.before.proc p).killed = true := by
  -- the state before a step of the run, and what the step does
  have hat : ∀ h₁ x h₂, h = h₁ ++ x :: h₂ → Records h₁ x.before ∧
      Lives x.before x.event x.out x.after := by
    rintro h₁ x h₂ rfl
    rw [allocated_append] at hfew
    obtain ⟨hrun₁, hstep⟩ := hrun.split
    obtain ⟨hr, -, hrec⟩ := records_of_run hrun₁ (by omega)
    exact ⟨hrec, lives_of_step hr hstep⟩
  have hused : ∀ {k : Kernel (Sched Slot) n} {q}, (k.proc q).state ≠ .UNUSED →
      (k.family.life q).stage ≠ .unused := fun hq hs => hq (ProcState.stage_eq_unused.mp hs)
  refine ⟨fun p q hp hq => ?_, fun h₁ x h₂ p v s hh hout => ⟨?_, ?_⟩, fun x hx p o he hout => ?_⟩
  · exact (records_of_run hrun hfew).2.2.pid_inj p q (hused hp) (hused hq)
  · obtain ⟨hrec, hl⟩ := hat h₁ x h₂ hh
    rw [hout] at hl
    obtain ⟨q, hpid, hstatus, hz, hpar, hfree⟩ := hl.returns
    refine ⟨q, hpid, hz, hpar, hfree, ?_⟩
    obtain ⟨y, hy, hypid, hexit, hparent⟩ := hrec.exited q (ProcState.stage_eq_zombie.mpr hz)
    refine ⟨y, hy, hypid.trans hpid, hstatus ▸ hexit, ?_⟩
    rw [hpar] at hparent
    refine hparent.imp_right (fun ⟨hinit, w, hw, hwpid, hpass⟩ => ?_)
    exact ⟨hinit.symm, w, hw, hwpid.trans hpid, hpass⟩
  · -- the pid was nobody's before the later step
    intro y hy p' s' hy'
    obtain ⟨h₃, h₄, rfl⟩ := List.append_of_mem hy
    have hh' : h = (h₁ ++ x :: h₃) ++ y :: h₄ := by
      rw [hh, List.append_assoc]
      rfl
    obtain ⟨hrec, hl⟩ := hat _ y h₄ hh'
    rw [hy'] at hl
    obtain ⟨q, hpid, -, hz, -, -⟩ := hl.returns
    have hmem : x ∈ h₁ ++ x :: h₃ := List.mem_append_right _ List.mem_cons_self
    refine (hrec.returned x hmem p v s hout).2 q (hused ?_) hpid
    rw [hz]
    exact ProcState.noConfusion
  · obtain ⟨h₁, h₂, hh⟩ := List.append_of_mem hx
    obtain ⟨hrec, hl⟩ := hat h₁ x h₂ hh
    rw [hout] at hl
    cases o with
    | none => exact hl.fails he
    | some s =>
      -- no process has pid `-1`
      obtain ⟨q, hpid, -, hz, -, -⟩ := hl.returns
      have hpos := (hrec.pid q (hused (by rw [hz]; exact ProcState.noConfusion))).1
      omega

/-- `initproc` waits for its child, which exits with status `7`; `wait` goes on
in the last step. -/
def waitRun : List (Event 1) :=
  let c : Fin 1 := ⟨0, Nat.one_pos⟩
  [.userinitAlloc, .userinit, .dispatch c, .forkAlloc c, .forkCopy c, .fork c, .wait c, .dispatch c,
    .exit c 7]

theorem statuses_of_run_wait :
    ∃ (h : History (Sched Slot) 1) (x : Machine.Step (Kernel (Sched Slot) 1) (Event 1) (Option Return))
      (k : Kernel (Sched Slot) 1),
      Machine.Run step (start 1) (h ++ [x]) k ∧ allocated (h ++ [x]) < 2 ^ 31 - 1 ∧
      x.out = some ⟨⟨0, by decide⟩, 2, some 7⟩ ∧
      ∃ q, ∃ y ∈ h, (y.before.proc q).pid = 2 ∧ Exits y.before y.event q 7 := by
  obtain ⟨k, k', hk, hstep, -⟩ := exists_step_of_plain waitRun (.dispatch 0)
    (some ⟨⟨0, by decide⟩, 2, some 7⟩) (fun _ _ => True) (by decide +kernel)
  obtain ⟨h, hrun, hevents⟩ := Machine.exists_run_of_exec hk
  have hlen : h.length = 9 := by rw [← List.length_map Machine.Step.event, hevents]; rfl
  have hfew := allocated_le_length (h ++ [⟨k, .dispatch 0, some ⟨⟨0, by decide⟩, 2, some 7⟩, k'⟩])
  rw [List.length_append, hlen] at hfew
  have hfew := hfew.trans_lt (show 9 + 1 < 2 ^ 31 - 1 by decide)
  have hrun' := hrun.next hstep
  obtain ⟨⟨q, -, -, -, -, y, hy, hpid, hexit, -⟩, -⟩ :=
    (statuses_of_run hrun' hfew).2.1 h _ [] _ _ _ rfl rfl
  exact ⟨h, _, k', hrun', hfew, rfl, q, y, hy, hpid, hexit⟩

end Kernel

end Xv6
