import Xv6.Sys.Descriptors

/-!
# Processes and their memory

The calls that take memory or give it back: `fork`, `exit`, `wait`, `sbrk` and
`exec`. Between calls every page is free, or part of one process or one pipe;
`AtRest` says so, with what the calls need to keep it up. A call that fails has
given back what it took.
-/

namespace Xv6

open Function

open Wp

/-- The directory of a process. One that is being made has none yet. -/
def Process.dir (x : Process) : Option Frame :=
  if x.state = .UNUSED ∨ x.state = .EMBRYO then none else x.pgdir

/-- The kernel stack of a process. -/
def Process.stack (x : Process) : Option Frame := if x.state = .UNUSED then none else x.kstack

namespace Sys

variable {s s' s'' : Sys} {P : Set Frame} {p q : Slot}

/-- Who holds a page directory: the processes, and the call that makes one. -/
def dirs (s : Sys) (new : Option Frame) : Option Slot → Option Frame
  | none => new
  | some p => (s.proc p).dir

/-- Who holds a kernel stack. -/
def kstacks (s : Sys) : Slot → Option Frame := fun p => (s.proc p).stack

/-- **What holds between calls**: every page of `P` is free or in one place, the reference counts of
files are exact, sizes stay below the kernel's part, and a slot without a live process has no
open files. -/
structure AtRest (P : Set Frame) (s : Sys) : Prop where
  kept : s.Kept P (s.dirs none) s.kstacks ∅ 0
  size : ∀ p, (s.proc p).sz ≤ KERNBASE
  idle : ∀ p, (s.proc p).state = .UNUSED ∨ (s.proc p).state = .ZOMBIE →
    ∀ fd, (s.proc p).ofile fd = none

theorem dirs_new (s : Sys) (new new' : Option Frame) :
    update (s.dirs new) none new' = s.dirs new' := by
  symm
  refine Function.eq_update_iff.mpr ⟨rfl, fun h hne => ?_⟩
  cases h with
  | none => exact absurd rfl hne
  | some p => rfl

variable {x : Process}

section

variable (hproc : s'.proc = update s.proc p x)

include hproc

theorem dirs_of_update (new : Option Frame) :
    s'.dirs new = update (s.dirs new) (some p) x.dir := by
  refine Function.eq_update_iff.mpr ⟨?_, fun h hne => ?_⟩
  · show (s'.proc p).dir = _
    rw [hproc, update_self]
  · cases h with
    | none => rfl
    | some q =>
      show (s'.proc q).dir = (s.proc q).dir
      rw [hproc, update_of_ne (fun hq : q = p => hne (congrArg some hq))]

theorem kstacks_of_update :
    s'.kstacks = update s.kstacks p x.stack := by
  unfold kstacks
  rw [hproc]
  exact funext (apply_update (fun _ => Process.stack) s.proc p x)

theorem fds_of_update (hofile : x.ofile = (s.proc p).ofile) :
    s'.fds = s.fds := by
  funext ⟨q, fd⟩
  show (s'.proc q).ofile fd = (s.proc q).ofile fd
  rw [hproc]
  grind [update_apply]

end

theorem others_update (s : Sys) (ks : Slot → Option Frame) (p : Slot) (v : Option Frame) :
    s.others (update ks p v) = update (s.others ks) (.inl p) v := by
  have hself : update ks p v p = v := update_self p v ks
  refine Function.eq_update_iff.mpr ⟨hself, fun place hne => ?_⟩
  cases place with
  | inl q => exact update_of_ne (fun hq : q = p => hne (congrArg Sum.inl hq)) v ks
  | inr x => rfl

theorem others_of_file (hfile : s'.file = s.file) (ks : Slot → Option Frame) :
    s'.others ks = s.others ks := by
  refine others_congr ?_ ks
  unfold ends
  rw [hfile]

/-- **One process changes**, and the rest of the state with it. -/
theorem AtRest.of_update (hfiles : s.Files 0) (hsize : ∀ q, q ≠ p → (s.proc q).sz ≤ KERNBASE)
    (hidle : ∀ q, q ≠ p → (s.proc q).state = .UNUSED ∨ (s.proc q).state = .ZOMBIE →
      ∀ fd, (s.proc q).ofile fd = none) (hproc : s'.proc = update s.proc p x)
    (hofile : x.ofile = (s.proc p).ofile) (hfile : s'.file = s.file) (hpipe : s'.pipe = s.pipe)
    (hsz : x.sz ≤ KERNBASE) (hfds : x.state = .UNUSED ∨ x.state = .ZOMBIE → ∀ fd, x.ofile fd = none)
    (hpages : s'.ram.Pages P (update (s.dirs none) (some p) x.dir)
      (s.others (update s.kstacks p x.stack)) ∅) : s'.AtRest P where
  kept := by
    refine ⟨hfiles.congr (fds_of_update hproc hofile) hfile hpipe, ?_⟩
    rw [dirs_of_update hproc, kstacks_of_update hproc, others_of_file hfile]
    exact hpages
  size q := by
    rw [hproc]
    grind [update_apply]
  idle q := by
    rw [hproc]
    grind [update_apply]

namespace AtRest

variable {m : Ram}

section

variable (h : s.AtRest P)

include h

theorem ram (hp : m.Pages P (s.dirs none) (s.others s.kstacks) ∅) :
    AtRest P { s with ram := m } :=
  ⟨⟨h.kept.files.ram m, hp⟩, h.size, h.idle⟩

theorem fs (fs : Fs) : AtRest P { s with fs := fs } :=
  ⟨h.kept.congr rfl rfl rfl rfl, h.size, h.idle⟩

/-- Which calls of `kalloc` fail does not matter. -/
theorem refuse (l : List Bool) :
    AtRest P { s with ram := { s.ram with refuse := l } } := by
  have hsame : Ram.SameTables (s.dirs none) s.ram { s.ram with refuse := l } :=
    Ram.sameTables_of_page rfl
  exact h.ram (hsame.pages h.kept.pages rfl)

/-- The descriptors of a process that runs have changed. -/
theorem onlyFds (hp : (s.proc p).state = .RUNNABLE) (honly : OnlyFds p s s')
    (hkept : s'.Kept P (s.dirs none) s.kstacks ∅ 0) : s'.AtRest P where
  kept := by
    have hdir : ∀ q, (s'.proc q).dir = (s.proc q).dir := honly.proc_eq Process.dir (fun _ _ => rfl)
    have hstack : ∀ q, (s'.proc q).stack = (s.proc q).stack := honly.proc_eq Process.stack (fun _ _ => rfl)
    have hdirs : s'.dirs none = s.dirs none := by
      funext h
      cases h with
      | none => rfl
      | some q => exact hdir q
    have hkstacks : s'.kstacks = s.kstacks := funext hstack
    rw [hdirs, hkstacks]
    exact hkept
  size := by
    intro q
    rw [honly.proc_eq Process.sz (fun _ _ => rfl)]
    exact h.size q
  idle := by
    intro q hq
    have hne : q ≠ p := by
      rintro rfl
      rw [honly.proc_eq Process.state (fun _ _ => rfl), hp] at hq
      exact hq.elim nofun nofun
    rw [honly.proc_of_ne hne] at hq ⊢
    exact h.idle q hq

/-- What the processes own is as it was. -/
theorem same (hproc : ∀ q, (s'.proc q).state = (s.proc q).state ∧ (s'.proc q).sz = (s.proc q).sz ∧
      (s'.proc q).pgdir = (s.proc q).pgdir ∧ (s'.proc q).kstack = (s.proc q).kstack ∧
      (s'.proc q).ofile = (s.proc q).ofile) (hfile : s'.file = s.file) (hpipe : s'.pipe = s.pipe)
    (hram : s'.ram = s.ram) : s'.AtRest P where
  kept := by
    have hfds : s'.fds = s.fds := by
      funext ⟨q, fd⟩
      exact congrFun (hproc q).2.2.2.2 fd
    have hdirs : s'.dirs none = s.dirs none := by
      funext h
      cases h <;> grind [dirs, Process.dir]
    have hkstacks : s'.kstacks = s.kstacks := by
      funext q
      grind [kstacks, Process.stack]
    rw [hdirs, hkstacks]
    exact h.kept.congr hfds hfile hpipe hram
  size := fun q => (hproc q).2.1 ▸ h.size q
  idle := by
    intro q
    rw [(hproc q).1, (hproc q).2.2.2.2]
    exact h.idle q

end

/-- The directory of a process that runs. -/
theorem dir_of_runnable (hp : (s.proc p).state = .RUNNABLE) {d : Frame}
    (hd : (s.proc p).pgdir = some d) (new : Option Frame) : s.dirs new (some p) = some d := by
  show (s.proc p).dir = some d
  unfold Process.dir
  rw [hp, hd]
  rfl

/-! ## `sbrk` -/

/-- The size of a process changes. -/
theorem setSize (h : s.AtRest P) (hp : m.Pages P (s.dirs none) (s.others s.kstacks) ∅) {sz : ℕ}
    (hsz : sz ≤ KERNBASE) :
    (setProc p (fun x => { x with sz := sz }) { s with ram := m }).AtRest P := by
  refine of_update (x := { s.proc p with sz := sz }) h.kept.files (fun q _ => h.size q)
    (fun q _ => h.idle q) rfl rfl rfl rfl hsz (h.idle p) ?_
  have hdir : Process.dir { s.proc p with sz := sz } = s.dirs none (some p) := rfl
  have hstack : Process.stack { s.proc p with sz := sz } = s.kstacks p := rfl
  rw [hdir, hstack, update_eq_self, update_eq_self]
  exact hp

/-- **`growproc`.** -/
theorem wp_growproc (L : MemLayout) (h : s.AtRest P) (hp : (s.proc p).state = .RUNNABLE) (n : ℤ) :
    wp (growproc L p n) (fun _ s' => s'.AtRest P ∧ s'.file = s.file) NoFilePanic s := by
  unfold growproc
  rw [wp_bind, wp_get]
  dsimp only
  rw [wp_bind]
  refine wp_deref noFilePanic_null (fun d hd => ?_)
  have hdir := dir_of_runnable hp hd none
  have hold := h.size p
  split
  · rw [wp_bind, wp_vm]
    refine (h.kept.pages.wp_allocuvm L hdir (fun _ _ _ => noFilePanic_vm _) _ _
      (fun _ _ _ _ => noFilePanic_vm _)).imp (fun r m hpost => ?_)
    obtain ⟨hpages, ⟨hnew, hmax, -⟩ | ⟨hzero, -⟩⟩ := hpost
    · split
      · exact ⟨h.ram hpages, rfl⟩
      · refine ⟨h.setSize hpages ?_, rfl⟩
        rw [hmax]
        exact max_le hold hnew.le
    · rw [if_pos hzero]
      exact ⟨h.ram hpages, rfl⟩
  · split
    · rw [wp_bind, wp_vm]
      refine (h.kept.pages.wp_deallocuvm L hdir (fun _ _ _ => noFilePanic_vm _) hold _).imp (fun r m hpost => ?_)
      obtain ⟨hmin, hpages, -⟩ := hpost
      split
      · exact ⟨h.ram hpages, rfl⟩
      · refine ⟨h.setSize hpages ?_, rfl⟩
        rw [hmin]
        exact (min_le_left _ _).trans hold
    · exact ⟨h, rfl⟩

/-! ## `fork` -/

/-- **`allocproc`** makes a process with a kernel stack, or none. -/
theorem wp_allocproc {R : SysHalt → Prop} (h : s.AtRest P) :
    wp allocproc (fun r s' => s'.AtRest P ∧ s'.initproc = s.initproc ∧ s'.file = s.file ∧
      ∀ np, r = some np → (s.proc np).state = .UNUSED ∧ (s'.proc np).state = .EMBRYO ∧
        (∀ fd, (s'.proc np).ofile fd = none) ∧ ∀ q, q ≠ np → s'.proc q = s.proc q) R s := by
  unfold allocproc
  rw [wp_bind, wp_get]
  split
  · exact ⟨h, rfl, rfl, by rintro _ ⟨⟩⟩
  next np hfind =>
  have hstate : (s.proc np).state = .UNUSED := by simpa using List.find?_some hfind
  have hofile := h.idle np (.inl hstate)
  have hdir : s.dirs none (some np) = none := by
    show (s.proc np).dir = none
    unfold Process.dir
    rw [hstate]
    rfl
  have hstack : s.kstacks np = none := by
    show (s.proc np).stack = none
    unfold Process.stack
    rw [hstate]
    rfl
  simp only [wp_bind, wp_modify, wp_vm]
  show wp Ram.kalloc _ _ s.ram
  refine h.kept.pages.wp_kalloc (fun m _ hpages => ?_) (fun k m _ hpages hk => ?_)
  · simp only [wp_modify, wp_bind, if_true]
    refine ⟨?_, rfl, rfl, by rintro _ ⟨⟩⟩
    refine of_update (p := np) (x := { s.proc np with state := .UNUSED, pid := s.nextpid, kstack := none })
      h.kept.files (fun q _ => h.size q) (fun q _ => h.idle q) ?_ rfl rfl rfl (h.size np)
      (fun _ => hofile) ?_
    · simp only [setProc, update_self, update_idem]
    · have hdir' : Process.dir { s.proc np with state := .UNUSED, pid := s.nextpid, kstack := none }
          = s.dirs none (some np) := hdir.symm
      have hstack' : Process.stack { s.proc np with state := .UNUSED, pid := s.nextpid, kstack := none }
          = s.kstacks np := hstack.symm
      rw [hdir', hstack', update_eq_self, update_eq_self]
      exact hpages
  · simp only [reduceCtorEq, if_false, wp_pure]
    have hproc : ∀ t : Sys, t.proc = update s.proc np
        { s.proc np with state := .EMBRYO, pid := s.nextpid, kstack := some k } →
        (t.proc np).state = .EMBRYO ∧ (∀ fd, (t.proc np).ofile fd = none) ∧
          ∀ q, q ≠ np → t.proc q = s.proc q := by
      intro t ht
      rw [ht, update_self]
      exact ⟨rfl, hofile, fun q hq => update_of_ne hq _ _⟩
    refine ⟨?_, rfl, rfl, fun np' heq => ?_⟩
    · refine of_update (p := np)
        (x := { s.proc np with state := .EMBRYO, pid := s.nextpid, kstack := some k })
        h.kept.files (fun q _ => h.size q) (fun q _ => h.idle q) ?_ rfl rfl rfl (h.size np)
        (fun _ => hofile) ?_
      · simp only [setProc, update_self, update_idem]
      · have hdir' : Process.dir { s.proc np with state := .EMBRYO, pid := s.nextpid, kstack := some k }
            = s.dirs none (some np) := hdir.symm
        have hstack' : Process.stack
            { s.proc np with state := .EMBRYO, pid := s.nextpid, kstack := some k } = some k := rfl
        have hkeep := hpages.keep (x := .inl np) hstack (Set.mem_insert k ∅)
        rw [Set.insert_sdiff_self_of_notMem hk] at hkeep
        rw [hdir', hstack', update_eq_self, others_update]
        exact hkeep
    · cases heq
      refine ⟨hstate, hproc _ ?_⟩
      simp only [setProc, update_self, update_idem]

/-- The kernel stack of a process is freed. -/
theorem wp_kfreePtr (L : MemLayout) {D : Option Slot → Option Frame} {R : VmHalt → Prop}
    (hp : m.Pages P D (s.others s.kstacks) ∅) (hstate : (s.proc q).state ≠ .UNUSED) (hR : R .kfree) :
    
    wp (Ram.kfreePtr L (s.proc q).kstack) (fun _ m' =>
      m'.Pages P D (s.others (update s.kstacks q none)) ∅) R m := by
  cases hk : (s.proc q).kstack with
  | none => exact hR
  | some k =>
    have hstack : s.others s.kstacks (.inl q) = some k := by
      show (s.proc q).stack = some k
      unfold Process.stack
      rw [if_neg hstate, hk]
    refine Ram.wp_kfree L (fun _ => hR) ?_
    have hrel := (hp.giveUp hstack).release (Set.mem_insert k ∅) (fun _ _ => 1)
    rw [Set.insert_sdiff_self_of_notMem (Set.notMem_empty k)] at hrel
    rw [others_update]
    exact hrel

/-- **`fork`.** -/
theorem wp_fork (L : MemLayout) (h : s.AtRest P) (hp : (s.proc p).state = .RUNNABLE) :
    wp (fork L p) (fun _ s' => s'.AtRest P ∧ Freed s s') NoFilePanic s := by
  unfold fork
  rw [wp_bind]
  refine h.wp_allocproc.imp (fun r s₁ halloc => ?_)
  obtain ⟨h₁, -, hfile₁, hnp⟩ := halloc
  have hends₁ : s₁.ends = s.ends := by
    unfold ends
    rw [hfile₁]
  cases r with
  | none => exact ⟨h₁, .of_ends hends₁⟩
  | some np =>
  obtain ⟨hunused, hembryo, hofile, hrest⟩ := hnp np rfl
  have hne : p ≠ np := by
    rintro rfl
    rw [hp] at hunused
    cases hunused
  have hp₁ : (s₁.proc p).state = .RUNNABLE := by
    rw [hrest p hne]
    exact hp
  have hdirnp : s₁.dirs none (some np) = none := by
    show (s₁.proc np).dir = none
    unfold Process.dir
    rw [hembryo]
    rfl
  dsimp only
  rw [wp_bind, wp_get, wp_bind]
  refine wp_deref noFilePanic_null (fun d hd => ?_)
  rw [wp_bind, wp_vm]
  refine (h₁.kept.pages.wp_copyuvm L (fun _ _ _ => noFilePanic_vm _) (fun _ => noFilePanic_vm _) (h := none) rfl
    (dir_of_runnable hp₁ hd none) (h₁.size p) (fun _ _ _ => ⟨noFilePanic_vm _, noFilePanic_vm _⟩)).imp
    (fun r m hcopy => ?_)
  obtain ⟨-, ⟨rfl, hpages⟩ | ⟨d', -, rfl, -, hpages, -⟩⟩ := hcopy
  · -- the kernel stack goes back
    dsimp only
    rw [wp_bind, wp_vm]
    refine (wp_kfreePtr L hpages (by rw [hembryo]; decide) (noFilePanic_vm _)).imp (fun _ m' hpages' => ?_)
    rw [wp_bind, wp_modify]
    refine ⟨?_, .of_ends hends₁⟩
    refine of_update (p := np) (x := { s₁.proc np with pgdir := none, kstack := none, state := .UNUSED })
      h₁.kept.files (fun q _ => h₁.size q) (fun q _ => h₁.idle q) rfl rfl rfl rfl (h₁.size np)
      (fun _ => hofile) ?_
    have hdir' : Process.dir { s₁.proc np with pgdir := none, kstack := none, state := .UNUSED }
        = s₁.dirs none (some np) := hdirnp.symm
    rw [hdir', update_eq_self]
    exact hpages'
  · dsimp only
    rw [dirs_new] at hpages
    rw [wp_bind, wp_modify, wp_bind]
    generalize hs₂ : setProc np (fun x => { x with
        pgdir := some d'
        sz := (s₁.proc p).sz
        parent := some p
        eip := (s₁.proc p).eip
        esp := (s₁.proc p).esp }) { s₁ with ram := m } = s₂
    have hproc₂ : s₂.proc = update s₁.proc np { s₁.proc np with
        pgdir := some d'
        sz := (s₁.proc p).sz
        parent := some p
        eip := (s₁.proc p).eip
        esp := (s₁.proc p).esp } := by rw [← hs₂]; rfl
    have hself₂ : s₂.proc np = { s₁.proc np with
        pgdir := some d'
        sz := (s₁.proc p).sz
        parent := some p
        eip := (s₁.proc p).eip
        esp := (s₁.proc p).esp } := by rw [hproc₂, update_self]
    -- the new directory is not the process's own before it can run
    have hkept₂ : s₂.Kept P (s₁.dirs (some d')) s₁.kstacks ∅ 0 := by
      have hfile : s₂.file = s₁.file := by rw [← hs₂]; rfl
      have hpipe : s₂.pipe = s₁.pipe := by rw [← hs₂]; rfl
      have hram : s₂.ram = m := by rw [← hs₂]; rfl
      refine ⟨h₁.kept.files.congr (fds_of_update hproc₂ rfl) hfile hpipe, ?_⟩
      rw [others_of_file hfile, hram]
      exact hpages
    have hofile₂ : ∀ fd, (s₂.proc np).ofile fd = none := by
      rw [hself₂]
      exact hofile
    refine (hkept₂.wp_forkFiles hofile₂).imp (fun _ s₃ hfork => ?_)
    obtain ⟨hkept₃, ⟨-, o, ho⟩, hends₃⟩ := hfork
    have hends₂ : s₂.ends = s₁.ends := by
      rw [← hs₂]
      rfl
    rw [wp_bind]
    refine wp_getCwd noFilePanic_null (fun cwd => ?_)
    rw [wp_bind]
    refine wp_fsys_of_forall noFilePanic_fs (fun _ fs => ?_)
    simp only [wp_bind, wp_modify, wp_pure]
    -- of the processes, only the child has changed
    have hproc₃ : ∀ q, q ≠ np → s₃.proc q = s₁.proc q := by
      intro q hq
      rw [ho, update_of_ne hq, hproc₂, update_of_ne hq]
    have hself₃ : s₃.proc np = { s₂.proc np with ofile := o } := by rw [ho, update_self]
    refine ⟨?_, .of_ends ((hends₃.trans hends₂).trans hends₁)⟩
    refine of_update (s := s₃) (p := np) (x := { s₃.proc np with
        cwd := some cwd, name := (s₁.proc p).name, state := .RUNNABLE }) hkept₃.files
      (fun q hq => by rw [hproc₃ q hq]; exact h₁.size q)
      (fun q hq => by rw [hproc₃ q hq]; exact h₁.idle q) ?_ rfl rfl rfl ?_ (by simp) ?_
    · simp only [setProc, update_self, update_idem]
    · show (s₃.proc np).sz ≤ KERNBASE
      rw [hself₃, hself₂]
      exact h₁.size p
    · have hdir : Process.dir { s₃.proc np with
          cwd := some cwd, name := (s₁.proc p).name, state := .RUNNABLE } = some d' := by
        show (s₃.proc np).pgdir = some d'
        rw [hself₃, hself₂]
      have hstack : Process.stack { s₃.proc np with
          cwd := some cwd, name := (s₁.proc p).name, state := .RUNNABLE } = s₁.kstacks np := by
        show (s₃.proc np).kstack = (s₁.proc np).stack
        unfold Process.stack
        rw [hself₃, hself₂, hembryo]
        rfl
      have hdirs : update (s₃.dirs none) (some np) (some d')
          = update (update (s₁.dirs (some d')) none none) (some np) (some d') := by
        rw [dirs_new]
        refine Function.eq_update_iff.mpr ⟨update_self _ _ _, fun h hne => ?_⟩
        rw [update_of_ne hne]
        cases h with
        | none => rfl
        | some q =>
          show (s₃.proc q).dir = (s₁.proc q).dir
          rw [hproc₃ q (fun hq => hne (congrArg some hq))]
      have hkstacks : update s₃.kstacks np (s₁.kstacks np) = s₁.kstacks := by
        funext q
        by_cases hq : q = np
        · rw [hq, update_self]
        · rw [update_of_ne hq]
          show (s₃.proc q).stack = (s₁.proc q).stack
          rw [hproc₃ q hq]
      rw [hdir, hstack, hdirs, hkstacks]
      have hnp : s₁.dirs (some d') (some np) = none := hdirnp
      exact hkept₃.pages.moveDir (h := none) hnp

/-! ## `exit` and `wait` -/

/-- **`exit`.** -/
theorem wp_exit (L : MemLayout) (h : s.AtRest P) (hp : (s.proc p).state = .RUNNABLE) :
    wp (exit L p) (fun _ s' => s'.AtRest P ∧ Freed s s') NoFilePanic s := by
  unfold exit
  rw [wp_bind, wp_get]
  split
  · exact ⟨nofun, nofun⟩
  refine (h.kept.wp_exitFiles L noFilePanic_vm noFilePanic_fs noFilePanic_null).bind (fun _ s₁ hexit => ?_)
  obtain ⟨hkept, honly, hfreed, hclosed⟩ := hexit
  have h₁ := h.onlyFds hp honly hkept
  have hp₁ : (s₁.proc p).state = .RUNNABLE :=
    (honly.proc_eq Process.state (fun _ _ => rfl) p).trans hp
  rw [wp_bind]
  refine wp_getCwd noFilePanic_null (fun cwd => ?_)
  rw [wp_bind]
  refine wp_fsys_of_forall noFilePanic_fs (fun _ fs => ?_)
  rw [wp_bind, wp_modify]
  have h₂ : (setProc p (fun x => { x with cwd := none }) { s₁ with fs := fs }).AtRest P := by
    refine h₁.same (fun q => ?_) rfl rfl rfl
    by_cases hq : q = p
    · subst hq
      simp only [setProc, update_self, and_self]
    · simp only [setProc, update_of_ne hq, and_self]
  have hself₂ : (setProc p (fun x => { x with cwd := none }) { s₁ with fs := fs }).proc p
      = { s₁.proc p with cwd := none } := update_self p _ s₁.proc
  have hfreed₂ : Freed s (setProc p (fun x => { x with cwd := none }) { s₁ with fs := fs }) := hfreed
  generalize setProc p (fun x => { x with cwd := none }) { s₁ with fs := fs } = s₂
    at h₂ hself₂ hfreed₂ ⊢
  -- the children change nothing but their parent
  rw [wp_bind, wp_modify]
  have h₃ : AtRest P { s₂ with proc := fun q =>
      if (s₂.proc q).parent = some p then { s₂.proc q with parent := s₂.initproc } else s₂.proc q } := by
    refine h₂.same (fun q => ?_) rfl rfl rfl
    dsimp only
    split <;> exact ⟨rfl, rfl, rfl, rfl, rfl⟩
  generalize hs₃ : ({ s₂ with proc := fun q =>
      if (s₂.proc q).parent = some p then { s₂.proc q with parent := s₂.initproc } else s₂.proc q } : Sys)
    = s₃ at h₃ ⊢
  have hfreed₃ : Freed s s₃ := by
    rw [← hs₃]
    exact hfreed₂
  have hself₃ : (s₃.proc p).state = .RUNNABLE ∧ ∀ fd, (s₃.proc p).ofile fd = none := by
    rw [← hs₃]
    dsimp only
    split
    · rw [hself₂]
      exact ⟨hp₁, hclosed⟩
    · rw [hself₂]
      exact ⟨hp₁, hclosed⟩
  refine ⟨?_, hfreed₃⟩
  refine of_update (p := p) (x := { s₃.proc p with state := .ZOMBIE }) h₃.kept.files
    (fun q _ => h₃.size q) (fun q _ => h₃.idle q) rfl rfl rfl rfl (h₃.size p) (fun _ => hself₃.2) ?_
  have hdir : Process.dir { s₃.proc p with state := .ZOMBIE } = s₃.dirs none (some p) := by
    show (s₃.proc p).pgdir = (s₃.proc p).dir
    unfold Process.dir
    rw [hself₃.1]
    rfl
  have hstack : Process.stack { s₃.proc p with state := .ZOMBIE } = s₃.kstacks p := by
    show (s₃.proc p).kstack = (s₃.proc p).stack
    unfold Process.stack
    rw [hself₃.1]
    rfl
  rw [hdir, hstack, update_eq_self, update_eq_self]
  exact h₃.kept.pages

/-- **`wait`.** -/
theorem wp_wait (L : MemLayout) (h : s.AtRest P) :
    wp (wait L p) (fun _ s' => s'.AtRest P ∧ s'.file = s.file) NoFilePanic s := by
  unfold wait
  rw [wp_bind, wp_get]
  split
  · next q hfind =>
    have hfound : (s.proc q).parent = some p ∧ (s.proc q).state = .ZOMBIE := by
      simpa using List.find?_some hfind
    have hstate := hfound.2
    rw [wp_bind, wp_vm]
    refine (wp_kfreePtr L h.kept.pages (by rw [hstate]; decide) (noFilePanic_vm _)).imp (fun _ m hp => ?_)
    rw [wp_bind, wp_vm]
    cases hd : (s.proc q).pgdir with
    | none => exact noFilePanic_vm _
    | some d =>
    have hdir : s.dirs none (some q) = some d := by
      show (s.proc q).dir = some d
      unfold Process.dir
      rw [hstate, hd]
      rfl
    refine (hp.wp_freevm L hdir (fun _ _ _ => noFilePanic_vm _)).imp (fun _ m' ⟨hp', _⟩ => ?_)
    rw [wp_bind, wp_modify]
    refine ⟨?_, rfl⟩
    refine of_update (p := q) (x := { s.proc q with
        kstack := none, pid := 0, parent := none, name := [], state := .UNUSED }) h.kept.files
      (fun q _ => h.size q) (fun q _ => h.idle q) rfl rfl rfl rfl (h.size q)
      (fun _ => h.idle q (.inr hstate)) ?_
    exact hp'
  · split
    · exact ⟨nofun, nofun⟩
    · exact ⟨h, rfl⟩

end AtRest

end Sys

end Xv6
