import Xv6.Sys.Exec

/-!
# What every run keeps

A run starts in a state that `userinit` left, and every call keeps `AtRest`. Two
results follow: no page is ever lost or freed twice, and reference counts of
open files are exact.
-/

namespace Xv6

open Function

open Wp

namespace Sys

variable {L : MemLayout} {s s' : Sys} {P : Set Frame} {p : Slot}

/-! ## Steps -/

namespace AtRest

theorem freed_of_file (hfile : s'.file = s.file) : Freed s s' := by
  refine .of_ends ?_
  unfold ends
  rw [hfile]

/-- **Every call.** -/
theorem wp_call (L : MemLayout) (h : s.AtRest P) (hp : (s.proc p).state = .RUNNABLE) (c : Call) :
    wp (call L p c) (fun _ s' => s'.AtRest P ∧ Freed s s') NoFilePanic s := by
  -- the calls that change nothing but a descriptor, memory, or the file system
  have hfds : ∀ {A : Type} {x : SysM A}, wp x (fun _ s' =>
      s'.Kept P (s.dirs none) s.kstacks ∅ 0 ∧ OnlyFds p s s' ∧ Freed s s') NoFilePanic s →
      wp x (fun _ s' => s'.AtRest P ∧ Freed s s') NoFilePanic s :=
    fun hx => hx.imp (fun _ s' ⟨hk, honly, hfreed⟩ => ⟨h.onlyFds hp honly hk, hfreed⟩)
  have hmem : ∀ {A : Type} {x : SysM A}, wp x (fun _ s' => s'.AtRest P ∧ s'.file = s.file) NoFilePanic s →
      wp x (fun _ s' => s'.AtRest P ∧ Freed s s') NoFilePanic s :=
    fun hx => hx.imp (fun _ s' ⟨hg, hfile⟩ => ⟨hg, freed_of_file hfile⟩)
  have hfs : ∀ x : Ip → FsM ℤ, wp (inCwd p x) (fun _ s' => s'.AtRest P ∧ Freed s s') NoFilePanic s := by
    intro x
    unfold inCwd
    rw [wp_bind]
    refine wp_getCwd noFilePanic_null (fun cwd => ?_)
    exact wp_fsys_of_forall noFilePanic_fs (fun _ fs => ⟨h.fs fs, freed_of_file rfl⟩)
  cases c with
  | fork => exact h.wp_fork L hp
  | exit =>
    show wp (exit L p >>= fun _ => pure 0) _ _ _
    rw [wp_bind]
    exact h.wp_exit L hp
  | wait => exact hmem (h.wp_wait L)
  | sbrk n => exact hmem (h.wp_growproc L hp n)
  | exec path argv => exact hmem (h.wp_exec L hp path argv)
  | dup fd => exact hfds (h.kept.wp_sysDup fd)
  | close fd => exact hfds (h.kept.wp_sysClose L fd noFilePanic_vm noFilePanic_fs noFilePanic_null)
  | pipe =>
    show wp (Prod.fst <$> sysPipe L p) _ _ _
    rw [wp_map]
    exact hfds (h.kept.wp_sysPipe L noFilePanic_vm noFilePanic_fs noFilePanic_null)
  | «open» path omode => exact hfds (h.kept.wp_sysOpen L path omode noFilePanic_vm noFilePanic_fs noFilePanic_null)
  | link old new => exact hfs _
  | unlink path => exact hfs _
  | mkdir path => exact hfs _
  | mknod path major minor => exact hfs _
  | chdir path =>
    show wp (sysChdir p path) _ _ _
    unfold sysChdir
    rw [wp_bind]
    refine wp_getCwd noFilePanic_null (fun cwd => ?_)
    rw [wp_bind]
    refine wp_fsys_of_forall noFilePanic_fs (fun r fs => ?_)
    rw [wp_bind, wp_modify]
    refine ⟨h.same (fun q => ?_) rfl rfl rfl, freed_of_file rfl⟩
    by_cases hq : q = p
    · subst hq
      simp only [setProc, update_self, and_self]
    · simp only [setProc, update_of_ne hq, and_self]

/-- **A step keeps what holds between calls.** -/
theorem step (h : s.AtRest P) {e : Event} {r : ℤ} (hstep : Sys.step L s e = .ok (r, s')) :
    s'.AtRest P ∧ Freed s s' := by
  unfold Sys.step at hstep
  split at hstep
  · next hp => exact ((h.refuse e.refuse).wp_call L hp e.call).ok hstep
  · cases hstep

/-- No step ends in a panic of `filedup` or `fileclose`. -/
theorem step_error (h : s.AtRest P) {e : Event} {x : SysHalt} (hstep : Sys.step L s e = .error x) :
    NoFilePanic x := by
  unfold Sys.step at hstep
  split at hstep
  · next hp => exact ((h.refuse e.refuse).wp_call L hp e.call).error hstep
  · cases hstep
    exact ⟨nofun, nofun⟩

end AtRest

/-! ## Boot -/

/-- The first page of the first process, which `initcode` is in. -/
def initcode (s : Sys) : Option Frame :=
  ((s.initproc.bind (fun p => (s.proc p).pgdir)).bind (fun d => s.ram.entry d 0)).bind
    (fun t => s.ram.entry t 0)

/-- **The states from which runs start**: `userinit` has made the first process
from the pages that were free, and `initcode` has found its place. -/
structure Booted (L : MemLayout) (pages : List Frame) (s : Sys) : Prop where
  nodup : pages.Nodup
  small : ∀ f ∈ pages, f < 2 ^ 20
  userinit : ∃ code page pipe fs, userinit L code (start pages page pipe fs) = .ok (⟨⟩, s)
  initcode : s.initcode ≠ none

variable {pages : List Frame}

/-- Before the first process all pages are free. -/
theorem atRest_start (hnodup : pages.Nodup) (hsmall : ∀ f ∈ pages, f < 2 ^ 20) (page : Frame → Page)
    (pipe : Frame → Pipe) (fs : Fs) :
    (start pages page pipe fs).AtRest {f | f ∈ pages} := by
  have hends : ∀ f, (start pages page pipe fs).ends f = none := fun _ => rfl
  have hpipe : ∀ x, ¬ (start pages page pipe fs).IsPipe x := by
    rintro x ⟨f, w, hf⟩
    rw [hends] at hf
    cases hf
  have howner : ∀ home, (start pages page pipe fs).ram.owner ((start pages page pipe fs).dirs none)
      ((start pages page pipe fs).others (start pages page pipe fs).kstacks) home = none := by
    intro home
    have hdirs : ∀ h, (start pages page pipe fs).dirs none h = none := by
      intro h
      cases h <;> rfl
    cases home with
    | dir h => exact hdirs h
    | table h i =>
      show ((start pages page pipe fs).dirs none h).bind _ = none
      rw [hdirs]
      rfl
    | user h i j =>
      show (if _ then (((start pages page pipe fs).dirs none h).bind _).bind _ else _) = none
      rw [hdirs]
      exact ite_self _
    | other x =>
      cases x with
      | inl p => rfl
      | inr x => exact others_of_not_isPipe (hpipe x) (start pages page pipe fs).kstacks
  refine ⟨⟨⟨?_, fun _ _ => rfl, ?_, fun hx => absurd hx (hpipe _)⟩, ?_⟩, fun _ => Nat.zero_le _,
    fun _ _ _ => rfl⟩
  · intro f
    have hcount : Refs.count (start pages page pipe fs).fds f = 0 := by
      rw [← Nat.le_zero, ← Nat.not_lt, Refs.count_pos]
      rintro ⟨q, hq⟩
      cases hq
    rw [hcount]
    rfl
  · intro f g e hf
    rw [hends] at hf
    cases hf
  · refine ⟨hsmall, hnodup, fun f hf => hf, ⟨?_, ?_, ?_⟩, ?_⟩
    · intro q q' b hb
      rw [howner] at hb
      cases hb
    · intro q b hb
      rw [howner] at hb
      cases hb
    · intro b
      constructor
      · exact fun hb => absurd hb.1 hb.2
      · rintro (hb | ⟨q, hb⟩)
        · exact hb.elim
        · rw [howner] at hb
          cases hb
    · intro h d i t j hd
      have hdir := howner (.dir h)
      rw [Ram.Pages.owner_dir hd] at hdir
      cases hdir

/-- **`userinit`.** -/
theorem AtRest.wp_userinit (L : MemLayout) (h : s.AtRest P) (code : List UInt8) :
    wp (userinit L code) (fun _ s' => s'.initcode ≠ none → s'.AtRest P) (fun _ => True) s := by
  unfold userinit
  rw [wp_bind]
  refine h.wp_allocproc.imp (fun r s₁ halloc => ?_)
  obtain ⟨h₁, -, -, hnp⟩ := halloc
  rw [wp_bind, wp_modify, wp_bind]
  refine wp_deref trivial (fun np hr => ?_)
  obtain ⟨-, hembryo, hofile, -⟩ := hnp np hr
  have hdirnp : s₁.dirs none (some np) = none := by
    show (s₁.proc np).dir = none
    unfold Process.dir
    rw [hembryo]
    rfl
  rw [wp_bind, wp_vm]
  refine (h₁.kept.pages.wp_setupkvm (h := none) L (fun _ _ _ => trivial) (fun _ => trivial)
    rfl).imp (fun d m hsetup => ?_)
  rcases hsetup with ⟨-, ⟨rfl, -⟩ | ⟨d, rfl, hp, hempty⟩⟩
  · exact trivial
  dsimp only
  rw [dirs_new] at hp hempty
  rw [wp_bind, wp_modify, wp_bind, wp_vm]
  have hd : s₁.dirs (some d) none = some d := rfl
  refine (hp.wp_inituvm hd (fun _ => trivial) hempty code).imp (fun _ m₂ hinit => ?_)
  rw [wp_bind]
  refine wp_fsys_of_forall (fun _ => trivial) (fun cwd fs => ?_)
  simp only [wp_bind, wp_modify]
  intro hcode
  subst hr
  generalize hs₂ : setProc np (fun x => { x with state := .RUNNABLE }) _ = s₂ at hcode ⊢
  have hproc : s₂.proc = update s₁.proc np { s₁.proc np with
      pgdir := some d
      sz := PGSIZE
      eip := 0
      esp := PGSIZE
      name := "initcode".toUTF8.toList
      cwd := cwd
      state := .RUNNABLE } := by
    rw [← hs₂]
    simp only [setProc, update_self, update_idem]
  have hram : s₂.ram = m₂ := by rw [← hs₂]; rfl
  have hfile : s₂.file = s₁.file := by rw [← hs₂]; rfl
  have hpipe : s₂.pipe = s₁.pipe := by rw [← hs₂]; rfl
  have hinitproc : s₂.initproc = some np := by rw [← hs₂]; rfl
  have hmapped : m₂.mapped (s₁.dirs (some d)) none 0 ≠ none := by
    unfold initcode at hcode
    rw [hinitproc, Option.bind_some, hproc, update_self, Option.bind_some, hram] at hcode
    exact hcode
  have hp₂ := hinit hmapped
  have hsz : PGSIZE ≤ KERNBASE := by decide
  refine of_update h₁.kept.files (fun q _ => h₁.size q) (fun q _ => h₁.idle q) hproc rfl hfile hpipe
    hsz (by simp) ?_
  have hnp : s₁.dirs (some d) (some np) = none := hdirnp
  have hmove := hp₂.moveDir (h := none) hnp
  rw [dirs_new] at hmove
  have hstack : Process.stack { s₁.proc np with
      pgdir := some d
      sz := PGSIZE
      eip := 0
      esp := PGSIZE
      name := "initcode".toUTF8.toList
      cwd := cwd
      state := .RUNNABLE } = s₁.kstacks np := by
    show (s₁.proc np).kstack = (s₁.proc np).stack
    unfold Process.stack
    rw [hembryo]
    rfl
  rw [hstack, update_eq_self, hram]
  exact hmove

theorem Booted.atRest (h : Booted L pages s) : s.AtRest {f | f ∈ pages} := by
  obtain ⟨code, page, pipe, fs, hinit⟩ := h.userinit
  exact ((atRest_start h.nodup h.small page pipe fs).wp_userinit L code).ok hinit h.initcode

/-- **Every state of a run from boot.** -/
theorem Booted.atRest_of_run (h : Booted L pages s) {es : List Event} (hrun : run L s es = .ok s') :
    s'.AtRest {f | f ∈ pages} :=
  Machine.exec_invariant (I := AtRest {f | f ∈ pages}) (fun hg hstep => (hg.step hstep).1) h.atRest hrun

/-- What the calls of a run return. -/
def results (L : MemLayout) : Sys → List Event → Option (List ℤ)
  | _, [] => some []
  | s, e :: es =>
    match step L s e with
    | .ok (r, s') => (results L s' es).map (r :: ·)
    | .error _ => none

theorem exists_run_of_results {es : List Event} {rs : List ℤ} (h : results L s es = some rs) :
    ∃ s', run L s es = .ok s' := by
  induction es generalizing s rs with
  | nil => exact ⟨s, rfl⟩
  | cons e es ih =>
    unfold results at h
    split at h
    · next r s₁ hstep =>
      obtain ⟨rs', hes, -⟩ := Option.map_eq_some_iff.mp h
      obtain ⟨s', hrun⟩ := ih hes
      exact ⟨s', Machine.exec_cons_eq_ok.mpr ⟨r, s₁, hstep, hrun⟩⟩
    · cases h

/-- Whether `userinit` and some calls after it run to their end, with these results. -/
def boots (L : MemLayout) (pages : List Frame) (fs : Fs) (es : List Event) (rs : List ℤ) : Bool :=
  match userinit L [] (start pages (fun _ => Bytes.zero) (fun _ => Pipe.fresh (fun _ => 0)) fs) with
  | .ok (_, s) => s.initcode.isSome && results L s es == some rs
  | .error _ => false

theorem exists_run_of_boots (fs : Fs) {es : List Event} {rs : List ℤ} (hnodup : pages.Nodup)
    (hsmall : ∀ f ∈ pages, f < 2 ^ 20) (h : boots L pages fs es rs = true) :
    ∃ s s', Booted L pages s ∧ results L s es = some rs ∧ run L s es = .ok s' := by
  unfold boots at h
  split at h
  · next s hinit =>
    obtain ⟨hcode, hrun⟩ := Bool.and_eq_true_iff.mp h
    have hboot : Booted L pages s :=
      ⟨hnodup, hsmall, ⟨_, _, _, fs, hinit⟩, Option.isSome_iff_ne_none.mp hcode⟩
    obtain ⟨s', hs'⟩ := exists_run_of_results (beq_iff_eq.mp hrun)
    exact ⟨s, s', hboot, beq_iff_eq.mp hrun, hs'⟩
  · cases h

/-- The first process. -/
def firstSlot : Slot := ⟨0, by decide⟩

/-- A machine with sixteen pages of memory, of which the kernel has three. -/
def smallLayout : MemLayout where
  EXTMEM := PGSIZE
  PHYSTOP := 16 * PGSIZE
  DEVSPACE := 2 ^ 32 - PGSIZE
  data := KERNBASE + 2 * PGSIZE
  kend := KERNBASE + 3 * PGSIZE
  extmem_aligned := by decide
  data_aligned := by decide
  devspace_aligned := by decide
  extmem_pos := by decide
  kernlink_lt_data := by decide
  data_lt_phystop := by decide
  devspace_lt := by decide

/-- Its free pages. -/
def smallPages : List Frame := List.range' 3 13

/-- A file system with nothing in it. -/
def blankFs : Fs where
  disk := fun _ => Block.zero
  sb := ⟨0, 0, 0, 0, 0, 0, 0⟩
  icache := fun _ => ⟨⟨0, 0, 0, 0, 0, fun _ => 0⟩, 0, 0, false, false⟩
  devsw := fun _ => ⟨none, none⟩
  logged := []

/-- The first process makes a pipe and forks. The child exits with both ends open; its parent
waits for it, fails to fork for want of a directory, and closes both ends. -/
def firstCalls : List Event :=
  [⟨firstSlot, .pipe, []⟩, ⟨firstSlot, .fork, []⟩, ⟨⟨1, by decide⟩, .exit, []⟩,
    ⟨firstSlot, .wait, []⟩, ⟨firstSlot, .fork, [false, true]⟩, ⟨firstSlot, .close 0, []⟩,
    ⟨firstSlot, .close 1, []⟩]

theorem exists_run_firstCalls : ∃ s s', Booted smallLayout smallPages s ∧
    results smallLayout s firstCalls = some [0, 2, 0, 2, -1, 0, 0] ∧
      run smallLayout s firstCalls = .ok s' :=
  exists_run_of_boots blankFs (by decide) (by decide) (by decide +kernel)

/-! ## Pages -/

/-- **Where a page can be.** -/
inductive PagePlace
  | free (i : ℕ)
  | dir (p : Slot)
  | table (p : Slot) (i : ℕ)
  | user (p : Slot) (i j : ℕ)
  | kstack (p : Slot)
  | pipe (x : Frame)

/-- **The page at a place**: an entry of the free list, the directory of a
process, a page table that the directory names, a user page that such a table
below `KERNBASE` names, the kernel stack of a process, or a pipe that a file
refers to. -/
def pageAt (s : Sys) : PagePlace → Option Frame
  | .free i => s.ram.freelist[i]?
  | .dir p => (s.proc p).dir
  | .table p i => (s.proc p).dir.bind (fun d => s.ram.entry d i)
  | .user p i j =>
    if i < Ram.NUPDENTRIES then
      ((s.proc p).dir.bind (fun d => s.ram.entry d i)).bind (fun t => s.ram.entry t j)
    else none
  | .kstack p => (s.proc p).stack
  | .pipe x => if s.IsPipe x then some x else none

/-- The home of a place that is not free. -/
def PagePlace.home : PagePlace → Option (Home (Option Slot) (Slot ⊕ Frame))
  | .free _ => none
  | .dir p => some (.dir (some p))
  | .table p i => some (.table (some p) i)
  | .user p i j => some (.user (some p) i j)
  | .kstack p => some (.other (.inl p))
  | .pipe x => some (.other (.inr x))

variable {home : Home (Option Slot) (Slot ⊕ Frame)} {f : Frame}

/-- The homes at which there can be a page between calls are places. -/
theorem exists_place_of_home (h : s.ram.owner (s.dirs none) (s.others s.kstacks) home = some f) :
    ∃ place, PagePlace.home place = some home ∧ s.pageAt place = some f := by
  cases home with
  | dir h' =>
    cases h' with
    | none => cases h
    | some p => exact ⟨.dir p, rfl, h⟩
  | table h' i =>
    cases h' with
    | none => cases h
    | some p => exact ⟨.table p i, rfl, h⟩
  | user h' i j =>
    cases h' with
    | none =>
      obtain ⟨-, d, -, hd, -⟩ := Ram.owner_user_eq_some h
      cases hd
    | some p => exact ⟨.user p i j, rfl, h⟩
  | other x =>
    cases x with
    | inl p => exact ⟨.kstack p, rfl, h⟩
    | inr x => exact ⟨.pipe x, rfl, h⟩

theorem owner_of_place {place : PagePlace} (hhome : place.home = some home)
    (h : s.pageAt place = some f) :
    s.ram.owner (s.dirs none) (s.others s.kstacks) home = some f := by
  cases place <;> cases hhome <;> exact h

theorem home_inj {place place' : PagePlace} (h : place.home = some home)
    (h' : place'.home = some home) : place = place' := by
  cases place <;> cases h <;> cases place' <;> cases h' <;> rfl

/-- **A page is at one place.** -/
theorem AtRest.existsUnique_place (h : s.AtRest P) (hf : f ∈ P) :
    ∃! place, s.pageAt place = some f := by
  have hled := h.kept.pages.ledger
  -- a place that is not free is a home, and what has a home is not free
  have hused : ∀ place home, PagePlace.home place = some home → s.pageAt place = some f →
      f ∉ s.ram.freelist :=
    fun place home hhome hat => (hled.used_of_owner (owner_of_place hhome hat)).2
  by_cases hfree : f ∈ s.ram.freelist
  · obtain ⟨i, hi⟩ := List.mem_iff_getElem?.mp hfree
    refine ⟨.free i, hi, fun place hat => ?_⟩
    cases hhome : place.home with
    | some home => exact absurd hfree (hused place home hhome hat)
    | none =>
      cases place with
      | free j =>
        have hlt : i < s.ram.freelist.length := (List.getElem?_eq_some_iff.mp hi).1
        have hij : i = j := (List.getElem?_inj hlt h.kept.pages.nodup).mp (hi.trans hat.symm)
        exact congrArg PagePlace.free hij.symm
      | dir _ | table _ _ | user _ _ _ | kstack _ | pipe _ => cases hhome
  · obtain hheld | ⟨home, hhome⟩ := (hled.mem_used f).mp ⟨hf, hfree⟩
    · exact hheld.elim
    · obtain ⟨place, hplace, hat⟩ := exists_place_of_home hhome
      refine ⟨place, hat, fun place' hat' => ?_⟩
      cases hhome' : place'.home with
      | none =>
        cases place' with
        | free j => exact absurd (List.mem_iff_getElem?.mpr ⟨j, hat'⟩) hfree
        | dir _ | table _ _ | user _ _ _ | kstack _ | pipe _ => cases hhome'
      | some home' =>
        have heq := hled.unique (owner_of_place hhome' hat') hhome
        exact home_inj (heq ▸ hhome') hplace

/-- **Pages are conserved**: in every state of a run from boot, each page that
was free at boot is at exactly one place. -/
theorem pages_conserved_of_run {pages : List Frame} (hboot : Booted L pages s) {es : List Event}
    (hrun : run L s es = .ok s') : ∀ f ∈ pages, ∃! place, s'.pageAt place = some f :=
  fun _ hf => (hboot.atRest_of_run hrun).existsUnique_place hf

theorem pages_conserved_of_firstCalls :
    ∃ s s', Booted smallLayout smallPages s ∧
      results smallLayout s firstCalls = some [0, 2, 0, 2, -1, 0, 0] ∧
      run smallLayout s firstCalls = .ok s' ∧
      ∀ f ∈ smallPages, ∃! place, s'.pageAt place = some f := by
  obtain ⟨s, s', hboot, hresults, hrun⟩ := exists_run_firstCalls
  exact ⟨s, s', hboot, hresults, hrun, pages_conserved_of_run hboot hrun⟩

/-! ## Files -/

variable {x : Frame}

/-- The page of a pipe is not free. -/
theorem AtRest.count_isPipe (h : s.AtRest P) (hx : s.IsPipe x) : s.ram.freelist.count x = 0 := by
  have howner : s.ram.owner (s.dirs none) (s.others s.kstacks) (.other (.inr x)) = some x :=
    others_of_isPipe hx s.kstacks
  exact List.count_eq_zero.mpr (h.kept.pages.mem_of_owner howner).2

/-- A file that is an end of a pipe is referred to. -/
theorem AtRest.ref_pos_of_end (h : s.AtRest P) {f : Fp} {w : Bool} (hf : s.ends f = some (x, w)) :
    0 < (s.file f).ref := by
  have hne : (s.file f).ref ≠ 0 := by
    intro hzero
    rw [h.kept.files.ends_of_ref hzero] at hf
    cases hf
  have href : s.refs f = Refs.count s.fds f + 0 := h.kept.files.exact f
  have hle : 0 ≤ s.refs f := by omega
  exact lt_of_le_of_ne hle (Ne.symm hne)

/-- **A step frees the pipes it closes**, each one once. -/
theorem AtRest.count_of_step (h : s.AtRest P) {e : Event} {r : ℤ} (hstep : Sys.step L s e = .ok (r, s'))
    (hx : s.IsPipe x) : s'.ram.freelist.count x = if s'.IsPipe x then 0 else 1 := by
  obtain ⟨h', hfreed⟩ := h.step hstep
  split
  · next hx' => exact h'.count_isPipe hx'
  · next hx' =>
    have hmem : x ∈ s'.ram.freelist := (hfreed x hx).resolve_left hx'
    exact List.count_eq_one_of_mem h'.kept.pages.nodup hmem

/-- **Open files are counted exactly.** From boot, no run ends in a panic of
`filedup` or `fileclose`, and in every state that a run reaches a file has as
many references as descriptors point to it, a file without references is of no
type, an end of a pipe is open exactly as long as it has its one file, and the
page of a pipe has been freed once when both ends have gone, and not before. -/
theorem files_exact_of_run {pages : List Frame} (hboot : Booted L pages s) :
    (∀ es x, run L s es = .error x → x ≠ .filedup ∧ x ≠ .fileclose) ∧
    ∀ h s', Machine.Run (step L) s h s' →
      (∀ f, (s'.file f).ref
          = (Finset.univ.filter (fun q : Slot × Fd => (s'.proc q.1).ofile q.2 = some f)).card ∧
        ((s'.file f).ref = 0 → (s'.file f).type = .FD_NONE)) ∧
      (∀ x w, (∀ f g, s'.ends f = some (x, w) → s'.ends g = some (x, w) → f = g) ∧
        (s'.IsPipe x →
          ((s'.pipe x).isOpen w = true ↔ ∃ f, s'.ends f = some (x, w) ∧ 0 < (s'.file f).ref))) ∧
      ∀ t ∈ h, ∀ x, t.before.IsPipe x → t.before.ram.freelist.count x = 0 ∧
        t.after.ram.freelist.count x = if t.after.IsPipe x then 0 else 1 := by
  refine ⟨fun es x hrun => ?_, fun h s' hrun => ?_⟩
  · have hnever : ∀ y, ¬ NoFilePanic y → run L s es ≠ .error y := fun y hy =>
      (Machine.exec_ne_error_iff_along (C := fun _ _ => True) (I := AtRest {f | f ∈ pages})
        (fun hg hstep => (hg.step hstep).1)
        (fun hg => ⟨fun _ => trivial, fun _ hstep => hy (hg.step_error hstep)⟩) hboot.atRest).mpr
        (Machine.along_of_forall (C := fun _ => True) (fun _ _ => trivial) s)
    by_contra hx
    exact hnever x hx hrun
  · have hrest := hboot.atRest_of_run hrun.exec
    refine ⟨fun f => ⟨?_, hrest.kept.files.type_of_ref f⟩, fun x w => ⟨?_, fun hx => ?_⟩, ?_⟩
    · exact (hrest.kept.files.exact f).trans (add_zero _)
    · exact fun f g hf hg => hrest.kept.files.end_unique hf hg
    · rw [hrest.kept.files.open_iff hx w]
      exact exists_congr (fun f => (and_iff_left_of_imp hrest.ref_pos_of_end).symm)
    · intro t ht x hx
      obtain ⟨h₁, h₂, rfl⟩ := List.append_of_mem ht
      obtain ⟨hbefore, hstep⟩ := hrun.split
      have hrest' := hboot.atRest_of_run hbefore.exec
      exact ⟨hrest'.count_isPipe hx, hrest'.count_of_step hstep hx⟩

theorem files_exact_of_firstCalls :
    ∃ s h s', Booted smallLayout smallPages s ∧
      results smallLayout s firstCalls = some [0, 2, 0, 2, -1, 0, 0] ∧
      Machine.Run (step smallLayout) s h s' ∧
      h.map Machine.Step.event = firstCalls ∧
      ∀ f, (s'.file f).ref
        = (Finset.univ.filter (fun q : Slot × Fd => (s'.proc q.1).ofile q.2 = some f)).card := by
  obtain ⟨s, s', hboot, hresults, hexec⟩ := exists_run_firstCalls
  obtain ⟨h, hrun, hevents⟩ := Machine.exists_run_of_exec hexec
  exact ⟨s, h, s', hboot, hresults, hrun, hevents, fun f => (((files_exact_of_run hboot).2 h s' hrun).1 f).1⟩

end Sys

end Xv6
