import Xv6.Sys.Files

/-!
# The calls on descriptors

`dup`, `close`, `pipe` and `open`, and the loops of `fork` and `exit` over the
descriptors. Each one ends with as many references in the file table as it has
stored in descriptors, on every way out.
-/

namespace Xv6

open Function

open Wp

namespace Sys

variable {s s' s'' : Sys} {R : SysHalt → Prop} {p : Slot}

/-- The halts of a call that has neither `filedup` nor `fileclose` panic. -/
def NoFilePanic (e : SysHalt) : Prop := e ≠ .filedup ∧ e ≠ .fileclose

theorem noFilePanic_vm (e : VmHalt) : NoFilePanic (.vm e) := ⟨nofun, nofun⟩

theorem noFilePanic_fs (e : FsHalt) : NoFilePanic (.fs e) := ⟨nofun, nofun⟩

theorem noFilePanic_null : NoFilePanic .null := ⟨nofun, nofun⟩

/-- Of the processes, only the descriptors of one have changed. -/
def OnlyFds (p : Slot) (s s' : Sys) : Prop :=
  s'.initproc = s.initproc ∧ ∃ o, s'.proc = update s.proc p { s.proc p with ofile := o }

namespace OnlyFds

theorem of_proc (hproc : s'.proc = s.proc) (hinit : s'.initproc = s.initproc) : OnlyFds p s s' :=
  ⟨hinit, (s.proc p).ofile, hproc.trans (update_eq_self p s.proc).symm⟩

theorem trans (h : OnlyFds p s s') (h' : OnlyFds p s' s'') : OnlyFds p s s'' := by
  obtain ⟨hinit, o, ho⟩ := h
  obtain ⟨hinit', o', ho'⟩ := h'
  refine ⟨hinit'.trans hinit, o', ?_⟩
  rw [ho', ho, update_self, update_idem]

theorem setFd (fd : Fd) (f : Option Fp) : OnlyFds p s (Sys.setFd p fd f s) := ⟨rfl, _, rfl⟩

/-- What is not about the descriptors. -/
theorem proc_eq {A : Type} (h : OnlyFds p s s') (get : Process → A)
    (hget : ∀ x o, get { x with ofile := o } = get x) (q : Slot) : get (s'.proc q) = get (s.proc q) := by
  obtain ⟨-, o, ho⟩ := h
  rw [ho]
  by_cases hq : q = p
  · subst hq
    rw [update_self, hget]
  · rw [update_of_ne hq]

theorem proc_of_ne (h : OnlyFds p s s') {q : Slot} (hq : q ≠ p) : s'.proc q = s.proc q := by
  obtain ⟨-, o, ho⟩ := h
  rw [ho, update_of_ne hq]

end OnlyFds

theorem Closes.onlyFds (h : Closes s s') : OnlyFds p s s' := .of_proc h.proc h.initproc

theorem ofile_setFd_self (fd : Fd) (f : Option Fp) : ((setFd p fd f s).proc p).ofile fd = f :=
  (congrFun (fds_setFd p fd f s) (p, fd)).trans (update_self (p, fd) f s.fds)

theorem ofile_setFd_of_ne {fd i : Fd} (hi : i ≠ fd) (f : Option Fp) :
    ((setFd p fd f s).proc p).ofile i = (s.proc p).ofile i := by
  have hne : (p, i) ≠ (p, fd) := fun heq => hi (Prod.mk.inj heq).2
  exact (congrFun (fds_setFd p fd f s) (p, i)).trans (update_of_ne hne f s.fds)

theorem wp_argfd {fd : ℤ} {Q : Option (Fd × Fp) → Sys → Prop} (hnone : Q none s)
    (hsome : ∀ i f, (s.proc p).ofile i = some f → Q (some (i, f)) s) : wp (argfd p fd) Q R s := by
  unfold argfd
  rw [wp_bind, wp_get]
  split
  · show Q (((s.proc p).ofile _).map _) s
    cases hf : (s.proc p).ofile _ with
    | none => exact hnone
    | some f => exact hsome _ f hf
  · exact hnone

theorem wp_fdalloc {f : Fp} {Q : Option Fd → Sys → Prop}
    (hnone : (∀ fd, (s.proc p).ofile fd ≠ none) → Q none s)
    (hsome : ∀ fd, (s.proc p).ofile fd = none → Q (some fd) (setFd p fd (some f) s)) :
    wp (fdalloc p f) Q R s := by
  unfold fdalloc
  rw [wp_bind, wp_get]
  split
  · next hfind =>
    refine hnone (fun fd hfd => ?_)
    exact List.find?_eq_none.mp hfind fd (List.mem_finRange fd) (decide_eq_true hfd)
  · next fd hfind =>
    have hfd : (s.proc p).ofile fd = none := by simpa using List.find?_some hfind
    exact hsome fd hfd

namespace Kept

variable {H : Type} {P held : Set Frame} {dirs : H → Option Frame} {kstacks : Slot → Option Frame}
  {extra : Fp → ℤ} {f : Fp} {fd : Fd}

/-- `sys_dup`. -/
theorem wp_sysDup (h : s.Kept P dirs kstacks held 0) (fd : ℤ) :
    wp (sysDup p fd) (fun _ s' => s'.Kept P dirs kstacks held 0 ∧ OnlyFds p s s' ∧ Freed s s') R s := by
  unfold sysDup
  rw [wp_bind]
  refine wp_argfd ⟨h, .of_proc rfl rfl, .of_ends rfl⟩ (fun i f hf => ?_)
  rw [wp_bind]
  refine wp_fdalloc (fun _ => ⟨h, .of_proc rfl rfl, .of_ends rfl⟩) (fun fd hfd => ?_)
  rw [wp_bind]
  -- the file has the reference of the descriptor that is copied
  refine ((h.storeFd hfd f).wp_filedup (h.ref_pos hf le_rfl)).imp (fun _ s₁ hdup => ?_)
  obtain ⟨hproc, hinit, hends, hkept⟩ := hdup
  rw [sub_add_cancel] at hkept
  exact ⟨hkept, (OnlyFds.setFd fd (some f)).trans (.of_proc hproc hinit), .of_ends hends⟩

/-- `sys_close`. -/
theorem wp_sysClose (L : MemLayout) (h : s.Kept P dirs kstacks held 0) (fd : ℤ)
    (hvm : ∀ e, R (.vm e)) (hfs : ∀ e, R (.fs e)) (hnull : R .null) :
    wp (sysClose L p fd) (fun _ s' => s'.Kept P dirs kstacks held 0 ∧ OnlyFds p s s' ∧ Freed s s')
      R s := by
  unfold sysClose
  rw [wp_bind]
  refine wp_argfd ⟨h, .of_proc rfl rfl, .of_ends rfl⟩ (fun i f hf => ?_)
  rw [wp_bind, wp_modify, wp_bind]
  have href : 1 ≤ ((setFd p i none s).file f).ref := h.ref_pos hf le_rfl
  refine ((h.clearFd hf).wp_fileclose L href hvm hfs hnull).imp (fun _ s₁ hclose => ?_)
  obtain ⟨hcl, hkept⟩ := hclose
  rw [add_sub_cancel_right] at hkept
  exact ⟨hkept, (OnlyFds.setFd i none).trans hcl.onlyFds, hcl.freed.of_ends_trans rfl⟩

/-! ## Pipes -/

/-- Two files become the ends of a pipe, in a page that is held. -/
theorem newPipe (h : s.Kept P dirs kstacks held extra) {x : Frame} (hx : x ∈ held) {f₀ f₁ : Fp}
    (hne : f₀ ≠ f₁) (h₀ : s.ends f₀ = none) (h₁ : s.ends f₁ = none) (href₀ : (s.file f₀).ref ≠ 0)
    (href₁ : (s.file f₁).ref ≠ 0) {y : Pipe} (hy : ∀ w, y.isOpen w = true) (x₀ x₁ : File → File)
    (hx₀ : (x₀ (s.file f₀)).pipeEnd = some (x, false)) (hx₁ : (x₁ (s.file f₁)).pipeEnd = some (x, true))
    (hr₀ : (x₀ (s.file f₀)).ref = (s.file f₀).ref) (hr₁ : (x₁ (s.file f₁)).ref = (s.file f₁).ref)
    (hs' : s' = setFile f₁ x₁ (setFile f₀ x₀ (setPipe x (fun _ => y) s))) :
    s'.Kept P dirs kstacks (held \ {x}) extra ∧ ∀ z, s.IsPipe z → s'.IsPipe z := by
  have hfile : ∀ g, s'.file g = if g = f₁ then x₁ (s.file f₁)
      else if g = f₀ then x₀ (s.file f₀) else s.file g := by
    intro g
    rw [hs']
    unfold Sys.setFile setPipe
    dsimp only
    rw [update_of_ne hne.symm, update_apply, update_apply]
  have hends : ∀ g, s'.ends g = if g = f₁ then some (x, true)
      else if g = f₀ then some (x, false) else s.ends g := by
    intro g
    unfold Sys.ends
    rw [hfile]
    grind
  have hno : ¬ s.IsPipe x := h.not_isPipe_of_held hx
  have hno' : ∀ g w, s.ends g ≠ some (x, w) := fun g w hg => hno ⟨g, w, hg⟩
  -- what the ends of the new pipe are, and that the others are as they were
  have hnew : ∀ g w, s'.ends g = some (x, w) ↔ g = if w then f₁ else f₀ := by
    rintro g (_ | _) <;> grind
  have hold : ∀ g z w, z ≠ x → (s'.ends g = some (z, w) ↔ s.ends g = some (z, w)) := by grind
  have hisPipe : ∀ z, z ≠ x → (s'.IsPipe z ↔ s.IsPipe z) :=
    fun z hz => exists_congr (fun g => exists_congr (fun w => hold g z w hz))
  have hpipe : s'.pipe = update s.pipe x y := by
    rw [hs']
    rfl
  have hmore : ∀ z, s.IsPipe z → s'.IsPipe z :=
    fun z hz => (hisPipe z (fun hzx => hno (hzx ▸ hz))).mpr hz
  refine ⟨⟨⟨?_, fun g hg => ?_, ?_, ?_⟩, ?_⟩, hmore⟩
  · have hfds : s'.fds = s.fds := by rw [hs']; rfl
    have hrefs : s'.refs = s.refs := by
      funext g
      unfold Sys.refs
      grind
    rw [hfds, hrefs]
    exact h.files.exact
  · have htype := h.files.type_of_ref g
    grind
  · rintro g g' ⟨z, w⟩ hg hg'
    by_cases hz : z = x
    · subst hz
      rw [(hnew g w).mp hg, (hnew g' w).mp hg']
    · exact h.files.end_unique ((hold g z w hz).mp hg) ((hold g' z w hz).mp hg')
  · intro z hz w
    rw [hpipe]
    by_cases hzx : z = x
    · subst hzx
      rw [update_self]
      exact ⟨fun _ => ⟨_, (hnew _ w).mpr rfl⟩, fun _ => hy w⟩
    · rw [update_of_ne hzx, h.files.open_iff ((hisPipe z hzx).mp hz)]
      exact exists_congr (fun g => (hold g z w hzx).symm)
  · have hothers : s'.others kstacks = update (s.others kstacks) (.inr x) (some x) := by
      refine Function.eq_update_iff.mpr ⟨others_of_isPipe ⟨f₀, false, (hnew f₀ false).mpr rfl⟩ kstacks, ?_⟩
      intro place hplace
      cases place with
      | inl q => rfl
      | inr z => simp only [others, hisPipe z (fun hz => hplace (congrArg Sum.inr hz))]
    have hram : s'.ram = s.ram := by rw [hs']; rfl
    rw [hothers, hram]
    exact h.pages.keep (others_of_not_isPipe hno kstacks) hx

/-- **`pipealloc`** gives its caller two references, or none. -/
theorem wp_pipealloc (L : MemLayout) (h : s.Kept P dirs kstacks held 0) (hvm : ∀ e, R (.vm e))
    (hfs : ∀ e, R (.fs e)) (hnull : R .null) :
    wp (pipealloc L) (fun r s' => s'.proc = s.proc ∧ s'.initproc = s.initproc ∧ Freed s s' ∧
      ((r = none ∧ s'.Kept P dirs kstacks held 0) ∨
        ∃ f₀ f₁, r = some (f₀, f₁) ∧
          s'.Kept P dirs kstacks held (Pi.single f₀ 1 + Pi.single f₁ 1))) R s := by
  unfold pipealloc
  rw [wp_bind]
  refine wp_filealloc (fun _ => ⟨rfl, rfl, .of_ends rfl, .inl ⟨rfl, h⟩⟩) (fun f₀ hf₀ => ?_)
  have hk₀ := h.newFile hf₀
  rw [zero_add] at hk₀
  have hend₀ := h.files.ends_of_ref hf₀
  have htype₀ := h.files.type_of_ref f₀ hf₀
  set s₀ := setFile f₀ (fun x => { x with ref := 1 }) s with hs₀
  have hfile₀ : s₀.file f₀ = { s.file f₀ with ref := 1 } := update_self f₀ _ s.file
  have hends₀ : s₀.ends = s.ends := ends_setFile_of_eq rfl
  dsimp only
  rw [wp_bind]
  refine wp_filealloc (fun _ => ?_) (fun f₁ hf₁ => ?_)
  · refine (hk₀.wp_fileclose L (hk₀.ref_pos_of_extra (Refs.one_le_single f₀)) hvm hfs hnull).bind (fun _ s₁ hclose => ?_)
    obtain ⟨hcl, hkept⟩ := hclose
    rw [sub_self] at hkept
    exact ⟨hcl.proc, hcl.initproc, hcl.freed.of_ends_trans hends₀, .inl ⟨rfl, hkept⟩⟩
  · have hk₁ := hk₀.newFile hf₁
    have hne : f₀ ≠ f₁ := by
      rintro rfl
      rw [hfile₀] at hf₁
      exact absurd hf₁ one_ne_zero
    have hend₁ := hk₀.files.ends_of_ref hf₁
    set s₁ := setFile f₁ (fun x => { x with ref := 1 }) s₀ with hs₁
    have hfile₁ : s₁.file f₁ = { s₀.file f₁ with ref := 1 } := update_self f₁ _ s₀.file
    have hfile₀' : s₁.file f₀ = s₀.file f₀ := update_of_ne hne _ s₀.file
    have hends₁ : s₁.ends = s.ends := (ends_setFile_of_eq rfl).trans hends₀
    dsimp only
    rw [wp_bind, wp_vm]
    refine hk₁.pages.wp_kalloc (fun m hpage hp => ?_) (fun x m hpage hp hx => ?_)
    · have hk₂ : Kept P dirs kstacks held _ { s₁ with ram := m } := ⟨hk₁.files.ram m, hp⟩
      dsimp only
      refine (hk₂.wp_fileclose L (hk₂.ref_pos_of_extra (Refs.one_le_single_add f₀ f₁)) hvm hfs hnull).bind (fun _ s₂ hclose => ?_)
      obtain ⟨hcl₀, hk₃⟩ := hclose
      rw [add_sub_cancel_left] at hk₃
      refine (hk₃.wp_fileclose L (hk₃.ref_pos_of_extra (Refs.one_le_single f₁)) hvm hfs hnull).bind (fun _ s₃ hclose => ?_)
      obtain ⟨hcl₁, hk₄⟩ := hclose
      rw [sub_self] at hk₄
      have hfreed := hcl₀.freed.trans hcl₁.freed hcl₁.free
      exact ⟨hcl₁.proc.trans hcl₀.proc, hcl₁.initproc.trans hcl₀.initproc,
        hfreed.of_ends_trans hends₁, .inl ⟨rfl, hk₄⟩⟩
    · have hk₂ : Kept P dirs kstacks (insert x held) _ { s₁ with ram := m } := ⟨hk₁.files.ram m, hp⟩
      simp only [wp_bind, wp_modify]
      have hend₀' : Sys.ends { s₁ with ram := m } f₀ = none := by
        show (s₁.file f₀).pipeEnd = none
        rw [hfile₀', hfile₀]
        exact pipeEnd_of_type (by rw [htype₀]; decide)
      have htype₁ := hk₀.files.type_of_ref f₁ hf₁
      have hend₁' : Sys.ends { s₁ with ram := m } f₁ = none := by
        show (s₁.file f₁).pipeEnd = none
        rw [hfile₁]
        exact pipeEnd_of_type (by rw [htype₁]; decide)
      have href₀ : (s₁.file f₀).ref ≠ 0 := by
        rw [hfile₀', hfile₀]
        exact one_ne_zero
      have href₁ : (s₁.file f₁).ref ≠ 0 := by
        rw [hfile₁]
        exact one_ne_zero
      have hkept := hk₂.newPipe (Set.mem_insert x held) hne hend₀' hend₁' href₀ href₁
        (y := Pipe.fresh (s₁.pipe x).data) (fun w => by cases w <;> rfl)
        (fun z => { z with type := .FD_PIPE, readable := true, writable := false, pipe := some x })
        (fun z => { z with type := .FD_PIPE, readable := false, writable := true, pipe := some x })
        rfl rfl rfl rfl rfl
      rw [Set.insert_sdiff_self_of_notMem hx] at hkept
      have hfreed : Freed s _ := fun z hz => .inl (hkept.2 z ((isPipe_congr hends₁ z).mpr hz))
      exact ⟨rfl, rfl, hfreed, .inr ⟨f₀, f₁, rfl, hkept.1⟩⟩

/-- `sys_pipe`. -/
theorem wp_sysPipe (L : MemLayout) (h : s.Kept P dirs kstacks held 0) (hvm : ∀ e, R (.vm e))
    (hfs : ∀ e, R (.fs e)) (hnull : R .null) :
    wp (sysPipe L p) (fun _ s' => s'.Kept P dirs kstacks held 0 ∧ OnlyFds p s s' ∧ Freed s s') R s := by
  unfold sysPipe
  refine (h.wp_pipealloc L hvm hfs hnull).bind (fun r s₁ halloc => ?_)
  obtain ⟨hproc, hinit, hfreed₁, ⟨rfl, hk₁⟩ | ⟨rf, wf, rfl, hk₁⟩⟩ := halloc
  · exact ⟨hk₁, .of_proc hproc hinit, hfreed₁⟩
  -- the two ways out that close both files
  have hboth : ∀ s₂, s₂.Kept P dirs kstacks held (Pi.single rf 1 + Pi.single wf 1) → OnlyFds p s s₂ →
      Freed s s₂ → wp (fileclose L rf >>= fun _ => fileclose L wf >>= fun _ => pure (-1, none))
        (fun (_ : ℤ × Option (Fd × Fd)) s' => s'.Kept P dirs kstacks held 0 ∧ OnlyFds p s s' ∧
          Freed s s') R s₂ := by
    intro s₂ hk₂ honly hfreed
    refine (hk₂.wp_fileclose L (hk₂.ref_pos_of_extra (Refs.one_le_single_add rf wf)) hvm hfs hnull).bind (fun _ s₃ hclose => ?_)
    obtain ⟨hcl, hk₃⟩ := hclose
    rw [add_sub_cancel_left] at hk₃
    refine (hk₃.wp_fileclose L (hk₃.ref_pos_of_extra (Refs.one_le_single wf)) hvm hfs hnull).bind (fun _ s₄ hclose => ?_)
    obtain ⟨hcl', hk₄⟩ := hclose
    rw [sub_self] at hk₄
    have hfreed' := (hfreed.trans hcl.freed hcl.free).trans hcl'.freed hcl'.free
    exact ⟨hk₄, (honly.trans hcl.onlyFds).trans hcl'.onlyFds, hfreed'⟩
  dsimp only
  rw [wp_bind]
  refine wp_fdalloc (fun _ => hboth s₁ hk₁ (.of_proc hproc hinit) hfreed₁) (fun fd₀ hfd₀ => ?_)
  have hk₂ := hk₁.storeFd hfd₀ rf
  have honly : OnlyFds p s (setFd p fd₀ (some rf) s₁) :=
    (OnlyFds.of_proc hproc hinit).trans (.setFd fd₀ (some rf))
  dsimp only
  rw [wp_bind]
  refine wp_fdalloc (fun _ => ?_) (fun fd₁ hfd₁ => ?_)
  · dsimp only
    rw [wp_bind, wp_modify]
    have hk₃ := hk₂.clearFd (p := p) (ofile_setFd_self fd₀ (some rf))
    rw [sub_add_cancel] at hk₃
    exact hboth _ hk₃ (honly.trans (.setFd fd₀ none)) hfreed₁
  · have hk₃ := hk₂.storeFd hfd₁ wf
    rw [add_sub_cancel_left, sub_self] at hk₃
    exact ⟨hk₃, honly.trans (.setFd fd₁ (some wf)), hfreed₁⟩

/-! ## `open` -/

/-- What a file is changes, but for the ends of pipes. -/
theorem setFile (h : s.Kept P dirs kstacks held extra) (hend : s.ends f = none) {x : File → File}
    (href : (x (s.file f)).ref = (s.file f).ref) (hpos : (s.file f).ref ≠ 0)
    (hx : (x (s.file f)).type ≠ .FD_PIPE) : (Sys.setFile f x s).Kept P dirs kstacks held extra := by
  have hkept := h.setRef (n := 0) (f := f) (x := x) (by rw [href, add_zero])
    (fun hzero => absurd (href.symm.trans hzero) hpos) ((pipeEnd_of_type hx).trans hend.symm)
  rw [Pi.single_zero, add_zero] at hkept
  exact hkept

/-- `sys_open`. -/
theorem wp_sysOpen (L : MemLayout) (h : s.Kept P dirs kstacks held 0) (path : Path) (omode : ℕ)
    (hvm : ∀ e, R (.vm e)) (hfs : ∀ e, R (.fs e)) (hnull : R .null) :
    wp (sysOpen L p path omode) (fun _ s' =>
      s'.Kept P dirs kstacks held 0 ∧ OnlyFds p s s' ∧ Freed s s') R s := by
  have hsame : ∀ {s₁ : Sys} (fs : Fs), s₁.Kept P dirs kstacks held 0 → OnlyFds p s s₁ → Freed s s₁ →
      Kept P dirs kstacks held 0 { s₁ with fs := fs } ∧ OnlyFds p s { s₁ with fs := fs } ∧
        Freed s { s₁ with fs := fs } :=
    fun fs hk honly hfreed => ⟨hk.congr rfl rfl rfl rfl, honly.trans (.of_proc rfl rfl), hfreed⟩
  unfold sysOpen
  rw [wp_bind]
  refine wp_getCwd hnull (fun cwd => ?_)
  rw [wp_bind]
  refine wp_fsys_of_forall hfs (fun r fs => ?_)
  obtain ⟨hk, honly, -⟩ := hsame fs h (.of_proc rfl rfl) (.of_ends rfl)
  have hends : Sys.ends { s with fs := fs } = s.ends := rfl
  cases r with
  | none => exact ⟨hk, honly, .of_ends rfl⟩
  | some ip =>
  dsimp only
  generalize { s with fs := fs } = s₁ at hk honly hends ⊢
  rw [wp_bind]
  refine wp_filealloc (fun _ => ?_) (fun f hf => ?_)
  · dsimp only
    rw [wp_bind]
    exact wp_fsys_of_forall hfs (fun _ fs => hsame fs hk honly (.of_ends hends))
  · have hk₁ := hk.newFile hf
    have hend := hk.files.ends_of_ref hf
    have htype := hk.files.type_of_ref f hf
    have honly₁ : OnlyFds p s (Sys.setFile f (fun x => { x with ref := 1 }) s₁) :=
      honly.trans (.of_proc rfl rfl)
    have hfile : (Sys.setFile f (fun x => { x with ref := 1 }) s₁).file f = { s₁.file f with ref := 1 } :=
      update_self f _ s₁.file
    have hends₁ : (Sys.setFile f (fun x => { x with ref := 1 }) s₁).ends = s.ends :=
      (ends_setFile_of_eq rfl).trans hends
    rw [zero_add] at hk₁
    generalize Sys.setFile f (fun x => { x with ref := 1 }) s₁ = s₂ at hk₁ honly₁ hfile hends₁ ⊢
    have href : (s₂.file f).ref = 1 := by rw [hfile]
    have hend₂ : s₂.ends f = none := by
      show (s₂.file f).pipeEnd = none
      rw [hfile]
      exact pipeEnd_of_type (by rw [htype]; decide)
    dsimp only
    rw [wp_bind]
    refine wp_fdalloc (fun _ => ?_) (fun fd hfd => ?_)
    · dsimp only
      refine (hk₁.wp_fileclose L href.ge hvm hfs hnull).bind (fun _ s₃ hclose => ?_)
      obtain ⟨hcl, hk₂⟩ := hclose
      rw [sub_self] at hk₂
      rw [wp_bind]
      exact wp_fsys_of_forall hfs (fun _ fs =>
        hsame fs hk₂ (honly₁.trans hcl.onlyFds) (hcl.freed.of_ends_trans hends₁))
    · have hk₂ := hk₁.storeFd hfd f
      rw [sub_self] at hk₂
      dsimp only
      rw [wp_bind]
      refine wp_fsys_of_forall hfs (fun _ fs => ?_)
      obtain ⟨hk₃, honly₃, -⟩ := hsame fs hk₂ (honly₁.trans (.setFd fd (some f))) (.of_ends hends₁)
      rw [wp_bind, wp_modify]
      have hpos : (s₂.file f).ref ≠ 0 := by
        rw [href]
        decide
      refine ⟨hk₃.setFile hend₂ rfl hpos nofun, honly₃.trans (.of_proc rfl rfl), .of_ends ?_⟩
      rw [← hends₁]
      refine ends_setFile_of_eq (Eq.trans ?_ hend₂.symm)
      exact pipeEnd_of_type nofun

/-! ## The loops of `fork` and `exit` -/

/-- **`exit` closes all descriptors.** -/
theorem wp_exitFiles (L : MemLayout) (h : s.Kept P dirs kstacks held 0) (hvm : ∀ e, R (.vm e))
    (hfs : ∀ e, R (.fs e)) (hnull : R .null) :
    wp (exitFiles L p) (fun _ s' => s'.Kept P dirs kstacks held 0 ∧ OnlyFds p s s' ∧ Freed s s' ∧
      ∀ fd, (s'.proc p).ofile fd = none) R s := by
  unfold exitFiles
  refine (wp_forM_set (List.nodup_finRange NOFILE) (I := fun done s' =>
    s'.Kept P dirs kstacks held 0 ∧ OnlyFds p s s' ∧ Freed s s' ∧
      ∀ fd ∈ done, (s'.proc p).ofile fd = none)
    (fun done fd s₁ _ _ hI => ?_) ⟨h, .of_proc rfl rfl, .of_ends rfl, fun _ hfd => hfd.elim⟩).imp
    (fun _ s' ⟨hk, honly, hfreed, hall⟩ =>
      ⟨hk, honly, hfreed, fun fd => hall fd (List.mem_finRange fd)⟩)
  obtain ⟨hk, honly, hfreed, hall⟩ := hI
  rw [wp_bind, wp_get]
  cases hfd : (s₁.proc p).ofile fd with
  | none =>
    refine ⟨hk, honly, hfreed, fun fd' hfd' => ?_⟩
    rcases Set.mem_insert_iff.mp hfd' with rfl | hfd'
    · exact hfd
    · exact hall fd' hfd'
  | some f =>
    dsimp only
    refine (hk.wp_fileclose L (hk.ref_pos hfd le_rfl) hvm hfs hnull).bind (fun _ s₂ hclose => ?_)
    obtain ⟨hcl, hk₂⟩ := hclose
    have hfd₂ : (s₂.proc p).ofile fd = some f := by rw [hcl.proc]; exact hfd
    have hk₃ := hk₂.clearFd hfd₂
    rw [sub_add_cancel] at hk₃
    refine ⟨hk₃, (honly.trans hcl.onlyFds).trans (.setFd fd none),
      hfreed.trans hcl.freed hcl.free, fun fd' hfd' => ?_⟩
    by_cases heq : fd' = fd
    · rw [heq]
      exact ofile_setFd_self fd none
    · rw [ofile_setFd_of_ne heq, hcl.proc]
      exact hall fd' ((Set.mem_insert_iff.mp hfd').resolve_left heq)

/-- **`fork` copies all descriptors.** -/
theorem wp_forkFiles (h : s.Kept P dirs kstacks held 0) {np : Slot}
    (hnone : ∀ fd, (s.proc np).ofile fd = none) :
    wp (forkFiles p np) (fun _ s' => s'.Kept P dirs kstacks held 0 ∧ OnlyFds np s s' ∧
      s'.ends = s.ends) R s := by
  unfold forkFiles
  refine (wp_forM_set (List.nodup_finRange NOFILE) (I := fun done s' =>
    s'.Kept P dirs kstacks held 0 ∧ OnlyFds np s s' ∧ s'.ends = s.ends ∧
      ∀ fd, fd ∉ done → (s'.proc np).ofile fd = none)
    (fun done fd s₁ _ hfd hI => ?_) ⟨h, .of_proc rfl rfl, rfl, fun fd _ => hnone fd⟩).imp
    (fun _ s' ⟨hk, honly, hends, _⟩ => ⟨hk, honly, hends⟩)
  obtain ⟨hk, honly, hends, hrest⟩ := hI
  rw [wp_bind, wp_get]
  cases hf : (s₁.proc p).ofile fd with
  | none =>
    exact ⟨hk, honly, hends, fun fd' hfd' => hrest fd' (fun hmem => hfd' (Set.mem_insert_of_mem _ hmem))⟩
  | some f =>
    dsimp only
    refine (hk.wp_filedup (hk.ref_pos hf le_rfl)).bind (fun _ s₂ hdup => ?_)
    obtain ⟨hproc, hinit, hends₂, hk₂⟩ := hdup
    have hfd₂ : (s₂.proc np).ofile fd = none := by rw [hproc]; exact hrest fd hfd
    have hk₃ := hk₂.storeFd hfd₂ f
    rw [add_sub_cancel_right] at hk₃
    refine ⟨hk₃, (honly.trans (.of_proc hproc hinit)).trans (.setFd fd (some f)), hends₂.trans hends,
      fun fd' hfd' => ?_⟩
    have heq : fd' ≠ fd := fun heq => hfd' (heq ▸ Set.mem_insert fd done)
    rw [ofile_setFd_of_ne heq, hproc]
    exact hrest fd' (fun hmem => hfd' (Set.mem_insert_of_mem _ hmem))

end Kept

end Sys

end Xv6
