import Xv6.Sys.ExecStack

/-!
# `exec`

With the file loaded and the stack built, `exec` takes the new address space and frees
the old one. If anything fails before, it frees the new one, and all that it had taken
is given back: pages and the reference to the inode.
-/

namespace Xv6

open Function

open Wp

namespace Sys

variable {s s' s'' : Sys} {P : Set Frame} {p : Slot} {R : SysHalt → Prop} {L : MemLayout}

/-- **The ways in which `exec` can stop** short of returning: in the file system, for want
of a current directory, in `copyout`, or if memory is not as the layout says. -/
structure ExecStops (L : MemLayout) (P : Set Frame) (R : SysHalt → Prop) : Prop where
  fs : ∀ e, R (.fs e)
  cwd : R .null
  copyout : R (.vm .null)
  kfree : ∀ f ∈ P, ¬ L.Frees f → R (.vm .kfree)
  phystop : L.DEVSPACE < KERNBASE + L.PHYSTOP → R (.vm .phystop)

/-- **The image that `exec` leaves** in place of the old one. -/
structure NewImage (p : Slot) (argv : List (List UInt8)) (s s' : Sys) (d : Frame) (sz : ℕ) :
    Prop where
  pgdir : (s'.proc p).pgdir = some d
  size : (s'.proc p).sz = sz
  aligned : sz % PGSIZE = 0
  below : sz < KERNBASE
  spans : s'.ram.Spans (s'.dirs none) (some p) sz
  two : 2 * PGSIZE ≤ sz
  guard : s'.ram.upage d (sz / PGSIZE - 2) = none
  freed : ∀ place f, Home.holder place = some (some p) →
    s.ram.owner (s.dirs none) (s.others s.kstacks) place = some f → f ∈ s'.ram.freelist
  fits : stringSpace argv + 4 * (argv.length + 4) ≤ PGSIZE
  args : ∃ ptrs, ArgBlock s'.ram d sz (s'.proc p).esp ((s'.proc p).esp + 12) argv ptrs

/-- **What `exec` does**: all is as it was, but for what the file system did, or there is
a new image. -/
def Execed (P : Set Frame) (p : Slot) (argv : List (List UInt8)) (s : Sys) (r : ℤ) (s' : Sys) :
    Prop :=
  (r = -1 ∧ Building P (s.dirs none) (s.others s.kstacks) ∅ none s s') ∨
  (r = 0 ∧ s'.AtRest P ∧ s'.file = s.file ∧ s'.fs.refs = s.fs.refs ∧
    ∃ d sz, NewImage p argv s s' d sz)

namespace AtRest

/-- Memory and the file system have changed, and no page has moved. -/
theorem building (h : s.AtRest P)
    (hb : Building P (s.dirs none) (s.others s.kstacks) ∅ none s s') :
    s'.AtRest P ∧ s'.file = s.file := by
  obtain ⟨⟨m, fs, rfl⟩, hp, -, -⟩ := hb
  exact ⟨(h.ram hp).fs fs, rfl⟩

/-- The directory that `exec` gives up. -/
theorem wp_freevm_new {R : VmHalt → Prop} {d : Frame}
    (hkfree : ∀ f ∈ P, ¬ L.Frees f → R .kfree)
    (hb : Building P (s.dirs (some d)) (s.others s.kstacks) ∅ none s s') :
    wp (Ram.freevm L (some d)) (fun _ m =>
      Building P (s.dirs none) (s.others s.kstacks) ∅ none s { s' with ram := m }) R s'.ram := by
  refine (hb.pages.wp_freevm (h := none) L rfl hkfree).imp (fun _ m ⟨hp, hleaves⟩ => ?_)
  have hall := hb.leaves.trans hleaves
  rw [dirs_new] at hp
  rw [← dirs_new s none (some d)] at hall
  have hnone := hall.of_dirs none
  rw [dirs_new] at hnone
  exact ⟨hb.only.trans (.ram m), hp, hnone, hb.refs⟩

/-- **The process takes the new image**, and the old one is freed. -/
theorem wp_replace {R : VmHalt → Prop} (h : s.AtRest P) (hstate : (s.proc p).state = .RUNNABLE)
    {d old : Frame} (hold : (s.proc p).pgdir = some old)
    (hkfree : ∀ f ∈ P, ¬ L.Frees f → R .kfree)
    (hb : Building P (s.dirs (some d)) (s.others s.kstacks) ∅ none s s') {x : Process}
    (hx : x.state = (s.proc p).state ∧ x.kstack = (s.proc p).kstack ∧ x.ofile = (s.proc p).ofile)
    (hpgdir : x.pgdir = some d) (hsz : x.sz < KERNBASE) (haligned : x.sz % PGSIZE = 0)
    (hspans : s'.ram.Spans (s.dirs (some d)) none x.sz) (htwo : 2 * PGSIZE ≤ x.sz)
    (hguard : s'.ram.upage d (x.sz / PGSIZE - 2) = none) {argv : List (List UInt8)}
    (hfits : stringSpace argv + 4 * (argv.length + 4) ≤ PGSIZE)
    (hargs : ∃ ptrs, ArgBlock s'.ram d x.sz x.esp (x.esp + 12) argv ptrs) :
    wp (Ram.freevm L (some old)) (fun _ m =>
      Execed P p argv s 0 { s' with ram := m, proc := update s.proc p x }) R s'.ram := by
  obtain ⟨⟨m₀, fs, rfl⟩, hp, hleaves, hrefs⟩ := hb
  have hdir : s.dirs (some d) (some p) = some old := dir_of_runnable hstate hold (some d)
  have hnew : s.dirs (some d) none = some d := rfl
  refine (hp.wp_freevm (h := some p) L hdir hkfree).imp (fun _ m ⟨hp', hleaves'⟩ => ?_)
  generalize hs' : ({ s with ram := m, fs := fs, proc := update s.proc p x } : Sys) = s'
  have hproc : s'.proc = update s.proc p x := by rw [← hs']
  have hram : s'.ram = m := by rw [← hs']
  have hxproc : s'.proc p = x := by rw [hproc, update_self]
  have hxdir : x.dir = some d := by
    unfold Process.dir
    rw [hx.1, hstate, hpgdir]
    rfl
  have hdirs' : s'.dirs none (some p) = some d := by
    show (s'.proc p).dir = some d
    rw [hxproc, hxdir]
  obtain ⟨hup, hbyte⟩ := hleaves'.byteAt hp hnew (Option.some_ne_none p).symm
  have hrest : s'.AtRest P := by
    refine of_update (s := s) (p := p) (x := x) h.kept.files (fun q _ => h.size q)
      (fun q _ => h.idle q) hproc hx.2.2 (by rw [← hs']) (by rw [← hs']) hsz.le ?_ ?_
    · rw [hx.1, hx.2.2]
      exact h.idle p
    · have hxstack : x.stack = s.kstacks p := by
        show _ = (s.proc p).stack
        unfold Process.stack
        rw [hx.1, hx.2.1]
      have hfreed : update (s.dirs (some d)) (some p) none (some p) = none :=
        update_self _ _ _
      have hmove := hp'.moveDir (h := none) hfreed
      have hdirs : update (s.dirs none) (some p) (some d)
          = update (update (update (s.dirs (some d)) (some p) none) none
            none) (some p) (some d) := by
        rw [update_comm (Option.some_ne_none p), dirs_new, update_idem]
      rw [hxdir, hxstack, update_eq_self, hdirs, hram]
      exact hmove
  have himage : NewImage p argv s s' d x.sz := by
    refine ⟨by rw [hxproc, hpgdir], by rw [hxproc], haligned, hsz, fun q => ?_, htwo, ?_,
      fun place f hplace hf => ?_, hfits, ?_⟩
    · rw [hram, Ram.mapped_of_dir hnew hdirs' q, ← hspans q]
      have howner := hleaves'.owner (.user none (q / 1024) (q % 1024)) (by nofun)
      rw [← Ram.mapped_eq, ← Ram.mapped_eq] at howner
      rw [howner]
    · rw [hram, hup]
      exact hguard
    · rw [hram]
      have hne : place.holder ≠ some none := by
        rw [hplace]
        nofun
      refine hp.mem_freelist_of_dropped hp' hleaves' hplace ?_
      rw [hleaves.owner place hne, ← dirs_new s none (some d), Ram.owner_update_dirs _ _ hne]
      exact hf
    · obtain ⟨ptrs, hargs⟩ := hargs
      rw [hram, hxproc]
      exact ⟨ptrs, hargs.congr hbyte⟩
  exact .inr ⟨rfl, hrest, by rw [← hs'], by rw [← hs']; exact hrefs, d, x.sz, himage⟩

/-- **The end of `exec`**, with the new directory in hand. -/
theorem wp_execCommit (hstops : ExecStops L P R) (h : s.AtRest P)
    (hstate : (s.proc p).state = .RUNNABLE)
    (hpgdir : (s.proc p).pgdir = none → R (.vm .freevm)) (path : Path)
    (argv : List (List UInt8)) (entry : ℕ) {d : Frame} {sz : ℕ} (hsz : sz < KERNBASE)
    (hb : Building P (s.dirs (some d)) (s.others s.kstacks) ∅ none s s')
    (hspans : s'.ram.Spans (s.dirs (some d)) none sz) :
    wp (execCommit L p path argv entry d sz) (Execed P p argv s) R s' := by
  have hd : s.dirs (some d) none = some d := rfl
  unfold execCommit
  dsimp only
  rw [PGROUNDUP_eq hsz.le, wp_bind, wp_vm]
  -- the sizes are not to be computed
  generalize hg : npages sz = g
  generalize hnewsz : (g * PGSIZE + 2 * PGSIZE) % 2 ^ 32 = newsz
  generalize holdsz : g * PGSIZE = oldsz at hnewsz ⊢
  have hspans₀ : s'.ram.Spans (s.dirs (some d)) none oldsz := by
    intro q
    rw [hspans q, ← holdsz, Ram.npages_mul, hg]
  refine (hb.pages.wp_allocuvm L hd hstops.kfree oldsz newsz
    (fun q hq _ hne => absurd (hspans₀.eq_none hq) hne)).imp (fun r m hpost => ?_)
  obtain ⟨hp₁, hr⟩ := hpost
  have halloc : Building P (s.dirs (some d)) (s.others s.kstacks) ∅ none s { s' with ram := m } := by
    refine hb.trans ?_
    rcases hr with ⟨-, -, hgrown⟩ | ⟨-, rfl | hun⟩
    · exact .of_ram hp₁ hgrown.leaves
    · exact .refl hp₁
    · exact .of_ram hp₁ hun.leaves
  split
  · rw [wp_bind, wp_vm]
    exact (wp_freevm_new hstops.kfree halloc).imp (fun _ m' hb' => .inl ⟨rfl, hb'⟩)
  next hne =>
  obtain ⟨hnew, hmax, hgrown⟩ := hr.resolve_right (fun hzero => hne hzero.1)
  have hmod : newsz = (g + 2) * PGSIZE := by
    rw [← hnewsz, ← holdsz, ← hg]
    simp only [KERNBASE, npages, PGSIZE] at hsz ⊢
    omega
  have hspans₁ := hgrown.spans hspans₀
  rw [Nat.max_eq_right (by rw [hmod, ← holdsz]; exact Nat.mul_le_mul_right _ (by omega))] at hmax hspans₁
  obtain rfl : r = newsz := hmax
  have hguardpage : r - 2 * PGSIZE = g * PGSIZE := by
    rw [hmod, Nat.add_mul, Nat.add_sub_cancel]
  have hk : g < 2 ^ 19 := by
    rw [hmod] at hnew
    simp only [KERNBASE, PGSIZE] at hnew
    omega
  rw [hguardpage, wp_bind, wp_vm]
  refine (hp₁.wp_clearpteu hd hk (fun hnone => ?_)).imp (fun _ m₂ h₂ => ?_)
  · refine absurd hnone ((hspans₁ g).mpr ?_)
    rw [hmod, Ram.npages_mul]
    omega
  obtain ⟨hp₂, hleaves₂, hguard₂⟩ := h₂
  have hspans₂ := hspans₁.congr (fun q => hleaves₂.user q trivial)
  have hclear : Building P (s.dirs (some d)) (s.others s.kstacks) ∅ none s { s' with ram := m₂ } :=
    halloc.trans (.of_ram hp₂ hleaves₂)
  have hguarded : Guarded m₂ d g := by
    intro k hreach
    obtain ⟨f, hf⟩ := Option.ne_none_iff_exists'.mp hreach
    have hmapped := (hp₂.mapped_of_upage hd hf).2
    refine ⟨?_, fun heq => ?_⟩
    · have hlt := (hspans₂ k).mp (by rw [hmapped]; exact Option.some_ne_none f)
      rw [hmod, Ram.npages_mul] at hlt
      exact hlt
    · rw [heq, hguard₂] at hreach
      exact hreach rfl
  rw [wp_bind]
  subst hmod
  refine (wp_execStack (s := { s' with ram := m₂ }) hstops.copyout hd hp₂ hguarded hnew argv).imp
    (fun sp s₃ h₃ => ?_)
  obtain ⟨hpushed, hstack⟩ := h₃
  have hb₃ := hclear.trans hpushed.building
  cases sp with
  | none =>
    dsimp only
    rw [wp_bind, wp_vm]
    exact (wp_freevm_new hstops.kfree hb₃).imp (fun _ m' hb' => .inl ⟨rfl, hb'⟩)
  | some sp =>
    obtain ⟨hfits, hargs⟩ := hstack sp rfl
    obtain ⟨m₃, fs₃, rfl⟩ := hb₃.only
    simp only [wp_bind, wp_get, wp_modify, wp_vm]
    cases hold : (s.proc p).pgdir with
    | none => exact hpgdir hold
    | some old =>
    refine (h.wp_replace hstate hold hstops.kfree hb₃ (x := { s.proc p with
        name := ((path.reverse.takeWhile (· != SLASH)).reverse).take 15
        pgdir := some d
        sz := (g + 2) * PGSIZE
        eip := entry
        esp := sp }) ⟨rfl, rfl, rfl⟩ rfl hnew (Nat.mul_mod_left _ _) ?_ ?_ ?_ hfits hargs).imp
      (fun _ m₄ hexec => hexec)
    · exact hspans₂.congr hpushed.mapped
    · exact Nat.mul_le_mul_right _ (by omega)
    · rw [Nat.mul_div_cancel _ (by decide), Nat.add_sub_cancel, hpushed.upage]
      exact hguard₂

-- from here on the elaborator is not to compute the end of `exec`
attribute [local irreducible] execCommit

/-- **`exec`.** -/
theorem wp_execed (hstops : ExecStops L P R) (h : s.AtRest P)
    (hstate : (s.proc p).state = .RUNNABLE)
    (hpgdir : (s.proc p).pgdir = none → R (.vm .freevm)) (path : Path)
    (argv : List (List UInt8)) :
    wp (exec L p path argv) (Execed P p argv s) R s := by
  unfold exec
  rw [wp_bind]
  refine wp_getCwd hstops.cwd (fun cwd => ?_)
  rw [wp_bind, wp_fsys]
  refine (Fs.wp_refs_namei s.fs cwd path).mono (fun r fs₁ hrefs₁ => ?_) (fun e _ => hstops.fs e)
  cases r with
  | none => exact .inl ⟨rfl, .of_fs h.kept.pages (hrefs₁.trans (add_zero _))⟩
  | some ip =>
  dsimp only
  rw [wp_bind]
  refine wp_fsys_keeps (Fs.keeps_ilock ip) hstops.fs (fun _ fs₂ hrefs₂ => ?_)
  rw [wp_bind]
  refine wp_fsys_keeps (Fs.keeps_readi ip _ _) hstops.fs (fun elf fs₃ hrefs₃ => ?_)
  dsimp only
  have hrefs : fs₃.refs = s.fs.refs + Fs.held (some ip) := hrefs₃.trans (hrefs₂.trans hrefs₁)
  have h₃ := h.fs fs₃
  -- the reference is given back on every way out
  have hput : ∀ {s₄ : Sys} {x : SysM ℤ} {D : Option Slot → Option Frame},
      Building P D (s.others s.kstacks) ∅ none { s with fs := fs₃ } s₄ →
      (∀ s₅, Building P D (s.others s.kstacks) ∅ none s s₅ →
        s₅.ram = s₄.ram → wp x (Execed P p argv s) R s₅) →
      wp (fsys (Fs.iunlockput ip) >>= fun _ => x) (Execed P p argv s) R s₄ := by
    intro s₄ x D hb hx
    rw [wp_bind, wp_fsys]
    refine (Fs.wp_refs_iunlockput s₄.fs ip).mono (fun _ fs₅ hrefs₅ => ?_) (fun e _ => hstops.fs e)
    refine hx _ ⟨?_, hb.pages, hb.leaves, ?_⟩ rfl
    · exact (OnlyMem.fs fs₃).trans (hb.only.trans (.fs fs₅))
    · rw [hb.refs, hrefs] at hrefs₅
      exact add_right_cancel hrefs₅
  have hpages : Ram.Pages P (s.dirs none) (s.others s.kstacks) ∅ s.ram := h.kept.pages
  split
  · exact hput (.refl hpages) (fun s₅ hb _ => .inl ⟨rfl, hb⟩)
  rw [wp_bind, wp_vm]
  refine (hpages.wp_setupkvm (h := none) L hstops.kfree hstops.phystop rfl).imp
    (fun d m ⟨hleaves, hsetup⟩ => ?_)
  rcases hsetup with ⟨rfl, hp⟩ | ⟨d, rfl, hp, hempty⟩
  · exact hput (.of_ram hp hleaves) (fun s₅ hb _ => .inl ⟨rfl, hb⟩)
  dsimp only
  rw [dirs_new] at hp hempty
  rw [← dirs_new s none none] at hleaves
  have hleaves := hleaves.of_dirs (some d)
  rw [dirs_new] at hleaves
  have hsetup : Building P (s.dirs (some d)) (s.others s.kstacks) ∅ none { s with fs := fs₃ }
      { s with fs := fs₃, ram := m } := .of_ram hp hleaves
  refine (wp_execSegments (s := { s with fs := fs₃, ram := m }) (D := s.dirs (some d)) (h := none) L
    hstops.fs hstops.kfree rfl ip _ _ 0 (by decide) hp (.zero hempty)).bind (fun r s₄ ⟨hseg, hsz⟩ => ?_)
  have hb₄ := hsetup.trans hseg
  cases r with
  | none =>
    dsimp only
    rw [wp_bind, wp_vm]
    refine (wp_freevm_new (s := { s with fs := fs₃ }) hstops.kfree hb₄).imp (fun _ m' hb' => ?_)
    exact hput hb' (fun s₅ hb _ => .inl ⟨rfl, hb⟩)
  | some sz =>
    obtain ⟨hlt, hspans⟩ := hsz sz rfl
    refine hput hb₄ (fun s₅ hb hram => ?_)
    exact h.wp_execCommit hstops hstate hpgdir path argv _ hlt hb (hram ▸ hspans)

/-- `exec` keeps what holds between calls. -/
theorem wp_exec (L : MemLayout) (h : s.AtRest P) (hstate : (s.proc p).state = .RUNNABLE) (path : Path)
    (argv : List (List UInt8)) :
    wp (exec L p path argv) (fun _ s' => s'.AtRest P ∧ s'.file = s.file) NoFilePanic s := by
  have hstops : ExecStops L P NoFilePanic :=
    ⟨noFilePanic_fs, noFilePanic_null, noFilePanic_vm _, fun _ _ _ => noFilePanic_vm _, fun _ => noFilePanic_vm _⟩
  refine (h.wp_execed hstops hstate (fun _ => noFilePanic_vm _) path argv).imp (fun r s' hexec => ?_)
  rcases hexec with ⟨-, hb⟩ | ⟨-, hrest, hfile, -⟩
  · exact h.building hb
  · exact ⟨hrest, hfile⟩

end AtRest

end Sys

end Xv6
