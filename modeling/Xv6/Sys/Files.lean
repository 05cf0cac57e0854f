import Xv6.Lib.Refs
import Xv6.Sys.Calls
import Xv6.Vm.UserPages

/-!
# Files, pipes and their pages

What holds between the descriptors, the file table, the pipes and memory:
reference counts are exact, a pipe has one file per end and is open at an end as
long as the end has its file, and the page of a pipe is in use as long as one
end has. The specifications here say what each function of `file.c` does to
this, and to the references that its caller holds and that are in no descriptor.
-/

namespace Xv6

open Function

open Wp

/-- The pipe and the end of it that a file refers to. -/
def File.pipeEnd (x : File) : Option (Frame × Bool) :=
  if x.type = .FD_PIPE then x.pipe.map (fun p => (p, x.writable)) else none

/-- `readopen` and `writeopen`, by the end. -/
def Pipe.isOpen (x : Pipe) (writable : Bool) : Bool := if writable then x.writeopen else x.readopen

namespace Sys

variable {A : Type} {s s' : Sys} {R : SysHalt → Prop}

/-! ## Rules -/

variable {Q : A → Sys → Prop}

@[simp] theorem wp_vm {x : VmM A} :
    wp (vm x) Q R s ↔ wp x (fun a m => Q a { s with ram := m }) (fun e => R (.vm e)) s.ram := by
  unfold wp vm
  cases x s.ram <;> rfl

@[simp] theorem wp_fsys {x : FsM A} :
    wp (fsys x) Q R s ↔ wp x (fun a fs => Q a { s with fs := fs }) (fun e => R (.fs e)) s.fs := by
  unfold wp fsys
  cases x s.fs <;> rfl

/-- Whatever the file system does. -/
theorem wp_fsys_of_forall {x : FsM A} (hR : ∀ e, R (.fs e)) (hQ : ∀ a fs, Q a { s with fs := fs }) :
    wp (fsys x) Q R s :=
  wp_fsys.mpr (wp_of_run (fun a fs _ => hQ a fs) (fun e _ => hR e))

theorem wp_deref {v : Option A} (hR : R .null) (hQ : ∀ a, v = some a → Q a s) :
    wp (deref v) Q R s := by
  cases v with
  | none => exact hR
  | some a => exact hQ a rfl

theorem wp_deref_some {v : Option A} {a : A} (hv : v = some a) (hQ : Q a s) :
    wp (deref v) Q R s := by
  rw [hv]
  exact hQ

theorem wp_getCwd {p : Slot} {Q : Ip → Sys → Prop} (hR : R .null) (hQ : ∀ ip, Q ip s) :
    wp (getCwd p) Q R s := by
  unfold getCwd
  rw [wp_bind, wp_get]
  exact wp_deref hR (fun ip _ => hQ ip)

/-! ## Descriptors and ends -/

/-- The descriptors of all processes. -/
def fds (s : Sys) : Slot × Fd → Option Fp := fun q => (s.proc q.1).ofile q.2

/-- The ends of pipes that the files refer to. -/
def ends (s : Sys) : Fp → Option (Frame × Bool) := fun f => (s.file f).pipeEnd

/-- A pipe that a file refers to. -/
def IsPipe (s : Sys) (x : Frame) : Prop := ∃ f w, s.ends f = some (x, w)

instance (s : Sys) (x : Frame) : Decidable (s.IsPipe x) :=
  inferInstanceAs (Decidable (∃ f w, s.ends f = some (x, w)))

/-- The counters of the files. -/
def refs (s : Sys) : Fp → ℤ := fun f => (s.file f).ref

/-- The pages that are kernel stacks or pipes. -/
def others (s : Sys) (kstacks : Slot → Option Frame) : Slot ⊕ Frame → Option Frame
  | .inl p => kstacks p
  | .inr x => if s.IsPipe x then some x else none

theorem fds_setFd (p : Slot) (fd : Fd) (f : Option Fp) (s : Sys) :
    (setFd p fd f s).fds = update s.fds (p, fd) f := by
  funext ⟨q, fd'⟩
  show (update s.proc p { s.proc p with ofile := update (s.proc p).ofile fd f } q).ofile fd' = _
  rw [update_apply, update_apply]
  split <;> grind [fds, update_apply]

theorem refs_setFile (f : Fp) (x : File → File) (s : Sys) :
    (setFile f x s).refs = update s.refs f (x (s.file f)).ref := by
  refine Function.eq_update_iff.mpr ⟨?_, fun g hg => ?_⟩
  · exact congrArg File.ref (update_self f _ s.file)
  · exact congrArg File.ref (update_of_ne hg _ s.file)

theorem ends_setFile (f : Fp) (x : File → File) (s : Sys) :
    (setFile f x s).ends = update s.ends f (x (s.file f)).pipeEnd := by
  refine Function.eq_update_iff.mpr ⟨?_, fun g hg => ?_⟩
  · exact congrArg File.pipeEnd (update_self f _ s.file)
  · exact congrArg File.pipeEnd (update_of_ne hg _ s.file)

/-- The end of the file that changes is the same. -/
theorem ends_setFile_of_eq {f : Fp} {x : File → File} (h : (x (s.file f)).pipeEnd = s.ends f) :
    (setFile f x s).ends = s.ends := by
  rw [ends_setFile, h, update_eq_self]

theorem isPipe_congr (h : s'.ends = s.ends) (x : Frame) : s'.IsPipe x ↔ s.IsPipe x := by
  unfold IsPipe
  rw [h]

theorem others_congr (h : s'.ends = s.ends) (kstacks : Slot → Option Frame) :
    s'.others kstacks = s.others kstacks := by
  funext place
  cases place with
  | inl p => rfl
  | inr x => simp only [others, isPipe_congr h]

theorem others_of_isPipe {x : Frame} (h : s.IsPipe x) (kstacks : Slot → Option Frame) :
    s.others kstacks (.inr x) = some x := by
  simp only [others, h, if_true]

theorem others_of_not_isPipe {x : Frame} (h : ¬ s.IsPipe x) (kstacks : Slot → Option Frame) :
    s.others kstacks (.inr x) = none := by
  simp only [others, h, if_false]

theorem pipeEnd_of_type {x : File} (h : x.type ≠ .FD_PIPE) : x.pipeEnd = none := if_neg h

/-- **What holds of the open files**, while the caller holds `extra` references
that are in no descriptor. -/
structure Files (extra : Fp → ℤ) (s : Sys) : Prop where
  exact : Refs.Exact s.fds extra s.refs
  type_of_ref : ∀ f, (s.file f).ref = 0 → (s.file f).type = .FD_NONE
  end_unique : ∀ {f g e}, s.ends f = some e → s.ends g = some e → f = g
  open_iff : ∀ {x}, s.IsPipe x → ∀ w, (s.pipe x).isOpen w = true ↔ ∃ f, s.ends f = some (x, w)

variable {extra : Fp → ℤ}

/-- What does not concern files. -/
theorem Files.congr (h : s.Files extra) (hfds : s'.fds = s.fds) (hfile : s'.file = s.file)
    (hpipe : s'.pipe = s.pipe) : s'.Files extra := by
  have hrefs : s'.refs = s.refs := by
    unfold refs
    rw [hfile]
  have hends : s'.ends = s.ends := by
    unfold ends
    rw [hfile]
  refine ⟨?_, ?_, ?_, fun {x} hx => ?_⟩
  · rw [hfds, hrefs]
    exact h.exact
  · rw [hfile]
    exact h.type_of_ref
  · rw [hends]
    exact h.end_unique
  · rw [hends, hpipe]
    exact h.open_iff ((isPipe_congr hends x).mp hx)

theorem Files.ram (h : s.Files extra) (m : Ram) : Files extra { s with ram := m } :=
  h.congr rfl rfl rfl

/-- Every pipe is still one that a file refers to, or its page has been freed. -/
def Freed (s s' : Sys) : Prop := ∀ x, s.IsPipe x → s'.IsPipe x ∨ x ∈ s'.ram.freelist

/-- Pipes may have been closed and pages freed, but nothing else. -/
structure Closes (s s' : Sys) : Prop where
  proc : s'.proc = s.proc
  initproc : s'.initproc = s.initproc
  freed : Freed s s'
  free : ∀ x ∈ s.ram.freelist, x ∈ s'.ram.freelist

theorem Freed.of_ends (h : s'.ends = s.ends) : Freed s s' :=
  fun x hx => .inl ((isPipe_congr h x).mpr hx)

/-- Pipes are made or kept first, and closed then. -/
theorem Freed.of_ends_trans {s'' : Sys} (h' : Freed s' s'') (h : s'.ends = s.ends) : Freed s s'' :=
  fun x hx => h' x ((isPipe_congr h x).mpr hx)

/-- Pages that are free stay so. -/
theorem Freed.trans {s'' : Sys} (h : Freed s s') (h' : Freed s' s'')
    (hfree : ∀ x ∈ s'.ram.freelist, x ∈ s''.ram.freelist) : Freed s s'' :=
  fun x hx => (h x hx).elim (h' x) (fun hx => .inr (hfree x hx))

/-- **What holds of the open files and of memory**: who holds the page
directories and the kernel stacks does not matter here. -/
structure Kept {H : Type} (P : Set Frame) (dirs : H → Option Frame) (kstacks : Slot → Option Frame)
    (held : Set Frame) (extra : Fp → ℤ) (s : Sys) : Prop where
  files : s.Files extra
  pages : s.ram.Pages P dirs (s.others kstacks) held

/-- **`filealloc`** finds a file without references. -/
theorem wp_filealloc {Q : Option Fp → Sys → Prop} (hnone : (∀ f, (s.file f).ref ≠ 0) → Q none s)
    (hsome : ∀ f, (s.file f).ref = 0 → Q (some f) (setFile f (fun x => { x with ref := 1 }) s)) :
    wp filealloc Q R s := by
  unfold filealloc
  rw [wp_bind, wp_get]
  split
  · next hfind =>
    refine hnone (fun f hf => ?_)
    exact List.find?_eq_none.mp hfind f (List.mem_finRange f) (decide_eq_true hf)
  · next f hfind =>
    have hf : (s.file f).ref = 0 := by simpa using List.find?_some hfind
    exact hsome f hf

/-- The file that `filealloc` finds is no end of a pipe. -/
theorem Files.ends_of_ref (h : s.Files extra) {f : Fp} (hf : (s.file f).ref = 0) :
    s.ends f = none :=
  pipeEnd_of_type (by rw [h.type_of_ref f hf]; decide)

namespace Kept

variable {H : Type} {P held : Set Frame} {dirs : H → Option Frame} {kstacks : Slot → Option Frame}
  {extra extra' : Fp → ℤ} {f : Fp} {p : Slot} {fd : Fd}

variable (h : s.Kept P dirs kstacks held extra)

include h

/-- The counters and the descriptors change, but not what the files are. -/
theorem recount (hexact : Refs.Exact s'.fds extra' s'.refs)
    (htype : ∀ f, (s'.file f).ref = 0 → (s'.file f).type = .FD_NONE) (hends : s'.ends = s.ends)
    (hpipe : s'.pipe = s.pipe) (hram : s'.ram = s.ram) : s'.Kept P dirs kstacks held extra' where
  files := {
    exact := hexact
    type_of_ref := htype
    end_unique := by
      rw [hends]
      exact h.files.end_unique
    open_iff := fun {x} hx => by
      rw [hends, hpipe]
      exact h.files.open_iff ((isPipe_congr hends x).mp hx) }
  pages := by
    rw [others_congr hends, hram]
    exact h.pages

/-- What does not concern files. -/
theorem congr (hfds : s'.fds = s.fds)
    (hfile : s'.file = s.file) (hpipe : s'.pipe = s.pipe) (hram : s'.ram = s.ram) :
    s'.Kept P dirs kstacks held extra where
  files := h.files.congr hfds hfile hpipe
  pages := by
    have hends : s'.ends = s.ends := by
      unfold ends
      rw [hfile]
    rw [others_congr hends, hram]
    exact h.pages

/-- One counter changes. -/
theorem setRef {n : ℤ} {x : File → File}
    (href : (x (s.file f)).ref = (s.file f).ref + n)
    (htype : (x (s.file f)).ref = 0 → (x (s.file f)).type = .FD_NONE)
    (hend : (x (s.file f)).pipeEnd = s.ends f) :
    (setFile f x s).Kept P dirs kstacks held (extra + Pi.single f n) := by
  have hrefs := refs_setFile f x s
  refine h.recount (h.files.exact.gain ?_ (fun g hg => ?_)) (fun g hg => ?_) (ends_setFile_of_eq hend)
    rfl rfl
  · rw [hrefs, update_self]
    exact href
  · rw [hrefs, update_of_ne hg]
  · have hfile : (setFile f x s).file g = if g = f then x (s.file f) else s.file g := update_apply ..
    have hold := h.files.type_of_ref g
    grind

/-- A reference is stored in a descriptor. -/
theorem storeFd (hfd : (s.proc p).ofile fd = none) (f : Fp) :
    (setFd p fd (some f) s).Kept P dirs kstacks held (extra - Pi.single f 1) := by
  refine h.recount ?_ h.files.type_of_ref rfl rfl rfl
  rw [fds_setFd]
  exact h.files.exact.store (q := (p, fd)) hfd f

/-- A descriptor is cleared. -/
theorem clearFd (hfd : (s.proc p).ofile fd = some f) :
    (setFd p fd none s).Kept P dirs kstacks held (extra + Pi.single f 1) := by
  refine h.recount ?_ h.files.type_of_ref rfl rfl rfl
  rw [fds_setFd]
  exact h.files.exact.clear (q := (p, fd)) hfd

/-- A file with a descriptor is referred to. -/
theorem ref_pos (hfd : (s.proc p).ofile fd = some f)
    (hf : 0 ≤ extra f) : 1 ≤ (s.file f).ref :=
  h.files.exact.pos (q := (p, fd)) hfd hf

/-- A reference that is held is counted. -/
theorem ref_pos_of_extra (hf : 1 ≤ extra f) :
    1 ≤ (s.file f).ref := by
  have href : s.refs f = Refs.count s.fds f + extra f := h.files.exact f
  show 1 ≤ s.refs f
  omega

variable {x : Frame}

/-- A page that is held is no pipe. -/
theorem not_isPipe_of_held (hx : x ∈ held) :
    ¬ s.IsPipe x := by
  intro hpipe
  have howner : s.ram.owner dirs (s.others kstacks) (.other (.inr x)) = some x :=
    others_of_isPipe hpipe kstacks
  exact h.pages.ledger.apart howner hx

/-! ## `file.c` -/

/-- The file that `filealloc` finds. -/
theorem newFile (hf : (s.file f).ref = 0) :
    (setFile f (fun x => { x with ref := 1 }) s).Kept P dirs kstacks held (extra + Pi.single f 1) := by
  refine h.setRef (by rw [hf]; rfl) nofun ?_
  have htype := h.files.type_of_ref f hf
  rw [h.files.ends_of_ref hf]
  exact pipeEnd_of_type (by rw [htype]; decide)

/-- **`filedup`** of a file that is referred to does not panic. -/
theorem wp_filedup (hf : 1 ≤ (s.file f).ref) :
    wp (filedup f) (fun _ s' => s'.proc = s.proc ∧ s'.initproc = s.initproc ∧ s'.ends = s.ends ∧
      s'.Kept P dirs kstacks held (extra + Pi.single f 1)) R s := by
  unfold filedup
  rw [wp_bind, wp_get, if_neg (by omega)]
  refine ⟨rfl, rfl, ends_setFile_of_eq rfl, h.setRef rfl (fun hzero => ?_) rfl⟩
  have hzero : (s.file f).ref + 1 = 0 := hzero
  omega

omit h in
theorem ends_dropFile (hend : s.ends f = none) :
    (setFile f (fun x => { x with ref := 0, type := .FD_NONE }) s).ends = s.ends := by
  refine ends_setFile_of_eq ?_
  rw [hend]
  exact pipeEnd_of_type nofun

/-- The last reference to a file that is no pipe goes. -/
theorem dropFile (hf : (s.file f).ref = 1)
    (hend : s.ends f = none) :
    (setFile f (fun x => { x with ref := 0, type := .FD_NONE }) s).Kept P dirs kstacks held
      (extra - Pi.single f 1) := by
  rw [sub_eq_add_neg, ← Pi.single_neg]
  refine h.setRef (by rw [hf]; rfl) (fun _ => rfl) ?_
  rw [hend]
  exact pipeEnd_of_type nofun

/-- The last reference to an end of a pipe goes, and the end is closed. -/
theorem dropEnd (hf : (s.file f).ref = 1) {w : Bool}
    (hend : s.ends f = some (x, w)) {y : Pipe} (hclosed : y.isOpen w = false)
    (hsame : y.isOpen (!w) = (s.pipe x).isOpen (!w)) (s' : Sys)
    (hs' : s' = setPipe x (fun _ => y) (setFile f (fun x => { x with ref := 0, type := .FD_NONE }) s)) :
    s'.Files (extra - Pi.single f 1) ∧ (s'.IsPipe x ↔ y.isOpen (!w) = true) ∧
      ∀ z, z ≠ x → (s'.IsPipe z ↔ s.IsPipe z) := by
  have hends : ∀ g, s'.ends g = if g = f then none else s.ends g := by
    intro g
    rw [hs']
    exact (congrFun (ends_setFile f (fun x => { x with ref := 0, type := .FD_NONE }) s) g).trans
      (update_apply ..)
  have hiff : ∀ g e, s'.ends g = some e ↔ s.ends g = some e ∧ g ≠ f := by grind
  have hunique : ∀ g, s.ends g = some (x, w) → g = f := fun g hg => h.files.end_unique hg hend
  -- the other end is as it was
  have hother : y.isOpen (!w) = true ↔ ∃ g, s'.ends g = some (x, !w) := by
    rw [hsame, h.files.open_iff ⟨f, w, hend⟩]
    exact exists_congr (fun g => by cases w <;> grind)
  have hnoend : ¬ ∃ g, s'.ends g = some (x, w) := by grind
  have hpipe : s'.IsPipe x ↔ y.isOpen (!w) = true := by
    rw [hother]
    refine ⟨?_, fun ⟨g, hg⟩ => ⟨g, _, hg⟩⟩
    rintro ⟨g, v, hg⟩
    rcases Bool.eq_or_eq_not v w with rfl | rfl
    · exact absurd ⟨g, hg⟩ hnoend
    · exact ⟨g, hg⟩
  have hne : ∀ z v g, z ≠ x → (s'.ends g = some (z, v) ↔ s.ends g = some (z, v)) := by grind
  have hisPipe' : ∀ z, z ≠ x → (s'.IsPipe z ↔ s.IsPipe z) := by
    intro z hz
    exact exists_congr (fun g => exists_congr (fun v => hne z v g hz))
  refine ⟨⟨?_, ?_, ?_, ?_⟩, hpipe, hisPipe'⟩
  · have hfds : s'.fds = s.fds := by rw [hs']; rfl
    have hrefs : s'.refs = update s.refs f 0 := by
      rw [hs']
      exact refs_setFile f (fun x => { x with ref := 0, type := .FD_NONE }) s
    rw [hfds]
    refine h.files.exact.lose ?_ (fun g hg => ?_)
    · rw [hrefs, update_self]
      show 0 = (s.file f).ref - 1
      rw [hf]
      rfl
    · rw [hrefs, update_of_ne hg]
  · intro g hg
    have hfile : s'.file = update s.file f { s.file f with ref := 0, type := .FD_NONE } := by
      rw [hs']
      rfl
    have hold := h.files.type_of_ref g
    rw [hfile] at hg ⊢
    grind [update_apply]
  · intro g g' e hg hg'
    exact h.files.end_unique ((hiff g e).mp hg).1 ((hiff g' e).mp hg').1
  · intro z hz v
    have hpipes : s'.pipe = update s.pipe x y := by
      rw [hs']
      rfl
    rw [hpipes]
    by_cases hzx : z = x
    · subst hzx
      rw [update_self]
      rcases Bool.eq_or_eq_not v w with rfl | rfl
      · rw [hclosed]
        exact ⟨nofun, fun hg => absurd hg hnoend⟩
      · exact hother
    · rw [update_of_ne hzx, h.files.open_iff ((hisPipe' z hzx).mp hz)]
      exact exists_congr (fun g => (hne z v g hzx).symm)

/-- **`pipeclose`**, for the file whose last reference has gone: the page is
freed if the other end is closed. -/
theorem wp_pipeclose (L : MemLayout)
    (hf : (s.file f).ref = 1) {w : Bool} (hend : s.ends f = some (x, w)) (hR : ∀ e, R (.vm e)) :
    wp (pipeclose L x w) (fun _ s' => Closes s s' ∧
      s'.Kept P dirs kstacks held (extra - Pi.single f 1)) R
      (setFile f (fun x => { x with ref := 0, type := .FD_NONE }) s) := by
  obtain ⟨y, hclosed, hsame, hrun⟩ : ∃ y : Pipe, y.isOpen w = false ∧
      y.isOpen (!w) = (s.pipe x).isOpen (!w) ∧
      ∀ Q : PUnit → Sys → Prop, wp (pipeclose L x w) Q R
        (setFile f (fun x => { x with ref := 0, type := .FD_NONE }) s) ↔
        wp (if y.readopen = false ∧ y.writeopen = false then vm (Ram.kfree L x) else pure ⟨⟩) Q R
          (setPipe x (fun _ => y) (setFile f (fun x => { x with ref := 0, type := .FD_NONE }) s)) := by
    cases w with
    | false =>
      refine ⟨{ s.pipe x with readopen := false }, rfl, rfl, fun Q => ?_⟩
      unfold pipeclose
      simp only [Bool.false_eq_true, if_false, wp_bind, wp_modify, wp_get]
      simp only [setPipe, setFile, update_self]
    | true =>
      refine ⟨{ s.pipe x with writeopen := false }, rfl, rfl, fun Q => ?_⟩
      unfold pipeclose
      simp only [if_true, wp_bind, wp_modify, wp_get]
      simp only [setPipe, setFile, update_self]
  obtain ⟨hfiles, hpipe, hrest⟩ := h.dropEnd hf hend hclosed hsame _ rfl
  rw [hrun]
  generalize hs' : setPipe x (fun _ => y) _ = s' at hfiles hpipe hrest ⊢
  have hproc : s'.proc = s.proc := by rw [← hs']; rfl
  have hinit : s'.initproc = s.initproc := by rw [← hs']; rfl
  have hram : s'.ram = s.ram := by rw [← hs']; rfl
  have hboth : y.readopen = false ∧ y.writeopen = false ↔ ¬ s'.IsPipe x := by
    rw [hpipe, Bool.not_eq_true]
    cases w with
    | false => exact and_iff_right hclosed
    | true => exact and_iff_left hclosed
  split
  · next hyes =>
    have hno := hboth.mp hyes
    have hothers : s'.others kstacks = update (s.others kstacks) (.inr x) none := by
      refine Function.eq_update_iff.mpr ⟨others_of_not_isPipe hno kstacks, fun place hne => ?_⟩
      cases place with
      | inl q => rfl
      | inr z => simp only [others, hrest z (fun hz => hne (congrArg Sum.inr hz))]
    have hx : s.others kstacks (.inr x) = some x := others_of_isPipe ⟨f, w, hend⟩ kstacks
    have hheld : x ∉ held := fun hx => h.not_isPipe_of_held hx ⟨f, w, hend⟩
    have hpages := (h.pages.giveUp hx).release (Set.mem_insert x held) (fun _ _ => 1)
    rw [Set.insert_sdiff_self_of_notMem hheld, ← hothers] at hpages
    rw [wp_vm, hram]
    refine Ram.wp_kfree L (fun _ => hR _) ⟨⟨hproc, hinit, fun z hz => ?_, fun z hz => ?_⟩, hfiles.ram _, hpages⟩
    · by_cases hzx : z = x
      · exact .inr (hzx ▸ List.mem_cons_self)
      · exact .inl ((hrest z hzx).mpr hz)
    · exact List.mem_cons_of_mem x hz
  · next hno =>
    have hyes : s'.IsPipe x := by
      by_contra hnot
      exact hno (hboth.mpr hnot)
    have hothers : s'.others kstacks = s.others kstacks := by
      funext place
      cases place with
      | inl q => rfl
      | inr z =>
        by_cases hz : z = x
        · rw [hz, others_of_isPipe hyes, others_of_isPipe ⟨f, w, hend⟩]
        · simp only [others, hrest z hz]
    refine ⟨⟨hproc, hinit, fun z hz => .inl ?_, fun z hz => ?_⟩, hfiles, ?_⟩
    · by_cases hzx : z = x
      · exact hzx ▸ hyes
      · exact (hrest z hzx).mpr hz
    · rw [hram]
      exact hz
    · rw [hothers, hram]
      exact h.pages

/-- **`fileclose`** of a file that is referred to does not panic, and drops the
reference. -/
theorem wp_fileclose (L : MemLayout)
    (hf : 1 ≤ (s.file f).ref) (hvm : ∀ e, R (.vm e)) (hfs : ∀ e, R (.fs e)) (hnull : R .null) :
    wp (fileclose L f) (fun _ s' => Closes s s' ∧
      s'.Kept P dirs kstacks held (extra - Pi.single f 1)) R s := by
  unfold fileclose
  rw [wp_bind, wp_get]
  dsimp only
  rw [if_neg (by omega)]
  split
  · next hmore =>
    refine ⟨⟨rfl, rfl, .of_ends (ends_setFile_of_eq rfl), fun _ hx => hx⟩, ?_⟩
    rw [sub_eq_add_neg, ← Pi.single_neg]
    refine h.setRef rfl (fun hzero => ?_) rfl
    have hzero : (s.file f).ref - 1 = 0 := hzero
    omega
  · next hlast =>
    have hone : (s.file f).ref = 1 := by omega
    rw [wp_bind, wp_modify]
    unfold fileput
    split
    · next htype =>
      rw [wp_bind]
      refine wp_deref hnull (fun x hx => ?_)
      refine h.wp_pipeclose L hone ?_ hvm
      unfold ends File.pipeEnd
      rw [if_pos htype, hx]
      rfl
    · next htype =>
      have hend : s.ends f = none := pipeEnd_of_type (by rw [htype]; decide)
      rw [wp_bind]
      refine wp_deref hnull (fun ip _ => wp_fsys_of_forall hfs (fun _ fs => ⟨?_, ?_⟩))
      · exact ⟨rfl, rfl, .of_ends (ends_dropFile hend), fun _ hx => hx⟩
      · exact (h.dropFile hone hend).congr rfl rfl rfl rfl
    · next htype =>
      have hend : s.ends f = none := pipeEnd_of_type (by rw [htype]; decide)
      exact ⟨⟨rfl, rfl, .of_ends (ends_dropFile hend), fun _ hx => hx⟩, h.dropFile hone hend⟩

end Kept

end Sys

end Xv6
