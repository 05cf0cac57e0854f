import Xv6.Log.Commit
import Xv6.Fs.Logged
import Xv6.Fs.Names

/-!
# Operations fit their place in the log

`begin_op` sets `MAXOPBLOCKS` blocks of the log aside for an operation. An operation works
on at most two inodes, and of those it logs the blocks of the dinodes, the free map, and
what it writes to directories and files. A lookup logs nothing, however long the path,
because it frees no inode.
-/

namespace Xv6

open Wp

/-! ## The operations -/

/-- `max` in `filewrite`: the bytes of one chunk. -/
def filewriteMax : ℕ := ((MAXOPBLOCKS - 1 - 1 - 2) / 2) * 512

/-- **What stands between `begin_op` and `end_op`**: a chunk of `filewrite`, which has `i` of
the bytes behind it; `open`, which finds a place in the tables or not; the other calls on
paths; and the `iput` of `fileclose` and of `exit`. Of `exec` the reads of the headers and
the segments are given. -/
inductive FsOp
  | filewrite (ip : Ip) (src : List UInt8) (i : ℕ) (off : UInt32)
  | open (cwd : Ip) (path : Path) (omode : ℕ) (room : Bool)
  | mkdir (cwd : Ip) (path : Path)
  | mknod (cwd : Ip) (path : Path) (major minor : Int16)
  | link (cwd : Ip) (old new : Path)
  | unlink (cwd : Ip) (path : Path)
  | chdir (cwd : Ip) (path : Path)
  | exec (cwd : Ip) (path : Path) (reads : List (UInt32 × UInt32))
  | iput (ip : Ip)

namespace FsOp

/-- The inode of the operation: the caller has a reference to it. -/
def inode : FsOp → Ip
  | filewrite ip _ _ _ | iput ip => ip
  | .open cwd _ _ _ | mkdir cwd _ | mknod cwd _ _ _ | link cwd _ _ | unlink cwd _ | chdir cwd _
  | exec cwd _ _ => cwd

/-- What the operation does. -/
def run : FsOp → FsM PUnit
  | filewrite ip src i off => do
    Fs.ilock ip
    let _ ← Fs.writei ip ((src.drop i).take (min (src.length - i) filewriteMax)) off.toNat
    Fs.iunlock ip
  | .open cwd path omode room => do
    match ← Fs.openInode cwd path omode with
    | none => pure ⟨⟩
    | some ip => if room then Fs.iunlock ip else Fs.iunlockput ip
  | mkdir cwd path => do
    let _ ← Fs.sysMkdir cwd path
  | mknod cwd path major minor => do
    let _ ← Fs.sysMknod cwd path major minor
  | link cwd old new => do
    let _ ← Fs.sysLink cwd old new
  | unlink cwd path => do
    let _ ← Fs.sysUnlink cwd path
  | chdir cwd path => do
    let _ ← Fs.sysChdir cwd path
  | exec cwd path reads => do
    match ← Fs.namei cwd path with
    | none => pure ⟨⟩
    | some ip => do
      Fs.ilock ip
      reads.forM (fun r => do
        let _ ← Fs.readi ip r.1.toNat r.2.toNat)
      Fs.iunlockput ip
  | iput ip => Fs.iput ip

end FsOp

namespace Fs

variable {s : Fs} {ip dp cwd : Ip}

/-- The blocks that come up in an operation on two inodes. -/
def commons (s : Fs) (j k : ℕ) : Set ℕ := {s.sb.bmapstart, s.sb.iblock j, s.sb.iblock k}

/-- **An operation on two inodes**, both of them locked, so far. -/
structure OnBoth (s : Fs) (n : ℕ) (dp ip : Ip) (j k : ℕ) (t : Fs) : Prop where
  step : Step (s.commons j k) n s t
  parent : (t.icache dp).locked = true ∧ (t.icache dp).inum = j
  child : (t.icache ip).locked = true ∧ (t.icache ip).inum = k

namespace OnBoth

variable {n m j k : ℕ} {t t' : Fs}

variable (h : OnBoth s n dp ip j k t)

include h

theorem common_parent : t.common dp ⊆ s.commons j k := by
  unfold common
  rw [h.step.sb, h.parent.2]
  exact Set.insert_subset_insert (Set.singleton_subset_iff.mpr (.inl rfl))

theorem common_child : t.common ip ⊆ s.commons j k := by
  unfold common
  rw [h.step.sb, h.child.2]
  exact Set.insert_subset_insert (Set.singleton_subset_iff.mpr (.inr rfl))

theorem next {M : Set ℕ} (h' : Step M m t t') (hM : M ⊆ s.commons j k) :
    OnBoth s (n + m) dp ip j k t' := by
  obtain ⟨hdp, hj⟩ := h'.locks dp h.parent.1
  obtain ⟨hip, hk⟩ := h'.locks ip h.child.1
  exact ⟨h.step.trans (h'.mono hM le_rfl), ⟨hdp, hj.trans h.parent.2⟩, ⟨hip, hk.trans h.child.2⟩⟩

/-- The links of one of the inodes change. -/
theorem wp_addLinks_parent (x : Int16) :
    wp (addLinks dp x) (fun _ t' => OnBoth s n dp ip j k t') (fun _ => True) t :=
  (wp_addLinks_step h.step.consistent h.parent.1 x).imp (fun _ _ h' => h.next h' h.common_parent)

/-- An entry is written to one of the inodes. -/
theorem wp_dirlink_parent (hsize : s.sb.size ≤ BPB) (name : ℕ → UInt8) (inum : ℕ) :
    wp (dirlink dp name inum) (fun _ t' => OnBoth s (n + 2) dp ip j k t') (fun _ => True) t :=
  (wp_dirlink_step h.step.consistent h.parent.1 (by rw [h.step.sb]; exact hsize) name inum).imp
    (fun _ _ h' => h.next h' h.common_parent)

theorem wp_dirlink_child (hsize : s.sb.size ≤ BPB) (name : ℕ → UInt8) (inum : ℕ) :
    wp (dirlink ip name inum) (fun _ t' => OnBoth s (n + 2) dp ip j k t') (fun _ => True) t :=
  (wp_dirlink_step h.step.consistent h.child.1 (by rw [h.step.sb]; exact hsize) name inum).imp
    (fun _ _ h' => h.next h' h.common_child)

end OnBoth

/-- What `create` has logged, if it returns an inode. -/
structure Created (s : Fs) (ip : Ip) (s' : Fs) : Prop where
  consistent : s'.Consistent
  sb : s'.sb = s.sb
  locked : (s'.icache ip).locked = true
  touched : ∃ j, Touched (s.commons j (s'.icache ip).inum) 6 s.logged s'.logged

/-- **`create` of a new name**: three entries at most, and two dinodes. -/
theorem wp_createNew_touched (h : s.Consistent) (hl : (s.icache dp).locked = true)
    (hsize : s.sb.size ≤ BPB) (name : ℕ → UInt8) (type major minor : Int16) :
    wp (createNew dp name type major minor) (fun ip s' => Created s ip s') (fun _ => True) s := by
  unfold createNew
  refine (wp_ialloc_step h type).bind (fun ip s₁ h₁ => ?_)
  obtain ⟨hstep₁, hrange⟩ := h₁
  refine (wp_ilock_step hstep₁.consistent (by rw [hstep₁.sb]; exact hrange)).bind (fun _ s₂ h₂ => ?_)
  obtain ⟨hstep₂, hlock⟩ := h₂
  have hdp := hstep₁.locks dp hl
  have hne : ip ≠ dp := by
    rintro rfl
    rw [hlock.free] at hdp
    cases hdp.1
  obtain ⟨hdp₂, hj₂⟩ := hstep₂.locks dp hdp.1
  have hboth₂ : OnBoth s 0 dp ip (s.icache dp).inum (s₁.icache ip).inum s₂ :=
    ⟨(hstep₁.mono (fun c hc => .inr (.inr hc)) le_rfl).trans
      (hstep₂.mono (Set.empty_subset _) le_rfl), ⟨hdp₂, hj₂.trans hdp.2⟩, hlock.locked, hlock.here⟩
  have hfields := wp_fields_step hboth₂.step.consistent hboth₂.child.1 major minor 1
  rw [wp_bind, wp_modify] at hfields
  rw [wp_bind, wp_modify, wp_bind]
  refine hfields.imp (fun _ s₃ h₃ => ?_)
  have hboth₃ := hboth₂.next h₃ hboth₂.common_child
  -- the entry in the parent, and the end
  have hend : ∀ t, OnBoth s 4 dp ip (s.icache dp).inum (s₁.icache ip).inum t → wp (do
      let s ← get
      if (← dirlink dp name (s.icache ip).inum) < 0 then throw .createDirlink
      else do
        iunlockput dp
        return ip) (fun ip s' => Created s ip s') (fun _ => True) t := by
    intro t ht
    rw [wp_bind, wp_get]
    refine (ht.wp_dirlink_parent hsize name _).bind (fun r t₁ ht₁ => ?_)
    split
    · exact trivial
    · refine (wp_iunlockput_put dp ht₁.step.consistent).seq (fun _ t₂ ht₂ => ?_)
      rw [wp_pure]
      refine ⟨ht₂.consistent, ht₂.sb.trans ht₁.step.sb, ?_, (s.icache dp).inum, ?_⟩
      · rw [ht₂.same ip hne]
        exact ht₁.child.1
      · rw [ht₂.same ip hne, ht₁.child.2]
        exact ht₁.step.touched.trans
          ((ht₂.touched (by rw [ht₁.step.sb]; exact hsize)).mono ht₁.common_parent le_rfl)
  split
  · refine (hboth₃.wp_addLinks_parent 1).bind (fun _ s₄ h₄ => ?_)
    rw [wp_bind, wp_get]
    refine (h₄.wp_dirlink_child hsize DOT _).bind (fun r s₅ h₅ => ?_)
    split
    · exact trivial
    · refine (h₅.wp_dirlink_child hsize DOTDOT _).bind (fun r s₆ h₆ => ?_)
      split
      · exact trivial
      · exact hend s₆ h₆
  · refine hend s₃ ⟨hboth₃.step.mono subset_rfl (by decide), hboth₃.parent, hboth₃.child⟩

variable {s' : Fs} {H : Multiset Ip}

/-- An inode that a walk has come to. -/
theorem Created.of_walk (h : Walk s H s') (hl : (s'.icache ip).locked = true) : Created s ip s' :=
  ⟨h.consistent, h.sb, hl, 0, (Touched.of_eq h.logged).mono subset_rfl (Nat.zero_le _)⟩

/-- **`create`** logs nothing, or what a new name takes. -/
theorem wp_create_touched (h : s.Settled) (hcwd : 0 < (s.icache cwd).ref) (hsize : s.sb.size ≤ BPB)
    (path : Path) (type major minor : Int16) :
    wp (create cwd path type major minor) (fun r s' => (r = none → s'.logged = s.logged) ∧
      ∀ ip, r = some ip → Created s ip s') (fun _ => True) s := by
  refine wp_create_ways h hcwd (fun s' hwalk _ => ⟨fun _ => hwalk.logged, nofun⟩)
    (fun ip s' hwalk hl _ => ⟨nofun, fun ip' hsome => ?_⟩) (fun dp name t hwalk hl _ _ _ => ?_)
  · cases hsome
    exact .of_walk hwalk hl
  · refine (wp_createNew_touched hwalk.consistent hl (by rw [hwalk.sb]; exact hsize)
      name type major minor).imp (fun ip s' hs' => ⟨nofun, fun ip' hsome => ?_⟩)
    cases hsome
    obtain ⟨j, htouched⟩ := hs'.touched
    refine ⟨hs'.consistent, hs'.sb.trans hwalk.sb, hs'.locked, j, ?_⟩
    unfold commons at htouched ⊢
    rw [← hwalk.sb, ← hwalk.logged]
    exact htouched

/-! ## Each operation -/

/-- **What an operation may log**: the blocks of two inodes, and six more. -/
def FitsLog (s s' : Fs) : Prop := ∃ j k, Touched (s.commons j k) 6 s.logged s'.logged

theorem FitsLog.of_touched {j k n : ℕ} (h : Touched (s.commons j k) n s.logged s'.logged)
    (hn : n ≤ 6) : s.FitsLog s' := ⟨j, k, h.mono subset_rfl hn⟩

theorem FitsLog.of_common {n : ℕ} (h : Touched (s.common ip) n s.logged s'.logged) (hn : n ≤ 6) :
    s.FitsLog s' :=
  .of_touched (k := 0) (h.mono (Set.insert_subset_insert (Set.singleton_subset_iff.mpr (.inl rfl)))
    le_rfl) hn

theorem FitsLog.of_logged (h : s'.logged = s.logged) : s.FitsLog s' :=
  .of_touched (j := 0) (k := 0) (.of_eq h) (Nat.zero_le _)

theorem Walk.fitsLog (h : Walk s H s') : s.FitsLog s' := .of_logged h.logged

/-- The operation begins with a walk. -/
theorem FitsLog.after_walk {s₁ : Fs} (h : Walk s H s₁) (h' : s₁.FitsLog s') :
    s.FitsLog s' := by
  unfold FitsLog commons at h' ⊢
  rwa [h.sb, h.logged] at h'

/-- An entry is cleared, and the links of the inodes follow. -/
theorem wp_sysUnlinkEntry_touched {j k : ℕ} (h : OnBoth s 0 dp ip j k s) (hne : ip ≠ dp)
    (hsize : s.sb.size ≤ BPB) {i : ℕ} (hi : DIRENT * i < 2 ^ 32) :
    wp (sysUnlinkEntry dp ip (DIRENT * i)) (fun _ s' => s.FitsLog s') (fun _ => True) s := by
  have hlen : (List.replicate DIRENT (0 : UInt8)).length = DIRENT := List.length_replicate
  -- both inodes are given back
  have hend : ∀ t, OnBoth s 2 dp ip j k t → wp (do
      iunlockput dp
      addLinks ip (-1)
      iunlockput ip
      return (0 : ℤ)) (fun _ s' => s.FitsLog s') (fun _ => True) t := by
    intro t ht
    refine (wp_iunlockput_put dp ht.step.consistent).seq (fun _ t₁ h₁ => ?_)
    have hl : (t₁.icache ip).locked = true := by
      rw [h₁.same ip hne]
      exact ht.child.1
    have hcommon : t₁.common ip ⊆ s.commons j k := by
      unfold common
      rw [h₁.sb, h₁.same ip hne]
      exact ht.common_child
    refine (wp_addLinks_step h₁.consistent hl (-1)).bind (fun _ t₂ h₂ => ?_)
    refine (wp_iunlockput_put ip h₂.consistent).seq (fun _ t₃ h₃ => ?_)
    rw [wp_pure]
    have htouched := h₃.touched (by rw [h₂.sb, h₁.sb, ht.step.sb]; exact hsize)
    rw [h₂.common_eq hl] at htouched
    refine .of_touched (j := j) (k := k) (n := 2) ?_ (by decide)
    have htouched₁ := h₁.touched (by rw [ht.step.sb]; exact hsize)
    exact ((ht.step.touched.trans (htouched₁.mono ht.common_parent le_rfl)).trans
      (h₂.touched.mono hcommon le_rfl)).trans (htouched.mono hcommon le_rfl)
  unfold sysUnlinkEntry
  refine (wp_writei_step h.step.consistent h.parent.1 hsize hi (by rw [hlen]; decide)).bind (fun n s₁ h₁ => ?_)
  rw [hlen, spanned_dirent] at h₁
  have hboth := h.next h₁ h.common_parent
  split
  · exact trivial
  · rw [wp_bind, wp_get]
    split
    · exact (hboth.wp_addLinks_parent (-1)).bind (fun _ s₂ h₂ => hend s₂ h₂)
    · exact hend s₁ hboth

/-- **`sys_unlink`.** -/
theorem wp_sysUnlink_fits (h : s.Settled) (hcwd : 0 < (s.icache cwd).ref) (hsize : s.sb.size ≤ BPB)
    (path : Path) : wp (sysUnlink cwd path) (fun _ s' => s.FitsLog s') (fun _ => True) s := by
  refine wp_sysUnlink_ways h hcwd (fun s' hs' => hs'.fitsLog) (fun dp ip name j y x t ht => ?_)
  have hboth : OnBoth t 0 dp ip (t.icache dp).inum (t.icache ip).inum t :=
    ⟨⟨ht.walk.consistent, rfl, fun _ hl => ⟨hl, rfl⟩, .refl _ _⟩, ⟨ht.parent, rfl⟩, ht.child, rfl⟩
  have hoff : DIRENT * j < 2 ^ 32 := by
    have hinside := ht.names.inside.trans (h.consistent.length_le ht.node_parent)
    have hmax : MAXFILE * BSIZE < 2 ^ 32 := by decide
    omega
  exact (wp_sysUnlinkEntry_touched hboth ht.ne (by rw [ht.walk.sb]; exact hsize) hoff).imp
    (fun _ _ => FitsLog.after_walk ht.walk)

/-- The count of `sys_link` is taken back. -/
theorem wp_sysLinkBad_touched (h : s.Consistent) (hinum : (s.icache ip).inum < s.sb.ninodes)
    (hsize : s.sb.size ≤ BPB) : wp (sysLinkBad ip)
      (fun _ s' => Touched (s.common ip) 0 s.logged s'.logged) (fun _ => True) s := by
  unfold sysLinkBad
  refine (wp_ilock_step h hinum).bind (fun _ s₁ h₁ => ?_)
  obtain ⟨hstep, hlock⟩ := h₁
  have hcommon : s₁.common ip = s.common ip := by
    unfold common
    rw [hstep.sb, hlock.here]
  refine (wp_addLinks_step hstep.consistent hlock.locked (-1)).bind (fun _ s₂ h₂ => ?_)
  refine (wp_iunlockput_put ip h₂.consistent).seq (fun _ s₃ h₃ => ?_)
  rw [wp_pure]
  have htouched := h₃.touched (by rw [h₂.sb, hstep.sb]; exact hsize)
  have htouched₂ := h₂.touched
  rw [h₂.common_eq hlock.locked, hcommon] at htouched
  rw [hcommon] at htouched₂
  exact ((hstep.touched.mono (Set.empty_subset _) le_rfl).trans htouched₂).trans htouched

/-- **`sys_link`.** -/
theorem wp_sysLink_fits (h : s.Settled) (hcwd : 0 < (s.icache cwd).ref) (hsize : s.sb.size ≤ BPB)
    (old new : Path) : wp (sysLink cwd old new) (fun _ s' => s.FitsLog s') (fun _ => True) s := by
  -- what the count logs, and that the inode stays
  have hcount : ∀ {ip x t₀ t}, Counting s ip x t₀ t →
      Touched (t₀.common ip) 0 t₀.logged t.logged ∧ t.sb.size ≤ BPB ∧
      ∀ {H : Multiset Ip} {t₁ : Fs}, Walk t H t₁ → t₁.common ip = t₀.common ip := by
    intro ip x t₀ t hc
    have hstep := (wp_addLinks_step hc.walk.consistent hc.locked 1).ok hc.run
    refine ⟨hstep.touched, by rw [hstep.sb, hc.walk.sb]; exact hsize, fun hwalk => ?_⟩
    unfold common
    rw [hwalk.sb, hwalk.inum ip (hc.counted.ref_pos h), hstep.sb, hc.counted.inum]
  refine wp_sysLink_ways h hcwd (fun s' hs' => hs'.fitsLog)
    (fun ip x t₀ t t₁ hc hwalk => ?_) (fun ip x t₀ t dp y name j t₁ t₂ hc he => ?_)
  · obtain ⟨htouched, hsize', hcommon⟩ := hcount hc
    have hpos := hc.counted.ref_pos h
    refine (wp_sysLinkBad_touched hwalk.consistent ?_ (by rw [hwalk.sb]; exact hsize')).imp
      (fun _ s' hbad => ?_)
    · rw [hwalk.inum ip hpos, hwalk.sb]
      exact hc.counted.settled.range ip hpos
    · rw [hcommon hwalk, hwalk.logged] at hbad
      exact .after_walk hc.walk (.of_common (htouched.trans hbad) (by decide))
  · obtain ⟨htouched, hsize', hcommon⟩ := hcount hc
    obtain ⟨r, hrun⟩ := he.run
    have hstep := (wp_dirlink_step he.walk.consistent he.locked (by rw [he.walk.sb]; exact hsize')
      name _).ok hrun
    have hsize₂ : t₂.sb.size ≤ BPB := by
      rw [hstep.sb, he.walk.sb]
      exact hsize'
    refine (wp_iunlockput_put dp hstep.consistent).seq (fun _ t₃ h₃ => ?_)
    have hentered := hc.counted.entered h he.walk he.locked he.node he.isDir he.new he.linked h₃
    refine (wp_iput_put h₃.consistent (hentered.ref_pos h)).seq (fun _ t₄ h₄ => ?_)
    rw [wp_pure]
    have htouched₄ := h₄.2.touched (by rw [h₃.sb]; exact hsize₂)
    have hip₃ : t₃.common ip = t₀.common ip := by
      rw [← hcommon he.walk]
      unfold common
      rw [h₃.sb, hstep.sb, h₃.inum, (he.linked.wrote.quiet ip).1]
    have htouched₂ := hstep.touched
    have htouched₃ := h₃.touched hsize₂
    rw [he.walk.logged] at htouched₂
    rw [hstep.common_eq he.locked] at htouched₃
    rw [hip₃] at htouched₄
    have hparent : t₁.common dp ⊆ t₀.commons (t₁.icache dp).inum (t₀.icache ip).inum := by
      unfold common
      rw [he.walk.sb, hc.counted.after.sb, ← hc.walk.sb]
      exact Set.insert_subset_insert (Set.singleton_subset_iff.mpr (.inl rfl))
    have hchild : t₀.common ip ⊆ t₀.commons (t₁.icache dp).inum (t₀.icache ip).inum :=
      Set.insert_subset_insert (Set.singleton_subset_iff.mpr (.inr rfl))
    have hall := (((htouched.mono hchild le_rfl).trans (htouched₂.mono hparent le_rfl)).trans
      (htouched₃.mono hparent le_rfl)).trans (htouched₄.mono hchild le_rfl)
    exact .after_walk hc.walk (.of_touched hall (by decide))

/-- **`sys_chdir`**: the reference to the directory before may be the last one. -/
theorem wp_sysChdir_fits (h : s.Settled) (hcwd : 0 < (s.icache cwd).ref) (hsize : s.sb.size ≤ BPB)
    (path : Path) : wp (sysChdir cwd path) (fun _ s' => s.FitsLog s') (fun _ => True) s := by
  unfold sysChdir
  refine Walk.wp_namei_ilock h hcwd (fun s₁ hwalk => hwalk.fitsLog) (fun ip s₂ hwalk hl => ?_)
  rw [wp_bind, wp_get]
  split
  · exact hwalk.wp_leave h (fun s₃ hwalk₃ => hwalk₃.fitsLog)
  · refine (hwalk.wp_iunlock (hwalk.consistent.cached.locked hl).1).seq (fun _ s₃ h₃ => ?_)
    refine (wp_iput_put h₃.1.consistent ?_).seq (fun _ s₄ h₄ => ?_)
    · have hsum := h₃.1.refs cwd
      omega
    rw [wp_pure]
    exact .after_walk h₃.1 (.of_common (h₄.2.touched (by rw [h₃.1.sb]; exact hsize)) (Nat.zero_le _))

/-- A locked inode is given back, after `create` or a walk. -/
theorem Created.wp_iunlockput {s₁ : Fs} (h : Created s ip s₁) (hsize : s.sb.size ≤ BPB) :
    wp (iunlockput ip) (fun _ s' => s.FitsLog s') (fun _ => True) s₁ := by
  obtain ⟨j, htouched⟩ := h.touched
  refine (wp_iunlockput_put ip h.consistent).any (fun _ s' hs' => ?_)
  have hcommon : s₁.common ip ⊆ s.commons j (s₁.icache ip).inum := by
    unfold common
    rw [h.sb]
    exact Set.insert_subset_insert (Set.singleton_subset_iff.mpr (.inr rfl))
  exact .of_touched
    (htouched.trans ((hs'.touched (by rw [h.sb]; exact hsize)).mono hcommon le_rfl)) le_rfl

theorem wp_iunlock_logged (s : Fs) (ip : Ip) :
    wp (iunlock ip) (fun _ s' => s'.logged = s.logged) (fun _ => True) s := by
  unfold iunlock releasesleep
  rw [wp_bind, wp_get]
  split
  · exact trivial
  · rw [wp_modify]
    rfl

/-- **`sys_mkdir` and `sys_mknod`.** -/
theorem wp_sysCreate_fits (h : s.Settled) (hcwd : 0 < (s.icache cwd).ref) (hsize : s.sb.size ≤ BPB)
    (path : Path) (type major minor : Int16) :
    wp (sysCreate cwd path type major minor) (fun _ s' => s.FitsLog s') (fun _ => True) s := by
  unfold sysCreate
  refine (wp_create_touched h hcwd hsize path type major minor).bind (fun r s₁ h₁ => ?_)
  split
  · exact .of_logged (h₁.1 rfl)
  · next ip =>
    exact ((h₁.2 ip rfl).wp_iunlockput hsize).bind (fun _ _ hfits => hfits)

/-- **`sys_open`** up to the inode. -/
theorem wp_openInode_touched (h : s.Settled) (hcwd : 0 < (s.icache cwd).ref)
    (hsize : s.sb.size ≤ BPB) (path : Path) (omode : ℕ) :
    wp (openInode cwd path omode) (fun r s' => (r = none → s'.logged = s.logged) ∧
      ∀ ip, r = some ip → Created s ip s') (fun _ => True) s := by
  unfold openInode
  split
  · exact wp_create_touched h hcwd hsize path T_FILE 0 0
  · refine Walk.wp_namei_ilock h hcwd (fun s₁ hwalk => ⟨fun _ => hwalk.logged, nofun⟩)
      (fun ip s₂ hwalk hl => ?_)
    rw [wp_bind, wp_get]
    split
    · exact hwalk.wp_leave h (fun s₃ hwalk₃ => ⟨fun _ => hwalk₃.logged, nofun⟩)
    · refine ⟨nofun, fun ip' hsome => ?_⟩
      cases hsome
      exact .of_walk hwalk hl

/-- **A chunk of `filewrite`**: four blocks at most, wherever it begins, and the indirect
block. -/
theorem wp_filewrite_fits (h : s.Settled) (href : 0 < (s.icache ip).ref) (hsize : s.sb.size ≤ BPB)
    (src : List UInt8) (i : ℕ) (off : UInt32) :
    wp (FsOp.filewrite ip src i off).run (fun _ s' => s.FitsLog s') (fun _ => True) s := by
  have hlen : ((src.drop i).take (min (src.length - i) filewriteMax)).length ≤ 1536 := by
    rw [List.length_take]
    have hmax : filewriteMax = 1536 := rfl
    omega
  show wp (do
    ilock ip
    let _ ← writei ip ((src.drop i).take (min (src.length - i) filewriteMax)) off.toNat
    iunlock ip) _ _ s
  refine ((Walk.refl h).wp_ilock href).seq (fun _ s₁ h₁ => ?_)
  obtain ⟨hwalk, hlock⟩ := h₁
  refine (wp_writei_step hwalk.consistent hlock.locked (by rw [hwalk.sb]; exact hsize)
    off.toNat_lt (by omega)).bind (fun _ s₂ h₂ => ?_)
  refine (wp_iunlock_logged s₂ ip).imp (fun _ s₃ h₃ => ?_)
  have htouched := h₂.touched
  rw [← h₃] at htouched
  refine .after_walk hwalk (.of_common htouched ?_)
  unfold spanned BSIZE
  omega

/-- **Every operation** is on two inodes at most. -/
theorem wp_run_fits (h : s.Settled) (hsize : s.sb.size ≤ BPB) (op : FsOp)
    (hheld : 0 < (s.icache op.inode).ref) :
    wp op.run (fun _ s' => s.FitsLog s') (fun _ => True) s := by
  cases op with
  | filewrite ip src i off => exact wp_filewrite_fits h hheld hsize src i off
  | «open» cwd path omode room =>
    show wp (openInode cwd path omode >>= _) _ _ s
    refine (wp_openInode_touched h hheld hsize path omode).bind (fun r s₁ h₁ => ?_)
    split
    · exact .of_logged (h₁.1 rfl)
    · next ip =>
      have hcreated := h₁.2 ip rfl
      split
      · refine (wp_iunlock_logged s₁ ip).imp (fun _ s₂ h₂ => ?_)
        obtain ⟨j, htouched⟩ := hcreated.touched
        rw [← h₂] at htouched
        exact .of_touched htouched le_rfl
      · exact hcreated.wp_iunlockput hsize
  | mkdir cwd path =>
    show wp (sysMkdir cwd path >>= _) _ _ s
    exact (wp_sysCreate_fits h hheld hsize path T_DIR 0 0).bind (fun _ _ hfits => hfits)
  | mknod cwd path major minor =>
    show wp (sysMknod cwd path major minor >>= _) _ _ s
    exact (wp_sysCreate_fits h hheld hsize path T_DEV major minor).bind (fun _ _ hfits => hfits)
  | link cwd old new =>
    show wp (sysLink cwd old new >>= _) _ _ s
    exact (wp_sysLink_fits h hheld hsize old new).bind (fun _ _ hfits => hfits)
  | unlink cwd path =>
    show wp (sysUnlink cwd path >>= _) _ _ s
    exact (wp_sysUnlink_fits h hheld hsize path).bind (fun _ _ hfits => hfits)
  | chdir cwd path =>
    show wp (sysChdir cwd path >>= _) _ _ s
    exact (wp_sysChdir_fits h hheld hsize path).bind (fun _ _ hfits => hfits)
  | exec cwd path reads =>
    show wp (namei cwd path >>= _) _ _ s
    refine Walk.wp_namei_ilock h hheld (fun s₁ hwalk => hwalk.fitsLog) (fun ip s₂ hwalk hl => ?_)
    have hip := (hwalk.consistent.of_locked hl).2
    refine (wp_forM (I := fun _ s' => s' = s₂) (fun _ r _ t _ ht => ?_) rfl).bind (fun _ s₃ h₃ => ?_)
    · cases ht
      exact (wp_readi r.1.toNat_lt r.2.toNat_lt (hwalk.consistent.covers hip)).bind (fun _ _ hr => hr.1)
    · cases h₃
      exact (hwalk.wp_iunlockput h (Multiset.mem_cons_self ip 0)).any (fun _ s₄ h₄ => h₄.1.fitsLog)
  | iput ip =>
    exact (wp_iput_put h.consistent hheld).any
      (fun _ s' hs' => .of_common (hs'.2.touched hsize) (Nat.zero_le _))

/-- **An operation fits its place in the log**: from any state between two calls, on a disk
of `FSSIZE` blocks, it logs at most `MAXOPBLOCKS` different blocks. -/
theorem card_logged_le (h : s.Settled) (hsize : s.sb.size = FSSIZE) (hlog : s.logged = []) (op : FsOp)
    (hheld : 0 < (s.icache op.inode).ref) {s' : Fs} (hrun : op.run s = .ok (⟨⟩, s')) :
    s'.logged.toFinset.card ≤ MAXOPBLOCKS := by
  have hone : s.sb.size ≤ BPB := by
    rw [hsize]
    decide
  obtain ⟨j, k, htouched⟩ := (wp_run_fits h hone op hheld).ok hrun
  rw [hlog] at htouched
  have hset : s.commons j k
      = fun x => x ∈ ({s.sb.bmapstart, s.sb.iblock j, s.sb.iblock k} : Finset ℕ) := by
    funext x
    rw [Finset.mem_insert, Finset.mem_insert, Finset.mem_singleton]
    rfl
  rw [hset] at htouched
  have hcard := htouched.card_le
  have hthree := Finset.card_le_three (a := s.sb.bmapstart) (b := s.sb.iblock j) (c := s.sb.iblock k)
  have hmax : MAXOPBLOCKS = 10 := rfl
  omega

/-- A disk of `FSSIZE` blocks without inodes, and a cache without references. -/
def bareFs : Fs where
  disk := Function.update (Function.update (fun _ => Block.zero) 1
      (Block.zero.setWords 0 (fun i => [1000, 995, 8, 0, 2, 2, 4].getD i 0) 7))
    4 (Block.zero.setWord 0 0x1f)
  sb := ⟨1000, 995, 8, 0, 2, 2, 4⟩
  icache := fun _ => ⟨.fresh 0, 0, 0, false, false⟩
  devsw := fun _ => ⟨none, none⟩
  logged := []

theorem bareFs_consistent : bareFs.Consistent :=
  consistent_of_empty ⟨by decide, by decide, by decide, by decide⟩ (by decide +kernel)
    (by decide +kernel) (by decide +kernel) (fun _ => ⟨rfl, rfl⟩)

/-- The first entry of the inode cache. -/
def firstIp : Ip := ⟨0, NINODE_pos⟩

/-- A file without a name is made and written. -/
def openRun : List FsEvent :=
  [.ialloc T_FILE, .ilock firstIp, .writei firstIp [72, 105] 0, .iunlock firstIp]

theorem card_logged_le_openRun : ∃ s s', s.Settled ∧ s.sb.size = FSSIZE ∧ s.logged = [] ∧
    0 < (s.icache (FsOp.iput firstIp).inode).ref ∧
    (FsOp.iput firstIp).run s = .ok (⟨⟩, s') ∧ s'.logged.toFinset.card ≤ MAXOPBLOCKS := by
  obtain ⟨s, hexec, htidy, hsize, hheld, s', hput⟩ : ∃ s, bareFs.exec openRun = .ok s ∧
      Tidy { s with logged := [] } ∧ s.sb.size = FSSIZE ∧ 0 < (s.icache firstIp).ref ∧
      ∃ s', (FsOp.iput firstIp).run { s with logged := [] } = .ok (⟨⟩, s') ∧ True := by decide +kernel
  have hcons := Machine.exec_invariant Consistent.step bareFs_consistent hexec
  have hsettled : Settled { s with logged := [] } := htidy.settled
    ⟨hcons.sound, hcons.cached.unique, hcons.cached.agrees, hcons.cached.locked⟩
  exact ⟨_, s', hsettled, hsize, rfl, hheld, hput.1,
    card_logged_le hsettled hsize rfl (.iput firstIp) hheld hput.1⟩

end Fs

end Xv6
