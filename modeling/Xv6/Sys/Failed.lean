import Xv6.Fs.Names
import Xv6.Sys.Runs

/-!
# Calls that fail

A call on names that returns `-1` should leave no trace: the inodes with their links and
bytes, the references to them, and the caller's directory and descriptors are as before.
`sys_open` breaks this. With `O_CREATE` it makes the file first and looks for a place in the
tables then, and if there is none it gives the inode back but leaves the file.
-/

namespace Xv6

open Function

open Wp

namespace Sys

/-- The calls that take a path, which are those that may have to undo something. -/
def Call.OnNames : Call → Prop
  | .open _ _ | .link _ _ | .unlink _ | .mkdir _ | .mknod _ _ _ | .chdir _ => True
  | .fork | .exit | .wait | .sbrk _ | .exec _ _ | .dup _ | .close _ | .pipe => False

/-- **Nothing that a process can see has changed**: not the inodes with their links and bytes, so
no entry of a directory, not the references to them, and not the caller's directory and
descriptors. -/
structure Unchanged (p : Slot) (s s' : Sys) : Prop where
  node : s'.fs.node = s.fs.node
  refs : s'.fs.refs = s.fs.refs
  inum : ∀ ip, 0 < (s.fs.icache ip).ref → (s'.fs.icache ip).inum = (s.fs.icache ip).inum
  cwd : (s'.proc p).cwd = (s.proc p).cwd
  ofile : (s'.proc p).ofile = (s.proc p).ofile

/-- There is no place for another open file: in the file table, or among the descriptors. -/
def Full (s : Sys) (p : Slot) : Prop :=
  (∀ f, (s.file f).ref ≠ 0) ∨ ∀ fd, (s.proc p).ofile fd ≠ none

/-- **A file is made in vain**: `open` with `O_CREATE` of a new name, when there is no place for
another open file. The file is in its directory by then, and stays there. -/
def Strands (s : Sys) (p : Slot) (cwd : Ip) : Call → Prop
  | .open path omode => (omode &&& Fs.O_CREATE ≠ 0 ∧ s.fs.IsNew cwd path) ∧ s.Full p
  | _ => False

variable {s s' : Sys} {p : Slot} {cwd : Ip}

theorem Unchanged.of_after (h : s.fs.After 0 s.fs.node s'.fs) (hproc : s'.proc = s.proc) :
    Unchanged p s s' := by
  refine ⟨h.node, funext (fun jp => ?_), fun jp hjp => (h.later jp hjp).2.1, by rw [hproc], by rw [hproc]⟩
  show (s'.fs.icache jp).ref = (s.fs.icache jp).ref
  rw [h.refs, Multiset.count_zero]
  omega

/-- The caller has a directory. -/
theorem wp_getCwd_some {R : SysHalt → Prop} {Q : Ip → Sys → Prop} (hcwd : (s.proc p).cwd = some cwd)
    (hQ : Q cwd s) : wp (getCwd p) Q R s := by
  unfold getCwd
  rw [wp_bind, wp_get]
  exact wp_deref_some hcwd hQ

/-- A file that nothing refers to is closed. -/
theorem wp_fileclose_fresh (L : MemLayout) {f : Fp} (href : (s.file f).ref = 1)
    (htype : (s.file f).type = .FD_NONE) :
    wp (fileclose L f) (fun _ s' => s'.fs = s.fs ∧ s'.proc = s.proc) (fun _ => True) s := by
  unfold fileclose
  rw [wp_bind, wp_get]
  dsimp only
  rw [href, if_neg (by decide), if_neg (by decide), wp_bind, wp_modify]
  unfold fileput
  rw [htype]
  exact ⟨rfl, rfl⟩

/-- **`sys_open` that fails.** -/
theorem wp_sysOpen_failed (L : MemLayout) (h : s.fs.Settled)
    (htype : ∀ f, (s.file f).ref = 0 → (s.file f).type = .FD_NONE) (hcwd : (s.proc p).cwd = some cwd)
    (href : 0 < (s.fs.icache cwd).ref) (path : Path) (omode : ℕ) :
    wp (sysOpen L p path omode) (fun r s' => r = -1 →
      (Unchanged p s s' ↔ ¬ s.Strands p cwd (.open path omode))) (fun _ => True) s := by
  unfold sysOpen
  rw [wp_bind]
  refine wp_getCwd_some hcwd ?_
  rw [wp_bind, wp_fsys]
  refine (Fs.wp_openInode_node h href path omode).imp (fun r fs₁ h₁ => ?_)
  obtain ⟨hnone, hsome⟩ := h₁
  cases r with
  | none =>
    obtain ⟨hwalk, hold⟩ := hnone rfl
    exact fun _ => iff_of_true (.of_after hwalk.after rfl) (fun hs => hold hs.1)
  | some ip =>
    have hmem : ip ∈ ip ::ₘ (0 : Multiset Ip) := Multiset.mem_cons_self ip 0
    -- the inode is given back
    have hend : ∀ t : Sys, t.fs = fs₁ → t.proc = s.proc → s.Full p → wp (do
        fsys (Fs.iunlockput ip)
        return (-1 : ℤ)) (fun r s' => r = -1 →
          (Unchanged p s s' ↔ ¬ s.Strands p cwd (.open path omode))) (fun _ => True) t := by
      intro t hfs hproc hfull
      rw [wp_bind, wp_fsys, hfs]
      rcases hsome ip rfl with ⟨hwalk, -, hold⟩ | ⟨⟨k, hborn⟩, hnew⟩
      · refine (hwalk.wp_iunlockput h hmem).any (fun _ fs₂ h₂ => ?_)
        rw [Multiset.erase_cons_head] at h₂
        exact fun _ => iff_of_true (.of_after h₂.1.after hproc) (fun hs => hold hs.1)
      · obtain ⟨d, x, name, j, bytes, hx, -, -, -, -, -, hafter⟩ := hborn.entry
        have hafter := hafter (fun hdir => absurd hdir (by decide))
        have hkd : k ≠ d := by
          rintro rfl
          have hfresh := hborn.fresh
          rw [hx] at hfresh
          cases hfresh
        have hk : fs₁.node k = some ⟨T_FILE, 0, 0, 1, bytes⟩ := by
          rw [hafter.node, update_of_ne hkd, update_self]
        have hpos := (hafter.consistent.cached.locked hborn.locked).1
        refine (Fs.wp_iunlockput_put _ hafter.consistent).any (fun _ fs₂ h₂ => ?_)
        -- the file is still there
        have hnot : ¬ fs₁.Last ip :=
          hafter.consistent.not_last hpos hborn.inum hk (show (1 : Int16) ≠ 0 by decide)
        refine fun _ => iff_of_false (fun hun => ?_) (fun hs => hs ⟨hnew, hfull⟩)
        have hnode : fs₂.node k = none := (congrFun hun.node k).trans hborn.fresh
        rw [h₂.node, if_neg hnot, hk] at hnode
        cases hnode
    dsimp only
    rw [wp_bind]
    refine wp_filealloc (fun hfull => hend _ rfl rfl (.inl hfull)) (fun f hf => ?_)
    dsimp only
    rw [wp_bind]
    refine wp_fdalloc (fun hfull => ?_) (fun fd hfd => ?_)
    · dsimp only
      rw [wp_bind]
      have hself : (setFile f (fun x => { x with ref := 1 }) { s with fs := fs₁ }).file f
          = { s.file f with ref := 1 } := update_self _ _ _
      refine (wp_fileclose_fresh L (by rw [hself]) (by rw [hself]; exact htype f hf)).imp
        (fun _ t ht => ?_)
      exact hend t ht.1 ht.2 (.inr hfull)
    · dsimp only
      rw [wp_bind, wp_fsys]
      refine Fs.wp_of_forall (fun _ fs₂ => ?_) (fun _ => trivial)
      rw [wp_bind, wp_modify, wp_pure]
      intro hneg
      omega

/-- A call of `fs.c` that leaves everything as it was if it fails. -/
theorem wp_inCwd_failed (hcwd : (s.proc p).cwd = some cwd) {x : Ip → FsM ℤ}
    (hx : wp (x cwd) (fun r fs => r = -1 → s.fs.After 0 s.fs.node fs) (fun _ => True) s.fs) :
    wp (inCwd p x) (fun r s' => r = -1 → Unchanged p s s') (fun _ => True) s := by
  unfold inCwd
  rw [wp_bind]
  refine wp_getCwd_some hcwd ?_
  rw [wp_fsys]
  exact hx.any (fun r fs hr hneg => .of_after (hr hneg) rfl)

theorem wp_sysCreate_failed {fs : Fs} (h : fs.Settled) (href : 0 < (fs.icache cwd).ref) (path : Path)
    (type : Int16) (htype : type ≠ 0) (major minor : Int16) :
    wp (Fs.sysCreate cwd path type major minor) (fun r fs' => r = -1 → fs.After 0 fs.node fs')
      (fun _ => True) fs := by
  unfold Fs.sysCreate
  refine (Fs.wp_create_node h href path htype major minor).bind (fun r fs₁ h₁ => ?_)
  split
  · exact fun _ => (h₁.1 rfl).1.after
  · rw [wp_bind]
    exact Fs.wp_of_forall (fun _ _ => nofun) (fun _ => trivial)

/-- `sys_chdir` that fails. -/
theorem wp_sysChdir_failed (h : s.fs.Settled) (hcwd : (s.proc p).cwd = some cwd)
    (href : 0 < (s.fs.icache cwd).ref) (path : Path) :
    wp (sysChdir p path) (fun r s' => r = -1 → Unchanged p s s') (fun _ => True) s := by
  unfold sysChdir
  rw [wp_bind]
  refine wp_getCwd_some hcwd ?_
  rw [wp_bind, wp_fsys]
  refine (Fs.wp_sysChdir_node h href path).imp (fun r fs₁ h₁ => ?_)
  obtain ⟨r, cwd'⟩ := r
  rw [wp_bind, wp_modify, wp_pure]
  rintro rfl
  obtain ⟨rfl, hwalk⟩ := h₁.1 (show (-1 : ℤ) < 0 by decide)
  refine .of_after hwalk.after ?_
  show update s.proc p { s.proc p with cwd := some cwd' } = s.proc
  rw [← hcwd]
  exact update_eq_self p s.proc

/-- **A call on names that fails has changed nothing**, but for a file that is made in vain. -/
theorem unchanged_iff_of_failed (L : MemLayout) (h : s.fs.Settled)
    (htype : ∀ f, (s.file f).ref = 0 → (s.file f).type = .FD_NONE) (hcwd : (s.proc p).cwd = some cwd)
    (href : 0 < (s.fs.icache cwd).ref) {c : Call} (hc : c.OnNames)
    (hrun : call L p c s = .ok (-1, s')) : Unchanged p s s' ↔ ¬ s.Strands p cwd c := by
  cases c with
  | «open» path omode => exact (wp_sysOpen_failed L h htype hcwd href path omode).ok hrun rfl
  | link old new =>
    have hlink := (Fs.wp_sysLink_node h href old new).imp (fun r fs hr (hneg : r = -1) =>
      hr.1 (by rw [hneg]; decide))
    exact iff_of_true ((wp_inCwd_failed (x := fun cwd => Fs.sysLink cwd old new) hcwd hlink).ok hrun rfl)
      id
  | unlink path =>
    have hunlink := (Fs.wp_sysUnlink_node h href path).imp (fun r fs hr (hneg : r = -1) =>
      (hr.1 (by rw [hneg]; decide)).after)
    exact iff_of_true ((wp_inCwd_failed (x := fun cwd => Fs.sysUnlink cwd path) hcwd hunlink).ok hrun
      rfl) id
  | mkdir path =>
    have hmkdir := wp_sysCreate_failed h href path T_DIR (by decide) 0 0
    exact iff_of_true ((wp_inCwd_failed (x := fun cwd => Fs.sysMkdir cwd path) hcwd hmkdir).ok hrun rfl)
      id
  | mknod path major minor =>
    have hmknod := wp_sysCreate_failed h href path T_DEV (by decide) major minor
    exact iff_of_true ((wp_inCwd_failed (x := fun cwd => Fs.sysMknod cwd path major minor) hcwd
      hmknod).ok hrun rfl) id
  | chdir path => exact iff_of_true ((wp_sysChdir_failed h hcwd href path).ok hrun rfl) id
  | fork => exact hc.elim
  | exit => exact hc.elim
  | wait => exact hc.elim
  | sbrk n => exact hc.elim
  | exec path argv => exact hc.elim
  | dup fd => exact hc.elim
  | close fd => exact hc.elim
  | pipe => exact hc.elim

/-- A machine with one process, whose directory is the root and whose descriptors are all one
end of a pipe. -/
def crowded : Sys where
  ram := ⟨[], fun _ _ => 0, []⟩
  fs := Fs.rootFs
  file := fun f => if f.val = 0 then ⟨.FD_PIPE, 16, true, false, some 0, none, 0⟩ else noFile
  pipe := fun _ => .fresh (fun _ => 0)
  proc := fun p => if p = firstSlot then { noProcess with
      state := .RUNNABLE
      cwd := some Fs.rootIp
      ofile := fun _ => some ⟨0, by decide⟩ }
    else noProcess
  initproc := none
  nextpid := 1

theorem crowded_files (f : Fp) (h : (crowded.file f).ref = 0) : (crowded.file f).type = .FD_NONE := by
  have hall : ∀ f, (crowded.file f).ref = 0 → (crowded.file f).type = .FD_NONE := by decide
  exact hall f h

/-- The same machine with a file in the root. -/
def crowdedFile : Sys := { crowded with fs := Fs.fileFs }

/-- `link` of `f` to its own name counts the link, finds the name taken, and takes the link back:
the dinode is written twice. -/
theorem unchanged_iff_of_failed_link : ∃ s', call smallLayout firstSlot (.link [0x66] [0x66]) crowdedFile
    = .ok (-1, s') ∧ s'.fs.logged = crowdedFile.fs.logged ++ [2, 2] ∧
    (Unchanged firstSlot crowdedFile s' ↔
      ¬ crowdedFile.Strands firstSlot Fs.rootIp (.link [0x66] [0x66])) := by
  obtain ⟨s', hcall, hlogged⟩ : ∃ s', call smallLayout firstSlot (.link [0x66] [0x66]) crowdedFile
      = .ok (-1, s') ∧ s'.fs.logged = crowdedFile.fs.logged ++ [2, 2] := by decide +kernel
  refine ⟨s', hcall, hlogged, unchanged_iff_of_failed (s := crowdedFile) smallLayout Fs.fileFs_settled
    crowded_files ?_ ?_ (c := .link [0x66] [0x66]) trivial hcall⟩
  · rfl
  · decide +kernel

/-- **The file `f` is made in vain.** -/
theorem not_unchanged_of_open : ∃ s', crowded.fs.Settled ∧
    call smallLayout firstSlot (.open [0x66] (Fs.O_CREATE ||| Fs.O_RDWR)) crowded = .ok (-1, s') ∧
    ¬ Unchanged firstSlot crowded s' := by
  obtain ⟨s', hcall, halloc⟩ : ∃ s', call smallLayout firstSlot
      (.open [0x66] (Fs.O_CREATE ||| Fs.O_RDWR)) crowded = .ok (-1, s') ∧
        Allocated s'.fs.sb (s'.fs.sb.dinode s'.fs.disk) 2 := by decide +kernel
  refine ⟨s', Fs.rootFs_settled, hcall, fun hun => ?_⟩
  have hnode : s'.fs.node 2 = none := by
    rw [hun.node]
    exact Fs.node_eq_none_iff.mpr (by decide +kernel)
  exact Fs.node_eq_none_iff.mp hnode halloc

end Sys

end Xv6
