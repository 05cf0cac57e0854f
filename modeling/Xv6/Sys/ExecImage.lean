import Xv6.Sys.Exec
import Xv6.Sys.Grow

/-!
# `exec` fails without a trace, or leaves the image it promises

The two sides of `exec`. Whatever is in the file and wherever `kalloc` fails, a call
that returns -1 has left the process as it was and given back what it took: pages, the
reference to the inode, and its place in the log. A call that returns 0 has left an
image whose pages are those below its size, with a page below the stack that users
cannot reach, and with the arguments in the stack page.
-/

namespace Xv6

open Function

open Wp

namespace Sys

/-! ## `exec` and the log -/

/-- A call, with the number of operations on the log that it has begun and not ended. -/
abbrev OpM := StateT ℤ SysM

/-- `begin_op`. -/
def begin_op : OpM PUnit := modify (· + 1)

/-- `end_op`. -/
def end_op : OpM PUnit := modify (· - 1)

/-- `exec` with the calls of `log.c` in it. -/
def execOp (L : MemLayout) (p : Slot) (path : Path) (argv : List (List UInt8)) : OpM ℤ := do
  begin_op
  let cwd ← getCwd p
  match ← fsys (Fs.namei cwd path) with
  | none => do
    end_op
    return -1
  | some ip => do
    fsys (Fs.ilock ip)
    let (r, elf) ← fsys (Fs.readi ip 0 ELFHDR)
    if r ≠ ELFHDR ∨ wordAt elf 0 ≠ ELF_MAGIC then do
      fsys (Fs.iunlockput ip)
      end_op
      return -1
    else
      match ← vm (Ram.setupkvm L) with
      | none => do
        fsys (Fs.iunlockput ip)
        end_op
        return -1
      | some pgdir =>
        match ← execSegments L pgdir ip (shortAt elf 44) (wordAt elf 28) 0 with
        | none => do
          vm (Ram.freevm L (some pgdir))
          fsys (Fs.iunlockput ip)
          end_op
          return -1
        | some sz => do
          fsys (Fs.iunlockput ip)
          end_op
          execCommit L p path argv (wordAt elf 24) pgdir sz

/-- A program that ends one operation, and does what another does. -/
def Ends {A : Type} (x : OpM A) (y : SysM A) : Prop := ∀ n, x.run (n + 1) = (fun r => (r, n)) <$> y

namespace Ends

variable {A B : Type}

theorem bind {y : SysM A} {f : A → OpM B} {g : A → SysM B} (h : ∀ a, Ends (f a) (g a)) :
    Ends (liftM y >>= f) (y >>= g) := by
  intro n
  rw [StateT.run_bind, map_bind]
  show (StateT.lift y).run (n + 1) >>= _ = _
  rw [StateT.run_lift, bind_assoc]
  refine bind_congr (fun a => ?_)
  rw [pure_bind]
  exact h a n

theorem end_op (y : SysM A) : Ends (do end_op; liftM y) y := by
  intro n
  rw [StateT.run_bind]
  show (pure (PUnit.unit, n + 1 - 1) : SysM (PUnit × ℤ)) >>= _ = _
  rw [pure_bind, Int.add_sub_cancel]
  show (StateT.lift y).run n = _
  rw [StateT.run_lift, map_eq_pure_bind]

theorem end_op_pure (a : A) : Ends (do Sys.end_op; return a) (pure a) := end_op (pure a)

end Ends

/-- **What is begun is ended**, on every way out: otherwise `execOp` is `exec`. -/
theorem run_execOp (L : MemLayout) (p : Slot) (path : Path) (argv : List (List UInt8)) (n : ℤ) :
    (execOp L p path argv).run n = (fun r => (r, n)) <$> exec L p path argv := by
  unfold execOp
  rw [StateT.run_bind]
  show (pure (PUnit.unit, n + 1) : SysM (PUnit × ℤ)) >>= _ = _
  rw [pure_bind]
  refine Ends.bind (fun cwd => Ends.bind (fun r => ?_)) n
  cases r with
  | none => exact .end_op_pure _
  | some ip =>
    refine .bind (fun _ => .bind (fun elf => ?_))
    dsimp only
    split
    · exact .bind (fun _ => .end_op_pure _)
    refine .bind (fun pgdir => ?_)
    cases pgdir with
    | none => exact .bind (fun _ => .end_op_pure _)
    | some pgdir =>
      refine .bind (fun sz => ?_)
      cases sz with
      | none => exact .bind (fun _ => .bind (fun _ => .end_op_pure _))
      | some sz => exact .bind (fun _ => .end_op _)

/-! ## Failure and success -/

variable {s s' : Sys} {P : Set Frame} {p : Slot} {L : MemLayout}

/-- The pages of a process: its directory, its page tables and its user pages. -/
def ownPages (s : Sys) (p : Slot) : Set Frame :=
  {f | s.pageAt (.dir p) = some f ∨ (∃ i, s.pageAt (.table p i) = some f) ∨
    ∃ i j, s.pageAt (.user p i j) = some f}

/-- **Failure without a trace**: the processes, the free pages and the references to inodes
are as they were. -/
structure ExecFailed (s s' : Sys) : Prop where
  proc : s'.proc = s.proc
  free : ∀ f, f ∈ s'.ram.freelist ↔ f ∈ s.ram.freelist
  refs : s'.fs.refs = s.fs.refs

/-- **Success**: the user pages are those below the size, the page below the stack page is
not for users, and the old image is free. -/
structure ExecDone (p : Slot) (s s' : Sys) : Prop where
  image : ∀ q, s'.userPage p q ≠ none ↔ q * PGSIZE < (s'.proc p).sz
  aligned : (s'.proc p).sz % PGSIZE = 0
  below : (s'.proc p).sz < KERNBASE
  guard : 2 * PGSIZE ≤ (s'.proc p).sz ∧ ∃ d, (s'.proc p).pgdir = some d ∧
    s'.ram.upage d (((s'.proc p).sz - 2 * PGSIZE) / PGSIZE) = none
  freed : ∀ f ∈ s.ownPages p, f ∈ s'.ram.freelist
  refs : s'.fs.refs = s.fs.refs

/-- Where a call of `exec` can stop: in the file system, for want of a current directory, or
in `copyout` at a page without a page table. -/
def ExecHalt (e : SysHalt) : Prop := (∃ x, e = .fs x) ∨ e = .null ∨ e = .vm .null

theorem execStops (hfree : ∀ f ∈ P, L.Frees f) (hstop : KERNBASE + L.PHYSTOP ≤ L.DEVSPACE) :
    ExecStops L P ExecHalt where
  fs e := .inl ⟨e, rfl⟩
  cwd := .inr (.inl rfl)
  copyout := .inr (.inr rfl)
  kfree f hf hnot := absurd (hfree f hf) hnot
  phystop hlt := absurd hlt (Nat.not_lt.mpr hstop)

theorem ExecFailed.of_building (h : s.AtRest P)
    (hb : Building P (s.dirs none) (s.others s.kstacks) ∅ none s s') : ExecFailed s s' := by
  refine ⟨?_, fun f => ?_, hb.refs⟩
  · obtain ⟨m, fs, rfl⟩ := hb.only
    rfl
  · have howner : s'.ram.owner (s.dirs none) (s.others s.kstacks)
        = s.ram.owner (s.dirs none) (s.others s.kstacks) := by
      funext place
      by_cases hplace : place.holder = some none
      · rw [Ram.owner_of_no_dir hplace rfl, Ram.owner_of_no_dir hplace rfl]
      · exact hb.leaves.owner place hplace
    rw [hb.pages.mem_freelist_iff, h.kept.pages.mem_freelist_iff, howner]

theorem ExecDone.of_newImage {argv : List (List UInt8)} {d : Frame} {sz : ℕ}
    (hrefs : s'.fs.refs = s.fs.refs) (hnew : NewImage p argv s s' d sz) : ExecDone p s s' := by
  obtain rfl := hnew.size
  refine ⟨fun q => ?_, hnew.aligned, hnew.below, ⟨hnew.two, d, hnew.pgdir, ?_⟩, fun f hf => ?_,
    hrefs⟩
  · rw [← lt_npages_iff]
    exact hnew.spans q
  · rw [Nat.mul_comm, Nat.sub_mul_div]
    exact hnew.guard
  · rcases hf with hf | ⟨i, hf⟩ | ⟨i, j, hf⟩
    · exact hnew.freed (.dir (some p)) f rfl hf
    · exact hnew.freed (.table (some p) i) f rfl hf
    · exact hnew.freed (.user (some p) i j) f rfl hf

/-! ## A process and a program -/

/-- A directory with a program `a` in it; both are in the cache. The program has one segment, of
four bytes in the file and eight in memory. -/
def oneProgram : Fs :=
  let dir : Inode := ⟨⟨T_DIR, 0, 0, 1, DIRENT, fun _ => 20⟩, 1, 1, false, true⟩
  let program : Inode := ⟨⟨T_FILE, 0, 0, 1, 88, fun _ => 21⟩, 2, 1, false, true⟩
  -- the header with `phoff` and `phnum`, the header of the segment, and its bytes
  let file : List (ℕ × ℕ) := [(0, ELF_MAGIC), (7, ELFHDR), (11, 1),
    (13, ELF_PROG_LOAD), (14, 84), (17, 4), (18, 8), (21, 0x90909090)]
  { blankFs with
    disk := update (update (fun _ => Block.zero) 20 (Block.zero.setBytes 0 [2, 0, 97]))
      21 (file.foldl (fun b w => b.setWord w.1 w.2) Block.zero)
    icache := fun ip =>
      if ip.val = 0 then dir else if ip.val = 1 then program else blankFs.icache ip }

/-- A process in that directory. -/
def shellSys : Sys := bareSys oneProgram (some ⟨0, NINODE_pos⟩)

/-- The program is run with two arguments: a page for the segment, the guard page and the stack. -/
theorem exec_shellSys : ∃ s', exec smallLayout firstSlot [97] [[97], [98, 99]] shellSys = .ok (0, s')
    ∧ (s'.proc firstSlot).sz = 3 * PGSIZE := by decide +kernel

/-! ## The two sides -/

/-- **`exec` is atomic**, for every file, every vector of arguments and every pattern of
failures of `kalloc`: it stops in no panic of `vm.c`, what it began in the log is ended,
and it has failed without a trace or there is a new image. -/
theorem exec_atomic (L : MemLayout) (s : Sys) (p : Slot) (path : Path) (argv : List (List UInt8))
    (n : ℤ) (P : Set Frame) (h : s.AtRest P) (hfree : ∀ f ∈ P, L.Frees f)
    (hstop : KERNBASE + L.PHYSTOP ≤ L.DEVSPACE) (hp : (s.proc p).state = .RUNNABLE)
    (hd : (s.proc p).pgdir ≠ none) :
    wp ((execOp L p path argv).run n) (fun r s' =>
      r.2 = n ∧ ((r.1 = -1 ∧ ExecFailed s s') ∨ (r.1 = 0 ∧ ExecDone p s s'))) ExecHalt s := by
  have hexec := h.wp_execed (execStops hfree hstop) hp (fun hnone => absurd hnone hd) path argv
  rw [run_execOp, wp_map]
  refine hexec.imp (fun r s' hexec => ⟨rfl, hexec.imp ?_ ?_⟩)
  · exact fun ⟨hr, hb⟩ => ⟨hr, .of_building h hb⟩
  · exact fun ⟨hr, _, _, hrefs, _, _, hnew⟩ => ⟨hr, .of_newImage hrefs hnew⟩

/-- The program runs, with a new image. -/
theorem exec_atomic_shellSys : ∃ s',
    (execOp smallLayout firstSlot [97] [[97], [98, 99]]).run 0 shellSys = .ok ((0, 0), s') ∧
      ExecDone firstSlot shellSys s' := by
  obtain ⟨s', hexec, -⟩ := exec_shellSys
  have hop : (execOp smallLayout firstSlot [97] [[97], [98, 99]]).run 0 shellSys
      = .ok ((0, 0), s') := by
    rw [run_execOp]
    show Except.bind (exec smallLayout firstSlot [97] [[97], [98, 99]] shellSys) _ = _
    rw [hexec]
    rfl
  have hatomic := (exec_atomic smallLayout shellSys firstSlot [97] [[97], [98, 99]] 0
    {f | f ∈ smallPages} (atRest_bareSys _ _) frees_smallPages (by decide) (by decide)
    (by decide)).ok hop
  exact ⟨s', hop, (hatomic.2.resolve_left (fun hfail => nomatch hfail.1)).2⟩

/-- **The arguments are in the stack page**, and decode back to the vector; if they do not
fit, `exec` fails. -/
theorem exec_argBlock (L : MemLayout) (s : Sys) (p : Slot) (path : Path) (argv : List (List UInt8))
    (P : Set Frame) (h : s.AtRest P) (hfree : ∀ f ∈ P, L.Frees f)
    (hstop : KERNBASE + L.PHYSTOP ≤ L.DEVSPACE) (hp : (s.proc p).state = .RUNNABLE)
    (hd : (s.proc p).pgdir ≠ none) :
    wp (exec L p path argv) (fun r s' =>
      (r = 0 ∨ r = -1) ∧
      (r = 0 → ∃ d a ptrs, (s'.proc p).pgdir = some d ∧
        ArgBlock s'.ram d (s'.proc p).sz (s'.proc p).esp a argv ptrs) ∧
      (PGSIZE < stringSpace argv + 4 * (argv.length + 4) → r = -1)) ExecHalt s := by
  have hexec := h.wp_execed (execStops hfree hstop) hp (fun hnone => absurd hnone hd) path argv
  refine hexec.imp (fun r s' hexec => ?_)
  rcases hexec with ⟨rfl, -⟩ | ⟨rfl, -, -, -, d, sz, hnew⟩
  · exact ⟨.inr rfl, nofun, fun _ => rfl⟩
  · obtain rfl := hnew.size
    obtain ⟨ptrs, hargs⟩ := hnew.args
    refine ⟨.inl rfl, fun _ => ⟨d, _, ptrs, hnew.pgdir, hargs⟩, fun hlt => ?_⟩
    exact absurd hnew.fits (Nat.not_le.mpr hlt)

theorem exec_argBlock_shellSys : ∃ s' d a ptrs,
    exec smallLayout firstSlot [97] [[97], [98, 99]] shellSys = .ok (0, s') ∧
      (s'.proc firstSlot).pgdir = some d ∧
      ArgBlock s'.ram d (s'.proc firstSlot).sz (s'.proc firstSlot).esp a [[97], [98, 99]] ptrs := by
  obtain ⟨s', hexec, -⟩ := exec_shellSys
  obtain ⟨-, hargs, -⟩ := (exec_argBlock smallLayout shellSys firstSlot [97] [[97], [98, 99]]
    {f | f ∈ smallPages} (atRest_bareSys _ _) frees_smallPages (by decide) (by decide)
    (by decide)).ok hexec
  obtain ⟨d, a, ptrs, hd, hblock⟩ := hargs rfl
  exact ⟨s', d, a, ptrs, hexec, hd, hblock⟩

end Sys

end Xv6
