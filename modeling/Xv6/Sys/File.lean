import Xv6.Fs.Path
import Xv6.Vm.Paging
import Xv6.Pipe.Pipe
import Xv6.Proc.Kernel

/-!
# The open files

What the system calls share: memory, the file system, the file table, the
pipes, and of each process what it owns – its memory, its descriptors and its
current directory. The fields of a process that scheduling depends on are those
of the scheduler's model, and left out here.

This is `file.c` and the part of `pipe.c` that makes and closes pipes. A pipe
is known by the page that holds it.
-/

namespace Xv6

open Function

/-- Descriptors of a process. -/
def NOFILE : ℕ := 16

/-- Open files of the system. -/
def NFILE : ℕ := 100

/-- A pointer to an entry of `ftable.file`. -/
abbrev Fp := Fin NFILE

/-- A descriptor. -/
abbrev Fd := Fin NOFILE

/-- The types of open files. -/
inductive FileType
  | FD_NONE
  | FD_PIPE
  | FD_INODE
  deriving DecidableEq

/-- `struct file`. -/
structure File where
  type : FileType
  ref : ℤ
  readable : Bool
  writable : Bool
  pipe : Option Frame
  ip : Option Ip
  off : ℕ

/-- `struct proc`: what a process owns, its family, and its name and registers
as `exec` leaves them. -/
structure Process where
  state : ProcState
  pid : ℤ
  parent : Option Slot
  sz : ℕ
  pgdir : Option Frame
  kstack : Option Frame
  ofile : Fd → Option Fp
  cwd : Option Ip
  name : List UInt8
  eip : ℕ
  esp : ℕ

/-- **The state the system calls work on**: memory, the file system, the file table, the pipes by
the page that they live in, and the table of processes. -/
structure Sys where
  ram : Ram
  fs : Fs
  file : Fp → File
  pipe : Frame → Pipe
  proc : Slot → Process
  initproc : Option Slot
  nextpid : ℤ

/-- Where a call ends that does not return: a panic, a null pointer, a `wait`
that sleeps, or a call of a process that is not there. -/
inductive SysHalt
  | vm (e : VmHalt)
  | fs (e : FsHalt)
  | filedup
  | fileclose
  | initExiting
  | userinit
  | null
  | sleeping
  | disabled
  deriving DecidableEq

/-- A system call. -/
abbrev SysM := StateT Sys (Except SysHalt)

namespace Sys

variable {A : Type}

/-- A function of `vm.c` in a call. -/
def vm (x : VmM A) : SysM A := fun s =>
  match x s.ram with
  | .ok (a, ram) => .ok (a, { s with ram := ram })
  | .error e => .error (.vm e)

/-- A function of `fs.c` in a call. -/
def fsys (x : FsM A) : SysM A := fun s =>
  match x s.fs with
  | .ok (a, fs) => .ok (a, { s with fs := fs })
  | .error e => .error (.fs e)

/-- A pointer that is followed. -/
def deref : Option A → SysM A
  | some a => pure a
  | none => throw .null

/-- Change an open file. -/
def setFile (f : Fp) (x : File → File) (s : Sys) : Sys :=
  { s with file := update s.file f (x (s.file f)) }

/-- Change a pipe. -/
def setPipe (p : Frame) (x : Pipe → Pipe) (s : Sys) : Sys :=
  { s with pipe := update s.pipe p (x (s.pipe p)) }

/-- Change a process. -/
def setProc (p : Slot) (x : Process → Process) (s : Sys) : Sys :=
  { s with proc := update s.proc p (x (s.proc p)) }

/-- `p->ofile[fd] = f`. -/
def setFd (p : Slot) (fd : Fd) (f : Option Fp) : Sys → Sys :=
  setProc p (fun x => { x with ofile := update x.ofile fd f })

/-- `pipeclose`. -/
def pipeclose (L : MemLayout) (p : Frame) (writable : Bool) : SysM PUnit := do
  if writable then modify (setPipe p (fun x => { x with writeopen := false }))
  else modify (setPipe p (fun x => { x with readopen := false }))
  let s ← get
  if (s.pipe p).readopen = false ∧ (s.pipe p).writeopen = false then vm (Ram.kfree L p)

/-- `filealloc`. -/
def filealloc : SysM (Option Fp) := do
  let s ← get
  match (List.finRange NFILE).find? (fun f => decide ((s.file f).ref = 0)) with
  | none => return none
  | some f => do
    modify (setFile f (fun x => { x with ref := 1 }))
    return some f

/-- `filedup`. -/
def filedup (f : Fp) : SysM PUnit := do
  let s ← get
  if (s.file f).ref < 1 then throw .filedup
  else modify (setFile f (fun x => { x with ref := x.ref + 1 }))

/-- The end of `fileclose`, with the copy of the file that nothing refers to. -/
def fileput (L : MemLayout) (ff : File) : SysM PUnit :=
  match ff.type with
  | .FD_PIPE => do
    let p ← deref ff.pipe
    pipeclose L p ff.writable
  | .FD_INODE => do
    let ip ← deref ff.ip
    fsys (Fs.iput ip)
  | .FD_NONE => pure ⟨⟩

/-- `fileclose`. -/
def fileclose (L : MemLayout) (f : Fp) : SysM PUnit := do
  let s ← get
  let ff := s.file f
  if ff.ref < 1 then throw .fileclose
  else if 0 < ff.ref - 1 then modify (setFile f (fun x => { x with ref := x.ref - 1 }))
  else do
    modify (setFile f (fun x => { x with ref := 0, type := .FD_NONE }))
    fileput L ff

/-- `pipealloc`. There is no page to free where it fails. -/
def pipealloc (L : MemLayout) : SysM (Option (Fp × Fp)) := do
  match ← filealloc with
  | none => return none
  | some f0 =>
    match ← filealloc with
    | none => do
      fileclose L f0
      return none
    | some f1 =>
      match ← vm Ram.kalloc with
      | none => do
        fileclose L f0
        fileclose L f1
        return none
      | some p => do
        modify (setPipe p (fun x => Pipe.fresh x.data))
        modify (setFile f0 (fun x =>
          { x with type := .FD_PIPE, readable := true, writable := false, pipe := some p }))
        modify (setFile f1 (fun x =>
          { x with type := .FD_PIPE, readable := false, writable := true, pipe := some p }))
        return some (f0, f1)

/-! ## Descriptors -/

/-- `argfd`. -/
def argfd (p : Slot) (fd : ℤ) : SysM (Option (Fd × Fp)) := do
  let s ← get
  if h : 0 ≤ fd ∧ fd < NOFILE then
    let i : Fd := ⟨fd.toNat, by omega⟩
    return ((s.proc p).ofile i).map (fun f => (i, f))
  else return none

/-- `fdalloc`. -/
def fdalloc (p : Slot) (f : Fp) : SysM (Option Fd) := do
  let s ← get
  match (List.finRange NOFILE).find? (fun fd => decide ((s.proc p).ofile fd = none)) with
  | none => return none
  | some fd => do
    modify (setFd p fd (some f))
    return some fd

/-- `sys_dup`. -/
def sysDup (p : Slot) (fd : ℤ) : SysM ℤ := do
  match ← argfd p fd with
  | none => return -1
  | some (_, f) =>
    match ← fdalloc p f with
    | none => return -1
    | some fd => do
      filedup f
      return fd.val

/-- `sys_close`. -/
def sysClose (L : MemLayout) (p : Slot) (fd : ℤ) : SysM ℤ := do
  match ← argfd p fd with
  | none => return -1
  | some (fd, f) => do
    modify (setFd p fd none)
    fileclose L f
    return 0

/-- `sys_pipe`: what it returns, and the two descriptors it stores. -/
def sysPipe (L : MemLayout) (p : Slot) : SysM (ℤ × Option (Fd × Fd)) := do
  match ← pipealloc L with
  | none => return (-1, none)
  | some (rf, wf) =>
    match ← fdalloc p rf with
    | none => do
      fileclose L rf
      fileclose L wf
      return (-1, none)
    | some fd0 =>
      match ← fdalloc p wf with
      | none => do
        modify (setFd p fd0 none)
        fileclose L rf
        fileclose L wf
        return (-1, none)
      | some fd1 => return (0, some (fd0, fd1))

/-- The current directory. -/
def getCwd (p : Slot) : SysM Ip := do
  let s ← get
  deref (s.proc p).cwd

/-- `sys_open`. -/
def sysOpen (L : MemLayout) (p : Slot) (path : Path) (omode : ℕ) : SysM ℤ := do
  let cwd ← getCwd p
  match ← fsys (Fs.openInode cwd path omode) with
  | none => return -1
  | some ip =>
    match ← filealloc with
    | none => do
      fsys (Fs.iunlockput ip)
      return -1
    | some f =>
      match ← fdalloc p f with
      | none => do
        fileclose L f
        fsys (Fs.iunlockput ip)
        return -1
      | some fd => do
        fsys (Fs.iunlock ip)
        modify (setFile f (fun x =>
          { x with
            type := .FD_INODE
            ip := some ip
            off := 0
            readable := omode &&& Fs.O_WRONLY = 0
            writable := omode &&& Fs.O_WRONLY ≠ 0 ∨ omode &&& Fs.O_RDWR ≠ 0 }))
        return fd.val

/-- `sys_chdir`. -/
def sysChdir (p : Slot) (path : Path) : SysM ℤ := do
  let cwd ← getCwd p
  let (r, cwd) ← fsys (Fs.sysChdir cwd path)
  modify (setProc p (fun x => { x with cwd := some cwd }))
  return r

end Sys

end Xv6
