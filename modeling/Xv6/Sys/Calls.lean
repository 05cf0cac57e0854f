import Xv6.Lib.Machine
import Xv6.Sys.File

/-!
# The system calls

The calls of `proc.c`, `exec.c` and `sysfile.c` that take or give back memory,
files or inodes, and the machine whose steps are these calls, each one run to
its end by the process that makes it. A call whose arguments are not in the
caller's memory returns at once, and is left out. A `wait` that would sleep does
not end, so it is no step.

`userinit` comes first, and a run goes on from the state it leaves.
-/

namespace Xv6

/-- Most arguments of `exec`. -/
def MAXARG : ℕ := 32

/-- `ELF_MAGIC`. -/
def ELF_MAGIC : ℕ := 0x464C457F

/-- `ELF_PROG_LOAD`. -/
def ELF_PROG_LOAD : ℕ := 1

/-- `sizeof(struct elfhdr)`. -/
def ELFHDR : ℕ := 52

/-- `sizeof(struct proghdr)`. -/
def PROGHDR : ℕ := 32

/-- The `ushort` at an offset. -/
def shortAt (b : List UInt8) (off : ℕ) : ℕ := (b.getD off 0).toNat + 2 ^ 8 * (b.getD (off + 1) 0).toNat

/-- The `uint` at an offset. -/
def wordAt (b : List UInt8) (off : ℕ) : ℕ := shortAt b off + 2 ^ 16 * shortAt b (off + 2)

/-- The bytes of a `uint`. -/
def wordBytes (w : ℕ) : List UInt8 :=
  [UInt8.ofNat w, UInt8.ofNat (w / 2 ^ 8), UInt8.ofNat (w / 2 ^ 16), UInt8.ofNat (w / 2 ^ 24)]

/-- The difference of two `uint`s. -/
def usub (a b : ℕ) : ℕ := (a + (2 ^ 32 - b % 2 ^ 32)) % 2 ^ 32

namespace Sys

variable (L : MemLayout)

/-! ## Processes -/

/-- `allocproc`. -/
def allocproc : SysM (Option Slot) := do
  let s ← get
  match slots.find? (fun p => (s.proc p).state = .UNUSED) with
  | none => return none
  | some p => do
    modify (setProc p (fun x => { x with state := .EMBRYO, pid := s.nextpid }))
    modify (fun s => { s with nextpid := wrap32 (s.nextpid + 1) })
    let kstack ← vm Ram.kalloc
    modify (setProc p (fun x => { x with kstack := kstack }))
    if kstack = none then do
      modify (setProc p (fun x => { x with state := .UNUSED }))
      return none
    else return some p

/-- `userinit`. -/
def userinit (initcode : List UInt8) : SysM PUnit := do
  let p ← allocproc
  modify (fun s => { s with initproc := p })
  let p ← deref p
  match ← vm (Ram.setupkvm L) with
  | none => throw .userinit
  | some pgdir => do
    modify (setProc p (fun x => { x with pgdir := some pgdir }))
    vm (Ram.inituvm pgdir initcode)
    let cwd ← fsys (Fs.namei ⟨0, NINODE_pos⟩ [SLASH])
    modify (setProc p (fun x =>
      { x with sz := PGSIZE, eip := 0, esp := PGSIZE, name := "initcode".toUTF8.toList, cwd := cwd }))
    modify (setProc p (fun x => { x with state := .RUNNABLE }))

/-- `growproc`. -/
def growproc (p : Slot) (n : ℤ) : SysM ℤ := do
  let s ← get
  let sz := (s.proc p).sz
  let newsz := ((sz + n) % 2 ^ 32).toNat
  let pgdir ← deref (s.proc p).pgdir
  if 0 < n then do
    let sz ← vm (Ram.allocuvm L pgdir sz newsz)
    if sz = 0 then return -1
    else do
      modify (setProc p (fun x => { x with sz := sz }))
      return 0
  else if n < 0 then do
    let sz ← vm (Ram.deallocuvm L pgdir sz newsz)
    if sz = 0 then return -1
    else do
      modify (setProc p (fun x => { x with sz := sz }))
      return 0
  else return 0

/-- The loop of `fork` over the descriptors. -/
def forkFiles (p np : Slot) : SysM PUnit :=
  (List.finRange NOFILE).forM (fun i => do
    let s ← get
    match (s.proc p).ofile i with
    | none => pure ⟨⟩
    | some f => do
      filedup f
      modify (setFd np i (some f)))

/-- `fork`. -/
def fork (p : Slot) : SysM ℤ := do
  match ← allocproc with
  | none => return -1
  | some np => do
    let s ← get
    let pgdir ← deref (s.proc p).pgdir
    match ← vm (Ram.copyuvm L pgdir (s.proc p).sz) with
    | none => do
      vm (Ram.kfreePtr L (s.proc np).kstack)
      modify (setProc np (fun x => { x with pgdir := none, kstack := none, state := .UNUSED }))
      return -1
    | some d => do
      modify (setProc np (fun x =>
        { x with
          pgdir := some d
          sz := (s.proc p).sz
          parent := some p
          eip := (s.proc p).eip
          esp := (s.proc p).esp }))
      forkFiles p np
      let cwd ← getCwd p
      fsys (Fs.idup cwd)
      modify (setProc np (fun x => { x with cwd := some cwd, name := (s.proc p).name }))
      modify (setProc np (fun x => { x with state := .RUNNABLE }))
      return (s.proc np).pid

/-- The loop of `exit` over the descriptors. -/
def exitFiles (p : Slot) : SysM PUnit :=
  (List.finRange NOFILE).forM (fun fd => do
    let s ← get
    match (s.proc p).ofile fd with
    | none => pure ⟨⟩
    | some f => do
      fileclose L f
      modify (setFd p fd none))

/-- `exit`. -/
def exit (p : Slot) : SysM PUnit := do
  let s ← get
  if s.initproc = some p then throw .initExiting
  else do
    exitFiles L p
    let cwd ← getCwd p
    fsys (Fs.iput cwd)
    modify (setProc p (fun x => { x with cwd := none }))
    modify (fun s => { s with proc := fun q =>
      if (s.proc q).parent = some p then { s.proc q with parent := s.initproc } else s.proc q })
    modify (setProc p (fun x => { x with state := .ZOMBIE }))

/-- `wait`. -/
def wait (p : Slot) : SysM ℤ := do
  let s ← get
  match slots.find? (fun q => (s.proc q).parent = some p ∧ (s.proc q).state = .ZOMBIE) with
  | some q => do
    vm (Ram.kfreePtr L (s.proc q).kstack)
    vm (Ram.freevm L (s.proc q).pgdir)
    modify (setProc q (fun x =>
      { x with kstack := none, pid := 0, parent := none, name := [], state := .UNUSED }))
    return (s.proc q).pid
  | none =>
    if ∃ q, (s.proc q).parent = some p then throw .sleeping
    else return -1

/-! ## `exec` -/

/-- The loop of `loaduvm`. -/
def loaduvmLoop (pgdir : Frame) (addr : ℕ) (ip : Ip) (offset sz : ℕ) : ℕ → ℕ → SysM ℤ
  | 0, _ => return 0
  | turns + 1, i =>
    if i < sz then do
      match ← vm (Ram.walkpgdir pgdir ((addr + i) % 2 ^ 32) false) with
      | none => throw (.vm .loaduvmPte)
      | some pte => do
        let w ← vm (Ram.load pte)
        let n := if sz - i < PGSIZE then sz - i else PGSIZE
        let (r, data) ← fsys (Fs.readi ip ((offset + i) % 2 ^ 32) n)
        vm (modify (Ram.setPage (pteFrame w) (Bytes.setBytes 0 data)))
        if r ≠ n then return -1
        else loaduvmLoop pgdir addr ip offset sz turns (i + PGSIZE)
    else return 0

/-- `loaduvm`. -/
def loaduvm (pgdir : Frame) (addr : ℕ) (ip : Ip) (offset sz : ℕ) : SysM ℤ :=
  if addr % PGSIZE ≠ 0 then throw (.vm .loaduvmAddr)
  else loaduvmLoop pgdir addr ip offset sz ((sz + (PGSIZE - 1)) / PGSIZE) 0

/-- The loop of `exec` over the program headers; `none` is `goto bad`. -/
def execSegments (pgdir : Frame) (ip : Ip) : ℕ → ℕ → ℕ → SysM (Option ℕ)
  | 0, _, sz => return some sz
  | turns + 1, off, sz => do
    let (r, ph) ← fsys (Fs.readi ip off PROGHDR)
    let type := wordAt ph 0
    let fileoff := wordAt ph 4
    let vaddr := wordAt ph 8
    let filesz := wordAt ph 16
    let memsz := wordAt ph 20
    if r ≠ PROGHDR then return none
    else if type ≠ ELF_PROG_LOAD then execSegments pgdir ip turns ((off + PROGHDR) % 2 ^ 32) sz
    else if memsz < filesz then return none
    else if (vaddr + memsz) % 2 ^ 32 < vaddr then return none
    else do
      let sz ← vm (Ram.allocuvm L pgdir sz ((vaddr + memsz) % 2 ^ 32))
      if sz = 0 then return none
      else if vaddr % PGSIZE ≠ 0 then return none
      else if (← loaduvm pgdir vaddr ip fileoff filesz) < 0 then return none
      else execSegments pgdir ip turns ((off + PROGHDR) % 2 ^ 32) sz

/-- The loop of `exec` over the arguments, with the pointers stored so far. -/
def execArgs (pgdir : Frame) : List (List UInt8) → ℕ → List ℕ → SysM (Option (ℕ × List ℕ))
  | [], sp, ustack => return some (sp, ustack)
  | arg :: argv, sp, ustack =>
    if MAXARG ≤ ustack.length then return none
    else do
      let sp := usub sp (arg.length + 1) / 4 * 4
      if (← vm (Ram.copyout pgdir sp (arg ++ [0]))) < 0 then return none
      else execArgs pgdir argv sp (ustack ++ [sp])

/-- The stack that `exec` builds; `none` is `goto bad`. -/
def execStack (pgdir : Frame) (argv : List (List UInt8)) (sz : ℕ) : SysM (Option ℕ) := do
  match ← execArgs pgdir argv sz [] with
  | none => return none
  | some (sp, ptrs) => do
    let argc := ptrs.length
    let ustack := [0xFFFFFFFF, argc, usub sp ((argc + 1) * 4)] ++ ptrs ++ [0]
    let sp := usub sp ((3 + argc + 1) * 4)
    if (← vm (Ram.copyout pgdir sp (ustack.flatMap wordBytes))) < 0 then return none
    else return some sp

/-- `exec` after the file has been loaded: the stack and the commit. -/
def execCommit (p : Slot) (path : Path) (argv : List (List UInt8)) (entry : ℕ) (pgdir : Frame)
    (sz : ℕ) : SysM ℤ := do
  let sz := PGROUNDUP sz
  let sz ← vm (Ram.allocuvm L pgdir sz ((sz + 2 * PGSIZE) % 2 ^ 32))
  if sz = 0 then do
    vm (Ram.freevm L (some pgdir))
    return -1
  else do
    vm (Ram.clearpteu pgdir (sz - 2 * PGSIZE))
    match ← execStack pgdir argv sz with
    | none => do
      vm (Ram.freevm L (some pgdir))
      return -1
    | some sp => do
      let s ← get
      -- what follows the last slash
      let last := (path.reverse.takeWhile (· != SLASH)).reverse
      modify (setProc p (fun x =>
        { x with name := last.take 15, pgdir := some pgdir, sz := sz, eip := entry, esp := sp }))
      vm (Ram.freevm L (s.proc p).pgdir)
      return 0

/-- `exec`. -/
def exec (p : Slot) (path : Path) (argv : List (List UInt8)) : SysM ℤ := do
  let cwd ← getCwd p
  match ← fsys (Fs.namei cwd path) with
  | none => return -1
  | some ip => do
    fsys (Fs.ilock ip)
    let (r, elf) ← fsys (Fs.readi ip 0 ELFHDR)
    if r ≠ ELFHDR ∨ wordAt elf 0 ≠ ELF_MAGIC then do
      fsys (Fs.iunlockput ip)
      return -1
    else
      match ← vm (Ram.setupkvm L) with
      | none => do
        fsys (Fs.iunlockput ip)
        return -1
      | some pgdir =>
        match ← execSegments L pgdir ip (shortAt elf 44) (wordAt elf 28) 0 with
        | none => do
          vm (Ram.freevm L (some pgdir))
          fsys (Fs.iunlockput ip)
          return -1
        | some sz => do
          fsys (Fs.iunlockput ip)
          execCommit L p path argv (wordAt elf 24) pgdir sz

/-! ## The machine -/

/-- The calls. -/
inductive Call
  | fork
  | exit
  | wait
  | sbrk (n : ℤ)
  | exec (path : Path) (argv : List (List UInt8))
  | dup (fd : ℤ)
  | close (fd : ℤ)
  | pipe
  | open (path : Path) (omode : ℕ)
  | link (old new : Path)
  | unlink (path : Path)
  | mkdir (path : Path)
  | mknod (path : Path) (major minor : Int16)
  | chdir (path : Path)

/-- A call of `fs.c` from the caller's directory. -/
def inCwd (p : Slot) (x : Ip → FsM ℤ) : SysM ℤ := do
  let cwd ← getCwd p
  fsys (x cwd)

/-- What a call does. -/
def call (p : Slot) : Call → SysM ℤ
  | .fork => fork L p
  | .exit => do
    exit L p
    return 0
  | .wait => wait L p
  | .sbrk n => growproc L p n
  | .exec path argv => exec L p path argv
  | .dup fd => sysDup p fd
  | .close fd => sysClose L p fd
  | .pipe => Prod.fst <$> sysPipe L p
  | .open path omode => sysOpen L p path omode
  | .link old new => inCwd p (fun cwd => Fs.sysLink cwd old new)
  | .unlink path => inCwd p (fun cwd => Fs.sysUnlink cwd path)
  | .mkdir path => inCwd p (fun cwd => Fs.sysMkdir cwd path)
  | .mknod path major minor => inCwd p (fun cwd => Fs.sysMknod cwd path major minor)
  | .chdir path => sysChdir p path

/-- A call, who makes it, and which calls of `kalloc` in it fail though there
are pages. -/
structure Event where
  caller : Slot
  call : Call
  refuse : List Bool

/-- **One step.** -/
def step (s : Sys) (e : Event) : Except SysHalt (ℤ × Sys) :=
  if (s.proc e.caller).state = .RUNNABLE then
    call L e.caller e.call { s with ram := { s.ram with refuse := e.refuse } }
  else .error .disabled

/-- **A run.** -/
def run (s : Sys) (es : List Event) : Except SysHalt Sys := Machine.exec (step L) s es

/-- `struct proc` before it is used. -/
def noProcess : Process where
  state := .UNUSED
  pid := 0
  parent := none
  sz := 0
  pgdir := none
  kstack := none
  ofile := fun _ => none
  cwd := none
  name := []
  eip := 0
  esp := 0

/-- `struct file` before it is used. -/
def noFile : File := ⟨.FD_NONE, 0, false, false, none, none, 0⟩

/-- The state in which `main` calls `userinit`: the pages that are free then,
what memory holds, and the file system. -/
def start (pages : List Frame) (page : Frame → Page) (pipe : Frame → Pipe) (fs : Fs) : Sys where
  ram := ⟨pages, page, []⟩
  fs := fs
  file := fun _ => noFile
  pipe := pipe
  proc := fun _ => noProcess
  initproc := none
  nextpid := 1

end Sys

end Xv6
