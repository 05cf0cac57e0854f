import Xv6.Lib.Machine
import Xv6.Sched.Interface
import Mathlib.Data.List.FinRange

/-!
# Processes and their scheduling

`proc.c` as a machine whose steps are its `ptable.lock` critical sections.
The lock is held across `swtch`: a section that enters in a process and
calls `sched` ends in the scheduler of that CPU, and a section that enters
in the scheduler ends where the process it dispatched releases the lock.
So `yield`, `sleep` and `exit` each take the second half of
`Priority_Scheduler` with them, and a dispatch goes on in the process from
where it left the CPU – for a process sleeping in `wait`, with another
scan of the table.

What the processes do outside these sections with the table is modelled
too: the child a `fork` is building belongs to its parent until the final
section, and is written by it without the lock.

The file models the control flow of `proc.c` on the fields scheduling
depends on. Memory, files, trap frames and kernel stacks are left out;
their failures are the event `forkFail`.
-/

namespace Xv6

/-- A slot of `ptable.proc`, standing for the address `&ptable.proc[i]`. -/
abbrev Slot := Fin NPROC

/-- `enum procstate`. -/
inductive ProcState where
  | UNUSED | EMBRYO | SLEEPING | RUNNABLE | RUNNING | ZOMBIE
deriving DecidableEq, Repr

/-- An address to sleep on: null, a process, or anything else. -/
inductive Chan where
  | null
  | proc (p : Slot)
  | other (addr : ℕ)
deriving DecidableEq, Repr

/-- The address a process pointer holds. -/
def Chan.ofPtr : Option Slot → Chan
  | none => null
  | some p => proc p

/-- **Where a process goes on when it is given the CPU**: what its saved
context will do with `ptable.lock` held. -/
inductive Context where
  | forkret | yield | sleep | wait | exit
deriving DecidableEq, Repr

/-- How far a process is in `fork`: not in it, with a child from
`allocproc`, or with the child's `parent` set. -/
inductive Forking where
  | no
  | allocated (np : Slot)
  | copied (np : Slot)
deriving DecidableEq, Repr

/-- The child being built. -/
def Forking.child : Forking → Option Slot
  | no => none
  | allocated np => some np
  | copied np => some np

/-- `struct proc`. -/
structure Proc where
  state : ProcState
  pid : ℤ
  parent : Option Slot
  chan : Chan
  killed : Bool
  status : ℤ
  priority : ℤ
  accumulator : ℤ
  context : Context
  forking : Forking
deriving DecidableEq, Repr

/-- A slot of the zeroed table. -/
def Proc.zero : Proc where
  state := .UNUSED
  pid := 0
  parent := none
  chan := .null
  killed := false
  status := 0
  priority := 0
  accumulator := 0
  context := .forkret
  forking := .no

/-- How far `main` is: before `userinit`, in it after `allocproc`, after it. -/
inductive Boot where
  | main
  | userinit (p : Slot)
  | done
deriving DecidableEq, Repr

/-- **The state of the machine** when `ptable.lock` is free, over the
scheduling structures `D` and `n` CPUs. -/
structure Kernel (D : Type) (n : ℕ) where
  proc : Slot → Proc
  cpuProc : Fin n → Option Slot
  initproc : Option Slot
  nextpid : ℤ
  boot : Boot
  ds : D

/-- Why a step does not happen: nobody is there to make it, or it ends in
`panic`, or in the dereference of a null pointer. -/
inductive Halt where
  | disabled
  | panic (msg : String)
  | null
deriving DecidableEq, Repr

/-- A value a kernel function returns to the process that called it, and
for `wait` what it stored at `status`. -/
structure Return where
  proc : Slot
  value : ℤ
  status : Option ℤ
deriving DecidableEq, Repr

/-- The arithmetic of `long long`. -/
def wrap64 (x : ℤ) : ℤ := x.bmod (2 ^ 64)

/-- The arithmetic of `int`. -/
def wrap32 (x : ℤ) : ℤ := x.bmod (2 ^ 32)

/-- The table in the order the loops go through it. -/
def slots : List Slot := List.finRange NPROC

namespace Kernel

variable {D : Type} {n : ℕ}

/-- Write to one process. -/
def setProc (p : Slot) (f : Proc → Proc) (k : Kernel D n) : Kernel D n :=
  { k with proc := Function.update k.proc p (f (k.proc p)) }

/-- Write `c->proc`. -/
def setCpu (c : Fin n) (p : Option Slot) (k : Kernel D n) : Kernel D n :=
  { k with cpuProc := Function.update k.cpuProc c p }

/-- `getAccumulator`. -/
def getAccumulator (k : Kernel D n) (p : Slot) : ℤ := (k.proc p).accumulator

variable [Scheduling D Slot]

/-- `pq.put`, the result ignored as everywhere in `proc.c`. -/
def pqPut (p : Slot) (k : Kernel D n) : Kernel D n :=
  { k with ds := (Scheduling.pqPut k.getAccumulator p k.ds).2 }

/-- `rpholder.add`. -/
def rpAdd (p : Slot) (k : Kernel D n) : Kernel D n :=
  { k with ds := (Scheduling.rpAdd p k.ds).2 }

/-- `rpholder.remove`. -/
def rpRemove (p : Slot) (k : Kernel D n) : Kernel D n :=
  { k with ds := (Scheduling.rpRemove p k.ds).2 }

/-- `get_min`. -/
def getMin (k : Kernel D n) : ℤ :=
  if Scheduling.pqIsEmpty k.ds then 0
  else if Scheduling.rpIsEmpty k.ds then (Scheduling.pqGetMinAccumulator k.ds).getD 0
  else
    let minAccumulatorPq := (Scheduling.pqGetMinAccumulator k.ds).getD 0
    let minAccumulatorRpholder :=
      (Scheduling.rpGetMinAccumulator k.getAccumulator k.ds).getD 0
    if minAccumulatorPq < minAccumulatorRpholder then minAccumulatorPq
    else minAccumulatorRpholder

/-- The lines `p->state = RUNNABLE; p->accumulator = get_min(); pq.put(p);`
of `userinit`, `fork`, `wakeup1` and `kill`. -/
def makeRunnable (p : Slot) (k : Kernel D n) : Kernel D n :=
  let k := k.setProc p (fun x => { x with state := .RUNNABLE })
  let k := k.setProc p (fun x => { x with accumulator := k.getMin })
  k.pqPut p

/-- The critical section of `allocproc`, with the context it then sets up. -/
def allocproc (k : Kernel D n) : Option (Slot × Kernel D n) :=
  match slots.find? (fun p => (k.proc p).state = .UNUSED) with
  | none => none
  | some p =>
    let k := k.setProc p (fun x => { x with state := .EMBRYO, pid := k.nextpid })
    let k := { k with nextpid := wrap32 (k.nextpid + 1) }
    some (p, k.setProc p (fun x => { x with context := .forkret }))

/-- One turn of the loop of `wakeup1`. -/
def wakeupSlot (chan : Chan) (k : Kernel D n) (p : Slot) : Kernel D n :=
  if (k.proc p).state = .SLEEPING ∧ (k.proc p).chan = chan then k.makeRunnable p else k

/-- `wakeup1`. -/
def wakeup1 (chan : Chan) (k : Kernel D n) : Kernel D n :=
  slots.foldl (wakeupSlot chan) k

/-! ## Into and out of the scheduler -/

/-- The second half of `Priority_Scheduler`, after `swtch` has come back to
the scheduler of CPU `c` from process `p`. -/
def priorityScheduler₂ (c : Fin n) (p : Slot) (k : Kernel D n) : Kernel D n :=
  let k := k.setCpu c none
  let k := k.rpRemove p
  if (k.proc p).state = .RUNNABLE then
    let k := k.setProc p
      (fun x => { x with accumulator := wrap64 (x.accumulator + x.priority) })
    k.pqPut p
  else k

/-- `sched`, called by `p` on CPU `c`: leave the context and go back to the
scheduler. -/
def sched (c : Fin n) (p : Slot) (ctx : Context) (k : Kernel D n) : Kernel D n :=
  (k.setProc p (fun x => { x with context := ctx })).priorityScheduler₂ c p

/-- `sleep`, from where `ptable.lock` is held. -/
def sleepLocked (c : Fin n) (p : Slot) (chan : Chan) (ctx : Context) (k : Kernel D n) :
    Kernel D n :=
  let k := k.setProc p (fun x => { x with chan := chan, state := .SLEEPING })
  let k := k.rpRemove p
  k.sched c p ctx

/-- The freeing of a zombie in `wait`. -/
def reap (p : Slot) (k : Kernel D n) : Kernel D n :=
  k.setProc p (fun x => { x with pid := 0, parent := none, killed := false, state := .UNUSED })

/-- The loop of `wait`, up to where it returns or goes to sleep. -/
def waitLoop (c : Fin n) (curproc : Slot) (k : Kernel D n) : Option Return × Kernel D n :=
  match slots.find? (fun p => (k.proc p).parent = some curproc ∧ (k.proc p).state = .ZOMBIE) with
  | some p => (some ⟨curproc, (k.proc p).pid, some (k.proc p).status⟩, k.reap p)
  | none =>
    let havekids := slots.any (fun p => (k.proc p).parent = some curproc)
    if !havekids || (k.proc curproc).killed then (some ⟨curproc, -1, none⟩, k)
    else (none, k.sleepLocked c curproc (.proc curproc) .wait)

/-- The lines of `Priority_Scheduler` that give CPU `c` to `p`, after
`extractMin` has left the structures `ds`. -/
def switchTo (c : Fin n) (p : Slot) (ds : D) (k : Kernel D n) : Kernel D n :=
  let k := { k with ds }
  let k := k.setCpu c (some p)
  let k := k.setProc p (fun x => { x with state := .RUNNING })
  k.rpAdd p

/-- The first half of `Priority_Scheduler` on CPU `c`, up to `swtch`: the
process it switches to, if any. -/
def priorityScheduler₁ (c : Fin n) (k : Kernel D n) : Except Halt (Option Slot × Kernel D n) :=
  if Scheduling.pqIsEmpty k.ds then .ok (none, k)
  else
    match Scheduling.pqExtractMin k.ds with
    | (none, _) => .error .null
    | (some p, ds) =>
      if (k.proc p).state = .RUNNABLE then .ok (some p, k.switchTo c p ds)
      else .ok (none, { k with ds })

/-- What `p` does on CPU `c` when `swtch` comes to its context, up to where
it releases `ptable.lock`. -/
def resume (c : Fin n) (p : Slot) (k : Kernel D n) : Except Halt (Option Return × Kernel D n) :=
  let clearChan := k.setProc p (fun x => { x with chan := .null })
  match (k.proc p).context with
  | .forkret => .ok (none, k)
  | .yield => .ok (none, k)
  | .sleep => .ok (none, clearChan)
  | .wait => .ok (clearChan.waitLoop c p)
  | .exit => .error (.panic "zombie exit")

/-! ## The sections -/

/-- The process on CPU `c`, if it is not in the middle of a `fork`. -/
def current (c : Fin n) (k : Kernel D n) : Except Halt Slot :=
  match k.cpuProc c with
  | none => .error .disabled
  | some p => if (k.proc p).forking = .no then .ok p else .error .disabled

/-- `allocproc` called by `userinit`. -/
def userinitAlloc (k : Kernel D n) : Except Halt (Option Return × Kernel D n) :=
  match k.boot with
  | .main =>
    match k.allocproc with
    | none => .error .null
    | some (p, k) => .ok (none, { k with initproc := some p, boot := .userinit p })
  | _ => .error .disabled

/-- The final section of `userinit`. -/
def userinit (k : Kernel D n) : Except Halt (Option Return × Kernel D n) :=
  match k.boot with
  | .userinit p =>
    let k := k.setProc p (fun x => { x with priority := 5 })
    .ok (none, { k.makeRunnable p with boot := .done })
  | _ => .error .disabled

/-- `allocproc` called by `fork`. -/
def forkAlloc (c : Fin n) (k : Kernel D n) : Except Halt (Option Return × Kernel D n) := do
  let curproc ← k.current c
  match k.allocproc with
  | none => return (some ⟨curproc, -1, none⟩, k)
  | some (np, k) => return (none, k.setProc curproc (fun x => { x with forking := .allocated np }))

/-- A `fork` that gives up because `kalloc` or `copyuvm` failed. The child
goes back to the table without the lock. -/
def forkFail (c : Fin n) (k : Kernel D n) : Except Halt (Option Return × Kernel D n) :=
  match k.cpuProc c with
  | none => .error .disabled
  | some curproc =>
    match (k.proc curproc).forking with
    | .allocated np =>
      let k := k.setProc np (fun x => { x with state := .UNUSED })
      .ok (some ⟨curproc, -1, none⟩, k.setProc curproc (fun x => { x with forking := .no }))
    | _ => .error .disabled

/-- The copying in `fork`, without the lock. -/
def forkCopy (c : Fin n) (k : Kernel D n) : Except Halt (Option Return × Kernel D n) :=
  match k.cpuProc c with
  | none => .error .disabled
  | some curproc =>
    match (k.proc curproc).forking with
    | .allocated np =>
      let k := k.setProc np (fun x => { x with parent := some curproc })
      .ok (none, k.setProc curproc (fun x => { x with forking := .copied np }))
    | _ => .error .disabled

/-- The final section of `fork`. -/
def fork (c : Fin n) (k : Kernel D n) : Except Halt (Option Return × Kernel D n) :=
  match k.cpuProc c with
  | none => .error .disabled
  | some curproc =>
    match (k.proc curproc).forking with
    | .copied np =>
      let pid := (k.proc np).pid
      let k := k.setProc np (fun x => { x with priority := 5 })
      let k := k.makeRunnable np
      .ok (some ⟨curproc, pid, none⟩, k.setProc curproc (fun x => { x with forking := .no }))
    | _ => .error .disabled

/-- `Priority_Scheduler` on an idle CPU, up to where the lock is released. -/
def dispatch (c : Fin n) (k : Kernel D n) : Except Halt (Option Return × Kernel D n) :=
  match k.cpuProc c with
  | some _ => .error .disabled
  | none => do
    match ← k.priorityScheduler₁ c with
    | (none, k) => return (none, k)
    | (some p, k) => k.resume c p

/-- `yield`, from the timer interrupt: it can come in the middle of a
`fork`. -/
def yield (c : Fin n) (k : Kernel D n) : Except Halt (Option Return × Kernel D n) :=
  match k.cpuProc c with
  | none => .error .disabled
  | some p =>
    let k := k.setProc p (fun x => { x with state := .RUNNABLE })
    let k := k.rpRemove p
    let k := k.pqPut p
    .ok (none, k.sched c p .yield)

/-- `sleep` on a channel, under a lock other than `ptable.lock`. -/
def sleep (c : Fin n) (chan : Chan) (k : Kernel D n) :
    Except Halt (Option Return × Kernel D n) := do
  let p ← k.current c
  return (none, k.sleepLocked c p chan .sleep)

/-- One turn of the loop of `exit` that passes the children on. -/
def passChild (curproc : Slot) (k : Kernel D n) (p : Slot) : Kernel D n :=
  if (k.proc p).parent = some curproc then
    let k := k.setProc p (fun x => { x with parent := k.initproc })
    if (k.proc p).state = .ZOMBIE then k.wakeup1 (.ofPtr k.initproc) else k
  else k

/-- `exit`. -/
def exit (c : Fin n) (status : Int32) (k : Kernel D n) :
    Except Halt (Option Return × Kernel D n) := do
  let curproc ← k.current c
  let k := k.setProc curproc (fun x => { x with status := status.toInt })
  if some curproc = k.initproc then throw (.panic "init exiting")
  let k := k.wakeup1 (.ofPtr (k.proc curproc).parent)
  let k := slots.foldl (passChild curproc) k
  let k := k.setProc curproc (fun x => { x with state := .ZOMBIE })
  return (none, k.sched c curproc .exit)

/-- `wait`. -/
def wait (c : Fin n) (k : Kernel D n) : Except Halt (Option Return × Kernel D n) := do
  let curproc ← k.current c
  return k.waitLoop c curproc

/-- `kill`. -/
def kill (c : Fin n) (pid : Int32) (k : Kernel D n) :
    Except Halt (Option Return × Kernel D n) := do
  let curproc ← k.current c
  match slots.find? (fun p => (k.proc p).pid = pid.toInt) with
  | none => return (some ⟨curproc, -1, none⟩, k)
  | some p =>
    let k := k.setProc p (fun x => { x with killed := true })
    let k := if (k.proc p).state = .SLEEPING then k.makeRunnable p else k
    return (some ⟨curproc, 0, none⟩, k)

/-- `detach`. -/
def detach (c : Fin n) (pid : Int32) (k : Kernel D n) :
    Except Halt (Option Return × Kernel D n) := do
  let curproc ← k.current c
  match slots.find? (fun p => (k.proc p).pid = pid.toInt ∧ (k.proc p).parent = some curproc) with
  | none => return (some ⟨curproc, -1, none⟩, k)
  | some p =>
    return (some ⟨curproc, 0, none⟩, k.setProc p (fun x => { x with parent := k.initproc }))

/-- `priority`. -/
def priority (c : Fin n) (prio : Int32) (k : Kernel D n) :
    Except Halt (Option Return × Kernel D n) := do
  let curproc ← k.current c
  return (none, k.setProc curproc (fun x => { x with priority := prio.toInt }))

end Kernel

/-! ## The machine -/

/-- **The steps**: which section runs, on which CPU, with which arguments.
A `wakeup` comes from anywhere, interrupts included. -/
inductive Event (n : ℕ) where
  | userinitAlloc
  | userinit
  | dispatch (c : Fin n)
  | yield (c : Fin n)
  | sleep (c : Fin n) (chan : Chan)
  | wakeup (chan : Chan)
  | forkAlloc (c : Fin n)
  | forkFail (c : Fin n)
  | forkCopy (c : Fin n)
  | fork (c : Fin n)
  | exit (c : Fin n) (status : Int32)
  | wait (c : Fin n)
  | kill (c : Fin n) (pid : Int32)
  | detach (c : Fin n) (pid : Int32)
  | priority (c : Fin n) (prio : Int32)
deriving DecidableEq

namespace Kernel

variable {D : Type} {n : ℕ} [Scheduling D Slot]

/-- **One step**: a section that no other one interrupts, and what the call returns if it is its
last one. -/
def step (k : Kernel D n) : Event n → Except Halt (Option Return × Kernel D n)
  | .userinitAlloc => k.userinitAlloc
  | .userinit => k.userinit
  | .dispatch c => k.dispatch c
  | .yield c => k.yield c
  | .sleep c chan => k.sleep c chan
  | .wakeup chan => .ok (none, k.wakeup1 chan)
  | .forkAlloc c => k.forkAlloc c
  | .forkFail c => k.forkFail c
  | .forkCopy c => k.forkCopy c
  | .fork c => k.fork c
  | .exit c status => k.exit c status
  | .wait c => k.wait c
  | .kill c pid => k.kill c pid
  | .detach c pid => k.detach c pid
  | .priority c prio => k.priority c prio

/-- A whole run. -/
def exec (k : Kernel D n) (es : List (Event n)) : Except Halt (Kernel D n) :=
  Machine.exec step k es

/-- The machine after `initSchedDS`, before `userinit`. -/
def boot₀ (ds : D) : Kernel D n where
  proc := fun _ => .zero
  cpuProc := fun _ => none
  initproc := none
  nextpid := 1
  boot := .main
  ds := ds

end Kernel

end Xv6
