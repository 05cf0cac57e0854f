import Xv6.Lib.Locks
import Xv6.Lib.Machine

/-!
# Sleep locks

A sleep lock (`sleeplock.c`) is a flag under a spin lock of its own. A process
that finds the flag set goes to sleep on the lock, and `sleep` (`proc.c`) hands
its spin lock over: it takes `ptable.lock` first, then gives `lk->lk` back, and
only then marks the process `SLEEPING`. `releasesleep` clears the flag under
`lk->lk` and scans for sleepers under `ptable.lock`. Processes meet at the
spin locks only, so a process makes one step for each `acquire` and each
`release`, and the steps of different processes come in any order.
-/

namespace Xv6

open Function

/-- The spin locks that sleep locks use: `lk->lk` of each, and `ptable.lock`. -/
inductive Spin (K : Type)
  | lk (k : K)
  | ptable
  deriving DecidableEq

/-- Where a process is in `acquiresleep`, `releasesleep` or `kill`. -/
inductive SleepPc (P K : Type)
  | outside
  /-- At `acquire(&lk->lk)`, in `acquiresleep` or at the end of `sleep`. -/
  | acquire (k : K)
  /-- At the test of `lk->locked`. -/
  | test (k : K)
  /-- At `acquire(&ptable.lock)` in `sleep`. -/
  | sleep (k : K)
  /-- At `release(lk)` in `sleep`. -/
  | handOver (k : K)
  /-- About to set `p->chan` and `p->state`, and to call `sched`. -/
  | sched (k : K)
  /-- In `sched`, with `p->chan` the lock; the flag is `p->state == SLEEPING`. -/
  | asleep (k : K) (sleeping : Bool)
  /-- Back from `sched`, about to clear `p->chan`. -/
  | awake (k : K)
  /-- At `acquire(&lk->lk)` in `releasesleep`. -/
  | release (k : K)
  /-- About to clear `lk->locked`. -/
  | clear (k : K)
  /-- At `acquire(&ptable.lock)` in `wakeup`. -/
  | wakeup (k : K)
  /-- About to call `wakeup1`. -/
  | wakeup1 (k : K)
  /-- At `release(&lk->lk)` in `releasesleep`. -/
  | leave (k : K)
  /-- At `acquire(&ptable.lock)` in `kill`. -/
  | kill (q : P)
  /-- In the scan of `kill`. -/
  | killing (q : P)
  deriving DecidableEq

namespace SleepPc

variable {P K : Type}

/-- The spin locks that a process has there. -/
def locks : SleepPc P K → List (Spin K)
  | test k | sleep k | clear k | wakeup k | leave k => [.lk k]
  | handOver k | wakeup1 k => [.lk k, .ptable]
  | sched _ | awake _ | killing _ => [.ptable]
  | _ => []

/-- The process has found the lock taken and still has `lk->lk`. -/
def foundLocked : SleepPc P K → Option K
  | sleep k | handOver k => some k
  | _ => none

/-- The process is `SLEEPING` on the lock, or is so before it gives `ptable.lock` back. -/
def sleepsOn : SleepPc P K → Option K
  | sched k | asleep k true => some k
  | _ => none

/-- The process has the lock and is about to clear it. -/
def releases : SleepPc P K → Option K
  | release k | clear k => some k
  | _ => none

/-- The process has cleared the lock and has not woken up the sleepers yet. -/
def owesWakeup : SleepPc P K → Option K
  | wakeup k | wakeup1 k => some k
  | _ => none

/-- `p->state = RUNNABLE` for a process that sleeps. -/
def wake : SleepPc P K → SleepPc P K
  | asleep k _ => asleep k false
  | pc => pc

@[simp] theorem locks_wake (pc : SleepPc P K) : pc.wake.locks = pc.locks := by
  cases pc <;> rfl

@[simp] theorem foundLocked_wake (pc : SleepPc P K) : pc.wake.foundLocked = pc.foundLocked := by
  cases pc <;> rfl

@[simp] theorem releases_wake (pc : SleepPc P K) : pc.wake.releases = pc.releases := by
  cases pc <;> rfl

@[simp] theorem owesWakeup_wake (pc : SleepPc P K) : pc.wake.owesWakeup = pc.owesWakeup := by
  cases pc <;> rfl

variable {pc : SleepPc P K} {k : K}

theorem sleepsOn_of_wake (h : pc.wake.sleepsOn = some k) :
    pc.sleepsOn = some k := by
  cases pc with
  | asleep k b => cases h
  | _ => exact h

theorem mem_locks_of_foundLocked (h : pc.foundLocked = some k) :
    .lk k ∈ pc.locks := by
  cases pc <;> cases h <;> exact List.mem_cons_self

theorem mem_locks_of_owesWakeup (h : pc.owesWakeup = some k) :
    .lk k ∈ pc.locks := by
  cases pc <;> cases h <;> exact List.mem_cons_self

end SleepPc

/-- **The sleep locks, and the processes that use them**, each at some point of a function of
`sleeplock.c` or of `sleep`, `wakeup` and `kill`. -/
structure SleepLocks (P K : Type) where
  /-- `lk->locked`. -/
  locked : K → Bool
  /-- `lk->pid`, with the process in the place of its number: that is the same as long as
  `nextpid` has not come round, since then no two processes have one pid. `none` is `0`, which
  `allocproc` gives to nobody. -/
  pid : K → Option P
  /-- Who has which spin lock. -/
  spin : Spin K → Option P
  pc : P → SleepPc P K
  /-- Between a completed `acquiresleep` and its `releasesleep`; no code reads it. -/
  held : P → K → Bool

/-- Why an event is not possible. -/
inductive SleepHalt
  /-- The spin lock is not free. -/
  | spins
  /-- The process is `SLEEPING`. -/
  | sleeps
  /-- The process is inside a call, or in none. -/
  | busy
  /-- `releasesleep` of a lock that the process does not have. -/
  | notHeld
  deriving DecidableEq

/-- A process makes a call, or goes on with the one it is in. -/
inductive SleepEvent (P K : Type)
  | acquiresleep (p : P) (k : K)
  | releasesleep (p : P) (k : K)
  | kill (p q : P)
  | run (p : P)

namespace SleepLocks

variable {P K : Type} [DecidableEq P] [DecidableEq K]

def setPc (p : P) (pc : SleepPc P K) (s : SleepLocks P K) : SleepLocks P K :=
  { s with pc := update s.pc p pc }

/-- `acquire(l)`: it spins while the lock is taken. -/
def acquire (p : P) (l : Spin K) (pc : SleepPc P K) (s : SleepLocks P K) :
    Except SleepHalt (SleepLocks P K) :=
  if s.spin l = none then
    .ok ({ s with spin := update s.spin l (some p) }.setPc p pc)
  else
    .error .spins

/-- `release(l)`. -/
def release (p : P) (l : Spin K) (pc : SleepPc P K) (s : SleepLocks P K) : SleepLocks P K :=
  { s with spin := update s.spin l none }.setPc p pc

/-- `lk->locked = 1; lk->pid = myproc()->pid`. -/
def lock (p : P) (k : K) (s : SleepLocks P K) : SleepLocks P K :=
  { s with
    locked := update s.locked k true
    pid := update s.pid k (some p)
    held := update s.held p (update (s.held p) k true) }

/-- `lk->locked = 0; lk->pid = 0`. -/
def unlock (p : P) (k : K) (s : SleepLocks P K) : SleepLocks P K :=
  { s with
    locked := update s.locked k false
    pid := update s.pid k none
    held := update s.held p (update (s.held p) k false) }

/-- `wakeup1(lk)`. -/
def wakeup1 (k : K) (s : SleepLocks P K) : SleepLocks P K :=
  { s with pc := fun q => if s.pc q = .asleep k true then (s.pc q).wake else s.pc q }

/-- The scan of `kill`. -/
def awaken (q : P) (s : SleepLocks P K) : SleepLocks P K := s.setPc q (s.pc q).wake

/-- A process goes on, through its next `acquire` or `release`. -/
def run (p : P) (s : SleepLocks P K) : Except SleepHalt (SleepLocks P K) :=
  match s.pc p with
  | .outside => .error .busy
  | .acquire k => s.acquire p (.lk k) (.test k)
  | .test k =>
    if s.locked k then .ok (s.setPc p (.sleep k))
    else .ok ((s.lock p k).release p (.lk k) .outside)
  | .sleep k => s.acquire p .ptable (.handOver k)
  | .handOver k => .ok (s.release p (.lk k) (.sched k))
  -- the scheduler gives `ptable.lock` back on behalf of the process
  | .sched k => .ok (s.release p .ptable (.asleep k true))
  | .asleep _ true => .error .sleeps
  -- and takes it again before it switches to the process
  | .asleep k false => s.acquire p .ptable (.awake k)
  | .awake k => .ok (s.release p .ptable (.acquire k))
  | .release k => s.acquire p (.lk k) (.clear k)
  | .clear k => .ok ((s.unlock p k).setPc p (.wakeup k))
  | .wakeup k => s.acquire p .ptable (.wakeup1 k)
  | .wakeup1 k => .ok ((s.wakeup1 k).release p .ptable (.leave k))
  | .leave k => .ok (s.release p (.lk k) .outside)
  | .kill q => s.acquire p .ptable (.killing q)
  | .killing q => .ok ((s.awaken q).release p .ptable .outside)

/-- A process that is in no call makes one. -/
def call (p : P) (pc : SleepPc P K) (s : SleepLocks P K) : Except SleepHalt (SleepLocks P K) :=
  if s.pc p = .outside then .ok (s.setPc p pc) else .error .busy

def step (s : SleepLocks P K) (e : SleepEvent P K) : Except SleepHalt (Unit × SleepLocks P K) :=
  match e with
  | .acquiresleep p k => (s.call p (.acquire k)).map ((), ·)
  | .releasesleep p k =>
    if s.held p k then (s.call p (.release k)).map ((), ·) else .error .notHeld
  | .kill p q => (s.call p (.kill q)).map ((), ·)
  | .run p => (s.run p).map ((), ·)

/-- After `initsleeplock` of each lock. -/
def start : SleepLocks P K where
  locked _ := false
  pid _ := none
  spin _ := none
  pc _ := .outside
  held _ _ := false

/-- `holdingsleep(lk)`. -/
def holdingsleep (p : P) (k : K) (s : SleepLocks P K) : Bool := s.locked k && s.pid k == some p

/-! ## What a step can do -/

/-- The places before and after an `acquire` of `l`. -/
inductive Acquires : SleepPc P K → Spin K → SleepPc P K → Prop
  | acquire (k : K) : Acquires (.acquire k) (.lk k) (.test k)
  | sleep (k : K) : Acquires (.sleep k) .ptable (.handOver k)
  | awake (k : K) : Acquires (.asleep k false) .ptable (.awake k)
  | release (k : K) : Acquires (.release k) (.lk k) (.clear k)
  | wakeup (k : K) : Acquires (.wakeup k) .ptable (.wakeup1 k)
  | kill (q : P) : Acquires (.kill q) .ptable (.killing q)

/-- The places before and after a `release` of `l` that does nothing else. -/
inductive Releases : SleepPc P K → Spin K → SleepPc P K → Prop
  | handOver (k : K) : Releases (.handOver k) (.lk k) (.sched k)
  | sched (k : K) : Releases (.sched k) .ptable (.asleep k true)
  | awake (k : K) : Releases (.awake k) .ptable (.acquire k)
  | leave (k : K) : Releases (.leave k) (.lk k) .outside

omit [DecidableEq P] [DecidableEq K] in
theorem Acquires.mem_locks {at' pc : SleepPc P K} {l : Spin K} (h : Acquires at' l pc) (j : Spin K) :
    j ∈ pc.locks ↔ j = l ∨ j ∈ at'.locks := by
  cases h <;> simp [SleepPc.locks, or_comm]

omit [DecidableEq P] [DecidableEq K] in
theorem Releases.mem_locks {at' pc : SleepPc P K} {l : Spin K} (h : Releases at' l pc) :
    l ∈ at'.locks ∧ ∀ j, j ∈ pc.locks ↔ j ∈ at'.locks ∧ j ≠ l := by
  cases h <;> grind [SleepPc.locks]

/-- The calls. -/
inductive Calls (s : SleepLocks P K) (p : P) : SleepPc P K → Prop
  | acquiresleep (k : K) : Calls s p (.acquire k)
  | releasesleep (k : K) (hheld : s.held p k = true) : Calls s p (.release k)
  | kill (q : P) : Calls s p (.kill q)

/-- **The steps of process `p`.** -/
inductive Moves (s : SleepLocks P K) (p : P) : SleepLocks P K → Prop
  | call (pc : SleepPc P K) (hpc : s.pc p = .outside) (hcall : Calls s p pc) :
      Moves s p (s.setPc p pc)
  | acquire (l : Spin K) (pc : SleepPc P K) (hpc : Acquires (s.pc p) l pc) (hfree : s.spin l = none) :
      Moves s p ({ s with spin := update s.spin l (some p) }.setPc p pc)
  | release (l : Spin K) (pc : SleepPc P K) (hpc : Releases (s.pc p) l pc) :
      Moves s p (s.release p l pc)
  | taken (k : K) (hpc : s.pc p = .test k) (hlocked : s.locked k = true) :
      Moves s p (s.setPc p (.sleep k))
  | take (k : K) (hpc : s.pc p = .test k) (hlocked : s.locked k = false) :
      Moves s p ((s.lock p k).release p (.lk k) .outside)
  | clear (k : K) (hpc : s.pc p = .clear k) : Moves s p ((s.unlock p k).setPc p (.wakeup k))
  | wakeup1 (k : K) (hpc : s.pc p = .wakeup1 k) :
      Moves s p ((s.wakeup1 k).release p .ptable (.leave k))
  | awaken (q : P) (hpc : s.pc p = .killing q) :
      Moves s p ((s.awaken q).release p .ptable .outside)

variable {s s' : SleepLocks P K} {p q : P} {k : K}

variable {l : Spin K} {pc : SleepPc P K}

theorem moves_of_acquire (h : s.acquire p l pc = .ok s') (hpc : Acquires (s.pc p) l pc) :
    Moves s p s' := by
  obtain ⟨hfree, h⟩ := Machine.ok_of_ite h
  cases h
  exact .acquire l pc hpc hfree

theorem moves_of_run (h : s.run p = .ok s') : Moves s p s' := by
  unfold run at h
  split at h
  case h_3 k hpc =>
    split at h
    · next hlocked =>
      cases h
      exact .taken k hpc hlocked
    · next hlocked =>
      cases h
      exact .take k hpc (eq_false_of_ne_true hlocked)
  case h_2 k hpc => exact moves_of_acquire h (hpc ▸ .acquire k)
  case h_4 k hpc => exact moves_of_acquire h (hpc ▸ .sleep k)
  case h_8 k hpc => exact moves_of_acquire h (hpc ▸ .awake k)
  case h_10 k hpc => exact moves_of_acquire h (hpc ▸ .release k)
  case h_12 k hpc => exact moves_of_acquire h (hpc ▸ .wakeup k)
  case h_15 q hpc => exact moves_of_acquire h (hpc ▸ .kill q)
  all_goals cases h
  case h_5 k hpc => exact .release _ _ (hpc ▸ .handOver k)
  case h_6 k hpc => exact .release _ _ (hpc ▸ .sched k)
  case h_9 k hpc => exact .release _ _ (hpc ▸ .awake k)
  case h_11 k hpc => exact .clear k hpc
  case h_13 k hpc => exact .wakeup1 k hpc
  case h_14 k hpc => exact .release _ _ (hpc ▸ .leave k)
  case h_16 q hpc => exact .awaken q hpc

theorem moves_of_call (hcall : Calls s p pc) (h : s.call p pc = .ok s') :
    Moves s p s' := by
  obtain ⟨hpc, h⟩ := Machine.ok_of_ite h
  cases h
  exact .call pc hpc hcall

theorem moves_of_step {e : SleepEvent P K} {o : Unit} (h : s.step e = .ok (o, s')) :
    ∃ p, Moves s p s' := by
  have hmap : ∀ {x : Except SleepHalt (SleepLocks P K)}, x.map ((), ·) = .ok (o, s') → x = .ok s' := by
    rintro (_ | x) hx
    · cases hx
    · cases hx
      rfl
  cases e with
  | acquiresleep p k => exact ⟨p, moves_of_call (.acquiresleep k) (hmap h)⟩
  | releasesleep p k =>
    obtain ⟨hheld, h⟩ := Machine.ok_of_ite h
    exact ⟨p, moves_of_call (.releasesleep k hheld) (hmap h)⟩
  | kill p q => exact ⟨p, moves_of_call (.kill q) (hmap h)⟩
  | run p => exact ⟨p, moves_of_run (hmap h)⟩

/-! ## The invariant -/

/-- **Flags, spin locks and sleepers fit together.** A process sleeps on a lock
that is taken, or that a process has just cleared and still owes it a `wakeup`
for. -/
structure Coherent (s : SleepLocks P K) : Prop where
  spin : Locks.Tracked s.spin fun p l => l ∈ (s.pc p).locks
  locked : ∀ k, s.locked k = (s.pid k).isSome
  held : ∀ p k, s.held p k = true ↔ s.pid k = some p
  found : ∀ p k, (s.pc p).foundLocked = some k → s.locked k = true
  releases : ∀ p k, (s.pc p).releases = some k → s.held p k = true
  sleeps : ∀ p k, (s.pc p).sleepsOn = some k →
    s.locked k = true ∨ ∃ q, (s.pc q).owesWakeup = some k

omit [DecidableEq P] [DecidableEq K] in
theorem coherent_start : (start : SleepLocks P K).Coherent where
  spin _ _ := ⟨fun h => (nomatch h), fun h => (nomatch h)⟩
  locked _ := rfl
  held _ _ := ⟨fun h => (nomatch h), fun h => (nomatch h)⟩
  found _ _ h := nomatch h
  releases _ _ h := nomatch h
  sleeps _ _ h := nomatch h

/-- What a process must have at its next place. -/
structure Allows (s : SleepLocks P K) (p : P) (pc : SleepPc P K) : Prop where
  found : ∀ k, pc.foundLocked = some k → s.locked k = true
  releases : ∀ k, pc.releases = some k → s.held p k = true
  sleeps : ∀ k, pc.sleepsOn = some k → s.locked k = true ∨ (s.pc p).sleepsOn = some k
  owes : ∀ k, (s.pc p).owesWakeup = some k →
    pc.owesWakeup = some k ∨ ∀ q, (s.pc q).sleepsOn ≠ some k

omit [DecidableEq K] in
/-- A process moves on, and the spin locks with it. -/
theorem Coherent.move {spin : Spin K → Option P} (h : s.Coherent) (hpc : s.Allows p pc)
    (hspin : Locks.Tracked spin fun q l => l ∈ (update s.pc p pc q).locks) :
    ({ s with spin := spin }.setPc p pc).Coherent := by
  obtain ⟨-, hlocked, hheld, hfound, hreleases, hsleeps⟩ := h
  obtain ⟨hfound', hreleases', hsleeps', howes⟩ := hpc
  refine ⟨hspin, hlocked, hheld, ?_, ?_, fun q k hq => ?_⟩ <;> dsimp only [SleepLocks.setPc] at *
  · grind [update_apply]
  · grind [update_apply]
  · have hbefore : s.locked k = true ∨ (s.pc q).sleepsOn = some k := by grind [update_apply]
    obtain hk | hbefore := hbefore
    · exact .inl hk
    · exact (hsleeps q k hbefore).imp_right fun ⟨r, hr⟩ => ⟨r, by grind [update_apply]⟩

omit [DecidableEq K] in
/-- No spin lock changes hands. -/
theorem Coherent.setPc (h : s.Coherent) (hpc : s.Allows p pc) (hlocks : pc.locks = (s.pc p).locks) :
    (s.setPc p pc).Coherent := by
  refine h.move hpc (h.spin.same fun q l => ?_)
  by_cases hq : q = p
  · rw [hq, update_self, hlocks]
  · rw [update_of_ne hq]

theorem Coherent.acquire (h : s.Coherent) (hpc : s.Allows p pc) (hfree : s.spin l = none)
    (hlocks : ∀ k, k ∈ pc.locks ↔ k = l ∨ k ∈ (s.pc p).locks) :
    ({ s with spin := update s.spin l (some p) }.setPc p pc).Coherent := by
  refine h.move hpc (h.spin.take hfree ?_ fun q hq k => ?_)
  · rw [update_self]
    exact hlocks
  · rw [update_of_ne hq]

theorem Coherent.release (h : s.Coherent) (hpc : s.Allows p pc) (hl : l ∈ (s.pc p).locks)
    (hlocks : ∀ k, k ∈ pc.locks ↔ k ∈ (s.pc p).locks ∧ k ≠ l) :
    (s.release p l pc).Coherent := by
  refine h.move hpc (h.spin.give hl ?_ fun q hq k => ?_)
  · rw [update_self]
    exact hlocks
  · rw [update_of_ne hq]

omit [DecidableEq P] [DecidableEq K] in
/-- Nobody has a lock that is not taken. -/
theorem Coherent.pid_of_not_locked (h : s.Coherent) (hk : s.locked k = false) : s.pid k = none := by
  rw [h.locked] at hk
  exact Option.isNone_iff_eq_none.mp (by rw [← Option.not_isSome, hk]; rfl)

theorem Coherent.lock (h : s.Coherent) (hk : s.locked k = false) : (s.lock p k).Coherent := by
  have hnone : s.pid k = none := h.pid_of_not_locked hk
  obtain ⟨hspin, hlocked, hheld, hfound, hreleases, hsleeps⟩ := h
  refine ⟨hspin, ?_, ?_, ?_, ?_, ?_⟩
  all_goals
    simp only [SleepLocks.lock, update_apply, ite_apply]
    grind

/-- The holder clears the lock when no process is on its way to sleep on it,
and already owes the `wakeup`. -/
theorem Coherent.unlock (h : s.Coherent) (hheld : s.held p k = true)
    (hfound : ∀ q, (s.pc q).foundLocked ≠ some k) (hreleases : ∀ q, (s.pc q).releases ≠ some k)
    (howes : (s.pc p).owesWakeup = some k) : (s.unlock p k).Coherent := by
  have hpid : s.pid k = some p := (h.held p k).mp hheld
  obtain ⟨hspin, hlocked, hheld', hfound', hreleases', hsleeps⟩ := h
  refine ⟨hspin, ?_, ?_, ?_, ?_, ?_⟩
  all_goals
    simp only [SleepLocks.unlock, update_apply, ite_apply]
    grind

omit [DecidableEq P] [DecidableEq K] in
/-- Some sleepers are made runnable. -/
theorem Coherent.wake {pc : P → SleepPc P K} (h : s.Coherent)
    (hpc : ∀ q, pc q = s.pc q ∨ pc q = (s.pc q).wake) : ({ s with pc := pc }).Coherent where
  spin := h.spin.same fun q l => by
    obtain hq | hq := hpc q <;> simp [hq]
  locked := h.locked
  held := h.held
  found q k hk := by
    refine h.found q k ?_
    obtain hq | hq := hpc q <;> simpa [hq] using hk
  releases q k hk := by
    refine h.releases q k ?_
    obtain hq | hq := hpc q <;> simpa [hq] using hk
  sleeps q k hk := by
    have hs : (s.pc q).sleepsOn = some k := by
      obtain hq | hq := hpc q
      · exact hq ▸ hk
      · exact SleepPc.sleepsOn_of_wake (hq ▸ hk)
    refine (h.sleeps q k hs).imp_right fun ⟨r, hr⟩ => ⟨r, ?_⟩
    obtain hr' | hr' := hpc r <;> simpa [hr'] using hr

theorem Coherent.wakeup1 (h : s.Coherent) (k : K) : (s.wakeup1 k).Coherent := by
  refine h.wake fun q => ?_
  split
  · exact .inr rfl
  · exact .inl rfl

omit [DecidableEq K] in
theorem Coherent.awaken (h : s.Coherent) (q : P) : (s.awaken q).Coherent := by
  refine h.wake fun r => ?_
  grind [update_apply]

omit [DecidableEq P] [DecidableEq K] in
/-- Places with nothing to show. -/
theorem allows_of_none (hfound : pc.foundLocked = none) (hreleases : pc.releases = none)
    (hsleeps : pc.sleepsOn = none) (howes : (s.pc p).owesWakeup = none) : s.Allows p pc where
  found k hk := by rw [hfound] at hk; cases hk
  releases k hk := by rw [hreleases] at hk; cases hk
  sleeps k hk := by rw [hsleeps] at hk; cases hk
  owes k hk := by rw [howes] at hk; cases hk

/-- `releasesleep` clears the lock. -/
theorem Coherent.clear (h : s.Coherent) (hpc : s.pc p = .clear k) :
    ((s.unlock p k).setPc p (.wakeup k)).Coherent := by
  have hheld : s.held p k = true := h.releases p k (by rw [hpc]; rfl)
  have hlk : .lk k ∈ (s.pc p).locks := by
    rw [hpc]
    exact List.mem_cons_self
  have hmoved : (s.setPc p (.wakeup k)).Coherent :=
    h.setPc ⟨nofun, nofun, nofun, by rw [hpc]; nofun⟩ (by rw [hpc]; rfl)
  have hself : (s.setPc p (.wakeup k)).pc p = .wakeup k := update_self ..
  refine hmoved.unlock hheld (fun q hq => ?_) (fun q hq => ?_) (by rw [hself]; rfl)
  · -- whoever found the lock taken has `lk->lk`, which `p` has
    obtain rfl := hmoved.spin.exclusive (SleepPc.mem_locks_of_foundLocked hq)
      (show .lk k ∈ ((s.setPc p (.wakeup k)).pc p).locks by rw [hself]; exact List.mem_cons_self)
    rw [hself] at hq
    cases hq
  · have hqk : s.held q k = true := hmoved.releases q k hq
    have hqp : q = p := Option.some.inj (((h.held q k).mp hqk).symm.trans ((h.held p k).mp hheld))
    rw [hqp, hself] at hq
    cases hq

/-- The scan leaves nobody asleep: whoever is about to be has `ptable.lock`. -/
theorem Coherent.moves_wakeup1 (h : s.Coherent) (hpc : s.pc p = .wakeup1 k) :
    ((s.wakeup1 k).release p .ptable (.leave k)).Coherent := by
  have hpc' : (s.wakeup1 k).pc p = .wakeup1 k := by
    show (if s.pc p = .asleep k true then (s.pc p).wake else s.pc p) = .wakeup1 k
    rw [if_neg (by rw [hpc]; nofun), hpc]
  have hnone : ∀ q, ((s.wakeup1 k).pc q).sleepsOn ≠ some k := by
    intro q hq
    have hsched : (s.wakeup1 k).pc q = .sched k := by
      dsimp only [SleepLocks.wakeup1] at hq ⊢
      split at hq
      · next hat =>
        rw [hat] at hq
        cases hq
      · unfold SleepPc.sleepsOn at hq
        split at hq <;> grind
    have hqp : q = p := (h.wakeup1 k).spin.exclusive
      (show Spin.ptable ∈ ((s.wakeup1 k).pc q).locks by rw [hsched]; exact List.mem_cons_self)
      (show Spin.ptable ∈ ((s.wakeup1 k).pc p).locks by rw [hpc']; exact List.mem_of_mem_tail List.mem_cons_self)
    rw [hqp, hpc'] at hsched
    cases hsched
  refine (h.wakeup1 k).release ⟨nofun, nofun, nofun, fun j hj => .inr ?_⟩
    (by rw [hpc']; exact List.mem_of_mem_tail List.mem_cons_self) fun j => ?_
  · rw [hpc'] at hj
    cases hj
    exact hnone
  · rw [hpc']
    cases j <;> simp [SleepPc.locks]

/-- **Every step keeps the invariant.** -/
theorem Coherent.moves (h : s.Coherent) (hmoves : Moves s p s') : s'.Coherent := by
  cases hmoves with
  | call pc hpc hcall =>
    cases hcall with
    | acquiresleep k => exact h.setPc (allows_of_none rfl rfl rfl (by rw [hpc]; rfl)) (by rw [hpc]; rfl)
    | releasesleep k hheld =>
      refine h.setPc ⟨nofun, fun j hj => ?_, nofun, by rw [hpc]; nofun⟩ (by rw [hpc]; rfl)
      cases hj
      exact hheld
    | kill q => exact h.setPc (allows_of_none rfl rfl rfl (by rw [hpc]; rfl)) (by rw [hpc]; rfl)
  | acquire l pc hpc hfree =>
    refine h.acquire ?_ hfree hpc.mem_locks
    generalize hat : s.pc p = at' at hpc
    cases hpc with
    | acquire k | awake k | kill q => exact allows_of_none rfl rfl rfl (by rw [hat]; rfl)
    | sleep k => exact ⟨fun j hj => h.found p j (hat ▸ hj), nofun, nofun, by rw [hat]; nofun⟩
    | release k => exact ⟨nofun, fun j hj => h.releases p j (hat ▸ hj), nofun, by rw [hat]; nofun⟩
    | wakeup k => exact ⟨nofun, nofun, nofun, fun j hj => .inl (by rwa [hat] at hj)⟩
  | release l pc hpc =>
    refine h.release ?_ hpc.mem_locks.1 hpc.mem_locks.2
    generalize hat : s.pc p = at' at hpc
    cases hpc with
    | handOver k =>
      -- the lock was found taken, and nobody could clear it since
      exact ⟨nofun, nofun, fun j hj => .inl (h.found p j (hat ▸ hj)), by rw [hat]; nofun⟩
    | sched k => exact ⟨nofun, nofun, fun j hj => .inr (hat ▸ hj), by rw [hat]; nofun⟩
    | awake k | leave k => exact allows_of_none rfl rfl rfl (by rw [hat]; rfl)
  | taken k hpc hlocked =>
    refine h.setPc ⟨fun j hj => ?_, nofun, nofun, by rw [hpc]; nofun⟩ (by rw [hpc]; rfl)
    cases hj
    exact hlocked
  | take k hpc hlocked =>
    have hpc' : (s.lock p k).pc p = .test k := hpc
    refine (h.lock hlocked).release (allows_of_none rfl rfl rfl (by rw [hpc']; rfl))
      (by rw [hpc']; exact List.mem_cons_self) fun j => ?_
    rw [hpc']
    simp [SleepPc.locks]
  | clear k hpc => exact h.clear hpc
  | wakeup1 k hpc => exact h.moves_wakeup1 hpc
  | awaken q hpc =>
    have hpc' : (s.awaken q).pc p = .killing q := by
      show update s.pc q (s.pc q).wake p = .killing q
      grind [update_apply, SleepPc.wake]
    refine (h.awaken q).release (allows_of_none rfl rfl rfl (by rw [hpc']; rfl))
      (by rw [hpc']; exact List.mem_cons_self) fun j => ?_
    rw [hpc']
    simp [SleepPc.locks]

/-! ## Every run -/

/-- **Sleep locks exclude, and nobody is left asleep on a free one.** At most
one process is between `acquiresleep` and `releasesleep` of a lock; and when
neither its spin lock nor `ptable.lock` is taken, processes are `SLEEPING` on
it only while it is locked. -/
theorem exclusive_and_locked_of_exec (es : List (SleepEvent P K)) (s : SleepLocks P K)
    (h : Machine.exec step start es = .ok s) (k : K) :
    (∀ p q, s.held p k = true → s.held q k = true → p = q) ∧
      (s.spin (.lk k) = none → s.spin .ptable = none →
        ∀ p, s.pc p = .asleep k true → s.locked k = true) := by
  have hs : s.Coherent := Machine.exec_invariant (I := Coherent)
    (fun hs hstep => let ⟨_, hmoves⟩ := moves_of_step hstep; hs.moves hmoves) coherent_start h
  refine ⟨fun p q hp hq => ?_, fun hlk _ p hp => ?_⟩
  · exact Option.some.inj (((hs.held p k).mp hp).symm.trans ((hs.held q k).mp hq))
  · refine (hs.sleeps p k (by rw [hp]; rfl)).resolve_right ?_
    rintro ⟨q, hq⟩
    exact hs.spin.not_holds hlk q (SleepPc.mem_locks_of_owesWakeup hq)

/-- `true` takes the lock; `false` finds it taken and goes to sleep. -/
def contended : List (SleepEvent Bool Unit) :=
  [.acquiresleep true (), .run true, .run true, .acquiresleep false (), .run false, .run false,
    .run false, .run false, .run false]

theorem exclusive_and_locked_of_contended :
    ∃ s, Machine.exec step start contended = .ok s ∧ s.pc false = .asleep () true ∧
      (∀ p q, s.held p () = true → s.held q () = true → p = q) ∧ s.locked () = true := by
  obtain ⟨s, hs, hlk, hptable, hsleep⟩ : ∃ s, Machine.exec step start contended = .ok s ∧
      s.spin (.lk ()) = none ∧ s.spin .ptable = none ∧ s.pc false = .asleep () true := by
    decide +kernel
  have hall := exclusive_and_locked_of_exec contended s hs ()
  exact ⟨s, hs, hsleep, hall.1, hall.2 hlk hptable false hsleep⟩

/-- **`holdingsleep` tells whether the caller has the lock**, after every run. -/
theorem holdingsleep_of_exec {es : List (SleepEvent P K)}
    (h : Machine.exec step start es = .ok s) : s.holdingsleep p k = s.held p k := by
  have hs : s.Coherent := Machine.exec_invariant (I := Coherent)
    (fun hs hstep => (moves_of_step hstep).elim fun _ => hs.moves) coherent_start h
  unfold holdingsleep
  rw [Bool.eq_iff_iff, hs.held, Bool.and_eq_true, beq_iff_eq, hs.locked]
  exact ⟨And.right, fun hpid => ⟨by rw [hpid]; rfl, hpid⟩⟩

theorem holdingsleep_of_contended : ∃ s, Machine.exec step start contended = .ok s ∧
    ∀ p, s.holdingsleep p () = p := by
  obtain ⟨s, hs, hheld⟩ : ∃ s, Machine.exec step start contended = .ok s ∧
      ∀ p, s.held p () = p := by decide +kernel
  exact ⟨s, hs, fun p => (holdingsleep_of_exec hs).trans (hheld p)⟩

end SleepLocks

end Xv6
