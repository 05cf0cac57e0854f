import Xv6.Lib.Machine
import Xv6.Lib.Refs
import Xv6.Fs.Trunc

/-!
# References to inodes

The inode cache with several processes at it. A process holds references to
entries of the cache, and an entry counts them in `ref` under `icache.lock`;
the copy of the dinode in the entry is under the entry's sleep lock. `iget`,
`idup` and the last part of `iput` are critical sections of `icache.lock`;
`ilock` and `iunlock` begin and end a section of the sleep lock; and `iput`
has, before it gives the reference up, a section of the sleep lock with one of
`icache.lock` in the middle, where it reads `ref`. These sections are the
steps. What a caller does between `ilock` and `iunlock` is to change the
fields of the inode and to call `iupdate`.

The cache does not depend on what is in the blocks of an inode, and the disk
here is its dinodes, for every device.
-/

namespace Xv6

open Function

/-- `struct inode`, but for the lock. -/
structure CachedInode extends Dinode where
  dev : ℕ
  inum : ℕ
  ref : ℤ
  valid : Bool

/-- Where a process is: in no function of the cache, in the loop of `ialloc`,
at its `iget`, or in `iput`. -/
inductive InodePc
  | outside
  | ialloc (dev : ℕ) (type : Int16) (inum : ℕ)
  | iget (dev inum : ℕ)
  /-- The inode is valid and has no links: about to read `ref`. -/
  | iputRef (ip : Ip)
  /-- About to free the inode if `r == 1`. -/
  | iputFree (ip : Ip) (r : ℤ)
  /-- About to give the reference up. -/
  | iputDrop (ip : Ip)
  deriving DecidableEq

namespace InodePc

/-- The entry whose reference `iput` still has. -/
def putting : InodePc → Option Ip
  | iputRef ip | iputFree ip _ | iputDrop ip => some ip
  | _ => none

/-- The entry that `iput` has locked. -/
def freeing : InodePc → Option Ip
  | iputRef ip | iputFree ip _ => some ip
  | _ => none

theorem putting_of_freeing {pc : InodePc} {ip : Ip} (h : pc.freeing = some ip) :
    pc.putting = some ip := by
  cases pc <;> first | exact h | cases h

end InodePc

/-- **The inode cache, the disk and the processes**, each of which is in no function of the cache,
or in one of them between two of the sections above. -/
structure InodeTable (P : Type) where
  inode : Ip → CachedInode
  /-- Who has the sleep lock of an entry. -/
  lock : Ip → Option P
  /-- The dinodes, by device and number. -/
  disk : ℕ → ℕ → Dinode
  /-- `sb.ninodes`. -/
  ninodes : ℕ
  pc : P → InodePc
  /-- The references that each process holds; no code reads it. -/
  held : P → Ip → ℕ
  /-- An `iget` has found the entry since `ref` was last read in `iput`; no code reads it. -/
  found : Ip → Bool

/-- The panics, a wait for a sleep lock, and what callers do not do. -/
inductive InodeHalt
  | noInodes
  | noDinodes
  | ilock
  | noType
  | iunlock
  | waiting
  | disabled
  deriving DecidableEq

/-- A process calls a function of the cache, or goes on in one. -/
inductive InodeEvent (P : Type)
  | iget (p : P) (dev inum : ℕ)
  | idup (p : P) (ip : Ip)
  | ialloc (p : P) (dev : ℕ) (type : Int16)
  | ilock (p : P) (ip : Ip)
  /-- The fields of a locked inode but its type are set, and `iupdate` is called. -/
  | iupdate (p : P) (ip : Ip) (fields : Dinode)
  | iunlock (p : P) (ip : Ip)
  | iput (p : P) (ip : Ip)
  | run (p : P)

namespace InodeTable

variable {P : Type} [DecidableEq P]

def setPc (p : P) (pc : InodePc) (s : InodeTable P) : InodeTable P :=
  { s with pc := update s.pc p pc }

def setLock (ip : Ip) (o : Option P) (s : InodeTable P) : InodeTable P :=
  { s with lock := update s.lock ip o }

/-- The copy of the dinode changes. -/
def setCopy (ip : Ip) (d : Dinode) (valid : Bool) (s : InodeTable P) : InodeTable P :=
  { s with inode := update s.inode ip { s.inode ip with toDinode := d, valid := valid } }

/-- The dinode on the disk changes. -/
def setDisk (dev inum : ℕ) (d : Dinode) (s : InodeTable P) : InodeTable P :=
  { s with disk := update s.disk dev (update (s.disk dev) inum d) }

/-- `ref` changes by one, and what the process holds with it. -/
def addRef (p : P) (ip : Ip) (s : InodeTable P) : InodeTable P :=
  { s with
    inode := update s.inode ip { s.inode ip with ref := (s.inode ip).ref + 1 }
    held := update s.held p (update (s.held p) ip (s.held p ip + 1)) }

def dropRef (p : P) (ip : Ip) (s : InodeTable P) : InodeTable P :=
  { s with
    inode := update s.inode ip { s.inode ip with ref := (s.inode ip).ref - 1 }
    held := update s.held p (update (s.held p) ip (s.held p ip - 1)) }

/-- An entry is taken for another inode. -/
def recycle (p : P) (ip : Ip) (dev inum : ℕ) (s : InodeTable P) : InodeTable P :=
  { s with
    inode := update s.inode ip
      { s.inode ip with dev := dev, inum := inum, ref := 1, valid := false }
    held := update s.held p (update (s.held p) ip (s.held p ip + 1)) }

/-- The entry of an inode in the cache. -/
def cached (dev inum : ℕ) (s : InodeTable P) : Option Ip :=
  (List.finRange NINODE).find? fun ip =>
    decide (0 < (s.inode ip).ref ∧ (s.inode ip).dev = dev ∧ (s.inode ip).inum = inum)

/-- `iget`. -/
def iget (p : P) (dev inum : ℕ) (s : InodeTable P) : Except InodeHalt (InodeTable P) :=
  match s.cached dev inum with
  | some ip => .ok ({ s.addRef p ip with found := update s.found ip true }.setPc p .outside)
  | none =>
    match (List.finRange NINODE).find? (fun ip => decide ((s.inode ip).ref = 0)) with
    | none => .error .noInodes
    | some ip => .ok ((s.recycle p ip dev inum).setPc p .outside)

/-- `ilock`, of an inode that the process holds. -/
def ilock (p : P) (ip : Ip) (s : InodeTable P) : Except InodeHalt (InodeTable P) :=
  let i := s.inode ip
  if i.ref < 1 then .error .ilock
  else if s.lock ip ≠ none then .error .waiting
  else if i.valid then .ok (s.setLock ip (some p))
  else if (s.disk i.dev i.inum).type = 0 then .error .noType
  else .ok ((s.setCopy ip (s.disk i.dev i.inum) true).setLock ip (some p))

/-- `iunlock`. -/
def iunlock (p : P) (ip : Ip) (s : InodeTable P) : Except InodeHalt (InodeTable P) :=
  if s.lock ip ≠ some p ∨ (s.inode ip).ref < 1 then .error .iunlock else .ok (s.setLock ip none)

/-- New values for the fields of an inode that the process has locked, and
`iupdate`. Nobody but `ialloc` and `iput` sets the type. -/
def iupdate (p : P) (ip : Ip) (fields : Dinode) (s : InodeTable P) :
    Except InodeHalt (InodeTable P) :=
  let d := { fields with type := (s.inode ip).type }
  if s.lock ip = some p then
    .ok ((s.setCopy ip d (s.inode ip).valid).setDisk (s.inode ip).dev (s.inode ip).inum d)
  else .error .disabled

/-- `iput` up to `if(ip->valid && ip->nlink == 0)`. -/
def iput (p : P) (ip : Ip) (s : InodeTable P) : Except InodeHalt (InodeTable P) :=
  if s.lock ip ≠ none then .error .waiting
  else if (s.inode ip).valid = true ∧ (s.inode ip).nlink = 0 then
    .ok ((s.setLock ip (some p)).setPc p (.iputRef ip))
  else .ok (s.setPc p (.iputDrop ip))

/-- What `itrunc`, `ip->type = 0` and `iupdate` make of a dinode. -/
def freed (d : Dinode) : Dinode := { d.truncated with type := 0 }

/-- The inode is freed, and is not valid any more. -/
def free (ip : Ip) (s : InodeTable P) : InodeTable P :=
  (s.setCopy ip (freed (s.inode ip).toDinode) false).setDisk (s.inode ip).dev (s.inode ip).inum
    (freed (s.inode ip).toDinode)

/-- A process goes on. -/
def run (p : P) (s : InodeTable P) : Except InodeHalt (InodeTable P) :=
  match s.pc p with
  | .outside => .error .disabled
  | .ialloc dev type inum =>
    if s.ninodes ≤ inum then .error .noDinodes
    else if (s.disk dev inum).type = 0 then
      .ok ((s.setDisk dev inum (.fresh type)).setPc p (.iget dev inum))
    else .ok (s.setPc p (.ialloc dev type (inum + 1)))
  | .iget dev inum => s.iget p dev inum
  | .iputRef ip =>
    .ok ({ s with found := update s.found ip false }.setPc p
      (.iputFree ip (s.inode ip).ref))
  | .iputFree ip r =>
    if r = 1 then .ok (((s.setPc p (.iputDrop ip)).setLock ip none).free ip)
    else .ok ((s.setPc p (.iputDrop ip)).setLock ip none)
  | .iputDrop ip => .ok ((s.setPc p .outside).dropRef p ip)

/-- A process passes an inode that it holds. -/
def Passes (s : InodeTable P) (p : P) (ip : Ip) : Prop := s.pc p = .outside ∧ 0 < s.held p ip

instance (s : InodeTable P) (p : P) (ip : Ip) : Decidable (s.Passes p ip) :=
  inferInstanceAs (Decidable (_ ∧ _))

/-- What an event does to the table. -/
def next (s : InodeTable P) : InodeEvent P → Except InodeHalt (InodeTable P)
  | .iget p dev inum => if s.pc p = .outside then s.iget p dev inum else .error .disabled
  | .idup p ip => if s.Passes p ip then .ok (s.addRef p ip) else .error .disabled
  | .ialloc p dev type =>
    if s.pc p = .outside then .ok (s.setPc p (.ialloc dev type 1)) else .error .disabled
  | .ilock p ip => if s.Passes p ip then s.ilock p ip else .error .disabled
  | .iupdate p ip d => if s.Passes p ip then s.iupdate p ip d else .error .disabled
  | .iunlock p ip => if s.Passes p ip then s.iunlock p ip else .error .disabled
  | .iput p ip => if s.Passes p ip then s.iput p ip else .error .disabled
  | .run p => s.run p

def step (s : InodeTable P) (e : InodeEvent P) : Except InodeHalt (Unit × InodeTable P) :=
  (s.next e).map ((), ·)

/-- After `iinit`, with any disk. -/
def start (disk : ℕ → ℕ → Dinode) (ninodes : ℕ) : InodeTable P where
  inode _ := ⟨.fresh 0, 0, 0, 0, false⟩
  lock _ := none
  disk := disk
  ninodes := ninodes
  pc _ := .outside
  held _ _ := 0
  found _ := false

/-! ## What a step can do -/

/-- **The steps of process `p`.** -/
inductive Moves (s : InodeTable P) (p : P) : InodeEvent P → InodeTable P → Prop
  | hit {e : InodeEvent P} (dev inum : ℕ) (ip : Ip) (href : 0 < (s.inode ip).ref)
      (hdev : (s.inode ip).dev = dev) (hinum : (s.inode ip).inum = inum)
      (hpc : (s.pc p).putting = none) :
      Moves s p e ({ s.addRef p ip with found := update s.found ip true }.setPc p .outside)
  | recycle {e : InodeEvent P} (dev inum : ℕ) (ip : Ip) (href : (s.inode ip).ref = 0)
      (hnew : ∀ jp, 0 < (s.inode jp).ref → (s.inode jp).dev = dev → (s.inode jp).inum ≠ inum)
      (hpc : (s.pc p).putting = none) :
      Moves s p e ((s.recycle p ip dev inum).setPc p .outside)
  | idup (ip : Ip) (h : s.Passes p ip) : Moves s p (.idup p ip) (s.addRef p ip)
  | move {e : InodeEvent P} (pc : InodePc) (hpc : (s.pc p).putting = none)
      (hpc' : pc.putting = none) : Moves s p e (s.setPc p pc)
  | take (dev inum : ℕ) (type : Int16) (hpc : (s.pc p).putting = none)
      (hfree : (s.disk dev inum).type = 0) :
      Moves s p (.run p) ((s.setDisk dev inum (.fresh type)).setPc p (.iget dev inum))
  | ilock (ip : Ip) (h : s.Passes p ip) (hlock : s.lock ip = none)
      (hvalid : (s.inode ip).valid = true) :
      Moves s p (.ilock p ip) (s.setLock ip (some p))
  | load (ip : Ip) (d : Dinode) (h : s.Passes p ip) (hlock : s.lock ip = none)
      (htype : d.type ≠ 0) :
      Moves s p (.ilock p ip) ((s.setCopy ip d true).setLock ip (some p))
  | iupdate {fields : Dinode} (ip : Ip) (d : Dinode) (h : s.Passes p ip) (hlock : s.lock ip = some p)
      (htype : d.type = (s.inode ip).type) :
      Moves s p (.iupdate p ip fields)
        ((s.setCopy ip d (s.inode ip).valid).setDisk (s.inode ip).dev (s.inode ip).inum d)
  | iunlock (ip : Ip) (h : s.Passes p ip) (hlock : s.lock ip = some p) :
      Moves s p (.iunlock p ip) (s.setLock ip none)
  | iputRef (ip : Ip) (h : s.Passes p ip) (hlock : s.lock ip = none)
      (hvalid : (s.inode ip).valid = true) (hnlink : (s.inode ip).nlink = 0) :
      Moves s p (.iput p ip) ((s.setLock ip (some p)).setPc p (.iputRef ip))
  | iputDrop (ip : Ip) (h : s.Passes p ip) (hlock : s.lock ip = none) :
      Moves s p (.iput p ip) (s.setPc p (.iputDrop ip))
  | readRef (ip : Ip) (hpc : s.pc p = .iputRef ip) :
      Moves s p (.run p) ({ s with found := update s.found ip false }.setPc p
        (.iputFree ip (s.inode ip).ref))
  | free (ip : Ip) (hpc : s.pc p = .iputFree ip 1) :
      Moves s p (.run p) (((s.setPc p (.iputDrop ip)).setLock ip none).free ip)
  | keep (ip : Ip) (r : ℤ) (hpc : s.pc p = .iputFree ip r) (hr : r ≠ 1) :
      Moves s p (.run p) ((s.setPc p (.iputDrop ip)).setLock ip none)
  | drop (ip : Ip) (hpc : s.pc p = .iputDrop ip) :
      Moves s p (.run p) ((s.setPc p .outside).dropRef p ip)

variable {s s' : InodeTable P} {p q : P} {ip jp : Ip} {e : InodeEvent P}

theorem moves_of_iget {dev inum : ℕ} (h : s.iget p dev inum = .ok s') (hpc : (s.pc p).putting = none) :
    Moves s p e s' := by
  unfold iget at h
  split at h
  · next ip hip =>
    have hfound := List.find?_some hip
    obtain ⟨href, hdev, hinum⟩ := of_decide_eq_true hfound
    cases h
    exact .hit dev inum ip href hdev hinum hpc
  · next hnone =>
    split at h
    · cases h
    · next ip hip =>
      have hfree := List.find?_some hip
      cases h
      refine .recycle dev inum ip (of_decide_eq_true hfree) (fun jp hj hdev hinum => ?_) hpc
      exact List.find?_eq_none.mp hnone jp (List.mem_finRange jp) (decide_eq_true ⟨hj, hdev, hinum⟩)

theorem moves_of_run (h : s.run p = .ok s') : Moves s p (.run p) s' := by
  unfold run at h
  split at h
  · cases h
  · next dev type inum hpc =>
    have hnone : (s.pc p).putting = none := by rw [hpc]; rfl
    obtain ⟨-, h⟩ := Machine.ok_of_ite_error h
    split at h <;> cases h
    · next hfree => exact .take dev inum type hnone hfree
    · exact .move _ hnone rfl
  · next dev inum hpc => exact moves_of_iget h (by rw [hpc]; rfl)
  · next ip hpc =>
    cases h
    exact .readRef ip hpc
  · next ip r hpc =>
    split at h <;> cases h
    · next hr => exact .free ip (hr ▸ hpc)
    · next hr => exact .keep ip r hpc hr
  · next ip hpc =>
    cases h
    exact .drop ip hpc

theorem moves_of_ilock (h : s.ilock p ip = .ok s') (hp : s.Passes p ip) :
    Moves s p (.ilock p ip) s' := by
  obtain ⟨-, h⟩ := Machine.ok_of_ite_error h
  obtain ⟨hlock, h⟩ := Machine.ok_of_ite_error h
  split at h
  · next hvalid =>
    cases h
    exact .ilock ip hp (not_not.mp hlock) hvalid
  · obtain ⟨htype, h⟩ := Machine.ok_of_ite_error h
    cases h
    exact .load ip _ hp (not_not.mp hlock) htype

theorem moves_of_iput (h : s.iput p ip = .ok s') (hp : s.Passes p ip) :
    Moves s p (.iput p ip) s' := by
  obtain ⟨hlock, h⟩ := Machine.ok_of_ite_error h
  split at h <;> cases h
  · next hfree => exact .iputRef ip hp (not_not.mp hlock) hfree.1 hfree.2
  · exact .iputDrop ip hp (not_not.mp hlock)

theorem moves_of_next (h : s.next e = .ok s') : ∃ p, Moves s p e s' := by
  cases e with
  | run p => exact ⟨p, moves_of_run h⟩
  | iget p dev inum =>
    obtain ⟨hpc, h⟩ := Machine.ok_of_ite h
    exact ⟨p, moves_of_iget h (by rw [hpc]; rfl)⟩
  | idup p ip =>
    obtain ⟨hp, h⟩ := Machine.ok_of_ite h
    cases h
    exact ⟨p, .idup ip hp⟩
  | ialloc p dev type =>
    obtain ⟨hpc, h⟩ := Machine.ok_of_ite h
    cases h
    exact ⟨p, .move _ (by rw [hpc]; rfl) rfl⟩
  | ilock p ip =>
    obtain ⟨hp, h⟩ := Machine.ok_of_ite h
    exact ⟨p, moves_of_ilock h hp⟩
  | iupdate p ip d =>
    obtain ⟨hp, h⟩ := Machine.ok_of_ite h
    obtain ⟨hlock, h⟩ := Machine.ok_of_ite h
    cases h
    exact ⟨p, .iupdate ip _ hp hlock rfl⟩
  | iunlock p ip =>
    obtain ⟨hp, h⟩ := Machine.ok_of_ite h
    obtain ⟨hlock, h⟩ := Machine.ok_of_ite_error h
    cases h
    exact ⟨p, .iunlock ip hp (not_not.mp (not_or.mp hlock).1)⟩
  | iput p ip =>
    obtain ⟨hp, h⟩ := Machine.ok_of_ite h
    exact ⟨p, moves_of_iput h hp⟩

theorem moves_of_step {o : Unit} (h : s.step e = .ok (o, s')) : ∃ p, Moves s p e s' := by
  unfold step at h
  cases hnext : s.next e with
  | error x =>
    rw [hnext] at h
    cases h
  | ok t =>
    rw [hnext] at h
    cases h
    exact moves_of_next hnext

/-! ## The invariant -/

variable [Fintype P]

/-- **References are counted, and entries have one inode each.** A process in
`iput` has not given up its reference yet, and the inode that it may free is
locked, valid and without links; if it has read `1` from `ref` nobody else
holds the entry, unless an `iget` has found it since. -/
structure Sound (s : InodeTable P) : Prop where
  total : Refs.Total s.held fun ip => (s.inode ip).ref
  unique : ∀ ip jp, 0 < (s.inode ip).ref → 0 < (s.inode jp).ref →
    (s.inode ip).dev = (s.inode jp).dev → (s.inode ip).inum = (s.inode jp).inum → ip = jp
  puts : ∀ p ip, (s.pc p).putting = some ip → 0 < s.held p ip
  frees : ∀ p ip, (s.pc p).freeing = some ip → s.lock ip = some p ∧ (s.inode ip).nlink = 0
  only : ∀ p ip, s.pc p = .iputFree ip 1 → s.found ip = false →
    ∀ q, s.held q ip = if q = p then 1 else 0
  locks : ∀ p ip, s.lock ip = some p →
    0 < s.held p ip ∧ (s.inode ip).valid = true ∧ s.pc p ≠ .iputDrop ip
  types : ∀ ip, (s.inode ip).valid = true → (s.inode ip).type ≠ 0

theorem sound_start (disk : ℕ → ℕ → Dinode) (ninodes : ℕ) :
    (start disk ninodes : InodeTable P).Sound where
  total _ := by
    show 0 = ∑ _, ((0 : ℕ) : ℤ)
    rw [Nat.cast_zero, Finset.sum_const_zero]
  unique _ _ h := absurd h (Int.lt_irrefl 0)
  puts _ _ h := nomatch h
  frees _ _ h := nomatch h
  only _ _ h := nomatch h
  locks _ _ h := nomatch h
  types _ h := nomatch h

/-- What a process must have at its next place. -/
structure Allows (s : InodeTable P) (p : P) (pc : InodePc) : Prop where
  puts : ∀ ip, pc.putting = some ip → 0 < s.held p ip
  frees : ∀ ip, pc.freeing = some ip → s.lock ip = some p ∧ (s.inode ip).nlink = 0
  only : ∀ ip, pc = .iputFree ip 1 → s.found ip = false →
    ∀ q, s.held q ip = if q = p then 1 else 0
  drops : ∀ ip, pc = .iputDrop ip → s.lock ip ≠ some p

omit [Fintype P] in
theorem allows_of_none {pc : InodePc} (h : pc.putting = none) : s.Allows p pc := by
  cases pc with
  | outside | ialloc | iget => exact ⟨nofun, nofun, nofun, nofun⟩
  | iputRef | iputFree | iputDrop => cases h

theorem Sound.allows (h : s.Sound) (p : P) : s.Allows p (s.pc p) :=
  ⟨h.puts p, h.frees p, h.only p, fun ip hpc hlock => (h.locks p ip hlock).2.2 hpc⟩

theorem Sound.setPc {pc : InodePc} (h : s.Sound) (hpc : s.Allows p pc) : (s.setPc p pc).Sound := by
  have hall : ∀ q, s.Allows q (update s.pc p pc q) :=
    (forall_update_iff s.pc fun q pc => s.Allows q pc).mpr ⟨hpc, fun q _ => h.allows q⟩
  refine ⟨h.total, h.unique, fun q => (hall q).puts, fun q => (hall q).frees, fun q => (hall q).only,
    fun q ip hlock => ?_, h.types⟩
  have hq := h.locks q ip hlock
  exact ⟨hq.1, hq.2.1, fun hdrop => (hall q).drops ip hdrop hlock⟩

/-- The sleep lock of an entry that no `iput` has locked. -/
theorem Sound.setLock (h : s.Sound) (hnone : ∀ q, (s.pc q).freeing ≠ some ip) {o : Option P}
    (ho : ∀ q, o = some q → 0 < s.held q ip ∧ (s.inode ip).valid = true ∧ s.pc q ≠ .iputDrop ip) :
    (s.setLock ip o).Sound := by
  obtain ⟨htotal, hunique, hputs, hfrees, honly, hlocks, htypes⟩ := h
  refine ⟨htotal, hunique, hputs, ?_, honly, ?_, htypes⟩
  all_goals
    dsimp only [InodeTable.setLock]
    grind [update_apply]

/-- **One entry changes**, and who holds it. -/
theorem Sound.change {x : CachedInode} {held : P → Ip → ℕ} (h : s.Sound)
    (hheld : ∀ q jp, jp ≠ ip → held q jp = s.held q jp)
    (htotal : Refs.Total held fun jp => (update s.inode ip x jp).ref)
    (hunique : 0 < x.ref → ∀ jp ≠ ip, 0 < (s.inode jp).ref → (s.inode jp).dev = x.dev →
      (s.inode jp).inum ≠ x.inum)
    (hputs : ∀ q, (s.pc q).putting = some ip → 0 < held q ip)
    (hfrees : ∀ q, (s.pc q).freeing = some ip → x.nlink = 0)
    (honly : ∀ q, s.pc q = .iputFree ip 1 → s.found ip = false →
      ∀ r, held r ip = if r = q then 1 else 0)
    (hlocks : ∀ q, s.lock ip = some q → 0 < held q ip ∧ x.valid = true)
    (htypes : x.valid = true → x.type ≠ 0) :
    ({ s with inode := update s.inode ip x, held := held }).Sound := by
  obtain ⟨-, hunique', hputs', hfrees', honly', hlocks', htypes'⟩ := h
  refine ⟨htotal, ?_, ?_, ?_, ?_, ?_, ?_⟩
  all_goals
    dsimp only
    grind [update_apply]

/-- The copy of the dinode in an entry that no `iput` has locked. -/
theorem Sound.setCopy {d : Dinode} {valid : Bool} (h : s.Sound)
    (hnone : ∀ q, (s.pc q).freeing ≠ some ip) (hlock : s.lock ip ≠ none → valid = true)
    (htype : valid = true → d.type ≠ 0) : (s.setCopy ip d valid).Sound := by
  refine h.change (fun _ _ _ => rfl) (fun jp => ?_) (fun href jp hj hjref hdev hinum => ?_)
    (fun q hq => h.puts q ip hq) (fun q hq => absurd hq (hnone q)) (fun q hq => h.only q ip hq)
    (fun q hq => ⟨(h.locks q ip hq).1, hlock (by rw [hq]; nofun)⟩) htype
  · have hjp := h.total jp
    grind [update_apply]
  · exact hj (h.unique jp ip hjref href hdev hinum)

omit [Fintype P] in
/-- What processes hold of other entries after a change of `ref`. -/
theorem held_of_ne {n : ℕ} (q : P) (hj : jp ≠ ip) :
    update s.held p (update (s.held p) ip n) q jp = s.held q jp := by
  simp only [update_apply, ite_apply]
  grind

omit [Fintype P] in
/-- Nobody has fewer references than before. -/
theorem held_add_pos (hpos : 0 < s.held q ip) :
    0 < update s.held p (update (s.held p) ip (s.held p ip + 1)) q ip := by
  simp only [update_apply, ite_apply]
  grind

/-- A process gets one more reference to an entry that is in use. -/
theorem Sound.addRef (h : s.Sound) (href : 0 < (s.inode ip).ref)
    (honly : ∀ q, s.pc q = .iputFree ip 1 → s.found ip = true) : (s.addRef p ip).Sound := by
  refine h.change (fun q jp hj => held_of_ne q hj) ?_ (fun _ jp hj hjref hdev hinum => ?_)
    (fun q hq => held_add_pos (h.puts q ip hq)) (fun q hq => (h.frees q ip hq).2)
    (fun q hq hfound => ?_) (fun q hq => ⟨held_add_pos (h.locks q ip hq).1, (h.locks q ip hq).2.1⟩)
    (h.types ip)
  · refine h.total.change ?_ (fun jp hj => ?_)
    · rw [update_self]
      dsimp only
      omega
    · rw [update_of_ne hj]
  · exact hj (h.unique jp ip hjref href hdev hinum)
  · rw [honly q hq] at hfound
    cases hfound

/-- An entry that nobody holds is taken for another inode. -/
theorem Sound.recycle {dev inum : ℕ} (h : s.Sound) (href : (s.inode ip).ref = 0)
    (hnew : ∀ jp, 0 < (s.inode jp).ref → (s.inode jp).dev = dev → (s.inode jp).inum ≠ inum) :
    (s.recycle p ip dev inum).Sound := by
  have hzero : ∀ q, ¬ 0 < s.held q ip := by
    intro q hq
    rw [h.total.eq_zero href q] at hq
    exact Nat.lt_irrefl 0 hq
  have hnobody : ∀ q, (s.pc q).putting ≠ some ip := fun q hq => hzero q (h.puts q ip hq)
  refine h.change (fun q jp hj => held_of_ne q hj) ?_ (fun _ jp _ => hnew jp)
    (fun q hq => absurd hq (hnobody q))
    (fun q hq => absurd (InodePc.putting_of_freeing hq) (hnobody q))
    (fun q hq => absurd (by rw [hq]; rfl) (hnobody q))
    (fun q hq => absurd (h.locks q ip hq).1 (hzero q)) nofun
  refine h.total.change ?_ (fun jp hj => ?_)
  · rw [update_self, href]
    dsimp only
    omega
  · rw [update_of_ne hj]

/-- A process that is in no `iput` and has not locked the entry gives a reference up. -/
theorem Sound.dropRef (h : s.Sound) (hpc : (s.pc p).putting = none) (hheld : 0 < s.held p ip)
    (hlock : s.lock ip ≠ some p) : (s.dropRef p ip).Sound := by
  have hne : ∀ q, (s.pc q).putting = some ip → q ≠ p := by
    rintro q hq rfl
    rw [hpc] at hq
    cases hq
  refine h.change (fun q jp hj => held_of_ne q hj) ?_ (fun href jp hj hjref hdev hinum => ?_)
    (fun q hq => ?_) (fun q hq => (h.frees q ip hq).2) (fun q hq hfound r => ?_) (fun q hq => ?_)
    (h.types ip)
  · refine h.total.change ?_ (fun jp hj => ?_)
    · rw [update_self]
      dsimp only
      omega
    · rw [update_of_ne hj]
  · refine hj (h.unique jp ip hjref ?_ hdev hinum)
    have href : 0 < (s.inode ip).ref - 1 := href
    omega
  · rw [update_of_ne (hne q hq)]
    exact h.puts q ip hq
  · -- the only holder is another process
    have hnot := h.only q ip hq hfound p
    rw [if_neg (Ne.symm (hne q (by rw [hq]; rfl)))] at hnot
    omega
  · rw [update_of_ne (by rintro rfl; exact hlock hq)]
    exact ⟨(h.locks q ip hq).1, (h.locks q ip hq).2.1⟩

/-- The disk is no part of the invariant. -/
theorem Sound.setDisk (h : s.Sound) (dev inum : ℕ) (d : Dinode) : (s.setDisk dev inum d).Sound :=
  ⟨h.total, h.unique, h.puts, h.frees, h.only, h.locks, h.types⟩

/-- An `iget` has found an entry, or none has while no `iput` could free it. -/
theorem Sound.setFound (h : s.Sound) (ip : Ip) {b : Bool} (hb : b = false → ∀ q, s.pc q ≠ .iputFree ip 1) :
    ({ s with found := update s.found ip b }).Sound := by
  obtain ⟨htotal, hunique, hputs, hfrees, honly, hlocks, htypes⟩ := h
  refine ⟨htotal, hunique, hputs, hfrees, ?_, hlocks, htypes⟩
  dsimp only
  grind [update_apply]

omit [Fintype P] [DecidableEq P] in
theorem setCopy_inode_self (d : Dinode) (valid : Bool) :
    (s.setCopy ip d valid).inode ip = { s.inode ip with toDinode := d, valid := valid } :=
  update_self ..

/-- Nobody frees an entry whose sleep lock another process has, or nobody. -/
theorem Sound.not_freeing (h : s.Sound) (hlock : s.lock ip ≠ some q) : (s.pc q).freeing ≠ some ip :=
  fun hq => hlock (h.frees q ip hq).1

/-- Nobody but the holder of the sleep lock frees an entry. -/
theorem Sound.not_freeing_of_lock (h : s.Sound) (hlock : s.lock ip = some p)
    (hpc : (s.pc p).freeing ≠ some ip) (q : P) : (s.pc q).freeing ≠ some ip := by
  have hq := h.frees q ip
  grind

/-- `iput` is done with the inode that it had locked. -/
theorem Sound.leave {r : ℤ} (h : s.Sound) (hpc : s.pc p = .iputFree ip r) :
    (∀ q, (((s.setPc p (.iputDrop ip)).setLock ip none).pc q).freeing ≠ some ip) ∧
      ((s.setPc p (.iputDrop ip)).setLock ip none).Sound := by
  have hlock := (h.frees p ip (by rw [hpc]; rfl)).1
  have hheld := h.puts p ip (by rw [hpc]; rfl)
  obtain ⟨htotal, hunique, hputs, hfrees, honly, hlocks, htypes⟩ := h
  refine ⟨?_, htotal, hunique, ?_, ?_, ?_, ?_, htypes⟩
  all_goals
    dsimp only [InodeTable.setPc, InodeTable.setLock]
    grind [update_apply, InodePc.putting, InodePc.freeing]

/-- **Every step keeps the invariant.** -/
theorem Sound.moves (h : s.Sound) (hmoves : Moves s p e s') : s'.Sound := by
  cases hmoves with
  | hit dev inum ip href hdev hinum hpc =>
    have hfound := h.setFound ip (b := true) nofun
    exact (hfound.addRef href fun _ _ => update_self ..).setPc (allows_of_none rfl)
  | recycle dev inum ip href hnew hpc => exact (h.recycle href hnew).setPc (allows_of_none rfl)
  | idup ip hp =>
    have hle := h.total.le p ip
    have hpos := hp.2
    refine h.addRef (by omega) (fun q hq => ?_)
    by_contra hfound
    -- the process that calls `idup` holds the entry, so `iput` did not read `1`
    have hnone := h.only q ip hq (eq_false_of_ne_true hfound) p
    rw [if_neg] at hnone
    · omega
    · rintro rfl
      rw [hp.1] at hq
      cases hq
  | move pc hpc hpc' => exact h.setPc (allows_of_none hpc')
  | take dev inum type hpc hfree => exact (h.setDisk dev inum _).setPc (allows_of_none rfl)
  | ilock ip hp hlock hvalid =>
    refine h.setLock (fun q => h.not_freeing (by rw [hlock]; nofun)) (fun q hq => ?_)
    cases hq
    exact ⟨hp.2, hvalid, by rw [hp.1]; nofun⟩
  | load ip d hp hlock htype =>
    have hnone : ∀ q, (s.pc q).freeing ≠ some ip := fun q => h.not_freeing (by rw [hlock]; nofun)
    refine (h.setCopy (d := d) hnone (fun hne => absurd hlock hne) fun _ => htype).setLock hnone
      (fun q hq => ?_)
    cases hq
    exact ⟨hp.2, by rw [setCopy_inode_self], by show s.pc p ≠ _; rw [hp.1]; nofun⟩
  | iupdate ip d hp hlock htype =>
    refine (h.setCopy (h.not_freeing_of_lock hlock (by rw [hp.1]; nofun)) (fun _ => ?_)
      fun hvalid => ?_).setDisk _ _ _
    · exact (h.locks p ip hlock).2.1
    · rw [htype]
      exact h.types ip hvalid
  | iunlock ip hp hlock =>
    exact h.setLock (h.not_freeing_of_lock hlock (by rw [hp.1]; nofun)) nofun
  | iputRef ip hp hlock hvalid hnlink =>
    have hnone : ∀ q, (s.pc q).freeing ≠ some ip := fun q => h.not_freeing (by rw [hlock]; nofun)
    have hlocked : (s.setLock ip (some p)).Sound := by
      refine h.setLock hnone (fun q hq => ?_)
      cases hq
      exact ⟨hp.2, hvalid, by rw [hp.1]; nofun⟩
    refine hlocked.setPc ⟨fun jp hj => ?_, fun jp hj => ?_, nofun, nofun⟩
    · cases hj
      exact hp.2
    · cases hj
      exact ⟨update_self .., hnlink⟩
  | iputDrop ip hp hlock =>
    refine h.setPc ⟨fun jp hj => ?_, nofun, nofun, fun jp hj => ?_⟩
    · cases hj
      exact hp.2
    · cases hj
      rw [hlock]
      nofun
  | readRef ip hpc =>
    have hfrees := h.frees p ip (by rw [hpc]; rfl)
    have hheld := h.puts p ip (by rw [hpc]; rfl)
    refine (h.setFound ip fun _ q hq => ?_).setPc
      ⟨fun jp hj => ?_, fun jp hj => ?_, fun jp hj _ => ?_, nofun⟩
    · -- the process at `iputFree` has the sleep lock, which `p` has
      have hqp := (h.frees q ip (by rw [hq]; rfl)).1.symm.trans hfrees.1
      cases hqp
      rw [hpc] at hq
      cases hq
    · cases hj
      exact hheld
    · cases hj
      exact hfrees
    · obtain ⟨rfl, href⟩ := InodePc.iputFree.inj hj
      exact h.total.only href hheld
  | free ip hpc =>
    obtain ⟨hnone, hleft⟩ := h.leave hpc
    have hcopy : (((s.setPc p (.iputDrop ip)).setLock ip none).setCopy ip
        (freed (s.inode ip).toDinode) false).Sound :=
      hleft.setCopy hnone (fun hne => absurd (update_self ..) hne) nofun
    exact hcopy.setDisk _ _ _
  | keep ip r hpc hr => exact (h.leave hpc).2
  | drop ip hpc =>
    have hpc' : (s.setPc p .outside).pc p = .outside := update_self ..
    refine (h.setPc (allows_of_none rfl)).dropRef (by rw [hpc']; rfl)
      (h.puts p ip (by rw [hpc]; rfl)) (fun hlock => ?_)
    exact (h.locks p ip hlock).2.2 hpc

theorem Sound.step {o : Unit} (h : s.Sound) (hstep : s.step e = .ok (o, s')) : s'.Sound := by
  obtain ⟨p, hmoves⟩ := moves_of_step hstep
  exact h.moves hmoves

/-! ## Every run -/

omit [Fintype P] in
/-- An entry gets another inode when it has no references. -/
theorem Moves.ref_eq_zero (hmoves : Moves s p e s')
    (hne : (s'.inode ip).dev ≠ (s.inode ip).dev ∨ (s'.inode ip).inum ≠ (s.inode ip).inum) :
    (s.inode ip).ref = 0 := by
  have hkeep : ∀ {jp : Ip} {x : CachedInode}, x.dev = (s.inode jp).dev → x.inum = (s.inode jp).inum →
      (update s.inode jp x ip).dev = (s.inode ip).dev ∧
        (update s.inode jp x ip).inum = (s.inode ip).inum := by
    grind [update_apply]
  have hsame : (s'.inode ip).dev = (s.inode ip).dev ∧ (s'.inode ip).inum = (s.inode ip).inum →
      (s.inode ip).ref = 0 := by grind
  cases hmoves with
  | recycle dev inum jp href hnew hpc =>
    by_cases hip : ip = jp
    · exact hip ▸ href
    · refine hsame ?_
      show (update s.inode jp _ ip).dev = _ ∧ (update s.inode jp _ ip).inum = _
      grind [update_apply]
  | hit | idup | load | iupdate | free | drop => exact hsame (hkeep rfl rfl)
  | move | take | ilock | iunlock | iputRef | iputDrop | readRef | keep => exact hsame ⟨rfl, rfl⟩

omit [Fintype P] in
/-- Only the process that makes the step moves on. -/
theorem Moves.pc_of_ne (hmoves : Moves s p e s') (hq : q ≠ p) : s'.pc q = s.pc q := by
  cases hmoves with
  | idup | ilock | load | iupdate | iunlock => rfl
  | _ => exact update_of_ne hq ..

omit [Fintype P] in
/-- The process that reads `ref`. -/
theorem Moves.ref_eq_one (hmoves : Moves s p e s') (hq : s.pc q = .iputRef ip)
    (hq' : s'.pc q = .iputFree ip 1) : (s.inode ip).ref = 1 := by
  by_cases hqp : q = p
  · subst hqp
    have hputting : (s.pc q).putting = some ip := by
      rw [hq]
      rfl
    cases hmoves with
    | readRef jp hpc =>
      cases hpc.symm.trans hq
      have hself : (update s.pc q (.iputFree ip (s.inode ip).ref)) q = .iputFree ip 1 := hq'
      rw [update_self] at hself
      exact (InodePc.iputFree.inj hself).2
    | hit _ _ _ _ _ _ hpc | recycle _ _ _ _ _ hpc | move _ hpc | take _ _ _ hpc =>
      cases hpc.symm.trans hputting
    | idup _ h | ilock _ h | load _ _ h | iupdate _ _ h | iunlock _ h | iputRef _ h | iputDrop _ h =>
      cases h.1.symm.trans hq
    | free _ hpc | keep _ _ hpc | drop _ hpc => cases hpc.symm.trans hq
  · rw [hmoves.pc_of_ne hqp, hq] at hq'
    cases hq'

/-- **What may clear the type of a dinode**: `iput`, after it has read `1`. -/
theorem Sound.freed {dev inum : ℕ} (h : s.Sound) (hmoves : Moves s p e s')
    (hbefore : (s.disk dev inum).type ≠ 0) (hafter : (s'.disk dev inum).type = 0) :
    ∃ ip, s.pc p = .iputFree ip 1 ∧ (s.inode ip).dev = dev ∧ (s.inode ip).inum = inum := by
  have hset : ∀ {dev' inum' d}, (update s.disk dev' (update (s.disk dev') inum' d)
      dev inum).type = 0 → dev' = dev ∧ inum' = inum ∧ d.type = 0 := by
    simp only [update_apply, ite_apply]
    grind
  cases hmoves with
  | take dev' inum' type hpc hfree =>
    obtain ⟨rfl, rfl, -⟩ := hset hafter
    exact absurd hfree hbefore
  | iupdate ip d hp hlock htype =>
    obtain ⟨-, -, hzero⟩ := hset hafter
    rw [htype] at hzero
    exact absurd hzero (h.types ip (h.locks p ip hlock).2.1)
  | free ip hpc =>
    obtain ⟨hdev, hinum, -⟩ := hset hafter
    exact ⟨ip, hpc, hdev, hinum⟩
  | _ => exact absurd hafter hbefore

/-- **References to inodes are exact and unique**, whatever processes do. No
inode has two entries in use; `ref` counts the references held; an entry gets
another inode only while nobody holds it. `iput` reads `1` from `ref` only if
its caller holds the only reference, and it frees an inode that has no links
then; nobody else holds the entry even then, unless an `iget` has found it in
between. -/
theorem references_of_run (disk : ℕ → ℕ → Dinode) (ninodes : ℕ)
    (l : List (Machine.Step (InodeTable P) (InodeEvent P) Unit)) (s : InodeTable P)
    (hrun : Machine.Run InodeTable.step (start disk ninodes) l s) :
    (∀ ip jp, 0 < (s.inode ip).ref → 0 < (s.inode jp).ref →
      (s.inode ip).dev = (s.inode jp).dev → (s.inode ip).inum = (s.inode jp).inum → ip = jp) ∧
    (∀ ip, (s.inode ip).ref = ∑ p, (s.held p ip : ℤ)) ∧
    ∀ x ∈ l,
      (∀ ip, (x.after.inode ip).dev ≠ (x.before.inode ip).dev ∨
        (x.after.inode ip).inum ≠ (x.before.inode ip).inum → ∀ p, x.before.held p ip = 0) ∧
      (∀ p ip, x.before.pc p = .iputRef ip → x.after.pc p = .iputFree ip 1 →
        ∀ q, x.before.held q ip = if q = p then 1 else 0) ∧
      ∀ dev inum, (x.before.disk dev inum).type ≠ 0 → (x.after.disk dev inum).type = 0 →
        ∃ p ip, x.before.pc p = .iputFree ip 1 ∧ (x.before.inode ip).dev = dev ∧
          (x.before.inode ip).inum = inum ∧ (x.before.inode ip).nlink = 0 ∧ 0 < x.before.held p ip ∧
          (x.before.found ip = false → ∀ q, x.before.held q ip = if q = p then 1 else 0) := by
  have hsound : ∀ {l} {s : InodeTable P}, Machine.Run InodeTable.step (start disk ninodes) l s →
      s.Sound :=
    fun hrun => hrun.invariant Sound.step (sound_start disk ninodes)
  have hs := hsound hrun
  refine ⟨hs.unique, hs.total, fun x hx => ?_⟩
  obtain ⟨l₁, l₂, rfl⟩ := List.append_of_mem hx
  obtain ⟨hbefore, hstep⟩ := hrun.split
  have hx := hsound hbefore
  obtain ⟨p, hmoves⟩ := moves_of_step hstep
  refine ⟨fun ip hne => hx.total.eq_zero (hmoves.ref_eq_zero hne), fun q ip hq hq' => ?_,
    fun dev inum htype htype' => ?_⟩
  · exact hx.total.only (hmoves.ref_eq_one hq hq') (hx.puts q ip (by rw [hq]; rfl))
  · obtain ⟨ip, hpc, hdev, hinum⟩ := hx.freed hmoves htype htype'
    exact ⟨p, ip, hpc, hdev, hinum, (hx.frees p ip (by rw [hpc]; rfl)).2,
      hx.puts p ip (by rw [hpc]; rfl), hx.only p ip hpc⟩

/-- A device with one inode in use, a file without links. -/
def oneFile (_dev inum : ℕ) : Dinode := if inum = 1 then .fresh T_FILE else .fresh 0

/-- `true` looks the file up, and puts it again: it reads `1` from `ref`. -/
def lastPut : List (InodeEvent Bool) :=
  let ip : Ip := ⟨0, NINODE_pos⟩
  [.iget true 1 1, .ilock true ip, .iunlock true ip, .iput true ip, .run true]

theorem references_of_lastPut :
    ∃ l s, Machine.Run InodeTable.step (start oneFile 8) l s ∧
      l.map Machine.Step.event = lastPut ++ [.run true, .run true] ∧
      (∀ ip, (s.inode ip).ref = ∑ p, (s.held p ip : ℤ)) ∧
      ∀ x ∈ l, ∀ ip, (x.after.inode ip).dev ≠ (x.before.inode ip).dev ∨
        (x.after.inode ip).inum ≠ (x.before.inode ip).inum → ∀ p, x.before.held p ip = 0 := by
  obtain ⟨s, hexec, -⟩ : ∃ s, Machine.exec InodeTable.step (start oneFile 8)
      (lastPut ++ [.run true, .run true]) = .ok s ∧ True := by decide +kernel
  obtain ⟨l, hl, hevents⟩ := Machine.exists_run_of_exec hexec
  obtain ⟨-, htotal, hsteps⟩ := references_of_run oneFile 8 l s hl
  exact ⟨l, s, hl, hevents, htotal, fun x hx => (hsteps x hx).1⟩

/-- `false` looks the file up after `true` has read `1` from `ref`: the file is
freed while two processes hold it. -/
theorem freed_while_held :
    ∃ s s' : InodeTable Bool, Machine.exec InodeTable.step (start oneFile 8)
        (lastPut ++ [.iget false 1 1]) = .ok s ∧
      s.step (.run true) = .ok ((), s') ∧ (s.disk 1 1).type ≠ 0 ∧ (s'.disk 1 1).type = 0 ∧
      s.held true ⟨0, by decide⟩ = 1 ∧ s.held false ⟨0, by decide⟩ = 1 := by
  obtain ⟨s, hs, s', hs', hfreed⟩ : ∃ s, Machine.exec InodeTable.step (start oneFile 8)
      (lastPut ++ [.iget false 1 1]) = .ok s ∧ ∃ s', s.step (.run true) = .ok ((), s') ∧
        (s.disk 1 1).type ≠ 0 ∧ (s'.disk 1 1).type = 0 ∧
        s.held true ⟨0, by decide⟩ = 1 ∧ s.held false ⟨0, by decide⟩ = 1 := by decide +kernel
  exact ⟨s, s', hs, hs', hfreed⟩

end InodeTable

end Xv6
