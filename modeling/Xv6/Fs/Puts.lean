import Xv6.Lib.Machine
import Xv6.Fs.Runs
import Mathlib.Data.Fintype.Card

/-!
# Several `iput`s of one inode

A file that was unlinked while processes had it open is freed by the last of
them. `iput` finds out whether it is the last in its first part, under the
inode's sleep lock, and gives its reference up in a second part, under
`icache.lock`. Between the two the reference still counts, so two calls can
each take the other's reference for one that is still to be put, and then
nobody frees the inode. `Puts.NotMisled` is the order in which that does not
happen.
-/

namespace Xv6

open Function

open Wp

/-- How far a call of `iput` is. -/
inductive PutPc
  /-- Not called yet: the reference is held. -/
  | holds
  /-- Past the part under the sleep lock. -/
  | checked
  /-- The reference is given up. -/
  | done
  deriving DecidableEq

/-- **Calls of `iput` of one inode that overlap**: the file system, and for each call whether its
first part, which may free the inode, and its second, which drops the reference, are done. -/
structure Puts (P : Type) where
  fs : Fs
  pc : P → PutPc

/-- A call makes its first or its second part. -/
inductive PutEvent (P : Type)
  | check (p : P)
  | drop (p : P)

namespace Puts

/-- `iput` up to `releasesleep`. -/
def checkPart (ip : Ip) : FsM PUnit := do
  Fs.acquiresleep ip
  Fs.iputFree ip
  Fs.releasesleep ip

/-- `ip->ref--`. -/
def dropPart (ip : Ip) : FsM PUnit := modify (Fs.setInode ip fun i => { i with ref := i.ref - 1 })

/-- The two parts are `iput`. -/
theorem iput_eq (ip : Ip) : Fs.iput ip = (do checkPart ip; dropPart ip) := by
  unfold Fs.iput checkPart dropPart
  simp only [bind_assoc]

variable {P : Type} [DecidableEq P]

/-- One call is a part further. -/
def run (m : FsM PUnit) (p : P) (pc : PutPc) (s : Puts P) : Except FsHalt (Unit × Puts P) :=
  (m.run s.fs).map fun r => ((), ⟨r.2, update s.pc p pc⟩)

def step (ip : Ip) (s : Puts P) : PutEvent P → Except FsHalt (Unit × Puts P)
  | .check p => if s.pc p = .holds then s.run (checkPart ip) p .checked else .error .disabled
  | .drop p => if s.pc p = .checked then s.run (dropPart ip) p .done else .error .disabled

/-- All calls are still to come. -/
def start (fs : Fs) : Puts P := ⟨fs, fun _ => .holds⟩

/-- **A first part that is not misled**: another call has its own first part
still to make, or all other calls have given their references up. -/
def NotMisled (s : Puts P) : PutEvent P → Prop
  | .check p => (∃ q, q ≠ p ∧ s.pc q = .holds) ∨ ∀ q, q ≠ p → s.pc q = .done
  | .drop _ => True

instance [Fintype P] (s : Puts P) : (e : PutEvent P) → Decidable (s.NotMisled e)
  | .check p =>
    inferInstanceAs (Decidable ((∃ q, q ≠ p ∧ s.pc q = .holds) ∨ ∀ q, q ≠ p → s.pc q = .done))
  | .drop _ => inferInstanceAs (Decidable True)

/-- **The inode is freed**, as it was in `fs`: no type, and none of the blocks
it had in use. -/
def Freed (fs : Fs) (ip : Ip) (fs' : Fs) : Prop :=
  (fs'.sb.dinode fs'.disk (fs.icache ip).inum).type = 0 ∧
    ∀ pl b, owner fs.sb fs.disk (fs.sb.dinode fs.disk) ((fs.icache ip).inum, pl) = some b →
      fs'.sb.inUse fs'.disk b = false

end Puts

/-! ## What the first part does -/

namespace Fs

/-- **The last reference to an inode without links**: its blocks are free, and
its dinode has no type. -/
theorem wp_free {s : Fs} (h : s.Consistent) {ip : Ip} (href : 0 < (s.icache ip).ref)
    (hip : Agrees s.sb s.disk (s.icache ip)) {R : FsHalt → Prop} :
    wp (do
      itrunc ip
      modify (setInode ip (fun i => { i with type := 0 }))
      iupdate ip
      modify (setInode ip (fun i => { i with valid := false })))
      (fun _ s' => Puts.Freed s ip s' ∧ (s'.icache ip).ref = (s.icache ip).ref) R s := by
  refine (wp_itrunc h href hip).bind (fun _ s₁ h₁ => ?_)
  obtain ⟨hcons, hsb, hicache, hfree, -⟩ := h₁
  have hself : s₁.icache ip = { s.icache ip with toDinode := (s.icache ip).toDinode.truncated } := by
    rw [hicache, update_self]
  have hentry : (s₁.setInode ip fun i => { i with type := 0 }).icache ip
      = { s.icache ip with toDinode := { (s.icache ip).toDinode.truncated with type := 0 } } := by
    rw [setInode_icache, update_self, hself]
  have hfits : ({ (s.icache ip).toDinode.truncated with type := 0 } : Dinode).Fits :=
    ⟨Nat.two_pow_pos 32, fun _ => Nat.two_pow_pos 32⟩
  have hdinode := Working.dinode_iupdate (s₁.setInode ip fun i => { i with type := 0 }) ip hfits
  rw [wp_bind, wp_modify, wp_bind, wp_iupdate, wp_modify]
  rw [hentry] at hdinode ⊢
  refine ⟨⟨?_, fun pl b hb => ?_⟩, ?_⟩
  · rw [setInode_sb, setInode_disk, hdinode]
  · have hsize := (h.sound.used_of_owner hb).2.1
    rw [← hsb] at hsize
    exact (hcons.sound.inUse_iblock (by rw [hsb]; exact hip.inum) hsize _).trans (hfree pl b hb)
  · rw [setInode_icache, update_self, writeBlock_icache, hentry]

end Fs

namespace Puts

/-- The file system with another count of references. -/
def withRef (ip : Ip) (r : ℤ) (fs : Fs) : Fs := fs.setInode ip fun i => { i with ref := r }

theorem withRef_icache (ip : Ip) (r : ℤ) (fs : Fs) :
    (withRef ip r fs).icache ip = { fs.icache ip with ref := r } := update_self ..

theorem withRef_self (ip : Ip) (fs : Fs) : withRef ip (fs.icache ip).ref fs = fs := by
  unfold withRef Fs.setInode
  rw [update_eq_self]

theorem withRef_drop (ip : Ip) (r : ℤ) (fs : Fs) :
    ((withRef ip r fs).setInode ip fun i => { i with ref := i.ref - 1 }) = withRef ip (r - 1) fs := by
  unfold withRef Fs.setInode
  dsimp only
  rw [update_self, update_idem]

/-- **An inode that is still open**, and without links: the file was removed while it was in use,
so the last `iput` has to free it. -/
structure Unlinked (fs : Fs) (ip : Ip) : Prop where
  consistent : fs.Consistent
  ref : 0 < (fs.icache ip).ref
  valid : (fs.icache ip).valid = true
  nlink : (fs.icache ip).nlink = 0
  unlocked : (fs.icache ip).locked = false

variable {fs : Fs} {ip : Ip}

/-- The inode with its lock and its count changed is as on the disk. -/
theorem Unlinked.locked (h : Unlinked fs ip) {r : ℤ} (hr : 0 < r) :
    ((withRef ip r fs).setInode ip fun i => { i with locked := true }).Consistent ∧
      Fs.Agrees fs.sb fs.disk
        (((withRef ip r fs).setInode ip fun i => { i with locked := true }).icache ip) := by
  have hip := h.consistent.agrees h.ref h.valid
  have hself : ((withRef ip r fs).setInode ip fun i => { i with locked := true }).icache ip
      = { fs.icache ip with ref := r, locked := true } := by
    rw [Fs.setInode_icache, update_self, withRef_icache]
  refine ⟨h.consistent.change_used h.ref rfl rfl (i := { fs.icache ip with ref := r, locked := true })
    ?_ rfl (fun _ _ => ⟨hip.inum, hip.copy, hip.type⟩) (fun _ => ⟨hr, h.valid⟩), ?_⟩
  · rw [Fs.setInode_icache, withRef_icache]
    exact update_idem ..
  · rw [hself]
    exact ⟨hip.inum, hip.copy, hip.type⟩

/-- The call with the last reference frees the inode. -/
theorem Unlinked.wp_check_last (h : Unlinked fs ip) {R : FsHalt → Prop} :
    wp (checkPart ip) (fun _ fs' => Freed fs ip fs' ∧ (fs'.icache ip).ref = 1) R
      (withRef ip 1 fs) := by
  obtain ⟨hcons, hip⟩ := h.locked Int.one_pos
  have hself : ((withRef ip 1 fs).setInode ip fun i => { i with locked := true }).icache ip
      = { fs.icache ip with ref := 1, locked := true } := by
    rw [Fs.setInode_icache, update_self, withRef_icache]
  unfold checkPart Fs.acquiresleep Fs.iputFree Fs.releasesleep
  rw [wp_bind, wp_bind, wp_get, withRef_icache, if_neg (by rw [h.unlocked]; nofun), wp_modify,
    wp_bind, wp_bind, wp_get, if_pos (by rw [hself]; exact ⟨h.valid, h.nlink, rfl⟩)]
  refine (Fs.wp_free hcons (by rw [hself]; exact Int.one_pos) hip).imp (fun _ fs' hfs' => ?_)
  rw [wp_modify]
  obtain ⟨hfreed, href⟩ := hfs'
  refine ⟨?_, ?_⟩
  · unfold Freed at hfreed ⊢
    rw [hself] at hfreed
    exact hfreed
  · rw [hself] at href
    rw [Fs.setInode_icache, update_self]
    exact href

/-- A call that counts other references changes nothing. -/
theorem Unlinked.wp_check_other (h : Unlinked fs ip) {r : ℤ} (hr : r ≠ 1) {R : FsHalt → Prop} :
    wp (checkPart ip) (fun _ fs' => fs' = withRef ip r fs) R (withRef ip r fs) := by
  have hself : ((withRef ip r fs).setInode ip fun i => { i with locked := true }).icache ip
      = { fs.icache ip with ref := r, locked := true } := by
    rw [Fs.setInode_icache, update_self, withRef_icache]
  unfold checkPart Fs.acquiresleep Fs.iputFree Fs.releasesleep
  rw [wp_bind, wp_bind, wp_get, withRef_icache, if_neg (by rw [h.unlocked]; nofun), wp_modify,
    wp_bind, wp_bind, wp_get, if_neg (by rw [hself]; exact fun hc => hr hc.2.2), wp_pure, wp_modify]
  unfold withRef Fs.setInode
  dsimp only
  rw [update_self, update_self, update_idem, update_idem,
    ← h.unlocked]

variable {P : Type} [DecidableEq P] [Fintype P]

/-- The calls that have not given their reference up. -/
def outstanding (s : Puts P) : ℕ := (Finset.univ.filter fun p => s.pc p ≠ .done).card

/-- **The inode waits for a call that is still to come, or is freed.** -/
inductive Fair (fs : Fs) (ip : Ip) (s : Puts P) : Prop
  | waits (q : P) (hq : s.pc q = .holds) (hfs : s.fs = withRef ip s.outstanding fs)
  | freed (hnone : ∀ q, s.pc q ≠ .holds) (hfreed : Freed fs ip s.fs)
      (href : (s.fs.icache ip).ref = s.outstanding)

variable {s s' : Puts P} {p q : P}

omit [DecidableEq P] in
theorem mem_outstanding : p ∈ Finset.univ.filter (fun p => s.pc p ≠ .done) ↔ s.pc p ≠ .done :=
  Finset.mem_filter.trans (and_iff_right (Finset.mem_univ p))

/-- The first part of a call gives no reference up. -/
theorem outstanding_check (hp : s.pc p = .holds) (fs' : Fs) :
    (⟨fs', update s.pc p .checked⟩ : Puts P).outstanding = s.outstanding := by
  unfold outstanding
  refine congrArg Finset.card (Finset.filter_congr fun q _ => ?_)
  dsimp only
  grind [update_apply]

/-- The second part gives one up. -/
theorem outstanding_drop (hp : s.pc p = .checked) (fs' : Fs) :
    ((⟨fs', update s.pc p .done⟩ : Puts P).outstanding : ℤ) = s.outstanding - 1 := by
  unfold outstanding
  have herase : (Finset.univ.filter fun q => update s.pc p PutPc.done q ≠ .done)
      = (Finset.univ.filter fun q => s.pc q ≠ .done).erase p := by
    ext q
    rw [Finset.mem_erase, Finset.mem_filter, Finset.mem_filter]
    grind [update_apply]
  have hcard := Finset.card_erase_add_one (mem_outstanding.mpr (show s.pc p ≠ .done by rw [hp]; nofun))
  rw [herase]
  omega

omit [DecidableEq P] in
/-- The last call. -/
theorem outstanding_eq_one (hp : s.pc p = .holds) (hothers : ∀ q, q ≠ p → s.pc q = .done) :
    s.outstanding = 1 := by
  refine Finset.card_eq_one.mpr ⟨p, ?_⟩
  ext q
  rw [mem_outstanding, Finset.mem_singleton]
  refine ⟨fun hq => by_contra fun hne => hq (hothers q hne), ?_⟩
  rintro rfl
  rw [hp]
  nofun

omit [DecidableEq P] in
theorem outstanding_ne_one (hp : s.pc p ≠ .done) (hq : s.pc q ≠ .done) (hne : q ≠ p) :
    (s.outstanding : ℤ) ≠ 1 := by
  have hlt : 1 < s.outstanding :=
    Finset.one_lt_card.mpr ⟨q, mem_outstanding.mpr hq, p, mem_outstanding.mpr hp, hne⟩
  omega

omit [DecidableEq P] [Fintype P] in
theorem exists_of_run [DecidableEq P] {m : FsM PUnit} {pc : PutPc} {o : Unit}
    (h : s.run m p pc = .ok (o, s')) :
    ∃ fs', m.run s.fs = .ok (⟨⟩, fs') ∧ s' = ⟨fs', update s.pc p pc⟩ := by
  unfold run at h
  cases hm : m.run s.fs with
  | error x =>
    rw [hm] at h
    cases h
  | ok r =>
    rw [hm] at h
    cases h
    exact ⟨r.2, rfl, rfl⟩

omit [Fintype P] in
theorem run_of_check {o : Unit} (h : s.step ip (.check p) = .ok (o, s')) : s.pc p = .holds ∧
    ∃ fs', (checkPart ip).run s.fs = .ok (⟨⟩, fs') ∧ s' = ⟨fs', update s.pc p .checked⟩ :=
  (Machine.ok_of_ite h).imp_right exists_of_run

omit [Fintype P] in
theorem run_of_drop {o : Unit} (h : s.step ip (.drop p) = .ok (o, s')) : s.pc p = .checked ∧
    ∃ fs', (dropPart ip).run s.fs = .ok (⟨⟩, fs') ∧ s' = ⟨fs', update s.pc p .done⟩ :=
  (Machine.ok_of_ite h).imp_right exists_of_run

omit [Fintype P] in
/-- **A call that nobody interrupts** is `iput` of `fs.c`. -/
theorem run_iput_of_exec (h : Machine.exec (step ip) s [.check p, .drop p] = .ok s') :
    (Fs.iput ip).run s.fs = .ok (⟨⟩, s'.fs) := by
  obtain ⟨_, t, hcheck, h⟩ := Machine.exec_cons_eq_ok.mp h
  obtain ⟨_, t', hdrop, h⟩ := Machine.exec_cons_eq_ok.mp h
  cases h
  obtain ⟨-, fs₁, hfs₁, rfl⟩ := run_of_check hcheck
  obtain ⟨-, fs₂, hfs₂, rfl⟩ := run_of_drop hdrop
  rw [iput_eq, StateT.run_bind, hfs₁]
  exact hfs₂

/-- **A first part that is not misled** leaves the inode to another call, or
frees it. -/
theorem Fair.check (h : Fair fs ip s) (hfs : Unlinked fs ip) (hp : s.pc p = .holds)
    (hcare : s.NotMisled (.check p)) {fs' : Fs} (hrun : (checkPart ip).run s.fs = .ok (⟨⟩, fs')) :
    Fair fs ip ⟨fs', update s.pc p .checked⟩ := by
  cases h with
  | freed hnone => exact absurd hp (hnone p)
  | waits q hq hs =>
    rw [hs] at hrun
    obtain ⟨r, hr, hholds⟩ | hothers := hcare
    · have hne := outstanding_ne_one (s := s) (p := p) (q := r) (by rw [hp]; nofun)
        (by rw [hholds]; nofun) hr
      have hsame := (hfs.wp_check_other hne (R := fun _ => True)).ok hrun
      refine .waits r ?_ ?_
      · exact (update_of_ne hr ..).trans hholds
      · rw [outstanding_check hp]
        exact hsame
    · have hone := outstanding_eq_one hp hothers
      rw [hone] at hrun
      obtain ⟨hfreed, href⟩ := (hfs.wp_check_last (R := fun _ => True)).ok hrun
      refine .freed (fun r => ?_) hfreed ?_
      · dsimp only
        grind [update_apply]
      · rw [outstanding_check hp, hone]
        exact href

/-- A second part frees nothing, and gives up nothing but a reference. -/
theorem Fair.drop (h : Fair fs ip s) (hp : s.pc p = .checked) {fs' : Fs}
    (hrun : (dropPart ip).run s.fs = .ok (⟨⟩, fs')) :
    Fair fs ip ⟨fs', update s.pc p .done⟩ := by
  cases hrun
  cases h with
  | waits q hq hs =>
    refine .waits q ?_ ?_
    · refine (update_of_ne ?_ ..).trans hq
      rintro rfl
      cases hp.symm.trans hq
    · show (s.fs.setInode ip fun i => { i with ref := i.ref - 1 }) = _
      rw [outstanding_drop hp, hs, withRef_drop]
  | freed hnone hfreed href =>
    refine .freed (fun r => ?_) hfreed ?_
    · dsimp only
      grind [update_apply]
    · show ((s.fs.setInode ip fun i => { i with ref := i.ref - 1 }).icache ip).ref = _
      rw [Fs.setInode_icache, update_self, outstanding_drop hp, ← href]

theorem Fair.step (hfs : Unlinked fs ip) {e : PutEvent P} {o : Unit} (h : Fair fs ip s)
    (hcare : s.NotMisled e) (hstep : s.step ip e = .ok (o, s')) : Fair fs ip s' := by
  cases e with
  | check p =>
    obtain ⟨hp, fs', hrun, rfl⟩ := run_of_check hstep
    exact h.check hfs hp hcare hrun
  | drop p =>
    obtain ⟨hp, fs', hrun, rfl⟩ := run_of_drop hstep
    exact h.drop hp hrun

/-! ## Every run -/

/-- **The last `iput` frees the inode**, when no first part is misled: once the
references of all the calls are given up, the dinode has no type and the
blocks that the inode had are free. -/
theorem freed_of_exec [Nonempty P] (hfs : Unlinked fs ip)
    (href : (fs.icache ip).ref = Fintype.card P) (es : List (PutEvent P)) (s : Puts P)
    (hcare : Machine.Along (step ip) NotMisled (start fs) es)
    (h : Machine.exec (step ip) (start fs) es = .ok s) (hzero : (s.fs.icache ip).ref = 0) :
    Freed fs ip s.fs := by
  have hstart : Fair fs ip (start fs : Puts P) := by
    obtain ⟨q⟩ := ‹Nonempty P›
    refine .waits q rfl ?_
    have hall : (start fs : Puts P).outstanding = Fintype.card P :=
      congrArg Finset.card (Finset.filter_true_of_mem fun _ _ => nofun)
    rw [hall, ← href, withRef_self]
    rfl
  have hfair := Machine.exec_invariant_along (I := Fair fs ip) (fun hI hC hstep => hI.step hfs hC hstep)
    hstart hcare h
  cases hfair with
  | freed hnone hfreed => exact hfreed
  | waits q hq hs =>
    have hpos : 0 < s.outstanding := Finset.card_pos.mpr ⟨q, mem_outstanding.mpr (by rw [hq]; nofun)⟩
    rw [hs, withRef_icache] at hzero
    dsimp only at hzero
    omega

/-- A file that has a block and no links, with two references. -/
def twiceOpen : List FsEvent :=
  let ip : Ip := ⟨0, NINODE_pos⟩
  [.ialloc T_FILE, .ilock ip, .writei ip [72, 105] 0, .iunlock ip, .idup ip]

theorem unlinked_twiceOpen {fs : Fs} (h : Fs.smallFs.exec twiceOpen = .ok fs) :
    Unlinked fs ⟨0, by decide⟩ ∧ (fs.icache ⟨0, by decide⟩).ref = Fintype.card Bool := by
  have hcons := Machine.exec_invariant Fs.Consistent.step Fs.smallFs_consistent h
  obtain ⟨fs', hrun, href, hvalid, hnlink, hlocked⟩ : ∃ fs, Fs.smallFs.exec twiceOpen = .ok fs ∧
      (fs.icache ⟨0, by decide⟩).ref = 2 ∧ (fs.icache ⟨0, by decide⟩).valid = true ∧
      (fs.icache ⟨0, by decide⟩).nlink = 0 ∧ (fs.icache ⟨0, by decide⟩).locked = false := by
    decide +kernel
  cases h.symm.trans hrun
  exact ⟨⟨hcons, by rw [href]; decide, hvalid, hnlink, hlocked⟩, href⟩

/-- One call after the other. -/
def oneByOne : List (PutEvent Bool) :=
  [.check true, .drop true] ++ [.check false, .drop false]

/-- Two calls of `iput` of `fs.c`, one after the other. -/
theorem freed_of_oneByOne :
    ∃ fs s, Fs.smallFs.exec twiceOpen = .ok fs ∧
      Machine.exec (step ⟨0, by decide⟩) (start fs) oneByOne = .ok s ∧
      (do Fs.iput ⟨0, by decide⟩; Fs.iput ⟨0, by decide⟩ : FsM PUnit).run fs = .ok (⟨⟩, s.fs) ∧
      Freed fs ⟨0, by decide⟩ s.fs := by
  obtain ⟨fs, hfs, s, hs, hzero, hcare⟩ : ∃ fs, Fs.smallFs.exec twiceOpen = .ok fs ∧
      ∃ s, Machine.exec (step ⟨0, by decide⟩) (start fs) oneByOne = .ok s ∧
        (s.fs.icache ⟨0, by decide⟩).ref = 0 ∧
        Machine.Along (step ⟨0, by decide⟩) NotMisled (start fs) oneByOne := by decide +kernel
  obtain ⟨hopen, href⟩ := unlinked_twiceOpen hfs
  obtain ⟨t, hfirst, hsecond⟩ := Machine.exec_append_eq_ok.mp hs
  refine ⟨fs, s, hfs, hs, ?_, freed_of_exec hopen href oneByOne s hcare hs hzero⟩
  have hiput : (Fs.iput ⟨0, by decide⟩).run fs = .ok (⟨⟩, t.fs) := run_iput_of_exec hfirst
  rw [StateT.run_bind, hiput]
  exact run_iput_of_exec hsecond

/-- Both calls make their first part before either gives its reference up. -/
def together : List (PutEvent Bool) := [.check true, .check false, .drop true, .drop false]

/-- **Nobody frees the inode**: each call takes the other's reference for one that is still to be
put, and then all references are gone. -/
theorem not_freed_of_together :
    ∃ fs s, Unlinked fs ⟨0, by decide⟩ ∧ (fs.icache ⟨0, by decide⟩).ref = Fintype.card Bool ∧
      Machine.exec (step ⟨0, by decide⟩) (start fs) together = .ok s ∧
      (s.fs.icache ⟨0, by decide⟩).ref = 0 ∧ ¬Freed fs ⟨0, by decide⟩ s.fs := by
  obtain ⟨fs, hfs, s, hs, hzero, htype⟩ : ∃ fs, Fs.smallFs.exec twiceOpen = .ok fs ∧
      ∃ s, Machine.exec (step ⟨0, by decide⟩) (start fs) together = .ok s ∧
        (s.fs.icache ⟨0, by decide⟩).ref = 0 ∧
        (s.fs.sb.dinode s.fs.disk (fs.icache ⟨0, by decide⟩).inum).type ≠ 0 := by decide +kernel
  obtain ⟨hopen, href⟩ := unlinked_twiceOpen hfs
  exact ⟨fs, s, hopen, href, hs, hzero, fun hfreed => htype hfreed.1⟩

end Puts

end Xv6
