import Xv6.Fs.Contents

/-!
# The inode cache

The functions that find, reference, lock and allocate inodes keep the file
system consistent: an inode never gets a second entry, a recycled entry is not
valid until `ilock` has read the dinode, and the dinode that `ialloc` takes has
no valid entry, because those have a type.
-/

namespace Xv6

open Function

open Wp

namespace Fs

namespace Consistent

variable {s s' : Fs} {ip : Ip}

variable (h : s.Consistent)

include h

/-- An entry of the inode cache changes. -/
theorem change_entry {i : Inode} (hsb : s'.sb = s.sb) (hdisk : s'.disk = s.disk)
    (hicache : s'.icache = update s.icache ip i)
    (hunique : 0 < i.ref → ∀ jp ≠ ip, 0 < (s.icache jp).ref → (s.icache jp).inum ≠ i.inum)
    (hagrees : 0 < i.ref → i.valid = true → Agrees s.sb s.disk i)
    (hlocked : i.locked = true → 0 < i.ref ∧ i.valid = true) : s'.Consistent :=
  ⟨by rw [hsb, hdisk]; exact h.sound,
    h.cached.change_entry hsb hdisk hicache (fun _ _ => id) hunique (fun _ => hagrees) hlocked⟩

/-- An entry in use keeps its inode. -/
theorem change_used (href : 0 < (s.icache ip).ref) {i : Inode} (hsb : s'.sb = s.sb)
    (hdisk : s'.disk = s.disk) (hicache : s'.icache = update s.icache ip i)
    (hinum : i.inum = (s.icache ip).inum)
    (hagrees : 0 < i.ref → i.valid = true → Agrees s.sb s.disk i)
    (hlocked : i.locked = true → 0 < i.ref ∧ i.valid = true) : s'.Consistent := by
  refine h.change_entry hsb hdisk hicache (fun _ jp hjp hj he => ?_) hagrees hlocked
  exact hjp (h.cached.unique hj href (he.trans hinum))

theorem agrees (href : 0 < (s.icache ip).ref) (hvalid : (s.icache ip).valid = true) :
    Agrees s.sb s.disk (s.icache ip) :=
  h.cached.agrees trivial href hvalid

/-- A locked inode is as on the disk. -/
theorem of_locked (hl : (s.icache ip).locked = true) :
    0 < (s.icache ip).ref ∧ Agrees s.sb s.disk (s.icache ip) := by
  obtain ⟨href, hvalid⟩ := h.cached.locked hl
  exact ⟨href, h.agrees href hvalid⟩

/-- An inode with a valid copy is locked. -/
theorem lock (href : 0 < (s.icache ip).ref) (hvalid : (s.icache ip).valid = true) :
    (s.setInode ip (fun i => { i with locked := true })).Consistent ∧
      Agrees s.sb s.disk ((s.setInode ip (fun i => { i with locked := true })).icache ip) := by
  obtain ⟨hinum, hcopy, htype⟩ := h.agrees href hvalid
  refine ⟨h.change_used href rfl rfl rfl rfl (fun _ _ => ⟨hinum, hcopy, htype⟩)
    (fun _ => ⟨href, hvalid⟩), ?_⟩
  rw [setInode_icache, update_self]
  exact ⟨hinum, hcopy, htype⟩

/-- One more reference. -/
theorem addRef (href : 0 < (s.icache ip).ref) :
    (s.setInode ip (fun i => { i with ref := i.ref + 1 })).Consistent := by
  refine h.change_used href rfl rfl rfl rfl (fun _ hvalid => ?_) (fun hl => ?_)
  · obtain ⟨hinum, hcopy, htype⟩ := h.agrees href hvalid
    exact ⟨hinum, hcopy, htype⟩
  · obtain ⟨href, hvalid⟩ := h.cached.locked hl
    exact ⟨by show 0 < _ + 1; omega, hvalid⟩

end Consistent

variable {s : Fs} {ip : Ip} {R : FsHalt → Prop}

/-- The fields that system calls set change, and `iupdate` follows. -/
theorem wp_iupdate_fields (h : s.Consistent) (href : 0 < (s.icache ip).ref)
    (hip : Agrees s.sb s.disk (s.icache ip)) (major minor nlink : Int16) :
    wp (do
      modify (setInode ip (fun i => { i with major := major, minor := minor, nlink := nlink }))
      iupdate ip) (fun _ s' => s'.Consistent) R s := by
  have hself : (s.setInode ip (fun i =>
      { i with major := major, minor := minor, nlink := nlink })).icache ip
      = { s.icache ip with major := major, minor := minor, nlink := nlink } :=
    update_self _ _ _
  have hwork : (s.setInode ip (fun i =>
      { i with major := major, minor := minor, nlink := nlink })).Working ip
      (update (s.sb.dinode s.disk) (s.icache ip).inum
        { (s.icache ip).toDinode with major := major, minor := minor, nlink := nlink }) ∅ := by
    refine (h.working href hip.inum).change_inode rfl rfl rfl ?_
      (fun _ _ hne => update_of_ne hne _ _)
    refine h.sound.change_fields (by rw [hip.copy]) (by rw [hip.copy]) (fun hk bn hbn => ?_)
    rw [hip.copy] at hbn
    exact h.sound.full _ hk bn hbn
  rw [wp_bind, wp_modify, wp_iupdate]
  refine hwork.consistent_iupdate ?_ ?_
  · rw [hself, update_self]
  · rw [hself]
    exact hip.type

/-! ## References -/

theorem wp_idup (h : s.Consistent) (href : 0 < (s.icache ip).ref) :
    wp (idup ip) (fun _ s' => s'.Consistent) R s := by
  unfold idup
  rw [wp_modify]
  exact h.addRef href

/-- **What `iget` does**: the entry of the inode gets one more reference, or an entry that is
not in use becomes one of the inode. -/
theorem wp_iget_entry (s : Fs) (inum : ℕ) :
    wp (iget inum) (fun ip s' =>
      (0 < (s.icache ip).ref ∧ (s.icache ip).inum = inum ∧
        s' = s.setInode ip (fun i => { i with ref := i.ref + 1 })) ∨
      ((s.icache ip).ref = 0 ∧ (∀ jp, 0 < (s.icache jp).ref → (s.icache jp).inum ≠ inum) ∧
        s' = s.setInode ip (fun i => { i with inum := inum, ref := 1, valid := false })))
      (fun e => e = .noInodes ∧ ∀ jp, (s.icache jp).ref ≠ 0) s := by
  unfold iget
  rw [wp_bind, wp_get]
  split
  · next ip hip =>
    have hfound := List.find?_some hip
    obtain ⟨href, hinum⟩ := of_decide_eq_true hfound
    exact .inl ⟨href, hinum, rfl⟩
  · next hnone =>
    split
    · next hfull =>
      refine ⟨rfl, fun jp hjp => ?_⟩
      exact List.find?_eq_none.mp hfull jp (List.mem_finRange jp) (decide_eq_true hjp)
    · next ip hip =>
      have hfound := List.find?_some hip
      refine .inr ⟨of_decide_eq_true hfound, fun jp hj he => ?_, rfl⟩
      exact List.find?_eq_none.mp hnone jp (List.mem_finRange jp) (decide_eq_true ⟨hj, he⟩)

/-- **`iget` keeps the file system consistent** and returns an entry in use. -/
theorem wp_iget (h : s.Consistent) (inum : ℕ) :
    wp (iget inum) (fun ip s' => s'.Consistent ∧ 0 < (s'.icache ip).ref) (· = .noInodes) s := by
  refine (wp_iget_entry s inum).mono (fun ip s' hs' => ?_) (fun _ => And.left)
  rcases hs' with ⟨href, -, rfl⟩ | ⟨href, hnone, rfl⟩
  · rw [setInode_icache, update_self]
    exact ⟨h.addRef href, by show 0 < _ + 1; omega⟩
  · rw [setInode_icache, update_self]
    refine ⟨h.change_entry rfl rfl rfl (fun _ jp _ => hnone jp) (fun _ hv => nomatch hv) (fun hl => ?_),
      Int.one_pos⟩
    -- an entry that is not in use is not locked
    have := (h.cached.locked hl).1
    omega

/-! ## Allocation -/

/-- A dinode without a type becomes a fresh one. -/
theorem Consistent.alloc (h : s.Consistent) {k : ℕ} (hk : k < s.sb.ninodes)
    (hfree : (s.sb.dinode s.disk k).type = 0) (type : Int16) :
    (s.writeBlock (s.sb.iblock k) (Block.setDinode (k % IPB) (.fresh type))).Consistent := by
  have hfits : (Dinode.fresh type).Fits := ⟨Nat.two_pow_pos 32, fun _ => Nat.two_pow_pos 32⟩
  have hdinode : ∀ j, s.sb.dinode (update s.disk (s.sb.iblock k)
      ((s.disk (s.sb.iblock k)).setDinode (k % IPB) (.fresh type))) j
      = if j = k then .fresh type else s.sb.dinode s.disk j :=
    fun j => Superblock.dinode_setDinode s.disk hfits j
  have hnone : ∀ pl, owner s.sb s.disk (s.sb.dinode s.disk) (k, pl) = none :=
    fun pl => if_neg (fun hk => hk.2 hfree)
  have hsound := (h.sound.vacant (x := .fresh type) hnone (fun _ => rfl) rfl).write_iblock hk
    ((s.disk (s.sb.iblock k)).setDinode (k % IPB) (.fresh type))
  refine ⟨hsound.congr_lt (fun j _ => ?_), h.cached.change_disk rfl (fun hP href hvalid => ?_)⟩
  · rw [writeBlock_disk, writeBlock_sb, hdinode, update_apply]
  · obtain ⟨hinum, hcopy, htype⟩ := h.cached.agrees hP href hvalid
    refine ⟨hinum, ?_, htype⟩
    rw [writeBlock_disk, writeBlock_sb, hdinode, if_neg]
    · exact hcopy
    · rintro rfl
      rw [← hcopy] at hfree
      exact htype hfree

/-- `ialloc` takes a free dinode, if there is one. -/
theorem wp_ialloc_free {type : Int16} {Q : Ip → Fs → Prop} (hnone : R .noDinodes)
    (hfound : ∀ k, 0 < k → k < s.sb.ninodes →
      (s.sb.dinode s.disk k).type = 0 → wp (iget k) Q R
        (s.writeBlock (s.sb.iblock k) (Block.setDinode (k % IPB) (.fresh type)))) :
    wp (ialloc type) Q R s := by
  unfold ialloc
  rw [wp_bind, wp_get]
  split
  · exact hnone
  · next k hk =>
    have hfree := List.find?_some hk
    have hmem := List.mem_range'_1.mp (List.mem_of_find?_eq_some hk)
    rw [wp_bind, wp_modify]
    exact hfound k (by omega) (by omega) (of_decide_eq_true hfree)

/-- **`ialloc` keeps the file system consistent.** -/
theorem wp_ialloc (h : s.Consistent) (type : Int16) :
    wp (ialloc type) (fun ip s' => s'.Consistent ∧ 0 < (s'.icache ip).ref)
      (fun e => e = .noDinodes ∨ e = .noInodes) s :=
  wp_ialloc_free (.inl rfl) (fun k _ hlt hfree =>
    (wp_iget (h.alloc hlt hfree type) k).mono (fun _ _ => id) (fun _ => .inr))

/-! ## Locks -/

theorem setInode_setInode (s : Fs) (ip : Ip) (f g : Inode → Inode) :
    (s.setInode ip f).setInode ip g = s.setInode ip (fun i => g (f i)) := by
  unfold setInode
  dsimp only
  rw [update_self, update_idem]

/-- **What `ilock` does**: the entry was not locked; now it is, and it is valid. -/
theorem wp_ilock_entry (s : Fs) (ip : Ip) :
    wp (ilock ip) (fun _ s' => 0 < (s.icache ip).ref ∧ (s.icache ip).locked = false ∧
      ∃ d : Dinode, s' = s.setInode ip (fun i =>
          { i with toDinode := d, valid := true, locked := true }) ∧
        ((s.icache ip).valid = true ∧ d = (s.icache ip).toDinode ∨
          d = s.sb.dinode s.disk (s.icache ip).inum ∧ d.type ≠ 0))
      (fun e => e = .ilock ∧ (s.icache ip).ref < 1 ∨ e = .waiting ∧ (s.icache ip).locked = true ∨
        e = .noType ∧ (s.sb.dinode s.disk (s.icache ip).inum).type = 0) s := by
  unfold ilock acquiresleep
  rw [wp_bind, wp_get]
  split
  · next href => exact .inl ⟨rfl, href⟩
  · next href =>
    rw [wp_bind, wp_bind, wp_get]
    split
    · next hlocked => exact .inr (.inl ⟨rfl, hlocked⟩)
    · next hfree =>
      have hfree := Bool.eq_false_of_not_eq_true hfree
      rw [wp_modify, wp_bind, wp_get, setInode_icache, update_self]
      split
      · next hvalid =>
        refine ⟨by omega, hfree, (s.icache ip).toDinode, ?_, .inl ⟨hvalid, rfl⟩⟩
        unfold setInode
        dsimp only at hvalid ⊢
        rw [← hvalid]
      · dsimp only
        split
        · next htype => exact .inr (.inr ⟨rfl, htype⟩)
        · next htype =>
          rw [wp_modify]
          exact ⟨by omega, hfree, _, setInode_setInode .., .inr ⟨rfl, htype⟩⟩

/-- **`ilock` keeps the file system consistent**: the entry is valid from now
on. -/
theorem wp_ilock (h : s.Consistent) (hinum : (s.icache ip).inum < s.sb.ninodes) :
    wp (ilock ip) (fun _ s' => s'.Consistent ∧ (s'.icache ip).locked = true)
      (fun e => e = .ilock ∨ e = .waiting ∨ e = .noType) s := by
  refine (wp_ilock_entry s ip).mono (fun _ s' hs' => ?_)
    (fun e he => he.imp And.left (Or.imp And.left And.left))
  obtain ⟨href, -, d, rfl, hd⟩ := hs'
  refine ⟨h.change_used href rfl rfl rfl rfl (fun _ _ => ?_) (fun _ => ⟨href, rfl⟩), ?_⟩
  · rcases hd with ⟨hvalid, rfl⟩ | ⟨rfl, htype⟩
    · obtain ⟨hinum, hcopy, htype⟩ := h.agrees href hvalid
      exact ⟨hinum, hcopy, htype⟩
    · exact ⟨hinum, rfl, htype⟩
  · rw [setInode_icache, update_self]

/-- **`iunlock`** opens an entry that is locked, and keeps the file system consistent. -/
theorem wp_iunlock (h : s.Consistent) (ip : Ip) :
    wp (iunlock ip) (fun _ s' => s'.Consistent ∧ (s.icache ip).locked = true ∧
      s' = s.setInode ip (fun i => { i with locked := false }))
      (fun e => e = .iunlock ∧ (s.icache ip).locked = false) s := by
  unfold iunlock releasesleep
  rw [wp_bind, wp_get]
  by_cases hl : (s.icache ip).locked = true
  · obtain ⟨href, hip⟩ := h.of_locked hl
    have hheld : ¬ ((s.icache ip).locked = false ∨ (s.icache ip).ref < 1) := by
      rintro (hno | hlt)
      · rw [hl] at hno
        cases hno
      · omega
    rw [if_neg hheld, wp_modify]
    refine ⟨h.change_used href rfl rfl rfl rfl (fun _ _ => ?_) (fun hl => nomatch hl), hl, rfl⟩
    exact ⟨hip.inum, hip.copy, hip.type⟩
  · rw [if_pos (.inl (Bool.eq_false_of_not_eq_true hl))]
    exact ⟨rfl, Bool.eq_false_of_not_eq_true hl⟩

end Fs

end Xv6
