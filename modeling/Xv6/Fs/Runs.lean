import Xv6.Fs.Lookup
import Xv6.Fs.Trunc

/-!
# Runs of the file system

Every operation keeps the file system consistent, and none of them frees a
block that is free. With the rules for runs that gives what holds after any
sequence of operations: a block has one owner, the free map says what is in
use, files have no holes, and the inode cache agrees with the disk.
-/

namespace Xv6

open Wp

namespace Fs

/-! ## Steps and runs -/

variable {s : Fs} {e : FsEvent}

/-- **Every call keeps the file system consistent**, and frees no free block. -/
theorem wp_call (h : s.Consistent) (he : s.Allowed e) :
    wp (call e) (fun _ s' => s'.Consistent) (· ≠ .freeingFreeBlock) s := by
  cases e with
  | iget inum =>
    exact wp_map.mpr ((wp_iget h inum).mono (fun _ _ hs => hs.1) (fun _ hx => by rw [hx]; exact nofun))
  | idup ip =>
    unfold call
    rw [wp_bind]
    exact wp_idup h he
  | ialloc type =>
    refine wp_map.mpr ((wp_ialloc h type).mono (fun _ _ hs => hs.1) (fun _ hx => ?_))
    rcases hx with rfl | rfl <;> exact nofun
  | ilock ip =>
    unfold call
    rw [wp_bind]
    refine (wp_ilock h he).mono (fun _ _ hs => hs.1) (fun _ hx => ?_)
    rcases hx with rfl | rfl | rfl <;> exact nofun
  | iunlock ip =>
    unfold call
    rw [wp_bind]
    exact (wp_iunlock h ip).mono (fun _ _ hs => hs.1) (fun _ hx => by rw [hx.1]; exact nofun)
  | iput ip =>
    unfold call
    rw [wp_bind]
    exact (wp_iput h he).mono (fun _ _ hs => hs) (fun _ hx => by rw [hx]; exact nofun)
  | iupdate ip major minor nlink =>
    obtain ⟨href, hip⟩ := h.of_locked he
    have hfields := wp_iupdate_fields h href hip major minor nlink (R := (· ≠ .freeingFreeBlock))
    unfold call
    rw [wp_bind] at hfields ⊢
    refine hfields.imp (fun _ s' hs' => ?_)
    rw [wp_bind]
    exact hs'
  | readi ip off n =>
    obtain ⟨hl, hoff, hn⟩ := he
    unfold call
    refine (wp_readi hoff hn (h.covers (h.of_locked hl).2)).bind (fun _ s' hs' => ?_)
    obtain ⟨rfl, -⟩ := hs'
    exact h
  | writei ip src off =>
    obtain ⟨hl, hoff, hn⟩ := he
    obtain ⟨href, hip⟩ := h.of_locked hl
    exact wp_map.mpr ((wp_writei h href hip hoff hn).mono (fun _ _ hs => hs.1)
      (fun _ hx => by rw [hx]; exact nofun))
  | dirlookup dp name =>
    refine wp_map.mpr (wp_dirlookup h he (fun _ _ => h) (fun _ j _ => ?_) (fun e he _ => ?_))
    · exact (wp_iget h _).mono (fun _ _ hs => hs.1) (fun _ hx => by rw [hx]; exact nofun)
    · rcases he with rfl | rfl <;> exact nofun
  | dirlink dp name inum =>
    obtain ⟨href, hdp⟩ := h.of_locked he
    have hmax : MAXFILE * BSIZE + DIRENT < 2 ^ 32 := by decide
    have hsize := h.size_le hdp
    refine wp_map.mpr (wp_dirlink h he (fun _ j _ => ?_) (fun _ _ j hj _ => ?_) (fun e he _ => ?_))
    · refine (wp_iget h _).mono (fun ip s₁ h₁ => ?_) (fun _ hx => by rw [hx]; exact nofun)
      exact (wp_iput h₁.1 h₁.2).mono (fun _ _ hs => hs) (fun _ hx => by rw [hx]; exact nofun)
    · have hle := hj.le
      rw [length_fileBytes h he] at hle
      refine (wp_writei h href hdp (by omega) (by rw [length_direntBytes]; decide)).mono
        (fun n s' hs' => ?_) (fun _ hx => by rw [hx]; exact nofun)
      split
      · exact nofun
      · exact hs'.1
    · rcases he with rfl | rfl | rfl <;> exact nofun

/-- **The step lemma.** -/
theorem Consistent.step {s' : Fs} {r : FsRet} (h : s.Consistent) (hstep : s.step e = .ok (r, s')) :
    s'.Consistent := by
  unfold Fs.step at hstep
  split at hstep
  · next he => exact (wp_call h he).ok hstep
  · cases hstep

theorem Consistent.step_ne_freeing (h : s.Consistent) :
    s.step e ≠ .error .freeingFreeBlock := by
  unfold Fs.step
  split
  · next he => exact fun hx => (wp_call h he).error hx rfl
  · exact nofun

/-- **What a consistent file system is for**: blocks have one owner, the free
map says which are in use, files have no holes and the inode cache agrees with
the disk. -/
structure BlocksOwned (s : Fs) : Prop where
  one_owner : ∀ p q b, owner s.sb s.disk (s.sb.dinode s.disk) p = some b →
    owner s.sb s.disk (s.sb.dinode s.disk) q = some b → p = q
  in_use : ∀ b < s.sb.size, s.sb.inUse s.disk b = true ↔
    b < s.sb.nmeta ∨ ∃ p, owner s.sb s.disk (s.sb.dinode s.disk) p = some b
  no_hole : ∀ k, Allocated s.sb (s.sb.dinode s.disk) k →
    ∀ bn, bn * BSIZE < (s.sb.dinode s.disk k).size → ∃ pl, Place.ofBlock bn = some pl
      ∧ owner s.sb s.disk (s.sb.dinode s.disk) (k, pl) ≠ none
  copy : ∀ ip, 0 < (s.icache ip).ref → (s.icache ip).valid = true →
    (s.icache ip).toDinode = s.sb.dinode s.disk (s.icache ip).inum

theorem Consistent.blocksOwned (h : s.Consistent) : s.BlocksOwned where
  one_owner := fun _ _ _ hp hq => h.sound.ledger.unique hp hq
  in_use := fun b hb => by
    have hused := h.sound.ledger.mem_used b
    constructor
    · intro huse
      by_cases hmeta : b < s.sb.nmeta
      · exact .inl hmeta
      · exact .inr ((hused.mp ⟨Nat.le_of_not_lt hmeta, hb, huse⟩).resolve_left (Set.notMem_empty b))
    · rintro (hmeta | ⟨p, hp⟩)
      · exact h.sound.metas b hmeta
      · exact (h.sound.used_of_owner hp).2.2
  no_hole := h.sound.full
  copy := fun _ href hvalid => (h.agrees href hvalid).copy

/-- A file system without bytes in its inodes, and with an unused inode cache, is
consistent if its free map is. -/
theorem consistent_of_empty (hwf : s.sb.Wf) (hsuper : (s.disk 1).superblock = s.sb)
    (hmap : ∀ b < s.sb.size, s.sb.inUse s.disk b = decide (b < s.sb.nmeta))
    (hinodes : ∀ k < s.sb.ninodes, (s.sb.dinode s.disk k).type = 0 ∨
      (s.sb.dinode s.disk k).size = 0 ∧ ∀ i, (s.sb.dinode s.disk k).addrs i = 0)
    (hcache : ∀ ip, (s.icache ip).ref = 0 ∧ (s.icache ip).locked = false) : s.Consistent := by
  have hnone : ∀ p, owner s.sb s.disk (s.sb.dinode s.disk) p = none := by
    intro p
    unfold owner
    split
    · next hp =>
      have haddrs := ((hinodes p.1 hp.1).resolve_left hp.2).2
      rw [blockOf_eq_none]
      cases p.2 with
      | direct i => exact haddrs _
      | indirect => exact haddrs _
      | entry j => exact if_pos (haddrs _)
    · rfl
  refine ⟨⟨hwf, hsuper, fun b hb => ?_, ⟨fun hp => ?_, fun hp => ?_, fun b => ?_⟩, fun k hk => ?_⟩,
    ⟨fun hr => ?_, fun _ hr => ?_, fun hl => ?_⟩⟩
  · rw [hmap b (hb.trans_le hwf.fits)]
    exact decide_eq_true hb
  · rw [hnone] at hp
    cases hp
  · rw [hnone] at hp
    cases hp
  · constructor
    · rintro ⟨hdata, hsize, huse⟩
      rw [hmap b hsize] at huse
      exact absurd (of_decide_eq_true huse) (Nat.not_lt_of_le hdata)
    · rintro (hb | ⟨p, hp⟩)
      · exact absurd hb (Set.notMem_empty b)
      · rw [hnone] at hp
        cases hp
  · rw [((hinodes k hk.1).resolve_left hk.2).1]
    exact fun bn hbn => absurd hbn (Nat.not_lt_zero _)
  · rw [(hcache _).1] at hr
    exact absurd hr (Int.lt_irrefl 0)
  · rw [(hcache _).1] at hr
    exact absurd hr (Int.lt_irrefl 0)
  · rw [(hcache _).2] at hl
    cases hl

/-- **Blocks stay owned**: after any sequence of operations on a consistent
file system, and no operation panics with "freeing free block". -/
theorem blocksOwned_of_exec {s : Fs} (h : s.Consistent) (es : List FsEvent) :
    s.exec es ≠ .error .freeingFreeBlock ∧ ∀ s', s.exec es = .ok s' → s'.BlocksOwned := by
  refine ⟨?_, fun s' hexec => ?_⟩
  · refine (Machine.exec_ne_error_iff_along (C := fun _ _ => True) Consistent.step
      (fun h => iff_of_true h.step_ne_freeing trivial) h).mpr ?_
    exact Machine.along_of_forall (C := fun _ => True) (fun _ _ => trivial) s
  · exact (Machine.exec_invariant Consistent.step h hexec).blocksOwned

/-- The state that a run ends in, or the one it starts from. -/
def after (s : Fs) (es : List FsEvent) : Fs :=
  match s.exec es with
  | .ok s' => s'
  | .error _ => s

theorem Consistent.after (h : s.Consistent) (es : List FsEvent) : (s.after es).Consistent := by
  unfold Fs.after
  split
  · next s' hexec => exact Machine.exec_invariant Consistent.step h hexec
  · exact h

/-- A small disk: one block for the superblock, two for eight inodes, one for
the free map, and 95 data blocks. -/
def smallSb : Superblock := ⟨100, 95, 8, 0, 2, 2, 4⟩

/-- The file system on it, without inodes. -/
def smallFs : Fs where
  disk := Function.update (Function.update (fun _ => Block.zero) 1
      (Block.zero.setWords 0 (fun i => [100, 95, 8, 0, 2, 2, 4].getD i 0) 7))
    4 (Block.zero.setWord 0 0x1f)
  sb := smallSb
  icache := fun _ => ⟨.fresh 0, 0, 0, false, false⟩
  devsw := fun _ => ⟨none, none⟩
  logged := []

theorem smallFs_consistent : smallFs.Consistent :=
  consistent_of_empty ⟨by decide, by decide, by decide, by decide⟩ (by decide +kernel)
    (by decide +kernel) (by decide +kernel) (fun _ => ⟨rfl, rfl⟩)

/-- A file is made, written and freed. -/
def smallRun : List FsEvent :=
  let ip : Ip := ⟨0, NINODE_pos⟩
  [.ialloc T_FILE, .ilock ip, .writei ip [72, 105] 0, .iunlock ip, .iput ip]

theorem blocksOwned_of_exec_small :
    smallFs.Consistent ∧ smallFs.exec smallRun ≠ .error .freeingFreeBlock
      ∧ ∃ s', smallFs.exec smallRun = .ok s' ∧ s'.BlocksOwned := by
  obtain ⟨hne, hok⟩ := blocksOwned_of_exec smallFs_consistent smallRun
  obtain ⟨s', hexec, -⟩ : ∃ s', smallFs.exec smallRun = .ok s' ∧ True := by decide +kernel
  exact ⟨smallFs_consistent, hne, s', hexec, hok s' hexec⟩

end Fs

end Xv6
