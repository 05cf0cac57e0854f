import Xv6.Lib.Wp
import Xv6.Fs.Inode
import Xv6.Fs.Owner

/-!
# Allocation

What `balloc`, `bfree` and `bmap` do, and what they do to the ledger of
blocks. `bmap` has four ways to return: the block is there, or it takes a
block for a direct address, for an entry of the indirect block, or for the
indirect block and then for an entry.
-/

namespace Xv6

open Function

open Wp

namespace Fs

section fields

variable (s : Fs) (b : ℕ) (f : Block → Block) (ip : Ip) (g : Inode → Inode)

@[simp] theorem writeBlock_sb : (s.writeBlock b f).sb = s.sb := rfl
@[simp] theorem writeBlock_icache : (s.writeBlock b f).icache = s.icache := rfl
@[simp] theorem writeBlock_disk :
    (s.writeBlock b f).disk = update s.disk b (f (s.disk b)) := rfl
@[simp] theorem setInode_sb : (s.setInode ip g).sb = s.sb := rfl
@[simp] theorem setInode_disk : (s.setInode ip g).disk = s.disk := rfl
@[simp] theorem setInode_icache :
    (s.setInode ip g).icache = update s.icache ip (g (s.icache ip)) := rfl

end fields

/-! ## What the functions do -/

/-- A block that `balloc` may return. -/
def Free (s : Fs) (b : ℕ) : Prop := b < s.sb.size ∧ s.sb.inUse s.disk b = false

/-- The state after `balloc` has returned `b`. -/
def take (b : ℕ) (s : Fs) : Fs :=
  (s.writeBlock (s.sb.bblock b) (Block.setBit (b % BPB))).writeBlock b (fun _ => Block.zero)

@[simp] theorem take_sb (s : Fs) (b : ℕ) : (s.take b).sb = s.sb := rfl
@[simp] theorem take_icache (s : Fs) (b : ℕ) : (s.take b).icache = s.icache := rfl

theorem take_disk_self (s : Fs) (b : ℕ) : (s.take b).disk b = Block.zero :=
  update_self _ _ _

@[simp] theorem setAddr_sb (s : Fs) (ip : Ip) (i : Fin (NDIRECT + 1)) (addr : ℕ) :
    (s.setAddr ip i addr).sb = s.sb := rfl
@[simp] theorem setAddr_disk (s : Fs) (ip : Ip) (i : Fin (NDIRECT + 1)) (addr : ℕ) :
    (s.setAddr ip i addr).disk = s.disk := rfl
@[simp] theorem setAddr_icache (s : Fs) (ip : Ip) (i : Fin (NDIRECT + 1)) (addr : ℕ) :
    (s.setAddr ip i addr).icache = update s.icache ip
      { s.icache ip with toDinode := (s.icache ip).toDinode.setAddr i addr } := rfl

theorem setAddr_inum (s : Fs) (ip : Ip) (i : Fin (NDIRECT + 1)) (addr : ℕ) :
    ((s.setAddr ip i addr).icache ip).inum = (s.icache ip).inum := by
  rw [setAddr_icache, update_self]

theorem setAddr_toDinode (s : Fs) (ip : Ip) (i : Fin (NDIRECT + 1)) (addr : ℕ) :
    ((s.setAddr ip i addr).icache ip).toDinode = (s.icache ip).toDinode.setAddr i addr := by
  rw [setAddr_icache, update_self]

theorem wp_balloc (s : Fs) :
    wp balloc (fun b s' => s.Free b ∧ s' = s.take b)
      (fun e => e = .outOfBlocks ∧ ∀ b, ¬ s.Free b) s := by
  unfold balloc
  rw [wp_bind, wp_get]
  split
  · next hnone =>
    refine ⟨rfl, fun b hb => ?_⟩
    exact List.find?_eq_none.mp hnone b (List.mem_range.mpr hb.1) (by simpa using hb.2)
  · next b hb =>
    have hmem := List.mem_of_find?_eq_some hb
    have hfree := List.find?_some hb
    rw [wp_bind, wp_modify, wp_bind]
    unfold bzero
    rw [wp_modify, wp_pure]
    exact ⟨⟨List.mem_range.mp hmem, by simpa using hfree⟩, rfl⟩

/-- `bfree` of a block in use, when the superblock in memory is the one on
the disk. -/
theorem wp_bfree {s : Fs} {b : ℕ} (hsb : (s.disk 1).superblock = s.sb)
    (hb : s.sb.inUse s.disk b = true) {R : FsHalt → Prop} :
    wp (bfree b) (fun _ s' => s' = s.writeBlock (s.sb.bblock b) (Block.clearBit (b % BPB))) R s := by
  have hread : s.readsb = s := by
    unfold readsb
    rw [hsb]
  unfold bfree
  rw [wp_bind, wp_modify, hread, wp_bind, wp_get, if_pos hb, wp_modify]

theorem wp_getAddr (s : Fs) (ip : Ip) (i : Fin (NDIRECT + 1)) :
    wp (getAddr ip i) (fun b s' =>
      ((s.icache ip).addrs i = b ∧ b ≠ 0 ∧ s' = s)
      ∨ (s.icache ip).addrs i = 0 ∧ s.Free b ∧ s' = (s.take b).setAddr ip i b)
      (fun e => e = .outOfBlocks ∧ (s.icache ip).addrs i = 0 ∧ ∀ b, ¬ s.Free b) s := by
  unfold getAddr
  rw [wp_bind, wp_get]
  split
  · next hzero =>
    rw [wp_bind]
    refine (wp_balloc s).mono (fun b s' h => ?_) (fun e he => ⟨he.1, hzero, he.2⟩)
    obtain ⟨hfree, rfl⟩ := h
    rw [wp_bind, wp_modify, wp_pure]
    exact .inr ⟨hzero, hfree, rfl⟩
  · next hne =>
    rw [wp_pure]
    exact .inl ⟨rfl, hne, rfl⟩

/-- **The ways `bmap` returns** the block for a place. -/
inductive Bmapped (s : Fs) (ip : Ip) : Place → ℕ → Fs → Prop
  | found {pl : Place} {b : ℕ} (hb : pl.addr s.disk (s.icache ip).toDinode = b) (hne : b ≠ 0) :
    Bmapped s ip pl b s
  | direct {i : Fin NDIRECT} {b : ℕ} (hzero : (s.icache ip).addrs i.castSucc = 0) (hb : s.Free b) :
    Bmapped s ip (.direct i) b ((s.take b).setAddr ip i.castSucc b)
  | entry {j : Fin NINDIRECT} {b ind : ℕ} (hind : (s.icache ip).addrs (Fin.last NDIRECT) = ind)
      (hne : ind ≠ 0) (hzero : (s.disk ind).word j = 0) (hb : s.Free b) :
    Bmapped s ip (.entry j) b ((s.take b).writeBlock ind (fun a => a.setWord j b))
  | both {j : Fin NINDIRECT} {b ind : ℕ} (hzero : (s.icache ip).addrs (Fin.last NDIRECT) = 0)
      (hind : s.Free ind) (hb : ((s.take ind).setAddr ip (Fin.last NDIRECT) ind).Free b) :
    Bmapped s ip (.entry j) b ((((s.take ind).setAddr ip (Fin.last NDIRECT) ind).take b).writeBlock
      ind (fun a => a.setWord j b))

/-- **The disk is full for a file that grows**: no block is free, or none is after one has been
taken for the indirect block. -/
def Starved (s : Fs) : Prop :=
  (∀ b, ¬ s.Free b) ∨ ∃ ind, s.Free ind ∧ ∀ b, ¬ (s.take ind).Free b

theorem wp_bmap (s : Fs) (ip : Ip) {bn : ℕ} {pl : Place} (hbn : Place.ofBlock bn = some pl) :
    wp (bmap ip bn) (Bmapped s ip pl) (fun e => e = .outOfBlocks ∧
      pl.addr s.disk (s.icache ip).toDinode = 0 ∧ s.Starved) s := by
  unfold Place.ofBlock at hbn
  unfold bmap
  split at hbn
  · next hdirect =>
    cases hbn
    rw [dif_pos hdirect]
    refine (wp_getAddr s ip _).mono (fun b s' h => ?_) (fun e he => ⟨he.1, he.2.1, .inl he.2.2⟩)
    rcases h with ⟨hb, hne, rfl⟩ | ⟨hzero, hfree, rfl⟩
    · exact .found hb hne
    · exact .direct hzero hfree
  · next hdirect =>
    rw [dif_neg hdirect]
    split at hbn
    · next hj =>
      cases hbn
      rw [if_pos hj, wp_bind]
      refine (wp_getAddr s ip _).mono (fun ind s' h => ?_)
        (fun e he => ⟨he.1, if_pos he.2.1, .inl he.2.2⟩)
      rw [wp_bind, wp_get]
      rcases h with ⟨hind, hne, rfl⟩ | ⟨hzero, hfree, rfl⟩
      · split
        · next hword =>
          rw [wp_bind]
          refine (wp_balloc s').mono (fun b s'' h => ?_) (fun e he => ⟨he.1, ?_, .inl he.2⟩)
          · obtain ⟨hb, rfl⟩ := h
            rw [wp_bind, wp_modify, wp_pure]
            exact .entry (j := ⟨_, hj⟩) hind hne hword hb
          · rw [Place.addr_entry _ _ hind hne]
            exact hword
        · next hword =>
          rw [wp_pure]
          refine .found ?_ hword
          show (if (s'.icache ip).addrs (Fin.last NDIRECT) = 0 then 0
            else (s'.disk ((s'.icache ip).addrs (Fin.last NDIRECT))).word _) = _
          rw [hind, if_neg hne]
      · -- the new indirect block is full of zeros
        have hword : (((s.take ind).setAddr ip (Fin.last NDIRECT) ind).disk ind).word (bn - NDIRECT)
            = 0 := by
          rw [setAddr_disk, take_disk_self, Block.word_zero]
        rw [if_pos hword]
        rw [wp_bind]
        refine (wp_balloc _).mono (fun b s'' h => ?_)
          (fun e he => ⟨he.1, if_pos hzero, .inr ⟨ind, hfree, he.2⟩⟩)
        obtain ⟨hb, rfl⟩ := h
        rw [wp_bind, wp_modify, wp_pure]
        exact .both (j := ⟨_, hj⟩) hzero hfree hb
    · cases hbn

end Fs

end Xv6
