import Xv6.Fs.Alloc

/-!
# An operation at work

While an operation works on an inode, the entry of the inode cache may be
ahead of the disk. `Working` is the invariant of that time: the disk is sound
with the inodes as they are going to be, the other inodes are as on the disk,
and the other entries of the cache agree with it.
-/

namespace Xv6

open Function

open Wp

namespace Fs

/-- A valid entry agrees with the disk. -/
structure Agrees (sb : Superblock) (d : Disk) (i : Inode) : Prop where
  inum : i.inum < sb.ninodes
  copy : i.toDinode = sb.dinode d i.inum
  type : i.type ≠ 0

theorem Agrees.allocated {sb : Superblock} {d : Disk} {i : Inode} (h : Agrees sb d i) :
    Allocated sb (sb.dinode d) i.inum :=
  ⟨h.inum, by rw [← h.copy]; exact h.type⟩

/-- What the inode of such an entry owns. -/
theorem Agrees.owner_eq {sb : Superblock} {d : Disk} {i : Inode} (h : Agrees sb d i) (pl : Place) :
    owner sb d (sb.dinode d) (i.inum, pl) = blockOf (pl.addr d i.toDinode) := by
  rw [h.copy]
  exact Xv6.owner_eq h.allocated pl

/-- **The inode cache**: an inode is in one entry, the entries of `P` agree
with the disk, and a locked entry is in use and valid. -/
structure Cached (s : Fs) (P : Ip → Prop) : Prop where
  unique : ∀ {ip jp}, 0 < (s.icache ip).ref → 0 < (s.icache jp).ref →
    (s.icache ip).inum = (s.icache jp).inum → ip = jp
  agrees : ∀ {ip}, P ip → 0 < (s.icache ip).ref → (s.icache ip).valid = true →
    Agrees s.sb s.disk (s.icache ip)
  locked : ∀ {ip}, (s.icache ip).locked = true →
    0 < (s.icache ip).ref ∧ (s.icache ip).valid = true

/-- **A consistent file system**: blocks have one owner, the free map says which are in use, files
have no holes, and the inodes in the cache agree with the disk. It holds between any two calls of
functions of `fs.c`. -/
structure Consistent (s : Fs) : Prop where
  sound : SoundDisk s.sb s.disk (s.sb.dinode s.disk) ∅
  cached : s.Cached (fun _ => True)

namespace Cached

variable {s s' : Fs} {P Q : Ip → Prop}

/-- The disk changes. -/
theorem change_disk (h : s.Cached P) (hicache : s'.icache = s.icache)
    (hagrees : ∀ {jp}, Q jp → 0 < (s.icache jp).ref → (s.icache jp).valid = true →
      Agrees s'.sb s'.disk (s.icache jp)) : s'.Cached Q where
  unique := by
    rw [hicache]
    exact h.unique
  agrees := by
    rw [hicache]
    exact hagrees
  locked := by
    rw [hicache]
    exact h.locked

/-- An entry changes. -/
theorem change_entry (h : s.Cached P) {ip : Ip} {i : Inode} (hsb : s'.sb = s.sb)
    (hdisk : s'.disk = s.disk) (hicache : s'.icache = update s.icache ip i)
    (hPQ : ∀ jp ≠ ip, Q jp → P jp)
    (hunique : 0 < i.ref → ∀ jp ≠ ip, 0 < (s.icache jp).ref → (s.icache jp).inum ≠ i.inum)
    (hagrees : Q ip → 0 < i.ref → i.valid = true → Agrees s.sb s.disk i)
    (hlocked : i.locked = true → 0 < i.ref ∧ i.valid = true) : s'.Cached Q := by
  have hself : s'.icache ip = i := by rw [hicache, update_self]
  have hother : ∀ jp, jp ≠ ip → s'.icache jp = s.icache jp := fun jp hjp => by
    rw [hicache, update_of_ne hjp]
  refine ⟨fun {jp lp} hj hl hjl => ?_, fun {jp} hQ href hvalid => ?_, fun {jp} hl => ?_⟩
  · by_cases hjp : jp = ip <;> by_cases hlp : lp = ip
    · rw [hjp, hlp]
    · rw [hjp, hself] at hj hjl
      rw [hother lp hlp] at hl hjl
      exact absurd hjl.symm (hunique hj lp hlp hl)
    · rw [hlp, hself] at hl hjl
      rw [hother jp hjp] at hj hjl
      exact absurd hjl (hunique hl jp hjp hj)
    · rw [hother jp hjp] at hj hjl
      rw [hother lp hlp] at hl hjl
      exact h.unique hj hl hjl
  · rw [hsb, hdisk]
    by_cases hjp : jp = ip
    · subst hjp
      rw [hself] at href hvalid ⊢
      exact hagrees hQ href hvalid
    · rw [hother jp hjp] at href hvalid ⊢
      exact h.agrees (hPQ jp hjp hQ) href hvalid
  · by_cases hjp : jp = ip
    · subst hjp
      rw [hself] at hl ⊢
      exact hlocked hl
    · rw [hother jp hjp] at hl ⊢
      exact h.locked hl

end Cached

/-- **An operation works on `ip`**, with the inodes going to be `eff` and the
blocks of `X` in no inode. -/
structure Working (s : Fs) (ip : Ip) (eff : ℕ → Dinode) (X : Set ℕ) : Prop where
  sound : SoundDisk s.sb s.disk eff X
  here : 0 < (s.icache ip).ref ∧ (s.icache ip).inum < s.sb.ninodes
  others : ∀ k < s.sb.ninodes, k ≠ (s.icache ip).inum → s.sb.dinode s.disk k = eff k
  cached : s.Cached (· ≠ ip)

/-- An operation starts. -/
theorem Consistent.working {s : Fs} (h : s.Consistent) {ip : Ip} (href : 0 < (s.icache ip).ref)
    (hinum : (s.icache ip).inum < s.sb.ninodes) : s.Working ip (s.sb.dinode s.disk) ∅ :=
  ⟨h.sound, ⟨href, hinum⟩, fun _ _ _ => rfl,
    h.cached.change_disk rfl (fun _ hr hv => h.cached.agrees trivial hr hv)⟩

namespace Working

variable {s s' : Fs} {ip : Ip} {eff eff' : ℕ → Dinode} {X X' : Set ℕ}
  {x : Dinode} {b : ℕ}

/-- The dinode that `iupdate` has written. -/
theorem dinode_iupdate (s : Fs) (ip : Ip) (hx : x.Fits) :
    (s.writeBlock (s.sb.iblock (s.icache ip).inum)
      (Block.setDinode ((s.icache ip).inum % IPB) x)).sb.dinode
      (s.writeBlock (s.sb.iblock (s.icache ip).inum)
        (Block.setDinode ((s.icache ip).inum % IPB) x)).disk (s.icache ip).inum = x := by
  rw [writeBlock_disk, writeBlock_sb, Superblock.dinode_setDinode _ hx, if_pos rfl]

variable (h : s.Working ip eff X)

include h

/-- The disk is sound when the dinode of `ip` has been written. -/
theorem sound_disk (hk : s.sb.dinode s.disk (s.icache ip).inum = eff (s.icache ip).inum) :
    SoundDisk s.sb s.disk (s.sb.dinode s.disk) X := by
  refine h.sound.congr_lt (fun j hj => ?_)
  by_cases hjk : j = (s.icache ip).inum
  · rw [hjk]
    exact hk
  · exact h.others j hj hjk

/-- The disk changes, but no dinode, except that of `ip`. -/
theorem change_disk (hsb : s'.sb = s.sb) (hicache : s'.icache = s.icache)
    (hsound : SoundDisk s.sb s'.disk eff' X')
    (heff : ∀ k < s.sb.ninodes, k ≠ (s.icache ip).inum → eff' k = eff k)
    (hdinode : ∀ k < s.sb.ninodes, k ≠ (s.icache ip).inum →
      s.sb.dinode s'.disk k = s.sb.dinode s.disk k) : s'.Working ip eff' X' where
  sound := by rw [hsb]; exact hsound
  here := by rw [hsb, hicache]; exact h.here
  others := fun k hk hne => by
    rw [hsb] at hk ⊢
    rw [hicache] at hne
    rw [hdinode k hk hne, heff k hk hne]
    exact h.others k hk hne
  cached := h.cached.change_disk hicache (fun hjp href hvalid => by
    obtain ⟨hinum, hcopy, htype⟩ := h.cached.agrees hjp href hvalid
    refine ⟨by rw [hsb]; exact hinum, ?_, htype⟩
    rw [hsb, hdinode _ hinum (fun he => hjp (h.cached.unique href h.here.1 he))]
    exact hcopy)

/-- The fields of `ip` change that are on the disk too. -/
theorem change_inode (hsb : s'.sb = s.sb) (hdisk : s'.disk = s.disk)
    (hicache : s'.icache = update s.icache ip { s.icache ip with toDinode := x })
    (hsound : SoundDisk s.sb s.disk eff' X')
    (heff : ∀ k < s.sb.ninodes, k ≠ (s.icache ip).inum → eff' k = eff k) :
    s'.Working ip eff' X' := by
  have hself : s'.icache ip = { s.icache ip with toDinode := x } := by
    rw [hicache, update_self]
  refine ⟨by rw [hsb, hdisk]; exact hsound, by rw [hsb, hself]; exact h.here, fun k hk hne => ?_, ?_⟩
  · rw [hsb] at hk ⊢
    rw [hself] at hne
    rw [hdisk, heff k hk hne]
    exact h.others k hk hne
  · refine h.cached.change_entry hsb hdisk hicache (fun _ _ => id) (fun href jp hjp hj he => ?_)
      (fun hne => absurd rfl hne) (fun hl => h.cached.locked hl)
    exact hjp (h.cached.unique hj href he)

/-- `balloc` writes no dinode. -/
theorem dinode_take {k : ℕ} (hb : s.Free b) (hk : k < s.sb.ninodes) :
    s.sb.dinode (s.take b).disk k = s.sb.dinode s.disk k := by
  have hdata := (h.sound.setBit hb.1 hb.2).used_of_mem (Set.mem_insert b X)
  have hmeta := h.sound.wf.bmapstart_lt
  have hi := h.sound.wf.iblock_lt hk
  have hbb := h.sound.wf.bblock_lt hb.1
  show s.sb.dinode (update (update _ _ _) b _) k = _
  rw [Superblock.dinode_update _ (by omega), Superblock.dinode_update _ (by omega)]

/-- `balloc` takes a block. -/
theorem take (hb : s.Free b) :
    (s.take b).Working ip eff (insert b X) := by
  have hbit := h.sound.setBit hb.1 hb.2
  have hdata := hbit.used_of_mem (Set.mem_insert b X)
  refine h.change_disk rfl rfl ?_ (fun _ _ _ => rfl) (fun k hk _ => h.dinode_take hb hk)
  refine hbit.write_data hdata.1 (fun k hk => ?_) Block.zero
  exact hbit.ledger.apart hk (Set.mem_insert b X)

/-- A data block that is no indirect block is written. -/
theorem writeBlock_data (hb : s.sb.nmeta ≤ b)
    (hind : ∀ k, owner s.sb s.disk eff (k, .indirect) ≠ some b) (f : Block → Block) :
    (s.writeBlock b f).Working ip eff X := by
  have hmeta := h.sound.wf.bmapstart_lt
  refine h.change_disk rfl rfl (h.sound.write_data hb hind _) (fun _ _ _ => rfl) (fun k hk _ => ?_)
  have hi := h.sound.wf.iblock_lt hk
  exact Superblock.dinode_update _ (by omega)

/-- The ledger does not see that a block is taken. -/
theorem owner_take (hb : s.Free b) :
    owner s.sb (s.take b).disk eff = owner s.sb s.disk eff := by
  have hbit := h.sound.setBit hb.1 hb.2
  rw [← h.sound.owner_bblock hb.1 ((s.disk (s.sb.bblock b)).setBit (b % BPB))]
  refine owner_congr_disk (fun k c hc => update_of_ne ?_ _ _)
  rintro rfl
  exact hbit.ledger.apart hc (Set.mem_insert c X)

/-- `iupdate` writes the inode. -/
theorem iupdate (hx : x.Fits) :
    (s.writeBlock (s.sb.iblock (s.icache ip).inum)
      (Block.setDinode ((s.icache ip).inum % IPB) x)).Working ip eff X := by
  refine h.change_disk rfl rfl (h.sound.write_iblock h.here.2 _) (fun _ _ _ => rfl)
    (fun j _ hne => ?_)
  rw [writeBlock_disk, Superblock.dinode_setDinode _ hx, if_neg hne]

omit h in
/-- An operation ends. -/
theorem consistent (h : s.Working ip eff ∅)
    (hk : s.sb.dinode s.disk (s.icache ip).inum = eff (s.icache ip).inum)
    (hm : eff (s.icache ip).inum = (s.icache ip).toDinode) (htype : (s.icache ip).type ≠ 0) :
    s.Consistent := by
  refine ⟨h.sound_disk hk, h.cached.change_disk rfl (fun {jp} _ hr hv => ?_)⟩
  by_cases hjp : jp = ip
  · subst hjp
    exact ⟨h.here.2, by rw [hk, hm], htype⟩
  · exact h.cached.agrees hjp hr hv

end Working

/-! ## `bmap` at work -/

/-- **`bmap` has returned `b`** for a place of `ip`: the place owns it, no
place has lost its block, and if the place was empty before, only the
addresses of `ip` have changed in memory. -/
structure Mapped (s : Fs) (ip : Ip) (eff : ℕ → Dinode) (pl : Place) (b : ℕ) (s' : Fs)
    (eff' : ℕ → Dinode) : Prop where
  working : s'.Working ip eff' ∅
  sb : s'.sb = s.sb
  icache : ∃ a, s'.icache = update s.icache ip { s.icache ip with addrs := a }
  mirror : eff' (s.icache ip).inum = (s'.icache ip).toDinode
  owns : owner s.sb s'.disk eff' ((s.icache ip).inum, pl) = some b
  keeps : ∀ pl', owner s.sb s.disk eff ((s.icache ip).inum, pl') ≠ none →
    owner s.sb s'.disk eff' ((s.icache ip).inum, pl') ≠ none
  fresh : owner s.sb s.disk eff ((s.icache ip).inum, pl) = none ∨ s' = s ∧ eff' = eff

theorem update_ne_none {P : Type} [DecidableEq P] {own : P → Option ℕ} {p q : P} {b : ℕ}
    (h : own q ≠ none) : update own p (some b) q ≠ none := by
  by_cases hqp : q = p
  · rw [hqp, update_self]
    exact Option.some_ne_none b
  · rwa [update_of_ne hqp]

namespace Working

variable {s s' : Fs} {ip : Ip} {eff : ℕ → Dinode}

variable {b : ℕ}

/-- `ip->addrs[i]` is set to a block that is held. -/
theorem setAddr {X X' : Set ℕ} (h : s.Working ip eff X) (i : Fin (NDIRECT + 1))
    (hsound : SoundDisk s.sb s.disk (update eff (s.icache ip).inum
      ((eff (s.icache ip).inum).setAddr i b)) X') :
    (s.setAddr ip i b).Working ip (update eff (s.icache ip).inum
      ((eff (s.icache ip).inum).setAddr i b)) X' :=
  h.change_inode (x := (s.icache ip).toDinode.setAddr i b) rfl rfl rfl hsound
    (fun _ _ hne => update_of_ne hne _ _)

theorem bmapped_direct (h : s.Working ip eff ∅)
    (hm : eff (s.icache ip).inum = (s.icache ip).toDinode)
    (hk : Allocated s.sb eff (s.icache ip).inum) {i : Fin NDIRECT}
    (hzero : (s.icache ip).addrs i.castSucc = 0) (hb : s.Free b) :
    Mapped s ip eff (.direct i) b ((s.take b).setAddr ip i.castSucc b)
      (update eff (s.icache ip).inum
        ((eff (s.icache ip).inum).setAddr i.castSucc b)) := by
  have ht := h.take hb
  have hmem : b ∈ insert b (∅ : Set ℕ) := Set.mem_insert b ∅
  have hempty : owner s.sb s.disk eff ((s.icache ip).inum, .direct i) = none := by
    rw [owner_eq hk, hm]
    exact blockOf_eq_none.mpr hzero
  have hown := ht.sound.owner_direct hk i hmem
  rw [take_sb, h.owner_take hb] at hown
  have hsound := ht.sound.store_direct hk hmem (by rw [take_sb, h.owner_take hb]; exact hempty)
  rw [Set.insert_sdiff_self_of_notMem (Set.notMem_empty b)] at hsound
  refine ⟨ht.setAddr i.castSucc hsound, rfl, ⟨_, rfl⟩, ?_, ?_, fun pl' hpl' => ?_, .inl hempty⟩
  · rw [update_self, setAddr_icache, update_self, hm]
    rfl
  · rw [setAddr_disk, hown, update_self]
  · rw [setAddr_disk, hown]
    exact update_ne_none hpl'

variable {j : Fin NINDIRECT} {ind : ℕ}

/-- An entry of the indirect block is set to a block that is held. -/
theorem setEntry {X : Set ℕ} (h : s.Working ip eff X) (hk : Allocated s.sb eff (s.icache ip).inum)
    (hb : b ∈ X) (hind : owner s.sb s.disk eff ((s.icache ip).inum, .indirect) = some ind)
    (hempty : owner s.sb s.disk eff ((s.icache ip).inum, .entry j) = none) :
    (s.writeBlock ind (fun a => a.setWord j b)).Working ip eff (X \ {b}) := by
  have hdata := h.sound.used_of_owner hind
  have hmeta := h.sound.wf.bmapstart_lt
  refine h.change_disk rfl rfl (h.sound.store_entry hk hb hind hempty) (fun _ _ _ => rfl)
    (fun k hk _ => ?_)
  have hi := h.sound.wf.iblock_lt hk
  exact Superblock.dinode_update _ (by omega)

theorem bmapped_entry (h : s.Working ip eff ∅)
    (hm : eff (s.icache ip).inum = (s.icache ip).toDinode)
    (hk : Allocated s.sb eff (s.icache ip).inum)
    (hind : (s.icache ip).addrs (Fin.last NDIRECT) = ind) (hne : ind ≠ 0)
    (hzero : (s.disk ind).word j = 0) (hb : s.Free b) :
    Mapped s ip eff (.entry j) b ((s.take b).writeBlock ind (fun a => a.setWord j b)) eff := by
  have ht := h.take hb
  have hmem : b ∈ insert b (∅ : Set ℕ) := Set.mem_insert b ∅
  have hinds : owner s.sb s.disk eff ((s.icache ip).inum, .indirect) = some ind := by
    rw [owner_eq hk, hm]
    exact blockOf_eq_some.mpr ⟨hind, fun hz => hne (hind.symm.trans hz)⟩
  have hempty : owner s.sb s.disk eff ((s.icache ip).inum, .entry j) = none := by
    rw [owner_eq hk, hm, Place.addr_entry s.disk j hind hne]
    exact blockOf_eq_none.mpr hzero
  have hown := ht.sound.owner_entry hk j hmem (by rw [take_sb, h.owner_take hb]; exact hinds)
  rw [take_sb, h.owner_take hb] at hown
  have hwork := ht.setEntry hk (j := j) hmem (by rw [take_sb, h.owner_take hb]; exact hinds)
    (by rw [take_sb, h.owner_take hb]; exact hempty)
  rw [Set.insert_sdiff_self_of_notMem (Set.notMem_empty b)] at hwork
  refine ⟨hwork, rfl, ⟨(s.icache ip).addrs, (update_eq_self ip s.icache).symm⟩, hm, ?_,
    fun pl' hpl' => ?_, .inl hempty⟩
  · rw [writeBlock_disk, hown, update_self]
  · rw [writeBlock_disk, hown]
    exact update_ne_none hpl'

theorem bmapped_both (h : s.Working ip eff ∅) (hm : eff (s.icache ip).inum = (s.icache ip).toDinode)
    (hk : Allocated s.sb eff (s.icache ip).inum)
    (hzero : (s.icache ip).addrs (Fin.last NDIRECT) = 0) (hind : s.Free ind)
    (hb : ((s.take ind).setAddr ip (Fin.last NDIRECT) ind).Free b) :
    Mapped s ip eff (.entry j) b ((((s.take ind).setAddr ip (Fin.last NDIRECT) ind).take b).writeBlock
      ind (fun a => a.setWord j b)) (update eff (s.icache ip).inum
        ((eff (s.icache ip).inum).setAddr (Fin.last NDIRECT) ind)) := by
  have ht := h.take hind
  have hmem : ind ∈ insert ind (∅ : Set ℕ) := Set.mem_insert ind ∅
  have hempty : owner s.sb s.disk eff ((s.icache ip).inum, .indirect) = none := by
    rw [owner_eq hk, hm]
    exact blockOf_eq_none.mpr hzero
  have hempty' : owner (s.take ind).sb (s.take ind).disk eff ((s.icache ip).inum, .indirect) = none := by
    rw [take_sb, h.owner_take hind]
    exact hempty
  have hown := ht.sound.owner_indirect hk hmem hempty' (s.take_disk_self ind)
  rw [take_sb, h.owner_take hind] at hown
  have hsound := ht.sound.store_indirect hk hmem hempty' (s.take_disk_self ind)
  rw [Set.insert_sdiff_self_of_notMem (Set.notMem_empty ind)] at hsound
  -- the second half is as if the indirect block had been there
  have hwork := ht.setAddr (Fin.last NDIRECT) hsound
  rw [take_icache] at hwork
  have hinum : (((s.take ind).setAddr ip (Fin.last NDIRECT) ind).icache ip).inum
      = (s.icache ip).inum := setAddr_inum _ _ _ _
  have hcopy : (((s.take ind).setAddr ip (Fin.last NDIRECT) ind).icache ip).toDinode
      = (s.icache ip).toDinode.setAddr (Fin.last NDIRECT) ind := setAddr_toDinode _ _ _ _
  have hlast : (((s.take ind).setAddr ip (Fin.last NDIRECT) ind).icache ip).addrs (Fin.last NDIRECT)
      = ind := by
    rw [hcopy]
    exact update_self (Fin.last NDIRECT) ind (s.icache ip).addrs
  have hk' : Allocated s.sb (update eff (s.icache ip).inum
      ((eff (s.icache ip).inum).setAddr (Fin.last NDIRECT) ind)) (s.icache ip).inum :=
    (allocated_update (k := (s.icache ip).inum)
      (x := (eff (s.icache ip).inum).setAddr (Fin.last NDIRECT) ind) rfl).mpr hk
  have hsecond := hwork.bmapped_entry (j := j) (by rw [hinum, hcopy, update_self, hm])
    (by rw [hinum]; exact hk') hlast (ht.sound.ne_zero_of_mem hmem)
    (by rw [setAddr_disk, take_disk_self, Block.word_zero]) hb
  obtain ⟨hwork', -, -, hmirror, howns, hkeeps, -⟩ := hsecond
  rw [hinum] at hmirror howns hkeeps
  refine ⟨hwork', rfl, ⟨_, (s.take ind).setAddr_icache ip (Fin.last NDIRECT) ind⟩, hmirror, howns,
    fun pl' hpl' => hkeeps pl' ?_, .inl ?_⟩
  · rw [setAddr_sb, setAddr_disk, take_sb, hown]
    exact update_ne_none hpl'
  · rw [owner_eq hk, hm]
    exact blockOf_eq_none.mpr (if_pos hzero)

/-- **`bmap` keeps an operation at work.** -/
theorem bmapped (h : s.Working ip eff ∅) (hm : eff (s.icache ip).inum = (s.icache ip).toDinode)
    (hk : Allocated s.sb eff (s.icache ip).inum) {pl : Place} (hb : Bmapped s ip pl b s') :
    ∃ eff', Mapped s ip eff pl b s' eff' := by
  cases hb with
  | found hb hne =>
    refine ⟨eff, h, rfl, ⟨_, (update_eq_self ip s.icache).symm⟩, hm, ?_, fun _ => id,
      .inr ⟨rfl, rfl⟩⟩
    rw [owner_eq hk, hm]
    exact blockOf_eq_some.mpr ⟨hb, hb ▸ hne⟩
  | direct hzero hb => exact ⟨_, h.bmapped_direct hm hk hzero hb⟩
  | entry hind hne hzero hb => exact ⟨_, h.bmapped_entry hm hk hind hne hzero hb⟩
  | both hzero hind hb => exact ⟨_, h.bmapped_both hm hk hzero hind hb⟩

end Working

end Fs

end Xv6
