import Xv6.Lib.Ledger
import Xv6.Disk.Layout

/-!
# Who owns a block

A block of data belongs to one place: a direct address, the address of the
indirect block, or an entry of it, in one inode. The places are the places of
a `Ledger` and the bits of the free map say what is in use. The inodes are a
map `eff` of their own: while an operation works on an inode, its fields are
ahead of the disk. The lemmas say what each write of `fs.c` does to the
ledger.
-/

namespace Xv6

open Function

/-- Where the number of a block may be in an inode. -/
inductive Place
  | direct (i : Fin NDIRECT)
  | indirect
  | entry (j : Fin NINDIRECT)
  deriving DecidableEq

namespace Place

/-- The number that is there, or zero. -/
def addr (d : Disk) (x : Dinode) : Place → ℕ
  | direct i => x.addrs i.castSucc
  | indirect => x.addrs (Fin.last NDIRECT)
  | entry j => if x.addrs (Fin.last NDIRECT) = 0 then 0 else (d (x.addrs (Fin.last NDIRECT))).word j

variable {x : Dinode}

theorem addr_entry (d : Disk) (j : Fin NINDIRECT) {ind : ℕ}
    (hind : x.addrs (Fin.last NDIRECT) = ind) (hne : ind ≠ 0) :
    (entry j).addr d x = (d ind).word j := by
  show (if x.addrs (Fin.last NDIRECT) = 0 then 0 else _) = _
  rw [hind, if_neg hne]

/-- The addresses depend on the inode and the indirect block alone. -/
theorem addr_congr {d d' : Disk} (h : x.addrs (Fin.last NDIRECT) ≠ 0 →
    d' (x.addrs (Fin.last NDIRECT)) = d (x.addrs (Fin.last NDIRECT))) (pl : Place) :
    pl.addr d' x = pl.addr d x := by
  cases pl <;> grind [addr]

/-- An inode without addresses. -/
theorem addr_of_empty (d : Disk) (hx : ∀ i, x.addrs i = 0) (pl : Place) :
    pl.addr d x = 0 := by
  cases pl with
  | direct i => exact hx _
  | indirect => exact hx _
  | entry j => exact if_pos (hx _)

/-- The place of a block of the file. -/
def ofBlock (bn : ℕ) : Option Place :=
  if h : bn < NDIRECT then some (direct ⟨bn, h⟩)
  else if h : bn - NDIRECT < NINDIRECT then some (entry ⟨bn - NDIRECT, h⟩)
  else none

theorem ofBlock_ne_indirect {bn : ℕ} {pl : Place} (h : ofBlock bn = some pl) : pl ≠ indirect := by
  grind [ofBlock]

/-- A place is the place of one block. -/
theorem ofBlock_injective {m n : ℕ} {pl : Place} (hm : ofBlock m = some pl)
    (hn : ofBlock n = some pl) : m = n := by
  grind [ofBlock]

end Place

/-- The block with a number, if the number is not zero. -/
def blockOf (n : ℕ) : Option ℕ := if n = 0 then none else some n

@[simp] theorem blockOf_eq_none {n : ℕ} : blockOf n = none ↔ n = 0 := by
  grind [blockOf]

@[simp] theorem blockOf_eq_some {n b : ℕ} : blockOf n = some b ↔ n = b ∧ n ≠ 0 := by
  grind [blockOf]

/-- An inode that is in use: its number is in range, and its type is not zero. -/
def Allocated (sb : Superblock) (eff : ℕ → Dinode) (k : ℕ) : Prop :=
  k < sb.ninodes ∧ (eff k).type ≠ 0

instance (sb : Superblock) (eff : ℕ → Dinode) (k : ℕ) : Decidable (Allocated sb eff k) :=
  inferInstanceAs (Decidable (_ ∧ _))

/-- **What a place of an inode owns**: the block whose number stands there, if the inode is
allocated and the number is not zero. The dinodes `eff` are those on the disk, or what they are
about to become. -/
def owner (sb : Superblock) (d : Disk) (eff : ℕ → Dinode) (p : ℕ × Place) : Option ℕ :=
  if Allocated sb eff p.1 then blockOf (p.2.addr d (eff p.1)) else none

/-- The data blocks that the free map says are in use. -/
def usedBlocks (sb : Superblock) (d : Disk) : Set ℕ :=
  {b | sb.nmeta ≤ b ∧ b < sb.size ∧ sb.inUse d b = true}

/-- **A sound disk**, with the inodes as `eff` has them and the blocks of `X`
in use but in no inode yet, or no more. -/
structure SoundDisk (sb : Superblock) (d : Disk) (eff : ℕ → Dinode) (X : Set ℕ) : Prop where
  wf : sb.Wf
  super : (d 1).superblock = sb
  metas : ∀ b < sb.nmeta, sb.inUse d b = true
  ledger : Ledger (owner sb d eff) (usedBlocks sb d) X
  full : ∀ k, Allocated sb eff k → ∀ bn, bn * BSIZE < (eff k).size →
    ∃ pl, Place.ofBlock bn = some pl ∧ owner sb d eff (k, pl) ≠ none

variable {sb : Superblock} {d d' : Disk} {eff eff' : ℕ → Dinode} {X : Set ℕ} {k : ℕ}

theorem owner_eq (h : Allocated sb eff k) (pl : Place) :
    owner sb d eff (k, pl) = blockOf (pl.addr d (eff k)) := if_pos h

/-- What an inode owns depends on it alone. -/
theorem owner_congr_at (h : eff' k = eff k) (pl : Place) :
    owner sb d eff' (k, pl) = owner sb d eff (k, pl) := by
  grind [owner, Allocated]

/-- The ledger does not see a write to a block that is no indirect block. -/
theorem owner_congr_disk (h : ∀ k b, owner sb d eff (k, .indirect) = some b → d' b = d b) :
    owner sb d' eff = owner sb d eff := by
  funext ⟨k, pl⟩
  by_cases hk : Allocated sb eff k
  · rw [owner_eq hk, owner_eq hk]
    refine congrArg blockOf (Place.addr_congr (fun hind => h k _ ?_) pl)
    rw [owner_eq hk]
    exact blockOf_eq_some.mpr ⟨rfl, hind⟩
  · exact (if_neg hk).trans (if_neg hk).symm

/-- The ledger does not see a change of the other fields of an inode. -/
theorem owner_congr_eff (h : ∀ k, (eff' k).type = (eff k).type ∧ (eff' k).addrs = (eff k).addrs) :
    owner sb d eff' = owner sb d eff := by
  funext ⟨k, pl⟩
  have haddr : pl.addr d (eff' k) = pl.addr d (eff k) := by
    cases pl <;> simp only [Place.addr, (h k).2]
  grind [owner, Allocated]

/-- The ledger sees the inodes in the range of the superblock. -/
theorem owner_congr_lt (h : ∀ k < sb.ninodes, eff' k = eff k) :
    owner sb d eff' = owner sb d eff := by
  funext ⟨k, pl⟩
  by_cases hk : k < sb.ninodes
  · exact owner_congr_at (h k hk) pl
  · exact (if_neg (fun h' => hk h'.1)).trans (if_neg (fun h' => hk h'.1)).symm

/-- A field other than the type changes. -/
theorem allocated_update {x : Dinode} (hx : x.type = (eff k).type) {j : ℕ} :
    Allocated sb (update eff k x) j ↔ Allocated sb eff j := by
  grind [Allocated, update_apply]

/-- One place of one inode comes to own a block. -/
theorem owner_update (x : Dinode) (hk : Allocated sb eff k) (hx : x.type = (eff k).type)
    (pl : Place) {b : ℕ} (hpl : blockOf (pl.addr d' x) = some b)
    (hothers : ∀ pl', pl' ≠ pl → pl'.addr d' x = pl'.addr d (eff k))
    (hdisk : ∀ j c, j ≠ k → owner sb d eff (j, .indirect) = some c → d' c = d c) :
    owner sb d' (update eff k x) = update (owner sb d eff) (k, pl) (some b) := by
  funext ⟨j, pl'⟩
  by_cases hj : j = k
  · subst hj
    rw [owner_eq ((allocated_update hx).mpr hk), update_self]
    by_cases hpl' : pl' = pl
    · rw [hpl', update_self, hpl]
    · rw [update_of_ne (fun he => hpl' (congrArg Prod.snd he)), owner_eq hk,
        hothers pl' hpl']
  · rw [update_of_ne (fun he => hj (congrArg Prod.fst he))]
    -- the other inodes: only the entries depend on the disk
    by_cases hjk : Allocated sb eff j
    · rw [owner_eq ((allocated_update hx).mpr hjk), owner_eq hjk, update_of_ne hj]
      refine congrArg blockOf (Place.addr_congr (fun hind => hdisk j _ hj ?_) pl')
      rw [owner_eq hjk]
      exact blockOf_eq_some.mpr ⟨rfl, hind⟩
    · exact (if_neg (fun h => hjk ((allocated_update hx).mp h))).trans (if_neg hjk).symm

namespace SoundDisk

variable {b : ℕ}

variable (h : SoundDisk sb d eff X)

include h

/-- An owned block is a data block in use. -/
theorem used_of_owner {p : ℕ × Place} (hp : owner sb d eff p = some b) :
    sb.nmeta ≤ b ∧ b < sb.size ∧ sb.inUse d b = true :=
  h.ledger.used_of_owner hp

theorem used_of_mem (hb : b ∈ X) :
    sb.nmeta ≤ b ∧ b < sb.size ∧ sb.inUse d b = true :=
  h.ledger.used_of_held hb

/-- A change that keeps the blocks of the files. -/
theorem change {X' : Set ℕ} (hsuper : d' 1 = d 1) (hmetas : ∀ b < sb.nmeta, sb.inUse d' b = true)
    (hledger : Ledger (owner sb d' eff') (usedBlocks sb d') X')
    (hfull : ∀ k, Allocated sb eff' k → Allocated sb eff k ∧ (eff' k).size = (eff k).size
      ∧ ∀ pl, owner sb d eff (k, pl) ≠ none → owner sb d' eff' (k, pl) ≠ none) :
    SoundDisk sb d' eff' X' where
  wf := h.wf
  super := by rw [hsuper, h.super]
  metas := hmetas
  ledger := hledger
  full := fun k hk bn hbn => by
    obtain ⟨hk', hsize, hkeep⟩ := hfull k hk
    rw [hsize] at hbn
    obtain ⟨pl, hpl, hown⟩ := h.full k hk' bn hbn
    exact ⟨pl, hpl, hkeep pl hown⟩

/-- A write outside the free map, and to no indirect block. -/
theorem write (blk : Block) (hone : b ≠ 1)
    (hmap : ∀ c < sb.size, sb.bblock c ≠ b) (hind : ∀ k, owner sb d eff (k, .indirect) ≠ some b) :
    SoundDisk sb (update d b blk) eff X := by
  have hown : owner sb (update d b blk) eff = owner sb d eff := by
    refine owner_congr_disk (fun k c hc => update_of_ne ?_ _ _)
    rintro rfl
    exact hind k hc
  have hused : usedBlocks sb (update d b blk) = usedBlocks sb d := by
    ext c
    refine and_congr_right (fun _ => and_congr_right (fun hc => ?_))
    rw [Superblock.inUse_update blk (hmap c hc)]
  refine h.change (update_of_ne hone.symm _ _) (fun c hc => ?_) ?_ (fun k hk => ?_)
  · rw [Superblock.inUse_update blk (hmap c (hc.trans_le h.wf.fits))]
    exact h.metas c hc
  · rw [hown, hused]
    exact h.ledger
  · rw [hown]
    exact ⟨hk, rfl, fun _ => id⟩

/-- A dinode is written. -/
theorem write_iblock (hk : k < sb.ninodes) (blk : Block) :
    SoundDisk sb (update d (sb.iblock k) blk) eff X := by
  have hlt := h.wf.iblock_lt hk
  have hmeta := h.wf.bmapstart_lt
  refine h.write blk ?_ (fun c hc => ?_) (fun j hj => ?_)
  · have := h.wf.super
    omega
  · have := h.wf.bblock_lt hc
    omega
  · have := (h.used_of_owner hj).1
    omega

/-- A dinode is written: the free map stays. -/
theorem inUse_iblock (hk : k < sb.ninodes) (hb : b < sb.size) (blk : Block) :
    sb.inUse (update d (sb.iblock k) blk) b = sb.inUse d b := by
  have hlt := h.wf.iblock_lt hk
  have hmap := h.wf.bblock_lt hb
  exact Superblock.inUse_update blk (by omega)

/-- A data block that is no indirect block is written. -/
theorem write_data (hb : sb.nmeta ≤ b)
    (hind : ∀ k, owner sb d eff (k, .indirect) ≠ some b) (blk : Block) :
    SoundDisk sb (update d b blk) eff X := by
  have hone := h.wf.one_lt_nmeta
  refine h.write blk (by omega) (fun c hc => ?_) hind
  have := h.wf.bblock_lt hc
  omega

/-- The free map changes: what is not a bit stays. -/
theorem owner_bblock (hb : b < sb.size) (blk : Block) :
    owner sb (update d (sb.bblock b) blk) eff = owner sb d eff := by
  have hlt := h.wf.bblock_lt hb
  refine owner_congr_disk (fun k c hc => update_of_ne ?_ _ _)
  have := (h.used_of_owner hc).1
  omega

/-- **A block is marked in use**: `balloc` holds it. -/
theorem setBit (hb : b < sb.size) (hfree : sb.inUse d b = false) :
    SoundDisk sb (update d (sb.bblock b) ((d (sb.bblock b)).setBit (b % BPB))) eff
      (insert b X) := by
  have hlt := h.wf.bblock_lt hb
  have hdata : sb.nmeta ≤ b := by
    by_contra hmeta
    rw [h.metas b (Nat.lt_of_not_le hmeta)] at hfree
    exact Bool.noConfusion hfree
  have hused : usedBlocks sb
      (update d (sb.bblock b) ((d (sb.bblock b)).setBit (b % BPB)))
      = insert b (usedBlocks sb d) := by
    ext c
    show _ ∧ _ ∧ _ ↔ c = b ∨ _ ∧ _ ∧ _
    rw [Superblock.inUse_setBit]
    grind
  have hown := h.owner_bblock hb ((d (sb.bblock b)).setBit (b % BPB))
  have hone := h.wf.one_lt_bmapstart
  refine h.change (update_of_ne (by omega) _ _) (fun c hc => ?_) ?_ (fun k hk => ?_)
  · rw [Superblock.inUse_setBit, h.metas c hc]
    exact ite_self _
  · rw [hown, hused]
    refine h.ledger.take (fun hmem => ?_)
    rw [hmem.2.2] at hfree
    exact Bool.noConfusion hfree
  · rw [hown]
    exact ⟨hk, rfl, fun _ => id⟩

/-- **A block is marked free**: a held one. -/
theorem clearBit (hb : b ∈ X) :
    SoundDisk sb (update d (sb.bblock b) ((d (sb.bblock b)).clearBit (b % BPB))) eff
      (X \ {b}) := by
  obtain ⟨hdata, hsize, -⟩ := h.used_of_mem hb
  have hlt := h.wf.bblock_lt hsize
  have hused : usedBlocks sb
      (update d (sb.bblock b) ((d (sb.bblock b)).clearBit (b % BPB)))
      = usedBlocks sb d \ {b} := by
    ext c
    show _ ∧ _ ∧ _ ↔ (_ ∧ _ ∧ _) ∧ ¬ c = b
    rw [Superblock.inUse_clearBit]
    grind
  have hown := h.owner_bblock hsize ((d (sb.bblock b)).clearBit (b % BPB))
  have hone := h.wf.one_lt_bmapstart
  refine h.change (update_of_ne (by omega) _ _) (fun c hc => ?_) ?_ (fun k hk => ?_)
  · rw [Superblock.inUse_clearBit, if_neg (by omega)]
    exact h.metas c hc
  · rw [hown, hused]
    exact h.ledger.release hb
  · rw [hown]
    exact ⟨hk, rfl, fun _ => id⟩

/-- A held block comes to be owned by a place. -/
theorem store (x : Dinode) (hx : x.type = (eff k).type)
    (hsize : x.size = (eff k).size) {pl : Place} (hb : b ∈ X)
    (hempty : owner sb d eff (k, pl) = none)
    (hown : owner sb d' (update eff k x) = update (owner sb d eff) (k, pl) (some b))
    (hone : d' 1 = d 1) (hmap : ∀ c < sb.size, sb.inUse d' c = sb.inUse d c) :
    SoundDisk sb d' (update eff k x) (X \ {b}) := by
  have hused : usedBlocks sb d' = usedBlocks sb d := by
    ext c
    refine and_congr_right (fun _ => and_congr_right (fun hc => ?_))
    rw [hmap c hc]
  refine h.change hone (fun c hc => ?_) ?_ (fun j hj => ?_)
  · rw [hmap c (hc.trans_le h.wf.fits)]
    exact h.metas c hc
  · rw [hown, hused]
    exact h.ledger.store hb hempty
  · rw [hown]
    refine ⟨(allocated_update hx).mp hj, ?_, fun pl' hpl' => ?_⟩ <;> grind [update_apply]

theorem ne_zero_of_mem (hb : b ∈ X) : b ≠ 0 := by
  have hdata := (h.used_of_mem hb).1
  have hone := h.wf.one_lt_nmeta
  omega

section

variable (hk : Allocated sb eff k)

include hk

/-- **A direct address is set.** -/
theorem owner_direct (i : Fin NDIRECT) (hb : b ∈ X) :
    owner sb d (update eff k ((eff k).setAddr i.castSucc b))
      = update (owner sb d eff) (k, .direct i) (some b) := by
  have hlast : Fin.last NDIRECT ≠ i.castSucc := (Fin.castSucc_ne_last i).symm
  refine owner_update ((eff k).setAddr i.castSucc b) hk rfl _ ?_ (fun pl' hpl' => ?_)
    (fun _ _ _ _ => rfl)
  · show blockOf (update (eff k).addrs i.castSucc b i.castSucc) = some b
    rw [update_self, blockOf_eq_some]
    exact ⟨rfl, h.ne_zero_of_mem hb⟩
  · cases pl' with
    | direct j =>
      have hj : j.castSucc ≠ i.castSucc := fun he => hpl' (by rw [Fin.castSucc_injective _ he])
      exact update_of_ne hj _ _
    | indirect => exact update_of_ne hlast _ _
    | entry j =>
      show (if update (eff k).addrs i.castSucc b (Fin.last NDIRECT) = 0 then 0
        else (d (update (eff k).addrs i.castSucc b (Fin.last NDIRECT))).word j) = _
      rw [update_of_ne hlast]
      rfl

theorem store_direct {i : Fin NDIRECT} (hb : b ∈ X) (hempty : owner sb d eff (k, .direct i) = none) :
    
    SoundDisk sb d (update eff k ((eff k).setAddr i.castSucc b)) (X \ {b}) :=
  h.store ((eff k).setAddr i.castSucc b) rfl rfl hb hempty (h.owner_direct hk i hb) rfl
    (fun _ _ => rfl)

/-- **The address of the indirect block is set**, to a block of zeros. -/
theorem owner_indirect (hb : b ∈ X) (hempty : owner sb d eff (k, .indirect) = none)
    (hblock : d b = Block.zero) :
    owner sb d (update eff k ((eff k).setAddr (Fin.last NDIRECT) b))
      = update (owner sb d eff) (k, .indirect) (some b) := by
  have hzero : (eff k).addrs (Fin.last NDIRECT) = 0 := by
    rw [owner_eq hk] at hempty
    exact blockOf_eq_none.mp hempty
  refine owner_update ((eff k).setAddr (Fin.last NDIRECT) b) hk rfl _ ?_ (fun pl' hpl' => ?_)
    (fun _ _ _ _ => rfl)
  · show blockOf (update (eff k).addrs (Fin.last NDIRECT) b (Fin.last NDIRECT)) = some b
    rw [update_self, blockOf_eq_some]
    exact ⟨rfl, h.ne_zero_of_mem hb⟩
  · cases pl' with
    | direct j => exact update_of_ne (Fin.castSucc_ne_last j) _ _
    | indirect => exact absurd rfl hpl'
    | entry j =>
      show (if update (eff k).addrs (Fin.last NDIRECT) b (Fin.last NDIRECT) = 0 then 0
        else (d (update (eff k).addrs (Fin.last NDIRECT) b (Fin.last NDIRECT))).word j)
        = if (eff k).addrs (Fin.last NDIRECT) = 0 then 0 else _
      rw [update_self, if_neg (h.ne_zero_of_mem hb), if_pos hzero, hblock]
      exact Block.word_zero j

theorem store_indirect (hb : b ∈ X) (hempty : owner sb d eff (k, .indirect) = none)
    (hblock : d b = Block.zero) :
    SoundDisk sb d (update eff k ((eff k).setAddr (Fin.last NDIRECT) b)) (X \ {b}) :=
  h.store ((eff k).setAddr (Fin.last NDIRECT) b) rfl rfl hb hempty
    (h.owner_indirect hk hb hempty hblock) rfl (fun _ _ => rfl)

/-- **An entry of the indirect block is set.** -/
theorem owner_entry (j : Fin NINDIRECT) {ind : ℕ} (hb : b ∈ X)
    (hind : owner sb d eff (k, .indirect) = some ind) :
    owner sb (update d ind ((d ind).setWord j b)) eff
      = update (owner sb d eff) (k, .entry j) (some b) := by
  have hj : 4 * j.val + 3 < BSIZE := by
    have := j.isLt
    unfold NINDIRECT BSIZE at *
    omega
  obtain ⟨hindeq, hne⟩ := blockOf_eq_some.mp ((owner_eq hk .indirect).symm.trans hind)
  have hentry : ∀ (d : Disk) (i : Fin NINDIRECT), (Place.entry i).addr d (eff k) = (d ind).word i :=
    fun d i => Place.addr_entry d i hindeq (hindeq ▸ hne)
  suffices hown : owner sb (update d ind ((d ind).setWord j b))
      (update eff k (eff k)) = update (owner sb d eff) (k, .entry j) (some b) by
    rwa [update_eq_self] at hown
  refine owner_update (eff k) hk rfl _ ?_ (fun pl' hpl' => ?_)
    (fun i c hi hc => update_of_ne ?_ _ _)
  · have hsmall : b < 2 ^ 32 := by
      have := (h.used_of_mem hb).2.1
      have := h.wf.small
      omega
    rw [hentry, update_self, Block.word_setWord_self _ _ hj, Nat.mod_eq_of_lt hsmall,
      blockOf_eq_some]
    exact ⟨rfl, h.ne_zero_of_mem hb⟩
  · cases pl' with
    | direct i => rfl
    | indirect => rfl
    | entry i =>
      have hij : i.val ≠ j.val := fun he => hpl' (by rw [Fin.ext he])
      rw [hentry, hentry, update_self, Block.word_setWord_of_ne _ _ hij]
  · rintro rfl
    exact hi (congrArg Prod.fst (h.ledger.unique hc hind))

theorem store_entry {j : Fin NINDIRECT} {ind : ℕ} (hb : b ∈ X)
    (hind : owner sb d eff (k, .indirect) = some ind) (hempty : owner sb d eff (k, .entry j) = none) :
    
    SoundDisk sb (update d ind ((d ind).setWord j b)) eff (X \ {b}) := by
  have hdata := h.used_of_owner hind
  have hone := h.wf.one_lt_nmeta
  have hstore := h.store (eff k) rfl rfl hb hempty
    ((congrArg _ (update_eq_self k eff)).trans (h.owner_entry hk j hb hind))
    (update_of_ne (by omega) _ _)
    (fun c hc => Superblock.inUse_update _ (by have := h.wf.bblock_lt hc; omega))
  rwa [update_eq_self] at hstore

end

variable {x : Dinode}

/-- **An inode gives up all its blocks.** -/
theorem vacate (hx : ∀ i, x.addrs i = 0) (hsize : x.size = 0) :
    SoundDisk sb d (update eff k x) (X ∪ {b | ∃ pl, owner sb d eff (k, pl) = some b}) := by
  have hnone : ∀ pl, owner sb d (update eff k x) (k, pl) = none := by
    intro pl
    by_cases hk : Allocated sb (update eff k x) k
    · rw [owner_eq hk, update_self, blockOf_eq_none]
      exact pl.addr_of_empty d hx
    · exact if_neg hk
  have hkeep : ∀ j pl, j ≠ k →
      owner sb d (update eff k x) (j, pl) = owner sb d eff (j, pl) := by
    intro j pl hj
    exact owner_congr_at (update_of_ne hj _ _) pl
  have hgone : {b | ∃ pl, owner sb d eff (k, pl) = some b}
      = {b | ∃ p : ℕ × Place, p.1 = k ∧ owner sb d eff p = some b} := by
    ext b
    constructor
    · rintro ⟨pl, hpl⟩
      exact ⟨(k, pl), rfl, hpl⟩
    · rintro ⟨⟨j, pl⟩, rfl, hpl⟩
      exact ⟨pl, hpl⟩
  refine ⟨h.wf, h.super, h.metas, ?_, fun j hj bn hbn => ?_⟩
  · rw [hgone]
    refine h.ledger.vacate (fun p => p.1 = k) ?_ (fun p hp => hkeep p.1 p.2 hp)
    rintro ⟨j, pl⟩ rfl
    exact hnone pl
  · have hfull := h.full j
    grind [update_apply, Allocated]

/-- An inode that owns nothing changes to another such inode. -/
theorem vacant (hnone : ∀ pl, owner sb d eff (k, pl) = none)
    (hx : ∀ i, x.addrs i = 0) (hsize : x.size = 0) : SoundDisk sb d (update eff k x) X := by
  have hres := h.vacate (k := k) hx hsize
  have hempty : {b | ∃ pl, owner sb d eff (k, pl) = some b} = ∅ := by
    ext b
    simp [hnone]
  rwa [hempty, Set.union_empty] at hres

/-- The other fields of an inode change, and its size does not grow past its
blocks. -/
theorem change_fields (htype : x.type = (eff k).type)
    (haddrs : x.addrs = (eff k).addrs) (hfull : Allocated sb eff k → ∀ bn, bn * BSIZE < x.size →
      ∃ pl, Place.ofBlock bn = some pl ∧ owner sb d eff (k, pl) ≠ none) :
    SoundDisk sb d (update eff k x) X := by
  have hown : owner sb d (update eff k x) = owner sb d eff :=
    owner_congr_eff (fun j => by grind [update_apply])
  refine ⟨h.wf, h.super, h.metas, hown ▸ h.ledger, fun j hj bn hbn => ?_⟩
  rw [hown]
  have hj' := (allocated_update htype).mp hj
  have hfull' := h.full j hj' bn
  grind [update_apply]

theorem congr_lt (heff : ∀ k < sb.ninodes, eff' k = eff k) :
    SoundDisk sb d eff' X := by
  have hown := owner_congr_lt (d := d) heff
  refine ⟨h.wf, h.super, h.metas, hown ▸ h.ledger, fun k hk bn hbn => ?_⟩
  rw [heff k hk.1] at hbn
  rw [hown]
  refine h.full k ⟨hk.1, ?_⟩ bn hbn
  rw [← heff k hk.1]
  exact hk.2

/-- A larger file would have a block past the last one. -/
theorem size_le (hk : Allocated sb eff k) :
    (eff k).size ≤ MAXFILE * BSIZE := by
  by_contra hbig
  obtain ⟨pl, hpl, -⟩ := h.full k hk MAXFILE (Nat.lt_of_not_le hbig)
  have hnone : Place.ofBlock MAXFILE = none := by decide
  rw [hnone] at hpl
  cases hpl

/-- The fields of an inode fit a dinode. -/
theorem fits (hk : Allocated sb eff k) : (eff k).Fits := by
  have haddr : ∀ pl : Place, pl.addr d (eff k) < 2 ^ 32 := by
    intro pl
    by_cases hzero : pl.addr d (eff k) = 0
    · rw [hzero]
      exact Nat.two_pow_pos 32
    · have hown : owner sb d eff (k, pl) = some (pl.addr d (eff k)) := by
        rw [owner_eq hk]
        exact blockOf_eq_some.mpr ⟨rfl, hzero⟩
      have hlt := (h.used_of_owner hown).2.1
      have hsmall := h.wf.small
      omega
  refine ⟨?_, fun i => ?_⟩
  · refine (h.size_le hk).trans_lt ?_
    decide
  · refine Fin.lastCases ?_ (fun i => ?_) i
    · exact haddr .indirect
    · exact haddr (.direct i)

end SoundDisk

end Xv6
