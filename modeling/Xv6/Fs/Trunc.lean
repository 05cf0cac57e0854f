import Xv6.Fs.Cache
import Mathlib.Data.Fin.Tuple.Basic

/-!
# Truncation

`itrunc` gives back the blocks of an inode, one at a time, and `iput` frees
the inode with the last reference. From the start of `itrunc` on the inode is
taken to be empty, so that all its blocks are held by `itrunc`; a block is
held until it is freed, and so no block is freed that is free.
-/

namespace Xv6

open Function

open Wp

/-- The place of an address in the inode. -/
def Place.ofAddr (i : Fin (NDIRECT + 1)) : Place := Fin.lastCases indirect direct i

@[simp] theorem Place.ofAddr_last : ofAddr (Fin.last NDIRECT) = indirect := Fin.lastCases_last

@[simp] theorem Place.ofAddr_castSucc (i : Fin NDIRECT) : ofAddr i.castSucc = direct i :=
  Fin.lastCases_castSucc i

theorem Place.ofAddr_injective : Function.Injective ofAddr := by
  intro i j
  refine Fin.lastCases ?_ (fun i => ?_) i <;> refine Fin.lastCases ?_ (fun j => ?_) j
  · exact fun _ => rfl
  · rw [ofAddr_last, ofAddr_castSucc]
    exact nofun
  · rw [ofAddr_last, ofAddr_castSucc]
    exact nofun
  · rw [ofAddr_castSucc, ofAddr_castSucc]
    exact fun h => congrArg _ (direct.inj h)

theorem Place.addr_ofAddr (d : Disk) (x : Dinode) (i : Fin (NDIRECT + 1)) :
    (ofAddr i).addr d x = x.addrs i := by
  refine Fin.lastCases ?_ (fun i => ?_) i
  · rw [ofAddr_last]
    rfl
  · rw [ofAddr_castSucc]
    rfl

/-- The blocks of an inode that are left to free. -/
def leftBlocks (d : Disk) (x : Dinode) (done : Set Place) : Set ℕ :=
  {b | ∃ pl, pl ∉ done ∧ blockOf (pl.addr d x) = some b}

/-- The inode that `itrunc` makes. -/
def Dinode.truncated (x : Dinode) : Dinode := { x with size := 0, addrs := fun _ => 0 }

theorem Dinode.addr_truncated (x : Dinode) (d : Disk) (pl : Place) : pl.addr d x.truncated = 0 := by
  cases pl <;> rfl

namespace Fs

/-- **`itrunc` at work** on an inode that was as in `s₀`. -/
structure Truncating (s₀ : Fs) (ip : Ip) (done : Set Place) (s : Fs) : Prop where
  working : s.Working ip (update (s₀.sb.dinode s₀.disk) (s₀.icache ip).inum
    (s₀.icache ip).toDinode.truncated) (leftBlocks s₀.disk (s₀.icache ip).toDinode done)
  sb : s.sb = s₀.sb
  data : ∀ b, s₀.sb.nmeta ≤ b → s.disk b = s₀.disk b
  icache : ∃ a, s.icache = update s₀.icache ip { s₀.icache ip with addrs := a }
  cleared : ∀ i, .ofAddr i ∈ done → (s.icache ip).addrs i = 0
  kept : ∀ i, .ofAddr i ∉ done → (s.icache ip).addrs i = (s₀.icache ip).addrs i
  logged : ∀ c ∈ s.logged, c ∈ s₀.logged ∨ ∃ b < s₀.sb.size, c = s₀.sb.bblock b

section truncating

variable {s₀ s : Fs} {ip : Ip} {done : Set Place}

/-- `itrunc` starts. -/
theorem Consistent.truncating (h : s₀.Consistent) (href : 0 < (s₀.icache ip).ref)
    (hip : Agrees s₀.sb s₀.disk (s₀.icache ip)) : Truncating s₀ ip ∅ s₀ := by
  have hleft : leftBlocks s₀.disk (s₀.icache ip).toDinode ∅
      = ∅ ∪ {b | ∃ pl, owner s₀.sb s₀.disk (s₀.sb.dinode s₀.disk) ((s₀.icache ip).inum, pl)
        = some b} := by
    rw [Set.empty_union]
    ext b
    refine exists_congr (fun pl => ?_)
    rw [hip.owner_eq]
    exact and_iff_right (Set.notMem_empty pl)
  refine ⟨?_, rfl, fun _ _ => rfl, ⟨_, (update_eq_self ip s₀.icache).symm⟩,
    fun _ hi => absurd hi (Set.notMem_empty _), fun _ _ => rfl, fun _ => .inl⟩
  rw [hleft]
  exact (h.working href hip.inum).change_disk rfl rfl
    (h.sound.vacate (x := (s₀.icache ip).toDinode.truncated) (fun _ => rfl) rfl)
    (fun _ _ hne => update_of_ne hne _ _) (fun _ _ _ => rfl)

variable {pl : Place}

/-- A block of the inode is freed, or there is none at the place. -/
theorem leftBlocks_insert (h : s₀.Consistent) (hip : Agrees s₀.sb s₀.disk (s₀.icache ip)) {b : ℕ}
    (hb : blockOf (pl.addr s₀.disk (s₀.icache ip).toDinode) = some b) :
    leftBlocks s₀.disk (s₀.icache ip).toDinode (insert pl done)
      = leftBlocks s₀.disk (s₀.icache ip).toDinode done \ {b} := by
  ext c
  constructor
  · rintro ⟨pl', hpl', hc⟩
    obtain ⟨hne, hdone⟩ := not_or.mp (fun hor => hpl' (Set.mem_insert_iff.mpr hor))
    refine ⟨⟨pl', hdone, hc⟩, ?_⟩
    rintro rfl
    rw [← hip.owner_eq] at hb hc
    exact hne (congrArg Prod.snd (h.sound.ledger.unique hc hb))
  · rintro ⟨⟨pl', hdone, hc⟩, hne⟩
    refine ⟨pl', fun hmem => ?_, hc⟩
    rcases Set.mem_insert_iff.mp hmem with rfl | hmem
    · rw [hb] at hc
      exact hne (Option.some.inj hc).symm
    · exact hdone hmem

theorem leftBlocks_insert_none {d : Disk} {x : Dinode} (hb : blockOf (pl.addr d x) = none) :
    leftBlocks d x (insert pl done) = leftBlocks d x done := by
  ext c
  refine exists_congr (fun pl' => ?_)
  refine and_congr_left (fun hc => not_congr ?_)
  rw [Set.mem_insert_iff]
  refine or_iff_right ?_
  rintro rfl
  rw [hb] at hc
  cases hc

variable {R : FsHalt → Prop}

/-- **A block of the inode is freed**: it was held, so it was in use. -/
theorem Truncating.wp_bfreeIf (h : Truncating s₀ ip done s) (h₀ : s₀.Consistent)
    (hip : Agrees s₀.sb s₀.disk (s₀.icache ip)) (hpl : pl ∉ done) {addr : ℕ}
    (haddr : addr = pl.addr s₀.disk (s₀.icache ip).toDinode) :
    wp (bfreeIf addr) (fun _ s' => s'.Working ip (update (s₀.sb.dinode s₀.disk)
        (s₀.icache ip).inum (s₀.icache ip).toDinode.truncated)
        (leftBlocks s₀.disk (s₀.icache ip).toDinode (insert pl done))
      ∧ s'.sb = s.sb ∧ s'.icache = s.icache
      ∧ (∀ b, s₀.sb.nmeta ≤ b → s'.disk b = s.disk b)
      ∧ ∀ c ∈ s'.logged, c ∈ s.logged ∨ ∃ b < s₀.sb.size, c = s₀.sb.bblock b) R s := by
  unfold bfreeIf
  split
  · next hzero =>
    rw [wp_pure, leftBlocks_insert_none (blockOf_eq_none.mpr (haddr.symm.trans hzero))]
    exact ⟨h.working, rfl, rfl, fun _ _ => rfl, fun _ => .inl⟩
  · next hne =>
    have hb : blockOf (pl.addr s₀.disk (s₀.icache ip).toDinode) = some addr := by
      rw [← haddr]
      exact blockOf_eq_some.mpr ⟨rfl, hne⟩
    have hmem : addr ∈ leftBlocks s₀.disk (s₀.icache ip).toDinode done := ⟨pl, hpl, hb⟩
    have hsound := h.working.sound
    obtain ⟨-, hsize, huse⟩ := hsound.used_of_mem hmem
    have hmap := hsound.wf.bblock_lt hsize
    refine (wp_bfree hsound.super huse).imp (fun _ s' hs' => ?_)
    subst hs'
    refine ⟨?_, rfl, rfl, fun b hb => ?_, fun c hc => (List.mem_append.mp hc).imp_right fun hc =>
      ⟨addr, h.sb ▸ hsize, h.sb ▸ List.mem_singleton.mp hc⟩⟩
    · rw [leftBlocks_insert h₀ hip hb]
      refine h.working.change_disk rfl rfl (hsound.clearBit hmem) (fun _ _ _ => rfl) (fun k hk _ => ?_)
      have hi := hsound.wf.iblock_lt hk
      exact Superblock.dinode_update _ (by omega)
    · rw [← h.sb] at hb
      exact update_of_ne (by omega) _ _

/-- One turn of the first loop, and the end of the second part. -/
theorem Truncating.wp_freeAddr (h : Truncating s₀ ip done s) (h₀ : s₀.Consistent)
    (hip : Agrees s₀.sb s₀.disk (s₀.icache ip)) (i : Fin (NDIRECT + 1)) (hi : .ofAddr i ∉ done) :
    wp (do
      bfreeIf ((s.icache ip).addrs i)
      modify (setAddr ip i 0)) (fun _ s' => Truncating s₀ ip (insert (.ofAddr i) done) s') R s := by
  obtain ⟨a, ha⟩ := h.icache
  refine (h.wp_bfreeIf h₀ hip hi ?_).bind (fun _ s' hs' => ?_)
  · rw [Place.addr_ofAddr, h.kept i hi]
  · obtain ⟨hwork, hsb, hicache, hdata, hlogged⟩ := hs'
    have haddrs : ∀ j, ((s'.setAddr ip i 0).icache ip).addrs j
        = if j = i then 0 else (s.icache ip).addrs j := by
      intro j
      rw [setAddr_toDinode, hicache]
      exact update_apply _ _ _ _
    rw [wp_modify]
    refine ⟨?_, hsb.trans h.sb, fun b hb => (hdata b hb).trans (h.data b hb),
      ⟨update a i 0, ?_⟩, fun j hj => ?_, fun j hj => ?_,
      fun c hc => (hlogged c hc).elim (h.logged c) .inr⟩
    · exact hwork.change_inode (x := (s'.icache ip).toDinode.setAddr i 0) rfl rfl rfl hwork.sound
        (fun _ _ _ => rfl)
    · rw [setAddr_icache, hicache, ha, update_self, update_idem]
      rfl
    · rw [haddrs]
      split
      · rfl
      · next hne =>
        refine h.cleared j ((Set.mem_insert_iff.mp hj).resolve_left (fun he => hne ?_))
        exact Place.ofAddr_injective he
    · obtain ⟨hne, hdone⟩ := not_or.mp (fun hor => hj (Set.mem_insert_iff.mpr hor))
      rw [haddrs, if_neg (fun he => hne (congrArg _ he)), h.kept j hdone]

/-- One turn of the second loop. -/
theorem Truncating.wp_freeEntry (h : Truncating s₀ ip done s) (h₀ : s₀.Consistent)
    (hip : Agrees s₀.sb s₀.disk (s₀.icache ip)) {ind : ℕ}
    (hind : (s₀.icache ip).addrs (Fin.last NDIRECT) = ind) (hne : ind ≠ 0) (j : Fin NINDIRECT)
    (hj : .entry j ∉ done) :
    wp (bfreeIf ((s.disk ind).word j)) (fun _ s' => Truncating s₀ ip (insert (.entry j) done) s') R s := by
  have hown : owner s₀.sb s₀.disk (s₀.sb.dinode s₀.disk) ((s₀.icache ip).inum, .indirect) = some ind := by
    rw [hip.owner_eq]
    exact blockOf_eq_some.mpr ⟨hind, fun hz => hne (hind.symm.trans hz)⟩
  have hdata := (h₀.sound.used_of_owner hown).1
  have haddr : ∀ i : Fin (NDIRECT + 1), Place.ofAddr i ≠ .entry j := by
    intro i
    refine Fin.lastCases ?_ (fun i => ?_) i
    · rw [Place.ofAddr_last]
      exact nofun
    · rw [Place.ofAddr_castSucc]
      exact nofun
  refine (h.wp_bfreeIf h₀ hip hj ?_).imp (fun _ s' hs' => ?_)
  · rw [Place.addr_entry s₀.disk j hind hne, h.data ind hdata]
  · obtain ⟨hwork, hsb, hicache, hdata, hlogged⟩ := hs'
    refine ⟨hwork, hsb.trans h.sb, fun b hb => (hdata b hb).trans (h.data b hb), ?_, fun i hi => ?_,
      fun i hi => ?_, fun c hc => (hlogged c hc).elim (h.logged c) .inr⟩
    · rw [hicache]
      exact h.icache
    · rw [hicache]
      exact h.cleared i ((Set.mem_insert_iff.mp hi).resolve_left (haddr i))
    · rw [hicache]
      exact h.kept i (fun hmem => hi (Set.mem_insert_of_mem _ hmem))

/-- The inode has no blocks left. -/
structure Emptied (s₀ : Fs) (ip : Ip) (s : Fs) : Prop where
  working : s.Working ip (update (s₀.sb.dinode s₀.disk) (s₀.icache ip).inum
    (s₀.icache ip).toDinode.truncated) ∅
  sb : s.sb = s₀.sb
  icache : s.icache = update s₀.icache ip { s₀.icache ip with addrs := fun _ => 0 }
  logged : ∀ c ∈ s.logged, c ∈ s₀.logged ∨ ∃ b < s₀.sb.size, c = s₀.sb.bblock b

theorem Truncating.emptied (h : Truncating s₀ ip done s)
    (hall : ∀ pl, pl ∉ done → pl.addr s₀.disk (s₀.icache ip).toDinode = 0) : Emptied s₀ ip s := by
  have hleft : leftBlocks s₀.disk (s₀.icache ip).toDinode done = ∅ := by
    refine Set.eq_empty_of_forall_notMem (fun b hb => ?_)
    obtain ⟨pl, hpl, hb⟩ := hb
    exact (blockOf_eq_some.mp hb).2 (hall pl hpl)
  obtain ⟨a, ha⟩ := h.icache
  have hself : (s.icache ip).addrs = a := by rw [ha, update_self]
  have haddrs : a = fun _ => 0 := by
    funext i
    rw [← hself]
    by_cases hi : Place.ofAddr i ∈ done
    · exact h.cleared i hi
    · rw [h.kept i hi, ← Place.addr_ofAddr s₀.disk]
      exact hall _ hi
  exact ⟨hleft ▸ h.working, h.sb, by rw [ha, haddrs], h.logged⟩

/-- The blocks that the inode had are free. -/
theorem Emptied.not_inUse (h : Emptied s₀ ip s) (h₀ : s₀.Consistent)
    (hdata : ∀ b, s₀.sb.nmeta ≤ b → s.disk b = s₀.disk b) {b : ℕ}
    (hb : owner s₀.sb s₀.disk (s₀.sb.dinode s₀.disk) ((s₀.icache ip).inum, pl) = some b) :
    s.sb.inUse s.disk b = false := by
  obtain ⟨hlow, hsize, -⟩ := h₀.sound.used_of_owner hb
  have hsound := h.working.sound
  rw [h.sb] at hsound ⊢
  by_contra huse
  have hused : b ∈ usedBlocks s₀.sb s.disk := ⟨hlow, hsize, Bool.eq_true_of_not_eq_false huse⟩
  obtain ⟨⟨k, pl'⟩, hk⟩ := ((hsound.ledger.mem_used b).mp hused).resolve_left (Set.notMem_empty b)
  by_cases hinum : k = (s₀.icache ip).inum
  · -- the inode itself has no addresses any more
    unfold owner at hk
    split at hk
    · rw [hinum, update_self, Dinode.addr_truncated] at hk
      cases hk
    · cases hk
  · -- another inode has what it had
    have hdisk : owner s₀.sb s.disk (s₀.sb.dinode s₀.disk)
        = owner s₀.sb s₀.disk (s₀.sb.dinode s₀.disk) :=
      owner_congr_disk fun j c hc => hdata c (h₀.sound.used_of_owner hc).1
    rw [owner_congr_at (update_of_ne hinum ..), hdisk] at hk
    exact hinum (congrArg Prod.fst (h₀.sound.ledger.unique hk hb))

theorem wp_itruncDirect (h : s₀.Consistent) (href : 0 < (s₀.icache ip).ref)
    (hip : Agrees s₀.sb s₀.disk (s₀.icache ip)) :
    wp (itruncDirect ip) (fun _ s' => Truncating s₀ ip (Set.range Place.direct) s') R s₀ := by
  have hloop : wp (itruncDirect ip) (fun _ s' => Truncating s₀ ip
      (Set.image Place.direct {i | i ∈ List.finRange NDIRECT}) s') R s₀ := by
    refine wp_forM_set (List.nodup_finRange NDIRECT)
      (I := fun done s => Truncating s₀ ip (Set.image Place.direct done) s)
      (fun done i s _ hi hI => ?_) ?_
    · rw [wp_bind, wp_get, Set.image_insert_eq, ← Place.ofAddr_castSucc]
      refine hI.wp_freeAddr h hip i.castSucc ?_
      rw [Place.ofAddr_castSucc]
      rintro ⟨j, hj, hji⟩
      rw [Place.direct.inj hji] at hj
      exact hi hj
    · rw [Set.image_empty]
      exact h.truncating href hip
  have hset : {i | i ∈ List.finRange NDIRECT} = Set.univ :=
    Set.eq_univ_of_forall List.mem_finRange
  rwa [hset, Set.image_univ] at hloop

/-- The second loop. -/
theorem wp_itruncEntries (h₀ : s₀.Consistent) (hip : Agrees s₀.sb s₀.disk (s₀.icache ip)) {ind : ℕ}
    (hind : (s₀.icache ip).addrs (Fin.last NDIRECT) = ind) (hne : ind ≠ 0)
    (h : Truncating s₀ ip (Set.range Place.direct) s) :
    wp ((List.range NINDIRECT).forM (fun j => do
      let s ← get
      bfreeIf ((s.disk ind).word j)))
      (fun _ s' => Truncating s₀ ip (Set.range Place.direct ∪ Set.range Place.entry) s') R s := by
  have hinv : ∀ {s}, Truncating s₀ ip (Set.range Place.direct
      ∪ Set.image Place.entry (Set.preimage Fin.val {j | j ∈ List.range NINDIRECT})) s →
      Truncating s₀ ip (Set.range Place.direct ∪ Set.range Place.entry) s := by
    have hset : Set.preimage Fin.val {j | j ∈ List.range NINDIRECT} = (Set.univ : Set (Fin NINDIRECT)) :=
      Set.eq_univ_of_forall (fun j => List.mem_range.mpr j.isLt)
    intro s hs
    rwa [hset, Set.image_univ] at hs
  refine wp.imp (wp_forM_set (List.nodup_range (n := NINDIRECT)) (I := fun done s => Truncating s₀ ip
    (Set.range Place.direct ∪ Set.image Place.entry (Set.preimage Fin.val done)) s)
    (fun done j s hj hnew hI => ?_) ?_) (fun _ _ hs => hinv hs)
  · have hj := List.mem_range.mp hj
    have hset : Set.preimage Fin.val (insert j done)
        = insert (⟨j, hj⟩ : Fin NINDIRECT) (Set.preimage Fin.val done) := by
      ext i
      exact or_congr_left (Fin.ext_iff (b := ⟨j, hj⟩)).symm
    rw [wp_bind, wp_get, hset, Set.image_insert_eq, Set.union_insert]
    refine hI.wp_freeEntry h₀ hip hind hne ⟨j, hj⟩ ?_
    rintro (⟨i, hi⟩ | ⟨i, hi, hij⟩)
    · cases hi
    · rw [Place.entry.inj hij] at hi
      exact hnew hi
  · rw [Set.preimage_empty, Set.image_empty, Set.union_empty]
    exact h

theorem wp_itruncIndirect (h₀ : s₀.Consistent) (hip : Agrees s₀.sb s₀.disk (s₀.icache ip))
    (h : Truncating s₀ ip (Set.range Place.direct) s) :
    wp (itruncIndirect ip) (fun _ s' => Emptied s₀ ip s' ∧
      ∀ b, s₀.sb.nmeta ≤ b → s'.disk b = s₀.disk b) R s := by
  have hnot : Place.ofAddr (Fin.last NDIRECT) ∉ Set.range Place.direct ∪ Set.range Place.entry := by
    rw [Place.ofAddr_last]
    rintro (⟨i, hi⟩ | ⟨j, hj⟩)
    · cases hi
    · cases hj
  have hind := h.kept (Fin.last NDIRECT) (fun hmem => hnot (.inl hmem))
  unfold itruncIndirect
  rw [wp_bind, wp_get]
  dsimp only
  rw [hind]
  split
  · next hzero =>
    refine ⟨h.emptied (fun pl hpl => ?_), h.data⟩
    cases pl with
    | direct i => exact absurd ⟨i, rfl⟩ hpl
    | indirect => exact hzero
    | entry j => exact if_pos hzero
  · next hne =>
    refine (wp_itruncEntries h₀ hip rfl hne h).bind (fun _ s' hs' => ?_)
    have hfree : bfree ((s₀.icache ip).addrs (Fin.last NDIRECT))
        = bfreeIf ((s'.icache ip).addrs (Fin.last NDIRECT)) := by
      unfold bfreeIf
      rw [hs'.kept _ hnot, if_neg hne]
    rw [hfree]
    refine (hs'.wp_freeAddr h₀ hip (Fin.last NDIRECT) hnot).imp (fun _ s'' hs'' => ?_)
    rw [Place.ofAddr_last] at hs''
    refine ⟨hs''.emptied (fun pl hpl => absurd ?_ hpl), hs''.data⟩
    cases pl with
    | direct i => exact .inr (.inl ⟨i, rfl⟩)
    | indirect => exact .inl rfl
    | entry j => exact .inr (.inr ⟨j, rfl⟩)

/-- **`itrunc` frees all the blocks** of the inode, and no other; no block of data changes, and
no other dinode. It logs blocks of the free map and the block of the dinode. -/
theorem wp_itrunc (h : s₀.Consistent) (href : 0 < (s₀.icache ip).ref)
    (hip : Agrees s₀.sb s₀.disk (s₀.icache ip)) :
    wp (itrunc ip) (fun _ s' => s'.Consistent ∧ s'.sb = s₀.sb ∧ s'.icache
      = update s₀.icache ip
        { s₀.icache ip with toDinode := (s₀.icache ip).toDinode.truncated }
      ∧ (∀ pl b, owner s₀.sb s₀.disk (s₀.sb.dinode s₀.disk) ((s₀.icache ip).inum, pl) = some b →
        s'.sb.inUse s'.disk b = false)
      ∧ (∀ b, s₀.sb.nmeta ≤ b → s'.disk b = s₀.disk b)
      ∧ (∀ k < s₀.sb.ninodes, k ≠ (s₀.icache ip).inum →
        s'.sb.dinode s'.disk k = s₀.sb.dinode s₀.disk k)
      ∧ ∀ c ∈ s'.logged, c ∈ s₀.logged ∨ (∃ b < s₀.sb.size, c = s₀.sb.bblock b)
        ∨ c = s₀.sb.iblock (s₀.icache ip).inum) R s₀ := by
  unfold itrunc
  refine (wp_itruncDirect h href hip).bind (fun _ s₁ h₁ => ?_)
  refine (wp_itruncIndirect h hip h₁).bind (fun _ s hs => ?_)
  obtain ⟨h₂, hdata⟩ := hs
  have hicache : (s.setInode ip (fun i => { i with size := 0 })).icache = update s₀.icache ip
      { s₀.icache ip with toDinode := (s₀.icache ip).toDinode.truncated } := by
    rw [setInode_icache, h₂.icache, update_self, update_idem]
    rfl
  have hself : (s.setInode ip (fun i => { i with size := 0 })).icache ip
      = { s₀.icache ip with toDinode := (s₀.icache ip).toDinode.truncated } := by
    rw [hicache, update_self]
  rw [wp_bind, wp_modify, wp_iupdate]
  refine ⟨Working.consistent_iupdate (h₂.working.change_inode rfl rfl rfl h₂.working.sound
    (fun _ _ _ => rfl)) ?_ ?_, h₂.sb, hicache, fun pl b hb => ?_, fun b hb => ?_, fun k hk hne => ?_,
    fun c hc => ?_⟩
  · rw [hself, update_self]
  · rw [hself]
    exact hip.type
  · have hsize := (h.sound.used_of_owner hb).2.1
    rw [← h₂.sb] at hsize
    rw [hself]
    exact (h₂.working.sound.inUse_iblock (by rw [h₂.sb]; exact hip.inum) hsize _).trans (h₂.not_inUse h hdata hb)
  · have hi := h.sound.wf.iblock_lt hip.inum
    have hmeta := h.sound.wf.bmapstart_lt
    rw [hself, writeBlock_disk, setInode_sb, h₂.sb, update_of_ne (by dsimp only; omega)]
    exact hdata b hb
  · have hfits : (s₀.icache ip).toDinode.truncated.Fits :=
      ⟨Nat.two_pow_pos 32, fun _ => Nat.two_pow_pos 32⟩
    have hinum : (s.icache ip).inum = (s₀.icache ip).inum := by rw [h₂.icache, update_self]
    rw [hself, writeBlock_disk, writeBlock_sb, setInode_sb]
    rw [Superblock.dinode_setDinode _ hfits, if_neg hne]
    have hother := h₂.working.others k (by rw [h₂.sb]; exact hk) (by rw [hinum]; exact hne)
    rw [update_of_ne hne] at hother
    exact hother
  · rw [hself, setInode_sb, h₂.sb] at hc
    exact (List.mem_append.mp hc).elim (fun hc => (h₂.logged c hc).imp_right .inl)
      (fun hc => .inr (.inr (List.mem_singleton.mp hc)))

end truncating

/-! ## `iput` -/

/-- What `iput` does after the inode has been freed, or not. -/
def put (ip : Ip) (s : Fs) : Fs :=
  (s.setInode ip (fun i => { i with locked := false })).setInode ip (fun i => { i with ref := i.ref - 1 })

theorem put_icache (s : Fs) (ip : Ip) : (s.put ip).icache = update s.icache ip
    { s.icache ip with locked := false, ref := (s.icache ip).ref - 1 } := by
  unfold put
  rw [setInode_icache, setInode_icache, update_self, update_idem]

variable {s : Fs} {ip : Ip}

/-- The entry is given up. -/
theorem Working.put_invalid {eff : ℕ → Dinode} (h : s.Working ip eff ∅)
    (hk : s.sb.dinode s.disk (s.icache ip).inum = eff (s.icache ip).inum) :
    ((s.setInode ip (fun i => { i with valid := false })).put ip).Consistent := by
  have hicache : ((s.setInode ip (fun i => { i with valid := false })).put ip).icache
      = update s.icache ip
        { s.icache ip with valid := false, locked := false, ref := (s.icache ip).ref - 1 } := by
    rw [put_icache, setInode_icache, update_self, update_idem]
  refine ⟨h.sound_disk hk, h.cached.change_entry rfl rfl hicache (fun _ hjp _ => hjp)
    (fun _ jp hjp hj he => ?_) (fun _ _ hv => nomatch hv) (fun hl => nomatch hl)⟩
  exact hjp (h.cached.unique hj h.here.1 he)

/-- An inode that is empty loses its type and its entry. -/
theorem Consistent.put_free (h : s.Consistent) (href : 0 < (s.icache ip).ref)
    (hip : Agrees s.sb s.disk (s.icache ip)) (haddrs : ∀ i, (s.icache ip).addrs i = 0)
    (hsize : (s.icache ip).size = 0) {R : FsHalt → Prop} :
    wp (do
      modify (setInode ip (fun i => { i with type := 0 }))
      iupdate ip
      modify (setInode ip (fun i => { i with valid := false })))
      (fun _ s' => (s'.put ip).Consistent) R s := by
  have hfits : ({ (s.icache ip).toDinode with type := 0 } : Dinode).Fits :=
    ⟨by show _ < _; rw [hsize]; exact Nat.two_pow_pos 32,
      fun i => by show _ < _; rw [haddrs]; exact Nat.two_pow_pos 32⟩
  have hnone : ∀ pl, owner s.sb s.disk (s.sb.dinode s.disk) ((s.icache ip).inum, pl) = none := by
    intro pl
    rw [hip.owner_eq, blockOf_eq_none]
    cases pl with
    | direct i => exact haddrs _
    | indirect => exact haddrs _
    | entry j => exact if_pos (haddrs _)
  have hwork : (s.setInode ip (fun i => { i with type := 0 })).Working ip
      (update (s.sb.dinode s.disk) (s.icache ip).inum
        { (s.icache ip).toDinode with type := 0 }) ∅ :=
    (h.working href hip.inum).change_inode rfl rfl rfl (h.sound.vacant hnone haddrs hsize)
      (fun _ _ hne => update_of_ne hne _ _)
  have hself : (s.setInode ip (fun i => { i with type := 0 })).icache ip
      = { s.icache ip with type := 0 } := update_self _ _ _
  rw [wp_bind, wp_modify, wp_bind, wp_iupdate, wp_modify, hself]
  have hup := hwork.iupdate hfits
  have hdinode := Working.dinode_iupdate (s.setInode ip (fun i => { i with type := 0 })) ip hfits
  rw [hself] at hup hdinode
  refine hup.put_invalid ?_
  rw [writeBlock_icache, hself, hdinode, update_self]

theorem wp_iputFree (h : s.Consistent) (href : 0 < (s.icache ip).ref) {R : FsHalt → Prop} :
    wp (iputFree ip) (fun _ s' => (s'.put ip).Consistent) R
      (s.setInode ip (fun i => { i with locked := true })) := by
  have hself : (s.setInode ip (fun i => { i with locked := true })).icache ip
      = { s.icache ip with locked := true } := update_self _ _ _
  unfold iputFree
  rw [wp_bind, wp_get, hself]
  split
  · next hfree =>
    obtain ⟨hvalid, -, -⟩ := hfree
    obtain ⟨hcons, hip⟩ := h.lock href hvalid
    have href' : 0 < ((s.setInode ip (fun i => { i with locked := true })).icache ip).ref := by
      rw [hself]
      exact href
    refine (wp_itrunc hcons href' hip).bind (fun _ s' hs' => ?_)
    obtain ⟨hcons', hsb, hicache, -⟩ := hs'
    have hself' : s'.icache ip = { s.icache ip with
        locked := true, toDinode := (s.icache ip).toDinode.truncated } := by
      rw [hicache, update_self, hself]
    refine hcons'.put_free ?_ ?_ ?_ ?_
    · rw [hself']
      exact href
    · refine hcons'.agrees ?_ ?_
      · rw [hself']
        exact href
      · rw [hself']
        exact hvalid
    · rw [hself']
      exact fun _ => rfl
    · rw [hself']
      rfl
  · rw [wp_pure]
    refine h.change_used href rfl rfl (i := { s.icache ip with
      locked := false, ref := (s.icache ip).ref - 1 }) ?_ rfl (fun hr hv => ?_) (fun hl => nomatch hl)
    · rw [put_icache, setInode_icache, update_self, update_idem]
    · obtain ⟨hinum, hcopy, htype⟩ := h.agrees href hv
      exact ⟨hinum, hcopy, htype⟩

/-- **`iput` of an inode that it does not free.** -/
theorem wp_iput_keep (h : ¬ ((s.icache ip).valid = true ∧ (s.icache ip).nlink = 0 ∧
    (s.icache ip).ref = 1)) :
    wp (iput ip) (fun _ s' => (s.icache ip).locked = false ∧
      s' = s.setInode ip (fun i => { i with locked := false, ref := i.ref - 1 }))
      (fun e => e = .waiting ∧ (s.icache ip).locked = true) s := by
  unfold iput acquiresleep iputFree releasesleep
  rw [wp_bind, wp_bind, wp_get]
  split
  · next hlocked => exact ⟨rfl, hlocked⟩
  · next hfree =>
    have hself : (s.setInode ip (fun i => { i with locked := true })).icache ip
        = { s.icache ip with locked := true } := update_self _ _ _
    rw [wp_modify, wp_bind, wp_bind, wp_get, hself, if_neg h, wp_pure, wp_bind, wp_modify, wp_modify,
      setInode_setInode, setInode_setInode]
    exact ⟨Bool.eq_false_of_not_eq_true hfree, rfl⟩

/-- **`iput` keeps the file system consistent.** -/
theorem wp_iput (h : s.Consistent) (href : 0 < (s.icache ip).ref) :
    wp (iput ip) (fun _ s' => s'.Consistent) (· = .waiting) s := by
  unfold iput acquiresleep releasesleep
  rw [wp_bind, wp_bind, wp_get]
  split
  · exact rfl
  · rw [wp_modify]
    exact (wp_iputFree h href).bind (fun _ s' hs' => hs')

end Fs

end Xv6
