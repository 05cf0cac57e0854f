import Xv6.Fs.Runs

/-!
# Files are arrays of bytes

A file is the array of its first `size` bytes. `writei` puts its bytes into
the array of one file, at an offset in it or at its end, and `readi` takes
bytes out. No other file changes, because no other file has a block in common
with it, and the blocks that `bmap` takes are in no file.
-/

namespace Xv6

open Function

open Wp

namespace Fs

/-- An array with the bytes from `off` on replaced by `src`. -/
def overwrite (a : List UInt8) (off : ℕ) (src : List UInt8) : List UInt8 :=
  a.take off ++ src ++ a.drop (off + src.length)

variable {off : ℕ}

theorem overwrite_map_range (f : ℕ → UInt8) {n : ℕ} (hoff : off ≤ n) (src : List UInt8) :
    overwrite ((List.range n).map f) off src
      = (List.range (max n (off + src.length))).map
        (fun p => if off ≤ p ∧ p < off + src.length then src.getD (p - off) 0 else f p) := by
  have hlen : (((List.range n).map f).take off).length = off := by simp [hoff]
  refine List.ext_getElem? (fun p => ?_)
  unfold overwrite
  rw [List.append_assoc, List.getElem?_map]
  by_cases hlt : p < off
  · rw [List.getElem?_append_left (by omega), List.getElem?_take_of_lt hlt, List.getElem?_map,
      List.getElem?_range (by omega), List.getElem?_range (by omega)]
    simp [hlt]
  · rw [List.getElem?_append_right (by omega), hlen]
    by_cases hmid : p < off + src.length
    · rw [List.getElem?_append_left (by omega), List.getElem?_range (by omega)]
      have hget : src[p - off]? = some (src.getD (p - off) 0) := by
        rw [List.getD_eq_getElem?_getD, List.getElem?_eq_getElem (by omega)]
        rfl
      rw [hget]
      simp [Nat.le_of_not_lt hlt, hmid]
    · rw [List.getElem?_append_right (by omega), List.getElem?_drop, List.getElem?_map]
      have hp : off + src.length + (p - off - src.length) = p := by omega
      rw [hp]
      by_cases hn : p < n
      · rw [List.getElem?_range hn, List.getElem?_range (by omega)]
        simp [hmid]
      · rw [List.getElem?_eq_none (by simp; omega), List.getElem?_eq_none (by simp; omega)]
        rfl

/-! ## What `bmap` leaves alone -/

section bmapped

variable {s s' : Fs} {ip : Ip} {eff : ℕ → Dinode} {X : Set ℕ} {b c : ℕ}
  {pl : Place}

/-- A direct block leaves the address of the indirect block alone. -/
theorem Bmapped.indirect_eq {i : Fin NDIRECT} (hb : Bmapped s ip (.direct i) b s') :
    (s'.icache ip).addrs (Fin.last NDIRECT) = (s.icache ip).addrs (Fin.last NDIRECT) := by
  cases hb with
  | found hb hne => rfl
  | direct hzero hb =>
    rw [setAddr_toDinode]
    exact update_of_ne (Fin.castSucc_ne_last i).symm _ _

theorem Bmapped.sb_eq (hb : Bmapped s ip pl b s') : s'.sb = s.sb := by
  cases hb <;> rfl

/-- A block in use is not free. -/
theorem Free.ne (hb : s.Free b) (hc : s.sb.inUse s.disk c = true) : c ≠ b := by
  rintro rfl
  rw [hb.2] at hc
  cases hc

variable (h : s.Working ip eff X)

include h

/-- A free block is a data block. -/
theorem Working.nmeta_le_of_free (hb : s.Free b) : s.sb.nmeta ≤ b := by
  by_contra hlt
  have huse := h.sound.metas b (Nat.lt_of_not_le hlt)
  rw [hb.2] at huse
  cases huse

theorem Working.take_disk_of_ne (hb : s.Free b) (hc : s.sb.nmeta ≤ c)
    (hne : c ≠ b) : (s.take b).disk c = s.disk c := by
  have hlt := h.sound.wf.bblock_lt hb.1
  show update (update s.disk _ _) b _ c = _
  rw [update_of_ne hne, update_of_ne (by omega)]

theorem Working.inUse_take (hb : s.Free b) (hc : c < s.sb.size) :
    s.sb.inUse (s.take b).disk c = if c = b then true else s.sb.inUse s.disk c := by
  have hdata := h.nmeta_le_of_free hb
  have hlt := h.sound.wf.bblock_lt hc
  show s.sb.inUse (update (update s.disk _ _) b _) c = _
  rw [Superblock.inUse_update _ (by omega)]
  exact Superblock.inUse_setBit s.disk b c

/-- A block that is free after another has been taken is a second block. -/
theorem Working.ne_of_free_take (hb : s.Free b) (hc : (s.take b).Free c) :
    b ≠ c := by
  refine hc.ne ?_
  show s.sb.inUse (s.take b).disk b = true
  rw [h.inUse_take hb hb.1, if_pos rfl]

/-- **`bmap` changes no block in use**, except the indirect block of `ip`. -/
theorem Bmapped.disk_eq (hm : Bmapped s ip pl b s') (hc : s.sb.nmeta ≤ c)
    (hsize : c < s.sb.size) (huse : s.sb.inUse s.disk c = true)
    (hind : c ≠ (s.icache ip).addrs (Fin.last NDIRECT)) : s'.disk c = s.disk c := by
  cases hm with
  | found hb hne => rfl
  | direct hzero hb => exact h.take_disk_of_ne hb hc (hb.ne huse)
  | entry hind' hne hzero hb =>
    rw [writeBlock_disk, update_of_ne (by rw [← hind']; exact hind)]
    exact h.take_disk_of_ne hb hc (hb.ne huse)
  | @both j b ind hzero hfree hb =>
    have ht := h.take hfree
    have huse' : s.sb.inUse (s.take ind).disk c = true := by
      rw [h.inUse_take hfree hsize, huse]
      exact ite_self _
    have hb' : (s.take ind).Free b := hb
    rw [writeBlock_disk, update_of_ne (hfree.ne huse)]
    have hstep : (((s.take ind).setAddr ip (Fin.last NDIRECT) ind).take b).disk c
        = ((s.take ind).take b).disk c := rfl
    rw [hstep, ht.take_disk_of_ne hb' hc (hb'.ne huse'), h.take_disk_of_ne hfree hc (hfree.ne huse)]

/-- The block that `bmap` returns was there or free. -/
theorem Bmapped.found_or_free (hb : Bmapped s ip pl b s') :
    (pl.addr s.disk (s.icache ip).toDinode = b ∧ b ≠ 0) ∨ s.Free b := by
  cases hb with
  | found hb hne => exact .inl ⟨hb, hne⟩
  | direct hzero hb => exact .inr hb
  | entry hind hne hzero hb => exact .inr hb
  | @both j b ind hzero hfree hb =>
    refine .inr ⟨hb.1, ?_⟩
    have huse : s.sb.inUse (s.take ind).disk b = false := hb.2
    rw [h.inUse_take hfree hb.1] at huse
    split at huse
    · cases huse
    · exact huse

variable (hm : eff (s.icache ip).inum = (s.icache ip).toDinode) (htype : (s.icache ip).type ≠ 0)

include hm htype

/-- An address in the inode is a block in use. -/
theorem Working.used_of_addr (pl : Place) (hpl : pl.addr s.disk (s.icache ip).toDinode ≠ 0) :
    owner s.sb s.disk eff ((s.icache ip).inum, pl)
      = some (pl.addr s.disk (s.icache ip).toDinode) := by
  rw [owner_eq ⟨h.here.2, by rw [hm]; exact htype⟩, hm]
  exact blockOf_eq_some.mpr ⟨rfl, hpl⟩

variable (hb : Bmapped s ip pl b s')

include hb

/-- **`bmap` keeps the addresses of the other blocks**, also those that are
zero. -/
theorem Bmapped.addr_of_ne {pl' : Place} (hne : pl' ≠ pl) (hind : pl' ≠ .indirect) :
    pl'.addr s'.disk (s'.icache ip).toDinode = pl'.addr s.disk (s.icache ip).toDinode := by
  cases hb with
  | found hb hne => rfl
  | @direct i b hzero hb =>
    have hlast : Fin.last NDIRECT ≠ i.castSucc := (Fin.castSucc_ne_last i).symm
    rw [setAddr_toDinode, setAddr_disk, take_icache]
    cases pl' with
    | direct j =>
      have hj : j.castSucc ≠ i.castSucc := fun he => hne (by rw [Fin.castSucc_injective _ he])
      exact update_of_ne hj _ _
    | indirect => exact absurd rfl hind
    | entry j =>
      have hlast' : ((s.icache ip).toDinode.setAddr i.castSucc b).addrs (Fin.last NDIRECT)
          = (s.icache ip).addrs (Fin.last NDIRECT) := update_of_ne hlast _ _
      by_cases hz : (s.icache ip).addrs (Fin.last NDIRECT) = 0
      · exact (if_pos (hlast'.trans hz)).trans (if_pos hz).symm
      · obtain ⟨hdata, -, huse⟩ := h.sound.used_of_owner (h.used_of_addr hm htype .indirect hz)
        rw [Place.addr_entry _ j rfl hz, Place.addr_entry _ j hlast' hz]
        exact congrArg (fun a => Block.word a j) (h.take_disk_of_ne hb hdata (hb.ne huse))
  | @entry i b ind hindeq hne' hzero hb =>
    cases pl' with
    | direct j => rfl
    | indirect => exact absurd rfl hind
    | entry j =>
      have hji : j.val ≠ i.val := fun he => hne (by rw [Fin.ext he])
      obtain ⟨hdata, -, huse⟩ := h.sound.used_of_owner (h.used_of_addr hm htype .indirect
        (fun hz => hne' (hindeq.symm.trans hz)))
      have hkeep : (s.take b).disk ind = s.disk ind := by
        rw [← hindeq]
        exact h.take_disk_of_ne hb hdata (hb.ne huse)
      rw [writeBlock_icache, take_icache, Place.addr_entry _ j hindeq hne',
        Place.addr_entry _ j hindeq hne', writeBlock_disk, update_self, hkeep,
        Block.word_setWord_of_ne _ _ hji]
  | @both i b ind hzero hfree hb =>
    have hstep : ((((s.take ind).setAddr ip (Fin.last NDIRECT) ind).take b).writeBlock ind
        (fun a => a.setWord i b)).icache ip
        = ((s.take ind).setAddr ip (Fin.last NDIRECT) ind).icache ip := rfl
    rw [hstep, setAddr_toDinode, take_icache]
    cases pl' with
    | direct j => exact update_of_ne (Fin.castSucc_ne_last j) _ _
    | indirect => exact absurd rfl hind
    | entry j =>
      -- the new indirect block has no entries
      have hji : j.val ≠ i.val := fun he => hne (by rw [Fin.ext he])
      have hlast : ((s.icache ip).toDinode.setAddr (Fin.last NDIRECT) ind).addrs (Fin.last NDIRECT)
          = ind := by
        show update (s.icache ip).addrs (Fin.last NDIRECT) ind (Fin.last NDIRECT) = ind
        rw [update_self]
      have hdata := h.nmeta_le_of_free hfree
      have hone := h.sound.wf.one_lt_nmeta
      have hkeep : (((s.take ind).setAddr ip (Fin.last NDIRECT) ind).take b).disk ind
          = Block.zero :=
        ((h.take hfree).take_disk_of_ne (s := s.take ind) hb hdata
          (h.ne_of_free_take hfree hb)).trans (take_disk_self s ind)
      rw [Place.addr_entry _ j hlast (by omega), writeBlock_disk, update_self, hkeep,
        Block.word_setWord_of_ne _ _ hji, Block.word_zero]
      exact (if_pos hzero).symm

/-- **`bmap` keeps the addresses** that are there. -/
theorem Bmapped.addr_eq {pl' : Place} (hne : pl'.addr s.disk (s.icache ip).toDinode ≠ 0) :
    pl'.addr s'.disk (s'.icache ip).toDinode = pl'.addr s.disk (s.icache ip).toDinode := by
  by_cases hpl : pl' = pl
  · subst hpl
    cases hb with
    | found hb hne => rfl
    | direct hzero hb => exact absurd hzero hne
    | entry hind hne' hzero hb => exact absurd ((Place.addr_entry _ _ hind hne').trans hzero) hne
    | both hzero hfree hb => exact absurd (if_pos hzero) hne
  · by_cases hind : pl' = .indirect
    · subst hind
      cases hb with
      | found hb hne => rfl
      | direct hzero hb =>
        rw [setAddr_toDinode]
        exact update_of_ne (Fin.castSucc_ne_last _).symm _ _
      | entry hind hne' hzero hb => rfl
      | both hzero hfree hb => exact absurd hzero hne
    · exact hb.addr_of_ne h hm htype hpl hind

/-- The block that `bmap` returns was there, or it is full of zeros. -/
theorem Bmapped.found_or_zero :
    (pl.addr s.disk (s.icache ip).toDinode = b ∧ s' = s) ∨ s'.disk b = Block.zero := by
  cases hb with
  | found hb hne => exact .inl ⟨hb, rfl⟩
  | direct hzero hb => exact .inr (take_disk_self s b)
  | @entry j b ind hind hne hzero hb =>
    have huse := (h.sound.used_of_owner (h.used_of_addr hm htype .indirect
      (fun hz => hne (hind.symm.trans hz)))).2.2
    have hne' : b ≠ ind := by
      rw [← hind]
      exact (hb.ne huse).symm
    refine .inr ?_
    rw [writeBlock_disk, update_of_ne hne']
    exact take_disk_self s b
  | @both j b ind hzero hfree hb =>
    refine .inr ?_
    rw [writeBlock_disk, update_of_ne (h.ne_of_free_take hfree hb).symm]
    exact take_disk_self _ b

/-- **`bmap` writes no dinode.** -/
theorem Bmapped.dinode_eq {k : ℕ} (hk : k < s.sb.ninodes) :
    s'.sb.dinode s'.disk k = s.sb.dinode s.disk k := by
  have hi := h.sound.wf.iblock_lt hk
  have hmeta := h.sound.wf.bmapstart_lt
  cases hb with
  | found hb hne => rfl
  | direct hzero hb => exact h.dinode_take hb hk
  | @entry i b ind hind hne hzero hb =>
    have hdata : s.sb.nmeta ≤ (s.icache ip).addrs (Fin.last NDIRECT) :=
      (h.sound.used_of_owner (h.used_of_addr hm htype .indirect
        (fun hz => hne (hind.symm.trans hz)))).1
    have hne : s.sb.iblock k ≠ ind := by omega
    exact (Superblock.dinode_update _ hne).trans (h.dinode_take hb hk)
  | @both i b ind hzero hfree hb =>
    have ht := h.take hfree
    have hdata := h.nmeta_le_of_free hfree
    have hb' : (s.take ind).Free b := hb
    have hne : s.sb.iblock k ≠ ind := by omega
    exact (Superblock.dinode_update _ hne).trans
      ((ht.dinode_take hb' hk).trans (h.dinode_take hfree hk))

end bmapped

/-! ## What `writei` has written -/

theorem byteAt_of_place {x : Dinode} {d : Disk} {p : ℕ} {pl : Place}
    (hpl : Place.ofBlock (p / BSIZE) = some pl) :
    x.byteAt d p = (d (pl.addr d x)).byte (p % BSIZE) := by
  unfold Dinode.byteAt
  rw [hpl]

namespace Writing

variable {s₀ s s' : Fs} {ip : Ip} {eff : ℕ → Dinode} {off : ℕ} {pl : Place} {b : ℕ}

/-- The places after `bmap` and the write: the one of this turn holds `b`. -/
theorem addr_writeBlock (hW : Writing s₀ ip s eff off) (hpl : pl ≠ .indirect)
    (hb : Bmapped s ip pl b s') (f : Block → Block) :
    pl.addr s'.disk (s'.icache ip).toDinode = b
      ∧ s.sb.nmeta ≤ b
      ∧ ∀ pl' : Place, pl'.addr (s'.writeBlock b f).disk (s'.icache ip).toDinode
        = pl'.addr s'.disk (s'.icache ip).toDinode := by
  obtain ⟨eff', hM⟩ := hW.working.bmapped hW.mirror hW.allocated hb
  obtain ⟨a, ha⟩ := hM.icache
  have hself : s'.icache ip = { s.icache ip with addrs := a } := by rw [ha, update_self]
  have hinum : (s'.icache ip).inum = (s.icache ip).inum := by rw [hself]
  have hmirror : eff' (s'.icache ip).inum = (s'.icache ip).toDinode := by rw [← hM.mirror, hself]
  have htype : (s'.icache ip).type ≠ 0 := by
    rw [hself]
    exact hW.type
  have howns : owner s'.sb s'.disk eff' ((s'.icache ip).inum, pl) = some b := by
    rw [hM.sb, hinum]
    exact hM.owns
  refine ⟨?_, ?_, Place.addr_congr (fun hind => update_of_ne (fun he => hpl ?_) _ _)⟩
  · rw [owner_eq ⟨hM.working.here.2, by rw [hmirror]; exact htype⟩, hmirror] at howns
    exact (blockOf_eq_some.mp howns).1
  · rw [← hM.sb]
    exact (hM.working.sound.used_of_owner howns).1
  · have hindirect := hM.working.used_of_addr hmirror htype .indirect hind
    rw [← he] at howns
    exact congrArg Prod.snd (hM.working.sound.ledger.unique howns hindirect)

/-- `bmap` and the write leave a block of another place alone. -/
theorem disk_eq (hW : Writing s₀ ip s eff off) (hb : Bmapped s ip pl b s') (f : Block → Block)
    {k : ℕ} {pl' : Place} {c : ℕ} (hc : owner s.sb s.disk eff (k, pl') = some c)
    (hind : (k, pl') ≠ ((s.icache ip).inum, .indirect)) :
    s'.disk c = s.disk c
      ∧ ((k, pl') ≠ ((s.icache ip).inum, pl) → (s'.writeBlock b f).disk c = s.disk c) := by
  have hown := fun pl hpl => hW.working.used_of_addr hW.mirror hW.type pl hpl
  obtain ⟨hdata, hsize, huse⟩ := hW.working.sound.used_of_owner hc
  have hci : c ≠ (s.icache ip).addrs (Fin.last NDIRECT) := by
    intro he
    have hone := hW.working.sound.wf.one_lt_nmeta
    have hown := hown .indirect (fun hz : (s.icache ip).addrs (Fin.last NDIRECT) = 0 => by omega)
    refine hind (hW.working.sound.ledger.unique hc ?_)
    rw [he]
    exact hown
  have hkeep := hb.disk_eq hW.working hdata hsize huse hci
  refine ⟨hkeep, fun hne => ?_⟩
  have hcb : c ≠ b := by
    rintro rfl
    rcases hb.found_or_free hW.working with ⟨haddr, hzero⟩ | hfree
    · have hown := hown pl (by rw [haddr]; exact hzero)
      rw [haddr] at hown
      exact hne (hW.working.sound.ledger.unique hc hown)
    · exact hfree.ne huse rfl
  rw [writeBlock_disk, update_of_ne hcb, hkeep]

/-- **The bytes after one turn.** -/
theorem byteAt_step (hW : Writing s₀ ip s eff off) (hpl : Place.ofBlock (off / BSIZE) = some pl)
    (hb : Bmapped s ip pl b s') (src : List UInt8) (hle : src.length ≤ BSIZE - off % BSIZE) {p : ℕ}
    (hp : p < max (s.icache ip).size (off + src.length)) :
    (s'.icache ip).byteAt (s'.writeBlock b (Block.setBytes (off % BSIZE) src)).disk p
      = if off ≤ p ∧ p < off + src.length then src.getD (p - off) 0
        else (s.icache ip).byteAt s.disk p := by
  have hplne := Place.ofBlock_ne_indirect hpl
  have hmod : p % BSIZE < BSIZE := Nat.mod_lt _ (by decide)
  obtain ⟨hplb, -, haddr⟩ := hW.addr_writeBlock hplne hb (Block.setBytes (off % BSIZE) src)
  split
  · next hin =>
    have hdiv : p / BSIZE = off / BSIZE := by
      unfold BSIZE at *
      omega
    have hoff : p % BSIZE - off % BSIZE = p - off := by
      unfold BSIZE at *
      omega
    rw [byteAt_of_place (by rw [hdiv]; exact hpl), haddr, hplb, writeBlock_disk,
      update_self, Block.byte_setBytes _ _ _ hmod, if_pos (by unfold BSIZE at *; omega),
      hoff]
  · next hout =>
    have hdiv : p / BSIZE * BSIZE ≤ p := Nat.div_mul_le_self p BSIZE
    obtain ⟨pl', hpl', hne⟩ := hW.covers (p / BSIZE) (by omega)
    have hown := hW.working.used_of_addr hW.mirror hW.type pl' hne
    have haddr' := hb.addr_eq hW.working hW.mirror hW.type hne
    have hplne' := Place.ofBlock_ne_indirect hpl'
    obtain ⟨hkeep, hother⟩ := hW.disk_eq hb (Block.setBytes (off % BSIZE) src) hown
      (fun he => hplne' (congrArg Prod.snd he))
    rw [byteAt_of_place hpl', byteAt_of_place hpl', haddr, haddr']
    by_cases hsame : pl' = pl
    · -- the block of this turn, outside of what is written
      rw [hsame] at haddr' hkeep hpl' ⊢
      have hbn := Place.ofBlock_injective hpl' hpl
      rw [← haddr', hplb] at hkeep
      rw [← haddr', hplb, writeBlock_disk, update_self, Block.byte_setBytes _ _ _ hmod,
        if_neg (by unfold BSIZE at *; omega), hkeep]
    · rw [hother (fun he => hsame (congrArg Prod.snd he))]

end Writing

/-- **After `i` bytes of `writei`**: the bytes of `ip` are those of `src` from
`off` on, and the old ones elsewhere; the blocks and the dinodes of the other
inodes are the old ones. -/
structure Filled (s₀ : Fs) (ip : Ip) (off : ℕ) (src : List UInt8) (i : ℕ) (s : Fs) : Prop where
  bytes : ∀ p < max (s₀.icache ip).size (off + i), (s.icache ip).byteAt s.disk p
    = if off ≤ p ∧ p < off + i then src.getD (p - off) 0 else (s₀.icache ip).byteAt s₀.disk p
  blocks : ∀ k pl c, k ≠ (s₀.icache ip).inum →
    owner s₀.sb s₀.disk (s₀.sb.dinode s₀.disk) (k, pl) = some c → s.disk c = s₀.disk c
  dinodes : ∀ k < s₀.sb.ninodes, k ≠ (s₀.icache ip).inum →
    s.sb.dinode s.disk k = s₀.sb.dinode s₀.disk k

namespace Filled

variable {s₀ s s' : Fs} {ip : Ip} {eff : ℕ → Dinode} {off i : ℕ} {src : List UInt8}

/-- The other inodes own what they owned. -/
theorem owner_eq (h : Filled s₀ ip off src i s) (hW : Writing s₀ ip s eff (off + i)) {k : ℕ}
    (hk : k ≠ (s₀.icache ip).inum) {pl : Place} {c : ℕ}
    (hc : owner s₀.sb s₀.disk (s₀.sb.dinode s₀.disk) (k, pl) = some c) :
    owner s.sb s.disk eff (k, pl) = some c := by
  have halloc : Allocated s₀.sb (s₀.sb.dinode s₀.disk) k := by
    by_contra hno
    rw [show owner s₀.sb s₀.disk (s₀.sb.dinode s₀.disk) (k, pl) = none from if_neg hno] at hc
    cases hc
  have heff : eff k = s₀.sb.dinode s₀.disk k := by
    rw [← h.dinodes k halloc.1 hk]
    refine (hW.working.others k ?_ ?_).symm
    · rw [hW.sb]
      exact halloc.1
    · rw [hW.inum_eq]
      exact hk
  have haddr : ∀ pl : Place, pl.addr s.disk (eff k) = pl.addr s₀.disk (s₀.sb.dinode s₀.disk k) := by
    rw [heff]
    refine Place.addr_congr (fun hind => h.blocks k .indirect _ hk ?_)
    rw [Xv6.owner_eq halloc]
    exact blockOf_eq_some.mpr ⟨rfl, hind⟩
  rw [Xv6.owner_eq halloc] at hc
  rw [Xv6.owner_eq ⟨by rw [hW.sb]; exact halloc.1, by rw [heff]; exact halloc.2⟩, haddr]
  exact hc

/-- **One turn of the loop.** -/
theorem step (h : Filled s₀ ip off src i s) (hW : Writing s₀ ip s eff (off + i)) {m : ℕ}
    (hle : m ≤ BSIZE - (off + i) % BSIZE) (hlen : i + m ≤ src.length) {pl : Place}
    (hpl : Place.ofBlock ((off + i) / BSIZE) = some pl) {b : ℕ} (hb : Bmapped s ip pl b s') :
    Filled s₀ ip off src (i + m) (s'.writeBlock b
      (Block.setBytes ((off + i) % BSIZE) ((src.drop i).take m))) := by
  have hinum := hW.inum_eq
  have hlen' : ((src.drop i).take m).length = m := by
    rw [List.length_take, List.length_drop]
    omega
  refine ⟨fun p hp => ?_, fun k pl' c hk hc => ?_, fun k hk hne => ?_⟩
  · have hstep := hW.byteAt_step hpl hb ((src.drop i).take m) (by rw [hlen']; exact hle) (p := p)
      (by rw [hlen', hW.size_eq]; omega)
    rw [writeBlock_icache, hstep, hlen']
    by_cases hin : off + i ≤ p ∧ p < off + i + m
    · rw [if_pos hin, if_pos (by omega), List.getD_eq_getElem?_getD,
        List.getElem?_take_of_lt (by omega), List.getElem?_drop, List.getD_eq_getElem?_getD]
      congr 2
      omega
    · rw [if_neg hin, h.bytes p (by omega)]
      exact if_congr (by omega) rfl rfl
  · have hc' := h.owner_eq hW hk hc
    have hk' : k ≠ (s.icache ip).inum := by
      rw [hinum]
      exact hk
    rw [(hW.disk_eq hb _ hc' (fun he => hk' (congrArg Prod.fst he))).2
      (fun he => hk' (congrArg Prod.fst he))]
    exact h.blocks k pl' c hk hc
  · obtain ⟨-, hdata, -⟩ := hW.addr_writeBlock (Place.ofBlock_ne_indirect hpl) hb
      (Block.setBytes ((off + i) % BSIZE) ((src.drop i).take m))
    rw [← hW.sb] at hk
    have hi := hW.working.sound.wf.iblock_lt hk
    have hmeta := hW.working.sound.wf.bmapstart_lt
    have hsame := hb.dinode_eq hW.working hW.mirror hW.type hk
    rw [← h.dinodes k (by rw [← hW.sb]; exact hk) hne, ← hsame]
    refine Superblock.dinode_update _ ?_
    rw [writeBlock_sb, hb.sb_eq]
    omega

theorem start (s₀ : Fs) (ip : Ip) (off : ℕ) (src : List UInt8) : Filled s₀ ip off src 0 s₀ :=
  ⟨fun _ _ => (if_neg (by omega)).symm, fun _ _ _ _ _ => rfl, fun _ _ _ => rfl⟩

end Filled

variable {s₀ : Fs} {ip : Ip} {eff : ℕ → Dinode}

/-- The loop of `writei` writes its bytes. -/
theorem wp_writeiLoop_filled (src : List UInt8) (h : Writing s₀ ip s₀ eff off)
    (hmax : off + src.length ≤ MAXFILE * BSIZE) :
    wp (writeiLoop ip src.length off src) (fun _ s' => (∃ eff', Writing s₀ ip s' eff' (off + src.length))
      ∧ Filled s₀ ip off src src.length s') (· = .outOfBlocks) s₀ := by
  refine wp_writeiLoop src h hmax (Filled.start s₀ ip off src) (fun {i _ _ _ _ _ _} hi hm hpl hW hb hF => ?_)
  have hmod : (off + i) % BSIZE < BSIZE := Nat.mod_lt _ (by decide)
  exact hF.step hW (by omega) (by omega) hpl hb

/-- What `grow` leaves alone. -/
theorem wp_grow_frame {s : Fs} {n : ℕ} (h : Writing s₀ ip s eff off)
    (hn : n = 0 → off ≤ (s.icache ip).size) {R : FsHalt → Prop} :
    wp (grow ip off n) (fun _ s' => (∀ c, s.sb.nmeta ≤ c → s'.disk c = s.disk c)
      ∧ (∀ k < s.sb.ninodes, k ≠ (s.icache ip).inum →
        s'.sb.dinode s'.disk k = s.sb.dinode s.disk k)
      ∧ s'.icache ip = { s.icache ip with size := max (s.icache ip).size off }) R s := by
  have hi := h.working.sound.wf.iblock_lt h.working.here.2
  have hmeta := h.working.sound.wf.bmapstart_lt
  unfold grow
  rw [wp_bind, wp_get]
  split
  · next hgrow =>
    have hself : (s.setInode ip (fun i => { i with size := off })).icache ip
        = { s.icache ip with size := off } := update_self _ _ _
    have hfits : ({ (s.icache ip).toDinode with size := off } : Dinode).Fits := by
      have hfits := h.setSize.sound.fits (k := (s.icache ip).inum)
        ⟨h.working.here.2, by rw [update_self]; exact h.type⟩
      rwa [update_self] at hfits
    rw [wp_bind, wp_modify, wp_iupdate, hself]
    refine ⟨fun c hc => update_of_ne ?_ _ _, fun k hk hne => ?_, ?_⟩
    · show c ≠ s.sb.iblock (s.icache ip).inum
      omega
    · exact (Superblock.dinode_setDinode s.disk hfits k).trans (if_neg hne)
    · rw [writeBlock_icache, hself, Nat.max_eq_right (by omega)]
  · refine ⟨fun _ _ => rfl, fun _ _ _ => rfl, ?_⟩
    rw [Nat.max_eq_left (by omega)]

/-- Two views of a file have the same bytes where its blocks are there. -/
theorem byteAt_congr {d d' : Disk} {x x' : Dinode} (hx : x'.addrs = x.addrs)
    (hd : ∀ pl : Place, pl.addr d x ≠ 0 → d' (pl.addr d x) = d (pl.addr d x)) {p : ℕ} {pl : Place}
    (hpl : Place.ofBlock (p / BSIZE) = some pl) (hne : pl.addr d x ≠ 0) :
    x'.byteAt d' p = x.byteAt d p := by
  have haddr : pl.addr d' x' = pl.addr d x := by
    have hx' : pl.addr d' x' = pl.addr d' x := by
      cases pl <;> simp only [Place.addr, hx]
    rw [hx', Place.addr_congr (fun hind => hd .indirect hind)]
  rw [byteAt_of_place hpl, byteAt_of_place hpl, haddr, hd pl hne]

/-- **The arrays after `writei`**, from what its loop and `grow` do. -/
theorem fileBytes_of_filled {s s' : Fs} {src : List UInt8} (h₀ : s₀.Consistent)
    (hip : Agrees s₀.sb s₀.disk (s₀.icache ip)) (hoff : off ≤ (s₀.icache ip).size)
    (hW : Writing s₀ ip s eff (off + src.length)) (hF : Filled s₀ ip off src src.length s)
    (hdata : ∀ c, s.sb.nmeta ≤ c → s'.disk c = s.disk c)
    (hdinodes : ∀ k < s.sb.ninodes, k ≠ (s.icache ip).inum →
      s'.sb.dinode s'.disk k = s.sb.dinode s.disk k)
    (hself : s'.icache ip = { s.icache ip with size := max (s.icache ip).size (off + src.length) })
    (hcopy : (s'.icache ip).toDinode = s'.sb.dinode s'.disk (s'.icache ip).inum) :
    s'.fileBytes (s₀.icache ip).inum = overwrite (s₀.fileBytes (s₀.icache ip).inum) off src
      ∧ ∀ k ≠ (s₀.icache ip).inum, Allocated s₀.sb (s₀.sb.dinode s₀.disk) k →
        s'.fileBytes k = s₀.fileBytes k := by
  constructor
  · have hinum : (s'.icache ip).inum = (s₀.icache ip).inum := by rw [hself, ← hW.inum_eq]
    have hsize : (s'.icache ip).size = max (s₀.icache ip).size (off + src.length) := by
      rw [hself, hW.size_eq]
    unfold fileBytes
    rw [← hinum, ← hcopy, hsize, hinum, ← hip.copy, overwrite_map_range _ hoff]
    refine List.map_congr_left (fun p hp => ?_)
    have hp := List.mem_range.mp hp
    have hdiv : p / BSIZE * BSIZE ≤ p := Nat.div_mul_le_self p BSIZE
    rw [← hF.bytes p hp]
    obtain ⟨pl, hpl, hne⟩ := hW.covers (p / BSIZE) (by rw [hW.size_eq]; omega)
    refine byteAt_congr (by rw [hself]) (fun pl hpl => hdata _ ?_) hpl hne
    exact (hW.working.sound.used_of_owner (hW.working.used_of_addr hW.mirror hW.type pl hpl)).1
  · intro k hk halloc
    have hd : s'.sb.dinode s'.disk k = s₀.sb.dinode s₀.disk k := by
      rw [← hF.dinodes k halloc.1 hk]
      refine hdinodes k ?_ ?_
      · rw [hW.sb]
        exact halloc.1
      · rw [hW.inum_eq]
        exact hk
    unfold fileBytes
    rw [hd]
    refine List.map_congr_left (fun p hp => ?_)
    have hp := List.mem_range.mp hp
    obtain ⟨pl, hpl, hne⟩ := h₀.sound.full k halloc (p / BSIZE)
      ((Nat.div_mul_le_self p BSIZE).trans_lt hp)
    rw [owner_eq halloc, Ne, blockOf_eq_none] at hne
    refine byteAt_congr rfl (fun pl hpl => ?_) hpl hne
    have hown : owner s₀.sb s₀.disk (s₀.sb.dinode s₀.disk) (k, pl)
        = some (pl.addr s₀.disk (s₀.sb.dinode s₀.disk k)) := by
      rw [owner_eq halloc]
      exact blockOf_eq_some.mpr ⟨rfl, hpl⟩
    rw [hdata _ (by rw [hW.sb]; exact (h₀.sound.used_of_owner hown).1)]
    exact hF.blocks k pl _ hk hown

/-! ## The arrays -/

section arrays

variable {s : Fs} {ip : Ip} {off : ℕ}

/-- `writei` refuses to leave a hole, to overflow and to pass the largest size. -/
theorem writei_refused (hdev : (s.icache ip).type ≠ T_DEV) (hoff : off < 2 ^ 32) {src : List UInt8}
    (hsrc : src.length < 2 ^ 32) (hbad : (s.icache ip).size < off ∨ 2 ^ 32 ≤ off + src.length
      ∨ MAXFILE * BSIZE < off + src.length) : writei ip src off s = .ok (-1, s) := by
  have hrun : wp (writei ip src off) (fun n s' => n = -1 ∧ s' = s) (fun _ => False) s := by
    unfold writei
    rw [wp_bind, wp_get]
    dsimp only
    rw [if_neg hdev]
    split
    · exact ⟨rfl, rfl⟩
    · rw [if_pos (by omega)]
      exact ⟨rfl, rfl⟩
  cases hw : writei ip src off s with
  | error e => exact (hrun.error hw).elim
  | ok r =>
    obtain ⟨hn, hs⟩ := hrun.ok hw
    rw [← hn, ← hs]

/-- **`writei` overwrites the array** of its file, and no other; the other fields of its inode
stay. -/
theorem wp_writei_bytes (h : s.Consistent) (hl : (s.icache ip).locked = true)
    (hdev : (s.icache ip).type ≠ T_DEV) {src : List UInt8} (hoff : off ≤ (s.icache ip).size)
    (hmax : off + src.length ≤ MAXFILE * BSIZE) :
    wp (writei ip src off) (fun n s' => n = src.length
      ∧ s'.fileBytes (s.icache ip).inum = overwrite (s.fileBytes (s.icache ip).inum) off src
      ∧ (∀ k ≠ (s.icache ip).inum, Allocated s.sb (s.sb.dinode s.disk) k →
        s'.fileBytes k = s.fileBytes k)
      ∧ (∀ k < s.sb.ninodes, k ≠ (s.icache ip).inum →
        s'.sb.dinode s'.disk k = s.sb.dinode s.disk k)
      ∧ ∃ a n, s'.icache ip = { s.icache ip with addrs := a, size := n }) (· = .outOfBlocks) s := by
  obtain ⟨href, hvalid⟩ := h.cached.locked hl
  have hip := h.agrees href hvalid
  have hword : MAXFILE * BSIZE < 2 ^ 31 := by decide
  have hsum : (off + src.length) % 2 ^ 32 = off + src.length := Nat.mod_eq_of_lt (by omega)
  have hstart := h.writing href hip hoff
  unfold writei
  rw [wp_bind, wp_get]
  dsimp only
  rw [if_neg hdev, hsum, if_neg (by omega), if_neg (by omega)]
  refine (wp_writeiLoop_filled src hstart hmax).bind (fun _ s₁ h₁ => ?_)
  obtain ⟨⟨eff, hW⟩, hF⟩ := h₁
  have hsize := hW.size_eq
  refine ((wp_grow hW (n := src.length) (by omega)).and
    (wp_grow_frame hW (n := src.length) (by omega) (R := fun _ => True))).bind (fun _ s' h' => ?_)
  obtain ⟨⟨hcons, hsb, x, hicache⟩, hdata, hdinodes, hself⟩ := h'
  have hkept : s'.icache ip = { s.icache ip with toDinode := x } := by
    rw [hicache, update_self]
  have hcopy : (s'.icache ip).toDinode = s'.sb.dinode s'.disk (s'.icache ip).inum := by
    refine (hcons.agrees ?_ ?_).copy
    · rw [hkept]
      exact href
    · rw [hkept]
      exact hvalid
  obtain ⟨hbytes, hothers⟩ := fileBytes_of_filled h hip hoff hW hF hdata hdinodes hself hcopy
  obtain ⟨a, ha⟩ := hW.icache
  rw [wp_pure]
  refine ⟨intOfWord_of_lt (by omega), hbytes, hothers, fun k hk hne => ?_, a,
    max (s₁.icache ip).size (off + src.length), ?_⟩
  · rw [← hF.dinodes k hk hne]
    exact hdinodes k (by rw [hW.sb]; exact hk) (by rw [hW.inum_eq]; exact hne)
  · rw [hself, ha, update_self]

theorem readi_refused (hdev : (s.icache ip).type ≠ T_DEV) (hoff : off < 2 ^ 32) {n : ℕ}
    (hn : n < 2 ^ 32) (hbad : (s.icache ip).size < off ∨ 2 ^ 32 ≤ off + n) :
    readi ip off n s = .ok ((-1, []), s) := by
  have hrun : wp (readi ip off n) (fun r s' => r = (-1, []) ∧ s' = s) (fun _ => False) s := by
    unfold readi
    rw [wp_bind, wp_get]
    dsimp only
    rw [if_neg hdev, if_pos (by omega)]
    exact ⟨rfl, rfl⟩
  cases hr : readi ip off n s with
  | error e => exact (hrun.error hr).elim
  | ok r =>
    obtain ⟨hval, hs⟩ := hrun.ok hr
    rw [← hval, ← hs]

end arrays

/-- **Files are arrays of bytes**, in every state that a consistent file system
reaches, for the inodes that are locked and no devices. -/
theorem arrays_of_exec {s₀ s : Fs} {es : List FsEvent} (h₀ : s₀.Consistent)
    (hrun : s₀.exec es = .ok s) {ip : Ip} (hl : (s.icache ip).locked = true)
    (hdev : (s.icache ip).type ≠ T_DEV) (off : ℕ) (hoff : off < 2 ^ 32) :
    (∀ src : List UInt8, src.length < 2 ^ 32 →
      ((s.fileBytes (s.icache ip).inum).length < off ∨ 2 ^ 32 ≤ off + src.length
        ∨ MAXFILE * BSIZE < off + src.length → writei ip src off s = .ok (-1, s))
      ∧ (off ≤ (s.fileBytes (s.icache ip).inum).length → off + src.length ≤ MAXFILE * BSIZE →
        writei ip src off s = .error .outOfBlocks
        ∨ ∃ s', writei ip src off s = .ok (src.length, s')
          ∧ s'.fileBytes (s.icache ip).inum = overwrite (s.fileBytes (s.icache ip).inum) off src
          ∧ (s'.fileBytes (s.icache ip).inum).length
            = max (s.fileBytes (s.icache ip).inum).length (off + src.length)
          ∧ ∀ k ≠ (s.icache ip).inum, Allocated s.sb (s.sb.dinode s.disk) k →
            s'.fileBytes k = s.fileBytes k))
    ∧ ∀ n < 2 ^ 32,
      ((s.fileBytes (s.icache ip).inum).length < off ∨ 2 ^ 32 ≤ off + n →
        readi ip off n s = .ok ((-1, []), s))
      ∧ (off ≤ (s.fileBytes (s.icache ip).inum).length → off + n < 2 ^ 32 →
        readi ip off n s = .ok (((((s.fileBytes (s.icache ip).inum).drop off).take n).length,
          ((s.fileBytes (s.icache ip).inum).drop off).take n), s)) := by
  have h := Machine.exec_invariant Consistent.step h₀ hrun
  have hlen := length_fileBytes h hl
  rw [hlen]
  refine ⟨fun src hsrc => ⟨writei_refused hdev hoff hsrc, fun hle hmax => ?_⟩,
    fun n hn => ⟨readi_refused hdev hoff hn, fun hle hsum => ?_⟩⟩
  · have hwrite := wp_writei_bytes h hl hdev hle hmax
    cases hw : writei ip src off s with
    | error e =>
      rw [show e = .outOfBlocks from hwrite.error hw]
      exact .inl rfl
    | ok r =>
      obtain ⟨hval, hbytes, hothers, -⟩ := hwrite.ok hw
      refine .inr ⟨r.2, by rw [← hval], hbytes, ?_, hothers⟩
      rw [hbytes]
      unfold overwrite
      rw [List.length_append, List.length_append, List.length_take, List.length_drop, hlen]
      omega
  · rw [readi_bytes h hl hdev hle hsum]
    have hcount : (((s.fileBytes (s.icache ip).inum).drop off).take n).length
        = min n ((s.icache ip).size - off) := by
      rw [List.length_take, List.length_drop, hlen]
    rw [hcount]

/-- A file with two bytes is made, and stays locked. -/
def smallFile : List FsEvent :=
  [.ialloc T_FILE, .ilock ⟨0, NINODE_pos⟩, .writei ⟨0, NINODE_pos⟩ [72, 105] 0]

theorem exec_smallFile : ∃ s, smallFs.exec smallFile = .ok s
    ∧ (s.icache ⟨0, by decide⟩).locked = true ∧ (s.icache ⟨0, by decide⟩).type = T_FILE
    ∧ s.fileBytes (s.icache ⟨0, by decide⟩).inum = [72, 105] := by
  decide +kernel

/-- The last byte of the file, asked for with a count that overflows. -/
theorem readi_overflow_smallFile : ∃ s, smallFs.exec smallFile = .ok s
    ∧ (s.icache ⟨0, by decide⟩).locked = true ∧ (s.icache ⟨0, by decide⟩).type ≠ T_DEV
    ∧ ((s.fileBytes (s.icache ⟨0, by decide⟩).inum).drop 1).take (2 ^ 32 - 1) = [105]
    ∧ readi ⟨0, by decide⟩ 1 (2 ^ 32 - 1) s = .ok ((-1, []), s)
    ∧ readi ⟨0, by decide⟩ 1 (2 ^ 32 - 1) s ≠ .ok ((1, [105]), s) := by
  obtain ⟨s, hexec, hl, htype, hbytes⟩ := exec_smallFile
  have hdev : (s.icache ⟨0, by decide⟩).type ≠ T_DEV := by
    rw [htype]
    decide
  have hread : readi ⟨0, by decide⟩ 1 (2 ^ 32 - 1) s = .ok ((-1, []), s) :=
    readi_refused hdev (by decide) (by decide) (.inr (by decide))
  refine ⟨s, hexec, hl, hdev, ?_, hread, ?_⟩
  · rw [hbytes]
    exact List.take_of_length_le (by decide)
  · rw [hread]
    exact nofun

theorem arrays_of_exec_smallFile : ∃ s, smallFs.exec smallFile = .ok s
    ∧ readi ⟨0, by decide⟩ 1 5 s = .ok ((1, [105]), s) := by
  obtain ⟨s, hexec, hl, htype, hbytes⟩ := exec_smallFile
  have hread := ((arrays_of_exec smallFs_consistent hexec hl (by rw [htype]; decide) 1
    (by decide)).2 5 (by decide)).2
  rw [hbytes] at hread
  exact ⟨s, hexec, hread (by decide) (by decide)⟩

end Fs

end Xv6
