import Xv6.Mkfs.Mkfs
import Xv6.Fs.Bytes
import Mathlib.Algebra.BigOperators.Group.Finset.Piecewise
import Mathlib.Algebra.Order.BigOperators.Group.Finset

/-!
# Appending to a file of the image

`iappend` is a second copy of the rules of the kernel's `bmap`. With the free
map that `balloc` is going to write, the image is a disk that the kernel could
mount at any time, and a turn of `iappend` does to it what a turn of `writei`
does: the next block counted up is the block that the kernel's allocator would
return, and it is full of zeros already. So what is known of `writei` holds of
`iappend`. What is left is to count the blocks, which the kernel does not
have to do.
-/

namespace Xv6

open Function

open Wp

/-- The blocks that a file of `n` bytes takes. -/
def blocksFor (n : ℕ) : ℕ :=
  (n + (BSIZE - 1)) / BSIZE + if NDIRECT * BSIZE < n then 1 else 0

theorem blocksFor_zero : blocksFor 0 = 0 := by decide

/-- A longer file takes at least as many blocks. -/
theorem blocksFor_mono {m n : ℕ} (h : m ≤ n) : blocksFor m ≤ blocksFor n := by
  unfold blocksFor
  refine Nat.add_le_add (Nat.div_le_div_right (by omega)) ?_
  split_ifs <;> omega

/-- The blocks that a file takes when it grows in its last block, or by one. -/
theorem blocksFor_add {off m : ℕ} (hm : 0 < m) (hle : m ≤ BSIZE - off % BSIZE) :
    blocksFor (off + m) = blocksFor off + (if off % BSIZE = 0 then 1 else 0)
      + if off = NDIRECT * BSIZE then 1 else 0 := by
  unfold blocksFor
  unfold NDIRECT BSIZE at *
  split_ifs <;> omega

/-- **No block past `n` bytes** is there, and no indirect block before there
is use for it. -/
structure Tight (d : Disk) (x : Dinode) (n : ℕ) : Prop where
  places : ∀ {bn pl}, Place.ofBlock bn = some pl → n ≤ bn * BSIZE → pl.addr d x = 0
  indirect : n ≤ NDIRECT * BSIZE → x.addrs (Fin.last NDIRECT) = 0

/-- **A file with contents `c`**: the bytes past its end are zeros. -/
structure Holding (d : Disk) (x : Dinode) (c : List UInt8) : Prop where
  size : x.size = c.length
  bytes : ∀ p, x.byteAt d p = c.getD p 0
  tight : Tight d x c.length

theorem Place.addr_setSize (d : Disk) (x : Dinode) (n : ℕ) (pl : Place) :
    pl.addr d { x with size := n } = pl.addr d x := by
  cases pl <;> rfl

theorem Dinode.byteAt_setSize (x : Dinode) (d : Disk) (n p : ℕ) :
    ({ x with size := n } : Dinode).byteAt d p = x.byteAt d p := by
  unfold byteAt
  simp only [Place.addr_setSize]

section frame

variable {S : Superblock} {d d' : Disk} {eff : ℕ → Dinode} {k : ℕ}

/-- The addresses of an inode when its blocks stay. -/
theorem addr_of_owned (hk : Allocated S eff k)
    (hown : ∀ pl c, owner S d eff (k, pl) = some c → d' c = d c) (pl : Place) :
    pl.addr d' (eff k) = pl.addr d (eff k) := by
  refine Place.addr_congr (fun hind => hown .indirect _ ?_) pl
  rw [owner_eq hk]
  exact blockOf_eq_some.mpr ⟨rfl, hind⟩

/-- A file stays when its blocks stay, and the one that stands for no block. -/
theorem Holding.congr {c : List UInt8} (h : Holding d (eff k) c) (hk : Allocated S eff k)
    (hzero : d' 0 = d 0) (hown : ∀ pl b, owner S d eff (k, pl) = some b → d' b = d b) :
    Holding d' (eff k) c := by
  have haddr := addr_of_owned hk hown
  have hsame : ∀ pl : Place, d' (pl.addr d (eff k)) = d (pl.addr d (eff k)) := by
    intro pl
    have hpl := hown pl (pl.addr d (eff k))
    rw [owner_eq hk, blockOf_eq_some] at hpl
    grind
  refine ⟨h.size, fun p => ?_, ⟨fun hpl hn => ?_, h.tight.indirect⟩⟩
  · rw [← h.bytes p]
    unfold Dinode.byteAt
    simp only [haddr, hsame]
  · rw [haddr]
    exact h.tight.places hpl hn

end frame

/-! ## One turn of `writei` at the end of a file -/

namespace Fs.Writing

variable {s₀ s s' : Fs} {ip : Ip} {eff : ℕ → Dinode} {off b : ℕ} {pl : Place}

/-- No block past the new end is there. -/
theorem tight_step (hW : Writing s₀ ip s eff off) (hpl : Place.ofBlock (off / BSIZE) = some pl)
    (hb : Bmapped s ip pl b s') (f : Block → Block) (ht : Tight s.disk (s.icache ip).toDinode off)
    {m : ℕ} (hm : 0 < m) :
    Tight (s'.writeBlock b f).disk (s'.icache ip).toDinode (off + m) := by
  obtain ⟨-, -, haddr⟩ := hW.addr_writeBlock (Place.ofBlock_ne_indirect hpl) hb f
  have hdiv : off / BSIZE * BSIZE ≤ off := Nat.div_mul_le_self off BSIZE
  refine ⟨fun {bn pl'} hpl' hle => ?_, fun hle => ?_⟩
  · have hne : pl' ≠ pl := by
      rintro rfl
      rw [Place.ofBlock_injective hpl' hpl] at hle
      omega
    rw [haddr, hb.addr_of_ne hW.working hW.mirror hW.type hne (Place.ofBlock_ne_indirect hpl')]
    exact ht.places hpl' (by omega)
  · -- the turn is on a direct block
    have hdirect : off / BSIZE < NDIRECT := Nat.div_lt_of_lt_mul (by rw [Nat.mul_comm]; omega)
    unfold Place.ofBlock at hpl
    rw [dif_pos hdirect] at hpl
    cases hpl
    rw [hb.indirect_eq]
    exact ht.indirect (by omega)

/-- The bytes past the new end are zeros. -/
theorem zeros_step (hW : Writing s₀ ip s eff off) (hpl : Place.ofBlock (off / BSIZE) = some pl)
    (hb : Bmapped s ip pl b s') (src : List UInt8) (ht : Tight s.disk (s.icache ip).toDinode off)
    (hzeros : ∀ q, off ≤ q → (s.icache ip).byteAt s.disk q = 0)
    (hnull : (s'.writeBlock b (Block.setBytes (off % BSIZE) src)).disk 0 = Block.zero) {q : ℕ}
    (hq : off + src.length ≤ q) :
    (s'.icache ip).byteAt (s'.writeBlock b (Block.setBytes (off % BSIZE) src)).disk q = 0 := by
  obtain ⟨hplb, -, haddr⟩ := hW.addr_writeBlock (Place.ofBlock_ne_indirect hpl) hb
    (Block.setBytes (off % BSIZE) src)
  have hmod : q % BSIZE < BSIZE := Nat.mod_lt _ (by decide)
  have hold := hzeros q (by omega)
  unfold Dinode.byteAt at hold ⊢
  split
  · rfl
  · next pl' hpl' =>
    rw [hpl'] at hold
    dsimp only at hold
    rw [haddr]
    by_cases hsame : pl' = pl
    · -- the block of this turn, after what is written
      subst hsame
      have hbn := Place.ofBlock_injective hpl' hpl
      rw [hplb, writeBlock_disk, update_self, Block.byte_setBytes _ _ _ hmod,
        if_neg (by unfold BSIZE at *; omega)]
      rcases hb.found_or_zero hW.working hW.mirror hW.type with ⟨hfound, rfl⟩ | hzero
      · rw [← hfound]
        exact hold
      · rw [hzero]
        exact Bytes.byte_zero _
    · -- a block that is not there
      have hne : q / BSIZE ≠ off / BSIZE := by grind
      have hle : off ≤ q / BSIZE * BSIZE := by
        unfold BSIZE at *
        omega
      rw [hb.addr_of_ne hW.working hW.mirror hW.type hsame (Place.ofBlock_ne_indirect hpl'),
        ht.places hpl' hle, hnull]
      exact Bytes.byte_zero _

end Fs.Writing

namespace Mkfs

/-! ## The image with its free map -/

theorem sb_wf : sb.Wf := ⟨by decide, by decide, by decide, by decide⟩

theorem bmapstart_lt : sb.bmapstart < nmeta := by decide

theorem nmeta_le : nmeta ≤ FSSIZE := by decide

theorem bitmap_succ (used : ℕ) : bitmap (used + 1) = (bitmap used).setBit used := by
  unfold bitmap
  rw [List.range_succ, List.foldl_append]
  rfl

variable {b : ℕ}

/-- **The free map** has the first blocks in use. -/
theorem bit_bitmap {used : ℕ} (hused : used ≤ BPB) (hb : b < BPB) :
    (bitmap used).bit b = decide (b < used) := by
  induction used with
  | zero =>
    have hbyte : Block.zero.byte (b / 8) = 0 := Bytes.byte_zero _
    show Block.zero.bit b = false
    unfold Block.bit
    rw [hbyte, UInt8.zero_and]
    rfl
  | succ used ih =>
    have hdiv : used / 8 < BSIZE ∧ b / 8 < BSIZE := by
      unfold BPB at *
      omega
    rw [bitmap_succ]
    grind [Block.bit_setBit_self, Block.bit_setBit_of_ne]

/-- The image with the free map that `balloc` is going to write. -/
def mapped (m : Mkfs) : Disk := update m.img sb.bmapstart (bitmap m.freeblock)

theorem mapped_of_ne (m : Mkfs) (hb : b ≠ sb.bmapstart) : m.mapped b = m.img b :=
  update_of_ne hb _ _

theorem mapped_data (m : Mkfs) (hb : nmeta ≤ b) : m.mapped b = m.img b :=
  m.mapped_of_ne (by have := bmapstart_lt; omega)

/-- A write outside the free map. -/
theorem mapped_put (m : Mkfs) (hb : b ≠ sb.bmapstart) (buf : Block) :
    (m.put b buf).mapped = update m.mapped b buf := by
  show update (update _ _ _) _ _ = update (update _ _ _) _ _
  rw [update_comm hb]
  rfl

theorem mapped_iblock (m : Mkfs) {k : ℕ} (hk : k < NINODES) :
    m.mapped (sb.iblock k) = m.img (sb.iblock k) :=
  m.mapped_of_ne (sb_wf.iblock_lt hk).2.ne

/-- The blocks before the data are on the one block of the free map. -/
theorem bblock_eq (hb : b < FSSIZE) : sb.bblock b = sb.bmapstart ∧ b % BPB = b := by
  unfold Superblock.bblock
  unfold FSSIZE at hb
  have hlt : b < BPB := by
    unfold BPB BSIZE
    omega
  exact ⟨by rw [Nat.div_eq_of_lt hlt, Nat.zero_add], Nat.mod_eq_of_lt hlt⟩

variable {m : Mkfs}

theorem inUse_mapped (hfree : m.freeblock ≤ FSSIZE) (hb : b < FSSIZE) :
    sb.inUse m.mapped b = decide (b < m.freeblock) := by
  obtain ⟨hblock, hmod⟩ := bblock_eq hb
  have hbpb : FSSIZE ≤ BPB := by decide
  unfold Superblock.inUse
  rw [hblock, hmod]
  show (update m.img _ _ _).bit b = _
  rw [update_self, bit_bitmap (by omega) (by omega)]

/-! ## The kernel's view -/

/-- The entry of the inode cache for the inode that is appended to. -/
def ip₀ : Ip := ⟨0, by decide⟩

/-- The kernel on this image, with one inode locked. -/
def mounted (m : Mkfs) (k : ℕ) : Fs where
  disk := m.mapped
  sb := sb
  icache := fun ip => if ip = ip₀ then ⟨sb.dinode m.mapped k, k, 1, true, true⟩
    else ⟨.fresh 0, 0, 0, false, false⟩
  devsw := fun _ => ⟨none, none⟩
  logged := []

theorem mounted_ip₀ (m : Mkfs) (k : ℕ) :
    (m.mounted k).icache ip₀ = ⟨sb.dinode m.mapped k, k, 1, true, true⟩ := rfl

/-- **The kernel's view of the image** at work: `din` is the inode in memory. -/
structure Views (m : Mkfs) (din : Dinode) (s : Fs) : Prop where
  disk : s.disk = m.mapped
  super : s.sb = sb
  inode : (s.icache ip₀).toDinode = din
  sectors : m.sectors = FSSIZE
  zeros : ∀ b, b = 0 ∨ m.freeblock ≤ b → m.img b = Block.zero
  low : nmeta ≤ m.freeblock

namespace Views

variable {m : Mkfs} {din : Dinode} {s : Fs}

/-- **The next block** is the one that the kernel could take. -/
theorem next (h : Views m din s) (hroom : m.freeblock < FSSIZE) :
    s.Free m.freeblock ∧ Views m.count din (s.take m.freeblock) := by
  obtain ⟨hblock, hmod⟩ := bblock_eq hroom
  have hmeta := bmapstart_lt
  have hlow := h.low
  refine ⟨⟨by rw [h.super]; exact hroom, ?_⟩, ⟨?_, h.super, h.inode, h.sectors, fun b hb => ?_, ?_⟩⟩
  · rw [h.super, h.disk, inUse_mapped hroom.le hroom]
    exact decide_eq_false (Nat.lt_irrefl _)
  · funext b
    have hzero := h.zeros m.freeblock (.inr le_rfl)
    show update (update s.disk _ _) m.freeblock Block.zero b
      = update m.img sb.bmapstart (bitmap (m.freeblock + 1)) b
    rw [h.super, hblock, hmod, h.disk, bitmap_succ]
    unfold mapped
    grind [update_apply]
  · exact h.zeros b (hb.imp_right (fun hle => (Nat.le_succ _).trans hle))
  · show nmeta ≤ m.freeblock + 1
    omega

theorem setAddr (h : Views m din s) (i : Fin (NDIRECT + 1)) (b : ℕ) :
    Views m (din.setAddr i b) (s.setAddr ip₀ i b) :=
  ⟨h.disk, h.super, by rw [Fs.setAddr_toDinode, h.inode], h.sectors, h.zeros, h.low⟩

/-- A block that has been counted is written. -/
theorem write (h : Views m din s) {b : ℕ} (hdata : nmeta ≤ b) (hb : b < m.freeblock)
    (hfree : m.freeblock ≤ FSSIZE) (f : Block → Block) :
    Views (m.put b (f (m.img b))) din (s.writeBlock b f) := by
  have hmeta := bmapstart_lt
  have hsectors := h.sectors
  refine ⟨?_, h.super, h.inode, ?_, fun c hc => ?_, h.low⟩
  · rw [Fs.writeBlock_disk, h.disk, m.mapped_data hdata, m.mapped_put (by omega)]
  · show max m.sectors (b + 1) = FSSIZE
    omega
  · show update _ _ _ c = _
    have hc' : c = 0 ∨ m.freeblock ≤ c := hc
    rw [update_of_ne (by unfold nmeta at hdata; omega)]
    exact h.zeros c hc'

end Views

variable {R : MkfsHalt → Prop}

theorem wp_rsect {sec : ℕ} {Q : Block → Mkfs → Prop} (hsec : sec < m.sectors) :
    wp (rsect sec) Q R m ↔ Q (m.img sec) m := by
  unfold rsect
  rw [wp_bind, wp_get, if_pos hsec, wp_pure]

theorem wp_wsect {sec : ℕ} {buf : Block} {Q : PUnit → Mkfs → Prop} :
    wp (wsect sec buf) Q R m ↔ Q ⟨⟩ (m.put sec buf) := wp_modify

theorem wp_nextBlock {Q : ℕ → Mkfs → Prop} :
    wp nextBlock Q R m ↔ Q m.freeblock m.count := by
  unfold nextBlock
  rw [wp_bind, wp_get, wp_bind, wp_modify, wp_pure]

/-- The blocks that `iappend` has to count for a place. -/
def need (d : Disk) (x : Dinode) : Place → ℕ
  | .direct i => if x.addrs i.castSucc = 0 then 1 else 0
  | .indirect => if x.addrs (Fin.last NDIRECT) = 0 then 1 else 0
  | .entry j =>
    if x.addrs (Fin.last NDIRECT) = 0 then 2
    else if (d (x.addrs (Fin.last NDIRECT))).word j = 0 then 1 else 0

/-- **The blocks that a turn needs** are those that the longer file takes. -/
theorem blocksFor_step {d : Disk} {x : Dinode} {off m : ℕ} {pl : Place} (ht : Tight d x off)
    (hcov : ∀ bn, bn * BSIZE < off → ∃ pl, Place.ofBlock bn = some pl ∧ pl.addr d x ≠ 0)
    (hpl : Place.ofBlock (off / BSIZE) = some pl) (hm : 0 < m) (hle : m ≤ BSIZE - off % BSIZE) :
    blocksFor (off + m) = blocksFor off + need d x pl := by
  -- a turn at the start of a block finds nothing, any other turn its block
  have hzero : off % BSIZE = 0 ↔ pl.addr d x = 0 := by
    refine ⟨fun hmod => ht.places hpl (by unfold BSIZE at *; omega), fun hz => ?_⟩
    by_contra hmod
    have hbn := hcov (off / BSIZE) (by unfold BSIZE at *; omega)
    grind
  rw [blocksFor_add hm hle, Nat.add_assoc]
  refine congrArg (blocksFor off + ·) ?_
  unfold Place.ofBlock at hpl
  split at hpl
  · next hd =>
    cases hpl
    have hne : off ≠ NDIRECT * BSIZE := by
      unfold NDIRECT BSIZE at *
      omega
    grind [need, Place.addr]
  · next hd =>
    split at hpl
    · next hj =>
      cases hpl
      have hge : NDIRECT * BSIZE ≤ off := by
        unfold NDIRECT BSIZE at *
        omega
      -- past the first block of the indirect block, the indirect block is there
      have hfirst : off ≠ NDIRECT * BSIZE → x.addrs (Fin.last NDIRECT) ≠ 0 := by
        have hentry : Place.ofBlock NDIRECT = some (.entry ⟨0, by decide⟩) := by decide
        have hbn := hcov NDIRECT
        grind [Place.addr]
      have hlast := ht.indirect
      grind [need, Place.addr]
    · cases hpl

/-- **`iappend` finds a block as `bmap` does.** -/
theorem wp_iappendBlock {din : Dinode} {s : Fs} {fbn : ℕ} {pl : Place}
    (hpl : Place.ofBlock fbn = some pl) (h : Views m din s)
    (hind : din.addrs (Fin.last NDIRECT) ≠ 0 → nmeta ≤ din.addrs (Fin.last NDIRECT)
      ∧ din.addrs (Fin.last NDIRECT) < m.freeblock)
    (hroom : m.freeblock + need m.mapped din pl ≤ FSSIZE) :
    wp (iappendBlock din fbn) (fun r m' => ∃ s', Fs.Bmapped s ip₀ pl r.1 s' ∧ Views m' r.2 s'
      ∧ m'.freeinode = m.freeinode ∧ m'.freeblock = m.freeblock + need m.mapped din pl)
      (fun _ => False) m := by
  have hinode := h.inode
  have hsectors := h.sectors
  have hself : ∀ i b, (din.setAddr i b).addrs i = b := fun i b => by
    show update din.addrs i b i = b
    rw [update_self]
  unfold Place.ofBlock at hpl
  unfold iappendBlock
  split at hpl
  · next hd =>
    cases hpl
    rw [dif_pos hd, wp_bind]
    unfold allocAddr
    by_cases hz : din.addrs (Fin.castSucc ⟨fbn, hd⟩) = 0
    · have hneed : need m.mapped din (.direct ⟨fbn, hd⟩) = 1 := if_pos hz
      rw [hneed] at hroom ⊢
      obtain ⟨hfree, hnext⟩ := h.next (by omega)
      rw [if_pos hz, wp_bind, wp_nextBlock, wp_pure, wp_pure, hself]
      refine ⟨_, ?_, hnext.setAddr (Fin.castSucc ⟨fbn, hd⟩) m.freeblock, rfl, rfl⟩
      exact .direct (by rw [hinode]; exact hz) hfree
    · have hneed : need m.mapped din (.direct ⟨fbn, hd⟩) = 0 := if_neg hz
      rw [if_neg hz, wp_pure, wp_pure, hneed]
      exact ⟨s, .found (by rw [hinode]; rfl) hz, h, rfl, rfl⟩
  · next hd =>
    split at hpl
    · next hj =>
      cases hpl
      rw [dif_neg hd, wp_bind]
      unfold allocAddr
      by_cases hz : din.addrs (Fin.last NDIRECT) = 0
      · have hneed : need m.mapped din (.entry ⟨fbn - NDIRECT, hj⟩) = 2 := if_pos hz
        rw [hneed] at hroom ⊢
        obtain ⟨hfree, hnext⟩ := h.next (by omega)
        have hnext' := hnext.setAddr (Fin.last NDIRECT) m.freeblock
        obtain ⟨hfree', hlast⟩ := hnext'.next (show m.freeblock + 1 < FSSIZE by omega)
        -- the new indirect block is full of zeros
        have hword : (m.count.img m.freeblock).word (fbn - NDIRECT) = 0 := by
          rw [show m.count.img = m.img from rfl, h.zeros _ (.inr le_rfl), Block.word_zero]
        rw [if_pos hz, wp_bind, wp_nextBlock, wp_pure, hself, wp_bind,
          wp_rsect (m := m.count) (show m.freeblock < m.sectors by omega),
          if_pos hword, wp_bind, wp_nextBlock, wp_bind, wp_wsect, wp_pure]
        refine ⟨_, .both (by rw [hinode]; exact hz) hfree hfree', ?_, rfl, rfl⟩
        exact hlast.write h.low (show m.freeblock < m.freeblock + 1 + 1 by omega) hroom
          (fun a => a.setWord (fbn - NDIRECT) (m.freeblock + 1))
      · obtain ⟨hdata, hlt⟩ := hind hz
        rw [if_neg hz, wp_pure, wp_bind, wp_rsect (by omega)]
        by_cases hword : (m.img (din.addrs (Fin.last NDIRECT))).word (fbn - NDIRECT) = 0
        · have hneed : need m.mapped din (.entry ⟨fbn - NDIRECT, hj⟩) = 1 := by
            refine (if_neg hz).trans (if_pos ?_)
            rw [m.mapped_data hdata]
            exact hword
          rw [hneed] at hroom ⊢
          obtain ⟨hfree, hnext⟩ := h.next (by omega)
          rw [if_pos hword, wp_bind, wp_nextBlock, wp_bind, wp_wsect, wp_pure]
          refine ⟨_, .entry (by rw [hinode]) hz ?_ hfree, ?_, rfl, rfl⟩
          · rw [h.disk, m.mapped_data hdata]
            exact hword
          · exact hnext.write hdata (show _ < m.freeblock + 1 by omega) hroom
              (fun a => a.setWord (fbn - NDIRECT) m.freeblock)
        · have hneed : need m.mapped din (.entry ⟨fbn - NDIRECT, hj⟩) = 0 := by
            refine (if_neg hz).trans (if_neg ?_)
            rw [m.mapped_data hdata]
            exact hword
          rw [if_neg hword, wp_pure, hneed]
          refine ⟨s, .found ?_ hword, h, rfl, rfl⟩
          rw [hinode, Place.addr_entry _ _ rfl hz, h.disk, m.mapped_data hdata]
    · cases hpl

/-! ## The loop -/

/-- **After `i` bytes of `iappend`**, from the image `m₀` that the kernel sees
as `s₀`. -/
structure Appending (m₀ : Mkfs) (s₀ : Fs) (p : List UInt8) (i : ℕ) (din : Dinode) (m : Mkfs)
    (s : Fs) (eff : ℕ → Dinode) : Prop where
  views : Views m din s
  writing : Fs.Writing s₀ ip₀ s eff ((s₀.icache ip₀).size + i)
  filled : Fs.Filled s₀ ip₀ (s₀.icache ip₀).size p i s
  tight : Tight m.mapped din ((s₀.icache ip₀).size + i)
  zeros : ∀ q, (s₀.icache ip₀).size + i ≤ q → din.byteAt m.mapped q = 0
  count : m.freeblock + blocksFor (s₀.icache ip₀).size
    = m₀.freeblock + blocksFor ((s₀.icache ip₀).size + i)
  freeinode : m.freeinode = m₀.freeinode

/-- An owned block has been counted. -/
theorem Views.counted {din : Dinode} {s : Fs} {eff : ℕ → Dinode} {X : Set ℕ} (h : Views m din s)
    (hs : SoundDisk s.sb s.disk eff X) (hfree : m.freeblock ≤ FSSIZE) {q : ℕ × Place}
    (hown : owner s.sb s.disk eff q = some b) :
    nmeta ≤ b ∧ b < m.freeblock := by
  obtain ⟨hdata, hsize, huse⟩ := hs.used_of_owner hown
  rw [h.super] at hdata hsize huse
  rw [h.disk, inUse_mapped hfree hsize] at huse
  exact ⟨hdata, of_decide_eq_true huse⟩

section loop

variable {m₀ m : Mkfs} {s₀ s : Fs} {p : List UInt8} {i : ℕ} {din : Dinode} {eff : ℕ → Dinode}

/-- The blocks up to the offset are there. -/
theorem Appending.covers (h : Appending m₀ s₀ p i din m s eff) (bn : ℕ)
    (hbn : bn * BSIZE < (s₀.icache ip₀).size + i) :
    ∃ pl, Place.ofBlock bn = some pl ∧ pl.addr m.mapped din ≠ 0 := by
  have hcov := h.writing.covers bn (hbn.trans_le (Nat.le_max_right _ _))
  rwa [h.views.disk, h.views.inode] at hcov

/-- **One turn of the loop.** -/
theorem Appending.step (h : Appending m₀ s₀ p i din m s eff) {n : ℕ} (hn : 0 < n)
    (hle : n ≤ BSIZE - ((s₀.icache ip₀).size + i) % BSIZE) (hlen : i + n ≤ p.length) {pl : Place}
    (hpl : Place.ofBlock (((s₀.icache ip₀).size + i) / BSIZE) = some pl) {b : ℕ} {m' : Mkfs}
    {din' : Dinode} {s' : Fs} (hb : Fs.Bmapped s ip₀ pl b s') (hv : Views m' din' s')
    (hfree : m'.freeblock ≤ FSSIZE) (hinode : m'.freeinode = m.freeinode)
    (hcount : m'.freeblock = m.freeblock + need m.mapped din pl) :
    (nmeta ≤ b ∧ b < m'.freeblock)
      ∧ ∃ s'' eff', Appending m₀ s₀ p (i + n) din' (m'.put b ((m'.img b).setBytes
        (((s₀.icache ip₀).size + i) % BSIZE) ((p.drop i).take n))) s'' eff' := by
  have hdisk := h.views.disk
  have hdin := h.views.inode
  have hlen' : ((p.drop i).take n).length = n := by
    rw [List.length_take, List.length_drop]
    omega
  have hplne := Place.ofBlock_ne_indirect hpl
  have hcounted : nmeta ≤ b ∧ b < m'.freeblock := by
    obtain ⟨eff', hM⟩ := h.writing.working.bmapped h.writing.mirror h.writing.allocated hb
    refine hv.counted hM.working.sound hfree (q := ((s.icache ip₀).inum, pl)) ?_
    rw [hM.sb]
    exact hM.owns
  have htight : Tight s.disk (s.icache ip₀).toDinode ((s₀.icache ip₀).size + i) := by
    rw [hdisk, hdin]
    exact h.tight
  have hfilled := h.filled.step h.writing hle hlen hpl hb
  have hzeros := fun q => h.writing.zeros_step hpl hb ((p.drop i).take n) htight
    (fun q hq => by rw [hdisk, hdin]; exact h.zeros q hq) (q := q)
  generalize Block.setBytes (((s₀.icache ip₀).size + i) % BSIZE) ((p.drop i).take n) = f
    at hfilled hzeros ⊢
  have hwrite := hv.write hcounted.1 hcounted.2 hfree f
  obtain ⟨eff', hW⟩ := h.writing.step hn hle hpl hplne hb f
  rw [Nat.add_assoc] at hW
  refine ⟨hcounted, _, eff', hwrite, hW, hfilled, ?_, fun q hq => ?_, ?_, hinode.trans h.freeinode⟩
  · have hstep := h.writing.tight_step hpl hb f htight hn
    rwa [hwrite.disk, hv.inode, Nat.add_assoc] at hstep
  · have hnull : (m'.put b (f (m'.img b))).mapped 0 = Block.zero := by
      rw [mapped_of_ne _ (by decide)]
      exact hwrite.zeros 0 (.inl rfl)
    have hstep := hzeros q (by rw [hwrite.disk]; exact hnull) (by rw [hlen']; omega)
    rwa [hwrite.disk, hv.inode] at hstep
  · have hstep := blocksFor_step h.tight h.covers hpl hn hle
    have hold := h.count
    rw [← Nat.add_assoc, hstep]
    show m'.freeblock + _ = _
    omega

/-- **The loop of `iappend`.** -/
theorem wp_iappendLoop (hmax : (s₀.icache ip₀).size + p.length ≤ MAXFILE * BSIZE)
    (hroom : m₀.freeblock + blocksFor ((s₀.icache ip₀).size + p.length)
      ≤ FSSIZE + blocksFor (s₀.icache ip₀).size) (turns : ℕ) :
    ∀ {i : ℕ} {din : Dinode} {m : Mkfs} {s : Fs} {eff : ℕ → Dinode}, i ≤ p.length →
      p.length - i ≤ turns → Appending m₀ s₀ p i din m s eff →
      wp (iappendLoop turns din ((s₀.icache ip₀).size + i) (p.drop i))
        (fun din' m' => ∃ din'' s' eff', Appending m₀ s₀ p p.length din'' m' s' eff'
          ∧ din' = { din'' with size := (s₀.icache ip₀).size + p.length }) (fun _ => False) m := by
  induction turns with
  | zero =>
    intro i din m s eff hi hturns h
    have hend : i = p.length := by omega
    subst hend
    exact ⟨din, s, eff, h, rfl⟩
  | succ turns ih =>
    intro i din m s eff hi hturns h
    unfold iappendLoop
    split
    · next hnil =>
      have hend : i = p.length := Nat.le_antisymm hi (List.drop_eq_nil_iff.mp hnil)
      subst hend
      exact ⟨din, s, eff, h, rfl⟩
    · next hne =>
      have hlt : i < p.length := by
        rw [List.drop_eq_nil_iff] at hne
        omega
      have hbn : ((s₀.icache ip₀).size + i) / BSIZE < MAXFILE :=
        Nat.div_lt_of_lt_mul (by rw [Nat.mul_comm]; omega)
      obtain ⟨pl, hpl, -⟩ := Place.ofBlock_of_lt _ hbn
      have hmod : ((s₀.icache ip₀).size + i) % BSIZE < BSIZE := Nat.mod_lt _ (by decide)
      -- what one turn copies, as the kernel computes it
      have hn : min (p.drop i).length ((((s₀.icache ip₀).size + i) / BSIZE + 1) * BSIZE
          - ((s₀.icache ip₀).size + i))
          = min (p.length - i) (BSIZE - ((s₀.icache ip₀).size + i) % BSIZE) := by
        rw [List.length_drop]
        unfold BSIZE
        omega
      have hoff : (s₀.icache ip₀).size + i - ((s₀.icache ip₀).size + i) / BSIZE * BSIZE
          = ((s₀.icache ip₀).size + i) % BSIZE := by
        unfold BSIZE
        omega
      generalize hgen : min (p.length - i) (BSIZE - ((s₀.icache ip₀).size + i) % BSIZE) = n at hn
      have hneed : m.freeblock + need m.mapped din pl ≤ FSSIZE := by
        have hstep := blocksFor_step h.tight h.covers hpl (m := n) (by omega) (by omega)
        have hmono : blocksFor ((s₀.icache ip₀).size + i + n)
            ≤ blocksFor ((s₀.icache ip₀).size + p.length) := blocksFor_mono (by omega)
        have hcount := h.count
        omega
      have hind : din.addrs (Fin.last NDIRECT) ≠ 0 → nmeta ≤ din.addrs (Fin.last NDIRECT)
          ∧ din.addrs (Fin.last NDIRECT) < m.freeblock := by
        intro hz
        refine h.views.counted h.writing.working.sound (by omega)
          (h.writing.working.used_of_addr h.writing.mirror h.writing.type .indirect ?_ |>.trans ?_)
        · rw [h.views.inode]
          exact hz
        · rw [h.views.inode]
          rfl
      rw [if_pos hbn]
      refine (wp_iappendBlock hpl h.views hind hneed).bind (fun r m' hr => ?_)
      obtain ⟨s', hb, hv, hinode, hcount⟩ := hr
      obtain ⟨hcounted, s'', eff', hstep⟩ := h.step (n := n) (by omega) (by omega) (by omega) hpl hb hv
        (by omega) hinode hcount
      have hsectors := hv.sectors
      dsimp only
      rw [wp_bind, wp_rsect (by omega), wp_bind, wp_wsect, hn, hoff, List.drop_drop, Nat.add_assoc]
      exact ih (by omega) (by omega) hstep

end loop

end Mkfs

end Xv6
