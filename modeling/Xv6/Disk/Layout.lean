import Xv6.Disk.Block
import Mathlib.Data.Fintype.Basic

/-!
# The layout of the disk

`fs.h`: the superblock, the dinodes and the free map, as they lie in the
blocks. A disk is a map from block numbers to blocks. Three views of it are
what the file system works with – the superblock, the dinode with a number,
the bit of a block – and each kind of write changes one of them and leaves
the others alone, as long as the areas do not overlap.
-/

namespace Xv6

open Function

/-- A disk. -/
abbrev Disk := ℕ → Block

/-! ## Bits and arrays of words in a block -/

namespace Block

/-- `1 << (bi % 8)`. -/
def mask (bi : ℕ) : UInt8 := 1 <<< UInt8.ofNat (bi % 8)

/-- `data[bi/8] & m`. -/
def bit (b : Block) (bi : ℕ) : Bool := b.byte (bi / 8) &&& mask bi != 0

/-- `data[bi/8] |= m`. -/
def setBit (bi : ℕ) (b : Block) : Block := fun j => if j.val = bi / 8 then b j ||| mask bi else b j

/-- `data[bi/8] &= ~m`. -/
def clearBit (bi : ℕ) (b : Block) : Block := fun j =>
  if j.val = bi / 8 then b j &&& ~~~ mask bi else b j

theorem mask_and_mask {i j : ℕ} (h : i % 8 ≠ j % 8) : mask i &&& mask j = 0 := by
  have hall : ∀ a b : Fin 8, a ≠ b →
      ((1 : UInt8) <<< UInt8.ofNat a) &&& (1 <<< UInt8.ofNat b) = 0 := by decide
  exact hall ⟨i % 8, by omega⟩ ⟨j % 8, by omega⟩ (fun hij => h (Fin.val_eq_of_eq hij))

theorem mask_ne_zero (i : ℕ) : mask i ≠ 0 := by
  have hall : ∀ a : Fin 8, ((1 : UInt8) <<< UInt8.ofNat a) ≠ 0 := by decide
  exact hall ⟨i % 8, by omega⟩

theorem byte_setBit (b : Block) {bi j : ℕ} (hj : j < BSIZE) :
    (b.setBit bi).byte j = if j = bi / 8 then b.byte j ||| mask bi else b.byte j := by
  unfold byte setBit
  rw [dif_pos hj, dif_pos hj]

theorem byte_clearBit (b : Block) {bi j : ℕ} (hj : j < BSIZE) :
    (b.clearBit bi).byte j = if j = bi / 8 then b.byte j &&& ~~~ mask bi else b.byte j := by
  unfold byte clearBit
  rw [dif_pos hj, dif_pos hj]

theorem or_and_self (x y : UInt8) : (x ||| y) &&& y = y := by
  rw [← UInt8.toBitVec_inj]
  ext i
  simpa using Or.inr

theorem and_not_and_self (x y : UInt8) : x &&& ~~~y &&& y = 0 := by
  rw [← UInt8.toBitVec_inj]
  ext i
  simp

theorem or_and_of_and_eq_zero (x : UInt8) {y z : UInt8} (h : y &&& z = 0) :
    (x ||| y) &&& z = x &&& z := by
  rw [← UInt8.toBitVec_inj] at h ⊢
  ext i
  have hi := congrArg (fun v : BitVec 8 => v.getLsbD i) h
  simp at hi ⊢
  grind

theorem and_not_and_of_and_eq_zero (x : UInt8) {y z : UInt8} (h : y &&& z = 0) :
    x &&& ~~~y &&& z = x &&& z := by
  rw [← UInt8.toBitVec_inj] at h ⊢
  ext i
  have hi := congrArg (fun v : BitVec 8 => v.getLsbD i) h
  simp at hi ⊢
  grind

theorem bit_setBit_self (b : Block) {i : ℕ} (h : i / 8 < BSIZE) : (b.setBit i).bit i = true := by
  unfold bit
  rw [byte_setBit b h, if_pos rfl, or_and_self]
  simpa using mask_ne_zero i

theorem bit_setBit_of_ne (b : Block) {i j : ℕ} (h : j / 8 < BSIZE) (hij : j ≠ i) :
    (b.setBit i).bit j = b.bit j := by
  unfold bit
  rw [byte_setBit b h]
  by_cases hbyte : j / 8 = i / 8
  · rw [if_pos hbyte, or_and_of_and_eq_zero _ (mask_and_mask (by omega))]
  · rw [if_neg hbyte]

theorem bit_clearBit_self (b : Block) {i : ℕ} (h : i / 8 < BSIZE) :
    (b.clearBit i).bit i = false := by
  unfold bit
  rw [byte_clearBit b h, if_pos rfl, and_not_and_self]
  rfl

theorem bit_clearBit_of_ne (b : Block) {i j : ℕ} (h : j / 8 < BSIZE) (hij : j ≠ i) :
    (b.clearBit i).bit j = b.bit j := by
  unfold bit
  rw [byte_clearBit b h]
  by_cases hbyte : j / 8 = i / 8
  · rw [if_pos hbyte, and_not_and_of_and_eq_zero _ (mask_and_mask (by omega))]
  · rw [if_neg hbyte]

/-- `n` words from `start` on. -/
def setWords (b : Block) (start : ℕ) (w : ℕ → ℕ) (n : ℕ) : Block :=
  (List.range n).foldl (fun b i => b.setWord (start + i) (w i)) b

theorem word_setWords (b : Block) {start n : ℕ} (w : ℕ → ℕ) (h : 4 * (start + n) ≤ BSIZE) (j : ℕ) :
    (b.setWords start w n).word j
      = if start ≤ j ∧ j < start + n then w (j - start) % 2 ^ 32 else b.word j := by
  induction n with
  | zero => exact (if_neg (by omega)).symm
  | succ n ih =>
    unfold setWords at ih ⊢
    rw [List.range_succ, List.foldl_append, List.foldl_cons, List.foldl_nil]
    by_cases hj : j = start + n
    · subst hj
      rw [word_setWord_self _ _ (by omega), if_pos (by omega), Nat.add_sub_cancel_left]
    · rw [word_setWord_of_ne _ _ hj, ih (by omega)]
      split_ifs <;> first | rfl | omega

end Block

/-! ## Dinodes -/

/-- Blocks whose numbers are in the inode. -/
def NDIRECT : ℕ := 12

/-- Blocks whose numbers are in the indirect block. -/
def NINDIRECT : ℕ := BSIZE / 4

/-- Most blocks of a file. -/
def MAXFILE : ℕ := NDIRECT + NINDIRECT

/-- **A dinode**, with the widths of `fs.h`: the fields of a `short` wrap, the others are numbers
below `2 ^ 32` when they are read from a disk. -/
structure Dinode where
  type : Int16
  major : Int16
  minor : Int16
  nlink : Int16
  size : ℕ
  addrs : Fin (NDIRECT + 1) → ℕ
  deriving DecidableEq

namespace Dinode

/-- All zeros, but for the type: what `ialloc` leaves. -/
def fresh (type : Int16) : Dinode := ⟨type, 0, 0, 0, 0, fun _ => 0⟩

/-- `addrs[i] = addr`. -/
def setAddr (d : Dinode) (i : Fin (NDIRECT + 1)) (addr : ℕ) : Dinode :=
  { d with addrs := update d.addrs i addr }

/-- The fields that are words are words. -/
structure Fits (d : Dinode) : Prop where
  size : d.size < 2 ^ 32
  addrs : ∀ i, d.addrs i < 2 ^ 32

/-- The words of a dinode. -/
def word (d : Dinode) (i : ℕ) : ℕ :=
  if i = 0 then d.type.toUInt16.toNat + 2 ^ 16 * d.major.toUInt16.toNat
  else if i = 1 then d.minor.toUInt16.toNat + 2 ^ 16 * d.nlink.toUInt16.toNat
  else if i = 2 then d.size
  else if h : i - 3 < NDIRECT + 1 then d.addrs ⟨i - 3, h⟩ else 0

end Dinode

/-- Dinodes in a block. -/
def IPB : ℕ := BSIZE / 64

namespace Block

/-- A `short` of a word. -/
def short (n : ℕ) : Int16 := (UInt16.ofNat n).toInt16

/-- `((struct dinode*)data)[k]`. -/
def dinode (b : Block) (k : ℕ) : Dinode where
  type := short (b.word (16 * k) % 2 ^ 16)
  major := short (b.word (16 * k) / 2 ^ 16)
  minor := short (b.word (16 * k + 1) % 2 ^ 16)
  nlink := short (b.word (16 * k + 1) / 2 ^ 16)
  size := b.word (16 * k + 2)
  addrs := fun i => b.word (16 * k + 3 + i)

/-- Every field of `((struct dinode*)data)[k]` is set. -/
def setDinode (k : ℕ) (d : Dinode) (b : Block) : Block := b.setWords (16 * k) d.word 16

theorem fits_dinode (b : Block) (k : ℕ) : (b.dinode k).Fits :=
  ⟨b.word_lt _, fun _ => b.word_lt _⟩

theorem short_toNat (x : Int16) : short x.toUInt16.toNat = x := by
  unfold short
  rw [UInt16.ofNat_toNat]
  rfl

/-- The two halves of a word. -/
theorem short_mod_div (x y : Int16) :
    short ((x.toUInt16.toNat + 2 ^ 16 * y.toUInt16.toNat) % 2 ^ 32 % 2 ^ 16) = x
      ∧ short ((x.toUInt16.toNat + 2 ^ 16 * y.toUInt16.toNat) % 2 ^ 32 / 2 ^ 16) = y := by
  have hx := x.toUInt16.toNat_lt
  have hy := y.toUInt16.toNat_lt
  have hmod : (x.toUInt16.toNat + 2 ^ 16 * y.toUInt16.toNat) % 2 ^ 32 % 2 ^ 16 = x.toUInt16.toNat := by
    omega
  have hdiv : (x.toUInt16.toNat + 2 ^ 16 * y.toUInt16.toNat) % 2 ^ 32 / 2 ^ 16 = y.toUInt16.toNat := by
    omega
  rw [hmod, hdiv]
  exact ⟨short_toNat x, short_toNat y⟩

theorem word_setDinode (b : Block) {k : ℕ} (d : Dinode) (hk : k < IPB) (j : ℕ) :
    (b.setDinode k d).word j
      = if 16 * k ≤ j ∧ j < 16 * k + 16 then d.word (j - 16 * k) % 2 ^ 32 else b.word j := by
  unfold IPB BSIZE at hk
  exact b.word_setWords d.word (by unfold BSIZE; omega) j

/-- A dinode reads back as written. -/
theorem dinode_setDinode_self (b : Block) {k : ℕ} {d : Dinode} (hd : d.Fits) (hk : k < IPB) :
    (b.setDinode k d).dinode k = d := by
  have hword : ∀ i < 16, (b.setDinode k d).word (16 * k + i) = d.word i % 2 ^ 32 := by
    intro i hi
    rw [word_setDinode b d hk, if_pos (by omega), Nat.add_sub_cancel_left]
  unfold dinode
  have haddrs : (fun i : Fin (NDIRECT + 1) => (b.setDinode k d).word (16 * k + 3 + i)) = d.addrs := by
    funext i
    have hi := i.isLt
    unfold NDIRECT at hi
    rw [Nat.add_assoc, hword (3 + i) (by omega)]
    unfold Dinode.word
    rw [if_neg (by omega), if_neg (by omega), if_neg (by omega), Nat.add_sub_cancel_left,
      dif_pos i.isLt]
    exact Nat.mod_eq_of_lt (hd.addrs i)
  have h₀ := hword 0 (by omega)
  rw [Nat.add_zero] at h₀
  have hw₀ : d.word 0 = d.type.toUInt16.toNat + 2 ^ 16 * d.major.toUInt16.toNat := rfl
  have hw₁ : d.word 1 = d.minor.toUInt16.toNat + 2 ^ 16 * d.nlink.toUInt16.toNat := rfl
  have hw₂ : d.word 2 = d.size := rfl
  obtain ⟨htype, hmajor⟩ := short_mod_div d.type d.major
  obtain ⟨hminor, hnlink⟩ := short_mod_div d.minor d.nlink
  rw [haddrs, h₀, hword 1 (by omega), hword 2 (by omega), hw₀, hw₁, hw₂, htype, hmajor, hminor,
    hnlink, Nat.mod_eq_of_lt hd.size]

/-- The other dinodes stay. -/
theorem dinode_setDinode_of_ne (b : Block) {k j : ℕ} (d : Dinode) (hk : k < IPB) (h : j ≠ k) :
    (b.setDinode k d).dinode j = b.dinode j := by
  have hword : ∀ i < 16, (b.setDinode k d).word (16 * j + i) = b.word (16 * j + i) := by
    intro i hi
    rw [word_setDinode b d hk, if_neg (by omega)]
  have haddrs : ∀ i : Fin (NDIRECT + 1),
      (b.setDinode k d).word (16 * j + 3 + i) = b.word (16 * j + 3 + i) := by
    intro i
    have hi := i.isLt
    unfold NDIRECT at hi
    rw [Nat.add_assoc]
    exact hword (3 + i) (by omega)
  have h₀ := hword 0 (by omega)
  rw [Nat.add_zero] at h₀
  unfold dinode
  rw [h₀, hword 1 (by omega), hword 2 (by omega), funext haddrs]

end Block

/-! ## The superblock -/

/-- **The superblock.** -/
structure Superblock where
  size : ℕ
  nblocks : ℕ
  ninodes : ℕ
  nlog : ℕ
  logstart : ℕ
  inodestart : ℕ
  bmapstart : ℕ
  deriving DecidableEq

/-- Size of the file system in blocks. -/
def FSSIZE : ℕ := 1000

/-- Bits in a block of the free map. -/
def BPB : ℕ := BSIZE * 8

/-- The block of the superblock. -/
def Block.superblock (b : Block) : Superblock :=
  ⟨b.word 0, b.word 1, b.word 2, b.word 3, b.word 4, b.word 5, b.word 6⟩

namespace Superblock

/-- `IBLOCK`. -/
def iblock (sb : Superblock) (inum : ℕ) : ℕ := inum / IPB + sb.inodestart

/-- `BBLOCK`. -/
def bblock (sb : Superblock) (b : ℕ) : ℕ := b / BPB + sb.bmapstart

/-- The blocks before the data blocks. -/
def nmeta (sb : Superblock) : ℕ := sb.bmapstart + (sb.size / BPB + 1)

/-- The areas come in the order of `fs.h` and fit the disk. -/
structure Wf (sb : Superblock) : Prop where
  super : 1 < sb.inodestart
  inodes : sb.inodestart + (sb.ninodes / IPB + 1) ≤ sb.bmapstart
  fits : sb.nmeta ≤ sb.size
  small : sb.size < 2 ^ 31

/-- The dinode with a number. -/
def dinode (sb : Superblock) (d : Disk) (inum : ℕ) : Dinode := (d (sb.iblock inum)).dinode (inum % IPB)

/-- The bit of a block. -/
def inUse (sb : Superblock) (d : Disk) (b : ℕ) : Bool := (d (sb.bblock b)).bit (b % BPB)

variable {sb : Superblock}

/-! ## Which writes change which view -/

namespace Wf

/-- The free map lies before the data blocks. -/
theorem bblock_lt (_h : sb.Wf) {b : ℕ} (hb : b < sb.size) :
    sb.bmapstart ≤ sb.bblock b ∧ sb.bblock b < sb.nmeta := by
  unfold bblock nmeta BPB BSIZE
  omega

/-- The dinodes lie before the free map. -/
theorem iblock_lt (h : sb.Wf) {k : ℕ} (hk : k < sb.ninodes) :
    sb.inodestart ≤ sb.iblock k ∧ sb.iblock k < sb.bmapstart := by
  have hfits := h.inodes
  unfold iblock IPB BSIZE at *
  omega

theorem bmapstart_lt (_h : sb.Wf) : sb.bmapstart < sb.nmeta := by
  unfold nmeta BPB BSIZE
  omega

theorem inodestart_lt (h : sb.Wf) : sb.inodestart < sb.bmapstart := by
  have hfits := h.inodes
  unfold IPB BSIZE at hfits
  omega

theorem one_lt_bmapstart (h : sb.Wf) : 1 < sb.bmapstart := Nat.lt_trans h.super h.inodestart_lt

theorem one_lt_nmeta (h : sb.Wf) : 1 < sb.nmeta := Nat.lt_trans h.one_lt_bmapstart h.bmapstart_lt

end Wf

/-- A write to a block that is not in the inode area. -/
theorem dinode_update {d : Disk} {k b : ℕ} (blk : Block) (h : sb.iblock k ≠ b) :
    sb.dinode (update d b blk) k = sb.dinode d k := by
  unfold dinode
  rw [update_of_ne h]

/-- A write to a block that is not in the free map. -/
theorem inUse_update {d : Disk} {c b : ℕ} (blk : Block) (h : sb.bblock c ≠ b) :
    sb.inUse (update d b blk) c = sb.inUse d c := by
  unfold inUse
  rw [update_of_ne h]

theorem bpb_div_lt (b : ℕ) : b % BPB / 8 < BSIZE := by
  unfold BPB BSIZE
  omega

/-- The blocks with one bit of one block of the free map. -/
theorem eq_of_bblock {b c : ℕ} (hblock : sb.bblock c = sb.bblock b) (hmod : c % BPB = b % BPB) :
    c = b := by
  unfold bblock at hblock
  unfold BPB BSIZE at hmod hblock
  omega

/-- The bit of a block is set. -/
theorem inUse_setBit (d : Disk) (b c : ℕ) :
    sb.inUse (update d (sb.bblock b) ((d (sb.bblock b)).setBit (b % BPB))) c
      = if c = b then true else sb.inUse d c := by
  have hsame := sb.eq_of_bblock (b := b) (c := c)
  unfold inUse
  rw [update_apply]
  grind [Block.bit_setBit_self, Block.bit_setBit_of_ne, bpb_div_lt]

/-- The bit of a block is cleared. -/
theorem inUse_clearBit (d : Disk) (b c : ℕ) :
    sb.inUse (update d (sb.bblock b) ((d (sb.bblock b)).clearBit (b % BPB))) c
      = if c = b then false else sb.inUse d c := by
  have hsame := sb.eq_of_bblock (b := b) (c := c)
  unfold inUse
  rw [update_apply]
  grind [Block.bit_clearBit_self, Block.bit_clearBit_of_ne, bpb_div_lt]

/-- A dinode is written. -/
theorem dinode_setDinode (d : Disk) {k : ℕ} {x : Dinode} (hx : x.Fits) (j : ℕ) :
    sb.dinode (update d (sb.iblock k) ((d (sb.iblock k)).setDinode (k % IPB) x)) j
      = if j = k then x else sb.dinode d j := by
  have hlt : k % IPB < IPB := Nat.mod_lt _ (by decide)
  unfold dinode
  by_cases hjk : j = k
  · rw [if_pos hjk, hjk, update_self]
    exact Block.dinode_setDinode_self _ hx hlt
  · rw [if_neg hjk]
    by_cases hblock : sb.iblock j = sb.iblock k
    · rw [hblock, update_self]
      refine Block.dinode_setDinode_of_ne _ _ hlt (fun hmod => hjk ?_)
      unfold iblock at hblock
      unfold IPB BSIZE at hmod hblock
      omega
    · rw [update_of_ne hblock]

end Superblock

end Xv6
