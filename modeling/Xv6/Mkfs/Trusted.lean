import Xv6.Mkfs.Image

/-!
# What the kernel finds in the image

The statement about the finished image: what its root directory lists, what
its files hold, where its blocks lie and what its free map says. All of that
holds for every list of input files that fits. The blocks of the files are all
there, but for the root directory, whose size is rounded up to the next block
even when it ends at one.
-/

namespace Xv6

open Function

open Wp

namespace Mkfs

/-! ## The statement -/

/-- The bytes of an inode, as the kernel reads them. -/
def bytes (s : Mkfs) (k : ℕ) : List UInt8 :=
  (List.range (sb.dinode s.img k).size).map ((sb.dinode s.img k).byteAt s.img)

/-- The block number at a place of an inode. -/
def blockAt (s : Mkfs) (k : ℕ) (pl : Place) : ℕ := pl.addr s.img (sb.dinode s.img k)

/-- **The image holds the input files**: the root directory lists them, their
inodes hold their bytes, the blocks are distinct and were counted, and the
free map has the blocks that were counted. -/
structure Laid (files : List InputFile) (s : Mkfs) : Prop where
  root : (sb.dinode s.img ROOTINO).type = T_DIR
  entries : dirEntries (s.bytes ROOTINO) = (ROOTINO, strncpy DOT DIRSIZ)
    :: (ROOTINO, strncpy DOTDOT DIRSIZ)
    :: files.zipIdx.map (fun f => (f.2 + 2, strncpy (nameOf f.1.imageName) DIRSIZ))
  files : ∀ i f, files[i]? = some f →
    (sb.dinode s.img (i + 2)).type = T_FILE ∧ s.bytes (i + 2) = f.content
  range : ∀ k < NINODES, ∀ pl, s.blockAt k pl ≠ 0 →
    nmeta ≤ s.blockAt k pl ∧ s.blockAt k pl < s.freeblock
  distinct : ∀ k < NINODES, ∀ j < NINODES, ∀ pl pl', s.blockAt k pl ≠ 0 →
    s.blockAt k pl = s.blockAt j pl' → k = j ∧ pl = pl'
  bitmap : ∀ b < BPB, sb.inUse s.img b = decide (b < s.freeblock)

/-- **No inode has a hole**: every block index below its size has an address. The kernel's `readi`
relies on this, and would allocate the block otherwise. -/
def Full (s : Mkfs) : Prop :=
  ∀ k < NINODES, ∀ bn, bn * BSIZE < (sb.dinode s.img k).size →
    ∃ pl, Place.ofBlock bn = some pl ∧ s.blockAt k pl ≠ 0

/-! ## The program -/

/-- The size of the root directory in the image. -/
def rounded (n : ℕ) : ℕ := (n / BSIZE + 1) * BSIZE

/-- **The finished image**, from the one that the loops leave. -/
structure Finished (files : List InputFile) (m s : Mkfs) : Prop where
  image : Image m (contents files)
  freeinode : m.freeinode = files.length + 2
  freeblock : s.freeblock = m.freeblock
  img : s.img = update m.mapped (sb.iblock ROOTINO)
    ((m.mapped (sb.iblock ROOTINO)).setDinode (ROOTINO % IPB)
      { sb.dinode m.mapped ROOTINO with size := rounded (contents files ROOTINO).length })

/-- The image file is filled with zeros. -/
theorem wp_zeros (n : ℕ) {Q : PUnit → Mkfs → Prop} {R : MkfsHalt → Prop}
    (h : Q ⟨⟩ { start with sectors := n }) :
    wp ((List.range n).forM (fun i => wsect i Block.zero)) Q R start := by
  refine (wp_forM (I := fun done m => m = { start with sectors := done.length })
    (fun done i rest m hi hm => ?_) rfl).imp (fun _ m hm => ?_)
  · have hlen : i = done.length := by
      have hget := congrArg (·[done.length]?) hi
      rw [List.getElem?_append_right le_rfl, Nat.sub_self, List.getElem?_cons_zero] at hget
      obtain ⟨hlt, hval⟩ := List.getElem?_eq_some_iff.mp hget
      rw [List.getElem_range hlt] at hval
      exact hval.symm
    rw [wp_wsect, hm, hlen, List.length_append, List.length_singleton]
    unfold put start
    congr 1
    · exact update_eq_self _ _
    · exact Nat.max_eq_right (Nat.le_succ _)
  · rw [hm, List.length_range]
    exact h

theorem wp_format : wp format (fun _ m => Image m (fun _ => []) ∧ m.freeinode = ROOTINO)
    (fun _ => False) start := by
  have hempty : Image (put 1 (Block.zero.setWords 0 (fun i => sbWords.getD i 0) 7)
      { start with sectors := FSSIZE }) (fun _ => []) :=
    image_empty (by decide) rfl rfl rfl
  unfold format
  rw [wp_bind]
  generalize FSSIZE = n at hempty ⊢
  refine wp_zeros n ?_
  rw [wp_wsect]
  exact ⟨hempty, rfl⟩

/-- The root directory with its two entries. -/
theorem wp_root {m : Mkfs} (h : Image m (fun _ => [])) (hinode : m.freeinode = 2) :
    wp (iappend ROOTINO (direntBytes DOT ROOTINO) >>= fun _ =>
      iappend ROOTINO (direntBytes DOTDOT ROOTINO))
      (fun _ m' => Image m' (contents []) ∧ m'.freeinode = 2) (fun _ => False) m := by
  -- one block is enough for the directory
  have hroom : ∀ x : List UInt8, x.length ≤ BSIZE →
      nmeta + total (update (fun _ => []) ROOTINO x) ≤ FSSIZE := by
    intro x hx
    have hupdate := total_update (fun _ => []) (k := ROOTINO) (by decide) x
    have htotal : total (fun _ => []) = 0 := Finset.sum_eq_zero (fun _ _ => blocksFor_zero)
    have hone : blocksFor x.length ≤ blocksFor BSIZE := blocksFor_mono hx
    have hone' : nmeta + blocksFor BSIZE ≤ FSSIZE := by decide
    omega
  have hlen := length_direntBytes
  have hsmall : DIRENT + DIRENT ≤ BSIZE ∧ BSIZE ≤ MAXFILE * BSIZE := by decide
  have hdots : contents [] = update (fun _ => []) ROOTINO
      (direntBytes DOT ROOTINO ++ direntBytes DOTDOT ROOTINO) := by
    funext k
    match k with
    | 0 => rfl
    | 1 => exact congrArg (direntBytes DOT ROOTINO ++ ·) (List.append_nil _)
    | k + 2 => rfl
  refine (h.wp_iappend (k := ROOTINO) (p := direntBytes DOT ROOTINO) le_rfl
    (by rw [hinode]; decide) ?_ ?_).bind (fun _ m₁ h₁ => ?_)
  · rw [hlen, List.length_nil]
    omega
  · rw [List.nil_append]
    exact hroom _ (by rw [hlen]; omega)
  · rw [List.nil_append] at h₁
    have happend := h₁.1.wp_iappend (k := ROOTINO) (p := direntBytes DOTDOT ROOTINO) le_rfl
      (by rw [h₁.2, hinode]; decide) (by rw [update_self, hlen, hlen]; omega)
    rw [update_self, update_idem, ← hdots] at happend
    refine (happend ?_).imp (fun _ m₂ h₂ => ⟨h₂.1, by rw [h₂.2, h₁.2, hinode]⟩)
    rw [hdots]
    exact hroom _ (by rw [List.length_append, hlen, hlen]; omega)

section main

attribute [local irreducible] format

variable {files : List InputFile}

/-- The last steps. -/
theorem wp_finish {m : Mkfs} (h : Image m (contents files))
    (hinode : m.freeinode = files.length + 2) :
    wp (fixRoot ROOTINO >>= fun _ => get >>= fun s => balloc s.freeblock)
      (fun _ s => Finished files m s) (fun _ => False) m := by
  have hk : ROOTINO < NINODES := by decide
  have hroot : ROOTINO < m.freeinode := by
    unfold ROOTINO
    omega
  have hused : m.freeblock < BSIZE * 8 := h.fits.trans_lt (by decide)
  unfold fixRoot balloc
  rw [wp_bind, wp_bind, wp_rinode h.sectors hk, wp_winode h.sectors hk, wp_bind, wp_get]
  rw [if_pos (by exact hused), wp_wsect]
  refine ⟨h, hinode, rfl, ?_⟩
  rw [← mapped_winode m hk, ← (h.file ROOTINO le_rfl hroot).size]
  rfl

/-- **`main` finishes.** -/
theorem wp_main (hcount : files.length < NINODES - 1) (hslash : ∀ f ∈ files, SLASH ∉ f.name)
    (hsize : ∀ f ∈ files, f.content.length ≤ MAXFILE * BSIZE)
    (hroom : nmeta + total (contents files) ≤ FSSIZE) :
    wp (main files) (fun _ s => ∃ m, Finished files m s) (fun _ => False) start := by
  unfold main
  rw [wp_bind]
  refine wp_format.imp (fun _ m hempty => ?_)
  obtain ⟨hempty, hfirst⟩ := hempty
  refine (hempty.wp_ialloc (by rw [hfirst]; decide) (if_pos hfirst).symm).bind (fun rootino m₁ h₁ => ?_)
  obtain ⟨hrootino, hinode, h₁⟩ := h₁
  rw [hfirst] at hrootino hinode
  rw [hrootino, if_neg (not_not_intro rfl), ← bind_assoc]
  refine (wp_root h₁ hinode).bind (fun _ m₂ h₂ => ?_)
  refine (wp_files hcount hslash hsize hroom h₂.1 h₂.2).bind (fun _ m₃ h₃ => ?_)
  exact (wp_finish h₃.1 h₃.2).imp (fun _ s hs => ⟨m₃, hs⟩)

/-- **`mkfs` finishes**, for input files that fit. -/
theorem exists_finished (files : List InputFile) (hcount : files.length < NINODES - 1)
    (hslash : ∀ f ∈ files, SLASH ∉ f.name)
    (hsize : ∀ f ∈ files, f.content.length ≤ MAXFILE * BSIZE)
    (hroom : nmeta + blocksFor (DIRENT * (files.length + 2))
      + (files.map (fun f => blocksFor f.content.length)).sum ≤ FSSIZE) :
    ∃ m s, build files = .ok s ∧ Finished files m s := by
  rw [Nat.add_assoc, ← total_contents (by omega)] at hroom
  have hrun := wp_main hcount hslash hsize hroom
  unfold build
  cases hmain : main files start with
  | error e => exact (hrun.error hmain).elim
  | ok r =>
    obtain ⟨m, hm⟩ := hrun.ok hmain
    exact ⟨m, r.2, rfl, hm⟩

end main

/-! ## The finished image -/

/-- An address in an inode is a block it owns. -/
theorem Image.owner_of_addr {m : Mkfs} {c : ℕ → List UInt8} (h : Image m c) {k : ℕ}
    (hk : k < NINODES) (pl : Place) (hpl : pl.addr m.mapped (sb.dinode m.mapped k) ≠ 0) :
    owner sb m.mapped (sb.dinode m.mapped) (k, pl)
      = some (pl.addr m.mapped (sb.dinode m.mapped k)) := by
  by_cases halloc : 1 ≤ k ∧ k < m.freeinode
  · rw [owner_eq (h.allocated halloc.1 halloc.2)]
    exact blockOf_eq_some.mpr ⟨rfl, hpl⟩
  · rw [h.empty k hk (by omega)] at hpl
    exact absurd (pl.addr_of_empty _ (fun _ => rfl)) hpl

theorem map_getD_range (l : List UInt8) (n : ℕ) :
    (List.range (l.length + n)).map (fun p => l.getD p 0) = l ++ List.replicate n 0 := by
  refine List.ext_getElem (by simp) (fun p hp hp' => ?_)
  grind

namespace Finished

variable {files : List InputFile} {m s : Mkfs} (h : Finished files m s)

include h

/-- Only the dinode of the root directory has been written. -/
theorem img_of_ne {b : ℕ} (hb : b ≠ sb.iblock ROOTINO) :
    s.img b = m.mapped b := by
  rw [h.img, update_of_ne hb]

theorem img_data {b : ℕ} (hb : b = 0 ∨ nmeta ≤ b) :
    s.img b = m.mapped b := by
  have hlt := iblock_bounds (k := ROOTINO) (by decide)
  exact h.img_of_ne (by omega)

theorem root_lt : ROOTINO < m.freeinode := by
  rw [h.freeinode]
  exact Nat.succ_lt_succ (Nat.succ_pos _)

theorem dinode_eq (k : ℕ) : sb.dinode s.img k
    = if k = ROOTINO
      then { sb.dinode m.mapped ROOTINO with size := rounded (contents files ROOTINO).length }
      else sb.dinode m.mapped k := by
  have halloc := h.image.allocated (k := ROOTINO) le_rfl h.root_lt
  have hle := h.image.sound.size_le halloc
  rw [(h.image.file ROOTINO le_rfl h.root_lt).size] at hle
  have hfits := (h.image.sound.fits halloc).addrs
  have hsmall : rounded (contents files ROOTINO).length < 2 ^ 32 := by
    generalize (contents files ROOTINO).length = n at hle
    unfold rounded
    unfold MAXFILE NDIRECT NINDIRECT BSIZE at *
    omega
  have hx : ({ sb.dinode m.mapped ROOTINO with
      size := rounded (contents files ROOTINO).length } : Dinode).Fits := ⟨hsmall, hfits⟩
  rw [h.img, Superblock.dinode_setDinode m.mapped hx]

/-- The block numbers are those of the image before. -/
theorem blockAt_eq {k : ℕ} (hk : k < NINODES) (pl : Place) :
    s.blockAt k pl = pl.addr m.mapped (sb.dinode m.mapped k) := by
  have hsame : pl.addr s.img (sb.dinode m.mapped k) = pl.addr m.mapped (sb.dinode m.mapped k) := by
    refine Place.addr_congr (fun hind => h.img_data (.inr ?_)) pl
    exact (h.image.sound.used_of_owner (h.image.owner_of_addr hk .indirect hind)).1
  unfold blockAt
  rw [h.dinode_eq]
  grind [Place.addr_setSize]

/-- The files are still there. -/
theorem holding {k : ℕ} (hk : 1 ≤ k) (hlt : k < m.freeinode) :
    Holding s.img (sb.dinode m.mapped k) (contents files k) :=
  (h.image.file k hk hlt).congr (h.image.allocated hk hlt) (h.img_data (.inl rfl))
    (fun _ _ hb => h.img_data (.inr (h.image.sound.used_of_owner hb).1))

theorem bytes_file {i : ℕ} {f : InputFile} (hf : files[i]? = some f) :
    s.bytes (i + 2) = f.content := by
  obtain ⟨hi, -⟩ := List.getElem?_eq_some_iff.mp hf
  have hholding := h.holding (k := i + 2) (by omega) (by rw [h.freeinode]; omega)
  have hcontent : contents files (i + 2) = f.content := by
    show (files[i]?.map InputFile.content).getD [] = _
    rw [hf]
    rfl
  rw [hcontent] at hholding
  unfold bytes
  rw [h.dinode_eq, if_neg (by unfold ROOTINO; omega), hholding.size, funext hholding.bytes]
  have hmap := map_getD_range f.content 0
  rwa [Nat.add_zero, List.replicate_zero, List.append_nil] at hmap

/-- The root directory: its entries, and empty slots up to the rounded size. -/
theorem bytes_root :
    ∃ n, s.bytes ROOTINO
      = (rootEntries files ++ List.replicate n (List.replicate DIRENT 0)).flatten := by
  have hholding := h.holding (k := ROOTINO) le_rfl h.root_lt
  have hlen := length_contents_root files
  obtain ⟨n, hn⟩ : ∃ n, rounded (contents files ROOTINO).length
      = (contents files ROOTINO).length + n * DIRENT := by
    refine ⟨(rounded (contents files ROOTINO).length - (contents files ROOTINO).length) / DIRENT, ?_⟩
    rw [hlen]
    unfold rounded DIRENT DIRSIZ BSIZE
    omega
  refine ⟨n, ?_⟩
  unfold bytes
  rw [h.dinode_eq, if_pos rfl]
  show (List.range (rounded _)).map _ = _
  rw [hn, funext (Dinode.byteAt_setSize _ _ _), funext hholding.bytes, map_getD_range,
    List.flatten_append, List.flatten_replicate_replicate]
  rfl

/-- The directory lists the input files. -/
theorem entries_root (hcount : files.length < NINODES - 1) :
    dirEntries (s.bytes ROOTINO) = (ROOTINO, strncpy DOT DIRSIZ)
      :: (ROOTINO, strncpy DOTDOT DIRSIZ)
      :: files.zipIdx.map (fun f => (f.2 + 2, strncpy (nameOf f.1.imageName) DIRSIZ)) := by
  obtain ⟨n, hn⟩ := h.bytes_root
  have hslots : dirSlots (s.bytes ROOTINO)
      = rootEntries files ++ List.replicate n (List.replicate DIRENT 0) := by
    rw [hn]
    refine dirSlots_flatten (fun e he => ?_)
    rcases List.mem_append.mp he with he | he
    · exact length_of_mem_rootEntries he
    · rw [List.eq_of_mem_replicate he, List.length_replicate]
  have hempty : (List.replicate n (List.replicate DIRENT (0 : UInt8))).filterMap entryOf = [] := by
    refine List.filterMap_eq_nil_iff.mpr (fun de hde => ?_)
    rw [List.eq_of_mem_replicate hde, entryOf_zeros]
  unfold dirEntries
  rw [hslots, List.filterMap_append, hempty, List.append_nil]
  unfold rootEntries
  rw [List.filterMap_cons_some (entryOf_direntBytes DOT (by decide) (by decide)),
    List.filterMap_cons_some (entryOf_direntBytes DOTDOT (by decide) (by decide)),
    List.filterMap_map, ← List.filterMap_eq_map]
  refine congrArg (fun l => _ :: _ :: l) (List.filterMap_congr (fun f hf => ?_))
  have hlt := List.snd_lt_of_mem_zipIdx hf
  exact entryOf_direntBytes _ (Nat.succ_ne_zero _) (by unfold NINODES at hcount; omega)

/-- **The image holds the input files.** -/
theorem laid (hcount : files.length < NINODES - 1) : Laid files s where
  root := by
    rw [h.dinode_eq, if_pos rfl]
    exact h.image.type ROOTINO le_rfl h.root_lt
  entries := h.entries_root hcount
  files := fun i f hf => by
    obtain ⟨hi, -⟩ := List.getElem?_eq_some_iff.mp hf
    refine ⟨?_, h.bytes_file hf⟩
    rw [h.dinode_eq, if_neg (by unfold ROOTINO; omega),
      h.image.type (i + 2) (by omega) (by rw [h.freeinode]; omega),
      if_neg (by unfold ROOTINO; omega)]
  range := fun k hk pl hpl => by
    rw [h.blockAt_eq hk] at hpl ⊢
    obtain ⟨hdata, hsize, huse⟩ := h.image.sound.used_of_owner (h.image.owner_of_addr hk pl hpl)
    rw [inUse_mapped h.image.fits hsize] at huse
    rw [h.freeblock]
    exact ⟨hdata, of_decide_eq_true huse⟩
  distinct := fun k hk j hj pl pl' hpl heq => by
    rw [h.blockAt_eq hk] at hpl heq
    rw [h.blockAt_eq hj] at heq
    have hown := h.image.owner_of_addr hk pl hpl
    have hown' := h.image.owner_of_addr hj pl' (heq ▸ hpl)
    rw [← heq] at hown'
    exact Prod.mk.injEq _ _ _ _ ▸ h.image.sound.ledger.unique hown hown'
  bitmap := fun b hb => by
    have hlt := iblock_bounds (k := ROOTINO) (by decide)
    have hfits : m.freeblock ≤ BPB := h.image.fits.trans (by decide)
    unfold Superblock.inUse Superblock.bblock
    rw [Nat.div_eq_of_lt hb, Nat.zero_add, Nat.mod_eq_of_lt hb, h.img_of_ne (by omega), h.freeblock]
    show (update m.img _ _ _).bit b = _
    rw [update_self, bit_bitmap hfits hb]

/-- The blocks of a file are there below the bytes that were appended. -/
theorem blockAt_ne_zero_iff {k : ℕ} (hk : 1 ≤ k) (hlt : k < m.freeinode)
    {bn : ℕ} {pl : Place} (hpl : Place.ofBlock bn = some pl) :
    s.blockAt k pl ≠ 0 ↔ bn * BSIZE < (contents files k).length := by
  have halloc := h.image.allocated hk hlt
  have hfile := h.image.file k hk hlt
  rw [h.blockAt_eq halloc.1]
  have htight := hfile.tight.places hpl
  have hfull := h.image.sound.full k halloc bn
  rw [hfile.size] at hfull
  simp only [owner_eq halloc, Ne, blockOf_eq_none] at hfull
  grind

/-- The sizes: the one of the root directory is rounded up. -/
theorem size_eq {k : ℕ} (hk : 1 ≤ k) (hlt : k < m.freeinode) :
    (sb.dinode s.img k).size
      = if k = ROOTINO then rounded (contents files k).length else (contents files k).length := by
  have hfile := (h.image.file k hk hlt).size
  rw [h.dinode_eq]
  grind

/-- **No inode has a hole** unless the entries of the root directory fill
their blocks. -/
theorem full_iff :
    s.Full ↔ (files.length + 2) % (BSIZE / DIRENT) ≠ 0 := by
  have hlen := length_contents_root files
  have hsize := h.size_eq (k := ROOTINO) le_rfl h.root_lt
  rw [if_pos rfl, hlen] at hsize
  constructor
  · intro hfull hmod
    obtain ⟨pl, hpl, hne⟩ := hfull ROOTINO (by decide) (DIRENT * (files.length + 2) / BSIZE) (by
      rw [hsize]
      unfold rounded BSIZE
      omega)
    rw [h.blockAt_ne_zero_iff (k := ROOTINO) le_rfl h.root_lt hpl, hlen] at hne
    unfold DIRENT DIRSIZ BSIZE at *
    omega
  · intro hmod k hk bn hbn
    by_cases halloc : 1 ≤ k ∧ k < m.freeinode
    · have hlt : bn * BSIZE < (contents files k).length ∧ bn < MAXFILE := by
        have hle := h.image.sound.size_le (h.image.allocated halloc.1 halloc.2)
        rw [(h.image.file k halloc.1 halloc.2).size] at hle
        rw [h.size_eq halloc.1 halloc.2] at hbn
        by_cases hroot : k = ROOTINO
        · rw [if_pos hroot, hroot, hlen] at hbn
          rw [hroot, hlen] at hle ⊢
          unfold rounded at hbn
          unfold MAXFILE NDIRECT NINDIRECT DIRENT DIRSIZ BSIZE at *
          omega
        · rw [if_neg hroot] at hbn
          generalize (contents files k).length = n at *
          unfold MAXFILE NDIRECT NINDIRECT BSIZE at *
          omega
      obtain ⟨pl, hpl, -⟩ := Place.ofBlock_of_lt bn hlt.2
      exact ⟨pl, hpl, (h.blockAt_ne_zero_iff halloc.1 halloc.2 hpl).mpr hlt.1⟩
    · -- an inode that is not in use is empty
      have hroot : k ≠ ROOTINO := by
        rintro rfl
        exact halloc ⟨le_rfl, h.root_lt⟩
      rw [h.dinode_eq, if_neg hroot, h.image.empty k hk (by omega)] at hbn
      exact absurd hbn (Nat.not_lt_zero _)

end Finished

/-- **`mkfs` builds an image the kernel can trust**, for every list of input
files that fits, exactly if the entries of the root directory do not end with a
block: otherwise its size covers a block that is not there. -/
theorem build_trusted_iff (files : List InputFile) (hcount : files.length < NINODES - 1)
    (hslash : ∀ f ∈ files, SLASH ∉ f.name)
    (hsize : ∀ f ∈ files, f.content.length ≤ MAXFILE * BSIZE)
    (hroom : nmeta + blocksFor (DIRENT * (files.length + 2))
      + (files.map (fun f => blocksFor f.content.length)).sum ≤ FSSIZE) :
    ∃ s, build files = .ok s ∧ Laid files s
      ∧ (Laid files s ∧ s.Full ↔ (files.length + 2) % (BSIZE / DIRENT) ≠ 0) := by
  obtain ⟨m, s, hbuild, h⟩ := exists_finished files hcount hslash hsize hroom
  have hlaid := h.laid hcount
  refine ⟨s, hbuild, hlaid, ?_⟩
  rw [and_iff_right hlaid]
  exact h.full_iff

/-- Three files: one of a byte, an empty one, and one that needs the indirect block. Its first
`read` returns less than a block, so that no later one starts with a block. -/
def smallInputs : List InputFile :=
  [⟨[0x5F, 0x61], [[0x68]], by decide⟩, ⟨[0x62], [], nofun⟩, ⟨[0x63], List.replicate 300 0x69 ::
    List.replicate 13 (List.replicate BSIZE 0x6A), by decide +kernel⟩]

theorem build_trusted_iff_small :
    ∃ s, build smallInputs = .ok s ∧ Laid smallInputs s ∧ s.Full := by
  obtain ⟨s, hbuild, -, hiff⟩ := build_trusted_iff smallInputs (by decide) (by decide)
    (by decide +kernel) (by decide +kernel)
  exact ⟨s, hbuild, hiff.mpr (by decide)⟩

/-- Thirty empty files with names of one letter. -/
def thirtyInputs : List InputFile :=
  (List.range 30).map (fun i => ⟨[UInt8.ofNat (0x61 + i)], [], nofun⟩)

/-- With thirty files the root directory has a hole. -/
theorem not_full_of_thirty :
    (thirtyInputs.map (fun f => strncpy (nameOf f.imageName) DIRSIZ)).Nodup
      ∧ ∃ s, build thirtyInputs = .ok s ∧ ¬ s.Full := by
  refine ⟨by decide +kernel, ?_⟩
  obtain ⟨m, s, hbuild, h⟩ := exists_finished thirtyInputs (by decide) (by decide +kernel)
    (by decide +kernel) (by decide +kernel)
  refine ⟨s, hbuild, fun hfull => ?_⟩
  exact h.full_iff.mp hfull (by decide)

end Mkfs

end Xv6
