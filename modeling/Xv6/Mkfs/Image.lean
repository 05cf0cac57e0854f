import Xv6.Mkfs.Append
import Mathlib.Data.List.GetD

/-!
# The image is one the kernel can trust

`Image m c` is the invariant of `mkfs`: the kernel could mount the image, the
inode `k` holds the bytes `c k`, and the blocks are counted. It is kept by
`ialloc` and `iappend`, so at the end of the loops the contents are those of
the input files. The size of the root directory is rounded up after that, by
one block more than the directory has if its entries fill their last block.
-/

namespace Xv6

open Function

open Wp

namespace Mkfs

/-- The blocks that all the files take. -/
def total (c : ℕ → List UInt8) : ℕ := ∑ k ∈ Finset.range NINODES, blocksFor (c k).length

variable {k : ℕ}

theorem total_update (c : ℕ → List UInt8) (hk : k < NINODES) (x : List UInt8) :
    total (update c k x) + blocksFor (c k).length = total c + blocksFor x.length := by
  unfold total
  rw [← Finset.add_sum_erase _ _ (Finset.mem_range.mpr hk),
    ← Finset.add_sum_erase _ (fun k => blocksFor (c k).length) (Finset.mem_range.mpr hk),
    update_self]
  have hrest : ∑ j ∈ (Finset.range NINODES).erase k, blocksFor (update c k x j).length
      = ∑ j ∈ (Finset.range NINODES).erase k, blocksFor (c j).length := by
    refine Finset.sum_congr rfl (fun j hj => ?_)
    rw [update_of_ne (Finset.ne_of_mem_erase hj)]
  rw [hrest]
  omega

theorem total_mono {c c' : ℕ → List UInt8} (h : ∀ k, (c k).length ≤ (c' k).length) :
    total c ≤ total c' :=
  Finset.sum_le_sum (fun k _ => blocksFor_mono (h k))

/-- **The image at any time**, with the contents `c` of its inodes: a sound disk for the kernel,
with zeros where nothing has been allocated, and as many blocks counted as the contents take. -/
structure Image (m : Mkfs) (c : ℕ → List UInt8) : Prop where
  sectors : m.sectors = FSSIZE
  fits : m.freeblock ≤ FSSIZE
  zeros : ∀ b, b = 0 ∨ m.freeblock ≤ b → m.img b = Block.zero
  sound : SoundDisk sb m.mapped (sb.dinode m.mapped) ∅
  inodes : 1 ≤ m.freeinode ∧ m.freeinode ≤ NINODES
  empty : ∀ k < NINODES, k = 0 ∨ m.freeinode ≤ k → sb.dinode m.mapped k = .fresh 0
  type : ∀ k, 1 ≤ k → k < m.freeinode →
    (sb.dinode m.mapped k).type = if k = ROOTINO then T_DIR else T_FILE
  file : ∀ k, 1 ≤ k → k < m.freeinode → Holding m.mapped (sb.dinode m.mapped k) (c k)
  unused : ∀ k, k = 0 ∨ m.freeinode ≤ k → c k = []
  count : m.freeblock = nmeta + total c

variable {x : Dinode}

/-- An inode without blocks. -/
theorem holding_nil {d : Disk} (hzero : d 0 = Block.zero) (hx : ∀ i, x.addrs i = 0)
    (hsize : x.size = 0) : Holding d x [] := by
  have haddr := Place.addr_of_empty d hx
  refine ⟨hsize, fun p => ?_, ⟨fun _ _ => haddr _, fun _ => hx _⟩⟩
  unfold Dinode.byteAt
  split
  · rfl
  · rw [haddr, hzero]
    exact Bytes.byte_zero _

/-- The blocks of the dinodes lie apart from the free map and the data. -/
theorem iblock_bounds (hk : k < NINODES) :
    0 < sb.iblock k ∧ sb.iblock k < sb.bmapstart ∧ sb.iblock k < nmeta ∧ sb.iblock k < FSSIZE := by
  have hlt := sb_wf.iblock_lt hk
  have hstart : 0 < sb.inodestart := by decide
  have hmeta := bmapstart_lt
  have hsize := nmeta_le
  omega

variable {m : Mkfs}

theorem wp_winode {Q : PUnit → Mkfs → Prop} {R : MkfsHalt → Prop} (hsectors : m.sectors = FSSIZE)
    (hk : k < NINODES) :
    wp (winode k x) Q R m
      ↔ Q ⟨⟩ (m.put (sb.iblock k) ((m.img (sb.iblock k)).setDinode (k % IPB) x)) := by
  have hlt := iblock_bounds hk
  unfold winode
  rw [wp_bind, wp_rsect (by omega), wp_wsect]

theorem wp_rinode {Q : Dinode → Mkfs → Prop} {R : MkfsHalt → Prop} (hsectors : m.sectors = FSSIZE)
    (hk : k < NINODES) :
    wp (rinode k) Q R m ↔ Q (sb.dinode m.mapped k) m := by
  have hlt := iblock_bounds hk
  unfold rinode Superblock.dinode
  rw [wp_bind, wp_rsect (by omega), wp_pure, m.mapped_iblock hk]

/-- A dinode is written: the image that the kernel sees. -/
theorem mapped_winode (m : Mkfs) (hk : k < NINODES) (x : Dinode) :
    (m.put (sb.iblock k) ((m.img (sb.iblock k)).setDinode (k % IPB) x)).mapped
      = update m.mapped (sb.iblock k)
        ((m.mapped (sb.iblock k)).setDinode (k % IPB) x) := by
  have hlt := iblock_bounds hk
  rw [m.mapped_put (by omega), m.mapped_iblock hk]

/-- The disk is sound with its own dinodes when the last one has been written. -/
theorem sound_winode {d : Disk} {eff : ℕ → Dinode} (h : SoundDisk sb d eff ∅) (hk : k < NINODES)
    (hx : x.Fits) (hself : eff k = x) (hothers : ∀ j < NINODES, j ≠ k → sb.dinode d j = eff j) :
    SoundDisk sb (update d (sb.iblock k) ((d (sb.iblock k)).setDinode (k % IPB) x))
      (sb.dinode (update d (sb.iblock k) ((d (sb.iblock k)).setDinode (k % IPB) x))) ∅ := by
  refine (h.write_iblock hk _).congr_lt (fun j hj => ?_)
  rw [Superblock.dinode_setDinode d hx]
  have hne := hothers j hj
  grind

namespace Image

variable {m : Mkfs} {c : ℕ → List UInt8} {k : ℕ}

theorem low (h : Image m c) : nmeta ≤ m.freeblock := by
  have hcount := h.count
  omega

theorem allocated (h : Image m c) (hk : 1 ≤ k) (hlt : k < m.freeinode) :
    Allocated sb (sb.dinode m.mapped) k := by
  refine ⟨hlt.trans_le h.inodes.2, ?_⟩
  rw [h.type k hk hlt]
  split <;> decide

/-- **The kernel can mount the image.** -/
theorem mounted (h : Image m c) (hk : 1 ≤ k) (hlt : k < m.freeinode) :
    (m.mounted k).Consistent := by
  have hother : ∀ ip, ip ≠ ip₀ →
      (m.mounted k).icache ip = ⟨.fresh 0, 0, 0, false, false⟩ := fun ip hip => if_neg hip
  have hself := mounted_ip₀ m k
  have hip : ∀ {ip}, 0 < ((m.mounted k).icache ip).ref → ip = ip₀ := by grind
  obtain ⟨hinum, htype⟩ := h.allocated hk hlt
  refine ⟨h.sound, ⟨fun hr hr' _ => (hip hr).trans (hip hr').symm, fun {ip} _ hr _ => ?_,
    fun {ip} hl => by grind⟩⟩
  rw [hip hr, hself]
  exact ⟨hinum, rfl, htype⟩

/-- **The last dinode is written**, and the dinodes `eff` are those of the image. -/
theorem of_winode (eff : ℕ → Dinode) (hk : 1 ≤ k) (hlt : k < m.freeinode) (hfits : x.Fits)
    (hself : eff k = x) (hothers : ∀ j < NINODES, j ≠ k → sb.dinode m.mapped j = eff j)
    (hsectors : m.sectors = FSSIZE) (hfree : m.freeblock ≤ FSSIZE) (hlow : nmeta ≤ m.freeblock)
    (hzeros : ∀ b, b = 0 ∨ m.freeblock ≤ b → m.img b = Block.zero)
    (hsound : SoundDisk sb m.mapped eff ∅) (hinodes : m.freeinode ≤ NINODES)
    (hempty : ∀ j < NINODES, j = 0 ∨ m.freeinode ≤ j → eff j = .fresh 0)
    (htype : ∀ j, 1 ≤ j → j < m.freeinode → (eff j).type = if j = ROOTINO then T_DIR else T_FILE)
    (hfile : ∀ j, 1 ≤ j → j < m.freeinode → Holding m.mapped (eff j) (c j))
    (hunused : ∀ j, j = 0 ∨ m.freeinode ≤ j → c j = []) (hcount : m.freeblock = nmeta + total c) :
    Image (m.put (sb.iblock k) ((m.img (sb.iblock k)).setDinode (k % IPB) x)) c := by
  have hinum : k < NINODES := hlt.trans_le hinodes
  have hbounds := iblock_bounds hinum
  have hmapped := mapped_winode m hinum x
  have hafter := sound_winode hsound hinum hfits hself hothers
  rw [← hmapped] at hafter
  have hdinode : ∀ j < NINODES, sb.dinode (m.put (sb.iblock k)
      ((m.img (sb.iblock k)).setDinode (k % IPB) x)).mapped j = eff j := by
    intro j hj
    rw [hmapped, Superblock.dinode_setDinode m.mapped hfits]
    grind
  have hkeep : ∀ b, b = 0 ∨ nmeta ≤ b → (m.put (sb.iblock k)
      ((m.img (sb.iblock k)).setDinode (k % IPB) x)).mapped b = m.mapped b := by
    intro b hb
    rw [hmapped, update_of_ne (by omega)]
  refine ⟨?_, hfree, fun b hb => ?_, hafter, ⟨hk.trans hlt.le, hinodes⟩, fun j hj hout => ?_,
    fun j hj hin => ?_, fun j hj hin => ?_, hunused, hcount⟩
  · show max m.sectors (sb.iblock k + 1) = FSSIZE
    omega
  · have hb : b = 0 ∨ m.freeblock ≤ b := hb
    show update m.img _ _ b = _
    rw [update_of_ne (by omega)]
    exact hzeros b hb
  · rw [hdinode j hj]
    exact hempty j hj hout
  · rw [hdinode j (hin.trans_le hinodes)]
    exact htype j hj hin
  · have halloc : Allocated sb eff j := by
      refine ⟨hin.trans_le hinodes, ?_⟩
      rw [htype j hj hin]
      split <;> decide
    rw [hdinode j (hin.trans_le hinodes)]
    exact (hfile j hj hin).congr halloc (hkeep 0 (.inl rfl))
      (fun pl b hb => hkeep b (.inr (hsound.used_of_owner hb).1))

theorem mapped_zero (m : Mkfs) (hzeros : ∀ b, b = 0 ∨ m.freeblock ≤ b → m.img b = Block.zero) :
    m.mapped 0 = Block.zero := by
  rw [m.mapped_of_ne (by decide)]
  exact hzeros 0 (.inl rfl)

/-- **`ialloc` keeps the invariant.** -/
theorem wp_ialloc (h : Image m c) (hroom : m.freeinode < NINODES) {type : Int16}
    (htype : type = if m.freeinode = ROOTINO then T_DIR else T_FILE) :
    wp (ialloc type) (fun inum m' => inum = m.freeinode ∧ m'.freeinode = m.freeinode + 1
      ∧ Image m' c) (fun _ => False) m := by
  have hone := h.inodes.1
  unfold ialloc
  rw [wp_bind, wp_get, wp_bind, wp_modify, wp_bind, wp_winode (by exact h.sectors) hroom, wp_pure]
  refine ⟨rfl, rfl, ?_⟩
  generalize hx : ({ Dinode.fresh type with nlink := 1 } : Dinode) = x
  have hfits : x.Fits := by
    rw [← hx]
    exact ⟨Nat.two_pow_pos 32, fun _ => Nat.two_pow_pos 32⟩
  have haddrs : ∀ i, x.addrs i = 0 := by
    rw [← hx]
    exact fun _ => rfl
  have hsize : x.size = 0 := by rw [← hx]; rfl
  have hxtype : x.type = type := by rw [← hx]; rfl
  -- the inode owned nothing before and owns nothing now
  have hnone : ∀ pl, owner sb m.mapped (sb.dinode m.mapped) (m.freeinode, pl) = none :=
    fun pl => if_neg (fun halloc => halloc.2 (by rw [h.empty _ hroom (.inr le_rfl)]; rfl))
  refine of_winode (m := { m with freeinode := m.freeinode + 1 })
    (update (sb.dinode m.mapped) m.freeinode x) hone (Nat.lt_succ_self _) hfits
    (update_self _ _ _) (fun j _ hne => (update_of_ne hne _ _).symm) h.sectors h.fits h.low h.zeros
    (h.sound.vacant hnone haddrs hsize) hroom (fun j hj hout => ?_) (fun j hj hin => ?_)
    (fun j hj hin => ?_) (fun j hout => h.unused j (by dsimp only at hout; omega)) h.count
  · dsimp only at hout
    rw [update_of_ne (by omega)]
    exact h.empty j hj (by omega)
  · have hold := h.type j hj
    dsimp only at hin
    grind [update_apply]
  · dsimp only at hin
    by_cases hjk : j = m.freeinode
    · rw [hjk, update_self, h.unused _ (.inr le_rfl)]
      exact holding_nil (mapped_zero m h.zeros) haddrs hsize
    · rw [update_of_ne hjk]
      exact h.file j hj (by omega)

/-- `iappend` starts. -/
theorem appending (h : Image m c) (hk : 1 ≤ k) (hlt : k < m.freeinode) (p : List UInt8) :
    Appending m (m.mounted k) p 0 (sb.dinode m.mapped k) m (m.mounted k) (sb.dinode m.mapped) := by
  have hcons := h.mounted hk hlt
  have hfile := h.file k hk hlt
  have hsize : ((m.mounted k).icache ip₀).size = (c k).length := hfile.size
  have href : 0 < ((m.mounted k).icache ip₀).ref := Int.one_pos
  refine ⟨⟨rfl, rfl, rfl, h.sectors, h.zeros, h.low⟩,
    hcons.writing href (hcons.agrees href rfl) le_rfl, Fs.Filled.start _ _ _ _, ?_,
    fun q hq => ?_, rfl, rfl⟩
  · rw [hsize]
    exact hfile.tight
  · rw [hfile.bytes, List.getD_eq_default _ _ (by omega)]

/-- The file after the loop of `iappend`. -/
theorem holding_append (h : Image m c) (hk : 1 ≤ k) (hlt : k < m.freeinode) {p : List UInt8}
    {din : Dinode} {m' : Mkfs} {s : Fs} {eff : ℕ → Dinode}
    (ha : Appending m (m.mounted k) p p.length din m' s eff) :
    Holding m'.mapped { din with size := (c k).length + p.length } (c k ++ p) := by
  have hfile := h.file k hk hlt
  have hsize : ((m.mounted k).icache ip₀).size = (c k).length := hfile.size
  have hbytes := ha.filled.bytes
  have htight := ha.tight
  have hzeros := ha.zeros
  rw [hsize] at hbytes htight hzeros
  rw [ha.views.inode, ha.views.disk] at hbytes
  refine ⟨List.length_append.symm, fun q => ?_, ⟨fun {bn pl} hpl hle => ?_, fun hle => ?_⟩⟩
  · rw [Dinode.byteAt_setSize]
    have hold : ((m.mounted k).icache ip₀).byteAt (m.mounted k).disk q = (c k).getD q 0 :=
      hfile.bytes q
    have hnew := hbytes q
    have hpast := hzeros q
    grind
  · rw [Place.addr_setSize]
    exact htight.places hpl (by rw [List.length_append] at hle; exact hle)
  · exact htight.indirect (by rw [List.length_append] at hle; exact hle)

/-- **`iappend` keeps the invariant.** -/
theorem wp_iappend (h : Image m c) (hk : 1 ≤ k) (hlt : k < m.freeinode) {p : List UInt8}
    (hmax : (c k).length + p.length ≤ MAXFILE * BSIZE)
    (hroom : nmeta + total (update c k (c k ++ p)) ≤ FSSIZE) :
    wp (iappend k p) (fun _ m' => Image m' (update c k (c k ++ p))
      ∧ m'.freeinode = m.freeinode) (fun _ => False) m := by
  have hinum : k < NINODES := hlt.trans_le h.inodes.2
  have hsize : ((m.mounted k).icache ip₀).size = (c k).length := (h.file k hk hlt).size
  have hcount := h.count
  have htotal := total_update c hinum (c k ++ p)
  rw [List.length_append] at htotal
  unfold iappend
  rw [wp_bind, wp_rinode h.sectors hinum, wp_bind]
  have hloop := wp_iappendLoop (by rw [hsize]; exact hmax) (by rw [hsize]; omega) p.length
    (Nat.zero_le _) (Nat.sub_le _ _) (h.appending hk hlt p)
  refine hloop.imp (fun din' m' hm' => ?_)
  obtain ⟨din, s, eff, ha, rfl⟩ := hm'
  have hcount' := ha.count
  rw [hsize] at hcount' ⊢
  rw [wp_winode ha.views.sectors hinum]
  have hW := ha.writing
  rw [hsize] at hW
  have hself : (s.icache ip₀).inum = k := hW.inum_eq
  have hholding := h.holding_append hk hlt ha
  -- the disk is sound with the longer file
  have hsound := hW.setSize.sound
  have htype : (s.icache ip₀).type = (sb.dinode m.mapped k).type := by
    obtain ⟨a, ha⟩ := hW.icache
    rw [ha, update_self]
    rfl
  rw [Fs.setInode_sb, Fs.setInode_disk, ha.views.super, ha.views.disk, hself, ha.views.inode]
    at hsound
  rw [ha.views.inode] at htype
  generalize hx : ({ din with size := (c k).length + p.length } : Dinode) = x at hsound hholding ⊢
  have hxtype : x.type = (sb.dinode m.mapped k).type := by
    rw [← hx]
    exact htype
  have hfits : x.Fits := by
    have hfits := hsound.fits (k := k) ⟨hinum, by
      rw [update_self, hxtype]
      exact (h.allocated hk hlt).2⟩
    rwa [update_self] at hfits
  have hothers : ∀ j < NINODES, j ≠ k → sb.dinode m'.mapped j = eff j
      ∧ sb.dinode m'.mapped j = sb.dinode m.mapped j := by
    intro j hj hne
    have hsame := hW.working.others j (by rw [ha.views.super]; exact hj) (by rw [hself]; exact hne)
    have hsame' := ha.filled.dinodes j hj hne
    rw [ha.views.super, ha.views.disk] at hsame hsame'
    exact ⟨hsame, hsame'⟩
  have hinode := ha.freeinode
  refine ⟨of_winode (update eff k x) hk (hinode ▸ hlt) hfits (update_self _ _ _)
    (fun j hj hne => ?_) ha.views.sectors (by omega) ha.views.low ha.views.zeros hsound
    (hinode ▸ h.inodes.2) (fun j hj hout => ?_) (fun j hj hin => ?_) (fun j hj hin => ?_)
    (fun j hout => ?_) (by omega), hinode⟩
  · rw [update_of_ne hne]
    exact (hothers j hj hne).1
  · rw [hinode] at hout
    obtain ⟨hsame, hsame'⟩ := hothers j hj (by omega)
    rw [update_of_ne (by omega), ← hsame, hsame']
    exact h.empty j hj hout
  · rw [hinode] at hin
    have hsame := hothers j (hin.trans_le h.inodes.2)
    rw [← h.type j hj hin]
    grind [update_apply]
  · rw [hinode] at hin
    by_cases hjk : j = k
    · subst hjk
      rw [update_self, update_self]
      exact hholding
    · -- the blocks of another file
      obtain ⟨hsame, hsame'⟩ := hothers j (hin.trans_le h.inodes.2) hjk
      rw [update_of_ne hjk, update_of_ne hjk, ← hsame, hsame']
      refine (h.file j hj hin).congr (h.allocated hj hin) ?_ (fun pl b hb => ?_)
      · rw [mapped_zero m' ha.views.zeros, mapped_zero m h.zeros]
      · rw [← ha.views.disk]
        exact ha.filled.blocks j pl b hjk hb
  · rw [hinode] at hout
    rw [update_of_ne (by omega)]
    exact h.unused j hout

end Image

/-! ## The program -/

/-- The entries of the root directory. -/
def rootEntries (files : List InputFile) : List (List UInt8) :=
  direntBytes DOT ROOTINO :: direntBytes DOTDOT ROOTINO
    :: files.zipIdx.map (fun f => direntBytes (nameOf f.1.imageName) (f.2 + 2))

/-- The contents of the inodes for the input files. -/
def contents (files : List InputFile) : ℕ → List UInt8
  | 0 => []
  | 1 => (rootEntries files).flatten
  | k + 2 => (files[k]?.map InputFile.content).getD []

theorem length_rootEntries (files : List InputFile) :
    (rootEntries files).length = files.length + 2 := by
  unfold rootEntries
  rw [List.length_cons, List.length_cons, List.length_map, List.length_zipIdx]

variable {files : List InputFile}

theorem length_of_mem_rootEntries {e : List UInt8} (h : e ∈ rootEntries files) :
    e.length = DIRENT := by
  unfold rootEntries at h
  rw [List.mem_cons, List.mem_cons, List.mem_map] at h
  rcases h with rfl | rfl | ⟨f, -, rfl⟩ <;> exact length_direntBytes _ _

theorem length_contents_root (files : List InputFile) :
    (contents files ROOTINO).length = DIRENT * (files.length + 2) := by
  show (rootEntries files).flatten.length = _
  rw [length_flatten_of_slots (fun e he => length_of_mem_rootEntries he), length_rootEntries]

/-- One more input file. -/
theorem contents_concat (files : List InputFile) (f : InputFile) :
    contents (files ++ [f]) = update (update (contents files) ROOTINO
      (contents files ROOTINO ++ direntBytes (nameOf f.imageName) (files.length + 2)))
      (files.length + 2) f.content := by
  funext k
  match k with
  | 0 => rfl
  | 1 =>
    rw [update_of_ne (by omega), show ROOTINO = 1 from rfl, update_self]
    show (rootEntries (files ++ [f])).flatten = (rootEntries files).flatten ++ _
    unfold rootEntries
    rw [List.zipIdx_append, List.map_append]
    simp
  | k + 2 =>
    have hroot : k + 2 ≠ ROOTINO := by
      unfold ROOTINO
      omega
    grind [update_apply, contents]

/-- More input files make the inodes longer. -/
theorem length_contents_le (files more : List InputFile) (k : ℕ) :
    (contents files k).length ≤ (contents (files ++ more) k).length := by
  match k with
  | 0 => exact le_rfl
  | 1 =>
    have h := length_contents_root
    unfold ROOTINO at h
    rw [h, h, List.length_append]
    exact Nat.mul_le_mul_left _ (by omega)
  | k + 2 =>
    unfold contents
    grind

/-- **The blocks that the input files take.** -/
theorem total_contents (h : files.length + 2 ≤ NINODES) :
    total (contents files) = blocksFor (DIRENT * (files.length + 2))
      + (files.map (fun f => blocksFor f.content.length)).sum := by
  have hfiles : ∀ (files : List InputFile) n, files.length ≤ n →
      ∑ k ∈ Finset.range n, blocksFor ((files[k]?.map InputFile.content).getD []).length
        = (files.map (fun f => blocksFor f.content.length)).sum := by
    intro files
    induction files with
    | nil =>
      intro n _
      refine Finset.sum_eq_zero (fun k _ => ?_)
      rw [List.getElem?_nil]
      exact blocksFor_zero
    | cons f files ih =>
      intro n hn
      obtain ⟨n, rfl⟩ : ∃ n', n = n' + 1 := ⟨n - 1, by rw [List.length_cons] at hn; omega⟩
      rw [Finset.sum_range_succ', List.map_cons, List.sum_cons, Nat.add_comm]
      refine congrArg₂ (· + ·) rfl ?_
      exact ih n (by rw [List.length_cons] at hn; omega)
  unfold total
  rw [show NINODES = NINODES - 2 + 1 + 1 from rfl, Finset.sum_range_succ', Finset.sum_range_succ']
  have hroot := length_contents_root files
  unfold ROOTINO at hroot
  show ∑ k ∈ Finset.range (NINODES - 2), blocksFor ((files[k]?.map InputFile.content).getD []).length
    + blocksFor (contents files 1).length + blocksFor 0 = _
  rw [hfiles files (NINODES - 2) (by omega), hroot, blocksFor_zero]
  omega

/-- **One input file is added.** -/
theorem Image.wp_addFile {f : InputFile} (h : Image m (contents files))
    (hinode : m.freeinode = files.length + 2) (hcount : files.length + 2 < NINODES)
    (hslash : SLASH ∉ f.name) (hsize : f.content.length ≤ MAXFILE * BSIZE)
    (hroom : nmeta + total (contents (files ++ [f])) ≤ FSSIZE) :
    wp (addFile ROOTINO f) (fun _ m' => Image m' (contents (files ++ [f]))
      ∧ m'.freeinode = files.length + 3) (fun _ => False) m := by
  unfold addFile
  rw [if_neg hslash]
  refine (h.wp_ialloc (by omega) (if_neg (by unfold ROOTINO; omega)).symm).bind (fun inum m₁ h₁ => ?_)
  obtain ⟨rfl, hinode₁, h₁⟩ := h₁
  rw [hinode] at hinode₁ ⊢
  -- the contents with the entry and a part of the file
  have hpart : ∀ part : List UInt8, part.length ≤ f.content.length →
      nmeta + total (update (update (contents files) ROOTINO
        (contents files ROOTINO ++ direntBytes (nameOf f.imageName) (files.length + 2)))
        (files.length + 2) part) ≤ FSSIZE := by
    intro part hlen
    refine (Nat.add_le_add_left (total_mono (fun k => ?_)) nmeta).trans hroom
    rw [contents_concat]
    grind [update_apply]
  have hnew : update (contents files) ROOTINO
      (contents files ROOTINO ++ direntBytes (nameOf f.imageName) (files.length + 2))
      = update (update (contents files) ROOTINO
        (contents files ROOTINO ++ direntBytes (nameOf f.imageName) (files.length + 2)))
        (files.length + 2) [] := by
    refine (update_eq_self_iff.mpr ?_).symm
    rw [update_of_ne (by unfold ROOTINO; omega), h.unused _ (.inr hinode.le)]
  refine (h₁.wp_iappend (k := ROOTINO) le_rfl (by unfold ROOTINO; omega) ?_ ?_).bind (fun _ m₂ h₂ => ?_)
  · rw [length_contents_root, length_direntBytes]
    unfold DIRENT DIRSIZ MAXFILE NDIRECT NINDIRECT BSIZE NINODES at *
    omega
  · rw [hnew]
    exact hpart [] (Nat.zero_le _)
  · obtain ⟨h₂, hinode₂⟩ := h₂
    rw [contents_concat]
    refine wp_forM (I := fun done m => Image m (update (update (contents files)
      ROOTINO (contents files ROOTINO ++ direntBytes (nameOf f.imageName) (files.length + 2)))
      (files.length + 2) done.flatten) ∧ m.freeinode = files.length + 3)
      (fun done x rest m₃ hdone h₃ => ?_) ⟨by rw [List.flatten_nil, ← hnew]; exact h₂, by omega⟩
    obtain ⟨h₃, hinode₃⟩ := h₃
    have hle : done.flatten.length + x.length ≤ f.content.length := by
      unfold InputFile.content
      rw [hdone, List.flatten_append, List.flatten_cons, List.length_append, List.length_append]
      omega
    have happend := h₃.wp_iappend (k := files.length + 2) (p := x) (by omega) (by omega)
      (by rw [update_self]; omega)
    rw [update_self, update_idem] at happend
    refine (happend (hpart _ (by rw [List.length_append]; exact hle))).imp (fun _ m₄ h₄ => ?_)
    rw [List.flatten_append, List.flatten_singleton]
    exact ⟨h₄.1, h₄.2.trans hinode₃⟩

/-- The image without inodes. -/
theorem image_empty (hsectors : m.sectors = FSSIZE) (hinode : m.freeinode = 1)
    (hblock : m.freeblock = nmeta) (himg : m.img = update (fun _ => Block.zero) 1
      (Block.zero.setWords 0 (fun i => sbWords.getD i 0) 7)) : Image m (fun _ => []) := by
  have hzero : ∀ b, b ≠ 1 → m.img b = Block.zero := by
    intro b hb
    rw [himg, update_of_ne hb]
  have hfresh : Block.zero.dinode = fun _ => Dinode.fresh 0 := by
    funext k
    unfold Block.dinode
    simp only [Block.word_zero]
    rfl
  have hdinode : ∀ k < NINODES, sb.dinode m.mapped k = .fresh 0 := by
    intro k hk
    have hlt := (sb_wf.iblock_lt hk).1
    have hstart := sb_wf.super
    unfold Superblock.dinode
    rw [m.mapped_iblock hk, hzero _ (by omega), hfresh]
  have htotal : total (fun _ => []) = 0 := Finset.sum_eq_zero (fun _ _ => blocksFor_zero)
  have hmeta := nmeta_le
  have hmeta' : nmeta = sb.nmeta := by decide
  have hcons : (⟨m.mapped, sb, fun _ => ⟨.fresh 0, 0, 0, false, false⟩,
      fun _ => ⟨none, none⟩, []⟩ : Fs).Consistent := by
    refine Fs.consistent_of_empty sb_wf ?_ (fun b hb => ?_) (fun k hk => ?_) (fun _ => ⟨rfl, rfl⟩)
    · show (m.mapped 1).superblock = sb
      rw [m.mapped_of_ne (by decide), himg, update_self]
      decide +kernel
    · show sb.inUse m.mapped b = decide (b < sb.nmeta)
      rw [inUse_mapped (by omega) hb, hblock, hmeta']
    · refine .inl ?_
      show (sb.dinode m.mapped k).type = 0
      rw [hdinode k hk]
      rfl
  refine ⟨hsectors, by omega, fun b hb => hzero b ?_, hcons.sound, ?_, fun k hk _ => hdinode k hk,
    fun k hk hlt => by omega, fun k hk hlt => by omega, fun _ _ => rfl, by rw [htotal]; exact hblock⟩
  · have hone : 1 < nmeta := by decide
    omega
  · rw [hinode]
    decide

/-- **The image before its last steps.** -/
theorem wp_files (hcount : files.length < NINODES - 1) (hslash : ∀ f ∈ files, SLASH ∉ f.name)
    (hsize : ∀ f ∈ files, f.content.length ≤ MAXFILE * BSIZE)
    (hroom : nmeta + total (contents files) ≤ FSSIZE) (h : Image m (contents []))
    (hinode : m.freeinode = 2) :
    wp (files.forM (addFile ROOTINO)) (fun _ m' => Image m' (contents files)
      ∧ m'.freeinode = files.length + 2) (fun _ => False) m := by
  refine wp_forM (I := fun done m => Image m (contents done) ∧ m.freeinode = done.length + 2)
    (fun done f rest m' hdone h' => ?_) ⟨h, hinode⟩
  have hf : f ∈ files := by
    rw [hdone]
    exact List.mem_append_right _ List.mem_cons_self
  have hlen : done.length + 2 < NINODES := by
    rw [hdone, List.length_append, List.length_cons] at hcount
    omega
  have hroom' : nmeta + total (contents (done ++ [f])) ≤ FSSIZE := by
    have hsplit : files = (done ++ [f]) ++ rest := by
      rw [hdone, List.append_assoc]
      rfl
    refine (Nat.add_le_add_left (total_mono (fun k => ?_)) nmeta).trans hroom
    rw [hsplit]
    exact length_contents_le (done ++ [f]) rest k
  obtain ⟨himage, hnum⟩ := h'
  refine (himage.wp_addFile hnum hlen (hslash f hf) (hsize f hf) hroom').imp (fun _ m'' h'' => ?_)
  refine ⟨h''.1, ?_⟩
  rw [List.length_append, List.length_singleton]
  exact h''.2

end Mkfs

end Xv6
