import Xv6.Fs.Walk

/-!
# Inodes as processes see them

The allocated inodes of a consistent file system, with their type, their device, their
links and their bytes, but without where the bytes are on the disk. The functions of
`fs.c` that write change one node at a time: `iupdate` after a change of the fields,
`writei`, `ialloc`, and the `iput` that frees an inode.
-/

namespace Xv6

open Function

open Wp

/-- **An allocated inode**, without where its bytes are on the disk: all that a process can find
out about a file. -/
structure Node where
  type : Int16
  major : Int16
  minor : Int16
  nlink : Int16
  bytes : List UInt8

namespace Fs

/-- A dinode with its bytes. -/
def nodeOf (s : Fs) (k : ℕ) : Node where
  type := (s.sb.dinode s.disk k).type
  major := (s.sb.dinode s.disk k).major
  minor := (s.sb.dinode s.disk k).minor
  nlink := (s.sb.dinode s.disk k).nlink
  bytes := s.fileBytes k

/-- **The node of an inode**, if it is allocated. -/
def node (s : Fs) (k : ℕ) : Option Node :=
  if Allocated s.sb (s.sb.dinode s.disk) k then some (s.nodeOf k) else none

variable {s s' : Fs} {ip : Ip} {k : ℕ}

theorem node_of_allocated (h : Allocated s.sb (s.sb.dinode s.disk) k) :
    s.node k = some (s.nodeOf k) := if_pos h

theorem node_eq_none_iff : s.node k = none ↔ ¬ Allocated s.sb (s.sb.dinode s.disk) k := by
  unfold node
  grind

variable {x : Node}

theorem node_eq_some_iff :
    s.node k = some x ↔ Allocated s.sb (s.sb.dinode s.disk) k ∧ s.nodeOf k = x := by
  unfold node
  grind

/-- The node of an inode that is locked. -/
theorem Consistent.node_locked (h : s.Consistent) (hl : (s.icache ip).locked = true) :
    s.node (s.icache ip).inum = some ⟨(s.icache ip).type, (s.icache ip).major, (s.icache ip).minor,
      (s.icache ip).nlink, s.fileBytes (s.icache ip).inum⟩ := by
  have hip := (h.of_locked hl).2
  refine node_eq_some_iff.mpr ⟨hip.allocated, ?_⟩
  unfold nodeOf
  rw [← hip.copy]

theorem Consistent.exists_node (h : s.Consistent) (hl : (s.icache ip).locked = true) :
    ∃ x, s.node (s.icache ip).inum = some x ∧ x.type = (s.icache ip).type :=
  ⟨_, h.node_locked hl, rfl⟩

theorem Consistent.length_le (h : s.Consistent) (hx : s.node k = some x) :
    x.bytes.length ≤ MAXFILE * BSIZE := by
  obtain ⟨halloc, rfl⟩ := node_eq_some_iff.mp hx
  show (s.fileBytes k).length ≤ _
  rw [length_fileBytes_dinode]
  exact h.sound.size_le halloc

/-! ## What does not change -/

/-- A file keeps its bytes, if it keeps its addresses and its blocks. -/
theorem fileBytes_congr (h : s.Consistent) (hk : Allocated s.sb (s.sb.dinode s.disk) k)
    (haddrs : (s'.sb.dinode s'.disk k).addrs = (s.sb.dinode s.disk k).addrs)
    (hsize : (s'.sb.dinode s'.disk k).size = (s.sb.dinode s.disk k).size)
    (hdata : ∀ pl c, owner s.sb s.disk (s.sb.dinode s.disk) (k, pl) = some c → s'.disk c = s.disk c) :
    s'.fileBytes k = s.fileBytes k := by
  unfold fileBytes
  rw [hsize]
  refine List.map_congr_left (fun p hp => ?_)
  have hp := List.mem_range.mp hp
  obtain ⟨pl, hpl, hne⟩ := h.sound.full k hk (p / BSIZE)
    ((Nat.div_mul_le_self p BSIZE).trans_lt hp)
  rw [owner_eq hk, Ne, blockOf_eq_none] at hne
  refine byteAt_congr haddrs (fun pl hpl => hdata pl _ ?_) hpl hne
  rw [owner_eq hk]
  exact blockOf_eq_some.mpr ⟨rfl, hpl⟩

/-- A node stays, if its dinode and its bytes do. -/
theorem node_of_bytes (hsb : s'.sb = s.sb)
    (hdinode : k < s.sb.ninodes → s'.sb.dinode s'.disk k = s.sb.dinode s.disk k)
    (hbytes : Allocated s.sb (s.sb.dinode s.disk) k → s'.fileBytes k = s.fileBytes k) :
    s'.node k = s.node k := by
  unfold node nodeOf
  unfold Allocated at *
  rw [hsb] at *
  grind

/-- A node stays, if its dinode and its blocks do. -/
theorem node_congr (h : s.Consistent) (hsb : s'.sb = s.sb)
    (hdinode : k < s.sb.ninodes → s'.sb.dinode s'.disk k = s.sb.dinode s.disk k)
    (hdata : ∀ pl c, owner s.sb s.disk (s.sb.dinode s.disk) (k, pl) = some c → s'.disk c = s.disk c) :
    s'.node k = s.node k := by
  refine node_of_bytes hsb hdinode (fun hk => ?_)
  have hd := hdinode hk.1
  exact fileBytes_congr h hk (by rw [hd]) (by rw [hd]) hdata

/-- **One node changes.** -/
theorem node_update (h : s.Consistent) (hsb : s'.sb = s.sb)
    (hdinodes : ∀ j < s.sb.ninodes, j ≠ k → s'.sb.dinode s'.disk j = s.sb.dinode s.disk j)
    (hdata : ∀ j pl c, j ≠ k → owner s.sb s.disk (s.sb.dinode s.disk) (j, pl) = some c →
      s'.disk c = s.disk c) : s'.node = update s.node k (s'.node k) := by
  funext j
  by_cases hj : j = k
  · rw [hj, update_self]
  · rw [update_of_ne hj]
    exact node_congr h hsb (fun hlt => hdinodes j hlt hj) (fun pl c => hdata j pl c hj)

/-- The disk does not change. -/
theorem node_of_disk (hdisk : s'.disk = s.disk) (hsb : s'.sb = s.sb) : s'.node = s.node := by
  funext k
  unfold node nodeOf fileBytes
  rw [hdisk, hsb]

/-! ## A dinode is written -/

/-- `x` is written to the dinode `k`. -/
structure Stored (s : Fs) (k : ℕ) (x : Dinode) (s' : Fs) : Prop where
  sb : s'.sb = s.sb
  dinode : ∀ j, s'.sb.dinode s'.disk j = if j = k then x else s.sb.dinode s.disk j
  data : ∀ p c, owner s.sb s.disk (s.sb.dinode s.disk) p = some c → s'.disk c = s.disk c

theorem Consistent.stored {t : Fs} (h : s.Consistent) (hk : k < s.sb.ninodes) {x : Dinode}
    (hx : x.Fits) (hsb : t.sb = s.sb) (hdisk : t.disk = update s.disk (s.sb.iblock k)
      ((s.disk (s.sb.iblock k)).setDinode (k % IPB) x)) : Stored s k x t where
  sb := hsb
  dinode j := by
    rw [hsb, hdisk]
    exact Superblock.dinode_setDinode s.disk hx j
  data p c hc := by
    have hdata := (h.sound.used_of_owner hc).1
    have hi := h.sound.wf.iblock_lt hk
    have hmeta := h.sound.wf.bmapstart_lt
    rw [hdisk, update_of_ne (by omega)]

namespace Stored

variable {x : Dinode}

variable (hs : Stored s k x s')

include hs

theorem node_eq (h : s.Consistent) :
    s'.node = update s.node k (s'.node k) :=
  node_update h hs.sb (fun j _ hj => (hs.dinode j).trans (if_neg hj)) (fun j pl c _ => hs.data (j, pl) c)

theorem dinode_self : s'.sb.dinode s'.disk k = x :=
  (hs.dinode k).trans (if_pos rfl)

/-- The dinode loses its type. -/
theorem node_none (h : s.Consistent) (hx : x.type = 0) :
    s'.node = update s.node k none := by
  rw [hs.node_eq h]
  refine congrArg _ (node_eq_none_iff.mpr (fun halloc => halloc.2 ?_))
  rw [hs.dinode_self]
  exact hx

/-- The dinode has a type. -/
theorem node_some (h : s.Consistent) (hk : k < s.sb.ninodes) (hx : x.type ≠ 0) {b : List UInt8}
    (hbytes : s'.fileBytes k = b) :
    s'.node = update s.node k (some ⟨x.type, x.major, x.minor, x.nlink, b⟩) := by
  rw [hs.node_eq h]
  refine congrArg _ (node_eq_some_iff.mpr ⟨⟨by rw [hs.sb]; exact hk, ?_⟩, ?_⟩)
  · rw [hs.dinode_self]
    exact hx
  · unfold nodeOf
    rw [hs.dinode_self, hbytes]

/-- An allocated inode keeps its addresses, and so its bytes. -/
theorem fileBytes_eq (h : s.Consistent) (hk : Allocated s.sb (s.sb.dinode s.disk) k)
    (haddrs : x.addrs = (s.sb.dinode s.disk k).addrs) (hsize : x.size = (s.sb.dinode s.disk k).size) :
    s'.fileBytes k = s.fileBytes k :=
  fileBytes_congr h hk (by rw [hs.dinode_self, haddrs]) (by rw [hs.dinode_self, hsize])
    (fun pl c => hs.data (k, pl) c)

end Stored

/-! ## What the functions change -/

/-- Copies of dinodes change, and nothing that is only in memory. -/
def Quiet (s s' : Fs) : Prop := ∀ jp, (s'.icache jp).inum = (s.icache jp).inum ∧
  (s'.icache jp).ref = (s.icache jp).ref ∧ (s'.icache jp).locked = (s.icache jp).locked ∧
  (s'.icache jp).valid = (s.icache jp).valid

theorem Quiet.of_update (ip : Ip) {i : Inode} (hicache : s'.icache = update s.icache ip i)
    (hi : i.inum = (s.icache ip).inum ∧ i.ref = (s.icache ip).ref ∧ i.locked = (s.icache ip).locked ∧
      i.valid = (s.icache ip).valid) : Quiet s s' := by
  intro jp
  rw [hicache, update_apply]
  grind

/-- **One node is written**: the inode `k` has become `y`, all other inodes are as they were, and
so are the references, the locks and the numbers of the cached inodes. -/
structure Wrote (s : Fs) (k : ℕ) (y : Node) (s' : Fs) : Prop where
  consistent : s'.Consistent
  sb : s'.sb = s.sb
  quiet : Quiet s s'
  node : s'.node = update s.node k (some y)

/-- **The fields that system calls set change**, and `iupdate` follows. -/
theorem wp_fields_node (h : s.Consistent) (hl : (s.icache ip).locked = true)
    (hx : s.node (s.icache ip).inum = some x) (major minor nlink : Int16) {R : FsHalt → Prop} :
    wp (do
      modify (setInode ip (fun i => { i with major := major, minor := minor, nlink := nlink }))
      iupdate ip) (fun _ s' => Wrote s (s.icache ip).inum
        { x with major := major, minor := minor, nlink := nlink } s') R s := by
  obtain ⟨href, hip⟩ := h.of_locked hl
  have hcons := wp_iupdate_fields h href hip major minor nlink (R := R)
  have hself : (s.setInode ip (fun i =>
      { i with major := major, minor := minor, nlink := nlink })).icache ip
      = { s.icache ip with major := major, minor := minor, nlink := nlink } :=
    update_self _ _ _
  have hfits : ({ (s.icache ip).toDinode with major := major, minor := minor, nlink := nlink } :
      Dinode).Fits := by
    rw [hip.copy]
    exact ⟨(Block.fits_dinode _ _).size, (Block.fits_dinode _ _).addrs⟩
  rw [h.node_locked hl] at hx
  cases hx
  rw [wp_bind, wp_modify, wp_iupdate, hself] at hcons ⊢
  refine ⟨hcons, rfl, .of_update ip rfl ⟨rfl, rfl, rfl, rfl⟩, ?_⟩
  have hs := h.stored (t := writeBlock (s.sb.iblock (s.icache ip).inum)
    (Block.setDinode ((s.icache ip).inum % IPB)
      { (s.icache ip).toDinode with major := major, minor := minor, nlink := nlink })
    (s.setInode ip (fun i => { i with major := major, minor := minor, nlink := nlink })))
    hip.inum hfits rfl rfl
  exact hs.node_some h hip.inum hip.type (hs.fileBytes_eq h hip.allocated (by rw [hip.copy])
    (by rw [hip.copy]))

theorem wp_addLinks_node (h : s.Consistent) (hl : (s.icache ip).locked = true)
    (hx : s.node (s.icache ip).inum = some x) (n : Int16) {R : FsHalt → Prop} :
    wp (addLinks ip n) (fun _ s' => Wrote s (s.icache ip).inum { x with nlink := x.nlink + n } s')
      R s := by
  have hself := Option.some.inj (hx.symm.trans (h.node_locked hl))
  have hfields := wp_fields_node h hl hx (s.icache ip).major (s.icache ip).minor
    ((s.icache ip).nlink + n) (R := R)
  unfold addLinks
  rw [wp_bind, wp_modify] at hfields ⊢
  rw [hself] at hfields ⊢
  exact hfields

/-- **`writei` of bytes that fit.** -/
theorem wp_writei_node (h : s.Consistent) (hl : (s.icache ip).locked = true)
    (hx : s.node (s.icache ip).inum = some x) (hdev : x.type ≠ T_DEV) {src : List UInt8} {off : ℕ}
    (hoff : off ≤ x.bytes.length) (hmax : off + src.length ≤ MAXFILE * BSIZE) :
    wp (writei ip src off) (fun n s' => n = src.length ∧ Wrote s (s.icache ip).inum
      { x with bytes := overwrite x.bytes off src } s') (· = .outOfBlocks) s := by
  obtain ⟨href, hip⟩ := h.of_locked hl
  have hword : MAXFILE * BSIZE < 2 ^ 32 := by decide
  have hoff' : off < 2 ^ 32 := by omega
  have hsrc : src.length < 2 ^ 32 := by omega
  rw [h.node_locked hl] at hx
  cases hx
  rw [length_fileBytes h hl] at hoff
  refine ((wp_writei_bytes h hl hdev hoff hmax).and (wp_writei h href hip hoff' hsrc)).imp
    (fun n s' hs' => ?_)
  obtain ⟨⟨hn, hbytes, hothers, hdinodes, a, m, hself⟩, hcons, hsb, x, hicache⟩ := hs'
  have hicache' : s'.icache = update s.icache ip { s.icache ip with addrs := a, size := m } := by
    rw [hicache, update_self] at hself
    rw [hicache, hself]
  refine ⟨hn, hcons, hsb, .of_update ip hicache' ⟨rfl, rfl, rfl, rfl⟩, ?_⟩
  have hl' : (s'.icache ip).locked = true := by
    rw [hself]
    exact hl
  have hhere := hcons.node_locked hl'
  rw [hself] at hhere
  funext j
  by_cases hj : j = (s.icache ip).inum
  · rw [hj, update_self, hhere]
    rw [← hbytes]
  · rw [update_of_ne hj]
    exact node_of_bytes hsb (hdinodes j · hj) (hothers j hj)

/-- **A new inode**, without links and bytes, and a reference to it: `ip` is for an inode number
that was free, which is not zero. -/
structure Fresh (s : Fs) (type : Int16) (ip : Ip) (s' : Fs) : Prop where
  consistent : s'.Consistent
  sb : s'.sb = s.sb
  steady : Steady s s'
  refs : s'.refs = s.refs + held (some ip)
  pos : 0 < (s'.icache ip).ref
  none : s.node (s'.icache ip).inum = none
  lt : (s'.icache ip).inum < s.sb.ninodes
  ne : (s'.icache ip).inum ≠ 0
  node : s'.node = update s.node (s'.icache ip).inum (some ⟨type, 0, 0, 0, []⟩)

theorem wp_ialloc_node (h : s.Consistent) {type : Int16} (htype : type ≠ 0) :
    wp (ialloc type) (fun ip s' => Fresh s type ip s') (fun e => e = .noDinodes ∨ e = .noInodes) s := by
  refine wp_ialloc_free (.inl rfl) (fun k hpos hlt hfree => ?_)
  have hfits : (Dinode.fresh type).Fits := ⟨Nat.two_pow_pos 32, fun _ => Nat.two_pow_pos 32⟩
  have hs := h.stored (t := s.writeBlock (s.sb.iblock k) (Block.setDinode (k % IPB) (.fresh type)))
    hlt hfits rfl rfl
  have hnode := hs.node_some h hlt (b := []) htype (by
    unfold fileBytes
    rw [hs.dinode_self]
    rfl)
  refine (wp_iget_got (h.alloc hlt hfree type) k).mono (fun ip s' hs' => ?_) (fun _ he => .inr he.1)
  obtain ⟨hgot, -, hinum, href⟩ := hs'
  refine ⟨hgot.consistent, hgot.sb, hgot.steady, hgot.refs, href, ?_, ?_, ?_, ?_⟩
  · rw [hinum]
    exact node_eq_none_iff.mpr (fun halloc => halloc.2 hfree)
  · rw [hinum]
    exact hlt
  · rw [hinum]
    exact hpos.ne'
  · rw [hinum, node_of_disk hgot.disk hgot.sb, hnode]
    rfl

/-- The next `iput` frees the inode: the reference is the last one, and the copy that is in memory
has no links. -/
def Last (s : Fs) (ip : Ip) : Prop :=
  (s.icache ip).valid = true ∧ (s.icache ip).nlink = 0 ∧ (s.icache ip).ref = 1

instance (s : Fs) (ip : Ip) : Decidable (s.Last ip) := inferInstanceAs (Decidable (_ ∧ _ ∧ _))

/-- Of an inode that is locked, the node says it. -/
theorem Consistent.last_iff (h : s.Consistent) (hl : (s.icache ip).locked = true)
    (hx : s.node (s.icache ip).inum = some x) :
    s.Last ip ↔ x.nlink = 0 ∧ (s.icache ip).ref = 1 := by
  have hself := Option.some.inj (hx.symm.trans (h.node_locked hl))
  have hvalid := (h.cached.locked hl).2
  unfold Last
  rw [hself]
  exact ⟨fun hlast => hlast.2, fun hlast => ⟨hvalid, hlast⟩⟩

/-- **What giving a reference back leaves**: one reference less, and all inodes as they were, but
for the inode itself if the reference was its last one and it has no links. -/
structure Put (ip : Ip) (s s' : Fs) : Prop extends Others ip s s' where
  consistent : s'.Consistent
  sb : s'.sb = s.sb
  ref : (s'.icache ip).ref = (s.icache ip).ref - 1
  valid : ¬ s.Last ip → (s'.icache ip).valid = (s.icache ip).valid
  node : s'.node = if s.Last ip then update s.node (s.icache ip).inum none else s.node
  logged : ∀ c ∈ s'.logged, c ∈ s.logged ∨ (∃ b < s.sb.size, c = s.sb.bblock b)
    ∨ c = s.sb.iblock (s.icache ip).inum

/-- **`iput`** frees the inode, if the reference is the last one and there are no links. It logs
the free map and the dinode then, and nothing otherwise. -/
theorem wp_iput_put (h : s.Consistent) (href : 0 < (s.icache ip).ref) :
    wp (iput ip) (fun _ s' => (s.icache ip).locked = false ∧ Put ip s s') (· = .waiting) s := by
  have hself : (s.setInode ip (fun i => { i with locked := true })).icache ip
      = { s.icache ip with locked := true } := update_self _ _ _
  have hlock := Others.setInode ip s (f := fun i => { i with locked := true }) rfl
  have hunlock : ∀ s : Fs, Others ip s (s.put ip) := fun s => .of_update (put_icache s ip) rfl
  suffices hrest : wp (iput ip) (fun _ s' => (s.icache ip).locked = false ∧ (s'.Consistent →
      Put ip s s')) (fun _ => True) s from
    ((wp_iput h href).and hrest).imp (fun _ s' hs' => ⟨hs'.2.1, hs'.2.2 hs'.1⟩)
  unfold iput acquiresleep iputFree releasesleep
  rw [wp_bind, wp_bind, wp_get]
  split
  · exact trivial
  · next hlocked =>
    have hlocked := Bool.eq_false_of_not_eq_true hlocked
    rw [wp_modify, wp_bind, wp_bind, wp_get, hself]
    split
    · next hfree =>
      have hlast : s.Last ip := hfree
      have hvalid := hlast.1
      have hip := h.agrees href hvalid
      obtain ⟨hcons, hip'⟩ := h.lock href hvalid
      refine (wp_itrunc hcons (by rw [hself]; exact href) hip' (R := fun _ => True)).bind (fun _ s₁ h₁ => ?_)
      obtain ⟨hcons₁, hsb, hicache, -, hdata, hdinodes, hlogged⟩ := h₁
      rw [hself] at hdinodes hlogged
      have hothers : Others ip s s₁ := hlock.trans (.of_update hicache (by rw [hself]))
      have hself₁ : s₁.icache ip = { s.icache ip with
          locked := true, toDinode := (s.icache ip).toDinode.truncated } := by
        rw [hicache, update_self, hself]
      have hnode₁ : s₁.node = update s.node (s.icache ip).inum (s₁.node (s.icache ip).inum) :=
        node_update h hsb hdinodes (fun j pl c _ hc => hdata c (h.sound.used_of_owner hc).1)
      -- the dinode without a type is written
      have htype := Others.setInode ip s₁ (f := fun i => { i with type := 0 }) rfl
      have hentry : (s₁.setInode ip fun i => { i with type := 0 }).icache ip
          = { s.icache ip with
            locked := true, toDinode := { (s.icache ip).toDinode.truncated with type := 0 } } := by
        rw [setInode_icache, update_self, hself₁]
      have hfits : ({ (s.icache ip).toDinode.truncated with type := 0 } : Dinode).Fits :=
        ⟨Nat.two_pow_pos 32, fun _ => Nat.two_pow_pos 32⟩
      rw [wp_bind, wp_modify, wp_bind, wp_iupdate, wp_modify, wp_bind, wp_modify, wp_modify, hentry]
      refine ⟨hlocked, fun hcons => ⟨(hothers.trans htype).trans (.trans ?_ (hunlock _)), hcons, hsb, ?_,
        absurd hlast, ?_, fun c hc => (List.mem_append.mp hc).elim (hlogged c) (fun hc => ?_)⟩⟩
      · exact .of_update rfl rfl
      · show ((Fs.put ip _).icache ip).ref = _
        rw [put_icache, update_self, setInode_icache, update_self, writeBlock_icache,
          hentry]
      · have hs := hcons₁.stored (t := s₁.writeBlock (s₁.sb.iblock (s.icache ip).inum)
          (Block.setDinode ((s.icache ip).inum % IPB)
            { (s.icache ip).toDinode.truncated with type := 0 })) (by rw [hsb]; exact hip.inum)
          hfits rfl rfl
        have hnone := hs.node_none hcons₁ rfl
        rw [hnode₁, update_idem] at hnone
        rw [if_pos hlast, ← hnone]
        exact node_of_disk rfl rfl
      · rw [setInode_sb, hsb] at hc
        exact .inr (.inr (List.mem_singleton.mp hc))
    · next hfree =>
      have hlast : ¬ s.Last ip := hfree
      rw [wp_pure, wp_bind, wp_modify, wp_modify]
      refine ⟨hlocked, fun hcons => ⟨hlock.trans (hunlock _), hcons, rfl, ?_, fun _ => ?_, ?_,
        fun _ => .inl⟩⟩
      · show (((s.setInode ip (fun i => { i with locked := true })).put ip).icache ip).ref = _
        rw [put_icache, update_self, hself]
      · show (((s.setInode ip (fun i => { i with locked := true })).put ip).icache ip).valid = _
        rw [put_icache, update_self, hself]
      · rw [if_neg hlast]
        exact node_of_disk rfl rfl

theorem wp_iunlockput_put (ip : Ip) (h : s.Consistent) :
    wp (iunlockput ip) (fun _ s' => Put ip s s') (fun e => e = .iunlock ∨ e = .waiting) s := by
  have hself : (s.setInode ip (fun i => { i with locked := false })).icache ip
      = { s.icache ip with locked := false } := update_self _ _ _
  have hunlock := Others.setInode ip s (f := fun i => { i with locked := false }) rfl
  have hlast : (s.setInode ip (fun i => { i with locked := false })).Last ip ↔ s.Last ip := by
    unfold Last
    rw [hself]
  unfold iunlockput
  rw [wp_bind]
  refine (wp_iunlock h ip).mono (fun _ s₁ h₁ => ?_) (fun _ he => .inl he.1)
  obtain ⟨hcons, hl, rfl⟩ := h₁
  have href := (h.cached.locked hl).1
  refine (wp_iput_put hcons (by rw [hself]; exact href)).mono (fun _ s' hs' => ?_) (fun _ => .inr)
  obtain ⟨-, hs'⟩ := hs'
  refine ⟨hunlock.trans hs'.toOthers, hs'.consistent, hs'.sb, ?_, fun hno => ?_, ?_, fun c hc => ?_⟩
  · rw [hs'.ref, hself]
  · rw [hs'.valid (fun hl => hno (hlast.mp hl)), hself]
  · rw [hs'.node, hunlock.here]
    exact if_congr hlast rfl rfl
  · have hc := hs'.logged c hc
    rwa [hself] at hc

/-! ## Between calls -/

theorem isDir_iff_node : s.IsDir k ↔ ∃ x, s.node k = some x ∧ x.type = T_DIR := by
  constructor
  · exact fun h => ⟨_, node_of_allocated h.1, h.2⟩
  · rintro ⟨x, hx, htype⟩
    obtain ⟨halloc, rfl⟩ := node_eq_some_iff.mp hx
    exact ⟨halloc, htype⟩

theorem slot_of_node (h : s.node k = some x) (j : ℕ) : s.slot k j = dirSlot x.bytes j := by
  obtain ⟨-, rfl⟩ := node_eq_some_iff.mp h
  rfl

theorem Settled.entries_node (h : s.Settled) (hx : s.node k = some x) (htype : x.type = T_DIR)
    (j : ℕ) (hused : direntInum (dirSlot x.bytes j) ≠ 0) : s.Safe (direntInum (dirSlot x.bytes j)) := by
  rw [← slot_of_node hx] at hused ⊢
  exact h.entries k j (isDir_iff_node.mpr ⟨x, hx, htype⟩) hused

/-- **The file system stays settled**, if no reference is given back, and the nodes that change
are in use and have entries for inodes that lookups may take. -/
theorem Settled.next (h : s.Settled) (hcons : s'.Consistent) (hsb : s'.sb = s.sb)
    (hrefs : ∀ ip, (s.icache ip).ref ≤ (s'.icache ip).ref)
    (hinum : ∀ ip, 0 < (s.icache ip).ref → (s'.icache ip).inum = (s.icache ip).inum)
    (hrange : ∀ ip, 0 < (s'.icache ip).ref → (s'.icache ip).inum < s.sb.ninodes)
    (hnode : ∀ k x, s'.node k = some x → s.node k = some x ∨
      (∃ ip, 0 < (s'.icache ip).ref ∧ (s'.icache ip).inum = k) ∧ (x.type = T_DIR → ∀ j,
        direntInum (dirSlot x.bytes j) ≠ 0 → s.Safe (direntInum (dirSlot x.bytes j)))) :
    s'.Settled := by
  have hsafe : ∀ k, s.Safe k → s'.Safe k := by
    intro k hk
    refine ⟨hsb ▸ hk.1, fun halloc hnlink => ?_⟩
    rcases hnode k _ (node_of_allocated halloc) with hold | ⟨huse, -⟩
    · obtain ⟨halloc', hsame⟩ := node_eq_some_iff.mp hold
      obtain ⟨ip, href, hip⟩ := hk.2 halloc' ((congrArg Node.nlink hsame).trans hnlink)
      exact ⟨ip, href.trans_le (hrefs ip), (hinum ip href).trans hip⟩
    · exact huse
  refine ⟨hcons, fun ip => (h.nonneg ip).trans (hrefs ip), fun ip hip => hsb ▸ hrange ip hip,
    hsafe _ h.root, fun k j hdir hused => ?_, fun hwide k hk => ?_⟩
  · obtain ⟨x, hx, htype⟩ := isDir_iff_node.mp hdir
    rw [slot_of_node hx] at hused ⊢
    rcases hnode k x hx with hold | ⟨-, hentries⟩
    · exact hsafe _ (h.entries_node hold htype j hused)
    · exact hsafe _ (hentries htype j hused)
  · rw [hsb] at hwide hk
    exact hsafe k (h.wide hwide k hk)

/-- A walk does not unsettle. -/
theorem Walk.settled {s₀ : Fs} {H : Multiset Ip} (h : Walk s₀ H s) (h₀ : s₀.Settled) : s.Settled := by
  refine h₀.next h.consistent h.sb (fun ip => ?_) h.inum (fun ip hip => h.sb ▸ h.range ip hip)
    (fun k x hx => .inl ?_)
  · rw [h.refs]
    omega
  · rw [← node_of_disk h.disk h.sb]
    exact hx

theorem Settled.fresh {type : Int16} (h : s.Settled) (hf : Fresh s type ip s') : s'.Settled := by
  refine h.next hf.consistent hf.sb (fun jp => ?_) (fun jp hjp => ((hf.steady jp).2 hjp).1)
    (fun jp hjp => ?_) (fun k x hx => ?_)
  · rw [ref_of_held hf.refs]
    split <;> omega
  · have hrange := h.range jp
    have hlt := hf.lt
    have hsteady := (hf.steady jp).2
    rw [ref_of_held hf.refs] at hjp
    grind
  · rw [hf.node, update_apply] at hx
    split at hx
    · next hk =>
      cases hx
      refine .inr ⟨⟨ip, hf.pos, hk.symm⟩, fun _ j hused => absurd ?_ hused⟩
      unfold dirSlot
      rw [List.drop_nil, List.take_nil]
      rfl
    · exact .inl hx

/-- **An inode in use is written**, with entries for inodes that lookups may take. -/
theorem Settled.wrote (h : s.Settled) (href : 0 < (s.icache ip).ref) {y : Node}
    (hw : Wrote s (s.icache ip).inum y s')
    (hentries : y.type = T_DIR → ∀ j, direntInum (dirSlot y.bytes j) ≠ 0 →
      s.Safe (direntInum (dirSlot y.bytes j))) : s'.Settled := by
  refine h.next hw.consistent hw.sb (fun jp => (hw.quiet jp).2.1.ge) (fun jp _ => (hw.quiet jp).1)
    (fun jp hjp => ?_) (fun k x hx => ?_)
  · rw [(hw.quiet jp).1]
    exact h.range jp ((hw.quiet jp).2.1 ▸ hjp)
  · rw [hw.node, update_apply] at hx
    split at hx
    · next hk =>
      cases hx
      exact .inr ⟨⟨ip, (hw.quiet ip).2.1 ▸ href, (hw.quiet ip).1.trans hk.symm⟩, hentries⟩
    · exact .inl hx

end Fs

end Xv6
