import Mathlib.Data.List.DropRight
import Mathlib.Data.Multiset.Count
import Xv6.Fs.Bytes
import Xv6.Fs.RefCount

/-!
# Walks over the file system

A path is looked up by taking a reference to a directory, locking it, reading its entries
and giving the reference back. None of that writes to the disk: the one way in which a
lookup could write is an `iput` that frees an inode, and an inode without links that the
lookup comes across has, besides the reference of the lookup, one of its own.

`Walk s₀ H s` says that a call that began in `s₀` is in `s`, has written nothing and holds
the references `H`. The lemmas take it through each function; `namex` is the long walk.
-/

namespace Xv6

open Function

open Wp

namespace Fs

/-- An allocated directory. -/
def IsDir (s : Fs) (k : ℕ) : Prop :=
  Allocated s.sb (s.sb.dinode s.disk) k ∧ (s.sb.dinode s.disk k).type = T_DIR

instance (s : Fs) : DecidablePred s.IsDir := fun _ => inferInstanceAs (Decidable (_ ∧ _))

/-- **The inode that a name names** in the directory `k`. -/
def child (s : Fs) (k : ℕ) (name : ℕ → UInt8) : Option ℕ :=
  if s.IsDir k then (s.slotOf k name).map (fun j => direntInum (s.slot k j)) else none

/-- **An inode that a lookup may take and give back**: it is on the disk, and if it has no
links, another reference keeps it. -/
def Safe (s : Fs) (k : ℕ) : Prop := k < s.sb.ninodes ∧
  (Allocated s.sb (s.sb.dinode s.disk) k → (s.sb.dinode s.disk k).nlink = 0 →
    ∃ ip, 0 < (s.icache ip).ref ∧ (s.icache ip).inum = k)

instance (s : Fs) : DecidablePred s.Safe :=
  fun _ => inferInstanceAs (Decidable (_ ∧ (_ ∧ _ → _ → ∃ _, _ ∧ _)))

/-- **Between two calls**: no count is negative, inodes in use are on the disk, and lookups may
take the root and what entries name. An entry has 16 bits for the number, so if there are more
inodes, it may come to name any of them. Inodes that are lost, without links, names and
references, are not excluded. -/
structure Settled (s : Fs) : Prop where
  consistent : s.Consistent
  nonneg : ∀ ip, 0 ≤ (s.icache ip).ref
  range : ∀ ip, 0 < (s.icache ip).ref → (s.icache ip).inum < s.sb.ninodes
  root : s.Safe ROOTINO
  entries : ∀ k j, s.IsDir k → direntInum (s.slot k j) ≠ 0 → s.Safe (direntInum (s.slot k j))
  wide : 2 ^ 16 < s.sb.ninodes → ∀ k < s.sb.ninodes, s.Safe k

/-- An inode in use is kept. -/
theorem Settled.safe {s : Fs} (h : s.Settled) {ip : Ip} (hip : 0 < (s.icache ip).ref) :
    s.Safe (s.icache ip).inum :=
  ⟨h.range ip hip, fun _ _ => ⟨ip, hip, rfl⟩⟩

/-- **A call that has written nothing**: it started in `s₀` and holds the references `H` that it
has taken. Entries of the cache that were in use then are still for the same inodes, and what the
call holds can be given back without freeing it. -/
structure Walk (s₀ : Fs) (H : Multiset Ip) (s : Fs) : Prop where
  consistent : s.Consistent
  disk : s.disk = s₀.disk
  sb : s.sb = s₀.sb
  logged : s.logged = s₀.logged
  refs : ∀ ip, (s.icache ip).ref = (s₀.icache ip).ref + H.count ip
  inum : ∀ ip, 0 < (s₀.icache ip).ref → (s.icache ip).inum = (s₀.icache ip).inum
  valid : ∀ ip, 0 < (s₀.icache ip).ref → (s₀.icache ip).valid = true → (s.icache ip).valid = true
  range : ∀ ip, 0 < (s.icache ip).ref → (s.icache ip).inum < s.sb.ninodes
  safe : ∀ ip ∈ H, s₀.Safe (s.icache ip).inum

/-- The entries of the cache that are in use stay, and so do the locks. -/
def Steady (s s' : Fs) : Prop := ∀ jp, (s'.icache jp).locked = (s.icache jp).locked ∧
  (0 < (s.icache jp).ref → (s'.icache jp).inum = (s.icache jp).inum ∧
    (s'.icache jp).valid = (s.icache jp).valid)

variable {ip : Ip} {s s' : Fs}

/-- An entry changes, but not its lock, and if it is in use not its inode. -/
theorem Steady.of_update {i : Inode} (hicache : s'.icache = update s.icache ip i)
    (hlocked : i.locked = (s.icache ip).locked)
    (hused : 0 < (s.icache ip).ref → i.inum = (s.icache ip).inum ∧ i.valid = (s.icache ip).valid) :
    Steady s s' := by
  intro jp
  rw [hicache, update_apply]
  grind

/-- What taking a reference leaves. -/
structure Got (ip : Ip) (s s' : Fs) : Prop where
  consistent : s'.Consistent
  disk : s'.disk = s.disk
  sb : s'.sb = s.sb
  steady : Steady s s'
  refs : s'.refs = s.refs + held (some ip)

theorem wp_iget_got (h : s.Consistent) (k : ℕ) :
    wp (iget k) (fun ip s' => Got ip s s' ∧ s'.logged = s.logged ∧ (s'.icache ip).inum = k ∧
      0 < (s'.icache ip).ref) (fun e => e = .noInodes ∧ ∀ jp, (s.icache jp).ref ≠ 0) s := by
  refine (((wp_iget_entry s k).and (wp_iget h k)).and (wp_refs_iget s k)).imp (fun ip s' hs' => ?_)
  obtain ⟨⟨hentry, hcons, hpos⟩, hrefs⟩ := hs'
  rcases hentry with ⟨href, hinum, rfl⟩ | ⟨href, -, rfl⟩
  · refine ⟨⟨hcons, rfl, rfl, .of_update rfl rfl (fun _ => ⟨rfl, rfl⟩), hrefs⟩, rfl, ?_, hpos⟩
    rw [setInode_icache, update_self]
    exact hinum
  · refine ⟨⟨hcons, rfl, rfl, .of_update rfl rfl (fun hused => ?_), hrefs⟩, rfl, ?_, hpos⟩
    · omega
    · rw [setInode_icache, update_self]

/-- One reference more, entry by entry. -/
theorem ref_of_held (h : s'.refs = s.refs + held (some ip)) (jp : Ip) :
    (s'.icache jp).ref = (s.icache jp).ref + if jp = ip then 1 else 0 :=
  (congrFun h jp).trans (congrArg ((s.icache jp).ref + ·) (Pi.single_apply ip 1 jp))

/-- The other entries of the cache stay, and the entry keeps its inode. -/
structure Others (ip : Ip) (s s' : Fs) : Prop where
  same : ∀ jp, jp ≠ ip → s'.icache jp = s.icache jp
  here : (s'.icache ip).inum = (s.icache ip).inum

theorem Others.inum (h : Others ip s s') (jp : Ip) :
    (s'.icache jp).inum = (s.icache jp).inum := by
  have hsame := h.same jp
  have hhere := h.here
  grind

theorem Others.trans {s₁ : Fs} (h : Others ip s s₁) (h' : Others ip s₁ s') :
    Others ip s s' :=
  ⟨fun jp hjp => (h'.same jp hjp).trans (h.same jp hjp), h'.here.trans h.here⟩

/-- An entry changes, but not its inode. -/
theorem Others.of_update {i : Inode} (hicache : s'.icache = update s.icache ip i)
    (hinum : i.inum = (s.icache ip).inum) :
    Others ip s s' :=
  ⟨fun jp hjp => by rw [hicache, update_of_ne hjp],
    by rw [hicache, update_self, hinum]⟩

theorem Others.setInode (ip : Ip) (s : Fs) {f : Inode → Inode}
    (hf : (f (s.icache ip)).inum = (s.icache ip).inum) : Others ip s (s.setInode ip f) :=
  .of_update rfl hf

/-- What `ilock` has done: the inode was not locked, and is now. -/
structure Locked (ip : Ip) (s s' : Fs) : Prop extends Others ip s s' where
  free : (s.icache ip).locked = false
  locked : (s'.icache ip).locked = true

/-- What `iunlock` and `iput` leave: the inode is not locked. -/
structure Opened (ip : Ip) (s s' : Fs) : Prop extends Others ip s s' where
  free : (s'.icache ip).locked = false

namespace Walk

variable {s₀ s s' : Fs} {H : Multiset Ip} {ip : Ip}

theorem refl (h : s.Settled) : Walk s 0 s :=
  ⟨h.consistent, rfl, rfl, rfl, fun _ => by rw [Multiset.count_zero]; omega,
    fun _ _ => rfl, fun _ _ hvalid => hvalid, h.range,
    fun _ hip => absurd hip (Multiset.notMem_zero _)⟩

variable (h : Walk s₀ H s)

include h

theorem fileBytes : s.fileBytes = s₀.fileBytes := by
  funext k
  unfold Fs.fileBytes
  rw [h.disk, h.sb]

variable {k : ℕ}

theorem isDir_iff : s.IsDir k ↔ s₀.IsDir k := by
  unfold IsDir
  rw [h.disk, h.sb]

theorem allocated_iff :
    Allocated s.sb (s.sb.dinode s.disk) k ↔ Allocated s₀.sb (s₀.sb.dinode s₀.disk) k := by
  rw [h.disk, h.sb]

/-- A directory that is locked. -/
theorem isDir_locked (hl : (s.icache ip).locked = true)
    (htype : (s.icache ip).type = T_DIR) : s₀.IsDir (s.icache ip).inum := by
  have hip := (h.consistent.of_locked hl).2
  rw [hip.copy] at htype
  exact h.isDir_iff.mp ⟨hip.allocated, htype⟩

/-- A reference that is held counts. -/
theorem ref_pos (h₀ : s₀.Settled) (hip : ip ∈ H) : 0 < (s.icache ip).ref := by
  have hbase := h₀.nonneg ip
  have hcount := Multiset.count_pos.mpr hip
  rw [h.refs]
  omega

/-- One entry of the cache changes, and the disk does not. -/
theorem change (ip : Ip) {H' : Multiset Ip} {i : Inode} (hcons : s'.Consistent)
    (hdisk : s'.disk = s.disk) (hsb : s'.sb = s.sb) (hlogged : s'.logged = s.logged)
    (hicache : s'.icache = update s.icache ip i)
    (hcount : ∀ jp, jp ≠ ip → H'.count jp = H.count jp)
    (href : i.ref = (s₀.icache ip).ref + H'.count ip)
    (hinum : 0 < (s₀.icache ip).ref → i.inum = (s₀.icache ip).inum)
    (hvalid : 0 < (s₀.icache ip).ref → (s₀.icache ip).valid = true → i.valid = true)
    (hrange : 0 < i.ref → i.inum < s.sb.ninodes) (hsafe : ip ∈ H' → s₀.Safe i.inum) :
    Walk s₀ H' s' := by
  obtain ⟨-, hdisk', hsb', hlogged', hrefs, hinum', hvalid', hrange', hsafe'⟩ := h
  refine ⟨hcons, hdisk.trans hdisk', hsb.trans hsb', hlogged.trans hlogged', ?_, ?_, ?_, ?_, ?_⟩
  all_goals
    rw [hicache]
    grind [update_apply, Multiset.count_pos]

/-! ## References and locks -/

/-- **A reference is taken** to an inode of the disk. -/
theorem got (h₀ : s₀.Settled) (hgot : Got ip s s') (hlogged : s'.logged = s.logged)
    (hip : s₀.Safe (s'.icache ip).inum) : Walk s₀ (ip ::ₘ H) s' := by
  have hlt := hip.1
  have hused : ∀ jp, 0 < (s₀.icache jp).ref → (s'.icache jp).inum = (s.icache jp).inum ∧
      (s'.icache jp).valid = (s.icache jp).valid := by
    intro jp hjp
    have hsum := h.refs jp
    exact (hgot.steady jp).2 (by omega)
  refine ⟨hgot.consistent, hgot.disk.trans h.disk, hgot.sb.trans h.sb, hlogged.trans h.logged,
    fun jp => ?_, fun jp hjp => (hused jp hjp).1.trans (h.inum jp hjp),
    fun jp hjp hvalid => (hused jp hjp).2.trans (h.valid jp hjp hvalid), fun jp hjp => ?_,
    fun jp hjp => ?_⟩
  · rw [ref_of_held hgot.refs, h.refs, Multiset.count_cons]
    split <;> omega
  · have hsteady := (hgot.steady jp).2
    have hrange := h.range jp
    rw [ref_of_held hgot.refs] at hjp
    rw [← h.sb] at hlt
    rw [hgot.sb]
    grind
  · rcases Multiset.mem_cons.mp hjp with rfl | hjp
    · exact hip
    · rw [((hgot.steady jp).2 (h.ref_pos h₀ hjp)).1]
      exact h.safe jp hjp

theorem wp_idup (h₀ : s₀.Settled) (href : 0 < (s₀.icache ip).ref) {R : FsHalt → Prop} :
    wp (idup ip) (fun _ s' => Walk s₀ (ip ::ₘ H) s' ∧ Steady s s') R s := by
  unfold idup
  rw [wp_modify]
  have hsteady : Steady s (s.setInode ip (fun i => { i with ref := i.ref + 1 })) :=
    .of_update rfl rfl (fun _ => ⟨rfl, rfl⟩)
  have hsum := h.refs ip
  have hpos : 0 < (s.icache ip).ref := by omega
  refine ⟨h.got h₀ ⟨h.consistent.addRef hpos, rfl, rfl, hsteady, refs_setInode_add rfl⟩ rfl ?_,
    hsteady⟩
  rw [((hsteady ip).2 hpos).1, h.inum ip href]
  exact h₀.safe href

/-- **`iget`** takes a reference to the inode. -/
theorem wp_iget (h₀ : s₀.Settled) (hk : s₀.Safe k) :
    wp (iget k) (fun ip s' => Walk s₀ (ip ::ₘ H) s' ∧ (s'.icache ip).inum = k ∧ Steady s s')
      (fun e => e = .noInodes ∧ ∀ jp, (s.icache jp).ref ≠ 0) s := by
  refine (wp_iget_got h.consistent k).imp (fun ip s' hs' => ?_)
  obtain ⟨hgot, hlogged, hinum, -⟩ := hs'
  exact ⟨h.got h₀ hgot hlogged (by rw [hinum]; exact hk), hinum, hgot.steady⟩

/-- **`ilock`** of an inode that is held: it waits for a lock, and stops at an inode that is
not allocated. -/
theorem wp_ilock (href : 0 < (s.icache ip).ref) :
    wp (ilock ip) (fun _ s' => Walk s₀ H s' ∧ Locked ip s s')
      (fun _ => (s.icache ip).locked = false →
        ¬ Allocated s₀.sb (s₀.sb.dinode s₀.disk) (s.icache ip).inum) s := by
  refine ((wp_ilock_entry s ip).and (Fs.wp_ilock h.consistent (h.range ip href))).mono
    (fun _ s' hs' => ?_) (fun e he hopen halloc => ?_)
  · obtain ⟨⟨-, hfree, d, rfl, -⟩, hcons, hlocked⟩ := hs'
    exact ⟨h.change ip hcons rfl rfl rfl rfl (fun _ _ => rfl) (h.refs ip) (h.inum ip)
      (fun _ _ => rfl) (fun _ => h.range ip href) (h.safe ip), .of_update rfl rfl, hfree, hlocked⟩
  · rcases he with ⟨-, hlt⟩ | ⟨-, hlocked⟩ | ⟨-, htype⟩
    · omega
    · rw [hopen] at hlocked
      cases hlocked
    · rw [h.disk, h.sb] at htype
      exact halloc.2 htype

theorem wp_iunlock (href : 0 < (s.icache ip).ref) :
    wp (iunlock ip) (fun _ s' => Walk s₀ H s' ∧ Opened ip s s')
      (fun _ => (s.icache ip).locked = false) s := by
  refine (Fs.wp_iunlock h.consistent ip).mono (fun _ s' hs' => ?_) (fun _ => And.right)
  obtain ⟨hcons, -, rfl⟩ := hs'
  exact ⟨h.change ip hcons rfl rfl rfl rfl (fun _ _ => rfl) (h.refs ip) (h.inum ip) (h.valid ip)
    (fun _ => h.range ip href) (h.safe ip), .of_update rfl rfl, by rw [setInode_icache, update_self]⟩

/-- **The reference of a walk is not the last one** to an inode without links. -/
theorem not_last (h₀ : s₀.Settled) (hip : ip ∈ H) :
    ¬ ((s.icache ip).valid = true ∧ (s.icache ip).nlink = 0 ∧ (s.icache ip).ref = 1) := by
  rintro ⟨hvalid, hnlink, href⟩
  have hpos := h.ref_pos h₀ hip
  have hagrees := h.consistent.agrees hpos hvalid
  rw [hagrees.copy] at hnlink
  obtain ⟨jp, hjp, hinum⟩ := (h.safe ip hip).2 (h.allocated_iff.mp hagrees.allocated)
    (by rw [← h.disk, ← h.sb]; exact hnlink)
  -- the inode has one entry, which `s₀` counts and so does the walk
  have hsum := h.refs jp
  have hsame : jp = ip := by
    refine h.consistent.cached.unique ?_ hpos ((h.inum jp hjp).trans hinum)
    omega
  have hcount := Multiset.count_pos.mpr hip
  rw [hsame] at hjp hsum
  omega

/-- **`iput`** gives a reference back, and frees nothing. -/
theorem wp_iput (h₀ : s₀.Settled) (hip : ip ∈ H) :
    wp (iput ip) (fun _ s' => Walk s₀ (H.erase ip) s' ∧ Opened ip s s')
      (fun _ => (s.icache ip).locked = true) s := by
  have hpos := h.ref_pos h₀ hip
  refine ((wp_iput_keep (h.not_last h₀ hip)).and (Fs.wp_iput h.consistent hpos)).mono
    (fun _ s' hs' => ?_) (fun _ => And.right)
  obtain ⟨⟨-, rfl⟩, hcons⟩ := hs'
  refine ⟨h.change ip hcons rfl rfl rfl rfl (fun jp hjp => Multiset.count_erase_of_ne hjp H) ?_
    (h.inum ip) (h.valid ip) (fun _ => h.range ip hpos) (fun _ => h.safe ip hip), .of_update rfl rfl,
    by rw [setInode_icache, update_self]⟩
  have hcount := Multiset.count_pos.mpr hip
  have hsum := h.refs ip
  rw [Multiset.count_erase_self]
  show (s.icache ip).ref - 1 = _
  omega

theorem wp_iunlockput (h₀ : s₀.Settled) (hip : ip ∈ H) :
    wp (iunlockput ip) (fun _ s' => Walk s₀ (H.erase ip) s' ∧ Opened ip s s')
      (fun _ => (s.icache ip).locked = false) s := by
  unfold iunlockput
  refine (h.wp_iunlock (h.ref_pos h₀ hip)).bind (fun _ s₁ h₁ => ?_)
  refine (h₁.1.wp_iput h₀ hip).mono (fun _ s₂ h₂ => ?_) (fun _ hlocked => ?_)
  · exact ⟨h₂.1, h₁.2.toOthers.trans h₂.2.toOthers, h₂.2.free⟩
  · rw [h₁.2.free] at hlocked
    cases hlocked

end Walk

/-! ## Directories -/

/-- What `dirlookup` has found: a reference to the inode that the name names, and the offset of
its entry. -/
structure Found (s₀ : Fs) (H : Multiset Ip) (s : Fs) (dp : Ip) (name : ℕ → UInt8) (ip : Ip) (off : ℕ)
    (s' : Fs) : Prop where
  walk : Walk s₀ (ip ::ₘ H) s'
  steady : Steady s s'
  at_slot : ∃ j, off = DIRENT * j ∧ s₀.NamesAt (s.icache dp).inum j name (s'.icache ip).inum
  child : s₀.child (s.icache dp).inum name = some (s'.icache ip).inum

namespace Walk

variable {s₀ s : Fs} {H : Multiset Ip} {dp : Ip}

theorem slotOf_eq (h : Walk s₀ H s) : s.slotOf = s₀.slotOf := by
  unfold slotOf slot
  rw [h.fileBytes, h.disk, h.sb]

/-- **`dirlookup`** finds a slot with the name, or there is none. -/
theorem wp_dirlookup (h : Walk s₀ H s) (h₀ : s₀.Settled) (hl : (s.icache dp).locked = true)
    (name : ℕ → UInt8) :
    wp (dirlookup dp name) (fun r s' => s₀.IsDir (s.icache dp).inum ∧
      (r = none → s' = s ∧ s₀.slotOf (s.icache dp).inum name = none) ∧
      ∀ ip off, r = some (ip, off) → Found s₀ H s dp name ip off s')
      (fun e => (s.icache dp).type = T_DIR → DIRENT ∣ (s.icache dp).size →
        e = .noInodes ∧ ∀ jp, (s.icache jp).ref ≠ 0) s := by
  refine Fs.wp_dirlookup h.consistent hl (fun htype hnone => ?_) (fun htype j hj => ?_)
    (fun e _ hno htype hsize => absurd ⟨htype, hsize⟩ hno)
  · rw [h.slotOf_eq] at hnone
    exact ⟨h.isDir_locked hl htype, fun _ => ⟨rfl, hnone⟩, nofun⟩
  · have hdir := h.isDir_locked hl htype
    have hslot : s.slot (s.icache dp).inum j = s₀.slot (s.icache dp).inum j := by
      unfold slot
      rw [h.fileBytes]
    rw [h.slotOf_eq] at hj
    rw [hslot]
    have hsafe := h₀.entries (s.icache dp).inum j hdir (slotOf_eq_some_iff.mp hj).1.used
    refine (h.wp_iget h₀ hsafe).mono (fun ip s' h' => ⟨hdir, nofun, fun ip' off hsome => ?_⟩)
      (fun e he _ _ => he)
    cases hsome
    obtain ⟨hwalk, hinum, hsteady⟩ := h'
    refine ⟨hwalk, hsteady, ⟨j, rfl, ?_⟩, ?_⟩
    · rw [hinum]
      exact (slotOf_eq_some_iff.mp hj).1
    · rw [hinum, child, if_pos hdir, hj]
      rfl

end Walk

/-! ## Paths -/

/-- `skipelem` until it returns zero: the elements of a path. -/
def elements : ℕ → Path → List (ℕ → UInt8)
  | 0, _ => []
  | turns + 1, path =>
    match skipelem path with
    | none => []
    | some (rest, name) => name :: elements turns rest

/-- The path is at its end after the last element. -/
theorem elements_eq_nil_iff {path rest : Path} {name : ℕ → UInt8} {turns : ℕ}
    (h : skipelem path = some (rest, name)) (hturns : 0 < turns) :
    elements turns rest = [] ↔ rest.headD 0 = 0 := by
  have hrest : rest.dropWhile (· == SLASH) = rest := by
    unfold skipelem at h
    dsimp only at h
    split at h
    · cases h
    · cases h
      exact List.dropWhile_idempotent _ _
  cases turns with
  | zero => exact absurd hturns (Nat.lt_irrefl 0)
  | succ turns =>
    unfold elements skipelem
    dsimp only
    rw [hrest]
    grind

/-- **What `namex` looks for**: the names are looked up in turn, and for a parent the last one
is not. -/
def target (s : Fs) (parent : Bool) : ℕ → List (ℕ → UInt8) → Option (ℕ × (ℕ → UInt8))
  | k, [] => if parent then none else some (k, nameOf [])
  | k, name :: names =>
    if s.IsDir k then
      if parent = true ∧ names = [] then some (k, name)
      else (s.child k name).bind (fun m => s.target parent m names)
    else none

/-- Where `namex` starts. -/
def start (s : Fs) (cwd : Ip) (path : Path) : ℕ :=
  if path.headD 0 = SLASH then ROOTINO else (s.icache cwd).inum

/-- **A tree of directories**: what a lookup from the root or from `cwd` comes to is allocated,
the slots of directories are whole, and nothing is locked. -/
structure Tree (s : Fs) (cwd : Ip) : Prop where
  root : Allocated s.sb (s.sb.dinode s.disk) ROOTINO
  cwd : Allocated s.sb (s.sb.dinode s.disk) (s.icache cwd).inum
  child : ∀ k name m, s.child k name = some m → Allocated s.sb (s.sb.dinode s.disk) m
  size : ∀ k, s.IsDir k → DIRENT ∣ (s.sb.dinode s.disk k).size
  unlocked : ∀ ip, (s.icache ip).locked = false

/-- **Room for a lookup**: two entries of the inode cache are not in use, and not for the
references `H`. One is for the directory that is read, one for what is found there. -/
def Room (s : Fs) (H : Multiset Ip) : Prop :=
  ∃ a b, a ≠ b ∧ a ∉ H ∧ b ∉ H ∧ (s.icache a).ref = 0 ∧ (s.icache b).ref = 0

/-- The room that a lookup with one reference leaves. -/
theorem Room.exists_free {s₀ : Fs} {H : Multiset Ip} (hroom : s₀.Room H) (h : Walk s₀ (ip ::ₘ H) s) :
    ∃ jp, (s.icache jp).ref = 0 := by
  obtain ⟨a, b, hab, ha, hb, hra, hrb⟩ := hroom
  have hfree : ∀ jp, jp ≠ ip → jp ∉ H → (s₀.icache jp).ref = 0 → (s.icache jp).ref = 0 := by
    intro jp hne hH hzero
    rw [h.refs, hzero, Multiset.count_cons_of_ne hne, Multiset.count_eq_zero.mpr hH]
    rfl
  by_cases hip : a = ip
  · exact ⟨b, hfree b (by grind) hb hrb⟩
  · exact ⟨a, hfree a hip ha hra⟩

/-- What `namex` returns: the inode, and that it is a directory if it is a parent. -/
structure Named (s₀ : Fs) (parent : Bool) (H : Multiset Ip) (ip : Ip) (s : Fs) : Prop where
  walk : Walk s₀ (ip ::ₘ H) s
  isDir : parent = true → s₀.IsDir (s.icache ip).inum

namespace Walk

variable {s₀ s : Fs} {H : Multiset Ip} {cwd : Ip}

/-- **The loop of `namex`.** -/
theorem wp_namexLoop (h₀ : s₀.Settled) (parent : Bool) (turns : ℕ) (path : Path) {ip : Ip}
    (hturns : path.length < turns) (h : Walk s₀ (ip ::ₘ H) s) :
    wp (namexLoop parent turns path ip) (fun r s' =>
      (r = none → Walk s₀ H s' ∧ s₀.target parent (s.icache ip).inum (elements turns path) = none) ∧
      ∀ ip' name, r = some (ip', name) → Named s₀ parent H ip' s' ∧
        s₀.target parent (s.icache ip).inum (elements turns path) = some ((s'.icache ip').inum, name))
      (fun e => s₀.Tree cwd → Allocated s₀.sb (s₀.sb.dinode s₀.disk) (s.icache ip).inum →
        (∀ jp, (s.icache jp).locked = false) → e = .noInodes ∧ ¬ s₀.Room H) s := by
  have hmem : ∀ {jp : Ip} {K : Multiset Ip}, jp ∈ jp ::ₘ K := fun {jp K} => Multiset.mem_cons_self jp K
  induction turns generalizing s path ip with
  | zero => exact absurd hturns (Nat.not_lt_zero _)
  | succ turns ih =>
    unfold namexLoop elements
    cases hskip : skipelem path with
    | none =>
      dsimp only
      rw [target]
      split
      · rw [wp_bind]
        refine (h.wp_iput h₀ hmem).mono (fun _ s₁ h₁ => ?_) (fun e he _ _ hopen => ?_)
        · rw [Multiset.erase_cons_head] at h₁
          exact ⟨fun _ => ⟨h₁.1, rfl⟩, by rintro _ _ ⟨⟩⟩
        · rw [hopen] at he
          cases he
      · next hparent =>
        refine ⟨by rintro ⟨⟩, fun ip' name hsome => ?_⟩
        cases hsome
        exact ⟨⟨h, fun hp => absurd hp hparent⟩, rfl⟩
    | some taken =>
      obtain ⟨rest, name⟩ := taken
      have hlength := length_skipelem hskip
      dsimp only
      rw [wp_bind, target]
      refine (h.wp_ilock (h.ref_pos h₀ hmem)).mono (fun _ s₁ h₁ => ?_)
        (fun e he _ halloc hopen => absurd halloc (he (hopen ip)))
      obtain ⟨hwalk, hlock⟩ := h₁
      have hl := hlock.locked
      have hip := (hwalk.consistent.of_locked hl).2
      have hheld : (s₁.icache ip).locked ≠ false := by
        rw [hl]
        decide
      rw [wp_bind, wp_get, ← hlock.here]
      split
      · next htype =>
        rw [wp_bind, if_neg (fun hdir => htype ?_)]
        · refine (hwalk.wp_iunlockput h₀ hmem).mono (fun _ s₂ h₂ => ?_) (fun _ he => absurd he hheld)
          rw [Multiset.erase_cons_head] at h₂
          exact ⟨fun _ => ⟨h₂.1, rfl⟩, by rintro _ _ ⟨⟩⟩
        · rw [hip.copy, hwalk.disk, hwalk.sb]
          exact hdir.2
      · next htype =>
        have hdir := hwalk.isDir_locked hl (Decidable.not_not.mp htype)
        simp only [if_pos hdir, elements_eq_nil_iff hskip (show 0 < turns by omega)]
        split
        · rw [wp_bind]
          refine (hwalk.wp_iunlock (hwalk.ref_pos h₀ hmem)).mono (fun _ s₂ h₂ => ?_) (fun _ he => absurd he hheld)
          refine ⟨by rintro ⟨⟩, fun ip' name' hsome => ?_⟩
          cases hsome
          rw [h₂.2.here]
          exact ⟨⟨h₂.1, fun _ => by rw [h₂.2.here]; exact hdir⟩, rfl⟩
        · rw [wp_bind]
          refine (hwalk.wp_dirlookup h₀ hl name).mono (fun r s₂ h₂ => ?_)
            (fun e he htree _ _ => ?_)
          · obtain ⟨-, hnone, hsome⟩ := h₂
            cases r with
            | none =>
              obtain ⟨rfl, hlookup⟩ := hnone rfl
              rw [wp_bind, child, if_pos hdir, hlookup]
              refine (hwalk.wp_iunlockput h₀ hmem).mono (fun _ s₃ h₃ => ?_) (fun _ he => absurd he hheld)
              rw [Multiset.erase_cons_head] at h₃
              exact ⟨fun _ => ⟨h₃.1, rfl⟩, by rintro _ _ ⟨⟩⟩
            | some found =>
              obtain ⟨next, off⟩ := found
              obtain ⟨hnext, hsteady, -, hchild⟩ := hsome next off rfl
              have hl₂ := (hsteady ip).1.trans hl
              rw [wp_bind]
              have hip : ip ∈ next ::ₘ ip ::ₘ H := Multiset.mem_cons_of_mem hmem
              refine (hnext.wp_iunlockput h₀ hip).mono (fun _ s₃ h₃ => ?_) (fun e hno => ?_)
              · have herase : (next ::ₘ ip ::ₘ H).erase ip = next ::ₘ H := by
                  rw [Multiset.cons_swap, Multiset.erase_cons_head]
                obtain ⟨hwalk₃, hopen₃⟩ := h₃
                rw [herase] at hwalk₃
                rw [hchild, ← hopen₃.inum]
                refine (ih rest (by omega) hwalk₃).mono (fun r s₄ h₄ => h₄)
                  (fun e he htree halloc hopen => he htree ?_ (fun jp => ?_))
                · rw [hopen₃.inum]
                  exact htree.child _ _ _ hchild
                · have hsame := hopen₃.same jp
                  have hsame' := hlock.same jp
                  have hfree := hopen₃.free
                  grind [hsteady jp]
              · rw [hl₂] at hno
                cases hno
          · have hsize := htree.size _ hdir
            rw [← hwalk.disk, ← hwalk.sb, ← hip.copy] at hsize
            obtain ⟨rfl, hfull⟩ := he (Decidable.not_not.mp htype) hsize
            refine ⟨rfl, fun hroom => ?_⟩
            obtain ⟨jp, hjp⟩ := hroom.exists_free hwalk
            exact hfull jp hjp

/-- **`namex`** writes nothing, and returns with the reference to what it found. -/
theorem wp_namex (h₀ : s₀.Settled) (h : Walk s₀ H s) (hcwd : 0 < (s₀.icache cwd).ref) (path : Path)
    (parent : Bool) :
    wp (namex cwd path parent) (fun r s' =>
      (r = none → Walk s₀ H s' ∧
        s₀.target parent (s₀.start cwd path) (elements (path.length + 1) path) = none) ∧
      ∀ ip name, r = some (ip, name) → Named s₀ parent H ip s' ∧
        s₀.target parent (s₀.start cwd path) (elements (path.length + 1) path)
          = some ((s'.icache ip).inum, name))
      (fun e => s₀.Tree cwd → (∀ jp, (s.icache jp).locked = false) →
        e = .noInodes ∧ ¬ s₀.Room H) s := by
  unfold namex start
  dsimp only
  split
  · rw [wp_bind]
    refine (h.wp_iget h₀ h₀.root).mono (fun ip s₁ h₁ => ?_) (fun e he _ _ => ?_)
    · obtain ⟨hwalk, hinum, hsteady⟩ := h₁
      rw [← hinum]
      refine (wp_namexLoop h₀ parent _ path (Nat.lt_succ_self _) hwalk).mono
        (fun _ _ hr => hr) (fun e he htree hopen => he htree ?_ (fun jp => ?_))
      · rw [hinum]
        exact htree.root
      · rw [(hsteady jp).1]
        exact hopen jp
    · refine ⟨he.1, ?_⟩
      rintro ⟨a, -, -, ha, -, hra, -⟩
      refine he.2 a ?_
      rw [h.refs, hra, Multiset.count_eq_zero.mpr ha]
      rfl
  · have href : 0 < (s.icache cwd).ref := by
      have hsum := h.refs cwd
      omega
    refine (h.wp_idup h₀ hcwd).bind (fun _ s₁ h₁ => ?_)
    obtain ⟨hwalk, hsteady⟩ := h₁
    have hinum : (s₁.icache cwd).inum = (s₀.icache cwd).inum := by
      rw [((hsteady cwd).2 href).1, h.inum cwd hcwd]
    rw [wp_bind, wp_pure, ← hinum]
    refine (wp_namexLoop h₀ parent _ path (Nat.lt_succ_self _) hwalk).mono
      (fun _ _ hr => hr) (fun e he htree hopen => he htree ?_ (fun jp => ?_))
    · rw [hinum]
      exact htree.cwd
    · rw [(hsteady jp).1]
      exact hopen jp

theorem wp_namei (h₀ : s₀.Settled) (h : Walk s₀ H s) (hcwd : 0 < (s₀.icache cwd).ref) (path : Path) :
    wp (namei cwd path) (fun r s' => (r = none → Walk s₀ H s') ∧
      ∀ ip, r = some ip → Named s₀ false H ip s') (fun _ => True) s := by
  unfold namei
  refine (wp_namex h₀ h hcwd path false).seq (fun r s' hr => ⟨fun hnone => ?_, fun ip hsome => ?_⟩)
  · exact (hr.1 (Option.map_eq_none_iff.mp hnone)).1
  · obtain ⟨x, hx, rfl⟩ := Option.map_eq_some_iff.mp hsome
    exact (hr.2 x.1 x.2 hx).1

/-! ## Calls that begin with a walk -/

section calls

variable {A : Type} {a : FsM A} {Q : A → Fs → Prop} {path : Path}

/-- A locked inode is given back, and the call goes on. -/
theorem wp_leave {ip : Ip} (h : Walk s₀ (ip ::ₘ H) s) (h₀ : s₀.Settled)
    (ha : ∀ s', Walk s₀ H s' → wp a Q (fun _ => True) s') :
    wp (do
      iunlockput ip
      a) Q (fun _ => True) s := by
  refine (h.wp_iunlockput h₀ (Multiset.mem_cons_self ip H)).seq (fun _ s' hs' => ?_)
  rw [Multiset.erase_cons_head] at hs'
  exact ha s' hs'.1

/-- **`namei` and `ilock`**: a call works on the inode of a path. -/
theorem wp_namei_ilock {f : Ip → FsM A} (h : s.Settled) (hcwd : 0 < (s.icache cwd).ref)
    (hnone : ∀ s', Walk s 0 s' → wp a Q (fun _ => True) s')
    (hsome : ∀ ip s', Walk s (ip ::ₘ 0) s' → (s'.icache ip).locked = true →
      wp (f ip) Q (fun _ => True) s') :
    wp (do
      match ← namei cwd path with
      | none => a
      | some ip => do
        ilock ip
        f ip) Q (fun _ => True) s := by
  refine (wp_namei h (.refl h) hcwd path).seq (fun r s₁ h₁ => ?_)
  split
  · exact hnone s₁ (h₁.1 rfl)
  · next ip =>
    have hwalk := (h₁.2 ip rfl).walk
    refine (hwalk.wp_ilock (hwalk.ref_pos h (Multiset.mem_cons_self ip 0))).seq (fun _ s₂ h₂ => ?_)
    exact hsome ip s₂ h₂.1 h₂.2.locked

/-- **`nameiparent` and `ilock`**: a call works on the directory that a path ends in. -/
theorem wp_nameiparent_ilock {f : Ip → (ℕ → UInt8) → FsM A} (h₀ : s₀.Settled) (h : Walk s₀ H s)
    (hcwd : 0 < (s₀.icache cwd).ref)
    (hnone : ∀ s', Walk s₀ H s' → nameiparent cwd path s = .ok (none, s') →
      wp a Q (fun _ => True) s')
    (hsome : ∀ dp name s₁ s', nameiparent cwd path s = .ok (some (dp, name), s₁) →
      ilock dp s₁ = .ok (⟨⟩, s') → Walk s₀ (dp ::ₘ H) s' → (s'.icache dp).locked = true →
      wp (f dp name) Q (fun _ => True) s') :
    wp (do
      match ← nameiparent cwd path with
      | none => a
      | some (dp, name) => do
        ilock dp
        f dp name) Q (fun _ => True) s := by
  refine (wp_namex h₀ h hcwd path true).run.seq (fun r s₁ h₁ => ?_)
  obtain ⟨hr, hparent⟩ := h₁
  split
  · exact hnone s₁ (hr.1 rfl).1 hparent
  · next dp name =>
    have hwalk := (hr.2 dp name rfl).1.walk
    refine (hwalk.wp_ilock (hwalk.ref_pos h₀ (Multiset.mem_cons_self dp H))).run.seq (fun _ s₂ h₂ => ?_)
    exact hsome dp name s₁ s₂ hparent h₂.2 h₂.1.1 h₂.1.2.locked

end calls

end Walk

end Fs

end Xv6
