import Xv6.Fs.Effect

/-!
# New inodes and their names

`create` looks up the parent and then the name in it. A name that is there is walked to.
For a new one an inode is allocated, gets its dots if it is a directory, and at last its
entry in the parent.
-/

namespace Xv6

open Function

open Wp

namespace Fs

variable {s s' : Fs} {ip dp cwd : Ip}

/-! ## New names -/

/-- The slots of a new directory. -/
def dots (k parent : ℕ) : List UInt8 := direntBytes DOT k ++ direntBytes DOTDOT parent

/-- **A new inode with an entry** in the directory `x`, before `create` gives the directory
back. -/
structure Made (s : Fs) (dp : Ip) (x : Node) (name : ℕ → UInt8) (type major minor : Int16) (ip : Ip)
    (s' : Fs) : Prop where
  settled : s'.Settled
  ne : ip ≠ dp
  locks : (s'.icache ip).locked = true ∧ (s'.icache dp).locked = true
  parent : (s'.icache dp).inum = (s.icache dp).inum
  fresh : s.node (s'.icache ip).inum = none
  pos : (s'.icache ip).inum ≠ 0
  after : ∃ j bytes, Vacant x.bytes j ∧ (type ≠ T_DIR → bytes = []) ∧
    (type = T_DIR → s.sb.ninodes ≤ 2 ^ 16 →
      bytes = dots (s'.icache ip).inum (s.icache dp).inum) ∧
    After s (ip ::ₘ 0) (update (update s.node (s'.icache ip).inum
        (some ⟨type, major, minor, 1, bytes⟩)) (s.icache dp).inum
      (some { x with
        nlink := if type = T_DIR then x.nlink + 1 else x.nlink
        bytes := overwrite x.bytes (DIRENT * j) (direntBytes name (s'.icache ip).inum) })) s'

theorem overwrite_nil (src : List UInt8) : overwrite [] (DIRENT * 0) src = src := by
  unfold overwrite
  rw [List.take_nil, List.drop_nil, List.nil_append, List.append_nil]

theorem overwrite_end (a src : List UInt8) : overwrite a a.length src = a ++ src := by
  unfold overwrite
  rw [List.take_length, List.drop_eq_nil_of_le (Nat.le_add_right _ _), List.append_nil]

/-- A slot for the first entry. -/
theorem Vacant.eq_zero {j : ℕ} (h : Vacant [] j) : j = 0 := by
  have hle := h.le
  unfold DIRENT DIRSIZ at hle
  rw [List.length_nil] at hle
  omega

variable {name : ℕ → UInt8}

/-- A slot for the second one. -/
theorem Vacant.eq_one {inum j : ℕ} (h : Vacant (direntBytes name inum) j) (hpos : inum ≠ 0)
    (hlt : inum < 2 ^ 16) : j = 1 := by
  have hlen := length_direntBytes name inum
  rcases h with ⟨hinside, hzero⟩ | hend
  · have hj : j = 0 := by
      unfold DIRENT DIRSIZ at hinside hlen
      omega
    have hself : dirSlot (direntBytes name inum) 0 = direntBytes name inum := by
      unfold dirSlot
      rw [Nat.mul_zero, List.drop_zero, ← hlen, List.take_length]
    rw [hj, hself, direntInum_direntBytes name hlt] at hzero
    exact absurd hzero hpos
  · unfold DIRENT DIRSIZ at hend hlen
    omega

/-- **`create` at work**: the inode `k` is there, with the bytes so far, and the directory is
as `y` says. -/
structure Making (s : Fs) (dp ip : Ip) (k : ℕ) (y z : Node) (t : Fs) : Prop where
  settled : t.Settled
  parent : (t.icache dp).locked = true ∧ (t.icache dp).inum = (s.icache dp).inum
  child : (t.icache ip).locked = true ∧ (t.icache ip).inum = k
  after : After s (ip ::ₘ 0)
    (update (update s.node k (some z)) (s.icache dp).inum (some y)) t

namespace Making

variable {k : ℕ} {y z y' z' : Node} {t t' : Fs}

variable (h : Making s dp ip k y z t)

include h

theorem node_parent : t.node (t.icache dp).inum = some y := by
  rw [h.after.node, h.parent.2, update_self]

theorem node_child (hk : k ≠ (s.icache dp).inum) :
    t.node (t.icache ip).inum = some z := by
  rw [h.after.node, h.child.2, update_of_ne hk, update_self]

theorem ref_pos :
    0 < (t.icache dp).ref ∧ 0 < (t.icache ip).ref :=
  ⟨(h.settled.consistent.cached.locked h.parent.1).1, (h.settled.consistent.cached.locked h.child.1).1⟩

/-- A node is written, and the locks stay. -/
theorem next {m : ℕ} {w : Node} (hw : Wrote t m w t') (hset : t'.Settled)
    (hnode : update (update (update s.node k (some z))
        (s.icache dp).inum (some y)) m (some w)
      = update (update s.node k (some z')) (s.icache dp).inum (some y')) :
    Making s dp ip k y' z' t' := by
  obtain ⟨hdp, -, hdl, -⟩ := hw.quiet dp
  obtain ⟨hip, -, hil, -⟩ := hw.quiet ip
  refine ⟨hset, ⟨hdl.trans h.parent.1, hdp.trans h.parent.2⟩, ⟨hil.trans h.child.1,
    hip.trans h.child.2⟩, ?_⟩
  rw [← hnode]
  exact h.after.wrote hw

/-- The directory is written. -/
theorem parent_wrote (hw : Wrote t (t.icache dp).inum y' t')
    (hset : t'.Settled) : Making s dp ip k y' z t' := by
  refine h.next hw hset ?_
  rw [h.parent.2, update_idem]

/-- The new inode is written. -/
theorem child_wrote (hk : k ≠ (s.icache dp).inum)
    (hw : Wrote t (t.icache ip).inum z' t') (hset : t'.Settled) : Making s dp ip k y z' t' := by
  refine h.next hw hset ?_
  rw [h.child.2, update_comm hk, update_idem]
  exact update_comm hk.symm (some y) (some z') s.node

/-- The links of the directory change. -/
theorem wp_addLinks_parent (n : Int16) {R : FsHalt → Prop} :
    wp (addLinks dp n) (fun _ t' => Making s dp ip k { y with nlink := y.nlink + n } z t') R t := by
  refine (wp_addLinks_node h.settled.consistent h.parent.1 h.node_parent n).imp (fun _ t' hw => ?_)
  have hentries := h.settled.entries_node h.node_parent
  exact h.parent_wrote hw (h.settled.wrote h.ref_pos.1 hw hentries)

/-- The new inode gets an entry. -/
theorem wp_dirlink_child (hk : k ≠ (s.icache dp).inum)
    (name : ℕ → UInt8) {inum : ℕ} (hinum : t.Safe inum) :
    wp (dirlink ip name inum) (fun r t' => ¬ r < 0 → ∃ j, Vacant z.bytes j ∧ Making s dp ip k y
      { z with bytes := overwrite z.bytes (DIRENT * j) (direntBytes name inum) } t')
      (fun _ => True) t := by
  refine ((Walk.refl h.settled).wp_dirlink h.settled h.child.1 (h.node_child hk) name inum).mono
    (fun r t' hr hpos => ?_) (fun _ _ => trivial)
  obtain ⟨-, j, hlinked⟩ := hr.2.2 hpos
  exact ⟨j, hlinked.vacant, h.child_wrote hk hlinked.wrote
    (hlinked.settled h.settled h.ref_pos.2 (h.node_child hk) hinum)⟩

/-- The directory gets an entry. -/
theorem wp_dirlink_parent (name : ℕ → UInt8) {inum : ℕ} (hinum : t.Safe inum) :
    wp (dirlink dp name inum) (fun r t' => ¬ r < 0 → ∃ j, Vacant y.bytes j ∧ Making s dp ip k
      { y with bytes := overwrite y.bytes (DIRENT * j) (direntBytes name inum) } z t')
      (fun _ => True) t := by
  refine ((Walk.refl h.settled).wp_dirlink h.settled h.parent.1 h.node_parent name inum).mono
    (fun r t' hr hpos => ?_) (fun _ _ => trivial)
  obtain ⟨-, j, hlinked⟩ := hr.2.2 hpos
  exact ⟨j, hlinked.vacant, h.parent_wrote hlinked.wrote
    (hlinked.settled h.settled h.ref_pos.1 h.node_parent hinum)⟩

end Making

variable {type : Int16}

/-- **`create` of a new name.** -/
theorem wp_createNew_node (h : s.Settled) (hl : (s.icache dp).locked = true) {x : Node}
    (hx : s.node (s.icache dp).inum = some x) (name : ℕ → UInt8) (htype : type ≠ 0)
    (major minor : Int16) :
    wp (createNew dp name type major minor) (fun ip s' =>
      ∃ t, Made s dp x name type major minor ip t ∧ Put dp t s') (fun _ => True) s := by
  unfold createNew
  refine (wp_ialloc_node h.consistent htype).seq (fun ip s₁ h₁ => ?_)
  have hset₁ := h.fresh h₁
  have hx₁ : s₁.node (s₁.icache ip).inum = some ⟨type, 0, 0, 0, []⟩ := by
    rw [h₁.node, update_self]
  have hk : (s₁.icache ip).inum ≠ (s.icache dp).inum := by
    intro hsame
    have hnone := h₁.none
    rw [hsame, hx] at hnone
    cases hnone
  refine ((Walk.refl hset₁).wp_ilock h₁.pos).seq (fun _ s₂ h₂ => ?_)
  obtain ⟨hwalk₂, hlock⟩ := h₂
  have hset₂ := hwalk₂.settled hset₁
  have hdp₁ : (s₁.icache dp).locked = true := (h₁.steady dp).1.trans hl
  have hne : dp ≠ ip := by
    rintro rfl
    rw [hlock.free] at hdp₁
    cases hdp₁
  have hrefdp := (h.consistent.cached.locked hl).1
  have hx₂ : s₂.node (s₂.icache ip).inum = some ⟨type, 0, 0, 0, []⟩ := by
    rw [hwalk₂.after.node, hlock.here]
    exact hx₁
  -- the fields
  have hfields := wp_fields_node (R := fun _ => True) hset₂.consistent hlock.locked hx₂ major minor 1
  rw [wp_bind, wp_modify] at hfields
  rw [wp_bind, wp_modify, wp_bind]
  refine hfields.imp (fun _ s₃ hw => ?_)
  have hempty := hset₂.entries_node hx₂
  have hset₃ := hset₂.wrote (hset₂.consistent.cached.locked hlock.locked).1 hw hempty
  have hmaking : Making s dp ip (s₁.icache ip).inum x ⟨type, major, minor, 1, []⟩ s₃ := by
    obtain ⟨hdp, -, hdl, -⟩ := hw.quiet dp
    obtain ⟨hip, -, hil, -⟩ := hw.quiet ip
    refine ⟨hset₃, ⟨?_, ?_⟩, ⟨hil.trans hlock.locked, hip.trans hlock.here⟩, ?_⟩
    · rw [hdl, hlock.same dp hne]
      exact hdp₁
    · rw [hdp, hlock.same dp hne]
      exact ((h₁.steady dp).2 hrefdp).1
    · have hafter := (((Walk.refl h).after.fresh h₁).walk hwalk₂).wrote hw
      rw [hlock.here, update_idem, Multiset.add_zero] at hafter
      have hsame : update (update s.node (s₁.icache ip).inum
          (some ⟨type, major, minor, 1, []⟩)) (s.icache dp).inum (some x)
          = update s.node (s₁.icache ip).inum (some ⟨type, major, minor, 1, []⟩) := by
        refine update_eq_self_iff.mpr ?_
        rw [update_of_ne hk.symm, hx]
      rw [hsame]
      exact hafter
  -- the entry in the directory, and the end
  have hend : ∀ t y b, Making s dp ip (s₁.icache ip).inum y ⟨type, major, minor, 1, b⟩ t →
      y = { x with nlink := if type = T_DIR then x.nlink + 1 else x.nlink } →
      (type ≠ T_DIR → b = []) → (type = T_DIR → s.sb.ninodes ≤ 2 ^ 16 →
        b = dots (s₁.icache ip).inum (s.icache dp).inum) → wp (do
      let s ← get
      if (← dirlink dp name (s.icache ip).inum) < 0 then throw .createDirlink
      else do
        iunlockput dp
        return ip) (fun ip s' => ∃ t, Made s dp x name type major minor ip t ∧ Put dp t s')
        (fun _ => True) t := by
    intro t y b ht hy hfile hdir
    rw [wp_bind, wp_get]
    refine (ht.wp_dirlink_parent name (ht.settled.safe ht.ref_pos.2)).bind (fun r t₁ hr => ?_)
    split
    · exact trivial
    · next hneg =>
      obtain ⟨j, hvacant, ht₁⟩ := hr hneg
      refine (wp_iunlockput_put _ ht₁.settled.consistent).seq (fun _ s' hput => ?_)
      rw [wp_pure]
      refine ⟨t₁, ⟨ht₁.settled, hne.symm, ⟨ht₁.child.1, ht₁.parent.1⟩, ht₁.parent.2, ?_, ?_, j, b, ?_,
        hfile, ?_, ?_⟩, hput⟩
      · rw [ht₁.child.2]
        exact h₁.none
      · rw [ht₁.child.2]
        exact h₁.ne
      · rw [hy] at hvacant
        exact hvacant
      · rw [ht₁.child.2]
        exact hdir
      · have hafter := ht₁.after
        rw [ht.child.2, hy] at hafter
        rw [ht₁.child.2]
        exact hafter
  split
  · next hdir =>
    refine (hmaking.wp_addLinks_parent 1).bind (fun _ s₄ h₄ => ?_)
    rw [wp_bind, wp_get, wp_bind]
    refine (h₄.wp_dirlink_child hk DOT (h₄.settled.safe h₄.ref_pos.2)).imp (fun r s₅ hr => ?_)
    split
    · exact trivial
    · next hneg =>
      obtain ⟨i, hvacant, h₅⟩ := hr hneg
      rw [wp_bind]
      have hsafe : s₅.Safe (s₄.icache dp).inum := by
        rw [h₄.parent.2, ← h₅.parent.2]
        exact h₅.settled.safe h₅.ref_pos.1
      refine (h₅.wp_dirlink_child hk DOTDOT hsafe).imp (fun r s₆ hr => ?_)
      split
      · exact trivial
      · next hneg =>
        obtain ⟨j, hvacant', h₆⟩ := hr hneg
        refine hend s₆ _ _ h₆ (by rw [if_pos hdir]) (fun hno => absurd hdir hno) (fun _ hsmall => ?_)
        have hi := hvacant.eq_zero
        subst hi
        rw [overwrite_nil, h₄.child.2] at hvacant' ⊢
        have hj := hvacant'.eq_one h₁.ne (h₁.lt.trans_le hsmall)
        subst hj
        rw [Nat.mul_one, ← length_direntBytes DOT (s₁.icache ip).inum, overwrite_end, h₄.parent.2]
        rfl
  · next hfile =>
    exact hend s₃ x [] hmaking (by rw [if_neg hfile]) (fun _ => rfl) (fun hdir => absurd hdir hfile)

/-! ## Lookups -/

/-- The parent is looked up, and the name in it. -/
def lookup (cwd : Ip) (path : Path) : FsM (Option (Option Ip)) := do
  match ← nameiparent cwd path with
  | none => return none
  | some (dp, name) => do
    ilock dp
    let r ← dirlookup dp name
    return some (r.map Prod.fst)

/-- The parts of a lookup. -/
theorem lookup_eq {path : Path} {r : Option (Ip × ℕ)} {s₁ s₂ s₃ : Fs}
    (hparent : nameiparent cwd path s = .ok (some (dp, name), s₁))
    (hlock : ilock dp s₁ = .ok (⟨⟩, s₂)) (hname : dirlookup dp name s₂ = .ok (r, s₃)) :
    lookup cwd path s = .ok (some (r.map Prod.fst), s₃) := by
  unfold lookup
  rw [run_bind hparent]
  dsimp only
  rw [run_bind hlock, run_bind hname]
  rfl

/-- **The name is new**: all of the path but its last name leads to a directory, and there is no
entry with that name in it. -/
def IsNew (s : Fs) (cwd : Ip) (path : Path) : Prop := ∃ s₁, lookup cwd path s = .ok (some none, s₁)

/-- **What `create` has made**, when it returns `ip` locked: the inode `k`, which was free, with one
link and without bytes or with its dots, and an entry for it in a directory that had none of the
name. A new directory adds a link to its parent; if that count wraps to zero, the parent may be
freed, and nothing is said. -/
structure Born (s : Fs) (type major minor : Int16) (ip : Ip) (k : ℕ) (s' : Fs) : Prop where
  locked : (s'.icache ip).locked = true
  inum : (s'.icache ip).inum = k
  fresh : s.node k = none
  pos : k ≠ 0
  entry : ∃ d x name j bytes, s.node d = some x ∧ x.type = T_DIR ∧
    (∀ i m, ¬ x.Names i name m) ∧ Vacant x.bytes j ∧ (type ≠ T_DIR → bytes = []) ∧
    (type = T_DIR → s.sb.ninodes ≤ 2 ^ 16 → bytes = dots k d) ∧
    ((type = T_DIR → x.nlink + 1 ≠ 0) → After s (ip ::ₘ 0)
      (update (update s.node k (some ⟨type, major, minor, 1, bytes⟩)) d
        (some { x with
          nlink := if type = T_DIR then x.nlink + 1 else x.nlink
          bytes := overwrite x.bytes (DIRENT * j) (direntBytes name k) })) s')

/-- The directory is given back. -/
theorem Made.born {s₀ t : Fs} {x : Node} {major minor : Int16}
    (h : Made s dp x name type major minor ip t) (h₀ : s₀.Settled) (hwalk : Walk s₀ (dp ::ₘ 0) s)
    (hl : (s.icache dp).locked = true) (hx : s.node (s.icache dp).inum = some x)
    (htype : x.type = T_DIR) (hnew : ∀ i m, ¬ s₀.NamesAt (s.icache dp).inum i name m)
    (hput : Put dp t s') : Born s₀ type major minor ip (t.icache ip).inum s' := by
  obtain ⟨j, bytes, hvacant, hfile, hdir, hafter⟩ := h.after
  have hnode := hwalk.after.node
  have hmem : dp ∈ dp ::ₘ (0 : Multiset Ip) := Multiset.mem_cons_self dp 0
  have hx₀ : s₀.node (s.icache dp).inum = some x := by
    rw [← hnode]
    exact hx
  refine ⟨?_, hput.inum ip, ?_, h.pos, (s.icache dp).inum, x, name, j, bytes, hx₀, htype,
    fun i m hm => hnew i m ((namesAt_iff hx₀).mpr hm), hvacant, hfile, ?_, fun hlinks => ?_⟩
  · rw [hput.same ip h.ne]
    exact h.locks.1
  · rw [← hnode]
    exact h.fresh
  · rw [← hwalk.sb]
    exact hdir
  · -- the walk has no last reference to the directory
    have hlast : ¬ t.Last dp := by
      intro hlast
      rw [h.settled.consistent.last_iff h.locks.2
        (by rw [hafter.node, h.parent]; exact update_self _ _ _)] at hlast
      obtain ⟨hnlink, href⟩ := hlast
      dsimp only at hnlink
      split at hnlink
      · next hdir => exact hlinks hdir hnlink
      · refine hwalk.not_last h₀ hmem ((hwalk.consistent.last_iff hl hx).mpr ⟨hnlink, ?_⟩)
        have hsum := hafter.refs dp
        rw [Multiset.count_cons_of_ne h.ne.symm, Multiset.count_zero] at hsum
        omega
    have hall := (hwalk.after.trans hafter).put (Multiset.mem_add.mpr (.inl hmem)) hput
    rw [if_neg hlast, Multiset.add_comm, Multiset.erase_add_right_pos _ hmem,
      Multiset.erase_cons_head, Multiset.add_zero, hnode] at hall
    exact hall

/-- **The ways through `create`**: the path leads to no directory, the name is there, or it
is new. -/
theorem wp_create_ways (h : s.Settled) (hcwd : 0 < (s.icache cwd).ref) {path : Path}
    {major minor : Int16} {Q : Option Ip → Fs → Prop}
    (hnone : ∀ s', Walk s 0 s' → ¬ s.IsNew cwd path → Q none s')
    (hold : ∀ ip s', Walk s (ip ::ₘ 0) s' → (s'.icache ip).locked = true → ¬ s.IsNew cwd path →
      Q (some ip) s') (hnew : ∀ dp name t, Walk s (dp ::ₘ 0) t → (t.icache dp).locked = true →
      s.IsDir (t.icache dp).inum → (∀ i m, ¬ s.NamesAt (t.icache dp).inum i name m) →
      s.IsNew cwd path →
      wp (createNew dp name type major minor) (fun ip s' => Q (some ip) s') (fun _ => True) t) :
    wp (create cwd path type major minor) Q (fun _ => True) s := by
  unfold create
  refine Walk.wp_nameiparent_ilock h (.refl h) hcwd (fun s₁ hwalk hparent => ?_)
    (fun dp name s₁ s₂ hparent hilock hwalk hl => ?_)
  · refine hnone s₁ hwalk ?_
    rintro ⟨s₂, hnew⟩
    unfold lookup at hnew
    rw [run_bind hparent] at hnew
    cases hnew
  · refine (hwalk.wp_dirlookup h hl name).run.seq (fun r s₃ h₃ => ?_)
    obtain ⟨⟨hdir, habsent, hfound⟩, hname⟩ := h₃
    have hlookup := lookup_eq hparent hilock hname
    cases r with
    | none =>
      obtain ⟨rfl, hfree⟩ := habsent rfl
      exact wp_map.mpr (hnew dp name s₃ hwalk hl hdir (slotOf_eq_none_iff.mp hfree) ⟨_, hlookup⟩)
    | some found =>
      obtain ⟨ip, off⟩ := found
      have hwalk₃ := (hfound ip off rfl).walk
      have hthere : ¬ s.IsNew cwd path := by
        rintro ⟨s₄, hnew⟩
        rw [hlookup] at hnew
        cases hnew
      rw [Multiset.cons_swap] at hwalk₃
      refine hwalk₃.wp_leave h (fun s₄ hwalk₄ => ?_)
      refine (hwalk₄.wp_ilock (hwalk₄.ref_pos h (Multiset.mem_cons_self ip 0))).seq (fun _ s₅ h₅ => ?_)
      rw [wp_bind, wp_get]
      split
      · exact hold ip s₅ h₅.1 h₅.2.locked hthere
      · exact h₅.1.wp_leave h (fun s₆ hwalk₆ => hnone s₆ hwalk₆ hthere)

/-- **`create`**: a walk, or a new inode. -/
theorem wp_create_node (h : s.Settled) (hcwd : 0 < (s.icache cwd).ref) (path : Path)
    (htype : type ≠ 0) (major minor : Int16) :
    wp (create cwd path type major minor) (fun r s' =>
      (r = none → Walk s 0 s' ∧ ¬ s.IsNew cwd path) ∧ ∀ ip, r = some ip →
        Walk s (ip ::ₘ 0) s' ∧ (s'.icache ip).locked = true ∧ ¬ s.IsNew cwd path ∨
        (∃ k, Born s type major minor ip k s') ∧ s.IsNew cwd path) (fun _ => True) s := by
  refine wp_create_ways h hcwd (fun s' hwalk hold => ⟨fun _ => ⟨hwalk, hold⟩, nofun⟩)
    (fun ip s' hwalk hl hold => ⟨nofun, fun ip' hsome => ?_⟩)
    (fun dp name t hwalk hl hdir hfree hnew => ?_)
  · cases hsome
    exact .inl ⟨hwalk, hl, hold⟩
  · obtain ⟨x, hx, hxtype⟩ := isDir_iff_node.mp (hwalk.isDir_iff.mpr hdir)
    refine (wp_createNew_node (hwalk.settled h) hl hx name htype major minor).imp
      (fun ip s' hs' => ⟨nofun, fun ip' hsome => ?_⟩)
    cases hsome
    obtain ⟨t', hmade, hput⟩ := hs'
    exact .inr ⟨⟨_, hmade.born h hwalk hl hx hxtype hfree hput⟩, hnew⟩

end Fs

end Xv6
