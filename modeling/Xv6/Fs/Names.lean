import Xv6.Fs.Runs
import Xv6.Fs.Create

/-!
# The calls on names

What `sys_link`, `sys_unlink`, `sys_chdir` and the first part of `sys_open` do to the nodes.
A call that fails has walked and come back, but for `sys_link`, which counts its link before
it has the directory and takes the link back if it fails.
-/

namespace Xv6

open Function

open Wp

namespace Fs

variable {s s' : Fs} {ip dp cwd : Ip}

/-! ## `sys_link` -/

/-- **A second name**: the inode `k`, which is no directory, has a link more, and the directory `d`
an entry under a name that was not there. A count of links that wraps to zero is left out. -/
def LinkMade (s s' : Fs) : Prop :=
  ∃ k x d y name j, s.node k = some x ∧ x.type ≠ T_DIR ∧ s.node d = some y ∧ y.type = T_DIR ∧
    (∀ i m, ¬ y.Names i name m) ∧ Vacant y.bytes j ∧
    (x.nlink + 1 ≠ 0 → After s 0 (update (update s.node k
        (some { x with nlink := x.nlink + 1 })) d
      (some { y with bytes := overwrite y.bytes (DIRENT * j) (direntBytes name k) })) s')

/-- `sys_link` with the link counted, and the inode unlocked: from here on it makes the entry, or
goes to `bad` and takes the link back. -/
structure Counted (s : Fs) (ip : Ip) (k : ℕ) (x : Node) (t : Fs) : Prop where
  settled : t.Settled
  inum : (t.icache ip).inum = k
  self : s.node k = some x
  file : x.type ≠ T_DIR
  last : ¬ (x.nlink = 0 ∧ (t.icache ip).ref = 1)
  after : After s (ip ::ₘ 0) (update s.node k (some { x with nlink := x.nlink + 1 })) t

namespace Counted

variable {k : ℕ} {x : Node} {t : Fs}

theorem ref_pos (h : Counted s ip k x t) (hs : s.Settled) : 0 < (t.icache ip).ref :=
  h.after.ref_pos hs (Multiset.mem_cons_self ip 0)

/-- The link is taken back. -/
theorem wp_sysLinkBad (h : Counted s ip k x t) (hs : s.Settled) {t₁ : Fs} (hwalk : Walk t 0 t₁) :
    wp (sysLinkBad ip) (fun r s' => r = -1 ∧ After s 0 s.node s') (fun _ => True) t₁ := by
  have hpos := h.ref_pos hs
  have hpos₁ : 0 < (t₁.icache ip).ref := by
    have hsum := hwalk.refs ip
    omega
  unfold sysLinkBad
  refine (hwalk.wp_ilock hpos₁).seq (fun _ t₂ h₂ => ?_)
  obtain ⟨hwalk₂, hlock⟩ := h₂
  have hinum₂ : (t₂.icache ip).inum = k := (hwalk₂.inum ip hpos).trans h.inum
  have hx₂ : t₂.node (t₂.icache ip).inum = some { x with nlink := x.nlink + 1 } := by
    rw [hinum₂, hwalk₂.after.node, h.after.node, update_self]
  refine (wp_addLinks_node hwalk₂.consistent hlock.locked hx₂ (-1)).bind (fun _ t₃ hw => ?_)
  have hl₃ : (t₃.icache ip).locked = true := (hw.quiet ip).2.2.1.trans hlock.locked
  have href₃ : (t₃.icache ip).ref = (t.icache ip).ref := by
    have hsum := hwalk₂.refs ip
    rw [Multiset.count_zero] at hsum
    rw [(hw.quiet ip).2.1]
    omega
  have hback : ({ x with nlink := x.nlink + 1 + -1 } : Node) = x := by
    rw [Int16.add_neg_eq_sub, Int16.add_sub_cancel]
  have hafter := (h.after.walk hwalk₂).wrote hw
  rw [Multiset.add_zero, hinum₂, update_idem] at hafter
  dsimp only at hafter
  rw [hback, update_eq_self_iff.mpr h.self.symm] at hafter
  have hlast : ¬ t₃.Last ip := by
    rw [hw.consistent.last_iff hl₃ (by rw [(hw.quiet ip).1, hinum₂, hafter.node]; exact h.self), href₃]
    exact h.last
  refine (wp_iunlockput_put _ hw.consistent).seq (fun _ s' hput => ?_)
  rw [wp_pure]
  have hend := hafter.put (Multiset.mem_cons_self ip 0) hput
  rw [if_neg hlast, Multiset.erase_cons_head] at hend
  exact ⟨rfl, hend⟩

end Counted

variable {x : Node}

/-- An inode with links is not freed. -/
theorem Consistent.not_last {k : ℕ} (h : s.Consistent) (href : 0 < (s.icache ip).ref)
    (hinum : (s.icache ip).inum = k) (hx : s.node k = some x) (hlinks : x.nlink ≠ 0) :
    ¬ s.Last ip := by
  rintro ⟨hvalid, hzero, -⟩
  have hcopy := (h.agrees href hvalid).copy
  obtain ⟨-, rfl⟩ := node_eq_some_iff.mp hx
  refine hlinks ?_
  rw [hcopy, hinum] at hzero
  exact hzero

/-- `sys_link` with the entry made, and the directory given back. -/
structure Entered (s : Fs) (ip : Ip) (k : ℕ) (x : Node) (d : ℕ) (y : Node) (name : ℕ → UInt8) (j : ℕ)
    (t : Fs) : Prop where
  ne : d ≠ k
  parent : s.node d = some y
  new : ∀ i m, ¬ y.Names i name m
  inum : (t.icache ip).inum = k
  after : After s (ip ::ₘ 0) (update (update s.node k
      (some { x with nlink := x.nlink + 1 })) d
    (some { y with bytes := overwrite y.bytes (DIRENT * j) (direntBytes name k) })) t

variable {j : ℕ} {y : Node} {t : Fs}

theorem Counted.entered {k : ℕ} {name : ℕ → UInt8} {t₁ t₂ t₃ : Fs} (h : Counted s ip k x t)
    (hs : s.Settled) (hwalk : Walk t (dp ::ₘ 0) t₁) (hl : (t₁.icache dp).locked = true)
    (hy : t₁.node (t₁.icache dp).inum = some y) (hdir : y.type = T_DIR)
    (hnew : ∀ i m, ¬ t.NamesAt (t₁.icache dp).inum i name m) (hlinked : Linked t₁ dp y name k j t₂)
    (hput : Put dp t₂ t₃) :
    Entered s ip k x (t₁.icache dp).inum y name j t₃ := by
  have hmem : dp ∈ dp ::ₘ (0 : Multiset Ip) := Multiset.mem_cons_self dp 0
  have hy₁ : t.node (t₁.icache dp).inum = some y := by
    rw [← hwalk.after.node]
    exact hy
  have hkd : (t₁.icache dp).inum ≠ k := by
    intro hsame
    rw [h.after.node, hsame, update_self] at hy₁
    cases hy₁
    exact h.file hdir
  have hyd : s.node (t₁.icache dp).inum = some y := by
    rwa [h.after.node, update_of_ne hkd] at hy₁
  have hw := hlinked.wrote
  have hafter := (h.after.walk hwalk).wrote hw
  -- the walk has no last reference to the directory
  have hlast : ¬ t₂.Last dp := by
    rw [hw.consistent.last_iff ((hw.quiet dp).2.2.1.trans hl)
      (by rw [(hw.quiet dp).1, hafter.node]; exact update_self _ _ _), (hw.quiet dp).2.1]
    exact fun hlast => hwalk.not_last h.settled hmem ((hwalk.consistent.last_iff hl hy).mpr hlast)
  have hafter₃ := hafter.put (Multiset.mem_add.mpr (.inr hmem)) hput
  rw [if_neg hlast, Multiset.erase_add_right_pos _ hmem, Multiset.erase_cons_head,
    Multiset.add_zero] at hafter₃
  refine ⟨hkd, hyd, fun i m hm => hnew i m ((namesAt_iff hy₁).mpr hm), ?_, hafter₃⟩
  rw [hput.inum, (hw.quiet ip).1, hwalk.inum ip (h.ref_pos hs), h.inum]

namespace Entered

variable {k d j : ℕ} {x y : Node} {name : ℕ → UInt8} {t : Fs}

theorem ref_pos (h : Entered s ip k x d y name j t) (hs : s.Settled) : 0 < (t.icache ip).ref :=
  h.after.ref_pos hs (Multiset.mem_cons_self ip 0)

/-- The inode is given back. -/
theorem put (h : Entered s ip k x d y name j t) (hs : s.Settled) (hlinks : x.nlink + 1 ≠ 0)
    (hput : Put ip t s') : After s 0 (update (update s.node k
      (some { x with nlink := x.nlink + 1 })) d
    (some { y with bytes := overwrite y.bytes (DIRENT * j) (direntBytes name k) })) s' := by
  have hx : t.node k = some { x with nlink := x.nlink + 1 } := by
    rw [h.after.node, update_of_ne h.ne.symm, update_self]
  have hend := h.after.put (Multiset.mem_cons_self ip 0) hput
  rw [if_neg (h.after.consistent.not_last (h.ref_pos hs) h.inum hx hlinks),
    Multiset.erase_cons_head] at hend
  exact hend

end Entered

/-- The link is counted from `t₀` to `t`. -/
structure Counting (s : Fs) (ip : Ip) (x : Node) (t₀ t : Fs) : Prop where
  walk : Walk s (ip ::ₘ 0) t₀
  locked : (t₀.icache ip).locked = true
  run : addLinks ip 1 t₀ = .ok (⟨⟩, t)
  counted : Counted s ip (t₀.icache ip).inum x t

/-- The entry is made from `t₁` to `t₂`. -/
structure Entering (t : Fs) (dp : Ip) (y : Node) (name : ℕ → UInt8) (k j : ℕ) (t₁ t₂ : Fs) : Prop where
  walk : Walk t (dp ::ₘ 0) t₁
  locked : (t₁.icache dp).locked = true
  node : t₁.node (t₁.icache dp).inum = some y
  isDir : y.type = T_DIR
  new : ∀ i m, ¬ t.NamesAt (t₁.icache dp).inum i name m
  run : ∃ r, dirlink dp name k t₁ = .ok (r, t₂)
  linked : Linked t₁ dp y name k j t₂

/-- **The ways through `sys_link`**: it walks back, takes the link back, or makes the entry. -/
theorem wp_sysLink_ways (h : s.Settled) (hcwd : 0 < (s.icache cwd).ref) {old new : Path}
    {Q : ℤ → Fs → Prop} (hfail : ∀ s', Walk s 0 s' → Q (-1) s')
    (hbad : ∀ ip x t₀ t t₁, Counting s ip x t₀ t → Walk t 0 t₁ →
      wp (sysLinkBad ip) Q (fun _ => True) t₁)
    (hentry : ∀ ip x t₀ t dp y name j t₁ t₂, Counting s ip x t₀ t →
      Entering t dp y name (t₀.icache ip).inum j t₁ t₂ →
      wp (do
        iunlockput dp
        iput ip
        return (0 : ℤ)) Q (fun _ => True) t₂) :
    wp (sysLink cwd old new) Q (fun _ => True) s := by
  unfold sysLink
  refine Walk.wp_namei_ilock h hcwd hfail (fun ip s₂ hwalk hl => ?_)
  have hmem : ip ∈ ip ::ₘ (0 : Multiset Ip) := Multiset.mem_cons_self ip 0
  rw [wp_bind, wp_get]
  split
  · exact hwalk.wp_leave h hfail
  · next hfile =>
    have hset₂ := hwalk.settled h
    obtain ⟨x, hx, hxtype⟩ := hset₂.consistent.exists_node hl
    rw [← hxtype] at hfile
    refine (wp_addLinks_node hset₂.consistent hl hx 1).run.bind (fun _ s₃ h₃ => ?_)
    obtain ⟨hw, hrun⟩ := h₃
    have hentries := hset₂.entries_node hx
    have hcounted : Counted s ip (s₂.icache ip).inum x s₃ := by
      refine ⟨hset₂.wrote (hwalk.ref_pos h hmem) hw hentries, (hw.quiet ip).1, ?_, hfile, ?_,
        hwalk.after.wrote hw⟩
      · rw [← hwalk.after.node]
        exact hx
      · rw [(hw.quiet ip).2.1]
        exact fun hlast => hwalk.not_last h hmem ((hset₂.consistent.last_iff hl hx).mpr hlast)
    have hcounting : Counting s ip x s₂ s₃ := ⟨hwalk, hl, hrun, hcounted⟩
    have hset₃ := hcounted.settled
    have hpos₃ := hcounted.ref_pos h
    refine ((Walk.refl hset₃).wp_iunlock hpos₃).seq (fun _ s₄ h₄ => ?_)
    refine Walk.wp_nameiparent_ilock hset₃ h₄.1 (hcounted.after.later cwd hcwd).1
      (fun s₅ hwalk₅ _ => hbad ip x s₂ s₃ s₅ hcounting hwalk₅)
      (fun dp name s₅ s₆ _ _ hwalk₆ hl₆ => ?_)
    obtain ⟨y, hy, -⟩ := hwalk₆.consistent.exists_node hl₆
    rw [wp_bind, wp_get, wp_bind, (hwalk₆.inum ip hpos₃).trans hcounted.inum]
    refine (hwalk₆.wp_dirlink hset₃ hl₆ hy name _).run.any (fun r s₇ h₇ => ?_)
    obtain ⟨⟨hdir, hback, hlinked⟩, hrun₇⟩ := h₇
    split
    · next hr => exact (hback hr).wp_leave hset₃ (fun s₈ => hbad ip x s₂ s₃ s₈ hcounting)
    · next hr =>
      obtain ⟨hnew, j, hlinked⟩ := hlinked hr
      exact hentry ip x s₂ s₃ dp y name j s₆ s₇ hcounting
        ⟨hwalk₆, hl₆, hy, hdir, hnew, ⟨r, hrun₇⟩, hlinked⟩

/-- **`sys_link`** adds a name, or leaves everything as it was. -/
theorem wp_sysLink_node (h : s.Settled) (hcwd : 0 < (s.icache cwd).ref) (old new : Path) :
    wp (sysLink cwd old new) (fun r s' => (r < 0 → After s 0 s.node s') ∧ (¬ r < 0 → LinkMade s s'))
      (fun _ => True) s := by
  have hfail : ∀ {s' : Fs}, After s 0 s.node s' → ((-1 : ℤ) < 0 → After s 0 s.node s') ∧
      (¬ (-1 : ℤ) < 0 → LinkMade s s') := fun hs' => ⟨fun _ => hs', fun hneg => absurd (by decide) hneg⟩
  refine wp_sysLink_ways h hcwd (fun s' hs' => hfail hs'.after)
    (fun ip x t₀ t t₁ hc hwalk => ?_) (fun ip x t₀ t dp y name j t₁ t₂ hc he => ?_)
  · refine (hc.counted.wp_sysLinkBad h hwalk).imp (fun r s' hr => ?_)
    rw [hr.1]
    exact hfail hr.2
  · have hw := he.linked.wrote
    refine (wp_iunlockput_put _ hw.consistent).seq (fun _ t₃ h₃ => ?_)
    have hentered := hc.counted.entered h he.walk he.locked he.node he.isDir he.new he.linked h₃
    refine (wp_iput_put h₃.consistent (hentered.ref_pos h)).seq (fun _ s' hput => ?_)
    rw [wp_pure]
    refine ⟨fun hneg => absurd hneg (by decide), fun _ => ?_⟩
    exact ⟨_, x, _, y, name, j, hc.counted.self, hc.counted.file, hentered.parent, he.isDir,
      hentered.new, he.linked.vacant, fun hlinks => hentered.put h hlinks hput.2⟩

/-! ## `sys_unlink` -/

/-- Somebody has a reference to the inode. -/
def InUse (s : Fs) (k : ℕ) : Prop := ∃ jp, 0 < (s.icache jp).ref ∧ (s.icache jp).inum = k

instance (s : Fs) (k : ℕ) : Decidable (s.InUse k) := inferInstanceAs (Decidable (∃ _, _ ∧ _))

/-- The nodes after `sys_unlink`: the slot `j` of the directory `d` is cleared, and the inode
`k` has a link less, or is gone. -/
def unlinked (s : Fs) (d : ℕ) (y : Node) (j k : ℕ) (x : Node) : ℕ → Option Node :=
  update (update s.node d (some { y with
      nlink := if x.type = T_DIR then y.nlink + -1 else y.nlink
      bytes := overwrite y.bytes (DIRENT * j) (List.replicate DIRENT 0) })) k
    (if x.nlink + -1 = 0 ∧ ¬ s.InUse k then none else some { x with nlink := x.nlink + -1 })

theorem wp_of_forall {S E A : Type} {m : StateT S (Except E) A} {Q : A → S → Prop} {R : E → Prop} {s : S}
    (hQ : ∀ a s', Q a s') (hR : ∀ e, R e) : wp m Q R s :=
  wp_of_run (fun a s' _ => hQ a s') (fun e _ => hR e)

/-- What `sysUnlinkEntry` returns. -/
theorem wp_sysUnlinkEntry_ret (s : Fs) (dp ip : Ip) (off : ℕ) :
    wp (sysUnlinkEntry dp ip off) (fun r _ => r = 0) (fun _ => True) s := by
  have hend : ∀ t, wp (do
      iunlockput dp
      addLinks ip (-1)
      iunlockput ip
      return (0 : ℤ)) (fun r _ => r = 0) (fun _ => True) t := by
    intro t
    rw [wp_bind]
    refine wp_of_forall (fun _ t₁ => ?_) (fun _ => trivial)
    rw [wp_bind]
    refine wp_of_forall (fun _ t₂ => ?_) (fun _ => trivial)
    rw [wp_bind]
    exact wp_of_forall (fun _ t₃ => rfl) (fun _ => trivial)
  unfold sysUnlinkEntry
  rw [wp_bind]
  refine wp_of_forall (fun n s₁ => ?_) (fun _ => trivial)
  split
  · exact trivial
  · rw [wp_bind, wp_get]
    split
    · rw [wp_bind]
      exact wp_of_forall (fun _ s₂ => hend s₂) (fun _ => trivial)
    · exact hend s₁

/-- **The entry of a call is the only new reference**, if nobody else uses the inode. -/
theorem Walk.ref_eq_one_iff {H : Multiset Ip} (h : Walk s H s') (hs : s.Settled) (hip : H.count ip = 1) :
    (s'.icache ip).ref = 1 ↔ ¬ s.InUse (s'.icache ip).inum := by
  have hsum := h.refs ip
  have hbase := hs.nonneg ip
  constructor
  · rintro href ⟨jp, hjp, hinum⟩
    have hsumj := h.refs jp
    have hsame : jp = ip := h.consistent.cached.unique (by omega) (by omega)
      ((h.inum jp hjp).trans hinum)
    rw [hsame] at hjp
    omega
  · intro hno
    by_contra href
    have hpos : 0 < (s.icache ip).ref := by omega
    exact hno ⟨ip, hpos, (h.inum ip hpos).symm⟩

/-- **An entry is cleared**, the inodes lose their links, and the references are given back. -/
theorem wp_sysUnlinkEntry_node (h : s.Settled) (hwalk : Walk s (ip ::ₘ dp ::ₘ 0) t)
    (hdp : (t.icache dp).locked = true) (hip : (t.icache ip).locked = true) (hne : ip ≠ dp)
    (hy : t.node (t.icache dp).inum = some y) (hx : t.node (t.icache ip).inum = some x)
    (hdir : y.type = T_DIR) (hj : DIRENT * j + DIRENT ≤ y.bytes.length)
    (hlinks : x.type = T_DIR → y.nlink + -1 ≠ 0) :
    wp (sysUnlinkEntry dp ip (DIRENT * j)) (fun _ s' => After s 0
      (s.unlinked (t.icache dp).inum y j (t.icache ip).inum x) s') (fun _ => True) t := by
  have hlen : (List.replicate DIRENT (0 : UInt8)).length = DIRENT := List.length_replicate
  have hmemd : dp ∈ ip ::ₘ dp ::ₘ (0 : Multiset Ip) := Multiset.mem_cons_of_mem (Multiset.mem_cons_self dp 0)
  have hmemi : ip ∈ ip ::ₘ dp ::ₘ (0 : Multiset Ip) := Multiset.mem_cons_self ip _
  have hposd := hwalk.ref_pos h hmemd
  have hposi := hwalk.ref_pos h hmemi
  have hkd : (t.icache ip).inum ≠ (t.icache dp).inum :=
    fun hsame => hne (hwalk.consistent.cached.unique hposi hposd hsame)
  have hnode := hwalk.after.node
  -- both inodes are given back
  have hend : ∀ t₁ y', Quiet t t₁ → y'.nlink = (if x.type = T_DIR then y.nlink + -1 else y.nlink) →
      After s (ip ::ₘ dp ::ₘ 0) (update s.node (t.icache dp).inum (some y')) t₁ →
      wp (do
        iunlockput dp
        addLinks ip (-1)
        iunlockput ip
        return (0 : ℤ)) (fun _ s' => After s 0 (update (update s.node
          (t.icache dp).inum (some y')) (t.icache ip).inum
          (if x.nlink + -1 = 0 ∧ ¬ s.InUse (t.icache ip).inum then none
            else some { x with nlink := x.nlink + -1 })) s') (fun _ => True) t₁ := by
    intro t₁ y' hquiet hnlink hafter
    obtain ⟨hid, hrd, hld, -⟩ := hquiet dp
    obtain ⟨hii, hri, hli, -⟩ := hquiet ip
    have hlast : ¬ t₁.Last dp := by
      rw [hafter.consistent.last_iff (hld.trans hdp)
        (by rw [hid, hafter.node, update_self]), hrd, hnlink]
      rintro ⟨hzero, href⟩
      split at hzero
      · next htype => exact hlinks htype hzero
      · exact hwalk.not_last h hmemd ((hwalk.consistent.last_iff hdp hy).mpr ⟨hzero, href⟩)
    refine (wp_iunlockput_put _ hafter.consistent).seq (fun _ t₂ hput => ?_)
    have hafter₂ := hafter.put hmemd hput
    rw [if_neg hlast, Multiset.cons_swap, Multiset.erase_cons_head] at hafter₂
    have hsame := hput.same ip hne
    have hl₂ : (t₂.icache ip).locked = true := by
      rw [hsame]
      exact hli.trans hip
    have hi₂ : (t₂.icache ip).inum = (t.icache ip).inum := by
      rw [hsame]
      exact hii
    have hx₂ : t₂.node (t₂.icache ip).inum = some x := by
      rw [hi₂, hafter₂.node, update_of_ne hkd, ← hnode]
      exact hx
    refine (wp_addLinks_node hafter₂.consistent hl₂ hx₂ (-1)).bind (fun _ t₃ hw => ?_)
    have hafter₃ := hafter₂.wrote hw
    obtain ⟨hi₃, hr₃, hl₃, -⟩ := hw.quiet ip
    have href₃ : (t₃.icache ip).ref = (t.icache ip).ref := by rw [hr₃, hsame, hri]
    refine (wp_iunlockput_put _ hafter₃.consistent).seq (fun _ s' hput' => ?_)
    rw [wp_pure]
    have hafter₄ := hafter₃.put (Multiset.mem_cons_self ip 0) hput'
    have hcount : (ip ::ₘ dp ::ₘ (0 : Multiset Ip)).count ip = 1 := by
      rw [Multiset.count_cons_self, Multiset.count_cons_of_ne hne, Multiset.count_zero]
    have hiff : t₃.Last ip ↔ x.nlink + -1 = 0 ∧ ¬ s.InUse (t.icache ip).inum := by
      rw [hafter₃.consistent.last_iff (hl₃.trans hl₂)
        (by rw [hi₃, hafter₃.node]; exact update_self _ _ _), href₃]
      exact and_congr_right (fun _ => hwalk.ref_eq_one_iff h hcount)
    rw [hi₃, hi₂, Multiset.erase_cons_head] at hafter₄
    rw [update_idem] at hafter₄
    simp only [hiff] at hafter₄
    split at hafter₄
    · next hgone =>
      rw [if_pos hgone]
      exact hafter₄
    · next hkept =>
      rw [if_neg hkept]
      exact hafter₄
  unfold sysUnlinkEntry
  refine (wp_writei_node hwalk.consistent hdp hy (by rw [hdir]; decide) (by omega) ?_).seq (fun n t₁ hw => ?_)
  · rw [hlen]
    exact hj.trans (hwalk.consistent.length_le hy)
  obtain ⟨-, hw⟩ := hw
  have hafter₁ := hwalk.after.wrote hw
  obtain ⟨hid, -, hld, -⟩ := hw.quiet dp
  obtain ⟨x₁, hx₁, htype⟩ := hw.consistent.exists_node ((hw.quiet ip).2.2.1.trans hip)
  rw [(hw.quiet ip).1, hw.node, update_of_ne hkd, hx] at hx₁
  cases hx₁
  split
  · exact trivial
  · rw [wp_bind, wp_get, ← htype]
    unfold unlinked
    split
    · next hxdir =>
      refine (wp_addLinks_node hw.consistent (hld.trans hdp)
        (by rw [hid, hw.node]; exact update_self _ _ _) (-1)).bind (fun _ t₂ hw₂ => ?_)
      have hafter₂ := hafter₁.wrote hw₂
      rw [hid, update_idem] at hafter₂
      refine hend t₂ _ (fun jp => ?_) (by rw [if_pos hxdir]) hafter₂
      obtain ⟨hi₁, hr₁, hl₁, hv₁⟩ := hw.quiet jp
      obtain ⟨hi₂, hr₂, hl₂, hv₂⟩ := hw₂.quiet jp
      exact ⟨hi₂.trans hi₁, hr₂.trans hr₁, hl₂.trans hl₁, hv₂.trans hv₁⟩
    · next hxfile => exact hend t₁ _ hw.quiet (by rw [if_neg hxfile]) hafter₁

/-- **`isdirempty`** looks at all entries but the dots. -/
theorem wp_isdirempty_node (h : s.Consistent) (hl : (s.icache ip).locked = true)
    (hx : s.node (s.icache ip).inum = some x) (hdir : x.type = T_DIR) :
    wp (isdirempty ip) (fun r s' => s' = s ∧ (r = true → ∀ i, 2 ≤ i →
      DIRENT * i + DIRENT ≤ x.bytes.length → direntInum (dirSlot x.bytes i) = 0)) (fun _ => True) s := by
  have hself := Option.some.inj (hx.symm.trans (h.node_locked hl))
  have htype : (s.icache ip).type = T_DIR := by
    rw [hself] at hdir
    exact hdir
  have hsize : x.bytes.length = (s.icache ip).size := by
    rw [hself]
    exact length_fileBytes h hl
  unfold isdirempty
  rw [wp_bind, wp_get]
  refine wp_slots (f := isdiremptyLoop ip) (q := fun de => direntInum de ≠ 0)
    (g := fun _ _ => pure false) (fun off offs => by conv_lhs => unfold isdiremptyLoop) h hl htype
    2 (fun _ => trivial) (fun j _ _ _ _ => ⟨rfl, nofun⟩) (fun hall => ⟨rfl, fun _ i hi hin => ?_⟩)
  rw [← slot_of_node hx i]
  have hpos : 0 < DIRENT := by decide
  exact Decidable.not_not.mp (hall i hi (by omega)).2

/-- **What `sys_unlink` has done**: which inode the path named, and the nodes after it. -/
def UnlinkMade (s : Fs) (cwd : Ip) (path : Path) (s' : Fs) : Prop :=
  ∃ d y name j k x, s.node d = some y ∧ y.type = T_DIR ∧ y.Names j name k ∧ namecmp name DOT ≠ 0 ∧
    namecmp name DOTDOT ≠ 0 ∧ s.node k = some x ∧ ¬ x.nlink < 1 ∧ k ≠ d ∧
    (x.type = T_DIR → ∀ i, 2 ≤ i → DIRENT * i + DIRENT ≤ x.bytes.length →
      direntInum (dirSlot x.bytes i) = 0) ∧
    (∃ ip s₁, lookup cwd path s = .ok (some (some ip), s₁) ∧ (s₁.icache ip).inum = k) ∧
    ((x.type = T_DIR → y.nlink + -1 ≠ 0) → After s 0 (s.unlinked d y j k x) s')

/-- **`sys_unlink` at the entry**: both inodes are locked, and the one with the name may go. -/
structure Unlinking (s : Fs) (cwd : Ip) (path : Path) (dp ip : Ip) (name : ℕ → UInt8) (j : ℕ)
    (y x : Node) (t : Fs) : Prop where
  walk : Walk s (ip ::ₘ dp ::ₘ 0) t
  ne : ip ≠ dp
  parent : (t.icache dp).locked = true
  child : (t.icache ip).locked = true
  node_parent : s.node (t.icache dp).inum = some y
  node_child : s.node (t.icache ip).inum = some x
  isDir : y.type = T_DIR
  names : y.Names j name (t.icache ip).inum
  dots : ¬ (namecmp name DOT = 0 ∨ namecmp name DOTDOT = 0)
  linked : ¬ x.nlink < 1
  empty : x.type = T_DIR → ∀ i, 2 ≤ i → DIRENT * i + DIRENT ≤ x.bytes.length →
    direntInum (dirSlot x.bytes i) = 0
  found : ∃ s₁, lookup cwd path s = .ok (some (some ip), s₁) ∧
    (s₁.icache ip).inum = (t.icache ip).inum

theorem Unlinking.inum_ne {path : Path} {name : ℕ → UInt8}
    (h : Unlinking s cwd path dp ip name j y x t) : (t.icache ip).inum ≠ (t.icache dp).inum := by
  have hcached := h.walk.consistent.cached
  exact fun hsame => h.ne (hcached.unique (hcached.locked h.child).1 (hcached.locked h.parent).1 hsame)

/-- **The ways through `sys_unlink`**: it walks back, or comes to the entry. -/
theorem wp_sysUnlink_ways (h : s.Settled) (hcwd : 0 < (s.icache cwd).ref) {path : Path}
    {Q : ℤ → Fs → Prop} (hfail : ∀ s', Walk s 0 s' → Q (-1) s')
    (hentry : ∀ dp ip name j y x t, Unlinking s cwd path dp ip name j y x t →
      wp (sysUnlinkEntry dp ip (DIRENT * j)) Q (fun _ => True) t) :
    wp (sysUnlink cwd path) Q (fun _ => True) s := by
  unfold sysUnlink
  refine Walk.wp_nameiparent_ilock h (.refl h) hcwd (fun s₁ hwalk _ => hfail s₁ hwalk)
    (fun dp name s₁ s₂ hparent hilock hwalk hl => ?_)
  split
  · exact hwalk.wp_leave h hfail
  · next hdots =>
    refine (hwalk.wp_dirlookup h hl name).run.seq (fun r s₃ h₃ => ?_)
    obtain ⟨⟨hdir, hnone, hsome⟩, hname⟩ := h₃
    have hlookup := lookup_eq hparent hilock hname
    cases r with
    | none =>
      obtain ⟨rfl, -⟩ := hnone rfl
      exact hwalk.wp_leave h hfail
    | some found =>
      obtain ⟨ip, off⟩ := found
      obtain ⟨hwalk₃, hsteady, ⟨j, rfl, hat⟩, -⟩ := hsome ip off rfl
      dsimp only
      refine (hwalk₃.wp_ilock (hwalk₃.ref_pos h (Multiset.mem_cons_self ip _))).seq (fun _ s₄ h₄ => ?_)
      obtain ⟨hwalk₄, hlock₄⟩ := h₄
      have hdp₃ : (s₃.icache dp).locked = true := (hsteady dp).1.trans hl
      have hne : dp ≠ ip := by
        rintro rfl
        rw [hlock₄.free] at hdp₃
        cases hdp₃
      have hinum₄ : (s₄.icache dp).inum = (s₂.icache dp).inum := by
        rw [hlock₄.same dp hne]
        exact ((hsteady dp).2 (hwalk.consistent.cached.locked hl).1).1
      obtain ⟨x, hx, hxtype⟩ := hwalk₄.consistent.exists_node hlock₄.locked
      obtain ⟨y, hy, hydir⟩ := isDir_iff_node.mp hdir
      rw [wp_bind, wp_get]
      split
      · exact trivial
      · next hnlink =>
        -- the entry is removed
        have hremove : (x.type = T_DIR → ∀ i, 2 ≤ i → DIRENT * i + DIRENT ≤ x.bytes.length →
            direntInum (dirSlot x.bytes i) = 0) →
            wp (sysUnlinkEntry dp ip (DIRENT * j)) Q (fun _ => True) s₄ := by
          intro hempty
          refine hentry dp ip name j y x s₄ ⟨hwalk₄, hne.symm, ?_, hlock₄.locked, ?_, ?_, hydir, ?_,
            hdots, ?_, hempty, s₃, hlookup, hlock₄.here.symm⟩
          · rw [hlock₄.same dp hne]
            exact hdp₃
          · rw [hinum₄]
            exact hy
          · rw [← hwalk₄.after.node]
            exact hx
          · rw [hlock₄.here]
            exact (namesAt_iff hy).mp hat
          · rw [Option.some.inj (hx.symm.trans (hwalk₄.consistent.node_locked hlock₄.locked))]
            exact hnlink
        split
        · next htype =>
          rw [← hxtype] at htype
          refine (wp_isdirempty_node hwalk₄.consistent hlock₄.locked hx htype).bind (fun r s₅ h₅ => ?_)
          obtain ⟨rfl, hempty⟩ := h₅
          split
          · next hr => exact hremove (fun _ => hempty hr)
          · exact hwalk₄.wp_leave h (fun s₆ hwalk₆ => hwalk₆.wp_leave h hfail)
        · next htype =>
          rw [← hxtype] at htype
          rw [wp_bind, wp_pure, if_pos rfl]
          exact hremove (fun hdir => absurd hdir htype)

/-- **`sys_unlink`** removes a name, or has walked. -/
theorem wp_sysUnlink_node (h : s.Settled) (hcwd : 0 < (s.icache cwd).ref) (path : Path) :
    wp (sysUnlink cwd path) (fun r s' => (r < 0 → Walk s 0 s') ∧ (¬ r < 0 → UnlinkMade s cwd path s'))
      (fun _ => True) s := by
  refine wp_sysUnlink_ways h hcwd (fun s' hs' => ⟨fun _ => hs', fun hneg => absurd (by decide) hneg⟩)
    (fun dp ip name j y x t ht => ?_)
  have hmade : ∀ {s' : Fs}, ((x.type = T_DIR → y.nlink + -1 ≠ 0) → After s 0
      (s.unlinked (t.icache dp).inum y j (t.icache ip).inum x) s') → UnlinkMade s cwd path s' :=
    fun hafter => ⟨_, y, name, j, _, x, ht.node_parent, ht.isDir, ht.names, (not_or.mp ht.dots).1,
      (not_or.mp ht.dots).2, ht.node_child, ht.linked, ht.inum_ne, ht.empty, ⟨ip, ht.found⟩, hafter⟩
  by_cases hlinks : x.type = T_DIR → y.nlink + -1 ≠ 0
  · have hnode := ht.walk.after.node
    refine ((wp_sysUnlinkEntry_ret t dp ip _).and (wp_sysUnlinkEntry_node h ht.walk ht.parent ht.child
      ht.ne (by rw [hnode]; exact ht.node_parent) (by rw [hnode]; exact ht.node_child) ht.isDir
      ht.names.inside hlinks)).imp (fun r s' hr => ?_)
    exact ⟨fun hneg => absurd hneg (by rw [hr.1]; decide), fun _ => hmade (fun _ => hr.2)⟩
  · refine (wp_sysUnlinkEntry_ret t dp ip _).imp (fun r s' hr => ?_)
    exact ⟨fun hneg => absurd hneg (by rw [hr]; decide),
      fun _ => hmade (fun hlinks' => absurd hlinks' hlinks)⟩

/-! ## `sys_chdir` and `sys_open` -/

/-- **`sys_chdir`** gives the directory before back, or has walked. -/
theorem wp_sysChdir_node (h : s.Settled) (hcwd : 0 < (s.icache cwd).ref) (path : Path) :
    wp (sysChdir cwd path) (fun r s' => (r.1 < 0 → r.2 = cwd ∧ Walk s 0 s') ∧
      (¬ r.1 < 0 → ∃ t, Walk s (r.2 ::ₘ 0) t ∧ s.IsDir (t.icache r.2).inum ∧ Put cwd t s'))
      (fun _ => True) s := by
  have hfail : ∀ s', Walk s 0 s' → ((-1 : ℤ) < 0 → cwd = cwd ∧ Walk s 0 s') ∧
      (¬ (-1 : ℤ) < 0 → ∃ t, Walk s (cwd ::ₘ 0) t ∧ s.IsDir (t.icache cwd).inum ∧ Put cwd t s') :=
    fun s' hs' => ⟨fun _ => ⟨rfl, hs'⟩, fun hneg => absurd (by decide) hneg⟩
  unfold sysChdir
  refine Walk.wp_namei_ilock h hcwd hfail (fun ip s₂ hwalk₂ hl => ?_)
  rw [wp_bind, wp_get]
  split
  · exact hwalk₂.wp_leave h hfail
  · next htype =>
    have hdir := hwalk₂.isDir_locked hl (Decidable.not_not.mp htype)
    refine (hwalk₂.wp_iunlock (hwalk₂.consistent.cached.locked hl).1).seq (fun _ s₃ h₃ => ?_)
    refine (wp_iput_put h₃.1.consistent ?_).seq (fun _ s₄ h₄ => ?_)
    · have hsum := h₃.1.refs cwd
      omega
    rw [wp_pure]
    refine ⟨fun hneg => absurd hneg (Int.lt_irrefl 0), fun _ => ⟨s₃, h₃.1, ?_, h₄.2⟩⟩
    rw [h₃.2.here]
    exact hdir

/-- **`sys_open` up to the inode**: a walk, or a new file. -/
theorem wp_openInode_node (h : s.Settled) (hcwd : 0 < (s.icache cwd).ref) (path : Path) (omode : ℕ) :
    wp (openInode cwd path omode) (fun r s' =>
      (r = none → Walk s 0 s' ∧ ¬ (omode &&& O_CREATE ≠ 0 ∧ s.IsNew cwd path)) ∧ ∀ ip, r = some ip →
        Walk s (ip ::ₘ 0) s' ∧ (s'.icache ip).locked = true ∧
          ¬ (omode &&& O_CREATE ≠ 0 ∧ s.IsNew cwd path) ∨
        (∃ k, Born s T_FILE 0 0 ip k s') ∧ omode &&& O_CREATE ≠ 0 ∧ s.IsNew cwd path)
      (fun _ => True) s := by
  unfold openInode
  split
  · next hcreate =>
    refine (wp_create_node h hcwd path (by decide) 0 0).imp (fun r s' hr =>
      ⟨fun hnone => ⟨(hr.1 hnone).1, fun hc => (hr.1 hnone).2 hc.2⟩, fun ip hip => ?_⟩)
    rcases hr.2 ip hip with ⟨hwalk, hl, hold⟩ | ⟨hborn, hnew⟩
    · exact .inl ⟨hwalk, hl, fun hc => hold hc.2⟩
    · exact .inr ⟨hborn, hcreate, hnew⟩
  · next hcreate =>
    have hno : ¬ (omode &&& O_CREATE ≠ 0 ∧ s.IsNew cwd path) := fun hc => hcreate hc.1
    refine Walk.wp_namei_ilock h hcwd (fun s₁ hwalk => ⟨fun _ => ⟨hwalk, hno⟩, nofun⟩)
      (fun ip s₂ hwalk₂ hl => ?_)
    rw [wp_bind, wp_get]
    split
    · exact hwalk₂.wp_leave h (fun s₃ hwalk₃ => ⟨fun _ => ⟨hwalk₃, hno⟩, nofun⟩)
    · refine ⟨nofun, fun ip' hsome => ?_⟩
      cases hsome
      exact .inl ⟨hwalk₂, hl, hno⟩

/-! ## A file system with a root directory -/

/-- **The entries of the directories name what is in `P`.** A slot at the end may be cut
short. -/
def EntriesIn (s : Fs) (P : ℕ → Prop) : Prop :=
  ∀ k < s.sb.ninodes, s.IsDir k → ∀ j < (s.sb.dinode s.disk k).size / DIRENT + 1,
    direntInum (s.slot k j) ≠ 0 → P (direntInum (s.slot k j))

instance (s : Fs) (P : ℕ → Prop) [DecidablePred P] : Decidable (s.EntriesIn P) :=
  inferInstanceAs (Decidable (∀ k < _, _ → ∀ j < _, _ → P _))

theorem EntriesIn.slot {P : ℕ → Prop} (h : s.EntriesIn P) {k j : ℕ} (hk : s.IsDir k)
    (hused : direntInum (s.slot k j) ≠ 0) : P (direntInum (s.slot k j)) := by
  refine h k hk.1.1 hk j ?_ hused
  by_contra hge
  have hend : (s.fileBytes k).length ≤ DIRENT * j := by
    have hlt := Nat.lt_mul_div_succ (s.sb.dinode s.disk k).size (by decide : 0 < DIRENT)
    rw [length_fileBytes_dinode]
    exact hlt.le.trans (Nat.mul_le_mul_left _ (not_lt.mp hge))
  refine hused ?_
  unfold Fs.slot dirSlot
  rw [List.drop_eq_nil_of_le hend]
  rfl

/-- **A check for settled file systems** whose inode numbers fit into entries. -/
def Tidy (s : Fs) : Prop :=
  s.sb.ninodes ≤ 2 ^ 16 ∧ s.Safe ROOTINO ∧ s.EntriesIn s.Safe ∧
    ∀ ip, 0 ≤ (s.icache ip).ref ∧ (0 < (s.icache ip).ref → (s.icache ip).inum < s.sb.ninodes)

instance (s : Fs) : Decidable s.Tidy := inferInstanceAs (Decidable (_ ∧ _ ∧ _ ∧ ∀ _, _ ∧ (_ → _)))

theorem Tidy.settled (h : s.Tidy) (hcons : s.Consistent) : s.Settled := by
  obtain ⟨hsmall, hroot, hentries, hrefs⟩ := h
  exact ⟨hcons, fun ip => (hrefs ip).1, fun ip => (hrefs ip).2, hroot, fun _ _ => hentries.slot,
    fun hwide => absurd hsmall (not_le.mpr hwide)⟩

/-- The entry of the root in the inode cache. -/
def rootIp : Ip := ⟨0, NINODE_pos⟩

/-- The entry of an inode that is made after the root. -/
def madeIp : Ip := ⟨1, by decide⟩

/-- The root is made. -/
def rootRun : List FsEvent :=
  [.ialloc T_DIR, .ilock rootIp, .iupdate rootIp 0 0 1, .dirlink rootIp DOT ROOTINO,
    .dirlink rootIp DOTDOT ROOTINO, .iunlock rootIp]

/-- A file with the name `f` is made in the root, and gets the inode `k`. -/
def fileRun (k : ℕ) : List FsEvent :=
  [.ialloc T_FILE, .ilock madeIp, .iupdate madeIp 0 0 1, .iunlock madeIp, .iput madeIp,
    .ilock rootIp, .dirlink rootIp (nameOf [0x66]) k, .iunlock rootIp]

/-- **The file system with its root.** -/
def rootFs : Fs := smallFs.after rootRun

theorem rootFs_consistent : rootFs.Consistent := smallFs_consistent.after rootRun

theorem rootFs_settled : rootFs.Settled := Tidy.settled (by decide +kernel) rootFs_consistent

/-- The file system with a file. -/
@[irreducible]
def fileFs : Fs := smallFs.after (rootRun ++ fileRun 2)

theorem fileFs_settled : fileFs.Settled := by
  refine Tidy.settled (by decide +kernel) ?_
  unfold fileFs
  exact smallFs_consistent.after _

end Fs

end Xv6
