import Xv6.Fs.Namei

/-!
# Directories are finite maps

A directory whose slots are whole and whose names are different is a map from names to inodes:
`dirlookup` reads it, `dirlink` adds a name that is not there, and the zeros that `sys_unlink`
writes over a slot take its name out. Names count up to `DIRSIZ` characters, which is how they
are stored. A slot is in one block, so only a directory that grows by a block needs one, and
`dirlink` lets it grow only when every slot is in use.
-/

namespace Xv6

open Function

open Wp

/-! ## Names -/

/-- Names are compared as they are stored. -/
theorem strncmp_eq_zero_iff (n : ℕ) (p q : ℕ → UInt8) :
    strncmp n p q = 0 ↔ strncpy p n = strncpy q n := by
  induction n generalizing p q with
  | zero => exact iff_of_true rfl rfl
  | succ n ih =>
    unfold strncmp strncpy
    by_cases hpq : p 0 = q 0
    · by_cases hp : p 0 = 0
      · rw [hpq] at hp
        simp [hpq, hp]
      · rw [if_pos ⟨hp, hpq⟩, if_pos hp, if_pos (hpq ▸ hp), ih, hpq, List.cons_inj_right]
    · rw [if_neg (fun hboth => hpq hboth.2)]
      refine iff_of_false (fun hzero => hpq (UInt8.toNat_inj.mp (by omega))) (fun hlist => ?_)
      have hheads := congrArg (fun l => l.headD 0) hlist
      by_cases hp : p 0 = 0 <;> by_cases hq : q 0 = 0 <;> simp_all [List.replicate_succ]

theorem strncpy_idem (t : ℕ → UInt8) (n : ℕ) :
    strncpy (fun i => (strncpy t n).getD i 0) n = strncpy t n := by
  induction n generalizing t with
  | zero => rfl
  | succ n ih =>
    by_cases ht : t 0 = 0
    · have hzeros : strncpy t (n + 1) = List.replicate (n + 1) 0 := if_neg (by simpa using ht)
      rw [hzeros]
      exact if_neg (by simp [List.replicate_succ])
    · have hcons : strncpy t (n + 1) = t 0 :: strncpy (fun i => t (i + 1)) n := if_pos ht
      rw [hcons]
      refine (if_pos (by exact ht)).trans (congrArg (t 0 :: ·) ?_)
      exact ih (fun i => t (i + 1))

theorem namecmp_iff {a b : ℕ → UInt8} :
    namecmp a b = 0 ↔ strncpy a DIRSIZ = strncpy b DIRSIZ := strncmp_eq_zero_iff _ a b

/-- A name in a slot is the name that was put there. -/
theorem namecmp_direntBytes {a name : ℕ → UInt8} {inum : ℕ} :
    namecmp a (direntName (direntBytes name inum)) = 0 ↔ namecmp a name = 0 := by
  have hname : strncpy (direntName (direntBytes name inum)) DIRSIZ = strncpy name DIRSIZ :=
    strncpy_idem name DIRSIZ
  rw [namecmp_iff, namecmp_iff, hname]

namespace Fs

variable {s s' : Fs} {dp : Ip} {j : ℕ} {src : List UInt8}

/-- **A directory that is locked**, in a consistent file system: its size is a whole number of
slots, and no two slots have names that agree on `DIRSIZ` characters. -/
structure DirAt (s : Fs) (dp : Ip) : Prop where
  consistent : s.Consistent
  locked : (s.icache dp).locked = true
  type : (s.icache dp).type = T_DIR
  whole : DIRENT ∣ (s.icache dp).size
  unique : ∀ i j name m n, s.NamesAt (s.icache dp).inum i name m →
    s.NamesAt (s.icache dp).inum j name n → i = j

/-- **The map that a directory stands for**: the inode number under a name, or nothing. This is
what `dirlink` and the clearing of an entry update at one name. -/
def inumOf (s : Fs) (dp : Ip) (name : ℕ → UInt8) : Option ℕ :=
  (s.slotOf (s.icache dp).inum name).map (fun j => direntInum (s.slot (s.icache dp).inum j))

variable {name : ℕ → UInt8}

theorem DirAt.inumOf_iff (h : s.DirAt dp) {m : ℕ} :
    s.inumOf dp name = some m ↔ ∃ j, s.NamesAt (s.icache dp).inum j name m := by
  unfold inumOf
  rw [Option.map_eq_some_iff]
  constructor
  · rintro ⟨j, hj, rfl⟩
    exact ⟨j, (slotOf_eq_some_iff.mp hj).1⟩
  · rintro ⟨j, hj⟩
    cases hs : s.slotOf (s.icache dp).inum name with
    | none => exact absurd hj (slotOf_eq_none_iff.mp hs j m)
    | some i =>
      have hi := (slotOf_eq_some_iff.mp hs).1
      refine ⟨i, rfl, ?_⟩
      rw [h.unique i j name _ _ hi hj]
      exact hj.inum

/-! ## One slot is written -/

/-- The slot `j` of a directory has become `src`, and the other slots are as they were. The size
grows only if the slot was past the end. -/
structure Slotted (s : Fs) (dp : Ip) (j : ℕ) (src : List UInt8) (s' : Fs) : Prop where
  consistent : s'.Consistent
  inum : (s'.icache dp).inum = (s.icache dp).inum
  locked : (s'.icache dp).locked = true
  type : (s'.icache dp).type = T_DIR
  size : (s'.icache dp).size = max (s.icache dp).size (DIRENT * j + DIRENT)
  slot : ∀ i, s'.slot (s.icache dp).inum i = if i = j then src else s.slot (s.icache dp).inum i

section

variable (h : s.DirAt dp)

include h

/-- A slot is in one block, which is there unless it is the next one. -/
theorem wp_writei_slot (hsrc : src.length = DIRENT) (hj : DIRENT * j ≤ (s.icache dp).size)
    (hmax : DIRENT * j + DIRENT ≤ MAXFILE * BSIZE) :
    wp (writei dp src (DIRENT * j)) (fun _ _ => True) (fun e => e = .outOfBlocks ∧
      DIRENT * j = (s.icache dp).size ∧ BSIZE ∣ (s.icache dp).size ∧ s.Starved) s := by
  have hword : MAXFILE * BSIZE < 2 ^ 32 := by decide
  have hpos : 0 < DIRENT := by decide
  have hcov := h.consistent.covers (h.consistent.of_locked h.locked).2
  unfold writei
  rw [wp_bind, wp_get]
  dsimp only
  rw [if_neg (by rw [h.type]; decide), hsrc, Nat.mod_eq_of_lt (by omega), if_neg (by omega),
    if_neg (by omega), wp_bind]
  have hloop : wp (writeiLoop dp src.length (DIRENT * j + 0) (src.drop 0)) _ _ s := wp_writeiLoop_of
    (R := fun e => e = .outOfBlocks ∧ DIRENT * j = (s.icache dp).size ∧ BSIZE ∣ (s.icache dp).size ∧
      s.Starved) (I := fun i s' => i = 0 ∧ s' = s ∨ i = src.length) (fun i s₁ m hi hm hI => ?_)
    src.length (i := 0) (s := s) (Nat.zero_le _) (Nat.sub_le _ _) (.inl ⟨rfl, rfl⟩)
  · rw [hsrc] at hloop
    refine hloop.imp (fun _ s₁ _ => ?_)
    unfold grow
    rw [wp_bind, wp_bind, wp_get]
    split <;> trivial
  · obtain ⟨rfl, rfl⟩ := hI.resolve_right (by omega)
    obtain ⟨pl, hpl, -⟩ := Place.ofBlock_of_lt ((DIRENT * j + 0) / BSIZE)
      (Nat.div_lt_of_lt_mul (by rw [Nat.mul_comm BSIZE]; omega))
    refine (wp_bmap s₁ dp hpl).mono (fun b s₂ _ => .inr ?_) (fun e he => ⟨he.1, ?_⟩)
    · unfold DIRENT DIRSIZ BSIZE at *
      omega
    · have hend : ¬ (DIRENT * j + 0) / BSIZE * BSIZE < (s₁.icache dp).size := by
        intro hlt
        obtain ⟨pl', hpl', hne⟩ := hcov _ hlt
        rw [hpl] at hpl'
        cases hpl'
        exact hne he.2.1
      refine ⟨?_, ?_, he.2.2⟩
      · unfold DIRENT DIRSIZ BSIZE at *
        omega
      · unfold DIRENT DIRSIZ BSIZE at *
        omega

theorem DirAt.wp_slot (hsrc : src.length = DIRENT) (hj : DIRENT * j ≤ (s.icache dp).size)
    (hmax : DIRENT * j + DIRENT ≤ MAXFILE * BSIZE) :
    wp (writei dp src (DIRENT * j)) (fun n s' => n = DIRENT ∧ Slotted s dp j src s')
      (fun e => e = .outOfBlocks ∧ DIRENT * j = (s.icache dp).size ∧ BSIZE ∣ (s.icache dp).size ∧
        s.Starved) s := by
  have hword : MAXFILE * BSIZE < 2 ^ 32 := by decide
  obtain ⟨href, hip⟩ := h.consistent.of_locked h.locked
  have hlen := length_fileBytes h.consistent h.locked
  refine (((wp_writei_slot h hsrc hj hmax).and (wp_writei_bytes h.consistent h.locked
    (by rw [h.type]; decide) hj (by rw [hsrc]; exact hmax))).and
    (wp_writei h.consistent href hip (by omega) (by rw [hsrc]; decide))).imp (fun n s' hs' => ?_)
  obtain ⟨⟨-, hn, hbytes, -, -, a, size, hself⟩, hcons, -⟩ := hs'
  have hl : (s'.icache dp).locked = true := by
    rw [hself]
    exact h.locked
  have hinum : (s'.icache dp).inum = (s.icache dp).inum := by rw [hself]
  refine ⟨by rw [hn, hsrc], hcons, hinum, hl, by rw [hself]; exact h.type, ?_, fun i => ?_⟩
  · rw [← length_fileBytes hcons hl, hinum, hbytes]
    unfold overwrite
    rw [List.length_append, List.length_append, List.length_take, List.length_drop, hlen, hsrc]
    omega
  · unfold slot
    rw [hbytes, dirSlot_overwrite (by rw [hlen]; exact hj) hsrc]

/-- The names after a slot has been written. -/
theorem Slotted.namesAt_iff (hw : Slotted s dp j src s') (hj : DIRENT * j ≤ (s.icache dp).size)
    {i m : ℕ} :
    s'.NamesAt (s'.icache dp).inum i name m ↔
      i = j ∧ direntInum src = m ∧ m ≠ 0 ∧ namecmp name (direntName src) = 0 ∨
        i ≠ j ∧ s.NamesAt (s.icache dp).inum i name m := by
  have hwhole := h.whole
  have hsize := congrArg Dinode.size (h.consistent.of_locked h.locked).2.copy
  have hsize' := congrArg Dinode.size (hw.consistent.of_locked hw.locked).2.copy
  rw [hw.inum] at hsize' ⊢
  have hinside : i ≠ j → (DIRENT * i + DIRENT ≤ (s'.sb.dinode s'.disk (s.icache dp).inum).size ↔
      DIRENT * i + DIRENT ≤ (s.sb.dinode s.disk (s.icache dp).inum).size) := by
    intro hne
    rw [← hsize, ← hsize']
    show _ ≤ (s'.icache dp).size ↔ _ ≤ (s.icache dp).size
    rw [hw.size]
    unfold DIRENT DIRSIZ at *
    omega
  by_cases hi : i = j
  · subst hi
    have hslot := hw.slot i
    rw [if_pos rfl] at hslot
    constructor
    · rintro ⟨-, hinum, hused, hname⟩
      rw [hslot] at hinum hname
      exact .inl ⟨rfl, hinum, hused, hname⟩
    · rintro (⟨-, hinum, hused, hname⟩ | ⟨hne, -⟩)
      · refine ⟨?_, by rw [hslot]; exact hinum, hused, by rw [hslot]; exact hname⟩
        rw [← hsize']
        show _ ≤ (s'.icache dp).size
        rw [hw.size]
        exact Nat.le_max_right _ _
      · exact absurd rfl hne
  · have hslot := hw.slot i
    rw [if_neg hi] at hslot
    constructor
    · rintro ⟨hin, hinum, hused, hname⟩
      rw [hslot] at hinum hname
      exact .inr ⟨hi, (hinside hi).mp hin, hinum, hused, hname⟩
    · rintro (⟨heq, -⟩ | ⟨-, hin, hinum, hused, hname⟩)
      · exact absurd heq hi
      · exact ⟨(hinside hi).mpr hin, by rw [hslot]; exact hinum, hused, by rw [hslot]; exact hname⟩

theorem Slotted.dirAt (hw : Slotted s dp j src s') (hj : DIRENT * j ≤ (s.icache dp).size)
    (hnew : direntInum src ≠ 0 → ∀ i name m, s.NamesAt (s.icache dp).inum i name m →
      namecmp name (direntName src) = 0 → i = j) : s'.DirAt dp where
  consistent := hw.consistent
  locked := hw.locked
  type := hw.type
  whole := by
    rw [hw.size]
    have hwhole := h.whole
    unfold DIRENT DIRSIZ at *
    omega
  unique i i' name m n hm hn := by
    rcases (hw.namesAt_iff h hj).mp hm with ⟨rfl, hsrc, hused, hname⟩ | ⟨hi, hold⟩ <;>
      rcases (hw.namesAt_iff h hj).mp hn with ⟨rfl, hsrc', hused', hname'⟩ | ⟨hi', hold'⟩
    · rfl
    · exact absurd (hnew (hsrc ▸ hused) i' name n hold' hname) hi'
    · exact hnew (hsrc' ▸ hused') i name m hold hname'
    · exact h.unique i i' name m n hold hold'

/-- A name that is not there is put into a slot that is not in use. -/
theorem Slotted.link {inum : ℕ} (hw : Slotted s dp j (direntBytes name inum) s')
    (hj : DIRENT * j ≤ (s.icache dp).size) (hvacant : ∀ n m, ¬ s.NamesAt (s.icache dp).inum j n m)
    (hnone : s.inumOf dp name = none) (hpos : 1 ≤ inum) (hlt : inum < 2 ^ 16) : s'.DirAt dp ∧
      ∀ n, s'.inumOf dp n = if namecmp n name = 0 then some inum else s.inumOf dp n := by
  have habsent : ∀ n i m, s.NamesAt (s.icache dp).inum i n m → namecmp n name ≠ 0 := by
    intro n i m hat hname
    refine slotOf_eq_none_iff.mp (Option.map_eq_none_iff.mp hnone) i m
      ⟨hat.inside, hat.inum, hat.used, ?_⟩
    rw [namecmp_iff, ← namecmp_iff.mp hname]
    exact namecmp_iff.mp hat.name
  have hdir := hw.dirAt h hj (fun _ i n m hat hname => absurd (namecmp_direntBytes.mp hname)
    (habsent n i m hat))
  refine ⟨hdir, fun n => Option.ext (fun m => ?_)⟩
  rw [hdir.inumOf_iff]
  simp only [hw.namesAt_iff h hj, direntInum_direntBytes name hlt, namecmp_direntBytes]
  split
  · next hname =>
    constructor
    · rintro ⟨i, ⟨-, rfl, -⟩ | ⟨-, hat⟩⟩
      · rfl
      · exact absurd hname (habsent n i m hat)
    · intro hm
      cases hm
      exact ⟨j, .inl ⟨rfl, rfl, by omega, hname⟩⟩
  · next hname =>
    rw [h.inumOf_iff]
    constructor
    · rintro ⟨i, ⟨-, -, -, heq⟩ | ⟨-, hat⟩⟩
      · exact absurd heq hname
      · exact ⟨i, hat⟩
    · rintro ⟨i, hat⟩
      exact ⟨i, .inr ⟨fun hi => hvacant n m (hi ▸ hat), hat⟩⟩

/-- The slot of a name is cleared. -/
theorem Slotted.clear (hw : Slotted s dp j (List.replicate DIRENT 0) s')
    (hslot : s.slotOf (s.icache dp).inum name = some j) : s'.DirAt dp ∧
      ∀ n, s'.inumOf dp n = if namecmp n name = 0 then none else s.inumOf dp n := by
  have hat := (slotOf_eq_some_iff.mp hslot).1
  have hsize := congrArg Dinode.size (h.consistent.of_locked h.locked).2.copy
  have hj : DIRENT * j ≤ (s.icache dp).size := by
    have hin := hat.inside
    rw [← hsize] at hin
    exact (Nat.le_add_right _ _).trans hin
  have hzero : direntInum (List.replicate DIRENT 0) = 0 := by decide
  have hdir := hw.dirAt h hj (fun hne => absurd hzero hne)
  refine ⟨hdir, fun n => Option.ext (fun m => ?_)⟩
  rw [hdir.inumOf_iff]
  simp only [hw.namesAt_iff h hj, hzero]
  split
  · next hname =>
    refine iff_of_false ?_ (by nofun)
    rintro ⟨i, ⟨-, rfl, hused, -⟩ | ⟨hi, hold⟩⟩
    · exact hused rfl
    · refine hi (h.unique i j name m _ ⟨hold.inside, hold.inum, hold.used, ?_⟩ hat)
      rw [namecmp_iff, ← namecmp_iff.mp hname]
      exact namecmp_iff.mp hold.name
  · next hname =>
    rw [h.inumOf_iff]
    constructor
    · rintro ⟨i, ⟨-, rfl, hused, -⟩ | ⟨-, hold⟩⟩
      · exact absurd rfl hused
      · exact ⟨i, hold⟩
    · rintro ⟨i, hold⟩
      refine ⟨i, .inr ⟨?_, hold⟩⟩
      rintro rfl
      refine hname (namecmp_iff.mpr ?_)
      rw [namecmp_iff.mp hold.name, namecmp_iff.mp hat.name]

end

/-! ## The operations -/

/-- A name that is there is given back, and nothing changes but an entry of the inode cache that
is not in use. -/
structure Untouched (s s' : Fs) : Prop where
  disk : s'.disk = s.disk
  ref : ∀ jp, (s'.icache jp).ref = (s.icache jp).ref
  used : ∀ jp, 0 < (s.icache jp).ref → s'.icache jp = s.icache jp

theorem Untouched.setInode {ip : Ip} {f : Inode → Inode}
    (href : (f (s.icache ip)).ref = (s.icache ip).ref)
    (hused : 0 < (s.icache ip).ref → f (s.icache ip) = s.icache ip) :
    Untouched s (s.setInode ip f) where
  disk := rfl
  ref jp := by
    rw [setInode_icache]
    grind [update_apply]
  used jp hpos := by
    rw [setInode_icache]
    grind [update_apply]

/-- The reference that a lookup takes is given back. -/
theorem wp_iget_iput (h : s.Consistent) (k : ℕ) {R : FsHalt → Prop}
    (hfull : (∀ jp, (s.icache jp).ref ≠ 0) → R .noInodes)
    (hwait : ∀ jp, 0 < (s.icache jp).ref → (s.icache jp).inum = k → (s.icache jp).locked = true →
      R .waiting) :
    wp (iget k) (fun ip => wp (iput ip) (fun _ s' => Untouched s s') R) R s := by
  refine (wp_iget_entry s k).mono (fun ip s₁ h₁ => ?_) (fun e he => by rw [he.1]; exact hfull he.2)
  rcases h₁ with ⟨href, hinum, rfl⟩ | ⟨href, -, rfl⟩
  · refine (wp_iput_keep ?_).mono (fun _ s' hs' => ?_) (fun e he => ?_)
    · rw [setInode_icache, update_self]
      rintro ⟨-, -, hone⟩
      dsimp only at hone
      omega
    · obtain ⟨hopen, rfl⟩ := hs'
      rw [setInode_icache, update_self] at hopen
      rw [setInode_setInode]
      dsimp only at hopen ⊢
      refine .setInode (by dsimp only; omega) (fun _ => ?_)
      rw [Int.add_sub_cancel, ← hopen]
    · rw [setInode_icache, update_self] at he
      rw [he.1]
      exact hwait ip href hinum he.2
  · refine (wp_iput_keep ?_).mono (fun _ s' hs' => ?_) (fun e he => ?_)
    · rw [setInode_icache, update_self]
      rintro ⟨hvalid, -⟩
      cases hvalid
    · obtain ⟨-, rfl⟩ := hs'
      rw [setInode_setInode]
      exact .setInode (by dsimp only; omega) (fun hpos => by omega)
    · -- an entry that is not in use is not locked
      rw [setInode_icache, update_self] at he
      have hpos := (h.cached.locked he.2).1
      omega

/-- **Directories are finite maps**: `dirlookup` reads the map, `dirlink` adds a name that is not
there and refuses one that is, and clearing the slot of a name takes it out. Each way to panic
has its condition. -/
theorem directory_map (h : s.DirAt dp) :
    (∀ name, wp (dirlookup dp name) (fun r s' => s'.disk = s.disk ∧
        r.map (fun x => (s'.icache x.1).inum) = s.inumOf dp name ∧
        r.map Prod.snd = (s.slotOf (s.icache dp).inum name).map (DIRENT * ·))
      (fun e => e = .noInodes ∧ ∀ jp, (s.icache jp).ref ≠ 0) s) ∧
    (∀ name inum, 1 ≤ inum → inum < 2 ^ 16 → (s.icache dp).size < MAXFILE * BSIZE →
      wp (dirlink dp name inum) (fun r s' =>
        (s.inumOf dp name ≠ none → r = -1 ∧ Untouched s s') ∧
        (s.inumOf dp name = none → r = 0 ∧ s'.DirAt dp ∧
          (∀ n, s'.inumOf dp n = if namecmp n name = 0 then some inum else s.inumOf dp n) ∧
          ∀ i, DIRENT * i + DIRENT ≤ (s.icache dp).size →
            direntInum (s.slot (s.icache dp).inum i) = 0 →
            (s'.icache dp).size = (s.icache dp).size))
      (fun e => e = .noInodes ∧ s.inumOf dp name ≠ none ∧ (∀ jp, (s.icache jp).ref ≠ 0) ∨
        e = .waiting ∧ (∃ jp, 0 < (s.icache jp).ref ∧ (s.icache jp).locked = true ∧
          s.inumOf dp name = some (s.icache jp).inum) ∨
        e = .outOfBlocks ∧ s.inumOf dp name = none ∧ BSIZE ∣ (s.icache dp).size ∧ s.Starved ∧
          ∀ i, DIRENT * i + DIRENT ≤ (s.icache dp).size →
            direntInum (s.slot (s.icache dp).inum i) ≠ 0) s) ∧
    ∀ name j, s.slotOf (s.icache dp).inum name = some j →
      wp (writei dp (List.replicate DIRENT 0) (DIRENT * j)) (fun n s' => n = DIRENT ∧ s'.DirAt dp ∧
        (s'.icache dp).size = (s.icache dp).size ∧
        ∀ n, s'.inumOf dp n = if namecmp n name = 0 then none else s.inumOf dp n)
      (fun _ => False) s := by
  have hlen := length_fileBytes h.consistent h.locked
  have hnone_iff : ∀ name, s.inumOf dp name = none ↔ s.slotOf (s.icache dp).inum name = none :=
    fun name => Option.map_eq_none_iff
  have hpos : 0 < DIRENT := by decide
  have hcopy : (s.icache dp).size = (s.sb.dinode s.disk (s.icache dp).inum).size :=
    congrArg Dinode.size (h.consistent.of_locked h.locked).2.copy
  refine ⟨fun name => ?_, fun name inum hinum hlt hsize => ?_, fun name j hslot => ?_⟩
  · refine wp_dirlookup h.consistent h.locked (fun _ hnone => ?_) (fun _ j hj => ?_)
      (fun e _ hno => absurd ⟨h.type, h.whole⟩ hno)
    · unfold inumOf
      rw [hnone]
      exact ⟨rfl, rfl, rfl⟩
    · refine (wp_iget_got h.consistent _).imp (fun ip s' hs' => ?_)
      obtain ⟨hgot, -, hinum, -⟩ := hs'
      unfold inumOf
      rw [hj]
      exact ⟨hgot.disk, congrArg some hinum, rfl⟩
  · refine wp_dirlink h.consistent h.locked (fun _ j hj => ?_) (fun _ hnone j hvacant hall => ?_)
      (fun e _ hno => absurd ⟨h.type, h.whole⟩ hno)
    · have hfound : s.inumOf dp name = some (direntInum (s.slot (s.icache dp).inum j)) := by
        unfold inumOf
        rw [hj]
        rfl
      rw [hfound]
      refine (wp_iget_iput h.consistent _ (fun hfull => .inl ⟨rfl, nofun, hfull⟩)
        (fun jp href hjp hl => .inr (.inl ⟨rfl, jp, href, hl, by rw [hjp]⟩))).imp (fun ip s₁ h₁ => ?_)
      exact h₁.imp (fun _ s' hs' => ⟨fun _ => ⟨rfl, hs'⟩, nofun⟩)
    · have hnone := (hnone_iff name).mpr hnone
      have hle := hvacant.le
      have hunused : ∀ n m, ¬ s.NamesAt (s.icache dp).inum j n m := by
        intro n m hat
        have hin := hat.inside
        rw [← hcopy] at hin
        rcases hvacant with ⟨-, hzero⟩ | hend
        · exact hat.used (hat.inum.symm.trans hzero)
        · rw [hlen] at hend
          omega
      have hmax : DIRENT * j + DIRENT ≤ MAXFILE * BSIZE := by
        have hwhole := h.whole
        unfold Vacant at hvacant
        rw [hlen] at hvacant
        unfold DIRENT DIRSIZ MAXFILE NINDIRECT NDIRECT BSIZE at *
        omega
      rw [hlen] at hle
      refine (h.wp_slot (length_direntBytes name inum) hle hmax).mono (fun n s' hs' => ?_)
        (fun e he => .inr (.inr ⟨he.1, hnone, he.2.2.1, he.2.2.2, fun i hi => ?_⟩))
      · obtain ⟨rfl, hw⟩ := hs'
        rw [if_neg (fun hne => hne rfl)]
        refine ⟨fun hsome => absurd hnone hsome, fun _ => ⟨rfl, ?_⟩⟩
        obtain ⟨hdir, hmap⟩ := hw.link h hle hunused hnone hinum hlt
        refine ⟨hdir, hmap, fun i hi hfree => ?_⟩
        rw [hw.size, Nat.max_eq_left]
        by_contra hgrow
        refine hall (by omega) i ?_ hfree
        unfold DIRENT DIRSIZ at *
        omega
      · refine hall (by omega) i ?_
        have hend := he.2.1
        unfold DIRENT DIRSIZ at *
        omega
  · have hin := (slotOf_eq_some_iff.mp hslot).1.inside
    rw [← hcopy] at hin
    have hbytes := h.consistent.size_le (h.consistent.of_locked h.locked).2
    refine (h.wp_slot List.length_replicate (by omega) (by omega)).mono (fun n s' hs' => ?_)
      (fun e he => by omega)
    obtain ⟨rfl, hw⟩ := hs'
    obtain ⟨hdir, hmap⟩ := hw.clear h hslot
    exact ⟨rfl, hdir, by rw [hw.size, Nat.max_eq_left hin], hmap⟩

/-! ## A disk without a free block -/

/-- **The root has the one block**, and the directory that is made next has none. -/
@[irreducible]
def drainedFs : Fs :=
  crowdedFs.after (rootRun ++ [.ialloc T_DIR, .ilock madeIp, .ilock rootIp])

theorem drainedFs_consistent : drainedFs.Consistent := by
  unfold drainedFs
  exact crowdedFs_consistent.after _

/-- **A check for directories**: each slot in use is the one that its name leads to. -/
theorem DirAt.of_check (hcons : s.Consistent) (hl : (s.icache dp).locked = true)
    (h : (s.icache dp).type = T_DIR ∧ DIRENT ∣ (s.icache dp).size ∧
      ∀ j < (s.icache dp).size / DIRENT, direntInum (s.slot (s.icache dp).inum j) ≠ 0 →
        s.slotOf (s.icache dp).inum (direntName (s.slot (s.icache dp).inum j)) = some j) :
    s.DirAt dp := by
  refine ⟨hcons, hl, h.1, h.2.1, fun i j name m n hi hj => ?_⟩
  have hle : ∀ {i j m n}, s.NamesAt (s.icache dp).inum i name m →
      s.NamesAt (s.icache dp).inum j name n → j ≤ i := by
    intro i j m n hi hj
    have hin := hj.inside
    rw [← congrArg Dinode.size (hcons.of_locked hl).2.copy] at hin
    have hfirst := h.2.2 j (by unfold DIRENT DIRSIZ at *; omega) (hj.inum ▸ hj.used)
    refine not_lt.mp (fun hlt => (slotOf_eq_some_iff.mp hfirst).2 i hlt m
      ⟨hi.inside, hi.inum, hi.used, ?_⟩)
    rw [namecmp_iff, ← namecmp_iff.mp hj.name, namecmp_iff.mp hi.name]
  exact (hle hj hi).antisymm (hle hi hj)

/-- `sys_mkdir` comes here when the disk is full. -/
theorem dirlink_drainedFs : drainedFs.DirAt madeIp ∧ (drainedFs.icache madeIp).size < MAXFILE * BSIZE ∧
    drainedFs.inumOf madeIp DOT = none ∧ dirlink madeIp DOT 52 drainedFs = .error .outOfBlocks := by
  have hpanic : (match dirlink madeIp DOT 52 drainedFs with
      | .error .outOfBlocks => true
      | _ => false) = true := by decide +kernel
  refine ⟨.of_check drainedFs_consistent (by decide +kernel) (by decide +kernel), by decide +kernel,
    by decide +kernel, ?_⟩
  cases hn : dirlink madeIp DOT 52 drainedFs with
  | ok r =>
    rw [hn] at hpanic
    cases hpanic
  | error e =>
    rw [hn] at hpanic
    cases e <;> first | rfl | cases hpanic

/-- The root is a map with its dots. It gets a new name, or loses one. -/
theorem directory_map_root : drainedFs.DirAt rootIp ∧
    wp (dirlookup rootIp DOT) (fun r s' => r.map (fun x => (s'.icache x.1).inum) = some ROOTINO)
      (fun _ => False) drainedFs ∧
    wp (dirlink rootIp (nameOf [0x66]) 52) (fun r s' => r = 0 ∧ s'.DirAt rootIp ∧
      s'.inumOf rootIp (nameOf [0x66]) = some 52 ∧ s'.inumOf rootIp DOT = some ROOTINO)
      (fun _ => False) drainedFs ∧
    wp (writei rootIp (List.replicate DIRENT 0) (DIRENT * 1)) (fun _ s' => s'.DirAt rootIp ∧
      s'.inumOf rootIp DOTDOT = none ∧ s'.inumOf rootIp DOT = some ROOTINO)
      (fun _ => False) drainedFs := by
  have hrun : (drainedFs.icache rootIp).size = 32 ∧ drainedFs.inumOf rootIp DOT = some ROOTINO ∧
      drainedFs.inumOf rootIp (nameOf [0x66]) = none ∧
      drainedFs.slotOf (drainedFs.icache rootIp).inum DOTDOT = some 1 ∧
      (drainedFs.icache ⟨2, by decide⟩).ref = 0 := by decide +kernel
  obtain ⟨hsize, hdot, hnew, hslot, hfree⟩ := hrun
  have hdir : drainedFs.DirAt rootIp :=
    .of_check drainedFs_consistent (by decide +kernel) (by decide +kernel)
  obtain ⟨hlookup, hlink, hclear⟩ := directory_map hdir
  refine ⟨hdir, (hlookup DOT).mono (fun r s' hr => hr.2.1.trans hdot) (fun e he => he.2 _ hfree),
    (hlink (nameOf [0x66]) 52 (by decide) (by decide) (by rw [hsize]; decide)).mono
      (fun r s' hr => ?_) (fun e he => ?_), (hclear DOTDOT 1 hslot).imp (fun n s' hs' => ?_)⟩
  · obtain ⟨hzero, hdir', hmap, -⟩ := hr.2 hnew
    exact ⟨hzero, hdir', (hmap _).trans (if_pos (by decide)),
      (hmap DOT).trans ((if_neg (by decide)).trans hdot)⟩
  · rw [hsize, hnew] at he
    rcases he with ⟨-, hne, -⟩ | ⟨-, jp, -, -, hsome⟩ | ⟨-, -, hdvd, -⟩
    · exact hne rfl
    · cases hsome
    · exact absurd hdvd (by decide)
  · obtain ⟨-, hdir', -, hmap⟩ := hs'
    exact ⟨hdir', (hmap _).trans (if_pos (by decide)),
      (hmap DOT).trans ((if_neg (by decide)).trans hdot)⟩

end Fs

end Xv6
