import Xv6.Fs.Names

/-!
# Paths are resolved

What `skipelem` takes off a path are its components, the pieces between slashes that are not
empty, cut to `DIRSIZ` characters, and `namei` and `nameiparent` look them up in turn. Only a
full inode cache stops them: a lookup holds the directory it reads and what it finds there,
so two entries that are not in use are enough.
-/

namespace Xv6

open Function

open Wp

/-! ## Components -/

/-- **The components of a path**: the pieces between slashes that are not empty, in order. -/
def components (path : Path) : List (List UInt8) := (path.splitOn SLASH).filter (· ≠ [])

theorem components_slash (path : Path) : components (SLASH :: path) = components path := by
  unfold components
  rw [← List.nil_append (SLASH :: path),
    List.splitOn_append_cons_self_of_not_mem List.not_mem_nil]
  exact List.filter_cons_of_neg (by decide)

theorem components_dropWhile (path : Path) :
    components (path.dropWhile (· == SLASH)) = components path := by
  induction path with
  | nil => rfl
  | cons c path ih =>
    rw [List.dropWhile_cons]
    split
    · next hc => rw [ih, eq_of_beq hc, components_slash]
    · rfl

/-- The first component of a path that starts with one. -/
theorem components_append {elem path : Path} (helem : SLASH ∉ elem) (hne : elem ≠ [])
    (hpath : path = [] ∨ path.head? = some SLASH) :
    components (elem ++ path) = elem :: components path := by
  cases path with
  | nil =>
    unfold components
    rw [List.append_nil, List.splitOn_eq_singleton helem]
    exact List.filter_cons_of_pos (decide_eq_true hne)
  | cons c path =>
    have hc : c = SLASH := Option.some.inj (hpath.resolve_left (List.cons_ne_nil _ _))
    rw [hc, components_slash]
    unfold components
    rw [List.splitOn_append_cons_self_of_not_mem helem]
    exact List.filter_cons_of_pos (decide_eq_true hne)

/-- **`skipelem` takes the first component off**, and returns zero when there is none. -/
theorem skipelem_components {path : Path} (h : 0 ∉ path) :
    match components path with
    | [] => skipelem path = none
    | c :: cs => ∃ rest, skipelem path = some (rest, nameOf c) ∧ components rest = cs ∧ 0 ∉ rest := by
  have hhead := List.head?_dropWhile_not (· == SLASH) path
  have hmem : 0 ∉ path.dropWhile (· == SLASH) := fun h0 => h (List.dropWhile_subset _ h0)
  rw [← components_dropWhile]
  unfold skipelem
  generalize path.dropWhile (· == SLASH) = q at *
  cases q with
  | nil => rfl
  | cons c q =>
    have hc : c ≠ SLASH := by simpa using hhead
    have hne : c ≠ 0 := fun hc => hmem (by rw [hc]; exact List.mem_cons_self)
    have helem : SLASH ∉ (c :: q).takeWhile (fun x => x != SLASH && x != 0) :=
      fun hs => absurd (List.mem_takeWhile_imp hs) (by decide)
    have hfirst : (c :: q).takeWhile (fun x => x != SLASH && x != 0) ≠ [] := by
      rw [List.takeWhile_cons_of_pos (by simp [hc, hne])]
      exact List.cons_ne_nil _ _
    have hsub := List.dropWhile_subset (l := c :: q) (fun x => x != SLASH && x != 0)
    have hlast := List.head?_dropWhile_not (fun x => x != SLASH && x != 0) (c :: q)
    have hcomp : components (c :: q) = (c :: q).takeWhile (fun x => x != SLASH && x != 0) ::
        components ((c :: q).dropWhile (fun x => x != SLASH && x != 0)) := by
      conv_lhs => rw [← List.takeWhile_append_dropWhile (p := fun x => x != SLASH && x != 0)
        (l := c :: q)]
      refine components_append helem hfirst ?_
      cases hd : (c :: q).dropWhile (fun x => x != SLASH && x != 0) with
      | nil => exact .inl rfl
      | cons d ds =>
        rw [hd] at hlast hsub
        have hd0 : d ≠ 0 := fun h0 => hmem (h0 ▸ hsub List.mem_cons_self)
        exact .inr (congrArg some (by simpa [hd0] using hlast))
    rw [hcomp]
    refine ⟨_, if_neg hne, components_dropWhile _, fun h0 => hmem (hsub ?_)⟩
    exact List.dropWhile_subset _ h0

namespace Fs

theorem elements_eq {path : Path} (h : 0 ∉ path) {turns : ℕ} (hturns : path.length < turns) :
    elements turns path = (components path).map nameOf := by
  induction turns generalizing path with
  | zero => exact absurd hturns (Nat.not_lt_zero _)
  | succ turns ih =>
    have hskip := skipelem_components h
    unfold elements
    cases hc : components path with
    | nil =>
      rw [hc] at hskip
      rw [hskip]
      rfl
    | cons c cs =>
      rw [hc] at hskip
      obtain ⟨rest, hrest, hcs, h0⟩ := hskip
      have hlength := length_skipelem hrest
      rw [hrest, List.map_cons, ← hcs, ← ih h0 (by omega)]

/-! ## Lookups -/

/-- **The parent that names lead to**: where all but the last lead to, if that is a directory,
and the last one. -/
def parentOf (s : Fs) (k : ℕ) (names : List (ℕ → UInt8)) : Option (ℕ × (ℕ → UInt8)) := do
  let name ← names.getLast?
  let d ← names.dropLast.foldlM s.child k
  if s.IsDir d then some (d, name) else none

theorem child_of_not_isDir {s : Fs} {k : ℕ} (h : ¬ s.IsDir k) (name : ℕ → UInt8) :
    s.child k name = none := if_neg h

theorem target_false (s : Fs) (k : ℕ) (names : List (ℕ → UInt8)) :
    s.target false k names = (names.foldlM s.child k).map (·, nameOf []) := by
  induction names generalizing k with
  | nil => rfl
  | cons name names ih =>
    rw [target, List.foldlM_cons]
    by_cases hdir : s.IsDir k
    · rw [if_pos hdir, if_neg (fun hp => Bool.noConfusion hp.1)]
      cases s.child k name with
      | none => rfl
      | some m => exact ih m
    · rw [if_neg hdir, child_of_not_isDir hdir]
      rfl

theorem target_true (s : Fs) (k : ℕ) (names : List (ℕ → UInt8)) :
    s.target true k names = s.parentOf k names := by
  induction names generalizing k with
  | nil => rfl
  | cons name names ih =>
    rw [target]
    cases names with
    | nil =>
      show _ = if s.IsDir k then some (k, name) else none
      exact if_congr Iff.rfl (if_pos ⟨rfl, rfl⟩) rfl
    | cons name' names =>
      unfold parentOf
      rw [List.getLast?_cons_cons, List.dropLast_cons_cons, List.foldlM_cons]
      by_cases hdir : s.IsDir k
      · rw [if_pos hdir, if_neg (fun hp => List.cons_ne_nil _ _ hp.2)]
        cases s.child k name with
        | none => cases (name' :: names).getLast? <;> rfl
        | some m => exact ih m
      · rw [if_neg hdir, child_of_not_isDir hdir]
        cases (name' :: names).getLast? <;> rfl

/-- **Paths are resolved** by their components, with one reference more for what is returned and
the disk unchanged, unless the inode cache has no room. -/
theorem namei_components {s : Fs} (h : s.Settled) {cwd : Ip} (hcwd : 0 < (s.icache cwd).ref)
    (htree : s.Tree cwd) {path : Path} (hpath : 0 ∉ path) :
    (match components path with
      | [] => skipelem path = none
      | c :: cs => ∃ rest, skipelem path = some (rest, nameOf c) ∧ components rest = cs ∧ 0 ∉ rest) ∧
    wp (namei cwd path) (fun r s' => Walk s r.toList s' ∧ r.map (fun ip => (s'.icache ip).inum)
        = ((components path).map nameOf).foldlM s.child (s.start cwd path))
      (fun e => e = .noInodes ∧ ¬ s.Room 0) s ∧
    wp (nameiparent cwd path) (fun r s' => Walk s (r.map Prod.fst).toList s' ∧
        r.map (fun x => ((s'.icache x.1).inum, x.2))
          = s.parentOf (s.start cwd path) ((components path).map nameOf))
      (fun e => e = .noInodes ∧ ¬ s.Room 0) s := by
  have hnamex := fun parent => Walk.wp_namex h (.refl h) hcwd path parent
  rw [elements_eq hpath (Nat.lt_succ_self _)] at hnamex
  refine ⟨skipelem_components hpath, ?_, ?_⟩
  · unfold namei
    rw [wp_bind]
    refine (hnamex false).mono (fun r s' hr => ?_) (fun e he => he htree htree.unlocked)
    rw [target_false] at hr
    cases r with
    | none => exact ⟨(hr.1 rfl).1, (Option.map_eq_none_iff.mp (hr.1 rfl).2).symm⟩
    | some x =>
      obtain ⟨hnamed, hx⟩ := hr.2 x.1 x.2 rfl
      obtain ⟨k, hk, hkx⟩ := Option.map_eq_some_iff.mp hx
      rw [hk]
      exact ⟨hnamed.walk, congrArg some (congrArg Prod.fst hkx).symm⟩
  · refine (hnamex true).mono (fun r s' hr => ?_) (fun e he => he htree htree.unlocked)
    rw [target_true] at hr
    cases r with
    | none => exact ⟨(hr.1 rfl).1, (hr.1 rfl).2.symm⟩
    | some x => exact ⟨(hr.2 x.1 x.2 rfl).1.walk, (hr.2 x.1 x.2 rfl).2.symm⟩

/-! ## Small trees -/

/-- **A check for trees** in which nothing is locked. -/
theorem Tree.of_check {s : Fs} {cwd : Ip} (h : Allocated s.sb (s.sb.dinode s.disk) ROOTINO ∧
    Allocated s.sb (s.sb.dinode s.disk) (s.icache cwd).inum ∧
    s.EntriesIn (Allocated s.sb (s.sb.dinode s.disk)) ∧
    (∀ k < s.sb.ninodes, s.IsDir k → DIRENT ∣ (s.sb.dinode s.disk k).size) ∧
    ∀ ip, (s.icache ip).locked = false) : s.Tree cwd where
  root := h.1
  cwd := h.2.1
  child k name m hm := by
    unfold Fs.child at hm
    split at hm
    · next hk =>
      obtain ⟨j, hj, rfl⟩ := Option.map_eq_some_iff.mp hm
      exact h.2.2.1.slot hk (slotOf_eq_some_iff.mp hj).1.used
    · cases hm
  size k hk := h.2.2.2.1 k hk.1.1 hk
  unlocked := h.2.2.2.2

/-- `"//./..//."`. -/
def dotsPath : Path := [SLASH, SLASH, 0x2E, SLASH, 0x2E, 0x2E, SLASH, SLASH, 0x2E]

/-- Of this path with three components and more slashes than it takes, all lead to the root. -/
theorem namei_components_root : rootFs.Tree rootIp ∧
    components dotsPath = [[0x2E], [0x2E, 0x2E], [0x2E]] ∧
    wp (namei rootIp dotsPath) (fun r s' => r.map (fun ip => (s'.icache ip).inum) = some ROOTINO)
      (fun _ => False) rootFs := by
  have htree : rootFs.Tree rootIp := .of_check (by decide +kernel)
  have hnamei := (namei_components rootFs_settled (by decide +kernel) htree
    (by decide : 0 ∉ dotsPath)).2.1
  have hpath : ((components dotsPath).map nameOf).foldlM rootFs.child
      (rootFs.start rootIp dotsPath) = some ROOTINO := by decide +kernel
  rw [hpath] at hnamei
  refine ⟨htree, by decide, hnamei.mono (fun r s' hr => hr.2) (fun e he => he.2 ?_)⟩
  exact ⟨⟨1, by decide⟩, ⟨2, by decide⟩, by decide, Multiset.notMem_zero _, Multiset.notMem_zero _,
    by decide +kernel, by decide +kernel⟩

/-- A block of dinodes, of which those from `first` on and before `last` are files. -/
def fileBlock (first last : ℕ) : Block := fun j =>
  if j.val % 64 = 0 ∧ 64 * first ≤ j ∧ j.val < 64 * last then 2 else 0

/-- A disk with as many files as the inode cache has entries, and one data block. -/
def crowdedFs : Fs where
  disk b := [Block.zero, Block.zero.setWords 0 (fun i => [12, 1, 56, 0, 2, 2, 10].getD i 0) 7,
    fileBlock 2 8, fileBlock 0 8, fileBlock 0 8, fileBlock 0 8, fileBlock 0 8, fileBlock 0 8,
    fileBlock 0 4, Block.zero, Block.zero.setWord 0 0x7ff].getD b Block.zero
  sb := ⟨12, 1, 56, 0, 2, 2, 10⟩
  icache := fun _ => ⟨.fresh 0, 0, 0, false, false⟩
  devsw := fun _ => ⟨none, none⟩
  logged := []

theorem crowdedFs_consistent : crowdedFs.Consistent :=
  consistent_of_empty ⟨by decide, by decide, by decide, by decide⟩ (by decide +kernel)
    (by decide +kernel) (by decide +kernel) (fun _ => ⟨rfl, rfl⟩)

/-- **The root with a file `f`**, and all entries of the inode cache in use, for the root and
for other files. -/
def fullFs : Fs := crowdedFs.after (rootRun ++ fileRun 52 ++ (List.range' 2 49).map .iget)

/-- **The cache is full**: `f` is there, but `iget` finds no entry for it. -/
theorem namei_fullFs : fullFs.Settled ∧ fullFs.Tree rootIp ∧ 0 < (fullFs.icache rootIp).ref ∧
    fullFs.child (fullFs.icache rootIp).inum (nameOf [0x66]) = some 52 ∧
    namei rootIp [0x66] fullFs = .error .noInodes := by
  have hrun : fullFs.Tidy ∧ 0 < (fullFs.icache rootIp).ref ∧
      fullFs.child (fullFs.icache rootIp).inum (nameOf [0x66]) = some 52 ∧
      (match namei rootIp [0x66] fullFs with
        | .error .noInodes => true
        | _ => false) = true := by decide +kernel
  obtain ⟨htidy, href, hchild, hpanic⟩ := hrun
  refine ⟨htidy.settled (crowdedFs_consistent.after _), .of_check (by decide +kernel), href, hchild, ?_⟩
  cases hn : namei rootIp [0x66] fullFs with
  | ok r =>
    rw [hn] at hpanic
    cases hpanic
  | error e =>
    rw [hn] at hpanic
    cases e <;> first | rfl | cases hpanic

end Fs

end Xv6
