import Mathlib.Algebra.Group.Int.Defs
import Mathlib.Algebra.Group.Pi.Lemmas
import Mathlib.Data.List.TakeWhile
import Xv6.Lib.Wp
import Xv6.Fs.Cache
import Xv6.Fs.Path

/-!
# What `fs.c` does to reference counts

`iget` and `idup` take a reference to an inode and `iput` gives one back. Every
other function leaves the counts of the inode cache alone, and a function that
calls these three is judged by its balance: `namei` returns with one reference more,
to the inode that it found, on whichever of its exits it returns.
-/

namespace Xv6

open Function

open Wp

namespace Fs

variable {s s' : Fs} {ip : Ip}

/-- The reference counts of the inode cache. -/
def refs (s : Fs) : Ip → ℤ := fun ip => (s.icache ip).ref

variable {f : Inode → Inode}

/-- An entry changes, but not its count. -/
theorem refs_setInode (hf : ∀ i, (f i).ref = i.ref) (ip : Ip) (s : Fs) :
    (s.setInode ip f).refs = s.refs := by
  funext jp
  show (update s.icache ip (f (s.icache ip)) jp).ref = (s.icache jp).ref
  by_cases hjp : jp = ip
  · rw [hjp, update_self, hf]
  · rw [update_of_ne hjp]

/-- The count of an entry changes. -/
theorem refs_setInode_add {n : ℤ} (hf : (f (s.icache ip)).ref = (s.icache ip).ref + n) :
    (s.setInode ip f).refs = s.refs + Pi.single ip n := by
  funext jp
  rw [Pi.add_apply]
  show (update s.icache ip (f (s.icache ip)) jp).ref = (s.icache jp).ref + _
  by_cases hjp : jp = ip
  · rw [hjp, update_self, Pi.single_eq_same, hf]
  · rw [update_of_ne hjp, Pi.single_eq_of_ne hjp, add_zero]

/-! ## Functions that leave the counts alone -/

theorem keeps_setInode (ip : Ip) (hf : ∀ i, (f i).ref = i.ref) :
    Keeps refs (modify (setInode ip f) : FsM PUnit) :=
  .modify (refs_setInode hf ip)

theorem keeps_balloc : Keeps refs balloc := by
  refine .bind .get (fun s => ?_)
  split
  · exact .throw _
  · exact .bind (.modify (fun _ => rfl)) (fun _ => .bind (.modify (fun _ => rfl)) (fun _ => .pure _))

theorem keeps_bfree (b : ℕ) : Keeps refs (bfree b) := by
  refine .bind (.modify (fun _ => rfl)) (fun _ => .bind .get (fun s => ?_))
  split
  · exact .modify (fun _ => rfl)
  · exact .throw _

theorem keeps_bfreeIf (b : ℕ) : Keeps refs (bfreeIf b) := by
  unfold bfreeIf
  split
  · exact .pure _
  · exact keeps_bfree b

theorem keeps_iupdate (ip : Ip) : Keeps refs (iupdate ip) :=
  .bind .get (fun _ => .modify (fun _ => rfl))

theorem keeps_setAddr (ip : Ip) (i : Fin (NDIRECT + 1)) (addr : ℕ) :
    Keeps refs (modify (setAddr ip i addr) : FsM PUnit) :=
  keeps_setInode ip (fun _ => rfl)

theorem keeps_acquiresleep (ip : Ip) : Keeps refs (acquiresleep ip) := by
  refine .bind .get (fun s => ?_)
  split
  · exact .throw _
  · exact keeps_setInode ip (fun _ => rfl)

theorem keeps_releasesleep (ip : Ip) : Keeps refs (releasesleep ip) :=
  keeps_setInode ip (fun _ => rfl)

theorem keeps_ilock (ip : Ip) : Keeps refs (ilock ip) := by
  refine .bind .get (fun s => ?_)
  split
  · exact .throw _
  · refine .bind (keeps_acquiresleep ip) (fun _ => .bind .get (fun s => ?_))
    split
    · exact .pure _
    · dsimp only
      split
      · exact .throw _
      · exact keeps_setInode ip (fun _ => rfl)

theorem keeps_iunlock (ip : Ip) : Keeps refs (iunlock ip) := by
  refine .bind .get (fun s => ?_)
  split
  · exact .throw _
  · exact keeps_releasesleep ip

theorem keeps_getAddr (ip : Ip) (i : Fin (NDIRECT + 1)) : Keeps refs (getAddr ip i) := by
  refine .bind .get (fun s => ?_)
  split
  · exact keeps_balloc.bind (fun _ => (keeps_setAddr ip i _).bind (fun _ => .pure _))
  · exact .pure _

theorem keeps_bmap (ip : Ip) (bn : ℕ) : Keeps refs (bmap ip bn) := by
  unfold bmap
  split
  · exact keeps_getAddr ip _
  · split
    · refine (keeps_getAddr ip _).bind (fun ind => .bind .get (fun s => ?_))
      split
      · exact keeps_balloc.bind (fun _ => .bind (.modify (fun _ => rfl)) (fun _ => .pure _))
      · exact .pure _
    · exact .throw _

theorem keeps_itrunc (ip : Ip) : Keeps refs (itrunc ip) := by
  refine .bind ?_ (fun _ => .bind ?_ (fun _ => .bind (keeps_setInode ip (fun _ => rfl))
    (fun _ => keeps_iupdate ip)))
  · exact .forM (fun i => .bind .get (fun s =>
      (keeps_bfreeIf _).bind (fun _ => keeps_setAddr ip _ 0)))
  · refine .bind .get (fun s => ?_)
    dsimp only
    split
    · exact .pure _
    · exact .bind (.forM (fun j => .bind .get (fun s => keeps_bfreeIf _)))
        (fun _ => (keeps_bfree _).bind (fun _ => keeps_setAddr ip _ 0))

theorem keeps_iputFree (ip : Ip) : Keeps refs (iputFree ip) := by
  refine .bind .get (fun s => ?_)
  split
  · exact (keeps_itrunc ip).bind (fun _ => .bind (keeps_setInode ip (fun _ => rfl))
      (fun _ => (keeps_iupdate ip).bind (fun _ => keeps_setInode ip (fun _ => rfl))))
  · exact .pure _

theorem keeps_readiLoop (ip : Ip) (turns off n : ℕ) : Keeps refs (readiLoop ip turns off n) := by
  induction turns generalizing off n with
  | zero => exact .pure _
  | succ turns ih =>
    unfold readiLoop
    split
    · exact .pure _
    · exact (keeps_bmap ip _).bind (fun b => .bind .get (fun s => (ih _ _).bind (fun _ => .pure _)))

theorem keeps_readi (ip : Ip) (off n : ℕ) : Keeps refs (readi ip off n) := by
  refine .bind .get (fun s => ?_)
  dsimp only
  split
  · split
    · exact .pure _
    · exact .pure _
  · split
    · exact .pure _
    · exact (keeps_readiLoop ip _ _ _).bind (fun _ => .pure _)

/-! ## Balance -/

/-- The reference that a function returns, if it returns one. -/
def held : Option Ip → Ip → ℤ
  | none => 0
  | some ip => Pi.single ip 1

/-- **`iget`** takes a reference. -/
theorem wp_refs_iget (s : Fs) (inum : ℕ) :
    wp (iget inum) (fun ip s' => s'.refs = s.refs + held (some ip)) (fun _ => True) s := by
  refine (wp_iget_entry s inum).any (fun ip s' hs' => ?_)
  rcases hs' with ⟨-, -, rfl⟩ | ⟨href, -, rfl⟩
  · exact refs_setInode_add rfl
  · refine refs_setInode_add ?_
    rw [href]
    rfl

/-- **`iput`** gives one back. -/
theorem wp_refs_iput (s : Fs) (ip : Ip) :
    wp (iput ip) (fun _ s' => s'.refs + held (some ip) = s.refs) (fun _ => True) s := by
  unfold iput
  refine (keeps_acquiresleep ip s).bind (fun _ s₁ h₁ => ?_)
  refine (keeps_iputFree ip s₁).bind (fun _ s₂ h₂ => ?_)
  refine (keeps_releasesleep ip s₂).bind (fun _ s₃ h₃ => ?_)
  rw [wp_modify, refs_setInode_add (n := -1) rfl, h₃, h₂, h₁]
  show s.refs + Pi.single ip (-1) + Pi.single ip 1 = s.refs
  rw [add_assoc, ← Pi.single_add, Int.add_left_neg, Pi.single_zero, add_zero]

theorem wp_refs_iunlockput (s : Fs) (ip : Ip) :
    wp (iunlockput ip) (fun _ s' => s'.refs + held (some ip) = s.refs) (fun _ => True) s := by
  unfold iunlockput
  refine (keeps_iunlock ip s).bind (fun _ s₁ h₁ => ?_)
  rw [← h₁]
  exact wp_refs_iput s₁ ip

/-- **`dirlookup`** returns with the reference to what it found. -/
theorem wp_refs_dirlookup (s : Fs) (dp : Ip) (name : ℕ → UInt8) :
    wp (dirlookup dp name) (fun r s' => s'.refs = s.refs + held (r.map Prod.fst))
      (fun _ => True) s := by
  have hloop : ∀ (offs : List ℕ) (s : Fs), wp (dirlookupLoop dp name offs)
      (fun r s' => s'.refs = s.refs + held (r.map Prod.fst)) (fun _ => True) s := by
    intro offs
    induction offs with
    | nil =>
      intro s
      exact (add_zero s.refs).symm
    | cons off offs ih =>
      intro s
      unfold dirlookupLoop
      refine (keeps_readi dp off DIRENT s).bind (fun r s₁ h₁ => ?_)
      rw [← h₁]
      dsimp only
      split
      · exact trivial
      · split
        · exact ih s₁
        · split
          · exact (wp_refs_iget s₁ _).bind (fun ip s₂ h₂ => h₂)
          · exact ih s₁
  unfold dirlookup
  rw [wp_bind, wp_get]
  split
  · exact trivial
  · exact hloop _ s

/-- An element is taken off the path. -/
theorem length_skipelem {path rest : Path} {name : ℕ → UInt8}
    (h : skipelem path = some (rest, name)) : rest.length < path.length := by
  unfold skipelem at h
  dsimp only at h
  split at h
  · cases h
  · next hhead =>
    cases h
    cases hdrop : path.dropWhile (· == SLASH) with
    | nil =>
      rw [hdrop] at hhead
      exact absurd rfl hhead
    | cons c cs =>
      rw [hdrop] at hhead
      have hslash := List.head?_dropWhile_not (· == SLASH) path
      rw [hdrop] at hslash
      have hname : (c != SLASH && c != 0) = true := by
        rw [Bool.and_eq_true, bne_iff_ne, bne_iff_ne]
        exact ⟨by simpa using hslash, hhead⟩
      have hfirst := List.length_dropWhile_le (p := (· == SLASH)) path
      have hsecond := List.length_dropWhile_le (p := fun c => c != SLASH && c != 0) cs
      have hthird := List.length_dropWhile_le (p := (· == SLASH))
        (cs.dropWhile (fun c => c != SLASH && c != 0))
      rw [hdrop, List.length_cons] at hfirst
      rw [List.dropWhile_cons_of_pos (p := fun c => c != SLASH && c != 0) hname]
      omega

/-- **The loop of `namex`** trades the reference it has for the one it returns. -/
theorem wp_refs_namexLoop (s : Fs) (parent : Bool) (turns : ℕ) (path : Path) (ip : Ip)
    (hturns : path.length < turns) :
    wp (namexLoop parent turns path ip) (fun r s' =>
      s'.refs + held (some ip) = s.refs + held (r.map Prod.fst)) (fun _ => True) s := by
  induction turns generalizing s path ip with
  | zero => exact absurd hturns (Nat.not_lt_zero _)
  | succ turns ih =>
    unfold namexLoop
    split
    · next hnone =>
      split
      · refine (wp_refs_iput s ip).bind (fun _ s₁ h₁ => ?_)
        rw [wp_pure, h₁]
        exact (add_zero s.refs).symm
      · exact rfl
    · next rest name hskip =>
      refine (keeps_ilock ip s).bind (fun _ s₁ h₁ => ?_)
      rw [wp_bind, wp_get, ← h₁]
      split
      · refine (wp_refs_iunlockput s₁ ip).bind (fun _ s₂ h₂ => ?_)
        rw [wp_pure, h₂]
        exact (add_zero _).symm
      · split
        · refine (keeps_iunlock ip s₁).bind (fun _ s₂ h₂ => ?_)
          rw [wp_pure, h₂]
          rfl
        · refine (wp_refs_dirlookup s₁ ip name).bind (fun r s₂ h₂ => ?_)
          cases r with
          | none =>
            refine (wp_refs_iunlockput s₂ ip).bind (fun _ s₃ h₃ => ?_)
            rw [wp_pure, h₃, h₂]
            rfl
          | some next =>
            refine (wp_refs_iunlockput s₂ ip).bind (fun _ s₃ h₃ => ?_)
            refine (ih s₃ rest next.1 ?_).imp (fun r s₄ h₄ => ?_)
            · have := length_skipelem hskip
              omega
            · refine add_right_cancel (b := held (some next.1)) ?_
              calc s₄.refs + held (some ip) + held (some next.1)
                  = s₄.refs + held (some next.1) + held (some ip) := add_right_comm ..
                _ = s₃.refs + held (r.map Prod.fst) + held (some ip) := by rw [h₄]
                _ = s₃.refs + held (some ip) + held (r.map Prod.fst) := add_right_comm ..
                _ = s₁.refs + held (some next.1) + held (r.map Prod.fst) := by rw [h₃, h₂]; rfl
                _ = s₁.refs + held (r.map Prod.fst) + held (some next.1) := add_right_comm ..

/-- **`namex`** returns with the reference to what it found. -/
theorem wp_refs_namex (s : Fs) (cwd : Ip) (path : Path) (parent : Bool) :
    wp (namex cwd path parent) (fun r s' => s'.refs = s.refs + held (r.map Prod.fst))
      (fun _ => True) s := by
  have hloop : ∀ (s₁ : Fs) (ip : Ip), s₁.refs = s.refs + held (some ip) →
      wp (namexLoop parent (path.length + 1) path ip)
        (fun r s' => s'.refs = s.refs + held (r.map Prod.fst)) (fun _ => True) s₁ := by
    intro s₁ ip h₁
    refine (wp_refs_namexLoop s₁ parent _ path ip (Nat.lt_succ_self _)).imp (fun r s₂ h₂ => ?_)
    refine add_right_cancel (b := held (some ip)) ?_
    rw [h₂, h₁, add_right_comm]
  unfold namex
  dsimp only
  split
  · exact (wp_refs_iget s ROOTINO).bind (fun ip s₁ h₁ => hloop s₁ ip h₁)
  · rw [wp_bind]
    exact hloop _ cwd (refs_setInode_add rfl)

theorem wp_refs_namei (s : Fs) (cwd : Ip) (path : Path) :
    wp (namei cwd path) (fun r s' => s'.refs = s.refs + held r) (fun _ => True) s := by
  unfold namei
  rw [wp_bind]
  exact wp_refs_namex s cwd path false

end Fs

end Xv6
