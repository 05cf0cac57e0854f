import Xv6.Fs.Dir
import Mathlib.Data.List.GetD

/-!
# The entries of a directory

A directory is an array of slots of `DIRENT` bytes. A slot with the inode
number zero is empty; the others are the entries of the directory.
-/

namespace Xv6

/-- The slot with an index. -/
def dirSlot (bytes : List UInt8) (j : ℕ) : List UInt8 := (bytes.drop (DIRENT * j)).take DIRENT

/-- The slots of a directory. -/
def dirSlots (bytes : List UInt8) : List (List UInt8) :=
  (List.range (bytes.length / DIRENT)).map (dirSlot bytes)

/-- The inode number and the name in a slot, as they are stored. -/
def entryOf (de : List UInt8) : Option (ℕ × List UInt8) :=
  if direntInum de = 0 then none else some (direntInum de, de.drop 2)

/-- **The entries of a directory.** -/
def dirEntries (bytes : List UInt8) : List (ℕ × List UInt8) := (dirSlots bytes).filterMap entryOf

theorem length_strncpy (t : ℕ → UInt8) (n : ℕ) : (strncpy t n).length = n := by
  induction n generalizing t with
  | zero => rfl
  | succ n ih =>
    unfold strncpy
    split
    · rw [List.length_cons, ih]
    · exact List.length_replicate

theorem length_direntBytes (name : ℕ → UInt8) (inum : ℕ) :
    (direntBytes name inum).length = DIRENT := by
  unfold direntBytes
  rw [List.length_cons, List.length_cons, length_strncpy]
  rfl

theorem direntInum_direntBytes (name : ℕ → UInt8) {inum : ℕ} (h : inum < 2 ^ 16) :
    direntInum (direntBytes name inum) = inum := by
  show (UInt8.ofNat inum).toNat + 2 ^ 8 * (UInt8.ofNat (inum / 2 ^ 8)).toNat = inum
  rw [UInt8.toNat_ofNat', UInt8.toNat_ofNat']
  omega

theorem entryOf_direntBytes (name : ℕ → UInt8) {inum : ℕ} (hne : inum ≠ 0) (h : inum < 2 ^ 16) :
    entryOf (direntBytes name inum) = some (inum, strncpy name DIRSIZ) := by
  unfold entryOf
  rw [direntInum_direntBytes name h, if_neg hne]
  rfl

/-- A slot of zeros is empty. -/
theorem entryOf_zeros : entryOf (List.replicate DIRENT 0) = none := rfl

theorem length_flatten_of_slots {l : List (List UInt8)} (h : ∀ e ∈ l, e.length = DIRENT) :
    l.flatten.length = DIRENT * l.length := by
  induction l with
  | nil => rfl
  | cons e l ih =>
    rw [List.flatten_cons, List.length_append, h e List.mem_cons_self,
      ih (fun e he => h e (List.mem_cons_of_mem _ he)), List.length_cons, Nat.mul_succ, Nat.add_comm]

/-- A slot of an array of slots. -/
theorem dirSlot_flatten {l : List (List UInt8)} (h : ∀ e ∈ l, e.length = DIRENT) (j : ℕ) :
    dirSlot l.flatten j = l.getD j [] := by
  induction l generalizing j with
  | nil =>
    unfold dirSlot
    rw [List.flatten_nil, List.drop_nil, List.take_nil]
    rfl
  | cons e l ih =>
    have he := h e List.mem_cons_self
    unfold dirSlot at ih ⊢
    rw [List.flatten_cons]
    cases j with
    | zero => rw [Nat.mul_zero, List.drop_zero, ← he, List.take_left, List.getD_cons_zero]
    | succ j =>
      have hskip : (e ++ l.flatten).drop (DIRENT * (j + 1)) = l.flatten.drop (DIRENT * j) := by
        rw [Nat.mul_succ, Nat.add_comm, ← List.drop_drop, ← he, List.drop_left]
      rw [hskip, List.getD_cons_succ]
      exact ih (fun e he => h e (List.mem_cons_of_mem _ he)) j

/-- **The slots of an array of slots** are its elements. -/
theorem dirSlots_flatten {l : List (List UInt8)} (h : ∀ e ∈ l, e.length = DIRENT) :
    dirSlots l.flatten = l := by
  unfold dirSlots
  rw [length_flatten_of_slots h, Nat.mul_div_cancel_left _ (by decide)]
  refine List.ext_getElem (by simp) (fun j hj hj' => ?_)
  rw [List.getElem_map, List.getElem_range, dirSlot_flatten h, List.getD_eq_getElem _ _ hj']

end Xv6
