import Xv6.Fs.Nodes

/-!
# Entries are added

`dirlink` looks the name up first, so it adds no name twice, and puts the entry into the
first slot that is not in use, or at the end. A directory with a slot at its end that is
cut short makes it stop, so the end is a multiple of the size of a slot.
-/

namespace Xv6

open Wp

namespace Fs

/-! ## Slots -/

theorem getElem?_overwrite {a src : List UInt8} {off : ℕ} (hoff : off ≤ a.length) (p : ℕ) :
    (overwrite a off src)[p]?
      = if p < off then a[p]? else if p < off + src.length then src[p - off]? else a[p]? := by
  have hlen : (a.take off).length = off := by rw [List.length_take, Nat.min_eq_left hoff]
  unfold overwrite
  rw [List.append_assoc]
  split
  · next hlt => rw [List.getElem?_append_left (by omega), List.getElem?_take_of_lt hlt]
  · next hge =>
    rw [List.getElem?_append_right (by omega), hlen]
    split
    · next hlt => rw [List.getElem?_append_left (by omega)]
    · next hend =>
      rw [List.getElem?_append_right (by omega), List.getElem?_drop]
      congr 1
      omega

theorem getElem?_dirSlot (a : List UInt8) (j p : ℕ) :
    (dirSlot a j)[p]? = if p < DIRENT then a[DIRENT * j + p]? else none := by
  unfold dirSlot
  rw [List.getElem?_take]
  split
  · rw [List.getElem?_drop]
  · rfl

/-- **One slot is written**, and the others stay. -/
theorem dirSlot_overwrite {a src : List UInt8} {j : ℕ} (hj : DIRENT * j ≤ a.length)
    (hsrc : src.length = DIRENT) (i : ℕ) :
    dirSlot (overwrite a (DIRENT * j) src) i = if i = j then src else dirSlot a i := by
  refine List.ext_getElem? (fun p => ?_)
  rw [getElem?_dirSlot, getElem?_overwrite hj, hsrc]
  by_cases hi : i = j
  · rw [if_pos hi, hi]
    split
    · rw [if_neg (by omega), if_pos (by omega), Nat.add_sub_cancel_left]
    · rw [List.getElem?_eq_none (by omega)]
  · rw [if_neg hi, getElem?_dirSlot]
    split
    · rcases Nat.lt_or_gt_of_ne hi with hlt | hgt
      · have hle : DIRENT * (i + 1) ≤ DIRENT * j := Nat.mul_le_mul_left _ hlt
        rw [if_pos (by rw [Nat.mul_succ] at hle; omega)]
      · have hle : DIRENT * (j + 1) ≤ DIRENT * i := Nat.mul_le_mul_left _ hgt
        rw [Nat.mul_succ] at hle
        rw [if_neg (by omega), if_neg (by omega)]
    · rfl

theorem direntInum_direntBytes_le (name : ℕ → UInt8) (inum : ℕ) :
    direntInum (direntBytes name inum) ≤ inum := by
  show (UInt8.ofNat inum).toNat + 2 ^ 8 * (UInt8.ofNat (inum / 2 ^ 8)).toNat ≤ inum
  rw [UInt8.toNat_ofNat', UInt8.toNat_ofNat']
  omega

/-! ## Names in nodes -/

end Fs

/-- **A slot of a directory with a name in it**, and the inode that it names. -/
structure Node.Names (x : Node) (j : ℕ) (name : ℕ → UInt8) (m : ℕ) : Prop where
  inside : DIRENT * j + DIRENT ≤ x.bytes.length
  inum : direntInum (dirSlot x.bytes j) = m
  used : m ≠ 0
  name : namecmp name (direntName (dirSlot x.bytes j)) = 0

namespace Fs

variable {s₀ s : Fs} {H : Multiset Ip} {dp : Ip}

/-- The names of a directory are those of its node. -/
theorem namesAt_iff {k j m : ℕ} {x : Node} (hx : s.node k = some x) {name : ℕ → UInt8} :
    s.NamesAt k j name m ↔ x.Names j name m := by
  have hlen : (s.sb.dinode s.disk k).size = x.bytes.length := by
    obtain ⟨-, rfl⟩ := node_eq_some_iff.mp hx
    exact (length_fileBytes_dinode s k).symm
  have hslot := slot_of_node hx j
  constructor
  · rintro ⟨hinside, hinum, hused, hname⟩
    rw [hlen] at hinside
    rw [hslot] at hinum hname
    exact ⟨hinside, hinum, hused, hname⟩
  · rintro ⟨hinside, hinum, hused, hname⟩
    rw [← hlen] at hinside
    rw [← hslot] at hinum hname
    exact ⟨hinside, hinum, hused, hname⟩

/-! ## Adding entries -/

/-- **`dirlink` has added an entry** to the directory `x`: the slot `j`, which was not in use or
is the one after the last, and nothing else. -/
structure Linked (s : Fs) (dp : Ip) (x : Node) (name : ℕ → UInt8) (inum j : ℕ) (s' : Fs) : Prop where
  vacant : Vacant x.bytes j
  wrote : Wrote s (s.icache dp).inum
    { x with bytes := overwrite x.bytes (DIRENT * j) (direntBytes name inum) } s'

/-- What the 16 bits of a new entry name. -/
theorem Settled.safe_direntBytes {inum : ℕ} (h : s.Settled) (hinum : s.Safe inum) (name : ℕ → UInt8) :
    s.Safe (direntInum (direntBytes name inum)) := by
  rcases le_or_gt s.sb.ninodes (2 ^ 16) with hsmall | hwide
  · rw [direntInum_direntBytes name (hinum.1.trans_le hsmall)]
    exact hinum
  · exact h.wide hwide _ ((direntInum_direntBytes_le name inum).trans_lt hinum.1)

/-- The file system is settled with a new entry. -/
theorem Linked.settled {x : Node} {name : ℕ → UInt8} {inum j : ℕ} {s' : Fs}
    (h : Linked s dp x name inum j s') (hs : s.Settled) (href : 0 < (s.icache dp).ref)
    (hx : s.node (s.icache dp).inum = some x) (hinum : s.Safe inum) : s'.Settled := by
  refine hs.wrote href h.wrote (fun htype i => ?_)
  rw [dirSlot_overwrite h.vacant.le (length_direntBytes name inum)]
  split
  · exact fun _ => hs.safe_direntBytes hinum name
  · exact hs.entries_node hx htype i

namespace Walk

/-- **`dirlink`** has found the name and is back where it was, or has added an entry. -/
theorem wp_dirlink (h : Walk s₀ H s) (h₀ : s₀.Settled) (hl : (s.icache dp).locked = true) {x : Node}
    (hx : s.node (s.icache dp).inum = some x) (name : ℕ → UInt8) (inum : ℕ) :
    wp (dirlink dp name inum) (fun r s' => x.type = T_DIR ∧ (r < 0 → Walk s₀ H s') ∧
      (¬ r < 0 → (∀ j m, ¬ s₀.NamesAt (s.icache dp).inum j name m) ∧
        ∃ j, Linked s dp x name inum j s')) (fun _ => True) s := by
  have hlen : (direntBytes name inum).length = DIRENT := length_direntBytes name inum
  have hself := Option.some.inj (hx.symm.trans (h.consistent.node_locked hl))
  have hbytes : x.bytes = s.fileBytes (s.icache dp).inum := by rw [hself]
  have hxtype : (s.icache dp).type = T_DIR → x.type = T_DIR := by
    intro htype
    rw [hself]
    exact htype
  refine Fs.wp_dirlink h.consistent hl (fun htype j hj => ?_) (fun htype hnone j hvacant _ => ?_)
    (fun _ _ _ => trivial)
  · rw [h.slotOf_eq] at hj
    have hsafe := h₀.entries (s.icache dp).inum j (h.isDir_locked hl htype)
      (slotOf_eq_some_iff.mp hj).1.used
    have hslot : s.slot (s.icache dp).inum j = s₀.slot (s.icache dp).inum j := by
      unfold slot
      rw [h.fileBytes]
    rw [hslot]
    refine (h.wp_iget h₀ hsafe).any (fun ip s₁ h₁ => ?_)
    refine (h₁.1.wp_iput h₀ (Multiset.mem_cons_self ip H)).any (fun _ s₂ h₂ => ?_)
    rw [Multiset.erase_cons_head] at h₂
    exact ⟨hxtype htype, fun _ => h₂.1, fun hneg => absurd (by decide) hneg⟩
  · rw [h.slotOf_eq] at hnone
    have hle := hvacant.le
    rw [← hbytes] at hvacant hle
    by_cases hfits : DIRENT * j + DIRENT ≤ MAXFILE * BSIZE
    · refine (wp_writei_node h.consistent hl hx (by rw [hxtype htype]; decide) hle
        (by rw [hlen]; exact hfits)).any (fun n s' hs' => ?_)
      split
      · exact trivial
      · exact ⟨hxtype htype, fun hneg => absurd hneg (by decide),
          fun _ => ⟨slotOf_eq_none_iff.mp hnone, j, hvacant, hs'.2⟩⟩
    · -- the directory is full, and `dirlink` stops
      have hmax : MAXFILE * BSIZE + DIRENT < 2 ^ 32 := by decide
      have hlength := h.consistent.length_le hx
      have hrefused : writei dp (direntBytes name inum) (DIRENT * j) s = .ok (-1, s) :=
        writei_refused (by rw [htype]; decide) (by omega) (by rw [hlen]; decide)
          (.inr (.inr (by rw [hlen]; omega)))
      unfold wp
      rw [hrefused]
      dsimp only
      rw [if_pos (by decide)]
      exact trivial

end Walk

end Fs

end Xv6
