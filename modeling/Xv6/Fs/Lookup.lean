import Xv6.Fs.Cache
import Xv6.Fs.Slots

/-!
# Looking a name up

The loops of `dirlookup`, `dirlink` and `isdirempty` read one slot of a directory after the
other, until one is what they look for, and `readi` changes nothing: so a loop is the first
slot that it stops at. A directory whose last slot is cut short makes the loops stop there.
`slotOf` is the slot that `dirlookup` finds, and the rules for `dirlookup` and `dirlink` leave
what follows, an `iget` or a `writei`, to the specifications of those.
-/

namespace Xv6

open Wp

theorem length_direntOffs (size : ℕ) :
    (direntOffs size).length = (size + (DIRENT - 1)) / DIRENT := by
  unfold direntOffs
  rw [List.length_map, List.length_range]

namespace Fs

variable {s : Fs} {ip : Ip} {off : ℕ}

/-! ## Reading bytes -/

/-- **The contents of an inode**, as on the disk. -/
def fileBytes (s : Fs) (k : ℕ) : List UInt8 :=
  (List.range (s.sb.dinode s.disk k).size).map ((s.sb.dinode s.disk k).byteAt s.disk)

theorem length_fileBytes_dinode (s : Fs) (k : ℕ) :
    (s.fileBytes k).length = (s.sb.dinode s.disk k).size := by
  unfold fileBytes
  rw [List.length_map, List.length_range]

theorem length_fileBytes (h : s.Consistent) (hl : (s.icache ip).locked = true) :
    (s.fileBytes (s.icache ip).inum).length = (s.icache ip).size := by
  rw [length_fileBytes_dinode, ← (h.of_locked hl).2.copy]

/-- **`readi` takes bytes out of the array.** -/
theorem readi_bytes (h : s.Consistent) (hl : (s.icache ip).locked = true)
    (hdev : (s.icache ip).type ≠ T_DEV) {n : ℕ} (hoff : off ≤ (s.icache ip).size)
    (hsum : off + n < 2 ^ 32) :
    readi ip off n s = .ok (((min n ((s.icache ip).size - off) : ℕ),
      ((s.fileBytes (s.icache ip).inum).drop off).take n), s) := by
  have hip := (h.of_locked hl).2
  have hsize := h.size_le hip
  have hword : MAXFILE * BSIZE < 2 ^ 31 := by decide
  have hbytes : ((s.fileBytes (s.icache ip).inum).drop off).take n
      = (List.range' off (min n ((s.icache ip).size - off))).map ((s.icache ip).byteAt s.disk) := by
    unfold fileBytes
    rw [← hip.copy, ← List.map_drop, ← List.map_take, List.range_eq_range', List.drop_range']
    rw [Nat.mul_one, Nat.zero_add]
    rcases Nat.le_total n ((s.icache ip).size - off) with hle | hle
    · rw [List.take_range'_of_length_ge hle, Nat.min_eq_left hle]
    · rw [List.take_range'_of_length_le hle, Nat.min_eq_right hle]
  have hword' : off < 2 ^ 32 ∧ n < 2 ^ 32 := by omega
  have hrun := wp_readi hword'.1 hword'.2 (h.covers hip) (R := fun _ => False)
  cases hr : readi ip off n s with
  | error e => exact (hrun.error hr).elim
  | ok r =>
    obtain ⟨hs, hval⟩ := hrun.ok hr
    have hval := hval hdev hoff hsum
    rw [intOfWord_of_lt (by omega), ← hbytes] at hval
    rw [← hval, ← hs]

/-! ## Slots -/

/-- The slot of a directory, as on the disk. -/
def slot (s : Fs) (k j : ℕ) : List UInt8 := dirSlot (s.fileBytes k) j

variable {dp : Ip} {A : Type} {Q : A → Fs → Prop} {R : FsHalt → Prop}

/-- **A loop over the slots** of a directory, from the slot `a` on, which goes on as `g` with
the first slot in `q`. -/
theorem wp_slots {f : List ℕ → FsM A} {q : List UInt8 → Prop} [DecidablePred q]
    {g : ℕ → List UInt8 → FsM A} {stop : FsHalt}
    (hloop : ∀ off offs, f (off :: offs) = do
      let (n, de) ← readi dp off DIRENT
      if n ≠ DIRENT then throw stop
      else if q de then g off de
      else f offs)
    (h : s.Consistent) (hl : (s.icache dp).locked = true) (htype : (s.icache dp).type = T_DIR)
    (a : ℕ) (hstop : ¬ DIRENT ∣ (s.icache dp).size → R stop)
    (hact : ∀ j, a ≤ j → DIRENT * j + DIRENT ≤ (s.icache dp).size →
      q (s.slot (s.icache dp).inum j) → (∀ i, a ≤ i → i < j → ¬ q (s.slot (s.icache dp).inum i)) →
      wp (g (DIRENT * j) (s.slot (s.icache dp).inum j)) Q R s)
    (hend : (∀ j, a ≤ j → DIRENT * j < (s.icache dp).size →
      DIRENT * j + DIRENT ≤ (s.icache dp).size ∧ ¬ q (s.slot (s.icache dp).inum j)) →
      wp (f []) Q R s) :
    wp (f ((direntOffs (s.icache dp).size).drop a)) Q R s := by
  have hmax : MAXFILE * BSIZE + DIRENT < 2 ^ 32 := by decide
  have hsize := h.size_le (h.of_locked hl).2
  -- the slots up to `b` have been read
  have hfrom : ∀ n b, a ≤ b → ((s.icache dp).size + (DIRENT - 1)) / DIRENT - b = n →
      (∀ i, a ≤ i → i < b →
        DIRENT * i + DIRENT ≤ (s.icache dp).size ∧ ¬ q (s.slot (s.icache dp).inum i)) →
      wp (f ((List.range' b n).map (DIRENT * ·))) Q R s := by
    intro n
    induction n with
    | zero =>
      intro b hb hn hread
      refine hend (fun j hj hlt => hread j hj ?_)
      unfold DIRENT DIRSIZ at *
      omega
    | succ n ih =>
      intro b hb hn hread
      have hlt : DIRENT * b < (s.icache dp).size := by
        unfold DIRENT DIRSIZ at *
        omega
      rw [List.range'_succ, List.map_cons, hloop, wp_bind]
      unfold wp
      rw [readi_bytes h hl (by rw [htype]; decide) hlt.le (by omega)]
      show wp (if _ then _ else if q (s.slot (s.icache dp).inum b) then _ else _) Q R s
      split
      · next hshort =>
        refine hstop ?_
        unfold DIRENT DIRSIZ at *
        omega
      · next hfull =>
        have hinside : DIRENT * b + DIRENT ≤ (s.icache dp).size := by
          have hpos : 0 < DIRENT := by decide
          omega
        split
        · next hq => exact hact b hb hinside hq (fun i hi hlt => (hread i hi hlt).2)
        · next hq =>
          refine ih (b + 1) (by omega) (by omega) (fun i hi hlt => ?_)
          rcases Nat.lt_succ_iff_lt_or_eq.mp hlt with hlt | rfl
          · exact hread i hi hlt
          · exact ⟨hinside, hq⟩
  unfold direntOffs
  rw [← List.map_drop, List.range_eq_range', List.drop_range', Nat.mul_one, Nat.zero_add]
  exact hfrom _ a le_rfl rfl (fun i hi hlt => absurd hi (by omega))

/-! ## Names -/

/-- **A slot with a name in it**, of the directory `k`, and the inode that it names. -/
structure NamesAt (s : Fs) (k j : ℕ) (name : ℕ → UInt8) (m : ℕ) : Prop where
  inside : DIRENT * j + DIRENT ≤ (s.sb.dinode s.disk k).size
  inum : direntInum (s.slot k j) = m
  used : m ≠ 0
  name : namecmp name (direntName (s.slot k j)) = 0

/-- **The slot with a name**, the first one. -/
def slotOf (s : Fs) (k : ℕ) (name : ℕ → UInt8) : Option ℕ :=
  (List.range ((s.sb.dinode s.disk k).size / DIRENT)).find? (fun j =>
    direntInum (s.slot k j) ≠ 0 ∧ namecmp name (direntName (s.slot k j)) = 0)

variable {k j : ℕ} {name : ℕ → UInt8}

theorem inside_iff {size : ℕ} : DIRENT * j + DIRENT ≤ size ↔ j < size / DIRENT := by
  unfold DIRENT DIRSIZ
  omega

theorem slotOf_eq_none_iff : s.slotOf k name = none ↔ ∀ j m, ¬ s.NamesAt k j name m := by
  unfold slotOf
  rw [List.find?_eq_none]
  constructor
  · intro h j m hat
    refine h j (List.mem_range.mpr (inside_iff.mp hat.inside)) (decide_eq_true ⟨?_, hat.name⟩)
    rw [hat.inum]
    exact hat.used
  · intro h j hj hq
    obtain ⟨hused, hname⟩ := of_decide_eq_true hq
    exact h j _ ⟨inside_iff.mpr (List.mem_range.mp hj), rfl, hused, hname⟩

theorem slotOf_eq_some_iff : s.slotOf k name = some j ↔
    s.NamesAt k j name (direntInum (s.slot k j)) ∧ ∀ i < j, ∀ m, ¬ s.NamesAt k i name m := by
  unfold slotOf
  rw [List.find?_range_eq_some]
  constructor
  · rintro ⟨hq, hj, hfirst⟩
    obtain ⟨hused, hname⟩ := of_decide_eq_true hq
    refine ⟨⟨inside_iff.mpr (List.mem_range.mp hj), rfl, hused, hname⟩, fun i hi m hat => ?_⟩
    have hfirst := hfirst i hi
    rw [Bool.not_eq_true'] at hfirst
    refine of_decide_eq_false hfirst ⟨?_, hat.name⟩
    rw [hat.inum]
    exact hat.used
  · rintro ⟨hat, hfirst⟩
    refine ⟨decide_eq_true ⟨hat.used, hat.name⟩, List.mem_range.mpr (inside_iff.mp hat.inside),
      fun i hi => ?_⟩
    rw [Bool.not_eq_true']
    refine decide_eq_false (fun hq => hfirst i hi _ ⟨?_, rfl, hq.1, hq.2⟩)
    have hinside := hat.inside
    unfold DIRENT DIRSIZ at *
    omega

/-! ## The rules -/

/-- **`dirlookup`** finds no slot and changes nothing, or takes a reference to what the first
slot with the name names. -/
theorem wp_dirlookup {Q : Option (Ip × ℕ) → Fs → Prop} (h : s.Consistent)
    (hl : (s.icache dp).locked = true)
    (hnone : (s.icache dp).type = T_DIR → s.slotOf (s.icache dp).inum name = none → Q none s)
    (hsome : (s.icache dp).type = T_DIR → ∀ j, s.slotOf (s.icache dp).inum name = some j →
      wp (iget (direntInum (s.slot (s.icache dp).inum j))) (fun ip => Q (some (ip, DIRENT * j))) R s)
    (hstop : ∀ e, e = .notDir ∨ e = .dirlookupRead →
      ¬ ((s.icache dp).type = T_DIR ∧ DIRENT ∣ (s.icache dp).size) → R e) :
    wp (dirlookup dp name) Q R s := by
  have hsize := (h.of_locked hl).2.copy
  unfold dirlookup
  rw [wp_bind, wp_get]
  split
  · next htype => exact hstop _ (.inl rfl) (fun hdir => htype hdir.1)
  · next htype =>
    have htype := Decidable.not_not.mp htype
    refine wp_slots (f := dirlookupLoop dp name)
      (q := fun de => direntInum de ≠ 0 ∧ namecmp name (direntName de) = 0)
      (g := fun off de => do
        let ip ← iget (direntInum de)
        return some (ip, off)) (fun off offs => ?_) h hl htype 0
      (fun hshort => hstop _ (.inr rfl) (fun hdir => hshort hdir.2)) (fun j _ hin hq hfirst => ?_)
      (fun hall => ?_)
    · conv_lhs => unfold dirlookupLoop
      refine congrArg (readi dp off DIRENT >>= ·) (funext (fun r => ?_))
      dsimp only
      split_ifs <;> first | rfl | tauto
    · rw [wp_bind]
      refine hsome htype j (slotOf_eq_some_iff.mpr ⟨⟨?_, rfl, hq.1, hq.2⟩, fun i hi m hat => ?_⟩)
      · rw [← hsize]
        exact hin
      · refine hfirst i (Nat.zero_le i) hi ⟨?_, hat.name⟩
        rw [hat.inum]
        exact hat.used
    · refine hnone htype (slotOf_eq_none_iff.mpr (fun j m hat => ?_))
      have hin := hat.inside
      rw [← hsize] at hin
      have hpos : 0 < DIRENT := by decide
      refine (hall j (Nat.zero_le j) (by omega)).2 ⟨?_, hat.name⟩
      rw [hat.inum]
      exact hat.used

/-- **A slot for a new entry**: one that is not in use, or the end. -/
def Vacant (bytes : List UInt8) (j : ℕ) : Prop :=
  (DIRENT * j + DIRENT ≤ bytes.length ∧ direntInum (dirSlot bytes j) = 0) ∨ DIRENT * j = bytes.length

theorem Vacant.le {bytes : List UInt8} {j : ℕ} (h : Vacant bytes j) : DIRENT * j ≤ bytes.length := by
  unfold Vacant at h
  omega

/-- **`dirlink`** gives back what has the name, or writes the entry to a slot that is not in
use, and to the end only if all are. -/
theorem wp_dirlink {Q : ℤ → Fs → Prop} {inum : ℕ} (h : s.Consistent)
    (hl : (s.icache dp).locked = true)
    (hfound : (s.icache dp).type = T_DIR → ∀ j, s.slotOf (s.icache dp).inum name = some j →
      wp (iget (direntInum (s.slot (s.icache dp).inum j)))
        (fun ip => wp (iput ip) (fun _ => Q (-1)) R) R s)
    (hnew : (s.icache dp).type = T_DIR → s.slotOf (s.icache dp).inum name = none →
      ∀ j, Vacant (s.fileBytes (s.icache dp).inum) j →
      ((s.icache dp).size < DIRENT * j + DIRENT → ∀ i < j, direntInum (s.slot (s.icache dp).inum i) ≠ 0) →
      wp (writei dp (direntBytes name inum) (DIRENT * j))
        (fun n s' => if n ≠ DIRENT then R .dirlink else Q 0 s') R s)
    (hstop : ∀ e, e = .notDir ∨ e = .dirlookupRead ∨ e = .dirlinkRead →
      ¬ ((s.icache dp).type = T_DIR ∧ DIRENT ∣ (s.icache dp).size) → R e) :
    wp (dirlink dp name inum) Q R s := by
  have hlen := length_fileBytes h hl
  unfold dirlink
  rw [wp_bind]
  refine wp_dirlookup h hl (fun htype hnone => ?_)
    (fun htype j hj => (hfound htype j hj).imp (fun ip s₁ h₁ => ?_))
    (fun e he => hstop e (he.imp_right .inl))
  · rw [wp_bind, wp_get]
    dsimp only
    rw [wp_bind]
    have hwrite : ∀ off j, off = DIRENT * j → Vacant (s.fileBytes (s.icache dp).inum) j →
        ((s.icache dp).size < DIRENT * j + DIRENT →
          ∀ i < j, direntInum (s.slot (s.icache dp).inum i) ≠ 0) →
        wp (do
          let n ← writei dp (direntBytes name inum) off
          if n ≠ DIRENT then throw .dirlink
          else return (0 : ℤ)) Q R s := by
      rintro off j rfl hvacant hall
      rw [wp_bind]
      refine (hnew htype hnone j hvacant hall).imp (fun n s' hn => ?_)
      split
      · next hne => rwa [if_pos hne] at hn
      · next hne => rwa [if_neg hne] at hn
    refine wp_slots (f := dirlinkLoop dp) (q := fun de => direntInum de = 0)
      (g := fun off _ => pure (some off)) (fun off offs => ?_) h hl htype 0
      (fun hshort => hstop _ (.inr (.inr rfl)) (fun hdir => hshort hdir.2))
      (fun j _ hin hq _ => ?_) (fun hall => ?_)
    · conv_lhs => unfold dirlinkLoop
    · refine hwrite _ j rfl (.inl ⟨by rw [hlen]; exact hin, hq⟩) (fun hlt => ?_)
      omega
    · -- all slots are in use, and none is cut short
      rw [length_direntOffs]
      refine hwrite _ _ rfl (.inr ?_) (fun _ i hi => (hall i (Nat.zero_le i) ?_).2)
      · rw [hlen]
        have hlast := hall ((s.icache dp).size / DIRENT) (Nat.zero_le _)
        unfold DIRENT DIRSIZ at *
        omega
      · unfold DIRENT DIRSIZ at *
        omega
  · rw [wp_bind]
    exact h₁

end Fs

end Xv6
