import Xv6.Lib.Touched
import Xv6.Fs.Nodes

/-!
# What the functions of `fs.c` log

On a disk with one block of the free map, the blocks that a function can log are few: the
free map, the block of the dinode that it works on, and if it writes to a file, the blocks
with the bytes and the indirect block. To free an inode is to clear bits of the free map
and to write the dinode, whatever the size of the file.
-/

namespace Xv6

open Function

open Wp

namespace Fs

/-! ## Blocks -/

section blocks

variable {s s' : Fs} {ip : Ip} {b : ℕ}

/-- With one block of the free map, it is the block of every bit. -/
theorem bblock_eq {sb : Superblock} (hsize : sb.size ≤ BPB) (hb : b < sb.size) :
    sb.bblock b = sb.bmapstart := by
  unfold Superblock.bblock
  rw [Nat.div_eq_of_lt (hb.trans_le hsize), Nat.zero_add]

/-- The number of the indirect block. -/
def indirect (s : Fs) (ip : Ip) : ℕ := (s.icache ip).addrs (Fin.last NDIRECT)

/-- **What `bmap` logs**: the free map, the block that it returns, and the indirect block,
which is there from then on. -/
theorem Bmapped.logged {eff : ℕ → Dinode} {X : Set ℕ} {pl : Place} (h : s.Working ip eff X)
    (hsize : s.sb.size ≤ BPB) (hb : Bmapped s ip pl b s') :
    (∀ c ∈ s'.logged, c ∈ s.logged ∨ c = s.sb.bmapstart ∨ c = b ∨ (c = s'.indirect ip ∧ c ≠ 0)) ∧
      (s.indirect ip ≠ 0 → s'.indirect ip = s.indirect ip) := by
  have htake : ∀ {s : Fs} {b : ℕ}, s.sb.size ≤ BPB → s.Free b →
      (s.take b).logged = s.logged ++ [s.sb.bmapstart, b] := by
    intro s b hsize hb
    show s.logged ++ [s.sb.bblock b] ++ [b] = _
    rw [bblock_eq hsize hb.1, List.append_assoc]
    rfl
  cases hb with
  | found hb hne => exact ⟨fun c hc => .inl hc, fun _ => rfl⟩
  | @direct i b hzero hb =>
    refine ⟨fun c hc => ?_, fun _ => ?_⟩
    · have hc : c ∈ (s.take b).logged := hc
      rw [htake hsize hb] at hc
      simp only [List.mem_append, List.mem_cons, List.not_mem_nil, or_false] at hc
      exact hc.imp_right (Or.imp_right .inl)
    · unfold indirect
      rw [setAddr_toDinode]
      exact update_of_ne (Fin.castSucc_ne_last i).symm _ _
  | @entry j b ind hind hne hzero hb =>
    refine ⟨fun c hc => ?_, fun _ => rfl⟩
    have hc : c ∈ (s.take b).logged ++ [ind] := hc
    rw [htake hsize hb] at hc
    simp only [List.mem_append, List.mem_cons, List.not_mem_nil, or_false] at hc
    rcases hc with (hc | hc | hc) | hc
    · exact .inl hc
    · exact .inr (.inl hc)
    · exact .inr (.inr (.inl hc))
    · exact .inr (.inr (.inr ⟨hc.trans hind.symm, hc ▸ hne⟩))
  | @both j b ind hzero hfree hb =>
    refine ⟨fun c hc => ?_, fun hne => absurd hzero hne⟩
    have hind : ind ≠ 0 := by
      have hdata := h.nmeta_le_of_free hfree
      have hmeta := h.sound.wf.one_lt_nmeta
      omega
    have hlast : Fs.indirect ((((s.take ind).setAddr ip (Fin.last NDIRECT) ind).take b).writeBlock
        ind (fun a => a.setWord j b)) ip = ind := by
      unfold indirect
      rw [writeBlock_icache, take_icache, setAddr_toDinode]
      exact update_self (Fin.last NDIRECT) ind (s.icache ip).addrs
    have hc : c ∈ ((((s.take ind).setAddr ip (Fin.last NDIRECT) ind).take b).logged ++ [ind]) := hc
    rw [htake (s := (s.take ind).setAddr ip (Fin.last NDIRECT) ind) hsize hb] at hc
    have hfirst : ((s.take ind).setAddr ip (Fin.last NDIRECT) ind).logged
        = s.logged ++ [s.sb.bmapstart, ind] := htake hsize hfree
    rw [hfirst, setAddr_sb, take_sb] at hc
    simp only [List.mem_append, List.mem_cons, List.not_mem_nil, or_false] at hc
    rw [hlast]
    rcases hc with ((hc | hc | hc) | hc | hc) | hc
    · exact .inl hc
    · exact .inr (.inl hc)
    · exact .inr (.inr (.inr ⟨hc, hc ▸ hind⟩))
    · exact .inr (.inl hc)
    · exact .inr (.inr (.inl hc))
    · exact .inr (.inr (.inr ⟨hc, hc ▸ hind⟩))

end blocks

/-! ## Writing -/

/-- The blocks of a file with the bytes from an offset on. -/
def spanned (off n : ℕ) : ℕ := (off % BSIZE + n + (BSIZE - 1)) / BSIZE

/-- **After `i` bytes of `writei`**: what is logged, with the blocks of the bytes in `D`. -/
structure Spent (s₀ : Fs) (ip : Ip) (off n i : ℕ) (s : Fs) (D : Finset ℕ) : Prop where
  card : i = 0 ∧ D.card = 0 ∨ 0 < i ∧ D.card + off / BSIZE ≤ (off + i + (BSIZE - 1)) / BSIZE
  turn : i = 0 ∨ (off + i) % BSIZE = 0 ∨ i = n
  logged : ∀ c ∈ s.logged, c ∈ s₀.logged ∨ c = s₀.sb.bmapstart ∨ c ∈ D ∨
    (c = s.indirect ip ∧ c ≠ 0)

theorem Spent.step {s₀ s s' : Fs} {ip : Ip} {off n i m b : ℕ} {D : Finset ℕ} {eff : ℕ → Dinode}
    {pl : Place} (h : Spent s₀ ip off n i s D) (hW : Writing s₀ ip s eff (off + i))
    (hsize : s₀.sb.size ≤ BPB) (hi : i < n) (hm : m = min (n - i) (BSIZE - (off + i) % BSIZE))
    (hb : Bmapped s ip pl b s') (f : Block → Block) :
    Spent s₀ ip off n (i + m) (s'.writeBlock b f) (insert b D) := by
  obtain ⟨hlogged, hkeep⟩ := hb.logged hW.working (by rw [hW.sb]; exact hsize)
  have hcard := Finset.card_insert_le b D
  refine ⟨?_, ?_, fun c hc => ?_⟩
  · have := h.card
    have := h.turn
    unfold BSIZE at *
    omega
  · have := h.turn
    unfold BSIZE at *
    omega
  · have hc : c ∈ s'.logged ++ [b] := hc
    rcases List.mem_append.mp hc with hc | hc
    · rcases hlogged c hc with hc | hc | hc | hc
      · rcases h.logged c hc with hc | hc | hc | hc
        · exact .inl hc
        · exact .inr (.inl hc)
        · exact .inr (.inr (.inl (Finset.mem_insert_of_mem hc)))
        · refine .inr (.inr (.inr ⟨?_, hc.2⟩))
          rw [hc.1]
          exact (hkeep (hc.1 ▸ hc.2)).symm
      · exact .inr (.inl (by rw [hc, hW.sb]))
      · exact .inr (.inr (.inl (by rw [hc]; exact Finset.mem_insert_self b D)))
      · exact .inr (.inr (.inr hc))
    · rw [List.mem_singleton.mp hc]
      exact .inr (.inr (.inl (Finset.mem_insert_self b D)))

/-- The loop of `writei`. -/
theorem wp_writeiLoop_spent {s₀ : Fs} {ip : Ip} {eff : ℕ → Dinode} {off : ℕ} (src : List UInt8)
    (h : Writing s₀ ip s₀ eff off) (hsize : s₀.sb.size ≤ BPB)
    (hmax : off + src.length ≤ MAXFILE * BSIZE) :
    wp (writeiLoop ip src.length off src) (fun _ s' =>
      (∃ eff', Writing s₀ ip s' eff' (off + src.length)) ∧
        ∃ D, Spent s₀ ip off src.length src.length s' D) (· = .outOfBlocks) s₀ := by
  refine wp_writeiLoop (J := fun i s' => ∃ D, Spent s₀ ip off src.length i s' D) src h hmax
    ⟨∅, .inl ⟨rfl, rfl⟩, .inl rfl, fun c hc => .inl hc⟩ (fun hi hm _ hW hb hJ => ?_)
  obtain ⟨D, hD⟩ := hJ
  exact ⟨_, hD.step hW hsize hi hm hb _⟩

/-- The blocks that come up in any operation on an inode: the free map, and the block of its
dinode. -/
def common (s : Fs) (ip : Ip) : Set ℕ := {s.sb.bmapstart, s.sb.iblock (s.icache ip).inum}

/-- **What `writei` logs**: besides those, the blocks with the bytes and the indirect block. -/
theorem wp_writei_touched {s : Fs} (h : s.Consistent) {ip : Ip} (hl : (s.icache ip).locked = true)
    (hsize : s.sb.size ≤ BPB) {src : List UInt8} {off : ℕ} (hoff : off < 2 ^ 32)
    (hsrc : src.length < 2 ^ 32) :
    wp (writei ip src off) (fun _ s' => Touched (s.common ip) (spanned off src.length + 1)
      s.logged s'.logged) (· = .outOfBlocks) s := by
  obtain ⟨href, hip⟩ := h.of_locked hl
  have hsame : Touched (s.common ip) (spanned off src.length + 1) s.logged s.logged :=
    (Touched.refl _ _).mono subset_rfl (Nat.zero_le _)
  unfold writei
  rw [wp_bind, wp_get]
  dsimp only
  split
  · split
    · exact hsame
    · exact hsame
  · split
    · exact hsame
    · next hgood =>
      split
      · exact hsame
      · next hmax =>
        have hsum : off + src.length < 2 ^ 32 := by omega
        rw [Nat.mod_eq_of_lt hsum] at hmax hgood
        have hstart : Writing s ip s (s.sb.dinode s.disk) off := h.writing href hip (by omega)
        refine (wp_writeiLoop_spent src hstart hsize (by omega)).bind (fun _ s₁ h₁ => ?_)
        obtain ⟨⟨eff, hW⟩, D, hD⟩ := h₁
        have htouched : Touched (s.common ip) (spanned off src.length + 1) s.logged s₁.logged := by
          refine ⟨insert (s₁.indirect ip) D, ?_, fun c hc => ?_⟩
          · have hcard := Finset.card_insert_le (s₁.indirect ip) D
            have := hD.card
            unfold spanned BSIZE at *
            omega
          · rcases hD.logged c hc with hc | hc | hc | hc
            · exact .inl hc
            · exact .inr (.inl (.inl hc))
            · exact .inr (.inr (Finset.mem_insert_of_mem hc))
            · exact .inr (.inr (by rw [hc.1]; exact Finset.mem_insert_self _ D))
        rw [wp_bind]
        unfold grow
        rw [wp_bind, wp_get]
        split
        · rw [wp_bind, wp_modify, wp_iupdate, wp_pure]
          have hinum : ((s₁.setInode ip (fun i => { i with size := off + src.length })).icache ip).inum
              = (s.icache ip).inum := by
            rw [setInode_icache, update_self]
            exact hW.inum_eq
          refine htouched.snoc ?_
          rw [hinum, setInode_sb, hW.sb]
          exact .inr rfl
        · exact htouched

/-! ## The functions of an operation -/

/-- **A part of an operation**: the file system stays consistent, what is locked stays
locked, and what is logged. -/
structure Step (M : Set ℕ) (n : ℕ) (s s' : Fs) : Prop where
  consistent : s'.Consistent
  sb : s'.sb = s.sb
  locks : ∀ jp, (s.icache jp).locked = true →
    (s'.icache jp).locked = true ∧ (s'.icache jp).inum = (s.icache jp).inum
  touched : Touched M n s.logged s'.logged

namespace Step

variable {M M' : Set ℕ} {n m : ℕ} {s s₁ s' : Fs} {ip : Ip}

theorem mono (h : Step M n s s') (hM : M ⊆ M') (hn : n ≤ m) : Step M' m s s' :=
  ⟨h.consistent, h.sb, h.locks, h.touched.mono hM hn⟩

theorem trans (h : Step M n s s₁) (h' : Step M m s₁ s') : Step M (n + m) s s' := by
  refine ⟨h'.consistent, h'.sb.trans h.sb, fun jp hjp => ?_, h.touched.trans h'.touched⟩
  obtain ⟨hl, hinum⟩ := h.locks jp hjp
  obtain ⟨hl', hinum'⟩ := h'.locks jp hl
  exact ⟨hl', hinum'.trans hinum⟩

/-- The blocks of an inode that stays locked. -/
theorem common_eq (h : Step M n s s') (hl : (s.icache ip).locked = true) :
    s'.common ip = s.common ip := by
  unfold common
  rw [h.sb, (h.locks ip hl).2]

/-- The entry of one inode changes, and not its lock. -/
theorem of_update {i : Inode} (hcons : s'.Consistent) (hsb : s'.sb = s.sb)
    (hicache : s'.icache = update s.icache ip i) (hinum : i.inum = (s.icache ip).inum)
    (hlocked : (s.icache ip).locked = true → i.locked = true)
    (htouched : Touched M n s.logged s'.logged) : Step M n s s' := by
  refine ⟨hcons, hsb, fun jp hjp => ?_, htouched⟩
  rw [hicache]
  by_cases hsame : jp = ip
  · rw [hsame, update_self]
    exact ⟨hlocked (hsame ▸ hjp), hinum⟩
  · rw [update_of_ne hsame]
    exact ⟨hjp, rfl⟩

end Step

section functions

variable {s : Fs} {ip dp : Ip}

section

variable (h : s.Consistent)

include h

theorem wp_iget_step (k : ℕ) :
    wp (iget k) (fun ip s' => Step ∅ 0 s s' ∧ 0 < (s'.icache ip).ref ∧ (s'.icache ip).inum = k)
      (fun _ => True) s := by
  refine (wp_iget_got h k).any (fun ip s' hs' => ?_)
  obtain ⟨hgot, hlogged, hinum, hpos⟩ := hs'
  refine ⟨⟨hgot.consistent, hgot.sb, fun jp hjp => ?_, ?_⟩, hpos, hinum⟩
  · have hsteady := hgot.steady jp
    exact ⟨hsteady.1.trans hjp, (hsteady.2 (h.cached.locked hjp).1).1⟩
  · rw [hlogged]
    exact .refl _ _

theorem wp_ilock_step (hinum : (s.icache ip).inum < s.sb.ninodes) :
    wp (ilock ip) (fun _ s' => Step ∅ 0 s s' ∧ Locked ip s s') (fun _ => True) s := by
  refine ((wp_ilock h hinum).and (wp_ilock_entry s ip)).any (fun _ s' hs' => ?_)
  obtain ⟨⟨hcons, hlocked⟩, -, hfree, d, rfl, -⟩ := hs'
  exact ⟨.of_update hcons rfl rfl rfl (fun _ => rfl) (.refl _ _), .of_update rfl rfl, hfree, hlocked⟩

/-- The fields that system calls set change, and `iupdate` follows. -/
theorem wp_fields_step (hl : (s.icache ip).locked = true) (major minor nlink : Int16) :
    wp (do
      modify (setInode ip (fun i => { i with major := major, minor := minor, nlink := nlink }))
      iupdate ip) (fun _ s' => Step (s.common ip) 0 s s') (fun _ => True) s := by
  obtain ⟨href, hip⟩ := h.of_locked hl
  have hcons := wp_iupdate_fields h href hip major minor nlink (R := fun _ => True)
  rw [wp_bind, wp_modify, wp_iupdate] at hcons ⊢
  refine .of_update hcons rfl rfl rfl id (.snoc (.refl _ _) (.inr ?_))
  rw [setInode_icache, update_self]
  rfl

theorem wp_addLinks_step (hl : (s.icache ip).locked = true) (n : Int16) :
    wp (addLinks ip n) (fun _ s' => Step (s.common ip) 0 s s') (fun _ => True) s := by
  have hfields := wp_fields_step h hl (s.icache ip).major (s.icache ip).minor
    ((s.icache ip).nlink + n)
  unfold addLinks
  rw [wp_bind, wp_modify] at hfields ⊢
  exact hfields

theorem wp_writei_step (hl : (s.icache ip).locked = true) (hsize : s.sb.size ≤ BPB)
    {src : List UInt8} {off : ℕ} (hoff : off < 2 ^ 32) (hsrc : src.length < 2 ^ 32) :
    wp (writei ip src off) (fun _ s' => Step (s.common ip) (spanned off src.length + 1) s s')
      (fun _ => True) s := by
  obtain ⟨href, hip⟩ := h.of_locked hl
  refine ((wp_writei_touched h hl hsize hoff hsrc).and (wp_writei h href hip hoff hsrc)).mono
    (fun _ s' hs' => ?_) (fun _ _ => trivial)
  obtain ⟨htouched, hcons, hsb, x, hicache⟩ := hs'
  exact .of_update hcons hsb hicache rfl id htouched

end

/-- **What giving a reference back logs**: the free map and the dinode. -/
theorem Put.touched {s' : Fs} (h : Put ip s s') (hsize : s.sb.size ≤ BPB) :
    Touched (s.common ip) 0 s.logged s'.logged :=
  ⟨∅, le_rfl, fun c hc => (h.logged c hc).imp_right fun hc =>
    .inl (hc.imp_left fun ⟨_, hb, hc⟩ => hc.trans (bblock_eq hsize hb))⟩

/-- A directory entry is in one block. -/
theorem spanned_dirent (j : ℕ) : spanned (DIRENT * j) DIRENT = 1 := by
  unfold spanned DIRENT DIRSIZ BSIZE
  omega

/-- **What `dirlink` logs**: a block of the directory and its indirect block, or the dinode of
the inode that has the name. -/
theorem wp_dirlink_step (h : s.Consistent) (hl : (s.icache dp).locked = true)
    (hsize : s.sb.size ≤ BPB) (name : ℕ → UInt8) (inum : ℕ) :
    wp (dirlink dp name inum) (fun _ s' => Step (s.common dp) 2 s s') (fun _ => True) s := by
  have hmax : MAXFILE * BSIZE + DIRENT < 2 ^ 32 := by decide
  have hlen : (direntBytes name inum).length = DIRENT := length_direntBytes name inum
  refine wp_dirlink h hl (fun _ j _ => ?_) (fun _ _ j hvacant _ => ?_) (fun _ _ _ => trivial)
  · refine (wp_iget_step h _).any (fun ip s₁ h₁ => ?_)
    obtain ⟨hstep, hpos, -⟩ := h₁
    refine (wp_iput_put hstep.consistent hpos).any (fun _ s₂ h₂ => ?_)
    obtain ⟨hfree, h₂⟩ := h₂
    have hput : Step (s₁.common ip) 0 s₁ s₂ := by
      refine ⟨h₂.consistent, h₂.sb, fun jp hjp => ?_, h₂.touched (by rw [hstep.sb]; exact hsize)⟩
      have hne : jp ≠ ip := by
        rintro rfl
        rw [hfree] at hjp
        cases hjp
      rw [h₂.same jp hne]
      exact ⟨hjp, rfl⟩
    have hboth := (hstep.mono (Set.empty_subset _) le_rfl).trans hput
    refine ⟨hboth.consistent, hboth.sb, hboth.locks, ?_⟩
    refine (hboth.touched.count (x := s₁.sb.iblock (s₁.icache ip).inum) ?_).mono subset_rfl
      (by decide)
    rintro c (hc | hc)
    · exact .inr (.inl (by rw [hc, hstep.sb]))
    · exact .inl hc
  · have hle := hvacant.le
    have hbytes := h.size_le (h.of_locked hl).2
    rw [length_fileBytes h hl] at hle
    refine (wp_writei_step h hl hsize (by omega) (by rw [hlen]; decide)).any (fun n s' hs' => ?_)
    rw [hlen, spanned_dirent] at hs'
    split
    · exact trivial
    · exact hs'

theorem wp_ialloc_step (h : s.Consistent) (type : Int16) :
    wp (ialloc type) (fun ip s' => Step {s.sb.iblock (s'.icache ip).inum} 0 s s' ∧
      (s'.icache ip).inum < s.sb.ninodes) (fun _ => True) s := by
  refine wp_ialloc_free trivial (fun k _ hlt hfree => ?_)
  refine (wp_iget_step (h.alloc hlt hfree type) k).imp (fun ip s' hs' => ?_)
  obtain ⟨hstep, -, hinum⟩ := hs'
  rw [hinum]
  refine ⟨⟨hstep.consistent, hstep.sb, hstep.locks, ?_⟩, hlt⟩
  exact (Touched.snoc (.refl _ s.logged) (Set.mem_singleton _)).trans
    (hstep.touched.mono (Set.empty_subset _) le_rfl)

end functions

end Fs

end Xv6
