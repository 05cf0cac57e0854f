import Xv6.Fs.Working

/-!
# The contents of inodes

`readi` and `writei`. Below the size of a file every block is there, so
`readi` finds all it needs and changes nothing. `writei` starts at most at the
end of the file: the blocks it has to allocate lie past the size, and a write
that allocates makes the file grow, so that the new addresses reach the disk.
-/

namespace Xv6

open Function

open Wp

/-- **The byte of a file** at an offset. -/
def Dinode.byteAt (x : Dinode) (d : Disk) (p : ℕ) : UInt8 :=
  match Place.ofBlock (p / BSIZE) with
  | none => 0
  | some pl => (d (pl.addr d x)).byte (p % BSIZE)

/-- The bytes that one turn of `readi` copies. -/
theorem Dinode.bytes_eq_byteAt (x : Dinode) (d : Disk) {off m : ℕ} {pl : Place}
    (hpl : Place.ofBlock (off / BSIZE) = some pl) (hm : m ≤ BSIZE - off % BSIZE) :
    (d (pl.addr d x)).bytes (off % BSIZE) m = (List.range' off m).map (x.byteAt d) := by
  unfold Block.bytes
  rw [List.range'_eq_map_range, List.map_map]
  refine List.map_congr_left (fun j hj => ?_)
  have hj := List.mem_range.mp hj
  have hdiv : (off + j) / BSIZE = off / BSIZE := by
    unfold BSIZE at *
    omega
  have hmod : (off + j) % BSIZE = off % BSIZE + j := by
    unfold BSIZE at *
    omega
  show _ = x.byteAt d (off + j)
  unfold byteAt
  rw [hdiv, hpl, hmod]

/-- A block before the largest size of a file has a place. -/
theorem Place.ofBlock_of_lt (bn : ℕ) (h : bn < MAXFILE) :
    ∃ pl, ofBlock bn = some pl ∧ pl ≠ indirect := by
  unfold ofBlock
  by_cases hd : bn < NDIRECT
  · exact ⟨_, dif_pos hd, nofun⟩
  · rw [dif_neg hd]
    have hj : bn - NDIRECT < NINDIRECT := by
      unfold MAXFILE at h
      omega
    exact ⟨_, dif_pos hj, nofun⟩

namespace Fs

/-! ## Reading -/

variable {s : Fs} {ip : Ip} {R : FsHalt → Prop}

/-- `bmap` of a block that is there. -/
theorem wp_bmap_found {bn : ℕ} {pl : Place} (hbn : Place.ofBlock bn = some pl)
    (hne : pl.addr s.disk (s.icache ip).toDinode ≠ 0) :
    wp (bmap ip bn) (fun b s' => b = pl.addr s.disk (s.icache ip).toDinode ∧ s' = s) R s := by
  have hget : ∀ i, (s.icache ip).addrs i ≠ 0 → ∀ {Q : ℕ → Fs → Prop},
      wp (getAddr ip i) Q R s ↔ Q ((s.icache ip).addrs i) s := by
    intro i hi Q
    unfold getAddr
    rw [wp_bind, wp_get, if_neg hi, wp_pure]
  unfold Place.ofBlock at hbn
  unfold bmap
  split at hbn
  · next hdirect =>
    cases hbn
    rw [dif_pos hdirect, hget _ hne]
    exact ⟨rfl, rfl⟩
  · next hdirect =>
    rw [dif_neg hdirect]
    split at hbn
    · next hj =>
      cases hbn
      have hind : (s.icache ip).addrs (Fin.last NDIRECT) ≠ 0 := fun h => hne (if_pos h)
      rw [Place.addr_entry s.disk _ rfl hind] at hne ⊢
      rw [if_pos hj, wp_bind, hget _ hind, wp_bind, wp_get, if_neg hne, wp_pure]
      exact ⟨rfl, rfl⟩
    · cases hbn

/-- **The file has no hole** before the offset `n`: every block that starts there has an address. -/
def Covers (s : Fs) (ip : Ip) (n : ℕ) : Prop :=
  ∀ bn, bn * BSIZE < n →
    ∃ pl, Place.ofBlock bn = some pl ∧ pl.addr s.disk (s.icache ip).toDinode ≠ 0

theorem wp_readiLoop (turns : ℕ) :
    ∀ {off n : ℕ}, s.Covers ip (off + n) → n ≤ turns →
      wp (readiLoop ip turns off n) (fun data s' =>
        data = (List.range' off n).map ((s.icache ip).byteAt s.disk) ∧ s' = s) R s := by
  induction turns with
  | zero =>
    intro off n _ hn
    rw [Nat.le_zero.mp hn]
    exact ⟨rfl, rfl⟩
  | succ turns ih =>
    intro off n hcov hn
    unfold readiLoop
    split
    · next hzero =>
      rw [hzero]
      exact ⟨rfl, rfl⟩
    · next hne =>
      have hdiv : off / BSIZE * BSIZE ≤ off := Nat.div_mul_le_self off BSIZE
      have hmod : off % BSIZE < BSIZE := Nat.mod_lt _ (by decide)
      obtain ⟨pl, hpl, haddr⟩ := hcov (off / BSIZE) (by omega)
      refine (wp_bmap_found hpl haddr).bind (fun b s' hb => ?_)
      obtain ⟨rfl, rfl⟩ := hb
      rw [wp_bind, wp_get, wp_bind]
      have hlen : off + min n (BSIZE - off % BSIZE) + (n - min n (BSIZE - off % BSIZE)) = off + n := by
        omega
      refine (ih (by rw [hlen]; exact hcov) (by omega)).imp (fun rest s'' h => ?_)
      obtain ⟨rfl, rfl⟩ := h
      rw [wp_pure]
      refine ⟨?_, rfl⟩
      rw [Dinode.bytes_eq_byteAt _ _ hpl (Nat.min_le_right _ _), ← List.map_append]
      rw [List.range'_append_1]
      congr 2
      omega

variable {off n : ℕ}

/-- **`readi` changes nothing**, and reads the bytes up to the size. -/
theorem wp_readi (hoff : off < 2 ^ 32) (hn : n < 2 ^ 32) (hcov : s.Covers ip (s.icache ip).size) :
    wp (readi ip off n) (fun r s' => s' = s ∧ ((s.icache ip).type ≠ T_DEV →
      off ≤ (s.icache ip).size → off + n < 2 ^ 32 →
      r = (intOfWord (min n ((s.icache ip).size - off)),
        (List.range' off (min n ((s.icache ip).size - off))).map
          ((s.icache ip).byteAt s.disk)))) R s := by
  unfold readi
  rw [wp_bind, wp_get]
  dsimp only
  split
  · next hdev =>
    split
    · exact ⟨rfl, fun hne => absurd hdev hne⟩
    · exact ⟨rfl, fun hne => absurd hdev hne⟩
  · split
    · next hbad =>
      refine ⟨rfl, fun _ hle hlt => ?_⟩
      rw [Nat.mod_eq_of_lt hlt] at hbad
      omega
    · next hgood =>
      have hsum : off + n < 2 ^ 32 := by omega
      rw [Nat.mod_eq_of_lt hsum] at hgood ⊢
      have hlen : (if (s.icache ip).size < off + n then (s.icache ip).size - off else n)
          = min n ((s.icache ip).size - off) := by
        split <;> omega
      rw [hlen]
      refine (wp_readiLoop _ (fun bn hbn => hcov bn (by omega)) le_rfl).bind (fun data s' h => ?_)
      obtain ⟨rfl, rfl⟩ := h
      exact ⟨rfl, fun _ _ _ => rfl⟩

/-! ## Writing -/

variable {eff : ℕ → Dinode}

/-- The blocks of a file are there if their places own blocks. -/
theorem covers_iff (hk : Allocated s.sb eff (s.icache ip).inum)
    (hm : eff (s.icache ip).inum = (s.icache ip).toDinode) :
    s.Covers ip n ↔ ∀ bn, bn * BSIZE < n → ∃ pl, Place.ofBlock bn = some pl
      ∧ owner s.sb s.disk eff ((s.icache ip).inum, pl) ≠ none := by
  refine forall_congr' (fun bn => imp_congr_right (fun _ => exists_congr (fun pl =>
    and_congr_right (fun _ => not_congr ?_))))
  rw [owner_eq hk, hm, blockOf_eq_none]

/-- The file is full up to its size. -/
theorem Consistent.covers (h : s.Consistent) (hip : Agrees s.sb s.disk (s.icache ip)) :
    s.Covers ip (s.icache ip).size := by
  rw [covers_iff hip.allocated hip.copy.symm, hip.copy]
  exact h.sound.full _ hip.allocated

theorem Consistent.size_le (h : s.Consistent) (hip : Agrees s.sb s.disk (s.icache ip)) :
    (s.icache ip).size ≤ MAXFILE * BSIZE := by
  rw [hip.copy]
  exact h.sound.size_le hip.allocated

/-- **`writei` at work**: the blocks up to the size and up to the offset are
there, and if the dinode on the disk is behind, the offset has passed the
size. -/
structure Writing (s₀ : Fs) (ip : Ip) (s : Fs) (eff : ℕ → Dinode) (off : ℕ) : Prop where
  working : s.Working ip eff ∅
  mirror : eff (s.icache ip).inum = (s.icache ip).toDinode
  sb : s.sb = s₀.sb
  icache : ∃ a, s.icache = update s₀.icache ip { s₀.icache ip with addrs := a }
  type : (s.icache ip).type ≠ 0
  covers : s.Covers ip (max (s.icache ip).size off)
  disk : s.sb.dinode s.disk (s.icache ip).inum = eff (s.icache ip).inum ∨ (s.icache ip).size < off

/-- `writei` starts, at most at the end of the file. -/
theorem Consistent.writing (h : s.Consistent) (href : 0 < (s.icache ip).ref)
    (hip : Agrees s.sb s.disk (s.icache ip)) (hoff : off ≤ (s.icache ip).size) :
    Writing s ip s (s.sb.dinode s.disk) off where
  working := h.working href hip.inum
  mirror := hip.copy.symm
  sb := rfl
  icache := ⟨(s.icache ip).addrs, (update_eq_self ip s.icache).symm⟩
  type := hip.type
  covers := by
    rw [Nat.max_eq_left hoff]
    exact h.covers hip
  disk := .inl rfl

namespace Writing

variable {s₀ s s' : Fs} {ip : Ip} {eff : ℕ → Dinode} {off : ℕ}

variable (h : Writing s₀ ip s eff off)

include h

theorem allocated : Allocated s.sb eff (s.icache ip).inum :=
  ⟨h.working.here.2, by rw [h.mirror]; exact h.type⟩

theorem inum_eq : (s.icache ip).inum = (s₀.icache ip).inum := by
  obtain ⟨a, ha⟩ := h.icache
  rw [ha, update_self]

theorem size_eq : (s.icache ip).size = (s₀.icache ip).size := by
  obtain ⟨a, ha⟩ := h.icache
  rw [ha, update_self]

/-- **One turn of the loop.** -/
theorem step {m : ℕ} (hm : 0 < m) (hle : m ≤ BSIZE - off % BSIZE) {pl : Place}
    (hpl : Place.ofBlock (off / BSIZE) = some pl) (hne : pl ≠ .indirect) {b : ℕ}
    (hb : Bmapped s ip pl b s') (f : Block → Block) :
    ∃ eff', Writing s₀ ip (s'.writeBlock b f) eff' (off + m) := by
  obtain ⟨eff', hM⟩ := h.working.bmapped h.mirror h.allocated hb
  obtain ⟨a, ha⟩ := hM.icache
  have hself : s'.icache ip = { s.icache ip with addrs := a } := by rw [ha, update_self]
  have hinum : (s'.icache ip).inum = (s.icache ip).inum := by rw [hself]
  have hsize : (s'.icache ip).size = (s.icache ip).size := by rw [hself]
  have htype : (s'.icache ip).type ≠ 0 := by rw [hself]; exact h.type
  have hmirror : eff' (s'.icache ip).inum = (s'.icache ip).toDinode := by rw [hinum, hM.mirror]
  have hk : Allocated s'.sb eff' (s'.icache ip).inum :=
    ⟨hM.working.here.2, by rw [hmirror]; exact htype⟩
  have howns : owner s'.sb s'.disk eff' ((s.icache ip).inum, pl) = some b := by
    rw [hM.sb]
    exact hM.owns
  have hdata := (hM.working.sound.used_of_owner howns).1
  have hind : ∀ k, owner s'.sb s'.disk eff' (k, .indirect) ≠ some b := fun k hk =>
    hne (congrArg Prod.snd (hM.working.sound.ledger.unique howns hk))
  have hown : owner s'.sb (s'.writeBlock b f).disk eff' = owner s'.sb s'.disk eff' := by
    refine owner_congr_disk (fun k c hc => update_of_ne ?_ _ _)
    rintro rfl
    exact hind k hc
  have hcovers := (covers_iff h.allocated h.mirror).mp h.covers
  have hdiv : off / BSIZE * BSIZE ≤ off := Nat.div_mul_le_self off BSIZE
  refine ⟨eff', hM.working.writeBlock_data hdata hind f, hmirror, hM.sb.trans h.sb, ?_, htype, ?_, ?_⟩
  · obtain ⟨a₀, ha₀⟩ := h.icache
    refine ⟨a, ?_⟩
    rw [writeBlock_icache, ha, ha₀, update_self, update_idem]
  · refine (covers_iff (s := s'.writeBlock b f) hk hmirror).mpr (fun bn hbn => ?_)
    show ∃ pl, _ ∧ owner s'.sb (s'.writeBlock b f).disk eff' ((s'.icache ip).inum, pl) ≠ none
    rw [hown, hinum]
    have hbn' : bn * BSIZE < max (s'.icache ip).size (off + m) := hbn
    rw [hsize] at hbn'
    by_cases hold : bn * BSIZE < max (s.icache ip).size off
    · obtain ⟨pl', hpl', hne'⟩ := hcovers bn hold
      exact ⟨pl', hpl', by rw [hM.sb]; exact hM.keeps pl' hne'⟩
    · -- the block of this turn
      have heq : bn = off / BSIZE := by
        unfold BSIZE at *
        omega
      exact ⟨pl, by rw [heq]; exact hpl, by rw [howns]; exact Option.some_ne_none b⟩
  · show s'.sb.dinode (update s'.disk b _) (s'.icache ip).inum = eff' (s'.icache ip).inum
      ∨ (s'.icache ip).size < off + m
    rw [hinum, hsize]
    rcases hM.fresh with hempty | ⟨rfl, rfl⟩
    · -- a block was allocated: it is not before the size
      refine .inr ?_
      by_contra hlt
      obtain ⟨pl', hpl', hne'⟩ := hcovers (off / BSIZE) (by omega)
      rw [hpl] at hpl'
      cases hpl'
      exact hne' hempty
    · refine h.disk.imp (fun hd => ?_) (fun hlt => by omega)
      have hi := h.working.sound.wf.iblock_lt h.working.here.2
      have hmeta := h.working.sound.wf.bmapstart_lt
      rw [Superblock.dinode_update _ (by omega)]
      exact hd

end Writing

/-- **The rule of the loop of `writei`**, with an invariant of the number of
bytes that are written. -/
theorem wp_writeiLoop_of {src : List UInt8} {I : ℕ → Fs → Prop}
    (hstep : ∀ i s m, i < src.length → m = min (src.length - i) (BSIZE - (off + i) % BSIZE) → I i s →
      wp (bmap ip ((off + i) / BSIZE)) (fun b s' => I (i + m) (s'.writeBlock b
        (Block.setBytes ((off + i) % BSIZE) ((src.drop i).take m)))) R s) (turns : ℕ) :
    ∀ {i : ℕ} {s : Fs}, i ≤ src.length → src.length - i ≤ turns → I i s →
      wp (writeiLoop ip turns (off + i) (src.drop i)) (fun _ s' => I src.length s') R s := by
  induction turns with
  | zero =>
    intro i s hi hturns h
    have hend : i = src.length := by omega
    rw [hend] at h
    exact h
  | succ turns ih =>
    intro i s hi hturns h
    unfold writeiLoop
    split
    · next hnil =>
      have hend : i = src.length := Nat.le_antisymm hi (List.drop_eq_nil_iff.mp hnil)
      rw [hend] at h
      exact h
    · next hne =>
      have hlt : i < src.length := by
        rw [List.drop_eq_nil_iff] at hne
        omega
      have hmod : (off + i) % BSIZE < BSIZE := Nat.mod_lt _ (by decide)
      refine (hstep i s _ hlt rfl h).bind (fun b s' hb => ?_)
      rw [List.length_drop]
      dsimp only
      rw [wp_bind, wp_modify, List.drop_drop, Nat.add_assoc]
      exact ih (by omega) (by omega) hb

variable {s₀ : Fs}

/-- **The loop of `writei` at work**, with an invariant `J` of its own. -/
theorem wp_writeiLoop {J : ℕ → Fs → Prop} (src : List UInt8) (h : Writing s₀ ip s₀ eff off)
    (hmax : off + src.length ≤ MAXFILE * BSIZE) (hstart : J 0 s₀)
    (hstep : ∀ {i m : ℕ} {s s' : Fs} {eff : ℕ → Dinode} {pl : Place} {b : ℕ}, i < src.length →
      m = min (src.length - i) (BSIZE - (off + i) % BSIZE) →
      Place.ofBlock ((off + i) / BSIZE) = some pl → Writing s₀ ip s eff (off + i) →
      Bmapped s ip pl b s' → J i s → J (i + m) (s'.writeBlock b
        (Block.setBytes ((off + i) % BSIZE) ((src.drop i).take m)))) :
    wp (writeiLoop ip src.length off src) (fun _ s' =>
      (∃ eff', Writing s₀ ip s' eff' (off + src.length)) ∧ J src.length s') (· = .outOfBlocks) s₀ := by
  refine wp_writeiLoop_of (I := fun i s' => (∃ eff', Writing s₀ ip s' eff' (off + i)) ∧ J i s')
    (fun i s m hi hm hI => ?_) src.length (i := 0) (Nat.zero_le _) le_rfl ⟨⟨eff, h⟩, hstart⟩
  obtain ⟨⟨eff, hI⟩, hJ⟩ := hI
  have hmod : (off + i) % BSIZE < BSIZE := Nat.mod_lt _ (by decide)
  obtain ⟨pl, hpl, hplne⟩ := Place.ofBlock_of_lt ((off + i) / BSIZE)
    (Nat.div_lt_of_lt_mul (by rw [Nat.mul_comm]; omega))
  refine (wp_bmap s ip hpl).mono (fun b s' hb => ?_) (fun _ => And.left)
  rw [← Nat.add_assoc]
  exact ⟨hI.step (by omega) (by omega) hpl hplne hb _, hstep hi hm hpl hI hb hJ⟩

theorem wp_iupdate (s : Fs) (ip : Ip) {Q : PUnit → Fs → Prop} :
    wp (iupdate ip) Q R s ↔ Q ⟨⟩ (s.writeBlock (s.sb.iblock (s.icache ip).inum)
      (Block.setDinode ((s.icache ip).inum % IPB) (s.icache ip).toDinode)) := by
  unfold iupdate
  rw [wp_bind, wp_get]
  exact wp_modify

/-- `iupdate` brings the disk up to date. -/
theorem Working.consistent_iupdate (h : s.Working ip eff ∅)
    (hm : eff (s.icache ip).inum = (s.icache ip).toDinode) (htype : (s.icache ip).type ≠ 0) :
    (s.writeBlock (s.sb.iblock (s.icache ip).inum)
      (Block.setDinode ((s.icache ip).inum % IPB) (s.icache ip).toDinode)).Consistent := by
  have hfits : (s.icache ip).toDinode.Fits := by
    rw [← hm]
    exact h.sound.fits ⟨h.here.2, by rw [hm]; exact htype⟩
  exact (h.iupdate hfits).consistent ((Working.dinode_iupdate s ip hfits).trans hm.symm) hm htype

/-- What an operation on `ip` leaves alone in the inode cache. -/
def OnlyDinode (s : Fs) (ip : Ip) (s' : Fs) : Prop :=
  s'.sb = s.sb ∧ ∃ x, s'.icache = update s.icache ip { s.icache ip with toDinode := x }

/-- The size is set to the offset that `writei` has reached. -/
theorem Writing.setSize (h : Writing s₀ ip s eff off) :
    (s.setInode ip (fun i => { i with size := off })).Working ip (update eff
      (s.icache ip).inum { (s.icache ip).toDinode with size := off }) ∅ := by
  refine h.working.change_inode rfl rfl rfl ?_ (fun _ _ hne => update_of_ne hne _ _)
  refine h.working.sound.change_fields (by rw [h.mirror]) (by rw [h.mirror]) (fun _ bn hbn => ?_)
  exact (covers_iff h.allocated h.mirror).mp h.covers bn (hbn.trans_le (Nat.le_max_right _ _))

theorem wp_grow (h : Writing s₀ ip s eff off) (hn : n = 0 → off ≤ (s.icache ip).size) :
    wp (grow ip off n) (fun _ s' => s'.Consistent ∧ OnlyDinode s₀ ip s') R s := by
  obtain ⟨a, ha⟩ := h.icache
  unfold grow
  rw [wp_bind, wp_get]
  split
  · have hself : (s.setInode ip (fun i => { i with size := off })).icache ip
        = { s.icache ip with size := off } := update_self _ _ _
    rw [wp_bind, wp_modify, wp_iupdate]
    refine ⟨h.setSize.consistent_iupdate ?_ ?_, h.sb, ?_⟩
    · rw [hself, update_self]
    · rw [hself]
      exact h.type
    · refine ⟨{ (s₀.icache ip).toDinode with size := off, addrs := a }, ?_⟩
      rw [writeBlock_icache, setInode_icache, ha, update_self, update_idem]
  · next hsame =>
    refine ⟨h.working.consistent ?_ h.mirror h.type, h.sb, ⟨_, ha⟩⟩
    exact h.disk.resolve_right (by omega)

/-- **`writei` keeps the file system consistent.** -/
theorem wp_writei (h : s.Consistent) (href : 0 < (s.icache ip).ref)
    (hip : Agrees s.sb s.disk (s.icache ip)) {src : List UInt8} (hoff : off < 2 ^ 32)
    (hsrc : src.length < 2 ^ 32) :
    wp (writei ip src off) (fun _ s' => s'.Consistent ∧ OnlyDinode s ip s') (· = .outOfBlocks) s := by
  have hsame : s.Consistent ∧ OnlyDinode s ip s :=
    ⟨h, rfl, (s.icache ip).toDinode, (update_eq_self ip s.icache).symm⟩
  unfold writei
  rw [wp_bind, wp_get]
  dsimp only
  split
  · split
    · exact hsame
    · exact hsame
  · split
    · exact hsame
    · next hgood =>
      split
      · exact hsame
      · next hmax =>
        have hsum : off + src.length < 2 ^ 32 := by omega
        rw [Nat.mod_eq_of_lt hsum] at hmax hgood
        have hstart : Writing s ip s (s.sb.dinode s.disk) off := h.writing href hip (by omega)
        refine (wp_writeiLoop (J := fun _ _ => True) src hstart (by omega) trivial
          (fun _ _ _ _ _ _ => trivial)).bind (fun _ s' hloop => ?_)
        obtain ⟨⟨eff', hloop⟩, -⟩ := hloop
        have hsize := hloop.size_eq
        exact (wp_grow hloop (by omega)).bind (fun _ s'' hend => hend)

end Fs

end Xv6
