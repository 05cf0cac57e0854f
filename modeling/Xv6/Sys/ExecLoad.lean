import Xv6.Fs.RefCount
import Xv6.Sys.Memory

/-!
# `exec` loads a file

`exec` builds a new address space next to the one it runs in. While it builds, the
new directory is held by nobody but the call, and its user pages are those below
the size so far. So `allocuvm` never finds a page mapped where it maps one, and
`loaduvm` finds every page that it reads into: neither can panic, whatever the
headers of the file say. What is loaded goes to user pages of the new directory
only.
-/

namespace Xv6

open Wp

theorem shortAt_lt (b : List UInt8) (off : ℕ) : shortAt b off < 2 ^ 16 := by
  have h₀ := (b.getD off 0).toNat_lt
  have h₁ := (b.getD (off + 1) 0).toNat_lt
  unfold shortAt
  omega

theorem wordAt_lt (b : List UInt8) (off : ℕ) : wordAt b off < 2 ^ 32 := by
  have h₀ := shortAt_lt b off
  have h₁ := shortAt_lt b (off + 2)
  unfold wordAt
  omega

namespace Sys

variable {s s' s'' : Sys} {P held : Set Frame} {R : SysHalt → Prop}

/-- Nothing has changed but memory and the file system. -/
def OnlyMem (s s' : Sys) : Prop := ∃ m fs, s' = { s with ram := m, fs := fs }

theorem OnlyMem.ram (m : Ram) : OnlyMem s { s with ram := m } := ⟨m, s.fs, rfl⟩

theorem OnlyMem.fs (fs : Fs) : OnlyMem s { s with fs := fs } := ⟨s.ram, fs, rfl⟩

theorem OnlyMem.refl : OnlyMem s s := ⟨s.ram, s.fs, rfl⟩

theorem OnlyMem.trans (h : OnlyMem s s') (h' : OnlyMem s' s'') : OnlyMem s s'' := by
  obtain ⟨m, fs, rfl⟩ := h
  obtain ⟨m', fs', rfl⟩ := h'
  exact ⟨m', fs', rfl⟩

/-- A function of `fs.c` that takes and gives back no reference. -/
theorem wp_fsys_keeps {A : Type} {x : FsM A} {Q : A → Sys → Prop} (hx : Keeps Fs.refs x)
    (hR : ∀ e, R (.fs e)) (hQ : ∀ a fs, fs.refs = s.fs.refs → Q a { s with fs := fs }) :
    wp (fsys x) Q R s :=
  wp_fsys.mpr ((hx s.fs).mono (fun a fs hrefs => hQ a fs hrefs) (fun e _ => hR e))

section Load

variable {H X : Type} {D : H → Option Frame} {O : X → Option Frame} {h : H} {d : Frame}

/-- **While `exec` builds** a directory for `h`: nothing has changed but memory and the
file system, every page has its home, the homes of the others are left alone, and no
reference to an inode has been taken or given back. -/
structure Building (P : Set Frame) (D : H → Option Frame) (O : X → Option Frame)
    (held : Set Frame) (h : H) (s s' : Sys) : Prop where
  only : OnlyMem s s'
  pages : s'.ram.Pages P D O held
  leaves : Ram.Leaves D O held h (fun _ => False) s.ram s'.ram
  refs : s'.fs.refs = s.fs.refs

namespace Building

theorem refl (hp : s.ram.Pages P D O held) : Building P D O held h s s :=
  ⟨.refl, hp, .refl _, rfl⟩

theorem trans (h₁ : Building P D O held h s s') (h₂ : Building P D O held h s' s'') :
    Building P D O held h s s'' :=
  ⟨h₁.only.trans h₂.only, h₂.pages, h₁.leaves.trans h₂.leaves, h₂.refs.trans h₁.refs⟩

theorem of_ram {m : Ram} {K : ℕ → Prop} (hp : m.Pages P D O held)
    (hleaves : Ram.Leaves D O held h K s.ram m) : Building P D O held h s { s with ram := m } :=
  ⟨.ram m, hp, hleaves.mono (Set.Subset.refl _) (fun _ hk => hk.elim), rfl⟩

theorem of_fs {fs : Fs} (hp : s.ram.Pages P D O held) (hrefs : fs.refs = s.fs.refs) :
    Building P D O held h s { s with fs := fs } :=
  ⟨.fs fs, hp, .refl _, hrefs⟩

end Building

/-- **The loop of `loaduvm`** finds the pages it reads into. -/
theorem wp_loaduvmLoop (hfs : ∀ e, R (.fs e)) (hd : D h = some d) {top : ℕ} (htop : top ≤ KERNBASE)
    (ip : Ip) {a sz : ℕ} (offset : ℕ) (hsz : a * PGSIZE + sz ≤ top) (turns j : ℕ)
    (hp : s.ram.Pages P D O held) (hspans : s.ram.Spans D h top) :
    wp (loaduvmLoop d (a * PGSIZE) ip offset sz turns (j * PGSIZE)) (fun _ s' =>
      Building P D O held h s s' ∧ s'.ram.Spans D h top) R s := by
  induction turns generalizing s j with
  | zero => exact ⟨.refl hp, hspans⟩
  | succ turns ih =>
    unfold loaduvmLoop
    split
    swap
    · exact ⟨.refl hp, hspans⟩
    next hlt =>
    have hva : (a * PGSIZE + j * PGSIZE) % 2 ^ 32 = (a + j) * PGSIZE := by
      simp only [KERNBASE] at htop
      rw [Nat.mod_eq_of_lt (by omega), Nat.add_mul]
    have hin : (a + j) * PGSIZE < top := by
      rw [Nat.add_mul]
      omega
    have hk : a + j < 2 ^ 19 := by
      simp only [KERNBASE, PGSIZE] at htop hin
      omega
    have hmapped := hspans.covers _ hin
    rw [hva, wp_bind, wp_vm, Ram.wp_walkpgdir_find, PDX_page (by omega), PTX_page]
    cases ht : s.ram.entry d ((a + j) / 1024) with
    | none => exact absurd (Ram.mapped_of_no_table hd ht) hmapped
    | some t =>
      obtain ⟨f, hf⟩ := Option.ne_none_iff_exists'.mp hmapped
      have hframe : pteFrame ((s.ram.page t).word ((a + j) % 1024)) = f :=
        (pageEntry_eq_some.mp ((Ram.mapped_of_table hd hk ht).symm.trans hf)).2.2
      have hplain := hp.plain_of_user ((Ram.mapped_eq s.ram D O h (a + j)).symm.trans hf)
      simp only [Option.map_some, wp_bind, wp_vm, Ram.wp_load, hframe]
      refine wp_fsys_keeps (Fs.keeps_readi ip _ _) hfs (fun r fs hrefs => ?_)
      have hp' := hp.setPage hplain (Bytes.setBytes 0 r.2)
      have hspans' := hspans.congr
        (fun q => (Ram.Pages.sameTables_setPage hplain (Bytes.setBytes 0 r.2)).mapped_eq q)
      have hread : Building P D O held h s
          { s with ram := s.ram.setPage f (Bytes.setBytes 0 r.2), fs := fs } :=
        (Building.of_ram hp' (hp.leaves_setPage_user hf _)).trans (.of_fs hp' hrefs)
      rw [wp_modify]
      dsimp only
      generalize (if sz - j * PGSIZE < PGSIZE then sz - j * PGSIZE else PGSIZE) = n
      split
      · exact ⟨hread, hspans'⟩
      · rw [← Nat.succ_mul]
        refine (ih (s := { s with ram := s.ram.setPage f (Bytes.setBytes 0 r.2), fs := fs }) (j + 1)
          hp' hspans').imp (fun _ s₂ hpost => ?_)
        exact ⟨hread.trans hpost.1, hpost.2⟩

/-- `loaduvm` of an aligned segment. -/
theorem wp_loaduvm (hfs : ∀ e, R (.fs e)) (hd : D h = some d) {top : ℕ} (htop : top ≤ KERNBASE)
    (ip : Ip) {addr offset sz : ℕ} (haligned : addr % PGSIZE = 0) (hsz : addr + sz ≤ top)
    (hp : s.ram.Pages P D O held) (hspans : s.ram.Spans D h top) :
    wp (loaduvm d addr ip offset sz) (fun _ s' =>
      Building P D O held h s s' ∧ s'.ram.Spans D h top) R s := by
  unfold loaduvm
  rw [if_neg (by rw [haligned]; exact fun hne => hne rfl)]
  obtain ⟨a, rfl⟩ : ∃ a, addr = a * PGSIZE :=
    ⟨addr / PGSIZE, (Nat.div_mul_cancel (Nat.dvd_of_mod_eq_zero haligned)).symm⟩
  have hloop := wp_loaduvmLoop hfs hd htop ip offset hsz ((sz + (PGSIZE - 1)) / PGSIZE) 0 hp hspans
  rw [Nat.zero_mul] at hloop
  exact hloop

/-- **The loop of `exec` over the program headers**: whatever they say, the user pages
are those below the size. -/
theorem wp_execSegments (L : MemLayout) (hfs : ∀ e, R (.fs e))
    (hkfree : ∀ f ∈ P, ¬ L.Frees f → R (.vm .kfree)) (hd : D h = some d) (ip : Ip)
    (turns off sz : ℕ) (hsz : sz < KERNBASE) (hp : s.ram.Pages P D O held)
    (hspans : s.ram.Spans D h sz) :
    wp (execSegments L d ip turns off sz) (fun r s' => Building P D O held h s s' ∧
      ∀ sz', r = some sz' → sz' < KERNBASE ∧ s'.ram.Spans D h sz') R s := by
  induction turns generalizing s off sz with
  | zero => exact ⟨.refl hp, fun sz' heq => Option.some.inj heq ▸ ⟨hsz, hspans⟩⟩
  | succ turns ih =>
    unfold execSegments
    rw [wp_bind]
    refine wp_fsys_keeps (Fs.keeps_readi ip _ _) hfs (fun r fs hrefs => ?_)
    have hread : Building P D O held h s { s with fs := fs } := .of_fs hp hrefs
    dsimp only
    split
    · exact ⟨hread, nofun⟩
    split
    · refine (ih (s := { s with fs := fs }) _ sz hsz hp hspans).imp (fun r s₂ hpost => ?_)
      exact ⟨hread.trans hpost.1, hpost.2⟩
    split
    · exact ⟨hread, nofun⟩
    next hfilesz =>
    split
    · exact ⟨hread, nofun⟩
    next hwrap =>
    -- the segment does not wrap around
    have hend : (wordAt r.2 8 + wordAt r.2 20) % 2 ^ 32 = wordAt r.2 8 + wordAt r.2 20 := by
      have h₈ := wordAt_lt r.2 8
      have h₂₀ := wordAt_lt r.2 20
      omega
    rw [hend, wp_bind, wp_vm]
    refine (hp.wp_allocuvm L hd hkfree sz _
      (fun q hq _ hne => absurd (hspans.eq_none hq) hne)).imp (fun sz' m hpost => ?_)
    obtain ⟨hp₁, hr⟩ := hpost
    have halloc : Building P D O held h s { s with fs := fs, ram := m } := by
      refine hread.trans ?_
      rcases hr with ⟨-, -, hgrown⟩ | ⟨-, rfl | hun⟩
      · exact .of_ram hp₁ hgrown.leaves
      · exact .refl hp₁
      · exact .of_ram hp₁ hun.leaves
    split
    · exact ⟨halloc, nofun⟩
    next hne =>
    obtain ⟨hnew, hmax, hgrown⟩ := hr.resolve_right (fun hzero => hne hzero.1)
    have hspans₁ := hgrown.spans hspans
    rw [← hmax] at hspans₁
    have hsz' : sz' < KERNBASE := by
      rw [hmax]
      exact max_lt hsz hnew
    split
    · exact ⟨halloc, nofun⟩
    next haligned =>
    rw [wp_bind]
    have hin : wordAt r.2 8 + wordAt r.2 16 ≤ sz' := by
      rw [hmax]
      omega
    refine (wp_loaduvm (s := { s with fs := fs, ram := m }) hfs hd hsz'.le ip
      (of_not_not haligned) hin hp₁ hspans₁).imp (fun r' s₂ hload => ?_)
    obtain ⟨hload, hspans₂⟩ := hload
    split
    · exact ⟨halloc.trans hload, nofun⟩
    · refine (ih _ sz' hsz' hload.pages hspans₂).imp (fun r s₃ hpost => ?_)
      exact ⟨(halloc.trans hload).trans hpost.1, hpost.2⟩

end Load

end Sys

end Xv6
