import Xv6.Sys.Grow

/-!
# `copyuvm` makes an image of its own

The child of a `fork` has the memory of its parent, in pages of its own. The copy has the same
bytes and the same flags on the same addresses, the guard page without `PTE_U` included, and the
kernel's part that `setupkvm` makes. No page, page table or directory is at two homes, so a write
through one directory is not seen through the other, now or after any other writes. If a page is
missing for it, all pages that were taken are free again.
-/

namespace Xv6

open Function

open Wp

namespace Ram

variable {H X : Type} {dirs : H → Option Frame} {other : X → Option Frame} {P held : Set Frame}
variable {m m' : Ram} {h : H} {d : Frame}

/-! ## Writes of users -/

/-- A byte is written through a directory, if its page is there for users. -/
def write (d : Frame) (a : ℕ) (b : UInt8) (m : Ram) : Ram :=
  match m.upage d (a / PGSIZE) with
  | none => m
  | some f => m.setPage f (Bytes.setBytes (a % PGSIZE) [b])

/-- Bytes are written through directories, one after the other. -/
def writes (ws : List (Frame × ℕ × UInt8)) (m : Ram) : Ram :=
  ws.foldl (fun m w => m.write w.1 w.2.1 w.2.2) m

/-- A write through a directory is to its own pages. -/
theorem Pages.write (hp : m.Pages P dirs other held) (hd : dirs h = some d) (a : ℕ) (b : UInt8) :
    (m.write d a b).Pages P dirs other held ∧
      Leaves dirs other held h (fun _ => False) m (m.write d a b) := by
  unfold Ram.write
  split
  · exact ⟨hp, .refl m⟩
  · next f hf =>
    have hmapped := (hp.mapped_of_upage hd hf).2
    have hplain := hp.plain_of_user ((mapped_eq m dirs other h _).symm.trans hmapped)
    exact ⟨hp.setPage hplain _,
      (hp.leaves_setPage_user hmapped _).mono (Set.Subset.refl _) (fun _ hk => hk.elim)⟩

theorem Pages.writes {ws : List (Frame × ℕ × UInt8)} (hws : ∀ w ∈ ws, ∃ h, dirs h = some w.1)
    (hp : m.Pages P dirs other held) : (m.writes ws).Pages P dirs other held := by
  induction ws generalizing m with
  | nil => exact hp
  | cons w ws ih =>
    obtain ⟨h, hd⟩ := hws w List.mem_cons_self
    exact ih (fun w hw => hws w (List.mem_cons_of_mem _ hw)) (hp.write hd _ _).1

/-! ## The copy -/

/-- Nobody else has taken or freed a page. -/
theorem Pages.mem_freelist_of_leaves {K : ℕ → Prop} (hp : m.Pages P dirs other held)
    (hp' : m'.Pages P dirs other held) (hh : dirs h = none)
    (hleaves : Leaves dirs other held h K m m') (f : Frame) :
    f ∈ m'.freelist ↔ f ∈ m.freelist := by
  have howner : m'.owner dirs other = m.owner dirs other := by
    funext place
    by_cases hplace : place.holder = some h
    · rw [owner_of_no_dir hplace hh, owner_of_no_dir hplace hh]
    · exact hleaves.owner place hplace
  rw [hp.mem_freelist_iff, hp'.mem_freelist_iff, howner]

/-- **`copyuvm` makes an identical and independent image**, or nothing. -/
theorem copyuvm_independent [DecidableEq H] (L : MemLayout) (m : Ram) (P held : Set Frame)
    (dirs : H → Option Frame) (other : X → Option Frame) (src new : H) (pgdir : Frame) (sz : ℕ)
    (hp : m.Pages P dirs other held) (hfree : ∀ f ∈ P, L.Frees f)
    (hstop : KERNBASE + L.PHYSTOP ≤ L.DEVSPACE) (hsrc : dirs src = some pgdir)
    (hnew : dirs new = none) (hcovers : m.Covers dirs src sz) (hsz : sz < KERNBASE) :
    wp (copyuvm L pgdir sz) (fun r m' =>
      Leaves dirs other held new (fun _ => False) m m' ∧
      (r = none → ∀ f, f ∈ m'.freelist ↔ f ∈ m.freelist) ∧
      ∀ d, r = some d →
        m'.Spans (update dirs new (some d)) new sz ∧
        (∀ q, q * PGSIZE < sz → CopyOf m pgdir m' d q) ∧
        (∀ place place' f, place.holder = some src → place'.holder = some new →
          m'.owner (update dirs new (some d)) other place = some f →
          m'.owner (update dirs new (some d)) other place' ≠ some f) ∧
        (∃ m₁, setupkvm L m = .ok (some d, m₁) ∧
          ∀ q, 2 ^ 19 ≤ q → m'.pteWord d q = m₁.pteWord d q) ∧
        ∀ ws, (∀ w ∈ ws, w.1 = pgdir ∨ w.1 = d) → ∀ a b c,
          ((m'.writes ws).write d a b).byteAt pgdir c = (m'.writes ws).byteAt pgdir c ∧
          ((m'.writes ws).write pgdir a b).byteAt d c = (m'.writes ws).byteAt d c)
      (fun _ => False) m := by
  have hne : src ≠ new := by
    rintro rfl
    rw [hnew] at hsrc
    cases hsrc
  refine (hp.wp_copyuvm L (fun f hf hnot => hnot (hfree f hf)) (fun hlt => by omega) hnew hsrc hsz.le
    (fun q hq hnone => absurd hnone (hcovers q hq))).imp (fun r m' hcopy => ?_)
  obtain ⟨hleaves, ⟨rfl, hp'⟩ | ⟨d, m₁, rfl, hrun, hp', hspans, hcopied, hkernel⟩⟩ := hcopy
  · exact ⟨hleaves, fun _ => hp.mem_freelist_of_leaves hp' hnew hleaves, nofun⟩
  · refine ⟨hleaves, nofun, fun d' hd' => ?_⟩
    cases hd'
    have hd : update dirs new (some d) new = some d := update_self new _ dirs
    have hsrc' : update dirs new (some d) src = some pgdir := (update_of_ne hne _ _).trans hsrc
    refine ⟨hspans, hcopied, fun place place' f hplace hplace' hf hf' => ?_, ⟨m₁, hrun, hkernel⟩,
      fun ws hws a b c => ?_⟩
    · have hplaces := hp'.ledger.unique hf hf'
      rw [hplaces, hplace'] at hplace
      exact hne (Option.some.inj hplace).symm
    · have hpw : (m'.writes ws).Pages P (update dirs new (some d)) other held := by
        refine hp'.writes (fun w hw => ?_)
        rcases hws w hw with heq | heq
        · exact ⟨src, hsrc'.trans (congrArg some heq.symm)⟩
        · exact ⟨new, hd.trans (congrArg some heq.symm)⟩
      exact ⟨((hpw.write hd a b).2.byteAt hpw hsrc' hne).2 c,
        ((hpw.write hsrc' a b).2.byteAt hpw hd hne.symm).2 c⟩

end Ram

/-- A process with one page is copied: the copy has the same bytes, and neither process sees what
the other one writes. -/
theorem Ram.copyuvm_independent_page :
    ∃ m', Ram.copyuvm Sys.smallLayout 3 4096 Sys.onePageSys.ram = .ok (some 6, m') ∧
      Ram.CopyOf Sys.onePageSys.ram 3 m' 6 0 ∧
      ∀ a b c, (m'.write 6 a b).byteAt 3 c = m'.byteAt 3 c ∧
        (m'.write 3 a b).byteAt 6 c = m'.byteAt 6 c := by
  have hproc : (Sys.onePageSys.proc Sys.firstSlot).state = .RUNNABLE ∧
      (Sys.onePageSys.proc Sys.firstSlot).pgdir = some 3 ∧
      (Sys.onePageSys.proc Sys.firstSlot).sz = 4096 := by decide +kernel
  obtain ⟨m', hrun, -⟩ : ∃ m', Ram.copyuvm Sys.smallLayout 3 4096 Sys.onePageSys.ram
      = .ok (some 6, m') ∧ m'.freelist.length = 5 := by decide +kernel
  obtain ⟨hrest, himage⟩ := Sys.atRest_onePageSys
  have hspans := (Sys.image_iff_spans (by rw [hproc.2.2]; decide)).mp himage
  rw [hproc.2.2] at hspans
  obtain ⟨-, -, hcopy⟩ := (Ram.copyuvm_independent Sys.smallLayout
    Sys.onePageSys.ram _ _ (Sys.onePageSys.dirs none) _ (some Sys.firstSlot) none 3 4096
    hrest.kept.pages Sys.frees_smallPages (by decide)
    (Sys.AtRest.dir_of_runnable hproc.1 hproc.2.1 none) rfl hspans.covers (by decide)).ok hrun
  obtain ⟨-, hbytes, -, -, hwrites⟩ := hcopy 6 rfl
  exact ⟨m', hrun, hbytes 0 (by decide), hwrites [] nofun⟩

end Xv6
