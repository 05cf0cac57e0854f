import Xv6.Vm.Space

/-!
# The user pages of a directory

The functions of `vm.c` that make, copy and write user memory. They keep
`Ram.Pages`; `Ram.Spans` says which pages a size stands for, and `allocuvm` either
maps the pages of the new size, zeroed, or takes back what it mapped.
-/

namespace Xv6

open Function

open Wp

namespace Ram

variable {H X : Type} {dirs : H → Option Frame} {other : X → Option Frame} {P held : Set Frame}
variable {m m' : Ram} {h : H} {d : Frame} {R : VmHalt → Prop}

/-! ## Sizes -/

/-- The user pages below a size are mapped. -/
def Covers (m : Ram) (dirs : H → Option Frame) (h : H) (sz : ℕ) : Prop :=
  ∀ q, q * PGSIZE < sz → m.mapped dirs h q ≠ none

/-- The user pages below a size are mapped, and no other ones. -/
def Spans (m : Ram) (dirs : H → Option Frame) (h : H) (sz : ℕ) : Prop :=
  ∀ q, m.mapped dirs h q ≠ none ↔ q < npages sz

theorem Spans.covers {sz : ℕ} (hspans : m.Spans dirs h sz) : m.Covers dirs h sz :=
  fun q hq => (hspans q).mpr ((lt_npages_iff q sz).mpr hq)

theorem Spans.eq_none {sz q : ℕ} (hspans : m.Spans dirs h sz) (hq : npages sz ≤ q) :
    m.mapped dirs h q = none := by
  by_contra hne
  exact absurd ((hspans q).mp hne) (Nat.not_lt.mpr hq)

/-- The pages of a directory without user pages. -/
theorem Spans.zero (hnone : ∀ q, m.mapped dirs h q = none) : m.Spans dirs h 0 :=
  fun q => ⟨fun hne => absurd (hnone q) hne, fun hq => absurd hq (Nat.not_lt_zero q)⟩

/-- Nothing is mapped or unmapped. -/
theorem Spans.congr {sz : ℕ} (hspans : m.Spans dirs h sz)
    (heq : ∀ q, m'.mapped dirs h q = m.mapped dirs h q) : m'.Spans dirs h sz := by
  intro q
  rw [heq]
  exact hspans q

theorem npages_le_iff (q sz : ℕ) : npages sz ≤ q ↔ sz ≤ q * PGSIZE := by
  rw [← Nat.not_lt, lt_npages_iff, Nat.not_lt]

theorem npages_mul (k : ℕ) : npages (k * PGSIZE) = k := by
  unfold npages PGSIZE
  omega

/-- What is mapped depends on the directory, not on who holds it. -/
theorem mapped_of_dir {H' : Type} {dirs' : H' → Option Frame} {h' : H'} (hd : dirs h = some d)
    (hd' : dirs' h' = some d) (q : ℕ) : m.mapped dirs' h' q = m.mapped dirs h q := by
  unfold mapped owner
  simp only [hd, hd']

/-- A size shrinks by the pages that are unmapped. -/
theorem Unmapped.spans {sz newsz : ℕ} (hun : Unmapped dirs other held h (npages newsz) sz m m')
    (hspans : m.Spans dirs h sz) : m'.Spans dirs h (min sz newsz) := by
  intro q
  by_cases hq : q < npages newsz ∨ sz ≤ q * PGSIZE
  · rw [hun.leaves.user q hq, hspans q, lt_npages_iff, lt_npages_iff]
    rw [lt_npages_iff] at hq
    omega
  · rw [not_or, Nat.not_lt, Nat.not_le] at hq
    rw [hun.gone q hq.1 hq.2, lt_npages_iff]
    rw [npages_le_iff] at hq
    exact ⟨fun hne => absurd rfl hne, fun hlt => by omega⟩

/-! ## `allocuvm` -/

/-- **What `allocuvm` adds**: zeroed pages from `k` on and below `newsz`, and
nothing else. -/
structure Grown (dirs : H → Option Frame) (other : X → Option Frame) (held : Set Frame) (h : H)
    (k newsz : ℕ) (m m' : Ram) : Prop where
  new : ∀ q, k ≤ q → q * PGSIZE < newsz →
    ∃ f, m'.mapped dirs h q = some f ∧ m'.page f = fun _ => 0
  leaves : Leaves dirs other held h (fun q => q < k ∨ newsz ≤ q * PGSIZE) m m'

theorem Grown.refl {k newsz : ℕ} (h' : newsz ≤ k * PGSIZE) :
    Grown dirs other held h k newsz m m where
  new := fun q hq hlt => by
    have := Nat.mul_le_mul_right PGSIZE hq
    omega
  leaves := .refl m

/-- A size grows by the pages that are added. -/
theorem Grown.spans {sz newsz : ℕ} (hgrown : Grown dirs other held h (npages sz) newsz m m')
    (hspans : m.Spans dirs h sz) : m'.Spans dirs h (max sz newsz) := by
  intro q
  by_cases hq : q < npages sz ∨ newsz ≤ q * PGSIZE
  · rw [hgrown.leaves.user q hq, hspans q, lt_npages_iff, lt_npages_iff]
    rw [lt_npages_iff] at hq
    omega
  · rw [not_or, Nat.not_lt, Nat.not_le] at hq
    obtain ⟨f, hf, -⟩ := hgrown.new q hq.1 hq.2
    rw [hf, lt_npages_iff]
    exact ⟨fun _ => by omega, fun _ => Option.some_ne_none f⟩

/-- **The loop of `allocuvm`** maps the pages from `k` on, or unmaps those from
`oldsz` on. It panics only if one of them was mapped. -/
theorem Pages.wp_allocuvmLoop (L : MemLayout) (hp : m.Pages P dirs other held)
    (hd : dirs h = some d) (hkfree : ∀ f ∈ P, ¬ L.Frees f → R .kfree) {oldsz newsz : ℕ}
    (hnew : newsz < KERNBASE) {turns k : ℕ} (hold : npages oldsz ≤ k)
    (hremap : ∀ q, k ≤ q → q * PGSIZE < newsz → m.mapped dirs h q ≠ none → R .remap)
    (hturns : newsz ≤ (k + turns) * PGSIZE) :
    wp (allocuvmLoop L d oldsz newsz turns (k * PGSIZE)) (fun r m' =>
      m'.Pages P dirs other held ∧ ((r = newsz ∧ Grown dirs other held h k newsz m m') ∨
        (r = 0 ∧ Unmapped dirs other held h (npages oldsz) newsz m m'))) R m := by
  induction turns generalizing m k with
  | zero => exact ⟨hp, .inl ⟨rfl, .refl hturns⟩⟩
  | succ turns ih =>
    unfold allocuvmLoop
    split
    swap
    · next hlt => exact ⟨hp, .inl ⟨rfl, .refl (Nat.not_lt.mp hlt)⟩⟩
    next hlt =>
    have hk : k < 2 ^ 19 := by
      simp only [KERNBASE, PGSIZE] at hnew hlt
      omega
    -- the page being mapped is not one of those that stay
    have hstay : ∀ q, q < npages oldsz ∨ newsz ≤ q * PGSIZE → q ≠ k := by
      rintro q hq rfl
      omega
    rw [wp_bind]
    refine hp.wp_kalloc (fun m₁ hpage hp₁ => ?_) (fun f m₁ hpage hp₁ hf => ?_)
    · refine (hp₁.wp_deallocuvm L hd hkfree hnew.le oldsz).bind (fun _ m₂ h₂ => ?_)
      obtain ⟨-, hp₂, hun⟩ := h₂
      exact ⟨hp₂, .inr ⟨rfl, hun.gone, (Leaves.of_page_eq hpage).trans hun.leaves⟩⟩
    · have hmem := Set.mem_insert f held
      have hp₂ := hp₁.setPage (hp₁.plain_of_held hmem) (fun _ _ => 0)
      have hzero : Leaves dirs other held h (fun _ => True) m (m₁.setPage f (fun _ _ => 0)) := by
        have hset := hp₁.leaves_setPage_held (h := h) (K := fun _ => True) hmem (fun _ _ => 0)
        rw [Set.insert_sdiff_self_of_notMem hf] at hset
        exact (Leaves.of_page_eq hpage).trans hset
      have hperm : PTE_W ||| PTE_U < PGSIZE := by decide
      rw [wp_bind, wp_memset]
      refine (hp₂.wp_mappages hd hk hmem hperm (fun hne => ?_)).bind (fun r m₃ hmap => ?_)
      · rw [hzero.user k trivial] at hne
        exact hremap k (le_refl k) hlt hne
      rcases hmap with ⟨rfl, hp₃, hself, hleaves, -⟩ | ⟨rfl, hp₃, hleaves⟩
      · rw [if_neg (by decide), show k * PGSIZE + PGSIZE = (k + 1) * PGSIZE from
          (Nat.succ_mul k PGSIZE).symm]
        rw [Set.insert_sdiff_self_of_notMem hf] at hp₃
        have hfzero : m₃.page f = fun _ => 0 :=
          (hleaves.held f hmem).trans (if_pos rfl)
        have hleaves := (hzero.mono (Set.Subset.refl _) (fun _ _ => trivial)).trans
          (hleaves.mono (Set.subset_insert f held) (fun _ hq => hq))
        have hturns' : newsz ≤ (k + 1 + turns) * PGSIZE := by
          rw [Nat.add_right_comm, Nat.add_assoc]
          exact hturns
        refine (ih hp₃ (by omega) (fun q hq hq' hne => ?_) hturns').imp
          (fun r m₄ h₄ => ⟨h₄.1, ?_⟩)
        · rw [hleaves.user q (by omega)] at hne
          exact hremap q (by omega) hq' hne
        · rcases h₄.2 with ⟨hr, hgrown⟩ | ⟨hr, hun⟩
          · refine .inl ⟨hr, fun q hq hq' => ?_, ?_⟩
            · by_cases hqk : q = k
              · rw [hqk]
                refine ⟨f, (hgrown.leaves.user k (.inl k.lt_succ_self)).trans hself, ?_⟩
                exact (hgrown.leaves.userPage k f (.inl k.lt_succ_self) hself).trans hfzero
              · exact hgrown.new q (by omega) hq'
            · refine (hleaves.mono (Set.Subset.refl _) (fun q hq => ?_)).trans
                (hgrown.leaves.mono (Set.Subset.refl _) (fun q hq => hq.imp_left (by omega)))
              rintro rfl
              omega
          · exact .inr ⟨hr, hun.gone, (hleaves.mono (Set.Subset.refl _) hstay).trans hun.leaves⟩
      · rw [if_pos (by decide)]
        simp only [wp_bind]
        refine (hp₃.wp_deallocuvm L hd hkfree hnew.le oldsz).imp (fun _ m₄ h₄ => ?_)
        obtain ⟨-, hp₄, hun⟩ := h₄
        refine wp_kfree L (hkfree f (hp₄.mem_of_held hmem).1) ?_
        have hp₅ := hp₄.release hmem (fun _ _ => 1)
        have hrel := hp₄.leaves_release (h := h) (K := fun _ => True) hmem (fun _ _ => 1)
        rw [Set.insert_sdiff_self_of_notMem hf] at hp₅ hrel
        refine ⟨hp₅, .inr ⟨rfl, fun q hq hq' => ?_, ?_⟩⟩
        · exact (hrel.user q trivial).trans (hun.gone q hq hq')
        · have hfirst := hzero.trans (hleaves.mono (Set.subset_insert f held) (fun _ hq => hq))
          exact ((hfirst.mono (Set.Subset.refl _) (fun _ _ => trivial)).trans
            (hun.leaves.mono (Set.subset_insert f held) (fun _ hq => hq))).trans
            (hrel.mono (Set.Subset.refl _) (fun _ _ => trivial))

/-- **`allocuvm`** maps the pages of the new size, zeroed, or takes back what it
mapped. -/
theorem Pages.wp_allocuvm (L : MemLayout) (hp : m.Pages P dirs other held) (hd : dirs h = some d)
    (hkfree : ∀ f ∈ P, ¬ L.Frees f → R .kfree) (oldsz newsz : ℕ)
    (hremap : ∀ q, npages oldsz ≤ q → q * PGSIZE < newsz → m.mapped dirs h q ≠ none → R .remap) :
    wp (allocuvm L d oldsz newsz) (fun r m' => m'.Pages P dirs other held ∧
      ((newsz < KERNBASE ∧ r = max oldsz newsz ∧
        Grown dirs other held h (npages oldsz) newsz m m') ∨
      (r = 0 ∧ (m' = m ∨ Unmapped dirs other held h (npages oldsz) newsz m m')))) R m := by
  unfold allocuvm
  split
  · exact ⟨hp, .inr ⟨rfl, .inl rfl⟩⟩
  · next hnew =>
    have hnew := Nat.not_le.mp hnew
    split
    · next hlt =>
      exact ⟨hp, .inl ⟨hnew, (Nat.max_eq_left hlt.le).symm, .refl (hlt.le.trans (le_npages_mul _))⟩⟩
    · next hle =>
      have hle := Nat.not_lt.mp hle
      dsimp only
      rw [PGROUNDUP_eq (hle.trans hnew.le)]
      have hturns : newsz ≤ (npages oldsz + (newsz - npages oldsz * PGSIZE + (PGSIZE - 1)) / PGSIZE)
          * PGSIZE := by
        unfold PGSIZE
        omega
      refine (hp.wp_allocuvmLoop L hd hkfree hnew (le_refl _) hremap hturns).imp
        (fun r m₁ ⟨hp₁, hr⟩ => ⟨hp₁, hr.imp (fun ⟨hr, hgrown⟩ => ?_) (fun ⟨hr, hun⟩ => ?_)⟩)
      · exact ⟨hnew, hr.trans (Nat.max_eq_right hle).symm, hgrown⟩
      · exact ⟨hr, .inr hun⟩

/-! ## `copyuvm` and `inituvm` -/

/-- **A copy of a page**: both are there, with the same flags and the same bytes. -/
structure CopyOf (m : Ram) (pgdir : Frame) (m' : Ram) (d : Frame) (q : ℕ) : Prop where
  source : pteP (m.pteWord pgdir q) = true
  present : pteP (m'.pteWord d q) = true
  flags : pteFlags (m'.pteWord d q) = pteFlags (m.pteWord pgdir q)
  bytes : m'.page (pteFrame (m'.pteWord d q)) = m.page (pteFrame (m.pteWord pgdir q))

section copy

variable {src : H} {pgdir : Frame} {sz : ℕ}

/-- What a function that works on another directory leaves of the words and pages of one. -/
theorem Leaves.words {K : ℕ → Prop} (hleaves : Leaves dirs other held h K m m')
    (hsrc : dirs src = some pgdir) (hne : src ≠ h) :
    (∀ q, m'.pteWord pgdir q = m.pteWord pgdir q) ∧
      ∀ {q f}, m.mapped dirs src q = some f → m'.page f = m.page f := by
  have hholder : some src ≠ some h := fun heq => hne (Option.some.inj heq)
  refine ⟨fun q => pteWord_congr ?_ (fun {t} ht => ?_), fun {q f} hf => ?_⟩
  · unfold entry
    rw [hleaves.page (.dir src) pgdir hholder hsrc]
  · rw [hleaves.page (.table src _) t hholder ((owner_table hsrc _).trans ht)]
  · exact hleaves.page (.user src _ _) f hholder ((mapped_eq m dirs other src q).symm.trans hf)

/-- The copies of pages that nothing has happened to. -/
theorem CopyOf.of_leaves {m₀ : Ram} {K : ℕ → Prop} {q : ℕ} (hcopy : CopyOf m pgdir m' d q)
    (hleaves : Leaves dirs other held h K m₀ m) (hsrc : dirs src = some pgdir) (hne : src ≠ h)
    (hq : q < 2 ^ 19) : CopyOf m₀ pgdir m' d q := by
  obtain ⟨hwords, hpages⟩ := hleaves.words hsrc hne
  obtain ⟨hsource, hpresent, hflags, hbytes⟩ := hcopy
  rw [hwords q] at hsource hflags hbytes
  refine ⟨hsource, hpresent, hflags, hbytes.trans ?_⟩
  exact hpages ((mapped_eq_some_iff hsrc).mpr ⟨hq, hsource, rfl⟩)

/-- **The loop of `copyuvm`** copies the pages from `k` on. -/
theorem Pages.wp_copyuvmLoop (L : MemLayout) (hp : m.Pages P dirs other held) (hd : dirs h = some d)
    (hsrc : dirs src = some pgdir) (hne : src ≠ h) (hkfree : ∀ f ∈ P, ¬ L.Frees f → R .kfree)
    (hsz : sz ≤ KERNBASE) {turns k : ℕ} (hturns : sz ≤ (k + turns) * PGSIZE)
    (hempty : ∀ q, k ≤ q → q * PGSIZE < sz → m.mapped dirs h q = none)
    (hpanic : ∀ q, k ≤ q → q * PGSIZE < sz → m.mapped dirs src q = none →
      R .copyuvmPte ∧ R .copyuvmPage) :
    wp (copyuvmLoop L pgdir d sz turns (k * PGSIZE)) (fun r m' => m'.Pages P dirs other held ∧
      Leaves dirs other held h (fun q => q < k) m m' ∧
      (r = true → (∀ q, k ≤ q → q * PGSIZE < sz → CopyOf m pgdir m' d q) ∧
        ∀ q, q < k ∨ sz ≤ q * PGSIZE → m'.pteWord d q = m.pteWord d q)) R m := by
  induction turns generalizing m k with
  | zero =>
    refine ⟨hp, .refl m, fun _ => ⟨fun q hq hlt => ?_, fun _ _ => rfl⟩⟩
    exact absurd (hturns.trans (Nat.mul_le_mul_right PGSIZE hq)) (Nat.not_le.mpr hlt)
  | succ turns ih =>
    unfold copyuvmLoop
    split
    swap
    · next hge =>
      refine ⟨hp, .refl m, fun _ => ⟨fun q hq hlt => absurd ?_ hge, fun _ _ => rfl⟩⟩
      exact (Nat.mul_le_mul_right PGSIZE hq).trans_lt hlt
    next hlt =>
    have hk : k < 2 ^ 19 := by
      simp only [KERNBASE, PGSIZE] at hsz hlt
      omega
    rw [wp_bind, wp_walkpgdir_find, PDX_page (by omega)]
    cases ht : m.entry pgdir (k / 1024) with
    | none => exact (hpanic k (le_refl k) hlt (mapped_of_no_table hsrc ht)).1
    | some t =>
    have hword := pteWord_of_table (q := k) ht
    rw [Option.map_some]
    dsimp only
    rw [wp_bind, wp_load, PTX_page, ← hword]
    split
    · next hP =>
      refine (hpanic k (le_refl k) hlt ?_).2
      rw [Option.eq_none_iff_forall_ne_some]
      intro f hf
      rw [((mapped_eq_some_iff hsrc).mp hf).2.1] at hP
      cases hP
    next hP =>
    have hP : pteP (m.pteWord pgdir k) = true := by simpa using hP
    rw [wp_bind]
    refine hp.wp_kalloc (fun m₁ hpage hp₁ => ⟨hp₁, .of_page_eq hpage, by rintro ⟨⟩⟩)
      (fun f m₁ hpage hp₁ hf => ?_)
    have hmem := Set.mem_insert f held
    rw [wp_bind, wp_memmove, wp_bind]
    have hset : Leaves dirs other held h (fun _ => True) m
        (m₁.setPage f (fun _ => m₁.page (pteFrame (m.pteWord pgdir k)))) := by
      have hset := hp₁.leaves_setPage_held (h := h) (K := fun _ => True) hmem
        (fun _ => m₁.page (pteFrame (m.pteWord pgdir k)))
      rw [Set.insert_sdiff_self_of_notMem hf] at hset
      exact (Leaves.of_page_eq hpage).trans hset
    have hflags : pteFlags (m.pteWord pgdir k) < PGSIZE := Nat.mod_lt _ (by decide)
    refine ((hp₁.setPage (hp₁.plain_of_held hmem) _).wp_mappages hd hk hmem hflags
      (fun hmapped => ?_)).imp (fun r m₃ hmap => ?_)
    · rw [hset.user k trivial] at hmapped
      exact absurd (hempty k (le_refl k) hlt) hmapped
    rcases hmap with ⟨rfl, hp₃, hself, hleaves, hnew, hrest⟩ | ⟨rfl, hp₃, hleaves⟩
    · rw [if_neg (by decide), ← Nat.succ_mul]
      rw [Set.insert_sdiff_self_of_notMem hf] at hp₃
      have hbytes : m₃.page f = m.page (pteFrame (m.pteWord pgdir k)) := by
        rw [hleaves.held f hmem, ← hpage]
        exact if_pos rfl
      have hall := (hset.mono (Set.Subset.refl _) (fun _ _ => trivial)).trans
        (hleaves.mono (Set.subset_insert f held) (fun _ hq => hq))
      have hturns' : sz ≤ (k + 1 + turns) * PGSIZE := by
        rw [Nat.add_right_comm, Nat.add_assoc]
        exact hturns
      have hsame := (show SameTables dirs m m₁ from sameTables_of_page hpage).pteWord_eq hd
      have hrest : ∀ q, q ≠ k → m₃.pteWord d q = m.pteWord d q := fun q hq =>
        (hrest q hq).trans (((Pages.sameTables_setPage (hp₁.plain_of_held hmem) _).pteWord_eq hd q).trans
          (hsame q))
      refine (ih hp₃ hturns' (fun q hq hq' => ?_) (fun q hq hq' hnone => ?_)).imp
        (fun r m' h' => ?_)
      · rw [hall.user q (by omega)]
        exact hempty q (by omega) hq'
      · refine hpanic q (by omega) hq' (((mapped_eq m dirs other src q).trans ?_).trans hnone)
        exact (hall.owner (.user src _ _) (fun heq => hne (Option.some.inj heq))).symm
      obtain ⟨hp', hleaves', hcopied⟩ := h'
      refine ⟨hp', ?_, fun hr => ?_⟩
      · exact (hall.mono (Set.Subset.refl _) (fun q hq => Nat.ne_of_lt hq)).trans
          (hleaves'.mono (Set.Subset.refl _) (fun q hq => Nat.lt_succ_of_lt hq))
      · obtain ⟨hcopied, hothers⟩ := hcopied hr
        refine ⟨fun q hq hq' => ?_, fun q hq => ?_⟩
        · by_cases hqk : q = k
          · subst hqk
            have hflags' : pteFlags (m.pteWord pgdir q) ||| PTE_P < PGSIZE := by
              rw [pteFlags_or_PTE_P hP]
              exact hflags
            have hword' := (hothers q (.inl q.lt_succ_self)).trans hnew
            refine ⟨hP, ?_, ?_, ?_⟩
            · rw [hword', pteP_or, pteP_or, show pteP PTE_P = true from rfl, Bool.or_true, Bool.or_true]
            · rw [hword', pteFlags_or f hflags', pteFlags_or_PTE_P hP]
            · rw [hword', pteFrame_or f hflags',
                hleaves'.userPage q f q.lt_succ_self hself, hbytes]
          · have hq19 : q < 2 ^ 19 := by
              simp only [KERNBASE, PGSIZE] at hsz hq'
              omega
            exact (hcopied q (by omega) hq').of_leaves hall hsrc hne hq19
        · rw [hothers q (hq.imp_left Nat.lt_succ_of_lt), hrest q ?_]
          rintro rfl
          omega
    · rw [if_pos (by decide), wp_bind]
      have hp₄ := hp₃.release hmem (fun _ _ => 1)
      have hrel := hp₃.leaves_release (h := h) (K := fun q => q < k) hmem (fun _ _ => 1)
      rw [Set.insert_sdiff_self_of_notMem hf] at hp₄ hrel
      refine wp_kfree L (hkfree f (hp₃.mem_of_held hmem).1) ⟨hp₄, ?_, by rintro ⟨⟩⟩
      exact ((hset.trans (hleaves.mono (Set.subset_insert f held) (fun _ hq => hq))).mono
        (Set.Subset.refl _) (fun _ _ => trivial)).trans hrel

/-- **`copyuvm`** makes a directory with a copy of every page below the size and what `setupkvm`
puts in it, or nothing. -/
theorem Pages.wp_copyuvm [DecidableEq H] (L : MemLayout) (hp : m.Pages P dirs other held)
    (hkfree : ∀ f ∈ P, ¬ L.Frees f → R .kfree)
    (hstop : L.DEVSPACE < KERNBASE + L.PHYSTOP → R .phystop) (hh : dirs h = none)
    (hsrc : dirs src = some pgdir) (hsz : sz ≤ KERNBASE)
    (hpanic : ∀ q, q * PGSIZE < sz → m.mapped dirs src q = none → R .copyuvmPte ∧ R .copyuvmPage) :
    wp (copyuvm L pgdir sz) (fun r m' => Leaves dirs other held h (fun _ => False) m m' ∧
      ((r = none ∧ m'.Pages P dirs other held) ∨
      ∃ d m₁, r = some d ∧ setupkvm L m = .ok (some d, m₁) ∧
        m'.Pages P (update dirs h (some d)) other held ∧
        m'.Spans (update dirs h (some d)) h sz ∧ (∀ q, q * PGSIZE < sz → CopyOf m pgdir m' d q) ∧
        ∀ q, 2 ^ 19 ≤ q → m'.pteWord d q = m₁.pteWord d q)) R m := by
  have hne : src ≠ h := by
    rintro rfl
    rw [hh] at hsrc
    cases hsrc
  unfold copyuvm
  refine (hp.wp_setupkvm L hkfree hstop hh).run.bind (fun r m₁ h₁ => ?_)
  obtain ⟨⟨hleaves₁, ⟨rfl, hp₁⟩ | ⟨d, rfl, hp₁, hempty⟩⟩, hrun⟩ := h₁
  · exact ⟨hleaves₁, .inl ⟨rfl, hp₁⟩⟩
  · have hd : update dirs h (some d) h = some d := update_self h _ dirs
    have hsrc' : update dirs h (some d) src = some pgdir := (update_of_ne hne _ _).trans hsrc
    have hlow : ∀ q, q * PGSIZE < sz → q < 2 ^ 19 := by
      intro q hq
      simp only [KERNBASE, PGSIZE] at hsz hq
      omega
    simp only [wp_bind]
    have hturns : sz ≤ (0 + (sz + (PGSIZE - 1)) / PGSIZE) * PGSIZE := by unfold PGSIZE; omega
    have hloop := hp₁.wp_copyuvmLoop (R := R) L hd hsrc' hne hkfree hsz hturns (fun q _ _ => hempty q)
      (fun q _ hq hnone => ?_)
    · rw [Nat.zero_mul] at hloop
      refine hloop.imp (fun ok m₂ h₂ => ?_)
      obtain ⟨hp₂, hleaves₂, hcopied⟩ := h₂
      have hback := hleaves₂.of_dirs none
      rw [← hh, update_eq_self] at hback
      split
      · next hok =>
        obtain ⟨hcopied, hothers⟩ := hcopied hok
        refine ⟨hleaves₁.trans hback, .inr ⟨d, m₁, rfl, hrun, hp₂, fun q => ?_, fun q hq => ?_,
          fun q hq => hothers q (.inr ?_)⟩⟩
        · rw [lt_npages_iff]
          refine ⟨fun hmapped => ?_, fun hq => ?_⟩
          · obtain ⟨f, hf⟩ := Option.ne_none_iff_exists'.mp hmapped
            by_contra hge
            rw [mapped_eq_some_iff hd, hothers q (.inr (Nat.not_lt.mp hge)), ← mapped_eq_some_iff hd,
              hempty] at hf
            cases hf
          · rw [(mapped_eq_some_iff hd).mpr ⟨hlow q hq, (hcopied q q.zero_le hq).present, rfl⟩]
            exact Option.some_ne_none _
        · exact (hcopied q q.zero_le hq).of_leaves hleaves₁ hsrc hne (hlow q hq)
        · simp only [KERNBASE, PGSIZE] at hsz ⊢
          omega
      · refine (hp₂.wp_freevm L hd hkfree).bind (fun _ m₃ h₃ => ?_)
        obtain ⟨hp₃, hleaves₃⟩ := h₃
        refine ⟨?_, .inl ⟨rfl, ?_⟩⟩
        · have hback₃ := hleaves₃.of_dirs none
          rw [← hh, update_eq_self] at hback₃
          exact (hleaves₁.trans hback).trans hback₃
        · rw [update_idem, ← hh, update_eq_self] at hp₃
          exact hp₃
    · refine hpanic q hq (((mapped_eq m dirs other src q).trans ?_).trans
        ((mapped_of_dir hsrc hsrc' q).symm.trans hnone))
      exact (hleaves₁.owner (.user src _ _) (fun heq => hne (Option.some.inj heq))).symm

end copy

section

variable (hp : m.Pages P dirs other held)

include hp

/-- **`inituvm`** maps the first page, or it loses a page. -/
theorem Pages.wp_inituvm (hd : dirs h = some d) (hR : ∀ e, R e)
    (hempty : ∀ k, m.mapped dirs h k = none) (init : List UInt8) :
    wp (inituvm d init) (fun _ m' => m'.mapped dirs h 0 ≠ none → m'.Pages P dirs other held) R m := by
  unfold inituvm
  split
  · exact hR _
  rw [wp_bind]
  refine hp.wp_kalloc (fun m₁ _ _ => hR _) (fun f m₁ hpage hp₁ hf => ?_)
  have hmem := Set.mem_insert f held
  have hplain := hp₁.plain_of_held hmem
  have hp₂ := hp₁.setPage hplain (fun _ _ => 0)
  have hperm : PTE_W ||| PTE_U < PGSIZE := by decide
  have hmap := hp₂.wp_mappages (R := R) hd (k := 0) (by decide) hmem hperm (fun _ => hR _)
  rw [Nat.zero_mul] at hmap
  rw [wp_bind, wp_memset, wp_bind]
  refine hmap.imp (fun r m₃ hmap => ?_)
  rw [wp_modify]
  rcases hmap with ⟨rfl, hp₃, hself, -⟩ | ⟨rfl, hp₃, hleaves⟩
  · intro _
    rw [Set.insert_sdiff_self_of_notMem hf] at hp₃
    exact hp₃.setPage (hp₃.plain_of_user ((mapped_eq m₃ dirs other h 0).symm.trans hself)) _
  · intro hmapped
    rw [(Pages.sameTables_setPage (hp₃.plain_of_held hmem) (Bytes.setBytes 0 init)).mapped_eq,
      hleaves.user 0 trivial, (Pages.sameTables_setPage hplain _).mapped_eq,
      (sameTables_of_page hpage).mapped_eq, hempty] at hmapped
    exact absurd rfl hmapped

/-! ## `clearpteu` and `copyout` -/

/-- **`clearpteu`** of a user page leaves the page mapped, and the user cannot reach
it. It panics only if the page is not mapped. -/
theorem Pages.wp_clearpteu (hd : dirs h = some d) {k : ℕ} (hk : k < 2 ^ 19)
    (hR : m.mapped dirs h k = none → R .clearpteu) :
    wp (clearpteu d (k * PGSIZE)) (fun _ m' => m'.Pages P dirs other held ∧
      Leaves dirs other held h (fun _ => True) m m' ∧ m'.upage d k = none) R m := by
  unfold clearpteu
  rw [wp_bind, wp_walkpgdir_find, PDX_page (by omega), PTX_page]
  cases ht : m.entry d (k / 1024) with
  | none => exact hR (mapped_of_no_table hd ht)
  | some t =>
    have hi : k / 1024 < NUPDENTRIES := by
      unfold NUPDENTRIES
      omega
    have hj : k % 1024 < NPDENTRIES := Nat.mod_lt k (by decide)
    have hflags := sub_and_PTE_U ((m.page t).word (k % 1024))
    have hlt := lt_of_le_of_lt (Nat.sub_le _ ((m.page t).word (k % 1024) &&& PTE_U))
      (Bytes.word_lt (m.page t) (k % 1024))
    refine ⟨hp.setFlags hd ht hi hj hlt hflags.1 hflags.2,
      hp.leaves_setFlags hd ht hi hj hlt hflags.1 hflags.2, ?_⟩
    have hclear : pteU (((m.setPage t (fun x => x.setWord (k % 1024)
        ((m.page t).word (k % 1024) - ((m.page t).word (k % 1024) &&& PTE_U)))).page t).word (k % 1024))
        = false := by
      rw [page_setPage_self, word_setWord_page _ hj hlt]
      exact pteU_sub_and _
    unfold upage
    rw [entry_setPage_of_ne (hp.table_ne_dir hd hd ht).symm, ht, Option.bind_some, hclear]
    rfl

/-- A page that users can reach is a user page. -/
theorem Pages.mapped_of_upage (hd : dirs h = some d) {k : ℕ} {f : Frame} (hf : m.upage d k = some f) :
    k < 2 ^ 19 ∧ m.mapped dirs h k = some f := by
  obtain ⟨t, ht, hentry⟩ := upage_eq_some hf
  have hk : k < 2 ^ 19 := by
    by_contra hk
    have hi : NUPDENTRIES ≤ k / 1024 := by
      unfold NUPDENTRIES
      omega
    have hj : k % 1024 < NPDENTRIES := Nat.mod_lt k (by decide)
    have hflag := hp.kernel hd hi ht hj
    unfold upage at hf
    rw [ht, Option.bind_some, hflag] at hf
    cases hf
  exact ⟨hk, (mapped_of_table hd hk ht).trans hentry⟩

/-- The pages of a directory that users can reach are apart. -/
theorem Pages.apart (hd : dirs h = some d) : m.Apart d where
  inj := by
    intro k k' f hf hf'
    by_contra hne
    exact hp.ne_of_place_ne ((mapped_eq m dirs other h k').symm.trans (hp.mapped_of_upage hd hf').2)
      ((mapped_eq m dirs other h k).symm.trans (hp.mapped_of_upage hd hf).2) (user_ne_of_ne hne) rfl
  ne_dir := by
    intro k hf
    have hdir : m.owner dirs other (.dir h) = some d := hd
    exact hp.ne_of_place_ne ((mapped_eq m dirs other h k).symm.trans (hp.mapped_of_upage hd hf).2)
      hdir nofun rfl
  ne_table := by
    intro k i f hf hi
    exact hp.ne_of_place_ne ((mapped_eq m dirs other h k).symm.trans (hp.mapped_of_upage hd hf).2)
      ((owner_table hd i).trans hi) nofun rfl

end

/-- What `copyout` writes is at no other home. -/
theorem Within.leaves {va len : ℕ} (hw : Within d va len m m') (hp : m.Pages P dirs other held)
    (hd : dirs h = some d) :
    SameTables dirs m m' ∧ Leaves dirs other held h (fun _ => False) m m' := by
  have hpage : ∀ {place : Home H X} {g : Frame}, m.owner dirs other place = some g →
      (∀ k, place ≠ .user h (k / 1024) (k % 1024)) → m'.page g = m.page g := by
    intro place g hg hne
    refine hw.page g (fun k _ hk => ?_)
    exact hp.ne_of_place_ne hg
      ((mapped_eq m dirs other h k).symm.trans (hp.mapped_of_upage hd hk).2) (hne k) rfl
  have hsame : SameTables dirs m m' := by
    refine ⟨fun {h' d'} hd' => ?_, fun {h' d' i t} hd' ht => ?_⟩
    · have hdir : m.owner dirs other (.dir h') = some d' := hd'
      exact hpage hdir (fun _ => nofun)
    · exact hpage ((owner_table hd' i).trans ht) (fun _ => nofun)
  refine ⟨hsame, .of_pages (fun place _ => ?_) (fun _ hk => hk.elim) (fun g hg => ?_)⟩
  · rw [hsame.owner_eq]
  · rcases hg with ⟨place, hne, hg⟩ | hg | ⟨_, hk, -⟩
    · exact hpage hg (fun k heq => hne (congrArg Home.holder heq))
    · refine hw.page g (fun k _ hk => ?_)
      exact hp.ledger.apart ((mapped_eq m dirs other h k).symm.trans (hp.mapped_of_upage hd hk).2) hg
    · exact hk.elim

/-- **`copyout`** to the pages of a directory. -/
theorem Pages.wp_copyout (hp : m.Pages P dirs other held) (hd : dirs h = some d) (hR : R .null)
    {va : ℕ} (hva : va < 2 ^ 32) (buf : List UInt8) :
    wp (copyout d va buf) (fun r m' => m'.Pages P dirs other held ∧ SameTables dirs m m' ∧
      Leaves dirs other held h (fun _ => False) m m' ∧ Copied d va buf m r m') R m := by
  have hlast : m.upage d (2 ^ 20 - 1) = none := by
    cases hf : m.upage d (2 ^ 20 - 1) with
    | none => rfl
    | some f => exact absurd (hp.mapped_of_upage hd hf).1 (by decide)
  refine ((hp.apart hd).wp_copyoutLoop (le_refl _) (.inr ⟨hva, hlast⟩)).mono
    (fun r m' ⟨hcopied, _⟩ => ?_) (fun e ⟨he, _⟩ => he ▸ hR)
  obtain ⟨hsame, hleaves⟩ := hcopied.1.leaves hp hd
  exact ⟨hsame.pages hp hcopied.1.free, hsame, hleaves, hcopied⟩

/-- What a function that works on another directory leaves in an address space. -/
theorem Leaves.byteAt {K : ℕ → Prop} {h' : H} (hleaves : Leaves dirs other held h K m m')
    (hp : m.Pages P dirs other held) (hd : dirs h' = some d) (hne : h' ≠ h) :
    (∀ k, m'.upage d k = m.upage d k) ∧ ∀ a, m'.byteAt d a = m.byteAt d a := by
  have hholder : ∀ {place : Home H X}, place.holder = some h' → place.holder ≠ some h :=
    fun hplace heq => hne (Option.some.inj (hplace.symm.trans heq))
  have hup : ∀ k, m'.upage d k = m.upage d k := by
    refine upage_congr (hleaves.page (.dir h') d (hholder rfl) hd) (fun {i t} ht => ?_)
    exact hleaves.page (.table h' i) t (hholder rfl) ((owner_table hd i).trans ht)
  refine ⟨hup, fun a => ?_⟩
  unfold Ram.byteAt
  rw [hup]
  refine Option.map_congr (fun f hf => ?_)
  rw [hleaves.page (.user h' _ _) f (hholder rfl)
    ((mapped_eq m dirs other h' _).symm.trans (hp.mapped_of_upage hd hf).2)]

end Ram

end Xv6
