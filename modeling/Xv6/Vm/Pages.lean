import Xv6.Vm.Leaves

/-!
# `vm.c` neither loses nor doubles a page

What the functions of `vm.c` do to the homes of pages. Each one keeps
`Ram.Pages`, wherever it stops or gives up, and the lemmas say which user pages
are mapped after it, what it leaves alone and when it can panic.
-/

namespace Xv6

open Function

open Wp

/-- A page that `kfree` takes without a panic. -/
def MemLayout.Frees (L : MemLayout) (f : Frame) : Prop :=
  f ≠ 0 ∧ L.kend ≤ KERNBASE + f * PGSIZE ∧ f * PGSIZE < L.PHYSTOP

/-! ## Addresses of pages -/

theorem PDX_lt (va : ℕ) : PDX va < NPDENTRIES := Nat.mod_lt _ (by decide)

theorem PDX_page {k : ℕ} (hk : k < 2 ^ 20) : PDX (k * PGSIZE) = k / 1024 := by
  unfold PDX PGSIZE
  omega

theorem PTX_page (k : ℕ) : PTX (k * PGSIZE) = k % 1024 := by
  unfold PTX PGSIZE
  omega

theorem mul_pow_page (i : ℕ) : i * 2 ^ 22 = i * 1024 * PGSIZE := by
  unfold PGSIZE
  omega

/-- The number of pages for a size. -/
def npages (sz : ℕ) : ℕ := (sz + (PGSIZE - 1)) / PGSIZE

theorem PGROUNDUP_eq {sz : ℕ} (h : sz ≤ KERNBASE) : PGROUNDUP sz = npages sz * PGSIZE := by
  unfold PGROUNDUP npages
  unfold KERNBASE at h
  unfold PGSIZE
  omega

theorem le_npages_mul (sz : ℕ) : sz ≤ npages sz * PGSIZE := by
  unfold npages PGSIZE
  omega

theorem lt_npages_iff (q sz : ℕ) : q < npages sz ↔ q * PGSIZE < sz := by
  unfold npages PGSIZE
  omega

namespace Ram

variable {H X : Type} {dirs : H → Option Frame} {other : X → Option Frame} {P held : Set Frame}
variable {m m' : Ram} {h : H} {d : Frame} {R : VmHalt → Prop}

theorem SameTables.mapped_eq (hs : SameTables dirs m m') (k : ℕ) :
    m'.mapped dirs h k = m.mapped dirs h k := by
  rw [Ram.mapped_eq m' dirs Empty.elim, hs.owner_eq]
  rfl

/-- **The word of a page** in a directory, for users or not. The words of a page table that is
not there are zero. -/
def pteWord (m : Ram) (d : Frame) (q : ℕ) : ℕ :=
  (m.entry d (q / 1024)).elim 0 (fun t => (m.page t).word (q % 1024))

variable {q : ℕ}

theorem pteWord_of_table {t : Frame} (ht : m.entry d (q / 1024) = some t) :
    m.pteWord d q = (m.page t).word (q % 1024) := by
  unfold pteWord
  rw [ht, Option.elim_some]

theorem pteWord_congr (hdir : m'.entry d (q / 1024) = m.entry d (q / 1024))
    (htable : ∀ {t}, m.entry d (q / 1024) = some t →
      (m'.page t).word (q % 1024) = (m.page t).word (q % 1024)) :
    m'.pteWord d q = m.pteWord d q := by
  unfold pteWord
  rw [hdir]
  cases ht : m.entry d (q / 1024) with
  | none => rfl
  | some t => exact htable ht

theorem SameTables.pteWord_eq (hs : SameTables dirs m m') (hd : dirs h = some d) (q : ℕ) :
    m'.pteWord d q = m.pteWord d q :=
  pteWord_congr (hs.entry hd _) (fun ht => by rw [hs.table hd ht])

variable {f : Frame}

/-- The user pages are in the words below `KERNBASE`. -/
theorem mapped_eq_some_iff (hd : dirs h = some d) :
    m.mapped dirs h q = some f ↔
      q < 2 ^ 19 ∧ pteP (m.pteWord d q) = true ∧ pteFrame (m.pteWord d q) = f := by
  have hj : q % 1024 < NPDENTRIES := Nat.mod_lt q (by decide)
  have hi : q / 1024 < NUPDENTRIES ↔ q < 2 ^ 19 := by
    unfold NUPDENTRIES
    omega
  show (if _ then ((dirs h).bind _).bind _ else none) = some f ↔ _
  rw [hd, Option.bind_some]
  unfold pteWord
  cases ht : m.entry d (q / 1024) with
  | none => exact iff_of_false (by simp) (fun h => absurd h.2.1 (show ¬ pteP 0 = true by decide))
  | some t =>
    rw [Option.bind_some, Option.elim_some]
    by_cases hq : q < 2 ^ 19
    · rw [if_pos (hi.mpr hq), entry, pageEntry_eq_some]
      exact ⟨fun h => ⟨hq, h.2⟩, fun h => ⟨hj, h.2⟩⟩
    · rw [if_neg (fun hlt => hq (hi.mp hlt))]
      exact iff_of_false nofun (fun h => hq h.1)

/-! ## The steps -/

@[simp] theorem wp_load {pte : PtePtr} {Q : ℕ → Ram → Prop} :
    wp (load pte) Q R m ↔ Q ((m.page pte.table).word pte.idx) m := Iff.rfl

variable {Q : PUnit → Ram → Prop}

@[simp] theorem wp_store {pte : PtePtr} {w : ℕ} :
    wp (store pte w) Q R m ↔ Q ⟨⟩ (m.setPage pte.table (fun x => x.setWord pte.idx w)) := Iff.rfl

@[simp] theorem wp_memset {b : UInt8} :
    wp (memset f b) Q R m ↔ Q ⟨⟩ (m.setPage f (fun _ _ => b)) := Iff.rfl

@[simp] theorem wp_memmove {g : Frame} :
    wp (memmove f g) Q R m ↔ Q ⟨⟩ (m.setPage f (fun _ => m.page g)) := Iff.rfl

/-- `kfree` frees the page, or panics. -/
theorem wp_kfree (L : MemLayout) (hR : ¬ L.Frees f → R .kfree)
    (hQ : Q ⟨⟩ { m.setPage f (fun _ _ => 1) with freelist := f :: m.freelist }) :
    wp (kfree L f) Q R m := by
  unfold kfree
  split
  · next hbad =>
    exact hR (fun hf => hbad.elim (Nat.not_lt.mpr hf.2.1) (Nat.not_le.mpr hf.2.2))
  · exact hQ

/-- `kalloc` takes the first page of the list, or fails. -/
theorem wp_kalloc {Q : Option Frame → Ram → Prop}
    (hnone : ∀ m', m'.page = m.page → m'.freelist = m.freelist → Q none m')
    (hsome : ∀ f m', m'.page = m.page → m.freelist = f :: m'.freelist → Q (some f) m') :
    wp kalloc Q R m := by
  unfold kalloc
  simp only [wp_bind, wp_get, wp_modify]
  split
  · next hnil => exact hnone _ rfl rfl
  · next r next hcons =>
    split
    · exact hnone _ rfl rfl
    · exact hsome r _ rfl hcons

theorem Pages.wp_kalloc (hp : m.Pages P dirs other held) {Q : Option Frame → Ram → Prop}
    (hnone : ∀ m', m'.page = m.page → m'.Pages P dirs other held → Q none m')
    (hsome : ∀ f m', m'.page = m.page → m'.Pages P dirs other (insert f held) → f ∉ held →
      Q (some f) m') : wp kalloc Q R m := by
  refine Ram.wp_kalloc (fun m' hpage hfree => ?_) (fun f m' hpage hfree => ?_)
  · have hsame : SameTables dirs m m' := ⟨fun _ => hpage ▸ rfl, fun _ _ => hpage ▸ rfl⟩
    exact hnone m' hpage (hsame.pages hp hfree)
  · obtain ⟨hp', hf⟩ := hp.take hfree hpage
    exact hsome f m' hpage hp' hf

theorem sameTables_of_page (hpage : m'.page = m.page) : SameTables dirs m m' :=
  ⟨fun _ => hpage ▸ rfl, fun _ _ => hpage ▸ rfl⟩

/-- `walkpgdir` that does not allocate. -/
theorem wp_walkpgdir_find {va : ℕ} {Q : Option PtePtr → Ram → Prop} :
    wp (walkpgdir d va false) Q R m
      ↔ Q ((m.entry d (PDX va)).map (fun t => ⟨t, PTX va⟩)) m := by
  unfold walkpgdir
  simp only [wp_bind, wp_load]
  split
  · next hpte =>
    have hentry : m.entry d (PDX va) = _ := pageEntry_of_pteP (PDX_lt va) hpte
    rw [hentry]
    exact Iff.rfl
  · next hpte =>
    have hentry : m.entry d (PDX va) = none := pageEntry_of_not_pteP hpte
    rw [hentry]
    exact Iff.rfl

variable {k : ℕ}

/-- `mappages` of one page makes one turn. -/
theorem mappages_page (d : Frame) (hk : k < 2 ^ 20) (pa perm : ℕ) :
    mappages d (k * PGSIZE) PGSIZE pa perm = mappagesLoop d perm 0 (k * PGSIZE) pa := by
  have hdown : PGROUNDDOWN (k * PGSIZE) = k * PGSIZE := by
    unfold PGROUNDDOWN PGSIZE
    omega
  have hlast : PGROUNDDOWN ((k * PGSIZE + PGSIZE + (2 ^ 32 - 1)) % 2 ^ 32) = k * PGSIZE := by
    unfold PGROUNDDOWN PGSIZE
    omega
  have hturns : (k * PGSIZE + (2 ^ 32 - k * PGSIZE)) % 2 ^ 32 / PGSIZE = 0 := by
    unfold PGSIZE
    omega
  unfold mappages
  simp only [hdown, hlast, hturns]

section pages

variable (hp : m.Pages P dirs other held) (hd : dirs h = some d)

include hp hd

/-- The words of a directory that gets a new page table. -/
theorem Pages.pteWord_newTable {i : ℕ}
    (hnone : m.entry d i = none) {f : Frame} (hf : f ∈ held) {w : ℕ}
    (hm' : m' = (m.setPage f (fun _ _ => 0)).setPage d (fun x => x.setWord i w))
    (hentry : m'.entry d i = some f) (q : ℕ) : m'.pteWord d q = m.pteWord d q := by
  have hplain := hp.plain_of_held hf
  have hfd : f ≠ d := fun heq => hplain.1 h (heq ▸ hd)
  by_cases hi : q / 1024 = i
  · have hzero : m'.page f = Bytes.zero := by
      rw [hm']
      exact (if_neg hfd).trans (if_pos rfl)
    unfold pteWord
    rw [hi, hentry, hnone, Option.elim_some, hzero]
    exact Bytes.word_zero _
  · refine pteWord_congr ?_ (fun {t} ht => ?_)
    · rw [hm', Pages.entry_setPage_self, pageEntry_setWord_of_ne _ _ hi]
      exact congrArg (pageEntry · (q / 1024)) (if_neg hfd.symm)
    · have htd : t ≠ d := hp.table_ne_dir hd hd ht
      have htf : t ≠ f := fun heq => hplain.2 h d _ hd (heq ▸ ht)
      rw [hm']
      exact congrArg (Bytes.word · _) ((if_neg htd).trans (if_neg htf))

variable {k : ℕ}

/-- The words of a directory after one was stored. -/
theorem Pages.pteWord_setWord {q w : ℕ} {t : Frame} (ht : m.entry d (k / 1024) = some t) :
    (q ≠ k → (m.setPage t (fun x => x.setWord (k % 1024) w)).pteWord d q = m.pteWord d q) ∧
      (w < 2 ^ 32 → (m.setPage t (fun x => x.setWord (k % 1024) w)).pteWord d k = w) := by
  have hdir : ∀ i, (m.setPage t (fun x => x.setWord (k % 1024) w)).entry d i = m.entry d i :=
    Pages.entry_setPage_of_ne (hp.table_ne_dir hd hd ht).symm _
  refine ⟨fun hq => pteWord_congr (hdir _) (fun {t'} ht' => ?_), fun hw => ?_⟩
  · by_cases htt : t' = t
    · subst htt
      have hi := (hp.table_inj hd ht hd ht').2
      rw [page_setPage_self, Bytes.word_setWord_of_ne _ _ (by omega)]
    · exact congrArg (Bytes.word · _) (if_neg htt)
  · rw [pteWord_of_table ((hdir _).trans ht)]
    rw [page_setPage_self]
    exact word_setWord_page _ (show k % 1024 < NPDENTRIES from Nat.mod_lt k (by decide)) hw

/-- `walkpgdir` that allocates. -/
theorem Pages.wp_walkpgdir (va : ℕ) :
    wp (walkpgdir d va true) (fun r m' => m'.Pages P dirs other held ∧
      Leaves dirs other held h (fun _ => True) m m' ∧ (∀ q, m'.pteWord d q = m.pteWord d q) ∧
      ∀ pte, r = some pte → m'.entry d (PDX va) = some pte.table ∧ pte.idx = PTX va) R m := by
  unfold walkpgdir
  simp only [wp_bind, wp_load]
  split
  · next hpte =>
    refine ⟨hp, .refl m, fun _ => rfl, fun pte heq => ?_⟩
    cases heq
    exact ⟨pageEntry_of_pteP (PDX_lt va) hpte, rfl⟩
  · next hpte =>
    have hnone : m.entry d (PDX va) = none := pageEntry_of_not_pteP hpte
    have hsamePte : ∀ {m₁ : Ram}, m₁.page = m.page → ∀ q, m₁.pteWord d q = m.pteWord d q := by
      intro m₁ hpage q
      unfold pteWord entry
      rw [hpage]
    rw [if_neg (by decide), wp_bind]
    refine hp.wp_kalloc (fun m₁ hpage hp₁ => ?_) (fun f m₁ hpage hp₁ hf => ?_)
    · exact ⟨hp₁, .of_page_eq hpage, hsamePte hpage, by rintro _ ⟨⟩⟩
    · have hmem := Set.mem_insert f held
      have hsmall : f < 2 ^ 20 := hp₁.small f (hp₁.mem_of_held hmem).1
      have hw : f * PGSIZE ||| PTE_P ||| PTE_W ||| PTE_U = f * PGSIZE ||| 7 := by
        rw [Nat.or_assoc, Nat.or_assoc]
        rfl
      have hnone₁ : m₁.entry d (PDX va) = none := by
        unfold entry
        rw [hpage]
        exact hnone
      obtain ⟨hp₂, hentry, hrest⟩ := hp₁.newTable hd (PDX_lt va) hnone₁ hmem
        (w := f * PGSIZE ||| 7) (or_lt_word hsmall (by decide))
        (by rw [pteP_or, show pteP 7 = true from rfl, Bool.or_true]) (pteFrame_or f (by decide)) rfl
      have hleaves := hp₁.leaves_newTable (K := fun _ => True) hd hmem _ hrest
      have hpteq := hp₁.pteWord_newTable hd hnone₁ hmem rfl hentry
      rw [Set.insert_sdiff_self_of_notMem hf] at hp₂ hleaves
      simp only [wp_bind, wp_memset, wp_store, wp_pure, hw]
      refine ⟨hp₂, (Leaves.of_page_eq hpage).trans hleaves,
        fun q => (hpteq q).trans (hsamePte hpage q), fun pte heq => ?_⟩
      cases heq
      exact ⟨hentry, rfl⟩

/-! ## `mappages` -/

variable {perm : ℕ}

/-- **`mappages` of a page for the user**: the page that was held is mapped, or
nothing is. It panics only if another page is mapped there. -/
theorem Pages.wp_mappages (hk : k < 2 ^ 19) {f : Frame} (hf : f ∈ held) (hperm : perm < PGSIZE)
    (hR : m.mapped dirs h k ≠ none → R .remap) :
    wp (mappages d (k * PGSIZE) PGSIZE (f * PGSIZE) perm) (fun r m' =>
      (r = 0 ∧ m'.Pages P dirs other (held \ {f}) ∧ m'.mapped dirs h k = some f ∧
        Leaves dirs other held h (fun k' => k' ≠ k) m m' ∧
        m'.pteWord d k = f * PGSIZE ||| (perm ||| PTE_P) ∧
        ∀ q, q ≠ k → m'.pteWord d q = m.pteWord d q) ∨
      (r = -1 ∧ m'.Pages P dirs other held ∧ Leaves dirs other held h (fun _ => True) m m')) R m := by
  rw [mappages_page d (by omega)]
  unfold mappagesLoop
  refine (hp.wp_walkpgdir hd (k * PGSIZE)).bind (fun r m₁ ⟨hp₁, hleaves, hwords, hpte⟩ => ?_)
  cases r with
  | none => exact .inr ⟨rfl, hp₁, hleaves⟩
  | some pte =>
    obtain ⟨ht, hidx⟩ := hpte pte rfl
    have hi : k / 1024 < NUPDENTRIES := by
      unfold NUPDENTRIES
      omega
    have hj : k % 1024 < NPDENTRIES := Nat.mod_lt k (by decide)
    rw [PDX_page (by omega)] at ht
    rw [PTX_page] at hidx
    simp only [wp_bind, wp_load, hidx]
    have hmapped : m.mapped dirs h k = m₁.entry pte.table (k % 1024) :=
      (hleaves.user k trivial).symm.trans (owner_user hd hi ht _)
    split
    · next hP =>
      have hentry : m₁.entry pte.table (k % 1024) = _ := pageEntry_of_pteP hj hP
      refine hR ?_
      rw [hmapped, hentry]
      exact Option.some_ne_none _
    · next hnone =>
      have hw : f * PGSIZE ||| perm ||| PTE_P = f * PGSIZE ||| (perm ||| PTE_P) := Nat.or_assoc ..
      have hflags : perm ||| PTE_P < PGSIZE := Nat.or_lt_two_pow (n := 12) hperm (by decide)
      have hsmall : f < 2 ^ 20 := hp₁.small f (hp₁.mem_of_held hf).1
      have hword : f * PGSIZE ||| (perm ||| PTE_P) < 2 ^ 32 := or_lt_word hsmall hflags
      have hP : pteP (f * PGSIZE ||| (perm ||| PTE_P)) = true := by
        rw [pteP_or, pteP_or, show pteP PTE_P = true from rfl, Bool.or_true, Bool.or_true]
      have hframe := pteFrame_or f hflags
      have hleaves₂ : Leaves dirs other held h (fun k' => k' ≠ k) m₁
          (m₁.setPage pte.table (fun x => x.setWord (k % 1024) (f * PGSIZE ||| (perm ||| PTE_P)))) :=
        hp₁.leaves_setWord hd ht _ (fun k' hne => .inl (user_ne_of_ne hne))
      simp only [wp_bind, wp_store, wp_pure, hw, hidx]
      refine .inl ⟨trivial, hp₁.mapUser hd ht hi hj (pageEntry_of_not_pteP hnone) hf hword hP hframe,
        ?_, (hleaves.mono (Set.Subset.refl _) (fun _ _ => trivial)).trans hleaves₂,
        (hp₁.pteWord_setWord (q := k) hd ht).2 hword,
        fun q hq => ((hp₁.pteWord_setWord hd ht).1 hq).trans (hwords q)⟩
      have hself := hp₁.owner_setWord_self hd ht hi hj hword
      rw [if_pos hP, hframe] at hself
      exact hself

variable {pa : ℕ}

/-- One turn of `mappages` in the kernel's part of a directory. -/
theorem Pages.wp_mapKernel (hperm : pteU perm = false) {turns : ℕ} (hk : 2 ^ 19 ≤ k)
    (hk' : k < 2 ^ 20) (hpa : pa % PGSIZE = 0) (hR : pteP (m.pteWord d k) = true → R .remap)
    {Q : ℤ → Ram → Prop}
    (hfail : ∀ m', m'.Pages P dirs other held → Leaves dirs other held h (fun _ => True) m m' →
      (∀ q, m'.pteWord d q = m.pteWord d q) → Q (-1) m')
    (hnext : ∀ m', m'.Pages P dirs other held → Leaves dirs other held h (fun _ => True) m m' →
      (∀ q, q ≠ k → m'.pteWord d q = m.pteWord d q) → (turns = 0 → Q 0 m') ∧
      ∀ n, turns = n + 1 → wp (mappagesLoop d perm n ((k * PGSIZE + PGSIZE) % 2 ^ 32)
        ((pa + PGSIZE) % 2 ^ 32)) Q R m') :
    wp (mappagesLoop d perm turns (k * PGSIZE) pa) Q R m := by
  unfold mappagesLoop
  refine (hp.wp_walkpgdir hd (k * PGSIZE)).bind (fun r m₁ ⟨hp₁, hleaves, hpteq, hpte⟩ => ?_)
  cases r with
  | none => exact hfail m₁ hp₁ hleaves hpteq
  | some pte =>
    obtain ⟨ht, hidx⟩ := hpte pte rfl
    rw [PDX_page hk'] at ht
    rw [PTX_page] at hidx
    simp only [wp_bind, wp_load, hidx]
    split
    · next hP =>
      refine hR ?_
      rw [← hpteq k, pteWord_of_table ht]
      exact hP
    · have hi : NUPDENTRIES ≤ k / 1024 := by
        unfold NUPDENTRIES
        omega
      have hw : pteU (pa ||| perm ||| PTE_P) = false := by
        have hpa : pa = pa / PGSIZE * PGSIZE := by
          rw [← Nat.div_add_mod pa PGSIZE, hpa, Nat.add_zero, Nat.mul_div_cancel_left _ (by decide),
            Nat.mul_comm]
        rw [pteU_or, pteU_or, hperm, hpa, pteU_frame]
        rfl
      rw [wp_bind, wp_store, hidx]
      obtain ⟨hzero, hsucc⟩ := hnext _ (hp₁.mapKernel (j := k % 1024) hd ht hi hw) (hleaves.trans
        (hp₁.leaves_setWord hd ht _ (fun _ _ => .inr hi)))
        (fun q hq => ((hp₁.pteWord_setWord hd ht).1 hq).trans (hpteq q))
      cases turns with
      | zero => exact hzero rfl
      | succ turns => exact hsucc turns rfl

/-- The loop of `mappages` in the kernel's part of a directory. -/
theorem Pages.wp_mappagesLoop (hperm : pteU perm = false) {turns : ℕ} (hk : 2 ^ 19 ≤ k)
    (hlast : k + turns < 2 ^ 20) (hpa : pa % PGSIZE = 0)
    (hR : ∀ q, k ≤ q → pteP (m.pteWord d q) = true → R .remap) :
    wp (mappagesLoop d perm turns (k * PGSIZE) pa) (fun _ m' =>
      m'.Pages P dirs other held ∧ Leaves dirs other held h (fun _ => True) m m' ∧
        ∀ q, k + turns < q → m'.pteWord d q = m.pteWord d q) R m := by
  induction turns generalizing m k pa with
  | zero =>
    exact hp.wp_mapKernel hd hperm hk (by omega) hpa (hR k (le_refl k))
      (fun _ hp' hl hpte => ⟨hp', hl, fun q _ => hpte q⟩)
      (fun _ hp' hl hpte => ⟨fun _ => ⟨hp', hl, fun q hq => hpte q (by omega)⟩, fun _ h => nomatch h⟩)
  | succ turns ih =>
    refine hp.wp_mapKernel hd hperm hk (by omega) hpa (hR k (le_refl k))
      (fun _ hp' hl hpte => ⟨hp', hl, fun q _ => hpte q⟩)
      (fun m' hp' hl hpte => ⟨fun h => (nomatch h), fun n hn => ?_⟩)
    obtain rfl := Nat.succ.inj hn
    have hnext : (k * PGSIZE + PGSIZE) % 2 ^ 32 = (k + 1) * PGSIZE := by
      unfold PGSIZE
      omega
    have hpa' : (pa + PGSIZE) % 2 ^ 32 % PGSIZE = 0 := by
      unfold PGSIZE at *
      omega
    rw [hnext]
    refine (ih hp' (by omega) (by omega) hpa' (fun q hq hne => ?_)).imp
      (fun _ m'' ⟨hp'', hl', hpte'⟩ => ⟨hp'', hl.trans hl', fun q hq => ?_⟩)
    · rw [hpte q (by omega)] at hne
      exact hR q (by omega) hne
    · rw [hpte' q (by omega), hpte q (by omega)]

/-- `mappages` in the kernel's part of a directory. -/
theorem Pages.wp_mappages_kernel (hperm : pteU perm = false) {va size : ℕ} (hva : KERNBASE ≤ va)
    (halign : va % PGSIZE = 0) (hsize : 0 < size) (hlast : va + size ≤ 2 ^ 32)
    (hpa : pa % PGSIZE = 0) (hR : ∀ q, va ≤ q * PGSIZE → pteP (m.pteWord d q) = true → R .remap) :
    wp (mappages d va size pa perm) (fun _ m' =>
      m'.Pages P dirs other held ∧ Leaves dirs other held h (fun _ => True) m m' ∧
        ∀ q, va + size ≤ q * PGSIZE → m'.pteWord d q = m.pteWord d q) R m := by
  obtain ⟨k, rfl⟩ : ∃ k, va = k * PGSIZE :=
    ⟨va / PGSIZE, (Nat.div_mul_cancel (Nat.dvd_of_mod_eq_zero halign)).symm⟩
  unfold mappages
  have hdown : PGROUNDDOWN (k * PGSIZE) = k * PGSIZE := by
    unfold PGROUNDDOWN PGSIZE
    omega
  have hend : (k * PGSIZE + size + (2 ^ 32 - 1)) % 2 ^ 32 = k * PGSIZE + size - 1 := by omega
  have hturns : (PGROUNDDOWN (k * PGSIZE + size - 1) + (2 ^ 32 - k * PGSIZE)) % 2 ^ 32 / PGSIZE
      = (k * PGSIZE + size - 1) / PGSIZE - k := by
    unfold PGROUNDDOWN PGSIZE at *
    omega
  simp only [hdown, hend, hturns]
  refine (hp.wp_mappagesLoop hd hperm ?_ ?_ hpa (fun q hq => hR q (Nat.mul_le_mul_right _ hq))).imp
    (fun _ m' ⟨hp', hl, hpte⟩ => ⟨hp', hl, fun q hq => hpte q ?_⟩)
  · unfold KERNBASE PGSIZE at *
    omega
  · unfold PGSIZE at *
    omega
  · unfold PGSIZE at *
    omega

end pages

/-! ## `deallocuvm` and `freevm` -/

/-- No page table, no user pages. -/
theorem mapped_of_no_table (hd : dirs h = some d) (hnone : m.entry d (k / 1024) = none) :
    m.mapped dirs h k = none := by
  show (if _ then _ else _) = none
  rw [hd, Option.bind_some, hnone]
  exact ite_self _

theorem mapped_of_table (hd : dirs h = some d) (hk : k < 2 ^ 19) {t : Frame}
    (ht : m.entry d (k / 1024) = some t) : m.mapped dirs h k = m.entry t (k % 1024) := by
  have hi : k / 1024 < NUPDENTRIES := by
    unfold NUPDENTRIES
    omega
  exact owner_user hd hi ht _

/-- The user pages from `k` on and below `sz` are gone, and nothing else. -/
structure Unmapped (dirs : H → Option Frame) (other : X → Option Frame) (held : Set Frame) (h : H)
    (k sz : ℕ) (m m' : Ram) : Prop where
  gone : ∀ q, k ≤ q → q * PGSIZE < sz → m'.mapped dirs h q = none
  leaves : Leaves dirs other held h (fun q => q < k ∨ sz ≤ q * PGSIZE) m m'

theorem Unmapped.refl {sz : ℕ} (h' : sz ≤ k * PGSIZE) : Unmapped dirs other held h k sz m m where
  gone := fun q hq hlt => by
    have := Nat.mul_le_mul_right PGSIZE hq
    omega
  leaves := .refl m

/-- **The loop of `deallocuvm`** unmaps the pages up to `oldsz`, if it has turns
enough. -/
theorem Pages.wp_deallocuvmLoop (L : MemLayout) (hp : m.Pages P dirs other held)
    (hd : dirs h = some d) (hR : ∀ f ∈ P, ¬ L.Frees f → R .kfree) {oldsz : ℕ}
    (hold : oldsz ≤ KERNBASE) {turns : ℕ} (hturns : oldsz ≤ (k + turns) * PGSIZE) :
    wp (deallocuvmLoop L d oldsz turns (k * PGSIZE)) (fun _ m' =>
      m'.Pages P dirs other held ∧ Unmapped dirs other held h k oldsz m m') R m := by
  induction turns generalizing m k with
  | zero => exact ⟨hp, Unmapped.refl hturns⟩
  | succ turns ih =>
    unfold deallocuvmLoop
    split
    swap
    · next hlt => exact ⟨hp, Unmapped.refl (Nat.not_lt.mp hlt)⟩
    next hlt =>
    have hk : k < 2 ^ 19 := by
      simp only [KERNBASE, PGSIZE] at hold hlt
      omega
    rw [wp_bind, wp_walkpgdir_find, PDX_page (by omega), PTX_page]
    cases ht : m.entry d (k / 1024) with
    | none =>
      -- the next page table
      have hturns' : oldsz ≤ ((k / 1024 + 1) * 1024 + turns) * PGSIZE :=
        hturns.trans (Nat.mul_le_mul_right PGSIZE (by omega))
      rw [Option.map_none]
      simp only [mul_pow_page]
      refine (ih hp hturns').imp (fun _ m' ⟨hp', hun⟩ => ⟨hp', fun q hq hlt => ?_, ?_⟩)
      · by_cases hnext : (k / 1024 + 1) * 1024 ≤ q
        · exact hun.gone q hnext hlt
        · rw [hun.leaves.user q (.inl (by omega))]
          exact mapped_of_no_table hd (by rw [show q / 1024 = k / 1024 by omega]; exact ht)
      · exact hun.leaves.mono (Set.Subset.refl _) (fun q hq => hq.imp_left (by omega))
    | some t =>
      have hj : k % 1024 < NPDENTRIES := Nat.mod_lt k (by decide)
      have hi : k / 1024 < NUPDENTRIES := by
        unfold NUPDENTRIES
        omega
      have hnext : k * PGSIZE + PGSIZE = (k + 1) * PGSIZE := (Nat.succ_mul k PGSIZE).symm
      have hturns' : oldsz ≤ (k + 1 + turns) * PGSIZE := by
        rw [Nat.add_right_comm, Nat.add_assoc]
        exact hturns
      -- what is left, from a memory in which page `k` is not mapped
      have hrest : ∀ m₁ : Ram, m₁.Pages P dirs other held → m₁.mapped dirs h k = none →
          Leaves dirs other held h (fun q => q ≠ k) m m₁ →
          wp (deallocuvmLoop L d oldsz turns (k * PGSIZE + PGSIZE)) (fun _ m' =>
            m'.Pages P dirs other held ∧ Unmapped dirs other held h k oldsz m m') R m₁ := by
        intro m₁ hp₁ hself hleaves
        rw [hnext]
        refine (ih hp₁ hturns').imp (fun _ m' ⟨hp', hun⟩ => ⟨hp', fun q hq hq' => ?_, ?_⟩)
        · by_cases hqk : q = k
          · rw [hun.leaves.user q (.inl (by omega)), hqk, hself]
          · exact hun.gone q (by omega) hq'
        · refine (hleaves.mono (Set.Subset.refl _) (fun q hq => ?_)).trans
            (hun.leaves.mono (Set.Subset.refl _) (fun q hq => hq.imp_left (by omega)))
          rintro rfl
          omega
      simp only [Option.map_some, wp_bind, wp_load]
      split
      · next hpte =>
        have hf : m.entry t (k % 1024) = _ := pageEntry_of_pteP hj hpte
        have hmapped := (mapped_of_table hd hk ht).trans hf
        have hfrees := hR _ (hp.mem_of_owner ((mapped_eq m dirs other h k).symm.trans hmapped)).1
        split
        · next hzero => exact hfrees (fun hf => hf.1 hzero)
        · rw [wp_bind]
          refine wp_kfree L hfrees ?_
          rw [wp_bind, wp_store]
          obtain ⟨hp₁, hself, -⟩ := hp.unmap hd ht hi hj hf (fun _ _ => 1) rfl
          exact hrest _ hp₁ hself (hp.leaves_unmap hd ht hmapped (fun _ _ => 1) rfl)
      · next hpte =>
        refine hrest m hp ?_ (.refl m)
        rw [mapped_of_table hd hk ht]
        exact pageEntry_of_not_pteP hpte

/-- **`deallocuvm`.** -/
theorem Pages.wp_deallocuvm (L : MemLayout) (hp : m.Pages P dirs other held)
    (hd : dirs h = some d) (hR : ∀ f ∈ P, ¬ L.Frees f → R .kfree) {oldsz : ℕ}
    (hold : oldsz ≤ KERNBASE) (newsz : ℕ) :
    wp (deallocuvm L d oldsz newsz) (fun r m' => r = min oldsz newsz ∧
      m'.Pages P dirs other held ∧ Unmapped dirs other held h (npages newsz) oldsz m m') R m := by
  unfold deallocuvm
  split
  · next hle =>
    exact ⟨(Nat.min_eq_left hle).symm, hp, Unmapped.refl (hle.trans (le_npages_mul newsz))⟩
  · next hle =>
    have hle := Nat.not_le.mp hle
    simp only [wp_bind]
    rw [PGROUNDUP_eq (hle.le.trans hold)]
    have hturns : oldsz ≤ (npages newsz + (oldsz - npages newsz * PGSIZE + (PGSIZE - 1)) / PGSIZE)
        * PGSIZE := by
      unfold PGSIZE
      omega
    refine (hp.wp_deallocuvmLoop L hd hR hold hturns).imp (fun _ m' h' => ?_)
    exact ⟨(Nat.min_eq_right hle.le).symm, h'⟩

/-- The pages of a directory but for the tables that are freed. -/
def leftPages (m : Ram) (d : Frame) (done : Set ℕ) : Set Frame :=
  {f | f = d ∨ ∃ i, i ∉ done ∧ m.entry d i = some f}

/-- **The loop of `freevm`** frees the page tables that a directory names. The
directory has no holder any more; `m₀` is memory before the loop. -/
theorem Pages.wp_freeTables (L : MemLayout) {m₀ : Ram} (hR : ∀ f ∈ P, ¬ L.Frees f → R .kfree)
    (hheld : ∀ {i t}, m₀.entry d i = some t → t ∉ held)
    (hne : ∀ {i t}, m₀.entry d i = some t → t ≠ d)
    (hinj : ∀ {i i' t}, m₀.entry d i = some t → m₀.entry d i' = some t → i' = i)
    {l : List ℕ} (hl : l.Nodup) (hlt : ∀ i, i ∈ l ↔ i < NPDENTRIES)
    (hp : m₀.Pages P dirs other (held ∪ leftPages m₀ d ∅)) :
    wp (l.forM (freeTable L d)) (fun _ m' => m'.Pages P dirs other (insert d held) ∧
      ∀ f ∉ dirPages m₀ d, m'.page f = m₀.page f) R m₀ := by
  have hall : held ∪ leftPages m₀ d {i | i ∈ l} = insert d held := by
    ext f
    rw [Set.mem_union, Set.mem_insert_iff, or_comm]
    refine or_congr_left ⟨?_, .inl⟩
    rintro (hf | ⟨i, hi, hf⟩)
    · exact hf
    · exact absurd ((hlt i).mpr (pageEntry_eq_some.mp hf).1) hi
  refine (wp_forM_set hl (I := fun done (m' : Ram) => m'.page d = m₀.page d ∧
    m'.Pages P dirs other (held ∪ leftPages m₀ d done) ∧
    ∀ f ∉ dirPages m₀ d, m'.page f = m₀.page f) ?_ ⟨rfl, hp, fun _ _ => rfl⟩).imp
      (fun _ m' hpost => ⟨hall ▸ hpost.2.1, hpost.2.2⟩)
  rintro done i m₁ hi hnew ⟨hpage, hp₁, hsame⟩
  unfold freeTable
  simp only [wp_bind, wp_load]
  rw [hpage]
  split
  · next hpte =>
    have ht : m₀.entry d i = _ := pageEntry_of_pteP ((hlt i).mp hi) hpte
    have hmem : pteFrame ((m₀.page d).word i) ∈ held ∪ leftPages m₀ d done :=
      .inr (.inr ⟨i, hnew, ht⟩)
    refine wp_kfree L (hR _ (hp₁.mem_of_held hmem).1)
      ⟨(if_neg (hne ht).symm).trans hpage, ?_, fun f hf => ?_⟩
    · have hset : held ∪ leftPages m₀ d (insert i done)
          = (held ∪ leftPages m₀ d done) \ {pteFrame ((m₀.page d).word i)} := by
        -- no other word of the directory names the table
        have hheld := hheld ht
        have hne := hne ht
        have hinj := fun i' => @hinj i i' _ ht
        ext f
        simp only [leftPages, Set.mem_union, Set.mem_sdiff, Set.mem_singleton_iff, Set.mem_insert_iff,
          Set.mem_ofPred_eq]
        grind
      rw [hset]
      exact hp₁.release hmem (fun _ _ => 1)
    · refine (if_neg (fun heq => hf ?_)).trans (hsame f hf)
      exact .inr ⟨i, heq ▸ ht⟩
  · next hpte =>
    have hset : leftPages m₀ d (insert i done) = leftPages m₀ d done := by
      have hnone : m₀.entry d i = none := pageEntry_of_not_pteP hpte
      ext f
      simp only [leftPages, Set.mem_insert_iff, Set.mem_ofPred_eq]
      grind
    rw [hset]
    exact ⟨hpage, hp₁, hsame⟩

/-- A directory below `KERNBASE` is empty. -/
theorem Unmapped.empty {m₁ : Ram} (hun : Unmapped dirs other held h (npages 0) KERNBASE m m₁)
    (i j : ℕ) : m₁.owner dirs other (.user h i j) = none := by
  by_cases hij : i < NUPDENTRIES ∧ j < NPDENTRIES
  · have hdiv : (i * 1024 + j) / 1024 = i := by
      unfold NPDENTRIES at hij
      omega
    have hmod : (i * 1024 + j) % 1024 = j := by
      unfold NPDENTRIES at hij
      omega
    have hgone := hun.gone (i * 1024 + j) (Nat.zero_le _) (by
      unfold NUPDENTRIES NPDENTRIES at hij
      unfold PGSIZE KERNBASE
      omega)
    rw [mapped_eq m₁ dirs other, hdiv, hmod] at hgone
    exact hgone
  · cases howner : m₁.owner dirs other (.user h i j) with
    | none => rfl
    | some f =>
      obtain ⟨hi, d', t, -, -, hf⟩ := owner_user_eq_some howner
      exact absurd ⟨hi, (pageEntry_eq_some.mp hf).1⟩ hij

/-- Writes to a directory and its page tables leave the others alone. -/
theorem Pages.leaves_of_dirPages (hp : m.Pages P dirs other held) (hd : dirs h = some d)
    (hpage : ∀ f ∉ dirPages m d, m'.page f = m.page f) :
    Leaves dirs other held h (fun _ => False) m m' := by
  have hnot : ∀ (place : Home H X) {f : Frame}, place.holder ≠ some h →
      m.owner dirs other place = some f → f ∉ dirPages m d := by
    rintro place f hne hf (rfl | ⟨i, hi⟩)
    · have hdir : m.owner dirs other (.dir h) = some f := hd
      exact hne (congrArg Home.holder (hp.ledger.unique hf hdir))
    · exact hne (congrArg Home.holder (hp.ledger.unique hf ((owner_table hd i).trans hi)))
  have hsame : ∀ {h' d'}, h' ≠ h → dirs h' = some d' → m'.page d' = m.page d' ∧
      ∀ {i t}, m.entry d' i = some t → m'.page t = m.page t := by
    intro h' d' hne hd'
    have hne : some h' ≠ some h := fun heq => hne (Option.some.inj heq)
    refine ⟨hpage d' (hnot (.dir h') hne hd'), fun {i t} ht => ?_⟩
    exact hpage t (hnot (.table h' i) hne ((owner_table hd' i).trans ht))
  have hdir : ∀ {h' d'} (i : ℕ), h' ≠ h → dirs h' = some d' → m'.entry d' i = m.entry d' i := by
    intro h' d' i hne hd'
    unfold entry
    rw [(hsame hne hd').1]
  refine .of_pages (fun place hne => ?_) (fun _ hk => hk.elim) (fun f hf => hpage f ?_)
  · cases place with
    | other x => rfl
    | dir h' => rfl
    | table h' i =>
      have hne : h' ≠ h := fun heq => hne (congrArg some heq)
      exact owner_table_congr (hdir i hne)
    | user h' i j =>
      have hne : h' ≠ h := fun heq => hne (congrArg some heq)
      refine owner_user_congr (hdir i hne) (fun {d' t} hd' _ ht => ?_)
      unfold entry
      rw [(hsame hne hd').2 ht]
  · rcases hf with ⟨place, hne, hf⟩ | hf | ⟨k, hk, -⟩
    · exact hnot place hne hf
    · rintro (rfl | ⟨i, hi⟩)
      · exact hp.ledger.apart (p := .dir h) hd hf
      · exact hp.ledger.apart ((owner_table hd i).trans hi) hf
    · exact hk.elim

/-- **`freevm`** frees a directory with all its pages. -/
theorem Pages.wp_freevm [DecidableEq H] (L : MemLayout) (hp : m.Pages P dirs other held)
    (hd : dirs h = some d) (hR : ∀ f ∈ P, ¬ L.Frees f → R .kfree) :
    wp (freevm L (some d)) (fun _ m' => m'.Pages P (update dirs h none) other held ∧
      Leaves dirs other held h (fun _ => False) m m') R m := by
  unfold freevm
  refine (hp.wp_deallocuvm L hd hR (le_refl _) 0).bind (fun _ m₁ hpost => ?_)
  have hp₁ := hpost.2.1
  have hun := hpost.2.2
  have hdheld : d ∉ held := hp₁.ledger.apart (p := .dir h) hd
  have hleft : leftPages m₁ d ∅ = dirPages m₁ d := by
    ext f
    simp only [leftPages, dirPages, Set.mem_ofPred_eq, Set.mem_empty_iff_false, not_false_eq_true,
      true_and]
  have hp₂ := hp₁.dropDir hd (fun i j => hun.empty i j)
  rw [← hleft] at hp₂
  have hnodup : (List.range NPDENTRIES).Nodup := List.nodup_range
  have hmem : ∀ i, i ∈ List.range NPDENTRIES ↔ i < NPDENTRIES := fun _ => List.mem_range
  rw [wp_bind]
  -- the list is not to be computed
  generalize List.range NPDENTRIES = l at hnodup hmem ⊢
  refine (hp₂.wp_freeTables L hR (fun ht => hp₁.ledger.apart ((owner_table hd _).trans ht))
    (hp₁.table_ne_dir hd hd) (fun ht ht' => (hp₁.table_inj hd ht hd ht').2) hnodup
    hmem).imp (fun _ m₂ ⟨hp₃, hpage⟩ => ?_)
  have hd₃ := Set.mem_insert d held
  refine wp_kfree L (hR _ (hp₃.mem_of_held hd₃).1) ⟨?_, ?_⟩
  · have hp₄ := hp₃.release hd₃ (fun _ _ => 1)
    rw [Set.insert_sdiff_self_of_notMem hdheld] at hp₄
    exact hp₄
  · refine (hun.leaves.mono (Set.Subset.refl _) (fun _ hk => hk.elim)).trans
      (hp₁.leaves_of_dirPages hd (fun f hf => ?_))
    exact (if_neg (fun heq => hf (.inl heq))).trans (hpage f hf)

/-! ## `setupkvm` -/

/-- A mapping in the kernel's part of a directory. -/
structure Kmap.Valid (k : Kmap) : Prop where
  virt : KERNBASE ≤ k.virt
  aligned : k.virt % PGSIZE = 0
  size_pos : 0 < (k.physEnd + (2 ^ 32 - k.physStart)) % 2 ^ 32
  last : k.virt + (k.physEnd + (2 ^ 32 - k.physStart)) % 2 ^ 32 ≤ 2 ^ 32
  phys : k.physStart % PGSIZE = 0
  perm : pteU k.perm = false

theorem kmap_valid (L : MemLayout) (h : KERNBASE + L.PHYSTOP ≤ L.DEVSPACE) :
    ∀ k ∈ kmap L, k.Valid := by
  have hext := L.extmem_aligned
  have hdata := L.data_aligned
  have hdev := L.devspace_aligned
  have hpos := L.extmem_pos
  have hlink := L.kernlink_lt_data
  have hstop := L.data_lt_phystop
  have hlt := L.devspace_lt
  have hW : pteU PTE_W = false := rfl
  have h0 : pteU 0 = false := rfl
  unfold KERNBASE PGSIZE at *
  intro k hk
  simp only [kmap, List.mem_cons, List.not_mem_nil, or_false] at hk
  rcases hk with rfl | rfl | rfl | rfl <;> constructor <;>
    simp only [KERNBASE, PGSIZE, hW, h0] <;> omega

/-- The mappings are made from the bottom up. -/
theorem kmap_sorted (L : MemLayout) (h : KERNBASE + L.PHYSTOP ≤ L.DEVSPACE) :
    (kmap L).Pairwise (fun k k' =>
      k.virt + (k.physEnd + (2 ^ 32 - k.physStart)) % 2 ^ 32 ≤ k'.virt) := by
  have hlink := L.kernlink_lt_data
  have hstop := L.data_lt_phystop
  have hlt := L.devspace_lt
  unfold KERNBASE at *
  simp only [kmap, List.pairwise_cons, List.mem_cons, List.not_mem_nil, or_false, forall_eq_or_imp,
    forall_eq, KERNBASE]
  refine ⟨⟨?_, ?_, ?_⟩, ⟨?_, ?_⟩, ?_, ?_, List.Pairwise.nil⟩
  all_goals first | omega | exact fun _ h => h.elim

/-- The loop of `setupkvm`: the directory is set up, or freed. No page is mapped
where a mapping still to come is. -/
theorem Pages.wp_setupkvmLoop [DecidableEq H] (L : MemLayout)
    (hR : ∀ f ∈ P, ¬ L.Frees f → R .kfree) (hh : dirs h = none) {ks : List Kmap}
    (hks : ∀ k ∈ ks, k.Valid) (hsorted : ks.Pairwise (fun k k' =>
      k.virt + (k.physEnd + (2 ^ 32 - k.physStart)) % 2 ^ 32 ≤ k'.virt))
    (hfree : ∀ k ∈ ks, ∀ q, k.virt ≤ q * PGSIZE → m.pteWord d q = 0)
    (hp : m.Pages P (update dirs h (some d)) other held) :
    wp (setupkvmLoop L d ks) (fun r m' =>
      (r = none ∧ m'.Pages P dirs other held ∧ Leaves dirs other held h (fun _ => False) m m') ∨
      (r = some d ∧ m'.Pages P (update dirs h (some d)) other held ∧
        Leaves (update dirs h (some d)) other held h (fun _ => True) m m')) R m := by
  have hd : update dirs h (some d) h = some d := update_self h _ dirs
  have hback : update dirs h none = dirs := by
    rw [← hh, update_eq_self]
  induction ks generalizing m with
  | nil => exact .inr ⟨rfl, hp, .refl m⟩
  | cons k ks ih =>
    have hk := hks k List.mem_cons_self
    obtain ⟨htop, hsorted⟩ := List.pairwise_cons.mp hsorted
    unfold setupkvmLoop
    simp only [wp_bind]
    refine (hp.wp_mappages_kernel hd hk.perm hk.virt hk.aligned hk.size_pos hk.last hk.phys
      (fun q hq hne => ?_)).imp
      (fun r m₁ h₁ => ?_)
    · rw [hfree k List.mem_cons_self q hq] at hne
      cases hne
    obtain ⟨hp₁, hleaves, hpte⟩ := h₁
    split
    · refine (hp₁.wp_freevm L hd hR).bind (fun _ m₂ h₂ => .inl ⟨rfl, ?_, ?_⟩) <;>
        obtain ⟨hp₂, hleaves₂⟩ := h₂
      · rw [update_idem, hback] at hp₂
        exact hp₂
      · have hall := ((hleaves.mono (Set.Subset.refl _) (fun _ hk => hk.elim)).trans
          hleaves₂).of_dirs none
        rw [hback] at hall
        exact hall
    · refine (ih (fun k hk => hks k (List.mem_cons_of_mem _ hk)) hsorted (fun k' hk' q hq => ?_)
        hp₁).imp (fun r m₂ h₂ => ?_)
      · rw [hpte q ((htop k' hk').trans hq)]
        exact hfree k' (List.mem_cons_of_mem _ hk') q hq
      · have hfirst := hleaves.of_dirs none
        rw [hback] at hfirst
        exact h₂.imp (fun h₂ => ⟨h₂.1, h₂.2.1, hfirst.trans h₂.2.2⟩)
          (fun h₂ => ⟨h₂.1, h₂.2.1, hleaves.trans h₂.2.2⟩)

/-- **`setupkvm`** makes a directory without user pages, or nothing. -/
theorem Pages.wp_setupkvm [DecidableEq H] (L : MemLayout) (hp : m.Pages P dirs other held)
    (hR : ∀ f ∈ P, ¬ L.Frees f → R .kfree)
    (hstop : L.DEVSPACE < KERNBASE + L.PHYSTOP → R .phystop) (hh : dirs h = none) :
    wp (setupkvm L) (fun r m' => Leaves dirs other held h (fun _ => False) m m' ∧
      ((r = none ∧ m'.Pages P dirs other held) ∨
      ∃ d, r = some d ∧ m'.Pages P (update dirs h (some d)) other held ∧
        ∀ k, m'.mapped (update dirs h (some d)) h k = none)) R m := by
  unfold setupkvm
  rw [wp_bind]
  refine hp.wp_kalloc (fun m₁ hpage hp₁ => ⟨.of_page_eq hpage, .inl ⟨rfl, hp₁⟩⟩)
    (fun f m₁ hpage hp₁ hf => ?_)
  simp only [wp_bind, wp_memset]
  split
  · next hlt => exact hstop hlt
  · next hle =>
    have hle := Nat.not_lt.mp hle
    have hmem := Set.mem_insert f held
    have hempty : ∀ i, (m₁.setPage f (fun _ _ => 0)).entry f i = none :=
      fun i => (entry_setPage_self _ i).trans (pageEntry_zero i)
    have hp₂ := (hp₁.setPage (hp₁.plain_of_held hmem) (fun _ _ => 0)).newDir hh hmem hempty
    have hleaves := hp₁.leaves_setPage_held (h := h) (K := fun _ => False) hmem (fun _ _ => 0)
    rw [Set.insert_sdiff_self_of_notMem hf] at hp₂ hleaves
    have hleaves := (Leaves.of_page_eq hpage).trans hleaves
    have hpte : ∀ q, (m₁.setPage f (fun _ _ => 0)).pteWord f q = 0 := by
      intro q
      unfold pteWord
      rw [hempty]
      rfl
    refine (hp₂.wp_setupkvmLoop L hR hh (kmap_valid L hle) (kmap_sorted L hle)
      (fun _ _ q _ => hpte q)).imp (fun r m₃ h₃ => ?_)
    rcases h₃ with ⟨hr, hp₃, hleaves₃⟩ | ⟨hr, hp₃, hleaves₃⟩
    · exact ⟨hleaves.trans hleaves₃, .inl ⟨hr, hp₃⟩⟩
    · have hrest := hleaves₃.of_dirs none
      rw [← hh, update_eq_self] at hrest
      refine ⟨hleaves.trans hrest, .inr ⟨f, hr, hp₃, fun k => ?_⟩⟩
      rw [hleaves₃.user k trivial]
      exact mapped_of_no_table (update_self h _ dirs) (hempty _)

end Ram

end Xv6
