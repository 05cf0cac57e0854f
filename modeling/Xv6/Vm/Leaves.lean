import Xv6.Vm.Owned

/-!
# What a function of `vm.c` leaves alone

A function of `vm.c` works on one page directory. It writes pages it has taken or
is about to free, the directory and its page tables, and sometimes a user page of
it. `Ram.Leaves` says what that leaves: every home of another holder has the page
it had, with the bytes it had, and so have the user pages in a given set. The
relation composes, so each function gets it from the writes it makes.
-/

namespace Xv6

open Function

/-- Who holds the directory a home belongs to. -/
def Home.holder {H X : Type} : Home H X → Option H
  | .dir h => some h
  | .table h _ => some h
  | .user h _ _ => some h
  | .other _ => none

namespace Ram

variable {H X : Type} {dirs : H → Option Frame} {other : X → Option Frame} {P held : Set Frame}
variable {m m' m'' : Ram} {h : H} {d t f : Frame} {i j : ℕ} {K : ℕ → Prop}

/-- The user page with a number, in the directory that `h` holds. -/
def mapped (m : Ram) (dirs : H → Option Frame) (h : H) (k : ℕ) : Option Frame :=
  m.owner (X := Empty) dirs (fun x => nomatch x) (.user h (k / 1024) (k % 1024))

theorem mapped_eq (m : Ram) (dirs : H → Option Frame) (other : X → Option Frame) (h : H) (k : ℕ) :
    m.mapped dirs h k = m.owner dirs other (.user h (k / 1024) (k % 1024)) := rfl

theorem user_ne_of_ne {k k' : ℕ} (hne : k' ≠ k) :
    (Home.user h (k' / 1024) (k' % 1024) : Home H X) ≠ .user h (k / 1024) (k % 1024) := by
  intro heq
  have heq := Home.user.inj heq
  omega

/-- The homes of other holders do not depend on the directory of one. -/
theorem owner_update_dirs [DecidableEq H] (m : Ram) (v : Option Frame) {place : Home H X}
    (hne : place.holder ≠ some h) :
    m.owner (update dirs h v) other place = m.owner dirs other place := by
  cases place with
  | other x => rfl
  | dir h' =>
    have hne : h' ≠ h := fun heq => hne (congrArg some heq)
    exact (Pages.owner_of_dirs_ne hne 0 0).1
  | table h' i =>
    have hne : h' ≠ h := fun heq => hne (congrArg some heq)
    exact (Pages.owner_of_dirs_ne hne i 0).2.1
  | user h' i j =>
    have hne : h' ≠ h := fun heq => hne (congrArg some heq)
    exact (Pages.owner_of_dirs_ne hne i j).2.2

/-- Who has no directory has no pages. -/
theorem owner_of_no_dir {place : Home H X} (hplace : place.holder = some h) (hh : dirs h = none) :
    m.owner dirs other place = none := by
  cases place with
  | other x => cases hplace
  | dir h' =>
    cases hplace
    exact hh
  | table h' i =>
    cases hplace
    show (dirs h).bind _ = none
    rw [hh]
    rfl
  | user h' i j =>
    cases hplace
    show (if _ then ((dirs h).bind _).bind _ else _) = none
    rw [hh]
    exact ite_self _

/-- **What is left alone** by a function that works on the directory of `h`: the
homes of other holders, the pages in `held`, and the user pages in `K`. -/
structure Leaves (dirs : H → Option Frame) (other : X → Option Frame) (held : Set Frame) (h : H)
    (K : ℕ → Prop) (m m' : Ram) : Prop where
  owner : ∀ place, place.holder ≠ some h → m'.owner dirs other place = m.owner dirs other place
  page : ∀ place f, place.holder ≠ some h → m.owner dirs other place = some f →
    m'.page f = m.page f
  held : ∀ f ∈ held, m'.page f = m.page f
  user : ∀ k, K k → m'.mapped dirs h k = m.mapped dirs h k
  userPage : ∀ k f, K k → m.mapped dirs h k = some f → m'.page f = m.page f

namespace Leaves

theorem refl (m : Ram) : Leaves dirs other held h K m m :=
  ⟨fun _ _ => rfl, fun _ _ _ _ => rfl, fun _ _ => rfl, fun _ _ => rfl, fun _ _ _ _ => rfl⟩

theorem trans (h₁ : Leaves dirs other held h K m m') (h₂ : Leaves dirs other held h K m' m'') :
    Leaves dirs other held h K m m'' where
  owner place hne := (h₂.owner place hne).trans (h₁.owner place hne)
  page place f hne hf :=
    (h₂.page place f hne ((h₁.owner place hne).trans hf)).trans (h₁.page place f hne hf)
  held f hf := (h₂.held f hf).trans (h₁.held f hf)
  user k hk := (h₂.user k hk).trans (h₁.user k hk)
  userPage k f hk hf :=
    (h₂.userPage k f hk ((h₁.user k hk).trans hf)).trans (h₁.userPage k f hk hf)

theorem mono (h₁ : Leaves dirs other held h K m m') {held' : Set Frame} {K' : ℕ → Prop}
    (hheld : held' ⊆ held) (hK : ∀ k, K' k → K k) : Leaves dirs other held' h K' m m' where
  owner := h₁.owner
  page := h₁.page
  held f hf := h₁.held f (hheld hf)
  user k hk := h₁.user k (hK k hk)
  userPage k f hk hf := h₁.userPage k f (hK k hk) hf

/-- What matters is which pages are written. -/
theorem of_pages (howner : ∀ place, place.holder ≠ some h →
      m'.owner dirs other place = m.owner dirs other place)
    (huser : ∀ k, K k → m'.mapped dirs h k = m.mapped dirs h k)
    (hpage : ∀ f, ((∃ place : Home H X, place.holder ≠ some h ∧
      m.owner dirs other place = some f) ∨ f ∈ held ∨ ∃ k, K k ∧ m.mapped dirs h k = some f) →
      m'.page f = m.page f) : Leaves dirs other held h K m m' where
  owner := howner
  page place f hne hf := hpage f (.inl ⟨place, hne, hf⟩)
  held f hf := hpage f (.inr (.inl hf))
  user := huser
  userPage k f hk hf := hpage f (.inr (.inr ⟨k, hk, hf⟩))

/-- Nothing is written. -/
theorem of_page_eq (hpage : m'.page = m.page) : Leaves dirs other held h K m m' := by
  have hsame : SameTables dirs m m' := ⟨fun _ => hpage ▸ rfl, fun _ _ => hpage ▸ rfl⟩
  refine of_pages (fun place _ => ?_) (fun k _ => ?_) (fun f _ => congrFun hpage f)
  · rw [hsame.owner_eq]
  · rw [mapped_eq m' dirs other, hsame.owner_eq]
    rfl

/-- Which directory `h` holds does not matter to the others. -/
theorem of_dirs [DecidableEq H] {v : Option Frame}
    (h₁ : Leaves (update dirs h v) other held h K m m') (v' : Option Frame) :
    Leaves (update dirs h v') other held h (fun _ => False) m m' := by
  refine ⟨fun place hne => ?_, fun place f hne hf => ?_, h₁.held, fun _ hk => hk.elim,
    fun _ _ hk => hk.elim⟩
  · have howner := h₁.owner place hne
    rw [owner_update_dirs m' _ hne, owner_update_dirs m _ hne] at howner ⊢
    exact howner
  · refine h₁.page place f hne ?_
    rw [owner_update_dirs m _ hne] at hf ⊢
    exact hf

end Leaves

namespace Pages

variable (hp : m.Pages P dirs other held)

include hp

/-- The pages at two homes are different. -/
theorem ne_of_place_ne {place place' : Home H X} {f g : Frame}
    (hf : m.owner dirs other place = some f) (hg : m.owner dirs other place' = some g)
    (hne : place ≠ place') : f ≠ g := by
  rintro rfl
  exact hne (hp.ledger.unique hf hg)

/-- The pages that are free are those nobody has. -/
theorem mem_freelist_iff :
    f ∈ m.freelist ↔ f ∈ P ∧ f ∉ held ∧ ∀ place, m.owner dirs other place ≠ some f := by
  have hused := hp.ledger.mem_used f
  constructor
  · intro hfree
    refine ⟨hp.free f hfree, fun hheld => ?_, fun place hf => ?_⟩
    · exact (hp.mem_of_held hheld).2 hfree
    · exact (hp.mem_of_owner hf).2 hfree
  · rintro ⟨hP, hheld, howner⟩
    by_contra hfree
    rcases hused.mp ⟨hP, hfree⟩ with hf | ⟨place, hf⟩
    · exact hheld hf
    · exact howner place hf

/-- **The pages of a directory that is gone are free.** -/
theorem mem_freelist_of_dropped [DecidableEq H] (hp' : m'.Pages P (update dirs h none) other held)
    (hleaves : Leaves dirs other held h K m m') {place : Home H X}
    (hplace : place.holder = some h) (hf : m.owner dirs other place = some f) :
    f ∈ m'.freelist := by
  refine hp'.mem_freelist_iff.mpr ⟨(hp.mem_of_owner hf).1, hp.ledger.apart hf, fun place' hf' => ?_⟩
  by_cases hne : place'.holder = some h
  · rw [owner_of_no_dir hne (update_self h none dirs)] at hf'
    cases hf'
  · rw [owner_update_dirs m' none hne, hleaves.owner place' hne] at hf'
    exact hne (hp.ledger.unique hf' hf ▸ hplace)

/-- A page that is held is written. -/
theorem leaves_setPage_held (hf : f ∈ held) (x : Page → Page) :
    Leaves dirs other (held \ {f}) h K m (m.setPage f x) := by
  have hsame := sameTables_setPage (hp.plain_of_held hf) x
  refine .of_pages (fun place _ => ?_) (fun k _ => ?_) (fun g hg => ?_)
  · rw [hsame.owner_eq]
  · rw [mapped_eq _ dirs other, hsame.owner_eq]
    rfl
  · refine if_neg ?_
    rcases hg with ⟨place, -, hg⟩ | hg | ⟨k, -, hg⟩
    · exact fun heq => hp.ledger.apart hg (heq ▸ hf)
    · exact hg.2
    · exact fun heq => hp.ledger.apart ((mapped_eq m dirs other h k).symm.trans hg) (heq ▸ hf)

/-- A page that is held is freed. -/
theorem leaves_release (hf : f ∈ held) (x : Page → Page) :
    Leaves dirs other (held \ {f}) h K m { m.setPage f x with freelist := f :: m.freelist } :=
  (hp.leaves_setPage_held hf x).trans (Leaves.of_page_eq rfl)

/-- A user page is written. -/
theorem leaves_setPage_user {k : ℕ} (hf : m.mapped dirs h k = some f) (x : Page → Page) :
    Leaves dirs other held h (fun k' => k' ≠ k) m (m.setPage f x) := by
  rw [mapped_eq m dirs other] at hf
  have hsame := sameTables_setPage (hp.plain_of_user hf) x
  refine .of_pages (fun place _ => ?_) (fun k' _ => ?_) (fun g hg => ?_)
  · rw [hsame.owner_eq]
  · rw [mapped_eq _ dirs other, hsame.owner_eq]
    rfl
  · refine if_neg ?_
    rcases hg with ⟨place, hne, hg⟩ | hg | ⟨k', hk', hg⟩
    · exact hp.ne_of_place_ne hg hf (fun heq => hne (congrArg Home.holder heq))
    · exact fun heq => hp.ledger.apart hf (heq ▸ hg)
    · exact hp.ne_of_place_ne ((mapped_eq m dirs other h k').symm.trans hg) hf (user_ne_of_ne hk')

variable (hd : dirs h = some d)

include hd

/-- A page table is written. -/
theorem leaves_setPage_table (ht : m.entry d i = some t) (x : Page → Page)
    (howner : ∀ place, place.holder ≠ some h →
      (m.setPage t x).owner dirs other place = m.owner dirs other place)
    (huser : ∀ k, K k → (m.setPage t x).mapped dirs h k = m.mapped dirs h k) :
    Leaves dirs other held h K m (m.setPage t x) := by
  have htable : m.owner dirs other (.table h i) = some t := (owner_table hd i).trans ht
  refine .of_pages howner huser (fun g hg => if_neg ?_)
  rcases hg with ⟨place, hne, hg⟩ | hg | ⟨k, hk, hg⟩
  · exact hp.ne_of_place_ne hg htable (fun heq => hne (congrArg Home.holder heq))
  · exact fun heq => hp.ledger.apart htable (heq ▸ hg)
  · exact hp.ne_of_place_ne ((mapped_eq m dirs other h k).symm.trans hg) htable nofun

/-- A word of a page table is written. -/
theorem leaves_setWord (ht : m.entry d i = some t) (w : ℕ) (hK : ∀ k, K k →
      (Home.user h (k / 1024) (k % 1024) : Home H X) ≠ .user h i j ∨ NUPDENTRIES ≤ i) :
    Leaves dirs other held h K m (m.setPage t (fun x => x.setWord j w)) := by
  refine hp.leaves_setPage_table hd ht _ (fun place hne => ?_) (fun k hk => ?_)
  · exact hp.owner_setWord_of_ne hd ht w (.inl (fun heq => hne (congrArg Home.holder heq)))
  · exact hp.owner_setWord_of_ne hd ht w (hK k hk)

/-- The flags of a word change. -/
theorem leaves_setFlags (ht : m.entry d i = some t) (hi : i < NUPDENTRIES) (hj : j < NPDENTRIES)
    {w : ℕ} (hw : w < 2 ^ 32) (hpw : pteP w = pteP ((m.page t).word j))
    (hfw : pteFrame w = pteFrame ((m.page t).word j)) :
    Leaves dirs other held h K m (m.setPage t (fun x => x.setWord j w)) := by
  have howner := hp.owner_setFlags hd ht hi hj hw hpw hfw
  refine hp.leaves_setPage_table hd ht _ (fun place _ => congrFun howner place) (fun k _ => ?_)
  exact congrFun howner (.user h (k / 1024) (k % 1024))

/-- A page table is added. -/
theorem leaves_newTable (hf : f ∈ held) (w : ℕ) (hrest : ∀ place, place ≠ .table h i →
      ((m.setPage f (fun _ _ => 0)).setPage d (fun x => x.setWord i w)).owner dirs other place
        = m.owner dirs other place) :
    Leaves dirs other (held \ {f}) h K m
      ((m.setPage f (fun _ _ => 0)).setPage d (fun x => x.setWord i w)) := by
  have hdir : m.owner dirs other (.dir h) = some d := hd
  refine .of_pages (fun place hne => ?_) (fun k _ => ?_) (fun g hg => ?_)
  · exact hrest place (fun heq => hne (congrArg Home.holder heq))
  · exact hrest (.user h (k / 1024) (k % 1024)) nofun
  · have hne : g ≠ d ∧ g ≠ f := by
      rcases hg with ⟨place, hne, hg⟩ | hg | ⟨k, hk, hg⟩
      · exact ⟨hp.ne_of_place_ne hg hdir (fun heq => hne (congrArg Home.holder heq)),
          fun heq => hp.ledger.apart hg (heq ▸ hf)⟩
      · exact ⟨fun heq => hp.ledger.apart hdir (heq ▸ hg.1), hg.2⟩
      · have hg := (mapped_eq m dirs other h k).symm.trans hg
        exact ⟨hp.ne_of_place_ne hg hdir nofun, fun heq => hp.ledger.apart hg (heq ▸ hf)⟩
    exact (if_neg hne.1).trans (if_neg hne.2)

/-- A user page is freed and its word cleared. -/
theorem leaves_unmap {k : ℕ} (ht : m.entry d (k / 1024) = some t) (hk : m.mapped dirs h k = some f)
    (x : Page → Page) (hm' : m' = Ram.setPage t (fun x => x.setWord (k % 1024) 0)
      { m.setPage f x with freelist := f :: m.freelist }) :
    Leaves dirs other held h (fun k' => k' ≠ k) m m' := by
  have hplain := hp.plain_of_user ((mapped_eq m dirs other h k).symm.trans hk)
  have hsame := sameTables_setPage hplain x
  have hp₁ := hp.setPage hplain x
  have ht₁ : (m.setPage f x).entry d (k / 1024) = some t := (hsame.entry hd _).trans ht
  have hfirst := hp.leaves_setPage_user hk x
  have hword : Leaves dirs other held h (fun k' => k' ≠ k) (m.setPage f x)
      ((m.setPage f x).setPage t (fun x => x.setWord (k % 1024) 0)) :=
    hp₁.leaves_setWord hd ht₁ 0 (fun k' hne => .inl (user_ne_of_ne hne))
  refine (hfirst.trans hword).trans (Leaves.of_page_eq ?_)
  rw [hm']
  rfl

end Pages

end Ram

end Xv6
