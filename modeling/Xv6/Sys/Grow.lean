import Xv6.Sys.Runs

/-!
# When `growproc` is all or nothing

`sbrk` is to give a process the size it asked for, or leave it as it was. The
process has its user pages below its size; `growproc` adds an `int` to the size
in unsigned arithmetic, and takes the size 0 that `allocuvm` and `deallocuvm`
return for a failure.

Growing is all or nothing: `allocuvm` takes back the pages it mapped. Shrinking
is so as long as something is left. A process that gives up its last byte is told
-1 with its pages gone, and one that gives up more is told 0 with its size as it
was, as the sum wraps around to a size above the old one. Nothing else goes wrong.
-/

namespace Xv6

open Function

open Wp

namespace Sys

variable {L : MemLayout} {s s' : Sys} {P : Set Frame} {p : Slot} {n : ℤ}

/-! ## The memory of a process -/

/-- The user page of a process with a number. -/
def userPage (s : Sys) (p : Slot) (q : ℕ) : Option Frame := s.ram.mapped (s.dirs none) (some p) q

/-- The byte at an address of a process. -/
def userByte (s : Sys) (p : Slot) (a : ℕ) : Option UInt8 :=
  (s.userPage p (a / PGSIZE)).map (fun f => (s.ram.page f).byte (a % PGSIZE))

/-- **The user pages of a process are those below its size**, rounded up. -/
def Image (s : Sys) (p : Slot) : Prop :=
  ∀ q, s.userPage p q ≠ none ↔ q * PGSIZE < PGROUNDUP (s.proc p).sz

theorem image_iff_spans (hsz : (s.proc p).sz ≤ KERNBASE) :
    s.Image p ↔ s.ram.Spans (s.dirs none) (some p) (s.proc p).sz := by
  unfold Image Ram.Spans
  rw [PGROUNDUP_eq hsz]
  refine forall_congr' (fun q => iff_congr Iff.rfl ?_)
  exact Nat.mul_lt_mul_right (by decide)

section Leaves

variable {X : Type} {other : X → Option Frame} {held : Set Frame} {K : ℕ → Prop}

/-- A page that is left alone is read as before. -/
theorem userPage_of_leaves (hdirs : s'.dirs none = s.dirs none)
    (hleaves : Ram.Leaves (s.dirs none) other held (some p) K s.ram s'.ram) {q : ℕ} (hq : K q) :
    s'.userPage p q = s.userPage p q := by
  unfold userPage
  rw [hdirs]
  exact hleaves.user q hq

theorem userByte_of_leaves (hdirs : s'.dirs none = s.dirs none)
    (hleaves : Ram.Leaves (s.dirs none) other held (some p) K s.ram s'.ram) {a : ℕ}
    (ha : K (a / PGSIZE)) : s'.userByte p a = s.userByte p a := by
  unfold userByte
  rw [userPage_of_leaves hdirs hleaves ha]
  refine Option.map_congr (fun f hf => ?_)
  rw [hleaves.userPage _ f ha hf]

end Leaves

/-- The directories do not depend on sizes. -/
theorem dirs_setSize (s : Sys) (p : Slot) (sz : ℕ) (new : Option Frame) :
    (setProc p (fun x => { x with sz := sz }) s).dirs new = s.dirs new := by
  have hdir : Process.dir { s.proc p with sz := sz } = s.dirs new (some p) := rfl
  rw [dirs_of_update (p := p) (x := { s.proc p with sz := sz }) rfl, hdir, update_eq_self]

theorem sz_setSize (s : Sys) (p : Slot) (sz : ℕ) :
    ((setProc p (fun x => { x with sz := sz }) s).proc p).sz = sz := by
  simp only [setProc, update_self]

/-! ## What `growproc` is to do -/

/-- **All**: the size is the sum, the pages are those of the new size, what was
there is as it was, and what is new is zero. -/
structure Resized (p : Slot) (n : ℤ) (s s' : Sys) : Prop where
  size : ((s'.proc p).sz : ℤ) = (s.proc p).sz + n
  image : s'.Image p
  kept : ∀ a, a < min (s.proc p).sz (s'.proc p).sz → s'.userByte p a = s.userByte p a
  zero : ∀ a, s.userPage p (a / PGSIZE) = none → s'.userPage p (a / PGSIZE) ≠ none →
    s'.userByte p a = some 0

/-- **Nothing**: the size, the pages and what is in them are as they were. -/
structure Untouched (p : Slot) (s s' : Sys) : Prop where
  size : (s'.proc p).sz = (s.proc p).sz
  pages : ∀ q, s'.userPage p q = s.userPage p q
  bytes : ∀ a, s'.userByte p a = s.userByte p a

/-- **All or nothing**, as the result says: with `0` the process has its new size and the pages for
it, and with `-1` everything is as it was. -/
def AllOrNothing (p : Slot) (n : ℤ) (s : Sys) (r : ℤ) (s' : Sys) : Prop :=
  (r = 0 ∧ Resized p n s s') ∨ (r = -1 ∧ Untouched p s s')

variable {X : Type} {held : Set Frame}

variable {other : X → Option Frame}

/-- Pages are left alone or not there. -/
theorem Untouched.of_leaves {K : ℕ → Prop} (hproc : s'.proc = s.proc)
    (hleaves : Ram.Leaves (s.dirs none) other held (some p) K s.ram s'.ram)
    (hK : ∀ q, K q ∨ (s.userPage p q = none ∧ s'.userPage p q = none)) : Untouched p s s' := by
  have hdirs : s'.dirs none = s.dirs none := by
    unfold dirs
    rw [hproc]
  refine ⟨by rw [hproc], fun q => ?_, fun a => ?_⟩
  · rcases hK q with hq | ⟨hq, hq'⟩
    · exact userPage_of_leaves hdirs hleaves hq
    · rw [hq, hq']
  · rcases hK (a / PGSIZE) with hq | ⟨hq, hq'⟩
    · exact userByte_of_leaves hdirs hleaves hq
    · unfold userByte
      rw [hq, hq']
      rfl

/-! ## Growing -/

/-- The size that `growproc` asks for, if the sum does not wrap. -/
theorem newsz_of_nonneg {sum : ℤ} (hsum : 0 ≤ sum) (hlt : sum < 2 ^ 32) :
    ((sum % 2 ^ 32).toNat : ℤ) = sum := by
  rw [Int.emod_eq_of_lt hsum hlt, Int.toNat_of_nonneg hsum]

variable {m : Ram} {newsz : ℕ}

/-- The pages of the new size are there: those below both sizes are left alone,
and the others are gone, left alone or zeroed. -/
theorem Resized.of_leaves {K : ℕ → Prop} (hsum : (newsz : ℤ) = (s.proc p).sz + n)
    (hnew : newsz ≤ KERNBASE) (hspans : m.Spans (s.dirs none) (some p) newsz)
    (hleaves : Ram.Leaves (s.dirs none) other held (some p) K s.ram m)
    (hbelow : ∀ q, q * PGSIZE < min (s.proc p).sz newsz → K q)
    (hrest : ∀ q, ¬ K q → m.mapped (s.dirs none) (some p) q = none ∨
      ∃ f, m.mapped (s.dirs none) (some p) q = some f ∧ m.page f = Bytes.zero) :
    Resized p n s (setProc p (fun x => { x with sz := newsz }) { s with ram := m }) := by
  generalize hs' : setProc p (fun x => { x with sz := newsz }) { s with ram := m } = s'
  obtain rfl : s'.ram = m := by
    rw [← hs']
    rfl
  have hsz' : (s'.proc p).sz = newsz := by rw [← hs', sz_setSize]
  have hdirs : s'.dirs none = s.dirs none := by
    rw [← hs', dirs_setSize]
    rfl
  refine ⟨by rw [hsz', hsum], ?_, fun a ha => ?_, fun a hnone hsome => ?_⟩
  · rw [image_iff_spans (hsz'.trans_le hnew), hdirs, hsz']
    exact hspans
  · rw [hsz'] at ha
    exact userByte_of_leaves hdirs hleaves
      (hbelow _ ((Nat.div_mul_le_self a PGSIZE).trans_lt ha))
  · by_cases hK : K (a / PGSIZE)
    · rw [userPage_of_leaves hdirs hleaves hK] at hsome
      exact absurd hnone hsome
    · unfold userByte
      unfold userPage at hsome ⊢
      rw [hdirs] at hsome ⊢
      rcases hrest _ hK with hgone | ⟨f, hf, hzero⟩
      · exact absurd hgone hsome
      · rw [hf, Option.map_some, hzero, Bytes.byte_zero]

variable {d : Frame}

/-- **A process that grows.** -/
theorem AtRest.wp_growproc_pos (h : s.AtRest P) (hfree : ∀ f ∈ P, L.Frees f)
    (hp : (s.proc p).state = .RUNNABLE) (hd : (s.proc p).pgdir = some d) (himage : s.Image p)
    (hsz : (s.proc p).sz < KERNBASE) (hn : 0 < n) (hn' : n < 2 ^ 31) :
    wp (growproc L p n) (fun r s' => AllOrNothing p n s r s' ∧
      (r = 0 → (s.proc p).sz + n < KERNBASE)) (fun _ => False) s := by
  have hspans := (image_iff_spans hsz.le).mp himage
  have hsum : (((((s.proc p).sz : ℤ) + n) % 2 ^ 32).toNat : ℤ) = (s.proc p).sz + n :=
    newsz_of_nonneg (by omega) (by unfold KERNBASE at hsz; omega)
  unfold growproc
  rw [wp_bind, wp_get]
  dsimp only
  rw [wp_bind]
  generalize ((((s.proc p).sz : ℤ) + n) % 2 ^ 32).toNat = newsz at hsum ⊢
  refine wp_deref_some hd ?_
  rw [if_pos hn, wp_bind, wp_vm]
  refine (h.kept.pages.wp_allocuvm L (dir_of_runnable hp hd none)
    (fun f hf hnot => hnot (hfree f hf)) _ _
    (fun q hq _ hne => hne (hspans.eq_none hq))).imp (fun r m hpost => ?_)
  obtain ⟨-, ⟨hnew, hmax, hgrown⟩ | ⟨hzero, hfail⟩⟩ := hpost
  · rw [Nat.max_eq_right (by omega)] at hmax
    rw [if_neg (by omega), wp_bind, wp_modify, hmax]
    have hspans' := hgrown.spans hspans
    rw [Nat.max_eq_right (by omega)] at hspans'
    refine ⟨.inl ⟨rfl, .of_leaves hsum hnew.le hspans' hgrown.leaves (fun q hq => ?_)
      (fun q hK => ?_)⟩, fun _ => by omega⟩
    · exact .inl ((lt_npages_iff q _).mpr (hq.trans_le (min_le_left _ _)))
    · rw [not_or, Nat.not_lt, Nat.not_le] at hK
      exact .inr (hgrown.new q hK.1 hK.2)
  · rw [if_pos hzero]
    refine ⟨.inr ⟨rfl, ?_⟩, nofun⟩
    rcases hfail with rfl | hun
    · have hrefl : Ram.Leaves (s.dirs none) (s.others s.kstacks) ∅ (some p) (fun _ => True)
          s.ram s.ram := .refl _
      exact .of_leaves rfl hrefl (fun _ => .inl trivial)
    · refine .of_leaves rfl hun.leaves (fun q => ?_)
      by_cases hK : q < npages (s.proc p).sz ∨ newsz ≤ q * PGSIZE
      · exact .inl hK
      · rw [not_or, Nat.not_lt, Nat.not_le] at hK
        exact .inr ⟨hspans.eq_none hK.1, hun.gone q hK.1 hK.2⟩

/-- A process that has grown. -/
theorem AtRest.grown (h : s.AtRest P) (hfree : ∀ f ∈ P, L.Frees f) (hp : (s.proc p).state = .RUNNABLE)
    (hd : (s.proc p).pgdir = some d) (himage : s.Image p) (hsz : (s.proc p).sz < KERNBASE)
    (hn : 0 < n) (hn' : n < 2 ^ 31) (hr : (growproc L p n s).map Prod.fst = .ok 0)
    (hs' : s' = match growproc L p n s with
      | .ok (_, s) => s
      | .error _ => s) : s'.AtRest P ∧ s'.Image p := by
  cases hgrow : growproc L p n s with
  | error e =>
    rw [hgrow] at hr
    cases hr
  | ok x =>
    rw [hgrow] at hr hs'
    obtain rfl : s' = x.2 := hs'
    rw [show x = (0, x.2) from Prod.ext (Except.ok.inj hr) rfl] at hgrow
    have hall := ((h.wp_growproc_pos hfree hp hd himage hsz hn hn').ok hgrow).1
    obtain ⟨-, hresized⟩ := hall.resolve_right (fun hfail => by cases hfail.1)
    exact ⟨((h.wp_growproc L hp n).ok hgrow).1, hresized.image⟩

/-! ## Shrinking -/

/-- **A process that shrinks**: what `deallocuvm` returns is the new size, unless
it is zero. -/
theorem AtRest.wp_growproc_neg (h : s.AtRest P) (hfree : ∀ f ∈ P, L.Frees f)
    (hp : (s.proc p).state = .RUNNABLE) (hd : (s.proc p).pgdir = some d)
    (hsz : (s.proc p).sz < KERNBASE) (hn : n < 0)
    (hnewsz : ((((s.proc p).sz : ℤ) + n) % 2 ^ 32).toNat = newsz) :
    wp (growproc L p n) (fun r s' => ∃ m, Ram.Unmapped (s.dirs none) (s.others s.kstacks) ∅ (some p)
        (npages newsz) (s.proc p).sz s.ram m ∧
      ((min (s.proc p).sz newsz = 0 ∧ r = -1 ∧ s' = { s with ram := m }) ∨
      (min (s.proc p).sz newsz ≠ 0 ∧ r = 0 ∧ s' = setProc p (fun x =>
        { x with sz := min (s.proc p).sz newsz }) { s with ram := m }))) (fun _ => False) s := by
  unfold growproc
  rw [wp_bind, wp_get]
  dsimp only
  rw [wp_bind, hnewsz]
  refine wp_deref_some hd ?_
  rw [if_neg (by omega), if_pos hn, wp_bind, wp_vm]
  refine (h.kept.pages.wp_deallocuvm L (dir_of_runnable hp hd none)
    (fun f hf hnot => hnot (hfree f hf)) hsz.le newsz).imp (fun r m hpost => ?_)
  obtain ⟨hmin, -, hun⟩ := hpost
  rw [hmin]
  split
  · next hzero => exact ⟨m, hun, .inl ⟨hzero, rfl, rfl⟩⟩
  · next hne => exact ⟨m, hun, .inr ⟨hne, rfl, rfl⟩⟩

/-- What is left of a process that gives up some of its memory. -/
theorem Resized.of_unmapped (hsz : (s.proc p).sz < KERNBASE) (himage : s.Image p)
    (hsum : (newsz : ℤ) = (s.proc p).sz + n) (hn : n ≤ 0)
    (hun : Ram.Unmapped (s.dirs none) other held (some p) (npages newsz) (s.proc p).sz s.ram m) :
    Resized p n s (setProc p (fun x => { x with sz := newsz }) { s with ram := m }) := by
  have hspans' := hun.spans ((image_iff_spans hsz.le).mp himage)
  rw [Nat.min_eq_right (by omega)] at hspans'
  refine .of_leaves hsum (by omega) hspans' hun.leaves (fun q hq => ?_) (fun q hK => ?_)
  · exact .inl ((lt_npages_iff q _).mpr (hq.trans_le (min_le_right _ _)))
  · rw [not_or, Nat.not_lt, Nat.not_le] at hK
    exact .inl (hun.gone q hK.1 hK.2)

/-- A size that stays. -/
theorem growproc_zero (hd : (s.proc p).pgdir = some d) :
    wp (growproc L p 0) (fun r s' => r = 0 ∧ s' = s) (fun _ => False) s := by
  unfold growproc
  rw [wp_bind, wp_get]
  dsimp only
  rw [wp_bind]
  refine wp_deref_some hd ?_
  rw [if_neg (lt_irrefl 0), if_neg (lt_irrefl 0)]
  exact ⟨rfl, rfl⟩

/-- **Which shrinking is all or nothing.** -/
theorem allOrNothing_iff_of_unmapped {r : ℤ} (himage : s.Image p) (hsz : (s.proc p).sz < KERNBASE)
    (hn : n < 0) (hnewsz : ((((s.proc p).sz : ℤ) + n) % 2 ^ 32).toNat = newsz) (hlo : -2 ^ 31 ≤ n)
    (hun : Ram.Unmapped (s.dirs none) other held (some p) (npages newsz) (s.proc p).sz s.ram m)
    (hcases : (min (s.proc p).sz newsz = 0 ∧ r = -1 ∧ s' = { s with ram := m }) ∨
      (min (s.proc p).sz newsz ≠ 0 ∧ r = 0 ∧ s' = setProc p (fun x =>
        { x with sz := min (s.proc p).sz newsz }) { s with ram := m })) :
    AllOrNothing p n s r s' ↔ (s.proc p).sz = 0 ∨ 0 < (s.proc p).sz + n := by
  by_cases hzero : (s.proc p).sz = 0
  · -- nothing to give up
    obtain ⟨-, rfl, rfl⟩ := hcases.resolve_right (fun hne => hne.1 (by rw [hzero, Nat.zero_min]))
    refine iff_of_true (.inr ⟨rfl, .of_leaves rfl hun.leaves (fun q => .inl (.inr ?_))⟩) (.inl hzero)
    rw [hzero]
    exact Nat.zero_le _
  rcases Int.lt_trichotomy 0 ((s.proc p).sz + n) with hpos | hlast | hmore
  · have hsum := newsz_of_nonneg (Int.le_of_lt hpos) (by unfold KERNBASE at hsz; omega)
    rw [hnewsz] at hsum
    rw [Nat.min_eq_right (by omega)] at hcases
    obtain ⟨-, rfl, rfl⟩ := hcases.resolve_left (fun hmin => by omega)
    exact iff_of_true (.inl ⟨rfl, .of_unmapped hsz himage hsum (Int.le_of_lt hn) hun⟩) (.inr hpos)
  · -- the last byte goes, and with it the first page
    have hsum := newsz_of_nonneg (Int.le_of_eq hlast) (by omega)
    rw [hnewsz, ← hlast] at hsum
    obtain rfl : newsz = 0 := by omega
    obtain ⟨-, rfl, rfl⟩ := hcases.resolve_right (fun hne => hne.1 (Nat.min_zero _))
    refine iff_of_false ?_ (by omega)
    rintro (⟨hr, -⟩ | ⟨-, hsame⟩)
    · cases hr
    · have hgone := hun.gone 0 (Nat.zero_le _) (by omega)
      have hspans := (image_iff_spans hsz.le).mp himage
      have hmapped := (hspans 0).mpr ((lt_npages_iff 0 _).mpr (by omega))
      exact hmapped ((hsame.pages 0).symm.trans hgone)
  · -- the sum wraps around to a size above the old one
    have hwrap : (newsz : ℤ) = (s.proc p).sz + n + 2 ^ 32 := by
      rw [← hnewsz, ← Int.add_emod_right, newsz_of_nonneg (by omega) (by omega)]
    have hle : (s.proc p).sz ≤ newsz := by
      unfold KERNBASE at hsz
      omega
    rw [Nat.min_eq_left hle] at hcases
    obtain ⟨-, rfl, rfl⟩ := hcases.resolve_left (fun hmin => hzero hmin.1)
    refine iff_of_false ?_ (by omega)
    rintro (⟨-, hall⟩ | ⟨hr, -⟩)
    · have hsize := hall.size
      rw [sz_setSize] at hsize
      omega
    · cases hr

/-! ## The condition -/

/-- **`growproc` is all or nothing** unless a process gives up all its memory or
more: it returns, and does what its result says, exactly if it grows, has no memory
to give up, or keeps some. -/
theorem growproc_allOrNothing_iff (L : MemLayout) (s : Sys) (p : Slot) (n : ℤ) (d : Frame)
    (P : Set Frame) (h : s.AtRest P) (hfree : ∀ f ∈ P, L.Frees f)
    (hp : (s.proc p).state = .RUNNABLE) (hd : (s.proc p).pgdir = some d) (himage : s.Image p)
    (hsz : (s.proc p).sz < KERNBASE) (hlo : -2 ^ 31 ≤ n) (hhi : n < 2 ^ 31) :
    (∃ r s', growproc L p n s = .ok (r, s') ∧ AllOrNothing p n s r s') ↔
      0 ≤ n ∨ (s.proc p).sz = 0 ∨ 0 < (s.proc p).sz + n := by
  rcases Int.lt_trichotomy n 0 with hn | rfl | hn
  · obtain ⟨r, s', hres, m, hun, hcases⟩ := (h.wp_growproc_neg hfree hp hd hsz hn rfl).returns
    have hiff : AllOrNothing p n s r s' ↔ (s.proc p).sz = 0 ∨ 0 < (s.proc p).sz + n :=
      allOrNothing_iff_of_unmapped himage hsz hn rfl hlo hun hcases
    rw [show (0 ≤ n ↔ False) from iff_of_false (by omega) id, false_or, ← hiff]
    constructor
    · rintro ⟨r', s'', hres', hall⟩
      rw [hres] at hres'
      cases hres'
      exact hall
    · exact fun hall => ⟨r, s', hres, hall⟩
  · obtain ⟨r, s', hres, rfl, rfl⟩ := (growproc_zero (L := L) hd).returns
    refine iff_of_true ⟨0, s', hres, .inl ⟨rfl, (Int.add_zero _).symm, himage, fun _ _ => rfl,
      fun a hnone hsome => absurd hnone hsome⟩⟩ (.inl (le_refl _))
  · obtain ⟨r, s', hres, hall, -⟩ := (h.wp_growproc_pos hfree hp hd himage hsz hn hhi).returns
    exact iff_of_true ⟨r, s', hres, hall⟩ (.inl (Int.le_of_lt hn))

/-- A process with a directory and no user pages on its own, and twelve free pages. -/
def bareSys (fs : Fs) (cwd : Option Ip) : Sys :=
  { start (List.range' 4 12) (fun _ => Bytes.zero) (fun _ => Pipe.fresh (fun _ => 0)) fs with
    proc := update (fun _ => noProcess) firstSlot
      { noProcess with state := .RUNNABLE, pgdir := some 3, cwd := cwd } }

theorem frees_smallPages : ∀ f ∈ smallPages, smallLayout.Frees f := by
  unfold MemLayout.Frees
  decide

/-- A directory that has been taken from the free pages is the process's. -/
theorem atRest_bareSys (fs : Fs) (cwd : Option Ip) : (bareSys fs cwd).AtRest {f | f ∈ smallPages} := by
  set s₀ := start smallPages (fun _ => Bytes.zero) (fun _ => Pipe.fresh (fun _ => 0)) fs
  have h₀ : s₀.AtRest {f | f ∈ smallPages} := atRest_start (by decide) (by decide) _ _ _
  have htake : (bareSys fs cwd).ram.Pages _ (s₀.dirs none) (s₀.others s₀.kstacks) (insert 3 ∅) ∧ _ :=
    h₀.kept.pages.take rfl rfl
  have hempty : ∀ i, (bareSys fs cwd).ram.entry 3 i = none := fun i => pageEntry_zero i
  have hdir := htake.1.newDir (h := some firstSlot) rfl (Set.mem_insert 3 ∅) hempty
  rw [Set.insert_sdiff_self_of_notMem (Set.notMem_empty 3)] at hdir
  refine AtRest.of_update (p := firstSlot) h₀.kept.files (fun q _ => h₀.size q)
    (fun q _ => h₀.idle q) rfl rfl rfl rfl (Nat.zero_le _) (fun _ _ => rfl) ?_
  have hstack : Process.stack { noProcess with state := .RUNNABLE, pgdir := some 3, cwd := cwd }
      = s₀.kstacks firstSlot := rfl
  rw [hstack, update_eq_self]
  exact hdir

/-- The process after it has grown by a page. -/
def onePageSys : Sys :=
  match growproc smallLayout firstSlot 4096 (bareSys blankFs none) with
  | .ok (_, s) => s
  | .error _ => bareSys blankFs none

theorem atRest_onePageSys : onePageSys.AtRest {f | f ∈ smallPages} ∧ onePageSys.Image firstSlot := by
  have himage : (bareSys blankFs none).Image firstSlot := by
    refine (image_iff_spans (Nat.zero_le _)).mpr (Ram.Spans.zero (fun q => ?_))
    exact Ram.mapped_of_no_table (d := 3) rfl (pageEntry_zero _)
  exact (atRest_bareSys blankFs none).grown (d := 3) frees_smallPages rfl rfl himage (by decide)
    (by decide : (0 : ℤ) < 4096) (by decide) (by decide +kernel) rfl

/-- A process gives up half of its only page, and keeps the other half. -/
theorem growproc_allOrNothing_iff_half :
    ∃ r s', growproc smallLayout firstSlot (-2048) onePageSys = .ok (r, s') ∧
      AllOrNothing firstSlot (-2048) onePageSys r s' :=
  (growproc_allOrNothing_iff smallLayout onePageSys firstSlot (-2048) 3 {f | f ∈ smallPages}
    atRest_onePageSys.1 frees_smallPages (by decide +kernel) (by decide +kernel) atRest_onePageSys.2
    (by decide +kernel) (by decide) (by decide)).mpr (.inr (.inr (by decide +kernel)))

/-- A process that gives up its only page is told -1, and the page is gone; one that
gives up a byte more is told 0, and its size is as it was. -/
theorem growproc_not_allOrNothing :
    onePageSys.AtRest {f | f ∈ smallPages} ∧ onePageSys.Image firstSlot ∧
      (onePageSys.proc firstSlot).sz = 4096 ∧ onePageSys.userPage firstSlot 0 = some 4 ∧
      (growproc smallLayout firstSlot (-4096) onePageSys).map
        (fun res => (res.1, (res.2.proc firstSlot).sz, res.2.userPage firstSlot 0))
        = .ok (-1, 4096, none) ∧
      (growproc smallLayout firstSlot (-4097) onePageSys).map
        (fun res => (res.1, (res.2.proc firstSlot).sz, res.2.userPage firstSlot 0))
        = .ok (0, 4096, some 4) :=
  ⟨atRest_onePageSys.1, atRest_onePageSys.2, by decide +kernel, by decide +kernel, by decide +kernel,
    by decide +kernel⟩

end Sys

end Xv6
