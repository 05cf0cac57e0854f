import Xv6.Vm.Pages

/-!
# Address spaces, and what `copyout` does to one

A page directory gives a memory of its own: the pages that are present and for
users, byte by byte. `Ram.byteAt` reads a byte of it. Reading it this way
supposes that no page is there twice and none of them is a page table of the
directory itself; `Ram.Apart` says so, and every directory `vm.c` builds is like
that.

`copyout` copies page by page. It asks `uva2ka` for each page, and `uva2ka` follows
what `walkpgdir` returns without looking whether it is null: a page without a page
table is not reported, it is a null pointer that is followed.
-/

namespace Xv6

open Function

open Wp

namespace Ram

variable {m m' : Ram} {d f : Frame} {R : VmHalt → Prop}

/-- **The page with a number**, if it is present and for users. -/
def upage (m : Ram) (d : Frame) (k : ℕ) : Option Frame :=
  (m.entry d (k / 1024)).bind (fun t =>
    if pteU ((m.page t).word (k % 1024)) = true then m.entry t (k % 1024) else none)

/-- **The byte at an address**, if its page is present and for users. -/
def byteAt (m : Ram) (d : Frame) (a : ℕ) : Option UInt8 :=
  (m.upage d (a / PGSIZE)).map (fun f => (m.page f).byte (a % PGSIZE))

/-- **The pages of a directory are apart**: none is there twice, and none is the
directory or one of its page tables. -/
structure Apart (m : Ram) (d : Frame) : Prop where
  inj : ∀ {k k' f}, m.upage d k = some f → m.upage d k' = some f → k' = k
  ne_dir : ∀ {k}, m.upage d k ≠ some d
  ne_table : ∀ {k i f}, m.upage d k = some f → m.entry d i ≠ some f

/-- The words on the way to a page of the directory. -/
theorem upage_congr (hdir : m'.page d = m.page d)
    (htable : ∀ {i t}, m.entry d i = some t → m'.page t = m.page t) (k : ℕ) :
    m'.upage d k = m.upage d k := by
  have hentry : m'.entry d (k / 1024) = m.entry d (k / 1024) := by
    unfold entry
    rw [hdir]
  unfold upage
  rw [hentry]
  cases ht : m.entry d (k / 1024) with
  | none => rfl
  | some t =>
    have hpage := htable ht
    rw [Option.bind_some, Option.bind_some, entry, entry, hpage]

variable {k : ℕ}

/-- What is mapped is there, with the flag it was mapped with. -/
theorem upage_eq_some (h : m.upage d k = some f) :
    ∃ t, m.entry d (k / 1024) = some t ∧ m.entry t (k % 1024) = some f := by
  obtain ⟨t, ht, hf⟩ := Option.bind_eq_some_iff.mp h
  refine ⟨t, ht, ?_⟩
  split at hf
  · exact hf
  · cases hf

/-! ## A write to a page -/

namespace Apart

variable {k : ℕ}

variable (h : m.Apart d)

include h

theorem page_dir (hf : m.upage d k = some f) (x : Page → Page) :
    (m.setPage f x).page d = m.page d :=
  if_neg (fun heq : d = f => h.ne_dir (hf.trans (congrArg some heq.symm)))

theorem page_table (hf : m.upage d k = some f) (x : Page → Page) {i : ℕ} {t : Frame}
    (ht : m.entry d i = some t) : (m.setPage f x).page t = m.page t :=
  if_neg (fun heq : t = f => h.ne_table hf (ht.trans (congrArg some heq)))

/-- The directory is the same after a write to one of its pages. -/
theorem entry_setPage (hf : m.upage d k = some f) (x : Page → Page) (i : ℕ) :
    (m.setPage f x).entry d i = m.entry d i := by
  unfold entry
  rw [h.page_dir hf]

theorem upage_setPage (hf : m.upage d k = some f) (x : Page → Page) (k' : ℕ) :
    (m.setPage f x).upage d k' = m.upage d k' :=
  upage_congr (h.page_dir hf x) (h.page_table hf x) k'

theorem setPage (hf : m.upage d k = some f) (x : Page → Page) :
    (m.setPage f x).Apart d where
  inj := by
    intro k k' g hk hk'
    rw [h.upage_setPage hf] at hk hk'
    exact h.inj hk hk'
  ne_dir := by
    intro k
    rw [h.upage_setPage hf]
    exact h.ne_dir
  ne_table := by
    intro k i g hk
    rw [h.upage_setPage hf] at hk
    rw [h.entry_setPage hf]
    exact h.ne_table hk

/-- A byte of the page that is written. -/
theorem byteAt_setPage_self (hf : m.upage d k = some f) (x : Page → Page) {a : ℕ}
    (ha : a / PGSIZE = k) :
    (m.setPage f x).byteAt d a = some ((x (m.page f)).byte (a % PGSIZE)) := by
  unfold byteAt
  rw [h.upage_setPage hf, ha, hf]
  exact congrArg (fun p : Page => some (p.byte (a % PGSIZE))) (if_pos rfl)

/-- The other pages. -/
theorem byteAt_setPage_of_ne (hf : m.upage d k = some f) (x : Page → Page) {a : ℕ}
    (ha : a / PGSIZE ≠ k) : (m.setPage f x).byteAt d a = m.byteAt d a := by
  unfold byteAt
  rw [h.upage_setPage hf]
  cases hg : m.upage d (a / PGSIZE) with
  | none => rfl
  | some g =>
    have hgf : g ≠ f := fun heq => ha (h.inj hf (heq ▸ hg))
    exact congrArg (fun p : Page => some (p.byte (a % PGSIZE))) (if_neg hgf)

end Apart

/-! ## `uva2ka` -/

/-- **`uva2ka`** of a page finds it, or follows a null pointer. -/
theorem wp_uva2ka_page (hk : k < 2 ^ 20) {Q : Option Frame → Ram → Prop}
    (hnull : m.entry d (k / 1024) = none → R .null)
    (hQ : m.entry d (k / 1024) ≠ none → Q (m.upage d k) m) :
    wp (uva2ka d (k * PGSIZE)) Q R m := by
  unfold uva2ka
  rw [wp_bind, wp_walkpgdir_find, PDX_page hk, PTX_page]
  cases ht : m.entry d (k / 1024) with
  | none => exact hnull ht
  | some t =>
    have hpost := hQ (by rw [ht]; exact Option.some_ne_none t)
    unfold upage at hpost
    rw [ht, Option.bind_some] at hpost
    simp only [Option.map_some, wp_bind, wp_load]
    have hj : k % 1024 < NPDENTRIES := Nat.mod_lt k (by decide)
    by_cases hP : pteP ((m.page t).word (k % 1024)) = true
    · rw [if_neg (by rw [hP]; decide)]
      by_cases hU : pteU ((m.page t).word (k % 1024)) = true
      · have hentry : m.entry t (k % 1024) = _ := pageEntry_of_pteP hj hP
        rw [if_pos hU, hentry] at hpost
        rw [if_neg (by rw [hU]; decide)]
        exact hpost
      · rw [if_neg hU] at hpost
        rw [if_pos (Bool.eq_false_iff.mpr hU)]
        exact hpost
    · have hentry : m.entry t (k % 1024) = none := pageEntry_of_not_pteP hP
      rw [hentry, ite_self] at hpost
      rw [if_pos (Bool.eq_false_iff.mpr hP)]
      exact hpost

/-! ## `copyout` -/

/-- A page overlaps `[va, va + len)`. -/
def Overlaps (va len k : ℕ) : Prop := ∃ a, va ≤ a ∧ a < va + len ∧ a / PGSIZE = k

/-- Every page that `copyout` looks up, up to the first one that users cannot reach, has a page
table. Without one `uva2ka` dereferences a null pointer. -/
def TablesThere (m : Ram) (d : Frame) (va len : ℕ) : Prop :=
  ∀ k, Overlaps va len k → (∀ j < k, Overlaps va len j → m.upage d j ≠ none) →
    m.entry d (k / 1024) ≠ none

/-- **Nothing but the bytes from `va` on has changed**, `len` of them: no other
byte of the address space, no page that does not overlap them, and no mapping. -/
structure Within (d : Frame) (va len : ℕ) (m m' : Ram) : Prop where
  free : m'.freelist = m.freelist
  upage : ∀ k, m'.upage d k = m.upage d k
  outside : ∀ a, ¬ (va ≤ a ∧ a < va + len) → m'.byteAt d a = m.byteAt d a
  page : ∀ f, (∀ k, Overlaps va len k → m.upage d k ≠ some f) → m'.page f = m.page f

variable {va len : ℕ}

theorem Within.refl : Within d va len m m := ⟨rfl, fun _ => rfl, fun _ _ => rfl,
  fun _ _ => rfl⟩

/-- **What `copyout` returns, and what it has done**: 0 if users can reach every page
of the range, with the bytes in place, or -1. -/
def Copied (d : Frame) (va : ℕ) (buf : List UInt8) (m : Ram) (r : ℤ) (m' : Ram) : Prop :=
  Within d va buf.length m m' ∧
  ((r = 0 ∧ (∀ k, Overlaps va buf.length k → m.upage d k ≠ none) ∧
      ∀ i < buf.length, m'.byteAt d (va + i) = buf[i]?) ∨
    (r = -1 ∧ ∃ k, Overlaps va buf.length k ∧ m.upage d k = none))

/-- How many bytes fit into the first page. -/
def firstPart (va len : ℕ) : ℕ := min (PGSIZE - va % PGSIZE) len

theorem firstPart_pos (va : ℕ) (h : 0 < len) : 0 < firstPart va len := by
  unfold firstPart
  have := Nat.mod_lt va (show 0 < PGSIZE by decide)
  omega

/-- The pages of a range are its first page and those of the rest. -/
theorem overlaps_iff (h : 0 < len) (k : ℕ) :
    Overlaps va len k ↔ k = va / PGSIZE ∨
      Overlaps ((va / PGSIZE + 1) * PGSIZE) (len - firstPart va len) k := by
  unfold Overlaps firstPart PGSIZE
  constructor
  · rintro ⟨a, hva, ha, rfl⟩
    by_cases hk : a / 4096 = va / 4096
    · exact .inl hk
    · exact .inr ⟨a, by omega, by omega, rfl⟩
  · rintro (rfl | ⟨a, hva, ha, rfl⟩)
    · exact ⟨va, le_refl va, by omega, rfl⟩
    · exact ⟨a, by omega, by omega, rfl⟩

/-- The pages of the rest come after the first one. -/
theorem lt_of_overlaps (h : Overlaps ((va / PGSIZE + 1) * PGSIZE) len k) :
    va / PGSIZE < k := by
  obtain ⟨a, ha, -, rfl⟩ := h
  unfold PGSIZE at *
  omega

theorem not_overlaps_zero (va k : ℕ) : ¬ Overlaps va 0 k := by
  rintro ⟨a, ha, ha', -⟩
  omega

/-- The tables of a range, page by page. -/
theorem tablesThere_iff (h : 0 < len) (hf : m.upage d (va / PGSIZE) = some f) :
    m.TablesThere d va len ↔
      m.TablesThere d ((va / PGSIZE + 1) * PGSIZE) (len - firstPart va len) := by
  obtain ⟨t, ht, -⟩ := upage_eq_some hf
  constructor
  · intro hall k hk hbefore
    refine hall k ((overlaps_iff h k).mpr (.inr hk)) (fun j hj hover => ?_)
    rcases (overlaps_iff h j).mp hover with rfl | hover
    · rw [hf]
      exact Option.some_ne_none f
    · exact hbefore j hj hover
  · intro hall k hk hbefore
    rcases (overlaps_iff h k).mp hk with rfl | hk
    · rw [ht]
      exact Option.some_ne_none t
    · exact hall k hk (fun j hj hover => hbefore j hj ((overlaps_iff h j).mpr (.inr hover)))

theorem TablesThere.congr (hdir : ∀ i, m'.entry d i = m.entry d i)
    (hup : ∀ k, m'.upage d k = m.upage d k) (va len : ℕ) :
    m'.TablesThere d va len ↔ m.TablesThere d va len := by
  unfold TablesThere
  simp only [hdir, hup]

variable {buf : List UInt8}

/-- **One turn of `copyout`** puts the first part of the buffer in place. -/
theorem Apart.within_first (h : m.Apart d) (hbuf : 0 < buf.length)
    (hf : m.upage d (va / PGSIZE) = some f)
    (hm' : m' = m.setPage f (Bytes.setBytes (va % PGSIZE) (buf.take (firstPart va buf.length)))) :
    Within d va (firstPart va buf.length) m m' ∧
      ∀ i < firstPart va buf.length, m'.byteAt d (va + i) = buf[i]? := by
  subst hm'
  have hlen : (buf.take (firstPart va buf.length)).length = firstPart va buf.length := by
    rw [List.length_take]
    exact Nat.min_eq_left (Nat.min_le_right _ _)
  have hpos := firstPart_pos va hbuf
  have hmod : ∀ a, a % PGSIZE < PGSIZE := fun a => Nat.mod_lt a (by decide)
  refine ⟨⟨rfl, h.upage_setPage hf _, fun a ha => ?_, fun g hg => ?_⟩, fun i hfirst => ?_⟩
  · by_cases hk : a / PGSIZE = va / PGSIZE
    · rw [h.byteAt_setPage_self hf _ hk, Bytes.byte_setBytes _ _ _ (hmod a), hlen, if_neg]
      · unfold byteAt
        rw [hk, hf]
        rfl
      · unfold firstPart PGSIZE at *
        omega
    · exact h.byteAt_setPage_of_ne hf _ hk
  · refine if_neg (fun heq : g = f => hg (va / PGSIZE) ?_ (heq ▸ hf))
    exact ⟨va, le_refl va, by omega, rfl⟩
  · have hi : i < buf.length := hfirst.trans_le (Nat.min_le_right _ _)
    have hk : (va + i) / PGSIZE = va / PGSIZE := by
      unfold firstPart PGSIZE at *
      omega
    have hoff : (va + i) % PGSIZE = va % PGSIZE + i := by
      unfold firstPart PGSIZE at *
      omega
    rw [h.byteAt_setPage_self hf _ hk, Bytes.byte_setBytes _ _ _ (hmod _), hlen, hoff,
      if_pos (by omega), Nat.add_sub_cancel_left, List.getD_eq_getElem?_getD,
      List.getElem?_take_of_lt hfirst, List.getElem?_eq_getElem hi]
    rfl

/-- What the rest of the loop does, after the first page. -/
theorem Copied.cons (hbuf : 0 < buf.length) (hf : m.upage d (va / PGSIZE) = some f) {m₁ : Ram}
    {r : ℤ} (hwithin : Within d va (firstPart va buf.length) m m₁)
    (hfirst : ∀ i < firstPart va buf.length, m₁.byteAt d (va + i) = buf[i]?)
    (hrest : Copied d ((va / PGSIZE + 1) * PGSIZE) (buf.drop (firstPart va buf.length)) m₁ r m') :
    Copied d va buf m r m' := by
  obtain ⟨hw, hr⟩ := hrest
  rw [List.length_drop] at hw hr
  have hup := hwithin.upage
  have hle : firstPart va buf.length ≤ buf.length := Nat.min_le_right _ _
  have hnext : ∀ a, (va / PGSIZE + 1) * PGSIZE ≤ a →
      a < (va / PGSIZE + 1) * PGSIZE + (buf.length - firstPart va buf.length) →
      va + firstPart va buf.length ≤ a ∧ a < va + buf.length := by
    intro a h₁ h₂
    unfold firstPart PGSIZE at *
    omega
  have hin : ∀ a, va + firstPart va buf.length ≤ a → a < va + buf.length →
      (va / PGSIZE + 1) * PGSIZE = va + firstPart va buf.length := by
    intro a h₁ h₂
    unfold firstPart PGSIZE at *
    omega
  refine ⟨⟨hw.free.trans hwithin.free, fun k => (hw.upage k).trans (hup k), fun a ha => ?_,
    fun g hg => ?_⟩, ?_⟩
  · rw [hw.outside a (fun hm => ha ?_), hwithin.outside a (by omega)]
    have := hnext a hm.1 hm.2
    omega
  · rw [hw.page g (fun k hk => ?_), hwithin.page g (fun k hk => hg k ?_)]
    · obtain ⟨a, h₁, h₂, rfl⟩ := hk
      exact ⟨a, h₁, by omega, rfl⟩
    · rw [hup]
      exact hg k ((overlaps_iff hbuf k).mpr (.inr hk))
  · refine hr.imp (fun ⟨hr, hall, hbytes⟩ => ⟨hr, fun k hk => ?_, fun i hi => ?_⟩)
      (fun ⟨hr, k, hk, hnone⟩ => ⟨hr, k, (overlaps_iff hbuf k).mpr (.inr hk), ?_⟩)
    · rcases (overlaps_iff hbuf k).mp hk with rfl | hk
      · rw [hf]
        exact Option.some_ne_none f
      · rw [← hup]
        exact hall k hk
    · by_cases hfst : i < firstPart va buf.length
      · rw [hw.outside _ (fun hm => ?_)]
        · exact hfirst i hfst
        · have := hnext _ hm.1 hm.2
          omega
      · have hbyte := hbytes (i - firstPart va buf.length)
          (by omega)
        have hi₁ : va + firstPart va buf.length + (i - firstPart va buf.length) = va + i := by omega
        have hi₂ : firstPart va buf.length + (i - firstPart va buf.length) = i := by omega
        rw [List.getElem?_drop, hin (va + i) (by omega) (by omega), hi₁, hi₂] at hbyte
        exact hbyte
    · rw [← hup]
      exact hnone

/-- **The loop of `copyout`**, with turns enough for the buffer. The range ends below
`2 ^ 32`, or the last page is not for users. -/
theorem Apart.wp_copyoutLoop (h : m.Apart d) {turns : ℕ} (hturns : buf.length ≤ turns)
    (hva : va + buf.length ≤ 2 ^ 32 ∨ (va < 2 ^ 32 ∧ m.upage d (2 ^ 20 - 1) = none)) :
    wp (copyoutLoop d turns va buf)
      (fun r m' => Copied d va buf m r m' ∧ m.TablesThere d va buf.length)
      (fun e => e = .null ∧ ¬ m.TablesThere d va buf.length) m := by
  have hdone : buf = [] → Copied d va buf m 0 m ∧ m.TablesThere d va buf.length := by
    rintro rfl
    exact ⟨⟨Within.refl, .inl ⟨rfl, fun k hk => absurd hk (not_overlaps_zero va k),
      fun i hi => absurd hi (Nat.not_lt_zero i)⟩⟩, fun k hk => absurd hk (not_overlaps_zero va k)⟩
  induction turns generalizing m va buf with
  | zero => exact hdone (List.length_eq_zero_iff.mp (Nat.le_zero.mp hturns))
  | succ turns ih =>
    unfold copyoutLoop
    split
    · next hnil => exact hdone hnil
    next hne =>
    have hbuf : 0 < buf.length := List.length_pos_iff.mpr hne
    have hk : va / PGSIZE < 2 ^ 20 := by
      unfold PGSIZE
      omega
    have hself : Overlaps va buf.length (va / PGSIZE) := (overlaps_iff hbuf _).mpr (.inl rfl)
    have hfirst : ∀ j < va / PGSIZE, Overlaps va buf.length j → m.upage d j ≠ none := by
      rintro j hj ⟨a, ha, -, rfl⟩
      exact absurd (Nat.div_le_div_right ha) (Nat.not_le.mpr hj)
    have hoff : va - va / PGSIZE * PGSIZE = va % PGSIZE := by
      unfold PGSIZE
      omega
    simp only [wp_bind]
    rw [PGROUNDDOWN]
    refine wp_uva2ka_page hk (fun hnull => ⟨rfl, fun hall => ?_⟩) (fun htable => ?_)
    · exact hall _ hself hfirst hnull
    cases hf : m.upage d (va / PGSIZE) with
    | none =>
      refine ⟨⟨Within.refl, .inr ⟨rfl, _, hself, hf⟩⟩, fun k hk hbefore => ?_⟩
      rcases (overlaps_iff hbuf k).mp hk with rfl | hk
      · exact htable
      · exact absurd hf (hbefore _ (lt_of_overlaps hk) hself)
    | some f =>
      obtain ⟨hwithin, hbytes⟩ := h.within_first hbuf hf rfl
      have hpos := firstPart_pos va hbuf
      have hlen : (buf.drop (firstPart va buf.length)).length
          = buf.length - firstPart va buf.length := List.length_drop
      have htables := tablesThere_iff hbuf hf
      show wp (copyoutLoop d turns ((va / PGSIZE * PGSIZE + PGSIZE) % 2 ^ 32)
        (buf.drop (min (PGSIZE - (va - va / PGSIZE * PGSIZE)) buf.length))) _ _
        (m.setPage f (Bytes.setBytes (va - va / PGSIZE * PGSIZE)
          (buf.take (min (PGSIZE - (va - va / PGSIZE * PGSIZE)) buf.length))))
      rw [hoff]
      rw [show min (PGSIZE - va % PGSIZE) buf.length = firstPart va buf.length from rfl,
        ← Nat.succ_mul]
      generalize hm₁ : m.setPage f _ = m₁ at hwithin hbytes ⊢
      have h₁ : m₁.Apart d := hm₁ ▸ h.setPage hf _
      have hcongr : ∀ va len, m₁.TablesThere d va len ↔ m.TablesThere d va len :=
        TablesThere.congr (fun i => hm₁ ▸ h.entry_setPage hf _ i) hwithin.upage
      rw [htables]
      by_cases hend : buf.length - firstPart va buf.length = 0
      · -- the buffer ends in this page
        have hnil : buf.drop (firstPart va buf.length) = [] :=
          List.length_eq_zero_iff.mp (hlen.trans hend)
        have hrest : Copied d ((va / PGSIZE + 1) * PGSIZE) (buf.drop (firstPart va buf.length))
            m₁ 0 m₁ := by
          rw [hnil]
          exact ⟨Within.refl, .inl ⟨rfl, fun k hk => absurd hk (not_overlaps_zero _ k),
            fun i hi => absurd hi (Nat.not_lt_zero i)⟩⟩
        have hcopied := Copied.cons hbuf hf hwithin hbytes hrest
        have hloop : ∀ turns va', copyoutLoop d turns va' [] = pure 0 := by
          intro turns va'
          cases turns <;> rfl
        rw [hnil, hloop, hend]
        exact ⟨hcopied, fun k hk => absurd hk (not_overlaps_zero _ k)⟩
      · have hlast : (va / PGSIZE + 1) * PGSIZE < 2 ^ 32 := by
          rcases hva with hva | ⟨-, hnone⟩
          · unfold firstPart PGSIZE at *
            omega
          · have hne : va / PGSIZE ≠ 2 ^ 20 - 1 := by
              rintro heq
              rw [heq, hnone] at hf
              cases hf
            unfold PGSIZE at *
            omega
        have hnext : (va / PGSIZE).succ * PGSIZE % 2 ^ 32 = (va / PGSIZE + 1) * PGSIZE :=
          Nat.mod_eq_of_lt hlast
        rw [hnext]
        refine (ih h₁ (by omega) ?_ ?_).mono
          (fun r m' hr => ?_) (fun e he => ?_)
        · refine hva.imp (fun hva => ?_) (fun hva => ⟨hlast, (hwithin.upage _).trans hva.2⟩)
          rw [hlen]
          unfold firstPart PGSIZE at *
          omega
        · intro hnil
          rw [hnil] at hlen
          exact absurd hlen.symm hend
        · rw [hlen, hcongr] at hr
          exact ⟨Copied.cons hbuf hf hwithin hbytes hr.1, hr.2⟩
        · rw [hlen, hcongr] at he
          exact he

/-- **When `copyout` is total and exact**: exactly when every page of the range, up to
the first one that users cannot reach, has a page table. Then it returns, it returns
0 or -1 as users can reach every page or not, the bytes are in place after a 0, and
nothing else has changed either way. -/
theorem copyout_total_iff (m : Ram) (d : Frame) (va : ℕ) (buf : List UInt8) (h : m.Apart d)
    (hva : va + buf.length ≤ 2 ^ 32) :
    (∃ r m', copyout d va buf m = .ok (r, m') ∧ (r = 0 ∨ r = -1) ∧
      (r = 0 ↔ ∀ k, Overlaps va buf.length k → m.upage d k ≠ none) ∧
      (r = 0 → ∀ i < buf.length, m'.byteAt d (va + i) = buf[i]?) ∧
      Within d va buf.length m m')
    ↔ m.TablesThere d va buf.length := by
  have hloop := h.wp_copyoutLoop (le_refl buf.length) (.inl hva)
  constructor
  · rintro ⟨r, m', hrun, -⟩
    exact (hloop.ok hrun).2
  · intro hthere
    cases hrun : copyout d va buf m with
    | error e => exact absurd hthere (hloop.error hrun).2
    | ok rm =>
      obtain ⟨hwithin, hr⟩ := (hloop.ok hrun).1
      refine ⟨rm.1, rm.2, rfl, hr.imp (·.1) (·.1), ?_, fun hzero => ?_, hwithin⟩
      · rcases hr with ⟨hzero, hall, -⟩ | ⟨hneg, k, hk, hnone⟩
        · exact iff_of_true hzero hall
        · exact iff_of_false (by rw [hneg]; decide) (fun hall => hall k hk hnone)
      · rcases hr with ⟨-, -, hbytes⟩ | ⟨hneg, -⟩
        · exact hbytes
        · exact absurd (hneg.symm.trans hzero) (by decide)

/-! ## A directory with one page, and one with none -/

/-- Memory that is all zeros. -/
def blank : Ram := ⟨[], fun _ => Bytes.zero, []⟩

theorem upage_blank (d : Frame) (k : ℕ) : blank.upage d k = none := by
  have hentry : blank.entry d (k / 1024) = none := pageEntry_zero _
  unfold upage
  rw [hentry]
  rfl

theorem apart_blank (d : Frame) : blank.Apart d where
  inj h := by rw [upage_blank] at h; cases h
  ne_dir h := by rw [upage_blank] at h; cases h
  ne_table h := by rw [upage_blank] at h; cases h

/-- **A null pointer that is followed**: one byte to address 0 of a directory without
page tables. -/
theorem copyout_null : blank.Apart 0 ∧ copyout 0 0 [1] blank = .error .null := by
  refine ⟨apart_blank 0, ?_⟩
  have hentry : blank.entry 0 (0 / 1024) = none := pageEntry_zero _
  have hnull : wp (uva2ka 0 (0 * PGSIZE)) (fun _ _ => False) (· = .null) blank :=
    wp_uva2ka_page (by decide) (fun _ => rfl) (fun hne => absurd hentry hne)
  have hloop : wp (copyout 0 0 [1]) (fun _ _ => False) (· = .null) blank := by
    show wp (uva2ka 0 (0 * PGSIZE) >>= _) _ _ blank
    rw [wp_bind]
    exact hnull.imp (fun _ _ hfalse => hfalse.elim)
  cases hrun : copyout 0 0 [1] blank with
  | error e => rw [hloop.error hrun]
  | ok rm => exact (hloop.ok hrun).elim

/-- Directory 0 with page table 1 and one user page, 2. -/
def onePage : Ram where
  freelist := []
  page := update (update (fun _ => Bytes.zero) 0
    (Bytes.zero.setWord 0 (1 * PGSIZE ||| 7))) 1 (Bytes.zero.setWord 0 (2 * PGSIZE ||| 7))
  refuse := []

theorem entry_onePage_dir (i : ℕ) : onePage.entry 0 i = if i = 0 then some 1 else none := by
  show pageEntry (Bytes.zero.setWord 0 (1 * PGSIZE ||| 7)) i = _
  by_cases hi : i = 0
  · subst hi
    rw [pageEntry_setWord_self _ (by decide) (by decide), if_pos (by decide)]
    rfl
  · rw [pageEntry_setWord_of_ne _ _ hi, pageEntry_zero, if_neg hi]

theorem entry_onePage_table (i : ℕ) : onePage.entry 1 i = if i = 0 then some 2 else none := by
  show pageEntry (Bytes.zero.setWord 0 (2 * PGSIZE ||| 7)) i = _
  by_cases hi : i = 0
  · subst hi
    rw [pageEntry_setWord_self _ (by decide) (by decide), if_pos (by decide)]
    rfl
  · rw [pageEntry_setWord_of_ne _ _ hi, pageEntry_zero, if_neg hi]

theorem upage_onePage (h : onePage.upage 0 k = some f) : k = 0 ∧ f = 2 := by
  obtain ⟨t, ht, hf⟩ := upage_eq_some h
  rw [entry_onePage_dir] at ht
  split at ht
  · next hdiv =>
    cases ht
    rw [entry_onePage_table] at hf
    split at hf
    · next hmod =>
      cases hf
      exact ⟨by omega, rfl⟩
    · cases hf
  · cases ht

theorem apart_onePage : onePage.Apart 0 where
  inj h h' := (upage_onePage h').1.trans (upage_onePage h).1.symm
  ne_dir h := absurd (upage_onePage h).2 (by decide)
  ne_table h := by
    rw [(upage_onePage h).2, entry_onePage_dir]
    split <;> decide

/-- Two bytes into the one page of a directory. -/
theorem copyout_total_iff_onePage :
    onePage.Apart 0 ∧ (10 : ℕ) + [1, 2].length ≤ 2 ^ 32 ∧
    ((∃ r m', copyout 0 10 [1, 2] onePage = .ok (r, m') ∧ (r = 0 ∨ r = -1) ∧
      (r = 0 ↔ ∀ k, Overlaps 10 2 k → onePage.upage 0 k ≠ none) ∧
      (r = 0 → ∀ i < 2, m'.byteAt 0 (10 + i) = [1, 2][i]?) ∧
      Within 0 10 2 onePage m') ↔ onePage.TablesThere 0 10 2) :=
  ⟨apart_onePage, by decide, copyout_total_iff onePage 0 10 [1, 2] apart_onePage (by decide)⟩

end Ram

end Xv6
