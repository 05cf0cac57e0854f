import Xv6.Lib.Ledger
import Xv6.Vm.Paging
import Mathlib.Data.Nat.Bitwise
import Mathlib.Logic.Equiv.Basic
import Mathlib.Order.BooleanAlgebra.Set

/-!
# Who owns a page

A page that is in use is a page directory, a page table, a user page, or
something that `vm.c` does not look into – a kernel stack or a pipe. Page tables
and user pages belong to the directory they are reached from, and a directory
to whoever holds a pointer to it. `Ram.owner` reads this off memory, and
`Ram.Pages` says that every page is free, held by the function that runs, or
has one such home.

The lemmas here are the changes `vm.c` makes to memory: each one changes the
owner of one home, or of none.
-/

namespace Xv6

open Function

/-! ## Words of a table -/

theorem pteP_eq_testBit (w : ℕ) : pteP w = w.testBit 0 := by
  unfold pteP PTE_P
  rw [Nat.and_one_is_mod, Nat.testBit_zero]
  rcases Nat.mod_two_eq_zero_or_one w with h | h <;> rw [h] <;> rfl

theorem pteU_eq_testBit (w : ℕ) : pteU w = w.testBit 2 := by
  have h : w &&& PTE_U = (w.testBit 2).toNat * 2 ^ 2 := Nat.and_two_pow w 2
  unfold pteU
  rw [h]
  cases w.testBit 2 <;> rfl

@[simp] theorem pteP_or (a b : ℕ) : pteP (a ||| b) = (pteP a || pteP b) := by
  simp only [pteP_eq_testBit, Nat.testBit_or]

@[simp] theorem pteU_or (a b : ℕ) : pteU (a ||| b) = (pteU a || pteU b) := by
  simp only [pteU_eq_testBit, Nat.testBit_or]

@[simp] theorem pteU_frame (f : Frame) : pteU (f * PGSIZE) = false := by
  have h := Nat.testBit_mul_two_pow f 2 12
  rw [pteU_eq_testBit]
  exact h

variable {b : ℕ}

theorem pteFrame_or (f : ℕ) (hb : b < PGSIZE) : pteFrame (f * PGSIZE ||| b) = f := by
  have hb : b < 2 ^ 12 := hb
  have h : (f * 2 ^ 12 ||| b) / 2 ^ 12 = f * 2 ^ 12 / 2 ^ 12 ||| b / 2 ^ 12 := Nat.or_div_two_pow
  rw [Nat.mul_div_cancel f (by decide), Nat.div_eq_of_lt hb, Nat.or_zero] at h
  exact h

theorem pteFlags_or (f : ℕ) (hb : b < PGSIZE) : pteFlags (f * PGSIZE ||| b) = b := by
  have h : (f * 2 ^ 12 ||| b) % 2 ^ 12 = f * 2 ^ 12 % 2 ^ 12 ||| b % 2 ^ 12 := Nat.or_mod_two_pow
  rw [Nat.mul_mod_left, Nat.mod_eq_of_lt (show b < 2 ^ 12 from hb), Nat.zero_or] at h
  exact h

variable {w : ℕ}

/-- The flags of a page that is present have the flag. -/
theorem pteFlags_or_PTE_P (h : pteP w = true) : pteFlags w ||| PTE_P = pteFlags w := by
  refine Nat.eq_of_testBit_eq (fun i => ?_)
  rw [Nat.testBit_or]
  by_cases hi : i = 0
  · have hbit : (pteFlags w).testBit 0 = true := by
      rw [pteP_eq_testBit] at h
      exact (Nat.testBit_mod_two_pow w 12 0).trans (by rw [h]; rfl)
    rw [hi, hbit, Bool.true_or]
  · rw [show PTE_P.testBit i = false from Nat.testBit_two_pow_of_ne (n := 0) (Ne.symm hi), Bool.or_false]

theorem or_lt_word {f : ℕ} (hf : f < 2 ^ 20) (hb : b < PGSIZE) : f * PGSIZE ||| b < 2 ^ 32 := by
  unfold PGSIZE at *
  exact Nat.or_lt_two_pow (by omega) (by omega)

/-- `*pte &= ~PTE_U` clears the flag. -/
theorem pteU_sub_and (w : ℕ) : pteU (w - (w &&& PTE_U)) = false := by
  have h : w &&& PTE_U = (w.testBit 2).toNat * 4 := Nat.and_two_pow w 2
  rw [pteU_eq_testBit, h]
  cases hbit : w.testBit 2 with
  | false =>
    rw [Bool.toNat_false, Nat.zero_mul, Nat.sub_zero]
    exact hbit
  | true =>
    rw [Nat.testBit_eq_decide_div_mod_eq] at hbit ⊢
    have hbit := of_decide_eq_true hbit
    rw [Bool.toNat_true, Nat.one_mul, decide_eq_false_iff_not]
    omega

/-- `*pte &= ~PTE_U` changes nothing but the flag. -/
theorem sub_and_PTE_U (w : ℕ) :
    pteP (w - (w &&& PTE_U)) = pteP w ∧ pteFrame (w - (w &&& PTE_U)) = pteFrame w := by
  have h : w &&& PTE_U = (w.testBit 2).toNat * 4 := Nat.and_two_pow w 2
  rw [pteP_eq_testBit, pteP_eq_testBit, Nat.testBit_zero, Nat.testBit_zero]
  unfold pteFrame PGSIZE
  rw [h]
  cases hbit : w.testBit 2 with
  | false => simp
  | true =>
    have hbit : w / 4 % 2 = 1 := by
      rw [Nat.testBit_eq_decide_div_mod_eq] at hbit
      exact of_decide_eq_true hbit
    obtain ⟨k, rfl⟩ : ∃ k, w = k + 4 := ⟨w - 4, by omega⟩
    have hframe : k / 4096 = (k + 4) / 4096 := by omega
    rw [Bool.toNat_true, Nat.one_mul, Nat.add_sub_cancel, Nat.add_mod]
    exact ⟨by simp, hframe⟩

/-- The frame in a word of a page, if the word is present. -/
def pageEntry (x : Page) (i : ℕ) : Option Frame :=
  if i < NPDENTRIES ∧ pteP (x.word i) = true then some (pteFrame (x.word i)) else none

variable {x : Page} {i : ℕ}

theorem pageEntry_eq_some {f : Frame} :
    pageEntry x i = some f ↔ i < NPDENTRIES ∧ pteP (x.word i) = true ∧ pteFrame (x.word i) = f := by
  unfold pageEntry
  split
  · next h => exact ⟨fun hf => ⟨h.1, h.2, Option.some.inj hf⟩, fun hf => congrArg some hf.2.2⟩
  · next h => exact ⟨fun hf => (nomatch hf), fun hf => absurd ⟨hf.1, hf.2.1⟩ h⟩

theorem pageEntry_of_pteP (hi : i < NPDENTRIES) (hw : pteP (x.word i) = true) :
    pageEntry x i = some (pteFrame (x.word i)) :=
  if_pos ⟨hi, hw⟩

theorem pageEntry_of_not_pteP (hw : pteP (x.word i) ≠ true) :
    pageEntry x i = none :=
  if_neg (fun h => hw h.2)

theorem pageEntry_zero (i : ℕ) : pageEntry Bytes.zero i = none := by
  refine pageEntry_of_not_pteP ?_
  rw [Bytes.word_zero]
  decide

theorem word_setWord_page (x : Page) (hi : i < NPDENTRIES) (hw : w < 2 ^ 32) :
    (x.setWord i w).word i = w := by
  have hlast : 4 * i + 3 < PGSIZE := by
    unfold NPDENTRIES at hi
    unfold PGSIZE
    omega
  rw [Bytes.word_setWord_self x w hlast, Nat.mod_eq_of_lt hw]

theorem pageEntry_setWord_self (x : Page) (hi : i < NPDENTRIES) (hw : w < 2 ^ 32) :
    pageEntry (x.setWord i w) i = if pteP w = true then some (pteFrame w) else none := by
  unfold pageEntry
  rw [word_setWord_page x hi hw]
  simp only [hi, true_and]

theorem pageEntry_setWord_of_ne (x : Page) {j : ℕ} (w : ℕ) (h : j ≠ i) :
    pageEntry (x.setWord i w) j = pageEntry x j := by
  unfold pageEntry
  rw [Bytes.word_setWord_of_ne x w h]

/-! ## Homes -/

/-- **The homes of a page in use**: who holds a directory is an `H`, and what
`vm.c` does not look into is an `X`. -/
inductive Home (H X : Type)
  | dir (h : H)
  | table (h : H) (i : ℕ)
  | user (h : H) (i j : ℕ)
  | other (x : X)
  deriving DecidableEq

/-- The homes, when the holders have other names. -/
def Home.mapEquiv {H H' X : Type} (e : H ≃ H') : Home H X ≃ Home H' X where
  toFun
    | dir h => dir (e h)
    | table h i => table (e h) i
    | user h i j => user (e h) i j
    | other x => other x
  invFun
    | dir h => dir (e.symm h)
    | table h i => table (e.symm h) i
    | user h i j => user (e.symm h) i j
    | other x => other x
  left_inv := by
    intro place
    cases place <;> simp only [Equiv.symm_apply_apply]
  right_inv := by
    intro place
    cases place <;> simp only [Equiv.apply_symm_apply]

namespace Ram

variable {H X : Type}

/-- Entries of a directory below `KERNBASE`. -/
def NUPDENTRIES : ℕ := 512

/-- The frame in a present word of a page. -/
def entry (m : Ram) (t : Frame) (i : ℕ) : Option Frame := pageEntry (m.page t) i

/-- **The page at a home**: a directory, a page table that an entry of a directory names, a user page
that an entry of such a table below the kernel's part names, or a page of another kind. -/
def owner (m : Ram) (dirs : H → Option Frame) (other : X → Option Frame) : Home H X → Option Frame
  | .dir h => dirs h
  | .table h i => (dirs h).bind (fun d => m.entry d i)
  | .user h i j =>
    if i < NUPDENTRIES then ((dirs h).bind (fun d => m.entry d i)).bind (fun t => m.entry t j)
    else none
  | .other x => other x

/-- **Every page is free, held, or at home**, in one place only. The words of
the kernel's part of a directory are not for users. -/
structure Pages (P : Set Frame) (dirs : H → Option Frame) (other : X → Option Frame)
    (held : Set Frame) (m : Ram) : Prop where
  small : ∀ f ∈ P, f < 2 ^ 20
  nodup : m.freelist.Nodup
  free : ∀ f ∈ m.freelist, f ∈ P
  ledger : Ledger (m.owner dirs other) {f | f ∈ P ∧ f ∉ m.freelist} held
  kernel : ∀ {h d i t j}, dirs h = some d → NUPDENTRIES ≤ i → m.entry d i = some t →
    j < NPDENTRIES → pteU ((m.page t).word j) = false

variable {dirs : H → Option Frame} {other : X → Option Frame} {m m' : Ram} {P held : Set Frame}

variable {h : H}

theorem owner_table {d : Frame} (hd : dirs h = some d) (i : ℕ) :
    m.owner dirs other (.table h i) = m.entry d i := by
  show (dirs h).bind _ = _
  rw [hd, Option.bind_some]

variable {i : ℕ}

theorem owner_user {d t : Frame} (hd : dirs h = some d) (hi : i < NUPDENTRIES)
    (ht : m.entry d i = some t) (j : ℕ) : m.owner dirs other (.user h i j) = m.entry t j := by
  show (if i < NUPDENTRIES then _ else _) = _
  rw [if_pos hi, hd, Option.bind_some, ht, Option.bind_some]

theorem owner_user_eq_some {j : ℕ} {f : Frame} (hf : m.owner dirs other (.user h i j) = some f) :
    i < NUPDENTRIES ∧ ∃ d t, dirs h = some d ∧ m.entry d i = some t ∧ m.entry t j = some f := by
  dsimp only [owner] at hf
  split at hf
  · next hi =>
    obtain ⟨t, ht, hf⟩ := Option.bind_eq_some_iff.mp hf
    obtain ⟨d, hd, ht⟩ := Option.bind_eq_some_iff.mp ht
    exact ⟨hi, d, t, hd, ht, hf⟩
  · cases hf

/-- The owner of a user page depends on the words on the way to it. -/
theorem owner_user_congr {j : ℕ} (hdir : ∀ {d}, dirs h = some d → m'.entry d i = m.entry d i)
    (htab : ∀ {d t}, dirs h = some d → i < NUPDENTRIES → m.entry d i = some t →
      m'.entry t j = m.entry t j) :
    m'.owner dirs other (.user h i j) = m.owner dirs other (.user h i j) := by
  show (if _ then _ else _) = (if _ then _ else _)
  cases hd : dirs h with
  | none => rfl
  | some d =>
    rw [Option.bind_some, Option.bind_some, hdir hd]
    cases ht : m.entry d i with
    | none => rfl
    | some t =>
      rw [Option.bind_some, Option.bind_some]
      split
      · next hi => exact htab hd hi ht
      · rfl

theorem owner_table_congr (hdir : ∀ {d}, dirs h = some d → m'.entry d i = m.entry d i) :
    m'.owner dirs other (.table h i) = m.owner dirs other (.table h i) := by
  show (dirs h).bind _ = (dirs h).bind _
  cases hd : dirs h with
  | none => rfl
  | some d => exact hdir hd

/-- A page that is no directory and no page table. -/
def Plain (m : Ram) (dirs : H → Option Frame) (f : Frame) : Prop :=
  (∀ h, dirs h ≠ some f) ∧ ∀ h d i, dirs h = some d → m.entry d i ≠ some f

/-- Two memories with the same directories and page tables. -/
structure SameTables (dirs : H → Option Frame) (m m' : Ram) : Prop where
  dir : ∀ {h d}, dirs h = some d → m'.page d = m.page d
  table : ∀ {h d i t}, dirs h = some d → m.entry d i = some t → m'.page t = m.page t

namespace SameTables

theorem entry (hs : SameTables dirs m m') {h : H} {d : Frame} (hd : dirs h = some d) (i : ℕ) :
    m'.entry d i = m.entry d i := by
  unfold Ram.entry
  rw [hs.dir hd]

theorem owner_eq (hs : SameTables dirs m m') : m'.owner dirs other = m.owner dirs other := by
  funext place
  cases place with
  | dir h => rfl
  | other x => rfl
  | table h i => exact owner_table_congr (fun hd => hs.entry hd i)
  | user h i j =>
    refine owner_user_congr (fun hd => hs.entry hd i) (fun hd _ ht => ?_)
    unfold Ram.entry
    rw [hs.table hd ht]

theorem pages (hs : SameTables dirs m m') (hp : m.Pages P dirs other held)
    (hfree : m'.freelist = m.freelist) : m'.Pages P dirs other held where
  small := hp.small
  nodup := hfree ▸ hp.nodup
  free := hfree ▸ hp.free
  ledger := by
    rw [hs.owner_eq, hfree]
    exact hp.ledger
  kernel := by
    intro h d i t j hd hi ht hj
    rw [hs.entry hd] at ht
    rw [hs.table hd ht]
    exact hp.kernel hd hi ht hj

end SameTables

namespace Pages

variable {h : H} {d t f : Frame} {i j : ℕ}

theorem owner_dir (hd : dirs h = some d) : m.owner dirs other (.dir h) = some d := hd

theorem sameTables_setPage (hp : m.Plain dirs f) (x : Page → Page) :
    SameTables dirs m (m.setPage f x) where
  dir := by
    intro h d hd
    exact if_neg (fun hdf : d = f => hp.1 h (hdf ▸ hd))
  table := by
    intro h d i t hd ht
    exact if_neg (fun htf : t = f => hp.2 h d i hd (htf ▸ ht))

theorem entry_setPage_self (x : Page → Page) (i : ℕ) :
    (m.setPage f x).entry f i = pageEntry (x (m.page f)) i :=
  congrArg (pageEntry · i) (if_pos rfl)

theorem entry_setPage_of_ne {g : Frame} (h : g ≠ f) (x : Page → Page) (i : ℕ) :
    (m.setPage f x).entry g i = m.entry g i :=
  congrArg (pageEntry · i) (if_neg h)

theorem owner_of_dirs_ne [DecidableEq H] {v : Option Frame} {h' : H} (hne : h' ≠ h) (i j : ℕ) :
    m.owner (update dirs h v) other (.dir h') = m.owner dirs other (.dir h') ∧
    m.owner (update dirs h v) other (.table h' i) = m.owner dirs other (.table h' i) ∧
    m.owner (update dirs h v) other (.user h' i j) = m.owner dirs other (.user h' i j) := by
  have hdirs : update dirs h v h' = dirs h' := update_of_ne hne v dirs
  unfold owner
  simp only [hdirs, and_self]

variable (hp : m.Pages P dirs other held)

include hp

theorem plain_of_held (hf : f ∈ held) : m.Plain dirs f := by
  refine ⟨fun h hd => hp.ledger.apart (p := .dir h) hd hf, fun h d i hd ht => ?_⟩
  exact hp.ledger.apart (p := .table h i) ((owner_table hd i).trans ht) hf

theorem plain_of_user (hf : m.owner dirs other (.user h i j) = some f) :
    m.Plain dirs f := by
  refine ⟨fun h' hd => ?_, fun h' d i' hd ht => ?_⟩
  · exact nomatch hp.ledger.unique (p := .dir h') hd hf
  · exact nomatch hp.ledger.unique (p := .table h' i') ((owner_table hd i').trans ht) hf

theorem mem_of_owner {place : Home H X}
    (hf : m.owner dirs other place = some f) : f ∈ P ∧ f ∉ m.freelist :=
  hp.ledger.used_of_owner hf

theorem mem_of_held (hf : f ∈ held) : f ∈ P ∧ f ∉ m.freelist :=
  hp.ledger.used_of_held hf

/-- A page with a home of its own kind is written. -/
theorem setPage (hf : m.Plain dirs f) (x : Page → Page) :
    (m.setPage f x).Pages P dirs other held :=
  (sameTables_setPage hf x).pages hp rfl

/-- `kalloc`. -/
theorem take (hfree : m.freelist = f :: m'.freelist)
    (hpage : m'.page = m.page) : m'.Pages P dirs other (insert f held) ∧ f ∉ held := by
  have hsame : SameTables dirs m m' := ⟨fun _ => hpage ▸ rfl, fun _ _ => hpage ▸ rfl⟩
  have hnodup := hp.nodup
  rw [hfree, List.nodup_cons] at hnodup
  have hmem : f ∈ P := hp.free f (hfree ▸ List.mem_cons_self)
  have hunused : f ∉ {f | f ∈ P ∧ f ∉ m.freelist} := fun h => h.2 (hfree ▸ List.mem_cons_self)
  have hused : insert f {f | f ∈ P ∧ f ∉ m.freelist} = {f | f ∈ P ∧ f ∉ m'.freelist} := by
    ext g
    rw [Set.mem_insert_iff, Set.mem_ofPred_eq, Set.mem_ofPred_eq, hfree, List.mem_cons]
    grind
  refine ⟨⟨hp.small, hnodup.2, fun g hg => hp.free g (hfree ▸ List.mem_cons_of_mem _ hg), ?_, ?_⟩,
    fun hheld => hunused (hp.mem_of_held hheld)⟩
  · rw [hsame.owner_eq, ← hused]
    exact hp.ledger.take hunused
  · intro h d i t j hd hi ht hj
    rw [hsame.entry hd] at ht
    rw [hpage]
    exact hp.kernel hd hi ht hj

/-- `kfree` of a page that is held. -/
theorem release (hf : f ∈ held) (x : Page → Page) :
    Pages P dirs other (held \ {f}) { m.setPage f x with freelist := f :: m.freelist } := by
  have hsame := sameTables_setPage (hp.plain_of_held hf) x
  have hused := hp.mem_of_held hf
  refine ⟨hp.small, List.nodup_cons.mpr ⟨hused.2, hp.nodup⟩, ?_, ?_, ?_⟩
  · exact List.forall_mem_cons.mpr ⟨hused.1, hp.free⟩
  · have hset : {g | g ∈ P ∧ g ∉ m.freelist} \ {f} = {g | g ∈ P ∧ g ∉ f :: m.freelist} := by
      ext g
      rw [Set.mem_sdiff, Set.mem_ofPred_eq, Set.mem_ofPred_eq, Set.mem_singleton_iff, List.mem_cons]
      grind
    show Ledger ((m.setPage f x).owner dirs other) {g | g ∈ P ∧ g ∉ f :: m.freelist} _
    rw [hsame.owner_eq, ← hset]
    exact hp.ledger.release hf
  · exact (hsame.pages hp rfl).kernel

/-! ## Words that are stored -/

section directory

variable (hd : dirs h = some d)

include hd

variable {h' : H}

/-- A directory has one holder. -/
theorem dirs_inj (hd' : dirs h' = some d) : h' = h :=
  Home.dir.inj (hp.ledger.unique (p := .dir h') (q := .dir h) hd' hd)

variable {d' : Frame}

/-- A page table is no directory. -/
theorem table_ne_dir (hd' : dirs h' = some d') (ht : m.entry d' i = some t) : t ≠ d := by
  rintro rfl
  exact nomatch hp.ledger.unique (p := .dir h) (q := .table h' i) hd ((owner_table hd' i).trans ht)

/-- A page table has one place in one directory. -/
theorem table_inj {i' : ℕ} (ht : m.entry d i = some t) (hd' : dirs h' = some d')
    (ht' : m.entry d' i' = some t) : h' = h ∧ i' = i := by
  have heq := hp.ledger.unique (p := .table h' i') (q := .table h i)
    ((owner_table hd' i').trans ht') ((owner_table hd i).trans ht)
  exact Home.table.inj heq

variable {w : ℕ}

/-- A word of a directory is stored where no table was, and names an empty one. -/
theorem owner_newTable (hi : i < NPDENTRIES) (hnone : m.entry d i = none) (hf : m.Plain dirs f)
    (hempty : ∀ j, m.entry f j = none) (hw : w < 2 ^ 32) (hpw : pteP w = true)
    (hfw : pteFrame w = f) :
    (m.setPage d (fun x => x.setWord i w)).owner dirs other (.table h i) = some f ∧
    ∀ place, place ≠ .table h i →
      (m.setPage d (fun x => x.setWord i w)).owner dirs other place = m.owner dirs other place := by
  have hself : (m.setPage d (fun x => x.setWord i w)).entry d i = some f := by
    rw [entry_setPage_self, pageEntry_setWord_self _ hi hw, if_pos hpw, hfw]
  have hfd : f ≠ d := fun hfd => hf.1 h (hfd ▸ hd)
  -- the other words of the directories are the same
  have hrest : ∀ {h' d' i'}, dirs h' = some d' → ¬ (h' = h ∧ i' = i) →
      (m.setPage d (fun x => x.setWord i w)).entry d' i' = m.entry d' i' := by
    intro h' d' i' hd' hne
    by_cases hdd : d' = d
    · subst hdd
      have hii : i' ≠ i := fun hii => hne ⟨hp.dirs_inj hd hd', hii⟩
      rw [entry_setPage_self, pageEntry_setWord_of_ne _ _ hii]
      rfl
    · exact entry_setPage_of_ne hdd _ _
  refine ⟨(owner_table hd i).trans hself, fun place hne => ?_⟩
  cases place with
  | dir h' => rfl
  | other x => rfl
  | table h' i' =>
    exact owner_table_congr (fun hd' => hrest hd' (fun heq => hne (heq.1 ▸ heq.2 ▸ rfl)))
  | user h' i' j =>
    by_cases heq : h' = h ∧ i' = i
    · obtain ⟨rfl, rfl⟩ := heq
      show (if _ then _ else _) = (if _ then _ else _)
      rw [hd, Option.bind_some, Option.bind_some, hself, hnone, Option.bind_some,
        entry_setPage_of_ne hfd, hempty]
      rfl
    · refine owner_user_congr (fun hd' => hrest hd' heq) (fun hd' _ ht => ?_)
      exact entry_setPage_of_ne (hp.table_ne_dir hd hd' ht) _ _

/-- `walkpgdir` adds a page table. -/
theorem newTable (hi : i < NPDENTRIES) (hnone : m.entry d i = none) (hf : f ∈ held)
    (hw : w < 2 ^ 32) (hpw : pteP w = true) (hfw : pteFrame w = f)
    (hm' : m' = (m.setPage f (fun _ _ => 0)).setPage d (fun x => x.setWord i w)) :
    m'.Pages P dirs other (held \ {f}) ∧ m'.entry d i = some f ∧
      ∀ place, place ≠ .table h i → m'.owner dirs other place = m.owner dirs other place := by
  have hplain := hp.plain_of_held hf
  have hfd : d ≠ f := fun hdf => hplain.1 h (hdf ▸ hd)
  have hsame := sameTables_setPage hplain (fun _ _ => 0)
  have hp₁ := hsame.pages hp rfl
  have hempty : ∀ j, (m.setPage f (fun _ _ => 0)).entry f j = none :=
    fun j => (entry_setPage_self _ j).trans (pageEntry_zero j)
  have hnone₁ : (m.setPage f (fun _ _ => 0)).entry d i = none :=
    (entry_setPage_of_ne hfd _ i).trans hnone
  obtain ⟨hself, hrest⟩ :=
    hp₁.owner_newTable hd hi hnone₁ (hp₁.plain_of_held hf) hempty hw hpw hfw
  rw [← hm'] at hself hrest
  have hentry : m'.entry d i = some f := (owner_table hd i).symm.trans hself
  refine ⟨⟨hp.small, ?_, ?_, ?_, ?_⟩, hentry, fun place hne => ?_⟩
  · rw [hm']
    exact hp.nodup
  · rw [hm']
    exact hp.free
  · classical
    rw [Function.eq_update_iff.mpr ⟨hself, hrest⟩, hm']
    exact hp₁.ledger.store hf ((owner_table hd i).trans hnone₁)
  · intro h' d' i' t' j' hd' hi' ht' hj'
    by_cases hhi : (Home.table h' i' : Home H X) = .table h i
    · obtain ⟨rfl, rfl⟩ := Home.table.inj hhi
      rw [hd] at hd'
      cases hd'
      rw [hentry] at ht'
      cases ht'
      have hpage : m'.page f = Bytes.zero := by
        rw [hm']
        exact (if_neg hfd.symm).trans (if_pos rfl)
      rw [hpage, Bytes.word_zero]
      rfl
    · have htable := hrest (.table h' i') hhi
      rw [owner_table hd', owner_table hd', ht'] at htable
      have hpage : m'.page t' = (m.setPage f (fun _ _ => 0)).page t' := by
        rw [hm']
        exact if_neg (hp₁.table_ne_dir hd hd' htable.symm)
      rw [hpage]
      exact hp₁.kernel hd' hi' htable.symm hj'
  · exact (hrest place hne).trans (congrFun hsame.owner_eq place)

variable (ht : m.entry d i = some t)

include ht

/-- A word of a page table is stored: the other homes keep their pages. -/
theorem owner_setWord_of_ne (w : ℕ) {place : Home H X}
    (hne : place ≠ .user h i j ∨ NUPDENTRIES ≤ i) :
    (m.setPage t (fun x => x.setWord j w)).owner dirs other place = m.owner dirs other place := by
  have hdir : ∀ {h' d' i'}, dirs h' = some d' →
      (m.setPage t (fun x => x.setWord j w)).entry d' i' = m.entry d' i' :=
    fun hd' => entry_setPage_of_ne (hp.table_ne_dir hd' hd ht).symm _ _
  cases place with
  | dir h' => rfl
  | other x => rfl
  | table h' i' => exact owner_table_congr hdir
  | user h' i' j' =>
    refine owner_user_congr hdir (fun {d' t'} hd' hi' ht' => ?_)
    by_cases htt : t' = t
    · subst htt
      obtain ⟨rfl, rfl⟩ := hp.table_inj hd ht hd' ht'
      have hjj : j' ≠ j := by
        rintro rfl
        rcases hne with hne | hne
        · exact hne rfl
        · exact absurd hi' (Nat.not_lt.mpr hne)
      rw [entry_setPage_self, pageEntry_setWord_of_ne _ _ hjj]
      rfl
    · exact entry_setPage_of_ne htt _ _

theorem owner_setWord_self (hi : i < NUPDENTRIES) (hj : j < NPDENTRIES) (hw : w < 2 ^ 32) :
    (m.setPage t (fun x => x.setWord j w)).owner dirs other (.user h i j)
      = if pteP w = true then some (pteFrame w) else none := by
  have hdir := entry_setPage_of_ne (m := m) (hp.table_ne_dir hd hd ht).symm (fun x => x.setWord j w) i
  rw [owner_user hd hi (hdir.trans ht), entry_setPage_self, pageEntry_setWord_self _ hj hw]

/-- The kernel's words after a word of a page table was stored. -/
theorem kernel_setWord (hw : i < NUPDENTRIES ∨ pteU w = false) {t' : Frame} {i' j' : ℕ}
    (hd' : dirs h' = some d') (hi' : NUPDENTRIES ≤ i')
    (ht' : (m.setPage t (fun x => x.setWord j w)).entry d' i' = some t') (hj' : j' < NPDENTRIES) :
    pteU (((m.setPage t (fun x => x.setWord j w)).page t').word j') = false := by
  rw [entry_setPage_of_ne (hp.table_ne_dir hd' hd ht).symm] at ht'
  have hold := hp.kernel hd' hi' ht' hj'
  by_cases htt : t' = t
  · subst htt
    obtain ⟨rfl, rfl⟩ := hp.table_inj hd ht hd' ht'
    have hw : pteU w = false := hw.resolve_left (Nat.not_lt.mpr hi')
    have hpage : (m.setPage t' (fun x => x.setWord j w)).page t' = (m.page t').setWord j w :=
      if_pos rfl
    rw [hpage]
    by_cases hjj : j' = j
    · subst hjj
      have hj : 4 * j' + 3 < PGSIZE := by
        unfold NPDENTRIES at hj'
        unfold PGSIZE
        omega
      rw [Bytes.word_setWord_self _ _ hj, pteU_eq_testBit, Nat.testBit_mod_two_pow,
        ← pteU_eq_testBit, hw]
      rfl
    · rw [Bytes.word_setWord_of_ne _ _ hjj]
      exact hold
  · have hpage : (m.setPage t (fun x => x.setWord j w)).page t' = m.page t' :=
      if_neg htt
    rw [hpage]
    exact hold

/-! ## The changes -/

/-- `mappages` maps a page that is held for the user. -/
theorem mapUser (hi : i < NUPDENTRIES) (hj : j < NPDENTRIES) (hnone : m.entry t j = none)
    (hf : f ∈ held) (hw : w < 2 ^ 32) (hpw : pteP w = true) (hfw : pteFrame w = f) :
    (m.setPage t (fun x => x.setWord j w)).Pages P dirs other (held \ {f}) := by
  have hself := hp.owner_setWord_self hd ht hi hj hw
  rw [if_pos hpw, hfw] at hself
  refine ⟨hp.small, hp.nodup, hp.free, ?_, hp.kernel_setWord hd ht (.inl hi)⟩
  classical
  rw [Function.eq_update_iff.mpr ⟨hself, fun _ hne => hp.owner_setWord_of_ne hd ht w (.inl hne)⟩]
  exact hp.ledger.store hf ((owner_user hd hi ht j).trans hnone)

/-- `mappages` maps anything for the kernel. -/
theorem mapKernel (hi : NUPDENTRIES ≤ i) (hw : pteU w = false) :
    (m.setPage t (fun x => x.setWord j w)).Pages P dirs other held := by
  refine ⟨hp.small, hp.nodup, hp.free, ?_, hp.kernel_setWord hd ht (.inr hw)⟩
  have howner : (m.setPage t (fun x => x.setWord j w)).owner dirs other = m.owner dirs other :=
    funext (fun _ => hp.owner_setWord_of_ne hd ht w (.inr hi))
  rw [howner]
  exact hp.ledger

/-- A user page is given up: its word is cleared. -/
theorem clear (hi : i < NUPDENTRIES) (hj : j < NPDENTRIES) (hf : m.entry t j = some f) :
    (m.setPage t (fun x => x.setWord j 0)).Pages P dirs other (insert f held) := by
  have hself := hp.owner_setWord_self hd ht hi hj (w := 0) (by decide)
  rw [if_neg (by decide)] at hself
  refine ⟨hp.small, hp.nodup, hp.free, ?_, hp.kernel_setWord hd ht (.inl hi)⟩
  exact hp.ledger.giveUp ((owner_user hd hi ht j).trans hf) hself
    (fun _ hne => hp.owner_setWord_of_ne hd ht 0 (.inl hne))

/-- `deallocuvm` frees a user page, and then clears its word. -/
theorem unmap
    (hi : i < NUPDENTRIES) (hj : j < NPDENTRIES) (hf : m.entry t j = some f) (x : Page → Page)
    (hm' : m' = Ram.setPage t (fun x => x.setWord j 0)
      { m.setPage f x with freelist := f :: m.freelist }) :
    m'.Pages P dirs other held ∧ m'.owner dirs other (.user h i j) = none ∧
      ∀ place, place ≠ .user h i j → m'.owner dirs other place = m.owner dirs other place := by
  have howner : m.owner dirs other (.user h i j) = some f := (owner_user hd hi ht j).trans hf
  have hplain := hp.plain_of_user howner
  have htf : t ≠ f := fun htf => hplain.2 h d i hd (htf ▸ ht)
  have hheld : f ∉ held := hp.ledger.apart howner
  have hp₁ := hp.clear hd ht hi hj hf
  have hsame := sameTables_setPage (hp₁.plain_of_held (Set.mem_insert f held)) x
  have hp₂ := hp₁.release (Set.mem_insert f held) x
  rw [Set.insert_sdiff_self_of_notMem hheld] at hp₂
  -- the two writes are to different pages
  have hcomm : m' = { (m.setPage t (fun x => x.setWord j 0)).setPage f x with
      freelist := f :: m.freelist } := by
    rw [hm']
    unfold Ram.setPage
    simp only [if_neg htf, if_neg htf.symm, Ram.mk.injEq, true_and, and_true]
    funext g
    grind
  have howner' : m'.owner dirs other = (m.setPage t (fun x => x.setWord j 0)).owner dirs other := by
    rw [← hsame.owner_eq, hcomm]
    rfl
  rw [howner']
  refine ⟨hcomm ▸ hp₂, ?_, fun _ hne => hp.owner_setWord_of_ne hd ht 0 (.inl hne)⟩
  exact (hp.owner_setWord_self hd ht hi hj (by decide)).trans (if_neg (by decide))

/-- The homes of pages do not depend on the flags of a word. -/
theorem owner_setFlags (hi : i < NUPDENTRIES) (hj : j < NPDENTRIES) (hw : w < 2 ^ 32)
    (hpw : pteP w = pteP ((m.page t).word j)) (hfw : pteFrame w = pteFrame ((m.page t).word j)) :
    (m.setPage t (fun x => x.setWord j w)).owner dirs other = m.owner dirs other := by
  have hself := hp.owner_setWord_self hd ht hi hj hw
  have hold : m.owner dirs other (.user h i j) = if pteP w = true then some (pteFrame w) else none := by
    rw [owner_user hd hi ht, hpw, hfw]
    show (if _ then _ else _) = _
    simp only [hj, true_and]
  funext place
  by_cases hne : place = .user h i j
  · rw [hne, hself, hold]
  · exact hp.owner_setWord_of_ne hd ht w (.inl hne)

/-- The flags of a word change. -/
theorem setFlags (hi : i < NUPDENTRIES) (hj : j < NPDENTRIES) (hw : w < 2 ^ 32)
    (hpw : pteP w = pteP ((m.page t).word j)) (hfw : pteFrame w = pteFrame ((m.page t).word j)) :
    (m.setPage t (fun x => x.setWord j w)).Pages P dirs other held := by
  refine ⟨hp.small, hp.nodup, hp.free, ?_, hp.kernel_setWord hd ht (.inl hi)⟩
  rw [hp.owner_setFlags hd ht hi hj hw hpw hfw]
  exact hp.ledger

end directory

/-! ## Directories and other homes -/

/-- `setupkvm` takes a page for a directory. -/
theorem newDir [DecidableEq H] (hh : dirs h = none) (hf : f ∈ held)
    (hempty : ∀ i, m.entry f i = none) :
    m.Pages P (update dirs h (some f)) other (held \ {f}) := by
  have hd : update dirs h (some f) h = some f := update_self h _ dirs
  have hplain := hp.plain_of_held hf
  refine ⟨hp.small, hp.nodup, hp.free, ?_, ?_⟩
  · classical
    have hrest : ∀ place, place ≠ .dir h →
        m.owner (update dirs h (some f)) other place = m.owner dirs other place := by
      intro place hne
      cases place with
      | other x => rfl
      | dir h' => exact update_of_ne (fun heq : h' = h => hne (congrArg Home.dir heq)) _ _
      | table h' i =>
        by_cases heq : h' = h
        · subst heq
          rw [owner_table hd, hempty]
          show _ = (dirs h').bind _
          rw [hh]
          rfl
        · exact (owner_of_dirs_ne heq i 0).2.1
      | user h' i j =>
        by_cases heq : h' = h
        · subst heq
          show (if _ then _ else _) = (if _ then _ else _)
          rw [hd, hh, Option.bind_some, hempty]
          rfl
        · exact (owner_of_dirs_ne heq i j).2.2
    have hself : m.owner (update dirs h (some f)) other (.dir h) = some f := hd
    rw [Function.eq_update_iff.mpr ⟨hself, hrest⟩]
    exact hp.ledger.store hf hh
  · intro h' d' i t j hd' hi ht hj
    by_cases heq : h' = h
    · subst heq
      rw [hd] at hd'
      cases hd'
      rw [hempty] at ht
      cases ht
    · rw [update_of_ne heq] at hd'
      exact hp.kernel hd' hi ht hj

omit hp in
/-- The pages of a directory without user pages. -/
def dirPages (m : Ram) (d : Frame) : Set Frame := {f | f = d ∨ ∃ i, m.entry d i = some f}

/-- `freevm` takes a directory without user pages apart. -/
theorem dropDir [DecidableEq H] (hd : dirs h = some d)
    (hempty : ∀ i j, m.owner dirs other (.user h i j) = none) :
    m.Pages P (update dirs h none) other (held ∪ dirPages m d) := by
  have hh : update dirs h none h = none := update_self h _ dirs
  refine ⟨hp.small, hp.nodup, hp.free, ?_, ?_⟩
  · have hled : Ledger (m.owner (update dirs h none) other) _ _ := hp.ledger.vacate
      (fun place => place = .dir h ∨ (∃ i, place = .table h i) ∨ ∃ i j, place = .user h i j) ?_ ?_
    · have hset : dirPages m d = {b | ∃ place : Home H X, (place = .dir h ∨ (∃ i, place = .table h i) ∨
          ∃ i j, place = .user h i j) ∧ m.owner dirs other place = some b} := by
        ext g
        constructor
        · rintro (rfl | ⟨i, hg⟩)
          · exact ⟨.dir h, .inl rfl, hd⟩
          · exact ⟨.table h i, .inr (.inl ⟨i, rfl⟩), (owner_table hd i).trans hg⟩
        · rintro ⟨_, rfl | ⟨i, rfl⟩ | ⟨i, j, rfl⟩, hg⟩
          · exact .inl (Option.some.inj (hg.symm.trans hd))
          · exact .inr ⟨i, (owner_table hd i).symm.trans hg⟩
          · rw [hempty] at hg
            cases hg
      rw [hset]
      exact hled
    · rintro _ (rfl | ⟨i, rfl⟩ | ⟨i, j, rfl⟩)
      · exact hh
      · show (update dirs h none h).bind _ = none
        rw [hh]
        rfl
      · show (if _ then _ else _) = none
        rw [hh]
        exact ite_self _
    · intro place hne
      cases place with
      | other x => rfl
      | dir h' =>
        exact (owner_of_dirs_ne (fun heq : h' = h => hne (.inl (congrArg Home.dir heq))) 0 0).1
      | table h' i =>
        have hne : h' ≠ h := fun heq => hne (.inr (.inl ⟨i, congrArg (Home.table · i) heq⟩))
        exact (owner_of_dirs_ne hne i 0).2.1
      | user h' i j =>
        have hne : h' ≠ h := fun heq => hne (.inr (.inr ⟨i, j, congrArg (Home.user · i j) heq⟩))
        exact (owner_of_dirs_ne hne i j).2.2
  · intro h' d' i t j hd' hi ht hj
    have heq : h' ≠ h := by
      rintro rfl
      rw [hh] at hd'
      cases hd'
    rw [update_of_ne heq] at hd'
    exact hp.kernel hd' hi ht hj

/-- A directory gets another holder. -/
theorem moveDir [DecidableEq H] {h' : H} (hh : dirs h' = none) :
    m.Pages P (update (update dirs h none) h' (dirs h)) other held := by
  have hdirs : ∀ x, update (update dirs h none) h' (dirs h) x
      = dirs (Equiv.swap h h' x) := by
    intro x
    rw [Equiv.swap_apply_def, update_apply, update_apply]
    grind
  refine ⟨hp.small, hp.nodup, hp.free, ?_, fun hd => hp.kernel ((hdirs _).symm.trans hd)⟩
  have howner : m.owner (update (update dirs h none) h' (dirs h)) other
      = fun place => m.owner dirs other (Home.mapEquiv (Equiv.swap h h') place) := by
    funext place
    unfold owner
    simp only [hdirs]
    cases place <;> rfl
  rw [howner]
  exact hp.ledger.reindex _

/-- A page that is held gets a home that `vm.c` does not look into. -/
theorem keep [DecidableEq X] {x : X} (hx : other x = none)
    (hf : f ∈ held) : m.Pages P dirs (update other x (some f)) (held \ {f}) := by
  refine ⟨hp.small, hp.nodup, hp.free, ?_, hp.kernel⟩
  classical
  have howner : m.owner dirs (update other x (some f))
      = update (m.owner dirs other) (.other x) (some f) := by
    refine Function.eq_update_iff.mpr ⟨update_self x _ other, fun place hne => ?_⟩
    cases place with
    | other y => exact update_of_ne (fun heq : y = x => hne (congrArg Home.other heq)) _ _
    | dir _ | table _ _ | user _ _ _ => rfl
  rw [howner]
  exact hp.ledger.store hf hx

/-- A home that `vm.c` does not look into is given up. -/
theorem giveUp [DecidableEq X] {x : X} (hx : other x = some f) :
    m.Pages P dirs (update other x none) (insert f held) := by
  refine ⟨hp.small, hp.nodup, hp.free, ?_, hp.kernel⟩
  refine hp.ledger.giveUp (p := Home.other x) hx (update_self x _ other) (fun place hne => ?_)
  cases place with
  | other y => exact update_of_ne (fun heq : y = x => hne (congrArg Home.other heq)) _ _
  | dir _ | table _ _ | user _ _ _ => rfl

end Pages

end Ram

end Xv6
