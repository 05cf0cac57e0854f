import Xv6.Sys.ExecLoad

/-!
# The stack that `exec` builds

`exec` copies the arguments to the top of the new address space, one below the
other, and below them the words that `main` finds on its stack. The pointers are
computed in unsigned arithmetic before anything is known to fit: it is `copyout`
that says so, as the page below the stack is not for users. A block that is copied
ends at most three bytes below the one before it, so one that leaves the stack page
has a byte in the page below, or wraps around to the kernel's part of memory.

So if every `copyout` succeeds, the whole block is in the stack page, and nothing in
it has been written over.
-/

namespace Xv6

open Wp

/-! ## Words -/

theorem length_wordBytes (w : ℕ) : (wordBytes w).length = 4 := rfl

theorem length_flatMap_wordBytes (ws : List ℕ) : (ws.flatMap wordBytes).length = 4 * ws.length := by
  induction ws with
  | nil => rfl
  | cons w ws ih =>
    rw [List.flatMap_cons, List.length_append, length_wordBytes, ih, List.length_cons]
    omega

/-- The bytes of a word of a block. -/
theorem getElem?_flatMap_wordBytes {ws : List ℕ} {i j w : ℕ} (hw : ws[i]? = some w) (hj : j < 4) :
    (ws.flatMap wordBytes)[4 * i + j]? = (wordBytes w)[j]? := by
  induction ws generalizing i with
  | nil => cases hw
  | cons x ws ih =>
    rw [List.flatMap_cons]
    cases i with
    | zero =>
      cases hw
      rw [Nat.mul_zero, Nat.zero_add, List.getElem?_append_left (by rw [length_wordBytes]; exact hj)]
    | succ i =>
      rw [List.getElem?_append_right (by rw [length_wordBytes]; omega), length_wordBytes,
        show 4 * (i + 1) + j - 4 = 4 * i + j by omega]
      exact ih hw

namespace Ram

/-- The word at an address, if users can reach it. -/
def wordAtUser (m : Ram) (d : Frame) (a : ℕ) : Option ℕ :=
  match m.byteAt d a, m.byteAt d (a + 1), m.byteAt d (a + 2), m.byteAt d (a + 3) with
  | some b₀, some b₁, some b₂, some b₃ =>
    some (b₀.toNat + 2 ^ 8 * b₁.toNat + 2 ^ 16 * b₂.toNat + 2 ^ 24 * b₃.toNat)
  | _, _, _, _ => none

theorem wordAtUser_of_bytes {m : Ram} {d : Frame} {a w : ℕ} (hw : w < 2 ^ 32)
    (h : ∀ j < 4, m.byteAt d (a + j) = (wordBytes w)[j]?) : m.wordAtUser d a = some w := by
  have h₀ : m.byteAt d a = some (UInt8.ofNat w) := h 0 (by decide)
  have h₁ : m.byteAt d (a + 1) = some (UInt8.ofNat (w / 2 ^ 8)) := h 1 (by decide)
  have h₂ : m.byteAt d (a + 2) = some (UInt8.ofNat (w / 2 ^ 16)) := h 2 (by decide)
  have h₃ : m.byteAt d (a + 3) = some (UInt8.ofNat (w / 2 ^ 24)) := h 3 (by decide)
  unfold wordAtUser
  rw [h₀, h₁, h₂, h₃]
  simp only [UInt8.toNat_ofNat', Option.some.injEq]
  omega

end Ram

/-! ## Fit -/

/-- A block of bytes below `sp`, aligned. -/
def blockAt (sp len : ℕ) : ℕ := usub sp len / 4 * 4

/-- **A block that users can reach is in the stack page.** The page with number `g` is
the one below the stack page, and users can reach pages below the stack's end only. -/
theorem blockAt_fits {g sp len : ℕ} (hg : (g + 2) * PGSIZE < KERNBASE) (hsp : sp % 4 = 0)
    (hlow : (g + 1) * PGSIZE ≤ sp) (hhigh : sp ≤ (g + 2) * PGSIZE) (hlen : 0 < len)
    (hall : ∀ k, Ram.Overlaps (blockAt sp len) len k → k < g + 2 ∧ k ≠ g) :
    len ≤ sp ∧ blockAt sp len = (sp - len) / 4 * 4 ∧ (g + 1) * PGSIZE ≤ blockAt sp len := by
  have hpage : ∀ a, blockAt sp len ≤ a → a < blockAt sp len + len →
      a < (g + 2) * PGSIZE ∧ a / PGSIZE ≠ g := by
    intro a ha ha'
    obtain ⟨hlt, hne⟩ := hall (a / PGSIZE) ⟨a, ha, ha', rfl⟩
    refine ⟨?_, hne⟩
    unfold PGSIZE at hlt ⊢
    omega
  -- the last byte bounds the length, so the difference wraps to the kernel's part or not at all
  have hlast := (hpage (blockAt sp len + len - 1) (by omega) (by omega)).1
  have hle : len ≤ sp := by
    by_contra hlt
    have hbig : usub sp len = sp + 2 ^ 32 - len := by
      unfold usub KERNBASE at *
      omega
    unfold blockAt at hlast
    rw [hbig] at hlast
    unfold KERNBASE at hg
    omega
  have hsub : usub sp len = sp - len := by
    unfold usub KERNBASE at *
    omega
  have hblock : blockAt sp len = (sp - len) / 4 * 4 := by
    unfold blockAt
    rw [hsub]
  refine ⟨hle, hblock, ?_⟩
  by_contra hbelow
  -- a byte in the page below the stack
  by_cases hend : (g + 1) * PGSIZE ≤ blockAt sp len + len
  · refine (hpage ((g + 1) * PGSIZE - 1) (by omega) ?_).2 ?_
    · unfold PGSIZE at *
      omega
    · unfold PGSIZE
      omega
  · refine (hpage (blockAt sp len + len - 1) (by omega) (by omega)).2 ?_
    unfold PGSIZE at *
    omega

/-! ## Strings -/

section Placed

variable {m m' : Ram} {d : Frame} {top bot : ℕ} {argv : List (List UInt8)} {ptrs : List ℕ}

/-- **Strings one below the other**, each with its zero: from `top` down to `bot`. -/
inductive Placed (m : Ram) (d : Frame) : ℕ → List (List UInt8) → List ℕ → ℕ → Prop
  | nil (top : ℕ) : Placed m d top [] [] top
  | cons {top p bot : ℕ} {arg : List UInt8} {argv : List (List UInt8)} {ptrs : List ℕ}
      (hle : arg.length + 1 ≤ top) (hp : p = (top - (arg.length + 1)) / 4 * 4)
      (hbytes : ∀ i < arg.length + 1, m.byteAt d (p + i) = (arg ++ [0])[i]?)
      (hrest : Placed m d p argv ptrs bot) : Placed m d top (arg :: argv) (p :: ptrs) bot

/-- The space that strings take. -/
def stringSpace (argv : List (List UInt8)) : ℕ := (argv.map (fun arg => (arg.length + 4) / 4 * 4)).sum

/-- Where a string is. -/
def stringRegions (argv : List (List UInt8)) (ptrs : List ℕ) : List (ℕ × ℕ) :=
  List.zipWith (fun p arg => (p, List.length arg + 1)) ptrs argv

namespace Placed

variable (h : Placed m d top argv ptrs bot)

include h

theorem length_eq : ptrs.length = argv.length := by
  induction h with
  | nil => rfl
  | cons _ _ _ _ ih => rw [List.length_cons, List.length_cons, ih]

/-- The space is exact. -/
theorem space (htop : top % 4 = 0) :
    bot + stringSpace argv = top ∧ bot % 4 = 0 := by
  induction h with
  | nil => exact ⟨rfl, htop⟩
  | @cons top p bot arg argv ptrs hle hp _ _ ih =>
    obtain ⟨hsum, hbot⟩ := ih (by omega)
    refine ⟨?_, hbot⟩
    have hcons : stringSpace (arg :: argv) = (arg.length + 4) / 4 * 4 + stringSpace argv := by
      unfold stringSpace
      rw [List.map_cons, List.sum_cons]
    omega

/-- Nothing above `bot` has changed. -/
theorem congr (habove : ∀ a, bot ≤ a → m'.byteAt d a = m.byteAt d a) (htop : top % 4 = 0) :
    Placed m' d top argv ptrs bot := by
  induction h with
  | nil => exact .nil _
  | @cons top p bot arg argv ptrs hle hp hbytes hrest ih =>
    have hp4 : p % 4 = 0 := by omega
    refine .cons hle hp (fun i hi => ?_) (ih habove hp4)
    have := (hrest.space hp4).1
    rw [habove (p + i) (by omega)]
    exact hbytes i hi

theorem le_top : ∀ p ∈ ptrs, p ≤ top := by
  induction h with
  | nil => exact fun _ hp => nomatch hp
  | cons hle hp _ _ ih =>
    intro q hq
    rcases List.mem_cons.mp hq with rfl | hq
    · omega
    · have := ih q hq
      omega

/-- Every string is there. -/
theorem string {i p : ℕ} {arg : List UInt8} (hp : ptrs[i]? = some p) (harg : argv[i]? = some arg) :
    ∀ j < arg.length + 1, m.byteAt d (p + j) = (arg ++ [0])[j]? := by
  induction h generalizing i with
  | nil => cases hp
  | cons _ _ hbytes _ ih =>
    cases i with
    | zero =>
      cases hp
      cases harg
      exact hbytes
    | succ i => exact ih hp harg

/-- The strings lie between `bot` and `top`. -/
theorem regions_inside (htop : top % 4 = 0) :
    ∀ reg ∈ stringRegions argv ptrs, bot ≤ reg.1 ∧ reg.1 + reg.2 ≤ top := by
  induction h with
  | nil => exact fun _ hreg => nomatch hreg
  | @cons top p bot arg argv ptrs hle hp _ hrest ih =>
    have hp4 : p % 4 = 0 := by omega
    have hbot := (hrest.space hp4).1
    intro reg hreg
    rcases List.mem_cons.mp hreg with rfl | hreg
    · dsimp only
      omega
    · have := ih hp4 reg hreg
      omega

/-- No two strings overlap. -/
theorem regions_disjoint (htop : top % 4 = 0) :
    (stringRegions argv ptrs).Pairwise (fun x y => y.1 + y.2 ≤ x.1) := by
  induction h with
  | nil => exact List.Pairwise.nil
  | @cons top p bot arg argv ptrs hle hp _ hrest ih =>
    have hp4 : p % 4 = 0 := by omega
    refine List.pairwise_cons.mpr ⟨fun reg hreg => ?_, ih hp4⟩
    exact (hrest.regions_inside hp4 reg hreg).2

end Placed

end Placed

/-! ## The block -/

/-- Users can reach pages below the end of the stack only, and not the page below the
stack page, which has number `g`. -/
def Guarded (m : Ram) (d : Frame) (g : ℕ) : Prop := ∀ k, m.upage d k ≠ none → k < g + 2 ∧ k ≠ g

/-- **The block of arguments** in the stack page, which ends at `sz`: the words that
`main` finds at `esp`, the vector at `a`, and the strings. -/
structure ArgBlock (m : Ram) (d : Frame) (sz esp a : ℕ) (argv : List (List UInt8))
    (ptrs : List ℕ) : Prop where
  aligned : esp % 4 = 0
  retpc : m.wordAtUser d esp = some 0xFFFFFFFF
  argc : m.wordAtUser d (esp + 4) = some argv.length
  vector : m.wordAtUser d (esp + 8) = some a
  length : ptrs.length = argv.length
  pointer : ∀ i < argv.length, m.wordAtUser d (a + 4 * i) = ptrs[i]?
  null : m.wordAtUser d (a + 4 * argv.length) = some 0
  string : ∀ (i p : ℕ) (arg : List UInt8), ptrs[i]? = some p → argv[i]? = some arg →
    ∀ j < arg.length + 1, m.byteAt d (p + j) = (arg ++ [0])[j]?
  inside : ∀ reg ∈ (esp, 12) :: (a, 4 * (argv.length + 1)) :: stringRegions argv ptrs,
    sz - PGSIZE ≤ reg.1 ∧ reg.1 + reg.2 ≤ sz
  disjoint : ((esp, 12) :: (a, 4 * (argv.length + 1)) :: stringRegions argv ptrs).Pairwise
    (fun x y => x.1 + x.2 ≤ y.1 ∨ y.1 + y.2 ≤ x.1)

theorem ArgBlock.congr {m m' : Ram} {d : Frame} {sz esp a : ℕ} {argv : List (List UInt8)}
    {ptrs : List ℕ} (h : ArgBlock m d sz esp a argv ptrs)
    (hbyte : ∀ a, m'.byteAt d a = m.byteAt d a) : ArgBlock m' d sz esp a argv ptrs := by
  have hword : ∀ a, m'.wordAtUser d a = m.wordAtUser d a := by
    intro a
    unfold Ram.wordAtUser
    rw [hbyte, hbyte, hbyte, hbyte]
  obtain ⟨haligned, hretpc, hargc, hvector, hlength, hpointer, hnull, hstring, hinside, hdisjoint⟩ := h
  simp only [← hword] at hretpc hargc hvector hpointer hnull
  simp only [← hbyte] at hstring
  exact ⟨haligned, hretpc, hargc, hvector, hlength, hpointer, hnull, hstring, hinside, hdisjoint⟩

/-- The words that `exec` pushes below the strings. -/
def mainWords (esp : ℕ) (ptrs : List ℕ) : List ℕ := [0xFFFFFFFF, ptrs.length, esp + 12] ++ ptrs ++ [0]

/-- The strings and the words make the block. -/
theorem Placed.argBlock {m : Ram} {d : Frame} {sz bot esp : ℕ} {argv : List (List UInt8)}
    {ptrs : List ℕ} (h : Placed m d sz argv ptrs bot) (hsz : sz % 4 = 0)
    (hesp : esp + 4 * (argv.length + 4) = bot) (hlow : sz - PGSIZE ≤ esp)
    (hwords : ∀ i w, (mainWords esp ptrs)[i]? = some w → m.wordAtUser d (esp + 4 * i) = some w) :
    ArgBlock m d sz esp (esp + 12) argv ptrs where
  aligned := by
    have := (h.space hsz).2
    omega
  retpc := hwords 0 _ rfl
  argc := by
    rw [hwords 1 _ rfl, h.length_eq]
  vector := hwords 2 _ rfl
  length := h.length_eq
  pointer := by
    intro i hi
    have hlt : i < ptrs.length := h.length_eq ▸ hi
    have hword : (mainWords esp ptrs)[i + 3]? = some ptrs[i] := by
      unfold mainWords
      rw [List.append_assoc, List.getElem?_append_right (by simp)]
      exact (List.getElem?_append_left hlt).trans (List.getElem?_eq_getElem hlt)
    rw [List.getElem?_eq_getElem hlt, ← hwords (i + 3) _ hword]
    congr 1
    omega
  null := by
    have hword : (mainWords esp ptrs)[argv.length + 3]? = some 0 := by
      unfold mainWords
      rw [List.getElem?_append_right (by simp [h.length_eq])]
      simp [h.length_eq]
    rw [← hwords (argv.length + 3) _ hword]
    congr 1
    omega
  string := fun i p arg hp harg => h.string hp harg
  inside := by
    have hbot := (h.space hsz).1
    intro reg hreg
    rcases List.mem_cons.mp hreg with rfl | hreg
    · dsimp only
      omega
    rcases List.mem_cons.mp hreg with rfl | hreg
    · dsimp only
      omega
    · have := h.regions_inside hsz reg hreg
      omega
  disjoint := by
    refine List.pairwise_cons.mpr ⟨fun reg hreg => .inl ?_, List.pairwise_cons.mpr
      ⟨fun reg hreg => .inl ?_, (h.regions_disjoint hsz).imp (fun hle => .inr hle)⟩⟩
    · rcases List.mem_cons.mp hreg with rfl | hreg
      · exact le_refl _
      · have := h.regions_inside hsz reg hreg
        dsimp only
        omega
    · have := h.regions_inside hsz reg hreg
      dsimp only
      omega

namespace Sys

variable {s s' s'' : Sys} {P held : Set Frame} {R : SysHalt → Prop}
variable {H X : Type} {D : H → Option Frame} {O : X → Option Frame} {h : H} {d : Frame} {g sp : ℕ}

/-- Nothing has been mapped or unmapped meanwhile. -/
structure Pushed (P : Set Frame) (D : H → Option Frame) (O : X → Option Frame) (held : Set Frame)
    (h : H) (d : Frame) (s s' : Sys) : Prop where
  building : Building P D O held h s s'
  mapped : ∀ q, s'.ram.mapped D h q = s.ram.mapped D h q
  upage : ∀ k, s'.ram.upage d k = s.ram.upage d k

theorem Pushed.refl (hp : s.ram.Pages P D O held) : Pushed P D O held h d s s :=
  ⟨.refl hp, fun _ => rfl, fun _ => rfl⟩

theorem Pushed.trans (h₁ : Pushed P D O held h d s s') (h₂ : Pushed P D O held h d s' s'') :
    Pushed P D O held h d s s'' :=
  ⟨h₁.building.trans h₂.building, fun q => (h₂.mapped q).trans (h₁.mapped q),
    fun k => (h₂.upage k).trans (h₁.upage k)⟩

theorem Pushed.guarded (h₁ : Pushed P D O held h d s s') (hguard : Guarded s.ram d g) :
    Guarded s'.ram d g := by
  intro k hk
  rw [h₁.upage] at hk
  exact hguard k hk

/-- **A block is pushed**: if `copyout` succeeds, it is in the stack page, and what is
above is as it was. -/
theorem wp_push (hnull : R (.vm .null)) (hd : D h = some d) (hp : s.ram.Pages P D O held)
    (hguard : Guarded s.ram d g) (hg : (g + 2) * PGSIZE < KERNBASE) (hsp : sp % 4 = 0)
    (hlow : (g + 1) * PGSIZE ≤ sp) (hhigh : sp ≤ (g + 2) * PGSIZE) (buf : List UInt8)
    (hbuf : 0 < buf.length) :
    wp (vm (Ram.copyout d (blockAt sp buf.length) buf)) (fun r s' => Pushed P D O held h d s s' ∧
      (¬ r < 0 → buf.length ≤ sp ∧ blockAt sp buf.length = (sp - buf.length) / 4 * 4 ∧
        (g + 1) * PGSIZE ≤ blockAt sp buf.length ∧
        (∀ i < buf.length, s'.ram.byteAt d (blockAt sp buf.length + i) = buf[i]?) ∧
        ∀ a, sp ≤ a → s'.ram.byteAt d a = s.ram.byteAt d a)) R s := by
  have hva : blockAt sp buf.length < 2 ^ 32 := by
    unfold blockAt usub
    omega
  rw [wp_vm]
  refine (hp.wp_copyout hd hnull hva buf).imp (fun r m ⟨hp', hsame, hleaves, hwithin, hr⟩ => ?_)
  refine ⟨⟨.of_ram hp' hleaves, hsame.mapped_eq, hwithin.upage⟩, fun hneg => ?_⟩
  obtain ⟨-, hall, hbytes⟩ := hr.resolve_right (fun hfail => hneg (by rw [hfail.1]; decide))
  obtain ⟨hle, hblock, hfits⟩ := blockAt_fits hg hsp hlow hhigh hbuf
    (fun k hk => hguard k (hall k hk))
  refine ⟨hle, hblock, hfits, hbytes, fun a ha => hwithin.outside a (fun hin => ?_)⟩
  omega

/-- **The loop of `exec` over the arguments.** -/
theorem wp_execArgs (hnull : R (.vm .null)) (hd : D h = some d) (hp : s.ram.Pages P D O held)
    (hguard : Guarded s.ram d g) (hg : (g + 2) * PGSIZE < KERNBASE) (argv : List (List UInt8))
    (hsp : sp % 4 = 0) (hlow : (g + 1) * PGSIZE ≤ sp) (hhigh : sp ≤ (g + 2) * PGSIZE)
    (ustack : List ℕ) :
    wp (execArgs d argv sp ustack) (fun r s' => Pushed P D O held h d s s' ∧
      ∀ sp' us, r = some (sp', us) → ∃ ptrs, us = ustack ++ ptrs ∧
        Placed s'.ram d sp argv ptrs sp' ∧ (g + 1) * PGSIZE ≤ sp' ∧
        ∀ a, sp ≤ a → s'.ram.byteAt d a = s.ram.byteAt d a) R s := by
  induction argv generalizing s sp ustack with
  | nil =>
    refine ⟨.refl hp, fun sp' us heq => ?_⟩
    cases heq
    exact ⟨[], (List.append_nil _).symm, .nil _, hlow, fun _ _ => rfl⟩
  | cons arg argv ih =>
    unfold execArgs
    split
    · exact ⟨.refl hp, nofun⟩
    dsimp only
    have hlen : (arg ++ [0]).length = arg.length + 1 := List.length_append
    have hpush := wp_push hnull hd hp hguard hg hsp hlow hhigh (arg ++ [0]) (by omega)
    rw [hlen] at hpush
    rw [wp_bind]
    refine hpush.imp (fun r s₁ ⟨hpushed, hr⟩ => ?_)
    split
    · exact ⟨hpushed, nofun⟩
    next hneg =>
    obtain ⟨hle, hblock, hfits, hbytes, habove⟩ := hr hneg
    refine (ih hpushed.building.pages (hpushed.guarded hguard) (by omega) hfits (by omega) _).imp
      (fun r s₂ ⟨hpushed₂, hr₂⟩ => ⟨hpushed.trans hpushed₂, fun sp' us heq => ?_⟩)
    obtain ⟨ptrs, hus, hplaced, hfits', habove₂⟩ := hr₂ sp' us heq
    refine ⟨blockAt sp (arg.length + 1) :: ptrs, ?_, .cons hle hblock (fun i hi => ?_) hplaced,
      hfits', fun a ha => ?_⟩
    · rw [hus, List.append_assoc]
      rfl
    · rw [habove₂ _ (by unfold blockAt; omega)]
      exact hbytes i hi
    · rw [habove₂ a (by unfold blockAt at hblock; omega), habove a ha]

/-- **The stack that `exec` builds**: if it succeeds, the block of arguments is there. -/
theorem wp_execStack (hnull : R (.vm .null)) (hd : D h = some d) (hp : s.ram.Pages P D O held)
    (hguard : Guarded s.ram d g) (hg : (g + 2) * PGSIZE < KERNBASE) (argv : List (List UInt8)) :
    wp (execStack d argv ((g + 2) * PGSIZE)) (fun r s' => Pushed P D O held h d s s' ∧
      ∀ esp, r = some esp → stringSpace argv + 4 * (argv.length + 4) ≤ PGSIZE ∧
        ∃ ptrs, ArgBlock s'.ram d ((g + 2) * PGSIZE) esp (esp + 12) argv ptrs) R s := by
  have hsz : (g + 2) * PGSIZE % 4 = 0 := by
    unfold PGSIZE
    omega
  have hpage : (g + 2) * PGSIZE = (g + 1) * PGSIZE + PGSIZE := Nat.succ_mul (g + 1) PGSIZE
  have hlow : (g + 1) * PGSIZE ≤ (g + 2) * PGSIZE := by omega
  unfold execStack
  refine (wp_execArgs hnull hd hp hguard hg argv hsz hlow (le_refl _) []).bind (fun r s₁ ⟨hpushed, hr⟩ => ?_)
  cases r with
  | none => exact ⟨hpushed, nofun⟩
  | some r =>
    obtain ⟨ptrs, hptrs, hplaced, hfits, -⟩ := hr r.1 r.2 rfl
    rw [List.nil_append] at hptrs
    have hargc := hplaced.length_eq
    obtain ⟨hspace, hbot⟩ := hplaced.space hsz
    dsimp only
    rw [hptrs]
    generalize hws : [0xFFFFFFFF, ptrs.length, usub r.1 ((ptrs.length + 1) * 4)] ++ ptrs ++ [0] = ws
    have hlen : (ws.flatMap wordBytes).length = (3 + ptrs.length + 1) * 4 := by
      rw [length_flatMap_wordBytes, ← hws]
      simp
      omega
    have haligned : blockAt r.1 ((3 + ptrs.length + 1) * 4) = usub r.1 ((3 + ptrs.length + 1) * 4) := by
      unfold blockAt usub
      omega
    have hpush := wp_push hnull hd hpushed.building.pages (hpushed.guarded hguard) hg hbot hfits
      (by omega) (ws.flatMap wordBytes) (by omega)
    rw [hlen, haligned] at hpush
    rw [wp_bind]
    refine hpush.imp (fun r' s₂ ⟨hpushed₂, hr₂⟩ => ?_)
    split
    · exact ⟨hpushed.trans hpushed₂, nofun⟩
    next hneg =>
    refine ⟨hpushed.trans hpushed₂, fun esp hesp => ?_⟩
    cases hesp
    obtain ⟨hle, hblock, hfits', hbytes, habove⟩ := hr₂ hneg
    have hesp : usub r.1 ((3 + ptrs.length + 1) * 4) + 4 * (argv.length + 4) = r.1 := by omega
    refine ⟨?_, ptrs, (hplaced.congr habove hsz).argBlock hsz hesp ?_ (fun i w hw => ?_)⟩
    · omega
    · omega
    · have hmain : mainWords (usub r.1 ((3 + ptrs.length + 1) * 4)) ptrs = ws := by
        rw [← hws]
        unfold mainWords
        rw [show usub r.1 ((ptrs.length + 1) * 4) = usub r.1 ((3 + ptrs.length + 1) * 4) + 12 by
          unfold usub KERNBASE at *; omega]
      rw [hmain] at hw
      have hi : i < ws.length := (List.getElem?_eq_some_iff.mp hw).1
      refine Ram.wordAtUser_of_bytes ?_ (fun j hj => ?_)
      · have hmem := List.mem_of_getElem? hw
        have hptr := hplaced.le_top w
        rw [← hmain] at hmem
        simp only [mainWords, List.mem_append, List.mem_cons, List.not_mem_nil, or_false] at hmem
        unfold KERNBASE at hg
        rcases hmem with ((rfl | rfl | rfl) | hmem) | rfl
        · decide
        · omega
        · omega
        · have := hptr hmem
          omega
        · decide
      · rw [Nat.add_assoc, hbytes (4 * i + j) ?_, getElem?_flatMap_wordBytes hw hj]
        rw [← hlen, length_flatMap_wordBytes]
        omega

end Sys

end Xv6
