import Xv6.Sys.Grow
import Xv6.User.Heap

/-!
# What `malloc` gets from the kernel

A request goes through three sizes: `malloc` rounds it to units, `morecore` scales the units
back to bytes, and `sbrk` takes the bytes as an `int`, which `growproc` adds to the size of the
process. Rounding wraps for the last few sizes, so that `malloc` looks for one unit and finds it,
and from `2 ^ 31` bytes on the `int` is not positive, so that `sbrk` hands out the end of the
memory without memory behind it. Below that the kernel's answers are the ones that the heap is in
order for.
-/

namespace Xv6

open Wp

/-! ## `sbrk` -/

/-- **`sbrk`** in a process of the size `sz`: what it returns, and the size then. The pages that
the process is to grow by may not be there. -/
def sbrk (pages : Bool) (n : ℤ) (sz : ℕ) : Option ℕ × ℕ :=
  let newsz := ((sz + n) % 2 ^ 32).toNat
  if 0 < n then
    if newsz < KERNBASE ∧ pages then (some sz, newsz) else (none, sz)
  else if n < 0 then
    if min sz newsz = 0 then (none, sz) else (some sz, min sz newsz)
  else (some sz, sz)

section

variable {pages : Bool} {n : ℤ} {sz : ℕ}

theorem sbrk_of_pos (hsz : sz < KERNBASE) (hn : 0 < n) (hhi : n < 2 ^ 31) :
    sbrk pages n sz
      = if sz + n < KERNBASE ∧ pages then (some sz, (sz + n).toNat) else (none, sz) := by
  unfold sbrk KERNBASE at *
  dsimp only
  rw [if_pos hn, Int.emod_eq_of_lt (by omega) (by omega)]
  refine if_congr (and_congr_left' ?_) rfl rfl
  omega

theorem sbrk_lt (h : sz < KERNBASE) : (sbrk pages n sz).2 < KERNBASE := by
  unfold sbrk
  dsimp only
  split
  · split
    · next hnew => exact hnew.1
    · exact h
  · split
    · split
      · exact h
      · exact (Nat.min_le_left _ _).trans_lt h
    · exact h

end

namespace Sys

variable {L : MemLayout} {s : Sys} {P : Set Frame} {p : Slot} {d : Frame}

/-- `sys_sbrk`. -/
def sysSbrk (L : MemLayout) (p : Slot) (n : ℤ) : SysM ℤ := do
  let s ← get
  let addr := (s.proc p).sz
  let r ← growproc L p n
  if r < 0 then return -1 else return addr

/-- **The kernel answers as `sbrk` does**: a call of `sys_sbrk` of a process at rest is one that the
model of `malloc` allows, with the pages there or not. -/
theorem AtRest.wp_sysSbrk (h : s.AtRest P) (hfree : ∀ f ∈ P, L.Frees f)
    (hp : (s.proc p).state = .RUNNABLE) (hd : (s.proc p).pgdir = some d) (himage : s.Image p)
    (hsz : (s.proc p).sz < KERNBASE) {n : ℤ} (hhi : n < 2 ^ 31) :
    wp (sysSbrk L p n) (fun r s' => ∃ pages, (s'.proc p).sz = (sbrk pages n (s.proc p).sz).2 ∧
      r = (sbrk pages n (s.proc p).sz).1.elim (-1) Nat.cast) (fun _ => False) s := by
  have hgrow : wp (growproc L p n) (fun r s' => ∃ pages,
      (s'.proc p).sz = (sbrk pages n (s.proc p).sz).2 ∧
      (r = -1 ∧ (sbrk pages n (s.proc p).sz).1 = none ∨
        r = 0 ∧ (sbrk pages n (s.proc p).sz).1 = some (s.proc p).sz)) (fun _ => False) s := by
    rcases Int.lt_trichotomy n 0 with hn | rfl | hn
    · refine (h.wp_growproc_neg hfree hp hd hsz hn rfl).imp (fun r s' hpost => ⟨false, ?_⟩)
      unfold sbrk
      dsimp only
      rw [if_neg (show ¬ 0 < n by omega), if_pos hn]
      obtain ⟨m, -, ⟨hzero, rfl, rfl⟩ | ⟨hne, rfl, rfl⟩⟩ := hpost
      · rw [if_pos hzero]
        exact ⟨rfl, .inl ⟨rfl, rfl⟩⟩
      · rw [if_neg hne]
        exact ⟨sz_setSize _ p _, .inr ⟨rfl, rfl⟩⟩
    · refine (growproc_zero hd).imp (fun r s' hpost => ⟨false, ?_⟩)
      rw [hpost.1, hpost.2]
      exact ⟨rfl, .inr ⟨rfl, rfl⟩⟩
    · refine (h.wp_growproc_pos hfree hp hd himage hsz hn hhi).imp (fun r s' hpost => ?_)
      obtain ⟨⟨rfl, hall⟩ | ⟨rfl, hsame⟩, hlt⟩ := hpost
      · refine ⟨true, ?_⟩
        rw [sbrk_of_pos hsz hn hhi, if_pos ⟨hlt rfl, rfl⟩, ← hall.size]
        exact ⟨rfl, .inr ⟨rfl, rfl⟩⟩
      · refine ⟨false, ?_⟩
        rw [sbrk_of_pos hsz hn hhi, if_neg nofun]
        exact ⟨hsame.size, .inl ⟨rfl, rfl⟩⟩
  unfold sysSbrk
  rw [wp_bind, wp_get]
  dsimp only
  rw [wp_bind]
  refine hgrow.imp (fun r s' hpost => ?_)
  obtain ⟨pages, hsize, ⟨rfl, hnone⟩ | ⟨rfl, hsome⟩⟩ := hpost
  · exact ⟨pages, hsize, by rw [hnone]; rfl⟩
  · exact ⟨pages, hsize, by rw [hsome]; rfl⟩

theorem wp_sysSbrk_page : wp (sysSbrk smallLayout firstSlot 4096) (fun r s' => ∃ pages,
      (s'.proc firstSlot).sz = (sbrk pages 4096 (onePageSys.proc firstSlot).sz).2 ∧
      r = (sbrk pages 4096 (onePageSys.proc firstSlot).sz).1.elim (-1) Nat.cast)
    (fun _ => False) onePageSys :=
  atRest_onePageSys.1.wp_sysSbrk frees_smallPages (d := 3) (by decide +kernel) (by decide +kernel)
    atRest_onePageSys.2 (by decide +kernel) (by decide)

end Sys

/-! ## The heap of a process -/

namespace Umalloc.Brk

open Tiling

/-- The bytes that are asked for, as `sbrk` takes them: an `int`. -/
def sbrkArg (n : ℕ) : ℤ := if n < 2 ^ 31 then n else n - 2 ^ 32

/-- The pages of a process of the size `sz` have the header at `p`. -/
def HeaderIn (sz p : ℕ) : Prop := p + HEADER ≤ PGROUNDUP sz

instance (sz p : ℕ) : Decidable (HeaderIn sz p) := inferInstanceAs (Decidable (_ ≤ _))

/-- `morecore`, in a process of the size `brk`. It writes a header where `sbrk` says, which may be
in no page of the process. -/
def morecore (turns nu : ℕ) (pages : Bool) (s : Umalloc) : Except UmallocHalt (ℕ × Umalloc) :=
  match sbrk pages (sbrkArg (moreBytes nu)) s.brk with
  | (none, sz) => .ok (0, { s with brk := sz })
  | (some p, sz) =>
    if HeaderIn sz p then do
      let s := { s with
        brk := sz
        regions := (p, sz - p) :: s.regions }
      let s ← (s.setSize p (max nu 4096)).free turns (p + HEADER)
      return (s.freep, s)
    else .error .sbrk

/-- The loop of `malloc`. -/
def mallocLoop (n : ℕ) : ℕ → List Bool → ℕ → ℕ → Umalloc → Except UmallocHalt (ℕ × Umalloc)
  | 0, _, _, _, _ => .error .running
  | turns + 1, pages, prevp, p, s =>
    if n ≤ (s.mem p).size then .ok (s.take n prevp p)
    else if p = s.freep then do
      let (p, s) ← morecore turns n (pages.headD false) s
      if p = 0 then return (0, s)
      else mallocLoop n turns pages.tail p (s.mem p).ptr s
    else mallocLoop n turns pages p (s.mem p).ptr s

/-- `malloc`, with the pages that are there for each call of `sbrk`. -/
def malloc (turns nbytes : ℕ) (pages : List Bool) (s : Umalloc) :
    Except UmallocHalt (ℕ × Umalloc) :=
  let s := if s.freep = 0 then s.init else s
  mallocLoop (nunits nbytes) turns pages s.freep (s.mem s.freep).ptr s

/-- What a program does: the calls and writes of before, and `sbrk` for more memory of its own. -/
inductive Call
  | malloc (turns : ℕ) (nbytes : UInt32) (pages : List Bool)
  | free (turns ap : ℕ)
  | store (a : ℕ) (v : Header)
  | sbrk (n : ℕ) (pages : Bool)

/-- **One step.** -/
def step (s : Umalloc) : Call → Except UmallocHalt (ℕ × Umalloc)
  | .malloc turns nbytes pages => do
    let (ap, s) ← malloc turns nbytes.toNat pages s
    if ap = 0 then return (0, s)
    else return (ap, { s with live := (ap, nbytes.toNat) :: s.live })
  | .free turns ap => s.step (.free turns ap)
  | .store a v => s.step (.store a v)
  | .sbrk n pages =>
    if n < 2 ^ 31 then .ok (0, { s with brk := (Xv6.sbrk pages n s.brk).2 }) else .error .disabled

/-- **The sizes that do not wrap**: with more, the argument of `sbrk` is negative as an `int`, or the
number of units is too small. -/
def NoWrap : Call → Prop
  | .malloc _ nbytes _ => nbytes.toNat ≤ 2 ^ 31 - 16
  | _ => True

/-- **What `malloc` promises** of a pointer: the bytes asked for are below the break, and outside
the live blocks. -/
def Granted (s t : Umalloc) (ap nbytes : ℕ) : Prop :=
  ∀ x, ap ≤ x → x < ap + nbytes →
    x < t.brk ∧ ∀ b ∈ s.liveBlocks, ¬ Inside HEADER b x

/-! ## The kernel's answers -/

/-- The answers of `sbrk` to calls for `n` bytes, from the break `b` on. -/
def answers (n : ℕ) : List Bool → ℕ → List (Option ℕ)
  | [], _ => []
  | pages :: l, b =>
    let r := sbrk pages (sbrkArg n) b
    r.1 :: answers n l r.2

variable {s t : Umalloc} {n turns : ℕ} {pages : List Bool}

theorem answers_tail (b : ℕ) : (answers n pages b).tail
    = answers n pages.tail (sbrk (pages.headD false) (sbrkArg n) b).2 := by
  cases pages <;> rfl

section

variable (hbrk : s.brk < KERNBASE) (hpos : HEADER ≤ n) (hlt : n < 2 ^ 31)

include hbrk hpos hlt

/-- A request that is positive as an `int` is answered with new memory, or not at all. -/
theorem sbrk_cases (b : Bool) :
    (sbrk b (sbrkArg n) s.brk = (some s.brk, s.brk + n) ∧ s.brk + n < KERNBASE) ∨
      sbrk b (sbrkArg n) s.brk = (none, s.brk) := by
  have harg : sbrkArg n = n := if_pos hlt
  have hheader : 0 < HEADER := by decide
  rw [harg, sbrk_of_pos hbrk (by omega) (by omega)]
  split
  · exact .inl ⟨rfl, by omega⟩
  · exact .inr rfl

theorem headD_answers :
    (answers n pages s.brk).headD none = (sbrk (pages.headD false) (sbrkArg n) s.brk).1 := by
  cases pages with
  | nil =>
    have harg : sbrkArg n = n := if_pos hlt
    have hheader : 0 < HEADER := by decide
    rw [harg, sbrk_of_pos hbrk (by omega) (by omega), if_neg (fun h => nomatch h.2)]
    rfl
  | cons b l => rfl

theorem fresh_of_answers {p : ℕ} (h : (answers n pages s.brk).headD none = some p) :
    s.Fresh p n := by
  rw [headD_answers hbrk hpos hlt] at h
  rcases sbrk_cases hbrk hpos hlt (pages.headD false) with ⟨heq, hroom⟩ | heq
  · rw [heq] at h
    cases h
    exact ⟨Nat.le_refl _, by unfold KERNBASE at hroom; omega⟩
  · rw [heq] at h
    cases h

end

theorem free_brk {ap : ℕ} (h : s.free turns ap = .ok t) : t.brk = s.brk := by
  unfold Umalloc.free at h
  dsimp only at h
  cases hloop : s.freeLoop (ap - HEADER) turns s.freep with
  | error e =>
    rw [hloop] at h
    exact nomatch h
  | ok q =>
    rw [hloop] at h
    cases h
    have hupper := (unmoved_joinUpper s q (ap - HEADER)).brk
    show (joinLower q (ap - HEADER) _).brk = _
    unfold joinLower
    split <;> exact hupper

/-- The break is where `sbrk` has left it. -/
theorem morecore_brk {b : Bool} {r : ℕ × Umalloc} (h : morecore turns n b s = .ok r) :
    r.2.brk = (sbrk b (sbrkArg (moreBytes n)) s.brk).2 := by
  unfold morecore at h
  split at h
  · next sz heq =>
    cases h
    rw [heq]
  · next p sz heq =>
    split at h
    · dsimp only at h
      cases hfree : Umalloc.free turns (p + HEADER) (setSize p (max n 4096) { s with
          brk := sz
          regions := (p, sz - p) :: s.regions }) with
      | error e =>
        rw [hfree] at h
        exact nomatch h
      | ok t =>
        rw [hfree] at h
        cases h
        rw [heq]
        exact free_brk hfree
    · exact nomatch h

theorem morecore_eq (hbrk : s.brk < KERNBASE) (hpos : HEADER ≤ moreBytes n)
    (hlt : moreBytes n < 2 ^ 31) : morecore turns n (pages.headD false) s
      = s.morecore turns n ((answers (moreBytes n) pages s.brk).headD none) := by
  rw [headD_answers hbrk hpos hlt]
  unfold morecore Umalloc.morecore
  rcases sbrk_cases hbrk hpos hlt (pages.headD false) with ⟨heq, hroom⟩ | heq
  · have hfresh : s.Fresh s.brk (moreBytes n) :=
      ⟨Nat.le_refl _, by unfold KERNBASE at hroom; omega⟩
    have hheader : HeaderIn (s.brk + moreBytes n) s.brk := by
      unfold HeaderIn
      rw [PGROUNDUP_eq hroom.le]
      have hle := le_npages_mul (s.brk + moreBytes n)
      omega
    rw [heq]
    dsimp only
    rw [if_pos hheader, if_pos hfresh, Nat.add_sub_cancel_left]
  · rw [heq]

theorem mallocLoop_eq (hpos : HEADER ≤ moreBytes n) (hlt : moreBytes n < 2 ^ 31) {p q : ℕ}
    (hbrk : s.brk < KERNBASE) : mallocLoop n turns pages q p s
      = Umalloc.mallocLoop n turns (answers (moreBytes n) pages s.brk) q p s := by
  induction turns generalizing pages q p s with
  | zero => rfl
  | succ turns ih =>
    rw [mallocLoop, Umalloc.mallocLoop]
    refine if_congr Iff.rfl rfl (if_congr Iff.rfl ?_ (ih hbrk))
    rw [← morecore_eq hbrk hpos hlt, answers_tail]
    cases hmore : morecore turns n (pages.headD false) s with
    | error e => rfl
    | ok r =>
      have hr := morecore_brk hmore
      show (if r.1 = 0 then _ else mallocLoop n turns pages.tail r.1 (r.2.mem r.1).ptr r.2) = _
      rw [ih (hr ▸ sbrk_lt hbrk), hr]
      rfl

theorem moreBytes_nunits {nbytes : ℕ} (h : nbytes ≤ 2 ^ 31 - 16) :
    HEADER ≤ moreBytes (nunits nbytes) ∧ moreBytes (nunits nbytes) < 2 ^ 31 := by
  have hunits : nunits nbytes < 2 ^ 28 := by
    unfold nunits HEADER
    omega
  rw [moreBytes_eq hunits.le]
  unfold HEADER
  omega

theorem malloc_eq {nbytes : ℕ} (hbytes : nbytes ≤ 2 ^ 31 - 16) (hbrk : s.brk < KERNBASE) :
    malloc turns nbytes pages s
      = s.malloc turns nbytes (answers (moreBytes (nunits nbytes)) pages s.brk) := by
  obtain ⟨hpos, hlt⟩ := moreBytes_nunits hbytes
  unfold malloc Umalloc.malloc
  split <;> exact mallocLoop_eq hpos hlt hbrk

/-! ## Every run -/

/-- The break is below the kernel. -/
theorem mallocLoop_brk {p q : ℕ} {r : ℕ × Umalloc} (hbrk : s.brk < KERNBASE)
    (h : mallocLoop n turns pages q p s = .ok r) : r.2.brk < KERNBASE := by
  induction turns generalizing pages q p s with
  | zero => exact nomatch h
  | succ turns ih =>
    rw [mallocLoop] at h
    split at h
    · cases h
      unfold Umalloc.take
      split <;> exact hbrk
    · split at h
      · cases hmore : morecore turns n (pages.headD false) s with
        | error e =>
          rw [hmore] at h
          exact nomatch h
        | ok t =>
          rw [hmore] at h
          replace h : (if t.1 = 0 then pure (0, t.2)
            else mallocLoop n turns pages.tail t.1 (t.2.mem t.1).ptr t.2) = .ok r := h
          have ht : t.2.brk < KERNBASE := morecore_brk hmore ▸ sbrk_lt hbrk
          split at h
          · cases h
            exact ht
          · exact ih ht h
      · exact ih hbrk h

/-- **The heap between calls**, in a process. -/
def Ordered (s : Umalloc) : Prop := s.Ordered ∧ s.brk < KERNBASE

theorem Ordered.malloc (h : Ordered s) {nbytes : ℕ} (hbytes : nbytes ≤ 2 ^ 31 - 16)
    (pages : List Bool) :
    ∃ r k, (∀ turns, k ≤ turns → malloc turns nbytes pages s = .ok r) ∧
      ((∃ a fs, r.1 = a + HEADER ∧ r.2.MidCall fs [(a, nunits nbytes)] ∧ r.2.live = s.live) ∨
        ∃ fs, r.1 = 0 ∧ r.2.MidCall fs []) := by
  obtain ⟨r, k, hend, hr⟩ := h.1.served hbytes (answers (moreBytes (nunits nbytes)) pages s.brk)
  have heq : ∀ turns, k ≤ turns → Brk.malloc turns nbytes pages s = r := fun turns hturns =>
    (malloc_eq hbytes h.2).trans (hend turns hturns)
  rcases hr with ⟨a, t, fs, rfl, hsound, hlive⟩ | ⟨t, fs, rfl, hsound⟩ | ⟨p, hp, hnot, -⟩
  · exact ⟨_, k, heq, .inl ⟨a, fs, rfl, hsound, hlive⟩⟩
  · exact ⟨_, k, heq, .inr ⟨fs, rfl, hsound⟩⟩
  · obtain ⟨hpos, hlt⟩ := moreBytes_nunits hbytes
    exact absurd (fresh_of_answers h.2 hpos hlt hp) hnot

/-- A block in hand is what `malloc` promises. -/
theorem Granted.of_midCall {a nbytes : ℕ} {fs : List (ℕ × ℕ)} (hbytes : nbytes ≤ 2 ^ 31 - 16)
    (h : t.MidCall fs [(a, nunits nbytes)]) (hlive : t.live = s.live) :
    Granted s t (a + HEADER) nbytes := by
  intro x hlow hhigh
  have hroom := (nunits_room hbytes).1
  have hmem : (a, nunits nbytes) ∈ fs ++ [(a, nunits nbytes)] :=
    List.mem_append_right _ List.mem_cons_self
  have hin : Inside HEADER (a, nunits nbytes) x := by
    unfold Inside
    dsimp only
    omega
  refine ⟨(h.bounds (List.mem_append_left _ hmem) hin).2, fun b hb hin' => ?_⟩
  unfold liveBlocks at hb
  rw [← hlive] at hb
  exact not_inside (h.once x) hmem hb hin' hin

/-- A larger break. -/
theorem ordered_of_le (h : s.Ordered) {b : ℕ} (hb : s.brk ≤ b) :
    Umalloc.Ordered { s with brk := b } := by
  rcases h with h | ⟨fs, h⟩
  · exact .inl ⟨h.freep, h.base, h.brk.trans hb, h.regions, h.live⟩
  · refine .inr ⟨fs, ⟨h.list.loop, h.list.base, h.list.sizes, h.list.above, h.list.spaced,
      h.list.rover⟩, ⟨h.tiled.sizes, h.tiled.live, h.tiled.asked, h.tiled.count, h.tiled.once,
      fun r hr => ?_, h.tiled.brk.trans hb⟩, h.base⟩
    exact ⟨(h.tiled.regions r hr).1, (h.tiled.regions r hr).2.trans hb⟩

/-- Blocks are given back and written to below the same break. -/
theorem step_brk {e : Event} (he : (∃ turns ap, e = .free turns ap) ∨ ∃ a v, e = .store a v) {o : ℕ}
    (h : s.step e = .ok (o, t)) : t.brk = s.brk := by
  rcases he with ⟨turns, ap, rfl⟩ | ⟨a, v, rfl⟩ <;> unfold Umalloc.step at h <;> dsimp only at h <;>
    split at h
  · cases hfree : Umalloc.free turns ap { s with live := s.live.eraseP (fun l => l.1 = ap) } with
    | error e =>
      rw [hfree] at h
      exact nomatch h
    | ok t' =>
      rw [hfree] at h
      cases h
      exact free_brk hfree (s := { s with live := s.live.eraseP (fun l => l.1 = ap) })
  · exact nomatch h
  · cases h
    rfl
  · exact nomatch h

/-- **Every step keeps the heap in order** that does not ask for too much. -/
theorem Ordered.step (h : Ordered s) {c : Call} (hc : NoWrap c) {o : ℕ}
    (hstep : step s c = .ok (o, t)) : Ordered t := by
  cases c with
  | malloc turns nbytes pages =>
    obtain ⟨r, k, hend, hr⟩ := h.malloc hc pages
    unfold Brk.step at hstep
    dsimp only at hstep
    cases hcall : Brk.malloc turns nbytes.toNat pages s with
    | error e =>
      rw [hcall] at hstep
      exact nomatch hstep
    | ok r' =>
      have hlt : r'.2.brk < KERNBASE := by
        unfold Brk.malloc at hcall
        refine mallocLoop_brk ?_ hcall
        split <;> exact h.2
      -- more turns give the same
      obtain rfl : r' = r := by
        rw [malloc_eq hc h.2] at hcall
        have hlate := hend _ (Nat.le_max_right turns k)
        rw [malloc_eq hc h.2] at hlate
        exact Except.ok.inj ((mallocLoop_mono hcall (Nat.le_max_left turns k)).symm.trans hlate)
      rw [hcall] at hstep
      replace hstep : (if r'.1 = 0 then .ok (0, r'.2)
        else .ok (r'.1, { r'.2 with live := (r'.1, nbytes.toNat) :: r'.2.live }) :
          Except UmallocHalt (ℕ × Umalloc)) = .ok (o, t) := hstep
      rcases hr with ⟨a, fs, ha, hsound, -⟩ | ⟨fs, ha, hsound⟩
      · rw [ha, if_neg (fun hzero => nomatch hzero)] at hstep
        cases hstep
        exact ⟨.inr ⟨fs, hsound.hand_out hc⟩, hlt⟩
      · rw [if_pos ha] at hstep
        cases hstep
        exact ⟨.inr ⟨fs, hsound⟩, hlt⟩
  | free turns ap =>
    replace hstep : s.step (.free turns ap) = .ok (o, t) := hstep
    exact ⟨h.1.step hstep, (step_brk (.inl ⟨_, _, rfl⟩) hstep).trans_lt h.2⟩
  | store a v =>
    replace hstep : s.step (.store a v) = .ok (o, t) := hstep
    exact ⟨h.1.step hstep, (step_brk (.inr ⟨_, _, rfl⟩) hstep).trans_lt h.2⟩
  | sbrk n pages =>
    unfold Brk.step at hstep
    dsimp only at hstep
    split at hstep
    · next hn =>
      cases hstep
      refine ⟨ordered_of_le h.1 ?_, sbrk_lt h.2⟩
      rcases Nat.eq_zero_or_pos n with rfl | hpos
      · exact Nat.le_refl _
      · rw [sbrk_of_pos h.2 (by omega) (by omega)]
        split
        · dsimp only
          omega
        · exact Nat.le_refl _
    · exact nomatch hstep

/-- **`malloc` keeps its promise** in every run that asks for no more than `2 ^ 31 - 16` bytes at
a time: it returns 0, or a pointer to as many bytes as were asked for. -/
theorem exec_granted {s₀ : Umalloc} (h₀ : s₀.Initial) (hbrk : s₀.brk < KERNBASE) {cs : List Call}
    (hcs : ∀ c ∈ cs, NoWrap c) (h : Machine.exec step s₀ cs = .ok s) (nbytes : UInt32)
    (hbytes : nbytes.toNat ≤ 2 ^ 31 - 16) (pages : List Bool) :
    ∃ ap t k, (∀ turns, k ≤ turns → malloc turns nbytes.toNat pages s = .ok (ap, t)) ∧
      (ap = 0 ∨ Granted s t ap nbytes.toNat) := by
  have hordered : Ordered s := Machine.exec_invariant_along (C := fun _ => NoWrap)
    (fun hs hc hstep => Ordered.step hs hc hstep) ⟨.inl h₀, hbrk⟩ (Machine.along_of_forall hcs s₀) h
  obtain ⟨⟨ap, t⟩, k, hend, ⟨a, fs, hap, hsound, hlive⟩ | ⟨fs, hap, -⟩⟩ :=
    hordered.malloc hbytes pages
  · refine ⟨ap, t, k, hend, .inr ?_⟩
    obtain rfl : ap = a + HEADER := hap
    exact .of_midCall hbytes hsound hlive
  · exact ⟨ap, t, k, hend, .inl hap⟩

/-- Two blocks, of which the first is given back, and more memory for the program. -/
def brkCalls : List Call :=
  [.malloc 9 100 [true], .malloc 9 40000 [true], .sbrk 4096 true, .free 9 44952]

theorem exec_granted_calls : ∃ s ap t k, Machine.exec step heapStart brkCalls = .ok s ∧
    (∀ turns, k ≤ turns → malloc turns 200 [] s = .ok (ap, t)) ∧ (ap = 0 ∨ Granted s t ap 200) := by
  obtain ⟨s, h, -⟩ : ∃ s, Machine.exec step heapStart brkCalls = .ok s ∧
      s.live = [(45064, 40000)] := by decide +kernel
  obtain ⟨ap, t, k, hend, hap⟩ := exec_granted ⟨rfl, by decide, by decide, rfl, rfl⟩ (by decide)
    (by simp [brkCalls, NoWrap]) h 200 (by decide) []
  exact ⟨s, ap, t, k, h, hend, hap⟩

theorem not_granted {ap nbytes : ℕ} (hb : t.brk < ap + nbytes) (hpos : 0 < nbytes) :
    ¬ Granted s t ap nbytes := by
  intro hgranted
  have hlast := (hgranted (ap + nbytes - 1) (by omega) (by omega)).1
  omega

/-- **Pointers to nothing**: a size that wraps to one unit, which is all header; and, in a program
that has taken 104 bytes for itself, one that `sbrk` takes as negative, which leaves the break
where it is. Were the break a multiple of a page, the header would be in no page. -/
theorem malloc_not_granted : heapStart.Initial ∧ heapStart.brk < KERNBASE ∧
    (∃ ap t, malloc 9 (2 ^ 32 - 1) [true] heapStart = .ok (ap, t) ∧ ap ≠ 0 ∧
      ¬ Granted heapStart t ap (2 ^ 32 - 1)) ∧
    ∃ s, Machine.exec step heapStart [.sbrk 104 true] = .ok s ∧
      ∃ ap t, malloc 9 (2 ^ 31) [true] s = .ok (ap, t) ∧ ap ≠ 0 ∧ ¬ Granted s t ap (2 ^ 31) := by
  obtain ⟨⟨ap, t⟩, hwrap, hap, hb⟩ : ∃ r, malloc 9 (2 ^ 32 - 1) [true] heapStart = .ok r ∧
      r.1 ≠ 0 ∧ r.2.brk < r.1 + (2 ^ 32 - 1) := by decide +kernel
  obtain ⟨⟨ap', t'⟩, hneg, hap', hb'⟩ : ∃ r, malloc 9 (2 ^ 31) [true]
      { heapStart with brk := 12392 } = .ok r ∧ r.1 ≠ 0 ∧ r.2.brk < r.1 + 2 ^ 31 := by
    decide +kernel
  exact ⟨⟨rfl, by decide, by decide, rfl, rfl⟩, by decide,
    ⟨ap, t, hwrap, hap, not_granted hb (by decide)⟩, _, rfl,
    ap', t', hneg, hap', not_granted hb' (by decide)⟩

end Umalloc.Brk

end Xv6
