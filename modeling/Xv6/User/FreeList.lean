import Xv6.Lib.Loop
import Xv6.Lib.Tiling
import Xv6.User.Umalloc

/-!
# The free list

The free blocks are a circular list in the order of their addresses, from the
header `base`, which has no room, and no two of them are neighbours. The free
blocks, the live blocks and the block an operation has in hand take up the
memory that `sbrk` has returned. `free` searches from wherever the last
operation ended: the node it stops at is the last one before the block, the
only one where its condition holds. There the block is put in and joined with
its neighbours, so the list stays in order.
-/

namespace Xv6

open Function

open Tiling

namespace Umalloc

/-- The pointers in memory. -/
def next (s : Umalloc) (a : ℕ) : ℕ := (s.mem a).ptr

section update

variable (s : Umalloc) (p q n a : ℕ)

@[simp] theorem setPtr_next : (s.setPtr p q).next = update s.next p q := by
  funext a
  show (update s.mem p _ a).ptr = _
  rw [update_apply, update_apply]
  split <;> rfl

@[simp] theorem setPtr_size : ((s.setPtr p q).mem a).size = (s.mem a).size := by
  show (update s.mem p _ a).size = _
  grind [update_apply]

@[simp] theorem setSize_next : (s.setSize p n).next = s.next := by
  funext a
  show (update s.mem p _ a).ptr = (s.mem a).ptr
  grind [update_apply]

@[simp] theorem setSize_size :
    ((s.setSize p n).mem a).size = if a = p then n else (s.mem a).size := by
  show (update s.mem p _ a).size = _
  grind [update_apply]

end update

/-! ## The invariant -/

/-- **The free list**: the nodes in order of their addresses, `base` first. -/
structure FreeList (s : Umalloc) (fs : List (ℕ × ℕ)) : Prop where
  loop : Loop s.next s.base (fs.map Prod.fst)
  base : (s.mem s.base).size = 0
  sizes : ∀ b ∈ fs, (s.mem b.1).size = b.2 ∧ 0 < b.2
  above : ∀ b ∈ fs, s.base < b.1
  spaced : fs.Pairwise (fun b c => b.1 + HEADER * b.2 < c.1)
  rover : s.freep ∈ s.base :: fs.map Prod.fst

/-- **The memory is tiled** by the free blocks, the blocks in hand and the live
blocks. -/
structure Tiled (s : Umalloc) (fs hand : List (ℕ × ℕ)) : Prop where
  sizes : ∀ b ∈ hand, (s.mem b.1).size = b.2 ∧ 0 < b.2
  live : ∀ l ∈ s.live, HEADER ≤ l.1 ∧ (s.mem (l.1 - HEADER)).size = nunits l.2
  asked : ∀ l ∈ s.live, l.2 ≤ 2 ^ 31 - 16
  count : ∀ x, count HEADER (fs ++ hand) x + count HEADER s.liveBlocks x = count 1 s.regions x
  once : ∀ x, Tiling.count 1 s.regions x ≤ 1
  regions : ∀ r ∈ s.regions, s.base + HEADER ≤ r.1 ∧ r.1 + r.2 ≤ s.brk
  brk : s.base + HEADER ≤ s.brk

/-- **The heap in the middle of an operation**: the free list has the blocks `fs`, and with the live
blocks and those in `hand`, which the operation has taken, they fill the memory from `sbrk`. -/
structure MidCall (s : Umalloc) (fs hand : List (ℕ × ℕ)) : Prop where
  list : s.FreeList fs
  tiled : s.Tiled fs hand
  base : 0 < s.base

theorem nunits_pos (nbytes : ℕ) : 0 < nunits nbytes := Nat.succ_pos _

namespace MidCall

variable {s : Umalloc} {fs hand : List (ℕ × ℕ)}

/-- No byte is in two blocks. -/
theorem once (h : s.MidCall fs hand) (x : ℕ) :
    count HEADER (fs ++ hand) x + count HEADER s.liveBlocks x ≤ 1 := by
  rw [h.tiled.count]
  exact h.tiled.once x

variable {b : ℕ × ℕ}

theorem pos (h : s.MidCall fs hand) (hb : b ∈ fs ++ hand) : 0 < b.2 := by
  rcases List.mem_append.mp hb with hb | hb
  · exact (h.list.sizes b hb).2
  · exact (h.tiled.sizes b hb).2

/-- The blocks lie in the memory from `sbrk`. -/
theorem bounds (h : s.MidCall fs hand) (hb : b ∈ fs ++ hand ++ s.liveBlocks) {x : ℕ}
    (hx : Inside HEADER b x) : s.base + HEADER ≤ x ∧ x < s.brk := by
  have hpos : 0 < count HEADER (fs ++ hand ++ s.liveBlocks) x := count_pos_iff.mpr ⟨b, hb, hx⟩
  rw [count_append, h.tiled.count] at hpos
  obtain ⟨r, hr, hin⟩ := count_pos_iff.mp hpos
  obtain ⟨hlow, hhigh⟩ := h.tiled.regions r hr
  unfold Inside at hin
  omega

/-- A free block and the block in hand. -/
theorem hand_apart (h : s.MidCall fs hand) {c : ℕ × ℕ} (hb : b ∈ fs) (hc : c ∈ hand) :
    (b.1 < c.1 → b.1 + HEADER * b.2 ≤ c.1) ∧ (c.1 < b.1 → c.1 + HEADER * c.2 ≤ b.1)
      ∧ b.1 ≠ c.1 := by
  have hle : ∀ x, count HEADER fs x + count HEADER hand x ≤ 1 := by
    intro x
    have honce := h.once x
    rw [count_append] at honce
    omega
  have hle' : ∀ x, count HEADER hand x + count HEADER fs x ≤ 1 := by
    intro x
    rw [Nat.add_comm]
    exact hle x
  have hu : 0 < HEADER := by decide
  have hposb := (h.list.sizes b hb).2
  have hposc := (h.tiled.sizes c hc).2
  refine ⟨fun hlt => end_le hle hu hb hc hposc hlt.le, fun hlt => end_le hle' hu hc hb hposb hlt.le,
    fun heq => ?_⟩
  have hend := end_le hle hu hb hc hposc heq.le
  have hmul := Nat.mul_pos hu hposb
  omega

variable {l : ℕ × ℕ}

variable (h : s.MidCall fs hand)

include h

/-- The header of a live block is in no other block. -/
theorem live_not_inside (hb : b ∈ fs ++ hand) (hl : l ∈ s.live) :
    ¬ Inside HEADER b (l.1 - HEADER) := by
  have hmem : (l.1 - HEADER, nunits l.2) ∈ s.liveBlocks := List.mem_map.mpr ⟨l, hl, rfl⟩
  exact not_inside (h.once (l.1 - HEADER)) hb hmem (inside_start (by decide) (nunits_pos l.2))

theorem live_ne (hb : b ∈ fs ++ hand) (hl : l ∈ s.live) :
    l.1 - HEADER ≠ b.1 := by
  intro heq
  refine h.live_not_inside hb hl ?_
  rw [heq]
  exact inside_start (by decide) (h.pos hb)

theorem live_ne_base (hl : l ∈ s.live) :
    l.1 - HEADER ≠ s.base := by
  have hu : 0 < HEADER := by decide
  have hmem : (l.1 - HEADER, nunits l.2) ∈ s.liveBlocks := List.mem_map.mpr ⟨l, hl, rfl⟩
  have hlow := (h.bounds (List.mem_append_right _ hmem) (inside_start hu (nunits_pos l.2))).1
  dsimp only at hlow
  omega

/-- The header of a live block is no node of the list. -/
theorem live_ne_node {p : ℕ} (hp : p ∈ s.base :: fs.map Prod.fst) (hl : l ∈ s.live) :
    l.1 - HEADER ≠ p := by
  rcases List.mem_cons.mp hp with rfl | hp
  · exact h.live_ne_base hl
  · obtain ⟨b, hmem, rfl⟩ := List.mem_map.mp hp
    exact h.live_ne (List.mem_append_left _ hmem) hl

theorem hand_above (hb : b ∈ hand) : s.base < b.1 := by
  have hu : 0 < HEADER := by decide
  have hmem : b ∈ fs ++ hand ++ s.liveBlocks :=
    List.mem_append_left _ (List.mem_append_right _ hb)
  have hlow := (h.bounds hmem (inside_start hu (h.tiled.sizes b hb).2)).1
  omega

end MidCall

variable {s : Umalloc} {fs : List (ℕ × ℕ)}

/-- The nodes of the list are in order. -/
theorem FreeList.sorted (h : s.FreeList fs) :
    (s.base :: fs.map Prod.fst).Pairwise (· < ·) := by
  refine List.pairwise_cons.mpr ⟨fun a ha => ?_, ?_⟩
  · obtain ⟨b, hb, rfl⟩ := List.mem_map.mp ha
    exact h.above b hb
  · refine List.pairwise_map.mpr (h.spaced.imp (fun hbc => ?_))
    omega

theorem FreeList.nodup (h : s.FreeList fs) :
    (s.base :: fs.map Prod.fst).Nodup := h.sorted.imp (fun hlt => hlt.ne)

/-- What the operations on the list leave as it is. -/
structure Unmoved (s t : Umalloc) : Prop where
  base : t.base = s.base
  brk : t.brk = s.brk
  regions : t.regions = s.regions
  live : t.live = s.live

/-- **Another tiling of the same memory.** -/
theorem Tiled.retile {t : Umalloc} {fs' hand hand' : List (ℕ × ℕ)} (h : s.Tiled fs hand)
    (hst : Unmoved s t) (hsizes : ∀ b ∈ hand', (t.mem b.1).size = b.2 ∧ 0 < b.2)
    (hlive : ∀ l ∈ s.live, (t.mem (l.1 - HEADER)).size = (s.mem (l.1 - HEADER)).size)
    (hcount : ∀ x, Tiling.count HEADER (fs' ++ hand') x = Tiling.count HEADER (fs ++ hand) x) :
    t.Tiled fs' hand' where
  sizes := hsizes
  live := by
    rw [hst.live]
    exact fun l hl => ⟨(h.live l hl).1, (hlive l hl).trans (h.live l hl).2⟩
  asked := by
    rw [hst.live]
    exact h.asked
  count := by
    intro x
    have hblocks : t.liveBlocks = s.liveBlocks := by
      unfold liveBlocks
      rw [hst.live]
    rw [hcount, hblocks, hst.regions]
    exact h.count x
  once := by
    rw [hst.regions]
    exact h.once
  regions := by
    rw [hst.regions, hst.base, hst.brk]
    exact h.regions
  brk := by
    rw [hst.base, hst.brk]
    exact h.brk

/-! ## Joining a block with its neighbours -/

section free

variable {s : Umalloc} {p bp m : ℕ} {pre post : List (ℕ × ℕ)}

/-- **The place of a block**: `p` is the last node below it. -/
structure Between (s : Umalloc) (pre post : List (ℕ × ℕ)) (p bp : ℕ) : Prop where
  last : ∃ u, s.base :: pre.map Prod.fst = u ++ [p]
  below : ∀ b ∈ pre, b.1 < bp
  above : ∀ b ∈ post, bp < b.1

/-- The nodes, split after `p`. -/
theorem Between.nodes (h : s.Between pre post p bp) :
    ∃ u, s.base :: pre.map Prod.fst = u ++ [p]
      ∧ ∀ l : List (ℕ × ℕ), s.base :: (pre ++ l).map Prod.fst = u ++ p :: l.map Prod.fst := by
  obtain ⟨u, hu⟩ := h.last
  refine ⟨u, hu, fun l => ?_⟩
  rw [List.map_append, ← List.cons_append, hu, List.append_assoc]
  rfl

/-- **After the first join**: the block has `M` units, its pointer leads to the
nodes `post'` after it, and those are apart from it. -/
structure Upper (s t : Umalloc) (pre post post' : List (ℕ × ℕ)) (p bp m M : ℕ) : Prop where
  next : t.next = update s.next bp (t.next bp)
  size : ∀ a, (t.mem a).size = if a = bp then M else (s.mem a).size
  loop : Loop (update s.next p (t.next bp)) s.base ((pre ++ post').map Prod.fst)
  le : m ≤ M
  sub : post'.Sublist post
  apart : ∀ b ∈ post', bp + HEADER * M < b.1
  count : ∀ x, one HEADER (bp, M) x + Tiling.count HEADER post' x
    = one HEADER (bp, m) x + Tiling.count HEADER post x

/-- The nodes after the block are where the pointer of `p` leads. -/
theorem MidCall.next_of_between (h : s.MidCall (pre ++ post) [(bp, m)])
    (hb : s.Between pre post p bp) : s.next p = (post.map Prod.fst).headD s.base := by
  obtain ⟨u, -, hnodes⟩ := hb.nodes
  exact h.list.loop.next_eq (hnodes post)

theorem MidCall.upper (h : s.MidCall (pre ++ post) [(bp, m)]) (hb : s.Between pre post p bp) :
    ∃ post' M, Upper s (s.joinUpper p bp) pre post post' p bp m M := by
  obtain ⟨u, hu, hnodes⟩ := hb.nodes
  have hnext := h.next_of_between hb
  have hsize : (s.mem bp).size = m := (h.tiled.sizes (bp, m) List.mem_cons_self).1
  have hpos : 0 < m := (h.tiled.sizes (bp, m) List.mem_cons_self).2
  have habove : s.base < bp := h.hand_above (b := (bp, m)) List.mem_cons_self
  have hbeyond : ∀ b ∈ post, bp + HEADER * m ≤ b.1 := fun b hmem =>
    (h.hand_apart (List.mem_append_right pre hmem) (c := (bp, m)) List.mem_cons_self).2.1
      (hb.above b hmem)
  unfold joinUpper
  by_cases hjoin : bp + HEADER * (s.mem bp).size = (s.mem p).ptr
  · rw [if_pos hjoin]
    have hjoin' : bp + HEADER * m = s.next p := by rw [← hsize]; exact hjoin
    -- the block meets the node after it, which is no longer one
    cases post with
    | nil =>
      rw [List.map_nil, List.headD_nil] at hnext
      omega
    | cons c post =>
      obtain ⟨a, n⟩ := c
      rw [List.map_cons, List.headD_cons] at hnext
      dsimp only at hnext
      have hn : (s.mem a).size = n :=
        (h.list.sizes (a, n) (List.mem_append_right pre List.mem_cons_self)).1
      have hspaced := (List.pairwise_append.mp h.list.spaced).2.1
      rw [List.pairwise_cons] at hspaced
      refine ⟨post, m + n, ?_, ?_, ?_, Nat.le_add_right m n, List.sublist_cons_self _ _, ?_, ?_⟩
      · dsimp only
        rw [setPtr_next, setSize_next, update_self]
      · intro x
        dsimp only
        rw [setPtr_size, setSize_size, hsize]
        show (if x = bp then m + (s.mem (s.next p)).size else _) = _
        rw [hnext, hn]
      · dsimp only
        rw [setPtr_next, setSize_next, update_self]
        refine h.list.loop.remove h.list.nodup (hnodes ((a, n) :: post)) (hnodes post) ?_
          (fun x _ hx => update_of_ne hx _ _)
        rw [update_self]
        show (Umalloc.next (setSize bp _ s)) (Umalloc.next (setSize bp _ s) p) = _
        rw [setSize_next, hnext]
      · intro b hmem
        have hlt := hspaced.1 b hmem
        rw [Nat.mul_add]
        dsimp only at hlt
        omega
      · intro x
        rw [one_add, count_cons, hjoin', hnext, Nat.add_assoc]
  · rw [if_neg hjoin]
    have hjoin' : bp + HEADER * m ≠ s.next p := by rw [← hsize]; exact hjoin
    refine ⟨post, m, ?_, ?_, ?_, Nat.le_refl m, List.Sublist.refl post, ?_, fun x => rfl⟩
    · rw [setPtr_next, update_self]
    · intro x
      rw [setPtr_size]
      grind
    · rw [setPtr_next, update_self]
      show Loop (update s.next p (s.next p)) _ _
      rw [update_eq_self]
      exact h.list.loop
    · intro b hmem
      refine Nat.lt_of_le_of_ne (hbeyond b hmem) ?_
      -- only the first of the nodes after the block can touch it
      cases post with
      | nil => exact absurd hmem List.not_mem_nil
      | cons c post =>
        rw [List.map_cons, List.headD_cons] at hnext
        rcases List.mem_cons.mp hmem with rfl | hmem
        · rwa [hnext] at hjoin'
        · have hspaced := (List.pairwise_append.mp h.list.spaced).2.1
          have hlt := (List.pairwise_cons.mp hspaced).1 b hmem
          have hle := hbeyond c List.mem_cons_self
          omega

theorem unmoved_joinUpper (s : Umalloc) (p bp : ℕ) : Unmoved s (s.joinUpper p bp) := by
  unfold joinUpper
  split <;> exact ⟨rfl, rfl, rfl, rfl⟩

theorem Between.p_lt (hb : s.Between pre post p bp) (hbase : s.base < bp) : p < bp := by
  obtain ⟨u, hu⟩ := hb.last
  have hmem : p ∈ s.base :: pre.map Prod.fst := by
    rw [hu]
    exact List.mem_append_right u List.mem_cons_self
  rcases List.mem_cons.mp hmem with rfl | hmem
  · exact hbase
  · obtain ⟨b, hpre, rfl⟩ := List.mem_map.mp hmem
    exact hb.below b hpre

/-- The node below the block is `base` or the last free block there. -/
theorem Between.last_block (hb : s.Between pre post p bp) :
    (pre = [] ∧ p = s.base) ∨ ∃ pre' n, pre = pre' ++ [(p, n)] := by
  obtain ⟨u, hu⟩ := hb.last
  rcases List.eq_nil_or_concat' pre with rfl | ⟨pre', ⟨a, n⟩, rfl⟩
  · have hsingle : [] ++ [s.base] = u ++ [p] := hu
    have hlast := (List.append_inj' hsingle rfl).2
    exact Or.inl ⟨rfl, (List.singleton_inj.mp hlast).symm⟩
  · rw [List.map_append, ← List.cons_append] at hu
    have hlast : a = p := List.singleton_inj.mp (List.append_inj' hu rfl).2
    exact Or.inr ⟨pre', n, by rw [hlast]⟩

theorem Between.p_mem (hb : s.Between pre post p bp) (l : List (ℕ × ℕ)) :
    p ∈ s.base :: (pre ++ l).map Prod.fst := by
  obtain ⟨u, -, hnodes⟩ := hb.nodes
  rw [hnodes]
  exact List.mem_append_right u List.mem_cons_self

section lower

variable {t : Umalloc} {post' : List (ℕ × ℕ)} {M : ℕ}

section

variable (hup : Upper s t pre post post' p bp m M)

include hup

/-- No node is where the block is. -/
theorem Upper.node_ne (h : s.MidCall (pre ++ post) [(bp, m)]) {x : ℕ}
    (hx : x ∈ s.base :: (pre ++ post').map Prod.fst) : x ≠ bp := by
  rcases List.mem_cons.mp hx with rfl | hx
  · exact (h.hand_above (b := (bp, m)) List.mem_cons_self).ne
  · obtain ⟨b, hmem, rfl⟩ := List.mem_map.mp hx
    have hmem' := (hup.sub.append_left pre).subset hmem
    exact (h.hand_apart hmem' (c := (bp, m)) List.mem_cons_self).2.2

/-- The sizes of the nodes are as before. -/
theorem Upper.sizes (h : s.MidCall (pre ++ post) [(bp, m)]) {b : ℕ × ℕ} (hb : b ∈ pre ++ post') :
    (t.mem b.1).size = b.2 ∧ 0 < b.2 := by
  have hne := hup.node_ne h (List.mem_cons_of_mem _ (List.mem_map_of_mem hb))
  rw [hup.size, if_neg hne]
  exact h.list.sizes b ((hup.sub.append_left pre).subset hb)

/-- The sizes of the live blocks are as before, and the memory is the same. -/
theorem Upper.tiled (h : s.MidCall (pre ++ post) [(bp, m)]) (hst : Unmoved s t) :
    t.Tiled (pre ++ (bp, M) :: post') [] := by
  refine h.tiled.retile hst (fun b hb => absurd hb List.not_mem_nil) (fun l hl => ?_) (fun x => ?_)
  · have hne := h.live_ne (b := (bp, m)) (List.mem_append_right _ List.mem_cons_self) hl
    rw [hup.size, if_neg hne]
  · have hx := hup.count x
    simp only [count_append, count_cons, count_nil]
    omega

end

/-- A block that does not meet `p` meets none of the blocks below it. -/
theorem MidCall.below_lt (h : s.MidCall (pre ++ post) [(bp, m)]) (hb : s.Between pre post p bp)
    (hjoin : p + HEADER * (s.mem p).size ≠ bp) : ∀ b ∈ pre, b.1 + HEADER * b.2 < bp := by
  intro b hpre
  have hle := (h.hand_apart (List.mem_append_left post hpre) (c := (bp, m))
    List.mem_cons_self).1 (hb.below b hpre)
  refine Nat.lt_of_le_of_ne hle (fun hend => hjoin ?_)
  rcases hb.last_block with ⟨rfl, -⟩ | ⟨pre', n, rfl⟩
  · exact absurd hpre List.not_mem_nil
  · have hmem : (p, n) ∈ pre' ++ [(p, n)] ++ post :=
      List.mem_append_left _ (List.mem_append_right _ List.mem_cons_self)
    rw [(h.list.sizes (p, n) hmem).1]
    rcases List.mem_append.mp hpre with hpre | hpre
    · have hspaced := (List.pairwise_append.mp h.list.spaced).1
      have hlt := (List.pairwise_append.mp hspaced).2.2 b hpre (p, n) List.mem_cons_self
      have hp := hb.p_lt (h.hand_above (b := (bp, m)) List.mem_cons_self)
      dsimp only at hlt
      omega
    · rwa [List.mem_singleton.mp hpre] at hend

/-- The block becomes a node of its own. -/
theorem MidCall.link (h : s.MidCall (pre ++ post) [(bp, m)]) (hb : s.Between pre post p bp)
    (hup : Upper s t pre post post' p bp m M) (hst : Unmoved s t)
    (hjoin : p + HEADER * (s.mem p).size ≠ bp) :
    MidCall { t.setPtr p bp with freep := p } (pre ++ (bp, M) :: post') [] := by
  obtain ⟨u, -, hnodes⟩ := hb.nodes
  have habove : s.base < bp := h.hand_above (b := (bp, m)) List.mem_cons_self
  have hm : 0 < m := (h.tiled.sizes (bp, m) List.mem_cons_self).2
  have hpb : p ≠ bp := (hb.p_lt habove).ne
  have hsub := hup.sub.append_left pre
  have hbelow := h.below_lt hb hjoin
  refine ⟨⟨?_, ?_, ?_, ?_, ?_, ?_⟩, ?_, ?_⟩
  · show Loop (t.setPtr p bp).next t.base _
    rw [hst.base, setPtr_next]
    refine hup.loop.insert (h.list.nodup.sublist ((hsub.map _).cons_cons _)) (hnodes post')
      (hnodes ((bp, M) :: post')) (update_self _ _ _) ?_ (fun x hx hxp => ?_)
    · rw [update_of_ne hpb.symm, update_self]
    · rw [update_of_ne hxp, update_of_ne hxp, hup.next,
        update_of_ne (hup.node_ne h hx)]
  · show ((t.setPtr p bp).mem t.base).size = 0
    rw [setPtr_size, hst.base, hup.size, if_neg habove.ne]
    exact h.list.base
  · intro b hmem
    show ((t.setPtr p bp).mem b.1).size = b.2 ∧ 0 < b.2
    rw [setPtr_size]
    have hsizes : ∀ c ∈ pre ++ post', (t.mem c.1).size = c.2 ∧ 0 < c.2 := fun c => hup.sizes h
    have hself := hup.size bp
    have hle := hup.le
    grind
  · intro b hmem
    show t.base < b.1
    rw [hst.base]
    have hold := h.list.above
    have hsub := hup.sub.subset
    grind
  · obtain ⟨hpre, hpost, hacross⟩ := List.pairwise_append.mp (h.list.spaced.sublist hsub)
    refine List.pairwise_append.mpr ⟨hpre, List.pairwise_cons.mpr ⟨hup.apart, hpost⟩, ?_⟩
    grind
  · show p ∈ t.base :: _
    rw [hst.base]
    exact hb.p_mem _
  · refine (hup.tiled h hst).retile ⟨rfl, rfl, rfl, rfl⟩ (fun b hb => absurd hb List.not_mem_nil)
      (fun l hl => ?_) (fun x => rfl)
    exact setPtr_size t p bp (l.1 - HEADER)
  · show 0 < t.base
    rw [hst.base]
    exact h.base

/-- The block becomes the end of the one below. -/
theorem MidCall.merge {pre' : List (ℕ × ℕ)} {n : ℕ}
    (h : s.MidCall (pre' ++ [(p, n)] ++ post) [(bp, m)])
    (hb : s.Between (pre' ++ [(p, n)]) post p bp)
    (hup : Upper s t (pre' ++ [(p, n)]) post post' p bp m M) (hst : Unmoved s t)
    (hjoin : p + HEADER * n = bp) :
    MidCall { (t.setSize p (n + M)).setPtr p (t.next bp) with freep := p }
      (pre' ++ (p, n + M) :: post') [] := by
  have habove : s.base < bp := h.hand_above (b := (bp, m)) List.mem_cons_self
  have hsub := hup.sub.append_left (pre' ++ [(p, n)])
  have hmap : (pre' ++ (p, n + M) :: post').map Prod.fst
      = (pre' ++ [(p, n)] ++ post').map Prod.fst := by simp
  have hpmem : (p, n) ∈ pre' ++ [(p, n)] ++ post :=
    List.mem_append_left _ (List.mem_append_right _ List.mem_cons_self)
  have hn : 0 < n := (h.list.sizes (p, n) hpmem).2
  obtain ⟨hpre, hpost, hacross⟩ := List.pairwise_append.mp (h.list.spaced.sublist hsub)
  obtain ⟨hpre', -, hlast⟩ := List.pairwise_append.mp hpre
  have hold : ∀ b ∈ pre' ++ (p, n + M) :: post',
      b = (p, n + M) ∨ (b ∈ pre' ++ [(p, n)] ++ post' ∧ b.1 ≠ p) := by
    intro b hmem
    have hlt := fun hmem => hlast b hmem (p, n) List.mem_cons_self
    have hlt' := hacross (p, n) (List.mem_append_right _ List.mem_cons_self) b
    grind
  refine ⟨⟨?_, ?_, ?_, ?_, ?_, ?_⟩, ?_, ?_⟩
  · show Loop ((t.setSize p (n + M)).setPtr p (t.next bp)).next t.base _
    rw [hst.base, setPtr_next, setSize_next, hmap]
    refine hup.loop.congr (fun x hx => ?_)
    have hne := hup.node_ne h hx
    have hnext := congrFun hup.next x
    grind [update_apply]
  · show (((t.setSize p (n + M)).setPtr p (t.next bp)).mem t.base).size = 0
    rw [setPtr_size, setSize_size, hst.base, if_neg (h.list.above (p, n) hpmem).ne, hup.size,
      if_neg habove.ne]
    exact h.list.base
  · intro b hmem
    show (((t.setSize p (n + M)).setPtr p (t.next bp)).mem b.1).size = b.2 ∧ 0 < b.2
    rw [setPtr_size, setSize_size]
    rcases hold b hmem with rfl | ⟨hmem, hne⟩
    · rw [if_pos rfl]
      exact ⟨rfl, Nat.lt_of_lt_of_le hn (Nat.le_add_right n M)⟩
    · rw [if_neg hne]
      exact hup.sizes h hmem
  · intro b hmem
    show t.base < b.1
    rw [hst.base]
    rcases hold b hmem with rfl | ⟨hmem, -⟩
    · exact h.list.above (p, n) hpmem
    · exact h.list.above b (hsub.subset hmem)
  · refine List.pairwise_append.mpr ⟨hpre', List.pairwise_cons.mpr ⟨fun c hc => ?_, hpost⟩, ?_⟩
    · have hlt := hup.apart c hc
      rw [Nat.mul_add]
      dsimp only
      omega
    · grind
  · show p ∈ t.base :: _
    rw [hst.base, hmap]
    exact hb.p_mem _
  · refine (hup.tiled h hst).retile ⟨rfl, rfl, rfl, rfl⟩ (fun b hb => absurd hb List.not_mem_nil)
      (fun l hl => ?_) (fun x => ?_)
    · show (((t.setSize p (n + M)).setPtr p (t.next bp)).mem _).size = _
      rw [hst.live] at hl
      rw [setPtr_size, setSize_size, if_neg (h.live_ne_node (hb.p_mem post) hl)]
    · simp only [count_append, count_cons, count_nil, one_add, hjoin]
      omega
  · show 0 < t.base
    rw [hst.base]
    exact h.base

end lower

/-- **A block is put in the list**: what `free` does where its loop stops. -/
theorem MidCall.join (h : s.MidCall (pre ++ post) [(bp, m)]) (hb : s.Between pre post p bp) :
    ∃ fs, MidCall { (s.joinUpper p bp).joinLower p bp with freep := p } fs []
      ∧ ∃ b ∈ fs, m ≤ b.2 := by
  obtain ⟨post', M, hup⟩ := h.upper hb
  have hst := unmoved_joinUpper s p bp
  have hpb : p ≠ bp := (hb.p_lt (h.hand_above (b := (bp, m)) List.mem_cons_self)).ne
  generalize s.joinUpper p bp = t at hup hst
  have hsize : (t.mem p).size = (s.mem p).size := by rw [hup.size, if_neg hpb]
  have hM : (t.mem bp).size = M := by rw [hup.size, if_pos rfl]
  unfold joinLower
  by_cases hjoin : p + HEADER * (t.mem p).size = bp
  · rw [if_pos hjoin]
    rcases hb.last_block with ⟨-, rfl⟩ | ⟨pre', n, rfl⟩
    -- `base` has no room, so the block does not meet it
    · rw [hsize, h.list.base] at hjoin
      exact absurd hjoin hpb
    · have hn : (s.mem p).size = n := (h.list.sizes (p, n) (by simp)).1
      refine ⟨pre' ++ (p, n + M) :: post', ?_, (p, n + M), by simp, ?_⟩
      · have hmerge := h.merge hb hup hst (by rw [← hn, ← hsize]; exact hjoin)
        have hptr : ((t.setSize p (n + M)).mem bp).ptr = t.next bp :=
          congrFun (setSize_next t p (n + M)) bp
        dsimp only
        rw [hsize, hn, hM, hptr]
        exact hmerge
      · have hle := hup.le
        dsimp only
        omega
  · rw [if_neg hjoin]
    exact ⟨pre ++ (bp, M) :: post', h.link hb hup hst (by rw [← hsize]; exact hjoin), (bp, M),
      by simp, hup.le⟩

end free

end Umalloc

end Xv6
