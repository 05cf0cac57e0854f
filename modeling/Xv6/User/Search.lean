import Xv6.User.FreeList

/-!
# The search loops of the user heap

`free` stops at the last node below the block: in a list in order, with one
place where it wraps round, no other node meets its condition. `malloc` goes
round until it meets a block that is large enough or is back where it started.
Then `morecore` puts a block in the list that is, so the second round ends. A
round has as many turns as there are nodes, and a loop that is done is done with
more turns too.
-/

namespace Xv6

open Tiling

namespace Umalloc

variable {s : Umalloc} {fs : List (ℕ × ℕ)} {p bp m : ℕ}

/-! ## The loop of `free` -/

/-- The two conditions that end the loop of `free`. -/
def Stops (s : Umalloc) (bp p : ℕ) : Prop :=
  (p < bp ∧ bp < s.next p) ∨ (s.next p ≤ p ∧ (p < bp ∨ bp < s.next p))

theorem freeLoop_of_stops {turns : ℕ} (h : s.Stops bp p) :
    s.freeLoop bp (turns + 1) p = .ok p := by
  unfold Stops next at h
  unfold freeLoop
  grind

theorem freeLoop_of_not_stops {turns : ℕ} (h : ¬ s.Stops bp p) :
    s.freeLoop bp (turns + 1) p = s.freeLoop bp turns (s.next p) := by
  unfold Stops next at *
  rw [freeLoop]
  grind

/-- A block that is not in the list has its place there. -/
theorem MidCall.between (h : s.MidCall fs [(bp, m)]) :
    ∃ pre post p, fs = pre ++ post ∧ s.Between pre post p bp := by
  have hsplit : ∀ l : List (ℕ × ℕ), l.Pairwise (fun b c => b.1 + HEADER * b.2 < c.1) →
      ∃ pre post, l = pre ++ post ∧ (∀ b ∈ pre, b.1 < bp) ∧ ∀ b ∈ post, bp ≤ b.1 := by
    intro l hl
    induction l with
    | nil => exact ⟨[], [], rfl, fun _ h => absurd h List.not_mem_nil,
        fun _ h => absurd h List.not_mem_nil⟩
    | cons b l ih =>
      obtain ⟨hb, hl⟩ := List.pairwise_cons.mp hl
      by_cases hlt : b.1 < bp
      · obtain ⟨pre, post, rfl, hpre, hpost⟩ := ih hl
        exact ⟨b :: pre, post, rfl, List.forall_mem_cons.mpr ⟨hlt, hpre⟩, hpost⟩
      · refine ⟨[], b :: l, rfl, fun _ h => absurd h List.not_mem_nil, ?_⟩
        refine List.forall_mem_cons.mpr ⟨by omega, fun c hc => ?_⟩
        have hbc := hb c hc
        omega
  obtain ⟨pre, post, rfl, hpre, hpost⟩ := hsplit fs h.list.spaced
  rcases List.eq_nil_or_concat' (s.base :: pre.map Prod.fst) with hnil | ⟨u, p, hu⟩
  · exact absurd hnil (List.cons_ne_nil _ _)
  · refine ⟨pre, post, p, rfl, ⟨u, hu⟩, hpre, fun b hb => ?_⟩
    have hne := (h.hand_apart (List.mem_append_right pre hb) (c := (bp, m)) List.mem_cons_self).2.2
    exact Nat.lt_of_le_of_ne (hpost b hb) (Ne.symm hne)

/-- The successor of a node is a node after it, or the list wraps round there. -/
theorem FreeList.next_mem (h : s.FreeList fs) {u v : List ℕ}
    (hl : s.base :: fs.map Prod.fst = u ++ p :: v) :
    (v = [] ∧ s.next p = s.base) ∨ (s.next p ∈ v ∧ p < s.next p) := by
  have hnext := h.loop.next_eq hl
  have hsorted := h.sorted
  rw [hl, List.pairwise_append, List.pairwise_cons] at hsorted
  cases v with
  | nil => exact Or.inl ⟨rfl, hnext⟩
  | cons c v =>
    rw [List.headD_cons] at hnext
    rw [hnext]
    exact Or.inr ⟨List.mem_cons_self, hsorted.2.1.1 c List.mem_cons_self⟩

/-- **Where the loop stops**: at the last node below the block, and there only. -/
theorem MidCall.stops_iff {pre post : List (ℕ × ℕ)} (h : s.MidCall (pre ++ post) [(bp, m)])
    (hb : s.Between pre post p bp) {q : ℕ} (hq : q ∈ s.base :: (pre ++ post).map Prod.fst) :
    s.Stops bp q ↔ q = p := by
  obtain ⟨u, hu, hnodes⟩ := hb.nodes
  have habove : s.base < bp := h.hand_above (b := (bp, m)) List.mem_cons_self
  have hpb : p < bp := hb.p_lt habove
  have hpost : ∀ a ∈ post.map Prod.fst, bp < a := by
    intro a ha
    obtain ⟨b, hmem, rfl⟩ := List.mem_map.mp ha
    exact hb.above b hmem
  have hsorted := h.list.sorted
  rw [hnodes post, List.pairwise_append] at hsorted
  constructor
  · intro hstop
    rw [hnodes post] at hq
    rcases List.mem_append.mp hq with hq | hq
    -- before `p` the successor is still below the block
    · exfalso
      obtain ⟨u₁, u₂, rfl⟩ := List.append_of_mem hq
      have hl := hnodes post
      rw [List.append_assoc, List.cons_append] at hl
      have hsucc : s.next q ≤ p ∧ q < s.next q := by
        have hnext := h.list.loop.next_eq hl
        have hbelow := fun a ha => (hsorted.2.2 a ha p List.mem_cons_self).le
        have hinner := (List.pairwise_append.mp hsorted.1).2.1
        cases u₂ with
        | nil =>
          rw [List.nil_append, List.headD_cons] at hnext
          rw [hnext]
          exact ⟨Nat.le_refl p, hsorted.2.2 q hq p List.mem_cons_self⟩
        | cons c u₂ =>
          rw [List.cons_append, List.headD_cons] at hnext
          rw [hnext]
          exact ⟨hbelow c (by simp), (List.pairwise_cons.mp hinner).1 c List.mem_cons_self⟩
      unfold Stops at hstop
      omega
    · rcases List.mem_cons.mp hq with rfl | hq
      · rfl
      -- after `p` the block is below, and the list wraps round to `base`
      · exfalso
        have hlow := hpost q hq
        obtain ⟨v₁, v₂, hv⟩ := List.append_of_mem hq
        have hl := hnodes post
        rw [hv, ← List.cons_append, ← List.append_assoc] at hl
        have hnext := h.list.next_mem hl
        unfold Stops at hstop
        omega
  · rintro rfl
    have hnext := h.next_of_between hb
    unfold Stops
    cases post with
    | nil =>
      rw [List.map_nil, List.headD_nil] at hnext
      refine Or.inr ⟨?_, Or.inl hpb⟩
      rw [hnext]
      rcases List.mem_cons.mp (hb.p_mem []) with rfl | hp
      · exact Nat.le_refl _
      · obtain ⟨b, hmem, rfl⟩ := List.mem_map.mp hp
        exact (h.list.above b hmem).le
    | cons c post =>
      rw [List.map_cons, List.headD_cons] at hnext
      rw [hnext]
      exact Or.inl ⟨hpb, hb.above c List.mem_cons_self⟩

/-- The loop goes along the list to the node where it stops. -/
theorem freeLoop_of_isChain {l : List ℕ} {z : ℕ} :
    ∀ {q turns : ℕ}, List.IsChain (fun x y => s.next x = y) (q :: l ++ [z]) → p ∈ q :: l →
      (∀ x ∈ q :: l, s.Stops bp x ↔ x = p) → l.length < turns →
      s.freeLoop bp turns q = .ok p := by
  induction l with
  | nil =>
    intro q turns _ hp hstops hturns
    obtain rfl := List.mem_singleton.mp hp
    obtain ⟨n, rfl⟩ := Nat.exists_eq_succ_of_ne_zero (Nat.ne_of_gt hturns)
    exact freeLoop_of_stops ((hstops p List.mem_cons_self).mpr rfl)
  | cons a l ih =>
    intro q turns hchain hp hstops hturns
    obtain ⟨n, rfl⟩ := Nat.exists_eq_succ_of_ne_zero (Nat.ne_of_gt (Nat.zero_lt_of_lt hturns))
    by_cases hq : q = p
    · rw [hq]
      exact freeLoop_of_stops ((hstops p hp).mpr rfl)
    · rw [List.cons_append, List.cons_append, List.isChain_cons_cons] at hchain
      rw [freeLoop_of_not_stops (fun h => hq ((hstops q List.mem_cons_self).mp h)), hchain.1]
      refine ih hchain.2 ((List.mem_cons.mp hp).resolve_left (Ne.symm hq)) ?_
        (Nat.lt_of_succ_lt_succ hturns)
      exact fun x hx => hstops x (List.mem_cons_of_mem q hx)

/-- **`free` ends** with the block in the list. -/
theorem MidCall.free (h : s.MidCall fs [(bp, m)]) :
    ∃ t fs', t.MidCall fs' [] ∧ Unmoved s t ∧ (∃ b ∈ fs', m ≤ b.2)
      ∧ ∀ turns, fs.length < turns → s.free turns (bp + HEADER) = .ok t := by
  obtain ⟨pre, post, p, rfl, hb⟩ := h.between
  obtain ⟨fs', hsound, hlarge⟩ := h.join hb
  obtain ⟨r, hloop, hperm⟩ := h.list.loop.start h.list.rover
  refine ⟨_, fs', hsound, ?_, hlarge, fun turns hturns => ?_⟩
  · have hst := unmoved_joinUpper s p bp
    unfold joinLower
    split <;> exact ⟨hst.base, hst.brk, hst.regions, hst.live⟩
  · have hlen : r.length = (pre ++ post).length := by
      have := hperm.length_eq
      rw [List.length_cons, List.length_cons, List.length_map] at this
      omega
    have hend : s.freeLoop bp turns s.freep = .ok p := by
      refine freeLoop_of_isChain hloop (hperm.mem_iff.mpr (hb.p_mem post)) ?_ (by omega)
      exact fun x hx => h.stops_iff hb (hperm.mem_iff.mp hx)
    unfold Umalloc.free
    rw [Nat.add_sub_cancel]
    dsimp only
    rw [hend]
    rfl

/-! ## Taking a block out -/

/-- The successor of a node, if it has room, is a free block. -/
theorem MidCall.next_block (h : s.MidCall fs []) (hp : p ∈ s.base :: fs.map Prod.fst)
    (hsize : 0 < (s.mem (s.next p)).size) :
    ∃ u pre n post, fs = pre ++ (s.next p, n) :: post ∧ s.base :: pre.map Prod.fst = u ++ [p] := by
  obtain ⟨u, v, hl⟩ := List.append_of_mem hp
  have hnext := h.list.loop.next_eq hl
  cases v with
  | nil =>
    rw [List.headD_nil] at hnext
    rw [hnext, h.list.base] at hsize
    exact absurd hsize (Nat.lt_irrefl 0)
  | cons q v =>
    rw [List.headD_cons] at hnext
    cases u with
    | nil =>
      obtain ⟨hbase, hmap⟩ := List.cons.inj hl
      obtain ⟨b, post, rfl, hb, -⟩ := List.map_eq_cons_iff.mp hmap
      refine ⟨[], [], b.2, post, ?_, ?_⟩
      · rw [hnext, ← hb]
        rfl
      · rw [hbase]
        rfl
    | cons c u =>
      obtain ⟨hbase, hmap⟩ := List.cons.inj hl
      have hmap' : fs.map Prod.fst = (u ++ [p]) ++ q :: v := by
        rw [hmap, List.append_assoc]
        rfl
      obtain ⟨pre, rest, rfl, hpre, hrest⟩ := List.map_eq_append_iff.mp hmap'
      obtain ⟨b, post, rfl, hb, -⟩ := List.map_eq_cons_iff.mp hrest
      refine ⟨c :: u, pre, b.2, post, ?_, ?_⟩
      · rw [hnext, ← hb]
      · rw [hpre, hbase]
        rfl

/-- **A block is taken** out of the list, or the end of one is. -/
theorem MidCall.take (h : s.MidCall fs []) (hp : p ∈ s.base :: fs.map Prod.fst) {n : ℕ} (hn : 0 < n)
    (hsize : n ≤ (s.mem (s.next p)).size) :
    ∃ fs' a t, s.take n p (s.next p) = (a + HEADER, t) ∧ t.MidCall fs' [(a, n)] ∧ Unmoved s t := by
  obtain ⟨u, pre, k, post, rfl, hu⟩ := h.next_block hp (Nat.lt_of_lt_of_le hn hsize)
  generalize hq : s.next p = q at *
  have hmem : (q, k) ∈ pre ++ (q, k) :: post := List.mem_append_right _ List.mem_cons_self
  have hk : (s.mem q).size = k := (h.list.sizes (q, k) hmem).1
  have hqbase : s.base < q := h.list.above (q, k) hmem
  have hlive : ∀ l ∈ s.live, l.1 - HEADER ≠ q := fun l hl =>
    h.live_ne (List.mem_append_left _ hmem) hl
  obtain ⟨hpre, hqpost, hacross⟩ := List.pairwise_append.mp h.list.spaced
  obtain ⟨hqlt, hpost⟩ := List.pairwise_cons.mp hqpost
  unfold Umalloc.take
  by_cases heq : (s.mem q).size = n
  · rw [if_pos heq]
    obtain rfl : k = n := hk.symm.trans heq
    have hsub : (pre ++ post).Sublist (pre ++ (q, k) :: post) :=
      (List.sublist_cons_self _ _).append_left pre
    have hnodes : ∀ l : List (ℕ × ℕ),
        s.base :: (pre ++ l).map Prod.fst = u ++ p :: l.map Prod.fst := by
      intro l
      rw [List.map_append, ← List.cons_append, hu, List.append_assoc]
      rfl
    refine ⟨pre ++ post, q, _, rfl, ⟨⟨?_, ?_, ?_, ?_, ?_, ?_⟩, ?_, h.base⟩, ⟨rfl, rfl, rfl, rfl⟩⟩
    · show Loop (s.setPtr p (s.next q)).next s.base _
      rw [setPtr_next]
      exact h.list.loop.remove h.list.nodup (hnodes ((q, k) :: post)) (hnodes post)
        (Function.update_self _ _ _) (fun x _ hx => Function.update_of_ne hx _ _)
    · exact (setPtr_size s p _ s.base).trans h.list.base
    · intro b hb
      have hold := h.list.sizes b (hsub.subset hb)
      exact ⟨(setPtr_size s p _ b.1).trans hold.1, hold.2⟩
    · exact fun b hb => h.list.above b (hsub.subset hb)
    · exact h.list.spaced.sublist hsub
    · show p ∈ s.base :: _
      rw [hnodes post]
      exact List.mem_append_right u List.mem_cons_self
    · refine h.tiled.retile ⟨rfl, rfl, rfl, rfl⟩ (fun b hb => ?_)
        (fun l _ => setPtr_size s p _ _) (fun x => ?_)
      · obtain rfl := List.mem_singleton.mp hb
        exact ⟨(setPtr_size s p _ q).trans hk, hn⟩
      · simp only [count_append, count_cons, count_nil]
        omega
  · rw [if_neg heq]
    dsimp only
    rw [hk] at heq hsize ⊢
    obtain ⟨r, rfl⟩ := Nat.exists_eq_add_of_le' hsize
    have hr : 0 < r := by omega
    rw [Nat.add_sub_cancel]
    have hmul : HEADER * (r + n) = HEADER * r + HEADER * n := Nat.mul_add HEADER r n
    have hrpos : 0 < HEADER * r := Nat.mul_pos (by decide) hr
    have hnpos : 0 < HEADER * n := Nat.mul_pos (by decide) hn
    have hold : ∀ b ∈ pre ++ (q, r) :: post,
        b = (q, r) ∨ (b ∈ pre ++ (q, r + n) :: post ∧ b.1 ≠ q ∧ b.1 ≠ q + HEADER * r) := by
      intro b hb
      rcases List.mem_append.mp hb with hb | hb
      · have hlt := hacross b hb (q, r + n) List.mem_cons_self
        dsimp only at hlt
        exact Or.inr ⟨List.mem_append_left _ hb, by omega, by omega⟩
      · rcases List.mem_cons.mp hb with rfl | hb
        · exact Or.inl rfl
        · have hlt := hqlt b hb
          dsimp only at hlt
          exact Or.inr ⟨List.mem_append_right _ (List.mem_cons_of_mem _ hb), by omega, by omega⟩
    have hmap : (pre ++ (q, r) :: post).map Prod.fst
        = (pre ++ (q, r + n) :: post).map Prod.fst := by simp
    refine ⟨pre ++ (q, r) :: post, q + HEADER * r, _, rfl, ⟨⟨?_, ?_, ?_, ?_, ?_, ?_⟩, ?_, h.base⟩,
      ⟨rfl, rfl, rfl, rfl⟩⟩
    · show Loop ((s.setSize q r).setSize (q + HEADER * r) n).next s.base _
      rw [setSize_next, setSize_next, hmap]
      exact h.list.loop
    · show (((s.setSize q r).setSize (q + HEADER * r) n).mem s.base).size = 0
      rw [setSize_size, setSize_size, if_neg (by omega), if_neg hqbase.ne]
      exact h.list.base
    · intro b hb
      show (((s.setSize q r).setSize (q + HEADER * r) n).mem b.1).size = b.2 ∧ 0 < b.2
      rw [setSize_size, setSize_size]
      rcases hold b hb with rfl | ⟨hb, hne, hne'⟩
      · rw [if_neg (by dsimp only; omega), if_pos rfl]
        exact ⟨rfl, hr⟩
      · rw [if_neg hne', if_neg hne]
        exact h.list.sizes b hb
    · intro b hb
      rcases hold b hb with rfl | ⟨hb, -, -⟩
      · exact hqbase
      · exact h.list.above b hb
    · refine List.pairwise_append.mpr ⟨hpre, List.pairwise_cons.mpr ⟨fun c hc => ?_, hpost⟩, ?_⟩
      · have hlt := hqlt c hc
        dsimp only at hlt ⊢
        omega
      · intro b hb c hc
        rcases List.mem_cons.mp hc with rfl | hc
        · exact hacross b hb (q, r + n) List.mem_cons_self
        · exact hacross b hb c (List.mem_cons_of_mem _ hc)
    · show p ∈ s.base :: _
      rw [hmap]
      exact hp
    · refine h.tiled.retile ⟨rfl, rfl, rfl, rfl⟩ (fun b hb => ?_) (fun l hl => ?_) (fun x => ?_)
      · obtain rfl := List.mem_singleton.mp hb
        show (((s.setSize q r).setSize (q + HEADER * r) n).mem (q + HEADER * r)).size = n ∧ 0 < n
        rw [setSize_size, if_pos rfl]
        exact ⟨rfl, hn⟩
      · show (((s.setSize q r).setSize (q + HEADER * r) n).mem (l.1 - HEADER)).size = _
        have hout := h.live_not_inside (List.mem_append_left _ hmem) hl
        unfold Inside at hout
        dsimp only at hout
        rw [setSize_size, setSize_size, if_neg (by omega), if_neg (hlive l hl)]
      · simp only [count_append, count_cons, count_nil, one_add]
        omega

/-! ## The loop of `malloc` -/

theorem MidCall.freep_ne_zero {hand : List (ℕ × ℕ)} (h : s.MidCall fs hand) : s.freep ≠ 0 := by
  have hbase := h.base
  rcases List.mem_cons.mp h.list.rover with heq | hmem
  · omega
  · obtain ⟨b, hb, heq⟩ := List.mem_map.mp hmem
    have habove := h.list.above b hb
    omega

section malloc

variable {n : ℕ}

/-- Nodes that are too small are passed. -/
theorem mallocLoop_of_isChain {l : List ℕ} {q : ℕ} :
    ∀ {p : ℕ}, List.IsChain (fun x y => s.next x = y) (p :: l ++ [q]) →
      (∀ x ∈ l, (s.mem x).size < n ∧ x ≠ s.freep) →
      ∃ p' ∈ p :: l, s.next p' = q ∧ ∀ turns answers,
        mallocLoop n (turns + l.length) answers p (s.next p) s
          = mallocLoop n turns answers p' q s := by
  induction l with
  | nil =>
    intro p hchain _
    rw [List.cons_append, List.nil_append, List.isChain_cons_cons] at hchain
    refine ⟨p, List.mem_cons_self, hchain.1, fun turns answers => ?_⟩
    rw [hchain.1]
    rfl
  | cons a l ih =>
    intro p hchain hl
    rw [List.cons_append, List.cons_append, List.isChain_cons_cons] at hchain
    obtain ⟨hsmall, hne⟩ := hl a List.mem_cons_self
    obtain ⟨p', hmem, hnext, heq⟩ := ih hchain.2 (fun x hx => hl x (List.mem_cons_of_mem a hx))
    refine ⟨p', List.mem_cons_of_mem p hmem, hnext, fun turns answers => ?_⟩
    rw [hchain.1, List.length_cons, ← Nat.add_assoc, mallocLoop, if_neg (Nat.not_le_of_lt hsmall),
      if_neg hne]
    exact heq turns answers

/-- A round from `freep`: the nodes it meets before it is back. -/
theorem MidCall.round (h : s.MidCall fs []) :
    ∃ r, Loop s.next s.freep r ∧ (s.freep :: r).Perm (s.base :: fs.map Prod.fst)
      ∧ s.freep ∉ r ∧ r.length = fs.length := by
  obtain ⟨r, hloop, hperm⟩ := h.list.loop.start h.list.rover
  have hlen := hperm.length_eq
  rw [List.length_cons, List.length_cons, List.length_map] at hlen
  exact ⟨r, hloop, hperm, (List.nodup_cons.mp (hperm.nodup_iff.mpr h.list.nodup)).1,
    Nat.succ.inj hlen⟩

/-- **A round with a block that is large enough.** -/
theorem MidCall.mallocLoop_of_large (h : s.MidCall fs []) (hn : 0 < n) (hlarge : ∃ b ∈ fs, n ≤ b.2) :
    ∃ fs' a t, t.MidCall fs' [(a, n)] ∧ Unmoved s t ∧ ∀ turns answers, fs.length < turns →
      mallocLoop n turns answers s.freep (s.next s.freep) s = .ok (a + HEADER, t) := by
  obtain ⟨r, hloop, hperm, hnot, hlen⟩ := h.round
  have hround : ∀ x, x ∈ r ++ [s.freep] ↔ x ∈ s.base :: fs.map Prod.fst := by
    intro x
    rw [← hperm.mem_iff, List.mem_append, List.mem_singleton, List.mem_cons, or_comm]
  -- the first node of the round that is large enough
  obtain ⟨q, hq⟩ : ∃ q, (r ++ [s.freep]).find? (fun x => decide (n ≤ (s.mem x).size)) = some q := by
    obtain ⟨b, hb, hnb⟩ := hlarge
    refine Option.isSome_iff_exists.mp (List.find?_isSome.mpr ⟨b.1, (hround b.1).mpr ?_, ?_⟩)
    · exact List.mem_cons_of_mem _ (List.mem_map_of_mem hb)
    · rw [(h.list.sizes b hb).1]
      exact decide_eq_true hnb
  obtain ⟨hsize, l, rest, hsplit, hsmall⟩ := List.find?_eq_some_iff_append.mp hq
  have hl : l <+: r := by
    rcases List.prefix_concat_iff.mp ⟨q :: rest, hsplit.symm⟩ with heq | hl
    · rw [heq] at hsplit
      exact absurd (List.append_right_eq_self.mp hsplit.symm) (List.cons_ne_nil _ _)
    · exact hl
  have hchain : List.IsChain (fun x y => s.next x = y) (s.freep :: l ++ [q]) := by
    have hwhole : List.IsChain (fun x y => s.next x = y) (s.freep :: (r ++ [s.freep])) := hloop
    rw [hsplit, List.append_cons, ← List.cons_append] at hwhole
    exact hwhole.left_of_append
  have hpass : ∀ x ∈ l, (s.mem x).size < n ∧ x ≠ s.freep := by
    intro x hx
    refine ⟨by simpa using hsmall x hx, fun heq => hnot ?_⟩
    rw [← heq]
    exact hl.subset hx
  obtain ⟨p', hp', rfl, heq⟩ := mallocLoop_of_isChain hchain hpass
  have hp'' : p' ∈ s.base :: fs.map Prod.fst := by
    rw [← hperm.mem_iff]
    exact List.cons_subset_cons _ hl.subset hp'
  obtain ⟨fs', a, t, htake, hsound, hst⟩ := h.take hp'' hn (of_decide_eq_true hsize)
  refine ⟨fs', a, t, hsound, hst, fun turns answers hturns => ?_⟩
  have hle := hl.length_le
  obtain ⟨k, rfl⟩ : ∃ k, turns = (k + 1) + l.length := ⟨turns - l.length - 1, by omega⟩
  rw [heq, mallocLoop, if_pos (of_decide_eq_true hsize), htake]

/-- A round without one ends where it started. -/
theorem MidCall.mallocLoop_of_small (h : s.MidCall fs []) (hsmall : ∀ b ∈ fs, b.2 < n) (hn : 0 < n)
    (turns : ℕ) (answers : List (Option ℕ)) :
    mallocLoop n (turns + 1 + fs.length) answers s.freep (s.next s.freep) s
      = (s.morecore turns n (answers.headD none) >>= fun r =>
          if r.1 = 0 then pure (0, r.2)
          else mallocLoop n turns answers.tail r.1 (r.2.mem r.1).ptr r.2) := by
  obtain ⟨r, hloop, hperm, hnot, hlen⟩ := h.round
  have hnode : ∀ x ∈ s.base :: fs.map Prod.fst, (s.mem x).size < n := by
    intro x hx
    rcases List.mem_cons.mp hx with rfl | hx
    · rw [h.list.base]
      exact hn
    · obtain ⟨b, hb, rfl⟩ := List.mem_map.mp hx
      rw [(h.list.sizes b hb).1]
      exact hsmall b hb
  have hpass : ∀ x ∈ r, (s.mem x).size < n ∧ x ≠ s.freep := by
    intro x hx
    refine ⟨hnode x (hperm.mem_iff.mp (List.mem_cons_of_mem _ hx)), fun heq => hnot ?_⟩
    rwa [← heq]
  obtain ⟨p', -, -, heq⟩ := mallocLoop_of_isChain hloop hpass
  rw [← hlen, heq, mallocLoop, if_neg (Nat.not_le_of_lt (hnode _ h.list.rover)), if_pos rfl]

/-- What `morecore` asks for does not overflow. -/
theorem moreBytes_eq (hn : n ≤ 2 ^ 28) : moreBytes n = HEADER * max n 4096 := by
  have hlt : max n 4096 * HEADER < 2 ^ 32 := by
    unfold HEADER
    omega
  rw [moreBytes, Nat.mod_eq_of_lt hlt, Nat.mul_comm]

/-- **Memory from `sbrk`** is a block in hand. -/
theorem MidCall.sbrk (h : s.MidCall fs []) (hn : n ≤ 2 ^ 28) (hfresh : s.Fresh p (moreBytes n)) :
    MidCall (setSize p (max n 4096) { s with
      brk := p + moreBytes n
      regions := (p, moreBytes n) :: s.regions }) fs [(p, max n 4096)] := by
  have hp : s.brk ≤ p := hfresh.1
  have hbrk := h.tiled.brk
  have hu : 0 < HEADER := by decide
  have hM : 0 < max n 4096 := by omega
  have hbase : s.base ≠ p := by omega
  have hfree : ∀ b ∈ fs, b.1 ≠ p := by
    intro b hb
    have hlt := (h.bounds (List.mem_append_left _ (List.mem_append_left _ hb))
      (inside_start hu (h.list.sizes b hb).2)).2
    omega
  have hlive : ∀ l ∈ s.live, l.1 - HEADER ≠ p := by
    intro l hl
    have hmem : (l.1 - HEADER, nunits l.2) ∈ s.liveBlocks := List.mem_map.mpr ⟨l, hl, rfl⟩
    have hlt := (h.bounds (List.mem_append_right _ hmem) (inside_start hu (nunits_pos l.2))).2
    dsimp only at hlt
    omega
  refine ⟨⟨?_, ?_, ?_, h.list.above, h.list.spaced, h.list.rover⟩, ⟨?_, ?_, h.tiled.asked, ?_, ?_, ?_, ?_⟩,
    h.base⟩
  · rw [setSize_next]
    exact h.list.loop
  · rw [setSize_size]
    exact (if_neg hbase).trans h.list.base
  · intro b hb
    rw [setSize_size, if_neg (hfree b hb)]
    exact h.list.sizes b hb
  · intro b hb
    obtain rfl := List.mem_singleton.mp hb
    rw [setSize_size, if_pos rfl]
    exact ⟨rfl, hM⟩
  · intro l hl
    rw [setSize_size, if_neg (hlive l hl)]
    exact h.tiled.live l hl
  · intro x
    have hold := h.tiled.count x
    rw [List.append_nil] at hold
    show _ + count HEADER s.liveBlocks x = count 1 ((p, moreBytes n) :: s.regions) x
    rw [count_append, count_cons, count_cons, count_nil, one_bytes, moreBytes_eq hn]
    omega
  · intro x
    show count 1 ((p, moreBytes n) :: s.regions) x ≤ 1
    rw [count_cons]
    unfold one
    by_cases hx : Inside 1 (p, moreBytes n) x
    · have hout : ¬ 0 < count 1 s.regions x := by
        intro hpos
        obtain ⟨r, hr, hin⟩ := count_pos_iff.mp hpos
        have hle := (h.tiled.regions r hr).2
        unfold Inside at hx hin
        dsimp only at hx
        omega
      rw [if_pos hx]
      omega
    · rw [if_neg hx, Nat.zero_add]
      exact h.tiled.once x
  · show ∀ r ∈ (p, moreBytes n) :: s.regions, s.base + HEADER ≤ r.1 ∧ r.1 + r.2 ≤ p + moreBytes n
    refine List.forall_mem_cons.mpr ⟨⟨by dsimp only; omega, Nat.le_refl _⟩, fun r hr => ?_⟩
    obtain ⟨hlow, hhigh⟩ := h.tiled.regions r hr
    exact ⟨hlow, by omega⟩
  · show s.base + HEADER ≤ p + moreBytes n
    omega

/-- **How a call of `malloc` ends**: with a block, without memory, or with an
answer of `sbrk` that is none. -/
inductive Served (s : Umalloc) (n : ℕ) (answers : List (Option ℕ)) :
    Except UmallocHalt (ℕ × Umalloc) → Prop
  | block {t : Umalloc} {fs : List (ℕ × ℕ)} {a : ℕ} (h : t.MidCall fs [(a, n)])
      (hlive : t.live = s.live) : Served s n answers (.ok (a + HEADER, t))
  | none (h : answers.headD none = none) : Served s n answers (.ok (0, s))
  | sbrk {p : ℕ} (h : answers.headD none = some p) (hp : ¬ s.Fresh p (moreBytes n)) :
      Served s n answers (.error .sbrk)

/-- **The loop of `malloc` ends.** -/
theorem MidCall.served (h : s.MidCall fs []) (hn : 0 < n) (hn' : n ≤ 2 ^ 28)
    (answers : List (Option ℕ)) :
    ∃ r k, Served s n answers r
      ∧ ∀ turns, k ≤ turns → mallocLoop n turns answers s.freep (s.next s.freep) s = r := by
  by_cases hlarge : ∃ b ∈ fs, n ≤ b.2
  · obtain ⟨fs', a, t, hsound, hst, hend⟩ := h.mallocLoop_of_large hn hlarge
    exact ⟨_, fs.length + 1, .block hsound hst.live, fun turns hturns => hend turns answers hturns⟩
  · have hsmall : ∀ b ∈ fs, b.2 < n := fun b hb =>
      Nat.lt_of_not_le (fun hle => hlarge ⟨b, hb, hle⟩)
    have hloop : ∀ turns, fs.length + 1 ≤ turns → ∃ k, turns = k + 1 + fs.length :=
      fun turns hturns => ⟨turns - fs.length - 1, by omega⟩
    cases hanswer : answers.headD none with
    | none =>
      refine ⟨_, fs.length + 1, .none hanswer, fun turns hturns => ?_⟩
      obtain ⟨k, rfl⟩ := hloop turns hturns
      rw [h.mallocLoop_of_small hsmall hn, hanswer]
      rfl
    | some p =>
      by_cases hfresh : s.Fresh p (moreBytes n)
      · have hsbrk := h.sbrk hn' hfresh
        obtain ⟨t, fs₁, hsound, hst, ⟨b, hb, hle⟩, hfree⟩ := hsbrk.free
        have hlarge₁ : ∃ b ∈ fs₁, n ≤ b.2 := ⟨b, hb, by omega⟩
        obtain ⟨fs₂, a, t₂, hsound₂, hst₂, hend⟩ := hsound.mallocLoop_of_large hn hlarge₁
        have hfreep := hsound.freep_ne_zero
        refine ⟨_, fs.length + fs₁.length + fs.length + 3,
          .block hsound₂ (hst₂.live.trans hst.live), fun turns hturns => ?_⟩
        obtain ⟨k, rfl⟩ := hloop turns (by omega)
        have hmore : s.morecore k n (some p) = .ok (t.freep, t) := by
          unfold morecore
          dsimp only
          rw [if_pos hfresh, hfree k (by omega)]
          rfl
        rw [h.mallocLoop_of_small hsmall hn, hanswer, hmore]
        show (if t.freep = 0 then _ else mallocLoop n k answers.tail t.freep (t.next t.freep) t) = _
        rw [if_neg hfreep]
        exact hend k answers.tail (by omega)
      · refine ⟨_, fs.length + 1, .sbrk hanswer hfresh, fun turns hturns => ?_⟩
        obtain ⟨k, rfl⟩ := hloop turns hturns
        have hmore : s.morecore k n (some p) = .error .sbrk := by
          unfold morecore
          dsimp only
          rw [if_neg hfresh]
        rw [h.mallocLoop_of_small hsmall hn, hanswer, hmore]
        rfl

end malloc

/-! ## More turns -/

theorem freeLoop_mono {k k' q : ℕ} (h : s.freeLoop bp k p = .ok q) (hk : k ≤ k') :
    s.freeLoop bp k' p = .ok q := by
  induction k generalizing p k' with
  | zero => exact nomatch h
  | succ k ih =>
    obtain ⟨k', rfl⟩ := Nat.exists_eq_succ_of_ne_zero (Nat.ne_of_gt (Nat.lt_of_lt_of_le k.succ_pos hk))
    unfold freeLoop at h ⊢
    grind

theorem free_mono {k k' ap : ℕ} {t : Umalloc} (h : s.free k ap = .ok t) (hk : k ≤ k') :
    s.free k' ap = .ok t := by
  unfold Umalloc.free at h ⊢
  dsimp only at h ⊢
  cases hloop : s.freeLoop (ap - HEADER) k s.freep with
  | error e =>
    rw [hloop] at h
    exact nomatch h
  | ok q =>
    rw [hloop] at h
    rw [freeLoop_mono hloop hk]
    exact h

theorem morecore_mono {k k' n : ℕ} {answer : Option ℕ} {r : ℕ × Umalloc}
    (h : s.morecore k n answer = .ok r) (hk : k ≤ k') : s.morecore k' n answer = .ok r := by
  cases answer with
  | none => exact h
  | some p =>
    unfold morecore at h ⊢
    dsimp only at h ⊢
    split at h
    · next hfresh =>
      rw [if_pos hfresh]
      cases hfree : Umalloc.free k (p + HEADER) (setSize p (max n 4096) { s with
          brk := p + moreBytes n
          regions := (p, moreBytes n) :: s.regions }) with
      | error e =>
        rw [hfree] at h
        exact nomatch h
      | ok t =>
        rw [hfree] at h
        rw [free_mono hfree hk]
        exact h
    · exact nomatch h

theorem mallocLoop_mono {n k k' q : ℕ} {answers : List (Option ℕ)} {r : ℕ × Umalloc}
    (h : mallocLoop n k answers q p s = .ok r) (hk : k ≤ k') :
    mallocLoop n k' answers q p s = .ok r := by
  induction k generalizing answers q p s k' with
  | zero => exact nomatch h
  | succ k ih =>
    obtain ⟨k', rfl⟩ := Nat.exists_eq_succ_of_ne_zero (Nat.ne_of_gt (Nat.lt_of_lt_of_le k.succ_pos hk))
    have hk' := Nat.le_of_succ_le_succ hk
    rw [mallocLoop] at h ⊢
    cases hmore : s.morecore k n (answers.headD none) with
    | error e =>
      rw [hmore] at h
      replace h : (if _ then _ else if _ then Except.error e else _) = Except.ok r := h
      grind
    | ok t =>
      obtain ⟨a, t⟩ := t
      rw [hmore] at h
      rw [morecore_mono hmore hk']
      replace h : (if _ then _ else if _ then (if a = 0 then pure (0, t)
        else mallocLoop n k answers.tail a (t.mem a).ptr t) else _) = .ok r := h
      show (if _ then _ else if _ then (if a = 0 then pure (0, t)
        else mallocLoop n k' answers.tail a (t.mem a).ptr t) else _) = .ok r
      grind

end Umalloc

end Xv6
