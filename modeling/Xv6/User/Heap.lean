import Xv6.User.Search

/-!
# Runs of the user heap

What every call keeps and what every run keeps. A block goes from the list to
the hand of `malloc` and on to its owner, and from the owner through the hand of
`free` back to the list. The memory in blocks is the same on the way, and the
owner's writes are to no header.
-/

namespace Xv6

open Function

open Tiling

namespace Umalloc

variable {s : Umalloc} {fs : List (ℕ × ℕ)}

/-! ## Steps -/

/-- The heap between calls: not in use yet, or in order. -/
def Ordered (s : Umalloc) : Prop := s.Initial ∨ ∃ fs, s.MidCall fs []

theorem Initial.init (h : s.Initial) : s.init.MidCall [] [] := by
  have hbase : s.init.base = s.base := rfl
  refine ⟨⟨?_, ?_, ?_, ?_, List.Pairwise.nil, List.mem_cons_self⟩, ⟨?_, ?_, ?_, ?_, ?_, ?_, h.brk⟩,
    h.base⟩
  · show Loop ((s.setPtr s.base s.base).setSize s.base 0).next s.base []
    rw [setSize_next, setPtr_next]
    refine List.isChain_cons_cons.mpr ⟨update_self _ _ _, List.isChain_singleton _⟩
  · show (((s.setPtr s.base s.base).setSize s.base 0).mem s.base).size = 0
    rw [setSize_size, if_pos rfl]
  · exact fun b hb => absurd hb List.not_mem_nil
  · exact fun b hb => absurd hb List.not_mem_nil
  · exact fun b hb => absurd hb List.not_mem_nil
  · show ∀ l ∈ s.live, _
    rw [h.live]
    exact fun l hl => absurd hl List.not_mem_nil
  · show ∀ l ∈ s.live, _
    rw [h.live]
    exact fun l hl => absurd hl List.not_mem_nil
  · intro x
    show _ + count HEADER s.liveBlocks x = count 1 s.regions x
    rw [liveBlocks, h.live, h.regions]
    rfl
  · intro x
    show count 1 s.regions x ≤ 1
    rw [h.regions]
    exact Nat.zero_le 1
  · show ∀ r ∈ s.regions, _
    rw [h.regions]
    exact fun r hr => absurd hr List.not_mem_nil

variable {nbytes : ℕ}

/-- The units that are asked for: their bytes are enough and do not overflow. -/
theorem nunits_room (h : nbytes ≤ 2 ^ 31 - 16) :
    nbytes + HEADER ≤ HEADER * nunits nbytes ∧ nunits nbytes ≤ 2 ^ 28 := by
  unfold nunits HEADER
  rw [Nat.mod_eq_of_lt (by omega)]
  omega

variable {a : ℕ}

/-- **A block in hand is handed out.** -/
theorem MidCall.hand_out (h : s.MidCall fs [(a, nunits nbytes)]) (hbytes : nbytes ≤ 2 ^ 31 - 16) :
    MidCall { s with live := (a + HEADER, nbytes) :: s.live } fs [] := by
  refine ⟨⟨h.list.loop, h.list.base, h.list.sizes, h.list.above, h.list.spaced, h.list.rover⟩,
    ⟨fun b hb => absurd hb List.not_mem_nil, ?_, ?_, ?_, h.tiled.once, h.tiled.regions,
      h.tiled.brk⟩, h.base⟩
  · refine List.forall_mem_cons.mpr ⟨⟨Nat.le_add_left _ _, ?_⟩, h.tiled.live⟩
    rw [Nat.add_sub_cancel]
    exact (h.tiled.sizes (a, nunits nbytes) List.mem_cons_self).1
  · exact List.forall_mem_cons.mpr ⟨hbytes, h.tiled.asked⟩
  · intro x
    have hold := h.tiled.count x
    show _ + count HEADER ((a + HEADER - HEADER, nunits nbytes) :: s.liveBlocks) x
      = count 1 s.regions x
    rw [Nat.add_sub_cancel]
    simp only [count_append, count_cons, count_nil] at hold ⊢
    omega

variable {ap : ℕ}

/-- **A live block is taken back.** -/
theorem MidCall.take_back (h : s.MidCall fs []) (hap : ∃ l ∈ s.live, l.1 = ap) :
    ∃ n, HEADER ≤ ap ∧ MidCall { s with live := s.live.eraseP (fun l => l.1 = ap) } fs
      [(ap - HEADER, n)] := by
  obtain ⟨l, hl, hlap⟩ := hap
  obtain ⟨l, u, v, -, hlap, hlive, herase⟩ :=
    List.exists_of_eraseP (p := fun l => decide (l.1 = ap)) hl (decide_eq_true hlap)
  replace hlap : l.1 = ap := of_decide_eq_true hlap
  have hl' : l ∈ s.live := by
    rw [hlive]
    exact List.mem_append_right u List.mem_cons_self
  have hsub : (u ++ v).Sublist s.live := by
    rw [hlive]
    exact (List.sublist_cons_self l v).append_left u
  obtain ⟨hle, hsize⟩ := h.tiled.live l hl'
  rw [hlap] at hle hsize
  refine ⟨nunits l.2, hle, ?_⟩
  rw [herase]
  refine ⟨⟨h.list.loop, h.list.base, h.list.sizes, h.list.above, h.list.spaced, h.list.rover⟩,
    ⟨?_, fun c hc => h.tiled.live c (hsub.subset hc), fun c hc => h.tiled.asked c (hsub.subset hc),
      ?_, h.tiled.once, h.tiled.regions, h.tiled.brk⟩, h.base⟩
  · intro b hb
    obtain rfl := List.mem_singleton.mp hb
    exact ⟨hsize, nunits_pos l.2⟩
  · intro x
    have hold := h.tiled.count x
    show _ + count HEADER ((u ++ v).map (fun l => (l.1 - HEADER, nunits l.2))) x
      = count 1 s.regions x
    rw [liveBlocks, hlive] at hold
    simp only [List.map_append, List.map_cons, count_append, count_cons, count_nil, hlap]
      at hold ⊢
    omega

/-- A byte that a live block gives its owner is in no other block. -/
theorem MidCall.payload (h : s.MidCall fs []) {l : ℕ × ℕ} (hl : l ∈ s.live) (hlow : l.1 ≤ a)
    (hhigh : a < l.1 + l.2) :
    a ≠ s.base ∧ (∀ b ∈ fs, b.1 ≠ a) ∧ ∀ c ∈ s.live, c.1 - HEADER ≠ a := by
  have hu : 0 < HEADER := by decide
  have hle := (h.tiled.live l hl).1
  have hroom := (nunits_room (h.tiled.asked l hl)).1
  have hin : Inside HEADER (l.1 - HEADER, nunits l.2) a := by
    unfold Inside
    dsimp only
    omega
  have hmem : (l.1 - HEADER, nunits l.2) ∈ s.liveBlocks := List.mem_map.mpr ⟨l, hl, rfl⟩
  refine ⟨?_, ?_, ?_⟩
  · have hbound := (h.bounds (List.mem_append_right _ hmem) hin).1
    omega
  · rintro b hb rfl
    exact not_inside (h.once b.1) (List.mem_append_left [] hb) hmem hin
      (inside_start hu (h.list.sizes b hb).2)
  · rintro c hc rfl
    by_cases hcl : c = l
    · rw [hcl] at hlow
      have := (h.tiled.live l hl).1
      omega
    -- two live blocks would have the byte
    · have hperm := (List.perm_cons_erase hl).map (fun l => (l.1 - HEADER, nunits l.2))
      have honce := h.once (c.1 - HEADER)
      rw [liveBlocks, count_perm hperm, List.map_cons, count_cons] at honce
      have hone : one HEADER (l.1 - HEADER, nunits l.2) (c.1 - HEADER) = 1 := if_pos hin
      have hc' : (c.1 - HEADER, nunits c.2) ∈ (s.live.erase l).map
          (fun l => (l.1 - HEADER, nunits l.2)) :=
        List.mem_map.mpr ⟨c, (List.mem_erase_of_ne hcl).mpr hc, rfl⟩
      have hpos : 0 < count HEADER ((s.live.erase l).map (fun l => (l.1 - HEADER, nunits l.2)))
          (c.1 - HEADER) := count_pos_iff.mpr ⟨_, hc', inside_start hu (nunits_pos c.2)⟩
      omega

/-- **A write to a live block.** -/
theorem MidCall.store (h : s.MidCall fs []) (v : Header)
    (ha : ∃ l ∈ s.live, l.1 ≤ a ∧ a + HEADER ≤ l.1 + l.2) :
    MidCall { s with mem := update s.mem a v } fs [] := by
  obtain ⟨l, hl, hlow, hhigh⟩ := ha
  have hlt : a < l.1 + l.2 := Nat.lt_of_lt_of_le (Nat.lt_add_of_pos_right (by decide)) hhigh
  obtain ⟨hbase, hfree, hlive⟩ := h.payload hl hlow hlt
  have hsame : ∀ x, x ≠ a → update s.mem a v x = s.mem x :=
    fun x hx => update_of_ne hx v s.mem
  refine ⟨⟨?_, ?_, ?_, h.list.above, h.list.spaced, h.list.rover⟩, ?_, h.base⟩
  · refine h.list.loop.congr (fun x hx => ?_)
    show (update s.mem a v x).ptr = s.next x
    rcases List.mem_cons.mp hx with rfl | hx
    · rw [hsame _ (Ne.symm hbase)]
      rfl
    · obtain ⟨b, hb, rfl⟩ := List.mem_map.mp hx
      rw [hsame _ (hfree b hb)]
      rfl
  · show (update s.mem a v s.base).size = 0
    rw [hsame _ (Ne.symm hbase)]
    exact h.list.base
  · intro b hb
    show (update s.mem a v b.1).size = b.2 ∧ 0 < b.2
    rw [hsame _ (hfree b hb)]
    exact h.list.sizes b hb
  · refine h.tiled.retile ⟨rfl, rfl, rfl, rfl⟩ (fun b hb => absurd hb List.not_mem_nil)
      (fun c hc => ?_) (fun x => rfl)
    show (update s.mem a v (c.1 - HEADER)).size = _
    rw [hsame _ (hlive c hc)]

/-- **`malloc` ends**: with a block in hand, without memory, or with an answer of `sbrk` that is
none. -/
theorem Ordered.served (h : s.Ordered) (hbytes : nbytes ≤ 2 ^ 31 - 16) (answers : List (Option ℕ)) :
    ∃ r k, (∀ turns, k ≤ turns → s.malloc turns nbytes answers = r)
      ∧ ((∃ a t fs, r = .ok (a + HEADER, t) ∧ t.MidCall fs [(a, nunits nbytes)] ∧ t.live = s.live)
        ∨ (∃ t fs, r = .ok (0, t) ∧ t.MidCall fs [])
        ∨ ∃ p, answers.headD none = some p ∧ ¬ s.Fresh p (moreBytes (nunits nbytes))
          ∧ r = .error .sbrk) := by
  obtain ⟨s₀, fs, hs₀, hstart, hfresh, hlive⟩ : ∃ s₀ fs, s₀ = (if s.freep = 0 then s.init else s)
      ∧ s₀.MidCall fs [] ∧ (∀ p n, s₀.Fresh p n ↔ s.Fresh p n) ∧ s₀.live = s.live := by
    rcases h with h | ⟨fs, h⟩
    · exact ⟨_, [], (if_pos h.freep).symm, h.init, fun _ _ => Iff.rfl, rfl⟩
    · exact ⟨_, fs, (if_neg h.freep_ne_zero).symm, h, fun _ _ => Iff.rfl, rfl⟩
  obtain ⟨r, k, hserved, hend⟩ := hstart.served (nunits_pos nbytes) (nunits_room hbytes).2 answers
  refine ⟨r, k, fun turns hturns => ?_, ?_⟩
  · unfold Umalloc.malloc
    rw [← hs₀]
    exact hend turns hturns
  · cases hserved with
    | block hsound hkept => exact Or.inl ⟨_, _, _, rfl, hsound, hkept.trans hlive⟩
    | none _ => exact Or.inr (Or.inl ⟨_, fs, rfl, hstart⟩)
    | sbrk hanswer hp =>
      exact Or.inr (Or.inr ⟨_, hanswer, fun hf => hp ((hfresh _ _).mpr hf), rfl⟩)

/-- **`malloc` ends**, and unless `sbrk` errs the heap is in order then. -/
theorem Ordered.malloc (h : s.Ordered) (hbytes : nbytes ≤ 2 ^ 30) (answers : List (Option ℕ)) :
    ∃ r k, (∀ turns, k ≤ turns → s.step (.malloc turns nbytes answers) = r)
      ∧ ((∃ ap t, r = .ok (ap, t) ∧ t.Ordered)
        ∨ ∃ p, answers.headD none = some p ∧ ¬ s.Fresh p (moreBytes (nunits nbytes))
          ∧ r = .error .sbrk) := by
  have hbytes' : nbytes ≤ 2 ^ 31 - 16 := by omega
  obtain ⟨r, k, hend, hr⟩ := h.served hbytes' answers
  refine ⟨r >>= fun r => if r.1 = 0 then pure (0, r.2)
    else pure (r.1, { r.2 with live := (r.1, nbytes) :: r.2.live }), k, fun turns hturns => ?_, ?_⟩
  · unfold step
    dsimp only
    rw [if_pos hbytes, hend turns hturns]
  · rcases hr with ⟨a, t, fs, rfl, hsound, -⟩ | ⟨t, fs, rfl, hsound⟩ | ⟨p, hp, hnot, rfl⟩
    · have hne : a + HEADER ≠ 0 := Nat.succ_ne_zero _
      refine Or.inl ⟨a + HEADER, _, ?_, Or.inr ⟨_, hsound.hand_out hbytes'⟩⟩
      show (if a + HEADER = 0 then (.ok (0, t) : Except UmallocHalt (ℕ × Umalloc)) else _) = _
      rw [if_neg hne]
      rfl
    · exact Or.inl ⟨_, _, rfl, Or.inr ⟨fs, hsound⟩⟩
    · exact Or.inr ⟨p, hp, hnot, rfl⟩

/-- **`free` ends**, with the heap in order. -/
theorem Ordered.free (h : s.Ordered) (hap : ∃ l ∈ s.live, l.1 = ap) :
    ∃ t k, t.Ordered ∧ ∀ turns, k ≤ turns → s.step (.free turns ap) = .ok (0, t) := by
  rcases h with h | ⟨fs, h⟩
  · obtain ⟨l, hl, -⟩ := hap
    rw [h.live] at hl
    exact absurd hl List.not_mem_nil
  · obtain ⟨n, hle, hback⟩ := h.take_back hap
    obtain ⟨t, fs', hsound, -, -, hend⟩ := hback.free
    refine ⟨t, fs.length + 1, Or.inr ⟨fs', hsound⟩, fun turns hturns => ?_⟩
    have hfree := hend turns hturns
    rw [Nat.sub_add_cancel hle] at hfree
    unfold step
    dsimp only
    rw [if_pos hap, hfree]
    rfl

/-- A result with more turns is the same. -/
theorem step_malloc_mono {k k' : ℕ} {answers : List (Option ℕ)} {r : ℕ × Umalloc}
    (h : s.step (.malloc k nbytes answers) = .ok r) (hk : k ≤ k') :
    s.step (.malloc k' nbytes answers) = .ok r := by
  unfold step at h ⊢
  dsimp only at h ⊢
  by_cases hbytes : nbytes ≤ 2 ^ 30
  · rw [if_pos hbytes] at h ⊢
    cases hloop : s.malloc k nbytes answers with
    | error e =>
      rw [hloop] at h
      exact nomatch h
    | ok t =>
      have hloop' : s.malloc k' nbytes answers = .ok t := by
        unfold Umalloc.malloc at hloop ⊢
        exact mallocLoop_mono hloop hk
      rw [hloop] at h
      rw [hloop']
      exact h
  · rw [if_neg hbytes] at h
    exact nomatch h

theorem step_free_mono {k k' : ℕ} {r : ℕ × Umalloc} (h : s.step (.free k ap) = .ok r) (hk : k ≤ k') :
    s.step (.free k' ap) = .ok r := by
  unfold step at h ⊢
  dsimp only at h ⊢
  by_cases hap : ∃ l ∈ s.live, l.1 = ap
  · rw [if_pos hap] at h ⊢
    cases hfree : Umalloc.free k ap { s with live := s.live.eraseP (fun l => l.1 = ap) } with
    | error e =>
      rw [hfree] at h
      exact nomatch h
    | ok t =>
      rw [hfree] at h
      rw [free_mono hfree hk]
      exact h
  · rw [if_neg hap] at h
    exact nomatch h

/-- **Every step keeps the heap in order.** -/
theorem Ordered.step (h : s.Ordered) {e : Event} {o : ℕ} {t : Umalloc}
    (hstep : s.step e = .ok (o, t)) : t.Ordered := by
  cases e with
  | malloc turns nbytes answers =>
    by_cases hbytes : nbytes ≤ 2 ^ 30
    · obtain ⟨r, k, hend, hr⟩ := h.malloc hbytes answers
      have hlate := step_malloc_mono hstep (Nat.le_max_left turns k)
      rw [hend _ (Nat.le_max_right turns k)] at hlate
      rcases hr with ⟨ap, t', hr, hordered⟩ | ⟨p, -, -, hr⟩
      · cases hr.symm.trans hlate
        exact hordered
      · exact nomatch hr.symm.trans hlate
    · unfold Umalloc.step at hstep
      dsimp only at hstep
      rw [if_neg hbytes] at hstep
      exact nomatch hstep
  | free turns ap =>
    by_cases hap : ∃ l ∈ s.live, l.1 = ap
    · obtain ⟨t', k, hordered, hend⟩ := h.free hap
      have hlate := step_free_mono hstep (Nat.le_max_left turns k)
      rw [hend _ (Nat.le_max_right turns k)] at hlate
      cases hlate
      exact hordered
    · unfold Umalloc.step at hstep
      dsimp only at hstep
      rw [if_neg hap] at hstep
      exact nomatch hstep
  | store a v =>
    unfold Umalloc.step at hstep
    dsimp only at hstep
    by_cases ha : ∃ l ∈ s.live, l.1 ≤ a ∧ a + HEADER ≤ l.1 + l.2
    · rw [if_pos ha] at hstep
      cases hstep
      rcases h with h | ⟨fs, h⟩
      · obtain ⟨l, hl, -⟩ := ha
        rw [h.live] at hl
        exact absurd hl List.not_mem_nil
      · exact Or.inr ⟨fs, h.store v ha⟩
    · rw [if_neg ha] at hstep
      exact nomatch hstep

/-! ## Every run -/

/-- **The heap as its users see it**, with the free blocks `fs`: a circular list
of nodes in the order of their addresses that wraps round at one node, no two
free blocks next to each other, the memory from `sbrk` tiled by the free blocks
and the live ones, and room in every live block. -/
structure Intact (s : Umalloc) (fs : List (ℕ × ℕ)) : Prop where
  loop : Loop s.next s.base (fs.map Prod.fst)
  sorted : (s.base :: fs.map Prod.fst).Pairwise (· < ·)
  wrap : ∃! p, p ∈ s.base :: fs.map Prod.fst ∧ s.next p ≤ p
  rover : s.freep ∈ s.base :: fs.map Prod.fst
  apart : ∀ b ∈ fs, ∀ c ∈ fs, b.1 + HEADER * b.2 ≠ c.1
  free : ∀ b ∈ fs, (s.mem b.1).size = b.2 ∧ 0 < b.2
  live : ∀ l ∈ s.live, HEADER ≤ l.1 ∧ (s.mem (l.1 - HEADER)).size = nunits l.2
  tiles : ∀ x, count HEADER fs x + count HEADER s.liveBlocks x = count 1 s.regions x
  once : ∀ x, count 1 s.regions x ≤ 1
  room : ∀ l ∈ s.live, l.1 + l.2 ≤ l.1 - HEADER + HEADER * (s.mem (l.1 - HEADER)).size

/-- The list wraps round at its last node. -/
theorem FreeList.wrap (h : s.FreeList fs) :
    ∃! p, p ∈ s.base :: fs.map Prod.fst ∧ s.next p ≤ p := by
  rcases List.eq_nil_or_concat' (s.base :: fs.map Prod.fst) with hnil | ⟨u, p, hu⟩
  · exact absurd hnil (List.cons_ne_nil _ _)
  have hp : p ∈ s.base :: fs.map Prod.fst := by
    rw [hu]
    exact List.mem_append_right u List.mem_cons_self
  refine ⟨p, ⟨hp, ?_⟩, ?_⟩
  · rw [h.loop.next_eq hu]
    rcases List.mem_cons.mp hp with rfl | hp
    · exact Nat.le_refl _
    · obtain ⟨b, hb, rfl⟩ := List.mem_map.mp hp
      exact (h.above b hb).le
  · rintro q ⟨hq, hle⟩
    obtain ⟨u', v', hsplit⟩ := List.append_of_mem hq
    rcases h.next_mem hsplit with ⟨rfl, -⟩ | ⟨-, hlt⟩
    · have hlast := (List.append_inj' (hsplit.symm.trans hu) rfl).2
      exact List.singleton_inj.mp hlast
    · omega

/-- No free block ends where another starts. -/
theorem FreeList.not_adjacent (h : s.FreeList fs) {b c : ℕ × ℕ} (hb : b ∈ fs) (hc : c ∈ fs) :
    b.1 + HEADER * b.2 ≠ c.1 := by
  have hpos := Nat.mul_pos (show 0 < HEADER by decide) (h.sizes b hb).2
  by_cases hbc : b = c
  · rw [← hbc]
    omega
  · obtain ⟨u, v, rfl⟩ := List.append_of_mem hb
    obtain ⟨-, hv, hacross⟩ := List.pairwise_append.mp h.spaced
    rcases List.mem_append.mp hc with hc | hc
    · have hlt := hacross c hc b List.mem_cons_self
      omega
    · have hc' := (List.mem_cons.mp hc).resolve_left (Ne.symm hbc)
      have hlt := (List.pairwise_cons.mp hv).1 c hc'
      omega

theorem MidCall.intact (h : s.MidCall fs []) : s.Intact fs where
  loop := h.list.loop
  sorted := h.list.sorted
  wrap := h.list.wrap
  rover := h.list.rover
  apart := fun _ hb _ hc => h.list.not_adjacent hb hc
  free := h.list.sizes
  live := h.tiled.live
  tiles := by
    have hcount := h.tiled.count
    rwa [List.append_nil] at hcount
  once := h.tiled.once
  room := by
    intro l hl
    obtain ⟨hle, hsize⟩ := h.tiled.live l hl
    have hroom := (nunits_room (h.tiled.asked l hl)).1
    rw [hsize]
    omega

/-- **The user heap, over whole runs**: before the first call there is no list,
and then the heap is intact in every state. In every state reached the loops of
`malloc` and `free` end: a call has one result for all numbers of turns from some
number on. -/
theorem exec_intact {s₀ : Umalloc} (h₀ : s₀.Initial) {es : List Event} (h : exec s₀ es = .ok s) :
    ((s.freep = 0 ∧ s.regions = [] ∧ s.live = []) ∨ ∃ fs, s.Intact fs)
      ∧ (∀ nbytes answers, nbytes ≤ 2 ^ 30 →
          (∀ p, answers.headD none = some p → s.Fresh p (moreBytes (nunits nbytes))) →
          ∃ r k, ∀ turns, k ≤ turns → s.step (.malloc turns nbytes answers) = .ok r)
      ∧ ∀ l ∈ s.live, ∃ r k, ∀ turns, k ≤ turns → s.step (.free turns l.1) = .ok r := by
  have hordered : s.Ordered :=
    Machine.exec_invariant (I := Ordered) (fun hs hstep => hs.step hstep) (Or.inl h₀) h
  refine ⟨?_, ?_, ?_⟩
  · rcases hordered with h | ⟨fs, h⟩
    · exact Or.inl ⟨h.freep, h.regions, h.live⟩
    · exact Or.inr ⟨fs, h.intact⟩
  · intro nbytes answers hbytes hfresh
    obtain ⟨r, k, hend, ⟨ap, t, rfl, -⟩ | ⟨p, hp, hnot, -⟩⟩ := hordered.malloc hbytes answers
    · exact ⟨_, k, hend⟩
    · exact absurd (hfresh p hp) hnot
  · intro l hl
    obtain ⟨t, k, -, hend⟩ := hordered.free ⟨l, hl, rfl⟩
    exact ⟨_, k, hend⟩

/-- A heap that is not in use yet, in a process of a page, a guard page and a stack page. -/
def heapStart : Umalloc := ⟨4080, fun _ => ⟨0, 0⟩, 0, 12288, [], []⟩

/-- Three blocks. The middle one is freed first and is a node of its own, and then
the one below, which joins it with the rest of the memory. -/
def heapCalls : List Event :=
  [.malloc 9 16 [some 12288], .malloc 9 100 [], .store 44928 ⟨7, 7⟩, .malloc 9 0 [],
    .free 9 44928, .free 9 44920]

theorem exec_intact_calls :
    ∃ s, exec heapStart heapCalls = .ok s ∧ s.live = [(45040, 16)] ∧ ∃ fs, s.Intact fs := by
  obtain ⟨s, h, hlive⟩ : ∃ s, exec heapStart heapCalls = .ok s ∧ s.live = [(45040, 16)] := by
    decide +kernel
  have hstart : heapStart.Initial := ⟨rfl, by decide, by decide, rfl, rfl⟩
  refine ⟨s, h, hlive, (exec_intact hstart h).1.resolve_left (fun hnone => ?_)⟩
  rw [hnone.2.2] at hlive
  exact nomatch hlive

end Umalloc

end Xv6
