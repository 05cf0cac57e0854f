import Xv6.Sched.Heap

/-!
# What the list operations do

A `LinkedList` represents a sequence of **cells**, a cell being a link
together with the process it carries. `LinkedList.Rep` says which one:
following `next` from `first` meets the cells' links in order and ends at
null, `last` is the final one, and each link carries the cell's process.

Each operation gets one statement here: what it returns, which cells the
list represents afterwards, what is left on the free list, and – the frame
– which links it has not touched. Two lists over one pool never meet the
same link, so the frame is what keeps an operation on one of them from
being visible in the other.
-/

namespace Xv6

open Function

variable {P : Type}

/-- The links of a sequence of cells. -/
def linksOf (xs : List (LinkPtr × P)) : List LinkPtr := xs.map Prod.fst

/-- The processes of a sequence of cells. -/
def procsOf (xs : List (LinkPtr × P)) : List P := xs.map Prod.snd

@[simp] theorem linksOf_nil : linksOf ([] : List (LinkPtr × P)) = [] := rfl

@[simp] theorem linksOf_cons (c : LinkPtr × P) (xs : List (LinkPtr × P)) :
    linksOf (c :: xs) = c.1 :: linksOf xs := rfl

@[simp] theorem linksOf_append (xs ys : List (LinkPtr × P)) :
    linksOf (xs ++ ys) = linksOf xs ++ linksOf ys := List.map_append

@[simp] theorem procsOf_nil : procsOf ([] : List (LinkPtr × P)) = [] := rfl

@[simp] theorem procsOf_cons (c : LinkPtr × P) (xs : List (LinkPtr × P)) :
    procsOf (c :: xs) = c.2 :: procsOf xs := rfl

@[simp] theorem procsOf_append (xs ys : List (LinkPtr × P)) :
    procsOf (xs ++ ys) = procsOf xs ++ procsOf ys := List.map_append

@[simp] theorem length_linksOf (xs : List (LinkPtr × P)) :
    (linksOf xs).length = xs.length := List.length_map _

@[simp] theorem length_procsOf (xs : List (LinkPtr × P)) :
    (procsOf xs).length = xs.length := List.length_map _

/-- The link of a cell is one of the links of the sequence. -/
theorem fst_mem_linksOf {c : LinkPtr × P} {xs : List (LinkPtr × P)} (h : c ∈ xs) :
    c.1 ∈ linksOf xs := List.mem_map_of_mem h

namespace LinkPool

/-- The `next` field of a link. -/
def next (L : LinkPool P) (a : LinkPtr) : Option LinkPtr := (L.links a).next

/-- **The free list** meets exactly the links `fl`, in order. -/
def Free (L : LinkPool P) (fl : List LinkPtr) : Prop :=
  Seg L.next L.freeLinks fl none

variable {a b : LinkPtr}

@[simp] theorem setNext_links_of_ne (L : LinkPool P) (n : Option LinkPtr) (h : b ≠ a) :
    (L.setNext a n).links b = L.links b :=
  update_of_ne h _ _

@[simp] theorem setNext_links_self (L : LinkPool P) (a : LinkPtr) (n : Option LinkPtr) :
    (L.setNext a n).links a = { L.links a with next := n } :=
  update_self _ _ _

@[simp] theorem setNext_next_self (L : LinkPool P) (a : LinkPtr) (n : Option LinkPtr) :
    (L.setNext a n).next a = n := by
  unfold next
  rw [setNext_links_self]

@[simp] theorem setNext_p (L : LinkPool P) (a b : LinkPtr) (n : Option LinkPtr) :
    ((L.setNext a n).links b).p = (L.links b).p := by
  by_cases h : b = a
  · subst h
    rw [setNext_links_self]
  · rw [setNext_links_of_ne L n h]

theorem setNext_next_of_ne (L : LinkPool P) (n : Option LinkPtr) (h : b ≠ a) :
    (L.setNext a n).next b = L.next b := by
  unfold next
  rw [setNext_links_of_ne L n h]

variable {L : LinkPool P} {fl : List LinkPtr}

/-- The free list is a list of links not touched by writes elsewhere. -/
theorem Free.congr {L' : LinkPool P} (h : L.Free fl) (hf : L'.freeLinks = L.freeLinks)
    (hn : ∀ a ∈ fl, L'.links a = L.links a) :
    L'.Free fl := by
  unfold Free
  rw [hf]
  exact Seg.congr h (fun a ha => congrArg Link.next (hn a ha))

/-- With the pool exhausted there is no link to take. -/
theorem allocLink_of_free_nil (h : L.Free []) (p : P) :
    L.allocLink p = (none, L) := by
  unfold allocLink
  rw [show L.freeLinks = none from h]

/-- **Taking a link**: the head of the free list, carrying the process and
followed by nothing. -/
theorem allocLink_of_free_cons (h : L.Free (a :: fl)) (hnd : (a :: fl).Nodup) (p : P) :
    ∃ L', L.allocLink p = (some a, L') ∧ L'.Free fl ∧ L'.links a = ⟨some p, none⟩
      ∧ ∀ b, b ≠ a → L'.links b = L.links b := by
  obtain ⟨hhead, htail⟩ := h
  unfold allocLink
  rw [hhead]
  refine ⟨_, rfl, ?_, update_self _ _ _, fun b hb => update_of_ne hb _ _⟩
  refine Seg.congr htail (fun b hb => ?_)
  have hba : b ≠ a := fun hab => (List.nodup_cons.mp hnd).1 (hab ▸ hb)
  show (update L.links a _ b).next = (L.links b).next
  rw [update_of_ne hba]

/-- **Giving a link back** puts it in front of the free list and touches no
other link. -/
theorem deallocLink_free (h : L.Free fl) (ha : a ∉ fl) : (L.deallocLink a).Free (a :: fl) := by
  refine ⟨rfl, ?_⟩
  show Seg _ ((L.setNext a L.freeLinks).next a) fl none
  rw [setNext_next_self]
  refine Seg.congr h (fun b hb => ?_)
  exact setNext_next_of_ne L _ (fun hba => ha (hba ▸ hb))

theorem deallocLink_links_of_ne (L : LinkPool P) (h : b ≠ a) :
    (L.deallocLink a).links b = L.links b :=
  setNext_links_of_ne L _ h

/-- A link followed by nothing is its own last link. -/
theorem getLast_of_next_none {fuel : ℕ} (h : (L.links a).next = none) :
    L.getLast (fuel + 1) a = some a := by
  unfold getLast
  rw [h]

end LinkPool

namespace LinkedList

/-- **The cells a list represents**: the links with their processes, in the order in which `next`
meets them. -/
structure Rep (l : LinkedList) (L : LinkPool P) (xs : List (LinkPtr × P)) : Prop where
  /-- Following `next` from `first` meets the cells' links, in order. -/
  seg : Seg L.next l.first (linksOf xs) none
  /-- `last` is the last of them. -/
  last : l.last = (linksOf xs).getLast?
  /-- Each link carries its cell's process. -/
  carries : ∀ c ∈ xs, (L.links c.1).p = some c.2

variable {l : LinkedList} {L : LinkPool P} {xs : List (LinkPtr × P)}

/-- **The frame of a list**: a pool that agrees on its links represents the
same cells. -/
theorem Rep.congr {L' : LinkPool P} (h : l.Rep L xs) (hn : ∀ a ∈ linksOf xs, L'.links a = L.links a) :
    l.Rep L' xs where
  seg := h.seg.congr (fun a ha => congrArg Link.next (hn a ha))
  last := h.last
  carries := fun c hc => by rw [hn c.1 (fst_mem_linksOf hc), h.carries c hc]

/-- The empty list represents no cells. -/
theorem Rep.empty (L : LinkPool P) : LinkedList.empty.Rep L [] :=
  ⟨rfl, rfl, fun _ h => absurd h List.not_mem_nil⟩

theorem Rep.eq_empty (h : l.Rep L []) :
    l = LinkedList.empty := by
  obtain ⟨hf, hl, -⟩ := h
  cases l
  simp_all [LinkedList.empty]

/-- `first` is null exactly when there are no cells. -/
theorem Rep.isEmpty_iff (h : l.Rep L xs) : l.isEmpty = true ↔ xs = [] := by
  unfold isEmpty
  rw [Option.isNone_iff_eq_none, h.seg.eq_none_iff]
  exact List.map_eq_nil_iff

/-- A list has one representation. -/
theorem Rep.unique {ys : List (LinkPtr × P)} (h : l.Rep L xs) (h' : l.Rep L ys) : xs = ys := by
  have hl : linksOf xs = linksOf ys := h.seg.unique h'.seg
  refine List.ext_getElem (by simpa using congrArg List.length hl) (fun i h₁ h₂ => ?_)
  have hfst : xs[i].1 = ys[i].1 := by
    simpa [linksOf] using List.getElem_of_eq hl (by simpa using h₁)
  have hx := h.carries xs[i] (List.getElem_mem h₁)
  have hy := h'.carries ys[i] (List.getElem_mem h₂)
  rw [hfst, hy] at hx
  exact Prod.ext hfst (Option.some.inj hx).symm

/-! ## Enqueue -/

/-- An exhausted pool makes `enqueue` fail and change nothing. -/
theorem enqueue_of_free_nil (h : L.Free []) (p : P) :
    l.enqueue p L = some (false, l, L) := by
  unfold enqueue
  rw [LinkPool.allocLink_of_free_nil h]

/-- **Appending a fresh link**: a link followed by nothing and not in the
list becomes the list's last. -/
theorem append_spec {a : LinkPtr} {p : P} (h : l.Rep L xs) (ha : L.links a = ⟨some p, none⟩)
    (hnd : (linksOf xs ++ [a]).Nodup) :
    ∃ l' L', l.append (some a) L = some (l', L') ∧ l'.Rep L' (xs ++ [(a, p)])
      ∧ L'.freeLinks = L.freeLinks
      ∧ ∀ b ∉ linksOf xs, L'.links b = L.links b := by
  have hlast : ∀ M : LinkPool P, M.links a = ⟨some p, none⟩ →
      M.getLast NPROCLIST a = some a :=
    fun M hM => LinkPool.getLast_of_next_none (by rw [hM])
  rcases List.eq_nil_or_concat xs with rfl | ⟨ys, c, hxs⟩
  · -- the link becomes the whole list
    refine ⟨⟨some a, some a⟩, L, ?_, ⟨⟨rfl, ?_⟩, rfl, ?_⟩, rfl, fun _ _ => rfl⟩
    · unfold append
      simp only [h.isEmpty_iff.mpr rfl, if_true, hlast L ha]
      rfl
    · show L.next a = none
      unfold LinkPool.next
      rw [ha]
    · simp [ha]
  · -- the old last link is redirected to it
    rw [List.concat_eq_append] at hxs
    subst hxs
    simp only [linksOf_append, linksOf_cons, List.nodup_append, List.mem_append, List.mem_cons] at hnd
    have hne : ¬ l.isEmpty = true := by
      rw [h.isEmpty_iff]
      simp
    have hl : l.last = some c.1 := by rw [h.last]; simp
    have hca : a ≠ c.1 := by grind
    have hcy : c.1 ∉ linksOf ys := by grind
    have hMa : (L.setNext c.1 (some a)).links a = ⟨some p, none⟩ := by
      rw [LinkPool.setNext_links_of_ne L _ hca, ha]
    refine ⟨⟨l.first, some a⟩, L.setNext c.1 (some a), ?_, ⟨?_, ?_, ?_⟩, rfl, ?_⟩
    · unfold append
      simp only [hne, hl]
      simp only [Option.bind_eq_bind, Option.bind_some, hlast _ hMa]
      rfl
    · rw [linksOf_append]
      refine seg_append.mpr ⟨some a, ?_, rfl, ?_⟩
      · have hseg := h.seg
        rw [linksOf_append] at hseg ⊢
        refine hseg.redirect (fun b hb => ?_) (LinkPool.setNext_next_self L _ _)
        exact LinkPool.setNext_next_of_ne L _ (fun hbc => hcy (hbc ▸ hb))
      · show (L.setNext c.1 (some a)).next a = none
        unfold LinkPool.next
        rw [hMa]
    · simp
    · intro d hd
      rw [LinkPool.setNext_p]
      rcases List.mem_append.mp hd with hd | hd
      · exact h.carries d hd
      · obtain rfl := List.mem_singleton.mp hd
        rw [ha]
    · intro b hb
      refine LinkPool.setNext_links_of_ne L _ ?_
      rintro rfl
      simp at hb

variable {fl : List LinkPtr}

/-- **Enqueue appends**, with the first free link. -/
theorem enqueue_of_free_cons {a : LinkPtr} (h : l.Rep L xs) (hf : L.Free (a :: fl))
    (hnd : (a :: fl ++ linksOf xs).Nodup) (p : P) :
    ∃ l' L', l.enqueue p L = some (true, l', L') ∧ l'.Rep L' (xs ++ [(a, p)])
      ∧ L'.Free fl ∧ ∀ b ∉ a :: linksOf xs, L'.links b = L.links b := by
  obtain ⟨hfl, hxs, hdisj⟩ := List.nodup_append.mp hnd
  obtain ⟨L₁, halloc, hfree, ha, hframe⟩ := LinkPool.allocLink_of_free_cons hf hfl p
  have hax : a ∉ linksOf xs := fun hm => hdisj a List.mem_cons_self a hm rfl
  have h₁ : l.Rep L₁ xs := h.congr (fun b hb => hframe b (fun hba => hax (hba ▸ hb)))
  have hnd₁ : (linksOf xs ++ [a]).Nodup := by
    rw [List.nodup_append]
    grind
  obtain ⟨l', L', happ, hrep, hfl', hframe'⟩ := append_spec h₁ ha hnd₁
  refine ⟨l', L', ?_, hrep, ?_, ?_⟩
  · unfold enqueue
    rw [halloc]
    simp only [happ]
    rfl
  · exact hfree.congr hfl' (fun b hb => hframe' b (by grind))
  · grind

/-! ## Dequeue -/

/-- An empty list has nothing to return. -/
theorem dequeue_of_nil (h : l.Rep L []) :
    l.dequeue L = (none, l, L) := by
  unfold dequeue
  rw [show l.first = none from h.seg]

/-- **Dequeue returns the first cell's process** and gives its link
back. -/
theorem dequeue_of_cons {c : LinkPtr × P} (h : l.Rep L (c :: xs)) (hf : L.Free fl)
    (hnd : (fl ++ linksOf (c :: xs)).Nodup) :
    ∃ l' L', l.dequeue L = (some c.2, l', L') ∧ l'.Rep L' xs ∧ L'.Free (c.1 :: fl)
      ∧ ∀ b, b ≠ c.1 → L'.links b = L.links b := by
  obtain ⟨-, hxs, hdisj⟩ := List.nodup_append.mp hnd
  obtain ⟨hcx, -⟩ := List.nodup_cons.mp hxs
  have hframe : ∀ b, b ≠ c.1 → (L.deallocLink c.1).links b = L.links b :=
    fun b hb => LinkPool.deallocLink_links_of_ne L hb
  obtain ⟨hhead, htail⟩ := h.seg
  refine ⟨⟨L.next c.1, if (L.next c.1).isNone then none else l.last⟩, L.deallocLink c.1,
    ?_, ⟨?_, ?_, ?_⟩, ?_, hframe⟩
  · unfold dequeue
    rw [hhead]
    simp only [h.carries c List.mem_cons_self]
    rfl
  · refine Seg.congr htail (fun b hb => ?_)
    exact congrArg Link.next (hframe b (fun hbc => hcx (hbc ▸ hb)))
  · cases xs with
    | nil =>
      rw [show L.next c.1 = none from htail]
      rfl
    | cons d xs =>
      rw [show L.next c.1 = some d.1 from htail.head, h.last]
      simp
  · intro d hd
    rw [hframe d.1 (fun hdc => hcx (hdc ▸ fst_mem_linksOf hd))]
    exact h.carries d (List.mem_cons_of_mem c hd)
  · refine LinkPool.deallocLink_free hf (fun hc => ?_)
    exact hdisj c.1 hc c.1 List.mem_cons_self rfl

/-! ## Remove -/

/-- **Unlinking a cell that has one before it**: the link before is
redirected past it, `last` moves back when the cell was the last, and the
link goes to the free list. -/
theorem unlink_spec {ys ws : List (LinkPtr × P)} {d e : LinkPtr × P}
    (h : l.Rep L (ys ++ d :: e :: ws)) (hf : L.Free fl)
    (hnd : (fl ++ linksOf (ys ++ d :: e :: ws)).Nodup) :
    (if (L.next e.1).isNone then { l with last := some d.1 } else l).Rep
        ((L.setNext d.1 (L.next e.1)).deallocLink e.1) (ys ++ d :: ws)
      ∧ ((L.setNext d.1 (L.next e.1)).deallocLink e.1).Free (e.1 :: fl)
      ∧ ∀ b, b ≠ d.1 → b ≠ e.1 →
        ((L.setNext d.1 (L.next e.1)).deallocLink e.1).links b = L.links b := by
  simp only [linksOf_append, linksOf_cons, List.nodup_append, List.nodup_cons, List.mem_append,
    List.mem_cons] at hnd
  have hframe : ∀ b, b ≠ d.1 → b ≠ e.1 →
      ((L.setNext d.1 (L.next e.1)).deallocLink e.1).links b = L.links b := fun b hbd hbe => by
    rw [LinkPool.deallocLink_links_of_ne _ hbe, LinkPool.setNext_links_of_ne L _ hbd]
  have hp : ∀ b, (((L.setNext d.1 (L.next e.1)).deallocLink e.1).links b).p
      = (L.links b).p := fun b => by
    unfold LinkPool.deallocLink
    rw [LinkPool.setNext_p, LinkPool.setNext_p]
  obtain ⟨r, hsys, hr, hsd⟩ := seg_append.mp (linksOf_append ys (d :: e :: ws) ▸ h.seg)
  have hsw : Seg L.next (L.next e.1) (linksOf ws) none := hsd.2
  refine ⟨⟨?_, ?_, ?_⟩, ?_, hframe⟩
  · -- the links before keep their `next`, the one before is redirected, those after keep theirs
    have hfirst : (if (L.next e.1).isNone then { l with last := some d.1 } else l).first
        = l.first := by
      split <;> rfl
    rw [hfirst, linksOf_append]
    refine seg_append.mpr ⟨r, hsys.congr (fun b hb => ?_), hr, ?_⟩
    · exact congrArg Link.next (hframe b (by grind) (by grind))
    · have hdn : ((L.setNext d.1 (L.next e.1)).deallocLink e.1).next d.1 = L.next e.1 := by
        unfold LinkPool.next
        rw [LinkPool.deallocLink_links_of_ne _ (by grind)]
        exact LinkPool.setNext_next_self L _ _
      rw [hdn]
      exact hsw.congr (fun b hb => congrArg Link.next (hframe b (by grind) (by grind)))
  · cases ws with
    | nil =>
      rw [show L.next e.1 = none from hsw]
      simp
    | cons w ws =>
      rw [show L.next e.1 = some w.1 from hsw.head]
      simp only [Option.isNone_some, Bool.false_eq_true, if_false]
      rw [h.last]
      simp [linksOf_append]
  · intro c hc
    rw [hp]
    exact h.carries c (by grind)
  · refine LinkPool.deallocLink_free (hf.congr rfl (fun b hb => ?_)) (by grind)
    exact LinkPool.setNext_links_of_ne L _ (by grind)

section Remove

variable [DecidableEq P]

variable {l : LinkedList} {L : LinkPool P}

/-- The loop finds nothing when no cell after the cursor carries `p`. -/
theorem removeLoop_of_notMem {p : P} {zs : List (LinkPtr × P)} (prev : LinkPtr)
    {cur : Option LinkPtr} {fuel : ℕ} (hs : Seg L.next cur (linksOf zs) none)
    (hc : ∀ c ∈ zs, (L.links c.1).p = some c.2) (hp : p ∉ procsOf zs) (hfuel : zs.length ≤ fuel) :
    removeLoop l p L fuel prev cur = some (false, l, L) := by
  induction zs generalizing prev cur fuel with
  | nil =>
    obtain rfl : cur = none := hs
    unfold removeLoop
    rfl
  | cons e zs ih =>
    obtain ⟨rfl, hs⟩ := hs
    obtain _ | fuel := fuel
    · simp at hfuel
    rw [procsOf_cons, List.mem_cons, not_or] at hp
    have hne : (L.links e.1).p ≠ some p := by
      rw [hc e List.mem_cons_self]
      grind
    unfold removeLoop
    rw [if_neg hne]
    exact ih e.1 hs (fun c h => hc c (List.mem_cons_of_mem e h)) hp.2 (by simpa using hfuel)

/-- The loop stops at the first cell after the cursor that carries `p`, and
unlinks it. -/
theorem removeLoop_of_mem {ys us ws : List (LinkPtr × P)} {d e : LinkPtr × P} {fuel : ℕ}
    (h : l.Rep L (ys ++ d :: (us ++ e :: ws))) (hf : L.Free fl)
    (hnd : (fl ++ linksOf (ys ++ d :: (us ++ e :: ws))).Nodup) (hu : e.2 ∉ procsOf us)
    (hfuel : us.length + 1 ≤ fuel) :
    ∃ l' L', removeLoop l e.2 L fuel d.1 (L.next d.1) = some (true, l', L')
      ∧ l'.Rep L' (ys ++ d :: (us ++ ws)) ∧ L'.Free (e.1 :: fl)
      ∧ ∀ b ∉ linksOf (ys ++ d :: (us ++ e :: ws)), L'.links b = L.links b := by
  obtain ⟨fuel, rfl⟩ : ∃ k, fuel = k + 1 := ⟨fuel - 1, by omega⟩
  induction us generalizing ys d fuel with
  | nil =>
    obtain ⟨hrep, hfree, hframe⟩ := unlink_spec h hf hnd
    obtain ⟨r, -, -, hsd⟩ := seg_append.mp (linksOf_append ys _ ▸ h.seg)
    have hcur : L.next d.1 = some e.1 := hsd.head
    refine ⟨_, _, ?_, hrep, hfree, fun b hb => hframe b ?_ ?_⟩
    · unfold removeLoop
      rw [hcur]
      simp only [h.carries e (by simp), if_true]
      rfl
    · rintro rfl
      simp at hb
    · rintro rfl
      simp at hb
  | cons u us ih =>
    rw [procsOf_cons, List.mem_cons, not_or] at hu
    obtain ⟨r, -, -, hsd⟩ := seg_append.mp (linksOf_append ys _ ▸ h.seg)
    have hcur : L.next d.1 = some u.1 := hsd.head
    have hne : (L.links u.1).p ≠ some e.2 := by
      rw [h.carries u (by simp)]
      grind
    have hshift : ∀ vs : List (LinkPtr × P),
        ys ++ d :: (u :: us ++ vs) = (ys ++ [d]) ++ u :: (us ++ vs) := by simp
    rw [hshift] at h hnd
    obtain _ | k := fuel
    · simp at hfuel
    obtain ⟨l', L', hloop, hrep, hfree, hframe⟩ :=
      ih h hnd hu.2 k (by simp at hfuel ⊢; omega)
    refine ⟨l', L', ?_, ?_, hfree, ?_⟩
    · unfold removeLoop
      rw [hcur]
      simp only [if_neg hne]
      exact hloop
    · rw [hshift]
      exact hrep
    · rw [hshift]
      exact hframe

/-- **Remove finds nothing**, and changes nothing, when no cell carries
`p`. -/
theorem remove_of_notMem {p : P} (h : l.Rep L xs) (hp : p ∉ procsOf xs)
    (hlen : xs.length ≤ NPROCLIST) :
    l.remove p L = some (false, l, L) := by
  unfold remove
  cases xs with
  | nil => rw [show l.first = none from h.seg]
  | cons c xs =>
    obtain ⟨hhead, hs⟩ := h.seg
    rw [procsOf_cons, List.mem_cons, not_or] at hp
    have hne : (L.links c.1).p ≠ some p := by
      rw [h.carries c List.mem_cons_self]
      grind
    rw [hhead]
    simp only [if_neg hne]
    refine removeLoop_of_notMem c.1 hs (fun d hd => ?_) hp.2 (by simp at hlen; omega)
    exact h.carries d (List.mem_cons_of_mem c hd)

/-- **Remove deletes the first cell that carries `p`** and gives its link
back. -/
theorem remove_of_mem {us ws : List (LinkPtr × P)} {e : LinkPtr × P} (h : l.Rep L (us ++ e :: ws))
    (hf : L.Free fl) (hnd : (fl ++ linksOf (us ++ e :: ws)).Nodup) (hu : e.2 ∉ procsOf us)
    (hlen : (us ++ e :: ws).length ≤ NPROCLIST) :
    ∃ l' L', l.remove e.2 L = some (true, l', L') ∧ l'.Rep L' (us ++ ws)
      ∧ L'.Free (e.1 :: fl) ∧ ∀ b ∉ linksOf (us ++ e :: ws), L'.links b = L.links b := by
  cases us with
  | nil =>
    obtain ⟨l', L', hdeq, hrep, hfree, hframe⟩ := dequeue_of_cons h hf hnd
    refine ⟨l', L', ?_, hrep, hfree, fun b hb => hframe b ?_⟩
    · unfold remove
      rw [show l.first = some e.1 from h.seg.head]
      simp only [h.carries e (by simp), if_true, hdeq]
    · rintro rfl
      simp at hb
  | cons d us =>
    rw [procsOf_cons, List.mem_cons, not_or] at hu
    have hne : (L.links d.1).p ≠ some e.2 := by
      rw [h.carries d (by simp)]
      grind
    have hlen' : us.length + 1 ≤ NPROCLIST := by
      simp at hlen
      omega
    have h' : l.Rep L ([] ++ d :: (us ++ e :: ws)) := h
    obtain ⟨l', L', hloop, hrep, hfree, hframe⟩ := removeLoop_of_mem h' hf hnd hu.2 hlen'
    refine ⟨l', L', ?_, hrep, hfree, hframe⟩
    unfold remove
    rw [show l.first = some d.1 from h.seg.head]
    simp only [if_neg hne]
    exact hloop

end Remove

/-! ## The minimum key -/

/-- The loop folds the minimum over the processes still ahead. -/
theorem minKeyLoop_spec (acc : P → ℤ) {link : Option LinkPtr} {fuel : ℕ} (minKey : ℤ)
    (hs : Seg L.next link (linksOf xs) none) (hc : ∀ c ∈ xs, (L.links c.1).p = some c.2)
    (hfuel : xs.length ≤ fuel) :
    minKeyLoop acc L fuel link minKey
      = some ((procsOf xs).foldl (fun m p => if acc p < m then acc p else m) minKey) := by
  induction xs generalizing link fuel minKey with
  | nil =>
    obtain rfl : link = none := hs
    unfold minKeyLoop
    rfl
  | cons c xs ih =>
    obtain ⟨rfl, hs⟩ := hs
    obtain _ | fuel := fuel
    · simp at hfuel
    unfold minKeyLoop
    simp only [hc c List.mem_cons_self, Option.bind_eq_bind, Option.bind_some]
    exact ih _ hs (fun d hd => hc d (List.mem_cons_of_mem c hd)) (by simpa using hfuel)

/-- The minimum of the accumulators of a non-empty sequence, computed as
the loop computes it. -/
def minKeyOf (acc : P → ℤ) : List P → Option ℤ
  | [] => none
  | p :: ps => some ((p :: ps).foldl (fun m q => if acc q < m then acc q else m) (acc p))

/-- The minimum that the loop over a list keeps is its minimum. -/
theorem minKeyOf_eq_min? (acc : P → ℤ) (ps : List P) :
    minKeyOf acc ps = (ps.map acc).min? := by
  have hfold : ∀ (l : List P) (m : ℤ), l.foldl (fun m q => if acc q < m then acc q else m) m
      = (l.map acc).foldl min m := by
    intro l
    induction l with
    | nil => exact fun m => rfl
    | cons q l ih =>
      intro m
      have hmin : (if acc q < m then acc q else m) = min m (acc q) := by grind
      rw [List.foldl_cons, List.map_cons, List.foldl_cons, hmin, ih]
  cases ps with
  | nil => rfl
  | cons p ps =>
    show some ((p :: ps).foldl _ (acc p)) = _
    rw [hfold, List.map_cons, List.min?_cons', List.foldl_cons, Int.min_self]

/-- **`getMinKey` is the minimum over the members.** -/
theorem getMinKey_spec (acc : P → ℤ) (h : l.Rep L xs) (hlen : xs.length ≤ NPROCLIST) :
    l.getMinKey acc L = some (minKeyOf acc (procsOf xs)) := by
  unfold getMinKey
  cases xs with
  | nil =>
    rw [show l.first = none from h.seg]
    rfl
  | cons c xs =>
    have hhead : l.first = some c.1 := h.seg.head
    have hloop := minKeyLoop_spec acc (acc c.2) h.seg h.carries hlen
    rw [hhead] at hloop ⊢
    simp only [h.carries c List.mem_cons_self, Option.bind_eq_bind, Option.bind_some, hloop]
    rfl

end LinkedList

end Xv6
