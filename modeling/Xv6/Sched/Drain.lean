import Xv6.Sched.Maps

/-!
# Draining the tree

Two operations empty the tree one `extractMin` at a time: the switch to the
round-robin policy moves every process to a list, and `extractProc` moves
every process but one to a second tree. Both ignore the results of the
insertions they make. They may: each extraction has just given back the
link the insertion needs, and in the second case a node too, because a
tree has no more nodes than links.
-/

namespace Xv6

variable {P : Type}

/-- A full tree without links is empty. -/
theorem SearchTree.Full.eq_nil {t : SearchTree P} (h : t.Full) (hl : t.links.length = 0) :
    t = .nil := by
  by_contra hne
  have hpos := List.length_pos_iff.mpr (h.minCells_ne_nil hne)
  rw [SearchTree.links_eq_minCells] at hl
  simp only [List.length_append, length_linksOf] at hl
  omega

/-! ## Into a list -/

/-- **What a drain of the tree `t` into the list `xs` leaves**: no tree, a
list with the processes of the entries behind those it had, and every link
and node where it was or back in its pool. -/
structure Transferred (t : SearchTree P) (xs : List (LinkPtr × P)) (fl : List LinkPtr)
    (fn : List NodePtr) (m : Mem P) (T' : Map) (q' : LinkedList) (m' : Mem P)
    (xs' : List (LinkPtr × P)) (fl' : List LinkPtr) (fn' : List NodePtr) : Prop where
  root : T'.root = none
  list : q'.Rep m'.linkPool xs'
  free : m'.Free fl' fn'
  procs : procsOf xs' = procsOf xs ++ t.entries.map Prod.snd
  links : (fl' ++ linksOf xs').Perm (fl ++ t.links ++ linksOf xs)
  nodes : fn'.Perm (fn ++ t.nodes)
  frame : m.SameOff m' (fl ++ t.links ++ linksOf xs) (fn ++ t.nodes)

/-- Nothing to drain. -/
theorem Transferred.refl {T : Map} {q : LinkedList} {m : Mem P} {xs : List (LinkPtr × P)}
    {fl : List LinkPtr} {fn : List NodePtr} (ht : SearchTree.nil.Rep m none T.root)
    (hq : q.Rep m.linkPool xs) (hf : m.Free fl fn) :
    Transferred .nil xs fl fn m T q m xs fl fn where
  root := ht
  list := hq
  free := hf
  procs := by simp [SearchTree.entries]
  links := by simp [SearchTree.links]
  nodes := by simp [SearchTree.nodes]
  frame := Mem.SameOff.refl m _ _

namespace Map

/-- Draining an empty tree is over at once. -/
theorem transferLoop_of_nil {fuel : ℕ} {T : Map} {q : LinkedList} {m : Mem P}
    (ht : SearchTree.nil.Rep m none T.root) : transferLoop fuel T q m = some (T, q, m) := by
  unfold transferLoop
  rw [(isEmpty_iff ht).mpr rfl]
  rfl

/-- **The drain into a list**: every process ends up behind those already
there, in the order of the entries, and the tree is empty. -/
theorem transferLoop_spec {fuel : ℕ} {T : Map} {q : LinkedList} {m : Mem P}
    {t : SearchTree P} {xs : List (LinkPtr × P)} {fl : List LinkPtr} {fn : List NodePtr}
    (ht : t.Rep m none T.root) (hq : q.Rep m.linkPool xs) (hf : m.Free fl fn) (hfull : t.Full)
    (hnl : (fl ++ t.links ++ linksOf xs).Nodup) (hnn : (fn ++ t.nodes).Nodup)
    (hlen : (fn ++ t.nodes).length ≤ NPROCMAP) (hfuel : t.links.length ≤ fuel) :
    ∃ T' q' m' xs' fl' fn', transferLoop fuel T q m = some (T', q', m')
      ∧ Transferred t xs fl fn m T' q' m' xs' fl' fn' := by
  induction fuel generalizing T q m t xs fl fn with
  | zero =>
    obtain rfl := hfull.eq_nil (Nat.le_zero.mp hfuel)
    exact ⟨T, q, m, xs, fl, fn, transferLoop_of_nil ht, Transferred.refl ht hq hf⟩
  | succ fuel ih =>
    by_cases hne : t = .nil
    · subst hne
      exact ⟨T, q, m, xs, fl, fn, transferLoop_of_nil ht, Transferred.refl ht hq hf⟩
    obtain ⟨hflt, -, hdx⟩ := List.nodup_append.mp hnl
    obtain ⟨c, cs, T₁, m₁, fn₁, hext, hcs, ht₁, hf₁, hfn₁, hs₁⟩ := extractMin_spec ht hf hne hfull
      hflt hnn (by simp only [List.length_append] at hlen; omega)
    obtain ⟨x, k, hx, hk⟩ := SearchTree.exists_minKey hne
    have hlinks := SearchTree.links_extractMin hx hcs
    -- the link just given back is the one the enqueue takes
    have hperm : (c.1 :: fl ++ t.extractMin.links ++ linksOf xs).Perm
        (fl ++ t.links ++ linksOf xs) := by
      rw [hlinks]
      exact List.Perm.append_right _ List.perm_middle.symm
    have hnd := hperm.nodup_iff.mpr hnl
    have hnd' : (c.1 :: fl ++ linksOf xs).Nodup := by
      rw [List.append_assoc] at hnd
      refine hnd.sublist (List.Sublist.append_left ?_ _)
      exact List.sublist_append_right _ _
    have hq₁ : q.Rep m₁.linkPool xs := hq.congr (fun a ha => hs₁.links a (fun hm =>
      hdx a (List.mem_append_right fl hm) a ha rfl))
    obtain ⟨q₂, L₂, henq, hq₂, hf₂, hs₂⟩ :=
      LinkedList.enqueue_of_free_cons hq₁ hf₁.links hnd' c.2
    -- the tree that is left shares no link with the list
    have ht₂ : t.extractMin.Rep ⟨L₂, m₁.nodePool⟩ none T₁.root := by
      refine ht₁.congr (fun a ha => hs₂ a ?_) (fun _ _ => rfl)
      simp only [List.nodup_append, List.nodup_cons, List.mem_append, List.mem_cons] at hnd ⊢
      grind
    have hperm₂ : (fl ++ t.extractMin.links ++ linksOf (xs ++ [c])).Perm
        (fl ++ t.links ++ linksOf xs) := by
      refine List.Perm.trans (List.perm_iff_count.mpr (fun y => ?_)) hperm
      simp only [List.count_append, List.count_cons, linksOf_append, linksOf_cons, linksOf_nil,
        List.count_nil]
      omega
    obtain ⟨T', q', m', xs', fl', fn', hloop, hdone⟩ :=
      ih ht₂ hq₂ (m := ⟨L₂, m₁.nodePool⟩) ⟨hf₂, hf₁.nodes⟩ hfull.extractMin
        (hperm₂.nodup_iff.mpr hnl) (hfn₁.nodup_iff.mpr hnn) (by rw [hfn₁.length_eq]; exact hlen)
        (by rw [hlinks] at hfuel; simpa using hfuel)
    refine ⟨T', q', m', xs', fl', fn', ?_, hdone.root, hdone.list, hdone.free, ?_,
      hdone.links.trans hperm₂, hdone.nodes.trans hfn₁, fun a ha => ?_, fun y hy => ?_⟩
    · have hne' : ¬ T.isEmpty = true := fun hem => hne ((isEmpty_iff ht).mp hem)
      unfold transferLoop
      simp only [if_neg hne', hext, Option.bind_eq_bind, Option.bind_some, henq]
      exact hloop
    · rw [hdone.procs, SearchTree.entries_extractMin hk hcs, procsOf_append]
      simp
    · rw [hdone.frame.links a (fun hm => ha (hperm₂.mem_iff.mp hm))]
      exact (hs₂ a (by grind)).trans (hs₁.links a (by grind))
    · rw [hdone.frame.nodes y (fun hm => hy (hfn₁.mem_iff.mp hm))]
      exact hs₁.nodes y (fun hm => hy (List.mem_append_right fn hm))

end Map

/-! ## Into a second tree -/

section ExtractProc

variable [DecidableEq P]

/-- The entries a drain puts back: those of other processes, one by one and
under their present accumulators. -/
def rekey (acc : P → ℤ) (p : P) (es q : List (ℤ × P)) : List (ℤ × P) :=
  (es.filter (fun e => e.2 ≠ p)).foldl (fun q e => StableQueue.put (acc e.2) e.2 q) q

/-- **What a drain of `t` into the tree `t₂` leaves**, without the entries
of `p`. -/
structure Extracted (acc : P → ℤ) (p : P) (t t₂ : SearchTree P) (fl : List LinkPtr)
    (fn : List NodePtr) (m : Mem P) (T' : Map) (m' : Mem P) (t' : SearchTree P)
    (fl' : List LinkPtr) (fn' : List NodePtr) : Prop where
  tree : t'.Rep m' none T'.root
  ordered : t'.Ordered
  full : t'.Full
  free : m'.Free fl' fn'
  entries : t'.entries = rekey acc p t.entries t₂.entries
  links : (fl' ++ t'.links).Perm (fl ++ t.links ++ t₂.links)
  nodes : (fn' ++ t'.nodes).Perm (fn ++ t.nodes ++ t₂.nodes)
  frame : m.SameOff m' (fl ++ t.links ++ t₂.links) (fn ++ t.nodes ++ t₂.nodes)

theorem Extracted.refl (acc : P → ℤ) (p : P) {T₂ : Map} {m : Mem P} {t₂ : SearchTree P}
    {fl : List LinkPtr} {fn : List NodePtr} (ht₂ : t₂.Rep m none T₂.root) (ho : t₂.Ordered)
    (hfull : t₂.Full) (hf : m.Free fl fn) :
    Extracted acc p .nil t₂ fl fn m T₂ m t₂ fl fn where
  tree := ht₂
  ordered := ho
  full := hfull
  free := hf
  entries := rfl
  links := by simp [SearchTree.links]
  nodes := by simp [SearchTree.nodes]
  frame := Mem.SameOff.refl m _ _

namespace Map

variable {fuel : ℕ} {T T₂ : Map} {m : Mem P}

theorem extractProcLoop_of_nil {acc : P → ℤ} {p : P} {ans : Bool}
    (ht : SearchTree.nil.Rep m none T.root) :
    extractProcLoop acc p fuel T T₂ ans m
      = some (ans || decide (p ∈ SearchTree.nil.entries.map Prod.snd), T₂, m) := by
  unfold extractProcLoop
  rw [(isEmpty_iff ht).mpr rfl]
  simp [SearchTree.entries]

/-- **The loop of `extractProc` with an eye on the results it ignores**: it gives
up as soon as a `tempMap.put` returns false. -/
def extractProcStrict (acc : P → ℤ) (p : P) :
    ℕ → Map → Map → Bool → Mem P → Option (Bool × Map × Mem P)
  | fuel, t, tempMap, ans, m =>
    if t.isEmpty then
      some (ans, tempMap, m)
    else
      match fuel with
      | 0 => none
      | fuel + 1 => do
        let (otherP, t, m) ← t.extractMin m
        if otherP = some p then
          extractProcStrict acc p fuel t tempMap true m
        else do
          let otherP ← otherP
          let (ok, tempMap, m) ← tempMap.put acc otherP m
          if ok then extractProcStrict acc p fuel t tempMap ans m else none

theorem extractProcStrict_of_nil {acc : P → ℤ} {p : P} {ans : Bool}
    (ht : SearchTree.nil.Rep m none T.root) :
    extractProcStrict acc p fuel T T₂ ans m = extractProcLoop acc p fuel T T₂ ans m := by
  unfold extractProcStrict extractProcLoop
  rw [(isEmpty_iff ht).mpr rfl]
  rfl

/-- **The drain into a second tree.** The two trees and the free pools hold
at least as many nodes as links, so that each put finds a node when the
extraction before it has left a link; the loop that looks at the results of
the puts does the same. -/
theorem extractProcLoop_spec (acc : P → ℤ) (p : P) (ans : Bool) {t t₂ : SearchTree P}
    {fl : List LinkPtr} {fn : List NodePtr} (ht : t.Rep m none T.root) (ht₂ : t₂.Rep m none T₂.root)
    (hf : m.Free fl fn) (ho₂ : t₂.Ordered) (hfull : t.Full) (hfull₂ : t₂.Full)
    (hnl : (fl ++ t.links ++ t₂.links).Nodup) (hnn : (fn ++ t.nodes ++ t₂.nodes).Nodup)
    (hcount : (fl ++ t.links ++ t₂.links).length ≤ (fn ++ t.nodes ++ t₂.nodes).length)
    (hlen : (fn ++ t.nodes ++ t₂.nodes).length ≤ NPROCMAP) (hfuel : t.links.length ≤ fuel) :
    ∃ T' m' t' fl' fn', extractProcLoop acc p fuel T T₂ ans m
        = some (ans || decide (p ∈ t.entries.map Prod.snd), T', m')
      ∧ extractProcStrict acc p fuel T T₂ ans m = extractProcLoop acc p fuel T T₂ ans m
      ∧ Extracted acc p t t₂ fl fn m T' m' t' fl' fn' := by
  induction fuel generalizing T T₂ ans m t t₂ fl fn with
  | zero =>
    obtain rfl := hfull.eq_nil (Nat.le_zero.mp hfuel)
    exact ⟨T₂, m, t₂, fl, fn, extractProcLoop_of_nil ht, extractProcStrict_of_nil ht,
      Extracted.refl acc p ht₂ ho₂ hfull₂ hf⟩
  | succ fuel ih =>
    by_cases hne : t = .nil
    · subst hne
      exact ⟨T₂, m, t₂, fl, fn, extractProcLoop_of_nil ht, extractProcStrict_of_nil ht,
        Extracted.refl acc p ht₂ ho₂ hfull₂ hf⟩
    obtain ⟨hflt, -, hdl⟩ := List.nodup_append.mp hnl
    obtain ⟨hfnt, -, hdn⟩ := List.nodup_append.mp hnn
    have hcount' := hcount
    have hlen' := hlen
    simp only [List.length_append] at hcount' hlen'
    obtain ⟨c, cs, T₁, m₁, fn₁, hext, hcs, ht₁, hf₁, hfn₁, hs₁⟩ :=
      extractMin_spec ht hf hne hfull hflt hfnt (by omega)
    obtain ⟨x, k, hx, hk⟩ := SearchTree.exists_minKey hne
    have hlinks := SearchTree.links_extractMin hx hcs
    have hentries := SearchTree.entries_extractMin hk hcs
    have hpl : (c.1 :: fl ++ t.extractMin.links ++ t₂.links).Perm
        (fl ++ t.links ++ t₂.links) := by
      rw [hlinks]
      exact List.Perm.append_right _ List.perm_middle.symm
    have hpn : (fn₁ ++ t.extractMin.nodes ++ t₂.nodes).Perm (fn ++ t.nodes ++ t₂.nodes) :=
      hfn₁.append_right _
    have ht₂₁ : t₂.Rep m₁ none T₂.root := ht₂.frame hs₁
      (fun a ha hm => hdl a (List.mem_append_right fl hm) a ha rfl)
      (fun y hy hm => hdn y (List.mem_append_right fn hm) y hy rfl)
    have hne' : ¬ T.isEmpty = true := fun hem => hne ((isEmpty_iff ht).mp hem)
    have hlenl := hpl.length_eq
    have hlenn := hpn.length_eq
    rw [hlinks] at hfuel
    by_cases hc : c.2 = p
    · -- an entry of `p`: it is dropped
      subst hc
      obtain ⟨T', m', t', fl', fn', hloop, hstrict, hdone⟩ := ih true ht₁ ht₂₁ hf₁ ho₂
        hfull.extractMin hfull₂ (hpl.nodup_iff.mpr hnl) (hpn.nodup_iff.mpr hnn)
        (by rw [hlenl, hlenn]; exact hcount) (by rw [hlenn]; exact hlen) (by simpa using hfuel)
      refine ⟨T', m', t', fl', fn', ?_, ?_, hdone.tree, hdone.ordered, hdone.full, hdone.free, ?_,
        hdone.links.trans hpl, hdone.nodes.trans hpn, fun a ha => ?_, fun y hy => ?_⟩
      · unfold extractProcLoop
        simp only [if_neg hne', hext, Option.bind_eq_bind, Option.bind_some, if_true, hloop,
          hentries]
        simp
      · unfold extractProcLoop extractProcStrict
        simp only [if_neg hne', hext, Option.bind_eq_bind, Option.bind_some, if_true]
        exact hstrict
      · rw [hdone.entries, hentries]
        simp [rekey]
      · rw [hdone.frame.links a (fun hm => ha (hpl.mem_iff.mp hm))]
        exact hs₁.links a (fun hm => ha (by simp [hm]))
      · rw [hdone.frame.nodes y (fun hm => hy (hpn.mem_iff.mp hm))]
        exact hs₁.nodes y (fun hm => hy (by simp [hm]))
    · -- an entry of another process: it goes to the second tree
      have hnodes₁ := SearchTree.length_nodes_le hfull.extractMin
      have hnodes₂ := SearchTree.length_nodes_le hfull₂
      obtain ⟨b, fn₂, rfl⟩ : ∃ b fn₂, fn₁ = b :: fn₂ := by
        refine List.exists_cons_of_ne_nil (fun hnil => ?_)
        subst hnil
        simp only [List.length_append, List.length_cons, List.length_nil] at hlenl hlenn
        omega
      have hndl := hpl.nodup_iff.mpr hnl
      have hndn := hpn.nodup_iff.mpr hnn
      have hndl' : (c.1 :: fl ++ t₂.links).Nodup := by
        rw [List.append_assoc] at hndl
        exact hndl.sublist (List.Sublist.append_left (List.sublist_append_right _ _) _)
      have hndn' : (b :: fn₂ ++ t₂.nodes).Nodup := by
        rw [List.append_assoc] at hndn
        exact hndn.sublist (List.Sublist.append_left (List.sublist_append_right _ _) _)
      obtain ⟨T₃, m₃, hput, ht₃, hf₃, hs₃⟩ := put_of_free_cons acc c.2 ht₂₁ hf₁ hndl' hndn'
        (by omega)
      have ht₁₃ : t.extractMin.Rep m₃ none T₁.root := by
        refine ht₁.frame hs₃ (fun a ha hm => ?_) (fun y hy hm => ?_)
        · rw [List.nodup_append] at hndl
          grind
        · rw [List.nodup_append] at hndn
          grind
      have hpl₃ : (fl ++ t.extractMin.links ++ (t₂.put (acc c.2) (c.1, c.2) b).links).Perm
          (fl ++ t.links ++ t₂.links) := by
        refine List.Perm.trans (List.perm_iff_count.mpr (fun y => ?_)) hpl
        have hcnt := (SearchTree.links_put_perm t₂ (acc c.2) (c.1, c.2) b).count_eq y
        simp only [List.count_append, List.count_cons] at hcnt ⊢
        omega
      have hpn₃ : ((if t₂.hasKey (acc c.2) then b :: fn₂ else fn₂) ++ t.extractMin.nodes
          ++ (t₂.put (acc c.2) (c.1, c.2) b).nodes).Perm (fn ++ t.nodes ++ t₂.nodes) := by
        refine List.Perm.trans (List.perm_iff_count.mpr (fun y => ?_)) hpn
        have hcnt := (SearchTree.nodes_put_perm t₂ (acc c.2) (c.1, c.2) b).count_eq y
        split at hcnt <;> rename_i hkey <;>
          simp only [hkey, if_true, if_false, Bool.false_eq_true, List.count_append,
            List.count_cons] at hcnt ⊢ <;> omega
      obtain ⟨T', m', t', fl', fn', hloop, hstrict, hdone⟩ := ih ans ht₁₃ ht₃ hf₃ (ho₂.put _ _ _)
        hfull.extractMin (hfull₂.put _ _ _) (hpl₃.nodup_iff.mpr hnl) (hpn₃.nodup_iff.mpr hnn)
        (by rw [hpl₃.length_eq, hpn₃.length_eq]; exact hcount)
        (by rw [hpn₃.length_eq]; exact hlen) (by simpa using hfuel)
      have hcp : ¬ some c.2 = some p := fun h => hc (Option.some.inj h)
      refine ⟨T', m', t', fl', fn', ?_, ?_, hdone.tree, hdone.ordered, hdone.full, hdone.free, ?_,
        hdone.links.trans hpl₃, hdone.nodes.trans hpn₃, fun a ha => ?_, fun y hy => ?_⟩
      · have hmem : p ∈ t.entries.map Prod.snd ↔ p ∈ t.extractMin.entries.map Prod.snd := by
          rw [hentries]
          grind
        unfold extractProcLoop
        simp only [if_neg hne', hext, Option.bind_eq_bind, Option.bind_some, if_neg hcp, hput,
          hloop, hmem]
      · unfold extractProcLoop extractProcStrict
        simp only [if_neg hne', hext, Option.bind_eq_bind, Option.bind_some, if_neg hcp, hput,
          if_true]
        exact hstrict
      · rw [hdone.entries, hentries, SearchTree.entries_put ho₂]
        simp [rekey, hc]
      · rw [hdone.frame.links a (fun hm => ha (hpl₃.mem_iff.mp hm)), hs₃.links a, hs₁.links a]
        · exact fun hm => ha (by simp [hm])
        · exact fun hm => ha (hpl.mem_iff.mp (by grind))
      · rw [hdone.frame.nodes y (fun hm => hy (hpn₃.mem_iff.mp hm)), hs₃.nodes y, hs₁.nodes y]
        · exact fun hm => hy (by simp [hm])
        · exact fun hm => hy (hpn.mem_iff.mp (by grind))

end Map

end ExtractProc

end Xv6
