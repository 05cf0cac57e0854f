import Xv6.Fs.Entries

/-!
# What a call has done so far

A call takes references and gives them back, reads, and writes one node after the other.
`After s d nodes s'` says that a call that began in `s` is in `s'`, that the references have
changed by `d`, and what the nodes are now. Walks, writes and `iput`s each carry it on, and
the inodes that were in use at the beginning stay so.
-/

namespace Xv6

open Function

open Wp

namespace Fs

variable {s s₁ s' : Fs} {ip : Ip}

/-- **References that are kept** stay references to the same inodes. -/
def Later (s s' : Fs) : Prop := ∀ jp, 0 < (s.icache jp).ref → 0 < (s'.icache jp).ref ∧
  (s'.icache jp).inum = (s.icache jp).inum ∧
  ((s.icache jp).valid = true → (s'.icache jp).valid = true)

theorem Later.trans (h : Later s s₁) (h' : Later s₁ s') : Later s s' := by
  intro jp hjp
  obtain ⟨hpos, hinum, hvalid⟩ := h jp hjp
  obtain ⟨hpos', hinum', hvalid'⟩ := h' jp hpos
  exact ⟨hpos', hinum'.trans hinum, fun hv => hvalid' (hvalid hv)⟩

/-- **A call so far**: it started in `s`, holds the references `H` that it has taken, and has left
the inodes as `nodes` says. At the end of the call `H` is what it returns. -/
structure After (s : Fs) (H : Multiset Ip) (nodes : ℕ → Option Node) (s' : Fs) : Prop where
  consistent : s'.Consistent
  sb : s'.sb = s.sb
  refs : ∀ jp, (s'.icache jp).ref = (s.icache jp).ref + H.count jp
  later : Later s s'
  range : ∀ jp, 0 < (s'.icache jp).ref → (s'.icache jp).inum < s'.sb.ninodes
  node : s'.node = nodes

/-- **A walk** has done nothing to the nodes. -/
theorem Walk.after {H : Multiset Ip} (h : Walk s H s') : After s H s.node s' where
  consistent := h.consistent
  sb := h.sb
  refs := h.refs
  later jp hjp := by
    have hsum := h.refs jp
    exact ⟨by omega, h.inum jp hjp, h.valid jp hjp⟩
  range := h.range
  node := node_of_disk h.disk h.sb

namespace After

variable {H K : Multiset Ip} {nodes nodes' : ℕ → Option Node} {k : ℕ} {y : Node}

variable (h : After s H nodes s₁)

include h

theorem ref_pos (hs : s.Settled) (hip : ip ∈ H) : 0 < (s₁.icache ip).ref := by
  have hsum := h.refs ip
  have hbase := hs.nonneg ip
  have hcount := Multiset.count_pos.mpr hip
  omega

theorem trans (h' : After s₁ K nodes' s') : After s (H + K) nodes' s' where
  consistent := h'.consistent
  sb := h'.sb.trans h.sb
  refs jp := by
    rw [h'.refs, h.refs, Multiset.count_add]
    omega
  later := h.later.trans h'.later
  range := h'.range
  node := h'.node

/-- The call goes on with a walk. -/
theorem walk (hw : Walk s₁ K s') : After s (H + K) nodes s' :=
  h.node ▸ h.trans hw.after

/-- A node is written. -/
theorem wrote (hw : Wrote s₁ k y s') :
    After s H (update nodes k (some y)) s' where
  consistent := hw.consistent
  sb := hw.sb.trans h.sb
  refs jp := (hw.quiet jp).2.1.trans (h.refs jp)
  later := h.later.trans (fun jp hjp => by
    obtain ⟨hinum, href, -, hvalid⟩ := hw.quiet jp
    exact ⟨by rw [href]; exact hjp, hinum, fun hv => hvalid.trans hv⟩)
  range jp hjp := by
    obtain ⟨hinum, href, -, -⟩ := hw.quiet jp
    rw [hinum, hw.sb]
    exact h.range jp (by rw [← href]; exact hjp)
  node := by rw [hw.node, h.node]

/-- An inode is allocated. -/
theorem fresh {type : Int16} (hf : Fresh s₁ type ip s') :
    After s (ip ::ₘ H) (update nodes (s'.icache ip).inum (some ⟨type, 0, 0, 0, []⟩)) s' where
  consistent := hf.consistent
  sb := hf.sb.trans h.sb
  refs jp := by
    rw [ref_of_held hf.refs, h.refs, Multiset.count_cons]
    split <;> omega
  later := h.later.trans (fun jp hjp => by
    obtain ⟨hinum, hvalid⟩ := (hf.steady jp).2 hjp
    refine ⟨?_, hinum, fun hv => hvalid.trans hv⟩
    rw [ref_of_held hf.refs]
    split <;> omega)
  range jp hjp := by
    rw [hf.sb]
    by_cases hip : jp = ip
    · rw [hip]
      exact hf.lt
    · rw [ref_of_held hf.refs, if_neg hip, Int.add_zero] at hjp
      rw [((hf.steady jp).2 hjp).1]
      exact h.range jp hjp
  node := by rw [hf.node, h.node]

/-- **A reference that the call took is given back**, and the inode is freed if it was the
last one. -/
theorem put (hip : ip ∈ H) (hp : Put ip s₁ s') :
    After s (H.erase ip) (if s₁.Last ip then update nodes (s₁.icache ip).inum none
      else nodes) s' where
  consistent := hp.consistent
  sb := hp.sb.trans h.sb
  refs jp := by
    by_cases hjp : jp = ip
    · have hcount := Multiset.count_pos.mpr hip
      rw [hjp, hp.ref, h.refs, Multiset.count_erase_self]
      omega
    · rw [hp.same jp hjp, h.refs, Multiset.count_erase_of_ne hjp]
  later jp hpos := by
    obtain ⟨hpos₁, hinum, hvalid⟩ := h.later jp hpos
    by_cases hjp : jp = ip
    · -- it was in use before the call took it
      have hcount := Multiset.count_pos.mpr hip
      have hsum := h.refs ip
      rw [hjp] at hpos hpos₁ hinum hvalid ⊢
      have hnot : ¬ s₁.Last ip := fun hlast => by
        have hone := hlast.2.2
        omega
      refine ⟨?_, hp.here.trans hinum, fun hv => ?_⟩
      · rw [hp.ref]
        omega
      · rw [hp.valid hnot]
        exact hvalid hv
    · rw [hp.same jp hjp]
      exact ⟨hpos₁, hinum, hvalid⟩
  range jp hjp := by
    rw [hp.inum jp, hp.sb]
    refine h.range jp ?_
    by_cases hip : jp = ip
    · rw [hip, hp.ref] at hjp
      rw [hip]
      omega
    · rw [hp.same jp hip] at hjp
      exact hjp
  node := by rw [hp.node, h.node]

end After

end Fs

end Xv6
