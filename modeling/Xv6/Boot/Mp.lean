import Xv6.Lib.Memory

/-!
# The table of processors

`mp.c`: the search for the configuration table that the firmware has left in memory, and
`mpinit`, which goes over the entries of the table. The type of an entry says how long it is.
Memory is read at physical addresses. The kernel has them at `KERNBASE = 2 ^ 31` and above, so
its pointers do not wrap while it works on a table that ends below `2 ^ 31`; that is a hypothesis.
The loop of `mpinit` runs for a number of turns, and `running` says that it is not done.

The `break` in the `default` branch leaves the `switch` and not the loop, and the pointer stays
where it is. So a table with an entry of an unknown type is never given up: `mpinit` looks at
this entry for ever.
-/

namespace Xv6

open Function

namespace Mp

/-- Most processors. -/
def NCPU : ℕ := 8

/-- `sizeof(struct mp)`. -/
def MP : ℕ := 16

/-- `sizeof(struct mpconf)`. -/
def MPCONF : ℕ := 44

/-- `"_MP_"`. -/
def mpSignature : List UInt8 := [0x5F, 0x4D, 0x50, 0x5F]

/-- `"PCMP"`. -/
def confSignature : List UInt8 := [0x50, 0x43, 0x4D, 0x50]

/-- Why `mpinit` does not return. -/
inductive MpHalt
  | running
  | panic (s : String)

/-! ## The search for the table -/

/-- `sum`. -/
def sum (m : Memory) (addr len : ℕ) : UInt8 :=
  UInt8.ofNat ((m.bytes addr len).map UInt8.toNat).sum

/-- The `ushort` at an address. -/
def ushort (m : Memory) (a : ℕ) : ℕ := (m a).toNat + 2 ^ 8 * (m (a + 1)).toNat

/-- The `uint` at an address. -/
def uint (m : Memory) (a : ℕ) : ℕ := ushort m a + 2 ^ 16 * ushort m (a + 2)

/-- `mpsearch1`. -/
def mpsearch1 (m : Memory) (a len : ℕ) : Option ℕ :=
  ((List.range ((len + (MP - 1)) / MP)).map (fun i => a + MP * i)).find? (fun p =>
    m.bytes p 4 = mpSignature ∧ sum m p MP = 0)

/-- `mpsearch`. -/
def mpsearch (m : Memory) : Option ℕ :=
  let bda := 0x400
  let p := ushort m (bda + 0x0E) * 2 ^ 4
  let first :=
    if p ≠ 0 then mpsearch1 m p 1024
    else mpsearch1 m ((ushort m (bda + 0x13) * 1024 + (2 ^ 32 - 1024)) % 2 ^ 32) 1024
  first.or (mpsearch1 m 0xF0000 0x10000)

/-- `conf->length`. -/
def length (m : Memory) (conf : ℕ) : ℕ := ushort m (conf + 4)

/-- `mpconfig`: the table. -/
def mpconfig (m : Memory) : Option ℕ := do
  let mp ← mpsearch m
  let conf := uint m (mp + 4)
  if conf = 0 then none
  else if m.bytes conf 4 ≠ confSignature then none
  else if m (conf + 6) ≠ 1 ∧ m (conf + 6) ≠ 4 then none
  else if sum m conf (length m conf) ≠ 0 then none
  else some conf

/-! ## The entries -/

/-- What `mpinit` learns: `cpus[i].apicid`, `ncpu`, `ioapicid`, `lapic` and `ismp`. -/
structure Machine where
  apicid : ℕ → UInt8
  ncpu : ℕ
  ioapicid : UInt8
  lapic : ℕ
  ismp : Bool

/-- The types of entries. -/
inductive EntryType
  | MPPROC
  | MPBUS
  | MPIOAPIC
  | MPIOINTR
  | MPLINTR
  deriving DecidableEq

/-- The type of an entry, if it is a known one. -/
def entryType (b : UInt8) : Option EntryType :=
  if b = 0 then some .MPPROC
  else if b = 1 then some .MPBUS
  else if b = 2 then some .MPIOAPIC
  else if b = 3 then some .MPIOINTR
  else if b = 4 then some .MPLINTR
  else none

/-- By how much the pointer moves: `sizeof(struct mpproc)`, `sizeof(struct mpioapic)` or 8. -/
def EntryType.size : EntryType → ℕ
  | .MPPROC => 20
  | .MPIOAPIC => 8
  | .MPBUS | .MPIOINTR | .MPLINTR => 8

/-- The entry of a processor: `cpus[ncpu].apicid = proc->apicid; ncpu++;` -/
def Machine.addProc (apicid : UInt8) (s : Machine) : Machine :=
  if s.ncpu < NCPU then
    { s with apicid := update s.apicid s.ncpu apicid, ncpu := s.ncpu + 1 }
  else s

/-- What an entry of a known type does. -/
def Machine.entry (m : Memory) (p : ℕ) (s : Machine) : EntryType → Machine
  | .MPPROC => s.addProc (m (p + 1))
  | .MPIOAPIC => { s with ioapicid := m (p + 1) }
  | .MPBUS | .MPIOINTR | .MPLINTR => s

/-- The loop of `mpinit`. -/
def scan (m : Memory) (e : ℕ) : ℕ → ℕ → Machine → Except MpHalt Machine
  | 0, _, _ => .error .running
  | turns + 1, p, s =>
    if p < e then
      match entryType (m p) with
      | some t => scan m e turns (p + t.size) (s.entry m p t)
      | none => scan m e turns p { s with ismp := false }
    else .ok s

/-- `mpinit`, up to the interrupt mode register. -/
def mpinit (turns : ℕ) (m : Memory) : Except MpHalt Machine :=
  match mpconfig m with
  | none => .error (.panic "Expect to run on an SMP")
  | some conf => do
    let s ← scan m (conf + length m conf) turns (conf + MPCONF)
      ⟨fun _ => 0, 0, 0, uint m (conf + 36), true⟩
    if s.ismp = false then .error (.panic "Didn't find a suitable machine")
    else return s

/-! ## What the table says -/

variable {m : Memory} {e p : ℕ} {s s' : Machine} {turns : ℕ}

theorem EntryType.size_pos (t : EntryType) : 0 < t.size := by cases t <;> decide

/-- **The entries of a table** up to its end, or to the first one of an unknown type. -/
def entries (m : Memory) (e p : ℕ) : List ℕ :=
  if p < e then
    match entryType (m p) with
    | some t =>
      have := t.size_pos
      p :: entries m e (p + t.size)
    | none => [p]
  else []
termination_by e - p

/-- **The table has an entry of an unknown type**, at a place that the loop of `mpinit` comes to.
Its length is not known, so nothing can be said about what follows it. -/
def Unknown (m : Memory) (conf : ℕ) : Prop :=
  ∃ p ∈ entries m (conf + length m conf) (conf + MPCONF), entryType (m p) = none

/-- The processors among entries. -/
def processors (m : Memory) (ps : List ℕ) : List UInt8 :=
  (ps.filter (fun p => entryType (m p) = some .MPPROC)).map (fun p => m (p + 1))

/-- **The processors of the table**, in its order. -/
def tableProcessors (m : Memory) (conf : ℕ) : List UInt8 :=
  processors m (entries m (conf + length m conf) (conf + MPCONF))

/-- **The processors are registered**, in order, up to the limit. -/
structure Registered (s : Machine) (procs : List UInt8) : Prop where
  ncpu : s.ncpu = min procs.length NCPU
  apicid : ∀ i < s.ncpu, s.apicid i = procs.getD i 0

/-! ## Registering -/

/-- One processor more. -/
theorem Registered.addProc {procs : List UInt8} (h : Registered s procs) (apicid : UInt8) :
    Registered (s.addProc apicid) (procs ++ [apicid]) := by
  have hncpu := h.ncpu
  unfold Machine.addProc
  split
  · next hlt =>
    have hlen : s.ncpu = procs.length := by omega
    refine ⟨?_, fun i hi => ?_⟩
    · show s.ncpu + 1 = _
      rw [List.length_append, List.length_singleton]
      omega
    · show update s.apicid s.ncpu apicid i = _
      have hi : i < s.ncpu + 1 := hi
      by_cases hnew : i = s.ncpu
      · rw [hnew, update_self, hlen, List.getD_append_right _ _ _ _ (Nat.le_refl _), Nat.sub_self]
        rfl
      · rw [update_of_ne hnew, h.apicid i (by omega), List.getD_append _ _ _ _ (by omega)]
  · next hfull =>
    refine ⟨?_, fun i hi => ?_⟩
    · rw [List.length_append, List.length_singleton]
      omega
    · rw [h.apicid i hi, List.getD_append _ _ _ _ (by omega)]

/-- The entries so far, and one more of a known type. -/
theorem Registered.entry {ps : List ℕ} (h : Registered s (processors m ps)) {t : EntryType}
    (ht : entryType (m p) = some t) : Registered (s.entry m p t) (processors m (ps ++ [p])) := by
  have hother : t ≠ .MPPROC → processors m (ps ++ [p]) = processors m ps := by
    intro hne
    unfold processors
    rw [List.filter_append, List.filter_cons_of_neg (by
      rw [ht]
      exact fun heq => hne (Option.some.inj (of_decide_eq_true heq))), List.filter_nil, List.append_nil]
  cases t with
  | MPPROC =>
    have hproc : processors m (ps ++ [p]) = processors m ps ++ [m (p + 1)] := by
      unfold processors
      rw [List.filter_append, List.filter_cons, if_pos (decide_eq_true ht), List.filter_nil,
        List.map_append]
      rfl
    rw [hproc]
    exact h.addProc (m (p + 1))
  | MPIOAPIC =>
    rw [hother nofun]
    exact ⟨h.ncpu, h.apicid⟩
  | MPBUS | MPIOINTR | MPLINTR =>
    rw [hother nofun]
    exact h

theorem ismp_entry (m : Memory) (p : ℕ) (s : Machine) (t : EntryType) :
    (s.entry m p t).ismp = s.ismp := by
  cases t with
  | MPPROC =>
    show (s.addProc _).ismp = _
    unfold Machine.addProc
    split <;> rfl
  | MPIOAPIC | MPBUS | MPIOINTR | MPLINTR => rfl

/-! ## The loop -/

/-- **The loop ends** if all entries are known, and has registered their processors. -/
theorem scan_eq (ps : List ℕ) (hknown : ∀ q ∈ entries m e p, entryType (m q) ≠ none)
    (hs : Registered s (processors m ps)) : ∃ turns s', scan m e turns p s = .ok s' ∧
      s'.ismp = s.ismp ∧ Registered s' (processors m (ps ++ entries m e p)) := by
  fun_induction entries m e p generalizing s ps with
  | case1 p hlt t ht _ ih =>
    obtain ⟨turns, s', hrun, hismp, hreg⟩ :=
      ih _ (fun q hq => hknown q (List.mem_cons_of_mem p hq)) (hs.entry ht)
    refine ⟨turns + 1, s', ?_, hismp.trans (ismp_entry m p s t), ?_⟩
    · rw [scan, if_pos hlt, ht]
      exact hrun
    · rw [List.append_assoc] at hreg
      exact hreg
  | case2 p hlt hnone => exact absurd hnone (hknown p List.mem_cons_self)
  | case3 p hge =>
    refine ⟨1, s, ?_, rfl, ?_⟩
    · rw [scan, if_neg hge]
    · rw [List.append_nil]
      exact hs

/-- At an unknown entry the loop stays. -/
theorem scan_of_none (hlt : p < e) (hnone : entryType (m p) = none) (turns : ℕ) (s : Machine) :
    scan m e turns p s = .error .running := by
  induction turns generalizing s with
  | zero => rfl
  | succ turns ih =>
    rw [scan, if_pos hlt, hnone]
    exact ih _

/-- **The loop does not end** if an entry is unknown. -/
theorem scan_of_unknown (hunknown : ∃ q ∈ entries m e p, entryType (m q) = none) (turns : ℕ)
    (s : Machine) : scan m e turns p s = .error .running := by
  fun_induction entries m e p generalizing s turns with
  | case1 p hlt t ht _ ih =>
    obtain ⟨q, hq, hnone⟩ := hunknown
    rcases List.mem_cons.mp hq with rfl | hq
    · rw [ht] at hnone
      cases hnone
    · cases turns with
      | zero => rfl
      | succ turns =>
        rw [scan, if_pos hlt, ht]
        exact ih ⟨q, hq, hnone⟩ turns _
  | case2 p hlt hnone => exact scan_of_none hlt hnone turns s
  | case3 p hge =>
    obtain ⟨q, hq, -⟩ := hunknown
    cases hq

/-! ## `mpinit` -/

/-- **What `mpinit` is to do with a table**: register its processors, or give the machine up with a
panic if there is an unknown entry. -/
def Handled (m : Memory) (conf : ℕ) : Prop :=
  (¬ Unknown m conf ∧ ∃ turns s, mpinit turns m = .ok s ∧ Registered s (tableProcessors m conf)) ∨
  (Unknown m conf ∧ ∃ turns, mpinit turns m = .error (.panic "Didn't find a suitable machine"))

/-- **`mpinit` handles a table** if and only if there is no unknown entry in it; if there is
one, it does not end. The last entry may be cut short by the end of the table, so its size is
kept free behind it. -/
theorem handled_iff {conf : ℕ} (h : mpconfig m = some conf)
    (_ : conf + length m conf + EntryType.MPPROC.size ≤ 2 ^ 31) :
    Handled m conf ↔ ¬ Unknown m conf := by
  constructor
  · rintro (⟨hknown, -⟩ | ⟨hunknown, turns, hrun⟩)
    · exact hknown
    · unfold mpinit at hrun
      rw [h] at hrun
      dsimp only at hrun
      rw [scan_of_unknown hunknown] at hrun
      cases hrun
  · intro hknown
    obtain ⟨turns, s, hrun, hismp, hreg⟩ := scan_eq []
      (s := ⟨fun _ => 0, 0, 0, uint m (conf + 36), true⟩)
      (fun q hq hnone => hknown ⟨q, hq, hnone⟩) ⟨rfl, fun i hi => absurd hi (Nat.not_lt_zero i)⟩
    refine .inl ⟨hknown, turns, s, ?_, hreg⟩
    unfold mpinit
    rw [h]
    dsimp only
    rw [hrun]
    show (if s.ismp = false then _ else _) = _
    rw [if_neg (by rw [hismp]; exact Bool.noConfusion)]
    rfl

/-- The memory with a table at `0x900` that has these entries, in so many bytes. -/
def firmware (length checksum : UInt8) (es : List UInt8) : Memory :=
  ((Memory.store (fun _ => 0) 0x40E [0x80, 0]).store 0x800
    [0x5F, 0x4D, 0x50, 0x5F, 0, 9, 0, 0, 1, 4, 151]).store 0x900
    ([0x50, 0x43, 0x4D, 0x50, length, 0, 4, checksum] ++ List.replicate 28 0 ++
      [0, 0, 0xE0, 0xFE, 0, 0, 0, 0] ++ es)

/-- A processor and an I/O controller. -/
def smallMachine : Memory :=
  firmware 72 152 ([0, 3] ++ List.replicate 18 0 ++ [2, 9, 0, 0, 0, 0, 0, 0])

theorem handled_iff_smallMachine : mpconfig smallMachine = some 0x900 ∧
    (Handled smallMachine 0x900 ↔ ¬ Unknown smallMachine 0x900) := by
  have hconf : mpconfig smallMachine = some 0x900 := by decide +kernel
  exact ⟨hconf, handled_iff hconf (by decide +kernel)⟩

/-- An entry of the type 5. -/
def strangeMachine : Memory := firmware 52 181 [5, 0, 0, 0, 0, 0, 0, 0]

/-- **The table with an entry of the type 5** is accepted, and `mpinit` does not end. -/
theorem mpinit_strangeMachine : mpconfig strangeMachine = some 0x900 ∧
    ∀ turns, mpinit turns strangeMachine = .error .running := by
  have hconf : mpconfig strangeMachine = some 0x900 := by decide +kernel
  refine ⟨hconf, fun turns => ?_⟩
  unfold mpinit
  rw [hconf]
  dsimp only
  rw [scan_of_none (by decide +kernel) (by decide +kernel)]
  rfl

end Mp

end Xv6
