import Xv6.Lib.Writes
import Xv6.Log.Commit
import Mathlib.Data.List.GetD

/-!
# Crash atomicity

The header block decides what the log vouches for. A disk is `Clean` when
its header lists nothing, and `Vouched` when its header lists blocks whose
contents the log holds; recovery takes the second kind to the first and
leaves the first alone, and does so from wherever it was interrupted. The
block writes of a commit pass from a clean disk with the old contents to a
vouched disk at the one write of the header, and from there to a clean
disk with the new contents.
-/

namespace Xv6

open Function

namespace Log

/-! ## The header -/

/-- The words of a header. -/
theorem word_encodeHead (lh : List ℕ) (b : Block) {m : ℕ} (hm : m ≤ LOGSIZE) :
    let e := (List.range m).foldl (fun b i => b.setWord (i + 1) (lh.getD i 0))
      (b.setWord 0 lh.length)
    e.word 0 = lh.length % 2 ^ 32 ∧ ∀ i < m, e.word (i + 1) = lh.getD i 0 % 2 ^ 32 := by
  induction m with
  | zero =>
    exact ⟨b.word_setWord_self _ (by decide), fun i hi => absurd hi (Nat.not_lt_zero i)⟩
  | succ m ih =>
    obtain ⟨h₀, hlt⟩ := ih (by omega)
    have hfit : 4 * (m + 1) + 3 < BSIZE := by
      unfold LOGSIZE MAXOPBLOCKS at hm
      unfold BSIZE
      omega
    rw [List.range_succ, List.foldl_append]
    refine ⟨?_, fun i hi => ?_⟩
    · rw [List.foldl_cons, List.foldl_nil, Block.word_setWord_of_ne _ _ (by omega)]
      exact h₀
    · rw [List.foldl_cons, List.foldl_nil]
      by_cases him : i = m
      · rw [him, Block.word_setWord_self _ _ hfit]
      · rw [Block.word_setWord_of_ne _ _ (by omega)]
        exact hlt i (by omega)

variable {lh : List ℕ}

/-- **A header reads back as written.** -/
theorem decodeHead_encodeHead (hlen : lh.length ≤ LOGSIZE) (hlt : ∀ b ∈ lh, b < 2 ^ 32) (b : Block) :
    decodeHead (encodeHead lh b) = some lh := by
  obtain ⟨h₀, hi⟩ := word_encodeHead lh b hlen
  have hsmall : lh.length < 2 ^ 31 := by
    unfold LOGSIZE MAXOPBLOCKS at hlen
    omega
  have hint : intOfWord ((encodeHead lh b).word 0) = lh.length := by
    unfold encodeHead
    rw [h₀, Nat.mod_eq_of_lt (by omega), intOfWord_of_lt hsmall]
  unfold decodeHead
  rw [hint, if_pos (by exact_mod_cast hlen), Int.toNat_natCast]
  refine congrArg some (List.ext_getElem (by simp) (fun i h₁ h₂ => ?_))
  rw [List.getElem_map, List.getElem_range]
  refine (hi i h₂).trans ?_
  rw [List.getD_eq_getElem _ _ h₂, Nat.mod_eq_of_lt (hlt _ (List.getElem_mem h₂))]

/-! ## The block writes of each function -/

/-- **The writes of a function**: the disk, the buffers and the record of
writes have all received `ws`. -/
structure Emits (l l' : Log) (ws : List (ℕ × Block)) : Prop where
  disk : l'.disk = Writes.apply l.disk ws
  buf : l'.buf = Writes.apply l.buf ws
  trace : l'.trace = l.trace ++ ws

namespace Emits

variable {l l' l'' : Log} {ws ws' : List (ℕ × Block)}

theorem refl (l : Log) : Emits l l [] := ⟨rfl, rfl, (List.append_nil _).symm⟩

theorem trans (h : Emits l l' ws) (h' : Emits l' l'' ws') : Emits l l'' (ws ++ ws') where
  disk := by rw [h'.disk, h.disk, Writes.apply_append]
  buf := by rw [h'.buf, h.buf, Writes.apply_append]
  trace := by rw [h'.trace, h.trace, List.append_assoc]

/-- A buffer that is filled and written. -/
theorem setBuf_bwrite (l : Log) (b : ℕ) (data : Block) :
    Emits l ((l.setBuf b data).bwrite b) [(b, data)] where
  disk := by
    show update l.disk b (update l.buf b data b) = _
    rw [update_self]
    rfl
  buf := rfl
  trace := by
    show l.trace ++ [(b, update l.buf b data b)] = _
    rw [update_self]

end Emits

/-- A loop whose turns write as if nothing had changed. -/
theorem emits_foldl {f : Log → ℕ → Log} {w : ℕ → ℕ × Block} {l : Log} {m : ℕ}
    (hf : ∀ i < m, ∀ l', l'.lh = l.lh →
      l'.buf = Writes.apply l.buf ((List.range i).map w) → Emits l' (f l' i) [w i])
    (hlh : ∀ l' i, (f l' i).lh = l'.lh) :
    Emits l ((List.range m).foldl f l) ((List.range m).map w)
      ∧ ((List.range m).foldl f l).lh = l.lh := by
  induction m with
  | zero => exact ⟨Emits.refl l, rfl⟩
  | succ m ih =>
    obtain ⟨hemits, hsame⟩ := ih (fun i hi => hf i (by omega))
    rw [List.range_succ, List.foldl_append, List.map_append]
    exact ⟨hemits.trans (hf m (by omega) _ hsame hemits.buf), (hlh _ _).trans hsame⟩

/-- The home blocks are outside the log, and the log has a block for each. -/
structure Fits (a : LogArea) (lh : List ℕ) : Prop where
  home : ∀ b ∈ lh, a.Home b
  size : lh.length ≤ a.size - 1
  len : lh.length ≤ LOGSIZE
  nodup : lh.Nodup

namespace Fits

variable {a : LogArea} {lh : List ℕ}

theorem contains_block (h : Fits a lh) {i : ℕ} (hi : i < lh.length) : a.Contains (a.block i) := by
  have := h.size
  unfold LogArea.Contains LogArea.block
  omega

/-- No write to the log goes to a home block. -/
theorem ne_block (h : Fits a lh) {b i : ℕ} (hb : ¬ a.Contains b) (hi : i < lh.length) :
    b ≠ a.block i := by
  rintro rfl
  exact hb (h.contains_block hi)

end Fits

theorem getD_mem {i : ℕ} (hi : i < lh.length) : lh.getD i 0 ∈ lh := by
  rw [List.getD_eq_getElem _ _ hi]
  exact List.getElem_mem hi

variable {a : LogArea} {l : Log}

/-- `write_log` copies the buffers of the home blocks to the log. -/
theorem emits_writeLog (h : Fits a l.lh) :
    Emits l (l.writeLog a)
      ((List.range l.lh.length).map (fun i => (a.block i, l.buf (l.home i))))
      ∧ (l.writeLog a).lh = l.lh := by
  refine emits_foldl (fun i hi l' hlh hbuf => ?_) (fun _ _ => rfl)
  have hhome : l'.home i = l.home i := congrArg (fun lh => List.getD lh i 0) hlh
  have hread : l'.buf (l'.home i) = l.buf (l.home i) := by
    rw [hhome, hbuf, Writes.apply_of_notMem]
    rw [List.map_map, List.mem_map]
    rintro ⟨j, hj, hji⟩
    exact h.ne_block (h.home _ (getD_mem hi)).1 (Nat.lt_trans (List.mem_range.mp hj) hi) hji.symm
  rw [← hread]
  exact Emits.setBuf_bwrite l' _ _

/-- The header, turn by turn of a loop over it. -/
theorem map_home (l : Log) : (List.range l.lh.length).map l.home = l.lh := by
  refine List.ext_getElem (by simp) (fun i h₁ h₂ => ?_)
  rw [List.getElem_map, List.getElem_range]
  exact List.getD_eq_getElem _ _ h₂

variable {f : ℕ → Block}

/-- `install_trans` copies the log to the home blocks. -/
theorem emits_installTrans (h : Fits a l.lh)
    (hlog : ∀ i < l.lh.length, l.buf (a.block i) = f (l.home i)) :
    Emits l (l.installTrans a) (l.lh.map (fun b => (b, f b)))
      ∧ (l.installTrans a).lh = l.lh := by
  have hmap : l.lh.map (fun b => (b, f b))
      = (List.range l.lh.length).map (fun i => (l.home i, f (l.home i))) := by
    rw [← map_home l, List.map_map, map_home]
    rfl
  rw [hmap]
  refine emits_foldl (fun i hi l' hlh hbuf => ?_) (fun _ _ => rfl)
  have hhome : l'.home i = l.home i := congrArg (fun lh => List.getD lh i 0) hlh
  have hread : l'.buf (a.block i) = f (l.home i) := by
    rw [hbuf, Writes.apply_of_notMem, hlog i hi]
    rw [List.map_map, List.mem_map]
    rintro ⟨j, hj, hji⟩
    exact h.ne_block (h.home _ (getD_mem (Nat.lt_trans (List.mem_range.mp hj) hi))).1 hi hji
  rw [← hread, ← hhome]
  exact Emits.setBuf_bwrite l' _ _

/-- `install_trans` writes every block that the header lists, whatever the
log holds. -/
theorem exists_emits_installTrans (a : LogArea) (l : Log) :
    ∃ ws, Emits l (l.installTrans a) ws ∧ ws.map Prod.fst = l.lh := by
  have hturns : ∀ m, ∃ ws, Emits l ((List.range m).foldl (installTransStep a) l) ws
      ∧ ws.map Prod.fst = (List.range m).map l.home
      ∧ ((List.range m).foldl (installTransStep a) l).lh = l.lh := by
    intro m
    induction m with
    | zero => exact ⟨[], .refl l, rfl, rfl⟩
    | succ m ih =>
      obtain ⟨ws, hemits, hws, hlh⟩ := ih
      rw [List.range_succ, List.foldl_append, List.map_append, ← hws]
      refine ⟨_, hemits.trans (.setBuf_bwrite _ _ _), ?_, hlh⟩
      rw [List.map_append]
      unfold home
      rw [hlh]
      rfl
  obtain ⟨ws, hemits, hws, -⟩ := hturns l.lh.length
  exact ⟨ws, hemits, hws.trans (map_home l)⟩

theorem emits_writeHead (a : LogArea) (l : Log) :
    Emits l (l.writeHead a) [(a.start, encodeHead l.lh (l.buf a.start))] :=
  Emits.setBuf_bwrite l _ _

/-- **The writes of a commit**: the log, the header, the home blocks, the
empty header. -/
def commitWrites (a : LogArea) (l : Log) : List (ℕ × Block) :=
  let head := encodeHead l.lh (l.buf a.start)
  (List.range l.lh.length).map (fun i => (a.block i, l.buf (l.home i)))
    ++ (a.start, head) :: l.lh.map (fun b => (b, l.buf b)) ++ [(a.start, encodeHead [] head)]

/-- The home blocks of a commit are written with what their buffers held
when it began. -/
theorem emits_install (h : Fits a l.lh) :
    Emits ((l.writeLog a).writeHead a) (((l.writeLog a).writeHead a).installTrans a)
      (l.lh.map (fun b => (b, l.buf b))) := by
  obtain ⟨hw, hwlh⟩ := emits_writeLog h
  have hh := emits_writeHead a (l.writeLog a)
  have hhlh : ((l.writeLog a).writeHead a).lh = l.lh := hwlh
  have hf : Fits a ((l.writeLog a).writeHead a).lh := by
    rw [hhlh]
    exact h
  -- the buffers of the log blocks hold what `write_log` has just put there
  have hlog : ∀ i < ((l.writeLog a).writeHead a).lh.length,
      ((l.writeLog a).writeHead a).buf (a.block i)
        = l.buf (((l.writeLog a).writeHead a).home i) := by
    intro i hi
    have hhome : ((l.writeLog a).writeHead a).home i = l.home i :=
      congrArg (fun lh => List.getD lh i 0) hhlh
    rw [hhlh] at hi
    rw [hhome, hh.buf, Writes.apply_of_notMem, hw.buf]
    · exact Writes.apply_map_of_mem a.block_injective _ (fun i => l.buf (l.home i))
        (List.mem_range.mpr hi)
    · simpa using (a.start_ne_block i).symm
  rw [← hhlh]
  exact (emits_installTrans hf hlog).1

theorem emits_commit (h : Fits a l.lh) (hpos : 0 < l.lh.length) :
    Emits l (l.commit a) (commitWrites a l) ∧ (l.commit a).lh = [] := by
  obtain ⟨hw, hwlh⟩ := emits_writeLog h
  have hstart : (l.writeLog a).buf a.start = l.buf a.start := by
    rw [hw.buf, Writes.apply_of_notMem]
    rw [List.map_map, List.mem_map]
    rintro ⟨i, -, hi⟩
    exact a.start_ne_block i hi.symm
  have hh := emits_writeHead a (l.writeLog a)
  rw [hwlh, hstart] at hh
  have hi := emits_install h
  have hstart' : (((l.writeLog a).writeHead a).installTrans a).buf a.start
      = encodeHead l.lh (l.buf a.start) := by
    rw [hi.buf, Writes.apply_of_notMem, hh.buf]
    · exact update_self _ _ _
    · rw [List.map_map, List.mem_map]
      rintro ⟨b, hb, hba⟩
      exact LogArea.ne_start_of_not_contains (h.home b hb).1 hba
  have he := emits_writeHead a { ((l.writeLog a).writeHead a).installTrans a with lh := [] }
  have he : Emits (((l.writeLog a).writeHead a).installTrans a) (l.commit a)
      [(a.start, encodeHead [] (encodeHead l.lh (l.buf a.start)))] := by
    unfold commit
    rw [if_pos hpos, ← hstart']
    exact ⟨he.disk, he.buf, he.trace⟩
  refine ⟨?_, ?_⟩
  · unfold commitWrites
    simpa using ((hw.trans hh).trans hi).trans he
  · unfold commit
    rw [if_pos hpos]
    rfl

/-! ## What the log vouches for -/

/-- **The disk a recovery turns into `f`**: the header lists `lh`, the log
holds `f` at those blocks, and the other home blocks hold it already. -/
structure Vouched (a : LogArea) (f : ℕ → Block) (lh : List ℕ) (x : ℕ → Block) : Prop where
  fits : Fits a lh
  head : decodeHead (x a.start) = some lh
  log : ∀ i < lh.length, x (a.block i) = f (lh.getD i 0)
  home : ∀ b ∉ lh, ¬ a.Contains b → x b = f b

/-- Some header vouches for `f`. -/
def Recoverable (a : LogArea) (f : ℕ → Block) (x : ℕ → Block) : Prop := ∃ lh, Vouched a f lh x

theorem fits_nil (a : LogArea) : Fits a [] :=
  ⟨fun _ hb => absurd hb List.not_mem_nil, Nat.zero_le _, Nat.zero_le _, List.nodup_nil⟩

/-- The empty header. -/
theorem decodeHead_encodeHead_nil (b : Block) : decodeHead (encodeHead [] b) = some [] :=
  decodeHead_encodeHead (Nat.zero_le _) (fun _ hb => absurd hb List.not_mem_nil) b

variable {x : ℕ → Block}

/-- A disk whose header lists nothing. -/
theorem vouched_nil (hhead : decodeHead (x a.start) = some [])
    (hhome : ∀ b, ¬ a.Contains b → x b = f b) : Vouched a f [] x where
  fits := fits_nil a
  head := hhead
  log := fun _ hi => absurd hi (Nat.not_lt_zero _)
  home := fun b _ hb => hhome b hb

namespace Vouched

variable {f x : ℕ → Block} {lh : List ℕ}

/-- Writes to the blocks of the header change nothing. -/
theorem apply_of_subset (h : Vouched a f lh x) {ws : List (ℕ × Block)}
    (hws : ws.map Prod.fst ⊆ lh) : Vouched a f lh (Writes.apply x ws) := by
  have hlog : ∀ b, a.Contains b → Writes.apply x ws b = x b := fun b hb =>
    Writes.apply_of_notMem (fun hmem => (h.fits.home b (hws hmem)).1 hb)
  refine ⟨h.fits, ?_, fun i hi => ?_, fun b hb hba => ?_⟩
  · rw [hlog _ a.contains_start]
    exact h.head
  · rw [hlog _ (h.fits.contains_block hi)]
    exact h.log i hi
  · rw [Writes.apply_of_notMem (fun hmem => hb (hws hmem))]
    exact h.home b hb hba

/-- All the blocks of the header are written, and then the empty header. -/
theorem apply_installed (h : Vouched a f lh x) (hd : Block) :
    Vouched a f []
      (Writes.apply x (lh.map (fun b => (b, f b)) ++ [(a.start, encodeHead [] hd)])) := by
  rw [Writes.apply_append]
  refine vouched_nil ?_ (fun b hb => ?_)
  · rw [Writes.apply_cons, Writes.apply_nil, update_self]
    exact decodeHead_encodeHead_nil hd
  · rw [Writes.apply_cons, Writes.apply_nil,
      update_of_ne (LogArea.ne_start_of_not_contains hb), Writes.apply_map]
    by_cases hmem : b ∈ lh
    · rw [if_pos hmem]
    · rw [if_neg hmem]
      exact h.home b hmem hb

/-- **Wherever an installation stops**, the disk is still one that a
recovery turns into `f`. -/
theorem recoverable_take (h : Vouched a f lh x) (hd : Block) (k : ℕ) :
    Recoverable a f (Writes.apply x
      ((lh.map (fun b => (b, f b)) ++ [(a.start, encodeHead [] hd)]).take k)) := by
  by_cases hk : k ≤ lh.length
  · refine ⟨lh, h.apply_of_subset ?_⟩
    rw [List.take_append_of_le_length (by rw [List.length_map]; exact hk), ← List.map_take,
      List.map_map]
    intro b hb
    obtain ⟨c, hc, rfl⟩ := List.mem_map.mp hb
    exact List.mem_of_mem_take hc
  · rw [List.take_of_length_le (by simp; omega)]
    exact ⟨[], h.apply_installed hd⟩

end Vouched

/-! ## Recovery -/

/-- **The disk of a machine that stops** after `k` of the block writes on
the way from `l` to `l'`. -/
def stopped (k : ℕ) (l l' : Log) : ℕ → Block :=
  Writes.apply l.disk ((l'.trace.drop l.trace.length).take k)

variable {l' : Log} {ws : List (ℕ × Block)}

theorem Emits.stopped_eq (h : Emits l l' ws) (k : ℕ) :
    stopped k l l' = Writes.apply l.disk (ws.take k) := by
  unfold stopped
  rw [h.trace, List.drop_left]

/-- Recoveries that stop after the given numbers of block writes, each one
on the disk the last one left, and then one that completes. -/
def recoverAfter (a : LogArea) : List ℕ → (ℕ → Block) → Option (ℕ → Block)
  | [], d => (recoverFromLog a (reboot d)).map Log.disk
  | k :: ks, d => do
    let l ← recoverFromLog a (reboot d)
    recoverAfter a ks (stopped k (reboot d) l)

/-- The block writes of a recovery. -/
theorem emits_recoverFromLog (h : Vouched a f lh x) :
    ∃ l, recoverFromLog a (reboot x) = some l
      ∧ Emits (reboot x) l (lh.map (fun b => (b, f b)) ++ [(a.start, encodeHead [] (x a.start))]) := by
  obtain ⟨hi, -⟩ := emits_installTrans (l := { reboot x with lh }) h.fits h.log
  have hstart : (installTrans a { reboot x with lh }).buf a.start = x a.start := by
    rw [hi.buf, Writes.apply_of_notMem]
    · rfl
    · rw [List.map_map, List.mem_map]
      rintro ⟨b, hb, hba⟩
      exact LogArea.ne_start_of_not_contains (h.fits.home b hb).1 hba
  refine ⟨writeHead a { installTrans a { reboot x with lh } with lh := [] }, ?_, ?_⟩
  · have hread : (reboot x).readHead a = some { reboot x with lh } := by
      show (decodeHead (x a.start)).map _ = _
      rw [h.head]
      rfl
    unfold recoverFromLog
    rw [hread]
    rfl
  · have he := emits_writeHead a { installTrans a { reboot x with lh } with lh := [] }
    rw [← hstart]
    exact Emits.trans ⟨hi.disk, hi.buf, hi.trace⟩ ⟨he.disk, he.buf, he.trace⟩

/-- The number of blocks in the empty header. -/
theorem word_zero_encodeHead_nil (b : Block) : (encodeHead [] b).word 0 = 0 :=
  (word_encodeHead [] b (Nat.zero_le _)).1

/-- **Recovery is idempotent**: however often it stops and wherever, the
first recovery that completes turns the disk into `f`. -/
theorem recoverAfter_eq_some (h : Recoverable a f x) (ks : List ℕ) :
    ∃ d, recoverAfter a ks x = some d
      ∧ (∀ b, ¬ a.Contains b → d b = f b) ∧ (d a.start).word 0 = 0 := by
  induction ks generalizing x with
  | nil =>
    obtain ⟨lh, hv⟩ := h
    obtain ⟨l, hl, hemits⟩ := emits_recoverFromLog hv
    refine ⟨l.disk, by rw [recoverAfter, hl]; rfl, ?_, ?_⟩
    · rw [hemits.disk]
      exact fun b hb => (hv.apply_installed _).home b List.not_mem_nil hb
    · rw [hemits.disk, Writes.apply_append, Writes.apply_cons, Writes.apply_nil,
        update_self]
      exact word_zero_encodeHead_nil _
  | cons k ks ih =>
    obtain ⟨lh, hv⟩ := h
    obtain ⟨l, hl, hemits⟩ := emits_recoverFromLog hv
    have hk := hv.recoverable_take (x a.start) k
    obtain ⟨d, hd, hres⟩ := ih hk
    refine ⟨d, ?_, hres⟩
    rw [recoverAfter, hl]
    show recoverAfter a ks (stopped k (reboot x) l) = some d
    rw [hemits.stopped_eq]
    exact hd

/-! ## Transactions -/

/-- **The log between transactions**: nothing is logged, every buffer holds
what the disk holds, and the header on the disk lists nothing. -/
structure Quiet (a : LogArea) (l : Log) : Prop where
  lh : l.lh = []
  buf : l.buf = l.disk
  head : decodeHead (l.disk a.start) = some []

/-- A block that passes the test of `log_write` fits. -/
theorem Fits.absorb {b : ℕ} (h : Fits a l.lh) (hb : a.Home b) (hsmall : ¬ l.tooBig a) :
    Fits a (absorb l.lh b) := by
  have hlen := length_absorb_le l.lh b
  unfold tooBig at hsmall
  refine ⟨fun c hc => ?_, by omega, by omega, nodup_absorb h.nodup b⟩
  rcases mem_absorb.mp hc with rfl | hc
  · exact hb
  · exact h.home c hc

/-- What the calls of one transaction leave: its blocks are logged, its
contents are in the buffers, and nothing has gone to the disk. -/
theorem logWrites_spec (h : Fits a l.lh) (hhome : ∀ w ∈ ws, a.Home w.1)
    (hl : l.logWrites a ws = some l') :
    Fits a l'.lh ∧ l'.disk = l.disk ∧ l'.trace = l.trace ∧ l'.buf = Writes.apply l.buf ws
      ∧ ∀ b, b ∈ l'.lh ↔ b ∈ l.lh ∨ b ∈ ws.map Prod.fst := by
  induction ws generalizing l with
  | nil =>
    obtain rfl := Option.some.inj hl
    exact ⟨h, rfl, rfl, rfl, fun b => by simp⟩
  | cons w ws ih =>
    obtain ⟨l₁, hl₁, hrest⟩ := Option.bind_eq_some_iff.mp hl
    obtain ⟨hsmall, rfl⟩ := logWrite_eq_some hl₁
    obtain ⟨hf, hdisk, htrace, hbuf, hmem⟩ :=
      ih (h.absorb (hhome w List.mem_cons_self) hsmall)
        (fun v hv => hhome v (List.mem_cons_of_mem _ hv)) hrest
    refine ⟨hf, hdisk, htrace, hbuf, fun b => ?_⟩
    rw [hmem, List.map_cons, List.mem_cons, ← or_assoc, mem_absorb]
    exact or_congr_left or_comm

/-! ## Where a commit stops -/

/-- Up to the write of the header, the disk vouches for the old contents. -/
theorem vouched_writeLog (hhead : decodeHead (l.disk a.start) = some []) (h : Fits a l.lh) (k : ℕ) :
    Vouched a l.disk [] (Writes.apply l.disk
      (((List.range l.lh.length).map (fun i => (a.block i, l.buf (l.home i)))).take k)) := by
  have hoff : ∀ b, b = a.start ∨ ¬ a.Contains b → Writes.apply l.disk
      (((List.range l.lh.length).map (fun i => (a.block i, l.buf (l.home i)))).take k) b
        = l.disk b := by
    intro b hb
    refine Writes.apply_of_notMem (fun hmem => ?_)
    rw [← List.map_take, List.map_map, List.mem_map] at hmem
    obtain ⟨i, hi, rfl⟩ := hmem
    have hi := List.mem_range.mp (List.mem_of_mem_take hi)
    exact hb.elim (a.start_ne_block i).symm (fun hb => hb (h.contains_block hi))
  refine vouched_nil ?_ (fun b hb => hoff b (.inr hb))
  rw [hoff _ (.inl rfl)]
  exact hhead

/-- The write of the header makes the disk vouch for the new contents. -/
theorem vouched_writeHead (h : Fits a l.lh) (hbuf : ∀ b ∉ l.lh, l.buf b = l.disk b) (hd : Block) :
    Vouched a l.buf l.lh (update (Writes.apply l.disk
      ((List.range l.lh.length).map (fun i => (a.block i, l.buf (l.home i)))))
        a.start (encodeHead l.lh hd)) := by
  refine ⟨h, ?_, fun i hi => ?_, fun b hb hba => ?_⟩
  · rw [update_self]
    exact decodeHead_encodeHead h.len (fun b hb => (h.home b hb).2) hd
  · rw [update_of_ne (a.start_ne_block i).symm]
    exact Writes.apply_map_of_mem a.block_injective _ (fun i => l.buf (l.home i))
      (List.mem_range.mpr hi)
  · rw [update_of_ne (LogArea.ne_start_of_not_contains hba), hbuf b hb]
    refine Writes.apply_of_notMem (fun hmem => ?_)
    rw [List.map_map, List.mem_map] at hmem
    obtain ⟨i, hi, hib⟩ := hmem
    exact h.ne_block hba (List.mem_range.mp hi) hib.symm

/-- **The commit point**: a commit that stops within its first `n` block
writes can be recovered to the old contents, and a later one to the new. -/
theorem recoverable_commit (hhead : decodeHead (l.disk a.start) = some []) (h : Fits a l.lh)
    (hbuf : ∀ b ∉ l.lh, l.buf b = l.disk b) (k : ℕ) :
    (k ≤ l.lh.length → Recoverable a l.disk (stopped k l (l.commit a)))
      ∧ (l.lh.length < k → Recoverable a l.buf (stopped k l (l.commit a))) := by
  by_cases hpos : 0 < l.lh.length
  · obtain ⟨hemits, -⟩ := emits_commit h hpos
    rw [hemits.stopped_eq]
    unfold commitWrites
    rw [List.append_assoc]
    refine ⟨fun hk => ?_, fun hk => ?_⟩
    · rw [List.take_append_of_le_length (by simpa using hk)]
      exact ⟨[], vouched_writeLog hhead h k⟩
    · obtain ⟨j, rfl⟩ := Nat.exists_eq_add_of_lt hk
      rw [Nat.add_assoc, List.take_append, List.take_of_length_le (by simp), List.length_map,
        List.length_range, Nat.add_sub_cancel_left, List.cons_append, List.take_succ_cons,
        Writes.apply_append, Writes.apply_cons]
      exact (vouched_writeHead h hbuf _).recoverable_take _ j
  · -- an empty commit writes nothing
    have hnil : l.lh = [] := List.eq_nil_of_length_eq_zero (by omega)
    have hcommit : l.commit a = l := if_neg hpos
    have hsame : l.buf = l.disk := funext (fun b => hbuf b (hnil ▸ List.not_mem_nil))
    have hstopped : stopped k l l = l.disk := by
      unfold stopped
      rw [List.drop_length, List.take_nil, Writes.apply_nil]
    rw [hcommit, hstopped, hsame]
    exact ⟨fun _ => ⟨[], vouched_nil hhead (fun _ _ => rfl)⟩,
      fun _ => ⟨[], vouched_nil hhead (fun _ _ => rfl)⟩⟩

/-! ## Every transaction since the machine started -/

theorem buf_eq_disk_installTrans (h : l.buf = l.disk) :
    (l.installTrans a).buf = (l.installTrans a).disk := by
  unfold installTrans
  generalize List.range l.lh.length = tails
  induction tails generalizing l with
  | nil => exact h
  | cons tail tails ih =>
    have hstep := Emits.setBuf_bwrite l (l.home tail) (l.buf (a.block tail))
    exact ih (hstep.buf.trans ((congrArg (Writes.apply · _) h).trans hstep.disk.symm))

/-- A machine starts quiet, whatever it finds on its disk. -/
theorem quiet_recoverFromLog {d : ℕ → Block} (h : recoverFromLog a (reboot d) = some l) :
    Quiet a l := by
  unfold recoverFromLog readHead at h
  obtain ⟨l₁, hl₁, hl⟩ := Option.bind_eq_some_iff.mp h
  obtain ⟨lh, -, rfl⟩ := Option.map_eq_some_iff.mp hl₁
  obtain rfl := Option.some.inj hl
  have he := emits_writeHead a { installTrans a { reboot d with lh } with lh := [] }
  have hsame : (installTrans a { reboot d with lh }).buf = (installTrans a { reboot d with lh }).disk :=
    buf_eq_disk_installTrans rfl
  refine ⟨rfl, ?_, ?_⟩
  · exact he.buf.trans ((congrArg (Writes.apply · _) hsame).trans he.disk.symm)
  · rw [he.disk, Writes.apply_cons, Writes.apply_nil, update_self]
    exact decodeHead_encodeHead_nil _

/-- A commit leaves the log quiet. -/
theorem quiet_commit (hhead : decodeHead (l.disk a.start) = some []) (h : Fits a l.lh)
    (hbuf : ∀ b ∉ l.lh, l.buf b = l.disk b) : Quiet a (l.commit a) := by
  by_cases hpos : 0 < l.lh.length
  · obtain ⟨hemits, hlh⟩ := emits_commit h hpos
    refine ⟨hlh, ?_, ?_⟩
    · rw [hemits.buf, hemits.disk]
      refine Writes.apply_congr (fun b hb => hbuf b (fun hmem => hb ?_))
      unfold commitWrites
      simp [hmem]
    · rw [hemits.disk]
      unfold commitWrites
      rw [Writes.apply_append, Writes.apply_cons, Writes.apply_nil, update_self]
      exact decodeHead_encodeHead_nil _
  · have hnil : l.lh = [] := List.eq_nil_of_length_eq_zero (by omega)
    rw [show l.commit a = l from if_neg hpos]
    exact ⟨hnil, funext (fun b => hbuf b (hnil ▸ List.not_mem_nil)), hhead⟩

/-- **The log of a machine that is up**: it has recovered from some disk,
and committed any number of transactions since. -/
inductive Up (a : LogArea) : Log → Prop
  | recovered {d : ℕ → Block} {l : Log} (h : recoverFromLog a (reboot d) = some l) : Up a l
  | committed {l l' : Log} {ws : List (ℕ × Block)} (h : Up a l) (hhome : ∀ w ∈ ws, a.Home w.1)
      (hl : l.logWrites a ws = some l') : Up a (l'.commit a)

/-- What the calls of a transaction leave, from a quiet log. -/
theorem Quiet.logWrites (h : Quiet a l) (hhome : ∀ w ∈ ws, a.Home w.1)
    (hl : l.logWrites a ws = some l') :
    l'.disk = l.disk ∧ l'.buf = Writes.apply l.disk ws ∧ Fits a l'.lh
      ∧ decodeHead (l'.disk a.start) = some [] ∧ ∀ b ∉ l'.lh, l'.buf b = l'.disk b := by
  obtain ⟨hfits, hdisk, -, hbuf, hmem⟩ := logWrites_spec (h.lh ▸ fits_nil a) hhome hl
  rw [h.buf] at hbuf
  refine ⟨hdisk, hbuf, hfits, hdisk ▸ h.head, fun b hb => ?_⟩
  rw [hbuf, hdisk]
  exact Writes.apply_of_notMem (fun hws => hb ((hmem b).mpr (.inr hws)))

theorem Up.quiet (h : Up a l) : Quiet a l := by
  induction h with
  | recovered h => exact quiet_recoverFromLog h
  | committed _ hhome hl ih =>
    obtain ⟨-, -, hfits, hhead, hoff⟩ := ih.logWrites hhome hl
    exact quiet_commit hhead hfits hoff

/-- **A transaction survives a crash whole or not at all.** The calls of
`log_write` between two commits put `ws` into the buffers; the machine
stops after `k` block writes of the commit, and then stops again in any
number of recoveries. The first recovery that completes leaves every home
block as before the transaction, or every one as after it, the ones the
transaction did not log unchanged, and an empty header. -/
theorem recoverAfter_commit {l' : Log} {ws : List (ℕ × Block)} (h : Up a l)
    (hhome : ∀ w ∈ ws, a.Home w.1) (hl : l.logWrites a ws = some l') (k : ℕ) (ks : List ℕ) :
    ∃ d, recoverAfter a ks (stopped k l' (l'.commit a)) = some d
      ∧ ((∀ b, ¬ a.Contains b → d b = l.disk b)
        ∨ ∀ b, ¬ a.Contains b → d b = Writes.apply l.disk ws b)
      ∧ (∀ b, ¬ a.Contains b → b ∉ ws.map Prod.fst → d b = l.disk b)
      ∧ (d a.start).word 0 = 0 := by
  obtain ⟨hdisk, hbuf, hfits, hhead, hoff⟩ := h.quiet.logWrites hhome hl
  obtain ⟨hold, hnew⟩ := recoverable_commit hhead hfits hoff k
  by_cases hk : k ≤ l'.lh.length
  · obtain ⟨d, hd, hhomes, hzero⟩ := recoverAfter_eq_some (hold hk) ks
    rw [hdisk] at hhomes
    exact ⟨d, hd, .inl hhomes, fun b hb _ => hhomes b hb, hzero⟩
  · obtain ⟨d, hd, hhomes, hzero⟩ := recoverAfter_eq_some (hnew (Nat.lt_of_not_le hk)) ks
    rw [hbuf] at hhomes
    exact ⟨d, hd, .inr hhomes,
      fun b hb hws => (hhomes b hb).trans (Writes.apply_of_notMem hws), hzero⟩

/-- A zeroed disk: there is nothing to recover. -/
theorem recoverFromLog_zero (a : LogArea) :
    recoverFromLog a (reboot (fun _ => Block.zero))
      = some (writeHead a (reboot (fun _ => Block.zero))) := by
  have hdecode : decodeHead Block.zero = some [] := by decide
  unfold recoverFromLog readHead
  rw [show (reboot (fun _ => Block.zero)).buf a.start = Block.zero from rfl, hdecode]
  rfl

/-- Two blocks are logged on a zeroed disk, and the recovery is itself
interrupted. Both blocks are old when the machine stops before the write of
the header, and both are new when it stops after it. -/
theorem recoverAfter_commit_zero :
    ∃ l l' : Log, Up ⟨2, 30⟩ l
      ∧ l.logWrites ⟨2, 30⟩ [(100, fun _ => 1), (101, fun _ => 2)] = some l'
      ∧ (∃ d, recoverAfter ⟨2, 30⟩ [1] (stopped 2 l' (l'.commit ⟨2, 30⟩)) = some d
        ∧ d 100 = Block.zero ∧ d 101 = Block.zero)
      ∧ ∃ d, recoverAfter ⟨2, 30⟩ [1] (stopped 3 l' (l'.commit ⟨2, 30⟩)) = some d
        ∧ d 100 = (fun _ => 1) ∧ d 101 = fun _ => 2 := by
  have hboot := recoverFromLog_zero ⟨2, 30⟩
  have hhome : ∀ w ∈ [(100, (fun _ => 1 : Block)), (101, fun _ => 2)], LogArea.Home ⟨2, 30⟩ w.1 := by
    decide
  refine ⟨_, _, .recovered hboot, rfl, ?_, ?_⟩
  -- one byte of block 100 tells which of the two it is
  · obtain ⟨d, hd, hhomes, -⟩ := recoverAfter_commit (.recovered hboot) hhome rfl 2 [1]
    have hbyte : (some d).map (fun d => (d 100).byte 0) = some 0 := hd ▸ by decide +kernel
    refine ⟨d, hd, ?_⟩
    rcases hhomes with h | h
    · exact ⟨h 100 (by decide), h 101 (by decide)⟩
    · rw [Option.map_some, h 100 (by decide)] at hbyte
      exact absurd hbyte (by decide)
  · obtain ⟨d, hd, hhomes, -⟩ := recoverAfter_commit (.recovered hboot) hhome rfl 3 [1]
    have hbyte : (some d).map (fun d => (d 100).byte 0) = some 1 := hd ▸ by decide +kernel
    refine ⟨d, hd, ?_⟩
    rcases hhomes with h | h
    · rw [Option.map_some, h 100 (by decide)] at hbyte
      exact absurd hbyte (by decide)
    · exact ⟨h 100 (by decide), h 101 (by decide)⟩

end Log

end Xv6
