import Xv6.Lib.Separated
import Xv6.User.Ulib

/-!
# Where the shell looks for a command

The `EXEC` case of `runcmd`, if every `exec` fails: after the name as it is, the shell tries
the name in the directories that are listed in the file `/path`, each one followed by a colon.
It reads the file byte by byte into the array `strPath`, puts the name behind the directory at
the colon, and begins anew at the start of the array. The array is never cleared, and nothing
compares the index with its size.

A name that is tried is what is in the array up to the first `NUL`. So a directory with a
`NUL` in it is cut there, and a directory that is too long is written past the end.
-/

namespace Xv6

namespace PathSearch

open Separated Ulib

/-- `sizeof(strPath)`. -/
def STRPATH : ℕ := 512

/-- `':'`. -/
def COLON : UInt8 := 0x3A

/-! ## The program -/

/-- `strPath[i] = b`; there is nothing to say after a write past the end. -/
def put (m : Memory) (i : ℕ) (b : UInt8) : Option Memory :=
  if i < STRPATH then some (Function.update m i b) else none

/-- `strcpy(strPath + i, t)`. -/
def strcpy (m : Memory) (i : ℕ) : List UInt8 → Option Memory
  | [] => put m i 0
  | c :: t => do
    let m ← put m i c
    strcpy m (i + 1) t

/-- The name that `strPath` stands for. -/
def name (m : Memory) : List UInt8 := cstr (m.bytes 0 STRPATH)

/-- The loop over the bytes of `/path`: the names that are tried. -/
def search (myCmd : List UInt8) : List UInt8 → Memory → ℕ → Option (List (List UInt8))
  | [], _, _ => some []
  | data :: content, strPath, indexargv =>
    if data ≠ COLON then do
      let strPath ← put strPath indexargv data
      search myCmd content strPath (indexargv + 1)
    else do
      let strPath ← strcpy strPath indexargv myCmd
      let tried := name strPath
      let strPath ← strcpy strPath 0 []
      let rest ← search myCmd content strPath 0
      return tried :: rest

/-- **The `EXEC` case of `runcmd`**, for the bytes that are read from `/path` and what is in
`strPath` before. -/
def runcmd (myCmd content : List UInt8) (strPath : Memory) : Option (List (List UInt8)) := do
  let rest ← search myCmd content strPath 0
  return myCmd :: rest

/-! ## The array -/

variable {myCmd content pre : List UInt8} {m : Memory}

theorem strcpy_eq (m : Memory) (i : ℕ) (t : List UInt8) :
    strcpy m i t = if i + t.length < STRPATH then some (m.store i (t ++ [0])) else none := by
  induction t generalizing m i with
  | nil =>
    unfold strcpy put
    rw [List.length_nil, Nat.add_zero, List.nil_append, Memory.store_cons, Memory.store_nil]
  | cons c t ih =>
    unfold strcpy put
    rw [List.length_cons]
    split
    · show strcpy _ _ t = _
      rw [ih, List.cons_append, Memory.store_cons,
        show i + 1 + t.length = i + (t.length + 1) by omega]
    · next h => rw [if_neg (by omega), Option.bind_eq_bind, Option.bind_none]

/-- The name is what has been put together. -/
theorem name_store (hpre : m.bytes 0 pre.length = pre)
    (hfits : pre.length + myCmd.length < STRPATH) :
    name (m.store pre.length (myCmd ++ [0])) = cstr (pre ++ myCmd) := by
  have hlen : (myCmd ++ [0]).length = myCmd.length + 1 := List.length_append
  unfold name
  rw [show STRPATH = pre.length
      + ((myCmd ++ [0]).length + (STRPATH - pre.length - (myCmd ++ [0]).length)) by omega,
    Memory.bytes_add, Memory.bytes_add, Memory.bytes_store_of_le (by omega), hpre, Nat.zero_add,
    Memory.bytes_store, List.append_assoc myCmd, List.singleton_append, ← List.append_assoc,
    cstr_append_zero]

/-- **The writes stay in the array** `strPath`: each directory of `/path` that a colon ends has room
for the command and the zero after it, and what follows the last colon fits. -/
def Room (myCmd content : List UInt8) : Prop :=
  (∀ e ∈ finished COLON content, e.length + myCmd.length < STRPATH) ∧
    (unfinished COLON content).length ≤ STRPATH

instance (myCmd content : List UInt8) : Decidable (Room myCmd content) :=
  inferInstanceAs (Decidable (_ ∧ _))

/-- A directory that is longer than the array. -/
theorem not_room {w : List UInt8} (hpre : COLON ∉ pre) (hlen : STRPATH < pre.length) :
    ¬ Room myCmd (pre ++ w) := by
  rintro ⟨hfin, hunf⟩
  by_cases hw : COLON ∈ w
  · obtain ⟨l, v, rfl, hl⟩ := List.eq_append_cons_of_mem hw
    rw [← List.append_assoc,
      finished_record (fun h => (List.mem_append.mp h).elim hpre hl)] at hfin
    have hlt := hfin _ List.mem_cons_self
    rw [List.length_append] at hlt
    omega
  · rw [unfinished_of_notMem (fun h => (List.mem_append.mp h).elim hpre hw),
      List.length_append] at hunf
    omega

/-- **The loop**, with the bytes of a directory that have been read. -/
theorem search_eq (hpre : m.bytes 0 pre.length = pre) (hcolon : COLON ∉ pre)
    (hlen : pre.length ≤ STRPATH) : search myCmd content m pre.length
      = if Room myCmd (pre ++ content) then
          some ((finished COLON (pre ++ content)).map (fun e => cstr (e ++ myCmd)))
        else none := by
  induction content generalizing m pre with
  | nil =>
    have hroom : Room myCmd (pre ++ []) := by
      rw [List.append_nil]
      refine ⟨?_, ?_⟩
      · rw [finished_of_notMem hcolon]
        exact fun _ he => (nomatch he)
      · rw [unfinished_of_notMem hcolon]
        exact hlen
    rw [if_pos hroom, List.append_nil, finished_of_notMem hcolon]
    rfl
  | cons data content ih =>
    unfold search
    by_cases hdata : data = COLON
    · rw [if_neg (fun h => h hdata), hdata, finished_record hcolon, List.map_cons, strcpy_eq]
      have hroom : Room myCmd (pre ++ COLON :: content) ↔
          pre.length + myCmd.length < STRPATH ∧ Room myCmd content := by
        unfold Room
        rw [finished_record hcolon, unfinished_record hcolon, List.forall_mem_cons, and_assoc]
      by_cases hfits : pre.length + myCmd.length < STRPATH
      · rw [if_pos hfits, Option.bind_eq_bind, Option.bind_some, name_store hpre hfits, strcpy_eq,
          if_pos (by decide)]
        have hnext := @ih [] ((m.store pre.length (myCmd ++ [0])).store 0 [0]) rfl
          List.not_mem_nil (Nat.zero_le _)
        rw [List.length_nil, List.nil_append] at hnext
        rw [List.nil_append, Option.bind_eq_bind, Option.bind_some, hnext]
        by_cases hrest : Room myCmd content
        · rw [if_pos hrest, if_pos (hroom.mpr ⟨hfits, hrest⟩)]
          rfl
        · rw [if_neg hrest, if_neg (fun h => hrest (hroom.mp h).2)]
          rfl
      · rw [if_neg hfits, if_neg (fun h => hfits (hroom.mp h).1)]
        rfl
    · have hcolon' : COLON ∉ pre ++ [data] := by
        rw [List.mem_append, List.mem_singleton, not_or]
        exact ⟨hcolon, Ne.symm hdata⟩
      have hlen' : (pre ++ [data]).length = pre.length + 1 := List.length_append
      rw [if_pos hdata, put, ← List.singleton_append, ← List.append_assoc]
      by_cases hlt : pre.length < STRPATH
      · rw [if_pos hlt, Option.bind_eq_bind, Option.bind_some, ← hlen']
        refine ih ?_ hcolon' (by omega)
        rw [hlen', Memory.bytes_add, Memory.bytes_update_of_ge (by omega), hpre, Memory.bytes_one,
          Nat.zero_add, Function.update_self]
      · rw [if_neg hlt, if_neg (not_room hcolon' (by omega))]
        rfl

/-- The loop, from its start. -/
theorem search_start (myCmd content : List UInt8) (strPath : Memory) :
    search myCmd content strPath 0 = if Room myCmd content then
        some ((finished COLON content).map (fun e => cstr (e ++ myCmd)))
      else none :=
  search_eq (m := strPath) rfl List.not_mem_nil (Nat.zero_le _)

/-! ## The result -/

/-- **The shell tries what is listed, within its array**, if and only if no directory is too
long, the bytes after the last colon included, and no directory has a `NUL` in it. -/
theorem runcmd_eq_iff (hcmd : 0 ∉ myCmd) (content : List UInt8) (strPath : Memory) :
    runcmd myCmd content strPath = some (myCmd :: (finished COLON content).map (· ++ myCmd)) ↔
      (∀ e ∈ finished COLON content, e.length + myCmd.length < STRPATH ∧ 0 ∉ e) ∧
        (unfinished COLON content).length ≤ STRPATH := by
  have hnames : ∀ e : List UInt8, cstr (e ++ myCmd) = e ++ myCmd ↔ 0 ∉ e := by
    intro e
    rw [cstr_eq_self_iff, List.mem_append, not_or]
    exact and_iff_left hcmd
  unfold runcmd
  rw [search_start]
  by_cases hroom : Room myCmd content
  · rw [if_pos hroom, Option.bind_eq_bind, Option.bind_some]
    show some (_ :: _) = some (_ :: _) ↔ _
    rw [Option.some_inj, List.cons_inj_right, List.map_inj_left]
    constructor
    · exact fun h => ⟨fun e he => ⟨hroom.1 e he, (hnames e).mp (h e he)⟩, hroom.2⟩
    · exact fun h e he => (hnames e).mpr (h.1 e he).2
  · rw [if_neg hroom]
    refine iff_of_false nofun (fun h => hroom ⟨fun e he => (h.1 e he).1, h.2⟩)

/-- `/:/bin/:`, and the command `ls`. -/
theorem runcmd_eq_iff_ls : (0 : UInt8) ∉ ([0x6C, 0x73] : List UInt8) ∧
    (runcmd [0x6C, 0x73] [0x2F, COLON, 0x2F, 0x62, 0x69, 0x6E, 0x2F, COLON] (fun _ => 0)
        = some ([0x6C, 0x73]
            :: (finished COLON [0x2F, COLON, 0x2F, 0x62, 0x69, 0x6E, 0x2F, COLON]).map
              (· ++ [0x6C, 0x73])) ↔
      (∀ e ∈ finished COLON [0x2F, COLON, 0x2F, 0x62, 0x69, 0x6E, 0x2F, COLON],
        e.length + 2 < STRPATH ∧ 0 ∉ e) ∧
      (unfinished COLON [0x2F, COLON, 0x2F, 0x62, 0x69, 0x6E, 0x2F, COLON]).length ≤ STRPATH) :=
  ⟨by decide, runcmd_eq_iff (by decide) _ _⟩

/-- **A directory of 511 letters** and the command `ls`: the write of its second letter is
past the end. -/
theorem runcmd_overflow :
    runcmd [0x6C, 0x73] (List.replicate 511 0x61 ++ [COLON]) (fun _ => 0) = none := by
  have hcolon : COLON ∉ List.replicate 511 0x61 := fun h =>
    absurd (List.eq_of_mem_replicate h) (by decide)
  have hroom : ¬ Room [0x6C, 0x73] (List.replicate 511 0x61 ++ [COLON]) := by
    rintro ⟨hfin, -⟩
    rw [finished_record hcolon] at hfin
    have hlt := hfin _ List.mem_cons_self
    rw [List.length_replicate] at hlt
    exact absurd hlt (by decide)
  unfold runcmd
  rw [search_start, if_neg hroom]
  rfl

end PathSearch

end Xv6
