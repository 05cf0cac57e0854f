import Xv6.Lib.Machine
import Xv6.Fs.Inode

/-!
# Directories

The part of `fs.c` for directories, and the steps of the file system: the
functions that other files call, as complete operations, in any order that
the callers keep to. A caller works on an inode it has locked, drops only
references it has, and locks inodes whose numbers are in the superblock's
range.
-/

namespace Xv6

/-! ## Strings -/

/-- `strncmp`. -/
def strncmp : ℕ → (ℕ → UInt8) → (ℕ → UInt8) → ℤ
  | 0, _, _ => 0
  | n + 1, p, q =>
    if p 0 ≠ 0 ∧ p 0 = q 0 then strncmp n (fun i => p (i + 1)) (fun i => q (i + 1))
    else (p 0).toNat - (q 0).toNat

/-- `strncpy`: the `n` bytes it stores. -/
def strncpy : (ℕ → UInt8) → ℕ → List UInt8
  | _, 0 => []
  | t, n + 1 => if t 0 ≠ 0 then t 0 :: strncpy (fun i => t (i + 1)) n else List.replicate (n + 1) 0

/-- Bytes of a name. -/
def DIRSIZ : ℕ := 14

/-- Bytes of a directory entry. -/
def DIRENT : ℕ := 2 + DIRSIZ

/-- `namecmp`. -/
def namecmp (s t : ℕ → UInt8) : ℤ := strncmp DIRSIZ s t

/-- `de.inum`. -/
def direntInum (de : List UInt8) : ℕ := (de.getD 0 0).toNat + 2 ^ 8 * (de.getD 1 0).toNat

/-- `de.name`. -/
def direntName (de : List UInt8) : ℕ → UInt8 := fun i => de.getD (i + 2) 0

/-- The bytes of a directory entry. -/
def direntBytes (name : ℕ → UInt8) (inum : ℕ) : List UInt8 :=
  UInt8.ofNat inum :: UInt8.ofNat (inum / 2 ^ 8) :: strncpy name DIRSIZ

/-- The offsets of the loops over a directory. -/
def direntOffs (size : ℕ) : List ℕ := (List.range ((size + (DIRENT - 1)) / DIRENT)).map (DIRENT * ·)

namespace Fs

/-- The loop of `dirlookup`. -/
def dirlookupLoop (dp : Ip) (name : ℕ → UInt8) : List ℕ → FsM (Option (Ip × ℕ))
  | [] => pure none
  | off :: offs => do
    let (n, de) ← readi dp off DIRENT
    if n ≠ DIRENT then throw .dirlookupRead
    else if direntInum de = 0 then dirlookupLoop dp name offs
    else if namecmp name (direntName de) = 0 then do
      let ip ← iget (direntInum de)
      return some (ip, off)
    else dirlookupLoop dp name offs

/-- `dirlookup`: the inode and the offset of its entry. -/
def dirlookup (dp : Ip) (name : ℕ → UInt8) : FsM (Option (Ip × ℕ)) := do
  let s ← get
  if (s.icache dp).type ≠ T_DIR then throw .notDir
  else dirlookupLoop dp name (direntOffs (s.icache dp).size)

/-- The loop of `dirlink`: the offset of an empty entry, or of the end. -/
def dirlinkLoop (dp : Ip) : List ℕ → FsM (Option ℕ)
  | [] => pure none
  | off :: offs => do
    let (n, de) ← readi dp off DIRENT
    if n ≠ DIRENT then throw .dirlinkRead
    else if direntInum de = 0 then return some off
    else dirlinkLoop dp offs

/-- `dirlink`. -/
def dirlink (dp : Ip) (name : ℕ → UInt8) (inum : ℕ) : FsM ℤ := do
  match ← dirlookup dp name with
  | some (ip, _) => do
    iput ip
    return -1
  | none => do
    let s ← get
    let offs := direntOffs (s.icache dp).size
    let off ← dirlinkLoop dp offs
    let n ← writei dp (direntBytes name inum) (off.getD (DIRENT * offs.length))
    if n ≠ DIRENT then throw .dirlink
    else return 0

end Fs

/-! ## The steps -/

/-- What a step returns. -/
inductive FsRet
  | unit
  | ip (ip : Ip)
  | int (n : ℤ)
  | data (n : ℤ) (data : List UInt8)
  | entry (entry : Option (Ip × ℕ))

/-- The functions that other files call, with their arguments. A run of the file system is a list
of these. -/
inductive FsEvent
  | iget (inum : ℕ)
  | idup (ip : Ip)
  | ialloc (type : Int16)
  | ilock (ip : Ip)
  | iunlock (ip : Ip)
  | iput (ip : Ip)
  | iupdate (ip : Ip) (major minor nlink : Int16)
  | readi (ip : Ip) (off n : ℕ)
  | writei (ip : Ip) (src : List UInt8) (off : ℕ)
  | dirlookup (dp : Ip) (name : ℕ → UInt8)
  | dirlink (dp : Ip) (name : ℕ → UInt8) (inum : ℕ)

namespace Fs

/-- What the callers keep to. -/
def Allowed (s : Fs) : FsEvent → Prop
  | .iget inum => inum < s.sb.ninodes
  | .ialloc type => type ≠ 0
  | .ilock ip => (s.icache ip).inum < s.sb.ninodes
  | .iunlock _ => True
  | .idup ip | .iput ip => 0 < (s.icache ip).ref
  | .iupdate ip _ _ _ | .dirlookup ip _ | .dirlink ip _ _ => (s.icache ip).locked = true
  | .readi ip off n => (s.icache ip).locked = true ∧ off < 2 ^ 32 ∧ n < 2 ^ 32
  | .writei ip src off => (s.icache ip).locked = true ∧ off < 2 ^ 32 ∧ src.length < 2 ^ 32

instance (s : Fs) : (e : FsEvent) → Decidable (s.Allowed e)
  | .iget inum => inferInstanceAs (Decidable (inum < s.sb.ninodes))
  | .ialloc type => inferInstanceAs (Decidable (type ≠ 0))
  | .ilock ip => inferInstanceAs (Decidable ((s.icache ip).inum < s.sb.ninodes))
  | .iunlock _ => inferInstanceAs (Decidable True)
  | .idup ip | .iput ip => inferInstanceAs (Decidable (0 < (s.icache ip).ref))
  | .iupdate ip _ _ _ | .dirlookup ip _ | .dirlink ip _ _ =>
    inferInstanceAs (Decidable ((s.icache ip).locked = true))
  | .readi _ _ _ | .writei _ _ _ => inferInstanceAs (Decidable (_ ∧ _ ∧ _))

/-- A call. `iupdate` is called after a change of the fields that system
calls set. -/
def call : FsEvent → FsM FsRet
  | .iget inum => .ip <$> Fs.iget inum
  | .idup ip => do
    Fs.idup ip
    return .unit
  | .ialloc type => .ip <$> Fs.ialloc type
  | .ilock ip => do
    Fs.ilock ip
    return .unit
  | .iunlock ip => do
    Fs.iunlock ip
    return .unit
  | .iput ip => do
    Fs.iput ip
    return .unit
  | .iupdate ip major minor nlink => do
    modify (setInode ip (fun i => { i with major := major, minor := minor, nlink := nlink }))
    Fs.iupdate ip
    return .unit
  | .readi ip off n => do
    let (r, data) ← Fs.readi ip off n
    return .data r data
  | .writei ip src off => .int <$> Fs.writei ip src off
  | .dirlookup dp name => .entry <$> Fs.dirlookup dp name
  | .dirlink dp name inum => .int <$> Fs.dirlink dp name inum

/-- **One step.** -/
def step (s : Fs) (e : FsEvent) : Except FsHalt (FsRet × Fs) :=
  if s.Allowed e then call e s else .error .disabled

/-- **A run.** -/
def exec (s : Fs) (es : List FsEvent) : Except FsHalt Fs := Machine.exec step s es

end Fs

end Xv6
