import Xv6.Fs.Dir

/-!
# Paths, and the calls on names

The end of `fs.c`, and the system calls of `sysfile.c` that work on names. The
current directory of the caller is an argument. `begin_op` and `end_op`, which
bracket each call, are left out: the calls run one after the other.
-/

namespace Xv6

/-! ## Paths -/

/-- A path, without the zero that ends it. -/
abbrev Path := List UInt8

/-- The separator. -/
def SLASH : UInt8 := 0x2F

/-- The number of the root directory. -/
def ROOTINO : ℕ := 1

/-- An element of a path in a buffer of `DIRSIZ` bytes. What a longer element
before it has left after the zero is never read. -/
def nameOf (elem : List UInt8) : ℕ → UInt8 := fun i => (elem.take DIRSIZ).getD i 0

/-- `skipelem`: the path after the element, and the element. -/
def skipelem (path : Path) : Option (Path × (ℕ → UInt8)) :=
  let path := path.dropWhile (· == SLASH)
  if path.headD 0 = 0 then none
  else
    let elem := path.takeWhile (fun c => c != SLASH && c != 0)
    let path := path.dropWhile (fun c => c != SLASH && c != 0)
    some (path.dropWhile (· == SLASH), nameOf elem)

/-- `"."`. -/
def DOT : ℕ → UInt8 := nameOf [0x2E]

/-- `".."`. -/
def DOTDOT : ℕ → UInt8 := nameOf [0x2E, 0x2E]

namespace Fs

/-- `iunlockput`. -/
def iunlockput (ip : Ip) : FsM PUnit := do
  iunlock ip
  iput ip

/-- The loop of `namex`. Every turn takes an element off the path. -/
def namexLoop (nameiparent : Bool) : ℕ → Path → Ip → FsM (Option (Ip × (ℕ → UInt8)))
  | 0, _, _ => return none
  | turns + 1, path, ip =>
    match skipelem path with
    | none =>
      if nameiparent then do
        iput ip
        return none
      else return some (ip, nameOf [])
    | some (path, name) => do
      ilock ip
      let s ← get
      if (s.icache ip).type ≠ T_DIR then do
        iunlockput ip
        return none
      else if nameiparent ∧ path.headD 0 = 0 then do
        -- stop one level early
        iunlock ip
        return some (ip, name)
      else
        match ← dirlookup ip name with
        | none => do
          iunlockput ip
          return none
        | some (next, _) => do
          iunlockput ip
          namexLoop nameiparent turns path next

/-- `namex`: the inode, and the last element. -/
def namex (cwd : Ip) (path : Path) (nameiparent : Bool) : FsM (Option (Ip × (ℕ → UInt8))) := do
  let ip ← if path.headD 0 = SLASH then iget ROOTINO else do
    idup cwd
    pure cwd
  namexLoop nameiparent (path.length + 1) path ip

/-- `namei`. -/
def namei (cwd : Ip) (path : Path) : FsM (Option Ip) := do
  let r ← namex cwd path false
  return r.map Prod.fst

/-- `nameiparent`. -/
def nameiparent (cwd : Ip) (path : Path) : FsM (Option (Ip × (ℕ → UInt8))) := namex cwd path true

/-! ## Links -/

/-- `ip->nlink += n; iupdate(ip);` -/
def addLinks (ip : Ip) (n : Int16) : FsM PUnit := do
  modify (setInode ip (fun i => { i with nlink := i.nlink + n }))
  iupdate ip

/-- `bad` in `sys_link`. -/
def sysLinkBad (ip : Ip) : FsM ℤ := do
  ilock ip
  addLinks ip (-1)
  iunlockput ip
  return -1

/-- `sys_link`. -/
def sysLink (cwd : Ip) (old new : Path) : FsM ℤ := do
  match ← namei cwd old with
  | none => return -1
  | some ip => do
    ilock ip
    let s ← get
    if (s.icache ip).type = T_DIR then do
      iunlockput ip
      return -1
    else do
      addLinks ip 1
      iunlock ip
      match ← nameiparent cwd new with
      | none => sysLinkBad ip
      | some (dp, name) => do
        ilock dp
        let s ← get
        if (← dirlink dp name (s.icache ip).inum) < 0 then do
          iunlockput dp
          sysLinkBad ip
        else do
          iunlockput dp
          iput ip
          return 0

/-- The loop of `isdirempty`. -/
def isdiremptyLoop (dp : Ip) : List ℕ → FsM Bool
  | [] => return true
  | off :: offs => do
    let (n, de) ← readi dp off DIRENT
    if n ≠ DIRENT then throw .isdirempty
    else if direntInum de ≠ 0 then return false
    else isdiremptyLoop dp offs

/-- `isdirempty`: the loop begins with the third entry. -/
def isdirempty (dp : Ip) : FsM Bool := do
  let s ← get
  isdiremptyLoop dp ((direntOffs (s.icache dp).size).drop 2)

/-- `sys_unlink` from the entry of `ip` in `dp` on. -/
def sysUnlinkEntry (dp ip : Ip) (off : ℕ) : FsM ℤ := do
  let n ← writei dp (List.replicate DIRENT 0) off
  if n ≠ DIRENT then throw .unlinkWritei
  else do
    let s ← get
    if (s.icache ip).type = T_DIR then addLinks dp (-1)
    iunlockput dp
    addLinks ip (-1)
    iunlockput ip
    return 0

/-- `sys_unlink`. -/
def sysUnlink (cwd : Ip) (path : Path) : FsM ℤ := do
  match ← nameiparent cwd path with
  | none => return -1
  | some (dp, name) => do
    ilock dp
    if namecmp name DOT = 0 ∨ namecmp name DOTDOT = 0 then do
      iunlockput dp
      return -1
    else
      match ← dirlookup dp name with
      | none => do
        iunlockput dp
        return -1
      | some (ip, off) => do
        ilock ip
        let s ← get
        if (s.icache ip).nlink < 1 then throw .unlinkNlink
        else do
          let removable ← if (s.icache ip).type = T_DIR then isdirempty ip else pure true
          if removable then sysUnlinkEntry dp ip off
          else do
            iunlockput ip
            iunlockput dp
            return -1

/-! ## New inodes -/

/-- `create` when the name is new: the inode, with its dots if it is a
directory, and its entry in `dp`. -/
def createNew (dp : Ip) (name : ℕ → UInt8) (type major minor : Int16) : FsM Ip := do
  let ip ← ialloc type
  ilock ip
  modify (setInode ip (fun i => { i with major := major, minor := minor, nlink := 1 }))
  iupdate ip
  if type = T_DIR then do
    addLinks dp 1
    let s ← get
    if (← dirlink ip DOT (s.icache ip).inum) < 0 then throw .createDots
    else if (← dirlink ip DOTDOT (s.icache dp).inum) < 0 then throw .createDots
  let s ← get
  if (← dirlink dp name (s.icache ip).inum) < 0 then throw .createDirlink
  else do
    iunlockput dp
    return ip

/-- `create`: the inode, locked. -/
def create (cwd : Ip) (path : Path) (type major minor : Int16) : FsM (Option Ip) := do
  match ← nameiparent cwd path with
  | none => return none
  | some (dp, name) => do
    ilock dp
    match ← dirlookup dp name with
    | some (ip, _) => do
      iunlockput dp
      ilock ip
      let s ← get
      if type = T_FILE ∧ (s.icache ip).type = T_FILE then return some ip
      else do
        iunlockput ip
        return none
    | none => some <$> createNew dp name type major minor

/-- `O_RDONLY`. -/
def O_RDONLY : ℕ := 0x000

/-- `O_WRONLY`. -/
def O_WRONLY : ℕ := 0x001

/-- `O_RDWR`. -/
def O_RDWR : ℕ := 0x002

/-- `O_CREATE`. -/
def O_CREATE : ℕ := 0x200

/-- `sys_open` up to the inode, which is locked. -/
def openInode (cwd : Ip) (path : Path) (omode : ℕ) : FsM (Option Ip) :=
  if omode &&& O_CREATE ≠ 0 then create cwd path T_FILE 0 0
  else do
    match ← namei cwd path with
    | none => return none
    | some ip => do
      ilock ip
      let s ← get
      if (s.icache ip).type = T_DIR ∧ omode ≠ O_RDONLY then do
        iunlockput ip
        return none
      else return some ip

/-- `sys_mkdir`, with the device numbers `0`, and `sys_mknod`. -/
def sysCreate (cwd : Ip) (path : Path) (type major minor : Int16) : FsM ℤ := do
  match ← create cwd path type major minor with
  | none => return -1
  | some ip => do
    iunlockput ip
    return 0

/-- `sys_mkdir`. -/
def sysMkdir (cwd : Ip) (path : Path) : FsM ℤ := sysCreate cwd path T_DIR 0 0

/-- `sys_mknod`. -/
def sysMknod (cwd : Ip) (path : Path) (major minor : Int16) : FsM ℤ :=
  sysCreate cwd path T_DEV major minor

/-- `sys_chdir`: what it returns, and the current directory after it. -/
def sysChdir (cwd : Ip) (path : Path) : FsM (ℤ × Ip) := do
  match ← namei cwd path with
  | none => return (-1, cwd)
  | some ip => do
    ilock ip
    let s ← get
    if (s.icache ip).type ≠ T_DIR then do
      iunlockput ip
      return (-1, cwd)
    else do
      iunlock ip
      iput cwd
      return (0, ip)

end Fs

end Xv6
