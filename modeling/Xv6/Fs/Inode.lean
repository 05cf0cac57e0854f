import Xv6.Disk.Layout
import Mathlib.Data.List.FinRange

/-!
# Blocks and inodes

`fs.c` up to the directories: the block allocator, the inode cache, and the
contents of inodes. The functions run one at a time, so a buffer is the block
itself, and what `bread`, a change, `log_write` and `brelse` do together is
one `write`, which also notes that the block was logged. A process that has
to wait for a sleep-lock waits for ever. There is one device.
-/

namespace Xv6

/-- Entries of the inode cache. -/
def NINODE : ℕ := 50

theorem NINODE_pos : 0 < NINODE := by decide

/-- Most major device numbers. -/
def NDEV : ℤ := 10

/-- A directory. -/
def T_DIR : Int16 := 1

/-- A file. -/
def T_FILE : Int16 := 2

/-- A device. -/
def T_DEV : Int16 := 3

/-- A pointer to an entry of the inode cache. -/
abbrev Ip := Fin NINODE

/-- **An entry of the inode cache**: a copy of a dinode, and what is only in
memory. -/
structure Inode extends Dinode where
  inum : ℕ
  ref : ℤ
  locked : Bool
  valid : Bool

/-- The functions of a device: what a read of `n` bytes returns and stores,
and what a write returns. -/
structure Device where
  read : Option (ℕ → ℤ × List UInt8)
  write : Option (List UInt8 → ℤ)

/-- **The state of the file system**: the disk as the buffer cache shows it, the superblock, the
inode cache, the device table, and the blocks given to `log_write` so far, in order. -/
structure Fs where
  disk : Disk
  sb : Superblock
  icache : Ip → Inode
  devsw : ℕ → Device
  logged : List ℕ

/-- The panics of `fs.c` and of the calls in `sysfile.c`, a wait that nothing
ends, and a call that its callers do not make. -/
inductive FsHalt
  | outOfBlocks
  | freeingFreeBlock
  | noDinodes
  | noInodes
  | ilock
  | noType
  | iunlock
  | outOfRange
  | notDir
  | dirlookupRead
  | dirlinkRead
  | dirlink
  | isdirempty
  | unlinkNlink
  | unlinkWritei
  | createDots
  | createDirlink
  | waiting
  | disabled
  deriving DecidableEq

/-- A function of `fs.c`. -/
abbrev FsM := StateT Fs (Except FsHalt)

namespace Fs

/-- Change a block and log it. -/
def writeBlock (b : ℕ) (f : Block → Block) (s : Fs) : Fs :=
  { s with
    disk := Function.update s.disk b (f (s.disk b))
    logged := s.logged ++ [b] }

/-- Change an entry of the inode cache. -/
def setInode (ip : Ip) (f : Inode → Inode) (s : Fs) : Fs :=
  { s with icache := Function.update s.icache ip (f (s.icache ip)) }

/-! ## Blocks -/

/-- `readsb` into `sb`. -/
def readsb (s : Fs) : Fs := { s with sb := (s.disk 1).superblock }

/-- `bzero`. -/
def bzero (b : ℕ) : FsM PUnit := modify (writeBlock b (fun _ => Block.zero))

/-- `balloc`: the two loops go through the blocks in order. -/
def balloc : FsM ℕ := do
  let s ← get
  match (List.range s.sb.size).find? (fun b => !s.sb.inUse s.disk b) with
  | none => throw .outOfBlocks
  | some b => do
    modify (writeBlock (s.sb.bblock b) (Block.setBit (b % BPB)))
    bzero b
    return b

/-- `bfree`. -/
def bfree (b : ℕ) : FsM PUnit := do
  modify readsb
  let s ← get
  if s.sb.inUse s.disk b then
    modify (writeBlock (s.sb.bblock b) (Block.clearBit (b % BPB)))
  else throw .freeingFreeBlock

/-! ## The inode cache -/

/-- `iget`. -/
def iget (inum : ℕ) : FsM Ip := do
  let s ← get
  match (List.finRange NINODE).find?
    (fun ip => decide (0 < (s.icache ip).ref ∧ (s.icache ip).inum = inum)) with
  | some ip => do
    modify (setInode ip (fun i => { i with ref := i.ref + 1 }))
    return ip
  | none =>
    match (List.finRange NINODE).find? (fun ip => decide ((s.icache ip).ref = 0)) with
    | none => throw .noInodes
    | some ip => do
      modify (setInode ip (fun i => { i with inum := inum, ref := 1, valid := false }))
      return ip

/-- `idup`. -/
def idup (ip : Ip) : FsM PUnit := modify (setInode ip (fun i => { i with ref := i.ref + 1 }))

/-- `ialloc`. -/
def ialloc (type : Int16) : FsM Ip := do
  let s ← get
  match (List.range' 1 (s.sb.ninodes - 1)).find?
    (fun inum => decide ((s.sb.dinode s.disk inum).type = 0)) with
  | none => throw .noDinodes
  | some inum => do
    modify (writeBlock (s.sb.iblock inum) (Block.setDinode (inum % IPB) (.fresh type)))
    iget inum

/-- `iupdate`. -/
def iupdate (ip : Ip) : FsM PUnit := do
  let s ← get
  let i := s.icache ip
  modify (writeBlock (s.sb.iblock i.inum) (Block.setDinode (i.inum % IPB) i.toDinode))

/-- `acquiresleep(&ip->lock)`. -/
def acquiresleep (ip : Ip) : FsM PUnit := do
  let s ← get
  if (s.icache ip).locked then throw .waiting
  else modify (setInode ip (fun i => { i with locked := true }))

/-- `releasesleep(&ip->lock)`. -/
def releasesleep (ip : Ip) : FsM PUnit := modify (setInode ip (fun i => { i with locked := false }))

/-- `ilock`. -/
def ilock (ip : Ip) : FsM PUnit := do
  let s ← get
  if (s.icache ip).ref < 1 then throw .ilock
  else do
    acquiresleep ip
    let s ← get
    if (s.icache ip).valid then pure ⟨⟩
    else
      let d := s.sb.dinode s.disk (s.icache ip).inum
      if d.type = 0 then throw .noType
      else modify (setInode ip (fun i => { i with toDinode := d, valid := true }))

/-- `iunlock`. -/
def iunlock (ip : Ip) : FsM PUnit := do
  let s ← get
  if (s.icache ip).locked = false ∨ (s.icache ip).ref < 1 then throw .iunlock
  else releasesleep ip

/-! ## Inode contents -/

/-- `ip->addrs[i] = addr`. -/
def setAddr (ip : Ip) (i : Fin (NDIRECT + 1)) (addr : ℕ) : Fs → Fs :=
  setInode ip (fun x => { x with toDinode := x.toDinode.setAddr i addr })

/-- `if((addr = ip->addrs[i]) == 0) ip->addrs[i] = addr = balloc(ip->dev);` -/
def getAddr (ip : Ip) (i : Fin (NDIRECT + 1)) : FsM ℕ := do
  let s ← get
  if (s.icache ip).addrs i = 0 then do
    let addr ← balloc
    modify (setAddr ip i addr)
    return addr
  else return (s.icache ip).addrs i

/-- `bmap`. -/
def bmap (ip : Ip) (bn : ℕ) : FsM ℕ :=
  if h : bn < NDIRECT then getAddr ip (Fin.castSucc ⟨bn, h⟩)
  else if bn - NDIRECT < NINDIRECT then do
    let ind ← getAddr ip (Fin.last NDIRECT)
    let s ← get
    if (s.disk ind).word (bn - NDIRECT) = 0 then do
      let addr ← balloc
      modify (writeBlock ind (fun a => a.setWord (bn - NDIRECT) addr))
      return addr
    else return (s.disk ind).word (bn - NDIRECT)
  else throw .outOfRange

/-- `if(addr) bfree(ip->dev, addr);` -/
def bfreeIf (addr : ℕ) : FsM PUnit := if addr = 0 then pure ⟨⟩ else bfree addr

/-- The first loop of `itrunc`. -/
def itruncDirect (ip : Ip) : FsM PUnit :=
  (List.finRange NDIRECT).forM (fun i => do
    let s ← get
    bfreeIf ((s.icache ip).addrs i.castSucc)
    modify (setAddr ip i.castSucc 0))

/-- The part of `itrunc` for the indirect block. -/
def itruncIndirect (ip : Ip) : FsM PUnit := do
  let s ← get
  let ind := (s.icache ip).addrs (Fin.last NDIRECT)
  if ind = 0 then pure ⟨⟩
  else do
    (List.range NINDIRECT).forM (fun j => do
      let s ← get
      bfreeIf ((s.disk ind).word j))
    bfree ind
    modify (setAddr ip (Fin.last NDIRECT) 0)

/-- `itrunc`. -/
def itrunc (ip : Ip) : FsM PUnit := do
  itruncDirect ip
  itruncIndirect ip
  modify (setInode ip (fun i => { i with size := 0 }))
  iupdate ip

/-- The part of `iput` that frees the inode. -/
def iputFree (ip : Ip) : FsM PUnit := do
  let s ← get
  if (s.icache ip).valid ∧ (s.icache ip).nlink = 0 ∧ (s.icache ip).ref = 1 then do
    itrunc ip
    modify (setInode ip (fun i => { i with type := 0 }))
    iupdate ip
    modify (setInode ip (fun i => { i with valid := false }))
  else pure ⟨⟩

/-- `iput`. -/
def iput (ip : Ip) : FsM PUnit := do
  acquiresleep ip
  iputFree ip
  releasesleep ip
  modify (setInode ip (fun i => { i with ref := i.ref - 1 }))

/-- `devsw[major]`. -/
def device (s : Fs) (major : Int16) : Option Device :=
  if major.toInt < 0 ∨ NDEV ≤ major.toInt then none else some (s.devsw major.toInt.toNat)

/-- The loop of `readi`, with `n` bytes to go. -/
def readiLoop (ip : Ip) : ℕ → ℕ → ℕ → FsM (List UInt8)
  | 0, _, _ => pure []
  | turns + 1, off, n =>
    if n = 0 then pure []
    else do
      let b ← bmap ip (off / BSIZE)
      let s ← get
      let m := min n (BSIZE - off % BSIZE)
      let rest ← readiLoop ip turns (off + m) (n - m)
      return (s.disk b).bytes (off % BSIZE) m ++ rest

/-- `readi`: what it returns, and what it stores at `dst`. -/
def readi (ip : Ip) (off n : ℕ) : FsM (ℤ × List UInt8) := do
  let s ← get
  let i := s.icache ip
  if i.type = T_DEV then
    match (s.device i.major).bind Device.read with
    | none => return (-1, [])
    | some read => return read n
  else if i.size < off ∨ (off + n) % 2 ^ 32 < off then return (-1, [])
  else do
    let n := if i.size < (off + n) % 2 ^ 32 then i.size - off else n
    -- every turn reads at least one byte
    let data ← readiLoop ip n off n
    return (intOfWord n, data)

/-- The loop of `writei`, with the bytes of `src` to go. -/
def writeiLoop (ip : Ip) : ℕ → ℕ → List UInt8 → FsM PUnit
  | 0, _, _ => pure ⟨⟩
  | turns + 1, off, src =>
    if src = [] then pure ⟨⟩
    else do
      let b ← bmap ip (off / BSIZE)
      let m := min src.length (BSIZE - off % BSIZE)
      modify (writeBlock b (Block.setBytes (off % BSIZE) (src.take m)))
      writeiLoop ip turns (off + m) (src.drop m)

/-- The end of `writei`: the file has grown. -/
def grow (ip : Ip) (off n : ℕ) : FsM PUnit := do
  let s ← get
  if 0 < n ∧ (s.icache ip).size < off then do
    modify (setInode ip (fun i => { i with size := off }))
    iupdate ip
  else pure ⟨⟩

/-- `writei` of the `n` bytes of `src`. -/
def writei (ip : Ip) (src : List UInt8) (off : ℕ) : FsM ℤ := do
  let s ← get
  let i := s.icache ip
  let n := src.length
  if i.type = T_DEV then
    match (s.device i.major).bind Device.write with
    | none => return -1
    | some write => return write src
  else if i.size < off ∨ (off + n) % 2 ^ 32 < off then return -1
  else if MAXFILE * BSIZE < (off + n) % 2 ^ 32 then return -1
  else do
    writeiLoop ip n off src
    grow ip (off + n) n
    return intOfWord n

end Fs

end Xv6
