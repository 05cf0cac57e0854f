import Xv6.Log.Commit
import Xv6.Fs.Path

/-!
# Building an image

`mkfs.c`. The image is a file on the host, so it has a length: reading a
sector past it fails, and `mkfs` exits. The program lays out the disk on its
own. It hands out blocks and inodes by counting up, maps the blocks of a file
with its own copy of the rules of `bmap`, and writes the free map at the end.
What `read` returns for an input file is a list of chunks, which need not be
of full size.
-/

namespace Xv6

/-- Number of inodes. -/
def NINODES : ℕ := 200

/-- **The state of `mkfs`**: the image file with its length in sectors, and
the two counters. -/
structure Mkfs where
  img : Disk
  sectors : ℕ
  freeinode : ℕ
  freeblock : ℕ

/-- The exits with an error: a read past the end of the image, and the
assertions. -/
inductive MkfsHalt
  | read
  | rootino
  | slash
  | maxfile
  | used
  deriving DecidableEq

/-- A function of `mkfs.c`. -/
abbrev MkfsM := StateT Mkfs (Except MkfsHalt)

/-- **An input file**: its name, and what the calls of `read` return until
there is no more. -/
structure InputFile where
  name : List UInt8
  chunks : List (List UInt8)
  chunk_size : ∀ c ∈ chunks, 0 < c.length ∧ c.length ≤ BSIZE

namespace InputFile

/-- The bytes of the file. -/
def content (f : InputFile) : List UInt8 := f.chunks.flatten

/-- The name in the image, without a leading `_`. -/
def imageName (f : InputFile) : List UInt8 :=
  if f.name.head? = some 0x5F then f.name.tail else f.name

end InputFile

namespace Mkfs

/-! ## The layout -/

def nbitmap : ℕ := FSSIZE / (BSIZE * 8) + 1

def ninodeblocks : ℕ := NINODES / IPB + 1

def nlog : ℕ := LOGSIZE

/-- Number of meta blocks. -/
def nmeta : ℕ := 2 + nlog + ninodeblocks + nbitmap

/-- Number of data blocks. -/
def nblocks : ℕ := FSSIZE - nmeta

/-- The superblock. -/
def sb : Superblock where
  size := FSSIZE
  nblocks := nblocks
  ninodes := NINODES
  nlog := nlog
  logstart := 2
  inodestart := 2 + nlog
  bmapstart := 2 + nlog + ninodeblocks

/-- The words of the superblock. -/
def sbWords : List ℕ :=
  [sb.size, sb.nblocks, sb.ninodes, sb.nlog, sb.logstart, sb.inodestart, sb.bmapstart]

/-! ## Sectors and inodes -/

/-- The image file after a write. -/
def put (sec : ℕ) (buf : Block) (s : Mkfs) : Mkfs :=
  { s with
    img := Function.update s.img sec buf
    sectors := max s.sectors (sec + 1) }

/-- `wsect`. -/
def wsect (sec : ℕ) (buf : Block) : MkfsM PUnit := modify (put sec buf)

/-- `rsect`. -/
def rsect (sec : ℕ) : MkfsM Block := do
  let s ← get
  if sec < s.sectors then return s.img sec else throw .read

/-- `winode`. -/
def winode (inum : ℕ) (din : Dinode) : MkfsM PUnit := do
  let buf ← rsect (sb.iblock inum)
  wsect (sb.iblock inum) (buf.setDinode (inum % IPB) din)

/-- `rinode`. -/
def rinode (inum : ℕ) : MkfsM Dinode := do
  let buf ← rsect (sb.iblock inum)
  return buf.dinode (inum % IPB)

/-- `ialloc`. -/
def ialloc (type : Int16) : MkfsM ℕ := do
  let s ← get
  modify (fun s => { s with freeinode := s.freeinode + 1 })
  winode s.freeinode { Dinode.fresh type with nlink := 1 }
  return s.freeinode

/-- The free map with the first `used` blocks in use. -/
def bitmap (used : ℕ) : Block := (List.range used).foldl (fun buf i => buf.setBit i) Block.zero

/-- `balloc`. -/
def balloc (used : ℕ) : MkfsM PUnit :=
  if used < BSIZE * 8 then wsect sb.bmapstart (bitmap used) else throw .used

/-! ## Files -/

/-- One more block. -/
def count (s : Mkfs) : Mkfs := { s with freeblock := s.freeblock + 1 }

/-- `freeblock++`. -/
def nextBlock : MkfsM ℕ := do
  let s ← get
  modify count
  return s.freeblock

/-- `if(xint(din.addrs[i]) == 0) din.addrs[i] = xint(freeblock++);` -/
def allocAddr (din : Dinode) (i : Fin (NDIRECT + 1)) : MkfsM Dinode :=
  if din.addrs i = 0 then do
    let b ← nextBlock
    return din.setAddr i b
  else return din

/-- The block number `x` for the block `fbn` of a file, in `iappend`. -/
def iappendBlock (din : Dinode) (fbn : ℕ) : MkfsM (ℕ × Dinode) :=
  if h : fbn < NDIRECT then do
    let din ← allocAddr din (Fin.castSucc ⟨fbn, h⟩)
    return (din.addrs (Fin.castSucc ⟨fbn, h⟩), din)
  else do
    let din ← allocAddr din (Fin.last NDIRECT)
    let indirect ← rsect (din.addrs (Fin.last NDIRECT))
    if indirect.word (fbn - NDIRECT) = 0 then do
      let b ← nextBlock
      wsect (din.addrs (Fin.last NDIRECT)) (indirect.setWord (fbn - NDIRECT) b)
      return (b, din)
    else return (indirect.word (fbn - NDIRECT), din)

/-- The loop of `iappend`, with the bytes `p` to go. -/
def iappendLoop : ℕ → Dinode → ℕ → List UInt8 → MkfsM Dinode
  | 0, din, off, _ => return { din with size := off }
  | turns + 1, din, off, p =>
    if p = [] then return { din with size := off }
    else if off / BSIZE < MAXFILE then do
      let (x, din) ← iappendBlock din (off / BSIZE)
      let n1 := min p.length ((off / BSIZE + 1) * BSIZE - off)
      let buf ← rsect x
      wsect x (buf.setBytes (off - off / BSIZE * BSIZE) (p.take n1))
      iappendLoop turns din (off + n1) (p.drop n1)
    else throw .maxfile

/-- `iappend`. -/
def iappend (inum : ℕ) (p : List UInt8) : MkfsM PUnit := do
  let din ← rinode inum
  -- every turn copies at least one byte
  let din ← iappendLoop p.length din din.size p
  winode inum din

/-! ## The program -/

/-- The image is filled with zeros and gets its superblock. -/
def format : MkfsM PUnit := do
  (List.range FSSIZE).forM (fun i => wsect i Block.zero)
  wsect 1 (Block.zero.setWords 0 (fun i => sbWords.getD i 0) 7)

/-- The body of the loop over the input files. -/
def addFile (rootino : ℕ) (f : InputFile) : MkfsM PUnit :=
  if SLASH ∈ f.name then throw .slash
  else do
    let inum ← ialloc T_FILE
    iappend rootino (direntBytes (nameOf f.imageName) inum)
    f.chunks.forM (iappend inum)

/-- The size of the root directory is rounded up. -/
def fixRoot (rootino : ℕ) : MkfsM PUnit := do
  let din ← rinode rootino
  winode rootino { din with size := (din.size / BSIZE + 1) * BSIZE }

/-- An empty image file. -/
def start : Mkfs where
  img := fun _ => Block.zero
  sectors := 0
  freeinode := 1
  freeblock := nmeta

/-- `main`. -/
def main (files : List InputFile) : MkfsM PUnit := do
  format
  let rootino ← ialloc T_DIR
  if rootino ≠ ROOTINO then throw .rootino
  else do
    iappend rootino (direntBytes DOT rootino)
    iappend rootino (direntBytes DOTDOT rootino)
    files.forM (addFile rootino)
    fixRoot rootino
    let s ← get
    balloc s.freeblock

/-- **The image of a list of input files.** -/
def build (files : List InputFile) : Except MkfsHalt Mkfs := (fun r => r.2) <$> main files start

end Mkfs

end Xv6
