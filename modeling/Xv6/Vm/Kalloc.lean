import Xv6.Lib.Bytes
import Xv6.Lib.Wp
import Mathlib.Logic.Function.Basic

/-!
# Physical memory

`kalloc.c` over memory as pages of bytes. A page is known by its number in
physical memory, its frame, and a pointer to a page by the frame it points to:
`P2V` and `V2P` are the shift by `KERNBASE`. The free list is a list of frames;
that its links are kept in the free pages themselves is left out.

`kalloc` fails when the list is empty. It can also fail because the other CPUs
have taken every page between two calls, and given some back before the next:
the list `refuse` says for the calls to come which ones fail in this way.
-/

namespace Xv6

/-- Bytes in a page. -/
def PGSIZE : ℕ := 4096

/-- The first kernel virtual address. -/
def KERNBASE : ℕ := 0x80000000

/-- A page of memory. -/
abbrev Page := Bytes PGSIZE

/-- The number of a page of physical memory. -/
abbrev Frame := ℕ

/-- **Where things are in memory**: what `memlayout.h` defines, and the
addresses `data` and `end`, which the linker gives. -/
structure MemLayout where
  EXTMEM : ℕ
  PHYSTOP : ℕ
  DEVSPACE : ℕ
  data : ℕ
  kend : ℕ
  extmem_aligned : EXTMEM % PGSIZE = 0
  data_aligned : data % PGSIZE = 0
  devspace_aligned : DEVSPACE % PGSIZE = 0
  extmem_pos : 0 < EXTMEM
  kernlink_lt_data : KERNBASE + EXTMEM < data
  data_lt_phystop : data < KERNBASE + PHYSTOP
  devspace_lt : DEVSPACE < 2 ^ 32

/-- **The state of memory**: the free list of `kalloc.c`, what is in the pages, and which of the
next calls of `kalloc` fail though there are free pages. -/
structure Ram where
  freelist : List Frame
  page : Frame → Page
  refuse : List Bool

/-- The panics of `kalloc.c` and `vm.c`, and a null pointer that is followed. -/
inductive VmHalt
  | kfree
  | remap
  | phystop
  | inituvm
  | loaduvmAddr
  | loaduvmPte
  | freevm
  | clearpteu
  | copyuvmPte
  | copyuvmPage
  | null
  deriving DecidableEq

/-- A function of `vm.c`. -/
abbrev VmM := StateT Ram (Except VmHalt)

namespace Ram

/-- Change a page. -/
def setPage (f : Frame) (x : Page → Page) (m : Ram) : Ram :=
  { m with page := fun g => if g = f then x (m.page f) else m.page g }

@[simp] theorem page_setPage_self (f : Frame) (x : Page → Page) (m : Ram) :
    (m.setPage f x).page f = x (m.page f) := if_pos rfl

/-- `memset(p, b, PGSIZE)`. -/
def memset (f : Frame) (b : UInt8) : VmM PUnit := modify (setPage f (fun _ _ => b))

/-- `memmove(p, q, PGSIZE)`. -/
def memmove (f g : Frame) : VmM PUnit := modify (fun m => m.setPage f (fun _ => m.page g))

/-- `kfree`. -/
def kfree (L : MemLayout) (f : Frame) : VmM PUnit :=
  if KERNBASE + f * PGSIZE < L.kend ∨ L.PHYSTOP ≤ f * PGSIZE then throw .kfree
  else do
    memset f 1
    modify (fun m => { m with freelist := f :: m.freelist })

/-- `kfree` of a pointer that may be null. -/
def kfreePtr (L : MemLayout) : Option Frame → VmM PUnit
  | none => throw .kfree
  | some f => kfree L f

/-- `kalloc`. -/
def kalloc : VmM (Option Frame) := do
  let m ← get
  let refused := m.refuse.headD false
  modify (fun m => { m with refuse := m.refuse.tail })
  match m.freelist with
  | [] => return none
  | r :: next =>
    if refused then return none
    else do
      modify (fun m => { m with freelist := next })
      return some r

end Ram

end Xv6
