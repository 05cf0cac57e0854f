import Xv6.Vm.Kalloc
import Mathlib.Data.Int.Notation

/-!
# Page tables

`vm.c`, but for the hardware registers. A page directory is a page of words,
each present one the frame of a page table; a present word of a page table is
the frame that is mapped. Addresses and sizes are `uint`s, and sums of them are
taken modulo `2 ^ 32` where the source does not rule out that they overflow.

A pointer to a word of a table is the frame of the table and the index of the
word. The loops count the turns that are left.
-/

namespace Xv6

/-! ## `mmu.h` -/

/-- Entries of a page directory. -/
def NPDENTRIES : ℕ := 1024

/-- Present. -/
def PTE_P : ℕ := 1

/-- Writeable. -/
def PTE_W : ℕ := 2

/-- User. -/
def PTE_U : ℕ := 4

/-- The index in the page directory. -/
def PDX (va : ℕ) : ℕ := va / 2 ^ 22 % 2 ^ 10

/-- The index in the page table. -/
def PTX (va : ℕ) : ℕ := va / 2 ^ 12 % 2 ^ 10

/-- `PGROUNDUP`. -/
def PGROUNDUP (sz : ℕ) : ℕ := (sz + (PGSIZE - 1)) % 2 ^ 32 / PGSIZE * PGSIZE

/-- `PGROUNDDOWN`. -/
def PGROUNDDOWN (a : ℕ) : ℕ := a / PGSIZE * PGSIZE

/-- `*pte & PTE_P`. -/
def pteP (w : ℕ) : Bool := w &&& PTE_P ≠ 0

/-- `*pte & PTE_U`. -/
def pteU (w : ℕ) : Bool := w &&& PTE_U ≠ 0

/-- The frame at `PTE_ADDR(*pte)`. -/
def pteFrame (w : ℕ) : Frame := w / PGSIZE

/-- `PTE_FLAGS(*pte)`. -/
def pteFlags (w : ℕ) : ℕ := w % PGSIZE

/-- A pointer to a word of a page. -/
structure PtePtr where
  table : Frame
  idx : ℕ

namespace Ram

/-- `*pte`. -/
def load (pte : PtePtr) : VmM ℕ := do
  let m ← get
  return (m.page pte.table).word pte.idx

/-- `*pte = w`. -/
def store (pte : PtePtr) (w : ℕ) : VmM PUnit :=
  modify (setPage pte.table (fun x => x.setWord pte.idx w))

/-! ## Mappings -/

/-- `walkpgdir`. -/
def walkpgdir (pgdir : Frame) (va : ℕ) (alloc : Bool) : VmM (Option PtePtr) := do
  let pde ← load ⟨pgdir, PDX va⟩
  if pteP pde then return some ⟨pteFrame pde, PTX va⟩
  else if alloc = false then return none
  else
    match ← kalloc with
    | none => return none
    | some pgtab => do
      memset pgtab 0
      store ⟨pgdir, PDX va⟩ (pgtab * PGSIZE ||| PTE_P ||| PTE_W ||| PTE_U)
      return some ⟨pgtab, PTX va⟩

/-- The loop of `mappages`, with `turns` turns after this one. -/
def mappagesLoop (pgdir : Frame) (perm : ℕ) : ℕ → ℕ → ℕ → VmM ℤ
  | turns, a, pa => do
    match ← walkpgdir pgdir a true with
    | none => return -1
    | some pte => do
      let w ← load pte
      if pteP w then throw .remap
      else do
        store pte (pa ||| perm ||| PTE_P)
        match turns with
        | 0 => return 0
        | turns + 1 =>
          mappagesLoop pgdir perm turns ((a + PGSIZE) % 2 ^ 32) ((pa + PGSIZE) % 2 ^ 32)

/-- `mappages`. -/
def mappages (pgdir : Frame) (va size pa perm : ℕ) : VmM ℤ :=
  let a := PGROUNDDOWN va
  let last := PGROUNDDOWN ((va + size + (2 ^ 32 - 1)) % 2 ^ 32)
  mappagesLoop pgdir perm ((last + (2 ^ 32 - a)) % 2 ^ 32 / PGSIZE) a pa

/-! ## Giving memory back -/

/-- The loop of `deallocuvm`. A missing page table moves `a` to the next one. -/
def deallocuvmLoop (L : MemLayout) (pgdir : Frame) (oldsz : ℕ) : ℕ → ℕ → VmM PUnit
  | 0, _ => pure ⟨⟩
  | turns + 1, a =>
    if a < oldsz then do
      match ← walkpgdir pgdir a false with
      | none => deallocuvmLoop L pgdir oldsz turns ((PDX a + 1) * 2 ^ 22)
      | some pte => do
        let w ← load pte
        if pteP w then
          if pteFrame w = 0 then throw .kfree
          else do
            kfree L (pteFrame w)
            store pte 0
        deallocuvmLoop L pgdir oldsz turns (a + PGSIZE)
    else pure ⟨⟩

/-- `deallocuvm`. -/
def deallocuvm (L : MemLayout) (pgdir : Frame) (oldsz newsz : ℕ) : VmM ℕ :=
  if oldsz ≤ newsz then return oldsz
  else do
    let a := PGROUNDUP newsz
    deallocuvmLoop L pgdir oldsz ((oldsz - a + (PGSIZE - 1)) / PGSIZE) a
    return newsz

/-- A turn of the loop of `freevm`. -/
def freeTable (L : MemLayout) (pgdir : Frame) (i : ℕ) : VmM PUnit := do
  let w ← load ⟨pgdir, i⟩
  if pteP w then kfree L (pteFrame w)

/-- `freevm`. -/
def freevm (L : MemLayout) : Option Frame → VmM PUnit
  | none => throw .freevm
  | some pgdir => do
    let _ ← deallocuvm L pgdir KERNBASE 0
    (List.range NPDENTRIES).forM (freeTable L pgdir)
    kfree L pgdir

/-! ## The kernel part -/

/-- `struct kmap`. -/
structure Kmap where
  virt : ℕ
  physStart : ℕ
  physEnd : ℕ
  perm : ℕ

/-- `kmap`. -/
def kmap (L : MemLayout) : List Kmap :=
  [⟨KERNBASE, 0, L.EXTMEM, PTE_W⟩,
    ⟨KERNBASE + L.EXTMEM, L.EXTMEM, L.data - KERNBASE, 0⟩,
    ⟨L.data, L.data - KERNBASE, L.PHYSTOP, PTE_W⟩,
    ⟨L.DEVSPACE, L.DEVSPACE, 0, PTE_W⟩]

/-- The loop of `setupkvm`. -/
def setupkvmLoop (L : MemLayout) (pgdir : Frame) : List Kmap → VmM (Option Frame)
  | [] => return some pgdir
  | k :: ks => do
    let size := (k.physEnd + (2 ^ 32 - k.physStart)) % 2 ^ 32
    if (← mappages pgdir k.virt size k.physStart k.perm) < 0 then do
      freevm L (some pgdir)
      return none
    else setupkvmLoop L pgdir ks

/-- `setupkvm`. -/
def setupkvm (L : MemLayout) : VmM (Option Frame) := do
  match ← kalloc with
  | none => return none
  | some pgdir => do
    memset pgdir 0
    if L.DEVSPACE < KERNBASE + L.PHYSTOP then throw .phystop
    else setupkvmLoop L pgdir (kmap L)

/-! ## User memory -/

/-- `inituvm`. What `mappages` returns is not looked at. -/
def inituvm (pgdir : Frame) (init : List UInt8) : VmM PUnit :=
  if PGSIZE ≤ init.length then throw .inituvm
  else do
    match ← kalloc with
    | none => throw .null
    | some mem => do
      memset mem 0
      let _ ← mappages pgdir 0 PGSIZE (mem * PGSIZE) (PTE_W ||| PTE_U)
      modify (setPage mem (Bytes.setBytes 0 init))

/-- The loop of `allocuvm`. -/
def allocuvmLoop (L : MemLayout) (pgdir : Frame) (oldsz newsz : ℕ) : ℕ → ℕ → VmM ℕ
  | 0, _ => return newsz
  | turns + 1, a =>
    if a < newsz then do
      match ← kalloc with
      | none => do
        let _ ← deallocuvm L pgdir newsz oldsz
        return 0
      | some mem => do
        memset mem 0
        if (← mappages pgdir a PGSIZE (mem * PGSIZE) (PTE_W ||| PTE_U)) < 0 then do
          let _ ← deallocuvm L pgdir newsz oldsz
          kfree L mem
          return 0
        else allocuvmLoop L pgdir oldsz newsz turns (a + PGSIZE)
    else return newsz

/-- `allocuvm`. -/
def allocuvm (L : MemLayout) (pgdir : Frame) (oldsz newsz : ℕ) : VmM ℕ :=
  if KERNBASE ≤ newsz then return 0
  else if newsz < oldsz then return oldsz
  else
    let a := PGROUNDUP oldsz
    allocuvmLoop L pgdir oldsz newsz ((newsz - a + (PGSIZE - 1)) / PGSIZE) a

/-- `clearpteu`. -/
def clearpteu (pgdir : Frame) (uva : ℕ) : VmM PUnit := do
  match ← walkpgdir pgdir uva false with
  | none => throw .clearpteu
  | some pte => do
    let w ← load pte
    store pte (w - (w &&& PTE_U))

/-- The loop of `copyuvm`; `false` is `goto bad`. -/
def copyuvmLoop (L : MemLayout) (pgdir d : Frame) (sz : ℕ) : ℕ → ℕ → VmM Bool
  | 0, _ => return true
  | turns + 1, i =>
    if i < sz then do
      match ← walkpgdir pgdir i false with
      | none => throw .copyuvmPte
      | some pte => do
        let w ← load pte
        if pteP w = false then throw .copyuvmPage
        else
          match ← kalloc with
          | none => return false
          | some mem => do
            memmove mem (pteFrame w)
            if (← mappages d i PGSIZE (mem * PGSIZE) (pteFlags w)) < 0 then do
              kfree L mem
              return false
            else copyuvmLoop L pgdir d sz turns (i + PGSIZE)
    else return true

/-- `copyuvm`. -/
def copyuvm (L : MemLayout) (pgdir : Frame) (sz : ℕ) : VmM (Option Frame) := do
  match ← setupkvm L with
  | none => return none
  | some d =>
    if ← copyuvmLoop L pgdir d sz ((sz + (PGSIZE - 1)) / PGSIZE) 0 then return some d
    else do
      freevm L (some d)
      return none

/-- `uva2ka`. A missing page table is a null pointer, which is followed. -/
def uva2ka (pgdir : Frame) (uva : ℕ) : VmM (Option Frame) := do
  match ← walkpgdir pgdir uva false with
  | none => throw .null
  | some pte => do
    let w ← load pte
    if pteP w = false then return none
    else if pteU w = false then return none
    else return some (pteFrame w)

/-- The loop of `copyout`. Every turn copies at least one byte. -/
def copyoutLoop (pgdir : Frame) : ℕ → ℕ → List UInt8 → VmM ℤ
  | 0, _, _ => return 0
  | turns + 1, va, buf =>
    if buf = [] then return 0
    else do
      let va0 := PGROUNDDOWN va
      match ← uva2ka pgdir va0 with
      | none => return -1
      | some pa0 => do
        let n := min (PGSIZE - (va - va0)) buf.length
        modify (setPage pa0 (Bytes.setBytes (va - va0) (buf.take n)))
        copyoutLoop pgdir turns ((va0 + PGSIZE) % 2 ^ 32) (buf.drop n)

/-- `copyout`. -/
def copyout (pgdir : Frame) (va : ℕ) (buf : List UInt8) : VmM ℤ :=
  copyoutLoop pgdir buf.length va buf

end Ram

end Xv6
