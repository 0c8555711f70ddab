/-
# The C library's heap (`libc/gen/malloc.c`)

`malloc`, `free` and `realloc` keep the free blocks of a process in a Cartesian
tree, by address and by size.  Every block, free or busy, starts with a word that
holds its size; the address the caller sees is the one after it.  The headers of
the tree's nodes come from a static pool of `NFREE_HDRS` first and then from arrays
of as many, which `getfreehdr` gets from `sbrk` in the middle of an insertion; of
them only the numbers are kept here.

All addresses are multiples of the word size and `memory` holds the words stored,
the latest first.  `supply` says what the kernel will answer each `sbrk` that raises the
break: no, or yes after others have moved it up by so many bytes.  `regions` are the ranges
of bytes `sbrk` has returned so far, and `headers` those of them that are arrays of headers,
the latest first.  A result `none` is a reference through a null or an odd pointer, or to
memory above the break.
-/
import SunOS.Lib.FastFits

namespace Malloc

open FastFits
open CartesianTree hiding insert

def WORDSIZE : ℤ := 4

/-- `sizeof (struct dblk)`. -/
def SMALLEST_BLK : ℤ := 8

def NFREE_HDRS : ℕ := 512

/-- `sizeof (struct freehdr)`. -/
def sizeofFreehdr : ℤ := 16

def ENOMEM : ℤ := 12

def EINVAL : ℤ := 22

/-- The fields of `struct mallinfo` that are kept. -/
structure mallinfo where
  arena : ℤ
  ordblks : ℤ
  smblks : ℤ
  mxfast : ℤ
  uordbytes : ℤ
  allocated : ℤ
  treeoverhead : ℤ
  deriving DecidableEq, Repr

/-- The heap of a process. -/
structure heap where
  _root : CartesianTree ℤ ℤ
  _lbound : ℤ
  _ubound : ℤ
  freehdrlist : ℕ
  nfreehdrs : ℕ
  __mallinfo : mallinfo
  errno : ℤ
  memory : List (ℤ × ℤ)
  curbrk : ℤ
  supply : List (Option ℕ)
  regions : List Block
  headers : List Block
  deriving DecidableEq, Repr

/-- The heap before the first call; `brk` is the end of the data segment. -/
def init (brk : ℤ) (supply : List (Option ℕ)) : heap where
  _root := nil
  _lbound := 0
  _ubound := 0
  freehdrlist := 0
  nfreehdrs := NFREE_HDRS
  __mallinfo := ⟨0, 0, 0, 0, 0, 0, 0⟩
  errno := 0
  memory := []
  curbrk := brk
  supply := supply
  regions := []
  headers := []

/-- The word at an address. -/
def load (a : ℤ) (memory : List (ℤ × ℤ)) : ℤ := (memory.lookup a).getD 0

/-- The size word of the block at `a`. -/
def heap.size (h : heap) (a : ℤ) : ℤ := load a h.memory

/-- Store a word. -/
def heap.store (h : heap) (a v : ℤ) : heap := { h with memory := (a, v) :: h.memory }

/-- Update the statistics. -/
def heap.stats (h : heap) (f : mallinfo → mallinfo) :
    heap := { h with __mallinfo := f h.__mallinfo }

/-- `error(...)`, without `DEBUG`. -/
def error (h : heap) : heap := { h with errno := EINVAL }

/-- `roundup(x, y)` of unsigned words. -/
def roundup (x y : ℤ) : ℤ := uint32 (x + (y - 1)) / y * y

/-- `misaligned(p)`. -/
def misaligned (p : ℤ) : Bool := p % 4 ≠ 0

/-- The break that `sbrk` goes by, in whole words. -/
def heap.brk (h : heap) : ℤ := (h.curbrk + (h.supply.head?.join.getD 0 : ℕ) + 3) / 4 * 4

/-- `sbrk(incr)`: the old break, unless the kernel refuses to raise it.  The new one is a sum of
32 bits, and `obreak` always grants one that is lower. -/
def sbrk (incr : ℤ) (h : heap) : heap × Option ℤ :=
  if h.supply.head?.join = none ∧ h.brk + incr < 4294967296 then
    ({ h with supply := h.supply.tail, errno := ENOMEM }, none)
  else ({ h with supply := h.supply.tail, curbrk := uint32 (h.brk + incr) }, some h.brk)

/-- The heap extended by the region `(p, n)`, whose first word is its size. -/
def extend (p n : ℤ) (h : heap) : heap :=
  let h := { h with
    _lbound := if h._lbound = 0 then p else h._lbound
    _ubound := nextblk p n
    regions := (p, n) :: h.regions }
  (h.stats fun i => { i with arena := int32 (h._ubound - h._lbound) }).store p n

/-- The size of an array of headers. -/
def headerArraySize : ℤ := NFREE_HDRS * sizeofFreehdr + 4

/-- `getfreehdr()`. -/
def getfreehdr (h : heap) : Option heap :=
  if h.freehdrlist ≠ 0 then some { h with freehdrlist := h.freehdrlist - 1 }
  else if h.nfreehdrs = 0 then
    match sbrk headerArraySize h with
    | (_, none) => none
    | (h, some blk) =>
      if h.curbrk < blk then none
      else
        let h := extend blk headerArraySize h
        some { h.stats fun i =>
            { i with treeoverhead := int32 (i.treeoverhead + headerArraySize) } with
          headers := (blk, headerArraySize) :: h.headers
          nfreehdrs := NFREE_HDRS - 1 }
  else some { h with nfreehdrs := h.nfreehdrs - 1 }

/-- `putfreehdr(p)`, for `n` headers. -/
def putfreehdr (n : ℕ) (h : heap) : heap := { h with freehdrlist := h.freehdrlist + n }

/-- `insert(newblk, len)`; the search for the place of an empty block would not end. -/
protected def insert (newblk len : ℤ) (h : heap) : Option heap :=
  if len = 0 then none
  else
    (getfreehdr h).map fun h =>
      { h with _root := h._root.insert newblk len }.store newblk len

/-! ## free -/

/-- `free(ptr)`, and what it returns. -/
def free (ptr : ℤ) (h : heap) : Option (heap × ℤ) :=
  if misaligned ptr then some (error h, 0)
  else if ptr < h._lbound ∨ ptr > h._ubound then some ({ h with errno := EINVAL }, 0)
  else
    let oldblk := ptr - WORDSIZE
    let nbytes := h.size oldblk
    let h := h.stats fun i =>
      { i with uordbytes := int32 (i.uordbytes - nbytes), allocated := int32 (i.allocated - 1) }
    match coalesce (h._root.toList.length + 1) oldblk nbytes h._root with
    | none => none
    | some j =>
      let h := (putfreehdr j.absorbed { h with _root := j.tree }).stats fun i =>
        { i with ordblks := int32 (i.ordblks - j.absorbed) }
      if j.clash then some (error h, 0)
      else (Malloc.insert j.addr j.size h).map (·, 1)

/-- `free(ptr)`, its result ignored. -/
def free_ (ptr : ℤ) (h : heap) : Option heap := (free ptr h).map (·.1)

/-! ## malloc -/

/-- The size of a block with `nbytes` bytes for the caller. -/
def blockSize (nbytes : ℤ) : ℤ :=
  if uint32 (nbytes + WORDSIZE) < SMALLEST_BLK then SMALLEST_BLK
  else roundup (uint32 (nbytes + WORDSIZE)) WORDSIZE

/-- `morecore(nbytes)`; `nbpg` is `getpagesize()`. -/
def morecore (nbpg nbytes : ℤ) (h : heap) : Option (heap × Bool) :=
  let nbytes := roundup nbytes nbpg
  match sbrk nbytes h with
  | (h, none) => some (h, false)
  | (h, some p) =>
    -- with the break lowered, `p->size` is no longer there
    if h.curbrk < p then none
    else
      let h := (extend p nbytes h).stats fun i => { i with
        uordbytes := int32 (i.uordbytes + nbytes)
        ordblks := int32 (i.ordblks + 1)
        allocated := int32 (i.allocated + 1) }
      (free_ (p + WORDSIZE) h).map (·, true)

/-- "Allocate storage from the selected node" `a`: the block it takes out. -/
def allocateFrom (a : Place) (nbytes : ℤ) (h : heap) : heap :=
  if uint32 (a.size - nbytes) ≤ SMALLEST_BLK then
    putfreehdr 1 { h with _root := plug a.path (merge a.left a.right) }
  else
    let nblk := nextblk a.addr nbytes
    let size := uint32 (h.size a.addr - nbytes)
    let h := (h.store nblk size).stats fun i => { i with ordblks := int32 (i.ordblks + 1) }
    { h with _root := plug a.path (demote nblk size a.left a.right) }.store a.addr nbytes

/-- `malloc(nbytes)`. -/
def malloc (nbpg nbytes : ℤ) (h : heap) : Option (heap × ℤ) :=
  let nbytes := blockSize nbytes
  let room := if weight h._root ≤ nbytes then morecore nbpg nbytes h else some (h, true)
  match room with
  | none => none
  | some (h, false) => some (h, 0)
  | some (h, true) =>
    match bestFit weight nbytes h._root [] with
    | none => none
    | some a =>
      let h := allocateFrom a nbytes h
      let h := h.stats fun i => { i with
        uordbytes := int32 (i.uordbytes + h.size a.addr)
        allocated := int32 (i.allocated + 1)
        smblks := if nbytes < i.mxfast then int32 (i.smblks + 1) else i.smblks }
      some (h, a.addr + WORDSIZE)

/-! ## realloc -/

/-- `shrink(oldblk, oldsize, newsize)`. -/
def shrink (oldblk oldsize newsize : ℤ) (h : heap) : Option (heap × ℤ) :=
  if uint32 (oldsize - newsize) ≥ SMALLEST_BLK then
    let remainder := nextblk oldblk newsize
    let h := (h.store remainder (uint32 (oldsize - newsize))).store oldblk newsize
    let h := h.stats fun i =>
      { i with ordblks := int32 (i.ordblks + 1), allocated := int32 (i.allocated + 1) }
    (free_ (remainder + WORDSIZE) h).map (·, oldblk + WORDSIZE)
  else some (h, oldblk + WORDSIZE)

/-- A search of the tree: a node found, none found, or a null pointer followed. -/
inductive Found where
  | node (a : Place)
  | absent
  | crash
  deriving DecidableEq, Repr

/-- The search of `reclaim` for the block that `oldblk` starts or lies in. -/
def reclaimSearch (memory : List (ℤ × ℤ)) (oldblk oldsize : ℤ) :
    CartesianTree ℤ ℤ → List (Crumb ℤ ℤ) → Found
  | nil, _ => if 0 ≥ oldsize then .crash else .absent
  | node l b s r, path =>
    if s ≥ oldsize then
      if oldblk = b then .node ⟨l, b, s, r, path⟩
      else if oldblk < b then reclaimSearch memory oldblk oldsize l (.left b s r :: path)
      else if oldblk ≥ nextblk b (load b memory) then
        reclaimSearch memory oldblk oldsize r (.right l b s :: path)
      else .node ⟨l, b, s, r, path⟩
    else .absent

/-- Take the block `(oldblk, oldsize)` out of the node `a`. -/
def reclaimFrom (a : Place) (oldblk oldsize : ℤ) (flag : Bool) (h : heap) : Option (heap × ℤ) :=
  let oldneighbor := nextblk oldblk oldsize
  let freeblk := a.addr
  let freeneighbor := nextblk freeblk (h.size freeblk)
  let deleted := putfreehdr 1 { h with _root := plug a.path (merge a.left a.right) }
  if oldblk = freeblk then
    some (deleted.stats fun i =>
      { i with
        uordbytes := int32 (i.uordbytes + oldsize)
        allocated := int32 (i.allocated + 1) }, 1)
  else if oldneighbor > freeneighbor then some (if flag then error h else h, -1)
  else if oldneighbor = freeneighbor then
    -- on the right end of the free block
    let h := deleted.stats fun i => { i with
      ordblks := int32 (i.ordblks + 1)
      uordbytes := int32 (i.uordbytes + oldsize)
      allocated := int32 (i.allocated + 2) }
    let h := h.store freeblk (uint32 (h.size freeblk - oldsize))
    (free_ (freeblk + WORDSIZE) h).map (·, 1)
  else
    -- in the middle of the free block
    let h := deleted.stats fun i => { i with
      ordblks := int32 (i.ordblks + 2)
      uordbytes := int32 (i.uordbytes + deleted.size freeblk)
      allocated := int32 (i.allocated + 3) }
    let h := h.store freeblk (uint32 (h.size freeblk - (freeneighbor - oldblk)))
    let h := h.store oldneighbor (uint32 (freeneighbor - oldneighbor))
    (free_ (freeblk + WORDSIZE) h).bind fun h => (free_ (oldneighbor + WORDSIZE) h).map (·, 1)

/-- `reclaim(oldblk, oldsize, flag)`. -/
def reclaim (oldblk oldsize : ℤ) (flag : Bool) (h : heap) : Option (heap × ℤ) :=
  match reclaimSearch h.memory oldblk oldsize h._root [] with
  | .crash => none
  | .absent => some (h, 0)
  | .node a => reclaimFrom a oldblk oldsize flag h

/-- The search of `realloc` for the block after the old one. -/
def neighborSearch (oldneighbor oldneighborsize : ℤ) :
    CartesianTree ℤ ℤ → List (Crumb ℤ ℤ) → Found
  | nil, _ => if 0 ≥ oldneighborsize then .crash else .absent
  | node l b s r, path =>
    if s ≥ oldneighborsize then
      if oldneighbor < b then neighborSearch oldneighbor oldneighborsize l (.left b s r :: path)
      else if oldneighbor > b then
        neighborSearch oldneighbor oldneighborsize r (.right l b s :: path)
      else .node ⟨l, b, s, r, path⟩
    else .absent

/-- `bcopy(src, dst, n)`, of whole words. -/
def bcopy (src dst n : ℤ) (h : heap) : heap :=
  { h with
    memory := (List.range (n / 4).toNat).map (fun i : ℕ => (dst + 4 * i, h.size (src + 4 * i))) ++
      h.memory }

/-- The end of `realloc`: "malloc a new block, copy the old block to the new, and free
the old block, in that order". -/
def move (nbpg oldblk oldsize nbytes : ℤ) (h : heap) : Option (heap × ℤ) :=
  match malloc nbpg nbytes h with
  | none => none
  | some (h, ptr) =>
    if ptr ≠ 0 then
      (free_ (oldblk + WORDSIZE) (bcopy (oldblk + WORDSIZE) ptr oldsize h)).map (·, ptr)
    else some (h, ptr)

/-- `realloc(ptr, nbytes)` once the old block is out of free space. -/
def resize (nbpg oldblk oldsize nbytes : ℤ) (h : heap) : Option (heap × ℤ) :=
  let oldneighbor := nextblk oldblk oldsize
  let newsize := blockSize nbytes
  if oldsize ≥ newsize then shrink oldblk oldsize newsize h
  else if oldneighbor < h._ubound then
    let oldneighborsize := h.size oldneighbor
    match neighborSearch oldneighbor oldneighborsize h._root [] with
    | .crash => none
    | .absent => move nbpg oldblk oldsize nbytes h
    | .node a =>
      if uint32 (oldsize + oldneighborsize) ≥ newsize then
        let h := putfreehdr 1 { h with _root := plug a.path (merge a.left a.right) }
        let h := h.stats fun i =>
          { i with
            ordblks := int32 (i.ordblks - 1)
            uordbytes := int32 (i.uordbytes + oldneighborsize) }
        let oldsize := uint32 (oldsize + oldneighborsize)
        shrink oldblk oldsize newsize (h.store oldblk oldsize)
      else move nbpg oldblk oldsize nbytes h
  else move nbpg oldblk oldsize nbytes h

/-- `realloc(ptr, nbytes)`. -/
def realloc (nbpg ptr nbytes : ℤ) (h : heap) : Option (heap × ℤ) :=
  if misaligned ptr ∨ ptr < h._lbound ∨ ptr > h._ubound then some (error h, 0)
  else
    let oldblk := ptr - WORDSIZE
    let oldsize := h.size oldblk
    match reclaim oldblk oldsize true h with
    | none => none
    | some (h, found) => if found = -1 then some (h, 0) else resize nbpg oldblk oldsize nbytes h

end Malloc
