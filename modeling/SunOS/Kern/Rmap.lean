/-
# Resource maps (`sys/subr_rmap.c`)

A resource map is an array of `mapsize` slots.  The first is the `struct map`
with the count of free slots; the others are `struct mapent`s, each a free
segment, in address order, up to the first with `m_size = 0`.  The last slot is a
`struct maplast`: its `m_addr` is the name of the map.

Below `slots` are the slots after the first, and a pointer walking the array is a
split of that list.  All fields are 32-bit `int`s, so sums go through `int32`.
A result `none` is a panic or an access outside the slots.
-/
import SunOS.Lib.Word
import Mathlib.Data.List.Basic
import Mathlib.Data.Int.DivMod
import Mathlib.Data.Int.ConditionallyCompleteOrder

namespace Rmap

/-- `struct mapent`. -/
structure mapent where
  m_size : ℤ
  m_addr : ℤ
  deriving DecidableEq, Repr

/-- A resource map. -/
structure map where
  m_free : ℕ
  m_want : ℕ
  slots : List mapent
  deriving DecidableEq, Repr

/-- What `rmalloc` must know when the map is `swapmap`. -/
structure Swap where
  dmmax : ℤ
  nswdev : ℤ
  clsize : ℤ
  deriving DecidableEq, Repr

/-- Write the name slot. -/
def setName (name : ℤ) (slots : List mapent) : List mapent :=
  slots.modifyLast fun b => { b with m_addr := name }

/-- `rminit(mp, size, addr, name, mapsize)`, with `mapsize` the slots of the array
and one more. -/
def rminit (size addr name : ℤ) (m : map) : map :=
  let mapsize := m.slots.length + 1
  if mapsize < 3 then
    { m with
      m_free := 0
      slots := setName name (m.slots.modifyHead fun ep => { ep with m_size := 0 }) }
  else
    { m with
      m_free := mapsize - 3 + (if size = 0 then 1 else 0)
      slots := (setName name m.slots).modifyHead fun _ => ⟨size, addr⟩ }

/-- The loop that moves the entries after `bp` down over it, the terminator last:
`do { bp++; (bp-1)->m_addr = bp->m_addr; } while ((bp-1)->m_size = bp->m_size)`. -/
def compress : List mapent → Option (List mapent)
  | _ :: next :: rest =>
    if next.m_size = 0 then some (next :: next :: rest)
    else (compress (next :: rest)).map (next :: ·)
  | _ => none

/-- The loop that puts `e` in the slot of `bp` and pushes the entries from there
up, up to and over the terminator. -/
def pushUp : mapent → List mapent → Option (List mapent)
  | _, [] => none
  | e, bp :: rest =>
    if bp.m_size = 0 then some (e :: rest) else (pushUp bp rest).map (e :: ·)

/-- The insertion of `rmget`, which pushes the entries up likewise but first
clears the size of the slot after the terminator. -/
def pushUpClear : mapent → List mapent → Option (List mapent)
  | e, bp :: next :: rest =>
    if bp.m_size = 0 then some (e :: { next with m_size := 0 } :: rest)
    else (pushUpClear bp (next :: rest)).map (e :: ·)
  | _, _ => none

/-- The entries up to the terminator. -/
def segs (slots : List mapent) : List mapent := slots.takeWhile fun b => b.m_size ≠ 0

/-! ## rmfree -/

/-- A turn of `rmfree` either is done, with new slots and a new count of free
ones, or has discarded an entry and must retry. -/
inductive Turn where
  | done (slots : List mapent) (free : ℕ)
  | retry (slots : List mapent) (free : ℕ)
  deriving DecidableEq, Repr

/-- "Discard the smaller of the last/next-to-last entries". -/
def discard (slots : List mapent) : Option (List mapent) :=
  match (segs slots).reverse, slots.dropWhile fun b => b.m_size ≠ 0 with
  | b :: a :: before, term :: rest =>
    if b.m_size > a.m_size then
      some (before.reverse ++ b :: { b with m_size := 0 } :: term :: rest)
    else some (before.reverse ++ a :: term :: { term with m_size := 0 } :: rest)
  | _, _ => none

/-- No piece on the left abuts: abut on the right, or take a new slot. -/
def freeApart (free : ℕ) (size addr : ℤ) (before : List mapent) (bp : mapent)
    (rest : List mapent) : Option Turn :=
  if int32 (addr + size) ≥ bp.m_addr ∧ bp.m_size ≠ 0 then
    if int32 (addr + size) > bp.m_addr then none
    else
      some (.done
        (before ++ ⟨int32 (bp.m_size + size), int32 (bp.m_addr - size)⟩ :: rest) free)
  else if free = 0 then
    (discard (before ++ bp :: rest)).map fun slots => .retry slots (free + 1)
  else
    (pushUp ⟨size, addr⟩ (bp :: rest)).map fun slots => .done (before ++ slots) (free - 1)

/-- The piece `prev` on the left abuts: enlarge it, and absorb the piece on the
right if that abuts too. -/
def freeLeft (free : ℕ) (size addr : ℤ) (before : List mapent) (prev bp : mapent)
    (rest : List mapent) : Option Turn :=
  let joined := int32 (prev.m_size + size)
  if bp.m_size ≠ 0 ∧ int32 (addr + size) ≥ bp.m_addr then
    if int32 (addr + size) > bp.m_addr then none
    else
      (compress (bp :: rest)).map fun slots =>
        .done (before ++ { prev with m_size := int32 (joined + bp.m_size) } :: slots) (free + 1)
  else some (.done (before ++ { prev with m_size := joined } :: bp :: rest) free)

/-- From the label `retry` on. -/
def rmfreeTurn (free : ℕ) (size addr : ℤ) (slots : List mapent) : Option Turn :=
  let stop := fun b : mapent => decide (b.m_addr ≤ addr ∧ b.m_size ≠ 0)
  match (slots.takeWhile stop).reverse, slots.dropWhile stop with
  | _, [] => none
  | [], bp :: rest => freeApart free size addr [] bp rest
  | prev :: before, bp :: rest =>
    if int32 (prev.m_addr + prev.m_size) ≥ addr then
      if int32 (prev.m_addr + prev.m_size) > addr then none
      else freeLeft free size addr before.reverse prev bp rest
    else freeApart free size addr (before.reverse ++ [prev]) bp rest

/-- The retries; `fuel` bounds them. -/
def rmfreeLoop (size addr : ℤ) : ℕ → ℕ → List mapent → Option (ℕ × List mapent)
  | 0, _, _ => none
  | fuel + 1, free, slots =>
    match rmfreeTurn free size addr slots with
    | none => none
    | some (.done slots free) => some (free, slots)
    | some (.retry slots free) => rmfreeLoop size addr fuel free slots

/-- `rmfree(mp, size, addr)`; every sleeper on the map is woken. -/
def rmfree (size addr : ℤ) (m : map) : Option map :=
  if addr ≤ 0 ∨ size ≤ 0 then none
  else
    (rmfreeLoop size addr (m.slots.length + 1) m.m_free m.slots).map fun r => ⟨r.1, 0, r.2⟩

/-! ## rmalloc -/

/-- The first fit: the slots after it, the address returned, the slots it set
free, and what it gives back by `rmfree(swapmap, rest, addr + size)`. -/
structure Fit where
  slots : List mapent
  addr : ℤ
  freed : ℕ
  giveBack : Option (ℤ × ℤ)
  deriving DecidableEq, Repr

/-- Respect the interleaving boundary of `swapmap`: the units before it, when the
piece reaches past it. -/
def boundary (swap : Option Swap) (bp : mapent) : Option ℤ :=
  match swap with
  | none => none
  | some sw =>
    let first := int32 (sw.dmmax - bp.m_addr.tmod sw.dmmax)
    if sw.nswdev > 1 ∧ first < bp.m_size then some first else none

/-- The search loop of `rmalloc`. -/
def rmallocLoop (swap : Option Swap) (size : ℤ) : List mapent → Option Fit
  | [] => none
  | bp :: rest =>
    if bp.m_size = 0 then some ⟨bp :: rest, 0, 0, none⟩
    else if bp.m_size ≥ size then
      match boundary swap bp with
      | some first =>
        if int32 (bp.m_size - first) < size then
          (rmallocLoop swap size rest).map fun f => { f with slots := bp :: f.slots }
        else
          let addr := int32 (bp.m_addr + first)
          let left := int32 (bp.m_size - first - size)
          some ⟨{ bp with m_size := first } :: rest, addr, 0,
            if left ≠ 0 then some (left, int32 (addr + size)) else none⟩
      | none =>
        let cut : mapent := ⟨int32 (bp.m_size - size), int32 (bp.m_addr + size)⟩
        if swap.any (fun sw => bp.m_addr.tmod sw.clsize ≠ 0) then none
        else if cut.m_size = 0 then
          (compress (cut :: rest)).map fun slots => ⟨slots, bp.m_addr, 1, none⟩
        else some ⟨cut :: rest, bp.m_addr, 0, none⟩
    else (rmallocLoop swap size rest).map fun f => { f with slots := bp :: f.slots }

/-- `rmalloc(mp, size)`, with `swap` set when `mp` is `swapmap`; the address
returned is 0 when there is no fit. -/
def rmalloc (swap : Option Swap) (size : ℤ) (m : map) : Option (map × ℤ) :=
  if size ≤ 0 ∨ swap.any (fun sw => size > sw.dmmax) then none
  else do
    let f ← rmallocLoop swap size m.slots
    let m' : map := { m with m_free := m.m_free + f.freed, slots := f.slots }
    match f.giveBack with
    | some (left, addr) => (rmfree left addr m').map fun m' => (m', f.addr)
    | none => some (m', f.addr)

/-! ## rmget -/

/-- `rmget(mp, size, addr)`, with `swap` set when `mp` is `swapmap`. -/
def rmget (swap : Option Swap) (size addr : ℤ) (m : map) : Option (map × ℤ) :=
  let stop := fun b : mapent =>
    decide (b.m_size ≠ 0 ∧ ¬ (b.m_addr ≤ addr ∧ int32 (b.m_addr + b.m_size) > addr))
  if size ≤ 0 then none
  else if swap.isSome then some (m, 0)
  else
    match m.slots.takeWhile stop, m.slots.dropWhile stop with
    | _, [] => none
    | before, bp :: rest =>
      if bp.m_size = 0 then some (m, 0)
      else if int32 (bp.m_addr + bp.m_size) < int32 (addr + size) then some (m, 0)
      else if bp.m_addr = addr then
        if bp.m_size = size then
          (compress (bp :: rest)).map fun slots =>
            ({ m with m_free := m.m_free + 1, slots := before ++ slots }, addr)
        else
          some ({ m with
            slots := before ++ ⟨int32 (bp.m_size - size), int32 (bp.m_addr + size)⟩ :: rest },
            addr)
      else if int32 (bp.m_addr + bp.m_size) = int32 (addr + size) then
        some ({ m with slots := before ++ { bp with m_size := int32 (bp.m_size - size) } :: rest },
          addr)
      else if m.m_free = 0 then some (m, 0)
      else
        let new : mapent :=
          ⟨int32 (int32 (bp.m_addr + bp.m_size) - int32 (addr + size)), int32 (addr + size)⟩
        (pushUpClear new rest).map fun slots =>
          ({ m with
            m_free := m.m_free - 1
            slots := before ++ { bp with m_size := int32 (addr - bp.m_addr) } :: slots }, addr)

/-! ## The calls -/

/-- The calls on a map that is not `swapmap`. -/
inductive Event where
  | rminit (size addr name : ℤ)
  | rmalloc (size : ℤ)
  | rmget (size addr : ℤ)
  | rmfree (size addr : ℤ)
  deriving DecidableEq, Repr

/-- What a call leaves and returns; `rminit` and `rmfree` return nothing. -/
def call (e : Event) (m : map) : Option (map × ℤ) :=
  match e with
  | .rminit size addr name => some (rminit size addr name m, 0)
  | .rmalloc size => rmalloc none size m
  | .rmget size addr => rmget none size addr m
  | .rmfree size addr => (rmfree size addr m).map (·, 0)

/-- A call that does not panic. -/
def Step (m : map) (e : Event) (m' : map) : Prop := ∃ r, call e m = some (m', r)

end Rmap
