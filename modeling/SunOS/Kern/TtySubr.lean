/-
# Character lists (`sys/tty_subr.c`)

The characters of a queue are held in cblocks: 32 bytes, on a 32-byte boundary, with a
link and `CBSIZE` characters.  `c_cf` points to the first character of a queue and
`c_cl` past the last, which may be the first byte after a cblock that is full.  Where
one cblock ends is told from the address alone.

An address is a number, `0` is `NULL`, and a cblock goes by the address of its link.
-/
import Mathlib.Data.UInt
import Mathlib.Logic.Function.Basic
import Mathlib.Data.Int.Order.Basic

namespace Clist

def CBSIZE : ℕ := 28

/-- `sizeof (struct cblock)`: the link and the characters. -/
def sizeofCblock : ℕ := 32

/-- `p & CROUND`. -/
def round (p : ℕ) : ℕ := p % sizeofCblock

/-- `p & ~CROUND`, the cblock that `p` points into. -/
def cblock (p : ℕ) : ℕ := p - round p

/-- `bp->c_info`. -/
def info (bp : ℕ) : ℕ := bp + 4

structure clist where
  c_cc : ℤ
  c_cf : ℕ
  c_cl : ℕ
  deriving DecidableEq, Repr

/-- The links and the characters of the cblocks, the free list with its count, and
whether someone waits for a cblock. -/
structure Heap where
  c_next : ℕ → ℕ
  c_info : ℕ → UInt8
  cfreelist : ℕ
  cfreecount : ℤ
  cwaiting : Bool

/-- The queues and the cblocks they share. -/
structure State (ι : Type*) where
  heap : Heap
  q : ι → clist

/-- The characters from `p` up to `e`. -/
def chars (c_info : ℕ → UInt8) (p e : ℕ) : List UInt8 := (List.range' p (e - p)).map c_info

/-- The argument `c` as a character. -/
def char (c : ℤ) : UInt8 := UInt8.ofNat (c % 256).toNat

namespace Heap

/-- `bp` goes to the free list, and who waits for one is waked. -/
def release (h : Heap) (bp : ℕ) : Heap :=
  { h with
    c_next := Function.update h.c_next bp h.cfreelist
    cfreelist := bp
    cfreecount := h.cfreecount + CBSIZE
    cwaiting := false }

/-- The first of the free list, which is not empty, leaves it. -/
def grab (h : Heap) : Heap :=
  { h with
    c_next := Function.update h.c_next h.cfreelist 0
    cfreelist := h.c_next h.cfreelist
    cfreecount := h.cfreecount - CBSIZE }

/-- `bp->c_next = nbp`. -/
def link (h : Heap) (bp nbp : ℕ) : Heap := { h with c_next := Function.update h.c_next bp nbp }

/-- `*cp = c`. -/
def store (h : Heap) (cp : ℕ) (c : UInt8) : Heap :=
  { h with c_info := Function.update h.c_info cp c }

end Heap

variable {ι : Type*} [DecidableEq ι]

/-- The queue `p` is now `q`, and the cblocks are `h`. -/
def State.set (s : State ι) (p : ι) (q : clist) (h : Heap) : State ι :=
  ⟨h, Function.update s.q p q⟩

/-! ## Taking characters -/

/-- `ndqb(q, 0)`: the count of contiguous characters from `c_cf` on. -/
def ndqb (q : clist) : ℤ :=
  if q.c_cc ≤ 0 then -q.c_cc
  else
    let cc : ℤ := ((q.c_cf + CBSIZE) / sizeofCblock * sizeofCblock : ℕ) - q.c_cf
    if q.c_cc < cc then q.c_cc else cc

/-- The part that `getc` and the loop of `q_to_b` share: a character is taken and its
cblock freed if it was the last in it. -/
def takeChar (q : clist) (h : Heap) : clist × Heap × UInt8 :=
  let c := h.c_info q.c_cf
  let cf := q.c_cf + 1
  if q.c_cc - 1 ≤ 0 then (⟨q.c_cc - 1, 0, 0⟩, h.release (cblock (cf - 1)), c)
  else if round cf = 0 then
    let bp := cf - sizeofCblock
    (⟨q.c_cc - 1, info (h.c_next bp), q.c_cl⟩, h.release bp, c)
  else (⟨q.c_cc - 1, cf, q.c_cl⟩, h, c)

/-- `getc(p)`. -/
def getc (p : ι) (s : State ι) : State ι × ℤ :=
  if (s.q p).c_cc ≤ 0 then (s.set p ⟨0, 0, 0⟩ s.heap, -1)
  else
    let r := takeChar (s.q p) s.heap
    (s.set p r.1 r.2.1, r.2.2.toNat)

def q_to_bLoop : ℕ → clist → Heap → clist × Heap × List UInt8
  | 0, q, h => (q, h, [])
  | cc + 1, q, h =>
    let r := takeChar q h
    if r.1.c_cc ≤ 0 then (r.1, r.2.1, [r.2.2])
    else
      let r' := q_to_bLoop cc r.1 r.2.1
      (r'.1, r'.2.1, r.2.2 :: r'.2.2)

/-- `q_to_b(q, cp, cc)`: the characters moved to `cp`; their count is returned. -/
def q_to_b (p : ι) (cc : ℤ) (s : State ι) : State ι × List UInt8 :=
  if cc ≤ 0 then (s, [])
  else if (s.q p).c_cc ≤ 0 then (s.set p ⟨0, 0, 0⟩ s.heap, [])
  else
    let r := q_to_bLoop cc.toNat (s.q p) s.heap
    (s.set p r.1 r.2.1, r.2.2)

/-- The loop of `ndflush`; `none` when it has not ended after `fuel` rounds. -/
def ndflushLoop : ℕ → ℤ → clist → Heap → Option (clist × Heap)
  | 0, _, _, _ => none
  | fuel + 1, cc, q, h =>
    if cc > 0 ∧ q.c_cc ≠ 0 then
      let bp := cblock q.c_cf
      let e := if bp = cblock (q.c_cl - 1) then q.c_cl else bp + sizeofCblock
      let rem : ℤ := e - q.c_cf
      if cc ≥ rem then
        ndflushLoop fuel (cc - rem) ⟨q.c_cc - rem, info (h.c_next bp), q.c_cl⟩ (h.release bp)
      else
        let q' : clist := ⟨q.c_cc - cc, q.c_cf + cc.toNat, q.c_cl⟩
        if q'.c_cc ≤ 0 then some (q', h.release bp) else some (q', h)
    else some (q, h)

/-- `ndflush(q, cc)`. -/
def ndflush (p : ι) (fuel : ℕ) (cc : ℤ) (s : State ι) : Option (State ι) :=
  if (s.q p).c_cc ≤ 0 then some s
  else (ndflushLoop fuel cc (s.q p) s.heap).map fun r =>
    if r.1.c_cc ≤ 0 then s.set p ⟨0, 0, 0⟩ r.2 else s.set p r.1 r.2

/-! ## Putting characters -/

/-- `putc(c, p)`. -/
def putc (p : ι) (c : ℤ) (s : State ι) : State ι × ℤ :=
  let q := s.q p
  let h := s.heap
  if q.c_cl = 0 ∨ q.c_cc < 0 then
    if h.cfreelist = 0 then (s, -1)
    else
      let cp := info h.cfreelist
      (s.set p ⟨q.c_cc + 1, cp, cp + 1⟩ (h.grab.store cp (char c)), 0)
  else if round q.c_cl = 0 then
    let bp := q.c_cl - sizeofCblock
    if h.cfreelist = 0 then (s.set p q (h.link bp 0), -1)
    else
      let cp := info h.cfreelist
      (s.set p ⟨q.c_cc + 1, q.c_cf, cp + 1⟩ ((h.link bp h.cfreelist).grab.store cp (char c)), 0)
  else (s.set p ⟨q.c_cc + 1, q.c_cf, q.c_cl + 1⟩ (h.store q.c_cl (char c)), 0)

/-- The loop of `b_to_q`, with `cq` where the next character goes: `cq` at its end and
the characters that are left. -/
def b_to_qLoop : ℕ → Heap → List UInt8 → ℕ × Heap × List UInt8
  | cq, h, [] => (cq, h, [])
  | cq, h, c :: cp =>
    if round cq = 0 then
      let bp := cq - sizeofCblock
      if h.cfreelist = 0 then (cq, h.link bp 0, c :: cp)
      else
        let cq := info h.cfreelist
        b_to_qLoop (cq + 1) ((h.link bp h.cfreelist).grab.store cq c) cp
    else b_to_qLoop (cq + 1) (h.store cq c) cp

/-- `b_to_q(cp, cc, q)`, with `cc` the length of `cp`: the count not transferred. -/
def b_to_q (p : ι) (cp : List UInt8) (s : State ι) : State ι × ℕ :=
  let q := s.q p
  let h := s.heap
  if cp = [] then (s, 0)
  else if q.c_cl = 0 ∨ q.c_cc < 0 then
    if h.cfreelist = 0 then (s.set p q h, cp.length)
    else
      let cq := info h.cfreelist
      let r := b_to_qLoop cq h.grab cp
      (s.set p ⟨q.c_cc + (cp.length - r.2.2.length), cq, r.1⟩ r.2.1, r.2.2.length)
  else
    let r := b_to_qLoop q.c_cl h cp
    (s.set p ⟨q.c_cc + (cp.length - r.2.2.length), q.c_cf, r.1⟩ r.2.1, r.2.2.length)

/-! ## Taking the last character back -/

/-- A character where an `int` is expected: it is signed. -/
def schar (c : UInt8) : ℤ := if c.toNat < 128 then c.toNat else (c.toNat : ℤ) - 256

/-- `bp` goes to the free list, and no one is waked. -/
def Heap.giveback (h : Heap) (bp : ℕ) : Heap := { h.release bp with cwaiting := h.cwaiting }

/-- The loop of `unputc`, from `bp` to the cblock before `nbp`; `none` when it has not ended after
`fuel` rounds. -/
def Heap.before (h : Heap) (nbp : ℕ) : ℕ → ℕ → Option ℕ
  | 0, _ => none
  | fuel + 1, bp => if h.c_next bp ≠ nbp then h.before nbp fuel (h.c_next bp) else some bp

/-- `unputc(p)`: "Remove the last character in the list and return it." -/
def unputc (p : ι) (fuel : ℕ) (s : State ι) : Option (State ι × ℤ) :=
  let q := s.q p
  let h := s.heap
  if q.c_cc ≤ 0 then some (s, -1)
  else
    let cl := q.c_cl - 1
    let c := schar (h.c_info cl)
    if q.c_cc - 1 ≤ 0 then some (s.set p ⟨q.c_cc - 1, 0, 0⟩ (h.giveback (cblock cl)), c)
    else if round cl = info 0 then
      (h.before (cblock cl) fuel (cblock q.c_cf)).map fun obp =>
        (s.set p ⟨q.c_cc - 1, q.c_cf, obp + sizeofCblock⟩
          ((h.giveback (h.c_next obp)).link obp 0), c)
    else some (s.set p ⟨q.c_cc - 1, q.c_cf, cl⟩ h, c)

/-- `catq(from, to)`; `none` when the loop has not ended after `fuel` rounds. -/
def catq (fromq toq : ι) : ℕ → State ι → Option (State ι)
  | 0, _ => none
  | fuel + 1, s =>
    let r := getc fromq s
    if r.2 ≥ 0 then catq fromq toq fuel (putc toq r.2 r.1).1 else some r.1

/-! ## Walking -/

/-- `nextc(p, cp)`. -/
def nextc (q : clist) (h : Heap) (cp : ℕ) : ℕ :=
  if q.c_cc ≠ 0 ∧ cp + 1 ≠ q.c_cl then
    if round (cp + 1) = 0 then info (h.c_next (cp + 1 - sizeofCblock)) else cp + 1
  else 0

/-- What a walk with `nextc` from `cp` on reads; `none` when it has not ended after
`fuel` calls. -/
def nextcs (q : clist) (h : Heap) : ℕ → ℕ → Option (List UInt8)
  | _, 0 => some []
  | 0, _ + 1 => none
  | fuel + 1, cp + 1 =>
    (nextcs q h fuel (nextc q h (cp + 1))).map fun l => h.c_info (cp + 1) :: l

/-! ## The beginning -/

/-- The loop of `cinit`. -/
def cinitLoop (cfree nclist : ℕ) : ℕ → ℕ → Heap → Heap
  | 0, _, h => h
  | n + 1, cp, h =>
    if cp < cfree + sizeofCblock * (nclist - 1) then
      cinitLoop cfree nclist n (cp + sizeofCblock) (h.release cp)
    else h

/-- `cinit()`, with room for `nclist` cblocks from `cfree` on: nothing is queued yet. -/
def cinit (cfree nclist : ℕ) (c_next : ℕ → ℕ) (c_info : ℕ → UInt8) : State ι :=
  ⟨cinitLoop cfree nclist nclist (cblock (cfree + (sizeofCblock - 1)))
      ⟨c_next, c_info, 0, 0, false⟩,
    fun _ => ⟨0, 0, 0⟩⟩

end Clist
