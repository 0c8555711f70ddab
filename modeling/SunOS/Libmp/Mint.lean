/-
# Multiple precision integers (`libmp`)

A `MINT` is a sign and a magnitude: `len` counts the digits in use, negative for a
negative number, and `val` holds them in radix 32768, the lowest first.  `madd`, `msub`
and `mult` copy their operands before they free the result, so that what they leave in
`*c` depends on the values of `*a` and `*b` alone; over a store of objects, any two of the
three may be the same.

An `int` and a `long` have 32 bits and a `short` has 16.  A result `none` is a variable that
cannot hold its value, an access outside an array, or a call that nests too deep.
-/
import SunOS.Lib.Word
import SunOS.Lib.Radix
import Mathlib.Logic.Function.Basic

namespace Mp

open Function (update)

/-- `struct mint`; `val` are the cells that were allocated and written. -/
structure mint where
  len : ℤ
  val : List ℤ
  deriving DecidableEq, Repr

/-- The `MINT` objects of a program, by address. -/
abbrev Objs := ℕ → mint

/-! ## Machine integers -/

/-- A value for a `short`. -/
def short (x : ℤ) : Option ℤ := if -32768 ≤ x ∧ x ≤ 32767 then some x else none

/-- A value for an `int` or a `long`. -/
def long (x : ℤ) : Option ℤ := if -2147483648 ≤ x ∧ x ≤ 2147483647 then some x else none

/-- `x & 0100000`, bit 15. -/
def carried (x : ℤ) : Bool := x / 32768 % 2 = 1

/-- `x & 077777`, the 15 low bits. -/
def low (x : ℤ) : ℤ := x % 32768

/-- `x >> 15`, which keeps the sign. -/
def high (x : ℤ) : ℤ := x / 32768

/-- `x ^ 077777`. -/
def flip (x : ℤ) : ℤ := x + 32767 - 2 * (x % 32768)

/-! ## util.c -/

/-- `move(a,b)`: the copy of `*a`. -/
def move (a : mint) : Option mint :=
  if a.len.natAbs ≤ a.val.length then some ⟨a.len, a.val.take a.len.natAbs⟩ else none

/-- The number of cells up to the last that is not 0. -/
def upto (l : List ℤ) : ℕ := (l.reverse.dropWhile fun d => d = 0).length

/-- `mcan(a)`: leading zeros go. -/
def mcan (a : mint) : mint :=
  if a.len = 0 then a
  else
    let i := a.len.natAbs
    let j := upto (a.val.take i)
    if j = i then a
    else if j = 0 then ⟨0, []⟩
    else if 0 < a.len then { a with len := j }
    else { a with len := -j }

/-! ## madd.c -/

/-- The loops of `m_add`, first over the digits of both, then over the rest of `a`. -/
def addloop : ℤ → List ℤ → List ℤ → Option (List ℤ × ℤ)
  | carry, a :: as, b :: bs => do
      let x ← long (carry + a + b)
      if carried x then
        let (vs, carry) ← addloop 1 as bs
        some (low x :: vs, carry)
      else
        let d ← short x
        let (vs, carry) ← addloop 0 as bs
        some (d :: vs, carry)
  | carry, a :: as, [] => do
      let x ← long (carry + a)
      if carried x then
        let (vs, carry) ← addloop carry as []
        some (low x :: vs, carry)
      else
        let d ← short x
        let (vs, carry) ← addloop 0 as []
        some (d :: vs, carry)
  | carry, [], [] => some ([], carry)
  | _, [], _ :: _ => none

/-- `m_add(a,b,c)`. -/
def m_add (a b : mint) : Option mint := do
  let (vs, carry) ← addloop 0 (a.val.take a.len.toNat) (b.val.take b.len.toNat)
  if carry = 1 then some ⟨a.len + 1, vs ++ [1]⟩ else some ⟨a.len, vs⟩

/-- The loops of `m_sub`. -/
def subloop : ℤ → List ℤ → List ℤ → Option (List ℤ × ℤ)
  | borrow, a :: as, b :: bs => do
      let x ← long (borrow + a - b)
      if carried x then
        let (vs, borrow) ← subloop (-1) as bs
        some (low x :: vs, borrow)
      else
        let d ← short x
        let (vs, borrow) ← subloop 0 as bs
        some (d :: vs, borrow)
  | borrow, a :: as, [] => do
      let x ← long (borrow + a)
      if carried x then
        let (vs, borrow) ← subloop borrow as []
        some (low x :: vs, borrow)
      else
        let d ← short x
        let (vs, borrow) ← subloop 0 as []
        some (d :: vs, borrow)
  | borrow, [], [] => some ([], borrow)
  | _, [], _ :: _ => none

/-- The number of cells up to the last that is positive. -/
def uptoPos (l : List ℤ) : ℕ := (l.reverse.dropWhile fun d => ¬ 0 < d).length

mutual

/-- `madd(a,b,c)`; `fuel` bounds how deep the calls nest. -/
def madd : ℕ → mint → mint → Option mint
  | 0, _, _ => none
  | fuel + 1, a, b => do
      let x ← move a
      let y ← move b
      if 0 ≤ x.len then
        if 0 ≤ y.len then
          if y.len ≤ x.len then m_add x y else m_add y x
        else msub fuel x { y with len := -y.len }
      else if y.len ≤ 0 then
        let c ← madd fuel { x with len := -x.len } { y with len := -y.len }
        some { c with len := -c.len }
      else msub fuel y { x with len := -x.len }

/-- `m_sub(a,b,c)`, where `c->len` is 0 since `msub` has freed it. -/
def m_sub : ℕ → mint → mint → Option mint
  | 0, _, _ => none
  | fuel + 1, a, b => do
      let (vs, borrow) ← subloop 0 (a.val.take a.len.toNat) (b.val.take b.len.toNat)
      let c ← if borrow < 0 then madd fuel ⟨a.len, vs.map flip⟩ ⟨1, [1]⟩ else some ⟨0, vs⟩
      let n := uptoPos (c.val.take a.len.toNat)
      if n ≠ 0 then some ⟨if borrow = 0 then n else -n, c.val⟩ else some ⟨c.len, []⟩

/-- `msub(a,b,c)`. -/
def msub : ℕ → mint → mint → Option mint
  | 0, _, _ => none
  | fuel + 1, a, b => do
      let x ← move a
      let y ← move b
      if 0 ≤ x.len then
        if 0 ≤ y.len then
          if y.len ≤ x.len then m_sub fuel x y
          else
            let c ← msub fuel y x
            some { c with len := -c.len }
        else madd fuel x { y with len := -y.len }
      else if y.len ≤ 0 then
        -- the operands are swapped and the sign is changed as well
        let c ← msub fuel { y with len := -y.len } { x with len := -x.len }
        some { c with len := -c.len }
      else
        let c ← madd fuel { x with len := -x.len } y
        some { c with len := -c.len }

end

/-- The calls of `madd`, `m_sub` and `msub` do not nest deeper. -/
def depth : ℕ := 5

/-! ## mult.c -/

/-- The first row of `m_mult`: the cells it writes, the last of them what is left of `sum`. -/
def firstrow (bcache : ℤ) : ℤ → List ℤ → Option (List ℤ)
  | sum, [] => do
      let d ← short sum
      some [d]
  | sum, a :: as => do
      let p ← long (a * bcache)
      let sum ← long (sum + p)
      let cs ← firstrow bcache (high sum) as
      some (low sum :: cs)

/-- A later row, over the cells that are there. -/
def row (bcache : ℤ) : ℤ → List ℤ → List ℤ → Option (List ℤ)
  | sum, [], _ => do
      let d ← short sum
      some [d]
  | sum, a :: as, c :: cs => do
      let p ← long (a * bcache)
      let q ← long (p + c)
      let sum ← long (sum + q)
      let cs ← row bcache (high sum) as cs
      some (low sum :: cs)
  | _, _ :: _, [] => none

/-- The rows from the second on; `cs` are the cells from `cptr` on. -/
def rows (as : List ℤ) : List ℤ → List ℤ → Option (List ℤ)
  | [], cs => some cs
  | b :: bs, cs => do
      match ← row b 0 as cs with
      | [] => none
      | c :: cs =>
          let cs ← rows as bs cs
          some (c :: cs)

/-- `m_mult(a,b,c)`. -/
def m_mult (a b : mint) : Option mint :=
  let as := a.val.take a.len.toNat
  match b.val.take b.len.toNat with
  | [] => none
  | bcache :: bs => do
      match ← firstrow bcache 0 as with
      | [] => none
      | c :: cs =>
          let cs ← rows as bs cs
          let val := c :: cs
          let n := a.len + b.len
          match val[(n - 1).toNat]? with
          | none => none
          | some top => some ⟨if top = 0 then n - 1 else n, val⟩

/-- `mult(a,b,c)` once `*a` and `*b` are canonical. -/
def mult (a b : mint) : Option mint :=
  if a.len = 0 ∨ b.len = 0 then some ⟨0, []⟩
  else do
    let x ← move a
    let y ← move b
    let sign := (if a.len < 0 then -1 else 1) * (if b.len < 0 then -1 else 1)
    let x := { x with len := (x.len.natAbs : ℤ) }
    let y := { y with len := (y.len.natAbs : ℤ) }
    let c ← if x.len < y.len then m_mult x y else m_mult y x
    let c := if sign < 0 then { c with len := -c.len } else c
    if c.len = 0 then some ⟨0, []⟩ else some c

/-! ## The calls -/

namespace Objs

variable (s : Objs) (a b c : ℕ)

/-- `madd(a,b,c)` on the objects at `a`, `b` and `c`. -/
def madd : Option Objs := (Mp.madd depth (s a) (s b)).map (update s c)

/-- `msub(a,b,c)` on the objects at `a`, `b` and `c`. -/
def msub : Option Objs := (Mp.msub depth (s a) (s b)).map (update s c)

/-- `mult(a,b,c)` on the objects at `a`, `b` and `c`. -/
def mult : Option Objs :=
  let s := update s a (mcan (s a))
  let s := update s b (mcan (s b))
  (Mp.mult (s a) (s b)).map (update s c)

/-- `mcmp(a,b)`, with the objects after it. -/
def mcmp : Option (ℤ × Objs) :=
  let s := update s a (mcan (s a))
  let s := update s b (mcan (s b))
  if (s a).len ≠ (s b).len then some ((s a).len - (s b).len, s)
  else (Mp.msub depth (s a) (s b)).map fun c => (c.len, s)

end Objs

end Mp
