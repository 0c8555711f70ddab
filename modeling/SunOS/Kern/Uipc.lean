/-
# Mbufs and clusters in memory (`sys/uipc_mbuf.c`, `h/mbuf.h`)

Here an mbuf is a header at an address, and its data are bytes of memory: its own, in a cluster
that other mbufs may refer to, or somebody else's.  `m_off` is the distance from the header to
the data as an unsigned word, and tells which.  The free lists are lists of addresses; what
memory the allocators below add to them is a list of what they give next.
-/
import SunOS.Lib.CellMemory
import SunOS.Lib.Word
import Mathlib.Logic.Function.Basic

namespace Uipc

open CellMemory

def MSIZE : ℤ := 128

def MMINOFF : ℤ := 12

def MMAXOFF : ℤ := 124

def MLEN : ℤ := 112

def MCLBYTES : ℤ := 1024

def MT_FREE : ℤ := 0

def M_COPYALL : ℤ := 1000000000

/-- `sizeof (int)`. -/
def sizeofInt : ℤ := 4

/-- The value of a `char` after `x` is assigned to it. -/
def int8 (x : ℤ) : ℤ := (x + 128) % 256 - 128

/-- `m_clfun`: `buffree`, or a function of the owner of the data. -/
inductive clfun
  | buffree
  | owner (f : ℕ)
  deriving DecidableEq, Repr

/-- `struct mbuf`, at `addr`.  The cluster fields share their room with the data of an mbuf that
has its own. -/
structure mbuf where
  addr : ℤ
  m_off : ℤ
  m_len : ℤ
  m_type : ℤ
  m_cltype : ℤ
  m_clfun : clfun
  m_clarg : ℤ
  deriving DecidableEq, Repr

/-- `mtod(m, caddr_t)`. -/
def mbuf.mtod (m : mbuf) : ℤ := uint32 (m.addr + m.m_off)

/-- Why a call does not return: its panic, or a null pointer. -/
inductive halt
  | mfree | mclput | mcldup | m_copy | kmem_alloc | fault
  deriving DecidableEq, Repr

/-- The kernel, as far as it is about mbufs: `more` and `clusters` are what the next calls
`m_clalloc(1, MPG_MBUFS)` and `m_clalloc(1, MPG_CLUSTERS)` put on the free lists, nothing when
they fail; `kmem` are the blocks that `kmem_alloc` gives, with their sizes; `called` are the
calls of functions that take data back. -/
structure kern where
  memory : ℤ → UInt8
  mbutl : ℤ
  mfree : List ℤ
  more : List (List ℤ)
  mclfree : List ℤ
  clusters : List (List ℤ)
  mclrefcnt : ℤ → ℤ
  m_clfree : ℤ
  kmem : List (ℤ × ℤ)
  called : List (clfun × ℤ)

variable (s : kern)

/-- `mtoclx(x)`. -/
def kern.mtoclx (x : ℤ) : ℤ := (x - s.mbutl) / MCLBYTES

/-- `bcopy` of bytes that have been read to `dst`. -/
def kern.bcopy (l : List UInt8) (dst : ℤ) : kern := { s with memory := write s.memory dst l }

/-- The data of an mbuf. -/
def kern.data (m : mbuf) : List UInt8 := read s.memory m.mtod m.m_len.toNat

/-- The bytes of a chain. -/
def kern.bytes (mp : List mbuf) : List UInt8 := (mp.map s.data).flatten

/-- The bytes of an `int`. -/
def intBytes (x : ℤ) : List UInt8 :=
  [UInt8.ofNat (x / 16777216 % 256).toNat, UInt8.ofNat (x / 65536 % 256).toNat,
    UInt8.ofNat (x / 256 % 256).toNat, UInt8.ofNat (x % 256).toNat]

/-! ## Mbufs -/

/-- `MGET` from a list that is not empty.  The other fields keep what was there; `m_len` and
`m_cltype` are set before they are used. -/
def mgot (type a : ℤ) : mbuf := ⟨a, MMINOFF, 0, type, 0, .buffree, 0⟩

/-- `MGET(m, canwait, type)`. -/
def MGET (type : ℤ) : Option mbuf × kern :=
  match s.mfree with
  | a :: mfree => (some (mgot type a), { s with mfree := mfree })
  | [] =>
    -- m_more
    match s.more with
    | (a :: mfree) :: more => (some (mgot type a), { s with mfree := mfree, more := more })
    | [] :: more => (none, { s with more := more })
    | [] => (none, s)

/-- `mclput(m)`. -/
def mclput (m : mbuf) : Except halt kern :=
  if m.m_cltype = 1 then
    let c := m.mtod / MCLBYTES * MCLBYTES
    let cnt := int8 (s.mclrefcnt (s.mtoclx c) - 1)
    let s := { s with mclrefcnt := Function.update s.mclrefcnt (s.mtoclx c) cnt }
    if cnt = 0 then
      -- `m->m_next = mclfree` is a store into the cluster
      let s := s.bcopy (intBytes (s.mclfree.head?.getD 0)) c
      .ok { s with mclfree := c :: s.mclfree, m_clfree := s.m_clfree + 1 }
    else .ok s
  else if m.m_cltype = 2 then .ok { s with called := (m.m_clfun, m.m_clarg) :: s.called }
  else .error .mclput

/-- `MFREE(m, n)`. -/
def MFREE (m : mbuf) : Except halt kern :=
  if m.m_type = MT_FREE then .error .mfree
  else
    (if m.m_off > MSIZE then mclput s m else .ok s).map fun s =>
      { s with mfree := m.addr :: s.mfree }

/-- `m_freem(m)`. -/
def m_freem : kern → List mbuf → Except halt kern
  | s, [] => .ok s
  | s, m :: mp => (MFREE s m).bind fun s => m_freem s mp

/-! ## Clusters -/

/-- The clusters that `if (mclfree == 0) m_clalloc(1, MPG_CLUSTERS)` puts on the free list. -/
def kern.grown : List ℤ :=
  match s.mclfree, s.clusters with
  | [], cs :: _ => cs
  | _, _ => []

def kern.grow : kern :=
  match s.mclfree with
  | [] =>
    { s with
      mclfree := s.grown
      clusters := s.clusters.tail
      m_clfree := s.m_clfree + s.grown.length }
  | _ => s

/-- `mclget(m)`: the mbuf with its cluster, nothing when there is none. -/
def mclget (m : mbuf) : Option mbuf × kern :=
  let s := s.grow
  match s.mclfree with
  | [] => (none, s)
  | p :: mclfree =>
    (some { m with m_len := MCLBYTES, m_off := uint32 (p - m.addr), m_cltype := 1 },
      { s with
        mclrefcnt := Function.update s.mclrefcnt (s.mtoclx p) (int8 (s.mclrefcnt (s.mtoclx p) + 1))
        m_clfree := s.m_clfree - 1
        mclfree := mclfree })

/-- `kmem_alloc(nbytes)`. -/
def kmem_alloc (nbytes : ℤ) : Except halt (ℤ × kern) :=
  match s.kmem with
  | (b, size) :: kmem =>
    if nbytes ≤ size then .ok (b, { s with kmem := kmem }) else .error .kmem_alloc
  | [] => .error .kmem_alloc

/-- `mcldup(m, n, off)`. -/
def mcldup (m n : mbuf) (off : ℤ) : Except halt (mbuf × kern) :=
  if m.m_cltype = 1 then
    let p := m.mtod
    .ok ({ n with m_off := uint32 (p - n.addr), m_cltype := 1 },
      { s with mclrefcnt :=
          Function.update s.mclrefcnt (s.mtoclx p) (int8 (s.mclrefcnt (s.mtoclx p) + 1)) })
  else if m.m_cltype = 2 then
    (kmem_alloc s (n.m_len + sizeofInt)).map fun (copybuf, s) =>
      let s := s.bcopy (intBytes (n.m_len + sizeofInt)) copybuf
      let s := s.bcopy (read s.memory (m.mtod + off) n.m_len.toNat) (copybuf + sizeofInt)
      ({ n with
          m_off := uint32 (copybuf + sizeofInt - n.addr - off)
          m_cltype := 2
          m_clfun := .buffree
          m_clarg := copybuf }, s)
  else .error .mcldup

/-! ## Chains -/

/-- The part of `m` from `off` on goes to the new mbuf `n`, whose `m_len` has been set. -/
def copyone (m n : mbuf) (off : ℤ) : Except halt (mbuf × kern) :=
  if m.m_off > MMAXOFF ∧ n.m_len > MLEN then
    (mcldup s m n off).map fun (n, s) => ({ n with m_off := uint32 (n.m_off + off) }, s)
  else .ok (n, s.bcopy (read s.memory (m.mtod + off) n.m_len.toNat) n.mtod)

/-- `while (off > 0)`, in `m_copy`. -/
def copyskip : List mbuf → ℤ → Except halt (List mbuf × ℤ)
  | [], off => if off > 0 then .error .m_copy else .ok ([], off)
  | m :: mp, off =>
    if off > 0 then
      if off < m.m_len then .ok (m :: mp, off) else copyskip mp (off - m.m_len)
    else .ok (m :: mp, off)

/-- `while (len > 0)`, in `m_copy`; `top` is the copy so far. -/
def copyloop (type : ℤ) : kern → List mbuf → ℤ → ℤ → List mbuf → Except halt (List mbuf × kern)
  | s, [], _, len, top =>
    if len > 0 then
      if len ≠ M_COPYALL then .error .m_copy else .ok (top, s)
    else .ok (top, s)
  | s, m :: mp, off, len, top =>
    if len > 0 then
      match MGET s type with
      | (none, s) => (m_freem s top).map fun s => ([], s)
      | (some n, s) =>
        (copyone s m { n with m_len := min len (m.m_len - off) } off).bind fun (n, s) =>
          copyloop type s mp 0 (if len ≠ M_COPYALL then len - n.m_len else len) (top ++ [n])
    else .ok (top, s)

/-- `m_copy(m, off, len)`. -/
def m_copy (mp : List mbuf) (off len : ℤ) : Except halt (List mbuf × kern) :=
  if len = 0 then .ok ([], s)
  else if off < 0 ∨ len < 0 then .error .m_copy
  else
    match mp with
    | [] => .error .fault
    | m :: _ => (copyskip mp off).bind fun (mp, off) => copyloop m.m_type s mp off len []

/-- `while (n)`, in `m_cat`; `m` is the last mbuf of the first chain. -/
def catloop : kern → mbuf → List mbuf → Except halt (List mbuf × kern)
  | s, m, [] => .ok ([m], s)
  | s, m, n :: ns =>
    if m.m_off ≥ MMAXOFF ∨ m.m_off + m.m_len + n.m_len > MMAXOFF then .ok (m :: n :: ns, s)
    else
      (MFREE (s.bcopy (s.data n) (m.mtod + m.m_len)) n).bind fun s =>
        catloop s { m with m_len := m.m_len + n.m_len } ns

/-- `m_cat(m, n)`, which starts at the last mbuf of the chain `m`. -/
def m_cat : List mbuf → List mbuf → Except halt (List mbuf × kern)
  | [], _ => .error .fault
  | [m], n => catloop s m n
  | m :: m' :: mp, n => (m_cat (m' :: mp) n).map fun (mp, s) => (m :: mp, s)

/-- The loop of `m_pullup`: `len` bytes are still to be had for `m`.  What is left of `len` and
of the chain. -/
def pulluploop : kern → mbuf → ℤ → List mbuf → Except halt (mbuf × ℤ × List mbuf × kern)
  | s, m, len, [] => .ok (m, len, [], s)
  | s, m, len, n :: ns =>
    let count := min (min (MLEN - m.m_len) len) n.m_len
    if count > 0 then
      let s := s.bcopy (read s.memory n.mtod count.toNat) (m.mtod + m.m_len)
      let n := { n with m_off := uint32 (n.m_off + count), m_len := n.m_len - count }
      let m := { m with m_len := m.m_len + count }
      if n.m_len > 0 then .ok (m, len - count, n :: ns, s)
      else (MFREE s n).bind fun s => pulluploop s m (len - count) ns
    else if n.m_len > 0 then .ok (m, len, n :: ns, s)
    else (MFREE s n).bind fun s => pulluploop s m len ns

/-- `m_pullup(m0, len)`; the chain is empty for 0. -/
def m_pullup (m0 : List mbuf) (len : ℤ) : Except halt (List mbuf × kern) :=
  match m0 with
  | [] => .error .fault
  | n :: ns =>
    if len > MLEN then (m_freem s (n :: ns)).map fun s => ([], s)
    else
      match MGET s n.m_type with
      | (none, s) => (m_freem s (n :: ns)).map fun s => ([], s)
      | (some m, s) =>
        (pulluploop s { m with m_len := 0 } len (n :: ns)).bind fun (m, len, n, s) =>
          if len ≠ 0 then
            (MFREE s m).bind fun s => (m_freem s n).map fun s => ([], s)
          else .ok (m :: n, s)

end Uipc
