/-
# Socket buffers (`sys/uipc_socket2.c`)

A sockbuf queues a chain of mbufs and counts, in 16 bits each, the bytes in it and the
memory the mbufs take.  `sbappend` copies the bytes of a small mbuf into the last of the
chain when they fit and neither ends a record; mbufs without bytes are kept only when
they do.
-/
import SunOS.Lib.Word
import Mathlib.Data.UInt
import Mathlib.Algebra.BigOperators.Group.List.Basic
import Mathlib.Algebra.Order.BigOperators.Group.List
import Mathlib.Algebra.Order.Ring.Int

namespace Sockbuf

def MSIZE : ℤ := 128

def MMINOFF : ℕ := 12

def MMAXOFF : ℕ := 124

def MLEN : ℤ := 112

def MCLBYTES : ℤ := 1024

def SB_MAXCOUNT : ℤ := 32767

def SB_LOCK : BitVec 16 := 0x01

/-- `sizeof (struct sockaddr)`. -/
def sizeofSockaddr : ℕ := 16

/-- An mbuf: where its data are, relative to it, whether `m_act` is set, and the data. -/
structure mbuf where
  m_off : ℕ
  m_act : Bool
  dat : List UInt8
  deriving DecidableEq, Repr

def mbuf.m_len (m : mbuf) : ℤ := m.dat.length

structure sockbuf where
  sb_cc : ℤ
  sb_hiwat : ℤ
  sb_mbcnt : ℤ
  sb_mbmax : ℤ
  sb_mb : List mbuf
  sb_flags : BitVec 16
  deriving DecidableEq, Repr

def sbspace (sb : sockbuf) : ℤ := min (sb.sb_hiwat - sb.sb_cc) (sb.sb_mbmax - sb.sb_mbcnt)

/-- `sballoc(sb, m)`: the counts with the mbuf `m` in them. -/
def sballoc (sb : sockbuf) (m : mbuf) : sockbuf :=
  let mbcnt := int16 (sb.sb_mbcnt + MSIZE)
  { sb with
    sb_cc := int16 (sb.sb_cc + m.m_len)
    sb_mbcnt := if m.m_off > MMAXOFF then int16 (mbcnt + MCLBYTES) else mbcnt }

/-- `sbfree(sb, m)`: the counts without it. -/
def sbfree (sb : sockbuf) (m : mbuf) : sockbuf :=
  let mbcnt := int16 (sb.sb_mbcnt - MSIZE)
  { sb with
    sb_cc := int16 (sb.sb_cc - m.m_len)
    sb_mbcnt := if m.m_off > MMAXOFF then int16 (mbcnt - MCLBYTES) else mbcnt }

/-- `sbreserve(sb, cc)`. -/
def sbreserve (sb : sockbuf) (cc : ℤ) : sockbuf :=
  let hiwat := int16 cc
  let mbmax := int16 (cc * 2)
  { sb with
    sb_hiwat := if hiwat ≤ 0 then SB_MAXCOUNT else hiwat
    sb_mbmax := if mbmax ≤ 0 then SB_MAXCOUNT else mbmax }

/-- The bytes of `m` fit behind those of `n`. -/
def compacts (n m : mbuf) : Bool :=
  n.m_off ≤ MMAXOFF ∧ m.m_off ≤ MMAXOFF ∧ n.m_act = false ∧ m.m_act = false ∧
    n.m_off + n.dat.length + m.dat.length ≤ MMAXOFF

/-- An mbuf that `sbappend` frees at once. -/
def mbuf.blank (m : mbuf) : Bool := m.dat = [] ∧ m.m_act = false

/-- `sbappend(sb, m)`. -/
def sbappend (sb : sockbuf) : List mbuf → sockbuf
  | [] => sb
  | m :: ms =>
    if m.blank then sbappend sb ms
    else
      match sb.sb_mb.getLast? with
      | none => sbappend { sballoc sb m with sb_mb := [m] } ms
      | some n =>
        if compacts n m then
          sbappend { sb with
            sb_cc := int16 (sb.sb_cc + m.m_len)
            sb_mb := sb.sb_mb.dropLast ++ [{ n with dat := n.dat ++ m.dat }] } ms
        else sbappend { sballoc sb m with sb_mb := sb.sb_mb ++ [m] } ms

/-- The last mbuf of a chain ends the record. -/
def endRecord : List mbuf → List mbuf
  | [] => []
  | [m] => [{ m with m_act := true }]
  | m :: ms => m :: endRecord ms

/-- The mbuf that `m_copy(m, 0, m->m_len)` makes, if it gets one: a cluster is shared,
at the offset `off`. -/
def m_copy (m : mbuf) (off : Option ℕ) : Option mbuf :=
  off.map fun off => ⟨if m.m_off > MMAXOFF ∧ m.m_len > MLEN then off else MMINOFF, false, m.dat⟩

/-- The mbuf with the rights, if one is got. -/
def rightsMbuf (rights0 : Option mbuf) (off : Option ℕ) : Option mbuf :=
  match rights0 with
  | none => off.map fun _ => ⟨MMINOFF, false, []⟩
  | some r => if r.m_len = 0 then off.map fun _ => ⟨MMINOFF, false, []⟩ else m_copy r off

/-- `sbappendaddr(sb, asa, m0, rights0, rightsflag)`; the mbufs for the address and the
rights are got or not, as `got` and `off` say.  `none` is a panic. -/
def sbappendaddr (sb : sockbuf) (asa : Vector UInt8 sizeofSockaddr) (m0 : List mbuf)
    (rights0 : Option mbuf) (rightsflag got : Bool) (off : Option ℕ) : Option (sockbuf × ℤ) :=
  let len : ℤ := sizeofSockaddr + (rights0.map mbuf.m_len).getD 0 + (m0.map mbuf.m_len).sum
  if m0 = [] then none
  else if len > sbspace sb then some (sb, 0)
  else if got = false then some (sb, 0)
  else
    let m : mbuf := ⟨MMINOFF, true, asa.toList⟩
    if rightsflag then
      match rightsMbuf rights0 off with
      | none => some (sb, 0)
      | some r => some (sbappend sb (m :: { r with m_act := true } :: endRecord m0), 1)
    else some (sbappend sb (m :: endRecord m0), 1)

/-- The loop of `sbdrop`: the mbufs left; `none` is a panic. -/
def sbdropLoop (sb : sockbuf) : List mbuf → ℤ → Option sockbuf
  | [], len => if len > 0 then none else some { sb with sb_mb := [] }
  | m :: ms, len =>
    if len > 0 ∨ m.m_len = 0 then
      if m.m_len > len then
        some { sb with
          sb_cc := int16 (sb.sb_cc - len)
          sb_mb :=
            { m with
              dat := m.dat.drop len.toNat
              m_off := (m.m_off + len.toNat) % 4294967296 } :: ms }
      else sbdropLoop (sbfree sb m) ms (len - m.m_len)
    else some { sb with sb_mb := m :: ms }

/-- `sbdrop(sb, len)`. -/
def sbdrop (sb : sockbuf) (len : ℤ) : Option sockbuf := sbdropLoop sb sb.sb_mb len

/-- `sbflush(sb)`. -/
def sbflush (sb : sockbuf) : Option sockbuf :=
  if sb.sb_flags &&& SB_LOCK ≠ 0 then none
  else
    match if sb.sb_cc ≠ 0 then sbdrop sb sb.sb_cc else some sb with
    | none => none
    | some sb => if sb.sb_cc ≠ 0 ∨ sb.sb_mbcnt ≠ 0 ∨ sb.sb_mb ≠ [] then none else some sb

end Sockbuf
