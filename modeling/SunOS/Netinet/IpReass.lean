/-
# Reassembly of IP datagrams (`ipintr` and `ip_reass`, `netinet/ip_input.c`)

The fragments of a datagram wait in a queue found by its id, protocol and addresses.
While they do their headers are hidden: each is a record, in which the links of the
queue take the place of the addresses, and the chain of mbufs with the data.  Once
they cover the datagram the chains are put together and the first header is made
visible again.

A header that is visible takes up the first bytes of its chain; its fields are those
of the record beside it.
-/
import SunOS.Kern.Mbuf
import SunOS.Lib.Reassembly
import SunOS.Lib.Word

namespace Ip

open Mbuf Reassembly

def IP_MF : BitVec 16 := 0x2000

def IPFRAGTTL : ℤ := 15

/-- `sizeof (struct ipasfrag)`. -/
def sizeofIpasfrag : ℕ := 20

/-- A packet for this host, its header in host format, in the chain `m`. -/
structure ip where
  ip_hl : ℕ
  ip_len : ℤ
  ip_id : ℤ
  ip_off : BitVec 16
  ip_p : ℤ
  ip_src : ℤ
  ip_dst : ℤ
  m : List mbuf
  deriving DecidableEq, Repr

/-- A fragment whose header is hidden, with the data in the chain `m`. -/
structure ipasfrag where
  ip_hl : ℕ
  ipf_mff : Bool
  ip_len : ℤ
  ip_id : ℤ
  ip_off : ℤ
  ip_p : ℤ
  m : List mbuf
  deriving DecidableEq, Repr

/-- A queue of fragments, in the mbuf at `addr`. -/
structure ipq where
  addr : ℕ
  ipq_ttl : ℤ
  ipq_p : ℤ
  ipq_id : ℤ
  ipq_src : ℤ
  ipq_dst : ℤ
  frags : List ipasfrag
  deriving DecidableEq, Repr

/-- What is passed to the protocol: the header, its length without the header's, and
the chain. -/
structure datagram where
  ip_hl : ℕ
  ip_len : ℤ
  ip_id : ℤ
  ip_p : ℤ
  ip_src : ℤ
  ip_dst : ℤ
  m : List mbuf
  deriving DecidableEq, Repr

/-- The queues, the mbufs freed so far, and the mbufs the calls of `m_get` will get. -/
structure net where
  ipq : List ipq
  freed : List ℕ
  supply : List (Option ℕ)
  deriving DecidableEq, Repr

/-! ## The queue of fragments -/

/-- `m_adj(dtom(q), i)`, and the offset and the length with it. -/
def ipasfrag.trim (q : ipasfrag) (i : ℤ) : ipasfrag :=
  { q with ip_len := int16 (q.ip_len - i), ip_off := int16 (q.ip_off + i), m := m_adj q.m i }

def fragOps : Ops ipasfrag where
  beyond q ip := q.ip_off > ip.ip_off
  into q ip := q.ip_off + q.ip_len - ip.ip_off
  len ip := ip.ip_len
  trim q i := q.trim i

/-- The walk that checks "for complete reassembly", from the offset `next` on: the
length if there is no gap. -/
def gapless (next : ℤ) : List ipasfrag → Option ℤ
  | [] => some next
  | q :: qs => if q.ip_off ≠ next then none else gapless (next + q.ip_len) qs

/-- The length of the datagram if the fragments make up all of it. -/
def complete (frags : List ipasfrag) : Option ℤ :=
  match gapless 0 frags with
  | none => none
  | some next =>
    match frags.getLast? with
    | none => none
    | some q => if q.ipf_mff then none else some next

/-- "Reassembly is complete; concatenate fragments": the chain, and the mbufs freed. -/
def concatenate (m : List mbuf) : List ipasfrag → List mbuf × List ℕ
  | [] => (m, [])
  | q :: qs =>
    let r := m_cat m q.m
    let r' := concatenate r.1 qs
    (r'.1, r.2 ++ r'.2)

/-- The chain of the first fragment is compacted with itself, then with the others. -/
def concatenateAll : List ipasfrag → List mbuf × List ℕ
  | [] => ([], [])
  | q :: qs =>
    match q.m with
    | [] => concatenate [] qs
    | m :: t =>
      let r := m_cat [m] t
      let r' := concatenate r.1 qs
      (r'.1, r.2 ++ r'.2)

/-- `m->m_off += hlen; m->m_len -= hlen`, of the first mbuf. -/
def hideHeader (hlen : ℕ) : List mbuf → List mbuf
  | [] => []
  | m :: ms => m.advance hlen :: ms

/-- "Make header visible." -/
def showHeader : List mbuf → List mbuf
  | [] => []
  | m :: ms => m.retreat sizeofIpasfrag :: ms

/-- "Create header for new ip packet by modifying header of first packet; dequeue and
discard fragment reassembly header." -/
def newPacket (fp : ipq) (first : ipasfrag) (next : ℤ) (m : List mbuf) : datagram where
  ip_hl := first.ip_hl
  ip_len := int16 next
  ip_id := first.ip_id
  ip_p := first.ip_p
  ip_src := fp.ipq_src
  ip_dst := fp.ipq_dst
  m := showHeader m

/-- The end of `ip_reass`, once `fp` has its new fragments: what becomes of `fp`, the
datagram if it is complete, and the mbufs freed. -/
def finish (fp : ipq) : Option ipq × Option datagram × List ℕ :=
  match complete fp.frags, fp.frags with
  | some next, first :: _ =>
    let r := concatenateAll fp.frags
    (none, some (newPacket fp first next r.1), r.2 ++ [fp.addr])
  | _, _ => (some fp, none, [])

/-! ## The queues -/

/-- `fp` is the queue of fragments of the datagram `ip` belongs to. -/
def ipq.holds (fp : ipq) (ip : ip) : Bool :=
  ip.ip_id = fp.ipq_id ∧ ip.ip_src = fp.ipq_src ∧ ip.ip_dst = fp.ipq_dst ∧ ip.ip_p = fp.ipq_p

/-- The queues with the first that `ip` belongs to replaced. -/
def setq (ip : ip) (fp' : Option ipq) : List ipq → List ipq
  | [] => []
  | fp :: fps => if fp.holds ip then fp'.toList ++ fps else fp :: setq ip fp' fps

/-- The mbufs of a chain, as `m_freem` frees them. -/
def chain (m : List mbuf) : List ℕ := m.map mbuf.addr

/-- `ip_reass(ip, fp)`; `hdr` is the header of `ip` as it came. -/
def ip_reass (hdr : ip) (ip : ipasfrag) (fp : Option ipq) (n : net) : net × Option datagram :=
  let ip := { ip with m := hideHeader (ip.ip_hl * 4) ip.m }
  match fp with
  | none =>
    match n.supply with
    | some a :: supply =>
      let fp : ipq := ⟨a, IPFRAGTTL, ip.ip_p, ip.ip_id, hdr.ip_src, hdr.ip_dst, [ip]⟩
      let r := finish fp
      (⟨r.1.toList ++ n.ipq, r.2.2 ++ n.freed, supply⟩, r.2.1)
    | none :: supply => ({ n with freed := chain ip.m ++ n.freed, supply := supply }, none)
    | [] => ({ n with freed := chain ip.m ++ n.freed }, none)
  | some fp =>
    match fragOps.insert ip fp.frags with
    | none => ({ n with freed := chain ip.m ++ n.freed }, none)
    | some (frags, gone) =>
      let r := finish { fp with frags := frags }
      ({ n with
          ipq := setq hdr r.1 n.ipq
          freed := r.2.2 ++ (gone.map fun q => chain q.m).flatten ++ n.freed }, r.2.1)

/-- The mbufs of a queue, as `ip_freef` frees them. -/
def ipq.mbufs (fp : ipq) : List ℕ := (fp.frags.map fun q => chain q.m).flatten ++ [fp.addr]

/-- `ipintr`, from the label `ours` on: a fragment goes to reassembly, another packet
to its protocol, without the fragments there are of it. -/
def ours (ip : ip) (n : net) : net × Option datagram :=
  let fp := n.ipq.find? fun fp => fp.holds ip
  let hlen := ip.ip_hl * 4
  let ip_len := int16 (ip.ip_len - hlen)
  let ipf_mff : Bool := ip.ip_off &&& IP_MF ≠ 0
  let ip_off := (ip.ip_off <<< 3).toInt
  if ipf_mff ∨ ip_off ≠ 0 then
    ip_reass ip ⟨ip.ip_hl, ipf_mff, ip_len, ip.ip_id, ip_off, ip.ip_p, ip.m⟩ fp n
  else
    let d : datagram := ⟨ip.ip_hl, ip_len, ip.ip_id, ip.ip_p, ip.ip_src, ip.ip_dst, ip.m⟩
    match fp with
    | none => (n, some d)
    | some fp => ({ n with ipq := setq ip none n.ipq, freed := fp.mbufs ++ n.freed }, some d)

/-- `ip_slowtimo()`: the queues whose time is up are discarded. -/
def ip_slowtimo (n : net) : net :=
  let aged := n.ipq.map fun fp => { fp with ipq_ttl := fp.ipq_ttl - 1 }
  { n with
    ipq := aged.filter fun fp => fp.ipq_ttl ≠ 0
    freed := ((aged.filter fun fp => fp.ipq_ttl = 0).map ipq.mbufs).flatten ++ n.freed }

/-- `ip_drain()`: all of them are. -/
def ip_drain (n : net) : net :=
  { n with ipq := [], freed := (n.ipq.map ipq.mbufs).flatten ++ n.freed }

end Ip
