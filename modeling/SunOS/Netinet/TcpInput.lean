/-
# Segments as they come in (`tcp_input`, `netinet/tcp_input.c`)

The headers are taken off the chain that IP hands up, and the rest is trimmed to the receive
window.  What drops a segment before that for reasons of its own (a bad checksum, no connection,
no memory for the peer's address) does not change it.
-/
import SunOS.Kern.Mbuf
import SunOS.Netinet.TcpVar

namespace Tcp

open Mbuf

/-! ## Headers -/

/-- `sizeof (struct ip)`. -/
def sizeofIp : ℕ := 20

/-- `sizeof (struct tcphdr)`. -/
def sizeofTcphdr : ℕ := 20

/-- `sizeof (struct tcpiphdr)`. -/
def sizeofTcpiphdr : ℕ := 40

/-- The byte at `i`. -/
def byteAt (l : List UInt8) (i : ℕ) : ℕ := (l.getD i 0).toNat

/-- `ntohs` of the two bytes at `i`. -/
def ntohs (l : List UInt8) (i : ℕ) : ℤ := byteAt l i * 256 + byteAt l (i + 1)

/-- `ntohl` of the four bytes at `i`. -/
def ntohl (l : List UInt8) (i : ℕ) : ℤ := ntohs l i * 65536 + ntohs l (i + 2)

/-- `ip->ip_hl << 2`. -/
def ip_hl (l : List UInt8) : ℕ := byteAt l 0 % 16 * 4

/-- `ti->ti_off << 2`, `i` bytes into the segment. -/
def ti_off (l : List UInt8) (i : ℕ) : ℕ := byteAt l (i + 12) / 16 * 4

/-- The first mbuf of a chain loses the bytes from `i` to `i + n`: those behind are copied down. -/
def cutout (i n : ℕ) : List mbuf → List mbuf
  | [] => []
  | m :: mp => { m with dat := m.dat.take i ++ m.dat.drop (i + n) } :: mp

/-- `ip_stripoptions(ip, 0)`. -/
def ip_stripoptions (mp : List mbuf) : List mbuf :=
  cutout sizeofIp (ip_hl (contents mp) - sizeofIp) mp

/-- `m_pullup(m, len)` unless the first mbuf has the bytes. -/
def pullup (need : mbuf → Bool) (free : List ℕ) (mp : List mbuf) (len : ℕ) :
    Option (List mbuf × List ℕ) :=
  match mp with
  | [] => none
  | m :: mp => if need m then m_pullup free (m :: mp) len else some (m :: mp, free)

/-- A segment as it comes in: its headers, and `tiflags`, which is `ti_flags` at first. -/
structure incoming extends tcpiphdr where
  tiflags : BitVec 8
  deriving DecidableEq, Repr

/-- The headers, in host format. -/
def tcphdr (l : List UInt8) (ti_len : ℤ) (m : List mbuf) : incoming where
  ti_len := ti_len
  ti_seq := ntohl l (sizeofIp + 4)
  ti_ack := ntohl l (sizeofIp + 8)
  ti_flags := BitVec.ofNat 8 (byteAt l (sizeofIp + 13))
  ti_win := ntohs l (sizeofIp + 14)
  ti_urp := ntohs l (sizeofIp + 18)
  m := m
  tiflags := BitVec.ofNat 8 (byteAt l (sizeofIp + 13))

/-- `m->m_off += sizeof (struct tcpiphdr)`, and `m_len` with it. -/
def dropheaders : List mbuf → List mbuf
  | [] => []
  | m :: mp => m.advance sizeofTcpiphdr :: mp

/-- From "Get IP and TCP header together in first mbuf" to "Drop TCP and IP headers": `ip_len` is
what IP says there is behind its header, `free` the mbufs that can be got. -/
def headers (ip_len : ℤ) (free : List ℕ) (mp : List mbuf) : Option incoming := do
  let mp := if ip_hl (contents mp) > sizeofIp then ip_stripoptions mp else mp
  let (mp, free) ← pullup (fun m => m.m_off > MMAXOFF || m.dat.length < sizeofTcpiphdr) free mp
    sizeofTcpiphdr
  let off := ti_off (contents mp) sizeofIp
  if off < sizeofTcphdr ∨ off > ip_len then none
  else if off > sizeofTcphdr then
    let (mp, free) ← pullup (fun m => m.dat.length < sizeofIp + off) free mp (sizeofIp + off)
    match free with
    | [] => none
    | _ :: _ =>
      -- the options are copied to an mbuf of their own
      some (tcphdr (contents mp) (ip_len - off)
        (dropheaders (cutout sizeofTcpiphdr (off - sizeofTcphdr) mp)))
  else some (tcphdr (contents mp) (ip_len - off) (dropheaders mp))

/-! ## Trimming -/

/-- `m_adj(m, -todrop)`, or `m_adj(m->m_next, -todrop)` to "skip tcp/ip header in first mbuf". -/
def trimback (mp : List mbuf) (todrop : ℤ) : List mbuf :=
  match mp with
  | [] => []
  | m :: mp => if m.m_len ≠ 0 then m_adj (m :: mp) (-todrop) else m :: m_adj mp (-todrop)

/-- `trimthenstep6:` -/
def trimthenstep6 (rcv_wnd : ℤ) (ti : incoming) : incoming :=
  let ti := { ti with ti_seq := uint32 (ti.ti_seq + 1) }
  if ti.ti_len > rcv_wnd then
    { ti with
      m := trimback ti.m (ti.ti_len - rcv_wnd)
      ti_len := rcv_wnd
      tiflags := ti.tiflags &&& ~~~TH_FIN }
  else ti

/-- A SYN in front of the window is dropped. -/
def dropsyn (ti : incoming) : incoming :=
  if has ti.tiflags TH_SYN then
    { ti with
      tiflags :=
        if ti.ti_urp > 1 then ti.tiflags &&& ~~~TH_SYN
        else ti.tiflags &&& ~~~TH_SYN &&& ~~~TH_URG
      ti_seq := uint32 (ti.ti_seq + 1)
      ti_urp := if ti.ti_urp > 1 then ti.ti_urp - 1 else ti.ti_urp }
  else ti

/-- Data in front of the window are dropped. -/
def dropdata (todrop : ℤ) (ti : incoming) : incoming :=
  { ti with
    m := m_adj ti.m todrop
    ti_seq := uint32 (ti.ti_seq + todrop)
    ti_len := ti.ti_len - todrop
    ti_urp := if ti.ti_urp > todrop then ti.ti_urp - todrop else 0
    tiflags := if ti.ti_urp > todrop then ti.tiflags else ti.tiflags &&& ~~~TH_URG }

/-- "If segment begins before rcv_nxt, drop leading data (and SYN); if nothing left, just ack." -/
def trimleading (rcv_nxt : ℤ) (ti : incoming) : Option incoming :=
  let todrop := int32 (rcv_nxt - ti.ti_seq)
  if todrop > 0 then
    let todrop := if has ti.tiflags TH_SYN then todrop - 1 else todrop
    let ti := dropsyn ti
    if todrop > ti.ti_len ∨ todrop = ti.ti_len ∧ has ti.tiflags TH_FIN = false then none
    else some (dropdata todrop ti)
  else some ti

/-- "If segment ends after window, drop trailing data (and PUSH and FIN); if nothing left, just
ACK." -/
def trimtrailing (rcv_nxt rcv_wnd : ℤ) (ti : incoming) : Option incoming :=
  let todrop := int32 (ti.ti_seq + ti.ti_len - (rcv_nxt + rcv_wnd))
  if todrop > 0 then
    if todrop ≥ ti.ti_len then none
    else
      some { ti with
        m := trimback ti.m todrop
        ti_len := ti.ti_len - todrop
        tiflags := ti.tiflags &&& ~~~(TH_PUSH ||| TH_FIN) }
  else some ti

/-- "First check that at least some bytes of segment are within receive window." -/
def trimwindow (rcv_nxt rcv_wnd : ℤ) (ti : incoming) : Option incoming :=
  if rcv_wnd = 0 then
    if rcv_nxt ≠ ti.ti_seq then none
    else if ti.ti_len > 0 then
      some { ti with
        m := m_adj ti.m ti.ti_len
        ti_len := 0
        tiflags := ti.tiflags &&& ~~~(TH_PUSH ||| TH_FIN) }
    else some ti
  else (trimleading rcv_nxt ti).bind (trimtrailing rcv_nxt rcv_wnd)

/-- What `tcp_input` makes of a segment before it looks at the acknowledgement, and the `rcv_nxt`
that it has then; nothing when it drops the segment. -/
def trimming (tp : tcpcb) (ti : incoming) : Option (ℤ × incoming) :=
  match tp.t_state with
  | .LISTEN =>
    if has ti.tiflags TH_RST ∨ has ti.tiflags TH_ACK ∨ has ti.tiflags TH_SYN = false then none
    else some (uint32 (ti.ti_seq + 1), trimthenstep6 tp.rcv_wnd ti)
  | .SYN_SENT =>
    if has ti.tiflags TH_ACK ∧ (SEQ_LEQ ti.ti_ack tp.iss ∨ SEQ_GT ti.ti_ack tp.snd_max) then none
    else if has ti.tiflags TH_RST ∨ has ti.tiflags TH_SYN = false then none
    else some (uint32 (ti.ti_seq + 1), trimthenstep6 tp.rcv_wnd ti)
  | state =>
    match trimwindow tp.rcv_nxt tp.rcv_wnd ti with
    | none => none
    | some ti =>
      if has ti.tiflags TH_RST ∧ state ≠ .CLOSED then none
      -- "If a SYN is in the window, then this is an error and we send an RST"
      else if has ti.tiflags TH_SYN ∨ has ti.tiflags TH_ACK = false then none
      else some (tp.rcv_nxt, ti)

end Tcp
