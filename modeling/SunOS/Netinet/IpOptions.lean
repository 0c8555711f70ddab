/-
# Options in the header of a packet (`ip_dooptions`, `netinet/ip_input.c`)

The options lie behind the 20 bytes of the header, up to its length.  The loop walks over them by
their lengths; source routes and timestamps are slots of four bytes that the pointer of the option
selects.  Nothing of this can be trusted, so that the model has the memory behind the area too, and
notes what is touched.  The options are those of a big-endian machine, where the first field of a
byte is its high half.

The route by which an error is reported (`icmp_error`) is left out.
-/
import Mathlib.Logic.Function.Basic
import Mathlib.Data.Int.Order.Basic
import SunOS.Netinet.IpReass

namespace Ip

def IPOPT_EOL : UInt8 := 0

def IPOPT_NOP : UInt8 := 1

def IPOPT_TS : UInt8 := 68

def IPOPT_LSRR : UInt8 := 131

def IPOPT_SSRR : UInt8 := 137

def IPOPT_TS_TSONLY : ℕ := 0

def IPOPT_TS_TSANDADDR : ℕ := 1

def IPOPT_TS_PRESPEC : ℕ := 2

def AF_INET : ℤ := 2

def IFF_BROADCAST : BitVec 16 := 2

/-! ## Addresses and interfaces -/

/-- Four bytes in network order. -/
structure in_addr where
  b₀ : UInt8
  b₁ : UInt8
  b₂ : UInt8
  b₃ : UInt8
  deriving DecidableEq, Repr

def in_addr.s_addr (a : in_addr) : ℕ :=
  ((a.b₀.toNat * 256 + a.b₁.toNat) * 256 + a.b₂.toNat) * 256 + a.b₃.toNat

structure sockaddr_in where
  sin_family : ℤ
  sin_port : ℤ
  sin_addr : in_addr
  sin_zero : List UInt8
  deriving DecidableEq, Repr

/-- `equal(a1, a2)`: their 14 bytes of `sa_data` are. -/
def sockaddr_in.equal (a1 a2 : sockaddr_in) : Bool :=
  a1.sin_port = a2.sin_port ∧ a1.sin_addr = a2.sin_addr ∧ a1.sin_zero = a2.sin_zero

structure ifnet where
  if_flags : BitVec 16
  if_net : ℤ
  if_addr : sockaddr_in
  if_broadaddr : sockaddr_in
  deriving DecidableEq, Repr

def if_ifwithaddr (ifnet : List ifnet) (addr : sockaddr_in) : Option Ip.ifnet :=
  ifnet.find? fun ifp => ifp.if_addr.sin_family = addr.sin_family ∧
    (ifp.if_addr.equal addr ∨
      ifp.if_flags &&& IFF_BROADCAST ≠ 0 ∧ ifp.if_broadaddr.equal addr)

def if_ifonnetof (ifnet : List ifnet) (net : ℤ) : Option Ip.ifnet :=
  ifnet.find? fun ifp => ifp.if_net = net

/-- The network of an address, of class A, B or C. -/
def in_netof (a : in_addr) : ℤ :=
  let i := a.s_addr
  if i < 0x80000000 then i / 0x1000000
  else if i < 0xc0000000 then i / 0x10000
  else i / 0x100

/-- `ipaddr` with the address `sin_addr`. -/
def ipaddr (sin_addr : in_addr) : sockaddr_in := ⟨AF_INET, 0, sin_addr, List.replicate 8 0⟩

/-- The interfaces, the first inet interface and what `iptime` returns, call by call. -/
structure Host where
  ifnet : List Ip.ifnet
  ifinet : Option Ip.ifnet
  iptime : ℕ → in_addr

/-- There is an interface with this address. -/
def Host.has (h : Host) (a : in_addr) : Bool := (if_ifwithaddr h.ifnet (ipaddr a)).isSome

/-- There is one on its network. -/
def Host.onnet (h : Host) (a : in_addr) : Bool := (if_ifonnetof h.ifnet (in_netof a)).isSome

/-! ## Memory -/

/-- The bytes from `ip + 1` on, the destination of the packet, and how often `iptime` was
called. -/
structure Options where
  mem : ℕ → UInt8
  ip_dst : in_addr
  calls : ℕ

/-- What the loop touches: a byte of an option, or a slot of the option of `optlen` bytes at
`cp`. -/
inductive Access
  | byte (i : ℕ)
  | slot (i cp optlen : ℕ)
  deriving DecidableEq, Repr

/-- It lies in an area of `size` bytes, and a slot in its option. -/
def Access.Inside (size : ℕ) : Access → Prop
  | .byte i => i < size
  | .slot i cp optlen => i + 3 < size ∧ cp ≤ i ∧ i + 3 < cp + optlen

instance (size : ℕ) : (a : Access) → Decidable (a.Inside size)
  | .byte _ => inferInstanceAs (Decidable (_ < _))
  | .slot _ _ _ => inferInstanceAs (Decidable (_ ∧ _))

def word (mem : ℕ → UInt8) (i : ℕ) : in_addr := ⟨mem i, mem (i + 1), mem (i + 2), mem (i + 3)⟩

def Options.setByte (s : Options) (i : ℕ) (b : UInt8) : Options :=
  { s with mem := Function.update s.mem i b }

def Options.setWord (s : Options) (i : ℕ) (a : in_addr) : Options :=
  (((s.setByte i a.b₀).setByte (i + 1) a.b₁).setByte (i + 2) a.b₂).setByte (i + 3) a.b₃

/-! ## One option -/

/-- One pass of the loop: what is left behind, what was touched behind the type and the length, and
whether it goes to `bad`. -/
structure Pass where
  s : Options
  touched : List Access
  bad : Bool

/-- `IPOPT_LSRR` and `IPOPT_SSRR`.  `sizeof (long) - 1` is an `int`. -/
def sourceRoute (h : Host) (strict : Bool) (cp optlen : ℕ) (s : Options) : Pass :=
  let touched := [Access.byte (cp + 2)]
  let ptr := (s.mem (cp + 2)).toNat
  if ptr < 4 ∨ (ptr : ℤ) > optlen - 3 then ⟨s, touched, false⟩
  else
    let sin := cp + ptr
    let touched := touched ++ [.slot sin cp optlen]
    let a := word s.mem sin
    if ¬ h.has a then ⟨s, touched, strict⟩
    else
      let t := s.ip_dst
      let s := { s with ip_dst := a }.setWord sin t
      let s := s.setByte (cp + 2) (s.mem (cp + 2) + 4)
      if ((s.mem (cp + 2)).toNat : ℤ) > optlen - 3 then ⟨s, touched, false⟩
      else
        let s := { s with ip_dst := word s.mem (sin + 4) }
        ⟨s, touched ++ [.slot (sin + 4) cp optlen], strict && ! h.onnet s.ip_dst⟩

/-- `*(n_time *)sin = iptime(); ipt->ipt_ptr += 4`. -/
def stamp (h : Host) (cp sin : ℕ) (s : Options) : Options :=
  let s := { s with calls := s.calls + 1 }.setWord sin (h.iptime s.calls)
  s.setByte (cp + 2) (s.mem (cp + 2) + 4)

/-- `IPOPT_TS`. -/
def timestamp (h : Host) (cp : ℕ) (s : Options) : Pass :=
  let ipt_len := (s.mem (cp + 1)).toNat
  if ipt_len < 5 then ⟨s, [], true⟩
  else
    let touched := [Access.byte (cp + 2), .byte (cp + 3)]
    let ipt_ptr := (s.mem (cp + 2)).toNat
    let ipt_flg := (s.mem (cp + 3)).toNat / 16
    if (ipt_ptr : ℤ) > ipt_len - 4 then
      let ipt_oflw := ((s.mem (cp + 3)).toNat % 16 + 1) % 16
      ⟨s.setByte (cp + 3) (UInt8.ofNat (ipt_flg * 16 + ipt_oflw)), touched, ipt_oflw = 0⟩
    else
      let sin := cp + ipt_ptr
      let slot := Access.slot sin cp ipt_len
      if ipt_flg = IPOPT_TS_TSONLY then ⟨stamp h cp sin s, touched ++ [slot], false⟩
      else if ipt_flg = IPOPT_TS_TSANDADDR then
        if ipt_ptr + 8 > ipt_len then ⟨s, touched, true⟩
        else
          match h.ifinet with
          | none => ⟨s, touched, true⟩
          | some ifinet =>
            ⟨stamp h cp (sin + 4) (s.setWord sin ifinet.if_addr.sin_addr),
              touched ++ [slot, .slot (sin + 4) cp ipt_len], false⟩
      else if ipt_flg = IPOPT_TS_PRESPEC then
        if ¬ h.has (word s.mem sin) then ⟨s, touched ++ [slot], false⟩
        else if ipt_ptr + 8 > ipt_len then ⟨s, touched ++ [slot], true⟩
        else
          ⟨stamp h cp sin (s.setByte (cp + 2) (s.mem (cp + 2) + 4)), touched ++ [slot], false⟩
      else ⟨s, touched, true⟩

/-- `switch (opt)`. -/
def dooption (h : Host) (opt : UInt8) (cp optlen : ℕ) (s : Options) : Pass :=
  if opt = IPOPT_LSRR then sourceRoute h false cp optlen s
  else if opt = IPOPT_SSRR then sourceRoute h true cp optlen s
  else if opt = IPOPT_TS then timestamp h cp s
  else ⟨s, [], false⟩

/-! ## The loop -/

/-- At most `n` passes of the loop: what they touch, and at the end what is left behind and what is
returned. -/
def optloop (h : Host) : ℕ → Options → ℕ → ℤ → List Access × Option (Options × Bool)
  | 0, _, _, _ => ([], none)
  | n + 1, s, cp, cnt =>
    if cnt > 0 then
      let opt := s.mem cp
      if opt = IPOPT_EOL then ([.byte cp], some (s, false))
      else
        let nop : Bool := opt = IPOPT_NOP
        let optlen := if nop then 1 else (s.mem (cp + 1)).toNat
        let touched := .byte cp :: if nop then [] else [.byte (cp + 1)]
        let r := dooption h opt cp optlen s
        if r.bad then (touched ++ r.touched, some (r.s, true))
        else
          let rest := optloop h n r.s (cp + optlen) (cnt - optlen)
          (touched ++ r.touched ++ rest.1, rest.2)
    else ([], some (s, false))

/-- `ip_dooptions(ip)`, as far as `n` passes get, with `ip->ip_hl` being `hl`. -/
def ip_dooptions (h : Host) (hl : ℕ) (s : Options) (n : ℕ) :
    List Access × Option (Options × Bool) :=
  optloop h n s 0 (hl * 4 - 20)

end Ip
