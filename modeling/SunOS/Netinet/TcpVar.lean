/-
# The TCP control block (`netinet/tcp_var.h`, `tcp_fsm.h`, `tcp_seq.h`)

Sequence numbers are unsigned 32-bit words, compared by the sign of their
difference as an `int`.  The queue of a control block holds the segments that wait
for the data before them, each with the chain of mbufs it is in.
-/
import SunOS.Kern.Mbuf
import SunOS.Lib.Word

namespace Tcp

open Mbuf

/-! ## Sequence numbers -/

def SEQ_LEQ (a b : ℤ) : Prop := int32 (a - b) ≤ 0

def SEQ_GT (a b : ℤ) : Prop := int32 (a - b) > 0

def SEQ_GEQ (a b : ℤ) : Prop := int32 (a - b) ≥ 0

instance (a b : ℤ) : Decidable (SEQ_LEQ a b) := inferInstanceAs (Decidable (_ ≤ _))

instance (a b : ℤ) : Decidable (SEQ_GT a b) := inferInstanceAs (Decidable (_ > _))

instance (a b : ℤ) : Decidable (SEQ_GEQ a b) := inferInstanceAs (Decidable (_ ≥ _))

/-! ## States and flags -/

/-- The states of a connection. -/
inductive TCPS where
  | CLOSED
  | LISTEN
  | SYN_SENT
  | SYN_RECEIVED
  | ESTABLISHED
  | CLOSE_WAIT
  | FIN_WAIT_1
  | CLOSING
  | LAST_ACK
  | FIN_WAIT_2
  | TIME_WAIT
  deriving DecidableEq, Repr

/-- The number of a state. -/
def TCPS.num : TCPS → ℕ
  | CLOSED => 0
  | LISTEN => 1
  | SYN_SENT => 2
  | SYN_RECEIVED => 3
  | ESTABLISHED => 4
  | CLOSE_WAIT => 5
  | FIN_WAIT_1 => 6
  | CLOSING => 7
  | LAST_ACK => 8
  | FIN_WAIT_2 => 9
  | TIME_WAIT => 10

def TCPS_HAVERCVDSYN (s : TCPS) : Bool := TCPS.SYN_RECEIVED.num ≤ s.num

def TCPS_HAVERCVDFIN (s : TCPS) : Bool := TCPS.TIME_WAIT.num ≤ s.num

def TH_FIN : BitVec 8 := 0x01

def TH_SYN : BitVec 8 := 0x02

def TH_RST : BitVec 8 := 0x04

def TH_PUSH : BitVec 8 := 0x08

def TH_ACK : BitVec 8 := 0x10

def TH_URG : BitVec 8 := 0x20

/-- Some bit of the mask is set. -/
def has {w : ℕ} (flags mask : BitVec w) : Bool := flags &&& mask ≠ 0

theorem has_or_of_disjoint {w : ℕ} {x m k : BitVec w} (h : m &&& k = 0) :
    has (x ||| m) k = has x k := by
  have hor : (x ||| m) &&& k = (x &&& k) ||| (m &&& k) := by
    ext i hi
    simp only [BitVec.getElem_and, BitVec.getElem_or]
    cases x[i] <;> cases m[i] <;> cases k[i] <;> rfl
  rw [has, has, hor, h]
  show decide (x &&& k ||| 0#w ≠ 0) = _
  rw [BitVec.or_zero]

/-! ## Segments and sockets -/

/-- A segment, in host format, and the chain of mbufs it is in. -/
structure tcpiphdr where
  ti_len : ℤ
  ti_seq : ℤ
  ti_ack : ℤ
  ti_flags : BitVec 8
  ti_win : ℤ
  ti_urp : ℤ
  m : List mbuf
  deriving DecidableEq, Repr

def SS_CANTRCVMORE : BitVec 16 := 0x020

/-- The state of a socket and the bytes in its receive buffer. -/
structure socket where
  so_state : BitVec 16
  so_rcv : List UInt8
  deriving DecidableEq, Repr

/-- The timers of a connection, 0 when they do not run. -/
structure timers where
  TCPT_REXMT : ℤ
  TCPT_PERSIST : ℤ
  TCPT_KEEP : ℤ
  TCPT_2MSL : ℤ
  deriving DecidableEq, Repr

/-- The control block of a connection; `seg` is its queue of segments. -/
structure tcpcb where
  seg : List tcpiphdr
  t_state : TCPS
  t_timer : timers
  t_rxtshift : ℤ
  t_maxseg : ℤ
  t_force : Bool
  t_flags : BitVec 8
  snd_una : ℤ
  snd_nxt : ℤ
  snd_up : ℤ
  snd_wl1 : ℤ
  snd_wl2 : ℤ
  iss : ℤ
  snd_wnd : ℤ
  rcv_wnd : ℤ
  rcv_nxt : ℤ
  rcv_up : ℤ
  irs : ℤ
  rcv_adv : ℤ
  snd_max : ℤ
  snd_cwnd : ℤ
  t_idle : ℤ
  t_rtt : ℤ
  max_rcvd : ℤ
  t_rtseq : ℤ
  t_srtt : ℤ
  max_sndwnd : ℤ
  deriving DecidableEq, Repr

def TCP_MSS : ℤ := 512

/-- `tcp_newtcpcb(inp)`; `space` is the room in the send buffer. -/
def tcp_newtcpcb (space : ℤ) : tcpcb where
  seg := []
  t_state := .CLOSED
  t_timer := ⟨0, 0, 0, 0⟩
  t_rxtshift := 0
  t_maxseg := TCP_MSS
  t_force := false
  t_flags := 0
  snd_una := 0
  snd_nxt := 0
  snd_up := 0
  snd_wl1 := 0
  snd_wl2 := 0
  iss := 0
  snd_wnd := 0
  rcv_wnd := 0
  rcv_nxt := 0
  rcv_up := 0
  irs := 0
  rcv_adv := 0
  snd_max := 0
  snd_cwnd := space
  t_idle := 0
  t_rtt := 0
  max_rcvd := 0
  t_rtseq := 0
  t_srtt := 0
  max_sndwnd := 0

/-- `sbappend(&so->so_rcv, m)`: the bytes, however they are packed. -/
def sbappend (so : socket) (m : List mbuf) : socket := { so with so_rcv := so.so_rcv ++ contents m }

end Tcp
