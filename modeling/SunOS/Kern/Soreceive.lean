/-
# Reading a stream socket (`sys/uipc_socket.c`)

`soreceive` without `MSG_OOB` on a socket whose protocol has neither `PR_ADDR` nor
`PR_ATOMIC`, step by step.  The level is lowered around `uiomove`, and there the protocol may
append to the queue that is being read.

The mbuf `m` is given by its place in the queue.  The bytes in front of the data of an mbuf
are not known here.
-/
import SunOS.Kern.Sockbuf

namespace Sockbuf

def EFAULT : ℤ := 14

def EWOULDBLOCK : ℤ := 35

def ENOTCONN : ℤ := 57

/-! ## uiomove -/

structure iovec where
  iov_base : ℕ
  iov_len : ℕ

/-- A `uio`: the vectors have room for `uio_resid` bytes, or more, since `recvit` adds up only
those before the first that is empty.  With `uio_kernel` they are in the kernel. -/
structure uio where
  uio_iov : List iovec
  uio_resid : ℕ
  uio_kernel : Bool
  resid : uio_resid ≤ (uio_iov.map iovec.iov_len).sum

/-- `copyout`, where only some addresses of the user can be written. -/
def copyout (writable : ℕ → Bool) (base cnt : ℕ) : Bool :=
  (List.range cnt).all fun k => writable (base + k)

/-- An empty vector is passed over. -/
def uio.skip (u : uio) {iov : iovec} {rest : List iovec} (h : u.uio_iov = iov :: rest)
    (h0 : iov.iov_len = 0) : uio :=
  { u with
    uio_iov := rest
    resid := by
      have hresid := u.resid
      rwa [h, List.map_cons, List.sum_cons, h0, Nat.zero_add] at hresid }

/-- `cnt` bytes are in the first vector. -/
def uio.advance (u : uio) {iov : iovec} {rest : List iovec} (h : u.uio_iov = iov :: rest)
    (cnt : ℕ) (hcnt : cnt ≤ iov.iov_len) : uio :=
  { u with
    uio_iov := ⟨iov.iov_base + cnt, iov.iov_len - cnt⟩ :: rest
    uio_resid := u.uio_resid - cnt
    resid := by
      have hresid := u.resid
      rw [h, List.map_cons, List.sum_cons] at hresid
      rw [List.map_cons, List.sum_cons]
      show u.uio_resid - cnt ≤ iov.iov_len - cnt + (rest.map iovec.iov_len).sum
      omega }

/-! ## The state of a call -/

structure socket where
  so_rcv : sockbuf
  so_oobmark : ℤ
  so_error : ℤ
  cantrcvmore : Bool
  isconnected : Bool
  nbio : Bool
  rcvatmark : Bool
  connrequired : Bool

/-- Where `soreceive` is: in the loop, the level raised; in `uiomove` for `len` bytes of which
`n` are left, with the level low; in `sbwait`; or at its end, with an error. -/
inductive phase where
  | restart
  | loop
  | moving (len n : ℤ)
  | sleeping
  | done (error : ℤ)
  deriving DecidableEq

/-- The socket, the variables of `soreceive` and the bytes that have been copied out. -/
structure call where
  so : socket
  uio : uio
  m : ℕ
  moff : ℤ
  tomark : ℤ
  error : ℤ
  at_ : phase
  out : List UInt8

/-- Up to the loop; `none` is a panic. -/
def enter (s : call) : Option call :=
  let so := s.so
  if so.so_rcv.sb_cc = 0 then
    if so.so_error ≠ 0 then
      some { s with so := { so with so_error := 0 }, at_ := .done so.so_error }
    else if so.cantrcvmore then some { s with at_ := .done 0 }
    else if ¬ so.isconnected ∧ so.connrequired then some { s with at_ := .done ENOTCONN }
    else if s.uio.uio_resid = 0 then some { s with at_ := .done 0 }
    else if so.nbio then some { s with at_ := .done EWOULDBLOCK }
    else some { s with at_ := .sleeping }
  else if so.so_rcv.sb_mb = [] then none
  else some { s with m := 0, moff := 0, tomark := so.so_oobmark, error := 0, at_ := .loop }

/-- How much of the mbuf `m` is to be copied in this round. -/
def roundlen (s : call) (m : mbuf) : ℤ :=
  let len : ℤ := s.uio.uio_resid
  let len := if s.tomark ≠ 0 ∧ len > s.tomark then s.tomark else len
  if s.moff + len > m.m_len - s.moff then m.m_len - s.moff else len

/-- The first half of a round, up to `uiomove`. -/
def lower (s : call) : call :=
  if s.uio.uio_resid = 0 then { s with at_ := .done 0 }
  else
    match s.so.so_rcv.sb_mb[s.m]? with
    | none => s
    | some m =>
        let len := roundlen s m
        { s with so := { s.so with rcvatmark := false }, at_ := .moving len len }

/-- A round of the loop of `uiomove`. -/
def chunk (writable : ℕ → Bool) (s : call) (len n : ℤ) : call :=
  match h : s.uio.uio_iov with
  | [] => s
  | iov :: _ =>
      if h0 : iov.iov_len = 0 then { s with uio := s.uio.skip h h0 }
      else
        let cnt := min iov.iov_len n.toNat
        if s.uio.uio_kernel ∨ copyout writable iov.iov_base cnt then
          let dat := (s.so.so_rcv.sb_mb[s.m]?.map mbuf.dat).getD []
          { s with
            uio := s.uio.advance h cnt (min_le_left ..)
            at_ := .moving len (n - cnt)
            out := s.out ++ (dat.drop (s.moff + (len - n)).toNat).take cnt }
        else { s with error := EFAULT }

/-- `m->m_off += len; m->m_len -= len`; with a `len` below 0 there are `front` bytes more. -/
def mbuf.advance (m : mbuf) (len : ℤ) (front : List UInt8) : mbuf :=
  { m with
    m_off := ((m.m_off + len) % 4294967296).toNat
    dat := front ++ m.dat.drop len.toNat }

/-- The bytes that have been copied are taken off the queue, or passed over with `MSG_PEEK`;
whether the mbuf ended a record. -/
def consume (peek : Bool) (front : List UInt8) (s : call) (len : ℤ) : call × Bool :=
  let sb := s.so.so_rcv
  match sb.sb_mb[s.m]? with
  | none => (s, true)
  | some m =>
      if len = m.m_len then
        if peek then ({ s with m := s.m + 1, moff := 0 }, m.m_act)
        else ({ s with
          so := { s.so with so_rcv := { sbfree sb m with sb_mb := sb.sb_mb.tail } }
          moff := 0 }, m.m_act)
      else if peek then ({ s with moff := s.moff + len }, false)
      else ({ s with
        so := { s.so with
          so_rcv := { sb with
            sb_cc := int16 (sb.sb_cc - len)
            sb_mb := m.advance len front :: sb.sb_mb.tail } } }, false)

/-- The rest of a round, after `uiomove`. -/
def raise (peek : Bool) (front : List UInt8) (s : call) (len : ℤ) : call :=
  let (s, eor) := consume peek front s len
  let mark := int16 (s.so.so_oobmark - len)
  if ¬ peek ∧ s.so.so_oobmark ≠ 0 ∧ mark = 0 then
    { s with so := { s.so with so_oobmark := 0, rcvatmark := true }, at_ := .done s.error }
  else
    let s := if ¬ peek ∧ s.so.so_oobmark ≠ 0 then
      { s with so := { s.so with so_oobmark := mark } } else s
    let tomark := s.tomark - len
    if s.tomark ≠ 0 ∧ tomark = 0 then { s with tomark := 0, at_ := .done s.error }
    else
      let s := if s.tomark ≠ 0 then { s with tomark := tomark } else s
      if s.m < s.so.so_rcv.sb_mb.length ∧ s.error = 0 ∧ ¬ eor then { s with at_ := .loop }
      else { s with at_ := .done s.error }

/-- What happens: a step of `soreceive`, or the protocol appends a chain. -/
inductive event where
  | own (front : List UInt8)
  | append (ms : List mbuf)

/-- A step of `soreceive`. -/
def own (writable : ℕ → Bool) (peek : Bool) (front : List UInt8) (s : call) : Option call :=
  match s.at_ with
  | .restart => enter s
  | .loop => some (lower s)
  | .moving len n =>
      if 0 < n ∧ s.uio.uio_resid ≠ 0 ∧ s.error = 0 then some (chunk writable s len n)
      else some (raise peek front s len)
  | .sleeping => none
  | .done _ => none

end Sockbuf
