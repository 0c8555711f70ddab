/-
# Out of band data (`tcp_pulloutofband`, `netinet/tcp_input.c`)

The last byte in front of the urgent pointer is pulled out of a segment "so it doesn't appear in
the user's data queue"; it "is still reflected in the segment length for sequencing purposes".
-/
import SunOS.Lib.Run
import SunOS.Netinet.TcpInput
import SunOS.Netinet.TcpReass

namespace Tcp

open List
open Mbuf Segments Reassembly
open Reassembly.Piece (fin off)

def SS_RCVATMARK : BitVec 16 := 0x040

def SB_MAX : ℤ := 65535

def TCPOOB_HAVEDATA : BitVec 8 := 0x01

def TCPOOB_HADDATA : BitVec 8 := 0x02

/-- What a connection and its socket have of out of band data. -/
structure oobdata where
  t_oobflags : BitVec 8
  t_iobc : UInt8
  so_oobmark : ℤ
  deriving DecidableEq, Repr

/-- `tcp_pulloutofband(so, ti)` with `cnt` bytes in front of the one to pull out: that byte, and the
chain without it; nothing for the panic. -/
def tcp_pulloutofband : ℤ → List mbuf → Option (UInt8 × List mbuf)
  | _, [] => none
  | cnt, m :: mp =>
    if cnt < 0 then none
    else if m.m_len > cnt then
      some (m.dat.getD cnt.toNat 0, { m with dat := m.dat.eraseIdx cnt.toNat } :: mp)
    else (tcp_pulloutofband (cnt - m.m_len) mp).map fun (c, mp) => (c, m :: mp)

/-- "If this segment advances the known urgent pointer, then mark the data stream." -/
def markurgent (tp : tcpcb) (so : socket) (o : oobdata) (ti : incoming) :
    tcpcb × socket × oobdata :=
  let rcv_up := uint32 (ti.ti_seq + ti.ti_urp)
  if SEQ_GT rcv_up tp.rcv_up then
    let so_oobmark := int16 (so.so_rcv.length + uint32 (rcv_up - tp.rcv_nxt) - 1)
    ({ tp with rcv_up := rcv_up },
      if so_oobmark = 0 then { so with so_state := so.so_state ||| SS_RCVATMARK } else so,
      { o with
        so_oobmark := so_oobmark
        t_oobflags := o.t_oobflags &&& ~~~(TCPOOB_HAVEDATA ||| TCPOOB_HADDATA) })
  else (tp, so, o)

/-- "Process segments with URG." -/
def urgent (tp : tcpcb) (so : socket) (o : oobdata) (ti : incoming) :
    Option (tcpcb × socket × oobdata × incoming) :=
  if has ti.tiflags TH_URG ∧ ti.ti_urp ≠ 0 ∧ TCPS_HAVERCVDFIN tp.t_state = false then
    if ti.ti_urp + so.so_rcv.length > SB_MAX then
      some (tp, so, o, { ti with
        ti_urp := 0
        tiflags := ti.tiflags &&& ~~~TH_URG })
    else
      let (tp, so, o) := markurgent tp so o ti
      if ti.ti_urp ≤ ti.ti_len then
        (tcp_pulloutofband (ti.ti_urp - 1) ti.m).map fun (c, m) =>
          (tp, so, { o with
            t_iobc := c
            t_oobflags := o.t_oobflags ||| TCPOOB_HAVEDATA }, { ti with m := m })
      else some (tp, so, o, ti)
  else
    some (if SEQ_GT tp.rcv_nxt tp.rcv_up then { tp with rcv_up := tp.rcv_nxt } else tp, so, o, ti)

/-- `dodata:`, without what a FIN does then. -/
def dodata (tp : tcpcb) (so : socket) (ti : incoming) : tcpcb × socket × BitVec 8 :=
  if (ti.ti_len ≠ 0 ∨ has ti.tiflags TH_FIN) ∧ TCPS_HAVERCVDFIN tp.t_state = false then
    TCP_REASS tp so ti.totcpiphdr
  else (tp, so, 0)

/-! ## The urgent byte -/

variable {l : List (UInt8 × Bool)}

/-- **The byte is pulled out.** -/
theorem tcp_pulloutofband_spec (mp : List mbuf) (cnt : ℕ) (h : cnt < (contents mp).length) :
    ∃ c mp', tcp_pulloutofband cnt mp = some (c, mp') ∧
      contents mp' = (contents mp).eraseIdx cnt := by
  induction mp generalizing cnt with
  | nil => simp at h
  | cons m mp ih =>
    rw [tcp_pulloutofband, if_neg (by omega)]
    by_cases hin : m.m_len > cnt
    · have hin' : cnt < m.dat.length := by
        rw [mbuf.m_len] at hin
        omega
      rw [if_pos hin]
      refine ⟨_, _, rfl, ?_⟩
      rw [contents_cons, contents_cons, Int.toNat_natCast, eraseIdx_append_of_lt_length hin']
    · have hle : m.dat.length ≤ cnt := by
        rw [mbuf.m_len] at hin
        omega
      rw [contents_cons, length_append] at h
      obtain ⟨c, mp', heq, hbytes⟩ := ih (cnt - m.dat.length) (by omega)
      rw [Nat.cast_sub hle] at heq
      rw [if_neg hin, mbuf.m_len, heq]
      refine ⟨c, m :: mp', rfl, ?_⟩
      rw [contents_cons, contents_cons, hbytes, eraseIdx_append_of_length_le hle]

/-- What is seen of a byte, which is urgent or not. -/
def seen (a : UInt8 × Bool) : Option UInt8 := if a.2 then none else some a.1

theorem filterMap_seen_of_none (h : ∀ a ∈ l, a.2 = false) : l.filterMap seen = l.map Prod.fst := by
  induction l with
  | nil => rfl
  | cons a l ih =>
    rw [filterMap_cons_some (b := a.1) (by rw [seen, h a (by simp)]; rfl), map_cons,
      ih fun a' ha' => h a' (by simp [ha'])]

/-- The bytes without the urgent one. -/
theorem filterMap_seen_of_one {u : ℕ} (hu : u < l.length)
    (h : ∀ i (hi : i < l.length), l[i].2 = true ↔ i = u) :
    l.filterMap seen = (l.map Prod.fst).eraseIdx u := by
  have hsplit : l = l.take u ++ l[u] :: l.drop (u + 1) := by
    rw [getElem_cons_drop, take_append_drop]
  have hfront : ∀ a ∈ l.take u, a.2 = false := by
    intro a ha
    obtain ⟨i, hi, rfl⟩ := List.mem_iff_getElem.mp ha
    rw [length_take] at hi
    rw [getElem_take, Bool.eq_false_iff, Ne, h]
    omega
  have hback : ∀ a ∈ l.drop (u + 1), a.2 = false := by
    intro a ha
    obtain ⟨i, hi, rfl⟩ := List.mem_iff_getElem.mp ha
    rw [getElem_drop, Bool.eq_false_iff, Ne, h]
    omega
  have hone : seen l[u] = none := by rw [seen, (h u hu).mpr rfl]; rfl
  calc l.filterMap seen
      = (l.take u ++ l[u] :: l.drop (u + 1)).filterMap seen := by rw [← hsplit]
    _ = (l.take u).map Prod.fst ++ (l.drop (u + 1)).map Prod.fst := by
      rw [filterMap_append, filterMap_cons_none hone, filterMap_seen_of_none hfront,
        filterMap_seen_of_none hback]
    _ = (l.map Prod.fst).eraseIdx u := by
      rw [eraseIdx_eq_take_drop_succ, map_take, map_drop]

/-- Where the urgent byte of a segment is. -/
def urgentAt (ti : incoming) : Option ℕ :=
  if has ti.tiflags TH_URG ∧ 0 < ti.ti_urp ∧ ti.ti_urp ≤ ti.ti_len then some (ti.ti_urp - 1).toNat
  else none

/-- The segment `ti` is the piece `p` of a stream with urgent bytes, of which it has the one it
points to. -/
structure Carries (b : ℤ) (ti : incoming) (p : Piece (UInt8 × Bool) (BitVec 8)) : Prop where
  seq : ti.ti_seq = uint32 (b + p.off)
  len : ti.ti_len = p.dat.length
  dat : contents ti.m = p.dat.map Prod.fst
  flags : ti.ti_flags = p.tag
  short : p.dat.length ≤ 32767
  urp : 0 ≤ ti.ti_urp
  urgent : ∀ i (h : i < p.dat.length), p.dat[i].2 = true ↔ urgentAt ti = some i

end Tcp

/-! # Runs with urgent data

The user gets the bytes of the stream but the urgent ones, as long as no segment that has lost its
urgent byte is trimmed at it or behind it: `ti_len` counts the byte that is not in the chain any
more, so that trimming takes one byte too many from what is behind.
-/

namespace Tcp

open List
open Mbuf Segments Reassembly
open Reassembly.Piece (fin off)

/-- A stream of bytes, urgent or not. -/
abbrev Stream := List (UInt8 × Bool)

/-- A piece of it, with the flags of its segment. -/
abbrev OobPart := Piece (UInt8 × Bool) (BitVec 8)

variable {b : ℤ} {S : Stream} {ti : incoming} {p : OobPart}

/-! ## One segment -/

/-- What the urgent pointer does to the connection: the queue, `rcv_nxt` and the data stay. -/
structure Same (tp : tcpcb) (so : socket) (tp' : tcpcb) (so' : socket) : Prop where
  seg : tp'.seg = tp.seg
  rcv_nxt : tp'.rcv_nxt = tp.rcv_nxt
  t_state : tp'.t_state = tp.t_state
  so_rcv : so'.so_rcv = so.so_rcv
  cantrcvmore : has so'.so_state SS_CANTRCVMORE = has so.so_state SS_CANTRCVMORE

theorem markurgent_same (tp : tcpcb) (so : socket) (o : oobdata) (ti : incoming) :
    Same tp so (markurgent tp so o ti).1 (markurgent tp so o ti).2.1 := by
  rw [markurgent]
  by_cases hgt : SEQ_GT (uint32 (ti.ti_seq + ti.ti_urp)) tp.rcv_up
  · simp only [if_pos hgt]
    refine ⟨rfl, rfl, rfl, ?_, ?_⟩
    · split <;> rfl
    · split
      · exact has_or_of_disjoint (by decide)
      · rfl
  · simp only [if_neg hgt]
    exact ⟨rfl, rfl, rfl, rfl, rfl⟩

/-- A segment without an urgent byte shows all of its piece. -/
theorem Carries.shows (h : Carries b ti p) (hnone : urgentAt ti = none) :
    Shows seen b ti.totcpiphdr p := by
  refine ⟨h.seq, h.len, ?_, h.flags, h.short⟩
  rw [h.dat, filterMap_seen_of_none]
  intro a ha
  obtain ⟨i, hi, rfl⟩ := List.mem_iff_getElem.mp ha
  rw [Bool.eq_false_iff, Ne, h.urgent i hi, hnone]
  simp

/-- **A segment shows its piece but the urgent byte** once that has been pulled out. -/
theorem urgent_spec {tp : tcpcb} {so : socket} (o : oobdata) (h : Carries b ti p)
    (hstate : TCPS_HAVERCVDFIN tp.t_state = false)
    (hmax : urgentAt ti ≠ none → ti.ti_urp + so.so_rcv.length ≤ SB_MAX) :
    ∃ tp' so' o' ti', urgent tp so o ti = some (tp', so', o', ti') ∧ Same tp so tp' so' ∧
      Shows seen b ti'.totcpiphdr p := by
  have hself : Same tp so tp so := ⟨rfl, rfl, rfl, rfl, rfl⟩
  have hurp := h.urp
  rw [urgent]
  by_cases hurg : has ti.tiflags TH_URG ∧ ti.ti_urp ≠ 0 ∧ TCPS_HAVERCVDFIN tp.t_state = false
  · rw [if_pos hurg]
    by_cases hbig : ti.ti_urp + so.so_rcv.length > SB_MAX
    · have hnone : urgentAt ti = none := by
        by_contra hne
        exact absurd (hmax hne) (not_le.mpr hbig)
      rw [if_pos hbig]
      have hshows := h.shows hnone
      exact ⟨tp, so, o, _, rfl, hself, hshows.seq, hshows.len, hshows.dat, hshows.flags,
        hshows.short⟩
    · have hsame := markurgent_same tp so o ti
      rw [if_neg hbig]
      generalize markurgent tp so o ti = r at hsame
      by_cases hin : ti.ti_urp ≤ ti.ti_len
      · have hat : urgentAt ti = some (ti.ti_urp - 1).toNat :=
          if_pos ⟨hurg.1, by have := hurg.2.1; omega, hin⟩
        have hcnt : (ti.ti_urp - 1).toNat < p.dat.length := by
          have := h.len
          omega
        obtain ⟨c, m, heq, hbytes⟩ := tcp_pulloutofband_spec ti.m
          (ti.ti_urp - 1).toNat (by rw [h.dat, length_map]; exact hcnt)
        rw [Int.toNat_of_nonneg (by have := hurg.2.1; omega)] at heq
        simp only [if_pos hin, heq]
        refine ⟨_, _, _, _, rfl, hsame, h.seq, h.len, ?_, h.flags, h.short⟩
        show contents m = _
        rw [hbytes, h.dat, filterMap_seen_of_one hcnt]
        intro i hi
        rw [h.urgent i hi, hat, Option.some_inj, eq_comm]
      · simp only [if_neg hin]
        exact ⟨_, _, _, _, rfl, hsame, h.shows (if_neg fun hall => hin hall.2.2)⟩
  · rw [if_neg hurg]
    refine ⟨_, _, _, _, rfl, ?_, h.shows (if_neg fun hall => hurg ⟨hall.1, by omega, hstate⟩)⟩
    split <;> exact ⟨rfl, rfl, rfl, rfl, rfl⟩

/-! ## Runs -/

namespace Oob

variable {s : State} {c : OobPart}

/-- The connection and its socket, the number of bytes of the stream before `rcv_nxt`, and the
bytes the user has read. -/
structure State where
  tp : tcpcb
  so : socket
  oob : oobdata
  next : ℕ
  read : List UInt8

/-- Segments come, calls with `ti==0`, and meanwhile the state of the connection changes, the
user reads or shuts down receiving. -/
inductive Event where
  | segment (ti : incoming)
  | tcp_reass
  | t_state (t : TCPS)
  | soreceive (n : ℕ)
  | socantrcvmore

/-- The state after a call that has returned `r`; `rcv_nxt` has not gone round. -/
def State.after (s : State) (r : tcpcb × socket × BitVec 8) : State :=
  { s with
    tp := r.1
    so := r.2.1
    next := s.next + (uint32 (r.1.rcv_nxt - s.tp.rcv_nxt)).toNat }

def Step (s : State) : Event → State → Prop
  | .segment ti, s' => ∃ tp so oob ti', urgent s.tp s.so s.oob ti = some (tp, so, oob, ti') ∧
      s' = State.after { s with tp := tp, so := so, oob := oob } (dodata tp so ti')
  | .tcp_reass, s' => s' = s.after (Tcp.tcp_reass s.tp s.so none)
  | .t_state t, s' => s' = { s with tp := { s.tp with t_state := t } }
  | .soreceive n, s' =>
    s' = { s with
      so := { s.so with so_rcv := s.so.so_rcv.drop n }
      read := s.read ++ s.so.so_rcv.take n }
  | .socantrcvmore, s' =>
    s' = { s with so := { s.so with so_state := s.so.so_state ||| SS_CANTRCVMORE } }

/-- The segments are taken from the stream `S` and start at or after `rcv_nxt`, as the sequence
numbers have it. -/
def Legal (b : ℤ) (S : Stream) (s : State) : Event → Prop
  | .segment ti => (∃ p, Carries b ti p ∧ p.Taken S) ∧ SEQ_GEQ ti.ti_seq s.tp.rcv_nxt
  | _ => True

/-- The offsets of a segment that is not before `rcv_nxt`. -/
def State.offOf (s : State) (q : tcpiphdr) : ℕ := s.next + (uint32 (q.ti_seq - s.tp.rcv_nxt)).toNat

def State.finOf (s : State) (q : tcpiphdr) : ℕ := s.offOf q + q.ti_len.toNat

/-- The segment `q` does not lose an urgent byte when it is trimmed up to the offset `e`. -/
def Keeps (S : Stream) (s : State) (q : tcpiphdr) (e : ℕ) : Prop :=
  s.offOf q < e → e < s.finOf q → ∀ a ∈ (S.take e).drop (s.offOf q), a.2 = false

instance (S : Stream) (s : State) (q : tcpiphdr) (e : ℕ) : Decidable (Keeps S s q e) :=
  inferInstanceAs (Decidable (_ → _ → _))

/-- Moreover they lie within `2 ^ 31` after `rcv_nxt`, the urgent pointer is not too far for the
receive buffer, a segment does not lose its urgent byte to one it overlaps with, and receiving is
not shut down. -/
def Ok (b : ℤ) (S : Stream) (s : State) : Event → Prop
  | .segment ti =>
    (∃ p, Carries b ti p ∧ p.Taken S ∧ s.next ≤ p.off ∧ p.fin < s.next + 2147483648) ∧
    (urgentAt ti ≠ none → ti.ti_urp + s.so.so_rcv.length ≤ SB_MAX) ∧
    ∀ q ∈ s.tp.seg, (s.offOf q ≤ s.offOf ti.totcpiphdr → Keeps S s ti.totcpiphdr (s.finOf q)) ∧
      (s.offOf ti.totcpiphdr < s.offOf q → Keeps S s q (s.finOf ti.totcpiphdr))
  | .socantrcvmore => False
  | _ => True

/-- The bytes in the receive buffer and those read before are those up to `rcv_nxt`, but the
urgent ones. -/
structure Delivered (b : ℤ) (S : Stream) (s : State) : Prop where
  rcv_nxt : s.tp.rcv_nxt = uint32 (b + s.next) ∧ s.next ≤ S.length
  so_rcv : s.read ++ s.so.so_rcv = (S.take s.next).filterMap seen

/-- The invariant. -/
structure Inv (b : ℤ) (S : Stream) (s : State) : Prop where
  delivered : Delivered b S s
  cantrcvmore : has s.so.so_state SS_CANTRCVMORE = false
  holding : ∃ Q, HoldingOf False seen b S s.next s.tp.seg Q

/-- A call that advances keeps the invariant. -/
theorem Inv.after {r : tcpcb × socket × BitVec 8} (h : Inv b S s)
    (hr : ∃ next', AdvanceOf False seen b S s.next s.so r next') : Inv b S (s.after r) := by
  obtain ⟨next', hr⟩ := hr
  have hrcv := h.delivered.rcv_nxt
  have hnext : (s.after r).next = next' := by
    have h1 := hr.le
    have h2 := hr.lt
    show s.next + (uint32 (r.1.rcv_nxt - s.tp.rcv_nxt)).toNat = next'
    rw [hr.rcv_nxt, hrcv.1, uint32_uint32_sub, uint32_of_ufits ⟨by omega, by omega⟩]
    omega
  obtain ⟨D, hD, htake⟩ := hr.so_rcv h.cantrcvmore
  refine ⟨⟨?_, ?_⟩, ?_, ?_⟩
  · rw [hnext]
    exact ⟨hr.rcv_nxt, hr.le_length⟩
  · rw [hnext, htake, filterMap_append, ← h.delivered.so_rcv, append_assoc, ← hD]
    rfl
  · show has r.2.1.so_state SS_CANTRCVMORE = false
    rw [hr.so_state]
    exact h.cantrcvmore
  · rw [hnext]
    exact hr.holding

/-- The offsets are those of the piece. -/
theorem Inv.offOf (h : Inv b S s) {q : tcpiphdr}
    (hseq : q.ti_seq = uint32 (b + c.off)) (hlen : q.ti_len = c.dat.length) (hlo : s.next ≤ c.off)
    (hhi : c.fin < s.next + 2147483648) :
    s.offOf q = c.off ∧ s.finOf q = c.fin := by
  have hle := c.off_le_fin
  have hoff : s.offOf q = c.off := by
    rw [State.offOf, hseq, h.delivered.rcv_nxt.1, uint32_uint32_sub,
      uint32_of_ufits ⟨by omega, by omega⟩]
    omega
  rw [State.finOf, hoff, hlen]
  exact ⟨rfl, rfl⟩

/-- What a piece has up to an offset inside it. -/
theorem take_drop_of_taken (hc : c.Taken S) {e : ℕ} (hlo : c.off ≤ e) (hhi : e ≤ c.fin) :
    (S.take e).drop c.off = c.dat.take (e - c.off) := by
  obtain ⟨A, B, hS, hA⟩ := hc
  rw [Piece.fin] at hhi
  rw [hS, append_assoc, take_append, take_of_length_le (by omega), hA,
    List.drop_left' hA, take_append_of_le_length (by omega)]

theorem cutAt_of_keeps {q : tcpiphdr} (hc : c.Taken S)
    (hoff : s.offOf q = c.off ∧ s.finOf q = c.fin) {e : ℕ} (h : Keeps S s q e) :
    Ops.CutAt (Visible seen) e c := by
  intro hlo hhi a ha
  rw [Keeps, hoff.1, hoff.2, take_drop_of_taken hc (le_of_lt hlo) (le_of_lt hhi)] at h
  rw [seen, h hlo hhi a ha]
  rfl

/-- The urgent pointer does not touch what the invariant is about. -/
theorem Inv.same (h : Inv b S s) {tp : tcpcb} {so : socket} (oob : oobdata)
    (hsame : Same s.tp s.so tp so) : Inv b S { s with tp := tp, so := so, oob := oob } := by
  obtain ⟨Q, hQ⟩ := h.holding
  refine ⟨⟨⟨?_, h.delivered.rcv_nxt.2⟩, ?_⟩, ?_, ⟨Q, ?_⟩⟩
  · show tp.rcv_nxt = _
    rw [hsame.rcv_nxt]
    exact h.delivered.rcv_nxt.1
  · show s.read ++ so.so_rcv = _
    rw [hsame.so_rcv]
    exact h.delivered.so_rcv
  · show has so.so_state SS_CANTRCVMORE = false
    rw [hsame.cantrcvmore]
    exact h.cantrcvmore
  · show HoldingOf False seen b S s.next tp.seg Q
    rw [hsame.seg]
    exact hQ

/-- A segment that may come can be cut where it and the queue overlap. -/
theorem Inv.cuttable (h : Inv b S s) {Q : List OobPart}
    (hQ : HoldingOf False seen b S s.next s.tp.seg Q) (hcar : Carries b ti p) (htaken : p.Taken S)
    (hlo : s.next ≤ p.off) (hhi : p.fin < s.next + 2147483648)
    (hover : ∀ q ∈ s.tp.seg,
      (s.offOf q ≤ s.offOf ti.totcpiphdr → Keeps S s ti.totcpiphdr (s.finOf q)) ∧
        (s.offOf ti.totcpiphdr < s.offOf q → Keeps S s q (s.finOf ti.totcpiphdr))) :
    Cuttable seen p Q := by
  intro c hc
  obtain ⟨q, hq, hqc⟩ := forall₂_mem_right hQ.segs hc
  have hoff := h.offOf hqc.shows.seq hqc.shows.len hqc.next_le hqc.fin_lt
  have hoff' := h.offOf (q := ti.totcpiphdr) hcar.seq hcar.len hlo hhi
  obtain ⟨h1, h2⟩ := hover q hq
  rw [hoff.1, hoff'.1, hoff.2] at h1
  rw [hoff.1, hoff'.1, hoff'.2] at h2
  exact ⟨fun hle => cutAt_of_keeps htaken hoff' (h1 hle),
    fun hlt => cutAt_of_keeps (hQ.parts c hc).1 hoff (h2 hlt)⟩

/-- **Every step keeps the invariant.** -/
theorem step_inv (s : State) (e : Event) (s' : State) (h : Inv b S s)
    (hstep : Guarded (Ok b S) Step s e s') : Inv b S s' := by
  obtain ⟨hok, hstep⟩ := hstep
  obtain ⟨Q, hQ⟩ := h.holding
  have hrcv := h.delivered.rcv_nxt
  cases e with
  | segment ti =>
    obtain ⟨tp, so, oob, ti', heq, rfl⟩ := hstep
    obtain ⟨⟨p, hcar, htaken, hlo, hhi⟩, hmax, hover⟩ := hok
    by_cases hstate : TCPS_HAVERCVDFIN s.tp.t_state = false
    · obtain ⟨tp1, so1, oob1, ti1, heq1, hsame, hshows⟩ := urgent_spec s.oob hcar hstate hmax
      rw [heq, Option.some.injEq, Prod.mk.injEq, Prod.mk.injEq, Prod.mk.injEq] at heq1
      obtain ⟨rfl, rfl, rfl, rfl⟩ := heq1
      have hinv := h.same oob hsame
      have hQ' : HoldingOf False seen b S s.next tp.seg Q := by
        rw [hsame.seg]
        exact hQ
      refine hinv.after ?_
      rw [dodata]
      by_cases hdata : (ti'.ti_len ≠ 0 ∨ has ti'.tiflags TH_FIN) ∧
        TCPS_HAVERCVDFIN tp.t_state = false
      · rw [if_pos hdata]
        exact TCP_REASS_advanceOf hQ' hinv.delivered.rcv_nxt.1 hrcv.2
          ⟨⟨hshows, hlo, hhi⟩, htaken, False.elim⟩ (h.cuttable hQ hcar htaken hlo hhi hover)
      · rw [if_neg hdata]
        exact ⟨s.next, .refl hQ' hinv.delivered.rcv_nxt.1 hrcv.2⟩
    · -- the text is ignored
      rw [urgent, if_neg (fun hall => hstate hall.2.2), Option.some.injEq, Prod.mk.injEq,
        Prod.mk.injEq, Prod.mk.injEq] at heq
      obtain ⟨htp, rfl, rfl, rfl⟩ := heq
      have hsame : Same s.tp s.so tp s.so := by
        rw [← htp]
        split <;> exact ⟨rfl, rfl, rfl, rfl, rfl⟩
      have hinv := h.same s.oob hsame
      refine hinv.after ?_
      rw [dodata, if_neg (fun hall => hstate (hsame.t_state ▸ hall.2))]
      refine ⟨s.next, .refl (Q := Q) ?_ hinv.delivered.rcv_nxt.1 hrcv.2⟩
      rw [hsame.seg]
      exact hQ
  | tcp_reass =>
    rw [show s' = _ from hstep]
    exact h.after (present_advanceOf hQ hrcv.1 hrcv.2)
  | t_state t =>
    rw [show s' = _ from hstep]
    exact ⟨⟨hrcv, h.delivered.so_rcv⟩, h.cantrcvmore, h.holding⟩
  | soreceive n =>
    rw [show s' = _ from hstep]
    refine ⟨⟨hrcv, ?_⟩, h.cantrcvmore, h.holding⟩
    show s.read ++ s.so.so_rcv.take n ++ s.so.so_rcv.drop n = (S.take s.next).filterMap seen
    rw [append_assoc, take_append_drop]
    exact h.delivered.so_rcv
  | socantrcvmore => exact absurd hok id

/-- **The user gets the stream but the urgent bytes**, in every run whose steps are all of this
kind. -/
theorem delivered_of_run {s : State} {es : List Event} {tp : tcpcb} {so : socket} {oob : oobdata}
    (hseg : tp.seg = []) (hrcv : tp.rcv_nxt = uint32 b) (hso : so.so_rcv = [])
    (hcant : has so.so_state SS_CANTRCVMORE = false)
    (h : Run (Guarded (Ok b S) Step) ⟨tp, so, oob, 0, []⟩ es s) : Delivered b S s := by
  refine (Run.invariant (I := Inv b S) step_inv h ⟨⟨⟨?_, Nat.zero_le _⟩, ?_⟩, hcant, [], ?_, ?_,
    by simp⟩).delivered
  · simpa using hrcv
  · simp [hso]
  · rw [hseg]
    exact .nil
  · exact List.Pairwise.nil

/-! ## Two runs -/

/-- A stream with an urgent byte. -/
def oobStream : Stream := [(1, false), (9, true), (2, false), (3, false)]

/-- A segment of some of its bytes, and its urgent pointer. -/
def oobSeg (seq : ℤ) (dat : List UInt8) (urp : ℤ) : incoming :=
  ⟨⟨dat.length, seq, 0, if urp = 0 then TH_ACK else TH_ACK ||| TH_URG, 0, urp,
    [⟨0, 40, 1, [], dat⟩]⟩,
    if urp = 0 then TH_ACK else TH_ACK ||| TH_URG⟩

/-- A connection that expects its first byte. -/
def awaiting : State :=
  ⟨{ tcp_newtcpcb 4096 with t_state := .ESTABLISHED }, ⟨0, []⟩, ⟨0, 0, 0⟩, 0, []⟩

/-- The end of the stream comes first, and the rest overlaps it behind the urgent byte. -/
theorem delivered_behind :
    ∃ s, Delivered 0 oobStream s ∧ s.so.so_rcv = [1, 2, 3] ∧ s.oob.t_iobc = 9 := by
  have hlast : Ok 0 oobStream awaiting (.segment (oobSeg 2 [2, 3] 0)) :=
    ⟨⟨⟨2, [(2, false), (3, false)], TH_ACK⟩, ⟨by decide, by decide, by decide, by decide, by decide,
      by decide, by decide⟩, ⟨[(1, false), (9, true)], [], by decide, by decide⟩, by decide,
      by decide⟩, by decide, by decide⟩
  have hrun : Run (Guarded (Ok 0 oobStream) Step) awaiting
      [.segment (oobSeg 2 [2, 3] 0), .segment (oobSeg 0 [1, 9, 2] 2)] _ :=
    .cons ⟨hlast, _, _, _, _, rfl, rfl⟩ (.cons ⟨⟨⟨⟨0, [(1, false), (9, true), (2, false)],
      TH_ACK ||| TH_URG⟩, ⟨by decide, by decide, by decide, by decide, by decide, by decide,
        by decide⟩, ⟨[], [(3, false)], by decide, by decide⟩, by decide, by decide⟩, by decide,
      by decide +kernel⟩, _, _, _, _, rfl, rfl⟩ (.nil _))
  have hd := delivered_of_run rfl (by decide) rfl (by decide) hrun
  exact ⟨_, hd, by decide, by decide⟩

/-- A queued segment begins with the urgent byte, which one that comes later has too: with it the
byte behind it is trimmed off. -/
theorem not_delivered_urgent :
    ∃ s, Run (Guarded (Legal 0 oobStream) Step) awaiting
        [.segment (oobSeg 1 [9, 2, 3] 1), .segment (oobSeg 0 [1, 9] 2)] s ∧
      s.so.so_rcv = [1, 3] ∧ ¬ Delivered 0 oobStream s := by
  have hlast : Legal 0 oobStream awaiting (.segment (oobSeg 1 [9, 2, 3] 1)) :=
    ⟨⟨⟨1, [(9, true), (2, false), (3, false)], TH_ACK ||| TH_URG⟩, ⟨by decide, by decide, by decide,
      by decide, by decide, by decide, by decide⟩, ⟨[(1, false)], [], by decide, by decide⟩⟩,
      by decide⟩
  refine ⟨_, .cons ⟨hlast, _, _, _, _, rfl, rfl⟩ (.cons ⟨⟨⟨⟨0, [(1, false), (9, true)],
      TH_ACK ||| TH_URG⟩, ⟨by decide, by decide, by decide, by decide, by decide, by decide,
        by decide⟩, ⟨[], [(2, false), (3, false)], by decide, by decide⟩⟩, by decide⟩,
      _, _, _, _, rfl, rfl⟩ (.nil _)), by decide, fun h => absurd h.so_rcv (by decide)⟩

end Oob

end Tcp
