/-
# Runs of TCP reassembly

Without urgent data the user sees all bytes of the stream, in order, as long as the segments
stay within `2 ^ 31` of `rcv_nxt`.
-/
import SunOS.Lib.Run
import SunOS.Netinet.TcpReass

namespace Tcp

open List
open Mbuf Segments Reassembly
open Reassembly.Piece (fin off)

/-! ## Segments as pieces of the stream -/

/-- A piece of a stream of bytes, with the flags of its segment. -/
abbrev Part := Piece UInt8 (BitVec 8)

/-- The segment `s` is the piece `p` of the stream whose first byte has the sequence
number `b`. -/
structure IsPiece (b : ℤ) (s : tcpiphdr) (p : Part) : Prop where
  seq : s.ti_seq = uint32 (b + p.off)
  len : s.ti_len = p.dat.length
  dat : contents s.m = p.dat
  flags : s.ti_flags = p.tag
  short : p.dat.length ≤ 32767

/-- And it lies within `2 ^ 31` after the first `next` bytes. -/
structure Queued (b : ℤ) (next : ℕ) (s : tcpiphdr) (p : Part) : Prop where
  piece : IsPiece b s p
  next_le : next ≤ p.off
  fin_lt : p.fin < next + 2147483648

variable {b : ℤ} {next : ℕ} {q ti : tcpiphdr} {c p : Part}

/-- All bytes of the piece are seen. -/
theorem shows_iff : Shows some b ti p ↔ IsPiece b ti p := by
  constructor
  · exact fun h => ⟨h.seq, h.len, by rw [h.dat, filterMap_some], h.flags, h.short⟩
  · exact fun h => ⟨h.seq, h.len, by rw [h.dat, filterMap_some], h.flags, h.short⟩

theorem shown_iff : Shown some b next ti p ↔ Queued b next ti p :=
  ⟨fun h => ⟨shows_iff.mp h.shows, h.next_le, h.fin_lt⟩,
    fun h => ⟨shows_iff.mpr h.piece, h.next_le, h.fin_lt⟩⟩

/-! ## One call -/

variable {r : tcpcb × socket × BitVec 8} {so : socket}

/-- The queue holds pieces of the stream `S` within `2 ^ 31` after its first `next`
bytes; FIN comes with its end only. -/
structure Holding (b : ℤ) (S : List UInt8) (next : ℕ) (seg : List tcpiphdr) (Q : List Part) :
    Prop where
  segs : List.Forall₂ (Queued b next) seg Q
  ordered : Ordered off fin Q
  parts : ∀ c ∈ Q, c.Taken S ∧ (has c.tag TH_FIN → c.fin = S.length)

/-- A call has returned `r` and gone on to the first `next'` bytes of the stream. -/
structure Advance (b : ℤ) (S : List UInt8) (next : ℕ) (so : socket)
    (r : tcpcb × socket × BitVec 8) (next' : ℕ) : Prop where
  le : next ≤ next'
  lt : next' < next + 4294967296
  le_length : next' ≤ S.length
  rcv_nxt : r.1.rcv_nxt = uint32 (b + next')
  holding : ∃ Q, Holding b S next' r.1.seg Q
  so_state : r.2.1.so_state = so.so_state
  so_rcv : has so.so_state SS_CANTRCVMORE = false →
    ∃ D, r.2.1.so_rcv = so.so_rcv ++ D ∧ S.take next' = S.take next ++ D
  flags : r.2.2 ≠ 0 → next' = S.length

variable {S : List UInt8} {tp : tcpcb} {Q : List Part}

theorem holdingOf_iff {seg : List tcpiphdr} :
    HoldingOf True some b S next seg Q ↔ Holding b S next seg Q :=
  ⟨fun h => ⟨h.segs.imp fun _ _ => shown_iff.mp, h.ordered,
      fun c hc => (h.parts c hc).imp_right fun hfin => hfin trivial⟩,
    fun h => ⟨h.segs.imp fun _ _ => shown_iff.mpr, h.ordered,
      fun c hc => (h.parts c hc).imp_right fun hfin _ => hfin⟩⟩

theorem AdvanceOf.advance {next' : ℕ}
    (h : AdvanceOf True some b S next so r next') : Advance b S next so r next' where
  le := h.le
  lt := h.lt
  le_length := h.le_length
  rcv_nxt := h.rcv_nxt
  holding := h.holding.imp fun _ => holdingOf_iff.mp
  so_state := h.so_state
  so_rcv hcant := by
    obtain ⟨D, hD, htake⟩ := h.so_rcv hcant
    rw [filterMap_some] at hD
    exact ⟨D, hD, htake⟩
  flags := h.flags trivial

theorem cuttable_some (p : Part) (Q : List Part) : Cuttable some p Q :=
  fun _ _ => ⟨fun _ _ _ _ _ => rfl, fun _ _ _ _ _ => rfl⟩

/-- A segment that may come: a piece of the stream, FIN with its end only, at or after
`rcv_nxt` and within `2 ^ 31` of it. -/
def Fair (b : ℤ) (S : List UInt8) (next : ℕ) (ti : tcpiphdr) : Prop :=
  ∃ p : Part, Queued b next ti p ∧ p.Taken S ∧ (has p.tag TH_FIN → p.fin = S.length)

/-- **What `tcp_reass` does.** -/
theorem tcp_reass_advance {o : Option tcpiphdr} (h : Holding b S next tp.seg Q)
    (hrcv : tp.rcv_nxt = uint32 (b + next)) (hle : next ≤ S.length)
    (ho : ∀ ti ∈ o, Fair b S next ti) : ∃ next', Advance b S next so (tcp_reass tp so o) next' := by
  cases o with
  | none =>
    obtain ⟨next', hr⟩ := present_advanceOf (holdingOf_iff.mpr h) hrcv hle
    exact ⟨next', hr.advance⟩
  | some ti =>
    obtain ⟨p, hp, htaken, hfin⟩ := ho ti rfl
    obtain ⟨next', hr⟩ := tcp_reass_advanceOf (holdingOf_iff.mpr h) hrcv hle
      ⟨shown_iff.mpr hp, htaken, fun _ => hfin⟩ (cuttable_some p Q)
    exact ⟨next', hr.advance⟩

/-- **What `TCP_REASS` does**, its fast path included. -/
theorem TCP_REASS_advance (h : Holding b S next tp.seg Q)
    (hrcv : tp.rcv_nxt = uint32 (b + next)) (hle : next ≤ S.length) (hti : Fair b S next ti) :
    ∃ next', Advance b S next so (TCP_REASS tp so ti) next' := by
  obtain ⟨p, hp, htaken, hfin⟩ := hti
  obtain ⟨next', hr⟩ := TCP_REASS_advanceOf (holdingOf_iff.mpr h) hrcv hle
    ⟨shown_iff.mpr hp, htaken, fun _ => hfin⟩ (cuttable_some p Q)
  exact ⟨next', hr.advance⟩

/-! ## Runs -/

/-- The control block and the socket, the number of bytes of the stream before
`rcv_nxt`, the bytes the user has read, and the flags the last call has returned. -/
structure State where
  tp : tcpcb
  so : socket
  next : ℕ
  read : List UInt8
  flags : BitVec 8

/-- Segments that come, by way of the macro or not, calls with `ti==0`, and what goes
on meanwhile: the state of the connection changes, the user shuts down receiving or
reads. -/
inductive Event where
  | TCP_REASS (ti : tcpiphdr)
  | tcp_reass (ti : Option tcpiphdr)
  | t_state (t : TCPS)
  | socantrcvmore
  | soreceive (n : ℕ)

/-- The state after a call that has returned `r`; `rcv_nxt` has not gone round. -/
def State.after (s : State) (r : tcpcb × socket × BitVec 8) : State :=
  { s with
    tp := r.1
    so := r.2.1
    next := s.next + (uint32 (r.1.rcv_nxt - s.tp.rcv_nxt)).toNat
    flags := r.2.2 }

def Step (s : State) : Event → State → Prop
  | .TCP_REASS ti, s' => s' = s.after (TCP_REASS s.tp s.so ti)
  | .tcp_reass ti, s' => s' = s.after (tcp_reass s.tp s.so ti)
  | .t_state t, s' => s' = { s with tp := { s.tp with t_state := t } }
  | .socantrcvmore, s' =>
    s' = { s with so := { s.so with so_state := s.so.so_state ||| SS_CANTRCVMORE } }
  | .soreceive n, s' =>
    s' = { s with
      so := { s.so with so_rcv := s.so.so_rcv.drop n }
      read := s.read ++ s.so.so_rcv.take n }

/-- The segment is taken from the stream `S`, FIN comes with its end only, and it
starts at or after `rcv_nxt`, as the sequence numbers have it. -/
def LegalSeg (b : ℤ) (S : List UInt8) (s : State) (ti : tcpiphdr) : Prop :=
  (∃ p : Part, IsPiece b ti p ∧ p.Taken S ∧ (has p.tag TH_FIN → p.fin = S.length)) ∧
    SEQ_GEQ ti.ti_seq s.tp.rcv_nxt

def Legal (b : ℤ) (S : List UInt8) (s : State) : Event → Prop
  | .TCP_REASS ti => LegalSeg b S s ti
  | .tcp_reass ti => ∀ ti' ∈ ti, LegalSeg b S s ti'
  | _ => True

/-- And it lies within `2 ^ 31` after `rcv_nxt`. -/
def Ok (b : ℤ) (S : List UInt8) (s : State) : Event → Prop
  | .TCP_REASS ti => Fair b S s.next ti
  | .tcp_reass ti => ∀ ti' ∈ ti, Fair b S s.next ti'
  | _ => True

/-- What reassembly has done of the stream `S`: the bytes in the receive buffer and
those read before are the bytes up to `rcv_nxt`, unless the user has shut down
receiving; the queue is in order and beyond; FIN has come with the end. -/
structure Reassembled (b : ℤ) (S : List UInt8) (s : State) : Prop where
  rcv_nxt : s.tp.rcv_nxt = uint32 (b + s.next) ∧ s.next ≤ S.length
  so_rcv : has s.so.so_state SS_CANTRCVMORE = false → s.read ++ s.so.so_rcv = S.take s.next
  queue : ∃ Q, List.Forall₂ (IsPiece b) s.tp.seg Q ∧ Ordered off fin Q ∧
    ∀ c ∈ Q, c.Taken S ∧ s.next ≤ c.off
  fin : s.flags ≠ 0 → s.next = S.length

/-- The invariant: the queue moreover stays within `2 ^ 31`. -/
structure Inv (b : ℤ) (S : List UInt8) (s : State) : Prop where
  rcv_nxt : s.tp.rcv_nxt = uint32 (b + s.next) ∧ s.next ≤ S.length
  so_rcv : has s.so.so_state SS_CANTRCVMORE = false → s.read ++ s.so.so_rcv = S.take s.next
  holding : ∃ Q, Holding b S s.next s.tp.seg Q
  fin : s.flags ≠ 0 → s.next = S.length

theorem Inv.reassembled {s : State} (h : Inv b S s) : Reassembled b S s := by
  obtain ⟨Q, hQ⟩ := h.holding
  refine ⟨h.rcv_nxt, h.so_rcv, ⟨Q, hQ.segs.imp fun _ _ h => h.piece, hQ.ordered, fun c hc => ?_⟩,
    h.fin⟩
  obtain ⟨q, -, hq⟩ := forall₂_mem_right hQ.segs hc
  exact ⟨(hQ.parts c hc).1, hq.next_le⟩

/-- A call that advances keeps the invariant. -/
theorem Inv.after {s : State} (h : Inv b S s)
    (hr : ∃ next', Advance b S s.next s.so r next') : Inv b S (s.after r) := by
  obtain ⟨next', hr⟩ := hr
  have hnext : (s.after r).next = next' := by
    have h1 := hr.le
    have h2 := hr.lt
    show s.next + (uint32 (r.1.rcv_nxt - s.tp.rcv_nxt)).toNat = next'
    rw [hr.rcv_nxt, h.rcv_nxt.1, uint32_uint32_sub, uint32_of_ufits ⟨by omega, by omega⟩]
    omega
  refine ⟨?_, ?_, ?_, ?_⟩
  · rw [hnext]
    exact ⟨hr.rcv_nxt, hr.le_length⟩
  · intro hcant
    have hcant' : has s.so.so_state SS_CANTRCVMORE = false := by
      rw [← hr.so_state]
      exact hcant
    obtain ⟨D, hD, htake⟩ := hr.so_rcv hcant'
    rw [hnext, htake, ← h.so_rcv hcant', append_assoc, ← hD]
    rfl
  · rw [hnext]
    exact hr.holding
  · rw [hnext]
    exact hr.flags

theorem has_or_self (x m : BitVec 16) (hm : m ≠ 0) : has (x ||| m) m = true := by
  have : (x ||| m) &&& m = m := by
    ext i
    simp only [BitVec.getElem_and, BitVec.getElem_or]
    cases x[i] <;> cases m[i] <;> rfl
  rw [has, this]
  exact decide_eq_true hm

/-- **Every step keeps the invariant.** -/
theorem step_inv (s : State) (e : Event) (s' : State) (h : Inv b S s)
    (hstep : Guarded (Ok b S) Step s e s') : Inv b S s' := by
  obtain ⟨hok, hstep⟩ := hstep
  obtain ⟨Q, hQ⟩ := h.holding
  cases e with
  | TCP_REASS ti =>
    rw [show s' = _ from hstep]
    exact h.after (TCP_REASS_advance hQ h.rcv_nxt.1 h.rcv_nxt.2 hok)
  | tcp_reass ti =>
    rw [show s' = _ from hstep]
    exact h.after (tcp_reass_advance hQ h.rcv_nxt.1 h.rcv_nxt.2 hok)
  | t_state t =>
    rw [show s' = _ from hstep]
    exact ⟨h.rcv_nxt, h.so_rcv, h.holding, h.fin⟩
  | socantrcvmore =>
    rw [show s' = _ from hstep]
    refine ⟨h.rcv_nxt, fun hcant => ?_, h.holding, h.fin⟩
    rw [has_or_self _ _ (by decide)] at hcant
    cases hcant
  | soreceive n =>
    rw [show s' = _ from hstep]
    refine ⟨h.rcv_nxt, fun hcant => ?_, h.holding, h.fin⟩
    show s.read ++ s.so.so_rcv.take n ++ s.so.so_rcv.drop n = S.take s.next
    rw [append_assoc, take_append_drop]
    exact h.so_rcv hcant

/-- **The user gets the bytes of the stream in order**, in every run whose segments
lie within `2 ^ 31` after `rcv_nxt`, as long as receiving is not shut down. -/
theorem reassembled_of_run {s : State} {es : List Event} {tp : tcpcb} {so : socket}
    (hseg : tp.seg = []) (hrcv : tp.rcv_nxt = uint32 b) (hso : so.so_rcv = [])
    (h : Run (Guarded (Ok b S) Step) ⟨tp, so, 0, [], 0⟩ es s) : Reassembled b S s := by
  refine (Run.invariant (I := Inv b S) step_inv h ⟨?_, ?_, ⟨[], ?_, ?_, by simp⟩, ?_⟩).reassembled
  · exact ⟨by rw [hrcv]; simp, Nat.zero_le _⟩
  · exact fun _ => by simp [hso]
  · rw [hseg]
    exact .nil
  · exact List.Pairwise.nil
  · exact fun h => absurd rfl h

/-! ## Three runs -/

/-- A segment of a few bytes. -/
def dataSeg (seq : ℤ) (flags : BitVec 8) (dat : List UInt8) : tcpiphdr :=
  ⟨dat.length, seq, 0, flags, 0, 0, [⟨0, 40, 1, [], dat⟩]⟩

/-- An established connection that expects `rcv_nxt`. -/
def established (rcv_nxt : ℤ) : State :=
  ⟨{ tcp_newtcpcb 4096 with t_state := .ESTABLISHED, rcv_nxt := rcv_nxt }, ⟨0, []⟩, 0, [], 0⟩

/-- The end of a stream comes first and its beginning overlaps it, around the point
where sequence numbers wrap. -/
theorem reassembled_out_of_order :
    ∃ s, Reassembled 4294967294 [1, 2, 3, 4, 5] s ∧ s.so.so_rcv = [1, 2, 3, 4, 5] ∧
      s.flags = TH_FIN := by
  have hlast : Fair 4294967294 [1, 2, 3, 4, 5] 0 (dataSeg 0 TH_FIN [3, 4, 5]) :=
    ⟨⟨2, [3, 4, 5], TH_FIN⟩, ⟨⟨by decide, by decide, by decide, by decide, by decide⟩, by decide,
      by decide⟩, ⟨[1, 2], [], by decide, by decide⟩, by decide⟩
  have hfirst : Fair 4294967294 [1, 2, 3, 4, 5] 0 (dataSeg 4294967294 0 [1, 2, 3]) :=
    ⟨⟨0, [1, 2, 3], 0⟩, ⟨⟨by decide, by decide, by decide, by decide, by decide⟩, by decide,
      by decide⟩, ⟨[], [4, 5], by decide, by decide⟩, by decide⟩
  have hrun : Run (Guarded (Ok 4294967294 [1, 2, 3, 4, 5]) Step) (established 4294967294)
      [.TCP_REASS (dataSeg 0 TH_FIN [3, 4, 5]), .TCP_REASS (dataSeg 4294967294 0 [1, 2, 3])] _ :=
    .cons ⟨hlast, rfl⟩ (.cons ⟨hfirst, rfl⟩ (.nil _))
  exact ⟨_, reassembled_of_run rfl (by decide) rfl hrun, by decide, by decide⟩

/-- A stream of `2 ^ 32` zeros and a one. -/
def longStream : List UInt8 := List.replicate 4294967296 0 ++ [1]

/-- Once receiving is shut down, `rcv_nxt` goes on over bytes that are freed; and a
segment `2 ^ 32` bytes ahead is taken for the next one. -/
theorem not_reassembled :
    (∃ s, Run (Guarded (Legal 0 [1, 2]) Step) (established 0)
        [.TCP_REASS (dataSeg 1 0 [2]), .socantrcvmore, .TCP_REASS (dataSeg 0 0 [1])] s ∧
      s.read ++ s.so.so_rcv ≠ [1, 2].take s.next) ∧
    ∃ s, Run (Guarded (Legal 0 longStream) Step) (established 0) [.TCP_REASS (dataSeg 0 0 [1])] s ∧
      s.read ++ s.so.so_rcv ≠ longStream.take s.next := by
  constructor
  · have hlast : LegalSeg 0 [1, 2] (established 0) (dataSeg 1 0 [2]) :=
      ⟨⟨⟨1, [2], 0⟩, ⟨by decide, by decide, by decide, by decide, by decide⟩,
        ⟨[1], [], by decide, by decide⟩, by decide⟩, by decide⟩
    exact ⟨_, .cons ⟨hlast, rfl⟩ (.cons ⟨trivial, rfl⟩ (.cons
      ⟨⟨⟨⟨0, [1], 0⟩, ⟨by decide, by decide, by decide, by decide, by decide⟩,
        ⟨[], [2], by decide, by decide⟩, by decide⟩, by decide⟩, rfl⟩ (.nil _))), by decide⟩
  · have hahead : LegalSeg 0 longStream (established 0) (dataSeg 0 0 [1]) := by
      refine ⟨⟨⟨4294967296, [1], 0⟩, ⟨by decide, by decide, by decide, by decide, by decide⟩,
        ⟨List.replicate 4294967296 0, [], ?_, length_replicate⟩, ?_⟩, by decide⟩
      · rw [append_nil, longStream]
      · exact fun h => absurd h (by decide)
    refine ⟨_, .cons ⟨hahead, rfl⟩ (.nil _), ?_⟩
    have hnext : ((established 0).after (TCP_REASS (established 0).tp (established 0).so
        (dataSeg 0 0 [1]))).next = 1 := by decide
    have hread : ((established 0).after (TCP_REASS (established 0).tp (established 0).so
        (dataSeg 0 0 [1]))).read ++ ((established 0).after (TCP_REASS (established 0).tp
        (established 0).so (dataSeg 0 0 [1]))).so.so_rcv = [1] := by decide
    have htake : longStream.take 1 = [0] := by
      rw [longStream, take_append_of_le_length (by rw [length_replicate]; decide),
        take_replicate]
      rfl
    rw [hnext, hread, htake]
    decide

end Tcp
