/-
# Reassembly of TCP segments (`tcp_reass`, `netinet/tcp_input.c`)

A new segment loses what the one before it in the queue already has, the ones after
it lose what it has, and then the segments at the front of the queue that continue
the data received go to the user.
-/
import SunOS.Lib.Reassembly
import SunOS.Netinet.TcpVar

namespace Tcp

open List
open Mbuf Reassembly

/-- `m_adj(dtom(q), i)` and the sequence numbers with it. -/
def tcpiphdr.trim (q : tcpiphdr) (i : ℤ) : tcpiphdr :=
  { q with ti_seq := uint32 (q.ti_seq + i), ti_len := q.ti_len - i, m := m_adj q.m i }

/-- The sequencing queue: it is searched for a segment that "begins after this one does",
and "conversion to int handles seq wraparound". -/
def seqOps : Ops tcpiphdr where
  beyond q ti := SEQ_GT q.ti_seq ti.ti_seq
  into q ti := int32 (q.ti_seq + q.ti_len - ti.ti_seq)
  len ti := ti.ti_len
  trim q i := q.trim i

/-- What the loop that presents data works on. -/
structure presenting where
  rcv_nxt : ℤ
  seg : List tcpiphdr
  so : socket
  flags : BitVec 8
  deriving DecidableEq, Repr

/-- "Present data to user, advancing rcv_nxt through completed sequence space." -/
def presentLoop (rcv_nxt : ℤ) (so : socket) (flags : BitVec 8) : List tcpiphdr → presenting
  | [] => ⟨rcv_nxt, [], so, flags⟩
  | ti :: seg =>
    if ti.ti_seq = rcv_nxt then
      presentLoop (uint32 (rcv_nxt + ti.ti_len))
        (if has so.so_state SS_CANTRCVMORE then so else sbappend so ti.m)
        (ti.ti_flags &&& TH_FIN) seg
    else ⟨rcv_nxt, ti :: seg, so, flags⟩

/-- `present:` -/
def present (tp : tcpcb) (so : socket) : tcpcb × socket × BitVec 8 :=
  if TCPS_HAVERCVDSYN tp.t_state = false then (tp, so, 0)
  else
    match tp.seg with
    | [] => (tp, so, 0)
    | ti :: _ =>
      if ti.ti_seq ≠ tp.rcv_nxt then (tp, so, 0)
      else if tp.t_state = .SYN_RECEIVED ∧ ti.ti_len ≠ 0 then (tp, so, 0)
      else
        let p := presentLoop tp.rcv_nxt so 0 tp.seg
        ({ tp with rcv_nxt := p.rcv_nxt, seg := p.seg }, p.so, p.flags)

/-- `tcp_reass(tp, ti)`; `ti` is `none` for a call "after become established to force
pre-ESTABLISHED data up to user socket". -/
def tcp_reass (tp : tcpcb) (so : socket) (ti : Option tcpiphdr) : tcpcb × socket × BitVec 8 :=
  match ti with
  | none => present tp so
  | some ti =>
    match seqOps.insert ti tp.seg with
    | none => (tp, so, 0)
    | some (seg, _) => present { tp with seg := seg } so

/-- `TCP_REASS(tp, ti, m, so, flags)`, and what it sets `flags` to. -/
def TCP_REASS (tp : tcpcb) (so : socket) (ti : tcpiphdr) : tcpcb × socket × BitVec 8 :=
  if ti.ti_seq = tp.rcv_nxt ∧ tp.seg = [] ∧ tp.t_state = .ESTABLISHED then
    ({ tp with rcv_nxt := uint32 (tp.rcv_nxt + ti.ti_len) }, sbappend so ti.m,
      ti.ti_flags &&& TH_FIN)
  else tcp_reass tp so (some ti)

end Tcp

/-! # What the user gets of the pieces of a stream

The chain of a segment shows the user the data of a piece of the stream, or some of them:
`view` says what of a datum is seen, if anything.  Sequence numbers count all data.  While the
queue stays within `2 ^ 31` of `rcv_nxt` it is the one `Reassembly.enter` makes of the pieces,
as long as no cut takes data that are not seen.
-/

namespace Tcp

open List
open Mbuf Segments Reassembly
open Reassembly.Piece (fin off)

variable {α : Type*} {view : α → Option UInt8} {b : ℤ} {next : ℕ} {q ti : tcpiphdr}
  {c p : Piece α (BitVec 8)}

/-- The segment `s` shows the piece `p` of the stream whose first datum has the sequence number
`b`. -/
structure Shows (view : α → Option UInt8) (b : ℤ) (s : tcpiphdr) (p : Piece α (BitVec 8)) :
    Prop where
  seq : s.ti_seq = uint32 (b + p.off)
  len : s.ti_len = p.dat.length
  dat : contents s.m = p.dat.filterMap view
  flags : s.ti_flags = p.tag
  short : p.dat.length ≤ 32767

/-- And it lies within `2 ^ 31` after the first `next` data. -/
structure Shown (view : α → Option UInt8) (b : ℤ) (next : ℕ) (s : tcpiphdr)
    (p : Piece α (BitVec 8)) : Prop where
  shows : Shows view b s p
  next_le : next ≤ p.off
  fin_lt : p.fin < next + 2147483648

/-- The first `i` data are seen. -/
def Visible (view : α → Option UInt8) (p : Piece α (BitVec 8)) (i : ℕ) : Prop :=
  ∀ a ∈ p.dat.take i, (view a).isSome

theorem drop_filterMap {l : List α} {i : ℕ} (h : ∀ a ∈ l.take i, (view a).isSome) :
    (l.filterMap view).drop i = (l.drop i).filterMap view := by
  induction l generalizing i with
  | nil => simp
  | cons a l ih =>
    cases i with
    | zero => rfl
    | succ i =>
      obtain ⟨x, hx⟩ := Option.isSome_iff_exists.mp (h a (by simp))
      rw [filterMap_cons_some hx, drop_succ_cons, drop_succ_cons]
      exact ih fun a' ha' => h a' (by simp [ha'])

theorem Shown.trim (h : Shown view b next q c) {i : ℕ} (hi : i ≤ c.dat.length)
    (hv : Visible view c i) : Shown view b next (q.trim i) (c.trim i) := by
  refine ⟨⟨?_, ?_, ?_, h.shows.flags, ?_⟩, ?_, ?_⟩
  · show uint32 (q.ti_seq + i) = uint32 (b + (c.off + i : ℕ))
    rw [h.shows.seq, uint32_uint32_add]
    congr 1
    push_cast
    ring
  · show q.ti_len - i = ((c.dat.drop i).length : ℤ)
    rw [h.shows.len, length_drop]
    omega
  · show contents (m_adj q.m i) = (c.dat.drop i).filterMap view
    rw [contents_m_adj (by omega), h.shows.dat, Int.toNat_natCast, drop_filterMap hv]
  · have := h.shows.short
    rw [Piece.trim_dat, length_drop]
    omega
  · exact h.next_le.trans (Nat.le_add_right _ _)
  · rw [Piece.trim_fin hi]
    exact h.fin_lt

/-- **The differences of sequence numbers are those of the offsets.** -/
theorem seqOps_simulatesOn (view : α → Option UInt8) (b : ℤ) (next : ℕ) :
    seqOps.SimulatesOn (Visible view) (Shown view b next) := by
  refine ⟨?_, ?_, fun h => h.shows.len, fun h hi hv => h.trim hi hv⟩
  · intro q s c p hq hs
    have h1 := hq.next_le
    have h2 := hq.fin_lt
    have h3 := hs.next_le
    have h4 := hs.fin_lt
    have h5 := c.off_le_fin
    have h6 := p.off_le_fin
    show decide (SEQ_GT q.ti_seq s.ti_seq) = true ↔ _
    rw [decide_eq_true_iff, SEQ_GT, hq.shows.seq, hs.shows.seq, int32_uint32_sub, int32_of_fits]
    · omega
    · rw [fits_iff]
      omega
  · intro q s c p hq hs
    have h1 := hq.next_le
    have h2 := hq.fin_lt
    have h3 := hs.next_le
    have h4 := hs.fin_lt
    have h5 := p.off_le_fin
    show int32 (q.ti_seq + q.ti_len - s.ti_seq) = _
    rw [fin] at h2 ⊢
    rw [hq.shows.seq, hs.shows.seq, hq.shows.len, int32_uint32_add_sub, int32_of_fits]
    · push_cast
      ring
    · rw [fits_iff]
      omega

/-! ## The queue -/

/-- **The segments that are ready are presented**, and the others stay. -/
theorem presentLoop_shown {seg : List tcpiphdr} {Q : List (Piece α (BitVec 8))} (so : socket)
    (flags : BitVec 8) (h : List.Forall₂ (Shown view b next) seg Q) (hQ : Ordered off fin Q) :
    ∃ seg', presentLoop (uint32 (b + next)) so flags seg =
        ⟨uint32 (b + reach next Q), seg',
          if has so.so_state SS_CANTRCVMORE then so
          else { so with
            so_rcv := so.so_rcv ++ (((ready next Q).1.map Piece.dat).flatten).filterMap view },
          ((ready next Q).1.getLast?.map fun c => c.tag &&& TH_FIN).getD flags⟩ ∧
      List.Forall₂ (Shown view b (reach next Q)) seg' (ready next Q).2 := by
  induction Q generalizing next seg so flags with
  | nil =>
    cases h
    refine ⟨[], ?_, .nil⟩
    simp [presentLoop, reach, ready]
  | cons c Q ih =>
    cases h with
    | @cons q _ qs _ hq hqs =>
    have h1 := hq.next_le
    have h2 := hq.fin_lt
    have h3 := c.off_le_fin
    rw [Ordered, pairwise_cons] at hQ
    rw [presentLoop]
    have hseq : q.ti_seq = uint32 (b + next) ↔ c.off = next := by
      rw [hq.shows.seq, uint32, uint32]
      omega
    by_cases hnext : c.off = next
    · have hlater : List.Forall₂ (Shown view b c.fin) qs Q := by
        refine forall₂_imp_right hqs fun a d hd had => ⟨had.shows, hQ.1 d hd, ?_⟩
        have := had.fin_lt
        omega
      have hadd : uint32 (uint32 (b + next) + q.ti_len) = uint32 (b + c.fin) := by
        rw [uint32_uint32_add, hq.shows.len, fin, hnext]
        congr 1
        push_cast
        ring
      rw [if_pos (hseq.mpr hnext), hadd]
      obtain ⟨seg', heq, hrest⟩ := ih
        (if has so.so_state SS_CANTRCVMORE then so else sbappend so q.m) (q.ti_flags &&& TH_FIN)
        hlater hQ.2
      rw [reach_cons hnext]
      refine ⟨seg', ?_, ?_⟩
      · rw [heq, ready, if_pos hnext, presenting.mk.injEq]
        refine ⟨rfl, rfl, ?_, ?_⟩
        · by_cases hcant : has so.so_state SS_CANTRCVMORE
          · simp [hcant]
          · simp [hcant, sbappend, hq.shows.dat]
        · rw [hq.shows.flags]
          rw [List.getLast?_cons]
          cases (ready c.fin Q).1.getLast? with
          | none => rfl
          | some d => rfl
      · rw [ready, if_pos hnext]
        exact hrest
    · rw [if_neg (fun h => hnext (hseq.mp h))]
      refine ⟨q :: qs, ?_, ?_⟩
      · simp [reach, ready, hnext]
      · rw [reach, ready, if_neg hnext]
        exact .cons hq hqs

/-! ## One call -/

variable {so : socket}

/-- The queue shows pieces of the stream `S` within `2 ^ 31` after its first `next` data; with
`ends`, FIN comes with its end only. -/
structure HoldingOf (ends : Prop) (view : α → Option UInt8) (b : ℤ) (S : List α) (next : ℕ)
    (seg : List tcpiphdr) (Q : List (Piece α (BitVec 8))) : Prop where
  segs : List.Forall₂ (Shown view b next) seg Q
  ordered : Ordered off fin Q
  parts : ∀ c ∈ Q, c.Taken S ∧ (ends → has c.tag TH_FIN → c.fin = S.length)

/-- A call has returned `r` and gone on to the first `next'` data of the stream. -/
structure AdvanceOf (ends : Prop) (view : α → Option UInt8) (b : ℤ) (S : List α) (next : ℕ)
    (so : socket)
    (r : tcpcb × socket × BitVec 8) (next' : ℕ) : Prop where
  le : next ≤ next'
  lt : next' < next + 4294967296
  le_length : next' ≤ S.length
  rcv_nxt : r.1.rcv_nxt = uint32 (b + next')
  holding : ∃ Q, HoldingOf ends view b S next' r.1.seg Q
  so_state : r.2.1.so_state = so.so_state
  so_rcv : has so.so_state SS_CANTRCVMORE = false →
    ∃ D, r.2.1.so_rcv = so.so_rcv ++ D.filterMap view ∧ S.take next' = S.take next ++ D
  flags : ends → r.2.2 ≠ 0 → next' = S.length

variable {ends : Prop} {S : List α} {tp : tcpcb} {Q : List (Piece α (BitVec 8))}

/-- A call that presents nothing. -/
theorem AdvanceOf.refl (h : HoldingOf ends view b S next tp.seg Q)
    (hrcv : tp.rcv_nxt = uint32 (b + next)) (hle : next ≤ S.length) :
    AdvanceOf ends view b S next so (tp, so, 0) next :=
  ⟨le_refl _, by omega, hle, hrcv, ⟨Q, h⟩, rfl, fun _ => ⟨[], by simp, by simp⟩,
    fun _ h => absurd rfl h⟩

/-- What presenting data does. -/
theorem present_advanceOf (h : HoldingOf ends view b S next tp.seg Q)
    (hrcv : tp.rcv_nxt = uint32 (b + next)) (hle : next ≤ S.length) :
    ∃ next', AdvanceOf ends view b S next so (present tp so) next' := by
  have hrefl : AdvanceOf ends view b S next so (tp, so, 0) next := .refl h hrcv hle
  rw [present]
  by_cases hsyn : TCPS_HAVERCVDSYN tp.t_state = false
  · rw [if_pos hsyn]
    exact ⟨next, hrefl⟩
  · rw [if_neg hsyn]
    cases hseg : tp.seg with
    | nil => exact ⟨next, hrefl⟩
    | cons ti seg =>
      simp only []
      by_cases hfirst : ti.ti_seq ≠ tp.rcv_nxt
      · rw [if_pos hfirst]
        exact ⟨next, hrefl⟩
      · rw [if_neg hfirst]
        by_cases hearly : tp.t_state = .SYN_RECEIVED ∧ ti.ti_len ≠ 0
        · rw [if_pos hearly]
          exact ⟨next, hrefl⟩
        · rw [if_neg hearly, ← hseg, hrcv]
          obtain ⟨seg', heq, hrest⟩ := presentLoop_shown so 0 h.segs h.ordered
          rw [heq]
          have hmem : ∀ c ∈ Q, c.fin < next + 2147483648 := by
            intro c hc
            obtain ⟨q, -, hq⟩ := forall₂_mem_right h.segs hc
            exact hq.fin_lt
          have hsub : ∀ c ∈ (ready next Q).2, c ∈ Q := by
            intro c hc
            rw [← ready_append next Q]
            exact mem_append_right _ hc
          have hlast : reach next Q < next + 4294967296 ∧ reach next Q ≤ S.length ∧
              (ends → ((ready next Q).1.getLast?.map fun c => c.tag &&& TH_FIN).getD 0 ≠ 0 →
                reach next Q = S.length) := by
            rcases reach_eq next Q with ⟨hnone, hreach⟩ | ⟨c, hc, hsome, hreach⟩
            · rw [hnone, hreach]
              exact ⟨by omega, hle, fun _ h => absurd rfl h⟩
            · rw [hsome, hreach]
              obtain ⟨htaken, hfin⟩ := h.parts c hc
              refine ⟨by have := hmem c hc; omega, htaken.fin_le, fun hends hflag => hfin hends ?_⟩
              exact decide_eq_true hflag
          refine ⟨reach next Q, le_reach next Q, hlast.1, hlast.2.1, rfl,
            ⟨(ready next Q).2, hrest, ready_rest_ordered h.ordered, fun c hc =>
              h.parts c (hsub c hc)⟩,
            ?_, ?_, hlast.2.2⟩
          · by_cases hcant : has so.so_state SS_CANTRCVMORE
            · simp [hcant]
            · simp [hcant]
          · intro hcant
            refine ⟨_, ?_, take_reach fun c hc => (h.parts c hc).1⟩
            simp [hcant]

/-- A segment that may come: it shows a piece of the stream, with `ends` FIN with its end only, at
or after `rcv_nxt` and within `2 ^ 31` of it. -/
def FairOf (ends : Prop) (view : α → Option UInt8) (b : ℤ) (S : List α) (next : ℕ) (ti : tcpiphdr)
    (p : Piece α (BitVec 8)) : Prop :=
  Shown view b next ti p ∧ p.Taken S ∧ (ends → has p.tag TH_FIN → p.fin = S.length)

/-- It and the pieces of the queue can be cut where they overlap. -/
def Cuttable (view : α → Option UInt8) (p : Piece α (BitVec 8)) (Q : List (Piece α (BitVec 8))) :
    Prop :=
  ∀ c ∈ Q, (c.off ≤ p.off → Ops.CutAt (Visible view) c.fin p) ∧
    (p.off < c.off → Ops.CutAt (Visible view) p.fin c)

/-- **What `tcp_reass` does** with a segment. -/
theorem tcp_reass_advanceOf (h : HoldingOf ends view b S next tp.seg Q)
    (hrcv : tp.rcv_nxt = uint32 (b + next)) (hle : next ≤ S.length)
    (hti : FairOf ends view b S next ti p)
    (hcut : Cuttable view p Q) :
      ∃ next', AdvanceOf ends view b S next so (tcp_reass tp so (some ti)) next' := by
  obtain ⟨hp, htaken, hfin⟩ := hti
  have hsub : ∀ c, c ∈ before p Q ∨ c ∈ after p Q → c ∈ Q := by
    intro c hc
    rw [← before_append_after p Q]
    exact List.mem_append.mpr hc
  have henter := (seqOps_simulatesOn view b next).insert h.segs hp
    (fun c hc => (hcut c (hsub c (Or.inl (List.mem_of_getLast? hc)))).1
      (off_le_of_mem_before (Q := Q) (List.mem_of_getLast? hc)))
    (fun p' hp' c hc => by
      rw [(clip_spec h.ordered hp').1.fin_eq]
      exact (hcut c (hsub c (Or.inr hc))).2 (off_lt_of_mem_after h.ordered hc))
  rw [tcp_reass]
  cases hins : seqOps.insert ti tp.seg with
  | none => exact ⟨next, .refl h hrcv hle⟩
  | some r =>
    obtain ⟨seg, gone⟩ := r
    rw [hins] at henter
    have hparts : ∀ c ∈ enter p Q, c.Taken S ∧ (ends → has c.tag TH_FIN → c.fin = S.length) := by
      intro c hc
      obtain ⟨c', hc', ht⟩ := mem_enter h.ordered hc
      have hc' : c'.Taken S ∧ (ends → has c'.tag TH_FIN → c'.fin = S.length) := by
        rcases List.mem_cons.mp hc' with rfl | hc'
        · exact ⟨htaken, hfin⟩
        · exact h.parts c' hc'
      rw [ht.fin_eq, ht.tag_eq]
      exact ⟨ht.taken hc'.1, hc'.2⟩
    have hholding : HoldingOf ends view b S next seg (enter p Q) :=
      ⟨henter, enter_ordered h.ordered, hparts⟩
    exact present_advanceOf hholding hrcv hle

/-- **What `TCP_REASS` does**, its fast path included. -/
theorem TCP_REASS_advanceOf (h : HoldingOf ends view b S next tp.seg Q)
    (hrcv : tp.rcv_nxt = uint32 (b + next)) (hle : next ≤ S.length)
    (hti : FairOf ends view b S next ti p)
    (hcut : Cuttable view p Q) :
      ∃ next', AdvanceOf ends view b S next so (TCP_REASS tp so ti) next' := by
  rw [TCP_REASS]
  by_cases hfast : ti.ti_seq = tp.rcv_nxt ∧ tp.seg = [] ∧ tp.t_state = .ESTABLISHED
  · rw [if_pos hfast]
    obtain ⟨hseq, hseg, -⟩ := hfast
    obtain ⟨hp, htaken, hfin⟩ := hti
    have h1 := hp.next_le
    have h2 := hp.fin_lt
    have h3 := p.off_le_fin
    have hoff : p.off = next := by
      rw [hp.shows.seq, hrcv, uint32, uint32] at hseq
      omega
    refine ⟨p.fin, h1.trans h3, by omega, htaken.fin_le, ?_, ⟨[], ?_, ?_, ?_⟩, rfl, ?_, ?_⟩
    · show uint32 (tp.rcv_nxt + ti.ti_len) = uint32 (b + p.fin)
      rw [hrcv, uint32_uint32_add, hp.shows.len, fin, hoff]
      congr 1
      push_cast
      ring
    · show List.Forall₂ _ tp.seg []
      rw [hseg]
      exact .nil
    · exact List.Pairwise.nil
    · simp
    · intro _
      refine ⟨p.dat, ?_, ?_⟩
      · rw [sbappend, hp.shows.dat]
      · rw [htaken.take_fin, hoff]
    · intro hends hflag
      refine hfin hends (decide_eq_true ?_)
      rw [← hp.shows.flags]
      exact hflag
  · rw [if_neg hfast]
    exact tcp_reass_advanceOf h hrcv hle hti hcut

end Tcp
