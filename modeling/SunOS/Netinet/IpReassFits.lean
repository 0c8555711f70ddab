/-
# Fragments that are not trusted

The fragments of a datagram may be any bytes: they contradict each other, begin at any of the 8192
offsets there are and have headers of any length.  What they make up is what `Reassembly.enter`
makes of them, with the offsets in `ℕ`.  The queue of `ip_reass` is the same as long as no piece in
it begins at 32768 or later, and otherwise it has a fragment with a negative offset.

When they are all there the header of the first fragment is put back as if it were 20 bytes long.
-/
import SunOS.Netinet.IpReassQueue

namespace Ip

open List
open Mbuf Segments Reassembly
open Reassembly.Piece (fin off)

/-- The header of a fragment, and whether more fragments follow. -/
structure Tag where
  header : List UInt8
  more : Bool
  deriving DecidableEq, Repr

/-- What a fragment brings of its datagram. -/
abbrev Chunk := Piece UInt8 Tag

/-! ## What reassembly is for -/

/-- A datagram: the header of its first fragment and the data of all. -/
structure Datagram where
  header : List UInt8
  payload : List UInt8
  deriving DecidableEq, Repr

/-- Pieces that follow on one another up to a last one. -/
def AllThere (Q : List Chunk) : Prop := (ready 0 Q).2 = [] ∧ ∃ c ∈ Q.getLast?, c.tag.more = false

/-- The datagram that they make up. -/
def whole (Q : List Chunk) : Datagram :=
  ⟨(Q.head?.map fun c => c.tag.header).getD [], (Q.map Piece.dat).flatten⟩

/-- `d` is the datagram `w` as a protocol expects it: the chain begins with the header. -/
structure datagram.Is (d : datagram) (w : Datagram) : Prop where
  bytes : contents d.m = w.header ++ w.payload
  hl : d.ip_hl * 4 = w.header.length
  len : d.ip_len = w.payload.length

/-! ## Packets -/

/-- A packet that `ipintr` has checked: its header is in the first mbuf, and the chain has `ip_len`
bytes with it. -/
structure Packet extends ip where
  hl : 5 ≤ ip_hl
  header : ∃ n ns, m = n :: ns ∧ ip_hl * 4 ≤ n.dat.length
  len : ip_len = (contents m).length
  short : ip_len ≤ 32767

/-- What it brings; the offset is 13 bits, in units of 8 bytes. -/
def Packet.chunk (pkt : Packet) : Chunk :=
  ⟨(pkt.ip_off <<< 3).toNat, (contents pkt.m).drop (pkt.ip_hl * 4),
    ⟨(contents pkt.m).take (pkt.ip_hl * 4), pkt.ip_off &&& IP_MF ≠ 0⟩⟩

/-- The fragment `f` holds the piece `c` but for its offset.  The header of one at offset 0 is right
in front of its data. -/
structure Holds (f : ipasfrag) (c : Chunk) : Prop where
  len : f.ip_len = c.dat.length
  dat : contents f.m = c.dat
  mff : f.ipf_mff = c.tag.more
  short : c.dat.length ≤ 32747
  hl : f.ip_hl * 4 = c.tag.header.length
  long : 20 ≤ c.tag.header.length
  header : c.off = 0 → ∃ m ms, f.m = m :: ms ∧ c.tag.header.length ≤ m.front.length ∧
    c.tag.header = (m.front.take c.tag.header.length).reverse

/-- The fragment `f` holds the piece `c`, and its offset is one of a `short`. -/
structure Fits (f : ipasfrag) (c : Chunk) : Prop extends Holds f c where
  off : f.ip_off = c.off
  low : c.off ≤ 32767

variable {f q s : ipasfrag} {c p : Chunk} {frags : List ipasfrag} {Q : List Chunk}

theorem Fits.fields (h : Fits f c) : Fields f c := ⟨h.off, h.len⟩

theorem Holds.trim (h : Holds q c) {i : ℕ} (hpos : 0 < i) (hi : i ≤ c.dat.length) :
    Holds (q.trim i) (c.trim i) := by
  have hshort := h.short
  refine ⟨?_, ?_, h.mff, ?_, h.hl, h.long, ?_⟩
  · show int16 (q.ip_len - i) = ((c.dat.drop i).length : ℤ)
    rw [h.len, length_drop, int16_of_fits (by omega)]
    omega
  · show contents (m_adj q.m i) = c.dat.drop i
    rw [contents_m_adj (by omega), h.dat, Int.toNat_natCast]
  · rw [Piece.trim_dat, length_drop]
    omega
  · intro hoff
    rw [Piece.trim_off] at hoff
    omega

theorem Fits.trim_off (h : Fits q c) (i : ℕ) : (q.trim i).ip_off = int16 ((c.off + i : ℕ) : ℤ) := by
  show int16 (q.ip_off + i) = _
  rw [h.off]
  rfl

/-- `ip_reass` measures fragments as they are; a cut is another matter. -/
theorem fragOps_measures : fragOps.SimulatesOn (fun _ _ => False) Fits := by
  refine ⟨?_, ?_, fun h => h.len, fun _ _ h => h.elim⟩
  · intro q s c p hq hs
    show decide (q.ip_off > s.ip_off) = true ↔ _
    rw [decide_eq_true_iff, hq.off, hs.off]
    omega
  · intro q s c p hq hs
    show q.ip_off + q.ip_len - s.ip_off = _
    rw [hq.off, hq.len, hs.off, fin]
    push_cast
    ring

/-- After a cut a fragment fits, or its offset is negative. -/
theorem CutOf.fits_or_neg (h : Ops.CutOf fragOps Fits f c) :
    Holds f c ∧ (c.off ≤ 32767 → Fits f c) ∧ (32767 < c.off → f.ip_off < 0) := by
  cases h with
  | same hf =>
    have hlow := hf.low
    exact ⟨hf.toHolds, fun _ => hf, fun h => by omega⟩
  | @cut q p i hq hpos hi =>
    have hheld := hq.toHolds.trim hpos hi.le
    have hoff := hq.trim_off i
    have hlow := hq.low
    have hshort := hq.short
    refine ⟨hheld, fun hle => ⟨hheld, ?_, hle⟩, fun hlt => ?_⟩
    · show (q.trim i).ip_off = _
      rw [Piece.trim_off] at hle ⊢
      rw [hoff, int16_of_fits (by omega)]
    · show (q.trim i).ip_off < 0
      rw [Piece.trim_off] at hlt
      rw [hoff, int16]
      omega

/-! ## One more fragment -/

/-- A fragment has come with a negative offset, behind others that are no trouble. -/
def Wrapped (frags : List ipasfrag) : Prop :=
  ∃ l1 f l2, frags = l1 ++ f :: l2 ∧ (∀ g ∈ l1, 0 ≤ g.ip_len) ∧ f.ip_off < 0

theorem gapless_wrapped {l1 l2 : List ipasfrag} {next : ℤ} (hnext : 0 ≤ next)
    (hlen : ∀ g ∈ l1, 0 ≤ g.ip_len) (hf : f.ip_off < 0) : gapless next (l1 ++ f :: l2) = none := by
  induction l1 generalizing next with
  | nil => exact if_pos (by omega)
  | cons g l1 ih =>
    rw [cons_append, gapless]
    have hg := hlen g (by simp)
    by_cases hgap : g.ip_off ≠ next
    · exact if_pos hgap
    · rw [if_neg hgap]
      exact ih (by omega) fun g' hg' => hlen g' (mem_cons_of_mem _ hg')

/-- Such a queue is never complete. -/
theorem Wrapped.complete (h : Wrapped frags) : complete frags = none := by
  obtain ⟨l1, f, l2, rfl, hlen, hf⟩ := h
  rw [Ip.complete, gapless_wrapped (le_refl 0) hlen hf]

/-- Nor do its fields say where pieces are. -/
theorem Wrapped.not_fields (h : Wrapped frags) : ¬ List.Forall₂ Fields frags Q := by
  intro hrel
  obtain ⟨l1, f, l2, rfl, -, hf⟩ := h
  obtain ⟨c, -, hc⟩ := forall₂_mem_left hrel (mem_append_right l1 (mem_cons_self ..))
  have := hc.off
  omega

/-- The pieces in the queue begin where a `short` can say, with `c` among them. -/
def Low (c : Chunk) (Q : List Chunk) : Prop :=
  c.off ≤ 32767 ∧ ∀ q ∈ enter c Q, q.off ≤ 32767

instance (c : Chunk) (Q : List Chunk) : Decidable (Low c Q) := inferInstanceAs (Decidable (_ ∧ _))

/-- **One more fragment in the queue**: it is the queue of the pieces, or has wrapped. -/
theorem insert_fits (hQ : List.Forall₂ Fits frags Q) (hf : Holds f c)
    (hoff : f.ip_off = int16 c.off) (hc : c.off ≤ 65535) :
    (Low c Q → List.Forall₂ Fits (((fragOps.insert f frags).map Prod.fst).getD frags) (enter c Q)) ∧
      (¬ Low c Q → ∃ frags' gone, fragOps.insert f frags = some (frags', gone) ∧
        Wrapped frags') := by
  by_cases hlow : c.off ≤ 32767
  · have hfits : Fits f c := ⟨hf, hoff.trans (int16_of_fits (by lia)), hlow⟩
    rcases fragOps_measures.insert_cut hQ hfits with ⟨hnone, hsame⟩ |
      ⟨f', c', prevs, nexts, gone, hsome, henter, hprevs, hcut, hnexts⟩
    · rw [hnone, Low, hsame]
      refine ⟨fun _ => hQ, fun hnot => absurd ⟨hlow, fun q hq => ?_⟩ hnot⟩
      obtain ⟨g, -, hg⟩ := forall₂_mem_right hQ hq
      exact hg.low
    · obtain ⟨-, hfits', hneg⟩ := CutOf.fits_or_neg hcut
      have hlens : ∀ g ∈ prevs, 0 ≤ g.ip_len := fun g hg => by
        obtain ⟨q, -, hq⟩ := forall₂_mem_left hprevs hg
        have := hq.len
        lia
      rw [hsome, Low, henter]
      constructor
      · rintro ⟨-, hall⟩
        have hc' := hfits' (hall c' (by simp))
        refine rel_append hprevs (.cons hc' ?_)
        refine forall₂_imp_right (hnexts hc') fun g q hq hcut' => ?_
        exact (CutOf.fits_or_neg hcut').2.1 (hall q (by simp [hq]))
      · intro hnot
        refine ⟨_, _, rfl, ?_⟩
        by_cases hc' : c'.off ≤ 32767
        · -- a piece behind the new one is cut too far
          have hrel := hnexts (hfits' hc')
          have hfar : ∃ q ∈ shave c'.fin (after c Q), 32767 < q.off := by
            by_contra hnone
            refine hnot ⟨hlow, fun q hq => ?_⟩
            rcases List.mem_append.mp hq with hq | hq
            · obtain ⟨g, -, hg⟩ := forall₂_mem_right hprevs hq
              exact hg.low
            · rcases List.mem_cons.mp hq with rfl | hq
              · exact hc'
              · by_contra hlt
                exact hnone ⟨q, hq, by lia⟩
          obtain ⟨q, hq, hlt⟩ := hfar
          obtain ⟨g, hg, hgq⟩ := forall₂_mem_right hrel hq
          obtain ⟨l1, l2, hsplit⟩ := append_of_mem hg
          refine ⟨prevs ++ f' :: l1, g, l2, by rw [hsplit]; simp, fun g' hg' => ?_,
            (CutOf.fits_or_neg hgq).2.2 hlt⟩
          rcases List.mem_append.mp hg' with hg' | hg'
          · exact hlens g' hg'
          · rcases List.mem_cons.mp hg' with rfl | hg'
            · have := (hfits' hc').len
              lia
            · obtain ⟨q', -, hq'⟩ := forall₂_mem_left hrel (a := g')
                (by rw [hsplit]; exact mem_append_left _ hg')
              have := (CutOf.fits_or_neg hq').1.len
              lia
        · exact ⟨prevs, f', _, rfl, hlens, hneg (by lia)⟩
  · -- the offset is negative, so that the fragment goes in front of all
    have hneg : f.ip_off < 0 := by
      rw [hoff, int16]
      lia
    refine ⟨fun h => absurd h.1 hlow, fun _ => ?_⟩
    have hbeyond : ∀ q ∈ frags, fragOps.beyond q f = true := fun q hq => by
      obtain ⟨c', -, hc'⟩ := forall₂_mem_left hQ hq
      have := hc'.off
      exact decide_eq_true (by lia)
    have hprevs : fragOps.prevs f frags = [] := by
      cases hfrags : frags with
      | nil => rfl
      | cons q qs =>
        rw [Ops.prevs, takeWhile_cons_of_neg]
        simp [hbeyond q (by simp [hfrags])]
    rw [Ops.insert, hprevs]
    exact ⟨_, _, rfl, [], f, _, rfl, by simp, hneg⟩

/-! ## The datagram is complete -/

/-- `ip_reass` finds out when the pieces are all there. -/
theorem complete_fits (h : List.Forall₂ Fits frags Q) (n : ℤ) :
    complete frags = some n ↔ AllThere Q ∧ n = (whole Q).payload.length := by
  have hfields : List.Forall₂ Fields frags Q := h.imp fun _ _ hf => hf.fields
  have hlast := forall₂_getLast? h
  rw [complete, show (0 : ℤ) = (0 : ℕ) from rfl, gapless_fields hfields, AllThere]
  by_cases hnil : (ready 0 Q).2 = []
  · rw [if_pos hnil, reach_eq_length hnil, Nat.zero_add]
    generalize frags.getLast? = o at hlast
    generalize Q.getLast? = o' at hlast
    cases hlast with
    | none => simp
    | @some f c hfc =>
      simp only [hfc.mff, Option.mem_def, Option.some.injEq, exists_eq_left', hnil, true_and]
      cases c.tag.more with
      | true => simp
      | false =>
        rw [if_neg (by simp), Option.some.injEq]
        exact ⟨fun h => ⟨rfl, h.symm⟩, fun h => h.2.symm⟩
  · rw [if_neg hnil]
    constructor
    · intro h
      cases h
    · rintro ⟨⟨h, -⟩, -⟩
      exact absurd h hnil

/-- Then the pieces begin at 0. -/
theorem AllThere.head (h : AllThere Q) : ∃ c cs, Q = c :: cs ∧ c.off = 0 := by
  obtain ⟨hnil, c, hc, -⟩ := h
  cases Q with
  | nil => cases hc
  | cons c' cs =>
    refine ⟨c', cs, rfl, ?_⟩
    by_contra hne
    rw [ready, if_neg hne] at hnil
    cases hnil

/-- **What is passed on** is the datagram when its length is one of a `short` and the header of its
first fragment is 20 bytes long. -/
theorem newPacket_is (h : List.Forall₂ Fits frags Q) (hall : AllThere Q) (fp : ipq) :
    ∃ first rest, frags = first :: rest ∧
      ((newPacket fp first (whole Q).payload.length (concatenateAll frags).1).Is (whole Q) ↔
        (whole Q).payload.length ≤ 32767 ∧ (whole Q).header.length = 20) := by
  obtain ⟨c, cs, rfl, hoff⟩ := hall.head
  have hdata : (frags.map fun q => contents q.m).flatten = (whole (c :: cs)).payload :=
    congrArg List.flatten (forall₂_eq_eq_eq ▸
      rel_map (P := Eq) (fun f c (hf : Fits f c) => hf.dat) h)
  cases h with
  | @cons f _ fs _ hf hfs =>
  obtain ⟨m, t, hm, hfront, hheader⟩ := hf.header hoff
  obtain ⟨hcont, dat, rest, heq⟩ := concatenateAll_spec hm fs
  rw [hdata] at hcont
  have hw : (whole (c :: cs)).header = c.tag.header := rfl
  have hshown : contents (showHeader (concatenateAll (f :: fs)).1) =
      (m.front.take 20).reverse ++ (whole (c :: cs)).payload := by
    rw [← hcont, heq, showHeader, contents_cons, contents_cons, ← append_assoc]
    rfl
  have hlong := hf.long
  refine ⟨f, fs, rfl, fun his => ⟨?_, ?_⟩, fun hboth => ⟨?_, ?_, ?_⟩⟩
  · have hlen := his.len
    have hle : int16 ((whole (c :: cs)).payload.length : ℤ) ≤ 32767 := by
      rw [int16]
      omega
    change int16 ((whole (c :: cs)).payload.length : ℤ) = _ at hlen
    omega
  · have hbytes := congrArg List.length (hshown.symm.trans his.bytes)
    rw [length_append, length_append, length_reverse, length_take] at hbytes
    omega
  · have hlen := hboth.2
    refine hshown.trans ?_
    rw [hw] at hlen ⊢
    rw [hlen] at hheader
    rw [hheader]
  · exact hf.hl
  · have hshort := hboth.1
    exact int16_of_fits (by omega)

end Ip
