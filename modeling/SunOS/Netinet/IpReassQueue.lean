/-
# One queue of fragments

The queue is the one `Reassembly.enter` makes of the pieces of the datagram, and it
is complete when they cover it.  Then the chains together hold the data, behind the
header of the first fragment, which has never been trimmed.
-/
import SunOS.Netinet.IpReass

namespace Ip

open List
open Mbuf Segments Reassembly
open Reassembly.Piece (fin off)

/-- A piece of the data of a datagram; the tag says that more fragments follow. -/
abbrev Part := Piece UInt8 Bool

/-- What tells datagrams apart. -/
structure Key where
  id : ℤ
  src : ℤ
  dst : ℤ
  p : ℤ
  deriving DecidableEq, Repr

/-- The fragment `f` of the datagram `k` is the piece `p`.  The header of a fragment at
offset 0 is right in front of its data. -/
structure IsFrag (k : Key) (f : ipasfrag) (p : Part) : Prop where
  off : f.ip_off = p.off
  len : f.ip_len = p.dat.length
  dat : contents f.m = p.dat
  mff : f.ipf_mff = p.tag
  short : p.fin ≤ 32767
  header : p.off = 0 → ∃ m ms, f.m = m :: ms ∧ sizeofIpasfrag ≤ m.front.length
  hl : f.ip_hl = 5
  id : f.ip_id = k.id
  p : f.ip_p = k.p

variable {k : Key} {q s : ipasfrag} {c p : Part}

theorem IsFrag.trim (h : IsFrag k q c) {i : ℕ} (hi : i ≤ c.dat.length) :
    IsFrag k (q.trim i) (c.trim i) := by
  have hfin : c.fin = c.off + c.dat.length := rfl
  have hshort := h.short
  refine ⟨?_, ?_, ?_, h.mff, ?_, ?_, h.hl, h.id, h.p⟩
  · show int16 (q.ip_off + i) = ((c.off + i : ℕ) : ℤ)
    rw [h.off, int16_of_fits (by lia)]
    rfl
  · show int16 (q.ip_len - i) = ((c.dat.drop i).length : ℤ)
    rw [h.len, length_drop, int16_of_fits (by lia)]
    lia
  · show contents (m_adj q.m i) = c.dat.drop i
    rw [contents_m_adj (by lia), h.dat, Int.toNat_natCast]
  · rw [Piece.trim_fin hi]
    exact hshort
  · intro hoff
    rw [Piece.trim_off] at hoff
    obtain ⟨m, ms, hm, hfront⟩ := h.header (by lia)
    refine ⟨m, ms, ?_, hfront⟩
    show m_adj q.m i = m :: ms
    rw [hm, show i = 0 by lia]
    rfl

theorem fragOps_simulates (k : Key) : fragOps.Simulates (IsFrag k) := by
  refine ⟨?_, ?_, fun h => h.len, fun h hi => h.trim hi⟩
  · intro q s c p hq hs
    show decide (q.ip_off > s.ip_off) = true ↔ _
    rw [decide_eq_true_iff, hq.off, hs.off]
    omega
  · intro q s c p hq hs
    show q.ip_off + q.ip_len - s.ip_off = _
    rw [hq.off, hq.len, hs.off, fin]
    push_cast
    ring

/-! ## Complete queues -/

/-- The fields of a fragment say where its piece is. -/
structure Fields {τ : Type} (f : ipasfrag) (c : Piece UInt8 τ) : Prop where
  off : f.ip_off = c.off
  len : f.ip_len = c.dat.length

/-- The walk finds no gap when all pieces are ready. -/
theorem gapless_fields {τ : Type} {frags : List ipasfrag} {Q : List (Piece UInt8 τ)} {next : ℕ}
    (h : List.Forall₂ Fields frags Q) :
    gapless next frags = if (ready next Q).2 = [] then some (reach next Q : ℤ) else none := by
  induction Q generalizing next frags with
  | nil =>
    cases h
    rfl
  | cons c Q ih =>
    cases h with
    | @cons q _ qs _ hq hqs =>
    rw [gapless, ready, hq.off, hq.len]
    by_cases hnext : c.off = next
    · rw [if_neg (by omega), if_pos hnext, reach_cons hnext, ← ih hqs, fin, hnext]
      rfl
    · rw [if_pos (by omega), if_neg hnext, if_neg (by simp)]

theorem gapless_ready {frags : List ipasfrag} {Q : List Part} {next : ℕ}
    (h : List.Forall₂ (IsFrag k) frags Q) :
    gapless next frags = if (ready next Q).2 = [] then some (reach next Q : ℤ) else none :=
  gapless_fields (h.imp fun _ _ hf => ⟨hf.off, hf.len⟩)

/-- The pieces of the datagram `D` in a queue: in order, and the last of the datagram
is the one with more fragments clear. -/
structure Gathered (k : Key) (D : List UInt8) (frags : List ipasfrag) (Q : List Part) : Prop where
  frags : List.Forall₂ (IsFrag k) frags Q
  ordered : Ordered off fin Q
  parts : ∀ c ∈ Q, c.Taken D ∧ (c.tag = false ↔ c.fin = D.length)
  ne_nil : Q ≠ []

variable {D : List UInt8} {frags : List ipasfrag} {Q : List Part}

/-- **Reassembly is complete when the pieces cover the datagram.** -/
theorem complete_iff (h : Gathered k D frags Q) (n : ℤ) :
    complete frags = some n ↔ cover off fin Q = Set.Ico 0 D.length ∧ n = D.length := by
  have hfin : ∀ c ∈ Q, c.fin ≤ D.length := fun c hc => (h.parts c hc).1.fin_le
  have hlast : ∃ f c, frags.getLast? = some f ∧ Q.getLast? = some c ∧ IsFrag k f c := by
    have hrel := forall₂_getLast? h.frags
    cases hQ : Q.getLast? with
    | none => exact absurd (List.getLast?_eq_none_iff.mp hQ) h.ne_nil
    | some c =>
      rw [hQ] at hrel
      generalize frags.getLast? = o at hrel
      cases hrel with
      | some hfc => exact ⟨_, _, rfl, rfl, hfc⟩
  obtain ⟨f, c, hf, hc, hfc⟩ := hlast
  have hcQ := List.mem_of_getLast? hc
  have hreach : (ready 0 Q).2 = [] → reach 0 Q = c.fin := by
    intro hnil
    rcases reach_eq 0 Q with ⟨hnone, -⟩ | ⟨d, -, hd, hfin'⟩
    · rw [← ready_append 0 Q, hnil, append_nil, hnone] at hc
      cases hc
    · rw [← ready_append 0 Q, hnil, append_nil, hd] at hc
      rw [hfin', Option.some.inj hc]
  rw [complete, show (0 : ℤ) = (0 : ℕ) from rfl, gapless_ready h.frags]
  by_cases hnil : (ready 0 Q).2 = []
  · simp only [if_pos hnil, hf, hfc.mff]
    have hcover := cover_of_ready hnil
    rw [hreach hnil] at hcover ⊢
    constructor
    · intro heq
      cases htag : c.tag with
      | true =>
        rw [htag] at heq
        cases heq
      | false =>
        have hend := (h.parts c hcQ).2.mp htag
        rw [htag, if_neg (by simp), Option.some.injEq, hend] at heq
        rw [← hend]
        exact ⟨hcover, heq ▸ hend ▸ rfl⟩
    · rintro ⟨hfull, rfl⟩
      have hend := (ready_of_cover h.ordered (fun c hc => ⟨Nat.zero_le _, hfin c hc⟩)
        (Nat.zero_le _) hfull).2
      rw [hreach hnil] at hend
      rw [(h.parts c hcQ).2.mpr hend, if_neg (by simp), hend]
  · simp only [if_neg hnil]
    constructor
    · intro heq
      cases heq
    · rintro ⟨hfull, -⟩
      exact absurd (ready_of_cover h.ordered (fun c hc => ⟨Nat.zero_le _, hfin c hc⟩)
        (Nat.zero_le _) hfull).1 hnil

/-! ## Concatenation -/

/-- The chains are put one after the other, behind the first mbuf. -/
theorem concatenate_spec (m : mbuf) (ms : List mbuf) (qs : List ipasfrag) :
    contents (concatenate (m :: ms) qs).1 =
        contents (m :: ms) ++ (qs.map fun q => contents q.m).flatten ∧
      ∃ dat rest, (concatenate (m :: ms) qs).1 = { m with dat := dat } :: rest := by
  induction qs generalizing m ms with
  | nil => exact ⟨by simp [concatenate], m.dat, ms, rfl⟩
  | cons q qs ih =>
    obtain ⟨hcont, -, dat, rest, heq⟩ := m_cat_spec m ms q.m
    rw [concatenate]
    rw [heq] at hcont
    simp only [heq]
    obtain ⟨hcont', dat', rest', heq'⟩ := ih { m with dat := dat } rest
    refine ⟨?_, dat', rest', heq'⟩
    rw [hcont', hcont, map_cons, flatten_cons, append_assoc]

theorem concatenateAll_spec {m : mbuf} {t : List mbuf} (hq : q.m = m :: t) (qs : List ipasfrag) :
    contents (concatenateAll (q :: qs)).1 = ((q :: qs).map fun q => contents q.m).flatten ∧
      ∃ dat rest, (concatenateAll (q :: qs)).1 = { m with dat := dat } :: rest := by
  obtain ⟨hcont, -, dat, rest, heq⟩ := m_cat_spec m [] t
  rw [concatenateAll, hq]
  rw [heq] at hcont
  simp only [heq]
  obtain ⟨hcont', dat', rest', heq'⟩ := concatenate_spec { m with dat := dat } rest qs
  refine ⟨?_, dat', rest', heq'⟩
  rw [hcont', hcont, map_cons, flatten_cons, hq, contents_cons, contents_nil,
    append_nil, ← contents_cons]

/-- The data of a packet, behind its header. -/
def datagram.payload (d : datagram) : List UInt8 := (contents d.m).drop (d.ip_hl * 4)

def datagram.key (d : datagram) : Key := ⟨d.ip_id, d.ip_src, d.ip_dst, d.ip_p⟩

def ipq.key (fp : ipq) : Key := ⟨fp.ipq_id, fp.ipq_src, fp.ipq_dst, fp.ipq_p⟩

/-- **Once the pieces cover the datagram it is passed on**, and the queue is gone;
before that the queue stays. -/
theorem finish_spec {fp : ipq} (h : Gathered k D fp.frags Q) (hk : fp.key = k) :
    (cover off fin Q = Set.Ico 0 D.length → ∃ d gone, finish fp = (none, some d, gone) ∧
        d.payload = D ∧ d.ip_len = D.length ∧ d.key = k) ∧
      (cover off fin Q ≠ Set.Ico 0 D.length → finish fp = (some fp, none, [])) := by
  have hcomplete := complete_iff h
  constructor
  · intro hcover
    have hsome := (hcomplete D.length).mpr ⟨hcover, rfl⟩
    have hfin : ∀ c ∈ Q, c.fin ≤ D.length := fun c hc => (h.parts c hc).1.fin_le
    obtain ⟨hnil, hreach⟩ := ready_of_cover h.ordered (fun c hc => ⟨Nat.zero_le _, hfin c hc⟩)
      (Nat.zero_le _) hcover
    have hshort : D.length ≤ 32767 := by
      rcases reach_eq 0 Q with ⟨-, hzero⟩ | ⟨c, hc, -, hend⟩
      · omega
      · obtain ⟨f, -, hf⟩ := forall₂_mem_right h.frags hc
        have := hf.short
        omega
    have hdata : ((fp.frags.map fun q => contents q.m)).flatten = D := by
      have htake : D.take (reach 0 Q) = _ := take_reach fun c hc => (h.parts c hc).1
      rw [hreach, take_length, take_zero, nil_append,
        ← append_nil (ready 0 Q).1, ← hnil, ready_append] at htake
      rw [htake]
      congr 1
      exact forall₂_eq_eq_eq ▸
        rel_map (P := Eq) (fun f c (hf : IsFrag k f c) => hf.dat) h.frags
    have hfrags := h.frags
    cases hQ : Q with
    | nil => exact absurd hQ h.ne_nil
    | cons c cs =>
      rw [hQ] at hnil
      have hoff : c.off = 0 := by
        by_contra hne
        rw [ready, if_neg hne] at hnil
        cases hnil
      rw [hQ] at hfrags
      cases hl : fp.frags with
      | nil =>
        rw [hl] at hfrags
        cases hfrags
      | cons f fs =>
        rw [hl] at hfrags hdata
        cases hfrags with
        | cons hf hfs =>
        obtain ⟨m, t, hm, hfront⟩ := hf.header hoff
        obtain ⟨hcont, dat, rest, heq⟩ := concatenateAll_spec hm fs
        rw [hl] at hsome
        rw [finish, hl]
        simp only [hsome]
        refine ⟨_, _, rfl, ?_, ?_, ?_⟩
        · show (contents (showHeader (concatenateAll (f :: fs)).1)).drop (f.ip_hl * 4) = D
          rw [hdata] at hcont
          rw [heq] at hcont ⊢
          rw [showHeader, contents_cons, hf.hl]
          show (((m.front.take sizeofIpasfrag).reverse ++ dat) ++ contents rest).drop (5 * 4) = D
          rw [append_assoc, drop_append_of_le_length, drop_of_length_le,
            nil_append]
          · exact hcont
          · simp [sizeofIpasfrag]
          · simp only [sizeofIpasfrag, length_reverse, length_take] at hfront ⊢
            omega
        · exact int16_of_fits (by omega)
        · rw [← hk]
          show Key.mk f.ip_id fp.ipq_src fp.ipq_dst f.ip_p = fp.key
          rw [hf.id, hf.p, ← hk]
          rfl
  · intro hcover
    have hnone : complete fp.frags = none := by
      cases hc : complete fp.frags with
      | none => rfl
      | some n => exact absurd ((hcomplete n).mp hc).1 hcover
    rw [finish, hnone]

end Ip
