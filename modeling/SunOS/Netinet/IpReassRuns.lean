/-
# Runs of reassembly

Packets arrive and queues time out.  We follow one datagram, with the data `D` and the
key `k`, through a run in which its fragments come in any order and overlap as they
like, among packets with other keys of which nothing is assumed.  It is delivered
exactly when the fragments its queue has taken cover it.
-/
import SunOS.Netinet.IpReassQueue
import SunOS.Netinet.IpReassMbufs
import SunOS.Lib.Run

namespace Ip

open List
open Mbuf Segments Reassembly
open Reassembly.Piece (fin off)

def ip.key (ip : ip) : Key := ⟨ip.ip_id, ip.ip_src, ip.ip_dst, ip.ip_p⟩

theorem holds_iff (fp : ipq) (ip : ip) : fp.holds ip ↔ fp.key = ip.key := by
  rw [ipq.holds, decide_eq_true_iff, ipq.key, ip.key, Key.mk.injEq]
  constructor
  · rintro ⟨h1, h2, h3, h4⟩
    exact ⟨h1.symm, h2.symm, h3.symm, h4.symm⟩
  · rintro ⟨h1, h2, h3, h4⟩
    exact ⟨h1.symm, h2.symm, h3.symm, h4.symm⟩

/-- "If datagram marked as having more fragments or if this is not the first fragment." -/
def ip.fragmented (ip : ip) : Prop := ip.ip_off &&& IP_MF ≠ 0 ∨ (ip.ip_off <<< 3).toInt ≠ 0

instance (ip : ip) : Decidable ip.fragmented := inferInstanceAs (Decidable (_ ∨ _))

/-- The fragment that a packet becomes, its header hidden. -/
def ip.frag (ip : ip) : ipasfrag :=
  ⟨ip.ip_hl, ip.ip_off &&& IP_MF ≠ 0, int16 (ip.ip_len - (ip.ip_hl * 4 : ℕ)), ip.ip_id,
    (ip.ip_off <<< 3).toInt, ip.ip_p, hideHeader (ip.ip_hl * 4) ip.m⟩

/-- The datagram that a whole packet is. -/
def ip.datagram (ip : ip) : datagram :=
  ⟨ip.ip_hl, int16 (ip.ip_len - (ip.ip_hl * 4 : ℕ)), ip.ip_id, ip.ip_p, ip.ip_src, ip.ip_dst, ip.m⟩

/-- A packet is dropped for want of an mbuf, unless it needs no queue or has one. -/
def net.takes (n : net) (ip : ip) : Prop :=
  ¬ ip.fragmented ∨ (∃ fp ∈ n.ipq, fp.key = ip.key) ∨ n.supply.head?.join.isSome

instance (n : net) (ip : ip) : Decidable (n.takes ip) := inferInstanceAs (Decidable (_ ∨ _ ∨ _))

/-! ## What becomes of a packet -/

variable {o : Option ipq} {fp : ipq} {d : Option datagram}

/-- The queues are those there were, but the queue with the key `k` is now `o`. -/
structure Replaced (l l' : List ipq) (k : Key) (o : Option ipq) : Prop where
  mem : ∀ fp, fp ∈ l' ↔ fp ∈ o ∨ fp ∈ l ∧ fp.key ≠ k
  keys : (l'.map ipq.key).Nodup

/-- `fp` is the queue of `ip`, with its fragment. -/
def Entered (n : net) (ip : ip) (fp : ipq) : Prop :=
  fp.key = ip.key ∧
    ((∀ fp ∈ n.ipq, fp.key ≠ ip.key) ∧ fp.frags = [ip.frag] ∨
      ∃ fp0 ∈ n.ipq, fp0.key = ip.key ∧
        ∃ gone, fragOps.insert ip.frag fp0.frags = some (fp.frags, gone))

/-- What becomes of the queue of a packet, and what is delivered. -/
inductive Outcome (n : net) (ip : ip) : Option ipq → Option datagram → Prop
  | whole : ¬ ip.fragmented → Outcome n ip none (some ip.datagram)
  | refused : ¬ n.takes ip → Outcome n ip none none
  | dropped (fp : ipq) : fp ∈ n.ipq → fp.key = ip.key →
      fragOps.insert ip.frag fp.frags = none → Outcome n ip (some fp) none
  | entered (fp : ipq) : n.takes ip → Entered n ip fp →
      Outcome n ip (finish fp).1 (finish fp).2.1

variable {n : Ip.net} {ip : Ip.ip} {l : List ipq} {k κ : Key}

theorem replaced_self (hl : (l.map ipq.key).Nodup)
    (ho : ∀ fp, fp ∈ o ↔ fp ∈ l ∧ fp.key = k) : Replaced l l k o := by
  refine ⟨fun fp => ?_, hl⟩
  rw [ho]
  constructor
  · intro h
    by_cases hk : fp.key = k
    · exact Or.inl ⟨h, hk⟩
    · exact Or.inr ⟨h, hk⟩
  · rintro (h | h)
    · exact h.1
    · exact h.1

theorem replaced_cons (hl : (l.map ipq.key).Nodup) (hk : ∀ fp ∈ l, fp.key ≠ k)
    (ho : ∀ fp ∈ o, fp.key = k) : Replaced l (o.toList ++ l) k o := by
  refine ⟨fun fp => ?_, ?_⟩
  · rw [mem_append, Option.mem_toList]
    constructor
    · rintro (h | h)
      · exact Or.inl h
      · exact Or.inr ⟨h, hk fp h⟩
    · rintro (h | h)
      · exact Or.inl h
      · exact Or.inr h.1
  · cases o with
    | none => exact hl
    | some fp0 =>
      refine List.nodup_cons.mpr ⟨fun hmem => ?_, hl⟩
      obtain ⟨fp, hfp, heq⟩ := List.mem_map.mp hmem
      exact hk fp hfp (heq.trans (ho fp0 rfl))

theorem replaced_setq (hl : (l.map ipq.key).Nodup) (hip : ∃ fp ∈ l, fp.key = ip.key)
    (ho : ∀ fp ∈ o, fp.key = ip.key) : Replaced l (setq ip o l) ip.key o := by
  induction l with
  | nil =>
    obtain ⟨fp, hfp, -⟩ := hip
    cases hfp
  | cons fp0 l ih =>
    rw [map_cons, nodup_cons] at hl
    have hother : ∀ fp ∈ l, fp.key ≠ fp0.key := fun fp hfp heq =>
      hl.1 (heq ▸ mem_map_of_mem hfp)
    rw [setq]
    by_cases hk : fp0.key = ip.key
    · rw [if_pos ((holds_iff _ _).mpr hk)]
      rw [hk] at hother
      have hrepl := replaced_cons hl.2 hother ho
      refine ⟨fun fp => ?_, hrepl.keys⟩
      rw [hrepl.mem fp, mem_cons]
      constructor
      · rintro (h | h)
        · exact Or.inl h
        · exact Or.inr ⟨Or.inr h.1, h.2⟩
      · rintro (h | ⟨rfl | h, hne⟩)
        · exact Or.inl h
        · exact absurd hk hne
        · exact Or.inr ⟨h, hne⟩
    · rw [if_neg fun h => hk ((holds_iff _ _).mp h)]
      have hip' : ∃ fp ∈ l, fp.key = ip.key := by
        obtain ⟨fp, hfp, heq⟩ := hip
        rcases List.mem_cons.mp hfp with rfl | hfp
        · exact absurd heq hk
        · exact ⟨fp, hfp, heq⟩
      obtain ⟨hmem, hkeys⟩ := ih hl.2 hip'
      refine ⟨fun fp => ?_, ?_⟩
      · rw [mem_cons, hmem, mem_cons]
        constructor
        · rintro (rfl | h | h)
          · exact Or.inr ⟨Or.inl rfl, hk⟩
          · exact Or.inl h
          · exact Or.inr ⟨Or.inr h.1, h.2⟩
        · rintro (h | ⟨rfl | h, hne⟩)
          · exact Or.inr (Or.inl h)
          · exact Or.inl rfl
          · exact Or.inr (Or.inr ⟨h, hne⟩)
      · refine List.nodup_cons.mpr ⟨fun hmem' => ?_, hkeys⟩
        obtain ⟨fp, hfp, heq⟩ := List.mem_map.mp hmem'
        rcases (hmem fp).mp hfp with h | h
        · exact hk (heq ▸ ho fp h)
        · exact hother fp h.1 heq

/-- At the end of `ip_reass` the queue is there and nothing is delivered, or the other
way round. -/
theorem finish_cases (fp : ipq) :
    finish fp = (some fp, none, []) ∨ ∃ first rest next m gone, fp.frags = first :: rest ∧
      finish fp = (none, some (newPacket fp first next m), gone) := by
  rw [finish]
  split
  · rename_i next first rest _ hfrags
    exact Or.inr ⟨first, rest, next, _, _, hfrags, rfl⟩
  · exact Or.inl rfl

theorem find?_holds (n : Ip.net) (ip : Ip.ip) :
    (n.ipq.find? fun fp => fp.holds ip) = none ∧ (∀ fp ∈ n.ipq, fp.key ≠ ip.key) ∨
    ∃ fp ∈ n.ipq, fp.key = ip.key ∧ (n.ipq.find? fun fp => fp.holds ip) = some fp := by
  cases hfp : n.ipq.find? fun fp => fp.holds ip with
  | none =>
    refine Or.inl ⟨rfl, fun fp hmem heq => ?_⟩
    exact List.find?_eq_none.mp hfp fp hmem ((holds_iff _ _).mpr heq)
  | some fp =>
    have hholds : fp.holds ip = true := List.find?_some (p := fun fp : ipq => fp.holds ip) hfp
    exact Or.inr ⟨fp, List.mem_of_find?_eq_some hfp, (holds_iff _ _).mp hholds, rfl⟩

/-- A fragment goes to `ip_reass`. -/
theorem ours_fragmented (h : ip.fragmented) :
    ours ip n = ip_reass ip { ip.frag with m := ip.m } (n.ipq.find? fun fp => fp.holds ip) n := by
  rw [ours]
  exact if_pos (h.imp decide_eq_true id)

/-- A fragment of which all is there is dropped. -/
theorem ip_reass_dropped {hdr : Ip.ip} {f : ipasfrag}
    (h : fragOps.insert { f with m := hideHeader (f.ip_hl * 4) f.m } fp.frags = none) :
    (ip_reass hdr f (some fp) n).1.ipq = n.ipq ∧ (ip_reass hdr f (some fp) n).2 = none := by
  simp only [ip_reass, h, and_self]

/-- Another joins the queue. -/
theorem ip_reass_inserted {hdr : Ip.ip} {f : ipasfrag} {frags gone : List ipasfrag}
    (h : fragOps.insert { f with m := hideHeader (f.ip_hl * 4) f.m } fp.frags =
      some (frags, gone)) :
    (ip_reass hdr f (some fp) n).1.ipq = setq hdr (finish { fp with frags := frags }).1 n.ipq ∧
      (ip_reass hdr f (some fp) n).2 = (finish { fp with frags := frags }).2.1 := by
  simp only [ip_reass, h, and_self]

/-- Another packet is passed on, and the fragments there are of it go. -/
theorem ours_whole (h : ¬ ip.fragmented) : (ours ip n).2 = some ip.datagram ∧
    (ours ip n).1.ipq = match n.ipq.find? fun fp => fp.holds ip with
      | none => n.ipq
      | some _ => setq ip none n.ipq := by
  rw [ours]
  rw [if_neg fun h' => h (h'.imp of_decide_eq_true id)]
  cases n.ipq.find? fun fp => fp.holds ip with
  | none => exact ⟨rfl, rfl⟩
  | some fp => exact ⟨rfl, rfl⟩

theorem finish_key {fp fp' : ipq} (h : fp' ∈ (finish fp).1) : fp' = fp := by
  rcases finish_cases fp with heq | ⟨_, _, _, _, _, -, heq⟩
  · rw [heq] at h
    exact (Option.some.inj h).symm
  · rw [heq] at h
    cases h

/-- What `ipintr` does with a fragment. -/
theorem fragmented_outcome (hkeys : (n.ipq.map ipq.key).Nodup) (hfrag : ip.fragmented) :
    ∃ o, Replaced n.ipq (ours ip n).1.ipq ip.key o ∧ Outcome n ip o (ours ip n).2 := by
  rw [ours_fragmented hfrag]
  rcases find?_holds n ip with ⟨hnone, hother⟩ | ⟨fp, hfp, hk, hsome⟩
  · rw [hnone, ip_reass.eq_def]
    have hrepl : Replaced n.ipq n.ipq ip.key none :=
      replaced_self hkeys fun fp => ⟨fun h => (by cases h), fun h => absurd h.2 (hother fp h.1)⟩
    have hrefused : n.supply.head?.join = none → ¬ n.takes ip := by
      rintro hsupply (h | ⟨fp, hfp, hk⟩ | h)
      · exact h hfrag
      · exact hother fp hfp hk
      · rw [hsupply] at h
        cases h
    rcases hsupply : n.supply with _ | ⟨_ | a, supply⟩
    · exact ⟨none, hrepl, .refused (hrefused (by rw [hsupply]; rfl))⟩
    · exact ⟨none, hrepl, .refused (hrefused (by rw [hsupply]; rfl))⟩
    · have henter : Entered n ip ⟨a, IPFRAGTTL, ip.ip_p, ip.ip_id, ip.ip_src, ip.ip_dst,
          [ip.frag]⟩ := ⟨rfl, Or.inl ⟨hother, rfl⟩⟩
      have htakes : n.takes ip := Or.inr (Or.inr (by rw [hsupply]; rfl))
      refine ⟨_, replaced_cons hkeys hother fun fp h => ?_, .entered _ htakes henter⟩
      rw [finish_key h]
      rfl
  · rw [hsome]
    cases hins : fragOps.insert ip.frag fp.frags with
    | none =>
      obtain ⟨hq, hd⟩ := ip_reass_dropped (f := { ip.frag with m := ip.m }) hins
      rw [hq, hd]
      refine ⟨some fp, replaced_self hkeys fun fp' => ?_, .dropped fp hfp hk hins⟩
      constructor
      · intro h
        cases h
        exact ⟨hfp, hk⟩
      · rintro ⟨h, hk'⟩
        exact congrArg some (inj_on_of_nodup_map hkeys hfp h (hk.trans hk'.symm))
    | some r =>
      obtain ⟨frags, gone⟩ := r
      obtain ⟨hq, hd⟩ := ip_reass_inserted (f := { ip.frag with m := ip.m }) hins
      rw [hq, hd]
      have henter : Entered n ip { fp with frags := frags } :=
        ⟨hk, Or.inr ⟨fp, hfp, hk, gone, hins⟩⟩
      have htakes : n.takes ip := Or.inr (Or.inl ⟨fp, hfp, hk⟩)
      refine ⟨_, replaced_setq hkeys ⟨fp, hfp, hk⟩ fun fp' h => ?_, .entered _ htakes henter⟩
      rw [finish_key h]
      exact hk

/-- Another packet leaves no queue behind. -/
theorem whole_replaced (hkeys : (n.ipq.map ipq.key).Nodup) (hfrag : ¬ ip.fragmented) :
    Replaced n.ipq (ours ip n).1.ipq ip.key none := by
  rw [(ours_whole (n := n) hfrag).2]
  rcases find?_holds n ip with ⟨hnone, hother⟩ | ⟨fp, hfp, hk, hsome⟩
  · rw [hnone]
    exact replaced_self hkeys fun fp => ⟨fun h => (by cases h), fun h => absurd h.2 (hother fp h.1)⟩
  · rw [hsome]
    exact replaced_setq hkeys ⟨fp, hfp, hk⟩ fun fp' h => (by cases h)

/-- **What `ipintr` does with a packet.** -/
theorem ours_outcome (ip : Ip.ip) (hkeys : (n.ipq.map ipq.key).Nodup) :
    ∃ o, Replaced n.ipq (ours ip n).1.ipq ip.key o ∧ Outcome n ip o (ours ip n).2 := by
  by_cases hfrag : ip.fragmented
  · exact fragmented_outcome hkeys hfrag
  · rw [(ours_whole (n := n) hfrag).1]
    exact ⟨none, whole_replaced hkeys hfrag, .whole hfrag⟩

/-- The fragments of a queue belong to it. -/
def ipq.Owns (fp : ipq) : Prop := ∀ f ∈ fp.frags, f.ip_id = fp.ipq_id ∧ f.ip_p = fp.ipq_p

theorem Entered.owns (h : Entered n ip fp) (hn : ∀ fp ∈ n.ipq, fp.Owns) : fp.Owns := by
  obtain ⟨hk, h⟩ := h
  rw [ipq.key, ip.key, Key.mk.injEq] at hk
  obtain ⟨hid, -, -, hp⟩ := hk
  rw [ipq.Owns, hid, hp]
  rcases h with ⟨-, heq⟩ | ⟨fp0, hmem, hk0, gone, hins⟩
  · rw [heq]
    intro f hf
    rw [mem_singleton] at hf
    rw [hf]
    exact ⟨rfl, rfl⟩
  · rw [ipq.key, ip.key, Key.mk.injEq] at hk0
    obtain ⟨hid0, -, -, hp0⟩ := hk0
    have howns := hn fp0 hmem
    rw [ipq.Owns, hid0, hp0] at howns
    exact Ops.forall_insert (P := fun f : ipasfrag => f.ip_id = ip.ip_id ∧ f.ip_p = ip.ip_p)
      (fun f i hf => hf) hins ⟨rfl, rfl⟩ howns

/-- **What is delivered has the key of the packet** that came, and its queue keeps it. -/
theorem Outcome.keys (h : Outcome n ip o d) (hn : ∀ fp ∈ n.ipq, fp.Owns) :
    (∀ fp ∈ o, fp.key = ip.key ∧ fp.Owns) ∧ ∀ d' ∈ d, d'.key = ip.key := by
  cases h with
  | whole _ => exact ⟨fun fp h => (by cases h), fun d' h => (by cases h; rfl)⟩
  | refused _ => exact ⟨fun fp h => (by cases h), fun d' h => (by cases h)⟩
  | dropped fp hfp hk _ =>
    exact ⟨fun fp' h => (by cases h; exact ⟨hk, hn fp hfp⟩), fun d' h => (by cases h)⟩
  | entered fp _ henter =>
    have howns := henter.owns hn
    refine ⟨fun fp' h => ?_, fun d' h => ?_⟩
    · rw [finish_key h]
      exact ⟨henter.1, howns⟩
    · rcases finish_cases fp with heq | ⟨first, rest, next, m, gone, hfrags, heq⟩
      · rw [heq] at h
        cases h
      · rw [heq] at h
        cases h
        obtain ⟨hid, hp⟩ := howns first (by simp [hfrags])
        rw [← henter.1]
        show Key.mk first.ip_id fp.ipq_src fp.ipq_dst first.ip_p = fp.key
        rw [hid, hp]
        rfl

/-! ## The clock -/

/-- The queues that are left are those there were. -/
theorem mem_ip_slowtimo (h : fp ∈ (ip_slowtimo n).ipq) :
    ∃ fp0 ∈ n.ipq, fp = { fp0 with ipq_ttl := fp0.ipq_ttl - 1 } := by
  obtain ⟨fp0, hfp0, heq⟩ := List.mem_map.mp (mem_of_mem_filter h)
  exact ⟨fp0, hfp0, heq.symm⟩

theorem ip_slowtimo_keys (h : (n.ipq.map ipq.key).Nodup) :
    ((ip_slowtimo n).ipq.map ipq.key).Nodup := by
  have hsub : ((ip_slowtimo n).ipq.map ipq.key).Sublist (n.ipq.map ipq.key) := by
    refine (List.filter_sublist.map _).trans ?_
    rw [map_map]
    exact List.Sublist.refl _
  exact hsub.nodup h

/-! ## The fragments of one datagram -/

variable {got : Set ℕ}

/-- The offsets of the data in a packet. -/
def ip.range (ip : Ip.ip) : Set ℕ :=
  Set.Ico (ip.ip_off <<< 3).toNat
    ((ip.ip_off <<< 3).toNat + (ip.ip_len - (ip.ip_hl * 4 : ℕ)).toNat)

/-- `ip` carries the piece `p` of the data `D`.  It has no options, all of its bytes, and
its header in the first mbuf; more fragments follow unless it reaches the end. -/
structure Carries (D : List UInt8) (ip : Ip.ip) (p : Part) : Prop where
  hl : ip.ip_hl = 5
  len : ip.ip_len = 20 + p.dat.length
  dat : (contents ip.m).drop 20 = p.dat
  header : ∃ m ms, ip.m = m :: ms ∧ 20 ≤ m.dat.length
  off : (ip.ip_off <<< 3).toNat = p.off
  tag : p.tag = decide (ip.ip_off &&& IP_MF ≠ 0)
  taken : p.Taken D
  last : p.tag = false ↔ p.fin = D.length

variable {D : List UInt8} {p : Part} {Q : List Part}

section

variable (h : Carries D ip p)
include h

theorem Carries.range : ip.range = Set.Ico p.off p.fin := by
  have hlen : (ip.ip_len - (ip.ip_hl * 4 : ℕ)).toNat = p.dat.length := by
    rw [h.len, h.hl]
    omega
  rw [ip.range, h.off, hlen, fin]

theorem Carries.toInt_off (hD : D.length ≤ 32767) : (ip.ip_off <<< 3).toInt = p.off := by
  have hle := h.taken.fin_le
  have hoff := p.off_le_fin
  rw [BitVec.toInt_eq_toNat_of_lt (by rw [h.off]; omega), h.off]

theorem Carries.int16_len (hD : D.length ≤ 32767) :
    int16 (ip.ip_len - (ip.ip_hl * 4 : ℕ)) = p.dat.length := by
  have hle := h.taken.fin_le
  have hfin : p.fin = p.off + p.dat.length := rfl
  rw [h.len, h.hl, int16_of_fits (by omega)]
  omega

theorem Carries.isFrag (hD : D.length ≤ 32767) : IsFrag ip.key ip.frag p := by
  obtain ⟨m, ms, hm, hlen⟩ := h.header
  have hfrag : ip.frag.m = m.advance 20 :: ms := by
    show hideHeader (ip.ip_hl * 4) ip.m = _
    rw [hm, h.hl]
    rfl
  refine ⟨h.toInt_off hD, h.int16_len hD, ?_, h.tag.symm, h.taken.fin_le.trans hD, fun _ => ?_,
    h.hl, rfl, rfl⟩
  · have hdat := h.dat
    rw [hm, contents_cons, drop_append_of_le_length hlen] at hdat
    rw [hfrag]
    exact hdat
  · refine ⟨_, _, hfrag, ?_⟩
    show sizeofIpasfrag ≤ ((m.dat.take 20).reverse ++ m.front).length
    simp [sizeofIpasfrag]
    omega

/-- A packet that is not a fragment carries all of the datagram. -/
theorem Carries.whole (hD : D.length ≤ 32767) : ¬ ip.fragmented ↔ p.off = 0 ∧ p.fin = D.length := by
  rw [ip.fragmented, not_or, not_not, not_not, h.toInt_off hD, ← h.last, h.tag]
  constructor
  · rintro ⟨hmf, hoff⟩
    exact ⟨by omega, by rw [hmf]; rfl⟩
  · rintro ⟨hoff, hmf⟩
    exact ⟨not_not.mp (of_decide_eq_false hmf), by omega⟩

theorem Carries.datagram (hD : D.length ≤ 32767) (hfrag : ¬ ip.fragmented) :
    ip.datagram.payload = D ∧ ip.datagram.ip_len = D.length := by
  obtain ⟨hoff, hfin⟩ := (h.whole hD).mp hfrag
  have hdat := h.taken.dat_eq hoff hfin
  constructor
  · show (contents ip.m).drop (ip.ip_hl * 4) = D
    rw [h.hl, h.dat, hdat]
  · show int16 (ip.ip_len - (ip.ip_hl * 4 : ℕ)) = D.length
    rw [h.int16_len hD, hdat]

end

/-- The queue of the datagram, which has the offsets `got`. -/
structure Holding (κ : Key) (D : List UInt8) (got : Set ℕ) (fp : ipq) : Prop where
  key : fp.key = κ
  gathered : ∃ Q, Gathered κ D fp.frags Q ∧ cover off fin Q = got
  incomplete : got ≠ Set.Ico 0 D.length

/-- **What `ipintr` does with a fragment of the datagram**: it is delivered when the
offsets make up all of it, and otherwise its queue has taken the fragment. -/
structure Verdict (κ : Key) (D : List UInt8) (n : net) (ip : Ip.ip) (got : Set ℕ) (o : Option ipq)
    (d : Option datagram) : Prop where
  delivered : d.isSome ↔ n.takes ip ∧ got ∪ ip.range = Set.Ico 0 D.length
  datagram : ∀ d' ∈ d, d'.payload = D ∧ d'.ip_len = D.length ∧ o = none
  held : d = none → n.takes ip → ∃ fp, o = some fp ∧ Holding κ D (got ∪ ip.range) fp
  refused : ¬ n.takes ip → o = none

theorem enter_gathered {frags : List ipasfrag} (h : Carries D ip p) (hQ : Ordered off fin Q)
    (hparts : ∀ c ∈ Q, c.Taken D ∧ (c.tag = false ↔ c.fin = D.length))
    (hfrags : List.Forall₂ (IsFrag ip.key) frags (enter p Q)) (hfp : fp.frags = frags)
    (hgot : cover off fin Q = got) :
    ∃ Q', Gathered ip.key D fp.frags Q' ∧ cover off fin Q' = got ∪ ip.range := by
  refine ⟨enter p Q, ⟨hfp ▸ hfrags, enter_ordered hQ, fun c hc => ?_, enter_ne_nil p Q⟩, ?_⟩
  · obtain ⟨c', hc', ht⟩ := mem_enter hQ hc
    have hc' : c'.Taken D ∧ (c'.tag = false ↔ c'.fin = D.length) := by
      rcases List.mem_cons.mp hc' with rfl | hc'
      · exact ⟨h.taken, h.last⟩
      · exact hparts c' hc'
    rw [ht.fin_eq, ht.tag_eq]
    exact ⟨ht.taken hc'.1, hc'.2⟩
  · rw [cover_enter hQ, hgot, h.range]

theorem verdict (h : Carries D ip p)
    (hD : D.length ≤ 32767) (hheld : ∀ fp ∈ n.ipq, fp.key = ip.key → Holding ip.key D got fp)
    (hempty : (∀ fp ∈ n.ipq, fp.key ≠ ip.key) → got = ∅)
    (hgot : got ⊆ Set.Ico 0 D.length) (hout : Outcome n ip o d) :
    Verdict ip.key D n ip got o d := by
  have hfrag := h.isFrag hD
  -- with its fragment the queue has more of the datagram
  have hmore : ∀ fp, Entered n ip fp →
      ∃ Q', Gathered ip.key D fp.frags Q' ∧ cover off fin Q' = got ∪ ip.range := by
    rintro fp ⟨-, ⟨hother, hnew⟩ | ⟨fp0, hmem, hk, gone, hins⟩⟩
    · exact enter_gathered h List.Pairwise.nil (by simp) (.cons hfrag .nil) hnew
        (by rw [hempty hother, cover_nil])
    · obtain ⟨-, ⟨Q, hQ, hcover⟩, -⟩ := hheld fp0 hmem hk
      have hrel := (fragOps_simulates ip.key).insert hQ.frags hfrag
      rw [hins] at hrel
      exact enter_gathered h hQ.ordered hQ.parts hrel rfl hcover
  cases hout with
  | whole hnot =>
    obtain ⟨hoff, hfin⟩ := (h.whole hD).mp hnot
    obtain ⟨hpayload, hlen⟩ := h.datagram hD hnot
    refine ⟨?_, ?_, ?_, ?_⟩
    · rw [h.range, hoff, hfin, Set.union_eq_self_of_subset_left hgot]
      exact ⟨fun _ => ⟨Or.inl hnot, rfl⟩, fun _ => rfl⟩
    · intro d' hd'
      cases hd'
      exact ⟨hpayload, hlen, rfl⟩
    · intro hd
      cases hd
    · exact fun _ => rfl
  | refused hnot =>
    refine ⟨?_, ?_, ?_, fun _ => rfl⟩
    · exact ⟨fun hd => (by cases hd), fun hall => absurd hall.1 hnot⟩
    · intro d' hd'
      cases hd'
    · exact fun _ htakes => absurd htakes hnot
  | dropped fp hmem hk hins =>
    obtain ⟨-, ⟨Q, hQ, hcover⟩, hinc⟩ := hheld fp hmem hk
    have hrel := (fragOps_simulates ip.key).insert hQ.frags hfrag
    rw [hins] at hrel
    obtain ⟨Q', hQ', hcover'⟩ := enter_gathered h hQ.ordered hQ.parts hrel rfl hcover
    have htakes : n.takes ip := Or.inr (Or.inl ⟨fp, hmem, hk⟩)
    -- the queue is the same, so it is as incomplete as it was
    have hinc' : got ∪ ip.range ≠ Set.Ico 0 D.length := by
      intro hall
      have hsome := (complete_iff hQ' D.length).mpr ⟨hcover'.trans hall, rfl⟩
      exact hinc (hcover ▸ ((complete_iff hQ D.length).mp hsome).1)
    refine ⟨?_, ?_, ?_, ?_⟩
    · exact ⟨fun hd => (by cases hd), fun hall => absurd hall.2 hinc'⟩
    · intro d' hd'
      cases hd'
    · exact fun _ _ => ⟨fp, rfl, hk, ⟨Q', hQ', hcover'⟩, hinc'⟩
    · exact fun hnot => absurd htakes hnot
  | entered fp htakes henter =>
    obtain ⟨Q', hQ', hcover'⟩ := hmore fp henter
    obtain ⟨hfull, hpart⟩ := finish_spec hQ' henter.1
    rw [hcover'] at hfull hpart
    by_cases hall : got ∪ ip.range = Set.Ico 0 D.length
    · obtain ⟨d, gone, heq, hpayload, hlen, -⟩ := hfull hall
      rw [heq]
      refine ⟨⟨fun _ => ⟨htakes, hall⟩, fun _ => rfl⟩, ?_, ?_, fun _ => rfl⟩
      · intro d' hd'
        cases hd'
        exact ⟨hpayload, hlen, rfl⟩
      · intro hd
        cases hd
    · rw [hpart hall]
      refine ⟨⟨fun hd => (by cases hd), fun h => absurd h.2 hall⟩, ?_, ?_, ?_⟩
      · intro d' hd'
        cases hd'
      · exact fun _ _ => ⟨fp, rfl, henter.1, ⟨Q', hQ', hcover'⟩, hall⟩
      · exact fun hnot => absurd htakes hnot

/-! ## Runs -/

/-- The mbufs of the packets that have come and of the datagrams delivered, and the
offsets the datagram `κ` has in its queue. -/
structure State where
  net : Ip.net
  ins : Multiset ℕ
  outs : Multiset ℕ
  got : Set ℕ

inductive Event
  | ipintr (ip : Ip.ip)
  | ip_slowtimo
  | ip_drain

/-- The offsets that the fragments of `κ` have brought: they add up until the datagram is
delivered. -/
def State.gain (κ : Key) (s : State) (ip : Ip.ip) : Set ℕ :=
  if ip.key ≠ κ then s.got
  else if (ours ip s.net).2.isSome then ∅
  else if s.net.takes ip then s.got ∪ ip.range
  else s.got

/-- Without its queue the datagram has nothing. -/
def State.keep (κ : Key) (s : State) (n : Ip.net) : Set ℕ :=
  if ∃ fp ∈ n.ipq, fp.key = κ then s.got else ∅

def Step (κ : Key) (s : State) : Event → State → Prop
  | .ipintr ip, s' =>
    s' = ⟨(ours ip s.net).1, s.ins + addrs ip.m, s.outs + passed (ours ip s.net).2, s.gain κ ip⟩
  | .ip_slowtimo, s' =>
    s' = { s with net := ip_slowtimo s.net, got := s.keep κ (ip_slowtimo s.net) }
  | .ip_drain, s' => s' = { s with net := ip_drain s.net, got := ∅ }

/-- Packets with the key `κ` carry the data `D`; the others are arbitrary. -/
def Legal (κ : Key) (D : List UInt8) (_ : State) : Event → Prop
  | .ipintr ip => ip.key = κ → ∃ p, Carries D ip p
  | _ => True

/-- The datagram is delivered when it is complete, as it was sent, and then its queue is
gone; and each mbuf that came is waiting, delivered or freed. -/
structure Reassembles (κ : Key) (D : List UInt8) (n0 : net) (s : State) : Prop where
  mbufs : s.net.all + s.outs = n0.all + s.ins
  delivered : ∀ ip p, ip.key = κ → Carries D ip p →
    ((ours ip s.net).2.isSome ↔ s.net.takes ip ∧ s.got ∪ ip.range = Set.Ico 0 D.length)
  datagram : ∀ ip p, ip.key = κ → Carries D ip p → ∀ d ∈ (ours ip s.net).2,
    d.payload = D ∧ d.ip_len = D.length ∧ ∀ fp ∈ (ours ip s.net).1.ipq, fp.key ≠ κ
  key : ∀ ip, ∀ d ∈ (ours ip s.net).2, d.key = ip.key

structure Inv (κ : Key) (D : List UInt8) (n0 : net) (s : State) : Prop where
  mbufs : s.net.all + s.outs = n0.all + s.ins
  keys : (s.net.ipq.map ipq.key).Nodup
  owns : ∀ fp ∈ s.net.ipq, fp.Owns
  held : ∀ fp ∈ s.net.ipq, fp.key = κ → Holding κ D s.got fp
  empty : (∀ fp ∈ s.net.ipq, fp.key ≠ κ) → s.got = ∅

variable {n0 : net} {s s' : State} {e : Event}

theorem Inv.got_subset (h : Inv κ D n0 s) : s.got ⊆ Set.Ico 0 D.length := by
  by_cases hq : ∃ fp ∈ s.net.ipq, fp.key = κ
  · obtain ⟨fp, hfp, hk⟩ := hq
    obtain ⟨-, ⟨Q, hQ, hcover⟩, -⟩ := h.held fp hfp hk
    rw [← hcover]
    rintro u ⟨c, hc, -, hu⟩
    exact ⟨Nat.zero_le u, lt_of_lt_of_le hu (hQ.parts c hc).1.fin_le⟩
  · rw [h.empty fun fp hfp hk => hq ⟨fp, hfp, hk⟩]
    exact Set.empty_subset _

theorem Inv.verdict (h : Inv κ D n0 s) (hD : D.length ≤ 32767) (hk : ip.key = κ)
    (hip : Carries D ip p) (hout : Outcome s.net ip o d) :
    Verdict ip.key D s.net ip s.got o d := by
  subst hk
  exact Ip.verdict hip hD h.held h.empty h.got_subset hout

/-- A packet keeps the invariant. -/
theorem Inv.ipintr (h : Inv κ D n0 s) (hD : D.length ≤ 32767)
    (hip : ip.key = κ → ∃ p, Carries D ip p) :
    Inv κ D n0 ⟨(ours ip s.net).1, s.ins + addrs ip.m, s.outs + passed (ours ip s.net).2,
      s.gain κ ip⟩ := by
  obtain ⟨o, hrepl, hout⟩ := ours_outcome ip h.keys
  obtain ⟨ho, -⟩ := hout.keys h.owns
  refine ⟨?_, hrepl.keys, ?_, ?_, ?_⟩
  · calc (ours ip s.net).1.all + (s.outs + passed (ours ip s.net).2)
        = (ours ip s.net).1.all + passed (ours ip s.net).2 + s.outs := by abel
      _ = s.net.all + s.outs + addrs ip.m := by
        rw [ours_addrs]
        abel
      _ = n0.all + (s.ins + addrs ip.m) := by rw [h.mbufs, add_assoc]
  · intro fp hfp
    rcases (hrepl.mem fp).mp hfp with hmem | hmem
    · exact (ho fp hmem).2
    · exact h.owns fp hmem.1
  · intro fp hfp hk
    show Holding κ D (s.gain κ ip) fp
    by_cases hkey : ip.key = κ
    · obtain ⟨p, hp⟩ := hip hkey
      have hv := h.verdict hD hkey hp hout
      rcases (hrepl.mem fp).mp hfp with hmem | ⟨-, hne⟩
      · have htakes : s.net.takes ip := by
          by_contra hnot
          rw [hv.refused hnot] at hmem
          cases hmem
        cases hd : (ours ip s.net).2 with
        | some d =>
          rw [(hv.datagram d hd).2.2] at hmem
          cases hmem
        | none =>
          obtain ⟨fp', hfp', hhold⟩ := hv.held hd htakes
          rw [hfp'] at hmem
          cases hmem
          rw [State.gain, if_neg (not_not.mpr hkey), hd, if_neg (by simp), if_pos htakes, ← hkey]
          exact hhold
      · exact absurd (hk.trans hkey.symm) hne
    · rw [State.gain, if_pos hkey]
      rcases (hrepl.mem fp).mp hfp with hmem | hmem
      · exact absurd ((ho fp hmem).1.symm.trans hk) hkey
      · exact h.held fp hmem.1 hk
  · intro hother
    show s.gain κ ip = ∅
    by_cases hkey : ip.key = κ
    · obtain ⟨p, hp⟩ := hip hkey
      have hv := h.verdict hD hkey hp hout
      rw [State.gain, if_neg (not_not.mpr hkey)]
      by_cases hd : (ours ip s.net).2.isSome
      · rw [if_pos hd]
      · rw [if_neg hd]
        by_cases htakes : s.net.takes ip
        · rw [Bool.not_eq_true, Option.isSome_eq_false_iff, Option.isNone_iff_eq_none] at hd
          obtain ⟨fp, hfp, hhold⟩ := hv.held hd htakes
          exact absurd (hhold.key.trans hkey) (hother fp ((hrepl.mem fp).mpr (Or.inl hfp)))
        · rw [if_neg htakes]
          refine h.empty fun fp hfp hk => htakes (Or.inr (Or.inl ⟨fp, hfp, hk.trans hkey.symm⟩))
    · rw [State.gain, if_pos hkey]
      exact h.empty fun fp hfp hk =>
        hother fp ((hrepl.mem fp).mpr (Or.inr ⟨hfp, fun heq => hkey (heq.symm.trans hk)⟩)) hk

/-- So does the clock. -/
theorem Inv.ip_slowtimo (h : Inv κ D n0 s) :
    Inv κ D n0 { s with net := ip_slowtimo s.net, got := s.keep κ (ip_slowtimo s.net) } := by
  refine ⟨?_, ip_slowtimo_keys h.keys, ?_, ?_, ?_⟩
  · rw [← h.mbufs, ← ip_slowtimo_addrs s.net]
  · intro fp hfp
    obtain ⟨fp0, hfp0, rfl⟩ := mem_ip_slowtimo hfp
    exact h.owns fp0 hfp0
  · intro fp hfp hk
    show Holding κ D (s.keep κ (Ip.ip_slowtimo s.net)) fp
    rw [State.keep, if_pos ⟨fp, hfp, hk⟩]
    obtain ⟨fp0, hfp0, rfl⟩ := mem_ip_slowtimo hfp
    obtain ⟨hkey, hgathered, hinc⟩ := h.held fp0 hfp0 hk
    exact ⟨hkey, hgathered, hinc⟩
  · intro hother
    refine if_neg ?_
    rintro ⟨fp, hfp, hk⟩
    exact hother fp hfp hk

/-- **Every step keeps the invariant.** -/
theorem step_inv (hD : D.length ≤ 32767) (s : State) (e : Event) (s' : State)
    (h : Inv κ D n0 s) (hstep : Guarded (Legal κ D) (Step κ) s e s') : Inv κ D n0 s' := by
  obtain ⟨hlegal, hstep⟩ := hstep
  cases e with
  | ipintr ip =>
    rw [show s' = _ from hstep]
    exact h.ipintr hD hlegal
  | ip_slowtimo =>
    rw [show s' = _ from hstep]
    exact h.ip_slowtimo
  | ip_drain =>
    rw [show s' = _ from hstep]
    refine ⟨?_, nodup_nil, ?_, ?_, fun _ => rfl⟩
    · rw [← h.mbufs, ← ip_drain_addrs s.net]
    · intro fp hfp
      cases hfp
    · intro fp hfp
      cases hfp

/-- **A datagram is delivered when its fragments cover it**, with the data it was sent
with, in every run; and no mbuf is lost or freed twice. -/
theorem reassembles_of_run (hD : D.length ≤ 32767) (hn0 : n0.ipq = []) {es : List Event}
    (h : Run (Guarded (Legal κ D) (Step κ)) ⟨n0, 0, 0, ∅⟩ es s) : Reassembles κ D n0 s := by
  have hinit : Inv κ D n0 ⟨n0, 0, 0, ∅⟩ := by
    refine ⟨rfl, ?_, ?_, ?_, fun _ => rfl⟩
    · rw [hn0]
      exact nodup_nil
    · simp [hn0]
    · simp [hn0]
  have hinv := Run.invariant (I := Inv κ D n0) (step_inv hD) h hinit
  refine ⟨hinv.mbufs, ?_, ?_, ?_⟩
  · intro ip p hk hip
    obtain ⟨o, -, hout⟩ := ours_outcome ip hinv.keys
    exact (hinv.verdict hD hk hip hout).delivered
  · intro ip p hk hip d hd
    obtain ⟨o, hrepl, hout⟩ := ours_outcome ip hinv.keys
    obtain ⟨hpayload, hlen, ho⟩ := (hinv.verdict hD hk hip hout).datagram d hd
    refine ⟨hpayload, hlen, fun fp hfp => ?_⟩
    rcases (hrepl.mem fp).mp hfp with hmem | hmem
    · rw [ho] at hmem
      cases hmem
    · rw [← hk]
      exact hmem.2
  · intro ip d hd
    obtain ⟨o, -, hout⟩ := ours_outcome ip hinv.keys
    exact (hout.keys hinv.owns).2 d hd

/-! ## A run -/

/-- Twenty bytes. -/
def bytes : List UInt8 := (List.range 20).map UInt8.ofNat

/-- A packet in the mbuf `addr`, its data `dat` at `8 * off`. -/
def packet (addr : ℕ) (off mf : BitVec 16) (dat : List UInt8) : Ip.ip :=
  ⟨5, 20 + dat.length, 7, off ||| mf, 17, 1, 2,
    [⟨addr, 12, 1, [], List.replicate 20 0 ++ dat⟩]⟩

/-- A datagram comes in three fragments, the last first; the others overlap. -/
theorem reassembles_out_of_order :
    ∃ s ip d, Reassembles ⟨7, 1, 2, 17⟩ bytes ⟨[], [], [some 1]⟩ s ∧ (ours ip s.net).2 = some d ∧
      d.payload = bytes ∧ d.ip_len = 20 := by
  have hlast : Carries bytes (packet 10 2 0 (bytes.drop 16)) ⟨16, bytes.drop 16, false⟩ :=
    ⟨rfl, rfl, by decide, ⟨_, _, rfl, by decide⟩, by decide, by decide,
      ⟨bytes.take 16, [], by decide, by decide⟩, by decide⟩
  have hmiddle : Carries bytes (packet 11 1 0x2000 ((bytes.drop 8).take 8))
      ⟨8, (bytes.drop 8).take 8, true⟩ :=
    ⟨rfl, rfl, by decide, ⟨_, _, rfl, by decide⟩, by decide, by decide,
      ⟨bytes.take 8, bytes.drop 16, by decide, by decide⟩, by decide⟩
  have hrun : Run (Guarded (Legal ⟨7, 1, 2, 17⟩ bytes) (Step ⟨7, 1, 2, 17⟩))
      ⟨⟨[], [], [some 1]⟩, 0, 0, ∅⟩ [.ipintr (packet 10 2 0 (bytes.drop 16)),
        .ipintr (packet 11 1 0x2000 ((bytes.drop 8).take 8))] _ :=
    .cons ⟨fun _ => ⟨_, hlast⟩, rfl⟩ (.cons ⟨fun _ => ⟨_, hmiddle⟩, rfl⟩ (.nil _))
  exact ⟨_, packet 12 0 0x2000 (bytes.take 16), _, reassembles_of_run (by decide) rfl hrun, rfl,
    by decide, by decide⟩

end Ip
