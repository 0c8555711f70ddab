/-
# What `ip_reass` hands to the protocols

Any packets arrive, and we follow those with one key beside what they make up.  As long as no piece
of theirs begins at 32768 or later, the datagram is at most 32767 bytes long and the header of its
first fragment is 20 bytes long, it is handed over when it is complete, as it is.  The first
fragment with options is handed over without the first bytes of its header.
-/
import SunOS.Netinet.IpReassFits
import SunOS.Netinet.IpReassRuns

namespace Ip

open List
open Mbuf Segments Reassembly
open Reassembly.Piece (fin off)

variable {κ : Key} {n : Ip.net} {fp : Ip.ipq} {pkt : Packet}

/-! ## The fragments that wait -/

variable {o : Option ipq}

/-- The fragments that wait for the rest of the datagram `κ`. -/
def net.waiting (n : Ip.net) (κ : Key) : List ipasfrag :=
  ((n.ipq.find? fun fp => fp.key = κ).map fun fp => fp.frags).getD []

theorem waiting_of_mem (hkeys : (n.ipq.map ipq.key).Nodup) (hfp : fp ∈ n.ipq) (hk : fp.key = κ) :
    n.waiting κ = fp.frags := by
  rw [net.waiting]
  cases hfind : n.ipq.find? fun fp => fp.key = κ with
  | none => exact absurd (decide_eq_true hk) (List.find?_eq_none.mp hfind fp hfp)
  | some fp' =>
    have hk' : fp'.key = κ := of_decide_eq_true
      (List.find?_some (p := fun fp : ipq => fp.key = κ) hfind)
    have hsame := inj_on_of_nodup_map hkeys (List.mem_of_find?_eq_some hfind) hfp
      (hk'.trans hk.symm)
    rw [hsame]
    rfl

theorem waiting_of_none (h : ∀ fp ∈ n.ipq, fp.key ≠ κ) : n.waiting κ = [] := by
  have hfind : (n.ipq.find? fun fp => fp.key = κ) = none :=
    List.find?_eq_none.mpr fun fp hfp hk => h fp hfp (of_decide_eq_true hk)
  rw [net.waiting, hfind]
  rfl

/-- The fragments of the datagram whose queue has been replaced. -/
theorem waiting_replaced {n' : Ip.net} (h : Replaced n.ipq n'.ipq κ o)
    (ho : ∀ fp ∈ o, fp.key = κ) : n'.waiting κ = (o.map ipq.frags).getD [] := by
  cases o with
  | none =>
    refine waiting_of_none fun fp hfp hk => ?_
    rcases (h.mem fp).mp hfp with hmem | hmem
    · cases hmem
    · exact hmem.2 hk
  | some fp => exact waiting_of_mem h.keys ((h.mem fp).mpr (Or.inl rfl)) (ho fp rfl)

/-- Those of another wait as before. -/
theorem waiting_other {n' : Ip.net} {k : Key} (h : Replaced n.ipq n'.ipq k o)
    (ho : ∀ fp ∈ o, fp.key = k) (hkeys : (n.ipq.map ipq.key).Nodup) (hk : k ≠ κ) :
    n'.waiting κ = n.waiting κ ∧
      ((∃ fp ∈ n'.ipq, fp.key = κ) ↔ ∃ fp ∈ n.ipq, fp.key = κ) := by
  have hsame : ∀ fp, fp ∈ n'.ipq ∧ fp.key = κ ↔ fp ∈ n.ipq ∧ fp.key = κ := by
    intro fp
    rw [h.mem]
    constructor
    · rintro ⟨hmem | hmem, hκ⟩
      · exact absurd ((ho fp hmem).symm.trans hκ) hk
      · exact ⟨hmem.1, hκ⟩
    · rintro ⟨hmem, hκ⟩
      exact ⟨Or.inr ⟨hmem, fun heq => hk (heq.symm.trans hκ)⟩, hκ⟩
  have hex : (∃ fp ∈ n'.ipq, fp.key = κ) ↔ ∃ fp ∈ n.ipq, fp.key = κ := exists_congr hsame
  refine ⟨?_, hex⟩
  by_cases hq : ∃ fp ∈ n.ipq, fp.key = κ
  · obtain ⟨fp, hfp, hκ⟩ := hq
    rw [waiting_of_mem hkeys hfp hκ, waiting_of_mem h.keys ((hsame fp).mpr ⟨hfp, hκ⟩).1 hκ]
  · rw [waiting_of_none fun fp hfp hκ => hq ⟨fp, hfp, hκ⟩,
      waiting_of_none fun fp hfp hκ => hq (hex.mp ⟨fp, hfp, hκ⟩)]

/-! ## Runs -/

/-- The pieces of `κ` beside the queues: what they should be. -/
structure Beside where
  net : Ip.net
  pieces : List Chunk

/-- What may happen. -/
inductive Arrival
  | ipintr (pkt : Packet)
  | ip_slowtimo
  | ip_drain

instance (Q : List Chunk) : Decidable (AllThere Q) := inferInstanceAs (Decidable (_ ∧ _))

/-- There is a queue for the fragment, or an mbuf for one. -/
def Beside.room (s : Beside) : Prop := s.pieces ≠ [] ∨ s.net.supply.head?.join.isSome

instance (s : Beside) : Decidable s.room := inferInstanceAs (Decidable (_ ∨ _))

/-- What should become of a packet of `κ`: the pieces that wait afterwards, and what is handed
over. -/
def Beside.expect (s : Beside) (pkt : Packet) : List Chunk × Option Datagram :=
  if pkt.fragmented then
    if s.room then
      if AllThere (enter pkt.chunk s.pieces) then ([], some (whole (enter pkt.chunk s.pieces)))
      else (enter pkt.chunk s.pieces, none)
    else ([], none)
  else ([], some ⟨pkt.chunk.tag.header, pkt.chunk.dat⟩)

/-- What becomes of it. -/
def Beside.after (κ : Key) (s : Beside) : Arrival → Beside
  | .ipintr pkt =>
    ⟨(ours pkt.toip s.net).1, if pkt.key = κ then (s.expect pkt).1 else s.pieces⟩
  | .ip_slowtimo =>
    ⟨ip_slowtimo s.net, if ∃ fp ∈ (ip_slowtimo s.net).ipq, fp.key = κ then s.pieces else []⟩
  | .ip_drain => ⟨ip_drain s.net, []⟩

def Passes (κ : Key) (s : Beside) (e : Arrival) (s' : Beside) : Prop := s.after κ e = s'

/-- The fields of the fragments that wait are true, and what is handed over is what should be. -/
structure Handed (κ : Key) (s : Beside) (e : Arrival) : Prop where
  fields : List.Forall₂ Fields ((s.after κ e).net.waiting κ) (s.after κ e).pieces
  datagram : ∀ pkt, e = .ipintr pkt → pkt.key = κ →
    Option.Rel datagram.Is (ours pkt.toip s.net).2 (s.expect pkt).2

/-- The pieces begin before 32768, and the datagram that they complete is at most 32767 bytes long
and has no options in its first header. -/
def Plain (κ : Key) (s : Beside) : Arrival → Prop
  | .ipintr pkt => pkt.key = κ → pkt.fragmented → s.room →
    Low pkt.chunk s.pieces ∧ (AllThere (enter pkt.chunk s.pieces) →
      (whole (enter pkt.chunk s.pieces)).payload.length ≤ 32767 ∧
        (whole (enter pkt.chunk s.pieces)).header.length = 20)
  | _ => True

/-- The invariant. -/
structure Beside.Inv (κ : Key) (s : Beside) : Prop where
  keys : (s.net.ipq.map ipq.key).Nodup
  fits : List.Forall₂ Fits (s.net.waiting κ) s.pieces
  queue : (∃ fp ∈ s.net.ipq, fp.key = κ) ↔ s.pieces ≠ []
  incomplete : ¬ AllThere s.pieces

variable {s : Beside}

/-- The fragment that a packet becomes. -/
theorem Packet.holds (pkt : Packet) : Holds pkt.frag pkt.chunk := by
  obtain ⟨m, ms, hm, hlen⟩ := pkt.header
  have hfrag : pkt.frag.m = m.advance (pkt.ip_hl * 4) :: ms := by
    show hideHeader (pkt.ip_hl * 4) pkt.m = _
    rw [hm]
    rfl
  have hhl := pkt.hl
  have hip := pkt.len
  have hshort := pkt.short
  have hall : pkt.ip_hl * 4 ≤ (contents pkt.m).length := by
    rw [hm, contents_cons, length_append]
    lia
  have hheader : pkt.chunk.tag.header.length = pkt.ip_hl * 4 := by
    show ((contents pkt.m).take (pkt.ip_hl * 4)).length = _
    rw [length_take]
    lia
  have hdat : pkt.chunk.dat.length = (contents pkt.m).length - pkt.ip_hl * 4 := length_drop
  refine ⟨?_, ?_, rfl, by lia, hheader.symm, by lia, fun _ => ?_⟩
  · show int16 (pkt.ip_len - (pkt.ip_hl * 4 : ℕ)) = _
    rw [hip, hdat, int16_of_fits (by lia)]
    lia
  · rw [hfrag]
    show m.dat.drop (pkt.ip_hl * 4) ++ contents ms = (contents pkt.m).drop (pkt.ip_hl * 4)
    rw [hm, contents_cons, drop_append_of_le_length hlen]
  · have hfront : (m.advance (pkt.ip_hl * 4)).front =
      (m.dat.take (pkt.ip_hl * 4)).reverse ++ m.front :=
      rfl
    have hreverse : (m.dat.take (pkt.ip_hl * 4)).reverse.length = pkt.ip_hl * 4 := by
      rw [length_reverse, length_take]
      lia
    refine ⟨_, _, hfrag, ?_, ?_⟩
    · rw [hheader, hfront, length_append, hreverse]
      lia
    · rw [hheader, hfront, List.take_left' hreverse, reverse_reverse]
      show (contents pkt.m).take (pkt.ip_hl * 4) = _
      rw [hm, contents_cons, take_append_of_le_length hlen]

theorem Packet.frag_off (pkt : Packet) : pkt.frag.ip_off = int16 pkt.chunk.off := by
  show (pkt.ip_off <<< 3).toInt = int16 ((pkt.ip_off <<< 3).toNat : ℤ)
  rw [BitVec.toInt_eq_toNat_cond, int16]
  split <;> omega

/-- A packet that is no fragment is handed over as it is. -/
theorem Packet.whole_is (pkt : Packet) :
    pkt.toip.datagram.Is ⟨pkt.chunk.tag.header, pkt.chunk.dat⟩ :=
  ⟨(take_append_drop _ _).symm, pkt.holds.hl, pkt.holds.len⟩

/-- The queue of a fragment is what `insert` makes of the fragments that wait. -/
theorem Entered.insert (h : Entered n pkt.toip fp) (hkeys : (n.ipq.map ipq.key).Nodup) :
    ∃ gone, fragOps.insert pkt.frag (n.waiting pkt.key) = some (fp.frags, gone) := by
  rcases h.2 with ⟨hother, hnew⟩ | ⟨fp0, hmem, hk, gone, hins⟩
  · rw [waiting_of_none hother, hnew]
    exact ⟨_, rfl⟩
  · rw [waiting_of_mem hkeys hmem hk]
    exact ⟨gone, hins⟩

/-! ## One packet -/

variable {d : Option datagram}

/-- The fate of a packet of `κ`: `o` is its queue afterwards and `d` is handed over. -/
structure Fate (s : Beside) (pkt : Packet) (o : Option ipq) (d : Option datagram) : Prop where
  handed : List.Forall₂ Fields ((o.map ipq.frags).getD []) (s.expect pkt).1 ∧
    Option.Rel datagram.Is d (s.expect pkt).2 ↔ Plain pkt.key s (.ipintr pkt)
  fits : Plain pkt.key s (.ipintr pkt) →
    List.Forall₂ Fits ((o.map ipq.frags).getD []) (s.expect pkt).1
  queue : Plain pkt.key s (.ipintr pkt) → (o.isSome ↔ (s.expect pkt).1 ≠ [])
  incomplete : ¬ AllThere (s.expect pkt).1

/-- Nothing waits, and what is handed over is right. -/
theorem Fate.done {w : Option Datagram} (hexpect : s.expect pkt = ([], w))
    (hd : Option.Rel datagram.Is d w) (hplain : Plain pkt.key s (.ipintr pkt)) :
    Fate s pkt none d := by
  refine ⟨?_, fun _ => ?_, fun _ => ?_, ?_⟩ <;> rw [hexpect]
  · exact ⟨fun _ => hplain, fun _ => ⟨.nil, hd⟩⟩
  · exact .nil
  · simp
  · rintro ⟨-, c, hc, -⟩
    cases hc

theorem not_allThere_nil : ¬ AllThere [] := by
  rintro ⟨-, c, hc, -⟩
  cases hc

/-- A fragment that comes into its queue. -/
theorem fate_entered {frags gone : List ipasfrag} (hinv : s.Inv pkt.key) (hfrag : pkt.fragmented)
    (hroom : s.room) (hins : fragOps.insert pkt.frag (s.net.waiting pkt.key) = some (frags, gone))
    (hfrags : fp.frags = frags) :
    Fate s pkt (finish fp).1 (finish fp).2.1 := by
  have hexpect : s.expect pkt = if AllThere (enter pkt.chunk s.pieces) then
      ([], some (whole (enter pkt.chunk s.pieces))) else (enter pkt.chunk s.pieces, none) := by
    rw [Beside.expect, if_pos hfrag, if_pos hroom]
  have hplain : Plain pkt.key s (.ipintr pkt) ↔ Low pkt.chunk s.pieces ∧
      (AllThere (enter pkt.chunk s.pieces) →
        (whole (enter pkt.chunk s.pieces)).payload.length ≤ 32767 ∧
          (whole (enter pkt.chunk s.pieces)).header.length = 20) :=
    ⟨fun h => h rfl hfrag hroom, fun h _ _ _ => h⟩
  obtain ⟨hgood, hbad⟩ := insert_fits hinv.fits pkt.holds pkt.frag_off
    (Nat.le_of_lt_succ (pkt.ip_off <<< 3).isLt)
  rw [hins] at hgood hbad
  by_cases hlow : Low pkt.chunk s.pieces
  · have hfits : List.Forall₂ Fits fp.frags (enter pkt.chunk s.pieces) := hfrags ▸ hgood hlow
    by_cases hall : AllThere (enter pkt.chunk s.pieces)
    · obtain ⟨first, rest, hcons, his⟩ := newPacket_is hfits hall fp
      have hcomplete := (complete_fits hfits _).mpr ⟨hall, rfl⟩
      rw [if_pos hall] at hexpect
      have hfin : finish fp = (none, some (newPacket fp first
          (whole (enter pkt.chunk s.pieces)).payload.length (concatenateAll fp.frags).1),
          (concatenateAll fp.frags).2 ++ [fp.addr]) := by
        rw [finish, hcomplete, hcons]
      rw [hfin]
      refine ⟨?_, fun _ => ?_, fun _ => ?_, ?_⟩ <;> rw [hexpect]
      · rw [hplain]
        constructor
        · rintro ⟨-, hd⟩
          cases hd with
          | some hd => exact ⟨hlow, fun _ => his.mp hd⟩
        · exact fun h => ⟨.nil, .some (his.mpr (h.2 hall))⟩
      · exact .nil
      · simp
      · exact not_allThere_nil
    · have hnone : complete fp.frags = none := by
        cases hc : complete fp.frags with
        | none => rfl
        | some n => exact absurd ((complete_fits hfits n).mp hc).1 hall
      rw [if_neg hall] at hexpect
      have hfin : finish fp = (some fp, none, []) := by rw [finish, hnone]
      rw [hfin]
      refine ⟨?_, fun _ => ?_, fun _ => ?_, ?_⟩ <;> rw [hexpect]
      · rw [hplain]
        exact ⟨fun _ => ⟨hlow, fun h => absurd h hall⟩,
          fun _ => ⟨hfits.imp fun _ _ hf => hf.fields, .none⟩⟩
      · exact hfits
      · exact ⟨fun _ => enter_ne_nil _ _, fun _ => rfl⟩
      · exact hall
  · obtain ⟨frags', gone', heq, hwrap⟩ := hbad hlow
    obtain ⟨rfl, rfl⟩ := Prod.mk.inj (Option.some.inj heq)
    have hfin : finish fp = (some fp, none, []) := by rw [finish, hfrags, hwrap.complete]
    have hnot : ¬ Plain pkt.key s (.ipintr pkt) := fun h => hlow (hplain.mp h).1
    rw [hfin]
    refine ⟨⟨fun h => ?_, fun h => absurd h hnot⟩, fun h => absurd h hnot, fun h =>
      absurd h hnot, ?_⟩
    · have hfields : List.Forall₂ Fields fp.frags (s.expect pkt).1 := h.1
      rw [hfrags] at hfields
      exact absurd hfields hwrap.not_fields
    · rw [hexpect]
      split
      · exact not_allThere_nil
      · assumption

/-- A fragment that is dropped. -/
theorem fate_dropped (hinv : s.Inv pkt.key) (hfrag : pkt.fragmented) (hroom : s.room)
    (hins : fragOps.insert pkt.frag (s.net.waiting pkt.key) = none)
    (hfrags : fp.frags = s.net.waiting pkt.key) : Fate s pkt (some fp) none := by
  obtain ⟨hgood, hbad⟩ := insert_fits hinv.fits pkt.holds pkt.frag_off
    (Nat.le_of_lt_succ (pkt.ip_off <<< 3).isLt)
  rw [hins] at hgood hbad
  have hlow : Low pkt.chunk s.pieces := by
    by_contra hlow
    obtain ⟨_, _, h, -⟩ := hbad hlow
    cases h
  have hfits : List.Forall₂ Fits fp.frags (enter pkt.chunk s.pieces) := hfrags ▸ hgood hlow
  -- the queue is the same, so it is as incomplete as it was
  have hall : ¬ AllThere (enter pkt.chunk s.pieces) := by
    intro hall
    have hsome := (complete_fits hfits _).mpr ⟨hall, rfl⟩
    rw [hfrags] at hsome
    exact hinv.incomplete ((complete_fits hinv.fits _).mp hsome).1
  have hexpect : s.expect pkt = (enter pkt.chunk s.pieces, none) := by
    rw [Beside.expect, if_pos hfrag, if_pos hroom, if_neg hall]
  refine ⟨?_, fun _ => ?_, fun _ => ?_, ?_⟩ <;> rw [hexpect]
  · exact ⟨fun _ _ _ _ => ⟨hlow, fun h => absurd h hall⟩,
      fun _ => ⟨hfits.imp fun _ _ hf => hf.fields, .none⟩⟩
  · exact hfits
  · exact ⟨fun _ => enter_ne_nil _ _, fun _ => rfl⟩
  · exact hall

/-- What becomes of a fragment of `κ`. -/
theorem Beside.Inv.fate (hinv : s.Inv pkt.key) (hfrag : pkt.fragmented)
    (hout : Outcome s.net pkt.toip o d) : Fate s pkt o d := by
  have htakes : s.net.takes pkt.toip ↔ s.room := by
    refine ⟨?_, ?_⟩
    · rintro (h | h | h)
      · exact absurd hfrag h
      · exact Or.inl (hinv.queue.mp h)
      · exact Or.inr h
    · rintro (h | h)
      · exact Or.inr (Or.inl (hinv.queue.mpr h))
      · exact Or.inr (Or.inr h)
  cases hout with
  | whole hnot => exact absurd hfrag hnot
  | refused hnot =>
    rw [htakes] at hnot
    refine .done (w := none) ?_ .none fun _ _ h => absurd h hnot
    rw [Beside.expect, if_pos hfrag, if_neg hnot]
  | dropped fp hmem hk hins =>
    have hwait := waiting_of_mem hinv.keys hmem hk
    exact fate_dropped hinv hfrag (Or.inl (hinv.queue.mp ⟨fp, hmem, hk⟩)) (hwait ▸ hins) hwait.symm
  | entered fp ht henter =>
    obtain ⟨gone, hins⟩ := henter.insert hinv.keys
    exact fate_entered hinv hfrag (htakes.mp ht) hins rfl

/-! ## Every run -/

theorem Outcome.queue_key {ip : Ip.ip} (h : Outcome n ip o d) : ∀ fp ∈ o, fp.key = ip.key := by
  intro fp hfp
  cases h with
  | whole _ => cases hfp
  | refused _ => cases hfp
  | dropped fp' _ hk _ =>
    cases hfp
    exact hk
  | entered fp' _ henter =>
    rw [finish_key hfp]
    exact henter.1

theorem Beside.Inv.ipintr (hinv : s.Inv κ) (pkt : Packet) :
    (Handed κ s (.ipintr pkt) ↔ Plain κ s (.ipintr pkt)) ∧
      (Plain κ s (.ipintr pkt) → (s.after κ (.ipintr pkt)).Inv κ) := by
  by_cases hk : pkt.key = κ
  · subst hk
    have hafter : (s.after pkt.key (.ipintr pkt)).pieces = (s.expect pkt).1 := if_pos rfl
    -- the queue afterwards, and its fate
    have hfate : ∃ o, Replaced s.net.ipq (ours pkt.toip s.net).1.ipq pkt.key o ∧
        (∀ fp ∈ o, fp.key = pkt.key) ∧ Fate s pkt o (ours pkt.toip s.net).2 := by
      by_cases hfrag : pkt.fragmented
      · obtain ⟨o, hrepl, hout⟩ := fragmented_outcome hinv.keys hfrag
        exact ⟨o, hrepl, hout.queue_key, hinv.fate hfrag hout⟩
      · rw [(ours_whole hfrag).1]
        refine ⟨none, whole_replaced hinv.keys hfrag, fun fp h => (by cases h), ?_⟩
        refine .done (w := some ⟨pkt.chunk.tag.header, pkt.chunk.dat⟩) ?_ (.some pkt.whole_is)
          fun _ h => absurd h hfrag
        rw [Beside.expect, if_neg hfrag]
    obtain ⟨o, hrepl, ho, hfate⟩ := hfate
    have hwait : (s.after pkt.key (.ipintr pkt)).net.waiting pkt.key =
        (o.map ipq.frags).getD [] := waiting_replaced hrepl ho
    constructor
    · rw [← hfate.handed, ← hwait, ← hafter]
      constructor
      · exact fun h => ⟨h.fields, h.datagram pkt rfl rfl⟩
      · rintro ⟨hfields, hd⟩
        refine ⟨hfields, fun pkt' heq _ => ?_⟩
        cases heq
        exact hd
    · intro hplain
      refine ⟨hrepl.keys, ?_, ?_, ?_⟩
      · rw [hwait, hafter]
        exact hfate.fits hplain
      · rw [hafter, ← hfate.queue hplain]
        constructor
        · rintro ⟨fp, hfp, hk⟩
          rcases (hrepl.mem fp).mp hfp with hmem | hmem
          · exact Option.isSome_iff_exists.mpr ⟨fp, hmem⟩
          · exact absurd hk hmem.2
        · intro hsome
          obtain ⟨fp, hfp⟩ := Option.isSome_iff_exists.mp hsome
          exact ⟨fp, (hrepl.mem fp).mpr (Or.inl hfp), ho fp hfp⟩
      · rw [hafter]
        exact hfate.incomplete
  · -- a packet of another datagram
    obtain ⟨o, hrepl, hout⟩ := ours_outcome pkt.toip hinv.keys
    have hafter : (s.after κ (.ipintr pkt)).pieces = s.pieces := if_neg hk
    obtain ⟨hwait, hex⟩ := waiting_other hrepl hout.queue_key hinv.keys hk
    have hfits : List.Forall₂ Fits ((s.after κ (.ipintr pkt)).net.waiting κ)
        (s.after κ (.ipintr pkt)).pieces := by
      rw [hafter]
      exact hwait.symm ▸ hinv.fits
    refine ⟨⟨fun _ h => absurd h hk, fun _ => ⟨hfits.imp fun _ _ hf => hf.fields, ?_⟩⟩, fun _ =>
      ⟨hrepl.keys, hfits, ?_, ?_⟩⟩
    · rintro pkt' heq hk'
      cases heq
      exact absurd hk' hk
    · rw [hafter]
      exact hex.trans hinv.queue
    · rw [hafter]
      exact hinv.incomplete

theorem Beside.Inv.ip_slowtimo (hinv : s.Inv κ) :
    (Handed κ s .ip_slowtimo ↔ Plain κ s .ip_slowtimo) ∧ (s.after κ .ip_slowtimo).Inv κ := by
  have hkeys := ip_slowtimo_keys hinv.keys
  by_cases hq : ∃ fp ∈ (Ip.ip_slowtimo s.net).ipq, fp.key = κ
  · have hafter : (s.after κ .ip_slowtimo).pieces = s.pieces := if_pos hq
    obtain ⟨fp, hfp, hk⟩ := hq
    obtain ⟨fp0, hfp0, rfl⟩ := mem_ip_slowtimo hfp
    have hwait : (s.after κ .ip_slowtimo).net.waiting κ = s.net.waiting κ := by
      have hwait := waiting_of_mem hkeys hfp hk
      rw [waiting_of_mem hinv.keys hfp0 hk]
      exact hwait
    have hfits := hinv.fits
    rw [← hwait, ← hafter] at hfits
    refine ⟨⟨fun _ => trivial, fun _ =>
      ⟨hfits.imp fun _ _ hf => hf.fields, fun _ h => (by cases h)⟩⟩,
      hkeys, hfits, ?_, ?_⟩
    · rw [hafter]
      exact ⟨fun _ => hinv.queue.mp ⟨fp0, hfp0, hk⟩, fun _ => ⟨_, hfp, hk⟩⟩
    · rw [hafter]
      exact hinv.incomplete
  · have hafter : (s.after κ .ip_slowtimo).pieces = [] := if_neg hq
    have hfits : List.Forall₂ Fits ((s.after κ .ip_slowtimo).net.waiting κ)
        (s.after κ .ip_slowtimo).pieces := by
      have hwait : (Ip.ip_slowtimo s.net).waiting κ = [] :=
        waiting_of_none fun fp hfp hk => hq ⟨fp, hfp, hk⟩
      rw [hafter]
      exact hwait.symm ▸ .nil
    refine ⟨⟨fun _ => trivial, fun _ =>
      ⟨hfits.imp fun _ _ hf => hf.fields, fun _ h => (by cases h)⟩⟩,
      hkeys, hfits, ?_, ?_⟩
    · rw [hafter]
      exact ⟨fun h => absurd h hq, fun h => absurd rfl h⟩
    · rw [hafter]
      exact not_allThere_nil

theorem Beside.Inv.empty {n : Ip.net} (h : n.ipq = []) : Beside.Inv κ ⟨n, []⟩ := by
  have hnone : ∀ fp ∈ n.ipq, fp.key ≠ κ := by simp [h]
  refine ⟨by simp [h], ?_, ?_, not_allThere_nil⟩
  · rw [waiting_of_none hnone]
    exact .nil
  · exact ⟨fun ⟨fp, hfp, hk⟩ => absurd hk (hnone fp hfp), fun h => absurd rfl h⟩

/-- What happens is right exactly if it is plain, and the invariant is kept then. -/
theorem Beside.Inv.step (hinv : s.Inv κ) (e : Arrival) :
    (Handed κ s e ↔ Plain κ s e) ∧ (Plain κ s e → (s.after κ e).Inv κ) := by
  cases e with
  | ipintr pkt => exact hinv.ipintr pkt
  | ip_slowtimo => exact ⟨hinv.ip_slowtimo.1, fun _ => hinv.ip_slowtimo.2⟩
  | ip_drain =>
    have hempty : (s.after κ .ip_drain).Inv κ := .empty rfl
    exact ⟨⟨fun _ => trivial, fun _ => ⟨hempty.fits.imp fun _ _ hf => hf.fields,
      fun _ h => (by cases h)⟩⟩, fun _ => hempty⟩

/-- **Every run hands over what it should exactly if all that happens in it is plain**, for any
fragments of any datagram among any packets. -/
theorem handed_iff_plain (κ : Key) (freed : List ℕ) (supply : List (Option ℕ)) (es : List Arrival)
    (s : Beside) :
    Run (Guarded (Handed κ) (Passes κ)) ⟨⟨[], freed, supply⟩, []⟩ es s ↔
      Run (Guarded (Plain κ) (Passes κ)) ⟨⟨[], freed, supply⟩, []⟩ es s := by
  refine Run.guarded_congr (I := Beside.Inv κ) (fun s e hs => (hs.step e).1) ?_ (.empty rfl)
  rintro s e _ hs hplain rfl
  exact (hs.step e).2 hplain

/-! ## A header with options -/

theorem optioned_hl : 5 ≤ 6 := by decide

theorem optioned_header (addr : ℕ) (dat : List UInt8) : ∃ n ns,
    ([⟨addr, 12, 1, [], List.replicate 20 0 ++ [1, 2, 3, 4] ++ dat⟩] : List mbuf) = n :: ns ∧
      6 * 4 ≤ n.dat.length := ⟨_, _, rfl, by simp⟩

theorem optioned_len (addr : ℕ) (dat : List UInt8) : (24 + dat.length : ℤ) =
    (contents [⟨addr, 12, 1, [], List.replicate 20 0 ++ [1, 2, 3, 4] ++ dat⟩]).length := by
  simp [contents]
  omega

theorem optioned_short {dat : List UInt8} (h : dat.length ≤ 100) :
    (24 + dat.length : ℤ) ≤ 32767 := by
  omega

/-- A packet with one word of options, in the mbuf `addr`, its data `dat` at `8 * off`. -/
def optioned (addr : ℕ) (off mf : BitVec 16) (dat : List UInt8) (h : dat.length ≤ 100) :
    Packet where
  ip_hl := 6
  ip_len := 24 + dat.length
  ip_id := 7
  ip_off := off ||| mf
  ip_p := 17
  ip_src := 1
  ip_dst := 2
  m := [⟨addr, 12, 1, [], List.replicate 20 0 ++ [1, 2, 3, 4] ++ dat⟩]
  hl := optioned_hl
  header := optioned_header addr dat
  len := optioned_len addr dat
  short := optioned_short h

/-- Of a header of 24 bytes the last 20 are handed over. -/
theorem not_handed_options :
    ∃ s, Run (Guarded (Plain ⟨7, 1, 2, 17⟩) (Passes ⟨7, 1, 2, 17⟩)) ⟨⟨[], [], [some 1]⟩, []⟩
        [.ipintr (optioned 10 0 0x2000 (bytes.take 8) (by decide))] s ∧
      ¬ Handed ⟨7, 1, 2, 17⟩ s (.ipintr (optioned 11 1 0 (bytes.drop 8) (by decide))) := by
  refine ⟨_, .cons ⟨?_, rfl⟩ (.nil _), fun h => ?_⟩
  · intro _ _ _
    exact ⟨by decide, fun h => absurd h (by decide)⟩
  · have hd := h.datagram _ rfl rfl
    generalize hw : (Beside.expect _ _).2 = w at hd
    generalize ho : (ours _ _).2 = o at hd
    cases hd with
    | none => exact absurd ho (by decide)
    | some his =>
      cases hw
      cases ho
      exact absurd his.bytes (by decide)

end Ip
