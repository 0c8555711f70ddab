/-
# Moving a header

A header goes from the free list into a sender's hands, from there onto a queue or back,
and from a queue to the free list.  Each move keeps the free list, the queues and the
blocks what they are said to be.
-/
import SunOS.Ipc.MsgInv
import Mathlib.Data.Finset.Card
import Mathlib.Order.Interval.Finset.Nat

namespace IpcMsg

open List (append_assoc concat_eq_append eq_nil_or_concat getLastD_concat mem_append mem_cons
  mem_singleton nodup_cons range nodup_middle)
open Function (update update_idem update_of_ne update_self)
open Ipc

variable {mi : msginfo} {s t : State} {g : Ghost} {p q qp h : ℕ} {m' : Rmap.map} {b : ℤ × ℤ}

/-! ## What the invariant says of one header -/

variable {w : Owner}

section

variable (hc : Core mi s g)
include hc

theorem Core.not_mem_que (hw : g.own h = some w) (hne : w ≠ .que qp) : h ∉ g.que qp := by
  intro hm
  rw [hc.que_own, hw] at hm
  exact hne (Option.some.inj hm)

theorem Core.not_mem_free (hw : g.own h = some w) (hne : w ≠ .free) : h ∉ g.free := by
  intro hm
  rw [hc.free_own, hw] at hm
  exact hne (Option.some.inj hm)

theorem Core.ne_zero (hw : g.own h = some w) : h ≠ 0 := by
  have := (hc.own h).mp (by rw [hw]; exact Option.some_ne_none w)
  omega

theorem Core.inRange (hw : g.own h = some w) :
    1 ≤ h ∧ h ≤ mi.msgtql := (hc.own h).mp (by rw [hw]; exact Option.some_ne_none w)

/-- Different headers bound the length of a list of them. -/
theorem Core.length_le {l : List ℕ} (hn : l.Nodup)
    (hl : ∀ h ∈ l, ∃ w, g.own h = some w) : l.length ≤ mi.msgtql := by
  have hsub : l.toFinset ⊆ Finset.Icc 1 mi.msgtql := by
    intro h hh
    obtain ⟨w, hw⟩ := hl h (List.mem_toFinset.mp hh)
    exact Finset.mem_Icc.mpr (hc.inRange hw)
  have hcard := Finset.card_le_card hsub
  rw [List.toFinset_card_of_nodup hn, Nat.card_Icc] at hcard
  omega

/-- The last of a queue, when there is one. -/
theorem Core.last_eq_zero : (s.msgque qp).msg_last = 0 ↔ g.que qp = [] := by
  rw [hc.last]
  constructor
  · intro h0
    rcases eq_nil_or_concat (g.que qp) with hnil | ⟨l, x, hx⟩
    · exact hnil
    · rw [hx, concat_eq_append, getLastD_concat] at h0
      have hm : x ∈ g.que qp := by
        rw [hx, concat_eq_append]
        simp
      exact absurd h0 (hc.ne_zero ((hc.que_own qp x).mp hm))
  · intro hnil
    rw [hnil]
    rfl

end

/-! ## Into the hands of a sender -/

/-- Header `h` goes off the free list into the hands of `p`, with block `b`. -/
def Ghost.pop (g : Ghost) (p h : ℕ) (b : ℤ × ℤ) : Ghost :=
  { g with
    free := g.free.tail
    own := update g.own h (some (.hand p))
    blk := update g.blk h b }

theorem Core.free_cons (hc : Core mi s g) (hne : s.msgfp ≠ 0) :
    ∃ tl, g.free = s.msgfp :: tl ∧ s.msgfp ∉ tl ∧ Chain s.next (s.next s.msgfp) tl := by
  have hch := hc.free
  have hnd := hc.free_nodup
  cases hf : g.free with
  | nil =>
    rw [hf] at hch
    exact absurd hch hne
  | cons x tl =>
    rw [hf] at hch hnd
    obtain ⟨rfl, -, hch⟩ := hch
    exact ⟨tl, rfl, (nodup_cons.mp hnd).1, hch⟩

theorem Core.pop (hc : Core mi s g) (hne : s.msgfp ≠ 0) (m' : Rmap.map)
    (hsh : Shared mi m' (update g.blk s.msgfp b)) :
    Core mi { s with msgmap := m', msgfp := s.next s.msgfp } (g.pop p s.msgfp b) := by
  obtain ⟨tl, hf, hnm, hch⟩ := hc.free_cons hne
  have hown : g.own s.msgfp = some .free := (hc.free_own _).mp (by rw [hf]; simp)
  have hoff : ∀ qp, ∀ k ∈ g.que qp, k ≠ s.msgfp := by
    rintro qp k hk rfl
    exact hc.not_mem_que hown (by simp) hk
  have htail : (g.pop p s.msgfp b).free = tl := by
    show g.free.tail = tl
    rw [hf]
    rfl
  refine ⟨fun k => ?_, fun k => ?_, fun r k => ?_, ?_, hc.que_nodup, ?_, hc.first, hc.last, hsh,
    fun k hk => ?_, fun r k hk => ?_, hc.item, hc.qnum, hc.dead⟩
  · show update g.own s.msgfp _ k ≠ none ↔ _
    by_cases hk : k = s.msgfp
    · subst hk
      rw [update_self]
      simp only [ne_eq, reduceCtorEq, not_false_eq_true, true_iff]
      exact hc.inRange hown
    · rw [update_of_ne hk]
      exact hc.own k
  · show _ ↔ update g.own s.msgfp _ k = _
    rw [htail]
    by_cases hk : k = s.msgfp
    · subst hk
      rw [update_self]
      simp [hnm]
    · rw [update_of_ne hk, ← hc.free_own, hf, mem_cons]
      simp [hk]
  · show _ ↔ update g.own s.msgfp _ k = _
    by_cases hk : k = s.msgfp
    · subst hk
      rw [update_self]
      simp only [reduceCtorEq, Option.some.injEq, iff_false]
      exact fun hm => hoff r s.msgfp hm rfl
    · rw [update_of_ne hk]
      exact hc.que_own r k
  · rw [htail]
    have hnd := hc.free_nodup
    rw [hf] at hnd
    exact (nodup_cons.mp hnd).2
  · rw [htail]
    exact hch
  · change update g.own s.msgfp _ k = _ at hk
    show update g.blk s.msgfp _ k = _
    by_cases hkp : k = s.msgfp
    · subst hkp
      rw [update_self] at hk
      cases hk
    · rw [update_of_ne hkp] at hk ⊢
      exact hc.idle k hk
  · show update g.blk s.msgfp _ k = _
    rw [update_of_ne (hoff r k hk)]
    exact hc.queued r k hk

/-! ## Onto a queue -/

/-- `putmsg` up to where it wakes the receivers. -/
def linked (a : sndargs) (qp : ℕ) (type : ℤ) (mp spot : ℕ) (s : State) : State :=
  let ds := s.msgque qp
  { s with
    next :=
      if ds.msg_last = 0 then update s.next mp 0
      else update (update s.next mp 0) ds.msg_last mp
    msgh := update s.msgh mp ⟨type, ushort a.msgsz, if a.msgsz ≠ 0 then spot else 65535⟩
    msgque := update s.msgque qp { ds with
      msg_first := if ds.msg_last = 0 then mp else ds.msg_first
      msg_last := mp
      msg_qnum := ushort (ds.msg_qnum + 1)
      msg_cbytes := ushort (ds.msg_cbytes + a.msgsz)
      msg_lspid := a.pid } }

theorem putmsg_eq (p : ℕ) (a : sndargs) (qp : ℕ) (type : ℤ) (mp spot : ℕ) (bytes : List ℕ)
    (s : State) : putmsg p a qp type mp spot bytes s =
      ret p (.sent qp type bytes)
        ((linked a qp type mp spot s).wakewait qp MSG_RWAIT (.qnum qp)) := by
  unfold putmsg
  simp only
  congr 2
  unfold linked State.setque
  by_cases h0 : (s.msgque qp).msg_last = 0
  · simp only [update_self, h0, if_true, update_idem]
  · simp only [update_self, h0, if_false, update_idem]

/-- Header `h` goes on queue `qp` and carries message `i`. -/
def Ghost.put (g : Ghost) (qp h : ℕ) (i : Item) : Ghost :=
  { g with
    que := update g.que qp (g.que qp ++ [h])
    own := update g.own h (some (.que qp))
    item := update g.item h i }

/-- Every byte of a text lies in a unit of its block. -/
theorem unit_mem (mi : msginfo) (spot : ℕ) {n i : ℕ} (hi : i < n) :
    (((mi.msgssz * spot + i) / mi.msgssz : ℕ) : ℤ) + 1 ∈ units (block mi spot n) := by
  have hpos := mi.msgssz_pos
  unfold block
  rw [if_neg (by omega), Nat.mul_add_div hpos]
  have hlt : i / mi.msgssz < btoq mi n := by
    unfold btoq
    rw [Nat.div_lt_iff_lt_mul hpos]
    have h1 := Nat.div_add_mod (n + mi.msgssz - 1) mi.msgssz
    have h2 := Nat.mod_lt (n + mi.msgssz - 1) hpos
    rw [Nat.mul_comm]
    omega
  generalize i / mi.msgssz = k at hlt
  constructor
  · show (spot : ℤ) + 1 ≤ _
    omega
  · show _ < (spot : ℤ) + 1 + btoq mi n
    omega

/-- A text copied in does not touch the text of another block. -/
theorem fill_apart {spot n spot' n' i : ℕ} {text mtext : ℕ → ℕ} (hi : i < n)
    (hd : Disjoint (units (block mi spot n)) (units (block mi spot' n'))) :
    fill text (mi.msgssz * spot') n' mtext (mi.msgssz * spot + i) =
      text (mi.msgssz * spot + i) := by
  unfold fill
  by_cases hin : mi.msgssz * spot' ≤ mi.msgssz * spot + i ∧
      mi.msgssz * spot + i < mi.msgssz * spot' + n'
  · have h1 := unit_mem mi spot hi
    have h2 := unit_mem mi spot'
      (show mi.msgssz * spot + i - mi.msgssz * spot' < n' by omega)
    rw [Nat.add_sub_cancel' hin.1] at h2
    exact absurd h2 (Set.disjoint_left.mp hd h1)
  · rw [if_neg hin]

theorem fill_self {text mtext : ℕ → ℕ} {pos n i : ℕ} (hi : i < n) :
    fill text pos n mtext (pos + i) = mtext i := by
  unfold fill
  rw [if_pos (by omega), Nat.add_sub_cancel_left]

section Put

variable {a : sndargs} {type : ℤ} {mp spot n : ℕ} {mtext : ℕ → ℕ}

/-- The links that a message put on a queue leaves alone. -/
theorem linked_next (hc : Core mi s g) {k : ℕ} (hk : k ≠ mp) (hq : k ∉ g.que qp) :
    (linked a qp type mp spot s).next k = s.next k := by
  unfold linked
  by_cases h0 : (s.msgque qp).msg_last = 0
  · simp only [h0, if_true]
    rw [update_of_ne hk]
  · simp only [h0, if_false]
    have hlast : k ≠ (s.msgque qp).msg_last := by
      rintro rfl
      rcases eq_nil_or_concat (g.que qp) with hnil | ⟨l, x, hx⟩
      · exact h0 (hc.last_eq_zero.mpr hnil)
      · rw [hc.last, hx, concat_eq_append, getLastD_concat] at hq
        simp at hq
    rw [update_of_ne hlast, update_of_ne hk]

/-- The chain of the queue that a message is put on. -/
theorem linked_first (hc : Core mi s g) (hm : mp ∉ g.que qp) (hmp : mp ≠ 0) :
    Chain (linked a qp type mp spot s).next
      ((linked a qp type mp spot s).msgque qp).msg_first (g.que qp ++ [mp]) := by
  have hfirst := hc.first qp
  unfold linked
  simp only [update_self]
  rcases eq_nil_or_concat (g.que qp) with hnil | ⟨l, x, hx⟩
  · rw [if_pos (hc.last_eq_zero.mpr hnil), if_pos (hc.last_eq_zero.mpr hnil), hnil]
    exact ⟨rfl, hmp, by rw [update_self]; rfl⟩
  · rw [concat_eq_append] at hx
    have hlast : (s.msgque qp).msg_last = x := by
      rw [hc.last, hx, getLastD_concat]
    have hne : (s.msgque qp).msg_last ≠ 0 := fun h0 => by
      have := hc.last_eq_zero.mp h0
      rw [hx] at this
      simp at this
    have hnd := hc.que_nodup qp
    rw [if_neg hne, if_neg hne, hlast]
    rw [hx] at hfirst hm hnd ⊢
    rw [mem_append, not_or, mem_singleton] at hm
    have hxl : x ∉ l := fun hin => by
      rw [List.nodup_append] at hnd
      exact hnd.2.2 x hin x (by simp) rfl
    rw [append_assoc, Function.update_comm hm.2]
    exact hfirst.snoc hxl hmp hm.1 (Ne.symm hm.2)

theorem Core.put (hc : Core mi s g) (hlt : mi.msgtql < 65536) (hown : g.own mp = some (.hand p))
    (hsz : 0 ≤ a.msgsz ∧ a.msgsz < 65536) (hn : n = a.msgsz.toNat)
    (hblk : g.blk mp = block mi spot n) (halloc : (s.msgque qp).msg_perm.alloc = true) (no : ℕ)
    (type : ℤ) (mtext : ℕ → ℕ) :
    Core mi (linked a qp type mp spot { s with text := fill s.text (mi.msgssz * spot) n mtext })
      (g.put qp mp ⟨no, type, (range n).map mtext⟩) := by
  have hq : ∀ r, mp ∉ g.que r := fun r => hc.not_mem_que hown (by simp)
  have hmp := hc.ne_zero hown
  have hlen : (g.que qp).length + 1 ≤ mi.msgtql := by
    have := hc.length_le (l := mp :: g.que qp) (nodup_cons.mpr ⟨hq qp, hc.que_nodup qp⟩) (by
      intro k hk
      rcases List.mem_cons.mp hk with rfl | hk
      · exact ⟨_, hown⟩
      · exact ⟨_, (hc.que_own qp k).mp hk⟩)
    exact this
  have hc' : Core mi { s with text := fill s.text (mi.msgssz * spot) n mtext } g := by
    refine ⟨hc.own, hc.free_own, hc.que_own, hc.free_nodup, hc.que_nodup, hc.free, hc.first,
      hc.last, hc.shared, hc.idle, hc.queued, fun r k hk => ⟨(hc.item r k hk).1, ?_⟩, hc.qnum,
      hc.dead⟩
    rw [(hc.item r k hk).2]
    refine List.map_congr_left fun i hi => (fill_apart (List.mem_range.mp hi) ?_).symm
    rw [← hc.queued r k hk, ← hblk]
    exact hc.shared.apart k mp (fun heq => hq r (heq ▸ hk))
  generalize hs' : ({ s with text := fill s.text (mi.msgssz * spot) n mtext } : State) = s' at *
  have halloc' : (s'.msgque qp).msg_perm.alloc = true := by
    rw [← hs']
    exact halloc
  have htext : ∀ i, i < n → s'.text (mi.msgssz * spot + i) = mtext i := by
    intro i hi
    rw [← hs']
    exact fill_self hi
  clear hs' hc
  refine ⟨fun k => ?_, fun k => ?_, fun r k => ?_, hc'.free_nodup, fun r => ?_, ?_, fun r => ?_,
    fun r => ?_, hc'.shared, fun k hk => ?_, fun r k hk => ?_, fun r k hk => ?_, fun r => ?_,
    fun r hr => ?_⟩
  · show update g.own mp _ k ≠ none ↔ _
    by_cases hk : k = mp
    · subst hk
      rw [update_self]
      simp only [ne_eq, reduceCtorEq, not_false_eq_true, true_iff]
      exact hc'.inRange hown
    · rw [update_of_ne hk]
      exact hc'.own k
  · show k ∈ g.free ↔ update g.own mp _ k = _
    by_cases hk : k = mp
    · subst hk
      rw [update_self]
      simpa using hc'.not_mem_free hown (by simp)
    · rw [update_of_ne hk]
      exact hc'.free_own k
  · show k ∈ update g.que qp _ r ↔ update g.own mp _ k = _
    by_cases hr : r = qp
    · subst hr
      rw [update_self, mem_append, mem_singleton, hc'.que_own]
      by_cases hk : k = mp
      · subst hk
        rw [update_self]
        simp
      · rw [update_of_ne hk]
        simp [hk]
    · rw [update_of_ne hr, hc'.que_own]
      by_cases hk : k = mp
      · subst hk
        rw [update_self, hown]
        simp [Ne.symm hr]
      · rw [update_of_ne hk]
  · show (update g.que qp _ r).Nodup
    by_cases hr : r = qp
    · subst hr
      rw [update_self]
      refine List.nodup_append.mpr ⟨hc'.que_nodup r, by simp, ?_⟩
      intro x hx y hy
      obtain rfl := List.mem_singleton.mp hy
      exact fun heq => hq r (heq ▸ hx)
    · rw [update_of_ne hr]
      exact hc'.que_nodup r
  · refine Chain.congr hc'.free fun k hk => linked_next hc' ?_ ?_
    · rintro rfl
      exact hc'.not_mem_free hown (by simp) hk
    · exact hc'.not_mem_que ((hc'.free_own k).mp hk) (by simp)
  · show Chain _ _ (update g.que qp _ r)
    by_cases hr : r = qp
    · subst hr
      rw [update_self]
      exact linked_first hc' (hq r) hmp
    · rw [update_of_ne hr]
      have hfirst : ((linked a qp type mp spot s').msgque r).msg_first =
        (s'.msgque r).msg_first := by
        show (update s'.msgque qp _ r).msg_first = _
        rw [update_of_ne hr]
      rw [hfirst]
      refine Chain.congr (hc'.first r) fun k hk => linked_next hc' ?_ ?_
      · rintro rfl
        exact hq r hk
      · exact hc'.not_mem_que ((hc'.que_own r k).mp hk) (by simpa using hr)
  · show (update s'.msgque qp _ r).msg_last = (update g.que qp _ r).getLastD 0
    by_cases hr : r = qp
    · subst hr
      rw [update_self, update_self, getLastD_concat]
    · rw [update_of_ne hr, update_of_ne hr]
      exact hc'.last r
  · change update g.own mp _ k = _ at hk
    by_cases hkp : k = mp
    · subst hkp
      simp at hk
    · rw [update_of_ne hkp] at hk
      exact hc'.idle k hk
  · change k ∈ update g.que qp _ r at hk
    show g.blk k = block mi (update s'.msgh mp _ k).msg_spot
      (update s'.msgh mp _ k).msg_ts
    by_cases hkp : k = mp
    · subst hkp
      rw [update_self, hblk]
      show block mi spot n = block mi (if a.msgsz ≠ 0 then spot else 65535) (ushort a.msgsz)
      have hu : ushort a.msgsz = n := by
        unfold ushort
        lia
      rw [hu]
      by_cases h0 : a.msgsz = 0
      · have hn0 : n = 0 := by lia
        rw [hn0]
        rfl
      · rw [if_pos h0]
    · rw [update_of_ne hkp]
      by_cases hr : r = qp
      · subst hr
        rw [update_self, mem_append, mem_singleton] at hk
        exact hc'.queued r k (hk.resolve_right hkp)
      · rw [update_of_ne hr] at hk
        exact hc'.queued r k hk
  · change k ∈ update g.que qp _ r at hk
    show (update g.item mp _ k).type = (update s'.msgh mp _ k).msg_type ∧
      (update g.item mp _ k).bytes = (range (update s'.msgh mp _ k).msg_ts).map
        fun i => s'.text (mi.msgssz * (update s'.msgh mp _ k).msg_spot + i)
    by_cases hkp : k = mp
    · subst hkp
      rw [update_self, update_self]
      refine ⟨rfl, ?_⟩
      have hu : ushort a.msgsz = n := by
        unfold ushort
        lia
      rw [hu]
      refine List.map_congr_left fun i hi => ?_
      have hi := List.mem_range.mp hi
      rw [if_pos (by lia)]
      exact (htext i hi).symm
    · simp only [update_of_ne hkp]
      by_cases hr : r = qp
      · subst hr
        rw [update_self, mem_append, mem_singleton] at hk
        exact hc'.item r k (hk.resolve_right hkp)
      · rw [update_of_ne hr] at hk
        exact hc'.item r k hk
  · show (update s'.msgque qp _ r).msg_qnum = (update g.que qp _ r).length
    by_cases hr : r = qp
    · subst hr
      rw [update_self, update_self, List.length_append, List.length_singleton]
      show ushort ((s'.msgque r).msg_qnum + 1) = _
      rw [hc'.qnum]
      unfold ushort
      lia
    · rw [update_of_ne hr, update_of_ne hr]
      exact hc'.qnum r
  · change (update s'.msgque qp _ r).msg_perm.alloc = false at hr
    show update g.que qp _ r = []
    by_cases hrq : r = qp
    · subst hrq
      rw [update_self] at hr
      exact absurd (halloc'.symm.trans hr) (by simp)
    · rw [update_of_ne hrq] at hr ⊢
      exact hc'.dead r hr

end Put

/-! ## Back to the free list -/

/-- Header `h` goes on the free list and leaves the queues as `que` says. -/
def Ghost.release (g : Ghost) (h : ℕ) (que : ℕ → List ℕ) : Ghost :=
  { g with
    free := h :: g.free
    que := que
    own := update g.own h (some .free)
    blk := update g.blk h (0, 0) }

theorem Core.release (hc : Core mi s g) {que : ℕ → List ℕ} (hown : g.own h = some w)
    (hw : w ≠ .free) (hfp : t.msgfp = h) (hn : t.next h = s.msgfp)
    (hfree : ∀ k ∈ g.free, t.next k = s.next k)
    (hmem : ∀ r k, k ∈ que r ↔ k ≠ h ∧ k ∈ g.que r) (hnodup : ∀ r, (que r).Nodup)
    (hfirst : ∀ r, Chain t.next (t.msgque r).msg_first (que r))
    (hlast : ∀ r, (t.msgque r).msg_last = (que r).getLastD 0)
    (hsh : Shared mi t.msgmap (update g.blk h (0, 0)))
    (hh : t.msgh = s.msgh) (ht : t.text = s.text)
    (hqn : ∀ r, (t.msgque r).msg_qnum = (que r).length)
    (halloc : ∀ r, (s.msgque r).msg_perm.alloc = true → (t.msgque r).msg_perm.alloc = true) :
    Core mi t (g.release h que) := by
  refine ⟨fun k => ?_, fun k => ?_, fun r k => ?_, ?_, hnodup, ?_, hfirst, hlast, hsh,
    fun k hk => ?_, fun r k hk => ?_, fun r k hk => ?_, hqn, fun r hr => ?_⟩
  · show update g.own h _ k ≠ none ↔ _
    by_cases hk : k = h
    · subst hk
      rw [update_self]
      simp only [ne_eq, reduceCtorEq, not_false_eq_true, true_iff]
      exact hc.inRange hown
    · rw [update_of_ne hk]
      exact hc.own k
  · show k ∈ h :: g.free ↔ update g.own h _ k = _
    by_cases hk : k = h
    · subst hk
      rw [update_self]
      simp
    · rw [update_of_ne hk, ← hc.free_own, mem_cons]
      simp [hk]
  · show k ∈ que r ↔ update g.own h _ k = _
    rw [hmem]
    by_cases hk : k = h
    · subst hk
      rw [update_self]
      simp
    · rw [update_of_ne hk, ← hc.que_own]
      simp [hk]
  · exact nodup_cons.mpr ⟨hc.not_mem_free hown hw, hc.free_nodup⟩
  · show Chain t.next t.msgfp (h :: g.free)
    refine ⟨hfp, hc.ne_zero hown, ?_⟩
    rw [hn]
    exact hc.free.congr hfree
  · change update g.own h _ k = _ at hk
    show update g.blk h _ k = _
    by_cases hkh : k = h
    · rw [hkh, update_self]
    · rw [update_of_ne hkh] at hk ⊢
      exact hc.idle k hk
  · change k ∈ que r at hk
    obtain ⟨hkh, hk⟩ := (hmem r k).mp hk
    show update g.blk h _ k = _
    rw [update_of_ne hkh, hh]
    exact hc.queued r k hk
  · change k ∈ que r at hk
    obtain ⟨-, hk⟩ := (hmem r k).mp hk
    unfold State.bytes
    rw [hh, ht]
    exact hc.item r k hk
  · refine List.eq_nil_iff_forall_not_mem.mpr fun k hk => ?_
    have hk : k ∈ g.que r := ((hmem r k).mp hk).2
    have hdead : (s.msgque r).msg_perm.alloc = false :=
      Bool.eq_false_iff.mpr fun hs => absurd (halloc r hs) (by rw [hr]; simp)
    rw [hc.dead r hdead] at hk
    cases hk

/-- What giving a header back leaves as it was. -/
structure Freed (s t : State) : Prop where
  msgh : t.msgh = s.msgh
  alloc : ∀ r, (s.msgque r).msg_perm.alloc = true → (t.msgque r).msg_perm.alloc = true
  proc : ∀ q, Woke (s.proc q) (t.proc q)

theorem Freed.trans {u : State} (h : Freed s t) (h' : Freed t u) : Freed s u :=
  ⟨h'.msgh.trans h.msgh, fun r hr => h'.alloc r (h.alloc r hr), fun q =>
    (h.proc q).trans (h'.proc q)⟩

theorem Alike.freed (h : Alike s t) : Freed s t := ⟨h.msgh, h.alloc, h.proc⟩

/-- A pool given new links, head and map wakes up the same processes. -/
theorem Same.with (h : Same s t) (next : ℕ → ℕ) (fp : ℕ) (m : Rmap.map) :
    Same { s with next := next, msgfp := fp, msgmap := m }
      { t with next := next, msgfp := fp, msgmap := m } :=
  ⟨⟨rfl, h.msgh, rfl, h.text, rfl, rfl, h.first, h.last, h.qnum, h.alloc, h.proc⟩, h.cbytes⟩

theorem same_freehdr (mp : ℕ) (s : State) : Same { s with msgfp := mp } (freehdr mp s) := by
  unfold freehdr
  by_cases h0 : s.msgfp = 0
  · rw [if_pos h0]
    exact (same_wakeup s .msgfp).with s.next mp s.msgmap
  · rw [if_neg h0]
    exact Same.refl _

/-- A block goes back to the map. -/
theorem rmfree_same {size : ℕ} {r : ℕ} (hsh : Shared mi s.msgmap g.blk)
    (hroom : mi.msgtql + 4 ≤ mi.msgmap) (hs : 0 < size)
    (hb : g.blk h = ((r : ℤ), (r : ℤ) + size)) :
    ∃ m' t, rmfree size r s = some t ∧ Same { s with msgmap := m' } t ∧
      Shared mi m' (update g.blk h (0, 0)) := by
  obtain ⟨m', hm', -, hsh'⟩ := hsh.free hroom hs hb
  refine ⟨m', if s.msgmap.m_want ≠ 0 then ({ s with msgmap := m' } : State).wakeup .msgmap
    else { s with msgmap := m' }, ?_, ?_, hsh'⟩
  · unfold rmfree
    rw [hm']
    rfl
  · by_cases hw : s.msgmap.m_want ≠ 0
    · rw [if_pos hw]
      exact same_wakeup _ _
    · rw [if_neg hw]
      exact Same.refl _

/-- A sender that cannot copy its text in gives header and block back. -/
theorem Core.abort (hc : Core mi s g) (hroom : mi.msgtql + 4 ≤ mi.msgmap) {mp spot n : ℕ}
    (hown : g.own mp = some (.hand p)) (hnext : s.next mp = s.msgfp) (hn : 0 < n)
    (hblk : g.blk mp = block mi spot n) :
    ∃ t, rmfree (btoq mi n) (spot + 1) s = some t ∧ Freed s (freehdr mp t) ∧
      (∀ r, ((freehdr mp t).msgque r).msg_cbytes = (s.msgque r).msg_cbytes) ∧
      Core mi (freehdr mp t) (g.release mp g.que) := by
  have hsize : 0 < btoq mi n := by
    exact Nat.div_pos (by omega) mi.msgssz_pos
  unfold block at hblk
  rw [if_neg (by omega)] at hblk
  obtain ⟨m', t, ht, hsame, hsh⟩ := rmfree_same (r := spot + 1) hc.shared hroom hsize (by
    rw [hblk]
    rfl)
  have hall : Same { s with msgmap := m', msgfp := mp } (freehdr mp t) := by
    refine Same.trans ?_ (same_freehdr mp t)
    have h1 := hsame.next
    have h2 := hsame.slots
    have h3 := hsame.m_free
    exact ⟨⟨h1, hsame.msgh, rfl, hsame.text, h2, h3, hsame.first, hsame.last, hsame.qnum,
      hsame.alloc, hsame.proc⟩, hsame.cbytes⟩
  refine ⟨t, ht, ⟨hall.msgh, hall.alloc, hall.proc⟩, hall.cbytes, Core.alike ?_ hall.toAlike⟩
  have hq : ∀ r, mp ∉ g.que r := fun r => hc.not_mem_que hown (by simp)
  exact hc.release hown (by simp) rfl hnext (fun _ _ => rfl)
    (fun r k => ⟨fun hk => ⟨fun heq => hq r (heq ▸ hk), hk⟩, fun hk => hk.2⟩) hc.que_nodup
    hc.first hc.last hsh rfl rfl hc.qnum (fun _ => id)

/-! ## Off a queue -/

/-- `msgfree` up to where it wakes the senders. -/
def unlinked (qp pmp mp : ℕ) (s : State) : State :=
  let ds := s.msgque qp
  { s with
    next := if pmp = 0 then s.next else update s.next pmp (s.next mp)
    msgque := update s.msgque qp { ds with
      msg_first := if pmp = 0 then s.next mp else ds.msg_first
      msg_last := if s.next mp = 0 then pmp else ds.msg_last
      msg_qnum := ushort (ds.msg_qnum - 1) } }

theorem msgfree_eq {pmp mp : ℕ} (hne : mp ≠ pmp) (s : State) : msgfree mi qp pmp mp s =
    let v := (unlinked qp pmp mp s).wakewait qp MSG_WWAIT (.que qp)
    (if (v.msgh mp).msg_ts ≠ 0 then
      rmfree (btoq mi (v.msgh mp).msg_ts) ((v.msgh mp).msg_spot + 1) v
    else some v).map fun s => freehdr mp { s with next := update s.next mp s.msgfp } := by
  unfold msgfree unlinked State.setque
  by_cases h0 : pmp = 0
  · by_cases h1 : s.next mp = 0
    · simp only [h0, h1, if_true, update_self, update_idem]
    · simp only [h0, h1, if_true, if_false, update_self, update_idem]
  · by_cases h1 : s.next mp = 0
    · simp only [h0, h1, if_true, if_false, update_self, update_of_ne hne,
        update_idem]
    · simp only [h0, h1, if_false, update_of_ne hne]

section Unlink

variable {pre post : List ℕ} {mp : ℕ}

/-- The links that a message taken off a queue leaves alone. -/
theorem unlinked_next (hq : g.que qp = pre ++ mp :: post) {k : ℕ}
    (hk : k ∉ g.que qp) : (unlinked qp (pre.getLastD 0) mp s).next k = s.next k := by
  unfold unlinked
  by_cases h0 : pre.getLastD 0 = 0
  · simp only [h0, if_true]
  · simp only [h0, if_false]
    refine update_of_ne ?_ _ _
    rintro rfl
    rcases eq_nil_or_concat pre with rfl | ⟨l, x, rfl⟩
    · exact h0 rfl
    · rw [concat_eq_append] at hk hq
      rw [getLastD_concat, hq] at hk
      simp at hk

/-- The chain of the queue that a message is taken off. -/
theorem unlinked_first (hc : Core mi s g) (hq : g.que qp = pre ++ mp :: post) (fp : ℕ) :
    Chain (update (unlinked qp (pre.getLastD 0) mp s).next mp fp)
      ((unlinked qp (pre.getLastD 0) mp s).msgque qp).msg_first (pre ++ post) := by
  have hfirst := hc.first qp
  have hnd := hc.que_nodup qp
  rw [hq] at hfirst hnd
  have hoff := nodup_middle.mp hnd
  rw [nodup_cons] at hoff
  suffices hch : Chain (unlinked qp (pre.getLastD 0) mp s).next
      ((unlinked qp (pre.getLastD 0) mp s).msgque qp).msg_first (pre ++ post) from
    hch.congr fun k hk => update_of_ne (fun heq : k = mp => hoff.1 (heq ▸ hk)) _ _
  unfold unlinked
  simp only [update_self]
  rcases eq_nil_or_concat pre with rfl | ⟨l, x, rfl⟩
  · simp only [List.getLastD_nil, if_true, List.nil_append]
    exact Chain.tail (l := []) hfirst
  · rw [concat_eq_append] at hfirst hnd hoff ⊢
    rw [getLastD_concat]
    have hx : x ≠ 0 := hfirst.ne_zero (by simp)
    rw [if_neg hx, if_neg hx]
    rw [append_assoc] at hfirst hnd ⊢
    have hnd' := nodup_cons.mp (nodup_middle.mp hnd)
    rw [mem_append, not_or] at hnd'
    exact hfirst.unlink hnd'.1.1 fun hin => hnd'.1.2 (List.mem_cons_of_mem _ hin)

theorem unlinked_last (hc : Core mi s g) (hq : g.que qp = pre ++ mp :: post) :
    ((unlinked qp (pre.getLastD 0) mp s).msgque qp).msg_last = (pre ++ post).getLastD 0 := by
  have hfirst := hc.first qp
  have hlast := hc.last qp
  rw [hq] at hfirst hlast
  have htail := Chain.tail hfirst
  unfold unlinked
  simp only [update_self]
  by_cases h0 : s.next mp = 0
  · rw [if_pos h0, htail.eq_zero_iff.mp h0, List.append_nil]
  · rw [if_neg h0, hlast]
    rcases eq_nil_or_concat post with rfl | ⟨l, x, rfl⟩
    · exact absurd (htail.eq_zero_iff.mpr rfl) h0
    · rw [concat_eq_append, ← append_assoc, getLastD_concat, ← List.cons_append,
        ← append_assoc, getLastD_concat]

/-- **`msgfree`** takes a message off its queue and gives its header and block back. -/
theorem Core.msgfree (hc : Core mi s g) (hroom : mi.msgtql + 4 ≤ mi.msgmap)
    (hlt : mi.msgtql < 65536) (hq : g.que qp = pre ++ mp :: post) :
    ∃ t, msgfree mi qp (pre.getLastD 0) mp s = some t ∧ Freed s t ∧
      (∀ r, (t.msgque r).msg_cbytes = (s.msgque r).msg_cbytes) ∧
      Core mi t (g.release mp (update g.que qp (pre ++ post))) := by
  have hmem : mp ∈ g.que qp := by
    rw [hq]
    simp
  have hown := (hc.que_own qp mp).mp hmem
  have hnd := hc.que_nodup qp
  rw [hq] at hnd
  have hoff := nodup_cons.mp (nodup_middle.mp hnd)
  have hne : mp ≠ pre.getLastD 0 := by
    intro heq
    rcases eq_nil_or_concat pre with rfl | ⟨l, x, rfl⟩
    · exact hc.ne_zero hown heq
    · rw [concat_eq_append, getLastD_concat] at heq
      rw [concat_eq_append, heq] at hoff
      simp at hoff
  rw [msgfree_eq hne]
  have hlen : (g.que qp).length ≤ mi.msgtql :=
    hc.length_le (hc.que_nodup qp) fun k hk => ⟨_, (hc.que_own qp k).mp hk⟩
  have hlen' : (g.que qp).length = (pre ++ post).length + 1 := by
    rw [hq]
    simp
    omega
  have hque : ∀ {β : Type} (f : msqid_ds → β) r, r ≠ qp →
      f ((unlinked qp (pre.getLastD 0) mp s).msgque r) = f (s.msgque r) := by
    intro β f r hr
    unfold unlinked
    simp only [update_of_ne hr]
  have halloc : ∀ r, ((unlinked qp (pre.getLastD 0) mp s).msgque r).msg_perm.alloc =
      (s.msgque r).msg_perm.alloc := by
    intro r
    by_cases hr : r = qp
    · subst hr
      unfold unlinked
      simp only [update_self]
    · exact hque (fun d => d.msg_perm.alloc) r hr
  have hcb : ∀ r, ((unlinked qp (pre.getLastD 0) mp s).msgque r).msg_cbytes =
      (s.msgque r).msg_cbytes := by
    intro r
    by_cases hr : r = qp
    · subst hr
      unfold unlinked
      simp only [update_self]
    · exact hque (fun d => d.msg_cbytes) r hr
  -- the header on the free list, with whatever map
  have hcore : ∀ m', Shared mi m' (update g.blk mp (0, 0)) →
      Core mi { unlinked qp (pre.getLastD 0) mp s with
          next := update (unlinked qp (pre.getLastD 0) mp s).next mp s.msgfp
          msgmap := m'
          msgfp := mp } (g.release mp (update g.que qp (pre ++ post))) := by
    intro m' hsh
    refine hc.release hown (by simp) rfl (update_self ..) (fun k hk => ?_) (fun r k => ?_)
      (fun r => ?_) (fun r => ?_) (fun r => ?_) hsh rfl rfl (fun r => ?_) fun r hr =>
        (halloc r).trans hr
    · have hfree := (hc.free_own k).mp hk
      show update (unlinked qp (pre.getLastD 0) mp s).next mp s.msgfp k = _
      rw [update_of_ne (fun heq : k = mp => hc.not_mem_que hfree (by simp) (heq ▸ hmem))]
      exact unlinked_next hq (hc.not_mem_que hfree (by simp))
    · by_cases hr : r = qp
      · subst hr
        rw [update_self, hq]
        constructor
        · intro hk
          refine ⟨fun heq => hoff.1 (heq ▸ hk), ?_⟩
          rw [mem_append, mem_cons]
          exact (List.mem_append.mp hk).imp_right Or.inr
        · rintro ⟨hk, hin⟩
          rw [mem_append, mem_cons] at hin
          exact List.mem_append.mpr (hin.imp_right fun h => h.resolve_left hk)
      · rw [update_of_ne hr]
        refine ⟨fun hk => ⟨fun heq => ?_, hk⟩, fun hk => hk.2⟩
        rw [heq, hc.que_own, hown] at hk
        exact hr (by simpa using hk.symm)
    · by_cases hr : r = qp
      · subst hr
        rw [update_self]
        exact hoff.2
      · rw [update_of_ne hr]
        exact hc.que_nodup r
    · by_cases hr : r = qp
      · subst hr
        rw [update_self]
        exact unlinked_first hc hq s.msgfp
      · rw [update_of_ne hr]
        show Chain _ ((unlinked qp (pre.getLastD 0) mp s).msgque r).msg_first _
        rw [hque msqid_ds.msg_first r hr]
        refine (hc.first r).congr fun k hk => ?_
        have hk' := (hc.que_own r k).mp hk
        show update (unlinked qp (pre.getLastD 0) mp s).next mp s.msgfp k = _
        have hkq : k ∉ g.que qp := hc.not_mem_que hk' (by simpa using hr)
        rw [update_of_ne (fun heq : k = mp => hkq (heq ▸ hmem))]
        exact unlinked_next hq hkq
    · by_cases hr : r = qp
      · subst hr
        rw [update_self]
        exact unlinked_last hc hq
      · rw [update_of_ne hr]
        exact (hque msqid_ds.msg_last r hr).trans (hc.last r)
    · by_cases hr : r = qp
      · subst hr
        rw [update_self]
        show (update s.msgque r _ r).msg_qnum = _
        rw [update_self]
        show ushort ((s.msgque r).msg_qnum - 1) = _
        rw [hc.qnum]
        unfold ushort
        omega
      · rw [update_of_ne hr]
        exact (hque msqid_ds.msg_qnum r hr).trans (hc.qnum r)
  have hsame := same_wakewait (unlinked qp (pre.getLastD 0) mp s) qp MSG_WWAIT (.que qp)
    (by decide)
  generalize (unlinked qp (pre.getLastD 0) mp s).wakewait qp MSG_WWAIT (.que qp) = v at hsame
  have hmsgh : v.msgh = s.msgh := hsame.msgh
  have hfp : v.msgfp = s.msgfp := hsame.msgfp
  have hblk := hc.queued qp mp hmem
  have hshv : Shared mi v.msgmap g.blk := hc.shared.want hsame.slots hsame.m_free
  -- what is left is to give the block back, if there is one
  have hfin : ∀ u m', Same { v with msgmap := m' } u →
      Shared mi m' (update g.blk mp (0, 0)) →
      Freed s (freehdr mp { u with next := update u.next mp u.msgfp }) ∧
      (∀ r, ((freehdr mp { u with next := update u.next mp u.msgfp }).msgque r).msg_cbytes =
        (s.msgque r).msg_cbytes) ∧
      Core mi (freehdr mp { u with next := update u.next mp u.msgfp })
        (g.release mp (update g.que qp (pre ++ post))) := by
    intro u m' hu hsh
    have hall : Same { unlinked qp (pre.getLastD 0) mp s with
          next := update (unlinked qp (pre.getLastD 0) mp s).next mp s.msgfp
          msgmap := m'
          msgfp := mp } (freehdr mp { u with next := update u.next mp u.msgfp }) := by
      refine Same.trans ?_ (same_freehdr mp _)
      have h1 : u.next = (unlinked qp (pre.getLastD 0) mp s).next := hu.next.trans hsame.next
      have h2 : u.msgfp = s.msgfp := hu.msgfp.trans hfp
      refine ⟨⟨?_, hu.msgh.trans hsame.msgh, rfl, hu.text.trans hsame.text, hu.slots, hu.m_free,
        fun r => (hu.first r).trans (hsame.first r), fun r => (hu.last r).trans (hsame.last r),
        fun r => (hu.qnum r).trans (hsame.qnum r), fun r h => hu.alloc r (hsame.alloc r h),
        fun q => (hsame.proc q).trans (hu.proc q)⟩,
        fun r => (hu.cbytes r).trans (hsame.cbytes r)⟩
      show update u.next mp u.msgfp = _
      rw [h1, h2]
    exact ⟨⟨hall.msgh, fun r hr => hall.alloc r ((halloc r).trans hr), hall.proc⟩,
      fun r => (hall.cbytes r).trans (hcb r), (hcore m' hsh).alike hall.toAlike⟩
  simp only [hmsgh]
  by_cases hts : (s.msgh mp).msg_ts = 0
  · rw [if_neg (not_not.mpr hts)]
    rw [hts] at hblk
    obtain ⟨h1, h2⟩ := hfin v v.msgmap (Same.refl _) (by
      rw [Function.update_eq_self_iff.mpr (hblk.symm : (0, 0) = g.blk mp)]
      exact hshv)
    exact ⟨_, rfl, h1, h2⟩
  · rw [if_pos hts]
    unfold block at hblk
    rw [if_neg hts] at hblk
    have hsize : 0 < btoq mi (s.msgh mp).msg_ts := by
      exact Nat.div_pos (by omega) mi.msgssz_pos
    obtain ⟨m', u, hu, husame, hsh⟩ :=
      rmfree_same (s := v) (r := (s.msgh mp).msg_spot + 1) hshv hroom
      hsize (by
        rw [hblk]
        rfl)
    obtain ⟨h1, h2⟩ := hfin u m' husame hsh
    rw [hu]
    exact ⟨_, rfl, h1, h2⟩

end Unlink

end IpcMsg
