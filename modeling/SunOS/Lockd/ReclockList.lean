/-
# Deleting from the granted locks (`delete_reclock` of `rpc.lockd/prot_lock.c`)

The walk leaves the locks before it cut off at the lower bound of the request and those behind it
cut off at the upper bound.  Only one lock can reach over the upper bound, so that one entry is
enough for the second half of a lock that is broken; and the walk ends there.
-/
import SunOS.Lockd.Bounds
import SunOS.Lockd.Reclock
import Mathlib.Data.List.Perm.Basic

namespace Lockd

open List (mem_append mem_map mem_singleton pairwise_cons)
open List
open RangeMap

/-- A lock as a segment; the mode says whether it is exclusive. -/
def seg (r : reclock) : Seg ℕ Bool :=
  ⟨r.lck.lb.toNat, r.lck.ub.toNat, r.lck.op &&& LOCK_EX ≠ 0⟩

/-- A lock of the owner `oh`, exclusive or shared. -/
structure Owned (oh : List UInt8) (r : reclock) : Prop where
  oh : r.lck.oh = oh
  op : r.lck.op &&& LOCK_EX ≠ 0 ↔ r.lck.op &&& LOCK_SH = 0

variable {oh : List UInt8} {a r : reclock} {K R rest l : List ℕ} {nl p x : ℕ} {s : Grants}

theorem Owned.same_proc {nl : reclock} (h : Owned oh nl) (ha : a.lck.oh = oh) : same_proc nl a :=
  decide_eq_true (h.oh.trans ha.symm)

/-- Locks of one owner have the same operation when they have the same mode. -/
theorem Owned.same_op_iff {nl : reclock} (h : Owned oh nl) (ha : Owned oh a) :
    same_op nl a ↔ (seg nl).mode = (seg a).mode := by
  have h1 := h.op
  have h2 := ha.op
  simp only [same_op, seg, decide_eq_true_eq, decide_eq_decide]
  by_cases he : nl.lck.op &&& LOCK_EX = 0 <;> by_cases ha : a.lck.op &&& LOCK_EX = 0 <;>
    simp_all

namespace Grants

/-- The locks of the entries of `l`. -/
def segs (s : Grants) (l : List ℕ) : List (Seg ℕ Bool) := l.map fun p => seg (s.entry p)

theorem segs_append : s.segs (K ++ R) = s.segs K ++ s.segs R := map_append

theorem segs_congr {s' : Grants} (h : ∀ p ∈ l, s'.entry p = s.entry p) : s'.segs l = s.segs l :=
  map_congr_left fun p hp => by rw [h p hp]

theorem setEntry_of_ne (h : x ≠ p) : (s.setEntry p r).entry x = s.entry x :=
  Function.update_of_ne h _ _

@[simp] theorem setEntry_self : (s.setEntry p r).entry p = r := Function.update_self _ _ _

/-- The walk of `find_insert`, past the locks that start before. -/
theorem findInsert_eq {q : ℕ} {fuel insrtp : ℕ} (h : Doubly.Linked s.q q nl (K ++ R))
    (hK : ∀ p ∈ K, (s.entry p).lck.lb < a.lck.lb ∧ (s.entry p).lck.lb < a.lck.ub)
    (hR : ∀ p ∈ R, a.lck.ub ≤ (s.entry p).lck.lb) (hfuel : (K ++ R).length < fuel) :
    s.findInsert a fuel nl insrtp = some (K.getLast?.getD insrtp) := by
  induction K generalizing q nl fuel insrtp with
  | nil =>
    obtain ⟨fuel, rfl⟩ := Nat.exists_eq_succ_of_ne_zero (Nat.ne_zero_of_lt hfuel)
    rw [findInsert, if_neg]
    · rfl
    · rintro ⟨h0, hlt⟩
      cases R with
      | nil => exact h0 h
      | cons b R =>
        obtain ⟨rfl, -⟩ := h
        have hle := hR nl mem_cons_self
        rw [UInt32.lt_iff_toNat_lt] at hlt
        rw [UInt32.le_iff_toNat_le] at hle
        omega
  | cons b K ih =>
    obtain ⟨fuel, rfl⟩ := Nat.exists_eq_succ_of_ne_zero (Nat.ne_zero_of_lt hfuel)
    obtain ⟨rfl, h0, -, h⟩ := h
    obtain ⟨hlb, hub⟩ := hK nl mem_cons_self
    rw [findInsert, if_pos ⟨h0, hub⟩, if_pos hlb, ih h (fun p hp => hK p (mem_cons_of_mem _ hp))
      (by simpa using hfuel)]
    cases K with
    | nil => rfl
    | cons c K => simp [getLast?_cons]

/-- **`insert_le`** puts a lock behind those of `K`. -/
theorem insert_le_spec (h : s.q.Holds (K ++ R)) (hl : s.live.Perm (K ++ R)) (h0 : x ≠ 0)
    (hx : x ∉ K ++ R) :
    (s.insert_le (K.getLast?.getD 0) x).q.Holds (K ++ x :: R) ∧
      (s.insert_le (K.getLast?.getD 0) x).live.Perm (K ++ x :: R) := by
  refine ⟨?_, (hl.cons x).trans List.perm_middle.symm⟩
  rcases eq_nil_or_concat K with rfl | ⟨K, k, rfl⟩
  · exact h.insert_first h0 hx
  · rw [concat_eq_append] at *
    rw [append_assoc, singleton_append] at h hx
    have hins := h.insert_after h0 hx
    rw [getLast?_concat, append_assoc, singleton_append]
    exact hins

/-- **`find_insert`** puts a lock between those that start before and those after its end. -/
theorem find_insert_spec (h : s.q.Holds (K ++ R)) (hlive : s.live.Perm (K ++ R))
    (hK : ∀ p ∈ K, (seg (s.entry p)).lo < (seg (s.entry x)).lo ∧
      (seg (s.entry p)).lo < (seg (s.entry x)).hi)
    (hR : ∀ p ∈ R, (seg (s.entry x)).hi ≤ (seg (s.entry p)).lo) (h0 : x ≠ 0) (hx : x ∉ K ++ R) :
    ∃ s', s.find_insert x = some s' ∧ s'.q.Holds (K ++ x :: R) ∧ s'.live.Perm (K ++ x :: R) ∧
      s'.entry = s.entry ∧ s'.fe = s.fe := by
  have hK' : ∀ p ∈ K, (s.entry p).lck.lb < (s.entry x).lck.lb ∧
      (s.entry p).lck.lb < (s.entry x).lck.ub := fun p hp =>
    ⟨UInt32.lt_iff_toNat_lt.mpr (hK p hp).1, UInt32.lt_iff_toNat_lt.mpr (hK p hp).2⟩
  have hR' : ∀ p ∈ R, (s.entry x).lck.ub ≤ (s.entry p).lck.lb := fun p hp =>
    UInt32.le_iff_toNat_le.mpr (hR p hp)
  obtain ⟨hlinks, hperm⟩ := insert_le_spec h hlive h0 hx
  refine ⟨s.insert_le (K.getLast?.getD 0) x, ?_, hlinks, hperm, rfl, rfl⟩
  rw [find_insert, findInsert_eq h.linked hK' hR' (by rw [hlive.length_eq]; omega)]
  rfl

/-- **`delete_le`** takes a lock out. -/
theorem delete_le_spec (h : s.q.Holds (K ++ x :: R)) (hl : s.live.Perm (K ++ x :: R)) :
    (s.delete_le x).q.Holds (K ++ R) ∧ (s.delete_le x).live.Perm (K ++ R) := by
  have hnd := h.nodup
  rw [List.nodup_append', nodup_cons] at hnd
  have hxK : x ∉ K := fun hm => hnd.2.2 hm mem_cons_self
  refine ⟨h.delete_middle, ?_⟩
  have hp := hl.erase x
  rwa [erase_append_right _ hxK, erase_cons_head] at hp

/-- `insrtp` is the last lock of `K`, which lies before `A`, or the first one behind `K`. -/
def At (s : Grants) (insrtp A : ℕ) (K rest : List ℕ) : Prop :=
  (insrtp = K.getLast?.getD 0 ∧ ∀ x ∈ rest, A ≤ (seg (s.entry x)).lo) ∨
    ∃ rest', rest = insrtp :: rest' ∧ (seg (s.entry insrtp)).lo ≤ A ∧
      ∀ x ∈ rest', A ≤ (seg (s.entry x)).lo

/-- Locks that start in order. -/
theorem lo_le_of_canonical (hc : Canonical (s.segs (nl :: rest))) (hx : x ∈ nl :: rest) :
    (seg (s.entry nl)).lo ≤ (seg (s.entry x)).lo := by
  rcases List.mem_cons.mp hx with rfl | hx
  · exact le_refl _
  · have hap := (pairwise_cons.mp hc.apart).1 _ (mem_map_of_mem hx)
    exact (le_of_lt (hc.pos _ mem_cons_self)).trans hap.le

end Grants

/-! ## At one lock -/

namespace Deletion

variable {d d' : Deletion} {X : List ℕ} {A B : ℕ}

/-- The walk has come to the locks of `rest`; those of `K` lie before the request. -/
structure Walking (d : Deletion) (oh : List UInt8) (A : ℕ) (K rest : List ℕ) : Prop where
  links : d.s.q.Holds (K ++ rest)
  live : d.s.live.Perm (K ++ rest)
  owned : ∀ p ∈ K ++ rest, Owned oh (d.s.entry p)
  before : ∀ p ∈ K, (seg (d.s.entry p)).lo < (seg (d.s.entry p)).hi ∧ (seg (d.s.entry p)).hi ≤ A
  canonical : Canonical (d.s.segs rest)

/-- The entry for a second half is there. -/
structure Spare (d : Deletion) (oh : List UInt8) (l : List ℕ) : Prop where
  ne_zero : d.pre_le ≠ 0
  not_mem : d.pre_le ∉ l
  oh : (d.s.entry d.pre_le).lck.oh = oh

/-- What a visit to `nl` leaves: what is before the request in `K'`, what is behind it in `X`. -/
structure After (d d' : Deletion) (oh : List UInt8) (A B : ℕ) (K : List ℕ) (nl : ℕ)
    (rest K' X : List ℕ) :
    Prop where
  links : d'.s.q.Holds (K' ++ X ++ rest)
  live : d'.s.live.Perm (K' ++ X ++ rest)
  segK : d'.s.segs K' = d.s.segs K ++ below A [seg (d.s.entry nl)]
  segX : d'.s.segs X = above B [seg (d.s.entry nl)]
  owned : ∀ p ∈ K' ++ X, Owned oh (d'.s.entry p)
  same : ∀ p, p ≠ nl → p ≠ d.pre_le → d'.s.entry p = d.s.entry p
  sub : (∀ p ∈ K', p ∈ K ∨ p = nl) ∧ ∀ p ∈ X, p = nl ∨ p = d.pre_le
  spare : X = [] → d'.pre_le = d.pre_le ∧ d'.s.entry d.pre_le = d.s.entry d.pre_le
  fe : d'.s.fe = d.s.fe
  insrtp : d.s.At d.insrtp A K (nl :: rest) →
    d'.insrtp = K'.getLast?.getD 0 ∧ ∀ x ∈ rest, A ≤ (seg (d.s.entry x)).lo

theorem count_eq (d : Deletion) (nl : ℕ) :
    ∃ ex sh, d.count nl = { d with lock_ex := ex, lock_sh := sh } := by
  rw [count]
  split_ifs
  · exact ⟨_, _, rfl⟩
  · exact ⟨_, _, rfl⟩

/-- The counts of locks do not matter. -/
theorem After.of_count {ex sh : ℕ} {X K' : List ℕ}
    (h : After { d with lock_ex := ex, lock_sh := sh } d' oh A B K nl rest K' X) :
    After d d' oh A B K nl rest K' X :=
  ⟨h.links, h.live, h.segK, h.segX, h.owned, h.same, h.sub, h.spare, h.fe, h.insrtp⟩

namespace Walking

variable (h : Walking d oh A K (nl :: rest))
include h

theorem nl_not_mem : nl ∉ K ∧ nl ∉ rest := by
  have hnd := h.links.nodup
  rw [List.nodup_append', nodup_cons] at hnd
  exact ⟨fun hk => hnd.2.2 hk mem_cons_self, hnd.2.1.1⟩

theorem pos : (seg (d.s.entry nl)).lo < (seg (d.s.entry nl)).hi :=
  h.canonical.pos _ mem_cons_self

/-- The later locks start after this one ends. -/
theorem later : ∀ x ∈ rest, (seg (d.s.entry nl)).hi ≤ (seg (d.s.entry x)).lo := by
  have hap := pairwise_cons.mp h.canonical.apart
  exact fun x hx => (hap.1 _ (mem_map_of_mem hx)).le

/-- `insrtp` once the walk has gone past `nl`, which stays before the request. -/
theorem at_keep (hat : d.s.At d.insrtp A K (nl :: rest)) (hlo : (seg (d.s.entry nl)).lo < A) :
    d.insrtp = (K ++ [nl]).getLast?.getD 0 ∧ ∀ x ∈ rest, A ≤ (seg (d.s.entry x)).lo := by
  rw [getLast?_concat]
  rcases hat with ⟨-, hle⟩ | ⟨rest', heq, -, hle⟩
  · exact absurd (hle nl mem_cons_self) (not_le.mpr hlo)
  · obtain ⟨rfl, rfl⟩ := cons.inj heq
    exact ⟨rfl, hle⟩

/-- `insrtp` once `nl` has been removed. -/
theorem at_remove (hat : d.s.At d.insrtp A K (nl :: rest)) :
    (if nl = d.insrtp then d.s.q.prev nl else d.insrtp) = K.getLast?.getD 0 ∧
      ∀ x ∈ rest, A ≤ (seg (d.s.entry x)).lo := by
  rcases hat with ⟨hi, hle⟩ | ⟨rest', heq, -, hle⟩
  · have hne : nl ≠ d.insrtp := by
      rintro rfl
      rcases eq_nil_or_concat K with rfl | ⟨k, b, rfl⟩
      · exact h.links.ne_zero (by simp) hi
      · rw [concat_eq_append, getLast?_concat] at hi
        refine h.nl_not_mem.1 ?_
        rw [hi]
        simp
    rw [if_neg hne]
    exact ⟨hi, fun x hx => hle x (mem_cons_of_mem _ hx)⟩
  · obtain ⟨rfl, rfl⟩ := cons.inj heq
    rw [if_pos rfl]
    exact ⟨h.links.linked.prev_eq, hle⟩

/-- A lock before the request stays. -/
theorem skip (hhi : (seg (d.s.entry nl)).hi ≤ A) (hAB : A < B) :
    After d d oh A B K nl rest (K ++ [nl]) [] := by
  have hpos := h.pos
  have hlo : (seg (d.s.entry nl)).lo < A := lt_of_lt_of_le hpos hhi
  have heq : K ++ [nl] ++ [] ++ rest = K ++ nl :: rest := by simp
  refine ⟨heq ▸ h.links, heq ▸ h.live, ?_, ?_, ?_, fun _ _ _ => rfl, ?_, fun _ => ⟨rfl, rfl⟩, rfl,
    fun hat => h.at_keep hat hlo⟩
  · simp [Grants.segs, below, hlo, min_eq_left hhi]
  · have : ¬ B < (seg (d.s.entry nl)).hi := by omega
    simp [Grants.segs, above, this]
  · intro p hp
    refine h.owned p ?_
    simp only [append_nil, mem_append, mem_cons] at hp ⊢
    tauto
  · exact ⟨fun p hp => (mem_append.mp hp).imp id mem_singleton.mp, fun p hp =>
      by cases hp⟩

/-- A lock inside the request goes. -/
theorem removed (hlo : A ≤ (seg (d.s.entry nl)).lo) (hhi : (seg (d.s.entry nl)).hi ≤ B) :
    After d (d.remove nl) oh A B K nl rest K [] := by
  obtain ⟨hlinks, hlive⟩ := Grants.delete_le_spec h.links h.live
  rw [← append_nil K] at hlinks hlive
  refine ⟨hlinks, hlive, ?_, ?_, ?_, fun _ _ _ => rfl, ?_, fun _ => ⟨rfl, rfl⟩, rfl,
    fun hat => h.at_remove hat⟩
  · have : ¬ (seg (d.s.entry nl)).lo < A := by omega
    simp [remove, Grants.delete_le, Grants.segs, below, this]
  · have : ¬ B < (seg (d.s.entry nl)).hi := by omega
    simp [Grants.segs, above, this]
  · intro p hp
    rw [append_nil] at hp
    exact h.owned p (mem_append_left _ hp)
  · exact ⟨fun p hp => Or.inl hp, fun p hp => by cases hp⟩

/-- The first half of a lock stays. -/
theorem first (hs : Spare d oh (K ++ nl :: rest)) (ha : A = a.lck.lb.toNat)
    (hlo : (seg (d.s.entry nl)).lo < A) (hlt : A < (seg (d.s.entry nl)).hi)
    (hhi : (seg (d.s.entry nl)).hi ≤ B) :
    After d (d.firstHalf a nl) oh A B K nl rest (K ++ [nl]) [] := by
  have hK : ∀ p ∈ K, p ≠ nl := fun p hp he => h.nl_not_mem.1 (he ▸ hp)
  have heq : K ++ [nl] ++ [] ++ rest = K ++ nl :: rest := by simp
  have hsame : ∀ p, p ≠ nl → (d.firstHalf a nl).s.entry p = d.s.entry p :=
    fun p hp => Grants.setEntry_of_ne hp
  have hnl : (d.firstHalf a nl).s.entry nl =
      adj_len { d.s.entry nl with lck := { (d.s.entry nl).lck with ub := a.lck.lb } } :=
    Grants.setEntry_self
  have hsnl : seg ((d.firstHalf a nl).s.entry nl) = { seg (d.s.entry nl) with hi := A } := by
    rw [hnl, ha]
    rfl
  refine ⟨heq ▸ h.links, heq ▸ h.live, ?_, ?_, ?_, fun p hp _ => hsame p hp, ?_, fun _ => ⟨rfl, ?_⟩,
    rfl, fun hat => h.at_keep hat hlo⟩
  · rw [Grants.segs_append, Grants.segs_congr fun p hp => hsame p (hK p hp)]
    congr 1
    show [seg ((d.firstHalf a nl).s.entry nl)] = _
    rw [hsnl]
    simp [below, hlo, min_eq_right (le_of_lt hlt)]
  · have : ¬ B < (seg (d.s.entry nl)).hi := by omega
    simp [Grants.segs, above, this]
  · intro p hp
    rw [append_nil, mem_append, mem_singleton] at hp
    rcases hp with hp | rfl
    · rw [hsame p (hK p hp)]
      exact h.owned p (mem_append_left _ hp)
    · rw [hnl]
      have ho := h.owned p (by simp)
      exact ⟨ho.oh, ho.op⟩
  · exact ⟨fun p hp => (mem_append.mp hp).imp id mem_singleton.mp, fun p hp =>
      by cases hp⟩
  · exact hsame _ fun he => hs.not_mem (by rw [he]; simp)

/-- The second half of a lock stays, and is put in again. -/
theorem second (ha : A = a.lck.lb.toNat) (hb : B = a.lck.ub.toNat) (hAB : A < B)
    (hlo : A ≤ (seg (d.s.entry nl)).lo) (hlt : (seg (d.s.entry nl)).lo < B)
    (hhi : B < (seg (d.s.entry nl)).hi) :
    ∃ d', d.secondHalf a nl = some d' ∧ After d d' oh A B K nl rest K [nl] := by
  have hK : ∀ p ∈ K, p ≠ nl := fun p hp he => h.nl_not_mem.1 (he ▸ hp)
  have hrest : ∀ p ∈ rest, p ≠ nl := fun p hp he => h.nl_not_mem.2 (he ▸ hp)
  obtain ⟨hlinks, hlive⟩ := Grants.delete_le_spec h.links h.live
  have hx : nl ∉ K ++ rest := by
    rw [mem_append, not_or]
    exact h.nl_not_mem
  generalize hs1 : (d.s.setEntry nl
    (adj_len { d.s.entry nl with lck := { (d.s.entry nl).lck with l_offset := a.lck.ub } })) = s1
  have hq1 : s1.q = d.s.q := by rw [← hs1]; rfl
  have hl1 : s1.live = d.s.live := by rw [← hs1]; rfl
  have hf1 : s1.fe = d.s.fe := by rw [← hs1]; rfl
  have hsame : ∀ p, p ≠ nl → s1.entry p = d.s.entry p := fun p hp => by
    rw [← hs1]
    exact Grants.setEntry_of_ne hp
  have hnl : s1.entry nl =
      adj_len { d.s.entry nl with lck := { (d.s.entry nl).lck with l_offset := a.lck.ub } } := by
    rw [← hs1]
    exact Grants.setEntry_self
  have hsnl : seg (s1.entry nl) = { seg (d.s.entry nl) with lo := B } := by
    rw [hnl, hb]
    rfl
  obtain ⟨s', hs', hq', hl', he', hf'⟩ := Grants.find_insert_spec (s := s1.delete_le nl) (x := nl)
    (K := K) (R := rest) (by rw [Grants.delete_le, hq1]; exact hlinks)
    (by rw [Grants.delete_le, hl1]; exact hlive)
    (by
      intro p hp
      show (seg (s1.entry p)).lo < (seg (s1.entry nl)).lo ∧
        (seg (s1.entry p)).lo < (seg (s1.entry nl)).hi
      obtain ⟨h1, h2⟩ := h.before p hp
      rw [hsame p (hK p hp), hsnl]
      show _ < B ∧ _ < (seg (d.s.entry nl)).hi
      omega)
    (by
      intro p hp
      show (seg (s1.entry nl)).hi ≤ (seg (s1.entry p)).lo
      rw [hsame p (hrest p hp), hsnl]
      exact h.later p hp)
    (h.links.ne_zero (by simp)) hx
  refine ⟨{ d with
    insrtp := if nl = d.insrtp then d.s.q.prev nl else d.insrtp
    s := s' }, ?_, ?_⟩
  · simp only [secondHalf, remove, hs1, hs', hq1, Option.map_some]
  · have heq : K ++ [nl] ++ rest = K ++ nl :: rest := by simp
    have hent : ∀ p, s'.entry p = s1.entry p := fun p => by rw [he']; rfl
    refine ⟨heq ▸ hq', heq ▸ hl', ?_, ?_, ?_, fun p hp _ => (hent p).trans (hsame p hp), ?_, ?_,
      hf'.trans hf1, fun hat => h.at_remove hat⟩
    · have : ¬ (seg (d.s.entry nl)).lo < A := by omega
      rw [Grants.segs_congr fun p hp => (hent p).trans (hsame p (hK p hp))]
      simp [below, this]
    · show [seg (s'.entry nl)] = _
      rw [hent, hsnl]
      simp [above, hhi, max_eq_right (le_of_lt hlt)]
    · intro p hp
      show Owned oh (s'.entry p)
      rw [hent]
      rcases mem_append.mp hp with hp | hp
      · rw [hsame p (hK p hp)]
        exact h.owned p (mem_append_left _ hp)
      · rw [mem_singleton.mp hp, hnl]
        have ho := h.owned nl (by simp)
        exact ⟨ho.oh, ho.op⟩
    · exact ⟨fun p hp => Or.inl hp, fun p hp => Or.inl (mem_singleton.mp hp)⟩
    · intro hX
      cases hX

/-- A lock is broken in two; the second half is the spare entry. -/
theorem broken (hs : Spare d oh (K ++ nl :: rest)) (ha : A = a.lck.lb.toNat)
    (hb : B = a.lck.ub.toNat)
    (hAB : A < B) (hlo : (seg (d.s.entry nl)).lo < A) (hhi : B < (seg (d.s.entry nl)).hi) :
    ∃ d', d.breakInHalf a nl = some d' ∧ After d d' oh A B K nl rest (K ++ [nl]) [d.pre_le] := by
  have hK : ∀ p ∈ K, p ≠ nl := fun p hp he => h.nl_not_mem.1 (he ▸ hp)
  have hrest : ∀ p ∈ rest, p ≠ nl := fun p hp he => h.nl_not_mem.2 (he ▸ hp)
  have hpre : ∀ p ∈ K ++ nl :: rest, p ≠ d.pre_le := fun p hp he => hs.not_mem (he ▸ hp)
  generalize hs1 : ((d.s.setEntry nl
      (adj_len { d.s.entry nl with lck := { (d.s.entry nl).lck with ub := a.lck.lb } })).setEntry
      d.pre_le (adj_len { d.s.entry d.pre_le with
        block := (d.s.entry nl).block
        exclusive := (d.s.entry nl).exclusive
        lck := { (d.s.entry d.pre_le).lck with
          ub := (d.s.entry nl).lck.ub, l_offset := a.lck.ub, op := (d.s.entry nl).lck.op } })) = s1
  have hq1 : s1.q = d.s.q := by rw [← hs1]; rfl
  have hl1 : s1.live = d.s.live := by rw [← hs1]; rfl
  have hf1 : s1.fe = d.s.fe := by rw [← hs1]; rfl
  have hsame : ∀ p, p ≠ nl → p ≠ d.pre_le → s1.entry p = d.s.entry p := fun p hp hp' => by
    rw [← hs1, Grants.setEntry_of_ne hp']
    exact Grants.setEntry_of_ne hp
  have hnl : s1.entry nl =
      adj_len { d.s.entry nl with lck := { (d.s.entry nl).lck with ub := a.lck.lb } } := by
    rw [← hs1, Grants.setEntry_of_ne (hpre nl (by simp))]
    exact Grants.setEntry_self
  have hnew : s1.entry d.pre_le = adj_len { d.s.entry d.pre_le with
      block := (d.s.entry nl).block
      exclusive := (d.s.entry nl).exclusive
      lck := { (d.s.entry d.pre_le).lck with
        ub := (d.s.entry nl).lck.ub, l_offset := a.lck.ub, op := (d.s.entry nl).lck.op } } := by
    rw [← hs1]
    exact Grants.setEntry_self
  have hsnl : seg (s1.entry nl) = { seg (d.s.entry nl) with hi := A } := by
    rw [hnl, ha]
    rfl
  have hsnew : seg (s1.entry d.pre_le) = { seg (d.s.entry nl) with lo := B } := by
    rw [hnew, hb]
    rfl
  have heq : K ++ [nl] ++ rest = K ++ nl :: rest := by simp
  have hKsame : ∀ p ∈ K, s1.entry p = d.s.entry p := fun p hp =>
    hsame p (hK p hp) (hpre p (mem_append_left _ hp))
  obtain ⟨s', hs', hq', hl', he', hf'⟩ := Grants.find_insert_spec (s := s1) (x := d.pre_le)
    (K := K ++ [nl]) (R := rest) (by rw [hq1, heq]; exact h.links)
    (by rw [hl1, heq]; exact h.live)
    (by
      intro p hp
      rw [hsnew]
      show _ < B ∧ _ < (seg (d.s.entry nl)).hi
      rcases mem_append.mp hp with hp | hp
      · obtain ⟨h1, h2⟩ := h.before p hp
        rw [hKsame p hp]
        omega
      · rw [mem_singleton.mp hp, hsnl]
        show (seg (d.s.entry nl)).lo < B ∧ (seg (d.s.entry nl)).lo < _
        omega)
    (by
      intro p hp
      rw [hsame p (hrest p hp) (hpre p (by simp [hp])), hsnew]
      exact h.later p hp)
    hs.ne_zero (by rw [heq]; exact hs.not_mem)
  refine ⟨{ d with s := s', pre_le := 0 }, ?_, ?_⟩
  · simp only [breakInHalf, if_neg hs.ne_zero, hs1, hs', Option.map_some]
  · have heq' : K ++ [nl] ++ [d.pre_le] ++ rest = K ++ [nl] ++ d.pre_le :: rest := by simp
    have hent : ∀ p, s'.entry p = s1.entry p := fun p => by rw [he']
    refine ⟨heq' ▸ hq', heq' ▸ hl', ?_, ?_, ?_, fun p hp hp' => (hent p).trans (hsame p hp hp'), ?_,
      ?_, hf'.trans hf1, fun hat => h.at_keep hat hlo⟩
    · rw [Grants.segs_append, Grants.segs_congr fun p hp => (hent p).trans (hKsame p hp)]
      congr 1
      show [seg (s'.entry nl)] = _
      rw [hent, hsnl]
      simp [below, hlo, min_eq_right (le_of_lt (hAB.trans hhi))]
    · show [seg (s'.entry d.pre_le)] = _
      rw [hent, hsnew]
      simp [above, hhi, max_eq_right (le_of_lt (hlo.trans hAB))]
    · intro p hp
      show Owned oh (s'.entry p)
      rw [hent]
      simp only [mem_append, mem_singleton] at hp
      have ho := h.owned nl (by simp)
      rcases hp with (hp | rfl) | rfl
      · rw [hKsame p hp]
        exact h.owned p (mem_append_left _ hp)
      · rw [hnl]
        exact ⟨ho.oh, ho.op⟩
      · rw [hnew]
        exact ⟨hs.oh, ho.op⟩
    · exact ⟨fun p hp => (mem_append.mp hp).imp id mem_singleton.mp,
        fun p hp => Or.inr (mem_singleton.mp hp)⟩
    · intro hX
      cases hX

/-- **A visit** leaves what is before the request and what is behind it. -/
theorem visit (hs : Spare d oh (K ++ nl :: rest)) (hoh : a.lck.oh = oh) (ha : A = a.lck.lb.toNat)
    (hb : B = a.lck.ub.toNat) (hAB : A < B) (hlt : (seg (d.s.entry nl)).lo < B) :
    ∃ d' K' X, d.visit a nl = some d' ∧ After d d' oh A B K nl rest K' X ∧
      (X = [] ∨ B < (seg (d.s.entry nl)).hi) := by
  have hsame := (h.owned nl (by simp)).same_proc hoh
  have hub : (d.s.entry nl).lck.ub > a.lck.lb ↔ A < (seg (d.s.entry nl)).hi := by
    rw [ha]
    exact UInt32.lt_iff_toNat_lt
  have hin : inside (d.s.entry nl) a = true ↔
      A ≤ (seg (d.s.entry nl)).lo ∧ (seg (d.s.entry nl)).hi ≤ B := by
    rw [ha, hb]
    exact inside_iff
  have hover : (d.s.entry nl).lck.ub > a.lck.ub ↔ B < (seg (d.s.entry nl)).hi := by
    rw [hb]
    exact UInt32.lt_iff_toNat_lt
  have hstart : (d.s.entry nl).lck.lb < a.lck.lb ↔ (seg (d.s.entry nl)).lo < A := by
    rw [ha]
    exact UInt32.lt_iff_toNat_lt
  rw [Deletion.visit]
  by_cases hmeet : A < (seg (d.s.entry nl)).hi
  · rw [if_pos ⟨hsame, hub.mpr hmeet⟩]
    obtain ⟨ex, sh, hc⟩ := count_eq d nl
    rw [hc]
    have h' : Walking { d with lock_ex := ex, lock_sh := sh } oh A K (nl :: rest) :=
      ⟨h.links, h.live, h.owned, h.before, h.canonical⟩
    have hs' : Spare { d with lock_ex := ex, lock_sh := sh } oh (K ++ nl :: rest) :=
      ⟨hs.ne_zero, hs.not_mem, hs.oh⟩
    by_cases hinside : A ≤ (seg (d.s.entry nl)).lo ∧ (seg (d.s.entry nl)).hi ≤ B
    · rw [if_pos (hin.mpr hinside)]
      exact ⟨_, K, [], rfl, (h'.removed hinside.1 hinside.2).of_count, Or.inl rfl⟩
    · rw [if_neg (mt hin.mp hinside)]
      by_cases hbreak : B < (seg (d.s.entry nl)).hi ∧ (seg (d.s.entry nl)).lo < A
      · rw [if_pos ⟨hover.mpr hbreak.1, hstart.mpr hbreak.2⟩]
        obtain ⟨d', hd', hafter⟩ := h'.broken hs' ha hb hAB hbreak.2 hbreak.1
        exact ⟨d', K ++ [nl], [d.pre_le], hd', hafter.of_count, Or.inr hbreak.1⟩
      · rw [if_neg fun hc => hbreak ⟨hover.mp hc.1, hstart.mp hc.2⟩]
        by_cases hlo : (seg (d.s.entry nl)).lo < A
        · rw [if_pos (hstart.mpr hlo)]
          have hhi : (seg (d.s.entry nl)).hi ≤ B := not_lt.mp fun hh => hbreak ⟨hh, hlo⟩
          exact ⟨_, K ++ [nl], [], rfl, (h'.first hs' ha hlo hmeet hhi).of_count, Or.inl rfl⟩
        · have hhi : B < (seg (d.s.entry nl)).hi :=
            not_le.mp fun hh => hinside ⟨not_lt.mp hlo, hh⟩
          rw [if_neg (mt hstart.mp hlo), if_pos (hover.mpr hhi)]
          obtain ⟨d', hd', hafter⟩ := h'.second ha hb hAB (not_lt.mp hlo) hlt hhi
          exact ⟨d', K, [nl], hd', hafter.of_count, Or.inr hhi⟩
  · rw [if_neg fun hc => hmeet (hub.mp hc.2)]
    exact ⟨d, K ++ [nl], [], rfl, h.skip (not_lt.mp hmeet) hAB, Or.inl rfl⟩

end Walking

/-! ## The walk -/

/-- **The locks `l` are cut** at the request: `K` is what is left before it, `R` what is left
behind. -/
structure Cut (d d' : Deletion) (oh : List UInt8) (A B : ℕ) (l K R : List ℕ) : Prop where
  links : d'.s.q.Holds (K ++ R)
  live : d'.s.live.Perm (K ++ R)
  segK : d'.s.segs K = below A (d.s.segs l)
  segR : d'.s.segs R = above B (d.s.segs l)
  owned : ∀ p ∈ K ++ R, Owned oh (d'.s.entry p)
  same : ∀ p, p ∉ l → p ≠ d.pre_le → d'.s.entry p = d.s.entry p
  sub : ∀ p ∈ K ++ R, p ∈ l ∨ p = d.pre_le
  fe : d'.s.fe = d.s.fe

variable {d : Deletion} {d' : Deletion} {A B : ℕ}

/-- The locks before the request are not cut. -/
theorem Walking.below_eq (h : Walking d oh A K rest) : below A (d.s.segs K) = d.s.segs K := by
  refine below_eq_self fun e he => ?_
  obtain ⟨p, hp, rfl⟩ := mem_map.mp he
  obtain ⟨h1, h2⟩ := h.before p hp
  exact ⟨lt_of_lt_of_le h1 h2, h2⟩

theorem Walking.above_eq (h : Walking d oh A K rest) (hAB : A < B) : above B (d.s.segs K) = [] := by
  refine above_eq_nil fun e he => ?_
  obtain ⟨p, hp, rfl⟩ := mem_map.mp he
  exact (h.before p hp).2.trans (le_of_lt hAB)

/-- Where the walk ends, at a lock behind the request. -/
theorem Walking.stop (h : Walking d oh A K rest) (hAB : A < B)
    (hrest : ∀ x ∈ rest, B ≤ (seg (d.s.entry x)).lo) : Cut d d oh A B (K ++ rest) K rest := by
  have hseg : ∀ e ∈ d.s.segs rest, B ≤ e.lo ∧ e.lo < e.hi := fun e he => by
    obtain ⟨p, hp, rfl⟩ := mem_map.mp he
    exact ⟨hrest p hp, h.canonical.pos _ he⟩
  refine ⟨h.links, h.live, ?_, ?_, h.owned, fun _ _ _ => rfl, fun p hp => Or.inl hp, rfl⟩
  · rw [Grants.segs_append, below_append, h.below_eq,
      below_eq_nil fun e he => (le_of_lt hAB).trans (hseg e he).1, append_nil]
  · rw [Grants.segs_append, above_append, h.above_eq hAB,
      above_eq_self fun e he => ⟨(hseg e he).1, lt_of_le_of_lt (hseg e he).1 (hseg e he).2⟩,
      nil_append]

/-- What a visit leaves alone. -/
theorem After.same_rest {X K' : List ℕ} (haf : After d d' oh A B K nl rest K' X)
    (h : Walking d oh A K (nl :: rest)) (hs : Spare d oh (K ++ nl :: rest)) :
    ∀ p ∈ rest, d'.s.entry p = d.s.entry p := fun p hp =>
  haf.same p (fun he => h.nl_not_mem.2 (he ▸ hp)) fun he => hs.not_mem (by simp [← he, hp])

/-- The walk goes on. -/
theorem After.walking {K' : List ℕ} (haf : After d d' oh A B K nl rest K' [])
    (h : Walking d oh A K (nl :: rest)) (hs : Spare d oh (K ++ nl :: rest)) :
    Walking d' oh A K' rest ∧ Spare d' oh (K' ++ rest) := by
  have hsame := haf.same_rest h hs
  have hlinks := haf.links
  have hlive := haf.live
  rw [append_nil] at hlinks hlive
  obtain ⟨hpre, hentry⟩ := haf.spare rfl
  refine ⟨⟨hlinks, hlive, ?_, ?_, ?_⟩, ⟨hpre ▸ hs.ne_zero, ?_, ?_⟩⟩
  · intro p hp
    rcases mem_append.mp hp with hp | hp
    · exact haf.owned p (by simp [hp])
    · rw [hsame p hp]
      exact h.owned p (by simp [hp])
  · intro p hp
    have hmem : seg (d'.s.entry p) ∈ d'.s.segs K' := mem_map_of_mem hp
    rw [haf.segK] at hmem
    rcases mem_append.mp hmem with hmem | hmem
    · obtain ⟨x, hx, hxe⟩ := mem_map.mp hmem
      rw [← hxe]
      exact h.before x hx
    · have hcan : Canonical [seg (d.s.entry nl)] := ⟨by simpa using h.pos, pairwise_singleton _ _⟩
      exact ⟨(hcan.below A).pos _ hmem, hi_le_of_mem_below hmem⟩
  · rw [Grants.segs_congr hsame]
    exact ⟨fun e he => h.canonical.pos e (mem_cons_of_mem _ he),
      (pairwise_cons.mp h.canonical.apart).2⟩
  · rw [hpre]
    intro hp
    rcases mem_append.mp hp with hp | hp
    · rcases haf.sub.1 _ hp with hp | hp
      · exact hs.not_mem (mem_append_left _ hp)
      · exact hs.not_mem (by simp [hp])
    · exact hs.not_mem (by simp [hp])
  · rw [hpre, hentry]
    exact hs.oh

/-- What is cut after a visit. -/
theorem After.cut {d2 : Deletion} {K' K2 R : List ℕ} (haf : After d d' oh A B K nl rest K' [])
    (h : Walking d oh A K (nl :: rest)) (hs : Spare d oh (K ++ nl :: rest)) (hAB : A < B)
    (hc : Cut d' d2 oh A B (K' ++ rest) K2 R) : Cut d d2 oh A B (K ++ nl :: rest) K2 R := by
  have hw := (haf.walking h hs).1
  have hsame := haf.same_rest h hs
  obtain ⟨hpre, -⟩ := haf.spare rfl
  have hcons : d.s.segs (K ++ nl :: rest) = d.s.segs K ++ ([seg (d.s.entry nl)] ++ d.s.segs rest) :=
    Grants.segs_append
  refine ⟨hc.links, hc.live, ?_, ?_, hc.owned, ?_, ?_, hc.fe.trans haf.fe⟩
  · rw [hc.segK, Grants.segs_append, below_append, hw.below_eq, haf.segK, Grants.segs_congr hsame,
      hcons, below_append, below_append, h.below_eq, append_assoc]
  · have hnl : above B [seg (d.s.entry nl)] = [] := haf.segX.symm
    rw [hc.segR, Grants.segs_append, above_append, hw.above_eq hAB, Grants.segs_congr hsame, hcons,
      above_append, above_append, h.above_eq hAB, hnl, nil_append, nil_append]
  · intro p hp hp'
    rw [mem_append, mem_cons, not_or, not_or] at hp
    have hpK : p ∉ K' := fun hm => (haf.sub.1 p hm).elim hp.1 hp.2.1
    rw [hc.same p (by simp [hpK, hp.2.2]) (hpre ▸ hp')]
    exact haf.same p hp.2.1 hp'
  · intro p hp
    rcases hc.sub p hp with hp | hp
    · rcases mem_append.mp hp with hp | hp
      · rcases haf.sub.1 p hp with hp | hp
        · exact Or.inl (mem_append_left _ hp)
        · exact Or.inl (by simp [hp])
      · exact Or.inl (by simp [hp])
    · exact Or.inr (hp.trans hpre)

/-- The walk ends behind a lock that reaches over the upper bound. -/
theorem After.last {K' X : List ℕ} (haf : After d d' oh A B K nl rest K' X)
    (h : Walking d oh A K (nl :: rest)) (hs : Spare d oh (K ++ nl :: rest)) (hAB : A < B)
    (hrest : ∀ x ∈ rest, B ≤ (seg (d.s.entry x)).lo) :
    Cut d d' oh A B (K ++ nl :: rest) K' (X ++ rest) := by
  have hsame := haf.same_rest h hs
  have hcons : d.s.segs (K ++ nl :: rest) = d.s.segs K ++ ([seg (d.s.entry nl)] ++ d.s.segs rest) :=
    Grants.segs_append
  have hseg : ∀ e ∈ d.s.segs rest, B ≤ e.lo ∧ e.lo < e.hi := fun e he => by
    obtain ⟨p, hp, rfl⟩ := mem_map.mp he
    exact ⟨hrest p hp, h.canonical.pos _ (mem_cons_of_mem _ he)⟩
  refine ⟨?_, ?_, ?_, ?_, ?_, ?_, ?_, haf.fe⟩
  · rw [← append_assoc]
    exact haf.links
  · rw [← append_assoc]
    exact haf.live
  · rw [haf.segK, hcons, below_append, below_append, h.below_eq,
      below_eq_nil fun e he => (le_of_lt hAB).trans (hseg e he).1, append_nil]
  · rw [Grants.segs_append, haf.segX, Grants.segs_congr hsame, hcons, above_append, above_append,
      h.above_eq hAB, nil_append,
      above_eq_self fun e he => ⟨(hseg e he).1, lt_of_le_of_lt (hseg e he).1 (hseg e he).2⟩]
  · intro p hp
    rw [← append_assoc] at hp
    rcases mem_append.mp hp with hp | hp
    · exact haf.owned p hp
    · rw [hsame p hp]
      exact h.owned p (by simp [hp])
  · intro p hp hp'
    rw [mem_append, mem_cons, not_or, not_or] at hp
    exact haf.same p hp.2.1 hp'
  · intro p hp
    simp only [mem_append] at hp
    rcases hp with hp | hp | hp
    · rcases haf.sub.1 p hp with hp | hp
      · exact Or.inl (mem_append_left _ hp)
      · exact Or.inl (by simp [hp])
    · rcases haf.sub.2 p hp with hp | hp
      · exact Or.inl (by simp [hp])
      · exact Or.inr hp
    · exact Or.inl (by simp [hp])

/-- **`delete_reclock`** cuts the locks, and keeps `insrtp` in front of the request. -/
theorem walk_spec (h : Walking d oh A K rest) (hs : Spare d oh (K ++ rest)) (hoh : a.lck.oh = oh)
    (ha : A = a.lck.lb.toNat) (hb : B = a.lck.ub.toNat) (hAB : A < B) {fuel : ℕ}
    (hfuel : rest.length < fuel) :
    ∃ d' K' R, walk a fuel (rest.headD 0) d = some d' ∧ Cut d d' oh A B (K ++ rest) K' R ∧
      (d.s.At d.insrtp A K rest → d'.insrtp = K'.getLast?.getD 0) := by
  induction rest generalizing d K fuel with
  | nil =>
    obtain ⟨fuel, rfl⟩ := Nat.exists_eq_succ_of_ne_zero (Nat.ne_zero_of_lt hfuel)
    refine ⟨d, K, [], if_neg fun hc => hc.1 rfl, h.stop hAB (by simp), ?_⟩
    rintro (⟨hi, -⟩ | ⟨rest', heq, -⟩)
    · exact hi
    · cases heq
  | cons nl rest ih =>
    obtain ⟨fuel, rfl⟩ := Nat.exists_eq_succ_of_ne_zero (Nat.ne_zero_of_lt hfuel)
    have h0 : nl ≠ 0 := h.links.ne_zero (by simp)
    have hub : (d.s.entry nl).lck.lb < a.lck.ub ↔ (seg (d.s.entry nl)).lo < B := by
      rw [hb]
      exact UInt32.lt_iff_toNat_lt
    rw [headD_cons, walk]
    by_cases hlt : (seg (d.s.entry nl)).lo < B
    · rw [if_pos ⟨h0, hub.mpr hlt⟩]
      obtain ⟨d1, K1, X, hvisit, haf, hX⟩ := h.visit hs hoh ha hb hAB hlt
      rw [hvisit, Option.bind_some, h.links.linked.nxt_eq]
      have hnext : d.s.At d.insrtp A K (nl :: rest) → d1.s.At d1.insrtp A K1 rest := fun hat => by
        obtain ⟨hi, hle⟩ := haf.insrtp hat
        exact Or.inl ⟨hi, fun x hx => by rw [haf.same_rest h hs x hx]; exact hle x hx⟩
      rcases hX with rfl | hhi
      · obtain ⟨hw, hs1⟩ := haf.walking h hs
        obtain ⟨d2, K2, R, hwalk, hcut, hat⟩ := ih hw hs1 (by simpa using hfuel)
        exact ⟨d2, K2, R, hwalk, haf.cut h hs hAB hcut, fun h => hat (hnext h)⟩
      · have hrest : ∀ x ∈ rest, B ≤ (seg (d.s.entry x)).lo := fun x hx =>
          (le_of_lt hhi).trans (h.later x hx)
        refine ⟨d1, K1, X ++ rest, ?_, haf.last h hs hAB hrest, fun hat => (haf.insrtp hat).1⟩
        obtain ⟨fuel, rfl⟩ := Nat.exists_eq_succ_of_ne_zero (n := fuel) (by
          simp only [length_cons] at hfuel
          omega)
        refine if_neg fun hc => ?_
        cases rest with
        | nil => exact hc.1 rfl
        | cons x rest =>
          have hlt := UInt32.lt_iff_toNat_lt.mp hc.2
          rw [headD_cons, haf.same_rest h hs x mem_cons_self, ← hb] at hlt
          exact absurd (hrest x mem_cons_self) (not_le.mpr hlt)
    · rw [if_neg fun hc => hlt (hub.mp hc.2)]
      have hle : ∀ x ∈ nl :: rest, B ≤ (seg (d.s.entry x)).lo := fun x hx =>
        (not_lt.mp hlt).trans (Grants.lo_le_of_canonical h.canonical hx)
      refine ⟨d, K, nl :: rest, rfl, h.stop hAB hle, ?_⟩
      rintro (⟨hi, -⟩ | ⟨rest', heq, hlo, -⟩)
      · exact hi
      · obtain ⟨rfl, -⟩ := cons.inj heq
        exact absurd (hle _ mem_cons_self) (not_le.mpr (lt_of_le_of_lt hlo hAB))

end Deletion

end Lockd
