/-
# `rmfree` puts units back

The units given back lie in a gap between two segments.  They join the segment on
the left, the one on the right, both, or become a segment of their own; when that
would need a slot and none is left, the smaller of the last two segments is
discarded first, and the retry then finds a slot.
-/
import SunOS.Kern.RmapSegs

namespace Rmap

open List
open Segments

variable {l : List mapent}

/-- `m'` is `m` with the `size` units from `a` on put back. -/
def Adds (m m' : map) (l : List mapent) (a size : ℤ) : Prop :=
  ∃ l', Holds m' l' ∧ m'.slots.length = m.slots.length ∧ nameOf m'.slots = nameOf m.slots ∧
    cover lo hi l' = cover lo hi l ∪ Set.Ico a (a + size)

/-- The units abut a segment. -/
def Touches (l : List mapent) (a size : ℤ) : Prop := ∃ s ∈ l, hi s = a ∨ lo s = a + size

instance (l : List mapent) (a size : ℤ) : Decidable (Touches l a size) :=
  inferInstanceAs (Decidable (∃ s ∈ l, hi s = a ∨ lo s = a + size))

/-- The units lie between the segments `l1` and the segments `l2`. -/
structure Gap (l1 l2 : List mapent) (a size : ℤ) : Prop where
  left : ∀ x ∈ l1, hi x ≤ a
  right : ∀ x ∈ l2, a + size ≤ lo x

/-- Where the walk of `rmfree` goes on: past segments that start no later. -/
def startsBefore (addr : ℤ) (b : mapent) : Bool := decide (b.m_addr ≤ addr ∧ b.m_size ≠ 0)

/-- Units disjoint from the segments lie in a gap, and the walk stops there. -/
theorem gap_of_disjoint {m : map} (h : Holds m l) {a size : ℤ} (hpos : 0 < size)
    (hdis : Disjoint (Set.Ico a (a + size)) (cover lo hi l)) :
    Gap (l.takeWhile (startsBefore a)) (l.dropWhile (startsBefore a)) a size := by
  have hside : ∀ x ∈ l, hi x ≤ a ∨ a + size ≤ lo x := by
    intro x hx
    obtain ⟨hx1, hx2, -⟩ := h.sound x hx
    by_contra hc
    push Not at hc
    have hmem : max a (lo x) ∈ Set.Ico a (a + size) := by
      simp only [Set.mem_Ico, lo] at *
      lia
    refine Set.disjoint_left.mp hdis hmem ⟨x, hx, ?_, ?_⟩
    · simp [lo]
    · simp only [lo, hi] at *
      lia
  have hl := takeWhile_append_dropWhile (p := startsBefore a) (l := l)
  constructor
  · intro x hx
    have hp : startsBefore a x = true := mem_takeWhile_imp hx
    simp only [startsBefore, decide_eq_true_eq] at hp
    rcases hside x ( takeWhile_prefix _ |>.subset hx) with hxa | hxa
    · exact hxa
    · simp only [lo] at hxa
      lia
  · intro x hx
    have hxl : x ∈ l := (dropWhile_suffix _).subset hx
    have hlt : a < lo x := by
      cases hd : l.dropWhile (startsBefore a) with
      | nil => simp [hd] at hx
      | cons b l2 =>
        have hb : startsBefore a b = false := by
          have := head_dropWhile_not (startsBefore a) (l := l) (by simp [hd])
          simpa [hd] using this
        have hbl : b ∈ l := (dropWhile_suffix _).subset (hd ▸ mem_cons_self)
        obtain ⟨hb1, hb2, -⟩ := h.sound b hbl
        simp only [startsBefore, decide_eq_false_iff_not] at hb
        rw [hd] at hx hl
        rcases List.mem_cons.mp hx with rfl | hx
        · simp only [lo]
          lia
        · have hap := h.apart
          rw [← hl, Apart, pairwise_append, pairwise_cons] at hap
          have hbx : hi b < lo x := hap.2.1.1 x hx
          simp only [lo, hi] at *
          lia
    rcases hside x hxl with hxa | hxa
    · obtain ⟨-, hx2, -⟩ := h.sound x hxl
      simp only [lo, hi] at *
      lia
    · exact hxa

variable {m m' : map} {l1 l2 : List mapent} {t : mapent} {ts : List mapent} {a size : ℤ}

/-- Replacing the segments `old` by one segment that covers them and the units
put back. -/
theorem adds_of_splice {old : List mapent} {e t' : mapent} {ts' : List mapent}
    (h : Holds m (l1 ++ old ++ l2)) (hm : m.slots = l1 ++ old ++ l2 ++ t :: ts)
    (hsl : m'.slots = l1 ++ [e] ++ l2 ++ t' :: ts') (hz : Zeros (t' :: ts'))
    (hlen : m'.slots.length = m.slots.length) (hroom : ts'.length = m'.m_free)
    (hname : nameOf (t' :: ts') = nameOf (t :: ts)) (he : Sound e)
    (hl : ∀ x ∈ l1, hi x < lo e) (hr : ∀ x ∈ l2, hi e < lo x)
    (hcov : Set.Ico (lo e) (hi e) = cover lo hi old ∪ Set.Ico a (a + size)) :
    Adds m m' (l1 ++ old ++ l2) a size := by
  refine ⟨l1 ++ [e] ++ l2, ⟨⟨t' :: ts', hsl, hz, by simp [hroom]⟩, ?_, ?_⟩, hlen, ?_, ?_⟩
  · intro x hx
    simp only [append_assoc, mem_append, mem_singleton] at hx
    rcases hx with hx | rfl | hx
    · exact h.sound x (by simp [hx])
    · exact he
    · exact h.sound x (by simp [hx])
  · have hsub : (l1 ++ l2).Sublist (l1 ++ old ++ l2) :=
      (sublist_append_left l1 old).append_right l2
    exact Apart.splice (h.apart.sublist hsub) (pairwise_singleton _ _)
      (fun x hx y hy => by rw [List.mem_singleton.mp hy]; exact hl x hx)
      (fun y hy x hx => by rw [List.mem_singleton.mp hy]; exact hr x hx)
  · rw [hsl, hm, nameOf_append, nameOf_append, hname]
  · ext u
    simp only [cover_append, cover_cons, cover_nil, Set.union_empty, hcov, Set.mem_union]
    tauto

/-! ## Reducing a turn to the gap -/

variable {rest slots : List mapent}

/-- The left neighbour abuts. -/
theorem rmfreeTurn_left {p bp : mapent} (free : ℕ) (hp : Sound p)
    (hsplit : slots.takeWhile (startsBefore a) = l1 ++ [p])
    (hdrop : slots.dropWhile (startsBefore a) = bp :: rest) (hend : hi p = a) :
    rmfreeTurn free size a slots = freeLeft free size a l1 p bp rest := by
  have hmax : INT_MAX = 2147483647 := rfl
  obtain ⟨hp1, hp2, hp3⟩ := hp
  have hadd : int32 (p.m_addr + p.m_size) = a := by
    rw [int32_of_fits (by rw [fits_iff]; omega)]
    exact hend
  unfold startsBefore at hsplit hdrop
  unfold rmfreeTurn
  simp only [hsplit, hdrop, reverse_append, reverse_singleton, singleton_append, hadd]
  rw [if_pos (le_refl a), if_neg (lt_irrefl a), reverse_reverse]

/-- No left neighbour abuts. -/
theorem rmfreeTurn_apart {bp : mapent} (free : ℕ)
    (hs : ∀ x ∈ l1, Sound x) (hsplit : slots.takeWhile (startsBefore a) = l1)
    (hdrop : slots.dropWhile (startsBefore a) = bp :: rest) (hend : ∀ x ∈ l1, hi x < a) :
    rmfreeTurn free size a slots = freeApart free size a l1 bp rest := by
  have hmax : INT_MAX = 2147483647 := rfl
  unfold startsBefore at hsplit hdrop
  unfold rmfreeTurn
  simp only [hsplit, hdrop]
  cases hrev : l1.reverse with
  | nil => rw [List.reverse_eq_nil_iff.mp hrev]
  | cons p before =>
    have hl : l1 = before.reverse ++ [p] := by
      rw [← reverse_reverse l1, hrev, reverse_cons]
    obtain ⟨hp1, hp2, hp3⟩ := hs p (by simp [hl])
    have hlt : p.m_addr + p.m_size < a := hend p (by simp [hl])
    have hadd : int32 (p.m_addr + p.m_size) = p.m_addr + p.m_size :=
      int32_of_fits (by rw [fits_iff]; omega)
    simp only [hadd]
    rw [if_neg (by omega), ← hl]

/-! ## The cases of the gap -/

/-- Either the last segment before the gap abuts, or none does. -/
theorem left_cases (hs : ∀ x ∈ l1, Sound x) (hap : Apart lo hi l1) (hg : ∀ x ∈ l1, hi x ≤ a) :
    (∃ l p, l1 = l ++ [p] ∧ hi p = a) ∨ ∀ x ∈ l1, hi x < a := by
  rcases eq_nil_or_concat l1 with rfl | ⟨l, p, rfl⟩
  · right
    simp
  · rw [concat_eq_append] at *
    rw [Apart, pairwise_append] at hap
    have hp : hi p ≤ a := hg p (by simp)
    rcases eq_or_lt_of_le hp with heq | hlt
    · exact Or.inl ⟨l, p, rfl, heq⟩
    · right
      intro x hx
      rcases List.mem_append.mp hx with hx | hx
      · have hxp : hi x < lo p := hap.2.2 x hx p (by simp)
        obtain ⟨-, hp2, -⟩ := hs p (by simp)
        simp only [lo, hi] at *
        omega
      · rw [List.mem_singleton.mp hx]
        exact hlt

/-- Either the first segment after the gap abuts, or none does and the entry the
walk stopped at does not make the code think so. -/
theorem right_cases (ts : List mapent) (hs : ∀ x ∈ l2, Sound x) (hap : Apart lo hi l2)
    (hfit : int32 (a + size) = a + size) (hg : ∀ x ∈ l2, a + size ≤ lo x) (ht : t.m_size = 0) :
    (∃ b l, l2 = b :: l ∧ lo b = a + size) ∨
      ((∀ x ∈ l2, a + size < lo x) ∧ ∃ bp rest, l2 ++ t :: ts = bp :: rest ∧
        ¬ (int32 (a + size) ≥ bp.m_addr ∧ bp.m_size ≠ 0)) := by
  cases l2 with
  | nil => exact Or.inr ⟨by simp, t, ts, rfl, by simp [ht]⟩
  | cons b l =>
    rw [Apart, pairwise_cons] at hap
    have hb : a + size ≤ lo b := hg b (by simp)
    rcases eq_or_lt_of_le hb with heq | hlt
    · exact Or.inl ⟨b, l, rfl, heq.symm⟩
    · refine Or.inr ⟨fun x hx => ?_, b, l ++ t :: ts, rfl, ?_⟩
      · rcases List.mem_cons.mp hx with rfl | hx
        · exact hlt
        · have hbx : hi b < lo x := hap.1 x hx
          obtain ⟨-, hb2, -⟩ := hs b (by simp)
          simp only [lo, hi] at *
          omega
      · rw [hfit]
        simp only [lo] at hlt
        omega

/-- What the code has found out when a turn starts: the segments around the gap,
and the units to be put into it. -/
structure InGap (m : map) (l1 l2 : List mapent) (t : mapent) (ts : List mapent) (a size : ℤ) :
    Prop where
  holds : Holds m (l1 ++ l2)
  slots : m.slots = l1 ++ l2 ++ t :: ts
  zeros : Zeros (t :: ts)
  room : ts.length = m.m_free
  gap : Gap l1 l2 a size
  pos : 0 < a ∧ 0 < size ∧ a + size ≤ INT_MAX
  walk : m.slots.takeWhile (startsBefore a) = l1 ∧
    m.slots.dropWhile (startsBefore a) = l2 ++ t :: ts

theorem inGap_of_disjoint (h : Holds m l) (hpos : 0 < a ∧ 0 < size ∧ a + size ≤ INT_MAX)
    (hdis : Disjoint (Set.Ico a (a + size)) (cover lo hi l)) :
    ∃ l1 l2 t ts, l = l1 ++ l2 ∧ InGap m l1 l2 t ts a size := by
  obtain ⟨tl, hsl, hz, hlen⟩ := h.slots
  cases tl with
  | nil => simp at hlen
  | cons t ts =>
    have ht : t.m_size = 0 := hz t (by simp)
    have hwalk := walk_split (p := startsBefore a) l (t := t) (by simp [startsBefore, ht]) ts
    have hl := (takeWhile_append_dropWhile (p := startsBefore a) (l := l)).symm
    refine ⟨_, _, t, ts, hl, ?_, ?_, hz, by simpa using hlen, gap_of_disjoint h hpos.2.1 hdis,
      hpos, ?_⟩
    · rw [← hl]
      exact h
    · rw [← hl, hsl]
    · rw [hsl]
      exact hwalk

/-- The segment before the gap abuts: it grows, perhaps over the gap into the
segment after it. -/
theorem adds_left {p : mapent} (h : InGap m (l ++ [p]) l2 t ts a size) (hend : hi p = a) :
    ∃ slots free, rmfreeTurn m.m_free size a m.slots = some (.done slots free) ∧
      ∀ want, Adds m ⟨free, want, slots⟩ (l ++ [p] ++ l2) a size := by
  have hmax : INT_MAX = 2147483647 := rfl
  obtain ⟨hpos1, hpos2, hpos3⟩ := h.pos
  have hfit : int32 (a + size) = a + size := int32_of_fits (by rw [fits_iff]; lia)
  have hs := h.holds.sound
  obtain ⟨hp1, hp2, hp3⟩ := hs p (by simp)
  have hend' : p.m_addr + p.m_size = a := hend
  have hjoin : int32 (p.m_size + size) = p.m_size + size :=
    int32_of_fits (by rw [fits_iff]; lia)
  have hap := h.holds.apart
  rw [Apart, pairwise_append, pairwise_append] at hap
  have hleft : ∀ x ∈ l, hi x < lo p := fun x hx => hap.1.2.2 x hx p (by simp)
  have ht : t.m_size = 0 := h.zeros t (by simp)
  rcases right_cases ts (fun x hx => hs x (by simp [hx])) hap.2.1 hfit h.gap.right ht with
    ⟨b, l3, rfl, hlo⟩ | ⟨hclear, bp, rest, heq, hno⟩
  · -- both neighbours abut: three become one
    obtain ⟨hb1, hb2, hb3⟩ := hs b (by simp)
    have hlo' : b.m_addr = a + size := hlo
    have hne : ∀ x ∈ l3, x.m_size ≠ 0 := fun x hx => h.holds.ne_zero x (by simp [hx])
    have hjoin' : int32 (p.m_size + size + b.m_size) = p.m_size + size + b.m_size :=
      int32_of_fits (by rw [fits_iff]; lia)
    have hdrop : m.slots.dropWhile (startsBefore a) = b :: (l3 ++ t :: ts) := h.walk.2
    rw [rmfreeTurn_left m.m_free ⟨hp1, hp2, hp3⟩ h.walk.1 hdrop hend]
    simp only [freeLeft, hfit, hjoin, hjoin']
    rw [if_pos ⟨by lia, by lia⟩, if_neg (by lia), compress_segs b hne ht]
    refine ⟨_, _, rfl, fun want => ?_⟩
    have hh := h.holds
    have hsl := h.slots
    have hshape : l ++ [p] ++ b :: l3 = l ++ [p, b] ++ l3 := by simp
    rw [hshape] at hh hsl ⊢
    refine adds_of_splice (e := ⟨p.m_size + size + b.m_size, p.m_addr⟩) hh hsl (by simp) ?_ ?_
      (by simp [h.room]) (nameOf_cons t t ts) ?_ ?_ ?_ ?_
    · intro x hx
      rcases List.mem_cons.mp hx with rfl | hx
      · exact ht
      · exact h.zeros x hx
    · simp [h.slots]
      lia
    · exact ⟨hp1, by simp only; lia, by simp only; lia⟩
    · exact hleft
    · intro x hx
      have hbx : hi b < lo x := (List.pairwise_cons.mp hap.2.1).1 x hx
      simp only [hi] at *
      lia
    · ext u
      simp only [cover_cons, cover_nil, lo, hi, Set.union_empty, Set.mem_union, Set.mem_Ico]
      lia
  · rw [rmfreeTurn_left m.m_free ⟨hp1, hp2, hp3⟩ h.walk.1 (by rw [h.walk.2, heq]) hend]
    simp only [freeLeft, hjoin]
    rw [if_neg (fun hc => hno ⟨hc.2, hc.1⟩), ← heq]
    refine ⟨_, _, rfl, fun want => ?_⟩
    refine adds_of_splice (e := ⟨p.m_size + size, p.m_addr⟩) h.holds h.slots (by simp) h.zeros
      (by simp [h.slots]) h.room rfl ?_ hleft ?_ ?_
    · exact ⟨hp1, by simp only; lia, by simp only; lia⟩
    · intro x hx
      have hx' := hclear x hx
      simp only [hi] at *
      lia
    · ext u
      simp only [cover_cons, cover_nil, lo, hi, Set.union_empty, Set.mem_union, Set.mem_Ico]
      lia

/-- No segment before the gap abuts: the one after it does, or the units take a
slot, or there is none left. -/
theorem adds_apart (h : InGap m l1 l2 t ts a size) (hclear1 : ∀ x ∈ l1, hi x < a) :
    (∃ slots free, rmfreeTurn m.m_free size a m.slots = some (.done slots free) ∧
      (0 < m.m_free ∨ Touches (l1 ++ l2) a size) ∧
      ∀ want, Adds m ⟨free, want, slots⟩ (l1 ++ l2) a size) ∨
    (m.m_free = 0 ∧ (∀ x ∈ l2, a + size < lo x) ∧
      rmfreeTurn 0 size a m.slots = (discard m.slots).map fun slots => .retry slots 1) := by
  have hmax : INT_MAX = 2147483647 := rfl
  obtain ⟨hpos1, hpos2, hpos3⟩ := h.pos
  have hfit : int32 (a + size) = a + size := int32_of_fits (by rw [fits_iff]; lia)
  have hs := h.holds.sound
  have hap := h.holds.apart
  rw [Apart, pairwise_append] at hap
  have ht : t.m_size = 0 := h.zeros t (by simp)
  have hs1 : ∀ x ∈ l1, Sound x := fun x hx => hs x (by simp [hx])
  rcases right_cases ts (fun x hx => hs x (by simp [hx])) hap.2.1 hfit h.gap.right ht with
    ⟨b, l3, rfl, hlo⟩ | ⟨hclear, bp, rest, heq, hno⟩
  · left
    obtain ⟨hb1, hb2, hb3⟩ := hs b (by simp)
    have hlo' : b.m_addr = a + size := hlo
    have hsz : int32 (b.m_size + size) = b.m_size + size :=
      int32_of_fits (by rw [fits_iff]; lia)
    have had : int32 (b.m_addr - size) = a := by
      rw [int32_of_fits (by rw [fits_iff]; lia)]
      lia
    have hdrop : m.slots.dropWhile (startsBefore a) = b :: (l3 ++ t :: ts) := h.walk.2
    rw [rmfreeTurn_apart m.m_free hs1 h.walk.1 hdrop hclear1]
    simp only [freeApart, hfit, hsz, had]
    rw [if_pos ⟨by lia, by lia⟩, if_neg (by lia)]
    refine ⟨_, _, rfl, Or.inr ⟨b, by simp, Or.inr hlo⟩, fun want => ?_⟩
    have hh := h.holds
    have hsl := h.slots
    have hshape : l1 ++ b :: l3 = l1 ++ [b] ++ l3 := by simp
    rw [hshape] at hh hsl ⊢
    refine adds_of_splice (e := ⟨b.m_size + size, a⟩) hh hsl (by simp) h.zeros
      (by simp [h.slots]) h.room rfl ?_ hclear1 ?_ ?_
    · exact ⟨hpos1, by simp only; lia, by simp only; lia⟩
    · intro x hx
      have hbx : hi b < lo x := (List.pairwise_cons.mp hap.2.1).1 x hx
      simp only [hi] at *
      lia
    · ext u
      simp only [cover_cons, cover_nil, lo, hi, Set.union_empty, Set.mem_union, Set.mem_Ico]
      lia
  · by_cases hfree : m.m_free = 0
    · right
      refine ⟨hfree, hclear, ?_⟩
      rw [rmfreeTurn_apart 0 hs1 h.walk.1 (by rw [h.walk.2, heq]) hclear1]
      simp only [freeApart]
      rw [if_neg hno, if_pos trivial, ← heq, ← append_assoc, ← h.slots]
    · left
      rw [rmfreeTurn_apart m.m_free hs1 h.walk.1 (by rw [h.walk.2, heq]) hclear1]
      simp only [freeApart]
      rw [if_neg hno, if_neg hfree, ← heq,
        pushUp_segs _ (fun x hx => h.holds.ne_zero x (by simp [hx])) ht]
      refine ⟨_, _, rfl, Or.inl (Nat.pos_of_ne_zero hfree), fun want => ?_⟩
      have hroom := h.room
      have hsl := h.slots
      have hz := h.zeros
      cases ts with
      | nil => exact absurd hroom.symm hfree
      | cons n ts =>
        have hh := h.holds
        have hshape : l1 ++ l2 = l1 ++ [] ++ l2 := by simp
        rw [hshape] at hh hsl ⊢
        rw [length_cons] at hroom
        refine adds_of_splice (e := ⟨size, a⟩) hh hsl (by simp) (fun x hx => hz x (by simp [hx]))
          (by rw [hsl]; simp; lia) (by simp only; lia) (nameOf_cons t n ts).symm ?_ hclear1 ?_ ?_
        · exact ⟨hpos1, hpos2, by simp only; lia⟩
        · intro x hx
          have hx' := hclear x hx
          simp only [hi] at *
          lia
        · ext u
          simp only [cover_nil, lo, hi, Set.empty_union, Set.mem_Ico]

/-- A turn of `rmfree` puts the units back, unless they need a slot and none is
left. -/
theorem rmfreeTurn_cases (h : Holds m l) (hpos : 0 < a ∧ 0 < size ∧ a + size ≤ INT_MAX)
    (hdis : Disjoint (Set.Ico a (a + size)) (cover lo hi l)) :
    (∃ slots free, rmfreeTurn m.m_free size a m.slots = some (.done slots free) ∧
      (0 < m.m_free ∨ Touches l a size) ∧ ∀ want, Adds m ⟨free, want, slots⟩ l a size) ∨
    (m.m_free = 0 ∧ ¬ Touches l a size ∧
      rmfreeTurn 0 size a m.slots = (discard m.slots).map fun slots => .retry slots 1) := by
  obtain ⟨l1, l2, t, ts, rfl, hin⟩ := inGap_of_disjoint h hpos hdis
  have hap := h.apart
  rw [Apart, pairwise_append] at hap
  rcases left_cases (fun x hx => h.sound x (by simp [hx])) hap.1 hin.gap.left with
    ⟨l, p, rfl, hp⟩ | hclear
  · obtain ⟨slots, free, hturn, hadds⟩ := adds_left hin hp
    exact Or.inl ⟨slots, free, hturn, Or.inr ⟨p, by simp, Or.inl hp⟩, hadds⟩
  · have htouch : (∀ x ∈ l2, a + size < lo x) → ¬ Touches (l1 ++ l2) a size := by
      rintro hclear2 ⟨x, hx, hxa⟩
      rcases List.mem_append.mp hx with hx | hx
      · obtain ⟨-, hx2, -⟩ := h.sound x (by simp [hx])
        have := hclear x hx
        simp only [lo, hi] at *
        omega
      · obtain ⟨-, hx2, -⟩ := h.sound x (by simp [hx])
        have := hclear2 x hx
        simp only [lo, hi] at *
        omega
    rcases adds_apart hin hclear with hdone | ⟨hfree, hclear2, hturn⟩
    · exact Or.inl hdone
    · exact Or.inr ⟨hfree, htouch hclear2, hturn⟩

/-! ## Overflow -/

/-- Of the last two segments, the one overflow discards. -/
def lost (x y : mapent) : mapent := if y.m_size > x.m_size then x else y

/-- Of the last two segments, the one overflow keeps. -/
def kept (x y : mapent) : mapent := if y.m_size > x.m_size then y else x

/-- Overflow discards one of the last two segments and sets its slot free. -/
theorem discard_holds {x y : mapent} (h : Holds m (l ++ [x, y])) (hfree : m.m_free = 0) :
    ∃ slots, discard m.slots = some slots ∧ slots.length = m.slots.length ∧
      nameOf slots = nameOf m.slots ∧ (∀ want, Holds ⟨1, want, slots⟩ (l ++ [kept x y])) ∧
      cover lo hi (l ++ [kept x y]) =
        cover lo hi (l ++ [x, y]) \ Set.Ico (lo (lost x y)) (hi (lost x y)) := by
  obtain ⟨tl, hsl, hz, hlen⟩ := h.slots
  rw [hfree] at hlen
  obtain ⟨t, rfl⟩ := List.length_eq_one_iff.mp hlen
  have ht : t.m_size = 0 := hz t (by simp)
  have hsegs : (segs m.slots).reverse = y :: x :: l.reverse := by
    rw [h.segs_eq]
    simp
  have hdrop : m.slots.dropWhile (fun b => decide (b.m_size ≠ 0)) = [t] := by
    rw [hsl, (walk_split _ (by simp [ht]) []).2, List.dropWhile_eq_nil_iff.mpr]
    · rfl
    · intro b hb
      simpa using h.ne_zero b hb
  have hap := h.apart
  have hx := h.sound x (by simp)
  have hy := h.sound y (by simp)
  unfold discard
  rw [hsegs]
  simp only [hdrop]
  by_cases hlt : y.m_size > x.m_size
  · rw [if_pos hlt]
    have hk : kept x y = y := if_pos hlt
    have hlo : lost x y = x := if_pos hlt
    rw [hk, hlo]
    refine ⟨_, rfl, by simp [hsl], ?_, fun want =>
      ⟨⟨[{ y with m_size := 0 }, t], ?_, ?_, rfl⟩, ?_, ?_⟩, ?_⟩
    · rw [hsl, nameOf_append]
      simp [nameOf]
    · simp
    · simp [Zeros, ht]
    · intro b hb
      rcases List.mem_append.mp hb with hb | hb
      · exact h.sound b (by simp [hb])
      · rw [List.mem_singleton.mp hb]
        exact hy
    · exact hap.sublist (List.Sublist.append_left (sublist_cons_self x [y]) l)
    · have hc := cover_carve [] hap.ordered (subset_refl _) (by simp)
      simpa using hc
  · rw [if_neg hlt]
    have hk : kept x y = x := if_neg hlt
    have hlo : lost x y = y := if_neg hlt
    rw [hk, hlo]
    refine ⟨_, rfl, by simp [hsl], ?_, fun want =>
      ⟨⟨[t, { t with m_size := 0 }], ?_, ?_, rfl⟩, ?_, ?_⟩, ?_⟩
    · rw [hsl, nameOf_append]
      simp [nameOf]
    · simp
    · simp [Zeros, ht]
    · intro b hb
      rcases List.mem_append.mp hb with hb | hb
      · exact h.sound b (by simp [hb])
      · rw [List.mem_singleton.mp hb]
        exact hx
    · refine hap.sublist (List.Sublist.append_left ?_ l)
      exact List.Sublist.cons_cons x (nil_sublist [y])
    · have hshape : l ++ [x, y] = (l ++ [x]) ++ y :: [] := by simp
      rw [hshape] at hap ⊢
      have hc := cover_carve [] hap.ordered (subset_refl _) (by simp)
      simpa using hc

/-- `m'` is `m` with the units put back and one of the last two segments lost. -/
def AddsLosing (m m' : map) (l : List mapent) (a size : ℤ) : Prop :=
  ∃ l0 x y, l = l0 ++ [x, y] ∧ ∃ l', Holds m' l' ∧ m'.slots.length = m.slots.length ∧
    nameOf m'.slots = nameOf m.slots ∧
    cover lo hi l' =
      cover lo hi l \ Set.Ico (lo (lost x y)) (hi (lost x y)) ∪ Set.Ico a (a + size)

/-- `rmfree` puts the units back; it loses a segment exactly when they need a slot
and none is left. -/
theorem rmfree_holds (h : Holds m l) (hcap : 2 ≤ l.length + m.m_free)
    (hpos : 0 < a ∧ 0 < size ∧ a + size ≤ INT_MAX)
    (hdis : Disjoint (Set.Ico a (a + size)) (cover lo hi l)) :
    ∃ m', rmfree size a m = some m' ∧
      if 0 < m.m_free ∨ Touches l a size then Adds m m' l a size
      else AddsLosing m m' l a size := by
  have hfuel : ∃ k, m.slots.length + 1 = k + 2 := by
    obtain ⟨tl, hsl, -, hlen⟩ := h.slots
    refine ⟨m.slots.length - 1, ?_⟩
    rw [hsl, length_append]
    omega
  obtain ⟨k, hk⟩ := hfuel
  rw [rmfree, if_neg (by omega), hk]
  rcases rmfreeTurn_cases h hpos hdis with ⟨slots, free, hturn, hcase, hadds⟩ |
    ⟨hfree, htouch, hturn⟩
  · rw [rmfreeLoop, hturn]
    exact ⟨_, rfl, by rw [if_pos hcase]; exact hadds 0⟩
  · have hne : ¬ (0 < m.m_free ∨ Touches l a size) := by
      rintro (hc | hc)
      · omega
      · exact htouch hc
    obtain ⟨l0, x, y, rfl⟩ : ∃ l0 x y, l = l0 ++ [x, y] := by
      rcases eq_nil_or_concat l with rfl | ⟨l1, y, rfl⟩
      · simp at hcap
        omega
      · rcases eq_nil_or_concat l1 with rfl | ⟨l0, x, rfl⟩
        · simp at hcap
          omega
        · exact ⟨l0, x, y, by simp⟩
    obtain ⟨slots, hdisc, hlen, hname, hholds, hcov⟩ := discard_holds h hfree
    have hdis' : Disjoint (Set.Ico a (a + size)) (cover lo hi (l0 ++ [kept x y])) := by
      rw [hcov]
      exact hdis.mono_right Set.sdiff_subset
    rw [rmfreeLoop, hfree, hturn, hdisc]
    simp only [Option.map_some]
    rcases rmfreeTurn_cases (hholds 0) hpos hdis' with ⟨slots', free, hturn', -, hadds⟩ |
      ⟨hfree', -⟩
    · rw [rmfreeLoop, hturn']
      obtain ⟨l', hl', hlen', hname', hcov'⟩ := hadds 0
      refine ⟨_, rfl, ?_⟩
      rw [if_neg (hfree ▸ hne)]
      exact ⟨l0, x, y, rfl, l', hl', hlen'.trans hlen, hname'.trans hname, by rw [hcov', hcov]⟩
    · simp at hfree'

end Rmap
