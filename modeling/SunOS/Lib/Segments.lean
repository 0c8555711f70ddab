/-
# Lists of segments

A segment is anything with a lower and an upper end, standing for the half-open
interval between them.  `cover` is the set of points a list of segments covers;
`Ordered` lists run upwards without overlapping and `Apart` lists moreover leave
a gap between neighbours.  The rules below say what replacing a piece of such a
list by other segments does to the order and to the set covered.
-/
import Mathlib.Order.Interval.Set.Basic
import Mathlib.Order.CompletePartialOrder
import Mathlib.Data.Set.Insert
import Mathlib.Tactic.Linarith

namespace Segments

open List

variable {α κ : Type*} [LinearOrder κ] (lo hi : α → κ)

variable {b : α} {l m xs : List α}

/-- The points a list of segments covers. -/
def cover (l : List α) : Set κ := {u | ∃ s ∈ l, lo s ≤ u ∧ u < hi s}

/-- The segments run upwards and do not overlap. -/
def Ordered (l : List α) : Prop := l.Pairwise (fun a b => hi a ≤ lo b)

/-- The segments run upwards and do not touch. -/
def Apart (l : List α) : Prop := l.Pairwise (fun a b => hi a < lo b)

variable {lo hi}

theorem mem_cover {l : List α} {u : κ} : u ∈ cover lo hi l ↔ ∃ s ∈ l, lo s ≤ u ∧ u < hi s :=
  Iff.rfl

@[simp] theorem cover_nil : cover lo hi ([] : List α) = ∅ := by
  ext u
  simp [mem_cover]

@[simp] theorem cover_cons (a : α) (l : List α) :
    cover lo hi (a :: l) = Set.Ico (lo a) (hi a) ∪ cover lo hi l := by
  ext u
  simp [mem_cover]

@[simp] theorem cover_append (l m : List α) :
    cover lo hi (l ++ m) = cover lo hi l ∪ cover lo hi m := by
  ext u
  simp [mem_cover, or_and_right, exists_or]

theorem Apart.ordered {l : List α} (h : Apart lo hi l) : Ordered lo hi l :=
  List.Pairwise.imp (fun hab => le_of_lt hab) h

/-- In an ordered list no other segment reaches into one of its segments. -/
theorem Ordered.disjoint_middle {l m : List α} (h : Ordered lo hi (l ++ b :: m)) :
    Disjoint (cover lo hi (l ++ m)) (Set.Ico (lo b) (hi b)) := by
  rw [Set.disjoint_left]
  rintro u ⟨s, hs, hlo, hhi⟩ ⟨hblo, hbhi⟩
  rw [Ordered, pairwise_append, pairwise_cons] at h
  obtain ⟨-, ⟨hm, -⟩, hl⟩ := h
  rcases List.mem_append.mp hs with hs | hs
  · have hle : hi s ≤ lo b := hl s hs b (by simp)
    exact absurd (lt_of_lt_of_le hhi (le_trans hle hblo)) (lt_irrefl u)
  · have hle : hi b ≤ lo s := hm s hs
    exact absurd (lt_of_lt_of_le hbhi (le_trans hle hlo)) (lt_irrefl u)

/-- **Carving.**  Replacing a segment by segments covering all of it but `R`
removes exactly `R` from the set covered. -/
theorem cover_carve {l m : List α} (xs : List α) (h : Ordered lo hi (l ++ b :: m)) {R : Set κ}
    (hR : R ⊆ Set.Ico (lo b) (hi b)) (hxs : cover lo hi xs = Set.Ico (lo b) (hi b) \ R) :
    cover lo hi (l ++ xs ++ m) = cover lo hi (l ++ b :: m) \ R := by
  have hdis := h.disjoint_middle
  rw [cover_append, Set.disjoint_left] at hdis
  ext u
  simp only [cover_append, cover_cons, hxs, Set.mem_union, Set.mem_sdiff]
  have hu := @hdis u
  rw [Set.mem_union] at hu
  tauto

/-- Replacing a segment by segments inside it keeps a list apart. -/
theorem Apart.carve (h : Apart lo hi (l ++ b :: m))
    (hxs : Apart lo hi xs) (hlo : ∀ x ∈ xs, lo b ≤ lo x) (hhi : ∀ x ∈ xs, hi x ≤ hi b) :
    Apart lo hi (l ++ xs ++ m) := by
  rw [Apart, pairwise_append, pairwise_cons] at h
  obtain ⟨hl, ⟨hbm, hm⟩, hlb⟩ := h
  rw [Apart, append_assoc, pairwise_append, pairwise_append]
  refine ⟨hl, ⟨hxs, hm, fun x hx c hc => lt_of_le_of_lt (hhi x hx) (hbm c hc)⟩, ?_⟩
  intro a ha c hc
  rcases List.mem_append.mp hc with hc | hc
  · exact lt_of_lt_of_le (hlb a ha b (by simp)) (hlo c hc)
  · exact hlb a ha c (by simp [hc])

/-- Inserting segments between two pieces of a list that keep clear of them keeps
the list apart. -/
theorem Apart.splice (h : Apart lo hi (l ++ m)) (hxs : Apart lo hi xs)
    (hl : ∀ a ∈ l, ∀ x ∈ xs, hi a < lo x) (hm : ∀ x ∈ xs, ∀ c ∈ m, hi x < lo c) :
    Apart lo hi (l ++ xs ++ m) := by
  rw [Apart, pairwise_append] at h
  obtain ⟨hl', hm', hlm⟩ := h
  rw [Apart, append_assoc, pairwise_append, pairwise_append]
  refine ⟨hl', ⟨hxs, hm', hm⟩, ?_⟩
  intro a ha c hc
  rcases List.mem_append.mp hc with hc | hc
  · exact hl a ha c hc
  · exact hlm a ha c hc

/-- An element that meets the weaker test only makes for a larger count. -/
theorem countP_lt {β : Type*} {p q : β → Bool} {l : List β} (hpq : ∀ b ∈ l, p b = true → q b = true)
    {c : β} (hc : c ∈ l) (hq : q c = true) (hp : ¬ p c = true) : l.countP p < l.countP q := by
  induction l with
  | nil => cases hc
  | cons b l ih =>
    have hle : l.countP p ≤ l.countP q :=
      countP_mono_left fun x hx => hpq x (mem_cons_of_mem _ hx)
    rw [countP_cons, countP_cons]
    rcases List.mem_cons.mp hc with rfl | hc
    · rw [if_neg hp, if_pos hq]
      omega
    · have ih' := ih (fun x hx => hpq x (mem_cons_of_mem _ hx)) hc
      by_cases hpb : p b = true
      · rw [if_pos hpb, if_pos (hpq b (mem_cons_self ..) hpb)]
        omega
      · rw [if_neg hpb]
        omega

/-- **Gaps.**  If blocks that keep off the segments cover the points where a segment ends
before another, there are at most as many gaps between the segments as blocks. -/
theorem Apart.length_le {pre l : List α} (h : Apart lo hi (pre ++ l))
    (hpos : ∀ a ∈ pre ++ l, lo a < hi a) (blocks : List (κ × κ))
    (hdis : ∀ b ∈ blocks, Disjoint (Set.Ico b.1 b.2) (cover lo hi (pre ++ l)))
    (hcov : ∀ a ∈ pre ++ l, ∀ c ∈ pre ++ l, hi a < lo c →
      hi a ∈ cover lo hi (pre ++ l) ∨ ∃ b ∈ blocks, hi a ∈ Set.Ico b.1 b.2)
    {a : α} (ha : a ∈ l.head?) :
    l.length ≤ blocks.countP (fun b => decide (lo a ≤ b.1)) + 1 := by
  induction l generalizing pre a with
  | nil => cases ha
  | cons d l ih =>
    obtain rfl : d = a := Option.some.inj ha
    cases l with
    | nil => simp
    | cons c l =>
      have hshape : pre ++ d :: c :: l = (pre ++ [d]) ++ c :: l := by simp
      have hap := h
      rw [Apart, pairwise_append, pairwise_cons] at hap
      obtain ⟨-, ⟨hafter, -⟩, hbefore⟩ := hap
      have hmem : d ∈ pre ++ d :: c :: l := by simp
      have hlt := hafter c (by simp)
      -- the end of `d` is in a block, as it is in no segment
      obtain ⟨b, hb, hlo, hhi⟩ : ∃ b ∈ blocks, hi d ∈ Set.Ico b.1 b.2 := by
        refine (hcov d hmem c (by simp) hlt).resolve_left ?_
        rintro ⟨s, hs, h1, h2⟩
        rcases List.mem_append.mp hs with hs | hs
        · have h3 := (hbefore s hs d (by simp)).trans (hpos d hmem)
          exact lt_asymm h2 h3
        · rcases List.mem_cons.mp hs with rfl | hs
          · exact lt_irrefl _ h2
          · exact absurd (hafter s hs) (not_lt.mpr h1)
      have hage : lo d ≤ b.1 := by
        by_contra hlt'
        have h1 : lo d ∈ Set.Ico b.1 b.2 := ⟨(not_le.mp hlt').le, (hpos d hmem).trans hhi⟩
        exact Set.disjoint_left.mp (hdis b hb) h1 ⟨d, hmem, le_rfl, hpos d hmem⟩
      have hcount : blocks.countP (fun b => decide (lo c ≤ b.1)) <
          blocks.countP (fun b => decide (lo d ≤ b.1)) := by
        refine countP_lt (fun x _ hx => ?_) hb (decide_eq_true hage) fun hc => ?_
        · exact decide_eq_true (((hpos d hmem).trans hlt).le.trans (of_decide_eq_true hx))
        · exact absurd (of_decide_eq_true hc) (not_le.mpr (lt_of_le_of_lt hlo hlt))
      rw [hshape] at h hpos hdis hcov
      have ih' := ih h hpos hdis hcov (a := c) rfl
      rw [length_cons]
      omega

end Segments
