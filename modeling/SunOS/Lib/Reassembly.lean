/-
# Reassembling a stream from overlapping pieces

Pieces of a stream arrive in any order, more than once and overlapping.  A queue
holds them in order: the front of a new piece that the one before it already has is
cut off (or the piece is dropped, when nothing is left), the pieces after it lose
what the new one has, or go.  `enter` is that step, on pieces that carry the data
from an offset on and a tag; `ready` takes from a queue the pieces that follow on
one another from an offset.

A program keeps segments of its own kind, and computes in its own arithmetic.
`Ops.insert` is what it does, and it does what `enter` does as long as its operations
simulate those on pieces.
-/
import SunOS.Lib.Segments
import Mathlib.Data.List.Forall2
import Mathlib.Data.List.TakeWhile
import Mathlib.Algebra.BigOperators.Group.List.Basic

namespace Reassembly

open Option (some.inj some.injEq)
open List
open Segments

variable {α τ : Type*}

/-- The data `dat` of a stream from the offset `off` on. -/
structure Piece (α τ : Type*) where
  off : ℕ
  dat : List α
  tag : τ

namespace Piece

variable {S : List α}

/-- The offset after the last datum. -/
def fin (p : Piece α τ) : ℕ := p.off + p.dat.length

/-- The piece without its first `i` data. -/
def trim (i : ℕ) (p : Piece α τ) : Piece α τ := ⟨p.off + i, p.dat.drop i, p.tag⟩

@[simp] theorem trim_off (i : ℕ) (p : Piece α τ) : (p.trim i).off = p.off + i := rfl

@[simp] theorem trim_dat (i : ℕ) (p : Piece α τ) : (p.trim i).dat = p.dat.drop i := rfl

theorem trim_fin {i : ℕ} {p : Piece α τ} (h : i ≤ p.dat.length) : (p.trim i).fin = p.fin := by
  simp only [fin, trim_off, trim_dat, length_drop]
  omega

theorem off_le_fin (p : Piece α τ) : p.off ≤ p.fin := Nat.le_add_right _ _

/-- `p` is the data of the stream `S` at its offset. -/
def Taken (S : List α) (p : Piece α τ) : Prop :=
  ∃ A B, S = A ++ p.dat ++ B ∧ A.length = p.off

theorem Taken.fin_le {p : Piece α τ} (h : p.Taken S) : p.fin ≤ S.length := by
  obtain ⟨A, B, hS, hA⟩ := h
  rw [hS, fin, ← hA]
  simp

theorem Taken.trim {p : Piece α τ} (h : p.Taken S) {i : ℕ} (hi : i ≤ p.dat.length) :
    (p.trim i).Taken S := by
  obtain ⟨A, B, hS, hA⟩ := h
  refine ⟨A ++ p.dat.take i, B, ?_, ?_⟩
  · rw [trim_dat, append_assoc A, take_append_drop, hS]
  · rw [length_append, length_take, trim_off, hA]
    omega

/-- A piece continues the stream where it starts. -/
theorem Taken.take_fin {p : Piece α τ} (h : p.Taken S) : S.take p.fin = S.take p.off ++ p.dat := by
  obtain ⟨A, B, hS, hA⟩ := h
  rw [hS, fin, ← hA, append_assoc, take_left, take_length_add_append,
    take_left]

/-- A piece that is all of the stream. -/
theorem Taken.dat_eq {p : Piece α τ} (h : p.Taken S) (hoff : p.off = 0)
    (hfin : p.fin = S.length) : p.dat = S := by
  have htake := h.take_fin
  rw [hfin, hoff, take_length, take_zero, nil_append] at htake
  exact htake.symm

/-- `q` is what is left of `p` after some of its front has been cut off. -/
def Tail (q p : Piece α τ) : Prop := ∃ i ≤ p.dat.length, q = p.trim i

theorem Tail.refl (p : Piece α τ) : Tail p p := ⟨0, Nat.zero_le _, rfl⟩

theorem Tail.fin_eq {q p : Piece α τ} (h : Tail q p) : q.fin = p.fin := by
  obtain ⟨i, hi, rfl⟩ := h
  exact trim_fin hi

theorem Tail.off_le {q p : Piece α τ} (h : Tail q p) : p.off ≤ q.off := by
  obtain ⟨i, -, rfl⟩ := h
  exact Nat.le_add_right _ _

theorem Tail.tag_eq {q p : Piece α τ} (h : Tail q p) : q.tag = p.tag := by
  obtain ⟨i, -, rfl⟩ := h
  rfl

theorem Tail.taken {q p : Piece α τ} (h : Tail q p) (hp : p.Taken S) : q.Taken S := by
  obtain ⟨i, hi, rfl⟩ := h
  exact hp.trim hi

end Piece

open Piece

/-! ## Entering a piece -/

variable {q : Piece α τ}

/-- The new piece `p` without what the piece before it has; nothing if that is all. -/
def clip (prev : Option (Piece α τ)) (p : Piece α τ) : Option (Piece α τ) :=
  match prev with
  | none => some p
  | some q =>
    if q.fin ≤ p.off then some p
    else if p.dat.length ≤ q.fin - p.off then none
    else some (p.trim (q.fin - p.off))

/-- The pieces after a new one that ends at `e`, without what it has. -/
def shave (e : ℕ) : List (Piece α τ) → List (Piece α τ)
  | [] => []
  | q :: qs =>
    if e ≤ q.off then q :: qs
    else if e - q.off < q.dat.length then q.trim (e - q.off) :: qs
    else shave e qs

/-- The pieces that do not begin after `p` does. -/
def before (p : Piece α τ) (Q : List (Piece α τ)) : List (Piece α τ) :=
  Q.takeWhile fun q => q.off ≤ p.off

/-- The others. -/
def after (p : Piece α τ) (Q : List (Piece α τ)) : List (Piece α τ) :=
  Q.dropWhile fun q => q.off ≤ p.off

/-- The queue `Q` with the new piece `p` in its place. -/
def enter (p : Piece α τ) (Q : List (Piece α τ)) : List (Piece α τ) :=
  match clip (before p Q).getLast? p with
  | none => Q
  | some p' => before p Q ++ p' :: shave p'.fin (after p Q)

variable {p p' : Piece α τ} {Q : List (Piece α τ)} {e : ℕ}

theorem before_append_after (p : Piece α τ) (Q : List (Piece α τ)) :
    before p Q ++ after p Q = Q :=
  takeWhile_append_dropWhile

theorem off_le_of_mem_before (h : q ∈ before p Q) : q.off ≤ p.off := by
  have := mem_takeWhile_imp h
  simpa using this

/-- The pieces after the new one begin after it. -/
theorem off_lt_of_mem_after (hQ : Ordered off fin Q) (h : q ∈ after p Q) : p.off < q.off := by
  rw [← before_append_after p Q, Ordered, pairwise_append] at hQ
  have hd : ∀ (c : Piece α τ) (cs : List (Piece α τ)), after p Q = c :: cs → p.off < c.off := by
    intro c cs hc
    have := head_dropWhile_not (fun q : Piece α τ => decide (q.off ≤ p.off)) (l := Q)
      (by rw [show Q.dropWhile _ = after p Q from rfl, hc]; simp)
    simp only [show Q.dropWhile _ = after p Q from rfl, hc, head_cons,
      decide_eq_false_iff_not, not_le] at this
    exact this
  cases hA : after p Q with
  | nil =>
    rw [hA] at h
    cases h
  | cons c cs =>
    have hlt := hd c cs hA
    have hord := hQ.2.1
    rw [hA] at h hord
    rcases List.mem_cons.mp h with rfl | hmem
    · exact hlt
    · have hle : c.fin ≤ q.off := (List.pairwise_cons.mp hord).1 q hmem
      have := c.off_le_fin
      omega

/-- What is left of a new piece begins where the piece before it ends. -/
theorem clip_spec (hQ : Ordered off fin Q) (h : clip (before p Q).getLast? p = some p') :
    Tail p' p ∧ (∀ q ∈ before p Q, q.fin ≤ p'.off) ∧
      Set.Ico p.off p'.off ⊆ cover off fin (before p Q) := by
  rw [← before_append_after p Q, Ordered, pairwise_append] at hQ
  have hB := hQ.1
  rcases eq_nil_or_concat (before p Q) with hnil | ⟨B, q, hcat⟩
  · rw [hnil, List.getLast?_nil, clip, some.injEq] at h
    subst h
    exact ⟨Tail.refl _, by simp [hnil], by simp⟩
  · rw [concat_eq_append] at hcat
    have hq : q.off ≤ p.off := off_le_of_mem_before (Q := Q) (by rw [hcat]; simp)
    rw [hcat, pairwise_append] at hB
    have hlast : ∀ c ∈ B, c.fin ≤ q.off := fun c hc => hB.2.2 c hc q (by simp)
    rw [hcat, List.getLast?_concat, clip] at h
    by_cases hfar : q.fin ≤ p.off
    · rw [if_pos hfar, some.injEq] at h
      subst h
      refine ⟨Tail.refl _, fun c hc => ?_, by simp⟩
      rw [hcat, mem_append, mem_singleton] at hc
      rcases hc with hc | rfl
      · exact (hlast c hc).trans hq
      · exact hfar
    · rw [if_neg hfar] at h
      by_cases hall : p.dat.length ≤ q.fin - p.off
      · rw [if_pos hall] at h
        cases h
      · rw [if_neg hall, some.injEq] at h
        subst h
        have hoff : (p.trim (q.fin - p.off)).off = q.fin := by
          rw [trim_off]
          omega
        refine ⟨⟨_, by omega, rfl⟩, fun c hc => ?_, ?_⟩
        · rw [hcat, mem_append, mem_singleton] at hc
          rw [hoff]
          rcases hc with hc | rfl
          · exact (hlast c hc).trans q.off_le_fin
          · exact le_refl _
        · rw [hoff, hcat]
          exact fun u hu => ⟨q, by simp, hq.trans hu.1, hu.2⟩

/-- A dropped piece has nothing new. -/
theorem clip_none (h : clip (before p Q).getLast? p = none) :
    Set.Ico p.off p.fin ⊆ cover off fin Q := by
  rcases hlast : (before p Q).getLast? with _ | q
  · rw [hlast, clip] at h
    cases h
  · have hmem := List.mem_of_getLast? hlast
    have hle := off_le_of_mem_before hmem
    have hQ : q ∈ Q := by
      rw [← before_append_after p Q]
      exact mem_append_left _ hmem
    rw [hlast, clip] at h
    by_cases hfar : q.fin ≤ p.off
    · rw [if_pos hfar] at h
      cases h
    · rw [if_neg hfar] at h
      by_cases hall : p.dat.length ≤ q.fin - p.off
      · intro u hu
        refine ⟨q, hQ, hle.trans hu.1, lt_of_lt_of_le hu.2 ?_⟩
        rw [Piece.fin]
        omega
      · rw [if_neg hall] at h
        cases h

/-- The pieces shaved begin at `e` or later, are tails of the ones there were, stay in
order, and have lost what lies before `e`. -/
theorem shave_spec (hQ : Ordered off fin Q) :
    (∀ q ∈ shave e Q, e ≤ q.off ∧ ∃ q' ∈ Q, Tail q q') ∧ Ordered off fin (shave e Q) ∧
      cover off fin (shave e Q) = cover off fin Q \ Set.Iio e := by
  induction Q with
  | nil => exact ⟨by simp [shave], List.Pairwise.nil, by simp [shave]⟩
  | cons q qs ih =>
    rw [Ordered, pairwise_cons] at hQ
    obtain ⟨hq, hqs⟩ := hQ
    have hlater : ∀ c ∈ qs, e ≤ q.fin → e ≤ c.off := fun c hc hle => hle.trans (hq c hc)
    have hrest : e ≤ q.fin → cover off fin qs \ Set.Iio e = cover off fin qs := by
      intro hle
      refine sdiff_eq_left.mpr (Set.disjoint_left.mpr ?_)
      rintro u ⟨c, hc, hlo, -⟩ hu
      exact absurd (lt_of_le_of_lt ((hlater c hc hle).trans hlo) hu) (lt_irrefl e)
    rw [shave]
    by_cases hle : e ≤ q.off
    · have hfin := hle.trans q.off_le_fin
      rw [if_pos hle]
      refine ⟨fun c hc => ?_, List.pairwise_cons.mpr ⟨hq, hqs⟩, ?_⟩
      · refine ⟨?_, c, hc, Tail.refl _⟩
        rcases List.mem_cons.mp hc with rfl | hc
        · exact hle
        · exact hlater c hc hfin
      · rw [cover_cons, Set.union_sdiff_distrib, hrest hfin]
        congr 1
        refine (sdiff_eq_left.mpr (Set.disjoint_left.mpr ?_)).symm
        intro u hu hlt
        exact absurd (lt_of_le_of_lt (hle.trans hu.1) hlt) (lt_irrefl e)
    · rw [if_neg hle]
      by_cases hpart : e - q.off < q.dat.length
      · rw [if_pos hpart]
        have hfin : (q.trim (e - q.off)).fin = q.fin := trim_fin (le_of_lt hpart)
        have hoff : (q.trim (e - q.off)).off = e := by
          rw [trim_off]
          lia
        have hle' : e ≤ q.fin := by
          rw [Piece.fin]
          lia
        refine ⟨fun c hc => ?_, List.pairwise_cons.mpr ⟨?_, hqs⟩, ?_⟩
        · rcases List.mem_cons.mp hc with rfl | hc
          · exact ⟨le_of_eq hoff.symm, q, by simp, _, le_of_lt hpart, rfl⟩
          · exact ⟨hlater c hc hle', c, by simp [hc], Tail.refl _⟩
        · rw [hfin]
          exact hq
        · rw [cover_cons, cover_cons, hfin, hoff, Set.union_sdiff_distrib, hrest hle']
          congr 1
          ext u
          simp only [Set.mem_Ico, Set.mem_sdiff, Set.mem_Iio]
          lia
      · rw [if_neg hpart]
        obtain ⟨htail, hord, hcover⟩ := ih hqs
        refine ⟨fun c hc => ?_, hord, ?_⟩
        · obtain ⟨hc1, c', hc', ht⟩ := htail c hc
          exact ⟨hc1, c', by simp [hc'], ht⟩
        · rw [hcover, cover_cons, Set.union_sdiff_distrib]
          refine (Set.union_eq_self_of_subset_left ?_).symm
          intro u hu
          have h1 := hu.1.2
          have h2 : ¬ u < e := hu.2
          rw [Piece.fin] at h1
          lia

/-- **Every piece of the new queue is the tail of one there was**, or of the new one. -/
theorem mem_enter (hQ : Ordered off fin Q) (h : q ∈ enter p Q) : ∃ q' ∈ p :: Q, Tail q q' := by
  rw [enter] at h
  have hA : Ordered off fin (after p Q) := by
    rw [← before_append_after p Q, Ordered, pairwise_append] at hQ
    exact hQ.2.1
  have hsub : ∀ c, c ∈ before p Q ∨ c ∈ after p Q → c ∈ Q := by
    intro c hc
    rw [← before_append_after p Q]
    exact List.mem_append.mpr hc
  rcases hc : clip (before p Q).getLast? p with _ | p'
  · rw [hc] at h
    exact ⟨q, mem_cons_of_mem _ h, Tail.refl _⟩
  · rw [hc] at h
    rcases List.mem_append.mp h with h | h
    · exact ⟨q, mem_cons_of_mem _ (hsub q (Or.inl h)), Tail.refl _⟩
    · rcases List.mem_cons.mp h with rfl | h
      · exact ⟨p, by simp, (clip_spec hQ hc).1⟩
      · obtain ⟨-, q', hq', ht⟩ := (shave_spec hA).1 q h
        exact ⟨q', mem_cons_of_mem _ (hsub q' (Or.inr hq')), ht⟩

/-- **The new queue is in order.** -/
theorem enter_ordered (hQ : Ordered off fin Q) : Ordered off fin (enter p Q) := by
  have hQ' := hQ
  rw [← before_append_after p Q, Ordered, pairwise_append] at hQ'
  obtain ⟨hB, hA, hBA⟩ := hQ'
  rw [enter]
  rcases hc : clip (before p Q).getLast? p with _ | p'
  · exact hQ
  · obtain ⟨-, hend, -⟩ := clip_spec hQ hc
    obtain ⟨htail, hord, -⟩ := shave_spec (e := p'.fin) hA
    refine List.pairwise_append.mpr ⟨hB,
      List.pairwise_cons.mpr ⟨fun q hq => (htail q hq).1, hord⟩, ?_⟩
    intro b hb c hc'
    rcases List.mem_cons.mp hc' with rfl | hc'
    · exact hend b hb
    · obtain ⟨-, c', hmem, ht⟩ := htail c hc'
      exact (hBA b hb c' hmem).trans ht.off_le

theorem enter_ne_nil (p : Piece α τ) (Q : List (Piece α τ)) : enter p Q ≠ [] := by
  intro h
  rw [enter] at h
  cases hc : clip (before p Q).getLast? p with
  | some p' =>
    rw [hc] at h
    exact cons_ne_nil _ _ (List.append_eq_nil_iff.mp h).2
  | none =>
    rw [hc] at h
    subst h
    cases hc

/-- **The new queue covers what the old one did and what the new piece does.** -/
theorem cover_enter (hQ : Ordered off fin Q) :
    cover off fin (enter p Q) = cover off fin Q ∪ Set.Ico p.off p.fin := by
  have hA : Ordered off fin (after p Q) := by
    have hQ' := hQ
    rw [← before_append_after p Q, Ordered, pairwise_append] at hQ'
    exact hQ'.2.1
  rw [enter]
  rcases hc : clip (before p Q).getLast? p with _ | p'
  · exact (Set.union_eq_self_of_subset_right (clip_none hc)).symm
  · obtain ⟨ht, -, hfront⟩ := clip_spec hQ hc
    have hoff := ht.off_le
    have hcover : cover off fin Q =
        cover off fin (before p Q) ∪ cover off fin (after p Q) := by
      rw [← cover_append, before_append_after]
    have hlater : cover off fin (after p Q) ⊆ Set.Ici p.off := by
      rintro u ⟨c, hmem, hlo, -⟩
      exact le_of_lt (lt_of_lt_of_le (off_lt_of_mem_after hQ hmem) hlo)
    simp only [cover_append, cover_cons, (shave_spec hA).2.2, ht.fin_eq, hcover]
    ext u
    have h1 := @hfront u
    have h2 := @hlater u
    by_cases hu : u < p'.off
    · have : ¬ p'.off ≤ u := by omega
      by_cases hp : p.off ≤ u
      · simp [h1 ⟨hp, hu⟩]
      · have : u ∉ cover off fin (after p Q) := fun h => hp (h2 h)
        simp [*]
    · have h3 : p'.off ≤ u := by omega
      have h4 : p.off ≤ u := by omega
      by_cases hend : u < p.fin
      · simp [*]
      · simp [*]

/-! ## The pieces that are ready -/

variable {next : ℕ}

/-- The first pieces of a queue that follow on one another from `next`, and the rest. -/
def ready (next : ℕ) : List (Piece α τ) → List (Piece α τ) × List (Piece α τ)
  | [] => ([], [])
  | q :: qs =>
    if q.off = next then (q :: (ready q.fin qs).1, (ready q.fin qs).2) else ([], q :: qs)

/-- The offset they reach. -/
def reach (next : ℕ) (Q : List (Piece α τ)) : ℕ := ((ready next Q).1.getLast?.map fin).getD next

theorem ready_append (next : ℕ) (Q : List (Piece α τ)) :
    (ready next Q).1 ++ (ready next Q).2 = Q := by
  induction Q generalizing next with
  | nil => rfl
  | cons q qs ih =>
    rw [ready]
    by_cases h : q.off = next
    · rw [if_pos h, cons_append, ih]
    · rw [if_neg h, nil_append]

theorem reach_cons {qs : List (Piece α τ)} (h : q.off = next) :
    reach next (q :: qs) = reach q.fin qs := by
  rw [reach, reach, ready, if_pos h]
  rcases hr : (ready q.fin qs).1 with _ | ⟨c, cs⟩
  · rfl
  · rw [List.getLast?_cons_cons]
    cases hl : (c :: cs).getLast? with
    | none => simp at hl
    | some d => rfl

/-- They reach the end of the last of them. -/
theorem reach_eq (next : ℕ) (Q : List (Piece α τ)) :
    ((ready next Q).1.getLast? = none ∧ reach next Q = next) ∨
      ∃ q ∈ Q, (ready next Q).1.getLast? = some q ∧ reach next Q = q.fin := by
  rcases hl : (ready next Q).1.getLast? with _ | q
  · exact Or.inl ⟨rfl, by rw [reach, hl]; rfl⟩
  · refine Or.inr ⟨q, ?_, rfl, by rw [reach, hl]; rfl⟩
    rw [← ready_append next Q]
    exact mem_append_left _ (List.mem_of_getLast? hl)

theorem le_reach (next : ℕ) (Q : List (Piece α τ)) : next ≤ reach next Q := by
  induction Q generalizing next with
  | nil => exact le_refl _
  | cons q qs ih =>
    by_cases h : q.off = next
    · rw [reach_cons h, ← h]
      exact q.off_le_fin.trans (ih _)
    · rw [reach, ready, if_neg h]
      exact le_refl _

/-- **The pieces that are ready continue the stream.** -/
theorem take_reach {S : List α} (h : ∀ q ∈ Q, q.Taken S) :
    S.take (reach next Q) = S.take next ++ ((ready next Q).1.map dat).flatten := by
  induction Q generalizing next with
  | nil => simp [reach, ready]
  | cons q qs ih =>
    by_cases hq : q.off = next
    · rw [reach_cons hq, ih (fun c hc => h c (mem_cons_of_mem _ hc)), (h q (by simp)).take_fin,
        ready, if_pos hq, hq, map_cons, flatten_cons, append_assoc]
    · rw [reach, ready, if_neg hq]
      simp

/-- Pieces that are all ready reach as far as their data. -/
theorem reach_eq_length (h : (ready next Q).2 = []) :
    reach next Q = next + (Q.map dat).flatten.length := by
  induction Q generalizing next with
  | nil => rfl
  | cons q qs ih =>
    by_cases hq : q.off = next
    · rw [ready, if_pos hq] at h
      rw [reach_cons hq, ih h, fin, hq, map_cons, flatten_cons, length_append,
        Nat.add_assoc]
    · rw [ready, if_neg hq] at h
      cases h

/-- Pieces that are all ready cover all up to where they reach. -/
theorem cover_of_ready (h : (ready next Q).2 = []) :
    cover off fin Q = Set.Ico next (reach next Q) := by
  induction Q generalizing next with
  | nil => simp [reach, ready]
  | cons q qs ih =>
    by_cases hq : q.off = next
    · rw [ready, if_pos hq] at h
      rw [cover_cons, ih h, reach_cons hq, hq]
      refine Set.Ico_union_Ico_eq_Ico ?_ (le_reach _ _)
      rw [← hq]
      exact q.off_le_fin
    · rw [ready, if_neg hq] at h
      cases h

/-- And pieces that cover a range are all ready. -/
theorem ready_of_cover {next l : ℕ} (hQ : Ordered off fin Q)
    (hmem : ∀ q ∈ Q, next ≤ q.off ∧ q.fin ≤ l) (hle : next ≤ l)
    (h : cover off fin Q = Set.Ico next l) : (ready next Q).2 = [] ∧ reach next Q = l := by
  induction Q generalizing next with
  | nil =>
    refine ⟨rfl, ?_⟩
    rw [cover_nil, eq_comm, Set.Ico_eq_empty_iff] at h
    exact le_antisymm hle (not_lt.mp h)
  | cons q qs ih =>
    rw [Ordered, pairwise_cons] at hQ
    obtain ⟨hq1, hq2⟩ := hmem q (by simp)
    have hq3 := q.off_le_fin
    have hq : q.off = next := by
      by_contra hne
      have hin : next ∈ cover off fin (q :: qs) := by
        rw [h]
        exact ⟨le_refl _, by omega⟩
      obtain ⟨c, hc, hlo, -⟩ := hin
      rcases List.mem_cons.mp hc with rfl | hc
      · omega
      · have : q.fin ≤ c.off := hQ.1 c hc
        omega
    rw [ready, if_pos hq, reach_cons hq]
    refine ih hQ.2 (fun c hc => ⟨hQ.1 c hc, (hmem c (by simp [hc])).2⟩) hq2 ?_
    ext u
    have hu : u ∈ cover off fin (q :: qs) ↔ u ∈ Set.Ico next l := by rw [h]
    rw [cover_cons, Set.mem_union, Set.mem_Ico, Set.mem_Ico] at hu
    have hlater : u ∈ cover off fin qs → q.fin ≤ u := by
      rintro ⟨c, hc, hlo, -⟩
      exact (hQ.1 c hc).trans hlo
    rw [Set.mem_Ico]
    constructor
    · intro hmem'
      exact ⟨hlater hmem', (hu.mp (Or.inr hmem')).2⟩
    · rintro ⟨h1, h2⟩
      rcases hu.mpr ⟨by omega, h2⟩ with h3 | h3
      · omega
      · exact h3

theorem ready_rest_ordered (hQ : Ordered off fin Q) : Ordered off fin (ready next Q).2 := by
  rw [← ready_append next Q, Ordered, pairwise_append] at hQ
  exact hQ.2.1

/-! ## Related lists -/

section Related

variable {β γ : Type*} {R : β → γ → Prop} {l : List β} {m : List γ}

section

variable (h : List.Forall₂ R l m)
include h

theorem forall₂_takeWhile {f : β → Bool} {g : γ → Bool} (hfg : ∀ a b, R a b → f a = g b) :
    List.Forall₂ R (l.takeWhile f) (m.takeWhile g) ∧
      List.Forall₂ R (l.dropWhile f) (m.dropWhile g) := by
  induction h with
  | nil => exact ⟨.nil, .nil⟩
  | @cons a b l m hab hlm ih =>
    rw [takeWhile_cons, takeWhile_cons, dropWhile_cons, dropWhile_cons,
      hfg a b hab]
    cases g b with
    | false => exact ⟨.nil, .cons hab hlm⟩
    | true => exact ⟨.cons hab ih.1, ih.2⟩

theorem forall₂_getLast? : Option.Rel R l.getLast? m.getLast? := by
  have hrev := rel_reverse h
  rw [← List.head?_reverse, ← List.head?_reverse]
  generalize l.reverse = l' at hrev
  generalize m.reverse = m' at hrev
  cases hrev with
  | nil => exact .none
  | cons hab => exact .some hab

theorem forall₂_imp_right {S : β → γ → Prop}
    (hS : ∀ a, ∀ b ∈ m, R a b → S a b) : List.Forall₂ S l m := by
  induction h with
  | nil => exact .nil
  | cons hab _ ih =>
    exact .cons (hS _ _ (by simp) hab) (ih fun a b hb => hS a b (by simp [hb]))

theorem forall₂_mem_left {a : β} (ha : a ∈ l) : ∃ b ∈ m, R a b := by
  induction h with
  | nil => cases ha
  | cons hab _ ih =>
    rcases List.mem_cons.mp ha with rfl | ha
    · exact ⟨_, by simp, hab⟩
    · obtain ⟨b, hb, hR⟩ := ih ha
      exact ⟨b, by simp [hb], hR⟩

theorem forall₂_mem_right {b : γ} (hb : b ∈ m) : ∃ a ∈ l, R a b := by
  induction h with
  | nil => cases hb
  | cons hab _ ih =>
    rcases List.mem_cons.mp hb with rfl | hb
    · exact ⟨_, by simp, hab⟩
    · obtain ⟨a, ha, hR⟩ := ih hb
      exact ⟨a, by simp [ha], hR⟩

end

end Related

/-! ## A queue of segments -/

/-- What a program does with its segments: whether `q` begins after `s`, how far `q`
reaches beyond the start of `s`, how long `s` is, and `s` without its first `i` data. -/
structure Ops (σ : Type*) where
  beyond (q s : σ) : Bool
  into (q s : σ) : ℤ
  len (s : σ) : ℤ
  trim (s : σ) (i : ℤ) : σ

namespace Ops

open List

variable {σ : Type*} (o : Ops σ)

variable {qs : List σ} {prev : Option σ} {prev' : Option (Piece α τ)} {cs : List (Piece α τ)}
    {seg : List σ}

/-- The new segment `s` without what the segment before it provides; nothing if that
is all. -/
def dropLeading (prev : Option σ) (s : σ) : Option σ :=
  match prev with
  | none => some s
  | some q =>
    let i := o.into q s
    if i > 0 then
      if i ≥ o.len s then none else some (o.trim s i)
    else some s

/-- While `s` overlaps succeeding segments, they are trimmed or, when completely
covered, dequeued. -/
def trimNext (s : σ) : List σ → List σ
  | [] => []
  | q :: qs =>
    let i := o.into s q
    if i ≤ 0 then q :: qs
    else if i < o.len q then o.trim q i :: qs
    else trimNext s qs

/-- The segments that are dequeued. -/
def covered (s : σ) : List σ → List σ
  | [] => []
  | q :: qs =>
    let i := o.into s q
    if i ≤ 0 then []
    else if i < o.len q then []
    else q :: covered s qs

/-- The segments before the first that begins after `s` does. -/
def prevs (s : σ) (seg : List σ) : List σ := seg.takeWhile fun q => ¬ o.beyond q s

/-- That segment and those after it. -/
def nexts (s : σ) (seg : List σ) : List σ := seg.dropWhile fun q => ¬ o.beyond q s

/-- The queue `seg` with `s` in its place and the segments dequeued, or nothing when
`s` is dropped. -/
def insert (s : σ) (seg : List σ) : Option (List σ × List σ) :=
  (o.dropLeading (o.prevs s seg).getLast? s).map fun s' =>
    (o.prevs s seg ++ s' :: o.trimNext s' (o.nexts s seg), o.covered s' (o.nexts s seg))

variable {o} {s : σ}

theorem sum_trimNext {M : Type*} [AddCommMonoid M] {μ : σ → M} (hμ : ∀ q i, μ (o.trim q i) = μ q)
    (qs : List σ) :
    ((o.trimNext s qs).map μ).sum + ((o.covered s qs).map μ).sum = (qs.map μ).sum := by
  induction qs with
  | nil => simp [trimNext, covered]
  | cons q qs ih =>
    rw [trimNext, covered]
    by_cases h : o.into s q ≤ 0
    · simp [if_pos h]
    · by_cases h' : o.into s q < o.len q
      · simp [if_neg h, if_pos h', hμ]
      · simp only [if_neg h, if_neg h', map_cons, sum_cons]
        rw [← ih, add_left_comm]

/-- **Nothing is lost**: what is in the new queue and what has been dequeued is what
was in the old one and the new segment. -/
theorem sum_insert {M : Type*} [AddCommMonoid M] {μ : σ → M} (hμ : ∀ q i, μ (o.trim q i) = μ q)
    {seg seg' gone : List σ} (h : o.insert s seg = some (seg', gone)) :
    (seg'.map μ).sum + (gone.map μ).sum = μ s + (seg.map μ).sum := by
  obtain ⟨s', hs', heq⟩ := Option.map_eq_some_iff.mp h
  obtain ⟨rfl, rfl⟩ := heq
  have hsame : μ s' = μ s := by
    rcases hlast : (o.prevs s seg).getLast? with _ | q
    · rw [hlast, dropLeading] at hs'
      rw [some.inj hs']
    · rw [hlast, dropLeading] at hs'
      split_ifs at hs'
      · rw [← some.inj hs', hμ]
      · rw [← some.inj hs']
  have hseg : (seg.map μ).sum = ((o.prevs s seg).map μ).sum + ((o.nexts s seg).map μ).sum := by
    rw [← sum_append, ← map_append, prevs, nexts, takeWhile_append_dropWhile]
  rw [hseg, map_append, sum_append, map_cons, sum_cons, hsame,
    ← sum_trimNext hμ (o.nexts s seg), add_assoc, add_assoc]
  exact add_left_comm _ _ _

theorem mem_trimNext {c : σ} (h : c ∈ o.trimNext s qs) : ∃ q ∈ qs, c = q ∨ ∃ i, c = o.trim q i := by
  induction qs with
  | nil => cases h
  | cons q qs ih =>
    rw [trimNext] at h
    by_cases hfar : o.into s q ≤ 0
    · rw [if_pos hfar] at h
      exact ⟨c, h, Or.inl rfl⟩
    · rw [if_neg hfar] at h
      by_cases hpart : o.into s q < o.len q
      · rw [if_pos hpart] at h
        rcases List.mem_cons.mp h with rfl | h
        · exact ⟨q, by simp, Or.inr ⟨_, rfl⟩⟩
        · exact ⟨c, by simp [h], Or.inl rfl⟩
      · rw [if_neg hpart] at h
        obtain ⟨q', hq', h⟩ := ih h
        exact ⟨q', by simp [hq'], h⟩

/-- What trimming keeps, all segments of the new queue have if those of the old one and
the new segment do. -/
theorem forall_insert {P : σ → Prop} (hP : ∀ q i, P q → P (o.trim q i)) {seg seg' gone : List σ}
    (h : o.insert s seg = some (seg', gone)) (hs : P s) (hseg : ∀ q ∈ seg, P q) :
    ∀ q ∈ seg', P q := by
  obtain ⟨s', hs', heq⟩ := Option.map_eq_some_iff.mp h
  obtain ⟨rfl, -⟩ := heq
  intro q hq
  rcases List.mem_append.mp hq with hq | hq
  · exact hseg q ((takeWhile_sublist _).subset hq)
  · rcases List.mem_cons.mp hq with rfl | hq
    · rcases hlast : (o.prevs s seg).getLast? with _ | c
      · rw [hlast, dropLeading] at hs'
        rw [← some.inj hs']
        exact hs
      · rw [hlast, dropLeading] at hs'
        split_ifs at hs'
        · rw [← some.inj hs']
          exact hP _ _ hs
        · rw [← some.inj hs']
          exact hs
    · obtain ⟨c, hc, rfl | ⟨i, rfl⟩⟩ := mem_trimNext hq
      · exact hseg q ((dropWhile_sublist _).subset hc)
      · exact hP _ _ (hseg c ((dropWhile_sublist _).subset hc))

/-- The operations do on segments what those on pieces do, as far as the cuts that are allowed:
`Cut p i` is for the first `i` data of `p`. -/
structure SimulatesOn (Cut : Piece α τ → ℕ → Prop) (R : σ → Piece α τ → Prop) : Prop where
  beyond : ∀ {q s : σ} {c p : Piece α τ}, R q c → R s p → (o.beyond q s ↔ p.off < c.off)
  into : ∀ {q s : σ} {c p : Piece α τ}, R q c → R s p → o.into q s = c.fin - p.off
  len : ∀ {s : σ} {p : Piece α τ}, R s p → o.len s = p.dat.length
  trim : ∀ {s : σ} {p : Piece α τ} {i : ℕ}, R s p → i ≤ p.dat.length → Cut p i →
    R (o.trim s i) (p.trim i)

/-- The cut is allowed that makes `p` begin where `e` is, if that is inside. -/
def CutAt (Cut : Piece α τ → ℕ → Prop) (e : ℕ) (p : Piece α τ) : Prop :=
  p.off < e → e < p.fin → Cut p (e - p.off)

variable {R : σ → Piece α τ → Prop} {Cut : Piece α τ → ℕ → Prop}

theorem SimulatesOn.dropLeading (h : o.SimulatesOn Cut R)
    (hprev : Option.Rel R prev prev') (hs : R s p)
    (hle : ∀ c ∈ prev', c.off ≤ p.off) (hcut : ∀ c ∈ prev', CutAt Cut c.fin p) :
    Option.Rel R (o.dropLeading prev s) (clip prev' p) := by
  cases hprev with
  | none => exact .some hs
  | @some q c hq =>
    rw [Ops.dropLeading, clip]
    simp only [h.into hq hs, h.len hs]
    by_cases hfar : c.fin ≤ p.off
    · rw [if_neg (by lia), if_pos hfar]
      exact .some hs
    · rw [if_pos (by lia), if_neg hfar]
      by_cases hall : p.dat.length ≤ c.fin - p.off
      · rw [if_pos (by lia), if_pos hall]
        exact .none
      · rw [if_neg (by lia), if_neg hall]
        have htrim := h.trim hs (i := c.fin - p.off) (by lia) (hcut c rfl (by lia) (by
          show c.fin < p.off + p.dat.length
          lia))
        rw [show ((c.fin - p.off : ℕ) : ℤ) = c.fin - p.off by lia] at htrim
        exact .some htrim

theorem SimulatesOn.trimNext (h : o.SimulatesOn Cut R)
    (hs : R s p) (hqs : List.Forall₂ R qs cs) (hcut : ∀ c ∈ cs, CutAt Cut p.fin c) :
    List.Forall₂ R (o.trimNext s qs) (shave p.fin cs) := by
  induction hqs with
  | nil => exact .nil
  | @cons q c qs cs hq hqs ih =>
    rw [Ops.trimNext, shave]
    simp only [h.into hs hq, h.len hq]
    by_cases hle : p.fin ≤ c.off
    · rw [if_pos (by lia), if_pos hle]
      exact .cons hq hqs
    · rw [if_neg (by lia), if_neg hle]
      by_cases hpart : p.fin - c.off < c.dat.length
      · rw [if_pos (by lia), if_pos hpart]
        have htrim := h.trim hq (le_of_lt hpart) (hcut c (by simp) (by lia) (by
          show p.fin < c.off + c.dat.length
          lia))
        rw [show ((p.fin - c.off : ℕ) : ℤ) = p.fin - c.off by lia] at htrim
        exact .cons htrim hqs
      · rw [if_neg (by lia), if_neg hpart]
        exact ih fun c' hc' => hcut c' (mem_cons_of_mem _ hc')

/-- **The queue of segments is the one `enter` makes**, when the cuts it makes are allowed. -/
theorem SimulatesOn.insert (h : o.SimulatesOn Cut R) (hseg : List.Forall₂ R seg Q)
    (hs : R s p) (hbefore : ∀ c ∈ (before p Q).getLast?, CutAt Cut c.fin p)
    (hafter : ∀ p' ∈ clip (before p Q).getLast? p, ∀ c ∈ after p Q, CutAt Cut p'.fin c) :
    List.Forall₂ R (((o.insert s seg).map Prod.fst).getD seg) (enter p Q) := by
  have hfind : ∀ q c, R q c → decide (¬ o.beyond q s) = decide (c.off ≤ p.off) := by
    intro q c hq
    rw [decide_eq_decide, h.beyond hq hs, not_lt]
  obtain ⟨hprevs, hnexts⟩ := forall₂_takeWhile hseg hfind
  have hclip := h.dropLeading (forall₂_getLast? hprevs) hs
    (fun c hc => off_le_of_mem_before (Q := Q) (List.mem_of_getLast? hc)) hbefore
  change Option.Rel _ (o.dropLeading (o.prevs s seg).getLast? s) (clip (before p Q).getLast? p)
    at hclip
  rw [Ops.insert, enter]
  generalize clip (before p Q).getLast? p = d at hclip hafter
  generalize o.dropLeading (o.prevs s seg).getLast? s = d' at hclip
  cases hclip with
  | none => exact hseg
  | some hs' =>
    exact rel_append hprevs (.cons hs' (h.trimNext hs' hnexts (hafter _ rfl)))

/-- `s` is related to `p`, or is what a cut makes of a segment that is related to a piece, and `p`
is what the same cut makes of that. -/
inductive CutOf (o : Ops σ) (R : σ → Piece α τ → Prop) : σ → Piece α τ → Prop
  | same {s : σ} {p : Piece α τ} : R s p → CutOf o R s p
  | cut {s : σ} {p : Piece α τ} {i : ℕ} : R s p → 0 < i → i < p.dat.length →
      CutOf o R (o.trim s i) (p.trim i)

theorem SimulatesOn.dropLeading_cut (h : o.SimulatesOn Cut R)
    (hprev : Option.Rel R prev prev') (hs : R s p)
    (hle : ∀ c ∈ prev', c.off ≤ p.off) :
    Option.Rel (CutOf o R) (o.dropLeading prev s) (clip prev' p) := by
  cases hprev with
  | none => exact .some (.same hs)
  | @some q c hq =>
    rw [Ops.dropLeading, clip]
    simp only [h.into hq hs, h.len hs]
    by_cases hfar : c.fin ≤ p.off
    · rw [if_neg (by lia), if_pos hfar]
      exact .some (.same hs)
    · rw [if_pos (by lia), if_neg hfar]
      by_cases hall : p.dat.length ≤ c.fin - p.off
      · rw [if_pos (by lia), if_pos hall]
        exact .none
      · rw [if_neg (by lia), if_neg hall, show (c.fin : ℤ) - p.off = (c.fin - p.off : ℕ) by lia]
        exact .some (.cut hs (by lia) (by lia))

theorem SimulatesOn.trimNext_cut (h : o.SimulatesOn Cut R)
    (hs : R s p) (hqs : List.Forall₂ R qs cs) :
    List.Forall₂ (CutOf o R) (o.trimNext s qs) (shave p.fin cs) := by
  have hsame : ∀ {qs : List σ} {cs : List (Piece α τ)}, List.Forall₂ R qs cs →
      List.Forall₂ (CutOf o R) qs cs := fun h => h.imp fun _ _ => .same
  induction hqs with
  | nil => exact .nil
  | @cons q c qs cs hq hqs ih =>
    rw [Ops.trimNext, shave]
    simp only [h.into hs hq, h.len hq]
    by_cases hle : p.fin ≤ c.off
    · rw [if_pos (by lia), if_pos hle]
      exact hsame (.cons hq hqs)
    · rw [if_neg (by lia), if_neg hle]
      by_cases hpart : p.fin - c.off < c.dat.length
      · rw [if_pos (by lia), if_pos hpart, show (p.fin : ℤ) - c.off = (p.fin - c.off : ℕ) by lia]
        exact .cons (.cut hq (by lia) hpart) (hsame hqs)
      · rw [if_neg (by lia), if_neg hpart]
        exact ih

/-- **What the program makes of its queue**, whatever its cuts do: they are the cuts of `enter`, as
long as what is left of the new segment is related to what is left of the new piece. -/
theorem SimulatesOn.insert_cut (h : o.SimulatesOn Cut R) (hseg : List.Forall₂ R seg Q)
    (hs : R s p) :
    o.insert s seg = none ∧ enter p Q = Q ∨
      ∃ s' p' prevs nexts gone, o.insert s seg = some (prevs ++ s' :: o.trimNext s' nexts, gone) ∧
        enter p Q = before p Q ++ p' :: shave p'.fin (after p Q) ∧
        List.Forall₂ R prevs (before p Q) ∧ CutOf o R s' p' ∧
        (R s' p' → List.Forall₂ (CutOf o R) (o.trimNext s' nexts) (shave p'.fin (after p Q))) := by
  have hfind : ∀ q c, R q c → decide (¬ o.beyond q s) = decide (c.off ≤ p.off) := by
    intro q c hq
    rw [decide_eq_decide, h.beyond hq hs, not_lt]
  obtain ⟨hprevs, hnexts⟩ := forall₂_takeWhile hseg hfind
  have hclip := h.dropLeading_cut (forall₂_getLast? hprevs) hs
    fun c hc => off_le_of_mem_before (Q := Q) (List.mem_of_getLast? hc)
  change Option.Rel _ (o.dropLeading (o.prevs s seg).getLast? s) (clip (before p Q).getLast? p)
    at hclip
  rw [Ops.insert, enter]
  generalize clip (before p Q).getLast? p = d at hclip
  generalize o.dropLeading (o.prevs s seg).getLast? s = d' at hclip
  cases hclip with
  | none => exact Or.inl ⟨rfl, rfl⟩
  | some hs' =>
    exact Or.inr ⟨_, _, _, _, _, rfl, rfl, hprevs, hs', fun hR => h.trimNext_cut hR hnexts⟩

/-- The operations do on segments what those on pieces do. -/
structure Simulates (R : σ → Piece α τ → Prop) : Prop where
  beyond : ∀ {q s : σ} {c p : Piece α τ}, R q c → R s p → (o.beyond q s ↔ p.off < c.off)
  into : ∀ {q s : σ} {c p : Piece α τ}, R q c → R s p → o.into q s = c.fin - p.off
  len : ∀ {s : σ} {p : Piece α τ}, R s p → o.len s = p.dat.length
  trim : ∀ {s : σ} {p : Piece α τ} {i : ℕ}, R s p → i ≤ p.dat.length → R (o.trim s i) (p.trim i)

theorem Simulates.simulatesOn (h : o.Simulates R) : o.SimulatesOn (fun _ _ => True) R :=
  ⟨h.beyond, h.into, h.len, fun hs hi _ => h.trim hs hi⟩

/-- **The queue of segments is the one `enter` makes.** -/
theorem Simulates.insert (h : o.Simulates R) (hseg : List.Forall₂ R seg Q)
    (hs : R s p) : List.Forall₂ R (((o.insert s seg).map Prod.fst).getD seg) (enter p Q) :=
  h.simulatesOn.insert hseg hs (fun _ _ _ _ => trivial) fun _ _ _ _ _ _ => trivial

end Ops

end Reassembly
