/-
# What is added to a log

Events that are of a kind and have a weight go to the end of a log.  What is added in two steps is
weighed together.
-/
import Mathlib.Algebra.BigOperators.Group.List.Basic

namespace Logged

variable {E M : Type*} [AddMonoid M]

/-- What `l'` has after the events of `l` is `P` and weighs `n`. -/
def Added (P : E → Prop) (weight : E → M) (l l' : List E) (n : M) : Prop :=
  ∃ es, l' = l ++ es ∧ (∀ e ∈ es, P e) ∧ (es.map weight).sum = n

variable {P : E → Prop} {weight : E → M} {l l' l'' : List E} {m n : M}

theorem Added.refl (l : List E) : Added P weight l l 0 := ⟨[], by simp, by simp, rfl⟩

theorem Added.note {e : E} (he : P e) : Added P weight l (l ++ [e]) (weight e) :=
  ⟨[e], rfl, by simpa using he, by simp⟩

theorem Added.trans (h : Added P weight l l' m) (h' : Added P weight l' l'' n) :
    Added P weight l l'' (m + n) := by
  obtain ⟨es, rfl, hP, rfl⟩ := h
  obtain ⟨es', rfl, hP', rfl⟩ := h'
  refine ⟨es ++ es', List.append_assoc .., ?_, by simp⟩
  intro e he
  exact (List.mem_append.mp he).elim (hP e) (hP' e)

end Logged
