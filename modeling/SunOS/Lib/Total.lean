/-
# Totals over a table

A table is a function on places; each entry weighs something.
-/
import Mathlib.Algebra.BigOperators.Group.Finset.Basic
import Mathlib.Algebra.BigOperators.Intervals
import Mathlib.Algebra.Order.BigOperators.Group.Finset
import Mathlib.Data.Int.Basic
import Mathlib.Tactic.Ring

namespace Table

open Finset

variable {α : Type*} {n i : ℕ} {t t' : ℕ → α} {w : α → ℤ}

/-- What the first `n` entries weigh together. -/
def total (n : ℕ) (w : α → ℤ) (t : ℕ → α) : ℤ := ∑ i ∈ range n, w (t i)

/-- Only one entry changes. -/
theorem total_update (hi : i < n) (c : α) :
    total n w (Function.update t i c) = total n w t - w (t i) + w c := by
  unfold total
  have hmem : i ∈ range n := mem_range.mpr hi
  rw [← add_sum_erase _ _ hmem, ← add_sum_erase (range n) (fun k => w (t k)) hmem]
  rw [Function.update_self]
  have hrest : ∑ k ∈ (range n).erase i, w (Function.update t i c k) =
      ∑ k ∈ (range n).erase i, w (t k) :=
    sum_congr rfl fun k hk => by rw [Function.update_of_ne (mem_erase.mp hk).1]
  rw [hrest]
  ring

/-- An entry weighs no more than all. -/
theorem le_total (hw : ∀ c, 0 ≤ w c) (hi : i < n) : w (t i) ≤ total n w t :=
  single_le_sum (f := fun k => w (t k)) (fun _ _ => hw _) (mem_range.mpr hi)

theorem total_nonneg (hw : ∀ c, 0 ≤ w c) : 0 ≤ total n w t := sum_nonneg fun _ _ => hw _

/-- Entries that weigh the same. -/
theorem total_congr (h : ∀ i, i < n → w (t i) = w (t' i)) : total n w t = total n w t' :=
  sum_congr rfl fun i hi => h i (mem_range.mp hi)

/-- Nothing weighs anything. -/
theorem total_eq_zero (h : ∀ i, i < n → w (t i) = 0) : total n w t = 0 :=
  sum_eq_zero fun i hi => h i (mem_range.mp hi)

theorem total_mono (h : ∀ i, i < n → w (t i) ≤ w (t' i)) : total n w t ≤ total n w t' :=
  sum_le_sum fun i hi => h i (mem_range.mp hi)

end Table
