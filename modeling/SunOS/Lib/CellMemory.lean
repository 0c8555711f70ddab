/-
# Memory by cells

A memory gives each address a cell.  `read` lists the cells from an address on, `write` stores a
list there.  Reading is compatible with splitting a range, and writing changes its own range
only.
-/
import Mathlib.Algebra.Order.Ring.Int
import Mathlib.Data.List.Basic
import Mathlib.Tactic.Ring

namespace CellMemory

open List

variable {α : Type*}

/-- The `n` cells from `p` on. -/
def read (μ : ℤ → α) (p : ℤ) (n : ℕ) : List α := (List.range n).map fun i : ℕ => μ (p + i)

/-- The list `l` stored from `p` on. -/
def write (μ : ℤ → α) (p : ℤ) (l : List α) : ℤ → α :=
  fun a => if p ≤ a then (l[(a - p).toNat]?).getD (μ a) else μ a

@[simp] theorem length_read (μ : ℤ → α) (p : ℤ) (n : ℕ) : (read μ p n).length = n := by simp [read]

/-- A range splits. -/
theorem read_add (μ : ℤ → α) (p : ℤ) (m n : ℕ) :
    read μ p (m + n) = read μ p m ++ read μ (p + m) n := by
  rw [read, read, read, range_add, map_append, map_map]
  congr 1
  refine map_congr_left fun i _ => ?_
  show μ (p + ((m + i : ℕ) : ℤ)) = μ (p + m + i)
  congr 1
  push_cast
  ring

theorem take_read (μ : ℤ → α) (p : ℤ) {k n : ℕ} (h : k ≤ n) : (read μ p n).take k = read μ p k := by
  rw [show n = k + (n - k) by omega, read_add, List.take_left' (length_read μ p k)]

theorem drop_read (μ : ℤ → α) (p : ℤ) {k n : ℕ} (h : k ≤ n) :
    (read μ p n).drop k = read μ (p + k) (n - k) := by
  obtain ⟨d, rfl⟩ := Nat.exists_eq_add_of_le h
  rw [read_add, List.drop_left' (length_read μ p k), Nat.add_sub_cancel_left]

/-- Reading sees the cells of its range only. -/
theorem read_congr {μ ν : ℤ → α} {p : ℤ} {n : ℕ} (h : ∀ i : ℕ, i < n → μ (p + i) = ν (p + i)) :
    read μ p n = read ν p n :=
  map_congr_left fun i hi => h i (List.mem_range.mp hi)

/-- Writing changes the cells of its range only. -/
theorem write_of_outside (μ : ℤ → α) {p a : ℤ} {l : List α} (h : a < p ∨ p + l.length ≤ a) :
    write μ p l a = μ a := by
  rw [write]
  by_cases hp : p ≤ a
  · rw [if_pos hp, List.getElem?_eq_none (by omega), Option.getD_none]
  · rw [if_neg hp]

/-- **What is written is read back.** -/
theorem read_write (μ : ℤ → α) (p : ℤ) (l : List α) : read (write μ p l) p l.length = l := by
  refine ext_getElem (length_read _ _ _) fun i h1 h2 => ?_
  simp only [read, getElem_map, getElem_range]
  rw [write, if_pos (by omega), show (p + (i : ℤ) - p).toNat = i by omega,
    List.getElem?_eq_getElem h2, Option.getD_some]

end CellMemory
