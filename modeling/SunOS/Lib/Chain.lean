/-
# Chains of linked cells

A function `next` gives the cell after each cell; `0` stands for no cell.  `Chain next
a l` says that the cells one meets from `a` on are those of `l`.
-/
import Mathlib.Logic.Function.Basic
import Mathlib.Data.List.Nodup

/-- From `a` on the cells of `l` are linked one to the next, and the last to none. -/
def Chain (next : ℕ → ℕ) : ℕ → List ℕ → Prop
  | a, [] => a = 0
  | a, b :: l => a = b ∧ b ≠ 0 ∧ Chain next (next b) l

namespace Chain

open Function (update update_of_ne update_self)

variable {next next' : ℕ → ℕ} {a b c : ℕ} {l : List ℕ}

@[simp] theorem nil_iff : Chain next a [] ↔ a = 0 := Iff.rfl

/-- Only the links of its own cells matter to a chain. -/
theorem congr (h : Chain next a l) (hl : ∀ b ∈ l, next' b = next b) : Chain next' a l := by
  induction l generalizing a with
  | nil => exact h
  | cons b l ih =>
    obtain ⟨rfl, hb, h⟩ := h
    refine ⟨rfl, hb, ?_⟩
    rw [hl a (by simp)]
    exact ih h fun c hc => hl c (by simp [hc])

theorem eq_zero_iff (h : Chain next a l) : a = 0 ↔ l = [] := by
  cases l with
  | nil => exact ⟨fun _ => rfl, fun _ => h⟩
  | cons b l =>
    obtain ⟨rfl, hb, -⟩ := h
    exact ⟨fun ha => absurd ha hb, fun hl => by cases hl⟩

/-- A new cell goes in front. -/
theorem push (h : Chain next a l) (hb : b ≠ 0) (hl : b ∉ l) :
    Chain (update next b a) b (b :: l) := by
  refine ⟨rfl, hb, ?_⟩
  rw [update_self]
  exact h.congr fun c hc => update_of_ne (fun heq : c = b => hl (heq ▸ hc)) _ _

/-- The last cell is linked to none. -/
theorem next_last (h : Chain next a (l ++ [b])) : next b = 0 := by
  induction l generalizing a with
  | nil => exact h.2.2
  | cons c l ih => exact ih h.2.2

/-- A cell linked to none goes after the last. -/
theorem snoc (h : Chain next a (l ++ [b])) (hb : b ∉ l) (hc : c ≠ 0) (hcl : c ∉ l) (hbc : b ≠ c) :
    Chain (update (update next b c) c 0) a (l ++ [b, c]) := by
  induction l generalizing a with
  | nil =>
    obtain ⟨rfl, ha, -⟩ := h
    refine ⟨rfl, ha, ?_⟩
    rw [update_of_ne hbc, update_self]
    refine ⟨rfl, hc, ?_⟩
    rw [update_self]
    rfl
  | cons d l ih =>
    obtain ⟨rfl, ha, h⟩ := h
    rw [List.mem_cons, not_or] at hb hcl
    refine ⟨rfl, ha, ?_⟩
    rw [update_of_ne (Ne.symm hcl.1), update_of_ne (Ne.symm hb.1)]
    exact ih h hb.2 hcl.2

/-- From a cell on, the rest of the chain follows. -/
theorem tail {m : List ℕ} (h : Chain next a (l ++ b :: m)) : Chain next (next b) m := by
  induction l generalizing a with
  | nil => exact h.2.2
  | cons c l ih => exact ih h.2.2

theorem ne_zero (h : Chain next a l) (hb : b ∈ l) : b ≠ 0 := by
  induction l generalizing a with
  | nil => cases hb
  | cons c l ih =>
    rcases List.mem_cons.mp hb with rfl | hb
    · exact h.2.1
    · exact ih h.2.2 hb

/-- A cell is unlinked by way of the cell before it. -/
theorem unlink {m : List ℕ} (h : Chain next a (l ++ b :: c :: m)) (hb : b ∉ l) (hbm : b ∉ m) :
    Chain (update next b (next c)) a (l ++ b :: m) := by
  induction l generalizing a with
  | nil =>
    obtain ⟨rfl, ha, -, -, h⟩ := h
    refine ⟨rfl, ha, ?_⟩
    rw [update_self]
    exact h.congr fun d hd => update_of_ne (fun heq : d = a => hbm (heq ▸ hd)) _ _
  | cons d l ih =>
    obtain ⟨rfl, ha, h⟩ := h
    rw [List.mem_cons, not_or] at hb
    refine ⟨rfl, ha, ?_⟩
    rw [update_of_ne (Ne.symm hb.1)]
    exact ih h hb.2

end Chain
