/-
# Rearranging a part of a sequence

A sequence over the integers has its entries from `lo` to `hi` moved about, and the others stay.
A comparison gives a number, and orders when its sign does.
-/
import Mathlib.Algebra.Order.Ring.Int
import Mathlib.Logic.Equiv.Basic

/-- `b` has the entries of `a` from `lo` up to `hi`, each once, and those outside in place. -/
def Rearranged {α : Type*} (lo hi : ℤ) (a b : ℤ → α) : Prop :=
  ∃ σ : Equiv.Perm ℤ, (∀ k, ¬(lo ≤ k ∧ k < hi) → σ k = k) ∧ b = a ∘ σ

namespace Rearranged

variable {α : Type*} {a b c : ℤ → α} {lo hi lo' hi' i j k : ℤ}

theorem refl (lo hi : ℤ) (a : ℤ → α) : Rearranged lo hi a a :=
  ⟨Equiv.refl ℤ, fun _ _ => rfl, rfl⟩

section

variable (h : Rearranged lo hi a b)
include h

theorem trans (h' : Rearranged lo hi b c) : Rearranged lo hi a c := by
  obtain ⟨σ, hσ, rfl⟩ := h
  obtain ⟨τ, hτ, rfl⟩ := h'
  refine ⟨τ.trans σ, fun k hk => ?_, rfl⟩
  rw [Equiv.trans_apply, hτ k hk, hσ k hk]

/-- A larger part. -/
theorem mono (hlo : lo' ≤ lo) (hhi : hi ≤ hi') : Rearranged lo' hi' a b := by
  obtain ⟨σ, hσ, rfl⟩ := h
  refine ⟨σ, fun k hk => hσ k fun hin => hk ?_, rfl⟩
  omega

/-- Entries outside stay. -/
theorem outside (hk : ¬(lo ≤ k ∧ k < hi)) : b k = a k := by
  obtain ⟨σ, hσ, rfl⟩ := h
  rw [Function.comp_apply, hσ k hk]

/-- Every entry is one of the old ones of the part. -/
theorem entry (hk : lo ≤ k ∧ k < hi) : ∃ m, (lo ≤ m ∧ m < hi) ∧ b k = a m := by
  obtain ⟨σ, hσ, rfl⟩ := h
  refine ⟨σ k, ?_, rfl⟩
  by_contra hout
  rw [σ.injective (hσ (σ k) hout)] at hout
  exact hout hk

/-- What all entries of the part have, they have afterwards. -/
theorem forall_entry {P : α → Prop} (ha : ∀ k, lo ≤ k → k < hi → P (a k)) :
    ∀ k, lo ≤ k → k < hi → P (b k) := by
  intro k hlo hhi
  obtain ⟨m, hm, hb⟩ := h.entry ⟨hlo, hhi⟩
  rw [hb]
  exact ha m hm.1 hm.2

end

theorem swap (hi' : lo ≤ i ∧ i < hi) (hj : lo ≤ j ∧ j < hi) :
    Rearranged lo hi a (a ∘ Equiv.swap i j) := by
  refine ⟨Equiv.swap i j, fun k hk => Equiv.swap_apply_of_ne_of_ne ?_ ?_, rfl⟩
  · rintro rfl
    exact hk hi'
  · rintro rfl
    exact hk hj

/-- The entry at `m` goes to `p`, and those between move up by one. -/
def insertion (p m k : ℤ) : ℤ := if k = p then m else if p < k ∧ k ≤ m then k - 1 else k

theorem insert {p m : ℤ} (hp : lo ≤ p) (hpm : p ≤ m) (hm : m < hi) :
    Rearranged lo hi a (a ∘ insertion p m) := by
  let back : ℤ → ℤ := fun k => if k = m then p else if p ≤ k ∧ k < m then k + 1 else k
  have hleft : Function.LeftInverse back (insertion p m) := by
    intro k
    simp only [back, insertion]
    split_ifs <;> omega
  have hright : Function.RightInverse back (insertion p m) := by
    intro k
    simp only [back, insertion]
    split_ifs <;> omega
  refine ⟨⟨insertion p m, back, hleft, hright⟩, fun k hk => ?_, rfl⟩
  show insertion p m k = k
  rw [insertion]
  split_ifs <;> omega

end Rearranged

/-! ## Comparisons -/

/-- **A comparison by a total preorder**: the sign turns round with the arguments, and not being
above is transitive. -/
structure Compares {α : Type*} (cmp : α → α → ℤ) : Prop where
  turn : ∀ x y, 0 < cmp x y ↔ cmp y x < 0
  trans : ∀ x y z, cmp x y ≤ 0 → cmp y z ≤ 0 → cmp x z ≤ 0

namespace Compares

variable {α : Type*} {cmp : α → α → ℤ} {a : ℤ → α} {x y : α} {lo hi : ℤ}

theorem le_of_gt (h : Compares cmp) (hxy : 0 < cmp x y) : cmp y x ≤ 0 := ((h.turn x y).mp hxy).le

theorem refl (h : Compares cmp) (x : α) : cmp x x ≤ 0 := by
  by_contra hx
  exact hx (h.le_of_gt (not_le.mp hx))

/-- A part that is not empty has a smallest entry. -/
theorem exists_least (h : Compares cmp) (a : ℤ → α) (n : ℕ) (lo : ℤ) :
    ∃ k, (lo ≤ k ∧ k < lo + n + 1) ∧ ∀ m, lo ≤ m → m < lo + n + 1 → cmp (a k) (a m) ≤ 0 := by
  induction n with
  | zero =>
    refine ⟨lo, by omega, fun m hm hm' => ?_⟩
    obtain rfl : m = lo := by omega
    exact h.refl _
  | succ n ih =>
    obtain ⟨k, hk, hleast⟩ := ih
    rcases lt_or_ge 0 (cmp (a k) (a (lo + n + 1))) with hgt | hle
    · refine ⟨lo + n + 1, by omega, fun m hm hm' => ?_⟩
      rcases eq_or_ne m (lo + n + 1) with rfl | hne
      · exact h.refl _
      · exact h.trans _ _ _ (h.le_of_gt hgt) (hleast m hm (by omega))
    · refine ⟨k, by omega, fun m hm hm' => ?_⟩
      rcases eq_or_ne m (lo + n + 1) with rfl | hne
      · exact hle
      · exact hleast m hm (by omega)

end Compares
