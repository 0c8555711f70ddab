/-
# Shell sort

The sort of a part of an array, from 1 to `n`, by comparisons over smaller and smaller gaps.
Every pass only swaps entries; the last one, over neighbours, is an insertion sort.
-/
import Mathlib.Logic.Equiv.Basic
import Mathlib.Order.Defs.LinearOrder
import Mathlib.Data.List.Range
import Mathlib.Tactic.Ring

namespace ShellSort

open Function (comp_apply update_of_ne update_self)

variable {α κ : Type*}

/-! ## The algorithm -/

/-- Two entries change places. -/
def swap (a : ℕ → α) (i j : ℕ) : ℕ → α :=
  Function.update (Function.update a i (a j)) j (a i)

/-- The entry at `i + m` goes down by steps of `m` as long as it is not above, by `gt`, the
one it meets; the walk ends at 0. -/
def sift (gt : α → α → Bool) (m : ℕ) : ℕ → ℕ → (ℕ → α) → ℕ → α
  | 0, _, a => a
  | fuel + 1, i, a =>
      if i = 0 then a
      else if gt (a (i + m)) (a i) then a
      else sift gt m fuel (i - m) (swap a i (i + m))

/-- A pass with the gap `m`. -/
def pass (gt : α → α → Bool) (m k : ℕ) (a : ℕ → α) : ℕ → α :=
  (List.range k).foldl (fun a j => sift gt m (j + 1) (j + 1) a) a

/-- The passes from the gap `m` on. -/
def passes (gt : α → α → Bool) (n : ℕ) : ℕ → ℕ → (ℕ → α) → ℕ → α
  | 0, _, a => a
  | fuel + 1, m, a => if m = 0 then a else passes gt n fuel (m / 2) (pass gt m (n - m) a)

/-- `2 * j - 1` for the last power of two `j` that is at most `n`. -/
def gap (n : ℕ) : ℕ → ℕ → ℕ → ℕ
  | 0, _, m => m
  | fuel + 1, j, m => if j ≤ n then gap n fuel (j * 2) (2 * j - 1) else m

/-- The sort of the entries from 1 to `n`. -/
def sort (gt : α → α → Bool) (n : ℕ) (a : ℕ → α) : ℕ → α :=
  if n = 0 then a
  else
    let m := gap n (n + 1) 1 0
    passes gt n (m + 1) (m / 2) a

/-! ## Only swaps -/

variable {gt : α → α → Bool} {a b c : ℕ → α} {n m i k : ℕ}

/-- `b` has the entries of `a` from 1 to `n`, each once, and those outside in place. -/
def Shuffled (n : ℕ) (a b : ℕ → α) : Prop :=
  ∃ σ : Equiv.Perm ℕ, (∀ i, ¬ (1 ≤ i ∧ i ≤ n) → σ i = i) ∧ b = a ∘ σ

namespace Shuffled

theorem refl (n : ℕ) (a : ℕ → α) : Shuffled n a a := ⟨Equiv.refl ℕ, fun _ _ => rfl, rfl⟩

theorem trans (h : Shuffled n a b) (h' : Shuffled n b c) : Shuffled n a c := by
  obtain ⟨σ, hσ, rfl⟩ := h
  obtain ⟨τ, hτ, rfl⟩ := h'
  refine ⟨τ.trans σ, fun i hi => ?_, rfl⟩
  rw [Equiv.trans_apply, hτ i hi, hσ i hi]

theorem swap {j : ℕ} (hi : 1 ≤ i ∧ i ≤ n) (hj : 1 ≤ j ∧ j ≤ n) :
    Shuffled n a (ShellSort.swap a i j) := by
  refine ⟨Equiv.swap i j, fun k hk => Equiv.swap_apply_of_ne_of_ne ?_ ?_, ?_⟩
  · rintro rfl
    exact hk hi
  · rintro rfl
    exact hk hj
  · funext k
    rw [comp_apply, Equiv.swap_apply_def]
    unfold ShellSort.swap
    by_cases hkj : k = j
    · subst hkj
      rw [update_self]
      by_cases hki : k = i
      · rw [if_pos hki, hki]
      · rw [if_neg hki, if_pos rfl]
    · rw [update_of_ne hkj]
      by_cases hki : k = i
      · subst hki
        rw [update_self, if_pos rfl]
      · rw [update_of_ne hki, if_neg hki, if_neg hkj]

/-- Every entry is one of the old ones. -/
theorem entry (h : Shuffled n a b) (hi : 1 ≤ i ∧ i ≤ n) :
    ∃ j, (1 ≤ j ∧ j ≤ n) ∧ b i = a j := by
  obtain ⟨σ, hσ, rfl⟩ := h
  refine ⟨σ i, ?_, rfl⟩
  by_contra hout
  rw [σ.injective (hσ (σ i) hout)] at hout
  exact hout hi

/-- Every old entry is one of the new ones. -/
theorem back (h : Shuffled n a b) (hi : 1 ≤ i ∧ i ≤ n) :
    ∃ j, (1 ≤ j ∧ j ≤ n) ∧ b j = a i := by
  obtain ⟨σ, hσ, rfl⟩ := h
  refine ⟨σ.symm i, ?_, by rw [comp_apply, Equiv.apply_symm_apply]⟩
  by_contra hout
  have hfix := hσ _ hout
  rw [Equiv.apply_symm_apply] at hfix
  rw [← hfix] at hout
  exact hout hi

/-- What is different in the old array is so in the new one. -/
theorem injOn {f : α → κ} (h : Shuffled n a b)
    (hinj : ∀ i j, 1 ≤ i ∧ i ≤ n → 1 ≤ j ∧ j ≤ n → f (a i) = f (a j) → i = j) :
    ∀ i j, 1 ≤ i ∧ i ≤ n → 1 ≤ j ∧ j ≤ n → f (b i) = f (b j) → i = j := by
  obtain ⟨σ, hσ, rfl⟩ := h
  have hin : ∀ i, 1 ≤ i ∧ i ≤ n → 1 ≤ σ i ∧ σ i ≤ n := by
    intro i hi
    by_contra hout
    rw [σ.injective (hσ (σ i) hout)] at hout
    exact hout hi
  intro i j hi hj hij
  exact σ.injective (hinj _ _ (hin i hi) (hin j hj) hij)

end Shuffled

theorem sift_shuffled (hm : 1 ≤ m) :
    ∀ (fuel i : ℕ) (a : ℕ → α), i + m ≤ n → Shuffled n a (sift gt m fuel i a) := by
  intro fuel
  induction fuel with
  | zero => exact fun i a _ => Shuffled.refl n a
  | succ fuel ih =>
    intro i a hi
    unfold sift
    by_cases h0 : i = 0
    · rw [if_pos h0]
      exact Shuffled.refl n a
    · rw [if_neg h0]
      by_cases hgt : gt (a (i + m)) (a i) = true
      · rw [if_pos hgt]
        exact Shuffled.refl n a
      · rw [if_neg hgt]
        exact (Shuffled.swap ⟨by omega, by omega⟩ ⟨by omega, hi⟩).trans
          (ih (i - m) _ (by omega))

theorem pass_shuffled (hm : 1 ≤ m) (hk : k + m ≤ n) (a : ℕ → α) :
    Shuffled n a (pass gt m k a) := by
  unfold pass
  induction k with
  | zero => exact Shuffled.refl n a
  | succ k ih =>
    rw [List.range_succ, List.foldl_append]
    exact (ih (by omega)).trans (sift_shuffled hm _ _ _ (by omega))

theorem passes_shuffled :
    ∀ (fuel m : ℕ) (a : ℕ → α), m ≤ n → Shuffled n a (passes gt n fuel m a) := by
  intro fuel
  induction fuel with
  | zero => exact fun m a _ => Shuffled.refl n a
  | succ fuel ih =>
    intro m a hm
    unfold passes
    by_cases h0 : m = 0
    · rw [if_pos h0]
      exact Shuffled.refl n a
    · rw [if_neg h0]
      exact (pass_shuffled (by omega) (by omega) a).trans (ih _ _ (by omega))

/-! ## The last pass -/

variable [LinearOrder κ] {key : α → κ}

/-- The entries from 1 to `n` are in order. -/
def Ordered (key : α → κ) (n : ℕ) (a : ℕ → α) : Prop :=
  ∀ p q, 1 ≤ p → p < q → q ≤ n → key (a p) ≤ key (a q)

/-- They are but for the one at `i`, which is not above any after it. -/
def Except (key : α → κ) (n i : ℕ) (a : ℕ → α) : Prop :=
  (∀ p q, 1 ≤ p → p < q → q ≤ n → p ≠ i → q ≠ i → key (a p) ≤ key (a q)) ∧
    ∀ q, i < q → q ≤ n → key (a i) ≤ key (a q)

section

variable (hgt : ∀ x y, gt x y = true ↔ key y < key x)
include hgt

/-- One entry goes down to its place. -/
theorem sift_ordered : ∀ (fuel i : ℕ) (a : ℕ → α), i ≤ fuel → i + 1 ≤ n → Except key n (i + 1) a →
      Ordered key n (sift gt 1 fuel i a) := by
  have hzero : ∀ a : ℕ → α, Except key n 1 a → Ordered key n a := by
    rintro a ⟨h1, h2⟩ p q hp hpq hq
    by_cases hp1 : p = 1
    · subst hp1
      exact h2 q hpq hq
    · exact h1 p q hp hpq hq hp1 (by lia)
  intro fuel
  induction fuel with
  | zero =>
    intro i a hi _ h
    obtain rfl : i = 0 := by lia
    exact hzero a h
  | succ fuel ih =>
    intro i a hi hin h
    unfold sift
    by_cases h0 : i = 0
    · rw [if_pos h0]
      subst h0
      exact hzero a h
    · rw [if_neg h0]
      obtain ⟨h1, h2⟩ := h
      by_cases hlt : gt (a (i + 1)) (a i) = true
      · rw [if_pos hlt]
        rw [hgt] at hlt
        intro p q hp hpq hq
        by_cases hpi : p = i + 1
        · subst hpi
          exact h2 q hpq hq
        · by_cases hqi : q = i + 1
          · subst hqi
            rcases Nat.lt_or_ge p i with hpi' | hpi'
            · exact (h1 p i hp hpi' (by lia) hpi (by lia)).trans hlt.le
            · obtain rfl : p = i := by lia
              exact hlt.le
          · exact h1 p q hp hpq hq hpi hqi
      · rw [if_neg hlt]
        rw [hgt, not_lt] at hlt
        obtain ⟨j, rfl⟩ : ∃ j, i = j + 1 := ⟨i - 1, by lia⟩
        rw [Nat.add_sub_cancel]
        -- the entry is at `j + 1` now
        have hself : swap a (j + 1) (j + 1 + 1) (j + 1) = a (j + 1 + 1) := by
          unfold swap
          rw [update_of_ne (by lia), update_self]
        have hnext : swap a (j + 1) (j + 1 + 1) (j + 1 + 1) = a (j + 1) := by
          unfold swap
          rw [update_self]
        have hother : ∀ p, p ≠ j + 1 → p ≠ j + 1 + 1 → swap a (j + 1) (j + 1 + 1) p = a p := by
          intro p hp hp'
          unfold swap
          rw [update_of_ne hp', update_of_ne hp]
        refine ih j _ (by lia) (by lia) ⟨fun p q hp hpq hq hpj hqj => ?_, fun q hq hqn => ?_⟩
        · by_cases hp' : p = j + 1 + 1
          · subst hp'
            rw [hnext, hother q hqj (by lia)]
            exact h1 (j + 1) q (by lia) (by lia) hq (by lia) (by lia)
          · rw [hother p hpj hp']
            by_cases hq' : q = j + 1 + 1
            · subst hq'
              rw [hnext]
              exact h1 p (j + 1) hp (by lia) (by lia) hp' (by lia)
            · rw [hother q hqj hq']
              exact h1 p q hp hpq hq hp' hq'
        · rw [hself]
          by_cases hq' : q = j + 1 + 1
          · subst hq'
            rw [hnext]
            exact hlt
          · rw [hother q (by lia) hq']
            exact h2 q (by lia) hqn

/-- **The pass over neighbours** sorts. -/
theorem pass_one (k : ℕ) (a : ℕ → α) : Ordered key (k + 1) (pass gt 1 k a) := by
  unfold pass
  induction k with
  | zero =>
    intro p q hp hpq hq
    omega
  | succ k ih =>
    rw [List.range_succ, List.foldl_append]
    refine sift_ordered hgt _ _ _ le_rfl le_rfl ⟨fun p q hp hpq hq _ hqk => ?_, fun q hq hqn => ?_⟩
    · exact ih p q hp hpq (by omega)
    · omega

/-- The gaps are one less than the powers of two, so that the last one is 1. -/
theorem passes_ordered : ∀ (t fuel : ℕ) (a : ℕ → α), 2 ^ (t + 1) - 1 ≤ n → t < fuel →
      Ordered key n (passes gt n fuel (2 ^ (t + 1) - 1) a) := by
  intro t
  induction t with
  | zero =>
    intro fuel a hn hf
    obtain ⟨fuel, rfl⟩ : ∃ f, fuel = f + 1 := ⟨fuel - 1, by lia⟩
    have hone := pass_one hgt (n - 1) a
    rw [show n - 1 + 1 = n by lia] at hone
    unfold passes
    have hstop : ∀ b : ℕ → α, passes gt n fuel ((2 ^ (0 + 1) - 1) / 2) b = b := by
      intro b
      cases fuel with
      | zero => rfl
      | succ f => rfl
    rw [if_neg (by norm_num), hstop]
    exact hone
  | succ t ih =>
    intro fuel a hn hf
    obtain ⟨fuel, rfl⟩ : ∃ f, fuel = f + 1 := ⟨fuel - 1, by lia⟩
    have hpos : 1 ≤ 2 ^ (t + 1) := Nat.one_le_two_pow
    unfold passes
    rw [if_neg (by lia), show (2 ^ (t + 1 + 1) - 1) / 2 = 2 ^ (t + 1) - 1 by lia]
    exact ih fuel _ (by lia) (by lia)

end

/-- The first gap. -/
theorem gap_spec : ∀ (fuel t m : ℕ), n < 2 ^ t * 2 ^ fuel → 2 ^ t ≤ n →
    ∃ s, gap n (fuel + 1) (2 ^ t) m = 2 ^ (s + 1) - 1 ∧ 2 ^ s ≤ n ∧ n < 2 ^ (s + 1) := by
  intro fuel
  induction fuel with
  | zero =>
    intro t m h1 h2
    omega
  | succ fuel ih =>
    intro t m h1 h2
    unfold gap
    rw [if_pos h2]
    have hpow : 2 ^ t * 2 = 2 ^ (t + 1) := (pow_succ 2 t).symm
    rw [hpow]
    by_cases hle : 2 ^ (t + 1) ≤ n
    · refine ih (t + 1) _ ?_ hle
      rw [← hpow, mul_assoc, ← pow_succ']
      exact h1
    · refine ⟨t, ?_, h2, not_le.mp hle⟩
      unfold gap
      rw [if_neg hle, ← hpow, mul_comm]

/-- **Shell sort** sorts the entries from 1 to `n`. -/
theorem sort_spec (hgt : ∀ x y, gt x y = true ↔ key y < key x) (n : ℕ) (a : ℕ → α) :
    Shuffled n a (sort gt n a) ∧ Ordered key n (sort gt n a) := by
  unfold sort
  by_cases h0 : n = 0
  · rw [if_pos h0]
    refine ⟨Shuffled.refl n a, fun p q hp hpq hq => ?_⟩
    lia
  · rw [if_neg h0]
    obtain ⟨s, hs, hle, hlt⟩ := gap_spec (n := n) n 0 0
      (by simpa using Nat.lt_two_pow_self) (by simpa using Nat.one_le_iff_ne_zero.mpr h0)
    rw [pow_zero] at hs
    simp only [hs]
    have hhalf : (2 ^ (s + 1) - 1) / 2 = 2 ^ s - 1 := by lia
    rw [hhalf]
    refine ⟨passes_shuffled _ _ _ (by lia), ?_⟩
    cases s with
    | zero =>
      -- one entry
      intro p q hp hpq hq
      lia
    | succ t =>
      refine passes_ordered hgt t _ _ (by lia) ?_
      have : t < 2 ^ (t + 1) := (Nat.lt_succ_self t).trans Nat.lt_two_pow_self
      lia

end ShellSort
