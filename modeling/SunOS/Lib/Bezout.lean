/-
# Euclid's algorithm with one coefficient

The remainders of `x` by `y` go down to the greatest common divisor, and for each of them a
coefficient of `y` is kept, so that `y` times the coefficient is the remainder modulo `x`.  The
coefficients change sign from step to step and stay within `x`; an arithmetic whose subtraction is
not to be trusted on two negative operands can therefore still run it.
-/
import Mathlib.Data.Int.ModEq
import Mathlib.Data.Int.GCD
import Mathlib.Algebra.Order.Ring.Abs
import Mathlib.Tactic.Linarith
import Mathlib.Tactic.Ring
import Mathlib.RingTheory.Coprime.Lemmas
import Mathlib.Tactic.LinearCombination

namespace Bezout

variable {x y u u' v v' : ℤ}

/-- Two successive remainders `u'` and `v'`, with the coefficients `u` and `v` of `y`. -/
structure Coeffs (x y u u' v v' : ℤ) : Prop where
  left : y * u ≡ u' [ZMOD x]
  right : y * v ≡ v' [ZMOD x]
  pos : 0 < u'
  nonneg : 0 ≤ v'
  sum : |u| * v' + |v| * u' = x
  le : |u| ≤ x
  alternate : u * v ≤ 0
  left_neg : u < 0 → 0 < v ∧ v' < u'
  right_neg : v < 0 → 0 < u
  gcd : Int.gcd u' v' = Int.gcd x y

theorem Coeffs.start (hx : 0 < x) (hy : 0 ≤ y) : Coeffs x y 0 x 1 y where
  left := by
    rw [mul_zero]
    exact (Int.modEq_zero_iff_dvd.mpr dvd_rfl).symm
  right := by rw [mul_one]
  pos := hx
  nonneg := hy
  sum := by rw [abs_zero, abs_one]; ring
  le := by rw [abs_zero]; exact hx.le
  alternate := by rw [zero_mul]
  left_neg h := absurd h (lt_irrefl 0)
  right_neg h := absurd h (by norm_num)
  gcd := rfl

/-- The subtraction of a step never has two operands that are not positive, the first negative. -/
theorem Coeffs.minuend (h : Coeffs x y u u' v v') (hv : 0 < v') :
    ¬ (u < 0 ∧ u' / v' * v ≤ 0) := by
  rintro ⟨hu, hle⟩
  obtain ⟨hv0, hlt⟩ := h.left_neg hu
  have hq : 1 ≤ u' / v' := (Int.le_ediv_iff_mul_le hv).mpr (by rw [one_mul]; exact hlt.le)
  exact absurd (mul_pos (one_pos.trans_le hq) hv0) (not_lt.mpr hle)

/-- **One step.** -/
theorem Coeffs.step (h : Coeffs x y u u' v v') (hv : 0 < v') :
    Coeffs x y v v' (u - u' / v' * v) (u' % v') := by
  have hq : 0 ≤ u' / v' := Int.ediv_nonneg h.pos.le hv.le
  have hr0 := Int.emod_nonneg u' hv.ne'
  have hr1 := Int.emod_lt_of_pos u' hv
  have hdiv := Int.mul_ediv_add_emod u' v'
  have hgcd : Int.gcd v' (u' % v') = Int.gcd x y := by
    rw [Int.gcd_comm, Int.gcd_emod, h.gcd]
  generalize u' / v' = q at hq hdiv
  generalize u' % v' = r at hr0 hr1 hdiv hgcd
  -- the signs alternate, so nothing cancels
  have habs : |u - q * v| = |u| + q * |v| := by
    rcases lt_trichotomy v 0 with hneg | rfl | hpos
    · have hu := h.right_neg hneg
      have hqv : q * v ≤ 0 := mul_nonpos_of_nonneg_of_nonpos hq hneg.le
      rw [abs_of_pos hu, abs_of_neg hneg, abs_of_nonneg (by linarith)]
      ring
    · rw [mul_zero, sub_zero, abs_zero, mul_zero, add_zero]
    · have hu : u ≤ 0 := nonpos_of_mul_nonpos_left h.alternate hpos
      have hqv : 0 ≤ q * v := mul_nonneg hq hpos.le
      rw [abs_of_nonpos hu, abs_of_pos hpos, abs_of_nonpos (by linarith)]
      ring
  refine ⟨h.right, ?_, hv, hr0, ?_, ?_, ?_, ?_, ?_, hgcd⟩
  · have heq : r = u' - q * v' := by linarith [mul_comm q v']
    rw [heq, mul_sub]
    refine h.left.sub ?_
    have hmul := h.right.mul_left q
    rwa [show q * (y * v) = y * (q * v) by ring] at hmul
  · rw [habs]
    linear_combination h.sum + |v| * hdiv
  · have hle : |v| * 1 ≤ |v| * u' := mul_le_mul_of_nonneg_left h.pos (abs_nonneg v)
    have h0 : 0 ≤ |u| * v' := mul_nonneg (abs_nonneg u) h.nonneg
    linarith [h.sum]
  · have hsq : 0 ≤ q * (v * v) := mul_nonneg hq (mul_self_nonneg v)
    have halt := h.alternate
    linarith [show v * (u - q * v) = u * v - q * (v * v) by ring]
  · intro hneg
    have hu := h.right_neg hneg
    have hqv : q * v ≤ 0 := mul_nonpos_of_nonneg_of_nonpos hq hneg.le
    exact ⟨by linarith, hr1⟩
  · intro hneg
    by_contra hle
    rcases (not_lt.mp hle).lt_or_eq with hv0 | rfl
    · have hu := h.right_neg hv0
      have hqv : q * v ≤ 0 := mul_nonpos_of_nonneg_of_nonpos hq hv0.le
      linarith
    · rw [mul_zero, sub_zero] at hneg
      exact lt_irrefl 0 (h.left_neg hneg).1

/-- **At the end** the coefficient is the inverse, up to `x`. -/
theorem Coeffs.done (h : Coeffs x y u u' v 0) (hx : 1 < x) (hco : IsCoprime y x) :
    y * u ≡ 1 [ZMOD x] ∧ |u| < x ∧ u ≠ 0 := by
  have hone : u' = 1 := by
    have hg := h.gcd
    rw [Int.gcd_zero_right, Int.isCoprime_iff_gcd_eq_one.mp hco.symm] at hg
    have := h.pos
    omega
  have hinv : y * u ≡ 1 [ZMOD x] := hone ▸ h.left
  have hnot : ¬ x ∣ u := by
    intro hdvd
    have h0 : y * u ≡ 0 [ZMOD x] := Int.modEq_zero_iff_dvd.mpr (hdvd.mul_left y)
    have hdvd1 := Int.modEq_zero_iff_dvd.mp (hinv.symm.trans h0)
    have := Int.le_of_dvd one_pos hdvd1
    omega
  refine ⟨hinv, lt_of_le_of_ne h.le ?_, ?_⟩
  · intro heq
    exact hnot ((dvd_abs x u).mp (by rw [heq]))
  · rintro rfl
    exact hnot (dvd_zero x)

end Bezout
