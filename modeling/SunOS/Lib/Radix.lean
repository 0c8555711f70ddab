/-
# Numbers in a radix

A list of digits, the lowest first, stands for a number in radix `B`.  Digits here are
integers, so that a list may also hold what is not yet a digit; `Digits` says that they
are.
-/
import Mathlib.Tactic.Linarith
import Mathlib.Tactic.Ring
import Mathlib.Algebra.Order.Ring.Int
import Mathlib.Tactic.LinearCombination

namespace Radix

open List

variable {B : ℤ} {l m : List ℤ} {d : ℤ}

/-- The number that a list of digits stands for. -/
def value (B : ℤ) : List ℤ → ℤ
  | [] => 0
  | d :: l => d + B * value B l

/-- Every entry is a digit. -/
def Digits (B : ℤ) (l : List ℤ) : Prop := ∀ d ∈ l, 0 ≤ d ∧ d < B

@[simp] theorem value_nil : value B [] = 0 := rfl

@[simp] theorem value_cons : value B (d :: l) = d + B * value B l := rfl

theorem value_append : value B (l ++ m) = value B l + B ^ l.length * value B m := by
  induction l with
  | nil => simp
  | cons d l ih =>
    rw [cons_append, value_cons, value_cons, ih, length_cons, pow_succ]
    ring

theorem digits_nil : Digits B [] := fun _ h => absurd h not_mem_nil

theorem digits_cons : Digits B (d :: l) ↔ (0 ≤ d ∧ d < B) ∧ Digits B l := by
  unfold Digits
  rw [forall_mem_cons]

theorem digits_append : Digits B (l ++ m) ↔ Digits B l ∧ Digits B m := by
  unfold Digits
  rw [forall_mem_append]

theorem Digits.pos (h : Digits B (d :: l)) : 0 < B := by
  obtain ⟨⟨h0, hlt⟩, -⟩ := digits_cons.mp h
  omega

theorem Digits.value_nonneg (h : Digits B l) : 0 ≤ value B l := by
  induction l with
  | nil => exact le_rfl
  | cons d l ih =>
    have hB := h.pos
    obtain ⟨⟨h0, -⟩, hl⟩ := digits_cons.mp h
    rw [value_cons]
    have := mul_nonneg hB.le (ih hl)
    omega

/-- A number of `n` digits is below `B ^ n`. -/
theorem Digits.value_lt (h : Digits B l) : value B l < B ^ l.length := by
  induction l with
  | nil => simp
  | cons d l ih =>
    have hB := h.pos
    obtain ⟨⟨-, hlt⟩, hl⟩ := digits_cons.mp h
    have hle : value B l + 1 ≤ B ^ l.length := ih hl
    have hmul := mul_le_mul_of_nonneg_left hle hB.le
    rw [value_cons, length_cons, pow_succ, mul_comm (B ^ l.length) B]
    linarith

/-- A number whose top digit is not zero is at least `B ^ n`. -/
theorem Digits.le_value (h : Digits B (l ++ [d])) (hd : 1 ≤ d) :
    B ^ l.length ≤ value B (l ++ [d]) := by
  obtain ⟨hl, hdd⟩ := digits_append.mp h
  have hB := hdd.pos
  rw [value_append, value_cons, value_nil, mul_zero, add_zero]
  have h0 := hl.value_nonneg
  have hpow : 0 ≤ B ^ l.length := pow_nonneg hB.le _
  have hmul := mul_le_mul_of_nonneg_left hd hpow
  linarith

theorem value_replicate_zero (n : ℕ) : value B (List.replicate n 0) = 0 := by
  induction n with
  | zero => rfl
  | succ n ih =>
    rw [replicate_succ, value_cons, ih]
    ring

/-- Leading zeros do not count. -/
theorem value_append_zeros (h : ∀ d ∈ m, d = 0) : value B (l ++ m) = value B l := by
  have hm : m = List.replicate m.length 0 := List.eq_replicate_iff.mpr ⟨rfl, h⟩
  rw [value_append, hm, value_replicate_zero]
  ring

/-- The complement of every digit. -/
theorem value_complement : value B (l.map fun d => B - 1 - d) = B ^ l.length - 1 - value B l := by
  induction l with
  | nil => simp
  | cons d l ih =>
    rw [map_cons, value_cons, value_cons, ih, length_cons, pow_succ]
    ring

end Radix

/-! # One digit of a long division

The dividend `U` has one digit more than the divisor `V`, and `U < B * V`, so that the
quotient is one digit.  `U` is split after its three top digits and `V` after its two, with
`W` the weight of the lowest of them.  A digit that fits the top digits is at most one too
high.
-/

namespace Radix

open List

variable {B W U V u v q d u1 u2 u3 v1 v2 Ul Vl : ℤ}

/-- A quotient of the whole numbers fits their upper parts. -/
theorem fits_upper (hU : U = u * W + Ul) (hUl : Ul < W) (hV : V = v * W + Vl) (hVl : 0 ≤ Vl)
    (hW : 0 < W) (hq : 0 ≤ q) (h : q * V ≤ U) : q * v ≤ u := by
  have hmul : 0 ≤ q * Vl := mul_nonneg hq hVl
  have hlt : q * v * W < (u + 1) * W := by
    calc q * v * W ≤ q * v * W + q * Vl := by omega
      _ = q * V := by rw [hV]; ring
      _ ≤ u * W + Ul := by rw [← hU]; exact h
      _ < u * W + W := by omega
      _ = (u + 1) * W := by ring
  have := lt_of_mul_lt_mul_right hlt hW.le
  omega

/-- A quotient that fits the upper parts is at most one too high. -/
theorem upper_fits (hU : U = u * W + Ul) (hUl : 0 ≤ Ul) (hV : V = v * W + Vl) (hVl : Vl < W)
    (hW : 0 < W) (hBW : B * W ≤ V) (hd0 : 0 ≤ d) (hd : d < B) (h : d * v ≤ u) :
    d * V < U + V := by
  have h1 : d * v * W ≤ u * W := mul_le_mul_of_nonneg_right h hW.le
  have h2 : d * Vl ≤ d * W := mul_le_mul_of_nonneg_left hVl.le hd0
  have h3 : d * W < B * W := mul_lt_mul_of_pos_right hd hW
  calc d * V = d * v * W + d * Vl := by rw [hV]; ring
    _ < u * W + B * W := by omega
    _ ≤ U + V := by omega

/-- The top digit of the dividend is at most that of the divisor. -/
theorem top_le (hU : U = (u1 * B * B + u2 * B + u3) * W + Ul) (hUl : 0 ≤ Ul)
    (hV : V = (v1 * B + v2) * W + Vl) (hVl : Vl < W) (hu2 : 0 ≤ u2) (hu3 : 0 ≤ u3) (hv2 : v2 < B)
    (hW : 0 < W) (hB : 0 < B) (h : U < B * V) : u1 ≤ v1 := by
  have hlow : 0 ≤ (u2 * B + u3) * W := by positivity
  have hv : (v2 + 1) * W ≤ B * W := mul_le_mul_of_nonneg_right (by omega) hW.le
  have hlt : u1 * (B * B * W) < (v1 + 1) * (B * B * W) := by
    calc u1 * (B * B * W) ≤ u1 * (B * B * W) + (u2 * B + u3) * W + Ul := by omega
      _ = U := by rw [hU]; ring
      _ < B * V := h
      _ ≤ B * (v1 * B * W + (v2 + 1) * W) := by
          refine mul_le_mul_of_nonneg_left ?_ hB.le
          rw [hV]
          linarith
      _ ≤ B * (v1 * B * W + B * W) := mul_le_mul_of_nonneg_left (by omega) hB.le
      _ = (v1 + 1) * (B * B * W) := by ring
  have := lt_of_mul_lt_mul_right hlt (by positivity)
  omega

/-- The next window of a long division is below `B * V`. -/
theorem window_lt (hx : d < B) (hU : U < V) (hB : 0 < B) : d + B * U < B * V := by
  have hmul : B * (U + 1) ≤ B * V := mul_le_mul_of_nonneg_left (by omega) hB.le
  linarith

end Radix
