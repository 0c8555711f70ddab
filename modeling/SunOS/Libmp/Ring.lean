/-
# The ring operations

`madd`, `msub`, `mult` and `mcmp` on the objects of a program.  All are exact but `msub`,
and `mcmp` with it, where the first operand is negative and the second is not positive: that
branch of `msub` swaps the operands and changes the sign as well.
-/
import SunOS.Libmp.Mult

namespace Mp

open Function (update update_self)

variable {a b c : mint}

/-! ## Comparing lengths -/

/-- The length of a canonical number has its sign. -/
theorem Canon.sign_len (h : Canon a) : a.len.sign = a.num.sign := by
  rcases lt_trichotomy a.len 0 with h0 | h0 | h0
  · rw [Int.sign_eq_neg_one_of_neg h0, Int.sign_eq_neg_one_of_neg (h.num_neg.mpr h0)]
  · have hn : a.num = 0 := by
      rw [num_of_nonneg h0.ge, h.value_eq_zero.mpr h0]
    rw [h0, hn]
  · rw [Int.sign_eq_one_of_pos h0, Int.sign_eq_one_of_pos (h.num_pos.mpr h0)]

/-- A canonical number of smaller length is smaller. -/
theorem Canon.num_lt (ha : Canon a) (hb : Canon b) (h : a.len < b.len) : a.num < b.num := by
  by_cases ha0 : 0 ≤ a.len
  · rw [num_of_nonneg ha0, num_of_nonneg (by omega)]
    exact ha.value_lt hb (by omega)
  · have hneg := ha.num_neg.mpr (by omega)
    by_cases hb0 : 0 ≤ b.len
    · have hnn : 0 ≤ b.num := by
        rw [num_of_nonneg hb0]
        exact hb.digits.value_nonneg
      omega
    · have hlt := hb.value_lt ha (by omega)
      rw [num_of_neg (by omega), num_of_neg (by omega)]
      omega

/-- Different lengths compare as the numbers do. -/
theorem sign_len_sub (ha : Canon a) (hb : Canon b) (h : a.len ≠ b.len) :
    (a.len - b.len).sign = (a.num - b.num).sign := by
  rcases lt_or_gt_of_ne h with hlt | hlt
  · have := ha.num_lt hb hlt
    rw [Int.sign_eq_neg_one_of_neg (by omega), Int.sign_eq_neg_one_of_neg (by omega)]
  · have := hb.num_lt ha hlt
    rw [Int.sign_eq_one_of_pos (by omega), Int.sign_eq_one_of_pos (by omega)]

namespace Objs

variable {s s' : Objs} {a b c : ℕ} {x : ℤ}

/-! ## One call -/

/-- The object at `c` is the canonical form of `x`; no other object has changed. -/
structure Leaves (s : Objs) (c : ℕ) (x : ℤ) (s' : Objs) : Prop where
  canon : Canon (s' c)
  num : (s' c).num = x
  others : ∀ p, p ≠ c → s' p = s p

theorem leaves_update {m : mint} (hm : Canon m) : Leaves s c m.num (update s c m) := by
  refine ⟨?_, ?_, fun p hp => Function.update_of_ne hp m s⟩
  · rw [update_self]
    exact hm
  · rw [update_self]

/-- `mcan` changes no canonical object. -/
theorem update_mcan (h : Canon (s a)) : update s a (mcan (s a)) = s := by
  rw [mcan_canon h, Function.update_eq_self]

theorem madd_leaves (ha : Canon (s a)) (hb : Canon (s b)) :
    ∃ s', s.madd a b c = some s' ∧ Leaves s c ((s a).num + (s b).num) s' := by
  obtain ⟨m, hrun, hm, hval⟩ := madd_spec ha hb
  refine ⟨update s c m, ?_, ?_⟩
  · unfold Objs.madd
    rw [hrun]
    rfl
  · rw [← hval]
    exact leaves_update hm

theorem mult_leaves (ha : Canon (s a)) (hb : Canon (s b)) :
    ∃ s', s.mult a b c = some s' ∧ Leaves s c ((s a).num * (s b).num) s' := by
  obtain ⟨m, hrun, hm, hval⟩ := mult_spec ha hb
  refine ⟨update s c m, ?_, ?_⟩
  · unfold Objs.mult
    rw [update_mcan ha]
    show (Mp.mult ((update s b (mcan (s b))) a) _).map _ = _
    rw [update_mcan hb, hrun]
    rfl
  · rw [← hval]
    exact leaves_update hm

/-- Where `msub` has its operands the wrong way round. -/
def Swapped (s : Objs) (a b : ℕ) : Prop := (s a).num < 0 ∧ (s b).num ≤ 0

theorem swapped_iff (ha : Canon (s a)) (hb : Canon (s b)) :
    Swapped s a b ↔ (s a).len < 0 ∧ (s b).len ≤ 0 := by
  unfold Swapped
  rw [ha.num_neg, ← not_lt, ← not_lt (b := (s b).len), hb.num_pos]

theorem msub_leaves (ha : Canon (s a)) (hb : Canon (s b)) :
    ∃ s', s.msub a b c = some s' ∧
      (Swapped s a b → Leaves s c ((s b).num - (s a).num) s') ∧
      (¬ Swapped s a b → Leaves s c ((s a).num - (s b).num) s') := by
  obtain ⟨m, hrun, hm, hval⟩ := msub_spec ha hb
  rw [swapped_iff ha hb]
  refine ⟨update s c m, ?_, fun h => ?_, fun h => ?_⟩
  · unfold Objs.msub
    rw [hrun]
    rfl
  · rw [if_pos h] at hval
    rw [← hval]
    exact leaves_update hm
  · rw [if_neg h] at hval
    rw [← hval]
    exact leaves_update hm

/-- `mcmp` has the sign of the difference, unless it has it from a swapped `msub`. -/
theorem mcmp_sign (ha : Canon (s a)) (hb : Canon (s b)) (h : ¬ Swapped s a b ∨
    (s a).num = (s b).num) :
    ∃ r, s.mcmp a b = some (r, s) ∧ r.sign = ((s a).num - (s b).num).sign := by
  unfold Objs.mcmp
  rw [update_mcan ha]
  simp only
  rw [update_mcan hb]
  by_cases hlen : (s a).len ≠ (s b).len
  · rw [if_pos hlen]
    exact ⟨_, rfl, sign_len_sub ha hb hlen⟩
  · rw [if_neg hlen]
    obtain ⟨m, hrun, hm, hval⟩ := msub_spec ha hb
    refine ⟨m.len, by rw [hrun]; rfl, ?_⟩
    rw [hm.sign_len, hval]
    rw [swapped_iff ha hb] at h
    rcases h with h | h
    · rw [if_neg h]
    · rw [h, ite_self]

/-! ## All calls -/

/-- All four operations are exact at these operands, wherever the result goes. -/
structure Exact (s : Objs) (a b c : ℕ) : Prop where
  madd : ∃ s', s.madd a b c = some s' ∧ Leaves s c ((s a).num + (s b).num) s'
  msub : ∃ s', s.msub a b c = some s' ∧ Leaves s c ((s a).num - (s b).num) s'
  mult : ∃ s', s.mult a b c = some s' ∧ Leaves s c ((s a).num * (s b).num) s'
  mcmp : ∃ r, s.mcmp a b = some (r, s) ∧ r.sign = ((s a).num - (s b).num).sign

/-- **The operations are exact** on canonical operands but for a negative one from which
another that is not positive is subtracted. -/
theorem exact_iff (s : Objs) (a b c : ℕ) (ha : Canon (s a)) (hb : Canon (s b)) :
    Exact s a b c ↔ ¬ ((s a).num < 0 ∧ (s b).num ≤ 0 ∧ (s a).num ≠ (s b).num) := by
  obtain ⟨s', hrun, hswap, hsub⟩ := msub_leaves (c := c) ha hb
  constructor
  · rintro h ⟨ha0, hb0, hne⟩
    obtain ⟨s'', hrun', hleaves⟩ := h.msub
    rw [hrun] at hrun'
    obtain rfl := Option.some.inj hrun'
    have hnum := (hswap ⟨ha0, hb0⟩).num
    rw [hleaves.num] at hnum
    omega
  · intro h
    have hor : ¬ Swapped s a b ∨ (s a).num = (s b).num := by
      unfold Swapped
      omega
    refine ⟨madd_leaves ha hb, ⟨s', hrun, ?_⟩, mult_leaves ha hb, mcmp_sign ha hb hor⟩
    by_cases hs : Swapped s a b
    · have heq := hor.resolve_left (not_not_intro hs)
      have hl := hswap hs
      rw [heq] at hl ⊢
      exact hl
    · exact hsub hs

/-- Two objects at 0 and 1. -/
def two (x y : mint) : Objs := fun p => if p = 0 then x else y

/-- Five less minus three, over the first operand. -/
theorem exact_five_minus_three : Exact (two ⟨1, [5]⟩ ⟨-1, [3]⟩) 0 1 0 :=
  (exact_iff (two ⟨1, [5]⟩ ⟨-1, [3]⟩) 0 1 0
    ⟨⟨by decide, by unfold Radix.Digits; decide⟩, by decide⟩
    ⟨⟨by decide, by unfold Radix.Digits; decide⟩, by decide⟩).mpr (by decide)

/-- Minus five less minus three is two here. -/
theorem msub_minus_five_minus_three :
    Canon (two ⟨-1, [5]⟩ ⟨-1, [3]⟩ 0) ∧ Canon (two ⟨-1, [5]⟩ ⟨-1, [3]⟩ 1) ∧
      ¬ Exact (two ⟨-1, [5]⟩ ⟨-1, [3]⟩) 0 1 2 := by
  refine ⟨⟨⟨by decide, by unfold Radix.Digits; decide⟩, by decide⟩,
    ⟨⟨by decide, by unfold Radix.Digits; decide⟩, by decide⟩, fun h => ?_⟩
  obtain ⟨s', hrun, hleaves⟩ := h.msub
  have hval : ((two ⟨-1, [5]⟩ ⟨-1, [3]⟩).msub 0 1 2).map (fun s => s 2) = some ⟨1, [2]⟩ := by
    decide +kernel
  rw [hrun] at hval
  have h2 : s' 2 = ⟨1, [2]⟩ := Option.some.inj hval
  have hnum := hleaves.num
  rw [h2] at hnum
  revert hnum
  decide

end Objs

end Mp
