/-
# Powers, inverses and roots (`pow.c`, `gcd.c`, `msqrt.c`)

`pow` squares and multiplies, from the top bit of the exponent down; `invert` is Euclid's
algorithm, with the coefficient of one operand only; `msqrt` is Newton's iteration, from above.
Their operands are not negative, and then the signed operations below them are exact.

The copies of the operands, and the objects that `mult` and `mcmp` strip, are variables of the
calls.  The loops of `invert` and `msqrt` have fuel: `none` is a loop that has not ended yet.
-/
import SunOS.Libmp.Divide
import SunOS.Lib.Bezout
import Mathlib.Data.Nat.ModEq

namespace Mp

open Function (update update_of_ne update_self)
open List
open Option (bind_eq_bind bind_some)
open Radix

variable {a b c d a0 c0 x y : mint} {e : ℕ} {fuel : ℕ}

/-! ## The code -/

/-- `mcmp(a,b)` on two variables. -/
def mcmp (a b : mint) : Option ℤ :=
  let a := mcan a
  let b := mcan b
  if a.len ≠ b.len then some (a.len - b.len) else (msub depth a b).map mint.len

/-- `mult(a,b,c)` on variables: it strips `*a` and `*b`. -/
def mul (a b : mint) : Option mint := mult (mcan a) (mcan b)

/-- The inner loop of `pow`, with `i` rounds left. -/
def powloop (a0 c0 : mint) : ℕ → ℤ → mint → Option mint
  | 0, _, d => some d
  | i + 1, n, d => do
      let x ← mul d d
      let (_, d) ← mdiv x c0
      let n ← long (n * 2)
      if carried n then
        let x ← mul a0 d
        let (_, d) ← mdiv x c0
        powloop a0 c0 i n d
      else powloop a0 c0 i n d

/-- `pow(a,b,c,d)` -/
def pow (a b c : mint) : Option mint := do
  let a0 ← move a
  let b0 ← move b
  let c0 ← move c
  (b0.val.take b0.len.toNat).reverse.foldlM (fun d n => powloop a0 c0 15 n d) ⟨1, [1]⟩

/-- The variables of `invert`. -/
structure euclid where
  u2 : mint
  u3 : mint
  v2 : mint
  v3 : mint

/-- The loop of `invert`. -/
def invertloop : ℕ → euclid → Option euclid
  | 0, _ => none
  | fuel + 1, e => do
      let v3 := mcan e.v3
      if (← mcmp v3 ⟨0, []⟩) = 0 then some e
      else
        let (q, r) ← mdiv e.u3 v3
        let u3 ← move v3
        let v3 ← move r
        let v2 := mcan e.v2
        let t ← mul q v2
        let t ← msub depth e.u2 t
        let u2 ← move v2
        let v2 ← move t
        invertloop fuel ⟨u2, u3, v2, v3⟩

/-- `invert(x1,x0,c)` -/
def invert (fuel : ℕ) (x1 x0 : mint) : Option mint := do
  let u3 ← move x0
  let x0_prime ← move x0
  let v2 ← move ⟨1, [1]⟩
  let v3 ← move x1
  let e ← invertloop fuel ⟨⟨0, []⟩, u3, v2, v3⟩
  let c ← move e.u2
  let c := mcan c
  if (← mcmp c ⟨0, []⟩) < 0 then madd depth x0_prime c else some c

/-- The loop of `msqrt`. -/
def msqrtloop : ℕ → mint → mint → Option mint
  | 0, _, _ => none
  | fuel + 1, a0, x => do
      let (y, _) ← mdiv a0 x
      let y ← madd depth x y
      let (y, _) ← sdiv y 2
      let x := mcan x
      let y := mcan y
      if 0 < (← mcmp x y) then
        let x ← move y
        msqrtloop fuel a0 x
      else some x

/-- `msqrt(a,b,r)`: what it returns, `*b` and `*r`. -/
def msqrt (fuel : ℕ) (a : mint) : Option (ℤ × mint × mint) :=
  if a.len < 0 then none
  else if a.len = 0 then some (0, ⟨0, []⟩, ⟨0, []⟩)
  else do
    let len := if a.len % 2 = 1 then (1 + a.len) / 2 else 1 + a.len / 2
    let top := if a.len % 2 = 1 then 256 else 1
    let a0 ← move a
    let x ← msqrtloop fuel a0 ⟨len, List.replicate (len - 1).toNat 0 ++ [top]⟩
    let b ← move x
    let x ← mul x x
    let r ← msub depth a0 x
    some (r.len, b, r)

namespace Objs

/-- `pow(a,b,c,d)` on the objects at `a`, `b`, `c` and `d`. -/
def pow (s : Objs) (a b c d : ℕ) : Option Objs :=
  (Mp.pow (s a) (s b) (s c)).map (update s d)

/-- `invert(x1,x0,c)` on the objects at `x1`, `x0` and `c`. -/
def invert (fuel : ℕ) (s : Objs) (x1 x0 c : ℕ) : Option Objs :=
  (Mp.invert fuel (s x1) (s x0)).map (update s c)

/-- `msqrt(a,b,r)` on the objects at `a`, `b` and `r`. -/
def msqrt (fuel : ℕ) (s : Objs) (a b r : ℕ) : Option (ℤ × Objs) :=
  (Mp.msqrt fuel (s a)).map fun (n, x, y) => (n, update (update s b x) r y)

end Objs

/-! ## The operations on variables -/

theorem canon_zero : Canon ⟨0, []⟩ := ⟨⟨Nat.le_refl 0, digits_nil⟩, by simp [mint.mag]⟩

theorem num_zero : (⟨0, []⟩ : mint).num = 0 := rfl

theorem Canon.len_nonneg_iff (h : Canon a) : 0 ≤ a.len ↔ 0 ≤ a.num := by
  have := h.num_neg
  omega

theorem Canon.len_eq_zero_iff (h : Canon a) : a.len = 0 ↔ a.num = 0 := by
  have h1 := h.num_neg
  have h2 := h.num_pos
  omega

/-- The copy of a number. -/
theorem Canon.move (h : Canon a) : ∃ c, Mp.move a = some c ∧ Canon c ∧ c.num = a.num :=
  ⟨_, h.toValid.move, h.copy, h.toValid.num_move⟩

theorem mul_spec (ha : Canon a) (hb : Canon b) :
    ∃ c, mul a b = some c ∧ Canon c ∧ c.num = a.num * b.num := by
  unfold mul
  rw [mcan_canon ha, mcan_canon hb]
  exact mult_spec ha hb

/-- `msub` where it does not swap its operands. -/
theorem msub_exact (ha : Canon a) (hb : Canon b) (h : ¬ (a.num < 0 ∧ b.num ≤ 0)) :
    ∃ c, msub depth a b = some c ∧ Canon c ∧ c.num = a.num - b.num := by
  obtain ⟨c, hrun, hc, hval⟩ := msub_spec ha hb
  have hb0 := hb.num_pos
  rw [ha.num_neg, ← not_lt, hb0, not_lt] at h
  rw [if_neg h] at hval
  exact ⟨c, hrun, hc, hval⟩

/-- `mdiv` on numbers that are not negative. -/
theorem mdiv_nonneg (ha : Canon a) (hb : Canon b) (ha0 : 0 ≤ a.num) (hb0 : 0 < b.num) :
    ∃ q r, mdiv a b = some (q, r) ∧ Canon q ∧ Canon r ∧ q.num = a.num / b.num ∧
      r.num = a.num % b.num := by
  obtain ⟨q, r, x, y, hrun, hq, hr, habs, hy, hqn, hrn⟩ := mdiv_spec ha hb hb0.ne'
  have hsign : sign a b = 1 := by
    unfold sign
    rw [if_neg (by rw [← ha.num_neg]; omega), if_neg (by rw [← hb.num_neg]; omega), one_mul]
  rw [abs_of_nonneg ha0, abs_of_pos hb0] at habs
  rw [abs_of_pos hb0] at hy
  rw [hsign, one_mul] at hqn hrn
  refine ⟨q, r, hrun, hq, hr, ?_, ?_⟩
  · rw [hqn, habs, Int.add_comm, Int.add_mul_ediv_right _ _ hb0.ne',
      Int.ediv_eq_zero_of_lt hy.1 hy.2,
      zero_add]
  · rw [hrn, habs, Int.add_comm, Int.add_mul_emod_self_right, Int.emod_eq_of_lt hy.1 hy.2]

/-- `mcmp`, when the first operand is not negative or the second is zero. -/
theorem mcmp_spec (ha : Canon a) (hb : Canon b) (h : 0 ≤ a.num ∨ b.num = 0) :
    ∃ r, mcmp a b = some r ∧ r.sign = (a.num - b.num).sign := by
  unfold mcmp
  rw [mcan_canon ha, mcan_canon hb]
  by_cases hlen : a.len = b.len
  · simp only [hlen, ne_eq, not_true_eq_false, if_false]
    have hna : ¬ a.num < 0 := by
      rcases h with h | h
      · omega
      · rw [ha.num_neg, hlen, hb.len_eq_zero_iff.mpr h]
        exact lt_irrefl 0
    obtain ⟨m, hrun, hm, hval⟩ := msub_exact ha hb fun hneg => hna hneg.1
    refine ⟨m.len, by rw [hrun]; rfl, ?_⟩
    rw [hm.sign_len, hval]
  · simp only [hlen, ne_eq, not_false_eq_true, if_true]
    exact ⟨_, rfl, sign_len_sub ha hb hlen⟩

/-! ## pow -/

/-- The exponent that `i` rounds add, of which the next bits come first in `n`. -/
def expo (n i : ℕ) : ℕ := n * 2 ^ i / 32768 % 2 ^ i

/-- The next bit of the exponent. -/
theorem expo_succ (n i : ℕ) :
    expo n (i + 1) = 2 ^ i * (n * 2 / 32768 % 2) + expo (n * 2) i := by
  have hmul : n * 2 ^ (i + 1) = n * 2 * 2 ^ i := by ring
  have hdiv : n * 2 * 2 ^ i / 32768 / 2 ^ i = n * 2 / 32768 := by
    rw [Nat.div_div_eq_div_mul, Nat.mul_comm 32768, ← Nat.div_div_eq_div_mul,
      Nat.mul_div_cancel _ (by positivity)]
  unfold expo
  rw [hmul, Nat.mod_pow_succ, hdiv]
  ring

theorem carried_natCast (n : ℕ) : carried ((n : ℤ) * 2) = true ↔ n * 2 / 32768 % 2 = 1 := by
  unfold carried
  rw [decide_eq_true_iff]
  omega

/-- The numbers that `pow` works with. -/
structure Modulo (a c d : mint) (x : ℤ) : Prop where
  canon : Canon d
  nonneg : 0 ≤ d.num
  lt : d.num < c.num
  modEq : d.num ≡ x [ZMOD c.num]

/-- A product, reduced. -/
theorem mul_mdiv (hx : Canon x) (hy : Canon y) (hc : Canon c) (hx0 : 0 ≤ x.num)
    (hy0 : 0 ≤ y.num) (hc0 : 0 < c.num) :
    ∃ z q d, mul x y = some z ∧ mdiv z c = some (q, d) ∧ Modulo a c d (x.num * y.num) := by
  obtain ⟨z, hz, hzc, hzn⟩ := mul_spec hx hy
  obtain ⟨q, d, hd, -, hdc, -, hdn⟩ := mdiv_nonneg hzc hc (hzn ▸ mul_nonneg hx0 hy0) hc0
  refine ⟨z, q, d, hz, hd, hdc, ?_, ?_, ?_⟩
  · rw [hdn]
    exact Int.emod_nonneg _ hc0.ne'
  · rw [hdn]
    exact Int.emod_lt_of_pos _ hc0
  · rw [hdn, hzn]
    exact Int.mod_modEq _ _

/-- **The rounds for one digit.** -/
theorem powloop_spec (ha : Canon a) (hc : Canon c) (ha0 : 0 ≤ a.num) (hc0 : 0 < c.num) (i : ℕ) :
    ∀ (n : ℕ) {d : mint} {z : ℤ}, n * 2 ^ i < 2147483648 → Modulo a c d z →
      ∃ d', powloop a c i n d = some d' ∧
        Modulo a c d' (z ^ 2 ^ i * a.num ^ expo n i) := by
  induction i with
  | zero =>
    intro n d z _ hd
    refine ⟨d, rfl, ?_⟩
    unfold expo
    rw [pow_zero, pow_one, Nat.mod_one, pow_zero, mul_one]
    exact hd
  | succ i ih =>
    intro n d z hn hd
    have hmul : n * 2 ^ (i + 1) = n * 2 * 2 ^ i := by ring
    have hle : n * 2 * 1 ≤ n * 2 * 2 ^ i := Nat.mul_le_mul_left _ Nat.one_le_two_pow
    have hlong : long ((n : ℤ) * 2) = some ((n * 2 : ℕ) : ℤ) := by
      rw [long_of (by omega)]
      rfl
    obtain ⟨x, q, d1, hx, hd1, hm1⟩ := mul_mdiv (a := a) hd.canon hd.canon hc hd.nonneg
      hd.nonneg hc0
    have hz1 : d1.num ≡ z ^ 2 [ZMOD c.num] := by
      have hsq := hm1.modEq.trans (hd.modEq.mul hd.modEq)
      rwa [← sq] at hsq
    have hgoal : z ^ 2 ^ (i + 1) * a.num ^ expo n (i + 1) =
        (z ^ 2 * a.num ^ (n * 2 / 32768 % 2)) ^ 2 ^ i * a.num ^ expo (n * 2) i := by
      rw [expo_succ, mul_pow, ← pow_mul, ← pow_mul, pow_add a.num, pow_succ' 2 i,
        Nat.mul_comm (2 ^ i) (n * 2 / 32768 % 2)]
      ring
    unfold powloop
    simp only [hx, hd1, hlong, bind_eq_bind, bind_some]
    rw [hgoal]
    by_cases hbit : n * 2 / 32768 % 2 = 1
    · have hcar := (carried_natCast n).mpr hbit
      obtain ⟨x2, q2, d2, hx2, hd2, hm2⟩ := mul_mdiv (a := a) ha hm1.canon hc ha0 hm1.nonneg hc0
      have hz2 : d2.num ≡ z ^ 2 * a.num ^ 1 [ZMOD c.num] := by
        rw [pow_one, mul_comm]
        exact hm2.modEq.trans (hz1.mul_left a.num)
      push_cast at hcar ⊢
      simp only [hcar, if_true, hx2, hd2, bind_some]
      rw [hbit]
      have hrun := ih (n * 2) (by rw [← hmul]; exact hn)
        (⟨hm2.canon, hm2.nonneg, hm2.lt, hz2⟩ : Modulo a c d2 _)
      exact hrun
    · have hcar : carried ((n : ℤ) * 2) = false :=
        Bool.eq_false_iff.mpr fun h => hbit ((carried_natCast n).mp h)
      push_cast at hcar ⊢
      simp only [hcar, if_false, Bool.false_eq_true]
      rw [show n * 2 / 32768 % 2 = 0 by omega, pow_zero, mul_one]
      have hrun := ih (n * 2) (by rw [← hmul]; exact hn)
        (⟨hm1.canon, hm1.nonneg, hm1.lt, hz1⟩ : Modulo a c d1 _)
      exact hrun

/-- All bits of one digit. -/
theorem expo_digit {n : ℕ} (h : n < 32768) : expo n 15 = n := by
  unfold expo
  rw [show (2 : ℕ) ^ 15 = 32768 by norm_num, Nat.mul_div_cancel _ (by norm_num), Nat.mod_eq_of_lt h]

/-- **The digits of the exponent**, from the top one down. -/
theorem powdigits_spec (ha : Canon a) (hc : Canon c) (ha0 : 0 ≤ a.num) (hc0 : 0 < c.num)
    (l : List ℤ) : ∀ {d : mint} {e k : ℕ}, Digits 32768 l → Modulo a c d (a.num ^ e) →
    (k : ℤ) = value 32768 l.reverse + e * 32768 ^ l.length →
      ∃ d', l.foldlM (fun d n => powloop a c 15 n d) d = some d' ∧
        Modulo a c d' (a.num ^ k) := by
  induction l with
  | nil =>
    intro d e k _ hd hk
    have hke : k = e := by
      simp only [reverse_nil, value_nil, length_nil, pow_zero] at hk
      omega
    exact ⟨d, rfl, hke ▸ hd⟩
  | cons n l ih =>
    intro d e k hl hd hk
    obtain ⟨hn, hl'⟩ := digits_cons.mp hl
    obtain ⟨m, rfl⟩ := Int.eq_ofNat_of_zero_le hn.1
    have hm : m < 32768 := by omega
    obtain ⟨d1, hrun, hd1⟩ := powloop_spec ha hc ha0 hc0 15 m (by omega) hd
    rw [expo_digit hm, ← pow_mul, ← pow_add] at hd1
    rw [reverse_cons, value_append, length_reverse, value_cons, value_nil,
      length_cons, pow_succ] at hk
    obtain ⟨d2, hrun2, hd2⟩ := ih hl' hd1 (k := k) (by
      rw [hk]
      push_cast
      ring)
    refine ⟨d2, ?_, hd2⟩
    rw [foldlM_cons, hrun]
    exact hrun2

/-- **`pow`** is the power modulo `c`. -/
theorem pow_spec (ha : Canon a) (hb : Canon b) (hc : Canon c) (ha0 : 0 ≤ a.num) (hb0 : 0 ≤ b.num)
    (hc0 : 1 < c.num) :
    ∃ d, pow a b c = some d ∧ Canon d ∧ d.num = a.num ^ b.num.toNat % c.num := by
  obtain ⟨a0, hmova, ha0c, hna⟩ := ha.move
  obtain ⟨c0, hmovc, hc0c, hnc⟩ := hc.move
  have hblen := hb.len_nonneg_iff.mpr hb0
  have htake : b.mag.take b.len.toNat = b.mag :=
    take_of_length_le (by rw [hb.toValid.length_mag]; omega)
  obtain ⟨hone, hone1⟩ := canon_one (d := 1) (by norm_num)
  obtain ⟨d, hrun, hd⟩ := powdigits_spec (a := a0) (c := c0) (k := b.num.toNat) (e := 0) ha0c hc0c
    (hna ▸ ha0) (by omega) b.mag.reverse (d := ⟨1, [1]⟩)
    (fun n hn => hb.digits n (List.mem_reverse.mp hn))
    ⟨hone, by rw [hone1]; norm_num, by rw [hone1, hnc]; exact hc0, by rw [hone1, pow_zero]⟩
    (by
      rw [reverse_reverse, Int.toNat_of_nonneg hb0, num_of_nonneg hblen]
      ring)
  refine ⟨d, ?_, hd.canon, ?_⟩
  · unfold pow
    rw [hmova, hb.toValid.move, hmovc]
    simp only [bind_eq_bind, bind_some, htake]
    exact hrun
  · have hlt := hd.lt
    have hmod := hd.modEq
    unfold Int.ModEq at hmod
    rw [Int.emod_eq_of_lt hd.nonneg hlt, hna, hnc] at hmod
    exact hmod

/-! ## invert -/

/-- What holds of the variables of `invert` at the top of its loop. -/
structure Euclid (x0 x1 : ℤ) (e : euclid) : Prop where
  canon : (Canon e.u2 ∧ Canon e.u3) ∧ Canon e.v2 ∧ Canon e.v3
  coeffs : Bezout.Coeffs x0 x1 e.u2.num e.u3.num e.v2.num e.v3.num

/-- The test against the constant zero. -/
theorem mcmp_zero (ha : Canon a) : ∃ r, mcmp a ⟨0, []⟩ = some r ∧ r.sign = a.num.sign := by
  obtain ⟨r, hrun, hr⟩ := mcmp_spec ha canon_zero (Or.inr num_zero)
  rw [num_zero, sub_zero] at hr
  exact ⟨r, hrun, hr⟩

/-- **One round of the loop**, when there is a remainder. -/
theorem invertloop_step {x0 x1 : ℤ} {e : euclid} (he : Euclid x0 x1 e) (hv : e.v3.num ≠ 0) :
    ∃ e', Euclid x0 x1 e' ∧ e'.v3.num < e.v3.num ∧
      ∀ fuel, invertloop (fuel + 1) e = invertloop fuel e' := by
  obtain ⟨⟨hu2, hu3⟩, hv2, hv3⟩ := he.canon
  have hvpos : 0 < e.v3.num := lt_of_le_of_ne he.coeffs.nonneg hv.symm
  obtain ⟨r0, hcmp, hr0⟩ := mcmp_zero hv3
  have hr0ne : r0 ≠ 0 := by
    intro h0
    rw [h0, Int.sign_zero] at hr0
    exact hv (Int.sign_eq_zero_iff_zero.mp hr0.symm)
  obtain ⟨q, r, hdiv, hq, hr, hqn, hrn⟩ := mdiv_nonneg hu3 hv3 he.coeffs.pos.le hvpos
  obtain ⟨w3, hw3, hw3c, hw3n⟩ := hv3.move
  obtain ⟨y3, hy3, hy3c, hy3n⟩ := hr.move
  obtain ⟨t, ht, htc, htn⟩ := mul_spec hq hv2
  rw [hqn] at htn
  obtain ⟨m, hm, hmc, hmn⟩ := msub_exact hu2 htc (htn ▸ he.coeffs.minuend hvpos)
  obtain ⟨w2, hw2, hw2c, hw2n⟩ := hv2.move
  obtain ⟨y2, hy2, hy2c, hy2n⟩ := hmc.move
  have hstep := he.coeffs.step hvpos
  rw [← hrn, ← hy3n, ← htn, ← hmn, ← hy2n, ← hw2n, ← hw3n] at hstep
  refine ⟨⟨w2, w3, y2, y3⟩, ⟨⟨⟨hw2c, hw3c⟩, hy2c, hy3c⟩, hstep⟩, ?_, fun fuel => ?_⟩
  · show y3.num < e.v3.num
    rw [hy3n, hrn]
    exact Int.emod_lt_of_pos _ hvpos
  · rw [invertloop]
    simp only [mcan_canon hv3, mcan_canon hv2, hcmp, hr0ne, if_false, hdiv, hw3, hy3, ht, hm, hw2,
      hy2, bind_eq_bind, bind_some]

/-- **The loop ends**, and leaves a coefficient of the greatest common divisor. -/
theorem invertloop_spec {x0 x1 : ℤ} (k : ℕ) : ∀ {e : euclid}, Euclid x0 x1 e →
    e.v3.num.toNat = k → ∃ e', Euclid x0 x1 e' ∧ e'.v3.num = 0 ∧
      ∀ fuel, k + 1 ≤ fuel → invertloop fuel e = some e' := by
  induction k using Nat.strong_induction_on with
  | _ k ih =>
    intro e he hk
    by_cases hv : e.v3.num = 0
    · refine ⟨e, he, hv, fun fuel hle => ?_⟩
      obtain ⟨f, rfl⟩ := Nat.exists_eq_succ_of_ne_zero (show fuel ≠ 0 by omega)
      obtain ⟨r0, hcmp, hr0⟩ := mcmp_zero he.canon.2.2
      rw [hv, Int.sign_zero] at hr0
      rw [invertloop]
      simp only [mcan_canon he.canon.2.2, hcmp, Int.sign_eq_zero_iff_zero.mp hr0, if_true,
        bind_eq_bind, bind_some]
    · obtain ⟨e1, he1, hlt, hrun⟩ := invertloop_step he hv
      have hnn := he1.coeffs.nonneg
      obtain ⟨e2, he2, hz, hrun2⟩ := ih e1.v3.num.toNat (by omega) he1 rfl
      refine ⟨e2, he2, hz, fun fuel hle => ?_⟩
      obtain ⟨f, rfl⟩ := Nat.exists_eq_succ_of_ne_zero (show fuel ≠ 0 by omega)
      rw [hrun f]
      exact hrun2 f (by omega)

/-- **`invert`** ends with the inverse in `[0, x0)`. -/
theorem invert_spec (hx1 : Canon a) (hx0 : Canon b) (h1 : 0 ≤ a.num) (h0 : 1 < b.num)
    (hco : IsCoprime a.num b.num) :
    ∃ n c, (∀ fuel, n ≤ fuel → invert fuel a b = some c) ∧ Canon c ∧ 0 ≤ c.num ∧
      c.num < b.num ∧ c.num * a.num % b.num = 1 := by
  obtain ⟨u3, hu3, hu3c, hu3n⟩ := hx0.move
  obtain ⟨v3, hv3, hv3c, hv3n⟩ := hx1.move
  obtain ⟨hone, hone1⟩ := canon_one (d := 1) (by norm_num)
  obtain ⟨v2, hv2, hv2c, hv2n⟩ := hone.move
  have hstart : Euclid b.num a.num ⟨⟨0, []⟩, u3, v2, v3⟩ := by
    refine ⟨⟨⟨canon_zero, hu3c⟩, hv2c, hv3c⟩, ?_⟩
    show Bezout.Coeffs b.num a.num 0 u3.num v2.num v3.num
    rw [hu3n, hv2n, hv3n]
    exact Bezout.Coeffs.start (by omega) h1
  obtain ⟨e, he, hz, hloop⟩ := invertloop_spec _ hstart rfl
  have hcoef := he.coeffs
  rw [hz] at hcoef
  obtain ⟨hinv, hlt, hne⟩ := hcoef.done h0 hco
  obtain ⟨hlt1, hlt2⟩ := abs_lt.mp hlt
  have hinv' : e.u2.num * a.num % b.num = 1 := by
    rw [mul_comm]
    exact Eq.trans hinv (Int.emod_eq_of_lt (by norm_num) h0)
  obtain ⟨c, hc, hcc, hcn⟩ := he.canon.1.1.move
  obtain ⟨r, hcmp, hr⟩ := mcmp_zero hcc
  by_cases hneg : e.u2.num < 0
  · have hrneg : r < 0 := by
      rw [← Int.sign_eq_neg_one_iff_neg, hr, hcn]
      exact Int.sign_eq_neg_one_of_neg hneg
    obtain ⟨s, hs, hsc, hsn⟩ := madd_spec hu3c hcc
    rw [hu3n, hcn] at hsn
    refine ⟨v3.num.toNat + 1, s, fun fuel hle => ?_, hsc, by omega, by omega, ?_⟩
    · unfold invert
      simp only [hu3, hv2, hv3, hloop fuel hle, hc, mcan_canon hcc, hcmp, hrneg, if_true, hs,
        bind_eq_bind, bind_some]
    · rw [hsn, add_mul, Int.add_comm, Int.mul_comm b.num, Int.add_mul_emod_self_right, hinv']
  · have hrneg : ¬ r < 0 := by
      rw [← Int.sign_eq_neg_one_iff_neg, hr, hcn, Int.sign_eq_neg_one_iff_neg]
      exact hneg
    refine ⟨v3.num.toNat + 1, c, fun fuel hle => ?_, hcc, by omega, by omega, hcn ▸ hinv'⟩
    unfold invert
    simp only [hu3, hv2, hv3, hloop fuel hle, hc, mcan_canon hcc, hcmp, hrneg, if_false,
      bind_eq_bind, bind_some]

/-! ## msqrt -/

/-- From above the root, Newton's step stays above it. -/
theorem newton_above {a x : ℤ} (ha : 0 ≤ a) (hx : 0 < x) :
    a < ((x + a / x) / 2 + 1) * ((x + a / x) / 2 + 1) := by
  have hdiv := Int.mul_ediv_add_emod a x
  have hmod := Int.emod_lt_of_pos a hx
  have hq : 0 ≤ a / x := Int.ediv_nonneg ha hx.le
  generalize a / x = q at hdiv hq
  have hy : x + q + 1 ≤ 2 * ((x + q) / 2 + 1) := by omega
  generalize (x + q) / 2 + 1 = y at hy
  have hsq : (x + q + 1) * (x + q + 1) ≤ 2 * y * (2 * y) :=
    mul_self_le_mul_self (by omega) hy
  linarith [mul_self_nonneg (x - (q + 1)),
    show (x + q + 1) * (x + q + 1) = (x - (q + 1)) * (x - (q + 1)) + 4 * (x * q + x) by ring]

/-- Where the step does not go down, the root is reached. -/
theorem newton_stop {a x : ℤ} (hx : 0 < x) (h : x ≤ (x + a / x) / 2) : x * x ≤ a := by
  have hq : x ≤ a / x := by omega
  calc x * x ≤ a / x * x := mul_le_mul_of_nonneg_right hq hx.le
    _ ≤ a := Int.ediv_mul_le a hx.ne'

/-- **One round of the loop.** -/
theorem msqrtloop_step (ha : Canon a) (hx : Canon x) (ha0 : 0 ≤ a.num) (hx0 : 0 < x.num) :
    ∃ y, Canon y ∧ y.num = (x.num + a.num / x.num) / 2 ∧ ∀ fuel,
      msqrtloop (fuel + 1) a x = if y.num < x.num then msqrtloop fuel a y else some x := by
  obtain ⟨q, r, hdiv, hq, -, hqn, -⟩ := mdiv_nonneg ha hx ha0 hx0
  obtain ⟨s, hs, hsc, hsn⟩ := madd_spec hx hq
  have hq0 : 0 ≤ q.num := hqn ▸ Int.ediv_nonneg ha0 hx0.le
  obtain ⟨y, j, hy, hyc, -, hj, hyn⟩ := sdiv_spec hsc (hsc.len_nonneg_iff.mpr (by omega))
    (show (0 : ℤ) < 2 ∧ (2 : ℤ) < 32768 by norm_num)
  have hynum : y.num = (x.num + a.num / x.num) / 2 := by
    rw [← hqn, ← hsn, hyn]
    omega
  obtain ⟨n, hcmp, hn⟩ := mcmp_spec hx hyc (Or.inl hx0.le)
  have hiff : 0 < n ↔ y.num < x.num := by
    rw [← Int.sign_eq_one_iff_pos, hn, Int.sign_eq_one_iff_pos, sub_pos]
  obtain ⟨z, hz, hzc, hzn⟩ := hyc.move
  refine ⟨z, hzc, hzn.trans hynum, fun fuel => ?_⟩
  rw [hzn, ← if_congr hiff rfl rfl, msqrtloop]
  simp only [hdiv, hs, hy, mcan_canon hx, mcan_canon hyc, hcmp, hz, bind_eq_bind,
    bind_some]

/-- **The loop ends** at the root. -/
theorem msqrtloop_spec (ha : Canon a) (ha0 : 0 < a.num) (k : ℕ) : ∀ {x : mint}, Canon x →
    0 < x.num → a.num < (x.num + 1) * (x.num + 1) → x.num.toNat = k →
      ∃ b, Canon b ∧ 0 ≤ b.num ∧ b.num * b.num ≤ a.num ∧ a.num < (b.num + 1) * (b.num + 1) ∧
        ∀ fuel, k + 1 ≤ fuel → msqrtloop fuel a x = some b := by
  induction k using Nat.strong_induction_on with
  | _ k ih =>
    intro x hx hx0 habove hk
    obtain ⟨y, hy, hyn, hrun⟩ := msqrtloop_step ha hx ha0.le hx0
    by_cases hlt : y.num < x.num
    · have hya := newton_above ha0.le hx0
      rw [← hyn] at hya
      have hq := Int.ediv_nonneg ha0.le hx0.le
      have hy0 : 0 < y.num := by
        by_contra hle
        rw [show y.num = 0 by omega] at hya
        omega
      obtain ⟨b, hb, hb0, hle, hgt, hloop⟩ := ih y.num.toNat (by omega) hy hy0 hya rfl
      refine ⟨b, hb, hb0, hle, hgt, fun fuel hfuel => ?_⟩
      obtain ⟨f, rfl⟩ := Nat.exists_eq_succ_of_ne_zero (show fuel ≠ 0 by omega)
      rw [hrun f, if_pos hlt]
      exact hloop f (by omega)
    · refine ⟨x, hx, hx0.le, newton_stop hx0 (by omega), habove, fun fuel hfuel => ?_⟩
      obtain ⟨f, rfl⟩ := Nat.exists_eq_succ_of_ne_zero (show fuel ≠ 0 by omega)
      rw [hrun f, if_neg hlt]

/-- A number with one digit that is not zero, the top one. -/
theorem canon_top {k : ℕ} {t : ℤ} {v : mint} (hv : v = ⟨k + 1, List.replicate k 0 ++ [t]⟩)
    (h : 0 < t ∧ t < 32768) : Canon v ∧ v.num = 32768 ^ k * t := by
  have hlen : v.len.natAbs = k + 1 := by rw [hv]; exact Int.natAbs_natCast (k + 1)
  have hvlen : v.val.length = k + 1 := by
    rw [hv]
    exact (length_append).trans (by rw [length_replicate]; rfl)
  have hmag : v.mag = List.replicate k 0 ++ [t] := by
    unfold mint.mag
    rw [hlen, ← hvlen, take_length, hv]
  have hzeros : Digits 32768 (List.replicate k 0) := fun d hd => by
    rw [eq_of_mem_replicate hd]
    norm_num
  refine ⟨⟨⟨by omega, ?_⟩, ?_⟩, ?_⟩
  · rw [hmag]
    exact digits_append.mpr ⟨hzeros, digits_cons.mpr ⟨⟨h.1.le, h.2⟩, digits_nil⟩⟩
  · rw [hmag, List.getLast?_append]
    intro h0
    have : t = 0 := by simpa using h0
    omega
  · have hval0 : value 32768 (List.replicate k (0 : ℤ)) = 0 := by
      have := value_append_zeros (B := 32768) (l := []) (m := List.replicate k (0 : ℤ))
        fun d hd => eq_of_mem_replicate hd
      rwa [nil_append, value_nil] at this
    rw [num_of_nonneg (by rw [hv]; show (0 : ℤ) ≤ k + 1; omega), hmag, value_append, hval0,
      length_replicate, value_cons, value_nil]
    ring

/-- **Where `msqrt` starts** is above the root. -/
theorem msqrt_start (ha : Canon a) (hlen : 0 < a.len) :
    ∃ x, x = (⟨if a.len % 2 = 1 then (1 + a.len) / 2 else 1 + a.len / 2,
        List.replicate ((if a.len % 2 = 1 then (1 + a.len) / 2 else 1 + a.len / 2) - 1).toNat 0 ++
          [if a.len % 2 = 1 then 256 else 1]⟩ : mint) ∧
      Canon x ∧ 0 < x.num ∧ a.num < (x.num + 1) * (x.num + 1) := by
  have hlt : a.num < 32768 ^ a.len.natAbs := by
    rw [num_of_nonneg hlen.le, ← ha.toValid.length_mag]
    exact ha.digits.value_lt
  by_cases hodd : a.len % 2 = 1
  · obtain ⟨k, hk⟩ : ∃ k : ℕ, a.len = 2 * k + 1 := ⟨(a.len / 2).toNat, by omega⟩
    obtain ⟨hx, hxn⟩ := canon_top (k := k) (t := 256) rfl (by norm_num)
    refine ⟨_, ?_, hx, by rw [hxn]; positivity, ?_⟩
    · rw [if_pos hodd, if_pos hodd, show (1 + a.len) / 2 = (k : ℤ) + 1 by omega,
        Int.add_sub_cancel, Int.toNat_natCast]
    · rw [show a.len.natAbs = k + k + 1 by omega, pow_succ, pow_add] at hlt
      rw [hxn]
      have hpow : (0 : ℤ) < 32768 ^ k := by positivity
      generalize (32768 : ℤ) ^ k = P at hlt hpow
      nlinarith [mul_pos hpow hpow]
  · obtain ⟨k, hk⟩ : ∃ k : ℕ, a.len = 2 * k := ⟨(a.len / 2).toNat, by omega⟩
    obtain ⟨hx, hxn⟩ := canon_top (k := k) (t := 1) rfl (by norm_num)
    refine ⟨_, ?_, hx, by rw [hxn]; positivity, ?_⟩
    · rw [if_neg hodd, if_neg hodd, show 1 + a.len / 2 = (k : ℤ) + 1 by omega,
        Int.add_sub_cancel, Int.toNat_natCast]
    · rw [show a.len.natAbs = k + k by omega, pow_add] at hlt
      rw [hxn]
      have hpow : (0 : ℤ) < 32768 ^ k := by positivity
      generalize (32768 : ℤ) ^ k = P at hlt hpow
      nlinarith

/-- **`msqrt`** ends with the root and what is left. -/
theorem msqrt_spec (ha : Canon a) (ha0 : 0 ≤ a.num) :
    ∃ n b r, (∀ fuel, n ≤ fuel → msqrt fuel a = some (r.len, b, r)) ∧ (Canon b ∧ Canon r) ∧
      0 ≤ b.num ∧ b.num * b.num ≤ a.num ∧ a.num < (b.num + 1) * (b.num + 1) ∧
      r.num = a.num - b.num * b.num := by
  have hlen := ha.len_nonneg_iff.mpr ha0
  by_cases h0 : a.len = 0
  · have hnum := ha.len_eq_zero_iff.mp h0
    refine ⟨0, ⟨0, []⟩, ⟨0, []⟩, fun fuel _ => ?_, ⟨canon_zero, canon_zero⟩, ?_⟩
    · unfold msqrt
      rw [if_neg (by omega), if_pos h0]
    · rw [num_zero, hnum]
      norm_num
  · obtain ⟨x, hxeq, hx, hx0, hxa⟩ := msqrt_start ha (by omega)
    obtain ⟨a0, hmov, ha0c, ha0n⟩ := ha.move
    have hpos : 0 < a0.num := by
      rw [ha0n, ha.num_pos]
      omega
    obtain ⟨b, hb, hb0, hle, hgt, hloop⟩ :=
      msqrtloop_spec ha0c hpos _ hx hx0 (ha0n ▸ hxa) rfl
    obtain ⟨c, hc, hcc, hcn⟩ := hb.move
    obtain ⟨s, hs, hsc, hsn⟩ := mul_spec hb hb
    obtain ⟨r, hr, hrc, hrn⟩ := msub_exact ha0c hsc fun h => absurd h.1 (not_lt.mpr hpos.le)
    rw [hsn, ha0n] at hrn
    rw [ha0n] at hle hgt
    refine ⟨x.num.toNat + 1, c, r, fun fuel hfuel => ?_, ⟨hcc, hrc⟩, by omega,
      by rw [hcn]; exact hle,
      by rw [hcn]; exact hgt, by rw [hcn]; exact hrn⟩
    unfold msqrt
    rw [if_neg (by omega), if_neg h0]
    simp only [hmov, ← hxeq, hloop fuel hfuel, hc, hs, hr, bind_eq_bind, bind_some]

/-! ## On objects -/

namespace Objs

/-- **`pow`, `invert` and `msqrt`**: the power modulo `c`, the inverse, and the root with what is
left, which is zero for a perfect square alone.  The loops of `invert` and `msqrt` end. -/
theorem pow_invert_msqrt (s : Objs) :
    (∀ a b c d, Canon (s a) → Canon (s b) → Canon (s c) → 0 ≤ (s a).num → 0 ≤ (s b).num →
      1 < (s c).num → ∃ s', s.pow a b c d = some s' ∧
        Leaves s d ((s a).num ^ (s b).num.toNat % (s c).num) s' ∧
        0 ≤ (s' d).num ∧ (s' d).num < (s c).num) ∧
    (∀ x1 x0 c, Canon (s x1) → Canon (s x0) → 0 ≤ (s x1).num → 1 < (s x0).num →
      IsCoprime (s x1).num (s x0).num → ∃ n s' i,
        (∀ fuel, n ≤ fuel → s.invert fuel x1 x0 c = some s') ∧ Leaves s c i s' ∧
        0 ≤ i ∧ i < (s x0).num ∧ i * (s x1).num % (s x0).num = 1) ∧
    ∀ a b r, b ≠ r → Canon (s a) → 0 ≤ (s a).num → ∃ n ret s',
      (∀ fuel, n ≤ fuel → s.msqrt fuel a b r = some (ret, s')) ∧
      (Canon (s' b) ∧ Canon (s' r)) ∧ 0 ≤ (s' b).num ∧
      (s' b).num * (s' b).num ≤ (s a).num ∧ (s a).num < ((s' b).num + 1) * ((s' b).num + 1) ∧
      (s' r).num = (s a).num - (s' b).num * (s' b).num ∧ (ret = 0 ↔ IsSquare (s a).num) ∧
      ∀ p, p ≠ b → p ≠ r → s' p = s p := by
  refine ⟨fun a b c d ha hb hc ha0 hb0 hc0 => ?_, fun x1 x0 c h1 h0 hx1 hx0 hco => ?_,
    fun a b r hbr ha ha0 => ?_⟩
  · obtain ⟨m, hrun, hm, hmn⟩ := pow_spec ha hb hc ha0 hb0 hc0
    refine ⟨_, by rw [Objs.pow, hrun, Option.map_some], hmn ▸ leaves_update hm, ?_, ?_⟩
    · rw [update_self, hmn]
      exact Int.emod_nonneg _ (by omega)
    · rw [update_self, hmn]
      exact Int.emod_lt_of_pos _ (by omega)
  · obtain ⟨n, m, hrun, hm, hm0, hlt, hinv⟩ := invert_spec h1 h0 hx1 hx0 hco
    exact ⟨n, _, m.num, fun fuel hle => by rw [Objs.invert, hrun fuel hle, Option.map_some],
      leaves_update hm, hm0, hlt, hinv⟩
  · obtain ⟨n, x, y, hrun, ⟨hx, hy⟩, hx0, hle, hlt, hyn⟩ := msqrt_spec ha ha0
    have hb : update (update s b x) r y b = x := by
      rw [update_of_ne hbr, update_self]
    have hr : update (update s b x) r y r = y := update_self _ _ _
    refine ⟨n, y.len, _, fun fuel hfuel => by rw [Objs.msqrt, hrun fuel hfuel, Option.map_some],
      ?_⟩
    rw [hb, hr]
    refine ⟨⟨hx, hy⟩, hx0, hle, hlt, hyn, ?_, fun p hpb hpr => ?_⟩
    · rw [hy.len_eq_zero_iff, hyn, sub_eq_zero]
      refine ⟨fun h => ⟨x.num, h⟩, ?_⟩
      rintro ⟨z, hz⟩
      -- a root between two neighbours is one of them
      have hsq : (s a).num = |z| * |z| := by rw [hz, abs_mul_abs_self]
      rw [hsq] at hle hlt ⊢
      have h1 : x.num ≤ |z| := abs_le_of_sq_le_sq' (by rw [sq, sq]; exact hle) (abs_nonneg z) |>.2
      have h2 : |z| < x.num + 1 := lt_of_mul_self_lt_mul_self₀ (by omega) hlt
      rw [show x.num = |z| by omega]
    · rw [update_of_ne hpr, update_of_ne hpb]

/-- Three to the third modulo seven, the inverse of three modulo seven, and the root of seven. -/
theorem pow_invert_msqrt_small :
    (∃ s', (two ⟨1, [3]⟩ ⟨1, [7]⟩).pow 0 0 1 0 = some s' ∧ (s' 0).num = 3 ^ 3 % 7) ∧
    (∃ n s' i, (∀ fuel, n ≤ fuel → (two ⟨1, [3]⟩ ⟨1, [7]⟩).invert fuel 0 1 2 = some s') ∧
      (s' 2).num = i ∧ 0 ≤ i ∧ i < 7 ∧ i * 3 % 7 = 1) ∧
    ∃ n ret s', (∀ fuel, n ≤ fuel → (two ⟨1, [3]⟩ ⟨1, [7]⟩).msqrt fuel 1 2 3 = some (ret, s')) ∧
      (s' 2).num * (s' 2).num ≤ 7 ∧ 7 < ((s' 2).num + 1) * ((s' 2).num + 1) := by
  have h3 := canon_one (d := 3) (by norm_num)
  have h7 := canon_one (d := 7) (by norm_num)
  obtain ⟨hpow, hinv, hroot⟩ := pow_invert_msqrt (two ⟨1, [3]⟩ ⟨1, [7]⟩)
  refine ⟨?_, ?_, ?_⟩
  · obtain ⟨s', hrun, hl, -⟩ := hpow 0 0 1 0 h3.1 h3.1 h7.1 (by decide +kernel)
      (by decide +kernel) (by decide +kernel)
    exact ⟨s', hrun, hl.num⟩
  · obtain ⟨n, s', i, hrun, hl, h0, hlt, hone⟩ := hinv 0 1 2 h3.1 h7.1 (by decide +kernel)
      (by decide +kernel) (Int.isCoprime_iff_gcd_eq_one.mpr (by decide +kernel))
    exact ⟨n, s', i, hrun, hl.num, h0, hlt, hone⟩
  · obtain ⟨n, ret, s', hrun, -, -, hle, hlt, -⟩ := hroot 1 2 3 (by decide) h7.1
      (by decide +kernel)
    exact ⟨n, ret, s', hrun, hle, hlt⟩

end Objs

end Mp
