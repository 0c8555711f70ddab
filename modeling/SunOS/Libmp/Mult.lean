/-
# Multiplication

The rows of `m_mult` add a multiple of one operand to the cells written so far, each row
one cell further up.  With canonical operands at most the top cell is zero.
-/
import SunOS.Libmp.Madd

namespace Mp

open List
open Option (bind_eq_bind bind_some)
open Radix

variable {a b c : mint} {as bs cs : List ℤ} {sum d : ℤ}

/-! ## Rows -/

/-- One step of a row: what is stored, and what goes on. -/
theorem low_add_high (x : ℤ) : low x + 32768 * high x = x := by
  unfold low high
  omega

/-- The sum of a step goes on with at most 15 bits. -/
theorem high_range {x : ℤ} (h0 : 0 ≤ x) (h : x < 1073741824) : 0 ≤ high x ∧ high x < 32768 := by
  unfold high
  omega

theorem mul_range {x y : ℤ} (hx : 0 ≤ x ∧ x < 32768) (hy : 0 ≤ y ∧ y < 32768) :
    0 ≤ x * y ∧ x * y ≤ 1073676289 := by
  refine ⟨mul_nonneg hx.1 hy.1, ?_⟩
  calc x * y ≤ 32767 * 32767 := mul_le_mul (by omega) (by omega) hy.1 (by norm_num)
    _ = 1073676289 := by norm_num

/-- The first row is a multiple. -/
theorem firstrow_value (ha : Digits 32768 as) (hd : 0 ≤ d ∧ d < 32768)
    (hs : 0 ≤ sum ∧ sum < 32768) :
    ∃ cs, firstrow d sum as = some cs ∧ cs.length = as.length + 1 ∧ Digits 32768 cs ∧
      value 32768 cs = d * value 32768 as + sum := by
  induction as generalizing sum with
  | nil =>
    unfold firstrow
    rw [short_of (by omega)]
    exact ⟨[sum], rfl, rfl, digits_cons.mpr ⟨hs, digits_nil⟩, by simp⟩
  | cons a as ih =>
    obtain ⟨ha0, ha⟩ := digits_cons.mp ha
    have hp := mul_range ha0 hd
    obtain ⟨cs, hrun, hlen, hcs, hval⟩ :=
      ih ha (high_range (x := sum + a * d) (by omega) (by omega))
    unfold firstrow
    rw [long_of (by omega)]
    simp only [bind_eq_bind, bind_some]
    rw [long_of (by omega), bind_some, hrun]
    refine ⟨_, rfl, by simp [hlen], digits_cons.mpr ⟨low_range _, hcs⟩, ?_⟩
    have hlh := low_add_high (sum + a * d)
    rw [value_cons, value_cons, hval]
    linear_combination hlh

/-- A later row adds a multiple. -/
theorem row_value (ha : Digits 32768 as) (hc : Digits 32768 cs) (hlen : cs.length = as.length)
    (hd : 0 ≤ d ∧ d < 32768) (hs : 0 ≤ sum ∧ sum < 32768) :
    ∃ out, row d sum as cs = some out ∧ out.length = as.length + 1 ∧ Digits 32768 out ∧
      value 32768 out = value 32768 cs + d * value 32768 as + sum := by
  induction as generalizing sum cs with
  | nil =>
    obtain rfl := List.length_eq_zero_iff.mp hlen
    unfold row
    rw [short_of (by lia)]
    exact ⟨[sum], rfl, rfl, digits_cons.mpr ⟨hs, digits_nil⟩, by simp⟩
  | cons a as ih =>
    cases cs with
    | nil => simp at hlen
    | cons c cs =>
      obtain ⟨ha0, ha⟩ := digits_cons.mp ha
      obtain ⟨hc0, hc⟩ := digits_cons.mp hc
      have hp := mul_range ha0 hd
      obtain ⟨out, hrun, hlen', hout, hval⟩ := ih ha hc (by simpa using hlen)
        (high_range (x := sum + (a * d + c)) (by lia) (by lia))
      unfold row
      rw [long_of (by lia)]
      simp only [bind_eq_bind, bind_some]
      rw [long_of (by lia), bind_some, long_of (by lia), bind_some, hrun]
      refine ⟨_, rfl, by simp [hlen'], digits_cons.mpr ⟨low_range _, hout⟩, ?_⟩
      have hlh := low_add_high (sum + (a * d + c))
      rw [value_cons, value_cons, value_cons, hval]
      linear_combination hlh

/-- All later rows add the product with the digits that are left. -/
theorem rows_value (ha : Digits 32768 as) (hb : Digits 32768 bs) (hc : Digits 32768 cs)
    (hlen : cs.length = as.length) :
    ∃ out, rows as bs cs = some out ∧ out.length = as.length + bs.length ∧ Digits 32768 out ∧
      value 32768 out = value 32768 cs + value 32768 as * value 32768 bs := by
  induction bs generalizing cs with
  | nil => exact ⟨cs, rfl, by simpa using hlen, hc, by simp⟩
  | cons b bs ih =>
    obtain ⟨hb0, hb⟩ := digits_cons.mp hb
    obtain ⟨out, hrow, hlen1, hout, hval1⟩ := row_value ha hc hlen hb0
      (show (0 : ℤ) ≤ 0 ∧ (0 : ℤ) < 32768 by omega)
    cases out with
    | nil => simp at hlen1
    | cons c cs' =>
      obtain ⟨hc0, hc'⟩ := digits_cons.mp hout
      obtain ⟨out', hrun, hlen2, hout', hval2⟩ := ih hb hc' (by simpa using hlen1)
      unfold rows
      rw [hrow]
      simp only [bind_eq_bind, bind_some]
      rw [hrun]
      refine ⟨_, rfl, by simp [hlen2]; omega, digits_cons.mpr ⟨hc0, hout'⟩, ?_⟩
      rw [value_cons] at hval1
      rw [value_cons, value_cons, hval2]
      linear_combination hval1

/-! ## m_mult -/

/-- What a product leaves: its cells, and its canonical form. -/
structure Product (x : ℤ) (n : ℕ) (c : mint) : Prop where
  canon : Canon c
  pos : 0 < c.len
  num : c.num = x
  length : c.val.length = n
  digits : Digits 32768 c.val
  value : value 32768 c.val = x

/-- **`m_mult`** multiplies magnitudes. -/
theorem m_mult_spec (ha : Canon a) (hb : Canon b) (ha0 : 0 < a.len) (hb0 : 0 < b.len) :
    ∃ c, m_mult a b = some c ∧ Product (a.num * b.num) (a.len.natAbs + b.len.natAbs) c := by
  have hla := ha.toValid.length_mag
  have hlb := hb.toValid.length_mag
  have hda := ha.digits
  have hdb := hb.digits
  have hva := ha.le_value (by lia)
  have hvb := hb.le_value (by lia)
  unfold m_mult
  rw [take_toNat ha0.le, take_toNat hb0.le, num_of_nonneg ha0.le, num_of_nonneg hb0.le]
  cases hbm : b.mag with
  | nil =>
    rw [hbm] at hlb
    simp at hlb
    lia
  | cons d bs =>
    rw [hbm] at hdb hlb hvb
    obtain ⟨hd0, hbs⟩ := digits_cons.mp hdb
    obtain ⟨out, hfirst, hlen1, hout, hval1⟩ := firstrow_value hda hd0
      (show (0 : ℤ) ≤ 0 ∧ (0 : ℤ) < 32768 by lia)
    cases out with
    | nil => simp at hlen1
    | cons c0 cs =>
      obtain ⟨hc0, hcs⟩ := digits_cons.mp hout
      obtain ⟨out', hrows, hlen2, hout', hval2⟩ := rows_value hda hbs hcs (by simpa using hlen1)
      have hval : value 32768 (c0 :: out') = value 32768 a.mag * value 32768 (d :: bs) := by
        rw [value_cons] at hval1
        rw [value_cons, value_cons, hval2]
        linear_combination hval1
      have hdig : Digits 32768 (c0 :: out') := digits_cons.mpr ⟨hc0, hout'⟩
      have hlen : (c0 :: out').length = a.len.natAbs + b.len.natAbs := by
        rw [length_cons, hlen2]
        rw [length_cons] at hlb
        lia
      -- the product has all digits but perhaps one
      have hge : (32768 : ℤ) ^ (a.len.natAbs - 1 + (b.len.natAbs - 1)) ≤
          value 32768 (c0 :: out') := by
        rw [hval, pow_add]
        exact mul_le_mul hva hvb (by positivity) (by linarith [hda.value_nonneg])
      simp only [hfirst, hrows, bind_eq_bind, bind_some]
      generalize c0 :: out' = val at hval hdig hlen hge
      rcases eq_nil_or_concat val with rfl | ⟨k, top, rfl⟩
      · simp at hlen
        lia
      · rw [concat_eq_append] at *
        rw [length_append, length_singleton] at hlen
        have hget : (k ++ [top])[(a.len + b.len - 1).toNat]? = some top := by
          have hidx : (a.len + b.len - 1).toNat = k.length := by lia
          rw [hidx, List.getElem?_append_right le_rfl, Nat.sub_self]
          rfl
        simp only [hget]
        by_cases htop : top = 0
        · rw [if_pos htop]
          subst htop
          have hmag : (⟨a.len + b.len - 1, k ++ [0]⟩ : mint).mag = k := by
            show (k ++ [0]).take (a.len + b.len - 1).natAbs = k
            have hidx : (a.len + b.len - 1).natAbs = k.length := by lia
            rw [hidx, List.take_left']
            rfl
          have hkv : value 32768 (k ++ [0]) = value 32768 k := value_append_zeros (by simp)
          have hdk := (digits_append.mp hdig).1
          refine ⟨_, rfl, ⟨⟨⟨?_, ?_⟩, ?_⟩, ?_, ?_, ?_, hdig, hval⟩⟩
          · show (a.len + b.len - 1).natAbs ≤ (k ++ [0]).length
            rw [length_append, length_singleton]
            lia
          · rw [hmag]
            exact hdk
          · rw [hmag]
            refine getLast?_ne_zero hdk ?_
            rw [← hkv]
            have hexp : k.length - 1 = a.len.natAbs - 1 + (b.len.natAbs - 1) := by lia
            rw [hexp]
            exact hge
          · show 0 < a.len + b.len - 1
            lia
          · rw [num_of_nonneg (by show 0 ≤ a.len + b.len - 1; lia), hmag, ← hkv, hval]
          · rw [length_append, length_singleton]
            exact hlen
        · rw [if_neg htop]
          have hmag : (⟨a.len + b.len, k ++ [top]⟩ : mint).mag = k ++ [top] :=
            take_of_length_le (by
              show (k ++ [top]).length ≤ (a.len + b.len).natAbs
              rw [length_append, length_singleton]
              lia)
          refine ⟨_, rfl, ⟨⟨⟨?_, ?_⟩, ?_⟩, ?_, ?_, ?_, hdig, hval⟩⟩
          · show (a.len + b.len).natAbs ≤ (k ++ [top]).length
            rw [length_append, length_singleton]
            lia
          · rw [hmag]
            exact hdig
          · rw [hmag, List.getLast?_append]
            simpa using htop
          · show 0 < a.len + b.len
            lia
          · rw [num_of_nonneg (by show 0 ≤ a.len + b.len; lia), hmag, hval]
          · rw [length_append, length_singleton]
            exact hlen

/-- **`mult`** on operands that are not zero. -/
theorem mult_product (ha : Canon a) (hb : Canon b) (ha0 : a.len ≠ 0) (hb0 : b.len ≠ 0) :
    ∃ c, mult a b = some c ∧ Canon c ∧ c.num = a.num * b.num ∧
      (0 < a.len → 0 < b.len → Product (a.num * b.num) (a.len.natAbs + b.len.natAbs) c) := by
  have habs : ∀ {x : mint}, Canon x → Canon ⟨(x.len.natAbs : ℤ), x.mag⟩ ∧
      (⟨(x.len.natAbs : ℤ), x.mag⟩ : mint).num = (if x.len < 0 then -1 else 1) * x.num := by
    intro x hx
    by_cases h0 : x.len < 0
    · have hlen : (x.len.natAbs : ℤ) = -x.len := by lia
      obtain ⟨h1, h2⟩ := copy_neg hx
      rw [hlen, if_pos h0, h2]
      exact ⟨h1, by ring⟩
    · have hlen : (x.len.natAbs : ℤ) = x.len := by lia
      rw [hlen, if_neg h0, hx.toValid.num_move]
      exact ⟨hx.copy, by ring⟩
  obtain ⟨hx, hvx⟩ := habs ha
  obtain ⟨hy, hvy⟩ := habs hb
  -- the shorter one first
  have hmul : ∃ c, (if (a.len.natAbs : ℤ) < b.len.natAbs then
      m_mult ⟨(a.len.natAbs : ℤ), a.mag⟩ ⟨(b.len.natAbs : ℤ), b.mag⟩
      else m_mult ⟨(b.len.natAbs : ℤ), b.mag⟩ ⟨(a.len.natAbs : ℤ), a.mag⟩) = some c ∧
      Product ((⟨(a.len.natAbs : ℤ), a.mag⟩ : mint).num * (⟨(b.len.natAbs : ℤ), b.mag⟩ : mint).num)
        (a.len.natAbs + b.len.natAbs) c := by
    by_cases hlt : (a.len.natAbs : ℤ) < b.len.natAbs
    · rw [if_pos hlt]
      exact m_mult_spec hx hy (by show (0 : ℤ) < a.len.natAbs; lia)
        (by show (0 : ℤ) < b.len.natAbs; lia)
    · rw [if_neg hlt, mul_comm, add_comm]
      exact m_mult_spec hy hx (by show (0 : ℤ) < b.len.natAbs; lia)
        (by show (0 : ℤ) < a.len.natAbs; lia)
  obtain ⟨c, hrun, hc⟩ := hmul
  have hpos := hc.pos
  have hmult : mult a b = some (if (if a.len < 0 then (-1 : ℤ) else 1) *
      (if b.len < 0 then -1 else 1) < 0 then { c with len := -c.len } else c) := by
    have hlen : (if (if a.len < 0 then (-1 : ℤ) else 1) * (if b.len < 0 then -1 else 1) < 0
        then { c with len := -c.len } else c : mint).len ≠ 0 := by
      split_ifs <;> simp <;> lia
    unfold mult
    rw [if_neg (by tauto), ha.toValid.move, hb.toValid.move]
    simp only [bind_eq_bind, bind_some]
    by_cases hlt : (a.len.natAbs : ℤ) < b.len.natAbs
    · rw [if_pos hlt] at hrun ⊢
      rw [hrun, bind_some, if_neg hlen]
    · rw [if_neg hlt] at hrun ⊢
      rw [hrun, bind_some, if_neg hlen]
  rw [hmult]
  have hnum := hc.num
  rw [hvx, hvy] at hnum
  by_cases hs : (if a.len < 0 then (-1 : ℤ) else 1) * (if b.len < 0 then -1 else 1) < 0
  · rw [if_pos hs]
    refine ⟨_, rfl, hc.canon.neg, ?_, fun h1 h2 => ?_⟩
    · have hneg := hc.canon.neg_num
      unfold mint.neg at hneg
      rw [hneg, hnum]
      by_cases h1 : a.len < 0
      · by_cases h2 : b.len < 0
        · rw [if_pos h1, if_pos h2] at hs
          lia
        · rw [if_pos h1, if_neg h2]
          ring
      · by_cases h2 : b.len < 0
        · rw [if_neg h1, if_pos h2]
          ring
        · rw [if_neg h1, if_neg h2] at hs
          lia
    · rw [if_neg (by lia), if_neg (by lia)] at hs
      lia
  · rw [if_neg hs]
    refine ⟨c, rfl, hc.canon, ?_, fun h1 h2 => ?_⟩
    · rw [hnum]
      by_cases h1 : a.len < 0
      · by_cases h2 : b.len < 0
        · rw [if_pos h1, if_pos h2]
          ring
        · rw [if_pos h1, if_neg h2] at hs
          lia
      · by_cases h2 : b.len < 0
        · rw [if_neg h1, if_pos h2] at hs
          lia
        · rw [if_neg h1, if_neg h2]
          ring
    · have hx1 : (⟨(a.len.natAbs : ℤ), a.mag⟩ : mint).num = a.num := by
        rw [hvx, if_neg (by lia), one_mul]
      have hy1 : (⟨(b.len.natAbs : ℤ), b.mag⟩ : mint).num = b.num := by
        rw [hvy, if_neg (by lia), one_mul]
      rw [hx1, hy1] at hc
      exact hc

/-- **`mult`** leaves the product. -/
theorem mult_spec (ha : Canon a) (hb : Canon b) :
    ∃ c, mult a b = some c ∧ Canon c ∧ c.num = a.num * b.num := by
  by_cases h0 : a.len = 0 ∨ b.len = 0
  · refine ⟨⟨0, []⟩, ?_, ⟨⟨Nat.le_refl 0, digits_nil⟩, by simp [mint.mag]⟩, ?_⟩
    · unfold mult
      rw [if_pos h0]
    · show (0 : ℤ) = _
      have hzero : ∀ {x : mint}, Canon x → x.len = 0 → x.num = 0 := by
        intro x hx hx0
        rw [num_of_nonneg hx0.ge, hx.value_eq_zero.mpr hx0]
      rcases h0 with h0 | h0
      · rw [hzero ha h0, zero_mul]
      · rw [hzero hb h0, mul_zero]
  · rw [not_or] at h0
    obtain ⟨c, hrun, hc, hval, -⟩ := mult_product ha hb h0.1 h0.2
    exact ⟨c, hrun, hc, hval⟩

/-- A canonical number has no leading zeros to lose. -/
theorem mcan_canon (ha : Canon a) : mcan a = a := by
  unfold mcan
  by_cases h0 : a.len = 0
  · rw [if_pos h0]
  · rw [if_neg h0]
    have hlen := ha.toValid.length_mag
    obtain ⟨k, m, hkm, hk, hm, -⟩ := take_last_not (fun d => decide (d = 0)) a.mag
    have htop := ha.top
    have hnil : m = [] := by
      rcases eq_nil_or_concat m with rfl | ⟨m', d, rfl⟩
      · rfl
      · exfalso
        have hd := of_decide_eq_true (hm d (by simp))
        rw [hkm, concat_eq_append, ← append_assoc, List.getLast?_append] at htop
        exact htop (by simp [hd])
    rw [hnil, append_nil] at hkm
    have hupto : upto (a.val.take a.len.natAbs) = a.len.natAbs := by
      exact hk.trans (by rw [← hkm]; exact hlen)
    simp only [hupto, if_true]

end Mp
