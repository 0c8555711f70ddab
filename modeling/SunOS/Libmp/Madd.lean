/-
# Addition and subtraction of magnitudes

The loops of `m_add` and `m_sub` add and subtract digit by digit with a carry.  When the
digits of a difference borrow to the end, their complement and one is its magnitude.
-/
import SunOS.Libmp.Mint
import Mathlib.Data.List.TakeWhile
import Mathlib.Tactic.LinearCombination

namespace Mp

open List
open Option (bind_eq_bind bind_some)
open Radix

variable {a b c : mint} {as bs l vs : List ℤ} {carry x : ℤ}

/-! ## What a MINT stands for -/

/-- The digits in use. -/
def mint.mag (a : mint) : List ℤ := a.val.take a.len.natAbs

/-- The number that a `MINT` stands for. -/
def mint.num (a : mint) : ℤ := if a.len < 0 then -value 32768 a.mag else value 32768 a.mag

/-- The digits are there. -/
structure Valid (a : mint) : Prop where
  cells : a.len.natAbs ≤ a.val.length
  digits : Digits 32768 a.mag

/-- And the top one is not zero. -/
structure Canon (a : mint) : Prop extends Valid a where
  top : a.mag.getLast? ≠ some 0

theorem Valid.length_mag (h : Valid a) : a.mag.length = a.len.natAbs := by
  unfold mint.mag
  rw [length_take, min_eq_left h.cells]

theorem num_of_nonneg (h : 0 ≤ a.len) : a.num = value 32768 a.mag := by
  unfold mint.num
  rw [if_neg (by omega)]

theorem num_of_neg (h : a.len < 0) : a.num = -value 32768 a.mag := by
  unfold mint.num
  rw [if_pos h]

/-- A number with a top digit that is not zero, by its value. -/
theorem getLast?_ne_zero (hl : Digits 32768 l) (h : 32768 ^ (l.length - 1) ≤ value 32768 l) :
    l.getLast? ≠ some 0 := by
  rcases eq_nil_or_concat l with rfl | ⟨k, d, rfl⟩
  · simp
  · rw [concat_eq_append] at hl h ⊢
    rw [List.getLast?_append]
    intro h0
    have hd : d = 0 := by simpa using h0
    rw [hd] at h hl
    have hk := (digits_append.mp hl).1.value_lt
    rw [value_append_zeros (by simp)] at h
    rw [length_append, length_singleton, Nat.add_sub_cancel] at h
    omega

theorem Canon.le_value (h : Canon a) (hne : a.len ≠ 0) :
    32768 ^ (a.len.natAbs - 1) ≤ value 32768 a.mag := by
  have hlen := h.length_mag
  have hd := h.digits
  have htop := h.top
  rcases eq_nil_or_concat a.mag with hnil | ⟨k, d, hk⟩
  · rw [hnil] at hlen
    simp at hlen
    omega
  · rw [hk, concat_eq_append] at htop hd hlen ⊢
    have hd0 : d ≠ 0 := fun h0 => htop (by simp [h0])
    have hdd := (digits_append.mp hd).2 d (by simp)
    have hle := hd.le_value (by omega : 1 ≤ d)
    rw [length_append, length_singleton] at hlen
    rw [← hlen, Nat.add_sub_cancel]
    exact hle

/-- A canonical number is zero when it has no digits. -/
theorem Canon.value_eq_zero (h : Canon a) : value 32768 a.mag = 0 ↔ a.len = 0 := by
  constructor
  · intro h0
    by_contra hne
    have hle := h.le_value hne
    have hpos : (0 : ℤ) < 32768 ^ (a.len.natAbs - 1) := by positivity
    omega
  · intro h0
    unfold mint.mag
    rw [h0]
    rfl

theorem Canon.num_neg (h : Canon a) : a.num < 0 ↔ a.len < 0 := by
  have hnn := h.digits.value_nonneg
  have hz := h.value_eq_zero
  constructor
  · intro hn
    by_contra hlen
    rw [num_of_nonneg (by omega)] at hn
    omega
  · intro hlen
    rw [num_of_neg hlen]
    omega

theorem Canon.num_pos (h : Canon a) : 0 < a.num ↔ 0 < a.len := by
  have hnn := h.digits.value_nonneg
  have hz := h.value_eq_zero
  constructor
  · intro hn
    by_contra hlen
    by_cases h0 : a.len = 0
    · rw [num_of_nonneg (by omega), hz.mpr h0] at hn
      omega
    · rw [num_of_neg (by omega)] at hn
      omega
  · intro hlen
    rw [num_of_nonneg hlen.le]
    omega

/-- The other sign. -/
def mint.neg (a : mint) : mint := { a with len := -a.len }

theorem mag_neg : a.neg.mag = a.mag := by
  unfold mint.neg mint.mag
  rw [Int.natAbs_neg]

theorem Canon.neg (h : Canon a) : Canon a.neg := by
  refine ⟨⟨?_, ?_⟩, ?_⟩
  · show (-a.len).natAbs ≤ _
    rw [Int.natAbs_neg]
    exact h.cells
  · rw [mag_neg]
    exact h.digits
  · rw [mag_neg]
    exact h.top

theorem Canon.neg_num (h : Canon a) : a.neg.num = -a.num := by
  have hlen : a.neg.len = -a.len := rfl
  rcases lt_trichotomy a.len 0 with h0 | h0 | h0
  · rw [num_of_neg h0, num_of_nonneg (by omega), mag_neg, neg_neg]
  · rw [num_of_nonneg (by omega), num_of_nonneg h0.ge, mag_neg, h.value_eq_zero.mpr h0, neg_zero]
  · rw [num_of_nonneg h0.le, num_of_neg (by omega), mag_neg]

/-- A canonical number of fewer digits has the smaller magnitude. -/
theorem Canon.value_lt (ha : Canon a) (hb : Canon b) (h : a.len.natAbs < b.len.natAbs) :
    value 32768 a.mag < value 32768 b.mag := by
  have h1 := ha.digits.value_lt
  have h2 := hb.le_value (by omega)
  rw [ha.length_mag] at h1
  have h3 : (32768 : ℤ) ^ a.len.natAbs ≤ 32768 ^ (b.len.natAbs - 1) :=
    pow_le_pow_right₀ (by norm_num) (by omega)
  linarith

/-- The copy of a number has its digits as cells. -/
theorem Valid.move (h : Valid a) : Mp.move a = some ⟨a.len, a.mag⟩ := by
  unfold Mp.move
  rw [if_pos h.cells]
  rfl

theorem Valid.mag_move (h : Valid a) : (⟨a.len, a.mag⟩ : mint).mag = a.mag := by
  show a.mag.take a.len.natAbs = a.mag
  rw [take_of_length_le h.length_mag.le]

theorem Valid.copy (h : Valid a) : Valid ⟨a.len, a.mag⟩ := by
  refine ⟨?_, ?_⟩
  · exact h.length_mag.ge
  · rw [h.mag_move]
    exact h.digits

theorem Canon.copy (h : Canon a) : Canon ⟨a.len, a.mag⟩ := by
  refine ⟨h.toValid.copy, ?_⟩
  rw [h.toValid.mag_move]
  exact h.top

theorem Valid.num_move (h : Valid a) : (⟨a.len, a.mag⟩ : mint).num = a.num := by
  unfold mint.num
  rw [h.mag_move]

theorem take_toNat (h : 0 ≤ a.len) : a.val.take a.len.toNat = a.mag := by
  congr 1
  omega

/-! ## Machine integers -/

theorem long_of (h : -2147483648 ≤ x ∧ x ≤ 2147483647) : long x = some x := by
  unfold long
  rw [if_pos h]

theorem short_of (h : -32768 ≤ x ∧ x ≤ 32767) : short x = some x := by
  unfold short
  rw [if_pos h]

theorem carried_iff (h : -32768 ≤ x ∧ x < 65536) : carried x = true ↔ x < 0 ∨ 32768 ≤ x := by
  unfold carried
  rw [decide_eq_true_iff]
  omega

theorem low_range (x : ℤ) : 0 ≤ low x ∧ low x < 32768 := by
  unfold low
  omega

/-! ## The loops -/

/-- One digit of either loop: `c` is the carry of a sum, or the borrow of a difference, and `x` the
digits with the one that comes in. -/
theorem digit_value {rest : ℤ → Option (List ℤ × ℤ)} {c c' x w : ℤ} {n : ℕ}
    (hx : c = 1 ∧ 0 ≤ x ∧ x < 65536 ∨ c = -1 ∧ -32768 ≤ x ∧ x < 32768)
    (hc : carried x = true → c' = c)
    (hrest : ∀ c1, c1 = 0 ∨ c1 = c → ∃ vs carry', rest c1 = some (vs, carry') ∧ vs.length = n ∧
      Digits 32768 vs ∧ (carry' = 0 ∨ carry' = c) ∧
      value 32768 vs + 32768 ^ n * carry' = w + c1) :
    ∃ vs carry', (do
        let x ← long x
        if carried x then
          let (vs, carry) ← rest c'
          some (low x :: vs, carry)
        else
          let d ← short x
          let (vs, carry) ← rest 0
          some (d :: vs, carry)) = some (vs, carry') ∧ vs.length = n + 1 ∧
      Digits 32768 vs ∧ (carry' = 0 ∨ carry' = c) ∧
      value 32768 vs + 32768 ^ (n + 1) * carry' = 32768 * w + x := by
  have hciff := carried_iff (show -32768 ≤ x ∧ x < 65536 by lia)
  rw [long_of (by lia)]
  simp only [bind_eq_bind, bind_some]
  by_cases hcarry : carried x = true
  · obtain rfl := hc hcarry
    have hlow : low x + 32768 * c' = x := by
      have hout := hciff.mp hcarry
      unfold low
      lia
    obtain ⟨vs, carry', hrun, h1, h2, h3, h4⟩ := hrest c' (Or.inr rfl)
    refine ⟨low x :: vs, carry', by rw [if_pos hcarry, hrun]; rfl, by simp [h1],
      digits_cons.mpr ⟨low_range x, h2⟩, h3, ?_⟩
    rw [value_cons, pow_succ]
    linear_combination hlow + 32768 * h4
  · have hin : ¬ (x < 0 ∨ 32768 ≤ x) := fun h => hcarry (hciff.mpr h)
    obtain ⟨vs, carry', hrun, h1, h2, h3, h4⟩ := hrest 0 (Or.inl rfl)
    refine ⟨x :: vs, carry', by rw [if_neg hcarry, short_of (by lia), bind_some, hrun]; rfl,
      by simp [h1], digits_cons.mpr ⟨by lia, h2⟩, h3, ?_⟩
    rw [value_cons, pow_succ]
    linear_combination 32768 * h4

/-- **`addloop`** adds, with a carry of 0 or 1 in and out. -/
theorem addloop_value (ha : Digits 32768 as) (hb : Digits 32768 bs) (hlen : bs.length ≤ as.length)
    (hc : carry = 0 ∨ carry = 1) :
    ∃ vs carry', addloop carry as bs = some (vs, carry') ∧ vs.length = as.length ∧
      Digits 32768 vs ∧ (carry' = 0 ∨ carry' = 1) ∧
      value 32768 vs + 32768 ^ as.length * carry' = value 32768 as + value 32768 bs + carry := by
  induction as generalizing bs carry with
  | nil =>
    obtain rfl := List.length_eq_zero_iff.mp (Nat.le_zero.mp hlen)
    exact ⟨[], carry, rfl, rfl, digits_nil, hc, by simp⟩
  | cons a as ih =>
    obtain ⟨ha0, ha⟩ := digits_cons.mp ha
    unfold addloop
    cases bs with
    | nil =>
      have hcarry : carried (carry + a) = true → carry = 1 := fun h => by
        have hout := (carried_iff (by lia)).mp h
        lia
      obtain ⟨vs, carry', hrun, h1, h2, h3, h4⟩ := digit_value (c := 1)
        (Or.inl ⟨rfl, by lia, by lia⟩) hcarry
        (fun c1 h => ih ha digits_nil (Nat.zero_le _) h)
      refine ⟨vs, carry', hrun, h1, h2, h3, ?_⟩
      rw [length_cons, h4, value_cons, value_nil]
      ring
    | cons b bs =>
      obtain ⟨hb0, hb⟩ := digits_cons.mp hb
      obtain ⟨vs, carry', hrun, h1, h2, h3, h4⟩ := digit_value (c := 1) (x := carry + a + b)
        (Or.inl ⟨rfl, by lia, by lia⟩) (fun _ => rfl)
        (fun c1 h => ih ha hb (by simpa using hlen) h)
      refine ⟨vs, carry', hrun, h1, h2, h3, ?_⟩
      rw [length_cons, h4, value_cons, value_cons]
      ring

/-- **`subloop`** subtracts, with a borrow of 0 or -1 in and out. -/
theorem subloop_value (ha : Digits 32768 as) (hb : Digits 32768 bs) (hlen : bs.length ≤ as.length)
    (hc : carry = 0 ∨ carry = -1) :
    ∃ vs carry', subloop carry as bs = some (vs, carry') ∧ vs.length = as.length ∧
      Digits 32768 vs ∧ (carry' = 0 ∨ carry' = -1) ∧
      value 32768 vs + 32768 ^ as.length * carry' = value 32768 as - value 32768 bs + carry := by
  induction as generalizing bs carry with
  | nil =>
    obtain rfl := List.length_eq_zero_iff.mp (Nat.le_zero.mp hlen)
    exact ⟨[], carry, rfl, rfl, digits_nil, hc, by simp⟩
  | cons a as ih =>
    obtain ⟨ha0, ha⟩ := digits_cons.mp ha
    unfold subloop
    cases bs with
    | nil =>
      have hcarry : carried (carry + a) = true → carry = -1 := fun h => by
        have hout := (carried_iff (by lia)).mp h
        lia
      obtain ⟨vs, carry', hrun, h1, h2, h3, h4⟩ := digit_value (c := -1)
        (Or.inr ⟨rfl, by lia, by lia⟩) hcarry
        (fun c1 h => ih ha digits_nil (Nat.zero_le _) h)
      refine ⟨vs, carry', hrun, h1, h2, h3, ?_⟩
      rw [length_cons, h4, value_cons, value_nil]
      ring
    | cons b bs =>
      obtain ⟨hb0, hb⟩ := digits_cons.mp hb
      obtain ⟨vs, carry', hrun, h1, h2, h3, h4⟩ := digit_value (c := -1) (x := carry + a - b)
        (Or.inr ⟨rfl, by lia, by lia⟩) (fun _ => rfl)
        (fun c1 h => ih ha hb (by simpa using hlen) h)
      refine ⟨vs, carry', hrun, h1, h2, h3, ?_⟩
      rw [length_cons, h4, value_cons, value_cons]
      ring

/-! ## m_add and m_sub -/

/-- **`m_add`** adds magnitudes, the longer one first. -/
theorem m_add_spec (ha : Valid a) (hb : Valid b) (h0 : 0 ≤ b.len) (hle : b.len ≤ a.len) :
    ∃ c, m_add a b = some c ∧ Valid c ∧ (c.len = a.len ∨ c.len = a.len + 1) ∧
      c.mag = c.val ∧ value 32768 c.mag = value 32768 a.mag + value 32768 b.mag ∧
      (c.len = a.len + 1 → c.mag.getLast? ≠ some 0) := by
  have hla := ha.length_mag
  have hlb := hb.length_mag
  obtain ⟨vs, carry, hrun, hlen, hvs, hc, hval⟩ :=
    addloop_value ha.digits hb.digits (by lia) (Or.inl rfl)
  unfold m_add
  rw [take_toNat (by lia), take_toNat h0, hrun]
  simp only [bind_eq_bind, bind_some]
  rcases hc with rfl | rfl
  · rw [if_neg (by lia)]
    have hmag : (⟨a.len, vs⟩ : mint).mag = vs := take_of_length_le (by
      show vs.length ≤ a.len.natAbs
      lia)
    refine ⟨_, rfl, ⟨?_, ?_⟩, Or.inl rfl, hmag, ?_, fun h => ?_⟩
    · show a.len.natAbs ≤ vs.length
      lia
    · rw [hmag]
      exact hvs
    · rw [hmag]
      linarith
    · change a.len = a.len + 1 at h
      lia
  · rw [if_pos rfl]
    have hmag : (⟨a.len + 1, vs ++ [1]⟩ : mint).mag = vs ++ [1] := take_of_length_le (by
      show (vs ++ [1]).length ≤ (a.len + 1).natAbs
      rw [length_append, length_singleton]
      lia)
    refine ⟨_, rfl, ⟨?_, ?_⟩, Or.inr rfl, hmag, ?_, fun _ => ?_⟩
    · show (a.len + 1).natAbs ≤ (vs ++ [1]).length
      rw [length_append, length_singleton]
      lia
    · rw [hmag]
      exact digits_append.mpr ⟨hvs, digits_cons.mpr ⟨by lia, digits_nil⟩⟩
    · rw [hmag, value_append, hlen, value_cons, value_nil]
      linarith
    · rw [hmag, List.getLast?_append]
      simp

/-- The sum of magnitudes is canonical when the longer one is. -/
theorem m_add_canon (ha : Canon a) (hb : Valid b) (h0 : 0 ≤ b.len) (hle : b.len ≤ a.len) :
    ∃ c, m_add a b = some c ∧ Canon c ∧ c.num = a.num + b.num := by
  obtain ⟨c, hrun, hc, hlen, -, hval, htop⟩ := m_add_spec ha.toValid hb h0 hle
  refine ⟨c, hrun, ⟨hc, ?_⟩, ?_⟩
  · rcases hlen with hlen | hlen
    · by_cases hz : a.len = 0
      · have hnil : c.mag = [] := List.length_eq_zero_iff.mp (by
          rw [hc.length_mag]
          omega)
        rw [hnil]
        simp
      · refine getLast?_ne_zero hc.digits ?_
        have h1 := ha.le_value hz
        have h2 := hb.digits.value_nonneg
        rw [hval, hc.length_mag, hlen]
        linarith
    · exact htop hlen
  · rw [num_of_nonneg (by omega), num_of_nonneg (by omega), num_of_nonneg h0, hval]

/-- Cutting a list after the last entry that fails a test. -/
theorem take_last_not (p : ℤ → Bool) (l : List ℤ) :
    ∃ k m, l = k ++ m ∧ (l.reverse.dropWhile p).length = k.length ∧ (∀ d ∈ m, p d = true) ∧
      ∀ d ∈ k.getLast?, p d = false := by
  refine ⟨(l.reverse.dropWhile p).reverse, (l.reverse.takeWhile p).reverse, ?_, by simp, ?_, ?_⟩
  · rw [← reverse_append, takeWhile_append_dropWhile, reverse_reverse]
  · intro d hd
    exact mem_takeWhile_imp (List.mem_reverse.mp hd)
  · intro d hd
    rw [List.getLast?_reverse] at hd
    have h := List.head?_dropWhile_not p l.reverse
    rw [hd] at h
    simpa using h

/-- Cutting off the leading zeros. -/
theorem uptoPos_spec (hl : Digits 32768 l) :
    Digits 32768 (l.take (uptoPos l)) ∧ (l.take (uptoPos l)).length = uptoPos l ∧
      value 32768 (l.take (uptoPos l)) = value 32768 l ∧
      (l.take (uptoPos l)).getLast? ≠ some 0 ∧ (uptoPos l = 0 ↔ value 32768 l = 0) := by
  obtain ⟨k, m, hkm, hlen, hm, hk⟩ := take_last_not (fun d => decide (¬ 0 < d)) l
  have htake : l.take (uptoPos l) = k := by
    unfold uptoPos
    rw [hlen, hkm, List.take_left']
    rfl
  have hdk : Digits 32768 k := (digits_append.mp (hkm ▸ hl)).1
  have hdm : Digits 32768 m := (digits_append.mp (hkm ▸ hl)).2
  have hm0 : ∀ d ∈ m, d = 0 := by
    intro d hd
    have h1 := of_decide_eq_true (hm d hd)
    have h2 := (hdm d hd).1
    omega
  have hval : value 32768 k = value 32768 l := by
    rw [hkm, value_append_zeros hm0]
  have htop : k.getLast? ≠ some 0 := by
    intro h0
    have := hk 0 h0
    simp at this
  rw [htake]
  refine ⟨hdk, ?_, hval, htop, ?_⟩
  · unfold uptoPos
    exact hlen.symm
  · have hu : uptoPos l = k.length := hlen
    rw [hu, ← hval]
    constructor
    · intro h0
      rw [List.length_eq_zero_iff.mp h0]
      rfl
    · intro h0
      by_contra hne
      rcases eq_nil_or_concat k with rfl | ⟨k', d, rfl⟩
      · exact hne rfl
      · rw [concat_eq_append] at *
        have hd0 : d ≠ 0 := fun h => htop (by simp [h])
        have hdd := (digits_append.mp hdk).2 d (by simp)
        have hle := hdk.le_value (by omega : 1 ≤ d)
        have hpos : (0 : ℤ) < 32768 ^ k'.length := by positivity
        omega

theorem flip_eq (hl : Digits 32768 l) : l.map flip = l.map fun d => 32768 - 1 - d := by
  refine map_congr_left fun d hd => ?_
  have := hl d hd
  unfold flip
  omega

/-- **`m_sub`** subtracts magnitudes, the longer one first. -/
theorem m_sub_spec (ha : Canon a) (hb : Canon b) (h0 : 0 ≤ b.len) (hle : b.len ≤ a.len)
    (fuel : ℕ) : ∃ c, m_sub (fuel + 2) a b = some c ∧ Canon c ∧ c.num = a.num - b.num := by
  have hla := ha.toValid.length_mag
  have hlb := hb.toValid.length_mag
  obtain ⟨vs, borrow, hrun, hlen, hvs, hc, hval⟩ :=
    subloop_value ha.digits hb.digits (by lia) (Or.inl rfl)
  have hvlt := hvs.value_lt
  have hann := ha.digits.value_nonneg
  rw [hlen] at hvlt
  rw [num_of_nonneg (by lia : 0 ≤ a.len), num_of_nonneg h0]
  unfold m_sub
  rw [take_toNat (by lia), take_toNat h0, hrun]
  simp only [bind_eq_bind, bind_some]
  rcases hc with rfl | rfl
  · -- no borrow: the digits are those of the difference
    rw [if_neg (by lia)]
    have htake : vs.take a.len.toNat = vs := take_of_length_le (by lia)
    obtain ⟨h1, h2, h3, h4, h5⟩ := uptoPos_spec hvs
    simp only [htake]
    by_cases hn : uptoPos vs = 0
    · rw [if_neg (not_not.mpr hn)]
      refine ⟨_, rfl, ⟨⟨Nat.le_refl 0, digits_nil⟩, by simp [mint.mag]⟩, ?_⟩
      show (0 : ℤ) = _
      lia
    · rw [if_pos hn, if_pos True.intro]
      have hmag : (⟨(uptoPos vs : ℤ), vs⟩ : mint).mag = vs.take (uptoPos vs) := rfl
      refine ⟨_, rfl, ⟨⟨?_, ?_⟩, ?_⟩, ?_⟩
      · have := length_take (i := uptoPos vs) (l := vs)
        show uptoPos vs ≤ vs.length
        lia
      · rw [hmag]
        exact h1
      · rw [hmag]
        exact h4
      · rw [num_of_nonneg (by show (0 : ℤ) ≤ uptoPos vs; lia), hmag, h3]
        lia
  · -- a borrow is left: complement, and one
    rw [if_pos (by lia)]
    have hpos : 0 < a.len.natAbs := by
      by_contra hz
      rw [List.length_eq_zero_iff.mp (by lia : vs.length = 0),
        List.length_eq_zero_iff.mp (by lia : a.mag.length = 0),
        List.length_eq_zero_iff.mp (by lia : b.mag.length = 0)] at hval
      simp at hval
    have hflip := flip_eq hvs
    have hcval : value 32768 (vs.map flip) = 32768 ^ a.mag.length - 1 - value 32768 vs := by
      rw [hflip, value_complement, hlen]
    have hmagc : (⟨a.len, vs.map flip⟩ : mint).mag = vs.map flip := take_of_length_le (by
      show (vs.map flip).length ≤ a.len.natAbs
      rw [length_map]
      lia)
    have hvc : Valid ⟨a.len, vs.map flip⟩ := by
      refine ⟨?_, ?_⟩
      · show a.len.natAbs ≤ (vs.map flip).length
        rw [length_map]
        lia
      · rw [hmagc, hflip]
        intro d hd
        obtain ⟨e, he, rfl⟩ := List.mem_map.mp hd
        have := hvs e he
        lia
    have hone : Valid ⟨1, [1]⟩ := ⟨Nat.le_refl 1, digits_cons.mpr ⟨by lia, digits_nil⟩⟩
    obtain ⟨c, hadd, hc, hclen, hcm, hsum, htop⟩ := m_add_spec hvc.copy hone.copy
      (by show (0 : ℤ) ≤ 1; lia) (by show (1 : ℤ) ≤ a.len; lia)
    have hmadd : madd (fuel + 1) ⟨a.len, vs.map flip⟩ ⟨1, [1]⟩ = some c := by
      unfold madd
      rw [hvc.move, hone.move]
      simp only [bind_eq_bind, bind_some]
      rw [if_pos (by lia), if_pos (by lia), if_pos (by lia)]
      exact hadd
    rw [hmadd, bind_some]
    rw [hvc.mag_move, hone.mag_move, hmagc, hcval] at hsum
    have hone1 : value 32768 (⟨1, [1]⟩ : mint).mag = 1 := by decide
    -- the sum is below the radix power, so that there is no carry
    have hclen' : c.len = a.len := by
      rcases hclen with h | h
      · exact h
      · exfalso
        have hge : (32768 : ℤ) ^ a.mag.length ≤ value 32768 c.mag := by
          have hcc : Canon c := ⟨hc, htop h⟩
          have := hcc.le_value (by
            change c.len = a.len + 1 at h
            lia)
          have heq : c.len.natAbs - 1 = a.mag.length := by
            change c.len = a.len + 1 at h
            lia
          rwa [heq] at this
        have hbv := hb.digits.value_lt
        have hpow : (32768 : ℤ) ^ b.mag.length ≤ 32768 ^ a.mag.length :=
          pow_le_pow_right₀ (by norm_num) (by lia)
        linarith
    have htake : c.val.take a.len.toNat = c.mag := by
      unfold mint.mag
      rw [hclen']
      congr 1
      lia
    obtain ⟨h1, h2, h3, h4, h5⟩ := uptoPos_spec hc.digits
    simp only [htake]
    have hne : uptoPos c.mag ≠ 0 := by
      intro hz
      have := h5.mp hz
      linarith
    rw [if_pos hne, if_neg (by lia)]
    have hmag : (⟨-(uptoPos c.mag : ℤ), c.val⟩ : mint).mag = c.mag.take (uptoPos c.mag) := by
      show c.val.take (-(uptoPos c.mag : ℤ)).natAbs = _
      rw [Int.natAbs_neg, Int.natAbs_natCast, hcm]
    refine ⟨_, rfl, ⟨⟨?_, ?_⟩, ?_⟩, ?_⟩
    · show (-(uptoPos c.mag : ℤ)).natAbs ≤ c.val.length
      have := length_take (i := uptoPos c.mag) (l := c.mag)
      rw [← hcm, Int.natAbs_neg, Int.natAbs_natCast]
      lia
    · rw [hmag]
      exact h1
    · rw [hmag]
      exact h4
    · rw [num_of_neg (by show -(uptoPos c.mag : ℤ) < 0; lia), hmag, h3]
      linarith

/-! ## Signs -/

theorem madd_nonneg (ha : Canon a) (hb : Canon b) (ha0 : 0 ≤ a.len) (hb0 : 0 ≤ b.len) (fuel : ℕ) :
    ∃ c, madd (fuel + 1) a b = some c ∧ Canon c ∧ c.num = a.num + b.num := by
  unfold madd
  rw [ha.toValid.move, hb.toValid.move]
  simp only [bind_eq_bind, bind_some]
  rw [if_pos ha0, if_pos hb0, ← ha.toValid.num_move, ← hb.toValid.num_move]
  by_cases hle : b.len ≤ a.len
  · rw [if_pos hle]
    exact m_add_canon ha.copy hb.copy.toValid hb0 hle
  · rw [if_neg hle, add_comm (mint.num _)]
    exact m_add_canon hb.copy ha.copy.toValid ha0 (by show a.len ≤ b.len; omega)

theorem msub_nonneg (ha : Canon a) (hb : Canon b) (ha0 : 0 ≤ a.len) (hb0 : 0 ≤ b.len) (fuel : ℕ) :
    ∃ c, msub (fuel + 4) a b = some c ∧ Canon c ∧ c.num = a.num - b.num := by
  -- the longer one first
  have hlong : ∀ {x y : mint}, Canon x → Canon y → 0 ≤ x.len → 0 ≤ y.len → y.len ≤ x.len →
      ∀ fuel, ∃ c, msub (fuel + 3) x y = some c ∧ Canon c ∧ c.num = x.num - y.num := by
    intro x y hx hy hx0 hy0 hle fuel
    unfold msub
    rw [hx.toValid.move, hy.toValid.move]
    simp only [bind_eq_bind, bind_some]
    rw [if_pos hx0, if_pos hy0, if_pos hle, ← hx.toValid.num_move, ← hy.toValid.num_move]
    exact m_sub_spec hx.copy hy.copy hy0 hle fuel
  by_cases hle : b.len ≤ a.len
  · exact hlong ha hb ha0 hb0 hle (fuel + 1)
  · obtain ⟨c, hrun, hc, hval⟩ := hlong hb.copy ha.copy hb0 ha0
      (by show a.len ≤ b.len; omega) fuel
    refine ⟨c.neg, ?_, hc.neg, ?_⟩
    · unfold msub
      rw [ha.toValid.move, hb.toValid.move]
      simp only [bind_eq_bind, bind_some]
      rw [if_pos ha0, if_pos hb0, if_neg hle, hrun]
      rfl
    · rw [hc.neg_num, hval, ha.toValid.num_move, hb.toValid.num_move]
      ring

/-- A copy with the other sign. -/
theorem copy_neg (ha : Canon a) :
    Canon ⟨-a.len, a.mag⟩ ∧ (⟨-a.len, a.mag⟩ : mint).num = -a.num := by
  refine ⟨ha.copy.neg, ?_⟩
  rw [← ha.toValid.num_move]
  exact ha.copy.neg_num

/-- **`madd`** leaves the sum. -/
theorem madd_spec (ha : Canon a) (hb : Canon b) :
    ∃ c, madd depth a b = some c ∧ Canon c ∧ c.num = a.num + b.num := by
  by_cases ha0 : 0 ≤ a.len
  · by_cases hb0 : 0 ≤ b.len
    · exact madd_nonneg ha hb ha0 hb0 4
    · obtain ⟨hn, hv⟩ := copy_neg hb
      obtain ⟨c, hrun, hc, hval⟩ := msub_nonneg ha.copy hn ha0 (by show 0 ≤ -b.len; omega) 0
      refine ⟨c, ?_, hc, ?_⟩
      · unfold depth madd
        rw [ha.toValid.move, hb.toValid.move]
        simp only [bind_eq_bind, bind_some]
        rw [if_pos ha0, if_neg hb0]
        exact hrun
      · rw [hval, hv, ha.toValid.num_move]
        ring
  · obtain ⟨hna, hva⟩ := copy_neg ha
    by_cases hb0 : b.len ≤ 0
    · obtain ⟨hnb, hvb⟩ := copy_neg hb
      obtain ⟨c, hrun, hc, hval⟩ := madd_nonneg hna hnb (by show 0 ≤ -a.len; omega)
        (by show 0 ≤ -b.len; omega) 3
      refine ⟨c.neg, ?_, hc.neg, ?_⟩
      · unfold depth madd
        rw [ha.toValid.move, hb.toValid.move]
        simp only [bind_eq_bind, bind_some]
        rw [if_neg ha0, if_pos hb0, hrun]
        rfl
      · rw [hc.neg_num, hval, hva, hvb]
        ring
    · obtain ⟨c, hrun, hc, hval⟩ := msub_nonneg hb.copy hna (by show 0 ≤ b.len; omega)
        (by show 0 ≤ -a.len; omega) 0
      refine ⟨c, ?_, hc, ?_⟩
      · unfold depth madd
        rw [ha.toValid.move, hb.toValid.move]
        simp only [bind_eq_bind, bind_some]
        rw [if_neg ha0, if_neg hb0]
        exact hrun
      · rw [hval, hva, hb.toValid.num_move]
        ring

/-- **`msub`** leaves the difference, but for two operands that are negative, or the second
zero: then it is the difference with the wrong sign. -/
theorem msub_spec (ha : Canon a) (hb : Canon b) :
    ∃ c, msub depth a b = some c ∧ Canon c ∧
      c.num = if a.len < 0 ∧ b.len ≤ 0 then b.num - a.num else a.num - b.num := by
  by_cases ha0 : 0 ≤ a.len
  · rw [if_neg (by omega)]
    by_cases hb0 : 0 ≤ b.len
    · exact msub_nonneg ha hb ha0 hb0 1
    · obtain ⟨hn, hv⟩ := copy_neg hb
      obtain ⟨c, hrun, hc, hval⟩ := madd_nonneg ha.copy hn ha0 (by show 0 ≤ -b.len; omega) 3
      refine ⟨c, ?_, hc, ?_⟩
      · unfold depth msub
        rw [ha.toValid.move, hb.toValid.move]
        simp only [bind_eq_bind, bind_some]
        rw [if_pos ha0, if_neg hb0]
        exact hrun
      · rw [hval, hv, ha.toValid.num_move]
        ring
  · obtain ⟨hna, hva⟩ := copy_neg ha
    by_cases hb0 : b.len ≤ 0
    · rw [if_pos (by omega)]
      obtain ⟨hnb, hvb⟩ := copy_neg hb
      obtain ⟨c, hrun, hc, hval⟩ := msub_nonneg hnb hna (by show 0 ≤ -b.len; omega)
        (by show 0 ≤ -a.len; omega) 0
      refine ⟨c.neg, ?_, hc.neg, ?_⟩
      · unfold depth msub
        rw [ha.toValid.move, hb.toValid.move]
        simp only [bind_eq_bind, bind_some]
        rw [if_neg ha0, if_pos hb0, hrun]
        rfl
      · rw [hc.neg_num, hval, hva, hvb]
        ring
    · rw [if_neg (by omega)]
      obtain ⟨c, hrun, hc, hval⟩ := madd_nonneg hna hb.copy (by show 0 ≤ -a.len; omega)
        (by show 0 ≤ b.len; omega) 3
      refine ⟨c.neg, ?_, hc.neg, ?_⟩
      · unfold depth msub
        rw [ha.toValid.move, hb.toValid.move]
        simp only [bind_eq_bind, bind_some]
        rw [if_neg ha0, if_neg hb0, hrun]
        rfl
      · rw [hc.neg_num, hval, hva, hb.toValid.num_move]
        ring

end Mp
