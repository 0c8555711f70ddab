/-
# Division

Each step of `m_div` leaves the remainder of one window in place of it, so that the digits
it finds are those of the quotient.  `mdiv` gives the remainder the sign of the quotient,
which is the sign of the dividend only when the divisor is positive.
-/
import SunOS.Libmp.Mdiv
import SunOS.Libmp.Ring
import Mathlib.Data.List.Basic
import Mathlib.Algebra.Order.Ring.Abs

namespace Mp

open Function (update update_of_ne update_self)
open List
open Option (bind_eq_bind bind_some)
open Radix

variable {a b q r : mint} {vs vl ws lo qs cs : List ℤ} {x v1 v2 : ℤ}

/-! ## One digit -/

theorem three_top {l : List ℤ} (h : 3 ≤ l.length) : ∃ k u3 u2 u1, l = k ++ [u3, u2, u1] := by
  obtain ⟨u3, u2, u1, heq⟩ := List.length_eq_three.mp
    (show (l.drop (l.length - 3)).length = 3 by rw [length_drop]; omega)
  exact ⟨l.take (l.length - 3), u3, u2, u1, by rw [← heq, take_append_drop]⟩

/-- What one round of the loop does with the window `l`. -/
structure Round (vs : List ℤ) (v1 v2 : ℤ) (l rest : List ℤ) (qj : ℤ) (cs : List ℤ) (top : ℤ) :
    Prop where
  run : ∃ u3 u2 u1 qx back, l[vs.length]? = some u1 ∧ l[vs.length - 1]? = some u2 ∧
    l[vs.length - 2]? = some u3 ∧ m_trq v1 v2 u1 u2 u3 = some qx ∧ short qx = some qx ∧
    m_dsb qx vs (l ++ rest) = some (cs ++ top :: rest, back) ∧ (if back then qx - 1 else qx) = qj
  digit : 0 ≤ qj ∧ qj < 32768
  length : cs.length = vs.length
  digits : Digits 32768 cs
  lt : value 32768 cs < value 32768 vs
  value : value 32768 l = qj * value 32768 vs + value 32768 cs

/-- **One round** finds the digit of the quotient and leaves the remainder. -/
theorem round (rest : List ℤ) (hvs : Digits 32768 vs) (hv : vs = vl ++ [v2, v1]) (hv1 : 0 < v1)
    (hx : 0 ≤ x ∧ x < 32768) (hws : Digits 32768 ws) (hlen : ws.length = vs.length)
    (hlt : value 32768 ws < value 32768 vs) :
    ∃ qj cs top, Round vs v1 v2 (x :: ws) rest qj cs top := by
  have hvlen : vs.length = vl.length + 2 := by
    rw [hv, length_append]
    rfl
  obtain ⟨wl, u3, u2, u1, hl⟩ := three_top (l := x :: ws) (by rw [length_cons]; lia)
  have hwlen : wl.length = vl.length := by
    have := congrArg List.length hl
    rw [length_cons, length_append, length_cons, length_cons,
      length_singleton] at this
    lia
  -- the digits of both
  have hdl : Digits 32768 (wl ++ [u3, u2, u1]) := by
    rw [← hl]
    exact digits_cons.mpr ⟨hx, hws⟩
  obtain ⟨hdw, hdu⟩ := digits_append.mp hdl
  have hu3 := hdu u3 (by simp)
  have hu2 := hdu u2 (by simp)
  have hu1 := hdu u1 (by simp)
  have hdv := hvs
  rw [hv] at hdv
  obtain ⟨hdvl, hdvt⟩ := digits_append.mp hdv
  have hdv1 := hdvt v1 (by simp)
  have hdv2 := hdvt v2 (by simp)
  -- their values
  have hVl := hdvl.value_lt
  have hVl0 := hdvl.value_nonneg
  have hUl := hdw.value_lt
  have hUl0 := hdw.value_nonneg
  rw [hwlen] at hUl
  have hW : (0 : ℤ) < 32768 ^ vl.length := by positivity
  have hV : value 32768 vs = (v1 * 32768 + v2) * 32768 ^ vl.length + value 32768 vl := by
    rw [hv, value_append]
    simp only [value_cons, value_nil]
    ring
  have hU : value 32768 (x :: ws) =
      ((u1 * 32768 + u2) * 32768 + u3) * 32768 ^ vl.length + value 32768 wl := by
    rw [hl, value_append, hwlen]
    simp only [value_cons, value_nil]
    ring
  have hUV : value 32768 (x :: ws) < 32768 * value 32768 vs := by
    rw [value_cons]
    exact window_lt hx.2 hlt (by norm_num)
  have hU0 : 0 ≤ value 32768 (x :: ws) := (digits_cons.mpr ⟨hx, hws⟩).value_nonneg
  have hVpos : 0 < value 32768 vs := by lia
  have hBW : 32768 * 32768 ^ vl.length ≤ value 32768 vs := by
    have hmul : 1 * (32768 * 32768 ^ vl.length) ≤ v1 * (32768 * (32768 : ℤ) ^ vl.length) :=
      mul_le_mul_of_nonneg_right (by lia) (by positivity)
    have hv20 : 0 ≤ v2 * (32768 : ℤ) ^ vl.length := mul_nonneg hdv2.1 hW.le
    rw [hV]
    linarith
  -- the quotient, and the estimate
  have hdiv := Int.mul_ediv_add_emod (value 32768 (x :: ws)) (value 32768 vs)
  have hm0 := Int.emod_nonneg (value 32768 (x :: ws)) hVpos.ne'
  have hm1 := Int.emod_lt_of_pos (value 32768 (x :: ws)) hVpos
  have hq0 : 0 ≤ value 32768 (x :: ws) / value 32768 vs := Int.ediv_nonneg hU0 hVpos.le
  have hq1 : value 32768 (x :: ws) / value 32768 vs < 32768 := Int.ediv_lt_of_lt_mul hVpos hUV
  generalize value 32768 (x :: ws) / value 32768 vs = q at hdiv hq0 hq1
  have hqU : q * value 32768 vs ≤ value 32768 (x :: ws) := by lia
  have hu1v1 : u1 ≤ v1 := top_le (by rw [hU]; ring) hUl0 hV hVl hu2.1 hu3.1 hdv2.2 hW
    (by norm_num) hUV
  obtain ⟨d, htrq, hqd, hd1, hfit⟩ := m_trq_spec ⟨hv1, hdv1.2⟩ hdv2 ⟨hu1.1, hu1v1⟩ hu2 hu3 hq0 hq1
    (fits_upper hU hUl hV hVl0 hW hq0 hqU)
  have hhigh := upper_fits hU hUl0 hV hVl hW hBW (by lia) hd1 hfit
  have hqd' : (q + 1) * value 32768 vs ≤ (d + 1) * value 32768 vs :=
    mul_le_mul_of_nonneg_right (by lia) hVpos.le
  have hwin : value 32768 (wl ++ [u3, u2]) + 32768 ^ vs.length * u1 = value 32768 (x :: ws) := by
    rw [hU, value_append, hwlen, hvlen, pow_add]
    simp only [value_cons, value_nil]
    ring
  have hdw2 : Digits 32768 (wl ++ [u3, u2]) :=
    digits_append.mpr ⟨hdw, digits_cons.mpr ⟨hu3, digits_cons.mpr ⟨hu2, digits_nil⟩⟩⟩
  have hwl2 : (wl ++ [u3, u2]).length = vs.length := by
    rw [length_append, hwlen, hvlen]
    rfl
  obtain ⟨cs, top, back, hdsb, hclen, hcs, hclt, hval⟩ := m_dsb_spec rest hvs hdw2 hwl2
    hu1 ⟨by lia, hd1⟩ (by rw [hwin]; linarith) (by rw [hwin]; exact hhigh)
  have hc0 := hcs.value_nonneg
  rw [hwin] at hval
  refine ⟨if back then d - 1 else d, cs, top, ⟨⟨u3, u2, u1, d, back, ?_, ?_, ?_, htrq,
    short_of (by lia), ?_, rfl⟩, ?_, hclen, hcs, hclt, hval⟩⟩
  · rw [hl, List.getElem?_append_right (by lia), hvlen, hwlen, Nat.add_sub_cancel_left]
    rfl
  · rw [hl, List.getElem?_append_right (by lia), hvlen, hwlen]
    simp
  · rw [hl, List.getElem?_append_right (by lia), hvlen, hwlen]
    simp
  · rw [hl]
    have happ : wl ++ [u3, u2, u1] ++ rest = wl ++ [u3, u2] ++ u1 :: rest := by simp
    rw [happ]
    exact hdsb
  · generalize (if back then d - 1 else d) = qj at hval
    constructor
    · have hlt' : -1 * value 32768 vs < qj * value 32768 vs := by lia
      have := lt_of_mul_lt_mul_right hlt' hVpos.le
      lia
    · exact lt_of_mul_lt_mul_right (by lia) hVpos.le

/-! ## The loop -/

/-- **The loop** divides what is below the top window and the window. -/
theorem divloop_spec (hvs : Digits 32768 vs) (hv : vs = vl ++ [v2, v1]) (hv1 : 0 < v1) (j : ℕ) :
    ∀ (rest : List ℤ) {lo ws : List ℤ}, lo.length = j → ws.length = vs.length → Digits 32768 lo →
      Digits 32768 ws → value 32768 ws < value 32768 vs →
      ∃ qs cs rest', divloop vs v1 v2 j (lo ++ ws ++ rest) = some (qs, cs ++ rest') ∧
        qs.length = j ∧ Digits 32768 qs ∧ cs.length = vs.length ∧ Digits 32768 cs ∧
        value 32768 cs < value 32768 vs ∧
        value 32768 (lo ++ ws) = value 32768 qs * value 32768 vs + value 32768 cs := by
  induction j with
  | zero =>
    intro rest lo ws hlo hws _ hdw hlt
    obtain rfl := List.length_eq_zero_iff.mp hlo
    exact ⟨[], ws, rest, rfl, rfl, digits_nil, hws, hdw, hlt, by simp⟩
  | succ j ih =>
    intro rest lo ws hlo hws hdlo hdw hlt
    rcases eq_nil_or_concat lo with rfl | ⟨lo, x, rfl⟩
    · simp at hlo
    · rw [concat_eq_append] at *
      have hlo' : lo.length = j := by
        rw [length_append, length_singleton] at hlo
        lia
      obtain ⟨hdlo, hdx⟩ := digits_append.mp hdlo
      have hx := hdx x (by simp)
      obtain ⟨qj, cs, top, hround⟩ := round rest hvs hv hv1 hx hdw hws hlt
      obtain ⟨u3, u2, u1, qx, back, h1, h2, h3, htrq, hqx, hdsb, hqj⟩ := hround.run
      obtain ⟨qs, cs', rest', hrun, hqlen, hqs, hclen, hcs, hclt, hval⟩ :=
        ih (top :: rest) hlo' hround.length hdlo hround.digits hround.lt
      have hu : lo ++ [x] ++ ws ++ rest = lo ++ (x :: ws ++ rest) := by simp
      have hvpos : 2 ≤ vs.length := by
        rw [hv, length_append]
        exact Nat.le_add_left 2 _
      have hget : ∀ i, i ≤ vs.length →
          (lo ++ (x :: ws ++ rest))[j + i]? = (x :: ws)[i]? := by
        intro i hi
        rw [List.getElem?_append_right (by lia), hlo', Nat.add_sub_cancel_left,
          List.getElem?_append_left (by rw [length_cons]; lia)]
      have hi1 : j + vs.length - 1 = j + (vs.length - 1) := by lia
      have hi2 : j + vs.length - 2 = j + (vs.length - 2) := by lia
      refine ⟨qs ++ [qj], cs', rest', ?_, by simp [hqlen],
        digits_append.mpr ⟨hqs, digits_cons.mpr ⟨hround.digit, digits_nil⟩⟩, hclen, hcs, hclt, ?_⟩
      · unfold divloop
        rw [hu, hi1, hi2, hget _ le_rfl, hget _ (by lia), hget _ (by lia), h1, h2, h3]
        simp only [bind_eq_bind, bind_some]
        rw [htrq, bind_some, hqx, bind_some, List.drop_left' hlo', hdsb]
        simp only [bind_some]
        have hdig := hround.digit
        rw [hqj, short_of (by lia), bind_some, List.take_left' hlo']
        have happ : lo ++ (cs ++ top :: rest) = lo ++ cs ++ top :: rest := by simp
        rw [happ, hrun]
        rfl
      · have hwin := hround.value
        have hsplit : lo ++ [x] ++ ws = lo ++ (x :: ws) := by simp
        rw [value_append] at hval
        rw [hsplit, value_append, value_append, hwin, value_cons, value_nil, hqlen]
        rw [hlo'] at hval ⊢
        linear_combination hval

/-! ## m_div -/

/-- `mcan` keeps the number. -/
theorem mcan_spec (h : Valid a) (ha0 : 0 ≤ a.len) :
    Canon (mcan a) ∧ (mcan a).num = a.num ∧ 0 ≤ (mcan a).len := by
  have hlen := h.length_mag
  obtain ⟨k, m, hkm, hk, hm, htop⟩ := take_last_not (fun d => decide (d = 0)) a.mag
  have hupto : upto (a.val.take a.len.natAbs) = k.length := hk
  have hdk : Digits 32768 k := (digits_append.mp (hkm ▸ h.digits)).1
  have htop0 : k.getLast? ≠ some 0 := by
    intro h0
    have := htop 0 h0
    simp at this
  have hval : value 32768 k = a.num := by
    rw [num_of_nonneg ha0, hkm, value_append_zeros fun d hd => of_decide_eq_true (hm d hd)]
  have hle : k.length ≤ a.len.natAbs := by
    rw [← hlen, hkm, length_append]
    lia
  -- a number with `k.length` cells in use
  have hform : ∀ c : mint, c.len = k.length → c.mag = k → k.length ≤ c.val.length →
      Canon c ∧ c.num = a.num ∧ 0 ≤ c.len := by
    intro c hcl hcm hcv
    refine ⟨⟨⟨by lia, hcm ▸ hdk⟩, hcm ▸ htop0⟩, ?_, by lia⟩
    rw [num_of_nonneg (by lia), hcm, hval]
  have hcells := h.cells
  have htake : a.val.take k.length = k := by
    have : a.val.take k.length = a.mag.take k.length := by
      unfold mint.mag
      rw [take_take, min_eq_left hle]
    rw [this, hkm, List.take_left' rfl]
  unfold mcan
  simp only [hupto]
  by_cases h0 : a.len = 0
  · rw [if_pos h0]
    have hnil : k = [] := List.length_eq_zero_iff.mp (by lia)
    exact hform a (by lia) (by unfold mint.mag; rw [hnil, h0]; rfl) (by lia)
  · rw [if_neg h0]
    by_cases hj : k.length = a.len.natAbs
    · rw [if_pos hj]
      exact hform a (by lia) (by unfold mint.mag; rw [← hj, htake]) (by lia)
    · rw [if_neg hj]
      by_cases hk0 : k.length = 0
      · rw [if_pos hk0]
        exact hform _ (by rw [hk0]; rfl) (by rw [List.length_eq_zero_iff.mp hk0]; rfl) (by lia)
      · rw [if_neg hk0, if_pos (by lia)]
        exact hform _ rfl htake (by show k.length ≤ a.val.length; lia)

/-- What a division of magnitudes leaves. -/
structure Quotient (a b q r : mint) : Prop where
  canon : Canon q ∧ Canon r
  len : 0 ≤ q.len ∧ 0 ≤ r.len
  num : a.num = q.num * b.num + r.num
  lt : r.num < b.num

/-- A canonical number of one digit. -/
theorem canon_one {d : ℤ} (h : 0 < d ∧ d < 32768) :
    Canon ⟨1, [d]⟩ ∧ (⟨1, [d]⟩ : mint).num = d := by
  refine ⟨⟨⟨Nat.le_refl 1, digits_cons.mpr ⟨⟨h.1.le, h.2⟩, digits_nil⟩⟩, ?_⟩, ?_⟩
  · show ([d] : List ℤ).getLast? ≠ some 0
    intro h0
    have : d = 0 := by simpa using h0
    omega
  · show d + 32768 * 0 = d
    ring

/-- One digit: `sdiv` does it. -/
theorem m_div_one (ha : Canon a) (hb : Canon b) (ha0 : 0 ≤ a.len) (hb1 : b.len = 1) :
    ∃ q r, m_div a b = some (q, r) ∧ Quotient a b q r := by
  have hlen := hb.toValid.length_mag
  obtain ⟨n, hn⟩ := List.length_eq_one_iff.mp (show b.mag.length = 1 by lia)
  have hget : b.val[0]? = some n := by
    have h1 : b.mag[0]? = some n := by rw [hn]; rfl
    rw [← h1]
    unfold mint.mag
    rw [List.getElem?_take_of_lt (by lia)]
  have hdn := (hn ▸ hb.digits : Digits 32768 [n]) n (by simp)
  have hn0 : n ≠ 0 := by
    have htop := hb.top
    rw [hn] at htop
    simpa using htop
  have hbn : b.num = n := by
    rw [num_of_nonneg (by lia), hn]
    simp
  obtain ⟨q, r, hrun, hq, hq0, hr, hval⟩ := sdiv_spec ha ha0 (show 0 < n ∧ n < 32768 by lia)
  unfold m_div
  rw [if_neg (by lia), if_pos hb1, hget]
  simp only [bind_eq_bind, bind_some]
  rw [hrun, bind_some]
  by_cases hr0 : r = 0
  · rw [if_pos hr0]
    refine ⟨_, _, rfl, ⟨hq, ⟨Nat.le_refl 0, digits_nil⟩, by simp [mint.mag]⟩, ⟨hq0, le_rfl⟩, ?_, ?_⟩
    · rw [hval, hbn, hr0]
      show _ = _ + (0 : ℤ)
      ring
    · rw [hbn]
      show (0 : ℤ) < n
      lia
  · obtain ⟨hc, hcn⟩ := canon_one (show 0 < r ∧ r < 32768 by lia)
    rw [if_neg hr0]
    refine ⟨_, _, rfl, ⟨hq, hc⟩, ⟨hq0, by norm_num⟩, ?_, ?_⟩
    · rw [hval, hbn, hcn]
      ring
    · rw [hbn, hcn]
      exact hr.2

/-- A shorter dividend is the remainder. -/
theorem m_div_short (ha : Canon a) (hb : Canon b) (ha0 : 0 ≤ a.len) (hb1 : 1 < b.len)
    (hlt : a.len < b.len) : ∃ q r, m_div a b = some (q, r) ∧ Quotient a b q r := by
  unfold m_div
  rw [if_neg (by omega), if_neg (by omega), if_pos hlt, ha.toValid.move]
  refine ⟨_, _, rfl, ⟨⟨⟨Nat.le_refl 0, digits_nil⟩, by simp [mint.mag]⟩, ha.copy⟩,
    ⟨le_rfl, ha0⟩, ?_, ?_⟩
  · rw [ha.toValid.num_move]
    show _ = (0 : ℤ) * _ + _
    ring
  · rw [ha.toValid.num_move]
    exact ha.num_lt hb hlt

/-- The factor: the top digit of the divisor stays a digit. -/
theorem factor_range {top : ℤ} (h : 0 < top ∧ top < 32768) :
    0 < 32768 / (top + 1) ∧ 32768 / (top + 1) < 32768 ∧
      32768 / (top + 1) * (top + 1) ≤ 32768 := by
  refine ⟨?_, Int.ediv_lt_of_lt_mul (by omega) (by omega), Int.ediv_mul_le _ (by omega)⟩
  have hone : 1 ≤ 32768 / (top + 1) := by
    rw [Int.le_ediv_iff_mul_le (by omega)]
    omega
  omega

variable {d : ℤ}

/-- The divisor times the factor has as many digits. -/
theorem scaled_divisor (hb : Canon b) (hb1 : 1 < b.len) (hd : 0 < d ∧ d < 32768)
    (hlt : b.num * d < 32768 ^ b.len.toNat) :
    ∃ v vl v1 v2, mult b ⟨1, [d]⟩ = some v ∧ v.val.take b.len.toNat = vl ++ [v2, v1] ∧
      v.val[b.len.toNat - 1]? = some v1 ∧ v.val[b.len.toNat - 2]? = some v2 ∧
      vl.length + 2 = b.len.toNat ∧ Digits 32768 (vl ++ [v2, v1]) ∧ 0 < v1 ∧
      value 32768 (vl ++ [v2, v1]) = b.num * d := by
  obtain ⟨hx, hxn⟩ := canon_one hd
  obtain ⟨v, hrun, -, -, hprod⟩ := mult_product hb hx (by lia) (by norm_num)
  have hv := hprod (by lia) (by norm_num)
  rw [hxn] at hv
  have hlen : v.val.length = b.len.toNat + 1 := by
    rw [hv.length]
    show b.len.natAbs + 1 = _
    lia
  obtain ⟨vl, v2, v1, w, hval⟩ := three_top (l := v.val) (by lia)
  have hvl : vl.length + 2 = b.len.toNat := by
    rw [hval, length_append] at hlen
    simp at hlen
    lia
  have hsplit : v.val = (vl ++ [v2, v1]) ++ [w] := by
    rw [hval]
    simp
  have hlen2 : (vl ++ [v2, v1]).length = b.len.toNat := by
    rw [length_append]
    exact hvl
  have hdig := hv.digits
  rw [hsplit] at hdig
  obtain ⟨hdv, hdw⟩ := digits_append.mp hdig
  -- the cell above is zero
  have hsum : value 32768 (vl ++ [v2, v1]) + 32768 ^ b.len.toNat * w = b.num * d := by
    have happ := value_append (B := 32768) (l := vl ++ [v2, v1]) (m := [w])
    rw [hlen2, value_cons, value_nil, mul_zero, add_zero] at happ
    rw [← hv.value, hsplit, happ]
  have hbn : 32768 ^ (b.len.toNat - 1) ≤ b.num := by
    rw [num_of_nonneg (by lia)]
    have := hb.le_value (by lia)
    rwa [show b.len.natAbs = b.len.toNat by lia] at this
  have hge : (32768 : ℤ) ^ (b.len.toNat - 1) ≤ b.num * d := by
    have : b.num * 1 ≤ b.num * d := mul_le_mul_of_nonneg_left (by lia) (by lia)
    lia
  obtain ⟨-, hvalue⟩ := window_unique hdv hlen2 hsum (by lia) hlt
  refine ⟨v, vl, v1, v2, hrun, ?_, ?_, ?_, hvl, hdv, ?_, hvalue⟩
  · rw [hsplit, List.take_left' hlen2]
  · rw [hval, List.getElem?_append_right (by lia), show b.len.toNat - 1 - vl.length = 1 by lia]
    rfl
  · rw [hval, List.getElem?_append_right (by lia), show b.len.toNat - 2 - vl.length = 0 by lia]
    rfl
  · have hv1 := hdv v1 (by simp)
    by_contra h0
    obtain rfl : v1 = 0 := by lia
    have hsplit2 : vl ++ [v2, 0] = (vl ++ [v2]) ++ [0] := by simp
    have hdv2 := hdv
    rw [hsplit2] at hdv2
    have hlt2 := (digits_append.mp hdv2).1.value_lt
    rw [hsplit2, value_append_zeros (by simp)] at hvalue
    rw [hvalue, length_append, length_singleton,
      show vl.length + 1 = b.len.toNat - 1 by lia] at hlt2
    lia

/-- The dividend times the factor starts below the divisor. -/
theorem scaled_dividend (ha : Canon a) {n : ℕ} (hn : 0 < n) (hle : n ≤ a.len)
    (hd : 0 < d ∧ d < 32768) :
    ∃ u lo ws, mult a ⟨1, [d]⟩ = some u ∧ u.val = lo ++ ws ∧ lo.length = (a.len - n + 1).toNat ∧
      ws.length = n ∧ Digits 32768 lo ∧ Digits 32768 ws ∧
      value 32768 ws < 32768 ^ (n - 1) * d ∧ value 32768 (lo ++ ws) = a.num * d := by
  obtain ⟨hx, hxn⟩ := canon_one hd
  obtain ⟨u, hrun, -, -, hprod⟩ := mult_product ha hx (by lia) (by norm_num)
  have hu := hprod (by lia) (by norm_num)
  rw [hxn] at hu
  have hlen : u.val.length = a.len.natAbs + 1 := hu.length
  have hdig := hu.digits
  have hval := hu.value
  rw [← take_append_drop (a.len - n + 1).toNat u.val] at hdig hval
  obtain ⟨hdlo, hdws⟩ := digits_append.mp hdig
  have hllo : (u.val.take (a.len - n + 1).toNat).length = (a.len - n + 1).toNat := by
    rw [length_take]
    lia
  refine ⟨u, _, _, hrun, (take_append_drop (a.len - n + 1).toNat u.val).symm, hllo, ?_, hdlo,
    hdws, ?_, hval⟩
  · rw [length_drop]
    lia
  · have hlo0 := hdlo.value_nonneg
    have ha' := ha.digits.value_lt
    rw [ha.toValid.length_mag, ← num_of_nonneg (by lia)] at ha'
    have hpow : (32768 : ℤ) ^ a.len.natAbs = 32768 ^ (a.len - n + 1).toNat * 32768 ^ (n - 1) := by
      rw [← pow_add]
      congr 1
      lia
    rw [value_append, hllo] at hval
    have hmul : a.num * d < 32768 ^ a.len.natAbs * d := mul_lt_mul_of_pos_right ha' hd.1
    have hlt : 32768 ^ (a.len - n + 1).toNat * value 32768 (u.val.drop (a.len - n + 1).toNat) <
        32768 ^ (a.len - n + 1).toNat * (32768 ^ (n - 1) * d) := by
      rw [← mul_assoc, ← hpow]
      lia
    exact lt_of_mul_lt_mul_left hlt (by positivity)

/-- **`m_div`** on a divisor of at least two digits that is not longer than the dividend. -/
theorem m_div_long (ha : Canon a) (hb : Canon b) (hb1 : 1 < b.len) (hle : b.len ≤ a.len) :
    ∃ q r, m_div a b = some (q, r) ∧ Quotient a b q r := by
  have hlb := hb.toValid.length_mag
  have hbn := num_of_nonneg (a := b) (by lia)
  -- the top digit of the divisor
  obtain ⟨bl, top, hbl⟩ : ∃ bl top, b.mag = bl ++ [top] := by
    rcases eq_nil_or_concat b.mag with hnil | ⟨bl, top, h⟩
    · rw [hnil] at hlb
      simp at hlb
      lia
    · exact ⟨bl, top, by rw [h, concat_eq_append]⟩
  have hbll : bl.length = b.len.toNat - 1 := by
    rw [hbl, length_append, length_singleton] at hlb
    lia
  have hdb := hb.digits
  rw [hbl] at hdb
  have htop1 := (digits_append.mp hdb).2 top (by simp)
  have htop0 : top ≠ 0 := by
    have := hb.top
    rw [hbl, List.getLast?_append] at this
    simpa using this
  have hget : b.val[b.len.toNat - 1]? = some top := by
    have h1 : b.mag[b.len.toNat - 1]? = some top := by
      rw [hbl, List.getElem?_append_right (by lia), hbll, Nat.sub_self]
      rfl
    rw [← h1]
    unfold mint.mag
    rw [List.getElem?_take_of_lt (by lia)]
  -- the factor
  obtain ⟨hd0, hd1, hdtop⟩ := factor_range (show 0 < top ∧ top < 32768 by lia)
  have hdiv : Int.tdiv 32768 (top + 1) = 32768 / (top + 1) :=
    Int.tdiv_eq_ediv_of_nonneg (by norm_num)
  generalize 32768 / (top + 1) = d at hd0 hd1 hdtop hdiv
  have hpow : (32768 : ℤ) ^ b.len.toNat = 32768 * 32768 ^ bl.length := by
    rw [hbll, ← pow_succ']
    congr 1
    lia
  have hbpos : (32768 : ℤ) ^ (b.len.toNat - 1) ≤ b.num := by
    have := hb.le_value (by lia)
    rw [hbn]
    rwa [show b.len.natAbs = b.len.toNat by lia] at this
  have hblt : b.num * d < 32768 ^ b.len.toNat := by
    have hlow := (digits_append.mp hdb).1.value_lt
    have hnum : b.num < (top + 1) * 32768 ^ bl.length := by
      rw [hbn, hbl, value_append, value_cons, value_nil]
      linarith
    calc b.num * d < (top + 1) * 32768 ^ bl.length * d := mul_lt_mul_of_pos_right hnum hd0
      _ = d * (top + 1) * 32768 ^ bl.length := by ring
      _ ≤ 32768 * 32768 ^ bl.length := mul_le_mul_of_nonneg_right hdtop (by positivity)
      _ = 32768 ^ b.len.toNat := hpow.symm
  obtain ⟨v, vl, v1, v2, hv, htake, hget1, hget2, hvl, hdv, hv1, hvval⟩ :=
    scaled_divisor hb hb1 ⟨hd0, hd1⟩ hblt
  obtain ⟨u, lo, ws, hu, huval, hlo, hws, hdlo, hdws, hwslt, hval⟩ :=
    scaled_dividend (n := b.len.toNat) ha (by lia) (by lia) ⟨hd0, hd1⟩
  have hvlen : (vl ++ [v2, v1]).length = b.len.toNat := by
    rw [length_append]
    exact hvl
  -- the digits
  have hwv : value 32768 ws < value 32768 (vl ++ [v2, v1]) := by
    rw [hvval]
    have : 32768 ^ (b.len.toNat - 1) * d ≤ b.num * d := mul_le_mul_of_nonneg_right hbpos hd0.le
    lia
  obtain ⟨qs, cs, rest', hrun, hqlen, hqs, hclen, hcs, hclt, hquot⟩ :=
    divloop_spec hdv rfl hv1 _ [] hlo (hws.trans hvlen.symm) hdlo hdws hwv
  rw [append_nil] at hrun
  rw [hval, hvval] at hquot
  rw [hvval] at hclt
  -- the remainder
  have hmagx : (⟨b.len.toNat, cs ++ rest'⟩ : mint).mag = cs := by
    unfold mint.mag
    rw [Int.natAbs_natCast, List.take_left' (hclen.trans hvlen)]
  have hvx : Valid ⟨b.len.toNat, cs ++ rest'⟩ := by
    refine ⟨?_, by rw [hmagx]; exact hcs⟩
    show (b.len.toNat : ℤ).natAbs ≤ (cs ++ rest').length
    rw [length_append, hclen, hvlen]
    lia
  obtain ⟨hcx, hnx, hx0⟩ := mcan_spec hvx (by show (0 : ℤ) ≤ b.len.toNat; lia)
  have hnx0 : (⟨b.len.toNat, cs ++ rest'⟩ : mint).num = value 32768 cs := by
    rw [num_of_nonneg (by show (0 : ℤ) ≤ b.len.toNat; lia), hmagx]
  rw [hnx0] at hnx
  obtain ⟨w, r, hsdiv, hw, hw0, hr, hwval⟩ := sdiv_spec hcx hx0 ⟨hd0, hd1⟩
  rw [hnx] at hwval
  -- it is a multiple of the factor
  have hprod : d * (a.num - value 32768 qs * b.num - w.num) = r :=
    by linear_combination hquot + hwval
  have hr0 : r = 0 := by
    have hmod : r % d = 0 := by rw [← hprod]; exact Int.mul_emod_right _ _
    rw [Int.emod_eq_of_lt hr.1 hr.2] at hmod
    exact hmod
  have hnum : a.num = value 32768 qs * b.num + w.num := by
    rw [hr0] at hprod
    have := (mul_eq_zero.mp hprod).resolve_left hd0.ne'
    linarith
  have hwlt : w.num < b.num := by
    rw [hwval, hr0, add_zero, mul_comm b.num d] at hclt
    exact lt_of_mul_lt_mul_left hclt hd0.le
  -- the quotient
  have hqlen' : (qs.length : ℤ) = a.len - b.len.toNat + 1 := by lia
  have hbig : 2 ≤ qs.length → 32768 ^ (qs.length - 2) ≤ value 32768 qs := by
    intro h2
    have hage := ha.le_value (by lia)
    rw [← num_of_nonneg (by lia)] at hage
    have hblt' := hb.digits.value_lt
    rw [hlb, ← hbn] at hblt'
    have hq0 := hqs.value_nonneg
    have hpow' : (32768 : ℤ) ^ (a.len.natAbs - 1) =
        32768 ^ (qs.length - 2) * 32768 ^ b.len.natAbs := by
      rw [← pow_add]
      congr 1
      lia
    have hlt : 32768 ^ (qs.length - 2) * (32768 : ℤ) ^ b.len.natAbs <
        (value 32768 qs + 1) * 32768 ^ b.len.natAbs := by
      calc 32768 ^ (qs.length - 2) * (32768 : ℤ) ^ b.len.natAbs ≤ a.num := hpow' ▸ hage
        _ < (value 32768 qs + 1) * b.num := by linarith
        _ ≤ (value 32768 qs + 1) * 32768 ^ b.len.natAbs :=
            mul_le_mul_of_nonneg_left hblt'.le (by lia)
    have := lt_of_mul_lt_mul_right hlt (by positivity)
    lia
  obtain ⟨hcanon, hqnum, hq0⟩ := drop_zero hqs hbig rfl
  refine ⟨_, w, ?_, ⟨hcanon, hw⟩, ⟨hq0, hw0⟩, by rw [hqnum]; exact hnum, hwlt⟩
  obtain ⟨hx, -⟩ := canon_one ⟨hd0, hd1⟩
  have hidx : (a.len - b.len.toNat + 1 - 1).toNat = qs.length - 1 := by lia
  unfold m_div
  rw [if_neg (by lia), if_neg (by lia), if_neg (by lia)]
  simp only [hget, bind_eq_bind, bind_some]
  rw [if_neg (by lia), hdiv, short_of (by lia), bind_some, mcan_canon ha, mcan_canon hb,
    mcan_canon hx, hu, bind_some, hv, bind_some, hget1, bind_some, hget2,
    bind_some, htake, huval, hrun]
  simp only [bind_some]
  rw [hsdiv, bind_some, hidx, hqlen']

/-- **`m_div`** divides magnitudes. -/
theorem m_div_spec (ha : Canon a) (hb : Canon b) (ha0 : 0 ≤ a.len) (hb0 : 0 < b.len) :
    ∃ q r, m_div a b = some (q, r) ∧ Quotient a b q r := by
  by_cases hb1 : b.len = 1
  · exact m_div_one ha hb ha0 hb1
  · by_cases hlt : a.len < b.len
    · exact m_div_short ha hb ha0 (by omega) hlt
    · exact m_div_long ha hb (by omega) (by omega)

/-! ## mdiv -/

/-- The sign that `mdiv` gives to both results. -/
def sign (a b : mint) : ℤ := (if a.len < 0 then -1 else 1) * (if b.len < 0 then -1 else 1)

/-- A copy without its sign. -/
theorem copy_abs (ha : Canon a) : Canon ⟨(a.len.natAbs : ℤ), a.mag⟩ ∧
    (⟨(a.len.natAbs : ℤ), a.mag⟩ : mint).num = |a.num| := by
  by_cases h0 : a.len < 0
  · obtain ⟨h1, h2⟩ := copy_neg ha
    have hlen : (a.len.natAbs : ℤ) = -a.len := by omega
    rw [hlen, h2, abs_of_neg (ha.num_neg.mpr h0)]
    exact ⟨h1, rfl⟩
  · have hlen : (a.len.natAbs : ℤ) = a.len := by omega
    have hnn : 0 ≤ a.num := by
      have := ha.num_neg
      omega
    rw [hlen, ha.toValid.num_move, abs_of_nonneg hnn]
    exact ⟨ha.copy, rfl⟩

/-- **`mdiv`** divides the magnitudes, and gives both results the sign of the quotient. -/
theorem mdiv_spec (ha : Canon a) (hb : Canon b) (hb0 : b.num ≠ 0) :
    ∃ q r x y, mdiv a b = some (q, r) ∧ Canon q ∧ Canon r ∧ |a.num| = x * |b.num| + y ∧
      (0 ≤ y ∧ y < |b.num|) ∧ q.num = sign a b * x ∧ r.num = sign a b * y := by
  obtain ⟨hca, hna⟩ := copy_abs ha
  obtain ⟨hcb, hnb⟩ := copy_abs hb
  have hblen : b.len ≠ 0 := fun h => hb0 (by
    rw [num_of_nonneg h.ge, hb.value_eq_zero.mpr h])
  obtain ⟨q, r, hrun, hq⟩ := m_div_spec hca hcb (by show (0 : ℤ) ≤ a.len.natAbs; omega)
    (by show (0 : ℤ) < b.len.natAbs; omega)
  have hr0 : 0 ≤ r.num := by
    rw [num_of_nonneg hq.len.2]
    exact hq.canon.2.digits.value_nonneg
  have hnum := hq.num
  have hlt := hq.lt
  rw [hna, hnb] at hnum
  rw [hnb] at hlt
  have hsign : sign a b = 1 ∨ sign a b = -1 := by
    unfold sign
    split_ifs <;> simp
  have hmdiv : mdiv a b = if sign a b = -1 then some (q.neg, r.neg) else some (q, r) := by
    unfold mdiv
    rw [ha.toValid.move, hb.toValid.move]
    simp only [bind_eq_bind, bind_some]
    rw [hrun]
    rfl
  rcases hsign with hs | hs
  · refine ⟨q, r, q.num, r.num, ?_, hq.canon.1, hq.canon.2, hnum, ⟨hr0, hlt⟩, ?_, ?_⟩
    · rw [hmdiv, if_neg (by omega)]
    · rw [hs, one_mul]
    · rw [hs, one_mul]
  · refine ⟨q.neg, r.neg, q.num, r.num, ?_, hq.canon.1.neg, hq.canon.2.neg, hnum,
      ⟨hr0, hlt⟩, ?_, ?_⟩
    · rw [hmdiv, if_pos hs]
    · rw [hq.canon.1.neg_num, hs]
      ring
    · rw [hq.canon.2.neg_num, hs]
      ring

namespace Objs

variable {s : Objs}

/-- `mdiv` leaves the quotient and a remainder smaller than the divisor. -/
structure Divides (s : Objs) (a b q r : ℕ) (s' : Objs) : Prop where
  canon : Canon (s' q) ∧ Canon (s' r)
  num : (s a).num = (s' q).num * (s b).num + (s' r).num
  lt : |(s' r).num| < |(s b).num|
  others : ∀ p, p ≠ q → p ≠ r → s' p = s p

/-- **`mdiv` divides** exactly when the divisor is positive or divides the dividend; it
always ends, within the variables it uses, with two canonical numbers. -/
theorem mdiv_divides_iff (s : Objs) (a b q r : ℕ) (hqr : q ≠ r) (ha : Canon (s a))
    (hb : Canon (s b)) (hb0 : (s b).num ≠ 0) :
    (∃ s', s.mdiv a b q r = some s' ∧ Divides s a b q r s') ↔
      0 < (s b).num ∨ (s b).num ∣ (s a).num := by
  obtain ⟨mq, mr, x, y, hrun, hcq, hcr, habs, hy, hqn, hrn⟩ := mdiv_spec ha hb hb0
  have hmdiv : s.mdiv a b q r = some (update (update s q mq) r mr) := by
    unfold Objs.mdiv
    rw [hrun]
    rfl
  have hsq : update (update s q mq) r mr q = mq := by
    rw [update_of_ne hqr, update_self]
  have hsr : update (update s q mq) r mr r = mr := update_self ..
  have hsign : sign (s a) (s b) = (if (s a).num < 0 then -1 else 1) *
      (if (s b).num < 0 then -1 else 1) := by
    unfold sign
    simp only [ha.num_neg, hb.num_neg]
  -- what is left of the equation, by the signs
  have heq : (s a).num = mq.num * (s b).num + mr.num ↔ 0 < (s b).num ∨ y = 0 := by
    rw [hqn, hrn, hsign]
    by_cases ha0 : (s a).num < 0
    · rw [abs_of_neg ha0] at habs
      by_cases hb1 : (s b).num < 0
      · rw [abs_of_neg hb1] at habs
        rw [if_pos ha0, if_pos hb1]
        constructor
        · intro h
          right
          linarith
        · intro h
          have hy0 : y = 0 := by omega
          linarith
      · rw [abs_of_nonneg (by omega)] at habs
        rw [if_pos ha0, if_neg hb1]
        exact ⟨fun _ => Or.inl (by omega), fun _ => by linarith⟩
    · rw [abs_of_nonneg (by omega)] at habs
      by_cases hb1 : (s b).num < 0
      · rw [abs_of_neg hb1] at habs
        rw [if_neg ha0, if_pos hb1]
        constructor
        · intro h
          right
          linarith
        · intro h
          have hy0 : y = 0 := by omega
          linarith
      · rw [abs_of_nonneg (by omega)] at habs
        rw [if_neg ha0, if_neg hb1]
        exact ⟨fun _ => Or.inl (by omega), fun _ => by linarith⟩
  -- a remainder of zero is a divisor
  have hdvd : y = 0 ↔ (s b).num ∣ (s a).num := by
    rw [← abs_dvd_abs]
    constructor
    · intro h0
      exact ⟨x, by rw [habs, h0]; ring⟩
    · rintro h
      have hyd : |(s b).num| ∣ y := (Int.dvd_add_right (Dvd.intro_left x rfl)).mp (habs ▸ h)
      exact Int.eq_zero_of_dvd_of_nonneg_of_lt hy.1 hy.2 hyd
  rw [← hdvd, ← heq]
  constructor
  · rintro ⟨s', hs', hdiv⟩
    rw [hmdiv] at hs'
    obtain rfl := Option.some.inj hs'
    have hnum := hdiv.num
    rw [hsq, hsr] at hnum
    exact hnum
  · intro hnum
    refine ⟨_, hmdiv, ⟨?_, ?_, ?_, fun p hp hp' => ?_⟩⟩
    · rw [hsq, hsr]
      exact ⟨hcq, hcr⟩
    · rw [hsq, hsr]
      exact hnum
    · have habs1 : |sign (s a) (s b)| = 1 := by
        unfold sign
        split_ifs <;> simp
      rw [hsr, hrn, abs_mul, habs1, one_mul, abs_of_nonneg hy.1]
      exact hy.2
    · rw [update_of_ne hp', update_of_ne hp]

/-- Minus seven by two, over both operands. -/
theorem mdiv_minus_seven_by_two :
    ∃ s', (two ⟨-1, [7]⟩ ⟨1, [2]⟩).mdiv 0 1 0 1 = some s' ∧
      Divides (two ⟨-1, [7]⟩ ⟨1, [2]⟩) 0 1 0 1 s' :=
  (mdiv_divides_iff (two ⟨-1, [7]⟩ ⟨1, [2]⟩) 0 1 0 1 (by decide)
    ⟨⟨by decide, by unfold Radix.Digits; decide⟩, by decide⟩
    ⟨⟨by decide, by unfold Radix.Digits; decide⟩, by decide⟩ (by decide)).mpr (by decide)

/-- Seven by minus two gives minus three, and minus one. -/
theorem mdiv_seven_by_minus_two :
    Canon (two ⟨1, [7]⟩ ⟨-1, [2]⟩ 0) ∧ Canon (two ⟨1, [7]⟩ ⟨-1, [2]⟩ 1) ∧
      (two ⟨1, [7]⟩ ⟨-1, [2]⟩ 1).num ≠ 0 ∧
      ¬ ∃ s', (two ⟨1, [7]⟩ ⟨-1, [2]⟩).mdiv 0 1 2 3 = some s' ∧
        Divides (two ⟨1, [7]⟩ ⟨-1, [2]⟩) 0 1 2 3 s' := by
  refine ⟨⟨⟨by decide, by unfold Radix.Digits; decide⟩, by decide⟩,
    ⟨⟨by decide, by unfold Radix.Digits; decide⟩, by decide⟩, by decide, ?_⟩
  rintro ⟨s', hrun, hdiv⟩
  have hval : ((two ⟨1, [7]⟩ ⟨-1, [2]⟩).mdiv 0 1 2 3).map (fun s => (s 2, s 3)) =
      some (⟨-1, [3]⟩, ⟨-1, [1]⟩) := by
    decide +kernel
  rw [hrun] at hval
  have h2 : s' 2 = ⟨-1, [3]⟩ := congrArg Prod.fst (Option.some.inj hval)
  have h3 : s' 3 = ⟨-1, [1]⟩ := congrArg Prod.snd (Option.some.inj hval)
  have hnum := hdiv.num
  rw [h2, h3] at hnum
  revert hnum
  decide

end Objs

end Mp
