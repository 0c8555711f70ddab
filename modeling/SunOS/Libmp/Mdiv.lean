/-
# Division (`mdiv.c`, and `sdiv` of `mout.c`)

`mdiv` divides magnitudes and sets the signs afterwards.  `m_div` scales both operands so
that the top digit of the divisor is large, estimates each digit of the quotient from the
three top digits of what is left (`m_trq`), subtracts (`m_dsb`), and adds the divisor back
where the estimate was one too high.  All arithmetic is checked as in `Mint`.
-/
import SunOS.Libmp.Mint
import SunOS.Libmp.Mult
import SunOS.Lib.Radix

namespace Mp

open List

/-! ## sdiv -/

/-- The loop of `s_div` over the digits, from the top one down: quotient digits and `x`. -/
def s_divloop (n : ℤ) : List ℤ → Option (List ℤ × ℤ)
  | [] => some ([], 0)
  | a :: as => do
      let (qs, x) ← s_divloop n as
      let x ← long (x * 32768)
      let x ← long (x + a)
      if n = 0 then none
      else
        let d ← short (x.tdiv n)
        some (d :: qs, x.tmod n)

/-- `s_div(a,n,q,r)`: the quotient and `*r`. -/
def s_div (a : mint) (n : ℤ) : Option (mint × ℤ) := do
  let (qs, x) ← s_divloop n (a.val.take a.len.toNat)
  let r ← short x
  some (⟨if a.len ≠ 0 ∧ qs[(a.len - 1).toNat]? = some 0 then a.len - 1 else a.len, qs⟩, r)

/-- `sdiv(a,n,q,r)`: the quotient and `*r`. -/
def sdiv (a : mint) (n : ℤ) : Option (mint × ℤ) := do
  let sign := (if n < 0 then -1 else 1) * (if a.len < 0 then -1 else 1)
  let (y, r) ← s_div ⟨a.len.natAbs, a.val⟩ n.natAbs
  let r ← short (r * sign)
  some (⟨sign * y.len, y.val⟩, r)

/-! ## m_trq -/

/-- The loop of `m_trq`; `fuel` bounds how often `d` is lowered. -/
def trqloop (v1 v2 c1 u3 : ℤ) : ℕ → ℤ → Option ℤ
  | 0, _ => none
  | fuel + 1, d => do
      let p ← long (v1 * d)
      let x1 ← long (c1 - p)
      let x1 ← long (x1 * 32768)
      let x1 ← long (x1 + u3)
      let p ← long (v2 * d)
      let x1 ← long (x1 - p)
      let d ← short (d - 1)
      if x1 < 0 then trqloop v1 v2 c1 u3 fuel d else some (d + 1)

/-- `m_trq(v1,v2,u1,u2,u3)`; it ends at 0 at the latest. -/
def m_trq (v1 v2 u1 u2 u3 : ℤ) : Option ℤ := do
  let c1 ← long (u1 * 32768 + u2)
  if u1 = v1 then trqloop v1 v2 c1 u3 (32767 + 1) 32767
  else if v1 = 0 then none
  else
    let d ← short (c1.tdiv v1)
    trqloop v1 v2 c1 u3 (d.toNat + 1) d

/-! ## m_dsb -/

/-- The first loop of `m_dsb` and the step after it: the cells, and `borrow >> fifteen`. -/
def dsbloop (qx : ℤ) : ℤ → List ℤ → List ℤ → Option (List ℤ × ℤ)
  | borrow, a :: as, b :: bs => do
      let p ← long (a * qx)
      let p ← long (p - b)
      let borrow ← long (borrow - p)
      let (cs, borrow') ← dsbloop qx (high borrow) as bs
      some (low borrow :: cs, borrow')
  | borrow, [], b :: bs => do
      let borrow ← long (borrow + b)
      some (low borrow :: bs, high borrow)
  | _, _, [] => none

/-- The second loop of `m_dsb`; the cell above the digits of `a` stays. -/
def addback : ℤ → List ℤ → List ℤ → Option (List ℤ)
  | borrow, a :: as, b :: bs => do
      let p ← long (a + b)
      let borrow ← long (borrow + p)
      let cs ← addback (high borrow) as bs
      some (low borrow :: cs)
  | _, [], bs => some bs
  | _, _ :: _, [] => none

/-- `m_dsb(qx,n,a,b)` on the `n` digits `as` and the cells from `b` on. -/
def m_dsb (qx : ℤ) (as bs : List ℤ) : Option (List ℤ × Bool) := do
  let (cs, borrow) ← dsbloop qx 0 as bs
  if borrow = 0 then some (cs, false)
  else
    let cs ← addback 0 as cs
    some (cs, true)

/-! ## m_div -/

/-- The loop of `m_div` for the digits of the quotient below `j`; `vs` are the `n` digits of
`v`, and `u` the cells of `u`. -/
def divloop (vs : List ℤ) (v1 v2 : ℤ) : ℕ → List ℤ → Option (List ℤ × List ℤ)
  | 0, u => some ([], u)
  | j + 1, u => do
      let u1 ← u[j + vs.length]?
      let u2 ← u[j + vs.length - 1]?
      let u3 ← u[j + vs.length - 2]?
      let qq ← m_trq v1 v2 u1 u2 u3
      let qx ← short qq
      let (cs, back) ← m_dsb qx vs (u.drop j)
      let qj ← short (if back then qq - 1 else qq)
      let (qs, u) ← divloop vs v1 v2 j (u.take j ++ cs)
      some (qs ++ [qj], u)

/-- `m_div(a,b,q,r)`: the quotient and the remainder. -/
def m_div (a b : mint) : Option (mint × mint) :=
  if b.len = 0 then none
  else if b.len = 1 then do
    let n ← b.val[0]?
    let (q, r) ← sdiv a n
    some (q, if r = 0 then ⟨0, []⟩ else ⟨1, [r]⟩)
  else if a.len < b.len then do
    let r ← move a
    some (⟨0, []⟩, r)
  else do
    let n := b.len.toNat
    let top ← b.val[n - 1]?
    if top + 1 = 0 then none
    else
      let d ← short (Int.tdiv 32768 (top + 1))
      let a := mcan a
      let x := mcan ⟨1, [d]⟩
      let u ← mult a x
      let b := mcan b
      let v ← mult b x
      let v1 ← v.val[n - 1]?
      let v2 ← v.val[n - 2]?
      let (qval, uval) ← divloop (v.val.take n) v1 v2 (a.len - n + 1).toNat u.val
      let (w, _) ← sdiv (mcan ⟨n, uval⟩) d
      let qq := a.len - n + 1
      some (⟨if 0 < qq ∧ qval[(qq - 1).toNat]? = some 0 then qq - 1 else qq, qval⟩, w)

/-! ## mdiv -/

/-- `mdiv(a,b,q,r)`: the quotient and the remainder. -/
def mdiv (a b : mint) : Option (mint × mint) := do
  let x ← move a
  let y ← move b
  let sign := (if x.len < 0 then -1 else 1) * (if y.len < 0 then -1 else 1)
  let (q, r) ← m_div ⟨x.len.natAbs, x.val⟩ ⟨y.len.natAbs, y.val⟩
  if sign = -1 then some ({ q with len := -q.len }, { r with len := -r.len }) else some (q, r)

/-- `mdiv(a,b,q,r)` on the objects at `a`, `b`, `q` and `r`. -/
def Objs.mdiv (s : Objs) (a b q r : ℕ) : Option Objs :=
  (Mp.mdiv (s a) (s b)).map fun (x, y) => Function.update (Function.update s q x) r y

end Mp

/-! # The steps of a division

What `sdiv`, `m_trq` and `m_dsb` leave.  `m_dsb` lets its last borrow show in the cell above
the digits, and adding the divisor back does not touch that cell again.
-/

namespace Mp

open List
open Option (bind_eq_bind bind_some)
open Radix

variable {a : mint} {as bs qs vs ws : List ℤ} {n d q t x borrow : ℤ}

/-! ## A quotient with one zero too many -/

/-- A quotient loses one leading zero at most. -/
theorem drop_zero (hqs : Digits 32768 qs)
    (h : 2 ≤ qs.length → 32768 ^ (qs.length - 2) ≤ value 32768 qs) {len : ℤ}
    (hlen : len = if 0 < (qs.length : ℤ) ∧ qs[qs.length - 1]? = some 0 then (qs.length : ℤ) - 1
      else qs.length) :
    Canon ⟨len, qs⟩ ∧ (⟨len, qs⟩ : mint).num = value 32768 qs ∧ 0 ≤ len := by
  rcases eq_nil_or_concat qs with rfl | ⟨k, top, rfl⟩
  · have h0 : len = 0 := by simpa using hlen
    subst h0
    exact ⟨⟨⟨Nat.le_refl 0, digits_nil⟩, by simp [mint.mag]⟩, rfl, le_rfl⟩
  · rw [concat_eq_append] at *
    have hget : (k ++ [top])[(k ++ [top]).length - 1]? = some top := by
      rw [length_append, length_singleton, Nat.add_sub_cancel,
        List.getElem?_append_right le_rfl, Nat.sub_self]
      rfl
    rw [hget, length_append, length_singleton] at hlen
    by_cases htop : top = 0
    · subst htop
      rw [if_pos ⟨by omega, rfl⟩] at hlen
      obtain rfl : len = k.length := by omega
      have hmag : (⟨(k.length : ℤ), k ++ [0]⟩ : mint).mag = k := by
        unfold mint.mag
        rw [Int.natAbs_natCast, List.take_left' rfl]
      have hkv : value 32768 (k ++ [0]) = value 32768 k := value_append_zeros (by simp)
      have hdk := (digits_append.mp hqs).1
      refine ⟨⟨⟨?_, ?_⟩, ?_⟩, ?_, by omega⟩
      · show (k.length : ℤ).natAbs ≤ (k ++ [0]).length
        rw [Int.natAbs_natCast, length_append]
        omega
      · rw [hmag]
        exact hdk
      · rw [hmag]
        rcases Nat.eq_zero_or_pos k.length with h0 | h0
        · rw [List.length_eq_zero_iff.mp h0]
          simp
        · rw [length_append, length_singleton] at h
          refine getLast?_ne_zero hdk ?_
          rw [← hkv]
          exact h (by omega)
      · rw [num_of_nonneg (by show (0 : ℤ) ≤ k.length; omega), hmag, hkv]
    · rw [if_neg (fun hc => htop (Option.some.inj hc.2))] at hlen
      have hmag : (⟨len, k ++ [top]⟩ : mint).mag = k ++ [top] := by
        unfold mint.mag
        rw [hlen, Int.natAbs_natCast, take_of_length_le (by simp)]
      refine ⟨⟨⟨?_, ?_⟩, ?_⟩, ?_, by omega⟩
      · show len.natAbs ≤ (k ++ [top]).length
        rw [hlen, Int.natAbs_natCast, length_append, length_singleton]
      · rw [hmag]
        exact hqs
      · rw [hmag, List.getLast?_append]
        simpa using htop
      · rw [num_of_nonneg (by show 0 ≤ len; omega), hmag]

/-! ## sdiv -/

/-- The loop of `s_div` divides. -/
theorem s_divloop_value (has : Digits 32768 as) (hn : 0 < n ∧ n < 32768) :
    ∃ qs x, s_divloop n as = some (qs, x) ∧ qs.length = as.length ∧ Digits 32768 qs ∧
      (0 ≤ x ∧ x < n) ∧ value 32768 as = n * value 32768 qs + x := by
  induction as with
  | nil => exact ⟨[], 0, rfl, rfl, digits_nil, ⟨le_rfl, hn.1⟩, by simp⟩
  | cons a as ih =>
    obtain ⟨ha, has⟩ := digits_cons.mp has
    obtain ⟨qs, x, hrun, hlen, hqs, hx, hval⟩ := ih has
    have hnn : 0 ≤ x * 32768 + a := by lia
    have hdiv := Int.mul_ediv_add_emod (x * 32768 + a) n
    have hq0 : 0 ≤ (x * 32768 + a) / n := Int.ediv_nonneg hnn hn.1.le
    have hq1 : (x * 32768 + a) / n < 32768 := by
      refine Int.ediv_lt_of_lt_mul hn.1 ?_
      lia
    unfold s_divloop
    rw [hrun]
    simp only [bind_eq_bind, bind_some]
    rw [long_of (by lia), bind_some, long_of (by lia), bind_some,
      if_neg (by lia), Int.tdiv_eq_ediv_of_nonneg hnn, Int.tmod_eq_emod_of_nonneg hnn,
      short_of (by lia), bind_some]
    refine ⟨_, _, rfl, by simp [hlen], digits_cons.mpr ⟨⟨hq0, hq1⟩, hqs⟩,
      ⟨Int.emod_nonneg _ hn.1.ne', Int.emod_lt_of_pos _ hn.1⟩, ?_⟩
    rw [value_cons, value_cons, hval]
    linear_combination -hdiv

/-- **`sdiv`** divides a canonical number that is not negative. -/
theorem sdiv_spec (ha : Canon a) (ha0 : 0 ≤ a.len) (hn : 0 < n ∧ n < 32768) :
    ∃ q r, sdiv a n = some (q, r) ∧ Canon q ∧ 0 ≤ q.len ∧ (0 ≤ r ∧ r < n) ∧
      a.num = n * q.num + r := by
  obtain ⟨qs, x, hrun, hlen, hqs, hx, hval⟩ := s_divloop_value ha.digits hn
  rw [ha.toValid.length_mag] at hlen
  have hbig : 2 ≤ qs.length → 32768 ^ (qs.length - 2) ≤ value 32768 qs := by
    intro h2
    have hle := ha.le_value (by lia)
    have hpow : (32768 : ℤ) ^ (a.len.natAbs - 1) = 32768 * 32768 ^ (qs.length - 2) := by
      rw [← pow_succ']
      congr 1
      lia
    have hlt : n * 32768 ^ (qs.length - 2) < n * (value 32768 qs + 1) := by
      have hmul : n * (32768 : ℤ) ^ (qs.length - 2) ≤ 32768 * 32768 ^ (qs.length - 2) :=
        mul_le_mul_of_nonneg_right (by lia) (by positivity)
      linarith
    have := lt_of_mul_lt_mul_left hlt hn.1.le
    lia
  obtain ⟨hcanon, hnum, hq0⟩ := drop_zero hqs hbig rfl
  refine ⟨_, x, ?_, hcanon, hq0, hx, ?_⟩
  · have hmag : a.val.take ((a.len.natAbs : ℤ)).toNat = a.mag := by
      rw [Int.toNat_natCast]
      rfl
    have hidx : ((a.len.natAbs : ℤ) - 1).toNat = qs.length - 1 := by lia
    have hcond : ((a.len.natAbs : ℤ) ≠ 0 ∧ qs[qs.length - 1]? = some 0) ↔
        (0 < (qs.length : ℤ) ∧ qs[qs.length - 1]? = some 0) := by
      rw [hlen]
      constructor <;> exact fun h => ⟨by lia, h.2⟩
    have hnabs : ((n.natAbs : ℤ)) = n := by lia
    have hn0 : ¬ n < 0 := by lia
    have hlen0 : ¬ a.len < 0 := by lia
    unfold sdiv s_div
    simp only [hmag, hnabs, hrun, hidx, hcond, if_neg hn0, if_neg hlen0, bind_eq_bind,
      bind_some, mul_one, one_mul]
    rw [short_of (show -32768 ≤ x ∧ x ≤ 32767 by lia)]
    simp only [bind_some, hlen]
    rw [short_of (show -32768 ≤ x ∧ x ≤ 32767 by lia), bind_some]
  · rw [hnum, num_of_nonneg ha0, hval]

/-! ## m_trq -/

variable {v1 v2 u1 u2 u3 c1 : ℤ}

/-- The loop of `m_trq` stops at a digit that fits, and passes none that does. -/
theorem trqloop_spec (hv1 : 0 < v1 ∧ v1 < 32768) (hv2 : 0 ≤ v2 ∧ v2 < 32768)
    (hu3 : 0 ≤ u3 ∧ u3 < 32768) (hq0 : 0 ≤ q)
    (hq : q * (v1 * 32768 + v2) ≤ c1 * 32768 + u3) :
    ∀ (fuel : ℕ) (d : ℤ), d < fuel → q ≤ d → d < 32768 → 0 ≤ c1 - v1 * d → c1 - v1 * d ≤ 65534 →
      ∃ d', trqloop v1 v2 c1 u3 fuel d = some d' ∧ q ≤ d' ∧ d' < 32768 ∧
        d' * (v1 * 32768 + v2) ≤ c1 * 32768 + u3 := by
  intro fuel
  induction fuel with
  | zero =>
    intro d hd hqd
    lia
  | succ fuel ih =>
    intro d hd hqd hd1 hr0 hr1
    have hp1 := mul_range (x := v1) (y := d) (by lia) (by lia)
    have hp2 := mul_range (x := v2) (y := d) (by lia) (by lia)
    unfold trqloop
    rw [long_of (by lia)]
    simp only [bind_eq_bind, bind_some]
    rw [long_of (by lia), bind_some, long_of (by lia), bind_some,
      long_of (by lia), bind_some, long_of (by lia), bind_some,
      long_of (by lia), bind_some, short_of (by lia), bind_some]
    by_cases hneg : (c1 - v1 * d) * 32768 + u3 - v2 * d < 0
    · rw [if_pos hneg]
      -- no digit from `d` on fits
      have hlt : q < d := by
        by_contra hge
        obtain rfl : q = d := by lia
        lia
      exact ih (d - 1) (by push_cast at hd; lia) (by lia) (by lia) (by lia) (by lia)
    · rw [if_neg hneg]
      exact ⟨d - 1 + 1, rfl, by lia, by lia, by rw [sub_add_cancel]; lia⟩

/-- **`m_trq`** finds a digit that fits the top digits and is not too low. -/
theorem m_trq_spec (hv1 : 0 < v1 ∧ v1 < 32768) (hv2 : 0 ≤ v2 ∧ v2 < 32768)
    (hu1 : 0 ≤ u1 ∧ u1 ≤ v1) (hu2 : 0 ≤ u2 ∧ u2 < 32768) (hu3 : 0 ≤ u3 ∧ u3 < 32768)
    (hq0 : 0 ≤ q) (hq1 : q < 32768)
    (hq : q * (v1 * 32768 + v2) ≤ (u1 * 32768 + u2) * 32768 + u3) :
    ∃ d, m_trq v1 v2 u1 u2 u3 = some d ∧ q ≤ d ∧ d < 32768 ∧
      d * (v1 * 32768 + v2) ≤ (u1 * 32768 + u2) * 32768 + u3 := by
  unfold m_trq
  rw [long_of (by lia)]
  simp only [bind_eq_bind, bind_some]
  by_cases heq : u1 = v1
  · rw [if_pos heq]
    exact trqloop_spec hv1 hv2 hu3 hq0 hq _ 32767 (by norm_num) (by lia) (by lia)
      (by lia) (by lia)
  · rw [if_neg heq, if_neg (by lia)]
    have hnn : 0 ≤ u1 * 32768 + u2 := by lia
    have hdiv := Int.mul_ediv_add_emod (u1 * 32768 + u2) v1
    have hm0 := Int.emod_nonneg (u1 * 32768 + u2) hv1.1.ne'
    have hm1 := Int.emod_lt_of_pos (u1 * 32768 + u2) hv1.1
    have hd1 : (u1 * 32768 + u2) / v1 < 32768 := by
      refine Int.ediv_lt_of_lt_mul hv1.1 ?_
      lia
    -- the quotient does not pass the first try
    have hqd : q ≤ (u1 * 32768 + u2) / v1 := by
      rw [Int.le_ediv_iff_mul_le hv1.1]
      have hqv2 : 0 ≤ q * v2 := mul_nonneg hq0 hv2.1
      lia
    rw [Int.tdiv_eq_ediv_of_nonneg hnn, short_of (by lia), bind_some]
    exact trqloop_spec hv1 hv2 hu3 hq0 hq _ _ (by lia) hqd hd1 (by lia) (by lia)

/-! ## m_dsb -/

/-- The first loop of `m_dsb` subtracts a multiple. -/
theorem dsbloop_value (rest : List ℤ) (has : Digits 32768 as) (hws : Digits 32768 ws)
    (hlen : ws.length = as.length) (hq : 0 ≤ q ∧ q < 32768) (ht : 0 ≤ t ∧ t < 32768)
    (hb : -32768 ≤ borrow ∧ borrow ≤ 0) :
    ∃ cs top, dsbloop q borrow as (ws ++ t :: rest) = some (cs ++ low top :: rest, high top) ∧
      cs.length = as.length ∧ Digits 32768 cs ∧
      value 32768 cs + 32768 ^ as.length * top =
        value 32768 ws + 32768 ^ as.length * t - q * value 32768 as + borrow := by
  induction as generalizing ws borrow with
  | nil =>
    obtain rfl := List.length_eq_zero_iff.mp hlen
    refine ⟨[], borrow + t, ?_, rfl, digits_nil, ?_⟩
    · unfold dsbloop
      simp only [nil_append]
      rw [long_of (by lia)]
      rfl
    · simp
      ring
  | cons a as ih =>
    cases ws with
    | nil => simp at hlen
    | cons b ws =>
      obtain ⟨ha, has⟩ := digits_cons.mp has
      obtain ⟨hb', hws⟩ := digits_cons.mp hws
      have hp := mul_range ha hq
      have hh : -32768 ≤ high (borrow - (a * q - b)) ∧ high (borrow - (a * q - b)) ≤ 0 := by
        unfold high
        lia
      obtain ⟨cs, top, hrun, hlen', hcs, hval⟩ := ih has hws (by simpa using hlen) hh
      refine ⟨low (borrow - (a * q - b)) :: cs, top, ?_, by simp [hlen'],
        digits_cons.mpr ⟨low_range _, hcs⟩, ?_⟩
      · unfold dsbloop
        simp only [cons_append]
        rw [long_of (by lia)]
        simp only [bind_eq_bind, bind_some]
        rw [long_of (by lia), bind_some, long_of (by lia), bind_some, hrun]
        rfl
      · have hlh := low_add_high (borrow - (a * q - b))
        rw [value_cons, value_cons, value_cons, length_cons, pow_succ]
        linear_combination 32768 * hval + hlh

/-- The second loop adds the divisor, and a carry is lost. -/
theorem addback_value (rest : List ℤ) (has : Digits 32768 as) (hws : Digits 32768 ws)
    (hlen : ws.length = as.length) (hb : 0 ≤ borrow ∧ borrow ≤ 1) :
    ∃ cs carry, addback borrow as (ws ++ rest) = some (cs ++ rest) ∧ cs.length = as.length ∧
      Digits 32768 cs ∧
      value 32768 cs + 32768 ^ as.length * carry = value 32768 ws + value 32768 as + borrow := by
  induction as generalizing ws borrow with
  | nil =>
    obtain rfl := List.length_eq_zero_iff.mp hlen
    refine ⟨[], borrow, ?_, rfl, digits_nil, by simp⟩
    rfl
  | cons a as ih =>
    cases ws with
    | nil => simp at hlen
    | cons b ws =>
      obtain ⟨ha, has⟩ := digits_cons.mp has
      obtain ⟨hb', hws⟩ := digits_cons.mp hws
      have hh : 0 ≤ high (borrow + (a + b)) ∧ high (borrow + (a + b)) ≤ 1 := by
        unfold high
        omega
      obtain ⟨cs, carry, hrun, hlen', hcs, hval⟩ := ih has hws (by simpa using hlen) hh
      refine ⟨low (borrow + (a + b)) :: cs, carry, ?_, by simp [hlen'],
        digits_cons.mpr ⟨low_range _, hcs⟩, ?_⟩
      · unfold addback
        simp only [cons_append]
        rw [long_of (by omega)]
        simp only [bind_eq_bind, bind_some]
        rw [long_of (by omega), bind_some, hrun]
        rfl
      · have hlh := low_add_high (borrow + (a + b))
        rw [value_cons, value_cons, value_cons, length_cons, pow_succ]
        linear_combination 32768 * hval + hlh

/-- A number in one window of `n` digits. -/
theorem window_unique {k : ℕ} {l : List ℤ} (hl : Digits 32768 l) (hk : l.length = k) {x c : ℤ}
    (h : value 32768 l + 32768 ^ k * c = x) (h0 : 0 ≤ x) (h1 : x < 32768 ^ k) :
    c = 0 ∧ value 32768 l = x := by
  have hnn := hl.value_nonneg
  have hlt := hl.value_lt
  rw [hk] at hlt
  have hc : c = 0 := by
    rcases lt_trichotomy c 0 with hc | hc | hc
    · have : (32768 : ℤ) ^ k * c ≤ 32768 ^ k * (-1) :=
        mul_le_mul_of_nonneg_left (by omega) (by positivity)
      omega
    · exact hc
    · have : (32768 : ℤ) ^ k * 1 ≤ 32768 ^ k * c :=
        mul_le_mul_of_nonneg_left (by omega) (by positivity)
      omega
  subst hc
  exact ⟨rfl, by simpa using h⟩

/-- **`m_dsb`** leaves the remainder, and says whether the digit was one too high. -/
theorem m_dsb_spec (rest : List ℤ) (hvs : Digits 32768 vs) (hws : Digits 32768 ws)
    (hlen : ws.length = vs.length) (ht : 0 ≤ t ∧ t < 32768) (hq : 0 ≤ q ∧ q < 32768)
    (hlow : value 32768 ws + 32768 ^ vs.length * t < (q + 1) * value 32768 vs)
    (hhigh : q * value 32768 vs < value 32768 ws + 32768 ^ vs.length * t + value 32768 vs) :
    ∃ cs top back, m_dsb q vs (ws ++ t :: rest) = some (cs ++ top :: rest, back) ∧
      cs.length = vs.length ∧ Digits 32768 cs ∧ value 32768 cs < value 32768 vs ∧
      value 32768 ws + 32768 ^ vs.length * t =
        (if back then q - 1 else q) * value 32768 vs + value 32768 cs := by
  have hV := hvs.value_lt
  obtain ⟨cs, top, hrun, hlen', hcs, hval⟩ := dsbloop_value rest hvs hws hlen hq ht
    (show (-32768 : ℤ) ≤ 0 ∧ (0 : ℤ) ≤ 0 by lia)
  rw [add_zero] at hval
  unfold m_dsb
  rw [hrun]
  simp only [bind_eq_bind, bind_some]
  by_cases h0 : 0 ≤ value 32768 ws + 32768 ^ vs.length * t - q * value 32768 vs
  · obtain ⟨htop, heq⟩ := window_unique hcs hlen' hval h0 (by lia)
    rw [htop, if_pos (by decide)]
    refine ⟨cs, _, false, rfl, hlen', hcs, by lia, ?_⟩
    rw [heq]
    simp
  · -- the digit was one too high: the top cell is -1
    have hm1 : value 32768 cs + 32768 ^ vs.length * (top + 1) =
        value 32768 ws + 32768 ^ vs.length * t - q * value 32768 vs + 32768 ^ vs.length := by
      rw [← hval]
      ring
    obtain ⟨htop, heq⟩ := window_unique hcs hlen' hm1 (by lia) (by lia)
    obtain rfl : top = -1 := by lia
    rw [if_neg (by decide)]
    obtain ⟨cs', carry, hback, hlen'', hcs', hval'⟩ := addback_value
      (low (-1) :: rest) hvs hcs hlen' (show (0 : ℤ) ≤ 0 ∧ (0 : ℤ) ≤ 1 by lia)
    rw [hback, bind_some]
    have hm2 : value 32768 cs' + 32768 ^ vs.length * (carry - 1) =
        value 32768 ws + 32768 ^ vs.length * t - q * value 32768 vs + value 32768 vs := by
      rw [heq] at hval'
      linear_combination hval'
    obtain ⟨-, heq'⟩ := window_unique hcs' hlen'' hm2 (by lia) (by lia)
    refine ⟨cs', _, true, rfl, hlen'', hcs', by lia, ?_⟩
    rw [heq', if_pos rfl]
    ring

end Mp
