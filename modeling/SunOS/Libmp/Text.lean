/-
# Numbers as text (`mtox` and `xtom` of `util.c`, `m_out` and `m_in` of `mout.c`)

`mtox` writes hexadecimal digits from the lowest up and then turns them round; `m_out` fills its
buffer from the end down, with a blank after each ten digits.  Both take the size of the buffer
from the number of digits in radix 32768.  `xtom` and `m_in` read the text with the signed
operations.

With the text come the number of cells that were written and the number of cells that the buffer
has; the memory for it is there.
-/
import SunOS.Libmp.Powers
import Mathlib.Tactic.IntervalCases

namespace Mp

open List
open Option (bind_eq_bind bind_some)
open Radix

variable {a b k m x y : mint} {c : Char} {fuel : ℕ}

/-! ## util.c -/

/-- `itom(n)` -/
def itom (n : ℤ) : Option mint :=
  if 0 < n then (short n).map fun d => ⟨1, [d]⟩
  else if n < 0 then (short (-n)).map fun d => ⟨-1, [d]⟩
  else some ⟨0, []⟩

/-- `xtoi(c)` -/
def xtoi (c : Char) : ℤ :=
  if '0' ≤ c ∧ c ≤ '9' then c.toNat - '0'.toNat
  else if 'a' ≤ c ∧ c ≤ 'f' then c.toNat - 'a'.toNat + 10
  else -1

/-- The loop of `xtom`; the inner `none` is `NULL`. -/
def xtomloop (sixteen : mint) : List Char → mint → Option (Option mint)
  | [], m => some (some m)
  | c :: key, m =>
    let digit := xtoi c
    if digit < 0 then some none
    else do
      let d ← itom digit
      let m ← mul m sixteen
      let m ← madd depth m d
      xtomloop sixteen key m

/-- `xtom(key)` -/
def xtom (key : List Char) : Option (Option mint) := do
  let m ← itom 0
  let sixteen ← itom 16
  xtomloop sixteen key m

/-- `itox(d)`; `d & 15` is the remainder. -/
def itox (d : ℤ) : Char :=
  let d := (d % 16).toNat
  if d < 10 then Char.ofNat ('0'.toNat + d) else Char.ofNat ('a'.toNat - 10 + d)

/-- The loop of `mtox`; `hex` is what is written so far. -/
def mtoxloop : ℕ → mint → List Char → Option (List Char)
  | 0, _, _ => none
  | fuel + 1, m, hex => do
      let (m, r) ← sdiv m 16
      let hex := hex ++ [itox r]
      let m := mcan m
      if (← mcmp m ⟨0, []⟩) ≠ 0 then mtoxloop fuel m hex else some hex

/-- The loop of `mtox` that turns the digits round. -/
def swaploop (hex : List Char) (s p : ℕ) : List Char :=
  if s < p then
    let c := hex.getD p '0'
    swaploop ((hex.set p (hex.getD s '0')).set s c) (s + 1) (p - 1)
  else hex
termination_by p - s

/-- `mtox(key)`: the text, the cells written and the cells of the buffer. -/
def mtox (fuel : ℕ) (key : mint) : Option (List Char × ℕ × ℕ) := do
  let size := key.len.natAbs
  let m ← move key
  let hex ← mtoxloop fuel m []
  some (swaploop hex 0 (hex.length - 1), hex.length + 1, (size * 15 + 3) / 4 + 1)

/-! ## mout.c -/

/-- `r+'0'` -/
def numeral (r : ℤ) : Char := Char.ofNat (r + '0'.toNat).toNat

/-- The inner loop of `m_out`, with `i` rounds left; the text is what follows `bp`. -/
def digitloop (b : ℤ) : ℕ → mint → List Char → Option (mint × List Char)
  | 0, x, bp => some (x, bp)
  | i + 1, x, bp =>
    if 0 < x.len then do
      let (x, r) ← sdiv x b
      digitloop b i x (numeral r :: bp)
    else some (x, bp)

/-- The outer loop of `m_out`. -/
def m_outloop (b : ℤ) : ℕ → mint → List Char → Option (List Char)
  | 0, _, _ => none
  | fuel + 1, x, bp =>
    if 0 < x.len then do
      let (x, bp) ← digitloop b 10 x bp
      m_outloop b fuel x (if 0 < x.len then ' ' :: bp else bp)
    else some bp

/-- `m_out(a,b,f)`: the text, the cells written and the cells of the buffer. -/
def m_out (fuel : ℕ) (a : mint) (b : ℤ) : Option (List Char × ℕ × ℕ) :=
  let xlen := a.len.natAbs
  if xlen = 0 then some (['0', '\n'], 0, 0)
  else do
    let x ← move ⟨xlen, a.val⟩
    let bp ← m_outloop b fuel x []
    let bp := if a.len < 0 then '-' :: bp else bp
    some (bp ++ ['\n'], bp.length + 1, 7 * xlen)

/-- The loop of `m_in`: what it returns, `*a`, what is left of the file, and what goes back, to
the standard input whatever the file is. -/
def m_inloop (b : ℤ) : List Char → ℤ → mint → mint → Option (ℤ × mint × List Char × Option Char)
  | [], _, _, a => some (-1, a, [], none)
  | ['\\'], _, _, a => some (-1, a, [], none)
  | '\\' :: _ :: f, sign, x, a => m_inloop b f sign x a
  | c :: f, sign, x, a =>
    if c = '\t' ∨ c = '\n' then some (0, { a with len := a.len * sign }, f, none)
    else if c = ' ' then m_inloop b f sign x a
    else if c = '-' then m_inloop b f (-sign) x a
    else if '0' ≤ c ∧ c ≤ '9' then do
      let y : mint := ⟨1, [c.toNat - '0'.toNat]⟩
      let a ← mul x ⟨1, [b]⟩
      let a ← madd depth a y
      let x ← move a
      m_inloop b f sign x a
    else some (0, { a with len := a.len * sign }, f, some c)

/-- `m_in(a,b,f)` -/
def m_in (b : ℤ) (f : List Char) : Option (ℤ × mint × List Char × Option Char) :=
  m_inloop b f 1 ⟨0, []⟩ ⟨0, []⟩

/-! ## What a text shows -/

variable {n : ℤ}

/-- The number that a text shows after `v`, blanks aside. -/
def reads (b v : ℤ) (c : Char) : ℤ := if c = ' ' then v else v * b + xtoi c

theorem reads_of_ne (h : c ≠ ' ') (b v : ℤ) : reads b v c = v * b + xtoi c := if_neg h

/-- The characters that `mtox` writes. -/
def HexDigit (c : Char) : Prop := (0 ≤ xtoi c ∧ xtoi c < 16) ∧ c ≠ ' '

theorem xtoi_itox {r : ℤ} (h : 0 ≤ r ∧ r < 16) : xtoi (itox r) = r ∧ HexDigit (itox r) := by
  have hval : xtoi (itox r) = r ∧ itox r ≠ ' ' := by
    obtain ⟨h0, h1⟩ := h
    interval_cases r <;> decide +kernel
  refine ⟨hval.1, ?_, hval.2⟩
  rw [hval.1]
  exact h

/-- The characters of a number: digits, and blanks between them. -/
def Shown (c : Char) : Prop := c = ' ' ∨ ('0' ≤ c ∧ c ≤ '9')

theorem reads_numeral {r : ℤ} (h : 0 ≤ r ∧ r < 10) :
    Shown (numeral r) ∧ ∀ b v, reads b v (numeral r) = v * b + r := by
  obtain ⟨h0, h1⟩ := h
  have hval : ('0' ≤ numeral r ∧ numeral r ≤ '9') ∧ xtoi (numeral r) = r ∧ numeral r ≠ ' ' := by
    interval_cases r <;> decide +kernel
  refine ⟨Or.inr hval.1, fun b v => ?_⟩
  rw [reads_of_ne hval.2.2, hval.2.1]

/-- A division by the base takes the last digit off. -/
theorem sdiv_digit (hx : Canon x) (hx0 : 0 ≤ x.num) (hn : 0 < n ∧ n < 32768) :
    ∃ q r, sdiv x n = some (q, r) ∧ Canon q ∧ (0 ≤ r ∧ r < n) ∧ q.num = x.num / n ∧
      q.num * n + r = x.num := by
  obtain ⟨q, r, hrun, hq, -, hr, hval⟩ := sdiv_spec hx (hx.len_nonneg_iff.mpr hx0) hn
  refine ⟨q, r, hrun, hq, hr, ?_, by rw [hval]; ring⟩
  rw [hval, Int.add_comm, Int.add_mul_ediv_left _ _ hn.1.ne', Int.ediv_eq_zero_of_lt hr.1 hr.2,
    zero_add]

/-! ## m_out -/

/-- **One run of digits.** -/
theorem digitloop_spec (hn : 1 < n ∧ n ≤ 10) (i : ℕ) : ∀ {x : mint} (bp : List Char),
    Canon x → 0 ≤ x.num → ∃ q ds, digitloop n i x bp = some (q, ds ++ bp) ∧
      Canon q ∧ (∀ c ∈ ds, Shown c) ∧ ds.foldl (reads n) q.num = x.num ∧ ds.length ≤ i ∧
      q.num = x.num / n ^ ds.length ∧ (0 < q.num → ds.length = i) ∧
      (ds ≠ [] → n ^ (ds.length - 1) ≤ x.num) ∧ (0 < x.num → 0 < i → ds ≠ []) := by
  induction i with
  | zero =>
    intro x bp hx hx0
    refine ⟨x, [], rfl, hx, fun c hc => absurd hc not_mem_nil, rfl, le_rfl, ?_,
      fun _ => rfl, fun h => absurd rfl h, fun _ h => absurd h (lt_irrefl 0)⟩
    rw [length_nil, pow_zero, Int.ediv_one]
  | succ i ih =>
    intro x bp hx hx0
    by_cases hpos : 0 < x.num
    · obtain ⟨q, r, hrun, hq, hr, hqn, hval⟩ := sdiv_digit (n := n) hx hx0 (by omega)
      have hq0 : 0 ≤ q.num := hqn ▸ Int.ediv_nonneg hx0 (by omega)
      obtain ⟨q', ds, hloop, hq', hds, hreads, hlen, hdiv, hfull, hlow, -⟩ :=
        ih (numeral r :: bp) hq hq0
      obtain ⟨hshown, hnum⟩ := reads_numeral (r := r) (by omega)
      refine ⟨q', ds ++ [numeral r], ?_, hq', ?_, ?_, ?_, ?_, ?_, fun _ => ?_, fun _ _ => ?_⟩
      · rw [digitloop, if_pos (hx.num_pos.mp hpos), hrun]
        simp only [bind_eq_bind, bind_some]
        rw [hloop, append_assoc, singleton_append]
      · intro c hc
        rcases List.mem_append.mp hc with hc | hc
        · exact hds c hc
        · rw [List.mem_singleton.mp hc]
          exact hshown
      · rw [foldl_append, hreads, foldl_cons, foldl_nil, hnum, hval]
      · rw [length_append, length_singleton]
        omega
      · rw [hdiv, hqn, length_append, length_singleton, pow_succ',
          Int.ediv_ediv_of_nonneg (by omega)]
      · intro h
        rw [length_append, length_singleton, hfull h]
      · rw [length_append, length_singleton, Nat.add_sub_cancel]
        by_cases hnil : ds = []
        · rw [hnil, length_nil, pow_zero]
          omega
        · have hone : ds.length = ds.length - 1 + 1 := by
            have := List.length_pos_iff.mpr hnil
            omega
          have hmul : n ^ (ds.length - 1) * n ≤ q.num * n :=
            mul_le_mul_of_nonneg_right (hlow hnil) (by omega)
          rw [hone, pow_succ]
          omega
      · exact append_ne_nil_of_right_ne_nil _ (cons_ne_nil _ _)
    · refine ⟨x, [], ?_, hx, fun c hc => absurd hc not_mem_nil, rfl, Nat.zero_le _, ?_,
        fun h => absurd h hpos, fun h => absurd rfl h, fun h => absurd h hpos⟩
      · rw [digitloop, if_neg fun h => hpos (hx.num_pos.mpr h)]
        rfl
      · rw [length_nil, pow_zero, Int.ediv_one]

/-- **The text of a number**: `j` blanks, and `10 * j + i` digits. -/
theorem m_outloop_spec (hn : 1 < n ∧ n ≤ 10) (v : ℕ) : ∀ {x : mint} (bp : List Char),
    Canon x → 0 < x.num → x.num.toNat = v → ∃ w i j, (∀ fuel, v + 1 ≤ fuel →
        m_outloop n fuel x bp = some (w ++ bp)) ∧ (∀ c ∈ w, Shown c) ∧
      w.foldl (reads n) 0 = x.num ∧ 1 ≤ i ∧ w.length = 11 * j + i ∧
      n ^ (10 * j + i - 1) ≤ x.num := by
  induction v using Nat.strong_induction_on with
  | _ v ih =>
    intro x bp hx hpos hv
    obtain ⟨q, ds, hrun, hq, hds, hreads, hlen, hdiv, hfull, hlow, hne⟩ :=
      digitloop_spec hn 10 bp hx hpos.le
    have hds0 := List.length_pos_iff.mpr (hne hpos (by norm_num))
    have hpow : (0 : ℤ) < n ^ ds.length := pow_pos (by omega) _
    have hq0 : 0 ≤ q.num := hdiv ▸ Int.ediv_nonneg hpos.le hpow.le
    by_cases hq1 : 0 < q.num
    · have hten := hfull hq1
      have hle : q.num * n ^ 10 ≤ x.num := by
        rw [hdiv, hten]
        exact Int.ediv_mul_le _ (hten ▸ hpow.ne')
      have hbig : 1 < n ^ 10 := one_lt_pow₀ hn.1 (by norm_num)
      have hlt : q.num < x.num := by nlinarith
      obtain ⟨w, i, j, hloop, hw, hwreads, hi, hwlen, hwlow⟩ :=
        ih q.num.toNat (by omega) (' ' :: (ds ++ bp)) hq hq1 rfl
      refine ⟨w ++ ' ' :: ds, i, j + 1, fun fuel hfuel => ?_, ?_, ?_, hi, ?_, ?_⟩
      · obtain ⟨f, rfl⟩ := Nat.exists_eq_succ_of_ne_zero (show fuel ≠ 0 by omega)
        rw [m_outloop, if_pos (hx.num_pos.mp hpos), hrun]
        simp only [bind_eq_bind, bind_some]
        rw [if_pos (hq.num_pos.mp hq1), hloop f (by omega), append_assoc,
          cons_append]
      · intro c hc
        rcases List.mem_append.mp hc with hc | hc
        · exact hw c hc
        · rcases List.mem_cons.mp hc with rfl | hc
          · exact Or.inl rfl
          · exact hds c hc
      · rw [foldl_append, hwreads, foldl_cons, reads, if_pos rfl, hreads]
      · rw [length_append, length_cons, hten, hwlen]
        ring
      · have hmul : n ^ (10 * j + i - 1) * n ^ 10 ≤ q.num * n ^ 10 :=
          mul_le_mul_of_nonneg_right hwlow (by omega)
        rw [show 10 * (j + 1) + i - 1 = 10 * j + i - 1 + 10 by omega, pow_add]
        omega
    · have hqz : q.num = 0 := by omega
      refine ⟨ds, ds.length, 0, fun fuel hfuel => ?_, hds, ?_, hds0, by ring, ?_⟩
      · obtain ⟨f, rfl⟩ := Nat.exists_eq_succ_of_ne_zero (show fuel ≠ 0 by omega)
        obtain ⟨g, rfl⟩ := Nat.exists_eq_succ_of_ne_zero (show f ≠ 0 by omega)
        have hqlen : ¬ 0 < q.len := fun h => hq1 (hq.num_pos.mpr h)
        rw [m_outloop, if_pos (hx.num_pos.mp hpos), hrun]
        simp only [bind_eq_bind, bind_some]
        rw [if_neg hqlen, m_outloop, if_neg hqlen]
      · rw [← hqz, hreads]
      · rw [Nat.mul_zero, Nat.zero_add]
        exact hlow (List.length_pos_iff.mp hds0)

/-! ## m_in -/

/-- What `m_in` has read: digits that are there, and no leading zero but for zero itself. -/
structure Reading (a : mint) (v : ℤ) : Prop extends Valid a where
  len : 0 ≤ a.len
  num : a.num = v
  canon : v ≠ 0 → Canon a

/-- A number of one digit, which may be zero. -/
theorem valid_one {d : ℤ} (h : 0 ≤ d ∧ d < 32768) :
    Valid ⟨1, [d]⟩ ∧ (⟨1, [d]⟩ : mint).num = d := by
  refine ⟨⟨Nat.le_refl 1, digits_cons.mpr ⟨h, digits_nil⟩⟩, ?_⟩
  show d + 32768 * 0 = d
  ring

/-- **One digit more.** -/
theorem Reading.next {n d v : ℤ} (h : Reading x v) (hn : 1 < n ∧ n ≤ 10) (hd : 0 ≤ d ∧ d < 10)
    (hv : 0 ≤ v) : ∃ p q, mul x ⟨1, [n]⟩ = some p ∧ madd depth p ⟨1, [d]⟩ = some q ∧
      Reading q (v * n + d) ∧ ∃ y, move q = some y ∧ Reading y (v * n + d) := by
  obtain ⟨hxc, hxn, -⟩ := mcan_spec h.toValid h.len
  obtain ⟨hnc, hnn⟩ := canon_one (d := n) (by omega)
  obtain ⟨p, hp, hpc, hpn⟩ := mult_spec hxc hnc
  rw [hxn, h.num, hnn] at hpn
  have hp0 : 0 ≤ p.len := hpc.len_nonneg_iff.mpr (hpn ▸ mul_nonneg hv (by omega))
  obtain ⟨hdv, hdn⟩ := valid_one (d := d) (by omega)
  -- the sum, canonical unless both are zero
  have hsum : ∃ q, madd depth p ⟨1, [d]⟩ = some q ∧ Reading q (v * n + d) := by
    by_cases hz : p.num = 0
    · have hplen := hpc.len_eq_zero_iff.mpr hz
      have hmove : move p = some ⟨0, []⟩ := by
        rw [hpc.toValid.move, hplen, mint.mag, hplen]
        rfl
      have hvn : v * n + d = d := by rw [← hpn, hz, zero_add]
      rw [hvn]
      by_cases hd0 : d = 0
      · refine ⟨⟨1, [0]⟩, ?_, ?_⟩
        · rw [depth, madd, hmove, hd0]
          rfl
        · obtain ⟨h0, h1⟩ := valid_one (d := 0) (by norm_num)
          exact ⟨h0, by decide, hd0 ▸ h1, fun h => absurd hd0 h⟩
      · obtain ⟨hdc, -⟩ := canon_one (d := d) (by omega)
        obtain ⟨q, hq, hqc, hqn⟩ := madd_nonneg hpc hdc hp0 (zero_le_one' ℤ) 4
        rw [hz, hdn, zero_add] at hqn
        exact ⟨q, hq, hqc.toValid, hqc.len_nonneg_iff.mpr (by omega), hqn, fun _ => hqc⟩
    · have hp1 : 1 ≤ p.len := by
        have := mt hpc.len_eq_zero_iff.mp hz
        omega
      obtain ⟨q, hq, hqc, hqn⟩ := m_add_canon hpc.copy hdv.copy (zero_le_one' ℤ) hp1
      rw [hpc.toValid.num_move, hdv.num_move, hpn, hdn] at hqn
      refine ⟨q, ?_, hqc.toValid, hqc.len_nonneg_iff.mpr ?_, hqn, fun _ => hqc⟩
      · rw [depth, madd, hpc.toValid.move, hdv.move]
        simp only [bind_eq_bind, bind_some]
        rw [if_pos hp0, if_pos (by decide), if_pos hp1]
        exact hq
      · rw [hqn]
        exact add_nonneg (mul_nonneg hv (by omega)) hd.1
  obtain ⟨q, hq, hqr⟩ := hsum
  refine ⟨p, q, ?_, hq, hqr, _, hqr.toValid.move, hqr.toValid.copy, hqr.len, ?_, fun h0 => ?_⟩
  · rw [mul, mcan_canon hnc]
    exact hp
  · rw [hqr.toValid.num_move, hqr.num]
  · exact (hqr.canon h0).copy

/-- A digit is none of the other characters. -/
theorem m_inloop_digit (hc : '0' ≤ c ∧ c ≤ '9') (n : ℤ) (f : List Char) (sign : ℤ) :
    m_inloop n (c :: f) sign x a =
      (mul x ⟨1, [n]⟩).bind fun a => (madd depth a ⟨1, [c.toNat - '0'.toNat]⟩).bind fun a =>
        (move a).bind fun x => m_inloop n f sign x a := by
  have hne : ∀ d : Char, d < '0' ∨ '9' < d → c ≠ d := by
    rintro d hd rfl
    exact hd.elim (fun h => absurd hc.1 (Char.not_le.mpr h)) fun h =>
      absurd hc.2 (Char.not_le.mpr h)
  rw [m_inloop.eq_def]
  split
  · rename_i h
    cases h
  · rename_i h
    cases h
    exact absurd rfl (hne '\\' (by decide))
  · rename_i h
    cases h
    exact absurd rfl (hne '\\' (by decide))
  · rename_i h
    cases h
    rw [if_neg, if_neg (hne ' ' (by decide)), if_neg (hne '-' (by decide)), if_pos hc]
    · rfl
    · exact fun h => h.elim (hne '\t' (by decide)) (hne '\n' (by decide))

/-- **Digits and blanks** are read as the number that they show. -/
theorem m_inloop_shown (hn : 1 < n ∧ n ≤ 10) (sign : ℤ) (f w : List Char) :
    ∀ {v : ℤ} {x a : mint}, 0 ≤ v → (∀ c ∈ w, Shown c) → Reading x v → Reading a v →
      ∃ x' a', m_inloop n (w ++ f) sign x a = m_inloop n f sign x' a' ∧
        Reading a' (w.foldl (reads n) v) := by
  induction w with
  | nil => exact fun {v x a} _ _ _ ha => ⟨x, a, rfl, ha⟩
  | cons c w ih =>
    intro v x a hv hw hx ha
    obtain ⟨hc, hw'⟩ := List.forall_mem_cons.mp hw
    rw [cons_append, foldl_cons]
    rcases hc with rfl | hc
    · obtain ⟨x', a', hrun, ha'⟩ := ih hv hw' hx ha
      refine ⟨x', a', ?_, ha'⟩
      rw [m_inloop.eq_def]
      exact hrun
    · have hcv : reads n v c = v * n + xtoi c := by
        rw [reads, if_neg]
        rintro rfl
        exact absurd hc (by decide)
      have hxtoi : xtoi c = (c.toNat : ℤ) - '0'.toNat := by rw [xtoi, if_pos hc]
      have hrange : 48 ≤ c.toNat ∧ c.toNat ≤ 57 := hc
      have h48 : '0'.toNat = 48 := rfl
      obtain ⟨p, q, hp, hq, hqr, y, hy, hyr⟩ := hx.next hn (d := xtoi c) (by omega) hv
      rw [hcv]
      obtain ⟨x', a', hrun, ha'⟩ :=
        ih (add_nonneg (mul_nonneg hv (by omega)) (by omega)) hw' hyr hqr
      refine ⟨x', a', ?_, ha'⟩
      rw [← hrun, m_inloop_digit hc, hp, bind_some, ← hxtoi, hq, bind_some, hy,
        bind_some]

/-- The number that is read, once the text ends. -/
theorem m_in_shown (hn : 1 < n ∧ n ≤ 10) {w : List Char} {v : ℤ}
    (hw : ∀ c ∈ w, Shown c) (hv : w.foldl (reads n) 0 = v) (hpos : 0 < v) (neg : Bool) :
    ∃ m, m_in n ((if neg then '-' :: w else w) ++ ['\n']) = some (0, m, [], none) ∧
      Canon m ∧ m.num = if neg then -v else v := by
  have hzero : Reading ⟨0, []⟩ 0 := ⟨canon_zero.toValid, le_rfl, num_zero, fun h => absurd rfl h⟩
  cases neg with
  | false =>
    obtain ⟨x, a, hrun, ha⟩ := m_inloop_shown hn 1 ['\n'] w le_rfl hw hzero hzero
    rw [hv] at ha
    refine ⟨⟨a.len * 1, a.val⟩, ?_, ?_, ?_⟩
    · rw [m_in, if_neg Bool.false_ne_true, hrun]
      rfl
    · rw [mul_one]
      exact ha.canon hpos.ne'
    · rw [mul_one, if_neg Bool.false_ne_true]
      exact ha.num
  | true =>
    obtain ⟨x, a, hrun, ha⟩ := m_inloop_shown hn (-1) ['\n'] w le_rfl hw hzero hzero
    rw [hv] at ha
    have hneg : (⟨a.len * -1, a.val⟩ : mint) = a.neg := by
      rw [mint.neg, mul_neg_one]
    have hc := ha.canon hpos.ne'
    refine ⟨⟨a.len * -1, a.val⟩, ?_, ?_, ?_⟩
    · have hminus : m_in n ('-' :: w ++ ['\n']) = m_inloop n (w ++ ['\n']) (-1) ⟨0, []⟩ ⟨0,
        []⟩ := by
        rw [m_in, cons_append, m_inloop.eq_def]
        rfl
      rw [if_pos rfl, hminus, hrun]
      rfl
    · rw [hneg]
      exact hc.neg
    · rw [hneg, hc.neg_num, if_pos rfl, ha.num]

/-- **`m_out` and `m_in`** on a number that is not zero: the text fits the buffer, and is read as
the number. -/
theorem m_out_m_in (hn : n = 8 ∨ n = 10) (ha : Canon a) (hne : a.num ≠ 0) :
    ∃ N text used size m, (∀ fuel, N ≤ fuel → m_out fuel a n = some (text, used, size)) ∧
      used ≤ size ∧ m_in n text = some (0, m, [], none) ∧ Canon m ∧ m.num = a.num := by
  have hn' : 1 < n ∧ n ≤ 10 := by omega
  obtain ⟨hcopy, hnum⟩ := copy_abs ha
  have hpos : 0 < |a.num| := abs_pos.mpr hne
  obtain ⟨w, i, j, hloop, hw, hreads, hi, hwlen, hlow⟩ :=
    m_outloop_spec hn' _ [] hcopy (hnum ▸ hpos) rfl
  rw [hnum] at hreads hlow
  -- the digits of a number below `32768 ^ xlen`
  have hlt : |a.num| < 32768 ^ a.len.natAbs := by
    have hval := hcopy.digits.value_lt
    rw [hcopy.toValid.length_mag, Int.natAbs_natCast] at hval
    rw [← hnum, num_of_nonneg (Int.natCast_nonneg _)]
    exact hval
  have hbase : (32768 : ℤ) ^ a.len.natAbs ≤ n ^ (5 * a.len.natAbs) := by
    rw [pow_mul]
    refine pow_le_pow_left₀ (by norm_num) ?_ _
    rcases hn with rfl | rfl <;> norm_num
  have hexp : 10 * j + i - 1 < 5 * a.len.natAbs :=
    (pow_lt_pow_iff_right₀ hn'.1).mp (hlow.trans_lt (hlt.trans_le hbase))
  obtain ⟨m, hin, hm, hmn⟩ := m_in_shown hn' hw hreads hpos (decide (a.len < 0))
  refine ⟨|a.num|.toNat + 1, (if a.len < 0 then '-' :: w else w) ++ ['\n'],
    (if a.len < 0 then '-' :: w else w).length + 1, 7 * a.len.natAbs, m, fun fuel hfuel => ?_,
    ?_, ?_, hm, ?_⟩
  · have hmove : move ⟨a.len.natAbs, a.val⟩ = some ⟨a.len.natAbs, a.mag⟩ := by
      rw [move, if_pos (by rw [Int.natAbs_natCast]; exact ha.toValid.cells), Int.natAbs_natCast]
      rfl
    have hrun := hloop fuel (hnum ▸ hfuel)
    rw [append_nil] at hrun
    unfold m_out
    rw [if_neg (by omega)]
    simp only [hmove, hrun, bind_eq_bind, bind_some]
  · split
    · rw [length_cons]
      omega
    · omega
  · simp only [decide_eq_true_eq] at hin
    exact hin
  · rw [hmn]
    simp only [decide_eq_true_eq]
    split
    · rename_i hneg
      rw [abs_of_neg (ha.num_neg.mpr hneg), neg_neg]
    · rename_i hneg
      exact abs_of_nonneg (not_lt.mp fun h => hneg (ha.num_neg.mp h))

/-! ## xtom -/

/-- A text of hexadecimal digits is read as the number that it shows. -/
theorem xtomloop_spec (ha : Canon a) (hn : a.num = 16) (w : List Char) : ∀ {m : mint}, Canon m →
    0 ≤ m.num → (∀ c ∈ w, HexDigit c) →
    ∃ r, xtomloop a w m = some (some r) ∧ Canon r ∧ r.num = w.foldl (reads 16) m.num := by
  induction w with
  | nil => exact fun {m} hm _ _ => ⟨m, rfl, hm, rfl⟩
  | cons c w ih =>
    intro m hm hm0 hw
    obtain ⟨⟨⟨hc0, hc1⟩, hne⟩, hw'⟩ := List.forall_mem_cons.mp hw
    obtain ⟨d, hd, hdc, hdn⟩ : ∃ d, itom (xtoi c) = some d ∧ Canon d ∧ d.num = xtoi c := by
      rcases hc0.eq_or_lt with h0 | hpos
      · rw [← h0]
        exact ⟨_, rfl, canon_zero, rfl⟩
      · obtain ⟨h1, h2⟩ := canon_one (d := xtoi c) (by omega)
        exact ⟨_, by rw [itom, if_pos hpos, short_of (by omega), Option.map_some], h1, h2⟩
    obtain ⟨p, hp, hpc, hpn⟩ := mul_spec hm ha
    obtain ⟨q, hq, hqc, hqn⟩ := madd_spec hpc hdc
    rw [hpn, hn, hdn] at hqn
    have hq0 : 0 ≤ q.num := hqn ▸ add_nonneg (mul_nonneg hm0 (by norm_num)) hc0
    obtain ⟨r, hrun, hr, hrn⟩ := ih hqc hq0 hw'
    refine ⟨r, ?_, hr, ?_⟩
    · rw [xtomloop, if_neg (not_lt.mpr hc0), hd]
      simp only [bind_eq_bind, bind_some, hp, hq]
      exact hrun
    · rw [hrn, foldl_cons, reads_of_ne hne, hqn]

/-! ## mtox -/

/-- **The loop** writes the digits, the lowest first. -/
theorem mtoxloop_spec (v : ℕ) : ∀ {m : mint} (hex : List Char), Canon m → 0 ≤ m.num →
    m.num.toNat = v → ∃ w, (∀ fuel, v + 1 ≤ fuel → mtoxloop fuel m hex = some (hex ++ w)) ∧
      (∀ c ∈ w, HexDigit c) ∧ w.reverse.foldl (reads 16) 0 = m.num ∧ w ≠ [] ∧
      16 ^ (w.length - 1) ≤ max m.num 1 := by
  induction v using Nat.strong_induction_on with
  | _ v ih =>
    intro m hex hm hm0 hv
    obtain ⟨q, r, hrun, hq, hr, hqn, hval⟩ := sdiv_digit (n := 16) hm hm0 (by norm_num)
    have hq0 : 0 ≤ q.num := hqn ▸ Int.ediv_nonneg hm0 (by norm_num)
    obtain ⟨hxr, hxd⟩ := xtoi_itox hr
    obtain ⟨z, hcmp, hz⟩ := mcmp_zero hq
    have hz0 : z = 0 ↔ q.num = 0 := by
      rw [← Int.sign_eq_zero_iff_zero, hz, Int.sign_eq_zero_iff_zero]
    by_cases hqz : q.num = 0
    · refine ⟨[itox r], fun fuel hfuel => ?_, ?_, ?_, cons_ne_nil _ _, le_max_right _ _⟩
      · obtain ⟨f, rfl⟩ := Nat.exists_eq_succ_of_ne_zero (show fuel ≠ 0 by omega)
        rw [mtoxloop, hrun]
        simp only [bind_eq_bind, bind_some, mcan_canon hq, hcmp, hz0.mpr hqz, ne_eq,
          not_true_eq_false, if_false]
      · intro c hc
        rw [List.mem_singleton.mp hc]
        exact hxd
      · rw [reverse_singleton, foldl_cons, foldl_nil, reads_of_ne hxd.2, hxr]
        omega
    · have hlt : q.num < m.num := by omega
      obtain ⟨w, hloop, hw, hreads, hne, hlow⟩ :=
        ih q.num.toNat (by omega) (hex ++ [itox r]) hq hq0 rfl
      refine ⟨itox r :: w, fun fuel hfuel => ?_, List.forall_mem_cons.mpr ⟨hxd, hw⟩, ?_,
        cons_ne_nil _ _, ?_⟩
      · obtain ⟨f, rfl⟩ := Nat.exists_eq_succ_of_ne_zero (show fuel ≠ 0 by omega)
        rw [mtoxloop, hrun]
        simp only [bind_eq_bind, bind_some, mcan_canon hq, hcmp, ne_eq,
          mt hz0.mp hqz, not_false_eq_true, if_true]
        rw [hloop f (by omega), append_assoc, singleton_append]
      · rw [reverse_cons, foldl_append, hreads, foldl_cons, foldl_nil,
          reads_of_ne hxd.2, hxr, hval]
      · have hlen := List.length_pos_iff.mpr hne
        rw [length_cons, Nat.add_sub_cancel, show w.length = w.length - 1 + 1 by omega,
          pow_succ]
        omega

/-- **The digits are turned round** in place. -/
theorem swaploop_reverse (n : ℕ) : ∀ (l w r : List Char), w.length = n →
    swaploop (l ++ w ++ r) l.length (l.length + w.length - 1) = l ++ w.reverse ++ r := by
  induction n using Nat.strong_induction_on with
  | _ n ih =>
    intro l w r hn
    rcases w with _ | ⟨c, w⟩
    · rw [swaploop, if_neg (by rw [length_nil]; omega), reverse_nil]
    rcases eq_nil_or_concat w with rfl | ⟨w, d, rfl⟩
    · rw [swaploop, if_neg (by rw [length_singleton]; omega), reverse_singleton]
    · rw [concat_eq_append] at hn ⊢
      have hlen : (c :: (w ++ [d])).length = w.length + 2 := by simp
      have hp : l.length + (c :: (w ++ [d])).length - 1 = l.length + (w.length + 1) := by omega
      have hcell : l ++ c :: (w ++ [d]) ++ r = l ++ (c :: w ++ d :: r) := by simp
      rw [hp, hcell, swaploop, if_pos (by omega)]
      have hnext := ih w.length (by omega) (l ++ [d]) w (c :: r) rfl
      rw [length_append, length_singleton] at hnext
      have hgd : (l ++ (c :: w ++ d :: r)).getD (l.length + (w.length + 1)) '0' = d := by
        simp [List.getD_eq_getElem?_getD]
      have hgc : (l ++ (c :: w ++ d :: r)).getD l.length '0' = c := by
        simp [List.getD_eq_getElem?_getD]
      have hset : ((l ++ (c :: w ++ d :: r)).set (l.length + (w.length + 1)) c).set l.length d =
          l ++ [d] ++ w ++ c :: r := by
        simp
      simp only [hgd, hgc, hset]
      rw [show l.length + (w.length + 1) - 1 = l.length + 1 + w.length - 1 by omega, hnext]
      simp

/-- **`mtox` and `xtom`** on a number that is not negative. -/
theorem mtox_xtom (hk : Canon k) (hk0 : 0 ≤ k.num) :
    ∃ N hex used size m, (∀ fuel, N ≤ fuel → mtox fuel k = some (hex, used, size)) ∧
      (used ≤ size ↔ k.num ≠ 0) ∧ xtom hex = some (some m) ∧ Canon m ∧ m.num = k.num := by
  obtain ⟨c, hmove, hc, hcn⟩ := hk.move
  obtain ⟨w, hloop, hw, hreads, hne, hlow⟩ := mtoxloop_spec _ [] hc (hcn ▸ hk0) rfl
  rw [hcn] at hreads hlow
  have hlen := List.length_pos_iff.mpr hne
  have hswap : swaploop w 0 (w.length - 1) = w.reverse := by
    have h := swaploop_reverse w.length [] w [] rfl
    rwa [nil_append, append_nil, length_nil, Nat.zero_add, nil_append,
      append_nil] at h
  obtain ⟨m, hx, hm, hmn⟩ := xtomloop_spec (canon_one (d := 16) (by norm_num)).1
    (canon_one (d := 16) (by norm_num)).2 w.reverse canon_zero le_rfl
    fun c hc => hw c (List.mem_reverse.mp hc)
  rw [num_zero, hreads] at hmn
  refine ⟨k.num.toNat + 1, w.reverse, w.length + 1, (k.len.natAbs * 15 + 3) / 4 + 1, m,
    fun fuel hfuel => ?_, ?_, ?_, hm, hmn⟩
  · have hrun := hloop fuel (hcn ▸ hfuel)
    rw [nil_append] at hrun
    unfold mtox
    simp only [hmove, hrun, hswap, bind_eq_bind, bind_some]
  · constructor
    · intro hle h0
      rw [hk.len_eq_zero_iff.mpr h0] at hle
      omega
    · intro hnz
      have hlt : k.num < 32768 ^ k.len.natAbs := by
        rw [num_of_nonneg (hk.len_nonneg_iff.mpr hk0), ← hk.toValid.length_mag]
        exact hk.digits.value_lt
      -- four bits for a digit of the text, fifteen for a digit of the number
      have hbits : (2 : ℤ) ^ (4 * (w.length - 1)) < 2 ^ (15 * k.len.natAbs) := by
        rw [pow_mul, pow_mul]
        rw [max_eq_left (by omega)] at hlow
        exact hlow.trans_lt hlt
      have hexp := (pow_lt_pow_iff_right₀ (by norm_num : (1 : ℤ) < 2)).mp hbits
      omega
  · exact hx

/-! ## There and back -/

/-- `xtom` reads what `mtox` writes as the number, and `mtox` stays in its buffer. -/
def Hexed (k : mint) : Prop :=
  ∃ N hex used size m, (∀ fuel, N ≤ fuel → mtox fuel k = some (hex, used, size)) ∧
    used ≤ size ∧ xtom hex = some (some m) ∧ Canon m ∧ m.num = k.num

/-- `m_in` reads what `m_out` writes, up to the end of the line, as a number that is `ok`, and
`m_out` stays in its buffer. -/
def Printed (a : mint) (b : ℤ) (ok : mint → Prop) : Prop :=
  ∃ N text used size m, (∀ fuel, N ≤ fuel → m_out fuel a b = some (text, used, size)) ∧
    used ≤ size ∧ m_in b text = some (0, m, [], none) ∧ ok m

theorem hexed_iff (hk : Canon k) (hk0 : 0 ≤ k.num) : Hexed k ↔ k.num ≠ 0 := by
  obtain ⟨N, hex, used, size, m, hrun, hfits, hx, hm, hmn⟩ := mtox_xtom hk hk0
  constructor
  · rintro ⟨N', hex', used', size', m', hrun', hle, -⟩
    have h := (hrun (max N N') (le_max_left _ _)).symm.trans (hrun' _ (le_max_right _ _))
    obtain ⟨-, rfl, rfl⟩ := h
    exact hfits.mp hle
  · exact fun h => ⟨N, hex, used, size, m, hrun, hfits.mpr h, hx, hm, hmn⟩

theorem m_out_zero (hz : a.num = 0) (ha : Canon a) (fuel : ℕ) (b : ℤ) :
    m_out fuel a b = some (['0', '\n'], 0, 0) := by
  unfold m_out
  rw [ha.len_eq_zero_iff.mpr hz]
  rfl

/-- A zero that is read keeps its digit. -/
theorem m_in_zero {b : ℤ} (hb : b = 8 ∨ b = 10) :
    m_in b ['0', '\n'] = some (0, ⟨1, [0]⟩, [], none) := by
  rcases hb with rfl | rfl <;> decide +kernel

theorem printed_num (hn : n = 8 ∨ n = 10) (ha : Canon a) : Printed a n fun m => m.num = a.num := by
  by_cases hz : a.num = 0
  · exact ⟨0, _, _, _, _, fun fuel _ => m_out_zero hz ha fuel n, le_rfl, m_in_zero hn, hz.symm⟩
  · obtain ⟨N, text, used, size, m, hrun, hle, hin, -, hmn⟩ := m_out_m_in hn ha hz
    exact ⟨N, text, used, size, m, hrun, hle, hin, hmn⟩

theorem printed_canon_iff (hn : n = 8 ∨ n = 10) (ha : Canon a) :
    Printed a n (fun m => Canon m ∧ m.num = a.num) ↔ a.num ≠ 0 := by
  constructor
  · rintro ⟨N, text, used, size, m, hrun, -, hin, hm, -⟩ hz
    have h := (hrun N le_rfl).symm.trans (m_out_zero hz ha N n)
    obtain ⟨rfl, -⟩ := h
    rw [m_in_zero hn] at hin
    obtain ⟨-, rfl, -⟩ := hin
    exact absurd hm.top (by decide)
  · intro hz
    obtain ⟨N, text, used, size, m, hrun, hle, hin, hm⟩ := m_out_m_in hn ha hz
    exact ⟨N, text, used, size, m, hrun, hle, hin, hm⟩

/-- **Text there and back**: `mtox` stays in its buffer for every number but zero, and what
`m_in` reads is always the number, in its canonical form unless it is zero. -/
theorem text_iff (k a : mint) (b : ℤ) (hk : Canon k) (hk0 : 0 ≤ k.num) (ha : Canon a)
    (hb : b = 8 ∨ b = 10) :
    (Hexed k ∧ Printed a b (fun m => m.num = a.num) ↔ k.num ≠ 0) ∧
    (Hexed k ∧ Printed a b (fun m => Canon m ∧ m.num = a.num) ↔ k.num ≠ 0 ∧ a.num ≠ 0) := by
  rw [hexed_iff hk hk0, printed_canon_iff hb ha]
  exact ⟨and_iff_left (printed_num hb ha), Iff.rfl⟩

/-- A number of two cells in hexadecimal, and one of twelve digits, with a blank, in decimal. -/
theorem text_iff_digits : Hexed ⟨2, [5, 3]⟩ ∧
    (m_out 3 ⟨-3, [6676, 32050, 114]⟩ 10).map Prod.fst =
      some ['-', '1', '2', ' ', '3', '4', '5', '6', '7', '8', '9', '0', '1', '2', '\n'] ∧
    Printed ⟨-3, [6676, 32050, 114]⟩ 10 (fun m => Canon m ∧ m.num = -123456789012) := by
  have hk : Canon ⟨2, [5, 3]⟩ := ⟨⟨by decide, by unfold Digits; decide⟩, by decide⟩
  have ha : Canon ⟨-3, [6676, 32050, 114]⟩ := ⟨⟨by decide, by unfold Digits; decide⟩, by decide⟩
  obtain ⟨hhex, hprinted⟩ := (text_iff _ _ 10 hk (by decide +kernel) ha (Or.inr rfl)).2.mpr
    ⟨by decide +kernel, by decide +kernel⟩
  exact ⟨hhex, by decide +kernel, hprinted⟩

/-- `mtox` of zero writes a digit and the end of the string into one cell. -/
theorem mtox_zero_outside : Canon ⟨0, []⟩ ∧ (⟨0, []⟩ : mint).num = 0 ∧
    (∀ fuel, 1 ≤ fuel → mtox fuel ⟨0, []⟩ = some (['0'], 2, 1)) ∧ ¬ Hexed ⟨0, []⟩ := by
  refine ⟨canon_zero, rfl, fun fuel hfuel => ?_, fun h => ?_⟩
  · obtain ⟨f, rfl⟩ := Nat.exists_eq_succ_of_ne_zero (show fuel ≠ 0 by omega)
    have hloop : mtoxloop (f + 1) ⟨0, []⟩ [] = some ['0'] := rfl
    unfold mtox
    rw [show move ⟨0, []⟩ = some ⟨0, []⟩ from rfl]
    simp only [Option.bind_eq_bind, Option.bind_some, hloop]
    rw [swaploop, if_neg (by decide)]
    rfl
  · exact (hexed_iff canon_zero le_rfl).mp h rfl

end Mp
