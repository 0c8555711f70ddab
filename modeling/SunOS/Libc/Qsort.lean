/-
# Sorting records in place (`libc/gen/qsort.c`)

A pointer into the array is known by the number of its record and its offset there: `base + qsz * k
+ t` is offset `t` of record `k`.  A load, a store or a comparison outside the `n` records has no
answer, and neither has a loop that takes more turns than it is given.
-/
import SunOS.Lib.Rearrange

namespace Qsort

open Option (bind_eq_bind bind_some)
open Function (comp_apply)

def THRESH : ℤ := 4
def MTHRESH : ℤ := 6

/-- The bytes, by record and offset. -/
abbrev Mem (β : Type) := ℤ → ℕ → β

variable {β : Type} {n qsz : ℕ}

/-- A record as the comparison routine sees it. -/
def record (qsz : ℕ) (μ : Mem β) (k : ℤ) : Fin qsz → β := fun t => μ k t

section Source

variable (cmp : (Fin qsz → β) → (Fin qsz → β) → ℤ) (n : ℕ)

def load (qsz n : ℕ) (μ : Mem β) (k : ℤ) (t : ℕ) : Option β :=
  if 0 ≤ k ∧ k < n ∧ t < qsz then some (μ k t) else none

def store (qsz n : ℕ) (μ : Mem β) (k : ℤ) (t : ℕ) (c : β) : Option (Mem β) :=
  if 0 ≤ k ∧ k < n ∧ t < qsz then some (Function.update μ k (Function.update (μ k) t c)) else none

def qcmp (μ : Mem β) (i j : ℤ) : Option ℤ :=
  if (0 ≤ i ∧ i < n) ∧ 0 ≤ j ∧ j < n then some (cmp (record qsz μ i) (record qsz μ j)) else none

/-- The loop that swaps the records at `i` and `j`, from the offset `t` on: `ii` bytes. -/
def swap (qsz n : ℕ) (i j : ℤ) : ℕ → ℕ → Mem β → Option (Mem β)
  | 0, _, μ => some μ
  | ii + 1, t, μ => do
      let c ← load qsz n μ i t
      let d ← load qsz n μ j t
      let μ ← store qsz n μ i t d
      let μ ← store qsz n μ j t c
      swap qsz n i j ii (t + 1) μ

/-- The larger of first and middle, or what is next to it when the last one is below. -/
def median (μ : Mem β) (base mid max : ℤ) : Option (Mem β) := do
  let j := if 0 < (← qcmp cmp n μ base mid) then base else mid
  if 0 < (← qcmp cmp n μ j (max - 1)) then
    let j' := if j = base then mid else base
    let j' := if (← qcmp cmp n μ j' (max - 1)) < 0 then max - 1 else j'
    if j' ≠ mid then swap qsz n mid j' qsz 0 μ else some μ
  else if j ≠ mid then swap qsz n mid j qsz 0 μ else some μ

/-- `while (i < mid && qcmp(i, mid) <= 0)` -/
def scanUp (μ : Mem β) (mid : ℤ) : ℕ → ℤ → Option ℤ
  | 0, _ => none
  | fuel + 1, i =>
      if i < mid then do
        if (← qcmp cmp n μ i mid) ≤ 0 then scanUp μ mid fuel (i + 1) else some i
      else some i

/-- `while (j > mid)`, as long as `qcmp(mid, j) <= 0` -/
def scanDown (μ : Mem β) (mid : ℤ) : ℕ → ℤ → Option ℤ
  | 0, _ => none
  | fuel + 1, j =>
      if mid < j then do
        if (← qcmp cmp n μ mid j) ≤ 0 then scanDown μ mid fuel (j - 1) else some j
      else some j

/-- Partitioning, by swaps that may move the discriminator at `mid`. -/
def split : ℕ → ℤ → ℤ → ℤ → Mem β → Option (ℤ × Mem β)
  | 0, _, _, _, _ => none
  | fuel + 1, i, j, mid, μ => do
      let i ← scanUp cmp n μ mid (n + 1) i
      let j ← scanDown cmp n μ mid (n + 1) j
      if mid < j then
        let μ ← swap qsz n i j qsz 0 μ
        if i = mid then split fuel (i + 1) j j μ
        else split fuel (i + 1) (j - 1) mid μ
      else if i = mid then some (mid, μ)
      else do
        let μ ← swap qsz n i mid qsz 0 μ
        split fuel i (j - 1) i μ

/-- `qst`: the smaller part by recursion, the larger one by another turn of the loop. -/
def qst : ℕ → ℤ → ℤ → Mem β → Option (Mem β)
  | 0, _, _, _ => none
  | fuel + 1, base, max, μ => do
      let mid := base + (max - base) / 2
      let μ ← (if MTHRESH ≤ max - base then median cmp n μ base mid max else some μ)
      let (mid, μ) ← split cmp n (n + 1) base (max - 1) mid μ
      let lo := mid - base
      let hi := max - (mid + 1)
      if lo ≤ hi then
        let μ ← (if THRESH ≤ lo then qst fuel base mid μ else some μ)
        if THRESH ≤ hi then qst fuel (mid + 1) max μ else some μ
      else
        let μ ← (if THRESH ≤ hi then qst fuel (mid + 1) max μ else some μ)
        if THRESH ≤ lo then qst fuel base mid μ else some μ

/-- The smallest of the records from `j` and `lo` on, below `hi`. -/
def smallest (μ : Mem β) (hi : ℤ) : ℕ → ℤ → ℤ → Option ℤ
  | 0, _, _ => none
  | fuel + 1, j, lo =>
      if lo < hi then do
        if 0 < (← qcmp cmp n μ j lo) then smallest μ hi fuel lo (lo + 1)
        else smallest μ hi fuel j (lo + 1)
      else some j

/-- `while (qcmp(hi -= qsz, min) > 0)` -/
def seek (μ : Mem β) (min : ℤ) : ℕ → ℤ → Option ℤ
  | 0, _ => none
  | fuel + 1, hi => do
      if 0 < (← qcmp cmp n μ (hi - 1) min) then seek μ min fuel (hi - 1) else some (hi - 1)

/-- The byte at offset `t` goes up by one record, in all records from `i` down to `hi`. -/
def shiftByte (qsz n : ℕ) (hi : ℤ) (t : ℕ) (c : β) : ℕ → ℤ → Mem β → Option (Mem β)
  | 0, _, _ => none
  | fuel + 1, i, μ =>
      if hi ≤ i - 1 then do
        let d ← load qsz n μ (i - 1) t
        let μ ← store qsz n μ i t d
        shiftByte qsz n hi t c fuel (i - 1) μ
      else store qsz n μ i t c

/-- The standard insertion sort shift, a byte at a time from the last one on. -/
def shift (qsz n : ℕ) (hi min : ℤ) : ℕ → Mem β → Option (Mem β)
  | 0, μ => some μ
  | t + 1, μ => do
      let c ← load qsz n μ min t
      let μ ← shiftByte qsz n hi t c (n + 1) min μ
      shift qsz n hi min t μ

/-- The insertion sort from the record `min` on. -/
def insertAll : ℕ → ℤ → Mem β → Option (Mem β)
  | 0, _, _ => none
  | fuel + 1, min, μ =>
      if min < n then do
        let hi := (← seek cmp n μ min (n + 1) min) + 1
        let μ ← (if hi ≠ min then shift qsz n hi min qsz μ else some μ)
        insertAll fuel (min + 1) μ
      else some μ

def qsort (μ : Mem β) : Option (Mem β) :=
  if n ≤ 1 then some μ
  else do
    let μ ← (if THRESH ≤ n then qst cmp n (n + 1) 0 n μ else some μ)
    let hi := if THRESH ≤ n then THRESH else n
    let j ← smallest cmp n μ hi (n + 1) 0 1
    let μ ← (if j ≠ 0 then swap qsz n j 0 qsz 0 μ else some μ)
    insertAll cmp n (n + 1) 1 μ

end Source

/-! ## The loops over bytes -/

variable {t : ℕ}

variable {μ : Mem β} {i j p m k : ℤ}

theorem load_eq (hk : 0 ≤ k ∧ k < n) (ht : t < qsz) (μ : Mem β) :
    load qsz n μ k t = some (μ k t) := if_pos ⟨hk.1, hk.2, ht⟩

/-- A store changes one byte. -/
theorem store_eq (hk : 0 ≤ k ∧ k < n) (ht : t < qsz) (μ : Mem β) (c : β) :
    ∃ μ', store qsz n μ k t c = some μ' ∧
      ∀ k' s, μ' k' s = if k' = k ∧ s = t then c else μ k' s := by
  refine ⟨_, if_pos ⟨hk.1, hk.2, ht⟩, fun k' s => ?_⟩
  by_cases hk' : k' = k
  · subst hk'
    rw [Function.update_self, Function.update_apply]
    simp
  · rw [Function.update_of_ne hk', if_neg fun h => hk' h.1]

/-- Bytes are swapped one by one. -/
theorem swap_bytes (hi : 0 ≤ i ∧ i < n) (hj : 0 ≤ j ∧ j < n) {ii t : ℕ} (ht : t + ii = qsz)
    (μ : Mem β) : ∃ μ', swap qsz n i j ii t μ = some μ' ∧
      ∀ k s, μ' k s = if t ≤ s ∧ s < qsz then μ (Equiv.swap i j k) s else μ k s := by
  induction ii generalizing t μ with
  | zero =>
    refine ⟨μ, rfl, fun k s => ?_⟩
    rw [if_neg (by omega)]
  | succ ii ih =>
    have htq : t < qsz := by omega
    obtain ⟨μ1, hs1, hμ₁⟩ := store_eq hi htq μ (μ j t)
    obtain ⟨μ2, hs2, hμ₂⟩ := store_eq hj htq μ1 (μ i t)
    obtain ⟨μ', hswap, hμ'⟩ := ih (t := t + 1) (by omega) μ2
    rw [swap, load_eq hi htq, load_eq hj htq]
    simp only [bind_eq_bind, bind_some, hs1, hs2]
    refine ⟨μ', hswap, fun k s => ?_⟩
    -- both bytes are at their new places
    have hboth : ∀ k s, μ2 k s = if s = t then μ (Equiv.swap i j k) s else μ k s := by
      intro k s
      rw [hμ₂, hμ₁, Equiv.swap_apply_def]
      split_ifs <;> simp_all
    rw [hμ', hboth, hboth]
    by_cases hs : t + 1 ≤ s ∧ s < qsz
    · have hst : s ≠ t := by omega
      rw [if_pos hs, if_neg hst, if_pos ⟨by omega, hs.2⟩]
    · rw [if_neg hs]
      by_cases hst : s = t
      · rw [if_pos hst, if_pos ⟨hst.ge, hst ▸ htq⟩]
      · rw [if_neg hst, if_neg (by omega)]

/-- **Two records are swapped.** -/
theorem swap_eq (hi : 0 ≤ i ∧ i < n) (hj : 0 ≤ j ∧ j < n) (μ : Mem β) :
    ∃ μ', swap qsz n i j qsz 0 μ = some μ' ∧ record qsz μ' = record qsz μ ∘ Equiv.swap i j := by
  obtain ⟨μ', hswap, hμ'⟩ := swap_bytes hi hj (Nat.zero_add qsz) μ
  refine ⟨μ', hswap, ?_⟩
  funext k t
  exact (hμ' k t).trans (if_pos ⟨Nat.zero_le _, t.isLt⟩)

/-- One byte of the records from `p` to `m` goes up, and `c` comes in below. -/
theorem shiftByte_eq (c : β) (fuel : ℕ) (hp : 0 ≤ p) (hpm : p ≤ m) (hm : m < n) (ht : t < qsz)
    (hfuel : m - p < fuel) (μ : Mem β) : ∃ μ', shiftByte qsz n p t c fuel m μ = some μ' ∧
      ∀ k s, μ' k s = if s = t then
        if k = p then c else if p < k ∧ k ≤ m then μ (k - 1) t else μ k t else μ k s := by
  induction fuel generalizing m μ with
  | zero => omega
  | succ fuel ih =>
    have hin : 0 ≤ m ∧ m < n := ⟨by omega, hm⟩
    rw [shiftByte]
    by_cases hlt : p ≤ m - 1
    · obtain ⟨μ1, hs1, hμ₁⟩ := store_eq hin ht μ (μ (m - 1) t)
      obtain ⟨μ', hrun, hμ'⟩ := ih hlt (by omega) (by omega) μ1
      rw [if_pos hlt, load_eq ⟨by omega, by omega⟩ ht]
      simp only [bind_eq_bind, bind_some, hs1]
      refine ⟨μ', hrun, fun k s => ?_⟩
      rw [hμ', hμ₁, hμ₁, hμ₁]
      split_ifs <;> first | rfl | omega | simp_all
    · obtain rfl : m = p := by omega
      obtain ⟨μ1, hs1, hμ₁⟩ := store_eq hin ht μ c
      rw [if_neg hlt]
      refine ⟨μ1, hs1, fun k s => ?_⟩
      rw [hμ₁]
      split_ifs <;> first | rfl | omega | simp_all

/-- The bytes below the offset `t` have gone up. -/
theorem shift_bytes (hp : 0 ≤ p) (hpm : p ≤ m) (hm : m < n) (ht : t ≤ qsz) (μ : Mem β) :
    ∃ μ', shift qsz n p m t μ = some μ' ∧
      ∀ k s, μ' k s = if s < t then μ (Rearranged.insertion p m k) s else μ k s := by
  induction t generalizing μ with
  | zero => exact ⟨μ, rfl, fun k s => (if_neg (Nat.not_lt_zero s)).symm⟩
  | succ t ih =>
    obtain ⟨μ1, hbyte, hμ₁⟩ :=
      shiftByte_eq (μ m t) (n + 1) hp hpm hm (by omega : t < qsz) (by omega) μ
    obtain ⟨μ', hrun, hμ'⟩ := ih (by omega) μ1
    rw [shift, load_eq ⟨by omega, hm⟩ (by omega)]
    simp only [bind_eq_bind, bind_some, hbyte]
    refine ⟨μ', hrun, fun k s => ?_⟩
    rw [hμ']
    by_cases hs : s < t
    · rw [if_pos hs, if_pos (by omega), hμ₁, if_neg (by omega)]
    · rw [if_neg hs, hμ₁]
      by_cases hst : s = t
      · subst hst
        rw [if_pos rfl, if_pos (Nat.lt_succ_self s), Rearranged.insertion]
        split_ifs <;> rfl
      · rw [if_neg hst, if_neg (by omega)]

/-- **A record is inserted** below. -/
theorem shift_eq (hp : 0 ≤ p) (hpm : p ≤ m) (hm : m < n) (μ : Mem β) :
    ∃ μ', shift qsz n p m qsz μ = some μ' ∧
      record qsz μ' = record qsz μ ∘ Rearranged.insertion p m := by
  obtain ⟨μ', hrun, hμ'⟩ := shift_bytes hp hpm hm le_rfl μ
  refine ⟨μ', hrun, ?_⟩
  funext k t
  exact (hμ' k t).trans (if_pos t.isLt)

/-! ## Partitioning -/

section Sorting

variable {cmp : (Fin qsz → β) → (Fin qsz → β) → ℤ} {base mid max lo hi : ℤ} {fuel : ℕ}

theorem qcmp_eq (hi : 0 ≤ i ∧ i < n) (hj : 0 ≤ j ∧ j < n) (μ : Mem β) :
    qcmp cmp n μ i j = some (cmp (record qsz μ i) (record qsz μ j)) := if_pos ⟨hi, hj⟩

/-- A swap of records of a part. -/
theorem swap_rearranged {n : ℕ} (h0 : 0 ≤ base) (hmax : max ≤ n) (hi : base ≤ i ∧ i < max)
    (hj : base ≤ j ∧ j < max) (μ : Mem β) : ∃ μ', swap qsz n i j qsz 0 μ = some μ' ∧
      record qsz μ' = record qsz μ ∘ Equiv.swap i j ∧
      Rearranged base max (record qsz μ) (record qsz μ') := by
  obtain ⟨μ', hswap, hμ'⟩ := swap_eq (n := n) ⟨h0.trans hi.1, hi.2.trans_le hmax⟩
    ⟨h0.trans hj.1, hj.2.trans_le hmax⟩ μ
  refine ⟨μ', hswap, hμ', ?_⟩
  rw [hμ']
  exact Rearranged.swap hi hj

/-- The median only swaps. -/
theorem median_eq (h0 : 0 ≤ base) (hmax : max ≤ n) (hmid : base ≤ mid ∧ mid < max) (μ : Mem β) :
    ∃ μ', median cmp n μ base mid max = some μ' ∧
      Rearranged base max (record qsz μ) (record qsz μ') := by
  have hfirst : base ≤ base ∧ base < max := ⟨le_rfl, by omega⟩
  have hlast : base ≤ max - 1 ∧ max - 1 < max := by omega
  have hin : ∀ {k}, base ≤ k ∧ k < max → 0 ≤ k ∧ k < n := fun hk => by omega
  have hchoice : ∀ {k}, base ≤ k ∧ k < max → ∃ μ',
      (if k ≠ mid then swap qsz n mid k qsz 0 μ else some μ) = some μ' ∧
        Rearranged base max (record qsz μ) (record qsz μ') := by
    intro k hk
    split_ifs
    · obtain ⟨μ', hswap, -, hre⟩ := swap_rearranged h0 hmax hmid hk μ
      exact ⟨μ', hswap, hre⟩
    · exact ⟨μ, rfl, Rearranged.refl _ _ _⟩
  rw [median, qcmp_eq (hin hfirst) (hin hmid)]
  simp only [bind_eq_bind, bind_some]
  generalize hj : (if 0 < cmp (record qsz μ base) (record qsz μ mid) then base else mid) = j
  have hjin : base ≤ j ∧ j < max := by
    rw [← hj]
    split_ifs
    · exact hfirst
    · exact hmid
  rw [qcmp_eq (hin hjin) (hin hlast)]
  simp only [bind_some]
  by_cases hbig : 0 < cmp (record qsz μ j) (record qsz μ (max - 1))
  · rw [if_pos hbig]
    generalize hj' : (if j = base then mid else base) = j'
    have hjin' : base ≤ j' ∧ j' < max := by
      rw [← hj']
      split_ifs
      · exact hmid
      · exact hfirst
    rw [qcmp_eq (hin hjin') (hin hlast)]
    apply hchoice
    split_ifs
    · exact hlast
    · exact hjin'
  · rw [if_neg hbig]
    exact hchoice hjin

/-- The scan from below stops at the discriminator, or at a record above it. -/
theorem scanUp_eq (fuel : ℕ) (h0 : 0 ≤ base) (hmid : mid < n) (hi : base ≤ i) (him : i ≤ mid)
    (hle : ∀ k, base ≤ k → k < i → cmp (record qsz μ k) (record qsz μ mid) ≤ 0)
    (hfuel : mid - i < fuel) : ∃ i', scanUp cmp n μ mid fuel i = some i' ∧ i ≤ i' ∧ i' ≤ mid ∧
      (∀ k, base ≤ k → k < i' → cmp (record qsz μ k) (record qsz μ mid) ≤ 0) ∧
      (i' = mid ∨ 0 < cmp (record qsz μ i') (record qsz μ mid)) := by
  induction fuel generalizing i with
  | zero => omega
  | succ fuel ih =>
    rw [scanUp]
    rcases eq_or_lt_of_le him with rfl | hlt
    · rw [if_neg (lt_irrefl _)]
      exact ⟨i, rfl, le_rfl, le_rfl, hle, Or.inl rfl⟩
    rw [if_pos hlt, qcmp_eq ⟨by omega, by omega⟩ ⟨by omega, hmid⟩]
    simp only [bind_eq_bind, bind_some]
    split_ifs with hc
    · have hle' : ∀ k, base ≤ k → k < i + 1 → cmp (record qsz μ k) (record qsz μ mid) ≤ 0 := by
        intro k hk hki
        rcases eq_or_ne k i with rfl | hne
        · exact hc
        · exact hle k hk (by omega)
      obtain ⟨i', hscan, hi', hrest⟩ := ih (by omega) (by omega) hle' (by omega)
      exact ⟨i', hscan, by omega, hrest⟩
    · exact ⟨i, rfl, le_rfl, him, hle, Or.inr (not_le.mp hc)⟩

/-- The scan from above stops at the discriminator, or at a record below it. -/
theorem scanDown_eq (fuel : ℕ) (h0 : 0 ≤ mid) (hmax : max ≤ n) (hj : j < max) (hmj : mid ≤ j)
    (hge : ∀ k, j < k → k < max → cmp (record qsz μ mid) (record qsz μ k) ≤ 0)
    (hfuel : j - mid < fuel) : ∃ j', scanDown cmp n μ mid fuel j = some j' ∧ mid ≤ j' ∧ j' ≤ j ∧
      (∀ k, j' < k → k < max → cmp (record qsz μ mid) (record qsz μ k) ≤ 0) ∧
      (j' = mid ∨ 0 < cmp (record qsz μ mid) (record qsz μ j')) := by
  induction fuel generalizing j with
  | zero => omega
  | succ fuel ih =>
    rw [scanDown]
    rcases eq_or_lt_of_le hmj with rfl | hlt
    · rw [if_neg (lt_irrefl _)]
      exact ⟨mid, rfl, le_rfl, le_rfl, hge, Or.inl rfl⟩
    rw [if_pos hlt, qcmp_eq ⟨h0, by omega⟩ ⟨by omega, by omega⟩]
    simp only [bind_eq_bind, bind_some]
    split_ifs with hc
    · have hge' : ∀ k, j - 1 < k → k < max → cmp (record qsz μ mid) (record qsz μ k) ≤ 0 := by
        intro k hk hkm
        rcases eq_or_ne k j with rfl | hne
        · exact hc
        · exact hge k (by omega) hkm
      obtain ⟨j', hscan, hmj', hj', hrest⟩ := ih (by omega) (by omega) hge' (by omega)
      exact ⟨j', hscan, hmj', by omega, hrest⟩
    · exact ⟨j, rfl, hmj, le_rfl, hge, Or.inr (not_le.mp hc)⟩

/-- Nothing from `base` to `m` is above the record at `m`, and nothing from there to `max` below. -/
def Split (cmp : (Fin qsz → β) → (Fin qsz → β) → ℤ) (base i mid j max : ℤ)
    (a : ℤ → Fin qsz → β) : Prop :=
  (∀ k, base ≤ k → k < i → cmp (a k) (a mid) ≤ 0) ∧ ∀ k, j < k → k < max → cmp (a mid) (a k) ≤ 0

/-- **The partition loop** ends with the part split at the discriminator. -/
theorem split_eq (hcmp : Compares cmp) (fuel : ℕ) (h0 : 0 ≤ base) (hmax : max ≤ n) (hi : base ≤ i)
    (him : i ≤ mid) (hmj : mid ≤ j) (hj : j < max)
    (hs : Split cmp base i mid j max (record qsz μ)) (hfuel : j - i < fuel) :
    ∃ m μ', split cmp n fuel i j mid μ = some (m, μ') ∧ (base ≤ m ∧ m < max) ∧
      Rearranged base max (record qsz μ) (record qsz μ') ∧
      Split cmp base m m m max (record qsz μ') := by
  induction fuel generalizing i j mid μ with
  | zero => omega
  | succ fuel ih =>
    obtain ⟨hle, hge⟩ := hs
    obtain ⟨i', hup, hi', him', hle', hstop⟩ :=
      scanUp_eq (n := n) (n + 1) h0 (by omega) hi him hle (by omega)
    obtain ⟨j', hdown, hmj', hj', hge', hstop'⟩ :=
      scanDown_eq (n := n) (n + 1) (by omega) hmax hj hmj hge (by omega)
    rw [split, hup]
    simp only [bind_eq_bind, bind_some, hdown]
    by_cases hlt : mid < j'
    · -- a record below the discriminator goes to `i'`
      have hbelow := hcmp.le_of_gt (hstop'.resolve_left (by omega))
      obtain ⟨μ1, hswap, hμ₁, hre⟩ := swap_rearranged (n := n) h0 hmax
        (i := i') (j := j') ⟨by omega, by omega⟩ ⟨by omega, by omega⟩ μ
      have hi1 : record qsz μ1 i' = record qsz μ j' := by
        rw [hμ₁, comp_apply, Equiv.swap_apply_left]
      have hj1 : record qsz μ1 j' = record qsz μ i' := by
        rw [hμ₁, comp_apply, Equiv.swap_apply_right]
      have hother : ∀ k, k ≠ i' → k ≠ j' → record qsz μ1 k = record qsz μ k := by
        intro k hki hkj
        rw [hμ₁, comp_apply, Equiv.swap_apply_of_ne_of_ne hki hkj]
      rw [if_pos hlt, hswap]
      simp only [bind_some]
      by_cases himid : i' = mid
      · subst himid
        rw [if_pos rfl]
        have hsplit : Split cmp base (i' + 1) j' j' max (record qsz μ1) := by
          constructor
          · intro k hk hki
            rw [hj1]
            rcases eq_or_ne k i' with rfl | hne
            · rw [hi1]
              exact hbelow
            · rw [hother k hne (by omega)]
              exact hle' k hk (by omega)
          · intro k hk hkm
            rw [hj1, hother k (by omega) (by omega)]
            exact hge' k hk hkm
        obtain ⟨m, μ', hrun, hm, hre', hs'⟩ :=
          ih (by omega) (by omega) le_rfl (by omega) hsplit (by omega)
        exact ⟨m, μ', hrun, hm, hre.trans hre', hs'⟩
      · have habove := hcmp.le_of_gt (hstop.resolve_left himid)
        rw [if_neg himid]
        have hsplit : Split cmp base (i' + 1) mid (j' - 1) max (record qsz μ1) := by
          rw [Split, hother mid (Ne.symm himid) (by omega)]
          constructor
          · intro k hk hki
            rcases eq_or_ne k i' with rfl | hne
            · rw [hi1]
              exact hbelow
            · rw [hother k hne (by omega)]
              exact hle' k hk (by omega)
          · intro k hk hkm
            rcases eq_or_ne k j' with rfl | hne
            · rw [hj1]
              exact habove
            · rw [hother k (by omega) hne]
              exact hge' k (by omega) hkm
        obtain ⟨m, μ', hrun, hm, hre', hs'⟩ :=
          ih (by omega) (by omega) (by omega) (by omega) hsplit (by omega)
        exact ⟨m, μ', hrun, hm, hre.trans hre', hs'⟩
    · obtain rfl : j' = mid := by omega
      rw [if_neg hlt]
      by_cases himid : i' = j'
      · subst himid
        rw [if_pos rfl]
        exact ⟨i', μ, rfl, ⟨by omega, by omega⟩, Rearranged.refl _ _ _, hle', hge'⟩
      · -- the discriminator goes to `i'`
        have habove := hcmp.le_of_gt (hstop.resolve_left himid)
        obtain ⟨μ1, hswap, hμ₁, hre⟩ := swap_rearranged (n := n) h0 hmax
          (i := i') (j := j') ⟨by omega, by omega⟩ ⟨by omega, by omega⟩ μ
        have hi1 : record qsz μ1 i' = record qsz μ j' := by
          rw [hμ₁, comp_apply, Equiv.swap_apply_left]
        have hj1 : record qsz μ1 j' = record qsz μ i' := by
          rw [hμ₁, comp_apply, Equiv.swap_apply_right]
        have hother : ∀ k, k ≠ i' → k ≠ j' → record qsz μ1 k = record qsz μ k := by
          intro k hki hkj
          rw [hμ₁, comp_apply, Equiv.swap_apply_of_ne_of_ne hki hkj]
        rw [if_neg himid, hswap]
        have hsplit : Split cmp base i' i' (j' - 1) max (record qsz μ1) := by
          rw [Split, hi1]
          constructor
          · intro k hk hki
            rw [hother k (by omega) (by omega)]
            exact hle' k hk hki
          · intro k hk hkm
            rcases eq_or_ne k j' with rfl | hne
            · rw [hj1]
              exact habove
            · rw [hother k (by omega) hne]
              exact hge' k (by omega) hkm
        obtain ⟨m, μ', hrun, hm, hre', hs'⟩ :=
          ih (by omega) le_rfl (by omega) (by omega) hsplit (by omega)
        exact ⟨m, μ', hrun, hm, hre.trans hre', hs'⟩

/-! ## The recursion -/

/-- The smallest record of a part is among its first `THRESH`. -/
def Least (cmp : (Fin qsz → β) → (Fin qsz → β) → ℤ) (base max : ℤ) (a : ℤ → Fin qsz → β) : Prop :=
  ∃ k, (base ≤ k ∧ k < max ∧ k < base + THRESH) ∧ ∀ m, base ≤ m → m < max → cmp (a k) (a m) ≤ 0

variable {a b : ℤ → Fin qsz → β}

theorem Split.left (h : Split cmp base mid mid mid max a) (hre : Rearranged base mid a b) :
    Split cmp base mid mid mid max b := by
  have hmid : b mid = a mid := hre.outside (by omega)
  refine ⟨fun k hk hkm => ?_, fun k hk hkm => ?_⟩
  · rw [hmid]
    exact hre.forall_entry (P := fun x => cmp x (a mid) ≤ 0) h.1 k hk hkm
  · rw [hmid, hre.outside (by omega)]
    exact h.2 k hk hkm

theorem Split.right (h : Split cmp base mid mid mid max a) (hre : Rearranged (mid + 1) max a b) :
    Split cmp base mid mid mid max b := by
  have hmid : b mid = a mid := hre.outside (by omega)
  refine ⟨fun k hk hkm => ?_, fun k hk hkm => ?_⟩
  · rw [hmid, hre.outside (by omega)]
    exact h.1 k hk hkm
  · rw [hmid]
    exact hre.forall_entry (P := fun x => cmp (a mid) x ≤ 0) (fun m hm => h.2 m (by omega)) k
      (by omega) hkm

theorem Least.congr (h : Least cmp base max a) (heq : ∀ k, base ≤ k → k < max → b k = a k) :
    Least cmp base max b := by
  obtain ⟨k, hk, hleast⟩ := h
  refine ⟨k, hk, fun m hm hm' => ?_⟩
  rw [heq k hk.1 hk.2.1, heq m hm hm']
  exact hleast m hm hm'

/-- The smallest on the left of the discriminator is the smallest, or the discriminator is. -/
theorem Split.least (hcmp : Compares cmp) (h : Split cmp base mid mid mid max a)
    (hm : base ≤ mid ∧ mid < max) (hleft : base < mid → Least cmp base mid a) :
    Least cmp base max a := by
  rcases eq_or_lt_of_le hm.1 with rfl | hlt
  · refine ⟨base, ⟨le_rfl, hm.2, by rw [THRESH]; omega⟩, fun m hbm hmm => ?_⟩
    rcases eq_or_lt_of_le hbm with rfl | hlt
    · exact hcmp.refl _
    · exact h.2 m hlt hmm
  · obtain ⟨k, hk, hleast⟩ := hleft hlt
    refine ⟨k, ⟨hk.1, hk.2.1.trans hm.2, hk.2.2⟩, fun m hbm hmm => ?_⟩
    rcases lt_trichotomy m mid with hmlt | rfl | hmgt
    · exact hleast m hbm hmlt
    · exact h.1 k hk.1 hk.2.1
    · exact hcmp.trans _ _ _ (h.1 k hk.1 hk.2.1) (h.2 m hmgt hmm)

/-- What one call of `qst` is to do. -/
def Sifts (cmp : (Fin qsz → β) → (Fin qsz → β) → ℤ) (base max : ℤ) (μ : Mem β)
    (r : Option (Mem β)) : Prop :=
  ∃ μ', r = some μ' ∧ Rearranged base max (record qsz μ) (record qsz μ') ∧
    (base < max → Least cmp base max (record qsz μ'))

/-- A short part is left alone. -/
theorem sifts_short (hcmp : Compares cmp) (h : ¬THRESH ≤ max - base) (μ : Mem β) :
    Sifts cmp base max μ (some μ) := by
  refine ⟨μ, rfl, Rearranged.refl _ _ _, fun hlt => ?_⟩
  obtain ⟨k, hk, hleast⟩ := hcmp.exists_least (record qsz μ) (max - base - 1).toNat base
  rw [THRESH] at h
  refine ⟨k, ⟨hk.1, by omega, by rw [THRESH]; omega⟩, fun m hm hm' => hleast m hm (by omega)⟩

/-- **`qst` ends**, moves the records of its part only, and brings the smallest near the front. -/
theorem qst_eq (hcmp : Compares cmp) (fuel : ℕ) :
    ∀ (base max : ℤ) (μ : Mem β), 0 ≤ base → base < max → max ≤ n → max - base < fuel →
      Sifts cmp base max μ (qst cmp n fuel base max μ) := by
  induction fuel with
  | zero => exact fun base max μ _ hlt _ hfuel => by omega
  | succ fuel ih =>
    intro base max μ h0 hlt hmax hfuel
    have hsub : ∀ (lo hi : ℤ) (μ : Mem β), base ≤ lo → hi ≤ max → hi - lo < max - base →
        Sifts cmp lo hi μ (if THRESH ≤ hi - lo then qst cmp n fuel lo hi μ else some μ) := by
      intro lo hi μ hlo hhi hsize
      by_cases hlong : THRESH ≤ hi - lo
      · rw [if_pos hlong]
        rw [THRESH] at hlong
        exact ih lo hi μ (by omega) (by omega) (by omega) (by omega)
      · rw [if_neg hlong]
        exact sifts_short hcmp hlong μ
    have hmed : ∃ μ0, (if MTHRESH ≤ max - base then
          median cmp n μ base (base + (max - base) / 2) max else some μ) = some μ0 ∧
        Rearranged base max (record qsz μ) (record qsz μ0) := by
      split_ifs
      · exact median_eq h0 hmax (by omega) μ
      · exact ⟨μ, rfl, Rearranged.refl _ _ _⟩
    obtain ⟨μ0, hμ₀, hre0⟩ := hmed
    have hnone : Split cmp base base (base + (max - base) / 2) (max - 1) max (record qsz μ0) :=
      ⟨fun k hk hk' => by omega, fun k hk hk' => by omega⟩
    obtain ⟨mid, μ1, hsplit, hmid, hre1, hs1⟩ :=
      split_eq (n := n) hcmp (n + 1) h0 hmax le_rfl (by omega) (by omega) (by omega) hnone
        (by omega)
    rw [qst, hμ₀]
    simp only [bind_eq_bind, bind_some, hsplit]
    have hre := hre0.trans hre1
    by_cases hsize : mid - base ≤ max - (mid + 1)
    · -- the left part, and then the right one
      rw [if_pos hsize]
      obtain ⟨μ2, hleft, hre2, hl2⟩ := hsub base mid μ1 le_rfl (by omega) (by omega)
      obtain ⟨μ3, hright, hre3, -⟩ := hsub (mid + 1) max μ2 (by omega) le_rfl (by omega)
      rw [hleft]
      refine ⟨μ3, hright, (hre.trans (hre2.mono le_rfl (by omega))).trans
        (hre3.mono (by omega) le_rfl), fun _ => ?_⟩
      refine ((hs1.left hre2).right hre3).least hcmp hmid fun hbm => ?_
      exact (hl2 hbm).congr fun k _ hkm => hre3.outside (by omega)
    · -- the right part, and then the left one
      rw [if_neg hsize]
      obtain ⟨μ2, hright, hre2, -⟩ := hsub (mid + 1) max μ1 (by omega) le_rfl (by omega)
      obtain ⟨μ3, hleft, hre3, hl3⟩ := hsub base mid μ2 le_rfl (by omega) (by omega)
      rw [hright]
      refine ⟨μ3, hleft, (hre.trans (hre2.mono (by omega) le_rfl)).trans
        (hre3.mono le_rfl (by omega)), fun _ => ?_⟩
      exact ((hs1.right hre2).left hre3).least hcmp hmid hl3

/-! ## The insertion sort -/

/-- The search for the smallest of the first records. -/
theorem smallest_eq (hcmp : Compares cmp) (hhi : hi ≤ n) (fuel : ℕ) (h0 : 0 ≤ j)
    (hj : j < lo) (hlo : lo ≤ hi)
    (hleast : ∀ k, 0 ≤ k → k < lo → cmp (record qsz μ j) (record qsz μ k) ≤ 0)
    (hfuel : hi - lo < fuel) : ∃ j', smallest cmp n μ hi fuel j lo = some j' ∧
      (0 ≤ j' ∧ j' < hi) ∧ ∀ k, 0 ≤ k → k < hi → cmp (record qsz μ j') (record qsz μ k) ≤ 0 := by
  induction fuel generalizing j lo with
  | zero => omega
  | succ fuel ih =>
    rw [smallest]
    rcases eq_or_lt_of_le hlo with rfl | hlt
    · rw [if_neg (lt_irrefl _)]
      exact ⟨j, rfl, ⟨h0, hj⟩, hleast⟩
    rw [if_pos hlt, qcmp_eq ⟨h0, by omega⟩ ⟨by omega, by omega⟩]
    simp only [bind_eq_bind, bind_some]
    split_ifs with hc
    · refine ih (by omega) (by omega) (by omega) (fun k hk hkl => ?_) (by omega)
      rcases eq_or_ne k lo with rfl | hne
      · exact hcmp.refl _
      · exact hcmp.trans _ _ _ (hcmp.le_of_gt hc) (hleast k hk (by omega))
    · refine ih h0 (by omega) (by omega) (fun k hk hkl => ?_) (by omega)
      rcases eq_or_ne k lo with rfl | hne
      · exact not_lt.mp hc
      · exact hleast k hk (by omega)

/-- **The unguarded search** stops, at the first record at the latest. -/
theorem seek_eq (h0 : 0 ≤ m) (hm : m < n)
    (hsentinel : cmp (record qsz μ 0) (record qsz μ m) ≤ 0) (fuel : ℕ) (hh : 0 < hi) (hhm : hi ≤ m)
    (habove : ∀ k, hi ≤ k → k < m → 0 < cmp (record qsz μ k) (record qsz μ m))
    (hfuel : hi < fuel + 1) : ∃ p, seek cmp n μ m fuel hi = some p ∧ (0 ≤ p ∧ p < m) ∧
      cmp (record qsz μ p) (record qsz μ m) ≤ 0 ∧
      ∀ k, p < k → k < m → 0 < cmp (record qsz μ k) (record qsz μ m) := by
  induction fuel generalizing hi with
  | zero => omega
  | succ fuel ih =>
    rw [seek, qcmp_eq ⟨by omega, by omega⟩ ⟨h0, hm⟩]
    simp only [bind_eq_bind, bind_some]
    split_ifs with hc
    · have hpos : 0 < hi - 1 := by
        by_contra hnot
        obtain rfl : hi = 1 := by omega
        exact absurd hc (not_lt.mpr hsentinel)
      refine ih hpos (by omega) (fun k hk hkm => ?_) (by omega)
      rcases eq_or_ne k (hi - 1) with rfl | hne
      · exact hc
      · exact habove k (by omega) hkm
    · exact ⟨hi - 1, rfl, by omega, not_lt.mp hc, fun k hk hkm => habove k (by omega) hkm⟩

/-- The records before `m` are in order, and none of all is below the first. -/
structure Sorted (cmp : (Fin qsz → β) → (Fin qsz → β) → ℤ) (n : ℕ) (m : ℤ)
    (a : ℤ → Fin qsz → β) : Prop where
  order : ∀ i j, 0 ≤ i → i < j → j < m → cmp (a i) (a j) ≤ 0
  first : ∀ k : ℤ, 0 ≤ k → k < n → cmp (a 0) (a k) ≤ 0

/-- One more record in order. -/
theorem Sorted.insert (hcmp : Compares cmp) (h : Sorted cmp n m a) (hp : 0 ≤ p ∧ p < m) (hm : m < n)
    (hle : cmp (a p) (a m) ≤ 0) (habove : ∀ k, p < k → k < m → 0 < cmp (a k) (a m)) :
    Sorted cmp n (m + 1) (a ∘ Rearranged.insertion (p + 1) m) := by
  have hbefore : ∀ k, 0 ≤ k → k ≤ p → cmp (a k) (a m) ≤ 0 := by
    intro k hk hkp
    rcases eq_or_lt_of_le hkp with rfl | hlt
    · exact hle
    · exact hcmp.trans _ _ _ (h.order k p hk hlt hp.2) hle
  constructor
  · intro i j hi hij hj
    simp only [comp_apply, Rearranged.insertion]
    split_ifs with h1 h2 h3 h4 h5 h6 h7
    · omega
    · exact hcmp.le_of_gt (habove _ (by omega) (by omega))
    · omega
    · omega
    · exact h.order _ _ (by omega) (by omega) (by omega)
    · omega
    · exact hbefore i hi (by omega)
    · exact h.order _ _ hi (by omega) (by omega)
    · exact h.order _ _ hi hij (by omega)
  · intro k hk hkn
    simp only [comp_apply, Rearranged.insertion]
    rw [if_neg (by omega), if_neg (by omega)]
    split_ifs
    · exact h.first m (by omega) hm
    · exact h.first _ (by omega) (by omega)
    · exact h.first k hk hkn

/-- **The insertion sort** puts all records in order. -/
theorem insertAll_eq (hcmp : Compares cmp) (fuel : ℕ) (h0 : 1 ≤ m) (hm : m ≤ n)
    (h : Sorted cmp n m (record qsz μ)) (hfuel : n - m < fuel) :
    ∃ μ', insertAll cmp n fuel m μ = some μ' ∧
      Rearranged 0 n (record qsz μ) (record qsz μ') ∧ Sorted cmp n n (record qsz μ') := by
  induction fuel generalizing m μ with
  | zero => omega
  | succ fuel ih =>
    rw [insertAll]
    rcases eq_or_lt_of_le hm with rfl | hlt
    · rw [if_neg (lt_irrefl _)]
      exact ⟨μ, rfl, Rearranged.refl _ _ _, h⟩
    obtain ⟨p, hseek, hp, hle, habove⟩ := seek_eq (n := n) (by omega) hlt (h.first m (by omega) hlt)
      (n + 1) (by omega) le_rfl (fun k hk hkm => by omega) (by omega)
    have hsorted := h.insert hcmp hp hlt hle habove
    rw [if_pos hlt, hseek]
    simp only [bind_eq_bind, bind_some]
    by_cases hstay : p + 1 = m
    · rw [if_neg (not_not.mpr hstay)]
      have hsame : record qsz μ ∘ Rearranged.insertion (p + 1) m = record qsz μ := by
        funext k
        simp only [comp_apply, Rearranged.insertion]
        split_ifs with h1 h2
        · rw [h1, hstay]
        · omega
        · rfl
      rw [hsame] at hsorted
      exact ih (by omega) (by omega) hsorted (by omega)
    · obtain ⟨μ1, hshift, hμ₁⟩ := shift_eq (n := n) (p := p + 1) (by omega) (by omega) hlt μ
      rw [if_pos hstay, hshift]
      rw [← hμ₁] at hsorted
      obtain ⟨μ', hrun, hre, hs'⟩ := ih (by omega) (by omega) hsorted (by omega)
      refine ⟨μ', hrun, Rearranged.trans ?_ hre, hs'⟩
      rw [hμ₁]
      exact Rearranged.insert (by omega) (by omega) hlt

/-! ## The sort -/

/-- The smallest record is among those that are searched for the sentinel. -/
theorem sentinel (hcmp : Compares cmp) (hn : 1 < n) (h : THRESH ≤ n →
    Least cmp 0 n (record qsz μ)) :
    ∃ j, smallest cmp n μ (if THRESH ≤ n then THRESH else n) (n + 1) 0 1 = some j ∧
      (0 ≤ j ∧ j < n) ∧ ∀ k : ℤ, 0 ≤ k → k < n → cmp (record qsz μ j) (record qsz μ k) ≤ 0 := by
  have hfirst : ∀ k, 0 ≤ k → k < 1 → cmp (record qsz μ 0) (record qsz μ k) ≤ 0 := by
    intro k hk hk'
    obtain rfl : k = 0 := by omega
    exact hcmp.refl _
  by_cases hlong : THRESH ≤ n
  · rw [if_pos hlong]
    obtain ⟨k, ⟨hk, hkn, hkt⟩, hleast⟩ := h hlong
    obtain ⟨j, hj, hjin, hmin⟩ := smallest_eq (n := n) hcmp hlong (n + 1) le_rfl zero_lt_one
      (by rw [THRESH]; omega) hfirst (by rw [THRESH] at hlong ⊢; omega)
    refine ⟨j, hj, ⟨hjin.1, hjin.2.trans_le hlong⟩, fun m hm hmn => ?_⟩
    exact hcmp.trans _ _ _ (hmin k hk (by omega)) (hleast m hm hmn)
  · rw [if_neg hlong]
    exact smallest_eq hcmp le_rfl (n + 1) le_rfl zero_lt_one (by omega) hfirst (by omega)

/-- **`qsort` sorts**: it ends without leaving the array, the records are the old ones in another
order, and none is above a later one; and `qst` brings the smallest among the first `THRESH`. -/
theorem qsort_sorts (hcmp : Compares cmp) (n : ℕ) (μ : Mem β) :
    (∃ μ', qsort cmp n μ = some μ' ∧ Rearranged 0 n (record qsz μ) (record qsz μ') ∧
      ∀ i j : ℤ, 0 ≤ i → i < j → j < n → cmp (record qsz μ' i) (record qsz μ' j) ≤ 0) ∧
    (THRESH ≤ n → ∃ μ', qst cmp n (n + 1) 0 n μ = some μ' ∧ Least cmp 0 n (record qsz μ')) := by
  have hqst : THRESH ≤ n → ∃ μ', qst cmp n (n + 1) 0 n μ = some μ' ∧
      Rearranged 0 n (record qsz μ) (record qsz μ') ∧ Least cmp 0 n (record qsz μ') := by
    intro hlong
    rw [THRESH] at hlong
    obtain ⟨μ', hrun, hre, hleast⟩ :=
      qst_eq (n := n) hcmp (n + 1) 0 n μ le_rfl (by omega) le_rfl (by omega)
    exact ⟨μ', hrun, hre, hleast (by omega)⟩
  refine ⟨?_, fun hlong => ?_⟩
  · rw [qsort]
    by_cases hn : n ≤ 1
    · rw [if_pos hn]
      exact ⟨μ, rfl, Rearranged.refl _ _ _, fun i j hi hij hj => by omega⟩
    have hpre : ∃ μ1, (if THRESH ≤ n then qst cmp n (n + 1) 0 n μ else some μ) = some μ1 ∧
        Rearranged 0 n (record qsz μ) (record qsz μ1) ∧
        (THRESH ≤ n → Least cmp 0 n (record qsz μ1)) := by
      by_cases hlong : THRESH ≤ n
      · obtain ⟨μ1, hrun, hre, hleast⟩ := hqst hlong
        rw [if_pos hlong]
        exact ⟨μ1, hrun, hre, fun _ => hleast⟩
      · rw [if_neg hlong]
        exact ⟨μ, rfl, Rearranged.refl _ _ _, fun h => absurd h hlong⟩
    obtain ⟨μ1, hrun1, hre1, hleast1⟩ := hpre
    obtain ⟨j, hj, hjin, hmin⟩ := sentinel (n := n) hcmp (by omega) hleast1
    -- the smallest record is put first
    have hput : ∃ μ2, (if j ≠ 0 then swap qsz n j 0 qsz 0 μ1 else some μ1) = some μ2 ∧
        Rearranged 0 n (record qsz μ1) (record qsz μ2) ∧
        record qsz μ2 0 = record qsz μ1 j := by
      by_cases hj0 : j = 0
      · rw [if_neg (not_not.mpr hj0), hj0]
        exact ⟨μ1, rfl, Rearranged.refl _ _ _, rfl⟩
      · obtain ⟨μ2, hswap, hμ₂, hre⟩ :=
          swap_rearranged (n := n) le_rfl le_rfl hjin ⟨le_rfl, by omega⟩ μ1
        rw [if_pos hj0]
        refine ⟨μ2, hswap, hre, ?_⟩
        rw [hμ₂, Function.comp_apply, Equiv.swap_apply_right]
    obtain ⟨μ2, hrun2, hre2, hfirst⟩ := hput
    have hsorted : Sorted cmp n 1 (record qsz μ2) := by
      refine ⟨fun i j hi hij hj => by omega, ?_⟩
      rw [hfirst]
      exact hre2.forall_entry (P := fun x => cmp (record qsz μ1 j) x ≤ 0) hmin
    obtain ⟨μ', hrun, hre, hs⟩ := insertAll_eq hcmp (n + 1) le_rfl (by omega) hsorted (by omega)
    rw [if_neg hn, hrun1]
    simp only [Option.bind_eq_bind, Option.bind_some, hj, hrun2]
    exact ⟨μ', hrun, (hre1.trans hre2).trans hre, hs.order⟩
  · obtain ⟨μ', hrun, -, hleast⟩ := hqst hlong
    exact ⟨μ', hrun, hleast⟩

/-- Records of two bytes, by the first. -/
def byFirst (x y : Fin 2 → ℤ) : ℤ := x 0 - y 0

theorem compares_byFirst : Compares byFirst where
  turn x y := by
    rw [byFirst, byFirst]
    omega
  trans x y z hxy hyz := by
    rw [byFirst] at *
    omega

/-- Five records. -/
def five : Mem ℤ := fun k t => if t = 0 then 7 * k % 5 else k

theorem qsort_sorts_five :
    (∃ μ', qsort byFirst 5 five = some μ' ∧ Rearranged 0 (5 : ℕ) (record 2 five) (record 2 μ') ∧
      ∀ i j : ℤ, 0 ≤ i → i < j → j < (5 : ℕ) → byFirst (record 2 μ' i) (record 2 μ' j) ≤ 0) ∧
    (THRESH ≤ (5 : ℕ) → ∃ μ', qst byFirst 5 6 0 (5 : ℕ) five = some μ' ∧
      Least byFirst 0 (5 : ℕ) (record 2 μ')) :=
  qsort_sorts compares_byFirst 5 five

end Sorting

end Qsort
