/-
# Maximal runs in a window of a bit map

A window is a function `f : ℕ → Bool` looked at on `[0, n)`.  `IsRun f n p k`
says that the bits from `p` on, `k` of them, are a maximal run of set bits of the
window, and `runs f n k` counts the maximal runs of length `k`.  Clearing the
head of a maximal run leaves every other run as it was, so one run is replaced by
its remainder (`runs_clearHead`); a window that is all set, or all clear but for
its tail, has a single run.
-/
import Mathlib.Algebra.BigOperators.Ring.Finset
import Mathlib.Tactic.Ring

/-- A maximal run of `k` set bits at `p` in the window `[0, n)`. -/
def IsRun (f : ℕ → Bool) (n p k : ℕ) : Prop :=
  0 < k ∧ p + k ≤ n ∧ (∀ j < k, f (p + j) = true) ∧
    (p = 0 ∨ f (p - 1) = false) ∧ (p + k = n ∨ f (p + k) = false)

instance (f : ℕ → Bool) (n p k : ℕ) : Decidable (IsRun f n p k) :=
  inferInstanceAs (Decidable (_ ∧ _))

/-- The number of maximal runs of exactly `k` set bits. -/
def runs (f : ℕ → Bool) (n k : ℕ) : ℕ :=
  ((Finset.range n).filter fun p => IsRun f n p k).card

/-- The map `f` with the bits of `[p, p + m)` cleared. -/
def clearBits (f : ℕ → Bool) (p m : ℕ) : ℕ → Bool :=
  fun i => if p ≤ i ∧ i < p + m then false else f i

variable {f g : ℕ → Bool} {n p k r m : ℕ}

theorem isRun_congr (h : ∀ i < n, f i = g i) : IsRun f n p k ↔ IsRun g n p k := by
  constructor
  · rintro ⟨hk, hn, hbits, hl, hr⟩
    refine ⟨hk, hn, fun j hj => ?_, ?_, ?_⟩
    · rw [← h _ (by omega)]
      exact hbits j hj
    · exact hl.imp id fun hl => by rw [← h _ (by omega)]; exact hl
    · by_cases he : p + k = n
      · exact .inl he
      · refine .inr ?_
        rw [← h _ (by omega)]
        exact hr.resolve_left he
  · rintro ⟨hk, hn, hbits, hl, hr⟩
    refine ⟨hk, hn, fun j hj => ?_, ?_, ?_⟩
    · rw [h _ (by omega)]
      exact hbits j hj
    · exact hl.imp id fun hl => by rw [h _ (by omega)]; exact hl
    · by_cases he : p + k = n
      · exact .inl he
      · refine .inr ?_
        rw [h _ (by omega)]
        exact hr.resolve_left he

/-- The count looks at the window only. -/
theorem runs_congr (h : ∀ i < n, f i = g i) : runs f n k = runs g n k := by
  unfold runs
  congr 1
  apply Finset.filter_congr
  intro p _
  exact isRun_congr h

/-- Two maximal runs with a common bit are one. -/
theorem IsRun.unique {q l i : ℕ} (h1 : IsRun f n p k) (h2 : IsRun f n q l)
    (hp : p ≤ i ∧ i < p + k) (hq : q ≤ i ∧ i < q + l) : p = q ∧ k = l := by
  obtain ⟨-, hn1, hb1, hl1, hr1⟩ := h1
  obtain ⟨-, hn2, hb2, hl2, hr2⟩ := h2
  have hpq : p = q := by
    rcases Nat.lt_trichotomy p q with hlt | he | hlt
    · have h := hb1 (q - 1 - p) (by lia)
      rw [show p + (q - 1 - p) = q - 1 by lia] at h
      rcases hl2 with h0 | h0
      · lia
      · simp [h] at h0
    · exact he
    · have h := hb2 (p - 1 - q) (by lia)
      rw [show q + (p - 1 - q) = p - 1 by lia] at h
      rcases hl1 with h0 | h0
      · lia
      · simp [h] at h0
  subst hpq
  refine ⟨rfl, ?_⟩
  rcases Nat.lt_trichotomy k l with hlt | he | hlt
  · have h := hb2 k hlt
    rcases hr1 with h0 | h0
    · lia
    · simp [h] at h0
  · exact he
  · have h := hb1 l hlt
    rcases hr2 with h0 | h0
    · lia
    · simp [h] at h0

/-- Clearing the head of a maximal run: the other runs stay, and what is left of
this one is a run of its own. -/
theorem isRun_clearHead (h : IsRun f n p r) (hm : 0 < m) (hmr : m ≤ r) (q : ℕ) :
    IsRun (clearBits f p m) n q k ↔
      (q = p + m ∧ k = r - m ∧ m < r) ∨ (IsRun f n q k ∧ q ≠ p) := by
  have hrun := h
  obtain ⟨-, hn, hb, hl, hr⟩ := h
  have hclr : ∀ i, p ≤ i → i < p + m → clearBits f p m i = false := by
    intro i h1 h2
    exact if_pos ⟨h1, h2⟩
  have hkeep : ∀ i, i < p ∨ p + m ≤ i → clearBits f p m i = f i := by
    intro i h1
    exact if_neg (by lia)
  constructor
  · intro hq
    obtain ⟨hk, hqn, hqb, hql, hqr⟩ := hq
    -- no bit of the run lies in the cleared part
    have hout : ∀ j < k, q + j < p ∨ p + m ≤ q + j := by
      intro j hj
      by_contra hc
      have := hqb j hj
      rw [hclr _ (by lia) (by lia)] at this
      simp at this
    have hqf : ∀ j < k, f (q + j) = true := by
      intro j hj
      rw [← hkeep _ (hout j hj)]
      exact hqb j hj
    by_cases hlt : q < p
    · -- the run ends before `p`
      have hend : q + k ≤ p := by
        by_contra hc
        have := hout (p - q) (by lia)
        lia
      refine .inr ⟨⟨hk, hqn, hqf, ?_, ?_⟩, by lia⟩
      · exact hql.imp id fun h0 => by rw [← hkeep _ (by lia)]; exact h0
      · by_cases he : q + k = p
        · rcases hl with h0 | h0
          · lia
          · have := hqf (k - 1) (by lia)
            rw [show q + (k - 1) = p - 1 by lia, h0] at this
            simp at this
        · refine hqr.imp id fun h0 => ?_
          rw [← hkeep _ (by lia)]
          exact h0
    · have hge : p + m ≤ q := by
        have := hout 0 hk
        lia
      have hright : q + k = n ∨ f (q + k) = false := by
        refine hqr.imp id fun h0 => ?_
        rw [← hkeep _ (by lia)]
        exact h0
      by_cases he : q = p + m
      · subst he
        by_cases hmr' : m < r
        · refine .inl ⟨rfl, ?_, hmr'⟩
          -- both end at the same place
          rcases Nat.lt_trichotomy (m + k) r with hlt' | he | hlt'
          · have := hb (m + k) hlt'
            rw [← Nat.add_assoc] at this
            rcases hright with h0 | h0
            · lia
            · simp [this] at h0
          · lia
          · have := hqf (r - m) (by lia)
            rw [show p + m + (r - m) = p + r by lia] at this
            rcases hr with h0 | h0
            · lia
            · simp [this] at h0
        · have hmr : m = r := by lia
          subst hmr
          refine .inr ⟨⟨hk, hqn, hqf, ?_, hright⟩, by lia⟩
          have := hqf 0 hk
          rcases hr with h0 | h0
          · lia
          · simp [h0] at this
      · refine .inr ⟨⟨hk, hqn, hqf, ?_, hright⟩, by lia⟩
        exact hql.imp id fun h0 => by rw [← hkeep _ (by lia)]; exact h0
  · rintro (⟨rfl, rfl, hmr'⟩ | ⟨hq, hne⟩)
    · refine ⟨by lia, by lia, fun j hj => ?_, .inr ?_, ?_⟩
      · rw [hkeep _ (by lia)]
        have := hb (m + j) (by lia)
        rwa [← Nat.add_assoc] at this
      · exact hclr _ (by lia) (by lia)
      · rw [show p + m + (r - m) = p + r by lia]
        exact hr.imp id fun h0 => by rw [hkeep _ (by lia)]; exact h0
    · -- a run other than the one at `p` shares no bit with it
      have hdis : ∀ j < k, q + j < p ∨ p + r ≤ q + j := by
        intro j hj
        by_contra hc
        obtain ⟨h1, -⟩ := hq.unique (i := q + j) hrun ⟨by lia, by lia⟩
          ⟨by lia, by lia⟩
        exact hne h1
      obtain ⟨hk, hqn, hqb, hql, hqr⟩ := hq
      have hzero : ∀ i, clearBits f p m i = true → f i = true := by
        intro i hi
        by_cases hin : p ≤ i ∧ i < p + m
        · rw [hclr i hin.1 hin.2] at hi
          simp at hi
        · rwa [hkeep i (by lia)] at hi
      have hfalse : ∀ i, f i = false → clearBits f p m i = false := by
        intro i hi
        by_contra hc
        have := hzero i (by simpa using hc)
        simp [hi] at this
      refine ⟨hk, hqn, fun j hj => ?_, hql.imp id (hfalse _), hqr.imp id (hfalse _)⟩
      rw [hkeep _ (by have := hdis j hj; lia)]
      exact hqb j hj

theorem runs_eq_sum (f : ℕ → Bool) (n k : ℕ) :
    runs f n k = ∑ p ∈ Finset.range n, if IsRun f n p k then 1 else 0 := by
  unfold runs
  rw [Finset.card_filter]

/-- **Clearing the head of a maximal run** takes that run out of the count and
puts its remainder, if there is one, back in. -/
theorem runs_clearHead (h : IsRun f n p r) (hm : 0 < m) (hmr : m ≤ r) :
    (runs (clearBits f p m) n k : ℤ) =
      runs f n k - (if k = r then 1 else 0) + (if k = r - m ∧ m < r then 1 else 0) := by
  have hpn : p < n := by
    obtain ⟨h0, h1, -⟩ := h
    lia
  have hp : IsRun f n p k ↔ k = r := by
    constructor
    · intro hk
      exact (hk.unique (i := p) h ⟨le_rfl, by have := hk.1; lia⟩
        ⟨le_rfl, by have := h.1; lia⟩).2
    · rintro rfl
      exact h
  have hsplit : ∀ q ∈ Finset.range n,
      ((if IsRun (clearBits f p m) n q k then 1 else 0 : ℤ)) =
        (if IsRun f n q k then 1 else 0) - (if q = p then (if k = r then 1 else 0) else 0) +
          (if q = p + m then (if k = r - m ∧ m < r then 1 else 0) else 0) := by
    intro q _
    rw [if_congr (isRun_clearHead h hm hmr q) rfl rfl]
    by_cases hqp : q = p
    · subst hqp
      rw [if_pos rfl, if_neg (by lia : ¬ q = q + m)]
      rw [if_neg (by lia), if_congr hp rfl rfl]
      ring
    · rw [if_neg hqp]
      by_cases hqm : q = p + m
      · subst hqm
        have hnot : m < r → ¬ IsRun f n (p + m) k := by
          intro hlt hk
          have := (hk.unique (i := p + m) h ⟨le_rfl, by have := hk.1; lia⟩
            ⟨by lia, by lia⟩).1
          lia
        by_cases hc : k = r - m ∧ m < r
        · rw [if_pos (.inl ⟨rfl, hc.1, hc.2⟩), if_pos rfl, if_pos hc, if_neg (hnot hc.2)]
          ring
        · rw [if_pos rfl, if_neg hc]
          have : ((p + m = p + m ∧ k = r - m ∧ m < r) ∨ IsRun f n (p + m) k ∧ p + m ≠ p) ↔
              IsRun f n (p + m) k := by
            constructor
            · rintro (⟨-, h1⟩ | h1)
              · exact absurd h1 hc
              · exact h1.1
            · exact fun h1 => .inr ⟨h1, hqp⟩
          rw [if_congr this rfl rfl]
          ring
      · rw [if_neg hqm]
        have : ((q = p + m ∧ k = r - m ∧ m < r) ∨ IsRun f n q k ∧ q ≠ p) ↔ IsRun f n q k := by
          constructor
          · rintro (⟨h1, -⟩ | h1)
            · exact absurd h1 hqm
            · exact h1.1
          · exact fun h1 => .inr ⟨h1, hqp⟩
        rw [if_congr this rfl rfl]
        ring
  rw [runs_eq_sum, runs_eq_sum]
  push_cast
  rw [Finset.sum_congr rfl hsplit, Finset.sum_add_distrib, Finset.sum_sub_distrib,
    Finset.sum_ite_eq', Finset.sum_ite_eq', if_pos (Finset.mem_range.mpr hpn)]
  by_cases hc : k = r - m ∧ m < r
  · have hmem : p + m ∈ Finset.range n := by
      obtain ⟨h0, h1, -⟩ := h
      rw [Finset.mem_range]
      lia
    rw [if_pos hmem]
  · rw [if_neg hc]
    simp

/-- A maximal run as long as the window is the whole window. -/
theorem IsRun.full (h : IsRun f n p n) : p = 0 ∧ ∀ j < n, f j = true := by
  obtain ⟨-, hn, hb, -⟩ := h
  have hp : p = 0 := by omega
  subst hp
  refine ⟨rfl, fun j hj => ?_⟩
  have := hb j hj
  rwa [Nat.zero_add] at this

/-- A window that is all set is one run. -/
theorem isRun_full (hn : 0 < n) (h : ∀ i < n, f i = true) : IsRun f n 0 n := by
  refine ⟨hn, by omega, fun j hj => ?_, .inl rfl, .inl (by omega)⟩
  rw [Nat.zero_add]
  exact h j hj

/-- A window that is all set has no run shorter than itself. -/
theorem runs_full (hk : k < n) (h : ∀ i < n, f i = true) : runs f n k = 0 := by
  unfold runs
  rw [Finset.card_eq_zero, Finset.filter_eq_empty_iff]
  intro p _ hp
  have := (hp.unique (i := p) (isRun_full (by omega) h) ⟨le_rfl, by have := hp.1; omega⟩
    ⟨by omega, by have := hp.1; have := hp.2.1; omega⟩).2
  omega

/-- A window that is all clear has no run. -/
theorem runs_empty (h : ∀ i < n, f i = false) : runs f n k = 0 := by
  unfold runs
  rw [Finset.card_eq_zero, Finset.filter_eq_empty_iff]
  rintro p hp ⟨hk, hn, hb, -⟩
  have := hb 0 hk
  rw [h _ (by omega)] at this
  simp at this
