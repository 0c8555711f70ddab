/-
# The match vector

`unravel` matches the common prefix and suffix and, in between, the lines of a chain of
candidates.  Matches go up in both files.
-/
import SunOS.Diff.Stone

namespace Diff

open Function (update update_of_ne update_self)

variable {len0 len1 pref suff : ℕ} {J : ℕ → ℕ} {s : stones}

/-- **A match vector**: the lines of the new file go up with those of the old one. -/
structure Matching (len0 len1 : ℕ) (J : ℕ → ℕ) : Prop where
  up : ∀ i i', 1 ≤ i → i < i' → i' ≤ len0 → J i ≠ 0 → J i' ≠ 0 → J i < J i'
  le : ∀ i, 1 ≤ i → i ≤ len0 → J i ≤ len1

/-! ## prune -/

variable {file0 file1 : ℕ → line}

theorem preloop_le : ∀ (fuel pref : ℕ), pref ≤ len0 → pref ≤ len1 →
      preloop len0 len1 file0 file1 fuel pref ≤ len0 ∧
        preloop len0 len1 file0 file1 fuel pref ≤ len1 := by
  intro fuel
  induction fuel with
  | zero => exact fun pref h0 h1 => ⟨h0, h1⟩
  | succ fuel ih =>
    intro pref h0 h1
    unfold preloop
    split_ifs with h
    · exact ih (pref + 1) h.1 h.2.1
    · exact ⟨h0, h1⟩

theorem sufloop_le : ∀ (fuel suff : ℕ), suff ≤ len0 - pref → suff ≤ len1 - pref →
      sufloop len0 len1 pref file0 file1 fuel suff ≤ len0 - pref ∧
        sufloop len0 len1 pref file0 file1 fuel suff ≤ len1 - pref := by
  intro fuel
  induction fuel with
  | zero => exact fun suff h0 h1 => ⟨h0, h1⟩
  | succ fuel ih =>
    intro suff h0 h1
    unfold sufloop
    split_ifs with h
    · exact ih (suff + 1) h.1 h.2.1
    · exact ⟨h0, h1⟩

/-- The prefix and the suffix do not overlap, in either file. -/
structure Pruned (len0 len1 pref suff : ℕ) : Prop where
  old : pref + suff ≤ len0
  new : pref + suff ≤ len1

theorem prune_spec (len0 len1 : ℕ) (file0 file1 : ℕ → line) :
    Pruned len0 len1 (prune len0 len1 file0 file1).1 (prune len0 len1 file0 file1).2 := by
  unfold prune
  have hp : preloop len0 len1 file0 file1 (len0 + 1) 0 ≤ len0 ∧ _ :=
    preloop_le (len0 + 1) 0 (Nat.zero_le _) (Nat.zero_le _)
  simp only
  generalize preloop len0 len1 file0 file1 (len0 + 1) 0 = pref at hp
  have hs : sufloop len0 len1 pref file0 file1 (len0 + 1) 0 ≤ len0 - pref ∧ _ :=
    sufloop_le (len0 + 1) 0 (Nat.zero_le _) (Nat.zero_le _)
  exact ⟨by omega, by omega⟩

/-! ## unravel -/

variable {i : ℕ}

/-- What the first loop of `unravel` matches. -/
def outer (len0 len1 pref suff i : ℕ) : ℕ :=
  if i ≤ pref then i else if len0 - suff < i then i + len1 - len0 else 0

theorem unravelinit_eq (hi : i ≤ len0) :
    unravelinit len0 len1 pref suff J i = outer len0 len1 pref suff i := by
  have hloop : ∀ k i, i < k → (List.range k).foldl
      (fun J i => update J i
        (if i ≤ pref then i else if len0 - suff < i then i + len1 - len0 else 0)) J i =
      outer len0 len1 pref suff i := by
    intro k
    induction k with
    | zero =>
      intro i hi
      omega
    | succ k ih =>
      intro i hi
      simp only [List.range_succ, List.foldl_append, List.foldl_cons, List.foldl_nil]
      by_cases hik : i = k
      · subst hik
        rw [update_self]
        rfl
      · rw [update_of_ne hik]
        exact ih i (by omega)
  exact hloop (len0 + 1) i (by omega)

theorem outer_matching (h : Pruned len0 len1 pref suff) :
    Matching len0 len1 (outer len0 len1 pref suff) := by
  have hnew := h.new
  constructor
  · intro i i' hi hii hi' hne hne'
    unfold outer at hne hne' ⊢
    split_ifs at hne hne' ⊢ <;> lia
  · intro i hi hil
    unfold outer
    split_ifs <;> lia

/-- In the second loop, before the candidate `q` is matched: the lines up to its own are as
the first loop has left them, the matches of later lines are after its line of the new file. -/
structure Chain (len0 len1 pref suff : ℕ) (x y : ℕ) (J : ℕ → ℕ) : Prop where
  matching : Matching len0 len1 J
  before : ∀ i, 1 ≤ i → i ≤ pref + x → J i = outer len0 len1 pref suff i
  after : ∀ i, pref + x < i → i ≤ len0 → J i ≠ 0 → pref + y < J i

section

variable (hp : Pruned len0 len1 pref suff)
include hp

/-- One candidate is matched. -/
theorem Chain.step {x y x' y' : ℕ} (h : Chain len0 len1 pref suff x y J) (hx : x' < x) (hy : y' < y)
    (hxn : x ≤ len0 - pref - suff) (hym : y ≤ len1 - pref - suff) :
    Chain len0 len1 pref suff x' y' (update J (x + pref) (y + pref)) := by
  have hnew := hp.new
  -- before the candidate only the prefix is matched
  have hlow : ∀ i, 1 ≤ i → i < x + pref → J i ≠ 0 → i ≤ pref ∧ J i = i := by
    intro i hi hix hne
    have hb := h.before i hi (by lia)
    unfold outer at hb
    split_ifs at hb with h1 h2
    · exact ⟨h1, hb⟩
    · lia
    · exact absurd hb hne
  refine ⟨⟨fun i i' hi hii hi' hne hne' => ?_, fun i hi hil => ?_⟩, fun i hi hix => ?_,
    fun i hix hil hne => ?_⟩
  · by_cases h1 : i = x + pref
    · subst h1
      rw [update_self, update_of_ne (by lia)] at *
      have := h.after i' (by lia) hi' hne'
      lia
    · rw [update_of_ne h1] at hne ⊢
      by_cases h2 : i' = x + pref
      · subst h2
        rw [update_self]
        obtain ⟨h3, h4⟩ := hlow i hi hii hne
        lia
      · rw [update_of_ne h2] at hne' ⊢
        exact h.matching.up i i' hi hii hi' hne hne'
  · by_cases h1 : i = x + pref
    · subst h1
      rw [update_self]
      lia
    · rw [update_of_ne h1]
      exact h.matching.le i hi hil
  · rw [update_of_ne (by lia)]
    exact h.before i hi (by lia)
  · by_cases h1 : i = x + pref
    · subst h1
      rw [update_self]
      lia
    · rw [update_of_ne h1] at hne ⊢
      rcases Nat.lt_or_ge i (x + pref) with hlt | hge
      · have := hlow i (by lia) hlt hne
        lia
      · have := h.after i (by lia) hil hne
        lia

/-- The second loop of `unravel` follows the chain to its end. -/
theorem unravelloop_spec (hs : Cands (len0 - pref - suff) (len1 - pref - suff) s) :
    ∀ (fuel q : ℕ) (J : ℕ → ℕ), q < fuel → q < s.clen →
      Chain len0 len1 pref suff (s.clist q).x (s.clist q).y J →
      ∃ J', unravelloop s pref fuel q J = some J' ∧ Matching len0 len1 J' := by
  intro fuel
  induction fuel with
  | zero =>
    intro q J hq
    omega
  | succ fuel ih =>
    intro q J hq hqc h
    unfold unravelloop
    by_cases h0 : (s.clist q).y = 0
    · rw [if_pos h0]
      exact ⟨J, rfl, h.matching⟩
    · rw [if_neg h0]
      have hq1 : 1 ≤ q := by
        by_contra hlt
        obtain rfl : q = 0 := by omega
        exact h0 (by rw [hs.root])
      obtain ⟨h1, h2, h3, h4, h5⟩ := hs.cand q hq1 hqc
      exact ih _ _ (by omega) (by omega) (h.step hp h2 h3 h4 h5)

/-- Before the second loop only the prefix and the suffix are matched. -/
theorem unravel_start (hs : Stones (len0 - pref - suff) (len1 - pref - suff) i s) (J : ℕ → ℕ) :
    Chain len0 len1 pref suff (s.clist (s.c s.k)).x (s.clist (s.c s.k)).y
      (unravelinit len0 len1 pref suff J) := by
  have hold := hp.old
  have hnew := hp.new
  have hq := hs.valid s.k le_rfl
  have hxy : (s.clist (s.c s.k)).x ≤ len0 - pref - suff ∧
      (s.clist (s.c s.k)).y ≤ len1 - pref - suff := by
    by_cases h0 : s.c s.k = 0
    · rw [h0, hs.root]
      exact ⟨Nat.zero_le _, Nat.zero_le _⟩
    · exact (hs.cand _ (by lia) hq).2.2.2
  have hm := outer_matching hp
  refine ⟨⟨fun i i' hi hii hi' hne hne' => ?_, fun i hi hil => ?_⟩, fun i hi hix => ?_,
    fun i hix hil hne => ?_⟩
  · rw [unravelinit_eq (by lia)] at hne ⊢
    rw [unravelinit_eq hi'] at hne' ⊢
    exact hm.up i i' hi hii hi' hne hne'
  · rw [unravelinit_eq hil]
    exact hm.le i hi hil
  · exact unravelinit_eq (by lia)
  · rw [unravelinit_eq hil] at hne ⊢
    unfold outer at hne ⊢
    split_ifs at hne ⊢ <;> lia

/-- **`unravel`** leaves a match vector. -/
theorem unravel_spec (hs : Stones (len0 - pref - suff) (len1 - pref - suff) i s) (J : ℕ → ℕ) :
    ∃ J', unravel s len0 len1 pref suff J (s.c s.k) = some J' ∧ Matching len0 len1 J' := by
  have hq := hs.valid s.k le_rfl
  exact unravelloop_spec hp hs.toCands _ _ _ (by omega) hq (unravel_start hp hs J)

end

end Diff
