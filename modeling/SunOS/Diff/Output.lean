/-
# The ranges of change

`output` goes over the match vector and writes into it as it goes: after a range, the entry of
its last line says up to where the new file has been produced.
-/
import SunOS.Diff.Unravel
import SunOS.Lib.Patch

namespace Diff

open List
open Function (update update_of_ne update_self)

variable {J : ℕ → ℕ} {m n i0 : ℕ} {old new rest : List (List ℕ)}

/-! ## The inner loops -/

theorem matched_spec : ∀ fuel i0, m + 1 - i0 < fuel → i0 ≤ m + 1 →
    i0 ≤ matched J m fuel i0 ∧ matched J m fuel i0 ≤ m + 1 ∧
      (∀ k, i0 ≤ k → k < matched J m fuel i0 → J k = J (k - 1) + 1) ∧
      (matched J m fuel i0 ≤ m → J (matched J m fuel i0) ≠ J (matched J m fuel i0 - 1) + 1) := by
  intro fuel
  induction fuel with
  | zero => exact fun i0 h => absurd h (Nat.not_lt_zero _)
  | succ fuel ih =>
    intro i0 hf hle
    unfold matched
    by_cases h : i0 ≤ m ∧ J i0 = J (i0 - 1) + 1
    · rw [if_pos h]
      obtain ⟨h1, h2, h3, h4⟩ := ih (i0 + 1) (by omega) (by omega)
      refine ⟨by omega, h2, fun k hk hlt => ?_, h4⟩
      by_cases hki : k = i0
      · rw [hki]
        exact h.2
      · exact h3 k (by omega) hlt
    · rw [if_neg h]
      exact ⟨le_rfl, hle, fun k hk hlt => by omega, fun him he => h ⟨him, he⟩⟩

theorem unmatched_spec : ∀ fuel i1, m - i1 < fuel → i1 ≤ m →
    i1 ≤ unmatched J m fuel i1 ∧ unmatched J m fuel i1 ≤ m ∧
      (∀ k, i1 < k → k ≤ unmatched J m fuel i1 → J k = 0) ∧
      (unmatched J m fuel i1 < m → J (unmatched J m fuel i1 + 1) ≠ 0) := by
  intro fuel
  induction fuel with
  | zero => exact fun i1 h => absurd h (Nat.not_lt_zero _)
  | succ fuel ih =>
    intro i1 hf hle
    unfold unmatched
    by_cases h : i1 < m ∧ J (i1 + 1) = 0
    · rw [if_pos h]
      obtain ⟨h1, h2, h3, h4⟩ := ih (i1 + 1) (by omega) (by omega)
      refine ⟨by omega, h2, fun k hk hlt => ?_, h4⟩
      by_cases hki : k = i1 + 1
      · rw [hki]
        exact h.2
      · exact h3 k (by omega) hlt
    · rw [if_neg h]
      exact ⟨le_rfl, hle, fun k hk hlt => by omega, fun him he => h ⟨him, he⟩⟩

/-! ## The state of the loop -/

/-- The match vector from `i0` on, when the new file has been produced up to line `J (i0 - 1)`.
-/
structure Ahead (old new : List (List ℕ)) (m n i0 : ℕ) (J : ℕ → ℕ) : Prop where
  up : ∀ i i', i0 - 1 ≤ i → i < i' → i' ≤ m + 1 → (i = i0 - 1 ∨ J i ≠ 0) → J i' ≠ 0 → J i < J i'
  top : J (m + 1) = n + 1
  equal : ∀ i, i0 ≤ i → i ≤ m → J i ≠ 0 → old[i - 1]? = new[J i - 1]?
  last : i0 = m + 1 → J m = n

/-- The state after a range that ends at line `i1`. -/
theorem Ahead.next (h : Ahead old new m n i0 J) {i1 : ℕ} (h0 : i0 - 1 ≤ i1) (h1 : i1 ≤ m)
    (hne : J (i1 + 1) ≠ 0) :
    Ahead old new m n (i1 + 1) (update J i1 (J (i1 + 1) - 1)) := by
  have hself : update J i1 (J (i1 + 1) - 1) i1 = J (i1 + 1) - 1 := update_self ..
  have hother : ∀ k, k ≠ i1 → update J i1 (J (i1 + 1) - 1) k = J k :=
    fun k hk => update_of_ne hk _ _
  refine ⟨fun i i' hi hii hi' hor hne' => ?_, ?_, fun i hi him hne' => ?_, fun heq => ?_⟩
  · rw [Nat.add_sub_cancel] at hi hor
    rw [hother i' (by lia)] at hne' ⊢
    by_cases hieq : i = i1
    · rw [hieq, hself]
      by_cases hi'eq : i' = i1 + 1
      · rw [hi'eq]
        lia
      · have := h.up (i1 + 1) i' (by lia) (by lia) hi' (Or.inr hne) hne'
        lia
    · rw [hother i hieq] at hor ⊢
      exact h.up i i' (by lia) hii hi' (Or.inr (hor.resolve_left hieq)) hne'
  · rw [hother _ (by lia)]
    exact h.top
  · rw [hother i (by lia)] at hne' ⊢
    exact h.equal i (by lia) him hne'
  · obtain rfl : i1 = m := by lia
    rw [hself, h.top, Nat.add_sub_cancel]

/-- How many rounds are left, at most. -/
def left (J : ℕ → ℕ) (m i0 : ℕ) : ℕ :=
  2 * (m + 1 - i0) + if J i0 = J (i0 - 1) + 1 ∨ J i0 = 0 then 0 else 1

/-- There are fewer after a range than before it. -/
theorem Ahead.left_next (h : Ahead old new m n i0 J) {i i1 : ℕ} (hi0 : i0 ≤ m) (hi : i0 ≤ i)
    (hi1 : i - 1 ≤ i1) (hstop : i ≤ m → J i ≠ J (i - 1) + 1) (hne : J (i1 + 1) ≠ 0) :
    left (update J i1 (J (i1 + 1) - 1)) m (i1 + 1) < left J m i0 := by
  have hafter : left (update J i1 (J (i1 + 1) - 1)) m (i1 + 1) = 2 * (m - i1) := by
    unfold left
    rw [if_pos (Or.inl ?_)]
    · lia
    · rw [Nat.add_sub_cancel, update_self, update_of_ne (by lia)]
      lia
  rw [hafter]
  unfold left
  by_cases heq : i1 + 1 = i0
  · -- nothing of the old file is passed, but the lines at `i0` match now
    obtain rfl : i = i0 := by lia
    rw [if_neg]
    · lia
    · rw [not_or, ← heq]
      refine ⟨?_, hne⟩
      rw [heq]
      exact hstop hi0
  · lia

/-- Where every entry is the one after the last. -/
def Steps (J : ℕ → ℕ) (i0 i : ℕ) : Prop := ∀ k, i0 ≤ k → k < i → J k = J (k - 1) + 1

theorem Steps.run {i : ℕ} (h : Steps J i0 i) (h0 : 1 ≤ i0) :
    ∀ k, i0 - 1 + k < i → J (i0 - 1 + k) = J (i0 - 1) + k := by
  intro k
  induction k with
  | zero => exact fun _ => rfl
  | succ k ihk =>
    intro hk
    rw [h (i0 - 1 + (k + 1)) (by omega) hk, show i0 - 1 + (k + 1) - 1 = i0 - 1 + k by omega,
      ihk (by omega), Nat.add_assoc]

open Hunk in
/-- The files stay the same along it. -/
theorem Ahead.same (h : Ahead old new m n i0 J) {i p q : ℕ} (h0 : 1 ≤ i0) (hi : i0 ≤ i)
    (him : i ≤ m + 1) (hsteps : Steps J i0 i) (hp : p ≤ i0 - 1)
    (hq : J (i0 - 1) = q + (i0 - 1 - p)) (hsame : Same old new p q (i0 - 1 - p)) :
    Same old new p q (i - 1 - p) := by
  have hall : ∀ k, i0 - 1 + k < i → Same old new p q (i0 - 1 - p + k) := by
    intro k
    induction k with
    | zero => exact fun _ => hsame
    | succ k ihk =>
      intro hk
      refine (ihk (by lia)).succ ?_
      have hval := hsteps.run h0 (k + 1) hk
      have hline := h.equal (i0 - 1 + (k + 1)) (by lia) (by lia) (by lia)
      rwa [hval, show i0 - 1 + (k + 1) - 1 = p + (i0 - 1 - p + k) by lia,
        show J (i0 - 1) + (k + 1) - 1 = q + (i0 - 1 - p + k) by lia] at hline
  have := hall (i - i0) (by lia)
  rwa [show i0 - 1 - p + (i - i0) = i - 1 - p by lia] at this

/-! ## Ranges as hunks -/

/-- Whether `change` reports a range. -/
def range.reported (r : range) : Prop := ¬ (r.b < r.a ∧ r.d < r.c)

instance (r : range) : Decidable r.reported := inferInstanceAs (Decidable (¬ _))

/-- The new lines of a range. -/
def range.hunk (new : List (List ℕ)) (r : range) : Hunk (List ℕ) :=
  ⟨r.a, r.b, (new.drop (r.c - 1)).take (r.d - (r.c - 1))⟩

/-- The hunks of the ranges that are reported. -/
def hunks (new : List (List ℕ)) (rs : List range) : List (Hunk (List ℕ)) :=
  (rs.filter fun r => r.reported).map (range.hunk new)

/-- Ranges of lines that there are. -/
def Within (m n : ℕ) (rs : List range) : Prop :=
  ∀ r ∈ rs, (1 ≤ r.a ∧ r.a ≤ r.b + 1 ∧ r.b ≤ m) ∧ 1 ≤ r.c ∧ r.c ≤ r.d + 1 ∧ r.d ≤ n

open Hunk in
/-- **The loop of `output`**: from line `p` of the old file and `q` of the new one, from where
on they have been the same up to `i0`. -/
theorem outloop_spec (hm : m ≤ old.length) (hn : n = new.length) :
    ∀ (fuel i0 : ℕ) (J : ℕ → ℕ), left J m i0 < fuel → 1 ≤ i0 → i0 ≤ m + 1 →
      Ahead old new m n i0 J → ∃ rs, outloop m fuel i0 J = some rs ∧ Within m n rs ∧
        ∀ p q, p ≤ i0 - 1 → J (i0 - 1) = q + (i0 - 1 - p) → Same old new p q (i0 - 1 - p) →
          patch old p (hunks new rs) = new.drop q ++ old.drop m := by
  intro fuel
  induction fuel with
  | zero => exact fun i0 J h => absurd h (Nat.not_lt_zero _)
  | succ fuel ih =>
    intro i0 J hfuel h1 hle h
    unfold outloop
    by_cases hi0 : i0 ≤ m
    swap
    · -- the files are the same up to their ends
      obtain rfl : i0 = m + 1 := by lia
      rw [if_neg hi0]
      refine ⟨[], rfl, fun r hr => absurd hr not_mem_nil, fun p q hp hq hsame => ?_⟩
      rw [Nat.add_sub_cancel] at hp hq hsame
      rw [h.last rfl, hn] at hq
      have hnew : (new.drop q).take (m - p) = new.drop q :=
        take_of_length_le (by rw [length_drop]; lia)
      have hold := take_append_drop (m - p) (old.drop p)
      rw [drop_drop, show p + (m - p) = m by lia, hsame, hnew] at hold
      exact hold.symm
    · rw [if_pos hi0]
      simp only [Option.bind_eq_bind]
      obtain ⟨hi, him, heach, hstop⟩ := matched_spec (J := J) (m := m) (m + 1) i0 (by lia) hle
      generalize matched J m (m + 1) i0 = i at hi him heach hstop
      obtain ⟨hi1, hi1m, hzero, hstop1⟩ :=
        unmatched_spec (J := J) (m := m) (m + 1) (i - 1) (by lia) (by lia)
      generalize unmatched J m (m + 1) (i - 1) = i1 at hi1 hi1m hzero hstop1
      have hJ1 : J (i1 + 1) ≠ 0 := by
        rcases Nat.lt_or_ge i1 m with hlt | hge
        · exact hstop1 hlt
        · obtain rfl : i1 = m := by lia
          rw [h.top]
          exact Nat.succ_ne_zero n
      have hx := Steps.run heach h1 (i - i0) (by lia)
      rw [show i0 - 1 + (i - i0) = i - 1 by lia] at hx
      have hxy : J (i - 1) < J (i1 + 1) := by
        refine h.up (i - 1) (i1 + 1) (by lia) (by lia) (by lia) ?_ hJ1
        by_cases heq : i = i0
        · exact Or.inl (by rw [heq])
        · exact Or.inr (by lia)
      have hle1 : J (i1 + 1) ≤ n + 1 := by
        rcases Nat.lt_or_ge i1 m with hlt | hge
        · have := h.up (i1 + 1) (m + 1) (by lia) (by lia) le_rfl (Or.inr hJ1)
            (by rw [h.top]; lia)
          rw [h.top] at this
          lia
        · obtain rfl : i1 = m := by lia
          rw [h.top]
      obtain ⟨rs, hrs, hwithin, hpatch⟩ := ih (i1 + 1) _
        (lt_of_lt_of_le (h.left_next hi0 hi hi1 hstop hJ1) (Nat.le_of_lt_succ hfuel))
        (by lia) (by lia) (h.next (by lia) hi1m hJ1)
      rw [hrs, Option.bind_some]
      refine ⟨_, rfl, fun r hr => ?_, fun p q hp hq hsame => ?_⟩
      · rcases List.mem_cons.mp hr with rfl | hr
        · refine ⟨⟨h1.trans hi, ?_, hi1m⟩, Nat.le_add_left 1 _, ?_, ?_⟩
          · show i ≤ i1 + 1
            lia
          · show J (i - 1) + 1 ≤ J (i1 + 1) - 1 + 1
            lia
          · show J (i1 + 1) - 1 ≤ n
            lia
        · exact hwithin r hr
      · have hsame' := h.same h1 hi him heach hp hq hsame
        rw [Nat.add_sub_cancel, update_self] at hpatch
        by_cases hrep : range.reported ⟨i, i1, J (i - 1) + 1, J (i1 + 1) - 1⟩
        · have hfilter : hunks new (⟨i, i1, J (i - 1) + 1, J (i1 + 1) - 1⟩ :: rs) =
              ⟨i, i1, (new.drop (J (i - 1))).take (J (i1 + 1) - 1 - J (i - 1))⟩ ::
                hunks new rs := by
            unfold hunks
            rw [filter_cons_of_pos (by simpa using hrep)]
            rfl
          rw [hfilter]
          refine patch_cons hsame' (by lia) (by lia) ?_
          exact hpatch i1 (J (i1 + 1) - 1) le_rfl (by lia)
            (by rw [Nat.sub_self]; exact Same.zero)
        · have hfilter : hunks new (⟨i, i1, J (i - 1) + 1, J (i1 + 1) - 1⟩ :: rs) =
              hunks new rs := by
            unfold hunks
            rw [filter_cons_of_neg (by simpa using hrep)]
          unfold range.reported at hrep
          rw [not_not] at hrep
          rw [hfilter]
          have hi1i : i1 = i - 1 := by lia
          exact hpatch p q (by lia) (by lia) (by rwa [hi1i])

open Hunk in
/-- **`output`** on true matches: its ranges make the new file of the old one, up to the lines
that were numbered. -/
theorem output_spec (hm : m ≤ old.length) (hn : n = new.length) (hJ : Matching m n J)
    (heq : ∀ k, 1 ≤ k → k ≤ m → J k ≠ 0 → old[k - 1]? = new[J k - 1]?) :
    ∃ rs, output m n J = some rs ∧ Within m n rs ∧
      patch old 0 (hunks new rs) = new ++ old.drop m := by
  unfold output
  by_cases h0 : m = 0
  · subst h0
    rw [if_pos rfl]
    refine ⟨_, rfl, fun r hr => ?_, ?_⟩
    · obtain rfl := List.mem_singleton.mp hr
      exact ⟨⟨le_rfl, le_rfl, le_rfl⟩, le_rfl, Nat.le_add_left 1 n, le_rfl⟩
    · by_cases hnew : new = []
      · subst hnew
        subst hn
        rfl
      · have hpos := length_pos_of_ne_nil hnew
        have hrep : range.reported ⟨1, 0, 1, n⟩ := fun hc => by
          lia
        unfold hunks
        rw [filter_cons_of_pos (by simpa using hrep)]
        show (old.drop 0).take 0 ++ (new.drop 0).take (n - 0) ++ old.drop 0 = _
        rw [take_zero, drop_zero, nil_append, Nat.sub_zero, hn, take_length]
  · rw [if_neg h0]
    have hzero : update (update J 0 0) (m + 1) (n + 1) 0 = 0 := by
      rw [update_of_ne (Nat.succ_ne_zero m).symm, update_self]
    have hlast : update (update J 0 0) (m + 1) (n + 1) (m + 1) = n + 1 :=
      update_self ..
    have hin : ∀ k, 1 ≤ k → k ≤ m →
        update (update J 0 0) (m + 1) (n + 1) k = J k := by
      intro k hk hkm
      rw [update_of_ne (by lia), update_of_ne (by lia)]
    generalize update (update J 0 0) (m + 1) (n + 1) = J' at hzero hlast hin
    have hahead : Ahead old new m n 1 J' := by
      refine ⟨fun i i' _ hii hi' hor hne' => ?_, hlast, fun i hi him hne => ?_, fun he => by lia⟩
      · by_cases hi0 : i = 0
        · rw [hi0, hzero]
          exact Nat.pos_of_ne_zero hne'
        · have hne := hor.resolve_left hi0
          rw [hin i (by lia) (by lia)] at hne ⊢
          by_cases hlast' : i' = m + 1
          · rw [hlast', hlast]
            exact Nat.lt_succ_of_le (hJ.le i (by lia) (by lia))
          · rw [hin i' (by lia) (by lia)] at hne' ⊢
            exact hJ.up i i' (by lia) hii (by lia) hne hne'
      · rw [hin i hi him] at hne ⊢
        exact heq i hi him hne
    have hleft : left J' m 1 < 2 * m + 2 := by
      unfold left
      split_ifs <;> lia
    obtain ⟨rs, hrs, hwithin, hpatch⟩ := outloop_spec hm hn _ 1 J' hleft le_rfl (by lia) hahead
    exact ⟨rs, hrs, hwithin, hpatch 0 0 le_rfl hzero Same.zero⟩

end Diff
