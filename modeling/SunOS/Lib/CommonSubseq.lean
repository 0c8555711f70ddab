/-
# Common subsequences, row by row

A common subsequence of two lists is found by going through the first list and keeping, for each
length, how much of the second one is needed (`Thresholds`).  One entry `a` of the first list is a
row: its places in the second list are tried one after the other (`Tried`), and each changes at
most one threshold.
-/
import Mathlib.Data.List.Basic
import Mathlib.Data.List.Infix
import Mathlib.Order.Bounds.Basic
import Mathlib.Order.MinMax

namespace CommonSubseq

open List

variable {α : Type*} {xs ys xs' ys' : List α} {a : α} {k l c y : ℕ} {Y Z : ℕ → ℕ}

/-- A common subsequence of length `l`. -/
def Common (xs ys : List α) (l : ℕ) : Prop :=
  ∃ w : List α, w.length = l ∧ w.Sublist xs ∧ w.Sublist ys

theorem Common.zero (xs ys : List α) : Common xs ys 0 :=
  ⟨[], rfl, nil_sublist _, nil_sublist _⟩

theorem Common.shorter (h : Common xs ys l) {l' : ℕ} (hl : l' ≤ l) : Common xs ys l' := by
  obtain ⟨w, rfl, hx, hy⟩ := h
  exact ⟨w.take l', length_take_of_le hl, (take_sublist _ _).trans hx,
    (take_sublist _ _).trans hy⟩

theorem Common.mono (h : Common xs ys l) (hx : xs.Sublist xs') (hy : ys.Sublist ys') :
    Common xs' ys' l := by
  obtain ⟨w, hw, hwx, hwy⟩ := h
  exact ⟨w, hw, hwx.trans hx, hwy.trans hy⟩

theorem not_common_nil (hl : 1 ≤ l) : ¬ Common [] ys l := by
  rintro ⟨w, rfl, hx, -⟩
  rw [List.sublist_nil.mp hx] at hl
  exact absurd hl (Nat.not_succ_le_zero 0)

/-- The longest common subsequence of lists with common ends. -/
theorem isGreatest_append {p s : List α} (h : IsGreatest {l | Common xs ys l} k) :
    IsGreatest {l | Common (p ++ xs ++ s) (p ++ ys ++ s) l} (p.length + k + s.length) := by
  constructor
  · obtain ⟨w, hw, hx, hy⟩ := h.1
    refine ⟨p ++ w ++ s, by simp [hw, Nat.add_assoc], ?_, ?_⟩
    · exact (((List.Sublist.refl p).append hx).append (List.Sublist.refl s))
    · exact (((List.Sublist.refl p).append hy).append (List.Sublist.refl s))
  · rintro l ⟨w, rfl, hx, hy⟩
    -- without the ends, what is left of `w` is common to the middles
    have hdrop : ∀ {zs : List α}, w.Sublist (p ++ zs ++ s) →
        ((w.drop p.length).reverse.drop s.length).reverse.Sublist zs := by
      intro zs hz
      have h1 := hz.drop p.length
      rw [append_assoc, drop_left] at h1
      have h2 := (List.reverse_sublist.mpr h1).drop s.length
      rw [reverse_append, List.drop_left' (length_reverse ..)] at h2
      rw [← reverse_sublist, reverse_reverse]
      exact h2
    have hle := h.2 ⟨_, rfl, hdrop hx, hdrop hy⟩
    rw [length_reverse, length_drop, length_reverse, length_drop] at hle
    omega

/-! ## A row -/

/-- What is common when `a` is also matched with its places before `c`. -/
def Tried (xs ys : List α) (a : α) (c l y : ℕ) : Prop :=
  Common xs (ys.take y) l ∨
    ∃ p, p < c ∧ p < y ∧ ys[p]? = some a ∧ 1 ≤ l ∧ Common xs (ys.take p) (l - 1)

theorem tried_zero : Tried xs ys a 0 l y ↔ Common xs (ys.take y) l := by
  refine ⟨?_, Or.inl⟩
  rintro (h | ⟨p, hp, -⟩)
  · exact h
  · exact absurd hp (Nat.not_lt_zero p)

/-- A subsequence that ends in `a` matches it somewhere. -/
theorem sublist_concat_take {w : List α} (h : (w ++ [a]).Sublist (ys.take y)) :
    ∃ p, p < y ∧ ys[p]? = some a ∧ w.Sublist (ys.take p) := by
  induction y with
  | zero =>
    exact absurd (List.sublist_nil.mp h) (append_ne_nil_of_right_ne_nil _ (by simp))
  | succ y ih =>
    have hmore : (w ++ [a]).Sublist (ys.take y) →
        ∃ p, p < y + 1 ∧ ys[p]? = some a ∧ w.Sublist (ys.take p) := by
      intro h
      obtain ⟨p, hp, hrest⟩ := ih h
      exact ⟨p, hp.trans (Nat.lt_succ_self y), hrest⟩
    rw [take_add_one] at h
    cases hy : ys[y]? with
    | none =>
      rw [hy, Option.toList_none, append_nil] at h
      exact hmore h
    | some b =>
      rw [hy, Option.toList_some, sublist_append_iff] at h
      obtain ⟨l1, l2, heq, h1, h2⟩ := h
      rcases List.sublist_singleton.mp h2 with rfl | rfl
      · rw [append_nil] at heq
        exact hmore (heq ▸ h1)
      · obtain ⟨rfl, hab⟩ := List.append_inj' heq rfl
        obtain rfl := List.singleton_inj.mp hab
        exact ⟨y, Nat.lt_succ_self y, hy, h1⟩

/-- **The row of `a`**, when all its places have been tried. -/
theorem common_concat : Common (xs ++ [a]) (ys.take y) l ↔ ∃ c, Tried xs ys a c l y := by
  constructor
  · rintro ⟨w, rfl, hx, hy⟩
    obtain ⟨l1, l2, rfl, h1, h2⟩ := List.sublist_append_iff.mp hx
    rcases List.sublist_singleton.mp h2 with rfl | rfl
    · rw [append_nil] at hy ⊢
      exact ⟨0, Or.inl ⟨l1, rfl, h1, hy⟩⟩
    · obtain ⟨p, hp, hpa, hsub⟩ := sublist_concat_take hy
      rw [length_append, length_singleton]
      exact ⟨p + 1, Or.inr ⟨p, Nat.lt_succ_self p, hp, hpa, Nat.le_add_left 1 _, l1, rfl, h1, hsub⟩⟩
  · rintro ⟨c, h | ⟨p, -, hp, hpa, hl, w, hw, hx, hy⟩⟩
    · exact h.mono (sublist_append_left xs [a]) (List.Sublist.refl _)
    · refine ⟨w ++ [a], by rw [length_append, hw, length_singleton]; omega,
        hx.append (List.Sublist.refl _), ?_⟩
      have hsub := hy.append (List.Sublist.refl [a])
      have htake : (ys.take p ++ [a]).Sublist (ys.take y) := by
        have : ys.take (p + 1) = ys.take p ++ [a] := by
          rw [take_add_one, hpa, Option.toList_some]
        rw [← this]
        exact take_sublist_take_left (by omega)
      exact hsub.trans htake

/-! ## Thresholds -/

/-- `Y l` is what a common subsequence of length `l` needs of the second list, up to length `k`;
longer ones do not exist. -/
def Thresholds (R : ℕ → ℕ → Prop) (k : ℕ) (Y : ℕ → ℕ) : Prop :=
  ∀ l y, 1 ≤ l → (R l y ↔ l ≤ k ∧ Y l ≤ y)

/-- Places between `c` and `y` that do not change what is common. -/
theorem Thresholds.skip (h : Thresholds (Tried xs ys a c) k Y) (hc : c ≤ y)
    (hskip : ∀ p l, c ≤ p → p < y → ys[p]? = some a → 1 ≤ l → Common xs (ys.take p) (l - 1) →
      l ≤ k ∧ Y l ≤ p + 1) : Thresholds (Tried xs ys a y) k Y := by
  intro l y' hl
  rw [← h l y' hl]
  constructor
  · rintro (hcom | ⟨p, hp, hpy, hpa, -, hcom⟩)
    · exact Or.inl hcom
    · by_cases hpc : p < c
      · exact Or.inr ⟨p, hpc, hpy, hpa, hl, hcom⟩
      · obtain ⟨hlk, hY⟩ := hskip p l (by omega) hp hpa hl hcom
        exact (h l y' hl).mpr ⟨hlk, by omega⟩
  · rintro (hcom | ⟨p, hp, hrest⟩)
    · exact Or.inl hcom
    · exact Or.inr ⟨p, by omega, hrest⟩

/-- **A place of `a`** that gives the length `l`, and no greater one, lowers its threshold. -/
theorem Thresholds.place (h : Thresholds (Tried xs ys a c) k Y) (hcy : c ≤ y)
    (hbetween : ∀ p, c ≤ p → p < y → ys[p]? ≠ some a) (hya : ys[y]? = some a) (hl : 1 ≤ l)
    (hlk : l ≤ k + 1) (hlow : ∀ l', l' < l → Y l' ≤ y)
    (hcommon : Common xs (ys.take y) (l - 1))
    (hmost : ¬ Common xs (ys.take y) l) (hother : ∀ l', l' ≠ l → l' ≤ k → Z l' = Y l')
    (hself : Z l = if l ≤ k then min (Y l) (y + 1) else y + 1) :
    Thresholds (Tried xs ys a (y + 1)) (max k l) Z := by
  intro l' y' hl'
  have hold := h l' y' hl'
  -- what the new place adds
  have hsplit : Tried xs ys a (y + 1) l' y' ↔ Tried xs ys a c l' y' ∨
      (y < y' ∧ Common xs (ys.take y) (l' - 1)) := by
    constructor
    · rintro (hcom | ⟨p, hp, hpy, hpa, -, hcom⟩)
      · exact Or.inl (Or.inl hcom)
      · by_cases hpc : p < c
        · exact Or.inl (Or.inr ⟨p, hpc, hpy, hpa, hl', hcom⟩)
        · obtain rfl : p = y := by
            by_contra hne
            exact hbetween p (by omega) (by omega) hpa
          exact Or.inr ⟨hpy, hcom⟩
    · rintro ((hcom | ⟨p, hp, hrest⟩) | ⟨hlt, hcom⟩)
      · exact Or.inl hcom
      · exact Or.inr ⟨p, by omega, hrest⟩
      · exact Or.inr ⟨y, Nat.lt_succ_self y, hlt, hya, hl', hcom⟩
  rw [hsplit, hold]
  by_cases heq : l' = l
  · subst heq
    rw [hself]
    constructor
    · rintro (⟨hk, hY⟩ | ⟨hlt, -⟩)
      · rw [if_pos hk]
        exact ⟨le_max_right _ _, (min_le_left _ _).trans hY⟩
      · refine ⟨le_max_right _ _, ?_⟩
        split_ifs
        · exact (min_le_right _ _).trans hlt
        · exact hlt
    · rintro ⟨-, hY⟩
      by_cases hk : l' ≤ k
      · rw [if_pos hk] at hY
        rcases min_le_iff.mp hY with hle | hle
        · exact Or.inl ⟨hk, hle⟩
        · exact Or.inr ⟨hle, hcommon⟩
      · rw [if_neg hk] at hY
        exact Or.inr ⟨hY, hcommon⟩
  · have hkl : l' ≤ max k l ↔ l' ≤ k := by omega
    rw [hkl]
    constructor
    · rintro (⟨hk, hY⟩ | ⟨hlt, hcom⟩)
      · exact ⟨hk, (hother l' heq hk).trans_le hY⟩
      · have hlt' : l' < l := by
          by_contra hge
          exact hmost (hcom.shorter (by omega))
        have hk : l' ≤ k := by omega
        exact ⟨hk, by rw [hother l' heq hk]; exact (hlow l' hlt').trans hlt.le⟩
    · rintro ⟨hk, hY⟩
      rw [hother l' heq hk] at hY
      exact Or.inl ⟨hk, hY⟩

/-- The row is done when the places from `c` on do not change what is common. -/
theorem Thresholds.done (h : Thresholds (Tried xs ys a c) k Y)
    (hrest : ∀ p l, c ≤ p → ys[p]? = some a → 1 ≤ l → Common xs (ys.take p) (l - 1) →
      l ≤ k ∧ Y l ≤ p + 1) :
    Thresholds (fun l y => Common (xs ++ [a]) (ys.take y) l) k Y := by
  intro l y hl
  show Common (xs ++ [a]) (ys.take y) l ↔ _
  rw [common_concat]
  constructor
  · rintro ⟨c', hc'⟩
    have hup : Tried xs ys a (max c c') l y := by
      rcases hc' with hcom | ⟨p, hp, hmore⟩
      · exact Or.inl hcom
      · exact Or.inr ⟨p, hp.trans_le (le_max_right _ _), hmore⟩
    have hskip := h.skip (le_max_left c c') fun p l hp _ hpa hl hcom => hrest p l hp hpa hl hcom
    exact (hskip l y hl).mp hup
  · intro hk
    exact ⟨c, (h l y hl).mpr hk⟩

/-- Thresholds tell the greatest length. -/
theorem Thresholds.isGreatest (h : Thresholds (fun l y => Common xs (ys.take y) l) k Y)
    (hY : ∀ l, 1 ≤ l → l ≤ k → Y l ≤ ys.length) : IsGreatest {l | Common xs ys l} k := by
  have hall : ∀ l, 1 ≤ l → (Common xs ys l ↔ l ≤ k) := by
    intro l hl
    have hlast : Common xs (ys.take ys.length) l ↔ l ≤ k ∧ Y l ≤ ys.length := h l ys.length hl
    rw [take_length] at hlast
    rw [hlast]
    exact ⟨fun hk => hk.1, fun hk => ⟨hk, hY l hl hk⟩⟩
  constructor
  · rcases Nat.eq_zero_or_pos k with rfl | hpos
    · exact Common.zero xs ys
    · exact (hall k hpos).mpr le_rfl
  · intro l hl
    rcases Nat.eq_zero_or_pos l with rfl | hpos
    · exact Nat.zero_le k
    · exact (hall l hpos).mp hl

end CommonSubseq
