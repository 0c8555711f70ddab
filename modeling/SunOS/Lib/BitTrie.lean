/-
# Tries over the low bits of a number

A binary trie that branches on the bits of a number, the lowest first, is a set of
inner nodes in heap order: the node of depth `k` above `h` has the number of the
nodes of lesser depth added to `h % 2 ^ k`.  The leaf of `h` is the first node on
its way that is not an inner one; putting that leaf into the set splits it.
-/
import Mathlib.Data.Nat.Find
import Mathlib.Algebra.Order.Ring.Nat

namespace BitTrie

/-- The node of depth `k` on the way of `h`. -/
def node (k h : ℕ) : ℕ := h % 2 ^ k + (2 ^ k - 1)

/-- The node of depth `k` is the first on the way of `h` that is not an inner node. -/
structure IsLeaf (inner : ℕ → Bool) (k h : ℕ) : Prop where
  above : ∀ j < k, inner (node j h) = true
  leaf : inner (node k h) = false

/-- The inner nodes hang together. -/
def Closed (inner : ℕ → Bool) : Prop :=
  ∀ k h, inner (node (k + 1) h) = true → inner (node k h) = true

/-- The set with one more inner node. -/
def insert (inner : ℕ → Bool) (n : ℕ) : ℕ → Bool := fun i => if i = n then true else inner i

variable {inner : ℕ → Bool} {j k h h' : ℕ}

/-! ## Numbers of nodes -/

theorem mod_mod_of_le (hjk : j ≤ k) : h % 2 ^ k % 2 ^ j = h % 2 ^ j :=
  Nat.mod_mod_of_dvd h (pow_dvd_pow 2 hjk)

theorem node_eq_of_mod_eq (hjk : j ≤ k) (hmod : h % 2 ^ k = h' % 2 ^ k) : node j h = node j h' := by
  rw [node, node, ← mod_mod_of_le hjk, hmod, mod_mod_of_le hjk]

theorem node_bounds : 2 ^ k ≤ node k h + 1 ∧ node k h + 1 < 2 ^ (k + 1) := by
  rw [node, pow_succ]
  omega

/-- Nodes are told apart by their numbers. -/
theorem node_inj (heq : node j h = node k h') : j = k ∧ h % 2 ^ j = h' % 2 ^ j := by
  have h1 := node_bounds (k := j) (h := h)
  have h2 := node_bounds (k := k) (h := h')
  have hjk : j = k := by
    rcases Nat.lt_trichotomy j k with hlt | heq | hlt
    · have hpow : 2 ^ (j + 1) ≤ 2 ^ k := Nat.pow_le_pow_right (by omega) hlt
      omega
    · exact heq
    · have hpow : 2 ^ (k + 1) ≤ 2 ^ j := Nat.pow_le_pow_right (by omega) hlt
      omega
  subst hjk
  rw [node, node] at heq
  exact ⟨rfl, by omega⟩

theorem insert_self (n : ℕ) : insert inner n n = true := if_pos rfl

theorem insert_of_ne {i n : ℕ} (hne : i ≠ n) : insert inner n i = inner i := if_neg hne

/-! ## Leaves -/

theorem IsLeaf.unique (hj : IsLeaf inner j h) (hk : IsLeaf inner k h) : j = k := by
  rcases Nat.lt_trichotomy j k with hlt | heq | hlt
  · have := hk.above j hlt
    rw [hj.leaf] at this
    exact absurd this (by simp)
  · exact heq
  · have := hj.above k hlt
    rw [hk.leaf] at this
    exact absurd this (by simp)

/-- Numbers that agree in the bits of a leaf have that leaf. -/
theorem IsLeaf.congr (hk : IsLeaf inner k h) (hmod : h' % 2 ^ k = h % 2 ^ k) :
    IsLeaf inner k h' := by
  refine ⟨fun j hj => ?_, ?_⟩
  · rw [node_eq_of_mod_eq (le_of_lt hj) hmod]
    exact hk.above j hj
  · rw [node_eq_of_mod_eq (le_refl k) hmod]
    exact hk.leaf

/-- A way that ends somewhere has a leaf there or above. -/
theorem exists_isLeaf (hk : inner (node k h) = false) : ∃ j ≤ k, IsLeaf inner j h := by
  have hex : ∃ j, inner (node j h) = false := ⟨k, hk⟩
  refine ⟨Nat.find hex, Nat.find_le hk, fun j hj => ?_, Nat.find_spec hex⟩
  have hno := Nat.find_min hex hj
  simpa using hno

/-- Two leaves with the same number of a page are one. -/
theorem IsLeaf.eq_of_page_eq (hj : IsLeaf inner j h) (hk : IsLeaf inner k h')
    (hpage : h % 2 ^ j = h' % 2 ^ k) : j = k := by
  rcases Nat.le_total j k with hle | hle
  · have hmod : h' % 2 ^ j = h % 2 ^ j := by
      rw [← mod_mod_of_le hle, ← hpage, Nat.mod_mod]
    exact (hj.congr hmod).unique hk
  · have hmod : h % 2 ^ k = h' % 2 ^ k := by
      rw [← mod_mod_of_le hle, hpage, Nat.mod_mod]
    exact hj.unique (hk.congr hmod)

/-- The page that splitting a leaf adds is that of no leaf yet. -/
theorem IsLeaf.page_ne (hk : IsLeaf inner k h) (hj : IsLeaf inner j h') :
    h' % 2 ^ j ≠ h % 2 ^ k + 2 ^ k := by
  intro hpage
  have hkj : k < j := by
    by_contra hle
    have hpow : 2 ^ j ≤ 2 ^ k := Nat.pow_le_pow_right (by omega) (Nat.le_of_not_lt hle)
    omega
  have hmod : h' % 2 ^ k = h % 2 ^ k := by
    rw [← mod_mod_of_le (le_of_lt hkj), hpage, Nat.add_mod_right, Nat.mod_mod]
  have heq := (hk.congr hmod).unique hj
  omega

/-! ## Splitting a leaf -/

/-- The ways beside the leaf end where they did. -/
theorem IsLeaf.insert_iff_of_ne (hmod : h' % 2 ^ k ≠ h % 2 ^ k) :
    IsLeaf (insert inner (node k h)) j h' ↔ IsLeaf inner j h' := by
  have hsame : ∀ i, insert inner (node k h) (node i h') = inner (node i h') := by
    intro i
    apply insert_of_ne
    intro heq
    obtain ⟨rfl, hi⟩ := node_inj heq
    exact hmod hi
  constructor
  · rintro ⟨habove, hleaf⟩
    exact ⟨fun i hi => hsame i ▸ habove i hi, hsame j ▸ hleaf⟩
  · rintro ⟨habove, hleaf⟩
    exact ⟨fun i hi => (hsame i).trans (habove i hi), (hsame j).trans hleaf⟩

/-- The ways through the leaf end one node further. -/
theorem IsLeaf.insert_of_eq (hc : Closed inner) (hk : IsLeaf inner k h)
    (hmod : h' % 2 ^ k = h % 2 ^ k) : IsLeaf (insert inner (node k h)) (k + 1) h' := by
  have hk' := hk.congr hmod
  have hnode : node k h' = node k h := node_eq_of_mod_eq (le_refl k) hmod
  refine ⟨fun j hj => ?_, ?_⟩
  · rcases Nat.lt_or_eq_of_le (Nat.le_of_lt_succ hj) with hlt | rfl
    · rw [insert]
      split
      · rfl
      · exact hk'.above j hlt
    · rw [hnode, insert_self]
  · rw [insert_of_ne]
    · by_contra hin
      have := hc k h' (by simpa using hin)
      rw [hk'.leaf] at this
      exact absurd this (by simp)
    · intro heq
      exact absurd (node_inj heq).1 (by omega)

/-- The set still hangs together. -/
theorem Closed.insert (hc : Closed inner) (hk : IsLeaf inner k h) :
    Closed (insert inner (node k h)) := by
  intro j h' hin
  rw [BitTrie.insert] at hin ⊢
  split_ifs at hin with heq
  · obtain ⟨rfl, hmod⟩ := node_inj heq
    split
    · rfl
    · rw [node_eq_of_mod_eq (Nat.le_succ j) hmod]
      exact hk.above j (Nat.lt_succ_self j)
  · split
    · rfl
    · exact hc j h' hin

end BitTrie
