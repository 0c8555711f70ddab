/-
# Trees of pointer blocks

A heap of nodes, each an array of addresses, is reached from numbered roots; address 0
is the null pointer.  A pointer of the tree is named by its root and the indices taken
from node to node, and the addresses of all pointers are the one solution of the
recursion that follows them.  A complete tree of width `N` and depth `L` holds the
numbers below `N ^ L`, each at the path of its digits.
-/
import Mathlib.Data.List.Induction
import Mathlib.Logic.Function.Basic
import Mathlib.Tactic.Ring

namespace BlockTree

open List

/-- A pointer of the tree: a root, and the indices taken from node to node. -/
abbrev Ptr := ℕ × List ℕ

/-- Entry `i` of the node that `p` points to. -/
def child (p : Ptr) (i : ℕ) : Ptr := (p.1, p.2 ++ [i])

/-- How many roots there are, how many nodes lie behind each, and how many entries a
node has. -/
structure Shape where
  roots : ℕ
  level : ℕ → ℕ
  width : ℕ

/-- `p` is a pointer of a tree of this shape. -/
structure Shape.Has (sh : Shape) (p : Ptr) : Prop where
  root : p.1 < sh.roots
  depth : p.2.length ≤ sh.level p.1
  index : ∀ i ∈ p.2, i < sh.width

/-- `p` points to a leaf. -/
def Shape.Leaf (sh : Shape) (p : Ptr) : Prop := p.2.length = sh.level p.1

variable {sh : Shape} {p q : Ptr} {i j r v : ℕ}

theorem child_inj : child p i = child q j ↔ p = q ∧ i = j := by
  unfold child
  rw [Prod.mk.injEq, append_singleton_inj, Prod.ext_iff, and_assoc]

theorem child_ne_root : child p i ≠ (r, []) := by
  intro h
  have := congrArg (fun x => x.2.length) h
  simp [child] at this

theorem Shape.has_child : sh.Has (child p i) ↔
    sh.Has p ∧ p.2.length < sh.level p.1 ∧ i < sh.width := by
  constructor
  · rintro ⟨h1, h2, h3⟩
    simp only [child, length_append, length_singleton] at h2
    exact ⟨⟨h1, by omega, fun j hj => h3 j (mem_append_left _ hj)⟩, by omega,
      h3 i (mem_append_right _ (List.mem_singleton.mpr rfl))⟩
  · rintro ⟨⟨h1, -, h3⟩, h4, h5⟩
    refine ⟨h1, ?_, fun j hj => ?_⟩
    · simp only [child, length_append, length_singleton]
      omega
    · rcases List.mem_append.mp hj with hj | hj
      · exact h3 j hj
      · rwa [List.mem_singleton.mp hj]

theorem Shape.Leaf.no_child (h : sh.Leaf p) : ¬ sh.Has (child p i) := by
  intro hc
  have := (Shape.has_child.mp hc).2.1
  unfold Shape.Leaf at h
  omega

/-- Induction over the pointers of a tree, from the roots down. -/
theorem ptr_induction {motive : Ptr → Prop} (root : ∀ r, motive (r, []))
    (step : ∀ p i, motive p → motive (child p i)) (p : Ptr) : motive p := by
  obtain ⟨r, path⟩ := p
  induction path using List.reverseRecOn with
  | nil => exact root r
  | append_singleton path i ih => exact step (r, path) i ih

/-! ## Following pointers -/

/-- The address at the end of `path` from node `b`. -/
def follow (heap : ℕ → ℕ → ℕ) : ℕ → List ℕ → ℕ
  | b, [] => b
  | b, i :: path => if b = 0 then 0 else follow heap (heap b i) path

/-- The address that pointer `p` holds, 0 when it cannot be reached. -/
def addr (roots : ℕ → ℕ) (heap : ℕ → ℕ → ℕ) (p : Ptr) : ℕ := follow heap (roots p.1) p.2

variable {roots roots' : ℕ → ℕ} {heap heap' : ℕ → ℕ → ℕ}

theorem follow_zero (path : List ℕ) : follow heap 0 path = 0 := by
  cases path with
  | nil => rfl
  | cons i path => exact if_pos rfl

theorem follow_append (b : ℕ) (xs ys : List ℕ) :
    follow heap b (xs ++ ys) = follow heap (follow heap b xs) ys := by
  induction xs generalizing b with
  | nil => rfl
  | cons x xs ih =>
    show (if b = 0 then 0 else follow heap (heap b x) (xs ++ ys)) =
      follow heap (if b = 0 then 0 else follow heap (heap b x) xs) ys
    by_cases hb : b = 0
    · rw [if_pos hb, if_pos hb, follow_zero]
    · rw [if_neg hb, if_neg hb, ih]

@[simp] theorem addr_root : addr roots heap (r, []) = roots r := rfl

theorem addr_child :
    addr roots heap (child p i) = if addr roots heap p = 0 then 0 else heap
      (addr roots heap p) i := by
  unfold addr child
  rw [follow_append]
  rfl

theorem addr_child_of_ne (h : addr roots heap p ≠ 0) :
    addr roots heap (child p i) = heap (addr roots heap p) i := by
  rw [addr_child, if_neg h]

/-- **The addresses are the only solution of their recursion.** -/
theorem addr_unique {f : Ptr → ℕ} (hroot : ∀ r < sh.roots, f (r, []) = roots r)
    (hchild : ∀ p i, sh.Has (child p i) → f (child p i) = if f p = 0 then 0 else heap (f p) i)
    (hp : sh.Has p) : addr roots heap p = f p := by
  induction p using ptr_induction with
  | root r => rw [addr_root, hroot r hp.root]
  | step p i ih => rw [addr_child, hchild p i hp, ih (Shape.has_child.mp hp).1]

/-- **A pointer is set**: to an empty node, or to any address when it is the pointer of
a leaf.  No other pointer changes. -/
theorem addr_set (hroot : ∀ r < sh.roots, roots' r = if (r, []) = p then v else roots r)
    (hheap : ∀ q i, sh.Has (child q i) → q ≠ p → addr roots heap q ≠ 0 →
      heap' (addr roots heap q) i = if child q i = p then v else heap (addr roots heap q) i)
    (hparent : ∀ q i, child q i = p → addr roots heap q ≠ 0)
    (hempty : sh.Leaf p ∨ addr roots heap p = 0 ∧ ∀ i, heap' v i = 0) (hq : sh.Has q) :
    addr roots' heap' q = if q = p then v else addr roots heap q := by
  refine addr_unique (f := fun q => if q = p then v else addr roots heap q)
    (fun r hr => (hroot r hr).symm) (fun q i hqi => ?_) hq
  by_cases hqp : q = p
  · subst hqp
    rw [if_pos rfl, if_neg (fun h => by simpa [child] using congrArg Prod.snd h)]
    rcases hempty with hleaf | ⟨h0, hv⟩
    · exact absurd hqi hleaf.no_child
    · rw [addr_child, if_pos h0, hv, ite_self]
  · rw [if_neg hqp]
    by_cases h0 : addr roots heap q = 0
    · rw [if_pos h0, if_neg (fun h => hparent q i h h0), addr_child, if_pos h0]
    · rw [if_neg h0, hheap q i hqi hqp h0, addr_child_of_ne h0]

/-! ## Digits -/

/-- The path of number `n` in a complete tree of width `N` and depth `L`. -/
def digits (N : ℕ) : ℕ → ℕ → List ℕ
  | 0, _ => []
  | L + 1, n => n / N ^ L % N :: digits N L n

/-- The first number behind the pointer at the end of `path`. -/
def offset (N : ℕ) : ℕ → List ℕ → ℕ
  | L + 1, i :: path => i * N ^ L + offset N L path
  | _, _ => 0

variable {N L n m : ℕ} {path : List ℕ}

theorem length_digits : (digits N L n).length = L := by
  induction L with
  | zero => rfl
  | succ L ih => rw [digits, length_cons, ih]

theorem digits_lt (hN : 0 < N) : ∀ i ∈ digits N L n, i < N := by
  induction L with
  | zero => simp [digits]
  | succ L ih =>
    intro i hi
    rcases List.mem_cons.mp hi with rfl | hi
    · exact Nat.mod_lt _ hN
    · exact ih i hi

/-- The number is found at the path of its digits. -/
theorem offset_digits : offset N L (digits N L n) = n % N ^ L := by
  induction L with
  | zero => rw [pow_zero, Nat.mod_one]; rfl
  | succ L ih =>
    show n / N ^ L % N * N ^ L + offset N L (digits N L n) = _
    rw [ih, pow_succ, Nat.mod_mul, Nat.mul_comm, Nat.add_comm]

end BlockTree
