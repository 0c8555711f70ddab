/-
# Cartesian trees

A Cartesian tree is a binary search tree by key that is a heap by weight.  The
operations are the ones an allocator of "fast fits" needs: merging the subtrees
of a deleted node, demoting a node that has become lighter, and inserting a node
above the first lighter one on its search path.  Each is specified by what it
does to the inorder list of nodes, and keeps the heap.
-/
import Mathlib.Order.Basic
import Mathlib.Data.List.Basic
import Mathlib.Order.Lattice

/-- A binary tree of nodes with a key and a weight. -/
inductive CartesianTree (κ ω : Type*)
  | nil
  | node (left : CartesianTree κ ω) (key : κ) (weight : ω) (right : CartesianTree κ ω)
  deriving DecidableEq, Repr

namespace CartesianTree

open List

variable {κ ω : Type*}

/-- The nodes in order. -/
def toList : CartesianTree κ ω → List (κ × ω)
  | nil => []
  | node l k w r => l.toList ++ (k, w) :: r.toList

@[simp] theorem toList_nil : (nil : CartesianTree κ ω).toList = [] := rfl

@[simp] theorem toList_node (l : CartesianTree κ ω) (k : κ) (w : ω) (r : CartesianTree κ ω) :
    (node l k w r).toList = l.toList ++ (k, w) :: r.toList := rfl

theorem forall_mem_node {p : κ × ω → Prop} {l r : CartesianTree κ ω} {k : κ} {w : ω} :
    (∀ b ∈ (node l k w r).toList, p b) ↔
      (∀ b ∈ l.toList, p b) ∧ p (k, w) ∧ ∀ b ∈ r.toList, p b := by
  rw [toList_node, forall_mem_append, forall_mem_cons]

/-- No node is heavier than a node above it. -/
def Heap [LE ω] : CartesianTree κ ω → Prop
  | nil => True
  | node l _ w r => (∀ b ∈ l.toList ++ r.toList, b.2 ≤ w) ∧ l.Heap ∧ r.Heap

/-- Cutting a list at a place of its own and at one of its elements: the element
falls left or right of the place. -/
theorem append_cons_split {α : Type*} {l r A B : List α} {x : α} (h : l ++ x :: r = A ++ B) :
    (∃ A', A = l ++ x :: A' ∧ r = A' ++ B) ∨ ∃ B', l = A ++ B' ∧ B = B' ++ x :: r := by
  rcases List.append_eq_append_iff.mp h with ⟨A', hA, hr⟩ | ⟨B', hl, hB⟩
  · cases A' with
    | nil =>
      right
      exact ⟨[], by simpa using hA.symm, by simpa using hr.symm⟩
    | cons y A' =>
      rw [cons_append, List.cons.injEq] at hr
      obtain ⟨rfl, hr⟩ := hr
      exact Or.inl ⟨A', hA, hr⟩
  · exact Or.inr ⟨B', hl, hB⟩

/-! ## Merging -/

section Merge

variable [LinearOrder ω]

/-- Merge the node `(l, k, w, r)` with a tree to its right, given how `r` merges
with trees. -/
def mergeNode (l : CartesianTree κ ω) (k : κ) (w : ω) (r : CartesianTree κ ω)
    (mergeRight : CartesianTree κ ω → CartesianTree κ ω) : CartesianTree κ ω → CartesianTree κ ω
  | nil => node l k w r
  | node rl rk rw rr =>
    if rw ≤ w then node l k w (mergeRight (node rl rk rw rr))
    else node (mergeNode l k w r mergeRight rl) rk rw rr

/-- Merge two trees with the keys of the first left of those of the second:
of the two roots the heavier is promoted, the left one of two equals. -/
def merge : CartesianTree κ ω → CartesianTree κ ω → CartesianTree κ ω
  | nil => fun t => t
  | node l k w r => mergeNode l k w r r.merge

theorem merge_nil (t : CartesianTree κ ω) : merge t nil = t := by
  cases t <;> rfl

theorem node_merge_node (l : CartesianTree κ ω) (k : κ) (w : ω) (r rl : CartesianTree κ ω)
    (rk : κ) (rw : ω) (rr : CartesianTree κ ω) :
    merge (node l k w r) (node rl rk rw rr) =
      if rw ≤ w then node l k w (r.merge (node rl rk rw rr))
      else node (merge (node l k w r) rl) rk rw rr := rfl

/-- Merging concatenates the nodes. -/
@[simp] theorem toList_merge (s t : CartesianTree κ ω) :
    (merge s t).toList = s.toList ++ t.toList := by
  induction s generalizing t with
  | nil => rfl
  | node l k w r _ ihr =>
    induction t with
    | nil => simp [merge_nil]
    | node rl rk rw rr ihl _ =>
      rw [node_merge_node]
      by_cases h : rw ≤ w
      · rw [if_pos h, toList_node, ihr]
        simp
      · rw [if_neg h, toList_node, ihl]
        simp

/-- Merging keeps the heap. -/
theorem Heap.merge {s t : CartesianTree κ ω} (hs : s.Heap) (ht : t.Heap) : (s.merge t).Heap := by
  induction s generalizing t with
  | nil => exact ht
  | node l k w r _ ihr =>
    induction t with
    | nil => exact hs
    | node rl rk rw rr ihl _ =>
      obtain ⟨hw, hl, hr⟩ := hs
      obtain ⟨hrw, hrl, hrr⟩ := ht
      rw [node_merge_node]
      by_cases h : rw ≤ w
      · rw [if_pos h]
        refine ⟨?_, hl, ihr hr ⟨hrw, hrl, hrr⟩⟩
        intro b hb
        simp only [toList_merge, toList_node, mem_append, mem_cons] at hb hw hrw
        rcases hb with hb | hb | hb | rfl | hb
        · exact hw b (Or.inl hb)
        · exact hw b (Or.inr hb)
        · exact le_trans (hrw b (Or.inl hb)) h
        · exact h
        · exact le_trans (hrw b (Or.inr hb)) h
      · rw [if_neg h]
        refine ⟨?_, ihl hrl, hrr⟩
        have h' : w ≤ rw := le_of_lt (not_le.mp h)
        intro b hb
        simp only [toList_merge, toList_node, mem_append, mem_cons] at hb hw hrw
        rcases hb with ((hb | rfl | hb) | hb) | hb
        · exact le_trans (hw b (Or.inl hb)) h'
        · exact h'
        · exact le_trans (hw b (Or.inr hb)) h'
        · exact hrw b (Or.inl hb)
        · exact hrw b (Or.inr hb)

end Merge

/-! ## Demoting -/

section Demote

variable [LinearOrder ω]

/-- Demote `(k, w)` below a left subtree `node ll lk lw lr` and a right subtree,
given how it is demoted below `lr` and a right subtree. -/
def demoteNode (k : κ) (w : ω) (ll : CartesianTree κ ω) (lk : κ) (lw : ω)
    (lr : CartesianTree κ ω) (demoteRight : CartesianTree κ ω → CartesianTree κ ω) :
    CartesianTree κ ω → CartesianTree κ ω
  | nil =>
    if w < lw then node ll lk lw (demoteRight nil) else node (node ll lk lw lr) k w nil
  | node rl rk rw rr =>
    if w < lw ∨ w < rw then
      if rw ≤ lw then node ll lk lw (demoteRight (node rl rk rw rr))
      else node (demoteNode k w ll lk lw lr demoteRight rl) rk rw rr
    else node (node ll lk lw lr) k w (node rl rk rw rr)

/-- Demote `(k, w)` below a right subtree alone. -/
def demoteNil (k : κ) (w : ω) : CartesianTree κ ω → CartesianTree κ ω
  | nil => node nil k w nil
  | node rl rk rw rr =>
    if w < rw then node (demoteNil k w rl) rk rw rr else node nil k w (node rl rk rw rr)

/-- Put the node `(k, w)` between two subtrees: while one of their roots
outweighs it, the heavier is promoted, the left one of two equals. -/
def demote (k : κ) (w : ω) : CartesianTree κ ω → CartesianTree κ ω → CartesianTree κ ω
  | nil => demoteNil k w
  | node ll lk lw lr => demoteNode k w ll lk lw lr (demote k w lr)

/-- Demoting keeps the nodes in order. -/
@[simp] theorem toList_demote (k : κ) (w : ω) (l r : CartesianTree κ ω) :
    (demote k w l r).toList = l.toList ++ (k, w) :: r.toList := by
  induction l generalizing r with
  | nil =>
    rw [demote]
    induction r with
    | nil => rfl
    | node rl rk rw rr ihl _ =>
      rw [demoteNil]
      by_cases h : w < rw
      · rw [if_pos h, toList_node, ihl]
        simp
      · rw [if_neg h]
        rfl
  | node ll lk lw lr _ ihr =>
    rw [demote]
    induction r with
    | nil =>
      rw [demoteNode]
      by_cases h : w < lw
      · rw [if_pos h, toList_node, ihr]
        simp
      · rw [if_neg h]
        rfl
    | node rl rk rw rr ihl _ =>
      rw [demoteNode]
      by_cases h : w < lw ∨ w < rw
      · rw [if_pos h]
        by_cases h' : rw ≤ lw
        · rw [if_pos h', toList_node, ihr]
          simp
        · rw [if_neg h', toList_node, ihl]
          simp
      · rw [if_neg h]
        rfl

variable {l r : CartesianTree κ ω}

theorem heap_node_iff {k : κ} {w : ω} : (node l k w r).Heap ↔
      (∀ b ∈ l.toList, b.2 ≤ w) ∧ (∀ b ∈ r.toList, b.2 ≤ w) ∧ l.Heap ∧ r.Heap := by
  rw [Heap, forall_mem_append, and_assoc]

/-- A bound on all of a node's weights from the one at its root. -/
theorem Heap.forall_le {k : κ} {w v : ω} (h : (node l k w r).Heap) (hv : w ≤ v) :
    ∀ b ∈ (node l k w r).toList, b.2 ≤ v := by
  obtain ⟨hl, hr, -, -⟩ := heap_node_iff.mp h
  exact forall_mem_node.mpr
    ⟨fun b hb => le_trans (hl b hb) hv, hv, fun b hb => le_trans (hr b hb) hv⟩

/-- Demoting makes a heap of two. -/
theorem Heap.demote (k : κ) (w : ω) (hl : l.Heap) (hr : r.Heap) : (demote k w l r).Heap := by
  induction l generalizing r with
  | nil =>
    rw [CartesianTree.demote]
    induction r with
    | nil => exact heap_node_iff.mpr ⟨by simp, by simp, trivial, trivial⟩
    | node rl rk rw rr ihl _ =>
      obtain ⟨hrl, hrr, hhl, hhr⟩ := heap_node_iff.mp hr
      rw [demoteNil]
      by_cases h : w < rw
      · rw [if_pos h]
        refine heap_node_iff.mpr ⟨?_, hrr, ihl hhl, hhr⟩
        rw [show demoteNil k w rl = CartesianTree.demote k w nil rl from rfl, toList_demote]
        simp only [toList_nil, nil_append, forall_mem_cons]
        exact ⟨le_of_lt h, hrl⟩
      · rw [if_neg h]
        exact heap_node_iff.mpr ⟨by simp, hr.forall_le (not_lt.mp h), trivial, hr⟩
  | node ll lk lw lr _ ihr =>
    obtain ⟨hll, hlr, hhll, hhlr⟩ := heap_node_iff.mp hl
    rw [CartesianTree.demote]
    induction r with
    | nil =>
      rw [demoteNode]
      by_cases h : w < lw
      · rw [if_pos h]
        refine heap_node_iff.mpr ⟨hll, ?_, hhll, ihr hhlr trivial⟩
        rw [toList_demote, forall_mem_append, forall_mem_cons]
        exact ⟨hlr, le_of_lt h, by simp⟩
      · rw [if_neg h]
        exact heap_node_iff.mpr ⟨hl.forall_le (not_lt.mp h), by simp, hl, trivial⟩
    | node rl rk rw rr ihl _ =>
      obtain ⟨hrl, hrr, hhl, hhr⟩ := heap_node_iff.mp hr
      rw [demoteNode]
      by_cases h : w < lw ∨ w < rw
      · rw [if_pos h]
        by_cases h' : rw ≤ lw
        · rw [if_pos h']
          refine heap_node_iff.mpr ⟨hll, ?_, hhll, ihr hhlr hr⟩
          rw [toList_demote, forall_mem_append, forall_mem_cons]
          refine ⟨hlr, ?_, hr.forall_le h'⟩
          rcases h with h | h
          · exact le_of_lt h
          · exact le_of_lt (lt_of_lt_of_le h h')
        · rw [if_neg h']
          have hlt : lw < rw := not_le.mp h'
          refine heap_node_iff.mpr ⟨?_, hrr, ihl hhl, hhr⟩
          rw [show demoteNode k w ll lk lw lr (CartesianTree.demote k w lr) rl =
            CartesianTree.demote k w (node ll lk lw lr) rl from rfl, toList_demote,
            forall_mem_append, forall_mem_cons]
          refine ⟨hl.forall_le (le_of_lt hlt), ?_, hrl⟩
          rcases h with h | h
          · exact le_of_lt (lt_trans h hlt)
          · exact le_of_lt h
      · rw [if_neg h]
        rw [not_or, not_lt, not_lt] at h
        exact heap_node_iff.mpr ⟨hl.forall_le h.1, hr.forall_le h.2, hl, hr⟩

end Demote

/-! ## Inserting -/

section Insert

variable [LinearOrder κ]

/-- Split a tree at a key: the nodes of smaller keys, and the others. -/
def split (p : κ) : CartesianTree κ ω → CartesianTree κ ω × CartesianTree κ ω
  | nil => (nil, nil)
  | node l k w r =>
    if k < p then (node l k w (split p r).1, (split p r).2)
    else ((split p l).1, node (split p l).2 k w r)

/-- `p` lies between the keys of `A` and those of `B`. -/
def Between (A B : List (κ × ω)) (p : κ) : Prop := (∀ a ∈ A, a.1 < p) ∧ ∀ b ∈ B, p < b.1

variable {A B : List (κ × ω)} {p : κ} {t : CartesianTree κ ω}

/-- Splitting a tree of two halves gives the halves. -/
theorem toList_split (h : t.toList = A ++ B)
    (hp : Between A B p) : (split p t).1.toList = A ∧ (split p t).2.toList = B := by
  induction t generalizing A B with
  | nil =>
    rw [toList_nil, eq_comm, append_eq_nil_iff] at h
    obtain ⟨rfl, rfl⟩ := h
    exact ⟨rfl, rfl⟩
  | node l k w r ihl ihr =>
    rw [split]
    rcases append_cons_split h with ⟨A', rfl, hr⟩ | ⟨B', hl, rfl⟩
    · have hk : k < p := hp.1 (k, w) (by simp)
      obtain ⟨h1, h2⟩ := ihr hr ⟨fun a ha => hp.1 a (by simp [ha]), hp.2⟩
      rw [if_pos hk]
      exact ⟨by rw [toList_node, h1], h2⟩
    · have hk : p < k := hp.2 (k, w) (by simp)
      obtain ⟨h1, h2⟩ := ihl hl ⟨hp.1, fun b hb => hp.2 b (by simp [hb])⟩
      rw [if_neg (not_lt.mpr (le_of_lt hk))]
      exact ⟨h1, by rw [toList_node, h2]⟩

/-- A key that is none of the keys in order has its place between them. -/
theorem exists_between {L : List (κ × ω)} (hL : L.Pairwise fun a b => a.1 < b.1)
    (hp : ∀ b ∈ L, b.1 ≠ p) : ∃ A B, L = A ++ B ∧ Between A B p := by
  induction L with
  | nil => exact ⟨[], [], rfl, by simp, by simp⟩
  | cons a L ih =>
    obtain ⟨ha, hL⟩ := List.pairwise_cons.mp hL
    obtain ⟨hap, hp⟩ := List.forall_mem_cons.mp hp
    rcases lt_or_gt_of_ne hap with hlt | hgt
    · obtain ⟨A, B, rfl, hA, hB⟩ := ih hL hp
      exact ⟨a :: A, B, rfl, List.forall_mem_cons.mpr ⟨hlt, hA⟩, hB⟩
    · exact ⟨[], a :: L, rfl, by simp, List.forall_mem_cons.mpr
        ⟨hgt, fun b hb => lt_trans hgt (ha b hb)⟩⟩

/-- A split only moves nodes. -/
theorem split_perm (p : κ) (t : CartesianTree κ ω) :
    (split p t).1.toList ++ (split p t).2.toList = t.toList := by
  induction t with
  | nil => rfl
  | node l k w r ihl ihr =>
    rw [split]
    by_cases hk : k < p
    · rw [if_pos hk, toList_node, toList_node, ← ihr]
      simp
    · rw [if_neg hk, toList_node, toList_node, ← ihl]
      simp

variable [LinearOrder ω]

theorem Heap.split (h : t.Heap) (p : κ) : (split p t).1.Heap ∧ (split p t).2.Heap := by
  induction t with
  | nil => exact ⟨trivial, trivial⟩
  | node l k w r ihl ihr =>
    obtain ⟨hl, hr, hhl, hhr⟩ := heap_node_iff.mp h
    rw [CartesianTree.split]
    by_cases hk : k < p
    · rw [if_pos hk]
      refine ⟨heap_node_iff.mpr ⟨hl, ?_, hhl, (ihr hhr).1⟩, (ihr hhr).2⟩
      intro b hb
      exact hr b (by rw [← split_perm p r]; exact mem_append_left _ hb)
    · rw [if_neg hk]
      refine ⟨(ihl hhl).1, heap_node_iff.mpr ⟨?_, hr, (ihl hhl).2, hhr⟩⟩
      intro b hb
      exact hl b (by rw [← split_perm p l]; exact mem_append_right _ hb)

/-- Insert the node `(p, n)` above the first lighter one on its search path. -/
def insert (p : κ) (n : ω) : CartesianTree κ ω → CartesianTree κ ω
  | nil => node nil p n nil
  | node l k w r =>
    if n ≤ w then
      if p < k then node (insert p n l) k w r else node l k w (insert p n r)
    else node (split p (node l k w r)).1 p n (split p (node l k w r)).2

variable {n : ω}

/-- Insertion puts the node in its place. -/
theorem toList_insert (h : t.toList = A ++ B) (hp : Between A B p) :
    (insert p n t).toList = A ++ (p, n) :: B := by
  induction t generalizing A B with
  | nil =>
    rw [toList_nil, eq_comm, append_eq_nil_iff] at h
    obtain ⟨rfl, rfl⟩ := h
    rfl
  | node l k w r ihl ihr =>
    rw [insert]
    by_cases hn : n ≤ w
    · rw [if_pos hn]
      rcases append_cons_split h with ⟨A', rfl, hr⟩ | ⟨B', hl, rfl⟩
      · have hk : k < p := hp.1 (k, w) (by simp)
        rw [if_neg (not_lt.mpr (le_of_lt hk)), toList_node,
          ihr hr ⟨fun a ha => hp.1 a (by simp [ha]), hp.2⟩]
        simp
      · have hk : p < k := hp.2 (k, w) (by simp)
        rw [if_pos hk, toList_node, ihl hl ⟨hp.1, fun b hb => hp.2 b (by simp [hb])⟩]
        simp
    · obtain ⟨h1, h2⟩ := toList_split h hp
      rw [if_neg hn, toList_node, h1, h2]

/-- Insertion of a new key keeps the keys in order. -/
theorem pairwise_insert
    (ht : t.toList.Pairwise fun a b => a.1 < b.1) (hp : ∀ b ∈ t.toList, b.1 ≠ p) :
    (insert p n t).toList.Pairwise fun a b => a.1 < b.1 := by
  obtain ⟨A, B, heq, hA, hB⟩ := exists_between ht hp
  rw [heq, pairwise_append] at ht
  rw [toList_insert heq ⟨hA, hB⟩, pairwise_append, pairwise_cons]
  refine ⟨ht.1, ⟨hB, ht.2.1⟩, fun a ha => List.forall_mem_cons.mpr ⟨hA a ha, ht.2.2 a ha⟩⟩

/-- Insertion adds one node. -/
theorem length_insert (p : κ) (n : ω) (t : CartesianTree κ ω) :
    (insert p n t).toList.length = t.toList.length + 1 := by
  induction t with
  | nil => rfl
  | node l k w r ihl ihr =>
    rw [insert]
    by_cases hn : n ≤ w
    · rw [if_pos hn]
      by_cases hk : p < k
      · rw [if_pos hk]
        simp only [toList_node, length_append, length_cons, ihl]
        omega
      · rw [if_neg hk]
        simp only [toList_node, length_append, length_cons, ihr]
        omega
    · have hsplit := congrArg List.length (split_perm p (node l k w r))
      rw [length_append] at hsplit
      rw [if_neg hn, toList_node, length_append, length_cons]
      omega

theorem self_mem_insert (p : κ) (n : ω) (t : CartesianTree κ ω) :
    (p, n) ∈ (insert p n t).toList := by
  induction t with
  | nil => exact List.mem_singleton.mpr rfl
  | node l k w r ihl ihr =>
    rw [insert]
    by_cases hn : n ≤ w
    · rw [if_pos hn]
      by_cases hk : p < k
      · rw [if_pos hk]
        exact mem_append_left _ ihl
      · rw [if_neg hk]
        exact mem_append_right _ (mem_cons_of_mem _ ihr)
    · rw [if_neg hn]
      exact mem_append_right _ mem_cons_self

/-- Insertion only adds the node. -/
theorem mem_insert {b : κ × ω} (hb : b ∈ (insert p n t).toList) :
    b = (p, n) ∨ b ∈ t.toList := by
  induction t with
  | nil =>
    rw [insert, toList_node] at hb
    exact Or.inl (by simpa using hb)
  | node l k w r ihl ihr =>
    rw [insert] at hb
    by_cases hn : n ≤ w
    · rw [if_pos hn] at hb
      by_cases hk : p < k
      · rw [if_pos hk, toList_node, mem_append] at hb
        rcases hb with hb | hb
        · rcases ihl hb with rfl | hb
          · exact Or.inl rfl
          · exact Or.inr (mem_append_left _ hb)
        · exact Or.inr (mem_append_right _ hb)
      · rw [if_neg hk, toList_node, mem_append, mem_cons] at hb
        rcases hb with hb | rfl | hb
        · exact Or.inr (mem_append_left _ hb)
        · exact Or.inr (by simp)
        · rcases ihr hb with rfl | hb
          · exact Or.inl rfl
          · exact Or.inr (by simp [hb])
    · rw [if_neg hn, toList_node, mem_append, mem_cons] at hb
      rcases hb with hb | rfl | hb
      · exact Or.inr (by rw [← split_perm p]; exact mem_append_left _ hb)
      · exact Or.inl rfl
      · exact Or.inr (by rw [← split_perm p]; exact mem_append_right _ hb)

/-- Insertion keeps the heap. -/
theorem Heap.insert (h : t.Heap) (p : κ) (n : ω) : (insert p n t).Heap := by
  induction t with
  | nil => exact heap_node_iff.mpr ⟨by simp, by simp, trivial, trivial⟩
  | node l k w r ihl ihr =>
    obtain ⟨hl, hr, hhl, hhr⟩ := heap_node_iff.mp h
    rw [CartesianTree.insert]
    by_cases hn : n ≤ w
    · rw [if_pos hn]
      by_cases hk : p < k
      · rw [if_pos hk]
        refine heap_node_iff.mpr ⟨?_, hr, ihl hhl, hhr⟩
        intro b hb
        rcases mem_insert hb with rfl | hb
        · exact hn
        · exact hl b hb
      · rw [if_neg hk]
        refine heap_node_iff.mpr ⟨hl, ?_, hhl, ihr hhr⟩
        intro b hb
        rcases mem_insert hb with rfl | hb
        · exact hn
        · exact hr b hb
    · rw [if_neg hn]
      have hle := h.forall_le (le_of_lt (not_le.mp hn))
      rw [← split_perm p, forall_mem_append] at hle
      exact heap_node_iff.mpr ⟨hle.1, hle.2, (h.split p).1, (h.split p).2⟩

end Insert

/-! ## A node in its place -/

/-- A step down from a node: to its left, or to its right. -/
inductive Crumb (κ ω : Type*)
  | left (key : κ) (weight : ω) (right : CartesianTree κ ω)
  | right (left : CartesianTree κ ω) (key : κ) (weight : ω)
  deriving DecidableEq, Repr

/-- Put a subtree back in its place, the steps that led there listed last first. -/
def plug : List (Crumb κ ω) → CartesianTree κ ω → CartesianTree κ ω
  | [], t => t
  | .left k w r :: path, t => plug path (node t k w r)
  | .right l k w :: path, t => plug path (node l k w t)

/-- The nodes before a place. -/
def before : List (Crumb κ ω) → List (κ × ω)
  | [] => []
  | .left _ _ _ :: path => before path
  | .right l k w :: path => before path ++ l.toList ++ [(k, w)]

/-- The nodes after a place. -/
def after : List (Crumb κ ω) → List (κ × ω)
  | [] => []
  | .left k w r :: path => (k, w) :: r.toList ++ after path
  | .right _ _ _ :: path => after path

@[simp] theorem toList_plug (path : List (Crumb κ ω)) (t : CartesianTree κ ω) :
    (plug path t).toList = before path ++ t.toList ++ after path := by
  induction path generalizing t with
  | nil => simp [plug, before, after]
  | cons c path ih =>
    cases c <;> simp [plug, before, after, ih]

variable {path : List (Crumb κ ω)}

theorem plug_heap_sub [LE ω] {t : CartesianTree κ ω} (h : (plug path t).Heap) : t.Heap := by
  induction path generalizing t with
  | nil => exact h
  | cons c path ih =>
    cases c with
    | left k w r => exact (ih h).2.1
    | right l k w => exact (ih h).2.2

/-- In a heap a subtree may be replaced by a heap no heavier. -/
theorem Heap.plug [LinearOrder ω] {t t' : CartesianTree κ ω} (h : (plug path t).Heap) (ht : t'.Heap)
    (hle : ∀ b ∈ t'.toList, ∃ a ∈ t.toList, b.2 ≤ a.2) : (plug path t').Heap := by
  induction path generalizing t t' with
  | nil => exact ht
  | cons c path ih =>
    cases c with
    | left k w r =>
      obtain ⟨hl, hr, hhl, hhr⟩ := heap_node_iff.mp (plug_heap_sub h)
      refine ih h (heap_node_iff.mpr ⟨?_, hr, ht, hhr⟩) ?_
      · intro b hb
        obtain ⟨a, ha, hba⟩ := hle b hb
        exact le_trans hba (hl a ha)
      · refine forall_mem_node.mpr ⟨?_, ⟨(k, w), by simp, le_refl _⟩, ?_⟩
        · intro b hb
          obtain ⟨a, ha, hba⟩ := hle b hb
          exact ⟨a, by simp [ha], hba⟩
        · exact fun b hb => ⟨b, by simp [hb], le_refl _⟩
    | right l k w =>
      obtain ⟨hl, hr, hhl, hhr⟩ := heap_node_iff.mp (plug_heap_sub h)
      refine ih h (heap_node_iff.mpr ⟨hl, ?_, hhl, ht⟩) ?_
      · intro b hb
        obtain ⟨a, ha, hba⟩ := hle b hb
        exact le_trans hba (hr a ha)
      · refine forall_mem_node.mpr ⟨?_, ⟨(k, w), by simp, le_refl _⟩, ?_⟩
        · exact fun b hb => ⟨b, by simp [hb], le_refl _⟩
        · intro b hb
          obtain ⟨a, ha, hba⟩ := hle b hb
          exact ⟨a, by simp [ha], hba⟩

end CartesianTree
