/-
# Fast fits

An allocator of "fast fits" keeps its free blocks in a Cartesian tree, by address
and by size.  Freeing walks down towards the block's place and joins the free
blocks that touch it; allocating walks down to the better fitting of two children
as long as one fits.  Addresses and sizes are unsigned 32-bit words.
-/
import SunOS.Lib.CartesianTree
import SunOS.Lib.Segments
import SunOS.Lib.Word
import Mathlib.Algebra.Order.BigOperators.Group.List
import Mathlib.Data.Int.ConditionallyCompleteOrder

namespace FastFits

open Option (some.injEq map_eq_some_iff)
open Set
open List (append_assoc cons_append length_append length_cons mem_append mem_append_left mem_cons
  pairwise_append pairwise_cons)
open Segments CartesianTree

/-- A free block: its address and its size. -/
abbrev Block := ℤ × ℤ

/-- The lower end of a block. -/
def lo (b : Block) : ℤ := b.1

/-- The upper end of a block. -/
def hi (b : Block) : ℤ := b.1 + b.2

/-- A block of positive size within the address space. -/
def Sound (b : Block) : Prop := 0 ≤ b.1 ∧ 0 < b.2 ∧ b.1 + b.2 < 4294967296

/-- The address after a block. -/
def nextblk (p n : ℤ) : ℤ := uint32 (p + n)

theorem nextblk_of_sound {b : Block} (h : Sound b) : nextblk b.1 b.2 = hi b := by
  obtain ⟨h1, h2, h3⟩ := h
  exact uint32_of_ufits ⟨by omega, h3⟩

/-! ## Joining the neighbours of a block -/

variable {a : Block} {X : List Block} {fuel : ℕ} {t : CartesianTree ℤ ℤ} {j : Join}

/-- A block joined to its free neighbours: how many there were, the tree without
them, and whether a block on the way overlaps it. -/
structure Join where
  addr : ℤ
  size : ℤ
  absorbed : ℕ
  tree : CartesianTree ℤ ℤ
  clash : Bool
  deriving DecidableEq, Repr

/-- Walk down the tree towards the place of the block `(p, n)`, joining to it the
blocks that touch it, until a block overlaps it.  `fuel` bounds the number of
nodes. -/
def coalesce : ℕ → ℤ → ℤ → CartesianTree ℤ ℤ → Option Join
  | 0, _, _, _ => none
  | _ + 1, p, n, nil => some ⟨p, n, 0, nil, false⟩
  | fuel + 1, p, n, node l b s r =>
    if p < b then
      if nextblk p n = b then
        (coalesce fuel p (uint32 (n + s)) (merge l r)).map fun j =>
          { j with absorbed := j.absorbed + 1 }
      else if nextblk p n > b then some ⟨p, n, 0, node l b s r, true⟩
      else (coalesce fuel p n l).map fun j => { j with tree := node j.tree b s r }
    else if p > b then
      if nextblk b s = p then
        (coalesce fuel b (uint32 (n + s)) (merge l r)).map fun j =>
          { j with absorbed := j.absorbed + 1 }
      else if nextblk b s > p then some ⟨p, n, 0, node l b s r, true⟩
      else (coalesce fuel p n r).map fun j => { j with tree := node l b s j.tree }
    else some ⟨p, n, 0, node l b s r, true⟩

/-- The block `(p, n)` between the blocks `A` and `B`, joined to its neighbours:
then it is `(p', n')` between `A'` and `B'`. -/
structure Joined (A B : List Block) (p n p' n' : ℤ) (A' B' : List Block) : Prop where
  left : (A' = A ∧ p' = p ∧ ∀ a ∈ A, hi a < p) ∨
    ∃ a, A = A' ++ [a] ∧ hi a = p ∧ p' = lo a
  right : (B' = B ∧ p' + n' = p + n ∧ ∀ b ∈ B, p + n < lo b) ∨
    ∃ b, B = b :: B' ∧ lo b = p + n ∧ p' + n' = hi b

variable {A B A' B' : List Block} {p n p' n' : ℤ}

/-- Blocks in address order, apart from each other, with the block `(p, n)` between
`A` and `B` and not overlapping them. -/
structure Fits (A B : List Block) (p n : ℤ) : Prop where
  apart : Apart lo hi (A ++ B)
  sound : ∀ b ∈ A ++ B, Sound b
  block : Sound (p, n)
  below : ∀ a ∈ A, hi a ≤ p
  above : ∀ b ∈ B, p + n ≤ lo b

/-- Dropping the block on the left that the new one has been joined to. -/
theorem Fits.join_left (h : Fits (A ++ [a]) B p n) (ha : hi a = p) : Fits A B a.1 (n + a.2) := by
  obtain ⟨hap, hs, ⟨hp1, hp2, hp3⟩, hbelow, habove⟩ := h
  obtain ⟨ha1, ha2, ha3⟩ := hs a (by simp)
  simp only [hi] at ha
  rw [Apart, append_assoc, pairwise_append] at hap
  obtain ⟨hA, hB, hAB⟩ := hap
  rw [List.singleton_append, pairwise_cons] at hB
  refine ⟨?_, ?_, ⟨ha1, by simp only at hp2 ⊢; omega, by simp only at hp3 ⊢; omega⟩, ?_, ?_⟩
  · rw [Apart, pairwise_append]
    exact ⟨hA, hB.2, fun x hx y hy => hAB x hx y (by simp [hy])⟩
  · intro b hb
    rcases List.mem_append.mp hb with hb | hb
    · exact hs b (by simp [hb])
    · exact hs b (by simp [hb])
  · exact fun x hx => le_of_lt (hAB x hx a (by simp))
  · intro b hb
    have := habove b hb
    omega

/-- Dropping the block on the right that the new one has been joined to. -/
theorem Fits.join_right {b : Block} (h : Fits A (b :: B) p n) (hb : lo b = p + n) :
    Fits A B p (n + b.2) := by
  obtain ⟨hap, hs, ⟨hp1, hp2, hp3⟩, hbelow, habove⟩ := h
  obtain ⟨hb1, hb2, hb3⟩ := hs b (by simp)
  simp only [lo] at hb
  rw [Apart, pairwise_append, pairwise_cons] at hap
  obtain ⟨hA, ⟨hbB, hB⟩, hAB⟩ := hap
  refine ⟨?_, ?_, ⟨hp1, by simp only at hp2 ⊢; omega, by simp only at hp3 ⊢; omega⟩, hbelow, ?_⟩
  · rw [Apart, pairwise_append]
    exact ⟨hA, hB, fun x hx y hy => hAB x hx y (by simp [hy])⟩
  · intro c hc
    rcases List.mem_append.mp hc with hc | hc
    · exact hs c (by simp [hc])
    · exact hs c (by simp [hc])
  · intro c hc
    have : hi b < lo c := hbB c hc
    simp only [hi] at this
    omega

/-- A block that has been joined on the left and then joined further. -/
theorem Joined.of_left (h : Fits (A ++ [a]) B p n) (ha : hi a = p)
    (hj : Joined A B a.1 (n + a.2) p' n' A' B') :
    Joined (A ++ [a]) B p n p' n' A' B' := by
  have hap := h.apart
  rw [Apart, append_assoc, pairwise_append] at hap
  have hend : a.1 + (n + a.2) = p + n := by
    rw [hi] at ha
    omega
  constructor
  · rcases hj.left with ⟨hA, hp, -⟩ | ⟨c, hA, hc, -⟩
    · exact Or.inr ⟨a, by rw [hA], ha, hp⟩
    · -- two blocks apart cannot both touch
      have hlt : hi c < lo a := hap.2.2 c (by simp [hA]) a (by simp)
      rw [lo] at hlt
      omega
  · rw [← hend]
    exact hj.right

/-- A block that has been joined on the right and then joined further. -/
theorem Joined.of_right {b : Block} (h : Fits A (b :: B) p n) (hb : lo b = p + n)
    (hj : Joined A B p (n + b.2) p' n' A' B') :
    Joined A (b :: B) p n p' n' A' B' := by
  have hap := h.apart
  rw [Apart, pairwise_append, pairwise_cons] at hap
  have hend : p + (n + b.2) = hi b := by
    rw [lo] at hb
    rw [hi]
    omega
  refine ⟨hj.left, ?_⟩
  rcases hj.right with ⟨hB, hp, -⟩ | ⟨c, hB, hc, -⟩
  · exact Or.inr ⟨b, by rw [hB], hb, by rw [hp, hend]⟩
  · have hlt : hi b < lo c := hap.2.1.1 c (by simp [hB])
    omega

/-- Blocks further down do not take part. -/
theorem Joined.prefix (hX : ∀ x ∈ X, hi x < p)
    (hj : Joined A B p n p' n' A' B') : Joined (X ++ A) B p n p' n' (X ++ A') B' := by
  refine ⟨?_, hj.right⟩
  rcases hj.left with ⟨hA, hp, hlt⟩ | ⟨a, hA, ha, hp⟩
  · exact Or.inl ⟨by rw [hA], hp, List.forall_mem_append.mpr ⟨hX, hlt⟩⟩
  · exact Or.inr ⟨a, by rw [hA, append_assoc], ha, hp⟩

/-- Blocks further up do not take part. -/
theorem Joined.suffix (hX : ∀ x ∈ X, p + n < lo x)
    (hj : Joined A B p n p' n' A' B') : Joined A (B ++ X) p n p' n' A' (B' ++ X) := by
  refine ⟨hj.left, ?_⟩
  rcases hj.right with ⟨hB, hp, hlt⟩ | ⟨b, hB, hb, hp⟩
  · exact Or.inl ⟨by rw [hB], hp, List.forall_mem_append.mpr ⟨hlt, hX⟩⟩
  · exact Or.inr ⟨b, by rw [hB, cons_append], hb, hp⟩

/-- A block that touches `(p, n)` on the left is next to it. -/
theorem Fits.last_of_touch {A2 : List Block} (h : Fits (A ++ a :: A2) B p n)
    (ha : hi a = p) : A2 = [] := by
  rw [List.eq_nil_iff_forall_not_mem]
  intro x hx
  have hap := h.apart
  rw [Apart, append_assoc, pairwise_append, cons_append, pairwise_cons] at hap
  have hlt : hi a < lo x := hap.2.1.1 x (by simp [hx])
  have hle : hi x ≤ p := h.below x (by simp [hx])
  obtain ⟨-, hx2, -⟩ := h.sound x (by simp [hx])
  rw [lo] at hlt
  rw [hi] at hle
  omega

/-- A block that touches `(p, n)` on the right is next to it. -/
theorem Fits.first_of_touch {b : Block} {B1 B2 : List Block} (h : Fits A (B1 ++ b :: B2) p n)
    (hb : lo b = p + n) : B1 = [] := by
  rw [List.eq_nil_iff_forall_not_mem]
  intro x hx
  have hap := h.apart
  rw [Apart, pairwise_append, pairwise_append] at hap
  have hlt : hi x < lo b := hap.2.1.2.2 x hx b (by simp)
  have hle : p + n ≤ lo x := h.above x (by simp [hx])
  obtain ⟨-, hx2, -⟩ := h.sound x (by simp [hx])
  rw [hi] at hlt
  rw [lo] at hle
  omega

/-- **Coalescing** finds both neighbours. -/
theorem coalesce_spec (hfuel : t.toList.length < fuel) (ht : t.toList = A ++ B) (h : Fits A B p n) :
    ∃ j A' B', coalesce fuel p n t = some j ∧ j.clash = false ∧
      Joined A B p n j.addr j.size A' B' ∧ j.tree.toList = A' ++ B' := by
  induction fuel generalizing t p n A B with
  | zero => lia
  | succ fuel ih =>
    cases t with
    | nil =>
      rw [toList_nil, eq_comm, List.append_eq_nil_iff] at ht
      obtain ⟨rfl, rfl⟩ := ht
      exact ⟨_, [], [], rfl, rfl, ⟨Or.inl ⟨rfl, rfl, by simp⟩, Or.inl ⟨rfl, rfl, by simp⟩⟩, rfl⟩
    | node l b s r =>
      have hlen : l.toList.length + r.toList.length < fuel := by
        rw [toList_node, length_append, length_cons] at hfuel
        lia
      have hlen' : (merge l r).toList.length < fuel := by
        rw [toList_merge, length_append]
        exact hlen
      obtain ⟨hp1, hp2, hp3⟩ := h.block
      rw [coalesce]
      rcases append_cons_split ht with ⟨A2, rfl, hr⟩ | ⟨B1, hl, rfl⟩
      · -- the node is one of those below
        have hs : Sound (b, s) := h.sound (b, s) (by simp)
        have hle : b + s ≤ p := h.below (b, s) (by simp)
        obtain ⟨hs1, hs2, hs3⟩ := id hs
        rw [if_neg (by lia), if_pos (by lia), show nextblk b s = b + s from nextblk_of_sound hs]
        by_cases htouch : b + s = p
        · rw [if_pos htouch]
          obtain rfl : A2 = [] := h.last_of_touch htouch
          have hfits := h.join_left htouch
          have hu : uint32 (n + s) = n + s := uint32_of_ufits ⟨by lia, by lia⟩
          obtain ⟨j, A', B', hj, hclash, hjoin, htree⟩ :=
            ih hlen' (by rw [toList_merge, hr, List.nil_append]) hfits
          rw [hu, hj]
          exact ⟨_, A', B', rfl, hclash, hjoin.of_left h htouch, htree⟩
        · rw [if_neg htouch, if_neg (by lia)]
          have hap := h.apart
          rw [Apart, append_assoc, pairwise_append, cons_append,
            pairwise_cons] at hap
          have hfits : Fits A2 B p n := by
            refine ⟨hap.2.1.2, ?_, h.block, ?_, h.above⟩
            · exact fun x hx => h.sound x (by
                rcases List.mem_append.mp hx with hx | hx <;> simp [hx])
            · exact fun x hx => h.below x (by simp [hx])
          obtain ⟨j, A', B', hj, hclash, hjoin, htree⟩ := ih (by lia) hr hfits
          rw [hj]
          refine ⟨_, l.toList ++ (b, s) :: A', B', rfl, hclash, ?_, ?_⟩
          · have hX : ∀ x ∈ l.toList ++ [(b, s)], hi x < p := by
              intro x hx
              rcases List.mem_append.mp hx with hx | hx
              · have hlt : hi x < b := hap.2.2 x hx (b, s) (by simp)
                lia
              · rw [List.mem_singleton.mp hx, hi]
                lia
            have := hjoin.prefix hX
            simpa using this
          · show l.toList ++ (b, s) :: j.tree.toList = _
            rw [htree]
            simp
      · -- the node is one of those above
        have hs : Sound (b, s) := h.sound (b, s) (by simp)
        have hle : p + n ≤ b := h.above (b, s) (by simp)
        obtain ⟨hs1, hs2, hs3⟩ := id hs
        rw [if_pos (by lia), show nextblk p n = p + n from nextblk_of_sound h.block]
        by_cases htouch : p + n = b
        · rw [if_pos htouch]
          obtain rfl : B1 = [] := h.first_of_touch htouch.symm
          have hfits := h.join_right htouch.symm
          have hu : uint32 (n + s) = n + s := uint32_of_ufits ⟨by lia, by lia⟩
          obtain ⟨j, A', B', hj, hclash, hjoin, htree⟩ :=
            ih hlen' (by rw [toList_merge, hl, List.append_nil]) hfits
          rw [hu, hj]
          exact ⟨_, A', B', rfl, hclash, hjoin.of_right h htouch.symm, htree⟩
        · rw [if_neg htouch, if_neg (by lia)]
          have hap := h.apart
          rw [Apart, ← append_assoc, pairwise_append, pairwise_cons] at hap
          have hfits : Fits A B1 p n := by
            refine ⟨hap.1, ?_, h.block, h.below, ?_⟩
            · exact fun x hx => h.sound x (by
                rcases List.mem_append.mp hx with hx | hx <;> simp [hx])
            · exact fun x hx => h.above x (by simp [hx])
          obtain ⟨j, A', B', hj, hclash, hjoin, htree⟩ := ih (by lia) hl hfits
          rw [hj]
          refine ⟨_, A', B' ++ (b, s) :: r.toList, rfl, hclash, ?_, ?_⟩
          · refine hjoin.suffix ?_
            intro x hx
            rcases List.mem_cons.mp hx with rfl | hx
            · rw [lo]
              lia
            · have hlt : b + s < lo x := hap.2.1.1 x hx
              lia
          · show j.tree.toList ++ (b, s) :: r.toList = _
            rw [htree]
            simp

/-- The size of the block `(p, n)` with its neighbours among `l`. -/
def joinedSize (l : List Block) (p n : ℤ) : ℤ :=
  n + ((l.filter fun b => decide (hi b = p ∨ lo b = p + n)).map Prod.snd).sum

/-- A neighbour counts in full. -/
theorem le_joinedSize {l : List Block} (hs : ∀ b ∈ l, Sound b) {b : Block} (hb : b ∈ l)
    (htouch : hi b = p ∨ lo b = p + n) : n + b.2 ≤ joinedSize l p n := by
  have hsum : b.2 ≤ ((l.filter fun b => decide (hi b = p ∨ lo b = p + n)).map Prod.snd).sum := by
    refine List.single_le_sum ?_ b.2 (List.mem_map_of_mem ?_)
    · intro x hx
      obtain ⟨c, hc, rfl⟩ := List.mem_map.mp hx
      exact le_of_lt (hs c (List.mem_of_mem_filter hc)).2.1
    · rw [List.mem_filter]
      exact ⟨hb, decide_eq_true htouch⟩
  rw [joinedSize]
  omega

/-- Coalescing leads to a block of that size. -/
theorem Joined.size_eq (h : Fits A B p n) (hj : Joined A B p n p' n' A' B') :
    n' = joinedSize (A ++ B) p n := by
  obtain ⟨hap, hs, ⟨hp1, hp2, hp3⟩, hbelow, habove⟩ := id h
  rw [Apart, pairwise_append] at hap
  obtain ⟨hapA, hapB, -⟩ := hap
  have hskip : ∀ X : List Block, (∀ x ∈ X, hi x ≠ p ∧ lo x ≠ p + n) →
      (X.filter fun b => decide (hi b = p ∨ lo b = p + n)) = [] := by
    intro X hX
    rw [List.filter_eq_nil_iff]
    intro x hx
    have := hX x hx
    simp only [decide_eq_true_eq, not_or]
    exact this
  have hA : ((A.filter fun b => decide (hi b = p ∨ lo b = p + n)).map Prod.snd).sum = p - p' := by
    rcases hj.left with ⟨-, rfl, hlt⟩ | ⟨a, rfl, ha, rfl⟩
    · rw [hskip A]
      · simp
      · intro x hx
        have hx' := hlt x hx
        obtain ⟨-, hx2, -⟩ := hs x (by simp [hx])
        rw [hi] at hx'
        rw [hi, lo]
        lia
    · obtain ⟨-, ha2, -⟩ := hs a (by simp)
      rw [pairwise_append] at hapA
      rw [List.filter_append, hskip A', List.nil_append, List.filter_cons_of_pos (by simp [ha])]
      · rw [hi] at ha
        rw [lo]
        simp
        lia
      · intro x hx
        have hx' : hi x < lo a := hapA.2.2 x hx a (by simp)
        obtain ⟨-, hx2, -⟩ := hs x (by simp [hx])
        rw [hi, lo] at hx'
        rw [hi] at ha
        rw [hi, lo]
        lia
  have hB : ((B.filter fun b => decide (hi b = p ∨ lo b = p + n)).map Prod.snd).sum =
      p' + n' - (p + n) := by
    rcases hj.right with ⟨-, hend, hlt⟩ | ⟨b, rfl, hb, hend⟩
    · rw [hskip B]
      · simp [hend]
      · intro x hx
        have hx' := hlt x hx
        obtain ⟨-, hx2, -⟩ := hs x (by simp [hx])
        rw [lo] at hx'
        rw [hi, lo]
        lia
    · obtain ⟨-, hb2, -⟩ := hs b (by simp)
      rw [pairwise_cons] at hapB
      rw [List.filter_cons_of_pos (by simp [hb]), hskip B']
      · rw [hend]
        rw [lo] at hb
        rw [hi]
        simp
        lia
      · intro x hx
        have hx' : hi b < lo x := hapB.1 x hx
        obtain ⟨-, hx2, -⟩ := hs x (by simp [hx])
        rw [hi, lo] at hx'
        rw [lo] at hb
        rw [hi, lo]
        lia
  rw [joinedSize, List.filter_append, List.map_append, List.sum_append, hA, hB]
  lia

/-- A root that does not touch the block stays the root. -/
theorem coalesce_root {l r : CartesianTree ℤ ℤ} {b s : ℤ}
    (h : coalesce fuel p n (node l b s r) = some j) (hclash : j.clash = false)
    (hright : nextblk p n ≠ b) (hleft : nextblk b s ≠ p) :
    ∃ fuel' j', j = { j' with tree := if p < b then node j'.tree b s r else node l b s j'.tree } ∧
      coalesce fuel' p n (if p < b then l else r) = some j' := by
  cases fuel with
  | zero => cases h
  | succ fuel =>
    rw [coalesce] at h
    by_cases hlt : p < b
    · rw [if_pos hlt, if_neg hright] at h
      by_cases hgt : nextblk p n > b
      · rw [if_pos hgt, some.injEq] at h
        subst h
        exact absurd hclash (by simp)
      · rw [if_neg hgt] at h
        obtain ⟨j', hj', rfl⟩ := map_eq_some_iff.mp h
        exact ⟨fuel, j', by rw [if_pos hlt], by rw [if_pos hlt, hj']⟩
    · rw [if_neg hlt] at h
      by_cases hgt : p > b
      · rw [if_pos hgt, if_neg hleft] at h
        by_cases hover : nextblk b s > p
        · rw [if_pos hover, some.injEq] at h
          subst h
          exact absurd hclash (by simp)
        · rw [if_neg hover] at h
          obtain ⟨j', hj', rfl⟩ := map_eq_some_iff.mp h
          exact ⟨fuel, j', by rw [if_neg hlt], by rw [if_neg hlt, hj']⟩
      · rw [if_neg hgt, some.injEq] at h
        subst h
        exact absurd hclash (by simp)

/-! ## Trees of free blocks -/

/-- A tree of free blocks apart from each other, the larger above the smaller. -/
structure Valid (t : CartesianTree ℤ ℤ) : Prop where
  apart : Apart lo hi t.toList
  sound : ∀ b ∈ t.toList, Sound b
  heap : t.Heap

/-- The addresses in the free blocks of a tree. -/
def room (t : CartesianTree ℤ ℤ) : Set ℤ := cover lo hi t.toList

theorem room_eq (t : CartesianTree ℤ ℤ) : room t = cover lo hi t.toList := rfl

theorem valid_nil : Valid nil := ⟨List.Pairwise.nil, by simp, trivial⟩

/-- A block that overlaps no free block lies between two of them. -/
theorem exists_fits {l : List Block} (hap : Apart lo hi l) (hs : ∀ b ∈ l, Sound b)
    (hblock : Sound (p, n)) (hdis : Disjoint (Set.Ico p (p + n)) (cover lo hi l)) :
    ∃ A B, l = A ++ B ∧ Fits A B p n := by
  have hsplit : ∃ A B, l = A ++ B ∧ (∀ a ∈ A, hi a ≤ p) ∧ ∀ b ∈ B, p + n ≤ lo b := by
    induction l with
    | nil => exact ⟨[], [], rfl, by simp, by simp⟩
    | cons b l ih =>
      rw [Apart, pairwise_cons] at hap
      obtain ⟨hb1, hb2, hb3⟩ := hs b (by simp)
      obtain ⟨hp1, hp2, hp3⟩ := hblock
      by_cases hle : hi b ≤ p
      · have hdis' : Disjoint (Set.Ico p (p + n)) (cover lo hi l) := by
          rw [cover_cons] at hdis
          exact hdis.mono_right subset_union_right
        obtain ⟨A, B, rfl, hA, hB⟩ := ih hap.2 (fun c hc => hs c (by simp [hc])) hdis'
        exact ⟨b :: A, B, rfl, List.forall_mem_cons.mpr ⟨hle, hA⟩, hB⟩
      · refine ⟨[], b :: l, rfl, by simp, ?_⟩
        have hlo : p + n ≤ lo b := by
          by_contra hlt
          -- the larger of the two lower ends lies in both
          have hmem : max p (lo b) ∈ Set.Ico p (p + n) := by
            exact ⟨le_max_left _ _, max_lt (by omega) (not_le.mp hlt)⟩
          refine Set.disjoint_left.mp hdis hmem ⟨b, by simp, le_max_right _ _, ?_⟩
          exact max_lt (not_le.mp hle) (by rw [lo, hi]; omega)
        intro c hc
        rcases List.mem_cons.mp hc with rfl | hc
        · exact hlo
        · have hlt : hi b < lo c := hap.1 c hc
          rw [hi] at hlt
          rw [lo] at hlo
          omega
  obtain ⟨A, B, rfl, hA, hB⟩ := hsplit
  exact ⟨A, B, rfl, hap, hs, hblock, hA, hB⟩

/-- What joining the neighbours of a block leads to. -/
structure Joined.Done (A B : List Block) (p n p' n' : ℤ) (A' B' : List Block) : Prop where
  apart : Apart lo hi (A' ++ (p', n') :: B')
  sound : Sound (p', n')
  between : Between A' B' p'
  sub : ∀ b ∈ A' ++ B', b ∈ A ++ B
  cover : cover lo hi (A' ++ (p', n') :: B') = cover lo hi (A ++ B) ∪ Set.Ico p (p + n)
  le : n ≤ n' ∧ p' ≤ p ∧ p + n ≤ p' + n'

/-- The block, its neighbours and what is left make up what there was. -/
theorem Joined.done (h : Fits A B p n) (hj : Joined A B p n p' n' A' B') :
    Joined.Done A B p n p' n' A' B' := by
  obtain ⟨hap, hs, ⟨hp1, hp2, hp3⟩, hbelow, habove⟩ := id h
  rw [Apart, pairwise_append] at hap
  obtain ⟨hapA, hapB, hapAB⟩ := hap
  -- below
  obtain ⟨hA'1, hA'2, hA'3, hp'le, hp'1, hcovA⟩ :
      Apart lo hi A' ∧ (∀ a ∈ A', a ∈ A) ∧ (∀ a ∈ A', hi a < p') ∧ p' ≤ p ∧ 0 ≤ p' ∧
        Segments.cover lo hi A = Segments.cover lo hi A' ∪ Set.Ico p' p := by
    rcases hj.left with ⟨rfl, rfl, hlt⟩ | ⟨a, rfl, ha, rfl⟩
    · exact ⟨hapA, fun a ha => ha, hlt, le_refl _, hp1, by simp⟩
    · rw [pairwise_append] at hapA
      obtain ⟨ha1, ha2, -⟩ := hs a (by simp)
      refine ⟨hapA.1, fun x hx => by simp [hx], fun x hx => hapA.2.2 x hx a (by simp), ?_, ha1, ?_⟩
      · rw [hi] at ha
        rw [lo]
        lia
      · rw [cover_append, cover_cons, cover_nil, union_empty, ha]
  -- above
  obtain ⟨hB'1, hB'2, hB'3, hn'le, hn'3, hcovB⟩ :
      Apart lo hi B' ∧ (∀ b ∈ B', b ∈ B) ∧ (∀ b ∈ B', p' + n' < lo b) ∧ p + n ≤ p' + n' ∧
        p' + n' < 4294967296 ∧
        Segments.cover lo hi B = Set.Ico (p + n) (p' + n') ∪ Segments.cover lo hi B' := by
    rcases hj.right with ⟨rfl, hend, hlt⟩ | ⟨b, rfl, hb, hend⟩
    · rw [hend]
      exact ⟨hapB, fun b hb => hb, hlt, le_refl _, hp3, by simp⟩
    · rw [pairwise_cons] at hapB
      obtain ⟨hb1, hb2, hb3⟩ := hs b (by simp)
      refine ⟨hapB.2, fun x hx => by simp [hx], ?_, ?_, by rw [hend]; exact hb3, ?_⟩
      · intro x hx
        rw [hend]
        exact hapB.1 x hx
      · rw [hend, ← hb, lo, hi]
        lia
      · rw [cover_cons, hb, hend]
  refine ⟨?_, ⟨hp'1, by simp only; lia, hn'3⟩, ⟨?_, ?_⟩, ?_, ?_, ⟨by lia, hp'le, hn'le⟩⟩
  · rw [Apart, pairwise_append, pairwise_cons]
    refine ⟨hA'1, ⟨hB'3, hB'1⟩, ?_⟩
    intro a ha c hc
    rcases List.mem_cons.mp hc with rfl | hc
    · exact hA'3 a ha
    · exact hapAB a (hA'2 a ha) c (hB'2 c hc)
  · intro a ha
    obtain ⟨-, ha2, -⟩ := hs a (mem_append_left _ (hA'2 a ha))
    have hlt := hA'3 a ha
    rw [hi] at hlt
    lia
  · intro b hb
    have hlt := hB'3 b hb
    rw [lo] at hlt
    lia
  · intro b hb
    rcases List.mem_append.mp hb with hb | hb
    · exact mem_append_left _ (hA'2 b hb)
    · exact List.mem_append_right _ (hB'2 b hb)
  · rw [cover_append, cover_cons, cover_append, hcovA, hcovB]
    have hIco : Set.Ico (lo (p', n')) (hi (p', n')) =
        Set.Ico p' p ∪ Set.Ico p (p + n) ∪ Set.Ico (p + n) (p' + n') := by
      rw [Set.Ico_union_Ico_eq_Ico hp'le (by lia), Set.Ico_union_Ico_eq_Ico (by lia) hn'le]
      rfl
    rw [hIco]
    ext u
    simp only [mem_union]
    tauto

/-- The blocks left lie clear of the joined one. -/
theorem Joined.Done.clear (h : Joined.Done A B p n p' n' A' B') {c : Block}
    (hc : c ∈ A' ++ B') : hi c < p' ∨ p' + n' < lo c := by
  have hap := h.apart
  rw [Apart, pairwise_append, pairwise_cons] at hap
  rcases List.mem_append.mp hc with hc | hc
  · exact Or.inl (hap.2.2 c hc (p', n') (by simp))
  · exact Or.inr (hap.2.1.1 c hc)

/-- Coalescing keeps the heap, and only takes blocks away. -/
theorem coalesce_heap (ht : t.Heap) (h : coalesce fuel p n t = some j) :
    j.tree.Heap ∧ ∀ b ∈ j.tree.toList, b ∈ t.toList := by
  induction fuel generalizing t p n j with
  | zero => cases h
  | succ fuel ih =>
    cases t with
    | nil =>
      rw [coalesce, some.injEq] at h
      subst h
      exact ⟨trivial, fun b hb => hb⟩
    | node l b s r =>
      obtain ⟨hl, hr, hhl, hhr⟩ := heap_node_iff.mp ht
      -- the node is merged out
      have hmerge : ∀ {p' n' : ℤ}, (coalesce fuel p' n' (merge l r)).map
          (fun j => { j with absorbed := j.absorbed + 1 }) = some j →
          j.tree.Heap ∧ ∀ x ∈ j.tree.toList, x ∈ (node l b s r).toList := by
        intro p' n' h
        obtain ⟨j', hj', rfl⟩ := map_eq_some_iff.mp h
        obtain ⟨hheap, hsub⟩ := ih (hhl.merge hhr) hj'
        refine ⟨hheap, fun x hx => ?_⟩
        have hx' := hsub x hx
        rw [toList_merge, mem_append] at hx'
        rw [toList_node, mem_append, mem_cons]
        tauto
      rw [coalesce] at h
      by_cases hlt : p < b
      · rw [if_pos hlt] at h
        by_cases heq : nextblk p n = b
        · rw [if_pos heq] at h
          exact hmerge h
        · rw [if_neg heq] at h
          by_cases hgt : nextblk p n > b
          · rw [if_pos hgt, some.injEq] at h
            subst h
            exact ⟨ht, fun x hx => hx⟩
          · rw [if_neg hgt] at h
            obtain ⟨j', hj', rfl⟩ := map_eq_some_iff.mp h
            obtain ⟨hheap, hsub⟩ := ih hhl hj'
            refine ⟨heap_node_iff.mpr ⟨fun x hx => hl x (hsub x hx), hr, hheap, hhr⟩, ?_⟩
            exact forall_mem_node.mpr ⟨fun x hx => by simp [hsub x hx], by simp,
              fun x hx => by simp [hx]⟩
      · rw [if_neg hlt] at h
        by_cases hgt : p > b
        · rw [if_pos hgt] at h
          by_cases heq : nextblk b s = p
          · rw [if_pos heq] at h
            exact hmerge h
          · rw [if_neg heq] at h
            by_cases hover : nextblk b s > p
            · rw [if_pos hover, some.injEq] at h
              subst h
              exact ⟨ht, fun x hx => hx⟩
            · rw [if_neg hover] at h
              obtain ⟨j', hj', rfl⟩ := map_eq_some_iff.mp h
              obtain ⟨hheap, hsub⟩ := ih hhr hj'
              refine ⟨heap_node_iff.mpr ⟨hl, fun x hx => hr x (hsub x hx), hhl, hheap⟩, ?_⟩
              exact forall_mem_node.mpr ⟨fun x hx => by simp [hx], by simp,
                fun x hx => by simp [hsub x hx]⟩
        · rw [if_neg hgt, some.injEq] at h
          subst h
          exact ⟨ht, fun x hx => hx⟩

/-- **Freeing.**  A block that overlaps no free block is joined to its neighbours
and inserted, and the tree stays valid. -/
theorem coalesce_insert (ht : Valid t) (hblock : Sound (p, n))
    (hdis : Disjoint (Set.Ico p (p + n)) (room t)) :
    ∃ j A B A' B', coalesce (t.toList.length + 1) p n t = some j ∧ j.clash = false ∧
      t.toList = A ++ B ∧ Fits A B p n ∧ Joined A B p n j.addr j.size A' B' ∧
      j.tree.toList = A' ++ B' ∧
      Valid (insert j.addr j.size j.tree) ∧
      room (insert j.addr j.size j.tree) = room t ∪ Set.Ico p (p + n) := by
  obtain ⟨A, B, hl, hfits⟩ := exists_fits ht.apart ht.sound hblock hdis
  obtain ⟨j, A', B', hj, hclash, hjoin, htree⟩ := coalesce_spec (Nat.lt_succ_self _) hl hfits
  have hdone := hjoin.done hfits
  have hins := toList_insert (n := j.size) htree hdone.between
  refine ⟨j, A, B, A', B', hj, hclash, hl, hfits, hjoin, htree, ⟨?_, ?_, ?_⟩, ?_⟩
  · rw [hins]
    exact hdone.apart
  · rw [hins]
    intro b hb
    rcases List.mem_append.mp hb with hb | hb
    · exact ht.sound b (by rw [hl]; exact hdone.sub b (mem_append_left _ hb))
    · rcases List.mem_cons.mp hb with rfl | hb
      · exact hdone.sound
      · exact ht.sound b (by rw [hl]; exact hdone.sub b (List.mem_append_right _ hb))
  · exact (coalesce_heap ht.heap hj).1.insert _ _
  · rw [room_eq, room_eq, hins, hl, hdone.cover]

/-- Coalescing takes as many blocks away as it joins. -/
theorem coalesce_length
    (h : coalesce fuel p n t = some j) : j.tree.toList.length + j.absorbed = t.toList.length := by
  induction fuel generalizing t p n j with
  | zero => cases h
  | succ fuel ih =>
    cases t with
    | nil =>
      cases h
      rfl
    | node l b s r =>
      have hmerge : ∀ {p' n' : ℤ}, (coalesce fuel p' n' (merge l r)).map
          (fun j => { j with absorbed := j.absorbed + 1 }) = some j →
          j.tree.toList.length + j.absorbed = (node l b s r).toList.length := by
        intro p' n' h
        obtain ⟨j', hj', rfl⟩ := map_eq_some_iff.mp h
        have := ih hj'
        rw [toList_merge, length_append] at this
        rw [toList_node, length_append, length_cons]
        show j'.tree.toList.length + (j'.absorbed + 1) = _
        omega
      rw [coalesce] at h
      split_ifs at h
      · exact hmerge h
      · cases h
        rfl
      · obtain ⟨j', hj', rfl⟩ := map_eq_some_iff.mp h
        have := ih hj'
        simp only [toList_node, length_append, length_cons]
        omega
      · exact hmerge h
      · cases h
        rfl
      · obtain ⟨j', hj', rfl⟩ := map_eq_some_iff.mp h
        have := ih hj'
        simp only [toList_node, length_append, length_cons]
        omega
      · cases h
        rfl

/-! ## A block that is free already -/

/-- The block `(p, n)` starts in the free block `c`, or runs into it. -/
def Clash (p n : ℤ) (c : Block) : Prop := c.1 ≤ p ∧ p < hi c ∨ p < c.1 ∧ c.1 < nextblk p n

/-- **Coalescing comes upon a clash** exactly when there is one, and however many blocks it
has joined by then. -/
theorem coalesce_clash_iff (hfuel : t.toList.length < fuel)
    (hap : Apart lo hi t.toList) (hs : ∀ b ∈ t.toList, Sound b) :
    ∃ j, coalesce fuel p n t = some j ∧ (j.clash = true ↔ ∃ c ∈ t.toList, Clash p n c) := by
  induction fuel generalizing t p n with
  | zero => lia
  | succ fuel ih =>
    cases t with
    | nil => exact ⟨_, rfl, by simp⟩
    | node l b s r =>
      obtain ⟨hsl, hsb, hsr⟩ := forall_mem_node.mp hs
      rw [toList_node, Apart, pairwise_append, pairwise_cons] at hap
      obtain ⟨hapl, ⟨hbr, hapr⟩, hlb⟩ := hap
      have hlen : l.toList.length + r.toList.length < fuel := by
        rw [toList_node, length_append, length_cons] at hfuel
        lia
      have hlow : ∀ c ∈ l.toList, c.1 < hi c ∧ hi c < b := by
        intro c hc
        have hpos := (hsl c hc).2.1
        exact ⟨by rw [hi]; lia, hlb c hc (b, s) (by simp)⟩
      have hhigh : ∀ c ∈ r.toList, b + s < c.1 := fun c hc => hbr c hc
      have hpos : 0 < s := hsb.2.1
      have hend : nextblk b s = b + s := nextblk_of_sound hsb
      have hmerge : ∀ p' n', (∀ c ∈ l.toList ++ r.toList, Clash p' n' c ↔ Clash p n c) →
          ¬ Clash p n (b, s) → ∃ j, (coalesce fuel p' n' (merge l r)).map
            (fun j => { j with absorbed := j.absorbed + 1 }) = some j ∧
            (j.clash = true ↔ ∃ c ∈ (node l b s r).toList, Clash p n c) := by
        intro p' n' hsame hnot
        obtain ⟨j, hj, hiff⟩ := ih (t := merge l r) (p := p') (n := n')
          (by rw [toList_merge, length_append]; exact hlen)
          (by
            rw [toList_merge, Apart, pairwise_append]
            exact ⟨hapl, hapr, fun x hx y hy => hlb x hx y (by simp [hy])⟩)
          (by
            intro c hc
            rw [toList_merge, mem_append] at hc
            rcases hc with hc | hc
            · exact hsl c hc
            · exact hsr c hc)
        rw [hj]
        refine ⟨_, rfl, hiff.trans ?_⟩
        rw [toList_merge, toList_node]
        constructor
        · rintro ⟨c, hc, hclash⟩
          refine ⟨c, ?_, (hsame c hc).mp hclash⟩
          rw [mem_append] at hc
          rw [mem_append, mem_cons]
          tauto
        · rintro ⟨c, hc, hclash⟩
          rw [mem_append, mem_cons] at hc
          rcases hc with hc | rfl | hc
          · have hc' := mem_append_left r.toList hc
            exact ⟨c, hc', (hsame c hc').mpr hclash⟩
          · exact absurd hclash hnot
          · have hc' := List.mem_append_right l.toList hc
            exact ⟨c, hc', (hsame c hc').mpr hclash⟩
      rw [coalesce]
      by_cases hlt : p < b
      · rw [if_pos hlt]
        by_cases htouch : nextblk p n = b
        · -- the node is joined on the right
          rw [if_pos htouch]
          have hnext : nextblk p (uint32 (n + s)) = b + s := by
            rw [← hend, ← htouch]
            unfold nextblk uint32
            lia
          refine hmerge _ _ (fun c hc => ?_) ?_
          · unfold Clash
            rw [hnext, htouch]
            rcases List.mem_append.mp hc with hc | hc
            · have := hlow c hc
              lia
            · have := hhigh c hc
              lia
          · unfold Clash
            rw [htouch]
            lia
        · rw [if_neg htouch]
          by_cases hover : nextblk p n > b
          · rw [if_pos hover]
            exact ⟨_, rfl, iff_of_true rfl ⟨(b, s), by simp, Or.inr ⟨hlt, hover⟩⟩⟩
          · rw [if_neg hover]
            obtain ⟨j, hj, hiff⟩ := ih (t := l) (p := p) (n := n) (by lia) hapl hsl
            rw [hj]
            refine ⟨_, rfl, hiff.trans ⟨?_, ?_⟩⟩
            · rintro ⟨c, hc, hclash⟩
              exact ⟨c, by simp [hc], hclash⟩
            · rintro ⟨c, hc, hclash⟩
              unfold Clash at hclash
              rw [toList_node, mem_append, mem_cons] at hc
              rcases hc with hc | rfl | hc
              · exact ⟨c, hc, hclash⟩
              · simp only at hclash
                lia
              · have := hhigh c hc
                lia
      · rw [if_neg hlt]
        by_cases hgt : p > b
        · rw [if_pos hgt, hend]
          by_cases htouch : b + s = p
          · -- the node is joined on the left
            rw [if_pos htouch]
            have hnext : nextblk b (uint32 (n + s)) = nextblk p n := by
              rw [← htouch]
              unfold nextblk uint32
              lia
            refine hmerge _ _ (fun c hc => ?_) ?_
            · unfold Clash
              rw [hnext]
              rcases List.mem_append.mp hc with hc | hc
              · have := hlow c hc
                lia
              · have := hhigh c hc
                lia
            · unfold Clash
              simp only [hi]
              lia
          · rw [if_neg htouch]
            by_cases hover : b + s > p
            · rw [if_pos hover]
              exact ⟨_, rfl, iff_of_true rfl ⟨(b, s), by simp, Or.inl ⟨le_of_lt hgt, hover⟩⟩⟩
            · rw [if_neg hover]
              obtain ⟨j, hj, hiff⟩ := ih (t := r) (p := p) (n := n) (by lia) hapr hsr
              rw [hj]
              refine ⟨_, rfl, hiff.trans ⟨?_, ?_⟩⟩
              · rintro ⟨c, hc, hclash⟩
                exact ⟨c, by simp [hc], hclash⟩
              · rintro ⟨c, hc, hclash⟩
                unfold Clash at hclash
                rw [toList_node, mem_append, mem_cons] at hc
                rcases hc with hc | rfl | hc
                · have := hlow c hc
                  lia
                · simp only [hi] at hclash
                  lia
                · exact ⟨c, hc, hclash⟩
        · rw [if_neg hgt]
          exact ⟨_, rfl, iff_of_true rfl ⟨(b, s), by simp, Or.inl ⟨by simp only; lia, by
            simp only [hi]; lia⟩⟩⟩

/-! ## Taking a block out of its place -/

variable {l r : CartesianTree ℤ ℤ} {b s : ℤ} {path : List (Crumb ℤ ℤ)}

theorem toList_plug_node :
    (plug path (node l b s r)).toList =
      (before path ++ l.toList) ++ (b, s) :: (r.toList ++ after path) := by
  simp

theorem Valid.sound_node (h : Valid (plug path (node l b s r))) : Sound (b, s) :=
  h.sound (b, s) (by simp)

/-- Deleting a node takes its block out. -/
theorem Valid.delete (h : Valid (plug path (node l b s r))) :
    Valid (plug path (merge l r)) ∧
      room (plug path (merge l r)) = room (plug path (node l b s r)) \ Set.Ico b (b + s) := by
  have hap := h.apart
  rw [toList_plug_node] at hap
  have hlist : (plug path (merge l r)).toList =
      (before path ++ l.toList) ++ [] ++ (r.toList ++ after path) := by
    simp
  obtain ⟨hl, hr, hhl, hhr⟩ := heap_node_iff.mp (plug_heap_sub h.heap)
  refine ⟨⟨?_, ?_, ?_⟩, ?_⟩
  · rw [hlist]
    exact hap.carve List.Pairwise.nil (by simp) (by simp)
  · rw [hlist]
    intro x hx
    exact h.sound x (by
      rw [toList_plug_node]
      simp only [List.append_nil, mem_append, mem_cons] at hx ⊢
      tauto)
  · refine h.heap.plug (hhl.merge hhr) ?_
    intro x hx
    exact ⟨x, by
      rw [toList_merge, mem_append] at hx
      rw [toList_node, mem_append, mem_cons]
      tauto, le_refl _⟩
  · rw [room_eq, room_eq, hlist, toList_plug_node]
    exact cover_carve _ hap.ordered (le_refl _) (by simp [lo, hi])

/-- Replacing a node's block by a piece of it and demoting the node takes the rest
of the block out. -/
theorem Valid.shrink (h : Valid (plug path (node l b s r))) (b' s' : ℤ) (hlo : b ≤ b')
    (hpos : 0 < s') (hhi : b' + s' ≤ b + s) :
    Valid (plug path (demote b' s' l r)) ∧
      room (plug path (demote b' s' l r)) =
        room (plug path (node l b s r)) \ (Set.Ico b (b + s) \ Set.Ico b' (b' + s')) := by
  have hap := h.apart
  rw [toList_plug_node] at hap
  have hlist : (plug path (demote b' s' l r)).toList =
      (before path ++ l.toList) ++ [(b', s')] ++ (r.toList ++ after path) := by
    simp
  obtain ⟨hs1, hs2, hs3⟩ := h.sound_node
  obtain ⟨hl, hr, hhl, hhr⟩ := heap_node_iff.mp (plug_heap_sub h.heap)
  refine ⟨⟨?_, ?_, ?_⟩, ?_⟩
  · rw [hlist]
    refine hap.carve (List.pairwise_singleton _ _) ?_ ?_
    · intro x hx
      rw [List.mem_singleton.mp hx]
      exact hlo
    · intro x hx
      rw [List.mem_singleton.mp hx]
      exact hhi
  · rw [hlist]
    intro x hx
    simp only [mem_append, List.mem_singleton] at hx
    rcases hx with (hx | rfl) | hx
    · exact h.sound x (by simp only [toList_plug, toList_node, mem_append]; tauto)
    · exact ⟨by simp only; omega, hpos, by simp only; omega⟩
    · exact h.sound x (by
        simp only [toList_plug, toList_node, mem_append, mem_cons]; tauto)
  · refine h.heap.plug (hhl.demote b' s' hhr) ?_
    intro x hx
    rw [toList_demote, mem_append, mem_cons] at hx
    rcases hx with hx | rfl | hx
    · exact ⟨x, by simp [hx], le_refl _⟩
    · exact ⟨(b, s), by simp, by simp only; omega⟩
    · exact ⟨x, by simp [hx], le_refl _⟩
  · rw [room_eq, room_eq, hlist, toList_plug_node]
    refine cover_carve _ hap.ordered sdiff_subset ?_
    have hsub : Set.Ico b' (b' + s') ⊆ Set.Ico b (b + s) := Set.Ico_subset_Ico hlo hhi
    rw [cover_cons, cover_nil, union_empty]
    exact (sdiff_sdiff_cancel_left hsub).symm

/-! ## The better fitting child -/

/-- A node that has been walked down to, and where it is. -/
structure Place where
  left : CartesianTree ℤ ℤ
  addr : ℤ
  size : ℤ
  right : CartesianTree ℤ ℤ
  path : List (Crumb ℤ ℤ)
  deriving DecidableEq, Repr

/-- The node of a place. -/
def Place.node (a : Place) : CartesianTree ℤ ℤ := .node a.left a.addr a.size a.right

/-- Walk down from the root: while one child weighs at least `n`, go to the
better fitting one (the lighter if it weighs enough, else the heavier). -/
def bestFit (weight : CartesianTree ℤ ℤ → ℤ) (n : ℤ) :
    CartesianTree ℤ ℤ → List (Crumb ℤ ℤ) → Option Place
  | nil, _ => none
  | node l b s r, path =>
    if weight l ≥ n ∨ weight r ≥ n then
      if weight l ≤ weight r then
        if weight l ≥ n then bestFit weight n l (.left b s r :: path)
        else bestFit weight n r (.right l b s :: path)
      else
        if weight r ≥ n then bestFit weight n r (.right l b s :: path)
        else bestFit weight n l (.left b s r :: path)
    else some ⟨l, b, s, r, path⟩

/-- The walk ends at a node of the tree, whose children weigh less than `n`; it is
the root or weighs at least `n`. -/
theorem bestFit_spec (weight : CartesianTree ℤ ℤ → ℤ) {n : ℤ} (hn : weight nil < n)
    (ht : t ≠ nil) (path : List (Crumb ℤ ℤ)) :
    ∃ a, bestFit weight n t path = some a ∧ plug a.path a.node = plug path t ∧
      weight a.left < n ∧ weight a.right < n ∧ (a.node = t ∨ n ≤ weight a.node) := by
  induction t generalizing path with
  | nil => exact absurd rfl ht
  | node l b s r ihl ihr =>
    -- a child that weighs enough is a node
    have hleft : n ≤ weight l → ∃ a, bestFit weight n l (.left b s r :: path) = some a ∧
        plug a.path a.node = plug path (node l b s r) ∧ weight a.left < n ∧
        weight a.right < n ∧ (a.node = node l b s r ∨ n ≤ weight a.node) := by
      intro hw
      have hne : l ≠ nil := by
        rintro rfl
        omega
      obtain ⟨a, ha, hplug, hl, hr, hnode⟩ := ihl hne (.left b s r :: path)
      refine ⟨a, ha, hplug, hl, hr, Or.inr ?_⟩
      rcases hnode with hnode | hnode
      · rw [hnode]
        exact hw
      · exact hnode
    have hright : n ≤ weight r → ∃ a, bestFit weight n r (.right l b s :: path) = some a ∧
        plug a.path a.node = plug path (node l b s r) ∧ weight a.left < n ∧
        weight a.right < n ∧ (a.node = node l b s r ∨ n ≤ weight a.node) := by
      intro hw
      have hne : r ≠ nil := by
        rintro rfl
        omega
      obtain ⟨a, ha, hplug, hl, hr, hnode⟩ := ihr hne (.right l b s :: path)
      refine ⟨a, ha, hplug, hl, hr, Or.inr ?_⟩
      rcases hnode with hnode | hnode
      · rw [hnode]
        exact hw
      · exact hnode
    rw [bestFit]
    by_cases hsome : weight l ≥ n ∨ weight r ≥ n
    · rw [if_pos hsome]
      by_cases hle : weight l ≤ weight r
      · rw [if_pos hle]
        by_cases hw : weight l ≥ n
        · rw [if_pos hw]
          exact hleft hw
        · rw [if_neg hw]
          exact hright (by omega)
      · rw [if_neg hle]
        by_cases hw : weight r ≥ n
        · rw [if_pos hw]
          exact hright hw
        · rw [if_neg hw]
          exact hleft (by omega)
    · rw [if_neg hsome]
      rw [not_or, not_le, not_le] at hsome
      exact ⟨_, rfl, rfl, hsome.1, hsome.2, Or.inl rfl⟩

/-! ## The root of a tree -/

/-- The size of the root, 0 of an empty tree. -/
def weight : CartesianTree ℤ ℤ → ℤ
  | nil => 0
  | node _ _ s _ => s

/-- The block of the root. -/
def top : CartesianTree ℤ ℤ → Option Block
  | nil => none
  | node _ b s _ => some (b, s)

/-- In a heap of blocks of positive size the root is the heaviest. -/
theorem weight_le {t t' : CartesianTree ℤ ℤ} (ht : t.Heap) (hs : ∀ b ∈ t.toList, 0 < b.2)
    (hsub : ∀ b ∈ t'.toList, b ∈ t.toList) : weight t' ≤ weight t := by
  cases t with
  | nil =>
    cases t' with
    | nil => exact le_refl _
    | node l b s r => exact absurd (hsub (b, s) (by simp)) (by simp)
  | node l b s r =>
    cases t' with
    | nil => exact le_of_lt (hs (b, s) (by simp))
    | node l' b' s' r' => exact ht.forall_le (le_refl s) (b', s') (hsub _ (by simp))

theorem weight_congr {t t' : CartesianTree ℤ ℤ} (h : top t = top t') : weight t = weight t' := by
  cases t with
  | nil =>
    cases t' with
    | nil => rfl
    | node l b s r => cases h
  | node l b s r =>
    cases t' with
    | nil => cases h
    | node l' b' s' r' =>
      rw [top, top, some.injEq, Prod.mk.injEq] at h
      exact h.2

/-- A block lighter than the root goes below it. -/
theorem top_insert_of_le (hn : 0 < n) (hle : n ≤ weight t) : top (t.insert p n) = top t := by
  cases t with
  | nil =>
    rw [weight] at hle
    omega
  | node l b s r =>
    rw [weight] at hle
    rw [CartesianTree.insert, if_pos hle]
    by_cases hlt : p < b
    · rw [if_pos hlt]
      rfl
    · rw [if_neg hlt]
      rfl

/-- A block heavier than the root takes its place. -/
theorem top_insert_of_lt (hlt : weight t < n) : top (t.insert p n) = some (p, n) := by
  cases t with
  | nil => rfl
  | node l b s r =>
    rw [weight] at hlt
    rw [CartesianTree.insert, if_neg (not_le.mpr hlt)]
    rfl

/-- The root stays the root when the joined block is lighter than what is left:
a root that is joined makes it heavier. -/
theorem top_coalesce (ht : t.Heap)
    (hs : ∀ b ∈ t.toList, 0 < b.2) (h : coalesce fuel p n t = some j) (hclash : j.clash = false)
    (htouch : ∀ c ∈ t.toList, nextblk p n = c.1 ∨ nextblk c.1 c.2 = p → c.2 < j.size)
    (hle : j.size ≤ weight j.tree) : top j.tree = top t := by
  obtain ⟨-, hsub⟩ := coalesce_heap ht h
  have hw := weight_le ht hs hsub
  cases t with
  | nil =>
    cases hj : j.tree with
    | nil => rfl
    | node l b s r => exact absurd (hsub (b, s) (by simp [hj])) (by simp)
  | node l b s r =>
    rw [weight] at hw
    have hnot : ¬ (nextblk p n = b ∨ nextblk b s = p) := by
      intro hc
      have := htouch (b, s) (by simp) hc
      omega
    rw [not_or] at hnot
    obtain ⟨fuel', j', rfl, -⟩ := coalesce_root h hclash hnot.1 hnot.2
    by_cases hlt : p < b
    · simp only [if_pos hlt]
      rfl
    · simp only [if_neg hlt]
      rfl

/-! ## Runs of free addresses -/

/-- Two blocks of a tree are the same or apart. -/
theorem Valid.same_or_apart (ht : Valid t) {c d : Block}
    (hc : c ∈ t.toList) (hd : d ∈ t.toList) : c = d ∨ hi c < lo d ∨ hi d < lo c := by
  let R : Block → Block → Prop := fun a b => a = b ∨ hi a < lo b ∨ hi b < lo a
  have hself : ∀ a ∈ t.toList, R a a := fun _ _ => Or.inl rfl
  have hap : t.toList.Pairwise R := ht.apart.imp fun hlt => Or.inr (Or.inl hlt)
  have hflip : t.toList.Pairwise (flip R) := ht.apart.imp fun hlt => Or.inr (Or.inr hlt)
  exact hap.forall_of_forall_of_flip hself hflip hc hd

/-- **A run of free addresses lies in one block.** -/
theorem Valid.run (ht : Valid t) {x k : ℤ} (hk : 0 < k)
    (h : Set.Ico x (x + k) ⊆ room t) : ∃ c ∈ t.toList, lo c ≤ x ∧ x + k ≤ hi c := by
  obtain ⟨c, hc, hlo, hhi⟩ := h (show x ∈ Set.Ico x (x + k) from ⟨le_refl _, by omega⟩)
  refine ⟨c, hc, hlo, ?_⟩
  by_contra hlt
  -- the address after the block would be free
  obtain ⟨d, hd, hlo', hhi'⟩ := h (show hi c ∈ Set.Ico x (x + k) from ⟨by omega, by omega⟩)
  rcases ht.same_or_apart hc hd with rfl | hcd | hdc
  · omega
  · omega
  · have := (ht.sound c hc).2.1
    rw [lo] at hdc
    rw [hi] at hhi'
    omega

end FastFits
