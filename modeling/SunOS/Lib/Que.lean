/-
# Queues of `insque` and `remque`

Every node has a link forward and a link back.  From a node `h` on, the links forward lead
through the nodes of a queue and back to `h`, and the links back lead the other way.
`insque` and `remque` change two neighbours only, so that other queues keep their nodes.
-/
import Mathlib.Logic.Function.Basic
import Mathlib.Data.List.Nodup
import Mathlib.Data.List.Perm.Basic

/-- The links of all nodes. -/
structure Que (α : Type*) where
  next : α → α
  prev : α → α

namespace Que

open List
open Function (update update_of_ne update_self)

variable {α : Type*} [DecidableEq α] {q : Que α} {a b h p x : α} {l m : List α}

/-! ## The operations -/

/-- `insque(p, a)`: `p` goes after `a`. -/
def insque (q : Que α) (p a : α) : Que α where
  next := update (update q.next a p) p (q.next a)
  prev := update (update q.prev (q.next a) p) p a

/-- `remque(p)`: the neighbours of `p` are linked to each other. -/
def remque (q : Que α) (p : α) : Que α where
  next := update q.next (q.prev p) (q.next p)
  prev := update q.prev (q.next p) (q.prev p)

/-- `p` is linked to itself. -/
def lone (q : Que α) (p : α) : Que α where
  next := update q.next p p
  prev := update q.prev p p

/-- The first node from `a` on with `f`, or none before `h`; `fuel` bounds the walk. -/
def find (q : Que α) (f : α → Bool) (h : α) : ℕ → α → Option (Option α)
  | 0, _ => none
  | fuel + 1, a => if a = h then some none else if f a then some (some a) else
      find q f h fuel (q.next a)

/-! ## Linked nodes -/

/-- Neighbours in the list are linked both ways. -/
def Linked (q : Que α) : List α → Prop
  | a :: b :: l => q.next a = b ∧ q.prev b = a ∧ Linked q (b :: l)
  | _ => True

/-- **The queue at `h` holds `l`.** -/
structure Holds (q : Que α) (h : α) (l : List α) : Prop where
  linked : Linked q (h :: (l ++ [h]))
  nodup : (h :: l).Nodup

omit [DecidableEq α] in
omit [DecidableEq α] in
/-- A list is linked when both halves are, up to the node they share. -/
theorem linked_append : Linked q (l ++ a :: m) ↔ Linked q (l ++ [a]) ∧ Linked q (a :: m) := by
  induction l with
  | nil => exact ⟨fun h => ⟨trivial, h⟩, fun h => h.2⟩
  | cons b l ih =>
    cases l with
    | nil =>
      show _ ∧ _ ∧ _ ↔ (_ ∧ _ ∧ _) ∧ _
      exact ⟨fun h => ⟨⟨h.1, h.2.1, trivial⟩, h.2.2⟩, fun h => ⟨h.1.1, h.1.2.1, h.2⟩⟩
    | cons c l =>
      have ih' : Linked q (c :: (l ++ a :: m)) ↔ Linked q (c :: (l ++ [a])) ∧ Linked q (a :: m) :=
        ih
      show _ ∧ _ ∧ Linked q (c :: (l ++ a :: m)) ↔ (_ ∧ _ ∧ Linked q (c :: (l ++ [a]))) ∧ _
      rw [ih']
      tauto

omit [DecidableEq α] in
/-- Only links forward of all but the last and links back of all but the first matter. -/
theorem Linked.congr {q' : Que α} (hl : Linked q (a :: (l ++ [b])))
    (hn : ∀ x ∈ a :: l, q'.next x = q.next x) (hp : ∀ x ∈ l ++ [b], q'.prev x = q.prev x) :
    Linked q' (a :: (l ++ [b])) := by
  induction l generalizing a with
  | nil =>
    refine ⟨?_, ?_, trivial⟩
    · rw [hn a (by simp)]
      exact hl.1
    · rw [hp b (by simp)]
      exact hl.2.1
  | cons c l ih =>
    obtain ⟨h1, h2, h3⟩ := hl
    refine ⟨?_, ?_, ih h3 (fun x hx => hn x (mem_cons_of_mem _ hx))
      fun x hx => hp x (mem_cons_of_mem _ hx)⟩
    · rw [hn a (by simp)]
      exact h1
    · rw [hp c (by simp)]
      exact h2

namespace Holds

omit [DecidableEq α] in
theorem not_mem (hq : Holds q h l) : h ∉ l := (List.nodup_cons.mp hq.nodup).1

omit [DecidableEq α] in
theorem nodup_tail (hq : Holds q h l) : l.Nodup := (List.nodup_cons.mp hq.nodup).2

omit [DecidableEq α] in
/-- Only the links of its own nodes matter to a queue. -/
theorem congr {q' : Que α} (hq : Holds q h l) (hn : ∀ x ∈ h :: l, q'.next x = q.next x)
    (hp : ∀ x ∈ h :: l, q'.prev x = q.prev x) : Holds q' h l := by
  refine ⟨hq.linked.congr hn fun x hx => hp x ?_, hq.nodup⟩
  simp only [mem_append, mem_singleton] at hx
  rw [mem_cons]
  exact hx.symm

omit [DecidableEq α] in
/-- Any node of a queue may stand for its head. -/
theorem rotate (hq : Holds q h (l ++ a :: m)) : Holds q a (m ++ h :: l) := by
  have hl := hq.linked
  have hn := hq.nodup
  have h1 : h :: (l ++ a :: m ++ [h]) = (h :: l) ++ a :: (m ++ [h]) := by simp
  rw [h1, linked_append] at hl
  refine ⟨?_, ?_⟩
  · have h2 : a :: (m ++ h :: l ++ [a]) = (a :: m) ++ h :: (l ++ [a]) := by simp
    rw [h2, linked_append]
    exact ⟨hl.2, hl.1⟩
  · have hperm : (a :: (m ++ h :: l)).Perm (h :: (l ++ a :: m)) := by
      have h3 : a :: (m ++ h :: l) = (a :: m) ++ (h :: l) := rfl
      have h4 : h :: (l ++ a :: m) = (h :: l) ++ (a :: m) := rfl
      rw [h3, h4]
      exact perm_append_comm
    exact hperm.nodup_iff.mpr hn

omit [DecidableEq α] in
/-- The link forward from the head. -/
theorem next_head (hq : Holds q h l) : q.next h = (l ++ [h]).headD h := by
  have hl := hq.linked
  cases l with
  | nil => exact hl.1
  | cons a l => exact hl.1

omit [DecidableEq α] in
theorem next_nil (hq : Holds q h []) : q.next h = h := hq.linked.1

omit [DecidableEq α] in
theorem next_cons (hq : Holds q h (a :: l)) : q.next h = a := hq.linked.1

omit [DecidableEq α] in
theorem prev_nil (hq : Holds q h []) : q.prev h = h := hq.linked.2.1

omit [DecidableEq α] in
/-- The link back from the head leads to the last node. -/
theorem prev_append (hq : Holds q h (l ++ [a])) : q.prev h = a := by
  have hr := hq.rotate
  exact hr.linked.2.1

omit [DecidableEq α] in
/-- Links do not leave a queue. -/
theorem next_mem (hq : Holds q h l) (hx : x ∈ h :: l) : q.next x ∈ h :: l := by
  rcases List.mem_cons.mp hx with rfl | hx
  · rw [hq.next_head]
    cases l with
    | nil => exact mem_cons_self
    | cons a l => exact mem_cons_of_mem _ mem_cons_self
  · obtain ⟨k, m, rfl⟩ := append_of_mem hx
    rw [hq.rotate.next_head]
    cases m with
    | nil => exact mem_cons_self
    | cons a m =>
      show a ∈ _
      simp

omit [DecidableEq α] in
theorem prev_mem (hq : Holds q h l) (hx : x ∈ h :: l) : q.prev x ∈ h :: l := by
  have hlast : ∀ {g : α} {k : List α}, Holds q g k → q.prev g ∈ g :: k := by
    intro g k hk
    rcases eq_nil_or_concat k with rfl | ⟨k, a, rfl⟩
    · rw [hk.prev_nil]
      exact mem_cons_self
    · rw [concat_eq_append] at hk ⊢
      rw [hk.prev_append]
      simp
  rcases List.mem_cons.mp hx with rfl | hx
  · exact hlast hq
  · obtain ⟨k, m, rfl⟩ := append_of_mem hx
    have := hlast hq.rotate
    simp only [mem_cons, mem_append] at this ⊢
    tauto

omit [DecidableEq α] in
/-- The link back from the first node. -/
theorem prev_first (hq : Holds q h (a :: l)) : q.prev a = h := hq.linked.2.1

omit [DecidableEq α] in
/-- The link back from a later node. -/
theorem prev_later (hq : Holds q h (l ++ b :: a :: m)) : q.prev a = b := by
  have h1 : l ++ b :: a :: m = (l ++ [b]) ++ a :: m := by simp
  rw [h1] at hq
  have hr := hq.rotate
  have h2 : m ++ h :: (l ++ [b]) = (m ++ h :: l) ++ [b] := by simp
  rw [h2] at hr
  exact hr.prev_append

/-! ## Inserting and removing -/

variable {g : α} {k : List α}

/-- A node goes first. -/
theorem insque_first (hq : Holds q h l) (hp : p ∉ h :: l) : Holds (q.insque p h) h (p :: l) := by
  have hph : p ≠ h := fun he => hp (by simp [he])
  have hnext : ∀ y, y ≠ h → y ≠ p → (q.insque p h).next y = q.next y := by
    intro y h1 h2
    show update (update q.next h p) p (q.next h) y = _
    rw [update_of_ne h2, update_of_ne h1]
  have hprev : ∀ y, y ≠ q.next h → y ≠ p → (q.insque p h).prev y = q.prev y := by
    intro y h1 h2
    show update (update q.prev (q.next h) p) p h y = _
    rw [update_of_ne h2, update_of_ne h1]
  have hnh : (q.insque p h).next h = p := by
    show update (update q.next h p) p (q.next h) h = p
    rw [update_of_ne hph.symm, update_self]
  have hnp : (q.insque p h).next p = q.next h := update_self ..
  have hpp : (q.insque p h).prev p = h := update_self ..
  have hpn : (q.insque p h).prev (q.next h) = p := by
    have hne : q.next h ≠ p := fun he => hp (he ▸ hq.next_mem mem_cons_self)
    show update (update q.prev (q.next h) p) p h (q.next h) = p
    rw [update_of_ne hne, update_self]
  refine ⟨⟨hnh, hpp, ?_⟩, ?_⟩
  · cases l with
    | nil =>
      refine ⟨?_, ?_, trivial⟩
      · rw [hnp, hq.next_nil]
      · rw [hq.next_nil] at hpn
        exact hpn
    | cons a l =>
      have ha := hq.next_cons
      rw [ha] at hnp hpn hprev
      refine ⟨hnp, hpn, ?_⟩
      refine (hq.linked.2.2).congr (fun y hy => hnext y ?_ ?_) fun y hy => hprev y ?_ ?_
      · rintro rfl
        exact hq.not_mem hy
      · rintro rfl
        exact hp (mem_cons_of_mem _ hy)
      · rintro rfl
        rw [mem_append, mem_singleton] at hy
        rcases hy with hy | rfl
        · exact (List.nodup_cons.mp hq.nodup_tail).1 hy
        · exact hq.not_mem mem_cons_self
      · rintro rfl
        rw [mem_append, mem_singleton] at hy
        rcases hy with hy | rfl
        · exact hp (mem_cons_of_mem _ (mem_cons_of_mem _ hy))
        · exact hph rfl
  · refine List.nodup_cons.mpr ⟨?_, List.nodup_cons.mpr ⟨?_, hq.nodup_tail⟩⟩
    · rw [mem_cons, not_or]
      exact ⟨hph.symm, hq.not_mem⟩
    · exact fun hm => hp (mem_cons_of_mem _ hm)

/-- A node goes last. -/
theorem insque_last (hq : Holds q h l) (hp : p ∉ h :: l) :
    Holds (q.insque p (q.prev h)) h (l ++ [p]) := by
  rcases eq_nil_or_concat l with rfl | ⟨k, a, rfl⟩
  · rw [hq.prev_nil]
    exact hq.insque_first hp
  · rw [concat_eq_append] at hq hp ⊢
    rw [hq.prev_append]
    have hr := hq.rotate
    have hrot := hr.insque_first (p := p) (by
      simp only [nil_append, mem_cons, mem_append, not_or] at hp ⊢
      tauto)
    have hback : Holds (q.insque p a) a ([p] ++ h :: k) := hrot
    have := hback.rotate
    rwa [append_assoc]

/-- A node goes before another. -/
theorem insque_before (hq : Holds q h (l ++ a :: m)) (hp : p ∉ h :: (l ++ a :: m)) :
    Holds (q.insque p (q.prev a)) h (l ++ p :: a :: m) := by
  have hr := hq.rotate.insque_last (p := p) (by
    simp only [mem_cons, mem_append, not_or] at hp ⊢
    tauto)
  have hback : Holds (q.insque p (q.prev a)) a (m ++ h :: (l ++ [p])) := by
    rw [append_assoc] at hr
    exact hr
  have := hback.rotate
  rwa [append_assoc] at this

/-- The head of a queue goes; the first node is the new head. -/
theorem remque_head (hq : Holds q p (a :: l)) : Holds (q.remque p) a l := by
  have hnd := hq.nodup_tail
  have hna := hq.next_cons
  refine ⟨?_, hnd⟩
  rcases eq_nil_or_concat l with rfl | ⟨k, b, rfl⟩
  · have hpa : q.prev p = a := hq.prev_append (l := [])
    refine ⟨?_, ?_, trivial⟩
    · show update q.next (q.prev p) (q.next p) a = a
      rw [hpa, hna, update_self]
    · show update q.prev (q.next p) (q.prev p) a = a
      rw [hpa, hna, update_self]
  · rw [concat_eq_append] at *
    have hpb : q.prev p = b := hq.prev_append (l := a :: k)
    have hnb : (q.remque p).next b = a := by
      show update q.next (q.prev p) (q.next p) b = a
      rw [hpb, hna, update_self]
    have hpa : (q.remque p).prev a = b := by
      show update q.prev (q.next p) (q.prev p) a = b
      rw [hpb, hna, update_self]
    have hsplit : a :: (k ++ [b] ++ [a]) = (a :: k) ++ b :: [a] := by simp
    rw [hsplit, linked_append]
    refine ⟨?_, hnb, hpa, trivial⟩
    have hl : Linked q (a :: (k ++ [b] ++ [p])) := hq.linked.2.2
    have hsplit' : a :: (k ++ [b] ++ [p]) = (a :: k) ++ b :: [p] := by simp
    rw [hsplit', linked_append] at hl
    refine hl.1.congr (fun x hx => ?_) fun x hx => ?_
    · show update q.next (q.prev p) (q.next p) x = q.next x
      refine update_of_ne ?_ _ _
      rintro rfl
      rw [hpb, ← cons_append] at *
      exact (disjoint_of_nodup_append hnd) hx (by simp)
    · show update q.prev (q.next p) (q.prev p) x = q.prev x
      refine update_of_ne ?_ _ _
      rintro rfl
      rw [hna] at hx
      exact (List.nodup_cons.mp hnd).1 hx

/-- A node goes; the others stay. -/
theorem remque_self (hq : Holds q h (l ++ p :: m)) : Holds (q.remque p) h (l ++ m) := by
  have hr := hq.rotate
  cases m with
  | nil =>
    rw [append_nil]
    exact hr.remque_head
  | cons a m =>
    have hr' : Holds (q.remque p) a (m ++ h :: l) := hr.remque_head
    exact hr'.rotate

/-- A node removed from one queue leaves another as it is. -/
theorem remque_other (hq : Holds q h l) (hg : Holds q g k) (hp : p ∈ g :: k)
    (hd : ∀ x ∈ g :: k, x ∉ h :: l) : Holds (q.remque p) h l := by
  refine hq.congr (fun x hx => ?_) fun x hx => ?_
  · refine update_of_ne ?_ _ _
    rintro rfl
    exact hd _ (hg.prev_mem hp) hx
  · refine update_of_ne ?_ _ _
    rintro rfl
    exact hd _ (hg.next_mem hp) hx

/-- A node inserted in one queue leaves another as it is. -/
theorem insque_other (hq : Holds q h l) (hg : Holds q g k) (ha : a ∈ g :: k)
    (hd : ∀ x ∈ g :: k, x ∉ h :: l) (hp : p ∉ h :: l) : Holds (q.insque p a) h l := by
  refine hq.congr (fun x hx => ?_) fun x hx => ?_
  · show update (update q.next a p) p (q.next a) x = q.next x
    rw [update_of_ne (fun he : x = p => hp (he ▸ hx)),
      update_of_ne (fun he : x = a => hd a ha (he ▸ hx))]
  · show update (update q.prev (q.next a) p) p a x = q.prev x
    rw [update_of_ne (fun he : x = p => hp (he ▸ hx)),
      update_of_ne (fun he : x = q.next a => hd _ (hg.next_mem ha) (he ▸ hx))]

/-- A node linked to itself leaves a queue without it as it is. -/
theorem lone_other (hq : Holds q h l) (hp : p ∉ h :: l) : Holds (q.lone p) h l := by
  refine hq.congr (fun x hx => ?_) fun x hx => ?_
  · exact update_of_ne (fun he : x = p => hp (he ▸ hx)) _ _
  · exact update_of_ne (fun he : x = p => hp (he ▸ hx)) _ _

/-! ## Moving forward -/

/-- A node that is taken off a queue still knows the node before it. -/
theorem remque_prev (hq : Holds q h (l ++ p :: m)) : (q.remque p).prev p = q.prev p := by
  refine update_of_ne (fun he : p = q.next p => ?_) _ _
  have hr := hq.rotate
  obtain ⟨c, k, hck⟩ := exists_cons_of_ne_nil (show m ++ h :: l ≠ [] by simp)
  rw [hck] at hr
  rw [hr.next_cons] at he
  exact hr.not_mem (by rw [he]; exact mem_cons_self)

/-- A node moves one place forward. -/
def forward (q : Que α) (p : α) : Que α :=
  (q.remque p).insque p ((q.remque p).prev ((q.remque p).prev p))

theorem forward_self (hq : Holds q h (l ++ b :: p :: m)) :
    Holds (forward q p) h (l ++ p :: b :: m) := by
  have hsplit : l ++ b :: p :: m = (l ++ [b]) ++ p :: m := by simp
  have hprev : (q.remque p).prev p = b := by
    have hq' := hq
    rw [hsplit] at hq'
    rw [hq'.remque_prev, hq.prev_later]
  have hnd := hq.nodup
  have hoff : Holds (q.remque p) h (l ++ b :: m) := by
    have hq' := hq
    rw [hsplit] at hq'
    have := hq'.remque_self
    rwa [append_assoc] at this
  unfold forward
  rw [hprev]
  refine hoff.insque_before ?_
  have hperm : (h :: (l ++ b :: p :: m)).Perm (p :: h :: (l ++ b :: m)) := by
    rw [hsplit]
    refine ((List.perm_middle.cons h).trans (List.Perm.swap p h _)).trans ?_
    rw [append_assoc]
    exact List.Perm.refl _
  exact (List.nodup_cons.mp (hperm.nodup_iff.mp hnd)).1

theorem forward_other (hq : Holds q h l) (hg : Holds q g (k ++ b :: p :: m))
    (hd : ∀ x ∈ g :: (k ++ b :: p :: m), x ∉ h :: l) : Holds (forward q p) h l := by
  have hp : p ∈ g :: (k ++ b :: p :: m) := by simp
  have hsplit : k ++ b :: p :: m = (k ++ [b]) ++ p :: m := by simp
  have hprev : (q.remque p).prev p = b := by
    have hg' := hg
    rw [hsplit] at hg'
    rw [hg'.remque_prev, hg.prev_later]
  have hoff : Holds (q.remque p) g (k ++ b :: m) := by
    have hg' := hg
    rw [hsplit] at hg'
    have := hg'.remque_self
    rwa [append_assoc] at this
  unfold forward
  rw [hprev]
  refine (hq.remque_other hg hp hd).insque_other hoff (hoff.prev_mem (by simp)) (fun x hx => ?_)
    (hd p hp)
  refine hd x ?_
  simp only [mem_cons, mem_append] at hx ⊢
  tauto

/-! ## Walking -/

/-- **A walk** along a queue finds what the list has, and ends. -/
theorem find_eq (hq : Holds q h l) (f : α → Bool) {fuel : ℕ} (hf : l.length < fuel) :
    q.find f h fuel (q.next h) = some (l.find? f) := by
  have hsuffix : ∀ (m k : List α) (fuel : ℕ), k ++ m = l → m.length < fuel →
      q.find f h fuel ((m ++ [h]).headD h) = some (m.find? f) := by
    intro m
    induction m with
    | nil =>
      intro k fuel _ hf
      obtain ⟨n, rfl⟩ : ∃ n, fuel = n + 1 := ⟨fuel - 1, by simp at hf; omega⟩
      show (if h = h then _ else _) = _
      rw [if_pos rfl]
      rfl
    | cons a m ih =>
      intro k fuel hk hf
      obtain ⟨n, rfl⟩ : ∃ n, fuel = n + 1 := ⟨fuel - 1, by simp at hf; omega⟩
      have hne : a ≠ h := by
        rintro rfl
        exact hq.not_mem (by rw [← hk]; simp)
      show (if a = h then some none else if f a = true then some (some a) else
        q.find f h n (q.next a)) = _
      rw [if_neg hne]
      by_cases hfa : f a = true
      · rw [if_pos hfa, List.find?_cons_of_pos hfa]
      · rw [if_neg hfa, List.find?_cons_of_neg hfa]
        have hnext : q.next a = (m ++ [h]).headD h := by
          rw [← hk] at hq
          rw [hq.rotate.next_head]
          cases m <;> rfl
        rw [hnext]
        exact ih (k ++ [a]) n (by simp [hk]) (by simp at hf; omega)
  rw [hq.next_head]
  exact hsuffix l [] fuel rfl hf

end Holds

/-- A node linked to itself is an empty queue. -/
theorem lone_holds (q : Que α) (p : α) : Holds (q.lone p) p [] :=
  ⟨⟨update_self .., update_self .., trivial⟩, nodup_singleton p⟩

end Que
