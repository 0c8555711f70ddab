/-
# Doubly linked lists

A list is known by its first node; every node has a link forward and a link back, and `0` stands for
no node.  A node goes in after a given one, or in front, and comes out by its own links.
-/
import Mathlib.Logic.Function.Basic
import Mathlib.Data.List.Nodup

/-- The first node, and the links of all nodes. -/
structure Doubly where
  head : ℕ
  nxt : ℕ → ℕ
  prev : ℕ → ℕ

namespace Doubly

open List
open Function (update update_of_ne update_self)

variable {q q' : Doubly} {a b c p r : ℕ} {l m : List ℕ}

/-! ## The operations -/

/-- The node after `p`, the first one after none. -/
def next (q : Doubly) (p : ℕ) : ℕ := if p = 0 then q.head else q.nxt p

/-- `a` goes after `p`, or in front. -/
def insert (q : Doubly) (p a : ℕ) : Doubly where
  head := if p = 0 then a else q.head
  nxt :=
    if p = 0 then update q.nxt a q.head
    else update (update q.nxt a (q.nxt p)) p a
  prev :=
    update (if q.next p = 0 then q.prev else update q.prev (q.next p) a) a p

/-- The neighbours of `a` are linked to each other. -/
def delete (q : Doubly) (a : ℕ) : Doubly where
  head := if q.prev a = 0 then q.nxt a else q.head
  nxt := if q.prev a = 0 then q.nxt else update q.nxt (q.prev a) (q.nxt a)
  prev := if q.nxt a = 0 then q.prev else update q.prev (q.nxt a) (q.prev a)

/-- The first node from `a` on with `f`, or no node; nothing when the walk takes too long. -/
def find (q : Doubly) (f : ℕ → Bool) : ℕ → ℕ → Option ℕ
  | 0, _ => none
  | fuel + 1, a => if a = 0 then some 0 else if f a then some a else find q f fuel (q.nxt a)

/-! ## Linked nodes -/

/-- From `a` on, which comes after `p`, the nodes of `l` are linked both ways. -/
def Linked (q : Doubly) : ℕ → ℕ → List ℕ → Prop
  | _, a, [] => a = 0
  | p, a, b :: l => a = b ∧ b ≠ 0 ∧ q.prev b = p ∧ Linked q b (q.nxt b) l

/-- **The list holds `l`.** -/
structure Holds (q : Doubly) (l : List ℕ) : Prop where
  linked : Linked q 0 q.head l
  nodup : l.Nodup

namespace Linked

/-- Only the links of its own nodes matter. -/
theorem congr (h : Linked q p a l) (hl : ∀ b ∈ l, q'.nxt b = q.nxt b ∧ q'.prev b = q.prev b) :
    Linked q' p a l := by
  induction l generalizing p a with
  | nil => exact h
  | cons b l ih =>
    obtain ⟨rfl, hb, hp, h⟩ := h
    obtain ⟨hn', hp'⟩ := hl a mem_cons_self
    refine ⟨rfl, hb, hp'.trans hp, ?_⟩
    rw [hn']
    exact ih h fun c hc => hl c (mem_cons_of_mem _ hc)

/-- No node is the null one. -/
theorem ne_zero (h : Linked q p a l) (hb : b ∈ l) : b ≠ 0 := by
  induction l generalizing p a with
  | nil => cases hb
  | cons c l ih =>
    obtain ⟨rfl, hc, -, h⟩ := h
    rcases List.mem_cons.mp hb with rfl | hb
    · exact hc
    · exact ih h hb

theorem first (h : Linked q p a l) : a = l.headD 0 := by
  cases l with
  | nil => exact h
  | cons b l => exact h.1

/-- From a node on, the rest of the list follows. -/
theorem rest (h : Linked q p a (l ++ b :: m)) : Linked q b (q.nxt b) m := by
  induction l generalizing p a with
  | nil => exact h.2.2.2
  | cons c l ih => exact ih h.2.2.2

/-- The end of a list is linked from its first node on. -/
theorem suffix (h : Linked q p a (l ++ m)) : ∃ b, Linked q b (m.headD 0) m := by
  induction l generalizing p a with
  | nil => exact ⟨p, h.first ▸ h⟩
  | cons c l ih => exact ih h.2.2.2

theorem nxt_eq (h : Linked q p a (l ++ b :: m)) : q.nxt b = m.headD 0 := h.rest.first

/-- The link back leads to the node before. -/
theorem prev_eq (h : Linked q p a (l ++ b :: m)) : q.prev b = l.getLast?.getD p := by
  induction l generalizing p a with
  | nil => exact h.2.2.1
  | cons c l ih =>
    rw [ih h.2.2.2]
    cases l with
    | nil => rfl
    | cons d l => rfl

/-- What comes after a node is exchanged. -/
theorem replace {m' : List ℕ} (h : Linked q p a (l ++ b :: m))
    (hl : ∀ c ∈ l, q'.nxt c = q.nxt c ∧ q'.prev c = q.prev c) (hb : q'.prev b = q.prev b)
    (h' : Linked q' b (q'.nxt b) m') : Linked q' p a (l ++ b :: m') := by
  induction l generalizing p a with
  | nil =>
    obtain ⟨rfl, ha, hp, -⟩ := h
    exact ⟨rfl, ha, hb.trans hp, h'⟩
  | cons c l ih =>
    obtain ⟨rfl, ha, hp, hrest⟩ := h
    obtain ⟨hn', hp'⟩ := hl a mem_cons_self
    refine ⟨rfl, ha, hp'.trans hp, ?_⟩
    rw [hn']
    exact ih hrest fun d hd => hl d (mem_cons_of_mem _ hd)

/-- A node is found at once, or the walk goes on after it. -/
theorem find_eq {f : ℕ → Bool} {fuel : ℕ} (h : Linked q p a l) (hfuel : l.length < fuel) :
    q.find f fuel a = some ((l.find? f).getD 0) := by
  induction l generalizing p a fuel with
  | nil =>
    obtain ⟨fuel, rfl⟩ : ∃ k, fuel = k + 1 := ⟨fuel - 1, by simp at hfuel; omega⟩
    obtain rfl : a = 0 := h
    rfl
  | cons b l ih =>
    obtain ⟨fuel, rfl⟩ : ∃ k, fuel = k + 1 := ⟨fuel - 1, by simp at hfuel; omega⟩
    obtain ⟨rfl, ha, -, h⟩ := h
    rw [find, if_neg ha]
    by_cases hf : f a
    · rw [if_pos hf, List.find?_cons_of_pos hf]
      rfl
    · rw [if_neg hf, List.find?_cons_of_neg hf]
      exact ih h (by simpa using hfuel)

end Linked

theorem headD_mem_or : m.headD 0 = 0 ∨ m.headD 0 ∈ m := by
  cases m with
  | nil => exact Or.inl rfl
  | cons c m => exact Or.inr mem_cons_self

/-! ## Inserting -/

/-- What an insertion does to the other nodes. -/
theorem insert_nxt_of_ne (hba : b ≠ a) (hbp : b ≠ p) : (q.insert p a).nxt b = q.nxt b := by
  show (if p = 0 then _ else _ : ℕ → ℕ) b = _
  split_ifs
  · exact update_of_ne hba _ _
  · rw [update_of_ne hbp, update_of_ne hba]

theorem insert_prev_of_ne (hba : b ≠ a) (hn : b ≠ q.next p) :
    (q.insert p a).prev b = q.prev b := by
  show update (if _ then _ else _ : ℕ → ℕ) a p b = _
  rw [update_of_ne hba]
  split_ifs
  · rfl
  · exact update_of_ne hn _ _

@[simp] theorem insert_prev_self : (q.insert p a).prev a = p := update_self _ _ _

theorem insert_prev_next (h : q.next p ≠ 0) (ha : q.next p ≠ a) :
    (q.insert p a).prev (q.next p) = a := by
  show update (if _ then _ else _ : ℕ → ℕ) a p _ = _
  rw [update_of_ne ha, if_neg h, update_self]

theorem insert_nxt_self (hap : a ≠ p) : (q.insert p a).nxt a = q.next p := by
  show (if p = 0 then _ else _ : ℕ → ℕ) a = if p = 0 then _ else _
  split_ifs
  · exact update_self _ _ _
  · rw [update_of_ne hap, update_self]

/-- The new node and what comes after it. -/
theorem Linked.insert_here (h : Linked q p (q.next p) m) (hm : m.Nodup) (ha : a ≠ 0) (ham : a ∉ m)
    (hap : a ≠ p) (hpm : p ∉ m) : Linked (q.insert p a) p a (a :: m) := by
  refine ⟨rfl, ha, insert_prev_self, ?_⟩
  rw [insert_nxt_self hap]
  cases m with
  | nil => exact h
  | cons c m =>
    rw [mem_cons, not_or] at ham hpm
    obtain ⟨hc, hc0, -, hrest⟩ := h
    refine ⟨hc, hc0, ?_, ?_⟩
    · rw [← hc]
      exact insert_prev_next (hc.symm ▸ hc0) (hc.symm ▸ Ne.symm ham.1)
    · rw [insert_nxt_of_ne (Ne.symm ham.1) (Ne.symm hpm.1)]
      refine hrest.congr fun d hd => ?_
      have hda : d ≠ a := fun he => ham.2 (he ▸ hd)
      have hdp : d ≠ p := fun he => hpm.2 (he ▸ hd)
      have hdc : d ≠ q.next p := by
        rw [hc]
        exact fun he => (List.nodup_cons.mp hm).1 (he ▸ hd)
      exact ⟨insert_nxt_of_ne hda hdp, insert_prev_of_ne hda hdc⟩

namespace Holds

theorem ne_zero (h : Holds q l) (hb : b ∈ l) : b ≠ 0 := h.linked.ne_zero hb

theorem zero_not_mem (h : Holds q l) : 0 ∉ l := fun h0 => h.ne_zero h0 rfl

/-- **A node goes in front.** -/
theorem insert_first (h : Holds q l) (ha : a ≠ 0) (hal : a ∉ l) :
    Holds (q.insert 0 a) (a :: l) := by
  refine ⟨?_, List.nodup_cons.mpr ⟨hal, h.nodup⟩⟩
  have hhead : (q.insert 0 a).head = a := rfl
  rw [hhead]
  exact Linked.insert_here h.linked h.nodup ha hal ha h.zero_not_mem

/-- The links forward of a list do not lead back. -/
theorem nxt_not_mem (h : Holds q (l ++ b :: m)) : q.nxt b ∉ l ++ [b] := by
  intro hmem
  have hnd := h.nodup
  have heq : l ++ b :: m = (l ++ [b]) ++ m := by simp
  rw [heq, List.nodup_append'] at hnd
  rw [h.linked.nxt_eq] at hmem
  rcases headD_mem_or (m := m) with h0 | hm
  · rw [h0] at hmem
    refine h.zero_not_mem ?_
    rw [heq]
    exact mem_append_left _ hmem
  · exact hnd.2.2 hmem hm

/-- **A node goes in after another.** -/
theorem insert_after (h : Holds q (l ++ p :: m)) (ha : a ≠ 0) (hal : a ∉ l ++ p :: m) :
    Holds (q.insert p a) (l ++ p :: a :: m) := by
  have hp : p ≠ 0 := h.ne_zero (by simp)
  have hnext : q.next p = q.nxt p := if_neg hp
  have hback := h.nxt_not_mem
  have hnd := h.nodup
  rw [List.nodup_append', nodup_cons] at hnd
  obtain ⟨hln, ⟨hpm, hmn⟩, hdis⟩ := hnd
  simp only [mem_append, mem_cons, not_mem_nil, or_false, not_or] at hal hback
  obtain ⟨hal, hap, ham⟩ := hal
  refine ⟨?_, ?_⟩
  · have hhead : (q.insert p a).head = q.head := if_neg hp
    have hpa : (q.insert p a).nxt p = a := by
      show (if p = 0 then _ else _ : ℕ → ℕ) p = a
      rw [if_neg hp, update_self]
    rw [hhead]
    refine h.linked.replace ?_ ?_ ?_
    · intro c hc
      have hca : c ≠ a := fun he => hal (he ▸ hc)
      have hcp : c ≠ p := fun he => hdis hc (he ▸ mem_cons_self)
      exact ⟨insert_nxt_of_ne hca hcp,
        insert_prev_of_ne hca fun he => hback.1 (hnext ▸ he ▸ hc)⟩
    · exact insert_prev_of_ne (Ne.symm hap) fun he => hback.2 (he.trans hnext).symm
    · rw [hpa]
      exact Linked.insert_here (hnext ▸ h.linked.rest) hmn ha ham hap hpm
  · rw [List.nodup_append', nodup_cons, nodup_cons]
    simp only [disjoint_cons_right, mem_cons, not_or] at hdis ⊢
    exact ⟨hln, ⟨⟨Ne.symm hap, hpm⟩, ham, hmn⟩, hdis.1, hal, hdis.2⟩

/-! ## Removing -/

/-- A node comes out. -/
theorem delete_middle (h : Holds q (l ++ a :: m)) : Holds (q.delete a) (l ++ m) := by
  have hback := h.nxt_not_mem
  have hnd := h.nodup
  have hlinked := h.linked
  rw [List.nodup_append', nodup_cons] at hnd
  obtain ⟨hln, ⟨ham, hmn⟩, hdis⟩ := hnd
  rw [disjoint_cons_right] at hdis
  refine ⟨?_, List.nodup_append'.mpr ⟨hln, hmn, hdis.2⟩⟩
  -- what comes after `a`, with a link back to what came before it
  have hprev : ∀ c, c ≠ q.nxt a → (q.delete a).prev c = q.prev c := by
    intro c hc
    show (if q.nxt a = 0 then _ else _ : ℕ → ℕ) c = _
    split_ifs
    · rfl
    · exact update_of_ne hc _ _
  have hnxt : ∀ c, c ≠ q.prev a → (q.delete a).nxt c = q.nxt c := by
    intro c hc
    show (if q.prev a = 0 then _ else _ : ℕ → ℕ) c = _
    split_ifs
    · rfl
    · exact update_of_ne hc _ _
  have hafter : ∀ p, p = q.prev a → p ∉ m → Linked (q.delete a) p (q.nxt a) m := by
    intro p hp hpm
    have hrest := hlinked.rest
    cases m with
    | nil => exact hrest
    | cons c m =>
      rw [mem_cons, not_or] at hpm
      obtain ⟨hc, hc0, -, hrest⟩ := hrest
      refine ⟨hc, hc0, ?_, ?_⟩
      · show (if q.nxt a = 0 then _ else _ : ℕ → ℕ) c = p
        rw [hc, if_neg hc0, update_self, hp]
      · rw [hnxt c (hp ▸ Ne.symm hpm.1)]
        refine hrest.congr fun d hd => ?_
        refine ⟨hnxt d fun he => hpm.2 ?_, hprev d fun he => (List.nodup_cons.mp hmn).1 ?_⟩
        · rw [hp, ← he]
          exact hd
        · rw [← hc, ← he]
          exact hd
  rcases eq_nil_or_concat l with rfl | ⟨l, p, rfl⟩
  · have hp : q.prev a = 0 := hlinked.prev_eq
    have hhead : (q.delete a).head = q.nxt a := if_pos hp
    rw [hhead]
    exact hafter 0 hp.symm fun h0 => h.zero_not_mem (by simp [h0])
  · rw [concat_eq_append] at *
    have heq : l ++ [p] ++ a :: m = l ++ p :: a :: m := by simp
    have hp : q.prev a = p := by
      rw [hlinked.prev_eq, List.getLast?_concat]
      rfl
    have hp0 : p ≠ 0 := h.ne_zero (by simp)
    have hhead : (q.delete a).head = q.head := if_neg (hp ▸ hp0)
    have hpn : (q.delete a).nxt p = q.nxt a := by
      show (if q.prev a = 0 then _ else _ : ℕ → ℕ) p = _
      rw [hp, if_neg hp0, update_self]
    simp only [mem_append, mem_singleton, not_or] at hback
    rw [hhead, append_assoc, singleton_append]
    rw [heq] at hlinked
    refine hlinked.replace ?_ ?_ ?_
    · intro c hc
      refine ⟨hnxt c ?_, hprev c fun he => hback.1.1 (he ▸ hc)⟩
      rw [hp]
      rintro rfl
      exact (List.nodup_append'.mp hln).2.2 hc (mem_singleton_self c)
    · exact hprev p (Ne.symm hback.1.2)
    · rw [hpn]
      exact hafter p hp.symm fun hpm => hdis.2 (by simp) hpm

/-- **A node comes out.** -/
theorem delete_mem (h : Holds q l) (ha : a ∈ l) : Holds (q.delete a) (l.erase a) := by
  obtain ⟨k, m, hk, rfl, he⟩ := exists_erase_eq ha
  rw [he]
  exact h.delete_middle

end Holds

end Doubly
