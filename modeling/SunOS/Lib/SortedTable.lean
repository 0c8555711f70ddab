/-
# Sorted tables of nonzero amounts

A table holds an amount for some keys, in entries that ascend by key; a key without an
entry has the amount zero.  Adding to the amount of a key inserts, changes or removes one
entry.  As an entry is never zero, the table is determined by its amounts, so that an
addition followed by the opposite one gives back the very table.
-/
import Mathlib.Algebra.BigOperators.Group.List.Basic
import Mathlib.Data.List.Sort
import Mathlib.Data.List.TakeWhile
import Mathlib.Order.Lattice
import Mathlib.Tactic.Abel

namespace SortedTable

open List

variable {α κ M : Type*} [LinearOrder κ] [AddCommGroup M]
  {key : α → κ} {val : α → M} {l l' lo hi : List α} {a : α} {k : κ} {v : M}

/-- The keys ascend. -/
def Sorted (key : α → κ) (l : List α) : Prop := l.Pairwise fun a b => key a < key b

/-- The amount of key `k`. -/
def look (key : α → κ) (val : α → M) (l : List α) (k : κ) : M :=
  (l.map fun a => if key a = k then val a else 0).sum

theorem look_cons : look key val (a :: l) k = (if key a = k then val a else 0) + look key val
    l k := by
  unfold look
  rw [map_cons, sum_cons]

theorem look_append : look key val (l ++ l') k = look key val l k + look key val l' k := by
  unfold look
  rw [map_append, sum_append]

theorem look_eq_zero (h : ∀ a ∈ l, key a ≠ k) : look key val l k = 0 := by
  induction l with
  | nil => rfl
  | cons a l ih =>
    rw [look_cons, if_neg (h a (mem_cons_self ..)), zero_add]
    exact ih fun b hb => h b (mem_cons_of_mem _ hb)

theorem Sorted.nodup (h : Sorted key l) : l.Nodup :=
  h.imp fun hlt heq => by
    rw [heq] at hlt
    exact lt_irrefl _ hlt

/-- An entry holds the amount of its key. -/
theorem Sorted.look_mem (h : Sorted key l) (ha : a ∈ l) : look key val l (key a) = val a := by
  induction l with
  | nil => cases ha
  | cons b l ih =>
    obtain ⟨hb, hl⟩ := List.pairwise_cons.mp h
    rw [look_cons]
    rcases List.mem_cons.mp ha with rfl | ha
    · rw [if_pos rfl, look_eq_zero fun c hc => (hb c hc).ne', add_zero]
    · rw [if_neg (hb a ha).ne, zero_add, ih hl ha]

/-- **The amounts determine the table**, if no entry is zero. -/
theorem Sorted.ext (h : Sorted key l) (h' : Sorted key l') (hl : ∀ a ∈ l, val a ≠ 0)
    (hl' : ∀ a ∈ l', val a ≠ 0) (hinj : ∀ a b, key a = key b → val a = val b → a = b)
    (heq : ∀ k, look key val l k = look key val l' k) : l = l' := by
  have hsub : ∀ {l l' : List α}, Sorted key l → Sorted key l' → (∀ a ∈ l, val a ≠ 0) →
      (∀ k, look key val l k = look key val l' k) → ∀ a ∈ l, a ∈ l' := by
    intro l l' h h' hl heq a ha
    by_contra hna
    have h1 : look key val l' (key a) = val a := by rw [← heq, h.look_mem ha]
    by_cases hex : ∃ b ∈ l', key b = key a
    · obtain ⟨b, hb, hk⟩ := hex
      rw [← hk, h'.look_mem hb] at h1
      rw [hinj b a hk h1] at hb
      exact hna hb
    · rw [look_eq_zero fun b hb hk => hex ⟨b, hb, hk⟩] at h1
      exact hl a ha h1.symm
  have hperm : l.Perm l' := (perm_ext_iff_of_nodup h.nodup h'.nodup).mpr fun a =>
    ⟨hsub h h' hl heq a, hsub h' h hl' (fun k => (heq k).symm) a⟩
  refine hperm.eq_of_pairwise (fun a b _ _ hab hba => absurd (hab.trans hba) (lt_irrefl _)) h h'

/-! ## The place of a key -/

/-- The table splits at `k`: the keys of `lo` are smaller, those of `hi` are not. -/
structure Split (key : α → κ) (l : List α) (k : κ) (lo hi : List α) : Prop where
  eq : l = lo ++ hi
  below : ∀ a ∈ lo, key a < k
  above : ∀ a ∈ hi, k ≤ key a

/-- A scan over the smaller keys finds the place of `k`. -/
theorem Sorted.split (h : Sorted key l) {p : α → Bool} (hp : ∀ a, p a = true ↔ key a < k) :
    Split key l k (l.takeWhile p) (l.dropWhile p) := by
  refine ⟨(takeWhile_append_dropWhile).symm, fun a ha => (hp a).mp (mem_takeWhile_imp ha),
    fun a ha => ?_⟩
  induction l with
  | nil => cases ha
  | cons b l ih =>
    obtain ⟨hb, hl⟩ := List.pairwise_cons.mp h
    by_cases hpb : p b = true
    · rw [dropWhile_cons_of_pos hpb] at ha
      exact ih hl ha
    · rw [dropWhile_cons_of_neg hpb] at ha
      have hkb : k ≤ key b := not_lt.mp fun hlt => hpb ((hp b).mpr hlt)
      rcases List.mem_cons.mp ha with rfl | ha
      · exact hkb
      · exact hkb.trans (hb a ha).le

/-- Without `k` in front of it, the table has no entry of `k`. -/
theorem Split.head_above (h : Sorted key l) (hs : Split key l k lo hi)
    (hk : ∀ b ∈ hi.head?, key b ≠ k) : ∀ b ∈ hi, k < key b := by
  intro b hb
  cases hi with
  | nil => cases hb
  | cons c hi =>
    have hc : k < key c := lt_of_le_of_ne (hs.above c (mem_cons_self ..)) (hk c rfl).symm
    rcases List.mem_cons.mp hb with rfl | hb
    · exact hc
    · have h1 := h
      rw [hs.eq] at h1
      exact hc.trans ((List.pairwise_cons.mp (List.pairwise_append.mp h1).2.1).1 b hb)

/-- The parts below and above `k`, with or without an entry of `k` in between. -/
theorem sorted_around (h : Sorted key (lo ++ hi)) (hlo : ∀ b ∈ lo, key b < k)
    (hhi : ∀ b ∈ hi, k < key b) (ha : key a = k) : Sorted key (lo ++ a :: hi) := by
  obtain ⟨h1, h2, h3⟩ := List.pairwise_append.mp h
  refine List.pairwise_append.mpr ⟨h1, List.pairwise_cons.mpr ⟨fun b hb => ?_, h2⟩,
    fun b hb c hc => ?_⟩
  · rw [ha]
    exact hhi b hb
  · rcases List.mem_cons.mp hc with rfl | hc
    · rw [ha]
      exact hlo b hb
    · exact h3 b hb c hc

theorem Sorted.without (h : Sorted key (lo ++ a :: hi)) : Sorted key (lo ++ hi) :=
  List.Pairwise.sublist (List.Sublist.append_left (sublist_cons_self a hi) lo) h

theorem Sorted.around (h : Sorted key (lo ++ a :: hi)) {b : α} (hb : key b = key a) :
    Sorted key (lo ++ b :: hi) := by
  obtain ⟨-, h2, h3⟩ := List.pairwise_append.mp h
  exact sorted_around h.without (fun c hc => h3 c hc a (mem_cons_self ..))
    (fun c hc => (List.pairwise_cons.mp h2).1 c hc) hb

theorem look_around : look key val (lo ++ a :: hi) k =
    look key val (lo ++ hi) k + if key a = k then val a else 0 := by
  rw [look_append, look_append, look_cons]
  abel

end SortedTable
