/-
# The pairs of a page

A page of a data base holds pairs, and is a list of them.  `finddatum`, `delitem`,
`additem` and the loop of the split do to it what they should, as long as there is room.
-/
import SunOS.Ndbm.Layout
import Mathlib.Data.Nat.Bitwise

namespace Ndbm

open List
open Bytes (load)

/-- A key and a value. -/
abbrev Pair := datum × datum

/-- The items of the pairs. -/
def ofPairs (l : List Pair) : List datum := l.flatMap fun q => [q.1, q.2]

/-- What the pairs take of a page: their bytes, an offset for each item, and the count. -/
def space (l : List Pair) : ℕ := (l.map fun q => q.1.length + q.2.length + 4).sum + 2

/-- The keys of the pairs. -/
def keys (l : List Pair) : List datum := l.map Prod.fst

/-- The hash of the key has bit `k` set. -/
def moves (k : ℕ) (q : Pair) : Bool := (dcalchash q.1).testBit k

variable {buf : Page} {l a b : List Pair} {q : Pair} {key dat : datum} {k : ℕ}

/-! ## Items and pairs -/

theorem ofPairs_cons : ofPairs (q :: l) = q.1 :: q.2 :: ofPairs l := rfl

theorem ofPairs_append : ofPairs (a ++ b) = ofPairs a ++ ofPairs b := flatMap_append

@[simp] theorem length_ofPairs : (ofPairs l).length = 2 * l.length := by
  induction l with
  | nil => rfl
  | cons q l ih =>
    rw [ofPairs_cons, length_cons, length_cons, ih, length_cons]
    omega

theorem space_nil : space [] = 2 := rfl

theorem space_cons : space (q :: l) = q.1.length + q.2.length + 4 + space l := by
  rw [space, space, map_cons, sum_cons]
  omega

theorem space_append : space (a ++ b) + 2 = space a + space b := by
  induction a with
  | nil =>
    rw [nil_append, space_nil]
    omega
  | cons q a ih =>
    rw [cons_append, space_cons, space_cons]
    omega

theorem space_filter_le (P : Pair → Bool) : space (l.filter P) ≤ space l := by
  induction l with
  | nil => exact le_refl _
  | cons q l ih =>
    rw [filter_cons, space_cons]
    split
    · rw [space_cons]
      omega
    · omega

theorem total_ofPairs : total (ofPairs l) + 4 * l.length + 2 = space l := by
  induction l with
  | nil => rfl
  | cons q l ih =>
    rw [ofPairs_cons, total_cons, total_cons, space_cons, length_cons, ← ih]
    omega

/-- The item of a key, and the one of its value. -/
theorem Holds.makdatum_pair (h : Holds buf (ofPairs (a ++ q :: b))) :
    makdatum buf (2 * a.length) = some q.1 ∧ makdatum buf (2 * a.length + 1) = some q.2 := by
  rw [h.makdatum_eq, h.makdatum_eq, ofPairs_append, ofPairs_cons]
  constructor
  · rw [List.getElem?_append_right (by simp), length_ofPairs, Nat.sub_self]
    rfl
  · rw [List.getElem?_append_right (by simp), length_ofPairs, Nat.add_sub_cancel_left]
    rfl

theorem Holds.makdatum_end (h : Holds buf (ofPairs a)) : makdatum buf (2 * a.length) = none := by
  rw [h.makdatum_eq, List.getElem?_eq_none (by simp)]

/-! ## Finding, taking out, putting in -/

/-- The loop of `finddatum` looks for the key from a pair on. -/
theorem Holds.finddatumLoop_eq (key : datum) {fuel : ℕ} (h : Holds buf (ofPairs (a ++ l)))
    (hfuel : l.length ≤ fuel) :
    finddatumLoop buf key fuel (2 * a.length) (edge (ofPairs (a ++ l)) (2 * a.length)) =
      (l.findIdx? fun q => q.1 = key).map fun i => 2 * (a.length + i) := by
  induction fuel generalizing a l with
  | zero =>
    obtain rfl : l = [] := List.length_eq_zero_iff.mp (Nat.le_zero.mp hfuel)
    rfl
  | succ fuel ih =>
    rw [finddatumLoop, h.count, length_ofPairs, length_append]
    rcases l with - | ⟨q, l⟩
    · exact if_neg (by simp)
    · have hitems : ofPairs (a ++ q :: l) = ofPairs a ++ q.1 :: q.2 :: ofPairs l := by
        rw [ofPairs_append, ofPairs_cons]
      have hload := Holds.load_item (hitems ▸ h)
      have hsize := edge_succ (hitems ▸ h.total_le)
      rw [← hitems, length_ofPairs] at hload hsize
      have hlen : 2 * a.length + 2 = 2 * (a ++ [q]).length := by
        rw [length_append, length_singleton]
        omega
      have hnext : a ++ q :: l = a ++ [q] ++ l := by simp
      have hlt : 2 * a.length + 1 < (ofPairs (a ++ q :: l)).length := by
        simp
        omega
      rw [if_pos (by simp), h.offset _ (by omega), h.offset _ hlt, List.findIdx?_cons]
      simp only [show edge (ofPairs (a ++ q :: l)) (2 * a.length) -
        edge (ofPairs (a ++ q :: l)) (2 * a.length + 1) = q.1.length by omega]
      by_cases hkey : q.1 = key
      · rw [if_pos ⟨by rw [hkey], hload.trans hkey⟩, if_pos (by simpa using hkey)]
        rfl
      · have hne : ¬ (q.1.length = key.length ∧ load buf (edge (ofPairs (a ++ q :: l))
            (2 * a.length + 1)) q.1.length = key) := fun heq => hkey (hload.symm.trans heq.2)
        rw [if_neg hne, if_neg (by simpa using hkey), hlen, hnext,
          ih (hnext ▸ h) (by simpa using hfuel), Option.map_map]
        congr 1
        funext i
        simp
        omega

/-- A key is not on the page, or its pair is between the others. -/
theorem not_mem_or_split (key : datum) (l : List Pair) :
    key ∉ keys l ∨ ∃ a dat b, l = a ++ (key, dat) :: b ∧ key ∉ keys a := by
  induction l with
  | nil => exact .inl (by simp [keys])
  | cons q l ih =>
    by_cases hq : key = q.1
    · exact .inr ⟨[], q.2, l, by rw [hq]; rfl, by simp [keys]⟩
    · rcases ih with hno | ⟨a, dat, b, rfl, ha⟩
      · left
        rw [keys, map_cons, mem_cons, not_or]
        exact ⟨hq, hno⟩
      · right
        refine ⟨q :: a, dat, b, rfl, ?_⟩
        rw [keys, map_cons, mem_cons, not_or]
        exact ⟨hq, ha⟩

/-- **`finddatum`** finds the key of a pair. -/
theorem Holds.finddatum_eq (h : Holds buf (ofPairs l)) :
    finddatum buf key = (l.findIdx? fun q => q.1 = key).map fun i => 2 * i := by
  have hfuel : l.length ≤ sp buf 0 := by
    rw [h.count, length_ofPairs]
    omega
  have hloop := Holds.finddatumLoop_eq (a := []) key h hfuel
  rw [finddatum]
  simpa [edge] using hloop

theorem Holds.finddatum_none (h : Holds buf (ofPairs l)) (hno : key ∉ keys l) :
    finddatum buf key = none := by
  rw [h.finddatum_eq, Option.map_eq_none_iff, List.findIdx?_eq_none_iff]
  intro q hq
  rw [decide_eq_false_iff_not]
  rintro rfl
  exact hno (mem_map_of_mem hq)

theorem Holds.finddatum_some (h : Holds buf (ofPairs (a ++ (key, dat) :: b))) (ha : key ∉ keys a) :
    finddatum buf key = some (2 * a.length) := by
  have hnone : a.findIdx? (fun q => decide (q.1 = key)) = none := by
    rw [List.findIdx?_eq_none_iff]
    intro q hq
    rw [decide_eq_false_iff_not]
    rintro rfl
    exact ha (mem_map_of_mem hq)
  rw [h.finddatum_eq, List.findIdx?_append, hnone, List.findIdx?_cons]
  simp

theorem Holds.delitem_pair (h : Holds buf (ofPairs (a ++ q :: b))) :
    ∃ buf', delitem buf (2 * a.length) = some buf' ∧ Holds buf' (ofPairs (a ++ b)) := by
  rw [ofPairs_append, ofPairs_cons] at h
  obtain ⟨buf', hdel, h'⟩ := h.exists_delitem (by simp)
  rw [length_ofPairs] at hdel
  rw [← ofPairs_append] at h'
  exact ⟨buf', hdel, h'⟩

theorem Holds.additem_pair (key dat : datum) (h : Holds buf (ofPairs l))
    (hroom : space l + key.length + dat.length + 4 < PBLKSIZ) :
    ∃ buf', additem buf key dat = some buf' ∧ Holds buf' (ofPairs (l ++ [(key, dat)])) := by
  have htotal := total_ofPairs (l := l)
  rw [ofPairs_append]
  exact h.exists_additem (by rw [length_ofPairs]; omega)

theorem Holds.additem_pair_none (h : Holds buf (ofPairs l))
    (hroom : ¬ space l + key.length + dat.length + 4 < PBLKSIZ) :
    additem buf key dat = none := by
  have htotal := total_ofPairs (l := l)
  exact h.additem_none (by rw [length_ofPairs]; omega)

/-! ## The split -/

theorem and_two_pow_ne_zero_iff {h : ℕ} : h &&& (2 ^ k - 1 + 1) ≠ 0 ↔ h.testBit k = true := by
  have hpos : 0 < 2 ^ k := Nat.two_pow_pos k
  rw [Nat.sub_add_cancel hpos, Nat.land_comm, Nat.two_pow_and]
  rcases h.testBit k with - | -
  · simp
  · simp

/-- **The split of a page** leaves the pairs without the bit, and moves those with it. -/
theorem splitLoop_spec {fuel : ℕ} {ovfbuf : Page} (h : Holds buf (ofPairs (a ++ l)))
    (ho : Holds ovfbuf (ofPairs b)) (hfuel : l.length < fuel)
    (hroom : space (b ++ l.filter (moves k)) < PBLKSIZ) :
    ∃ lo hi, splitLoop (2 ^ k - 1) fuel (2 * a.length) buf ovfbuf = some (true, false, lo, hi) ∧
      Holds lo (ofPairs (a ++ l.filter fun q => !moves k q)) ∧
      Holds hi (ofPairs (b ++ l.filter (moves k))) := by
  induction l generalizing a b fuel buf ovfbuf with
  | nil =>
    obtain ⟨fuel, rfl⟩ := Nat.exists_eq_add_of_lt hfuel
    refine ⟨buf, ovfbuf, ?_, h, by simpa using ho⟩
    rw [append_nil] at h
    rw [splitLoop, h.makdatum_end]
  | cons q l ih =>
    obtain ⟨fuel, rfl⟩ : ∃ n, fuel = n + 1 := ⟨fuel - 1, by lia⟩
    rw [length_cons] at hfuel
    obtain ⟨hkey, hval⟩ := h.makdatum_pair
    rw [splitLoop, hkey]
    simp only [and_two_pow_ne_zero_iff]
    by_cases hmove : moves k q = true
    · rw [if_pos (show (dcalchash q.1).testBit k = true from hmove), hval]
      rw [filter_cons, if_pos hmove] at hroom
      have hspace := space_append (a := b) (b := q :: l.filter (moves k))
      rw [space_cons] at hspace
      have hnext : b ++ q :: l.filter (moves k) = b ++ [q] ++ l.filter (moves k) := by simp
      have hle : 2 ≤ space (l.filter (moves k)) := by
        rw [space]
        lia
      obtain ⟨ovfbuf', hadd, ho'⟩ := ho.additem_pair q.1 q.2 (by lia)
      obtain ⟨buf', hdel, h'⟩ := h.delitem_pair
      simp only [hadd, hdel]
      rw [hnext] at hroom
      rw [filter_cons, filter_cons, if_pos hmove, if_neg (by simp [hmove]), hnext]
      exact ih h' ho' (by lia) hroom
    · rw [if_neg (show ¬ (dcalchash q.1).testBit k = true from hmove)]
      rw [filter_cons, if_neg hmove] at hroom
      have hnext : a ++ q :: l = a ++ [q] ++ l := by simp
      have hlen : 2 * a.length + 2 = 2 * (a ++ [q]).length := by
        rw [length_append, length_singleton]
        lia
      rw [hnext] at h
      rw [hlen, filter_cons, filter_cons, if_neg hmove, if_pos (by simpa using hmove),
        show a ++ q :: l.filter (fun q => !moves k q) =
          a ++ [q] ++ l.filter (fun q => !moves k q) by simp]
      exact ih h ho (by lia) hroom

/-! ## Looking a key up -/

/-- The value of a key on a page. -/
def valueOf (l : List Pair) (key : datum) : Option datum :=
  (l.find? fun q => q.1 = key).map Prod.snd

theorem valueOf_none (h : key ∉ keys l) : valueOf l key = none := by
  rw [valueOf, Option.map_eq_none_iff, List.find?_eq_none]
  intro q hq heq
  rw [decide_eq_true_eq] at heq
  exact h (heq ▸ mem_map_of_mem hq)

theorem valueOf_some (h : key ∉ keys a) : valueOf (a ++ (key, dat) :: b) key = some dat := by
  have ha : a.find? (fun q => decide (q.1 = key)) = none := by
    rw [List.find?_eq_none]
    intro q hq heq
    rw [decide_eq_true_eq] at heq
    exact h (heq ▸ mem_map_of_mem hq)
  rw [valueOf, List.find?_append, ha, Option.none_or, List.find?_cons_of_pos (by simp)]
  rfl

theorem valueOf_eq_none_iff : valueOf l key = none ↔ key ∉ keys l := by
  constructor
  · intro h hmem
    rcases not_mem_or_split key l with hno | ⟨a, dat, b, rfl, ha⟩
    · exact hno hmem
    · rw [valueOf_some ha] at h
      exact absurd h (by simp)
  · exact valueOf_none

end Ndbm
