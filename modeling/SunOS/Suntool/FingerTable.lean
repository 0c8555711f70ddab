/-
# Finger tables (`libsuntool/text/finger_table.c`)

A finger table is an array of records, each a position and the client's data, ordered by
position; the positions not in use are `ES_INFINITY`.  `last_bounding_index` and
`first_infinity` are hints left by earlier calls.

The array is allocated with `last_plus_one` records, so that its length stands for that field.
A result `none` is an access outside the array.  `malloc` succeeds; what it returns is `fresh`.
-/
import Mathlib.Algebra.Order.Ring.Int
import Mathlib.Algebra.Order.Ring.Nat
import Mathlib.Data.List.Basic
import Mathlib.Tactic.Tauto

namespace FingerTable

open Option
open List

def ES_INFINITY : ℤ := 0x77777777

/-- `struct ft_table`, with client data of type `δ`. -/
structure ft_table (δ : Type) where
  seq : List (ℤ × δ)
  last_bounding_index : ℕ
  first_infinity : ℕ

variable {δ : Type}

def ft_table.last_plus_one (t : ft_table δ) : ℕ := t.seq.length

/-- The position in the record at `i`. -/
def posAt (i : ℕ) (t : ft_table δ) : Option ℤ := t.seq[i]?.map Prod.fst

/-! ## ft_bounding_index -/

/-- The binary search; its turns are at most `fuel`. -/
def search (pos : ℤ) (t : ft_table δ) : ℕ → ℕ → ℕ → Option ℕ
  | 0, _, _ => none
  | fuel + 1, start, stop_plus_one => do
    let index := (start + stop_plus_one) / 2
    let p ← posAt index t
    if pos < p then
      if index + 1 = stop_plus_one then some start else search pos t fuel start (index + 1)
    else search pos t fuel index stop_plus_one

/-- "Check the cache". -/
def cached (pos : ℤ) (t : ft_table δ) : Option Bool :=
  let index := t.last_bounding_index
  if index < t.last_plus_one then do
    let p ← posAt index t
    if p ≤ pos then
      if index + 1 = t.last_plus_one then some true else (posAt (index + 1) t).map (pos < ·)
    else some false
  else some false

/-- The index that `ft_bounding_index` finds. -/
def boundingIndex (pos : ℤ) (t : ft_table δ) : Option ℕ := do
  let p ← posAt 0 t
  if pos < p ∨ t.last_plus_one = 0 then some t.last_plus_one
  else if ← cached pos t then some t.last_bounding_index
  else
    -- "No luck, so do the search"
    let p ← posAt (t.last_plus_one - 1) t
    if p ≤ pos then some (t.last_plus_one - 1)
    else search pos t t.last_plus_one 0 t.last_plus_one

/-- `ft_bounding_index(finger_table, pos)`. -/
def ft_bounding_index (pos : ℤ) (t : ft_table δ) : Option (ft_table δ × ℕ) :=
  (boundingIndex pos t).map fun index => ({ t with last_bounding_index := index }, index)

/-! ## The shifts -/

/-- The walk back over the entries in front of `i` that are `ES_INFINITY`. -/
def walkBack (t : ft_table δ) : ℕ → Option ℕ
  | 0 => some 0
  | i + 1 => do
    let p ← posAt i t
    if p = ES_INFINITY then walkBack t i else some (i + 1)

/-- `ft_validate_first_infinity(finger_table)`; `last_bounding_index` is saved and restored. -/
def ft_validate_first_infinity (t : ft_table δ) : Option (ft_table δ) :=
  let searched : Option ℕ := do
    let r ← ft_bounding_index (ES_INFINITY - 1) t
    some (if r.2 < t.last_plus_one then r.2 + 1 else r.2)
  let found : Option ℕ :=
    if t.first_infinity < t.last_plus_one then do
      let p ← posAt t.first_infinity t
      if p = ES_INFINITY then walkBack t t.first_infinity
      else
        let q ← posAt (t.first_infinity + 1) t
        if q = ES_INFINITY then some (t.first_infinity + 1) else searched
    else searched
  found.map fun i => { t with first_infinity := i }

/-- `ft_set(.., first, last_plus_one, to, client_data)` of the records `seq`. -/
def ft_set (first last_plus_one : ℕ) (to_ : ℤ) (client_data : Option δ) (seq : List (ℤ × δ)) :
    Option (List (ℤ × δ)) :=
  if first ≥ seq.length ∨ last_plus_one ≤ first then some seq
  else if seq.length < last_plus_one then none
  else
    some (seq.take first ++
      ((seq.drop first).take (last_plus_one - first)).map (fun e => (to_, client_data.getD e.2)) ++
      seq.drop last_plus_one)

/-- `bcopy` of `n` records, which may overlap; one of no record does nothing. -/
def bcopy (src dst : ℕ) (n : ℤ) (seq : List (ℤ × δ)) : Option (List (ℤ × δ)) :=
  if n ≤ 0 then some seq
  else if src + n.toNat ≤ seq.length ∧ dst + n.toNat ≤ seq.length then
    some (seq.take dst ++ (seq.drop src).take n.toNat ++ seq.drop (dst + n.toNat))
  else none

/-- `ft_expand(table, by)`. -/
def ft_expand (fresh : ℕ → ℤ × δ) (by_ : ℤ) (t : ft_table δ) : Option (ft_table δ) :=
  let kept := t.seq.take (t.last_plus_one + min by_ 0).toNat
  let seq := kept ++ (List.range by_.toNat).map fresh
  let seq := if by_ > 0 then ft_set t.last_plus_one seq.length ES_INFINITY none seq else some seq
  seq.map fun seq => { t with seq := seq }

/-- `ft_shift_up(table, first, last_plus_one, expand_by)`. -/
def ft_shift_up (fresh : ℕ → ℤ × δ) (first last_plus_one : ℕ) (expand_by : ℤ)
    (t : ft_table δ) : Option (ft_table δ) := do
  let t ← ft_validate_first_infinity t
  let stop_plus_one : ℤ := t.last_plus_one - (last_plus_one - 1 - first)
  let t ← (if expand_by ≠ 0 ∧ t.first_infinity ≥ stop_plus_one then ft_expand fresh expand_by t
    else some t)
  let first_free := t.first_infinity
  let seq ← (if first_free ≠ first then bcopy first last_plus_one (first_free - first : ℤ) t.seq
    else some t.seq)
  some { t with seq := seq, first_infinity := first_free + (last_plus_one - first) }

/-- `ft_shift_out(table, first, last_plus_one)`. -/
def ft_shift_out (first last_plus_one : ℕ) (t : ft_table δ) : Option (ft_table δ) := do
  let t ← ft_validate_first_infinity t
  let to_move := if last_plus_one < t.first_infinity then t.first_infinity - last_plus_one else 0
  let seq ← (if last_plus_one < t.first_infinity then bcopy last_plus_one first to_move t.seq
    else some t.seq)
  let seq ← ft_set (first + to_move) t.first_infinity ES_INFINITY none seq
  some { t with seq := seq, first_infinity := first + to_move }

/-! ## What the functions do -/

variable {i : ℕ}

variable {t t' : ft_table δ} {fin inf : List (ℤ × δ)} {pos : ℤ}

/-- The table holds the records `fin`, in order by their positions, and records that are not in
use behind them. -/
structure Sorted (t : ft_table δ) (fin inf : List (ℤ × δ)) : Prop where
  seq : t.seq = fin ++ inf
  order : fin.Pairwise fun d e => d.1 ≤ e.1
  finite : ∀ e ∈ fin, e.1 < ES_INFINITY
  unused : ∀ e ∈ inf, e.1 = ES_INFINITY

/-- The index that `ft_bounding_index` is to return for `pos`. -/
def Bounds (pos : ℤ) (t : ft_table δ) (i : ℕ) : Prop :=
  (∃ p, posAt i t = some p ∧ p ≤ pos) ∧ ∀ p, posAt (i + 1) t = some p → pos < p

theorem posAt_none : posAt i t = none ↔ t.last_plus_one ≤ i := by
  rw [posAt, map_eq_none_iff, List.getElem?_eq_none_iff]
  rfl

theorem exists_posAt (h : i < t.last_plus_one) : ∃ p, posAt i t = some p := by
  apply Option.ne_none_iff_exists'.mp
  rw [Ne, posAt_none]
  omega

theorem Sorted.mono (h : Sorted t fin inf) {i j : ℕ} {p q : ℤ} (hij : i ≤ j)
    (hp : posAt i t = some p) (hq : posAt j t = some q) : p ≤ q := by
  have hall : t.seq.Pairwise fun d e => d.1 ≤ e.1 := by
    rw [h.seq, pairwise_append]
    refine ⟨h.order, ?_, fun d hd e he => ?_⟩
    · apply List.Pairwise.imp_of_mem _ (pairwise_of_forall fun _ _ => trivial)
      intro d e hd he _
      rw [h.unused d hd, h.unused e he]
    · rw [h.unused e he]
      exact (h.finite d hd).le
  obtain ⟨d, hd, rfl⟩ := Option.map_eq_some_iff.mp hp
  obtain ⟨e, he, rfl⟩ := Option.map_eq_some_iff.mp hq
  obtain ⟨hi, rfl⟩ := List.getElem?_eq_some_iff.mp hd
  obtain ⟨hj, rfl⟩ := List.getElem?_eq_some_iff.mp he
  rcases hij.eq_or_lt with rfl | hlt
  · exact le_rfl
  · exact List.pairwise_iff_getElem.mp hall i j hi hj hlt

/-- Only one index bounds a position. -/
theorem Bounds.unique (h : Sorted t fin inf) {i j : ℕ} (hi : Bounds pos t i)
    (hj : Bounds pos t j) : i = j := by
  have hle : ∀ {i j : ℕ}, Bounds pos t i → Bounds pos t j → j ≤ i := by
    rintro i j ⟨-, hi⟩ ⟨⟨q, hq, hle⟩, -⟩
    by_contra hlt
    have hj : j < t.last_plus_one := by
      by_contra hj
      rw [posAt_none.mpr (by omega)] at hq
      cases hq
    obtain ⟨p, hp⟩ := exists_posAt (show i + 1 < t.last_plus_one by omega)
    have := h.mono (show i + 1 ≤ j by omega) hp hq
    have := hi p hp
    omega
  exact le_antisymm (hle hj hi) (hle hi hj)

/-- The binary search, between a record that is not above `pos` and one that is. -/
theorem search_spec : ∀ (fuel start stop : ℕ) (p q : ℤ), stop ≤ start + fuel →
    stop ≤ t.last_plus_one → posAt start t = some p → p ≤ pos → posAt (stop - 1) t = some q →
    pos < q → start + 1 < stop → ∃ i, search pos t fuel start stop = some i ∧ Bounds pos t i := by
  intro fuel
  induction fuel with
  | zero =>
    intro start stop p q hfuel _ _ _ _ _ hlt
    omega
  | succ fuel ih =>
    intro start stop p q hfuel hstop hp hple hq hqlt hlt
    obtain ⟨m, hm⟩ := exists_posAt (t := t) (i := (start + stop) / 2) (by omega)
    simp only [search, hm, bind_eq_bind, bind_some]
    by_cases hpm : pos < m
    · rw [if_pos hpm]
      by_cases hlast : (start + stop) / 2 + 1 = stop
      · -- "start+1 == index", so that `start` bounds `pos`
        rw [if_pos hlast]
        refine ⟨start, rfl, ⟨p, hp, hple⟩, fun q' hq' => ?_⟩
        rw [show start + 1 = (start + stop) / 2 by omega, hm] at hq'
        cases hq'
        exact hpm
      · rw [if_neg hlast]
        exact ih start _ p m (by omega) (by omega) hp hple (by rw [Nat.add_sub_cancel]; exact hm)
          hpm (by omega)
    · rw [if_neg hpm]
      apply ih _ stop m q (by omega) hstop hm (not_lt.mp hpm) hq hqlt
      by_contra hge
      rw [show stop - 1 = (start + stop) / 2 by omega, hm] at hq
      cases hq
      exact hpm hqlt

/-- The cached index is taken only if it bounds `pos`. -/
theorem cached_spec (pos : ℤ) (t : ft_table δ) : ∃ b, cached pos t = some b ∧
    (b = true → Bounds pos t t.last_bounding_index) := by
  unfold cached
  by_cases hi : t.last_bounding_index < t.last_plus_one
  · obtain ⟨p, hp⟩ := exists_posAt hi
    simp only [if_pos hi, hp, bind_eq_bind, bind_some]
    by_cases hle : p ≤ pos
    · rw [if_pos hle]
      by_cases hlast : t.last_bounding_index + 1 = t.last_plus_one
      · rw [if_pos hlast]
        refine ⟨true, rfl, fun _ => ⟨⟨p, hp, hle⟩, fun q hq => ?_⟩⟩
        rw [posAt_none.mpr (by omega)] at hq
        cases hq
      · obtain ⟨q, hq⟩ := exists_posAt (show t.last_bounding_index + 1 < t.last_plus_one by omega)
        rw [if_neg hlast, hq]
        refine ⟨_, rfl, fun hb => ⟨⟨p, hp, hle⟩, fun q' hq' => ?_⟩⟩
        rw [hq] at hq'
        cases hq'
        exact of_decide_eq_true hb
    · rw [if_neg hle]
      exact ⟨false, rfl, Bool.noConfusion⟩
  · rw [if_neg hi]
    exact ⟨false, rfl, Bool.noConfusion⟩

/-- **The search ends with the index asked for**, whatever index was cached. -/
theorem boundingIndex_spec (h0 : t.last_plus_one ≠ 0) (pos : ℤ) :
    ∃ i, boundingIndex pos t = some i ∧
      ((∃ p, posAt 0 t = some p ∧ pos < p ∧ i = t.last_plus_one) ∨ Bounds pos t i) := by
  obtain ⟨p, hp⟩ := exists_posAt (Nat.pos_of_ne_zero h0)
  unfold boundingIndex
  simp only [hp, bind_eq_bind, bind_some]
  by_cases hlt : pos < p
  · rw [if_pos (Or.inl hlt)]
    exact ⟨_, rfl, Or.inl ⟨p, rfl, hlt, rfl⟩⟩
  · rw [if_neg (by tauto)]
    obtain ⟨b, hb, hbounds⟩ := cached_spec pos t
    rw [hb, bind_some]
    cases b with
    | true => exact ⟨_, rfl, Or.inr (hbounds rfl)⟩
    | false =>
      obtain ⟨q, hq⟩ := exists_posAt (show t.last_plus_one - 1 < t.last_plus_one by omega)
      simp only [hq, bind_some, Bool.false_eq_true, if_false]
      by_cases hle : q ≤ pos
      · rw [if_pos hle]
        refine ⟨_, rfl, Or.inr ⟨⟨q, hq, hle⟩, fun q' hq' => ?_⟩⟩
        rw [posAt_none.mpr (by omega)] at hq'
        cases hq'
      · rw [if_neg hle]
        have hone : 0 + 1 < t.last_plus_one := by
          by_contra hone
          rw [show t.last_plus_one - 1 = 0 by omega, hp] at hq
          cases hq
          omega
        obtain ⟨i, hi, hbi⟩ := search_spec t.last_plus_one 0 t.last_plus_one p q (by omega) le_rfl
          hp (not_lt.mp hlt) hq (not_le.mp hle) hone
        exact ⟨i, hi, Or.inr hbi⟩

theorem Sorted.infinity_iff (h : Sorted t fin inf) {p : ℤ} (hp : posAt i t = some p) :
    p = ES_INFINITY ↔ fin.length ≤ i := by
  obtain ⟨e, he, rfl⟩ := Option.map_eq_some_iff.mp hp
  rw [h.seq] at he
  constructor
  · intro heq
    by_contra hlt
    rw [List.getElem?_append_left (by omega)] at he
    exact absurd heq (h.finite e (List.mem_of_getElem? he)).ne
  · intro hle
    rw [List.getElem?_append_right hle] at he
    exact h.unused e (List.mem_of_getElem? he)

theorem Sorted.length (h : Sorted t fin inf) : t.last_plus_one = fin.length + inf.length := by
  rw [ft_table.last_plus_one, h.seq, length_append]

theorem walkBack_spec (h : Sorted t fin inf) : ∀ i, fin.length ≤ i → i ≤ t.last_plus_one →
    walkBack t i = some fin.length := by
  intro i
  induction i with
  | zero =>
    intro hle _
    rw [walkBack, Nat.le_zero.mp hle]
  | succ i ih =>
    intro hle hlt
    obtain ⟨p, hp⟩ := exists_posAt (show i < t.last_plus_one by omega)
    simp only [walkBack, hp, bind_eq_bind, bind_some, h.infinity_iff hp]
    by_cases hi : fin.length ≤ i
    · rw [if_pos hi]
      exact ih hi (by omega)
    · rw [if_neg hi]
      congr 1
      omega

/-- The search for the last finite position, when the hint is no help. -/
theorem searched_spec (h : Sorted t fin inf) (h0 : t.last_plus_one ≠ 0) :
    boundingIndex (ES_INFINITY - 1) t =
      some (if fin = [] then t.last_plus_one else fin.length - 1) := by
  have hlen := h.length
  obtain ⟨i, hi, hcase⟩ := boundingIndex_spec h0 (ES_INFINITY - 1)
  rw [hi]
  congr 1
  rcases hcase with ⟨p, hp, hlt, rfl⟩ | ⟨⟨p, hp, hle⟩, hnext⟩
  · rw [if_pos]
    by_contra hne
    have := length_pos_of_ne_nil hne
    obtain ⟨e, he, rfl⟩ := Option.map_eq_some_iff.mp hp
    rw [h.seq, List.getElem?_append_left this] at he
    have := h.finite e (List.mem_of_getElem? he)
    omega
  · have hlast : ¬ fin.length ≤ i := by
      rw [← h.infinity_iff hp]
      omega
    have hnext' : fin.length ≤ i + 1 := by
      by_contra hlt
      obtain ⟨q, hq⟩ := exists_posAt (show i + 1 < t.last_plus_one by omega)
      have := hnext q hq
      obtain ⟨e, he, rfl⟩ := Option.map_eq_some_iff.mp hq
      rw [h.seq, List.getElem?_append_left (by omega)] at he
      have := h.finite e (List.mem_of_getElem? he)
      omega
    rw [if_neg (by rintro rfl; exact hlast (Nat.zero_le i))]
    omega

/-- Where the shifts take the first `ES_INFINITY` to be: right, but for a table without a finite
position whose hint is at its end or behind it. -/
def firstFree (t : ft_table δ) (fin : List (ℤ × δ)) : ℕ :=
  if fin = [] ∧ t.last_plus_one ≤ t.first_infinity then t.last_plus_one else fin.length

/-- The hint does not make `ft_validate_first_infinity` look behind the table: there is a record,
and the hint is not the last one of a full table. -/
def Hinted (t : ft_table δ) (inf : List (ℤ × δ)) : Prop :=
  t.last_plus_one ≠ 0 ∧ ¬ (t.first_infinity + 1 = t.last_plus_one ∧ inf = [])

theorem validate_spec (h : Sorted t fin inf) :
    (Hinted t inf → ft_validate_first_infinity t =
      some { t with first_infinity := firstFree t fin }) ∧
    (¬ Hinted t inf → ft_validate_first_infinity t = none) := by
  have hlen := h.length
  by_cases h0 : t.last_plus_one = 0
  · have hnone : posAt 0 t = none := posAt_none.mpr (by omega)
    refine ⟨fun hh => absurd h0 hh.1, fun _ => ?_⟩
    have hfi : ¬ t.first_infinity < t.last_plus_one := by omega
    simp only [ft_validate_first_infinity, if_neg hfi, ft_bounding_index, boundingIndex, hnone,
      bind_eq_bind, bind_none, map_none]
  · have hsearch := searched_spec h h0
    have hfound : (if (if fin = [] then t.last_plus_one else fin.length - 1) < t.last_plus_one
        then (if fin = [] then t.last_plus_one else fin.length - 1) + 1
        else if fin = [] then t.last_plus_one else fin.length - 1) =
        if fin = [] then t.last_plus_one else fin.length := by
      by_cases hf : fin = []
      · simp only [if_pos hf, lt_irrefl, if_false]
      · have := length_pos_of_ne_nil hf
        simp only [if_neg hf]
        rw [if_pos (by omega)]
        omega
    simp only [ft_validate_first_infinity, ft_bounding_index, hsearch, map_some,
      bind_eq_bind, bind_some, hfound]
    by_cases hfi : t.first_infinity < t.last_plus_one
    · obtain ⟨p, hp⟩ := exists_posAt hfi
      have hff : firstFree t fin = fin.length := if_neg (by omega)
      simp only [if_pos hfi, hp, bind_some, h.infinity_iff hp]
      by_cases hle : fin.length ≤ t.first_infinity
      · have hinf : inf ≠ [] := by
          rintro rfl
          rw [length_nil] at hlen
          omega
        rw [if_pos hle, walkBack_spec h _ hle hfi.le, hff]
        exact ⟨fun _ => rfl, fun hn => absurd ⟨h0, fun hc => hinf hc.2⟩ hn⟩
      · rw [if_neg hle]
        have hne : fin ≠ [] := by
          rintro rfl
          exact hle (Nat.zero_le _)
        by_cases hlast : t.first_infinity + 1 < t.last_plus_one
        · obtain ⟨q, hq⟩ := exists_posAt hlast
          refine ⟨fun _ => ?_, fun hn => absurd ⟨h0, fun hc => by omega⟩ hn⟩
          simp only [hq, bind_some, h.infinity_iff hq, hff, if_neg hne]
          by_cases hnext : fin.length ≤ t.first_infinity + 1
          · rw [if_pos hnext, show t.first_infinity + 1 = fin.length by omega, map_some]
          · rw [if_neg hnext, map_some]
        · have hnil : inf = [] := List.length_eq_zero_iff.mp (by omega)
          rw [posAt_none.mpr (by omega)]
          exact ⟨fun hh => absurd ⟨by omega, hnil⟩ hh.2, fun _ => rfl⟩
    · rw [if_neg hfi]
      refine ⟨fun _ => ?_, fun hn => absurd ⟨h0, fun hc => by omega⟩ hn⟩
      rw [map_some, firstFree]
      by_cases hf : fin = []
      · rw [if_pos hf, if_pos ⟨hf, by omega⟩]
      · rw [if_neg hf, if_neg (by tauto)]

/-! ## The shifts move the records -/

variable {l l' : List (ℤ × δ)} {src dst : ℕ} {f : ℕ} {inf' : List (ℤ × δ)}

variable {seq seq' : List (ℤ × δ)} {first last : ℕ}

/-- No record of the list is in use. -/
def Unused (l : List (ℤ × δ)) : Prop := ∀ e ∈ l, e.1 = ES_INFINITY

theorem Unused.append (h : Unused l) (h' : Unused l') : Unused (l ++ l') := by
  intro e he
  exact (List.mem_append.mp he).elim (h e) (h' e)

theorem Unused.sub (h : Unused l) (hs : l' ⊆ l) : Unused l' :=
  fun e he => h e (hs he)

theorem unused_map (l : List (ℤ × δ)) (d : Option δ) :
    Unused (l.map fun e => (ES_INFINITY, d.getD e.2)) := by
  intro e he
  obtain ⟨_, -, rfl⟩ := List.mem_map.mp he
  rfl

theorem bcopy_of_le (seq : List (ℤ × δ)) {src dst n : ℕ} (hn : 0 < n) (hs : src + n ≤ seq.length)
    (hd : dst + n ≤ seq.length) :
    bcopy src dst n seq = some (seq.take dst ++ (seq.drop src).take n ++ seq.drop (dst + n)) := by
  rw [bcopy, if_neg (by omega), Int.toNat_natCast, if_pos ⟨hs, hd⟩]

theorem Unused.bcopy {n : ℤ} (h : Unused seq) (hb : bcopy src dst n seq = some seq') :
    Unused seq' := by
  unfold FingerTable.bcopy at hb
  split_ifs at hb
  · cases hb
    exact h
  · cases hb
    apply Unused.append
    · apply (h.sub (take_subset _ _)).append
      exact h.sub fun _ he => mem_of_mem_drop (mem_of_mem_take he)
    · exact h.sub (drop_subset _ _)

theorem length_bcopy {n : ℤ} (hb : bcopy src dst n seq = some seq') : seq'.length = seq.length := by
  unfold bcopy at hb
  split_ifs at hb
  · cases hb
    rfl
  · cases hb
    simp only [length_append, length_take, length_drop]
    omega

/-- `ft_set` of records to `ES_INFINITY`. -/
theorem ft_set_spec {a b : ℕ} (hb : b ≤ seq.length) : ∃ l, Unused l ∧ l.length = b - a ∧
    ft_set a b ES_INFINITY none seq =
      some (if a < b then seq.take a ++ l ++ seq.drop b else seq) := by
  unfold ft_set
  by_cases hab : a < b
  · refine ⟨_, unused_map ((seq.drop a).take (b - a)) none, ?_, ?_⟩
    · rw [length_map, length_take, length_drop]
      omega
    · rw [if_neg (by omega), if_neg (by omega), if_pos hab]
  · refine ⟨[], ?_, ?_, ?_⟩
    · intro e he
      cases he
    · rw [length_nil]
      omega
    · rw [if_pos (Or.inr (by omega)), if_neg hab]

/-- `ft_expand` puts unused records behind the table, or cuts it off. -/
theorem ft_expand_spec (fresh : ℕ → ℤ × δ) (by_ : ℤ) (t : ft_table δ) : ∃ l, Unused l ∧
    l.length = by_.toNat ∧ ft_expand fresh by_ t =
      some { t with seq := t.seq.take (t.last_plus_one + min by_ 0).toNat ++ l } := by
  unfold ft_expand
  by_cases hpos : by_ > 0
  · have htake : t.seq.take (t.last_plus_one + min by_ 0).toNat = t.seq := by
      apply take_of_length_le
      rw [min_eq_right hpos.le, add_zero, Int.toNat_natCast]
      rfl
    have hlen : (t.seq ++ (List.range by_.toNat).map fresh).length
        = t.last_plus_one + by_.toNat := by
      rw [length_append, length_map, length_range]
      rfl
    obtain ⟨l, hl, hll, hset⟩ := ft_set_spec (a := t.last_plus_one)
      (le_refl (t.seq ++ (List.range by_.toNat).map fresh).length)
    refine ⟨l, hl, by omega, ?_⟩
    simp only [htake, if_pos hpos, hset, map_some]
    rw [if_pos (by omega), drop_length, append_nil, List.take_left']
    rfl
  · refine ⟨[], ?_, ?_, ?_⟩
    · intro e he
      cases he
    · rw [length_nil]
      omega
    simp only [if_neg hpos, Int.toNat_of_nonpos (not_lt.mp hpos), range_zero, map_nil,
      map_some]

/-- The records at `first` and above made room for `last - first` others. -/
def Inserted (fin : List (ℤ × δ)) (first last : ℕ) (t' : ft_table δ) : Prop :=
  last ≤ t'.last_plus_one ∧ ∃ gap rest,
    t'.seq = fin.take first ++ (gap ++ (fin.drop first ++ rest)) ∧
    gap.length = last - first ∧ Unused rest

/-- The records from `first` up to `last` are gone. -/
def Removed (t : ft_table δ) (fin : List (ℤ × δ)) (first last : ℕ) (t' : ft_table δ) : Prop :=
  t'.last_plus_one = t.last_plus_one ∧
    ∃ rest, t'.seq = fin.take first ++ (fin.drop last ++ rest) ∧ Unused rest

/-- The records that the table has room for once `ft_shift_up` has expanded it or not. -/
def room (t : ft_table δ) (fin : List (ℤ × δ)) (first last : ℕ) (expand_by : ℤ) : ℤ :=
  if expand_by ≠ 0 ∧ t.last_plus_one < firstFree t fin + (last - first) then
    t.last_plus_one + expand_by
  else t.last_plus_one

/-- The new slots lie in the table, and so do the records that are moved. -/
def Fits (t : ft_table δ) (fin : List (ℤ × δ)) (first last : ℕ) (expand_by : ℤ) : Prop :=
  last ≤ room t fin first last expand_by ∧
    (first < firstFree t fin →
      (firstFree t fin + (last - first) : ℕ) ≤ room t fin first last expand_by)

/-- The move of `ft_shift_up`, with `f` the first free record. -/
theorem moved_up (hseq : seq = fin ++ inf') (hinf : Unused inf')
    (hle : first ≤ last) (hf : f = fin.length ∨ fin = [] ∧ f ≤ seq.length)
    (hlast : last ≤ seq.length) (hfits : first < f → f + (last - first) ≤ seq.length) :
    ∃ seq', (if f ≠ first then bcopy first last (f - first : ℤ) seq else some seq) = some seq' ∧
      seq'.length = seq.length ∧ ∃ gap rest,
        seq' = fin.take first ++ (gap ++ (fin.drop first ++ rest)) ∧
        gap.length = last - first ∧ Unused rest := by
  have hlen : seq.length = fin.length + inf'.length := by
    rw [hseq, length_append]
  by_cases hff : first < f
  · have hcopy := bcopy_of_le seq (show 0 < f - first by omega)
      (show first + _ ≤ _ by omega) (show last + _ ≤ _ by have := hfits hff; omega)
    rw [Nat.cast_sub hff.le] at hcopy
    have hlen' := length_bcopy hcopy
    rw [if_pos (by omega), hcopy]
    refine ⟨_, rfl, hlen', ?_⟩
    rcases hf with rfl | ⟨rfl, hfl⟩
    · -- the gap is what stood in front of the copy
      refine ⟨(seq.take last).drop first, seq.drop (last + (fin.length - first)), ?_, ?_, ?_⟩
      · have hB : (seq.drop first).take (fin.length - first) = fin.drop first := by
          rw [hseq, drop_append_of_le_length hff.le, List.take_left']
          rw [length_drop]
        have hA : seq.take last = fin.take first ++ (seq.take last).drop first := by
          conv_lhs => rw [← take_append_drop first (seq.take last)]
          rw [take_take, min_eq_left hle, hseq, take_append_of_le_length hff.le]
        rw [hB]
        conv_lhs => rw [hA]
        simp only [append_assoc]
      · rw [length_drop, length_take]
        omega
      · rw [hseq, drop_append, drop_eq_nil_of_le (by omega), nil_append]
        exact hinf.sub (drop_subset _ _)
    · rw [nil_append] at hseq
      have hall := (hseq ▸ hinf : Unused seq).bcopy hcopy
      generalize seq.take last ++ _ ++ _ = seq' at hall hlen'
      refine ⟨seq'.take (last - first), seq'.drop (last - first), ?_, ?_,
        hall.sub (drop_subset _ _)⟩
      · rw [take_nil, drop_nil, nil_append, nil_append,
          take_append_drop]
      · rw [length_take, hlen']
        omega
  · have hsame : (if f ≠ first then bcopy first last (f - first : ℤ) seq else some seq)
        = some seq := by
      rw [bcopy, if_pos (by omega : (f - first : ℤ) ≤ 0), ite_self]
    have hk : fin.length ≤ first := by
      rcases hf with rfl | ⟨rfl, -⟩
      · omega
      · exact Nat.zero_le _
    rw [hsame]
    refine ⟨seq, rfl, rfl, inf'.take (last - first), inf'.drop (last - first), ?_, ?_,
      hinf.sub (drop_subset _ _)⟩
    · rw [take_of_length_le hk, drop_eq_nil_of_le hk, nil_append,
        take_append_drop, hseq]
    · rw [length_take]
      omega

theorem Unused.drop (h : Unused inf') (hf : fin.length ≤ f) : Unused ((fin ++ inf').drop f) := by
  rw [drop_append, drop_eq_nil_of_le hf, nil_append]
  exact h.sub (drop_subset _ _)

/-- With nothing to remove there is nothing to set. -/
theorem set_tail (seq : List (ℤ × δ)) {A l : List (ℤ × δ)} {k f : ℕ} (hA : A.length = k)
    (hkf : k ≤ f)
    (hl : l.length = f - k) :
    (if k < f then (A ++ seq.drop k).take k ++ l ++ (A ++ seq.drop k).drop f
      else A ++ seq.drop k) = A ++ (l ++ seq.drop f) := by
  by_cases hlt : k < f
  · rw [if_pos hlt, List.take_left' hA, drop_append, hA, drop_drop,
      drop_eq_nil_of_le (by omega), nil_append, append_assoc,
      show k + (f - k) = f by omega]
  · rw [if_neg hlt, List.length_eq_zero_iff.mp (show l.length = 0 by omega),
      show k = f by omega, nil_append]

/-- The move of `ft_shift_out`, with `f` the first free record. -/
theorem moved_out (hseq : seq = fin ++ inf') (hinf : Unused inf')
    (hle : first ≤ last) (hf : f = fin.length ∨ fin = [] ∧ f ≤ seq.length) :
    ∃ seq', (do
      let seq ← (if last < f then bcopy last first ((if last < f then f - last else 0 : ℕ)) seq
        else some seq)
      ft_set (first + if last < f then f - last else 0) f ES_INFINITY none seq) = some seq' ∧
      seq'.length = seq.length ∧ ∃ rest, seq' = fin.take first ++ (fin.drop last ++ rest) ∧
        Unused rest := by
  have hlen : seq.length = fin.length + inf'.length := by
    rw [hseq, length_append]
  have hfl : f ≤ seq.length := by omega
  have hkf : fin.length ≤ f := by
    rcases hf with rfl | ⟨rfl, -⟩
    · exact le_rfl
    · exact Nat.zero_le _
  have htail : Unused (seq.drop f) := hseq ▸ hinf.drop hkf
  by_cases hlf : last < f
  · have hcopy := bcopy_of_le seq (show 0 < f - last by omega)
      (show last + _ ≤ _ by omega) (show first + _ ≤ _ by omega)
    have hlen' := length_bcopy hcopy
    simp only [if_pos hlf, hcopy, bind_eq_bind, bind_some]
    have hA : (seq.take first ++ (seq.drop last).take (f - last)).length = first + (f - last) := by
      rw [length_append, length_take, length_take, length_drop]
      omega
    obtain ⟨l, hl, hll, hset⟩ := ft_set_spec (a := first + (f - last)) (b := f)
      (hlen'.symm ▸ hfl)
    have hres := set_tail seq hA (show first + (f - last) ≤ f by omega) hll
    rw [hset, hres, append_assoc]
    refine ⟨_, rfl, ?_, ?_⟩
    · simp only [length_append, length_take, length_drop, hll]
      omega
    · rcases hf with rfl | ⟨rfl, -⟩
      · have hB : (seq.drop last).take (fin.length - last) = fin.drop last := by
          rw [hseq, drop_append_of_le_length hlf.le, List.take_left']
          rw [length_drop]
        have hC : seq.take first = fin.take first := by
          rw [hseq, take_append_of_le_length (by omega)]
        rw [hB, hC]
        exact ⟨_, rfl, hl.append htail⟩
      · rw [nil_append] at hseq
        subst hseq
        rw [take_nil, drop_nil]
        refine ⟨_, rfl, ?_⟩
        apply (hinf.sub (take_subset _ _)).append
        apply Unused.append
        · exact hinf.sub fun _ he => mem_of_mem_drop (mem_of_mem_take he)
        · exact hl.append htail
  · simp only [if_neg hlf, bind_eq_bind, bind_some, add_zero]
    obtain ⟨l, hl, hll, hset⟩ := ft_set_spec (a := first) hfl
    rw [hset]
    have hnil : fin.drop last = [] := drop_eq_nil_of_le (by omega)
    refine ⟨_, rfl, ?_, ?_⟩
    · split_ifs
      · simp only [length_append, length_take, length_drop, hll]
        omega
      · rfl
    · rw [hnil]
      by_cases hlt : first < f
      · rw [if_pos hlt, hseq, take_append]
        refine ⟨_, by rw [nil_append, append_assoc, append_assoc], ?_⟩
        exact (hinf.sub (take_subset _ _)).append (hl.append (hinf.drop hkf))
      · rw [if_neg hlt, hseq, take_of_length_le (by omega)]
        exact ⟨inf', rfl, hinf⟩

/-- The table that `ft_shift_up` moves the records of. -/
theorem grown (h : Sorted t fin inf) (fresh : ℕ → ℤ × δ) (expand_by : ℤ) (hle : first ≤ last) :
    ∃ seq2 inf2, (if expand_by ≠ 0 ∧
        (firstFree t fin : ℤ) ≥ t.last_plus_one - (last - 1 - first : ℤ) then
        ft_expand fresh expand_by { t with first_infinity := firstFree t fin }
      else some { t with first_infinity := firstFree t fin }) =
        some { t with seq := seq2, first_infinity := firstFree t fin } ∧
      (seq2.length : ℤ) = max (room t fin first last expand_by) 0 ∧ Unused inf2 ∧
      (fin.length ≤ seq2.length → seq2 = fin ++ inf2) := by
  have hlen := h.length
  have hiff : (firstFree t fin : ℤ) ≥ t.last_plus_one - (last - 1 - first : ℤ) ↔
      t.last_plus_one < firstFree t fin + (last - first) := by
    omega
  simp only [hiff, room]
  by_cases hgrow : expand_by ≠ 0 ∧ t.last_plus_one < firstFree t fin + (last - first)
  · rw [if_pos hgrow, if_pos hgrow]
    obtain ⟨l, hl, hll, hexp⟩ := ft_expand_spec fresh expand_by
      { t with first_infinity := firstFree t fin }
    simp only [ft_table.last_plus_one] at hexp hlen ⊢
    rw [hexp]
    refine ⟨_, inf.take ((t.seq.length + min expand_by 0).toNat - fin.length) ++ l, rfl, ?_,
      (Unused.sub h.unused (take_subset _ _)).append hl, fun hfit => ?_⟩
    · rw [length_append, length_take, hll]
      omega
    · have hkept : fin.length ≤ (t.seq.length + min expand_by 0).toNat := by
        rw [length_append, length_take, hll] at hfit
        omega
      rw [h.seq, take_append, take_of_length_le (h.seq ▸ hkept), append_assoc]
  · rw [if_neg hgrow, if_neg hgrow]
    refine ⟨t.seq, inf, rfl, ?_, h.unused, fun _ => h.seq⟩
    rw [max_eq_left (by omega)]
    rfl

/-- **`ft_shift_up`**, with a hint that is no harm. -/
theorem shift_up_iff (h : Sorted t fin inf) (hh : Hinted t inf) (fresh : ℕ → ℤ × δ)
    (expand_by : ℤ) (hle : first ≤ last) :
    (∃ t', ft_shift_up fresh first last expand_by t = some t' ∧ Inserted fin first last t') ↔
      Fits t fin first last expand_by := by
  have hlen := h.length
  obtain ⟨seq2, inf2, hgrown, hroom, hinf2, hkept⟩ := grown h fresh expand_by hle
  have hup : ft_shift_up fresh first last expand_by t =
      (if firstFree t fin ≠ first then bcopy first last (firstFree t fin - first : ℤ) seq2
        else some seq2).map fun seq => { t with
          seq := seq, first_infinity := firstFree t fin + (last - first) } := by
    simp only [ft_shift_up, (validate_spec h).1 hh, bind_eq_bind, bind_some]
    refine (congrArg (Option.bind · _) hgrown).trans ?_
    simp only [bind_some]
    cases (if firstFree t fin ≠ first then bcopy first last (firstFree t fin - first : ℤ) seq2
        else some seq2) <;> rfl
  have hf : firstFree t fin = fin.length ∨ fin = [] ∧ firstFree t fin = t.last_plus_one := by
    unfold firstFree
    split_ifs with hc
    · exact Or.inr ⟨hc.1, rfl⟩
    · exact Or.inl rfl
  rw [hup, Fits]
  constructor
  · rintro ⟨t', ht', hlast, -⟩
    obtain ⟨seq', hseq', rfl⟩ := Option.map_eq_some_iff.mp ht'
    have hbig : seq'.length = seq2.length ∧ (first < firstFree t fin →
        last + (firstFree t fin - first) ≤ seq2.length) := by
      split_ifs at hseq' with hne
      · refine ⟨length_bcopy hseq', fun hlt => ?_⟩
        rw [bcopy, if_neg (by omega)] at hseq'
        split_ifs at hseq' with hfit
        omega
      · cases hseq'
        exact ⟨rfl, fun hlt => absurd hlt (by omega)⟩
    have hlast' : last ≤ seq2.length := hbig.1 ▸ hlast
    have hpos : last = first → 0 ≤ room t fin first last expand_by := by
      rintro rfl
      rw [room, if_neg]
      · omega
      · unfold firstFree
        split_ifs <;> omega
    constructor
    · omega
    · intro hlt
      omega
  · rintro ⟨hlast, hmoved⟩
    have hlen2 : fin.length ≤ seq2.length := by
      by_cases hlt : first < firstFree t fin
      · have := hmoved hlt
        omega
      · omega
    obtain ⟨seq', hseq', hlen', hins⟩ := moved_up (hkept hlen2) hinf2 hle (f := firstFree t fin)
      (by
        apply hf.imp id (And.imp id _)
        intro _
        by_cases hlt : first < firstFree t fin
        · have := hmoved hlt
          omega
        · omega)
      (by omega) (fun hlt => by have := hmoved hlt; omega)
    rw [hseq']
    refine ⟨_, rfl, ?_, hins⟩
    show last ≤ seq'.length
    omega

/-- **`ft_shift_out`**, with a hint that is no harm. -/
theorem shift_out_spec (h : Sorted t fin inf) (hh : Hinted t inf) (hle : first ≤ last) :
    ∃ t', ft_shift_out first last t = some t' ∧ Removed t fin first last t' := by
  obtain ⟨seq', hseq', hlen', hrest⟩ := moved_out h.seq h.unused hle (f := firstFree t fin) (by
    unfold firstFree
    split_ifs with hc
    · exact Or.inr ⟨hc.1, le_rfl⟩
    · exact Or.inl rfl)
  rw [ft_shift_out, (validate_spec h).1 hh]
  refine ⟨{ t with
      seq := seq',
      first_infinity := first + if last < firstFree t fin then firstFree t fin - last else 0 },
    ?_, hlen', hrest⟩
  simp only [bind_eq_bind, bind_some] at hseq' ⊢
  rw [← bind_assoc, hseq', bind_some]

/-! ## The table as a whole -/

/-- What `ft_bounding_index` is to do for `pos`. -/
def Found (pos : ℤ) (t : ft_table δ) : Prop :=
  ∃ i, ft_bounding_index pos t = some ({ t with last_bounding_index := i }, i) ∧
    ((∃ p, posAt 0 t = some p ∧ pos < p ∧ i = t.last_plus_one) ∨
      (Bounds pos t i ∧ ∀ j, Bounds pos t j → j = i))

theorem found_iff (h : Sorted t fin inf) (pos : ℤ) : Found pos t ↔ t.last_plus_one ≠ 0 := by
  constructor
  · rintro ⟨i, hi, -⟩ h0
    rw [ft_bounding_index, boundingIndex, posAt_none.mpr h0.le] at hi
    cases hi
  · intro h0
    obtain ⟨i, hi, hcase⟩ := boundingIndex_spec h0 pos
    refine ⟨i, ?_, hcase.imp id fun hb => ⟨hb, fun j hj => hj.unique h hb⟩⟩
    rw [ft_bounding_index, hi, map_some]

/-- **Finger tables.**  In a sorted table, whatever the hints hold, the search finds the bounding
index if and only if there is a record; the shifts insert and remove what they are told to if and
only if, besides, the hint `first_infinity` is not the last record of a full table, and
`ft_shift_up` has room. -/
theorem correct_iff (h : Sorted t fin inf) (fresh : ℕ → ℤ × δ) (pos expand_by : ℤ)
    (hle : first ≤ last) :
    (Found pos t ↔ t.last_plus_one ≠ 0) ∧
    ((∃ t', ft_shift_up fresh first last expand_by t = some t' ∧ Inserted fin first last t') ↔
      Hinted t inf ∧ Fits t fin first last expand_by) ∧
    ((∃ t', ft_shift_out first last t = some t' ∧ Removed t fin first last t') ↔ Hinted t inf) := by
  refine ⟨found_iff h pos, ?_, ?_⟩
  · by_cases hh : Hinted t inf
    · rw [shift_up_iff h hh fresh expand_by hle]
      exact (and_iff_right hh).symm
    · refine ⟨fun hup => ?_, fun hc => absurd hc.1 hh⟩
      obtain ⟨t', ht', -⟩ := hup
      rw [ft_shift_up, (validate_spec h).2 hh] at ht'
      cases ht'
  · refine ⟨fun hout => ?_, fun hh => shift_out_spec h hh hle⟩
    by_contra hh
    obtain ⟨t', ht', -⟩ := hout
    rw [ft_shift_out, (validate_spec h).2 hh] at ht'
    cases ht'

/-- A table with room for one record more. -/
def roomy : ft_table ℕ :=
  { seq := [(5, 1), (9, 2), (ES_INFINITY, 0)], last_bounding_index := 7, first_infinity := 0 }

theorem roomy_sorted : Sorted roomy [(5, 1), (9, 2)] [(ES_INFINITY, 0)] :=
  ⟨rfl, by decide, by decide, by decide⟩

theorem roomy_hinted : Hinted roomy [(ES_INFINITY, 0)] :=
  ⟨by decide, fun h => absurd h.1 (by decide)⟩

theorem correct_roomy : Found 6 roomy ∧
    (∃ t', ft_shift_up (fun _ => (0, 0)) 1 2 10 roomy = some t' ∧
      Inserted [(5, 1), (9, 2)] 1 2 t') ∧
    ∃ t', ft_shift_out 0 1 roomy = some t' ∧ Removed roomy [(5, 1), (9, 2)] 0 1 t' :=
  ⟨(correct_iff roomy_sorted (fun _ => (0, 0)) 6 10 (show 1 ≤ 2 by decide)).1.mpr (by decide),
    (correct_iff roomy_sorted (fun _ => (0, 0)) 6 10 (show 1 ≤ 2 by decide)).2.1.mpr
      ⟨roomy_hinted, by decide, fun _ => by decide⟩,
    (correct_iff roomy_sorted (fun _ => (0, 0)) 6 10 (show 0 ≤ 1 by decide)).2.2.mpr roomy_hinted⟩

/-- The table that `ft_create` made with one record, after the client has filled that record. -/
def full : ft_table ℕ := { seq := [(5, 1)], last_bounding_index := 0, first_infinity := 0 }

/-- The record behind the table is read. -/
theorem not_correct_full : Sorted full [(5, 1)] [] ∧
    ¬ ((∃ t', ft_shift_up (fun _ => (0, 0)) 1 2 10 full = some t' ∧ Inserted [(5, 1)] 1 2 t') ∧
      ∃ t', ft_shift_out 0 1 full = some t' ∧ Removed full [(5, 1)] 0 1 t') := by
  refine ⟨⟨rfl, by decide, by decide, by decide⟩, ?_⟩
  rintro ⟨⟨t', ht', -⟩, -⟩
  have hnone : ft_shift_up (fun _ => (0, 0)) 1 2 10 full = none := rfl
  cases ht'

end FingerTable
