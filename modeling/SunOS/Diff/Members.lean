/-
# Classes of lines

After sorting, lines of one value are neighbours, with their serial numbers going up.  `equiv`
puts the serial numbers of the new file into `member`, the first of each class with its sign
changed, and gives a line of the old file the index of that first one.
-/
import SunOS.Diff.Diffreg
import Mathlib.Data.Prod.Lex
import Mathlib.Tactic.Linarith

namespace Diff

open Option
open List
open Function (update update_of_ne update_self)
open ShellSort

variable {a b : ℕ → line} {n m i j k : ℕ}

/-! ## serials, sort -/

/-- The third loop of `prune`. -/
theorem serials_eq (n : ℕ) (a : ℕ → line) (k : ℕ) :
    serials n a k = if k ≤ n then { a k with serial := k } else a k := by
  unfold serials
  induction n with
  | zero =>
    show update a 0 _ k = _
    by_cases hk : k = 0
    · subst hk
      rw [update_self, if_pos le_rfl]
    · rw [update_of_ne hk, if_neg (by omega)]
  | succ n ih =>
    rw [range_succ, foldl_append]
    show update _ (n + 1) _ k = _
    by_cases hk : k = n + 1
    · subst hk
      rw [update_self, if_pos le_rfl]
      have hfix : ∀ (l : List ℕ) (a : ℕ → line), (n + 1) ∉ l →
          (l.foldl (fun a i => update a i { a i with serial := i }) a (n + 1)).value =
            (a (n + 1)).value := by
        intro l
        induction l with
        | nil => exact fun a _ => rfl
        | cons x l ih =>
          intro a hx
          rw [mem_cons, not_or] at hx
          rw [foldl_cons, ih _ hx.2, update_of_ne hx.1]
      exact congrArg (line.mk (n + 1))
        (hfix _ a fun h => absurd (List.mem_range.mp h) (lt_irrefl _))
    · rw [update_of_ne hk, ih]
      by_cases hkn : k ≤ n
      · rw [if_pos hkn, if_pos (by omega)]
      · rw [if_neg hkn, if_neg (by omega)]

/-- Lines are compared by value, then by serial number. -/
def key (l : line) : ℤ ×ₗ ℕ := toLex (l.value, l.serial)

theorem above_iff (x y : line) : above x y = true ↔ key y < key x := by
  unfold above key
  rw [decide_eq_true_iff, Prod.Lex.toLex_lt_toLex]
  constructor
  · rintro (h | ⟨h1, h2⟩)
    · exact Or.inl h
    · exact Or.inr ⟨h1.symm, h2⟩
  · rintro (h | ⟨h1, h2⟩)
    · exact Or.inl h
    · exact Or.inr ⟨h1.symm, h2⟩

/-- The lines from 1 to `n` after `prune` and `sort`. -/
structure Sorted (n : ℕ) (a : ℕ → line) : Prop where
  serial : ∀ i, 1 ≤ i ∧ i ≤ n → 1 ≤ (a i).serial ∧ (a i).serial ≤ n
  each : ∀ s, 1 ≤ s ∧ s ≤ n → ∃ i, (1 ≤ i ∧ i ≤ n) ∧ (a i).serial = s
  inj : ∀ i j, 1 ≤ i ∧ i ≤ n → 1 ≤ j ∧ j ≤ n → (a i).serial = (a j).serial → i = j
  ordered : ∀ i j, 1 ≤ i → i < j → j ≤ n → (a i).value < (a j).value ∨
    ((a i).value = (a j).value ∧ (a i).serial < (a j).serial)

/-- A line keeps its value. -/
theorem sort_value (n : ℕ) (a : ℕ → line) (hi : 1 ≤ i ∧ i ≤ n) :
    (sort n (serials n a) i).value = (a (sort n (serials n a) i).serial).value := by
  obtain ⟨k, hk, heq⟩ := (sort_spec above_iff n (serials n a)).1.entry hi
  show (ShellSort.sort above n (serials n a) i).value =
    (a (ShellSort.sort above n (serials n a) i).serial).value
  rw [heq, serials_eq, if_pos hk.2]

theorem Sorted.value_le (h : Sorted n a) (i j : ℕ) (hi : 1 ≤ i) (hij : i ≤ j) (hj : j ≤ n) :
    (a i).value ≤ (a j).value := by
  rcases Nat.lt_or_ge i j with hlt | hge
  · rcases h.ordered i j hi hlt hj with h | h
    · exact h.le
    · exact h.1.le
  · obtain rfl : i = j := by omega
    exact le_rfl

/-- **`sort`** after `prune`; the values are those of the lines. -/
theorem sort_sorted (n : ℕ) (a : ℕ → line) : Sorted n (sort n (serials n a)) ∧
    ∀ i, 1 ≤ i ∧ i ≤ n → ∃ k, (1 ≤ k ∧ k ≤ n) ∧ (sort n (serials n a) i).value = (a k).value := by
  obtain ⟨hsh, hord⟩ := sort_spec above_iff n (serials n a)
  have hserial : ∀ i, 1 ≤ i ∧ i ≤ n → (serials n a i).serial = i := by
    intro i hi
    rw [serials_eq, if_pos hi.2]
  have hinj := hsh.injOn (f := line.serial) (fun i j hi hj h => by
    rw [hserial i hi, hserial j hj] at h
    exact h)
  refine ⟨⟨fun i hi => ?_, fun s hs => ?_, hinj, fun i j hi hij hj => ?_⟩, fun i hi => ?_⟩
  · obtain ⟨k, hk, heq⟩ := hsh.entry hi
    show 1 ≤ (ShellSort.sort above n (serials n a) i).serial ∧
      (ShellSort.sort above n (serials n a) i).serial ≤ n
    rw [heq, hserial k hk]
    exact hk
  · obtain ⟨i, hi, heq⟩ := hsh.back hs
    refine ⟨i, hi, ?_⟩
    show (ShellSort.sort above n (serials n a) i).serial = s
    rw [heq, hserial s hs]
  · have hle := hord i j hi hij hj
    unfold key at hle
    rw [Prod.Lex.toLex_le_toLex] at hle
    rcases hle with h | ⟨h1, h2⟩
    · exact Or.inl h
    · refine Or.inr ⟨h1, lt_of_le_of_ne h2 fun heq => ?_⟩
      have := hinj i j ⟨hi, by omega⟩ ⟨by omega, hj⟩ heq
      omega
  · obtain ⟨k, hk, heq⟩ := hsh.entry hi
    refine ⟨k, hk, ?_⟩
    show (ShellSort.sort above n (serials n a) i).value = _
    rw [heq, serials_eq, if_pos hk.2]

/-! ## equiv -/

variable {base : ℕ} {c : ℕ → ℤ}

/-- `j` is the first of its class. -/
def First (b : ℕ → line) (j : ℕ) : Prop := j = 1 ∨ (b (j - 1)).value ≠ (b j).value

/-- A value that `equiv` gives to a line of the old file. -/
def Index (b : ℕ → line) (m : ℕ) (v : ℤ) : Prop :=
  v = 0 ∨ ∃ j : ℕ, v = j ∧ 1 ≤ j ∧ j ≤ m ∧ First b j

/-- The value that `equiv` gives to a line of the old file with the hash `h`: 0 only when no line
of the new file has it. -/
structure Placed (b : ℕ → line) (m : ℕ) (h v : ℤ) : Prop where
  index : Index b m v
  none : v = 0 → ∀ j, 1 ≤ j → j ≤ m → (b j).value ≠ h
  some : ∀ j : ℕ, 1 ≤ j → v = j → (b j).value = h

/-- The first two loops of `equiv`. -/
theorem equivloop_spec {a0 : ℕ → line} (ha : ∀ i j, 1 ≤ i → i ≤ j → j ≤ n →
    (a0 i).value ≤ (a0 j).value) (hb : ∀ i j, 1 ≤ i → i ≤ j → j ≤ m → (b i).value ≤ (b j).value) :
    ∀ (fuel i j : ℕ) (a : ℕ → line), 1 ≤ i → 1 ≤ j → i ≤ n + 1 → j ≤ m + 1 →
      (n + 1 - i) + (m + 1 - j) < fuel → (∀ k, (a k).serial = (a0 k).serial) →
      (∀ k, i ≤ k → (a k).value = (a0 k).value) →
      (∀ k, 1 ≤ k → k < i → Placed b m (a0 k).value (a k).value) →
      (∀ j', 1 ≤ j' → j' < j → ∀ k, i ≤ k → k ≤ n → (b j').value < (a0 k).value) →
      ∃ a', equivloop n m b fuel i j a = some a' ∧ (∀ k, (a' k).serial = (a0 k).serial) ∧
        ∀ k, 1 ≤ k → k ≤ n → Placed b m (a0 k).value (a' k).value := by
  intro fuel
  induction fuel with
  | zero =>
    intro i j a _ _ _ _ hf
    lia
  | succ fuel ih =>
    intro i j a hi hj hin hjm hf hser hval hdone hbelow
    -- what setting the value of line `i` keeps
    have hset : ∀ v, Placed b m (a0 i).value v → i ≤ n →
        ∃ a', equivloop n m b fuel (i + 1) j (update a i { a i with value := v }) =
          some a' ∧ (∀ k, (a' k).serial = (a0 k).serial) ∧
          ∀ k, 1 ≤ k → k ≤ n → Placed b m (a0 k).value (a' k).value := by
      intro v hv hin'
      refine ih (i + 1) j _ (by lia) hj (by lia) hjm (by lia) (fun k => ?_)
        (fun k hk => ?_) (fun k hk hki => ?_)
        fun j' hj1 hjj k hk hkn => hbelow j' hj1 hjj k (by lia) hkn
      · by_cases hki : k = i
        · subst hki
          rw [update_self]
          exact hser k
        · rw [update_of_ne hki]
          exact hser k
      · rw [update_of_ne (by lia)]
        exact hval k (by lia)
      · by_cases hki' : k = i
        · subst hki'
          rw [update_self]
          exact hv
        · rw [update_of_ne hki']
          exact hdone k hk (by lia)
    -- a line that is between two classes, or after the last, has no mate
    have hnone : (∀ j', j ≤ j' → j' ≤ m → (a0 i).value < (b j').value) → i ≤ n →
        Placed b m (a0 i).value 0 := by
      intro habove hin'
      refine ⟨Or.inl rfl, fun _ j' hj1 hjm => ?_, fun j' hj1 h0 => by lia⟩
      rcases Nat.lt_or_ge j' j with hlt | hge
      · exact (hbelow j' hj1 hlt i le_rfl hin').ne
      · exact (habove j' hge hjm).ne'
    unfold equivloop
    have hvali := hval i le_rfl
    by_cases hcond : i ≤ n ∧ j ≤ m
    · rw [if_pos hcond]
      by_cases hlt : (a i).value < (b j).value
      · rw [if_pos hlt]
        refine hset 0 (hnone (fun j' hjj hjm => ?_) hcond.1) hcond.1
        rw [← hvali]
        exact hlt.trans_le (hb j j' hj hjj hjm)
      · rw [if_neg hlt]
        by_cases heq : (a i).value = (b j).value
        · rw [if_pos heq]
          refine hset j ⟨Or.inr ⟨j, rfl, hj, hcond.2, ?_⟩, fun h0 => by lia, fun j' _ hjj => ?_⟩
            hcond.1
          · by_cases hj1 : j = 1
            · exact Or.inl hj1
            · right
              have := hbelow (j - 1) (by lia) (by lia) i le_rfl hcond.1
              rw [← heq, hvali]
              exact this.ne
          · rw [← Nat.cast_inj.mp hjj, ← heq, hvali]
        · rw [if_neg heq]
          refine ih i (j + 1) a hi (by lia) hin (by lia) (by lia) hser hval hdone ?_
          intro j' hj1 hjj k hk hkn
          rcases Nat.lt_or_ge j' j with hlt' | hge
          · exact hbelow j' hj1 hlt' k hk hkn
          · obtain rfl : j' = j := by lia
            have h1 := ha i k hi hk hkn
            lia
    · rw [if_neg hcond]
      by_cases hin' : i ≤ n
      · rw [if_pos hin']
        exact hset 0 (hnone (fun j' hjj hjm => by lia) hin') hin'
      · rw [if_neg hin']
        exact ⟨a, rfl, hser, fun k hk hkn => hdone k hk (by lia)⟩

/-- The serial number that `member` has at `j`. -/
def mark (b : ℕ → line) (j : ℕ) (v : ℤ) : Prop :=
  (First b j → v = -((b j).serial : ℤ)) ∧ (¬ First b j → v = (b j).serial)

/-- The words from `j + 1` on are still those of the lines; those up to `j` are members. -/
structure Overlay (b : ℕ → line) (base j : ℕ) (w : ℕ → ℤ) : Prop where
  serial : ∀ k, j < base + 2 * k → w (base + 2 * k) = (b k).serial
  value : ∀ k, j < base + 2 * k + 1 → w (base + 2 * k + 1) = (b k).value
  members : ∀ k, 1 ≤ k → k ≤ j → mark b k (w k)

/-- One more member is written, where no line is read again. -/
theorem Overlay.write {w : ℕ → ℤ} {v : ℤ} (h : Overlay b base j w)
    (hv : mark b (j + 1) v) : Overlay b base (j + 1) (update w (j + 1) v) where
  serial k hk := by
    rw [update_of_ne (by omega)]
    exact h.serial k (by omega)
  value k hk := by
    rw [update_of_ne (by omega)]
    exact h.value k (by omega)
  members k hk hkj := by
    by_cases hk' : k = j + 1
    · subst hk'
      rw [update_self]
      exact hv
    · rw [update_of_ne hk']
      exact h.members k hk (by omega)

/-- The inner loop of `equiv` goes to the end of the class. -/
theorem memberinner_spec (hlast : (b (m + 1)).value = 0)
    (hne : ∀ k, 1 ≤ k → k ≤ m → (b k).value ≠ 0) :
    ∀ (fuel j : ℕ) (w : ℕ → ℤ), 1 ≤ j → j ≤ m → m + 1 - j ≤ fuel → Overlay b base j w →
      ∃ j' w', memberinner base fuel j w = some (j', w') ∧ j ≤ j' ∧ j' ≤ m ∧
        Overlay b base j' w' ∧ First b (j' + 1) := by
  intro fuel
  induction fuel with
  | zero =>
    intro j w hj hjm hf
    lia
  | succ fuel ih =>
    intro j w hj hjm hf h
    unfold memberinner
    rw [h.value (j + 1) (by lia), h.value j (by lia)]
    by_cases heq : (b (j + 1)).value = (b j).value
    · rw [if_pos heq]
      have hjm' : j + 1 ≤ m := by
        by_contra hlt
        obtain rfl : j = m := by lia
        exact hne j hj hjm (by rw [← heq, hlast])
      have hnf : ¬ First b (j + 1) := by
        rintro (h1 | h1)
        · lia
        · rw [Nat.add_sub_cancel] at h1
          exact h1 heq.symm
      obtain ⟨j', w', hrun, hle, hm', ho, hf'⟩ := ih (j + 1) _ (by lia) hjm' (by lia)
        (h.write ⟨fun hf' => absurd hf' hnf, fun _ => h.serial (j + 1) (by lia)⟩)
      exact ⟨j', w', hrun, by lia, hm', ho, hf'⟩
    · rw [if_neg heq]
      refine ⟨j, w, rfl, le_rfl, hjm, h, Or.inr ?_⟩
      rw [Nat.add_sub_cancel]
      exact fun h1 => heq h1.symm

/-- The outer loop. -/
theorem memberloop_spec (hlast : (b (m + 1)).value = 0)
    (hne : ∀ k, 1 ≤ k → k ≤ m → (b k).value ≠ 0) :
    ∀ (fuel j : ℕ) (w : ℕ → ℤ), j ≤ m → m + 1 - j ≤ fuel → Overlay b base j w →
      First b (j + 1) → ∃ c, memberloop base m fuel j w = some c ∧
        (∀ k, 1 ≤ k → k ≤ m → mark b k (c k)) ∧ c (m + 1) = -1 := by
  intro fuel
  induction fuel with
  | zero =>
    intro j w hjm hf
    lia
  | succ fuel ih =>
    intro j w hjm hf h hfirst
    unfold memberloop
    by_cases hle : j + 1 ≤ m
    · have hw := h.write (v := -w (base + 2 * (j + 1))) ⟨fun _ => by
        rw [h.serial (j + 1) (by lia)], fun hnf => absurd hfirst hnf⟩
      obtain ⟨j', w', hrun, hle', hm', ho, hf'⟩ :=
        memberinner_spec hlast hne (m + 1) (j + 1) _ (by lia) hle (by lia) hw
      obtain ⟨c, hrun', hc⟩ := ih j' w' hm' (by lia) ho hf'
      refine ⟨c, ?_, hc⟩
      simp only [if_pos hle, hrun, bind_eq_bind, bind_some]
      exact hrun'
    · obtain rfl : j = m := by lia
      refine ⟨_, by rw [if_neg hle], fun k hk hkm => ?_, update_self ..⟩
      rw [update_of_ne (by lia)]
      exact h.members k hk hkm

/-- **`member`**: serial numbers go up from each negative entry to the next. -/
structure Members (m : ℕ) (c : ℕ → ℤ) : Prop where
  entry : ∀ j, 1 ≤ j → j ≤ m → 1 ≤ (c j).natAbs ∧ (c j).natAbs ≤ m
  up : ∀ j, 1 ≤ j → j ≤ m → 0 < c (j + 1) → (c j).natAbs < (c (j + 1)).natAbs
  stop : c (m + 1) < 0

/-- A value of `klass`: none, or the first of a class. -/
def Class (m : ℕ) (c : ℕ → ℤ) (v : ℤ) : Prop :=
  v = 0 ∨ ∃ j : ℕ, v = j ∧ 1 ≤ j ∧ j ≤ m ∧ c j < 0

/-- `member` after `equiv`: the serial number of every line, that of the first of a class with its
sign changed. -/
structure Listed (m : ℕ) (b : ℕ → line) (c : ℕ → ℤ) : Prop where
  mark : ∀ k, 1 ≤ k → k ≤ m → Diff.mark b k (c k)
  stop : c (m + 1) = -1

theorem Listed.natAbs (h : Listed m b c) (hk : 1 ≤ k) (hkm : k ≤ m) :
    (c k).natAbs = (b k).serial := by
  by_cases hf : First b k
  · rw [(h.mark k hk hkm).1 hf, Int.natAbs_neg, Int.natAbs_natCast]
  · rw [(h.mark k hk hkm).2 hf, Int.natAbs_natCast]

theorem Listed.first_iff (h : Listed m b c) (hb : Sorted m b) (hk : 1 ≤ k)
    (hkm : k ≤ m) : c k < 0 ↔ First b k := by
  have hpos := (hb.serial k ⟨hk, hkm⟩).1
  by_cases hf : First b k
  · rw [(h.mark k hk hkm).1 hf]
    exact ⟨fun _ => hf, fun _ => by lia⟩
  · rw [(h.mark k hk hkm).2 hf]
    exact ⟨fun hlt => by lia, fun hf' => absurd hf' hf⟩

/-- The next entry is of the same class when it is positive. -/
theorem Listed.next (h : Listed m b c) (hb : Sorted m b) (hkm : k ≤ m)
    (hpos : 0 < c (k + 1)) : k + 1 ≤ m ∧ (b k).value = (b (k + 1)).value := by
  have hkm' : k + 1 ≤ m := by
    by_contra hgt
    obtain rfl : k = m := by lia
    have := h.stop
    lia
  refine ⟨hkm', ?_⟩
  have hnf : ¬ First b (k + 1) := by
    rw [← h.first_iff hb (by lia) hkm']
    lia
  unfold First at hnf
  rw [not_or, Nat.add_sub_cancel, not_not] at hnf
  exact hnf.2

theorem Listed.members (h : Listed m b c) (hb : Sorted m b) : Members m c := by
  refine ⟨fun j hj hjm => ?_, fun j hj hjm hpos => ?_, by rw [h.stop]; decide⟩
  · rw [h.natAbs hj hjm]
    exact hb.serial j ⟨hj, hjm⟩
  · obtain ⟨hj1, hval⟩ := h.next hb hjm hpos
    rw [h.natAbs hj hjm, h.natAbs (by lia) hj1]
    rcases hb.ordered j (j + 1) hj (by lia) hj1 with hlt | hser
    · exact absurd hval hlt.ne
    · exact hser.2

theorem Placed.klass {h v : ℤ} (hv : Placed b m h v) (hc : Listed m b c)
    (hb : Sorted m b) : Class m c v := by
  rcases hv.index with h0 | ⟨j, hv, hj, hjm, hf⟩
  · exact Or.inl h0
  · exact Or.inr ⟨j, hv, hj, hjm, (hc.first_iff hb hj hjm).mpr hf⟩

/-- **`equiv`** on two sorted files. -/
theorem equiv_spec (pref : ℕ) (file1 : ℕ → line) (ha : Sorted n a)
    (hb : Sorted m fun k => file1 (pref + k))
    (hne : ∀ k, 1 ≤ k → k ≤ m → (file1 (pref + k)).value ≠ 0) :
    ∃ a' c, equiv n m pref a file1 = some (a', c) ∧ Listed m (fun k => file1 (pref + k)) c ∧
      (∀ k, (a' k).serial = (a k).serial) ∧
      ∀ k, 1 ≤ k → k ≤ n → Placed (fun k => file1 (pref + k)) m (a k).value (a' k).value := by
  obtain ⟨a', hrun, hser, hidx⟩ := equivloop_spec (m := m) (b := fun k => file1 (pref + k))
    ha.value_le hb.value_le (n + m + 1) 1 1 a le_rfl le_rfl (by lia) (by lia) (by lia)
    (fun _ => rfl) (fun _ _ => rfl) (fun k hk hk1 => by lia) (fun j' hj1 hjj => by lia)
  -- the sentinel after the last line
  let last := pref + (m + 1)
  let file' := update file1 last { file1 last with value := 0 }
  let b : ℕ → line := fun k => file' (pref + k)
  have hbk : ∀ k, k ≠ m + 1 → b k = file1 (pref + k) := by
    intro k hk
    exact update_of_ne (by show pref + k ≠ pref + (m + 1); lia) _ _
  have hblast : (b (m + 1)).value = 0 := by
    show (update file1 last _ last).value = 0
    rw [update_self]
  have hover : Overlay b (2 * pref) 0 (words file') := by
    refine ⟨fun k _ => ?_, fun k _ => ?_, fun k hk hk0 => by lia⟩
    · unfold words
      rw [if_pos (by lia), show (2 * pref + 2 * k) / 2 = pref + k by lia]
    · unfold words
      rw [if_neg (by lia), show (2 * pref + 2 * k + 1) / 2 = pref + k by lia]
  obtain ⟨c, hrun', hc, hclast⟩ := memberloop_spec hblast
    (fun k hk hkm => by rw [hbk k (by lia)]; exact hne k hk hkm) (m + 1) 0 _ (Nat.zero_le m)
    (by lia) hover (Or.inl rfl)
  refine ⟨a', c, ?_, ⟨fun k hk hkm => ?_, hclast⟩, hser, hidx⟩
  · unfold equiv
    simp only [hrun, bind_eq_bind, bind_some]
    rw [hrun']
    rfl
  · have hmark := hc k hk hkm
    unfold mark First at hmark ⊢
    rwa [hbk k (by lia), hbk (k - 1) (by lia)] at hmark

/-! ## unsort -/

/-- **`unsort`** puts the values back in the order of the lines. -/
theorem unsort_spec {f : ℕ → line} {l : ℕ} {P : ℕ → ℤ → Prop} (mem : ℕ → ℤ)
    (heach : ∀ s, 1 ≤ s ∧ s ≤ l → ∃ i, (1 ≤ i ∧ i ≤ l) ∧ (f i).serial = s)
    (hP : ∀ k, 1 ≤ k → k ≤ l → P (f k).serial (f k).value) :
    ∀ i, 1 ≤ i → i ≤ l → P i (unsort f l mem i) := by
  -- after some rounds of the first loop, every entry for one of the lines has a value of one
  have hfirst : ∀ k, k ≤ l → ∀ p, 1 ≤ p → p ≤ k →
      P (f p).serial ((List.range k).foldl
        (fun a i => update a (f (i + 1)).serial (f (i + 1)).value) mem (f p).serial) := by
    intro k
    induction k with
    | zero =>
      intro _ p hp hpk
      omega
    | succ k ih =>
      intro hkl p hp hpk
      simp only [range_succ, foldl_append, foldl_cons, foldl_nil]
      by_cases heq : (f p).serial = (f (k + 1)).serial
      · rw [heq, update_self]
        exact hP (k + 1) (by omega) hkl
      · rw [update_of_ne heq]
        refine ih (by omega) p hp ?_
        by_contra hgt
        exact heq (by rw [show p = k + 1 by omega])
  have hsecond : ∀ (a : ℕ → ℤ) (k : ℕ), k ≤ l → ∀ i, 1 ≤ i → i ≤ k →
      (List.range k).foldl (fun b i => update b (i + 1) (a (i + 1))) mem i = a i := by
    intro a k
    induction k with
    | zero =>
      intro _ i hi hik
      omega
    | succ k ih =>
      intro hkl i hi hik
      simp only [range_succ, foldl_append, foldl_cons, foldl_nil]
      by_cases heq : i = k + 1
      · rw [heq, update_self]
      · rw [update_of_ne heq]
        exact ih (by omega) i hi (by omega)
  intro i hi hil
  obtain ⟨p, hp, hps⟩ := heach i ⟨hi, hil⟩
  show P i ((List.range l).foldl _ mem i)
  rw [hsecond _ l le_rfl i hi hil, ← hps]
  exact hfirst l le_rfl p hp.1 hp.2

end Diff
