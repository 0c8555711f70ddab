/-
# The longest match

The candidates in `c` are thresholds: `stone` finds a longest common subsequence of the hashes,
and `unravel` matches it, with the common prefix and suffix that `prune` has taken off.
-/
import SunOS.Diff.Unravel
import SunOS.Lib.CommonSubseq
import Mathlib.Order.Interval.Finset.Nat
import Mathlib.Data.Finset.Card

namespace Diff

open Option (some.inj)
open List
open Function (update update_of_ne update_self)
open CommonSubseq

variable {n m i j k l y oldl oldc : ℕ} {s : stones} {b : ℕ → ℤ} {xs ys : List ℤ} {a : ℤ}
  {d : ℕ → ℕ}

/-! ## Candidates -/

/-- Candidates pair lines with equal hashes, and `d` is the length of the chain of one. -/
structure Chained (xs ys : List ℤ) (d : ℕ → ℕ) (s : stones) : Prop where
  equal : ∀ q, 1 ≤ q → q < s.clen → xs[(s.clist q).x - 1]? = ys[(s.clist q).y - 1]?
  root : d 0 = 0
  pred : ∀ q, 1 ≤ q → q < s.clen → d q = d (s.clist q).pred + 1
  depth : ∀ l, l ≤ s.k → d (s.c l) = l

/-- A new candidate at `l`. -/
theorem Chained.newcand {c k' : ℕ} (h : Chained xs ys d s) (hs : Cands n m s)
    (hv : ∀ l, l ≤ s.k → s.c l < s.clen) (hc : c < s.clen) (hdc : d c + 1 = l) (hle : l ≤ s.k + 1)
    (hk' : k' = max s.k l) (hxy : xs[i - 1]? = ys[y - 1]?) :
    Chained xs ys (update d s.clen l) { newcand s l i y c with k := k' } := by
  refine ⟨fun q hq hqc => ?_, ?_, fun q hq hqc => ?_, fun l' hl' => ?_⟩
  · have hqc' : q < s.clen + 1 := hqc
    show xs[((Diff.newcand s l i y c).clist q).x - 1]? =
      ys[((Diff.newcand s l i y c).clist q).y - 1]?
    by_cases hqn : q = s.clen
    · rw [hqn, newcand_new]
      exact hxy
    · rw [newcand_old (by omega)]
      exact h.equal q hq (by omega)
  · rw [update_of_ne (by omega)]
    exact h.root
  · have hqc' : q < s.clen + 1 := hqc
    show update d s.clen l q =
      update d s.clen l ((Diff.newcand s l i y c).clist q).pred + 1
    by_cases hqn : q = s.clen
    · rw [hqn, newcand_new, update_self, update_of_ne hc.ne]
      exact hdc.symm
    · have hpred := (hs.cand q hq (by omega)).1
      rw [newcand_old (by omega), update_of_ne hqn, update_of_ne (by omega)]
      exact h.pred q hq (by omega)
  · have hl'' : l' ≤ k' := hl'
    show update d s.clen l ((Diff.newcand s l i y c).c l') = l'
    by_cases hll : l' = l
    · rw [hll, newcand_c_self, update_self]
    · have hle' : l' ≤ s.k := by
        clear hl'
        omega
      rw [newcand_c hll, update_of_ne (hv l' hle').ne]
      exact h.depth l' hle'

/-- **The state is best** after the rows up to `i`: the candidates are the thresholds of the common
subsequences. -/
structure Best (xs ys : List ℤ) (i : ℕ) (s : stones) : Prop where
  thresholds : Thresholds (fun l y => Common (xs.take i) (ys.take y) l) s.k s.Y
  chained : ∃ d, Chained xs ys d s

/-! ## A row -/

variable {c : ℕ}

/-- In row `i + 1`, of the hash `a`, before a line `y` of that hash is looked at.  The candidates
after `oldl` are still those of the rows before; `oldc` tells for later lines whether they go after
`oldl`. -/
structure RowBest (xs ys : List ℤ) (i : ℕ) (a : ℤ) (y oldl oldc : ℕ) (d : ℕ → ℕ) (s : stones) :
    Prop where
  tried : Thresholds (Tried (xs.take i) ys a (y - 1)) s.k s.Y
  old : ∀ l y', oldl < l → (Common (xs.take i) (ys.take y') l ↔ l ≤ s.k ∧ s.Y l ≤ y')
  gate : ∀ y', y - 1 ≤ y' → ((s.clist oldc).y ≤ y' ↔ Common (xs.take i) (ys.take y') oldl)
  chained : Chained xs ys d s
  depth : d oldc = oldl ∨ (oldl + 1 ≤ s.k ∧ s.Y (oldl + 1) < y)

/-- Up to the next line of the hash nothing changes. -/
theorem RowBest.mono {y' : ℕ} (h : RowBest xs ys i a (y + 1) oldl oldc d s) (hyy : y < y')
    (hbetween : ∀ p, y ≤ p → p < y' - 1 → ys[p]? ≠ some a) :
    RowBest xs ys i a y' oldl oldc d s := by
  refine ⟨?_, h.old, fun z hz => h.gate z (by omega), h.chained, ?_⟩
  · refine h.tried.skip (by omega) fun p l hp hpy hpa => ?_
    exact absurd hpa (hbetween p hp hpy)
  · rcases h.depth with hd | ⟨hk, hY⟩
    · exact Or.inl hd
    · exact Or.inr ⟨hk, by omega⟩

section

variable (h : RowBest xs ys i a y oldl oldc d s)
include h

/-- A line that is not below the candidate that was replaced last. -/
theorem RowBest.skip
    (hr : Row n m (i + 1) y oldl oldc s) (hy : 1 ≤ y) (hskip : y ≤ (s.clist oldc).y) :
    RowBest xs ys i a (y + 1) oldl oldc d s := by
  have hno : ¬ Common (xs.take i) (ys.take (y - 1)) oldl := by
    rw [← h.gate (y - 1) le_rfl]
    omega
  refine ⟨?_, h.old, fun z hz => h.gate z (by omega), h.chained, ?_⟩
  · refine h.tried.skip (by omega) fun p l hp hpy _ hl hcom => ?_
    obtain rfl : p = y - 1 := by omega
    have hlow : l ≤ oldl := by
      by_contra hgt
      exact hno (hcom.shorter (by omega))
    have hYl := hr.Y_le hlow hr.oldl_le
    have hbelow := hr.below
    exact ⟨hlow.trans hr.oldl_le, by omega⟩
  · rcases h.depth with hd | ⟨hk, hY⟩
    · exact Or.inl hd
    · exact Or.inr ⟨hk, by omega⟩

/-- What is common before a line that has the place `l`. -/
theorem RowBest.common (hpl : Place s y l) (hl : oldl + 1 ≤ l) (hold : (s.clist oldc).y < y) :
    Common (xs.take i) (ys.take (y - 1)) (l - 1) ∧ ¬ Common (xs.take i) (ys.take (y - 1)) l := by
  have hle := hpl.le
  have habove := hpl.above
  constructor
  · by_cases hne : l = oldl + 1
    · rw [hne, Nat.add_sub_cancel, ← h.gate (y - 1) le_rfl]
      omega
    · rw [h.old (l - 1) (y - 1) (by omega)]
      omega
  · rw [h.old l (y - 1) (by omega)]
    rintro ⟨hlk, hY⟩
    have := hpl.below hlk
    omega

/-- The thresholds when a line has the place `l`. -/
theorem RowBest.placed {Z : ℕ → ℕ}
    (hr : Row n m (i + 1) y oldl oldc s) (hy : 1 ≤ y) (hya : ys[y - 1]? = some a)
    (hpl : Place s y l) (hl : oldl + 1 ≤ l) (hold : (s.clist oldc).y < y)
    (hother : ∀ l', l' ≠ l → l' ≤ s.k → Z l' = s.Y l')
    (hself : Z l = if l ≤ s.k then min (s.Y l) y else y) :
    Thresholds (Tried (xs.take i) ys a y) (max s.k l) Z := by
  obtain ⟨hcommon, hmost⟩ := h.common hpl hl hold
  have habove := hpl.above
  have hle := hpl.le
  have hplace := h.tried.place (Z := Z) le_rfl (fun p hp hpy => by omega) hya hpl.pos hle
    (fun l' hl' => ?_) hcommon hmost hother (by rw [hself, Nat.sub_add_cancel hy])
  · rwa [Nat.sub_add_cancel hy] at hplace
  · have := hr.Y_le (show l' ≤ l - 1 by omega) (by omega)
    omega

/-- The length of the chain of the predecessor. -/
theorem RowBest.depth_pred (hpl : Place s y l) (hc : Pred s oldl oldc l c) : d c + 1 = l := by
  have hpos := hpl.pos
  have hle := hpl.le
  rcases hc with ⟨hne, rfl⟩ | ⟨rfl, rfl⟩
  · rw [h.chained.depth (l - 1) (by omega)]
    omega
  · rcases h.depth with hd | ⟨hk, hY⟩
    · rw [hd]
    · have := hpl.below hk
      omega

/-- A line that has a candidate already. -/
theorem RowBest.same (hr : Row n m (i + 1) y oldl oldc s) (hy : 1 ≤ y) (hya : ys[y - 1]? = some a)
    (hpl : Place s y l) (hl : oldl + 1 ≤ l) (hold : (s.clist oldc).y < y)
    (hc : Pred s oldl oldc l c) (hlk : l ≤ s.k) (hyl : s.Y l ≤ y) :
    RowBest xs ys i a (y + 1) oldl c d s := by
  have hcommon := (h.common hpl hl hold).1
  refine ⟨?_, h.old, fun z hz => ?_, h.chained, ?_⟩
  · have := h.placed hr hy hya hpl hl hold (fun _ _ _ => rfl)
      (by rw [if_pos hlk, min_eq_left hyl])
    rwa [max_eq_left hlk] at this
  · rcases hc with ⟨hne, rfl⟩ | ⟨-, rfl⟩
    · have habove : (s.clist (s.c (l - 1))).y < y := hpl.above
      refine ⟨fun _ => ?_, fun _ => by omega⟩
      exact (hcommon.shorter (by omega)).mono (List.Sublist.refl _)
        (take_sublist_take_left (by omega))
    · exact h.gate z (by omega)
  · rcases hc with ⟨hne, rfl⟩ | ⟨-, rfl⟩
    · have := hr.Y_le (show oldl + 1 ≤ l by omega) hlk
      exact Or.inr ⟨by omega, by omega⟩
    · rcases h.depth with hd | ⟨hk, hY⟩
      · exact Or.inl hd
      · exact Or.inr ⟨hk, by omega⟩

/-- A candidate is replaced. -/
theorem RowBest.replace
    (hr : Row n m (i + 1) y oldl oldc s) (hy : 1 ≤ y) (hya : ys[y - 1]? = some a)
    (hxa : xs[i]? = some a) (hpl : Place s y l) (hl : oldl + 1 ≤ l) (hold : (s.clist oldc).y < y)
    (hc : Pred s oldl oldc l c) (hlk : l ≤ s.k) (hyl : y < s.Y l) :
    RowBest xs ys i a (y + 1) l (s.c l) (update d s.clen l)
      (newcand s l (i + 1) y c) := by
  have hv := hr.valid l hlk
  have hcl := (hr.pred hpl hl hold hc).1
  have hmax := max_eq_left hlk
  refine ⟨?_, fun l' z hl' => ?_, fun z _ => ?_, ?_, Or.inl ?_⟩
  · have := h.placed (Z := (newcand s l (i + 1) y c).Y) hr hy hya hpl hl hold
      (fun l' hne hlk' => (newcand_other hne (hr.valid l' hlk')).2)
      (by rw [newcand_self.2, if_pos hlk, min_eq_right hyl.le])
    rwa [hmax] at this
  · rw [h.old l' z (by omega)]
    show l' ≤ s.k ∧ _ ↔ l' ≤ s.k ∧ _
    refine and_congr_right fun hlk' => ?_
    rw [(newcand_other (by omega) (hr.valid l' hlk')).2]
  · rw [newcand_old hv, h.old l z (by omega)]
    exact ⟨fun hz => ⟨hlk, hz⟩, fun hz => hz.2⟩
  · exact h.chained.newcand hr.toCands hr.valid hcl (h.depth_pred hpl hc) hpl.le hmax.symm
      (hxa.trans hya.symm)
  · rw [update_of_ne hv.ne, h.chained.depth l hlk]

/-- **A candidate is added**, and no later line of the hash changes anything. -/
theorem RowBest.extend
    (hr : Row n m (i + 1) y oldl oldc s) (hn : i + 1 ≤ n) (hy : 1 ≤ y) (hym : y ≤ m)
    (hya : ys[y - 1]? = some a) (hxa : xs[i]? = some a) (hpl : Place s y l) (hl : oldl + 1 ≤ l)
    (hold : (s.clist oldc).y < y) (hc : Pred s oldl oldc l c) (hlk : l = s.k + 1) :
    Best xs ys (i + 1) { newcand s l (i + 1) y c with k := s.k + 1 } := by
  have hcl := (hr.pred hpl hl hold hc).1
  have hmax : s.k + 1 = max s.k l := by omega
  have hst := hr.extend hpl hl hold hc hn hym hlk
  have hplaced := h.placed (Z := (newcand s l (i + 1) y c).Y) hr hy hya hpl hl hold
    (fun l' hne hlk' => (newcand_other hne (hr.valid l' hlk')).2)
    (by rw [newcand_self.2, if_neg (by omega)])
  rw [← hmax] at hplaced
  refine ⟨?_, _, h.chained.newcand hr.toCands hr.valid hcl (h.depth_pred hpl hc) hpl.le hmax
    (hxa.trans hya.symm)⟩
  have htake : xs.take (i + 1) = xs.take i ++ [a] := by
    rw [take_add_one, hxa, Option.toList_some]
  rw [htake]
  refine hplaced.done fun p l' hp _ hl' hcom => ?_
  have hl'k : l' ≤ s.k + 1 := by
    by_contra hgt
    have := (h.old (s.k + 1) p (by omega)).mp (hcom.shorter (by omega))
    omega
  refine ⟨hl'k, ?_⟩
  have hYl' : (newcand s l (i + 1) y c).Y l' ≤ (newcand s l (i + 1) y c).Y (s.k + 1) :=
    hst.Y_le hl'k le_rfl
  rw [← hlk, newcand_self.2] at hYl'
  omega

end

/-- **The members of a class** are the lines of one hash, in order. -/
structure Entries (ys : List ℤ) (b : ℕ → ℤ) (m : ℕ) : Prop where
  first : ∀ j, 1 ≤ j → j ≤ m → b j < 0 → ∀ p, p < (b j).natAbs - 1 →
    ys[p]? ≠ ys[(b j).natAbs - 1]?
  next : ∀ j, 1 ≤ j → j ≤ m → 0 < b (j + 1) →
    ys[(b (j + 1)).natAbs - 1]? = ys[(b j).natAbs - 1]? ∧
      ∀ p, (b j).natAbs ≤ p → p < (b (j + 1)).natAbs - 1 → ys[p]? ≠ ys[(b j).natAbs - 1]?
  last : ∀ j, 1 ≤ j → j ≤ m → ¬ 0 < b (j + 1) → ∀ p, (b j).natAbs ≤ p →
    ys[p]? ≠ ys[(b j).natAbs - 1]?

/-- **A row** of `stone` is best. -/
theorem rowloop_best (hb : Members m b) (he : Entries ys b m) (hi : i + 1 ≤ n)
    (hxa : xs[i]? = some a) :
    ∀ (fuel j y oldl oldc : ℕ) (d : ℕ → ℕ) (s t : stones), 1 ≤ j → j ≤ m → y = (b j).natAbs →
      ys[y - 1]? = some a → Row n m (i + 1) y oldl oldc s → RowBest xs ys i a y oldl oldc d s →
      rowloop b (i + 1) fuel j y oldl oldc s = some t → Best xs ys (i + 1) t := by
  intro fuel
  induction fuel with
  | zero =>
    intro j y oldl oldc d s t _ _ _ _ _ _ hrun
    cases hrun
  | succ fuel ih =>
    intro j y oldl oldc d s t hj hjm hy hya hr h hrun
    have hym := hb.entry j hj hjm
    rw [← hy] at hym
    -- the next member of the class, or the end of the row
    have hnext : ∀ (oldl oldc : ℕ) (d : ℕ → ℕ) (s : stones), Row n m (i + 1) (y + 1) oldl oldc s →
        RowBest xs ys i a (y + 1) oldl oldc d s →
        (if 0 < b (j + 1) then rowloop b (i + 1) fuel (j + 1) (b (j + 1)).toNat oldl oldc s
          else some s) = some t → Best xs ys (i + 1) t := by
      intro oldl oldc d s hr h hrun
      by_cases hpos : 0 < b (j + 1)
      · rw [if_pos hpos] at hrun
        obtain ⟨hjm', hnat, hup⟩ := hb.next hj hjm hpos
        obtain ⟨heq, hbetween⟩ := he.next j hj hjm hpos
        rw [hnat] at hrun
        rw [← hy, hya] at heq hbetween
        rw [← hy] at hup
        exact ih (j + 1) _ oldl oldc d s t (by omega) hjm' rfl heq (hr.mono hup)
          (h.mono hup hbetween) hrun
      · rw [if_neg hpos] at hrun
        obtain rfl := some.inj hrun
        have hlast := he.last j hj hjm hpos
        rw [← hy, hya] at hlast
        have htake : xs.take (i + 1) = xs.take i ++ [a] := by
          rw [take_add_one, hxa, Option.toList_some]
        refine ⟨?_, d, h.chained⟩
        rw [htake]
        exact h.tried.done fun p l hp hpa => absurd hpa (hlast p hp)
    rcases rowloop_cases (b := b) hr hym.1 fuel j with ⟨hskip, heq⟩ |
      ⟨l, c, hpl, hl, hold, hc, ⟨hlk, hyl, heq⟩ | ⟨hlk, hyl, heq⟩ | ⟨hlk, heq⟩⟩
    · rw [heq] at hrun
      exact hnext oldl oldc d s (hr.mono (Nat.le_succ y)) (h.skip hr hym.1 hskip) hrun
    · rw [heq] at hrun
      exact hnext oldl c d s (hr.same hpl hl hold hc)
        (h.same hr hym.1 hya hpl hl hold hc hlk hyl) hrun
    · rw [heq] at hrun
      exact hnext l (s.c l) _ _ (hr.replace hpl hl hold hc hi hym.2 hlk hyl)
        (h.replace hr hym.1 hya hxa hpl hl hold hc hlk hyl) hrun
    · rw [heq] at hrun
      obtain rfl := some.inj hrun
      exact h.extend hr hi hym.1 hym.2 hya hxa hpl hl hold hc hlk

/-! ## stone -/

variable {file : ℕ → line} {f sb : ℕ → line}

/-- The hashes of the lines from 1 to `n`. -/
def hashes (n : ℕ) (file : ℕ → line) : List ℤ := (List.range n).map fun k => (file (k + 1)).value

theorem hashes_length (n : ℕ) (file : ℕ → line) : (hashes n file).length = n := by
  rw [hashes, length_map, length_range]

theorem hashes_getElem? {p : ℕ} (hp : p < n) : (hashes n file)[p]? = some (file (p + 1)).value := by
  rw [hashes, List.getElem?_map, List.getElem?_range hp, Option.map_some]

theorem hashes_none {p : ℕ} (hp : n ≤ p) : (hashes n file)[p]? = none :=
  List.getElem?_eq_none (by rw [hashes_length]; exact hp)

theorem hashes_append (n m : ℕ) (file : ℕ → line) :
    hashes (n + m) file = hashes n file ++ hashes m fun k => file (n + k) := by
  rw [hashes, range_add, map_append, map_map]
  rfl

theorem hashes_congr {file file' : ℕ → line}
    (h : ∀ k, 1 ≤ k → k ≤ n → (file k).value = (file' k).value) :
    hashes n file = hashes n file' := by
  refine map_congr_left fun k hk => h (k + 1) (by omega) ?_
  exact List.mem_range.mp hk

/-- `member` of a sorted file. -/
theorem Listed.entries {c : ℕ → ℤ} (h : Listed m sb c) (hs : Sorted m sb)
    (hv : ∀ k, 1 ≤ k ∧ k ≤ m → (sb k).value = (f (sb k).serial).value) :
    Entries (hashes m f) c m := by
  have hentry : ∀ j, 1 ≤ j → j ≤ m → (hashes m f)[(c j).natAbs - 1]? = some (sb j).value := by
    intro j hj hjm
    have hser := hs.serial j ⟨hj, hjm⟩
    rw [h.natAbs hj hjm, hashes_getElem? (by omega), Nat.sub_add_cancel hser.1, hv j ⟨hj, hjm⟩]
  -- where else the hash is
  have hplace : ∀ j p, (hashes m f)[p]? = some (sb j).value →
      ∃ j', (1 ≤ j' ∧ j' ≤ m) ∧ (sb j').serial = p + 1 ∧ (sb j').value = (sb j).value := by
    intro j p hp
    have hpm : p < m := by
      by_contra hge
      rw [hashes_none (not_lt.mp hge)] at hp
      cases hp
    obtain ⟨j', hj', hser⟩ := hs.each (p + 1) ⟨by omega, hpm⟩
    rw [hashes_getElem? hpm] at hp
    refine ⟨j', hj', hser, ?_⟩
    rw [hv j' hj', hser]
    exact some.inj hp
  have horder : ∀ i j, 1 ≤ i → i < j → j ≤ m → (sb i).value = (sb j).value →
      (sb i).serial < (sb j).serial := by
    intro i j hi hij hj heq
    rcases hs.ordered i j hi hij hj with hlt | hser
    · exact absurd heq hlt.ne
    · exact hser.2
  refine ⟨fun j hj hjm hneg p hp heq => ?_, fun j hj hjm hpos => ⟨?_, fun p hp hpn heq => ?_⟩,
    fun j hj hjm hneg p hp heq => ?_⟩
  · rw [hentry j hj hjm] at heq
    rw [h.natAbs hj hjm] at hp
    obtain ⟨j', hj', hser, hval⟩ := hplace j p heq
    have hlt : j' < j := by
      by_contra hge
      rcases Nat.lt_or_ge j j' with hlt | hle
      · have := horder j j' hj hlt hj'.2 hval.symm
        omega
      · obtain rfl : j = j' := by omega
        omega
    rcases (h.first_iff hs hj hjm).mp hneg with h1 | hne
    · omega
    · have h1 := hs.value_le j' (j - 1) hj'.1 (by omega) (by omega)
      have h2 := hs.value_le (j - 1) j (by omega) (by omega) hjm
      rw [hval] at h1
      exact hne (le_antisymm h2 h1)
  · obtain ⟨hjm', hval⟩ := h.next hs hjm hpos
    rw [hentry (j + 1) (by omega) hjm', hentry j hj hjm, hval]
  · obtain ⟨hjm', hval⟩ := h.next hs hjm hpos
    rw [hentry j hj hjm] at heq
    rw [h.natAbs hj hjm] at hp
    rw [h.natAbs (by omega) hjm'] at hpn
    obtain ⟨j', hj', hser, hval'⟩ := hplace j p heq
    rcases Nat.lt_or_ge j' (j + 1) with hlt | hge
    · rcases Nat.lt_or_ge j' j with hlt' | hge'
      · have := horder j' j hj'.1 hlt' hjm hval'
        omega
      · obtain rfl : j' = j := by omega
        omega
    · rcases Nat.lt_or_ge (j + 1) j' with hlt' | hge'
      · have := horder (j + 1) j' (by omega) hlt' hj'.2 (hval.symm.trans hval'.symm)
        omega
      · obtain rfl : j' = j + 1 := by omega
        omega
  · rw [hentry j hj hjm] at heq
    rw [h.natAbs hj hjm] at hp
    obtain ⟨j', hj', hser, hval⟩ := hplace j p heq
    have hlt : j < j' := by
      by_contra hge
      rcases Nat.lt_or_ge j' j with hlt | hle
      · have := horder j' j hj'.1 hlt hjm hval
        omega
      · obtain rfl : j = j' := by omega
        omega
    have hval' : (sb j).value = (sb (j + 1)).value := by
      have h1 := hs.value_le j (j + 1) hj (by omega) (by omega)
      have h2 := hs.value_le (j + 1) j' (by omega) hlt hj'.2
      rw [hval] at h2
      exact le_antisymm h1 h2
    have hnf : ¬ First sb (j + 1) := by
      rintro (h1 | hne)
      · omega
      · exact hne hval'
    rw [(h.mark (j + 1) (by omega) (by omega)).2 hnf] at hneg
    have := (hs.serial (j + 1) ⟨by omega, by omega⟩).1
    omega

/-- **A round of `stone`** is best. -/
theorem stonerow_best {klass c : ℕ → ℤ} {t : stones} (hs : Sorted m sb)
    (hc : Listed m sb c) (hv : ∀ k, 1 ≤ k ∧ k ≤ m → (sb k).value = (f (sb k).serial).value)
    (hi : i + 1 ≤ n) (hxa : xs[i]? = some a) (hk : Placed sb m a (klass (i + 1)))
    (hst : Stones n m i s) (h : Best xs (hashes m f) i s)
    (hrun : stonerow klass c m s (i + 1) = some t) : Best xs (hashes m f) (i + 1) t := by
  have htake : xs.take (i + 1) = xs.take i ++ [a] := by
    rw [take_add_one, hxa, Option.toList_some]
  have hzero : Thresholds (Tried (xs.take i) (hashes m f) a 0) s.k s.Y := by
    intro l y hl
    rw [tried_zero]
    exact h.thresholds l y hl
  unfold stonerow at hrun
  by_cases h0 : klass (i + 1) = 0
  · -- no line of the new file has the hash
    rw [if_pos h0] at hrun
    obtain rfl := some.inj hrun
    refine ⟨?_, h.chained⟩
    rw [htake]
    refine hzero.done fun p l _ hpa => ?_
    have hpm : p < m := by
      by_contra hge
      rw [hashes_none (not_lt.mp hge)] at hpa
      cases hpa
    obtain ⟨j, hj, hser⟩ := hs.each (p + 1) ⟨by omega, hpm⟩
    rw [hashes_getElem? hpm] at hpa
    refine absurd ?_ (hk.none h0 j hj.1 hj.2)
    rw [hv j hj, hser]
    exact some.inj hpa
  · rw [if_neg h0] at hrun
    rcases hk.index with hz | ⟨j, hjv, hj, hjm, hfirst⟩
    · exact absurd hz h0
    have hneg := (hc.first_iff hs hj hjm).mpr hfirst
    have hval := hk.some j hj hjv
    have hser := hs.serial j ⟨hj, hjm⟩
    have hya : (hashes m f)[(c j).natAbs - 1]? = some a := by
      rw [hc.natAbs hj hjm, hashes_getElem? (by omega), Nat.sub_add_cancel hser.1,
        ← hv j ⟨hj, hjm⟩, hval]
    have hmem := hc.members hs
    have hent := hc.entries hs hv
    have hpos := (hmem.entry j hj hjm).1
    rw [hjv, Int.toNat_natCast, show (-c j).toNat = (c j).natAbs by omega] at hrun
    have hup : Stones n m (i + 1) s :=
      { hst with done := fun l hl => (hst.done l hl).trans (Nat.le_succ i) }
    obtain ⟨d, hd⟩ := h.chained
    refine rowloop_best hmem hent hi hxa (m + 1) j _ 0 _ d s t hj hjm rfl hya
      ⟨hup, Nat.zero_le _, fun l _ hl => Nat.lt_succ_of_le (hst.done l hl), ?_, ?_, ?_⟩
      ⟨?_, fun l y hl => h.thresholds l y hl, fun y' _ => ?_, hd, Or.inl ?_⟩ hrun
    · exact hst.valid 0 (Nat.zero_le _)
    · rw [hst.first, hst.root]
      exact Nat.succ_pos i
    · rw [hst.Y_zero]
      exact hpos
    · refine hzero.skip (Nat.zero_le _) fun p l _ hp hpa => ?_
      exact absurd (hpa.trans hya.symm) (hent.first j hj hjm hneg p hp)
    · rw [hst.first, hst.root]
      exact ⟨fun _ => Common.zero _ _, fun _ => Nat.zero_le _⟩
    · rw [hd.depth 0 (Nat.zero_le _)]

/-- **`stone`** finds a longest common subsequence. -/
theorem stone_best {klass c : ℕ → ℤ} {g f sb : ℕ → line} (mem : heap) (hs : Sorted m sb)
    (hc : Listed m sb c) (hv : ∀ k, 1 ≤ k ∧ k ≤ m → (sb k).value = (f (sb k).serial).value)
    (hk : ∀ i, 1 ≤ i → i ≤ n → Placed sb m (g i).value (klass i)) :
    ∃ s, stone mem klass n c m = some s ∧ Stones n m n s ∧ Best (hashes n g) (hashes m f) n s := by
  refine stone_rows mem (P := fun i s => Stones n m i s ∧ Best (hashes n g) (hashes m f) i s)
    ⟨stones_start mem, ?_, fun _ => 0, ?_⟩ fun k s hkn hst => ?_
  · intro l y hl
    rw [take_zero]
    refine ⟨fun h => absurd h (not_common_nil hl), fun h => ?_⟩
    have : l ≤ 0 := h.1
    omega
  · refine ⟨fun q hq hqc => ?_, rfl, fun q hq hqc => ?_, fun l hl => (Nat.le_zero.mp hl).symm⟩
    · have : q < 0 + 1 := hqc
      omega
    · have : q < 0 + 1 := hqc
      omega
  · have hplaced := hk (k + 1) (by omega) hkn
    obtain ⟨t, ht, htt⟩ := stonerow_spec (hc.members hs) (hplaced.klass hc hs) hkn hst.1
    exact ⟨t, ht, htt, stonerow_best hs hc hv hkn (hashes_getElem? hkn) hplaced hst.1 hst.2 ht⟩

/-- The length that `stone` has found is the greatest. -/
theorem Best.isGreatest (h : Best xs ys n s) (hst : Stones n m n s) (hx : xs.length = n)
    (hy : ys.length = m) : IsGreatest {l | Common xs ys l} s.k := by
  have hth := h.thresholds
  rw [← hx, take_length] at hth
  refine hth.isGreatest fun l _ hlk => ?_
  rw [hy]
  by_cases h0 : s.c l = 0
  · unfold stones.Y
    rw [h0, hst.root]
    exact Nat.zero_le m
  · exact (hst.cand _ (Nat.pos_of_ne_zero h0) (hst.valid l hlk)).2.2.2.2

/-! ## unravel -/

variable {len0 len1 pref suff : ℕ} {file0 file1 : ℕ → line} {J J' : ℕ → ℕ}

/-- How many lines up to `n` have a mate. -/
def mates (J : ℕ → ℕ) (n : ℕ) : ℕ := ((Finset.Icc 1 n).filter fun i => J i ≠ 0).card

theorem mates_congr (h : ∀ i, 1 ≤ i → i ≤ n → J i = J' i) : mates J n = mates J' n := by
  unfold mates
  congr 1
  refine Finset.filter_congr fun i hi => ?_
  rw [Finset.mem_Icc] at hi
  rw [h i hi.1 hi.2]

theorem mates_update {v : ℕ} (hz : J i = 0) (hi : 1 ≤ i) (hin : i ≤ n) (hv : v ≠ 0) :
    mates (update J i v) n = mates J n + 1 := by
  unfold mates
  have hset : ((Finset.Icc 1 n).filter fun i' => update J i v i' ≠ 0) =
      insert i ((Finset.Icc 1 n).filter fun i' => J i' ≠ 0) := by
    ext i'
    rw [Finset.mem_insert, Finset.mem_filter, Finset.mem_filter, Finset.mem_Icc]
    by_cases heq : i' = i
    · subst heq
      rw [update_self]
      exact ⟨fun _ => Or.inl rfl, fun _ => ⟨⟨hi, hin⟩, hv⟩⟩
    · rw [update_of_ne heq]
      exact ⟨Or.inr, fun h => h.resolve_left heq⟩
  rw [hset, Finset.card_insert_of_notMem]
  rw [Finset.mem_filter]
  exact fun h => h.2 hz

/-- The common prefix and suffix have mates. -/
theorem mates_outer (hp : Pruned len0 len1 pref suff) :
    mates (outer len0 len1 pref suff) len0 = pref + suff := by
  have hold := hp.old
  have hnew := hp.new
  have hset : ((Finset.Icc 1 len0).filter fun i => outer len0 len1 pref suff i ≠ 0) =
      Finset.Icc 1 pref ∪ Finset.Ioc (len0 - suff) len0 := by
    ext i
    rw [Finset.mem_filter, Finset.mem_union, Finset.mem_Icc, Finset.mem_Icc, Finset.mem_Ioc]
    unfold outer
    split_ifs <;> omega
  unfold mates
  rw [hset, Finset.card_union_of_disjoint, Nat.card_Icc, Nat.card_Ioc]
  · omega
  · rw [Finset.disjoint_left]
    intro i hi hi'
    rw [Finset.mem_Icc] at hi
    rw [Finset.mem_Ioc] at hi'
    omega

/-- Lines that are matched have one hash. -/
def Equal (len0 : ℕ) (file0 file1 : ℕ → line) (J : ℕ → ℕ) : Prop :=
  ∀ i, 1 ≤ i → i ≤ len0 → J i ≠ 0 → (file0 i).value = (file1 (J i)).value

/-- The second loop of `unravel` matches the lines of the candidates of a chain. -/
theorem unravelloop_best (hp : Pruned len0 len1 pref suff)
    (hs : Cands (len0 - pref - suff) (len1 - pref - suff) s)
    (hd : Chained (hashes (len0 - pref - suff) fun k => file0 (pref + k))
      (hashes (len1 - pref - suff) fun k => file1 (pref + k)) d s) :
    ∀ (fuel q : ℕ) (J : ℕ → ℕ), q < s.clen →
      Chain len0 len1 pref suff (s.clist q).x (s.clist q).y J → Equal len0 file0 file1 J →
      unravelloop s pref fuel q J = some J' →
      Equal len0 file0 file1 J' ∧ mates J' len0 = mates J len0 + d q := by
  intro fuel
  induction fuel with
  | zero =>
    intro q J _ _ _ hrun
    cases hrun
  | succ fuel ih =>
    intro q J hqc h he hrun
    unfold unravelloop at hrun
    by_cases h0 : (s.clist q).y = 0
    · rw [if_pos h0] at hrun
      obtain rfl := some.inj hrun
      have hq : q = 0 := by
        by_contra hne
        have := (hs.cand q (Nat.pos_of_ne_zero hne) hqc).2.2.1
        omega
      rw [hq, hd.root]
      exact ⟨he, rfl⟩
    · rw [if_neg h0] at hrun
      have hq1 : 1 ≤ q := by
        by_contra hlt
        obtain rfl : q = 0 := by omega
        exact h0 (by rw [hs.root])
      obtain ⟨h1, h2, h3, h4, h5⟩ := hs.cand q hq1 hqc
      -- the line of the candidate has no mate yet
      have hz : J ((s.clist q).x + pref) = 0 := by
        rw [h.before _ (by omega) (by omega), outer, if_neg (by omega), if_neg (by omega)]
      have heq := hd.equal q hq1 hqc
      rw [hashes_getElem? (by omega), hashes_getElem? (by omega), Nat.sub_add_cancel (by omega),
        Nat.sub_add_cancel (by omega)] at heq
      have he' : Equal len0 file0 file1
          (update J ((s.clist q).x + pref) ((s.clist q).y + pref)) := by
        intro i hi hin hne
        by_cases hix : i = (s.clist q).x + pref
        · rw [hix, update_self, Nat.add_comm, Nat.add_comm _ pref]
          exact some.inj heq
        · rw [update_of_ne hix] at hne ⊢
          exact he i hi hin hne
      obtain ⟨hE, hM⟩ := ih _ _ (h1.trans hqc) (h.step hp h2 h3 h4 h5) he' hrun
      refine ⟨hE, ?_⟩
      rw [hM, mates_update hz (by omega) (by omega) (by omega), hd.pred q hq1 hqc]
      omega

/-! ## prune -/

theorem preloop_equal : ∀ (fuel pref : ℕ),
    (∀ k, 1 ≤ k → k ≤ pref → (file0 k).value = (file1 k).value) →
    ∀ k, 1 ≤ k → k ≤ preloop len0 len1 file0 file1 fuel pref →
      (file0 k).value = (file1 k).value := by
  intro fuel
  induction fuel with
  | zero => exact fun _ h => h
  | succ fuel ih =>
    intro pref h
    unfold preloop
    split_ifs with hc
    · refine ih (pref + 1) fun k hk hkp => ?_
      by_cases hkp' : k = pref + 1
      · rw [hkp']
        exact hc.2.2
      · exact h k hk (by omega)
    · exact h

theorem sufloop_equal : ∀ (fuel suff : ℕ),
    (∀ k, k < suff → (file0 (len0 - k)).value = (file1 (len1 - k)).value) →
    ∀ k, k < sufloop len0 len1 pref file0 file1 fuel suff →
      (file0 (len0 - k)).value = (file1 (len1 - k)).value := by
  intro fuel
  induction fuel with
  | zero => exact fun _ h => h
  | succ fuel ih =>
    intro suff h
    unfold sufloop
    split_ifs with hc
    · refine ih (suff + 1) fun k hk => ?_
      by_cases hks : k = suff
      · rw [hks]
        exact hc.2.2
      · exact h k (by omega)
    · exact h

/-- **`prune`** takes off what is common. -/
theorem prune_equal (len0 len1 : ℕ) (file0 file1 : ℕ → line) :
    (∀ k, 1 ≤ k → k ≤ (prune len0 len1 file0 file1).1 → (file0 k).value = (file1 k).value) ∧
      ∀ k, k < (prune len0 len1 file0 file1).2 →
        (file0 (len0 - k)).value = (file1 (len1 - k)).value :=
  ⟨preloop_equal _ 0 fun k hk hk0 => by omega, sufloop_equal _ 0 fun k hk => by omega⟩

/-- The first loop of `unravel` matches lines of one hash. -/
theorem equal_start (hp : Pruned len0 len1 pref suff)
    (hpre : ∀ k, 1 ≤ k → k ≤ pref → (file0 k).value = (file1 k).value)
    (hsuf : ∀ k, k < suff → (file0 (len0 - k)).value = (file1 (len1 - k)).value) (J : ℕ → ℕ) :
    Equal len0 file0 file1 (unravelinit len0 len1 pref suff J) := by
  intro i hi hin hne
  have hnew := hp.new
  rw [unravelinit_eq hin] at hne ⊢
  unfold outer at hne ⊢
  split_ifs at hne ⊢ with h1 h2
  · exact hpre i hi h1
  · have := hsuf (len0 - i) (by omega)
    rwa [show len0 - (len0 - i) = i by omega,
      show len1 - (len0 - i) = i + len1 - len0 by omega] at this
  · exact absurd rfl hne

/-- The hashes of a file, with the prefix and the suffix apart. -/
theorem hashes_split (file : ℕ → line) (h : pref + suff ≤ n) :
    hashes n file = hashes pref file ++ (hashes (n - pref - suff) fun k => file (pref + k)) ++
      hashes suff fun k => file (n - suff + k) := by
  conv_lhs => rw [show n = pref + (n - pref - suff) + suff by omega]
  rw [hashes_append, hashes_append, show pref + (n - pref - suff) = n - suff by omega]

/-! ## The match vector -/

/-- The passes of `diffreg` from `prune` to `unravel`. -/
def matchvector (mem : heap) (len0 len1 : ℕ) (file0 file1 : ℕ → line) : Option (ℕ → ℕ) := do
  let (pref, suff) := prune len0 len1 file0 file1
  let slen0 := len0 - pref - suff
  let slen1 := len1 - pref - suff
  let sfile0 := sort slen0 (serials slen0 fun k => file0 (pref + k))
  let sfile1 := sort slen1 (serials slen1 fun k => file1 (pref + k))
  let (a, member) ← equiv slen0 slen1 pref sfile0
    fun k => if pref ≤ k then sfile1 (k - pref) else file1 k
  let klass := unsort a slen0 mem.klass
  let s ← stone mem klass slen0 member slen1
  unravel s len0 len1 pref suff mem.Jvect (s.c s.k)

theorem diffreg_eq (mem : heap) (f0 f1 : List ℕ) :
    diffreg mem f0 f1 = (if f0 = f1 then some (.changes []) else
      if asciifile f0 = false ∨ asciifile f1 = false then some .binary else do
      let (len0, file0) ← prepare mem f0
      let (len1, file1) ← prepare mem f1
      let J ← matchvector mem len0 len1 file0 file1
      let (J, ixold, ixnew) := check mem len0 len1 J f0 f1
      let ranges ← output len0 len1 J
      some (.changes (ranges.filterMap (change ixold ixnew f0 f1)))) := by
  unfold diffreg matchvector
  simp only [Option.bind_eq_bind, Option.bind_assoc]

/-- **A longest match** of two sequences: mates go up, have one hash, and are as many as a common
subsequence can have entries. -/
structure Longest (xs ys : List ℤ) (J : ℕ → ℕ) : Prop where
  up : ∀ i i', 1 ≤ i → i < i' → i' ≤ xs.length → J i ≠ 0 → J i' ≠ 0 → J i < J i'
  equal : ∀ i, 1 ≤ i → i ≤ xs.length → J i ≠ 0 →
    ∃ h, xs[i - 1]? = some h ∧ ys[J i - 1]? = some h
  most : IsGreatest {l | ∃ w : List ℤ, w.length = l ∧ w.Sublist xs ∧ w.Sublist ys}
    (mates J xs.length)

/-- The passes end with a match vector of lines of one hash, and as many as can be. -/
theorem matchvector_spec (mem : heap) (len0 : ℕ) (file0 : ℕ → line)
    (hne : ∀ k, 1 ≤ k → k ≤ len1 → (file1 k).value ≠ 0) :
    ∃ J, matchvector mem len0 len1 file0 file1 = some J ∧ Matching len0 len1 J ∧
      Equal len0 file0 file1 J ∧
      IsGreatest {l | Common (hashes len0 file0) (hashes len1 file1) l} (mates J len0) := by
  have hp := prune_spec len0 len1 file0 file1
  obtain ⟨hpre, hsuf⟩ := prune_equal len0 len1 file0 file1
  unfold matchvector
  simp only
  generalize (prune len0 len1 file0 file1).1 = pref at hp hpre
  generalize (prune len0 len1 file0 file1).2 = suff at hp hsuf
  have hold := hp.old
  have hnew := hp.new
  have h0 := (sort_sorted (len0 - pref - suff) fun k => file0 (pref + k)).1
  have h1 := (sort_sorted (len1 - pref - suff) fun k => file1 (pref + k)).1
  have hv0 : ∀ i, 1 ≤ i ∧ i ≤ len0 - pref - suff → _ := fun i =>
    sort_value (len0 - pref - suff) (fun k => file0 (pref + k))
  have hv1 : ∀ i, 1 ≤ i ∧ i ≤ len1 - pref - suff → _ := fun i =>
    sort_value (len1 - pref - suff) (fun k => file1 (pref + k))
  generalize sort (len0 - pref - suff) _ = sfile0 at h0 hv0
  generalize sort (len1 - pref - suff) _ = sfile1 at h1 hv1
  have hb : (fun k => if pref ≤ pref + k then sfile1 (pref + k - pref) else file1 (pref + k)) =
      sfile1 := by
    funext k
    rw [if_pos (Nat.le_add_right pref k), Nat.add_sub_cancel_left]
  obtain ⟨a, member, hequiv, hlisted, hserial, hplaced⟩ := equiv_spec pref
    (fun k => if pref ≤ k then sfile1 (k - pref) else file1 k) h0 (by rw [hb]; exact h1)
    (fun k hk hkm => by
      rw [if_pos (Nat.le_add_right pref k), Nat.add_sub_cancel_left, hv1 k ⟨hk, hkm⟩]
      have := h1.serial k ⟨hk, hkm⟩
      exact hne _ (by omega) (by omega))
  rw [hb] at hlisted hplaced
  have hklass := unsort_spec (f := a)
    (P := fun i => Placed sfile1 (len1 - pref - suff) (file0 (pref + i)).value) mem.klass
    (fun s hs => by
      obtain ⟨i, hi, heq⟩ := h0.each s hs
      exact ⟨i, hi, by rw [hserial, heq]⟩)
    (fun k hk hkn => by
      rw [hserial, ← hv0 k ⟨hk, hkn⟩]
      exact hplaced k hk hkn)
  obtain ⟨s, hstone, hstones, hbest⟩ := stone_best (g := fun k => file0 (pref + k))
    (f := fun k => file1 (pref + k)) mem h1 hlisted hv1 hklass
  obtain ⟨J, hunravel, hJ⟩ := unravel_spec hp hstones mem.Jvect
  refine ⟨J, ?_, ?_⟩
  · rw [hequiv]
    simp only [Option.bind_eq_bind, Option.bind_some]
    rw [hstone, Option.bind_some, hunravel]
  obtain ⟨d, hd⟩ := hbest.chained
  obtain ⟨hE, hM⟩ := unravelloop_best hp hstones.toCands hd _ _ _ (hstones.valid s.k le_rfl)
    (unravel_start hp hstones mem.Jvect) (equal_start hp hpre hsuf mem.Jvect) hunravel
  rw [mates_congr (fun i _ hi => unravelinit_eq hi), mates_outer hp, hd.depth s.k le_rfl] at hM
  refine ⟨hJ, hE, ?_⟩
  have hend : (hashes suff fun k => file0 (len0 - suff + k)) =
      hashes suff fun k => file1 (len1 - suff + k) := by
    refine hashes_congr fun k hk hks => ?_
    have := hsuf (suff - k) (by omega)
    rwa [show len0 - (suff - k) = len0 - suff + k by omega,
      show len1 - (suff - k) = len1 - suff + k by omega] at this
  have hgreat := isGreatest_append (p := hashes pref file0)
    (s := hashes suff fun k => file0 (len0 - suff + k))
    (hbest.isGreatest hstones (hashes_length _ _) (hashes_length _ _))
  rw [← hashes_split file0 hold, hashes_congr hpre, hend, ← hashes_split file1 hnew, hashes_length,
    hashes_length] at hgreat
  rw [hM, show pref + suff + s.k = pref + s.k + suff by omega]
  exact hgreat

/-- **The passes compute a longest common subsequence** of the hashes of two files. -/
theorem matchvector_longest (mem : heap) (len0 len1 : ℕ) (file0 file1 : ℕ → line)
    (hne : ∀ k, 1 ≤ k → k ≤ len1 → (file1 k).value ≠ 0) :
    ∃ J, matchvector mem len0 len1 file0 file1 = some J ∧
      Longest (hashes len0 file0) (hashes len1 file1) J := by
  obtain ⟨J, hrun, hJ, hE, hmost⟩ := matchvector_spec mem len0 file0 hne
  refine ⟨J, hrun, fun i i' hi hii hi' hne hne' => ?_, fun i hi hin hne => ?_, ?_⟩
  · rw [hashes_length] at hi'
    exact hJ.up i i' hi hii hi' hne hne'
  · rw [hashes_length] at hin
    have hle := hJ.le i hi hin
    refine ⟨_, hashes_getElem? (by omega), ?_⟩
    rw [hashes_getElem? (by omega), Nat.sub_add_cancel (by omega), Nat.sub_add_cancel hi,
      hE i hi hin hne]
  · rw [hashes_length]
    exact hmost

/-- A file whose hash of line `k` is `k + h`. -/
def counting (h : ℤ) (k : ℕ) : line := ⟨0, k + h⟩

theorem matchvector_longest_counting : ∃ J,
    matchvector ⟨counting 0, fun _ => 0, fun _ => 0, fun _ => ⟨0, 0, 0⟩, fun _ => 0, fun _ => 0,
      fun _ => 0⟩ 3 4 (counting 2) (counting 1) = some J ∧
      Longest (hashes 3 (counting 2)) (hashes 4 (counting 1)) J :=
  matchvector_longest _ 3 4 (counting 2) (counting 1) fun k hk _ => by
    show (k : ℤ) + 1 ≠ 0
    omega

end Diff
