/-
# Candidates

`stone` keeps for each length the candidate with the smallest line of the new file.  In one
row the members of a class come with their lines going up, so that no candidate made in the
row becomes the predecessor of another.
-/
import SunOS.Diff.Members

namespace Diff

variable {n m i j k l y oldl oldc : ℕ} {s t : stones} {b : ℕ → ℤ}

/-! ## The state -/

/-- The line of the old file of the candidate in `c[l]`. -/
def stones.X (s : stones) (l : ℕ) : ℕ := (s.clist (s.c l)).x

/-- Its line of the new file. -/
def stones.Y (s : stones) (l : ℕ) : ℕ := (s.clist (s.c l)).y

/-- **Candidates** are chained to earlier ones, with both lines before their own. -/
structure Cands (n m : ℕ) (s : stones) : Prop where
  root : s.clist 0 = ⟨0, 0, 0⟩
  len : 1 ≤ s.clen
  cand : ∀ q, 1 ≤ q → q < s.clen → (s.clist q).pred < q ∧
    (s.clist (s.clist q).pred).x < (s.clist q).x ∧ (s.clist (s.clist q).pred).y < (s.clist q).y ∧
    (s.clist q).x ≤ n ∧ (s.clist q).y ≤ m

/-- The state with all rows up to `i` done. -/
structure Stones (n m i : ℕ) (s : stones) : Prop extends Cands n m s where
  first : s.c 0 = 0
  valid : ∀ l, l ≤ s.k → s.c l < s.clen
  up : ∀ l, l < s.k → s.Y l < s.Y (l + 1)
  done : ∀ l, l ≤ s.k → s.X l ≤ i

theorem Stones.Y_lt (h : Stones n m i s) {l' : ℕ} (hl : l < l') (hk : l' ≤ s.k) :
    s.Y l < s.Y l' := by
  induction l' with
  | zero => omega
  | succ l' ih =>
    have hstep := h.up l' (by omega)
    rcases Nat.lt_or_ge l l' with hlt | hge
    · exact (ih hlt (by omega)).trans hstep
    · obtain rfl : l = l' := by omega
      exact hstep

theorem Stones.Y_le (h : Stones n m i s) {l' : ℕ} (hl : l ≤ l') (hk : l' ≤ s.k) :
    s.Y l ≤ s.Y l' := by
  rcases Nat.lt_or_ge l l' with hlt | hge
  · exact (h.Y_lt hlt hk).le
  · obtain rfl : l = l' := by omega
    exact le_rfl

theorem Stones.Y_zero (h : Stones n m i s) : s.Y 0 = 0 := by
  unfold stones.Y
  rw [h.first, h.root]

/-! ## search -/

/-- Where a line goes: the candidates before are lower, the one there is not. -/
structure Place (s : stones) (y l : ℕ) : Prop where
  pos : 1 ≤ l
  le : l ≤ s.k + 1
  above : s.Y (l - 1) < y
  below : l ≤ s.k → y ≤ s.Y l

theorem searchloop_spec (h : Stones n m i s) :
    ∀ (fuel i j : ℕ), i < j → j ≤ s.k + 1 → j - i ≤ fuel → s.Y i < y → (j ≤ s.k → y < s.Y j) →
      ∃ l, searchloop s y fuel i j = some l ∧ Place s y l := by
  intro fuel
  induction fuel with
  | zero =>
    intro i j hij _ hf
    lia
  | succ fuel ih =>
    intro i j hij hj hf hi hyj
    unfold searchloop
    by_cases hle : (i + j) / 2 ≤ i
    · rw [if_pos hle]
      obtain rfl : j = i + 1 := by lia
      have hl : (i + (i + 1)) / 2 = i := by lia
      rw [hl]
      exact ⟨_, rfl, by lia, hj, hi, fun hjk => (hyj hjk).le⟩
    · rw [if_neg hle]
      by_cases hlt : y < (s.clist (s.c ((i + j) / 2))).y
      · rw [if_pos hlt]
        exact ih i _ (by lia) (by lia) (by lia) hi fun _ => hlt
      · rw [if_neg hlt]
        by_cases hgt : (s.clist (s.c ((i + j) / 2))).y < y
        · rw [if_pos hgt]
          exact ih _ j (by lia) hj (by lia) hgt hyj
        · rw [if_neg hgt]
          have heq : s.Y ((i + j) / 2) = y := by
            unfold stones.Y
            lia
          refine ⟨_, rfl, by lia, by lia, ?_, fun _ => heq.ge⟩
          rw [← heq]
          exact h.Y_lt (by lia) (by lia)

/-- The place that a row finds for a line. -/
theorem look_spec (h : Stones n m i s) (hy : 1 ≤ y) : ∃ l, look s y = some l ∧ Place s y l := by
  unfold look
  by_cases hlt : (s.clist (s.c s.k)).y < y
  · rw [if_pos hlt]
    exact ⟨_, rfl, by omega, le_rfl, hlt, fun hl => by omega⟩
  · rw [if_neg hlt]
    have h0 := h.Y_zero
    exact searchloop_spec h _ 0 _ (by omega) le_rfl (by omega) (by omega)
      fun hl => by omega

/-! ## A row -/

/-- In row `i`, before a line `y` is looked at: the candidates after `oldl` are of earlier
rows, and so is `oldc`. -/
structure Row (n m i y oldl oldc : ℕ) (s : stones) : Prop extends Stones n m i s where
  oldl_le : oldl ≤ s.k
  later : ∀ l, oldl < l → l ≤ s.k → s.X l < i
  oldc_lt : oldc < s.clen
  oldc_x : (s.clist oldc).x < i
  below : s.Y oldl < y

theorem Row.mono {y' : ℕ} (h : Row n m i y oldl oldc s) (hy : y ≤ y') :
    Row n m i y' oldl oldc s :=
  { h with below := h.below.trans_le hy }

/-- A new candidate does not touch the old ones. -/
theorem newcand_old {x pred q : ℕ} (hq : q < s.clen) :
    (newcand s l x y pred).clist q = s.clist q :=
  Function.update_of_ne hq.ne _ _

theorem newcand_new {x pred : ℕ} : (newcand s l x y pred).clist s.clen = ⟨x, y, pred⟩ :=
  Function.update_self ..

theorem newcand_c {x pred l' : ℕ} (hl : l' ≠ l) : (newcand s l x y pred).c l' = s.c l' :=
  Function.update_of_ne hl _ _

theorem newcand_c_self {x pred : ℕ} : (newcand s l x y pred).c l = s.clen :=
  Function.update_self ..

/-- Candidates in other places stay. -/
theorem newcand_other {x pred l' : ℕ} (hl : l' ≠ l) (hv : s.c l' < s.clen) :
    (newcand s l x y pred).X l' = s.X l' ∧ (newcand s l x y pred).Y l' = s.Y l' := by
  unfold stones.X stones.Y
  rw [newcand_c hl, newcand_old hv]
  exact ⟨rfl, rfl⟩

theorem newcand_self {x pred : ℕ} :
    (newcand s l x y pred).X l = x ∧ (newcand s l x y pred).Y l = y := by
  unfold stones.X stones.Y
  rw [newcand_c_self, newcand_new]
  exact ⟨rfl, rfl⟩

/-- **A new candidate** in its place, up to `k'`. -/
theorem newcand_stones {k' : ℕ} (h : Stones n m i s) (hpl : Place s y l) (hi : i ≤ n) (hy : y ≤ m)
    (hnew : l ≤ s.k → y < s.Y l) (hc : oldc < s.clen) (hcx : (s.clist oldc).x < i)
    (hcy : (s.clist oldc).y < y) (hk' : k' = max s.k l) :
    Stones n m i { newcand s l i y oldc with k := k' } := by
  have hpos := hpl.pos
  have hle := hpl.le
  refine ⟨⟨?_, Nat.le_add_left 1 _, fun q hq hqc => ?_⟩, ?_, fun l' hl' => ?_, fun l' hl' => ?_,
    fun l' hl' => ?_⟩
  · show (newcand s l i y oldc).clist 0 = _
    rw [newcand_old h.len]
    exact h.root
  · show ((newcand s l i y oldc).clist q).pred < q ∧ _
    by_cases hqn : q = s.clen
    · subst hqn
      simp only [newcand_new]
      rw [newcand_old hc]
      exact ⟨hc, hcx, hcy, hi, hy⟩
    · have hqc' : q < s.clen := by
        have : q < s.clen + 1 := hqc
        lia
      obtain ⟨h1, h2, h3, h4, h5⟩ := h.cand q hq hqc'
      simp only [newcand_old hqc', newcand_old (show (s.clist q).pred < s.clen by lia)]
      exact ⟨h1, h2, h3, h4, h5⟩
  · show (newcand s l i y oldc).c 0 = 0
    rw [newcand_c (by lia)]
    exact h.first
  · show (newcand s l i y oldc).c l' < s.clen + 1
    by_cases hll : l' = l
    · rw [hll, newcand_c_self]
      lia
    · rw [newcand_c hll]
      exact (h.valid l' (by lia)).trans (Nat.lt_succ_self _)
  · show (newcand s l i y oldc).Y l' < (newcand s l i y oldc).Y (l' + 1)
    by_cases hll : l' = l
    · subst hll
      rw [newcand_self.2, (newcand_other (by lia) (h.valid (l' + 1) (by lia))).2]
      exact (hnew (by lia)).trans (h.up l' (by lia))
    · rw [(newcand_other hll (h.valid l' (by lia))).2]
      by_cases hll' : l' + 1 = l
      · rw [hll', newcand_self.2]
        have := hpl.above
        rwa [← hll', Nat.add_sub_cancel] at this
      · rw [(newcand_other hll' (h.valid (l' + 1) (by lia))).2]
        exact h.up l' (by lia)
  · show (newcand s l i y oldc).X l' ≤ i
    by_cases hll : l' = l
    · rw [hll, newcand_self.1]
    · rw [(newcand_other hll (h.valid l' (by lia))).1]
      exact h.done l' (by lia)

/-- The candidate that becomes the predecessor of one at `l`. -/
def Pred (s : stones) (oldl oldc l c : ℕ) : Prop :=
  (l ≠ oldl + 1 ∧ c = s.c (l - 1)) ∨ (l = oldl + 1 ∧ c = oldc)

/-- It is of an earlier row, and lower. -/
theorem Row.pred {c : ℕ} (h : Row n m i y oldl oldc s) (hpl : Place s y l) (hl : oldl + 1 ≤ l)
    (hold : (s.clist oldc).y < y) (hc : Pred s oldl oldc l c) :
    c < s.clen ∧ (s.clist c).x < i ∧ (s.clist c).y < y := by
  have hle := hpl.le
  rcases hc with ⟨hne, rfl⟩ | ⟨-, rfl⟩
  · exact ⟨h.valid (l - 1) (by lia), h.later (l - 1) (by lia) (by lia), hpl.above⟩
  · exact ⟨h.oldc_lt, h.oldc_x, hold⟩

/-- **What a round of the row does** with line `y`: nothing, as it is not below the candidate that
was replaced last; or it finds the place `l`, where it changes nothing, replaces a candidate or adds
one. -/
theorem rowloop_cases (h : Row n m i y oldl oldc s) (hy : 1 ≤ y) (fuel j : ℕ) :
    let next := fun oldl oldc s =>
      if 0 < b (j + 1) then rowloop b i fuel (j + 1) (b (j + 1)).toNat oldl oldc s else some s
    (y ≤ (s.clist oldc).y ∧ rowloop b i (fuel + 1) j y oldl oldc s = next oldl oldc s) ∨
      ∃ l c, Place s y l ∧ oldl + 1 ≤ l ∧ (s.clist oldc).y < y ∧ Pred s oldl oldc l c ∧
        ((l ≤ s.k ∧ s.Y l ≤ y ∧ rowloop b i (fuel + 1) j y oldl oldc s = next oldl c s) ∨
          (l ≤ s.k ∧ y < s.Y l ∧ rowloop b i (fuel + 1) j y oldl oldc s =
            next l (s.c l) (newcand s l i y c)) ∨
          (l = s.k + 1 ∧ rowloop b i (fuel + 1) j y oldl oldc s =
            some { newcand s l i y c with k := s.k + 1 })) := by
  intro next
  unfold rowloop
  by_cases hskip : y ≤ (s.clist oldc).y
  · rw [if_pos hskip]
    exact Or.inl ⟨hskip, rfl⟩
  · rw [if_neg hskip]
    right
    obtain ⟨l, hl, hpl⟩ := look_spec h.toStones hy
    simp only [hl, Option.bind_eq_bind, Option.bind_some]
    have hle := hpl.le
    -- the place is after the last candidate of this row
    have holdl : oldl + 1 ≤ l := by
      by_contra hlt
      have h1 := hpl.below (by have := h.oldl_le; lia)
      have h2 := h.Y_le (show l ≤ oldl by lia) h.oldl_le
      have h3 := h.below
      lia
    refine ⟨l, if l ≠ oldl + 1 then s.c (l - 1) else oldc, hpl, holdl, not_le.mp hskip, ?_, ?_⟩
    · unfold Pred
      by_cases hne : l ≠ oldl + 1
      · exact Or.inl ⟨hne, if_pos hne⟩
      · exact Or.inr ⟨not_not.mp hne, if_neg hne⟩
    · by_cases hlk : l ≤ s.k
      · rw [if_pos hlk]
        by_cases hyl : (s.clist (s.c l)).y ≤ y
        · rw [if_pos hyl]
          exact Or.inl ⟨hlk, hyl, rfl⟩
        · rw [if_neg hyl]
          exact Or.inr (Or.inl ⟨hlk, not_le.mp hyl, rfl⟩)
      · rw [if_neg hlk]
        exact Or.inr (Or.inr ⟨by lia, rfl⟩)

/-- A line that has a candidate already. -/
theorem Row.same {c : ℕ} (h : Row n m i y oldl oldc s) (hpl : Place s y l) (hl : oldl + 1 ≤ l)
    (hold : (s.clist oldc).y < y) (hc : Pred s oldl oldc l c) :
    Row n m i (y + 1) oldl c s := by
  obtain ⟨hcl, hcx, -⟩ := h.pred hpl hl hold hc
  exact ⟨h.toStones, h.oldl_le, h.later, hcl, hcx, h.below.trans (Nat.lt_succ_self y)⟩

/-- A candidate is replaced. -/
theorem Row.replace {c : ℕ} (h : Row n m i y oldl oldc s) (hpl : Place s y l) (hl : oldl + 1 ≤ l)
    (hold : (s.clist oldc).y < y) (hc : Pred s oldl oldc l c) (hi : i ≤ n) (hy : y ≤ m)
    (hlk : l ≤ s.k) (hyl : y < s.Y l) :
    Row n m i (y + 1) l (s.c l) (newcand s l i y c) := by
  obtain ⟨hcl, hcx, hcy⟩ := h.pred hpl hl hold hc
  have hst := newcand_stones h.toStones hpl hi hy (fun _ => hyl) hcl hcx hcy (max_eq_left hlk).symm
  refine ⟨hst, hlk, fun l' hl' hlk' => ?_, ?_, ?_, ?_⟩
  · have hlk'' : l' ≤ s.k := hlk'
    rw [(newcand_other (by lia) (h.valid l' hlk'')).1]
    exact h.later l' (by lia) hlk''
  · exact (h.valid l hlk).trans (Nat.lt_succ_self _)
  · rw [newcand_old (h.valid l hlk)]
    exact h.later l (by lia) hlk
  · rw [newcand_self.2]
    exact Nat.lt_succ_self y

/-- A candidate is added. -/
theorem Row.extend {c : ℕ} (h : Row n m i y oldl oldc s) (hpl : Place s y l) (hl : oldl + 1 ≤ l)
    (hold : (s.clist oldc).y < y) (hc : Pred s oldl oldc l c) (hi : i ≤ n) (hy : y ≤ m)
    (hlk : l = s.k + 1) : Stones n m i { newcand s l i y c with k := s.k + 1 } := by
  obtain ⟨hcl, hcx, hcy⟩ := h.pred hpl hl hold hc
  exact newcand_stones h.toStones hpl hi hy (fun hle' => by lia) hcl hcx hcy (by lia)

/-- The next member of the class, when there is one. -/
theorem Members.next (hb : Members m b) (hj : 1 ≤ j) (hjm : j ≤ m) (hpos : 0 < b (j + 1)) :
    j + 1 ≤ m ∧ (b (j + 1)).toNat = (b (j + 1)).natAbs ∧ (b j).natAbs < (b (j + 1)).natAbs := by
  refine ⟨?_, by omega, hb.up j hj hjm hpos⟩
  by_contra hgt
  obtain rfl : j = m := by omega
  have := hb.stop
  omega

/-- **A row** keeps the state. -/
theorem rowloop_spec (hb : Members m b) (hi : i ≤ n) :
    ∀ (fuel j y oldl oldc : ℕ) (s : stones), 1 ≤ j → j ≤ m → y = (b j).natAbs →
      m + 1 - j ≤ fuel → Row n m i y oldl oldc s →
      ∃ t, rowloop b i fuel j y oldl oldc s = some t ∧ Stones n m i t := by
  intro fuel
  induction fuel with
  | zero =>
    intro j y oldl oldc s hj hjm _ hf
    lia
  | succ fuel ih =>
    intro j y oldl oldc s hj hjm hy hf h
    have hym := hb.entry j hj hjm
    rw [← hy] at hym
    -- the next member of the class
    have hnext : ∀ (oldl oldc : ℕ) (s : stones), Row n m i (y + 1) oldl oldc s →
        ∃ t, (if 0 < b (j + 1) then rowloop b i fuel (j + 1) (b (j + 1)).toNat oldl oldc s
          else some s) = some t ∧ Stones n m i t := by
      intro oldl oldc s h
      by_cases hpos : 0 < b (j + 1)
      · rw [if_pos hpos]
        obtain ⟨hjm', hnat, hup⟩ := hb.next hj hjm hpos
        rw [hnat]
        exact ih (j + 1) _ oldl oldc s (by lia) hjm' rfl (by lia) (h.mono (by lia))
      · rw [if_neg hpos]
        exact ⟨s, rfl, h.toStones⟩
    rcases rowloop_cases (b := b) h hym.1 fuel j with ⟨-, hrun⟩ |
      ⟨l, c, hpl, hl, hold, hc, ⟨-, -, hrun⟩ | ⟨hlk, hyl, hrun⟩ | ⟨hlk, hrun⟩⟩
    · rw [hrun]
      exact hnext oldl oldc s (h.mono (Nat.le_succ y))
    · rw [hrun]
      exact hnext oldl c s (h.same hpl hl hold hc)
    · rw [hrun]
      exact hnext l (s.c l) _ (h.replace hpl hl hold hc hi hym.2 hlk hyl)
    · rw [hrun]
      exact ⟨_, rfl, h.extend hpl hl hold hc hi hym.2 hlk⟩

/-! ## stone -/

/-- A round of `stone`. -/
theorem stonerow_spec {a : ℕ → ℤ} (hb : Members m b) (ha : Class m b (a (i + 1))) (hi : i + 1 ≤ n)
    (h : Stones n m i s) : ∃ t, stonerow a b m s (i + 1) = some t ∧ Stones n m (i + 1) t := by
  have hup : Stones n m (i + 1) s :=
    { h with done := fun l hl => (h.done l hl).trans (Nat.le_succ i) }
  unfold stonerow
  rcases ha with h0 | ⟨j, hj, hj1, hjm, hneg⟩
  · rw [if_pos h0]
    exact ⟨s, rfl, hup⟩
  · rw [hj, if_neg (by omega), Int.toNat_natCast]
    have hy : (-b j).toNat = (b j).natAbs := by omega
    rw [hy]
    refine rowloop_spec hb hi (m + 1) j _ 0 _ s hj1 hjm rfl (by omega)
      ⟨hup, Nat.zero_le _, fun l _ hl => Nat.lt_succ_of_le (h.done l hl), ?_, ?_, ?_⟩
    · exact h.valid 0 (Nat.zero_le _)
    · rw [h.first, h.root]
      exact Nat.succ_pos i
    · rw [h.Y_zero]
      exact (hb.entry j hj1 hjm).1

/-- The state before the first row. -/
theorem stones_start (mem : heap) :
    Stones n m 0 (newcand ⟨mem.clist, 0, mem.klist, 0⟩ 0 0 0 0) := by
  refine ⟨⟨newcand_new, le_rfl, fun q hq hqc => ?_⟩, newcand_c_self, fun l hl => ?_,
    fun l hl => ?_, fun l hl => ?_⟩
  · have : q < 0 + 1 := hqc
    omega
  · obtain rfl : l = 0 := Nat.le_zero.mp hl
    rw [newcand_c_self]
    exact Nat.zero_lt_one
  · exact absurd hl (Nat.not_lt_zero l)
  · obtain rfl : l = 0 := Nat.le_zero.mp hl
    rw [newcand_self.1]

/-- What every row keeps holds after `stone`. -/
theorem stone_rows {a : ℕ → ℤ} (mem : heap) {P : ℕ → stones → Prop}
    (h0 : P 0 (newcand ⟨mem.clist, 0, mem.klist, 0⟩ 0 0 0 0))
    (hstep : ∀ k s, k < n → P k s → ∃ t, stonerow a b m s (k + 1) = some t ∧ P (k + 1) t) :
    ∃ s, stone mem a n b m = some s ∧ P n s := by
  have hrows : ∀ k, k ≤ n → ∃ s, ((List.range k).map (· + 1)).foldlM (stonerow a b m)
      (newcand ⟨mem.clist, 0, mem.klist, 0⟩ 0 0 0 0) = some s ∧ P k s := by
    intro k
    induction k with
    | zero => exact fun _ => ⟨_, rfl, h0⟩
    | succ k ih =>
      intro hk
      obtain ⟨s, hs, hst⟩ := ih (by omega)
      obtain ⟨t, ht, htt⟩ := hstep k s hk hst
      refine ⟨t, ?_, htt⟩
      rw [List.range_succ, List.map_append, List.foldlM_append, hs]
      show (stonerow a b m s (k + 1) >>= fun s => some s) = some t
      rw [ht]
      rfl
  exact hrows n le_rfl

end Diff
