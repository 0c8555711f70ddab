/-
# Maps by ranges

A map from the points of a line to modes is kept as a list of segments, each with one mode.  A range
is cleared by cutting what sticks into it, and set by putting a new segment there, which joins the
neighbours it touches when they have its mode.
-/
import Mathlib.Order.MinMax
import Mathlib.Data.List.Basic
import Mathlib.Tactic.SplitIfs

/-- The points from `lo` to before `hi`, with their mode. -/
structure Seg (κ μ : Type*) where
  lo : κ
  hi : κ
  mode : μ
  deriving DecidableEq, Repr

namespace RangeMap

open Option (some.inj)
open List

variable {κ μ : Type*} [LinearOrder κ] {l m : List (Seg κ μ)} {e x y : Seg κ μ} {a b u : κ}

def covers (u : κ) (e : Seg κ μ) : Bool := e.lo ≤ u ∧ u < e.hi

/-- The mode of a point. -/
def modeAt (l : List (Seg κ μ)) (u : κ) : Option μ := (l.find? (covers u)).map Seg.mode

/-- Segments in order, which do not touch when they have the same mode. -/
def Apart (x y : Seg κ μ) : Prop := x.hi < y.lo ∨ x.hi = y.lo ∧ x.mode ≠ y.mode

/-- **A list in its shortest form**: no segment is empty, and all are in order and apart. -/
structure Canonical (l : List (Seg κ μ)) : Prop where
  pos : ∀ e ∈ l, e.lo < e.hi
  apart : l.Pairwise Apart

/-- What lies before `a`. -/
def below (a : κ) (l : List (Seg κ μ)) : List (Seg κ μ) :=
  l.filterMap fun e => if e.lo < a then some { e with hi := min e.hi a } else none

/-- What lies from `b` on. -/
def above (b : κ) (l : List (Seg κ μ)) : List (Seg κ μ) :=
  l.filterMap fun e => if b < e.hi then some { e with lo := max e.lo b } else none

/-- `e` joins the last segment before it. -/
def joinLeft [DecidableEq μ] (l : List (Seg κ μ)) (e : Seg κ μ) : List (Seg κ μ) × Seg κ μ :=
  match l.getLast? with
  | some x =>
    if x.hi = e.lo ∧ x.mode = e.mode then (l.dropLast, { e with lo := x.lo }) else (l, e)
  | none => (l, e)

/-- `e` joins the first segment after it. -/
def joinRight [DecidableEq μ] (e : Seg κ μ) : List (Seg κ μ) → Seg κ μ × List (Seg κ μ)
  | x :: l => if x.lo = e.hi ∧ x.mode = e.mode then ({ e with hi := x.hi }, l) else (e, x :: l)
  | [] => (e, [])

/-- The range of `e` gets its mode. -/
def put [DecidableEq μ] (l : List (Seg κ μ)) (e : Seg κ μ) : List (Seg κ μ) :=
  let j := joinLeft (below e.lo l) e
  let k := joinRight j.2 (above e.hi l)
  j.1 ++ k.1 :: k.2

/-! ## Modes -/

@[simp] theorem modeAt_nil : modeAt ([] : List (Seg κ μ)) u = none := rfl

theorem modeAt_cons : modeAt (e :: l) u = if covers u e then some e.mode else modeAt l u := by
  rw [modeAt, modeAt]
  split_ifs with h
  · rw [List.find?_cons_of_pos h]
    rfl
  · rw [List.find?_cons_of_neg h]

theorem modeAt_append : modeAt (l ++ m) u = (modeAt l u).or (modeAt m u) := by
  rw [modeAt, modeAt, modeAt, List.find?_append]
  cases l.find? (covers u) <;> rfl

theorem modeAt_below : modeAt (below a l) u = if u < a then modeAt l u else none := by
  induction l with
  | nil => simp [below]
  | cons e l ih =>
    rw [below, filterMap_cons, modeAt_cons]
    by_cases he : e.lo < a
    · rw [if_pos he]
      show modeAt (_ :: below a l) u = _
      rw [modeAt_cons, ih]
      by_cases hu : u < a
      · have hc : covers u { e with hi := min e.hi a } = covers u e := by
          simp [covers, hu]
        rw [hc, if_pos hu, if_pos hu]
      · have hc : covers u { e with hi := min e.hi a } = false := by
          simp only [covers, lt_min_iff, decide_eq_false_iff_not]
          exact fun h => hu h.2.2
        rw [hc, if_neg hu, if_neg hu]
        rfl
    · rw [if_neg he]
      show modeAt (below a l) u = _
      rw [ih]
      by_cases hu : u < a
      · have hc : covers u e = false := by
          simp only [covers, decide_eq_false_iff_not]
          exact fun h => he (lt_of_le_of_lt h.1 hu)
        rw [hc, if_pos hu, if_pos hu]
        rfl
      · rw [if_neg hu, if_neg hu]

theorem modeAt_above : modeAt (above b l) u = if b ≤ u then modeAt l u else none := by
  induction l with
  | nil => simp [above]
  | cons e l ih =>
    rw [above, filterMap_cons, modeAt_cons]
    by_cases he : b < e.hi
    · rw [if_pos he]
      show modeAt (_ :: above b l) u = _
      rw [modeAt_cons, ih]
      by_cases hu : b ≤ u
      · have hc : covers u { e with lo := max e.lo b } = covers u e := by
          simp [covers, hu]
        rw [hc, if_pos hu, if_pos hu]
      · have hc : covers u { e with lo := max e.lo b } = false := by
          simp only [covers, max_le_iff, decide_eq_false_iff_not]
          exact fun h => hu h.1.2
        rw [hc, if_neg hu, if_neg hu]
        rfl
    · rw [if_neg he]
      show modeAt (above b l) u = _
      rw [ih]
      by_cases hu : b ≤ u
      · have hc : covers u e = false := by
          simp only [covers, decide_eq_false_iff_not]
          exact fun h => he (lt_of_le_of_lt hu h.2)
        rw [hc, if_pos hu, if_pos hu]
        rfl
      · rw [if_neg hu, if_neg hu]

theorem below_append : below a (l ++ m) = below a l ++ below a m := filterMap_append

theorem above_append : above b (l ++ m) = above b l ++ above b m := filterMap_append

/-- Nothing starts before `a`. -/
theorem below_eq_nil (h : ∀ e ∈ l, a ≤ e.lo) : below a l = [] :=
  List.filterMap_eq_nil_iff.mpr fun e he => if_neg (not_lt.mpr (h e he))

/-- Everything starts from `b` on. -/
theorem above_eq_self (h : ∀ e ∈ l, b ≤ e.lo ∧ b < e.hi) : above b l = l := by
  induction l with
  | nil => rfl
  | cons e l ih =>
    obtain ⟨hlo, hhi⟩ := h e mem_cons_self
    have hl := ih fun x hx => h x (mem_cons_of_mem _ hx)
    rw [above, filterMap_cons, if_pos hhi, max_eq_left hlo]
    exact congrArg (e :: ·) hl

/-- Everything ends up to `a`. -/
theorem below_eq_self (h : ∀ e ∈ l, e.lo < a ∧ e.hi ≤ a) : below a l = l := by
  induction l with
  | nil => rfl
  | cons e l ih =>
    obtain ⟨hlo, hhi⟩ := h e mem_cons_self
    have hl := ih fun x hx => h x (mem_cons_of_mem _ hx)
    rw [below, filterMap_cons, if_pos hlo, min_eq_left hhi]
    exact congrArg (e :: ·) hl

theorem above_eq_nil (h : ∀ e ∈ l, e.hi ≤ b) : above b l = [] :=
  List.filterMap_eq_nil_iff.mpr fun e he => if_neg (not_lt.mpr (h e he))

/-- **A range is cleared.** -/
theorem modeAt_clear (hab : a < b) :
    modeAt (below a l ++ above b l) u = if a ≤ u ∧ u < b then none else modeAt l u := by
  rw [modeAt_append, modeAt_below, modeAt_above]
  by_cases h1 : u < a
  · have h2 : ¬ b ≤ u := not_le.mpr (h1.trans hab)
    rw [if_pos h1, if_neg h2, if_neg fun h => not_lt.mpr h.1 h1, Option.or_none]
  · rw [if_neg h1, Option.none_or]
    by_cases h2 : b ≤ u
    · rw [if_pos h2, if_neg fun h => not_lt.mpr h2 h.2]
    · rw [if_neg h2, if_pos ⟨not_lt.mp h1, not_le.mp h2⟩]

/-! ## The shortest form -/

theorem Canonical.nil : Canonical ([] : List (Seg κ μ)) := ⟨by simp, .nil⟩

theorem Apart.le (h : Apart x y) : x.hi ≤ y.lo := h.elim le_of_lt fun h => le_of_eq h.1

theorem Canonical.below (h : Canonical l) (a : κ) : Canonical (below a l) := by
  constructor
  · intro e he
    obtain ⟨x, hx, hxe⟩ := List.mem_filterMap.mp he
    split_ifs at hxe with hlt
    obtain rfl := some.inj hxe
    exact lt_min (h.pos x hx) hlt
  · refine h.apart.filterMap _ fun x y hxy x' hx' y' hy' => ?_
    split_ifs at hx' hy' with h1 h2
    obtain rfl := some.inj hx'
    obtain rfl := some.inj hy'
    have hxa : x.hi ≤ a := hxy.le.trans (le_of_lt h2)
    show min x.hi a < y.lo ∨ min x.hi a = y.lo ∧ _
    rw [min_eq_left hxa]
    exact hxy

theorem Canonical.above (h : Canonical l) (b : κ) : Canonical (above b l) := by
  constructor
  · intro e he
    obtain ⟨x, hx, hxe⟩ := List.mem_filterMap.mp he
    split_ifs at hxe with hlt
    obtain rfl := some.inj hxe
    exact max_lt (h.pos x hx) hlt
  · refine h.apart.filterMap _ fun x y hxy x' hx' y' hy' => ?_
    split_ifs at hx' hy' with h1 h2
    obtain rfl := some.inj hx'
    obtain rfl := some.inj hy'
    have hyb : b ≤ y.lo := (le_of_lt h1).trans hxy.le
    show x.hi < max y.lo b ∨ x.hi = max y.lo b ∧ _
    rw [max_eq_left hyb]
    exact hxy

theorem hi_le_of_mem_below (he : e ∈ RangeMap.below a l) : e.hi ≤ a := by
  obtain ⟨x, hx, hxe⟩ := List.mem_filterMap.mp he
  split_ifs at hxe
  obtain rfl := some.inj hxe
  exact min_le_right _ _

theorem le_lo_of_mem_above (he : e ∈ RangeMap.above b l) : b ≤ e.lo := by
  obtain ⟨x, hx, hxe⟩ := List.mem_filterMap.mp he
  split_ifs at hxe
  obtain rfl := some.inj hxe
  exact le_max_right _ _

/-- **A cleared range leaves the shortest form.** -/
theorem Canonical.clear (h : Canonical l) (hab : a < b) :
    Canonical (RangeMap.below a l ++ RangeMap.above b l) where
  pos := fun e he => (List.mem_append.mp he).elim ((h.below a).pos e) ((h.above b).pos e)
  apart := List.pairwise_append.mpr ⟨(h.below a).apart, (h.above b).apart, fun _ hx _ hy =>
    Or.inl (lt_of_le_of_lt (hi_le_of_mem_below hx) (lt_of_lt_of_le hab (le_lo_of_mem_above hy)))⟩

/-- The segment of a point is the only one there. -/
theorem Canonical.modeAt_of_mem (h : Canonical l) (he : e ∈ l) (hu : covers u e) :
    modeAt l u = some e.mode := by
  induction l with
  | nil => cases he
  | cons x l ih =>
    have hap := List.pairwise_cons.mp h.apart
    rw [modeAt_cons]
    rcases List.mem_cons.mp he with rfl | he
    · rw [if_pos hu]
    · have hx : ¬ covers u x = true := by
        simp only [covers, decide_eq_true_eq] at hu ⊢
        exact fun hc => not_lt.mpr ((hap.1 e he).le.trans hu.1) hc.2
      rw [if_neg hx]
      exact ih ⟨fun e he => h.pos e (mem_cons_of_mem _ he), hap.2⟩ he

/-! ## Joining -/

section

variable [DecidableEq μ]

/-- The two cases of joining on the left. -/
theorem joinLeft_cases (l : List (Seg κ μ)) (e : Seg κ μ) :
    (∃ k x, l = k ++ [x] ∧ x.hi = e.lo ∧ x.mode = e.mode ∧
      joinLeft l e = (k, { e with lo := x.lo })) ∨
    (joinLeft l e = (l, e) ∧ ∀ k x, l = k ++ [x] → ¬ (x.hi = e.lo ∧ x.mode = e.mode)) := by
  rcases eq_nil_or_concat l with rfl | ⟨k, x, rfl⟩
  · exact Or.inr ⟨rfl, fun k x h => by simp at h⟩
  · rw [concat_eq_append, joinLeft, List.getLast?_concat]
    by_cases hj : x.hi = e.lo ∧ x.mode = e.mode
    · exact Or.inl ⟨k, x, rfl, hj.1, hj.2, by simp [hj]⟩
    · refine Or.inr ⟨if_neg hj, fun k' x' h => ?_⟩
      obtain ⟨-, hx⟩ := List.append_inj' h rfl
      obtain rfl : x = x' := by simpa using hx
      exact hj

theorem joinRight_cases (e : Seg κ μ) (l : List (Seg κ μ)) :
    (∃ x k, l = x :: k ∧ x.lo = e.hi ∧ x.mode = e.mode ∧
      joinRight e l = ({ e with hi := x.hi }, k)) ∨
    (joinRight e l = (e, l) ∧ ∀ x k, l = x :: k → ¬ (x.lo = e.hi ∧ x.mode = e.mode)) := by
  cases l with
  | nil => exact Or.inr ⟨rfl, fun x k h => by cases h⟩
  | cons x k =>
    by_cases hj : x.lo = e.hi ∧ x.mode = e.mode
    · exact Or.inl ⟨x, k, rfl, hj.1, hj.2, if_pos hj⟩
    · refine Or.inr ⟨if_neg hj, fun x' k' h => ?_⟩
      obtain ⟨rfl, -⟩ := List.cons.inj h
      exact hj

/-- Joining on the left changes no mode. -/
theorem modeAt_joinLeft (hl : ∀ x ∈ l, x.lo < x.hi) (he : e.lo < e.hi) :
    modeAt ((joinLeft l e).1 ++ [(joinLeft l e).2]) u = modeAt (l ++ [e]) u := by
  rcases joinLeft_cases l e with ⟨k, x, rfl, hhi, hmode, hj⟩ | ⟨hj, -⟩
  · have hx := hl x (by simp)
    have hc : covers u { e with lo := x.lo } = (covers u x || covers u e) := by
      simp only [covers, ← Bool.decide_or, decide_eq_decide]
      constructor
      · rintro ⟨h1, h2⟩
        rcases lt_or_ge u x.hi with h | h
        · exact Or.inl ⟨h1, h⟩
        · exact Or.inr ⟨hhi ▸ h, h2⟩
      · rintro (⟨h1, h2⟩ | ⟨h1, h2⟩)
        · exact ⟨h1, (hhi ▸ h2).trans he⟩
        · exact ⟨(le_of_lt hx).trans (hhi ▸ h1), h2⟩
    rw [hj, modeAt_append, modeAt_append, modeAt_append, modeAt_cons, modeAt_cons, modeAt_cons, hc,
      hmode, Option.or_assoc]
    congr 1
    cases covers u x <;> cases covers u e <;> rfl
  · rw [hj]

/-- Joining on the right changes no mode. -/
theorem modeAt_joinRight (hl : ∀ x ∈ l, x.lo < x.hi) (he : e.lo < e.hi) :
    modeAt ((joinRight e l).1 :: (joinRight e l).2) u = modeAt (e :: l) u := by
  rcases joinRight_cases e l with ⟨x, k, rfl, hlo, hmode, hj⟩ | ⟨hj, -⟩
  · have hx := hl x (by simp)
    have hc : covers u { e with hi := x.hi } = (covers u e || covers u x) := by
      simp only [covers, ← Bool.decide_or, decide_eq_decide]
      constructor
      · rintro ⟨h1, h2⟩
        rcases lt_or_ge u e.hi with h | h
        · exact Or.inl ⟨h1, h⟩
        · exact Or.inr ⟨hlo ▸ h, h2⟩
      · rintro (⟨h1, h2⟩ | ⟨h1, h2⟩)
        · exact ⟨h1, (hlo ▸ h2).trans hx⟩
        · exact ⟨(le_of_lt he).trans (hlo ▸ h1), h2⟩
    rw [hj, modeAt_cons, modeAt_cons, modeAt_cons, hc, hmode]
    cases covers u e <;> cases covers u x <;> rfl
  · rw [hj]

/-- What joining on the left leaves of the list and of the segment. -/
theorem joinLeft_spec (hl : Canonical l) (hle : ∀ x ∈ l, x.hi ≤ e.lo) :
    (joinLeft l e).2.lo ≤ e.lo ∧ (joinLeft l e).2.hi = e.hi ∧ (joinLeft l e).2.mode = e.mode ∧
      List.Sublist (joinLeft l e).1 l ∧ ∀ x ∈ (joinLeft l e).1, Apart x (joinLeft l e).2 := by
  rcases joinLeft_cases l e with ⟨k, x, rfl, hhi, hmode, hj⟩ | ⟨hj, hno⟩
  · have hx := hl.pos x (by simp)
    have hap := List.pairwise_append.mp hl.apart
    rw [hj]
    refine ⟨?_, rfl, rfl, sublist_append_left k [x], fun y hy => ?_⟩
    · exact le_of_lt (hhi ▸ hx)
    · have hyx := hap.2.2 y hy x (mem_singleton_self x)
      rwa [Apart, hmode] at hyx
  · rw [hj]
    refine ⟨le_refl _, rfl, rfl, List.Sublist.refl l, fun y hy => ?_⟩
    rcases eq_nil_or_concat l with rfl | ⟨k, x, rfl⟩
    · cases hy
    · rw [concat_eq_append] at *
      have hap := List.pairwise_append.mp hl.apart
      have hxe := hle x (by simp)
      rcases List.mem_append.mp hy with hy | hy
      · -- another segment lies between
        have hyx := hap.2.2 y hy x (mem_singleton_self x)
        exact Or.inl (lt_of_le_of_lt hyx.le (lt_of_lt_of_le (hl.pos x (by simp)) hxe))
      · obtain rfl := List.mem_singleton.mp hy
        rcases lt_or_eq_of_le hxe with hlt | heq
        · exact Or.inl hlt
        · exact Or.inr ⟨heq, fun hm => hno k y rfl ⟨heq, hm⟩⟩

/-- What joining on the right leaves of the segment and of the list. -/
theorem joinRight_spec (hl : Canonical l) (hle : ∀ x ∈ l, e.hi ≤ x.lo) :
    (joinRight e l).1.lo = e.lo ∧ e.hi ≤ (joinRight e l).1.hi ∧ (joinRight e l).1.mode = e.mode ∧
      List.Sublist (joinRight e l).2 l ∧ ∀ x ∈ (joinRight e l).2, Apart (joinRight e l).1 x := by
  rcases joinRight_cases e l with ⟨x, k, rfl, hlo, hmode, hj⟩ | ⟨hj, hno⟩
  · have hx := hl.pos x (by simp)
    have hap := List.pairwise_cons.mp hl.apart
    rw [hj]
    refine ⟨rfl, ?_, rfl, sublist_cons_self x k, fun y hy => ?_⟩
    · exact le_of_lt (hlo ▸ hx)
    · have hxy := hap.1 y hy
      rwa [Apart, hmode] at hxy
  · rw [hj]
    refine ⟨rfl, le_refl _, rfl, List.Sublist.refl l, fun y hy => ?_⟩
    cases l with
    | nil => cases hy
    | cons x k =>
      have hap := List.pairwise_cons.mp hl.apart
      have hxe := hle x mem_cons_self
      rcases List.mem_cons.mp hy with rfl | hy
      · rcases lt_or_eq_of_le hxe with hlt | heq
        · exact Or.inl hlt
        · exact Or.inr ⟨heq, fun hm => hno y k rfl ⟨heq.symm, hm.symm⟩⟩
      · -- another segment lies between
        have hxy := hap.1 y hy
        exact Or.inl (lt_of_le_of_lt hxe (lt_of_lt_of_le (hl.pos x mem_cons_self) hxy.le))

/-- **A range gets its mode**, and no other point changes. -/
theorem modeAt_put (h : Canonical l) (he : e.lo < e.hi) :
    modeAt (put l e) u = if covers u e then some e.mode else modeAt l u := by
  have hb := h.below e.lo
  have ha := h.above e.hi
  obtain ⟨hlo, hhi, hmode, -, -⟩ := joinLeft_spec hb (e := e) fun x hx => hi_le_of_mem_below hx
  have hj := modeAt_joinLeft (u := u) hb.pos he
  have hk := modeAt_joinRight (e := (joinLeft (below e.lo l) e).2) (u := u) ha.pos
    (lt_of_le_of_lt hlo (hhi ▸ he))
  rw [put, modeAt_append, hk, ← modeAt_append, append_cons, modeAt_append, hj,
    modeAt_append, modeAt_below, modeAt_above, modeAt_cons, modeAt_nil]
  by_cases h1 : u < e.lo
  · have h2 : ¬ e.hi ≤ u := not_le.mpr (h1.trans he)
    have hc : covers u e = false := decide_eq_false fun hc => not_lt.mpr hc.1 h1
    rw [hc, if_pos h1, if_neg h2]
    simp
  · by_cases h2 : e.hi ≤ u
    · have hc : covers u e = false := decide_eq_false fun hc => not_lt.mpr h2 hc.2
      rw [hc, if_neg h1, if_pos h2]
      simp
    · have hc : covers u e = true := decide_eq_true ⟨not_lt.mp h1, not_le.mp h2⟩
      rw [hc, if_neg h1, if_neg h2]
      simp

/-- **A range that gets its mode leaves the shortest form.** -/
theorem Canonical.put (h : Canonical l) (he : e.lo < e.hi) : Canonical (put l e) := by
  have hb := h.below e.lo
  have ha := h.above e.hi
  obtain ⟨hlo, hhi, hmode, hsub, hap⟩ :=
    joinLeft_spec hb (e := e) fun x hx => hi_le_of_mem_below hx
  obtain ⟨hlo', hhi', hmode', hsub', hap'⟩ :=
    joinRight_spec ha (e := (joinLeft (RangeMap.below e.lo l) e).2)
      fun x hx => hhi ▸ le_lo_of_mem_above hx
  constructor
  · intro x hx
    rcases List.mem_append.mp hx with hx | hx
    · exact hb.pos x (hsub.subset hx)
    · rcases List.mem_cons.mp hx with rfl | hx
      · rw [hlo']
        exact lt_of_le_of_lt hlo (lt_of_lt_of_le (hhi ▸ he) hhi')
      · exact ha.pos x (hsub'.subset hx)
  · refine List.pairwise_append.mpr ⟨hb.apart.sublist hsub, ?_, fun x hx y hy => ?_⟩
    · exact List.pairwise_cons.mpr ⟨hap', ha.apart.sublist hsub'⟩
    · rcases List.mem_cons.mp hy with rfl | hy
      · rw [Apart, hlo', hmode']
        exact hap x hx
      · exact Or.inl (lt_of_le_of_lt (hi_le_of_mem_below (hsub.subset hx))
          (lt_of_lt_of_le he (le_lo_of_mem_above (hsub'.subset hy))))

end

end RangeMap
