/-
# Rectangles of 16-bit coordinates

`rect_includespoint` moves with the plane as long as the point is on the screen, although the
corner may wrap.  `rect_intersection` keeps all the points of two rectangles; it adds none when no
size is negative.
-/
import SunOS.Sunwindow.Clipping
import SunOS.Lib.Painter

namespace Sunwindow.Clipping

/-! ## Shorts -/

theorem toInt_bounds (x : coord) : -32768 ≤ x.toInt ∧ x.toInt < 32768 := by
  have hl := BitVec.le_toInt x
  have hu := BitVec.toInt_lt (x := x)
  exact ⟨hl, hu⟩

/-- The `short` that holds an int is the int, give or take 65536. -/
theorem toInt_short (i : ℤ) (hl : -98304 ≤ i) (hu : i < 98304) :
    (short i).toInt = i ∧ -32768 ≤ i ∧ i < 32768 ∨
      (short i).toInt = i + 65536 ∧ i < -32768 ∨ (short i).toInt = i - 65536 ∧ 32768 ≤ i := by
  rw [short, BitVec.toInt_ofInt, Int.bmod]
  split <;> lia

theorem coord_add (x y : coord) : x + y = short (x.toInt + y.toInt) := by
  rw [short, BitVec.ofInt_add, BitVec.ofInt_toInt, BitVec.ofInt_toInt]

theorem coord_sub (x y : coord) : x - y = short (x.toInt - y.toInt) := by
  apply BitVec.eq_of_toInt_eq
  rw [short, BitVec.toInt_ofInt, BitVec.toInt_sub]

theorem toInt_coord_max (a b : coord) : (coord_max a b).toInt = max a.toInt b.toInt := by
  rw [coord_max]
  split <;> omega

theorem mem_span (l n x : coord) :
    span_includes l n x ↔ l.toInt ≤ x.toInt ∧ x.toInt < l.toInt + n.toInt := by
  rw [span_includes, Bool.and_eq_true, decide_eq_true_eq, decide_eq_true_eq]

theorem mem_rect (r : rect) (p : point) : rect_includespoint r p ↔
    span_includes r.r_left r.r_width p.1 ∧ span_includes r.r_top r.r_height p.2 := by
  rw [rect_includespoint, Bool.and_eq_true]

/-! ## Moving a plane -/

/-- A span in the plane of a span that holds the point `x` of the screen: it may be looked up
there, or on the screen, where its start may have wrapped. -/
theorem span_includes_shift (s l n m x : coord) (hx : 0 ≤ x.toInt) (hin : span_includes s m x) :
    span_includes (s + l) n x = span_includes l n (x - s) := by
  rw [mem_span] at hin
  have hl := toInt_bounds l
  have hn := toInt_bounds n
  have hm := toInt_bounds m
  have hx' := toInt_bounds x
  have hd : (x - s).toInt = x.toInt - s.toInt := by
    rw [coord_sub]
    have := toInt_short (x.toInt - s.toInt) (by lia) (by lia)
    lia
  have ha := toInt_short (s.toInt + l.toInt) (by lia) (by lia)
  rw [← coord_add] at ha
  rw [Bool.eq_iff_iff, mem_span, mem_span, hd]
  lia

/-- A span seen from its own start. -/
theorem span_includes_start (l n x : coord) (h : span_includes l n (x + l)) :
    span_includes 0 n x := by
  rw [mem_span] at h ⊢
  have hl := toInt_bounds l
  have hn := toInt_bounds n
  have hx := toInt_bounds x
  have ha := toInt_short (x.toInt + l.toInt) (by omega) (by omega)
  rw [← coord_add] at ha
  have h0 : (0 : coord).toInt = 0 := rfl
  omega

/-- A rectangle seen from its own corner. -/
theorem includes_rparent (r : rect) (p : point)
    (h : rect_includespoint r (p + (r.r_left, r.r_top))) : rect_includespoint (rparent r) p := by
  rw [mem_rect] at h ⊢
  exact ⟨span_includes_start _ _ _ h.1, span_includes_start _ _ _ h.2⟩

/-! ## rect_intersection -/

/-- The size is the overlap, unless that wraps. -/
theorem toInt_span_size (l1 n1 l2 n2 : coord)
    (h : -32768 ≤ min (l1.toInt + n1.toInt) (l2.toInt + n2.toInt) - max l1.toInt l2.toInt) :
    (span_size l1 n1 l2 n2).toInt =
      max 0 (min (l1.toInt + n1.toInt) (l2.toInt + n2.toInt) - max l1.toInt l2.toInt) := by
  have hn := toInt_bounds n1
  have hs := toInt_short (min (l1.toInt + n1.toInt) (l2.toInt + n2.toInt) -
    max l1.toInt l2.toInt) (by lia) (by lia)
  rw [span_size, toInt_coord_max]
  split
  · have h0 : (0 : coord).toInt = 0 := rfl
    lia
  · lia

/-- No point of both spans is lost. -/
theorem span_intersection (l1 n1 l2 n2 x : coord) (h1 : span_includes l1 n1 x)
    (h2 : span_includes l2 n2 x) :
    span_includes (coord_max l1 l2) (span_size l1 n1 l2 n2) x := by
  rw [mem_span] at h1 h2 ⊢
  rw [toInt_coord_max, toInt_span_size _ _ _ _ (by omega)]
  omega

/-- A span of no negative size, clipped to one that starts at 0, gains no point. -/
theorem span_intersection_tight (l n m x : coord) (hn : 0 ≤ n.toInt) (hm : 0 ≤ m.toInt)
    (h : span_includes (coord_max l 0) (span_size l n 0 m) x) :
    span_includes l n x ∧ span_includes 0 m x := by
  have hl := toInt_bounds l
  have h0 : (0 : coord).toInt = 0 := rfl
  rw [mem_span, toInt_coord_max, toInt_span_size _ _ _ _ (by rw [h0]; omega), h0] at h
  rw [mem_span, mem_span, h0]
  omega

/-- `rect_intersection` keeps the points of both rectangles. -/
theorem rect_intersection_sound (r1 r2 : rect) (p : point) (h1 : rect_includespoint r1 p)
    (h2 : rect_includespoint r2 p) : rect_includespoint (rect_intersection r1 r2) p := by
  rw [mem_rect] at h1 h2 ⊢
  exact ⟨span_intersection _ _ _ _ _ h1.1 h2.1, span_intersection _ _ _ _ _ h1.2 h2.2⟩

/-- No size of the rectangle is negative. -/
def rect.Sized (r : rect) : Prop := 0 ≤ r.r_width.toInt ∧ 0 ≤ r.r_height.toInt

instance (r : rect) : Decidable r.Sized := by
  unfold rect.Sized
  infer_instance

/-- Where no size is negative, `rect_intersection` with a parent adds no point. -/
theorem rect_intersection_tight (r1 r2 : rect) (hr1 : r1.Sized) (hr2 : r2.Sized) (p : point)
    (h : rect_includespoint (rect_intersection r1 (rparent r2)) p) :
    rect_includespoint (rparent r2) p ∧ rect_includespoint r1 p := by
  rw [mem_rect] at h
  obtain ⟨hx, hx'⟩ := span_intersection_tight _ _ _ _ hr1.1 hr2.1 h.1
  obtain ⟨hy, hy'⟩ := span_intersection_tight _ _ _ _ hr1.2 hr2.2 h.2
  exact ⟨(mem_rect _ _).mpr ⟨hx', hy'⟩, (mem_rect _ _).mpr ⟨hx, hy⟩⟩

end Sunwindow.Clipping

/-! # What the clipping lists hold

The windows of a tree are panes that cover one another, and after `wt_setclipping` the list
`w_rlexposed` of a window holds a point of the screen just where the pane shows it.  What needs
repair is in `w_rlfixup`.
-/

namespace Sunwindow.Clipping

open Rectlist Painter

variable {α RL : Type*}

/-- The corner of a rectangle. -/
def rect.origin (r : rect) : point := (r.r_left, r.r_top)

/-- Where the window's plane lies on the screen. -/
def window.screen (w : window α RL) : point := (w.w_screenx, w.w_screeny)

/-- The window's `w_rlexposed`, moved by `(w_screenx, w_screeny)`, holds the point. -/
def window.shows (points : RL → point → Prop) (w : window α RL) (p : point) : Prop :=
  points w.w_rlexposed (p - w.screen)

mutual
/-- The window as a pane, which `rect_intersection` clips to its parent. -/
def Tree.pane (parent : rect) : Tree α RL → Pane α point
  | .mk w cs => .mk w.addr w.w_rect.origin (rect_includespoint w.w_rect)
      (rect_includespoint (rect_intersection w.w_rect (rparent parent))) (panes w.w_rect cs)

/-- The children of a window as panes. -/
def panes (parent : rect) : List (Tree α RL) → List (Pane α point)
  | [] => []
  | c :: cs => c.pane parent :: panes parent cs
end

@[simp] theorem Tree.pane_origin (r : rect) (c : Tree α RL) :
    (c.pane r).origin = c.win.w_rect.origin := by
  cases c; rfl

@[simp] theorem Tree.pane_area (r : rect) (c : Tree α RL) :
    (c.pane r).area = rect_includespoint c.win.w_rect := by
  cases c; rfl

@[simp] theorem Tree.pane_clip (r : rect) (c : Tree α RL) : (c.pane r).clip =
    rect_includespoint (rect_intersection c.win.w_rect (rparent r)) := by
  cases c; rfl

mutual
@[simp] theorem Tree.pane_names (r : rect) :
    ∀ c : Tree α RL, (c.pane r).names = c.windows.map (·.addr)
  | .mk w cs => by
    rw [Tree.pane, Pane.names, Tree.windows, List.map_cons, panes_names]

@[simp] theorem panes_names (r : rect) :
    ∀ cs : List (Tree α RL), namesIn (panes r cs) = (windowsIn cs).map (·.addr)
  | [] => rfl
  | c :: cs => by
    rw [panes, namesIn, windowsIn, List.map_append, Tree.pane_names, panes_names]
end

/-- A point is covered where a rectangle holds it. -/
theorem covered_panes (r : rect) (cs : List (Tree α RL)) (p : point) :
    covered (panes r cs) p = (rects cs).any (rect_includespoint · p) := by
  induction cs with
  | nil => rfl
  | cons c cs ih =>
    rw [panes, covered_cons, ih, Tree.pane_area]
    rfl

/-! ## One window -/

/-- Two windows with the same address, place and clipping. -/
structure SameClip (v w : window α RL) : Prop where
  addr : v.addr = w.addr
  rect : v.w_rect = w.w_rect
  screen : v.screen = w.screen
  exposed : v.w_rlexposed = w.w_rlexposed

section fields

variable [Rectlist RL] (rs : List rect) (w : window α RL) (rlfix : RL)

theorem mark_exposed_fixup : (mark_exposed w).w_rlfixup = w.w_rlfixup := by
  simp only [mark_exposed, wt_bump_clippingid]
  split <;> rfl

theorem mark_exposed_same : SameClip (mark_exposed w) w := by
  simp only [mark_exposed, wt_bump_clippingid]
  split <;> exact ⟨rfl, rfl, rfl, rfl⟩

theorem store_fixup_same : SameClip (store_fixup w rlfix) w := by
  simp only [store_fixup, wt_bump_clippingid]
  split <;> exact ⟨rfl, rfl, rfl, rfl⟩

/-- All that the end does to the clipping is to remove the children. -/
theorem clip_finish_same : SameClip (clip_finish rs w rlfix) (clip_exposed rs w) := by
  have hs := store_fixup_same (mark_exposed (clip_exposed rs w)) (fix_up (clip_exposed rs w) rlfix)
  have hm := mark_exposed_same (clip_exposed rs w)
  exact ⟨hs.addr.trans hm.addr, hs.rect.trans hm.rect, hs.screen.trans hm.screen,
    hs.exposed.trans hm.exposed⟩

end fields

section points

variable [Rectlist RL] {points : RL → point → Prop} (hx : Exact RL points)

include hx

theorem points_removerects (rs : List rect) (rl : RL) (p : point) :
    points (rl_removerects rs rl) p ↔
      points rl p ∧ rs.any (rect_includespoint · p) = false := by
  induction rs generalizing rl with
  | nil => simp [rl_removerects]
  | cons r rs ih =>
    have hstep := ih (rl_rectdifference r rl)
    rw [rl_removerects] at hstep ⊢
    rw [List.foldl_cons, hstep, hx.rectdifference, List.any_cons, Bool.or_eq_false_iff,
      Bool.not_eq_true, and_assoc]

/-- The clipping of a child, before its own children are removed. -/
theorem points_clip_child (up : Above α RL) (w : window α RL) (rlaffected : RL) (p : point) :
    points (clip_child up w rlaffected).1.w_rlexposed (p - w.w_rect.origin) ↔
      (up.grandparent → points up.parent.w_rlexposed p) ∧
      rect_includespoint (rect_intersection w.w_rect (rparent up.parent.w_rect)) p ∧
      up.covering.any (rect_includespoint · p) = false := by
  simp only [clip_child, hx.normalize, hx.passtochild, points_removerects hx]
  rw [show p - w.w_rect.origin + (w.w_rect.r_left, w.w_rect.r_top) = p from sub_add_cancel _ _]
  by_cases hg : up.grandparent
  · simp only [hg, if_true, hx.intersection, hx.initwithrect, true_implies]
    tauto
  · simp only [hg, if_false, hx.initwithrect, Bool.false_eq_true, false_implies, true_and]

/-- What is affected is only moved about. -/
theorem points_clip_child_affected (up : Above α RL) (w : window α RL) (rlaffected : RL)
    (p : point) : points (clip_child up w rlaffected).2.2 p ↔ points rlaffected p := by
  simp only [clip_child, hx.passtochild, hx.passtoparent, add_sub_cancel_right]

/-- What is affected and shown by a child goes into its `rlfix`. -/
theorem points_clip_child_fix (up : Above α RL) (w : window α RL) (rlaffected : RL) (p : point)
    (ha : points rlaffected p) (he : points (clip_child up w rlaffected).1.w_rlexposed p) :
    points (clip_child up w rlaffected).2.1 p := by
  have hp := points_clip_child hx up w rlaffected (p + w.w_rect.origin)
  rw [add_sub_cancel_right] at hp
  simp only [clip_child, hx.normalize, hx.passtochild, hx.rectintersection, hx.passtoparent,
    add_sub_cancel_right]
  exact ⟨(hp.mp he).2.1, ha⟩

/-- The clipping at the end. -/
theorem points_clip_finish (rs : List rect) (w : window α RL) (rlfix : RL) (p : point) :
    points (clip_finish rs w rlfix).w_rlexposed p ↔
      points w.w_rlexposed p ∧ rs.any (rect_includespoint · p) = false := by
  rw [(clip_finish_same rs w rlfix).exposed, clip_exposed, hx.coalesce, points_removerects hx]

/-- What is to be repaired is exposed. -/
theorem points_fix_up_le (w : window α RL) (rlfix : RL) (p : point)
    (h : points (fix_up w rlfix) p) : points w.w_rlexposed p := by
  simp only [fix_up] at h
  generalize (if !w.wf_dtopposchanged then rl_difference rlfix w.w_rlexposedold else rlfix) = rl
    at h
  split at h
  · exact h
  · rw [hx.coalesce, hx.intersection] at h
    exact h.2

/-- What needs repair, and is exposed, is to be repaired. -/
theorem points_fix_up (w : window α RL) (rlfix : RL) (p : point) (hf : points rlfix p)
    (ho : w.wf_dtopposchanged = true ∨ ¬points w.w_rlexposedold p)
    (he : points w.w_rlexposed p) : points (fix_up w rlfix) p := by
  have hkept : points
      (if !w.wf_dtopposchanged then rl_difference rlfix w.w_rlexposedold else rlfix) p := by
    split
    · next hn =>
      rw [hx.difference]
      exact ⟨hf, ho.resolve_left (by simpa using hn)⟩
    · exact hf
  simp only [fix_up]
  generalize (if !w.wf_dtopposchanged then rl_difference rlfix w.w_rlexposedold else rlfix) = rl
    at hkept
  split
  · exact he
  · rw [hx.coalesce, hx.intersection, hx.union]
    exact ⟨Or.inl hkept, he⟩

/-- `w_rlfixup` ends up with the points of `fix_up`. -/
theorem points_clip_finish_fixup (rs : List rect) (w : window α RL) (rlfix : RL) (p : point) :
    points (clip_finish rs w rlfix).w_rlfixup p ↔ points (fix_up (clip_exposed rs w) rlfix) p := by
  simp only [clip_finish, store_fixup]
  split
  · next heq =>
    rw [hx.equal _ _ heq p, mark_exposed_fixup]
  · rfl

end points

end Sunwindow.Clipping
