/-
# The clipping lists of the windows

`wt_setclipping` and `wt_intersected` of `wintree.c` over the rectangles of `rect.h` and `rect.c`.
A window tree that is finite and well linked is a term: the children of a window are listed from
the bottom one to the top one, and the loops over `WL_COVERING` run down that list.  The rectlist
operations are a parameter.  Of the two places that a clipping id is kept in, the one in the
shared block is left out.
-/
import Mathlib.Algebra.Group.Prod
import Mathlib.Data.BitVec

namespace Sunwindow.Clipping

/-! ## rect.h and rect.c -/

/-- A `coord`, which is a `short`. -/
abbrev coord := BitVec 16

/-- A point, in some window's coordinates or on the screen. -/
abbrev point := coord × coord

/-- `struct rect`. -/
structure rect where
  r_left : coord
  r_top : coord
  r_width : coord
  r_height : coord
  deriving DecidableEq, Repr

/-- The int `i` stored in a `short`. -/
def short (i : ℤ) : coord := BitVec.ofInt 16 i

/-- One axis of `rect_includespoint`: `x` lies in the span of size `n` that starts at `l`. -/
def span_includes (l n x : coord) : Bool :=
  decide (l.toInt ≤ x.toInt) && decide (x.toInt < l.toInt + n.toInt)

/-- `rect_includespoint(r, x, y)`. -/
def rect_includespoint (r : rect) (p : point) : Bool :=
  span_includes r.r_left r.r_width p.1 && span_includes r.r_top r.r_height p.2

/-- `max(a, b)` of two coordinates. -/
def coord_max (a b : coord) : coord := if a.toInt > b.toInt then a else b

/-- One axis of `rect_intersection`: the size.  The `short` is tested after the store. -/
def span_size (l1 n1 l2 n2 : coord) : coord :=
  let n := short (min (l1.toInt + n1.toInt) (l2.toInt + n2.toInt) - (coord_max l1 l2).toInt)
  if n.toInt < 0 then 0 else n

/-- `rect_intersection(r1, r2, r)`. -/
def rect_intersection (r1 r2 : rect) : rect where
  r_left := coord_max r1.r_left r2.r_left
  r_top := coord_max r1.r_top r2.r_top
  r_width := span_size r1.r_left r1.r_width r2.r_left r2.r_width
  r_height := span_size r1.r_top r1.r_height r2.r_top r2.r_height

/-! ## rectlist.h -/

/-- The rectlist operations that `wt_setclipping` calls.  `rl_nodes` counts the rectnodes. -/
class Rectlist (RL : Type*) where
  rl_initwithrect : rect → RL
  rl_intersection : RL → RL → RL
  rl_union : RL → RL → RL
  rl_difference : RL → RL → RL
  rl_rectintersection : rect → RL → RL
  rl_rectdifference : rect → RL → RL
  rl_passtoparent : coord → coord → RL → RL
  rl_passtochild : coord → coord → RL → RL
  rl_normalize : RL → RL
  rl_coalesce : RL → RL
  rl_empty : RL → Bool
  rl_equal : RL → RL → Bool
  rl_nodes : RL → ℕ

open Rectlist

/-- The operations compute exact point sets, where `points rl p` says that `p` is in `rl`. -/
structure Exact (RL : Type*) [Rectlist RL] (points : RL → point → Prop) : Prop where
  initwithrect : ∀ r p, points (rl_initwithrect r) p ↔ rect_includespoint r p
  intersection : ∀ a b p, points (rl_intersection a b) p ↔ points a p ∧ points b p
  union : ∀ a b p, points (rl_union a b) p ↔ points a p ∨ points b p
  difference : ∀ a b p, points (rl_difference a b) p ↔ points a p ∧ ¬points b p
  rectintersection : ∀ r a p,
    points (rl_rectintersection r a) p ↔ rect_includespoint r p ∧ points a p
  rectdifference : ∀ r a p,
    points (rl_rectdifference r a) p ↔ points a p ∧ ¬rect_includespoint r p
  passtoparent : ∀ x y a p, points (rl_passtoparent x y a) p ↔ points a (p - (x, y))
  passtochild : ∀ x y a p, points (rl_passtochild x y a) p ↔ points a (p + (x, y))
  normalize : ∀ a p, points (rl_normalize a) p ↔ points a p
  coalesce : ∀ a p, points (rl_coalesce a) p ↔ points a p
  equal : ∀ a b, rl_equal a b → ∀ p, points a p ↔ points b p

/-! ## Windows -/

/-- `struct window`: its address, and the fields that have to do with clipping. -/
structure window (α RL : Type*) where
  addr : α
  w_rect : rect
  w_screenx : coord
  w_screeny : coord
  /-- `WF_DTOPPOSCHANGED`: the position on the desktop changed. -/
  wf_dtopposchanged : Bool
  /-- `WF_PREVIOUSDAMAGED`: non-null `rlfixup` last time clipped. -/
  wf_previousdamaged : Bool
  w_clippingid : BitVec 32
  w_rlexposed : RL
  w_rlexposedold : RL
  w_rlfixup : RL

/-- A window and its children, the bottom child first. -/
inductive Tree (α RL : Type*)
  | mk (w : window α RL) (children : List (Tree α RL))

variable {α RL : Type*}

/-- The window at the top of a tree. -/
def Tree.win : Tree α RL → window α RL
  | .mk w _ => w

mutual
/-- The windows of a tree. -/
def Tree.windows : Tree α RL → List (window α RL)
  | .mk w cs => w :: windowsIn cs

/-- The windows of a list of trees. -/
def windowsIn : List (Tree α RL) → List (window α RL)
  | [] => []
  | c :: cs => c.windows ++ windowsIn cs
end

/-- The rectangles of a list of windows. -/
def rects (cs : List (Tree α RL)) : List rect := cs.map (·.win.w_rect)

/-! ## wt_setclipping -/

/-- What a window reads of the windows around it: its parent, whether that has a parent, and the
siblings that cover it. -/
structure Above (α RL : Type*) where
  parent : window α RL
  grandparent : Bool
  covering : List rect

section setclipping

variable [Rectlist RL]

/-- `wt_bump_clippingid(w)`. -/
def wt_bump_clippingid (w : window α RL) : window α RL :=
  { w with w_clippingid := w.w_clippingid + 1 }

/-- Take the rectangles `rs` off the rectlist, in order. -/
def rl_removerects (rs : List rect) (rl : RL) : RL :=
  rs.foldl (fun rl r => rl_rectdifference r rl) rl

/-- The start of `wt_setclipping` for a root: the window and `rlfix`. -/
def clip_root (scr_rect : rect) (w : window α RL) (rlaffected : RL) : window α RL × RL :=
  ({ w with
      w_rlexposedold := w.w_rlexposed
      w_rlexposed := rl_normalize (rl_initwithrect w.w_rect)
      w_screenx := scr_rect.r_left
      w_screeny := scr_rect.r_top },
    rl_normalize rlaffected)

/-- The parent's rectangle, with its corner at 0. -/
def rparent (r : rect) : rect := { r with r_left := 0, r_top := 0 }

/-- The start of `wt_setclipping` for a child: the window, `rlfix` and `rlaffected`. -/
def clip_child (up : Above α RL) (w : window α RL) (rlaffected : RL) : window α RL × RL × RL :=
  let x := w.w_rect.r_left
  let y := w.w_rect.r_top
  let rlaffected := rl_passtoparent x y rlaffected
  let rintersect := rect_intersection w.w_rect (rparent up.parent.w_rect)
  let rl := rl_initwithrect rintersect
  -- "Don't need to do this computation if one level down."
  let rl := if up.grandparent then rl_intersection rl up.parent.w_rlexposed else rl
  let rl := rl_removerects up.covering rl
  let rlfix := rl_rectintersection rintersect rlaffected
  ({ w with
      w_rlexposedold := w.w_rlexposed
      w_rlexposed := rl_normalize (rl_passtochild x y rl)
      w_screenx := up.parent.w_screenx + x
      w_screeny := up.parent.w_screeny + y },
    rl_normalize (rl_passtochild x y rlfix), rl_passtochild x y rlaffected)

/-- `MAX_RNSDAMAGED`. -/
def MAX_RNSDAMAGED : ℕ := 20

/-- What needs to be repaired, once the window's clipping is known. -/
def fix_up (w : window α RL) (rlfix : RL) : RL :=
  let rlfix := if !w.wf_dtopposchanged then rl_difference rlfix w.w_rlexposedold else rlfix
  let rlfix := rl_union rlfix w.w_rlfixup
  let rlfix := rl_coalesce (rl_intersection rlfix w.w_rlexposed)
  -- Too complex a damaged area is replaced by the exposed area.
  if MAX_RNSDAMAGED ≤ rl_nodes rlfix then w.w_rlexposed else rlfix

/-- Remove the covering children. -/
def clip_exposed (children : List rect) (w : window α RL) : window α RL :=
  { w with w_rlexposed := rl_coalesce (rl_removerects children w.w_rlexposed) }

/-- Remember whether there was unfinished fixup, and bump the id if the exposed part changed. -/
def mark_exposed (w : window α RL) : window α RL :=
  let w := { w with wf_previousdamaged := !rl_empty w.w_rlfixup }
  if rl_equal w.w_rlexposed w.w_rlexposedold then w else wt_bump_clippingid w

/-- Store the fixup and bump the id if it is different. -/
def store_fixup (w : window α RL) (rlfix : RL) : window α RL :=
  if rl_equal rlfix w.w_rlfixup then w else wt_bump_clippingid { w with w_rlfixup := rlfix }

/-- The end of `wt_setclipping`, from the removal of the covering children on. -/
def clip_finish (children : List rect) (w : window α RL) (rlfix : RL) : window α RL :=
  let w := clip_exposed children w
  store_fixup (mark_exposed w) (fix_up w rlfix)

mutual
/-- `wt_setclipping(winthis, rlaffected)`: the tree and `rlaffected`.  No `up` is a null parent. -/
def wt_setclipping (scr_rect : rect) (up : Option (Above α RL)) :
    Tree α RL → RL → Tree α RL × RL
  | .mk w cs, rlaffected =>
    match up with
    | none =>
      let (w, rlfix) := clip_root scr_rect w rlaffected
      let (cs', rlaffected) := clip_children scr_rect w false cs rlaffected
      (.mk (clip_finish (rects cs) w rlfix) cs', rlaffected)
    | some up =>
      let (w, rlfix, rlaffected) := clip_child up w rlaffected
      let (cs', rlaffected) := clip_children scr_rect w true cs rlaffected
      (.mk (clip_finish (rects cs) w rlfix) cs', rlaffected)

/-- The loop over the children, from the bottom one on. -/
def clip_children (scr_rect : rect) (parent : window α RL) (grandparent : Bool) :
    List (Tree α RL) → RL → List (Tree α RL) × RL
  | [], rlaffected => ([], rlaffected)
  | c :: cs, rlaffected =>
    let x := c.win.w_rect.r_left
    let y := c.win.w_rect.r_top
    let (c', rlaffected) := wt_setclipping scr_rect (some ⟨parent, grandparent, rects cs⟩) c
      (rl_passtochild x y rlaffected)
    let (cs', rlaffected) := clip_children scr_rect parent grandparent cs
      (rl_passtoparent x y rlaffected)
    (c' :: cs', rlaffected)
end

end setclipping

/-! ## wt_intersected -/

mutual
/-- `wt_intersected(winthis, x, y)`. -/
def wt_intersected : Tree α RL → point → Option α
  | .mk w cs, p =>
    if !rect_includespoint { w.w_rect with r_left := w.w_screenx, r_top := w.w_screeny } p then
      none
    else
      match intersected_child cs p with
      | some winintersect => some winintersect
      | none => some w.addr

/-- The loop over the children, which starts from the top one, the last of the list. -/
def intersected_child : List (Tree α RL) → point → Option α
  | [], _ => none
  | c :: cs, p =>
    match intersected_child cs p with
    | some winintersect => some winintersect
    | none => wt_intersected c p
end

end Sunwindow.Clipping
