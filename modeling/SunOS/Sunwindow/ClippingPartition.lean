/-
# Clipping partitions the screen

After `wt_setclipping` of a root at the origin the lists `w_rlexposed` are disjoint, and a window
has just the points at which `wt_intersected` finds it, if and only if no window shows a point
through a clip that `rect_intersection` got wrong.  `rect_intersection` stores a size in a `short`
before it tests the sign, so that a large negative overlap comes out as a rectangle; where no
rectangle has a negative size this does not happen.
-/
import Mathlib.Data.List.Pairwise
import SunOS.Sunwindow.ClippingTrees

namespace Sunwindow.Clipping

open List
open Rectlist Painter

variable {α RL : Type*}

/-- The root as a pane. -/
def Tree.root (t : Tree α RL) : Pane α point := t.pane t.win.w_rect

/-- No window shows a point of the root by its clip alone: it shows the point when each window is
clipped to its own rectangle, too.  Outside the root no two windows show a point. -/
structure Tree.Contained (t : Tree α RL) : Prop where
  inside : ∀ p, rect_includespoint t.win.w_rect p →
    ∀ a ∈ t.root.showing p, a ∈ t.root.unclip.showing p
  outside : ∀ p, rect_includespoint t.win.w_rect p = false →
    (showingIn t.root.children p).length ≤ 1

/-- The tree `t'` after the clipping of `t` where `aff` is affected: the lists, moved to the
screen, are disjoint and hold the points that hit their windows; and what is affected and newly
exposed is to be repaired. -/
structure Partitioned (points : RL → point → Prop) (t t' : Tree α RL) (aff : RL) : Prop where
  disjoint : t'.windows.Pairwise fun v w => ∀ p, ¬(v.shows points p ∧ w.shows points p)
  topmost : ∀ p, rect_includespoint t.win.w_rect p → ∀ w ∈ t'.windows,
    (w.shows points p ↔ wt_intersected t' p = some w.addr)
  repaired : List.Forall₂ (Repaired points (points aff)) t.windows t'.windows

theorem mem_panes (r : rect) (cs : List (Tree α RL)) {d : Pane α point} (h : d ∈ panes r cs) :
    ∃ c ∈ cs, c.pane r = d := by
  induction cs with
  | nil => simp [panes] at h
  | cons c cs ih =>
    rw [panes, mem_cons] at h
    rcases h with h | h
    · exact ⟨c, mem_cons_self, h.symm⟩
    · obtain ⟨c', hc', he⟩ := ih h
      exact ⟨c', mem_cons_of_mem c hc', he⟩

theorem win_mem_windowsIn (cs : List (Tree α RL)) {c : Tree α RL} (h : c ∈ cs) :
    c.win ∈ windowsIn cs := by
  induction cs with
  | nil => exact absurd h not_mem_nil
  | cons d cs ih =>
    rw [windowsIn, mem_append]
    rcases List.mem_cons.mp h with rfl | h
    · refine Or.inl ?_
      cases c with
      | mk w cs' =>
        rw [Tree.windows]
        exact mem_cons_self
    · exact Or.inr (ih h)

/-! ## Clips -/

mutual
/-- `rect_intersection` takes nothing away that a window has in its parent. -/
theorem Tree.pane_sound (r : rect) : ∀ c : Tree α RL, (c.pane r).Sound
  | .mk w cs => by
    rw [Tree.pane, Pane.Sound]
    exact panes_sound w.w_rect cs

theorem panes_sound (r : rect) : ∀ cs : List (Tree α RL),
    SoundIn (fun p => rect_includespoint r (p + r.origin)) (panes r cs)
  | [] => by rw [panes, SoundIn]; trivial
  | c :: cs => by
    rw [panes, SoundIn, Tree.pane_area, Tree.pane_clip]
    refine ⟨fun p hin hp => ?_, Tree.pane_sound r c, panes_sound r cs⟩
    exact rect_intersection_sound _ _ p hp (includes_rparent r p hin)
end

mutual
/-- Where no size is negative, `rect_intersection` lets nothing through. -/
theorem Tree.pane_tight (r : rect) : ∀ c : Tree α RL,
    (∀ w ∈ c.windows, w.w_rect.Sized) → (c.pane r).Tight
  | .mk w cs, h => by
    rw [Tree.pane, Pane.Tight]
    exact panes_tight w.w_rect (h w mem_cons_self) cs
      fun v hv => h v (mem_cons_of_mem w hv)

theorem panes_tight (r : rect) (hr : r.Sized) : ∀ cs : List (Tree α RL),
    (∀ w ∈ windowsIn cs, w.w_rect.Sized) → TightIn (panes r cs)
  | [], _ => by rw [panes, TightIn]; trivial
  | .mk w cs' :: cs, h => by
    have hw : w.w_rect.Sized := h w (mem_append_left _ (by
      rw [Tree.windows]
      exact mem_cons_self))
    rw [panes, TightIn, Tree.pane_area, Tree.pane_clip]
    refine ⟨fun p hp => (rect_intersection_tight _ _ hw hr p hp).2, ?_, ?_⟩
    · exact Tree.pane_tight r (.mk w cs') fun v hv => h v (mem_append_left _ hv)
    · exact panes_tight r hr cs fun v hv => h v (mem_append_right _ hv)
end

/-! ## The root -/

section root

variable [Rectlist RL] {points : RL → point → Prop}

/-- What the windows of a tree show, inside the root and outside. -/
theorem shows_setclipping (hx : Exact RL points) (scr : rect) (hs : scr.origin = 0)
    (t : Tree α RL) (aff : RL) (hnd : (t.windows.map (·.addr)).Nodup) :
    ∀ w ∈ (wt_setclipping scr none t aff).1.windows, ∀ p,
      w.shows points p ↔ w.addr ∈ (if rect_includespoint t.win.w_rect p then t.root.showing p
        else showingIn t.root.children p) := by
  cases t with
  | mk v cs =>
    intro w hw p
    have hin := shows_root hx scr v cs aff hnd w hw p
    rw [hs, add_zero] at hin
    have hwin : (Tree.mk v cs).win.w_rect = v.w_rect := rfl
    rw [hin, hwin, Tree.root, hwin, Tree.pane, Pane.showing, covered_panes, Pane.children]
    by_cases hr : rect_includespoint v.w_rect p
    · rw [if_pos hr, hr, Bool.true_and]
      by_cases hc : (rects cs).any (rect_includespoint · p) <;> simp [hc]
    · rw [if_neg hr, if_neg (by simp [hr]), nil_append]

/-- `wt_intersected` finds the window whose pane is hit. -/
theorem intersected_root (scr : rect) (hs : scr.origin = 0) (t : Tree α RL) (aff : RL)
    (h0 : t.win.w_rect.origin = 0) (p : point) (hp : rect_includespoint t.win.w_rect p) :
    wt_intersected (wt_setclipping scr none t aff).1 p = some (t.root.top p) := by
  cases t with
  | mk w cs =>
    simp only [Tree.win] at h0 hp
    have hcorner := h0
    simp only [rect.origin, Prod.ext_iff, Prod.fst_zero, Prod.snd_zero] at hcorner
    have hscr := hs
    simp only [rect.origin, Prod.ext_iff, Prod.fst_zero, Prod.snd_zero] at hscr
    have hzero : (0 : coord).toInt = 0 := rfl
    obtain ⟨hx, hy⟩ := (mem_rect _ _).mp hp
    rw [mem_span, hcorner.1, hzero] at hx
    rw [mem_span, hcorner.2, hzero] at hy
    have hsame := clip_finish_same (rects cs) (clip_root scr w aff).1 (clip_root scr w aff).2
    have haddr : (clip_finish (rects cs) (clip_root scr w aff).1
        (clip_root scr w aff).2).addr = w.addr := hsame.addr
    have honroot : (clip_root scr w aff).1.onscreen = w.w_rect := by
      have hl : scr.r_left = w.w_rect.r_left := hscr.1.trans hcorner.1.symm
      have ht : scr.r_top = w.w_rect.r_top := hscr.2.trans hcorner.2.symm
      change { w.w_rect with r_left := scr.r_left, r_top := scr.r_top } = w.w_rect
      rw [hl, ht]
    have hon : (clip_finish (rects cs) (clip_root scr w aff).1
        (clip_root scr w aff).2).onscreen = w.w_rect := hsame.onscreen.trans honroot
    have hin := intersected_clip_children scr p hx.1 hy.1 cs (clip_root scr w aff).1 false aff
      (by rw [honroot, hp])
    have hscreen : (clip_root scr w aff).1.screen = 0 := hs
    rw [hscreen, sub_zero] at hin
    rw [setclipping_root, intersected_mk, haddr, hon, if_pos hp, hin, Tree.root, Tree.pane,
      Pane.top]
    rfl

end root

/-- Every name that a pane of the root's shows is a window's after the clipping. -/
theorem exists_window [Rectlist RL] (scr : rect) (t : Tree α RL) (aff : RL) {a : α}
    (ha : a ∈ t.root.names) :
    ∃ w ∈ (wt_setclipping scr none t aff).1.windows, w.addr = a := by
  rw [Tree.root, Tree.pane_names, ← addrs_root scr t aff] at ha
  exact List.mem_map.mp ha

theorem mem_names_of_children (t : Tree α RL) {p : point} {a : α}
    (ha : a ∈ showingIn t.root.children p) : a ∈ t.root.names := by
  cases t with
  | mk w cs =>
    rw [Tree.root, Tree.pane, Pane.names]
    exact mem_cons_of_mem w.addr (mem_namesIn_of_showingIn _ _ ha)

theorem nodup_children (t : Tree α RL) (hnd : (t.windows.map (·.addr)).Nodup) (p : point) :
    (showingIn t.root.children p).Nodup := by
  cases t with
  | mk w cs =>
    rw [Tree.windows, map_cons, nodup_cons] at hnd
    rw [Tree.root, Tree.pane, Pane.children]
    exact nodup_showingIn _ _ (by rw [panes_names]; exact hnd.2)

/-! ## Rectlists of single points -/

/-- The coordinates of a span. -/
def span_points (l n : coord) : List coord :=
  ((List.range n.toInt.toNat).map fun i : ℕ => short (l.toInt + i)).filter (span_includes l n)

theorem mem_span_points (l n x : coord) : x ∈ span_points l n ↔ span_includes l n x := by
  rw [span_points, mem_filter]
  refine ⟨fun h => h.2, fun h => ⟨?_, h⟩⟩
  rw [mem_span] at h
  have hlt : (x.toInt - l.toInt).toNat < n.toInt.toNat := by omega
  have hback : l.toInt + ((x.toInt - l.toInt).toNat : ℤ) = x.toInt := by omega
  refine List.mem_map.mpr ⟨_, List.mem_range.mpr hlt, ?_⟩
  rw [hback, short, BitVec.ofInt_toInt]

/-- A rectlist all of whose rectangles are single points. -/
abbrev Cells := List point

instance : Rectlist Cells where
  rl_initwithrect r :=
    (span_points r.r_left r.r_width).flatMap fun x =>
      (span_points r.r_top r.r_height).map fun y => (x, y)
  rl_intersection a b := a.filter (· ∈ b)
  rl_union a b := a ++ b
  rl_difference a b := a.filter (· ∉ b)
  rl_rectintersection r a := a.filter (rect_includespoint r)
  rl_rectdifference r a := a.filter (!rect_includespoint r ·)
  rl_passtoparent x y a := a.map (· + (x, y))
  rl_passtochild x y a := a.map (· - (x, y))
  rl_normalize a := a
  rl_coalesce a := a.dedup
  rl_empty a := a.isEmpty
  rl_equal a b := decide (a = b)
  rl_nodes a := a.length

/-- Their operations compute exact point sets. -/
theorem cells_exact : Exact Cells fun a p => p ∈ a where
  initwithrect r p := by
    simp only [rl_initwithrect, mem_flatMap, mem_map, mem_span_points, mem_rect]
    constructor
    · rintro ⟨x, hx, y, hy, rfl⟩
      exact ⟨hx, hy⟩
    · intro h
      exact ⟨p.1, h.1, p.2, h.2, rfl⟩
  intersection a b p := by simp [rl_intersection]
  union a b p := mem_append
  difference a b p := by simp [rl_difference]
  rectintersection r a p := by simp [rl_rectintersection, and_comm]
  rectdifference r a p := by simp [rl_rectdifference]
  passtoparent x y a p := by
    simp only [rl_passtoparent, mem_map]
    constructor
    · rintro ⟨q, hq, rfl⟩
      rwa [add_sub_cancel_right]
    · exact fun h => ⟨_, h, sub_add_cancel _ _⟩
  passtochild x y a p := by
    simp only [rl_passtochild, mem_map]
    constructor
    · rintro ⟨q, hq, rfl⟩
      rwa [sub_add_cancel]
    · exact fun h => ⟨_, h, add_sub_cancel_right _ _⟩
  normalize a p := Iff.rfl
  coalesce a p := mem_dedup
  equal a b h p := by rw [of_decide_eq_true h]

/-! ## The partition -/

theorem rparent_of_origin (r : rect) (h : r.origin = 0) : rparent r = r := by
  cases r with
  | mk l t n m =>
    obtain ⟨rfl, rfl⟩ := Prod.ext_iff.mp h
    rfl

theorem eq_of_length_le_one {l : List α} (h : l.length ≤ 1) {a b : α} (ha : a ∈ l)
    (hb : b ∈ l) : a = b := by
  match l, h with
  | [], _ => exact absurd ha not_mem_nil
  | [c], _ => rw [List.mem_singleton.mp ha, List.mem_singleton.mp hb]

/-- A list that repeats nothing and has nothing but one name. -/
theorem length_le_one {l : List α} (hnd : l.Nodup) (h : ∀ a ∈ l, ∀ b ∈ l, a = b) :
    l.length ≤ 1 := by
  match l, hnd, h with
  | [], _, _ => exact Nat.zero_le 1
  | [_], _, _ => exact le_rfl
  | a :: b :: l, hnd, h =>
    have hab : a = b := h a (by simp) b (by simp)
    rw [nodup_cons] at hnd
    exact absurd (by simp [hab]) hnd.1

variable [Rectlist RL] {points : RL → point → Prop}

/-- Windows that are contained do not overlap and are found where they show. -/
theorem Tree.Contained.partitioned {t : Tree α RL} (hc : t.Contained) (hx : Exact RL points)
    (scr : rect) (hs : scr.origin = 0) (aff : RL) (hnd : (t.windows.map (·.addr)).Nodup)
    (h0 : t.win.w_rect.origin = 0) :
    Partitioned points t (wt_setclipping scr none t aff).1 aff := by
  have hshow := shows_setclipping hx scr hs t aff hnd
  refine ⟨?_, fun p hp w hw => ?_, repaired_root hx scr hs t aff⟩
  · have hne : ((wt_setclipping scr none t aff).1.windows.map (·.addr)).Nodup := by
      rwa [addrs_root]
    rw [List.Nodup, pairwise_map] at hne
    refine List.Pairwise.imp_of_mem (fun {v w} hv hw hvw p hp => hvw ?_) hne
    have hv' := (hshow v hv p).mp hp.1
    have hw' := (hshow w hw p).mp hp.2
    by_cases hr : rect_includespoint t.win.w_rect p
    · rw [if_pos hr] at hv' hw'
      have hv'' := hc.inside p hr _ hv'
      have hw'' := hc.inside p hr _ hw'
      rw [Pane.showing_unclip, mem_singleton] at hv'' hw''
      exact hv''.trans hw''.symm
    · rw [if_neg hr] at hv' hw'
      have hlen := hc.outside p (by simpa using hr)
      exact eq_of_length_le_one hlen hv' hw'
  · rw [hshow w hw p, if_pos hp, intersected_root scr hs t aff h0 p hp, Option.some.injEq]
    refine ⟨fun h => ?_, fun h => h ▸ ?_⟩
    · have hin := hc.inside p hp _ h
      rw [Pane.showing_unclip, mem_singleton] at hin
      exact hin.symm
    · refine Pane.top_mem_showing t.root p (t.pane_sound _) ?_
      rwa [Tree.root, Tree.pane_origin, h0, add_zero, Tree.pane_area]

/-- A partition is of windows that are contained. -/
theorem Partitioned.contained {t : Tree α RL} {aff : RL} {scr : rect}
    (h : Partitioned points t (wt_setclipping scr none t aff).1 aff) (hx : Exact RL points)
    (hs : scr.origin = 0) (hnd : (t.windows.map (·.addr)).Nodup)
    (h0 : t.win.w_rect.origin = 0) : t.Contained := by
  have hshow := shows_setclipping hx scr hs t aff hnd
  refine ⟨fun p hp a ha => ?_, fun p hp => ?_⟩
  · obtain ⟨w, hw, rfl⟩ := exists_window scr t aff (Pane.mem_names_of_showing _ _ ha)
    have hsw := (hshow w hw p).mpr (by rwa [if_pos hp])
    have hit := (h.topmost p hp w hw).mp hsw
    rw [intersected_root scr hs t aff h0 p hp, Option.some.injEq] at hit
    rw [Pane.showing_unclip, mem_singleton, hit]
  · refine length_le_one (nodup_children t hnd p) fun a ha b hb => ?_
    obtain ⟨v, hv, rfl⟩ := exists_window scr t aff (mem_names_of_children t ha)
    obtain ⟨w, hw, rfl⟩ := exists_window scr t aff (mem_names_of_children t hb)
    have hsv := (hshow v hv p).mpr (by rwa [if_neg (by simp [hp])])
    have hsw := (hshow w hw p).mpr (by rwa [if_neg (by simp [hp])])
    by_contra hne
    have hvw : v ≠ w := fun h => hne (h ▸ rfl)
    have hsym : Std.Symm fun v w : window α RL =>
        ∀ p, ¬(v.shows points p ∧ w.shows points p) := ⟨fun _ _ h p hp => h p hp.symm⟩
    exact h.disjoint.forall hv hw hvw p ⟨hsv, hsw⟩

omit [Rectlist RL] in
/-- **Where no rectangle has a negative size, all windows are contained.** -/
theorem Tree.contained_of_sized (t : Tree α RL) (h : ∀ w ∈ t.windows, w.w_rect.Sized)
    (h0 : t.win.w_rect.origin = 0) : t.Contained := by
  cases t with
  | mk w cs =>
    have htight := (Tree.mk w cs).pane_tight w.w_rect h
    refine ⟨fun p _ a ha => Pane.showing_subset _ p htight a ha, fun p hp => ?_⟩
    by_contra hlen
    simp only [Tree.win] at hp h0
    obtain ⟨a, l, ha⟩ := exists_cons_of_ne_nil (ne_nil_of_length_pos
      (Nat.lt_trans Nat.zero_lt_one (not_le.mp hlen)))
    obtain ⟨d, hd, hclip⟩ := clip_of_mem_showingIn _ p (ha ▸ mem_cons_self)
    obtain ⟨c, hc, rfl⟩ := mem_panes w.w_rect cs hd
    have hsized := h c.win (mem_cons_of_mem w (win_mem_windowsIn cs hc))
    rw [Tree.pane_clip] at hclip
    have hin := (rect_intersection_tight _ _ hsized (h w mem_cons_self) p hclip).1
    rw [rparent_of_origin w.w_rect h0, hp] at hin
    exact Bool.false_ne_true hin

/-- **Clipping partitions the screen if and only if no window shows a point by its clip alone.** -/
theorem partitioned_iff_contained (hx : Exact RL points) (scr : rect) (hs : scr.origin = 0)
    (t : Tree α RL) (aff : RL) (hnd : (t.windows.map (·.addr)).Nodup)
    (h0 : t.win.w_rect.origin = 0) :
    Partitioned points t (wt_setclipping scr none t aff).1 aff ↔ t.Contained :=
  ⟨fun h => h.contained hx hs hnd h0, fun h => h.partitioned hx scr hs aff hnd h0⟩

/-- A window with no clipping yet. -/
def freshwindow (a : ℕ) (r : rect) : window ℕ Cells where
  addr := a
  w_rect := r
  w_screenx := 0
  w_screeny := 0
  wf_dtopposchanged := false
  wf_previousdamaged := false
  w_clippingid := 0
  w_rlexposed := []
  w_rlexposedold := []
  w_rlfixup := []

/-- A screen with two windows that overlap, one of them wider than the screen. -/
def twowindows : Tree ℕ Cells :=
  .mk (freshwindow 0 ⟨0, 0, 4, 3⟩)
    [.mk (freshwindow 1 ⟨short (-1), 1, 9, 1⟩) [], .mk (freshwindow 2 ⟨2, 0, 1, 5⟩) []]

/-- The two windows partition their screen. -/
theorem partitioned_twowindows :
    Partitioned (fun (a : Cells) p => p ∈ a) twowindows
      (wt_setclipping ⟨0, 0, 4, 3⟩ none twowindows [(0, 0), (2, 1)]).1 [(0, 0), (2, 1)] :=
  (partitioned_iff_contained cells_exact ⟨0, 0, 4, 3⟩ rfl twowindows _ (by decide) rfl).mpr
    (twowindows.contained_of_sized (by decide) rfl)

/-- A window of a negative width, far off the left edge. -/
def farwindow : Tree ℕ Cells :=
  .mk (freshwindow 0 ⟨0, 0, 1152, 900⟩)
    [.mk (freshwindow 1 ⟨short (-20000), 0, short (-20000), 100⟩) []]

/-- `rect_intersection` makes it a rectangle of width 25536 on the screen, so that it and the root
both show the point 0 0. -/
theorem not_partitioned_farwindow :
    (farwindow.windows.map (·.addr)).Nodup ∧ farwindow.win.w_rect.origin = 0 ∧
      ¬Partitioned (fun (a : Cells) p => p ∈ a) farwindow
        (wt_setclipping ⟨0, 0, 1152, 900⟩ none farwindow []).1 [] := by
  have hnd : (farwindow.windows.map (·.addr)).Nodup := by decide
  refine ⟨hnd, rfl, fun h => ?_⟩
  have hc := h.contained cells_exact rfl hnd rfl
  exact absurd (hc.inside 0 (by decide) 1 (by decide)) (by decide)

end Sunwindow.Clipping
