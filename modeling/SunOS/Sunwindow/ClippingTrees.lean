/-
# Clipping, down the tree

What `wt_setclipping` leaves in the windows of a tree, by induction on the tree: the list of a
window holds the points that its pane shows, what was affected and is newly exposed is in
`w_rlfixup`, and `wt_intersected` finds the pane that is hit.
-/
import Mathlib.Data.List.Forall2
import SunOS.Sunwindow.ClippingPanes

namespace Sunwindow.Clipping

open List
open Rectlist Painter

variable {α RL : Type*} [Rectlist RL]

/-! ## Equations -/

theorem setclipping_child (scr : rect) (up : Above α RL) (w : window α RL)
    (cs : List (Tree α RL)) (aff : RL) :
    wt_setclipping scr (some up) (.mk w cs) aff =
      let w' := clip_child up w aff
      let cs' := clip_children scr w'.1 true cs w'.2.2
      (.mk (clip_finish (rects cs) w'.1 w'.2.1) cs'.1, cs'.2) := by
  rw [wt_setclipping]

theorem setclipping_root (scr : rect) (w : window α RL) (cs : List (Tree α RL)) (aff : RL) :
    wt_setclipping scr none (.mk w cs) aff =
      let w' := clip_root scr w aff
      let cs' := clip_children scr w'.1 false cs aff
      (.mk (clip_finish (rects cs) w'.1 w'.2) cs'.1, cs'.2) := by
  rw [wt_setclipping]

theorem clip_children_cons (scr : rect) (parent : window α RL) (g : Bool) (c : Tree α RL)
    (cs : List (Tree α RL)) (aff : RL) :
    clip_children scr parent g (c :: cs) aff =
      let c' := wt_setclipping scr (some ⟨parent, g, rects cs⟩) c
        (rl_passtochild c.win.w_rect.r_left c.win.w_rect.r_top aff)
      let cs' := clip_children scr parent g cs
        (rl_passtoparent c.win.w_rect.r_left c.win.w_rect.r_top c'.2)
      (c'.1 :: cs'.1, cs'.2) := by
  rw [clip_children]

mutual
theorem addrs_setclipping (scr : rect) (up : Above α RL) :
    ∀ (c : Tree α RL) (aff : RL),
      (wt_setclipping scr (some up) c aff).1.windows.map (·.addr) = c.windows.map (·.addr)
  | .mk w cs, aff => by
    rw [setclipping_child]
    simp only [Tree.windows, map_cons, addrs_clip_children scr _ true cs]
    rw [(clip_finish_same _ _ _).addr]
    rfl

theorem addrs_clip_children (scr : rect) (parent : window α RL) (g : Bool) :
    ∀ (cs : List (Tree α RL)) (aff : RL),
      (windowsIn (clip_children scr parent g cs aff).1).map (·.addr) =
        (windowsIn cs).map (·.addr)
  | [], _ => rfl
  | c :: cs, aff => by
    rw [clip_children_cons]
    simp only [windowsIn, map_append, addrs_setclipping scr _ c,
      addrs_clip_children scr parent g cs]
end

/-- The screen position of a child's plane. -/
theorem clip_child_screen (up : Above α RL) (w : window α RL) (aff : RL) :
    (clip_child up w aff).1.screen = up.parent.screen + w.w_rect.origin := rfl

/-- The addresses of a whole tree are as they were. -/
theorem addrs_root (scr : rect) (t : Tree α RL) (aff : RL) :
    (wt_setclipping scr none t aff).1.windows.map (·.addr) = t.windows.map (·.addr) := by
  cases t with
  | mk w cs =>
    rw [setclipping_root]
    simp only [Tree.windows, map_cons, addrs_clip_children scr _ false cs]
    rw [(clip_finish_same _ _ _).addr]
    rfl

section lists

variable {points : RL → point → Prop}

/-! ## Exposed -/

mutual
/-- **A window shows a point where its pane does**, for a child and what is below it. -/
theorem shows_child (hx : Exact RL points) (scr : rect) :
    ∀ (c : Tree α RL) (up : Above α RL) (aff : RL), (c.windows.map (·.addr)).Nodup →
      ∀ w ∈ (wt_setclipping scr (some up) c aff).1.windows, ∀ p,
        w.shows points (p + up.parent.screen) ↔
          ((up.grandparent → points up.parent.w_rlexposed p) ∧
            (c.pane up.parent.w_rect).clip p ∧
            up.covering.any (rect_includespoint · p) = false) ∧
          w.addr ∈ (c.pane up.parent.w_rect).showing (p - c.win.w_rect.origin)
  | .mk w cs, up, aff, hnd, v, hv, p => by
    rw [Tree.windows, map_cons, nodup_cons] at hnd
    obtain ⟨hw, hcs⟩ := hnd
    rw [setclipping_child] at hv
    simp only [Tree.windows, mem_cons] at hv
    have hpre := points_clip_child hx up w aff p
    have hplace : p + up.parent.screen - (clip_child up w aff).1.screen = p - w.w_rect.origin := by
      rw [clip_child_screen, add_comm p, add_sub_add_left_eq_sub]
    have hwin : (Tree.mk w cs).win.w_rect = w.w_rect := rfl
    rw [Tree.pane_clip, hwin, Tree.pane, Pane.showing, mem_append, covered_panes]
    rcases hv with rfl | hv
    · have hsame := clip_finish_same (rects cs) (clip_child up w aff).1 (clip_child up w aff).2.1
      have hnot : w.addr ∉ showingIn (panes w.w_rect cs) (p - w.w_rect.origin) := fun h =>
        hw (panes_names w.w_rect cs ▸ mem_namesIn_of_showingIn _ _ h)
      have haddr : (clip_finish (rects cs) (clip_child up w aff).1
          (clip_child up w aff).2.1).addr = w.addr := hsame.addr
      have hscreen : (clip_finish (rects cs) (clip_child up w aff).1
          (clip_child up w aff).2.1).screen = (clip_child up w aff).1.screen := hsame.screen
      rw [window.shows, hscreen, hplace, points_clip_finish hx, hpre, haddr]
      by_cases hc : (rects cs).any (rect_includespoint · (p - w.w_rect.origin))
      · simp [hc, hnot]
      · simp [hc, hnot]
    · have hin := shows_children hx scr cs (clip_child up w aff).1 true _ hcs v hv
        (p - w.w_rect.origin)
      have haddr : v.addr ∈ (windowsIn cs).map (·.addr) := by
        rw [← addrs_clip_children scr (clip_child up w aff).1 true cs]
        exact mem_map_of_mem hv
      have hne : v.addr ∉ (if (rects cs).any (rect_includespoint · (p - w.w_rect.origin)) then []
          else [w.addr]) := by
        split
        · exact not_mem_nil
        · rw [mem_singleton]
          exact fun h => hw (h ▸ haddr)
      have hmove : p - w.w_rect.origin + (clip_child up w aff).1.screen =
          p + up.parent.screen := by
        rw [clip_child_screen, add_comm up.parent.screen, ← add_assoc, sub_add_cancel]
      rw [hmove] at hin
      rw [hin, or_iff_right hne, ← hpre]
      exact and_congr_left fun _ => ⟨fun h => h rfl, fun h _ => h⟩

/-- The same for the children of a window. -/
theorem shows_children (hx : Exact RL points) (scr : rect) :
    ∀ (cs : List (Tree α RL)) (parent : window α RL) (g : Bool) (aff : RL),
      ((windowsIn cs).map (·.addr)).Nodup →
      ∀ w ∈ windowsIn (clip_children scr parent g cs aff).1, ∀ p,
        w.shows points (p + parent.screen) ↔
          (g → points parent.w_rlexposed p) ∧ w.addr ∈ showingIn (panes parent.w_rect cs) p
  | [], _, _, _, _, w, hw, _ => by simp [clip_children, windowsIn] at hw
  | c :: cs, parent, g, aff, hnd, w, hw, p => by
    rw [windowsIn, map_append, List.nodup_append'] at hnd
    obtain ⟨hc, hcs, hd⟩ := hnd
    rw [clip_children_cons] at hw
    simp only [windowsIn, mem_append] at hw
    rw [panes, showingIn, mem_append, covered_panes, Tree.pane_origin]
    rcases hw with hw | hw
    · have hin := shows_child hx scr c ⟨parent, g, rects cs⟩ _ hc w hw p
      have haddr : w.addr ∈ c.windows.map (·.addr) := by
        rw [← addrs_setclipping scr ⟨parent, g, rects cs⟩ c]
        exact mem_map_of_mem hw
      have hnot : w.addr ∉ showingIn (panes parent.w_rect cs) p := fun h =>
        hd haddr (panes_names parent.w_rect cs ▸ mem_namesIn_of_showingIn _ _ h)
      rw [hin, or_iff_left hnot, and_assoc]
      refine and_congr_right fun _ => ?_
      by_cases hk : (c.pane parent.w_rect).clip p <;>
        by_cases hcov : (rects cs).any (rect_includespoint · p) <;> simp [hk, hcov]
    · have hin := shows_children hx scr cs parent g _ hcs w hw p
      have haddr : w.addr ∈ (windowsIn cs).map (·.addr) := by
        rw [← addrs_clip_children scr parent g cs]
        exact mem_map_of_mem hw
      have hnot : w.addr ∉ (if ((c.pane parent.w_rect).clip p &&
          !(rects cs).any (rect_includespoint · p)) = true then
          (c.pane parent.w_rect).showing (p - c.win.w_rect.origin) else []) := by
        split
        · exact fun h => hd (Tree.pane_names parent.w_rect c ▸
            Pane.mem_names_of_showing _ _ h) haddr
        · exact not_mem_nil
      rw [hin, or_iff_right hnot]
end

/-- The root shows a point of its rectangle that no child covers. -/
theorem shows_root (hx : Exact RL points) (scr : rect) (w : window α RL) (cs : List (Tree α RL))
    (aff : RL) (hnd : ((Tree.mk w cs).windows.map (·.addr)).Nodup) :
    ∀ v ∈ (wt_setclipping scr none (.mk w cs) aff).1.windows, ∀ p,
      v.shows points (p + scr.origin) ↔
        v.addr ∈ (if rect_includespoint w.w_rect p && !(rects cs).any (rect_includespoint · p)
          then [w.addr] else []) ++ showingIn (panes w.w_rect cs) p := by
  intro v hv p
  rw [Tree.windows, map_cons, nodup_cons] at hnd
  obtain ⟨hw, hcs⟩ := hnd
  rw [setclipping_root] at hv
  simp only [Tree.windows, mem_cons] at hv
  rw [mem_append]
  rcases hv with rfl | hv
  · have hsame := clip_finish_same (rects cs) (clip_root scr w aff).1 (clip_root scr w aff).2
    have hnot : w.addr ∉ showingIn (panes w.w_rect cs) p := fun h =>
      hw (panes_names w.w_rect cs ▸ mem_namesIn_of_showingIn _ _ h)
    have haddr : (clip_finish (rects cs) (clip_root scr w aff).1
        (clip_root scr w aff).2).addr = w.addr := hsame.addr
    have hscreen : (clip_finish (rects cs) (clip_root scr w aff).1
        (clip_root scr w aff).2).screen = scr.origin := hsame.screen
    rw [window.shows, hscreen, add_sub_cancel_right, points_clip_finish hx, haddr,
      or_iff_left hnot]
    simp only [clip_root, hx.normalize, hx.initwithrect]
    by_cases hr : rect_includespoint w.w_rect p <;>
      by_cases hc : (rects cs).any (rect_includespoint · p) <;> simp [hr, hc]
  · have hin := shows_children hx scr cs (clip_root scr w aff).1 false aff hcs v hv p
    have haddr : v.addr ∈ (windowsIn cs).map (·.addr) := by
      rw [← addrs_clip_children scr (clip_root scr w aff).1 false cs aff]
      exact mem_map_of_mem hv
    have hne : v.addr ∉ (if (rect_includespoint w.w_rect p &&
        !(rects cs).any (rect_includespoint · p)) = true then [w.addr] else []) := by
      split
      · rw [mem_singleton]
        exact fun h => hw (h ▸ haddr)
      · exact not_mem_nil
    have hscreen : (clip_root scr w aff).1.screen = scr.origin := rfl
    rw [hscreen] at hin
    rw [hin, or_iff_right hne]
    exact ⟨fun h => h.2, fun h => ⟨nofun, h⟩⟩

/-! ## What is affected -/

mutual
/-- What is affected comes back as it was. -/
theorem affected_child (hx : Exact RL points) (scr : rect) :
    ∀ (c : Tree α RL) (up : Above α RL) (aff : RL) (p : point),
      points (wt_setclipping scr (some up) c aff).2 p ↔ points aff p
  | .mk w cs, up, aff, p => by
    rw [setclipping_child]
    rw [affected_children hx scr cs, points_clip_child_affected hx]

/-- The same for the children of a window. -/
theorem affected_children (hx : Exact RL points) (scr : rect) :
    ∀ (cs : List (Tree α RL)) (parent : window α RL) (g : Bool) (aff : RL) (p : point),
      points (clip_children scr parent g cs aff).2 p ↔ points aff p
  | [], _, _, _, _ => by rw [clip_children]
  | c :: cs, parent, g, aff, p => by
    rw [clip_children_cons]
    rw [affected_children hx scr cs, hx.passtoparent, affected_child hx scr c, hx.passtochild,
      sub_add_cancel]
end

/-! ## What is to be repaired -/

/-- The window `v` before and the window `w` after, where `aff` is what is affected: what is to be
repaired is exposed, and takes in what is affected and newly exposed. -/
structure Repaired (points : RL → point → Prop) (aff : point → Prop) (v w : window α RL) :
    Prop where
  addr : v.addr = w.addr
  fixup_le : ∀ p, points w.w_rlfixup p → points w.w_rlexposed p
  covers : ∀ p, aff p → w.shows points p →
    v.wf_dtopposchanged = true ∨ ¬points v.w_rlexposed (p - w.screen) →
    points w.w_rlfixup (p - w.screen)

/-- One window, from what the start leaves in it and in `rlfix`. -/
theorem repaired_finish (hx : Exact RL points) (aff : point → Prop)
    (v w : window α RL) (rs : List rect) (rlfix : RL) (ha : v.addr = w.addr)
    (hold : w.w_rlexposedold = v.w_rlexposed)
    (hflag : w.wf_dtopposchanged = v.wf_dtopposchanged)
    (hfix : ∀ p, aff (p + w.screen) → points w.w_rlexposed p → points rlfix p) :
    Repaired points aff v (clip_finish rs w rlfix) := by
  have hsame := clip_finish_same rs w rlfix
  have hscreen : (clip_finish rs w rlfix).screen = w.screen := hsame.screen
  refine ⟨ha.trans hsame.addr.symm, fun p hp => ?_, fun p hp hs hnew => ?_⟩
  · rw [points_clip_finish_fixup hx] at hp
    rw [hsame.exposed]
    exact points_fix_up_le hx _ _ p hp
  · rw [window.shows, hscreen] at hs
    rw [hscreen] at hnew ⊢
    rw [points_clip_finish_fixup hx]
    rw [hsame.exposed] at hs
    have hpre : points w.w_rlexposed (p - w.screen) := by
      rw [clip_exposed, hx.coalesce, points_removerects hx] at hs
      exact hs.1
    refine points_fix_up hx _ _ _ (hfix _ ?_ hpre) ?_ hs
    · rwa [sub_add_cancel]
    · rw [← hflag, ← hold] at hnew
      exact hnew

mutual
/-- What is to be repaired in a child and below it. -/
theorem repaired_child (hx : Exact RL points) (scr : rect) (A : point → Prop) :
    ∀ (c : Tree α RL) (up : Above α RL) (aff : RL),
      (∀ p, points aff p ↔ A (p + (up.parent.screen + c.win.w_rect.origin))) →
      List.Forall₂ (Repaired points A) c.windows
        (wt_setclipping scr (some up) c aff).1.windows
  | .mk w cs, up, aff, ha => by
    rw [setclipping_child]
    refine List.Forall₂.cons ?_ ?_
    · refine repaired_finish hx A w _ (rects cs) _ rfl rfl rfl fun p hp he => ?_
      exact points_clip_child_fix hx up w aff p ((ha p).mpr hp) he
    · refine repaired_children hx scr A cs _ true _ fun p => ?_
      rw [points_clip_child_affected hx]
      exact ha p

/-- The same for the children of a window. -/
theorem repaired_children (hx : Exact RL points) (scr : rect) (A : point → Prop) :
    ∀ (cs : List (Tree α RL)) (parent : window α RL) (g : Bool) (aff : RL),
      (∀ p, points aff p ↔ A (p + parent.screen)) →
      List.Forall₂ (Repaired points A) (windowsIn cs)
        (windowsIn (clip_children scr parent g cs aff).1)
  | [], _, _, _, _ => by
    rw [clip_children, windowsIn]
    exact List.Forall₂.nil
  | c :: cs, parent, g, aff, ha => by
    rw [clip_children_cons]
    refine rel_append ?_ ?_
    · refine repaired_child hx scr A c ⟨parent, g, rects cs⟩ _ fun p => ?_
      rw [hx.passtochild, ha]
      exact iff_of_eq (congrArg A (by
        rw [add_assoc, add_comm parent.screen]
        rfl))
    · refine repaired_children hx scr A cs parent g _ fun p => ?_
      rw [hx.passtoparent, affected_child hx, hx.passtochild, sub_add_cancel]
      exact ha p
end

/-- What is to be repaired in a whole tree. -/
theorem repaired_root (hx : Exact RL points) (scr : rect) (hs : scr.origin = 0) (t : Tree α RL)
    (aff : RL) : List.Forall₂ (Repaired points (points aff)) t.windows
      (wt_setclipping scr none t aff).1.windows := by
  cases t with
  | mk w cs =>
    have hscreen : (clip_root scr w aff).1.screen = 0 := hs
    rw [setclipping_root]
    refine List.Forall₂.cons ?_ ?_
    · refine repaired_finish hx _ w _ (rects cs) _ rfl rfl rfl fun p hp _ => ?_
      rw [hscreen, add_zero] at hp
      exact (hx.normalize aff p).mpr hp
    · refine repaired_children hx scr _ cs _ false aff fun p => ?_
      rw [hscreen, add_zero]

end lists

/-! ## wt_intersected -/

/-- The window's rectangle on the screen, where `wt_intersected` looks. -/
def window.onscreen (w : window α RL) : rect :=
  { w.w_rect with r_left := w.w_screenx, r_top := w.w_screeny }

omit [Rectlist RL] in
/-- A child's rectangle may be looked up in its parent's plane. -/
theorem onscreen_shift (parent : window α RL) (r : rect) (p : point) (hx : 0 ≤ p.1.toInt)
    (hy : 0 ≤ p.2.toInt) (hp : rect_includespoint parent.onscreen p) :
    rect_includespoint
        { r with
          r_left := parent.w_screenx + r.r_left
          r_top := parent.w_screeny + r.r_top } p =
      rect_includespoint r (p - parent.screen) := by
  rw [mem_rect] at hp
  have h1 := span_includes_shift _ r.r_left r.r_width _ _ hx hp.1
  have h2 := span_includes_shift _ r.r_top r.r_height _ _ hy hp.2
  rw [rect_includespoint, rect_includespoint]
  exact congrArg₂ and h1 h2

omit [Rectlist RL] in
theorem SameClip.onscreen {v w : window α RL} (h : SameClip v w) : v.onscreen = w.onscreen := by
  have hs := h.screen
  simp only [window.screen, Prod.mk.injEq] at hs
  rw [window.onscreen, window.onscreen, h.rect, hs.1, hs.2]

omit [Rectlist RL] in
/-- One window of `wt_intersected`: the child that is found, or the window. -/
theorem intersected_mk (w : window α RL) (cs : List (Tree α RL)) (p : point) :
    wt_intersected (.mk w cs) p =
      if rect_includespoint w.onscreen p then some ((intersected_child cs p).getD w.addr)
      else none := by
  rw [wt_intersected]
  change (if (!rect_includespoint w.onscreen p) = true then _ else _) = _
  by_cases h : rect_includespoint w.onscreen p
  · rw [if_neg (by simp [h]), if_pos h]
    cases intersected_child cs p <;> rfl
  · rw [if_pos (by simp [h]), if_neg h]

mutual
/-- **`wt_intersected` finds the pane that is hit**, for a child and what is below it. -/
theorem intersected_setclipping (scr : rect) (p : point) (hx : 0 ≤ p.1.toInt)
    (hy : 0 ≤ p.2.toInt) :
    ∀ (c : Tree α RL) (up : Above α RL) (aff : RL),
      rect_includespoint up.parent.onscreen p →
      wt_intersected (wt_setclipping scr (some up) c aff).1 p =
        if rect_includespoint c.win.w_rect (p - up.parent.screen) then
          some ((c.pane up.parent.w_rect).top (p - up.parent.screen - c.win.w_rect.origin))
        else none
  | .mk w cs, up, aff, hp => by
    have hsame := clip_finish_same (rects cs) (clip_child up w aff).1 (clip_child up w aff).2.1
    have haddr : (clip_finish (rects cs) (clip_child up w aff).1
        (clip_child up w aff).2.1).addr = w.addr := hsame.addr
    have hon : (clip_finish (rects cs) (clip_child up w aff).1
        (clip_child up w aff).2.1).onscreen = (clip_child up w aff).1.onscreen := hsame.onscreen
    have hlook : rect_includespoint (clip_child up w aff).1.onscreen p =
        rect_includespoint w.w_rect (p - up.parent.screen) :=
      onscreen_shift up.parent w.w_rect p hx hy hp
    have hwin : (Tree.mk w cs).win.w_rect = w.w_rect := rfl
    rw [setclipping_child, intersected_mk, haddr, hon, hlook, hwin]
    by_cases h : rect_includespoint w.w_rect (p - up.parent.screen)
    · have hin := intersected_clip_children scr p hx hy cs (clip_child up w aff).1 true
        (clip_child up w aff).2.2 (by rw [hlook, h])
      rw [clip_child_screen, ← sub_sub] at hin
      rw [if_pos h, if_pos h, hin, Tree.pane, Pane.top]
      rfl
    · rw [if_neg h, if_neg h]

/-- The same for the children of a window. -/
theorem intersected_clip_children (scr : rect) (p : point) (hx : 0 ≤ p.1.toInt)
    (hy : 0 ≤ p.2.toInt) :
    ∀ (cs : List (Tree α RL)) (parent : window α RL) (g : Bool) (aff : RL),
      rect_includespoint parent.onscreen p →
      intersected_child (clip_children scr parent g cs aff).1 p =
        topIn (panes parent.w_rect cs) (p - parent.screen)
  | [], _, _, _, _ => by rw [clip_children, intersected_child, panes, topIn]
  | c :: cs, parent, g, aff, hp => by
    rw [clip_children_cons]
    rw [intersected_child, panes, topIn, intersected_clip_children scr p hx hy cs parent g _ hp,
      intersected_setclipping scr p hx hy c ⟨parent, g, rects cs⟩ _ hp, Tree.pane_area,
      Tree.pane_origin]
    cases topIn (panes parent.w_rect cs) (p - parent.screen) with
    | some b => rfl
    | none => rw [Option.none_or]
end

end Sunwindow.Clipping
