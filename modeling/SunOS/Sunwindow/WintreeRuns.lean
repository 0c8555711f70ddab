/-
# Runs of window calls

In a good tree each installed window with a parent is on one list of children, that of its
parent, and both walks of the tree end.  Every run whose calls are as they should be leaves the
tree good; a window may be put under one of its own descendants otherwise.
-/
import SunOS.Lib.Run
import SunOS.Sunwindow.WintreeSteps
import Mathlib.Data.Finset.Card
import Mathlib.Data.Finset.Range

namespace Sunwindow

open List

variable {s : State} {w p c fuel : ℕ} {l : List ℕ} {NWIN NDTOP : ℕ}

/-! ## The walk down -/

/-- The loop over the children ends when the call for each of them does. -/
theorem wt_children_ends (enumerate : ℕ → Option (List ℕ))
    (hl : ∀ k a n, l = k ++ a :: n → s.link a .OLDERSIB = k.getLast?)
    (he : ∀ c ∈ l, ∃ x, enumerate c = some x) (hf : l.length ≤ fuel) :
    ∃ x, wt_children s enumerate fuel l.getLast? = some x := by
  induction l using List.reverseRecOn generalizing fuel with
  | nil =>
    cases fuel with
    | zero => exact ⟨[], rfl⟩
    | succ fuel => exact ⟨[], rfl⟩
  | append_singleton l c ih =>
    rw [length_append] at hf
    cases fuel with
    | zero => cases hf
    | succ fuel =>
      obtain ⟨x, hx⟩ := he c (by simp)
      obtain ⟨y, hy⟩ := ih (fun k a n heq => hl k a (n ++ [c]) (by rw [heq, append_assoc]; rfl))
        (fun b hb => he b (mem_append_left _ hb)) (Nat.le_of_succ_le_succ hf)
      refine ⟨x ++ y, ?_⟩
      rw [List.getLast?_append]
      show (enumerate c).bind (fun l => (wt_children s enumerate fuel (s.link c .OLDERSIB)).map
        (l ++ ·)) = _
      rw [hx, hl l c [] rfl, hy]
      rfl

/-- What holds of each member from some bound on holds of all of them from some bound on. -/
theorem exists_bound {P : ℕ → ℕ → Prop} (h : ∀ c ∈ l, ∃ n, ∀ m, n ≤ m → P c m) :
    ∃ n, ∀ c ∈ l, ∀ m, n ≤ m → P c m := by
  induction l with
  | nil => exact ⟨0, nofun⟩
  | cons b l ih =>
    obtain ⟨n1, h1⟩ := h b mem_cons_self
    obtain ⟨n2, h2⟩ := ih fun c hc => h c (mem_cons_of_mem _ hc)
    refine ⟨max n1 n2, fun c hc m hm => ?_⟩
    rcases List.mem_cons.mp hc with rfl | hc
    · exact h1 m (by omega)
    · exact h2 c hc m (by omega)

open Classical in
/-- The installed windows below `w`. -/
noncomputable def below (NWIN : ℕ) (s : State) (w : ℕ) : Finset ℕ :=
  (Finset.range NWIN).filter fun c =>
    s.installed c = true ∧ Relation.TransGen (IsParent (parentOf s)) c w

theorem mem_below (hg : Good NWIN s) : c ∈ below NWIN s w ↔
    s.installed c = true ∧ Relation.TransGen (IsParent (parentOf s)) c w := by
  classical
  unfold below
  rw [Finset.mem_filter, Finset.mem_range]
  exact ⟨fun h => h.2, fun h => ⟨hg.bounded c (hg.opened c h.1), h⟩⟩

/-- There is less below a child. -/
theorem below_card_lt (hg : Good NWIN s) (hc : s.installed c = true)
    (hp : s.link c .PARENT = some w) : (below NWIN s c).card < (below NWIN s w).card := by
  have hup : IsParent (parentOf s) c w := hp
  refine Finset.card_lt_card ⟨fun x hx => ?_, fun hsub => ?_⟩
  · rw [mem_below hg] at hx ⊢
    exact ⟨hx.1, hx.2.tail hup⟩
  · have hself := hsub ((mem_below hg).mpr ⟨hc, .single hup⟩)
    rw [mem_below hg] at hself
    obtain ⟨b, hcb, hbc⟩ := Relation.TransGen.head'_iff.mp hself.2
    exact (hg.rooted c hc).not_upward hcb hbc

/-- **`wt_enumeratechildren` ends.** -/
theorem wt_enumeratechildren_ends (hg : Good NWIN s) (w : ℕ) :
    ∃ n, ∀ m, n ≤ m → ∃ x, wt_enumeratechildren s m w = some x := by
  induction hn : (below NWIN s w).card using Nat.strong_induction_on generalizing w with
  | _ k ih =>
    obtain ⟨l, hl, hmem⟩ := hg.children w
    obtain ⟨n, hn'⟩ := exists_bound (l := l)
      (P := fun c m => ∃ x, wt_enumeratechildren s m c = some x) fun c hc => by
        obtain ⟨hi, hp⟩ := (hmem c).mp hc
        exact ih _ (hn ▸ below_card_lt hg hi hp) c rfl
    refine ⟨max n l.length + 1, fun m hm => ?_⟩
    obtain ⟨m, rfl⟩ : ∃ m', m = m' + 1 := ⟨m - 1, by omega⟩
    obtain ⟨x, hx⟩ := wt_children_ends (wt_enumeratechildren s m)
      (fun k a n heq => (hl.linked k a n heq).2) (fun c hc => hn' c hc m (by omega))
      (show l.length ≤ m by omega)
    refine ⟨w :: x, ?_⟩
    rw [wt_enumeratechildren, hl.youngest, hx]
    rfl

/-! ## The walk up -/

theorem wt_amongchildren_eq (hl : ∀ k a n, l = k ++ a :: n → s.link a .YOUNGERSIB = n.head?)
    (hf : l.length ≤ fuel) : wt_amongchildren s w fuel l.head? = some (decide (w ∈ l)) := by
  induction l generalizing fuel with
  | nil =>
    cases fuel with
    | zero => rfl
    | succ fuel => rfl
  | cons b l ih =>
    cases fuel with
    | zero => cases hf
    | succ fuel =>
      show (if w = b then some true else wt_amongchildren s w fuel (s.link b .YOUNGERSIB)) = _
      by_cases hwb : w = b
      · rw [if_pos hwb, hwb]
        simp
      · rw [if_neg hwb, hl [] b l rfl, ih (fun k a n heq => hl (b :: k) a n (by rw [heq]; rfl))
          (Nat.le_of_succ_le_succ hf)]
        simp [hwb]

/-- **`wt_isindisplaytree` ends.** -/
theorem wt_upward_ends (hg : Good NWIN s) (rootwin : Option ℕ) (w : ℕ) :
    ∃ n, ∀ m, n ≤ m → ∃ b, wt_upward s rootwin m w = some b := by
  -- from a window that is on the list of its parent one may go on
  have hstep : ∀ w, (∀ p, s.link w .PARENT = some p → s.installed w = true →
      ∃ n, ∀ m, n ≤ m → ∃ b, wt_upward s rootwin m p = some b) →
      ∃ n, ∀ m, n ≤ m → ∃ b, wt_upward s rootwin m w = some b := by
    intro w hup
    cases hp : s.link w .PARENT with
    | none =>
      refine ⟨1, fun m hm => ⟨decide (rootwin = some w), ?_⟩⟩
      obtain ⟨m, rfl⟩ : ∃ m', m = m' + 1 := ⟨m - 1, by lia⟩
      rw [wt_upward, hp]
    | some p =>
      obtain ⟨l, hl, hmem⟩ := hg.children p
      have hamong : ∀ m, l.length ≤ m →
          wt_amongchildren s w m (s.link p .OLDESTCHILD) = some (decide (w ∈ l)) := by
        intro m hm
        rw [hl.oldest]
        exact wt_amongchildren_eq (fun k a n heq => (hl.linked k a n heq).1) hm
      by_cases hw : w ∈ l
      · obtain ⟨n, hn⟩ := hup p hp ((hmem w).mp hw).1
        refine ⟨max n l.length + 1, fun m hm => ?_⟩
        obtain ⟨m, rfl⟩ : ∃ m', m = m' + 1 := ⟨m - 1, by lia⟩
        obtain ⟨b, hb⟩ := hn m (by lia)
        refine ⟨b, ?_⟩
        rw [wt_upward, hp]
        simp only [hamong m (by lia), decide_eq_true hw, Option.bind_some, if_true, hb]
      · refine ⟨l.length + 1, fun m hm => ⟨false, ?_⟩⟩
        obtain ⟨m, rfl⟩ : ∃ m', m = m' + 1 := ⟨m - 1, by lia⟩
        rw [wt_upward, hp]
        simp only [hamong m (by lia), decide_eq_false hw, Option.bind_some,
          if_neg Bool.false_ne_true]
  have hroot : ∀ w, Rooted (parentOf s) w →
      ∃ n, ∀ m, n ≤ m → ∃ b, wt_upward s rootwin m w = some b := by
    intro w hr
    induction hr with
    | intro w _ ih => exact hstep w fun p hp _ => ih p hp
  refine hstep w fun p hp hi => hroot p ?_
  exact (rooted_of_some (show parentOf s w = some p from hp)).mp (hg.rooted w hi)

/-! ## The invariant -/

/-- **The window tree is as it should be**: every list of children is finite, linked both ways
from the oldest to the youngest and of open, installed windows; an installed window with a parent
is on its list and on no other; going up from an installed window ends; and so do the walks. -/
structure TreeInvariant (s : State) : Prop where
  lists : ∀ p, ∃ l, Children s p l ∧ ∀ c ∈ l, s.isopen c = true ∧ s.installed c = true
  one : ∀ c p, s.installed c = true → s.link c .PARENT = some p →
    ∀ q l, Children s q l → (c ∈ l ↔ q = p)
  rooted : ∀ c, s.installed c = true → Rooted (parentOf s) c
  enumerates : ∀ w, ∃ fuel l, wt_enumeratechildren s fuel w = some l
  display : ∀ w, (s.windows w).w_desktop ≠ none → ∃ fuel b, wt_isindisplaytree s fuel w = some b

theorem Good.treeInvariant (hg : Good NWIN s) : TreeInvariant s where
  lists p := by
    obtain ⟨l, hl, hmem⟩ := hg.children p
    refine ⟨l, hl, fun c hc => ?_⟩
    have hi := ((hmem c).mp hc).1
    exact ⟨hg.opened c hi, hi⟩
  one c p hi hp q l hl := by
    obtain ⟨m, hm, hmem⟩ := hg.children q
    rw [hl.unique hm, hmem]
    constructor
    · rintro ⟨-, hq⟩
      rw [hp, Option.some.injEq] at hq
      exact hq.symm
    · rintro rfl
      exact ⟨hi, hp⟩
  rooted := hg.rooted
  enumerates w := by
    obtain ⟨n, hn⟩ := wt_enumeratechildren_ends hg w
    exact ⟨n, hn n (le_refl n)⟩
  display w hd := by
    cases hw : (s.windows w).w_desktop with
    | none => exact absurd hw hd
    | some d =>
      obtain ⟨n, hn⟩ := wt_upward_ends hg (s.desktops d).dt_rootwin w
      obtain ⟨b, hb⟩ := hn n (le_refl n)
      refine ⟨n, b, ?_⟩
      unfold wt_isindisplaytree
      rw [hw]
      exact hb

/-- **The window tree stays as it should be**, in every run whose calls are. -/
theorem treeInvariant_of_run {es : List Event}
    (h : Run (Guarded (Ok NWIN) (Step NWIN NDTOP)) init es s) : TreeInvariant s :=
  (Run.invariant (I := Good NWIN) (fun _ _ _ hg hstep => step_good hg hstep.1 hstep.2) h
    (zero_good _ _)).treeInvariant

/-! ## Two runs -/

/-- Window 0 is the root of a desktop, and windows 1 and 2 are open. -/
def threeWindows : State :=
  (winopen 64 2 false (winopen 64 1 false
    (winioctl_screennew 4 0 none (winopen 64 0 false init).1).1).1).1

/-- Window 1 has the root as its parent. -/
def oneParent : State := (winioctl_setlink 64 1 0 0 threeWindows).1

theorem run_threeWindows : Run (Guarded (Ok 64) (Step 64 4)) init
    [.winopen 0 false, .screennew 0 none, .winopen 1 false, .winopen 2 false] threeWindows :=
  .cons ⟨trivial, rfl⟩ (.cons ⟨fun _ _ => rfl, rfl, rfl⟩ (.cons ⟨trivial, rfl⟩
    (.cons ⟨trivial, rfl⟩ (.nil _))))

theorem treeInvariant_of_run_child : ∃ s, s.installed 1 = true ∧ TreeInvariant s := by
  obtain ⟨s, r, hs⟩ : ∃ s r, winioctl_insert 1 oneParent = some (s, r) := ⟨_, _, rfl⟩
  have hlink : Guarded (Ok 64) (Step 64 4) threeWindows (.setlink 1 0 0) oneParent := by
    refine ⟨fun k v h => ?_, rfl, rfl⟩
    have hk : k = .PARENT := (Option.some.inj (h.which.symm.trans rfl))
    have hv : v = some 0 := (Option.some.inj (h.link.symm.trans rfl))
    subst hk hv
    intro c _ _
    refine ⟨rooted_of_none rfl, fun hup => ?_⟩
    rcases Relation.ReflTransGen.cases_head hup with habs | ⟨p, hp, -⟩
    · cases habs
    · cases (show none = some p from hp)
  have hinsert : Guarded (Ok 64) (Step 64 4) oneParent (.insert 1) s := by
    refine ⟨fun p h => ?_, rfl, r, hs⟩
    have hroot : Rooted (parentOf oneParent) 1 :=
      (rooted_of_some (show parentOf oneParent 1 = some 0 from rfl)).mpr (rooted_of_none rfl)
    have hparent : some 0 = some p := h.parent
    cases hparent
    refine ⟨hroot, fun older younger _ ho => ?_⟩
    cases (show none = some older from ho)
  refine ⟨s, ?_, treeInvariant_of_run (run_threeWindows.append (.cons hlink (.cons hinsert
    (.nil _))))⟩
  cases hs
  rfl

/-- **A window becomes its own ancestor**: window 2 goes in under window 1, which is not in the
tree, and that then takes window 2 as its parent. -/
theorem not_treeInvariant_circle : ∃ s, Run (Step 64 4) init
    [.winopen 0 false, .screennew 0 none, .winopen 1 false, .winopen 2 false, .setlink 1 0 0,
      .setlink 2 0 1, .insert 2, .setlink 1 0 2] s ∧ ¬ TreeInvariant s := by
  obtain ⟨s, r, hs⟩ : ∃ s r, winioctl_insert 2 (winioctl_setlink 64 2 0 1 oneParent).1 =
      some (s, r) := ⟨_, _, rfl⟩
  have hopen : s.isopen 1 = true := by
    cases hs
    rfl
  have hstart : Run (Step 64 4) init
      [.winopen 0 false, .screennew 0 none, .winopen 1 false, .winopen 2 false] threeWindows :=
    run_threeWindows.mono fun _ _ _ h => h.2
  refine ⟨(winioctl_setlink 64 1 0 2 s).1, hstart.append (.cons ⟨rfl, rfl⟩ (.cons ⟨rfl, rfl⟩
    (.cons ⟨rfl, r, hs⟩ (.cons ⟨hopen, rfl⟩ (.nil _))))), fun hinv => ?_⟩
  cases hs
  refine (hinv.rooted 2 rfl).not_upward (p := 1) rfl ?_
  exact Relation.ReflTransGen.single rfl

end Sunwindow
