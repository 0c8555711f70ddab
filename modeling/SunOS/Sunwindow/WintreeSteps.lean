/-
# What each call does to the tree

Calls that go wrong are those that change the links to the children of a window by hand, that
close a circle of parents, that put a window between the children of another parent, and that
close a window whose desktop has gone.  Every other call keeps the tree good.
-/
import SunOS.Sunwindow.WintreeLists

namespace Sunwindow

variable {s s' : State} {w p c d : ℕ} {k : WL} {v : Option ℕ} {l : List ℕ} {NWIN NDTOP : ℕ}
  {wl_which wl_link : ℤ}

@[simp] theorem link_setwindow (y : ℕ) (x : window) :
    (s.setwindow w x).link y k = if y = w then x.w_link k else s.link y k := by
  unfold State.link State.setwindow
  by_cases hy : y = w
  · subst hy
    simp
  · simp [hy]

@[simp] theorem installed_setwindow (y : ℕ) (x : window) :
    (s.setwindow w x).installed y = if y = w then x.wf_installed else s.installed y := by
  unfold State.installed State.setwindow
  by_cases hy : y = w
  · subst hy
    simp
  · simp [hy]

@[simp] theorem isopen_setwindow (y : ℕ) (x : window) :
    (s.setwindow w x).isopen y = if y = w then x.wf_open else s.isopen y := by
  unfold State.isopen State.setwindow
  by_cases hy : y = w
  · subst hy
    simp
  · simp [hy]

/-- The other data of a window do not matter. -/
theorem Good.setwindow {x : window} (hg : Good NWIN s) (hl : ∀ k, x.w_link k = s.link w k)
    (hi : x.wf_installed = s.installed w) (ho : x.wf_open = s.isopen w) :
    Good NWIN (s.setwindow w x) := by
  have hopen : ∀ y, (s.setwindow w x).isopen y = s.isopen y := by
    intro y
    rw [isopen_setwindow]
    by_cases hy : y = w
    · rw [if_pos hy, ho, hy]
    · rw [if_neg hy]
  refine hg.of_links (fun y k => ?_) (fun y => ?_) (fun y hy => ?_) (fun y hy => ?_)
  · rw [link_setwindow]
    by_cases hy : y = w
    · rw [if_pos hy, hl, hy]
    · rw [if_neg hy]
  · rw [installed_setwindow]
    by_cases hy : y = w
    · rw [if_pos hy, hi, hy]
    · rw [if_neg hy]
  · rwa [hopen]
  · rw [hopen] at hy
    exact hg.bounded y hy

/-! ## The conditions -/

/-- `WINSETLINK` sets the link `k` of the window to `v`. -/
structure SetsLink (NWIN : ℕ) (s : State) (w : ℕ) (wl_which wl_link : ℤ) (k : WL)
    (v : Option ℕ) : Prop where
  dtop : ∀ d, (s.windows w).w_desktop = some d → (s.desktops d).shared_info = true
  which : WL.decode wl_which = some k
  link : wt_numbertowindow NWIN s wl_link = some v
  free : s.installed w = false
  other : v ≠ some w

/-- The links to the children stay, and the new parent of a window above an installed one is not
below it, nor below a circle. -/
def LinkOk (s : State) (w : ℕ) : WL → Option ℕ → Prop
  | .PARENT, some p => ∀ c, s.installed c = true → Upward (parentOf s) c w →
      Rooted (parentOf s) p ∧ ¬ Upward (parentOf s) p w
  | .OLDESTCHILD, v => s.link w .OLDESTCHILD = v
  | .YOUNGESTCHILD, v => s.link w .YOUNGESTCHILD = v
  | _, _ => True

/-- `WININSERT` puts the window in as a child of `p`. -/
structure Inserts (s : State) (w p : ℕ) : Prop where
  dtop : ∃ d, winioctl_dtop s w = .inr d ∧ (s.desktops d).dtf_exiting = false
  free : s.installed w = false
  children : wt_badchildren s w = false
  parent : s.link w .PARENT = some p

/-- There is no circle above the window, and siblings that it asks for and gets are children of
its parent. -/
structure InsertOk (s : State) (w p : ℕ) : Prop where
  rooted : Rooted (parentOf s) w
  siblings : ∀ older younger, s.link p .OLDESTCHILD ≠ none → s.link w .OLDERSIB = some older →
    s.link w .YOUNGERSIB = some younger → wt_badsiblings s older younger = false →
    s.link older .PARENT = some p

/-- **A call that keeps the tree good.** -/
def Ok (NWIN : ℕ) (s : State) : Event → Prop
  | .winopen _ _ => True
  | .setlink w which link => ∀ k v, SetsLink NWIN s w which link k v → LinkOk s w k v
  | .insert w => ∀ p, Inserts s w p → InsertOk s w p
  | .remove _ => True
  | .screennew w openfb => openfb = none → s.installed w = false → s.link w .PARENT = none
  | .winclose w => s.installed w = true → s.link w .PARENT ≠ none → dtop_present s w ≠ none

/-! ## Opening -/

theorem winopen_good (excl : Bool) (hg : Good NWIN s) : Good NWIN (winopen NWIN w excl s).1 := by
  unfold winopen
  by_cases hn : NWIN ≤ w
  · rwa [if_pos hn]
  · rw [if_neg hn]
    by_cases he : (excl && s.isopen w) = true
    · rwa [if_pos he]
    · rw [if_neg he]
      by_cases ho : s.isopen w = true
      · rwa [if_pos ho]
      · rw [if_neg ho]
        have hi : s.installed w = false := by
          by_contra hi
          exact ho (hg.opened w (Bool.of_not_eq_false hi))
        refine hg.of_links (fun y k => ?_) (fun y => ?_) (fun y hy => ?_) (fun y hy => ?_)
        · refine (link_setwindow (s := s) y _).trans ?_
          by_cases hyw : y = w
          · rw [if_pos hyw, hyw]
            rfl
          · rw [if_neg hyw]
        · refine (installed_setwindow (s := s) y _).trans ?_
          by_cases hyw : y = w
          · rw [if_pos hyw, hyw, hi]
          · rw [if_neg hyw]
        · refine (isopen_setwindow (s := s) y _).trans ?_
          by_cases hyw : y = w
          · rw [if_pos hyw]
          · rw [if_neg hyw, hy]
        · have hy' := (isopen_setwindow (s := s) y _).symm.trans hy
          by_cases hyw : y = w
          · omega
          · rw [if_neg hyw] at hy'
            exact hg.bounded y hy'

/-! ## Links -/

/-- **A link is set** by hand. -/
theorem setlink_good (hg : Good NWIN s) (hw : s.installed w = false) (hok : LinkOk s w k v) :
    Good NWIN (s.setlink w k v) := by
  have hnot : ∀ p l, Children s p l →
      (∀ c, c ∈ l ↔ s.installed c = true ∧ s.link c .PARENT = some p) → w ∉ l := by
    intro p l _ hmem hwl
    rw [hmem, hw] at hwl
    cases hwl.1
  have hsame : ∀ y j, (y ≠ w ∨ j ≠ k) → (s.setlink w k v).link y j = s.link y j := by
    intro y j hne
    rw [link_setlink, if_neg]
    tauto
  have hstay : ∀ j, j ≠ .PARENT → j ≠ .OLDERSIB → j ≠ .YOUNGERSIB → ∀ y,
      (s.setlink w k v).link y j = s.link y j := by
    intro j h1 h2 h3 y
    rw [link_setlink]
    by_cases hyk : y = w ∧ j = k
    · obtain ⟨rfl, rfl⟩ := hyk
      rw [if_pos ⟨rfl, rfl⟩]
      cases j with
      | PARENT => exact absurd rfl h1
      | OLDERSIB => exact absurd rfl h2
      | YOUNGERSIB => exact absurd rfl h3
      | OLDESTCHILD => exact hok.symm
      | YOUNGESTCHILD => exact hok.symm
    · rw [if_neg hyk]
  refine ⟨fun p => ?_, fun c hc => ?_, fun c hc => ?_, fun c hc => ?_⟩
  · obtain ⟨l, hl, hmem⟩ := hg.children p
    have hwl := hnot p l hl hmem
    have hne : ∀ c ∈ l, c ≠ w := by
      rintro c hc rfl
      exact hwl hc
    refine ⟨l, hl.congr (fun c hc => hsame c _ (.inl (hne c hc)))
      (fun c hc => hsame c _ (.inl (hne c hc))) (hstay .OLDESTCHILD nofun nofun nofun p)
      (hstay .YOUNGESTCHILD nofun nofun nofun p), fun c => ?_⟩
    rw [hmem, installed_setlink]
    by_cases hc : c = w
    · subst hc
      rw [hw]
      simp
    · rw [hsame c _ (.inl hc)]
  · rw [isopen_setlink]
    rw [installed_setlink] at hc
    exact hg.opened c hc
  · rw [isopen_setlink] at hc
    exact hg.bounded c hc
  · rw [installed_setlink] at hc
    by_cases hk : k = .PARENT
    · subst hk
      have hup : parentOf (s.setlink w .PARENT v) = Function.update (parentOf s) w v := by
        funext y
        unfold parentOf
        rw [link_setlink]
        by_cases hy : y = w
        · subst hy
          simp
        · simp [hy]
      rw [hup]
      refine (hg.rooted c hc).relink fun p hp hcw => ?_
      subst hp
      exact hok c hc hcw
    · have hup : parentOf (s.setlink w k v) = parentOf s :=
        funext fun y => hsame y _ (.inr (Ne.symm hk))
      rw [hup]
      exact hg.rooted c hc

theorem winsetlink_good (hg : Good NWIN s)
    (hok : ∀ k v, WL.decode wl_which = some k → wt_numbertowindow NWIN s wl_link = some v →
      s.installed w = false → v ≠ some w → LinkOk s w k v) :
    Good NWIN (winsetlink NWIN w wl_which wl_link s).1 := by
  unfold winsetlink
  cases hk : WL.decode wl_which with
  | none => exact hg
  | some k =>
    cases hv : wt_numbertowindow NWIN s wl_link with
    | none => exact hg
    | some v =>
      simp only
      by_cases hbad : s.installed w = true ∨ v = some w
      · rwa [if_pos hbad]
      · rw [if_neg hbad]
        have hfree : s.installed w = false := Bool.eq_false_iff.mpr fun hi => hbad (.inl hi)
        have hgood := setlink_good hg hfree (hok k v hk hv hfree fun heq => hbad (.inr heq))
        cases k with
        | PARENT =>
          cases v with
          | none => exact hgood
          | some p =>
            simp only
            have hset : Good NWIN ((s.setlink w .PARENT (some p)).setdesktop w
                ((s.setlink w .PARENT (some p)).windows p).w_desktop) :=
              hgood.setwindow (fun _ => rfl) rfl rfl
            split
            · exact hset
            · split_ifs
              · exact hset
              · exact hset
        | OLDERSIB => exact hgood
        | YOUNGERSIB => exact hgood
        | OLDESTCHILD => exact hgood
        | YOUNGESTCHILD => exact hgood

/-! ## Insertion and removal -/

section

variable (hg : Good NWIN s)
include hg

theorem insert_good {r : Option Errno} (hopen : s.isopen w = true)
    (hok : ∀ p, Inserts s w p → InsertOk s w p) (h : winioctl_insert w s = some (s', r)) :
    Good NWIN s' := by
  unfold winioctl_insert at h
  cases hd : winioctl_dtop s w with
  | inl e =>
    rw [hd] at h
    cases h
    exact hg
  | inr d =>
    rw [hd] at h
    simp only at h
    by_cases hx : (s.desktops d).dtf_exiting = true
    · rw [if_pos hx] at h
      cases h
      exact hg
    · rw [if_neg hx] at h
      unfold wt_install at h
      by_cases hi : s.installed w = true
      · rw [if_pos hi] at h
        cases h
        exact hg
      · rw [if_neg hi] at h
        by_cases hb : wt_badchildren s w = true
        · rw [if_pos hb] at h
          cases h
          exact hg
        · rw [if_neg hb] at h
          cases hp : s.link w .PARENT with
          | none =>
            rw [hp] at h
            cases h
            exact hg
          | some p =>
            rw [hp] at h
            obtain ⟨hroot, hsib⟩ := hok p ⟨⟨d, hd, Bool.eq_false_iff.mpr hx⟩,
              Bool.eq_false_iff.mpr hi, Bool.eq_false_iff.mpr hb, hp⟩
            obtain ⟨l, hl, hmem⟩ := hg.children p
            have hwl : w ∉ l := fun hw => hi ((hmem w).mp hw).1
            obtain ⟨s1, a, b, rfl, hlink, hput⟩ := wt_linkwin_putIn hl hwl
              fun older younger hc ho hy hgood => by
                refine (hmem older).mpr ⟨?_, hsib older younger hc ho hy hgood⟩
                unfold wt_badsiblings at hgood
                simp only [Bool.or_eq_false_iff, Bool.not_eq_false'] at hgood
                exact hgood.1.1.1
            simp only [hlink, Option.map_some, Option.some.injEq, Prod.mk.injEq] at h
            obtain ⟨rfl, -⟩ := h
            exact hput.good hg hl (Bool.eq_false_iff.mpr hi) hopen hp hroot

/-- **A window that is removed**, if it has a parent, is on its list no more. -/
theorem dtop_removewin_good : Good NWIN (dtop_removewin w s).1 ∧
    (∀ y, (dtop_removewin w s).1.isopen y = s.isopen y) ∧
    (s.link w .PARENT ≠ none → (dtop_removewin w s).1.installed w = false) ∧
    (s.link w .PARENT = none → (dtop_removewin w s).1 = s) := by
  unfold dtop_removewin
  cases hp : s.link w .PARENT with
  | none => exact ⟨hg, fun _ => rfl, fun habs => absurd rfl habs, fun _ => rfl⟩
  | some p =>
    by_cases hi : s.installed w = true
    · obtain ⟨a, b, hl, hmem⟩ := hg.split hi hp
      obtain ⟨hout, -⟩ := wt_remove_takenOut hl hi
      refine ⟨hout.good hg hl hmem, hout.isopen, fun _ => ?_, nofun⟩
      rw [hout.installed, if_pos rfl]
    · have hi' : s.installed w = false := Bool.eq_false_iff.mpr hi
      simp only
      unfold wt_remove
      rw [if_pos hi']
      exact ⟨hg, fun _ => rfl, fun _ => hi', nofun⟩

theorem remove_good : Good NWIN (winioctl_remove w s).1 := by
  unfold winioctl_remove
  cases winioctl_dtop s w with
  | inl e => exact hg
  | inr d => exact (dtop_removewin_good hg).1

theorem setdtop_good {x : desktop} : Good NWIN (s.setdtop d x) :=
  hg.of_links (fun _ _ => rfl) (fun _ => rfl) (fun _ hy => hy) hg.bounded

theorem setinstalled_root_good (hopen : s.isopen w = true)
    (hp : s.link w .PARENT = none) : Good NWIN (s.setinstalled w true) := by
  refine ⟨fun p => ?_, fun c hc => ?_, fun c hc => ?_, fun c hc => ?_⟩
  · obtain ⟨l, hl, hmem⟩ := hg.children p
    refine ⟨l, hl.congr (fun c _ => link_setinstalled c true) (fun c _ => link_setinstalled c true)
      (link_setinstalled p true) (link_setinstalled p true), fun c => ?_⟩
    rw [hmem, link_setinstalled, installed_setinstalled]
    by_cases hc : c = w
    · subst hc
      rw [hp]
      simp
    · rw [if_neg hc]
  · rw [isopen_setinstalled]
    rw [installed_setinstalled] at hc
    by_cases hcw : c = w
    · rwa [hcw]
    · rw [if_neg hcw] at hc
      exact hg.opened c hc
  · rw [isopen_setinstalled] at hc
    exact hg.bounded c hc
  · have hup : parentOf (s.setinstalled w true) = parentOf s :=
      funext fun y => link_setinstalled y true
    rw [hup]
    by_cases hcw : c = w
    · subst hcw
      exact rooted_of_none hp
    · rw [installed_setinstalled, if_neg hcw] at hc
      exact hg.rooted c hc

theorem screennew_good {openfb : Option Errno} (hopen : s.isopen w = true)
    (hok : openfb = none → s.installed w = false → s.link w .PARENT = none) :
    Good NWIN (winioctl_screennew NDTOP w openfb s).1 := by
  unfold winioctl_screennew
  cases (List.range NDTOP).find? fun d => !(s.desktops d).dtf_present with
  | none => exact hg
  | some d =>
    simp only
    by_cases hr : (s.desktops d).dt_rootwin.isSome = true
    · rwa [if_pos hr]
    · rw [if_neg hr]
      by_cases hbad : s.installed w ∨ (s.link w .OLDERSIB).isSome ∨
          (s.link w .YOUNGERSIB).isSome ∨ wt_badchildren s w
      · rwa [if_pos hbad]
      · rw [if_neg hbad]
        have hfree : s.installed w = false := Bool.eq_false_iff.mpr fun hi => hbad (.inl hi)
        have h1 : Good NWIN (s.setdesktop w (some d)) := hg.setwindow (fun _ => rfl) rfl rfl
        have h2 : Good NWIN ((s.setdesktop w (some d)).setwindow w
            { (s.setdesktop w (some d)).windows w with wf_rootwindow := true }) :=
          h1.setwindow (fun _ => rfl) rfl rfl
        cases openfb with
        | some e => exact setdtop_good h2
        | none =>
          refine setdtop_good (setinstalled_root_good (setdtop_good h2) ?_ ?_)
          · refine (isopen_setwindow (s := s.setdesktop w (some d)) w _).trans ?_
            rw [if_pos rfl]
            refine (isopen_setwindow (s := s) w _).trans ?_
            rw [if_pos rfl]
            exact hopen
          · refine (link_setwindow (s := s.setdesktop w (some d)) w _).trans ?_
            rw [if_pos rfl]
            refine (link_setwindow (s := s) w _).trans ?_
            rw [if_pos rfl]
            exact hok rfl hfree

end

/-! ## Closing -/

/-- **The children lose their parent**, all of them, and nothing else changes. -/
theorem orphan_spec {fuel : ℕ} (hl : ∀ k a n, l = k ++ a :: n → s.link a .OLDERSIB = k.getLast?)
    (h : orphan fuel l.getLast? s = some s') :
    (∀ y k, s'.link y k = if y ∈ l ∧ k = .PARENT then none else s.link y k) ∧
      (∀ y, s'.installed y = s.installed y) ∧ (∀ y, s'.isopen y = s.isopen y) ∧
      s'.winsopen = s.winsopen ∧ s'.desktops = s.desktops := by
  induction l using List.reverseRecOn generalizing fuel s with
  | nil =>
    unfold orphan at h
    cases h
    exact ⟨by simp, fun _ => rfl, fun _ => rfl, rfl, rfl⟩
  | append_singleton l c ih =>
    rw [List.getLast?_append] at h
    have holder : s.link c .OLDERSIB = l.getLast? := hl l c [] rfl
    cases fuel with
    | zero => cases h
    | succ fuel =>
      have h' : orphan fuel l.getLast? (s.setlink c .PARENT none) = some s' := by
        rw [← holder]
        exact h
      obtain ⟨hlink, hi, ho, hn, hd⟩ := ih (fun k a n heq => by
        rw [link_setlink, if_neg (fun habs => nomatch habs.2)]
        exact hl k a (n ++ [c]) (by rw [heq, List.append_assoc]; rfl)) h'
      refine ⟨fun y k => ?_, fun y => ?_, fun y => ?_, hn, hd⟩
      · rw [hlink, link_setlink]
        by_cases hk : k = .PARENT
        · subst hk
          by_cases hy : y ∈ l
          · simp [hy]
          · by_cases hyc : y = c
            · simp [hyc]
            · simp [hy, hyc]
        · simp [hk]
      · rw [hi, installed_setlink]
      · rw [ho, isopen_setlink]

/-- **A window that is on no list is wiped**, once its children have no parent. -/
theorem wiped_good (hg : Good NWIN s) (hl : Children s w l)
    (hmem : ∀ c, c ∈ l ↔ s.installed c = true ∧ s.link c .PARENT = some w)
    (hw : s.installed w = true → s.link w .PARENT = none)
    (hlink : ∀ y k, s'.link y k =
      if y = w then none else if y ∈ l ∧ k = .PARENT then none else s.link y k)
    (hi : ∀ y, s'.installed y = if y = w then false else s.installed y)
    (ho : ∀ y, s'.isopen y = if y = w then false else s.isopen y) : Good NWIN s' := by
  have hcw : ∀ c, s'.installed c = true → c ≠ w ∧ s.installed c = true := by
    intro c hc
    rw [hi] at hc
    by_cases hcw : c = w
    · rw [if_pos hcw] at hc
      cases hc
    · rw [if_neg hcw] at hc
      exact ⟨hcw, hc⟩
  refine ⟨fun q => ?_, fun c hc => ?_, fun c hc => ?_, fun c hc => ?_⟩
  · by_cases hq : q = w
    · subst hq
      refine ⟨[], ⟨Siblings.nil, ?_, ?_⟩, fun c => ?_⟩
      · rw [hlink, if_pos rfl]
        rfl
      · rw [hlink, if_pos rfl]
        rfl
      · refine iff_of_false List.not_mem_nil ?_
        rintro ⟨hc, hp⟩
        obtain ⟨hne, hc⟩ := hcw c hc
        rw [hlink, if_neg hne] at hp
        by_cases hcl : c ∈ l
        · rw [if_pos ⟨hcl, rfl⟩] at hp
          cases hp
        · rw [if_neg fun habs => hcl habs.1] at hp
          exact hcl ((hmem c).mpr ⟨hc, hp⟩)
    · obtain ⟨m, hm, hmemq⟩ := hg.children q
      have hne : ∀ c ∈ m, c ≠ w := by
        rintro c hc rfl
        obtain ⟨hc1, hc2⟩ := (hmemq c).mp hc
        rw [hw hc1] at hc2
        cases hc2
      have hml : ∀ c ∈ m, c ∉ l := by
        intro c hc hcl
        have h1 := ((hmemq c).mp hc).2
        rw [((hmem c).mp hcl).2, Option.some.injEq] at h1
        exact hq h1.symm
      refine ⟨m, hm.congr (fun c hc => ?_) (fun c hc => ?_) ?_ ?_, fun c => ?_⟩
      · rw [hlink, if_neg (hne c hc), if_neg fun habs => hml c hc habs.1]
      · rw [hlink, if_neg (hne c hc), if_neg fun habs => hml c hc habs.1]
      · rw [hlink, if_neg hq, if_neg fun habs => nomatch habs.2]
      · rw [hlink, if_neg hq, if_neg fun habs => nomatch habs.2]
      · constructor
        · intro hc
          obtain ⟨hc1, hc2⟩ := (hmemq c).mp hc
          rw [hi, hlink, if_neg (hne c hc), if_neg (hne c hc),
            if_neg fun habs => hml c hc habs.1]
          exact ⟨hc1, hc2⟩
        · rintro ⟨hc, hp⟩
          obtain ⟨hne, hc⟩ := hcw c hc
          rw [hlink, if_neg hne] at hp
          by_cases hcl : c ∈ l
          · rw [if_pos ⟨hcl, rfl⟩] at hp
            cases hp
          · rw [if_neg fun habs => hcl habs.1] at hp
            exact (hmemq c).mpr ⟨hc, hp⟩
  · obtain ⟨hne, hc⟩ := hcw c hc
    rw [ho, if_neg hne]
    exact hg.opened c hc
  · rw [ho] at hc
    by_cases hcw : c = w
    · rw [if_pos hcw] at hc
      cases hc
    · rw [if_neg hcw] at hc
      exact hg.bounded c hc
  · obtain ⟨-, hc⟩ := hcw c hc
    refine (hg.rooted c hc).cut fun b => ?_
    unfold parentOf
    rw [hlink]
    by_cases hb : b = w
    · exact .inl (if_pos hb)
    · rw [if_neg hb]
      by_cases hbl : b ∈ l
      · exact .inl (if_pos ⟨hbl, rfl⟩)
      · exact .inr (if_neg fun habs => hbl habs.1)

/-- Windows that are all zeros are a good tree. -/
theorem zero_good (desktops : ℕ → desktop) (n : ℤ) :
    Good NWIN ⟨fun _ => window.zero, desktops, n⟩ := by
  refine ⟨fun p => ⟨[], ⟨Siblings.nil, rfl, rfl⟩, fun c => ?_⟩, nofun, nofun, nofun⟩
  exact iff_of_false List.not_mem_nil nofun

/-- The window is on no list when its children lose it. -/
theorem winclose_remove_good (hg : Good NWIN s)
    (hok : s.installed w = true → s.link w .PARENT ≠ none → dtop_present s w ≠ none) :
    Good NWIN (winclose_remove (dtop_present s w) w { s with winsopen := s.winsopen - 1 }) ∧
      ((winclose_remove (dtop_present s w) w { s with winsopen := s.winsopen - 1 }).installed w =
        true → (winclose_remove (dtop_present s w) w
          { s with winsopen := s.winsopen - 1 }).link w .PARENT = none) := by
  have hcount : Good NWIN { s with winsopen := s.winsopen - 1 } :=
    hg.of_links (fun _ _ => rfl) (fun _ => rfl) (fun _ hy => hy) hg.bounded
  unfold winclose_remove
  cases hd : dtop_present s w with
  | none =>
    refine ⟨hcount, fun hi => ?_⟩
    by_contra hp
    exact hok hi hp hd
  | some d =>
    simp only
    have hout : Good NWIN (if State.installed { s with winsopen := s.winsopen - 1 } w = true then
        (dtop_removewin w { s with winsopen := s.winsopen - 1 }).1
        else { s with winsopen := s.winsopen - 1 }) ∧
        (State.installed (if State.installed { s with winsopen := s.winsopen - 1 } w = true then
          (dtop_removewin w { s with winsopen := s.winsopen - 1 }).1
          else { s with winsopen := s.winsopen - 1 }) w = true →
        State.link (if State.installed { s with winsopen := s.winsopen - 1 } w = true then
          (dtop_removewin w { s with winsopen := s.winsopen - 1 }).1
          else { s with winsopen := s.winsopen - 1 }) w .PARENT = none) := by
      by_cases hi : State.installed { s with winsopen := s.winsopen - 1 } w = true
      · rw [if_pos hi]
        obtain ⟨hgood, -, hoff, hsame⟩ := dtop_removewin_good (w := w) hcount
        refine ⟨hgood, fun hi' => ?_⟩
        by_cases hp : State.link { s with winsopen := s.winsopen - 1 } w .PARENT = none
        · rw [hsame hp]
          exact hp
        · rw [hoff hp] at hi'
          cases hi'
      · rw [if_neg hi]
        exact ⟨hcount, fun habs => absurd habs hi⟩
    split_ifs at hout ⊢
    all_goals
      first
        | exact hout
        | exact ⟨setdtop_good hout.1, hout.2⟩

theorem close_good {fuel : ℕ} (hg : Good NWIN s)
    (hok : s.installed w = true → s.link w .PARENT ≠ none → dtop_present s w ≠ none)
    (h : winclose fuel w s = some s') : Good NWIN s' := by
  obtain ⟨hg1, hoff⟩ := winclose_remove_good hg hok
  unfold winclose at h
  simp only at h
  generalize winclose_remove (dtop_present s w) w { s with winsopen := s.winsopen - 1 } = s1 at *
  obtain ⟨s2, horphan, h⟩ := Option.bind_eq_some_iff.mp h
  obtain ⟨s3, hroot, rfl⟩ := Option.map_eq_some_iff.mp h
  obtain ⟨l, hl, hmem⟩ := hg1.children w
  rw [hl.youngest] at horphan
  obtain ⟨hlink, hi, ho, -⟩ := orphan_spec (fun k a n heq => (hl.linked k a n heq).2) horphan
  -- the desktop does not matter
  have hwindows : s3.windows = s2.windows := by
    unfold winclose_root at hroot
    split_ifs at hroot
    · obtain ⟨d, -, rfl⟩ := Option.map_eq_some_iff.mp hroot
      rfl
    · cases hroot
      rfl
  have hwiped : Good NWIN (s3.setwindow w window.zero) := by
    refine wiped_good hg1 hl hmem hoff (fun y k => ?_) (fun y => ?_) (fun y => ?_)
    · rw [link_setwindow, ← hlink y k]
      unfold State.link
      rw [hwindows]
      rfl
    · rw [installed_setwindow, ← hi y]
      unfold State.installed
      rw [hwindows]
      rfl
    · rw [isopen_setwindow, ← ho y]
      unfold State.isopen
      rw [hwindows]
      rfl
  unfold winclose_wipe
  simp only
  split_ifs
  · exact zero_good _ _
  · exact hwiped

/-- **Every call that is as it should be keeps the tree good.** -/
theorem step_good {e : Event} (hg : Good NWIN s) (hok : Ok NWIN s e)
    (h : Step NWIN NDTOP s e s') : Good NWIN s' := by
  cases e with
  | winopen w excl =>
    rw [← show (winopen NWIN w excl s).1 = s' from h]
    exact winopen_good excl hg
  | setlink w which link =>
    obtain ⟨-, rfl⟩ := h
    unfold winioctl_setlink
    cases hd : (s.windows w).w_desktop with
    | none =>
      refine winsetlink_good hg fun k v hk hv hfree hne => hok k v ⟨fun d hd' => ?_, hk, hv,
        hfree, hne⟩
      rw [hd] at hd'
      cases hd'
    | some d =>
      simp only
      by_cases hinfo : (s.desktops d).shared_info = true
      · rw [if_neg (by simp [hinfo])]
        refine winsetlink_good hg fun k v hk hv hfree hne => hok k v ⟨fun d' hd' => ?_, hk, hv,
          hfree, hne⟩
        rw [hd, Option.some.injEq] at hd'
        rwa [← hd']
      · rwa [if_pos (by simp [hinfo])]
  | insert w =>
    obtain ⟨hopen, r, h⟩ := h
    exact insert_good hg hopen hok h
  | remove w =>
    obtain ⟨-, rfl⟩ := h
    exact remove_good hg
  | screennew w openfb =>
    obtain ⟨hopen, rfl⟩ := h
    exact screennew_good hg hopen hok
  | winclose w =>
    obtain ⟨-, fuel, h⟩ := h
    exact close_good hg hok h

end Sunwindow
