/-
# The lists of children

The tree is good when the children of each window are the installed windows that have it as
their parent, linked both ways from the oldest to the youngest, and going up from an installed
window ends.  A window that is put in between two children, or taken out, leaves the tree good.
-/
import SunOS.Lib.Siblings
import SunOS.Lib.Upward
import SunOS.Sunwindow.Wintree

namespace Sunwindow

open List

variable {s s' s1 : State} {w p q c : ℕ} {k j : WL} {v : Option ℕ} {l a b : List ℕ} {NWIN : ℕ}

/-! ## Links and flags -/

@[simp] theorem link_setlink (y : ℕ) :
    (s.setlink w k v).link y j = if y = w ∧ j = k then v else s.link y j := by
  unfold State.link State.setlink State.setwindow
  by_cases hy : y = w
  · subst hy
    by_cases hj : j = k
    · subst hj
      simp
    · simp [hj]
  · simp [hy]

@[simp] theorem installed_setlink (y : ℕ) : (s.setlink w k v).installed y = s.installed y := by
  unfold State.installed State.setlink State.setwindow
  by_cases hy : y = w
  · subst hy
    simp
  · simp [hy]

@[simp] theorem isopen_setlink (y : ℕ) : (s.setlink w k v).isopen y = s.isopen y := by
  unfold State.isopen State.setlink State.setwindow
  by_cases hy : y = w
  · subst hy
    simp
  · simp [hy]

@[simp] theorem link_setinstalled (y : ℕ) (x : Bool) :
    (s.setinstalled w x).link y k = s.link y k := by
  unfold State.link State.setinstalled State.setwindow
  by_cases hy : y = w
  · subst hy
    simp
  · simp [hy]

@[simp] theorem installed_setinstalled (y : ℕ) (x : Bool) :
    (s.setinstalled w x).installed y = if y = w then x else s.installed y := by
  unfold State.installed State.setinstalled State.setwindow
  by_cases hy : y = w
  · subst hy
    simp
  · simp [hy]

@[simp] theorem isopen_setinstalled (y : ℕ) (x : Bool) :
    (s.setinstalled w x).isopen y = s.isopen y := by
  unfold State.isopen State.setinstalled State.setwindow
  by_cases hy : y = w
  · subst hy
    simp
  · simp [hy]

/-! ## Good trees -/

/-- The parent of each window. -/
def parentOf (s : State) (c : ℕ) : Option ℕ := s.link c .PARENT

/-- The children of `p`, the oldest first: they are linked both ways, and `p` is linked to the
oldest and the youngest. -/
structure Children (s : State) (p : ℕ) (l : List ℕ) : Prop where
  linked : Siblings (fun c => s.link c .YOUNGERSIB) (fun c => s.link c .OLDERSIB) l
  oldest : s.link p .OLDESTCHILD = l.head?
  youngest : s.link p .YOUNGESTCHILD = l.getLast?

/-- **The tree is good.** -/
structure Good (NWIN : ℕ) (s : State) : Prop where
  children : ∀ p, ∃ l, Children s p l ∧
    ∀ c, c ∈ l ↔ s.installed c = true ∧ s.link c .PARENT = some p
  opened : ∀ c, s.installed c = true → s.isopen c = true
  bounded : ∀ c, s.isopen c = true → c < NWIN
  rooted : ∀ c, s.installed c = true → Rooted (parentOf s) c

/-- Only the links of the children and of their parent matter to a list. -/
theorem Children.congr (h : Children s p l)
    (hn : ∀ c ∈ l, s'.link c .YOUNGERSIB = s.link c .YOUNGERSIB)
    (hp : ∀ c ∈ l, s'.link c .OLDERSIB = s.link c .OLDERSIB)
    (ho : s'.link p .OLDESTCHILD = s.link p .OLDESTCHILD)
    (hy : s'.link p .YOUNGESTCHILD = s.link p .YOUNGESTCHILD) : Children s' p l :=
  ⟨h.linked.congr hn hp, ho.trans h.oldest, hy.trans h.youngest⟩

/-- A window has one list of children. -/
theorem Children.unique {m : List ℕ} (h : Children s p l) (h' : Children s p m) : l = m :=
  h.linked.unique h'.linked (h.oldest.symm.trans h'.oldest)

/-- Only links and flags matter. -/
theorem Good.of_links (hg : Good NWIN s) (hl : ∀ y k, s'.link y k = s.link y k)
    (hi : ∀ y, s'.installed y = s.installed y) (ho : ∀ y, s.isopen y = true → s'.isopen y = true)
    (hb : ∀ y, s'.isopen y = true → y < NWIN) : Good NWIN s' where
  children p := by
    obtain ⟨l, h, hmem⟩ := hg.children p
    refine ⟨l, h.congr (fun c _ => hl c _) (fun c _ => hl c _) (hl p _) (hl p _), fun c => ?_⟩
    rw [hmem, hi, hl]
  opened c hc := ho c (hg.opened c (by rwa [hi] at hc))
  bounded := hb
  rooted c hc := by
    have hup : parentOf s' = parentOf s := funext fun y => hl y _
    rw [hup]
    exact hg.rooted c (by rwa [hi] at hc)

/-! ## Putting a window in -/

/-- **`w` has been put in** between the children `a` and `b` of `p`. -/
structure PutIn (s s' : State) (w p : ℕ) (a b : List ℕ) : Prop where
  parent : ∀ y, s'.link y .PARENT = s.link y .PARENT
  younger : ∀ y, s'.link y .YOUNGERSIB =
    if y = w then b.head? else if a.getLast? = some y then some w else s.link y .YOUNGERSIB
  older : ∀ y, s'.link y .OLDERSIB =
    if y = w then a.getLast? else if b.head? = some y then some w else s.link y .OLDERSIB
  oldest : ∀ y, s'.link y .OLDESTCHILD =
    if y = p ∧ a = [] then some w else s.link y .OLDESTCHILD
  youngest : ∀ y, s'.link y .YOUNGESTCHILD =
    if y = p ∧ b = [] then some w else s.link y .YOUNGESTCHILD
  installed : ∀ y, s'.installed y = s.installed y
  isopen : ∀ y, s'.isopen y = s.isopen y

theorem PutIn.good (hg : Good NWIN s) (hp : Children s p (a ++ b)) (hw : s.installed w = false)
    (hopen : s.isopen w = true) (hparent : s.link w .PARENT = some p)
    (hroot : Rooted (parentOf s) w) (h : PutIn s s' w p a b) :
    Good NWIN (s'.setinstalled w true) where
  children q := by
    obtain ⟨l, hl, hmem⟩ := hg.children q
    have hwl : w ∉ l := by
      rw [hmem, hw]
      rintro ⟨habs, -⟩
      cases habs
    by_cases hq : q = p
    · subst hq
      have heq := hl.unique hp
      subst heq
      have hne : ∀ c ∈ a ++ b, c ≠ w := by
        rintro c hc rfl
        exact hwl hc
      refine ⟨a ++ w :: b, ⟨?_, ?_, ?_⟩, fun c => ?_⟩
      · refine hl.linked.insert ?_ ?_ (fun c hc hlast => ?_) (fun c hlast => ?_)
          (fun c hc hfirst => ?_) (fun c hfirst => ?_)
        · rw [link_setinstalled, h.younger, if_pos rfl]
        · rw [link_setinstalled, h.older, if_pos rfl]
        · rw [link_setinstalled, h.younger, if_neg (hne c hc), if_neg hlast]
        · have hc : c ∈ a ++ b := mem_append_left _ (List.mem_of_getLast? hlast)
          rw [link_setinstalled, h.younger, if_neg (hne c hc), if_pos hlast]
        · rw [link_setinstalled, h.older, if_neg (hne c hc), if_neg hfirst]
        · have hc : c ∈ a ++ b := mem_append_right _ (List.mem_of_mem_head? hfirst)
          rw [link_setinstalled, h.older, if_neg (hne c hc), if_pos hfirst]
      · rw [link_setinstalled, h.oldest, hl.oldest]
        cases a with
        | nil => exact if_pos ⟨rfl, rfl⟩
        | cons x a => exact if_neg fun habs => cons_ne_nil x a habs.2
      · rw [link_setinstalled, h.youngest, hl.youngest, List.getLast?_append_cons]
        cases b with
        | nil => exact if_pos ⟨rfl, rfl⟩
        | cons x b =>
          rw [if_neg fun habs => cons_ne_nil x b habs.2, List.getLast?_append_cons,
            List.getLast?_cons_cons]
      · have hcw : c ∈ a ++ w :: b ↔ c = w ∨ c ∈ a ++ b := by
          simp only [mem_append, mem_cons]
          tauto
        rw [hcw, hmem, installed_setinstalled, link_setinstalled, h.parent, h.installed]
        by_cases hc : c = w
        · subst hc
          simp [hparent]
        · simp [hc]
    · -- the children of another window are not touched
      have hother : ∀ c ∈ l, c ∉ a ++ b := by
        intro c hc hab
        obtain ⟨m, hm, hmem'⟩ := hg.children p
        rw [← hm.unique hp, hmem'] at hab
        have hcq := ((hmem c).mp hc).2
        rw [hab.2, Option.some.injEq] at hcq
        exact hq hcq.symm
      refine ⟨l, hl.congr (fun c hc => ?_) (fun c hc => ?_) ?_ ?_, fun c => ?_⟩
      · have hlast : a.getLast? ≠ some c := fun hlast =>
          hother c hc (mem_append_left _ (List.mem_of_getLast? hlast))
        rw [link_setinstalled, h.younger, if_neg (fun hcw : c = w => hwl (hcw ▸ hc)), if_neg hlast]
      · have hfirst : b.head? ≠ some c := fun hfirst =>
          hother c hc (mem_append_right _ (List.mem_of_mem_head? hfirst))
        rw [link_setinstalled, h.older, if_neg (fun hcw : c = w => hwl (hcw ▸ hc)), if_neg hfirst]
      · rw [link_setinstalled, h.oldest, if_neg fun habs => hq habs.1]
      · rw [link_setinstalled, h.youngest, if_neg fun habs => hq habs.1]
      · rw [hmem, installed_setinstalled, link_setinstalled, h.parent, h.installed]
        by_cases hc : c = w
        · subst hc
          rw [hparent]
          simp [hw, Ne.symm hq]
        · simp [hc]
  opened c hc := by
    rw [isopen_setinstalled, h.isopen]
    rw [installed_setinstalled, h.installed] at hc
    by_cases hcw : c = w
    · rw [hcw, hopen]
    · rw [if_neg hcw] at hc
      exact hg.opened c hc
  bounded c hc := by
    rw [isopen_setinstalled, h.isopen] at hc
    exact hg.bounded c hc
  rooted c hc := by
    have hup : parentOf (s'.setinstalled w true) = parentOf s :=
      funext fun y => (link_setinstalled y true).trans (h.parent y)
    rw [hup]
    rw [installed_setinstalled, h.installed] at hc
    by_cases hcw : c = w
    · rwa [hcw]
    · rw [if_neg hcw] at hc
      exact hg.rooted c hc

/-- The window goes in before the oldest. -/
theorem wt_linkoldest_putIn {x : ℕ} (hp : Children s p (x :: l)) (hx : x ≠ w)
    (hw : s.link w .OLDERSIB = none) :
    ∃ s', wt_linkoldest w p s = some s' ∧ PutIn s s' w p [] (x :: l) := by
  have holdest : s.link p .OLDESTCHILD = some x := hp.oldest
  refine ⟨((s.setlink w .YOUNGERSIB (some x)).setlink x .OLDERSIB (some w)).setlink p
    .OLDESTCHILD (some w), ?_, ?_⟩
  · unfold wt_linkoldest
    simp [holdest]
  · refine ⟨fun y => ?_, fun y => ?_, fun y => ?_, fun y => ?_, fun y => ?_, fun y => ?_,
      fun y => ?_⟩
    · simp
    · simp
    · by_cases hyw : y = w
      · subst hyw
        simp [hw, Ne.symm hx]
      · simp [hyw, eq_comm]
    · simp
    · simp
    · simp
    · simp

/-- The window goes in after the youngest. -/
theorem wt_linkyoungest_putIn {x : ℕ} (hp : Children s p (l ++ [x])) (hx : x ≠ w)
    (hw : s.link w .YOUNGERSIB = none) :
    ∃ s', wt_linkyoungest w p s = some s' ∧ PutIn s s' w p (l ++ [x]) [] := by
  have hyoungest : s.link p .YOUNGESTCHILD = some x := by
    rw [hp.youngest, List.getLast?_append]
    rfl
  refine ⟨((s.setlink w .OLDERSIB (some x)).setlink x .YOUNGERSIB (some w)).setlink p
    .YOUNGESTCHILD (some w), ?_, ?_⟩
  · unfold wt_linkyoungest
    simp [hyoungest]
  · refine ⟨fun y => ?_, fun y => ?_, fun y => ?_, fun y => ?_, fun y => ?_, fun y => ?_,
      fun y => ?_⟩
    · simp
    · by_cases hyw : y = w
      · subst hyw
        simp [hw, Ne.symm hx]
      · simp [hyw, eq_comm]
    · simp
    · simp
    · simp
    · simp
    · simp

/-- What is checked of the siblings a window asks for: they are children of one window, if of any
window that has the first as a child, and next to each other. -/
theorem badsiblings_split {older younger : ℕ} (hp : Children s p l) (ho : older ∈ l)
    (h : wt_badsiblings s older younger = false) :
    ∃ k n, l = (k ++ [older]) ++ younger :: n := by
  unfold wt_badsiblings at h
  simp only [Bool.or_eq_false_iff, bne_eq_false_iff_eq] at h
  obtain ⟨k, m, rfl⟩ := append_of_mem ho
  have hnext : s.link older .YOUNGERSIB = m.head? := (hp.linked k older m rfl).1
  rw [h.2] at hnext
  cases m with
  | nil => cases hnext
  | cons b m =>
    rw [List.head?_cons, Option.some.injEq] at hnext
    subst hnext
    exact ⟨k, m, by rw [append_assoc]; rfl⟩

/-- **`wt_install` puts the window in** among the children of its parent, unless the siblings it
asks for are children of another. -/
theorem wt_linkwin_putIn (hp : Children s p l) (hw : w ∉ l)
    (hsib : ∀ older younger, s.link p .OLDESTCHILD ≠ none → s.link w .OLDERSIB = some older →
      s.link w .YOUNGERSIB = some younger → wt_badsiblings s older younger = false → older ∈ l) :
    ∃ s' a b, l = a ++ b ∧ wt_linkwin w p s = some s' ∧ PutIn s s' w p a b := by
  have hhead := hp.oldest
  have hlast := hp.youngest
  cases l with
  | nil =>
    refine ⟨(((s.setlink w .OLDERSIB none).setlink w .YOUNGERSIB none).setlink p .OLDESTCHILD
      (some w)).setlink p .YOUNGESTCHILD (some w), [], [], rfl, ?_, ?_⟩
    · unfold wt_linkwin
      rw [if_pos ⟨hhead, hlast⟩]
    · refine ⟨fun y => ?_, fun y => ?_, fun y => ?_, fun y => ?_, fun y => ?_, fun y => ?_,
        fun y => ?_⟩
      all_goals simp
  | cons x l =>
    have hx : x ≠ w := fun heq => hw (heq ▸ mem_cons_self)
    have hne : ¬ (s.link p .OLDESTCHILD = none ∧ s.link p .YOUNGESTCHILD = none) := by
      rw [hhead]
      rintro ⟨habs, -⟩
      cases habs
    unfold wt_linkwin
    rw [if_neg hne]
    cases ho : s.link w .OLDERSIB with
    | none =>
      obtain ⟨s', hs', hput⟩ := wt_linkoldest_putIn hp hx ho
      exact ⟨s', [], x :: l, rfl, hs', hput⟩
    | some older =>
      cases hy : s.link w .YOUNGERSIB with
      | none =>
        obtain ⟨k, z, hk⟩ : ∃ k z, x :: l = k ++ [z] :=
          ⟨(x :: l).dropLast, (x :: l).getLast (cons_ne_nil x l),
            (dropLast_append_getLast (cons_ne_nil x l)).symm⟩
        rw [hk] at hp hw
        have hz : z ≠ w := fun heq => hw (heq ▸ by simp)
        obtain ⟨s', hs', hput⟩ := wt_linkyoungest_putIn hp hz hy
        exact ⟨s', k ++ [z], [], by rw [hk, append_nil], hs', hput⟩
      | some younger =>
        simp only
        cases hbad : wt_badsiblings s older younger with
        | true =>
          -- the siblings are forgotten, and the window goes to the bottom
          rw [if_pos rfl]
          have hp' : Children ((s.setlink w .YOUNGERSIB none).setlink w .OLDERSIB none) p
              (x :: l) := by
            have hcw : ∀ c ∈ x :: l, c ≠ w := by
              rintro c hc rfl
              exact hw hc
            refine hp.congr (fun c hc => ?_) (fun c hc => ?_) ?_ ?_
            · simp [hcw c hc]
            · simp [hcw c hc]
            · simp
            · simp
          obtain ⟨s', hs', hput⟩ := wt_linkoldest_putIn hp' hx (by simp)
          refine ⟨s', [], x :: l, rfl, hs', ⟨fun y => ?_, fun y => ?_, fun y => ?_, fun y => ?_,
            fun y => ?_, fun y => ?_, fun y => ?_⟩⟩
          · rw [hput.parent]
            simp
          · rw [hput.younger]
            by_cases hyw : y = w
            · simp [hyw]
            · simp [hyw]
          · rw [hput.older]
            by_cases hyw : y = w
            · simp [hyw]
            · simp [hyw]
          · rw [hput.oldest]
            simp
          · rw [hput.youngest]
            simp
          · rw [hput.installed]
            simp
          · rw [hput.isopen]
            simp
        | false =>
          obtain ⟨k, n, hsplit⟩ := badsiblings_split hp
            (hsib older younger (by rw [hhead]; exact Option.some_ne_none _) ho hy hbad) hbad
          have hold : older ≠ w := by
            rintro rfl
            exact hw (by rw [hsplit]; simp)
          have hyoung : younger ≠ w := by
            rintro rfl
            exact hw (by rw [hsplit]; simp)
          refine ⟨(s.setlink older .YOUNGERSIB (some w)).setlink younger .OLDERSIB (some w),
            k ++ [older], younger :: n, hsplit, rfl, ⟨fun y => ?_, fun y => ?_, fun y => ?_,
              fun y => ?_, fun y => ?_, fun y => ?_, fun y => ?_⟩⟩
          · simp
          · by_cases hyw : y = w
            · simp [hyw, hy, Ne.symm hold]
            · simp [hyw, eq_comm]
          · by_cases hyw : y = w
            · simp [hyw, ho, Ne.symm hyoung]
            · simp [hyw, eq_comm]
          · simp
          · simp
          · simp
          · simp

/-! ## Taking a window out -/

variable {o : Option ℕ} {e : Prop}

@[simp] theorem link_setlinkif (y : ℕ) :
    (setlinkif s o k v).link y j = if o = some y ∧ j = k then v else s.link y j := by
  cases o with
  | none => simp [setlinkif]
  | some x =>
    unfold setlinkif
    simp [eq_comm]

@[simp] theorem installed_setlinkif (y : ℕ) : (setlinkif s o k v).installed y = s.installed y := by
  cases o with
  | none => rfl
  | some x => exact installed_setlink y

@[simp] theorem isopen_setlinkif (y : ℕ) : (setlinkif s o k v).isopen y = s.isopen y := by
  cases o with
  | none => rfl
  | some x => exact isopen_setlink y

@[simp] theorem link_ite [Decidable e] (y : ℕ) : (if e then s.setlink w k v else s).link y j =
      if e ∧ y = w ∧ j = k then v else s.link y j := by
  by_cases he : e
  · simp [he]
  · simp [he]

@[simp] theorem installed_ite [Decidable e] (y : ℕ) :
    (if e then s.setlink w k v else s).installed y = s.installed y := by
  by_cases he : e
  · simp [he]
  · simp [he]

@[simp] theorem isopen_ite [Decidable e] (y : ℕ) :
    (if e then s.setlink w k v else s).isopen y = s.isopen y := by
  by_cases he : e
  · simp [he]
  · simp [he]

/-- **`w` has been taken out** from between the children `a` and `b` of `p`. -/
structure TakenOut (s s' : State) (w p : ℕ) (a b : List ℕ) : Prop where
  parent : ∀ y, s'.link y .PARENT = s.link y .PARENT
  younger : ∀ y, s'.link y .YOUNGERSIB =
    if a.getLast? = some y then b.head? else s.link y .YOUNGERSIB
  older : ∀ y, s'.link y .OLDERSIB =
    if b.head? = some y then a.getLast? else s.link y .OLDERSIB
  oldest : ∀ y, s'.link y .OLDESTCHILD = if y = p ∧ a = [] then b.head? else s.link y .OLDESTCHILD
  youngest : ∀ y, s'.link y .YOUNGESTCHILD =
    if y = p ∧ b = [] then a.getLast? else s.link y .YOUNGESTCHILD
  installed : ∀ y, s'.installed y = if y = w then false else s.installed y
  isopen : ∀ y, s'.isopen y = s.isopen y

/-- **`wt_remove` takes the window out.** -/
theorem wt_remove_takenOut (hp : Children s p (a ++ w :: b)) (hw : s.installed w = true) :
    TakenOut s (wt_remove w p s).1 w p a b ∧ (wt_remove w p s).2 = none := by
  have hnodup := hp.linked.nodup
  obtain ⟨hyounger, holder⟩ := hp.linked a w b rfl
  have hold : s.link p .OLDESTCHILD = some w ↔ a = [] := by
    rw [hp.oldest]
    exact Siblings.head?_split hnodup
  have hyoung : s.link p .YOUNGESTCHILD = some w ↔ b = [] := by
    rw [hp.youngest]
    exact Siblings.getLast?_split hnodup
  have haw : a.getLast? ≠ some w := fun hlast =>
    (List.nodup_append.mp hnodup).2.2 w (List.mem_of_getLast? hlast) w mem_cons_self rfl
  unfold wt_remove
  rw [if_neg (by simp [hw])]
  refine ⟨⟨fun y => ?_, fun y => ?_, fun y => ?_, fun y => ?_, fun y => ?_, fun y => ?_,
    fun y => ?_⟩, rfl⟩
  · simp
  · simp [hyounger, holder]
  · simp [hyounger, holder, haw]
  · simp [hold, hyounger, and_comm]
  · simp [hyoung, holder, and_comm]
  · simp
  · simp

/-- The list of an installed window splits at the window. -/
theorem Good.split (hg : Good NWIN s) (hw : s.installed w = true)
    (hparent : s.link w .PARENT = some p) : ∃ a b, Children s p (a ++ w :: b) ∧
      ∀ c, c ∈ a ++ w :: b ↔ s.installed c = true ∧ s.link c .PARENT = some p := by
  obtain ⟨l, hl, hmem⟩ := hg.children p
  obtain ⟨a, b, rfl⟩ := append_of_mem ((hmem w).mpr ⟨hw, hparent⟩)
  exact ⟨a, b, hl, hmem⟩

theorem TakenOut.good (hg : Good NWIN s) (hp : Children s p (a ++ w :: b))
    (hmem : ∀ c, c ∈ a ++ w :: b ↔ s.installed c = true ∧ s.link c .PARENT = some p)
    (h : TakenOut s s' w p a b) : Good NWIN s' where
  children q := by
    obtain ⟨l, hl, hmemq⟩ := hg.children q
    have hnodup := hp.linked.nodup
    have hsub : ∀ c ∈ a ++ b, c ∈ a ++ w :: b := by
      intro c hc
      simp only [mem_append, mem_cons] at hc ⊢
      tauto
    have hw := (hmem w).mp (by simp)
    by_cases hq : q = p
    · subst hq
      refine ⟨a ++ b, ⟨?_, ?_, ?_⟩, fun c => ?_⟩
      · refine hp.linked.remove (fun c hc hlast => ?_) (fun c hlast => ?_) (fun c hc hfirst => ?_)
          (fun c hfirst => ?_)
        · rw [h.younger, if_neg hlast]
        · rw [h.younger, if_pos hlast]
        · rw [h.older, if_neg hfirst]
        · rw [h.older, if_pos hfirst]
      · rw [h.oldest, hp.oldest]
        cases a with
        | nil => exact if_pos ⟨rfl, rfl⟩
        | cons x a => exact if_neg fun habs => cons_ne_nil x a habs.2
      · rw [h.youngest, hp.youngest]
        cases b with
        | nil =>
          rw [append_nil]
          exact if_pos ⟨rfl, rfl⟩
        | cons x b =>
          rw [if_neg fun habs => cons_ne_nil x b habs.2, List.getLast?_append_cons,
            List.getLast?_append_cons, List.getLast?_cons_cons]
      · rw [h.installed, h.parent]
        have hcw : c ∈ a ++ b ↔ c ≠ w ∧ c ∈ a ++ w :: b := by
          rw [nodup_middle, nodup_cons] at hnodup
          constructor
          · intro hc
            exact ⟨fun heq => hnodup.1 (heq ▸ hc), hsub c hc⟩
          · rintro ⟨hne, hc⟩
            simp only [mem_append, mem_cons] at hc ⊢
            tauto
        rw [hcw, hmem]
        by_cases hc : c = w
        · simp [hc]
        · simp [hc]
    · have hother : ∀ c ∈ l, c ∉ a ++ w :: b := by
        intro c hc hab
        have hcq := ((hmemq c).mp hc).2
        rw [((hmem c).mp hab).2, Option.some.injEq] at hcq
        exact hq hcq.symm
      refine ⟨l, hl.congr (fun c hc => ?_) (fun c hc => ?_) ?_ ?_, fun c => ?_⟩
      · have hlast : a.getLast? ≠ some c := fun hlast =>
          hother c hc (hsub c (mem_append_left _ (List.mem_of_getLast? hlast)))
        rw [h.younger, if_neg hlast]
      · have hfirst : b.head? ≠ some c := fun hfirst =>
          hother c hc (hsub c (mem_append_right _ (List.mem_of_mem_head? hfirst)))
        rw [h.older, if_neg hfirst]
      · rw [h.oldest, if_neg fun habs => hq habs.1]
      · rw [h.youngest, if_neg fun habs => hq habs.1]
      · rw [hmemq, h.installed, h.parent]
        by_cases hc : c = w
        · subst hc
          rw [hw.2]
          simp [Ne.symm hq]
        · simp [hc]
  opened c hc := by
    rw [h.isopen]
    rw [h.installed] at hc
    by_cases hcw : c = w
    · rw [if_pos hcw] at hc
      cases hc
    · rw [if_neg hcw] at hc
      exact hg.opened c hc
  bounded c hc := by
    rw [h.isopen] at hc
    exact hg.bounded c hc
  rooted c hc := by
    have hup : parentOf s' = parentOf s := funext h.parent
    rw [hup]
    rw [h.installed] at hc
    by_cases hcw : c = w
    · rw [if_pos hcw] at hc
      cases hc
    · rw [if_neg hcw] at hc
      exact hg.rooted c hc

end Sunwindow
