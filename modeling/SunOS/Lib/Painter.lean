/-
# Panes that cover one another

A pane lies in its parent's plane, has an area there and a plane of its own, and carries child
panes, each over those listed before it.  What the parent lets a pane show is its clip.  Working
downwards, every pane shows what its clip leaves, less what covers it; working from the top, the
first pane found at a point is the one that is hit.
-/
import Mathlib.Algebra.Group.Basic
import Mathlib.Data.List.Nodup

namespace Painter

open List

/-- A pane: its name, the origin of its plane, its area and its clip in its parent's plane, and
its children, the lowest first. -/
inductive Pane (α G : Type*)
  | mk (name : α) (origin : G) (area clip : G → Bool) (children : List (Pane α G))

variable {α G : Type*}

namespace Pane

/-- Where the pane's plane has its origin. -/
def origin : Pane α G → G
  | mk _ o _ _ _ => o

/-- The pane's area. -/
def area : Pane α G → G → Bool
  | mk _ _ r _ _ => r

/-- What its parent lets the pane show. -/
def clip : Pane α G → G → Bool
  | mk _ _ _ k _ => k

/-- The pane's children, the lowest first. -/
def children : Pane α G → List (Pane α G)
  | mk _ _ _ _ cs => cs

end Pane

/-- Some pane of the list lies over the point. -/
def covered (cs : List (Pane α G)) (p : G) : Bool :=
  cs.any (·.area p)

@[simp] theorem covered_cons (c : Pane α G) (cs : List (Pane α G)) (p : G) :
    covered (c :: cs) p = (c.area p || covered cs p) := rfl

mutual
/-- The names in a pane's tree. -/
def Pane.names : Pane α G → List α
  | .mk a _ _ _ cs => a :: namesIn cs

/-- The names in a list of trees. -/
def namesIn : List (Pane α G) → List α
  | [] => []
  | c :: cs => c.names ++ namesIn cs
end

mutual
/-- The panes of a tree that show the point `p` of the root pane's plane. -/
def Pane.showing [Sub G] : Pane α G → G → List α
  | .mk a _ _ _ cs, p => (if covered cs p then [] else [a]) ++ showingIn cs p

/-- The panes that show the point `p` of their parent's plane. -/
def showingIn [Sub G] : List (Pane α G) → G → List α
  | [], _ => []
  | c :: cs, p =>
    (if c.clip p && !covered cs p then c.showing (p - c.origin) else []) ++ showingIn cs p
end

mutual
/-- The pane that is hit at the point `p` of the root pane's plane. -/
def Pane.top [Sub G] : Pane α G → G → α
  | .mk a _ _ _ cs, p => (topIn cs p).getD a

/-- The pane that is hit at the point `p` of the parent's plane. -/
def topIn [Sub G] : List (Pane α G) → G → Option α
  | [], _ => none
  | c :: cs, p => (topIn cs p).or (if c.area p then some (c.top (p - c.origin)) else none)
end

mutual
/-- The same panes, each clipped to its own area. -/
def Pane.unclip : Pane α G → Pane α G
  | .mk a o r _ cs => .mk a o r r (unclipIn cs)

/-- The same panes, each clipped to its own area. -/
def unclipIn : List (Pane α G) → List (Pane α G)
  | [] => []
  | c :: cs => c.unclip :: unclipIn cs
end

mutual
/-- No clip takes away what lies in the area of the pane and of its parent. -/
def Pane.Sound [Add G] : Pane α G → Prop
  | .mk _ o r _ cs => SoundIn (fun p => r (p + o)) cs

/-- No clip takes away what lies in the area of the pane and of its parent. -/
def SoundIn [Add G] (inside : G → Prop) : List (Pane α G) → Prop
  | [] => True
  | c :: cs => (∀ p, inside p → c.area p → c.clip p) ∧ c.Sound ∧ SoundIn inside cs
end

mutual
/-- No clip lets a pane show what lies outside its area. -/
def Pane.Tight : Pane α G → Prop
  | .mk _ _ _ _ cs => TightIn cs

/-- No clip lets a pane show what lies outside its area. -/
def TightIn : List (Pane α G) → Prop
  | [] => True
  | c :: cs => (∀ p, c.clip p → c.area p) ∧ c.Tight ∧ TightIn cs
end

/-! ## Names -/

mutual
theorem Pane.mem_names_of_showing [Sub G] {a : α} :
    ∀ (c : Pane α G) (p : G), a ∈ c.showing p → a ∈ c.names
  | .mk b o r k cs, p, h => by
    rw [Pane.showing, mem_append] at h
    rw [Pane.names, mem_cons]
    rcases h with h | h
    · by_cases hc : covered cs p
      · simp [hc] at h
      · simp only [hc] at h
        exact Or.inl (by simpa using h)
    · exact Or.inr (mem_namesIn_of_showingIn cs p h)

theorem mem_namesIn_of_showingIn [Sub G] {a : α} :
    ∀ (cs : List (Pane α G)) (p : G), a ∈ showingIn cs p → a ∈ namesIn cs
  | [], _, h => by simp [showingIn] at h
  | c :: cs, p, h => by
    rw [showingIn, mem_append] at h
    rw [namesIn, mem_append]
    rcases h with h | h
    · by_cases hc : (c.clip p && !covered cs p) = true
      · rw [if_pos hc] at h
        exact Or.inl (Pane.mem_names_of_showing c _ h)
      · rw [if_neg hc] at h
        exact absurd h not_mem_nil
    · exact Or.inr (mem_namesIn_of_showingIn cs p h)
end

mutual
theorem Pane.nodup_showing [Sub G] :
    ∀ (c : Pane α G) (p : G), c.names.Nodup → (c.showing p).Nodup
  | .mk b o r k cs, p, h => by
    rw [Pane.names, nodup_cons] at h
    rw [Pane.showing]
    have hcs := nodup_showingIn cs p h.2
    by_cases hc : covered cs p
    · rw [if_pos hc, nil_append]
      exact hcs
    · rw [if_neg hc, singleton_append, nodup_cons]
      exact ⟨fun hb => h.1 (mem_namesIn_of_showingIn cs p hb), hcs⟩

theorem nodup_showingIn [Sub G] :
    ∀ (cs : List (Pane α G)) (p : G), (namesIn cs).Nodup → (showingIn cs p).Nodup
  | [], _, _ => by simp [showingIn]
  | c :: cs, p, h => by
    rw [namesIn, List.nodup_append'] at h
    obtain ⟨hc, hcs, hd⟩ := h
    rw [showingIn]
    have hrest := nodup_showingIn cs p hcs
    by_cases hk : (c.clip p && !covered cs p) = true
    · rw [if_pos hk, List.nodup_append']
      refine ⟨Pane.nodup_showing c _ hc, hrest, fun a ha ha' => ?_⟩
      exact hd (Pane.mem_names_of_showing c _ ha) (mem_namesIn_of_showingIn cs p ha')
    · rw [if_neg hk, nil_append]
      exact hrest
end

/-! ## The pane that is hit -/

/-- Something is hit exactly where something covers. -/
theorem isSome_topIn [Sub G] (cs : List (Pane α G)) (p : G) :
    (topIn cs p).isSome = covered cs p := by
  induction cs with
  | nil => rfl
  | cons c cs ih =>
    rw [topIn, covered_cons, Option.isSome_or, ih]
    by_cases h : c.area p <;> simp [h]

@[simp] theorem Pane.origin_unclip (c : Pane α G) : c.unclip.origin = c.origin := by
  cases c; rfl

@[simp] theorem Pane.area_unclip (c : Pane α G) : c.unclip.area = c.area := by
  cases c; rfl

@[simp] theorem Pane.clip_unclip (c : Pane α G) : c.unclip.clip = c.area := by
  cases c; rfl

@[simp] theorem covered_unclipIn (cs : List (Pane α G)) (p : G) :
    covered (unclipIn cs) p = covered cs p := by
  induction cs with
  | nil => rfl
  | cons c cs ih =>
    rw [unclipIn, covered_cons, covered_cons, ih, Pane.area_unclip]

mutual
/-- **Panes clipped to their own areas**: the one pane that shows a point is the one hit. -/
theorem Pane.showing_unclip [Sub G] :
    ∀ (c : Pane α G) (p : G), c.unclip.showing p = [c.top p]
  | .mk a o r k cs, p => by
    rw [Pane.unclip, Pane.showing, Pane.top, showingIn_unclip cs p, covered_unclipIn,
      ← isSome_topIn]
    cases topIn cs p with
    | none => rfl
    | some b => rfl

theorem showingIn_unclip [Sub G] :
    ∀ (cs : List (Pane α G)) (p : G), showingIn (unclipIn cs) p = (topIn cs p).toList
  | [], _ => rfl
  | c :: cs, p => by
    have hc := Pane.showing_unclip c (p - c.origin)
    rw [unclipIn, showingIn, showingIn_unclip cs p, covered_unclipIn, ← isSome_topIn, topIn,
      Pane.clip_unclip, Pane.origin_unclip, hc]
    cases topIn cs p with
    | some b => simp
    | none => by_cases hr : c.area p <;> simp [hr]
end

mutual
/-- Where no clip takes away too much, the pane that is hit shows the point. -/
theorem Pane.top_mem_showing [AddGroup G] :
    ∀ (c : Pane α G) (p : G), c.Sound → c.area (p + c.origin) → c.top p ∈ c.showing p
  | .mk a o r k cs, p, h, hp => by
    rw [Pane.Sound] at h
    have hin := topIn_mem_showingIn (fun p => r (p + o)) cs p h hp
    rw [Pane.top, Pane.showing, mem_append, ← isSome_topIn]
    cases ht : topIn cs p with
    | none => exact Or.inl (mem_singleton_self a)
    | some b => exact Or.inr (hin b ht)

theorem topIn_mem_showingIn [AddGroup G] (inside : G → Prop) :
    ∀ (cs : List (Pane α G)) (p : G), SoundIn inside cs → inside p →
      ∀ b, topIn cs p = some b → b ∈ showingIn cs p
  | [], _, _, _, b, hb => by simp [topIn] at hb
  | c :: cs, p, h, hp, b, hb => by
    rw [SoundIn] at h
    obtain ⟨hc, hs, hcs⟩ := h
    rw [topIn] at hb
    rw [showingIn, mem_append]
    cases ht : topIn cs p with
    | some b' =>
      have : b' = b := by simpa [ht] using hb
      exact Or.inr (topIn_mem_showingIn inside cs p hcs hp b (this ▸ ht))
    | none =>
      have hcov : covered cs p = false := by rw [← isSome_topIn, ht]; rfl
      rw [ht, Option.none_or] at hb
      by_cases hr : c.area p
      · rw [if_pos hr, Option.some.injEq] at hb
        have harea : c.area (p - c.origin + c.origin) := by rwa [sub_add_cancel]
        have htop := Pane.top_mem_showing c (p - c.origin) hs harea
        rw [if_pos (by simp [hc p hp hr, hcov]), ← hb]
        exact Or.inl htop
      · rw [if_neg hr] at hb
        exact absurd hb (by simp)
end

mutual
/-- Where no clip lets too much through, a pane that shows a point is the one hit. -/
theorem Pane.showing_subset [Sub G] :
    ∀ (c : Pane α G) (p : G), c.Tight → ∀ a ∈ c.showing p, a ∈ c.unclip.showing p
  | .mk b o r k cs, p, h, a, ha => by
    rw [Pane.showing, mem_append] at ha
    rw [Pane.unclip, Pane.showing, mem_append, covered_unclipIn]
    exact ha.imp id (showingIn_subset cs p h a)

theorem showingIn_subset [Sub G] :
    ∀ (cs : List (Pane α G)) (p : G), TightIn cs →
      ∀ a ∈ showingIn cs p, a ∈ showingIn (unclipIn cs) p
  | [], _, _, _, ha => ha
  | c :: cs, p, h, a, ha => by
    obtain ⟨hc, ht, hcs⟩ := h
    rw [showingIn, mem_append] at ha
    rw [unclipIn, showingIn, mem_append, covered_unclipIn, Pane.clip_unclip,
      Pane.origin_unclip]
    rcases ha with ha | ha
    · by_cases hk : (c.clip p && !covered cs p) = true
      · rw [if_pos hk] at ha
        have hin := Pane.showing_subset c _ ht a ha
        simp only [Bool.and_eq_true] at hk
        have hr : c.area p = true := hc p hk.1
        rw [if_pos (by rw [hr, hk.2]; rfl)]
        exact Or.inl hin
      · rw [if_neg hk] at ha
        exact absurd ha not_mem_nil
    · exact Or.inr (showingIn_subset cs p hcs a ha)
end

/-- A point is shown where some clip lets it. -/
theorem clip_of_mem_showingIn [Sub G] (cs : List (Pane α G)) (p : G) {a : α}
    (ha : a ∈ showingIn cs p) : ∃ c ∈ cs, c.clip p := by
  induction cs with
  | nil => simp [showingIn] at ha
  | cons c cs ih =>
    rw [showingIn, mem_append] at ha
    rcases ha with ha | ha
    · by_cases hk : (c.clip p && !covered cs p) = true
      · simp only [Bool.and_eq_true] at hk
        exact ⟨c, mem_cons_self, hk.1⟩
      · rw [if_neg hk] at ha
        exact absurd ha not_mem_nil
    · obtain ⟨d, hd, hp⟩ := ih ha
      exact ⟨d, mem_cons_of_mem c hd, hp⟩

end Painter
