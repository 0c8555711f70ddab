/-
# Going up

A function `up` gives the parent of each node, if it has one.  A node is rooted if going up
from it ends.  A change of one parent keeps a node rooted if that parent is not above it, or if
going up from the new one ends without coming back.
-/
import Mathlib.Logic.Relation
import Mathlib.Logic.Function.Basic

variable {α : Type*}

/-- `p` is the parent of `c`. -/
def IsParent (up : α → Option α) (c p : α) : Prop := up c = some p

/-- Going up from `c` one comes to `a`. -/
def Upward (up : α → Option α) : α → α → Prop := Relation.ReflTransGen (IsParent up)

/-- Going up from `c` ends. -/
def Rooted (up : α → Option α) (c : α) : Prop := Acc (fun p c => IsParent up c p) c

variable {up up' : α → Option α} {a c p w : α}

theorem rooted_of_none (h : up c = none) : Rooted up c :=
  ⟨c, fun p (hp : up c = some p) => by rw [h] at hp; cases hp⟩

theorem rooted_of_some (h : up c = some p) : Rooted up c ↔ Rooted up p := by
  constructor
  · intro hc
    exact hc.inv h
  · intro hp
    refine ⟨c, fun q (hq : up c = some q) => ?_⟩
    rw [h, Option.some.injEq] at hq
    exact hq ▸ hp

/-- A rooted node does not come back to itself. -/
theorem Rooted.not_upward (hc : Rooted up c) (hp : up c = some p) : ¬ Upward up p c := by
  intro h
  have hloop : Relation.TransGen (IsParent up) c c := Relation.TransGen.head' hp h
  have hacc : Acc (Relation.TransGen fun p c => IsParent up c p) c := Acc.transGen hc
  have hswap : Relation.TransGen (fun p c => IsParent up c p) c c :=
    Relation.transGen_swap.mpr hloop
  clear hp h hloop hc
  induction hacc with
  | intro c _ ih => exact ih c hswap hswap

/-- Parents may go. -/
theorem Rooted.cut (hc : Rooted up c) (h : ∀ b, up' b = none ∨ up' b = up b) : Rooted up' c := by
  induction hc with
  | intro c _ ih =>
    refine ⟨c, fun p (hp : up' c = some p) => ih p ?_⟩
    rcases h c with hn | heq
    · rw [hn] at hp
      cases hp
    · rwa [heq] at hp

/-- **A parent changes.** -/
theorem Rooted.relink [DecidableEq α] {o : Option α} (hc : Rooted up c)
    (h : ∀ p, o = some p → Upward up c w → Rooted up p ∧ ¬ Upward up p w) :
    Rooted (Function.update up w o) c := by
  -- where `w` is not above, nothing changes
  have hoff : ∀ b, Rooted up b → ¬ Upward up b w → Rooted (Function.update up w o) b := by
    intro b hb
    induction hb with
    | intro b _ ih =>
      intro hno
      have hne : b ≠ w := by
        rintro rfl
        exact hno .refl
      refine ⟨b, fun p (hp : Function.update up w o b = some p) => ?_⟩
      rw [Function.update_of_ne hne] at hp
      exact ih p hp fun hup => hno (.head hp hup)
  induction hc with
  | intro c hacc ih =>
    by_cases hcw : c = w
    · subst hcw
      refine ⟨c, fun p (hp : Function.update up c o c = some p) => ?_⟩
      rw [Function.update_self] at hp
      obtain ⟨hroot, hno⟩ := h p hp .refl
      exact hoff p hroot hno
    · refine ⟨c, fun p (hp : Function.update up w o c = some p) => ?_⟩
      rw [Function.update_of_ne hcw] at hp
      exact ih p hp fun q hq hup => h q hq (.head hp hup)
