/-
# Programs with effects

A program over a state ends with a result and a new state, or not at all.  What it does has an
effect in a monoid: doing nothing is 0, and what is done one after the other adds up.
-/
import Mathlib.Algebra.Group.Defs

universe u v

/-- When `x` ends that begins in `s`, its result and the new state are as `Q` says. -/
def Ends {σ α : Type u} (x : StateT σ Option α) (s : σ) (Q : α → σ → Prop) : Prop :=
  ∀ a t, x s = some (a, t) → Q a t

/-- The effects that lead from a state to a state. -/
structure Effects (σ : Type u) (M : Type v) [AddMonoid M] where
  rel : σ → M → σ → Prop
  refl : ∀ s, rel s 0 s
  trans : ∀ {s t u m n}, rel s m t → rel t n u → rel s (m + n) u

namespace Effects

variable {σ α β : Type u} {M : Type v} [AddMonoid M] {E : Effects σ M} {x : StateT σ Option α}
  {k : α → StateT σ Option β} {P P' : α → M → Prop} {Q : β → M → Prop}

/-- The results that `x` can end with, and their effects. -/
def Does (E : Effects σ M) (x : StateT σ Option α) (P : α → M → Prop) : Prop :=
  ∀ s, Ends x s fun a t => ∃ m, P a m ∧ E.rel s m t

namespace Does

theorem pure {a : α} (h : P a 0) : E.Does (pure a) P := by
  rintro s _ _ ⟨⟩
  exact ⟨0, h, E.refl s⟩

theorem mono (hx : E.Does x P) (h : ∀ a m, P a m → P' a m) : E.Does x P' := by
  intro s a t hst
  obtain ⟨m, hm, hrel⟩ := hx s a t hst
  exact ⟨m, h a m hm, hrel⟩

theorem bind (hx : E.Does x P) (hk : ∀ a m, P a m → E.Does (k a) fun b n => Q b (m + n)) :
    E.Does (x >>= k) Q := by
  intro s b u h
  obtain ⟨⟨a, t⟩, hst, htu⟩ := Option.bind_eq_some_iff.mp h
  obtain ⟨m, hm, hrel⟩ := hx s a t hst
  obtain ⟨n, hn, hrel'⟩ := hk a m hm t b u htu
  exact ⟨m + n, hn, E.trans hrel hrel'⟩

/-- The effect of what is done first is known by its result. -/
theorem andThen {f : α → M} (hx : E.Does x fun a m => m = f a)
    (hk : ∀ a, E.Does (k a) fun b n => Q b (f a + n)) : E.Does (x >>= k) Q :=
  hx.bind fun a _ hm => hm ▸ hk a

/-- Nothing is done first. -/
theorem next (hx : E.Does x fun _ m => m = 0) (hk : ∀ a, E.Does (k a) Q) :
    E.Does (x >>= k) Q := by
  refine andThen (f := fun _ => 0) hx fun a => ?_
  simpa only [zero_add] using hk a

theorem ite {c : Prop} [Decidable c] {y : StateT σ Option α} (hx : c → E.Does x P)
    (hy : ¬ c → E.Does y P) : E.Does (if c then x else y) P := by
  split
  · exact hx ‹_›
  · exact hy ‹_›

/-- One program for each element of a list. -/
theorem mapM {f : β → StateT σ Option α} {P : β → α → M → Prop} {R : List β → List α → M → Prop}
    (hnil : R [] [] 0)
    (hcons : ∀ b a m l as n, P b a m → R l as n → R (b :: l) (a :: as) (m + n))
    (hf : ∀ b, E.Does (f b) (P b)) (l : List β) : E.Does (l.mapM f) (R l) := by
  induction l with
  | nil => exact .pure hnil
  | cons b l ih =>
    rw [List.mapM_cons]
    refine (hf b).bind fun a m hm => ih.bind fun as n hn => .pure ?_
    rw [add_zero]
    exact hcons b a m l as n hm hn

end Does

end Effects
