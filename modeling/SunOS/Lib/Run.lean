/-
# Runs of a labelled step relation

A step relation `step : σ → ε → σ → Prop` says which states an event may lead
to.  `Run step s es t` is a finite sequence of steps; an event the relation
refuses (a panic, a call the environment never makes) ends every run through
it.  The two rules every development over a state machine needs are packaged
here once: an invariant of the steps is an invariant of the runs, and a
simulation of the steps is a simulation of the runs.
-/
import Mathlib.Logic.Relation
import Mathlib.Data.List.Basic

variable {σ τ ε : Type*}

/-- `Run step s es t`: the events `es`, taken in order, lead from `s` to `t`. -/
inductive Run (step : σ → ε → σ → Prop) : σ → List ε → σ → Prop
  | nil (s : σ) : Run step s [] s
  | cons {s t u : σ} {e : ε} {es : List ε} :
      step s e t → Run step t es u → Run step s (e :: es) u

/-- The steps of `step` whose starting state and event meet `ok`. -/
def Guarded (ok : σ → ε → Prop) (step : σ → ε → σ → Prop) (s : σ) (e : ε) (t : σ) : Prop :=
  ok s e ∧ step s e t

namespace Run

variable {step : σ → ε → σ → Prop}

variable {s t : σ} {es : List ε} {I : σ → Prop}

theorem nil_iff : Run step s [] t ↔ s = t := by
  constructor
  · intro h
    cases h
    rfl
  · rintro rfl
    exact .nil s

theorem cons_iff {s u : σ} {e : ε} :
    Run step s (e :: es) u ↔ ∃ t, step s e t ∧ Run step t es u := by
  constructor
  · intro h
    cases h with
    | cons h1 h2 => exact ⟨_, h1, h2⟩
  · rintro ⟨t, h1, h2⟩
    exact .cons h1 h2

/-- Runs compose. -/
theorem append {s t u : σ} {es fs : List ε} (h1 : Run step s es t) (h2 : Run step t fs u) :
    Run step s (es ++ fs) u := by
  induction h1 with
  | nil => exact h2
  | cons h _ ih => exact .cons h (ih h2)

/-- **Invariant rule.**  What every step preserves, every run preserves. -/
theorem invariant (hstep : ∀ s e t, I s → step s e t → I t)
    (h : Run step s es t) (hs : I s) : I t := by
  induction h with
  | nil => exact hs
  | cons h1 _ ih => exact ih (hstep _ _ _ hs h1)

/-- **Simulation rule.**  If related states stay related along every step, an
abstract run answers every concrete run, event for event. -/
theorem simulation (astep : τ → ε → τ → Prop) (R : τ → σ → Prop)
    (hstep : ∀ a s e t, R a s → step s e t → ∃ b, astep a e b ∧ R b t)
    (h : Run step s es t) {a : τ} (ha : R a s) :
    ∃ b, Run astep a es b ∧ R b t := by
  induction h generalizing a with
  | nil => exact ⟨a, .nil a, ha⟩
  | cons h1 _ ih =>
    obtain ⟨b, hb, hR⟩ := hstep _ _ _ _ ha h1
    obtain ⟨c, hc, hR'⟩ := ih hR
    exact ⟨c, .cons hb hc, hR'⟩

/-- A run of a deterministic, total step is a fold. -/
theorem foldl_iff {f : σ → ε → σ} : Run (fun s e t => f s e = t) s es t ↔ es.foldl f s = t := by
  induction es generalizing s with
  | nil => exact nil_iff
  | cons e es ih =>
    rw [cons_iff, List.foldl_cons, ← ih]
    constructor
    · rintro ⟨_, rfl, h⟩
      exact h
    · exact fun h => ⟨_, rfl, h⟩

/-- A run of fewer steps is a run of more. -/
theorem mono {step' : σ → ε → σ → Prop} (hs : ∀ s e t, step s e t → step' s e t)
    (h : Run step s es t) : Run step' s es t := by
  induction h with
  | nil s => exact .nil s
  | cons h1 _ ih => exact .cons (hs _ _ _ h1) ih

/-- Two guards that agree where an invariant holds have the same runs. -/
theorem guarded_congr {P Q : σ → ε → Prop} (hPQ : ∀ s e, I s → (P s e ↔ Q s e))
    (hI : ∀ s e t, I s → Q s e → step s e t → I t) (hs : I s) :
    Run (Guarded P step) s es t ↔ Run (Guarded Q step) s es t := by
  induction es generalizing s with
  | nil => rw [nil_iff, nil_iff]
  | cons e es ih =>
    rw [cons_iff, cons_iff]
    constructor
    · rintro ⟨u, ⟨hP, hu⟩, hrun⟩
      have hQ := (hPQ s e hs).mp hP
      exact ⟨u, ⟨hQ, hu⟩, (ih (hI s e u hs hQ hu)).mp hrun⟩
    · rintro ⟨u, ⟨hQ, hu⟩, hrun⟩
      exact ⟨u, ⟨(hPQ s e hs).mpr hQ, hu⟩, (ih (hI s e u hs hQ hu)).mpr hrun⟩

end Run
