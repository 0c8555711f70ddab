/-
# What every run of the clock gives

From boot, through any interleaving of `timeout`, `untimeout`, `hardclock` and
`softclock`, the code's chains represent the abstract queue of absolute
deadlines, and the abstract queue accounts for every callout ever armed.
-/
import SunOS.Kern.Callout
import Mathlib.Data.List.Induction

namespace Callout

open List
open Deadlines

/-! ## The abstract queue accounts for every callout -/

variable {q : Deadlines}

/-- Every armed callout is exactly one of pending, cancelled and fired; none has
fired early; they fire in deadline order. -/
structure Accounted (q : Deadlines) : Prop where
  once : (q.pending ++ q.cancelled ++ q.fired.map Prod.fst).Perm q.armed
  ids : q.armed.map Armed.id = List.range q.armed.length
  sorted : q.pending.Pairwise Sooner
  notEarly : ∀ p ∈ q.fired, p.1.deadline ≤ p.2 ∧ p.2 ≤ q.now
  order : q.fired.Pairwise (fun p p' => Sooner p.1 p'.1)
  before : ∀ p ∈ q.fired, ∀ x ∈ q.pending, Sooner p.1 x

theorem accounted_nil : Accounted (history []) where
  once := List.Perm.refl _
  ids := rfl
  sorted := List.Pairwise.nil
  notEarly := by simp [history]
  order := List.Pairwise.nil
  before := by simp [history]

theorem accounted_arm (h : Accounted q) (fn arg : ℕ) (t : ℤ) : Accounted (q.arm fn arg t) := by
  have : IsTrans Armed Sooner := ⟨fun x y z hxy hyz => le_trans hxy hyz⟩
  have : Std.Total (α := Armed) Sooner := ⟨fun x y => le_total x.deadline y.deadline⟩
  refine ⟨?_, ?_, h.sorted.orderedInsert _ _, h.notEarly, h.order, fun p hp x hx => ?_⟩
  · have hins := (perm_orderedInsert Sooner
      (⟨q.armed.length, q.now + (if t ≤ 0 then 1 else t), fn, arg⟩ : Armed) q.pending)
    have hall := (hins.append_right q.cancelled).append_right (q.fired.map Prod.fst)
    exact hall.trans ((h.once.cons _).trans (perm_append_singleton _ _).symm)
  · simp only [arm, map_append, h.ids, map_cons, map_nil, length_append,
      length_singleton, range_succ]
  · rcases (mem_orderedInsert _).mp hx with rfl | hx
    · have hpn := h.notEarly p hp
      simp only [Sooner]
      split_ifs <;> omega
    · exact h.before p hp x hx

theorem accounted_cancel (h : Accounted q) (fn arg : ℕ) : Accounted (q.cancel fn arg) := by
  have hsub : (q.pending.eraseP (Wanted fn arg)).Sublist q.pending := eraseP_sublist
  refine ⟨?_, h.ids, h.sorted.sublist hsub, h.notEarly, h.order,
    fun p hp x hx => h.before p hp x (hsub.subset hx)⟩
  have hmove : (q.pending.eraseP (Wanted fn arg) ++
      (q.pending.find? (Wanted fn arg)).toList).Perm q.pending := by
    cases hf : q.pending.find? (Wanted fn arg) with
    | none =>
      rw [eraseP_of_forall_not (fun x hx => List.find?_eq_none.mp hf x hx)]
      simp
    | some x =>
      obtain ⟨hx, as, bs, heq, has⟩ := List.find?_eq_some_iff_append.mp hf
      have hrm : q.pending.eraseP (Wanted fn arg) = as ++ bs := by
        rw [heq, eraseP_append_right _ (fun y hy => by simpa using has y hy),
          eraseP_cons_of_pos hx]
      rw [hrm, heq, Option.toList_some, append_assoc]
      exact (perm_append_singleton x bs).append_left as
  have hrot : (q.pending.eraseP (Wanted fn arg) ++
      (q.cancelled ++ (q.pending.find? (Wanted fn arg)).toList)).Perm
      (q.pending ++ q.cancelled) := by
    refine List.Perm.trans ?_ (hmove.append_right q.cancelled)
    rw [append_assoc]
    exact List.perm_append_comm.append_left _
  exact (hrot.append_right _).trans h.once

theorem accounted_fire (h : Accounted q) : Accounted q.fire := by
  unfold fire
  cases hp : q.pending with
  | nil => exact h
  | cons x rest =>
    by_cases hdue : x.deadline ≤ q.now
    · simp only [if_pos hdue]
      have hsorted := h.sorted
      have hbefore := h.before
      rw [hp] at hbefore
      rw [hp, pairwise_cons] at hsorted
      refine ⟨?_, h.ids, hsorted.2, ?_, ?_, ?_⟩
      · have honce := h.once
        rw [hp] at honce
        refine List.Perm.trans ?_ honce
        rw [map_append, map_singleton, ← append_assoc]
        exact perm_append_singleton _ _
      · intro p hp'
        rcases List.mem_append.mp hp' with hold | hnew
        · exact h.notEarly p hold
        · rw [List.mem_singleton.mp hnew]
          exact ⟨hdue, le_refl _⟩
      · rw [pairwise_append]
        refine ⟨h.order, pairwise_singleton _ _, fun p hp' p' hp'' => ?_⟩
        rw [List.mem_singleton.mp hp'']
        exact hbefore p hp' x (by simp)
      · intro p hp' y hy
        rcases List.mem_append.mp hp' with hold | hnew
        · exact hbefore p hold y (by simp [hy])
        · rw [List.mem_singleton.mp hnew]
          exact hsorted.1 y hy
    · simp only [if_neg hdue]
      exact h

theorem accounted_step (h : Accounted q) (e : Event) : Accounted (q.step e) := by
  cases e with
  | timeout fn arg t => exact accounted_arm h fn arg t
  | untimeout fn arg => exact accounted_cancel h fn arg
  | hardclock =>
    refine ⟨h.once, h.ids, h.sorted, fun p hp => ?_, h.order, h.before⟩
    have := h.notEarly p hp
    simp only [step]
    omega
  | softclock => exact accounted_fire h

/-! ## Reading the history off the events -/

/-- The hardclock ticks among the events. -/
def ticks (es : List Event) : ℤ := es.count .hardclock

/-- Is this event a call of `timeout`? -/
def isTimeout : Event → Bool
  | .timeout _ _ _ => true
  | _ => false

/-- The calls of `timeout` among the events. -/
def timeouts (es : List Event) : ℕ := es.countP isTimeout

theorem history_concat (es : List Event) (e : Event) :
    history (es ++ [e]) = (history es).step e := by
  simp [history]

theorem fire_now (q : Deadlines) : q.fire.now = q.now := by
  unfold fire
  split
  · rfl
  · split_ifs <;> rfl

theorem fire_armed (q : Deadlines) : q.fire.armed = q.armed := by
  unfold fire
  split
  · rfl
  · split_ifs <;> rfl

theorem history_now (es : List Event) : (history es).now = ticks es := by
  induction es using List.reverseRecOn with
  | nil => rfl
  | append_singleton es e ih =>
    rw [history_concat]
    cases e with
    | hardclock => simp [step, ih, ticks]
    | timeout fn arg t => simpa [step, arm, ticks] using ih
    | untimeout fn arg => simpa [step, cancel, ticks] using ih
    | softclock => simpa [step, fire_now, ticks] using ih

theorem armed_step (q : Deadlines) (e : Event) :
    (q.step e).armed = q.armed ++ match e with
      | .timeout fn arg t => [⟨q.armed.length, q.now + (if t ≤ 0 then 1 else t), fn, arg⟩]
      | _ => [] := by
  cases e with
  | timeout fn arg t => rfl
  | untimeout fn arg => simp [step, cancel]
  | hardclock => simp [step]
  | softclock => simp [step, fire_armed]

theorem history_armed_length (es : List Event) : (history es).armed.length = timeouts es := by
  induction es using List.reverseRecOn with
  | nil => rfl
  | append_singleton es e ih =>
    rw [history_concat, armed_step, length_append, ih]
    cases e <;> simp [timeouts, isTimeout]

/-- The history never forgets an armed callout. -/
theorem history_armed_mono (es fs : List Event) :
    (history es).armed <+: (history (es ++ fs)).armed := by
  induction fs using List.reverseRecOn with
  | nil => simp
  | append_singleton fs e ih =>
    rw [← append_assoc, history_concat, armed_step]
    exact ih.trans (prefix_append _ _)

/-- A call of `timeout` arms a callout for `t` ticks after those already passed. -/
theorem history_armed_mem (pre post : List Event) (fn arg : ℕ) {t : ℤ} (ht : 1 ≤ t) :
    ⟨timeouts pre, ticks pre + t, fn, arg⟩ ∈
      (history (pre ++ .timeout fn arg t :: post)).armed := by
  have hmono := history_armed_mono (pre ++ [.timeout fn arg t]) post
  rw [append_assoc, singleton_append] at hmono
  apply hmono.subset
  rw [history_concat, armed_step, history_armed_length, history_now]
  simp only [if_neg (show ¬ t ≤ 0 by omega)]
  exact mem_append_right _ (mem_singleton_self _)

/-! ## Runs of the code -/

/-- **The queue implements absolute deadlines.**  After the events `es`, with `s`
the state of the two chains and `n` the size of the callout table. -/
structure AbsoluteDeadlines (n : ℕ) (es : List Event) (s : Clock) : Prop where
  /-- a callout armed with `t ≥ 1` has its deadline exactly `t` ticks later -/
  armed : ∀ pre post fn arg t, es = pre ++ .timeout fn arg t :: post → 1 ≤ t →
    ⟨timeouts pre, ticks pre + t, fn, arg⟩ ∈ (history es).armed
  /-- every armed callout is pending, cancelled or fired, and only once -/
  once : ((history es).pending ++ (history es).cancelled ++
    (history es).fired.map Prod.fst).Perm (history es).armed
  ids : ((history es).armed.map Armed.id).Nodup
  /-- `calltodo` holds the pending callouts in deadline order, each of them due
  exactly from its deadline on, and then with minus its lateness as its time -/
  sorted : (history es).pending.Pairwise Sooner
  length : s.calltodo.length = (history es).pending.length
  todo : ∀ i x c, (history es).pending[i]? = some x → s.calltodo[i]? = some c →
    c.c_func = x.func ∧ c.c_arg = x.arg ∧ (Due s.calltodo i ↔ x.deadline ≤ ticks es) ∧
      (x.deadline ≤ ticks es → c.c_time = x.deadline - ticks es)
  /-- the calls made are those of the fired callouts, none early, in deadline
  order, with minus the lateness at the call as second argument -/
  calls : s.called = (history es).fired.map callOf
  notEarly : ∀ p ∈ (history es).fired, p.1.deadline ≤ p.2
  order : (history es).fired.Pairwise (fun p p' => Sooner p.1 p'.1)
  /-- the cells of the table are on `calltodo` and `callfree`, each once -/
  cells : (cells s.calltodo ++ s.callfree).Perm (List.range n)

instance : ∀ s e, Decidable (InTime s e)
  | s, .hardclock => inferInstanceAs (Decidable (∀ c ∈ s.calltodo, c.c_time ≠ INT_MIN))
  | _, .timeout _ _ _ => isTrue trivial
  | _, .untimeout _ _ => isTrue trivial
  | _, .softclock => isTrue trivial

/-- One step of the code, answered by the abstract queue. -/
theorem represents_step {n : ℕ} {s s' : Clock} {e : Event}
    (h : Represents n q s) (hs : Guarded InTime Step s e s') : Represents n (q.step e) s' := by
  obtain ⟨hin, hstep⟩ := hs
  cases e with
  | timeout fn arg t => exact represents_timeout h hstep.1 hstep.2
  | untimeout fn arg =>
    obtain rfl := hstep
    exact represents_untimeout h fn arg
  | hardclock =>
    obtain rfl := hstep
    exact represents_hardclock h hin
  | softclock =>
    obtain rfl := hstep
    exact represents_softclock h

theorem represents_run {n : ℕ} {es : List Event} {s : Clock}
    (h : Run (Guarded InTime Step) (boot n) es s) : Represents n (history es) s := by
  obtain ⟨q, hrun, hq⟩ := Run.simulation
    (fun q e q' => q.step e = q') (Represents n)
    (fun q s e s' hR hs => ⟨q.step e, rfl, represents_step hR hs⟩) h (represents_boot n)
  obtain rfl := Run.foldl_iff.mp hrun
  exact hq

theorem accounted_history (es : List Event) : Accounted (history es) := by
  induction es using List.reverseRecOn with
  | nil => exact accounted_nil
  | append_singleton es e ih =>
    rw [history_concat]
    exact accounted_step ih e

/-- In every run in which no tick finds a callout already `2 ^ 31` ticks late,
the callout queue implements absolute deadlines. -/
theorem absoluteDeadlines_of_run (n : ℕ) (es : List Event) (s : Clock)
    (h : Run (Guarded InTime Step) (boot n) es s) : AbsoluteDeadlines n es s := by
  have hr := represents_run h
  have ha := accounted_history es
  have henc := hr.encodes
  rw [history_now] at henc
  refine ⟨?_, ha.once, ?_, ha.sorted, (encodes_length henc).symm, ?_, hr.calls,
    fun p hp => (ha.notEarly p hp).1, ha.order, hr.cells⟩
  · rintro pre post fn arg t rfl ht
    exact history_armed_mem pre post fn arg ht
  · rw [ha.ids]
    exact nodup_range
  · intro i x c hx hc
    exact encodes_due henc ha.sorted hx hc

/-- Two callouts for the same tick, one of them cancelled, the other called two
ticks late. -/
theorem absoluteDeadlines_two_callouts :
    AbsoluteDeadlines 2
      [.timeout 7 1 2, .timeout 8 1 2, .untimeout 7 1, .hardclock, .hardclock, .hardclock,
        .hardclock, .softclock]
      ⟨[], [1, 0], [⟨8, 1, -2⟩]⟩ := by
  apply absoluteDeadlines_of_run
  refine .cons ⟨trivial, by decide, rfl⟩ (.cons ⟨trivial, by decide, rfl⟩ ?_)
  refine .cons ⟨trivial, rfl⟩ (.cons ⟨by decide, rfl⟩ (.cons ⟨by decide, rfl⟩ ?_))
  refine .cons ⟨by decide, rfl⟩ (.cons ⟨by decide, rfl⟩ (.cons ⟨trivial, rfl⟩ ?_))
  exact .nil _

/-! ## The lateness an `int` cannot hold -/

/-- A single callout under repeated ticks. -/
theorem run_hardclocks (cell fn arg : ℕ) (t : ℤ) (free : List ℕ) (calls : List Call) (k : ℕ) :
    Run Step ⟨[⟨cell, int32 t, arg, fn⟩], free, calls⟩ (List.replicate k .hardclock)
      ⟨[⟨cell, int32 (t - k), arg, fn⟩], free, calls⟩ := by
  induction k generalizing t with
  | zero =>
    rw [Nat.cast_zero, sub_zero]
    exact .nil _
  | succ k ih =>
    have hstep : Step ⟨[⟨cell, int32 t, arg, fn⟩], free, calls⟩ .hardclock
        ⟨[⟨cell, int32 (t - 1), arg, fn⟩], free, calls⟩ := by
      simp only [Step, hardclock, tick, int32_int32_sub]
      split_ifs <;> rfl
    have hcast : t - ((k + 1 : ℕ) : ℤ) = t - 1 - k := by push_cast; ring
    rw [replicate_succ, hcast]
    exact .cons hstep (ih (t - 1))

/-- A lone callout of deadline 1 stays pending however often the clock ticks. -/
theorem history_pending_hardclocks (k : ℕ) :
    (history (.timeout 0 0 1 :: List.replicate k .hardclock)).pending = [⟨0, 1, 0, 0⟩] := by
  induction k with
  | zero => rfl
  | succ k ih =>
    rw [List.replicate_succ', ← cons_append, history_concat]
    exact ih

/-- A queue of absolute deadlines keeps that callout due. -/
theorem int32_nonpos_of_absoluteDeadlines {k : ℕ} (hk : 1 ≤ k)
    (h : AbsoluteDeadlines 1 (.timeout 0 0 1 :: List.replicate k .hardclock)
      ⟨[⟨0, int32 (1 - k), 0, 0⟩], [], []⟩) : int32 (1 - k) ≤ 0 := by
  have hticks : ticks (.timeout 0 0 1 :: List.replicate k .hardclock) = k := by
    simp [ticks]
  have hpend := history_pending_hardclocks k
  have hdue := (h.todo 0 ⟨0, 1, 0, 0⟩ ⟨0, int32 (1 - k), 0, 0⟩ (by rw [hpend]; rfl) rfl).2.2.1
  have hall := hdue.mpr (by simp only [hticks]; omega)
  exact hall _ (mem_singleton_self _)

/-- A callout left on the queue for more than `2 ^ 31` ticks after its deadline is
no longer due: its `c_time` has wrapped to a positive value. -/
theorem not_absoluteDeadlines_wrapped :
    ¬ ∀ n es s, Run Step (boot n) es s → AbsoluteDeadlines n es s := by
  intro hall
  have hrun (k : ℕ) : Run Step (boot 1) (.timeout 0 0 1 :: List.replicate k .hardclock)
      ⟨[⟨0, int32 (1 - k), 0, 0⟩], [], []⟩ :=
    .cons ⟨by decide, rfl⟩ (run_hardclocks 0 0 0 1 [] [] k)
  have hle (k : ℕ) (hk : 1 ≤ k) : int32 (1 - k) ≤ 0 :=
    int32_nonpos_of_absoluteDeadlines hk (hall 1 _ _ (hrun k))
  have hwrap := hle 2147483650 (by norm_num)
  norm_num [int32] at hwrap

end Callout
