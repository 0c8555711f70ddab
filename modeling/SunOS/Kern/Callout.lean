/-
# The callout queue (`sys/kern_clock.c`)

`calltodo` is a chain of `struct callout` cells ordered by the time they are to
fire, each holding its time as a delta: the cells at the front with `c_time ≤ 0`
are due, a negative time counting the ticks they are late, and every later cell
holds the ticks from its predecessor to itself.  `callfree` chains the cells not
in use.

The four routines below are translated from the source.  A cell is named by its
index in the `callout` table; a `c_next` chain is a list.  `c_time` is a 32-bit
`int`, so every store into it goes through `int32`.
-/
import SunOS.Lib.Word
import SunOS.Lib.Run
import Mathlib.Data.List.Basic
import Mathlib.Data.List.Sort
import Mathlib.Tactic.Linarith

namespace Callout

open List

/-- `struct callout`; `cell` is the index of the structure in the callout table,
and `c_arg` and `c_func` are addresses. -/
structure callout where
  cell : ℕ
  c_time : ℤ
  c_arg : ℕ
  c_func : ℕ
  deriving DecidableEq, Repr

/-- A call `(*func)(arg, a)` made by `softclock`. -/
structure Call where
  func : ℕ
  arg : ℕ
  a : ℤ
  deriving DecidableEq, Repr

/-- The two chains, and the calls `softclock` has made so far, oldest first. -/
structure Clock where
  calltodo : List callout
  callfree : List ℕ
  called : List Call
  deriving DecidableEq, Repr

/-- The chains at boot: `machdep.c` links all `ncallout` cells on `callfree`. -/
def boot (ncallout : ℕ) : Clock := ⟨[], List.range ncallout, []⟩

/-- The loop of `hardclock` over the queue: decrement the first cell that is not
late, and every late cell before it. -/
def tick : List callout → List callout
  | [] => []
  | p1 :: rest =>
    let c_time := int32 (p1.c_time - 1)
    if c_time > 0 then { p1 with c_time := c_time } :: rest
    else if c_time = 0 then { p1 with c_time := c_time } :: rest
    else { p1 with c_time := c_time } :: tick rest

/-- `hardclock`, as far as the callout queue is concerned. -/
def hardclock (s : Clock) : Clock := { s with calltodo := tick s.calltodo }

/-- One turn of the loop of `softclock`: pop the first cell if it is due and call
its function with its `c_time` as second argument; otherwise the loop ends. -/
def softclock (s : Clock) : Clock :=
  match s.calltodo with
  | [] => s
  | p1 :: rest =>
    if p1.c_time > 0 then s
    else ⟨rest, p1.cell :: s.callfree, s.called ++ [⟨p1.c_func, p1.c_arg, p1.c_time⟩]⟩

/-- The search loop of `timeout` and the linking after it: `t` loses the positive
deltas it passes, and the cell it stops at loses the remaining `t`. -/
def link (pnew : callout) : ℤ → List callout → List callout
  | t, [] => [{ pnew with c_time := t }]
  | t, p2 :: rest =>
    if p2.c_time < t then
      p2 :: link pnew (if p2.c_time > 0 then int32 (t - p2.c_time) else t) rest
    else { pnew with c_time := t } :: { p2 with c_time := int32 (p2.c_time - t) } :: rest

/-- `timeout(fun, arg, t)`; `none` is the panic "timeout table overflow". -/
def timeout (fn arg : ℕ) (t : ℤ) (s : Clock) : Option Clock :=
  let t := if t ≤ 0 then 1 else t
  match s.callfree with
  | [] => none
  | cell :: free =>
    some { s with calltodo := link ⟨cell, 0, arg, fn⟩ t s.calltodo, callfree := free }

/-- The successor of a removed cell absorbs its delta if that is positive. -/
def absorb (c_time : ℤ) : List callout → List callout
  | [] => []
  | next :: rest =>
    if c_time > 0 then { next with c_time := int32 (next.c_time + c_time) } :: rest
    else next :: rest

/-- The loop of `untimeout`: unlink the first cell with this function and
argument.  The result pairs the chain with the cell unlinked, if any. -/
def unlink (fn arg : ℕ) : List callout → List callout × Option ℕ
  | [] => ([], none)
  | p2 :: rest =>
    if p2.c_func = fn ∧ p2.c_arg = arg then (absorb p2.c_time rest, some p2.cell)
    else
      let r := unlink fn arg rest
      (p2 :: r.1, r.2)

/-- `untimeout(fun, arg)`. -/
def untimeout (fn arg : ℕ) (s : Clock) : Clock :=
  let r := unlink fn arg s.calltodo
  { s with calltodo := r.1, callfree := r.2.toList ++ s.callfree }

/-- What can happen to the queue. -/
inductive Event where
  | timeout (fn arg : ℕ) (t : ℤ)
  | untimeout (fn arg : ℕ)
  | hardclock
  | softclock
  deriving DecidableEq, Repr

/-- One event.  The argument `t` of `timeout` is an `int`, so only values that
fit are ever passed; a panic has no successor. -/
def Step (s : Clock) (e : Event) (s' : Clock) : Prop :=
  match e with
  | .timeout fn arg t => Fits t ∧ timeout fn arg t s = some s'
  | .untimeout fn arg => untimeout fn arg s = s'
  | .hardclock => hardclock s = s'
  | .softclock => softclock s = s'

end Callout

/-! # The callout queue implements absolute deadlines

The abstract queue keeps, for every callout still pending, the tick at which it
is to fire, and a history of what became of the others.  The code's delta list
represents it: `Encodes now` relates the two, and every routine of
`Callout` takes related states to related states.
-/

namespace Callout

open List

/-! ## The abstract queue -/

/-- A callout armed by a call of `timeout`: `id` numbers the calls, `deadline` is
the tick it is armed for. -/
structure Armed where
  id : ℕ
  deadline : ℤ
  func : ℕ
  arg : ℕ
  deriving DecidableEq, Repr

/-- The abstract queue: the ticks so far, every callout ever armed, those still
pending in the order they are to fire, those cancelled, and those fired together
with the tick they fired at. -/
structure Deadlines where
  now : ℤ
  armed : List Armed
  pending : List Armed
  cancelled : List Armed
  fired : List (Armed × ℤ)
  deriving DecidableEq, Repr

namespace Deadlines

/-- The order of the queue. -/
def Sooner (x y : Armed) : Prop := x.deadline ≤ y.deadline

instance : DecidableRel Sooner := fun x y => inferInstanceAs (Decidable (x.deadline ≤ y.deadline))

/-- Arm a callout `t` ticks from now. -/
def arm (fn arg : ℕ) (t : ℤ) (q : Deadlines) : Deadlines :=
  let x : Armed := ⟨q.armed.length, q.now + (if t ≤ 0 then 1 else t), fn, arg⟩
  { q with armed := q.armed ++ [x], pending := q.pending.orderedInsert Sooner x }

/-- Does `untimeout(fn, arg)` ask for this callout? -/
def Wanted (fn arg : ℕ) (x : Armed) : Bool := x.func = fn ∧ x.arg = arg

/-- Cancel the next callout to fire among those with this function and argument. -/
def cancel (fn arg : ℕ) (q : Deadlines) : Deadlines :=
  { q with
    pending := q.pending.eraseP (Wanted fn arg)
    cancelled := q.cancelled ++ (q.pending.find? (Wanted fn arg)).toList }

/-- Fire the next callout if its deadline has come. -/
def fire (q : Deadlines) : Deadlines :=
  match q.pending with
  | [] => q
  | x :: rest =>
    if x.deadline ≤ q.now then { q with pending := rest, fired := q.fired ++ [(x, q.now)] }
    else q

/-- One event of the abstract queue. -/
def step (q : Deadlines) : Event → Deadlines
  | .timeout fn arg t => q.arm fn arg t
  | .untimeout fn arg => q.cancel fn arg
  | .hardclock => { q with now := q.now + 1 }
  | .softclock => q.fire

/-- What the events `es` come to. -/
def history (es : List Event) : Deadlines := es.foldl step ⟨0, [], [], [], []⟩

end Deadlines

open Deadlines

/-! ## Delta lists -/

variable {b : ℤ} {cs : List callout} {xs : List Armed} {x : Armed}

/-- `Encodes b xs cs`: the cells `cs` hold the callouts `xs` as deltas from the
time `b`.  A deadline that is past leaves the base of the next delta at `b`. -/
inductive Encodes : ℤ → List Armed → List callout → Prop
  | nil (b : ℤ) : Encodes b [] []
  | cons {b : ℤ} {x : Armed} {c : callout} {xs : List Armed} {cs : List callout} :
      c.c_time = x.deadline - b → c.c_func = x.func → c.c_arg = x.arg →
      Encodes (max b x.deadline) xs cs → Encodes b (x :: xs) (c :: cs)

/-- Every deadline is within 32-bit reach of `b`. -/
def InReach (b : ℤ) (xs : List Armed) : Prop := ∀ x ∈ xs, Fits (x.deadline - b)

/-- `hardclock` moves the base on by one tick, provided no callout is already as
late as `c_time` can say. -/
theorem encodes_tick (h : Encodes b xs cs)
    (hr : InReach b xs) (hlate : ∀ c ∈ cs, c.c_time ≠ INT_MIN) :
    Encodes (b + 1) xs (tick cs) := by
  induction h with
  | nil => exact .nil _
  | @cons b x c xs cs ht hf ha hrest ih =>
    have hfit := fits_iff.mp (hr x (by simp))
    have hne : c.c_time ≠ -2147483648 := hlate c (by simp)
    have hdec : int32 (c.c_time - 1) = c.c_time - 1 := by
      apply int32_of_fits
      rw [fits_iff]
      lia
    unfold tick
    simp only [hdec]
    by_cases hlt : x.deadline ≤ b
    · have hb : max b x.deadline = b := max_eq_left hlt
      have hb' : max (b + 1) x.deadline = b + 1 := max_eq_left (by lia)
      rw [if_neg (by lia), if_neg (by lia)]
      refine .cons (by simp only; lia) hf ha ?_
      rw [hb']
      rw [hb] at ih
      exact ih (fun y hy => hr y (by simp [hy])) (fun d hd => hlate d (by simp [hd]))
    · have hb : max b x.deadline = max (b + 1) x.deadline := by lia
      rw [hb] at hrest
      by_cases hpos : c.c_time - 1 > 0
      · rw [if_pos hpos]
        exact .cons (by simp only; lia) hf ha hrest
      · rw [if_neg hpos, if_pos (by lia)]
        exact .cons (by simp only; lia) hf ha hrest

/-- The search loop of `timeout` inserts at the deadline's place in the order. -/
theorem encodes_link (h : Encodes b xs cs)
    (hr : ∀ y ∈ xs, y.deadline - b ≤ INT_MAX) {c : callout} {t : ℤ}
    (ht : t = x.deadline - b) (hpos : 0 < t) (htmax : t ≤ INT_MAX)
    (hf : c.c_func = x.func) (ha : c.c_arg = x.arg) :
    Encodes b (xs.orderedInsert Sooner x) (link c t cs) := by
  have hmax : INT_MAX = 2147483647 := rfl
  induction h generalizing t with
  | nil => exact .cons ht hf ha (.nil _)
  | @cons b y p ys ps hpt hpf hpa hrest ih =>
    have hy := hr y (by simp)
    unfold link
    by_cases hlt : p.c_time < t
    · have hrem : (if p.c_time > 0 then int32 (t - p.c_time) else t)
          = x.deadline - max b y.deadline := by
        split_ifs with hp
        · rw [int32_of_fits (by rw [fits_iff]; lia)]
          lia
        · lia
      rw [if_pos hlt, orderedInsert_cons, if_neg (by unfold Sooner; lia), hrem]
      refine .cons hpt hpf hpa (ih (fun z hz => ?_) rfl (by lia) (by lia))
      have hz' := hr z (by simp [hz])
      lia
    · rw [if_neg hlt, orderedInsert_cons, if_pos (by unfold Sooner; lia)]
      have hb : max (max b x.deadline) y.deadline = max b y.deadline := by lia
      refine .cons ht hf ha (.cons ?_ hpf hpa (hb ▸ hrest))
      rw [int32_of_fits (by rw [fits_iff]; lia)]
      lia

/-- Unlinking a cell and letting its successor absorb its delta moves the base
of the rest back. -/
theorem encodes_absorb (h : Encodes (max b x.deadline) xs cs) (hord : ∀ y ∈ xs, Sooner x y)
    (hr : ∀ y ∈ xs, y.deadline - b ≤ INT_MAX) :
    Encodes b xs (absorb (x.deadline - b) cs) := by
  have hmax : INT_MAX = 2147483647 := rfl
  cases h with
  | nil => exact .nil b
  | @cons _ y p ys ps hpt hpf hpa hrest =>
    have hy := hr y (by simp)
    have hxy : x.deadline ≤ y.deadline := hord y (by simp)
    have hb : max (max b x.deadline) y.deadline = max b y.deadline := by lia
    rw [hb] at hrest
    by_cases hpos : x.deadline - b > 0
    · rw [absorb, if_pos hpos]
      refine .cons ?_ hpf hpa hrest
      rw [int32_of_fits (by rw [fits_iff]; lia)]
      lia
    · rw [absorb, if_neg hpos]
      exact .cons (by lia) hpf hpa hrest

/-- `untimeout` removes the first callout wanted, and no other. -/
theorem encodes_unlink (h : Encodes b xs cs)
    (hord : xs.Pairwise Sooner) (hr : ∀ y ∈ xs, y.deadline - b ≤ INT_MAX) (fn arg : ℕ) :
    Encodes b (xs.eraseP (Wanted fn arg)) (unlink fn arg cs).1 := by
  induction h with
  | nil => exact .nil _
  | @cons b y p ys ps hpt hpf hpa hrest ih =>
    rw [pairwise_cons] at hord
    unfold unlink
    by_cases hm : p.c_func = fn ∧ p.c_arg = arg
    · have hw : Wanted fn arg y = true := by simp [Wanted, ← hpf, ← hpa, hm]
      rw [if_pos hm, eraseP_cons_of_pos hw, hpt]
      exact encodes_absorb hrest hord.1 (fun z hz => hr z (by simp [hz]))
    · have hw : ¬ Wanted fn arg y = true := by simpa [Wanted, ← hpf, ← hpa] using hm
      rw [if_neg hm, eraseP_cons_of_neg hw]
      refine .cons hpt hpf hpa (ih hord.2 (fun z hz => ?_))
      have hz' := hr z (by simp [hz])
      omega

/-! ## Due cells -/

/-- The cell at position `i` is due: it and every cell before it have `c_time ≤ 0`.
These are the events "due" of the comment in `hardclock`. -/
def Due (cs : List callout) (i : ℕ) : Prop := ∀ c ∈ cs.take (i + 1), c.c_time ≤ 0

theorem encodes_length (h : Encodes b xs cs) : xs.length = cs.length := by
  induction h with
  | nil => rfl
  | cons _ _ _ _ ih => simp [ih]

/-- A cell is due exactly when its deadline has come, and then its `c_time` is
minus the ticks it is late. -/
theorem encodes_due (h : Encodes b xs cs)
    (hord : xs.Pairwise Sooner) {i : ℕ} {c : callout} (hx : xs[i]? = some x)
    (hc : cs[i]? = some c) :
    c.c_func = x.func ∧ c.c_arg = x.arg ∧ (Due cs i ↔ x.deadline ≤ b) ∧
      (x.deadline ≤ b → c.c_time = x.deadline - b) := by
  induction h generalizing i with
  | nil => simp at hx
  | @cons b y p ys ps hpt hpf hpa hrest ih =>
    rw [pairwise_cons] at hord
    cases i with
    | zero =>
      simp only [List.getElem?_cons_zero, Option.some.injEq] at hx hc
      subst hx hc
      refine ⟨hpf, hpa, ?_, fun _ => hpt⟩
      simp only [Due, zero_add, take_succ_cons, take_zero, mem_singleton,
        forall_eq]
      lia
    | succ i =>
      obtain ⟨hf, ha, hdue, hlate⟩ := ih hord.2 hx hc
      have hyx : y.deadline ≤ x.deadline := hord.1 x (List.mem_of_getElem? hx)
      have hsplit : Due (p :: ps) (i + 1) ↔ p.c_time ≤ 0 ∧ Due ps i := by
        simp only [Due, take_succ_cons, forall_mem_cons]
      refine ⟨hf, ha, ?_, fun hle => ?_⟩
      · rw [hsplit, hdue]
        lia
      · have := hlate (by lia)
        lia

/-! ## Cells -/

/-- The cells of a chain. -/
def cells (cs : List callout) : List ℕ := cs.map callout.cell

theorem cells_tick (cs : List callout) : cells (tick cs) = cells cs := by
  induction cs with
  | nil => rfl
  | cons c cs ih =>
    unfold tick
    simp only
    split_ifs
    · rfl
    · rfl
    · simpa [cells] using ih

theorem cells_link (c : callout) (t : ℤ) (cs : List callout) :
    (cells (link c t cs)).Perm (c.cell :: cells cs) := by
  induction cs generalizing t with
  | nil => exact List.Perm.refl _
  | cons p ps ih =>
    unfold link
    split_ifs
    · exact ((ih _).cons p.cell).trans (List.Perm.swap _ _ _)
    · exact ((ih _).cons p.cell).trans (List.Perm.swap _ _ _)
    · exact List.Perm.refl _

theorem cells_absorb (t : ℤ) (cs : List callout) : cells (absorb t cs) = cells cs := by
  cases cs with
  | nil => rfl
  | cons c cs =>
    rw [absorb]
    split_ifs <;> rfl

/-- The cell `untimeout` unlinks is the one it hands to `callfree`. -/
theorem cells_unlink (fn arg : ℕ) (cs : List callout) :
    ((unlink fn arg cs).2.toList ++ cells (unlink fn arg cs).1).Perm (cells cs) := by
  induction cs with
  | nil => exact List.Perm.refl _
  | cons p ps ih =>
    unfold unlink
    split_ifs
    · simp only [Option.toList_some, cells_absorb]
      exact List.Perm.refl _
    · have hmid : ((unlink fn arg ps).2.toList ++ p.cell :: cells (unlink fn arg ps).1).Perm
          (p.cell :: ((unlink fn arg ps).2.toList ++ cells (unlink fn arg ps).1)) :=
        perm_middle
      exact hmid.trans (ih.cons p.cell)

/-! ## The representation relation -/

variable {n : ℕ} {q : Deadlines} {s : Clock}

/-- The call a firing makes: the second argument is minus the ticks it is late. -/
def callOf (p : Armed × ℤ) : Call := ⟨p.1.func, p.1.arg, p.1.deadline - p.2⟩

/-- `s` represents `q`, and no deadline is out of the reach of an `int`. -/
structure Represents (n : ℕ) (q : Deadlines) (s : Clock) : Prop where
  encodes : Encodes q.now q.pending s.calltodo
  sorted : q.pending.Pairwise Sooner
  reach : InReach q.now q.pending
  calls : s.called = q.fired.map callOf
  cells : (cells s.calltodo ++ s.callfree).Perm (List.range n)

/-- No callout is as late as an `int` can say when the clock ticks. -/
def InTime (s : Clock) : Event → Prop
  | .hardclock => ∀ c ∈ s.calltodo, c.c_time ≠ INT_MIN
  | _ => True

theorem represents_boot (n : ℕ) : Represents n (history []) (boot n) where
  encodes := .nil _
  sorted := List.Pairwise.nil
  reach := by simp [InReach, history]
  calls := rfl
  cells := List.Perm.refl _

theorem represents_timeout {s s' : Clock} (h : Represents n q s)
    {fn arg : ℕ} {t : ℤ} (ht : Fits t) (hs : timeout fn arg t s = some s') :
    Represents n (q.arm fn arg t) s' := by
  rw [fits_iff] at ht
  unfold timeout at hs
  cases hfree : s.callfree with
  | nil => simp [hfree] at hs
  | cons cell free =>
    simp only [hfree, Option.some.injEq] at hs
    subst hs
    have ht' : (0 : ℤ) < (if t ≤ 0 then 1 else t) ∧ (if t ≤ 0 then 1 else t) ≤ INT_MAX := by
      have hmax : INT_MAX = 2147483647 := rfl
      split_ifs <;> omega
    have : IsTrans Armed Sooner := ⟨fun x y z hxy hyz => le_trans hxy hyz⟩
    have : Std.Total (α := Armed) Sooner := ⟨fun x y => le_total x.deadline y.deadline⟩
    refine ⟨?_, h.sorted.orderedInsert _ _, ?_, h.calls, ?_⟩
    · exact encodes_link h.encodes (fun y hy => (h.reach y hy).2) (by simp) ht'.1 ht'.2 rfl rfl
    · intro y hy
      rcases (mem_orderedInsert _).mp hy with rfl | hy
      · have hmin : INT_MIN = -2147483648 := rfl
        constructor <;> simp only [arm] <;> omega
      · exact h.reach y hy
    · have hc := h.cells
      rw [hfree] at hc
      exact (((cells_link _ _ _).append_right free).trans List.perm_middle.symm).trans hc

theorem represents_untimeout (h : Represents n q s)
    (fn arg : ℕ) : Represents n (q.cancel fn arg) (untimeout fn arg s) := by
  have hsub : (q.pending.eraseP (Wanted fn arg)).Sublist q.pending := eraseP_sublist
  refine ⟨?_, h.sorted.sublist hsub, fun x hx => h.reach x (hsub.subset hx), h.calls, ?_⟩
  · exact encodes_unlink h.encodes h.sorted (fun y hy => (h.reach y hy).2) fn arg
  · have hu := (cells_unlink fn arg s.calltodo).append_right s.callfree
    rw [append_assoc] at hu
    refine List.Perm.trans ?_ (hu.trans h.cells)
    exact perm_append_comm_assoc _ _ _

theorem represents_hardclock (h : Represents n q s) (hin : InTime s .hardclock) :
    Represents n { q with now := q.now + 1 } (hardclock s) := by
  refine ⟨encodes_tick h.encodes h.reach hin, h.sorted, ?_, h.calls, ?_⟩
  · intro x hx
    obtain ⟨hmin, hmax⟩ := fits_iff.mp (h.reach x hx)
    obtain ⟨i, hi⟩ := List.mem_iff_getElem?.mp hx
    obtain ⟨c, hc⟩ : ∃ c, s.calltodo[i]? = some c := by
      obtain ⟨hlt, -⟩ := List.getElem?_eq_some_iff.mp hi
      rw [encodes_length h.encodes] at hlt
      exact ⟨_, List.getElem?_eq_getElem hlt⟩
    have hne : c.c_time ≠ -2147483648 := hin c (List.mem_of_getElem? hc)
    have hlate := (encodes_due h.encodes h.sorted hi hc).2.2.2
    rw [fits_iff]
    simp only
    omega
  · have hc : cells (tick s.calltodo) = cells s.calltodo := cells_tick s.calltodo
    simp only [hardclock, hc]
    exact h.cells

theorem represents_softclock (h : Represents n q s) : Represents n q.fire (softclock s) := by
  unfold softclock fire
  have henc := h.encodes
  revert henc
  cases hp : q.pending <;> cases hc : s.calltodo <;> intro henc <;> cases henc
  · exact h
  · rename_i x xs c cs hct hf ha hrest
    have hsorted := h.sorted
    rw [hp, pairwise_cons] at hsorted
    by_cases hdue : x.deadline ≤ q.now
    · rw [max_eq_left hdue] at hrest
      simp only [if_neg (show ¬ c.c_time > 0 by omega), if_pos hdue]
      refine ⟨hrest, hsorted.2, fun y hy => h.reach y (by simp [hp, hy]), ?_, ?_⟩
      · simp [h.calls, callOf, hct, hf, ha]
      · have hcells := h.cells
        rw [hc] at hcells
        exact List.perm_middle.trans hcells
    · simp only [if_pos (show c.c_time > 0 by omega), if_neg hdue]
      exact h

end Callout
