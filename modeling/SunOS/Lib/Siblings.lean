/-
# Lists linked both ways

Two functions `next` and `prev` give the cell after and the cell before each cell, if there
is one.  `Siblings next prev l` says that the cells of `l` are linked in this order, both ways,
with nothing before the first and nothing after the last.  A cell goes into a list, and out of
it, by a change to its neighbours.
-/
import Mathlib.Data.List.Nodup
import Mathlib.Logic.Relation

variable {α : Type*} {next prev next' prev' : α → Option α} {l m : List α} {x : α}

/-! ## Splits of a list -/

variable {P : List α → α → List α → Prop}

/-- A cell of `l ++ m` is one of `l` or one of `m`. -/
theorem List.forall_split_append : (∀ k a n, l ++ m = k ++ a :: n → P k a n) ↔
      (∀ k a n, l = k ++ a :: n → P k a (n ++ m)) ∧ ∀ k a n, m = k ++ a :: n → P (l ++ k) a n := by
  constructor
  · intro h
    refine ⟨?_, ?_⟩
    · rintro k a n rfl
      exact h k a (n ++ m) (by rw [List.append_assoc, List.cons_append])
    · rintro k a n rfl
      exact h (l ++ k) a n (by rw [List.append_assoc])
  · rintro ⟨h1, h2⟩ k a n heq
    rcases List.append_eq_append_iff.mp heq with ⟨c, rfl, rfl⟩ | ⟨c, rfl, hc⟩
    · exact h2 c a n rfl
    · cases c with
      | nil =>
        have hm : m = a :: n := hc.symm
        subst hm
        have := h2 [] a n rfl
        rwa [List.append_nil, List.append_nil] at this
      | cons b c =>
        obtain ⟨rfl, rfl⟩ := hc
        exact h1 k a c rfl

theorem List.forall_split_cons : (∀ k a n, x :: m = k ++ a :: n → P k a n) ↔
      P [] x m ∧ ∀ k a n, m = k ++ a :: n → P (x :: k) a n := by
  constructor
  · intro h
    refine ⟨h [] x m rfl, ?_⟩
    rintro k a n rfl
    exact h (x :: k) a n rfl
  · rintro ⟨h1, h2⟩ k a n heq
    cases k with
    | nil =>
      obtain ⟨rfl, rfl⟩ := heq
      exact h1
    | cons b k =>
      obtain ⟨rfl, rfl⟩ := heq
      exact h2 k a n rfl

/-! ## Siblings -/

/-- Each cell of `l` is linked to its neighbours in `l`. -/
def Siblings (next prev : α → Option α) (l : List α) : Prop :=
  ∀ k a n, l = k ++ a :: n → next a = n.head? ∧ prev a = k.getLast?

namespace Siblings

theorem nil : Siblings next prev [] := by
  intro k a n h
  cases k <;> cases h

/-- Only the links of its own cells matter. -/
theorem congr (h : Siblings next prev l) (hn : ∀ a ∈ l, next' a = next a)
    (hp : ∀ a ∈ l, prev' a = prev a) : Siblings next' prev' l := by
  intro k a n heq
  have ha : a ∈ l := by simp [heq]
  rw [hn a ha, hp a ha]
  exact h k a n heq

/-- From a cell on, the links determine the rest. -/
theorem rest_unique {k k' n n' : List α} (h : Siblings next prev l) (h' : Siblings next prev m)
    (hl : l = k ++ x :: n) (hm : m = k' ++ x :: n') : n = n' := by
  induction n generalizing k k' n' x with
  | nil =>
    have h1 := (h k x [] hl).1
    rw [(h' k' x n' hm).1] at h1
    cases n' with
    | nil => rfl
    | cons b n' => cases h1
  | cons a n ih =>
    have h1 := (h k x (a :: n) hl).1
    rw [(h' k' x n' hm).1] at h1
    cases n' with
    | nil => cases h1
    | cons b n' =>
      have hab : b = a := Option.some.inj h1
      subst hab
      have hl' : l = (k ++ [x]) ++ b :: n := by
        rw [hl, List.append_assoc]
        rfl
      have hm' : m = (k' ++ [x]) ++ b :: n' := by
        rw [hm, List.append_assoc]
        rfl
      rw [ih hl' hm']

/-- The first cell determines the list. -/
theorem unique (h : Siblings next prev l) (h' : Siblings next prev m) (hd : l.head? = m.head?) :
    l = m := by
  cases l with
  | nil =>
    cases m with
    | nil => rfl
    | cons b m => cases hd
  | cons a l =>
    cases m with
    | nil => cases hd
    | cons b m =>
      have hab : a = b := Option.some.inj hd
      subst hab
      rw [h.rest_unique h' (show a :: l = [] ++ a :: l from rfl)
        (show a :: m = [] ++ a :: m from rfl)]

/-- **No cell comes twice.** -/
theorem nodup (h : Siblings next prev l) : l.Nodup := by
  have hsuffix : ∀ n k : List α, l = k ++ n → n.Nodup := by
    intro n
    induction n with
    | nil => exact fun _ _ => List.nodup_nil
    | cons a n ih =>
      intro k hk
      refine List.nodup_cons.mpr ⟨fun hmem => ?_, ih (k ++ [a]) ?_⟩
      · -- what follows the second time would be what follows the first
        obtain ⟨p, q, rfl⟩ := List.append_of_mem hmem
        have heq := h.rest_unique h hk
          (show l = (k ++ a :: p) ++ a :: q by rw [hk, List.append_assoc]; rfl)
        have := congrArg List.length heq
        simp only [List.length_append, List.length_cons] at this
        omega
      · rw [hk, List.append_assoc]
        rfl
  exact hsuffix l [] rfl

/-! ## Changes -/

variable {k n : List α}

/-- In a list without repeats the last cell is the one with none after it. -/
theorem getLast?_split {a : α} (hnd : (k ++ a :: n).Nodup) :
    (k ++ a :: n).getLast? = some a ↔ n = [] := by
  rw [List.getLast?_append_cons]
  cases n with
  | nil => exact iff_of_true rfl rfl
  | cons b n =>
    refine iff_of_false (fun hlast => ?_) (List.cons_ne_nil b n)
    exact (List.nodup_cons.mp (List.nodup_append.mp hnd).2.1).1 (List.mem_of_getLast? hlast)

/-- And the first the one with none before it. -/
theorem head?_split {a : α} (hnd : (k ++ a :: n).Nodup) :
    (k ++ a :: n).head? = some a ↔ k = [] := by
  cases k with
  | nil => exact iff_of_true rfl rfl
  | cons b k =>
    refine iff_of_false (fun hhead => ?_) (List.cons_ne_nil b k)
    have hb : b = a := Option.some.inj hhead
    rw [hb, List.cons_append, List.nodup_cons] at hnd
    exact hnd.1 (by simp)

/-- **A cell goes in** between `l` and `m`. -/
theorem insert (h : Siblings next prev (l ++ m)) (hnx : next' x = m.head?)
    (hpx : prev' x = l.getLast?)
    (hn : ∀ a ∈ l ++ m, l.getLast? ≠ some a → next' a = next a)
    (hlast : ∀ a, l.getLast? = some a → next' a = some x)
    (hp : ∀ a ∈ l ++ m, m.head? ≠ some a → prev' a = prev a)
    (hfirst : ∀ a, m.head? = some a → prev' a = some x) : Siblings next' prev' (l ++ x :: m) := by
  have hnodup := h.nodup
  obtain ⟨hl, hm, hdis⟩ := List.nodup_append.mp hnodup
  obtain ⟨h1, h2⟩ := List.forall_split_append.mp h
  refine List.forall_split_append.mpr ⟨fun k a n heq => ?_,
    List.forall_split_cons.mpr ⟨⟨hnx, by rw [List.append_nil, hpx]⟩, fun k a n heq => ?_⟩⟩
  · obtain ⟨hna, hpa⟩ := h1 k a n heq
    have hal : a ∈ l := by simp [heq]
    have ha : a ∈ l ++ m := List.mem_append_left _ hal
    refine ⟨?_, (hp a ha fun hd => hdis a hal a (List.mem_of_mem_head? hd) rfl).trans hpa⟩
    cases n with
    | nil => exact hlast a (by rw [heq, getLast?_split (heq ▸ hl)])
    | cons b n =>
      refine (hn a ha fun hd => ?_).trans hna
      rw [heq, getLast?_split (heq ▸ hl)] at hd
      cases hd
  · obtain ⟨hna, hpa⟩ := h2 k a n heq
    have ham : a ∈ m := by simp [heq]
    have ha : a ∈ l ++ m := List.mem_append_right _ ham
    refine ⟨(hn a ha fun hd => hdis a (List.mem_of_getLast? hd) a ham rfl).trans hna, ?_⟩
    cases k with
    | nil =>
      rw [hfirst a (by rw [heq, head?_split (heq ▸ hm)]), List.getLast?_append]
      rfl
    | cons b k =>
      have hne : m.head? ≠ some a := by
        intro hd
        rw [heq, head?_split (heq ▸ hm)] at hd
        cases hd
      rw [hp a ha hne, hpa, List.getLast?_append_cons, List.getLast?_append_cons,
        List.getLast?_cons_cons]

/-- **A cell goes out** from between `l` and `m`. -/
theorem remove (h : Siblings next prev (l ++ x :: m))
    (hn : ∀ a ∈ l ++ m, l.getLast? ≠ some a → next' a = next a)
    (hlast : ∀ a, l.getLast? = some a → next' a = m.head?)
    (hp : ∀ a ∈ l ++ m, m.head? ≠ some a → prev' a = prev a)
    (hfirst : ∀ a, m.head? = some a → prev' a = l.getLast?) : Siblings next' prev' (l ++ m) := by
  have hnodup := h.nodup
  obtain ⟨hl, hxm, hdis⟩ := List.nodup_append.mp hnodup
  obtain ⟨-, hm⟩ := List.nodup_cons.mp hxm
  obtain ⟨h1, h2⟩ := List.forall_split_append.mp h
  obtain ⟨-, h2⟩ := List.forall_split_cons.mp h2
  refine List.forall_split_append.mpr ⟨fun k a n heq => ?_, fun k a n heq => ?_⟩
  · obtain ⟨hna, hpa⟩ := h1 k a n heq
    have hal : a ∈ l := by simp [heq]
    have ha : a ∈ l ++ m := List.mem_append_left _ hal
    refine ⟨?_, (hp a ha fun hd => hdis a hal a
      (List.mem_cons_of_mem _ (List.mem_of_mem_head? hd)) rfl).trans hpa⟩
    cases n with
    | nil => exact hlast a (by rw [heq, getLast?_split (heq ▸ hl)])
    | cons b n =>
      refine (hn a ha fun hd => ?_).trans hna
      rw [heq, getLast?_split (heq ▸ hl)] at hd
      cases hd
  · obtain ⟨hna, hpa⟩ := h2 k a n heq
    have ham : a ∈ m := by simp [heq]
    have ha : a ∈ l ++ m := List.mem_append_right _ ham
    refine ⟨(hn a ha fun hd => hdis a (List.mem_of_getLast? hd) a
      (List.mem_cons_of_mem _ ham) rfl).trans hna, ?_⟩
    cases k with
    | nil =>
      rw [hfirst a (by rw [heq, head?_split (heq ▸ hm)]), List.append_nil]
    | cons b k =>
      have hne : m.head? ≠ some a := by
        intro hd
        rw [heq, head?_split (heq ▸ hm)] at hd
        cases hd
      rw [hp a ha hne, hpa, List.getLast?_append_cons, List.getLast?_append_cons,
        List.getLast?_cons_cons]

end Siblings
