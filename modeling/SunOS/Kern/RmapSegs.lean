/-
# The free segments of a resource map

`Holds m l` says that the slots of `m` are the segments `l`, in address order and
apart, and after them only slots of size 0, one for each free slot and one for
the terminator.  Nothing in the source establishes the zeros past the
terminator, yet every insertion relies on them; here each of the array shifts is
shown to keep them.
-/
import SunOS.Lib.Segments
import SunOS.Lib.Run
import SunOS.Kern.Rmap
import Mathlib.Data.List.TakeWhile

namespace Rmap

open List
open Segments

/-- The lower end of a segment. -/
def lo (b : mapent) : ℤ := b.m_addr

/-- The upper end of a segment. -/
def hi (b : mapent) : ℤ := b.m_addr + b.m_size

/-- A segment of positive units of positive address, ending at an `int`. -/
def Sound (b : mapent) : Prop := 0 < b.m_addr ∧ 0 < b.m_size ∧ b.m_addr + b.m_size ≤ INT_MAX

/-- The slots from the terminator on. -/
def Zeros (tl : List mapent) : Prop := ∀ b ∈ tl, b.m_size = 0

/-- The name of the map, in the last slot. -/
def nameOf (slots : List mapent) : Option ℤ := slots.getLast?.map mapent.m_addr

/-- The map `m` consists of the free segments `l`. -/
structure Holds (m : map) (l : List mapent) : Prop where
  slots : ∃ tl, m.slots = l ++ tl ∧ Zeros tl ∧ tl.length = m.m_free + 1
  sound : ∀ b ∈ l, Sound b
  apart : Apart lo hi l

/-! ## The array shifts -/

variable {l : List mapent}

theorem compress_segs (b : mapent) (hl : ∀ x ∈ l, x.m_size ≠ 0) {t : mapent}
    (ht : t.m_size = 0) (ts : List mapent) :
    compress (b :: (l ++ t :: ts)) = some (l ++ t :: t :: ts) := by
  induction l generalizing b with
  | nil => simp [compress, ht]
  | cons x l ih =>
    rw [cons_append, compress, if_neg (hl x (by simp)), ih x (fun y hy => hl y (by simp [hy]))]
    rfl

theorem pushUp_segs (e : mapent) (hl : ∀ x ∈ l, x.m_size ≠ 0) {t : mapent}
    (ht : t.m_size = 0) (ts : List mapent) :
    pushUp e (l ++ t :: ts) = some (e :: (l ++ ts)) := by
  induction l generalizing e with
  | nil => simp [pushUp, ht]
  | cons x l ih =>
    rw [cons_append, pushUp, if_neg (hl x (by simp)), ih x (fun y hy => hl y (by simp [hy]))]
    rfl

theorem pushUpClear_segs (e : mapent) (hl : ∀ x ∈ l, x.m_size ≠ 0)
    {t n : mapent} (ht : t.m_size = 0) (hn : n.m_size = 0) (ts : List mapent) :
    pushUpClear e (l ++ t :: n :: ts) = some (e :: (l ++ n :: ts)) := by
  induction l generalizing e with
  | nil =>
    have hn' : ({ n with m_size := 0 } : mapent) = n := by rw [← hn]
    simp [pushUpClear, ht, hn']
  | cons x l ih =>
    cases l with
    | nil =>
      have hn' : ({ n with m_size := 0 } : mapent) = n := by rw [← hn]
      simp [pushUpClear, ht, hn', hl x (by simp)]
    | cons y l =>
      rw [cons_append, cons_append, pushUpClear, if_neg (hl x (by simp)),
        ← cons_append, ih x (fun z hz => hl z (by simp [hz]))]
      rfl

/-! ## Walking the slots -/

/-- A walk that stops at the terminator splits the segments. -/
theorem walk_split {p : mapent → Bool} (l : List mapent) {t : mapent} (ht : p t = false)
    (ts : List mapent) :
    (l ++ t :: ts).takeWhile p = l.takeWhile p ∧
      (l ++ t :: ts).dropWhile p = l.dropWhile p ++ t :: ts := by
  induction l with
  | nil => simp [ht]
  | cons a l ih =>
    by_cases ha : p a = true
    · simp [ha, ih.1, ih.2]
    · simp [ha]

theorem Holds.ne_zero {m : map} (h : Holds m l) : ∀ x ∈ l, x.m_size ≠ 0 := by
  intro x hx
  have := (h.sound x hx).2.1
  omega

/-- The segments of a map are what its slots say. -/
theorem Holds.segs_eq {m : map} (h : Holds m l) : segs m.slots = l := by
  obtain ⟨tl, hsl, hz, hlen⟩ := h.slots
  cases tl with
  | nil => simp at hlen
  | cons t ts =>
    have ht : t.m_size = 0 := hz t (by simp)
    rw [segs, hsl, (walk_split l (by simp [ht]) ts).1]
    exact List.takeWhile_eq_self_iff.mpr (fun x hx => by simpa using h.ne_zero x hx)

/-- Only the slots from the terminator on can hold the name. -/
theorem nameOf_append (l : List mapent) (t : mapent) (ts : List mapent) :
    nameOf (l ++ t :: ts) = nameOf (t :: ts) := by
  rw [nameOf, nameOf, List.getLast?_append_of_ne_nil _ (by simp)]

theorem nameOf_cons (b t : mapent) (ts : List mapent) :
    nameOf (b :: t :: ts) = nameOf (t :: ts) := nameOf_append [b] t ts

/-! ## Taking units out -/

variable {a size : ℤ}

/-- `m'` is `m` less the `size` units from `a` on. -/
def Takes (m m' : map) (l : List mapent) (a size : ℤ) : Prop :=
  ∃ l', Holds m' l' ∧ m'.slots.length = m.slots.length ∧ nameOf m'.slots = nameOf m.slots ∧
    Set.Ico a (a + size) ⊆ cover lo hi l ∧
    cover lo hi l' = cover lo hi l \ Set.Ico a (a + size)

/-- Replacing the segment `b` by the segments `xs` left of it, with the tail of
the slots adjusted to their number, takes out exactly what is missing. -/
theorem takes_of_carve {m m' : map} {l1 l2 : List mapent} {b t t' : mapent}
    {ts ts' : List mapent} (xs : List mapent) (h : Holds m (l1 ++ b :: l2))
    (hm : m.slots = l1 ++ b :: l2 ++ t :: ts)
    (hsl : m'.slots = l1 ++ xs ++ l2 ++ t' :: ts') (hz : Zeros (t' :: ts'))
    (hlen : m'.slots.length = m.slots.length) (hroom : ts'.length = m'.m_free)
    (hname : nameOf (t' :: ts') = nameOf (t :: ts))
    (hin : lo b ≤ a ∧ a + size ≤ hi b) (hxs : ∀ x ∈ xs, Sound x) (hap : Apart lo hi xs)
    (hlo : ∀ x ∈ xs, lo b ≤ lo x) (hhi : ∀ x ∈ xs, hi x ≤ hi b)
    (hcov : cover lo hi xs = Set.Ico (lo b) (hi b) \ Set.Ico a (a + size)) :
    Takes m m' (l1 ++ b :: l2) a size := by
  have hsub : Set.Ico a (a + size) ⊆ Set.Ico (lo b) (hi b) := Set.Ico_subset_Ico hin.1 hin.2
  refine ⟨l1 ++ xs ++ l2, ⟨⟨t' :: ts', hsl, hz, by simp [hroom]⟩, ?_, ?_⟩, hlen, ?_, ?_, ?_⟩
  · intro x hx
    rcases List.mem_append.mp hx with hx | hx
    · rcases List.mem_append.mp hx with hx | hx
      · exact h.sound x (by simp [hx])
      · exact hxs x hx
    · exact h.sound x (by simp [hx])
  · exact h.apart.carve hap hlo hhi
  · rw [hsl, hm, nameOf_append, nameOf_append, hname]
  · intro u hu
    exact ⟨b, by simp, hsub hu⟩
  · exact cover_carve xs h.apart.ordered hsub hcov

variable {m m' : map} {l1 l2 : List mapent} {b t : mapent} {ts : List mapent}

/-- A whole segment is taken. -/
theorem takes_whole (h : Holds m (l1 ++ b :: l2)) (hm : m.slots = l1 ++ b :: l2 ++ t :: ts)
    (hz : Zeros (t :: ts)) (hts : ts.length = m.m_free)
    (hsl : m'.slots = l1 ++ l2 ++ t :: t :: ts) (hfree : m'.m_free = m.m_free + 1) :
    Takes m m' (l1 ++ b :: l2) b.m_addr b.m_size := by
  refine takes_of_carve [] h hm (by rw [hsl]; simp) ?_ ?_ ?_ (nameOf_cons t t ts)
    ⟨le_refl _, le_refl _⟩ (by simp) List.Pairwise.nil (by simp) (by simp) ?_
  · intro x hx
    rcases List.mem_cons.mp hx with rfl | hx
    · exact hz _ (by simp)
    · exact hz x hx
  · rw [hsl, hm]
    simp
    omega
  · rw [length_cons, hts, hfree]
  · rw [cover_nil]
    exact (sdiff_self (a := Set.Ico (lo b) (hi b))).symm

/-- The front of a segment is taken. -/
theorem takes_front (h : Holds m (l1 ++ b :: l2)) (hm : m.slots = l1 ++ b :: l2 ++ t :: ts)
    (hz : Zeros (t :: ts)) (hts : ts.length = m.m_free) {size : ℤ} (hpos : 0 < size)
    (hlt : size < b.m_size)
    (hsl : m'.slots = l1 ++ [⟨b.m_size - size, b.m_addr + size⟩] ++ l2 ++ t :: ts)
    (hfree : m'.m_free = m.m_free) : Takes m m' (l1 ++ b :: l2) b.m_addr size := by
  obtain ⟨hb1, hb2, hb3⟩ := h.sound b (by simp)
  refine takes_of_carve _ h hm hsl hz (by rw [hsl, hm]; simp) (by rw [hts, hfree]) rfl ?_ ?_
    (pairwise_singleton _ _) ?_ ?_ ?_
  · simp only [lo, hi]
    lia
  · simp only [mem_singleton, forall_eq, Sound]
    lia
  · simp only [mem_singleton, forall_eq, lo]
    lia
  · simp only [mem_singleton, forall_eq, hi]
    lia
  · ext u
    simp only [cover_cons, cover_nil, lo, hi, Set.union_empty, Set.mem_Ico, Set.mem_sdiff]
    lia

/-- The back of a segment is taken. -/
theorem takes_back (h : Holds m (l1 ++ b :: l2)) (hm : m.slots = l1 ++ b :: l2 ++ t :: ts)
    (hz : Zeros (t :: ts)) (hts : ts.length = m.m_free) (hpos : 0 < size)
    (ha : b.m_addr < a) (hend : b.m_addr + b.m_size = a + size)
    (hsl : m'.slots = l1 ++ [⟨b.m_size - size, b.m_addr⟩] ++ l2 ++ t :: ts)
    (hfree : m'.m_free = m.m_free) : Takes m m' (l1 ++ b :: l2) a size := by
  obtain ⟨hb1, hb2, hb3⟩ := h.sound b (by simp)
  refine takes_of_carve _ h hm hsl hz (by rw [hsl, hm]; simp) (by rw [hts, hfree]) rfl ?_ ?_
    (pairwise_singleton _ _) ?_ ?_ ?_
  · simp only [lo, hi]
    lia
  · simp only [mem_singleton, forall_eq, Sound]
    lia
  · simp only [mem_singleton, forall_eq, lo]
    lia
  · simp only [mem_singleton, forall_eq, hi]
    lia
  · ext u
    simp only [cover_cons, cover_nil, lo, hi, Set.union_empty, Set.mem_Ico, Set.mem_sdiff]
    lia

/-- The middle of a segment is taken, which costs a slot. -/
theorem takes_middle {n : mapent} (h : Holds m (l1 ++ b :: l2))
    (hm : m.slots = l1 ++ b :: l2 ++ t :: n :: ts) (hz : Zeros (t :: n :: ts))
    (hts : (n :: ts).length = m.m_free) (hpos : 0 < size)
    (ha : b.m_addr < a) (hend : a + size < b.m_addr + b.m_size)
    (hsl : m'.slots = l1 ++ [⟨a - b.m_addr, b.m_addr⟩,
      ⟨b.m_addr + b.m_size - (a + size), a + size⟩] ++ l2 ++ n :: ts)
    (hfree : m'.m_free = m.m_free - 1) : Takes m m' (l1 ++ b :: l2) a size := by
  obtain ⟨hb1, hb2, hb3⟩ := h.sound b (by simp)
  rw [length_cons] at hts
  refine takes_of_carve _ h hm hsl (fun x hx => hz x (by simp [hx])) ?_ ?_
    (nameOf_cons t n ts).symm ?_ ?_ ?_ ?_ ?_ ?_
  · rw [hsl, hm]
    simp
    lia
  · lia
  · simp only [lo, hi]
    lia
  · simp only [forall_mem_cons, Sound, not_mem_nil, false_implies, implies_true,
      and_true]
    lia
  · simp only [Apart, pairwise_cons, mem_singleton, forall_eq, lo, hi]
    refine ⟨by lia, by simp, List.Pairwise.nil⟩
  · simp only [forall_mem_cons, lo, not_mem_nil, false_implies, implies_true, and_true]
    lia
  · simp only [forall_mem_cons, hi, not_mem_nil, false_implies, implies_true, and_true]
    lia
  · ext u
    simp only [cover_cons, cover_nil, lo, hi, Set.union_empty, Set.mem_union, Set.mem_Ico,
      Set.mem_sdiff]
    lia

/-! ## rmalloc -/

/-- The search of `rmalloc` finds the first fit. -/
theorem rmallocLoop_spec {size : ℤ} (hpos : 0 < size) (l : List mapent) (hs : ∀ b ∈ l, Sound b)
    {t : mapent} (ht : t.m_size = 0) (ts : List mapent) :
    rmallocLoop none size (l ++ t :: ts) = some ⟨l ++ t :: ts, 0, 0, none⟩ ∨
      ∃ l1 b l2, l = l1 ++ b :: l2 ∧ size ≤ b.m_size ∧
        rmallocLoop none size (l ++ t :: ts) = some
          (if b.m_size = size then ⟨l1 ++ [] ++ l2 ++ t :: t :: ts, b.m_addr, 1, none⟩
          else ⟨l1 ++ [⟨b.m_size - size, b.m_addr + size⟩] ++ l2 ++ t :: ts, b.m_addr, 0, none⟩)
    := by
  induction l with
  | nil =>
    left
    simp [rmallocLoop, ht]
  | cons b l ih =>
    have hb := hs b (by simp)
    obtain ⟨hb1, hb2, hb3⟩ := hb
    have hmax : INT_MAX = 2147483647 := rfl
    have hne : ∀ x ∈ l, x.m_size ≠ 0 := fun x hx => by
      have := (hs x (by simp [hx])).2.1
      omega
    rw [cons_append, rmallocLoop, if_neg (by omega)]
    by_cases hfit : b.m_size ≥ size
    · right
      refine ⟨[], b, l, rfl, hfit, ?_⟩
      have h1 : int32 (b.m_size - size) = b.m_size - size :=
        int32_of_fits (by rw [fits_iff]; omega)
      have h2 : int32 (b.m_addr + size) = b.m_addr + size :=
        int32_of_fits (by rw [fits_iff]; omega)
      simp only [if_pos hfit, boundary, Option.any_none, Bool.false_eq_true, if_false, h1, h2]
      by_cases heq : b.m_size = size
      · rw [if_pos (by omega), if_pos heq, compress_segs _ hne ht]
        simp
      · rw [if_neg (by omega), if_neg heq]
        simp
    · rw [if_neg hfit]
      rcases ih (fun x hx => hs x (by simp [hx])) with hnone | ⟨l1, c, l2, rfl, hc, hsome⟩
      · left
        rw [hnone]
        rfl
      · right
        refine ⟨b :: l1, c, l2, rfl, hc, ?_⟩
        rw [hsome]
        by_cases heq : c.m_size = size
        · simp [heq]
        · simp [heq]

/-- `rmalloc` fails and changes nothing, or takes out the units it returns. -/
theorem rmalloc_holds {m : map} (h : Holds m l) {size : ℤ} (hpos : 0 < size) :
    ∃ m' r, rmalloc none size m = some (m', r) ∧
      ((r = 0 ∧ m' = m) ∨ (0 < r ∧ Takes m m' l r size)) := by
  obtain ⟨tl, hsl, hz, hlen⟩ := h.slots
  cases tl with
  | nil => simp at hlen
  | cons t ts =>
    have ht : t.m_size = 0 := hz t (by simp)
    rw [rmalloc, if_neg (by simp; omega), hsl, Option.bind_eq_bind]
    rcases rmallocLoop_spec hpos l h.sound ht ts with hnone | ⟨l1, b, l2, rfl, hfit, hsome⟩
    · rw [hnone]
      refine ⟨_, _, rfl, Or.inl ⟨rfl, ?_⟩⟩
      simp only [← hsl, Nat.add_zero]
    · rw [hsome]
      obtain ⟨hb1, hb2, hb3⟩ := h.sound b (by simp)
      have hts : ts.length = m.m_free := by simpa using hlen
      by_cases heq : b.m_size = size
      · simp only [if_pos heq]
        refine ⟨_, _, rfl, Or.inr ⟨hb1, ?_⟩⟩
        rw [← heq]
        exact takes_whole h hsl hz hts (by simp) rfl
      · simp only [if_neg heq]
        refine ⟨_, _, rfl, Or.inr ⟨hb1, ?_⟩⟩
        exact takes_front h hsl hz hts hpos (by omega) rfl rfl

/-! ## rmget -/

/-- Where the walk of `rmget` goes on: past segments without the address. -/
def misses (addr : ℤ) (b : mapent) : Bool :=
  decide (b.m_size ≠ 0 ∧ ¬ (b.m_addr ≤ addr ∧ int32 (b.m_addr + b.m_size) > addr))

/-- `rmget` fails and changes nothing, or takes out the units asked for. -/
theorem rmget_holds {m : map} (h : Holds m l) {size addr : ℤ} (hpos : 0 < size)
    (hfit : addr ∈ cover lo hi l → addr + size ≤ INT_MAX) :
    ∃ m' r, rmget none size addr m = some (m', r) ∧
      ((r = 0 ∧ m' = m) ∨ (r = addr ∧ 0 < addr ∧ Takes m m' l addr size)) := by
  obtain ⟨tl, hsl, hz, hlen⟩ := h.slots
  cases tl with
  | nil => simp at hlen
  | cons t ts =>
    have hmax : INT_MAX = 2147483647 := rfl
    have ht : t.m_size = 0 := hz t (by simp)
    have hts : ts.length = m.m_free := by simpa using hlen
    have hwalk := walk_split (p := misses addr) l (t := t) (by simp [misses, ht]) ts
    have hl := takeWhile_append_dropWhile (p := misses addr) (l := l)
    unfold rmget
    rw [if_neg (by lia), if_neg (by simp)]
    rw [← hsl] at hwalk
    have hbefore : m.slots.takeWhile (fun b => decide (b.m_size ≠ 0 ∧
        ¬ (b.m_addr ≤ addr ∧ int32 (b.m_addr + b.m_size) > addr))) = _ := hwalk.1
    have hbehind : m.slots.dropWhile (fun b => decide (b.m_size ≠ 0 ∧
        ¬ (b.m_addr ≤ addr ∧ int32 (b.m_addr + b.m_size) > addr))) = _ := hwalk.2
    simp only [hbefore, hbehind]
    generalize l.takeWhile (misses addr) = before at hl
    cases hd : l.dropWhile (misses addr) with
    | nil =>
      simp only [nil_append, if_pos ht]
      exact ⟨m, 0, rfl, Or.inl ⟨rfl, rfl⟩⟩
    | cons b l2 =>
      rw [hd] at hl
      have hhit : misses addr b = false := by
        have := head_dropWhile_not (misses addr) (l := l) (by simp [hd])
        simpa [hd] using this
      subst hl
      obtain ⟨hb1, hb2, hb3⟩ := h.sound b (by simp)
      have hne : ∀ x ∈ l2, x.m_size ≠ 0 := fun x hx => h.ne_zero x (by simp [hx])
      have hend : int32 (b.m_addr + b.m_size) = b.m_addr + b.m_size :=
        int32_of_fits (by rw [fits_iff]; lia)
      simp only [misses, hend, decide_eq_false_iff_not] at hhit
      have hin : b.m_addr ≤ addr ∧ addr < b.m_addr + b.m_size := by
        by_contra hc
        exact hhit ⟨by lia, fun hc' => hc ⟨hc'.1, hc'.2⟩⟩
      have hasz : addr + size ≤ INT_MAX := hfit ⟨b, by simp, hin.1, hin.2⟩
      have hae : int32 (addr + size) = addr + size := int32_of_fits (by rw [fits_iff]; lia)
      simp only [cons_append, hend, hae]
      rw [if_neg (by lia)]
      by_cases hsmall : b.m_addr + b.m_size < addr + size
      · rw [if_pos hsmall]
        exact ⟨m, 0, rfl, Or.inl ⟨rfl, rfl⟩⟩
      · rw [if_neg hsmall]
        by_cases hat : b.m_addr = addr
        · rw [if_pos hat, ← hat]
          by_cases hall : b.m_size = size
          · rw [if_pos hall, compress_segs b hne ht, ← hall]
            exact ⟨_, _, rfl, Or.inr ⟨rfl, hb1, takes_whole h hsl hz hts (by simp) rfl⟩⟩
          · have h1 : int32 (b.m_size - size) = b.m_size - size :=
              int32_of_fits (by rw [fits_iff]; lia)
            have h2 : int32 (b.m_addr + size) = b.m_addr + size :=
              int32_of_fits (by rw [fits_iff]; lia)
            rw [if_neg hall, h1, h2]
            exact ⟨_, _, rfl, Or.inr ⟨rfl, hb1,
              takes_front h hsl hz hts hpos (by lia) (by simp) rfl⟩⟩
        · rw [if_neg hat]
          by_cases hback : b.m_addr + b.m_size = addr + size
          · have h1 : int32 (b.m_size - size) = b.m_size - size :=
              int32_of_fits (by rw [fits_iff]; lia)
            rw [if_pos hback, h1]
            exact ⟨_, _, rfl, Or.inr ⟨rfl, by lia,
              takes_back h hsl hz hts hpos (by lia) hback (by simp) rfl⟩⟩
          · rw [if_neg hback]
            by_cases hfree : m.m_free = 0
            · rw [if_pos hfree]
              exact ⟨m, 0, rfl, Or.inl ⟨rfl, rfl⟩⟩
            · rw [if_neg hfree]
              cases ts with
              | nil => exact absurd hts.symm hfree
              | cons n ts =>
                have h1 : int32 (addr - b.m_addr) = addr - b.m_addr :=
                  int32_of_fits (by rw [fits_iff]; lia)
                have h2 : int32 (b.m_addr + b.m_size - (addr + size))
                    = b.m_addr + b.m_size - (addr + size) :=
                  int32_of_fits (by rw [fits_iff]; lia)
                rw [pushUpClear_segs _ hne ht (hz n (by simp)), h1, h2]
                exact ⟨_, _, rfl, Or.inr ⟨rfl, by lia,
                  takes_middle h hsl hz hts hpos (by lia) (by lia) (by simp) rfl⟩⟩

end Rmap
