/-
# Resource maps refine sets of free units

Every run of `rminit`, `rmalloc`, `rmget` and `rmfree` on a map that is not
`swapmap` keeps the array well formed, and each call does to the set of free
units exactly what it is documented to do.
-/
import SunOS.Kern.RmapFree
import SunOS.Lib.Run
import Mathlib.Data.List.ModifyLast
import Mathlib.Data.Set.Function

namespace Rmap

open List
open Segments

/-- The free units of a map. -/
def freeUnits (m : map) : Set ℤ := cover lo hi (segs m.slots)

/-- What the documentation promises of the array: segments in address order,
positive and not touching; with their number the free slots make up the
`mapsize - 2` slots there are for segments; every slot from the terminator on is 0. -/
structure WellFormed (mapsize : ℕ) (m : map) : Prop where
  apart : Apart lo hi (segs m.slots)
  positive : ∀ b ∈ segs m.slots, 0 < b.m_size ∧ 0 < b.m_addr
  count : (segs m.slots).length + m.m_free = mapsize - 2
  size : m.slots.length = mapsize - 1
  zeros : ∀ b ∈ m.slots.drop (segs m.slots).length, b.m_size = 0

/-- Calls that do not panic: sizes, and for `rmfree` addresses, must be positive. -/
def Legal : Event → Prop
  | .rminit _ _ _ => True
  | .rmalloc size => 0 < size
  | .rmget size _ => 0 < size
  | .rmfree size addr => 0 < size ∧ 0 < addr

instance : DecidablePred Legal
  | .rminit _ _ _ => inferInstanceAs (Decidable True)
  | .rmalloc size => inferInstanceAs (Decidable (0 < size))
  | .rmget size _ => inferInstanceAs (Decidable (0 < size))
  | .rmfree size addr => inferInstanceAs (Decidable (0 < size ∧ 0 < addr))

/-- The calls this is about.  `rminit` is made on an array of zeros, with units of
positive addresses; `rmfree` returns units disjoint from the free ones; and every
range of units ends at an `int`, also the one `rmget` asks for if it starts in
the free set. -/
def Ok (m : map) : Event → Prop
  | .rminit size addr _ =>
    (∀ b ∈ m.slots, b.m_size = 0) ∧ 0 ≤ size ∧ (0 < size → 0 < addr ∧ addr + size ≤ INT_MAX)
  | .rmalloc _ => True
  | .rmget size addr => addr ∈ freeUnits m → addr + size ≤ INT_MAX
  | .rmfree size addr =>
    Disjoint (Set.Ico addr (addr + size)) (freeUnits m) ∧ addr + size ≤ INT_MAX

/-- What a call does to the free units, with `r` the value it returns. -/
def Does (m : map) : Event → ℤ → map → Prop
  | .rminit size addr name, _, m' =>
    freeUnits m' = Set.Ico addr (addr + size) ∧ nameOf m'.slots = some name
  | .rmalloc size, r, m' =>
    nameOf m'.slots = nameOf m.slots ∧ (r = 0 ∧ m' = m ∨
      0 < r ∧ Set.Ico r (r + size) ⊆ freeUnits m ∧
        freeUnits m' = freeUnits m \ Set.Ico r (r + size))
  | .rmget size addr, r, m' =>
    nameOf m'.slots = nameOf m.slots ∧ (r = 0 ∧ m' = m ∨
      0 < r ∧ r = addr ∧ Set.Ico r (r + size) ⊆ freeUnits m ∧
        freeUnits m' = freeUnits m \ Set.Ico r (r + size))
  | .rmfree size addr, _, m' =>
    nameOf m'.slots = nameOf m.slots ∧
      if 0 < m.m_free ∨ Touches (segs m.slots) addr size then
        freeUnits m' = freeUnits m ∪ Set.Ico addr (addr + size)
      else
        ∃ l x y, segs m.slots = l ++ [x, y] ∧ freeUnits m' =
          freeUnits m \ Set.Ico (lo (lost x y)) (hi (lost x y)) ∪ Set.Ico addr (addr + size)

/-! ## The invariant -/

variable {l : List mapent} {m : map}

theorem Holds.freeUnits_eq (h : Holds m l) : freeUnits m = cover lo hi l := by
  rw [freeUnits, h.segs_eq]

theorem Holds.wellFormed (h : Holds m l) {mapsize : ℕ}
    (hsize : m.slots.length + 1 = mapsize) : WellFormed mapsize m := by
  obtain ⟨tl, hsl, hz, hlen⟩ := h.slots
  rw [hsl, length_append] at hsize
  refine ⟨?_, ?_, ?_, ?_, ?_⟩
  · rw [h.segs_eq]
    exact h.apart
  · rw [h.segs_eq]
    exact fun b hb => ⟨(h.sound b hb).2.1, (h.sound b hb).1⟩
  · rw [h.segs_eq]
    omega
  · rw [hsl, length_append]
    omega
  · rw [h.segs_eq, hsl, drop_left]
    exact hz

/-- `rminit` on an array of zeros sets the map up. -/
theorem rminit_holds {size addr : ℤ} (name : ℤ) (hlen : 3 ≤ m.slots.length)
    (hok : Ok m (.rminit size addr name)) :
    ∃ l, Holds (rminit size addr name m) l ∧
      (rminit size addr name m).slots.length = m.slots.length ∧
      nameOf (rminit size addr name m).slots = some name ∧
      cover lo hi l = Set.Ico addr (addr + size) := by
  obtain ⟨hzero, hnn, haddr⟩ := hok
  obtain ⟨s0, mid, z, hsl⟩ : ∃ s0 mid z, m.slots = s0 :: (mid ++ [z]) := by
    cases hs : m.slots with
    | nil => simp [hs] at hlen
    | cons s0 ss =>
      rcases eq_nil_or_concat ss with rfl | ⟨mid, z, rfl⟩
      · simp [hs] at hlen
      · exact ⟨s0, mid, z, by simp⟩
  have hmid : ∀ b ∈ mid, b.m_size = 0 := fun b hb => hzero b (by simp [hsl, hb])
  have hz : z.m_size = 0 := hzero z (by simp [hsl])
  have hset : setName name m.slots = s0 :: (mid ++ [{ z with m_addr := name }]) := by
    rw [setName, hsl, ← cons_append, modifyLast_concat, cons_append]
  have hmid' : Zeros (mid ++ [{ z with m_addr := name }]) := by
    intro b hb
    rcases List.mem_append.mp hb with hb | hb
    · exact hmid b hb
    · rw [List.mem_singleton.mp hb]
      exact hz
  have hmapsize : m.slots.length = mid.length + 2 := by simp [hsl]
  unfold rminit
  simp only [hset, hmapsize, modifyHead_cons]
  rw [if_neg (by omega)]
  by_cases hsize : size = 0
  · refine ⟨[], ⟨⟨_, rfl, ?_, ?_⟩, by simp, List.Pairwise.nil⟩, ?_, ?_, ?_⟩
    · intro b hb
      rcases List.mem_cons.mp hb with rfl | hb
      · exact hsize
      · exact hmid' b hb
    · simp [hsize]
    · simp
    · simp [nameOf, List.getLast?_cons, List.getLast?_append]
    · simp [hsize]
  · have hpos : 0 < size := by omega
    obtain ⟨ha, hend⟩ := haddr hpos
    refine ⟨[⟨size, addr⟩], ⟨⟨_, rfl, hmid', ?_⟩, ?_, pairwise_singleton _ _⟩, ?_, ?_, ?_⟩
    · simp [hsize]
    · simp only [mem_singleton, forall_eq, Sound]
      exact ⟨ha, hpos, hend⟩
    · simp
    · simp [nameOf, List.getLast?_cons, List.getLast?_append]
    · simp [lo, hi]

/-! ## Steps and runs -/

/-- The invariant: the map consists of some segments, in an array of `n` slots. -/
def Inv (n : ℕ) (m : map) : Prop := (∃ l, Holds m l) ∧ m.slots.length = n

theorem Does.of_takes {m m' : map} (h : Holds m l) {a size : ℤ} (ht : Takes m m' l a size) :
    Inv m.slots.length m' ∧ nameOf m'.slots = nameOf m.slots ∧
      Set.Ico a (a + size) ⊆ freeUnits m ∧
      freeUnits m' = freeUnits m \ Set.Ico a (a + size) := by
  obtain ⟨l', hl', hlen, hname, hsub, hcov⟩ := ht
  refine ⟨⟨⟨l', hl'⟩, hlen⟩, hname, ?_, ?_⟩
  · rw [h.freeUnits_eq]
    exact hsub
  · rw [hl'.freeUnits_eq, h.freeUnits_eq]
    exact hcov

/-- One call: it panics exactly when it is not legal, and otherwise does what it
is documented to do and keeps the invariant. -/
theorem call_inv {n : ℕ} (hcap : 3 ≤ n) (hinv : Inv n m) {e : Event} (hok : Ok m e) :
    if Legal e then ∃ m' r, call e m = some (m', r) ∧ Does m e r m' ∧ Inv n m'
    else call e m = none := by
  obtain ⟨⟨l, h⟩, hn⟩ := hinv
  cases e with
  | rminit size addr name =>
    rw [if_pos (show Legal (.rminit size addr name) from trivial)]
    obtain ⟨l', hl', hlen, hname, hcov⟩ := rminit_holds name (by omega) hok
    refine ⟨_, 0, rfl, ⟨?_, hname⟩, ⟨⟨l', hl'⟩, by omega⟩⟩
    rw [hl'.freeUnits_eq, hcov]
  | rmalloc size =>
    by_cases hpos : Legal (.rmalloc size)
    · rw [if_pos hpos]
      obtain ⟨m', r, hcall, ⟨hr, hm⟩ | ⟨hr, ht⟩⟩ := rmalloc_holds h hpos
      · subst hm
        exact ⟨m', r, hcall, ⟨rfl, Or.inl ⟨hr, rfl⟩⟩, ⟨l, h⟩, hn⟩
      · obtain ⟨hinv', hname, hsub, hcov⟩ := Does.of_takes h ht
        exact ⟨m', r, hcall, ⟨hname, Or.inr ⟨hr, hsub, hcov⟩⟩, hn ▸ hinv'⟩
    · rw [if_neg hpos, call, rmalloc, if_pos (Or.inl (by rw [Legal] at hpos; omega))]
  | rmget size addr =>
    by_cases hpos : Legal (.rmget size addr)
    · rw [if_pos hpos]
      have hfit : addr ∈ cover lo hi l → addr + size ≤ INT_MAX := by
        intro ha
        exact hok (by rw [h.freeUnits_eq]; exact ha)
      obtain ⟨m', r, hcall, ⟨hr, hm⟩ | ⟨hr, haddr, ht⟩⟩ := rmget_holds h hpos hfit
      · subst hm
        exact ⟨m', r, hcall, ⟨rfl, Or.inl ⟨hr, rfl⟩⟩, ⟨l, h⟩, hn⟩
      · subst hr
        obtain ⟨hinv', hname, hsub, hcov⟩ := Does.of_takes h ht
        exact ⟨m', r, hcall, ⟨hname, Or.inr ⟨haddr, rfl, hsub, hcov⟩⟩, hn ▸ hinv'⟩
    · rw [if_neg hpos, call, rmget, if_pos (by rw [Legal] at hpos; omega)]
  | rmfree size addr =>
    by_cases hpos : Legal (.rmfree size addr)
    · rw [if_pos hpos]
      obtain ⟨hdis, hend⟩ := hok
      rw [h.freeUnits_eq] at hdis
      have htwo : 2 ≤ l.length + m.m_free := by
        obtain ⟨tl, hsl, -, hlen⟩ := h.slots
        rw [hsl, length_append] at hn
        omega
      obtain ⟨m', hfree, hdoes⟩ := rmfree_holds h htwo ⟨hpos.2, hpos.1, hend⟩ hdis
      refine ⟨m', 0, by rw [call, hfree]; rfl, ?_⟩
      rw [Does, h.segs_eq]
      by_cases hroom : 0 < m.m_free ∨ Touches l addr size
      · rw [if_pos hroom] at hdoes ⊢
        obtain ⟨l', hl', hlen, hname, hcov⟩ := hdoes
        refine ⟨⟨hname, ?_⟩, ⟨l', hl'⟩, hlen.trans hn⟩
        rw [hl'.freeUnits_eq, h.freeUnits_eq, hcov]
      · rw [if_neg hroom] at hdoes ⊢
        obtain ⟨l0, x, y, hl, l', hl', hlen, hname, hcov⟩ := hdoes
        refine ⟨⟨hname, l0, x, y, hl, ?_⟩, ⟨l', hl'⟩, hlen.trans hn⟩
        rw [hl'.freeUnits_eq, h.freeUnits_eq, hcov]
    · rw [if_neg hpos, call, rmfree, if_pos (by rw [Legal] at hpos; omega)]
      rfl

/-- A step keeps the invariant. -/
theorem step_inv {n : ℕ} (hcap : 3 ≤ n) (m : map) (e : Event) (m' : map) (hinv : Inv n m)
    (h : Guarded Ok Step m e m') : Inv n m' := by
  obtain ⟨hok, r, hcall⟩ := h
  have hspec := call_inv hcap hinv hok
  by_cases hlegal : Legal e
  · rw [if_pos hlegal] at hspec
    obtain ⟨m'', r', hcall', -, hinv'⟩ := hspec
    rw [hcall, Option.some.injEq, Prod.mk.injEq] at hcall'
    rw [hcall'.1]
    exact hinv'
  · rw [if_neg hlegal, hcall] at hspec
    cases hspec

/-- **A resource map refines a set of free units.**  After `rminit` and any calls
the array is well formed, and each call panics exactly when it is not legal and
otherwise does to the free units what it is documented to do. -/
theorem refines_of_run {m0 m : map} {size addr name : ℤ} {es : List Event}
    (hcap : 4 ≤ m0.slots.length + 1)
    (h : Run (Guarded Ok Step) m0 (.rminit size addr name :: es) m) :
    Does m0 (.rminit size addr name) 0 (rminit size addr name m0) ∧
      WellFormed (m0.slots.length + 1) m ∧
      ∀ e, Ok m e →
        if Legal e then ∃ m' r, call e m = some (m', r) ∧ Does m e r m'
        else call e m = none := by
  have hcap' : 3 ≤ m0.slots.length := by omega
  obtain ⟨m1, ⟨hok, r, hcall⟩, hrun⟩ := Run.cons_iff.mp h
  rw [call, Option.some.injEq, Prod.mk.injEq] at hcall
  obtain ⟨l, hl, hlen, hname, hcov⟩ := rminit_holds name hcap' hok
  have hinv : Inv m0.slots.length m := by
    refine Run.invariant (step_inv hcap') hrun ?_
    rw [← hcall.1]
    exact ⟨⟨l, hl⟩, hlen⟩
  refine ⟨⟨by rw [hl.freeUnits_eq, hcov], hname⟩, ?_, ?_⟩
  · obtain ⟨⟨l', hl'⟩, hlen'⟩ := hinv
    exact hl'.wellFormed (by rw [hlen'])
  · intro e he
    have hspec := call_inv hcap' hinv he
    by_cases hlegal : Legal e
    · rw [if_pos hlegal] at hspec ⊢
      obtain ⟨m', r', hcall', hdoes, -⟩ := hspec
      exact ⟨m', r', hcall', hdoes⟩
    · rw [if_neg hlegal] at hspec ⊢
      exact hspec

/-- An array of four slots, all zeros: a map of `mapsize` 5. -/
def blank : map := ⟨0, 0, List.replicate 4 ⟨0, 0⟩⟩

/-- After `rminit` and an `rmget` from the middle the map is well formed, and
`rmfree` puts the units back. -/
theorem refines_rminit_rmget :
    WellFormed 5 ⟨1, 0, [⟨3, 1⟩, ⟨5, 6⟩, ⟨0, 0⟩, ⟨0, 7⟩]⟩ ∧
      ∃ m' r, call (.rmfree 2 4) ⟨1, 0, [⟨3, 1⟩, ⟨5, 6⟩, ⟨0, 0⟩, ⟨0, 7⟩]⟩ = some (m', r) ∧
        Does ⟨1, 0, [⟨3, 1⟩, ⟨5, 6⟩, ⟨0, 0⟩, ⟨0, 7⟩]⟩ (.rmfree 2 4) r m' := by
  have hrun : Run (Guarded Ok Step) blank [.rminit 10 1 7, .rmget 2 4]
      ⟨1, 0, [⟨3, 1⟩, ⟨5, 6⟩, ⟨0, 0⟩, ⟨0, 7⟩]⟩ := by
    refine .cons (t := rminit 10 1 7 blank) ⟨?_, 0, rfl⟩ (.cons ⟨?_, 4, by decide⟩ (.nil _))
    · exact ⟨by decide, by decide, fun _ => by decide⟩
    · exact fun _ => by decide
  obtain ⟨-, hwf, hcalls⟩ := refines_of_run (by decide) hrun
  refine ⟨hwf, ?_⟩
  have hfree := hcalls (.rmfree 2 4) ⟨?_, by decide⟩
  · rw [if_pos (by decide)] at hfree
    exact hfree
  · rw [Set.disjoint_left]
    rintro u hu ⟨b, hb, hlo, hhi⟩
    have hsegs : b ∈ [(⟨3, 1⟩ : mapent), ⟨5, 6⟩] := hb
    rw [Set.mem_Ico] at hu
    simp only [mem_cons, not_mem_nil, or_false] at hsegs
    rcases hsegs with rfl | rfl
    · simp only [hi] at hhi
      omega
    · simp only [lo] at hlo
      omega

/-- The calls in which `rmfree` returns units disjoint from the free ones, and
nothing else is asked. -/
def FreesDisjoint (m : map) : Event → Prop
  | .rmfree size addr => Disjoint (Set.Ico addr (addr + size)) (freeUnits m)
  | _ => True

/-- Two runs that leave the array out of order: `rminit` on a map that has more
than one segment, which leaves the later ones behind, and `rmget` of a range
that starts in a free segment and whose end overflows. -/
theorem not_wellFormed_reinit_overflow :
    (∃ m, Run (Guarded FreesDisjoint Step) blank [.rminit 10 1 7, .rmget 2 4, .rminit 1 20 7] m ∧
      ¬ WellFormed 5 m) ∧
    ∃ m, Run (Guarded FreesDisjoint Step) blank [.rminit 10 1 7, .rmget 2147483647 5] m ∧
      ¬ WellFormed 5 m := by
  refine ⟨⟨⟨2, 0, [⟨1, 20⟩, ⟨5, 6⟩, ⟨0, 0⟩, ⟨0, 7⟩]⟩, ?_, ?_⟩,
    ⟨⟨1, 0, [⟨4, 1⟩, ⟨-2147483641, -2147483644⟩, ⟨0, 0⟩, ⟨0, 7⟩]⟩, ?_, ?_⟩⟩
  · exact .cons (t := rminit 10 1 7 blank) ⟨trivial, 0, rfl⟩
      (.cons (t := ⟨1, 0, [⟨3, 1⟩, ⟨5, 6⟩, ⟨0, 0⟩, ⟨0, 7⟩]⟩) ⟨trivial, 4, by decide⟩
        (.cons ⟨trivial, 0, by decide⟩ (.nil _)))
  · intro h
    exact absurd h.count (by decide)
  · exact .cons (t := rminit 10 1 7 blank) ⟨trivial, 0, rfl⟩
      (.cons ⟨trivial, 5, by decide⟩ (.nil _))
  · intro h
    exact absurd (h.positive ⟨-2147483641, -2147483644⟩ (by decide)) (by decide)

end Rmap
