/-
# The message segments

The pool is shared out between the free segments of the resource map and the blocks of
the message headers.  Taking and giving back a block keeps the shares apart; a map with
room for a gap beside every header never loses a segment.
-/
import SunOS.Ipc.Msg
import SunOS.Kern.RmapFree
import Mathlib.Data.List.Range
import Mathlib.Order.Interval.Set.Disjoint
import Mathlib.Order.CompletePartialOrder
import Mathlib.Data.Int.ConditionallyCompleteOrder

namespace IpcMsg

open Set
open Function (update update_of_ne update_self)
open Ipc Segments

variable {mi : msginfo} {m m' : Rmap.map} {blk : ℕ → ℤ × ℤ} {h size : ℕ} {r : ℤ}

/-- The units of a block: from where it starts up to where it ends. -/
abbrev units (b : ℤ × ℤ) : Set ℤ := Set.Ico b.1 b.2

/-- The free segments of the map and the blocks of the headers share the pool out. -/
structure Shared (mi : msginfo) (m : Rmap.map) (blk : ℕ → ℤ × ℤ) : Prop where
  size : m.slots.length + 1 = mi.msgmap
  apart : ∀ g h, g ≠ h → Disjoint (units (blk g)) (units (blk h))
  out : ∀ h, ¬ (1 ≤ h ∧ h ≤ mi.msgtql) → blk h = (0, 0)
  holds : ∃ l, Rmap.Holds m l ∧ (∀ h, Disjoint (units (blk h)) (cover Rmap.lo Rmap.hi l)) ∧
    ∀ u : ℤ, (u ∈ cover Rmap.lo Rmap.hi l ∨ ∃ h, u ∈ units (blk h)) ↔ 1 ≤ u ∧ u ≤ mi.msgseg

theorem units_empty : units ((0, 0) : ℤ × ℤ) = ∅ := Set.Ico_self 0

/-- Who wants space does not matter. -/
theorem Shared.want (hsh : Shared mi m blk) (hs : m'.slots = m.slots) (hf : m'.m_free = m.m_free) :
    Shared mi m' blk := by
  obtain ⟨l, h1, h2, h3⟩ := hsh.holds
  refine ⟨by rw [hs]; exact hsh.size, hsh.apart, hsh.out, l, ⟨?_, h1.sound, h1.apart⟩, h2, h3⟩
  rw [hs, hf]
  exact h1.slots

/-- Space for the block of a header without one is found and taken, or the map stays. -/
theorem Shared.alloc (hsh : Shared mi m blk) (hs : 0 < size) (hh : 1 ≤ h ∧ h ≤ mi.msgtql)
    (hb : blk h = (0, 0)) :
    ∃ m' r, Rmap.rmalloc none size m = some (m', r) ∧
      ((r = 0 ∧ m' = m) ∨
        (0 < r ∧ Shared mi m' (update blk h (r, r + size)))) := by
  obtain ⟨l, h1, h2, h3⟩ := hsh.holds
  obtain ⟨m', r, hr, hcase⟩ := Rmap.rmalloc_holds h1 (show (0 : ℤ) < size by omega)
  refine ⟨m', r, hr, ?_⟩
  rcases hcase with hcase | ⟨hpos, l', hl', hlen, -, hsub, hcov⟩
  · exact Or.inl hcase
  have hfrom : cover Rmap.lo Rmap.hi l' ⊆ cover Rmap.lo Rmap.hi l := by
    rw [hcov]
    exact sdiff_subset
  have hnew : ∀ g, g ≠ h → Disjoint (units (blk g)) (units (r, r + size)) := fun g _ =>
    (h2 g).mono_right hsub
  refine Or.inr ⟨hpos, by rw [hlen]; exact hsh.size, ?_, ?_, l', hl', ?_, fun u => ?_⟩
  · intro g k hgk
    by_cases hg : g = h
    · subst hg
      rw [update_self, update_of_ne hgk.symm]
      exact (hnew k hgk.symm).symm
    · rw [update_of_ne hg]
      by_cases hk : k = h
      · subst hk
        rw [update_self]
        exact hnew g hg
      · rw [update_of_ne hk]
        exact hsh.apart g k hgk
  · intro g hg
    rw [update_of_ne (fun heq : g = h => hg (heq ▸ hh))]
    exact hsh.out g hg
  · intro g
    by_cases hg : g = h
    · subst hg
      rw [update_self, hcov]
      exact disjoint_sdiff_right
    · rw [update_of_ne hg]
      exact (h2 g).mono_right hfrom
  · rw [← h3]
    constructor
    · rintro (hu | ⟨g, hu⟩)
      · exact Or.inl (hfrom hu)
      · by_cases hg : g = h
        · subst hg
          rw [update_self] at hu
          exact Or.inl (hsub hu)
        · rw [update_of_ne hg] at hu
          exact Or.inr ⟨g, hu⟩
    · rintro (hu | ⟨g, hu⟩)
      · by_cases hin : u ∈ units (r, r + size)
        · exact Or.inr ⟨h, by rw [update_self]; exact hin⟩
        · rw [hcov]
          exact Or.inl ⟨hu, hin⟩
      · have hg : g ≠ h := by
          rintro rfl
          rw [hb, units_empty] at hu
          exact hu
        exact Or.inr ⟨g, by rw [update_of_ne hg]; exact hu⟩

/-- There are at most as many gaps between the free segments as headers. -/
theorem Shared.length_le (hsh : Shared mi m blk) {l : List Rmap.mapent} (hl : Rmap.Holds m l)
    (hdis : ∀ h, Disjoint (units (blk h)) (cover Rmap.lo Rmap.hi l))
    (hall : ∀ u : ℤ, (u ∈ cover Rmap.lo Rmap.hi l ∨ ∃ h, u ∈ units (blk h)) ↔
      1 ≤ u ∧ u ≤ mi.msgseg) :
    l.length ≤ mi.msgtql + 1 := by
  cases hh : l with
  | nil => simp
  | cons a rest =>
    have hpos : ∀ c ∈ [] ++ l, Rmap.lo c < Rmap.hi c := by
      intro c hc
      have := (hl.sound c hc).2.1
      unfold Rmap.lo Rmap.hi
      omega
    have hin : ∀ c ∈ l, 1 ≤ Rmap.lo c ∧ Rmap.lo c ≤ mi.msgseg := fun c hc =>
      (hall _).mp (Or.inl ⟨c, hc, le_rfl, hpos c hc⟩)
    -- the end of a segment before another is free or in a block
    have hcov : ∀ c ∈ [] ++ l, ∀ d ∈ [] ++ l, Rmap.hi c < Rmap.lo d →
        Rmap.hi c ∈ cover Rmap.lo Rmap.hi ([] ++ l) ∨
          ∃ b ∈ (List.range' 1 mi.msgtql).map blk, Rmap.hi c ∈ units b := by
      intro c hc d hd hlt
      rcases (hall (Rmap.hi c)).mpr ⟨(hin c hc).1.trans (hpos c hc).le,
        hlt.le.trans (hin d hd).2⟩ with hfree | ⟨h, hu⟩
      · exact Or.inl hfree
      · refine Or.inr ⟨blk h, List.mem_map_of_mem ?_, hu⟩
        by_contra hout
        rw [List.mem_range'_1] at hout
        rw [hsh.out h (by omega), units_empty] at hu
        exact hu
    have hdis' : ∀ b ∈ (List.range' 1 mi.msgtql).map blk,
        Disjoint (units b) (cover Rmap.lo Rmap.hi ([] ++ l)) := by
      intro b hb
      obtain ⟨h, -, rfl⟩ := List.mem_map.mp hb
      exact hdis h
    have hle := Apart.length_le (show Apart Rmap.lo Rmap.hi ([] ++ l) from hl.apart) hpos _
      hdis' hcov
      (a := a) (by rw [hh]; rfl)
    rw [← hh]
    refine hle.trans (Nat.succ_le_succ (List.countP_le_length.trans ?_))
    rw [List.length_map, List.length_range']

/-- A block is given back, if the map has room beside the blocks. -/
theorem Shared.free (hsh : Shared mi m blk) (hroom : mi.msgtql + 4 ≤ mi.msgmap)
    (hs : 0 < size) (hb : blk h = (r, r + size)) :
    ∃ m', Rmap.rmfree size r m = some m' ∧ m'.m_want = 0 ∧
      Shared mi m' (update blk h (0, 0)) := by
  obtain ⟨l, h1, h2, h3⟩ := hsh.holds
  have hlen := hsh.length_le h1 h2 h3
  obtain ⟨tl, hsl, -, htl⟩ := h1.slots
  have hfree : 0 < m.m_free := by
    have h4 := congrArg List.length hsl
    have h5 := hsh.size
    rw [List.length_append] at h4
    lia
  have hmem : ∀ u ∈ units (r, r + (size : ℤ)), 1 ≤ u ∧ u ≤ mi.msgseg := fun u hu =>
    (h3 u).mp (Or.inr ⟨h, by rw [hb]; exact hu⟩)
  have hr := hmem r ⟨le_rfl, by simp; lia⟩
  have hend := hmem (r + size - 1) ⟨by simp; lia, by simp⟩
  have hmsg := mi.msgseg_lt
  obtain ⟨m', hm', hadds⟩ := Rmap.rmfree_holds h1 (by
      by_cases hnil : l.length = 0
      · have h4 := congrArg List.length hsl
        have h5 := hsh.size
        rw [List.length_append] at h4
        lia
      · lia)
    (show 0 < r ∧ 0 < (size : ℤ) ∧ r + size ≤ INT_MAX from
      ⟨by lia, by lia, by unfold INT_MAX; lia⟩) (by have := h2 h; rw [hb] at this; exact this)
  rw [if_pos (Or.inl hfree)] at hadds
  obtain ⟨l', hl', hlen', -, hcov⟩ := hadds
  have hwant : m'.m_want = 0 := by
    unfold Rmap.rmfree at hm'
    rw [if_neg (by lia)] at hm'
    obtain ⟨x, -, rfl⟩ := Option.map_eq_some_iff.mp hm'
    rfl
  refine ⟨m', hm', hwant, by rw [hlen']; exact hsh.size, ?_, ?_, l', hl', ?_, fun u => ?_⟩
  · intro g k hgk
    by_cases hg : g = h
    · subst hg
      rw [update_self, units_empty]
      exact empty_disjoint _
    · rw [update_of_ne hg]
      by_cases hk : k = h
      · subst hk
        rw [update_self, units_empty]
        exact disjoint_empty _
      · rw [update_of_ne hk]
        exact hsh.apart g k hgk
  · intro g hg
    by_cases hgh : g = h
    · rw [hgh, update_self]
    · rw [update_of_ne hgh]
      exact hsh.out g hg
  · intro g
    by_cases hg : g = h
    · subst hg
      rw [update_self, units_empty]
      exact empty_disjoint _
    · rw [update_of_ne hg, hcov, disjoint_union_right]
      refine ⟨h2 g, ?_⟩
      have := hsh.apart g h hg
      rw [hb] at this
      exact this
  · rw [← h3, hcov]
    constructor
    · rintro ((hu | hu) | ⟨g, hu⟩)
      · exact Or.inl hu
      · exact Or.inr ⟨h, by rw [hb]; exact hu⟩
      · by_cases hg : g = h
        · subst hg
          rw [update_self, units_empty] at hu
          exact hu.elim
        · rw [update_of_ne hg] at hu
          exact Or.inr ⟨g, hu⟩
    · rintro (hu | ⟨g, hu⟩)
      · exact Or.inl (Or.inl hu)
      · by_cases hg : g = h
        · subst hg
          rw [hb] at hu
          exact Or.inl (Or.inr hu)
        · exact Or.inr ⟨g, by rw [update_of_ne hg]; exact hu⟩

end IpcMsg
