/-
# `free` of what is not to be freed

`free` returns 0 for an odd pointer, one outside the heap, and one to a block that is free
already or runs into a free one.  The first two are seen before anything is done; the last is
seen on the way down the tree, when the block has been counted out and some of its neighbours
may have been taken from the tree.
-/
import SunOS.Libc.MallocEffect
import SunOS.Libc.MallocRuns
import Mathlib.Algebra.BigOperators.Group.Finset.Basic

namespace Malloc

open Finset
open Set
open FastFits Segments
open CartesianTree hiding insert

variable {h h' : heap} {ptr : ℤ}

/-- A `free` that returns 0 changes nothing. -/
def FreeKeeps (ptr : ℤ) (h : heap) : Prop := ∀ h', free ptr h = some (h', 0) → Unchanged h h'

/-- The pointer is odd or not into the heap. -/
def OutOfHeap (ptr : ℤ) (h : heap) : Prop :=
  misaligned ptr = true ∨ ptr < h._lbound ∨ ptr > h._ubound

/-- No counter is one less than itself. -/
theorem int32_pred_ne (x : ℤ) : int32 (x - 1) ≠ x := by
  unfold int32
  omega

/-- Such a pointer is refused at once. -/
theorem free_outOfHeap (hout : OutOfHeap ptr h) (hfree : free ptr h = some (h', 0)) :
    Unchanged h h' := by
  unfold free at hfree
  by_cases hmis : misaligned ptr = true
  · rw [if_pos hmis] at hfree
    cases hfree
    exact ⟨rfl, rfl, rfl⟩
  · rw [if_neg hmis, if_pos (hout.resolve_left hmis)] at hfree
    cases hfree
    exact ⟨rfl, rfl, rfl⟩

/-- What the rest of `free` does, when the walk down the tree has ended. -/
theorem free_inHeap (hin : ¬ OutOfHeap ptr h) {j : Join}
    (hj : coalesce (h._root.toList.length + 1) (ptr - WORDSIZE) (h.size (ptr - WORDSIZE)) h._root =
      some j) : ∃ h1 : heap, h1.__mallinfo.allocated = int32 (h.__mallinfo.allocated - 1) ∧
      free ptr h = if j.clash then some (error h1, 0) else
        (Malloc.insert j.addr j.size h1).map (·, 1) := by
  rw [OutOfHeap, not_or] at hin
  unfold free
  rw [if_neg hin.1, if_neg hin.2]
  simp only [heap.size, heap.stats] at hj ⊢
  rw [hj]
  exact ⟨_, rfl, rfl⟩

/-- **`free` keeps the heap when it returns 0** exactly if the pointer is odd or not into the
heap, or its block neither is in a free block nor runs into one. -/
theorem free_keeps_iff (hv : Valid h._root) : FreeKeeps ptr h ↔ OutOfHeap ptr h ∨
    ∀ c ∈ h._root.toList, ¬ Clash (ptr - WORDSIZE) (h.size (ptr - WORDSIZE)) c := by
  by_cases hout : OutOfHeap ptr h
  · exact iff_of_true (fun h' => free_outOfHeap hout) (Or.inl hout)
  · obtain ⟨j, hj, hclash⟩ := coalesce_clash_iff (p := ptr - WORDSIZE)
      (n := h.size (ptr - WORDSIZE)) (Nat.lt_succ_self _) hv.apart hv.sound
    obtain ⟨h1, hcount, hfree⟩ := free_inHeap hout hj
    constructor
    · intro hkeeps
      refine Or.inr fun c hc hbad => ?_
      rw [if_pos (hclash.mpr ⟨c, hc, hbad⟩)] at hfree
      have hsame := congrArg mallinfo.allocated (hkeeps _ hfree).mallinfo
      have hcount' : (error h1).__mallinfo.allocated = int32 (h.__mallinfo.allocated - 1) := hcount
      rw [hcount'] at hsame
      exact int32_pred_ne _ hsame
    · rintro (hbad | hnone) h' hrun
      · exact absurd hbad hout
      · have hno : ¬ j.clash = true := fun hc => by
          obtain ⟨c, hmem, hbad⟩ := hclash.mp hc
          exact hnone c hmem hbad
        rw [hfree, if_neg hno] at hrun
        obtain ⟨h2, -, heq⟩ := Option.map_eq_some_iff.mp hrun
        cases heq

theorem secondFree_valid : Valid secondFree.heap._root := by
  refine ⟨List.pairwise_singleton _ _, fun b hb => ?_,
    heap_node_iff.mpr ⟨by simp, by simp, trivial, trivial⟩⟩
  rw [List.mem_singleton.mp hb]
  exact ⟨by decide, by decide, by decide⟩

theorem free_keeps_iff_secondFree : Valid secondFree.heap._root ∧
    (FreeKeeps 8196 secondFree.heap ↔ OutOfHeap 8196 secondFree.heap ∨
      ∀ c ∈ secondFree.heap._root.toList,
        ¬ Clash (8196 - WORDSIZE) (secondFree.heap.size (8196 - WORDSIZE)) c) :=
  ⟨secondFree_valid, free_keeps_iff secondFree_valid⟩

/-- **A block that is freed twice** is counted out twice. -/
theorem free_twice : ∃ s, Run (Guarded (Ok 8192) (Step 8192)) ⟨init 8192 [some 0], ∅, ∅⟩
    [.malloc 12, .malloc 8164, .free 8212] s ∧ ¬ FreeKeeps 8212 s.heap := by
  refine ⟨secondFree, run_secondFree ⟨⟨by decide, by decide⟩, by decide, by decide⟩
    ⟨⟨by decide, by decide⟩, by decide, by decide⟩ ⟨⟨_, Or.inl rfl, by decide⟩, trivial⟩,
    fun hkeeps => ?_⟩
  have hsame := (hkeeps _ (by rfl)).mallinfo
  exact absurd hsame (by decide)

end Malloc

/-! # `__mallinfo` over runs

The statistics stay exact in every run of the allocator, as long as no block is given to `realloc`
that lies at the right end of a larger free block: it is counted in as if only its own bytes had
been counted out, when the rest of the free block is counted out, too.
-/

namespace Malloc

open Finset
open Set
open FastFits Segments
open CartesianTree hiding insert

variable {B : Finset Block}

/-- **`__mallinfo` is exact**: `uordbytes` is the size of the busy blocks, `allocated` their
number, `ordblks` that of all blocks, `treeoverhead` the size of the arrays of headers, and
`arena` what is between the bounds of the heap. -/
def StatsExact (s : State) : Prop :=
  ∃ B : Finset Block, ↑B = s.live ∧ Exact s.heap (∑ b ∈ B, b.2) B.card

/-- A block in free space is at the right end of a larger free block. -/
def RightEnd (h : heap) (o : ℤ) : Prop :=
  ∃ c ∈ h._root.toList, c.1 < o ∧ o + h.size o = c.1 + c.2

/-- And no `realloc` is of a block at the right end of a larger free one. -/
def OkStats (nbpg : ℤ) (s : State) (e : Event) : Prop :=
  Ok nbpg s e ∧ match e with
    | .realloc p _ => Holds s p ∨ ¬ RightEnd s.heap (p - WORDSIZE)
    | _ => True

variable {nbpg : ℤ} {s s' : State} {n p : ℤ}

theorem statsExact_init (brk : ℤ) (supply : List (Option ℕ)) :
    StatsExact ⟨init brk supply, ∅, ∅⟩ := by
  refine ⟨∅, coe_empty, ?_⟩
  rw [sum_empty, Finset.card_empty]
  have h0 : (0 : ℤ) = int32 0 := by decide
  exact ⟨h0, h0, h0, h0, h0⟩

/-- A new block is counted. -/
theorem exact_insert {h : heap} {b : Block} (hb : b ∉ B)
    (he : Exact h (∑ c ∈ B, c.2 + b.2) (B.card + 1)) :
    Exact h (∑ c ∈ insert b B, c.2) (insert b B).card := by
  rw [sum_insert hb, card_insert_of_notMem hb, add_comm b.2]
  exact_mod_cast he

/-- A block less is counted. -/
theorem exact_erase {h : heap} {b : Block} (hb : b ∈ B)
    (he : Exact h (∑ c ∈ B, c.2 - b.2) (B.card - 1)) :
    Exact h (∑ c ∈ B.erase b, c.2) (B.erase b).card := by
  have hsum := add_sum_erase B (fun c : Block => c.2) hb
  have hcard := card_erase_add_one hb
  rw [show ∑ c ∈ B.erase b, c.2 = ∑ c ∈ B, c.2 - b.2 by rw [← hsum]; ring,
    show ((B.erase b).card : ℤ) = B.card - 1 by omega]
  exact he

/-- `malloc` keeps the statistics exact. -/
theorem malloc_exact (hpage : 0 < nbpg ∧ 4 ∣ nbpg) (hg : Good s.heap s.live) (he : StatsExact s)
    (hok : Ok nbpg s (.malloc n)) (hstep : Step nbpg s (.malloc n) s') : StatsExact s' := by
  obtain ⟨-, hn, hfit⟩ := hok
  obtain ⟨r, hcall, hlive, -⟩ := hstep
  obtain ⟨B, hB, hexact⟩ := he
  rcases malloc_effect hg hpage hn hfit hcall with ⟨rfl, heff, -⟩ | ⟨hr, heff⟩
  · refine ⟨B, by rw [hlive, returned, if_pos rfl, hB], ?_⟩
    have := heff.counts _ _ hexact
    rwa [add_zero, add_zero] at this
  · obtain ⟨b, rfl, -, hb, hg'⟩ : ∃ b : Block, r = b.1 + WORDSIZE ∧ blockSize n ≤ b.2 ∧
        b ∉ s.live ∧ Good s'.heap (insert b s.live) := by
      rcases malloc_good hg hpage hn hfit hcall with ⟨rfl, -⟩ | hgood
      · exact absurd rfl hr
      · exact hgood
    have hblock := blockOf_busy hg' (mem_insert _ _)
    have hsize : s'.heap.size (b.1 + WORDSIZE - WORDSIZE) = b.2 := congrArg Prod.snd hblock
    rw [hsize] at heff
    refine ⟨insert b B, by rw [hlive, returned, if_neg hr, hblock, coe_insert, hB], ?_⟩
    exact exact_insert (fun hmem => hb (by rw [← hB]; exact hmem)) (heff.counts _ _ hexact)

/-- `free` keeps the statistics exact. -/
theorem free_exact (hg : Good s.heap s.live) (he : StatsExact s) (hp : Holds s p)
    (hstep : Step nbpg s (.free p) s') : StatsExact s' := by
  obtain ⟨b, hb, rfl⟩ := hp
  obtain ⟨r, hcall, hlive, -⟩ := hstep
  obtain ⟨B, hB, hexact⟩ := he
  have hbusy : insert b (s.live \ {b}) = s.live := insert_sdiff_self_of_mem hb
  have hg1 : Good s.heap (insert b (s.live \ {b})) := by
    rw [hbusy]
    exact hg
  have hcall' : free_ (b.1 + WORDSIZE) s.heap = some s'.heap := by
    rw [free_, hcall]
    rfl
  have heff := free_effect hg1 (by simp) hcall'
  have hbB : b ∈ B := by
    rw [← mem_coe, hB]
    exact hb
  refine ⟨B.erase b, by rw [hlive, blockOf_busy hg hb, coe_erase, hB], ?_⟩
  exact exact_erase hbB (heff.counts _ _ hexact)

/-- A block that `realloc` has put in the place of another one is counted instead. -/
theorem Resized.exact {h h' : heap} {o w : ℤ}
    (hr : Resized h h' (↑B) o w n p) (he : Exact h (∑ c ∈ B, c.2 + w) (B.card + 1)) :
    Exact h' (∑ c ∈ insert (blockOf h' p) B, c.2) (insert (blockOf h' p) B).card := by
  refine exact_insert (fun hmem => hr.fresh hmem) ?_
  have := hr.effect.counts _ _ he
  rwa [show ∑ c ∈ B, c.2 + (blockOf h' p).2 = ∑ c ∈ B, c.2 + w + ((blockOf h' p).2 - w) by ring]

/-- `realloc` of a busy block keeps the statistics exact. -/
theorem realloc_holds_exact (hpage : 0 < nbpg ∧ 4 ∣ nbpg) (hg : Good s.heap s.live)
    (he : StatsExact s) (hn : 0 < blockSize n)
    (hfit : s.heap.size (p - WORDSIZE) < blockSize n → blockSize n + (nbpg - 1) < 4294967296)
    (hp : Holds s p) (hstep : Step nbpg s (.realloc p n) s') : StatsExact s' := by
  obtain ⟨b, hb, rfl⟩ := hp
  obtain ⟨r, hcall, -, hlive⟩ := hstep
  obtain ⟨B, hB, hexact⟩ := he
  have hblock := blockOf_busy hg hb
  have hsize : s.heap.size (b.1 + WORDSIZE - WORDSIZE) = b.2 := congrArg Prod.snd hblock
  rw [hsize] at hfit
  rw [hblock] at hlive
  have hbusy : insert (b.1, b.2) (s.live \ {b}) = s.live := insert_sdiff_self_of_mem hb
  have hg1 : Good s.heap (insert (b.1, b.2) (s.live \ {b})) := by
    rw [hbusy]
    exact hg
  rw [(realloc_busy hg1 _).2] at hcall
  rcases resize_effect hg1 (by simp) hpage hn (fun hc => hfit hc.small) hcall with ⟨rfl, heff,
    -⟩ | hres
  · have hsame : s.live ∪ {d | d = b ∧ d.1 ∉ room s'.heap._root} = s.live := by
      refine union_eq_self_of_subset_right ?_
      rintro d ⟨rfl, -⟩
      exact hb
    refine ⟨B, by rw [hlive, if_pos rfl, hsame, hB], ?_⟩
    have := heff.counts _ _ hexact
    rwa [add_zero, add_zero] at this
  · have hbB : b ∈ B := by
      rw [← mem_coe, hB]
      exact hb
    have hB' : ((B.erase b : Finset Block) : Set Block) = s.live \ {b} := by
      rw [coe_erase, hB]
    rw [← hB'] at hres
    refine ⟨insert (blockOf s'.heap r) (B.erase b), ?_, hres.exact ?_⟩
    · rw [hlive, if_neg hres.ne, coe_insert, hB']
    · rw [sum_erase_add _ _ hbB, show ((B.erase b).card : ℤ) + 1 = B.card from
        mod_cast card_erase_add_one hbB]
      exact hexact

/-- **`realloc` of a block in free space** keeps the statistics exact, but at the right end of a
larger free block. -/
theorem realloc_nested_exact (hpage : 0 < nbpg ∧ 4 ∣ nbpg) (hg : Good s.heap s.live)
    (he : StatsExact s) (hn : 0 < blockSize n)
    (hfit : s.heap.size (p - WORDSIZE) < blockSize n → blockSize n + (nbpg - 1) < 4294967296)
    (hp : Nested s.heap (p - WORDSIZE)) (hend : ¬ RightEnd s.heap (p - WORDSIZE))
    (hstep : Step nbpg s (.realloc p n) s') : StatsExact s' := by
  obtain ⟨hwhole, c, hc, hle, hin⟩ := hp
  obtain ⟨r, hcall, -, hlive⟩ := hstep
  obtain ⟨B, hB, hexact⟩ := he
  rw [show p = p - WORDSIZE + WORDSIZE by omega] at hcall
  have htotal : reclaimTotal c (p - WORDSIZE) (s.heap.size (p - WORDSIZE)) =
      s.heap.size (p - WORDSIZE) := if_neg fun hbad => hend ⟨c, hc, hbad⟩
  rcases realloc_free_effect hg hwhole hc hin hle hpage hn hfit hcall with
    ⟨rfl, heff, hsame⟩ | ⟨h2, hout, hg2, heff, hres⟩
  · have hlive' : s.live ∪ {d | d = blockOf s.heap p ∧ d.1 ∉ room s'.heap._root} = s.live := by
      refine union_eq_self_of_subset_right ?_
      rintro d ⟨rfl, hd⟩
      rw [hsame.root] at hd
      exact absurd (span_subset_room hc hin) hd
    refine ⟨B, by rw [hlive, if_pos rfl, hlive', hB], ?_⟩
    have := heff.counts _ _ hexact
    rwa [add_zero, add_zero] at this
  · have hnew : blockOf s.heap p ∉ B := fun hmem => hout (hB ▸ hmem)
    have htaken := heff.counts _ _ hexact
    rw [htotal] at htaken
    rcases hres with ⟨rfl, heff', hsame⟩ | hres
    · have hlive' : s.live ∪ {d | d = blockOf s.heap p ∧ d.1 ∉ room s'.heap._root} =
          insert (blockOf s.heap p) s.live := by
        have hnot : p - WORDSIZE ∉ room s'.heap._root := by
          rw [hsame.root]
          exact fun hfree => Set.disjoint_left.mp hg2.tiles.apart hfree
            (span_subset (mem_insert _ _) hwhole.start_mem)
        ext d
        constructor
        · rintro (hd | ⟨rfl, -⟩)
          · exact Or.inr hd
          · exact Or.inl rfl
        · rintro (rfl | hd)
          · exact Or.inr ⟨rfl, hnot⟩
          · exact Or.inl hd
      refine ⟨insert (blockOf s.heap p) B, ?_, exact_insert hnew ?_⟩
      · rw [hlive, if_pos rfl, hlive', coe_insert, hB]
      · have := heff'.counts _ _ htaken
        rwa [add_zero, add_zero] at this
    · rw [← hB] at hres
      refine ⟨insert (blockOf s'.heap r) B, ?_, hres.exact htaken⟩
      have hout' : blockOf s.heap p ∉ s.live := hout
      rw [hlive, if_neg hres.ne, coe_insert, hB, sdiff_singleton_eq_self hout']

/-- **Every step keeps the statistics exact.** -/
theorem step_exact (hpage : 0 < nbpg ∧ 4 ∣ nbpg) (s : State) (e : Event) (s' : State)
    (hi : Good s.heap s.live ∧ StatsExact s) (h : Guarded (OkStats nbpg) (Step nbpg) s e s') :
    Good s'.heap s'.live ∧ StatsExact s' := by
  obtain ⟨hg, he⟩ := hi
  obtain ⟨⟨hok, hmore⟩, hstep⟩ := h
  refine ⟨step_good hpage s e s' hg ⟨hok, hstep⟩, ?_⟩
  cases e with
  | malloc n => exact malloc_exact hpage hg he hok hstep
  | free p => exact free_exact hg he hok.1 hstep
  | realloc p n =>
    obtain ⟨-, hn, hfit, hp⟩ := hok
    by_cases hholds : Holds s p
    · exact realloc_holds_exact hpage hg he hn hfit hholds hstep
    · exact realloc_nested_exact hpage hg he hn hfit (hp.resolve_left hholds)
        (hmore.resolve_left hholds) hstep
  | store a v =>
    rw [show s' = { s with heap := s.heap.store a v } from hstep]
    obtain ⟨B, hB, hexact⟩ := he
    exact ⟨B, hB, ⟨hexact.1, hexact.2, hexact.3, hexact.4, hexact.5⟩⟩

/-- **The statistics stay exact**, in every run whose calls are as they should be and give
`realloc` no block at the right end of a larger free one. -/
theorem statsExact_of_run {brk : ℤ} {supply : List (Option ℕ)} {es : List Event}
    (hpage : 0 < nbpg ∧ 4 ∣ nbpg) (hbrk : 0 < brk)
    (h : Run (Guarded (OkStats nbpg) (Step nbpg)) ⟨init brk supply, ∅, ∅⟩ es s) : StatsExact s :=
  (Run.invariant (I := fun s => Good s.heap s.live ∧ StatsExact s) (step_exact hpage) h
    ⟨good_init hbrk supply, statsExact_init brk supply⟩).2

theorem statsExact_secondFree : StatsExact secondFree := by
  have hrun : Run (Guarded (OkStats 8192) (Step 8192)) ⟨init 8192 [some 0], ∅, ∅⟩
      [.malloc 12, .malloc 8164, .free 8212] secondFree :=
    run_secondFree ⟨⟨⟨by decide, by decide⟩, by decide, by decide⟩, trivial⟩
      ⟨⟨⟨by decide, by decide⟩, by decide, by decide⟩, trivial⟩
      ⟨⟨⟨_, Or.inl rfl, by decide⟩, trivial⟩, trivial⟩
  exact statsExact_of_run (by decide) (by decide) hrun

/-- Both blocks have been freed, and the page is one free block. -/
def bothFree : State where
  heap := page (node nil 8192 8192 nil) (0, 511) 1 0 0
    ((8192, 8192) :: (8208, 8176) :: twoBlocks)
  live := secondFree.live \ {(8192, 16)}
  freed := insert 8196 {8212}

/-- **A block is taken back from the right end**, and its first 16 bytes are not counted. -/
theorem not_statsExact_rightEnd : ∃ s, Run (Guarded (Ok 8192) (Step 8192))
    ⟨init 8192 [some 0], ∅, ∅⟩
    [.malloc 12, .malloc 8164, .free 8212, .free 8196, .realloc 8212 8172] s ∧ ¬ StatsExact s := by
  have hrun : Run (Guarded (Ok 8192) (Step 8192)) ⟨init 8192 [some 0], ∅, ∅⟩
      [.malloc 12, .malloc 8164, .free 8212] secondFree :=
    run_secondFree ⟨⟨by decide, by decide⟩, by decide, by decide⟩
      ⟨⟨by decide, by decide⟩, by decide, by decide⟩ ⟨⟨_, Or.inl rfl, by decide⟩, trivial⟩
  have hfree : Guarded (Ok 8192) (Step 8192) secondFree (.free 8196) bothFree :=
    ⟨⟨⟨_, ⟨Or.inr (Or.inl rfl), by decide⟩, by decide⟩, trivial⟩, 1, by decide, rfl, rfl⟩
  have hnested : Nested bothFree.heap 8208 :=
    ⟨⟨⟨by decide, by decide, by decide⟩, by decide, by decide⟩, (8192, 8192), by decide,
      by decide, by decide, by decide⟩
  have hback : Guarded (Ok 8192) (Step 8192) bothFree (.realloc 8212 8172)
      ⟨page (node nil 8192 16 nil) (0, 511) 2 8160 1
        ((8192, 16) :: (8192, 16) :: (8192, 8192) :: (8208, 8176) :: twoBlocks),
        insert (8208, 8176) (bothFree.live \ {(8208, 8176)}), insert 8196 {8212}⟩ :=
    ⟨⟨⟨⟨by decide, by decide⟩, Or.inr (Or.inr rfl)⟩, by decide, by decide, Or.inr hnested⟩,
      8212, by decide, rfl, rfl⟩
  refine ⟨_, hrun.append (.cons hfree (.cons hback (.nil _))), ?_⟩
  rintro ⟨B, hB, hexact⟩
  -- the block is all that is busy
  have hlive : (insert (8208, 8176) (bothFree.live \ {(8208, 8176)}) : Set Block) =
      ({(8208, 8176)} : Finset Block) := by
    ext b
    simp only [bothFree, secondFree, mem_insert_iff, mem_sdiff, mem_singleton_iff,
      mem_empty_iff_false, coe_singleton]
    tauto
  have hsingle : B = {(8208, 8176)} := coe_injective (hB.trans hlive)
  have hbytes := hexact.uordbytes
  rw [hsingle, sum_singleton] at hbytes
  exact absurd hbytes (by decide)

end Malloc
