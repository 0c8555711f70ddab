/-
# `sbrk`, `getfreehdr` and `free`

The heap is good when its blocks tile the regions `sbrk` has returned less the
arrays of headers.  Extending it keeps it good, also in the middle of an insertion,
and `free` of a busy block makes the block free.
-/
import SunOS.Libc.MallocTiles

namespace Malloc

open Set
open FastFits Segments
open CartesianTree hiding insert

/-- What holds of a heap with the free blocks of `root` and the busy blocks `busy`. -/
structure GoodParts (root : CartesianTree ℤ ℤ) (memory : List (ℤ × ℤ))
    (regions headers : List Block) (lbound ubound curbrk : ℤ) (busy : Set Block) :
    Prop where
  tiles : Tiles root memory busy (cover lo hi regions \ cover lo hi headers)
  headers : headers.Sublist regions
  whole : ∀ b ∈ regions, Whole b
  rising : regions.Pairwise fun a b => hi b ≤ lo a
  bounds : ∀ b ∈ regions, lbound ≤ lo b ∧ hi b ≤ ubound
  ends : regions = [] ∧ lbound = 0 ∧ ubound = 0 ∨
    0 < lbound ∧ regions.getLast?.map lo = some lbound ∧ regions.head?.map hi = some ubound
  brk : 0 < curbrk ∧ ubound ≤ curbrk

/-- The heap `h` is good with the tree `root` in place of its own. -/
def GoodAt (root : CartesianTree ℤ ℤ) (h : heap) (busy : Set Block) : Prop :=
  GoodParts root h.memory h.regions h.headers h._lbound h._ubound h.curbrk busy

/-- The heap `h` is good. -/
def Good (h : heap) (busy : Set Block) : Prop := GoodAt h._root h busy

variable {root : CartesianTree ℤ ℤ} {h h' : heap} {busy : Set Block}

/-- A busy block lies between the bounds of the heap. -/
theorem GoodAt.bounds_busy (hg : GoodAt root h busy) {b : Block} (hb : b ∈ busy) :
    h._lbound ≤ lo b ∧ hi b ≤ h._ubound := by
  have hin : span b ⊆ cover lo hi h.regions := by
    refine Set.Subset.trans ?_ (sdiff_subset (t := cover lo hi h.headers))
    rw [← hg.tiles.exact]
    exact (span_subset hb).trans subset_union_right
  obtain ⟨hs1, hs2, hs3⟩ := (hg.tiles.busyWhole b hb).1.sound
  constructor
  · obtain ⟨c, hc, hlo, -⟩ := hin (show lo b ∈ span b from ⟨le_refl _, by rw [lo, hi]; omega⟩)
    exact le_trans (hg.bounds c hc).1 hlo
  · obtain ⟨c, hc, -, hhi⟩ :=
      hin (show hi b - 1 ∈ span b from ⟨by rw [lo, hi]; omega, by rw [hi]; omega⟩)
    have := (hg.bounds c hc).2
    omega

/-! ## Extending the heap -/

variable {n p : ℤ}

theorem heap.brk_spec (h : heap) : h.curbrk ≤ h.brk ∧ 4 ∣ h.brk := by
  unfold heap.brk
  omega

/-- What `sbrk` returns is the old break, and that is all it changes. -/
theorem sbrk_eq (h1 : sbrk n h = (h', some p)) :
    p = h.brk ∧ ∃ supply, h' = { h with supply := supply, curbrk := uint32 (p + n) } := by
  unfold sbrk at h1
  split_ifs at h1
  · simp at h1
  · rw [Prod.mk.injEq, Option.some.injEq] at h1
    obtain ⟨rfl, rfl⟩ := h1
    exact ⟨rfl, h.supply.tail, rfl⟩

/-- `sbrk` returns a range of words above everything there is, unless the break comes down. -/
theorem sbrk_some (hbrk : 0 < h.curbrk) (hn : 0 < n ∧ n < 4294967296)
    (h1 : sbrk n h = (h', some p)) (hup : ¬ h'.curbrk < p) :
    h.curbrk ≤ p ∧ 4 ∣ p ∧ p + n < 4294967296 ∧
      ∃ supply, h' = { h with supply := supply, curbrk := p + n } := by
  obtain ⟨rfl, supply, rfl⟩ := sbrk_eq h1
  obtain ⟨hle, h4⟩ := h.brk_spec
  have hfit : h.brk + n < 4294967296 := by
    by_contra hwrap
    apply hup
    show uint32 (h.brk + n) < h.brk
    unfold uint32
    omega
  exact ⟨hle, h4, hfit, supply, by rw [uint32_of_ufits ⟨by omega, hfit⟩]⟩

/-- Where the header that `getfreehdr` takes comes from. -/
theorem getfreehdr_cases (h1 : getfreehdr h = some h') :
    (∃ i j, h' = { h with freehdrlist := i, nfreehdrs := j }) ∨
      ∃ h2 p, sbrk headerArraySize h = (h2, some p) ∧ ¬ h2.curbrk < p ∧
        h' = { (extend p headerArraySize h2).stats fun i =>
            { i with treeoverhead := int32 (i.treeoverhead + headerArraySize) } with
          headers := (p, headerArraySize) :: h2.headers
          nfreehdrs := NFREE_HDRS - 1 } := by
  unfold getfreehdr at h1
  by_cases hl : h.freehdrlist ≠ 0
  · rw [if_pos hl, Option.some.injEq] at h1
    exact Or.inl ⟨_, _, h1.symm⟩
  rw [if_neg hl] at h1
  by_cases hn : h.nfreehdrs = 0
  · rw [if_pos hn] at h1
    rcases hs : sbrk headerArraySize h with ⟨h2, _ | p⟩
    · rw [hs] at h1
      cases h1
    · simp only [hs] at h1
      by_cases hlow : h2.curbrk < p
      · rw [if_pos hlow] at h1
        cases h1
      · rw [if_neg hlow, Option.some.injEq] at h1
        exact Or.inr ⟨h2, p, rfl, hlow, h1.symm⟩
  · rw [if_neg hn, Option.some.injEq] at h1
    exact Or.inl ⟨_, _, h1.symm⟩

/-- A failing `sbrk` changes nothing of the heap. -/
theorem sbrk_none_eq {n : ℤ} (h1 : sbrk n h = (h', none)) :
    ∃ e supply, h' = { h with supply := supply, errno := e } := by
  unfold sbrk at h1
  split_ifs at h1
  · rw [Prod.mk.injEq] at h1
    exact ⟨ENOMEM, h.supply.tail, h1.1.symm⟩
  · simp at h1

section

variable (hg : GoodAt root h busy)
include hg

theorem sbrk_none {n : ℤ} (h1 : sbrk n h = (h', none)) :
    GoodAt root h' busy ∧ h'._root = h._root := by
  obtain ⟨e, supply, rfl⟩ := sbrk_none_eq h1
  exact ⟨hg, rfl⟩

/-- The parts of goodness that speak of the regions only, after a new one. -/
theorem GoodAt.region {p n : ℤ} (hp : h.curbrk ≤ p) (hp4 : 4 ∣ p)
    (hn : 0 < n) (hn4 : 4 ∣ n) (hend : p + n < 4294967296) :
    Whole (p, n) ∧ nextblk p n = p + n ∧ (∀ b ∈ h.regions, hi b ≤ p) ∧
      Disjoint (span (p, n)) (cover lo hi h.regions) := by
  obtain ⟨hb1, hb2⟩ := hg.brk
  have hle : ∀ b ∈ h.regions, hi b ≤ p := fun b hb => by
    have := (hg.bounds b hb).2
    omega
  refine ⟨⟨⟨by simp only; omega, hn, hend⟩, ⟨by simp only; omega, hp4⟩, hn4⟩,
    uint32_of_ufits ⟨by omega, hend⟩, hle, ?_⟩
  rw [disjoint_left]
  rintro u ⟨hlo, -⟩ ⟨b, hb, -, hhi⟩
  have := hle b hb
  simp only [lo] at hlo
  omega

/-- A new region may become a busy block. -/
theorem GoodAt.extend_busy (hn : 0 < n ∧ n < 4294967296) (hn4 : 4 ∣ n)
    (h1 : sbrk n h = (h', some p)) (hup : ¬ h'.curbrk < p) :
    GoodAt root (extend p n h') (insert (p, n) busy) ∧ (extend p n h')._root = h._root := by
  obtain ⟨hp, hp4, hend, supply, rfl⟩ := sbrk_some hg.brk.1 hn h1 hup
  obtain ⟨hwhole, hnext, hle, hdis⟩ := hg.region hp hp4 hn.1 hn4 hend
  have hheaders : cover lo hi h.headers ⊆ cover lo hi h.regions :=
    fun u ⟨b, hb, hu⟩ => ⟨b, hg.headers.subset hb, hu⟩
  have hused : cover lo hi ((p, n) :: h.regions) \ cover lo hi h.headers =
      (cover lo hi h.regions \ cover lo hi h.headers) ∪ span (p, n) := by
    rw [cover_cons]
    ext u
    have h2 : u ∈ span (p, n) → u ∉ cover lo hi h.regions := fun hu => Set.disjoint_left.mp hdis hu
    simp only [mem_union, mem_sdiff, span] at h2 ⊢
    tauto
  refine ⟨⟨?_, hg.headers.cons _, ?_, ?_, ?_, ?_, ?_⟩, rfl⟩
  · show Tiles root ((p, n) :: h.memory) (insert (p, n) busy)
      (cover lo hi ((p, n) :: h.regions) \ cover lo hi h.headers)
    rw [hused]
    refine hg.tiles.add hwhole (by rw [load_cons, if_pos rfl]) (hdis.mono_right sdiff_subset)
      (Agree.store _ ?_)
    exact fun hmem => Set.disjoint_left.mp hdis hwhole.start_mem hmem.1
  · exact List.forall_mem_cons.mpr ⟨hwhole, hg.whole⟩
  · exact List.pairwise_cons.mpr ⟨hle, hg.rising⟩
  · intro b hb
    show (if h._lbound = 0 then p else h._lbound) ≤ lo b ∧ hi b ≤ nextblk p n
    rw [hnext]
    rcases List.mem_cons.mp hb with rfl | hb
    · refine ⟨?_, le_refl _⟩
      by_cases h0 : h._lbound = 0
      · rw [if_pos h0]
        exact le_refl _
      · rw [if_neg h0]
        rcases hg.ends with ⟨-, hl, -⟩ | ⟨-, hl, -⟩
        · exact absurd hl h0
        · obtain ⟨c, hc, hcl⟩ := Option.map_eq_some_iff.mp hl
          have hc' := List.mem_of_getLast? hc
          have h1 := hle c hc'
          have h2 := (hg.whole c hc').sound.2.1
          rw [← hcl]
          simp only [lo, hi] at h1 ⊢
          omega
    · have hb' := hle b hb
      obtain ⟨hb1, hb2⟩ := hg.bounds b hb
      refine ⟨?_, by omega⟩
      by_cases h0 : h._lbound = 0
      · rcases hg.ends with ⟨hnil, -, -⟩ | ⟨hpos, -, -⟩
        · rw [hnil] at hb
          cases hb
        · omega
      · rw [if_neg h0]
        exact hb1
  · right
    show 0 < (if h._lbound = 0 then p else h._lbound) ∧
      ((p, n) :: h.regions).getLast?.map lo = some (if h._lbound = 0 then p else h._lbound) ∧
      ((p, n) :: h.regions).head?.map hi = some (nextblk p n)
    rcases hg.ends with ⟨hnil, hl, -⟩ | ⟨hpos, hl, -⟩
    · rw [if_pos hl, hnil, hnext]
      exact ⟨hwhole.addr.1, rfl, rfl⟩
    · rw [if_neg (by omega), hnext]
      refine ⟨hpos, ?_, rfl⟩
      rw [← hl]
      cases hr : h.regions with
      | nil =>
        rw [hr] at hl
        cases hl
      | cons c cs => rfl
  · show 0 < p + n ∧ nextblk p n ≤ p + n
    rw [hnext]
    have := hwhole.addr.1
    omega

/-- An array of headers is no part of the heap that is tiled. -/
theorem GoodAt.extend_used (hn : 0 < n ∧ n < 4294967296) (hn4 : 4 ∣ n)
    (h1 : sbrk n h = (h', some p)) (hup : ¬ h'.curbrk < p) :
    cover lo hi ((p, n) :: h.regions) \ cover lo hi ((p, n) :: h.headers) =
      cover lo hi h.regions \ cover lo hi h.headers := by
  obtain ⟨hp, hp4, hend, -⟩ := sbrk_some hg.brk.1 hn h1 hup
  obtain ⟨-, -, -, hdis⟩ := hg.region hp hp4 hn.1 hn4 hend
  rw [cover_cons, cover_cons]
  ext u
  have h2 : u ∈ span (p, n) → u ∉ cover lo hi h.regions := fun hu => Set.disjoint_left.mp hdis hu
  simp only [mem_union, mem_sdiff, span] at h2 ⊢
  tauto

/-- Or it becomes an array of headers. -/
theorem GoodAt.extend_header (hn : 0 < n ∧ n < 4294967296) (hn4 : 4 ∣ n)
    (h1 : sbrk n h = (h', some p)) (hup : ¬ h'.curbrk < p) :
    GoodAt root { extend p n h' with headers := (p, n) :: h'.headers } busy := by
  -- as a busy block first, of which only the regions matter
  obtain ⟨hbusy, -⟩ := hg.extend_busy hn hn4 h1 hup
  have hused := hg.extend_used hn hn4 h1 hup
  obtain ⟨hp, hp4, hend, supply, rfl⟩ := sbrk_some hg.brk.1 hn h1 hup
  obtain ⟨hwhole, -, -, hdis⟩ := hg.region hp hp4 hn.1 hn4 hend
  refine ⟨?_, hg.headers.cons_cons _, hbusy.whole, hbusy.rising, hbusy.bounds, hbusy.ends,
    hbusy.brk⟩
  show Tiles root ((p, n) :: h.memory) busy
    (cover lo hi ((p, n) :: h.regions) \ cover lo hi ((p, n) :: h.headers))
  rw [hused]
  exact hg.tiles.store n (Or.inr fun hmem => Set.disjoint_left.mp hdis hwhole.start_mem hmem.1)

/-- Getting a header keeps the heap good, whatever its tree. -/
theorem getfreehdr_good (h1 : getfreehdr h = some h') :
    GoodAt root h' busy ∧ h'._root = h._root := by
  rcases getfreehdr_cases h1 with ⟨i, j, rfl⟩ | ⟨h2, p, hs, hup, rfl⟩
  · exact ⟨hg, rfl⟩
  · have hext := hg.extend_header (by decide) (by decide) hs hup
    obtain ⟨-, supply, rfl⟩ := sbrk_eq hs
    exact ⟨hext, rfl⟩

end

/-! ## Freeing a block -/

/-- **What `free` does to a busy block**: it is counted out, joined to its free neighbours and
inserted. -/
theorem free_busy {b : Block} (hg : Good h busy) (hb : b ∈ busy) :
    ∃ j, coalesce (h._root.toList.length + 1) b.1 b.2 h._root = some j ∧
      free (b.1 + WORDSIZE) h = (getfreehdr { h with
        _root := j.tree
        freehdrlist := h.freehdrlist + j.absorbed
        __mallinfo := { h.__mallinfo with
          uordbytes := int32 (h.__mallinfo.uordbytes - b.2)
          allocated := int32 (h.__mallinfo.allocated - 1)
          ordblks := int32 (h.__mallinfo.ordblks - j.absorbed) } }).map fun h2 =>
            ({ h2 with _root := h2._root.insert j.addr j.size }.store j.addr j.size, 1) := by
  obtain ⟨hbw, hword⟩ := hg.tiles.busyWhole b hb
  obtain ⟨hlow, hhigh⟩ := GoodAt.bounds_busy hg hb
  have h4 : 4 ∣ b.1 := hbw.addr.2
  have hsize4 := hbw.size
  have hpos := hbw.sound.2.1
  obtain ⟨j, hj, hclash, hne, -, -⟩ := hg.tiles.give hb
  refine ⟨j, hj, ?_⟩
  have hmis : misaligned (b.1 + WORDSIZE) = false := by
    rw [misaligned, WORDSIZE]
    have : (b.1 + 4) % 4 = 0 := by omega
    simp [this]
  have hin : ¬ (b.1 + WORDSIZE < h._lbound ∨ b.1 + WORDSIZE > h._ubound) := by
    rw [WORDSIZE]
    simp only [lo, hi] at hlow hhigh
    omega
  have hsub : b.1 + WORDSIZE - WORDSIZE = b.1 := by omega
  unfold free
  rw [hmis, if_neg (by simp), if_neg hin]
  simp only [hsub, heap.size, heap.stats]
  rw [hword, hj]
  simp only [hclash, Bool.false_eq_true, if_false]
  rw [Malloc.insert, if_neg hne, Option.map_map]
  rfl

/-- **`free` of a busy block** succeeds (unless no header can be had) and makes the
block free. -/
theorem free_good {b : Block} {r : ℤ} (hg : Good h busy) (hb : b ∈ busy)
    (h1 : free (b.1 + WORDSIZE) h = some (h', r)) :
    r = 1 ∧ Good h' (busy \ {b}) ∧ ∃ c ∈ h'._root.toList, b.2 ≤ c.2 := by
  obtain ⟨j, hj, heq⟩ := free_busy hg hb
  rw [heq] at h1
  obtain ⟨h3, hget, heq'⟩ := Option.map_eq_some_iff.mp h1
  obtain ⟨rfl, rfl⟩ := heq'
  obtain ⟨hg3, hroot3⟩ := @getfreehdr_good h._root _ h3 busy (by exact hg) hget
  have hroot : h3._root = j.tree := hroot3
  -- the same walk, in the heap that may have been extended meanwhile
  obtain ⟨j', hj', -, -, htiles, hbig⟩ := hg3.tiles.give hb
  rw [hj, Option.some.injEq] at hj'
  subst hj'
  rw [← hroot] at htiles hbig
  exact ⟨rfl, ⟨htiles, hg3.headers, hg3.whole, hg3.rising, hg3.bounds, hg3.ends, hg3.brk⟩,
    hbig⟩

end Malloc

/-! # `malloc` and `realloc`

`malloc` makes a free block, or its lower part, busy.  `realloc` first takes the
old block out of free space if it is there, and then shrinks it, grows it over the
free block after it, or moves it.
-/

namespace Malloc

open Set
open FastFits Segments
open CartesianTree hiding insert

variable {h h' : heap} {busy : Set Block} {l r root : CartesianTree ℤ ℤ} {b s : ℤ}
  {path : List (Crumb ℤ ℤ)}

/-- `free` of a busy block, its result ignored. -/
theorem free_insert_good {c : Block} (hg : Good h (insert c busy)) (hc : c ∉ busy)
    (h1 : free_ (c.1 + WORDSIZE) h = some h') :
    Good h' busy ∧ ∃ d ∈ h'._root.toList, c.2 ≤ d.2 := by
  obtain ⟨⟨h2, r⟩, hfree, rfl⟩ := Option.map_eq_some_iff.mp h1
  obtain ⟨-, hg', hbig⟩ := free_good hg (mem_insert _ _) hfree
  rw [insert_sdiff_self_of_notMem hc] at hg'
  exact ⟨hg', hbig⟩

/-- A block that starts in a free one is not busy. -/
theorem GoodAt.not_mem_busy (hg : GoodAt root h busy) {c d : Block} (hd : d ∈ root.toList)
    (hc : c.1 ∈ span d) : c ∉ busy := by
  intro hmem
  have hstart := (hg.tiles.busyWhole c hmem).1.start_mem
  exact Set.disjoint_left.mp hg.tiles.apart (span_subset_room hd hc) (span_subset hmem hstart)

/-! ## malloc -/

variable {nbpg n p : ℤ}

theorem blockSize_spec (n : ℤ) :
    0 ≤ blockSize n ∧ 4 ∣ blockSize n ∧ blockSize n < 4294967296 := by
  rw [blockSize, roundup, uint32, uint32, WORDSIZE, SMALLEST_BLK]
  split_ifs <;> omega

/-- Rounding up without overflow. -/
theorem roundup_spec {n y : ℤ} (hn : 0 < n) (hy : 0 < y) (hy4 : 4 ∣ y)
    (hfit : n + (y - 1) < 4294967296) : n ≤ roundup n y ∧ 4 ∣ roundup n y := by
  rw [roundup, uint32_of_ufits ⟨by omega, hfit⟩]
  refine ⟨?_, Dvd.dvd.mul_left hy4 _⟩
  have hmod := Int.emod_lt_of_pos (n + (y - 1)) hy
  have hdiv := Int.mul_ediv_add_emod (n + (y - 1)) y
  rw [mul_comm] at hdiv
  omega

/-- What is rounded up is still a word. -/
theorem roundup_lt {y : ℤ} (n : ℤ) (hy : 0 < y) : roundup n y < 4294967296 := by
  have h1 : roundup n y ≤ uint32 (n + (y - 1)) := Int.ediv_mul_le _ hy.ne'
  unfold uint32 at h1
  omega

/-- The heap with new core at `p`, counted as a busy block. -/
def cored (p k : ℤ) (h : heap) : heap := (extend p k h).stats fun i => { i with
  uordbytes := int32 (i.uordbytes + k)
  ordblks := int32 (i.ordblks + 1)
  allocated := int32 (i.allocated + 1) }

/-- What `morecore` has come to. -/
theorem morecore_cases {more : Bool} (h1 : morecore nbpg n h = some (h', more)) :
    more = false ∧ sbrk (roundup n nbpg) h = (h', none) ∨
      more = true ∧ ∃ h2 p, sbrk (roundup n nbpg) h = (h2, some p) ∧ ¬ h2.curbrk < p ∧
        free_ (p + WORDSIZE) (cored p (roundup n nbpg) h2) = some h' := by
  unfold morecore at h1
  rcases hs : sbrk (roundup n nbpg) h with ⟨h2, _ | p⟩
  · simp only [hs, Option.some.injEq, Prod.mk.injEq] at h1
    obtain ⟨rfl, rfl⟩ := h1
    exact Or.inl ⟨rfl, rfl⟩
  · simp only [hs] at h1
    by_cases hlow : h2.curbrk < p
    · rw [if_pos hlow] at h1
      cases h1
    · rw [if_neg hlow] at h1
      obtain ⟨h3, hfree, heq⟩ := Option.map_eq_some_iff.mp h1
      obtain ⟨rfl, rfl⟩ := heq
      exact Or.inr ⟨rfl, h2, p, rfl, hlow, hfree⟩

/-- New core is a busy block, until it is freed. -/
theorem morecore_block {h2 : heap} (hg : Good h busy) (hpage : 0 < nbpg ∧ 4 ∣ nbpg)
    (hn : 0 < n) (hfit : n + (nbpg - 1) < 4294967296) (hs : sbrk (roundup n nbpg) h = (h2, some p))
    (hup : ¬ h2.curbrk < p) :
    Good (cored p (roundup n nbpg) h2) (insert (p, roundup n nbpg) busy) ∧
      (p, roundup n nbpg) ∉ busy := by
  obtain ⟨hle, h4⟩ := roundup_spec hn hpage.1 hpage.2 hfit
  obtain ⟨hext, -⟩ :=
    GoodAt.extend_busy hg ⟨by omega, roundup_lt n hpage.1⟩ h4 hs hup
  obtain ⟨rfl, supply, rfl⟩ := sbrk_eq hs
  have hp := h.brk_spec.1
  refine ⟨hext, fun hmem => ?_⟩
  obtain ⟨-, hhi⟩ := GoodAt.bounds_busy hg hmem
  have := hg.brk.2
  rw [hi] at hhi
  omega

/-- `morecore` leaves a block that is big enough, or fails. -/
theorem morecore_good {nbpg n : ℤ} {more : Bool} (hg : Good h busy) (hpage : 0 < nbpg ∧ 4 ∣ nbpg)
    (hn : 0 < n) (hfit : n + (nbpg - 1) < 4294967296) (h1 : morecore nbpg n h = some (h', more)) :
    Good h' busy ∧ (more = true → ∃ c ∈ h'._root.toList, n ≤ c.2) := by
  obtain ⟨hle, -⟩ := roundup_spec hn hpage.1 hpage.2 hfit
  rcases morecore_cases h1 with ⟨rfl, hs⟩ | ⟨rfl, h2, p, hs, hup, hfree⟩
  · obtain ⟨hg', hroot⟩ := sbrk_none hg hs
    exact ⟨by rw [Good, hroot]; exact hg', by simp⟩
  · obtain ⟨hgood, hout⟩ := morecore_block hg hpage hn hfit hs hup
    obtain ⟨hg', c, hc, hbig⟩ := free_insert_good hgood hout hfree
    exact ⟨hg', fun _ => ⟨c, hc, le_trans hle hbig⟩⟩

/-- Allocating from a node that is big enough. -/
theorem allocateFrom_good {a : Place} {n : ℤ} (hg : Good h busy)
    (hplug : plug a.path a.node = h._root) (hn : 0 < n) (hn4 : 4 ∣ n) (hle : n ≤ a.size) :
    ∃ k, n ≤ k ∧ (a.addr, k) ∉ busy ∧ Good (allocateFrom a n h) (insert (a.addr, k) busy) := by
  have hmem : (a.addr, a.size) ∈ h._root.toList := by
    rw [← hplug]
    exact mem_plug_node
  obtain ⟨hwhole, hword⟩ := hg.tiles.freeWhole _ hmem
  obtain ⟨hs1, hs2, hs3⟩ := hwhole.sound
  have hout : ∀ k, (a.addr, k) ∉ busy := fun k => GoodAt.not_mem_busy hg hmem hwhole.start_mem
  have htiles := hg.tiles
  rw [← hplug] at htiles
  unfold allocateFrom
  rw [show uint32 (a.size - n) = a.size - n from uint32_of_ufits ⟨by lia, by lia⟩]
  by_cases hexact : a.size - n ≤ SMALLEST_BLK
  · rw [if_pos hexact]
    exact ⟨a.size, hle, hout _, htiles.delete, hg.headers, hg.whole, hg.rising, hg.bounds, hg.ends,
      hg.brk⟩
  · rw [if_neg hexact]
    rw [SMALLEST_BLK] at hexact
    have hu1 : nextblk a.addr n = a.addr + n := uint32_of_ufits ⟨by lia, by lia⟩
    have hu2 : uint32 (h.size a.addr - n) = a.size - n := by
      rw [heap.size, hword]
      exact uint32_of_ufits ⟨by lia, by lia⟩
    rw [hu1, hu2]
    refine ⟨n, le_refl _, hout _, ?_, hg.headers, hg.whole, hg.rising, hg.bounds, hg.ends,
      hg.brk⟩
    refine htiles.split ((a.addr, n) :: (a.addr + n, a.size - n) :: h.memory) hn
      (by lia) hn4 (by rw [load_cons, if_pos rfl]) ?_ ?_
    · rw [load_cons, if_neg (by lia), load_cons, if_pos rfl]
    · intro c hc
      rw [load_cons, if_neg, load_cons, if_neg]
      · rintro rfl
        exact hc ⟨by rw [lo]; lia, by rw [hi]; lia⟩
      · rintro rfl
        exact hc ⟨le_refl _, by rw [hi]; lia⟩

/-- **`malloc`** fails when no core is to be had, or allocates from a node that is big enough. -/
theorem malloc_cases (hg : Good h busy) (hpage : 0 < nbpg ∧ 4 ∣ nbpg) (hn : 0 < blockSize n)
    (hfit : weight h._root ≤ blockSize n → blockSize n + (nbpg - 1) < 4294967296)
    (h1 : malloc nbpg n h = some (h', p)) :
    p = 0 ∧ weight h._root ≤ blockSize n ∧ morecore nbpg (blockSize n) h = some (h', false) ∨
      ∃ h2 a mx, (h2 = h ∨ weight h._root ≤ blockSize n ∧
          morecore nbpg (blockSize n) h = some (h2, true)) ∧
        Good h2 busy ∧ plug a.path a.node = h2._root ∧ blockSize n ≤ a.size ∧
        p = a.addr + WORDSIZE ∧ h' = (allocateFrom a (blockSize n) h2).stats fun i => { i with
          uordbytes := int32 (i.uordbytes + (allocateFrom a (blockSize n) h2).size a.addr)
          allocated := int32 (i.allocated + 1)
          smblks := mx } := by
  unfold malloc at h1
  have hroom : ∀ h2 more, (if weight h._root ≤ blockSize n then morecore nbpg (blockSize n) h
      else some (h, true)) = some (h2, more) →
      Good h2 busy ∧ (more = true → blockSize n ≤ weight h2._root) ∧
        (h2 = h ∧ more = true ∨ weight h._root ≤ blockSize n ∧
          morecore nbpg (blockSize n) h = some (h2, more)) := by
    intro h2 more hroom
    by_cases hw : weight h._root ≤ blockSize n
    · rw [if_pos hw] at hroom
      obtain ⟨hg2, hbig⟩ := morecore_good hg hpage hn (hfit hw) hroom
      refine ⟨hg2, fun hmore => ?_, Or.inr ⟨hw, hroom⟩⟩
      obtain ⟨c, hc, hle⟩ := hbig hmore
      cases ht : h2._root with
      | nil =>
        rw [ht] at hc
        cases hc
      | node l b s r =>
        have hheap := hg2.tiles.free.heap
        rw [ht] at hheap hc
        exact le_trans hle (hheap.forall_le (le_refl s) c hc)
    · rw [if_neg hw, Option.some.injEq, Prod.mk.injEq] at hroom
      obtain ⟨rfl, rfl⟩ := hroom
      exact ⟨hg, fun _ => by omega, Or.inl ⟨rfl, rfl⟩⟩
  rcases hmore : (if weight h._root ≤ blockSize n then morecore nbpg (blockSize n) h
      else some (h, true)) with _ | ⟨h2, _ | _⟩
  · simp only [hmore] at h1
    cases h1
  · obtain ⟨-, -, ⟨-, habs⟩ | hcall⟩ := hroom _ _ hmore
    · cases habs
    · simp only [hmore, Option.some.injEq, Prod.mk.injEq] at h1
      obtain ⟨rfl, rfl⟩ := h1
      exact Or.inl ⟨rfl, hcall⟩
  · obtain ⟨hg2, hbig, hcall⟩ := hroom _ _ hmore
    have hbig := hbig rfl
    simp only [hmore] at h1
    have hne : h2._root ≠ nil := by
      intro heq
      rw [heq, weight] at hbig
      omega
    obtain ⟨a, ha, hplug, -, -, hnode⟩ := bestFit_spec weight hn hne []
    simp only [ha, Option.some.injEq, Prod.mk.injEq] at h1
    obtain ⟨rfl, rfl⟩ := h1
    have hle : blockSize n ≤ a.size := by
      rcases hnode with hnode | hnode
      · rw [← hnode] at hbig
        exact hbig
      · exact hnode
    exact Or.inr ⟨h2, a, _, hcall.imp_left And.left, hg2, hplug, hle, rfl, rfl⟩

/-- **`malloc`** fails or returns a new busy block that is big enough. -/
theorem malloc_good (hg : Good h busy) (hpage : 0 < nbpg ∧ 4 ∣ nbpg) (hn : 0 < blockSize n)
    (hfit : weight h._root ≤ blockSize n → blockSize n + (nbpg - 1) < 4294967296)
    (h1 : malloc nbpg n h = some (h', p)) :
    p = 0 ∧ Good h' busy ∨
      ∃ b, p = b.1 + WORDSIZE ∧ blockSize n ≤ b.2 ∧ b ∉ busy ∧ Good h' (insert b busy) := by
  obtain ⟨-, hn4, -⟩ := blockSize_spec n
  rcases malloc_cases hg hpage hn hfit h1 with
    ⟨rfl, hw, hcall⟩ | ⟨h2, a, mx, -, hg2, hplug, hle, rfl, rfl⟩
  · exact Or.inl ⟨rfl, (morecore_good hg hpage hn (hfit hw) hcall).1⟩
  · obtain ⟨k, hk, hout, hgood⟩ := allocateFrom_good hg2 hplug hn hn4 hle
    exact Or.inr ⟨(a.addr, k), rfl, hk, hout, hgood⟩

/-! ## shrink -/

variable {memory : List (ℤ × ℤ)}

/-- Two words stored one after the other. -/
theorem load_two {o a v w : ℤ} (hne : o ≠ a) :
    load o ((a, w) :: (o, v) :: memory) = v ∧ load a ((a, w) :: (o, v) :: memory) = w ∧
      ∀ c, c ≠ o → c ≠ a → load c ((a, w) :: (o, v) :: memory) = load c memory := by
  refine ⟨?_, ?_, fun c h1 h2 => ?_⟩
  · rw [load_cons, if_neg hne, load_cons, if_pos rfl]
  · rw [load_cons, if_pos rfl]
  · rw [load_cons, if_neg h2, load_cons, if_neg h1]

/-- **A busy block that is split**: its halves are busy, whatever stored their sizes. -/
theorem split_good {o s k : ℤ} (hg : Good h (insert (o, s) busy))
    (hout : (o, s) ∉ busy) (hk : 0 < k) (hks : k < s) (hk4 : 4 ∣ k) (hlow : load o memory = k)
    (hhigh : load (o + k) memory = s - k)
    (hagree : ∀ c, c ≠ o → c ≠ o + k → load c memory = load c h.memory) :
    Good { h with memory := memory } (insert (o, k) (insert (o + k, s - k) busy)) ∧
      (o, k) ∉ insert (o + k, s - k) busy ∧ (o + k, s - k) ∉ insert (o, k) busy := by
  have hstart : o ∈ span (o, s) := ⟨le_refl _, by simp only [hi]; lia⟩
  have hmid : o + k ∈ span (o, s) := ⟨by simp only [lo]; lia, by simp only [hi]; lia⟩
  have htiles := hg.tiles.cut memory hout hk hks hk4 hlow hhigh (by
    intro c hc
    apply hagree
    · rintro rfl
      exact hc hstart
    · rintro rfl
      exact hc hmid)
  refine ⟨⟨htiles, hg.headers, hg.whole, hg.rising, hg.bounds, hg.ends, hg.brk⟩, ?_, ?_⟩
  · rintro (heq | hmem)
    · rw [Prod.mk.injEq] at heq
      lia
    · exact hg.tiles.not_mem_of_start hout hstart hmem
  · rintro (heq | hmem)
    · rw [Prod.mk.injEq] at heq
      lia
    · exact hg.tiles.not_mem_of_start hout hmid hmem

/-- The rest of a block that is cut is a busy block, until it is freed. -/
theorem shrink_block {o s n : ℤ} (hg : Good h (insert (o, s) busy)) (hout : (o, s) ∉ busy)
    (hn : 0 < n) (hn4 : 4 ∣ n) (hlt : n < s) :
    Good (((h.store (o + n) (s - n)).store o n).stats fun i =>
      { i with ordblks := int32 (i.ordblks + 1), allocated := int32 (i.allocated + 1) })
      (insert (o + n, s - n) (insert (o, n) busy)) ∧ (o + n, s - n) ∉ insert (o, n) busy := by
  have hne : o + n ≠ o := by lia
  obtain ⟨hgood, -, hhigh⟩ := split_good hg hout hn hlt hn4 (load_two hne).2.1 (load_two hne).1
    fun c h1 h2 => (load_two hne).2.2 c h2 h1
  rw [insert_comm] at hgood
  exact ⟨hgood, hhigh⟩

/-- `shrink` returns the old block, cut if there is enough left over. -/
theorem shrink_good {o s n p : ℤ} (hg : Good h (insert (o, s) busy)) (hout : (o, s) ∉ busy)
    (hn : 0 < n) (hn4 : 4 ∣ n) (hle : n ≤ s) (h1 : shrink o s n h = some (h', p)) :
    p = o + WORDSIZE ∧ ∃ k, Good h' (insert (o, k) busy) := by
  obtain ⟨hwhole, hword⟩ := hg.tiles.busyWhole (o, s) (mem_insert _ _)
  obtain ⟨hs1, hs2, hs3⟩ := hwhole.sound
  unfold shrink at h1
  rw [show uint32 (s - n) = s - n from uint32_of_ufits ⟨by lia, by lia⟩] at h1
  by_cases hbig : s - n ≥ SMALLEST_BLK
  · rw [if_pos hbig] at h1
    rw [SMALLEST_BLK] at hbig
    have hu : nextblk o n = o + n := uint32_of_ufits ⟨by lia, by lia⟩
    simp only [hu] at h1
    obtain ⟨h2, hfree, heq⟩ := Option.map_eq_some_iff.mp h1
    obtain ⟨rfl, rfl⟩ := heq
    obtain ⟨hgood, hne⟩ := shrink_block hg hout hn hn4 (by lia)
    exact ⟨rfl, n, (free_insert_good hgood hne hfree).1⟩
  · rw [if_neg hbig, Option.some.injEq, Prod.mk.injEq] at h1
    obtain ⟨rfl, rfl⟩ := h1
    exact ⟨rfl, s, hg⟩

end Malloc
