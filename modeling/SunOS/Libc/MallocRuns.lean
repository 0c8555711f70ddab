/-
# Runs of the allocator

A program calls `malloc`, `free` and `realloc` and stores words into its blocks.
As long as the sizes asked for do not overflow, and a block given to `realloc` after
it was freed still lies in a free block with room for it, the heap stays tiled by
busy blocks, free blocks and arrays of headers.
-/
import SunOS.Libc.MallocRealloc
import SunOS.Lib.Run

namespace Malloc

open Set
open FastFits Segments
open CartesianTree hiding insert

/-! ## Steps -/

/-- The heap, the blocks the program has, and the pointers it has given to `free`
since its last call of `malloc`. -/
structure State where
  heap : heap
  live : Set Block
  freed : Set ℤ

/-- The calls of the program, and its own stores. -/
inductive Event where
  | malloc (nbytes : ℤ)
  | free (ptr : ℤ)
  | realloc (ptr nbytes : ℤ)
  | store (addr word : ℤ)
  deriving DecidableEq, Repr

/-- The block with the data at `ptr`, as its first word has it. -/
def blockOf (h : heap) (ptr : ℤ) : Block := (ptr - WORDSIZE, h.size (ptr - WORDSIZE))

/-- The blocks of a program to which a call has returned `r`. -/
def returned (h : heap) (r : ℤ) (live : Set Block) : Set Block :=
  if r = 0 then live else insert (blockOf h r) live

/-- A step that does not end in a reference through a null pointer.  A `realloc` that
fails leaves the program its old block, unless that is still free. -/
def Step (nbpg : ℤ) (s : State) : Event → State → Prop
  | .malloc n, s' =>
    ∃ r, malloc nbpg n s.heap = some (s'.heap, r) ∧ s'.live = returned s'.heap r s.live ∧
      s'.freed = ∅
  | .free p, s' =>
    ∃ r, free p s.heap = some (s'.heap, r) ∧ s'.live = s.live \ {blockOf s.heap p} ∧
      s'.freed = insert p s.freed
  | .realloc p n, s' =>
    ∃ r, realloc nbpg p n s.heap = some (s'.heap, r) ∧ s'.freed = s.freed ∧
      s'.live =
        if r = 0 then s.live ∪ {b | b = blockOf s.heap p ∧ b.1 ∉ room s'.heap._root}
        else insert (blockOf s'.heap r) (s.live \ {blockOf s.heap p})
  | .store a v, s' => s' = { s with heap := s.heap.store a v }

/-- `p` points to the data of a block of the program. -/
def Holds (s : State) (p : ℤ) : Prop := ∃ b ∈ s.live, p = b.1 + WORDSIZE

/-- What programs promise: unsigned sizes, pointers to their own blocks (and, to
`realloc`, pointers freed since the last `malloc`), and stores into the data of their
blocks or outside the heap. -/
def Legal (s : State) : Event → Prop
  | .malloc n => 0 ≤ n ∧ n < 4294967296
  | .free p => Holds s p
  | .realloc p n => (0 ≤ n ∧ n < 4294967296) ∧ (Holds s p ∨ p ∈ s.freed)
  | .store a _ => (∃ b ∈ s.live, b.1 < a ∧ a < hi b) ∨ ∀ b ∈ s.heap.regions, a ∉ span b

/-- A free block of `h` holds the start of the block at `o`, and has room for it. -/
def Nested (h : heap) (o : ℤ) : Prop :=
  Whole (o, h.size o) ∧ ∃ c ∈ h._root.toList, h.size o ≤ c.2 ∧ o ∈ span c

/-- And neither the size asked for nor that of new core overflows, and a block given
to `realloc` that is not the program's is still nested in a free one. -/
def Ok (nbpg : ℤ) (s : State) (e : Event) : Prop :=
  Legal s e ∧ match e with
    | .malloc n => 0 < blockSize n ∧
        (weight s.heap._root ≤ blockSize n → blockSize n + (nbpg - 1) < 4294967296)
    | .free _ => True
    | .realloc p n => 0 < blockSize n ∧
        (s.heap.size (p - WORDSIZE) < blockSize n → blockSize n + (nbpg - 1) < 4294967296) ∧
        (Holds s p ∨ Nested s.heap (p - WORDSIZE))
    | .store _ _ => True

/-! ## The invariant -/

variable {b : Block} {busy : Set Block} {s s' : State}

theorem good_init {brk : ℤ} (hbrk : 0 < brk) (supply : List (Option ℕ)) :
    Good (init brk supply) ∅ := by
  refine ⟨⟨valid_nil, by simp [init], by simp, by simp, by simp, ?_⟩, List.Sublist.refl _,
    by simp [init], List.Pairwise.nil, by simp [init], Or.inl ⟨rfl, rfl, rfl⟩, hbrk, ?_⟩
  · show room nil ∪ bytes ∅ = cover lo hi [] \ cover lo hi []
    simp [room_eq]
  · exact le_of_lt hbrk

variable {nbpg : ℤ}

/-- The block of a pointer to busy data. -/
theorem blockOf_busy {h : heap} (hg : Good h busy) (hb : b ∈ busy) :
    blockOf h (b.1 + WORDSIZE) = b := by
  have hword := (hg.tiles.busyWhole b hb).2
  rw [blockOf, show b.1 + WORDSIZE - WORDSIZE = b.1 by omega, heap.size, hword]

/-- A pointer to a busy block's data is not null. -/
theorem ptr_ne_zero {h : heap} (hg : Good h busy) (hb : b ∈ busy) : b.1 + WORDSIZE ≠ 0 := by
  have := (hg.tiles.busyWhole b hb).1.addr.1
  rw [WORDSIZE]
  omega

/-- What `malloc` returns becomes a block of the program. -/
theorem malloc_step {n : ℤ} (hpage : 0 < nbpg ∧ 4 ∣ nbpg) (hg : Good s.heap s.live)
    (hok : Ok nbpg s (.malloc n)) (hstep : Step nbpg s (.malloc n) s') : Good s'.heap s'.live := by
  obtain ⟨-, hn, hfit⟩ := hok
  obtain ⟨r, hcall, hlive, -⟩ := hstep
  rcases malloc_good hg hpage hn hfit hcall with ⟨rfl, hg'⟩ | ⟨b, rfl, -, -, hg'⟩
  · rw [hlive, returned, if_pos rfl]
    exact hg'
  · rw [hlive, returned, if_neg (ptr_ne_zero hg' (mem_insert _ _)),
      blockOf_busy hg' (mem_insert _ _)]
    exact hg'

/-- What is freed is the program's no more. -/
theorem free_step {p : ℤ} (hg : Good s.heap s.live) (hp : Holds s p)
    (hstep : Step nbpg s (.free p) s') : Good s'.heap s'.live := by
  obtain ⟨b, hb, rfl⟩ := hp
  obtain ⟨r, hcall, hlive, -⟩ := hstep
  rw [hlive, blockOf_busy hg hb]
  exact (free_good hg hb hcall).2.1

/-- `realloc` of a block of the program puts another in its place, or keeps it. -/
theorem realloc_holds_step {p n : ℤ} (hpage : 0 < nbpg ∧ 4 ∣ nbpg)
    (hg : Good s.heap s.live) (hn : 0 < blockSize n)
    (hfit : s.heap.size (p - WORDSIZE) < blockSize n → blockSize n + (nbpg - 1) < 4294967296)
    (hp : Holds s p) (hstep : Step nbpg s (.realloc p n) s') : Good s'.heap s'.live := by
  obtain ⟨b, hb, rfl⟩ := hp
  obtain ⟨r, hcall, -, hlive⟩ := hstep
  have hblock := blockOf_busy hg hb
  have hsize : s.heap.size (b.1 + WORDSIZE - WORDSIZE) = b.2 := congrArg Prod.snd hblock
  rw [hsize] at hfit
  rw [hblock] at hlive
  have hbusy : insert (b.1, b.2) (s.live \ {b}) = s.live := insert_sdiff_self_of_mem hb
  have hg1 : Good s.heap (insert (b.1, b.2) (s.live \ {b})) := by
    rw [hbusy]
    exact hg
  rcases realloc_busy_good hg1 (by simp) hpage hn (fun hc => hfit hc.small) hcall with ⟨rfl, hg'⟩ |
    ⟨c, rfl, hg'⟩
  · rw [hbusy] at hg'
    have hsame : s.live ∪ {d | d = b ∧ d.1 ∉ room s'.heap._root} = s.live := by
      refine union_eq_self_of_subset_right ?_
      rintro d ⟨rfl, -⟩
      exact hb
    rw [hlive, if_pos rfl, hsame]
    exact hg'
  · rw [hlive, if_neg (ptr_ne_zero hg' (mem_insert _ _)),
      blockOf_busy hg' (mem_insert _ _)]
    exact hg'

/-- `realloc` of a block nested in a free one gives the program a block, or none. -/
theorem realloc_nested_step {p n : ℤ} (hpage : 0 < nbpg ∧ 4 ∣ nbpg)
    (hg : Good s.heap s.live) (hn : 0 < blockSize n)
    (hfit : s.heap.size (p - WORDSIZE) < blockSize n → blockSize n + (nbpg - 1) < 4294967296)
    (hp : Nested s.heap (p - WORDSIZE)) (hstep : Step nbpg s (.realloc p n) s') :
    Good s'.heap s'.live := by
  obtain ⟨hwhole, c, hc, hle, hin⟩ := hp
  obtain ⟨r, hcall, -, hlive⟩ := hstep
  have hout : blockOf s.heap p ∉ s.live := GoodAt.not_mem_busy hg hc hin
  rw [show p = p - WORDSIZE + WORDSIZE by omega] at hcall
  rcases realloc_free_good hg hwhole hc hin hle hpage hn hfit hcall with
    ⟨rfl, ⟨hfree, hg'⟩ | ⟨hfree, hg'⟩⟩ | ⟨b, rfl, hg'⟩
  · have hsame : s.live ∪ {d | d = blockOf s.heap p ∧ d.1 ∉ room s'.heap._root} = s.live := by
      refine union_eq_self_of_subset_right ?_
      rintro d ⟨rfl, hd⟩
      exact absurd hfree hd
    rw [hlive, if_pos rfl, hsame]
    exact hg'
  · have hmore : s.live ∪ {d | d = blockOf s.heap p ∧ d.1 ∉ room s'.heap._root} =
        insert (blockOf s.heap p) s.live := by
      ext d
      constructor
      · rintro (hd | ⟨rfl, -⟩)
        · exact Or.inr hd
        · exact Or.inl rfl
      · rintro (rfl | hd)
        · exact Or.inr ⟨rfl, hfree⟩
        · exact Or.inl hd
    rw [hlive, if_pos rfl, hmore]
    exact hg'
  · rw [hlive, if_neg (ptr_ne_zero hg' (mem_insert _ _)),
      blockOf_busy hg' (mem_insert _ _), sdiff_singleton_eq_self hout]
    exact hg'

/-- Stores into the data of blocks and outside the heap leave it as it is. -/
theorem store_step {s : State} {a v : ℤ} (hg : Good s.heap s.live)
    (ha : Legal s (.store a v)) : Good (s.heap.store a v) s.live := by
  refine ⟨hg.tiles.store v ?_, hg.headers, hg.whole, hg.rising, hg.bounds, hg.ends, hg.brk⟩
  rcases ha with ha | ha
  · exact Or.inl ha
  · right
    rintro ⟨⟨b, hb, hu⟩, -⟩
    exact ha b hb hu

/-- **Every step keeps the heap good.** -/
theorem step_good (hpage : 0 < nbpg ∧ 4 ∣ nbpg) (s : State) (e : Event) (s' : State)
    (hg : Good s.heap s.live) (h : Guarded (Ok nbpg) (Step nbpg) s e s') :
    Good s'.heap s'.live := by
  obtain ⟨hok, hstep⟩ := h
  cases e with
  | malloc n => exact malloc_step hpage hg hok hstep
  | free p => exact free_step hg hok.1 hstep
  | realloc p n =>
    obtain ⟨-, hn, hfit, hp | hp⟩ := hok
    · exact realloc_holds_step hpage hg hn hfit hp hstep
    · exact realloc_nested_step hpage hg hn hfit hp hstep
  | store a v =>
    rw [show s' = { s with heap := s.heap.store a v } from hstep]
    exact store_step hg hok.1

/-! ## What holds in every state reached -/

/-- Each region starts where the one before it ends. -/
def Contiguous (regions : List Block) : Prop := regions.IsChain fun b a => hi a = lo b

/-- The heap is tiled by the program's blocks, the free blocks of the tree and the
arrays of headers: together they are the regions `sbrk` has returned, and all there
is between the bounds of the heap where `sbrk` leaves no gaps; no two of them overlap;
each block starts with its size; no two free blocks touch, and they form a Cartesian
tree. -/
structure Tiled (s : State) : Prop where
  exact : room s.heap._root ∪ bytes s.live ∪ cover lo hi s.heap.headers =
    cover lo hi s.heap.regions
  whole : Contiguous s.heap.regions →
    cover lo hi s.heap.regions = Set.Ico s.heap._lbound s.heap._ubound
  live : s.live.PairwiseDisjoint span
  live_free : Disjoint (bytes s.live) (room s.heap._root)
  live_headers : Disjoint (bytes s.live) (cover lo hi s.heap.headers)
  free_headers : Disjoint (room s.heap._root) (cover lo hi s.heap.headers)
  live_words : ∀ b ∈ s.live, Whole b ∧ s.heap.size b.1 = b.2
  free_words : ∀ b ∈ s.heap._root.toList, Whole b ∧ s.heap.size b.1 = b.2
  coalesced : Apart lo hi s.heap._root.toList
  heap : s.heap._root.Heap

/-- Regions without gaps make up one range. -/
theorem cover_contiguous {l : List Block} (h : Contiguous (b :: l))
    (hpos : ∀ c ∈ b :: l, lo c ≤ hi c) {u : ℤ} (hu : (b :: l).getLast?.map lo = some u) :
    u ≤ hi b ∧ cover lo hi (b :: l) = Set.Ico u (hi b) := by
  induction l generalizing b with
  | nil =>
    have hu : lo b = u := by simpa using hu
    rw [cover_cons, cover_nil, union_empty, hu]
    exact ⟨hu ▸ hpos b (by simp), rfl⟩
  | cons c l ih =>
    rw [Contiguous, List.isChain_cons_cons] at h
    obtain ⟨hle, hcover⟩ := ih h.2 (fun d hd => hpos d (List.mem_cons_of_mem _ hd)) hu
    have hb := hpos b (by simp)
    rw [cover_cons, hcover, h.1, union_comm]
    rw [h.1] at hle
    exact ⟨hle.trans hb, Set.Ico_union_Ico_eq_Ico hle hb⟩

theorem Tiled.of_good {s : State} (hg : Good s.heap s.live) : Tiled s := by
  have hsub : cover lo hi s.heap.headers ⊆ cover lo hi s.heap.regions :=
    fun u ⟨b, hb, hu⟩ => ⟨b, hg.headers.subset hb, hu⟩
  have hexact := hg.tiles.exact
  have hout : Disjoint (room s.heap._root ∪ bytes s.live) (cover lo hi s.heap.headers) := by
    rw [hexact]
    exact disjoint_sdiff_left
  refine ⟨?_, ?_, hg.tiles.busyApart, hg.tiles.apart.symm, (Set.disjoint_union_left.mp hout).2,
    (Set.disjoint_union_left.mp hout).1, hg.tiles.busyWhole, hg.tiles.freeWhole,
    hg.tiles.free.apart, hg.tiles.free.heap⟩
  · rw [hexact]
    exact sdiff_union_of_subset hsub
  · intro hcont
    rcases hg.ends with ⟨hnil, hl, hu⟩ | ⟨-, hlast, hhead⟩
    · rw [hnil, hl, hu, cover_nil, Set.Ico_self]
    · cases hr : s.heap.regions with
      | nil =>
        rw [hr] at hlast
        cases hlast
      | cons b l =>
        rw [hr] at hcont hlast hhead
        have hu : hi b = s.heap._ubound := by simpa using hhead
        rw [← hu]
        refine (cover_contiguous hcont (fun c hc => ?_) hlast).2
        have := (hg.whole c (by rw [hr]; exact hc)).sound.2.1
        rw [lo, hi]
        omega

/-- **The heap stays tiled**, in every run whose calls are as they should be. -/
theorem tiled_of_run {brk : ℤ} {supply : List (Option ℕ)} {es : List Event} {s : State}
    (hpage : 0 < nbpg ∧ 4 ∣ nbpg) (hbrk : 0 < brk)
    (h : Run (Guarded (Ok nbpg) (Step nbpg)) ⟨init brk supply, ∅, ∅⟩ es s) : Tiled s :=
  Tiled.of_good (Run.invariant (I := fun s => Good s.heap s.live) (step_good hpage) h
    (good_init hbrk supply))

/-! ## Two runs -/

/-- A heap of one page. -/
def page (root : CartesianTree ℤ ℤ) (hdrs : ℕ × ℕ) (ordblks uordbytes allocated : ℤ)
    (memory : List (ℤ × ℤ)) : heap where
  _root := root
  _lbound := 8192
  _ubound := 16384
  freehdrlist := hdrs.1
  nfreehdrs := hdrs.2
  __mallinfo := ⟨8192, ordblks, 0, 0, uordbytes, allocated, 0⟩
  errno := 0
  memory := memory
  curbrk := 16384
  supply := []
  regions := [(8192, 8192)]
  headers := []

/-- Its words after two blocks have made up the page. -/
def twoBlocks : List (ℤ × ℤ) := [(8192, 16), (8208, 8176), (8192, 8192), (8192, 8192)]

/-- The second of the blocks has been freed. -/
def secondFree : State where
  heap := page (node nil 8208 8176 nil) (0, 511) 2 16 1 ((8208, 8176) :: twoBlocks)
  live := insert (8208, 8176) (insert (8192, 16) ∅) \ {(8208, 8176)}
  freed := {8212}

/-- The program allocates two blocks and frees the second. -/
theorem run_secondFree {ok : State → Event → Prop}
    (h1 : ok ⟨init 8192 [some 0], ∅, ∅⟩ (.malloc 12))
    (h2 : ok ⟨page (node nil 8208 8176 nil) (0, 511) 2 16 1 twoBlocks,
      insert (8192, 16) ∅, ∅⟩ (.malloc 8164))
    (h3 : ok ⟨page nil (1, 511) 2 8192 2 twoBlocks,
      insert (8208, 8176) (insert (8192, 16) ∅), ∅⟩ (.free 8212)) :
    Run (Guarded ok (Step 8192)) ⟨init 8192 [some 0], ∅, ∅⟩
      [.malloc 12, .malloc 8164, .free 8212] secondFree := by
  refine .cons ⟨h1, 8196, by decide, rfl, rfl⟩ (.cons ⟨h2, 8212, by decide, rfl, rfl⟩
    (.cons ⟨h3, 1, by decide, rfl, ?_⟩ (.nil _)))
  exact (insert_empty_eq _).symm

/-- The second block is taken back. -/
theorem tiled_after_realloc :
    ∃ s, Tiled s ∧ s.live = insert (8208, 8176) (secondFree.live \ {(8208, 8176)}) := by
  have hnested : Nested secondFree.heap 8208 :=
    ⟨⟨⟨by decide, by decide, by decide⟩, by decide, by decide⟩, (8208, 8176), by decide,
      by decide, by decide, by decide⟩
  have hrun : Run (Guarded (Ok 8192) (Step 8192)) ⟨init 8192 [some 0], ∅, ∅⟩
      [.malloc 12, .malloc 8164, .free 8212] secondFree :=
    run_secondFree ⟨⟨by decide, by decide⟩, by decide, by decide⟩
      ⟨⟨by decide, by decide⟩, by decide, by decide⟩ ⟨⟨_, Or.inl rfl, by decide⟩, trivial⟩
  have hstep : Guarded (Ok 8192) (Step 8192) secondFree (.realloc 8212 8172)
      ⟨page nil (1, 511) 2 8192 2 ((8208, 8176) :: twoBlocks),
        insert (8208, 8176) (secondFree.live \ {(8208, 8176)}), {8212}⟩ :=
    ⟨⟨⟨⟨by decide, by decide⟩, Or.inr rfl⟩, by decide, by decide, Or.inr hnested⟩,
      8212, by decide, rfl, rfl⟩
  exact ⟨_, tiled_of_run (by decide) (by decide) (hrun.append (.cons hstep (.nil _))), rfl⟩

/-- The first block grows over the second, which `realloc` then takes for a busy one:
the program has two blocks that overlap. -/
theorem not_tiled_after_realloc :
    ∃ s, Run (Guarded Legal (Step 8192)) ⟨init 8192 [some 0], ∅, ∅⟩
        [.malloc 12, .malloc 8164, .free 8212, .realloc 8196 8188, .realloc 8212 8172] s ∧
      ¬ Tiled s := by
  have hrun : Run (Guarded Legal (Step 8192)) ⟨init 8192 [some 0], ∅, ∅⟩
      [.malloc 12, .malloc 8164, .free 8212] secondFree :=
    run_secondFree ⟨by decide, by decide⟩ ⟨by decide, by decide⟩ ⟨_, Or.inl rfl, by decide⟩
  have hgrown : Guarded Legal (Step 8192) secondFree (.realloc 8196 8188)
      ⟨page nil (1, 511) 1 8192 1 ((8192, 8192) :: (8208, 8176) :: twoBlocks),
        insert (8192, 8192) (secondFree.live \ {(8192, 16)}), {8212}⟩ :=
    ⟨⟨⟨by decide, by decide⟩, Or.inl ⟨_, ⟨Or.inr (Or.inl rfl), by decide⟩, by decide⟩⟩,
      8196, by decide, rfl, rfl⟩
  have hagain : Guarded Legal (Step 8192)
      ⟨page nil (1, 511) 1 8192 1 ((8192, 8192) :: (8208, 8176) :: twoBlocks),
        insert (8192, 8192) (secondFree.live \ {(8192, 16)}), {8212}⟩ (.realloc 8212 8172)
      ⟨page nil (1, 511) 1 8192 1 ((8192, 8192) :: (8208, 8176) :: twoBlocks),
        insert (8208, 8176) (insert (8192, 8192) (secondFree.live \ {(8192, 16)}) \
          {(8208, 8176)}), {8212}⟩ :=
    ⟨⟨⟨by decide, by decide⟩, Or.inr rfl⟩, 8212, by decide, rfl, rfl⟩
  refine ⟨_, hrun.append (.cons hgrown (.cons hagain (.nil _))), fun h => ?_⟩
  have hdis := h.live (x := (8208, 8176)) (Or.inl rfl) (y := (8192, 8192))
    (Or.inr ⟨Or.inl rfl, by decide⟩) (by decide)
  exact Set.disjoint_left.mp hdis (show (8208 : ℤ) ∈ span (8208, 8176) from ⟨by decide, by decide⟩)
    ⟨by decide, by decide⟩

end Malloc
