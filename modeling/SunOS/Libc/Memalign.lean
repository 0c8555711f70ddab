/-
# `memalign`

`memalign` (`libc/gen/memalign.c`) asks `malloc` for more than it needs and splits the block it
gets into as many as three: the bytes before the first boundary with room for a block in front of
it, the aligned block, and what is left over at the end.  It stores the length words itself and
gives the first and the last of the three to `free`, which counts each of them out.
-/
import SunOS.Libc.MallocStats
import SunOS.Libc.MallocSizes

namespace Malloc

open Option (map_eq_some_iff)
open Finset
open Set
open FastFits Segments
open CartesianTree hiding insert

/-- "Check out the space to the left of the alignment boundary, and split off a fragment if
necessary": the aligned block and its size. -/
def splitLeft (blk blksize align : ℤ) (h : heap) : Option (heap × ℤ × ℤ) :=
  let aligned_blk := roundup (blk + WORDSIZE) align - WORDSIZE
  let frag_size := uint32 (aligned_blk - blk)
  if frag_size ≠ 0 then
    -- "make the split at the other end of the alignment unit"
    let small := frag_size < SMALLEST_BLK
    let frag_size := if small then uint32 (frag_size + align) else frag_size
    let aligned_blk := if small then nextblk aligned_blk align else aligned_blk
    let blksize := uint32 (blksize - frag_size)
    let h := (h.store blk frag_size).store aligned_blk blksize
    (free_ (blk + WORDSIZE) h).map (·, aligned_blk, blksize)
  else some (h, aligned_blk, blksize)

/-- "Is there a (sufficiently large) fragment to the right of the aligned block?" -/
def splitRight (aligned_blk blksize nbytes : ℤ) (h : heap) : Option heap :=
  let frag_size := uint32 (blksize - nbytes)
  if frag_size > SMALLEST_BLK then
    let blk := nextblk aligned_blk nbytes
    let h := h.store blk frag_size
    let h := h.store aligned_blk (uint32 (h.size aligned_blk - frag_size))
    free_ (blk + WORDSIZE) h
  else some h

/-- What `memalign` asks `malloc` for. -/
def reqsize (align nbytes : ℤ) : ℤ := uint32 (roundup nbytes WORDSIZE + align + SMALLEST_BLK)

/-- `memalign(align, nbytes)`. -/
def memalign (nbpg align nbytes : ℤ) (h : heap) : Option (heap × ℤ) :=
  if nbytes = 0 ∨ misaligned align then some ({ h with errno := EINVAL }, 0)
  else
    match malloc nbpg (reqsize align nbytes) h with
    | none => none
    | some (h, p) =>
      if p = 0 then some (h, 0)
      else
        let blk := p - WORDSIZE
        (splitLeft blk (h.size blk) align h).bind fun (h, aligned_blk, blksize) =>
          (splitRight aligned_blk blksize (uint32 (roundup nbytes WORDSIZE + WORDSIZE)) h).map
            (·, aligned_blk + WORDSIZE)

variable {h h' : heap} {busy : Set Block} {o s k a m n nbpg align p : ℤ}

/-! ## The fragments -/

/-- Words stored in a busy block leave the other blocks and the counts alone. -/
theorem split_effect {memory : List (ℤ × ℤ)} (hg : Good h (insert (o, s) busy))
    (hout : (o, s) ∉ busy) (hk : 0 < k) (hks : k < s)
    (hagree : ∀ c, c ≠ o → c ≠ o + k → load c memory = load c h.memory) :
    Effect h { h with memory := memory } (bytes busy) 0 0 := by
  have hclear : ∀ c ∈ bytes busy, c ∉ span (o, s) := by
    rintro c ⟨b, hb, hcb⟩ hcs
    refine Set.disjoint_left.mp (hg.tiles.busyApart (mem_insert _ _)
      (mem_insert_of_mem _ hb) ?_) hcs hcb
    rintro rfl
    exact hout hb
  refine ⟨fun c hc => ?_, fun t c he => ?_⟩
  · apply hagree
    · rintro rfl
      exact hclear c hc ⟨le_refl _, by simp only [hi]; lia⟩
    · rintro rfl
      exact hclear _ hc ⟨by simp only [lo]; lia, by simp only [hi]; lia⟩
  · rw [add_zero, add_zero]
    exact ⟨he.1, he.2, he.3, he.4, he.5⟩

/-- **Where the aligned block starts**: `f` bytes into the block, with none or at least a small
block before it. -/
theorem splitLeft_eq (ho : 0 ≤ o ∧ 4 ∣ o) (halign : 0 < align ∧ 4 ∣ align) (hs : align + 4 < s)
    (hend : o + s ≤ 4294967296) (h : heap) :
    ∃ f, 0 ≤ f ∧ f ≤ align + 4 ∧ 4 ∣ f ∧ align ∣ o + f + WORDSIZE ∧
      splitLeft o s align h = if f = 0 then some (h, o, s) else
        (free_ (o + WORDSIZE) ((h.store o f).store (o + f) (s - f))).map (·, o + f, s - f) := by
  have hfit : o + WORDSIZE + (align - 1) < 4294967296 := by
    rw [WORDSIZE]
    lia
  obtain ⟨hle, h4⟩ := roundup_spec (by rw [WORDSIZE]; lia) halign.1 halign.2 hfit
  have hlt : roundup (o + WORDSIZE) align ≤ o + WORDSIZE + (align - 1) := by
    rw [roundup, uint32_of_ufits ⟨by rw [WORDSIZE]; lia, hfit⟩]
    exact Int.ediv_mul_le _ halign.1.ne'
  have hdvd : align ∣ roundup (o + WORDSIZE) align := Dvd.intro_left _ rfl
  unfold splitLeft
  generalize roundup (o + WORDSIZE) align = x at hle h4 hlt hdvd
  rw [WORDSIZE] at hle hlt ⊢
  have hfrag : uint32 (x - 4 - o) = x - 4 - o := uint32_of_ufits ⟨by lia, by lia⟩
  simp only [hfrag, SMALLEST_BLK]
  by_cases h0 : x - 4 - o = 0
  · refine ⟨0, le_refl _, by lia, dvd_zero _, ?_, ?_⟩
    · rw [show o + 0 + 4 = x by lia]
      exact hdvd
    · rw [if_neg (not_not.mpr h0), if_pos rfl, show x - 4 = o by lia]
  · rw [if_pos h0]
    by_cases hsmall : x - 4 - o < 8
    · simp only [if_pos hsmall]
      refine ⟨x - 4 - o + align, by lia, by lia, by lia, ?_, ?_⟩
      · rw [show o + (x - 4 - o + align) + 4 = x + align by lia]
        exact Int.dvd_add hdvd (dvd_refl align)
      · rw [if_neg (by lia), show nextblk (x - 4) align = o + (x - 4 - o + align) by
            rw [nextblk, uint32_of_ufits ⟨by lia, by lia⟩]; lia,
          uint32_of_ufits (x := x - 4 - o + align) ⟨by lia, by lia⟩,
          uint32_of_ufits ⟨by lia, by lia⟩]
    · simp only [if_neg hsmall]
      refine ⟨x - 4 - o, by lia, by lia, by lia, ?_, ?_⟩
      · rw [show o + (x - 4 - o) + 4 = x by lia]
        exact hdvd
      · rw [if_neg h0, show o + (x - 4 - o) = x - 4 by lia, uint32_of_ufits ⟨by lia, by lia⟩]

/-- **The fragment to the left.**  Nothing is split off a block that is aligned. -/
theorem splitLeft_spec (hg : Good h (insert (o, s) busy)) (hout : (o, s) ∉ busy)
    (halign : 0 < align ∧ 4 ∣ align) (hs : align + 4 < s)
    (h1 : splitLeft o s align h = some (h', a, m)) :
    align ∣ a + WORDSIZE ∧ (a, m) ∉ busy ∧ Good h' (insert (a, m) busy) ∧
      ∃ i : ℤ, (i = 0 ∧ m = s ∨ i = 1 ∧ s - (align + 4) ≤ m) ∧
        Effect h h' (bytes busy) (m - s) (-i) := by
  have hwhole := (hg.tiles.busyWhole (o, s) (mem_insert _ _)).1
  have hend := hwhole.sound.2.2
  have haddr := hwhole.addr
  obtain ⟨f, hf, hfle, hf4, hdvd, heq⟩ := splitLeft_eq ⟨haddr.1.le, haddr.2⟩ halign hs hend.le h
  rw [heq] at h1
  by_cases h0 : f = 0
  · rw [if_pos h0, Option.some.injEq, Prod.mk.injEq, Prod.mk.injEq] at h1
    obtain ⟨rfl, rfl, rfl⟩ := h1
    rw [h0, add_zero] at hdvd
    refine ⟨hdvd, hout, hg, 0, Or.inl ⟨rfl, rfl⟩, ?_⟩
    exact Effect.refl.congr (sub_self _).symm neg_zero.symm
  · rw [if_neg h0] at h1
    obtain ⟨h2, hfree, heq⟩ := map_eq_some_iff.mp h1
    obtain ⟨rfl, rfl, rfl⟩ := heq
    have hne : o ≠ o + f := by lia
    obtain ⟨hgood, hlow, hhigh⟩ := split_good hg hout (by lia) (by lia) hf4
      (load_two hne).1 (load_two hne).2.1 (load_two hne).2.2
    have hstore := split_effect hg hout (by lia) (show f < s by lia)
      (load_two (v := f) (w := s - f) hne).2.2
    obtain ⟨hg2, -⟩ := free_insert_good hgood hlow hfree
    have hcut := free_effect hgood hlow hfree
    refine ⟨hdvd, fun hmem => hhigh (mem_insert_of_mem _ hmem), hg2, 1,
      Or.inr ⟨rfl, by lia⟩, ?_⟩
    apply (hstore.trans (hcut.mono (bytes_mono (subset_insert _ _)))).congr
    · simp only
      ring
    · ring

/-- **The fragment to the right**, split off if there are more than eight bytes. -/
theorem splitRight_spec (hg : Good h (insert (a, m) busy)) (hout : (a, m) ∉ busy)
    (hn : 0 < n ∧ 4 ∣ n) (hle : n ≤ m) (h1 : splitRight a m n h = some h') :
    n ≤ h'.size a ∧ (a, h'.size a) ∉ busy ∧ Good h' (insert (a, h'.size a) busy) ∧
      ∃ j : ℤ, (j = 0 ∧ m ≤ n + 8 ∨ j = 1) ∧
        Effect h h' (bytes busy) (h'.size a - m) (-j) := by
  obtain ⟨hwhole, hword⟩ := hg.tiles.busyWhole (a, m) (mem_insert _ _)
  obtain ⟨hs1, -, hs3⟩ := hwhole.sound
  have hsize : h.size a = m := hword
  unfold splitRight at h1
  rw [show uint32 (m - n) = m - n from uint32_of_ufits ⟨by lia, by lia⟩, SMALLEST_BLK] at h1
  by_cases hbig : m - n > 8
  · have hnext : nextblk a n = a + n := uint32_of_ufits ⟨by lia, by lia⟩
    have hne : a + n ≠ a := by lia
    have hrest : uint32 ((h.store (a + n) (m - n)).size a - (m - n)) = n := by
      rw [show (h.store (a + n) (m - n)).size a = m from
        (load_cons ..).trans ((if_neg hne.symm).trans hword), uint32_of_ufits ⟨by lia, by lia⟩]
      lia
    simp only [if_pos hbig, hnext, hrest] at h1
    have hagree : ∀ c, c ≠ a → c ≠ a + n →
        load c ((a, n) :: (a + n, m - n) :: h.memory) = load c h.memory :=
      fun c h1 h2 => (load_two hne).2.2 c h2 h1
    obtain ⟨hgood, -, hhigh⟩ := split_good hg hout hn.1 (by lia) hn.2
      (load_two hne).2.1 (load_two hne).1 hagree
    have hstore := split_effect hg hout hn.1 (by lia) hagree
    rw [insert_comm] at hgood
    obtain ⟨hg2, -⟩ := free_insert_good hgood hhigh h1
    have hcut := free_effect hgood hhigh h1
    have hkept : h'.size a = n := (hg2.tiles.busyWhole (a, n) (mem_insert _ _)).2
    rw [hkept]
    refine ⟨le_refl _, hg.tiles.not_mem_of_start hout hwhole.start_mem, hg2, 1, Or.inr rfl, ?_⟩
    apply (hstore.trans (hcut.mono (bytes_mono (subset_insert _ _)))).congr
    · simp only
      ring
    · ring
  · rw [if_neg hbig, Option.some.injEq] at h1
    subst h1
    rw [hsize]
    refine ⟨hle, hout, hg, 0, Or.inl ⟨rfl, by lia⟩, ?_⟩
    exact Effect.refl.congr (sub_self _).symm neg_zero.symm

/-! ## What is asked of memalign -/

/-- The sum of `nbytes` in whole words, `align` and what a block takes besides fits. -/
def AlignFits (align n : ℤ) : Prop := (n + 3) / 4 * 4 + align + 12 < 4294967296

/-- If there must be core for it, it fits in whole pages, too. -/
def PagesFit (nbpg align n : ℤ) (h : heap) : Prop :=
  weight h._root ≤ (n + 3) / 4 * 4 + align + 12 →
    (n + 3) / 4 * 4 + align + 12 + (nbpg - 1) < 4294967296

/-- `memalign(align, n)` needs core and `sbrk` has none. -/
def Refused (nbpg align n : ℤ) (h : heap) : Prop :=
  weight h._root ≤ (n + 3) / 4 * 4 + align + 12 ∧
    (sbrk (roundup ((n + 3) / 4 * 4 + align + 12) nbpg) h).2 = none

/-- `allocated` and `ordblks` are the numbers of the busy and of all blocks. -/
def Counted (s : State) : Prop :=
  ∃ B : Finset Block, ↑B = s.live ∧ s.heap.__mallinfo.allocated = int32 B.card ∧
    s.heap.__mallinfo.ordblks = int32 (B.card + s.heap._root.toList.length)

/-- An aligned pointer to a new block with `n` bytes, in a heap that is still tiled and whose other
blocks are as they were. -/
structure Aligned (align n : ℤ) (s : State) (h' : heap) (p : ℤ) : Prop where
  ne : p ≠ 0
  aligned : align ∣ p
  size : n ≤ usable h' p
  fresh : blockOf h' p ∉ s.live
  tiled : Tiled ⟨h', insert (blockOf h' p) s.live, ∅⟩
  words : Agree s.heap.memory h'.memory (bytes s.live)

/-- What is asked of `memalign(align, n)`. -/
def MemalignMeets (nbpg align n : ℤ) (s : State) : Prop :=
  ∃ h' p, memalign nbpg align n s.heap = some (h', p) ∧
    (p = 0 ∧ Unchanged s.heap h' ∨
      Aligned align n s h' p ∧ Counted ⟨h', insert (blockOf h' p) s.live, ∅⟩)

/-- The sizes, when the sums fit. -/
theorem reqsize_eq (hn : 0 < n) (halign : 0 < align ∧ 4 ∣ align) (hfit : AlignFits align n) :
    roundup n WORDSIZE = (n + 3) / 4 * 4 ∧
      blockSize (reqsize align n) = (n + 3) / 4 * 4 + align + 12 := by
  unfold AlignFits at hfit
  have hround : roundup n WORDSIZE = (n + 3) / 4 * 4 := by
    rw [roundup, WORDSIZE, uint32_of_ufits ⟨by lia, by lia⟩]
    lia
  refine ⟨hround, ?_⟩
  have hreq : reqsize align n = (n + 3) / 4 * 4 + align + 8 := by
    rw [reqsize, hround, SMALLEST_BLK, uint32_of_ufits ⟨by lia, by lia⟩]
  rw [(blockSize_eq_iff (by rw [hreq]; lia)).mpr (by rw [hreq]; lia), hreq, needed, SMALLEST_BLK,
    WORDSIZE]
  lia

/-- What is asked of `malloc` is not too much. -/
theorem PagesFit.core (hpages : PagesFit nbpg align n h) (hfit : AlignFits align n) (hn : 0 < n)
    (halign : 0 < align ∧ 4 ∣ align) : 0 < blockSize (reqsize align n) ∧
      (weight h._root ≤ blockSize (reqsize align n) →
        blockSize (reqsize align n) + (nbpg - 1) < 4294967296) := by
  rw [(reqsize_eq hn halign hfit).2]
  exact ⟨by lia, hpages⟩

/-- The parameters are good ones. -/
theorem not_misaligned (hn : 0 < n) (halign : 0 < align ∧ 4 ∣ align) :
    ¬ (n = 0 ∨ misaligned align = true) := by
  rw [misaligned, decide_eq_true_eq]
  lia

/-- **What `memalign` returns**: nothing, or an aligned block of which one or two fragments have
been split off and counted out. -/
theorem memalign_effect (hg : Good h busy) (hpage : 0 < nbpg ∧ 4 ∣ nbpg) (hn : 0 < n)
    (halign : 0 < align ∧ 4 ∣ align) (hfit : AlignFits align n) (hpages : PagesFit nbpg align n h)
    (h1 : memalign nbpg align n h = some (h', p)) :
    p = 0 ∧ malloc nbpg (reqsize align n) h = some (h', 0) ∨
      ∃ b : Block, p = b.1 + WORDSIZE ∧ align ∣ p ∧ n + WORDSIZE ≤ b.2 ∧ b ∉ busy ∧
        Good h' (insert b busy) ∧
        ∃ k : ℤ, (k = 1 ∨ k = 2) ∧ Effect h h' (bytes busy) b.2 (1 - k) := by
  obtain ⟨hround, hblock⟩ := reqsize_eq hn halign hfit
  have hsum : (n + 3) / 4 * 4 + align + 12 < 4294967296 := hfit
  obtain ⟨hpos, hcore⟩ := hpages.core hfit hn halign
  unfold memalign at h1
  rw [if_neg (not_misaligned hn halign)] at h1
  rcases hm : malloc nbpg (reqsize align n) h with _ | ⟨h2, q⟩
  · simp only [hm] at h1
    cases h1
  simp only [hm] at h1
  rcases malloc_effect hg hpage hpos hcore hm with ⟨rfl, -, -⟩ | ⟨hq, heff⟩
  · rw [if_pos rfl, Option.some.injEq, Prod.mk.injEq] at h1
    obtain ⟨rfl, rfl⟩ := h1
    exact Or.inl ⟨rfl, rfl⟩
  rw [if_neg hq] at h1
  obtain ⟨b, rfl, hle, hb, hg2⟩ : ∃ b : Block, q = b.1 + WORDSIZE ∧
      blockSize (reqsize align n) ≤ b.2 ∧ b ∉ busy ∧ Good h2 (insert b busy) := by
    rcases malloc_good hg hpage hpos hcore hm with ⟨rfl, -⟩ | hgood
    · exact absurd rfl hq
    · exact hgood
  have hback : b.1 + WORDSIZE - WORDSIZE = b.1 := by lia
  have hsize : h2.size b.1 = b.2 := (hg2.tiles.busyWhole b (mem_insert _ _)).2
  rw [hback, hsize] at heff
  simp only [hback, hsize] at h1
  obtain ⟨⟨h3, a, m⟩, hleft, h1⟩ := Option.bind_eq_some_iff.mp h1
  obtain ⟨h4, hright, heq⟩ := map_eq_some_iff.mp h1
  rw [Prod.mk.injEq] at heq
  obtain ⟨rfl, rfl⟩ := heq
  rw [hround, WORDSIZE, uint32_of_ufits ⟨by lia, by lia⟩] at hright
  -- a block that starts at a boundary leaves a fragment at its end
  obtain ⟨hdvd, hout, hg3, i, hi, hcut⟩ := splitLeft_spec hg2 hb halign (by lia) hleft
  obtain ⟨hroom, hout', hg4, j, hj, hcut'⟩ :=
    splitRight_spec (n := (n + 3) / 4 * 4 + 4) hg3 hout (by lia) (by lia) hright
  refine Or.inr ⟨(a, h4.size a), rfl, hdvd, ?_, hout', hg4, i + j, by lia, ?_⟩
  · rw [WORDSIZE]
    lia
  · apply ((heff.trans hcut).trans hcut').congr
    · ring
    · ring

/-- One or two blocks fewer are another number. -/
theorem int32_sub_ne {c k : ℤ} (hk : k = 1 ∨ k = 2) : int32 (c + (1 - k)) ≠ int32 (c + 1) := by
  unfold int32
  omega

variable {s : State}

/-- What `memalign` returns is as it should be. -/
theorem memalign_aligned (hg : Good s.heap s.live) (hpage : 0 < nbpg ∧ 4 ∣ nbpg) (hn : 0 ≤ n)
    (halign : 0 < align ∧ 4 ∣ align) (hfit : AlignFits align n)
    (hpages : PagesFit nbpg align n s.heap)
    (h1 : memalign nbpg align n s.heap = some (h', p)) (hp : p ≠ 0) : Aligned align n s h' p := by
  rcases hn.eq_or_lt with rfl | hpos
  · rw [memalign, if_pos (Or.inl rfl), Option.some.injEq, Prod.mk.injEq] at h1
    exact absurd h1.2.symm hp
  rcases memalign_effect hg hpage hpos halign hfit hpages h1 with
    ⟨rfl, -⟩ | ⟨b, rfl, hdvd, hroom, hb, hg', k, -, heff⟩
  · exact absurd rfl hp
  have hblock := blockOf_busy hg' (mem_insert _ _)
  have hsize : h'.size (b.1 + WORDSIZE - WORDSIZE) = b.2 := congrArg Prod.snd hblock
  refine ⟨hp, hdvd, ?_, ?_, ?_, heff.words⟩
  · rw [usable, hsize]
    lia
  · rw [hblock]
    exact hb
  · rw [hblock]
    exact Tiled.of_good hg'

/-- What `memalign` returns is not counted right. -/
theorem memalign_not_counted (hg : Good s.heap s.live) (he : StatsExact s)
    (hpage : 0 < nbpg ∧ 4 ∣ nbpg) (hn : 0 < n) (halign : 0 < align ∧ 4 ∣ align)
    (hfit : AlignFits align n) (hpages : PagesFit nbpg align n s.heap)
    (h1 : memalign nbpg align n s.heap = some (h', p)) (hp : p ≠ 0) :
      ¬ Counted ⟨h', insert (blockOf h' p) s.live, ∅⟩ := by
  rintro ⟨B', hB', hcount, -⟩
  obtain ⟨B, hB, hexact⟩ := he
  rcases memalign_effect hg hpage hn halign hfit hpages h1 with
    ⟨rfl, -⟩ | ⟨b, rfl, -, -, hb, hg', k, hk, heff⟩
  · exact absurd rfl hp
  have hsame : B' = insert b B := by
    apply coe_injective
    rw [hB', coe_insert, hB, blockOf_busy hg' (mem_insert _ _)]
  have hcard : B'.card = B.card + 1 := by
    rw [hsame]
    exact card_insert_of_notMem fun hmem => hb (by rw [← hB]; exact hmem)
  have hless : h'.__mallinfo.allocated = int32 (B.card + (1 - k)) :=
    (heff.counts _ _ hexact).allocated
  apply int32_sub_ne (c := B.card) hk
  rw [← hless, show h'.__mallinfo.allocated = int32 B'.card from hcount, hcard]
  rfl

/-- A `memalign` that is refused core returns nothing and changes nothing. -/
theorem Refused.meets (hn : 0 < n) (halign : 0 < align ∧ 4 ∣ align) (hfit : AlignFits align n)
    (hr : Refused nbpg align n s.heap) : MemalignMeets nbpg align n s := by
  obtain ⟨hw, hs⟩ := hr
  rw [← (reqsize_eq hn halign hfit).2] at hw hs
  rcases hcall : sbrk (roundup (blockSize (reqsize align n)) nbpg) s.heap with ⟨h', _ | p⟩
  · have hmalloc : malloc nbpg (reqsize align n) s.heap = some (h', 0) := by
      unfold malloc morecore
      simp only [if_pos hw, hcall]
    refine ⟨h', 0, ?_, Or.inl ⟨rfl, ?_⟩⟩
    · rw [memalign, if_neg (not_misaligned hn halign), hmalloc]
      rfl
    · obtain ⟨e, supply, rfl⟩ := sbrk_none_eq hcall
      exact ⟨rfl, rfl, rfl⟩
  · rw [hcall] at hs
    cases hs

/-- If the pages fit, nothing is returned only for want of core. -/
theorem memalign_null (hg : Good s.heap s.live) (hpage : 0 < nbpg ∧ 4 ∣ nbpg) (hn : 0 < n)
    (halign : 0 < align ∧ 4 ∣ align) (hfit : AlignFits align n)
    (hpages : PagesFit nbpg align n s.heap)
    (h1 : memalign nbpg align n s.heap = some (h', 0)) : Refused nbpg align n s.heap := by
  obtain ⟨hpos, hcore⟩ := hpages.core hfit hn halign
  unfold Refused
  rw [← (reqsize_eq hn halign hfit).2, ← malloc_null_iff hg hpage hpos hcore]
  rcases memalign_effect hg hpage hn halign hfit hpages h1 with
    ⟨-, hnull⟩ | ⟨b, hzero, -, -, -, hg', -⟩
  · exact ⟨h', hnull⟩
  · exact absurd hzero.symm (ptr_ne_zero hg' (mem_insert _ _))

/-- **When `memalign` meets its request**: when it returns nothing, for no bytes or for want of
core, and only then if the pages fit.  What it returns is as it should be all the same, but for the
counts. -/
theorem memalign_meets_iff (hg : Good s.heap s.live) (he : StatsExact s)
    (hpage : 0 < nbpg ∧ 4 ∣ nbpg) (hn : 0 ≤ n) (halign : 0 < align ∧ 4 ∣ align)
    (hfit : AlignFits align n) :
    (n = 0 ∨ Refused nbpg align n s.heap → MemalignMeets nbpg align n s) ∧
    (PagesFit nbpg align n s.heap →
      (MemalignMeets nbpg align n s ↔ n = 0 ∨ Refused nbpg align n s.heap) ∧
      ∀ h' p, memalign nbpg align n s.heap = some (h', p) → p ≠ 0 → Aligned align n s h' p) := by
  have hmeets : n = 0 ∨ Refused nbpg align n s.heap → MemalignMeets nbpg align n s := by
    rcases hn.eq_or_lt with rfl | hpos
    · refine fun _ => ⟨{ s.heap with errno := EINVAL }, 0, ?_, Or.inl ⟨rfl, rfl, rfl, rfl⟩⟩
      rw [memalign, if_pos (Or.inl rfl)]
    · rintro (hzero | hr)
      · exact absurd hzero hpos.ne'
      · exact hr.meets hpos halign hfit
  refine ⟨hmeets, fun hpages => ⟨⟨?_, hmeets⟩, fun h' p =>
    memalign_aligned hg hpage hn halign hfit hpages⟩⟩
  rcases hn.eq_or_lt with rfl | hpos
  · exact fun _ => Or.inl rfl
  rintro ⟨h', p, h1, ⟨rfl, -⟩ | ⟨hok, hcounted⟩⟩
  · exact Or.inr (memalign_null hg hpage hpos halign hfit hpages h1)
  · exact absurd hcounted (memalign_not_counted hg he hpage hpos halign hfit hpages h1 hok.ne)

theorem memalign_hundred : (memalign 8192 16 100 (init 8192 [some 0])).map
    (fun r => (r.1.__mallinfo.allocated, r.2)) = some (-1, 8208) := by decide

/-- A heap without core, and a block in one with a page. -/
theorem memalign_meets_iff_init :
    MemalignMeets 8192 16 100 ⟨init 8192 [], ∅, ∅⟩ ∧
    ∃ h', memalign 8192 16 100 (init 8192 [some 0]) = some (h', 8208) ∧
      Aligned 16 100 ⟨init 8192 [some 0], ∅, ∅⟩ h' 8208 := by
  constructor
  · exact (memalign_meets_iff (good_init (by decide) []) (statsExact_init 8192 []) (by decide)
      (by decide) (by decide) (show _ < _ by decide)).1 (Or.inr ⟨by decide, by decide⟩)
  · obtain ⟨⟨h', p⟩, h1, heq⟩ := map_eq_some_iff.mp memalign_hundred
    rw [Prod.mk.injEq] at heq
    obtain ⟨-, rfl⟩ := heq
    have hpages : PagesFit 8192 16 100 (init 8192 [some 0]) := fun _ => by decide
    exact ⟨h', h1, ((memalign_meets_iff (good_init (by decide) _) (statsExact_init _ _) (by decide)
      (by decide) (by decide) (show _ < _ by decide)).2 hpages).2 h' 8208 h1 (by decide)⟩

/-- **A hundred bytes at a multiple of sixteen**: they are the one busy block, and -1 is counted. -/
theorem memalign_miscounts : ∃ s, Good s.heap s.live ∧ StatsExact s ∧ AlignFits 16 100 ∧
    ¬ MemalignMeets 8192 16 100 s := by
  refine ⟨⟨init 8192 [some 0], ∅, ∅⟩, good_init (by decide) _, statsExact_init _ _,
    show _ < _ by decide, ?_⟩
  rintro ⟨h', p, h1, hcase⟩
  have hrun := memalign_hundred
  rw [show memalign 8192 16 100 (init 8192 [some 0]) = some (h', p) from h1, Option.map_some,
    Option.some.injEq, Prod.mk.injEq] at hrun
  obtain ⟨hless, hp⟩ := hrun
  rcases hcase with ⟨hzero, -⟩ | ⟨-, B, hB, hcount, -⟩
  · lia
  · have hone : B = {blockOf h' p} := by
      apply coe_injective
      rw [hB, coe_singleton, insert_empty_eq]
    rw [hone, Finset.card_singleton] at hcount
    exact absurd (hless.symm.trans hcount) (by decide)

end Malloc
