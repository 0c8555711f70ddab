/-
# The kernel heap (`sys/heap_kmem.c`)

`kmem_alloc` and `kmem_free` keep the free blocks of the kernel heap in a Cartesian
tree, by address and by raw size.  Blocks may start at any byte, while allocation
is aligned to words, so the search compares `mweight`, the size of a block less
the bytes before its first word boundary.

The headers of the tree's nodes live in pages of their own; here only the number
of free headers is kept.  Pages come from `rmalloc(kernelmap, ..)`: `supply` lists
the page numbers it will return, and `taken` the ranges of bytes handed out so far.
A result `none` is a panic or a sleep for want of pages.  `kmem_free_intr` is not
used, so that `check_need_to_free` finds nothing.
-/
import SunOS.Lib.FastFits

namespace Kmem

open Set
open FastFits CartesianTree

/-- Bytes in a page. -/
def NBPG : ℤ := 8192

/-- Pages in a cluster. -/
def CLSIZE : ℤ := 1

/-- Bytes in a cluster. -/
def CLBYTES : ℤ := CLSIZE * NBPG

/-- Pages of the arena. -/
def USRPTSIZE : ℤ := 0x980000 / NBPG

/-- `sizeof (struct freehdr)`. -/
def sizeofFreehdr : ℤ := 16

/-- The size of the smallest block. -/
def SMALLEST_BLK : ℤ := 1

/-- `struct kmem_info`, with the environment's pages. -/
structure kmem_info where
  free_root : CartesianTree ℤ ℤ
  free_hdr_list : ℕ
  vaddr : ℤ
  supply : List ℤ
  taken : List Block
  deriving DecidableEq, Repr

/-- `kmem_init()`, with `usrpt` the address of the arena. -/
def kmem_init (usrpt : ℤ) (supply : List ℤ) : kmem_info := ⟨nil, 0, usrpt, supply, []⟩

/-- `roundup(x, y)` of unsigned words. -/
def roundup (x y : ℤ) : ℤ := uint32 (x + (y - 1)) / y * y

/-- The address of page `x` of the arena. -/
def pageAddr (m : kmem_info) (x : ℤ) : ℤ := uint32 (m.vaddr + x * NBPG)

/-- `getpages(npages)`; `rmalloc` panics on no pages. -/
def getpages (npages : ℤ) (m : kmem_info) : Option (kmem_info × ℤ) :=
  if npages ≤ 0 then none
  else
    match m.supply with
    | [] => none
    | x :: supply =>
      some ({ m with
        supply := supply
        taken := (pageAddr m x, npages * NBPG) :: m.taken }, pageAddr m x)

/-- `freehdr(p)`. -/
def freehdr (m : kmem_info) : kmem_info := { m with free_hdr_list := m.free_hdr_list + 1 }

/-- `getfreehdr()`: a header from the list, or the first of a new page of them. -/
def getfreehdr (m : kmem_info) : Option kmem_info :=
  if m.free_hdr_list ≠ 0 then some { m with free_hdr_list := m.free_hdr_list - 1 }
  else do
    let (m, r) ← getpages CLSIZE m
    if r = 0 then none
    else some { m with free_hdr_list := (CLBYTES / sizeofFreehdr - 1).toNat }

/-- `insert(p, len, &kmem_info.free_root)`. -/
def insert (p len : ℤ) (m : kmem_info) : Option kmem_info :=
  (getfreehdr m).map fun m => { m with free_root := m.free_root.insert p len }

/-- `kmem_free(ptr, nbytes)`. -/
def kmem_free (ptr nbytes : ℤ) (m : kmem_info) : Option kmem_info :=
  if nbytes = 0 then some m
  else if ptr < m.vaddr ∨ ptr > m.vaddr + USRPTSIZE * NBPG then none
  else do
    let j ← coalesce (m.free_root.toList.length + 1) ptr nbytes m.free_root
    if j.clash then none
    else
      insert j.addr j.size
        { m with free_root := j.tree, free_hdr_list := m.free_hdr_list + j.absorbed }

/-- `ALIGNMORE(addr)`: the bytes up to the next word boundary. -/
def ALIGNMORE (addr : ℤ) : ℤ := 4 - addr % 4

/-- `mweight(x)`: the size of a block from its first word boundary. -/
def mweight : CartesianTree ℤ ℤ → ℤ
  | nil => 0
  | node _ block size _ =>
    if block % 4 ≠ 0 ∧ size > ALIGNMORE block then size - ALIGNMORE block else size

/-- `morecore(nbytes)`; false when there are no pages. -/
def morecore (nbytes : ℤ) (m : kmem_info) : Option (kmem_info × Bool) := do
  let nbytes := roundup nbytes CLBYTES
  let (m, p) ← getpages (nbytes / NBPG) m
  if p = 0 then some (m, false) else (kmem_free p nbytes m).map (·, true)

/-- The first part of `kmem_alloc`: "ensure that at least one block is big enough". -/
def ensure (nbytes : ℤ) (m : kmem_info) : Option kmem_info :=
  if mweight m.free_root ≤ nbytes then do
    let (m, enough) ← morecore nbytes m
    if enough then some m else none
  else some m

/-- Free what is left of the block of `a` above its first `nbytes` bytes. -/
def freeRest (a : Place) (nbytes : ℤ) (m : kmem_info) : Option kmem_info :=
  if a.size > nbytes then
    kmem_free (nextblk a.addr nbytes) (uint32 (a.size - nbytes)) m
  else some m

/-- Split the node `a`, "allocating nbytes from the top". -/
def splitNode (a : Place) (nbytes : ℤ) (m : kmem_info) : Option (kmem_info × ℤ) :=
  if a.addr % 4 ≠ 0 ∧ a.size > ALIGNMORE a.addr then
    -- the bytes before the word boundary stay in the tree
    let m := { m with
      free_root := plug a.path (demote a.addr (ALIGNMORE a.addr) a.left a.right) }
    (freeRest a (uint32 (nbytes + ALIGNMORE a.addr)) m).map fun m =>
      (freehdr m, uint32 (a.addr + ALIGNMORE a.addr))
  else
    some (freehdr { m with
      free_root := plug a.path
        (demote (nextblk a.addr nbytes) (uint32 (a.size - nbytes)) a.left a.right) }, a.addr)

/-- "Allocate storage from the selected node" `a`. -/
def allocateFrom (a : Place) (nbytes : ℤ) (m : kmem_info) : Option (kmem_info × ℤ) :=
  if uint32 (a.size - nbytes) < SMALLEST_BLK then
    some (freehdr { m with free_root := plug a.path (merge a.left a.right) }, a.addr)
  else (getfreehdr m).bind fun m => splitNode a nbytes m

/-- The second part: "search down through the tree", and allocate from the node found. -/
def allocate (nbytes : ℤ) (m : kmem_info) : Option (kmem_info × ℤ) :=
  (bestFit mweight nbytes m.free_root []).bind fun a => allocateFrom a nbytes m

/-- `kmem_alloc(nbytes)`. -/
def kmem_alloc (nbytes : ℤ) (m : kmem_info) : Option (kmem_info × ℤ) :=
  if nbytes = 0 then some (m, 0)
  else (ensure nbytes m).bind fun m => allocate nbytes m

end Kmem

/-! # What the kernel heap's operations do to its free blocks

One specification for each of `getfreehdr`, `kmem_free`, `morecore` and the two
parts of `kmem_alloc`, in terms of the bytes in free blocks.
-/

namespace Kmem

open Set
open FastFits CartesianTree Segments

variable {m m' : kmem_info}

/-- The end of the arena. -/
def arenaEnd (m : kmem_info) : ℤ := m.vaddr + USRPTSIZE * NBPG

/-- What the environment promises: the arena lies in the address space, and
`getpages` returns pages of it that it has not returned before. -/
structure Fair (m : kmem_info) : Prop where
  base : 0 < m.vaddr ∧ arenaEnd m < 4294967296
  pages : ∀ b ∈ m.taken, 4 ∣ lo b ∧ m.vaddr ≤ lo b ∧ hi b ≤ arenaEnd m
  fresh : m.taken.Pairwise fun a b => Disjoint (Set.Ico (lo a) (hi a)) (Set.Ico (lo b) (hi b))

/-- The bytes of the pages obtained so far. -/
def arena (m : kmem_info) : Set ℤ := cover lo hi m.taken

/-- `m'` may have more pages than `m`. -/
def Later (m m' : kmem_info) : Prop := m.taken <:+ m'.taken ∧ m'.vaddr = m.vaddr

theorem Later.refl (m : kmem_info) : Later m m := ⟨List.suffix_refl _, rfl⟩

theorem Later.trans {m1 m2 m3 : kmem_info} (h1 : Later m1 m2) (h2 : Later m2 m3) : Later m1 m3 :=
  ⟨h1.1.trans h2.1, h2.2.trans h1.2⟩

theorem Later.fair (h : Later m m') (hf : Fair m') : Fair m := by
  obtain ⟨hsuf, hv⟩ := h
  refine ⟨?_, ?_, hf.fresh.sublist hsuf.sublist⟩
  · rw [arenaEnd, ← hv]
    exact hf.base
  · intro b hb
    rw [arenaEnd, ← hv]
    exact hf.pages b (hsuf.subset hb)

theorem Later.arena_subset (h : Later m m') : arena m ⊆ arena m' := by
  rintro u ⟨b, hb, hu⟩
  exact ⟨b, h.1.subset hb, hu⟩

/-- Bytes of the arena lie between its ends. -/
theorem Fair.mem_arena {m : kmem_info} (hf : Fair m) {u : ℤ} (hu : u ∈ arena m) :
    m.vaddr ≤ u ∧ u < arenaEnd m := by
  obtain ⟨b, hb, hlo, hhi⟩ := hu
  obtain ⟨-, h1, h2⟩ := hf.pages b hb
  exact ⟨le_trans h1 hlo, lt_of_lt_of_le hhi h2⟩

/-- A range of the arena is a block, and `kmem_free` does not find it out of bounds. -/
theorem Fair.sound {m : kmem_info} (hf : Fair m) {p n : ℤ} (hn : 0 < n)
    (hsub : Set.Ico p (p + n) ⊆ arena m) :
    Sound (p, n) ∧ ¬ (p < m.vaddr ∨ p > m.vaddr + USRPTSIZE * NBPG) := by
  obtain ⟨hb1, hb2⟩ := hf.base
  have h1 := hf.mem_arena (hsub (show p ∈ Set.Ico p (p + n) from ⟨le_refl _, by omega⟩))
  have h2 := hf.mem_arena (hsub (show p + n - 1 ∈ Set.Ico p (p + n) from ⟨by omega, by omega⟩))
  refine ⟨⟨by simp only; omega, hn, by simp only; omega⟩, ?_⟩
  rw [← arenaEnd]
  omega

/-! ## Headers and pages -/

theorem getpages_eq {npages p : ℤ} (h : getpages npages m = some (m', p)) :
    0 < npages ∧ ∃ x supply, m.supply = x :: supply ∧ p = pageAddr m x ∧
      m' = { m with supply := supply, taken := (p, npages * NBPG) :: m.taken } := by
  rw [getpages] at h
  by_cases hn : npages ≤ 0
  · rw [if_pos hn] at h
    cases h
  · rw [if_neg hn] at h
    cases hs : m.supply with
    | nil =>
      rw [hs] at h
      cases h
    | cons x supply =>
      rw [hs, Option.some.injEq, Prod.mk.injEq] at h
      obtain ⟨rfl, rfl⟩ := h
      exact ⟨by omega, x, supply, rfl, rfl, rfl⟩

theorem getfreehdr_eq (h : getfreehdr m = some m') : m'.free_root = m.free_root ∧ Later m m' := by
  rw [getfreehdr] at h
  by_cases hl : m.free_hdr_list ≠ 0
  · rw [if_pos hl, Option.some.injEq] at h
    subst h
    exact ⟨rfl, Later.refl _⟩
  · rw [if_neg hl] at h
    obtain ⟨⟨m1, r⟩, hpages, h⟩ := Option.bind_eq_some_iff.mp h
    obtain ⟨-, x, supply, -, -, rfl⟩ := getpages_eq hpages
    simp only at h
    by_cases hr : r = 0
    · rw [if_pos hr] at h
      cases h
    · rw [if_neg hr, Option.some.injEq] at h
      subst h
      exact ⟨rfl, List.suffix_cons _ _, rfl⟩

theorem insert_eq {p len : ℤ} (h : insert p len m = some m') :
    m'.free_root = m.free_root.insert p len ∧ Later m m' := by
  obtain ⟨m1, hhdr, rfl⟩ := Option.map_eq_some_iff.mp h
  obtain ⟨hroot, hlater⟩ := getfreehdr_eq hhdr
  exact ⟨by rw [← hroot], hlater⟩

/-! ## kmem_free -/

/-- `kmem_free` joins the block to its neighbours and inserts it. -/
theorem kmem_free_eq {p n : ℤ} (hn : n ≠ 0) (h : kmem_free p n m = some m') :
    ∃ j, coalesce (m.free_root.toList.length + 1) p n m.free_root = some j ∧
      m'.free_root = j.tree.insert j.addr j.size := by
  rw [kmem_free, if_neg hn] at h
  by_cases hb : p < m.vaddr ∨ p > m.vaddr + USRPTSIZE * NBPG
  · rw [if_pos hb] at h
    cases h
  · rw [if_neg hb] at h
    obtain ⟨j, hj, h⟩ := Option.bind_eq_some_iff.mp h
    split_ifs at h
    exact ⟨j, hj, (insert_eq h).1⟩

theorem kmem_free_later {p n : ℤ} (h : kmem_free p n m = some m') : Later m m' := by
  rw [kmem_free] at h
  by_cases hn : n = 0
  · rw [if_pos hn, Option.some.injEq] at h
    rw [h]
    exact Later.refl _
  · rw [if_neg hn] at h
    by_cases hb : p < m.vaddr ∨ p > m.vaddr + USRPTSIZE * NBPG
    · rw [if_pos hb] at h
      cases h
    · rw [if_neg hb] at h
      obtain ⟨j, -, h⟩ := Option.bind_eq_some_iff.mp h
      split_ifs at h
      exact (insert_eq h).2

/-- `kmem_free` adds the block to the free ones. -/
theorem kmem_free_room {p n : ℤ} (hv : Valid m.free_root) (hs : Sound (p, n))
    (hdis : Disjoint (Set.Ico p (p + n)) (room m.free_root)) (h : kmem_free p n m = some m') :
    Valid m'.free_root ∧ room m'.free_root = room m.free_root ∪ Set.Ico p (p + n) := by
  have hn : n ≠ 0 := by
    have := hs.2.1
    omega
  obtain ⟨j, hj, hroot⟩ := kmem_free_eq hn h
  obtain ⟨j', -, -, -, -, hj', -, -, -, -, -, hvalid, hroom⟩ := coalesce_insert hv hs hdis
  rw [hj, Option.some.injEq] at hj'
  subst hj'
  rw [hroot]
  exact ⟨hvalid, hroom⟩

/-! ## Allocating from the tree -/

variable {a : Place} {n r : ℤ}

/-- The root or one of its children has room for `n` bytes from a word boundary on. -/
def Fitting (n : ℤ) : CartesianTree ℤ ℤ → Prop
  | nil => False
  | node l b s r => n ≤ mweight (node l b s r) ∨ n ≤ mweight l ∨ n ≤ mweight r

/-- The walk then ends at a node that has it. -/
theorem bestFit_mweight {n : ℤ} (hn : 0 < n) {t : CartesianTree ℤ ℤ} (ht : Fitting n t) :
    ∃ a, bestFit mweight n t [] = some a ∧ plug a.path a.node = t ∧ n ≤ mweight a.node := by
  cases t with
  | nil => exact absurd ht id
  | node l b s r =>
    obtain ⟨a, ha, hplug, hl, hr, hnode⟩ :=
      bestFit_spec mweight (n := n) hn (t := node l b s r) (by simp) []
    refine ⟨a, ha, hplug, ?_⟩
    rcases hnode with hnode | hnode
    · rw [Place.node, node.injEq] at hnode
      obtain ⟨rfl, rfl, rfl, rfl⟩ := hnode
      rcases ht with ht | ht | ht
      · exact ht
      · omega
      · omega
    · exact hnode

theorem alignmore_pos {b : ℤ} (hb : b % 4 ≠ 0) :
    0 < ALIGNMORE b ∧ ALIGNMORE b < 4 ∧ 4 ∣ b + ALIGNMORE b := by
  rw [ALIGNMORE]
  omega

/-- A block with room for `n` bytes from its word boundary on. -/
theorem le_of_mweight {l r : CartesianTree ℤ ℤ} {b s n : ℤ} (hw : n ≤ mweight (node l b s r)) :
    n ≤ s ∧ (b % 4 ≠ 0 ∧ s > ALIGNMORE b → ALIGNMORE b + n ≤ s) := by
  rw [mweight] at hw
  by_cases hc : b % 4 ≠ 0 ∧ s > ALIGNMORE b
  · rw [if_pos hc] at hw
    have hmore := (alignmore_pos hc.1).1
    exact ⟨by omega, fun _ => by omega⟩
  · rw [if_neg hc] at hw
    exact ⟨hw, fun h => absurd h hc⟩

/-- A block of a word at least that has no bytes to skip is aligned. -/
theorem aligned_of_not {b s : ℤ} (hs : 4 ≤ s) (hc : ¬ (b % 4 ≠ 0 ∧ s > ALIGNMORE b)) : 4 ∣ b := by
  by_contra hna
  have hna' : b % 4 ≠ 0 := by omega
  have hmore := alignmore_pos hna'
  exact hc ⟨hna', by omega⟩

/-- Freeing what is left above the first `k` bytes of the block `(b, s)`, of which
only the bytes below `c` are still in the tree. -/
theorem freeRest_room {T : Set ℤ} {c k : ℤ} (hs : Sound (a.addr, a.size)) (hv : Valid m.free_root)
    (hroom : room m.free_root =
      T \ (Set.Ico a.addr (a.addr + a.size) \ Set.Ico a.addr (a.addr + c)))
    (hT : Set.Ico a.addr (a.addr + a.size) ⊆ T) (hc : 0 ≤ c) (hck : c ≤ k) (hk : k ≤ a.size)
    (h : freeRest a k m = some m') :
    Valid m'.free_root ∧ room m'.free_root = T \ Set.Ico (a.addr + c) (a.addr + k) := by
  obtain ⟨hs1, hs2, hs3⟩ := hs
  rw [freeRest] at h
  by_cases hmore : a.size > k
  · have hu1 : nextblk a.addr k = a.addr + k := uint32_of_ufits ⟨by lia, by lia⟩
    have hu2 : uint32 (a.size - k) = a.size - k := uint32_of_ufits ⟨by lia, by lia⟩
    rw [if_pos hmore, hu1, hu2] at h
    have hdis : Disjoint (Set.Ico (a.addr + k) (a.addr + k + (a.size - k)))
        (room m.free_root) := by
      rw [hroom, disjoint_left]
      rintro u ⟨hu1, hu2⟩ ⟨-, hu⟩
      exact hu ⟨⟨by lia, by lia⟩, fun hlow => by
        have := hlow.2
        lia⟩
    obtain ⟨hvalid, hroom'⟩ := kmem_free_room hv
      ⟨by simp only; lia, by simp only; lia, by simp only; lia⟩ hdis h
    refine ⟨hvalid, ?_⟩
    rw [hroom', hroom]
    ext u
    have hu : u ∈ Set.Ico a.addr (a.addr + a.size) → u ∈ T := fun hx => hT hx
    simp only [mem_union, mem_sdiff, mem_Ico] at hu ⊢
    by_cases hT' : u ∈ T
    · simp only [hT', true_and]
      lia
    · have hout : ¬ (a.addr ≤ u ∧ u < a.addr + a.size) := fun hx => hT' (hu hx)
      lia
  · rw [if_neg hmore, Option.some.injEq] at h
    subst h
    refine ⟨hv, ?_⟩
    rw [hroom]
    ext u
    simp only [mem_sdiff, mem_Ico]
    refine and_congr_right fun _ => ?_
    lia

/-- Splitting a node takes exactly the bytes returned out of its block. -/
theorem splitNode_room
    (hv : Valid (plug a.path a.node)) (hn : 0 < n) (hlt : n < a.size) (hw : n ≤ mweight a.node)
    (h : splitNode a n m = some (m', r)) :
    Valid m'.free_root ∧ Set.Ico r (r + n) ⊆ Set.Ico a.addr (a.addr + a.size) ∧
      room m'.free_root = room (plug a.path a.node) \ Set.Ico r (r + n) ∧ (4 ≤ n → 4 ∣ r) := by
  have hsound : Sound (a.addr, a.size) := hv.sound_node
  obtain ⟨hs1, hs2, hs3⟩ := id hsound
  rw [splitNode] at h
  by_cases hc : a.addr % 4 ≠ 0 ∧ a.size > ALIGNMORE a.addr
  · rw [if_pos hc] at h
    obtain ⟨hmore1, hmore2, hmore3⟩ := alignmore_pos hc.1
    have hend := (le_of_mweight hw).2 hc
    have hu1 : uint32 (n + ALIGNMORE a.addr) = n + ALIGNMORE a.addr :=
      uint32_of_ufits ⟨by lia, by lia⟩
    have hu2 : uint32 (a.addr + ALIGNMORE a.addr) = a.addr + ALIGNMORE a.addr :=
      uint32_of_ufits ⟨by lia, by lia⟩
    rw [hu1, hu2] at h
    obtain ⟨m1, hrest, h⟩ := Option.map_eq_some_iff.mp h
    obtain ⟨rfl, rfl⟩ := h
    obtain ⟨hvalid, hroom⟩ := hv.shrink a.addr (ALIGNMORE a.addr) (le_refl _) hmore1
      (by lia)
    have hT : Set.Ico a.addr (a.addr + a.size) ⊆ room (plug a.path a.node) := by
      rintro u ⟨h1, h2⟩
      exact ⟨(a.addr, a.size), by simp [Place.node], h1, h2⟩
    obtain ⟨hvalid', hroom'⟩ := freeRest_room (m := { m with
      free_root := plug a.path (demote a.addr (ALIGNMORE a.addr) a.left a.right) })
      hsound hvalid hroom hT (by lia) (by lia) (by lia) hrest
    refine ⟨hvalid', Set.Ico_subset_Ico (by lia) (by lia), ?_, fun _ => hmore3⟩
    rw [freehdr]
    show room m1.free_root = _
    rw [hroom', show a.addr + (n + ALIGNMORE a.addr) = a.addr + ALIGNMORE a.addr + n by lia]
    rfl
  · rw [if_neg hc, Option.some.injEq, Prod.mk.injEq] at h
    obtain ⟨rfl, rfl⟩ := h
    have hu1 : nextblk a.addr n = a.addr + n := uint32_of_ufits ⟨by lia, by lia⟩
    have hu2 : uint32 (a.size - n) = a.size - n := uint32_of_ufits ⟨by lia, by lia⟩
    obtain ⟨hvalid, hroom⟩ := hv.shrink (a.addr + n) (a.size - n) (by lia) (by lia)
      (by lia)
    rw [hu1, hu2]
    refine ⟨hvalid, Set.Ico_subset_Ico (le_refl _) (by lia), ?_, ?_⟩
    · show room (plug a.path (demote (a.addr + n) (a.size - n) a.left a.right)) = _
      rw [hroom]
      ext u
      simp only [Place.node, mem_sdiff, mem_Ico]
      refine and_congr_right fun _ => ?_
      lia
    · exact fun h4 => aligned_of_not (by lia) hc

/-- **Allocating** `n` bytes takes exactly the bytes returned out of one free block. -/
theorem allocate_room (hv : Valid m.free_root) (hn : 0 < n)
    (hfit : Fitting n m.free_root) (h : allocate n m = some (m', r)) :
    Valid m'.free_root ∧
      (∃ b ∈ m.free_root.toList, Set.Ico r (r + n) ⊆ Set.Ico (lo b) (hi b)) ∧
      room m'.free_root = room m.free_root \ Set.Ico r (r + n) ∧ (4 ≤ n → 4 ∣ r) := by
  obtain ⟨a, ha, hplug, hw⟩ := bestFit_mweight hn hfit
  rw [allocate, ha, Option.bind_some, allocateFrom] at h
  have hv' : Valid (plug a.path a.node) := by
    rw [hplug]
    exact hv
  have hmem : (a.addr, a.size) ∈ m.free_root.toList := by
    rw [← hplug]
    simp [Place.node]
  obtain ⟨hs1, hs2, hs3⟩ := hv'.sound_node
  obtain ⟨hle, hskip⟩ := le_of_mweight hw
  rw [show uint32 (a.size - n) = a.size - n from uint32_of_ufits ⟨by omega, by omega⟩,
    SMALLEST_BLK] at h
  by_cases hexact : a.size - n < 1
  · -- the whole block
    rw [if_pos hexact, Option.some.injEq, Prod.mk.injEq] at h
    obtain ⟨rfl, rfl⟩ := h
    have hsn : n = a.size := by omega
    obtain ⟨hvalid, hroom⟩ := hv'.delete
    rw [show plug a.path (node a.left a.addr a.size a.right) = m.free_root from hplug] at hroom
    rw [hsn]
    refine ⟨hvalid, ⟨_, hmem, subset_refl _⟩, hroom, fun h4 => ?_⟩
    refine aligned_of_not h4 fun hc => ?_
    have hmore := (alignmore_pos hc.1).1
    omega
  · rw [if_neg hexact] at h
    obtain ⟨m1, -, h⟩ := Option.bind_eq_some_iff.mp h
    obtain ⟨hvalid, hsub, hroom, halign⟩ := splitNode_room hv' hn (by omega) hw h
    rw [hplug] at hroom
    exact ⟨hvalid, ⟨_, hmem, hsub⟩, hroom, halign⟩

/-! ## Pages only come -/

theorem splitNode_later (h : splitNode a n m = some (m', r)) : Later m m' := by
  rw [splitNode] at h
  by_cases hc : a.addr % 4 ≠ 0 ∧ a.size > ALIGNMORE a.addr
  · rw [if_pos hc] at h
    obtain ⟨m1, hrest, h⟩ := Option.map_eq_some_iff.mp h
    obtain ⟨rfl, -⟩ := h
    rw [freeRest] at hrest
    split_ifs at hrest with hmore
    · have hlater := kmem_free_later hrest
      exact ⟨hlater.1, hlater.2⟩
    · rw [Option.some.injEq] at hrest
      rw [← hrest]
      exact ⟨List.suffix_refl _, rfl⟩
  · rw [if_neg hc, Option.some.injEq, Prod.mk.injEq] at h
    obtain ⟨rfl, -⟩ := h
    exact Later.refl _

theorem allocate_later (h : allocate n m = some (m', r)) : Later m m' := by
  obtain ⟨a, -, h⟩ := Option.bind_eq_some_iff.mp h
  rw [allocateFrom] at h
  split_ifs at h with hexact
  · rw [Option.some.injEq, Prod.mk.injEq] at h
    obtain ⟨rfl, -⟩ := h
    exact Later.refl _
  · obtain ⟨m1, hhdr, h⟩ := Option.bind_eq_some_iff.mp h
    exact (getfreehdr_eq hhdr).2.trans (splitNode_later h)

theorem ensure_later {n : ℤ} (h : ensure n m = some m') : Later m m' := by
  rw [ensure] at h
  split_ifs at h with hw
  · obtain ⟨⟨m2, enough⟩, hmore, h⟩ := Option.bind_eq_some_iff.mp h
    obtain ⟨⟨m1, p⟩, hpages, hmore⟩ := Option.bind_eq_some_iff.mp hmore
    obtain ⟨-, x, supply, -, -, rfl⟩ := getpages_eq hpages
    have hlater : Later m { m with
        supply := supply
        taken := (p, roundup n CLBYTES / NBPG * NBPG) :: m.taken } := ⟨List.suffix_cons _ _, rfl⟩
    simp only at hmore h
    split_ifs at hmore h with hp henough
    · rw [Option.some.injEq, Prod.mk.injEq] at hmore
      rw [← hmore.2] at henough
      cases henough
    · obtain ⟨m3, hfree, hmore⟩ := Option.map_eq_some_iff.mp hmore
      rw [Prod.mk.injEq] at hmore
      rw [Option.some.injEq] at h
      rw [← h, ← hmore.1]
      exact hlater.trans (kmem_free_later hfree)
  · rw [Option.some.injEq] at h
    rw [h]
    exact Later.refl _

theorem kmem_alloc_later (h : kmem_alloc n m = some (m', r)) : Later m m' := by
  rw [kmem_alloc] at h
  split_ifs at h with hn
  · rw [Option.some.injEq, Prod.mk.injEq] at h
    rw [h.1]
    exact Later.refl _
  · obtain ⟨m1, hens, h⟩ := Option.bind_eq_some_iff.mp h
    exact (ensure_later hens).trans (allocate_later h)

end Kmem
