/-
# What an operation leaves alone, and what it counts

An operation on the heap keeps the words of the blocks that are busy all along, and keeps the
statistics exact: the bytes and the number of busy blocks that they speak of change by as much as
the operation makes busy.  The statistics are words, so they are exact modulo 2^32.
-/
import SunOS.Libc.MallocRealloc

namespace Malloc

open Set (disjoint_left mem_insert mem_insert_of_mem)
open List
open FastFits Segments
open CartesianTree hiding insert

variable {h h' h'' : heap} {busy : Set Block} {keep keep' : Set ℤ} {total count blocks total'
  count' : ℤ}

variable {root : CartesianTree ℤ ℤ}

/-- The statistics say that `count` blocks of `total` bytes are busy, of `blocks` in all. -/
structure Counts (h : heap) (total count blocks : ℤ) : Prop where
  uordbytes : h.__mallinfo.uordbytes = int32 total
  allocated : h.__mallinfo.allocated = int32 count
  ordblks : h.__mallinfo.ordblks = int32 blocks
  treeoverhead : h.__mallinfo.treeoverhead = int32 (h.headers.map Prod.snd).sum
  arena : h.__mallinfo.arena = int32 (h._ubound - h._lbound)

/-- **The statistics are exact** if `count` blocks of `total` bytes are busy. -/
def Exact (h : heap) (total count : ℤ) : Prop :=
  Counts h total count (count + h._root.toList.length)

/-- An operation that keeps the words of `keep` and makes `count` blocks more busy, with `total`
bytes. -/
structure Effect (h h' : heap) (keep : Set ℤ) (total count : ℤ) : Prop where
  words : Agree h.memory h'.memory keep
  counts : ∀ t c, Exact h t c → Exact h' (t + total) (c + count)

theorem Effect.refl : Effect h h keep 0 0 :=
  ⟨fun _ _ => rfl, fun t c he => by rwa [add_zero, add_zero]⟩

theorem Effect.trans (h1 : Effect h h' keep total count) (h2 : Effect h' h'' keep total' count') :
    Effect h h'' keep (total + total') (count + count') := by
  refine ⟨h1.words.trans h2.words, fun t c he => ?_⟩
  rw [← add_assoc, ← add_assoc]
  exact h2.counts _ _ (h1.counts t c he)

theorem Effect.mono (h1 : Effect h h' keep total count) (hk : keep' ⊆ keep) :
    Effect h h' keep' total count := ⟨h1.words.mono hk, h1.counts⟩

theorem Effect.congr (h1 : Effect h h' keep total count) (ht : total = total')
    (hc : count = count') :
    Effect h h' keep total' count' := by
  rw [← ht, ← hc]
  exact h1

/-- The free tree, the words of the heap and its statistics are the same. -/
structure Unchanged (h h' : heap) : Prop where
  root : h'._root = h._root
  memory : h'.memory = h.memory
  mallinfo : h'.__mallinfo = h.__mallinfo

theorem Unchanged.refl : Unchanged h h := ⟨rfl, rfl, rfl⟩

/-- Words are stored outside `keep`, and the statistics and the tree change together. -/
theorem effect_of_counts {memory : List (ℤ × ℤ)} {i : mallinfo} {n : ℕ}
    (hw : Agree h.memory memory keep)
    (hu : ∀ t, h.__mallinfo.uordbytes = int32 t → i.uordbytes = int32 (t + total))
    (ha : ∀ c, h.__mallinfo.allocated = int32 c → i.allocated = int32 (c + count))
    (ho : ∀ b, h.__mallinfo.ordblks = int32 b →
      i.ordblks = int32 (b + (count + root.toList.length - h._root.toList.length)))
    (hrest : i.treeoverhead = h.__mallinfo.treeoverhead ∧ i.arena = h.__mallinfo.arena) :
    Effect h { h with _root := root, memory := memory, __mallinfo := i, freehdrlist :=
      n } keep total
      count := by
  refine ⟨hw, fun t c he => ⟨hu t he.uordbytes, ha c he.allocated, ?_, ?_, ?_⟩⟩
  · refine (ho _ he.ordblks).trans (congrArg int32 ?_)
    ring
  · exact hrest.1.trans he.treeoverhead
  · exact hrest.2.trans he.arena

/-- The bytes of busy blocks are below the break. -/
theorem Good.below_brk (hg : Good h busy) {a : ℤ} (ha : a ∈ bytes busy) : a < h.curbrk := by
  obtain ⟨b, hb, -, hhi⟩ := ha
  have h1 := (GoodAt.bounds_busy hg hb).2
  have h2 := hg.brk.2
  omega

/-- No free block starts in a busy one. -/
theorem Good.not_start (hg : Good h busy) {b : Block} (hb : b ∈ h._root.toList) {a : ℤ}
    (ha : a ∈ bytes busy) : a ≠ b.1 := by
  rintro rfl
  exact disjoint_left.mp hg.tiles.apart
    (span_subset_room hb (hg.tiles.freeWhole b hb).1.start_mem) ha

/-! ## Extending the heap -/

/-- **`getfreehdr`** stores only above the break. -/
theorem getfreehdr_effect (h1 : getfreehdr h = some h') :
    h'._root = h._root ∧ (∀ a, a < h.curbrk → load a h'.memory = load a h.memory) ∧
      ∀ t c b, Counts h t c b → Counts h' t c b := by
  rcases getfreehdr_cases h1 with ⟨i, j, rfl⟩ | ⟨h2, p, hs, -, rfl⟩
  · exact ⟨rfl, fun _ _ => rfl, fun _ _ _ hc => ⟨hc.1, hc.2, hc.3, hc.4, hc.5⟩⟩
  · obtain ⟨rfl, supply, rfl⟩ := sbrk_eq hs
    have hp := h.brk_spec.1
    refine ⟨rfl, fun a ha => ?_, fun _ _ _ hc => ⟨hc.1, hc.2, hc.3, ?_, rfl⟩⟩
    · exact (load_cons ..).trans (if_neg (by omega))
    · show int32 (h.__mallinfo.treeoverhead + headerArraySize) =
        int32 (headerArraySize + (h.headers.map Prod.snd).sum)
      rw [hc.treeoverhead, int32_int32_add, add_comm]

/-! ## free -/

/-- **`free`** of a busy block counts it out. -/
theorem free_effect {b : Block} (hg : Good h (insert b busy)) (hb : b ∉ busy)
    (h1 : free_ (b.1 + WORDSIZE) h = some h') : Effect h h' (bytes busy) (-b.2) (-1) := by
  obtain ⟨hg', -⟩ := free_insert_good hg hb h1
  obtain ⟨j, hj, heq⟩ := free_busy hg (mem_insert _ _)
  rw [free_, heq, Option.map_map] at h1
  obtain ⟨h3, hget, rfl⟩ := Option.map_eq_some_iff.mp h1
  obtain ⟨hroot, hwords, hcounts⟩ := getfreehdr_effect hget
  have hroot' : h3._root = j.tree := hroot
  refine ⟨fun a ha => ?_, fun t c he => ?_⟩
  · have hne : a ≠ j.addr := hg'.not_start (self_mem_insert j.addr j.size h3._root) ha
    exact (load_cons ..).trans ((if_neg hne).trans
      (hwords a (hg.below_brk (bytes_mono (Set.subset_insert _ _) ha))))
  · have hlen := coalesce_length hj
    have hins := length_insert j.addr j.size j.tree
    obtain ⟨hc1, hc2, hc3, hc4, hc5⟩ := hcounts (t - b.2) (c - 1)
      (c + h._root.toList.length - j.absorbed) ⟨by
        show int32 (h.__mallinfo.uordbytes - b.2) = _
        rw [he.uordbytes, int32_int32_sub], by
        show int32 (h.__mallinfo.allocated - 1) = _
        rw [he.allocated, int32_int32_sub], by
        show int32 (h.__mallinfo.ordblks - j.absorbed) = _
        rw [he.ordblks, int32_int32_sub], he.treeoverhead, he.arena⟩
    refine ⟨hc1, hc2, hc3.trans (congrArg int32 ?_), hc4, hc5⟩
    show c + h._root.toList.length - j.absorbed =
      c + -1 + (h3._root.insert j.addr j.size).toList.length
    rw [hroot', hins]
    omega

/-! ## malloc -/

variable {a : Place}

/-- **`morecore`** leaves the statistics exact. -/
theorem morecore_effect {nbpg n : ℤ} {more : Bool} (hg : Good h busy) (hpage : 0 < nbpg ∧ 4 ∣ nbpg)
    (hn : 0 < n) (hfit : n + (nbpg - 1) < 4294967296) (h1 : morecore nbpg n h = some (h', more)) :
    Effect h h' (bytes busy) 0 0 := by
  rcases morecore_cases h1 with ⟨-, hs⟩ | ⟨-, h2, p, hs, hup, hfree⟩
  · obtain ⟨e, supply, rfl⟩ := sbrk_none_eq hs
    refine ⟨fun _ _ => rfl, fun t c he => ?_⟩
    rw [add_zero, add_zero]
    exact ⟨he.1, he.2, he.3, he.4, he.5⟩
  · obtain ⟨hgood, hout⟩ := morecore_block hg hpage hn hfit hs hup
    obtain ⟨rfl, supply, rfl⟩ := sbrk_eq hs
    have hp := h.brk_spec.1
    have hext : Effect h (cored h.brk (roundup n nbpg)
        { h with supply := supply, curbrk := uint32 (h.brk + roundup n nbpg) })
        (bytes busy) (roundup n nbpg) 1 := by
      refine ⟨fun a ha => ?_, fun t c he => ⟨?_, ?_, ?_, he.treeoverhead, rfl⟩⟩
      · have := hg.below_brk ha
        exact (load_cons ..).trans (if_neg (by omega))
      · show int32 (h.__mallinfo.uordbytes + roundup n nbpg) = _
        rw [he.uordbytes, int32_int32_add]
      · show int32 (h.__mallinfo.allocated + 1) = _
        rw [he.allocated, int32_int32_add]
      · show int32 (h.__mallinfo.ordblks + 1) = int32 (c + 1 + h._root.toList.length)
        rw [he.ordblks, int32_int32_add]
        ring_nf
    exact (hext.trans (free_effect hgood hout hfree)).congr (by simp) (by simp)

/-- When there is no core, nothing has changed. -/
theorem morecore_null {nbpg n : ℤ} (h1 : morecore nbpg n h = some (h', false)) :
    Unchanged h h' := by
  rcases morecore_cases h1 with ⟨-, hs⟩ | ⟨habs, -⟩
  · obtain ⟨e, supply, rfl⟩ := sbrk_none_eq hs
    exact ⟨rfl, rfl, rfl⟩
  · cases habs

/-- A node that is deleted is one less. -/
theorem length_delete (hplug : plug a.path a.node = root) :
    (plug a.path (merge a.left a.right)).toList.length + 1 = root.toList.length := by
  rw [← hplug]
  show _ = (plug a.path (node a.left a.addr a.size a.right)).toList.length
  simp only [toList_plug, toList_merge, toList_node, length_append, length_cons]
  omega

theorem length_demote (hplug : plug a.path a.node = root)
    (k w : ℤ) : (plug a.path (demote k w a.left a.right)).toList.length = root.toList.length := by
  rw [← hplug]
  show _ = (plug a.path (node a.left a.addr a.size a.right)).toList.length
  simp only [toList_plug, toList_demote, toList_node, length_append, length_cons]

/-- What is allocated from a node, and counted. -/
theorem allocate_effect {n : ℤ} (hg : Good h busy)
    (hplug : plug a.path a.node = h._root) (hn : 0 < n) (hn4 : 4 ∣ n) (hle : n ≤ a.size) (mx : ℤ) :
    Effect h ((allocateFrom a n h).stats fun i => { i with
        uordbytes := int32 (i.uordbytes + (allocateFrom a n h).size a.addr)
        allocated := int32 (i.allocated + 1)
        smblks := mx })
      (bytes busy) ((allocateFrom a n h).size a.addr) 1 := by
  have hmem : (a.addr, a.size) ∈ h._root.toList := by
    rw [← hplug]
    exact mem_plug_node
  obtain ⟨hwhole, hword⟩ := hg.tiles.freeWhole _ hmem
  obtain ⟨hs1, hs2, hs3⟩ := hwhole.sound
  unfold allocateFrom
  rw [show uint32 (a.size - n) = a.size - n from uint32_of_ufits ⟨by lia, by lia⟩]
  by_cases hexact : a.size - n ≤ SMALLEST_BLK
  · rw [if_pos hexact]
    refine effect_of_counts (fun _ _ => rfl) (fun t ht => ?_) (fun c hc => ?_) (fun b hb => ?_)
      ⟨rfl, rfl⟩
    · exact (congrArg (fun x => int32 (x + h.size a.addr)) ht).trans (int32_int32_add _ _)
    · exact (congrArg (fun x => int32 (x + 1)) hc).trans (int32_int32_add _ _)
    · have hlen := length_delete hplug
      refine hb.trans (congrArg int32 ?_)
      show b = b + (1 + ((plug a.path (merge a.left a.right)).toList.length : ℤ) -
        h._root.toList.length)
      lia
  · rw [if_neg hexact]
    rw [SMALLEST_BLK] at hexact
    have hu1 : nextblk a.addr n = a.addr + n := uint32_of_ufits ⟨by lia, by lia⟩
    rw [hu1]
    have hin : ∀ c ∈ bytes busy, c ∉ span (a.addr, a.size) := fun c hc hs =>
      disjoint_left.mp hg.tiles.apart (span_subset_room hmem hs) hc
    refine effect_of_counts (fun c hc => ?_) (fun t ht => ?_) (fun c hc => ?_) (fun b hb => ?_)
      ⟨rfl, rfl⟩
    · have hout := hin c hc
      refine (load_cons ..).trans ((if_neg ?_).trans ((load_cons ..).trans (if_neg ?_)))
      · rintro rfl
        exact hout ⟨le_refl _, by simp only [hi]; lia⟩
      · rintro rfl
        exact hout ⟨by simp only [lo]; lia, by simp only [hi]; lia⟩
    · exact (congrArg (fun x => int32 (x + _)) ht).trans (int32_int32_add _ _)
    · exact (congrArg (fun x => int32 (x + 1)) hc).trans (int32_int32_add _ _)
    · have hlen := length_demote hplug (a.addr + n) (uint32 (h.size a.addr - n))
      refine ((congrArg (fun x => int32 (x + 1)) hb).trans (int32_int32_add _ _)).trans
        (congrArg int32 ?_)
      show b + 1 = b + (1 + ((plug a.path (demote (a.addr + n) (uint32 (h.size a.addr - n)) a.left
        a.right)).toList.length : ℤ) - h._root.toList.length)
      lia

/-- **`malloc`** counts the block it returns. -/
theorem malloc_effect {nbpg n p : ℤ} (hg : Good h busy) (hpage : 0 < nbpg ∧ 4 ∣ nbpg)
    (hn : 0 < blockSize n)
    (hfit : weight h._root ≤ blockSize n → blockSize n + (nbpg - 1) < 4294967296)
    (h1 : malloc nbpg n h = some (h', p)) :
    p = 0 ∧ Effect h h' (bytes busy) 0 0 ∧ Unchanged h h' ∨
      p ≠ 0 ∧ Effect h h' (bytes busy) (h'.size (p - WORDSIZE)) 1 := by
  obtain ⟨-, hn4, -⟩ := blockSize_spec n
  rcases malloc_cases hg hpage hn hfit h1 with
    ⟨rfl, hw, hcall⟩ | ⟨h2, a, mx, hcall, hg2, hplug, hle, rfl, rfl⟩
  · exact Or.inl ⟨rfl, morecore_effect hg hpage hn (hfit hw) hcall, morecore_null hcall⟩
  · have hmem : (a.addr, a.size) ∈ h2._root.toList := by
      rw [← hplug]
      exact mem_plug_node
    have haddr := (hg2.tiles.freeWhole _ hmem).1.addr.1
    have hback : a.addr + WORDSIZE - WORDSIZE = a.addr := by omega
    refine Or.inr ⟨by rw [WORDSIZE]; simp only at haddr; omega, ?_⟩
    rw [hback]
    have hmore : Effect h h2 (bytes busy) 0 0 := by
      rcases hcall with rfl | ⟨hw, hcall⟩
      · exact .refl
      · exact morecore_effect hg hpage hn (hfit hw) hcall
    exact (hmore.trans (allocate_effect hg2 hplug hn hn4 hle mx)).congr (zero_add _) (zero_add _)

/-! ## shrink -/

/-- The data of a block that `n` bytes are left of. -/
def kept (o n : ℤ) : Set ℤ := Set.Ioo o (o + n)

/-- **`shrink`** counts what it cuts off out. -/
theorem shrink_effect {o s n p : ℤ} (hg : Good h (insert (o, s) busy)) (hout : (o, s) ∉ busy)
    (hn : 0 < n) (hn4 : 4 ∣ n) (hle : n ≤ s) (h1 : shrink o s n h = some (h', p)) :
    p = o + WORDSIZE ∧ n ≤ h'.size o ∧
      Effect h h' (bytes busy ∪ kept o n) (h'.size o - s) 0 := by
  obtain ⟨hwhole, hword⟩ := hg.tiles.busyWhole (o, s) (mem_insert _ _)
  obtain ⟨hs1, hs2, hs3⟩ := hwhole.sound
  unfold shrink at h1
  rw [show uint32 (s - n) = s - n from uint32_of_ufits ⟨by lia, by lia⟩] at h1
  by_cases hbig : s - n ≥ SMALLEST_BLK
  · rw [if_pos hbig] at h1
    rw [SMALLEST_BLK] at hbig
    have hu : nextblk o n = o + n := uint32_of_ufits ⟨by lia, by lia⟩
    simp only [hu] at h1
    obtain ⟨h2, hfree, heq⟩ := Option.map_eq_some_iff.mp h1
    rw [Prod.mk.injEq] at heq
    obtain ⟨rfl, rfl⟩ := heq
    obtain ⟨hgood, hne⟩ := shrink_block hg hout hn hn4 (by lia)
    have hcut := free_effect hgood hne hfree
    have hsize : h2.size o = n := by
      refine (hcut.words o ⟨(o, n), mem_insert _ _,
        ⟨le_refl _, by simp only [hi]; lia⟩⟩).trans ?_
      exact (load_cons ..).trans (if_pos rfl)
    have hstore : Effect h (((h.store (o + n) (s - n)).store o n).stats fun i =>
        { i with ordblks := int32 (i.ordblks + 1), allocated := int32 (i.allocated + 1) })
        (bytes busy ∪ kept o n) 0 1 := by
      refine effect_of_counts (fun a ha => ?_) (fun t ht => by rw [add_zero]; exact ht)
        (fun c hc => ?_) (fun b hb => ?_) ⟨rfl, rfl⟩
      · have hclear : a ≠ o ∧ a ≠ o + n := by
          rcases ha with ⟨b, hb, hab⟩ | ⟨h1, h2⟩
          · have hdis : a ∉ span (o, s) := fun hos =>
              disjoint_left.mp (hg.tiles.busyApart (mem_insert _ _)
                (mem_insert_of_mem _ hb) fun heq => hout (by rw [heq]; exact hb)) hos hab
            constructor
            · rintro rfl
              exact hdis ⟨le_refl _, by simp only [hi]; lia⟩
            · rintro rfl
              exact hdis ⟨by simp only [lo]; lia, by simp only [hi]; lia⟩
          · lia
        exact (load_cons ..).trans ((if_neg hclear.1).trans
          ((load_cons ..).trans (if_neg hclear.2)))
      · exact (congrArg (fun x => int32 (x + 1)) hc).trans (int32_int32_add _ _)
      · refine ((congrArg (fun x => int32 (x + 1)) hb).trans (int32_int32_add _ _)).trans
          (congrArg int32 ?_)
        show b + 1 = b + (1 + (h._root.toList.length : ℤ) - h._root.toList.length)
        ring
    have hkeep : bytes busy ∪ kept o n ⊆ bytes (insert (o, n) busy) := by
      rw [bytes_insert, Set.union_comm]
      exact Set.union_subset_union_left _ fun a ha => ⟨le_of_lt ha.1, ha.2⟩
    refine ⟨rfl, hsize.ge, (hstore.trans (hcut.mono hkeep)).congr ?_ (by simp)⟩
    rw [hsize]
    ring
  · rw [if_neg hbig, Option.some.injEq, Prod.mk.injEq] at h1
    obtain ⟨rfl, rfl⟩ := h1
    have hsize : h.size o = s := hword
    exact ⟨rfl, by rw [hsize]; exact hle, Effect.refl.congr (by rw [hsize]; ring) rfl⟩

/-! ## reclaim -/

/-- The bytes that `reclaim` counts in for the block `(o, w)` of the free block `c`: its own
except at the right end of `c`. -/
def reclaimTotal (c : Block) (o w : ℤ) : ℤ :=
  if c.1 < o ∧ o + w = c.1 + c.2 then 2 * w - c.2 else w

/-- **`reclaim`** counts the block in; on the right end of the free block it counts out as many
bytes as there are left of it. -/
theorem reclaimFrom_effect {o w f : ℤ} {flag : Bool} (hg : Good h busy)
    (hin : StartsIn h a o w) (h1 : reclaimFrom a o w flag h = some (h', f)) :
    f = -1 ∧ Effect h h' (bytes busy) 0 0 ∧ Unchanged h h' ∨
      f = 1 ∧ Effect h h' (bytes (insert (o, w) busy)) (reclaimTotal (a.addr, a.size) o w) 1 := by
  have hlen := length_delete hin.node
  have hcount : ∀ {memory : List (ℤ × ℤ)} {t c b : ℤ} {keep : Set ℤ}, Agree h.memory memory keep →
      b = c - 1 → Effect h (reclaimed a memory { h.__mallinfo with
        ordblks := int32 (h.__mallinfo.ordblks + b)
        uordbytes := int32 (h.__mallinfo.uordbytes + t)
        allocated := int32 (h.__mallinfo.allocated + c) } h) keep t c := by
    intro memory t c b keep hagree hb
    refine effect_of_counts hagree (fun x hx => ?_) (fun x hx => ?_) (fun x hx => ?_) ⟨rfl, rfl⟩
    · exact (congrArg (fun y => int32 (y + t)) hx).trans (int32_int32_add _ _)
    · exact (congrArg (fun y => int32 (y + c)) hx).trans (int32_int32_add _ _)
    · refine ((congrArg (fun y => int32 (y + b)) hx).trans (int32_int32_add _ _)).trans
        (congrArg int32 ?_)
      show x + b = x + (c + ((plug a.path (merge a.left a.right)).toList.length : ℤ) -
        h._root.toList.length)
      lia
  -- no busy block has the start of the free one
  have hclear : a.addr < o → ∀ x ∈ bytes (insert (o, w) busy), x ≠ a.addr := by
    rintro hlt x hx rfl
    rw [bytes_insert] at hx
    rcases hx with hx | hx
    · have := hx.1
      rw [lo] at this
      lia
    · exact hg.not_start hin.mem hx rfl
  rcases reclaimFrom_cases hg hin h1 with
    ⟨rfl, -, -, rfl⟩ | ⟨rfl, ⟨rfl, rfl, rfl⟩ | ⟨hlt, hend, hfree⟩ | ⟨hlt, hend, h2, hfree, hfree'⟩⟩
  · refine Or.inl ⟨rfl, ?_⟩
    cases flag
    · exact ⟨.refl, .refl⟩
    · refine ⟨⟨fun _ _ => rfl, fun t c he => ?_⟩, rfl, rfl, rfl⟩
      rw [add_zero, add_zero]
      exact ⟨he.1, he.2, he.3, he.4, he.5⟩
  · refine Or.inr ⟨rfl, ?_⟩
    rw [reclaimTotal, if_neg (fun hc => lt_irrefl _ hc.1)]
    refine effect_of_counts (fun _ _ => rfl) (fun x hx => ?_) (fun x hx => ?_) (fun x hx => ?_)
      ⟨rfl, rfl⟩
    · exact (congrArg (fun y => int32 (y + a.size)) hx).trans (int32_int32_add _ _)
    · exact (congrArg (fun y => int32 (y + 1)) hx).trans (int32_int32_add _ _)
    · refine hx.trans (congrArg int32 ?_)
      show x = x + (1 + ((plug a.path (merge a.left a.right)).toList.length : ℤ) -
        h._root.toList.length)
      lia
  · obtain ⟨hgood, hne⟩ := hin.right hg hlt hend _
    refine Or.inr ⟨rfl, ((hcount (t := w) (c := 2) (b := 1) (Agree.store _ ?_) rfl).trans
      (free_effect hgood hne hfree)).congr ?_ (by norm_num)⟩
    · exact fun hx => hclear hlt _ hx rfl
    · rw [reclaimTotal, if_pos ⟨hlt, hend⟩]
      lia
  · obtain ⟨hgood, hne, hne'⟩ := hin.middle hg hlt hend _
    obtain ⟨hgood', -⟩ := free_insert_good hgood hne hfree
    have hout : o + w ∉ bytes (insert (o, w) busy) := by
      rw [bytes_insert]
      rintro (hx | hx)
      · have := hx.2
        rw [hi] at this
        lia
      · have hw := hin.whole.sound.2.1
        exact disjoint_left.mp hg.tiles.apart (span_subset_room hin.mem
          ⟨by simp only [lo]; lia, by simp only [hi]; lia⟩) hx
    refine Or.inr ⟨rfl, (((hcount (t := a.size) (c := 3) (b := 2)
      ((Agree.store _ ?_).trans (Agree.store _ hout)) rfl).trans
      ((free_effect hgood hne hfree).mono ?_)).trans (free_effect hgood' hne' hfree')).congr ?_
      (by norm_num)⟩
    · exact fun hx => hclear hlt _ hx rfl
    · exact bytes_mono (Set.subset_insert _ _)
    · rw [reclaimTotal, if_neg (fun hc => absurd hc.2 (by lia))]
      lia

/-! ## realloc -/

variable {nbpg o s n p : ℤ}

/-- Words that are stored one after the other. -/
theorem load_range (dst : ℤ) (f : ℕ → ℤ) {m k : ℕ} (hk : k < m) (memory : List (ℤ × ℤ)) :
    load (dst + 4 * k) ((List.range m).map (fun i : ℕ => (dst + 4 * i, f i)) ++ memory) = f k := by
  induction m generalizing memory with
  | zero => exact absurd hk (Nat.not_lt_zero k)
  | succ m ih =>
    rw [range_succ, map_append, append_assoc, map_singleton,
      singleton_append]
    by_cases hkm : k < m
    · exact ih hkm _
    · obtain rfl : k = m := by omega
      rcases load_append (dst + 4 * k) ((List.range k).map fun i : ℕ => (dst + 4 * i, f i))
        ((dst + 4 * k, f k) :: memory) with heq | ⟨w, hw, heq⟩
      · rw [heq, load_cons, if_pos rfl]
      · obtain ⟨i, hi, rfl⟩ := List.mem_map.mp hw
        rw [mem_range] at hi
        omega

/-- **`realloc` has put a block in the place of `(o, s)`**: it is big enough, starts with the old
contents, and is counted instead of the old one. -/
structure Resized (h h' : heap) (busy : Set Block) (o s n p : ℤ) : Prop where
  ne : p ≠ 0
  fresh : (p - WORDSIZE, h'.size (p - WORDSIZE)) ∉ busy
  size : blockSize n ≤ h'.size (p - WORDSIZE)
  contents : ∀ d, 4 ∣ d → 0 < d → d < s → d < blockSize n →
    load (p - WORDSIZE + d) h'.memory = load (o + d) h.memory
  effect : Effect h h' (bytes busy) (h'.size (p - WORDSIZE) - s) 0

/-- **A block that is moved.** -/
theorem move_effect (hg : Good h (insert (o, s) busy)) (hout : (o, s) ∉ busy)
    (hpage : 0 < nbpg ∧ 4 ∣ nbpg) (hn : 0 < blockSize n) (hlt : s < blockSize n)
    (hfit : weight h._root ≤ blockSize n → blockSize n + (nbpg - 1) < 4294967296)
    (h1 : move nbpg o s n h = some (h', p)) :
    p = 0 ∧ Effect h h' (bytes (insert (o, s) busy)) 0 0 ∧ Unchanged h h' ∨
      Resized h h' busy o s n p := by
  unfold move at h1
  rcases hm : malloc nbpg n h with _ | ⟨h2, q⟩
  · simp only [hm] at h1
    cases h1
  · simp only [hm] at h1
    rcases malloc_effect hg hpage hn hfit hm with ⟨rfl, heff, hsame⟩ | ⟨hq, heff⟩
    · rw [if_neg (by simp), Option.some.injEq, Prod.mk.injEq] at h1
      obtain ⟨rfl, rfl⟩ := h1
      exact Or.inl ⟨rfl, heff, hsame⟩
    · rw [if_pos hq] at h1
      obtain ⟨h3, hfree, heq⟩ := Option.map_eq_some_iff.mp h1
      rw [Prod.mk.injEq] at heq
      obtain ⟨rfl, rfl⟩ := heq
      obtain ⟨b, rfl, hle, hb, hg2⟩ : ∃ b : Block, q = b.1 + WORDSIZE ∧ blockSize n ≤ b.2 ∧
          b ∉ insert (o, s) busy ∧ Good h2 (insert b (insert (o, s) busy)) := by
        rcases malloc_good hg hpage hn hfit hm with ⟨rfl, -⟩ | hgood
        · exact absurd rfl hq
        · exact hgood
      have hback : b.1 + WORDSIZE - WORDSIZE = b.1 := by lia
      rw [hback] at heff
      -- the copy is within the data of the new block
      have hcopy := bcopy_good hg2 (o + WORDSIZE) (mem_insert _ _) (show s < b.2 by lia)
      rw [Set.insert_comm] at hcopy
      have hne : (o, s) ∉ insert b busy := by
        rintro (rfl | hmem)
        · exact hb (mem_insert _ _)
        · exact hout hmem
      have hgive := free_effect hcopy hne hfree
      have hclear : ∀ a, (∀ i : ℕ, (i : ℤ) < s / 4 → a ≠ b.1 + WORDSIZE + 4 * i) →
          load a (bcopy (o + WORDSIZE) (b.1 + WORDSIZE) s h2).memory = load a h2.memory := by
        intro a ha
        rcases load_append a _ h2.memory with heq | ⟨w, hw, rfl⟩
        · exact heq
        · obtain ⟨i, hi, rfl⟩ := List.mem_map.mp hw
          rw [mem_range] at hi
          exact absurd rfl (ha i (by lia))
      have hbw := hg2.tiles.busyWhole b (mem_insert _ _)
      have hsize : h3.size b.1 = b.2 := by
        have hmem : b.1 ∈ bytes (insert b busy) := ⟨b, mem_insert _ _, hbw.1.start_mem⟩
        refine (hgive.words _ hmem).trans ((hclear _ fun i _ => ?_).trans hbw.2)
        rw [WORDSIZE]
        lia
      have hfresh : (b.1, b.2) ∉ busy := fun hmem => hb (mem_insert_of_mem _ hmem)
      refine Or.inr ⟨hq, by rw [hback, hsize]; exact hfresh, by rw [hback, hsize]; exact hle,
        fun d hd4 hd hds _ => ?_, ?_⟩
      · rw [hback]
        have hmem : b.1 + d ∈ bytes (insert b busy) :=
          ⟨b, mem_insert _ _, by rw [lo]; lia, by rw [hi]; lia⟩
        obtain ⟨k, hk⟩ : ∃ k : ℕ, d = 4 * k + 4 := ⟨((d - 4) / 4).toNat, by lia⟩
        have hwrite := load_range (b.1 + WORDSIZE) (fun i : ℕ => h2.size (o + WORDSIZE + 4 * i))
          (show k < (s / 4).toNat by lia) h2.memory
        have hat : b.1 + WORDSIZE + 4 * k = b.1 + d ∧ o + WORDSIZE + 4 * k = o + d := by
          rw [WORDSIZE]
          lia
        rw [hat.1] at hwrite
        have hold : o + d ∈ bytes (insert (o, s) busy) :=
          ⟨(o, s), mem_insert _ _, by simp only [lo]; lia, by simp only [hi]; lia⟩
        rw [hgive.words _ hmem]
        refine (show _ = _ from hwrite).trans ?_
        simp only [hat.2]
        exact heff.words _ hold
      · rw [hback, hsize]
        have hsize2 : h2.size b.1 = b.2 := hbw.2
        rw [hsize2] at heff
        have hmid : Effect h2 (bcopy (o + WORDSIZE) (b.1 + WORDSIZE) s h2) (bytes busy) 0 0 := by
          refine ⟨fun a ha => hclear a fun i hi => ?_, fun t c he => ?_⟩
          · rintro rfl
            have hin : b.1 + WORDSIZE + 4 * i ∈ span b := by
              refine ⟨?_, ?_⟩
              · rw [lo, WORDSIZE]
                lia
              · have hs4 : 4 ∣ s := (hg.tiles.busyWhole (o, s) (mem_insert _ _)).1.size
                rw [FastFits.hi, WORDSIZE]
                lia
            obtain ⟨c, hc, hac⟩ := ha
            have hbc : b ≠ c := fun heq =>
              hb (heq ▸ mem_insert_of_mem _ hc)
            exact disjoint_left.mp (hg2.tiles.busyApart (mem_insert _ _)
              (mem_insert_of_mem _ (mem_insert_of_mem _ hc)) hbc) hin hac
          · rw [add_zero, add_zero]
            exact ⟨he.1, he.2, he.3, he.4, he.5⟩
        have hsub : bytes busy ⊆ bytes (insert (o, s) busy) := bytes_mono (Set.subset_insert _ _)
        have hsub' : bytes busy ⊆ bytes (insert b busy) := bytes_mono (Set.subset_insert _ _)
        exact (((heff.mono hsub).trans hmid).trans (hgive.mono hsub')).congr (by simp only; ring)
          (by norm_num)

/-- **A block that is resized.** -/
theorem resize_effect (hg : Good h (insert (o, s) busy)) (hout : (o, s) ∉ busy)
    (hpage : 0 < nbpg ∧ 4 ∣ nbpg) (hn : 0 < blockSize n)
    (hfit : NeedsCore h o s (blockSize n) → blockSize n + (nbpg - 1) < 4294967296)
    (h1 : resize nbpg o s n h = some (h', p)) :
    p = 0 ∧ Effect h h' (bytes (insert (o, s) busy)) 0 0 ∧ Unchanged h h' ∨
      Resized h h' busy o s n p := by
  obtain ⟨-, hn4, -⟩ := blockSize_spec n
  have hpos := (hg.tiles.busyWhole (o, s) (mem_insert _ _)).1.addr.1
  have hback : o + WORDSIZE - WORDSIZE = o := by lia
  have hne : o + WORDSIZE ≠ 0 := by
    rw [WORDSIZE]
    lia
  have hfresh : ∀ k, (o, k) ∉ busy := fun k => hg.tiles.not_mem_of_start hout
    (hg.tiles.busyWhole (o, s) (mem_insert _ _)).1.start_mem
  rcases resize_cases hg h1 with ⟨hge, hcall⟩ | ⟨hlt, a, hplug, haddr, hroom, hcall⟩ |
    ⟨hlt, hplace, hcall⟩
  · obtain ⟨rfl, hsize, heff⟩ := shrink_effect hg hout hn hn4 hge hcall
    refine Or.inr ⟨hne, by rw [hback]; exact hfresh _, by rwa [hback], fun d _ hd _ hdn => ?_, ?_⟩
    · rw [hback]
      exact heff.words _ (Or.inr ⟨by lia, by lia⟩)
    · rw [hback]
      exact heff.mono Set.subset_union_left
  · obtain ⟨hgood, hout'⟩ := resize_block hg hout hplug haddr _
    obtain ⟨rfl, hsize, heff⟩ := shrink_effect hgood hout' hn hn4 hroom hcall
    have hlen := length_delete hplug
    have hgrow : Effect h (reclaimed a ((o, s + a.size) :: h.memory) { h.__mallinfo with
        ordblks := int32 (h.__mallinfo.ordblks - 1)
        uordbytes := int32 (h.__mallinfo.uordbytes + a.size) } h)
        (bytes busy ∪ kept o (blockSize n)) a.size 0 := by
      refine effect_of_counts (Agree.store _ ?_) (fun x hx => ?_) (fun x hx => ?_) (fun x hx => ?_)
        ⟨rfl, rfl⟩
      · rintro (⟨c, hc, hoc⟩ | hk)
        · have hs2 := (hg.tiles.busyWhole (o, s) (mem_insert _ _)).1.start_mem
          refine disjoint_left.mp (hg.tiles.busyApart (mem_insert _ _)
            (mem_insert_of_mem _ hc) ?_) hs2 hoc
          rintro rfl
          exact hout hc
        · exact lt_irrefl _ hk.1
      · exact (congrArg (fun y => int32 (y + a.size)) hx).trans (int32_int32_add _ _)
      · rw [add_zero]
        exact hx
      · refine ((congrArg (fun y => int32 (y - 1)) hx).trans (int32_int32_sub _ _)).trans
          (congrArg int32 ?_)
        show x - 1 = x + (0 + ((plug a.path (merge a.left a.right)).toList.length : ℤ) -
          h._root.toList.length)
        lia
    have hall := hgrow.trans heff
    refine Or.inr ⟨hne, by rw [hback]; exact hfresh _, by rwa [hback], fun d _ hd _ hdn => ?_, ?_⟩
    · rw [hback]
      exact hall.words _ (Or.inr ⟨by lia, by lia⟩)
    · rw [hback]
      exact (hall.mono Set.subset_union_left).congr (by ring) (by ring)
  · exact move_effect hg hout hpage hn hlt (fun hw => hfit ⟨hlt, hplace, hw⟩) hcall

/-- **`realloc` of a block in free space** counts it in first, if it does not refuse it. -/
theorem realloc_free_effect {nbpg o n p : ℤ} {c : Block} (hg : Good h busy)
    (how : Whole (o, h.size o)) (hc : c ∈ h._root.toList) (ho : o ∈ span c) (hle : h.size o ≤ c.2)
    (hpage : 0 < nbpg ∧ 4 ∣ nbpg) (hn : 0 < blockSize n)
    (hfit : h.size o < blockSize n → blockSize n + (nbpg - 1) < 4294967296)
    (h1 : realloc nbpg (o + WORDSIZE) n h = some (h', p)) :
    p = 0 ∧ Effect h h' (bytes busy) 0 0 ∧ Unchanged h h' ∨
      ∃ h2, (o, h.size o) ∉ busy ∧ Good h2 (insert (o, h.size o) busy) ∧
        Effect h h2 (bytes (insert (o, h.size o) busy)) (reclaimTotal c o (h.size o)) 1 ∧
        (p = 0 ∧ Effect h2 h' (bytes (insert (o, h.size o) busy)) 0 0 ∧ Unchanged h2 h' ∨
          Resized h2 h' busy o (h.size o) n p) := by
  obtain ⟨a, hin, haddr, hsize, -, heq⟩ := realloc_free nbpg n hg how hc ho hle
  rw [heq] at h1
  obtain ⟨⟨h2, f⟩, hfrom, h1⟩ := Option.bind_eq_some_iff.mp h1
  rcases reclaimFrom_effect hg hin hfrom with ⟨rfl, heff, hsame⟩ | ⟨rfl, heff⟩
  · rw [if_pos rfl, Option.some.injEq, Prod.mk.injEq] at h1
    obtain ⟨rfl, rfl⟩ := h1
    exact Or.inl ⟨rfl, heff, hsame⟩
  · rw [if_neg (show ¬ (1 : ℤ) = -1 by decide)] at h1
    rw [haddr, hsize] at heff
    obtain ⟨hout, hg2⟩ : (o, h.size o) ∉ busy ∧ Good h2 (insert (o, h.size o) busy) := by
      rcases reclaimFrom_good hg hin hfrom with ⟨habs, -⟩ | ⟨-, hgood⟩
      · exact absurd habs (by decide)
      · exact hgood
    exact Or.inr ⟨h2, hout, hg2, heff, resize_effect hg2 hout hpage hn (fun hc => hfit hc.small) h1⟩

end Malloc
