/-
# `reclaim` and `realloc`

A block that lies in a free one is taken out of it, with what is left on either side
given back.  Then, as for a busy block, it is shrunk, grown over the free block
after it, or moved.
-/
import SunOS.Libc.MallocFree

namespace Malloc

open Set (insert_comm mem_insert)
open List
open FastFits Segments
open CartesianTree hiding insert

variable {h h' : heap} {busy : Set Block} {root : CartesianTree ℤ ℤ}

/-! ## The searches -/

variable {memory : List (ℤ × ℤ)} {t : CartesianTree ℤ ℤ} {c : Block}

/-- No free block holds `o`: `reclaim` finds none. -/
theorem reclaimSearch_absent {o w : ℤ} (hw : 0 < w)
    (hs : ∀ c ∈ t.toList, Sound c ∧ load c.1 memory = c.2)
    (hout : ∀ c ∈ t.toList, o ∉ span c) (path : List (Crumb ℤ ℤ)) :
    reclaimSearch memory o w t path = .absent := by
  induction t generalizing path with
  | nil => rw [reclaimSearch, if_neg (by omega)]
  | node l b s r ihl ihr =>
    obtain ⟨hsl, ⟨hsb, hword⟩, hsr⟩ := forall_mem_node.mp hs
    obtain ⟨hol, hob, hor⟩ := forall_mem_node.mp hout
    rw [reclaimSearch, hword, show nextblk b s = b + s from nextblk_of_sound hsb]
    by_cases hsize : s ≥ w
    · have hpos := hsb.2.1
      have hob' : ¬ (b ≤ o ∧ o < b + s) := hob
      rw [if_pos hsize, if_neg (by omega)]
      by_cases hlt : o < b
      · rw [if_pos hlt]
        exact ihl hsl hol _
      · rw [if_neg hlt, if_pos (by omega)]
        exact ihr hsr hor _
    · rw [if_neg hsize]

/-- A free block that holds `o` and is large enough is found. -/
theorem reclaimSearch_node {o w : ℤ} (hheap : t.Heap) (hap : Apart lo hi t.toList)
    (hs : ∀ c ∈ t.toList, Sound c ∧ load c.1 memory = c.2) (hc : c ∈ t.toList) (hw : w ≤ c.2)
    (ho : o ∈ span c) (path : List (Crumb ℤ ℤ)) :
    ∃ a, reclaimSearch memory o w t path = .node a ∧ plug a.path a.node = plug path t ∧
      a.addr = c.1 ∧ a.size = c.2 := by
  induction t generalizing path with
  | nil => cases hc
  | node l b s r ihl ihr =>
    obtain ⟨hsl, ⟨hsb, hword⟩, hsr⟩ := forall_mem_node.mp hs
    obtain ⟨hl, hr, hhl, hhr⟩ := heap_node_iff.mp hheap
    rw [toList_node, Apart, pairwise_append, pairwise_cons] at hap
    obtain ⟨hapl, ⟨hbr, hapr⟩, hlb⟩ := hap
    obtain ⟨ho1, ho2⟩ := ho
    have hpos := hsb.2.1
    rw [reclaimSearch, hword, show nextblk b s = b + s from nextblk_of_sound hsb]
    rw [toList_node, mem_append, mem_cons] at hc
    rcases hc with hc | rfl | hc
    · have hle := hl c hc
      have hlt : hi c < b := hlb c hc (b, s) (by simp)
      rw [if_pos (by lia), if_neg (by lia), if_pos (by lia)]
      exact ihl hhl hapl hsl hc _
    · simp only [lo, hi] at hw ho1 ho2
      rw [if_pos hw]
      by_cases heq : o = b
      · rw [if_pos heq]
        exact ⟨_, rfl, rfl, rfl, rfl⟩
      · rw [if_neg heq, if_neg (by lia), if_neg (by lia)]
        exact ⟨_, rfl, rfl, rfl, rfl⟩
    · have hle := hr c hc
      have hlt : b + s < lo c := hbr c hc
      rw [if_pos (by lia), if_neg (by lia), if_neg (by lia), if_pos (by lia)]
      exact ihr hhr hapr hsr hc _

/-- What `realloc` finds is the free block after the old one. -/
theorem neighborSearch_node {q w : ℤ} {path : List (Crumb ℤ ℤ)} {a : Place}
    (h1 : neighborSearch q w t path = .node a) :
    a.addr = q ∧ plug a.path a.node = plug path t := by
  induction t generalizing path with
  | nil =>
    rw [neighborSearch] at h1
    split_ifs at h1
  | node l b s r ihl ihr =>
    rw [neighborSearch] at h1
    split_ifs at h1 with hsize hlt hgt
    · obtain ⟨haddr, hplug⟩ := ihl h1
      exact ⟨haddr, hplug⟩
    · obtain ⟨haddr, hplug⟩ := ihr h1
      exact ⟨haddr, hplug⟩
    · rw [Found.node.injEq] at h1
      rw [← h1]
      exact ⟨by simp only; omega, rfl⟩

/-! ## reclaim -/

/-- The heap without the node `a`, with words stored and the statistics changed. -/
def reclaimed (a : Place) (memory : List (ℤ × ℤ)) (i : mallinfo) (h : heap) : heap :=
  { h with
    _root := plug a.path (merge a.left a.right)
    memory := memory
    __mallinfo := i
    freehdrlist := h.freehdrlist + 1 }

/-- The block `(o, w)` starts in the free block of the node `a`. -/
structure StartsIn (h : heap) (a : Place) (o w : ℤ) : Prop where
  node : plug a.path a.node = h._root
  whole : Whole (o, w)
  word : h.size o = w
  above : a.addr ≤ o
  below : o < a.addr + a.size

section reclaim

variable {a : Place} {o w : ℤ}

variable {flag : Bool}

theorem StartsIn.mem (hin : StartsIn h a o w) : (a.addr, a.size) ∈ h._root.toList := by
  rw [← hin.node]
  exact mem_plug_node

/-- Whatever starts in the free block is not busy. -/
theorem StartsIn.not_busy (hin : StartsIn h a o w) (hg : Good h busy) {c : Block}
    (h1 : a.addr ≤ c.1) (h2 : c.1 < a.addr + a.size) : c ∉ busy :=
  GoodAt.not_mem_busy hg hin.mem ⟨h1, h2⟩

theorem Good.reclaimed {memory : List (ℤ × ℤ)} {busy' : Set Block} (hg : Good h busy)
    (ht : Tiles (plug a.path (merge a.left a.right)) memory busy'
      (cover lo hi h.regions \ cover lo hi h.headers)) (i : mallinfo) :
    Good (reclaimed a memory i h) busy' :=
  ⟨ht, hg.headers, hg.whole, hg.rising, hg.bounds, hg.ends, hg.brk⟩

/-- The free block is busy, as a whole. -/
theorem StartsIn.delete (hin : StartsIn h a o w) (hg : Good h busy) :
    Tiles (plug a.path (merge a.left a.right)) h.memory (insert (a.addr, a.size) busy)
      (cover lo hi h.regions \ cover lo hi h.headers) := by
  have htiles := hg.tiles
  rw [← hin.node] at htiles
  exact htiles.delete

/-- The free block is cut in front of the old one. -/
theorem StartsIn.cut (hin : StartsIn h a o w) (hg : Good h busy) (hlt : a.addr < o)
    (memory : List (ℤ × ℤ)) (hlow : load a.addr memory = o - a.addr)
    (hhigh : load o memory = a.size - (o - a.addr))
    (hagree : ∀ c ∉ span (a.addr, a.size), load c memory = load c h.memory) :
    Tiles (plug a.path (merge a.left a.right)) memory
      (insert (a.addr, o - a.addr) (insert (o, a.size - (o - a.addr)) busy))
      (cover lo hi h.regions \ cover lo hi h.headers) := by
  have hbelow := hin.below
  have ha4 : 4 ∣ a.addr := (hg.tiles.freeWhole _ hin.mem).1.addr.2
  have ho4 : 4 ∣ o := hin.whole.addr.2
  have hcut := (hin.delete hg).cut (k := o - a.addr) memory
    (hin.not_busy hg (le_refl _) (by simp only; lia)) (by lia) (by lia) (by lia) hlow
    (by rw [show a.addr + (o - a.addr) = o by lia]; exact hhigh) hagree
  rwa [show a.addr + (o - a.addr) = o by lia] at hcut

/-- **On the right end of the free block**: what is left of it is a busy block, until it is
freed. -/
theorem StartsIn.right (hin : StartsIn h a o w) (hg : Good h busy) (hlt : a.addr < o)
    (hend : o + w = a.addr + a.size) (i : mallinfo) :
    Good (reclaimed a ((a.addr, o - a.addr) :: h.memory) i h)
      (insert (a.addr, o - a.addr) (insert (o, w) busy)) ∧
      (a.addr, o - a.addr) ∉ insert (o, w) busy := by
  have hsize : a.size - (o - a.addr) = w := by omega
  have hw := hin.whole.sound.2.1
  have htiles := hin.cut hg hlt ((a.addr, o - a.addr) :: h.memory)
    (by rw [load_cons, if_pos rfl])
    (by rw [load_cons, if_neg (by omega), hsize]; exact hin.word) (by
      intro c hc
      rw [load_cons, if_neg]
      rintro rfl
      exact hc ⟨le_refl _, by simp only [hi]; omega⟩)
  rw [hsize] at htiles
  refine ⟨hg.reclaimed htiles i, ?_⟩
  rintro (heq | hmem)
  · rw [Prod.mk.injEq] at heq
    omega
  · exact hin.not_busy hg (le_refl _) (by simp only; omega) hmem

/-- **In the middle of the free block**: what is left on either side is a busy block, until it is
freed. -/
theorem StartsIn.middle (hin : StartsIn h a o w) (hg : Good h busy) (hlt : a.addr < o)
    (hend : o + w < a.addr + a.size) (i : mallinfo) :
    Good (reclaimed a ((o + w, a.addr + a.size - (o + w)) :: (a.addr, o - a.addr) :: h.memory) i h)
      (insert (a.addr, o - a.addr)
        (insert (o + w, a.addr + a.size - (o + w)) (insert (o, w) busy))) ∧
      (a.addr, o - a.addr) ∉ insert (o + w, a.addr + a.size - (o + w)) (insert (o, w) busy) ∧
      (o + w, a.addr + a.size - (o + w)) ∉ insert (o, w) busy := by
  have hw := hin.whole.sound.2.1
  have hbelow := hin.below
  have hsize : a.size - (o - a.addr) - w = a.addr + a.size - (o + w) := by ring
  -- cut off the left part, then cut the rest
  have htiles1 := hin.cut hg hlt ((o, a.size - (o - a.addr)) :: (a.addr, o - a.addr) :: h.memory)
    (by rw [load_cons, if_neg (by lia), load_cons, if_pos rfl])
    (by rw [load_cons, if_pos rfl]) (by
      intro c hc
      rw [load_cons, if_neg, load_cons, if_neg]
      · rintro rfl
        exact hc ⟨le_refl _, by simp only [hi]; lia⟩
      · rintro rfl
        exact hc ⟨hin.above, hbelow⟩)
  rw [insert_comm] at htiles1
  have hout1 : (o, a.size - (o - a.addr)) ∉ insert (a.addr, o - a.addr) busy := by
    rintro (heq | hmem)
    · rw [Prod.mk.injEq] at heq
      lia
    · exact hin.not_busy hg hin.above hbelow hmem
  have htiles2 := htiles1.cut (k := w)
    ((o + w, a.addr + a.size - (o + w)) :: (a.addr, o - a.addr) :: h.memory) hout1 hw (by lia)
    hin.whole.size
    (by
      rw [load_cons, if_neg (by lia), load_cons, if_neg (by lia)]
      exact hin.word)
    (by rw [load_cons, if_pos rfl, hsize]) (by
      intro c hc
      have hc1 : c ≠ o + w := by
        rintro rfl
        exact hc ⟨by simp only [lo]; lia, by simp only [hi]; lia⟩
      have hc2 : c ≠ o := by
        rintro rfl
        exact hc ⟨le_refl _, by simp only [hi]; lia⟩
      simp only [load_cons, if_neg hc1, if_neg hc2])
  rw [hsize, insert_comm (o + w, a.addr + a.size - (o + w)), insert_comm (o, w),
    insert_comm (o, w)] at htiles2
  refine ⟨hg.reclaimed htiles2 i, ?_, ?_⟩
  · rintro (heq | heq | hmem)
    · rw [Prod.mk.injEq] at heq
      lia
    · rw [Prod.mk.injEq] at heq
      lia
    · exact hin.not_busy hg (le_refl _) (by simp only; lia) hmem
  · rintro (heq | hmem)
    · rw [Prod.mk.injEq] at heq
      lia
    · exact hin.not_busy hg (by simp only; lia) (by simp only; lia) hmem

/-- **What `reclaim` does with the block it has found**, when it starts the free block. -/
theorem reclaimFrom_start (flag : Bool) (hstart : o = a.addr) :
    reclaimFrom a o w flag h = some (reclaimed a h.memory { h.__mallinfo with
      uordbytes := int32 (h.__mallinfo.uordbytes + w)
      allocated := int32 (h.__mallinfo.allocated + 1) } h, 1) := by
  unfold reclaimFrom
  rw [if_pos hstart]
  rfl

theorem StartsIn.sizes (hin : StartsIn h a o w) (hg : Good h busy) :
    (0 ≤ a.addr ∧ a.addr + a.size < 4294967296) ∧ (0 < w ∧ o + w < 4294967296) ∧
      load a.addr h.memory = a.size ∧ nextblk o w = o + w ∧
      nextblk a.addr (h.size a.addr) = a.addr + a.size := by
  obtain ⟨hwhole, hasize⟩ := hg.tiles.freeWhole _ hin.mem
  obtain ⟨hs1, hs2, hs3⟩ := hwhole.sound
  obtain ⟨hw1, hw2, hw3⟩ := hin.whole.sound
  refine ⟨⟨hs1, hs3⟩, ⟨hw2, hw3⟩, hasize, uint32_of_ufits ⟨by omega, hw3⟩, ?_⟩
  rw [show h.size a.addr = a.size from hasize]
  exact nextblk_of_sound hwhole.sound

/-- When it runs over the end of the free block. -/
theorem reclaimFrom_straddle (hg : Good h busy) (hin : StartsIn h a o w)
    (hlt : a.addr < o) (hend : a.addr + a.size < o + w) :
    reclaimFrom a o w flag h = some (if flag then error h else h, -1) := by
  obtain ⟨-, -, -, hu1, hu2⟩ := hin.sizes hg
  unfold reclaimFrom
  simp only [hu1, hu2]
  rw [if_neg (by omega), if_pos hend]

/-- When it is at the right end of the free block. -/
theorem reclaimFrom_right (hg : Good h busy) (hin : StartsIn h a o w)
    (hlt : a.addr < o) (hend : o + w = a.addr + a.size) :
    reclaimFrom a o w flag h =
      (free_ (a.addr + WORDSIZE) (reclaimed a ((a.addr, o - a.addr) :: h.memory)
        { h.__mallinfo with
          ordblks := int32 (h.__mallinfo.ordblks + 1)
          uordbytes := int32 (h.__mallinfo.uordbytes + w)
          allocated := int32 (h.__mallinfo.allocated + 2) } h)).map (·, 1) := by
  obtain ⟨⟨hs1, hs3⟩, ⟨hw2, hw3⟩, hasize, hu1, hu2⟩ := hin.sizes hg
  have hu3 : uint32 (load a.addr h.memory - w) = o - a.addr := by
    rw [hasize, show a.size - w = o - a.addr by omega]
    exact uint32_of_ufits ⟨by omega, by omega⟩
  unfold reclaimFrom
  simp only [hu1, hu2]
  rw [if_neg (by omega), if_neg (by omega), if_pos hend]
  simp only [heap.stats, heap.store, putfreehdr, heap.size]
  rw [hu3]
  rfl

/-- When it is in the middle of the free block. -/
theorem reclaimFrom_middle (hg : Good h busy) (hin : StartsIn h a o w)
    (hlt : a.addr < o) (hend : o + w < a.addr + a.size) :
    reclaimFrom a o w flag h =
      (free_ (a.addr + WORDSIZE) (reclaimed a
        ((o + w, a.addr + a.size - (o + w)) :: (a.addr, o - a.addr) :: h.memory)
        { h.__mallinfo with
          ordblks := int32 (h.__mallinfo.ordblks + 2)
          uordbytes := int32 (h.__mallinfo.uordbytes + a.size)
          allocated := int32 (h.__mallinfo.allocated + 3) } h)).bind fun h2 =>
            (free_ (o + w + WORDSIZE) h2).map (·, 1) := by
  obtain ⟨⟨hs1, hs3⟩, ⟨hw2, hw3⟩, hasize, hu1, hu2⟩ := hin.sizes hg
  have hu3 : uint32 (load a.addr h.memory - (a.addr + a.size - o)) = o - a.addr := by
    rw [hasize, show a.size - (a.addr + a.size - o) = o - a.addr by lia]
    exact uint32_of_ufits ⟨by lia, by lia⟩
  have hu4 : uint32 (a.addr + a.size - (o + w)) = a.addr + a.size - (o + w) :=
    uint32_of_ufits ⟨by lia, by lia⟩
  unfold reclaimFrom
  simp only [hu1, hu2]
  rw [if_neg (by lia), if_neg (by lia), if_neg (by lia)]
  simp only [heap.stats, heap.store, putfreehdr, heap.size]
  rw [hu3, hu4, hasize]
  rfl

/-- **All it can do**: it refuses the block, or takes it out of the free block and gives back what
is left. -/
theorem reclaimFrom_cases {f : ℤ} (hg : Good h busy) (hin : StartsIn h a o w)
    (h1 : reclaimFrom a o w flag h = some (h', f)) :
    f = -1 ∧ a.addr < o ∧ a.addr + a.size < o + w ∧ h' = (if flag then error h else h) ∨
    f = 1 ∧ (o = a.addr ∧ w = a.size ∧ h' = reclaimed a h.memory { h.__mallinfo with
          uordbytes := int32 (h.__mallinfo.uordbytes + w)
          allocated := int32 (h.__mallinfo.allocated + 1) } h ∨
      a.addr < o ∧ o + w = a.addr + a.size ∧
        free_ (a.addr + WORDSIZE) (reclaimed a ((a.addr, o - a.addr) :: h.memory)
          { h.__mallinfo with
            ordblks := int32 (h.__mallinfo.ordblks + 1)
            uordbytes := int32 (h.__mallinfo.uordbytes + w)
            allocated := int32 (h.__mallinfo.allocated + 2) } h) = some h' ∨
      a.addr < o ∧ o + w < a.addr + a.size ∧
        ∃ h2, free_ (a.addr + WORDSIZE) (reclaimed a
            ((o + w, a.addr + a.size - (o + w)) :: (a.addr, o - a.addr) :: h.memory)
            { h.__mallinfo with
              ordblks := int32 (h.__mallinfo.ordblks + 2)
              uordbytes := int32 (h.__mallinfo.uordbytes + a.size)
              allocated := int32 (h.__mallinfo.allocated + 3) } h) = some h2 ∧
          free_ (o + w + WORDSIZE) h2 = some h') := by
  have habove := hin.above
  by_cases hstart : o = a.addr
  · rw [reclaimFrom_start flag hstart, Option.some.injEq, Prod.mk.injEq] at h1
    obtain ⟨rfl, rfl⟩ := h1
    have hasize : h.size a.addr = a.size := (hg.tiles.freeWhole _ hin.mem).2
    have hsize : w = a.size := by rw [← hin.word, hstart, hasize]
    exact Or.inr ⟨rfl, Or.inl ⟨hstart, hsize, rfl⟩⟩
  · have hlt : a.addr < o := by omega
    rcases lt_trichotomy (a.addr + a.size) (o + w) with hend | hend | hend
    · rw [reclaimFrom_straddle hg hin hlt hend, Option.some.injEq, Prod.mk.injEq] at h1
      obtain ⟨rfl, rfl⟩ := h1
      exact Or.inl ⟨rfl, hlt, hend, rfl⟩
    · rw [reclaimFrom_right hg hin hlt hend.symm] at h1
      obtain ⟨h2, hfree, heq⟩ := Option.map_eq_some_iff.mp h1
      obtain ⟨rfl, rfl⟩ := heq
      exact Or.inr ⟨rfl, Or.inr (Or.inl ⟨hlt, hend.symm, hfree⟩)⟩
    · rw [reclaimFrom_middle hg hin hlt hend] at h1
      obtain ⟨h2, hfree, h1⟩ := Option.bind_eq_some_iff.mp h1
      obtain ⟨h3, hfree', heq⟩ := Option.map_eq_some_iff.mp h1
      obtain ⟨rfl, rfl⟩ := heq
      exact Or.inr ⟨rfl, Or.inr (Or.inr ⟨hlt, hend, h2, hfree, hfree'⟩)⟩

/-- Taking `(o, w)` out of the free block it starts in, or refusing to. -/
theorem reclaimFrom_good {f : ℤ} (hg : Good h busy) (hin : StartsIn h a o w)
    (h1 : reclaimFrom a o w flag h = some (h', f)) :
    f = -1 ∧ h'._root = h._root ∧ Good h' busy ∨
      f = 1 ∧ (o, w) ∉ busy ∧ Good h' (insert (o, w) busy) := by
  have hout := hin.not_busy hg (c := (o, w)) hin.above hin.below
  rcases reclaimFrom_cases hg hin h1 with
    ⟨rfl, -, -, rfl⟩ | ⟨rfl, ⟨rfl, rfl, rfl⟩ | ⟨hlt, hend, hfree⟩ | ⟨hlt, hend, h2, hfree, hfree'⟩⟩
  · refine Or.inl ⟨rfl, ?_⟩
    cases flag
    · exact ⟨rfl, hg⟩
    · exact ⟨rfl, hg⟩
  · exact Or.inr ⟨rfl, hout, hg.reclaimed (hin.delete hg) _⟩
  · obtain ⟨hgood, hne⟩ := hin.right hg hlt hend _
    exact Or.inr ⟨rfl, hout, (free_insert_good hgood hne hfree).1⟩
  · obtain ⟨hgood, hne, hne'⟩ := hin.middle hg hlt hend _
    obtain ⟨hgood', -⟩ := free_insert_good hgood hne hfree
    exact Or.inr ⟨rfl, hout, (free_insert_good hgood' hne' hfree').1⟩

end reclaim

/-! ## Moving and resizing -/

/-- Words stored all at once: each address is one of theirs or keeps its word. -/
theorem load_append (a : ℤ) (ws memory : List (ℤ × ℤ)) :
    load a (ws ++ memory) = load a memory ∨ ∃ p ∈ ws, a = p.1 := by
  induction ws with
  | nil => exact Or.inl rfl
  | cons p ws ih =>
    rw [cons_append, show p = (p.1, p.2) from rfl, load_cons]
    by_cases ha : a = p.1
    · exact Or.inr ⟨p, by simp, ha⟩
    · rw [if_neg ha]
      rcases ih with ih | ⟨p', hp', ha'⟩
      · exact Or.inl ih
      · exact Or.inr ⟨p', mem_cons_of_mem _ hp', ha'⟩

/-- Copying into the data of a busy block. -/
theorem bcopy_good {n : ℤ} {b : Block} (hg : Good h busy) (src : ℤ) (hb : b ∈ busy)
    (hn : n < b.2) : Good (bcopy src (b.1 + WORDSIZE) n h) busy := by
  refine ⟨hg.tiles.write ?_, hg.headers, hg.whole, hg.rising, hg.bounds, hg.ends, hg.brk⟩
  intro a
  rcases load_append a _ h.memory with heq | ⟨p, hp, rfl⟩
  · exact Or.inl heq
  · obtain ⟨i, hi', rfl⟩ := List.mem_map.mp hp
    rw [mem_range] at hi'
    refine Or.inr (Or.inl ⟨b, hb, ?_, ?_⟩)
    · simp only [WORDSIZE]
      omega
    · simp only [WORDSIZE, hi]
      omega

/-- **The block is moved**: a larger one is busy in its place, or there is none to be
had and the old one stays. -/
theorem move_good {nbpg o s n p : ℤ} (hg : Good h (insert (o, s) busy)) (hout : (o, s) ∉ busy)
    (hpage : 0 < nbpg ∧ 4 ∣ nbpg) (hn : 0 < blockSize n) (hlt : s < blockSize n)
    (hfit : weight h._root ≤ blockSize n → blockSize n + (nbpg - 1) < 4294967296)
    (h1 : move nbpg o s n h = some (h', p)) :
    p = 0 ∧ Good h' (insert (o, s) busy) ∨ ∃ b, p = b.1 + WORDSIZE ∧ Good h' (insert b busy) := by
  unfold move at h1
  rcases hm : malloc nbpg n h with _ | ⟨h2, q⟩
  · simp only [hm] at h1
    cases h1
  · simp only [hm] at h1
    rcases malloc_good hg hpage hn hfit hm with ⟨rfl, hg2⟩ | ⟨b, rfl, hle, hb, hg2⟩
    · rw [if_neg (by simp), Option.some.injEq, Prod.mk.injEq] at h1
      obtain ⟨rfl, rfl⟩ := h1
      exact Or.inl ⟨rfl, hg2⟩
    · have hbpos : 0 < b.1 := (hg2.tiles.busyWhole b (mem_insert _ _)).1.addr.1
      rw [if_pos (by rw [WORDSIZE]; omega)] at h1
      obtain ⟨h3, hfree, heq⟩ := Option.map_eq_some_iff.mp h1
      obtain ⟨rfl, rfl⟩ := heq
      have hcopy := bcopy_good hg2 (o + WORDSIZE) (mem_insert _ _)
        (show s < b.2 by omega)
      rw [insert_comm] at hcopy
      have hne : (o, s) ∉ insert b busy := by
        rintro (rfl | hmem)
        · exact hb (mem_insert _ _)
        · exact hout hmem
      exact Or.inr ⟨b, rfl, (free_insert_good (c := (o, s)) hcopy hne hfree).1⟩

/-- A pointer into the heap passes the first test. -/
theorem in_bounds {o : ℤ} (hg : Good h busy) (ho4 : 4 ∣ o)
    (ho : o ∈ room h._root ∪ bytes busy) :
    ¬ (misaligned (o + WORDSIZE) ∨ o + WORDSIZE < h._lbound ∨ o + WORDSIZE > h._ubound) := by
  rw [hg.tiles.exact] at ho
  obtain ⟨⟨c, hc, hlo, hhi⟩, -⟩ := ho
  obtain ⟨hb1, hb2⟩ := hg.bounds c hc
  have hw := hg.whole c hc
  have h1 := hw.addr.2
  have h2 := hw.size
  simp only [lo, hi] at hlo hhi hb1 hb2
  have hmod : (o + 4) % 4 = 0 := by omega
  rw [misaligned, WORDSIZE, hmod]
  simp only [ne_eq, not_true_eq_false, decide_false, Bool.false_eq_true, false_or]
  omega

/-- The free block after the old one is found. -/
theorem neighborSearch_found {q w : ℤ} (hheap : t.Heap)
    (hap : Apart lo hi t.toList) (hs : ∀ d ∈ t.toList, Sound d) (hc : c ∈ t.toList) (hq : c.1 = q)
    (hw : c.2 = w) (path : List (Crumb ℤ ℤ)) : ∃ a, neighborSearch q w t path = .node a := by
  induction t generalizing path with
  | nil => cases hc
  | node l b s r ihl ihr =>
    obtain ⟨hsl, hsb, hsr⟩ := forall_mem_node.mp hs
    obtain ⟨hl, hr, hhl, hhr⟩ := heap_node_iff.mp hheap
    rw [toList_node, Apart, pairwise_append, pairwise_cons] at hap
    obtain ⟨hapl, ⟨hbr, hapr⟩, hlb⟩ := hap
    have hpos := hsb.2.1
    rw [neighborSearch]
    rw [toList_node, mem_append, mem_cons] at hc
    rcases hc with hc | rfl | hc
    · have hle := hl c hc
      have hlt : hi c < b := hlb c hc (b, s) (by simp)
      have hcpos := (hsl c hc).2.1
      rw [hi] at hlt
      rw [if_pos (by omega), if_pos (by omega)]
      exact ihl hhl hapl hsl hc _
    · simp only at hq hw
      rw [if_pos (by omega), if_neg (by omega), if_neg (by omega)]
      exact ⟨_, rfl⟩
    · have hle := hr c hc
      have hlt : b + s < c.1 := hbr c hc
      rw [if_pos (by omega), if_neg (by omega), if_pos (by omega)]
      exact ihr hhr hapr hsr hc _

/-- The block `(o, s)` cannot grow to `m` bytes in place, and no free block is larger than that:
it takes new core. -/
structure NeedsCore (h : heap) (o s m : ℤ) : Prop where
  small : s < m
  place : ∀ c ∈ h._root.toList, c.1 = o + s → s + c.2 < m
  heaviest : weight h._root ≤ m

/-- **How the old block is resized**: it is cut, or grows over the free block after it, or is
moved. -/
theorem resize_cases {nbpg o s n p : ℤ} (hg : Good h (insert (o, s) busy))
    (h1 : resize nbpg o s n h = some (h', p)) :
    blockSize n ≤ s ∧ shrink o s (blockSize n) h = some (h', p) ∨
      s < blockSize n ∧ (∃ a, plug a.path a.node = h._root ∧ a.addr = o + s ∧
        blockSize n ≤ s + a.size ∧
        shrink o (s + a.size) (blockSize n) (reclaimed a ((o, s + a.size) :: h.memory)
          { h.__mallinfo with
            ordblks := int32 (h.__mallinfo.ordblks - 1)
            uordbytes := int32 (h.__mallinfo.uordbytes + a.size) } h) = some (h', p)) ∨
      s < blockSize n ∧ (∀ c ∈ h._root.toList, c.1 = o + s → s + c.2 < blockSize n) ∧
        move nbpg o s n h = some (h', p) := by
  obtain ⟨hwhole, hword⟩ := hg.tiles.busyWhole (o, s) (mem_insert _ _)
  obtain ⟨hs1, hs2, hs3⟩ := hwhole.sound
  unfold resize at h1
  simp only [show nextblk o s = o + s from uint32_of_ufits ⟨by lia, hs3⟩] at h1
  by_cases hge : s ≥ blockSize n
  · rw [if_pos hge] at h1
    exact Or.inl ⟨hge, h1⟩
  · rw [if_neg hge] at h1
    rw [ge_iff_le, not_le] at hge
    refine Or.inr ?_
    by_cases hlast : o + s < h._ubound
    · rw [if_pos hlast] at h1
      rcases hsearch : neighborSearch (o + s) (h.size (o + s)) h._root [] with a | - | -
      · simp only [hsearch] at h1
        obtain ⟨haddr, hplug⟩ := neighborSearch_node hsearch
        have hplug' : plug a.path a.node = h._root := hplug
        have hmem : (a.addr, a.size) ∈ h._root.toList := by
          rw [← hplug']
          exact mem_plug_node
        obtain ⟨haw, hasize⟩ := hg.tiles.freeWhole _ hmem
        rw [haddr] at hmem haw hasize
        obtain ⟨ha1, ha2, ha3⟩ := haw.sound
        have hasize' : h.size (o + s) = a.size := hasize
        have hu : uint32 (s + h.size (o + s)) = s + a.size := by
          rw [hasize']
          exact uint32_of_ufits ⟨by lia, by lia⟩
        simp only [hu] at h1
        by_cases hroom : s + a.size ≥ blockSize n
        · rw [if_pos hroom, hasize'] at h1
          exact Or.inl ⟨hge, a, hplug', haddr, hroom, h1⟩
        · rw [if_neg hroom] at h1
          refine Or.inr ⟨hge, fun c hc hco => ?_, h1⟩
          -- the free block after the old one is that of the node
          have hword' := (hg.tiles.freeWhole c hc).2
          rw [hco, hasize] at hword'
          lia
      · simp only [hsearch] at h1
        refine Or.inr ⟨hge, fun c hc hco => ?_, h1⟩
        have hword' : h.size c.1 = c.2 := (hg.tiles.freeWhole c hc).2
        rw [hco] at hword'
        obtain ⟨a, ha⟩ := neighborSearch_found hg.tiles.free.heap hg.tiles.free.apart
          hg.tiles.free.sound hc hco hword'.symm []
        rw [hsearch] at ha
        cases ha
      · simp only [hsearch] at h1
        cases h1
    · rw [if_neg hlast] at h1
      refine Or.inr ⟨hge, fun c hc hco => ?_, h1⟩
      have hcw := (hg.tiles.freeWhole c hc).1
      have hbound := in_bounds hg hcw.addr.2 (Or.inl (span_subset_room hc hcw.start_mem))
      rw [WORDSIZE] at hbound
      lia

/-- The old block, joined to the free one after it. -/
theorem resize_block {o s : ℤ} {a : Place} (hg : Good h (insert (o, s) busy))
    (hout : (o, s) ∉ busy) (hplug : plug a.path a.node = h._root) (haddr : a.addr = o + s)
    (i : mallinfo) : Good (reclaimed a ((o, s + a.size) :: h.memory) i h)
      (insert (o, s + a.size) busy) ∧ (o, s + a.size) ∉ busy := by
  have hmem : (a.addr, a.size) ∈ h._root.toList := by
    rw [← hplug]
    exact mem_plug_node
  obtain ⟨haw, -⟩ := hg.tiles.freeWhole _ hmem
  rw [haddr] at hmem haw
  have ha2 := haw.sound.2.1
  have hs2 := (hg.tiles.busyWhole (o, s) (mem_insert _ _)).1.sound.2.1
  have htiles := hg.tiles
  rw [← hplug] at htiles
  have hdel := htiles.delete
  rw [haddr, insert_comm] at hdel
  have hjoin := hdel.join ((o, s + a.size) :: h.memory) hout
    (fun hc => GoodAt.not_mem_busy hg hmem haw.start_mem (Set.mem_insert_of_mem _ hc))
    (by rw [load_cons, if_pos rfl]) (by
      intro c hc
      rw [load_cons, if_neg]
      rintro rfl
      exact hc ⟨le_refl _, by simp only [hi]; omega⟩)
  exact ⟨hg.reclaimed hjoin i,
    hg.tiles.not_mem_of_start hout ⟨le_refl _, by simp only [hi]; omega⟩⟩

/-- **The old block, out of free space, is resized.** -/
theorem resize_good {nbpg o s n p : ℤ} (hg : Good h (insert (o, s) busy)) (hout : (o, s) ∉ busy)
    (hpage : 0 < nbpg ∧ 4 ∣ nbpg) (hn : 0 < blockSize n)
    (hfit : NeedsCore h o s (blockSize n) → blockSize n + (nbpg - 1) < 4294967296)
    (h1 : resize nbpg o s n h = some (h', p)) :
    p = 0 ∧ Good h' (insert (o, s) busy) ∨ ∃ b, p = b.1 + WORDSIZE ∧ Good h' (insert b busy) := by
  obtain ⟨-, hn4, -⟩ := blockSize_spec n
  rcases resize_cases hg h1 with ⟨hge, hcall⟩ | ⟨hlt, a, hplug, haddr, hroom, hcall⟩ |
    ⟨hlt, hplace, hcall⟩
  · obtain ⟨rfl, k, hk⟩ := shrink_good hg hout hn hn4 hge hcall
    exact Or.inr ⟨(o, k), rfl, hk⟩
  · obtain ⟨hgood, hout'⟩ := resize_block hg hout hplug haddr _
    obtain ⟨rfl, k, hk⟩ := shrink_good hgood hout' hn hn4 hroom hcall
    exact Or.inr ⟨(o, k), rfl, hk⟩
  · exact move_good hg hout hpage hn hlt (fun hw => hfit ⟨hlt, hplace, hw⟩) hcall

/-! ## realloc -/

/-- A busy block is not found in free space. -/
theorem realloc_busy {nbpg o s : ℤ} (hg : Good h (insert (o, s) busy)) (n : ℤ) :
    reclaim o s true h = some (h, 0) ∧
      realloc nbpg (o + WORDSIZE) n h = resize nbpg o s n h := by
  obtain ⟨hwhole, hword⟩ := hg.tiles.busyWhole (o, s) (mem_insert _ _)
  have hin : o ∈ bytes (insert (o, s) busy) := span_subset (mem_insert _ _) hwhole.start_mem
  have hsub : o + WORDSIZE - WORDSIZE = o := by omega
  have habsent : reclaim o s true h = some (h, 0) := by
    unfold reclaim
    rw [reclaimSearch_absent hwhole.sound.2.1
      (fun c hc => ⟨(hg.tiles.freeWhole c hc).1.sound, (hg.tiles.freeWhole c hc).2⟩)
      (fun c hc ho => Set.disjoint_left.mp hg.tiles.apart (span_subset_room hc ho) hin)]
  refine ⟨habsent, ?_⟩
  unfold realloc
  rw [if_neg (in_bounds hg hwhole.addr.2 (Or.inr hin))]
  simp only [hsub]
  rw [show h.size o = s from hword, habsent]
  exact if_neg (by decide)

/-- **`realloc` of a busy block** leaves a block in its place, or fails and leaves it. -/
theorem realloc_busy_good {nbpg o s n p : ℤ} (hg : Good h (insert (o, s) busy))
    (hout : (o, s) ∉ busy) (hpage : 0 < nbpg ∧ 4 ∣ nbpg) (hn : 0 < blockSize n)
    (hfit : NeedsCore h o s (blockSize n) → blockSize n + (nbpg - 1) < 4294967296)
    (h1 : realloc nbpg (o + WORDSIZE) n h = some (h', p)) :
    p = 0 ∧ Good h' (insert (o, s) busy) ∨ ∃ b, p = b.1 + WORDSIZE ∧ Good h' (insert b busy) := by
  rw [(realloc_busy hg n).2] at h1
  exact resize_good hg hout hpage hn hfit h1

/-- A block in free space is found there, and refused or taken out first. -/
theorem realloc_free {o : ℤ} (nbpg n : ℤ) (hg : Good h busy)
    (how : Whole (o, h.size o)) (hc : c ∈ h._root.toList) (ho : o ∈ span c) (hle : h.size o ≤ c.2) :
    ∃ a, StartsIn h a o (h.size o) ∧ a.addr = c.1 ∧ a.size = c.2 ∧
      reclaim o (h.size o) true h = reclaimFrom a o (h.size o) true h ∧
      realloc nbpg (o + WORDSIZE) n h = (reclaimFrom a o (h.size o) true h).bind fun x =>
        if x.2 = -1 then some (x.1, 0) else resize nbpg o (h.size o) n x.1 := by
  have hsub : o + WORDSIZE - WORDSIZE = o := by omega
  have hin : o ∈ room h._root := span_subset_room hc ho
  obtain ⟨a, hfound, hplug, haddr, hsize⟩ := reclaimSearch_node hg.tiles.free.heap
    hg.tiles.free.apart
    (fun d hd => ⟨(hg.tiles.freeWhole d hd).1.sound, (hg.tiles.freeWhole d hd).2⟩) hc hle ho []
  obtain ⟨hlo, hhi⟩ := ho
  rw [lo, ← haddr] at hlo
  rw [hi, ← haddr, ← hsize] at hhi
  have hcall : reclaim o (h.size o) true h = reclaimFrom a o (h.size o) true h := by
    unfold reclaim
    simp only [hfound]
  refine ⟨a, ⟨hplug, how, rfl, hlo, hhi⟩, haddr, hsize, hcall, ?_⟩
  unfold realloc
  rw [if_neg (in_bounds hg how.addr.2 (Or.inl hin))]
  simp only [hsub, hcall]
  cases reclaimFrom a o (h.size o) true h with
  | none => rfl
  | some x => rfl

/-- **`realloc` of a block in free space** leaves a block in its place; or fails, with
the old block out of free space if it was not across the end of the free block. -/
theorem realloc_free_good {nbpg o n p : ℤ} (hg : Good h busy)
    (how : Whole (o, h.size o)) (hc : c ∈ h._root.toList) (ho : o ∈ span c) (hle : h.size o ≤ c.2)
    (hpage : 0 < nbpg ∧ 4 ∣ nbpg) (hn : 0 < blockSize n)
    (hfit : h.size o < blockSize n → blockSize n + (nbpg - 1) < 4294967296)
    (h1 : realloc nbpg (o + WORDSIZE) n h = some (h', p)) :
    p = 0 ∧ (o ∈ room h'._root ∧ Good h' busy ∨
        o ∉ room h'._root ∧ Good h' (insert (o, h.size o) busy)) ∨
      ∃ b, p = b.1 + WORDSIZE ∧ Good h' (insert b busy) := by
  obtain ⟨a, hin, -, -, -, heq⟩ := realloc_free nbpg n hg how hc ho hle
  rw [heq] at h1
  obtain ⟨⟨h2, f⟩, hfrom, h1⟩ := Option.bind_eq_some_iff.mp h1
  rcases reclaimFrom_good hg hin hfrom with ⟨rfl, hroot, hg2⟩ | ⟨rfl, hout, hg2⟩
  · rw [if_pos rfl, Option.some.injEq, Prod.mk.injEq] at h1
    obtain ⟨rfl, rfl⟩ := h1
    exact Or.inl ⟨rfl, Or.inl ⟨by rw [hroot]; exact span_subset_room hc ho, hg2⟩⟩
  · rw [if_neg (show ¬ (1 : ℤ) = -1 by decide)] at h1
    rcases resize_good hg2 hout hpage hn (fun hc => hfit hc.small) h1 with ⟨rfl, hg'⟩ | hb
    · refine Or.inl ⟨rfl, Or.inr ⟨fun hfree => ?_, hg'⟩⟩
      exact Set.disjoint_left.mp hg'.tiles.apart hfree
        (span_subset (mem_insert _ _) how.start_mem)
    · exact Or.inr hb

end Malloc
