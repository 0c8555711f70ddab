/-
# Free and busy blocks tile the heap

`Tiles root memory busy used` says that the free blocks in the tree and the busy
blocks make up the bytes `used` without overlapping, and that each starts with a
word that holds its size.  The rules below say how the operations' steps retile:
taking a free block, giving a busy one back, cutting a busy block in two, joining
two, and storing words.
-/
import SunOS.Libc.Malloc
import Mathlib.Data.Set.Pairwise.Basic

namespace Malloc

open Set
open List
open FastFits Segments
open CartesianTree hiding insert

/-- The bytes of a block. -/
def span (b : Block) : Set ℤ := Set.Ico (lo b) (hi b)

/-- The bytes of a set of blocks. -/
def bytes (s : Set Block) : Set ℤ := {u | ∃ b ∈ s, u ∈ span b}

/-- A block of whole words. -/
structure Whole (b : Block) : Prop where
  sound : Sound b
  addr : 0 < b.1 ∧ 4 ∣ b.1
  size : 4 ∣ b.2

theorem Whole.start_mem {b : Block} (h : Whole b) : b.1 ∈ span b := by
  have := h.sound.2.1
  exact ⟨le_refl _, by rw [hi]; omega⟩

theorem bytes_mono {s t : Set Block} (h : s ⊆ t) : bytes s ⊆ bytes t :=
  fun _ ⟨b, hb, hu⟩ => ⟨b, h hb, hu⟩

theorem span_subset {s : Set Block} {b : Block} (hb : b ∈ s) : span b ⊆ bytes s :=
  fun _ hu => ⟨b, hb, hu⟩

@[simp] theorem bytes_empty : bytes ∅ = ∅ := by
  ext u
  simp [bytes]

@[simp] theorem bytes_insert (b : Block) (s : Set Block) :
    bytes (insert b s) = span b ∪ bytes s := by
  ext u
  simp [bytes]

/-- Removing a block removes its bytes. -/
theorem bytes_erase {s : Set Block} {b : Block} (h : s.PairwiseDisjoint span) (hb : b ∈ s) :
    bytes (s \ {b}) = bytes s \ span b := by
  ext u
  constructor
  · rintro ⟨c, ⟨hc, hne⟩, hu⟩
    exact ⟨⟨c, hc, hu⟩, fun hub => Set.disjoint_left.mp (h hc hb hne) hu hub⟩
  · rintro ⟨⟨c, hc, hu⟩, hub⟩
    refine ⟨c, ⟨hc, ?_⟩, hu⟩
    rintro rfl
    exact hub hu

theorem span_subset_room {t : CartesianTree ℤ ℤ} {b : Block} (hb : b ∈ t.toList) :
    span b ⊆ room t := fun _ hu => ⟨b, hb, hu⟩

/-- The free blocks of `root` and the blocks `busy` tile the bytes `used`. -/
structure Tiles (root : CartesianTree ℤ ℤ) (memory : List (ℤ × ℤ)) (busy : Set Block)
    (used : Set ℤ) : Prop where
  free : Valid root
  freeWhole : ∀ b ∈ root.toList, Whole b ∧ load b.1 memory = b.2
  busyWhole : ∀ b ∈ busy, Whole b ∧ load b.1 memory = b.2
  busyApart : busy.PairwiseDisjoint span
  apart : Disjoint (room root) (bytes busy)
  exact : room root ∪ bytes busy = used

variable {root : CartesianTree ℤ ℤ} {memory memory' : List (ℤ × ℤ)} {busy : Set Block}
  {used : Set ℤ}

/-! ## Storing words -/

/-- Memories that agree on the bytes `s`. -/
def Agree (memory memory' : List (ℤ × ℤ)) (s : Set ℤ) : Prop :=
  ∀ a ∈ s, load a memory' = load a memory

theorem load_cons (a c v : ℤ) (memory : List (ℤ × ℤ)) :
    load a ((c, v) :: memory) = if a = c then v else load a memory := by
  unfold load
  rw [lookup_cons]
  by_cases h : a = c
  · rw [if_pos h, beq_iff_eq.mpr h]
    rfl
  · rw [if_neg h, beq_eq_false_iff_ne.mpr h]

theorem Agree.store {s : Set ℤ} {a : ℤ} (v : ℤ) (ha : a ∉ s) :
    Agree memory ((a, v) :: memory) s := by
  intro c hc
  rw [load_cons, if_neg]
  rintro rfl
  exact ha hc

theorem Agree.trans {m1 m2 m3 : List (ℤ × ℤ)} {s : Set ℤ} (h1 : Agree m1 m2 s)
    (h2 : Agree m2 m3 s) : Agree m1 m3 s :=
  fun a ha => (h2 a ha).trans (h1 a ha)

theorem Agree.mono {s t : Set ℤ} (h : Agree memory memory' t) (hst : s ⊆ t) :
    Agree memory memory' s :=
  fun a ha => h a (hst ha)

/-- Only the words at the starts of blocks matter. -/
theorem Tiles.frame (h : Tiles root memory busy used)
    (hfree : ∀ b ∈ root.toList, load b.1 memory' = load b.1 memory)
    (hbusy : ∀ b ∈ busy, load b.1 memory' = load b.1 memory) : Tiles root memory' busy used :=
  ⟨h.free, fun b hb => ⟨(h.freeWhole b hb).1, (hfree b hb).trans (h.freeWhole b hb).2⟩,
    fun b hb => ⟨(h.busyWhole b hb).1, (hbusy b hb).trans (h.busyWhole b hb).2⟩,
    h.busyApart, h.apart, h.exact⟩

/-- Words inside busy blocks and outside the heap are the callers'. -/
theorem Tiles.write (h : Tiles root memory busy used)
    (hw : ∀ a, load a memory' = load a memory ∨
      (∃ b ∈ busy, b.1 < a ∧ a < hi b) ∨ a ∉ used) : Tiles root memory' busy used := by
  have hstart : ∀ b : Block, Whole b → span b ⊆ used → (b ∈ busy ∨ b ∈ root.toList) →
      load b.1 memory' = load b.1 memory := by
    intro b hb hsub hmem
    rcases hw b.1 with heq | ⟨c, hc, hlt, hhi⟩ | hout
    · exact heq
    · exfalso
      have hin : b.1 ∈ span c := ⟨le_of_lt hlt, hhi⟩
      rcases hmem with hmem | hmem
      · by_cases hbc : b = c
        · rw [hbc] at hlt
          exact lt_irrefl _ hlt
        · exact Set.disjoint_left.mp (h.busyApart hmem hc hbc) hb.start_mem hin
      · exact Set.disjoint_left.mp h.apart (span_subset_room hmem hb.start_mem)
          (span_subset hc hin)
    · exact absurd (hsub hb.start_mem) hout
  refine h.frame ?_ ?_
  · intro b hb
    refine hstart b (h.freeWhole b hb).1 ?_ (Or.inr hb)
    rw [← h.exact]
    exact (span_subset_room hb).trans subset_union_left
  · intro b hb
    refine hstart b (h.busyWhole b hb).1 ?_ (Or.inl hb)
    rw [← h.exact]
    exact (span_subset hb).trans subset_union_right

theorem Tiles.store {a : ℤ} (v : ℤ) (h : Tiles root memory busy used)
    (ha : (∃ b ∈ busy, b.1 < a ∧ a < hi b) ∨ a ∉ used) :
    Tiles root ((a, v) :: memory) busy used := by
  refine h.write fun c => ?_
  by_cases hc : c = a
  · rw [hc]
    exact Or.inr ha
  · exact Or.inl (by rw [load_cons, if_neg hc])

/-- A block that starts inside a busy one is no other busy block. -/
theorem Tiles.not_mem_of_start {c d : Block} (h : Tiles root memory (insert d busy) used)
    (hd : d ∉ busy) (hc : c.1 ∈ span d) : c ∉ busy := by
  intro hmem
  have hstart := (h.busyWhole c (mem_insert_of_mem _ hmem)).1.start_mem
  refine Set.disjoint_left.mp (h.busyApart (mem_insert _ _) (mem_insert_of_mem _ hmem) ?_)
    hc hstart
  rintro rfl
  exact hd hmem

/-! ## Busy blocks -/

/-- Replacing busy blocks of a range by others that make up the same range. -/
theorem Tiles.retile (h : Tiles root memory busy used) (old new : Set Block) (hold : old ⊆ busy)
    (hbytes : bytes new = bytes old) (hnew : new.PairwiseDisjoint span)
    (hwhole : ∀ b ∈ new, Whole b ∧ load b.1 memory' = b.2)
    (hagree : ∀ a ∉ bytes old, load a memory' = load a memory) :
    Tiles root memory' (busy \ old ∪ new) used := by
  have hout : ∀ b ∈ busy \ old, Disjoint (span b) (bytes old) := by
    intro b hb
    rw [Set.disjoint_left]
    rintro u hu ⟨c, hc, huc⟩
    have hne : b ≠ c := by
      rintro rfl
      exact hb.2 hc
    exact Set.disjoint_left.mp (h.busyApart hb.1 (hold hc) hne) hu huc
  have hall : bytes (busy \ old ∪ new) = bytes busy := by
    ext u
    constructor
    · rintro ⟨b, hb | hb, hu⟩
      · exact ⟨b, hb.1, hu⟩
      · have hu' : u ∈ bytes old := by
          rw [← hbytes]
          exact ⟨b, hb, hu⟩
        exact bytes_mono hold hu'
    · rintro ⟨b, hb, hu⟩
      by_cases hbo : b ∈ old
      · have hu' : u ∈ bytes new := by
          rw [hbytes]
          exact ⟨b, hbo, hu⟩
        obtain ⟨c, hc, huc⟩ := hu'
        exact ⟨c, Or.inr hc, huc⟩
      · exact ⟨b, Or.inl ⟨hb, hbo⟩, hu⟩
  refine ⟨h.free, ?_, ?_, ?_, by rw [hall]; exact h.apart, by rw [hall]; exact h.exact⟩
  · intro b hb
    obtain ⟨hb', hw⟩ := h.freeWhole b hb
    refine ⟨hb', ?_⟩
    rw [hagree, hw]
    intro hin
    exact Set.disjoint_left.mp h.apart (span_subset_room hb hb'.start_mem) (bytes_mono hold hin)
  · rintro b (hb | hb)
    · obtain ⟨hb', hw⟩ := h.busyWhole b hb.1
      refine ⟨hb', ?_⟩
      rw [hagree, hw]
      exact fun hin => Set.disjoint_left.mp (hout b hb) hb'.start_mem hin
    · exact hwhole b hb
  · rintro b (hb | hb) c (hc | hc) hne
    · exact h.busyApart hb.1 hc.1 hne
    · have := (hout b hb).mono_right (hbytes ▸ span_subset hc)
      exact this
    · have := (hout c hc).mono_right (hbytes ▸ span_subset hb)
      exact this.symm
    · exact hnew hb hc hne

/-- The two halves of a block. -/
theorem span_cut {o s k : ℤ} (hk : 0 < k) (hks : k < s) :
    span (o, s) = span (o, k) ∪ span (o + k, s - k) ∧
      Disjoint (span (o, k)) (span (o + k, s - k)) := by
  constructor
  · ext u
    simp only [span, lo, hi, mem_union, Set.mem_Ico]
    omega
  · rw [Set.disjoint_left]
    intro u h1 h2
    simp only [span, lo, hi, Set.mem_Ico] at h1 h2
    omega

theorem Whole.cut {o s k : ℤ} (h : Whole (o, s)) (hk : 0 < k) (hks : k < s) (hk4 : 4 ∣ k) :
    Whole (o, k) ∧ Whole (o + k, s - k) := by
  obtain ⟨⟨h1, h2, h3⟩, ⟨h4, h5⟩, h6⟩ := h
  exact ⟨⟨⟨h1, hk, by simp only; lia⟩, ⟨h4, h5⟩, hk4⟩,
    ⟨⟨by simp only; lia, by simp only; lia, by simp only; lia⟩,
      ⟨by simp only; lia, by simp only; lia⟩, by simp only; lia⟩⟩

theorem pairwiseDisjoint_pair {b c : Block} (h : Disjoint (span b) (span c)) :
    ({b, c} : Set Block).PairwiseDisjoint span := by
  rintro x (rfl | rfl) y (rfl | rfl) hne
  · exact absurd rfl hne
  · exact h
  · exact h.symm
  · exact absurd rfl hne

theorem insert_sdiff_union {b : Block} {new : Set Block} (hb : b ∉ busy) :
    insert b busy \ {b} ∪ new = new ∪ busy := by
  rw [insert_sdiff_self_of_notMem hb, union_comm]

/-- A busy block may be cut in two. -/
theorem Tiles.cut {o s k : ℤ} (h : Tiles root memory (insert (o, s) busy) used)
    (memory' : List (ℤ × ℤ))
    (hout : (o, s) ∉ busy) (hk : 0 < k) (hks : k < s) (hk4 : 4 ∣ k) (hlow : load o memory' = k)
    (hhigh : load (o + k) memory' = s - k) (hagree : ∀ a ∉ span (o, s),
      load a memory' = load a memory) :
    Tiles root memory' (insert (o, k) (insert (o + k, s - k) busy)) used := by
  obtain ⟨hspan, hdis⟩ := span_cut (o := o) hk hks
  obtain ⟨hlowWhole, hhighWhole⟩ :=
    (h.busyWhole (o, s) (mem_insert _ _)).1.cut hk hks hk4
  have hbytes : bytes {(o, k), (o + k, s - k)} = bytes {(o, s)} := by
    rw [← insert_empty_eq (o, s), ← insert_empty_eq (o + k, s - k)]
    simp only [bytes_insert, bytes_empty, union_empty, hspan]
  have hsingle : bytes {(o, s)} = span (o, s) := by
    rw [← insert_empty_eq (o, s)]
    simp only [bytes_insert, bytes_empty, union_empty]
  have hre := h.retile {(o, s)} {(o, k), (o + k, s - k)} (by simp) hbytes
    (pairwiseDisjoint_pair hdis) (by
      rintro b (rfl | rfl)
      · exact ⟨hlowWhole, hlow⟩
      · exact ⟨hhighWhole, hhigh⟩) (by
      rw [hsingle]
      exact hagree)
  rw [insert_sdiff_union hout, insert_union, singleton_union] at hre
  exact hre

/-- Two busy blocks, one after the other, may be joined. -/
theorem Tiles.join {o s t : ℤ} (h : Tiles root memory (insert (o, s) (insert (o + s, t) busy)) used)
    (memory' : List (ℤ × ℤ))
    (hout1 : (o, s) ∉ busy) (hout2 : (o + s, t) ∉ busy) (hword : load o memory' = s + t)
    (hagree : ∀ a ∉ span (o, s + t), load a memory' = load a memory) :
    Tiles root memory' (insert (o, s + t) busy) used := by
  have h1 := (h.busyWhole (o, s) (by simp)).1
  have h2 := (h.busyWhole (o + s, t) (by simp)).1
  have hs : 0 < s := h1.sound.2.1
  have ht : 0 < t := h2.sound.2.1
  obtain ⟨hspan, -⟩ := span_cut (o := o) (s := s + t) (k := s) hs (by lia)
  rw [show s + t - s = t by lia] at hspan
  have hbytes : bytes {(o, s + t)} = bytes {(o, s), (o + s, t)} := by
    rw [← insert_empty_eq (o, s + t), ← insert_empty_eq (o + s, t)]
    simp only [bytes_insert, bytes_empty, union_empty, hspan]
  have hwhole : Whole (o, s + t) := by
    have h3 := h2.sound.2.2
    have h4 := h1.size
    have h5 := h2.size
    exact ⟨⟨h1.sound.1, by simp only; lia, by simp only; lia⟩, h1.addr, by simp only; lia⟩
  have hre := h.retile {(o, s), (o + s, t)} {(o, s + t)} (by
      rintro b (rfl | rfl)
      · simp
      · simp) hbytes (pairwiseDisjoint_singleton _ _) (by
      rintro b rfl
      exact ⟨hwhole, hword⟩) (by
      rw [← hbytes, ← insert_empty_eq (o, s + t)]
      simpa only [bytes_insert, bytes_empty, union_empty] using hagree)
  have hset : insert (o, s) (insert (o + s, t) busy) \ {(o, s), (o + s, t)} = busy := by
    ext x
    simp only [mem_sdiff, mem_insert_iff, mem_singleton_iff, not_or]
    constructor
    · rintro ⟨hx | hx | hx, hx1, hx2⟩
      · exact absurd hx hx1
      · exact absurd hx hx2
      · exact hx
    · intro hx
      refine ⟨Or.inr (Or.inr hx), ?_, ?_⟩
      · rintro rfl
        exact hout1 hx
      · rintro rfl
        exact hout2 hx
  rw [hset, union_comm, singleton_union] at hre
  exact hre

/-- A new busy block outside the heap. -/
theorem Tiles.add {b : Block} (h : Tiles root memory busy used) (hb : Whole b)
    (hw : load b.1 memory' = b.2) (hdis : Disjoint (span b) used)
    (hagree : Agree memory memory' used) :
    Tiles root memory' (insert b busy) (used ∪ span b) := by
  have hroom : room root ⊆ used := by
    rw [← h.exact]
    exact subset_union_left
  have hbusy : bytes busy ⊆ used := by
    rw [← h.exact]
    exact subset_union_right
  have hframe : Tiles root memory' busy used := by
    refine h.frame ?_ ?_
    · exact fun c hc => hagree _ (hroom (span_subset_room hc (h.freeWhole c hc).1.start_mem))
    · exact fun c hc => hagree _ (hbusy (span_subset hc (h.busyWhole c hc).1.start_mem))
  refine ⟨hframe.free, hframe.freeWhole, ?_, ?_, ?_, ?_⟩
  · rintro c (rfl | hc)
    · exact ⟨hb, hw⟩
    · exact hframe.busyWhole c hc
  · refine h.busyApart.insert ?_
    intro c hc _
    exact hdis.mono_right ((span_subset hc).trans hbusy)
  · rw [bytes_insert]
    exact Set.disjoint_union_right.mpr ⟨(hdis.mono_right hroom).symm, h.apart⟩
  · rw [bytes_insert, ← h.exact]
    ext u
    simp only [mem_union]
    tauto

/-! ## Taking a free block -/

variable {l r : CartesianTree ℤ ℤ} {b s : ℤ} {path : List (Crumb ℤ ℤ)}

theorem mem_plug_node : (b, s) ∈ (plug path (node l b s r)).toList := by simp

/-- The block of a deleted node becomes busy. -/
theorem Tiles.delete (h : Tiles (plug path (node l b s r)) memory busy used) :
    Tiles (plug path (merge l r)) memory (insert (b, s) busy) used := by
  obtain ⟨hvalid, hroom⟩ := h.free.delete
  have hin : span (b, s) ⊆ room (plug path (node l b s r)) := span_subset_room mem_plug_node
  have hroom' : room (plug path (merge l r)) = room (plug path (node l b s r)) \ span (b, s) :=
    hroom
  refine ⟨hvalid, ?_, ?_, ?_, ?_, ?_⟩
  · intro c hc
    refine h.freeWhole c ?_
    simp only [toList_plug, toList_merge, toList_node, mem_append, mem_cons] at hc ⊢
    tauto
  · rintro c (rfl | hc)
    · exact h.freeWhole _ mem_plug_node
    · exact h.busyWhole c hc
  · refine h.busyApart.insert ?_
    intro c hc _
    exact h.apart.mono hin (span_subset hc)
  · rw [bytes_insert, hroom']
    exact Set.disjoint_union_right.mpr
      ⟨disjoint_sdiff_left, h.apart.mono_left sdiff_subset⟩
  · rw [bytes_insert, hroom', ← h.exact, ← union_assoc, sdiff_union_of_subset hin]

/-- The lower part of a node's block becomes busy, and the node is demoted. -/
theorem Tiles.split {k : ℤ} (h : Tiles (plug path (node l b s r)) memory busy used)
    (memory' : List (ℤ × ℤ)) (hk : 0 < k)
    (hks : k < s) (hk4 : 4 ∣ k) (hlow : load b memory' = k) (hhigh : load (b + k) memory' = s - k)
    (hagree : ∀ a ∉ span (b, s), load a memory' = load a memory) :
    Tiles (plug path (demote (b + k) (s - k) l r)) memory' (insert (b, k) busy) used := by
  obtain ⟨hvalid, hroom⟩ := h.free.shrink (b + k) (s - k) (by lia) (by lia)
    (by lia)
  obtain ⟨hbs, -⟩ := h.freeWhole _ mem_plug_node
  obtain ⟨hs1, hs2, hs3⟩ := hbs.sound
  obtain ⟨ha1, ha2⟩ := hbs.addr
  have hs4 := hbs.size
  have hlowWhole : Whole (b, k) :=
    ⟨⟨hs1, hk, by simp only; lia⟩, ⟨ha1, ha2⟩, hk4⟩
  have hhighWhole : Whole (b + k, s - k) :=
    ⟨⟨by simp only; lia, by simp only; lia, by simp only; lia⟩,
      ⟨by simp only; lia, by simp only; lia⟩, by simp only; lia⟩
  have hin : span (b, s) ⊆ room (plug path (node l b s r)) := span_subset_room mem_plug_node
  have hroom' : room (plug path (demote (b + k) (s - k) l r)) =
      room (plug path (node l b s r)) \ span (b, k) := by
    rw [hroom]
    ext u
    simp only [mem_sdiff, Set.mem_Ico, span, lo, hi]
    refine and_congr_right fun _ => ?_
    lia
  have hsub : span (b, k) ⊆ span (b, s) :=
    Set.Ico_subset_Ico (le_refl _) (by simp only [hi]; lia)
  refine ⟨hvalid, ?_, ?_, ?_, ?_, ?_⟩
  · intro c hc
    have hap := h.free.apart
    rw [toList_plug_node, Apart, pairwise_append, pairwise_cons] at hap
    have hc' : c = (b + k, s - k) ∨ (c ∈ (plug path (node l b s r)).toList ∧
        c.1 ∉ span (b, s)) := by
      simp only [toList_plug, toList_demote, mem_append, mem_cons] at hc
      rcases hc with (hc | hc | rfl | hc) | hc
      · right
        have hlt : hi c < b := hap.2.2 c (by simp [hc]) (b, s) (by simp)
        have hcs := (h.freeWhole c (by simp [hc])).1.sound.2.1
        refine ⟨by simp [hc], fun hin => ?_⟩
        have := hin.1
        simp only [lo, hi] at this hlt
        lia
      · right
        have hlt : hi c < b := hap.2.2 c (by simp [hc]) (b, s) (by simp)
        have hcs := (h.freeWhole c (by simp [hc])).1.sound.2.1
        refine ⟨by simp [hc], fun hin => ?_⟩
        have := hin.1
        simp only [lo, hi] at this hlt
        lia
      · exact Or.inl rfl
      · right
        have hlt : b + s < lo c := hap.2.1.1 c (by simp [hc])
        refine ⟨by simp [hc], fun hin => ?_⟩
        have := hin.2
        simp only [lo, hi] at this hlt
        lia
      · right
        have hlt : b + s < lo c := hap.2.1.1 c (by simp [hc])
        refine ⟨by simp [hc], fun hin => ?_⟩
        have := hin.2
        simp only [lo, hi] at this hlt
        lia
    rcases hc' with rfl | ⟨hc', hout⟩
    · exact ⟨hhighWhole, hhigh⟩
    · obtain ⟨hw, hword⟩ := h.freeWhole c hc'
      exact ⟨hw, by rw [hagree _ hout, hword]⟩
  · rintro c (rfl | hc)
    · exact ⟨hlowWhole, hlow⟩
    · obtain ⟨hw, hword⟩ := h.busyWhole c hc
      refine ⟨hw, ?_⟩
      rw [hagree, hword]
      intro hbad
      exact Set.disjoint_left.mp h.apart (hin hbad) (span_subset hc hw.start_mem)
  · refine h.busyApart.insert ?_
    intro c hc _
    exact h.apart.mono (hsub.trans hin) (span_subset hc)
  · rw [bytes_insert, hroom']
    exact Set.disjoint_union_right.mpr
      ⟨disjoint_sdiff_left, h.apart.mono_left sdiff_subset⟩
  · rw [bytes_insert, hroom', ← h.exact, ← union_assoc,
      sdiff_union_of_subset (hsub.trans hin)]

/-! ## Giving a block back -/

/-- A busy block that is joined to its free neighbours and inserted becomes free. -/
theorem Tiles.give {p n : ℤ} (h : Tiles root memory busy used) (hb : (p, n) ∈ busy) :
    ∃ j, coalesce (root.toList.length + 1) p n root = some j ∧ j.clash = false ∧ j.size ≠ 0 ∧
      Tiles (j.tree.insert j.addr j.size) ((j.addr, j.size) :: memory) (busy \ {(p, n)}) used ∧
      ∃ c ∈ (j.tree.insert j.addr j.size).toList, n ≤ c.2 := by
  obtain ⟨hbw, -⟩ := h.busyWhole _ hb
  have hspan : Set.Ico p (p + n) = span (p, n) := rfl
  have hdis : Disjoint (Set.Ico p (p + n)) (room root) :=
    (h.apart.mono_right (span_subset hb)).symm
  obtain ⟨j, A, B, A', B', hj, hclash, hl, hfits, hjoin, htree, hvalid, hroom⟩ :=
    coalesce_insert h.free hbw.sound hdis
  have hdone := hjoin.done hfits
  obtain ⟨hle1, hle2, hle3⟩ := hdone.le
  have hn : 0 < n := hbw.sound.2.1
  have hins : (j.tree.insert j.addr j.size).toList = A' ++ (j.addr, j.size) :: B' :=
    toList_insert htree hdone.between
  have hwhole : ∀ c ∈ A ++ B, Whole c := fun c hc => (h.freeWhole c (by rw [hl]; exact hc)).1
  have hp4 : 4 ∣ p := hbw.addr.2
  have hn4 : 4 ∣ n := hbw.size
  have haddr : 0 < j.addr ∧ 4 ∣ j.addr := by
    rcases hjoin.left with ⟨-, hp, -⟩ | ⟨a, hA, -, hp⟩
    · rw [hp]
      exact hbw.addr
    · rw [hp]
      exact (hwhole a (by simp [hA])).addr
  have hend : 4 ∣ j.addr + j.size := by
    rcases hjoin.right with ⟨-, hp, -⟩ | ⟨c, hB, -, hp⟩
    · rw [hp]
      lia
    · rw [hp, hi]
      have hc := hwhole c (by simp [hB])
      have h1 := hc.addr.2
      have h2 := hc.size
      lia
  have hnew : Whole (j.addr, j.size) := ⟨hdone.sound, haddr, by simp only; lia⟩
  refine ⟨j, hj, hclash, by lia, ⟨hvalid, ?_, ?_, ?_, ?_, ?_⟩, (j.addr, j.size),
    by simp [hins], hle1⟩
  · intro c hc
    rw [hins] at hc
    have hc' : c = (j.addr, j.size) ∨ c ∈ A' ++ B' := by
      simp only [mem_append, mem_cons] at hc ⊢
      tauto
    rcases hc' with rfl | hc'
    · exact ⟨hnew, by rw [load_cons, if_pos rfl]⟩
    · obtain ⟨hw, hword⟩ := h.freeWhole c (by rw [hl]; exact hdone.sub c hc')
      refine ⟨hw, ?_⟩
      have hne : c.1 ≠ j.addr := by
        have hcs := hw.sound.2.1
        have hns := hnew.sound.2.1
        rcases hdone.clear hc' with hlt | hlt
        · rw [hi] at hlt
          lia
        · rw [lo] at hlt
          lia
      rw [load_cons, if_neg hne, hword]
  · intro c hc
    obtain ⟨hw, hword⟩ := h.busyWhole c hc.1
    refine ⟨hw, ?_⟩
    have hne : c.1 ≠ j.addr := by
      intro heq
      have hmem : j.addr ∈ room (j.tree.insert j.addr j.size) := by
        refine span_subset_room (b := (j.addr, j.size)) ?_ hnew.start_mem
        rw [hins]
        simp
      rw [hroom] at hmem
      have hstart := hw.start_mem
      rw [heq] at hstart
      rcases hmem with hmem | hmem
      · exact Set.disjoint_left.mp h.apart hmem (span_subset hc.1 hstart)
      · exact Set.disjoint_left.mp (h.busyApart hc.1 hb hc.2) hstart hmem
    rw [load_cons, if_neg hne, hword]
  · exact h.busyApart.subset sdiff_subset
  · rw [hroom, bytes_erase h.busyApart hb, hspan]
    exact Set.disjoint_union_left.mpr
      ⟨h.apart.mono_right sdiff_subset, disjoint_sdiff_right⟩
  · rw [hroom, bytes_erase h.busyApart hb, hspan, ← h.exact, union_assoc,
      union_sdiff_cancel (span_subset hb)]

end Malloc
