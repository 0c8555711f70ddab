/-
# Runs of the kernel heap

After `morecore` the largest block by raw size may be one that does not start at
a word boundary, and then it can be larger than the new pages and still have less
room than was asked for.  Where the root and its child towards the new pages are
both like this the search stops short of the new pages; in every other run the
ranges `kmem_alloc` returns are as they should be.
-/
import SunOS.Kern.HeapKmem
import SunOS.Lib.Run

namespace Kmem

open Set
open FastFits CartesianTree Segments

/-! ## When the search finds room -/

variable {t : CartesianTree ℤ ℤ}

/-- The search for `n` bytes will be misled once the pages `(p, pages)` are in the
tree: the root and its child towards them are not lighter than they are with their
neighbours, and neither the root nor a child of it has room for `n` bytes. -/
def MisledTree (n p pages : ℤ) : CartesianTree ℤ ℤ → Prop
  | nil => False
  | node l b s r =>
    joinedSize (node l b s r).toList p pages ≤ s ∧
      joinedSize (node l b s r).toList p pages ≤ weight (if p < b then l else r) ∧
      mweight (node l b s r) < n ∧ mweight l < n ∧ mweight r < n

instance (n p pages : ℤ) (t : CartesianTree ℤ ℤ) : Decidable (MisledTree n p pages t) :=
  match t with
  | nil => inferInstanceAs (Decidable False)
  | node _ _ _ _ => inferInstanceAs (Decidable (_ ∧ _))

theorem mweight_congr {t t' : CartesianTree ℤ ℤ} (h : top t = top t') : mweight t = mweight t' := by
  cases t with
  | nil =>
    cases t' with
    | nil => rfl
    | node l b s r => cases h
  | node l b s r =>
    cases t' with
    | nil => cases h
    | node l' b' s' r' =>
      obtain ⟨rfl, rfl⟩ := h
      rfl

/-- A block around a range that starts at a word boundary has room for it. -/
theorem le_mweight_of_top {b s p n : ℤ} (h : top t = some (b, s))
    (hp : 4 ∣ p) (hlo : b ≤ p) (hhi : p + n ≤ b + s) : n ≤ mweight t := by
  cases t with
  | nil => cases h
  | node l b' s' r =>
    rw [top, Option.some.injEq, Prod.mk.injEq] at h
    obtain ⟨rfl, rfl⟩ := h
    rw [mweight]
    by_cases hc : b' % 4 ≠ 0 ∧ s' > ALIGNMORE b'
    · rw [if_pos hc]
      rw [ALIGNMORE]
      omega
    · rw [if_neg hc]
      omega

/-- Once the pages are in the tree, the search finds room unless it is misled. -/
theorem fitting_insert {n p pages : ℤ} {j : Join} (hv : Valid t)
    (hblock : Sound (p, pages)) (hdis : Disjoint (Set.Ico p (p + pages)) (room t)) (hp : 4 ∣ p)
    (hn : n ≤ pages) (hj : coalesce (t.toList.length + 1) p pages t = some j)
    (hnot : ¬ MisledTree n p pages t) : Fitting n (j.tree.insert j.addr j.size) := by
  obtain ⟨j', A, B, A', B', hj', hclash, hl, hfits, hjoin, hjt, -, -⟩ :=
    coalesce_insert hv hblock hdis
  rw [hj, Option.some.injEq] at hj'
  subst hj'
  have hdone := hjoin.done hfits
  obtain ⟨hle1, hle2, hle3⟩ := hdone.le
  have hsize : j.size = joinedSize t.toList p pages := by
    rw [hl]
    exact hjoin.size_eq hfits
  obtain ⟨hp1, hp2, hp3⟩ := id hblock
  have hpos : 0 < j.size := by lia
  have hs : ∀ b ∈ t.toList, 0 < b.2 := fun b hb => (hv.sound b hb).2.1
  have htouch : ∀ c ∈ t.toList, nextblk p pages = c.1 ∨ nextblk c.1 c.2 = p → c.2 < j.size := by
    intro c hc htc
    rw [nextblk_of_sound (hv.sound c hc), show nextblk p pages = p + pages from
      nextblk_of_sound hblock] at htc
    have := le_joinedSize (n := pages) hv.sound hc (p := p) (by
      rcases htc with htc | htc
      · exact Or.inr htc.symm
      · exact Or.inl htc)
    lia
  have hnew : ∀ {t' : CartesianTree ℤ ℤ}, top t' = some (j.addr, j.size) → n ≤ mweight t' := by
    intro t' htop
    exact le_mweight_of_top htop hp hle2 (by lia)
  by_cases hroot : weight j.tree < j.size
  · -- the new block is the root
    have htop := top_insert_of_lt (p := j.addr) hroot
    cases hT : j.tree.insert j.addr j.size with
    | nil =>
      rw [hT] at htop
      cases htop
    | node l b s r =>
      rw [hT] at htop
      exact Or.inl (hnew htop)
  · have htop := top_coalesce hv.heap hs hj hclash htouch (not_lt.mp hroot)
    cases t with
    | nil =>
      cases hjt : j.tree with
      | nil =>
        rw [hjt, weight] at hroot
        lia
      | node l b s r =>
        rw [hjt] at htop
        cases htop
    | node l b s r =>
      -- the root stays; look at its child towards the new pages
      obtain ⟨hl', hr', hhl, hhr⟩ := heap_node_iff.mp hv.heap
      have hnotouch : ¬ (nextblk p pages = b ∨ nextblk b s = p) := by
        intro hc
        have hlt := htouch (b, s) (by simp) hc
        have hw : weight j.tree ≤ s := weight_le hv.heap hs (coalesce_heap hv.heap hj).2
        lia
      rw [not_or] at hnotouch
      obtain ⟨fuel', j', hjj', hnear⟩ := coalesce_root hj hclash hnotouch.1 hnotouch.2
      have hsz : j.size = j'.size := by rw [hjj']
      have hclash' : j'.clash = false := by
        rw [hjj'] at hclash
        exact hclash
      have htree : j.tree = if p < b then node j'.tree b s r else node l b s j'.tree := by
        rw [hjj']
      have hmem : (b, s) ∈ j.tree.toList := by
        rw [htree]
        by_cases hlt : p < b <;> simp [hlt]
      have hclear : b + s < j.addr ∨ j.addr + j.size < b := by
        rw [hjt] at hmem
        exact hdone.clear hmem
      have hlight : j.size ≤ s := by
        rw [htree] at hroot
        by_cases hlt : p < b
        · rw [if_pos hlt, weight] at hroot
          lia
        · rw [if_neg hlt, weight] at hroot
          lia
      -- below the root: the new block, or the child there was
      have hchild : ∀ near : CartesianTree ℤ ℤ, near.Heap →
          (∀ c ∈ near.toList, c ∈ (node l b s r).toList) →
          coalesce fuel' p pages near = some j' →
          n ≤ mweight (j'.tree.insert j.addr j.size) ∨
            (top (j'.tree.insert j.addr j.size) = top near ∧ j.size ≤ weight near) := by
        intro near hheap hsub hco
        by_cases hw : weight j'.tree < j.size
        · exact Or.inl (hnew (top_insert_of_lt hw))
        · rw [not_lt] at hw
          have htop' := top_coalesce hheap (fun c hc => hs c (hsub c hc)) hco hclash'
            (fun c hc htc => by
              rw [← hsz]
              exact htouch c (hsub c hc) htc) (by rw [← hsz]; exact hw)
          rw [top_insert_of_le hpos hw]
          exact Or.inr ⟨htop', by rw [← weight_congr htop']; exact hw⟩
      rw [MisledTree, ← hsize] at hnot
      by_cases hlt : p < b
      · rw [if_pos hlt] at hnear htree hnot
        rw [htree, CartesianTree.insert, if_pos hlight, if_pos (by lia)]
        rcases hchild l hhl (fun c hc => by simp [hc]) hnear with hc | ⟨hc, hw⟩
        · exact Or.inr (Or.inl hc)
        · have hroot' : mweight (node (j'.tree.insert j.addr j.size) b s r) =
              mweight (node l b s r) := rfl
          rw [Fitting, hroot', mweight_congr hc]
          by_contra hno
          rw [not_or, not_or, not_le, not_le, not_le] at hno
          exact hnot ⟨hlight, hw, hno⟩
      · rw [if_neg hlt] at hnear htree hnot
        rw [htree, CartesianTree.insert, if_pos hlight, if_neg (by lia)]
        rcases hchild r hhr (fun c hc => by simp [hc]) hnear with hc | ⟨hc, hw⟩
        · exact Or.inr (Or.inr hc)
        · have hroot' : mweight (node l b s (j'.tree.insert j.addr j.size)) =
              mweight (node l b s r) := rfl
          rw [Fitting, hroot', mweight_congr hc]
          by_contra hno
          rw [not_or, not_or, not_le, not_le, not_le] at hno
          exact hnot ⟨hlight, hw, hno⟩

/-! ## The parts of kmem_alloc -/

/-- The address of the next pages `getpages` will return. -/
def nextPages (m : kmem_info) : ℤ := (m.supply.head?.map (pageAddr m)).getD 0

/-- `kmem_alloc(n)` will get pages, and its search will miss them. -/
def Misled (n : ℤ) (m : kmem_info) : Prop :=
  mweight m.free_root ≤ n ∧ MisledTree n (nextPages m) (roundup n CLBYTES) m.free_root

instance (n : ℤ) (m : kmem_info) : Decidable (Misled n m) := inferInstanceAs (Decidable (_ ∧ _))

/-- Rounding up to whole clusters; where it overflows no cluster is left. -/
theorem roundup_spec {n : ℤ} (hn : 0 < n) (hn' : n < 4294967296)
    (hpages : 0 < roundup n CLBYTES / NBPG) :
    n ≤ roundup n CLBYTES ∧ roundup n CLBYTES / NBPG * NBPG = roundup n CLBYTES := by
  rw [roundup, uint32, CLBYTES, CLSIZE, NBPG] at *
  omega

/-- `ensure` leaves a tree in which the search finds room; pages it adds are new. -/
theorem ensure_room {n : ℤ} {m m' : kmem_info} (hn : 0 < n) (hn' : n < 4294967296) (hf : Fair m')
    (hv : Valid m.free_root) (hsub : room m.free_root ⊆ arena m) (hnot : ¬ Misled n m)
    (h : ensure n m = some m') :
    Valid m'.free_root ∧ Fitting n m'.free_root ∧
      ∃ new, room m'.free_root = room m.free_root ∪ new ∧ new ⊆ arena m' ∧
        Disjoint new (arena m) := by
  rw [ensure] at h
  by_cases hw : mweight m.free_root ≤ n
  · rw [if_pos hw] at h
    obtain ⟨⟨m2, enough⟩, hmore, h⟩ := Option.bind_eq_some_iff.mp h
    cases enough with
    | false => cases h
    | true =>
      obtain rfl : m2 = m' := by simpa using h
      obtain ⟨⟨m1, p⟩, hpages, hmore⟩ := Option.bind_eq_some_iff.mp hmore
      simp only at hmore
      obtain ⟨hpos, x, supply, hsupply, hp, hm1⟩ := getpages_eq hpages
      obtain ⟨hle, hexact⟩ := roundup_spec hn hn' hpos
      rw [hexact] at hm1
      by_cases hp0 : p = 0
      · rw [if_pos hp0] at hmore
        cases hmore
      · rw [if_neg hp0] at hmore
        obtain ⟨m3, hfree, hmore⟩ := Option.map_eq_some_iff.mp hmore
        obtain ⟨rfl, -⟩ := hmore
        obtain ⟨j, hj, hroot⟩ := kmem_free_eq (by omega) hfree
        have hlater := kmem_free_later hfree
        have hroot1 : m1.free_root = m.free_root := by rw [hm1]
        have htaken : m1.taken = (p, roundup n CLBYTES) :: m.taken := by rw [hm1]
        have hf1 := hlater.fair hf
        have hmem : (p, roundup n CLBYTES) ∈ m1.taken := by simp [htaken]
        have hnew : Disjoint (Set.Ico p (p + roundup n CLBYTES)) (arena m) := by
          have hfresh := hf1.fresh
          rw [htaken, List.pairwise_cons] at hfresh
          rw [disjoint_left]
          rintro u hu ⟨b, hb, hlo, hhi⟩
          exact Set.disjoint_left.mp (hfresh.1 b hb) hu ⟨hlo, hhi⟩
        have hin : Set.Ico p (p + roundup n CLBYTES) ⊆ arena m1 :=
          fun u hu => ⟨_, hmem, hu.1, hu.2⟩
        obtain ⟨hsound, -⟩ := hf1.sound (by omega) hin
        have hdis : Disjoint (Set.Ico p (p + roundup n CLBYTES)) (room m.free_root) :=
          hnew.mono_right hsub
        rw [hroot1] at hj
        have hnext : nextPages m = p := by
          rw [nextPages, hsupply, hp]
          rfl
        have hnot' : ¬ MisledTree n p (roundup n CLBYTES) m.free_root := by
          rw [← hnext]
          exact fun hc => hnot ⟨hw, hc⟩
        have hroom := kmem_free_room (m := m1) (by rw [hroot1]; exact hv) hsound
          (by rw [hroot1]; exact hdis) hfree
        rw [hroot1] at hroom
        refine ⟨hroom.1, ?_, _, hroom.2, ?_, hnew⟩
        · rw [hroot]
          exact fitting_insert hv hsound hdis (hf1.pages _ hmem).1 hle hj hnot'
        · exact hin.trans hlater.arena_subset
  · rw [if_neg hw, Option.some.injEq] at h
    subst h
    refine ⟨hv, ?_, ∅, by simp, by simp, by simp⟩
    cases ht : m.free_root with
    | nil =>
      rw [ht, mweight] at hw
      omega
    | node l b s r =>
      rw [ht] at hw
      exact Or.inl (by omega)

/-! ## Steps and runs -/

variable {m' : kmem_info}

/-- The heap, and the bytes allocated and not freed. -/
structure State where
  heap : kmem_info
  live : Set ℤ

/-- The calls. -/
inductive Event where
  | kmem_alloc (nbytes : ℤ)
  | kmem_free (ptr nbytes : ℤ)
  deriving DecidableEq, Repr

/-- A call that neither panics nor sleeps for ever. -/
def Step (s : State) : Event → State → Prop
  | .kmem_alloc n, s' =>
    ∃ r, kmem_alloc n s.heap = some (s'.heap, r) ∧ s'.live = s.live ∪ Set.Ico r (r + n)
  | .kmem_free p n, s' =>
    kmem_free p n s.heap = some s'.heap ∧ s'.live = s.live \ Set.Ico p (p + n)

/-- What the callers promise: word arguments, and freeing only what they have. -/
def Legal (s : State) : Event → Prop
  | .kmem_alloc n => 0 ≤ n ∧ n < 4294967296
  | .kmem_free p n => 0 ≤ n ∧ Set.Ico p (p + n) ⊆ s.live

/-- And the search of `kmem_alloc` is not misled. -/
def Ok (s : State) (e : Event) : Prop :=
  Legal s e ∧ match e with
    | .kmem_alloc n => ¬ Misled n s.heap
    | .kmem_free _ _ => True

/-- What is promised of the range at `r` that `kmem_alloc(n)` returns, leaving the
heap `m'`: it lies in a block that was free once the heap had been extended, and
outside everything else, at a word boundary if it is a word or longer. -/
structure Placed (s : State) (n r : ℤ) (m' : kmem_info) : Prop where
  inside : ∃ m1, ensure n s.heap = some m1 ∧
    ∃ b ∈ m1.free_root.toList, Set.Ico r (r + n) ⊆ Set.Ico (lo b) (hi b)
  live : Disjoint (Set.Ico r (r + n)) s.live
  free : Disjoint (Set.Ico r (r + n)) (room m'.free_root)
  aligned : 4 ≤ n → 4 ∣ r

/-- The invariant: free and allocated bytes are different bytes of the arena. -/
structure Inv (s : State) : Prop where
  valid : Valid s.heap.free_root
  room_sub : room s.heap.free_root ⊆ arena s.heap
  live_sub : s.live ⊆ arena s.heap
  disjoint : Disjoint (room s.heap.free_root) s.live

/-- `kmem_alloc` returns a range as it should be, and keeps the invariant. -/
theorem kmem_alloc_placed {s : State} {n r : ℤ} (hinv : Inv s) (hf : Fair m')
    (hok : Ok s (.kmem_alloc n)) (hn : 0 < n) (h : kmem_alloc n s.heap = some (m', r)) :
    Placed s n r m' ∧ Inv ⟨m', s.live ∪ Set.Ico r (r + n)⟩ := by
  obtain ⟨⟨-, hn'⟩, hnot⟩ := hok
  rw [kmem_alloc, if_neg (by omega)] at h
  obtain ⟨m1, hens, h⟩ := Option.bind_eq_some_iff.mp h
  have hlater := ensure_later hens
  have hlater' := allocate_later h
  obtain ⟨hvalid, hfit, new, hroom, hnew, hfresh⟩ :=
    ensure_room hn hn' (hlater'.fair hf) hinv.valid hinv.room_sub hnot hens
  obtain ⟨hvalid', ⟨b, hb, hsub⟩, hroom', halign⟩ := allocate_room hvalid hn hfit h
  have hin : Set.Ico r (r + n) ⊆ room m1.free_root := fun u hu => ⟨b, hb, hsub hu⟩
  have hdis : Disjoint (room m1.free_root) s.live := by
    rw [hroom]
    exact Set.disjoint_union_left.mpr ⟨hinv.disjoint, hfresh.mono_right hinv.live_sub⟩
  have hroomsub : room m1.free_root ⊆ arena m' := by
    rw [hroom]
    exact union_subset (hinv.room_sub.trans (hlater.trans hlater').arena_subset)
      (hnew.trans hlater'.arena_subset)
  refine ⟨⟨⟨m1, hens, b, hb, hsub⟩, hdis.mono_left hin, ?_, halign⟩, hvalid', ?_, ?_, ?_⟩
  · rw [hroom']
    exact disjoint_sdiff_right
  · show room m'.free_root ⊆ _
    rw [hroom']
    exact Set.sdiff_subset.trans hroomsub
  · exact union_subset (hinv.live_sub.trans (hlater.trans hlater').arena_subset)
      (hin.trans hroomsub)
  · show Disjoint (room m'.free_root) _
    rw [hroom']
    exact Set.disjoint_union_right.mpr
      ⟨hdis.mono_left sdiff_subset, disjoint_sdiff_left⟩

/-- `kmem_free` of allocated bytes keeps the invariant. -/
theorem kmem_free_inv {s : State} {p n : ℤ} (hinv : Inv s) (hf : Fair m')
    (hn : 0 ≤ n) (hown : Set.Ico p (p + n) ⊆ s.live) (h : kmem_free p n s.heap = some m') :
    Inv ⟨m', s.live \ Set.Ico p (p + n)⟩ := by
  have hlater := kmem_free_later h
  by_cases hn0 : n = 0
  · rw [kmem_free, if_pos hn0, Option.some.injEq] at h
    subst h
    refine ⟨hinv.valid, hinv.room_sub, Set.sdiff_subset.trans hinv.live_sub, ?_⟩
    exact hinv.disjoint.mono_right sdiff_subset
  · obtain ⟨hsound, -⟩ := (hlater.fair hf).sound (by omega) (hown.trans hinv.live_sub)
    have hdis : Disjoint (Set.Ico p (p + n)) (room s.heap.free_root) :=
      (hinv.disjoint.mono_right hown).symm
    obtain ⟨hvalid, hroom⟩ := kmem_free_room hinv.valid hsound hdis h
    refine ⟨hvalid, ?_, ?_, ?_⟩
    · show room m'.free_root ⊆ _
      rw [hroom]
      exact union_subset (hinv.room_sub.trans hlater.arena_subset)
        ((hown.trans hinv.live_sub).trans hlater.arena_subset)
    · exact Set.sdiff_subset.trans (hinv.live_sub.trans hlater.arena_subset)
    · show Disjoint (room m'.free_root) _
      rw [hroom]
      exact Set.disjoint_union_left.mpr
        ⟨hinv.disjoint.mono_right sdiff_subset, disjoint_sdiff_right⟩

/-- A step keeps the invariant, as long as the pages are fair. -/
theorem step_inv (s : State) (e : Event) (s' : State) (hinv : Fair s.heap → Inv s)
    (h : Guarded Ok Step s e s') (hf : Fair s'.heap) : Inv s' := by
  obtain ⟨hok, hstep⟩ := h
  obtain ⟨m', live'⟩ := s'
  cases e with
  | kmem_alloc n =>
    obtain ⟨r, hcall, rfl⟩ := hstep
    have hinv' := hinv ((kmem_alloc_later hcall).fair hf)
    by_cases hn : n = 0
    · subst hn
      obtain ⟨rfl, rfl⟩ := hcall
      simpa using hinv'
    · have hpos : 0 ≤ n := hok.1.1
      exact (kmem_alloc_placed hinv' hf hok (by omega) hcall).2
  | kmem_free p n =>
    obtain ⟨hcall, rfl⟩ := hstep
    exact kmem_free_inv (hinv ((kmem_free_later hcall).fair hf)) hf hok.1.1 hok.1.2 hcall

theorem inv_init (usrpt : ℤ) (supply : List ℤ) : Inv ⟨kmem_init usrpt supply, ∅⟩ :=
  ⟨valid_nil, by simp [kmem_init, room_eq], by simp, by simp⟩

/-- **Every range `kmem_alloc` returns is as it should be**, in every run in which
its search is never misled. -/
theorem placed_of_run {usrpt n r : ℤ} {supply : List ℤ} {es : List Event} {s : State}
    {m' : kmem_info} (h : Run (Guarded Ok Step) ⟨kmem_init usrpt supply, ∅⟩ es s)
    (hok : Ok s (.kmem_alloc n)) (hn : n ≠ 0) (hcall : kmem_alloc n s.heap = some (m', r))
    (hf : Fair m') : Placed s n r m' := by
  have hinv : Fair s.heap → Inv s :=
    Run.invariant (I := fun s => Fair s.heap → Inv s) (fun s e s' => step_inv s e s') h
      fun _ => inv_init usrpt supply
  have hpos : 0 ≤ n := hok.1.1
  exact (kmem_alloc_placed (hinv ((kmem_alloc_later hcall).fair hf)) hf hok (by omega) hcall).1

/-! ## Two runs -/

/-- Five pages are allocated, and two unaligned pieces of them freed. -/
def pieces (hdrs : ℕ) (root : CartesianTree ℤ ℤ) : kmem_info :=
  ⟨root, hdrs, 8192, [20], [(90112, 8192), (16384, 40960)]⟩

theorem fair_pieces (hdrs : ℕ) (root : CartesianTree ℤ ℤ) : Fair (pieces hdrs root) := by
  have hpages : ∀ b ∈ [((90112, 8192) : Block), (16384, 40960)],
      4 ∣ lo b ∧ 8192 ≤ lo b ∧ hi b ≤ 8192 + USRPTSIZE * NBPG := by decide
  refine ⟨show (0 : ℤ) < 8192 ∧ 8192 + USRPTSIZE * NBPG < 4294967296 by decide, hpages, ?_⟩
  rw [pieces, List.pairwise_cons]
  refine ⟨?_, List.pairwise_singleton _ _⟩
  intro b hb
  rw [List.mem_singleton.mp hb, disjoint_left]
  rintro u ⟨h1, -⟩ ⟨-, h2⟩
  simp only [lo, hi] at h1 h2
  omega

/-- After one piece has been freed, the word after its first three bytes is
allocated. -/
theorem placed_after_free :
    ∃ s m', Placed s 100 16388 m' ∧
      s.heap = pieces 511 (node nil 16385 8193 nil) := by
  have hrun : Run (Guarded Ok Step) ⟨kmem_init 8192 [1, 10, 20], ∅⟩
      [.kmem_alloc 40960, .kmem_free 16385 8193]
      ⟨pieces 511 (node nil 16385 8193 nil),
        (∅ ∪ Set.Ico 16384 (16384 + 40960)) \ Set.Ico 16385 (16385 + 8193)⟩ := by
    refine .cons (t := ⟨pieces 512 nil, _⟩)
      ⟨⟨⟨by decide, by decide⟩, by decide⟩, 16384, by decide, rfl⟩
      (.cons ⟨⟨⟨by decide, ?_⟩, trivial⟩, by decide, rfl⟩ (.nil _))
    rintro u ⟨h1, h2⟩
    exact Or.inr ⟨by omega, by omega⟩
  have hplaced : Placed ⟨pieces 511 (node nil 16385 8193 nil), _⟩ 100 16388
      (pieces 510 (node (node nil 16385 3 nil) 16488 8090 nil)) :=
    placed_of_run hrun ⟨⟨by decide, by decide⟩, by decide⟩ (by decide) (by decide)
      (fair_pieces _ _)
  exact ⟨_, _, hplaced, rfl⟩

/-- With both pieces freed, `kmem_alloc(8192)` gets new pages and then returns bytes
of the first piece and two more, which are still allocated. -/
theorem not_placed_misled :
    ∃ s m', Run (Guarded Legal Step) ⟨kmem_init 8192 [1, 10, 20], ∅⟩
        [.kmem_alloc 40960, .kmem_free 16385 8193, .kmem_free 32769 8193] s ∧
      Legal s (.kmem_alloc 8192) ∧ kmem_alloc 8192 s.heap = some (m', 16388) ∧ Fair m' ∧
      ¬ Placed s 8192 16388 m' := by
  refine ⟨⟨pieces 510 (node nil 16385 8193 (node nil 32769 8193 nil)),
      ((∅ ∪ Set.Ico 16384 (16384 + 40960)) \ Set.Ico 16385 (16385 + 8193)) \
        Set.Ico 32769 (32769 + 8193)⟩,
    ⟨node (node nil 16385 3 nil) 32769 8193 (node nil 172032 8192 nil), 509, 8192, [],
      [(172032, 8192), (90112, 8192), (16384, 40960)]⟩, ?_, ⟨by decide, by decide⟩,
        by decide, ?_, ?_⟩
  · refine .cons (t := ⟨pieces 512 nil, _⟩) ⟨⟨by decide, by decide⟩, 16384, by decide, rfl⟩
      (.cons (t := ⟨pieces 511 (node nil 16385 8193 nil), _⟩) ⟨⟨by decide, ?_⟩, by decide, rfl⟩
        (.cons ⟨⟨by decide, ?_⟩, by decide, rfl⟩ (.nil _)))
    · rintro u ⟨h1, h2⟩
      exact Or.inr ⟨by omega, by omega⟩
    · rintro u ⟨h1, h2⟩
      exact ⟨Or.inr ⟨by omega, by omega⟩, fun h => by
        have := h.2
        omega⟩
  · have hf := fair_pieces 0 nil
    refine ⟨by decide, by decide, List.pairwise_cons.mpr ⟨?_, hf.fresh⟩⟩
    intro b hb
    rw [disjoint_left]
    rintro u ⟨h1, -⟩ ⟨-, h2⟩
    rcases List.mem_cons.mp hb with rfl | hb
    · simp only [lo, hi] at h1 h2
      omega
    · rw [List.mem_singleton.mp hb] at h2
      simp only [lo, hi] at h1 h2
      omega
  · intro h
    refine Set.disjoint_left.mp h.live (show (24578 : ℤ) ∈ _ from ⟨by decide, by decide⟩) ?_
    exact ⟨⟨Or.inr ⟨by decide, by decide⟩, fun h => absurd h.2 (by decide)⟩,
      fun h => absurd h.1 (by decide)⟩

end Kmem
