/-
# Who owns which memory

Every address has an owner: an mbuf, a cluster, a block of `kmem_alloc`, or somebody else.  An
mbuf in use has its data in its own room, in a cluster of the pool, or in memory that the kernel
has given out before.  `World` says so, and that the reference count of a cluster is a number
`k` that is no smaller than the number of mbufs that refer to it; the clusters with `k = 0` are
those on `mclfree`.

The operations are made of a few moves, each with its lemma: an mbuf is dropped from those in
use or adopted, an address is taken or released, a count goes up or down.
-/
import SunOS.Kern.Uipc
import Mathlib.Data.List.Nodup
import Mathlib.Data.List.Perm.Basic

namespace Uipc

open List
open Function (update update_of_ne update_self)
open CellMemory

/-! ## Words -/

theorem int8_int8_add (x y : ℤ) : int8 (int8 x + y) = int8 (x + y) := by
  unfold int8
  omega

theorem int8_natCast_eq_zero {n : ℕ} (h : n ≤ 255) : int8 n = 0 ↔ n = 0 := by
  unfold int8
  omega

/-! ## Owners -/

/-- The owner of an address. -/
inductive Owner
  | mbuf (a : ℤ)
  | cluster (c : ℤ)
  | kmem (b : ℤ)
  | other
  deriving DecidableEq, Repr

/-- The `n` addresses from `p` on are `o`'s. -/
structure Fills (owner : ℤ → Owner) (p n : ℤ) (o : Owner) : Prop where
  lo : 0 ≤ p
  hi : p + n ≤ 4294967296
  mem : ∀ a, p ≤ a → a < p + n → owner a = o

/-- An mbuf refers to the cluster `c`. -/
def mbuf.refers (m : mbuf) (c : ℤ) : Bool :=
  m.m_off > MMAXOFF && m.m_cltype = 1 && c ≤ m.mtod && m.mtod < c + MCLBYTES

/-- How many of the mbufs in use do. -/
def refs (live : List mbuf) (c : ℤ) : ℕ := live.countP fun m => m.refers c

/-- The data of `m` are in its own room. -/
structure Small (m : mbuf) : Prop where
  off : MMINOFF ≤ m.m_off
  len : 0 ≤ m.m_len
  fits : m.m_off + m.m_len ≤ MMAXOFF

/-- They are in the cluster `c`. -/
structure Clustered (m : mbuf) (c : ℤ) : Prop where
  off : MMAXOFF < m.m_off
  cltype : m.m_cltype = 1
  len : 0 ≤ m.m_len
  lo : c ≤ m.mtod
  hi : m.mtod < c + MCLBYTES
  fits : m.mtod + m.m_len ≤ c + MCLBYTES

/-- The mbufs that are free, or will be. -/
def kern.spare (s : kern) : List ℤ := s.mfree ++ s.more.flatten

variable {owner : ℤ → Owner} {pool : List ℤ} {k : ℤ → ℕ} {s s' : kern} {live : List mbuf}
  {m n : mbuf} {a c p : ℤ}

/-- They are somebody else's, who is not about to get more memory. -/
structure Funny (owner : ℤ → Owner) (kmem : List (ℤ × ℤ)) (m : mbuf) : Prop where
  off : MMAXOFF < m.m_off
  cltype : m.m_cltype = 2
  len : 0 ≤ m.m_len ∧ m.m_len ≤ 32767
  hi : m.mtod + m.m_len ≤ 4294967296
  mem : ∀ a, m.mtod ≤ a → a < m.mtod + m.m_len → owner a = .other ∨
    ∃ b, owner a = .kmem b ∧ b ∉ kmem.map Prod.fst

/-- An address for an mbuf that is neither in use nor free. -/
structure Fresh (owner : ℤ → Owner) (s : kern) (live : List mbuf) (a : ℤ) : Prop where
  notin : a ∉ live.map mbuf.addr ++ s.spare
  fills : Fills owner a MSIZE (.mbuf a)

/-- **The memory of the mbufs**: `live` are those in use, `pool` the clusters that have been
allocated. -/
structure World (owner : ℤ → Owner) (pool : List ℤ) (k : ℤ → ℕ) (s : kern) (live : List mbuf) :
    Prop where
  mbutl : s.mbutl % MCLBYTES = 0
  addrs : (live.map mbuf.addr ++ s.spare).Nodup
  room : ∀ a ∈ live.map mbuf.addr ++ s.spare, Fills owner a MSIZE (.mbuf a)
  clusters : ∀ c ∈ pool ++ s.clusters.flatten,
    c % MCLBYTES = 0 ∧ s.mbutl ≤ c ∧ Fills owner c MCLBYTES (.cluster c)
  pool_nodup : (pool ++ s.clusters.flatten).Nodup
  kmem_nodup : (s.kmem.map Prod.fst).Nodup
  kmem : ∀ b ∈ s.kmem, Fills owner b.1 b.2 (.kmem b.1)
  kinds : ∀ m ∈ live, m.m_type ≠ MT_FREE ∧
    (Small m ∨ (∃ c ∈ pool, Clustered m c) ∨ Funny owner s.kmem m)
  counts : ∀ c ∈ pool ++ s.clusters.flatten, refs live c ≤ k c ∧ k c ≤ 256 ∧
    s.mclrefcnt (s.mtoclx c) = int8 (k c)
  unused : ∀ c ∈ s.clusters.flatten, k c = 0
  free : ∀ c, c ∈ s.mclfree ↔ c ∈ pool ∧ k c = 0
  free_nodup : s.mclfree.Nodup
  m_clfree : s.m_clfree = s.mclfree.length

/-- The data of an mbuf with its own room. -/
theorem Small.mtod (h : Small m) (hm : Fills owner m.addr MSIZE (.mbuf m.addr)) :
    m.mtod = m.addr + m.m_off := by
  have h1 := h.off
  have h2 := h.len
  have h3 := h.fits
  have h4 := hm.lo
  have h5 := hm.hi
  rw [MMINOFF] at h1
  rw [MMAXOFF] at h3
  rw [MSIZE] at h5
  exact uint32_of_ufits ⟨by omega, by omega⟩

/-- A distance to memory that is not the mbuf's own tells so, and leads there. -/
theorem far (ha : Fills owner a MSIZE (.mbuf a)) (hp : 0 ≤ p ∧ p < 4294967296)
    (hne : owner p ≠ .mbuf a) :
    MMAXOFF < uint32 (p - a) ∧ uint32 (a + uint32 (p - a)) = p := by
  have h1 := ha.lo
  have h2 := ha.hi
  rw [MSIZE] at h2
  have hout : p < a ∨ a + 128 ≤ p := by
    by_contra h
    exact hne (ha.mem p (by omega) (by rw [MSIZE]; omega))
  rw [MMAXOFF]
  unfold uint32
  omega

theorem refers_iff : m.refers c = true ↔
    MMAXOFF < m.m_off ∧ m.m_cltype = 1 ∧ c ≤ m.mtod ∧ m.mtod < c + MCLBYTES := by
  simp [mbuf.refers, and_assoc]

theorem Small.not_refers (h : Small m) (c : ℤ) : m.refers c = false := by
  rw [Bool.eq_false_iff, Ne, refers_iff]
  rintro ⟨hoff, -⟩
  have h1 := h.len
  have h2 := h.fits
  omega

theorem Funny.not_refers {kmem : List (ℤ × ℤ)} (h : Funny owner kmem m) (c : ℤ) :
    m.refers c = false := by
  rw [Bool.eq_false_iff, Ne, refers_iff]
  rintro ⟨-, hcl, -⟩
  rw [h.cltype] at hcl
  cases hcl

theorem Clustered.refers (h : Clustered m c) : m.refers c = true :=
  refers_iff.mpr ⟨h.off, h.cltype, h.lo, h.hi⟩

theorem refs_cons (m : mbuf) (live : List mbuf) (c : ℤ) :
    refs (m :: live) c = refs live c + if m.refers c then 1 else 0 := countP_cons

/-- Clusters are where multiples of their size are. -/
theorem cluster_start {x : ℤ} (hc : c % MCLBYTES = 0) (hlo : c ≤ x) (hhi : x < c + MCLBYTES) :
    x / MCLBYTES * MCLBYTES = c := by
  rw [MCLBYTES] at *
  omega

namespace World

theorem mtoclx_eq (h : World owner pool k s live) (hc : c ∈ pool ++ s.clusters.flatten)
    (hlo : c ≤ p) (hhi : p < c + MCLBYTES) : s.mtoclx p = s.mtoclx c := by
  have h1 := h.mbutl
  have h2 := (h.clusters c hc).1
  rw [kern.mtoclx, kern.mtoclx]
  rw [MCLBYTES] at *
  omega

theorem mtoclx_inj (h : World owner pool k s live) {d : ℤ} (hc : c ∈ pool ++ s.clusters.flatten)
    (hd : d ∈ pool ++ s.clusters.flatten) (heq : s.mtoclx c = s.mtoclx d) : c = d := by
  have h2 := (h.clusters c hc).1
  have h3 := (h.clusters d hd).1
  rw [kern.mtoclx, kern.mtoclx] at heq
  rw [MCLBYTES] at *
  omega

/-- An mbuf refers to one cluster only. -/
theorem refers_unique (h : World owner pool k s live) {d : ℤ}
    (hc : c ∈ pool ++ s.clusters.flatten) (hd : d ∈ pool ++ s.clusters.flatten)
    (hmc : m.refers c = true) (hmd : m.refers d = true) : c = d := by
  obtain ⟨-, -, h1, h2⟩ := refers_iff.mp hmc
  obtain ⟨-, -, h3, h4⟩ := refers_iff.mp hmd
  rw [← cluster_start (h.clusters c hc).1 h1 h2, cluster_start (h.clusters d hd).1 h3 h4]

/-! ## Moves -/

/-- The order of the mbufs in use does not matter. -/
theorem perm (h : World owner pool k s live) {live' : List mbuf} (hp : live.Perm live') :
    World owner pool k s live' := by
  refine { h with
    addrs := ((hp.map _).append_right _).nodup_iff.mp h.addrs
    room := fun a ha => h.room a (((hp.map _).append_right _).mem_iff.mpr ha)
    kinds := fun m hm => h.kinds m (hp.mem_iff.mpr hm)
    counts := fun c hc => ?_ }
  rw [refs, ← hp.countP_eq]
  exact h.counts c hc

/-- An mbuf is no longer in use. -/
theorem drop (h : World owner pool k s (m :: live)) :
    World owner pool k s live ∧ Fresh owner s live m.addr := by
  have haddrs := h.addrs
  rw [map_cons, cons_append, nodup_cons] at haddrs
  refine ⟨{ h with
    addrs := haddrs.2
    room := fun a ha => h.room a (mem_cons_of_mem _ ha)
    kinds := fun m hm => h.kinds m (mem_cons_of_mem _ hm)
    counts := fun c hc => ?_ }, haddrs.1, h.room m.addr (by simp)⟩
  have hcount := h.counts c hc
  rw [refs_cons] at hcount
  exact ⟨by omega, hcount.2⟩

section

variable (h : World owner pool k s live)
include h

/-- An mbuf comes into use. -/
theorem adopt (hfresh : Fresh owner s live m.addr) (htype : m.m_type ≠ MT_FREE)
    (hkind : Small m ∨ (∃ c ∈ pool, Clustered m c) ∨ Funny owner s.kmem m)
    (hcount : ∀ c ∈ pool ++ s.clusters.flatten, m.refers c = true → refs live c < k c) :
    World owner pool k s (m :: live) := by
  refine { h with
    addrs := ?_, room := fun a ha => ?_, kinds := fun m' hm' => ?_, counts := fun c hc => ?_ }
  · rw [map_cons, cons_append, nodup_cons]
    exact ⟨hfresh.notin, h.addrs⟩
  · rcases List.mem_cons.mp ha with rfl | ha
    · exact hfresh.fills
    · exact h.room a ha
  · rcases List.mem_cons.mp hm' with rfl | hm'
    · exact ⟨htype, hkind⟩
    · exact h.kinds m' hm'
  · obtain ⟨h1, h2⟩ := h.counts c hc
    rw [refs_cons]
    refine ⟨?_, h2⟩
    by_cases href : m.refers c = true
    · rw [if_pos href]
      exact hcount c hc href
    · rw [if_neg href]
      exact h1

/-- An address is taken from those that are free. -/
theorem take (hspare : s.spare = a :: s'.spare)
    (hs' : s' = { s with mfree := s'.mfree, more := s'.more }) :
    World owner pool k s' live ∧ Fresh owner s' live a := by
  have haddrs := h.addrs
  rw [hspare, nodup_middle, nodup_cons] at haddrs
  have hroom := h.room
  rw [hspare] at hroom
  have hworld : World owner pool k s' live := by
    rw [hs']
    refine { h with addrs := ?_, room := fun a' ha' => ?_, kinds := h.kinds }
    · exact haddrs.2
    · refine hroom a' ?_
      rcases List.mem_append.mp ha' with h' | h'
      · exact mem_append_left _ h'
      · exact mem_append_right _ (mem_cons_of_mem _ h')
  exact ⟨hworld, haddrs.1, hroom a (by simp)⟩

/-- An address is released. -/
theorem release (hfresh : Fresh owner s live a) :
    World owner pool k { s with mfree := a :: s.mfree } live := by
  refine { h with addrs := ?_, room := fun a' ha' => ?_, kinds := h.kinds }
  · rw [show ({ s with mfree := a :: s.mfree } : kern).spare = a :: s.spare from rfl,
      nodup_middle, nodup_cons]
    exact ⟨hfresh.notin, h.addrs⟩
  · rcases List.mem_append.mp ha' with h' | h'
    · exact h.room a' (mem_append_left _ h')
    · rcases List.mem_cons.mp h' with rfl | h'
      · exact hfresh.fills
      · exact h.room a' (mem_append_right _ h')

/-- A block is taken from those of `kmem_alloc`. -/
theorem spend {b : ℤ × ℤ} {kmem : List (ℤ × ℤ)} (hkmem : s.kmem = b :: kmem) (μ : ℤ → UInt8) :
    World owner pool k { s with kmem := kmem, memory := μ } live := by
  have hnodup := h.kmem_nodup
  have hfills := h.kmem
  rw [hkmem] at hnodup hfills
  refine { h with
    kmem_nodup := (List.nodup_cons.mp hnodup).2
    kmem := fun b' hb' => hfills b' (mem_cons_of_mem _ hb')
    kinds := fun m hm => ?_ }
  obtain ⟨htype, hsmall | hcl | hfunny⟩ := h.kinds m hm
  · exact ⟨htype, Or.inl hsmall⟩
  · exact ⟨htype, Or.inr (Or.inl hcl)⟩
  · refine ⟨htype, Or.inr (Or.inr ⟨hfunny.off, hfunny.cltype, hfunny.len, hfunny.hi,
      fun a h1 h2 => ?_⟩)⟩
    rcases hfunny.mem a h1 h2 with hother | ⟨b', hb', hnot⟩
    · exact Or.inl hother
    · refine Or.inr ⟨b', hb', fun hin => hnot ?_⟩
      rw [hkmem]
      exact mem_cons_of_mem _ hin

/-- The counts with that of `c` set to `x`. -/
theorem setcount (hc : c ∈ pool) {x : ℕ} {v : ℤ} (hx : refs live c ≤ x ∧ x ≤ 256 ∧ v = int8 x) :
    ∀ d ∈ pool ++ s.clusters.flatten, refs live d ≤ update k c x d ∧
      update k c x d ≤ 256 ∧
      update s.mclrefcnt (s.mtoclx c) v (s.mtoclx d) = int8 (update k c x d) := by
  intro d hd
  by_cases hdc : d = c
  · subst hdc
    rw [update_self, update_self]
    exact hx
  · have hidx : s.mtoclx d ≠ s.mtoclx c := fun heq =>
      hdc (h.mtoclx_inj hd (mem_append_left _ hc) heq)
    rw [update_of_ne hdc, update_of_ne hidx]
    exact h.counts d hd

/-- A cluster of the pool has not been allocated twice. -/
theorem unused_ne (hc : c ∈ pool) {d : ℤ} (hd : d ∈ s.clusters.flatten) : d ≠ c := by
  rintro rfl
  exact (List.nodup_append.mp h.pool_nodup).2.2 d hc d hd rfl

/-- A cluster that is referred to before and after. -/
theorem recount (hc : c ∈ pool) {x : ℕ} {v : ℤ} (hpos : 0 < k c) (hxpos : 0 < x)
    (hx : refs live c ≤ x ∧ x ≤ 256 ∧ v = int8 x) :
    World owner pool (update k c x)
      { s with mclrefcnt := update s.mclrefcnt (s.mtoclx c) v } live := by
  refine { h with
    counts := h.setcount hc hx, unused := fun d hd => ?_, free := fun d => ?_, kinds := h.kinds }
  · rw [update_of_ne (h.unused_ne hc hd)]
    exact h.unused d hd
  · by_cases hdc : d = c
    · subst hdc
      rw [update_self, h.free]
      omega
    · rw [update_of_ne hdc]
      exact h.free d

/-- One more reference to a cluster that has some. -/
theorem up (hc : c ∈ pool) (hpos : 0 < k c) (hk : k c < 256) :
    World owner pool (update k c (k c + 1))
      { s with mclrefcnt :=
          update s.mclrefcnt (s.mtoclx c) (int8 (s.mclrefcnt (s.mtoclx c) + 1)) }
      live := by
  obtain ⟨h1, -, h2⟩ := h.counts c (mem_append_left _ hc)
  refine h.recount hc hpos (Nat.succ_pos _) ⟨by omega, by omega, ?_⟩
  rw [h2, int8_int8_add]
  rfl

/-- The first reference to a cluster, which was the first on the free list. -/
theorem first {mclfree : List ℤ} (hfree : s.mclfree = c :: mclfree) :
    World owner pool (update k c 1)
      { s with
        mclrefcnt :=
          update s.mclrefcnt (s.mtoclx c) (int8 (s.mclrefcnt (s.mtoclx c) + 1))
        m_clfree := s.m_clfree - 1
        mclfree := mclfree } live := by
  obtain ⟨hc, hzero⟩ := (h.free c).mp (by rw [hfree]; simp)
  have hnodup := h.free_nodup
  rw [hfree, nodup_cons] at hnodup
  obtain ⟨h1, -, h2⟩ := h.counts c (mem_append_left _ hc)
  refine { h with
    counts := h.setcount hc ⟨by omega, by omega, ?_⟩
    unused := fun d hd => ?_
    free := fun d => ?_
    free_nodup := hnodup.2
    m_clfree := ?_
    kinds := h.kinds }
  · rw [h2, hzero]
    rfl
  · rw [update_of_ne (h.unused_ne hc hd)]
    exact h.unused d hd
  · have hd := h.free d
    rw [hfree, mem_cons] at hd
    by_cases hdc : d = c
    · subst hdc
      rw [update_self]
      exact iff_of_false hnodup.1 (by simp)
    · rw [update_of_ne hdc, ← hd]
      simp [hdc]
  · show s.m_clfree - 1 = mclfree.length
    rw [h.m_clfree, hfree, length_cons]
    omega

/-- One reference less, to a cluster that still has some. -/
theorem down (hc : c ∈ pool) (href : refs live c < k c) (hk : k c ≠ 1) :
    World owner pool (update k c (k c - 1))
      { s with mclrefcnt :=
          update s.mclrefcnt (s.mtoclx c) (int8 (s.mclrefcnt (s.mtoclx c) - 1)) }
      live := by
  obtain ⟨h1, h2, h3⟩ := h.counts c (mem_append_left _ hc)
  refine h.recount hc (by omega) (by omega) ⟨by omega, by omega, ?_⟩
  rw [h3, sub_eq_add_neg, int8_int8_add]
  congr 1
  omega

/-- The last reference: the cluster is put on the free list, where `m->m_next` is stored in it. -/
theorem last (hc : c ∈ pool) (href : refs live c < k c) (hk : k c = 1) (μ : ℤ → UInt8) :
    World owner pool (update k c 0)
      { s with
        memory := μ
        mclrefcnt :=
          update s.mclrefcnt (s.mtoclx c) (int8 (s.mclrefcnt (s.mtoclx c) - 1))
        m_clfree := s.m_clfree + 1
        mclfree := c :: s.mclfree } live := by
  obtain ⟨h1, h2, h3⟩ := h.counts c (mem_append_left _ hc)
  have hnot : c ∉ s.mclfree := fun hin => by
    have := ((h.free c).mp hin).2
    omega
  refine { h with
    counts := h.setcount hc ⟨by omega, by omega, ?_⟩
    unused := fun d hd => ?_
    free := fun d => ?_
    free_nodup := List.nodup_cons.mpr ⟨hnot, h.free_nodup⟩
    m_clfree := ?_
    kinds := h.kinds }
  · rw [h3, hk]
    rfl
  · rw [update_of_ne (h.unused_ne hc hd)]
    exact h.unused d hd
  · rw [mem_cons]
    by_cases hdc : d = c
    · subst hdc
      rw [update_self]
      exact iff_of_true (Or.inl rfl) ⟨hc, rfl⟩
    · rw [update_of_ne hdc, ← h.free d]
      simp [hdc]
  · show s.m_clfree + 1 = (c :: s.mclfree).length
    rw [h.m_clfree, length_cons]
    omega

end

end World

/-! ## Data -/

/-- Memory of `o` is not read as data of `m`. -/
def Foreign (kmem : List (ℤ × ℤ)) (m : mbuf) : Owner → Prop
  | .mbuf a => a ≠ m.addr
  | .cluster c => m.refers c = false
  | .kmem b => b ∈ kmem.map Prod.fst
  | .other => False

/-- Stores into memory of `o`. -/
theorem Fills.write {o : Owner} {x : ℤ} (h : Fills owner p x o) (μ : ℤ → UInt8) {q : ℤ}
    {l : List UInt8} (hlo : p ≤ q) (hhi : q + l.length ≤ p + x) :
    ∀ a, owner a ≠ o → write μ q l a = μ a := by
  intro a ha
  refine write_of_outside μ ?_
  by_contra hin
  exact ha (h.mem a (by omega) (by omega))

/-- **Data stay as they are** when only memory that is foreign to them changes. -/
theorem World.frame (h : World owner pool k s live) (hm : m ∈ live) {o : Owner}
    (ho : Foreign s.kmem m o) {μ : ℤ → UInt8} (hμ : ∀ a, owner a ≠ o → μ a = s.memory a) :
    read μ m.mtod m.m_len.toNat = s.data m := by
  refine read_congr fun i hi => hμ _ ?_
  rintro hown
  obtain ⟨-, hsmall | ⟨c, hc, hcl⟩ | hfunny⟩ := h.kinds m hm
  · have hroom := h.room m.addr (mem_append_left _ (mem_map_of_mem hm))
    have hmtod := hsmall.mtod hroom
    have h1 := hsmall.off
    have h2 := hsmall.fits
    rw [MMINOFF] at h1
    rw [MMAXOFF] at h2
    rw [hroom.mem _ (by lia) (by rw [MSIZE]; lia)] at hown
    rw [← hown] at ho
    exact ho rfl
  · have hfills := (h.clusters c (mem_append_left _ hc)).2.2
    have h1 := hcl.lo
    have h2 := hcl.fits
    rw [hfills.mem _ (by lia) (by lia)] at hown
    rw [← hown, Foreign, hcl.refers] at ho
    cases ho
  · rcases hfunny.mem (m.mtod + i) (by lia) (by lia) with h' | ⟨b, h', hb⟩
    · rw [h'] at hown
      rw [← hown] at ho
      exact ho
    · rw [h'] at hown
      rw [← hown] at ho
      exact hb ho

end Uipc
