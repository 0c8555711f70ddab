/-
# What the operations on mbufs do to their memory

Each operation keeps `World` for the mbufs that are left in use, and their data; `Exact` counts
stay exact unless an mbuf is freed whose cluster is right behind it, at `m_off = MSIZE`.
-/
import SunOS.Kern.UipcInv

namespace Uipc

open List
open Function (update update_of_ne update_self)
open CellMemory

variable {owner : ℤ → Owner} {pool : List ℤ} {k : ℤ → ℕ} {s s' : kern} {live : List mbuf}
  {m n : mbuf} {a c p : ℤ}

/-- The counts are the numbers of references. -/
def Exact (pool : List ℤ) (k : ℤ → ℕ) (live : List mbuf) : Prop := ∀ c ∈ pool, refs live c = k c

theorem Exact.perm (h : Exact pool k live) {live' : List mbuf} (hp : live.Perm live') :
    Exact pool k live' := by
  intro c hc
  rw [refs, ← hp.countP_eq]
  exact h c hc

/-! ## MFREE -/

/-- What `MFREE` of `m` leaves. -/
structure Freed (owner : ℤ → Owner) (pool : List ℤ) (k : ℤ → ℕ) (s : kern) (live : List mbuf)
    (m : mbuf) (k' : ℤ → ℕ) (s' : kern) : Prop where
  world : World owner pool k' s' live
  mfree : s'.mfree = m.addr :: s.mfree
  more : s'.more = s.more
  kmem : s'.kmem = s.kmem
  data : ∀ m' ∈ live, s'.data m' = s.data m'
  le : ∀ c, k' c ≤ k c
  keeps : m.m_off ≠ MSIZE → Exact pool k (m :: live) → Exact pool k' live

/-- The cluster of an mbuf is outside of it. -/
theorem World.msize_le (h : World owner pool k s live) (hm : m ∈ live) (hc : c ∈ pool)
    (hcl : Clustered m c) : MSIZE ≤ m.m_off := by
  have hroom := h.room m.addr (mem_append_left _ (mem_map_of_mem hm))
  have hfills := (h.clusters c (mem_append_left _ hc)).2.2
  have h1 := hcl.off
  have h2 := hroom.lo
  have h3 := hroom.hi
  by_contra hlt
  rw [MSIZE] at h3 hlt
  rw [MMAXOFF] at h1
  have hmtod : m.mtod = m.addr + m.m_off := uint32_of_ufits ⟨by omega, by omega⟩
  have hown := hfills.mem m.mtod hcl.lo hcl.hi
  rw [hroom.mem m.mtod (by omega) (by rw [MSIZE]; omega)] at hown
  cases hown

/-- Counts without references that were dropped are exact. -/
theorem Exact.update (h : Exact pool k (m :: live)) (hw : World owner pool k s (m :: live))
    (hc : c ∈ pool) (href : m.refers c = true) :
    Exact pool (update k c (k c - 1)) live := by
  intro d hd
  have hd' := h d hd
  rw [refs_cons] at hd'
  by_cases hdc : d = c
  · subst hdc
    rw [if_pos href] at hd'
    rw [update_self]
    omega
  · have hnot : ¬ m.refers d = true := fun href' => hdc
      (hw.refers_unique (mem_append_left _ hd) (mem_append_left _ hc) href' href)
    rw [if_neg hnot] at hd'
    rw [update_of_ne hdc]
    exact hd'

theorem Exact.of_not_refers (h : Exact pool k (m :: live)) (hm : ∀ c, m.refers c = false) :
    Exact pool k live := by
  intro d hd
  have hd' := h d hd
  rw [refs_cons, hm d] at hd'
  exact hd'

/-- **`MFREE`** puts the mbuf on the free list, and its cluster if it was the last to refer to
it; the data of the others stay. -/
theorem MFREE_spec (h : World owner pool k s (m :: live)) :
    ∃ s' k', MFREE s m = .ok s' ∧ Freed owner pool k s live m k' s' := by
  obtain ⟨hw, hfresh⟩ := h.drop
  obtain ⟨htype, hkind⟩ := h.kinds m (by simp)
  have hplain : ∀ called, (∀ c, m.refers c = false) →
      Freed owner pool k s live m k { s with called := called, mfree := m.addr :: s.mfree } := by
    intro called hno
    have hrel := hw.release hfresh
    exact ⟨{ hrel with kinds := hrel.kinds }, rfl, rfl, rfl, fun _ _ => rfl, fun _ => le_refl _,
      fun _ hex => hex.of_not_refers hno⟩
  rw [MFREE, if_neg htype]
  rcases hkind with hsmall | ⟨c, hc, hcl⟩ | hfunny
  · have h1 := hsmall.len
    have h2 := hsmall.fits
    rw [MMAXOFF] at h2
    rw [if_neg (by rw [MSIZE]; lia)]
    exact ⟨_, k, rfl, hplain s.called hsmall.not_refers⟩
  · by_cases hoff : m.m_off > MSIZE
    · -- the cluster loses a reference
      have hcc := mem_append_left s.clusters.flatten hc
      obtain ⟨halign, -, hfills⟩ := h.clusters c hcc
      have hcount := h.counts c hcc
      rw [refs_cons, if_pos hcl.refers] at hcount
      obtain ⟨hle, hk, hcnt⟩ := hcount
      have hcnt' : int8 (s.mclrefcnt (s.mtoclx c) - 1) = int8 ((k c - 1 : ℕ) : ℤ) := by
        rw [hcnt, sub_eq_add_neg, int8_int8_add]
        congr 1
        lia
      have hzero := int8_natCast_eq_zero (n := k c - 1) (by lia)
      rw [if_pos hoff, mclput, if_pos hcl.cltype]
      simp only [cluster_start halign hcl.lo hcl.hi]
      by_cases hone : k c = 1
      · have hlast := hw.last hc (by lia) hone
          (write s.memory c (intBytes (s.mclfree.head?.getD 0)))
        rw [hcnt'] at hlast ⊢
        rw [if_pos (hzero.mpr (by lia))]
        refine ⟨_, update k c 0, rfl, ?_⟩
        refine ⟨hlast.release ⟨hfresh.notin, hfresh.fills⟩, rfl, rfl, rfl, fun m' hm' => ?_,
          fun d => ?_, fun _ hex => ?_⟩
        · have hno : m'.refers c = false := by
            have hnone : refs live c = 0 := by lia
            rw [refs, countP_eq_zero] at hnone
            simpa using hnone m' hm'
          exact hw.frame hm' (o := .cluster c) hno
            (hfills.write s.memory (le_refl c) (by rw [MCLBYTES]; simp [intBytes]))
        · by_cases hdc : d = c
          · subst hdc
            simp
          · rw [update_of_ne hdc]
        · have hupd := hex.update h hc hcl.refers
          rw [hone] at hupd
          exact hupd
      · have hdown := hw.down hc (by lia) hone
        rw [hcnt'] at hdown ⊢
        rw [if_neg (fun h0 => hone (by have := hzero.mp h0; lia))]
        refine ⟨_, update k c (k c - 1), rfl, ?_⟩
        refine ⟨hdown.release ⟨hfresh.notin, hfresh.fills⟩, rfl, rfl, rfl, fun _ _ => rfl,
          fun d => ?_, fun _ hex => hex.update h hc hcl.refers⟩
        by_cases hdc : d = c
        · subst hdc
          simp
        · rw [update_of_ne hdc]
    · -- the cluster is right behind the mbuf and is forgotten
      have hmsize := h.msize_le (by simp) hc hcl
      rw [if_neg hoff]
      refine ⟨_, k, rfl, hw.release hfresh, rfl, rfl, rfl, fun _ _ => rfl, fun _ => le_refl _,
        fun hne => absurd (le_antisymm (not_lt.mp hoff) hmsize) hne⟩
  · by_cases hoff : m.m_off > MSIZE
    · rw [if_pos hoff, mclput, if_neg (by rw [hfunny.cltype]; decide), if_pos hfunny.cltype]
      exact ⟨_, k, rfl, hplain _ hfunny.not_refers⟩
    · rw [if_neg hoff]
      exact ⟨_, k, rfl, hplain s.called hfunny.not_refers⟩

/-- What `m_freem` of the chain `mp` leaves. -/
structure AllFreed (owner : ℤ → Owner) (pool : List ℤ) (k : ℤ → ℕ) (s : kern) (live mp : List mbuf)
    (k' : ℤ → ℕ) (s' : kern) : Prop where
  world : World owner pool k' s' live
  mfree : s'.mfree = (mp.map mbuf.addr).reverse ++ s.mfree
  more : s'.more = s.more
  kmem : s'.kmem = s.kmem
  data : ∀ m' ∈ live, s'.data m' = s.data m'
  le : ∀ c, k' c ≤ k c

/-- **`m_freem`** frees each mbuf of the chain. -/
theorem m_freem_spec {mp : List mbuf} (h : World owner pool k s (mp ++ live)) :
    ∃ s' k', m_freem s mp = .ok s' ∧ AllFreed owner pool k s live mp k' s' := by
  induction mp generalizing s k with
  | nil => exact ⟨s, k, rfl, h, rfl, rfl, rfl, fun _ _ => rfl, fun _ => le_refl _⟩
  | cons m mp ih =>
    obtain ⟨s1, k1, heq, hf⟩ := MFREE_spec h
    obtain ⟨s2, k2, heq', hf'⟩ := ih hf.world
    refine ⟨s2, k2, ?_, hf'.world, ?_, hf'.more.trans hf.more, hf'.kmem.trans hf.kmem,
      fun m' hm' => ?_, fun c => (hf'.le c).trans (hf.le c)⟩
    · rw [m_freem, heq]
      exact heq'
    · rw [hf'.mfree, hf.mfree, map_cons, reverse_cons, append_assoc]
      rfl
    · exact (hf'.data m' hm').trans (hf.data m' (mem_append_right _ hm'))

/-! ## MGET -/

/-- What `MGET` gives. -/
inductive Got (s : kern) (type : ℤ) : Option mbuf × kern → Prop
  | some {a : ℤ} {s' : kern} (spare : s.spare = a :: s'.spare)
      (state : s' = { s with mfree := s'.mfree, more := s'.more }) :
        Got s type (some (mgot type a), s')
  | none {s' : kern} (mfree : s.mfree = []) (spare : s'.spare = s.spare)
      (state : s' = { s with more := s'.more }) : Got s type (none, s')

theorem MGET_spec (s : kern) (type : ℤ) : Got s type (MGET s type) := by
  rw [MGET]
  cases hfree : s.mfree with
  | cons a mfree =>
    refine .some ?_ rfl
    rw [kern.spare, hfree]
    rfl
  | nil =>
    rcases hmore : s.more with _ | ⟨_ | ⟨a, mfree⟩, more⟩
    · exact .none hfree rfl rfl
    · refine .none hfree ?_ (by rw [← hfree])
      rw [kern.spare, kern.spare, hmore, hfree]
      rfl
    · refine .some ?_ rfl
      rw [kern.spare, kern.spare, hfree, hmore]
      rfl

/-- Nothing is got. -/
theorem World.unget (h : World owner pool k s live) (hspare : s'.spare = s.spare)
    (hs' : s' = { s with more := s'.more }) : World owner pool k s' live := by
  have haddrs := h.addrs
  have hroom := h.room
  rw [← hspare] at haddrs hroom
  rw [hs'] at haddrs hroom ⊢
  exact { h with addrs := haddrs, room := hroom, kinds := h.kinds }

theorem mgot_small (type a : ℤ) : Small (mgot type a) :=
  ⟨le_refl _, le_refl _, by
    show MMINOFF + 0 ≤ MMAXOFF
    decide⟩

/-- An mbuf is got. -/
theorem World.get (h : World owner pool k s live) {type : ℤ} (htype : type ≠ MT_FREE)
    (hspare : s.spare = a :: s'.spare) (hs' : s' = { s with mfree := s'.mfree, more := s'.more }) :
    World owner pool k s' (mgot type a :: live) := by
  obtain ⟨hw, hfresh⟩ := h.take hspare hs'
  exact hw.adopt hfresh htype (Or.inl (mgot_small type a))
    fun c _ href => by rw [(mgot_small type a).not_refers] at href; cases href

/-! ## mclget -/

/-- The free list grows when it is empty. -/
theorem World.grow (h : World owner pool k s live) :
    World owner (s.grown ++ pool) k s.grow live := by
  rw [kern.grow]
  cases hfree : s.mclfree with
  | cons c mclfree =>
    rw [kern.grown, hfree]
    exact h
  | nil =>
    have hflat : s.grown ++ s.clusters.tail.flatten = s.clusters.flatten := by
      rw [kern.grown, hfree]
      cases s.clusters with
      | nil => rfl
      | cons cs clusters => rfl
    have hperm : (s.grown ++ pool ++ s.clusters.tail.flatten).Perm
      (pool ++ s.clusters.flatten) := by
      rw [← hflat, ← append_assoc]
      exact List.perm_append_comm.append_right _
    have hsub : ∀ c ∈ s.grown, c ∈ s.clusters.flatten := fun c hc => by
      rw [← hflat]
      exact mem_append_left _ hc
    have hnodup := (List.nodup_append.mp h.pool_nodup).2.1
    rw [← hflat] at hnodup
    refine { h with
      clusters := fun c hc => h.clusters c (hperm.mem_iff.mp hc)
      pool_nodup := hperm.nodup_iff.mpr h.pool_nodup
      counts := fun c hc => h.counts c (hperm.mem_iff.mp hc)
      unused := fun c hc => h.unused c (by
        rw [← hflat]
        exact mem_append_right _ hc)
      free := fun c => ?_
      free_nodup := (List.nodup_append.mp hnodup).1
      m_clfree := ?_
      kinds := fun m hm => ?_ }
    · obtain ⟨htype, hsmall | ⟨c, hc, hcl⟩ | hfunny⟩ := h.kinds m hm
      · exact ⟨htype, Or.inl hsmall⟩
      · exact ⟨htype, Or.inr (Or.inl ⟨c, mem_append_right _ hc, hcl⟩)⟩
      · exact ⟨htype, Or.inr (Or.inr hfunny)⟩
    · rw [mem_append]
      constructor
      · exact fun hc => ⟨Or.inl hc, h.unused c (hsub c hc)⟩
      · rintro ⟨hc | hc, hzero⟩
        · exact hc
        · have := (h.free c).mpr ⟨hc, hzero⟩
          rw [hfree] at this
          cases this
    · show s.m_clfree + s.grown.length = s.grown.length
      rw [h.m_clfree, hfree]
      simp

theorem Exact.grow (hex : Exact pool k live) (h : World owner pool k s live) :
    Exact (s.grown ++ pool) k live := by
  intro c hc
  rcases List.mem_append.mp hc with hnew | hold
  · have hin : c ∈ s.clusters.flatten := by
      rw [kern.grown] at hnew
      cases hfree : s.mclfree with
      | nil =>
        rw [hfree] at hnew
        cases hcl : s.clusters with
        | nil =>
          rw [hcl] at hnew
          cases hnew
        | cons cs clusters =>
          rw [hcl] at hnew
          exact mem_append_left _ hnew
      | cons d mclfree =>
        rw [hfree] at hnew
        cases hnew
    have hle := (h.counts c (mem_append_right _ hin)).1
    have hzero := h.unused c hin
    omega
  · exact hex c hold

/-- What `mclget` of an mbuf with its own room leaves. -/
inductive Clgot (owner : ℤ → Owner) (pool : List ℤ) (k : ℤ → ℕ) (live : List mbuf) (m : mbuf) :
    Option mbuf × kern → Prop
  | some {m' : mbuf} {k' : ℤ → ℕ} {s' : kern} (world : World owner pool k' s' (m' :: live))
      (keeps : Exact pool k (m :: live) → Exact pool k' (m' :: live)) :
        Clgot owner pool k live m (some m', s')
  | none {s' : kern} (world : World owner pool k s' (m :: live)) :
    Clgot owner pool k live m (none, s')

/-- **`mclget`** gives an mbuf the first free cluster. -/
theorem mclget_spec (h : World owner pool k s (m :: live)) (hsmall : Small m) :
    Clgot owner (s.grown ++ pool) k live m (mclget s m) := by
  have hgrow := h.grow
  generalize s.grown ++ pool = pool' at hgrow
  rw [mclget]
  generalize s.grow = s1 at hgrow
  cases hfree : s1.mclfree with
  | nil => exact .none hgrow
  | cons c mclfree =>
    obtain ⟨hw, hfresh⟩ := hgrow.drop
    obtain ⟨hc, hzero⟩ := (hw.free c).mp (by rw [hfree]; simp)
    have hcc := mem_append_left s1.clusters.flatten hc
    obtain ⟨-, -, hfills⟩ := hw.clusters c hcc
    have h1 := hfills.lo
    have h2 := hfills.hi
    rw [MCLBYTES] at h2
    have hown := hfills.mem c (le_refl c) (by rw [MCLBYTES]; omega)
    obtain ⟨hfar, hback⟩ := far (p := c) hfresh.fills ⟨h1, by omega⟩ (by rw [hown]; simp)
    have hmtod : ({ m with m_len := MCLBYTES, m_off := uint32 (c - m.addr), m_cltype := 1 } :
        mbuf).mtod = c := hback
    have hnew : Clustered { m with m_len := MCLBYTES, m_off := uint32 (c - m.addr), m_cltype := 1 }
        c := by
      refine ⟨hfar, rfl, ?_, ?_, ?_, ?_⟩
      · show 0 ≤ MCLBYTES
        decide
      · rw [hmtod]
      · rw [hmtod, MCLBYTES]
        omega
      · rw [hmtod]
    have honly : ∀ d ∈ pool' ++ s1.clusters.flatten,
        ({ m with m_len := MCLBYTES, m_off := uint32 (c - m.addr), m_cltype := 1 } :
          mbuf).refers d = true → d = c :=
      fun d hd href => hw.refers_unique hd hcc href hnew.refers
    have hnone : refs live c = 0 := by
      have := (hw.counts c hcc).1
      omega
    refine .some ((hw.first hfree).adopt ⟨hfresh.notin, hfresh.fills⟩ (h.kinds m (by simp)).1
      (Or.inr (Or.inl ⟨c, hc, hnew⟩)) fun d hd href => ?_) fun hex d hd => ?_
    · obtain rfl := honly d hd href
      rw [update_self, hnone]
      exact Nat.zero_lt_one
    · have hex' := hex.of_not_refers hsmall.not_refers
      rw [refs_cons]
      by_cases hdc : d = c
      · subst hdc
        rw [update_self, if_pos hnew.refers, hnone]
      · rw [update_of_ne hdc, if_neg, Nat.add_zero, hex' d hd]
        exact fun href => hdc (honly d (mem_append_left _ hd) href)

/-! ## Copies -/

/-- The bytes of `m` that are copied. -/
theorem read_part (s : kern) (m : mbuf) {off l : ℤ} (hoff : 0 ≤ off) (hl : 0 ≤ l)
    (hfits : off + l ≤ m.m_len) :
    read s.memory (m.mtod + off) l.toNat = ((s.data m).drop off.toNat).take l.toNat := by
  rw [kern.data, drop_read _ _ (by omega), take_read _ _ (by omega), Int.toNat_of_nonneg hoff]

/-- What a copy of the part of `m` from `off` on in the new mbuf at `a` leaves. -/
structure Copied (owner : ℤ → Owner) (pool : List ℤ) (k : ℤ → ℕ) (s : kern) (live : List mbuf)
    (m n : mbuf) (off : ℤ) (n' : mbuf) (k' : ℤ → ℕ) (s' : kern) : Prop where
  world : World owner pool k' s' (n' :: live)
  addr : n'.addr = n.addr
  len : n'.m_len = n.m_len
  new : s'.data n' = ((s.data m).drop off.toNat).take n.m_len.toNat
  data : ∀ m' ∈ live, s'.data m' = s.data m'
  spare : s'.spare = s.spare
  mfree : s'.mfree = s.mfree
  le : ∀ c, k' c ≤ k c + if m.refers c then 1 else 0
  keeps : Exact pool k live → Exact pool k' (n' :: live)

variable {type off l : ℤ}

section

variable (h : World owner pool k s live)
include h

/-- Bytes copied into the new mbuf. -/
theorem copy_small
    (hfresh : Fresh owner s live n.addr) (htype : n.m_type ≠ MT_FREE) (hn : n.m_off = MMINOFF)
    (hoff : 0 ≤ off) (hl : 0 ≤ n.m_len) (hfits : off + n.m_len ≤ m.m_len) (hlen : n.m_len ≤ MLEN) :
    Copied owner pool k s live m n off n k
      (s.bcopy (read s.memory (m.mtod + off) n.m_len.toNat) n.mtod) := by
  rw [MLEN] at hlen
  have hsmall : Small n := by
    refine ⟨by rw [hn], hl, ?_⟩
    rw [hn, MMINOFF, MMAXOFF]
    omega
  have hmtod := hsmall.mtod hfresh.fills
  rw [hn, MMINOFF] at hmtod
  have hwrite := hfresh.fills.write (q := n.mtod) s.memory
    (l := read s.memory (m.mtod + off) n.m_len.toNat) (by omega) (by
      rw [length_read, MSIZE]
      omega)
  have hadopt := h.adopt hfresh htype (Or.inl hsmall)
    (fun c _ href => by rw [hsmall.not_refers] at href; cases href)
  refine ⟨{ hadopt with kinds := hadopt.kinds }, rfl, rfl, ?_, fun m' hm' => ?_, rfl, rfl,
    fun c => Nat.le_add_right _ _, fun hex c hc => ?_⟩
  · rw [← read_part s m hoff hl hfits, kern.data, kern.bcopy]
    have hrw := read_write s.memory n.mtod (read s.memory (m.mtod + off) n.m_len.toNat)
    rw [length_read] at hrw
    exact hrw
  · refine h.frame hm' (o := .mbuf n.addr) ?_ hwrite
    rintro heq
    exact hfresh.notin (mem_append_left _ (heq ▸ mem_map_of_mem hm'))
  · rw [refs_cons, hsmall.not_refers, hex c hc]
    rfl

/-- A reference to the cluster of `m`. -/
theorem copy_cluster (hm : m ∈ live)
    (hfresh : Fresh owner s live n.addr) (htype : n.m_type ≠ MT_FREE) (hc : c ∈ pool)
    (hcl : Clustered m c) (hk : k c < 256) (hoff : 0 ≤ off) (hl : 0 < n.m_len)
    (hfits : off + n.m_len ≤ m.m_len) :
    ∃ n' s', (mcldup s m n off).map (fun r =>
      ({ r.1 with m_off := uint32 (r.1.m_off + off) }, r.2)) =
        .ok (n', s') ∧
      Copied owner pool k s live m n off n' (update k c (k c + 1)) s' := by
  have hcc := mem_append_left s.clusters.flatten hc
  obtain ⟨-, -, hfills⟩ := h.clusters c hcc
  have hlo := hcl.lo
  have hhi := hcl.fits
  have h1 := hfills.lo
  have h2 := hfills.hi
  have hpos : 0 < k c := by
    have hcount := (h.counts c hcc).1
    have hmem : 0 < refs live c := List.countP_pos_iff.mpr ⟨m, hm, hcl.refers⟩
    lia
  have hown := hfills.mem (m.mtod + off) (by lia) (by lia)
  obtain ⟨hfar, hback⟩ := far (p := m.mtod + off) hfresh.fills ⟨by lia, by lia⟩
    (by rw [hown]; simp)
  have hmoff : uint32 (uint32 (m.mtod - n.addr) + off) = uint32 (m.mtod + off - n.addr) := by
    rw [uint32_uint32_add]
    congr 1
    ring
  have hidx : s.mtoclx m.mtod = s.mtoclx c := h.mtoclx_eq hcc hlo hcl.hi
  rw [mcldup, if_pos hcl.cltype]
  refine ⟨_, _, rfl, ?_⟩
  simp only [hmoff, hidx]
  have hmtod : ({ n with m_off := uint32 (m.mtod + off - n.addr), m_cltype := 1 } : mbuf).mtod =
      m.mtod + off := hback
  have hnew : Clustered { n with m_off := uint32 (m.mtod + off - n.addr), m_cltype := 1 } c := by
    refine ⟨hfar, rfl, le_of_lt hl, ?_, ?_, ?_⟩
    · rw [hmtod]
      lia
    · rw [hmtod]
      lia
    · rw [hmtod]
      show m.mtod + off + n.m_len ≤ _
      lia
  have honly : ∀ d ∈ pool ++ s.clusters.flatten,
      ({ n with m_off := uint32 (m.mtod + off - n.addr), m_cltype := 1 } : mbuf).refers d = true →
        d = c := fun d hd href => h.refers_unique hd hcc href hnew.refers
  have hup := h.up hc hpos hk
  refine ⟨hup.adopt ⟨hfresh.notin, hfresh.fills⟩ htype (Or.inr (Or.inl ⟨c, hc, hnew⟩)) ?_, rfl, rfl,
    ?_, fun _ _ => rfl, rfl, rfl, ?_, fun hex d hd => ?_⟩
  · intro d hd href
    obtain rfl := honly d hd href
    rw [update_self]
    have := (h.counts d hd).1
    lia
  · rw [← read_part s m hoff (le_of_lt hl) hfits, kern.data, hmtod]
  · intro d
    by_cases hdc : d = c
    · subst hdc
      rw [update_self, if_pos hcl.refers]
    · rw [update_of_ne hdc]
      exact Nat.le_add_right _ _
  · rw [refs_cons]
    by_cases hdc : d = c
    · subst hdc
      rw [update_self, if_pos hnew.refers, hex d hd]
    · rw [update_of_ne hdc, if_neg, Nat.add_zero, hex d hd]
      exact fun href => hdc (honly d (mem_append_left _ hd) href)

/-- A copy in memory of `kmem_alloc`. -/
theorem copy_funny (hm : m ∈ live) (hfresh : Fresh owner s live n.addr) (htype : n.m_type ≠ MT_FREE)
    (hf : Funny owner s.kmem m) (hoff : 0 ≤ off) (hl : 0 < n.m_len)
    (hfits : off + n.m_len ≤ m.m_len) :
    (mcldup s m n off).map (fun r => ({ r.1 with m_off := uint32 (r.1.m_off + off) }, r.2)) =
        .error .kmem_alloc ∨
      ∃ n' s', (mcldup s m n off).map
          (fun r => ({ r.1 with m_off := uint32 (r.1.m_off + off) }, r.2)) = .ok (n', s') ∧
        Copied owner pool k s live m n off n' k s' := by
  rw [mcldup, if_neg (by rw [hf.cltype]; decide), if_pos hf.cltype, kmem_alloc]
  rcases hkmem : s.kmem with _ | ⟨⟨b, size⟩, kmem⟩
  · exact Or.inl rfl
  · by_cases hroom : n.m_len + sizeofInt ≤ size
    · right
      simp only [if_pos hroom]
      rw [sizeofInt] at hroom ⊢
      refine ⟨_, _, rfl, ?_⟩
      have hfills := h.kmem (b, size) (by rw [hkmem]; simp)
      have h1 := hfills.lo
      have h2 := hfills.hi
      have hb : b ∉ kmem.map Prod.fst := by
        have hnodup := h.kmem_nodup
        rw [hkmem, map_cons, nodup_cons] at hnodup
        exact hnodup.1
      -- the block is written twice: its size, and the bytes
      have hwrite1 := hfills.write (q := b) s.memory (l := intBytes (n.m_len + 4)) (le_refl b)
        (by simp [intBytes]; lia)
      generalize hμ₁ : write s.memory b (intBytes (n.m_len + 4)) = μ1 at hwrite1
      have hforeign : ∀ m' ∈ live, Foreign s.kmem m' (.kmem b) := fun m' _ => by
        rw [Foreign, hkmem]
        simp
      have hsrc : read μ1 (m.mtod + off) n.m_len.toNat =
          ((s.data m).drop off.toNat).take n.m_len.toNat := by
        rw [← h.frame hm (hforeign m hm) hwrite1]
        exact read_part { s with memory := μ1 } m hoff (le_of_lt hl) hfits
      simp only [kern.bcopy, hμ₁, hsrc]
      have hwrite2 := hfills.write (q := b + 4) μ1
        (l := ((s.data m).drop off.toNat).take n.m_len.toNat) (by lia) (by
          rw [length_take]
          lia)
      have hwrite : ∀ x, owner x ≠ .kmem b →
          write μ1 (b + 4) (((s.data m).drop off.toNat).take n.m_len.toNat) x = s.memory x :=
        fun x hx => (hwrite2 x hx).trans (hwrite1 x hx)
      have hown := hfills.mem (b + 4) (by lia) (by lia)
      obtain ⟨hfar, hback⟩ := far (p := b + 4) hfresh.fills ⟨by lia, by lia⟩
        (by rw [hown]; simp)
      have hmoff : uint32 (uint32 (b + 4 - n.addr - off) + off) = uint32 (b + 4 - n.addr) := by
        rw [uint32_uint32_add]
        congr 1
        ring
      rw [hmoff]
      have hmtod : ({ n with m_off := uint32 (b + 4 - n.addr), m_cltype := 2, m_clfun := .buffree,
                             m_clarg := b } : mbuf).mtod = b + 4 := hback
      have hnew : Funny owner kmem { n with m_off := uint32 (b + 4 - n.addr), m_cltype := 2,
                                            m_clfun := .buffree, m_clarg := b } := by
        have hshort := hf.len.2
        refine ⟨hfar, rfl, ⟨le_of_lt hl, by simp only []; lia⟩, ?_, fun x hlo hhi => ?_⟩
        · rw [hmtod]
          lia
        exact Or.inr ⟨b, hfills.mem x (by lia) (by simp only [] at hhi; lia), hb⟩
      have hspend := h.spend hkmem
        (write μ1 (b + 4) (((s.data m).drop off.toNat).take n.m_len.toNat))
      refine ⟨hspend.adopt ⟨hfresh.notin, hfresh.fills⟩ htype (Or.inr (Or.inr hnew))
        (fun d _ href => by rw [hnew.not_refers] at href; cases href), rfl, rfl, ?_,
        fun m' hm' => h.frame hm' (hforeign m' hm') hwrite, rfl, rfl, fun d => Nat.le_add_right _ _,
        fun hex d hd => ?_⟩
      · have hlen : (((s.data m).drop off.toNat).take n.m_len.toNat).length = n.m_len.toNat := by
          rw [length_take, length_drop, kern.data, length_read]
          lia
        have hrw := read_write μ1 (b + 4) (((s.data m).drop off.toNat).take n.m_len.toNat)
        rw [hlen] at hrw
        rw [kern.data, hmtod]
        exact hrw
      · rw [refs_cons, hnew.not_refers, hex d hd]
        rfl
    · left
      simp only [if_neg hroom]
      rfl

/-- No mbuf is longer than a `short` holds. -/
theorem World.len_bounds (hm : m ∈ live) : 0 ≤ m.m_len ∧ m.m_len ≤ 32767 := by
  obtain ⟨-, hsmall | ⟨c, -, hcl⟩ | hfunny⟩ := h.kinds m hm
  · have h1 := hsmall.off
    have h2 := hsmall.fits
    rw [MMINOFF] at h1
    rw [MMAXOFF] at h2
    exact ⟨hsmall.len, by omega⟩
  · have h1 := hcl.lo
    have h2 := hcl.fits
    rw [MCLBYTES] at h2
    exact ⟨hcl.len, by omega⟩
  · exact hfunny.len

/-- **The copy of a part of an mbuf**, by whatever means; `kmem_alloc` may panic. -/
theorem copyone_spec (hm : m ∈ live)
    (hfresh : Fresh owner s live n.addr) (htype : n.m_type ≠ MT_FREE) (hn : n.m_off = MMINOFF)
    (hk : n.m_len > MLEN → ∀ c ∈ pool, m.refers c = true → k c < 256) (hoff : 0 ≤ off)
    (hl : 0 ≤ n.m_len) (hfits : off + n.m_len ≤ m.m_len) :
    copyone s m n off = .error .kmem_alloc ∨
      ∃ n' k' s', copyone s m n off = .ok (n', s') ∧
        Copied owner pool k s live m n off n' k' s' := by
  rw [copyone]
  by_cases hdup : m.m_off > MMAXOFF ∧ n.m_len > MLEN
  · rw [if_pos hdup]
    have hpos : 0 < n.m_len := by
      have := hdup.2
      rw [MLEN] at this
      omega
    obtain ⟨-, hsmall | ⟨c, hc, hcl⟩ | hfunny⟩ := h.kinds m hm
    · have h1 := hsmall.len
      have h2 := hsmall.fits
      omega
    · obtain ⟨n', s', heq, hcopied⟩ := copy_cluster h hm hfresh htype hc hcl
        (hk hdup.2 c hc hcl.refers) hoff
        hpos hfits
      exact Or.inr ⟨n', _, s', heq, hcopied⟩
    · rcases copy_funny h hm hfresh htype hfunny hoff hpos hfits with heq | ⟨n', s', heq, hcopied⟩
      · exact Or.inl heq
      · exact Or.inr ⟨n', k, s', heq, hcopied⟩
  · rw [if_neg hdup]
    refine Or.inr ⟨n, k, _, rfl, copy_small h hfresh htype hn hoff hl hfits ?_⟩
    by_contra hbig
    have hfar : ¬ m.m_off > MMAXOFF := fun hgt => hdup ⟨hgt, not_le.mp hbig⟩
    obtain ⟨-, hsmall | ⟨c, -, hcl⟩ | hfunny⟩ := h.kinds m hm
    · have h1 := hsmall.off
      have h2 := hsmall.fits
      rw [MMINOFF] at h1
      rw [MMAXOFF] at h2
      rw [MLEN] at hbig
      omega
    · exact hfar hcl.off
    · exact hfar hfunny.off

end

end Uipc
