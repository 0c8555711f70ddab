/-
# Copying, joining and pulling up chains

`m_copy`, `m_cat` and `m_pullup` move bytes between mbufs that have them in their own room, share
them in a cluster, or have them in somebody else's memory.  In terms of the bytes of a chain they
cut, append and keep.
-/
import SunOS.Kern.UipcRuns

namespace Uipc

open List
open CellMemory

variable {owner : ℤ → Owner} {pool : List ℤ} {k : ℤ → ℕ} {s s' s1 : kern}
  {live mp ns rest top : List mbuf} {m n : mbuf} {off len type x : ℤ}

/-! ## Bytes -/

theorem bytes_cons (s : kern) (m : mbuf) (mp : List mbuf) :
    s.bytes (m :: mp) = s.data m ++ s.bytes mp := rfl

theorem bytes_append (s : kern) (mp ns : List mbuf) :
    s.bytes (mp ++ ns) = s.bytes mp ++ s.bytes ns := by
  rw [kern.bytes, map_append, flatten_append]
  rfl

/-- Chains whose data stay as they are. -/
theorem bytes_congr (h : ∀ m ∈ mp, s'.data m = s.data m) : s'.bytes mp = s.bytes mp := by
  rw [kern.bytes, kern.bytes, map_congr_left h]

theorem length_data (s : kern) (h : 0 ≤ m.m_len) : ((s.data m).length : ℤ) = m.m_len := by
  rw [kern.data, length_read, Int.toNat_of_nonneg h]

/-- Data do not depend on more than the memory. -/
theorem data_eq (h : s'.memory = s.memory) (m : mbuf) : s'.data m = s.data m := by
  rw [kern.data, kern.data, h]

/-! ## Mbufs in use -/

/-- Stores do not matter to who owns what. -/
theorem World.store (h : World owner pool k s live) (μ : ℤ → UInt8) :
    World owner pool k { s with memory := μ } live := { h with kinds := h.kinds }

/-- An mbuf in use has another part of its data, or more. -/
theorem World.replace (h : World owner pool k s (m :: live)) (haddr : n.addr = m.addr)
    (htype : n.m_type = m.m_type)
    (hkind : Small n ∨ (∃ c ∈ pool, Clustered n c) ∨ Funny owner s.kmem n)
    (hrefers : ∀ c ∈ pool ++ s.clusters.flatten, n.refers c = true → m.refers c = true) :
    World owner pool k s (n :: live) := by
  obtain ⟨hw, hfresh⟩ := h.drop
  rw [← haddr] at hfresh
  refine hw.adopt hfresh (by rw [htype]; exact (h.kinds m (by simp)).1) hkind fun c hc href => ?_
  have hcount := (h.counts c hc).1
  rw [refs_cons, if_pos (hrefers c hc href)] at hcount
  omega

/-! ## m_copy -/

/-- `kmem_alloc` has no memory, after some of its blocks may have been given out, for the copy of
`count` bytes of an mbuf of type 2. -/
structure NoMemory (kmem : List (ℤ × ℤ)) (m : mbuf) : Prop where
  cltype : MMAXOFF < m.m_off ∧ m.m_cltype = 2
  nomem : ∃ blocks count, blocks <:+ kmem ∧ MLEN < count ∧ count ≤ m.m_len ∧
    ∀ b ∈ blocks.head?, b.2 < count + sizeofInt

/-- What a copy of `bs` from the mbufs `mp` is: the copy; or nothing, when there are not so many
mbufs free; or the panic of `kmem_alloc`, when it has no memory for the data of one of them. -/
inductive CopyOf (owner : ℤ → Owner) (pool : List ℤ) (s : kern) (live mp : List mbuf)
    (bs : List UInt8) : Except halt (List mbuf × kern) → Prop
  | copy {r : List mbuf} {k' : ℤ → ℕ} {s' : kern} (world : World owner pool k' s' (r ++ live))
      (bytes : s'.bytes r = bs) (data : ∀ m ∈ live, s'.data m = s.data m) :
      CopyOf owner pool s live mp bs (.ok (r, s'))
  | nospace {k' : ℤ → ℕ} {s' : kern} (few : s.mfree.length < mp.length)
      (world : World owner pool k' s' live) (data : ∀ m ∈ live, s'.data m = s.data m) :
      CopyOf owner pool s live mp bs (.ok ([], s'))
  | panic {m : mbuf} (hm : m ∈ mp) (nomem : NoMemory s.kmem m) :
      CopyOf owner pool s live mp bs (.error .kmem_alloc)

/-- More mbufs may be free than after the first copies, and more memory. -/
theorem CopyOf.mono {bs : List UInt8} {r : Except halt (List mbuf × kern)}
    (h : CopyOf owner pool s1 live ns bs r) (hdata : ∀ m ∈ live, s1.data m = s.data m)
    (hmfree : ns.length + s.mfree.length ≤ mp.length + s1.mfree.length) (hsub : ns ⊆ mp)
    (hkmem : s1.kmem <:+ s.kmem) : CopyOf owner pool s live mp bs r := by
  cases h with
  | copy world bytes data =>
    exact .copy world bytes fun m hm => (data m hm).trans (hdata m hm)
  | nospace few world data =>
    exact .nospace (by omega) world fun m hm => (data m hm).trans (hdata m hm)
  | panic hm nomem =>
    obtain ⟨hcltype, blocks, count, hblocks, hcount⟩ := nomem
    exact .panic (hsub hm) ⟨hcltype, blocks, count, hblocks.trans hkmem, hcount⟩

/-- Bytes are stored behind those an mbuf has in its own room. -/
theorem World.fill (h : World owner pool k s (m :: live)) (hm : Small m) {l : List UInt8}
    (hfits : m.m_off + m.m_len + l.length ≤ MMAXOFF) :
    World owner pool k (s.bcopy l (m.mtod + m.m_len))
        ({ m with m_len := m.m_len + l.length } :: live) ∧
      (s.bcopy l (m.mtod + m.m_len)).data { m with m_len := m.m_len + l.length } = s.data m ++ l ∧
      ∀ m' ∈ live, (s.bcopy l (m.mtod + m.m_len)).data m' = s.data m' := by
  have hfills := h.room m.addr (by simp)
  have hmtod := hm.mtod hfills
  have h1 := hm.off
  have h2 := hm.len
  rw [MMINOFF] at h1
  have hwrite := hfills.write (q := m.mtod + m.m_len) s.memory (l := l) (by lia) (by
    rw [MMAXOFF] at hfits
    rw [MSIZE]
    lia)
  have hsmall : Small { m with m_len := m.m_len + l.length } :=
    ⟨hm.off, by show 0 ≤ m.m_len + l.length; lia, by
      show m.m_off + (m.m_len + l.length) ≤ MMAXOFF
      lia⟩
  refine ⟨?_, ?_, fun m' hm' => ?_⟩
  · exact (h.store _).replace rfl rfl (Or.inl hsmall) fun c _ href => by
      rw [hsmall.not_refers] at href
      cases href
  · have hold : read (write s.memory (m.mtod + m.m_len) l) m.mtod m.m_len.toNat = s.data m :=
      read_congr fun i hi => write_of_outside _ (by lia)
    have hnew := read_write s.memory (m.mtod + m.m_len) l
    show read (write s.memory (m.mtod + m.m_len) l) m.mtod (m.m_len + l.length).toNat = _
    rw [show (m.m_len + l.length).toNat = m.m_len.toNat + l.length by lia, read_add, hold,
      Int.toNat_of_nonneg h2, hnew]
  · refine h.frame (mem_cons_of_mem _ hm') (o := .mbuf m.addr) ?_ hwrite
    intro heq
    have haddrs := h.addrs
    rw [map_cons, cons_append, nodup_cons] at haddrs
    exact haddrs.1 (mem_append_left _ (heq ▸ mem_map_of_mem hm'))

/-- An mbuf with its data near it has them in its own room. -/
theorem World.small_of_le (h : World owner pool k s live) (hm : m ∈ live)
    (hoff : m.m_off ≤ MMAXOFF) :
    Small m := by
  obtain ⟨-, hsmall | ⟨c, -, hcl⟩ | hfunny⟩ := h.kinds m hm
  · exact hsmall
  · exact absurd hcl.off (not_lt.mpr hoff)
  · exact absurd hfunny.off (not_lt.mpr hoff)

/-! ## m_cat -/

/-- The loop of `m_cat` appends `ns` to the last mbuf. -/
theorem catloop_spec (h : World owner pool k s (m :: (ns ++ rest))) :
    ∃ r k' s', catloop s m ns = .ok (r, s') ∧ World owner pool k' s' (r ++ rest) ∧
      s'.bytes r = s.data m ++ s.bytes ns ∧ ∀ m' ∈ rest, s'.data m' = s.data m' := by
  induction ns generalizing k s m with
  | nil => exact ⟨[m], k, s, rfl, h, by rw [bytes_cons], fun _ _ => rfl⟩
  | cons n ns ih =>
    rw [catloop]
    by_cases hjoin : m.m_off ≥ MMAXOFF ∨ m.m_off + m.m_len + n.m_len > MMAXOFF
    · rw [if_pos hjoin]
      exact ⟨m :: n :: ns, k, s, rfl, h, by rw [bytes_cons], fun _ _ => rfl⟩
    · push Not at hjoin
      have hn := (h.len_bounds (m := n) (by simp)).1
      have hlength := length_data s hn
      have hsmall := h.small_of_le (m := m) (by simp) (le_of_lt hjoin.1)
      obtain ⟨hworld, hnew, hdata⟩ := h.fill hsmall (l := s.data n) (by omega)
      rw [hlength] at hworld hnew
      rw [if_neg (by omega)]
      generalize s.bcopy (s.data n) (m.mtod + m.m_len) = s1 at hworld hnew hdata
      obtain ⟨s2, k2, heq, hfreed⟩ := MFREE_spec (hworld.perm (List.Perm.swap _ _ _))
      obtain ⟨r, k3, s3, heq', hworld', hbytes, hrest⟩ := ih hfreed.world
      refine ⟨r, k3, s3, ?_, hworld', ?_, fun m' hm' => ?_⟩
      · rw [heq]
        exact heq'
      · have hns : s2.bytes ns = s.bytes ns := bytes_congr fun m' hm' =>
          (hfreed.data m' (by simp [hm'])).trans (hdata m' (by simp [hm']))
        rw [hbytes, hfreed.data _ (by simp), hnew, hns, bytes_cons, append_assoc]
      · exact (hrest m' hm').trans
          ((hfreed.data m' (by simp [hm'])).trans (hdata m' (by simp [hm'])))

/-- **`m_cat`** makes one chain of two. -/
theorem m_cat_spec (h : World owner pool k s (mp ++ (ns ++ rest))) (hne : mp ≠ []) :
    ∃ r k' s', m_cat s mp ns = .ok (r, s') ∧ World owner pool k' s' (r ++ rest) ∧
      s'.bytes r = s.bytes mp ++ s.bytes ns ∧ ∀ m' ∈ rest, s'.data m' = s.data m' := by
  induction mp generalizing rest with
  | nil => exact absurd rfl hne
  | cons m mp ih =>
    cases mp with
    | nil =>
      rw [m_cat, bytes_cons, show s.bytes [] = [] from rfl, append_nil]
      exact catloop_spec h
    | cons m' mp =>
      -- the first mbuf is one of the others for the rest of the chain
      have hperm : (m :: (m' :: mp ++ (ns ++ rest))).Perm (m' :: mp ++ (ns ++ m :: rest)) := by
        rw [← append_assoc, ← append_assoc]
        exact List.perm_middle.symm
      obtain ⟨r, k', s', heq, hworld, hbytes, hdata⟩ := ih (h.perm hperm) (by simp)
      refine ⟨m :: r, k', s', ?_, hworld.perm perm_middle, ?_, fun m1 hm1 =>
        hdata m1 (mem_cons_of_mem _ hm1)⟩
      · rw [m_cat, heq]
        rfl
      · rw [bytes_cons, bytes_cons, hbytes, hdata m (by simp), append_assoc]

/-! ## m_pullup -/

/-- The mbuf without its first `x` bytes. -/
def mbuf.advance (m : mbuf) (x : ℤ) : mbuf :=
  { m with m_off := uint32 (m.m_off + x), m_len := m.m_len - x }

/-- Its data end where its cluster does. -/
def mbuf.AtEnd (m : mbuf) : Prop :=
  m.m_off > MMAXOFF ∧ m.m_cltype = 1 ∧ (m.mtod + m.m_len) % MCLBYTES = 0

instance (m : mbuf) : Decidable m.AtEnd := inferInstanceAs (Decidable (_ ∧ _))

/-- No mbuf whose data end where its cluster does is emptied when `len` bytes are moved away. -/
def Cleared : ℤ → List mbuf → Prop
  | _, [] => True
  | len, m :: mp => (0 < m.m_len → m.m_len ≤ len → ¬ m.AtEnd) ∧ Cleared (len - m.m_len) mp

instance : (len : ℤ) → (mp : List mbuf) → Decidable (Cleared len mp)
  | _, [] => isTrue trivial
  | len, m :: mp =>
    have : Decidable (Cleared (len - m.m_len) mp) := instDecidableCleared (len - m.m_len) mp
    inferInstanceAs (Decidable (_ ∧ _))

theorem advance_mtod (m : mbuf) (x : ℤ) : (m.advance x).mtod = uint32 (m.mtod + x) := by
  show uint32 (m.addr + uint32 (m.m_off + x)) = uint32 (uint32 (m.addr + m.m_off) + x)
  unfold uint32
  omega

/-- The data of what is left. -/
theorem data_advance (s : kern) (hx : 0 ≤ x) (hle : x ≤ m.m_len) (hlo : 0 ≤ m.mtod)
    (hhi : m.mtod + x < 4294967296) : s.data (m.advance x) = (s.data m).drop x.toNat := by
  rw [kern.data, advance_mtod, uint32_of_ufits ⟨by lia, by lia⟩, kern.data,
    drop_read _ _ (by lia), Int.toNat_of_nonneg hx,
    show (m.advance x).m_len.toNat = m.m_len.toNat - x.toNat by
      show (m.m_len - x).toNat = _
      lia]

/-- An mbuf in use that does not come to the end of its cluster. -/
theorem World.advance_clustered (h : World owner pool k s (m :: live)) {c : ℤ} (hc : c ∈ pool)
    (hcl : Clustered m c) (hx : 0 ≤ x) (hle : x ≤ m.m_len) (hin : m.mtod + x < c + MCLBYTES) :
    World owner pool k s (m.advance x :: live) := by
  obtain ⟨-, -, hfills⟩ := h.clusters c (mem_append_left _ hc)
  have h1 := hfills.lo
  have h2 := hfills.hi
  have h3 := hcl.lo
  have hown := hfills.mem (m.mtod + x) (by lia) (by lia)
  have hmtod : (m.advance x).mtod = m.mtod + x := by
    rw [advance_mtod]
    exact uint32_of_ufits ⟨by lia, by lia⟩
  have hoff : (m.advance x).m_off = uint32 (m.mtod + x - m.addr) := by
    show uint32 (m.m_off + x) = uint32 (uint32 (m.addr + m.m_off) + x - m.addr)
    unfold uint32
    lia
  obtain ⟨hfar, -⟩ := far (p := m.mtod + x) (h.room m.addr (by simp)) ⟨by lia, by lia⟩
    (by rw [hown]; simp)
  have hnew : Clustered (m.advance x) c := by
    refine ⟨hoff ▸ hfar, hcl.cltype, ?_, ?_, ?_, ?_⟩
    · show 0 ≤ m.m_len - x
      lia
    · rw [hmtod]
      lia
    · rw [hmtod]
      exact hin
    · have hfits := hcl.fits
      rw [hmtod]
      show m.mtod + x + (m.m_len - x) ≤ _
      lia
  refine h.replace rfl rfl (Or.inr (Or.inl ⟨c, hc, hnew⟩)) fun d hd href => ?_
  rw [h.refers_unique hd (mem_append_left _ hc) href hnew.refers]
  exact hcl.refers

/-- An mbuf in use loses some of its data, not all. -/
theorem World.advance (h : World owner pool k s (m :: live)) (hx : 0 ≤ x) (hlt : x < m.m_len) :
    World owner pool k s (m.advance x :: live) ∧
      s.data (m.advance x) = (s.data m).drop x.toNat := by
  obtain ⟨-, hsmall | ⟨c, hc, hcl⟩ | hfunny⟩ := h.kinds m (by simp)
  · have hfills := h.room m.addr (by simp)
    have hmtod := hsmall.mtod hfills
    have h1 := hsmall.off
    have h2 := hsmall.fits
    have h3 := hfills.lo
    have h4 := hfills.hi
    rw [MMINOFF] at h1
    rw [MMAXOFF] at h2
    rw [MSIZE] at h4
    have hoff : (m.advance x).m_off = m.m_off + x := uint32_of_ufits ⟨by lia, by lia⟩
    have hnew : Small (m.advance x) := by
      refine ⟨?_, ?_, ?_⟩
      · rw [hoff, MMINOFF]
        lia
      · show 0 ≤ m.m_len - x
        lia
      · rw [hoff, MMAXOFF]
        show m.m_off + x + (m.m_len - x) ≤ 124
        lia
    refine ⟨h.replace rfl rfl (Or.inl hnew) fun c _ href => ?_,
      data_advance s hx (le_of_lt hlt) (by lia) (by lia)⟩
    rw [hnew.not_refers] at href
    cases href
  · obtain ⟨-, -, hfills⟩ := h.clusters c (mem_append_left _ hc)
    have h1 := hfills.lo
    have h2 := hfills.hi
    have h3 := hcl.lo
    have h4 := hcl.fits
    exact ⟨h.advance_clustered hc hcl hx (le_of_lt hlt) (by lia),
      data_advance s hx (le_of_lt hlt) (by lia) (by lia)⟩
  · have hhi := hfunny.hi
    have hlo : 0 ≤ m.mtod := Int.emod_nonneg _ (by decide)
    have hmtod : (m.advance x).mtod = m.mtod + x := by
      rw [advance_mtod]
      exact uint32_of_ufits ⟨by lia, by lia⟩
    have hoff : (m.advance x).m_off = uint32 (m.mtod + x - m.addr) := by
      show uint32 (m.m_off + x) = uint32 (uint32 (m.addr + m.m_off) + x - m.addr)
      unfold uint32
      lia
    have hown : owner (m.mtod + x) ≠ .mbuf m.addr := by
      rcases hfunny.mem (m.mtod + x) (by lia) (by lia) with hother | ⟨b, hb, -⟩
      · rw [hother]
        simp
      · rw [hb]
        simp
    obtain ⟨hfar, -⟩ := far (p := m.mtod + x) (h.room m.addr (by simp)) ⟨by lia, by lia⟩ hown
    have hnew : Funny owner s.kmem (m.advance x) := by
      refine ⟨hoff ▸ hfar, hfunny.cltype, ?_, ?_, fun a h1 h2 => hfunny.mem a ?_ ?_⟩
      · have hlen := hfunny.len
        show 0 ≤ m.m_len - x ∧ m.m_len - x ≤ 32767
        lia
      · rw [hmtod]
        show m.mtod + x + (m.m_len - x) ≤ _
        lia
      · rw [hmtod] at h1
        lia
      · rw [hmtod] at h2
        have h3 : a < m.mtod + x + (m.m_len - x) := h2
        lia
    refine ⟨h.replace rfl rfl (Or.inr (Or.inr hnew)) fun c _ href => ?_,
      data_advance s hx (le_of_lt hlt) hlo (by lia)⟩
    rw [hnew.not_refers] at href
    cases href

theorem Freed.all {k' : ℤ → ℕ} (h : Freed owner pool k s live m k' s') (haddr : n.addr = m.addr) :
    AllFreed owner pool k s live [n] k' s' where
  world := h.world
  mfree := by
    rw [h.mfree, ← haddr]
    rfl
  more := h.more
  kmem := h.kmem
  data := h.data
  le := h.le

/-- An mbuf that has been emptied is freed, with its cluster, unless it came to the end of that. -/
theorem MFREE_advance (h : World owner pool k s (m :: live)) (hend : ¬ m.AtEnd) :
    ∃ s' k', MFREE s (m.advance m.m_len) = .ok s' ∧ AllFreed owner pool k s live [m] k' s' := by
  obtain ⟨hw, hfresh⟩ := h.drop
  obtain ⟨htype, hkind⟩ := h.kinds m (by simp)
  have hplain : ∀ called, AllFreed owner pool k s live [m] k
      { s with called := called, mfree := m.addr :: s.mfree } := fun called => by
    have hrel := hw.release hfresh
    exact ⟨{ hrel with kinds := hrel.kinds }, rfl, rfl, rfl, fun _ _ => rfl, fun _ => le_refl _⟩
  have hnotfree : ¬ (m.advance m.m_len).m_type = MT_FREE := htype
  rcases hkind with hsmall | ⟨c, hc, hcl⟩ | hfunny
  · have h1 := hsmall.off
    have h2 := hsmall.len
    have h3 := hsmall.fits
    rw [MMINOFF] at h1
    rw [MMAXOFF] at h3
    have hoff : (m.advance m.m_len).m_off = m.m_off + m.m_len :=
      uint32_of_ufits ⟨by omega, by omega⟩
    rw [MFREE, if_neg hnotfree, if_neg (by rw [hoff, MSIZE]; omega)]
    exact ⟨_, k, rfl, hplain s.called⟩
  · have hin : m.mtod + m.m_len < c + MCLBYTES := by
      have halign := (h.clusters c (mem_append_left _ hc)).1
      have hfits := hcl.fits
      by_contra hge
      refine hend ⟨hcl.off, hcl.cltype, ?_⟩
      rw [MCLBYTES] at *
      omega
    obtain ⟨s', k', heq, hfreed⟩ := MFREE_spec (h.advance_clustered hc hcl hcl.len (le_refl _) hin)
    exact ⟨s', k', heq, hfreed.all rfl⟩
  · rw [MFREE, if_neg hnotfree]
    by_cases hoff : (m.advance m.m_len).m_off > MSIZE
    · have hcl : (m.advance m.m_len).m_cltype = 2 := hfunny.cltype
      rw [if_pos hoff, mclput, if_neg (by rw [hcl]; decide), if_pos hcl]
      exact ⟨_, k, rfl, hplain _⟩
    · rw [if_neg hoff]
      exact ⟨_, k, rfl, hplain s.called⟩

/-- What the loop of `m_pullup` leaves of the mbuf `m` it fills, of `len`, and of the chain `ns`:
`freed` are the mbufs of the chain that have been emptied. -/
structure Pulled (owner : ℤ → Owner) (pool : List ℤ) (s : kern) (rest : List mbuf) (m : mbuf)
    (len : ℤ) (ns : List mbuf) (m' : mbuf) (len' : ℤ) (ns' : List mbuf) (freed : List ℤ)
    (k' : ℤ → ℕ) (s' : kern) : Prop where
  world : World owner pool k' s' (m' :: (ns' ++ rest))
  addr : m'.addr = m.addr
  moved : m'.m_len + len' = m.m_len + len
  left : len' = max (min len 0) (len - (s.bytes ns).length)
  bytes : s'.bytes (m' :: ns') = s.bytes (m :: ns)
  addrs : ns.map mbuf.addr = freed ++ ns'.map mbuf.addr
  mfree : s'.mfree = freed.reverse ++ s.mfree
  data : ∀ m' ∈ rest, s'.data m' = s.data m'

/-- **The loop of `m_pullup`** fills its mbuf with the first bytes of the chain. -/
theorem pulluploop_spec (m : mbuf) (len : ℤ) (h : World owner pool k s (m :: (ns ++ rest)))
    (hm : Small m) (hoff : m.m_off = MMINOFF) (hroom : m.m_len + len ≤ MLEN)
    (hclear : Cleared len ns) :
    ∃ m' len' ns' freed k' s', pulluploop s m len ns = .ok (m', len', ns', s') ∧
      Pulled owner pool s rest m len ns m' len' ns' freed k' s' := by
  induction ns generalizing k s m len with
  | nil =>
    refine ⟨m, len, [], [], k, s, rfl, h, rfl, rfl, ?_, rfl, rfl, rfl, fun _ _ => rfl⟩
    simp [kern.bytes]
  | cons n ns ih =>
    have hn := (h.len_bounds (m := n) (by simp)).1
    have hlength := length_data s hn
    have htotal : ((s.bytes (n :: ns)).length : ℤ) = n.m_len + (s.bytes ns).length := by
      rw [bytes_cons, length_append, Nat.cast_add, hlength]
    rw [MLEN] at hroom
    rw [MMINOFF] at hoff
    obtain ⟨hend, hclear⟩ := hclear
    rw [pulluploop]
    by_cases hpos : min (min (MLEN - m.m_len) len) n.m_len > 0
    · have hcount : min (min (MLEN - m.m_len) len) n.m_len = min len n.m_len := by
        rw [MLEN]
        lia
      rw [hcount] at hpos ⊢
      rw [if_pos hpos]
      clear hcount
      have hxlen : min len n.m_len ≤ len := min_le_left _ _
      have hxn : min len n.m_len ≤ n.m_len := min_le_right _ _
      have hxor : min len n.m_len = len ∨ min len n.m_len = n.m_len := min_choice _ _
      generalize min len n.m_len = x at hpos hxlen hxn hxor ⊢
      -- the bytes are stored
      have hread : read s.memory n.mtod x.toNat =
          (s.data n).take x.toNat := (take_read _ _ (by lia)).symm
      have hstored : (((s.data n).take x.toNat).length : ℤ) = x := by
        rw [length_take]
        lia
      obtain ⟨hworld, hnew, hdata⟩ := h.fill hm (l := (s.data n).take x.toNat) (by
        rw [hstored, hoff, MMAXOFF]
        lia)
      rw [hstored] at hworld hnew
      have hmfree : (s.bcopy ((s.data n).take x.toNat) (m.mtod + m.m_len)).mfree =
          s.mfree := rfl
      rw [hread]
      generalize s.bcopy ((s.data n).take x.toNat) (m.mtod + m.m_len) = s1
        at hworld hnew hdata hmfree
      have hns : s1.bytes ns = s.bytes ns := bytes_congr fun m' hm' => hdata m' (by simp [hm'])
      have hdn := hdata n (by simp)
      generalize hm1 : ({ m with m_len := m.m_len + x } : mbuf) = m1 at hworld hnew
      have haddr1 : m1.addr = m.addr := by rw [← hm1]
      by_cases hleft : n.m_len - x > 0
      · simp only [if_pos hleft]
        obtain ⟨hworld', hdata'⟩ := (hworld.perm (List.Perm.swap _ _ _)).advance (x := x)
          (by lia) (by lia)
        refine ⟨_, _, _, [], k, s1, rfl, hworld'.perm (List.Perm.swap _ _ _), haddr1, by lia,
          by lia, ?_, rfl, hmfree, fun m' hm' => hdata m' (by simp [hm'])⟩
        show s1.bytes (m1 :: n.advance x :: ns) = _
        rw [bytes_cons, bytes_cons, hnew, hdata', hdn, hns, bytes_cons, bytes_cons,
          append_assoc, ← append_assoc (List.take _ _), take_append_drop]
      · have hall : x = n.m_len := by lia
        simp only [if_neg hleft]
        obtain ⟨s2, k2, heq, hfreed⟩ := MFREE_advance (hworld.perm (List.Perm.swap _ _ _))
          (hend (by lia) (by lia))
        have hsmall1 : Small m1 := by
          refine hworld.small_of_le (m := m1) (by simp) ?_
          rw [← hm1]
          show m.m_off ≤ MMAXOFF
          rw [hoff]
          decide
        obtain ⟨m', len', ns', freed, k3, s3, heq', hp⟩ := ih m1 (len - n.m_len)
          hfreed.world hsmall1 (by rw [← hm1]; exact hoff) (by rw [MLEN]; lia) hclear
        have hns' : s2.bytes ns = s.bytes ns :=
          (bytes_congr fun m' hm' => hfreed.data m' (by simp [hm'])).trans hns
        have hp1 := hp.moved
        have hp2 := hp.left
        refine ⟨m', len', ns', n.addr :: freed, k3, s3, ?_, hp.world, hp.addr.trans haddr1, by lia,
          ?_, ?_, ?_, ?_, fun m2 hm2 => (hp.data m2 hm2).trans
            ((hfreed.data m2 (by simp [hm2])).trans (hdata m2 (by simp [hm2])))⟩
        · rw [hall]
          rw [show ({ n with m_off := uint32 (n.m_off + n.m_len), m_len := n.m_len - n.m_len } :
            mbuf) = n.advance n.m_len from rfl, heq]
          exact heq'
        · rw [hns'] at hp2
          lia
        · rw [hp.bytes, bytes_cons, hfreed.data m1 (by simp), hnew, hall, hns', bytes_cons,
            bytes_cons, append_assoc, take_of_length_le (by lia)]
        · rw [map_cons, hp.addrs, cons_append]
        · rw [hp.mfree, hfreed.mfree, hmfree, reverse_cons, append_assoc]
          rfl
    · rw [if_neg hpos]
      by_cases hleft : n.m_len > 0
      · rw [if_pos hleft]
        rw [MLEN] at hpos
        exact ⟨m, len, n :: ns, [], k, s, rfl, h, rfl, rfl, by lia, rfl, rfl, rfl, fun _ _ => rfl⟩
      · -- an empty mbuf is freed as it is
        rw [if_neg hleft]
        have hempty : n.m_len = 0 := by lia
        obtain ⟨s2, k2, heq, hfreed⟩ := MFREE_spec (h.perm (List.Perm.swap _ _ _))
        rw [hempty, sub_zero] at hclear
        obtain ⟨m', len', ns', freed, k3, s3, heq', hp⟩ := ih m len hfreed.world hm
          (by rw [hoff, MMINOFF]) (by rw [MLEN]; lia) hclear
        have hns : s2.bytes ns = s.bytes ns := bytes_congr fun m' hm' =>
          hfreed.data m' (by simp [hm'])
        have hdn : s.data n = [] := eq_nil_of_length_eq_zero (by lia)
        have hp2 := hp.left
        refine ⟨m', len', ns', n.addr :: freed, k3, s3, ?_, hp.world, hp.addr, hp.moved, ?_, ?_, ?_,
          ?_, fun m2 hm2 => (hp.data m2 hm2).trans (hfreed.data m2 (by simp [hm2]))⟩
        · rw [heq]
          exact heq'
        · rw [hns] at hp2
          lia
        · rw [hp.bytes, bytes_cons, hfreed.data m (by simp), hns, bytes_cons, bytes_cons, hdn,
            nil_append]
        · rw [map_cons, hp.addrs, cons_append]
        · rw [hp.mfree, hfreed.mfree, reverse_cons, append_assoc]
          rfl

/-- No mbuf can be got. -/
def kern.spent (s : kern) : Prop := s.mfree = [] ∧ s.more.headD [] = []

theorem MGET_none_iff (s : kern) (type : ℤ) : (MGET s type).1 = none ↔ s.spent := by
  rw [MGET, kern.spent]
  rcases s.mfree with _ | ⟨a, mfree⟩
  · rcases s.more with _ | ⟨_ | ⟨a, mfree⟩, more⟩ <;> simp
  · simp

/-- What `m_pullup` gives: the chain with `len` bytes in its first mbuf when it may have so many,
there are so many and an mbuf can be got; otherwise nothing, and every mbuf of the chain is free. -/
inductive Pullup (owner : ℤ → Owner) (pool : List ℤ) (s : kern) (mp rest : List mbuf) (len : ℤ) :
    Except halt (List mbuf × kern) → Prop
  | pulled {m : mbuf} {r : List mbuf} {k' : ℤ → ℕ} {s' : kern}
      (good : 0 ≤ len ∧ len ≤ MLEN ∧ len ≤ (s.bytes mp).length ∧ ¬ s.spent)
      (world : World owner pool k' s' (m :: (r ++ rest))) (first : len ≤ m.m_len)
      (bytes : s'.bytes (m :: r) = s.bytes mp) (data : ∀ m ∈ rest, s'.data m = s.data m) :
      Pullup owner pool s mp rest len (.ok (m :: r, s'))
  | freed {k' : ℤ → ℕ} {s' : kern}
      (bad : len < 0 ∨ MLEN < len ∨ (s.bytes mp).length < len ∨ s.spent)
      (world : World owner pool k' s' rest) (once : ∀ m ∈ mp, s'.mfree.count m.addr = 1)
      (data : ∀ m ∈ rest, s'.data m = s.data m) : Pullup owner pool s mp rest len (.ok ([], s'))

/-- A free mbuf is on the free list once. -/
theorem World.count_mfree (h : World owner pool k s live) {a : ℤ} (ha : a ∈ s.mfree) :
    s.mfree.count a = 1 := by
  have hnodup := (List.nodup_append.mp h.addrs).2.1
  exact count_eq_one_of_mem (List.nodup_append.mp hnodup).1 ha

/-- All of a chain is freed. -/
theorem m_freem_once (h : World owner pool k s (mp ++ rest)) :
    ∃ s' k', m_freem s mp = .ok s' ∧ World owner pool k' s' rest ∧
      (∀ m ∈ mp, s'.mfree.count m.addr = 1) ∧ (∀ m ∈ rest, s'.data m = s.data m) ∧
      ∀ a ∈ s.mfree, s'.mfree.count a = 1 := by
  obtain ⟨s', k', heq, hfreed⟩ := m_freem_spec h
  refine ⟨s', k', heq, hfreed.world, fun m hm => hfreed.world.count_mfree ?_, hfreed.data,
    fun a ha => hfreed.world.count_mfree ?_⟩
  · rw [hfreed.mfree]
    exact mem_append_left _ (List.mem_reverse.mpr (mem_map_of_mem hm))
  · rw [hfreed.mfree]
    exact mem_append_right _ ha

/-- **`m_pullup`** of a chain of whose mbufs none that it empties comes to the end of its cluster.
-/
theorem m_pullup_spec (h : World owner pool k s (mp ++ rest)) (hne : mp ≠ [])
    (hclear : Cleared len mp) : Pullup owner pool s mp rest len (m_pullup s mp len) := by
  obtain ⟨n, ns, rfl⟩ := exists_cons_of_ne_nil hne
  have htype := (h.kinds n (by simp)).1
  rw [m_pullup]
  by_cases hbig : len > MLEN
  · obtain ⟨s', k', heq, hworld, honce, hdata, -⟩ := m_freem_once h
    simp only [if_pos hbig, heq]
    exact .freed (Or.inr (Or.inl hbig)) hworld honce hdata
  · have hgot := MGET_spec s n.m_type
    have hspent := MGET_none_iff s n.m_type
    rw [if_neg hbig]
    generalize MGET s n.m_type = r at hgot hspent
    cases hgot with
    | @none s1 mfree hspare hstate =>
      have hmem : s1.memory = s.memory := by rw [hstate]
      obtain ⟨s', k', heq, hworld, honce, hdata, -⟩ := m_freem_once (h.unget hspare hstate)
      simp only [heq]
      exact .freed (Or.inr (Or.inr (Or.inr (hspent.mp rfl)))) hworld honce fun m hm =>
        (hdata m hm).trans (data_eq hmem m)
    | @some a s1 hspare hstate =>
      have hmem : s1.memory = s.memory := by rw [hstate]
      have hbytes : s1.bytes (n :: ns) = s.bytes (n :: ns) := bytes_congr fun m _ => data_eq hmem m
      have hw := h.get htype hspare hstate
      have hzero : s1.data (mgot n.m_type a) = [] := rfl
      obtain ⟨m', len', ns', freed, k2, s2, heq, hp⟩ := pulluploop_spec _ len hw
        (mgot_small n.m_type a) rfl (by show 0 + len ≤ MLEN; omega) hclear
      have hmoved := hp.moved
      have hleft := hp.left
      rw [hbytes] at hleft
      rw [show (mgot n.m_type a).m_len = 0 from rfl] at hmoved
      simp only [show ({ mgot n.m_type a with m_len := 0 } : mbuf) = mgot n.m_type a from rfl, heq,
        Except.bind]
      by_cases hlen : len' ≠ 0
      · -- not enough: the new mbuf and the rest of the chain are freed
        obtain ⟨s3, k3, heq3, hfreed3⟩ := MFREE_spec hp.world
        obtain ⟨s4, k4, heq4, hworld, honce, hdata, hkeep⟩ := m_freem_once hfreed3.world
        rw [if_pos hlen, heq3]
        simp only [heq4]
        refine .freed (by omega) hworld (fun m hm => ?_) fun m hm => ?_
        · have hin : m.addr ∈ freed ++ ns'.map mbuf.addr := by
            rw [← hp.addrs]
            exact mem_map_of_mem hm
          rcases List.mem_append.mp hin with hfreed | hrest
          · refine hkeep m.addr ?_
            rw [hfreed3.mfree, hp.mfree]
            exact mem_cons_of_mem _ (mem_append_left _ (List.mem_reverse.mpr hfreed))
          · obtain ⟨m1, hm1, heq1⟩ := List.mem_map.mp hrest
            rw [← heq1]
            exact honce m1 hm1
        · rw [hdata m hm, hfreed3.data m (mem_append_right _ hm), hp.data m hm,
            data_eq hmem m]
      · rw [if_neg hlen]
        have hgood : ¬ s.spent := fun h => absurd (hspent.mpr h) (by simp)
        refine .pulled ⟨by omega, by omega, by omega, hgood⟩ hp.world (by omega) ?_ fun m hm =>
          (hp.data m hm).trans (data_eq hmem m)
        rw [hp.bytes, bytes_cons, hzero, nil_append, hbytes]

/-! ## Chains in use -/

/-- The owners of six mbufs and of the cluster behind them. -/
def chains (a : ℤ) : Owner :=
  if 15616 ≤ a ∧ a < 16384 then .mbuf (a / 128 * 128)
  else if 16384 ≤ a ∧ a < 17408 then .cluster 16384
  else .other

/-- Three of the mbufs are free; one of the others has the cluster. -/
def stored : kern where
  memory a := UInt8.ofNat a.toNat
  mbutl := 8192
  mfree := [16000, 16128, 16256]
  more := []
  mclfree := []
  clusters := []
  mclrefcnt := Function.update (fun _ => 0) 8 1
  m_clfree := 0
  kmem := []
  called := []

def few : mbuf := ⟨15616, 12, 3, 1, 0, .buffree, 0⟩

def many : mbuf := ⟨15744, 640, 200, 1, 1, .buffree, 0⟩

def other : mbuf := ⟨15872, 12, 2, 1, 0, .buffree, 0⟩

end Uipc
