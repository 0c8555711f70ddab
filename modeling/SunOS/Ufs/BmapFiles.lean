/-
# The block map of a well-formed file

A file is well formed when its pointers share no block and no direct block is mapped
behind its end.  `bmap` for `B_WRITE` leaves every other block where it was, or moves the
fragment at the end of the file with its contents; once the caller has raised the size
the file is well formed again, and only its last direct block is a fragment.
-/
import SunOS.Ufs.BmapWrite

namespace Ufs

open Function (update update_of_ne update_self)
open BlockTree

variable {fs : Ufs.fs} {u : user} {k k' k1 k2 : Kern} {p q t : Ptr} {bn b n m c d o nb i r x : ℕ}
  {sz sz' sz1 : Ptr → ℕ} {size : ℕ}

/-! ## Sizes -/

/-- The number of fragments behind pointer `p`, by the size of the file. -/
def nfrags (fs : Ufs.fs) (ip : inode) (p : Ptr) : ℕ := numfrags fs (blksize fs ip p.1)

/-- **A well-formed file.** -/
structure Tree (fs : Ufs.fs) (k : Kern) : Prop where
  sound : Sound fs k
  mapped : Mapped fs k (nfrags fs k.ip)
  eof : ∀ r < NDADDR, k.ip.i_db r ≠ 0 → r * fs.fs_bsize < k.ip.i_size

theorem numfrags_bsize (fs : Ufs.fs) : numfrags fs fs.fs_bsize = fs.fs_frag := by
  rw [fs.bsize_eq, numfrags_mul]

theorem fragroundup_eq (fs : Ufs.fs) (x : ℕ) :
    fragroundup fs x = numfrags fs (fragroundup fs x) * fs.fs_fsize := by
  unfold fragroundup
  rw [numfrags_mul]

theorem le_fragroundup (fs : Ufs.fs) (x : ℕ) : x ≤ fragroundup fs x := by
  have hpos := fs.fsize_pos
  have h1 := Nat.div_add_mod (x + fs.fs_fsize - 1) fs.fs_fsize
  have h2 := Nat.mod_lt (x + fs.fs_fsize - 1) hpos
  unfold fragroundup
  rw [Nat.mul_comm] at h1
  omega

theorem fragroundup_mono (fs : Ufs.fs) {x y : ℕ} (h : x ≤ y) :
    fragroundup fs x ≤ fragroundup fs y :=
  Nat.mul_le_mul_right _ (Nat.div_le_div_right (by omega))

/-- Rounding up to fragments stops at a number of fragments. -/
theorem fragroundup_le (fs : Ufs.fs) {x : ℕ} (h : x ≤ n * fs.fs_fsize) :
    fragroundup fs x ≤ n * fs.fs_fsize := by
  have hpos := fs.fsize_pos
  refine Nat.mul_le_mul_right _ ?_
  rw [← Nat.lt_succ_iff, Nat.div_lt_iff_lt_mul hpos, Nat.succ_mul]
  omega

theorem bsize_pos (fs : Ufs.fs) : 0 < fs.fs_bsize := by
  rw [fs.bsize_eq]
  exact Nat.mul_pos fs.frag_pos fs.fsize_pos

theorem nfrags_full {ip : inode} (h : p.1 ≥ NDADDR ∨ ip.i_size ≥ (p.1 + 1) * fs.fs_bsize) :
    nfrags fs ip p = fs.fs_frag := by
  unfold nfrags blksize
  rw [if_pos h, numfrags_bsize]

theorem nfrags_part {ip : inode} (h : ¬ (p.1 ≥ NDADDR ∨ ip.i_size ≥ (p.1 + 1) * fs.fs_bsize)) :
    nfrags fs ip p = numfrags fs (fragroundup fs (blkoff fs ip.i_size)) := by
  unfold nfrags blksize
  rw [if_neg h]

theorem blksize_eq (fs : Ufs.fs) (ip : inode) (r : ℕ) :
    blksize fs ip r = nfrags fs ip (r, []) * fs.fs_fsize := by
  unfold nfrags blksize
  split
  · rw [numfrags_bsize, fs.bsize_eq]
  · exact fragroundup_eq fs _

theorem nfrags_le (fs : Ufs.fs) (ip : inode) (p : Ptr) : nfrags fs ip p ≤ fs.fs_frag := by
  by_cases h : p.1 ≥ NDADDR ∨ ip.i_size ≥ (p.1 + 1) * fs.fs_bsize
  · rw [nfrags_full h]
  · rw [nfrags_part h]
    have hlt : blkoff fs ip.i_size ≤ fs.fs_frag * fs.fs_fsize := by
      rw [← fs.bsize_eq]
      exact (Nat.mod_lt _ (bsize_pos fs)).le
    have := fragroundup_le fs hlt
    rw [fragroundup_eq] at this
    exact Nat.le_of_mul_le_mul_right this fs.fsize_pos

/-! ## Steps of a write -/

/-- What a step of a write for leaf `t` does to a file: the pointers in `moved` are set
to pieces with the old contents, and null pointers on the way to `t` are set; at most
the space of `n` blocks is charged. -/
structure Rewrote (fs : Ufs.fs) (k k' : Kern) (sz sz' : Ptr → ℕ) (t : Ptr) (moved : Ptr → Prop)
    (n : ℕ) : Prop where
  sound : Sound fs k'
  mapped : Mapped fs k' sz'
  ptr : ∀ q, (shape fs).Has q → q ≠ t → ¬ moved q →
    k'.ptr q = k.ptr q ∨ (k.ptr q = 0 ∧ ∃ ys, t = (q.1, q.2 ++ ys))
  keeps : ∀ q, (shape fs).Has q → k.ptr q ≠ 0 → k'.ptr q ≠ 0
  contents : ∀ q, (shape fs).Has q → (shape fs).Leaf q → k.ptr q ≠ 0 → ∀ j < sz q,
    k'.blk (k'.ptr q + j) = k.blk (k.ptr q + j)
  grows : ∀ q, (shape fs).Has q → k.ptr q ≠ 0 → sz q ≤ sz' q
  blkerr : k'.blkerr = k.blkerr
  readable : ∀ x, breadcg k'.fsys x = none ↔ breadcg k.fsys x = none
  charged : ∃ c ≤ n * btodb fs.fs_bsize, Charged k k' c
  accounted : Accounted fs k sz → Accounted fs k' sz'
  owned : ∀ x, Owned fs k' sz' x → Owned fs k sz x

/-- No pointer. -/
def nothing : Ptr → Prop := fun _ => False

theorem Rewrote.refl (hs : Sound fs k) (hm : Mapped fs k sz) :
    Rewrote fs k k sz sz t nothing 0 :=
  ⟨hs, hm, fun _ _ _ _ => .inl rfl, fun _ _ h => h, fun _ _ _ _ _ _ => rfl, fun _ _ _ => le_rfl,
    rfl, fun _ => Iff.rfl, ⟨0, Nat.zero_le _, .refl k⟩, id, fun _ => id⟩

theorem Rewrote.trans {mv : Ptr → Prop} (h1 : Rewrote fs k k1 sz sz1 t mv n)
    (h2 : Rewrote fs k1 k2 sz1 sz' t nothing m) : Rewrote fs k k2 sz sz' t mv (n + m) := by
  refine ⟨h2.sound, h2.mapped, fun q hq hqt hqm => ?_, fun q hq h =>
    h2.keeps q hq (h1.keeps q hq h),
    fun q hq hl h j hj => ?_, fun q hq h =>
      (h1.grows q hq h).trans (h2.grows q hq (h1.keeps q hq h)),
    h2.blkerr.trans h1.blkerr, fun x => (h2.readable x).trans (h1.readable x), ?_,
    fun h => h2.accounted (h1.accounted h), fun x hx => h1.owned x (h2.owned x hx)⟩
  · rcases h1.ptr q hq hqt hqm with h | h
    · rw [← h]
      exact h2.ptr q hq hqt id
    · exact .inr h
  · have hle := h1.grows q hq h
    rw [h2.contents q hq hl (h1.keeps q hq h) j (by omega), h1.contents q hq hl h j hj]
  · obtain ⟨c, hc, hch⟩ := h1.charged
    obtain ⟨d, hd, hdh⟩ := h2.charged
    exact ⟨c + d, by rw [Nat.add_mul]; omega, hch.trans hdh⟩

theorem Grown.rewrote (hm : Mapped fs k sz) (hg : Grown fs k k' sz t n) :
    Rewrote fs k k' sz sz t nothing n := by
  refine ⟨hg.sound, hg.mapped, fun q hq _ _ => hg.ptr q hq, fun q hq h => ?_,
    fun q hq _ h j hj => ?_, fun _ _ _ => le_rfl, hg.blkerr, hg.readable, hg.charged,
    hg.accounted, hg.owned⟩
  · rw [hg.keeps hq h]
    exact h
  · rw [hg.keeps hq h]
    exact hg.blk _ ((hm.inUse q hq h).busy _ ⟨by omega, by omega⟩)

/-- The direct pointers are leaves. -/
theorem direct_leaf (fs : Ufs.fs) (hr : r < NDADDR) :
    (shape fs).Has (r, []) ∧ (shape fs).Leaf (r, []) :=
  ⟨⟨lt_of_lt_of_le hr (Nat.le_add_right _ _), Nat.zero_le _, fun i hi => absurd hi (by simp)⟩,
    (Nat.sub_eq_zero_of_le hr).symm⟩

/-- The piece of a direct block is replaced, by a bigger one or by the first one. -/
theorem rewrote_direct (hm : Mapped fs k sz) (hr : r < NDADDR)
    (hsw : Swapped fs k k' (k.ptr (r, [])) o nb n) (ho : k.ptr (r, []) ≠ 0 → o = sz (r, []))
    (hz : k.ptr (r, []) = 0 → o = 0) (hon : o ≤ n) (hnf : n ≤ fs.fs_frag)
    (hdb : k'.ip.i_db = update k.ip.i_db r nb) (hib : k'.ip.i_ib = k.ip.i_ib)
    (hdq : k'.ip.i_dquot = k.ip.i_dquot)
    (hblocks : k'.ip.i_blocks = k.ip.i_blocks + btodb ((n - o) * fs.fs_fsize)) :
    Rewrote fs k k' sz (update sz (r, []) n) t (fun q => q = (r, [])) 1 ∧
      ∀ q, (shape fs).Has q → k'.ptr q = if q = (r, []) then nb else k.ptr q := by
  obtain ⟨hp, hleaf⟩ := direct_leaf fs hr
  have hset : ∀ q, (shape fs).Has q → k'.ptr q = if q = (r, []) then nb else k.ptr q := by
    intro q hq
    refine hm.ptr_set hp hsw ho hz (fun x hx => ?_) (fun q i hqi _ => ?_)
      (fun q i h => absurd h child_ne_root) (.inl hleaf) hq
    · unfold inode.roots
      rw [hdb, hib]
      by_cases hxr : x = r
      · rw [hxr, if_pos hr, update_self, if_pos rfl]
      · rw [update_of_ne hxr, if_neg (fun h => hxr (Prod.mk.inj h).1)]
    · rw [if_neg child_ne_root]
  refine ⟨⟨hsw.sound, hm.swap hp hsw ho hz rfl hset, fun q hq _ hqr => ?_, fun q hq h => ?_,
    fun q hq _ h j hj => ?_, fun q hq h => ?_, hsw.blkerr, hsw.readable,
    ⟨_, ?_, hdq, hblocks, hsw.quota⟩, fun ha => ha.swap ho hz hon hblocks hset,
    fun x hx => Owned.swap hp hsw ho hz rfl hset hx⟩, hset⟩
  · rw [hset q hq, if_neg hqr]
    exact .inl rfl
  · rw [hset q hq]
    by_cases hqr : q = (r, [])
    · rw [if_pos hqr]
      exact hsw.new.ne
    · rwa [if_neg hqr]
  · rw [hset q hq]
    by_cases hqr : q = (r, [])
    · rw [if_pos hqr]
      subst hqr
      refine hsw.moved j ?_
      rw [ho h]
      exact hj
    · rw [if_neg hqr]
      obtain ⟨h1, h2⟩ := hm.outside hp hq hqr h ho hz (x := k.ptr q + j) ⟨by omega, by omega⟩
      exact hsw.blk _ h1 h2
  · by_cases hqr : q = (r, [])
    · subst hqr
      rw [update_self, ← ho h]
      exact hon
    · rw [update_of_ne hqr]
  · rw [Nat.one_mul, fs.bsize_eq, btodb_mul, btodb_mul]
    exact Nat.mul_le_mul_right _ (by omega)

/-! ## The fragment at the end of the file -/

/-- The fragment at the end of the file, which a write of a later block `bn` extends to a
full block. -/
def Promoted (fs : Ufs.fs) (k : Kern) (bn : ℕ) (q : Ptr) : Prop :=
  q = (lblkno fs k.ip.i_size, []) ∧ lblkno fs k.ip.i_size < bn ∧
    lblkno fs k.ip.i_size < NDADDR ∧ 0 < blksize fs k.ip (lblkno fs k.ip.i_size) ∧
    blksize fs k.ip (lblkno fs k.ip.i_size) < fs.fs_bsize

theorem lblkno_lt (fs : Ufs.fs) (x : ℕ) : x < (lblkno fs x + 1) * fs.fs_bsize := by
  rw [Nat.mul_comm]
  exact Nat.lt_mul_div_succ x (bsize_pos fs)

theorem lblkno_eq (fs : Ufs.fs) {x : ℕ} (h1 : r * fs.fs_bsize ≤ x)
    (h2 : x < (r + 1) * fs.fs_bsize) : lblkno fs x = r := by
  unfold lblkno
  rw [Nat.div_eq_iff (bsize_pos fs)]
  rw [Nat.succ_mul] at h2
  omega

/-- A null pointer has no fragment to grow. -/
theorem growdb_null {osize nsize : ℕ} (h0 : k.ip.i_db bn = 0)
    (h : growdb fs u bn osize nsize k = some (some nb, k')) : False := by
  unfold growdb at h
  rw [h0] at h
  simp only at h
  cases hc : realloccg fs u 0 (blkpref fs bn bn k.ip.i_db k).1 osize nsize
      (blkpref fs bn bn k.ip.i_db k).2 with
  | none => simp [hc] at h
  | some x =>
    obtain ⟨res, k1⟩ := x
    rw [hc] at h
    unfold realloccg at hc
    split at hc
    · cases hc
    · split at hc
      · unfold nospace at hc
        obtain ⟨rfl, -⟩ := Prod.mk.inj (Option.some.inj hc)
        simp at h
      · rw [if_pos rfl] at hc
        cases hc

theorem Tree.inUse_direct (ht : Tree fs k) (hr : r < NDADDR) (h0 : k.ip.i_db r ≠ 0) :
    InUse fs k.fsys (k.ip.i_db r) (nfrags fs k.ip (r, [])) := by
  have := ht.mapped.inUse (r, []) (direct_leaf fs hr).1
  rw [ptr_direct k hr] at this
  exact this h0

/-- A mapped direct block is full, or the last one. -/
theorem Tree.full_or_last (ht : Tree fs k) (hr : r < NDADDR) (h0 : k.ip.i_db r ≠ 0) :
    (r + 1) * fs.fs_bsize ≤ k.ip.i_size ∨ lblkno fs k.ip.i_size = r := by
  by_cases h : (r + 1) * fs.fs_bsize ≤ k.ip.i_size
  · exact .inl h
  · exact .inr (lblkno_eq fs (ht.eof r hr h0).le (by omega))

/-- **Before a block is written, the fragment at the end of the file becomes a full
block.** -/
theorem growlast_spec (ht : Tree fs k) (h : growlast fs u bn k = some (true, k1)) :
    Tree fs k1 ∧
      (∀ r < NDADDR, r < bn → k1.ip.i_db r ≠ 0 → nfrags fs k1.ip (r, []) = fs.fs_frag) ∧
      Rewrote fs k k1 (nfrags fs k.ip) (nfrags fs k1.ip) t (Promoted fs k bn) 1 ∧
      (lblkno fs k.ip.i_size < bn ∨ k1 = k) ∧
      (k1.ip.i_size = k.ip.i_size ∨
        k1.ip.i_size = (lblkno fs k.ip.i_size + 1) * fs.fs_bsize) := by
  have hlt := lblkno_lt fs k.ip.i_size
  unfold growlast at h
  -- nothing to do
  have hsame : k1 = k → (lblkno fs k.ip.i_size < NDADDR → lblkno fs k.ip.i_size < bn →
      k.ip.i_db (lblkno fs k.ip.i_size) ≠ 0 →
      nfrags fs k.ip (lblkno fs k.ip.i_size, []) = fs.fs_frag) →
      Tree fs k1 ∧
        (∀ r < NDADDR, r < bn → k1.ip.i_db r ≠ 0 → nfrags fs k1.ip (r, []) = fs.fs_frag) ∧
        Rewrote fs k k1 (nfrags fs k.ip) (nfrags fs k1.ip) t (Promoted fs k bn) 1 ∧
        (lblkno fs k.ip.i_size < bn ∨ k1 = k) ∧
        (k1.ip.i_size = k.ip.i_size ∨
          k1.ip.i_size = (lblkno fs k.ip.i_size + 1) * fs.fs_bsize) := by
    rintro rfl hfull
    refine ⟨ht, fun r hr hrb h0 => ?_, ?_, .inr rfl, .inl rfl⟩
    · rcases ht.full_or_last hr h0 with h1 | rfl
      · exact nfrags_full (.inr h1)
      · exact hfull hr hrb h0
    · have := Rewrote.refl (t := t) ht.sound ht.mapped
      exact ⟨this.sound, this.mapped, fun _ _ _ _ => .inl rfl, this.keeps, this.contents,
        this.grows, rfl, this.readable, ⟨0, Nat.zero_le _, .refl k1⟩, id, fun _ => id⟩
  by_cases h1 : lblkno fs k.ip.i_size < NDADDR ∧ lblkno fs k.ip.i_size < bn
  swap
  · rw [if_neg h1] at h
    cases h
    exact hsame rfl fun ha hb => absurd ⟨ha, hb⟩ h1
  rw [if_pos h1] at h
  obtain ⟨h12, hbn⟩ := h1
  have hblk := blksize_eq fs k.ip (lblkno fs k.ip.i_size)
  by_cases h2 : blksize fs k.ip (lblkno fs k.ip.i_size) < fs.fs_bsize ∧
      blksize fs k.ip (lblkno fs k.ip.i_size) > 0
  swap
  · rw [if_neg h2] at h
    cases h
    refine hsame rfl fun _ _ h0 => ?_
    have hpos := (ht.inUse_direct h12 h0).pos
    have hle := nfrags_le fs k.ip (lblkno fs k.ip.i_size, [])
    have hp : 0 < blksize fs k.ip (lblkno fs k.ip.i_size) := by
      rw [hblk]
      exact Nat.mul_pos hpos fs.fsize_pos
    have hge : fs.fs_bsize ≤ blksize fs k.ip (lblkno fs k.ip.i_size) := by lia
    rw [hblk, fs.bsize_eq] at hge
    have := Nat.le_of_mul_le_mul_right hge fs.fsize_pos
    lia
  rw [if_pos h2] at h
  have hon : nfrags fs k.ip (lblkno fs k.ip.i_size, []) < fs.fs_frag := by
    have := h2.1
    rw [hblk, fs.bsize_eq] at this
    exact Nat.lt_of_mul_lt_mul_right this
  cases hg : growdb fs u (lblkno fs k.ip.i_size) (blksize fs k.ip (lblkno fs k.ip.i_size))
      fs.fs_bsize k with
  | none => simp [hg] at h
  | some x =>
    obtain ⟨res, k2⟩ := x
    rw [hg] at h
    cases res with
    | none => simp at h
    | some nb =>
      simp only [Option.some.injEq, Prod.mk.injEq, true_and] at h
      subst h
      by_cases h0 : k.ip.i_db (lblkno fs k.ip.i_size) = 0
      · exact (growdb_null h0 hg).elim
      rw [hblk, fs.bsize_eq] at hg
      obtain ⟨hsw, hip⟩ := growdb_some ht.sound (ht.inUse_direct h12 h0) hon le_rfl hg
      rw [← ptr_direct k h12] at hsw
      have h0' : k.ptr (lblkno fs k.ip.i_size, []) ≠ 0 := by rwa [ptr_direct k h12]
      obtain ⟨hrw, hset⟩ := rewrote_direct (t := t) ht.mapped h12 hsw (fun _ => rfl)
        (fun h => absurd h h0') hon.le le_rfl (by rw [hip]) (by rw [hip]) (by rw [hip])
        (by rw [hip])
      have hsize : (k2.setsize ((lblkno fs k.ip.i_size + 1) * fs.fs_bsize)).ip.i_size =
        (lblkno fs k.ip.i_size + 1) * fs.fs_bsize := rfl
      have hptr : ∀ q, (k2.setsize ((lblkno fs k.ip.i_size + 1) * fs.fs_bsize)).ptr q =
        k2.ptr q := fun q => rfl
      have hdb : k2.ip.i_db = update k.ip.i_db (lblkno fs k.ip.i_size) nb := by
        rw [hip]
      -- a mapped direct block is now a full one
      have hfull : ∀ q, (shape fs).Has q → k2.ptr q ≠ 0 →
          nfrags fs (k2.setsize ((lblkno fs k.ip.i_size + 1) * fs.fs_bsize)).ip q =
            update (nfrags fs k.ip) (lblkno fs k.ip.i_size, []) fs.fs_frag q := by
        intro q hq hq0
        by_cases hqe : q = (lblkno fs k.ip.i_size, [])
        · rw [hqe, update_self]
          exact nfrags_full (.inr le_rfl)
        · rw [update_of_ne hqe]
          rw [hset q hq, if_neg hqe] at hq0
          by_cases hq12 : q.1 < NDADDR
          · have hqr : q = (q.1, []) := by
              have hlen := hq.depth
              have hl0 : (shape fs).level q.1 = 0 := Nat.sub_eq_zero_of_le hq12
              exact Prod.ext rfl (List.length_eq_zero_iff.mp (by lia))
            have hqdb : k.ip.i_db q.1 ≠ 0 := by
              rwa [← ptr_direct k hq12, ← hqr]
            rcases ht.full_or_last hq12 hqdb with hge | heq
            · rw [nfrags_full (.inr hge)]
              refine nfrags_full (.inr ?_)
              rw [hsize]
              lia
            · rw [heq] at hqe
              exact absurd hqr hqe
          · rw [nfrags_full (.inl (by lia)), nfrags_full (.inl (by lia))]
      refine ⟨⟨hrw.sound.of_eq rfl rfl, hrw.mapped.congr rfl (fun q _ => hptr q) hfull, ?_⟩,
        fun r hr hrb hr0 => ?_, ⟨hrw.sound.of_eq rfl rfl,
          hrw.mapped.congr rfl (fun q _ => hptr q) hfull, fun q hq hqt hqm => ?_, hrw.keeps,
          hrw.contents, fun q hq hq0 => ?_, hrw.blkerr, hrw.readable, hrw.charged,
          fun ha S hS => ?_, fun x hx => hrw.owned x ?_⟩, .inl hbn, .inr rfl⟩
      · intro r hr hr0
        rw [hsize]
        change k2.ip.i_db r ≠ 0 at hr0
        rw [hdb] at hr0
        by_cases hre : r = lblkno fs k.ip.i_size
        · rw [hre, Nat.succ_mul]
          lia
        · rw [update_of_ne hre] at hr0
          have := ht.eof r hr hr0
          lia
      · change k2.ip.i_db r ≠ 0 at hr0
        have hp0 : k2.ptr (r, []) ≠ 0 := by rwa [ptr_direct k2 hr]
        rw [hfull (r, []) (direct_leaf fs hr).1 hp0]
        by_cases hre : r = lblkno fs k.ip.i_size
        · rw [hre, update_self]
        · rw [update_of_ne (fun h => hre (Prod.mk.inj h).1)]
          rw [hdb, update_of_ne hre] at hr0
          rcases ht.full_or_last hr hr0 with hge | heq
          · exact nfrags_full (.inr hge)
          · exact absurd heq.symm hre
      · exact hrw.ptr q hq hqt fun hqe => hqm ⟨hqe, hbn, h12, h2.2, h2.1⟩
      · rw [hfull q hq (hrw.keeps q hq hq0)]
        exact hrw.grows q hq hq0
      · have hsum : ∑ q ∈ S, btodb (nfrags fs
            (k2.setsize ((lblkno fs k.ip.i_size + 1) * fs.fs_bsize)).ip q * fs.fs_fsize) =
            ∑ q ∈ S, btodb (update (nfrags fs k.ip)
              (lblkno fs k.ip.i_size, []) fs.fs_frag q * fs.fs_fsize) :=
          Finset.sum_congr rfl fun q hq => by rw [hfull q (hS q hq).1 (hS q hq).2]
        rw [hsum]
        exact hrw.accounted ha S hS
      · rcases hx with hx | ⟨q, hq, hq0, hw⟩
        · exact .inl hx
        · refine .inr ⟨q, hq, hq0, ?_⟩
          rwa [hfull q hq hq0] at hw

end Ufs
