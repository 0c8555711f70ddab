/-
# Files whose pointers share no block

`Mapped` says that every pointer of a file holds a piece in use and no two of them share
a fragment.  Setting a pointer to a piece just allocated, or to the piece its old one was
replaced by, keeps that and changes no other pointer; `Grown` is what several such steps
on the way to one leaf do.
-/
import SunOS.Ufs.BlockMap
import Mathlib.Algebra.Order.BigOperators.Group.Finset
import Mathlib.Tactic.Linarith

namespace Ufs

open List
open Function (update update_of_ne update_self)
open BlockTree

variable {fs : Ufs.fs} {k k' k1 k2 : Kern} {p q t : Ptr} {b n m c o nb i r x : ℕ}
  {sz : Ptr → ℕ}

/-- The pointers of a file hold pieces in use, `sz p` fragments at `p`, that share no
fragment. -/
structure Mapped (fs : Ufs.fs) (k : Kern) (sz : Ptr → ℕ) : Prop where
  inUse : ∀ p, (shape fs).Has p → k.ptr p ≠ 0 → InUse fs k.fsys (k.ptr p) (sz p)
  apart : ∀ p q x, (shape fs).Has p → (shape fs).Has q → k.ptr p ≠ 0 → k.ptr q ≠ 0 →
    Within (k.ptr p) (sz p) x → Within (k.ptr q) (sz q) x → p = q

/-- No address is held by two pointers. -/
theorem Mapped.inj (hm : Mapped fs k sz) (hp : (shape fs).Has p) (hq : (shape fs).Has q)
    (h0 : k.ptr p ≠ 0) (h : k.ptr p = k.ptr q) : p = q := by
  have h0' : k.ptr q ≠ 0 := h ▸ h0
  have h1 := (hm.inUse p hp h0).pos
  have h2 := (hm.inUse q hq h0').pos
  exact hm.apart p q (k.ptr p) hp hq h0 h0' ⟨le_rfl, by omega⟩ ⟨by omega, by omega⟩

/-- Only the sizes of the pieces that are there matter. -/
theorem Mapped.congr {sz' : Ptr → ℕ} (hm : Mapped fs k sz) (hfs : k'.fsys = k.fsys)
    (hptr : ∀ q, (shape fs).Has q → k'.ptr q = k.ptr q)
    (hsz : ∀ q, (shape fs).Has q → k.ptr q ≠ 0 → sz' q = sz q) : Mapped fs k' sz' := by
  refine ⟨fun p hp h0 => ?_, fun p q x hp hq h0 h1 hx hy => ?_⟩
  · rw [hptr p hp] at h0 ⊢
    rw [hfs, hsz p hp h0]
    exact hm.inUse p hp h0
  · rw [hptr p hp] at h0 hx
    rw [hptr q hq] at h1 hy
    rw [hsz p hp h0] at hx
    rw [hsz q hq h1] at hy
    exact hm.apart p q x hp hq h0 h1 hx hy

/-- A fragment of another pointer's piece is in use, and not in the piece of `p`. -/
theorem Mapped.outside (hm : Mapped fs k sz) (hp : (shape fs).Has p) (hq : (shape fs).Has q)
    (hne : q ≠ p) (h0 : k.ptr q ≠ 0) (ho : k.ptr p ≠ 0 → o = sz p) (hz : k.ptr p = 0 → o = 0)
    (hx : Within (k.ptr q) (sz q) x) :
    isfree fs k.fsys x = false ∧ ¬ Within (k.ptr p) o x := by
  refine ⟨(hm.inUse q hq h0).busy x hx, fun hw => ?_⟩
  by_cases hp0 : k.ptr p = 0
  · rw [hz hp0] at hw
    exact not_within_zero hw
  · rw [ho hp0] at hw
    exact hne (hm.apart q p x hq hp h0 hp0 hx hw)

/-- **Replacing the piece of one pointer** keeps the pieces of a file apart. -/
theorem Mapped.swap (hm : Mapped fs k sz) (hp : (shape fs).Has p)
    (hsw : Swapped fs k k1 (k.ptr p) o nb n) (ho : k.ptr p ≠ 0 → o = sz p)
    (hz : k.ptr p = 0 → o = 0) (hfs : k'.fsys = k1.fsys)
    (hptr : ∀ q, (shape fs).Has q → k'.ptr q = if q = p then nb else k.ptr q) :
    Mapped fs k' (update sz p n) := by
  have hold : ∀ q x, (shape fs).Has q → q ≠ p → k'.ptr q ≠ 0 →
      Within (k'.ptr q) (update sz p n q) x →
      k'.ptr q = k.ptr q ∧ Within (k.ptr q) (sz q) x ∧
        isfree fs k.fsys x = false ∧ ¬ Within (k.ptr p) o x := by
    intro q x hq hne h0 hx
    have heq : k'.ptr q = k.ptr q := by rw [hptr q hq, if_neg hne]
    rw [heq, update_of_ne hne] at hx
    rw [heq] at h0
    exact ⟨heq, hx, hm.outside hp hq hne h0 ho hz hx⟩
  have hnew : ∀ x, Within nb n x → isfree fs k.fsys x = false → Within (k.ptr p) o x := by
    intro x hx hbusy
    rcases hsw.fresh x hx with hfree | hw
    · rw [hbusy] at hfree
      simp at hfree
    · exact hw
  refine ⟨fun q hq h0 => ?_, fun q q' x hq hq' h0 h0' hx hx' => ?_⟩
  · rw [hfs]
    by_cases hqp : q = p
    · rw [hptr q hq, if_pos hqp, hqp, update_self]
      exact hsw.new
    · rw [update_of_ne hqp]
      have heq : k'.ptr q = k.ptr q := by rw [hptr q hq, if_neg hqp]
      rw [heq] at h0 ⊢
      refine (hm.inUse q hq h0).mono fun x hx => ?_
      obtain ⟨h1, h2⟩ := hm.outside hp hq hqp h0 ho hz hx
      exact hsw.busy x h1 h2
  · by_cases hqp : q = p
    · by_cases hqp' : q' = p
      · rw [hqp, hqp']
      · exfalso
        obtain ⟨-, -, h1, h2⟩ := hold q' x hq' hqp' h0' hx'
        rw [hptr q hq, if_pos hqp, hqp, update_self] at hx
        exact h2 (hnew x hx h1)
    · obtain ⟨h1, h2, h3, h4⟩ := hold q x hq hqp h0 hx
      by_cases hqp' : q' = p
      · exfalso
        rw [hptr q' hq', if_pos hqp', hqp', update_self] at hx'
        exact h4 (hnew x hx' h3)
      · obtain ⟨h1', h2', -, -⟩ := hold q' x hq' hqp' h0' hx'
        rw [h1] at h0
        rw [h1'] at h0'
        exact hm.apart q q' x hq hq' h0 h0' h2 h2'

/-- **Setting one pointer changes no other.** -/
theorem Mapped.ptr_set (hm : Mapped fs k sz) (hp : (shape fs).Has p)
    (hsw : Swapped fs k k1 (k.ptr p) o nb n) (ho : k.ptr p ≠ 0 → o = sz p)
    (hz : k.ptr p = 0 → o = 0)
    (hroot : ∀ r < NDADDR + NIADDR, k'.ip.roots r = if (r, []) = p then nb else k.ip.roots r)
    (hbap : ∀ q i, (shape fs).Has (child q i) → k.ptr q ≠ 0 →
      k'.bap (k.ptr q) i = if child q i = p then nb else k1.bap (k.ptr q) i)
    (hparent : ∀ q i, child q i = p → k.ptr q ≠ 0)
    (hempty : (shape fs).Leaf p ∨ k.ptr p = 0 ∧ ∀ i, k'.bap nb i = 0)
    (hq : (shape fs).Has q) : k'.ptr q = if q = p then nb else k.ptr q := by
  refine addr_set hroot (fun q i hqi hne h0 => ?_) hparent hempty hq
  have hq := (Shape.has_child.mp hqi).1
  change k'.bap (k.ptr q) i = if child q i = p then nb else k.bap (k.ptr q) i
  rw [hbap q i hqi h0]
  have hpos := (hm.inUse q hq h0).pos
  obtain ⟨h1, h2⟩ := hm.outside hp hq hne h0 ho hz (x := k.ptr q) ⟨le_rfl, by omega⟩
  rw [hsw.bap _ h1 h2]

/-- Fragment `x` is free, or in a piece of the file. -/
def Owned (fs : Ufs.fs) (k : Kern) (sz : Ptr → ℕ) (x : ℕ) : Prop :=
  isfree fs k.fsys x = true ∨
    ∃ p, (shape fs).Has p ∧ k.ptr p ≠ 0 ∧ Within (k.ptr p) (sz p) x

/-- What the file and the free map own together does not grow. -/
theorem Owned.swap (hp : (shape fs).Has p) (hsw : Swapped fs k k1 (k.ptr p) o nb n)
    (ho : k.ptr p ≠ 0 → o = sz p) (hz : k.ptr p = 0 → o = 0) (hfs : k'.fsys = k1.fsys)
    (hptr : ∀ q, (shape fs).Has q → k'.ptr q = if q = p then nb else k.ptr q)
    (hx : Owned fs k' (update sz p n) x) : Owned fs k sz x := by
  have hold : Within (k.ptr p) o x → Owned fs k sz x := by
    intro hw
    by_cases h0 : k.ptr p = 0
    · rw [hz h0] at hw
      exact absurd hw not_within_zero
    · rw [ho h0] at hw
      exact .inr ⟨p, hp, h0, hw⟩
  rcases hx with hx | ⟨q, hq, h0, hw⟩
  · rw [hfs] at hx
    rcases hsw.freed x hx with h | h
    · exact .inl h
    · exact hold h
  · rw [hptr q hq] at h0 hw
    by_cases hqp : q = p
    · rw [if_pos hqp, hqp, update_self] at hw
      rcases hsw.fresh x hw with h | h
      · exact .inl h
      · exact hold h
    · rw [if_neg hqp] at h0 hw
      rw [update_of_ne hqp] at hw
      exact .inr ⟨q, hq, h0, hw⟩

/-! ## Accounts -/

/-- The blocks charged to the inode pay for its pieces. -/
def Accounted (fs : Ufs.fs) (k : Kern) (sz : Ptr → ℕ) : Prop :=
  ∀ S : Finset Ptr, (∀ p ∈ S, (shape fs).Has p ∧ k.ptr p ≠ 0) →
    ((∑ p ∈ S, btodb (sz p * fs.fs_fsize) : ℕ) : ℤ) ≤ k.ip.i_blocks

theorem btodb_mul (fs : Ufs.fs) (n : ℕ) : btodb (n * fs.fs_fsize) = n * (fs.fs_fsize / 512) := by
  obtain ⟨d, hd⟩ := fs.dev_dvd
  unfold btodb
  rw [Nat.shiftRight_eq_div_pow, hd, show 512 * d / 512 = d by omega,
    show n * (512 * d) = n * d * 512 by ring]
  exact Nat.mul_div_cancel _ (by norm_num)

theorem Accounted.swap (ha : Accounted fs k sz) (ho : k.ptr p ≠ 0 → o = sz p)
    (hz : k.ptr p = 0 → o = 0) (hon : o ≤ n)
    (hblocks : k'.ip.i_blocks = k.ip.i_blocks + btodb ((n - o) * fs.fs_fsize))
    (hptr : ∀ q, (shape fs).Has q → k'.ptr q = if q = p then nb else k.ptr q) :
    Accounted fs k' (update sz p n) := by
  intro S hS
  have hrest : ∀ q ∈ S.erase p, (shape fs).Has q ∧ k.ptr q ≠ 0 := by
    intro q hq
    obtain ⟨hne, hmem⟩ := Finset.mem_erase.mp hq
    obtain ⟨h1, h2⟩ := hS q hmem
    rw [hptr q h1, if_neg hne] at h2
    exact ⟨h1, h2⟩
  have hsum : ∑ q ∈ S.erase p, btodb (update sz p n q * fs.fs_fsize) =
      ∑ q ∈ S.erase p, btodb (sz q * fs.fs_fsize) :=
    Finset.sum_congr rfl fun q hq => by rw [update_of_ne (Finset.ne_of_mem_erase hq)]
  have hmul : btodb (n * fs.fs_fsize) = btodb (o * fs.fs_fsize) + btodb
    ((n - o) * fs.fs_fsize) := by
    rw [btodb_mul, btodb_mul, btodb_mul, ← Nat.add_mul, Nat.add_sub_cancel' hon]
  rw [hblocks]
  by_cases hpS : p ∈ S
  · rw [← Finset.add_sum_erase S _ hpS, hsum, update_self, hmul]
    by_cases hp0 : k.ptr p = 0
    · have := ha (S.erase p) hrest
      rw [hz hp0, Nat.zero_mul, show btodb 0 = 0 from rfl, Nat.sub_zero]
      push_cast at this ⊢
      linarith
    · have hall : ∀ q ∈ S, (shape fs).Has q ∧ k.ptr q ≠ 0 := by
        intro q hq
        by_cases hqp : q = p
        · rw [hqp]
          exact ⟨(hS p hpS).1, hp0⟩
        · exact hrest q (Finset.mem_erase.mpr ⟨hqp, hq⟩)
      have := ha S hall
      rw [← Finset.add_sum_erase S _ hpS, ← ho hp0] at this
      push_cast at this ⊢
      linarith
  · rw [Finset.erase_eq_of_notMem hpS] at hsum hrest
    have := ha S hrest
    rw [hsum]
    omega

end Ufs

/-! # Writing through the block map

A successful `bmap` for `B_WRITE` sets null pointers on the way to the leaf of its block,
and may replace the fragment at the end of the file by a bigger piece.  Every other
pointer stays, and so do the contents of every piece.
-/

namespace Ufs

open List
open Function (update update_of_ne update_self)
open BlockTree

variable {fs : Ufs.fs} {u : user} {k k' k1 k2 : Kern} {p q t : Ptr} {bn b n m c d o nb i r x : ℕ}
  {sz : Ptr → ℕ}

/-! ## Charges -/

/-- `c` more blocks were charged to the inode and to its owner. -/
def Charged (k k' : Kern) (c : ℕ) : Prop :=
  k'.ip.i_dquot = k.ip.i_dquot ∧ k'.ip.i_blocks = k.ip.i_blocks + c ∧
    ∀ uid, (k'.dquots uid).dq_curblocks = chargedBlocks k c uid

theorem Charged.refl (k : Kern) : Charged k k 0 :=
  ⟨rfl, (Int.add_zero _).symm, fun uid => (chargedBlocks_zero k uid).symm⟩

theorem uint32_add_add (x y z : ℤ) : uint32 (uint32 (x + y) + z) = uint32 (x + (y + z)) := by
  unfold uint32
  omega

theorem Charged.trans (h1 : Charged k k1 c) (h2 : Charged k1 k2 d) : Charged k k2 (c + d) := by
  obtain ⟨hd1, hb1, hq1⟩ := h1
  obtain ⟨hd2, hb2, hq2⟩ := h2
  refine ⟨hd2.trans hd1, ?_, fun uid => ?_⟩
  · rw [hb2, hb1]
    push_cast
    ring
  · rw [hq2]
    unfold chargedBlocks at *
    rw [hd1, hq1]
    by_cases hu : k.ip.i_dquot = some uid
    · by_cases hc : c = 0
      · subst hc
        simp [hu]
      · by_cases hd : d = 0
        · subst hd
          simp [hu, hc]
        · have h3 : ((c + d : ℕ) : ℤ) ≠ 0 := by omega
          rw [if_pos ⟨by omega, hu⟩, if_pos ⟨by omega, hu⟩, if_pos ⟨h3, hu⟩, uint32_add_add]
          rfl
    · simp [hu]

/-! ## Growing the tree towards a leaf -/

/-- Null pointers on the way to `t` were set to empty blocks, at most `n` of them. -/
structure Grown (fs : Ufs.fs) (k k' : Kern) (sz : Ptr → ℕ) (t : Ptr) (n : ℕ) : Prop where
  sound : Sound fs k'
  mapped : Mapped fs k' sz
  ptr : ∀ q, (shape fs).Has q →
    k'.ptr q = k.ptr q ∨ (k.ptr q = 0 ∧ ∃ ys, t = (q.1, q.2 ++ ys))
  busy : ∀ x, isfree fs k.fsys x = false → isfree fs k'.fsys x = false
  blk : ∀ x, isfree fs k.fsys x = false → k'.blk x = k.blk x
  size : k'.ip.i_size = k.ip.i_size
  db : k'.ip.i_db = k.ip.i_db
  blkerr : k'.blkerr = k.blkerr
  readable : ∀ x, breadcg k'.fsys x = none ↔ breadcg k.fsys x = none
  charged : ∃ c ≤ n * btodb fs.fs_bsize, Charged k k' c
  accounted : Accounted fs k sz → Accounted fs k' sz
  owned : ∀ x, Owned fs k' sz x → Owned fs k sz x

theorem Grown.refl (hs : Sound fs k) (hm : Mapped fs k sz) : Grown fs k k sz t 0 :=
  ⟨hs, hm, fun _ _ => .inl rfl, fun _ h => h, fun _ _ => rfl, rfl, rfl, rfl, fun _ => Iff.rfl,
    ⟨0, Nat.zero_le _, .refl k⟩, id, fun _ => id⟩

/-- A pointer that is set stays as it is. -/
theorem Grown.keeps (hg : Grown fs k k' sz t n) (hq : (shape fs).Has q) (h : k.ptr q ≠ 0) :
    k'.ptr q = k.ptr q := by
  rcases hg.ptr q hq with h1 | ⟨h1, -⟩
  · exact h1
  · exact absurd h1 h

theorem Grown.trans (h₁ : Grown fs k k1 sz t n) (h2 : Grown fs k1 k2 sz t m) :
    Grown fs k k2 sz t (n + m) := by
  refine ⟨h2.sound, h2.mapped, fun q hq => ?_, fun x hx => h2.busy x (h₁.busy x hx), fun x hx => ?_,
    h2.size.trans h₁.size, h2.db.trans h₁.db, h2.blkerr.trans h₁.blkerr,
    fun x => (h2.readable x).trans (h₁.readable x), ?_, fun h => h2.accounted (h₁.accounted h),
    fun x hx => h₁.owned x (h2.owned x hx)⟩
  · rcases h₁.ptr q hq with h1 | h1
    · rw [← h1]
      exact h2.ptr q hq
    · exact .inr h1
  · rw [h2.blk x (h₁.busy x hx), h₁.blk x hx]
  · obtain ⟨c, hc, hch⟩ := h₁.charged
    obtain ⟨d, hd, hdh⟩ := h2.charged
    exact ⟨c + d, by rw [Nat.add_mul]; omega, hch.trans hdh⟩

theorem Grown.mono {ys : List ℕ} (h : Grown fs k k' sz p n) (ht : t = (p.1, p.2 ++ ys)) :
    Grown fs k k' sz t n := by
  refine ⟨h.sound, h.mapped, fun q hq => ?_, h.busy, h.blk, h.size, h.db, h.blkerr, h.readable,
    h.charged, h.accounted, h.owned⟩
  rcases h.ptr q hq with h1 | ⟨h1, zs, hz⟩
  · exact .inl h1
  · refine .inr ⟨h1, zs ++ ys, ?_⟩
    rw [ht, hz, append_assoc]

/-- One null pointer is set to an empty block. -/
theorem grown_one (ib : ℕ → ℕ) {bap : ℕ → ℕ → ℕ} (hm : Mapped fs k sz) (hp : (shape fs).Has p)
    (h0 : k.ptr p = 0) (hsz : sz p = fs.fs_frag) (hsw : Swapped fs k k1 0 0 nb fs.fs_frag)
    (hip : k1.ip = { k.ip with i_blocks := k.ip.i_blocks + btodb (fs.fs_frag * fs.fs_fsize) })
    (hk2 : k2 = { k1 with ip := { k1.ip with i_ib := ib }, bap := bap })
    (hroot : ∀ r < NDADDR + NIADDR, k2.ip.roots r = if (r, []) = p then nb else k.ip.roots r)
    (hbap : ∀ q i, (shape fs).Has (child q i) → k.ptr q ≠ 0 →
      bap (k.ptr q) i = if child q i = p then nb else k1.bap (k.ptr q) i)
    (hparent : ∀ q i, child q i = p → k.ptr q ≠ 0)
    (hempty : (shape fs).Leaf p ∨ ∀ i, bap nb i = 0) :
    Grown fs k k2 sz p 1 ∧ k2.ptr p = nb := by
  have hsw' : Swapped fs k k1 (k.ptr p) 0 nb fs.fs_frag := h0.symm ▸ hsw
  have hbapk : k2.bap = bap := by rw [hk2]
  have hset : ∀ q, (shape fs).Has q → k2.ptr q = if q = p then nb else k.ptr q := by
    intro q hq
    refine hm.ptr_set hp hsw' (fun h => absurd h0 h) (fun _ => rfl) hroot ?_ hparent ?_ hq
    · rw [hbapk]
      exact hbap
    · rw [hbapk]
      exact hempty.imp_right fun h => ⟨h0, h⟩
  have hmul : fs.fs_frag * fs.fs_fsize = fs.fs_bsize := fs.bsize_eq.symm
  have hupd : update sz p fs.fs_frag = sz := by
    rw [← hsz, Function.update_eq_self]
  have hcost : k2.ip.i_blocks = k.ip.i_blocks + btodb ((fs.fs_frag - 0) * fs.fs_fsize) := by
    rw [hk2]
    show k1.ip.i_blocks = _
    rw [hip, Nat.sub_zero]
  refine ⟨⟨?_, ?_, fun q hq => ?_, fun x hx => ?_, fun x hx => ?_, ?_, ?_, ?_, fun x => ?_,
    ⟨btodb fs.fs_bsize, by omega, ?_, ?_, fun uid => ?_⟩, fun ha => ?_, fun x hx => ?_⟩, ?_⟩
  · rw [hk2]
    exact hsw.sound.of_eq rfl rfl
  · have : Mapped fs k2 _ := hm.swap hp hsw' (fun h => absurd h0 h) (fun _ => rfl)
      (by rw [hk2]) hset
    rwa [hupd] at this
  · rw [hset q hq]
    by_cases hqp : q = p
    · right
      rw [hqp]
      exact ⟨h0, [], by rw [append_nil]⟩
    · exact .inl (if_neg hqp)
  · rw [hk2]
    exact hsw.busy x hx not_within_zero
  · rw [hk2]
    exact hsw.blk x hx not_within_zero
  · rw [hk2]
    show k1.ip.i_size = _
    rw [hip]
  · rw [hk2]
    show k1.ip.i_db = _
    rw [hip]
  · rw [hk2]
    exact hsw.blkerr
  · rw [hk2]
    exact hsw.readable x
  · rw [hk2]
    show k1.ip.i_dquot = _
    rw [hip]
  · rw [hcost, Nat.sub_zero, hmul]
  · have := hsw.quota uid
    rw [Nat.sub_zero, hmul] at this
    rw [hk2]
    exact this
  · have : Accounted fs k2 _ :=
      ha.swap (fun h => absurd h0 h) (fun _ => rfl) (Nat.zero_le _) hcost hset
    rwa [hupd] at this
  · rw [← hupd] at hx
    have hfs : k2.fsys = k1.fsys := by rw [hk2]
    exact Owned.swap hp hsw' (fun h => absurd h0 h) (fun _ => rfl) hfs hset hx
  · rw [hset p hp, if_pos rfl]

/-- The first indirect block behind a root is allocated. -/
theorem grown_root (hm : Mapped fs k sz) (hr : NDADDR ≤ r) (hr' : r < NDADDR + NIADDR)
    (h0 : k.ptr (r, []) = 0) (hsz : sz (r, []) = fs.fs_frag)
    (hsw : Swapped fs k k1 0 0 nb fs.fs_frag)
    (hip : k1.ip = { k.ip with i_blocks := k.ip.i_blocks + btodb (fs.fs_frag * fs.fs_fsize) }) :
    Grown fs k (k1.setib (r - NDADDR) nb) sz (r, []) 1 ∧
      (k1.setib (r - NDADDR) nb).ptr (r, []) = nb := by
  have hp : (shape fs).Has (r, []) := ⟨hr', Nat.zero_le _, fun i hi => absurd hi (by simp)⟩
  refine grown_one _ hm hp h0 hsz hsw hip rfl (fun x hx => ?_) (fun q i _ _ => ?_)
    (fun q i h => absurd h child_ne_root) (.inr fun i => ?_)
  · show (if x < NDADDR then k1.ip.i_db x
      else update k1.ip.i_ib (r - NDADDR) nb (x - NDADDR)) = _
    rw [hip]
    by_cases hxr : x = r
    · rw [hxr, if_neg (by omega), update_self, if_pos rfl]
    · rw [if_neg (fun h => hxr (Prod.mk.inj h).1)]
      unfold inode.roots
      by_cases hd : x < NDADDR
      · rw [if_pos hd, if_pos hd]
      · rw [if_neg hd, if_neg hd, update_of_ne (by omega)]
  · rw [if_neg child_ne_root]
  · have := (hsw.zero 0 le_rfl fs.frag_pos).2
    rw [Nat.add_zero] at this
    rw [this]

/-- A block behind an indirect block is allocated. -/
theorem grown_child (hm : Mapped fs k sz) (hp : (shape fs).Has (child p i)) (hne : k.ptr p ≠ 0)
    (h0 : k.ptr (child p i) = 0) (hsz : sz (child p i) = fs.fs_frag)
    (hsw : Swapped fs k k1 0 0 nb fs.fs_frag)
    (hip : k1.ip = { k.ip with i_blocks := k.ip.i_blocks + btodb (fs.fs_frag * fs.fs_fsize) }) :
    Grown fs k (k1.setbap (k.ptr p) i nb) sz (child p i) 1 ∧
      (k1.setbap (k.ptr p) i nb).ptr (child p i) = nb := by
  have hhas := (Shape.has_child.mp hp).1
  have hnb : nb ≠ k.ptr p := by
    intro heq
    have h1 := (hm.inUse p hhas hne).busy (k.ptr p)
      ⟨le_rfl, by have := (hm.inUse p hhas hne).pos; omega⟩
    rcases hsw.fresh nb ⟨le_rfl, by have := fs.frag_pos; omega⟩ with h2 | h2
    · rw [heq, h1] at h2
      simp at h2
    · exact not_within_zero h2
  refine grown_one k1.ip.i_ib hm hp h0 hsz hsw hip rfl (fun x hx => ?_)
    (fun q j hqj hq0 => ?_) (fun q j h => ?_) (.inr fun j => ?_)
  · rw [if_neg (fun h => child_ne_root h.symm)]
    show k1.ip.roots x = _
    rw [hip]
    rfl
  · by_cases hqp : k.ptr q = k.ptr p
    · have hqp' := hm.inj (Shape.has_child.mp hqj).1 hhas hq0 hqp
      subst hqp'
      rw [update_self]
      by_cases hj : j = i
      · rw [hj, update_self, if_pos rfl]
      · rw [update_of_ne hj, if_neg (fun h => hj (child_inj.mp h).2)]
    · rw [update_of_ne hqp, if_neg]
      intro h
      rw [(child_inj.mp h).1] at hqp
      exact hqp rfl
  · rw [(child_inj.mp h).1]
    exact hne
  · rw [update_of_ne hnb]
    have := (hsw.zero 0 le_rfl fs.frag_pos).2
    rw [Nat.add_zero] at this
    rw [this]

/-- `alloc` does not look at the rotor of `blkpref`. -/
theorem alloc_rotor {pref : ℕ} (hs : Sound fs k) (hn : 0 < n) (hnf : n ≤ fs.fs_frag)
    (h : alloc fs u pref (n * fs.fs_fsize) { k with fs_cgrotor := r } = some (some b, k')) :
    Swapped fs k k' 0 0 b n ∧
      k'.ip = { k.ip with i_blocks := k.ip.i_blocks + btodb (n * fs.fs_fsize) } := by
  obtain ⟨hsw, hip⟩ := alloc_some (k := { k with fs_cgrotor := r }) (hs.of_eq rfl rfl) hn hnf h
  exact ⟨⟨hsw.sound, hsw.new, hsw.fresh, hsw.busy, hsw.freed, hsw.blk, hsw.bap, hsw.moved, hsw.zero,
    hsw.blkerr, hsw.readable, hsw.quota⟩, hip⟩

/-- The pointers on the way to `t`, before the last one, can be read. -/
def Clear (k : Kern) (t : Ptr) : Prop :=
  ∀ xs ys, t.2 = xs ++ ys → ys ≠ [] → k.ptr (t.1, xs) ≠ 0 → k.blkerr (k.ptr (t.1, xs)) = false

/-- **Fetching through the indirect blocks for `B_WRITE`** grows the tree to the leaf of
the block, and reads every block on the way. -/
theorem bmapfetch_write {lbn pref : ℕ} {v : ℤ} (hs : Sound fs k) (hm : Mapped fs k sz)
    (hp : (shape fs).Has p) (hlen : p.2.length + n = (shape fs).level p.1) (hne : k.ptr p ≠ 0)
    (hsz : ∀ q, q.1 = p.1 → sz q = fs.fs_frag) (hv : 0 < v)
    (h : bmapfetch fs u .B_WRITE lbn m n (k.ptr p) ((NINDIR fs : ℤ) ^ n) pref k = some (v, k')) :
    Grown fs k k' sz (p.1, p.2 ++ digits (NINDIR fs) n m) n ∧
      v = k'.ptr (p.1, p.2 ++ digits (NINDIR fs) n m) ∧
      ∀ xs ys, digits (NINDIR fs) n m = xs ++ ys → ys ≠ [] →
        k'.blkerr (k'.ptr (p.1, p.2 ++ xs)) = false := by
  induction n generalizing p k pref with
  | zero =>
    obtain ⟨rfl, rfl⟩ := Prod.mk.inj (Option.some.inj h)
    refine ⟨.refl hs hm, ?_, fun xs ys hxy hys => ?_⟩
    · show (k.ptr p : ℤ) = k.ptr (p.1, p.2 ++ [])
      rw [append_nil]
    · exact absurd (List.append_eq_nil_iff.mp hxy.symm).2 hys
  | succ n ih =>
    obtain ⟨h1, h2⟩ := fetch_index fs n m
    unfold bmapfetch at h
    by_cases he : k.blkerr (k.ptr p) = true
    · rw [if_pos he] at h
      obtain ⟨rfl, -⟩ := Prod.mk.inj (Option.some.inj h)
      exact absurd hv (lt_irrefl 0)
    rw [if_neg he] at h
    simp only [h1, h2] at h
    rw [← ptr_child hne] at h
    have hdig : digits (NINDIR fs) (n + 1) m =
      m / NINDIR fs ^ n % NINDIR fs :: digits (NINDIR fs) n m := rfl
    have hi : m / NINDIR fs ^ n % NINDIR fs < NINDIR fs := Nat.mod_lt _ (nindir_pos fs)
    rw [hdig]
    generalize m / NINDIR fs ^ n % NINDIR fs = i at h hi
    have hc : (shape fs).Has (child p i) := Shape.has_child.mpr ⟨hp, by omega, hi⟩
    have hclen : (child p i).2.length + n = (shape fs).level (child p i).1 := by
      show (p.2 ++ [i]).length + n = (shape fs).level p.1
      rw [length_append, length_singleton]
      omega
    have happ : ∀ xs : List ℕ, p.2 ++ i :: xs = (child p i).2 ++ xs := by
      intro xs
      show _ = (p.2 ++ [i]) ++ xs
      rw [append_assoc, singleton_append]
    -- the rest of the way, once the next block is there
    have hrest : ∀ {k2 : Kern} {pref : ℕ} {c : ℕ}, Sound fs k2 → Mapped fs k2 sz →
        k2.ptr (child p i) ≠ 0 →
        Grown fs k k2 sz (p.1, p.2 ++ i :: digits (NINDIR fs) n m) c → c ≤ 1 →
        bmapfetch fs u .B_WRITE lbn m n (k2.ptr (child p i)) ((NINDIR fs : ℤ) ^ n) pref k2 =
          some (v, k') →
        Grown fs k k' sz (p.1, p.2 ++ i :: digits (NINDIR fs) n m) (n + 1) ∧
          v = k'.ptr (p.1, p.2 ++ i :: digits (NINDIR fs) n m) ∧
          ∀ xs ys, i :: digits (NINDIR fs) n m = xs ++ ys → ys ≠ [] →
            k'.blkerr (k'.ptr (p.1, p.2 ++ xs)) = false := by
      intro k2 pref c hs2 hm2 hne2 hg1 hc1 hf
      obtain ⟨hg, hval, herr⟩ := ih hs2 hm2 hc hclen hne2 (fun q hq => hsz q hq) hf
      rw [happ] at hg1 ⊢
      have hg' := hg1.trans hg
      obtain ⟨d, hd, hdc⟩ := hg'.charged
      refine ⟨⟨hg'.sound, hg'.mapped, hg'.ptr, hg'.busy, hg'.blk, hg'.size, hg'.db, hg'.blkerr,
        hg'.readable, ⟨d, ?_, hdc⟩, hg'.accounted, hg'.owned⟩, hval, fun xs ys hxy hys => ?_⟩
      · exact hd.trans (Nat.mul_le_mul_right _ (by omega))
      · cases xs with
        | nil =>
          rw [append_nil]
          show k'.blkerr (k'.ptr p) = false
          rw [hg'.blkerr, hg'.keeps hp hne]
          simpa using he
        | cons x xs =>
          obtain ⟨rfl, hrest⟩ := List.cons.inj hxy
          rw [happ]
          exact herr xs ys hrest hys
    by_cases h0 : k.ptr (child p i) = 0
    · rw [if_neg (not_not.mpr h0), if_neg (by simp)] at h
      -- the next block has to be allocated
      have hrot : ∃ r, (if pref = 0 then
          if n ≠ 0 then blkpref fs lbn 0 (fun _ => 0) k else blkpref fs lbn i (k.bap (k.ptr p)) k
          else (pref, k)).2 = { k with fs_cgrotor := r } := by
        by_cases hpref : pref = 0
        · rw [if_pos hpref]
          by_cases hn : n ≠ 0
          · rw [if_pos hn]
            exact blkpref_same ..
          · rw [if_neg hn]
            exact blkpref_same ..
        · rw [if_neg hpref]
          exact ⟨k.fs_cgrotor, rfl⟩
      obtain ⟨r, hr⟩ := hrot
      rw [hr] at h
      generalize (if pref = 0 then
          if n ≠ 0 then blkpref fs lbn 0 (fun _ => 0) k else blkpref fs lbn i (k.bap (k.ptr p)) k
          else (pref, k)).1 = pref' at h
      rw [fs.bsize_eq] at h
      cases ha : alloc fs u pref' (fs.fs_frag * fs.fs_fsize) { k with fs_cgrotor := r } with
      | none => simp [ha] at h
      | some x =>
        obtain ⟨res, k1⟩ := x
        rw [ha] at h
        cases res with
        | none =>
          obtain ⟨rfl, -⟩ := Prod.mk.inj (Option.some.inj h)
          exact absurd hv (by decide)
        | some nb =>
          obtain ⟨hsw, hip⟩ := alloc_rotor hs fs.frag_pos le_rfl ha
          obtain ⟨hg, hnb⟩ := grown_child hm hc hne h0 (hsz _ rfl) hsw hip
          have hne2 : (k1.setbap (k.ptr p) i nb).ptr (child p i) ≠ 0 := by
            rw [hnb]
            exact hsw.new.ne
          have hf : bmapfetch fs u .B_WRITE lbn m n
              ((k1.setbap (k.ptr p) i nb).ptr (child p i)) ((NINDIR fs : ℤ) ^ n) pref'
              (k1.setbap (k.ptr p) i nb) = some (v, k') := by
            rw [hnb]
            exact h
          have hg1 : Grown fs k (k1.setbap (k.ptr p) i nb) sz
              (p.1, p.2 ++ i :: digits (NINDIR fs) n m) 1 := by
            rw [happ]
            exact hg.mono rfl
          exact hrest hg.sound hg.mapped hne2 hg1 le_rfl hf
    · rw [if_pos h0] at h
      exact hrest hs hm h0 (.refl hs hm) (Nat.zero_le 1) h

/-- **The indirect levels for `B_WRITE`.** -/
theorem bmapindir_write {v : ℤ} (hs : Sound fs k) (hm : Mapped fs k sz)
    (hsz : ∀ q : Ptr, NDADDR ≤ q.1 → sz q = fs.fs_frag) (hbn : NDADDR ≤ bn) (hv : 0 < v)
    (h : bmapindir fs u bn .B_WRITE k = some (v, k')) :
    bn < maxblk fs ∧ Grown fs k k' sz (ptrOf fs bn) 4 ∧ v = k'.ptr (ptrOf fs bn) ∧
      Clear k' (ptrOf fs bn) := by
  obtain ⟨hin, hout⟩ := levels_spec fs hbn
  unfold bmapindir at h
  generalize levels fs NIADDR 1 ((bn : ℤ) - NDADDR) = l at hin hout h
  unfold bmaplevel at h
  by_cases hmax : bn < maxblk fs
  · obtain ⟨r, n, hr, hr', -, rfl, hptr⟩ := hin hmax
    refine ⟨hmax, ?_⟩
    rw [hptr]
    have hidx : NIADDR - (15 - r) = r - NDADDR := by
      unfold NIADDR NDADDR
      lia
    have hcnt : NIADDR + 1 - (15 - r) = r - 11 := by
      unfold NIADDR
      lia
    have hp : (shape fs).Has (r, []) := ⟨hr', Nat.zero_le _, fun i hi => absurd hi (by simp)⟩
    have hlen : ([] : List ℕ).length + (r - 11) = (shape fs).level r := by
      show 0 + (r - 11) = r + 1 - 12
      lia
    simp only at h
    rw [if_neg (by lia), hidx, hcnt, ← ptr_indir k hr] at h
    -- from the root on, once its block is there
    have hrest : ∀ {k2 : Kern} {pref : ℕ} {c : ℕ}, Grown fs k k2 sz (r, []) c → c ≤ 1 →
        k2.ptr (r, []) ≠ 0 →
        bmapfetch fs u .B_WRITE bn n (r - 11) (k2.ptr (r, [])) ((NINDIR fs : ℤ) ^ (r - 11))
          pref k2 = some (v, k') →
        Grown fs k k' sz (r, digits (NINDIR fs) (r - 11) n) 4 ∧
          v = k'.ptr (r, digits (NINDIR fs) (r - 11) n) ∧
          Clear k' (r, digits (NINDIR fs) (r - 11) n) := by
      intro k2 pref c hg1 hc hne hf
      obtain ⟨hg, hval, herr⟩ := bmapfetch_write hg1.sound hg1.mapped hp hlen hne
        (fun q hq => hsz q (by rw [hq]; exact hr)) hv hf
      have hg' := (hg1.mono (t := (r, digits (NINDIR fs) (r - 11) n)) rfl).trans hg
      obtain ⟨d, hd, hdc⟩ := hg'.charged
      exact ⟨⟨hg'.sound, hg'.mapped, hg'.ptr, hg'.busy, hg'.blk, hg'.size, hg'.db, hg'.blkerr,
        hg'.readable, ⟨d, hd.trans (Nat.mul_le_mul_right _ (by lia)), hdc⟩, hg'.accounted,
        hg'.owned⟩, hval, fun xs ys hxy hys _ => herr xs ys hxy hys⟩
    by_cases hz : k.ptr (r, []) = 0
    · rw [if_neg (not_not.mpr hz), if_neg (by simp)] at h
      obtain ⟨rot, hrot⟩ := blkpref_same fs bn 0 (fun _ => 0) k
      rw [hrot] at h
      generalize (blkpref fs bn 0 (fun _ => 0) k).1 = pref at h
      rw [fs.bsize_eq] at h
      cases ha : alloc fs u pref (fs.fs_frag * fs.fs_fsize) { k with fs_cgrotor := rot } with
      | none => simp [ha] at h
      | some x =>
        obtain ⟨res, k1⟩ := x
        rw [ha] at h
        cases res with
        | none =>
          obtain ⟨rfl, -⟩ := Prod.mk.inj (Option.some.inj h)
          exact absurd hv (by decide)
        | some nb =>
          obtain ⟨hsw, hip⟩ := alloc_rotor hs fs.frag_pos le_rfl ha
          obtain ⟨hg, hnb⟩ := grown_root hm hr hr' hz (hsz _ hr) hsw hip
          have hf : bmapfetch fs u .B_WRITE bn n (r - 11)
              ((k1.setib (r - NDADDR) nb).ptr (r, [])) ((NINDIR fs : ℤ) ^ (r - 11)) pref
              (k1.setib (r - NDADDR) nb) = some (v, k') := by
            rw [hnb]
            exact h
          refine hrest hg le_rfl ?_ hf
          rw [hnb]
          exact hsw.new.ne
    · rw [if_pos hz] at h
      exact hrest (.refl hs hm) (Nat.zero_le 1) hz h
  · simp only at h
    rw [if_pos (hout (Nat.not_lt.mp hmax))] at h
    obtain ⟨rfl, -⟩ := Prod.mk.inj (Option.some.inj h)
    exact absurd hv (lt_irrefl 0)

end Ufs
