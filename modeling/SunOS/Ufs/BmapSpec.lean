/-
# `bmap` is a faithful block map

The main result about the block map: which pointer a logical block belongs to, and what
is left of the others after a block was written.
-/
import SunOS.Ufs.BmapFiles

namespace Ufs

open Option (some.inj)
open List
open BlockTree

variable {fs : Ufs.fs} {u : user} {k k' k1 k2 : Kern} {p q t : Ptr} {bn b n m o nb r w : ℕ}
  {sz sz' : Ptr → ℕ} {size : ℕ} {v : ℤ}

/-! ## The size of the file after a write -/

/-- The size of the file once `size` bytes of block `bn` are written. -/
def raised (fs : Ufs.fs) (ip : inode) (bn size : ℕ) : inode :=
  { ip with i_size := max ip.i_size (bn * fs.fs_bsize + size) }

/-- The block at the end of the file is a hole, and `size` bytes of it are written that
end before the end of the file. -/
def TailHole (fs : Ufs.fs) (ip : inode) (bn size : ℕ) : Prop :=
  bn < NDADDR ∧ ip.i_db bn = 0 ∧ ip.i_size < (bn + 1) * fs.fs_bsize ∧
    bn * fs.fs_bsize + size < ip.i_size

/-- A file that ends `w` bytes into block `r`. -/
theorem nfrags_end (fs : Ufs.fs) (ip : inode) (hr : r < NDADDR) (hw : 0 < w) (hwb : w ≤ fs.fs_bsize)
    (hsize : ip.i_size = r * fs.fs_bsize + w) :
    nfrags fs ip (r, []) = numfrags fs (fragroundup fs w) ∧
      (numfrags fs (fragroundup fs w) = fs.fs_frag ∨ lblkno fs ip.i_size = r) := by
  by_cases hfull : w = fs.fs_bsize
  · have hround : numfrags fs (fragroundup fs w) = fs.fs_frag := by
      have h1 := le_fragroundup fs w
      have h2 : fragroundup fs w ≤ fs.fs_frag * fs.fs_fsize :=
        fragroundup_le fs (by rw [hfull, fs.bsize_eq])
      rw [← fs.bsize_eq] at h2
      rw [show fragroundup fs w = fs.fs_bsize by lia, numfrags_bsize]
    rw [hround]
    refine ⟨nfrags_full (.inr ?_), .inl rfl⟩
    show ip.i_size ≥ (r + 1) * fs.fs_bsize
    rw [hsize, Nat.succ_mul]
    lia
  · have hlt : ip.i_size < (r + 1) * fs.fs_bsize := by
      rw [hsize, Nat.succ_mul]
      lia
    refine ⟨?_, .inr (lblkno_eq fs (by lia) hlt)⟩
    rw [nfrags_part]
    · unfold blkoff
      rw [hsize, Nat.mul_comm, Nat.mul_add_mod, Nat.mod_eq_of_lt (by lia)]
    · show ¬ (r ≥ NDADDR ∨ ip.i_size ≥ (r + 1) * fs.fs_bsize)
      lia

theorem numfrags_round_mono (fs : Ufs.fs) {x y : ℕ} (h : x ≤ y) :
    numfrags fs (fragroundup fs x) ≤ numfrags fs (fragroundup fs y) :=
  Nat.div_le_div_right (fragroundup_mono fs h)

/-- Raising the size to the end of a write leaves the other blocks as large as they
were. -/
theorem nfrags_raised (ht : Tree fs k) (hfull : ∀ r < NDADDR, r < bn → k.ip.i_db r ≠ 0 →
      nfrags fs k.ip (r, []) = fs.fs_frag)
    (hs : size ≤ fs.fs_bsize) (hpos : 0 < size) (hq : (shape fs).Has q) (h0 : k.ptr q ≠ 0)
    (hne : q ≠ (bn, [])) :
    nfrags fs (raised fs k.ip bn size) q = nfrags fs k.ip q ∧
      (nfrags fs k.ip q = fs.fs_frag ∨ q = (lblkno fs (raised fs k.ip bn size).i_size, [])) := by
  by_cases h12 : q.1 < NDADDR
  swap
  · rw [nfrags_full (.inl (by lia)), nfrags_full (.inl (by lia))]
    exact ⟨rfl, .inl rfl⟩
  have hqr : q = (q.1, []) := by
    have hlen := hq.depth
    have hl0 : (shape fs).level q.1 = 0 := Nat.sub_eq_zero_of_le h12
    exact Prod.ext rfl (List.length_eq_zero_iff.mp (by lia))
  rw [hqr] at h0 hne ⊢
  generalize q.1 = r at h0 hne h12 ⊢
  rw [ptr_direct k h12] at h0
  have hrb : r ≠ bn := fun h => hne (by rw [h])
  have hsize : (raised fs k.ip bn size).i_size = max k.ip.i_size (bn * fs.fs_bsize + size) := rfl
  by_cases hlt : r < bn
  · have hge : (raised fs k.ip bn size).i_size ≥ (r + 1) * fs.fs_bsize := by
      have := Nat.mul_le_mul_right fs.fs_bsize (show r + 1 ≤ bn from hlt)
      rw [hsize]
      lia
    rw [nfrags_full (.inr hge), hfull r h12 hlt h0]
    exact ⟨rfl, .inl rfl⟩
  · have hle : bn * fs.fs_bsize + size ≤ k.ip.i_size := by
      have h1 := Nat.mul_le_mul_right fs.fs_bsize (show bn + 1 ≤ r by lia)
      have h2 := ht.eof r h12 h0
      lia
    have hsame : (raised fs k.ip bn size).i_size = k.ip.i_size := by
      rw [hsize]
      lia
    refine ⟨by unfold nfrags blksize; rw [hsame], ?_⟩
    rw [hsame]
    rcases ht.full_or_last h12 h0 with h1 | h1
    · exact .inl (nfrags_full (.inr h1))
    · rw [h1]
      exact .inr rfl

/-! ## Direct blocks -/

/-- What is left of a file after one of its blocks was written, by the size of the
pieces. -/
structure Resized (fs : Ufs.fs) (k k' : Kern) (bn size : ℕ) (sz' : Ptr → ℕ) : Prop where
  others : ∀ q, (shape fs).Has q → q ≠ (bn, []) → sz' q = nfrags fs k.ip q
  last : bn < NDADDR → sz' (bn, []) = fs.fs_frag ∨
    lblkno fs (raised fs k.ip bn size).i_size = bn
  exact : bn < NDADDR → ¬ TailHole fs k.ip bn size →
    sz' (bn, []) = nfrags fs (raised fs k.ip bn size) (bn, [])

theorem Rewrote.here (h : Rewrote fs k k' sz sz' t (fun q => q = t) n) :
    Rewrote fs k k' sz sz' t nothing n :=
  ⟨h.sound, h.mapped, fun q hq hqt _ => h.ptr q hq hqt hqt, h.keeps, h.contents, h.grows, h.blkerr,
    h.readable, h.charged, h.accounted, h.owned⟩

/-- **A direct block for `B_WRITE`**: it is there, or allocated, or its fragment grows. -/
theorem bmapdirect_write (ht : Tree fs k) (h12 : bn < NDADDR) (hpos : 0 < size)
    (hs : size ≤ fs.fs_bsize) (hv : 0 < v)
    (h : bmapdirect fs u bn .B_WRITE size k = some (v, k')) :
    ∃ sz', Rewrote fs k k' (nfrags fs k.ip) sz' (bn, []) nothing 1 ∧ v = k'.ptr (bn, []) ∧
      k'.ip.i_size = k.ip.i_size ∧ Resized fs k k' bn size sz' := by
  have hsize : (raised fs k.ip bn size).i_size = max k.ip.i_size (bn * fs.fs_bsize + size) := rfl
  have hround : fragroundup fs size ≤ fs.fs_frag * fs.fs_fsize :=
    fragroundup_le fs (by rw [← fs.bsize_eq]; exact hs)
  have hfrle : numfrags fs (fragroundup fs size) ≤ fs.fs_frag := by
    rw [fragroundup_eq] at hround
    exact Nat.le_of_mul_le_mul_right hround fs.fsize_pos
  have hfrpos : 0 < numfrags fs (fragroundup fs size) := by
    have := le_fragroundup fs size
    rw [fragroundup_eq] at this
    exact Nat.pos_of_ne_zero fun h0 => by rw [h0, Nat.zero_mul] at this; lia
  have hupd : ∀ x, ∀ q : Ptr, (shape fs).Has q → q ≠ (bn, []) →
      Function.update (nfrags fs k.ip) (bn, []) x q = nfrags fs k.ip q :=
    fun x q _ hne => Function.update_of_ne hne ..
  unfold bmapdirect at h
  simp only at h
  rw [if_neg (by simp)] at h
  by_cases h0 : k.ip.i_db bn = 0
  · -- a new block or fragment
    rw [if_pos (.inl h0), if_neg (not_not.mpr h0)] at h
    obtain ⟨rot, hrot⟩ := blkpref_same fs bn bn k.ip.i_db k
    rw [hrot] at h
    generalize (blkpref fs bn bn k.ip.i_db k).1 = pref at h
    have h0' : k.ptr (bn, []) = 0 := by rwa [ptr_direct k h12]
    obtain ⟨n, hn, hn0, hnf, hcase⟩ : ∃ n, (if k.ip.i_size < (bn + 1) * fs.fs_bsize then
        fragroundup fs size else fs.fs_bsize) = n * fs.fs_fsize ∧ 0 < n ∧ n ≤ fs.fs_frag ∧
        (k.ip.i_size < (bn + 1) * fs.fs_bsize ∧ n = numfrags fs (fragroundup fs size) ∨
          (bn + 1) * fs.fs_bsize ≤ k.ip.i_size ∧ n = fs.fs_frag) := by
      by_cases hlt : k.ip.i_size < (bn + 1) * fs.fs_bsize
      · rw [if_pos hlt]
        exact ⟨_, fragroundup_eq fs size, hfrpos, hfrle, .inl ⟨hlt, rfl⟩⟩
      · rw [if_neg hlt]
        exact ⟨_, fs.bsize_eq, fs.frag_pos, le_rfl, .inr ⟨by lia, rfl⟩⟩
    rw [hn] at h
    cases ha : alloc fs u pref (n * fs.fs_fsize) { k with fs_cgrotor := rot } with
    | none => simp [ha] at h
    | some x =>
      obtain ⟨res, k1⟩ := x
      rw [ha] at h
      cases res with
      | none =>
        obtain ⟨rfl, -⟩ := Prod.mk.inj (some.inj h)
        exact absurd hv (by decide)
      | some nb =>
        obtain ⟨rfl, rfl⟩ := Prod.mk.inj (some.inj h)
        obtain ⟨hsw, hip⟩ := alloc_rotor ht.sound hn0 hnf ha
        have hsw' : Swapped fs k (k1.setdb bn nb) (k.ptr (bn, [])) 0 nb n := by
          rw [h0']
          exact ⟨hsw.sound.of_eq rfl rfl, hsw.new, hsw.fresh, hsw.busy, hsw.freed, hsw.blk, hsw.bap,
            hsw.moved, hsw.zero, hsw.blkerr, hsw.readable, hsw.quota⟩
        obtain ⟨hrw, hset⟩ := rewrote_direct (t := (bn, [])) ht.mapped h12 hsw'
          (fun h => absurd h0' h) (fun _ => rfl) (Nat.zero_le _) hnf
          (by show Function.update k1.ip.i_db bn nb = _; rw [hip])
          (by show k1.ip.i_ib = _; rw [hip]) (by show k1.ip.i_dquot = _; rw [hip])
          (by show k1.ip.i_blocks = _; rw [hip, Nat.sub_zero])
        refine ⟨_, hrw.here, ?_, ?_, ⟨hupd n, fun _ => ?_, fun _ hno => ?_⟩⟩
        · rw [hset _ (direct_leaf fs h12).1, if_pos rfl]
        · show k1.ip.i_size = _
          rw [hip]
        · rw [Function.update_self]
          rcases hcase with ⟨hlt, rfl⟩ | ⟨-, rfl⟩
          · by_cases hfull : size = fs.fs_bsize
            · left
              have h1 := le_fragroundup fs size
              rw [← fs.bsize_eq] at hround
              rw [show fragroundup fs size = fs.fs_bsize by lia, numfrags_bsize]
            · right
              rw [hsize]
              refine lblkno_eq fs (by lia) ?_
              lia
          · exact .inl rfl
        · rw [Function.update_self]
          rcases hcase with ⟨hlt, rfl⟩ | ⟨hge, rfl⟩
          · refine (nfrags_end fs _ h12 hpos hs ?_).1.symm
            rw [hsize]
            have : ¬ bn * fs.fs_bsize + size < k.ip.i_size :=
              fun hlt' => hno ⟨h12, h0, hlt, hlt'⟩
            lia
          · refine (nfrags_full (.inr ?_)).symm
            rw [hsize]
            show max _ _ ≥ (bn + 1) * fs.fs_bsize
            lia
  · have hmapped := ht.eof bn h12 h0
    have hnone : ∀ hk : k' = k, v = k.ip.i_db bn →
        nfrags fs k.ip (bn, []) = nfrags fs (raised fs k.ip bn size) (bn, []) →
        (nfrags fs k.ip (bn, []) = fs.fs_frag ∨
          lblkno fs (raised fs k.ip bn size).i_size = bn) →
        ∃ sz', Rewrote fs k k' (nfrags fs k.ip) sz' (bn, []) nothing 1 ∧ v = k'.ptr (bn, []) ∧
          k'.ip.i_size = k.ip.i_size ∧ Resized fs k k' bn size sz' := by
      rintro rfl rfl h1 h2
      have hr := Rewrote.refl (t := (bn, [])) ht.sound ht.mapped
      exact ⟨nfrags fs k'.ip, ⟨hr.sound, hr.mapped, hr.ptr, hr.keeps, hr.contents, hr.grows, rfl,
        hr.readable, ⟨0, Nat.zero_le _, .refl k'⟩, id, fun _ => id⟩, by rw [ptr_direct k' h12], rfl,
        fun _ _ _ => rfl, fun _ => h2, fun _ _ => h1⟩
    by_cases hlt : k.ip.i_size < (bn + 1) * fs.fs_bsize
    · -- the fragment at the end of the file
      rw [if_pos (.inr hlt), if_pos h0] at h
      have hlast : k.ip.i_size = bn * fs.fs_bsize + blkoff fs k.ip.i_size := by
        have h1 := Nat.div_add_mod k.ip.i_size fs.fs_bsize
        have h2 : k.ip.i_size / fs.fs_bsize = bn := lblkno_eq fs hmapped.le hlt
        rw [h2, Nat.mul_comm] at h1
        exact h1.symm
      have hoff : 0 < blkoff fs k.ip.i_size := by lia
      have hoffb : blkoff fs k.ip.i_size < fs.fs_bsize := Nat.mod_lt _ (bsize_pos fs)
      have hold := (nfrags_end fs _ h12 hoff hoffb.le hlast).1
      by_cases hle : fragroundup fs size ≤ fragroundup fs (blkoff fs k.ip.i_size)
      · rw [if_pos hle] at h
        obtain ⟨rfl, rfl⟩ := Prod.mk.inj (some.inj h)
        have hw : max (blkoff fs k.ip.i_size) size ≤ fs.fs_bsize := by lia
        obtain ⟨h1, h2⟩ := nfrags_end fs (raised fs k.ip bn size) h12
          (show 0 < max (blkoff fs k.ip.i_size) size by lia) hw (by rw [hsize]; lia)
        have hsame : numfrags fs (fragroundup fs (max (blkoff fs k.ip.i_size) size)) =
            numfrags fs (fragroundup fs (blkoff fs k.ip.i_size)) := by
          rcases Nat.le_total size (blkoff fs k.ip.i_size) with hx | hx
          · rw [Nat.max_eq_left hx]
          · rw [Nat.max_eq_right hx]
            exact le_antisymm (Nat.div_le_div_right hle) (numfrags_round_mono fs hx)
        rw [hsame] at h1 h2
        refine hnone rfl rfl (by rw [hold, h1]) ?_
        rw [hold]
        exact h2
      · rw [if_neg hle] at h
        have hgt : blkoff fs k.ip.i_size < size := by
          by_contra hx
          exact hle (fragroundup_mono fs (by lia))
        cases hg : growdb fs u bn (fragroundup fs (blkoff fs k.ip.i_size)) (fragroundup fs size)
            k with
        | none => simp [hg] at h
        | some x =>
          obtain ⟨res, k1⟩ := x
          rw [hg] at h
          cases res with
          | none =>
            obtain ⟨rfl, -⟩ := Prod.mk.inj (some.inj h)
            exact absurd hv (by decide)
          | some nb =>
            obtain ⟨rfl, rfl⟩ := Prod.mk.inj (some.inj h)
            rw [fragroundup_eq fs (blkoff fs k.ip.i_size), ← hold, fragroundup_eq fs size] at hg
            have hon : nfrags fs k.ip (bn, []) < numfrags fs (fragroundup fs size) := by
              rw [fragroundup_eq fs (blkoff fs k.ip.i_size), ← hold,
                fragroundup_eq fs size] at hle
              exact Nat.lt_of_mul_lt_mul_right (not_le.mp hle)
            obtain ⟨hsw, hip⟩ :=
              growdb_some ht.sound (ht.inUse_direct h12 h0) hon hfrle hg
            rw [← ptr_direct k h12] at hsw
            have h0' : k.ptr (bn, []) ≠ 0 := by rwa [ptr_direct k h12]
            obtain ⟨hrw, hset⟩ := rewrote_direct (t := (bn, [])) ht.mapped h12 hsw
              (fun _ => rfl) (fun h => absurd h h0') hon.le hfrle (by rw [hip]) (by rw [hip])
              (by rw [hip]) (by rw [hip])
            obtain ⟨h1, h2⟩ := nfrags_end fs (raised fs k.ip bn size) h12 hpos hs
              (by rw [hsize]; lia)
            refine ⟨_, hrw.here, ?_, by rw [hip], ⟨hupd _, fun _ => ?_, fun _ _ => ?_⟩⟩
            · rw [hset _ (direct_leaf fs h12).1, if_pos rfl]
            · rw [Function.update_self]
              exact h2
            · rw [Function.update_self, h1]
    · rw [if_neg (by rintro (hx | hx); exacts [h0 hx, hlt hx])] at h
      obtain ⟨rfl, rfl⟩ := Prod.mk.inj (some.inj h)
      have hge : (raised fs k.ip bn size).i_size ≥ (bn + 1) * fs.fs_bsize := by
        rw [hsize]
        lia
      refine hnone rfl rfl ?_ (.inl (nfrags_full (.inr ?_)))
      · have hge' : k.ip.i_size ≥ (bn + 1) * fs.fs_bsize := by lia
        rw [nfrags_full (.inr hge'), nfrags_full (.inr hge)]
      · show k.ip.i_size ≥ (bn + 1) * fs.fs_bsize
        lia

/-! ## The block map -/

/-- The pointers before `t` that hold an address in `k'` can be read there, and only those
before `t` differ from `k`: then every other leaf is read as before. -/
theorem lookupFrom_same (hb : k'.blkerr = k.blkerr) (hc : Clear k' t)
    (hdiff : ∀ q, (shape fs).Has q → q.1 = p.1 → q ≠ t →
      k'.ptr q = k.ptr q ∨ (k.ptr q = 0 ∧ ∃ ys, t = (q.1, q.2 ++ ys)))
    (path : List ℕ) (hp : (shape fs).Has (p.1, p.2 ++ path))
    (hleaf : (shape fs).Leaf (p.1, p.2 ++ path)) (hlt : (shape fs).Leaf t)
    (hne : (p.1, p.2 ++ path) ≠ t) :
    k'.lookupFrom p path = k.lookupFrom p path := by
  induction path generalizing p with
  | nil =>
    rw [append_nil] at hp hleaf hne
    have hpt : k'.ptr p = k.ptr p := by
      rcases hdiff p hp rfl hne with h | ⟨-, ys, hys⟩
      · exact h
      · -- a leaf before a leaf is that leaf
        exfalso
        change p.2.length = (shape fs).level p.1 at hleaf
        unfold Shape.Leaf at hlt
        have hlen : p.2.length + ys.length = (shape fs).level p.1 := by
          rw [hys] at hlt
          simpa using hlt
        have hnil : ys = [] := List.length_eq_zero_iff.mp (by omega)
        rw [hnil, append_nil] at hys
        exact hne hys.symm
    unfold Kern.lookupFrom
    rw [hpt]
  | cons i path ih =>
    have happ : (p.1, p.2 ++ i :: path) = ((child p i).1, (child p i).2 ++ path) := by
      show _ = (p.1, (p.2 ++ [i]) ++ path)
      rw [append_assoc, singleton_append]
    have hpHas : (shape fs).Has p :=
      ⟨hp.root, by have := hp.depth; simp only [length_append, length_cons] at this; omega,
        fun j hj => hp.index j (mem_append_left _ hj)⟩
    have hpt : p ≠ t := by
      rintro rfl
      have h1 := hp.depth
      unfold Shape.Leaf at hlt
      simp only [length_append, length_cons] at h1
      omega
    have hchild : k'.lookupFrom (child p i) path = k.lookupFrom (child p i) path := by
      rw [happ] at hp hleaf hne
      exact ih hdiff hp hleaf hne
    unfold Kern.lookupFrom
    rcases hdiff p hpHas rfl hpt with h | ⟨h0, ys, hys⟩
    · rw [h, hb, hchild]
    · rw [if_pos h0]
      by_cases h1 : k'.ptr p = 0
      · rw [if_pos h1]
      · have hyne : ys ≠ [] := by
          rintro rfl
          rw [append_nil] at hys
          exact hpt hys.symm
        have hr : k'.blkerr (k'.ptr p) = false := by
          have := hc p.2 ys (by rw [hys]) hyne
          rw [hys] at this
          exact this h1
        rw [if_neg h1, hr, if_neg (by simp), hchild, lookupFrom_zero]
        exact addr_child.trans (if_pos h0)

/-- A leaf that can be reached is found. -/
theorem lookup_clear (hc : Clear k t) : k.lookup t = if k.ptr t = 0 then -1 else (k.ptr t : ℤ) := by
  have key : ∀ xs ys, t.2 = xs ++ ys →
      k.lookupFrom (t.1, xs) ys = if k.ptr t = 0 then -1 else (k.ptr t : ℤ) := by
    intro xs ys
    induction ys generalizing xs with
    | nil =>
      intro h
      rw [append_nil] at h
      unfold Kern.lookupFrom
      rw [← h]
    | cons y ys ih =>
      intro h
      have hnext := ih (xs ++ [y]) (by rw [h, append_assoc, singleton_append])
      unfold Kern.lookupFrom
      by_cases h0 : k.ptr (t.1, xs) = 0
      · have hzero : k.ptr t = 0 := by
          have h1 : k.ptr t = follow k.bap (k.ptr (t.1, xs)) (y :: ys) := by
            show follow k.bap _ t.2 = follow k.bap (follow k.bap _ xs) (y :: ys)
            rw [h, follow_append]
          rw [h1, h0, follow_zero]
        rw [if_pos h0, if_pos hzero]
      · rw [if_neg h0, hc xs (y :: ys) h (by simp) h0, if_neg (by simp)]
        exact hnext
  exact key [] t.2 rfl

/-- What a successful write of `size` bytes of block `bn` leaves of a file: `v` is the
address of the block, other blocks are where they were, except that the fragment at the
end of the file may have become a full block elsewhere. -/
structure Faithful (fs : Ufs.fs) (u : user) (k k' : Kern) (bn size : ℕ) (v : ℤ) : Prop where
  below : bn < maxblk fs
  same : ∀ n, (bmap fs u bn .B_READ n k').map Prod.fst = some v
  others : ∀ m n : ℕ, m ≠ bn → ¬ Promoted fs k bn (ptrOf fs m) →
    (bmap fs u m .B_READ n k').map Prod.fst = (bmap fs u m .B_READ n k).map Prod.fst
  contents : ∀ q, (shape fs).Has q → (shape fs).Leaf q → k.ptr q ≠ 0 →
    k'.ptr q ≠ 0 ∧ ∀ j < nfrags fs k.ip q, k'.blk (k'.ptr q + j) = k.blk (k.ptr q + j)
  once : ∀ p q, (shape fs).Has p → (shape fs).Has q → k'.ptr p ≠ 0 → k'.ptr p = k'.ptr q → p = q
  pieces : ∃ sz, Mapped fs k' sz ∧ ∀ q, (shape fs).Has q → k'.ptr q ≠ 0 →
    sz q = fs.fs_frag ∨ q = (lblkno fs (raised fs k'.ip bn size).i_size, [])
  again : ¬ TailHole fs k.ip bn size → Tree fs { k' with ip := raised fs k'.ip bn size }

theorem Rewrote.mono {mv : Ptr → Prop} (h : Rewrote fs k k' sz sz' t mv n) (hnm : n ≤ m) :
    Rewrote fs k k' sz sz' t mv m := by
  obtain ⟨c, hc, hch⟩ := h.charged
  exact ⟨h.sound, h.mapped, h.ptr, h.keeps, h.contents, h.grows, h.blkerr, h.readable,
    ⟨c, hc.trans (Nat.mul_le_mul_right _ hnm), hch⟩, h.accounted, h.owned⟩

/-- The block was reached, and read by the way it was written. -/
structure Reached (fs : Ufs.fs) (k k' : Kern) (bn size : ℕ) (v : ℤ) (sz' : Ptr → ℕ) : Prop where
  below : bn < maxblk fs
  rewrote : Rewrote fs k k' (nfrags fs k.ip) sz' (ptrOf fs bn) (Promoted fs k bn) 5
  value : v = k'.ptr (ptrOf fs bn)
  clear : Clear k' (ptrOf fs bn)
  sizes : ∀ q, (shape fs).Has q → k'.ptr q ≠ 0 →
    sz' q = fs.fs_frag ∨ q = (lblkno fs (raised fs k'.ip bn size).i_size, [])
  exact : ¬ TailHole fs k.ip bn size → ∀ q, (shape fs).Has q → k'.ptr q ≠ 0 →
    nfrags fs (raised fs k'.ip bn size) q = sz' q
  eof : ∀ r < NDADDR, k'.ip.i_db r ≠ 0 → r * fs.fs_bsize < (raised fs k'.ip bn size).i_size
  size : k'.ip.i_size = k.ip.i_size ∨ lblkno fs k.ip.i_size < bn

/-- **A successful write reaches its block.** -/
theorem bmap_write (ht : Tree fs k) (hpos : 0 < size) (hs : size ≤ fs.fs_bsize) (hv : 0 < v)
    (h : bmap fs u bn .B_WRITE size k = some (v, k')) : ∃ sz', Reached fs k k' bn size v sz' := by
  unfold bmap at h
  rw [if_neg (by lia), if_pos rfl] at h
  simp only [Int.toNat_natCast] at h
  cases hg : growlast fs u bn k with
  | none => simp [hg] at h
  | some x =>
    obtain ⟨ok, k1⟩ := x
    rw [hg] at h
    cases ok with
    | false =>
      obtain ⟨rfl, -⟩ := Prod.mk.inj (some.inj h)
      exact absurd hv (by decide)
    | true =>
      simp only at h
      obtain ⟨ht1, hfull, hrw1, hlate, hsize1⟩ := growlast_spec (t := ptrOf fs bn) ht hg
      have hold : ∀ q, (shape fs).Has q → k1.ptr q ≠ 0 → q ≠ (bn, []) →
          nfrags fs (raised fs k1.ip bn size) q = nfrags fs k1.ip q ∧
            (nfrags fs k1.ip q = fs.fs_frag ∨
              q = (lblkno fs (raised fs k1.ip bn size).i_size, [])) :=
        fun q hq h0 hne => nfrags_raised ht1 hfull hs hpos hq h0 hne
      by_cases h12 : bn < NDADDR
      · have hlt : ((bn : ℤ) < NDADDR) := by exact_mod_cast h12
        rw [if_pos hlt] at h
        have hptr : ptrOf fs bn = (bn, []) := if_pos h12
        rw [hptr] at hrw1
        obtain ⟨sz', hrw, hval, hsz, hres⟩ := bmapdirect_write ht1 h12 hpos hs hv h
        have hraise : (raised fs k'.ip bn size).i_size = (raised fs k1.ip bn size).i_size := by
          unfold raised
          rw [hsz]
        have hnf : ∀ q, nfrags fs (raised fs k'.ip bn size) q =
            nfrags fs (raised fs k1.ip bn size) q := by
          intro q
          unfold nfrags blksize
          rw [hraise]
        -- a pointer other than that of the block was there before
        have hthere : ∀ q, (shape fs).Has q → k'.ptr q ≠ 0 → q ≠ (bn, []) →
            k1.ptr q ≠ 0 := by
          intro q hq h0 hne h1
          rcases hrw.ptr q hq hne id with h2 | ⟨-, ys, hys⟩
          · rw [h2] at h0
            exact h0 h1
          · have h3 := (Prod.mk.inj hys).2
            have h4 := (List.append_eq_nil_iff.mp h3.symm).1
            exact hne (Prod.ext (Prod.mk.inj hys).1.symm h4)
        refine ⟨sz', lt_maxblk_of_direct fs h12, ?_, ?_, ?_, fun q hq h0 => ?_,
          fun hno q hq h0 => ?_, fun r hr h0 => ?_, ?_⟩
        · rw [hptr]
          exact (hrw1.trans hrw).mono (by lia)
        · rw [hptr]
          exact hval
        · rw [hptr]
          intro xs ys hxy hys
          exact absurd (List.append_eq_nil_iff.mp hxy.symm).2 hys
        · by_cases hqe : q = (bn, [])
          · rw [hqe, hraise]
            rcases hres.last h12 with h1 | h1
            · exact .inl h1
            · rw [h1]
              exact .inr rfl
          · rw [hres.others q hq hqe, hraise]
            exact (hold q hq (hthere q hq h0 hqe) hqe).2
        · rw [hnf]
          by_cases hqe : q = (bn, [])
          · rw [hqe]
            refine (hres.exact h12 fun htail => ?_).symm
            rcases hlate with hl | hl
            · -- the tail hole would be behind the end of the file
              obtain ⟨-, -, h3, h4⟩ := htail
              have h5 := lblkno_lt fs k.ip.i_size
              have h6 := Nat.mul_le_mul_right fs.fs_bsize
                (show lblkno fs k.ip.i_size + 1 ≤ bn from hl)
              rcases hsize1 with h7 | h7
              · rw [h7] at h4
                lia
              · rw [h7] at h4
                lia
            · rw [hl] at htail
              exact hno htail
          · rw [hres.others q hq hqe]
            exact (hold q hq (hthere q hq h0 hqe) hqe).1
        · show r * fs.fs_bsize < max k'.ip.i_size (bn * fs.fs_bsize + size)
          by_cases hre : r = bn
          · rw [hre]
            lia
          · have hne : ((r, []) : Ptr) ≠ (bn, []) := fun h => hre (Prod.mk.inj h).1
            have h1 := hthere (r, []) (direct_leaf fs hr).1
              (by rw [ptr_direct k' hr]; exact h0) hne
            rw [ptr_direct k1 hr] at h1
            have := ht1.eof r hr h1
            rw [hsz]
            lia
        · rcases hlate with hl | hl
          · exact .inr hl
          · rw [hl] at hsz
            exact .inl hsz
      · have hge : ¬ ((bn : ℤ) < NDADDR) := by exact_mod_cast h12
        rw [if_neg hge] at h
        obtain ⟨hmax, hgr, hval, hclear⟩ := bmapindir_write ht1.sound ht1.mapped
          (fun q hq => nfrags_full (.inl hq)) (Nat.not_lt.mp h12) hv h
        have hrw := hgr.rewrote ht1.mapped
        have hraise : (raised fs k'.ip bn size).i_size = (raised fs k1.ip bn size).i_size := by
          unfold raised
          rw [hgr.size]
        have hnf : ∀ q, nfrags fs (raised fs k'.ip bn size) q =
            nfrags fs (raised fs k1.ip bn size) q := by
          intro q
          unfold nfrags blksize
          rw [hraise]
        have hroot : NDADDR ≤ (ptrOf fs bn).1 := by
          unfold ptrOf
          rw [if_neg h12]
          split
          · exact le_rfl
          · split
            · exact Nat.le_add_right 12 1
            · exact Nat.le_add_right 12 2
        -- direct pointers are as before, all others are to whole blocks
        have hboth : ∀ q, (shape fs).Has q → k'.ptr q ≠ 0 →
            nfrags fs (raised fs k'.ip bn size) q = nfrags fs k1.ip q ∧
              (nfrags fs k1.ip q = fs.fs_frag ∨
                q = (lblkno fs (raised fs k'.ip bn size).i_size, [])) := by
          intro q hq h0
          rw [hnf, hraise]
          by_cases hq12 : q.1 < NDADDR
          · refine hold q hq ?_ ?_
            · rcases hgr.ptr q hq with h1 | ⟨-, ys, hys⟩
              · rwa [h1] at h0
              · rw [hys] at hroot
                exact absurd hq12 (by show ¬ q.1 < NDADDR; exact Nat.not_lt.mpr hroot)
            · rintro rfl
              exact h12 hq12
          · rw [nfrags_full (.inl (by lia)), nfrags_full (.inl (by lia))]
            exact ⟨rfl, .inl rfl⟩
        refine ⟨_, hmax, (hrw1.trans hrw).mono (by lia), hval, hclear,
          fun q hq h0 => (hboth q hq h0).2, fun _ q hq h0 => (hboth q hq h0).1,
          fun r hr h0 => ?_, ?_⟩
        · show r * fs.fs_bsize < max k'.ip.i_size (bn * fs.fs_bsize + size)
          have := Nat.mul_le_mul_right fs.fs_bsize (show r ≤ bn by lia)
          lia
        · rcases hlate with hl | hl
          · exact .inr hl
          · left
            rw [hgr.size, hl]

/-- **`bmap` is a faithful block map.**  Different logical blocks have different
pointers; `B_READ` returns what the pointer of the block holds; and a successful
`B_WRITE` on a well-formed file returns the address that `B_READ` then finds, and leaves
the other blocks of the file as `Faithful` says. -/
theorem bmap_faithful (fs : Ufs.fs) (u : user) :
    (∀ m n, m < maxblk fs → n < maxblk fs → ptrOf fs m = ptrOf fs n → m = n) ∧
    (∀ m size k, (bmap fs u (m : ℕ) .B_READ size k).map Prod.fst =
      some (if m < maxblk fs then k.lookup (ptrOf fs m) else 0)) ∧
    ∀ (bn size : ℕ) (k k' : Kern) (v : ℤ), Tree fs k → 0 < size → size ≤ fs.fs_bsize →
      bmap fs u bn .B_WRITE size k = some (v, k') → 0 < v → Faithful fs u k k' bn size v := by
  refine ⟨fun m n hm hn h => ptrOf_inj hm hn h, fun m size k => bmap_read fs u m size k, ?_⟩
  intro bn size k k' v ht hpos hs h hv
  obtain ⟨sz, hr⟩ := bmap_write ht hpos hs hv h
  have hrw := hr.rewrote
  have hleaf := ptrOf_leaf hr.below
  refine ⟨hr.below, fun n => ?_, fun m n hne hnp => ?_,
    fun q hq hl h0 => ⟨hrw.keeps q hq h0, hrw.contents q hq hl h0⟩,
    fun p q hp hq h0 heq => hrw.mapped.inj hp hq h0 heq, ⟨sz, hrw.mapped, hr.sizes⟩,
    fun hno => ⟨hrw.sound.of_eq rfl rfl, ?_, hr.eof⟩⟩
  · rw [bmap_read, if_pos hr.below, lookup_clear hr.clear, ← hr.value, if_neg]
    intro h0
    rw [hr.value, h0] at hv
    exact absurd hv (lt_irrefl 0)
  · rw [bmap_read, bmap_read]
    by_cases hm : m < maxblk fs
    · rw [if_pos hm, if_pos hm]
      unfold Kern.lookup
      rw [lookupFrom_same hrw.blkerr hr.clear (fun q hq hq1 hqt => ?_) (ptrOf fs m).2
        (by exact ptrOf_has hm) (by exact ptrOf_leaf hm) hleaf
        (fun heq => hne (ptrOf_inj hm hr.below heq))]
      refine hrw.ptr q hq hqt fun hp => hnp ?_
      obtain ⟨rfl, hp2⟩ := hp
      -- the last direct block is the pointer of `m` itself
      have h1 : (ptrOf fs m).1 = lblkno fs k.ip.i_size := hq1.symm
      have h2 : (ptrOf fs m).2 = [] := by
        have := ptrOf_leaf hm
        unfold Shape.Leaf at this
        have hl0 : (shape fs).level (ptrOf fs m).1 = 0 := by
          rw [h1]
          exact Nat.sub_eq_zero_of_le hp2.2.1
        rw [hl0] at this
        exact List.length_eq_zero_iff.mp this
      exact ⟨Prod.ext h1 h2, hp2⟩
    · rw [if_neg hm, if_neg hm]
  · exact hrw.mapped.congr rfl (fun q _ => rfl) fun q hq h0 => hr.exact hno q hq h0

/-- An empty file, with a quota, where fragment 1 and the last three blocks are free. -/
def roomyKern : Kern := { tinyKern (some 7) with fsys := tinyState 0xfff2 }

theorem roomyKern_tree : Tree tiny roomyKern := by
  have hnull : ∀ q, roomyKern.ptr q = 0 := by
    intro q
    show follow _ (roomyKern.ip.roots q.1) q.2 = 0
    have : roomyKern.ip.roots q.1 = 0 := ite_self 0
    rw [this, follow_zero]
  refine ⟨{ tinyKern_sound (some 7) with consistent := tinyState_consistent _, boot := ?_ },
    ⟨fun p _ h0 => absurd (hnull p) h0, fun p q x _ _ h0 => absurd (hnull p) h0⟩,
    fun r _ h0 => absurd rfl h0⟩
  show isset (tinyCg 0xfff2).cg_free 0 = false
  decide

/-- A fragment is written to the empty file, and then a block behind an indirect block: the
fragment at the end becomes a block elsewhere, and the pieces are at 4, 8 and 12. -/
theorem bmap_faithful_tiny : ∃ k1 k2,
    (bmap tiny tinyUser (0 : ℕ) .B_WRITE 512 roomyKern = some (1, k1) ∧
      Faithful tiny tinyUser roomyKern k1 0 512 1) ∧
    (bmap tiny tinyUser (12 : ℕ) .B_WRITE 2048 { k1 with ip := raised tiny k1.ip 0 512 } =
        some (12, k2) ∧
      Faithful tiny tinyUser { k1 with ip := raised tiny k1.ip 0 512 } k2 12 2048 12) ∧
    k2.ptr (0, []) = 4 ∧ k2.ptr (12, []) = 8 ∧ k2.ptr (12, [0]) = 12 := by
  have h1 : (bmap tiny tinyUser (0 : ℕ) .B_WRITE 512 roomyKern).map Prod.fst = some 1 := by
    decide +kernel
  have h2 : (bmap tiny tinyUser (0 : ℕ) .B_WRITE 512 roomyKern).bind (fun r =>
      (bmap tiny tinyUser (12 : ℕ) .B_WRITE 2048
        { r.2 with ip := raised tiny r.2.ip 0 512 }).map fun r =>
          (r.1, r.2.ptr (0, []), r.2.ptr (12, []), r.2.ptr (12, [0]))) = some (12, 4, 8, 12) := by
    decide +kernel
  obtain ⟨⟨v, k1⟩, hrun1, hv⟩ := Option.map_eq_some_iff.mp h1
  obtain rfl : v = 1 := hv
  rw [hrun1, Option.bind_some, Option.map_eq_some_iff] at h2
  obtain ⟨⟨v, k2⟩, hrun2, heq⟩ := h2
  obtain ⟨rfl, hptrs⟩ := Prod.mk.inj heq
  obtain ⟨hp0, hptrs⟩ := Prod.mk.inj hptrs
  have hwrites := (bmap_faithful tiny tinyUser).2.2
  have hf1 := hwrites 0 512 _ _ _ roomyKern_tree (by decide) (by decide) hrun1 (by decide)
  have hf2 := hwrites 12 2048 _ _ _ (hf1.again fun hhole => absurd hhole.2.2.2 (Nat.not_lt_zero _))
    (by decide) (by decide) hrun2 (by decide)
  exact ⟨k1, k2, ⟨hrun1, hf1⟩, ⟨hrun2, hf2⟩, hp0, Prod.mk.inj hptrs⟩

end Ufs
