/-
# The allocator keeps the summaries

`Consistent` is the state of a sound file system: every counter of every group is
the count of its map, the summary information of the super block repeats the
groups' own, and the totals are its sums.  Each operation on blocks and fragments
rewrites one group and raises the summaries by the same amounts.
-/
import SunOS.Ufs.AllocBlocks
import Mathlib.Algebra.Order.BigOperators.Group.Finset

namespace Ufs

open Finset

variable {fs : Ufs.fs} {cgp cgp' : cg} {s s' : State} {bno bpref g h k p q r m size : ℕ} {d : csum}

/-! ## Consistent states -/

instance : Zero csum := ⟨⟨0, 0, 0, 0⟩⟩

instance : AddCommMonoid csum where
  add_assoc := csum.add_assoc
  zero_add a := csum.eq_of (zero_add _) (zero_add _) (zero_add _) (zero_add _)
  add_zero a := csum.eq_of (add_zero _) (add_zero _) (add_zero _) (add_zero _)
  add_comm a b := csum.eq_of (add_comm _ _) (add_comm _ _) (add_comm _ _) (add_comm _ _)
  nsmul := nsmulRec

/-- **A consistent file system**: the counters of each group count its map, and the
summary information of the super block is theirs and its sum. -/
structure Consistent (fs : Ufs.fs) (s : State) : Prop where
  counted : ∀ g < fs.fs_ncg, Counted fs (s.cgs g)
  rotors : ∀ g < fs.fs_ncg, Rotors fs (s.cgs g)
  cgx : ∀ g < fs.fs_ncg, (s.cgs g).cg_cgx = g
  cs : ∀ g < fs.fs_ncg, s.fs_cs g = (s.cgs g).cg_cs
  total : s.fs_cstotal = ∑ g ∈ range fs.fs_ncg, s.fs_cs g

/-- `s'` is `s` after group `g` was rewritten: the counters raised by `d`, the free
map now `f`. -/
def Wrote (fs : Ufs.fs) (s s' : State) (g : ℕ) (d : csum) (f : ℕ → Bool) : Prop :=
  ∃ cgp', Rewritten fs (s.cgs g) cgp' d ∧ isset cgp'.cg_free = f ∧
    s' = bdwritecg (addcs s g d) g cgp'

/-- Rewriting one group keeps the file system consistent. -/
theorem Wrote.consistent {f : ℕ → Bool} (hw : Wrote fs s s' g d f) (hc : Consistent fs s)
    (hg : g < fs.fs_ncg) : Consistent fs s' := by
  obtain ⟨cgp', hr, -, rfl⟩ := hw
  have hcgs : ∀ x, (bdwritecg (addcs s g d) g cgp').cgs x = if x = g then cgp' else s.cgs x := by
    intro x
    by_cases hx : x = g
    · rw [if_pos hx, hx]
      exact Function.update_self ..
    · rw [if_neg hx]
      exact Function.update_of_ne hx ..
  have hcs : ∀ x, (bdwritecg (addcs s g d) g cgp').fs_cs x =
      if x = g then s.fs_cs g + d else s.fs_cs x := by
    intro x
    by_cases hx : x = g
    · rw [if_pos hx, hx]
      exact Function.update_self ..
    · rw [if_neg hx]
      exact Function.update_of_ne hx ..
  constructor
  · intro x hx
    rw [hcgs]
    by_cases hxg : x = g
    · rw [if_pos hxg]
      exact hr.counted
    · rw [if_neg hxg]
      exact hc.counted x hx
  · intro x hx
    rw [hcgs]
    by_cases hxg : x = g
    · rw [if_pos hxg]
      exact hr.rotors
    · rw [if_neg hxg]
      exact hc.rotors x hx
  · intro x hx
    rw [hcgs]
    by_cases hxg : x = g
    · rw [if_pos hxg, hr.cgx, hc.cgx g hg, hxg]
    · rw [if_neg hxg]
      exact hc.cgx x hx
  · intro x hx
    rw [hcgs, hcs]
    by_cases hxg : x = g
    · rw [if_pos hxg, if_pos hxg, hr.cs, hc.cs g hg]
    · rw [if_neg hxg, if_neg hxg]
      exact hc.cs x hx
  · show s.fs_cstotal + d = ∑ x ∈ range fs.fs_ncg, Function.update s.fs_cs g (s.fs_cs g + d) x
    have hmem : g ∈ range fs.fs_ncg := mem_range.mpr hg
    rw [sum_update_of_mem hmem, hc.total, ← add_sum_erase _ _ hmem, sdiff_singleton_eq_erase,
      add_assoc, add_assoc, add_comm d]

/-! ## `alloccg` -/

theorem breadcg_eq (h : breadcg s g = some cgp) : cgp = s.cgs g := by
  unfold breadcg at h
  split_ifs at h
  cases h
  rfl

theorem numfrags_mul (fs : Ufs.fs) (k : ℕ) : numfrags fs (k * fs.fs_fsize) = k :=
  Nat.mul_div_cancel k fs.fsize_pos

theorem mul_eq_bsize (fs : Ufs.fs) (k : ℕ) : k * fs.fs_fsize = fs.fs_bsize ↔ k = fs.fs_frag := by
  rw [fs.bsize_eq]
  exact Nat.mul_left_inj fs.fsize_pos.ne'

/-- The first available size, or the whole block when none is. -/
theorem allocsizFrom_spec (frsum : ℕ → ℤ) {frag : ℕ} (hk : k ≤ frag) :
    (allocsizFrom frsum frag k = frag ∧ ∀ j, k ≤ j → j < frag → frsum j = 0) ∨
      (k ≤ allocsizFrom frsum frag k ∧ allocsizFrom frsum frag k < frag ∧
        frsum (allocsizFrom frsum frag k) ≠ 0) := by
  unfold allocsizFrom
  cases hf : (List.range' k (frag - k)).find? (fun j => frsum j ≠ 0) with
  | none =>
    left
    refine ⟨by simp [hk], fun j hkj hj => ?_⟩
    have := List.find?_eq_none.mp hf j (List.mem_range'_1.mpr ⟨hkj, by omega⟩)
    simpa using this
  | some x =>
    right
    have hx := List.find?_some hf
    have hmem := List.mem_range'_1.mp (List.mem_of_find?_eq_some hf)
    refine ⟨hmem.1, ?_, by simpa using hx⟩
    show x < frag
    omega

theorem addfrsum_apply (cgp : cg) (i : ℕ) (x : ℤ) (j : ℕ) :
    (cgp.addfrsum i x).cg_frsum j = cgp.cg_frsum j + if j = i then x else 0 := by
  unfold cg.addfrsum
  simp only
  by_cases hj : j = i
  · rw [if_pos hj, hj, Function.update_self]
  · rw [if_neg hj, Function.update_of_ne hj, add_zero]

/-- The fragments `[q, q + k)` of a group are a piece of one block. -/
def Piece (fs : Ufs.fs) (q k : ℕ) : Prop := 0 < k ∧ q % fs.fs_frag + k ≤ fs.fs_frag

/-- What `alloccg` leaves when it finds room: the piece at `q` was free and is taken. -/
structure Took (fs : Ufs.fs) (s s' : State) (g q k : ℕ) : Prop where
  piece : Piece fs q k
  inside : q + k ≤ fs.fs_fpg
  free : ∀ j < k, isset (s.cgs g).cg_free (q + j) = true
  wrote : ∃ d, Wrote fs s s' g d (clearBits (isset (s.cgs g).cg_free) q k)

theorem piece_block (fs : Ufs.fs) (h : ℕ) (hk : 0 < k) (hkf : p + k ≤ fs.fs_frag) :
    Piece fs (h * fs.fs_frag + p) k := by
  refine ⟨hk, ?_⟩
  rw [Nat.mul_comm, Nat.mul_add_mod, Nat.mod_eq_of_lt (by omega)]
  exact hkf

theorem block_inside (hh : h < nblk fs) (hkf : p + k ≤ fs.fs_frag) :
    h * fs.fs_frag + p + k ≤ fs.fs_fpg := by
  have := Nat.mul_le_mul_right fs.fs_frag (Nat.succ_le_of_lt hh)
  rw [nblk_mul, Nat.succ_mul] at this
  omega

/-- A whole block is taken. -/
theorem took_block (hb : isblock fs (s.cgs g).cg_free h = true)
    (hh : h < nblk fs) (hr : Rewritten fs (s.cgs g) cgp' d)
    (hmap : isset cgp'.cg_free =
      clearBits (isset (s.cgs g).cg_free) (h * fs.fs_frag) fs.fs_frag) :
    Took fs s (bdwritecg (addcs s g d) g cgp') g (h * fs.fs_frag) fs.fs_frag := by
  have hpos := fs.frag_pos
  refine ⟨piece_block fs h (p := 0) hpos (by omega), block_inside hh (p := 0) (by omega),
    fun j hj => ?_, d, cgp', hr, hmap, rfl⟩
  exact (isblock_iff_window fs _ _).mp hb j hj

/-- A block is hacked up: its first `k` fragments are taken, the others stay free. -/
theorem took_hacked (hk : 0 < k) (hkf : k < fs.fs_frag) (hb : isblock fs (s.cgs g).cg_free h = true)
    (hh : h < nblk fs)
    (hmap : isset cgp.cg_free =
      clearBits (isset (s.cgs g).cg_free) (h * fs.fs_frag) fs.fs_frag)
    (hr : Rewritten fs (s.cgs g) cgp ⟨0, -1, 0, 0⟩)
    (hcgp : cgp' = ({ cgp with
      cg_free := setbits cgp.cg_free (h * fs.fs_frag + k) (fs.fs_frag - k) }.addnffree
        (fs.fs_frag - k : ℕ)).addfrsum (fs.fs_frag - k) 1)
    (hs : s' = bdwritecg (addnffree (addcs s g ⟨0, -1, 0, 0⟩) g (fs.fs_frag - k : ℕ)) g cgp') :
    Took fs s s' g (h * fs.fs_frag) k := by
  have hfull := (isblock_iff_window fs _ _).mp hb
  have hclr : ∀ j < fs.fs_frag, window fs.fs_frag (isset cgp.cg_free) h j = false := by
    intro j hj
    rw [hmap]
    exact if_pos ⟨by lia, by lia⟩
  have hcs : cgp'.cg_cs = cgp.cg_cs + ⟨0, 0, 0, (fs.fs_frag - k : ℕ)⟩ := by
    rw [hcgp]
    apply csum.eq_of
    · exact (add_zero _).symm
    · exact (add_zero _).symm
    · exact (add_zero _).symm
    · rfl
  refine ⟨piece_block fs h (p := 0) hk (by lia), block_inside hh (p := 0) (by lia),
    fun j hj => hfull j (by lia), ⟨0, -1, 0, 0⟩ + ⟨0, 0, 0, (fs.fs_frag - k : ℕ)⟩, cgp',
    ⟨?_, ?_, ?_, ?_, ?_, ?_, ?_⟩, ?_, ?_⟩
  · refine hr.counted.putTail hh hclr hk hkf ?_ hcs ?_ ?_ ?_
    · rw [hcgp]
      exact isset_setbits _ _ _
    · intro j
      rw [hcgp, addfrsum_apply]
      rfl
    · rw [hcgp]
      rfl
    · rw [hcgp]
      rfl
  · rw [hcgp]
    exact hr.rotors.of_eq rfl rfl
  · rw [hcs, hr.cs, csum.add_assoc]
  · rw [hcgp]
    exact hr.cgx
  · rw [hcgp]
    exact hr.magic
  · rw [hcgp]
    exact hr.iused
  · rw [hcgp]
    exact hr.irotor
  · rw [hcgp]
    show isset (setbits cgp.cg_free (h * fs.fs_frag + k) (fs.fs_frag - k)) = _
    rw [isset_setbits, hmap]
    funext i
    unfold setRange clearBits
    by_cases h1 : h * fs.fs_frag ≤ i ∧ i < h * fs.fs_frag + fs.fs_frag
    · have hi : isset (s.cgs g).cg_free i = true := by
        have := hfull (i - h * fs.fs_frag) (by lia)
        unfold window at this
        rwa [show h * fs.fs_frag + (i - h * fs.fs_frag) = i by lia] at this
      by_cases h2 : i < h * fs.fs_frag + k
      · rw [if_neg (by lia), if_pos h1, if_pos ⟨h1.1, h2⟩]
      · rw [if_pos ⟨by lia, by lia⟩, if_neg (by lia), hi]
    · rw [if_neg (by lia), if_neg h1, if_neg (by lia)]
  · rw [hs, addnffree_eq, addcs_addcs]

/-- The head of a free run is taken. -/
theorem took_head (hc : Consistent fs s) (hg : g < fs.fs_ncg) (hk : 0 < k) (hkr : k ≤ r)
    (hrf : r < fs.fs_frag)
    (hrun : IsRun (window fs.fs_frag (isset (s.cgs g).cg_free) (q / fs.fs_frag)) fs.fs_frag
      (q % fs.fs_frag) r)
    (hrot : Rotors fs cgp') (hcs : cgp'.cg_cs = (s.cgs g).cg_cs + ⟨0, 0, 0, -k⟩)
    (hmap : isset cgp'.cg_free = clearBits (isset (s.cgs g).cg_free) q k)
    (hfr : ∀ j, cgp'.cg_frsum j = (s.cgs g).cg_frsum j - (if j = r then 1 else 0) +
      (if j = r - k ∧ k < r then 1 else 0))
    (hsame : cgp'.cg_btot = (s.cgs g).cg_btot ∧ cgp'.cg_b = (s.cgs g).cg_b ∧
      cgp'.cg_cgx = (s.cgs g).cg_cgx ∧ cgp'.cg_magic = (s.cgs g).cg_magic ∧
      cgp'.cg_iused = (s.cgs g).cg_iused ∧ cgp'.cg_irotor = (s.cgs g).cg_irotor)
    (hs : s' = bdwritecg (addnffree s g (-k)) g cgp') : Took fs s s' g q k := by
  have hq : q = q / fs.fs_frag * fs.fs_frag + q % fs.fs_frag := by
    have := Nat.div_add_mod q fs.fs_frag
    rw [Nat.mul_comm]
    omega
  have hpr := hrun.2.1
  have hset := hrun.2.2.1
  have hh : q / fs.fs_frag < nblk fs := (hc.counted g hg).lt_nblk (hset 0 (by omega))
  obtain ⟨hbt, hbp, hx, hmg, hiu, hir⟩ := hsame
  refine ⟨⟨hk, by omega⟩, ?_, fun j hj => ?_, ⟨0, 0, 0, -k⟩, cgp',
    ⟨?_, hrot, hcs, hx, hmg, hiu, hir⟩, hmap, by rw [hs, addnffree_eq]⟩
  · rw [hq]
    exact block_inside hh (by omega)
  · have := hset j (by omega)
    unfold window at this
    rwa [← Nat.add_assoc, ← hq] at this
  · refine (hc.counted g hg).takeHead hh hrun hrf hk hkr ?_ hcs hfr hbt hbp
    rw [← hq]
    exact hmap

/-- A group has no room for a piece of `size` bytes: its block cannot be read, or its
counters show neither a whole block nor, for a fragment, a fragment large enough. -/
def NoRoom (fs : Ufs.fs) (s : State) (g size : ℕ) : Prop :=
  breadcg s g = none ∨ (s.cgs g).cg_cs.cs_nbfree = 0 ∧
    (size ≠ fs.fs_bsize →
      ∀ j, numfrags fs size ≤ j → j < fs.fs_frag → (s.cgs g).cg_frsum j = 0)

/-- **`alloccg` takes a free piece of one block, or the group has no room** and
nothing changes. -/
theorem alloccg_spec (hc : Consistent fs s) (hg : g < fs.fs_ncg) (hk : 0 < k)
    (hkf : k ≤ fs.fs_frag) (h : alloccg fs g bpref (k * fs.fs_fsize) s = some (bno, s')) :
    (NoRoom fs s g (k * fs.fs_fsize) ∧ bno = 0 ∧ s' = s) ∨
      (¬ NoRoom fs s g (k * fs.fs_fsize) ∧
        ∃ q, bno = g * fs.fs_fpg + q ∧ Took fs s s' g q k) := by
  have hcnt := hc.counted g hg
  have hrot := hc.rotors g hg
  have hcgx := hc.cgx g hg
  unfold alloccg at h
  by_cases h0 : (s.fs_cs g).cs_nbfree = 0 ∧ k * fs.fs_fsize = fs.fs_bsize
  · rw [if_pos h0] at h
    cases h
    rw [hc.cs g hg] at h0
    exact .inl ⟨.inr ⟨h0.1, fun hne => absurd h0.2 hne⟩, rfl, rfl⟩
  rw [if_neg h0] at h
  cases hb : breadcg s g with
  | none =>
    rw [hb] at h
    cases h
    exact .inl ⟨.inl hb, rfl, rfl⟩
  | some cgp =>
    rw [hb] at h
    have hcg := breadcg_eq hb
    subst hcg
    rw [hc.cs g hg] at h0
    simp only [if_neg h0] at h
    by_cases hsz : k * fs.fs_fsize = fs.fs_bsize
    · -- a whole block
      rw [if_pos hsz] at h
      have hkf := (mul_eq_bsize fs k).mp hsz
      subst hkf
      right
      refine ⟨?_, ?_⟩
      · rintro (hn | hn)
        · rw [hb] at hn
          simp at hn
        · exact h0 ⟨hn.1, hsz⟩
      · cases ha : alloccgblk fs s (s.cgs g) bpref with
        | none => simp [ha] at h
        | some x =>
          obtain ⟨b, c, t⟩ := x
          rw [ha] at h
          cases h
          obtain ⟨x, hx, hxn, rfl, rfl, hmap, hrw⟩ := alloccgblk_spec hcnt hrot ha
          rw [hcgx]
          exact ⟨_, rfl, took_block hx hxn hrw hmap⟩
    · rw [if_neg hsz, numfrags_mul] at h
      have hkf : k < fs.fs_frag := by
        have := mt (mul_eq_bsize fs k).mpr hsz
        lia
      rcases allocsizFrom_spec (s.cgs g).cg_frsum hkf.le with
        ⟨hsiz, hnone⟩ | ⟨hsiz, hlt, hfr⟩
      · -- a block is hacked up
        simp only [hsiz, if_true] at h
        by_cases hn : (s.cgs g).cg_cs.cs_nbfree = 0
        · rw [if_pos hn] at h
          cases h
          refine .inl ⟨.inr ⟨hn, fun _ j hj hjf => hnone j ?_ hjf⟩, rfl, rfl⟩
          rwa [numfrags_mul] at hj
        · rw [if_neg hn] at h
          right
          refine ⟨?_, ?_⟩
          · rintro (hx | hx)
            · rw [hb] at hx
              simp at hx
            · exact hn hx.1
          · cases ha : alloccgblk fs s (s.cgs g) bpref with
            | none => simp [ha] at h
            | some x =>
              obtain ⟨b, c, t⟩ := x
              rw [ha] at h
              obtain ⟨x, hx, hxn, rfl, rfl, hmap, hrw⟩ := alloccgblk_spec hcnt hrot ha
              have hin : x * fs.fs_frag < fs.fs_fpg := by
                have := block_inside hxn (p := 0) (k := fs.fs_frag) (by lia)
                lia
              have hd : dtogd fs (g * fs.fs_fpg + x * fs.fs_frag) = x * fs.fs_frag := by
                unfold dtogd
                rw [Nat.mul_comm, Nat.mul_add_mod, Nat.mod_eq_of_lt hin]
              simp only [hcgx, hd, Option.some.injEq, Prod.mk.injEq] at h
              obtain ⟨rfl, rfl⟩ := h
              exact ⟨_, rfl, took_hacked hk hkf hx hxn hmap hrw rfl rfl⟩
      · -- a fragment of a partly free block
        rw [if_neg (by lia)] at h
        right
        refine ⟨?_, ?_⟩
        · rintro (hx | hx)
          · rw [hb] at hx
            simp at hx
          · refine hfr (hx.2 hsz _ ?_ hlt)
            rw [numfrags_mul]
            exact hsiz
        · generalize allocsizFrom (s.cgs g).cg_frsum fs.fs_frag k = r at h hsiz hlt
          cases hm : mapsearch fs (s.cgs g) bpref r with
          | none => simp [hm] at h
          | some x =>
            obtain ⟨b, c⟩ := x
            rw [hm] at h
            obtain ⟨rfl, rfl⟩ := h
            obtain ⟨hrun, frotor, hfrot, rfl⟩ :=
              mapsearch_spec hrot (by lia) (by lia) hm
            refine ⟨b, rfl, took_head hc hg hk hsiz hlt hrun ?_ ?_ ?_ ?_ ?_ rfl⟩
            · by_cases hkr : k ≠ r
              · rw [if_pos hkr]
                exact ⟨hrot.rotor, hfrot⟩
              · rw [if_neg hkr]
                exact ⟨hrot.rotor, hfrot⟩
            · by_cases hkr : k ≠ r
              · rw [if_pos hkr]
                apply csum.eq_of <;> simp [cg.addfrsum, cg.addnffree]
              · rw [if_neg hkr]
                apply csum.eq_of <;> simp [cg.addfrsum, cg.addnffree]
            · rw [← isset_clrbits]
              by_cases hkr : k ≠ r
              · rw [if_pos hkr]
                rfl
              · rw [if_neg hkr]
                rfl
            · intro j
              by_cases hkr : k ≠ r
              · rw [if_pos hkr, addfrsum_apply, addfrsum_apply]
                show (s.cgs g).cg_frsum j + _ + _ = _
                have hlt' : k < r := by lia
                by_cases h1 : j = r <;> by_cases h2 : j = r - k <;> simp [h1, h2, hlt'] <;>
                  lia
              · rw [if_neg hkr, addfrsum_apply]
                show (s.cgs g).cg_frsum j + _ = _
                have hge : ¬ k < r := by lia
                by_cases h1 : j = r
                · simp [h1, hge]
                  lia
                · simp [h1, hge]
            · by_cases hkr : k ≠ r
              · rw [if_pos hkr]
                exact ⟨rfl, rfl, rfl, rfl, rfl, rfl⟩
              · rw [if_neg hkr]
                exact ⟨rfl, rfl, rfl, rfl, rfl, rfl⟩

/-! ## `fragextend` -/

theorem freeLength_spec (a : ℕ → BitVec 8) (n i : ℕ) :
    freeLength a n i ≤ n ∧ (∀ j < freeLength a n i, isset a (i + j) = true) ∧
      (freeLength a n i = n ∨ isset a (i + freeLength a n i) = false) := by
  induction n generalizing i with
  | zero => exact ⟨le_rfl, fun j hj => absurd hj (Nat.not_lt_zero j), .inl rfl⟩
  | succ n ih =>
    unfold freeLength
    by_cases hi : isset a i = true
    · rw [if_pos hi]
      obtain ⟨h1, h2, h3⟩ := ih (i + 1)
      refine ⟨by omega, fun j hj => ?_, ?_⟩
      · cases j with
        | zero => exact hi
        | succ j =>
          have := h2 j (by omega)
          rwa [show i + (j + 1) = i + 1 + j by omega]
      · rcases h3 with h3 | h3
        · exact .inl (by omega)
        · right
          rwa [show i + (freeLength a n (i + 1) + 1) = i + 1 + freeLength a n (i + 1) by omega]
    · rw [if_neg hi]
      refine ⟨Nat.zero_le _, fun j hj => absurd hj (Nat.not_lt_zero j), .inr ?_⟩
      simpa using hi

/-- The fragments `[q, q + k)` of group `g` are allocated: a piece of one block. -/
structure Held (fs : Ufs.fs) (s : State) (g q k : ℕ) : Prop where
  piece : Piece fs q k
  inside : q + k ≤ fs.fs_fpg
  busy : ∀ j < k, isset (s.cgs g).cg_free (q + j) = false

theorem dtog_eq (fs : Ufs.fs) (g : ℕ) (hq : q < fs.fs_fpg) : dtog fs (g * fs.fs_fpg + q) = g := by
  unfold dtog
  rw [Nat.mul_comm, Nat.mul_add_div fs.fpg_pos, Nat.div_eq_of_lt hq, add_zero]

theorem dtogd_eq (fs : Ufs.fs) (g : ℕ) (hq : q < fs.fs_fpg) :
    dtogd fs (g * fs.fs_fpg + q) = q := by
  unfold dtogd
  rw [Nat.mul_comm, Nat.mul_add_mod, Nat.mod_eq_of_lt hq]

theorem fragnum_eq (fs : Ufs.fs) (g q : ℕ) :
    fragnum fs (g * fs.fs_fpg + q) = q % fs.fs_frag := by
  unfold fragnum
  obtain ⟨c, hc⟩ := fs.frag_dvd_fpg
  rw [hc, Nat.mul_left_comm, Nat.mul_add_mod]

/-- The test for the block boundary. -/
theorem fragnum_le_iff (fs : Ufs.fs) {b n : ℕ} (hn : 0 < n) (hnf : n ≤ fs.fs_frag) :
    fragnum fs (b + n - 1) < fragnum fs b ↔ fs.fs_frag < fragnum fs b + n := by
  unfold fragnum
  have hpos := fs.frag_pos
  have hlt := Nat.mod_lt b hpos
  have hb := Nat.div_add_mod b fs.fs_frag
  have hsum : b + n - 1 = fs.fs_frag * (b / fs.fs_frag) + (b % fs.fs_frag + n - 1) := by lia
  rw [hsum, Nat.mul_add_mod]
  by_cases hle : b % fs.fs_frag + n ≤ fs.fs_frag
  · rw [Nat.mod_eq_of_lt (by lia)]
    lia
  · rw [Nat.mod_eq_sub_mod (by lia), Nat.mod_eq_of_lt (by lia)]
    lia

/-- The piece at `bprev` can be extended in place: the new end lies in the same block,
the group can be read, and the fragments to be added are free. -/
def Extendable (fs : Ufs.fs) (s : State) (bprev o n : ℕ) : Prop :=
  fragnum fs bprev + n ≤ fs.fs_frag ∧ breadcg s (dtog fs bprev) ≠ none ∧
    ∀ i, o ≤ i → i < n → isset (s.cgs (dtog fs bprev)).cg_free (dtogd fs bprev + i) = true

/-- The free fragments of one partly free block are among those of the group. -/
theorem Counted.fragsIn_le (hc : Counted fs cgp) (hh : h < nblk fs) :
    fragsIn fs.fs_frag (window fs.fs_frag (isset cgp.cg_free) h) ≤ cgp.cg_cs.cs_nffree := by
  rw [hc.nffree]
  refine single_le_sum (f := fun h => fragsIn fs.fs_frag (window fs.fs_frag (isset cgp.cg_free) h))
    (fun x _ => ?_) (mem_range.mpr hh)
  unfold fragsIn
  split_ifs
  · exact le_rfl
  · exact Int.natCast_nonneg _

/-- A piece that can be extended lies before free fragments the group counts. -/
theorem Held.nffree_le {o n : ℕ} (hc : Consistent fs s) (hg : g < fs.fs_ncg)
    (hh : Held fs s g q o) (hon : o < n) (hn : q % fs.fs_frag + n ≤ fs.fs_frag)
    (hfree : ∀ i, o ≤ i → i < n → isset (s.cgs g).cg_free (q + i) = true) :
    ((n - o : ℕ) : ℤ) ≤ (s.cgs g).cg_cs.cs_nffree := by
  have ho := hh.piece.1
  have hq : q = q / fs.fs_frag * fs.fs_frag + q % fs.fs_frag := by
    have := Nat.div_add_mod q fs.fs_frag
    rw [Nat.mul_comm]
    lia
  set h := q / fs.fs_frag with hhdef
  set p := q % fs.fs_frag with hpdef
  have hwin : ∀ j, window fs.fs_frag (isset (s.cgs g).cg_free) h (p + j) =
      isset (s.cgs g).cg_free (q + j) := by
    intro j
    unfold window
    rw [← Nat.add_assoc, ← hq]
  have hblk : h < nblk fs := by
    refine (hc.counted g hg).lt_nblk (j := p + o) ?_
    rw [hwin]
    exact hfree o le_rfl hon
  refine le_trans ?_ ((hc.counted g hg).fragsIn_le hblk)
  have hnot : ¬ Full fs.fs_frag (window fs.fs_frag (isset (s.cgs g).cg_free) h) := by
    refine not_full_of_clear (j := p) (by lia) ?_
    have := hwin 0
    rw [Nat.add_zero] at this
    rw [this]
    exact hh.busy 0 ho
  unfold fragsIn
  rw [if_neg hnot]
  have hsub : Ico (p + o) (p + n) ⊆ (range fs.fs_frag).filter fun j =>
      window fs.fs_frag (isset (s.cgs g).cg_free) h j = true := by
    intro j hj
    rw [mem_Ico] at hj
    rw [mem_filter, mem_range]
    refine ⟨by lia, ?_⟩
    have := hwin (j - p)
    rw [show p + (j - p) = j by lia] at this
    rw [this]
    exact hfree _ (by lia) (by lia)
  have := card_le_card hsub
  rw [Nat.card_Ico] at this
  lia

/-- **`fragextend` takes the fragments behind a piece**, exactly when they are free
and lie in the same block; otherwise nothing changes. -/
theorem fragextend_spec {o n : ℕ} {res : ℕ} (hc : Consistent fs s) (hg : g < fs.fs_ncg)
    (hh : Held fs s g q o) (hon : o < n) (hn : n ≤ fs.fs_frag)
    (h : fragextend fs g (g * fs.fs_fpg + q) (o * fs.fs_fsize) (n * fs.fs_fsize) s =
      some (res, s')) :
    (¬ Extendable fs s (g * fs.fs_fpg + q) o n ∧ res = 0 ∧ s' = s) ∨
      (Extendable fs s (g * fs.fs_fpg + q) o n ∧ res = g * fs.fs_fpg + q ∧
        q % fs.fs_frag + n ≤ fs.fs_frag ∧ Took fs s s' g (q + o) (n - o)) := by
  have ho := hh.piece.1
  have hqi : q < fs.fs_fpg := by
    have := hh.inside
    lia
  unfold Extendable
  rw [dtog_eq fs g hqi, dtogd_eq fs g hqi, fragnum_eq]
  unfold fragextend at h
  have hdiff : numfrags fs (n * fs.fs_fsize - o * fs.fs_fsize) = n - o := by
    rw [← Nat.sub_mul, numfrags_mul]
  rw [hdiff, numfrags_mul, numfrags_mul, dtogd_eq fs g hqi, hc.cs g hg] at h
  by_cases hnf : (s.cgs g).cg_cs.cs_nffree < ((n - o : ℕ) : ℤ)
  · -- too few free fragments in the whole group
    rw [if_pos hnf] at h
    cases h
    refine .inl ⟨?_, rfl, rfl⟩
    rintro ⟨hin, -, hfree⟩
    have := hh.nffree_le hc hg hon hin hfree
    lia
  rw [if_neg hnf] at h
  have hbound := fragnum_le_iff fs (b := g * fs.fs_fpg + q) (n := n) (by lia) hn
  rw [fragnum_eq] at hbound h
  by_cases hcross : fs.fs_frag < q % fs.fs_frag + n
  · rw [if_pos (hbound.mpr hcross)] at h
    cases h
    exact .inl ⟨fun hx => by lia, rfl, rfl⟩
  rw [if_neg (fun hx => hcross (hbound.mp hx))] at h
  have hin : q % fs.fs_frag + n ≤ fs.fs_frag := by lia
  cases hb : breadcg s g with
  | none =>
    rw [hb] at h
    cases h
    exact .inl ⟨fun hx => hx.2.1 rfl, rfl, rfl⟩
  | some cgp =>
    rw [hb] at h
    have hcg := breadcg_eq hb
    subst hcg
    simp only at h
    by_cases hany : (List.range' o (n - o)).any
        (fun i => !isset (s.cgs g).cg_free (q + i)) = true
    · rw [if_pos hany] at h
      cases h
      refine .inl ⟨fun hx => ?_, rfl, rfl⟩
      obtain ⟨i, hi, hclr⟩ := List.any_eq_true.mp hany
      rw [List.mem_range'_1] at hi
      have := hx.2.2 i hi.1 (by lia)
      simp [this] at hclr
    · rw [if_neg hany] at h
      have hfree : ∀ i, o ≤ i → i < n → isset (s.cgs g).cg_free (q + i) = true := by
        intro i hoi hin'
        by_contra hne
        refine hany (List.any_eq_true.mpr ⟨i, List.mem_range'_1.mpr ⟨hoi, by lia⟩, ?_⟩)
        simpa using hne
      right
      refine ⟨⟨hin, by simp, hfree⟩, ?_⟩
      obtain ⟨hlen, hset, hend⟩ :=
        freeLength_spec (s.cgs g).cg_free (fs.fs_frag - q % fs.fs_frag - n) (q + n)
      generalize freeLength (s.cgs g).cg_free (fs.fs_frag - q % fs.fs_frag - n) (q + n) = len
        at h hlen hset hend
      obtain ⟨rfl, rfl⟩ := h
      refine ⟨rfl, hin, ?_⟩
      have hq : q = q / fs.fs_frag * fs.fs_frag + q % fs.fs_frag := by
        have := Nat.div_add_mod q fs.fs_frag
        rw [Nat.mul_comm]
        lia
      have hdivmod : (q + o) / fs.fs_frag = q / fs.fs_frag ∧
          (q + o) % fs.fs_frag = q % fs.fs_frag + o := by
        have hd : (q + o) / fs.fs_frag = q / fs.fs_frag :=
          (div_frag_iff fs _ _).mpr ⟨by lia, by lia⟩
        refine ⟨hd, ?_⟩
        have := Nat.div_add_mod (q + o) fs.fs_frag
        rw [hd, Nat.mul_comm] at this
        lia
      -- the run behind the piece
      have hrun : IsRun (window fs.fs_frag (isset (s.cgs g).cg_free) ((q + o) / fs.fs_frag))
          fs.fs_frag ((q + o) % fs.fs_frag) (n + len - o) := by
        rw [hdivmod.1, hdivmod.2]
        have hwin : ∀ j, window fs.fs_frag (isset (s.cgs g).cg_free) (q / fs.fs_frag)
            (q % fs.fs_frag + j) = isset (s.cgs g).cg_free (q + j) := by
          intro j
          unfold window
          rw [← Nat.add_assoc, ← hq]
        refine ⟨by lia, by lia, fun j hj => ?_, .inr ?_, ?_⟩
        · rw [Nat.add_assoc, hwin]
          by_cases hjn : o + j < n
          · exact hfree _ (by lia) hjn
          · have := hset (o + j - n) (by lia)
            rwa [show q + n + (o + j - n) = q + (o + j) by lia] at this
        · have := hwin (o - 1)
          rw [show q % fs.fs_frag + (o - 1) = q % fs.fs_frag + o - 1 by lia] at this
          rw [this]
          exact hh.busy _ (by lia)
        · rcases hend with he | he
          · exact .inl (by lia)
          · right
            rw [show q % fs.fs_frag + o + (n + len - o) = q % fs.fs_frag + (n + len) by lia,
              hwin, ← Nat.add_assoc]
            exact he
      refine took_head hc hg (by lia) (r := n + len - o) (by lia) (by lia) hrun
        ?_ ?_ ?_ ?_ ?_ rfl
      · by_cases hz : n + len ≠ n
        · rw [if_pos hz]
          exact (hc.rotors g hg).of_eq rfl rfl
        · rw [if_neg hz]
          exact (hc.rotors g hg).of_eq rfl rfl
      · by_cases hz : n + len ≠ n
        · rw [if_pos hz]
          apply csum.eq_of <;> simp [cg.addfrsum, cg.addnffree]
        · rw [if_neg hz]
          apply csum.eq_of <;> simp [cg.addfrsum, cg.addnffree]
      · rw [← isset_clrbits]
        by_cases hz : n + len ≠ n
        · rw [if_pos hz]
          rfl
        · rw [if_neg hz]
          rfl
      · intro j
        by_cases hz : n + len ≠ n
        · rw [if_pos hz]
          show ((((s.cgs g).addfrsum (n + len - o) (-1)).addfrsum (n + len - n) 1).cg_frsum j) = _
          rw [addfrsum_apply, addfrsum_apply]
          have hlt : n - o < n + len - o := by lia
          rw [show n + len - o - (n - o) = n + len - n by lia]
          by_cases h1 : j = n + len - o <;> by_cases h2 : j = n + len - n <;>
            simp only [h1, h2, hlt, if_true, if_false, and_true] <;> lia
        · rw [if_neg hz]
          show (((s.cgs g).addfrsum (n + len - o) (-1)).cg_frsum j) = _
          rw [addfrsum_apply]
          have hge : ¬ n - o < n + len - o := by lia
          by_cases h1 : j = n + len - o
          · rw [if_pos h1, if_pos h1, if_neg (by tauto)]
            lia
          · rw [if_neg h1, if_neg h1, if_neg (by tauto)]
            lia
      · by_cases hz : n + len ≠ n
        · rw [if_pos hz]
          exact ⟨rfl, rfl, rfl, rfl, rfl, rfl⟩
        · rw [if_neg hz]
          exact ⟨rfl, rfl, rfl, rfl, rfl, rfl⟩

end Ufs
