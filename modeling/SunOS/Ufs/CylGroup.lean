/-
# The summaries of a cylinder group

`cg_nbfree`, `cg_nffree`, `cg_frsum`, `cg_btot` and `cg_b` are sums over the blocks
of the group of a quantity of the block's window alone.  `Counted` says that each
counter is that sum.  An operation of the allocator changes one window, so each sum
changes by what this window adds; the four ways the allocator changes a window (a
whole block taken or put back, the head of a run taken, the tail of an empty block
put back) are the lemmas of this file.
-/
import SunOS.Ufs.Frags
import Mathlib.Order.Interval.Finset.Nat
import Mathlib.Tactic.Linarith

namespace Ufs

open Finset

variable {fs : Ufs.fs} {cgp : cg} {f f' : ℕ → Bool} {w w' : ℕ → Bool} {h k n p r m c : ℕ}

/-! ## What one window adds -/

/-- The block is fully free. -/
def Full (n : ℕ) (w : ℕ → Bool) : Prop := ∀ j < n, w j = true

instance (n : ℕ) (w : ℕ → Bool) : Decidable (Full n w) :=
  inferInstanceAs (Decidable (∀ j < n, w j = true))

/-- One for a fully free block. -/
def blocksIn (n : ℕ) (w : ℕ → Bool) : ℤ := if Full n w then 1 else 0

/-- The free fragments of a partly free block. -/
def fragsIn (n : ℕ) (w : ℕ → Bool) : ℤ :=
  if Full n w then 0 else ((range n).filter fun j => w j = true).card

/-- The maximal free runs of `k` fragments of a partly free block. -/
def runsIn (n k : ℕ) (w : ℕ → Bool) : ℤ := if Full n w then 0 else runs w n k

theorem full_congr (h : ∀ j < n, w j = w' j) : Full n w ↔ Full n w' := by
  exact forall₂_congr fun j hj => by rw [h j hj]

theorem runsIn_eq (hk : k < n) : runsIn n k w = runs w n k := by
  unfold runsIn
  by_cases hw : Full n w
  · rw [if_pos hw, runs_full hk hw]
    rfl
  · rw [if_neg hw]

/-! ## The sums over a group -/

/-- The number of blocks of a group. -/
def nblk (fs : Ufs.fs) : ℕ := fs.fs_fpg / fs.fs_frag

theorem nblk_mul (fs : Ufs.fs) : nblk fs * fs.fs_frag = fs.fs_fpg :=
  Nat.div_mul_cancel fs.frag_dvd_fpg

/-- The sum over the blocks of a group of a quantity of the block. -/
def sumBlocks (fs : Ufs.fs) (f : ℕ → Bool) (q : ℕ → (ℕ → Bool) → ℤ) : ℤ :=
  ∑ h ∈ range (nblk fs), q h (window fs.fs_frag f h)

/-- The number of fully free blocks. -/
def freeBlocks (fs : Ufs.fs) (f : ℕ → Bool) : ℤ :=
  sumBlocks fs f fun _ w => blocksIn fs.fs_frag w

/-- The number of free fragments in partly free blocks. -/
def freeFrags (fs : Ufs.fs) (f : ℕ → Bool) : ℤ :=
  sumBlocks fs f fun _ w => fragsIn fs.fs_frag w

/-- The number of maximal runs of exactly `k` free fragments in partly free blocks. -/
def freeRuns (fs : Ufs.fs) (f : ℕ → Bool) (k : ℕ) : ℤ :=
  sumBlocks fs f fun _ w => runsIn fs.fs_frag k w

/-- The number of free blocks on cylinder `c`. -/
def freeOnCyl (fs : Ufs.fs) (f : ℕ → Bool) (c : ℕ) : ℤ :=
  sumBlocks fs f fun h w =>
    if cbtocylno fs (h * fs.fs_frag) = c then blocksIn fs.fs_frag w else 0

/-- The number of free blocks on cylinder `c` at rotational position `r`. -/
def freeAtPos (fs : Ufs.fs) (f : ℕ → Bool) (c r : ℕ) : ℤ :=
  sumBlocks fs f fun h w =>
    if cbtocylno fs (h * fs.fs_frag) = c ∧ cbtorpos fs (h * fs.fs_frag) = r then
      blocksIn fs.fs_frag w else 0

/-- **The counters of a cylinder group are the counts of its map.**  Beyond the
group the map reads as allocated. -/
structure Counted (fs : Ufs.fs) (cgp : cg) : Prop where
  nbfree : cgp.cg_cs.cs_nbfree = freeBlocks fs (isset cgp.cg_free)
  nffree : cgp.cg_cs.cs_nffree = freeFrags fs (isset cgp.cg_free)
  frsum : ∀ k, 1 ≤ k → k < fs.fs_frag → cgp.cg_frsum k = freeRuns fs (isset cgp.cg_free) k
  btot : ∀ c, cgp.cg_btot c = freeOnCyl fs (isset cgp.cg_free) c
  bpos : ∀ c r, cgp.cg_b c r = freeAtPos fs (isset cgp.cg_free) c r
  beyond : ∀ i, fs.fs_fpg ≤ i → isset cgp.cg_free i = false

/-- `f'` differs from `f` in the window of block `h` only. -/
def SameBut (fs : Ufs.fs) (f f' : ℕ → Bool) (h : ℕ) : Prop :=
  ∀ i, i / fs.fs_frag ≠ h → f' i = f i

theorem SameBut.window_eq (hs : SameBut fs f f' h) {x j : ℕ} (hx : x ≠ h) (hj : j < fs.fs_frag) :
    window fs.fs_frag f' x j = window fs.fs_frag f x j := by
  refine hs _ ?_
  rw [(div_frag_iff fs x _).mpr ⟨by omega, by omega⟩]
  exact hx

/-- **One window changed**: the sum changes by what that window adds. -/
theorem sumBlocks_sameBut {q : ℕ → (ℕ → Bool) → ℤ} (hs : SameBut fs f f' h)
    (hh : h < nblk fs)
    (hq : ∀ x w w', (∀ j < fs.fs_frag, w j = w' j) → q x w = q x w') :
    sumBlocks fs f' q = sumBlocks fs f q - q h (window fs.fs_frag f h) +
      q h (window fs.fs_frag f' h) := by
  unfold sumBlocks
  have hmem : h ∈ range (nblk fs) := mem_range.mpr hh
  rw [← add_sum_erase _ _ hmem, ← add_sum_erase (range (nblk fs)) _ hmem]
  have hrest : ∑ x ∈ (range (nblk fs)).erase h, q x (window fs.fs_frag f' x) =
      ∑ x ∈ (range (nblk fs)).erase h, q x (window fs.fs_frag f x) := by
    apply sum_congr rfl
    intro x hx
    exact hq x _ _ fun j hj => hs.window_eq (ne_of_mem_erase hx) hj
  rw [hrest]
  ring

theorem blocksIn_congr (h : ∀ j < n, w j = w' j) : blocksIn n w = blocksIn n w' :=
  if_congr (full_congr h) rfl rfl

theorem fragsIn_congr (h : ∀ j < n, w j = w' j) : fragsIn n w = fragsIn n w' := by
  unfold fragsIn
  rw [if_congr (full_congr h) rfl rfl]
  congr 3
  apply filter_congr
  intro j hj
  rw [h j (mem_range.mp hj)]

theorem runsIn_congr (h : ∀ j < n, w j = w' j) : runsIn n k w = runsIn n k w' := by
  unfold runsIn
  rw [if_congr (full_congr h) rfl rfl, runs_congr h]

/-- What the counters of a group have to change by when window `w` of block `h`
becomes `w'`. -/
theorem Counted.change {cgp' : cg} (hc : Counted fs cgp) (hh : h < nblk fs)
    (hs : SameBut fs (isset cgp.cg_free) (isset cgp'.cg_free) h)
    (hw : window fs.fs_frag (isset cgp.cg_free) h = w)
    (hw' : window fs.fs_frag (isset cgp'.cg_free) h = w')
    (hnb : cgp'.cg_cs.cs_nbfree =
      cgp.cg_cs.cs_nbfree - blocksIn fs.fs_frag w + blocksIn fs.fs_frag w')
    (hnf : cgp'.cg_cs.cs_nffree =
      cgp.cg_cs.cs_nffree - fragsIn fs.fs_frag w + fragsIn fs.fs_frag w')
    (hfr : ∀ k, 1 ≤ k → k < fs.fs_frag → cgp'.cg_frsum k =
      cgp.cg_frsum k - runs w fs.fs_frag k + runs w' fs.fs_frag k)
    (hbt : ∀ c, cgp'.cg_btot c = cgp.cg_btot c +
      if cbtocylno fs (h * fs.fs_frag) = c then
        blocksIn fs.fs_frag w' - blocksIn fs.fs_frag w else 0)
    (hbp : ∀ c r, cgp'.cg_b c r = cgp.cg_b c r +
      if cbtocylno fs (h * fs.fs_frag) = c ∧ cbtorpos fs (h * fs.fs_frag) = r then
        blocksIn fs.fs_frag w' - blocksIn fs.fs_frag w else 0) :
    Counted fs cgp' := by
  subst hw hw'
  constructor
  · unfold freeBlocks
    rw [hnb, hc.nbfree, sumBlocks_sameBut hs hh fun _ _ _ => blocksIn_congr]
    rfl
  · unfold freeFrags
    rw [hnf, hc.nffree, sumBlocks_sameBut hs hh fun _ _ _ => fragsIn_congr]
    rfl
  · intro k hk hkf
    unfold freeRuns
    rw [hfr k hk hkf, hc.frsum k hk hkf, sumBlocks_sameBut hs hh fun _ _ _ => runsIn_congr,
      runsIn_eq hkf, runsIn_eq hkf]
    rfl
  · intro c
    unfold freeOnCyl
    rw [hbt, hc.btot, sumBlocks_sameBut hs hh fun x w w' hww => by rw [blocksIn_congr hww]]
    unfold freeOnCyl
    by_cases hcy : cbtocylno fs (h * fs.fs_frag) = c
    · simp only [if_pos hcy]
      ring
    · simp only [if_neg hcy]
      ring
  · intro c r
    unfold freeAtPos
    rw [hbp, hc.bpos, sumBlocks_sameBut hs hh fun x w w' hww => by rw [blocksIn_congr hww]]
    unfold freeAtPos
    by_cases hcy : cbtocylno fs (h * fs.fs_frag) = c ∧ cbtorpos fs (h * fs.fs_frag) = r
    · simp only [if_pos hcy]
      ring
    · simp only [if_neg hcy]
      ring
  · intro i hi
    have hne : i / fs.fs_frag ≠ h := by
      have h1 : nblk fs ≤ i / fs.fs_frag := by
        rw [Nat.le_div_iff_mul_le fs.frag_pos, nblk_mul]
        exact hi
      omega
    rw [hs i hne]
    exact hc.beyond i hi

/-! ## Ranges of one window -/

theorem window_clearBits (n : ℕ) (f : ℕ → Bool) (h p m : ℕ) :
    window n (clearBits f (h * n + p) m) h = clearBits (window n f h) p m := by
  funext j
  refine if_congr ?_ rfl rfl
  omega

theorem window_setRange (n : ℕ) (f : ℕ → Bool) (h p m : ℕ) :
    window n (setRange f (h * n + p) m) h = setRange (window n f h) p m := by
  funext j
  refine if_congr ?_ rfl rfl
  omega

theorem sameBut_clearBits (f : ℕ → Bool) (hpm : p + m ≤ fs.fs_frag) :
    SameBut fs f (clearBits f (h * fs.fs_frag + p) m) h := by
  intro i hi
  refine if_neg fun hin => hi ?_
  exact (div_frag_iff fs h i).mpr ⟨by omega, by omega⟩

theorem sameBut_setRange (f : ℕ → Bool) (hpm : p + m ≤ fs.fs_frag) :
    SameBut fs f (setRange f (h * fs.fs_frag + p) m) h := by
  intro i hi
  refine if_neg fun hin => hi ?_
  exact (div_frag_iff fs h i).mpr ⟨by omega, by omega⟩

theorem card_setRange (hpm : p + m ≤ n) (hclr : ∀ j < m, w (p + j) = false) :
    ((range n).filter fun j => setRange w p m j = true).card =
      ((range n).filter fun j => w j = true).card + m := by
  have hunion : ((range n).filter fun j => setRange w p m j = true) =
      ((range n).filter fun j => w j = true) ∪ Ico p (p + m) := by
    ext j
    rw [mem_union, mem_filter, mem_filter, mem_Ico, mem_range]
    unfold setRange
    by_cases hj : p ≤ j ∧ j < p + m
    · rw [if_pos hj]
      have : j < n := by omega
      tauto
    · rw [if_neg hj]
      tauto
  have hdis : Disjoint ((range n).filter fun j => w j = true) (Ico p (p + m)) := by
    rw [disjoint_left]
    intro j hj hin
    rw [mem_filter] at hj
    rw [mem_Ico] at hin
    have := hclr (j - p) (by omega)
    rw [show p + (j - p) = j by omega, hj.2] at this
    simp at this
  rw [hunion, card_union_of_disjoint hdis, Nat.card_Ico]
  omega

theorem card_clearBits (hpm : p + m ≤ n) (hset : ∀ j < m, w (p + j) = true) :
    ((range n).filter fun j => clearBits w p m j = true).card + m =
      ((range n).filter fun j => w j = true).card := by
  rw [← card_setRange hpm (w := clearBits w p m) fun j hj => if_pos ⟨by omega, by omega⟩]
  congr 1
  apply filter_congr
  intro j _
  unfold setRange clearBits
  by_cases hj : p ≤ j ∧ j < p + m
  · rw [if_pos hj]
    have := hset (j - p) (by omega)
    rw [show p + (j - p) = j by omega] at this
    simp [this]
  · rw [if_neg hj, if_neg hj]

/-! ## The four changes of a window -/

theorem not_full_of_clear {j : ℕ} (hj : j < n) (hw : w j = false) : ¬ Full n w := by
  intro hf
  rw [hf j hj] at hw
  simp at hw

theorem fragsIn_empty (hw : ∀ j < n, w j = false) : fragsIn n w = 0 := by
  have hcard : ((range n).filter fun j => w j = true).card = 0 := by
    rw [card_eq_zero, filter_eq_empty_iff]
    intro j hj
    rw [hw j (mem_range.mp hj)]
    simp
  unfold fragsIn
  rw [hcard]
  simp

theorem blocksIn_empty (hn : 0 < n) (hw : ∀ j < n, w j = false) : blocksIn n w = 0 :=
  if_neg (not_full_of_clear hn (hw 0 hn))

/-- A run shorter than the block lies in a partly free block. -/
theorem not_full_of_isRun (hr : IsRun w n p r) (hrn : r < n) : ¬ Full n w := by
  intro hf
  have h0 := hr.1
  have h1 := hr.2.1
  have := (hr.unique (i := p) (isRun_full (by omega) hf) ⟨le_rfl, by omega⟩
    ⟨by omega, by omega⟩).2
  omega

/-- Taking the head of a run from a partly free block takes `m` free fragments. -/
theorem fragsIn_clearHead (hr : IsRun w n p r) (hrn : r < n) (hm : 0 < m) (hmr : m ≤ r) :
    fragsIn n (clearBits w p m) = fragsIn n w - m := by
  have hpn := hr.2.1
  have hset : ∀ j < m, w (p + j) = true := fun j hj => hr.2.2.1 j (by omega)
  have hnot : ¬ Full n (clearBits w p m) :=
    not_full_of_clear (j := p) (by omega) (if_pos ⟨le_rfl, by omega⟩)
  unfold fragsIn
  rw [if_neg hnot, if_neg (not_full_of_isRun hr hrn)]
  have := card_clearBits (n := n) (by omega) hset
  omega

/-- Putting fragments back into a partly free block. -/
theorem fragsIn_setRange (hpm : p + m ≤ n) (hm : 0 < m) (hclr : ∀ j < m, w (p + j) = false) :
    fragsIn n (setRange w p m) =
      fragsIn n w + m - if Full n (setRange w p m) then (n : ℤ) else 0 := by
  have hnot : ¬ Full n w := not_full_of_clear (j := p) (by omega) (hclr 0 hm)
  have hcard := card_setRange (n := n) hpm hclr
  unfold fragsIn
  rw [if_neg hnot]
  by_cases hf : Full n (setRange w p m)
  · have hall : ((range n).filter fun j => setRange w p m j = true).card = n := by
      rw [filter_true_of_mem fun j hj => hf j (mem_range.mp hj), card_range]
    rw [if_pos hf, if_pos hf]
    omega
  · rw [if_neg hf, if_neg hf]
    omega

/-- A block that is clear but for its tail has one run. -/
theorem runs_tail (hm : 0 < m) (hmn : m < n) (hclr : ∀ j < m, w j = false)
    (hset : ∀ j < n, m ≤ j → w j = true) (hk : k < n) :
    (runs w n k : ℤ) = if k = n - m then 1 else 0 := by
  have hw : ∀ j < n, w j = clearBits (fun _ => true) 0 m j := by
    intro j hj
    unfold clearBits
    by_cases hjm : j < m
    · rw [if_pos ⟨Nat.zero_le j, by omega⟩]
      exact hclr j hjm
    · rw [if_neg (by omega)]
      exact hset j hj (by omega)
  rw [runs_congr hw, runs_clearHead (isRun_full (by omega) fun _ _ => rfl) hm (by omega),
    runs_full hk fun _ _ => rfl, if_neg (by omega)]
  by_cases hkm : k = n - m
  · rw [if_pos ⟨hkm, hmn⟩, if_pos hkm]
    rfl
  · rw [if_neg (by tauto), if_neg hkm]
    rfl

end Ufs
