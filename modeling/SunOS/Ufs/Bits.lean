/-
# The operations on the free map, bit by bit

`isset map` is the set of free fragments.  Every operation on the bytes of the map
is one on that set: `clrbit`, `clrbits` and `clrblock` clear a range of it,
`setbit`, `setbits` and `setblock` set one, and `isblock`, `blkmap` look at the
window of one block.
-/
import SunOS.Ufs.Alloc
import SunOS.Lib.BitRuns
import Mathlib.Tactic.IntervalCases
import Mathlib.Tactic.FinCases

namespace Ufs

open Function (update_of_ne update_self)

variable {fs : Ufs.fs} {a : ℕ → BitVec 8} {h i k n bno : ℕ}

theorem fs.frag_pos (fs : Ufs.fs) : 0 < fs.fs_frag := by
  rcases fs.frag_mem with h | h | h | h <;> omega

theorem fs.frag_le (fs : Ufs.fs) : fs.fs_frag ≤ 8 := by
  rcases fs.frag_mem with h | h | h | h <;> omega

/-- The window of block `h` in a map of fragments. -/
def window (frag : ℕ) (f : ℕ → Bool) (h : ℕ) : ℕ → Bool := fun j => f (h * frag + j)

/-! ## Single bits -/

theorem getLsbD_one_shiftLeft {i j : ℕ} (hj : j < 8) :
    (1#8 <<< i).getLsbD j = decide (j = i) := by
  rw [BitVec.getLsbD_shiftLeft, BitVec.getLsbD_one]
  by_cases hji : j = i
  · subst hji
    simp [hj]
  · by_cases hlt : j < i
    · simp [hji, hlt]
    · have : j - i ≠ 0 := by omega
      simp [hji, this]

theorem isset_setbit (a : ℕ → BitVec 8) (i k : ℕ) :
    isset (setbit a i) k = (decide (k = i) || isset a k) := by
  unfold isset setbit NBBY
  by_cases hb : k / 8 = i / 8
  · rw [hb, update_self, BitVec.getLsbD_or, getLsbD_one_shiftLeft (by omega),
      Bool.or_comm]
    congr 2
    rw [eq_iff_iff]
    omega
  · rw [update_of_ne hb]
    have : k ≠ i := by
      rintro rfl
      exact hb rfl
    simp [this]

theorem isset_clrbit (a : ℕ → BitVec 8) (i k : ℕ) :
    isset (clrbit a i) k = (!decide (k = i) && isset a k) := by
  unfold isset clrbit NBBY
  have h8 : k % 8 < 8 := by omega
  by_cases hb : k / 8 = i / 8
  · rw [hb, update_self, BitVec.getLsbD_and, BitVec.getLsbD_not,
      getLsbD_one_shiftLeft h8, Bool.and_comm]
    have : (k % 8 = i % 8) ↔ k = i := by omega
    simp [h8, this]
  · rw [update_of_ne hb]
    have : k ≠ i := by
      rintro rfl
      exact hb rfl
    simp [this]

/-- The map `f` with the bits of `[p, p + m)` set. -/
def setRange (f : ℕ → Bool) (p m : ℕ) : ℕ → Bool :=
  fun i => if p ≤ i ∧ i < p + m then true else f i

theorem lt_add_succ_iff (p m i : ℕ) :
    (p ≤ i ∧ i < p + (m + 1)) ↔ (i = p + m ∨ (p ≤ i ∧ i < p + m)) := by
  omega

theorem isset_setbits (a : ℕ → BitVec 8) (bno n : ℕ) :
    isset (setbits a bno n) = setRange (isset a) bno n := by
  funext k
  unfold setRange
  induction n with
  | zero =>
    have hno : ¬ (bno ≤ k ∧ k < bno + 0) := by omega
    rw [if_neg hno]
    rfl
  | succ n ih =>
    unfold setbits
    rw [isset_setbit, ih, if_congr (lt_add_succ_iff bno n k) rfl rfl]
    by_cases hk : k = bno + n
    · simp [hk]
    · by_cases hr : bno ≤ k ∧ k < bno + n
      · simp [hk, hr]
      · simp [hk, hr]

theorem isset_clrbits (a : ℕ → BitVec 8) (bno n : ℕ) :
    isset (clrbits a bno n) = clearBits (isset a) bno n := by
  funext k
  unfold clearBits
  induction n with
  | zero =>
    have hno : ¬ (bno ≤ k ∧ k < bno + 0) := by omega
    rw [if_neg hno]
    rfl
  | succ n ih =>
    unfold clrbits
    rw [isset_clrbit, ih, if_congr (lt_add_succ_iff bno n k) rfl rfl]
    by_cases hk : k = bno + n
    · simp [hk]
    · by_cases hr : bno ≤ k ∧ k < bno + n
      · simp [hk, hr]
      · simp [hk, hr]

/-- `freefrags` sets the bits of a piece that was allocated. -/
theorem freefrags_eq {b : ℕ → BitVec 8} (h : freefrags a bno n = some b) :
    (∀ j < n, isset a (bno + j) = false) ∧ isset b = setRange (isset a) bno n := by
  induction n generalizing b with
  | zero =>
    cases h
    refine ⟨by omega, ?_⟩
    exact isset_setbits a bno 0
  | succ n ih =>
    unfold freefrags at h
    cases hn : freefrags a bno n with
    | none =>
      rw [hn] at h
      simp at h
    | some c =>
      obtain ⟨hclr, hc⟩ := ih hn
      rw [hn] at h
      by_cases hs : isset c (bno + n)
      · simp [hs] at h
      · simp only [hs] at h
        cases h
        have hsn : isset a (bno + n) = false := by
          rw [hc, setRange, if_neg (by omega)] at hs
          simpa using hs
        refine ⟨fun j hj => ?_, ?_⟩
        · by_cases hjn : j = n
          · rw [hjn]
            exact hsn
          · exact hclr j (by omega)
        · funext k
          rw [isset_setbit, hc]
          unfold setRange
          rw [if_congr (lt_add_succ_iff bno n k) rfl rfl]
          by_cases hk : k = bno + n
          · simp [hk]
          · by_cases hr : bno ≤ k ∧ k < bno + n
            · simp [hk, hr]
            · simp [hk, hr]

/-! ## Blocks -/

/-- The byte and the mask of block `h` select the fragments of block `h`. -/
theorem blkmask_iff (fs : Ufs.fs) (h k : ℕ) :
    (k / 8 = (blkmask fs h).1 ∧ (blkmask fs h).2.getLsbD (k % 8) = true) ↔
      k / fs.fs_frag = h := by
  have h8 : k % 8 < 8 := by lia
  unfold blkmask
  rcases fs.frag_mem with hf | hf | hf | hf
  · simp only [hf, Nat.shiftRight_eq_div_pow,
      show h &&& 7 = h % 8 from Nat.and_two_pow_sub_one_eq_mod h 3]
    have hbit : ((0x01#8 : BitVec 8) <<< (h % 8)).getLsbD (k % 8) = decide (k % 8 = h % 8) :=
      getLsbD_one_shiftLeft h8
    rw [hbit, decide_eq_true_eq]
    lia
  · simp only [hf, Nat.shiftRight_eq_div_pow,
      show h &&& 3 = h % 4 from Nat.and_two_pow_sub_one_eq_mod h 2]
    have hbit : ((0x03#8 : BitVec 8) <<< ((h % 4) <<< 1)).getLsbD (k % 8) =
        decide (k % 8 / 2 = h % 4) := by
      have h4 : h % 4 < 4 := by lia
      generalize h % 4 = x at h4
      generalize k % 8 = y at h8
      interval_cases x <;> interval_cases y <;> rfl
    rw [hbit, decide_eq_true_eq]
    lia
  · simp only [hf, Nat.shiftRight_eq_div_pow,
      show h &&& 1 = h % 2 from Nat.and_two_pow_sub_one_eq_mod h 1]
    have hbit : ((0x0f#8 : BitVec 8) <<< ((h % 2) <<< 2)).getLsbD (k % 8) =
        decide (k % 8 / 4 = h % 2) := by
      have h2 : h % 2 < 2 := by lia
      generalize h % 2 = x at h2
      generalize k % 8 = y at h8
      interval_cases x <;> interval_cases y <;> rfl
    rw [hbit, decide_eq_true_eq]
    lia
  · simp only [hf]
    have hbit : (0xff#8 : BitVec 8).getLsbD (k % 8) = true := by
      generalize k % 8 = y at h8
      interval_cases y <;> rfl
    simp only [hbit, and_true]

theorem isblock_iff (fs : Ufs.fs) (a : ℕ → BitVec 8) (h : ℕ) :
    isblock fs a h = true ↔ ∀ k, k / fs.fs_frag = h → isset a k = true := by
  unfold isblock isset NBBY
  simp only [beq_iff_eq]
  constructor
  · intro heq k hk
    obtain ⟨hi, hm⟩ := (blkmask_iff fs h k).mpr hk
    rw [hi]
    have := congrArg (fun v => v.getLsbD (k % 8)) heq
    simp only [BitVec.getLsbD_and, hm, Bool.and_true] at this
    exact this
  · intro hall
    apply BitVec.eq_of_getLsbD_eq
    intro j hj
    rw [BitVec.getLsbD_and]
    cases hm : (blkmask fs h).2.getLsbD j with
    | false => simp
    | true =>
      have hk : ((blkmask fs h).1 * 8 + j) / 8 = (blkmask fs h).1 := by omega
      have hk' : ((blkmask fs h).1 * 8 + j) % 8 = j := by omega
      have := hall ((blkmask fs h).1 * 8 + j)
        ((blkmask_iff fs h _).mp ⟨hk, by rw [hk']; exact hm⟩)
      rw [hk, hk'] at this
      simp [this]

/-- The fragments of block `h` are `h * fs_frag + j` with `j < fs_frag`. -/
theorem div_frag_iff (fs : Ufs.fs) (h k : ℕ) :
    k / fs.fs_frag = h ↔ h * fs.fs_frag ≤ k ∧ k < h * fs.fs_frag + fs.fs_frag := by
  have hpos := fs.frag_pos
  constructor
  · rintro rfl
    have := Nat.div_add_mod k fs.fs_frag
    have := Nat.mod_lt k hpos
    rw [Nat.mul_comm]
    omega
  · rintro ⟨h1, h2⟩
    rw [Nat.div_eq_iff hpos]
    omega

/-- `isblock` looks at the window of its block. -/
theorem isblock_iff_window (fs : Ufs.fs) (a : ℕ → BitVec 8) (h : ℕ) :
    isblock fs a h = true ↔ ∀ j < fs.fs_frag, window fs.fs_frag (isset a) h j = true := by
  rw [isblock_iff]
  constructor
  · intro hall j hj
    exact hall _ ((div_frag_iff fs h _).mpr ⟨by omega, by omega⟩)
  · intro hall k hk
    obtain ⟨h1, h2⟩ := (div_frag_iff fs h k).mp hk
    have := hall (k - h * fs.fs_frag) (by omega)
    unfold window at this
    rwa [show h * fs.fs_frag + (k - h * fs.fs_frag) = k by omega] at this

theorem isset_clrblock (fs : Ufs.fs) (a : ℕ → BitVec 8) (h : ℕ) :
    isset (clrblock fs a h) = clearBits (isset a) (h * fs.fs_frag) fs.fs_frag := by
  funext k
  unfold clearBits
  rw [if_congr (div_frag_iff fs h k).symm rfl rfl,
    if_congr (blkmask_iff fs h k).symm rfl rfl]
  unfold isset clrblock NBBY
  simp only
  have h8 : k % 8 < 8 := by omega
  by_cases hb : k / 8 = (blkmask fs h).1
  · rw [hb, update_self, BitVec.getLsbD_and, BitVec.getLsbD_not]
    cases hm : (blkmask fs h).2.getLsbD (k % 8) <;> simp [h8]
  · rw [update_of_ne hb, if_neg (by tauto)]

theorem isset_setblock (fs : Ufs.fs) (a : ℕ → BitVec 8) (h : ℕ) :
    isset (setblock fs a h) = setRange (isset a) (h * fs.fs_frag) fs.fs_frag := by
  funext k
  unfold setRange
  rw [if_congr (div_frag_iff fs h k).symm rfl rfl,
    if_congr (blkmask_iff fs h k).symm rfl rfl]
  unfold isset setblock NBBY
  simp only
  by_cases hb : k / 8 = (blkmask fs h).1
  · rw [hb, update_self, BitVec.getLsbD_or]
    cases hm : (blkmask fs h).2.getLsbD (k % 8) <;> simp
  · rw [update_of_ne hb, if_neg (by tauto)]

/-! ## `blkmap` -/

/-- Bit `j` of the map of a block is its fragment `j`. -/
theorem testBit_blkmap (fs : Ufs.fs) (a : ℕ → BitVec 8) (h j : ℕ) :
    (blkmap fs a (h * fs.fs_frag)).testBit j =
      (decide (j < fs.fs_frag) && window fs.fs_frag (isset a) h j) := by
  unfold blkmap window isset NBBY
  rw [Nat.testBit_and, Nat.testBit_shiftRight]
  have hmask : (255 >>> (8 - fs.fs_frag)).testBit j = decide (j < fs.fs_frag) := by
    have : 255 >>> (8 - fs.fs_frag) = 2 ^ fs.fs_frag - 1 := by
      rcases fs.frag_mem with hf | hf | hf | hf <;> rw [hf] <;> rfl
    rw [this, Nat.testBit_two_pow_sub_one]
  rw [hmask, Bool.and_comm]
  by_cases hj : j < fs.fs_frag
  · have hdiv : (h * fs.fs_frag + j) / 8 = h * fs.fs_frag / 8 ∧
        (h * fs.fs_frag + j) % 8 = h * fs.fs_frag % 8 + j := by
      rcases fs.frag_mem with hf | hf | hf | hf <;> rw [hf] at hj ⊢ <;> lia
    rw [hdiv.1, hdiv.2]
    simp [hj, BitVec.getLsbD]
  · simp [hj]

theorem blkmap_lt (fs : Ufs.fs) (a : ℕ → BitVec 8) (loc : ℕ) :
    blkmap fs a loc < 2 ^ fs.fs_frag := by
  unfold blkmap NBBY
  have : 255 >>> (8 - fs.fs_frag) = 2 ^ fs.fs_frag - 1 := by
    rcases fs.frag_mem with hf | hf | hf | hf <;> rw [hf] <;> rfl
  rw [this]
  have := @Nat.and_le_right ((a (loc / 8)).toNat >>> (loc % 8)) (2 ^ fs.fs_frag - 1)
  have := Nat.two_pow_pos fs.fs_frag
  omega

end Ufs
