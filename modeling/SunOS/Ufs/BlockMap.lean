/-
# The tree of blocks of a file

An inode is the root of a tree of pointer blocks: twelve direct pointers and three to
indirect blocks of one, two and three levels.  Logical block `bn` belongs to one leaf of
this tree, `ptrOf bn`, and for `B_READ` `bmap` returns what the pointers on the way to
that leaf hold.
-/
import SunOS.Ufs.Pieces
import SunOS.Lib.BlockTree

namespace Ufs

open BlockTree

variable {fs : Ufs.fs} {u : user} {k k' : Kern} {p q t : Ptr} {b n m bn i r : ℕ} {v : ℤ}

/-! ## Pointers -/

/-- The pointers of an inode: `NDADDR` direct ones, and `NIADDR` to indirect blocks. -/
def shape (fs : Ufs.fs) : Shape where
  roots := NDADDR + NIADDR
  level := fun r => r + 1 - NDADDR
  width := NINDIR fs

def inode.roots (ip : inode) (r : ℕ) : ℕ :=
  if r < NDADDR then ip.i_db r else ip.i_ib (r - NDADDR)

/-- The address that pointer `p` of the file holds. -/
def Kern.ptr (k : Kern) (p : Ptr) : ℕ := addr k.ip.roots k.bap p

/-- The first logical block behind root `r` of an inode. -/
def base (fs : Ufs.fs) : ℕ → ℕ
  | 0 => 0
  | r + 1 => base fs r + NINDIR fs ^ (shape fs).level r

/-- The first logical block behind pointer `p`. -/
def first (fs : Ufs.fs) (p : Ptr) : ℕ :=
  base fs p.1 + offset (NINDIR fs) ((shape fs).level p.1) p.2

/-- The number of blocks `bmap` can map: with `NINDIR` at its largest the triple
indirect block has more of them than a word counts, and is not used. -/
def maxblk (fs : Ufs.fs) : ℕ :=
  base fs (NDADDR + 2) + if NINDIR fs ^ 3 < 2147483648 then NINDIR fs ^ 3 else 0

/-- The pointer of logical block `bn`. -/
def ptrOf (fs : Ufs.fs) (bn : ℕ) : Ptr :=
  if bn < NDADDR then (bn, [])
  else if bn < base fs 13 then (12, digits (NINDIR fs) 1 (bn - base fs 12))
  else if bn < base fs 14 then (13, digits (NINDIR fs) 2 (bn - base fs 13))
  else (14, digits (NINDIR fs) 3 (bn - base fs 14))

theorem nindir_pow (fs : Ufs.fs) : ∃ e ≤ 11, NINDIR fs = 2 ^ e := by
  obtain ⟨e, he⟩ := fs.bsize_pow
  have hpos : 4 ≤ fs.fs_bsize := by
    have h1 := fs.fsize_pos
    have h2 := fs.frag_pos
    have h3 := Nat.le_of_dvd h1 fs.dev_dvd
    rw [fs.bsize_eq]
    exact le_trans (by lia) (Nat.mul_le_mul h2 h3)
  have hle := fs.bsize_le
  have hn := fs.nindir_eq
  have h2 : 2 ≤ e := by
    by_contra hlt
    have : 2 ^ e ≤ 2 ^ 1 := Nat.pow_le_pow_right (by lia) (by lia)
    lia
  have h13 : e ≤ 13 := by
    by_contra hlt
    have : 2 ^ 14 ≤ 2 ^ e := Nat.pow_le_pow_right (by lia) (by lia)
    lia
  refine ⟨e - 2, by lia, ?_⟩
  have : 2 ^ e = 4 * 2 ^ (e - 2) := by
    rw [show (4 : ℕ) = 2 ^ 2 by decide, ← pow_add, Nat.add_sub_cancel' h2]
  unfold NINDIR
  lia

theorem nindir_pos (fs : Ufs.fs) : 0 < NINDIR fs := by
  obtain ⟨e, -, he⟩ := nindir_pow fs
  rw [he]
  exact Nat.two_pow_pos e

theorem base_direct (hr : r ≤ NDADDR) : base fs r = r := by
  induction r with
  | zero => rfl
  | succ r ih =>
    have h0 : (shape fs).level r = 0 := Nat.sub_eq_zero_of_le hr
    rw [base, h0, pow_zero, ih (by omega)]

theorem base_single (fs : Ufs.fs) : base fs 13 = 12 + NINDIR fs := by
  rw [base, base_direct (show 12 ≤ NDADDR by decide)]
  show 12 + NINDIR fs ^ 1 = _
  rw [pow_one]

theorem base_double (fs : Ufs.fs) : base fs 14 = 12 + NINDIR fs + NINDIR fs ^ 2 := by
  rw [base, base_single]
  rfl

/-- Below the maximum, logical block `bn` lies behind its root. -/
theorem ptrOf_cases (hbn : bn < maxblk fs) :
    ∃ r < NDADDR + NIADDR, base fs r ≤ bn ∧ bn < base fs r + NINDIR fs ^ (shape fs).level r ∧
      ptrOf fs bn = (r, digits (NINDIR fs) ((shape fs).level r) (bn - base fs r)) := by
  have h12 : base fs 12 = 12 := base_direct (by decide)
  unfold ptrOf
  by_cases h0 : bn < NDADDR
  · rw [if_pos h0]
    have hb : base fs bn = bn := base_direct (Nat.le_of_lt h0)
    have hl : (shape fs).level bn = 0 := Nat.sub_eq_zero_of_le h0
    refine ⟨bn, by unfold NIADDR; omega, by omega, ?_, ?_⟩
    · rw [hb, hl, pow_zero]
      omega
    · rw [hl]
      rfl
  rw [if_neg h0]
  by_cases h1 : bn < base fs 13
  · rw [if_pos h1]
    exact ⟨12, by decide, by unfold NDADDR at h0; omega, h1, rfl⟩
  rw [if_neg h1]
  by_cases h2 : bn < base fs 14
  · rw [if_pos h2]
    exact ⟨13, by decide, by omega, h2, rfl⟩
  rw [if_neg h2]
  refine ⟨14, by decide, by omega, ?_, rfl⟩
  have : bn < base fs 14 + if NINDIR fs ^ 3 < 2147483648 then NINDIR fs ^ 3 else 0 := hbn
  show bn < base fs 14 + NINDIR fs ^ 3
  split at this <;> omega

/-- The leaf of logical block `bn` has `bn` behind it. -/
theorem first_ptrOf (hbn : bn < maxblk fs) : first fs (ptrOf fs bn) = bn := by
  obtain ⟨r, -, h1, h2, heq⟩ := ptrOf_cases hbn
  rw [heq]
  show base fs r + offset (NINDIR fs) ((shape fs).level r) _ = bn
  rw [offset_digits, Nat.mod_eq_of_lt (by omega)]
  omega

/-- **Different logical blocks have different pointers.** -/
theorem ptrOf_inj (hn : n < maxblk fs) (hm : m < maxblk fs) (h : ptrOf fs n = ptrOf fs m) :
    n = m := by
  rw [← first_ptrOf hn, ← first_ptrOf hm, h]

theorem ptrOf_has (hbn : bn < maxblk fs) : (shape fs).Has (ptrOf fs bn) := by
  obtain ⟨r, hr, -, -, heq⟩ := ptrOf_cases hbn
  rw [heq]
  exact ⟨hr, length_digits.le, digits_lt (nindir_pos fs)⟩

theorem ptrOf_leaf (hbn : bn < maxblk fs) : (shape fs).Leaf (ptrOf fs bn) := by
  obtain ⟨r, -, -, -, heq⟩ := ptrOf_cases hbn
  rw [heq]
  exact length_digits

/-! ## The search for the level -/

/-- `sh` counts the blocks of a level as long as a word can. -/
theorem int32_pow_nindir (fs : Ufs.fs) (j : ℕ) (hj : j < 3) :
    int32 ((NINDIR fs : ℤ) ^ j * NINDIR fs) =
      if NINDIR fs ^ (j + 1) < 2147483648 then (NINDIR fs : ℤ) ^ (j + 1) else 0 := by
  obtain ⟨e, he, hN⟩ := nindir_pow fs
  rw [hN]
  interval_cases j <;> interval_cases e <;> decide

theorem maxblk_eq (fs : Ufs.fs) : maxblk fs =
    base fs 14 + if NINDIR fs ^ 3 < 2147483648 then NINDIR fs ^ 3 else 0 := by
  rfl

/-- **The level search finds the root of block `bn`**, and the place of the block
behind it. -/
theorem levels_spec (fs : Ufs.fs) (h0 : NDADDR ≤ bn) :
    (bn < maxblk fs → ∃ r n, NDADDR ≤ r ∧ r < NDADDR + NIADDR ∧ n < NINDIR fs ^ (r - 11) ∧
      levels fs NIADDR 1 ((bn : ℤ) - NDADDR) = (15 - r, (NINDIR fs : ℤ) ^ (r - 11), (n : ℤ)) ∧
      ptrOf fs bn = (r, digits (NINDIR fs) (r - 11) n)) ∧
    (maxblk fs ≤ bn → (levels fs NIADDR 1 ((bn : ℤ) - NDADDR)).1 = 0) := by
  have h13 := base_single fs
  have h14 := base_double fs
  have h12 : base fs 12 = 12 := base_direct (by decide)
  have hw1 : int32 (1 * (NINDIR fs : ℤ)) = NINDIR fs := by
    have := int32_pow_nindir fs 0 (by lia)
    rw [pow_zero, zero_add, pow_one] at this
    rw [this, if_pos, pow_one]
    obtain ⟨e, he, h⟩ := nindir_pow fs
    rw [h]
    calc 2 ^ e ≤ 2 ^ 11 := Nat.pow_le_pow_right (by lia) he
      _ < 2147483648 := by decide
  have hw2 : int32 ((NINDIR fs : ℤ) * NINDIR fs) = (NINDIR fs : ℤ) ^ 2 := by
    have := int32_pow_nindir fs 1 (by lia)
    rw [pow_one] at this
    rw [this, if_pos]
    obtain ⟨e, he, h⟩ := nindir_pow fs
    rw [h, ← pow_mul]
    calc 2 ^ (e * (1 + 1)) ≤ 2 ^ 22 := Nat.pow_le_pow_right (by lia) (by lia)
      _ < 2147483648 := by decide
  have hw3 := int32_pow_nindir fs 2 (by lia)
  have hmax := maxblk_eq fs
  have hsub : ((bn : ℤ) - NDADDR) = ((bn - 12 : ℕ) : ℤ) := by
    unfold NDADDR at *
    lia
  unfold NDADDR at h0
  unfold ptrOf
  rw [hsub, if_neg (by unfold NDADDR; lia)]
  show (_ → ∃ r n, _ ∧ _ ∧ _ ∧ levels fs 3 1 _ = _ ∧ _) ∧ (_ → (levels fs 3 1 _).1 = 0)
  simp only [levels, hw1, hw2, hw3]
  by_cases h1 : bn < base fs 13
  · have hlt : ((bn - 12 : ℕ) : ℤ) < NINDIR fs := by lia
    rw [if_pos h1, if_pos hlt]
    refine ⟨fun _ => ⟨12, bn - 12, by decide, by decide, ?_, ?_, ?_⟩, fun h => absurd h ?_⟩
    · rw [pow_one]
      lia
    · rw [pow_one]
    · rw [h12]
    · rw [hmax]
      lia
  have hge : ¬ ((bn - 12 : ℕ) : ℤ) < NINDIR fs := by lia
  rw [if_neg h1, if_neg hge]
  have hsub2 : ((bn - 12 : ℕ) : ℤ) - NINDIR fs = ((bn - base fs 13 : ℕ) : ℤ) := by lia
  rw [hsub2]
  by_cases h2 : bn < base fs 14
  · have hlt : ((bn - base fs 13 : ℕ) : ℤ) < (NINDIR fs : ℤ) ^ 2 := by
      exact_mod_cast (by lia : bn - base fs 13 < NINDIR fs ^ 2)
    rw [if_pos h2, if_pos hlt]
    refine ⟨fun _ => ⟨13, bn - base fs 13, by decide, by decide, ?_, rfl, rfl⟩,
      fun h => absurd h ?_⟩
    · show _ < NINDIR fs ^ 2
      lia
    · rw [hmax]
      lia
  have hge2 : ¬ ((bn - base fs 13 : ℕ) : ℤ) < (NINDIR fs : ℤ) ^ 2 := by
    exact_mod_cast (by lia : ¬ bn - base fs 13 < NINDIR fs ^ 2)
  rw [if_neg h2, if_neg hge2]
  have hsub3 : ((bn - base fs 13 : ℕ) : ℤ) - (NINDIR fs : ℤ) ^ 2 = ((bn - base fs 14 : ℕ) : ℤ) := by
    have : bn - base fs 13 = bn - base fs 14 + NINDIR fs ^ 2 := by lia
    rw [this, Nat.cast_add, Nat.cast_pow, add_sub_cancel_right]
  rw [hsub3, hmax]
  show (_ → _) ∧ _
  by_cases hfit : NINDIR fs ^ 3 < 2147483648
  · simp only [if_pos hfit]
    by_cases h3 : bn < base fs 14 + NINDIR fs ^ 3
    · have hlt : ((bn - base fs 14 : ℕ) : ℤ) < (NINDIR fs : ℤ) ^ 3 := by
        exact_mod_cast (by lia : bn - base fs 14 < NINDIR fs ^ 3)
      rw [if_pos hlt]
      refine ⟨fun _ => ⟨14, bn - base fs 14, by decide, by decide, ?_, rfl, rfl⟩,
        fun h => absurd h (by lia)⟩
      show _ < NINDIR fs ^ 3
      lia
    · have hge : ¬ ((bn - base fs 14 : ℕ) : ℤ) < (NINDIR fs : ℤ) ^ 3 := by
        exact_mod_cast (by lia : ¬ bn - base fs 14 < NINDIR fs ^ 3)
      rw [if_neg hge]
      exact ⟨fun h => absurd h h3, fun _ => rfl⟩
  · simp only [if_neg hfit]
    rw [if_neg (by lia)]
    exact ⟨fun h => absurd h (by lia), fun _ => rfl⟩

/-! ## Reading -/

/-- What `B_READ` finds from pointer `p` on: -1 at a hole, 0 behind an indirect block
that cannot be read. -/
def Kern.lookupFrom (k : Kern) (p : Ptr) : List ℕ → ℤ
  | [] => if k.ptr p = 0 then -1 else k.ptr p
  | i :: path =>
    if k.ptr p = 0 then -1
    else if k.blkerr (k.ptr p) then 0
    else lookupFrom k (child p i) path

def Kern.lookup (k : Kern) (p : Ptr) : ℤ := k.lookupFrom (p.1, []) p.2

theorem ptr_direct (k : Kern) (hr : r < NDADDR) : k.ptr (r, []) = k.ip.i_db r := if_pos hr

theorem ptr_indir (k : Kern) (hr : NDADDR ≤ r) : k.ptr (r, []) = k.ip.i_ib (r - NDADDR) :=
  if_neg (by omega)

theorem ptr_child (h : k.ptr p ≠ 0) : k.ptr (child p i) = k.bap (k.ptr p) i :=
  addr_child_of_ne h

theorem lookupFrom_zero (h : k.ptr p = 0) (path : List ℕ) : k.lookupFrom p path = -1 := by
  cases path with
  | nil => exact if_pos h
  | cons i path => exact if_pos h

/-- The step of the indirect levels: the shift and the index in the next block. -/
theorem fetch_index (fs : Ufs.fs) (n m : ℕ) :
    (NINDIR fs : ℤ) ^ (n + 1) / NINDIR fs = (NINDIR fs : ℤ) ^ n ∧
    ((m : ℤ) / (NINDIR fs : ℤ) ^ n % NINDIR fs).toNat = m / NINDIR fs ^ n % NINDIR fs := by
  have hN := nindir_pos fs
  constructor
  · rw [pow_succ, Int.mul_ediv_cancel _ (by omega)]
  · rw [← Nat.cast_pow, ← Int.natCast_ediv, ← Int.natCast_emod, Int.toNat_natCast]

theorem bmapfetch_read (u : user) (lbn m pref : ℕ) (h : k.ptr p ≠ 0) :
    (bmapfetch fs u .B_READ lbn m n (k.ptr p) ((NINDIR fs : ℤ) ^ n) pref k).map Prod.fst =
      some (k.lookupFrom p (digits (NINDIR fs) n m)) := by
  induction n generalizing p with
  | zero =>
    show some (k.ptr p : ℤ) = some (if k.ptr p = 0 then -1 else (k.ptr p : ℤ))
    rw [if_neg h]
  | succ n ih =>
    obtain ⟨h1, h2⟩ := fetch_index fs n m
    unfold bmapfetch digits Kern.lookupFrom
    rw [if_neg h]
    by_cases he : k.blkerr (k.ptr p) = true
    · rw [if_pos he, if_pos he]
      rfl
    · rw [if_neg he, if_neg he]
      simp only [h1, h2]
      rw [← ptr_child h]
      by_cases h0 : k.ptr (child p (m / NINDIR fs ^ n % NINDIR fs)) = 0
      · rw [if_neg (not_not.mpr h0), if_pos trivial, lookupFrom_zero h0]
        rfl
      · rw [if_pos h0]
        exact ih h0

theorem lt_maxblk_of_direct (fs : Ufs.fs) (h : bn < NDADDR) : bn < maxblk fs := by
  have h14 := base_double fs
  have hle : base fs 14 ≤ maxblk fs := by
    rw [maxblk_eq]
    exact Nat.le_add_right _ _
  unfold NDADDR at h
  omega

theorem bmapindir_read (fs : Ufs.fs) (u : user) (k : Kern) (h0 : NDADDR ≤ bn) :
    (bmapindir fs u bn .B_READ k).map Prod.fst =
      some (if bn < maxblk fs then k.lookup (ptrOf fs bn) else 0) := by
  obtain ⟨hin, hout⟩ := levels_spec fs h0
  unfold bmapindir
  generalize levels fs NIADDR 1 ((bn : ℤ) - NDADDR) = l at hin hout
  unfold bmaplevel
  by_cases hmax : bn < maxblk fs
  · obtain ⟨r, n, hr, hr', hn, rfl, hptr⟩ := hin hmax
    rw [if_pos hmax, hptr]
    simp only
    unfold NDADDR at hr
    unfold NDADDR NIADDR at hr'
    have hidx : NIADDR - (15 - r) = r - NDADDR := by
      unfold NIADDR NDADDR
      lia
    have hcnt : NIADDR + 1 - (15 - r) = r - 11 := by
      unfold NIADDR
      lia
    rw [if_neg (by lia), hidx, hcnt, ← ptr_indir k (by unfold NDADDR; lia)]
    unfold Kern.lookup
    by_cases hz : k.ptr (r, []) = 0
    · rw [if_neg (not_not.mpr hz), if_pos trivial, lookupFrom_zero hz]
      rfl
    · rw [if_pos hz]
      exact bmapfetch_read u bn n 0 hz
  · rw [if_neg hmax]
    simp only
    rw [if_pos (hout (Nat.not_lt.mp hmax))]
    rfl

/-- **For `B_READ` `bmap` returns what the pointer of the block holds**; behind the
maximum there is no such pointer. -/
theorem bmap_read (fs : Ufs.fs) (u : user) (bn size : ℕ) (k : Kern) :
    (bmap fs u bn .B_READ size k).map Prod.fst =
      some (if bn < maxblk fs then k.lookup (ptrOf fs bn) else 0) := by
  unfold bmap
  rw [if_neg (by omega), if_neg (by simp)]
  simp only [Int.toNat_natCast]
  by_cases h0 : bn < NDADDR
  · have hlt : ((bn : ℤ) < NDADDR) := by exact_mod_cast h0
    have hp : ptrOf fs bn = (bn, []) := if_pos h0
    rw [if_pos hlt, if_pos (lt_maxblk_of_direct fs h0), hp]
    unfold bmapdirect Kern.lookup Kern.lookupFrom
    rw [if_pos rfl, ptr_direct k h0]
    by_cases hz : k.ip.i_db bn = 0
    · rw [if_pos hz, if_pos hz]
      rfl
    · rw [if_neg hz, if_neg hz]
      rfl
  · have hge : ¬ ((bn : ℤ) < NDADDR) := by exact_mod_cast h0
    rw [if_neg hge]
    exact bmapindir_read fs u k (Nat.not_lt.mp h0)

end Ufs
