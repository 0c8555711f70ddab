/-
# When a request is met

What is returned is big enough and starts with the old contents, if no sum wraps.  When nothing
is returned the heap is as it was, but for a block of free space: `realloc` has taken it out by
then.
-/
import SunOS.Libc.MallocRoom

namespace Malloc

open Set
open Option
open FastFits Segments
open CartesianTree hiding insert

variable {h h' : heap} {busy : Set Block} {a : Place} {o s w n nbpg p : ℤ}

/-! ## The sizes -/

/-- The bytes of a block for `n`: those, its length word, whole words and enough of them for the
block to be freed. -/
def needed (n : ℤ) : ℤ := max SMALLEST_BLK ((n + WORDSIZE + 3) / 4 * 4)

/-- `m` bytes in whole pages. -/
def pages (nbpg m : ℤ) : ℤ := (m + (nbpg - 1)) / nbpg * nbpg

/-- The bytes of the block at `p` that are the caller's. -/
def usable (h : heap) (p : ℤ) : ℤ := h.size (p - WORDSIZE) - WORDSIZE

/-- **The size of a block is right** exactly when neither sum wraps. -/
theorem blockSize_eq_iff (hn : 0 ≤ n ∧ n < 4294967296) :
    blockSize n = needed n ↔ n + 7 < 4294967296 := by
  unfold needed blockSize roundup uint32
  rw [WORDSIZE, SMALLEST_BLK]
  by_cases hwrap : n + 4 < 4294967296
  · rw [Int.emod_eq_of_lt (by lia) hwrap]
    split_ifs <;> lia
  · have h1 : (n + 4) % 4294967296 = n + 4 - 4294967296 := by lia
    rw [h1, if_pos (by lia)]
    lia

/-- A block that has been resized is what is asked for. -/
theorem Resized.meets {h2 : heap} (hn : n + WORDSIZE ≤ blockSize n) (hword : h.size o = s)
    (hold : ∀ a ∈ span (o, s), load a h2.memory = load a h.memory)
    (hres : Resized h2 h' busy o s n p) : n ≤ usable h' p ∧
      ∀ d, 4 ∣ d → 0 ≤ d → d < min (usable h (o + WORDSIZE)) n →
        load (p + d) h'.memory = load (o + WORDSIZE + d) h.memory := by
  have hle := hres.size
  constructor
  · rw [usable]
    lia
  · intro d hd4 hd hlt
    have hsub : o + WORDSIZE - WORDSIZE = o := by lia
    rw [usable, hsub, hword, lt_min_iff] at hlt
    rw [WORDSIZE] at hlt hn ⊢
    have h1 := hres.contents (d + 4) (by lia) (by lia) (by lia) (by lia)
    rw [WORDSIZE, show p - 4 + (d + 4) = p + d by ring, show o + (d + 4) = o + 4 + d by ring] at h1
    rw [h1]
    exact hold _ ⟨show o ≤ o + 4 + d by lia, show o + 4 + d < o + s by lia⟩

end Malloc
