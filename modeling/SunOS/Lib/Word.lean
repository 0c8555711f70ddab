/-
# Machine words

The C sources compute in 32-bit words.  `int32 x` is the value a signed 32-bit
variable holds once `x` has been stored in it (two's complement wraparound);
`Fits x` says that storing `x` loses nothing.
-/
import Mathlib.Data.Int.Basic
import Mathlib.Tactic.Ring

/-- The value of a signed 32-bit variable after `x` is assigned to it. -/
def int32 (x : ℤ) : ℤ := (x + 2147483648) % 4294967296 - 2147483648

/-- The largest signed 32-bit value. -/
def INT_MAX : ℤ := 2147483647

/-- The smallest signed 32-bit value. -/
def INT_MIN : ℤ := -2147483648

/-- `x` is a value of a signed 32-bit variable. -/
def Fits (x : ℤ) : Prop := INT_MIN ≤ x ∧ x ≤ INT_MAX

instance (x : ℤ) : Decidable (Fits x) := inferInstanceAs (Decidable (_ ∧ _))

theorem fits_iff {x : ℤ} : Fits x ↔ -2147483648 ≤ x ∧ x ≤ 2147483647 := Iff.rfl

/-- A value that fits is stored as it is. -/
theorem int32_of_fits {x : ℤ} (h : Fits x) : int32 x = x := by
  rw [fits_iff] at h
  unfold int32
  omega

/-- Only the last store of a chain of word operations matters. -/
theorem int32_int32_add (x y : ℤ) : int32 (int32 x + y) = int32 (x + y) := by
  unfold int32
  omega

theorem int32_int32_sub (x y : ℤ) : int32 (int32 x - y) = int32 (x - y) := by
  rw [sub_eq_add_neg, int32_int32_add, ← sub_eq_add_neg]

/-- The value of an unsigned 32-bit variable after `x` is assigned to it. -/
def uint32 (x : ℤ) : ℤ := x % 4294967296

/-- `x` is a value of an unsigned 32-bit variable. -/
def UFits (x : ℤ) : Prop := 0 ≤ x ∧ x < 4294967296

instance (x : ℤ) : Decidable (UFits x) := inferInstanceAs (Decidable (_ ∧ _))

theorem ufits_iff {x : ℤ} : UFits x ↔ 0 ≤ x ∧ x < 4294967296 := Iff.rfl

/-- A value that fits is stored as it is. -/
theorem uint32_of_ufits {x : ℤ} (h : UFits x) : uint32 x = x := Int.emod_eq_of_lt h.1 h.2

/-- The value of a signed 16-bit variable after `x` is assigned to it. -/
def int16 (x : ℤ) : ℤ := (x + 32768) % 65536 - 32768

/-- A value that fits is stored as it is. -/
theorem int16_of_fits {x : ℤ} (h : -32768 ≤ x ∧ x ≤ 32767) : int16 x = x := by
  unfold int16
  omega

/-! ## Differences of unsigned words

The sign of a difference of unsigned words, taken as a signed one, orders values that
are not too far apart, wherever they wrap. -/

theorem int32_uint32_sub (x y : ℤ) : int32 (uint32 x - uint32 y) = int32 (x - y) := by
  unfold int32 uint32
  omega

theorem int32_uint32_add_sub (x k y : ℤ) :
    int32 (uint32 x + k - uint32 y) = int32 (x + k - y) := by
  unfold int32 uint32
  omega

theorem uint32_uint32_add (x k : ℤ) : uint32 (uint32 x + k) = uint32 (x + k) := by
  unfold uint32
  omega

theorem uint32_uint32_sub (x y : ℤ) : uint32 (uint32 x - uint32 y) = uint32 (x - y) := by
  unfold uint32
  omega
