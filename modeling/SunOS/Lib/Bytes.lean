/-
# Bytes of memory

A memory is a function from addresses to bytes.  `load` reads a block of it and
`store` writes one (`bcopy` into it); `htonl` and `ntohl` are the four bytes of
a 32-bit word in network order and the word four such bytes make.
-/
import Mathlib.Data.List.Basic
import Mathlib.Algebra.Ring.Nat

namespace Bytes

open List

/-! ## Blocks of memory -/

variable {m' : ℕ → UInt8}

/-- The `n` bytes from address `a` on. -/
def load (m : ℕ → UInt8) (a n : ℕ) : List UInt8 := (List.range' a n).map m

/-- The memory once the bytes `l` have been copied to address `a`. -/
def store (m : ℕ → UInt8) (a : ℕ) (l : List UInt8) : ℕ → UInt8 :=
  fun i => if a ≤ i ∧ i < a + l.length then l.getD (i - a) 0 else m i

variable {m : ℕ → UInt8} {a b n k : ℕ} {l : List UInt8}

@[simp] theorem length_load : (load m a n).length = n := by simp [load]

@[simp] theorem load_zero : load m a 0 = [] := rfl

/-- A block is two shorter ones. -/
theorem load_add : load m a (n + k) = load m a n ++ load m (a + n) k := by
  rw [load, load, load, ← map_append, List.range'_append_1]

theorem load_take (h : k ≤ n) : (load m a n).take k = load m a k := by
  obtain ⟨j, rfl⟩ := Nat.exists_eq_add_of_le h
  rw [load_add, take_append_of_le_length (by simp), take_of_length_le (by simp)]

theorem load_drop : (load m a n).drop k = load m (a + k) (n - k) := by
  rw [load, load, ← map_drop, List.drop_range', Nat.mul_one]

/-- A block depends on the bytes in it. -/
theorem load_congr (h : ∀ i, a ≤ i → i < a + n → m' i = m i) : load m' a n = load m a n := by
  apply map_congr_left
  intro i hi
  rw [List.mem_range'_1] at hi
  exact h i hi.1 hi.2

/-- A store changes bytes of its block only. -/
theorem store_of_not_mem {i : ℕ} (h : ¬ (a ≤ i ∧ i < a + l.length)) : store m a l i = m i :=
  if_neg h

/-- What is stored is read back. -/
theorem load_store : load (store m a l) a l.length = l := by
  apply ext_getElem
  · simp
  · intro i h1 h2
    simp [load, store, h2]

/-- A store leaves what lies beside it. -/
theorem load_store_of_disjoint (h : a + n ≤ b ∨ b + l.length ≤ a) :
    load (store m b l) a n = load m a n := by
  apply map_congr_left
  intro i hi
  rw [List.mem_range'_1] at hi
  rw [store, if_neg]
  omega

/-- A block that begins where a store does: what was stored, and what lies behind it. -/
theorem load_store_beginning : load (store m a l) a n = l.take n ++ load m (a + l.length)
    (n - l.length) := by
  rcases Nat.le_total n l.length with h | h
  · rw [Nat.sub_eq_zero_of_le h, load_zero, append_nil, ← load_take h, load_store]
  · obtain ⟨k, rfl⟩ := Nat.exists_eq_add_of_le h
    rw [load_add, load_store, take_of_length_le (by omega), Nat.add_sub_cancel_left,
      load_store_of_disjoint (by omega)]

/-- A store leaves the block as it was exactly when it stores what was there. -/
theorem load_store_beginning_eq_iff :
    load (store m a l) a n = load m a n ↔ l.take n = load m a (min n l.length) := by
  have hsplit : load m a n = load m a (min n l.length) ++ load m (a + l.length) (n - l.length) := by
    rcases Nat.le_total n l.length with h | h
    · rw [Nat.min_eq_left h, Nat.sub_eq_zero_of_le h, load_zero, append_nil]
    · rw [Nat.min_eq_right h, ← load_add, Nat.add_sub_cancel' h]
  rw [load_store_beginning, hsplit]
  exact append_left_inj _

/-! ## Several blocks -/

/-- The bytes of several blocks, an address and a length each, one after the other. -/
def gather (m : ℕ → UInt8) (bs : List (ℕ × ℕ)) : List UInt8 := bs.flatMap fun b => load m b.1 b.2

/-- The memory once the bytes `l` have been copied to several blocks in turn. -/
def scatter (m : ℕ → UInt8) : List (ℕ × ℕ) → List UInt8 → ℕ → UInt8
  | [], _ => m
  | b :: bs, l => scatter (store m b.1 (l.take b.2)) bs (l.drop b.2)

variable {bs : List (ℕ × ℕ)} {P : ℕ → Prop}

@[simp] theorem gather_nil : gather m [] = [] := rfl

@[simp] theorem gather_cons {c : ℕ × ℕ} : gather m (c :: bs) = load m c.1 c.2 ++ gather m bs := rfl

theorem gather_append {cs : List (ℕ × ℕ)} : gather m (bs ++ cs) = gather m bs ++ gather m cs :=
  flatMap_append

/-- Several blocks depend on the bytes in them. -/
theorem gather_congr (hP : ∀ c ∈ bs, ∀ i, c.1 ≤ i → i < c.1 + c.2 → P i)
    (h : ∀ i, P i → m' i = m i) : gather m' bs = gather m bs := by
  apply flatMap_congr
  intro c hc
  exact load_congr fun i h1 h2 => h i (hP c hc i h1 h2)

/-- Copying to several blocks changes bytes of theirs only. -/
theorem scatter_of_not (hP : ∀ c ∈ bs, ∀ i, c.1 ≤ i → i < c.1 + c.2 → P i) {i : ℕ} (hi : ¬ P i) :
    scatter m bs l i = m i := by
  induction bs generalizing m l with
  | nil => rfl
  | cons c bs ih =>
    rw [scatter, ih fun d hd => hP d (mem_cons_of_mem _ hd)]
    apply store_of_not_mem
    rintro ⟨h1, h2⟩
    rw [length_take] at h2
    exact hi (hP c mem_cons_self i h1 (by omega))

/-! ## Words in network order -/

/-- The bytes of a word, the most significant first. -/
def htonl (x : UInt32) : List UInt8 :=
  [UInt8.ofNat (x.toNat / 2 ^ 24), UInt8.ofNat (x.toNat / 2 ^ 16), UInt8.ofNat (x.toNat / 2 ^ 8),
    UInt8.ofNat x.toNat]

/-- The word that four bytes make, the most significant first. -/
def ntohl : List UInt8 → UInt32
  | [b₃, b₂, b₁, b₀] =>
    UInt32.ofNat (b₃.toNat * 2 ^ 24 + b₂.toNat * 2 ^ 16 + b₁.toNat * 2 ^ 8 + b₀.toNat)
  | _ => 0

@[simp] theorem length_htonl (x : UInt32) : (htonl x).length = 4 := rfl

@[simp] theorem ntohl_htonl (x : UInt32) : ntohl (htonl x) = x := by
  have hx : x.toNat < 2 ^ 32 := x.toNat_lt
  apply UInt32.toNat_inj.mp
  simp only [htonl, ntohl, UInt32.toNat_ofNat', UInt8.toNat_ofNat']
  omega

end Bytes
