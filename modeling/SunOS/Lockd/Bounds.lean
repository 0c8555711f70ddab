/-
# The bytes of a request and its bounds

A request with a length of 0 goes to the end of the file, which for `genub` is at `2 ^ 30`; a
request that ends beyond the largest word wraps around to an upper bound in front of its lower one.
 All other bounds are right.
-/
import SunOS.Lockd.Lock
import Mathlib.Order.Interval.Set.Basic
import Mathlib.Tactic.Ring

namespace Lockd

/-- The bytes that a request is about. -/
def lock.bytes (l : lock) : Set ℕ :=
  {x | l.l_offset.toNat ≤ x ∧ (l.l_len = 0 ∨ x < l.l_offset.toNat + l.l_len.toNat)}

/-- A request to the end of the file, one that ends beyond the words, and any other. -/
inductive Extent
  | toEnd
  | wrapped
  | range
  deriving DecidableEq

def lock.extent (l : lock) : Extent :=
  if l.l_len = 0 then .toEnd
  else if 2 ^ 32 ≤ l.l_offset.toNat + l.l_len.toNat then .wrapped
  else .range

/-- The first byte behind a request, if it has one. -/
def lock.stop (l : lock) : ℕ := l.l_offset.toNat + l.l_len.toNat

variable {l n a : lock} {x : ℕ}

theorem toNat_MAXLEN : MAXLEN.toNat = 2 ^ 30 := by decide

theorem toNat_genub (l : lock) : (genub l).toNat =
    match l.extent with
    | .toEnd => 2 ^ 30
    | .wrapped => l.stop - 2 ^ 32
    | .range => l.stop := by
  have hoff := l.l_offset.toNat_lt
  have hlen := l.l_len.toNat_lt
  unfold genub lock.extent lock.stop
  by_cases h0 : l.l_len = 0
  · rw [if_pos h0, if_pos h0]
    exact toNat_MAXLEN
  · rw [if_neg h0, if_neg h0, UInt32.toNat_add]
    by_cases hw : 2 ^ 32 ≤ l.l_offset.toNat + l.l_len.toNat
    · rw [if_pos hw]
      simp only []
      omega
    · rw [if_neg hw]
      simp only []
      omega

theorem lock.len_pos (h : l.extent ≠ .toEnd) : 0 < l.l_len.toNat := by
  refine Nat.pos_of_ne_zero fun h0 => h ?_
  rw [extent, if_pos (UInt32.toNat_inj.mp h0)]

theorem lock.extent_toEnd (h : l.extent = .toEnd) : l.l_len = 0 := by
  unfold extent at h
  by_contra h0
  split_ifs at h

theorem lock.extent_wrapped (h : l.extent = .wrapped) :
    2 ^ 32 ≤ l.stop ∧ l.stop - 2 ^ 32 < l.l_offset.toNat := by
  have hlen := l.l_len.toNat_lt
  unfold extent at h
  split_ifs at h with h0 hw
  exact ⟨hw, by rw [stop] at *; omega⟩

theorem lock.extent_range (h : l.extent = .range) : l.stop < 2 ^ 32 := by
  unfold extent at h
  split_ifs at h with h0 hw
  exact not_le.mp hw

theorem lock.mem_bytes (l : lock) (x : ℕ) :
    x ∈ l.bytes ↔ l.l_offset.toNat ≤ x ∧ (l.extent = .toEnd ∨ x < l.stop) := by
  refine and_congr_right fun _ => or_congr_left ?_
  refine ⟨fun h => ?_, extent_toEnd⟩
  rw [extent, if_pos h]

/-- Two requests share a byte when each begins before the other ends. -/
theorem lock.meets_iff (n a : lock) : (n.bytes ∩ a.bytes).Nonempty ↔
    (n.extent = .toEnd ∨ a.l_offset.toNat < n.stop) ∧
      (a.extent = .toEnd ∨ n.l_offset.toNat < a.stop) := by
  have hn : n.extent = .toEnd ∨ n.l_offset.toNat < n.stop := by
    by_cases h : n.extent = .toEnd
    · exact Or.inl h
    · have := len_pos h
      exact Or.inr (by rw [stop]; omega)
  have ha : a.extent = .toEnd ∨ a.l_offset.toNat < a.stop := by
    by_cases h : a.extent = .toEnd
    · exact Or.inl h
    · have := len_pos h
      exact Or.inr (by rw [stop]; omega)
  constructor
  · rintro ⟨x, hxn, hxa⟩
    rw [mem_bytes] at hxn hxa
    exact ⟨hxn.2.imp id fun h => by omega, hxa.2.imp id fun h => by omega⟩
  · rintro ⟨h1, h2⟩
    refine ⟨max n.l_offset.toNat a.l_offset.toNat, ?_, ?_⟩
    · rw [mem_bytes]
      refine ⟨le_max_left _ _, ?_⟩
      by_cases h : n.extent = .toEnd
      · exact Or.inl h
      · exact Or.inr (max_lt (hn.resolve_left h) (h1.resolve_left h))
    · rw [mem_bytes]
      refine ⟨le_max_right _ _, ?_⟩
      by_cases h : a.extent = .toEnd
      · exact Or.inl h
      · exact Or.inr (max_lt (h2.resolve_left h) (ha.resolve_left h))

/-- A request contains another when it begins no later and ends no earlier. -/
theorem lock.subset_iff (n a : lock) : n.bytes ⊆ a.bytes ↔
    a.l_offset.toNat ≤ n.l_offset.toNat ∧
      (a.extent = .toEnd ∨ n.extent ≠ .toEnd ∧ n.stop ≤ a.stop) := by
  have hn : n.extent ≠ .toEnd → n.l_offset.toNat < n.stop := fun h => by
    have := len_pos h
    rw [stop]
    lia
  constructor
  · intro h
    have hfirst : n.l_offset.toNat ∈ n.bytes := by
      rw [mem_bytes]
      refine ⟨le_rfl, ?_⟩
      by_cases ht : n.extent = .toEnd
      · exact Or.inl ht
      · exact Or.inr (hn ht)
    have hlow := h hfirst
    refine ⟨hlow.1, ?_⟩
    by_contra hnot
    rw [not_or] at hnot
    obtain ⟨hat, hnot⟩ := hnot
    by_cases ht : n.extent = .toEnd
    · -- the byte behind `a` is in `n`
      have hx : max n.l_offset.toNat a.stop ∈ n.bytes := by
        rw [mem_bytes]
        exact ⟨le_max_left _ _, Or.inl ht⟩
      have := h hx
      rw [mem_bytes] at this
      lia
    · have hlt : a.stop < n.stop := not_le.mp fun hle => hnot ⟨ht, hle⟩
      have hx : n.stop - 1 ∈ n.bytes := by
        rw [mem_bytes]
        exact ⟨by lia, Or.inr (by lia)⟩
      have := h hx
      rw [mem_bytes] at this
      lia
  · rintro ⟨hlow, hhigh⟩ x hx
    rw [mem_bytes] at hx ⊢
    refine ⟨by lia, ?_⟩
    rcases hhigh with h | ⟨ht, hle⟩
    · exact Or.inl h
    · exact Or.inr (by have := hx.2.resolve_left ht; lia)

/-! ## Comparisons of mapped requests -/

/-- `overlap` and `inside` say of two requests that have been mapped what is true of their bytes. -/
structure Right (n a nl al : reclock) : Prop where
  overlap : overlap nl al = true ↔ (n.lck.bytes ∩ a.lck.bytes).Nonempty
  inside : inside nl al = true ↔ n.lck.bytes ⊆ a.lck.bytes

/-- When that is so for requests `n` and `a`. -/
def Sound (n a : lock) : Prop :=
  let x := n.l_offset.toNat
  let y := a.l_offset.toNat
  match n.extent, a.extent with
  | .range, .range => True
  | .toEnd, .toEnd => x < 2 ^ 30 ∧ y < 2 ^ 30
  | .toEnd, .range => (x < a.stop → y < 2 ^ 30) ∧ (y ≤ x → a.stop < 2 ^ 30)
  | .range, .toEnd => (y < n.stop → x < 2 ^ 30) ∧ (y ≤ x → n.stop ≤ 2 ^ 30)
  | .wrapped, .range => y ≤ x ∧ a.stop + 2 ^ 32 < n.stop
  | .range, .wrapped => x < y ∧ (y < n.stop → x + 2 ^ 32 < a.stop)
  | .wrapped, .toEnd => x < 2 ^ 30 ∧ y + 2 ^ 32 < n.stop
  | .toEnd, .wrapped => y < 2 ^ 30 ∧ x + 2 ^ 32 < a.stop
  | .wrapped, .wrapped => False

theorem overlap_iff {nl al : reclock} : overlap nl al = true ↔
    al.lck.l_offset.toNat < nl.lck.ub.toNat ∧ nl.lck.l_offset.toNat < al.lck.ub.toNat := by
  rw [overlap, decide_eq_true_iff, not_or, ge_iff_le, UInt32.le_iff_toNat_le,
    UInt32.le_iff_toNat_le,
    not_le, not_le]
  rfl

theorem inside_iff {nl al : reclock} : inside nl al = true ↔
    al.lck.l_offset.toNat ≤ nl.lck.l_offset.toNat ∧ nl.lck.ub.toNat ≤ al.lck.ub.toNat := by
  rw [inside, decide_eq_true_iff, ge_iff_le, UInt32.le_iff_toNat_le, UInt32.le_iff_toNat_le]
  rfl

/-- **Requests are compared rightly exactly when `Sound`**: always, when both end before `2 ^ 32`
and neither goes to the end of the file. -/
theorem right_iff {m m' : Mapping} {n a nl al : reclock} (hn : m.map n = some nl)
    (ha : m'.map a = some al) : Right n a nl al ↔ Sound n.lck a.lck := by
  obtain ⟨hnl, hnu⟩ := Mapping.bounds hn
  obtain ⟨hal, hau⟩ := Mapping.bounds ha
  have hright : Right n a nl al ↔
      (overlap nl al = true ↔ (n.lck.bytes ∩ a.lck.bytes).Nonempty) ∧
        (inside nl al = true ↔ n.lck.bytes ⊆ a.lck.bytes) :=
    ⟨fun h => ⟨h.overlap, h.inside⟩, fun h => ⟨h.1, h.2⟩⟩
  rw [hright, overlap_iff, inside_iff, lock.meets_iff, lock.subset_iff, hnl, hal, hnu, hau,
    toNat_genub, toNat_genub, Sound]
  have hx := n.lck.l_offset.toNat_lt
  have hy := a.lck.l_offset.toNat_lt
  -- the nine cases are arithmetic, once it is known where a range and a wrapped request end
  cases hen : n.lck.extent with
  | toEnd =>
      cases hea : a.lck.extent with
      | toEnd => simp only [true_or, and_true]; grind
      | wrapped =>
          have hwa := lock.extent_wrapped hea
          grind
      | range =>
          grind
  | wrapped =>
      have hwn := lock.extent_wrapped hen
      cases hea : a.lck.extent with
      | toEnd => simp only [true_or, and_true, false_or, reduceCtorEq]; grind
      | wrapped =>
          have hwa := lock.extent_wrapped hea
          grind
      | range =>
          have hra := lock.extent_range hea
          have hsa : a.lck.stop = a.lck.l_offset.toNat + a.lck.l_len.toNat := rfl
          grind
  | range =>
      have hsn : n.lck.stop = n.lck.l_offset.toNat + n.lck.l_len.toNat := rfl
      cases hea : a.lck.extent with
      | toEnd => simp only [true_or, and_true, false_or, reduceCtorEq]; grind
      | wrapped =>
          have hwa := lock.extent_wrapped hea
          grind
      | range => simp only [false_or, ne_eq, not_false_eq_true, true_and, reduceCtorEq]

/-- A request of a process for `len` bytes from `off` on. -/
def request (off len : UInt32) : reclock where
  cookie := []
  block := true
  exclusive := true
  lck := ⟨[], [], 1, off, len, [], [], 0, [], 0, 0⟩
  reclaim := false
  rel := false
  w_flag := false

/-- The mapping of a request of the kernel, when there is memory. -/
def mapped : reclock → Option reclock := (Mapping.kernel [] 0 fun _ => true).map

theorem right_iff_ranges : ∃ nl al, mapped (request 0 10) = some nl ∧
    mapped (request 5 10) = some al ∧
    (Right (request 0 10) (request 5 10) nl al ↔ Sound (request 0 10).lck (request 5 10).lck) :=
  ⟨_, _, rfl, rfl, right_iff (show mapped (request 0 10) = some _ from rfl)
    (show mapped (request 5 10) = some _ from rfl)⟩

/-- A request to the end of the file does not overlap one for ten bytes from `2 ^ 30` on. -/
theorem not_right_toEnd : ∃ nl al, mapped (request 0 0) = some nl ∧
    mapped (request 1073741824 10) = some al ∧
    ¬ Right (request 0 0) (request 1073741824 10) nl al := by
  refine ⟨_, _, rfl, rfl, fun h => ?_⟩
  have hbyte : ((request 0 0).lck.bytes ∩ (request 1073741824 10).lck.bytes).Nonempty :=
    ⟨1073741824, ⟨by decide, Or.inl rfl⟩, ⟨by decide, Or.inr (by decide)⟩⟩
  exact absurd (h.overlap.mpr hbyte) (by decide)

end Lockd
