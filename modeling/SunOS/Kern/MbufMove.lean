/-
# Chains to contiguous memory (`m_cpytoc` and `m_movtoc`, `sys/uipc_mbuf.c`)

Both functions store the bytes of a chain one after the other at a place in memory, and
return how much of the count was not used up.  `m_cpytoc` copies whole mbufs behind the
first, and `m_movtoc` does not count the pages it exchanges.
-/
import SunOS.Kern.Mbuf
import Mathlib.Algebra.Order.Ring.Int

namespace Mbuf

open List

/-! ## m_cpytoc -/

variable {n : ℕ} {mp : List mbuf}

/-- `while (off && m)`: what is left of `off` and of the chain. -/
def skipoff : ℕ → List mbuf → ℕ × List mbuf
  | off, [] => (off, [])
  | off, m :: mp =>
    if off = 0 then (off, m :: mp)
    else if m.dat.length ≤ off then skipoff (off - m.dat.length) mp
    else (off, m :: mp)

/-- `while (len && m)`: the bytes copied and what is left of `len`. -/
def copyrest : ℤ → List mbuf → List UInt8 × ℤ
  | len, [] => ([], len)
  | len, m :: mp =>
    if len = 0 then ([], len)
    else
      let r := copyrest (len - m.m_len) mp
      (m.dat ++ r.1, r.2)

/-- `m_cpytoc(m, off, len, cp)`: the bytes stored from `cp` on, and the value returned;
nothing for a panic. -/
def m_cpytoc (mp : List mbuf) (off len : ℤ) : Option (List UInt8 × ℤ) :=
  if mp = [] ∨ off < 0 ∨ len < 0 then none
  else
    match skipoff off.toNat mp with
    | (_, []) => some ([], len)
    | (off, m :: mp) =>
      let ml := min len (m.m_len - off)
      let r := copyrest (len - ml) mp
      some ((m.dat.drop off).take ml.toNat ++ r.1, r.2)

/-- What `m_cpytoc` should do. -/
def Cpytoc (mp : List mbuf) (off len : ℕ) : Prop :=
  let written := ((contents mp).drop off).take len
  m_cpytoc mp off len = some (written, (len : ℤ) - written.length)

instance (mp : List mbuf) (off len : ℕ) : Decidable (Cpytoc mp off len) :=
  inferInstanceAs (Decidable (_ = _))

/-- The first `n` bytes of the chain end with an mbuf, or are all there are. -/
def Ends (n : ℕ) (mp : List mbuf) : Prop :=
  (contents mp).length ≤ n ∨ ∃ k, (contents (mp.take k)).length = n

/-- The bytes from `off` on, `len` of them, end in the mbuf they begin in, at the end of an
mbuf or with the chain. -/
def Cuts (mp : List mbuf) (off len : ℕ) : Prop :=
  ∀ m mp', (skipoff off mp).2 = m :: mp' →
    (skipoff off mp).1 + len ≤ m.dat.length ∨
      Ends ((skipoff off mp).1 + len - m.dat.length) mp'

/-- The loop skips `off` bytes. -/
theorem skipoff_spec (off : ℕ) (mp : List mbuf) :
    (contents (skipoff off mp).2).drop (skipoff off mp).1 = (contents mp).drop off ∧
      ∀ m mp', (skipoff off mp).2 = m :: mp' → (skipoff off mp).1 ≤ m.dat.length := by
  induction mp generalizing off with
  | nil => simp [skipoff]
  | cons m mp ih =>
    rw [skipoff]
    by_cases hoff : off = 0
    · rw [if_pos hoff]
      exact ⟨rfl, fun m' mp' _ => by simp [hoff]⟩
    · rw [if_neg hoff]
      by_cases hlen : m.dat.length ≤ off
      · rw [if_pos hlen, contents_cons, drop_append, drop_of_length_le hlen,
          nil_append]
        exact ih _
      · rw [if_neg hlen]
        refine ⟨rfl, fun m' mp' h => ?_⟩
        obtain ⟨rfl, -⟩ := List.cons.inj h
        exact le_of_not_ge hlen

theorem ends_zero (mp : List mbuf) : Ends 0 mp := Or.inr ⟨0, by simp⟩

theorem ends_cons (m : mbuf) (mp : List mbuf) (hn : n ≠ 0) :
    Ends n (m :: mp) ↔ m.dat.length ≤ n ∧ Ends (n - m.dat.length) mp := by
  rw [Ends, Ends, contents_cons, length_append]
  constructor
  · rintro (h | ⟨k, hk⟩)
    · exact ⟨by lia, Or.inl (by lia)⟩
    · cases k with
      | zero => exact absurd hk.symm hn
      | succ k =>
        rw [take_succ_cons, contents_cons, length_append] at hk
        exact ⟨by lia, Or.inr ⟨k, by lia⟩⟩
  · rintro ⟨hle, h | ⟨k, hk⟩⟩
    · exact Or.inl (by lia)
    · refine Or.inr ⟨k + 1, ?_⟩
      rw [take_succ_cons, contents_cons, length_append]
      lia

/-- Below zero the loop does not stop before the end of the chain. -/
theorem copyrest_neg {len : ℤ} (h : len < 0) (mp : List mbuf) : (copyrest len mp).2 < 0 := by
  induction mp generalizing len with
  | nil => exact h
  | cons m mp ih =>
    rw [copyrest, if_neg (by omega)]
    exact ih (by rw [mbuf.m_len]; omega)

/-- The second loop copies `n` bytes when they end with an mbuf. -/
theorem copyrest_ends (h : Ends n mp) :
    copyrest n mp = ((contents mp).take n, (n : ℤ) - ((contents mp).take n).length) := by
  induction mp generalizing n with
  | nil => simp [copyrest]
  | cons m mp ih =>
    by_cases hn : n = 0
    · subst hn
      simp [copyrest]
    · obtain ⟨hle, hends⟩ := (ends_cons m mp hn).mp h
      rw [copyrest, if_neg (by omega), mbuf.m_len, ← Int.ofNat_sub hle, ih hends, contents_cons,
        take_append, take_of_length_le hle, length_append, Prod.mk.injEq]
      exact ⟨rfl, by omega⟩

/-- And else too many. -/
theorem copyrest_not_ends (h : ¬ Ends n mp) : (copyrest n mp).2 < 0 := by
  induction mp generalizing n with
  | nil => exact absurd (Or.inl (Nat.zero_le n)) h
  | cons m mp ih =>
    have hn : n ≠ 0 := fun hn => h (hn ▸ ends_zero _)
    rw [ends_cons m mp hn, not_and] at h
    rw [copyrest, if_neg (by omega), mbuf.m_len]
    by_cases hle : m.dat.length ≤ n
    · rw [← Int.ofNat_sub hle]
      exact ih (h hle)
    · exact copyrest_neg (by omega) mp

/-- **When `m_cpytoc` copies what it should.** -/
theorem cpytoc_iff (m : mbuf) (mp : List mbuf) (off len : ℕ) :
    Cpytoc (m :: mp) off len ↔ Cuts (m :: mp) off len := by
  obtain ⟨hskip, hle⟩ := skipoff_spec off (m :: mp)
  have hpanic : ¬ (m :: mp = [] ∨ (off : ℤ) < 0 ∨ (len : ℤ) < 0) := by
    rintro (h | h | h)
    · cases h
    · lia
    · lia
  rw [Cpytoc, Cuts, m_cpytoc, if_neg hpanic, Int.toNat_natCast, ← hskip]
  rcases hs : skipoff off (m :: mp) with ⟨o, _ | ⟨m', mp'⟩⟩
  · simp
  · rw [hs] at hle
    have ho : o ≤ m'.dat.length := hle m' mp' rfl
    simp only [Option.some.injEq, List.cons.injEq, and_imp, contents_cons]
    by_cases hin : o + len ≤ m'.dat.length
    · have hml : min (len : ℤ) (m'.m_len - o) = len := by rw [mbuf.m_len]; lia
      have hrest : copyrest 0 mp' = ([], 0) := by cases mp' <;> rfl
      have hdrop : ((m'.dat ++ contents mp').drop o).take len = (m'.dat.drop o).take len := by
        rw [drop_append_of_le_length ho, take_append_of_le_length]
        rw [length_drop]
        lia
      have hlength : ((m'.dat.drop o).take len).length = len := by
        rw [length_take, length_drop]
        lia
      rw [hml, Int.sub_self, hrest, Int.toNat_natCast, hdrop, hlength]
      simp [hin]
    · have hml : min (len : ℤ) (m'.m_len - o) = (m'.dat.length - o : ℕ) := by
        rw [mbuf.m_len]
        lia
      have hrest : (len : ℤ) - (m'.dat.length - o : ℕ) = (o + len - m'.dat.length : ℕ) := by lia
      have hdrop : ((m'.dat ++ contents mp').drop o).take len =
          m'.dat.drop o ++ (contents mp').take (o + len - m'.dat.length) := by
        rw [drop_append_of_le_length ho, take_append, length_drop,
          take_of_length_le (by rw [length_drop]; lia)]
        congr 2
        lia
      rw [hml, hrest, Int.toNat_natCast, hdrop,
        take_of_length_le (l := m'.dat.drop o) (by rw [length_drop])]
      constructor
      · rintro heq _ _ rfl rfl
        right
        by_contra hends
        have hneg := copyrest_not_ends hends
        rw [(Prod.mk.inj heq).2, length_append, length_drop, length_take] at hneg
        lia
      · intro hcut
        rcases hcut m' mp' rfl rfl with h | hends
        · exact absurd h hin
        · rw [copyrest_ends hends, length_append, length_drop, Prod.mk.injEq]
          exact ⟨rfl, by lia⟩

/-! ## m_movtoc -/

variable {m : clmbuf} {dst count : ℤ}

def MCLBYTES : ℤ := 1024

/-- An mbuf as `m_movtoc` sees it.  `m_clswp` is the function that exchanges pages, if there is
one: whether it succeeds with its argument and the two places. -/
structure clmbuf extends mbuf where
  m_cltype : ℤ
  m_clarg : ℤ
  m_clswp : Option (ℤ → ℤ → ℤ → Bool)

/-- `mtod(m, caddr_t)`. -/
def clmbuf.mtod (m : clmbuf) : ℤ := m.addr + m.m_off

/-- The bytes of a chain. -/
def bytes (ms : List clmbuf) : List UInt8 := contents (ms.map clmbuf.tombuf)

@[simp] theorem bytes_cons (m : clmbuf) (ms : List clmbuf) : bytes (m :: ms) = m.dat ++ bytes ms :=
  rfl

/-- The first page of `m` is exchanged with the one at `dst`; `i` bytes are to be moved. -/
def clmbuf.swaps (m : clmbuf) (dst i : ℤ) : Bool :=
  match m.m_clswp with
  | none => false
  | some swp =>
    i ≥ MCLBYTES && m.m_cltype = 2 && m.mtod % MCLBYTES = 0 && dst % MCLBYTES = 0 &&
      swp m.m_clarg m.mtod dst

/-- `m_movtoc(m, to, count)`: the bytes stored from `dst` on, and the value returned.  All mbufs
of the chain are freed. -/
def m_movtoc : List clmbuf → ℤ → ℤ → List UInt8 × ℤ
  | [], _, count => ([], count)
  | m :: ms, dst, count =>
    let i := min m.m_len count
    -- the bytes exchanged
    let n : ℤ := if m.swaps dst i then MCLBYTES else 0
    let i' := i - n
    let dst' := dst + n
    let r := if i' > 0 then m_movtoc ms (dst' + i') (count - i') else m_movtoc ms dst' count
    (m.dat.take n.toNat ++ (m.dat.drop n.toNat).take i'.toNat ++ r.1, r.2)

/-- What `m_movtoc` should do. -/
def Movtoc (ms : List clmbuf) (dst count : ℤ) : Prop :=
  let written := (bytes ms).take count.toNat
  m_movtoc ms dst count = (written, count - written.length)

/-- No page of the chain is exchanged. -/
def Swapless (ms : List clmbuf) (dst count : ℤ) : Prop :=
  ∀ pre m post, ms = pre ++ m :: post →
    m.swaps (dst + (bytes pre).length) (min m.m_len (count - (bytes pre).length)) = false

/-- A page is not exchanged for less. -/
theorem clmbuf.swaps_of_lt {dst i : ℤ} (h : i < MCLBYTES) : m.swaps dst i = false := by
  rw [clmbuf.swaps]
  cases m.m_clswp with
  | none => rfl
  | some swp => simp [not_le.mpr h]

theorem clmbuf.le_of_swaps {dst i : ℤ} (h : m.swaps dst i = true) : MCLBYTES ≤ i := by
  by_contra hlt
  rw [clmbuf.swaps_of_lt (not_le.mp hlt)] at h
  cases h

theorem swapless_of_lt {ms : List clmbuf} (h : count < MCLBYTES) :
    Swapless ms dst count := fun _ _ _ _ => clmbuf.swaps_of_lt (by omega)

theorem swapless_cons (m : clmbuf) (ms : List clmbuf) (dst count : ℤ) :
    Swapless (m :: ms) dst count ↔
      m.swaps dst (min m.m_len count) = false ∧ Swapless ms (dst + m.m_len) (count - m.m_len) := by
  have hshift : ∀ pre : List clmbuf,
    ((bytes (m :: pre)).length : ℤ) = m.m_len + (bytes pre).length := by
    intro pre
    rw [bytes_cons, length_append, mbuf.m_len]
    omega
  constructor
  · intro h
    refine ⟨?_, fun pre m' post hms => ?_⟩
    · have h1 := h [] m ms rfl
      simpa [bytes] using h1
    · have h2 := h (m :: pre) m' post (by rw [hms]; rfl)
      rw [hshift] at h2
      rw [add_assoc, sub_sub]
      exact h2
  · rintro ⟨h1, h2⟩ pre m' post hms
    cases pre with
    | nil =>
      obtain ⟨rfl, -⟩ := List.cons.inj hms
      simpa [bytes] using h1
    | cons m'' pre =>
      obtain ⟨rfl, hms'⟩ := List.cons.inj hms
      have h2 := h2 pre m' post hms'
      rw [hshift, ← add_assoc, ← sub_sub]
      exact h2

/-- An mbuf whose page is not exchanged is copied, as far as the count goes. -/
theorem m_movtoc_copy (ms : List clmbuf) (h : m.swaps dst (min m.m_len count) = false) :
    m_movtoc (m :: ms) dst count =
      (m.dat.take (min m.m_len count).toNat ++
        (m_movtoc ms (dst + max 0 (min m.m_len count)) (count - max 0 (min m.m_len count))).1,
        (m_movtoc ms (dst + max 0 (min m.m_len count)) (count - max 0 (min m.m_len count))).2) := by
  rw [m_movtoc]
  simp only [h, Bool.false_eq_true, if_false, Int.sub_zero, Int.add_zero, Int.toNat_zero,
    take_zero, drop_zero, nil_append]
  by_cases hpos : min m.m_len count > 0
  · rw [if_pos hpos, max_eq_right (le_of_lt hpos)]
  · rw [if_neg hpos, max_eq_left (not_lt.mp hpos), Int.sub_zero, Int.add_zero]

/-- One whose page is exchanged is moved as far, but the page is not counted. -/
theorem m_movtoc_swap (ms : List clmbuf) (h : m.swaps dst (min m.m_len count) = true) :
    m_movtoc (m :: ms) dst count =
      (m.dat.take (min m.m_len count).toNat ++
        (m_movtoc ms (dst + min m.m_len count) (count - (min m.m_len count - MCLBYTES))).1,
        (m_movtoc ms (dst + min m.m_len count) (count - (min m.m_len count - MCLBYTES))).2) := by
  have hle := clmbuf.le_of_swaps h
  have hpage : (0 : ℤ) ≤ MCLBYTES := by decide
  have htake : m.dat.take MCLBYTES.toNat ++
      (m.dat.drop MCLBYTES.toNat).take (min m.m_len count - MCLBYTES).toNat =
        m.dat.take (min m.m_len count).toNat := by
    rw [← take_add]
    congr 1
    omega
  rw [m_movtoc]
  simp only [h, if_true, htake]
  by_cases hpos : min m.m_len count - MCLBYTES > 0
  · rw [if_pos hpos, add_add_sub_cancel]
  · rw [if_neg hpos, show min m.m_len count = MCLBYTES by omega, Int.sub_self, Int.sub_zero]

/-- All that is moved is counted, or more: the value returned is never too small. -/
theorem le_m_movtoc (ms : List clmbuf) (dst count : ℤ) :
    count ≤ (m_movtoc ms dst count).2 + (m_movtoc ms dst count).1.length := by
  induction ms generalizing dst count with
  | nil => simp [m_movtoc]
  | cons m ms ih =>
    have hlength : ((m.dat.take (min m.m_len count).toNat).length : ℤ) =
        max 0 (min m.m_len count) := by
      rw [length_take, mbuf.m_len]
      lia
    cases h : m.swaps dst (min m.m_len count) with
    | false =>
      rw [m_movtoc_copy ms h]
      have := ih (dst + max 0 (min m.m_len count)) (count - max 0 (min m.m_len count))
      simp only [length_append, Nat.cast_add, hlength]
      lia
    | true =>
      have hpage : (0 : ℤ) ≤ MCLBYTES := by decide
      rw [m_movtoc_swap ms h]
      have := ih (dst + min m.m_len count) (count - (min m.m_len count - MCLBYTES))
      simp only [length_append, Nat.cast_add, hlength]
      lia

/-- **When `m_movtoc` does what it should**: no page is exchanged. -/
theorem movtoc_iff (ms : List clmbuf) (dst count : ℤ) :
    Movtoc ms dst count ↔ Swapless ms dst count := by
  induction ms generalizing dst count with
  | nil =>
    refine iff_of_true ?_ ?_
    · simp [Movtoc, m_movtoc, bytes]
    · intro pre m post h
      simp at h
  | cons m ms ih =>
    have hlength : ((m.dat.take (min m.m_len count).toNat).length : ℤ) =
        max 0 (min m.m_len count) := by
      rw [length_take, mbuf.m_len]
      lia
    rw [swapless_cons]
    cases h : m.swaps dst (min m.m_len count) with
    | false =>
      have htake : m.dat.take (min m.m_len count).toNat = m.dat.take count.toNat := by
        rw [take_eq_take_iff, mbuf.m_len]
        lia
      have hsplit : (m.dat ++ bytes ms).take count.toNat =
          m.dat.take (min m.m_len count).toNat ++
            (bytes ms).take (count - max 0 (min m.m_len count)).toNat := by
        rw [take_append, htake]
        congr 2
        rw [mbuf.m_len]
        lia
      have hrest : Movtoc (m :: ms) dst count ↔
          Movtoc ms (dst + max 0 (min m.m_len count)) (count - max 0 (min m.m_len count)) := by
        rw [Movtoc, Movtoc, m_movtoc_copy ms h, bytes_cons, hsplit, length_append, Nat.cast_add,
          hlength, ← sub_sub, Prod.mk.injEq, append_cancel_left_eq, ← Prod.mk.injEq]
      rw [hrest, ih, eq_self_iff_true, true_and]
      by_cases hle : m.m_len ≤ count
      · have hpos : 0 ≤ m.m_len := Int.natCast_nonneg _
        rw [min_eq_left hle, max_eq_right hpos]
      · have hpage : (0 : ℤ) < MCLBYTES := by decide
        exact iff_of_true (swapless_of_lt (by lia)) (swapless_of_lt (by lia))
    | true =>
      refine iff_of_false ?_ (by simp)
      intro heq
      have hpage : (0 : ℤ) < MCLBYTES := by decide
      have hcount := le_m_movtoc ms (dst + min m.m_len count)
        (count - (min m.m_len count - MCLBYTES))
      rw [Movtoc, m_movtoc_swap ms h] at heq
      obtain ⟨h1, h2⟩ := Prod.mk.inj heq
      rw [← h1, length_append, Nat.cast_add, hlength] at h2
      lia

/-- **When both functions do what they should.** -/
theorem cpytoc_movtoc_iff (m : mbuf) (mp : List mbuf) (off len : ℕ) (ms : List clmbuf)
    (dst count : ℤ) :
    Cpytoc (m :: mp) off len ∧ Movtoc ms dst count ↔
      Cuts (m :: mp) off len ∧ Swapless ms dst count :=
  and_congr (cpytoc_iff m mp off len) (movtoc_iff ms dst count)

/-- A page that can be exchanged. -/
def pagebuf : clmbuf := ⟨⟨4096, 4096, 1, [], List.replicate 1024 0⟩, 2, 0, some fun _ _ _ => true⟩

/-- Of a byte and two more, the first two are copied as three; and a page moved by an exchange
is not counted. -/
theorem not_cpytoc_not_movtoc :
    ¬ Cpytoc [⟨0, 12, 1, [], [1]⟩, ⟨128, 12, 1, [], [2, 3]⟩] 0 2 ∧
      ¬ Movtoc [pagebuf] 16384 1024 := by
  refine ⟨by decide, fun h => ?_⟩
  have hswap := (movtoc_iff _ _ _).mp h [] pagebuf [] rfl
  have hlen : pagebuf.m_len = 1024 := by
    show ((List.replicate 1024 (0 : UInt8)).length : ℤ) = 1024
    rw [length_replicate]
    rfl
  rw [hlen] at hswap
  exact absurd hswap (by decide)

end Mbuf
