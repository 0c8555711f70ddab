/-
# Memory buffers (`sys/uipc_mbuf.c`)

A packet is a chain of mbufs.  Each holds `m_len` bytes from the offset `m_off` on;
the bytes in front of them stay where they are when a header is dropped, and can be
had back by moving `m_off` down again.
-/
import Mathlib.Data.Int.Order.Basic
import Mathlib.Data.List.TakeWhile
import Mathlib.Data.Multiset.AddSub

namespace Mbuf

open List

def MMINOFF : ℤ := 12

def MMAXOFF : ℤ := 124

def MLEN : ℤ := 112

/-- An mbuf: its address, the offset of its data, its type, the bytes in front of the
data, the nearest first, and the data. -/
structure mbuf where
  addr : ℕ
  m_off : ℤ
  m_type : ℤ
  front : List UInt8
  dat : List UInt8
  deriving DecidableEq, Repr

def mbuf.m_len (m : mbuf) : ℤ := m.dat.length

/-- The bytes of a chain. -/
def contents (mp : List mbuf) : List UInt8 := (mp.map mbuf.dat).flatten

@[simp] theorem contents_nil : contents [] = [] := rfl

@[simp] theorem contents_cons (m : mbuf) (mp : List mbuf) :
    contents (m :: mp) = m.dat ++ contents mp := rfl

@[simp] theorem contents_append (mp np : List mbuf) :
    contents (mp ++ np) = contents mp ++ contents np := by
  simp [contents]

/-- `m->m_off += len; m->m_len -= len`. -/
def mbuf.advance (m : mbuf) (len : ℕ) : mbuf :=
  { m with
    m_off := m.m_off + len
    front := (m.dat.take len).reverse ++ m.front
    dat := m.dat.drop len }

/-- `m->m_off -= len; m->m_len += len`. -/
def mbuf.retreat (m : mbuf) (len : ℕ) : mbuf :=
  { m with
    m_off := m.m_off - len
    front := m.front.drop len
    dat := (m.front.take len).reverse ++ m.dat }

/-- The mbufs of a chain. -/
def addrs (mp : List mbuf) : Multiset ℕ := mp.map mbuf.addr

@[simp] theorem addrs_nil : addrs [] = 0 := rfl

@[simp] theorem addrs_cons (m : mbuf) (mp : List mbuf) :
    addrs (m :: mp) = m.addr ::ₘ addrs mp := rfl

@[simp] theorem addrs_append (mp np : List mbuf) : addrs (mp ++ np) = addrs mp + addrs np := by
  simp [addrs]

/-! ## m_adj -/

/-- `m_adj(mp, len)` for `len >= 0`: bytes are shaved off the front of the chain. -/
def m_adj_front : ℕ → List mbuf → List mbuf
  | _, [] => []
  | 0, m :: mp => m :: mp
  | len + 1, m :: mp =>
    if m.dat.length ≤ len + 1 then { m with dat := [] } :: m_adj_front (len + 1 - m.dat.length) mp
    else m.advance (len + 1) :: mp

/-- Bytes are shaved off the back of a chain given from its back. -/
def shaveBack : ℕ → List mbuf → List mbuf
  | _, [] => []
  | 0, m :: mp => m :: mp
  | len + 1, m :: mp =>
    if m.dat.length ≤ len + 1 then { m with dat := [] } :: shaveBack (len + 1 - m.dat.length) mp
    else { m with dat := m.dat.take (m.dat.length - (len + 1)) } :: mp

/-- `m_adj(mp, -len)`, from back to front; the walk to the back ends at the first mbuf
without data. -/
def m_adj_back (len : ℕ) (mp : List mbuf) : List mbuf :=
  (shaveBack len (mp.takeWhile fun m => m.dat ≠ []).reverse).reverse ++
    mp.dropWhile fun m => m.dat ≠ []

/-- `m_adj(mp, len)`. -/
def m_adj (mp : List mbuf) (len : ℤ) : List mbuf :=
  if len ≥ 0 then m_adj_front len.toNat mp else m_adj_back (-len).toNat mp

theorem contents_m_adj_front (len : ℕ) (mp : List mbuf) :
    contents (m_adj_front len mp) = (contents mp).drop len := by
  induction mp generalizing len with
  | nil => cases len <;> simp [m_adj_front]
  | cons m mp ih =>
    cases len with
    | zero => simp [m_adj_front]
    | succ len =>
      rw [m_adj_front]
      by_cases h : m.dat.length ≤ len + 1
      · rw [if_pos h, contents_cons, contents_cons, ih, nil_append, drop_append,
          drop_of_length_le h, nil_append]
      · rw [if_neg h, contents_cons, contents_cons, drop_append_of_le_length (by omega)]
        rfl

/-- **`m_adj` with `len >= 0`** drops the first bytes of the chain. -/
theorem contents_m_adj {len : ℤ} (h : 0 ≤ len) (mp : List mbuf) :
    contents (m_adj mp len) = (contents mp).drop len.toNat := by
  rw [m_adj, if_pos h, contents_m_adj_front]

/-- No mbuf is lost. -/
theorem addrs_m_adj_front (len : ℕ) (mp : List mbuf) : addrs (m_adj_front len mp) = addrs mp := by
  induction mp generalizing len with
  | nil => cases len <;> rfl
  | cons m mp ih =>
    cases len with
    | zero => rfl
    | succ len =>
      rw [m_adj_front]
      by_cases h : m.dat.length ≤ len + 1
      · rw [if_pos h, addrs_cons, addrs_cons, ih]
      · rw [if_neg h, addrs_cons, addrs_cons]
        rfl

theorem addrs_shaveBack (len : ℕ) (mp : List mbuf) : addrs (shaveBack len mp) = addrs mp := by
  induction mp generalizing len with
  | nil => cases len <;> rfl
  | cons m mp ih =>
    cases len with
    | zero => rfl
    | succ len =>
      rw [shaveBack]
      by_cases h : m.dat.length ≤ len + 1
      · rw [if_pos h, addrs_cons, addrs_cons, ih]
      · rw [if_neg h, addrs_cons, addrs_cons]

theorem addrs_m_adj (mp : List mbuf) (len : ℤ) : addrs (m_adj mp len) = addrs mp := by
  have hrev : ∀ l : List mbuf, addrs l.reverse = addrs l := by
    intro l
    rw [addrs, map_reverse, Multiset.coe_reverse, addrs]
  rw [m_adj]
  by_cases h : len ≥ 0
  · rw [if_pos h, addrs_m_adj_front]
  · rw [if_neg h, m_adj_back, addrs_append, hrev, addrs_shaveBack, hrev, ← addrs_append,
      takeWhile_append_dropWhile]

/-! ## m_cat -/

/-- The chain `n` is appended to the mbuf `m`; "where possible, compaction is performed".
Also the mbufs freed. -/
def m_splat (m : mbuf) : List mbuf → List mbuf × List ℕ
  | [] => ([m], [])
  | n :: ns =>
    if m.m_off ≥ MMAXOFF ∨ m.m_off + m.m_len + n.m_len > MMAXOFF then (m :: n :: ns, [])
    else
      let r := m_splat { m with dat := m.dat ++ n.dat } ns
      (r.1, n.addr :: r.2)

/-- `m_cat(m, n)`, and the mbufs freed. -/
def m_cat : List mbuf → List mbuf → List mbuf × List ℕ
  | [], n => (n, [])
  | [m], n => m_splat m n
  | m :: m' :: ms, n =>
    let r := m_cat (m' :: ms) n
    (m :: r.1, r.2)

theorem m_splat_spec (m : mbuf) (n : List mbuf) :
    contents (m_splat m n).1 = m.dat ++ contents n ∧
      addrs (m_splat m n).1 + ((m_splat m n).2 : Multiset ℕ) = m.addr ::ₘ addrs n ∧
      ∃ dat rest, (m_splat m n).1 = { m with dat := m.dat ++ dat } :: rest := by
  induction n generalizing m with
  | nil => exact ⟨by simp [m_splat], by simp [m_splat], [], [], by simp [m_splat]⟩
  | cons n ns ih =>
    rw [m_splat]
    by_cases h : m.m_off ≥ MMAXOFF ∨ m.m_off + m.m_len + n.m_len > MMAXOFF
    · rw [if_pos h]
      exact ⟨rfl, by simp, [], n :: ns, by simp⟩
    · rw [if_neg h]
      obtain ⟨hcont, haddr, dat, rest, heq⟩ := ih { m with dat := m.dat ++ n.dat }
      refine ⟨?_, ?_, n.dat ++ dat, rest, ?_⟩
      · rw [hcont, contents_cons, append_assoc]
      · rw [← Multiset.cons_coe, Multiset.add_cons, haddr, addrs_cons, Multiset.cons_swap]
      · simp only [heq, append_assoc]

/-- **`m_cat`** puts the bytes one after the other; each mbuf is in the chain or freed;
the first mbuf stays the first, with the bytes in front of its data. -/
theorem m_cat_spec (m : mbuf) (ms n : List mbuf) :
    contents (m_cat (m :: ms) n).1 = contents (m :: ms) ++ contents n ∧
      addrs (m_cat (m :: ms) n).1 + ((m_cat (m :: ms) n).2 : Multiset ℕ) =
        addrs (m :: ms) + addrs n ∧
      ∃ dat rest, (m_cat (m :: ms) n).1 = { m with dat := dat } :: rest := by
  induction ms generalizing m with
  | nil =>
    obtain ⟨hcont, haddr, dat, rest, heq⟩ := m_splat_spec m n
    refine ⟨?_, ?_, _, rest, heq⟩
    · rw [m_cat, hcont, contents_cons, contents_nil, append_nil]
    · rw [m_cat, haddr, addrs_cons, addrs_nil, Multiset.cons_add, Multiset.zero_add]
  | cons m' ms ih =>
    obtain ⟨hcont, haddr, -⟩ := ih m'
    rw [m_cat]
    refine ⟨?_, ?_, m.dat, _, rfl⟩
    · rw [contents_cons, hcont, contents_cons m, append_assoc]
    · rw [addrs_cons, Multiset.cons_add, haddr, addrs_cons m, Multiset.cons_add]

theorem addrs_m_cat (m n : List mbuf) :
    addrs (m_cat m n).1 + ((m_cat m n).2 : Multiset ℕ) = addrs m + addrs n := by
  cases m with
  | nil => simp [m_cat]
  | cons m ms => exact (m_cat_spec m ms n).2.1

end Mbuf

/-! # What `m_adj` leaves (`sys/uipc_mbuf.c`)

Bytes shaved off the front are the first of the chain, wherever its empty mbufs are.
From the back the walk ends at the first empty mbuf, so that the bytes shaved off are
the last of those in front of it.
-/

namespace Mbuf

open List

/-! ## From the back -/

/-- What is left of a chain given from its back. -/
theorem contents_shaveBack (len : ℕ) (r : List mbuf) :
    contents (shaveBack len r).reverse =
      (contents r.reverse).take ((contents r.reverse).length - len) := by
  induction r generalizing len with
  | nil => simp [shaveBack]
  | cons m r ih =>
    cases len with
    | zero => rw [shaveBack, Nat.sub_zero, take_length]
    | succ len =>
      have htotal : (contents (m :: r).reverse).length =
          (contents r.reverse).length + m.dat.length := by simp
      rw [shaveBack]
      by_cases h : m.dat.length ≤ len + 1
      · rw [if_pos h, reverse_cons, contents_append, ih, htotal, reverse_cons,
          contents_append, take_append_of_le_length (by lia), contents_cons, contents_nil,
          append_nil, append_nil]
        congr 1
        lia
      · rw [if_neg h, reverse_cons, contents_append, htotal, reverse_cons,
          contents_append, contents_cons, contents_cons, contents_nil, append_nil,
          append_nil, take_append,
          take_of_length_le (l := contents r.reverse) (by lia),
          show (contents r.reverse).length + m.dat.length - (len + 1) -
            (contents r.reverse).length =
            m.dat.length - (len + 1) by lia]

/-- The bytes in front of the first empty mbuf. -/
def reached (mp : List mbuf) : List UInt8 := contents (mp.takeWhile fun m => m.dat ≠ [])

/-- The bytes behind it. -/
def behind (mp : List mbuf) : List UInt8 := contents (mp.dropWhile fun m => m.dat ≠ [])

theorem reached_append_behind (mp : List mbuf) : reached mp ++ behind mp = contents mp := by
  rw [reached, behind, ← contents_append, takeWhile_append_dropWhile]

/-- **`m_adj` with `len < 0`** drops the last of the bytes in front of the first empty mbuf. -/
theorem contents_m_adj_back (len : ℕ) (mp : List mbuf) :
    contents (m_adj_back len mp) = (reached mp).take ((reached mp).length - len) ++ behind mp := by
  rw [m_adj_back, contents_append, contents_shaveBack, reverse_reverse, reached, behind]

/-- `m_adj(mp, -len)`. -/
theorem contents_m_adj_neg (len : ℕ) (mp : List mbuf) :
    contents (m_adj mp (-len)) = (reached mp).take ((reached mp).length - len) ++ behind mp := by
  cases len with
  | zero =>
    rw [Nat.sub_zero, take_length, reached_append_behind, contents_m_adj (by omega)]
    simp
  | succ len =>
    rw [m_adj, if_neg (by omega), ← contents_m_adj_back]
    congr 1

/-! ## All of the chain -/

/-- No bytes are behind an empty mbuf, or those that are, `B`, are taken for the last `len`
bytes `A` in front of it: there are so many, and `A ++ B` begins with `B`. -/
def Reaches (mp : List mbuf) (len : ℕ) : Prop :=
  behind mp = [] ∨ len ≤ (reached mp).length ∧
    behind mp <+: (reached mp).drop ((reached mp).length - len) ++ behind mp

instance (mp : List mbuf) (len : ℕ) : Decidable (Reaches mp len) :=
  inferInstanceAs (Decidable (_ ∨ _ ∧ _))

/-- Cutting the middle out of `A ++ B` is cutting its end off when `B` is in the way. -/
theorem take_append_eq_iff {α : Type*} (A B : List α) {n : ℕ} (hn : n ≤ A.length) :
    A.take n ++ B = (A ++ B).take (n + B.length) ↔ B <+: A.drop n ++ B := by
  have hsplit : (A ++ B).take (n + B.length) = A.take n ++ (A.drop n ++ B).take B.length := by
    calc (A ++ B).take (n + B.length)
        = (A.take n ++ (A.drop n ++ B)).take (n + B.length) := by
          rw [← append_assoc, take_append_drop]
      _ = A.take n ++ (A.drop n ++ B).take B.length := by
          rw [take_append, length_take, min_eq_left hn, Nat.add_sub_cancel_left,
            take_of_length_le (by rw [length_take]; omega)]
  rw [hsplit, append_cancel_left_eq, prefix_iff_eq_take]

/-- **When `m_adj(mp, -len)` drops the last bytes of the chain.** -/
theorem contents_m_adj_neg_iff (len : ℕ) (mp : List mbuf) :
    contents (m_adj mp (-len)) = (contents mp).take ((contents mp).length - len) ↔
      Reaches mp len := by
  rw [contents_m_adj_neg, ← reached_append_behind, Reaches]
  generalize reached mp = A
  generalize behind mp = B
  by_cases hB : B = []
  · subst hB
    simp
  · have hpos : 0 < B.length := List.length_pos_iff.mpr hB
    by_cases hlen : len ≤ A.length
    · rw [length_append, show A.length + B.length - len = A.length - len + B.length by omega,
        take_append_eq_iff A B (Nat.sub_le _ _)]
      simp [hB, hlen]
    · constructor
      · intro heq
        have hlength := congrArg List.length heq
        simp only [length_append, length_take] at hlength
        omega
      · rintro (hnil | ⟨hle, -⟩)
        · exact absurd hnil hB
        · exact absurd hle hlen

/-- What `m_adj(mp, k)` and `m_adj(mp, -k)` should leave of the bytes of the chain. -/
def Adjusts (mp : List mbuf) (k : ℕ) : Prop :=
  let total := (contents mp).length
  contents (m_adj mp k) = (contents mp).drop (min k total) ∧
    contents (m_adj mp (-k)) = (contents mp).take (total - min k total)

instance (mp : List mbuf) (k : ℕ) : Decidable (Adjusts mp k) :=
  inferInstanceAs (Decidable (_ ∧ _))

/-- **`m_adj` leaves the bytes it should** exactly when no empty mbuf is in its way from the
back. -/
theorem adjusts_iff_reaches (mp : List mbuf) (k : ℕ) : Adjusts mp k ↔ Reaches mp k := by
  have hdrop : (contents mp).drop (min k (contents mp).length) = (contents mp).drop k := by
    rcases le_total k (contents mp).length with h | h
    · rw [min_eq_left h]
    · rw [min_eq_right h, drop_length, drop_of_length_le h]
  have htotal : (contents mp).length - min k (contents mp).length = (contents mp).length - k := by
    omega
  rw [Adjusts, hdrop, htotal, contents_m_adj (Int.natCast_nonneg k), Int.toNat_natCast,
    contents_m_adj_neg_iff]
  exact and_iff_right rfl

/-- A byte, an empty mbuf, and another byte: `m_adj(mp, -1)` drops the first. -/
theorem not_adjusts_gap :
    ¬ Adjusts [⟨0, 12, 1, [], [1]⟩, ⟨128, 12, 1, [], []⟩, ⟨256, 12, 1, [], [2]⟩] 1 := by
  decide

end Mbuf

/-! # Pulling up the first bytes of a chain (`m_pullup`, `sys/uipc_mbuf.c`)

The first bytes of a chain are moved to a new mbuf in front of what is left of it.  The bytes of
the chain are what they were.
-/

namespace Mbuf

open List

/-- The loop of `m_pullup`: `len` bytes are still to be had for `m`.  What is left of `len` and
of the chain. -/
def pulluploop : mbuf → ℕ → List mbuf → mbuf × ℕ × List mbuf
  | m, len, [] => (m, len, [])
  | m, len, n :: ns =>
    let count := min (min (MLEN.toNat - m.dat.length) len) n.dat.length
    let m := { m with dat := m.dat ++ n.dat.take count }
    if count < n.dat.length then (m, len - count, n.advance count :: ns)
    else pulluploop m (len - count) ns

/-- `m_pullup(mp, len)`; `free` are the mbufs that `MGET` gives. -/
def m_pullup (free : List ℕ) (mp : List mbuf) (len : ℕ) : Option (List mbuf × List ℕ) :=
  if len > MLEN.toNat then none
  else
    match free, mp with
    | [], _ => none
    | _, [] => none
    | a :: free, n :: ns =>
      let (m, len, n) := pulluploop ⟨a, MMINOFF, n.m_type, [], []⟩ len (n :: ns)
      if len ≠ 0 then none else some (m :: n, free)

/-- The loop keeps the bytes, and moves as many as it says. -/
theorem pulluploop_spec (m : mbuf) (len : ℕ) (mp : List mbuf)
    (hroom : m.dat.length + len ≤ MLEN.toNat) :
    let r := pulluploop m len mp
    r.1.dat ++ contents r.2.2 = m.dat ++ contents mp ∧
      r.1.dat.length + r.2.1 = m.dat.length + len := by
  induction mp generalizing m len with
  | nil => exact ⟨rfl, rfl⟩
  | cons n ns ih =>
    have hcount : min (min (MLEN.toNat - m.dat.length) len) n.dat.length =
        min len n.dat.length := by lia
    simp only [pulluploop, hcount]
    by_cases hlt : min len n.dat.length < n.dat.length
    · rw [if_pos hlt]
      refine ⟨?_, ?_⟩
      · rw [contents_cons, contents_cons, mbuf.advance, append_assoc,
          ← append_assoc (List.take _ _), take_append_drop]
      · simp only [length_append, length_take]
        lia
    · have hall : min len n.dat.length = n.dat.length := by lia
      rw [if_neg hlt, hall, take_length]
      obtain ⟨hbytes, hlen⟩ := ih { m with dat := m.dat ++ n.dat } (len - n.dat.length) (by
        simp only [length_append]
        lia)
      refine ⟨?_, ?_⟩
      · rw [hbytes, contents_cons, append_assoc]
      · rw [hlen]
        simp only [length_append]
        lia

/-- **`m_pullup`** keeps the bytes of the chain, the first `len` in its first mbuf. -/
theorem m_pullup_spec {free free' : List ℕ} {mp r : List mbuf} {len : ℕ}
    (h : m_pullup free mp len = some (r, free')) :
    ∃ m ms, r = m :: ms ∧ contents r = contents mp ∧ len ≤ m.dat.length := by
  unfold m_pullup at h
  by_cases hbig : len > MLEN.toNat
  · rw [if_pos hbig] at h
    cases h
  rw [if_neg hbig] at h
  cases free with
  | nil => cases h
  | cons a free =>
    cases mp with
    | nil => cases h
    | cons n ns =>
      obtain ⟨hbytes, hlen⟩ := pulluploop_spec ⟨a, MMINOFF, n.m_type, [], []⟩ len (n :: ns)
        (by simp; omega)
      simp only [ne_eq, ite_not] at h
      split at h
      · rename_i hzero
        obtain ⟨rfl, -⟩ := Prod.mk.inj (Option.some.inj h)
        refine ⟨_, _, rfl, ?_, ?_⟩
        · rw [contents_cons, hbytes]
          rfl
        · rw [hzero] at hlen
          omega
      · cases h

end Mbuf
