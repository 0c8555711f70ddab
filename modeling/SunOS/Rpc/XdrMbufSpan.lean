/-
# The blocks a call goes over

A call on a chain of mbufs goes over blocks of one mbuf after the other.  Which ones,
and where the stream then stands, does not depend on what is in them: `span` has it
for the calls for bytes, `nextLong` for those for a long.
-/
import SunOS.Rpc.XdrHandy

namespace Xdr

open List
open Bytes

/-- Where an `xdrmbuf` stream stands. -/
structure Place where
  x_base : List Mbuf
  x_private : ℕ
  x_handy : ℤ

/-- The place of a stream. -/
def Xdrmbuf.place (s : Xdrmbuf) : Place := ⟨s.x_base, s.x_private, s.x_handy⟩

/-- The stream that stands at a place. -/
def Place.stream (p : Place) (mem : ℕ → UInt8) : Xdrmbuf := ⟨mem, p.x_base, p.x_private, p.x_handy⟩

/-- The data of an mbuf. -/
def Mbuf.block (m : Mbuf) : ℕ × ℕ := (m.mtod, m.m_len)

/-- The blocks that are left of the current mbuf. -/
def leftOver (addr : ℕ) (handy : ℤ) : List (ℕ × ℕ) :=
  if handy > 0 then [(addr, handy.toNat)] else []

/-- What a call for `len` bytes does: whether it succeeds, the blocks it goes over and the
place it ends at.  The mbufs are those behind the current one. -/
def span : List Mbuf → Place → ℕ → Bool × List (ℕ × ℕ) × Place
  | m_next, p, len =>
    if int32 (p.x_handy - len) < 0 then
      let handy := int32 (int32 (p.x_handy - len) + len)
      match m_next with
      | [] => (false, leftOver p.x_private handy, ⟨[], p.x_private, handy⟩)
      | m :: ms =>
        let r := span ms ⟨m :: ms, m.mtod, m.m_len⟩ (if handy > 0 then len - handy.toNat else len)
        (r.1, leftOver p.x_private handy ++ r.2.1, r.2.2)
    else (true, [(p.x_private, len)], ⟨p.x_base, p.x_private + len, int32 (p.x_handy - len)⟩)

/-- What a call for a long does: the address of the long, and the place it ends at. -/
def nextLong (p : Place) : Option ℕ × Place :=
  if int32 (p.x_handy - 4) < 0 then
    match p.x_base with
    | _ :: m :: ms => (some m.mtod, ⟨m :: ms, m.mtod + 4, m.m_len - 4⟩)
    | _ => (none, ⟨[], p.x_private, int32 (p.x_handy - 4)⟩)
  else (some p.x_private, ⟨p.x_base, p.x_private + 4, int32 (p.x_handy - 4)⟩)

/-! ## The calls -/

section
variable {ms : List Mbuf} {b m : Mbuf} {len : ℕ} {p : Place}

theorem span_of_enough (h : ¬ int32 (p.x_handy - len) < 0) :
    span ms p len =
      (true, [(p.x_private, len)], ⟨p.x_base, p.x_private + len, int32 (p.x_handy - len)⟩) := by
  rw [span, if_neg h]

theorem span_of_none (h : int32 (p.x_handy - len) < 0) :
    span [] p len = (false, leftOver p.x_private (int32 (int32 (p.x_handy - len) + len)),
      ⟨[], p.x_private, int32 (int32 (p.x_handy - len) + len)⟩) := by
  rw [span, if_pos h]

theorem span_of_next (h : int32 (p.x_handy - len) < 0) {handy : ℤ}
    (hhandy : int32 (int32 (p.x_handy - len) + len) = handy) {r : Bool × List (ℕ × ℕ) × Place}
    (hr : span ms ⟨m :: ms, m.mtod, m.m_len⟩ (if handy > 0 then len - handy.toNat else len) = r) :
    span (m :: ms) p len = (r.1, leftOver p.x_private handy ++ r.2.1, r.2.2) := by
  rw [span, if_pos h, hhandy]
  simp only [hr]

theorem nextLong_of_enough (h : ¬ int32 (p.x_handy - 4) < 0) :
    nextLong p = (some p.x_private, ⟨p.x_base, p.x_private + 4, int32 (p.x_handy - 4)⟩) := by
  rw [nextLong, if_neg h]

theorem nextLong_of_none (h : int32 (p.x_handy - 4) < 0) (hbase : p.x_base.tail = []) :
    nextLong p = (none, ⟨[], p.x_private, int32 (p.x_handy - 4)⟩) := by
  rw [nextLong, if_pos h]
  rcases hb : p.x_base with - | ⟨b, - | ⟨m, ms⟩⟩
  · rfl
  · rfl
  · rw [hb] at hbase
    exact absurd hbase (cons_ne_nil m ms)

theorem nextLong_of_next (h : int32 (p.x_handy - 4) < 0) (hbase : p.x_base = b :: m :: ms) :
    nextLong p = (some m.mtod, ⟨m :: ms, m.mtod + 4, m.m_len - 4⟩) := by
  rw [nextLong, if_pos h, hbase]

end

theorem xdrmbuf_getlong_eq (s : Xdrmbuf) :
    xdrmbuf_getlong s = ((nextLong s.place).1.map fun a => ntohl (load s.mem a 4),
      (nextLong s.place).2.stream s.mem) := by
  by_cases hneg : int32 (s.x_handy - 4) < 0
  · rcases hb : s.x_base with - | ⟨b, - | ⟨m, ms⟩⟩
    · rw [nextLong_of_none (p := s.place) hneg (congrArg List.tail hb)]
      simp only [xdrmbuf_getlong, if_pos hneg, hb]
      rfl
    · rw [nextLong_of_none (p := s.place) hneg (congrArg List.tail hb)]
      simp only [xdrmbuf_getlong, if_pos hneg, hb]
      rfl
    · rw [nextLong_of_next (p := s.place) hneg hb]
      simp only [xdrmbuf_getlong, if_pos hneg, hb]
      rfl
  · rw [nextLong_of_enough (p := s.place) hneg]
    simp only [xdrmbuf_getlong, if_neg hneg]
    rfl

theorem xdrmbuf_putlong_eq (lp : UInt32) (s : Xdrmbuf) :
    xdrmbuf_putlong lp s = ((nextLong s.place).1.isSome, (nextLong s.place).2.stream
      ((nextLong s.place).1.elim s.mem fun a => store s.mem a (htonl lp))) := by
  by_cases hneg : int32 (s.x_handy - 4) < 0
  · rcases hb : s.x_base with - | ⟨b, - | ⟨m, ms⟩⟩
    · rw [nextLong_of_none (p := s.place) hneg (congrArg List.tail hb)]
      simp only [xdrmbuf_putlong, if_pos hneg, hb]
      rfl
    · rw [nextLong_of_none (p := s.place) hneg (congrArg List.tail hb)]
      simp only [xdrmbuf_putlong, if_pos hneg, hb]
      rfl
    · rw [nextLong_of_next (p := s.place) hneg hb]
      simp only [xdrmbuf_putlong, if_pos hneg, hb]
      rfl
  · rw [nextLong_of_enough (p := s.place) hneg]
    simp only [xdrmbuf_putlong, if_neg hneg]
    rfl

theorem gather_leftOver (mem : ℕ → UInt8) (addr : ℕ) (handy : ℤ) :
    gather mem (leftOver addr handy) =
      if handy > 0 then load mem addr handy.toNat else [] := by
  rw [leftOver]
  split
  · rw [gather_cons, gather_nil, append_nil]
  · rfl

theorem getbytesLoop_eq_span (ms : List Mbuf) (len : ℕ) (s : Xdrmbuf) :
    xdrmbuf_getbytesLoop ms len s =
      (((span ms s.place len).1, gather s.mem (span ms s.place len).2.1),
        (span ms s.place len).2.2.stream s.mem) := by
  induction ms generalizing len s with
  | nil =>
    rw [xdrmbuf_getbytesLoop]
    by_cases hneg : int32 (s.x_handy - len) < 0
    · rw [span_of_none (p := s.place) hneg, gather_leftOver]
      simp only [if_pos hneg]
      rfl
    · rw [span_of_enough (p := s.place) hneg]
      simp only [if_neg hneg, gather_cons, gather_nil, append_nil]
      rfl
  | cons m ms ih =>
    rw [xdrmbuf_getbytesLoop]
    by_cases hneg : int32 (s.x_handy - len) < 0
    · rw [span_of_next (p := s.place) hneg rfl rfl]
      simp only [if_pos hneg]
      rw [ih, gather_append, gather_leftOver]
      rfl
    · rw [span_of_enough (p := s.place) hneg]
      simp only [if_neg hneg, gather_cons, gather_nil, append_nil]
      rfl

theorem putbytesLoop_eq_span (ms : List Mbuf) (addr : List UInt8) (s : Xdrmbuf) :
    xdrmbuf_putbytesLoop ms addr s =
      ((span ms s.place addr.length).1, (span ms s.place addr.length).2.2.stream
        (scatter s.mem (span ms s.place addr.length).2.1 addr)) := by
  induction ms generalizing addr s with
  | nil =>
    rw [xdrmbuf_putbytesLoop]
    by_cases hneg : int32 (s.x_handy - addr.length) < 0
    · rw [span_of_none (p := s.place) hneg, leftOver]
      simp only [if_pos hneg]
      by_cases hmore : int32 (int32 (s.x_handy - addr.length) + addr.length) > 0
      · rw [if_pos hmore, if_pos (show int32 (int32 (s.place.x_handy - addr.length) + _) > 0
          from hmore)]
        rfl
      · rw [if_neg hmore, if_neg (show ¬ int32 (int32 (s.place.x_handy - addr.length) + _) > 0
          from hmore)]
        rfl
    · rw [span_of_enough (p := s.place) hneg]
      simp only [if_neg hneg, scatter, take_length]
      rfl
  | cons m ms ih =>
    rw [xdrmbuf_putbytesLoop]
    by_cases hneg : int32 (s.x_handy - addr.length) < 0
    · rw [span_of_next (p := s.place) hneg rfl rfl, leftOver]
      simp only [if_pos hneg]
      by_cases hmore : int32 (int32 (s.x_handy - addr.length) + addr.length) > 0
      · rw [if_pos hmore, if_pos hmore, ih, length_drop]
        rw [if_pos (show int32 (int32 (s.place.x_handy - addr.length) + _) > 0 from hmore)]
        rw [if_pos (show int32 (int32 (s.place.x_handy - addr.length) + _) > 0 from hmore)]
        rfl
      · rw [if_neg hmore, if_neg hmore, ih]
        rw [if_neg (show ¬ int32 (int32 (s.place.x_handy - addr.length) + _) > 0 from hmore)]
        rw [if_neg (show ¬ int32 (int32 (s.place.x_handy - addr.length) + _) > 0 from hmore)]
        rfl
    · rw [span_of_enough (p := s.place) hneg]
      simp only [if_neg hneg, scatter, take_length]
      rfl

/-! ## Places in a chain -/

/-- The length of an mbuf is a short. -/
def Shorts (chain : List Mbuf) : Prop := ∀ m ∈ chain, m.m_len < 2 ^ 15

instance (chain : List Mbuf) : Decidable (Shorts chain) :=
  inferInstanceAs (Decidable (∀ m ∈ chain, m.m_len < 2 ^ 15))

/-- The place is in the mbuf `m` of the chain, with `ms` behind it, and a count that is not
negative is right.  There may be no current mbuf any more once a call has failed. -/
structure At (chain : List Mbuf) (m : Mbuf) (ms : List Mbuf) (p : Place) : Prop where
  front : ∃ front, chain = front ++ m :: ms
  base : p.x_base = m :: ms ∨ p.x_base = [] ∧ ms = []
  le : m.mtod ≤ p.x_private
  le_end : p.x_private ≤ m.mtod + m.m_len
  fits : Fits p.x_handy
  handy : 0 ≤ p.x_handy → p.x_handy = m.mtod + m.m_len - p.x_private
  live : p.x_base ≠ [] → 0 ≤ p.x_handy

/-- The bytes from a place on. -/
def rest (mem : ℕ → UInt8) (p : Place) (ms : List Mbuf) : List UInt8 :=
  load mem p.x_private p.x_handy.toNat ++ gather mem (ms.map Mbuf.block)

/-- The data of so many mbufs. -/
def total (ms : List Mbuf) : ℕ := (ms.map Mbuf.m_len).sum

/-- What a call for `len` bytes does from a place: the blocks are in the data of the chain,
it succeeds when there are enough bytes, and then the blocks are the next bytes. -/
structure Spanned (chain ms : List Mbuf) (p : Place) (len : ℕ) (ms' : List Mbuf)
    (r : Bool × List (ℕ × ℕ) × Place) : Prop where
  blocks : ∀ b ∈ r.2.1, ∃ x ∈ chain, x.mtod ≤ b.1 ∧ b.1 + b.2 ≤ x.mtod + x.m_len
  ok_iff : r.1 = true ↔ (len : ℤ) ≤ p.x_handy + total ms
  exact : r.1 = true → 0 ≤ r.2.2.x_handy
  gone : r.1 = false → r.2.2.x_base = []
  data : r.1 = true → ∀ mem, (gather mem r.2.1).length = len ∧
    gather mem r.2.1 ++ rest mem r.2.2 ms' = rest mem p ms

namespace At

variable {chain ms : List Mbuf} {m : Mbuf} {p : Place} {len : ℕ}

theorem mem (h : At chain m ms p) : m ∈ chain := by
  obtain ⟨front, rfl⟩ := h.front
  exact mem_append_right _ mem_cons_self

theorem tail (h : At chain m ms p) : p.x_base.tail = ms := by
  rcases h.base with hb | ⟨hb, rfl⟩
  · rw [hb]
    rfl
  · rw [hb]
    rfl

/-- A count that has gone negative: the chain has been left. -/
theorem of_neg (h : At chain m ms p) (hneg : p.x_handy < 0) : p.x_base = [] ∧ ms = [] := by
  have hbase : p.x_base = [] := by
    by_contra hne
    have := h.live hne
    omega
  exact ⟨hbase, by rw [← h.tail, hbase]; rfl⟩

/-- The blocks of what is left of the current mbuf. -/
theorem leftOver_mem (h : At chain m ms p) {b : ℕ × ℕ} (hb : b ∈ leftOver p.x_private p.x_handy) :
    ∃ x ∈ chain, x.mtod ≤ b.1 ∧ b.1 + b.2 ≤ x.mtod + x.m_len := by
  rw [leftOver] at hb
  split_ifs at hb with hpos
  · rw [mem_singleton] at hb
    have hexact := h.handy (by omega)
    have hle := h.le
    refine ⟨m, h.mem, ?_, ?_⟩
    · rw [hb]
      exact hle
    · rw [hb]
      show p.x_private + p.x_handy.toNat ≤ m.mtod + m.m_len
      omega
  · exact absurd hb not_mem_nil

theorem gather_leftOver_of_nonneg (mem : ℕ → UInt8) (hnn : 0 ≤ p.x_handy) :
    gather mem (leftOver p.x_private p.x_handy) = load mem p.x_private p.x_handy.toNat := by
  rw [gather_leftOver]
  by_cases hpos : p.x_handy > 0
  · rw [if_pos hpos]
  · rw [if_neg hpos, show p.x_handy.toNat = 0 by omega, load_zero]

/-- The bytes are all in the current mbuf. -/
theorem span_here (h : At chain m ms p) (hle : (len : ℤ) ≤ p.x_handy) :
    Spanned chain ms p len ms
        (true, [(p.x_private, len)], ⟨p.x_base, p.x_private + len, p.x_handy - len⟩) ∧
      At chain m ms ⟨p.x_base, p.x_private + len, p.x_handy - len⟩ := by
  have hexact := h.handy (by lia)
  have hlo := h.le
  have hfits := fits_iff.mp h.fits
  refine ⟨⟨?_, ?_, ?_, ?_, ?_⟩, ⟨h.front, h.base, ?_, ?_, ?_, ?_, ?_⟩⟩
  · intro b hb
    rw [mem_singleton] at hb
    refine ⟨m, h.mem, ?_, ?_⟩
    · rw [hb]
      exact hlo
    · rw [hb]
      show p.x_private + len ≤ m.mtod + m.m_len
      lia
  · exact iff_of_true rfl (by lia)
  · intro _
    show 0 ≤ p.x_handy - len
    lia
  · exact fun h => absurd h (by simp)
  · intro _ mem
    refine ⟨by rw [gather_cons, gather_nil, append_nil, length_load], ?_⟩
    have hsplit : p.x_handy.toNat = len + (p.x_handy - len).toNat := by lia
    rw [gather_cons, gather_nil, append_nil, rest, rest, ← append_assoc, hsplit, load_add]
  · show m.mtod ≤ p.x_private + len
    lia
  · show p.x_private + len ≤ m.mtod + m.m_len
    lia
  · rw [fits_iff]
    show -2147483648 ≤ p.x_handy - len ∧ p.x_handy - len ≤ 2147483647
    lia
  · intro _
    show p.x_handy - len = m.mtod + m.m_len - ((p.x_private + len : ℕ) : ℤ)
    lia
  · intro _
    show 0 ≤ p.x_handy - len
    lia

/-- There is no next mbuf, and too few bytes in this one. -/
theorem span_none (h : At chain m [] p) (hlt : p.x_handy < len) :
    Spanned chain [] p len [] (false, leftOver p.x_private p.x_handy,
      ⟨[], p.x_private, p.x_handy⟩) ∧
      At chain m [] ⟨[], p.x_private, p.x_handy⟩ := by
  refine ⟨⟨fun b hb => h.leftOver_mem hb, ?_, ?_, fun _ => rfl, ?_⟩,
    ⟨h.front, .inr ⟨rfl, rfl⟩, h.le, h.le_end, h.fits, h.handy, fun h => absurd rfl h⟩⟩
  · refine iff_of_false (by simp) ?_
    rw [total, map_nil, sum_nil]
    omega
  · exact fun h => absurd h (by simp)
  · exact fun h => absurd h (by simp)

/-- The place at the beginning of the next mbuf. -/
theorem next {x : Mbuf} {xs : List Mbuf} (h : At chain m (x :: xs) p) (hs : Shorts chain) :
    At chain x xs ⟨x :: xs, x.mtod, x.m_len⟩ := by
  obtain ⟨front, hchain⟩ := h.front
  have hmem : x ∈ chain := by
    rw [hchain]
    simp
  have hshort := hs x hmem
  refine ⟨⟨front ++ [m], by rw [hchain]; simp⟩, .inl rfl, le_refl _, Nat.le_add_right _ _,
    ?_, ?_, ?_⟩
  · rw [fits_iff]
    show -2147483648 ≤ (x.m_len : ℤ) ∧ (x.m_len : ℤ) ≤ 2147483647
    omega
  · intro _
    show (x.m_len : ℤ) = x.mtod + x.m_len - x.mtod
    omega
  · intro _
    exact Int.natCast_nonneg _

/-- **The blocks a call goes over**, while its length does not wrap the count around. -/
theorem span (h : At chain m ms p) (hs : Shorts chain) (hlen : len < 2 ^ 32)
    (hw : ¬ Wraps p.x_handy len) :
    ∃ m' ms', Spanned chain ms p len ms' (Xdr.span ms p len) ∧
      At chain m' ms' (Xdr.span ms p len).2.2 := by
  induction ms generalizing m p len with
  | nil =>
    rcases int32_sub_of_not_wraps h.fits hlen hw with ⟨hneg, hlt⟩ | ⟨heq, hle⟩
    · have hback : int32 (int32 (p.x_handy - len) + len) = p.x_handy := by
        rw [int32_int32_add, Int.sub_add_cancel, int32_of_fits h.fits]
      rw [span_of_none hneg, hback]
      exact ⟨m, [], h.span_none hlt⟩
    · rw [span_of_enough (by lia), heq]
      exact ⟨m, [], h.span_here hle⟩
  | cons x xs ih =>
    rcases int32_sub_of_not_wraps h.fits hlen hw with ⟨hneg, hlt⟩ | ⟨heq, hle⟩
    · have hback : int32 (int32 (p.x_handy - len) + len) = p.x_handy := by
        rw [int32_int32_add, Int.sub_add_cancel, int32_of_fits h.fits]
      have hnn : 0 ≤ p.x_handy := by
        by_contra hneg'
        exact absurd (h.of_neg (by lia)).2 (cons_ne_nil x xs)
      have hnext := h.next hs
      have hlen' : (if p.x_handy > 0 then len - p.x_handy.toNat else len) =
        len - p.x_handy.toNat := by
        split_ifs
        · rfl
        · lia
      have hfar : ¬ Wraps x.m_len (len - p.x_handy.toNat) := by
        unfold Wraps at hw ⊢
        lia
      have hshort : len - p.x_handy.toNat < 2 ^ 32 := by lia
      obtain ⟨m', ms', hspan, hat⟩ := ih hnext hshort hfar
      rw [span_of_next hneg hback (by rw [hlen'])]
      refine ⟨m', ms', ⟨?_, ?_, hspan.exact, hspan.gone, ?_⟩, hat⟩
      · intro b hb
        rcases List.mem_append.mp hb with hb | hb
        · exact h.leftOver_mem hb
        · exact hspan.blocks b hb
      · refine hspan.ok_iff.trans ?_
        show ((len - p.x_handy.toNat : ℕ) : ℤ) ≤ x.m_len + total xs ↔ _
        rw [total, total, map_cons, sum_cons]
        lia
      · intro hok mem
        obtain ⟨hcount, hdata⟩ := hspan.data hok mem
        refine ⟨?_, ?_⟩
        · rw [gather_append, length_append, hcount, gather_leftOver_of_nonneg mem hnn, length_load]
          lia
        · rw [gather_append, append_assoc, hdata, gather_leftOver_of_nonneg mem hnn, rest, rest]
          rfl
    · rw [span_of_enough (by lia), heq]
      exact ⟨m, x :: xs, h.span_here hle⟩

/-- **The long a call takes**, while four bytes do not wrap the count around and a long is
not looked for in an mbuf that has none. -/
theorem nextLong (h : At chain m ms p) (hs : Shorts chain) (hw : ¬ Wraps p.x_handy 4)
    (hroom : p.x_handy < 4 → ∀ x ∈ ms.head?, 4 ≤ x.m_len) :
    (∃ a m' ms', (Xdr.nextLong p).1 = some a ∧ At chain m' ms' (Xdr.nextLong p).2 ∧
      (∃ x ∈ chain, x.mtod ≤ a ∧ a + 4 ≤ x.mtod + x.m_len) ∧ 4 ≤ p.x_handy + total ms ∧
      0 ≤ (Xdr.nextLong p).2.x_handy ∧ (4 ≤ p.x_handy ∨ p.x_handy = 0 → ∀ mem,
        load mem a 4 ++ rest mem (Xdr.nextLong p).2 ms' = rest mem p ms)) ∨
    (Xdr.nextLong p).1 = none ∧ At chain m ms (Xdr.nextLong p).2 ∧
      (Xdr.nextLong p).2.x_base = [] ∧ p.x_handy < 4 ∧ ms = [] := by
  rcases int32_sub_of_not_wraps h.fits (by lia) hw with ⟨hneg, hlt⟩ | ⟨heq, hle⟩
  · replace hneg : int32 (p.x_handy - 4) < 0 := hneg
    replace hlt : p.x_handy < 4 := hlt
    rcases ms with - | ⟨x, xs⟩
    · right
      rw [nextLong_of_none hneg h.tail]
      refine ⟨rfl, ⟨h.front, .inr ⟨rfl, rfl⟩, h.le, h.le_end, fits_int32 _, ?_, fun h =>
        absurd rfl h⟩,
        rfl, hlt, rfl⟩
      intro hpos
      exact absurd hneg (not_lt.mpr hpos)
    · left
      have hbase : p.x_base = m :: x :: xs := by
        rcases h.base with hb | ⟨-, hnil⟩
        · exact hb
        · exact absurd hnil (cons_ne_nil x xs)
      have hnn : 0 ≤ p.x_handy := h.live (by rw [hbase]; simp)
      have hx : 4 ≤ x.m_len := hroom hlt x (by simp)
      have hnext := h.next hs
      have hfits : -2147483648 ≤ (x.m_len : ℤ) ∧ (x.m_len : ℤ) ≤ 2147483647 := hnext.fits
      rw [nextLong_of_next hneg hbase]
      refine ⟨x.mtod, x, xs, rfl, ⟨hnext.front, .inl rfl, Nat.le_add_right _ _, ?_, ?_, ?_, ?_⟩,
        ⟨x, hnext.mem, le_refl _, ?_⟩, ?_, ?_, ?_⟩
      · show x.mtod + 4 ≤ x.mtod + x.m_len
        lia
      · rw [fits_iff]
        show -2147483648 ≤ (x.m_len : ℤ) - 4 ∧ (x.m_len : ℤ) - 4 ≤ 2147483647
        lia
      · intro _
        show (x.m_len : ℤ) - 4 = x.mtod + x.m_len - ((x.mtod + 4 : ℕ) : ℤ)
        lia
      · intro _
        show 0 ≤ (x.m_len : ℤ) - 4
        lia
      · lia
      · rw [total, map_cons, sum_cons]
        lia
      · show 0 ≤ (x.m_len : ℤ) - 4
        lia
      · intro hexact mem
        have hzero : p.x_handy.toNat = 0 := by lia
        have hsplit : x.m_len = 4 + ((x.m_len : ℤ) - 4).toNat := by lia
        rw [rest, rest, hzero, load_zero, nil_append, map_cons, gather_cons, Mbuf.block,
          ← append_assoc]
        conv_rhs => rw [hsplit, load_add]
  · replace heq : int32 (p.x_handy - 4) = p.x_handy - 4 := heq
    replace hle : 4 ≤ p.x_handy := hle
    left
    obtain ⟨hspan, hat⟩ := h.span_here (show ((4 : ℕ) : ℤ) ≤ p.x_handy from hle)
    rw [nextLong_of_enough (by lia), heq]
    refine ⟨p.x_private, m, ms, rfl, hat, hspan.blocks _ mem_cons_self, by lia, hspan.exact rfl, ?_⟩
    intro _ mem
    have hdata := (hspan.data rfl mem).2
    exact hdata

end At

end Xdr
