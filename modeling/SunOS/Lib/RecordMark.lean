/-
# Record marking

A stream of bytes carries records.  A record is cut into fragments, each behind
a header of four bytes: the number of its bytes in the low order 31 bits, and a
high order bit that says whether it is the last of its record.  `Reader` is what
a reader of such a stream is for: it sees the bytes of one record at a time,
however they were cut.
-/
import SunOS.Lib.Bytes
import Mathlib.Data.Nat.Bitwise

namespace RecordMark

open Bytes

/-- The high order bit of a header. -/
def LAST_FRAG : UInt32 := 0x80000000

/-- The header of a fragment of `n` bytes. -/
def header (last : Bool) (n : ℕ) : UInt32 :=
  if last then UInt32.ofNat n ||| LAST_FRAG else UInt32.ofNat n

/-- A fragment: its header and its bytes. -/
def frag (last : Bool) (d : List UInt8) : List UInt8 := htonl (header last d.length) ++ d

/-- A record: the fragments that are not its last one, and the last one. -/
abbrev Rec := List (List UInt8) × List UInt8

/-- The fragments of a record that are not its last one. -/
def encodeOpen (ds : List (List UInt8)) : List UInt8 := ds.flatMap (frag false)

/-- A record on the stream. -/
def encode (r : Rec) : List UInt8 := encodeOpen r.1 ++ frag true r.2

/-- The bytes of a record. -/
def Rec.bytes (r : Rec) : List UInt8 := r.1.flatten ++ r.2

/-- The length of every fragment fits in a header. -/
def Rec.Fits (r : Rec) : Prop := (∀ d ∈ r.1, d.length < 2 ^ 31) ∧ r.2.length < 2 ^ 31

/-! ## Headers -/

variable {last : Bool} {n : ℕ}

theorem header_toNat (h : n < 2 ^ 31) :
    (header last n).toNat = (if last then 2 ^ 31 else 0) + n := by
  have hn : (UInt32.ofNat n).toNat = n := by
    rw [UInt32.toNat_ofNat']
    omega
  cases last with
  | false => simpa [header] using hn
  | true =>
    have hor := Nat.two_pow_add_eq_or_of_lt h 1
    rw [Nat.mul_one, Nat.or_comm] at hor
    rw [header, if_pos rfl, UInt32.toNat_or, hn, if_pos rfl, hor]
    rfl

/-- A header gives the length of its fragment. -/
theorem header_len (h : n < 2 ^ 31) : (header last n &&& ~~~LAST_FRAG).toNat = n := by
  have hmask : (~~~LAST_FRAG).toNat = 2 ^ 31 - 1 := by decide
  rw [UInt32.toNat_and, hmask, Nat.and_two_pow_sub_one_eq_mod, header_toNat h]
  cases last <;> simp <;> omega

/-- A header says whether its fragment is the last one. -/
theorem header_last (h : n < 2 ^ 31) : header last n &&& LAST_FRAG = 0 ↔ last = false := by
  have hlast : LAST_FRAG.toNat = 2 ^ 31 := by decide
  have hbit : (header last n).toNat.testBit 31 = last := by
    rw [header_toNat h]
    cases last with
    | false => simpa using Nat.testBit_lt_two_pow h
    | true => rw [if_pos rfl, Nat.testBit_two_pow_add_eq, Nat.testBit_lt_two_pow h, Bool.not_false]
  rw [← UInt32.toNat_inj, UInt32.toNat_and, hlast, Nat.and_two_pow, hbit]
  cases last <;> decide

/-! ## What a reader sees -/

/-- A reader of the records: what is left of the one it is in, and the records after
it; `none` once it has skipped past the last. -/
abbrev Reader := Option (List UInt8 × List (List UInt8))

/-- Before the first record. -/
def Reader.start (recs : List (List UInt8)) : Reader := some ([], recs)

/-- Get `n` bytes of the current record.  A get beyond its end fails and leaves the
reader there. -/
def Reader.get (n : ℕ) : Reader → Option (List UInt8) × Reader
  | some (cur, recs) =>
    if n ≤ cur.length then (some (cur.take n), some (cur.drop n, recs)) else (none, some ([], recs))
  | none => if n = 0 then (some [], none) else (none, none)

/-- Go to the next record, from wherever in the current one. -/
def Reader.skip : Reader → Bool × Reader
  | some (_, r :: recs) => (true, some (r, recs))
  | some (_, []) => (true, none)
  | none => (false, none)

end RecordMark
