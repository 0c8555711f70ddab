/-
# The storage a decode asks for

`xdr_bytes`, `xdr_string` and `xdr_array` decode into a null pointer by asking
`mem_alloc` for a node first.  Its size is computed in 32 bits from a count that the
stream has given; what is then written to it is not.
-/
import SunOS.Rpc.XdrStreams

namespace Xdr

open Option
open Bytes

/-! ## Requests -/

variable {σ α : Type}

/-- A decode asks `mem_alloc` for `size` bytes: what a request of that size gets, and that alone,
makes a difference to it. -/
def Requests (decode : Allocator → Option (Bool × α × XDR σ)) (size : ℕ) : Prop :=
  ∃ al al' : Allocator, al.contents = al'.contents ∧
    (∀ k n, n ≠ size → al.node k n = al'.node k n) ∧ decode al ≠ decode al'

variable {decode : Allocator → Option (Bool × α × XDR σ)}

theorem not_requests {size : ℕ}
    {r : Option (Bool × α × XDR σ)} (h : ∀ al, decode al = r) : ¬ Requests decode size := by
  rintro ⟨al, al', -, -, hne⟩
  exact hne ((h al).trans (h al').symm)

/-- What fails without a node, and goes on with the node it gets, asks for that node. -/
theorem requests_iff (size : ℕ) (nodesize : UInt32) (xdrs : XDR σ)
    (failed : ℕ → XDR σ → Option (Bool × α × XDR σ))
    (into : (ℕ → UInt8) → ℕ → XDR σ → Option (Bool × α × XDR σ))
    (hcall : ∀ al, decode al =
      if (mem_alloc al nodesize xdrs).1 = 0
      then failed (mem_alloc al nodesize xdrs).1 (mem_alloc al nodesize xdrs).2
      else into al.contents (mem_alloc al nodesize xdrs).1 (mem_alloc al nodesize xdrs).2)
    (hne : ∀ contents x y, failed 0 x ≠ into contents 1 y) :
    Requests decode size ↔ size = nodesize.toNat := by
  constructor
  · rintro ⟨al, al', hcontents, hnode, hdiff⟩
    by_contra hsize
    refine hdiff ?_
    have hsame : mem_alloc al nodesize xdrs = mem_alloc al' nodesize xdrs := by
      unfold mem_alloc
      rw [hnode _ _ (Ne.symm hsize)]
    rw [hcall, hcall, hsame, hcontents]
  · rintro rfl
    let al : Allocator := ⟨fun _ n => if n = nodesize.toNat then 1 else 0, fun _ => 0⟩
    refine ⟨⟨fun _ _ => 0, fun _ => 0⟩, al, rfl, fun k n hn => (if_neg hn).symm, ?_⟩
    have hnode : (mem_alloc al nodesize xdrs).1 = 1 := if_pos rfl
    rw [hcall, hcall al, if_pos (show (mem_alloc _ nodesize xdrs).1 = 0 from rfl), hnode,
      if_neg one_ne_zero]
    exact hne _ _ _

/-! ## The routines -/

section Routines

variable (ops : xdr_ops σ) (sizep maxsize elsize : UInt32) (xdrs : XDR σ) {size : ℕ}

/-- The handle once the count has been got. -/
def counted : XDR σ := { xdrs with x_private := (ops.x_getlong xdrs.x_private).2 }

theorem xdr_long_decode : xdr_long ops .decode sizep xdrs =
    ((ops.x_getlong xdrs.x_private).1.isSome, (ops.x_getlong xdrs.x_private).1.getD sizep,
      counted ops xdrs) := rfl

/-- `xdr_bytes` asks for the count. -/
theorem xdr_bytes_requests_iff (block : List UInt8) :
    Requests (fun al => xdr_bytes ops al .decode 0 block sizep maxsize xdrs) size ↔
      ∃ c, (ops.x_getlong xdrs.x_private).1 = some c ∧ c ≤ maxsize ∧ c ≠ 0 ∧ size = c.toNat := by
  cases hc : (ops.x_getlong xdrs.x_private).1 with
  | none =>
    simp only [xdr_bytes, xdr_long_decode, hc, isSome_none, getD_none]
    exact iff_of_false (not_requests fun _ => rfl) (by simp)
  | some c =>
    simp only [xdr_bytes, xdr_long_decode, hc, isSome_some, getD_some,
      some.injEq, exists_eq_left', ne_eq, reduceCtorEq, not_false_eq_true, and_true]
    by_cases hmax : c > maxsize
    · simp only [if_pos hmax]
      exact iff_of_false (not_requests fun _ => rfl) fun h => UInt32.not_lt.mpr h.1 hmax
    by_cases hzero : c = 0
    · simp only [if_neg hmax, if_pos hzero]
      exact iff_of_false (not_requests fun _ => rfl) fun h => h.2.1 hzero
    · simp only [if_neg hmax, if_neg hzero, if_true]
      have hnode := requests_iff size c (counted ops xdrs)
        (fun sp t => some (false, (sp, block, c), t))
        (fun contents sp t => (xdr_opaqueAt ops .decode sp (load contents sp c.toNat) c t).map
          fun r => (r.1, (sp, r.2.1, c), r.2.2)) (fun _ => rfl)
        (fun contents x y h => by
          obtain ⟨r, -, hr⟩ := Option.map_eq_some_iff.mp h.symm
          exact one_ne_zero (congrArg (·.2.1.1) hr))
      exact hnode.trans ⟨fun h => ⟨UInt32.not_lt.mp hmax, hzero, h⟩, fun h => h.2.2⟩

/-- `xdr_string` asks for the length and a zero, in 32 bits. -/
theorem xdr_string_requests_iff (block : List UInt8) :
    Requests (fun al => xdr_string ops al .decode 0 block maxsize xdrs) size ↔
      ∃ c, (ops.x_getlong xdrs.x_private).1 = some c ∧ c ≤ maxsize ∧ size = (c + 1).toNat := by
  simp only [xdr_string, xdr_long_decode]
  cases hc : (ops.x_getlong xdrs.x_private).1 with
  | none =>
    exact iff_of_false (not_requests fun _ => by simp; rfl) (by simp)
  | some c =>
    simp only [isSome_some, getD_some, some.injEq, exists_eq_left', ne_eq,
      reduceCtorEq, not_true_eq_false, false_and, if_false]
    by_cases hmax : c > maxsize
    · simp only [if_pos hmax]
      exact iff_of_false (not_requests fun _ => rfl) fun h => UInt32.not_lt.mpr h.1 hmax
    · simp only [if_neg hmax, if_true]
      have hnode := requests_iff size (c + 1) (counted ops xdrs)
        (fun sp t => some (false, (sp, block), t))
        (fun contents sp t => xdr_stringInto ops sp (load contents sp (c + 1).toNat) c t)
        (fun _ => rfl)
        (fun contents x y h => by
          unfold xdr_stringInto at h
          split_ifs at h
          obtain ⟨r, -, hr⟩ := Option.map_eq_some_iff.mp h.symm
          exact one_ne_zero (congrArg (·.2.1.1) hr))
      exact hnode.trans ⟨fun h => ⟨UInt32.not_lt.mp hmax, h⟩, fun h => h.2⟩

/-- `xdr_array` asks for the elements, in 32 bits. -/
theorem xdr_array_requests_iff (block : List Val) (elproc : xdrproc_t σ) :
    Requests (fun al => xdr_array ops al .decode 0 block sizep maxsize elsize elproc xdrs) size ↔
      ∃ c, (ops.x_getlong xdrs.x_private).1 = some c ∧ c ≤ maxsize ∧ c ≠ 0 ∧
        size = (c * elsize).toNat := by
  simp only [xdr_array, xdr_long_decode]
  cases hc : (ops.x_getlong xdrs.x_private).1 with
  | none =>
    exact iff_of_false (not_requests fun _ => by simp; rfl) (by simp)
  | some c =>
    simp only [isSome_some, getD_some, some.injEq, exists_eq_left', ne_eq,
      reduceCtorEq, not_false_eq_true, and_true]
    by_cases hmax : c > maxsize
    · simp only [if_pos hmax]
      exact iff_of_false (not_requests fun _ => rfl) fun h => UInt32.not_lt.mpr h.1 hmax
    by_cases hzero : c = 0
    · simp only [if_neg hmax, if_pos hzero, if_true]
      exact iff_of_false (not_requests fun _ => rfl) fun h => h.2.1 hzero
    · simp only [if_neg hmax, if_neg hzero, if_true]
      have hnode := requests_iff size (c * elsize) (counted ops xdrs)
        (fun sp t => some (false, (sp, block, c), t))
        (fun _ sp t => xdr_arrayAt .decode sp (List.replicate c.toNat .zero) c elsize elproc t)
        (fun _ => rfl)
        (fun contents x y h => by
          simp only [xdr_arrayAt, reduceCtorEq, if_false] at h
          split_ifs at h
          obtain ⟨r, -, hr⟩ := Option.map_eq_some_iff.mp h.symm
          exact one_ne_zero (congrArg (·.2.1.1) hr))
      exact hnode.trans ⟨fun h => ⟨UInt32.not_lt.mp hmax, hzero, h⟩, fun h => h.2.2⟩

end Routines

/-! ## Enough storage -/

/-- A length leaves room for the zero exactly when one can be added to it. -/
theorem succ_le_iff {size : UInt32} :
    size.toNat + 1 ≤ (size + 1).toNat ↔ size ≠ 4294967295 := by
  have hlt := size.toNat_lt
  have hmax : size = 4294967295 ↔ size.toNat = 4294967295 := UInt32.toNat_inj.symm
  rw [ne_eq, hmax, UInt32.toNat_add, UInt32.toNat_one]
  omega

/-- The elements fit exactly when their size is a value of 32 bits. -/
theorem mul_le_iff {c elsize : UInt32} :
    c.toNat * elsize.toNat ≤ (c * elsize).toNat ↔ c.toNat * elsize.toNat < 2 ^ 32 := by
  rw [UInt32.toNat_mul]
  constructor
  · intro h
    exact lt_of_le_of_lt h (Nat.mod_lt _ (by decide))
  · intro h
    exact le_of_eq (Nat.mod_eq_of_lt h).symm

/-- **The storage a decode asks for**, and what is then written to it: the count of bytes, the
string and a zero behind it, or the elements.  `xdr_bytes` always asks for enough; `xdr_string`
unless the stream gives the largest length and the bound allows it; `xdr_array` unless it gives a
count within the bound whose elements do not fit 32 bits. -/
theorem storage_enough_iff (ops : xdr_ops σ) (sizep maxsize elsize : UInt32) (block : List UInt8)
    (elems : List Val) (elproc : xdrproc_t σ) (xdrs : XDR σ) :
    (∀ c size, (ops.x_getlong xdrs.x_private).1 = some c →
      Requests (fun al => xdr_bytes ops al .decode 0 block sizep maxsize xdrs) size →
        c.toNat ≤ size) ∧
    ((∀ c size, (ops.x_getlong xdrs.x_private).1 = some c →
      Requests (fun al => xdr_string ops al .decode 0 block maxsize xdrs) size →
        c.toNat + 1 ≤ size) ↔
      ∀ c, (ops.x_getlong xdrs.x_private).1 = some c → c ≤ maxsize → c ≠ 4294967295) ∧
    ((∀ c size, (ops.x_getlong xdrs.x_private).1 = some c →
      Requests (fun al => xdr_array ops al .decode 0 elems sizep maxsize elsize elproc xdrs) size →
        c.toNat * elsize.toNat ≤ size) ↔
      ∀ c, (ops.x_getlong xdrs.x_private).1 = some c → c ≤ maxsize →
        c.toNat * elsize.toNat < 2 ^ 32) := by
  simp only [xdr_bytes_requests_iff, xdr_string_requests_iff, xdr_array_requests_iff]
  refine ⟨?_, ⟨?_, ?_⟩, ⟨?_, ?_⟩⟩
  · rintro c size hc ⟨c', hc', -, -, rfl⟩
    rw [some.inj (hc.symm.trans hc')]
  · intro h c hc hle
    exact succ_le_iff.mp (h c _ hc ⟨c, hc, hle, rfl⟩)
  · rintro h c size hc ⟨c', hc', hle, rfl⟩
    obtain rfl := some.inj (hc.symm.trans hc')
    exact succ_le_iff.mpr (h c hc hle)
  · intro h c hc hle
    by_cases hzero : c = 0
    · rw [hzero, UInt32.toNat_zero, Nat.zero_mul]
      decide
    · exact mul_le_iff.mp (h c _ hc ⟨c, hc, hle, hzero, rfl⟩)
  · rintro h c size hc ⟨c', hc', hle, -, rfl⟩
    obtain rfl := some.inj (hc.symm.trans hc')
    exact mul_le_iff.mpr (h c hc hle)

/-- The stream over the word `x`. -/
def oneWord (x : UInt32) : XDR Xdrmem :=
  ⟨xdrmem_create (fun i => (htonl x).getD i 0) 0 4, 0, [], []⟩

/-- The routine of a structure of two longs. -/
def twoLongs : xdrproc_t Xdrmem :=
  proc xdrmem_ops ⟨fun _ _ => 1, fun _ => 0⟩ (fun _ => .long) 2 (.struct [.long, .long])

/-- A string of seven, and seven elements of eight bytes. -/
theorem storage_enough_seven :
    (∀ c size, (xdrmem_ops.x_getlong (oneWord 7).x_private).1 = some c →
      Requests (fun al => xdr_string xdrmem_ops al .decode 0 [] 4294967295 (oneWord 7)) size →
        c.toNat + 1 ≤ size) ∧
    ∀ c size, (xdrmem_ops.x_getlong (oneWord 7).x_private).1 = some c →
      Requests (fun al => xdr_array xdrmem_ops al .decode 0 [] 0 100 8 twoLongs (oneWord 7)) size →
        c.toNat * 8 ≤ size := by
  have hword : (xdrmem_ops.x_getlong (oneWord 7).x_private).1 = some 7 := by decide
  refine ⟨(storage_enough_iff xdrmem_ops 0 4294967295 0 [] [] twoLongs (oneWord 7)).2.1.mpr ?_,
    (storage_enough_iff xdrmem_ops 0 100 8 [] [] twoLongs (oneWord 7)).2.2.mpr ?_⟩
  · intro c hc _
    rw [← some.inj hc]
    decide
  · intro c hc _
    rw [← some.inj hc]
    decide

/-- The longest string asks for no storage at all; an array of elements of eight bytes whose
count is just over 2^29 for those of one. -/
theorem storage_not_enough :
    Requests (fun al => xdr_string xdrmem_ops al .decode 0 [] 4294967295 (oneWord 4294967295)) 0 ∧
    Requests (fun al => xdr_array xdrmem_ops al .decode 0 [] 0 4294967295 8 twoLongs
      (oneWord 536870913)) 8 ∧
    ¬ ∀ c size, (xdrmem_ops.x_getlong (oneWord 4294967295).x_private).1 = some c →
      Requests (fun al => xdr_string xdrmem_ops al .decode 0 [] 4294967295 (oneWord 4294967295))
        size → c.toNat + 1 ≤ size := by
  have hstring : Requests
      (fun al => xdr_string xdrmem_ops al .decode 0 [] 4294967295 (oneWord 4294967295)) 0 :=
    (xdr_string_requests_iff xdrmem_ops 4294967295 _ []).mpr
      ⟨4294967295, by decide, by decide, by decide⟩
  refine ⟨hstring, ?_, ?_⟩
  · exact (xdr_array_requests_iff xdrmem_ops 0 4294967295 8 _ [] _).mpr
      ⟨536870913, by decide, by decide, by decide, by decide⟩
  · intro h
    exact absurd (h 4294967295 0 (by decide) hstring) (by decide)

end Xdr
