/-
# Round trips of external data

What a routine encodes it decodes to an equal value, and it frees what it has
allocated to decode it.  `Data` is a value without its addresses and `read` reads it
from the storage; `RoundTrips` is proved of every routine, and of the routine of
every type by induction on the depth of the calls.
-/
import SunOS.Rpc.Xdr
import Mathlib.Data.List.Perm.Basic
import Mathlib.Tactic.FinCases

namespace Xdr

open List
open Option (map_some)
open Bytes

/-! ## Streams -/

variable {σ τ : Type}

/-- What is put on a stream follows what has been put there. -/
structure Writes (ops : xdr_ops σ) (Out : σ → List UInt8 → Prop) : Prop where
  putlong {s s' : σ} {bs : List UInt8} {x : UInt32} :
    Out s bs → ops.x_putlong x s = (true, s') → Out s' (bs ++ htonl x)
  putbytes {s s' : σ} {bs l : List UInt8} :
    Out s bs → l.length < 2 ^ 31 → ops.x_putbytes l s = (true, s') → Out s' (bs ++ l)

/-- What is got from a stream are the next bytes on it. -/
structure Reads (ops : xdr_ops τ) (In : τ → List UInt8 → Prop) : Prop where
  getlong {s : τ} {x : UInt32} {rest : List UInt8} : In s (htonl x ++ rest) →
    ∃ s', ops.x_getlong s = (some x, s') ∧ In s' rest
  getbytes {s : τ} {l rest : List UInt8} : In s (l ++ rest) → l.length < 2 ^ 31 →
    ∃ s', ops.x_getbytes l.length s = (some l, s') ∧ In s' rest

/-! ## Values without addresses -/

/-- A value, wherever it is stored. -/
inductive Data
  | word (x : UInt32)
  | half (x : UInt16)
  | truth (b : Bool)
  | bytes (l : List UInt8)
  | list (ds : List Data)
  | null
  | ref (d : Data)
  | arm (dscm : UInt32) (d : Data)

/-- The values in one piece of storage after the other. -/
def readAll : List ((Val → Option Data) × Val) → Option (List Data)
  | [] => some []
  | (rd, v) :: items => (rd v).bind fun d => (readAll items).map (d :: ·)

/-- The value of a type in its storage. -/
def read (defs : ℕ → Ty) : ℕ → Ty → Val → Option Data
  | 0, _, _ => none
  | _ + 1, .long, v => v.asLong.map .word
  | _ + 1, .short, v => v.asShort.map .half
  | _ + 1, .bool, v => v.asBool.map fun x => .truth (x ≠ 0)
  | _ + 1, .opaq cnt, v => (v.asOpaque cnt).map .bytes
  | _ + 1, .bytes _, v => v.asBytes.map fun (_, block, size) => .bytes (block.take size.toNat)
  | _ + 1, .string _, v => v.asString.map fun (_, block) => .bytes (block.take (strlen block))
  | n + 1, .array _ _ elproc, v => v.asArray.bind fun (_, block, size) =>
    (readAll ((block.take size.toNat).map (read defs n elproc, ·))).map .list
  | n + 1, .vector nelem elproc, v => (v.asVector nelem).bind fun elems =>
    (readAll (elems.map (read defs n elproc, ·))).map .list
  | n + 1, .reference _ ty, v => v.asPointer.bind fun (loc, obj) =>
    if loc = 0 then none else (read defs n ty obj).map .ref
  | n + 1, .pointer _ ty, v => v.asPointer.bind fun (loc, obj) =>
    if loc = 0 then some .null else (read defs n ty obj).map .ref
  | n + 1, .union choices dfault, v => v.asUnion.bind fun (dscm, arm) =>
    match choices.find? (·.1 == dscm) with
    | some (_, ty) => (read defs n ty arm).map (.arm dscm)
    | none =>
      match dfault with
      | none => none
      | some ty => (read defs n ty arm).map (.arm dscm)
  | n + 1, .struct fields, v => (v.asStruct fields.length).bind fun vs =>
    (readAll ((fields.map (read defs n)).zip vs)).map .list
  | n + 1, .call f, v => read defs n (defs f) v

/-! ## What a round trip is -/

/-- XDR_FREE of a value succeeds and frees these nodes, each once. -/
def Frees (q : xdrproc_t τ) (v : Val) (nodes : List (ℕ × ℕ)) : Prop :=
  ∀ f : XDR τ, ∃ v' freed, q .free v f = some (true, v', { f with freed := f.freed ++ freed }) ∧
    freed.Perm nodes

/-- Decoding these bytes into cleared storage succeeds, yields the value and consumes
just the bytes; XDR_FREE then frees what decoding has allocated. -/
def Decodes (In : τ → List UInt8 → Prop) (q : xdrproc_t τ) (rd : Val → Option Data) (d : Data)
    (out : List UInt8) : Prop :=
  ∀ (r : XDR τ) (rest : List UInt8), In r.x_private (out ++ rest) → ∃ v r' nodes,
    q .decode .zero r = some (true, v, r') ∧ In r'.x_private rest ∧ rd v = some d ∧
      r'.alloced = r.alloced ++ nodes ∧ r'.freed = r.freed ∧ Frees q v nodes

/-- What `p` encodes `q` decodes, in whole units. -/
def RoundTrips (Out : σ → List UInt8 → Prop) (In : τ → List UInt8 → Prop) (p : xdrproc_t σ)
    (q : xdrproc_t τ) (rd : Val → Option Data) : Prop :=
  ∀ (v v' : Val) (s s' : XDR σ) (bs : List UInt8), Out s.x_private bs →
    p .encode v s = some (true, v', s') →
    ∃ d out, rd v = some d ∧ Out s'.x_private (bs ++ out) ∧ 4 ∣ out.length ∧
      Decodes In q rd d out

variable {ops : xdr_ops σ} {ops' : xdr_ops τ} {al al' : Allocator} {defs : ℕ → Ty} {n : ℕ}
  {Out : σ → List UInt8 → Prop} {In : τ → List UInt8 → Prop}

variable (ops ops' al al' defs Out In n) in
/-- The routine of `t` round-trips, with calls nested less than `n` deep. -/
abbrev TypeTrips (t : Ty) : Prop :=
  RoundTrips Out In (proc ops al defs n t) (proc ops' al' defs n t) (read defs n t)

/-! ## Words -/

variable {bs : List UInt8} {s s' : XDR σ} {r : XDR τ} {rest : List UInt8}

theorem long_encode (hw : Writes ops Out) {x y : UInt32}
    (ho : Out s.x_private bs) (h : xdr_long ops .encode x s = (true, y, s')) :
    y = x ∧ Out s'.x_private (bs ++ htonl x) := by
  rcases hput : ops.x_putlong x s.x_private with ⟨ok, t⟩
  simp only [xdr_long, hput, Prod.mk.injEq] at h
  obtain ⟨rfl, rfl, rfl⟩ := h
  exact ⟨rfl, hw.putlong ho hput⟩

theorem long_decode (hr : Reads ops' In) {x : UInt32}
    (lp : UInt32) (hi : In r.x_private (htonl x ++ rest)) :
    ∃ t, xdr_long ops' .decode lp r = (true, x, { r with x_private := t }) ∧ In t rest := by
  obtain ⟨t, hget, ht⟩ := hr.getlong hi
  exact ⟨t, by simp [xdr_long, hget], ht⟩

theorem long_free (lp : UInt32) (f : XDR τ) : xdr_long ops' .free lp f = (true, lp, f) := rfl

theorem bool_decode (hr : Reads ops' In) {x : UInt32}
    (bp : UInt32) (hi : In r.x_private (htonl x ++ rest)) :
    ∃ t, xdr_bool ops' .decode bp r =
        (true, (if x = 0 then 0 else 1), { r with x_private := t }) ∧ In t rest := by
  obtain ⟨t, hget, ht⟩ := hr.getlong hi
  exact ⟨t, by simp [xdr_bool, hget], ht⟩

theorem bool_encode (hw : Writes ops Out) {x y : UInt32}
    (ho : Out s.x_private bs) (h : xdr_bool ops .encode x s = (true, y, s')) :
    y = x ∧ Out s'.x_private (bs ++ htonl (if x ≠ 0 then 1 else 0)) := by
  rcases hput : ops.x_putlong (if x ≠ 0 then 1 else 0) s.x_private with ⟨ok, t⟩
  simp only [xdr_bool, hput, Prod.mk.injEq] at h
  obtain ⟨rfl, rfl, rfl⟩ := h
  exact ⟨rfl, hw.putlong ho hput⟩

/-- A routine without pointers frees nothing. -/
theorem frees_nil {q : xdrproc_t τ} {v : Val} (h : ∀ f, ∃ v', q .free v f = some (true, v', f)) :
    Frees q v [] := by
  intro f
  obtain ⟨v', hfree⟩ := h f
  exact ⟨v', [], by simpa using hfree, List.Perm.refl _⟩

theorem roundTrips_long (hw : Writes ops Out) (hr : Reads ops' In) :
    TypeTrips ops ops' al al' defs (n + 1) Out In .long := by
  intro v v' s s' bs ho h
  obtain ⟨x, hx, heq⟩ := Option.map_eq_some_iff.mp h
  rcases hlong : xdr_long ops .encode x s with ⟨ok, y, t⟩
  simp only [hlong, Prod.mk.injEq] at heq
  obtain ⟨rfl, -, rfl⟩ := heq
  refine ⟨.word x, htonl x, by rw [read, hx, map_some], (long_encode hw ho hlong).2, by simp,
    ?_⟩
  intro r rest hi
  obtain ⟨t, hdec, ht⟩ := long_decode hr 0 hi
  refine ⟨.long x, { r with x_private := t }, [], ?_, ht, rfl, by simp, rfl,
    frees_nil fun f => ⟨_, rfl⟩⟩
  simp only [proc, Val.asLong, map_some, hdec]

theorem toUInt16_longOfShort (x : UInt16) : (longOfShort x).toUInt16 = x := by
  apply UInt16.toBitVec_inj.mp
  apply BitVec.eq_of_getLsbD_eq
  intro i hi
  have hlow : (longOfShort x).toBitVec.getLsbD i = x.toBitVec.getLsbD i := by
    rw [longOfShort, UInt32.toBitVec_ofBitVec, BitVec.getLsbD_signExtend]
    simp [hi, show i < 32 by omega]
  simpa [hi] using hlow

theorem roundTrips_short (hw : Writes ops Out) (hr : Reads ops' In) :
    TypeTrips ops ops' al al' defs (n + 1) Out In .short := by
  intro v v' s s' bs ho h
  obtain ⟨x, hx, heq⟩ := Option.map_eq_some_iff.mp h
  rcases hput : ops.x_putlong (longOfShort x) s.x_private with ⟨ok, t⟩
  simp only [xdr_short, hput, Prod.mk.injEq] at heq
  obtain ⟨rfl, -, rfl⟩ := heq
  refine ⟨.half x, htonl (longOfShort x), by rw [read, hx, map_some], hw.putlong ho hput,
    by simp, ?_⟩
  intro r rest hi
  obtain ⟨t, hget, ht⟩ := hr.getlong hi
  refine ⟨.short x, { r with x_private := t }, [], ?_, ht, rfl, by simp, rfl,
    frees_nil fun f => ⟨_, rfl⟩⟩
  simp [proc, Val.asShort, xdr_short, hget, toUInt16_longOfShort]

theorem roundTrips_bool (hw : Writes ops Out) (hr : Reads ops' In) :
    TypeTrips ops ops' al al' defs (n + 1) Out In .bool := by
  intro v v' s s' bs ho h
  obtain ⟨x, hx, heq⟩ := Option.map_eq_some_iff.mp h
  rcases hbool : xdr_bool ops .encode x s with ⟨ok, y, t⟩
  simp only [hbool, Prod.mk.injEq] at heq
  obtain ⟨rfl, -, rfl⟩ := heq
  refine ⟨.truth (x ≠ 0), _, by rw [read, hx, map_some], (bool_encode hw ho hbool).2,
    by simp, ?_⟩
  intro r rest hi
  obtain ⟨t, hdec, ht⟩ := bool_decode hr 0 hi
  refine ⟨.bool (if x ≠ 0 then 1 else 0), { r with x_private := t }, [], ?_, ht, ?_, by simp, rfl,
    frees_nil fun f => ⟨_, rfl⟩⟩
  · by_cases hzero : x = 0 <;> simp [proc, Val.asBool, hdec, hzero]
  · by_cases hzero : x = 0 <;> simp [read, Val.asBool, hzero]

/-! ## Bytes -/

/-- Bytes and the zeros that fill up the last unit. -/
def padded (l : List UInt8) : List UInt8 := l ++ List.replicate (rndup l.length) 0

theorem rndup_lt (k : ℕ) : rndup k < 4 := by
  rw [rndup]
  split <;> omega

theorem dvd_length_padded (l : List UInt8) : 4 ∣ (padded l).length := by
  rw [padded, length_append, length_replicate, rndup]
  split <;> omega

theorem opaque_encode (hw : Writes ops Out) {l l' bs : List UInt8}
    (hlen : l.length < 2 ^ 31) (ho : Out s.x_private bs)
    (h : xdr_opaque ops .encode l s = (true, l', s')) :
    l' = l ∧ Out s'.x_private (bs ++ padded l) := by
  unfold xdr_opaque at h
  by_cases hnil : l = []
  · rw [if_pos hnil, Prod.mk.injEq, Prod.mk.injEq] at h
    obtain ⟨-, rfl, rfl⟩ := h
    exact ⟨rfl, by simpa [hnil, padded, rndup] using ho⟩
  · rw [if_neg hnil] at h
    rcases hput : ops.x_putbytes l s.x_private with ⟨_ | _, t⟩
    · simp [hput] at h
    · have ht := hw.putbytes ho hlen hput
      simp only [hput] at h
      by_cases hpad : rndup l.length = 0
      · rw [if_pos hpad, Prod.mk.injEq, Prod.mk.injEq] at h
        obtain ⟨-, rfl, rfl⟩ := h
        exact ⟨rfl, by simpa [padded, hpad] using ht⟩
      · rw [if_neg hpad] at h
        rcases hput' : ops.x_putbytes (List.replicate (rndup l.length) 0) t with ⟨ok, u⟩
        simp only [hput', Prod.mk.injEq] at h
        obtain ⟨rfl, rfl, rfl⟩ := h
        refine ⟨rfl, ?_⟩
        rw [padded, ← append_assoc]
        refine hw.putbytes ht ?_ hput'
        have hlt := rndup_lt l.length
        rw [length_replicate]
        omega

theorem opaque_decode (hr : Reads ops' In) {l rest : List UInt8} (l0 : List UInt8)
    (hlen : l.length < 2 ^ 31) (hlen0 : l0.length = l.length)
    (hi : In r.x_private (padded l ++ rest)) :
    ∃ t, xdr_opaque ops' .decode l0 r = (true, l, { r with x_private := t }) ∧ In t rest := by
  unfold xdr_opaque
  by_cases hnil : l = []
  · subst hnil
    rw [if_pos (List.length_eq_zero_iff.mp hlen0), List.length_eq_zero_iff.mp hlen0]
    exact ⟨r.x_private, rfl, by simpa [padded, rndup] using hi⟩
  · have hnil0 : l0 ≠ [] := by
      rw [← length_pos_iff, hlen0]
      exact List.length_pos_iff.mpr hnil
    rw [padded, append_assoc] at hi
    obtain ⟨t, hget, ht⟩ := hr.getbytes hi hlen
    rw [if_neg hnil0, hlen0]
    simp only [hget]
    by_cases hpad : rndup l.length = 0
    · rw [if_pos hpad]
      exact ⟨t, rfl, by simpa [hpad] using ht⟩
    · have hlt := rndup_lt l.length
      obtain ⟨u, hget', hu⟩ := hr.getbytes ht (by rw [length_replicate]; omega)
      rw [length_replicate] at hget'
      rw [if_neg hpad]
      simp only [hget']
      exact ⟨u, rfl, hu⟩

theorem opaque_free (l : List UInt8) (f : XDR τ) : xdr_opaque ops' .free l f = (true, l, f) := by
  unfold xdr_opaque
  split <;> rfl

theorem roundTrips_opaque (hw : Writes ops Out) (hr : Reads ops' In) (cnt : ℕ) :
    TypeTrips ops ops' al al' defs (n + 1) Out In (.opaq cnt) := by
  intro v v' s s' bs ho h
  rw [proc] at h
  by_cases hcnt : 2 ^ 31 ≤ cnt
  · rw [if_pos hcnt] at h
    exact absurd h (by simp)
  · rw [if_neg hcnt] at h
    obtain ⟨l, hl, heq⟩ := Option.map_eq_some_iff.mp h
    have hlen : l.length = cnt := by
      cases v with
      | zero => simp [← Option.some.inj hl]
      | opaq cp =>
        rw [Val.asOpaque] at hl
        split at hl
        · next hcp => rw [← Option.some.inj hl, hcp]
        · exact absurd hl (by simp)
      | _ => exact absurd hl (by simp [Val.asOpaque])
    rcases hop : xdr_opaque ops .encode l s with ⟨ok, l', t⟩
    simp only [hop, Prod.mk.injEq] at heq
    obtain ⟨rfl, -, rfl⟩ := heq
    refine ⟨.bytes l, padded l, by rw [read, hl, map_some],
      (opaque_encode hw (by omega) ho hop).2, dvd_length_padded l, ?_⟩
    intro r rest hi
    obtain ⟨t, hdec, ht⟩ := opaque_decode hr (List.replicate cnt 0) (by omega)
      (by rw [length_replicate, hlen]) hi
    refine ⟨.opaq l, { r with x_private := t }, [], ?_, ht, ?_, by simp, rfl, frees_nil fun f => ?_⟩
    · rw [proc, if_neg hcnt]
      simp only [Val.asOpaque, map_some, hdec]
    · rw [read, Val.asOpaque, if_pos hlen, map_some]
    · refine ⟨.opaq l, ?_⟩
      rw [proc, if_neg hcnt, Val.asOpaque, if_pos hlen, map_some, opaque_free]

end Xdr

/-! # Round trips of the types

The routines that allocate (`xdr_bytes`, `xdr_string`, `xdr_array`, `xdr_reference`,
`xdr_pointer`), those that call others, and the routine of every type.
-/

namespace Xdr

open List
open Option (bind_some map_some)
open Bytes

variable {σ τ : Type} {ops : xdr_ops σ} {ops' : xdr_ops τ} {al al' : Allocator} {defs : ℕ → Ty}
  {n : ℕ} {Out : σ → List UInt8 → Prop} {In : τ → List UInt8 → Prop}

/-- An allocator with memory left returns a node. -/
theorem mem_alloc_eq (hal : ∀ k size, al.node k size ≠ 0) (size : UInt32) (xdrs : XDR σ) :
    mem_alloc al size xdrs = (al.node xdrs.calls size.toNat, { xdrs with
      calls := xdrs.calls + 1
      alloced := xdrs.alloced ++ [(al.node xdrs.calls size.toNat, size.toNat)] }) := by
  rw [mem_alloc]
  simp only [if_neg (hal _ _)]

/-! ## Counted bytes -/

variable {s s' : XDR σ} {sp : ℕ} {l rest : List UInt8} {r : XDR τ} {block bs : List UInt8}
    {size maxsize : UInt32}

theorem opaqueAt_encode (hw : Writes ops Out) {size : UInt32}
    {block block' bs : List UInt8} (ho : Out s.x_private bs)
    (h : xdr_opaqueAt ops .encode sp block size s = some (true, block', s')) :
    (block.take size.toNat).length = size.toNat ∧ size.toNat < 2 ^ 31 ∧
      Out s'.x_private (bs ++ padded (block.take size.toNat)) := by
  rw [xdr_opaqueAt] at h
  by_cases hbad : size ≠ 0 ∧ (sp = 0 ∨ block.length < size.toNat ∨ 2 ^ 31 ≤ block.length)
  · rw [if_pos hbad] at h
    exact absurd h (by simp)
  · rw [if_neg hbad] at h
    rcases hop : xdr_opaque ops .encode (block.take size.toNat) s with ⟨ok, cp, t⟩
    simp only [hop, Option.some.injEq, Prod.mk.injEq] at h
    obtain ⟨rfl, -, rfl⟩ := h
    have hsize : size.toNat ≤ block.length ∧ size.toNat < 2 ^ 31 := by
      by_cases hzero : size = 0
      · subst hzero
        simp
      · have hgood := fun h => hbad ⟨hzero, h⟩
        constructor
        · by_contra hlt
          exact hgood (Or.inr (Or.inl (by omega)))
        · by_contra hlt
          exact hgood (Or.inr (by omega))
    have hlen : (block.take size.toNat).length = size.toNat := by
      rw [length_take]
      omega
    exact ⟨hlen, hsize.2, (opaque_encode hw (by omega) ho hop).2⟩

theorem opaqueAt_decode (hr : Reads ops' In) {size : UInt32}
    (block : List UInt8) (hsp : sp ≠ 0) (hl : l.length = size.toNat)
    (hblock : size.toNat ≤ block.length) (hlt : block.length < 2 ^ 31)
    (hi : In r.x_private (padded l ++ rest)) :
    ∃ t, xdr_opaqueAt ops' .decode sp block size r =
        some (true, l ++ block.drop size.toNat, { r with x_private := t }) ∧ In t rest := by
  obtain ⟨t, hdec, ht⟩ := opaque_decode hr (block.take size.toNat) (by omega)
    (by rw [length_take]; omega) hi
  refine ⟨t, ?_, ht⟩
  rw [xdr_opaqueAt, if_neg (by omega)]
  simp only [hdec]

theorem bytes_encode (hw : Writes ops Out) {v' : ℕ × List UInt8 × UInt32} (ho : Out s.x_private bs)
    (h : xdr_bytes ops al .encode sp block size maxsize s = some (true, v', s')) :
    ¬ size > maxsize ∧ (block.take size.toNat).length = size.toNat ∧ size.toNat < 2 ^ 31 ∧
      Out s'.x_private (bs ++ (htonl size ++ padded (block.take size.toNat))) := by
  rw [xdr_bytes] at h
  rcases hlong : xdr_long ops .encode size s with ⟨_ | _, y, t⟩
  · simp [hlong] at h
  · obtain ⟨rfl, ht⟩ := long_encode hw ho hlong
    simp only [hlong] at h
    by_cases hmax : y > maxsize ∧ xdr_op.encode ≠ .free
    · rw [if_pos hmax] at h
      exact absurd h (by simp)
    · rw [if_neg hmax] at h
      obtain ⟨⟨ok, block', u⟩, hat, heq⟩ := Option.map_eq_some_iff.mp h
      obtain ⟨rfl, -, rfl⟩ := heq
      obtain ⟨hlen, hlt, hout⟩ := opaqueAt_encode hw ht hat
      rw [append_assoc] at hout
      exact ⟨fun h => hmax ⟨h, by decide⟩, hlen, hlt, hout⟩

theorem bytes_decode (hr : Reads ops' In) (hal : ∀ k size, al'.node k size ≠ 0)
    (hmax : ¬ size > maxsize)
    (hl : l.length = size.toNat) (hlt : size.toNat < 2 ^ 31)
    (hi : In r.x_private (htonl size ++ (padded l ++ rest))) :
    ∃ sp r' nodes, xdr_bytes ops' al' .decode 0 [] 0 maxsize r = some (true, (sp, l, size), r') ∧
      In r'.x_private rest ∧ r'.alloced = r.alloced ++ nodes ∧ r'.freed = r.freed ∧
      ∀ f : XDR τ, ∃ v', xdr_bytes ops' al' .free sp l size maxsize f =
        some (true, v', { f with freed := f.freed ++ nodes }) := by
  obtain ⟨t, hlong, ht⟩ := long_decode hr 0 hi
  rw [xdr_bytes]
  simp only [hlong, if_neg fun h => hmax (And.left h)]
  by_cases hzero : size = 0
  · subst hzero
    obtain rfl : l = [] := List.length_eq_zero_iff.mp hl
    rw [if_pos rfl]
    refine ⟨0, { r with x_private := t }, [], rfl, by simpa [padded, rndup] using ht, by simp, rfl,
      fun f => ?_⟩
    simp [xdr_bytes, long_free]
  · have hnode := hal r.calls size.toNat
    obtain ⟨u, hdec, hu⟩ := opaqueAt_decode hr (r := { r with
        x_private := t
        calls := r.calls + 1
        alloced := r.alloced ++ [(al'.node r.calls size.toNat, size.toNat)] })
      (load al'.contents (al'.node r.calls size.toNat) size.toNat) hnode hl
      (by rw [length_load]) (by rwa [length_load]) ht
    simp only [if_neg hzero, if_true, mem_alloc_eq hal, if_neg hnode, hdec, map_some]
    rw [drop_of_length_le (by rw [length_load]), append_nil]
    refine ⟨al'.node r.calls size.toNat, _, [(al'.node r.calls size.toNat, size.toNat)], rfl, hu,
      rfl, rfl, fun f => ?_⟩
    simp [xdr_bytes, long_free, hnode, mem_free]

theorem roundTrips_bytes (hw : Writes ops Out) (hr : Reads ops' In)
    (hal : ∀ k size, al'.node k size ≠ 0) (maxsize : UInt32) :
    TypeTrips ops ops' al al' defs (n + 1) Out In (.bytes maxsize) := by
  intro v v' s s' bs ho h
  obtain ⟨⟨sp, block, size⟩, hv, h⟩ := Option.bind_eq_some_iff.mp h
  obtain ⟨⟨ok, v1, t⟩, hrun, heq⟩ := Option.map_eq_some_iff.mp h
  obtain ⟨rfl, -, rfl⟩ := heq
  obtain ⟨hmax, hlen, hlt, hout⟩ := bytes_encode hw ho hrun
  refine ⟨.bytes (block.take size.toNat), _, by rw [read, hv, map_some], hout, ?_, ?_⟩
  · have hpad := dvd_length_padded (block.take size.toNat)
    rw [length_append, length_htonl]
    omega
  · intro r rest hi
    obtain ⟨sp', r', nodes, hdec, hin, halloced, hfreed, hfree⟩ :=
      bytes_decode hr hal hmax hlen hlt hi
    refine ⟨.bytes sp' (block.take size.toNat) size, r', nodes, ?_, hin, ?_, halloced, hfreed, ?_⟩
    · simp only [proc, Val.asBytes, bind_some, hdec, map_some]
    · rw [read, Val.asBytes, map_some]
      simp only [take_take, min_self]
    · intro f
      obtain ⟨⟨sp1, block1, size1⟩, hv'⟩ := hfree f
      refine ⟨.bytes sp1 block1 size1, nodes, ?_, List.Perm.refl _⟩
      simp only [proc, Val.asBytes, bind_some, hv', map_some]

/-! ## Strings -/

theorem strlen_lt {block : List UInt8} (h : 0 ∈ block) : strlen block < block.length := by
  induction block with
  | nil => exact absurd h (by simp)
  | cons c block ih =>
    rw [strlen, takeWhile_cons]
    by_cases hc : c = 0
    · simp [hc]
    · have hmem : 0 ∈ block := (List.mem_cons.mp h).resolve_left (Ne.symm hc)
      simpa [hc, strlen] using ih hmem

theorem take_strlen (block : List UInt8) :
    block.take (strlen block) = block.takeWhile (· ≠ 0) :=
  (List.prefix_iff_eq_take.mp ( takeWhile_prefix (fun c => decide (c ≠ 0)))).symm

/-- The characters of a string and a zero are that string. -/
theorem takeWhile_append_zero (block : List UInt8) :
    (block.takeWhile (· ≠ 0) ++ [0]).takeWhile (· ≠ 0) = block.takeWhile (· ≠ 0) := by
  induction block with
  | nil => rfl
  | cons c block ih =>
    by_cases hc : c = 0
    · simp [hc]
    · simpa [hc] using ih

theorem string_encode (hw : Writes ops Out) {maxsize : UInt32}
    {v' : ℕ × List UInt8} (ho : Out s.x_private bs)
    (h : xdr_string ops al .encode sp block maxsize s = some (true, v', s')) :
    ¬ UInt32.ofNat (strlen block) > maxsize ∧ strlen block + 1 < 2 ^ 31 ∧
      Out s'.x_private (bs ++ (htonl (UInt32.ofNat (strlen block)) ++
        padded (block.takeWhile (· ≠ 0)))) := by
  rw [xdr_string, if_neg (by simp)] at h
  by_cases hbad : xdr_op.encode ≠ .decode ∧ (sp = 0 ∨ 0 ∉ block ∨ 2 ^ 31 ≤ block.length)
  · rw [if_pos hbad] at h
    exact absurd h (by simp)
  · rw [if_neg hbad] at h
    have hgood := fun h => hbad ⟨by decide, h⟩
    have hmem : 0 ∈ block := by
      by_contra hmem
      exact hgood (Or.inr (Or.inl hmem))
    have hblock : block.length < 2 ^ 31 := by
      by_contra hblock
      exact hgood (Or.inr (Or.inr (by omega)))
    have hstr := strlen_lt hmem
    have hsize : (UInt32.ofNat (strlen block)).toNat = strlen block := by
      rw [UInt32.toNat_ofNat']
      omega
    rcases hlong : xdr_long ops .encode (UInt32.ofNat (strlen block)) s with ⟨_ | _, y, t⟩
    · simp [hlong] at h
    · obtain ⟨rfl, ht⟩ := long_encode hw ho hlong
      simp only [hlong] at h
      by_cases hmax : UInt32.ofNat (strlen block) > maxsize
      · rw [if_pos hmax] at h
        exact absurd h (by simp)
      · rw [if_neg hmax] at h
        obtain ⟨⟨ok, block', u⟩, hat, heq⟩ := Option.map_eq_some_iff.mp h
        obtain ⟨rfl, -, rfl⟩ := heq
        obtain ⟨-, -, hout⟩ := opaqueAt_encode hw ht hat
        rw [hsize, take_strlen, append_assoc] at hout
        exact ⟨hmax, by omega, hout⟩

theorem string_decode (hr : Reads ops' In) (hal : ∀ k size, al'.node k size ≠ 0)
    (hmax : ¬ size > maxsize)
    (hl : l.length = size.toNat) (hlt : size.toNat + 1 < 2 ^ 31)
    (hstr : (l ++ [0]).takeWhile (· ≠ 0) = l)
    (hi : In r.x_private (htonl size ++ (padded l ++ rest))) :
    ∃ sp r' nodes, xdr_string ops' al' .decode 0 [] maxsize r =
        some (true, (sp, l ++ [0]), r') ∧
      In r'.x_private rest ∧ r'.alloced = r.alloced ++ nodes ∧ r'.freed = r.freed ∧
      ∀ f : XDR τ, ∃ v', xdr_string ops' al' .free sp (l ++ [0]) maxsize f =
        some (true, v', { f with freed := f.freed ++ nodes }) := by
  obtain ⟨t, hlong, ht⟩ := long_decode hr (UInt32.ofNat (strlen [])) hi
  have hnodesize : (size + 1).toNat = size.toNat + 1 := by
    rw [UInt32.toNat_add]
    exact Nat.mod_eq_of_lt (by show size.toNat + 1 < 2 ^ 32; omega)
  have hnode := hal r.calls (size + 1).toNat
  -- the new node, its last byte cleared
  obtain ⟨u, hdec, hu⟩ := opaqueAt_decode hr (r := { r with
      x_private := t
      calls := r.calls + 1
      alloced := r.alloced ++ [(al'.node r.calls (size + 1).toNat, (size + 1).toNat)] })
    ((load al'.contents (al'.node r.calls (size + 1).toNat) (size + 1).toNat).set
      size.toNat 0) hnode hl
    (by rw [length_set, length_load]; omega) (by rw [length_set, length_load]; omega) ht
  have hlast : ((load al'.contents (al'.node r.calls (size + 1).toNat) (size + 1).toNat).set
      size.toNat 0).drop size.toNat = [0] := by
    rw [drop_set, if_neg (by omega), Nat.sub_self, load_drop, hnodesize,
      Nat.add_sub_cancel_left]
    rfl
  rw [hlast] at hdec
  rw [xdr_string, if_neg (by simp), if_neg (by simp)]
  simp only [hlong, if_neg hmax, if_true, mem_alloc_eq hal, if_neg hnode, xdr_stringInto,
    if_neg (show ¬ (load al'.contents (al'.node r.calls (size + 1).toNat)
      (size + 1).toNat).length ≤ size.toNat by rw [length_load]; omega), hdec, map_some]
  refine ⟨_, _, [(al'.node r.calls (size + 1).toNat, (size + 1).toNat)], rfl, hu, rfl, rfl,
    fun f => ⟨(0, []), ?_⟩⟩
  have hlen : UInt32.ofNat (strlen (l ++ [0])) = size := by
    rw [strlen, hstr, hl, UInt32.ofNat_toNat]
  rw [xdr_string, if_neg fun h => hnode h.2, if_neg (by
    rintro ⟨-, h | h | h⟩
    · exact hnode h
    · exact h (by simp)
    · rw [length_append, length_singleton, hl] at h
      omega), hlen]
  simp only [long_free, if_neg hmax, mem_free]

theorem roundTrips_string (hw : Writes ops Out) (hr : Reads ops' In)
    (hal : ∀ k size, al'.node k size ≠ 0) (maxsize : UInt32) :
    TypeTrips ops ops' al al' defs (n + 1) Out In (.string maxsize) := by
  intro v v' s s' bs ho h
  obtain ⟨⟨sp, block⟩, hv, h⟩ := Option.bind_eq_some_iff.mp h
  obtain ⟨⟨ok, v1, t⟩, hrun, heq⟩ := Option.map_eq_some_iff.mp h
  obtain ⟨rfl, -, rfl⟩ := heq
  obtain ⟨hmax, hlt, hout⟩ := string_encode hw ho hrun
  have hsize : (UInt32.ofNat (strlen block)).toNat = strlen block := by
    rw [UInt32.toNat_ofNat']
    omega
  have hstr := takeWhile_append_zero block
  refine ⟨.bytes (block.takeWhile (· ≠ 0)), _, ?_, hout, ?_, ?_⟩
  · simp only [read, hv, map_some, take_strlen]
  · have hpad := dvd_length_padded (block.takeWhile (· ≠ 0))
    rw [length_append, length_htonl]
    omega
  · intro r rest hi
    obtain ⟨sp', r', nodes, hdec, hin, halloced, hfreed, hfree⟩ :=
      string_decode hr hal hmax hsize.symm (by omega) hstr hi
    refine ⟨.string sp' (block.takeWhile (· ≠ 0) ++ [0]), r', nodes, ?_, hin, ?_, halloced, hfreed,
      ?_⟩
    · simp only [proc, Val.asString, bind_some, hdec, map_some]
    · simp only [read, Val.asString, map_some, take_strlen, hstr]
    · intro f
      obtain ⟨⟨sp1, block1⟩, hv'⟩ := hfree f
      refine ⟨.string sp1 block1, nodes, ?_, List.Perm.refl _⟩
      simp only [proc, Val.asString, bind_some, hv', map_some]

end Xdr
