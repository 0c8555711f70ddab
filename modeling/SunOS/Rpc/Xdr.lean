/-
# External data representation

`src/lib/libc/rpc/xdr.c`, `xdr_array.c` and `xdr_reference.c`: one routine a type
encodes a value to a stream, decodes it from one, or frees the storage a decode has
allocated, as the operation of the handle says.

A value is its storage: the words of it, and for each pointer the address and the
block it points to.  `Val.zero` is storage that has been cleared, of whatever type.
A routine returns `none` where the C code leaves the storage it was given: it
follows a null pointer, goes past the end of a block, or is given storage of another
type.
-/
import SunOS.Lib.Bytes

namespace Xdr

open Bytes

/-! ## Handles -/

/-- `enum xdr_op` -/
inductive xdr_op
  | encode
  | decode
  | free
  deriving DecidableEq

/-- `struct xdr_ops`: the operations of a stream whose private data is a `σ`. -/
structure xdr_ops (σ : Type) where
  x_getlong : σ → Option UInt32 × σ
  x_putlong : UInt32 → σ → Bool × σ
  x_getbytes : ℕ → σ → Option (List UInt8) × σ
  x_putbytes : List UInt8 → σ → Bool × σ

/-- A handle, and what has been done with the memory: the number of calls of
`mem_alloc`, the nodes allocated and the nodes freed, an address and a size each. -/
structure XDR (σ : Type) where
  x_private : σ
  calls : ℕ
  alloced : List (ℕ × ℕ)
  freed : List (ℕ × ℕ)

/-- The memory allocator: the address of the node that its `k`-th call returns for a
size, zero when there is none, and what a new node contains. -/
structure Allocator where
  node : ℕ → ℕ → ℕ
  contents : ℕ → UInt8

variable {σ : Type}

/-- `mem_alloc` -/
def mem_alloc (al : Allocator) (size : UInt32) (xdrs : XDR σ) : ℕ × XDR σ :=
  let a := al.node xdrs.calls size.toNat
  (a, { xdrs with
    calls := xdrs.calls + 1
    alloced := if a = 0 then xdrs.alloced else xdrs.alloced ++ [(a, size.toNat)] })

/-- `mem_free` -/
def mem_free (a : ℕ) (size : UInt32) (xdrs : XDR σ) : XDR σ :=
  { xdrs with freed := xdrs.freed ++ [(a, size.toNat)] }

/-! ## Values -/

/-- The storage of a value. -/
inductive Val
  | zero
  | long (x : UInt32)
  | short (x : UInt16)
  | bool (x : UInt32)
  | opaq (cp : List UInt8)
  | bytes (sp : ℕ) (block : List UInt8) (size : UInt32)
  | string (sp : ℕ) (block : List UInt8)
  | array (target : ℕ) (block : List Val) (size : UInt32)
  | vector (elems : List Val)
  | pointer (loc : ℕ) (obj : Val)
  | union (dscm : UInt32) (arm : Val)
  | struct (fields : List Val)

namespace Val

/-- The storage of a long. -/
def asLong : Val → Option UInt32
  | zero => some 0
  | long x => some x
  | _ => none

/-- The storage of a short. -/
def asShort : Val → Option UInt16
  | zero => some 0
  | short x => some x
  | _ => none

/-- The storage of a boolean. -/
def asBool : Val → Option UInt32
  | zero => some 0
  | bool x => some x
  | _ => none

/-- `cnt` bytes of storage. -/
def asOpaque (cnt : ℕ) : Val → Option (List UInt8)
  | zero => some (List.replicate cnt 0)
  | opaq cp => if cp.length = cnt then some cp else none
  | _ => none

/-- A pointer to bytes and their count. -/
def asBytes : Val → Option (ℕ × List UInt8 × UInt32)
  | zero => some (0, [], 0)
  | bytes sp block size => some (sp, block, size)
  | _ => none

/-- A pointer to a string. -/
def asString : Val → Option (ℕ × List UInt8)
  | zero => some (0, [])
  | string sp block => some (sp, block)
  | _ => none

/-- A pointer to elements and their count. -/
def asArray : Val → Option (ℕ × List Val × UInt32)
  | zero => some (0, [], 0)
  | array target block size => some (target, block, size)
  | _ => none

/-- `n` elements one after the other. -/
def asVector (n : ℕ) : Val → Option (List Val)
  | zero => some (List.replicate n zero)
  | vector elems => if elems.length = n then some elems else none
  | _ => none

/-- A pointer to an object. -/
def asPointer : Val → Option (ℕ × Val)
  | zero => some (0, zero)
  | pointer loc obj => some (loc, obj)
  | _ => none

/-- A discriminant and the arm it selects. -/
def asUnion : Val → Option (UInt32 × Val)
  | zero => some (0, zero)
  | union dscm arm => some (dscm, arm)
  | _ => none

/-- The fields of a structure of `n` fields. -/
def asStruct (n : ℕ) : Val → Option (List Val)
  | zero => some (List.replicate n zero)
  | struct fields => if fields.length = n then some fields else none
  | _ => none

end Val

/-! ## The routines -/

/-- `xdrproc_t`: a routine returns its status, the storage it leaves and the handle. -/
abbrev xdrproc_t (σ : Type) := xdr_op → Val → XDR σ → Option (Bool × Val × XDR σ)

section Routines

variable (ops : xdr_ops σ) (al : Allocator)

/-- `xdr_long`; `xdr_u_long`, `xdr_int`, `xdr_u_int` and `xdr_enum` do the same. -/
def xdr_long (op : xdr_op) (lp : UInt32) (xdrs : XDR σ) : Bool × UInt32 × XDR σ :=
  match op with
  | .encode =>
    let (ok, s) := ops.x_putlong lp xdrs.x_private
    (ok, lp, { xdrs with x_private := s })
  | .decode =>
    let (l, s) := ops.x_getlong xdrs.x_private
    (l.isSome, l.getD lp, { xdrs with x_private := s })
  | .free => (true, lp, xdrs)

/-- The long a short is converted to. -/
def longOfShort (x : UInt16) : UInt32 := UInt32.ofBitVec (x.toBitVec.signExtend 32)

/-- `xdr_short` -/
def xdr_short (op : xdr_op) (sp : UInt16) (xdrs : XDR σ) : Bool × UInt16 × XDR σ :=
  match op with
  | .encode =>
    let (ok, s) := ops.x_putlong (longOfShort sp) xdrs.x_private
    (ok, sp, { xdrs with x_private := s })
  | .decode =>
    let (l, s) := ops.x_getlong xdrs.x_private
    (l.isSome, (l.map UInt32.toUInt16).getD sp, { xdrs with x_private := s })
  | .free => (true, sp, xdrs)

/-- `xdr_bool` -/
def xdr_bool (op : xdr_op) (bp : UInt32) (xdrs : XDR σ) : Bool × UInt32 × XDR σ :=
  match op with
  | .encode =>
    let (ok, s) := ops.x_putlong (if bp ≠ 0 then 1 else 0) xdrs.x_private
    (ok, bp, { xdrs with x_private := s })
  | .decode =>
    let (l, s) := ops.x_getlong xdrs.x_private
    (l.isSome, (l.map fun lb => if lb = 0 then 0 else 1).getD bp, { xdrs with x_private := s })
  | .free => (true, bp, xdrs)

/-- `rndup`: the bytes that fill up the last unit. -/
def rndup (cnt : ℕ) : ℕ := if cnt % 4 > 0 then 4 - cnt % 4 else 0

/-- `xdr_opaque`; `cp` has the `cnt` bytes. -/
def xdr_opaque (op : xdr_op) (cp : List UInt8) (xdrs : XDR σ) : Bool × List UInt8 × XDR σ :=
  if cp = [] then (true, cp, xdrs) else
    match op with
    | .decode =>
      match ops.x_getbytes cp.length xdrs.x_private with
      | (none, s) => (false, cp, { xdrs with x_private := s })
      | (some got, s) =>
        if rndup cp.length = 0 then (true, got, { xdrs with x_private := s }) else
          let (crud, s) := ops.x_getbytes (rndup cp.length) s
          (crud.isSome, got, { xdrs with x_private := s })
    | .encode =>
      match ops.x_putbytes cp xdrs.x_private with
      | (false, s) => (false, cp, { xdrs with x_private := s })
      | (true, s) =>
        if rndup cp.length = 0 then (true, cp, { xdrs with x_private := s }) else
          let (ok, s) := ops.x_putbytes (List.replicate (rndup cp.length) 0) s
          (ok, cp, { xdrs with x_private := s })
    | .free => (true, cp, xdrs)

/-- `xdr_opaque` on the first `size` bytes of the block at `sp`. -/
def xdr_opaqueAt (op : xdr_op) (sp : ℕ) (block : List UInt8) (size : UInt32) (xdrs : XDR σ) :
    Option (Bool × List UInt8 × XDR σ) :=
  if size ≠ 0 ∧ (sp = 0 ∨ block.length < size.toNat ∨ 2 ^ 31 ≤ block.length) then none else
    let (ok, cp, xdrs) := xdr_opaque ops op (block.take size.toNat) xdrs
    some (ok, cp ++ block.drop size.toNat, xdrs)

/-- `xdr_bytes`; the pointer, its block and the count. -/
def xdr_bytes (op : xdr_op) (sp : ℕ) (block : List UInt8) (sizep maxsize : UInt32)
    (xdrs : XDR σ) : Option (Bool × (ℕ × List UInt8 × UInt32) × XDR σ) :=
  match xdr_long ops op sizep xdrs with
  | (false, nodesize, xdrs) => some (false, (sp, block, nodesize), xdrs)
  | (true, nodesize, xdrs) =>
    if nodesize > maxsize ∧ op ≠ .free then some (false, (sp, block, nodesize), xdrs) else
      match op with
      | .decode =>
        if nodesize = 0 then some (true, (sp, block, nodesize), xdrs)
        else if sp = 0 then
          let (sp, xdrs) := mem_alloc al nodesize xdrs
          if sp = 0 then some (false, (sp, block, nodesize), xdrs) else
            (xdr_opaqueAt ops op sp (load al.contents sp nodesize.toNat) nodesize xdrs).map
              fun (ok, block, xdrs) => (ok, (sp, block, nodesize), xdrs)
        else
          (xdr_opaqueAt ops op sp block nodesize xdrs).map
            fun (ok, block, xdrs) => (ok, (sp, block, nodesize), xdrs)
      | .encode =>
        (xdr_opaqueAt ops op sp block nodesize xdrs).map
          fun (ok, block, xdrs) => (ok, (sp, block, nodesize), xdrs)
      | .free =>
        if sp ≠ 0 then some (true, (0, [], nodesize), mem_free sp nodesize xdrs)
        else some (true, (sp, block, nodesize), xdrs)

/-- `strlen` -/
def strlen (block : List UInt8) : ℕ := (block.takeWhile (· ≠ 0)).length

/-- The last part of `xdr_string` when decoding into the block at `sp`. -/
def xdr_stringInto (sp : ℕ) (block : List UInt8) (size : UInt32) (xdrs : XDR σ) :
    Option (Bool × (ℕ × List UInt8) × XDR σ) :=
  if block.length ≤ size.toNat then none else
    (xdr_opaqueAt ops .decode sp (block.set size.toNat 0) size xdrs).map
      fun (ok, block, xdrs) => (ok, (sp, block), xdrs)

/-- `xdr_string`; the pointer and its block. -/
def xdr_string (op : xdr_op) (sp : ℕ) (block : List UInt8) (maxsize : UInt32) (xdrs : XDR σ) :
    Option (Bool × (ℕ × List UInt8) × XDR σ) :=
  if op = .free ∧ sp = 0 then some (true, (sp, block), xdrs)
  else if op ≠ .decode ∧ (sp = 0 ∨ 0 ∉ block ∨ 2 ^ 31 ≤ block.length) then none
  else
    match xdr_long ops op (UInt32.ofNat (strlen block)) xdrs with
    | (false, _, xdrs) => some (false, (sp, block), xdrs)
    | (true, size, xdrs) =>
      if size > maxsize then some (false, (sp, block), xdrs) else
        let nodesize := size + 1
        match op with
        | .decode =>
          if sp = 0 then
            let (sp, xdrs) := mem_alloc al nodesize xdrs
            if sp = 0 then some (false, (sp, block), xdrs)
            else xdr_stringInto ops sp (load al.contents sp nodesize.toNat) size xdrs
          else xdr_stringInto ops sp block size xdrs
        | .encode =>
          (xdr_opaqueAt ops op sp block size xdrs).map
            fun (ok, block, xdrs) => (ok, (sp, block), xdrs)
        | .free => some (true, (0, []), mem_free sp nodesize xdrs)

/-- One routine after the other, up to the first that fails: the loops over the elements
of an array, and a routine that calls one for each field of a structure. -/
def xdr_each (op : xdr_op) : List (xdrproc_t σ × Val) → XDR σ →
    Option (Bool × List Val × XDR σ)
  | [], xdrs => some (true, [], xdrs)
  | (proc, v) :: items, xdrs =>
    match proc op v xdrs with
    | none => none
    | some (false, v, xdrs) => some (false, v :: items.map Prod.snd, xdrs)
    | some (true, v, xdrs) =>
      (xdr_each op items xdrs).map fun (ok, vs, xdrs) => (ok, v :: vs, xdrs)

/-- The last part of `xdr_array`: the elements, and the node when it is freed. -/
def xdr_arrayAt (op : xdr_op) (target : ℕ) (block : List Val) (c elsize : UInt32)
    (elproc : xdrproc_t σ) (xdrs : XDR σ) : Option (Bool × (ℕ × List Val × UInt32) × XDR σ) :=
  if c ≠ 0 ∧ (target = 0 ∨ block.length < c.toNat ∨ 2 ^ 31 ≤ c.toNat * elsize.toNat) then none
  else
    (xdr_each op ((block.take c.toNat).map (elproc, ·)) xdrs).map fun (stat, vs, xdrs) =>
      if op = .free then (stat, (0, [], c), mem_free target (c * elsize) xdrs)
      else (stat, (target, vs ++ block.drop c.toNat, c), xdrs)

/-- `xdr_array`; the pointer, its block and the count. -/
def xdr_array (op : xdr_op) (target : ℕ) (block : List Val) (sizep maxsize elsize : UInt32)
    (elproc : xdrproc_t σ) (xdrs : XDR σ) : Option (Bool × (ℕ × List Val × UInt32) × XDR σ) :=
  match xdr_long ops op sizep xdrs with
  | (false, c, xdrs) => some (false, (target, block, c), xdrs)
  | (true, c, xdrs) =>
    if c > maxsize ∧ op ≠ .free then some (false, (target, block, c), xdrs) else
      let nodesize := c * elsize
      if target = 0 then
        match op with
        | .decode =>
          if c = 0 then some (true, (target, block, c), xdrs) else
            let (target, xdrs) := mem_alloc al nodesize xdrs
            if target = 0 then some (false, (target, block, c), xdrs)
            else
              xdr_arrayAt op target (List.replicate c.toNat .zero) c elsize elproc xdrs
        | .free => some (true, (target, block, c), xdrs)
        | .encode => xdr_arrayAt op target block c elsize elproc xdrs
      else xdr_arrayAt op target block c elsize elproc xdrs

/-- `xdr_reference`; the pointer and the object. -/
def xdr_reference (op : xdr_op) (loc : ℕ) (obj : Val) (size : UInt32) (proc : xdrproc_t σ)
    (xdrs : XDR σ) : Option (Bool × (ℕ × Val) × XDR σ) :=
  if loc = 0 then
    match op with
    | .free => some (true, (loc, obj), xdrs)
    | .decode =>
      let (loc, xdrs) := mem_alloc al size xdrs
      if loc = 0 then some (false, (loc, obj), xdrs) else
        (proc op .zero xdrs).map fun (stat, obj, xdrs) => (stat, (loc, obj), xdrs)
    | .encode => none
  else
    (proc op obj xdrs).map fun (stat, obj, xdrs) =>
      if op = .free then (stat, (0, .zero), mem_free loc size xdrs)
      else (stat, (loc, obj), xdrs)

/-- `xdr_pointer`; the pointer and the object. -/
def xdr_pointer (op : xdr_op) (objpp : ℕ) (obj : Val) (obj_size : UInt32)
    (xdr_obj : xdrproc_t σ) (xdrs : XDR σ) : Option (Bool × (ℕ × Val) × XDR σ) :=
  match xdr_bool ops op (if objpp ≠ 0 then 1 else 0) xdrs with
  | (false, _, xdrs) => some (false, (objpp, obj), xdrs)
  | (true, more_data, xdrs) =>
    if more_data = 0 then some (true, (0, obj), xdrs)
    else xdr_reference al op objpp obj obj_size xdr_obj xdrs

/-- `xdr_union`; the discriminant and the arm. -/
def xdr_union (op : xdr_op) (dscmp : UInt32) (unp : Val)
    (choices : List (UInt32 × xdrproc_t σ)) (dfault : Option (xdrproc_t σ)) (xdrs : XDR σ) :
    Option (Bool × (UInt32 × Val) × XDR σ) :=
  match xdr_long ops op dscmp xdrs with
  | (false, dscm, xdrs) => some (false, (dscm, unp), xdrs)
  | (true, dscm, xdrs) =>
    match choices.find? (·.1 == dscm) with
    | some (_, proc) => (proc op unp xdrs).map fun (ok, unp, xdrs) => (ok, (dscm, unp), xdrs)
    | none =>
      match dfault with
      | none => some (false, (dscm, unp), xdrs)
      | some proc => (proc op unp xdrs).map fun (ok, unp, xdrs) => (ok, (dscm, unp), xdrs)

end Routines

/-! ## Types -/

/-- What the routines are combined to: the arguments each is called with.  `call` is a
routine of the program, such as that of a list, by its number. -/
inductive Ty
  | long
  | short
  | bool
  | opaq (cnt : ℕ)
  | bytes (maxsize : UInt32)
  | string (maxsize : UInt32)
  | array (maxsize elsize : UInt32) (elproc : Ty)
  | vector (nelem : ℕ) (elproc : Ty)
  | reference (size : UInt32) (proc : Ty)
  | pointer (size : UInt32) (proc : Ty)
  | union (choices : List (UInt32 × Ty)) (dfault : Option Ty)
  | struct (fields : List Ty)
  | call (f : ℕ)

/-- The routine of a type; `defs` are the routines of the program, and the depth of the
calls is bounded. -/
def proc (ops : xdr_ops σ) (al : Allocator) (defs : ℕ → Ty) : ℕ → Ty → xdrproc_t σ
  | 0, _, _, _, _ => none
  | _ + 1, .long, op, v, xdrs =>
    v.asLong.map fun x => let (ok, x, xdrs) := xdr_long ops op x xdrs; (ok, .long x, xdrs)
  | _ + 1, .short, op, v, xdrs =>
    v.asShort.map fun x => let (ok, x, xdrs) := xdr_short ops op x xdrs; (ok, .short x, xdrs)
  | _ + 1, .bool, op, v, xdrs =>
    v.asBool.map fun x => let (ok, x, xdrs) := xdr_bool ops op x xdrs; (ok, .bool x, xdrs)
  | _ + 1, .opaq cnt, op, v, xdrs =>
    if 2 ^ 31 ≤ cnt then none else
      (v.asOpaque cnt).map fun cp =>
        let (ok, cp, xdrs) := xdr_opaque ops op cp xdrs; (ok, .opaq cp, xdrs)
  | _ + 1, .bytes maxsize, op, v, xdrs =>
    v.asBytes.bind fun (sp, block, size) =>
      (xdr_bytes ops al op sp block size maxsize xdrs).map
        fun (ok, (sp, block, size), xdrs) => (ok, .bytes sp block size, xdrs)
  | _ + 1, .string maxsize, op, v, xdrs =>
    v.asString.bind fun (sp, block) =>
      (xdr_string ops al op sp block maxsize xdrs).map
        fun (ok, (sp, block), xdrs) => (ok, .string sp block, xdrs)
  | n + 1, .array maxsize elsize elproc, op, v, xdrs =>
    v.asArray.bind fun (target, block, size) =>
      (xdr_array ops al op target block size maxsize elsize (proc ops al defs n elproc) xdrs).map
        fun (ok, (target, block, size), xdrs) => (ok, .array target block size, xdrs)
  | n + 1, .vector nelem elproc, op, v, xdrs =>
    (v.asVector nelem).bind fun elems =>
      (xdr_each op (elems.map (proc ops al defs n elproc, ·)) xdrs).map
        fun (ok, elems, xdrs) => (ok, .vector elems, xdrs)
  | n + 1, .reference size ty, op, v, xdrs =>
    v.asPointer.bind fun (loc, obj) =>
      (xdr_reference al op loc obj size (proc ops al defs n ty) xdrs).map
        fun (ok, (loc, obj), xdrs) => (ok, .pointer loc obj, xdrs)
  | n + 1, .pointer size ty, op, v, xdrs =>
    v.asPointer.bind fun (loc, obj) =>
      (xdr_pointer ops al op loc obj size (proc ops al defs n ty) xdrs).map
        fun (ok, (loc, obj), xdrs) => (ok, .pointer loc obj, xdrs)
  | n + 1, .union choices dfault, op, v, xdrs =>
    v.asUnion.bind fun (dscm, arm) =>
      (xdr_union ops op dscm arm (choices.map fun c => (c.1, proc ops al defs n c.2))
        (dfault.map (proc ops al defs n)) xdrs).map
          fun (ok, (dscm, arm), xdrs) => (ok, .union dscm arm, xdrs)
  | n + 1, .struct fields, op, v, xdrs =>
    (v.asStruct fields.length).bind fun vs =>
      (xdr_each op ((fields.map (proc ops al defs n)).zip vs) xdrs).map
        fun (ok, vs, xdrs) => (ok, .struct vs, xdrs)
  | n + 1, .call f, op, v, xdrs => proc ops al defs n (defs f) op v xdrs

end Xdr
