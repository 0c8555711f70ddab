/-
# XDR record streams

`src/lib/libc/rpc/xdr_rec.c` lays a stream of records over a byte stream.  The
two halves of a `RECSTREAM` do not meet: `Out` has its out-going bits and what
`writeit` has taken, `In` its in-coming bits and what `readit` will still give.

A loop of the source runs on a count of its rounds; `none` is a loop that has
run out of them.
-/
import SunOS.Lib.RecordMark

namespace Xdrrec

open Bytes RecordMark

/-! ## The handle -/

/-- The out-going bits, and the bytes `writeit` has been given. -/
structure Out where
  sent : List UInt8
  mem : ℕ → UInt8
  out_base : ℕ
  out_finger : ℕ
  out_boundry : ℕ
  frag_header : ℕ
  frag_sent : Bool

/-- The in-coming bits, and the chunks `readit` will return. -/
structure In where
  incoming : List (List UInt8)
  mem : ℕ → UInt8
  in_size : ℕ
  in_base : ℕ
  in_finger : ℕ
  in_boundry : ℕ
  fbtbc : ℕ
  last_frag : Bool

/-- `sizeof(u_long)` -/
def sizeofLong : ℕ := 4

/-- The loop of `fix_buf_size`. -/
def fix_buf_sizeLoop : ℕ → ℕ
  | 0 => 0
  | s + 1 => if (s + 1) % 4 ≠ 2 then fix_buf_sizeLoop s else s + 1

/-- `fix_buf_size` -/
def fix_buf_size (s : ℕ) : ℕ := if s < 100 then 3998 else fix_buf_sizeLoop s

/-- The out-going half of `xdrrec_create`; `none` when it is out of memory. -/
def xdrrec_createOut (mem_alloc : ℕ → Option ℕ) (mem : ℕ → UInt8) (sendsize : ℕ) : Option Out :=
  (mem_alloc (fix_buf_size sendsize)).map fun base =>
    { sent := []
      mem := mem
      out_base := base
      out_finger := base + sizeofLong
      out_boundry := base + fix_buf_size sendsize
      frag_header := base
      frag_sent := false }

/-- The in-coming half of `xdrrec_create`; `none` when it is out of memory. -/
def xdrrec_createIn (mem_alloc : ℕ → Option ℕ) (mem : ℕ → UInt8) (incoming : List (List UInt8))
    (recvsize : ℕ) : Option In :=
  (mem_alloc (fix_buf_size recvsize)).map fun base =>
    { incoming := incoming
      mem := mem
      in_size := fix_buf_size recvsize
      in_base := base
      in_finger := base + fix_buf_size recvsize
      in_boundry := base + fix_buf_size recvsize
      fbtbc := 0
      last_frag := true }

/-! ## Writing -/

section Writing

-- whether `writeit`, having taken the first bytes, takes all of the next
variable (writeit : List UInt8 → List UInt8 → Bool)

/-- `flush_out` -/
def flush_out (eor : Bool) (s : Out) : Bool × Out :=
  let len := s.out_finger - s.frag_header - sizeofLong
  let mem := store s.mem s.frag_header (htonl (header eor len))
  let len := s.out_finger - s.out_base
  let buf := load mem s.out_base len
  if writeit s.sent buf = true then
    (true, { s with
      sent := s.sent ++ buf
      mem := mem
      frag_header := s.out_base
      out_finger := s.out_base + sizeofLong })
  else (false, { s with mem := mem })

/-- `xdrrec_putlong` -/
def xdrrec_putlong (lp : UInt32) (s : Out) : Bool × Out :=
  if s.out_finger + sizeofLong > s.out_boundry then
    match flush_out writeit false { s with frag_sent := true } with
    | (false, s) => (false, s)
    | (true, s) => (true, { s with
        mem := store s.mem s.out_finger (htonl lp)
        out_finger := s.out_finger + sizeofLong })
  else (true, { s with
    mem := store s.mem s.out_finger (htonl lp)
    out_finger := s.out_finger + sizeofLong })

/-- `xdrrec_putbytes` -/
def xdrrec_putbytes : ℕ → List UInt8 → Out → Option (Bool × Out)
  | 0, _, _ => none
  | fuel + 1, addr, s =>
    if addr = [] then some (true, s) else
      let current := s.out_boundry - s.out_finger
      let current := min addr.length current
      let s := { s with
        mem := store s.mem s.out_finger (addr.take current)
        out_finger := s.out_finger + current }
      let addr := addr.drop current
      if s.out_finger = s.out_boundry then
        match flush_out writeit false { s with frag_sent := true } with
        | (false, s) => some (false, s)
        | (true, s) => xdrrec_putbytes fuel addr s
      else xdrrec_putbytes fuel addr s

/-- `xdrrec_endofrecord` -/
def xdrrec_endofrecord (sendnow : Bool) (s : Out) : Bool × Out :=
  if sendnow = true ∨ s.frag_sent = true ∨ s.out_finger + sizeofLong ≥ s.out_boundry then
    flush_out writeit true { s with frag_sent := false }
  else
    let len := s.out_finger - s.frag_header - sizeofLong
    (true, { s with
      mem := store s.mem s.frag_header (htonl (header true len))
      frag_header := s.out_finger
      out_finger := s.out_finger + sizeofLong })

/-- A call that puts data on the stream. -/
inductive Put
  | long (lp : UInt32)
  | bytes (addr : List UInt8)

/-- The bytes a call puts on the stream. -/
def Put.data : Put → List UInt8
  | .long lp => htonl lp
  | .bytes addr => addr

/-- One call that puts data on the stream. -/
def put (fuel : ℕ) : Put → Out → Option (Bool × Out)
  | .long lp, s => some (xdrrec_putlong writeit lp s)
  | .bytes addr, s => xdrrec_putbytes writeit fuel addr s

/-- The calls that put the data of a record, up to the first that fails. -/
def putAll (fuel : ℕ) : List Put → Out → Option (Bool × Out)
  | [], s => some (true, s)
  | p :: ps, s =>
    match put writeit fuel p s with
    | none => none
    | some (false, s) => some (false, s)
    | some (true, s) => putAll fuel ps s

/-- The calls that write one record after the other, up to the first that fails. -/
def writeRecords (fuel : ℕ) : List (List Put × Bool) → Out → Option (Bool × Out)
  | [], s => some (true, s)
  | (ps, sendnow) :: recs, s =>
    match putAll writeit fuel ps s with
    | none => none
    | some (false, s) => some (false, s)
    | some (true, s) =>
      match xdrrec_endofrecord writeit sendnow s with
      | (false, s) => some (false, s)
      | (true, s) => writeRecords fuel recs s

end Writing

/-! ## Reading -/

/-- `readit`: at most `len` bytes of the next chunk; it fails when there is none. -/
def readit (len : ℕ) : List (List UInt8) → Option (List UInt8 × List (List UInt8))
  | [] => none
  | c :: cs => if c.length ≤ len then some (c, cs) else some (c.take len, c.drop len :: cs)

/-- `fill_input_buf` -/
def fill_input_buf (s : In) : Option In :=
  -- keep stream odd bytes aligned with memory odd bytes
  let odd := s.in_boundry % 2
  let wher := s.in_base + odd
  let len := s.in_size - odd
  (readit len s.incoming).map fun (c, incoming) =>
    { s with
      incoming := incoming
      mem := store s.mem wher c
      in_finger := wher
      in_boundry := wher + c.length }

/-- `get_input_bytes`; the bytes are what it has copied to `addr`. -/
def get_input_bytes : ℕ → ℕ → In → Option (Bool × List UInt8 × In)
  | 0, _, _ => none
  | fuel + 1, len, s =>
    if len = 0 then some (true, [], s) else
      let current := s.in_boundry - s.in_finger
      if current = 0 then
        match fill_input_buf s with
        | none => some (false, [], s)
        | some s => get_input_bytes fuel len s
      else
        let current := min len current
        let got := load s.mem s.in_finger current
        (get_input_bytes fuel (len - current) { s with in_finger := s.in_finger + current }).map
          fun (ok, bytes, s) => (ok, got ++ bytes, s)

/-- `skip_input_bytes` -/
def skip_input_bytes : ℕ → ℕ → In → Option (Bool × In)
  | 0, _, _ => none
  | fuel + 1, cnt, s =>
    if cnt = 0 then some (true, s) else
      let current := s.in_boundry - s.in_finger
      if current = 0 then
        match fill_input_buf s with
        | none => some (false, s)
        | some s => skip_input_bytes fuel cnt s
      else
        let current := min cnt current
        skip_input_bytes fuel (cnt - current) { s with in_finger := s.in_finger + current }

/-- `set_input_fragment` -/
def set_input_fragment (fuel : ℕ) (s : In) : Option (Bool × In) :=
  (get_input_bytes fuel sizeofLong s).map fun (ok, bytes, s) =>
    if ok = false then (false, s) else
      let header := ntohl bytes
      (true, { s with
        last_frag := if header &&& LAST_FRAG = 0 then false else true
        fbtbc := (header &&& ~~~LAST_FRAG).toNat })

/-- `xdrrec_getbytes`; the bytes are what it has copied to `addr`. -/
def xdrrec_getbytes : ℕ → ℕ → In → Option (Bool × List UInt8 × In)
  | 0, _, _ => none
  | fuel + 1, len, s =>
    if len = 0 then some (true, [], s) else
      let current := s.fbtbc
      if current = 0 then
        if s.last_frag = true then some (false, [], s) else
          match set_input_fragment (fuel + 1) s with
          | none => none
          | some (false, s) => some (false, [], s)
          | some (true, s) => xdrrec_getbytes fuel len s
      else
        let current := min len current
        match get_input_bytes (fuel + 1) current s with
        | none => none
        | some (false, bytes, s) => some (false, bytes, s)
        | some (true, got, s) =>
          (xdrrec_getbytes fuel (len - current) { s with fbtbc := s.fbtbc - current }).map
            fun (ok, bytes, s) => (ok, got ++ bytes, s)

/-- `xdrrec_getlong`; the word is what it has put in `*lp`. -/
def xdrrec_getlong (fuel : ℕ) (s : In) : Option (Option UInt32 × In) :=
  if s.fbtbc ≥ sizeofLong ∧ s.in_boundry - s.in_finger ≥ sizeofLong then
    -- the inline, fast case
    some (some (ntohl (load s.mem s.in_finger sizeofLong)), { s with
      fbtbc := s.fbtbc - sizeofLong
      in_finger := s.in_finger + sizeofLong })
  else
    (xdrrec_getbytes fuel sizeofLong s).map fun (ok, mylong, s) =>
      if ok = false then (none, s) else (some (ntohl mylong), s)

/-- `xdrrec_skiprecord` -/
def xdrrec_skiprecord : ℕ → In → Option (Bool × In)
  | 0, _ => none
  | fuel + 1, s =>
    if s.fbtbc > 0 ∨ s.last_frag = false then
      match skip_input_bytes (fuel + 1) s.fbtbc s with
      | none => none
      | some (false, s) => some (false, s)
      | some (true, s) =>
        let s := { s with fbtbc := 0 }
        if s.last_frag = false then
          match set_input_fragment (fuel + 1) s with
          | none => none
          | some (false, s) => some (false, s)
          | some (true, s) => xdrrec_skiprecord fuel s
        else xdrrec_skiprecord fuel s
    else some (true, { s with last_frag := false })

/-- A call of the reader. -/
inductive Get
  | long
  | bytes (len : ℕ)
  | skiprecord

/-- What a call of the reader returns. -/
inductive Answer
  | long (lp : Option UInt32)
  | bytes (addr : Option (List UInt8))
  | skiprecord (ok : Bool)
  deriving DecidableEq

/-- One call of the reader. -/
def get (fuel : ℕ) : Get → In → Option (Answer × In)
  | .long, s => (xdrrec_getlong fuel s).map fun (lp, s) => (.long lp, s)
  | .bytes len, s => (xdrrec_getbytes fuel len s).map fun (ok, bytes, s) =>
      (.bytes (if ok = true then some bytes else none), s)
  | .skiprecord, s => (xdrrec_skiprecord fuel s).map fun (ok, s) => (.skiprecord ok, s)

/-- What one call after the other returns. -/
def getAll (fuel : ℕ) : List Get → In → Option (List Answer)
  | [], _ => some []
  | g :: gs, s =>
    match get fuel g s with
    | none => none
    | some (a, s) => (getAll fuel gs s).map (a :: ·)

end Xdrrec
