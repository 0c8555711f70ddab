/-
# The reply to a readdir call (`nfs/nfs_xdr.c`)

`xdr_getrddirres` turns the entries of a reply into directory records in the client's buffer of
`rd_size` bytes.  It stores the file number and the length of a name before it asks whether the
record fits.

The stream is the bytes of the reply that are left.  A result `none` is a store outside of the
buffer.
-/
import SunOS.Rpc.Xdr
import Mathlib.Algebra.Order.Ring.Int
import Mathlib.Data.List.Basic
import Mathlib.Tactic.Tauto

namespace Rddir

open Option
open List
open Bytes Xdr

def NFS_OK : UInt32 := 0

/-- The XDR stream over the bytes of a reply. -/
def reply : xdr_ops (List UInt8) where
  x_getlong s := if 4 ≤ s.length then (some (ntohl (s.take 4)), s.drop 4) else (none, s)
  x_putlong _ s := (false, s)
  x_getbytes n s := if n ≤ s.length then (some (s.take n), s.drop n) else (none, s)
  x_putbytes _ s := (false, s)

/-- `struct nfsrddirres`; the buffer at `rd_entries` is the list of its bytes. -/
structure nfsrddirres where
  rd_status : UInt32
  rd_offset : UInt32
  rd_size : ℤ
  rd_eof : UInt32
  rd_entries : List UInt8

/-- The bytes of a `u_short`. -/
def htons (x : ℕ) : List UInt8 := [UInt8.ofNat (x / 256), UInt8.ofNat x]

/-- Store `bs` at `off`. -/
def put (off : ℕ) (bs buf : List UInt8) : Option (List UInt8) :=
  if off + bs.length ≤ buf.length then
    some (buf.take off ++ bs ++ buf.drop (off + bs.length))
  else none

/-- `reclen(dp)`, by the length of the name; `roundtoint(x)` is `(x + 4) & ~3`. -/
def reclen (namlen : ℕ) : ℕ := (namlen + 1 + 4 + 2 * 2 + 4) / 4 * 4

/-- The loop over the entries, at the record `dp` with `size` bytes left.  The answer is the
status, the buffer, and behind the last entry also `dp` and `offset`. -/
def loop : ℕ → ℕ → ℤ → UInt32 → List UInt8 → XDR (List UInt8) →
    Option (Bool × ℕ × UInt32 × List UInt8 × XDR (List UInt8))
  | 0, _, _, _, _, _ => none
  | fuel + 1, dp, size, offset, buf, xdrs =>
    match xdr_bool reply .decode 0 xdrs with
    | (false, _, xdrs) => some (false, dp, offset, buf, xdrs)
    | (true, valid, xdrs) =>
      if valid = 0 then some (true, dp, offset, buf, xdrs)
      else
        match xdr_long reply .decode 0 xdrs with
        | (false, _, xdrs) => some (false, dp, offset, buf, xdrs)
        | (true, d_fileno, xdrs) => do
          let buf ← put dp (htonl d_fileno) buf
          match xdr_long reply .decode 0 xdrs with
          | (false, _, xdrs) => some (false, dp, offset, buf, xdrs)
          | (true, l, xdrs) => do
            let d_namlen := l.toNat % 65536
            let buf ← put (dp + 6) (htons d_namlen) buf
            if (reclen d_namlen : ℤ) > size then some (false, dp, offset, buf, xdrs)
            else
              match xdr_opaque reply .decode (List.replicate d_namlen 0) xdrs with
              | (false, _, xdrs) => some (false, dp, offset, buf, xdrs)
              | (true, d_name, xdrs) => do
                let buf ← put (dp + 8) d_name buf
                match xdr_long reply .decode 0 xdrs with
                | (false, _, xdrs) => some (false, dp, offset, buf, xdrs)
                | (true, offset, xdrs) => do
                  let d_reclen := reclen d_namlen % 65536
                  let buf ← put (dp + 4) (htons d_reclen) buf
                  let buf ← put (dp + 8 + d_namlen) [0] buf
                  let size := size - d_reclen
                  if size ≤ 0 then some (false, dp, offset, buf, xdrs)
                  else loop fuel (dp + d_reclen) size offset buf xdrs

/-- `xdr_getrddirres(xdrs, rd)`.  Each turn of the loop takes bytes from the stream. -/
def xdr_getrddirres (rd : nfsrddirres) (xdrs : XDR (List UInt8)) :
    Option (Bool × nfsrddirres × XDR (List UInt8)) :=
  match xdr_long reply .decode rd.rd_status xdrs with
  | (false, rd_status, xdrs) => some (false, { rd with rd_status := rd_status }, xdrs)
  | (true, rd_status, xdrs) =>
    let rd := { rd with rd_status := rd_status }
    if rd_status ≠ NFS_OK then some (true, rd, xdrs)
    else do
      let (ok, dp, offset, buf, xdrs) ←
        loop (xdrs.x_private.length + 1) 0 rd.rd_size 0xffffffff rd.rd_entries xdrs
      let rd := { rd with rd_entries := buf }
      if ok then
        match xdr_bool reply .decode rd.rd_eof xdrs with
        | (false, rd_eof, xdrs) => some (false, { rd with rd_eof := rd_eof }, xdrs)
        | (true, rd_eof, xdrs) =>
          some (true, { rd with rd_eof := rd_eof, rd_size := dp, rd_offset := offset }, xdrs)
      else some (false, rd, xdrs)

/-! ## Records -/

/-- The `u_short` at `i`. -/
def shortAt (i : ℕ) (l : List UInt8) : Option ℕ := do
  let hi ← l[i]?
  let lo ← l[i + 1]?
  some (hi.toNat * 256 + lo.toNat)

/-- A `struct direct` of `d_reclen` bytes: a multiple of 4, enough for the header and for the name
with the null behind it. -/
def IsDirect (rec : List UInt8) : Prop :=
  shortAt 4 rec = some rec.length ∧ rec.length % 4 = 0 ∧
    ∃ d_namlen, shortAt 6 rec = some d_namlen ∧ 8 + d_namlen + 1 ≤ rec.length ∧
      rec[8 + d_namlen]? = some 0

/-- The bytes are records, one behind the other. -/
def Tiled (l : List UInt8) : Prop := ∃ recs : List (List UInt8), l = recs.flatten ∧
  ∀ rec ∈ recs, IsDirect rec

/-- What is asked of the call: it ends without a store outside of the buffer, and if it returns
`TRUE` with a listing, the first `rd_size` bytes are records. -/
def Decodes (rd : nfsrddirres) (xdrs : XDR (List UInt8)) : Prop :=
  ∃ ok rd' xdrs', xdr_getrddirres rd xdrs = some (ok, rd', xdrs') ∧
    (ok = true → rd'.rd_status = NFS_OK → ∃ n : ℕ, rd'.rd_size = n ∧ n ≤ rd'.rd_entries.length ∧
      Tiled (rd'.rd_entries.take n))

/-! ## The entries of a reply -/

/-- The entry of a name of `n` bytes, and what `more` says of the bytes behind it. -/
def entryRest (more : XDR (List UInt8) → List ℕ × ℕ) (n : ℕ) (xdrs : XDR (List UInt8)) :
    List ℕ × ℕ :=
  match xdr_opaque reply .decode (List.replicate n 0) xdrs with
  | (false, _, _) => ([], 8)
  | (true, _, xdrs) =>
    match xdr_long reply .decode 0 xdrs with
    | (false, _, _) => ([], 8)
    | (true, _, xdrs) => (n :: (more xdrs).1, (more xdrs).2)

/-- The lengths of the names of the entries in a reply that are complete, and how many bytes of a
record are stored for the next one: 4 with the file number, 8 with the length of the name. -/
def entries : ℕ → XDR (List UInt8) → List ℕ × ℕ
  | 0, _ => ([], 0)
  | fuel + 1, xdrs =>
    match xdr_bool reply .decode 0 xdrs with
    | (false, _, _) => ([], 0)
    | (true, valid, xdrs) =>
      if valid = 0 then ([], 0)
      else
        match xdr_long reply .decode 0 xdrs with
        | (false, _, _) => ([], 0)
        | (true, _, xdrs) =>
          match xdr_long reply .decode 0 xdrs with
          | (false, _, _) => ([], 4)
          | (true, l, xdrs) => entryRest (entries fuel) (l.toNat % 65536) xdrs

/-- While there are bytes left, 8 are there for each complete entry, and for the next as many as
are stored. -/
def Roomy (need : ℕ) : List ℕ → ℤ → Prop
  | [], size => size ≤ 0 ∨ need ≤ size
  | n :: ns, size => (size ≤ 0 ∨ 8 ≤ size) ∧ Roomy need ns (size - reclen n)

/-- No record that fits in the bytes left is too long for its `u_short`. -/
def Shorts : List ℕ → ℤ → Prop
  | [], _ => True
  | n :: ns, size => (reclen n : ℤ) ≤ size → reclen n < 65536 ∧ Shorts ns (size - reclen n)

/-! ## The stream and the buffer -/

variable {bs buf buf' : List UInt8}

variable {xdrs xdrs' : XDR (List UInt8)}

theorem xdr_long_length {v l : UInt32} (h : xdr_long reply .decode v xdrs = (true, l, xdrs')) :
    xdrs'.x_private.length + 4 ≤ xdrs.x_private.length := by
  unfold xdr_long reply at h
  by_cases hlen : 4 ≤ xdrs.x_private.length
  · simp only [if_pos hlen] at h
    cases h
    rw [length_drop]
    omega
  · simp only [if_neg hlen] at h
    cases h

theorem xdr_bool_length {v l : UInt32} (h : xdr_bool reply .decode v xdrs = (true, l, xdrs')) :
    xdrs'.x_private.length + 4 ≤ xdrs.x_private.length := by
  unfold xdr_bool reply at h
  by_cases hlen : 4 ≤ xdrs.x_private.length
  · simp only [if_pos hlen] at h
    cases h
    rw [length_drop]
    omega
  · simp only [if_neg hlen] at h
    cases h

theorem xdr_opaque_length {cp got : List UInt8}
    (h : xdr_opaque reply .decode cp xdrs = (true, got, xdrs')) :
    got.length = cp.length ∧ xdrs'.x_private.length ≤ xdrs.x_private.length := by
  unfold xdr_opaque reply at h
  by_cases hcp : cp = []
  · rw [if_pos hcp] at h
    cases h
    exact ⟨rfl, le_rfl⟩
  · rw [if_neg hcp] at h
    by_cases hlen : cp.length ≤ xdrs.x_private.length
    · simp only [if_pos hlen] at h
      by_cases hup : rndup cp.length = 0
      · rw [if_pos hup] at h
        cases h
        refine ⟨length_take_of_le hlen, ?_⟩
        rw [length_drop]
        omega
      · rw [if_neg hup] at h
        by_cases hcrud : rndup cp.length ≤ (xdrs.x_private.drop cp.length).length
        · simp only [if_pos hcrud] at h
          cases h
          refine ⟨length_take_of_le hlen, ?_⟩
          rw [length_drop, length_drop]
          omega
        · simp only [if_neg hcrud] at h
          cases h
    · simp only [if_neg hlen] at h
      cases h

/-- `buf'` is `buf` with `bs` stored at `off`. -/
structure Stored (off : ℕ) (bs buf buf' : List UInt8) : Prop where
  length : buf'.length = buf.length
  here : ∀ i < bs.length, buf'[off + i]? = bs[i]?
  before : ∀ i < off, buf'[i]? = buf[i]?
  after : ∀ i, off + bs.length ≤ i → buf'[i]? = buf[i]?

theorem put_stored (off : ℕ) (bs buf : List UInt8) (h : off + bs.length ≤ buf.length) :
    ∃ buf', put off bs buf = some buf' ∧ Stored off bs buf buf' := by
  have htake : (buf.take off).length = off := length_take_of_le (by omega)
  refine ⟨_, if_pos h, ?_, ?_, ?_, ?_⟩
  · simp only [length_append, htake, length_drop]
    omega
  · intro i hi
    rw [append_assoc, List.getElem?_append_right (by omega), htake,
      List.getElem?_append_left (by omega), Nat.add_sub_cancel_left]
  · intro i hi
    rw [append_assoc, List.getElem?_append_left (by omega), List.getElem?_take_of_lt hi]
  · intro i hi
    rw [List.getElem?_append_right (by rw [length_append, htake]; exact hi),
      List.getElem?_drop, length_append, htake]
    congr 1
    omega

theorem put_none {off : ℕ} {bs buf : List UInt8} (h : ¬ off + bs.length ≤ buf.length) :
    put off bs buf = none := if_neg h

theorem Stored.take {off : ℕ} (h : Stored off bs buf buf') {n : ℕ}
    (hn : n ≤ off) : buf'.take n = buf.take n := by
  apply List.ext_getElem?
  intro i
  by_cases hi : i < n
  · rw [List.getElem?_take_of_lt hi, List.getElem?_take_of_lt hi, h.before i (by omega)]
  · rw [List.getElem?_eq_none (by rw [length_take]; omega),
      List.getElem?_eq_none (by rw [length_take]; omega)]

/-- A `u_short` is read back. -/
theorem Stored.short {off x : ℕ} {buf buf' : List UInt8} (h : Stored off (htons x) buf buf')
    (hx : x < 65536) : shortAt off buf' = some x := by
  have h0 := h.here 0 (by decide : 0 < 2)
  have h1 := h.here 1 (by decide : 1 < 2)
  rw [Nat.add_zero] at h0
  rw [shortAt, h0, h1]
  show some ((UInt8.ofNat (x / 256)).toNat * 256 + (UInt8.ofNat x).toNat) = some x
  rw [UInt8.toNat_ofNat', UInt8.toNat_ofNat']
  congr 1
  omega

/-- A `u_short` elsewhere stays. -/
theorem Stored.shortAt_of_ne {off i : ℕ} (h : Stored off bs buf buf')
    (hi : i + 1 < off ∨ off + bs.length ≤ i) : shortAt i buf' = shortAt i buf := by
  unfold shortAt
  rcases hi with hi | hi
  · rw [h.before i (by omega), h.before (i + 1) hi]
  · rw [h.after i hi, h.after (i + 1) (by omega)]

theorem tiled_nil : Tiled [] := ⟨[], rfl, by simp⟩

theorem Tiled.snoc {l rec : List UInt8} (h : Tiled l) (hr : IsDirect rec) : Tiled (l ++ rec) := by
  obtain ⟨recs, rfl, hrecs⟩ := h
  refine ⟨recs ++ [rec], by simp, ?_⟩
  intro r hr'
  rcases List.mem_append.mp hr' with hr' | hr'
  · exact hrecs r hr'
  · rw [List.mem_singleton.mp hr']
    exact hr

theorem shortAt_part {l : List UInt8} {dp r i : ℕ} (hi : i + 1 < r) :
    shortAt i ((l.drop dp).take r) = shortAt (dp + i) l := by
  rw [shortAt, List.getElem?_take_of_lt (by omega), List.getElem?_take_of_lt hi,
    List.getElem?_drop, List.getElem?_drop]
  rfl

theorem reclen_spec (n : ℕ) : 8 + n + 1 ≤ reclen n ∧ 12 ≤ reclen n ∧ reclen n % 4 = 0 := by
  unfold reclen
  omega

/-- The stores of one entry leave a record. -/
theorem isDirect_stored {dp n : ℕ} {d_name b₁ b₂ b₃ b4 b5 : List UInt8}
    (h2 : Stored (dp + 6) (htons n) b₁ b₂) (h3 : Stored (dp + 8) d_name b₂ b₃)
    (h4 : Stored (dp + 4) (htons (reclen n)) b₃ b4) (h5 : Stored (dp + 8 + n) [0] b4 b5)
    (hn : reclen n < 65536) (hfit : dp + reclen n ≤ b₁.length) :
    IsDirect ((b5.drop dp).take (reclen n)) := by
  obtain ⟨hname, hmin, hmod⟩ := reclen_spec n
  have hlen : ((b5.drop dp).take (reclen n)).length = reclen n := by
    rw [length_take, length_drop, h5.length, h4.length, h3.length, h2.length]
    omega
  have hsize : (htons (reclen n)).length = 2 := rfl
  refine ⟨?_, hlen.symm ▸ hmod, n, ?_, hlen.symm ▸ hname, ?_⟩
  · rw [shortAt_part (by omega), hlen, h5.shortAt_of_ne (Or.inl (by omega)), h4.short hn]
  · rw [shortAt_part (by omega), h5.shortAt_of_ne (Or.inl (by omega)),
      h4.shortAt_of_ne (Or.inr (by omega)), h3.shortAt_of_ne (Or.inl (by omega)),
      h2.short (by omega)]
  · rw [List.getElem?_take_of_lt (by omega), List.getElem?_drop, ← Nat.add_assoc]
    exact h5.here 0 Nat.one_pos

theorem roomy_of_nonpos {need : ℕ} : ∀ {ns : List ℕ} {size : ℤ}, size ≤ 0 → Roomy need ns size
  | [], _, h => Or.inl h
  | n :: _, _, h => ⟨Or.inl h, roomy_of_nonpos (by have := (reclen_spec n).2.1; omega)⟩

/-- With the length of its name an entry stores 8 bytes. -/
theorem le_of_roomy {more : XDR (List UInt8) → List ℕ × ℕ} {n : ℕ} {size : ℤ} (hpos : 0 < size)
    (h : Roomy (entryRest more n xdrs).2 (entryRest more n xdrs).1 size) : 8 ≤ size := by
  rw [entryRest] at h
  rcases hname : xdr_opaque reply .decode (List.replicate n 0) xdrs with ⟨ok, d_name, xdrs1⟩
  simp only [hname] at h
  cases ok with
  | false => exact h.resolve_left (not_le.mpr hpos)
  | true =>
    rcases hoffset : xdr_long reply .decode 0 xdrs1 with ⟨ok, offset, xdrs2⟩
    simp only [hoffset] at h
    cases ok with
    | false => exact h.resolve_left (not_le.mpr hpos)
    | true => exact h.1.resolve_left (not_le.mpr hpos)

/-- The loop ends within the buffer, and behind its last entry there are records. -/
def LoopDecodes (r : Option (Bool × ℕ × UInt32 × List UInt8 × XDR (List UInt8))) : Prop :=
  ∃ ok dp offset buf xdrs, r = some (ok, dp, offset, buf, xdrs) ∧
    (ok = true → dp ≤ buf.length ∧ Tiled (buf.take dp))

/-- It does so, or a store fails, as `c` says. -/
def Decided (r : Option (Bool × ℕ × UInt32 × List UInt8 × XDR (List UInt8))) (c : Prop) : Prop :=
  c ∧ LoopDecodes r ∨ ¬ c ∧ r = none

theorem decided_false {dp : ℕ} {offset : UInt32} {buf : List UInt8} {c : Prop} (h : c) :
    Decided (some (false, dp, offset, buf, xdrs)) c :=
  Or.inl ⟨h, false, dp, offset, buf, xdrs, rfl, fun h => by cases h⟩

theorem decided_none {c : Prop} (h : ¬ c) : Decided none c := Or.inr ⟨h, rfl⟩

/-- **The loop**, with `dp` bytes of records done and `size` bytes left. -/
theorem loop_decided : ∀ (fuel dp : ℕ) (size : ℤ) (offset : UInt32) (buf : List UInt8)
    (xdrs : XDR (List UInt8)), xdrs.x_private.length < fuel → (dp + size : ℤ) = buf.length →
    0 < size → Tiled (buf.take dp) → Shorts (entries fuel xdrs).1 size →
    Decided (loop fuel dp size offset buf xdrs)
      (Roomy (entries fuel xdrs).2 (entries fuel xdrs).1 size) := by
  intro fuel
  induction fuel with
  | zero =>
    intro dp size offset buf xdrs hfuel
    cases hfuel
  | succ fuel ih =>
    intro dp size offset buf xdrs hfuel hsize hpos htiled hshorts
    rw [loop]
    rw [entries] at hshorts ⊢
    rcases hvalid : xdr_bool reply .decode 0 xdrs with ⟨ok, valid, xdrs1⟩
    simp only [hvalid] at hshorts ⊢
    cases ok with
    | false => exact decided_false (Or.inr (by simpa using hpos.le))
    | true =>
      have hlen1 := xdr_bool_length hvalid
      by_cases hv : valid = 0
      · simp only [if_pos hv] at hshorts ⊢
        refine Or.inl ⟨Or.inr (by simpa using hpos.le), true, dp, offset, buf, xdrs1, rfl,
          fun _ => ?_⟩
        exact ⟨by omega, htiled⟩
      simp only [if_neg hv] at hshorts ⊢
      rcases hfileno : xdr_long reply .decode 0 xdrs1 with ⟨ok, d_fileno, xdrs2⟩
      simp only [hfileno] at hshorts ⊢
      cases ok with
      | false => exact decided_false (Or.inr (by simpa using hpos.le))
      | true =>
        have hlen2 := xdr_long_length hfileno
        rcases hnamlen : xdr_long reply .decode 0 xdrs2 with ⟨ok, l, xdrs3⟩
        simp only [hnamlen] at hshorts ⊢
        cases ok with
        | false =>
          by_cases h4 : 4 ≤ size
          · obtain ⟨buf1, hput1, -⟩ := put_stored dp (htonl d_fileno) buf
              (by rw [length_htonl]; omega)
            rw [hput1]
            exact decided_false (Or.inr h4)
          · rw [put_none (by rw [length_htonl]; omega)]
            exact decided_none fun h => h4 (h.resolve_left (not_le.mpr hpos))
        | true =>
          have hlen3 := xdr_long_length hnamlen
          simp only at hshorts ⊢
          generalize hn : l.toNat % 65536 = n at hshorts ⊢
          by_cases h8 : ¬ 8 ≤ size
          · -- the length of the name is stored behind the buffer, if not the file number already
            have hnot : ¬ Roomy (entryRest (entries fuel) n xdrs3).2
                (entryRest (entries fuel) n xdrs3).1 size := fun h => h8 (le_of_roomy hpos h)
            by_cases h4 : 4 ≤ size
            · obtain ⟨buf1, hput1, hs1⟩ := put_stored dp (htonl d_fileno) buf
                (by rw [length_htonl]; omega)
              rw [hput1, bind_eq_bind, bind_some,
                put_none (by rw [hs1.length]; show ¬ dp + 6 + 2 ≤ _; omega)]
              exact decided_none hnot
            · rw [put_none (by rw [length_htonl]; omega)]
              exact decided_none hnot
          obtain ⟨buf1, hput1, hs1⟩ := put_stored dp (htonl d_fileno) buf
            (by rw [length_htonl]; omega)
          obtain ⟨buf2, hput2, hs2⟩ := put_stored (dp + 6) (htons n) buf1
            (by rw [hs1.length]; show dp + 6 + 2 ≤ _; omega)
          simp only [hput1, hput2, bind_eq_bind, bind_some]
          obtain ⟨hrec, -, -⟩ := reclen_spec n
          rw [entryRest] at hshorts ⊢
          rcases hname : xdr_opaque reply .decode (List.replicate n 0) xdrs3
            with ⟨ok, d_name, xdrs4⟩
          simp only [hname] at hshorts ⊢
          by_cases hfit : (reclen n : ℤ) > size
          · -- "entry error"
            rw [if_pos hfit]
            apply decided_false
            cases ok with
            | false => exact Or.inr (by simpa using h8)
            | true =>
              rcases hoffset : xdr_long reply .decode 0 xdrs4 with ⟨ok, offset', xdrs5⟩
              simp only [hoffset]
              cases ok with
              | false => exact Or.inr (by simpa using h8)
              | true => exact ⟨Or.inr (by simpa using h8), roomy_of_nonpos (by omega)⟩
          rw [if_neg hfit]
          cases ok with
          | false => exact decided_false (Or.inr (by simpa using h8))
          | true =>
            obtain ⟨hlen4, hlen4'⟩ := xdr_opaque_length hname
            rw [length_replicate] at hlen4
            obtain ⟨buf3, hput3, hs3⟩ := put_stored (dp + 8) d_name buf2
              (by rw [hs2.length, hs1.length]; omega)
            simp only [hput3, bind_some]
            rcases hoffset : xdr_long reply .decode 0 xdrs4 with ⟨ok, offset', xdrs5⟩
            simp only [hoffset] at hshorts ⊢
            cases ok with
            | false => exact decided_false (Or.inr (by simpa using h8))
            | true =>
              have hlen5 := xdr_long_length hoffset
              obtain ⟨hshort, hrest⟩ : reclen n < 65536 ∧ Shorts _ (size - reclen n) :=
                hshorts (by omega)
              obtain ⟨buf4, hput4, hs4⟩ := put_stored (dp + 4) (htons (reclen n)) buf3
                (by rw [hs3.length, hs2.length, hs1.length]; show dp + 4 + 2 ≤ _; omega)
              obtain ⟨buf5, hput5, hs5⟩ := put_stored (dp + 8 + n) [0] buf4 (by
                rw [hs4.length, hs3.length, hs2.length, hs1.length, length_singleton]
                omega)
              simp only [Nat.mod_eq_of_lt hshort, hput4, hput5, bind_some]
              have hroomy : ∀ need ns, Roomy need (n :: ns) size ↔
                Roomy need ns (size - reclen n) :=
                fun _ _ => and_iff_right (Or.inr (by simpa using h8))
              rw [hroomy]
              by_cases hend : size - reclen n ≤ 0
              · rw [if_pos hend]
                exact decided_false (roomy_of_nonpos hend)
              · rw [if_neg hend]
                have hlength : buf5.length = buf.length := by
                  rw [hs5.length, hs4.length, hs3.length, hs2.length, hs1.length]
                apply ih
                · omega
                · push_cast
                  omega
                · omega
                · rw [take_add, hs5.take (by omega), hs4.take (by omega),
                    hs3.take (by omega), hs2.take (by omega), hs1.take le_rfl]
                  exact htiled.snoc (isDirect_stored hs2 hs3 hs4 hs5 hshort
                    (by rw [hs1.length]; omega))
                · exact hrest

/-- The entries of a reply whose status is `NFS_OK`. -/
def listing (rd : nfsrddirres) (xdrs : XDR (List UInt8)) : List ℕ × ℕ :=
  match xdr_long reply .decode rd.rd_status xdrs with
  | (false, _, _) => ([], 0)
  | (true, rd_status, xdrs) =>
    if rd_status ≠ NFS_OK then ([], 0) else entries (xdrs.x_private.length + 1) xdrs

/-- **A readdir reply.**  If no record that fits is too long for its length to be stored, the call
keeps to the buffer and leaves records if and only if each entry has bytes left for what is stored
of it before the test. -/
theorem decodes_iff {rd : nfsrddirres} (hsize : rd.rd_size = rd.rd_entries.length)
    (hpos : 1 ≤ rd.rd_size) (hshorts : Shorts (listing rd xdrs).1 rd.rd_size) :
    Decodes rd xdrs ↔ Roomy (listing rd xdrs).2 (listing rd xdrs).1 rd.rd_size := by
  have hempty : Roomy 0 [] rd.rd_size := Or.inr (by push_cast; omega)
  rw [listing] at hshorts ⊢
  rw [Decodes, xdr_getrddirres]
  rcases hstatus : xdr_long reply .decode rd.rd_status xdrs with ⟨ok, rd_status, xdrs1⟩
  simp only [hstatus] at hshorts ⊢
  cases ok with
  | false => exact iff_of_true ⟨_, _, _, rfl, fun h => by cases h⟩ hempty
  | true =>
    by_cases hok : rd_status ≠ NFS_OK
    · simp only [if_pos hok]
      exact iff_of_true ⟨_, _, _, rfl, fun _ h => absurd h hok⟩ hempty
    · simp only [if_neg hok] at hshorts ⊢
      rcases loop_decided (xdrs1.x_private.length + 1) 0 rd.rd_size 0xffffffff rd.rd_entries xdrs1
        (Nat.lt_succ_self _) (by push_cast; omega) (by omega) tiled_nil hshorts with
        ⟨hroomy, ok, dp, offset, buf, xdrs2, hloop, htiled⟩ | ⟨hnot, hloop⟩
      · refine iff_of_true ?_ hroomy
        simp only [hloop, bind_eq_bind, bind_some]
        cases ok with
        | false => exact ⟨_, _, _, rfl, fun h => by cases h⟩
        | true =>
          rcases hend : xdr_bool reply .decode rd.rd_eof xdrs2 with ⟨ok, rd_eof, xdrs3⟩
          cases ok with
          | false => exact ⟨_, _, _, rfl, fun h => by cases h⟩
          | true => exact ⟨_, _, _, rfl, fun _ _ => ⟨dp, rfl, htiled rfl⟩⟩
      · refine iff_of_false ?_ hnot
        rintro ⟨_, _, _, hrun, -⟩
        rw [hloop] at hrun
        cases hrun

/-- A reply of one entry, `ab`, and a buffer of `n` bytes. -/
def one : XDR (List UInt8) where
  x_private := [0, 0, 0, 0] ++ [0, 0, 0, 1, 0, 0, 0, 9, 0, 0, 0, 2, 97, 98, 0, 0, 0, 0, 0, 1] ++
    [0, 0, 0, 0, 0, 0, 0, 1]
  calls := 0
  alloced := []
  freed := []

def client (n : ℕ) : nfsrddirres where
  rd_status := 0
  rd_offset := 0
  rd_size := n
  rd_eof := 0
  rd_entries := List.replicate n 0

theorem decodes_one : Decodes (client 20) one :=
  (decodes_iff (show (20 : ℤ) = _ by rw [client, length_replicate]; rfl)
    (show (1 : ℤ) ≤ 20 by decide)
    (by
      rw [show listing (client 20) one = ([2], 0) by rfl]
      exact fun _ => ⟨by decide, trivial⟩)).mpr (by
    rw [show listing (client 20) one = ([2], 0) by rfl]
    exact ⟨Or.inr (by decide), Or.inr (by decide)⟩)

/-- With 4 bytes the length of the name is stored behind them. -/
theorem not_decodes_one : ¬ Decodes (client 4) one := by
  rintro ⟨ok, rd', xdrs', hrun, -⟩
  have hnone : xdr_getrddirres (client 4) one = none := rfl
  cases hrun

end Rddir
