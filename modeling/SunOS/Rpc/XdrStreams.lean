/-
# External data on streams

The streams of `src/lib/libc/rpc/xdr_mem.c`, over a buffer in memory, and of
`xdr_rec.c`, over a record: both keep what they are given in order, so every type
round-trips on them.
-/
import SunOS.Lib.Word
import SunOS.Rpc.XdrRecRuns
import SunOS.Rpc.XdrRuns

namespace Xdr

open Bytes

/-! ## A buffer in memory -/

/-- The private data of an `xdrmem` stream: the memory, the next address and the bytes
left of the buffer. -/
structure Xdrmem where
  mem : ℕ → UInt8
  x_private : ℕ
  x_handy : ℤ

/-- `xdrmem_getlong` -/
def xdrmem_getlong (s : Xdrmem) : Option UInt32 × Xdrmem :=
  let s := { s with x_handy := int32 (s.x_handy - 4) }
  if s.x_handy < 0 then (none, s)
  else (some (ntohl (load s.mem s.x_private 4)), { s with x_private := s.x_private + 4 })

/-- `xdrmem_putlong` -/
def xdrmem_putlong (lp : UInt32) (s : Xdrmem) : Bool × Xdrmem :=
  let s := { s with x_handy := int32 (s.x_handy - 4) }
  if s.x_handy < 0 then (false, s)
  else (true, { s with
    mem := store s.mem s.x_private (htonl lp)
    x_private := s.x_private + 4 })

/-- `xdrmem_getbytes` -/
def xdrmem_getbytes (len : ℕ) (s : Xdrmem) : Option (List UInt8) × Xdrmem :=
  let s := { s with x_handy := int32 (s.x_handy - len) }
  if s.x_handy < 0 then (none, s)
  else (some (load s.mem s.x_private len), { s with x_private := s.x_private + len })

/-- `xdrmem_putbytes` -/
def xdrmem_putbytes (addr : List UInt8) (s : Xdrmem) : Bool × Xdrmem :=
  let s := { s with x_handy := int32 (s.x_handy - addr.length) }
  if s.x_handy < 0 then (false, s)
  else (true, { s with
    mem := store s.mem s.x_private addr
    x_private := s.x_private + addr.length })

/-- `xdrmem_ops` -/
def xdrmem_ops : xdr_ops Xdrmem :=
  ⟨xdrmem_getlong, xdrmem_putlong, xdrmem_getbytes, xdrmem_putbytes⟩

/-- The bytes put from address `base` on. -/
def xdrmemOut (base : ℕ) (s : Xdrmem) (bs : List UInt8) : Prop :=
  s.x_private = base + bs.length ∧ load s.mem base bs.length = bs

/-- The next bytes of the buffer. -/
def xdrmemIn (s : Xdrmem) (inp : List UInt8) : Prop :=
  load s.mem s.x_private inp.length = inp ∧ (inp.length : ℤ) ≤ s.x_handy ∧ Fits s.x_handy

theorem xdrmemOut_store {base : ℕ} {s : Xdrmem} {bs l : List UInt8} (handy : ℤ)
    (h : xdrmemOut base s bs) : xdrmemOut base
      ⟨store s.mem s.x_private l, s.x_private + l.length, handy⟩ (bs ++ l) := by
  obtain ⟨hprivate, hload⟩ := h
  refine ⟨?_, ?_⟩
  · show s.x_private + l.length = base + (bs ++ l).length
    rw [hprivate, List.length_append, Nat.add_assoc]
  · show load (store s.mem s.x_private l) base (bs ++ l).length = bs ++ l
    rw [List.length_append, load_add, hprivate, load_store,
      load_store_of_disjoint (by omega), hload]

theorem xdrmemIn_advance {s : Xdrmem} {l rest : List UInt8} (h : xdrmemIn s (l ++ rest)) :
    ¬ int32 (s.x_handy - l.length) < 0 ∧ load s.mem s.x_private l.length = l ∧
      xdrmemIn ⟨s.mem, s.x_private + l.length, int32 (s.x_handy - l.length)⟩ rest := by
  obtain ⟨hload, hhandy, hfits⟩ := h
  rw [List.length_append, load_add] at hload
  rw [List.length_append, Nat.cast_add] at hhandy
  rw [fits_iff] at hfits
  have hint : int32 (s.x_handy - l.length) = s.x_handy - l.length :=
    int32_of_fits (fits_iff.mpr (by omega))
  obtain ⟨hl, hrest⟩ := List.append_inj hload length_load
  rw [hint]
  exact ⟨by omega, hl, hrest, show (rest.length : ℤ) ≤ s.x_handy - l.length by omega,
    fits_iff.mpr (show _ ≤ s.x_handy - l.length ∧ s.x_handy - l.length ≤ _ by omega)⟩

theorem xdrmem_writes (base : ℕ) : Writes xdrmem_ops (xdrmemOut base) where
  putlong := by
    intro s s' bs x ho h
    simp only [xdrmem_ops, xdrmem_putlong] at h
    by_cases hfull : int32 (s.x_handy - 4) < 0
    · rw [if_pos hfull] at h
      exact absurd h (by simp)
    · rw [if_neg hfull] at h
      rw [← (Prod.mk.inj h).2]
      exact xdrmemOut_store _ ho
  putbytes := by
    intro s s' bs l ho _ h
    simp only [xdrmem_ops, xdrmem_putbytes] at h
    by_cases hfull : int32 (s.x_handy - l.length) < 0
    · rw [if_pos hfull] at h
      exact absurd h (by simp)
    · rw [if_neg hfull] at h
      rw [← (Prod.mk.inj h).2]
      exact xdrmemOut_store _ ho

theorem xdrmem_reads : Reads xdrmem_ops xdrmemIn where
  getlong := by
    intro s x rest hi
    obtain ⟨hhandy, hload, hin⟩ := xdrmemIn_advance hi
    rw [length_htonl] at hload
    replace hhandy : ¬ int32 (s.x_handy - 4) < 0 := hhandy
    refine ⟨_, ?_, hin⟩
    simp only [xdrmem_ops, xdrmem_getlong]
    rw [if_neg hhandy, hload, ntohl_htonl]
    rfl
  getbytes := by
    intro s l rest hi _
    obtain ⟨hhandy, hload, hin⟩ := xdrmemIn_advance hi
    refine ⟨_, ?_, hin⟩
    simp only [xdrmem_ops, xdrmem_getbytes]
    rw [if_neg hhandy, hload]

/-! ## A record -/

/-- `xdrrec_ops`, of a stream that is written. -/
def xdrrec_outOps (writeit : List UInt8 → List UInt8 → Bool) (fuel : ℕ) : xdr_ops Xdrrec.Out where
  x_getlong s := (none, s)
  x_putlong lp s := Xdrrec.xdrrec_putlong writeit lp s
  x_getbytes _ s := (none, s)
  x_putbytes addr s := (Xdrrec.xdrrec_putbytes writeit fuel addr s).getD (false, s)

/-- `xdrrec_ops`, of a stream that is read. -/
def xdrrec_inOps (fuel : ℕ) : xdr_ops Xdrrec.In where
  x_getlong s := (Xdrrec.xdrrec_getlong fuel s).getD (none, s)
  x_putlong _ s := (false, s)
  x_getbytes len s := ((Xdrrec.xdrrec_getbytes fuel len s).map fun (ok, bytes, s) =>
    (if ok = true then some bytes else none, s)).getD (none, s)
  x_putbytes _ s := (false, s)

/-- What is put on a record stream is the data of the current record. -/
theorem xdrrec_writes (writeit : List UInt8 → List UInt8 → Bool) {fuel : ℕ} (hfuel : 2 ^ 32 < fuel)
    (k : ℕ) (done : List (List UInt8)) :
    Writes (xdrrec_outOps writeit fuel) fun s => Xdrrec.Written s k done where
  putlong ho h := ho.putlong h
  putbytes := by
    intro s s' bs l ho hl h
    obtain ⟨ok, t, hrun, hok⟩ := ho.putbytes writeit l (k := fuel) (by
      split <;> omega)
    rw [xdrrec_outOps] at h
    simp only [hrun, Option.getD_some, Prod.mk.injEq] at h
    obtain ⟨rfl, rfl⟩ := h
    exact hok rfl

/-- What is got from a record stream is what is left of the record. -/
theorem xdrrec_reads (fuel : ℕ) : Reads (xdrrec_inOps fuel) fun s inp =>
    ∃ recs, Xdrrec.Reads (some (inp, recs)) s ∧ Xdrrec.work s < fuel where
  getlong := by
    rintro s x rest ⟨recs, hreads, hfuel⟩
    obtain ⟨s', hrun, hreads', hwork⟩ := hreads.getlong hfuel
    have hget : RecordMark.Reader.get 4 (some (htonl x ++ rest, recs)) =
        (some (htonl x), some (rest, recs)) := rfl
    rw [hget] at hrun hreads'
    refine ⟨s', ?_, recs, hreads', by omega⟩
    rw [xdrrec_inOps]
    simp only [hrun, Option.getD_some, Option.map_some, ntohl_htonl]
  getbytes := by
    rintro s l rest ⟨recs, hreads, hfuel⟩ -
    obtain ⟨ok, bytes, s', hrun, hget, hreads', hwork⟩ := hreads.getbytes l.length hfuel
    have hall : RecordMark.Reader.get l.length (some (l ++ rest, recs)) =
        (some l, some (rest, recs)) := by
      rw [RecordMark.Reader.get, if_pos (by simp)]
      simp
    rw [hall] at hget hreads'
    refine ⟨s', ?_, recs, hreads', by omega⟩
    rw [xdrrec_inOps]
    simp only [hrun, Option.map_some, Option.getD_some, ← hget]

/-! ## The round trip -/

variable {σ τ : Type} {ops : xdr_ops σ} {ops' : xdr_ops τ} {Out : σ → List UInt8 → Prop}
  {In : τ → List UInt8 → Prop}

/-- **External data round-trips.**  On streams that keep what they are given in order, and
with memory left for the nodes, what has been encoded is a multiple of four bytes, and
decoding them into empty storage succeeds, yields an equal value and consumes just these
bytes; XDR_FREE then frees the nodes that decoding has allocated, each once with its size. -/
theorem xdr_round_trip (hw : Writes ops Out) (hr : Reads ops' In) {al al' : Allocator}
    (hal : ∀ k size, al'.node k size ≠ 0) {defs : ℕ → Ty} {depth : ℕ} {t : Ty} {v v' : Val}
    {s s' : XDR σ} {bs : List UInt8} (ho : Out s.x_private bs)
    (henc : proc ops al defs depth t .encode v s = some (true, v', s')) :
    ∃ d out, read defs depth t v = some d ∧ Out s'.x_private (bs ++ out) ∧ 4 ∣ out.length ∧
      Decodes In (proc ops' al' defs depth t) (read defs depth t) d out :=
  roundTrips_proc hw hr hal depth t v v' s s' bs ho henc

/-- The routine of a linked list of longs. -/
def xdr_list (_ : ℕ) : Ty := .struct [.long, .pointer 8 (.call 0)]

/-- An allocator that hands out one address after the other. -/
def bump : Allocator := ⟨fun k size => 16 * k + size + 4096, fun _ => 0⟩

/-- A list of two elements, through a buffer in memory. -/
theorem xdr_round_trip_list : ∃ out, 4 ∣ out.length ∧
    Decodes xdrmemIn (proc xdrmem_ops bump xdr_list 7 (.call 0)) (read xdr_list 7 (.call 0))
      (.list [.word 7, .ref (.list [.word 9, .null])]) out := by
  have hal : ∀ k size, bump.node k size ≠ 0 := by
    intro k size
    simp [bump]
  have ho : xdrmemOut 1000 ⟨fun _ => 0, 1000, 100⟩ [] := ⟨rfl, rfl⟩
  obtain ⟨v', s', henc⟩ : ∃ v' s', proc xdrmem_ops bump xdr_list 7 (.call 0) .encode
      (.struct [.long 7, .pointer 64 (.struct [.long 9, .pointer 0 .zero])])
      ⟨⟨fun _ => 0, 1000, 100⟩, 0, [], []⟩ = some (true, v', s') := ⟨_, _, rfl⟩
  obtain ⟨d, out, hd, -, hdvd, hdec⟩ :=
    xdr_round_trip (xdrmem_writes 1000) xdrmem_reads hal ho henc
  obtain rfl := Option.some.inj hd
  exact ⟨out, hdvd, hdec⟩

end Xdr

/-! # External data in chained mbufs

The streams of `src/lib/libc/rpc/xdr_mbuf.c` over a chain of mbufs, and the calls
they share with those of `xdr_mem.c` over one buffer.  Both count the bytes that are
left in `x_handy`, an int, from which they take the length of a call, a `u_int`,
before they look at it.
-/

namespace Xdr

open Bytes

/-! ## The streams -/

/-- What the streams use of a `struct mbuf`: where its data begins and how much it is. -/
structure Mbuf where
  mtod : ℕ
  m_len : ℕ
  deriving DecidableEq

/-- The private data of an `xdrmbuf` stream: the memory, the current mbuf with those
chained behind it, the next address, and the bytes left in the current mbuf. -/
structure Xdrmbuf where
  mem : ℕ → UInt8
  x_base : List Mbuf
  x_private : ℕ
  x_handy : ℤ

/-- `xdrmbuf_init` -/
def xdrmbuf_init (mem : ℕ → UInt8) (m : Mbuf) (ms : List Mbuf) : Xdrmbuf where
  mem := mem
  x_base := m :: ms
  x_private := m.mtod
  x_handy := m.m_len

/-- `xdrmbuf_getlong` -/
def xdrmbuf_getlong (s : Xdrmbuf) : Option UInt32 × Xdrmbuf :=
  let s := { s with x_handy := int32 (s.x_handy - 4) }
  if s.x_handy < 0 then
    match s.x_base with
    | _ :: m :: ms =>
      (some (ntohl (load s.mem m.mtod 4)),
        { s with x_base := m :: ms, x_private := m.mtod + 4, x_handy := m.m_len - 4 })
    | _ => (none, { s with x_base := [] })
  else (some (ntohl (load s.mem s.x_private 4)), { s with x_private := s.x_private + 4 })

/-- `xdrmbuf_putlong` -/
def xdrmbuf_putlong (lp : UInt32) (s : Xdrmbuf) : Bool × Xdrmbuf :=
  let s := { s with x_handy := int32 (s.x_handy - 4) }
  if s.x_handy < 0 then
    match s.x_base with
    | _ :: m :: ms =>
      (true, { s with
        mem := store s.mem m.mtod (htonl lp)
        x_base := m :: ms
        x_private := m.mtod + 4
        x_handy := m.m_len - 4 })
    | _ => (false, { s with x_base := [] })
  else (true, { s with
    mem := store s.mem s.x_private (htonl lp)
    x_private := s.x_private + 4 })

/-- The loop of `xdrmbuf_getbytes`, on the mbufs behind the current one; the bytes are what
it has copied to `addr`. -/
def xdrmbuf_getbytesLoop : List Mbuf → ℕ → Xdrmbuf → (Bool × List UInt8) × Xdrmbuf
  | m_next, len, s =>
    let s : Xdrmbuf := { s with x_handy := int32 (s.x_handy - len) }
    if s.x_handy < 0 then
      let s : Xdrmbuf := { s with x_handy := int32 (s.x_handy + len) }
      let got := if s.x_handy > 0 then load s.mem s.x_private s.x_handy.toNat else []
      let len := if s.x_handy > 0 then len - s.x_handy.toNat else len
      match m_next with
      | [] => ((false, got), { s with x_base := [] })
      | m :: ms =>
        let r := xdrmbuf_getbytesLoop ms len
          { s with x_base := m :: ms, x_private := m.mtod, x_handy := m.m_len }
        ((r.1.1, got ++ r.1.2), r.2)
    else ((true, load s.mem s.x_private len), { s with x_private := s.x_private + len })

/-- `xdrmbuf_getbytes` -/
def xdrmbuf_getbytes (len : ℕ) (s : Xdrmbuf) : (Bool × List UInt8) × Xdrmbuf :=
  xdrmbuf_getbytesLoop s.x_base.tail len s

/-- The loop of `xdrmbuf_putbytes`, on the mbufs behind the current one. -/
def xdrmbuf_putbytesLoop : List Mbuf → List UInt8 → Xdrmbuf → Bool × Xdrmbuf
  | m_next, addr, s =>
    let s : Xdrmbuf := { s with x_handy := int32 (s.x_handy - addr.length) }
    if s.x_handy < 0 then
      let s : Xdrmbuf := { s with x_handy := int32 (s.x_handy + addr.length) }
      let mem := if s.x_handy > 0 then store s.mem s.x_private (addr.take s.x_handy.toNat)
        else s.mem
      let addr := if s.x_handy > 0 then addr.drop s.x_handy.toNat else addr
      match m_next with
      | [] => (false, { s with mem := mem, x_base := [] })
      | m :: ms =>
        xdrmbuf_putbytesLoop ms addr
          { mem := mem, x_base := m :: ms, x_private := m.mtod, x_handy := m.m_len }
    else (true, { s with
      mem := store s.mem s.x_private addr
      x_private := s.x_private + addr.length })

/-- `xdrmbuf_putbytes` -/
def xdrmbuf_putbytes (addr : List UInt8) (s : Xdrmbuf) : Bool × Xdrmbuf :=
  xdrmbuf_putbytesLoop s.x_base.tail addr s

/-- `xdrmbuf_inline`, of a length that is not negative: the address of the buffer. -/
def xdrmbuf_inline (len : ℕ) (s : Xdrmbuf) : Option ℕ × Xdrmbuf :=
  if s.x_handy ≥ len then
    (some s.x_private, { s with x_handy := s.x_handy - len, x_private := s.x_private + len })
  else (none, s)

/-- `xdrmem_create` -/
def xdrmem_create (mem : ℕ → UInt8) (addr size : ℕ) : Xdrmem where
  mem := mem
  x_private := addr
  x_handy := int32 size

/-- `xdrmem_inline`, of a length that is not negative: the address of the buffer. -/
def xdrmem_inline (len : ℕ) (s : Xdrmem) : Option ℕ × Xdrmem :=
  if s.x_handy ≥ len then
    (some s.x_private, { s with x_handy := s.x_handy - len, x_private := s.x_private + len })
  else (none, s)

/-! ## Calls -/

/-- A call of a stream. -/
inductive Call
  | getlong
  | putlong (lp : UInt32)
  | getbytes (len : ℕ)
  | putbytes (addr : List UInt8)
  | inline (len : ℕ)

/-- The bytes a call is for. -/
def Call.need : Call → ℕ
  | .getlong => 4
  | .putlong _ => 4
  | .getbytes len => len
  | .putbytes addr => addr.length
  | .inline len => len

/-- What a call returns. -/
inductive Result
  | long (lp : Option UInt32)
  | bytes (addr : Option (List UInt8))
  | put (ok : Bool)
  | buf (addr : Option ℕ)
  deriving DecidableEq

/-- The call has returned TRUE, or a buffer. -/
def Result.ok : Result → Bool
  | .long lp => lp.isSome
  | .bytes addr => addr.isSome
  | .put ok => ok
  | .buf addr => addr.isSome

/-- One call of an `xdrmem` stream. -/
def Xdrmem.call : Call → Xdrmem → Result × Xdrmem
  | .getlong, s => let r := xdrmem_getlong s; (.long r.1, r.2)
  | .putlong lp, s => let r := xdrmem_putlong lp s; (.put r.1, r.2)
  | .getbytes len, s => let r := xdrmem_getbytes len s; (.bytes r.1, r.2)
  | .putbytes addr, s => let r := xdrmem_putbytes addr s; (.put r.1, r.2)
  | .inline len, s => let r := xdrmem_inline len s; (.buf r.1, r.2)

/-- One call of an `xdrmbuf` stream. -/
def Xdrmbuf.call : Call → Xdrmbuf → Result × Xdrmbuf
  | .getlong, s => let r := xdrmbuf_getlong s; (.long r.1, r.2)
  | .putlong lp, s => let r := xdrmbuf_putlong lp s; (.put r.1, r.2)
  | .getbytes len, s =>
    let r := xdrmbuf_getbytes len s
    (.bytes (if r.1.1 = true then some r.1.2 else none), r.2)
  | .putbytes addr, s => let r := xdrmbuf_putbytes addr s; (.put r.1, r.2)
  | .inline len, s => let r := xdrmbuf_inline len s; (.buf r.1, r.2)

end Xdr
