/-
# A chain read as one buffer

An `xdrmbuf` stream over a chain of mbufs gives what an `xdrmem` stream gives over
their data put together, up to the first call for a long or for bytes that fails.
An inline call gets a buffer of the current mbuf or none, so that it may fail where
the one buffer has the bytes; the caller then goes on with other calls.
-/
import SunOS.Rpc.XdrHandyRuns

namespace Xdr

open List
open Bytes

/-! ## Comparing the streams -/

/-- What is asked of a call that is compared, on an `xdrmem` stream over a buffer at `addr`:
longs are aligned, and one that has to go on to the next mbuf finds four bytes in it;
lengths are values of an int. -/
def Call.Compared (addr : ℕ) (s : Xdrmbuf) (t : Xdrmem) : Call → Prop
  | .getlong => 4 ∣ t.x_private - addr ∧ Call.getlong.Room s
  | .getbytes len => len < 2 ^ 31
  | .inline len => len < 2 ^ 31
  | _ => False

/-- The two streams answer a call alike.  An inline call succeeds when the current mbuf has
the bytes, and then finds those of the one buffer; otherwise it leaves the stream in place. -/
def Agrees (chain : List Mbuf) (s : Xdrmbuf) (t : Xdrmem) : Call → Prop
  | .inline len =>
    ((s.call (.inline len)).1.ok = true ↔ len ≤ (mbufView chain).here s) ∧
    ((s.call (.inline len)).1.ok = false → (s.call (.inline len)).2 = s) ∧
    ∀ a, (s.call (.inline len)).1 = .buf (some a) →
      ∃ b, (t.call (.inline len)).1 = .buf (some b) ∧ load s.mem a len = load t.mem b len
  | c => (s.call c).1 = (t.call c).1

/-- The streams after a call: where an inline call has failed on the chain, it is not made
of the one buffer either. -/
def both (st : Xdrmbuf × Xdrmem) (c : Call) : Xdrmbuf × Xdrmem :=
  ((st.1.call c).2, if (st.1.call c).1.ok = true then (st.2.call c).2 else st.2)

/-- The comparison goes on after a call that has succeeded, and after any inline call. -/
def Call.GoesOn (r : Result) : Call → Prop
  | .inline _ => True
  | _ => r.ok = true

/-- One call of both streams. -/
def bothStep (addr : ℕ) : Xdrmbuf × Xdrmem → Call → Xdrmbuf × Xdrmem → Prop :=
  Guarded (fun st c => c.Compared addr st.1 st.2) fun st c st' =>
    c.GoesOn (st.1.call c).1 ∧ both st c = st'

/-! ## The bytes to come -/

/-- Both streams stand before the same bytes. -/
structure Lockstep (chain : List Mbuf) (addr : ℕ) (s : Xdrmbuf) (t : Xdrmem) (m : Mbuf)
    (ms : List Mbuf) : Prop where
  place : At chain m ms s.place
  addr_le : addr ≤ t.x_private
  handy : 0 ≤ s.x_handy
  bytes : load t.mem t.x_private t.x_handy.toNat = rest s.mem s.place ms
  position : t.x_private + t.x_handy = addr + total chain
  count : t.x_handy = s.x_handy + total ms
  small : total chain < 2 ^ 31

variable {chain ms : List Mbuf} {addr : ℕ} {s : Xdrmbuf} {t : Xdrmem} {m : Mbuf}

theorem length_gather_blocks (mem : ℕ → UInt8) (ms : List Mbuf) :
    (gather mem (ms.map Mbuf.block)).length = total ms := by
  induction ms with
  | nil => rfl
  | cons m ms ih =>
    rw [map_cons, gather_cons, length_append, length_load, ih, total, total, map_cons,
      sum_cons]
    rfl

theorem length_rest (mem : ℕ → UInt8) (p : Place) (ms : List Mbuf) :
    (rest mem p ms).length = p.x_handy.toNat + total ms := by
  rw [rest, length_append, length_load, length_gather_blocks]

theorem dvd_total (h : ∀ x ∈ ms, 4 ∣ x.m_len) : 4 ∣ total ms := by
  induction ms with
  | nil => exact dvd_zero 4
  | cons x xs ih =>
    rw [total, map_cons, sum_cons]
    exact Nat.dvd_add (h x mem_cons_self) (ih fun y hy => h y (mem_cons_of_mem _ hy))

namespace Lockstep

section

variable (h : Lockstep chain addr s t m ms)
include h

/-- At an aligned position the bytes left of the current mbuf make up longs. -/
theorem aligned (hlens : ∀ x ∈ chain, 4 ∣ x.m_len)
    (hpos : 4 ∣ t.x_private - addr) : 4 ≤ s.x_handy ∨ s.x_handy = 0 := by
  obtain ⟨front, hchain⟩ := h.place.front
  have hall : 4 ∣ total chain := dvd_total hlens
  have hms : 4 ∣ total ms := dvd_total fun x hx => hlens x (by
    rw [hchain]
    simp [hx])
  have hposition := h.position
  have hcount := h.count
  have hnn := h.handy
  have hle := h.addr_le
  omega

/-- The streams after both have gone over the next `len` bytes. -/
theorem advance {len : ℕ} {p : Place} {m' : Mbuf} {ms' : List Mbuf} {out : List UInt8}
    (hat : At chain m' ms' p) (hnn : 0 ≤ p.x_handy)
    (hlen : out.length = len) (hle : (len : ℤ) ≤ t.x_handy)
    (hdata : out ++ rest s.mem p ms' = rest s.mem s.place ms) :
    load t.mem t.x_private len = out ∧
      Lockstep chain addr (p.stream s.mem) ⟨t.mem, t.x_private + len, t.x_handy - len⟩ m' ms' := by
  have hsplit : t.x_handy.toNat = len + (t.x_handy - len).toNat := by lia
  have hbytes := h.bytes
  rw [← hdata, hsplit, load_add] at hbytes
  obtain ⟨hfirst, hrest⟩ := append_inj hbytes (by rw [length_load, hlen])
  have hcount := congrArg List.length hrest
  rw [length_load, length_rest] at hcount
  have hposition := h.position
  refine ⟨hfirst, hat, le_trans h.addr_le (Nat.le_add_right _ _), hnn, hrest, ?_, ?_, h.small⟩
  · show ((t.x_private + len : ℕ) : ℤ) + (t.x_handy - len) = addr + total chain
    lia
  · show t.x_handy - len = p.x_handy + total ms'
    lia

theorem fits {len : ℕ} (hlen : len < 2 ^ 31) :
    0 ≤ t.x_handy ∧ int32 (t.x_handy - len) = t.x_handy - len ∧ ¬ Wraps s.x_handy len := by
  have hposition := h.position
  have hcount := h.count
  have hsmall := h.small
  have hnn := h.handy
  have hle := h.addr_le
  refine ⟨by omega, int32_of_fits (fits_iff.mpr (by omega)), ?_⟩
  unfold Wraps
  omega

/-- **One call** of both streams. -/
theorem call {c : Call} (hs : Shorts chain)
    (hlens : ∀ x ∈ chain, 4 ∣ x.m_len) (hc : c.Compared addr s t) :
    Agrees chain s t c ∧ (c.GoesOn (s.call c).1 →
      ∃ m' ms', Lockstep chain addr (both (s, t) c).1 (both (s, t) c).2 m' ms') := by
  have htail : s.x_base.tail = ms := h.place.tail
  cases c with
  | getlong =>
    obtain ⟨halign, hroom⟩ := hc
    have hhandy := h.aligned hlens halign
    obtain ⟨hnn, hcount, hw⟩ := h.fits (show 4 < 2 ^ 31 by lia)
    replace hcount : int32 (t.x_handy - 4) = t.x_handy - 4 := hcount
    replace hroom : s.place.x_handy < 4 → ∀ x ∈ ms.head?, 4 ≤ x.m_len := htail ▸ hroom
    rcases h.place.nextLong hs hw hroom with
      ⟨a, m', ms', ha, hat, -, henough, hleft, hdata⟩ | ⟨hnone, -, -, hlt, hnil⟩
    · have hle : 4 ≤ t.x_handy := by
        rw [h.count]
        exact henough
      have hmbuf : s.call .getlong =
          (.long (some (ntohl (load s.mem a 4))), (nextLong s.place).2.stream s.mem) := by
        rw [Xdrmbuf.call, xdrmbuf_getlong_eq, ha]
        rfl
      have hmem : t.call .getlong = (.long (some (ntohl (load t.mem t.x_private 4))),
          ⟨t.mem, t.x_private + 4, t.x_handy - 4⟩) := by
        simp only [Xdrmem.call, xdrmem_getlong, hcount]
        rw [if_neg (by lia)]
      obtain ⟨hfirst, hlock⟩ := h.advance hat hleft
        (show (load s.mem a 4).length = 4 from length_load) hle (hdata hhandy s.mem)
      refine ⟨?_, fun _ => ⟨m', ms', ?_⟩⟩
      · show (s.call .getlong).1 = (t.call .getlong).1
        rw [hmbuf, hmem, hfirst]
      · rw [both, hmbuf, hmem]
        exact hlock
    · have hzero : t.x_handy = 0 := by
        rw [h.count, hnil, total, map_nil, sum_nil]
        replace hlt : s.x_handy < 4 := hlt
        lia
      have hmbuf : (s.call .getlong).1 = .long none := by
        rw [Xdrmbuf.call, xdrmbuf_getlong_eq, hnone]
        rfl
      have hmem : (t.call .getlong).1 = .long none := by
        simp only [Xdrmem.call, xdrmem_getlong, hcount]
        rw [if_pos (by lia)]
      refine ⟨hmbuf.trans hmem.symm, fun hok => ?_⟩
      replace hok : (s.call .getlong).1.ok = true := hok
      rw [hmbuf] at hok
      exact absurd hok (by decide)
  | getbytes len =>
    obtain ⟨hnn, hcount, hw⟩ := h.fits hc
    replace hc : len < 2 ^ 31 := hc
    obtain ⟨m', ms', hspan, hat⟩ := h.place.span hs (by lia) hw
    have hmbuf : s.call (.getbytes len) =
        (.bytes (if (span ms s.place len).1 = true then
          some (gather s.mem (span ms s.place len).2.1) else none),
          (span ms s.place len).2.2.stream s.mem) := by
      simp only [Xdrmbuf.call, xdrmbuf_getbytes, getbytesLoop_eq_span, htail]
    have hiff : (span ms s.place len).1 = true ↔ (len : ℤ) ≤ t.x_handy := by
      rw [h.count]
      exact hspan.ok_iff
    by_cases hok : (span ms s.place len).1 = true
    · have hle := hiff.mp hok
      obtain ⟨hlength, hdata⟩ := hspan.data hok s.mem
      have hmem : t.call (.getbytes len) = (.bytes (some (load t.mem t.x_private len)),
          ⟨t.mem, t.x_private + len, t.x_handy - len⟩) := by
        simp only [Xdrmem.call, xdrmem_getbytes, hcount]
        rw [if_neg (by lia)]
      obtain ⟨hfirst, hlock⟩ := h.advance hat (hspan.exact hok) hlength hle hdata
      rw [if_pos hok] at hmbuf
      refine ⟨?_, fun _ => ⟨m', ms', ?_⟩⟩
      · show (s.call (.getbytes len)).1 = (t.call (.getbytes len)).1
        rw [hmbuf, hmem, hfirst]
      · rw [both, hmbuf, hmem]
        exact hlock
    · have hlt : ¬ (len : ℤ) ≤ t.x_handy := fun hle => hok (hiff.mpr hle)
      have hmem : (t.call (.getbytes len)).1 = .bytes none := by
        simp only [Xdrmem.call, xdrmem_getbytes, hcount]
        rw [if_pos (by lia)]
      rw [if_neg hok] at hmbuf
      refine ⟨?_, fun hgo => ?_⟩
      · show (s.call (.getbytes len)).1 = (t.call (.getbytes len)).1
        rw [hmbuf, hmem]
      · replace hgo : (s.call (.getbytes len)).1.ok = true := hgo
        rw [hmbuf] at hgo
        exact absurd hgo (by simp [Result.ok])
  | inline len =>
    have hhere := h.place.handy_eq_here h.handy
    by_cases hle : s.x_handy ≥ len
    · have hmbuf : s.call (.inline len) = (.buf (some s.x_private),
          ⟨s.mem, s.x_base, s.x_private + len, s.x_handy - len⟩) := by
        simp only [Xdrmbuf.call, xdrmbuf_inline]
        rw [if_pos hle]
      have hroom : (len : ℤ) ≤ t.x_handy := by
        rw [h.count]
        lia
      have hmem : t.call (.inline len) = (.buf (some t.x_private),
          ⟨t.mem, t.x_private + len, t.x_handy - len⟩) := by
        simp only [Xdrmem.call, xdrmem_inline]
        rw [if_pos hroom]
      obtain ⟨hspan, hat⟩ := h.place.span_here hle
      obtain ⟨hlength, hdata⟩ := hspan.data rfl s.mem
      rw [gather_cons, gather_nil, append_nil] at hlength hdata
      obtain ⟨hfirst, hlock⟩ := h.advance hat (hspan.exact rfl) hlength hroom hdata
      refine ⟨⟨?_, ?_, ?_⟩, fun _ => ⟨m, ms, ?_⟩⟩
      · exact iff_of_true (by rw [hmbuf]; rfl) (by lia)
      · rw [hmbuf]
        exact fun hno => absurd hno (by simp [Result.ok])
      · intro a ha
        rw [hmbuf] at ha
        obtain rfl := Option.some.inj (Result.buf.inj ha)
        exact ⟨t.x_private, by rw [hmem], hfirst.symm⟩
      · rw [both, hmbuf, hmem]
        exact hlock
    · have hmbuf : s.call (.inline len) = (.buf none, s) := by
        simp only [Xdrmbuf.call, xdrmbuf_inline]
        rw [if_neg hle]
      refine ⟨⟨?_, ?_, ?_⟩, fun _ => ⟨m, ms, ?_⟩⟩
      · exact iff_of_false (by rw [hmbuf]; simp [Result.ok]) (by lia)
      · rw [hmbuf]
        exact fun _ => rfl
      · intro a ha
        rw [hmbuf] at ha
        exact absurd (Result.buf.inj ha) (by simp)
      · rw [both, hmbuf]
        exact h
  | putlong lp => exact hc.elim
  | putbytes addr' => exact hc.elim

end

/-- The streams as they are made, over the same bytes. -/
theorem init {mem mem' : ℕ → UInt8} (hs : Shorts (m :: ms)) (hsmall : total (m :: ms) < 2 ^ 31)
    (hsame : load mem' addr (total (m :: ms)) = gather mem ((m :: ms).map Mbuf.block)) :
    Lockstep (m :: ms) addr (xdrmbuf_init mem m ms) (xdrmem_create mem' addr (total (m :: ms))) m
      ms := by
  have hcount : int32 (total (m :: ms)) = total (m :: ms) := int32_of_fits (fits_iff.mpr (by omega))
  refine ⟨At.init mem hs, le_refl _, Int.natCast_nonneg _, ?_, ?_, ?_, hsmall⟩
  · show load mem' addr (int32 (total (m :: ms))).toNat = _
    rw [hcount, Int.toNat_natCast, hsame]
    rfl
  · show (addr : ℤ) + int32 (total (m :: ms)) = _
    rw [hcount]
  · show int32 (total (m :: ms)) = m.m_len + total ms
    rw [hcount, total, total, map_cons, sum_cons, Nat.cast_add]

end Lockstep

/-! ## Sequences of calls -/

/-- **A chain reads as one buffer.**  Whatever calls have been made, up to the first that
fails, the two streams answer the next call alike. -/
theorem xdrmbuf_reads_as_xdrmem (mem mem' : ℕ → UInt8) (addr : ℕ) (m : Mbuf) (ms : List Mbuf)
    (hs : Shorts (m :: ms)) (hlens : ∀ x ∈ m :: ms, 4 ∣ x.m_len)
    (hsmall : total (m :: ms) < 2 ^ 31)
    (hsame : load mem' addr (total (m :: ms)) = gather mem ((m :: ms).map Mbuf.block))
    {cs : List Call} {st : Xdrmbuf × Xdrmem}
    (hrun : Run (bothStep addr)
      (xdrmbuf_init mem m ms, xdrmem_create mem' addr (total (m :: ms))) cs st)
    (c : Call) (hc : c.Compared addr st.1 st.2) : Agrees (m :: ms) st.1 st.2 c := by
  have hlock : ∃ m' ms', Lockstep (m :: ms) addr st.1 st.2 m' ms' := by
    refine Run.invariant (I := fun st => ∃ m' ms', Lockstep (m :: ms) addr st.1 st.2 m' ms') ?_
      hrun ⟨m, ms, Lockstep.init hs hsmall hsame⟩
    rintro st c st' ⟨m', ms', h⟩ ⟨hc, hgo, rfl⟩
    exact (h.call hs hlens hc).2 hgo
  obtain ⟨m', ms', h⟩ := hlock
  exact (h.call hs hlens hc).1

/-- Two mbufs with four bytes each: a long and three bytes are read, and then more than there
is. -/
theorem xdrmbuf_reads_as_xdrmem_tiny :
    let st := (xdrmbuf_init (fun i => UInt8.ofNat (i / 1000)) ⟨1000, 4⟩ [⟨2000, 4⟩],
      xdrmem_create (fun i => if i < 3004 then 1 else 2) 3000 8)
    Agrees [⟨1000, 4⟩, ⟨2000, 4⟩] (both (both st .getlong) (.getbytes 3)).1
      (both (both st .getlong) (.getbytes 3)).2 (.getbytes 6) := by
  intro st
  have hrun : Run (bothStep 3000) st [.getlong, .getbytes 3]
      (both (both st .getlong) (.getbytes 3)) := by
    refine .cons ⟨⟨?_, ?_⟩, ?_, rfl⟩ (.cons ⟨?_, ?_, rfl⟩ (.nil _))
    · exact (by decide : 4 ∣ 3000 - 3000)
    · exact (by decide : (4 : ℤ) < 4 → ∀ x ∈ some (⟨2000, 4⟩ : Mbuf), 4 ≤ x.m_len)
    · exact rfl
    · exact (by decide : 3 < 2 ^ 31)
    · exact rfl
  exact xdrmbuf_reads_as_xdrmem (fun i => UInt8.ofNat (i / 1000))
    (fun i => if i < 3004 then 1 else 2) 3000 ⟨1000, 4⟩ [⟨2000, 4⟩] (by decide) (by decide)
    (by decide) (by decide) hrun (.getbytes 6) (show 6 < 2 ^ 31 by decide)

/-- A long is read from an empty mbuf; an inline call fails on the chain only; and so does
a long behind bytes that were not all there. -/
theorem xdrmbuf_not_as_xdrmem :
    ((xdrmbuf_init (fun i => UInt8.ofNat (i / 1000)) ⟨1000, 0⟩ [⟨2000, 0⟩, ⟨3000, 4⟩]).call
        .getlong).1 ≠
      ((xdrmem_create (fun _ => 3) 0 4).call .getlong).1 ∧
    ((xdrmbuf_init (fun _ => 0) ⟨1000, 4⟩ [⟨2000, 4⟩]).call (.inline 8)).1.ok ≠
      ((xdrmem_create (fun _ => 0) 0 8).call (.inline 8)).1.ok ∧
    (((xdrmbuf_init (fun _ => 0) ⟨1000, 4⟩ []).call (.getbytes 8)).2.call .getlong).1 ≠
      (((xdrmem_create (fun _ => 0) 0 4).call (.getbytes 8)).2.call .getlong).1 := by
  refine ⟨by decide, by decide, by decide⟩

end Xdr
