/-
# Sequences of calls

Over any sequence of calls on a buffer or on a chain of mbufs a call succeeds only
with enough bytes left and stays in the buffer, as long as no length wraps the count
around and no long is looked for in an mbuf that has none.
-/
import SunOS.Rpc.XdrMbufSpan

namespace Xdr

open List
open Bytes

/-! ## A chain of mbufs -/

/-- The mbuf an `xdrmbuf` stream stands in; once it has left the chain, the last one. -/
def cur (chain : List Mbuf) (s : Xdrmbuf) : Mbuf := s.x_base.head?.getD (chain.getLastD ⟨0, 0⟩)

/-- An `xdrmbuf` stream over a chain of mbufs. -/
def mbufView (chain : List Mbuf) : View Xdrmbuf where
  call := Xdrmbuf.call
  mem := Xdrmbuf.mem
  withMem mem s := { s with mem := mem }
  x_handy := Xdrmbuf.x_handy
  buffer a := ∃ x ∈ chain, x.mtod ≤ a ∧ a < x.mtod + x.m_len
  inside s := (cur chain s).mtod ≤ s.x_private ∧
    s.x_private ≤ (cur chain s).mtod + (cur chain s).m_len
  left s := (cur chain s).mtod + (cur chain s).m_len - s.x_private + total s.x_base.tail
  here s := (cur chain s).mtod + (cur chain s).m_len - s.x_private

/-- A call for a long that has to go on to the next mbuf finds four bytes in it. -/
def Call.Room (s : Xdrmbuf) : Call → Prop
  | .getlong => s.x_handy < 4 → ∀ x ∈ s.x_base.tail.head?, 4 ≤ x.m_len
  | .putlong _ => s.x_handy < 4 → ∀ x ∈ s.x_base.tail.head?, 4 ≤ x.m_len
  | _ => True

namespace At

variable {chain ms ms' : List Mbuf} {m m' : Mbuf} {s : Xdrmbuf} {c : Call}

theorem cur_eq (h : At chain m ms s.place) : cur chain s = m := by
  rcases h.base with hb | ⟨hb, rfl⟩
  · replace hb : s.x_base = m :: ms := hb
    rw [cur, hb]
    rfl
  · replace hb : s.x_base = [] := hb
    obtain ⟨front, hchain⟩ := h.front
    rw [cur, hb, hchain]
    simp

theorem inside (h : At chain m ms s.place) : (mbufView chain).inside s := by
  show (cur chain s).mtod ≤ s.x_private ∧ s.x_private ≤ (cur chain s).mtod + (cur chain s).m_len
  rw [h.cur_eq]
  exact ⟨h.le, h.le_end⟩

/-- A count that is not negative is that of the bytes left of the current mbuf. -/
theorem handy_eq_here (h : At chain m ms s.place) (hnn : 0 ≤ s.x_handy) :
    s.x_handy = (mbufView chain).here s := by
  show s.x_handy = (((cur chain s).mtod + (cur chain s).m_len - s.x_private : ℕ) : ℤ)
  have hexact : s.x_handy = m.mtod + m.m_len - s.x_private := h.handy hnn
  rw [h.cur_eq]
  omega

/-- The bytes that are left are at least those of the count and of the mbufs behind. -/
theorem le_left (h : At chain m ms s.place) {n : ℕ} (hn : (n : ℤ) ≤ s.x_handy + total ms) :
    n ≤ (mbufView chain).left s := by
  show n ≤ (cur chain s).mtod + (cur chain s).m_len - s.x_private + total s.x_base.tail
  have htail : s.x_base.tail = ms := h.tail
  rw [h.cur_eq, htail]
  by_cases hnn : 0 ≤ s.x_handy
  · have hexact : s.x_handy = m.mtod + m.m_len - s.x_private := h.handy hnn
    omega
  · omega

/-- A call over blocks in the buffer. -/
theorem sound_of_blocks (bs : List (ℕ × ℕ)) (ok : Bool) {p : Place}
    (r : (ℕ → UInt8) → Result) (mem' : (ℕ → UInt8) → ℕ → UInt8)
    (h : At chain m ms s.place) (hp : At chain m' ms' p)
    (hbs : ∀ b ∈ bs, ∃ x ∈ chain, x.mtod ≤ b.1 ∧ b.1 + b.2 ≤ x.mtod + x.m_len)
    (hok : ∀ mem, (r mem).ok = ok)
    (henough : ok = true → (c.need : ℤ) ≤ s.x_handy + total ms)
    (hexact : ok = true → 0 ≤ p.x_handy)
    (hcall : ∀ mem, Xdrmbuf.call c { s with mem := mem } = (r mem, p.stream (mem' mem)))
    (hreads : ∀ mem, gather mem bs = gather s.mem bs → r mem = r s.mem)
    (hwrites : ∃ l, mem' s.mem = scatter s.mem bs l ∨ mem' s.mem = s.mem) :
    Sound (mbufView chain) c s ∧ At chain m' ms' (s.call c).2.place := by
  have hself : (mbufView chain).call c s = (r s.mem, p.stream (mem' s.mem)) := hcall s.mem
  have hat : At chain m' ms' (p.stream (mem' s.mem)).place := hp
  have hin : ∀ b ∈ bs, ∀ i, b.1 ≤ i → i < b.1 + b.2 → (mbufView chain).buffer i := by
    intro b hb i h1 h2
    obtain ⟨x, hx, hlo, hhi⟩ := hbs b hb
    exact ⟨x, hx, by omega, by omega⟩
  refine ⟨⟨?_, ?_, ?_, ?_, ?_⟩, ?_⟩
  · rw [hself]
    intro ht
    exact h.le_left (henough ((hok s.mem).symm.trans ht))
  · rw [hself]
    exact hat.inside
  · rw [hself]
    intro ht
    exact hat.handy_eq_here (hexact ((hok s.mem).symm.trans ht))
  · intro mem hmem
    rw [hself]
    have hother : ((mbufView chain).call c ((mbufView chain).withMem mem s)).1 = r mem :=
      congrArg Prod.fst (hcall mem)
    rw [hother]
    exact hreads mem (gather_congr hin hmem)
  · intro a ha
    rw [hself]
    show mem' s.mem a = s.mem a
    obtain ⟨l, hl | hl⟩ := hwrites
    · rw [hl]
      exact scatter_of_not hin ha
    · rw [hl]
  · have hcur : s.call c = (r s.mem, p.stream (mem' s.mem)) := hcall s.mem
    rw [hcur]
    exact hat

/-- **One call** on a chain. -/
theorem call (h : At chain m ms s.place) (hs : Shorts chain) (hfits : c.Fits)
    (hw : ¬ c.Wraps s.x_handy) (hroom : c.Room s) :
    ∃ m' ms', Sound (mbufView chain) c s ∧ At chain m' ms' (s.call c).2.place := by
  have htail : s.x_base.tail = ms := h.tail
  cases c with
  | getlong =>
    replace hroom : s.place.x_handy < 4 → ∀ x ∈ ms.head?, 4 ≤ x.m_len := htail ▸ hroom
    rcases h.nextLong hs hw hroom with
      ⟨a, m', ms', ha, hat, hin, henough, hnn, -⟩ | ⟨hnone, hat, -⟩
    · refine ⟨m', ms', sound_of_blocks [(a, 4)] true
        (fun mem => .long (some (ntohl (load mem a 4)))) (fun mem => mem) h hat ?_ (fun _ => rfl)
        (fun _ => henough) (fun _ => hnn) ?_ ?_ ⟨[], .inr rfl⟩⟩
      · intro b hb
        rw [List.mem_singleton.mp hb]
        exact hin
      · intro mem
        simp only [Xdrmbuf.call, xdrmbuf_getlong_eq]
        rw [show (Xdrmbuf.place { s with mem := mem }) = s.place from rfl, ha]
        rfl
      · intro mem hmem
        rw [gather_cons, gather_cons, gather_nil, gather_nil, append_nil, append_nil] at hmem
        rw [hmem]
    · refine ⟨m, ms, sound_of_blocks [] false (fun _ => .long none) (fun mem => mem) h hat
        (fun _ hb => absurd hb not_mem_nil) (fun _ => rfl) (fun h => absurd h (by simp))
        (fun h => absurd h (by simp)) ?_ (fun _ _ => rfl) ⟨[], .inr rfl⟩⟩
      intro mem
      simp only [Xdrmbuf.call, xdrmbuf_getlong_eq]
      rw [show (Xdrmbuf.place { s with mem := mem }) = s.place from rfl, hnone]
      rfl
  | putlong lp =>
    replace hroom : s.place.x_handy < 4 → ∀ x ∈ ms.head?, 4 ≤ x.m_len := htail ▸ hroom
    rcases h.nextLong hs hw hroom with
      ⟨a, m', ms', ha, hat, hin, henough, hnn, -⟩ | ⟨hnone, hat, -⟩
    · refine ⟨m', ms', sound_of_blocks [(a, 4)] true (fun _ => .put true)
        (fun mem => store mem a (htonl lp)) h hat ?_ (fun _ => rfl)
        (fun _ => henough) (fun _ => hnn) ?_ (fun _ _ => rfl) ⟨htonl lp, .inl rfl⟩⟩
      · intro b hb
        rw [List.mem_singleton.mp hb]
        exact hin
      · intro mem
        simp only [Xdrmbuf.call, xdrmbuf_putlong_eq]
        rw [show (Xdrmbuf.place { s with mem := mem }) = s.place from rfl, ha]
        rfl
    · refine ⟨m, ms, sound_of_blocks [] false (fun _ => .put false) (fun mem => mem) h hat
        (fun _ hb => absurd hb not_mem_nil) (fun _ => rfl) (fun h => absurd h (by simp))
        (fun h => absurd h (by simp)) ?_ (fun _ _ => rfl) ⟨[], .inr rfl⟩⟩
      intro mem
      simp only [Xdrmbuf.call, xdrmbuf_putlong_eq]
      rw [show (Xdrmbuf.place { s with mem := mem }) = s.place from rfl, hnone]
      rfl
  | getbytes len =>
    obtain ⟨m', ms', hspan, hat⟩ := h.span hs hfits hw
    refine ⟨m', ms', sound_of_blocks (Xdr.span ms s.place len).2.1 (Xdr.span ms s.place len).1
      (fun mem => .bytes (if (Xdr.span ms s.place len).1 = true then
        some (gather mem (Xdr.span ms s.place len).2.1) else none)) (fun mem =>
          mem) h hat hspan.blocks
      ?_ hspan.ok_iff.mp hspan.exact ?_ ?_ ⟨[], .inr rfl⟩⟩
    · intro mem
      cases (Xdr.span ms s.place len).1 <;> rfl
    · intro mem
      simp only [Xdrmbuf.call, xdrmbuf_getbytes, getbytesLoop_eq_span, htail]
      rfl
    · intro mem hmem
      simp only [hmem]
  | putbytes addr =>
    obtain ⟨m', ms', hspan, hat⟩ := h.span hs hfits hw
    refine ⟨m', ms', sound_of_blocks (Xdr.span ms s.place addr.length).2.1
      (Xdr.span ms s.place addr.length).1 (fun _ => .put (Xdr.span ms s.place addr.length).1)
      (fun mem => scatter mem (Xdr.span ms s.place addr.length).2.1 addr) h hat hspan.blocks
      (fun _ => rfl) hspan.ok_iff.mp hspan.exact ?_ (fun _ _ => rfl) ⟨addr, .inl rfl⟩⟩
    intro mem
    simp only [Xdrmbuf.call, xdrmbuf_putbytes, putbytesLoop_eq_span, htail]
    rfl
  | inline len =>
    by_cases hle : s.x_handy ≥ len
    · obtain ⟨hspan, hat⟩ := h.span_here hle
      refine ⟨m, ms, sound_of_blocks [] true (fun _ => .buf (some s.x_private)) (fun mem => mem) h
        hat (fun _ hb => absurd hb not_mem_nil) (fun _ => rfl) hspan.ok_iff.mp hspan.exact
        ?_ (fun _ _ => rfl) ⟨[], .inr rfl⟩⟩
      intro mem
      simp only [Xdrmbuf.call, xdrmbuf_inline]
      rw [if_pos hle]
      rfl
    · refine ⟨m, ms, sound_of_blocks [] false (fun _ => .buf none) (fun mem => mem) h
        h (fun _ hb => absurd hb not_mem_nil) (fun _ => rfl) (fun h => absurd h (by simp))
        (fun h => absurd h (by simp)) ?_ (fun _ _ => rfl) ⟨[], .inr rfl⟩⟩
      intro mem
      simp only [Xdrmbuf.call, xdrmbuf_inline]
      rw [if_neg hle]
      rfl

theorem long_beyond (h : At chain m ms s.place) (hw : ¬ Wraps s.x_handy 4)
    (hroom : ¬ (s.x_handy < 4 → ∀ x ∈ s.x_base.tail.head?, 4 ≤ x.m_len)) :
    ∃ b x xs, s.x_base = b :: x :: xs ∧ int32 (s.x_handy - 4) < 0 ∧ (x.m_len : ℤ) - 4 < 0 := by
  push Not at hroom
  obtain ⟨hlt, x, hx, hshort⟩ := hroom
  have hneg : int32 (s.x_handy - 4) < 0 := by
    rcases int32_sub_of_not_wraps h.fits (by omega) hw with ⟨hneg, -⟩ | ⟨-, hle⟩
    · exact hneg
    · exact absurd hlt (not_lt.mpr hle)
  rcases hb : s.x_base with - | ⟨b, - | ⟨y, ys⟩⟩
  · simp [hb] at hx
  · simp [hb] at hx
  · simp only [hb, tail_cons, List.head?_cons, Option.mem_def, Option.some.injEq] at hx
    rw [← hx] at hshort
    exact ⟨b, y, ys, rfl, hneg, by omega⟩

/-- A call whose length wraps the count around goes beyond the current mbuf or leaves a wrong
count; so does one that looks for a long in an mbuf that has none. -/
theorem not_sound (h : At chain m ms s.place) (hs : Shorts chain)
    (hbad : c.Wraps s.x_handy ∨ ¬ c.Room s) : ¬ Sound (mbufView chain) c s := by
  intro hsound
  by_cases hw : c.Wraps s.x_handy
  · have hcall : (s.call c).1.ok = true ∧ (s.call c).2.x_base = s.x_base ∧
        (s.call c).2.x_private = s.x_private + c.need ∧
        (s.call c).2.x_handy = int32 (s.x_handy - c.need) := by
      cases c with
      | getlong =>
        have hpos : ¬ int32 (s.x_handy - 4) < 0 := (int32_sub_of_wraps hw).1
        simp only [Xdrmbuf.call, xdrmbuf_getlong]
        rw [if_neg hpos]
        exact ⟨rfl, rfl, rfl, rfl⟩
      | putlong lp =>
        have hpos : ¬ int32 (s.x_handy - 4) < 0 := (int32_sub_of_wraps hw).1
        simp only [Xdrmbuf.call, xdrmbuf_putlong]
        rw [if_neg hpos]
        exact ⟨rfl, rfl, rfl, rfl⟩
      | getbytes len =>
        have hpos : ¬ int32 (s.x_handy - len) < 0 := (int32_sub_of_wraps hw).1
        simp only [Xdrmbuf.call, xdrmbuf_getbytes, getbytesLoop_eq_span]
        rw [span_of_enough (p := s.place) hpos]
        exact ⟨rfl, rfl, rfl, rfl⟩
      | putbytes addr =>
        have hpos : ¬ int32 (s.x_handy - addr.length) < 0 := (int32_sub_of_wraps hw).1
        simp only [Xdrmbuf.call, xdrmbuf_putbytes, putbytesLoop_eq_span]
        rw [span_of_enough (p := s.place) hpos]
        exact ⟨rfl, rfl, rfl, rfl⟩
      | inline len => exact hw.elim
    obtain ⟨hok, hbase, hprivate, hhandy⟩ := hcall
    have hwraps : Wraps s.x_handy c.need := by
      cases c with
      | inline len => exact hw.elim
      | _ => exact hw
    have hcur : cur chain (s.call c).2 = m := by
      rw [← h.cur_eq, cur, cur, hbase]
    have hin : (cur chain (s.call c).2).mtod ≤ (s.call c).2.x_private ∧
        (s.call c).2.x_private ≤ (cur chain (s.call c).2).mtod + (cur chain (s.call c).2).m_len :=
      hsound.inside
    have hexact : (s.call c).2.x_handy = (((cur chain (s.call c).2).mtod +
        (cur chain (s.call c).2).m_len - (s.call c).2.x_private : ℕ) : ℤ) := hsound.handy hok
    rw [hcur, hprivate] at hin
    rw [hcur, hprivate, hhandy, (int32_sub_of_wraps hwraps).2] at hexact
    have hfits := fits_iff.mp h.fits
    have hshort := hs m h.mem
    have hle : m.mtod ≤ s.x_private := h.le
    have hplace : s.place.x_handy = s.x_handy := rfl
    omega
  · have hcall : (s.call c).1.ok = true ∧ (s.call c).2.x_handy < 0 := by
      have hroom := hbad.resolve_left hw
      cases c with
      | getlong =>
        obtain ⟨b, x, xs, hbase, hneg, hx⟩ := h.long_beyond hw hroom
        rw [Xdrmbuf.call, xdrmbuf_getlong_eq, nextLong_of_next (p := s.place) hneg hbase]
        exact ⟨rfl, hx⟩
      | putlong lp =>
        obtain ⟨b, x, xs, hbase, hneg, hx⟩ := h.long_beyond hw hroom
        rw [Xdrmbuf.call, xdrmbuf_putlong_eq, nextLong_of_next (p := s.place) hneg hbase]
        exact ⟨rfl, hx⟩
      | getbytes len => exact absurd trivial hroom
      | putbytes addr => exact absurd trivial hroom
      | inline len => exact absurd trivial hroom
    have hexact : (s.call c).2.x_handy = ((mbufView chain).here (s.call c).2 : ℤ) :=
      hsound.handy hcall.1
    omega

theorem init (mem : ℕ → UInt8) (hs : Shorts (m :: ms)) :
    At (m :: ms) m ms (xdrmbuf_init mem m ms).place := by
  have hshort := hs m mem_cons_self
  refine ⟨⟨[], rfl⟩, .inl rfl, le_refl _, Nat.le_add_right _ _, fits_iff.mpr ?_, ?_, ?_⟩
  · show -2147483648 ≤ (m.m_len : ℤ) ∧ (m.m_len : ℤ) ≤ 2147483647
    omega
  · intro _
    show (m.m_len : ℤ) = m.mtod + m.m_len - m.mtod
    omega
  · intro _
    exact Int.natCast_nonneg _

end At

/-! ## Runs -/

/-- A call that is made of an `xdrmem` stream, when its length does not wrap the count around. -/
def Xdrmem.step : Xdrmem → Call → Xdrmem → Prop :=
  Guarded (fun s c => c.Fits ∧ ¬ c.Wraps s.x_handy) fun s c t => (s.call c).2 = t

/-- A call that is made of an `xdrmbuf` stream, when its length does not wrap the count around
and it does not look for a long in an mbuf that has none. -/
def Xdrmbuf.step : Xdrmbuf → Call → Xdrmbuf → Prop :=
  Guarded (fun s c => c.Fits ∧ ¬ c.Wraps s.x_handy ∧ c.Room s) fun s c t => (s.call c).2 = t

/-- **No call leaves the buffer**, of one buffer or of a chain, in any sequence of calls none
of which wraps the count around or looks for a long in an mbuf that has none.  A call that
does is not sound. -/
theorem calls_sound (mem : ℕ → UInt8) :
    (∀ addr size : ℕ, size < 2 ^ 32 → ∀ cs s,
      Run Xdrmem.step (xdrmem_create mem addr size) cs s → ∀ c : Call, c.Fits →
      (¬ c.Wraps s.x_handy → Sound (memView addr (addr + size)) c s) ∧
      (size < 2 ^ 31 → c.Wraps s.x_handy → ¬ Sound (memView addr (addr + size)) c s)) ∧
    ∀ (m : Mbuf) (ms : List Mbuf), Shorts (m :: ms) → ∀ cs s,
      Run Xdrmbuf.step (xdrmbuf_init mem m ms) cs s → ∀ c : Call, c.Fits →
      (Sound (mbufView (m :: ms)) c s ↔ ¬ c.Wraps s.x_handy ∧ c.Room s) := by
  constructor
  · intro addr size hsize cs s hrun c hfits
    have hheld : s.Held addr (addr + size) := by
      refine Run.invariant ?_ hrun (Xdrmem.held_create hsize)
      rintro s c t hs ⟨⟨hfits, hw⟩, rfl⟩
      exact (hs.call hfits hw).2
    exact ⟨fun hw => (hheld.call hfits hw).1, fun hlt hw => hheld.not_sound (by omega) hw⟩
  · intro m ms hs cs s hrun c hfits
    have hat : ∃ m' ms', At (m :: ms) m' ms' s.place := by
      refine Run.invariant (I := fun s => ∃ m' ms', At (m :: ms) m' ms' s.place) ?_ hrun
        ⟨m, ms, At.init mem hs⟩
      rintro s c t ⟨m', ms', hat⟩ ⟨⟨hfits, hw, hroom⟩, rfl⟩
      obtain ⟨m'', ms'', -, hat'⟩ := hat.call hs hfits hw hroom
      exact ⟨m'', ms'', hat'⟩
    obtain ⟨m', ms', hat⟩ := hat
    constructor
    · intro hsound
      by_contra hbad
      exact hat.not_sound hs (by rwa [not_and_or, not_not] at hbad) hsound
    · rintro ⟨hw, hroom⟩
      obtain ⟨-, -, hsound, -⟩ := hat.call hs hfits hw hroom
      exact hsound

/-- A hundred bytes, and two mbufs with four bytes each, after a long and some bytes. -/
theorem calls_sound_tiny :
    Sound (memView 1000 1100) (.getbytes 200)
      (((xdrmem_create (fun _ => 0) 1000 100).call (.putlong 7)).2.call (.getbytes 10)).2 ∧
    Sound (mbufView [⟨1000, 4⟩, ⟨2000, 4⟩]) (.getbytes 6)
      (((xdrmbuf_init (fun _ => 0) ⟨1000, 4⟩ [⟨2000, 4⟩]).call .getlong).2.call (.getbytes 3)).2 := by
  obtain ⟨hmem, hmbuf⟩ := calls_sound fun _ => 0
  constructor
  · refine (hmem 1000 100 (by decide) [.putlong 7, .getbytes 10] _ (.cons ⟨⟨?_, ?_⟩, rfl⟩
      (.cons ⟨⟨?_, ?_⟩, rfl⟩ (.nil _))) (.getbytes 200) ?_).1 ?_
    · exact (by decide : 4 < 2 ^ 32)
    · exact (by decide : ¬ Wraps 100 4)
    · exact (by decide : 10 < 2 ^ 32)
    · exact (by decide : ¬ Wraps 96 10)
    · exact (by decide : 200 < 2 ^ 32)
    · exact (by decide : ¬ Wraps 86 200)
  · refine (hmbuf ⟨1000, 4⟩ [⟨2000, 4⟩] (by decide) [.getlong, .getbytes 3] _
      (.cons ⟨⟨?_, ?_, ?_⟩, rfl⟩ (.cons ⟨⟨?_, ?_, trivial⟩, rfl⟩ (.nil _))) (.getbytes 6) ?_).mpr
      ⟨?_, trivial⟩
    · exact (by decide : 4 < 2 ^ 32)
    · exact (by decide : ¬ Wraps 4 4)
    · exact (by decide : (4 : ℤ) < 4 → ∀ x ∈ some (⟨2000, 4⟩ : Mbuf), 4 ≤ x.m_len)
    · exact (by decide : 3 < 2 ^ 32)
    · exact (by decide : ¬ Wraps 0 3)
    · exact (by decide : 6 < 2 ^ 32)
    · exact (by decide : ¬ Wraps 1 6)

/-- A length beyond 2^31 is got from a hundred bytes; a long is got from an mbuf that is empty. -/
theorem calls_not_sound :
    ((xdrmem_create (fun _ => 0) 1000 100).call (.getbytes (2 ^ 31 + 200))).1.ok = true ∧
    ¬ Sound (memView 1000 1100) (.getbytes (2 ^ 31 + 200)) (xdrmem_create (fun _ => 0) 1000 100) ∧
    ¬ Sound (mbufView [⟨1000, 0⟩, ⟨2000, 0⟩]) .getlong
      (xdrmbuf_init (fun _ => 0) ⟨1000, 0⟩ [⟨2000, 0⟩]) := by
  refine ⟨rfl, ?_, ?_⟩
  · intro h
    exact absurd (h.enough rfl) (by decide)
  · intro h
    exact absurd (h.enough rfl) (by decide)

end Xdr
