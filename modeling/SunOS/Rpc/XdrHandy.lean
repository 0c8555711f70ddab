/-
# The bytes left of a stream

`x_handy` counts the bytes left of a stream in memory or of the current mbuf.  The
length of a call is taken from it before it is compared with zero: as long as that
subtraction does not wrap around, no call succeeds, reads or writes beyond the
buffer, over any sequence of calls.
-/
import SunOS.Lib.Run
import SunOS.Rpc.XdrStreams

namespace Xdr

open Bytes

/-! ## The count -/

/-- Taking `len` from the count wraps around to a count that is not negative. -/
def Wraps (handy : ℤ) (len : ℕ) : Prop :=
  -2 ^ 32 ≤ handy - len ∧ handy - len < -2 ^ 31

instance (handy : ℤ) (len : ℕ) : Decidable (Wraps handy len) := inferInstanceAs (Decidable (_ ∧ _))

/-- Without that, the test of the count tells whether there are enough bytes. -/
theorem int32_sub_of_not_wraps {handy : ℤ} {len : ℕ} (hfits : Fits handy) (hlen : len < 2 ^ 32)
    (hw : ¬ Wraps handy len) :
    int32 (handy - len) < 0 ∧ handy < len ∨ int32 (handy - len) = handy - len ∧ len ≤ handy := by
  rw [fits_iff] at hfits
  unfold Wraps at hw
  unfold int32
  omega

/-- A length that does makes the test succeed. -/
theorem int32_sub_of_wraps {handy : ℤ} {len : ℕ} (hw : Wraps handy len) :
    ¬ int32 (handy - len) < 0 ∧ int32 (handy - len) = handy - len + 2 ^ 32 := by
  unfold Wraps at hw
  unfold int32
  omega

theorem fits_int32 (x : ℤ) : Fits (int32 x) := by
  rw [fits_iff]
  unfold int32
  omega

/-! ## What a call must not do -/

/-- What is looked at of a stream: its calls, its memory, the count, the addresses of the
buffer, whether the next address is in the buffer, the bytes that are left and those of
them that the count is for. -/
structure View (σ : Type) where
  call : Call → σ → Result × σ
  mem : σ → ℕ → UInt8
  withMem : (ℕ → UInt8) → σ → σ
  x_handy : σ → ℤ
  buffer : ℕ → Prop
  inside : σ → Prop
  left : σ → ℕ
  here : σ → ℕ

variable {σ : Type}

/-- A call succeeds only with enough bytes left, keeps the next address in the buffer, has
the count right when it succeeds, and neither depends on a byte outside the buffer nor
changes one. -/
structure Sound (v : View σ) (c : Call) (s : σ) : Prop where
  enough : (v.call c s).1.ok = true → c.need ≤ v.left s
  inside : v.inside (v.call c s).2
  handy : (v.call c s).1.ok = true → v.x_handy (v.call c s).2 = v.here (v.call c s).2
  reads : ∀ mem, (∀ a, v.buffer a → mem a = v.mem s a) →
    (v.call c (v.withMem mem s)).1 = (v.call c s).1
  writes : ∀ a, ¬ v.buffer a → v.mem (v.call c s).2 a = v.mem s a

/-- A length is a `u_int`, that of an inline call an int that is not negative. -/
def Call.Fits : Call → Prop
  | .inline len => len < 2 ^ 31
  | c => c.need < 2 ^ 32

/-- Taking the length of the call from the count wraps around. -/
def Call.Wraps (handy : ℤ) : Call → Prop
  | .inline _ => False
  | c => Xdr.Wraps handy c.need

/-! ## One buffer -/

/-- An `xdrmem` stream over the addresses from `lo` to `hi`. -/
def memView (lo hi : ℕ) : View Xdrmem where
  call := Xdrmem.call
  mem := Xdrmem.mem
  withMem mem s := { s with mem := mem }
  x_handy := Xdrmem.x_handy
  buffer a := lo ≤ a ∧ a < hi
  inside s := lo ≤ s.x_private ∧ s.x_private ≤ hi
  left s := hi - s.x_private
  here s := hi - s.x_private

namespace Xdrmem

/-- The next address is in the buffer, and a count that is not negative is right. -/
structure Held (lo hi : ℕ) (s : Xdrmem) : Prop where
  lo_le : lo ≤ s.x_private
  le_hi : s.x_private ≤ hi
  fits : Fits s.x_handy
  exact : 0 ≤ s.x_handy → s.x_handy = hi - s.x_private

variable {lo hi : ℕ} {s : Xdrmem}

theorem held_create {mem : ℕ → UInt8} {addr size : ℕ} (hsize : size < 2 ^ 32) :
    Held addr (addr + size) (xdrmem_create mem addr size) := by
  refine ⟨le_refl _, Nat.le_add_right _ _, fits_int32 _, ?_⟩
  intro hpos
  replace hpos : 0 ≤ int32 size := hpos
  show int32 size = ((addr + size : ℕ) : ℤ) - addr
  unfold int32 at hpos ⊢
  omega

namespace Held

variable {c : Call}

/-- The count after `len` bytes have been taken from it. -/
theorem take (len : ℕ) (hs : s.Held lo hi) (hlen : len < 2 ^ 32) (hw : ¬ Wraps s.x_handy len) :
    int32 (s.x_handy - len) < 0 ∧ Held lo hi { s with x_handy := int32 (s.x_handy - len) } ∨
    ¬ int32 (s.x_handy - len) < 0 ∧ s.x_private + len ≤ hi ∧
      int32 (s.x_handy - len) = hi - (s.x_private + len) ∧
      ∀ mem, Held lo hi ⟨mem, s.x_private + len, int32 (s.x_handy - len)⟩ := by
  have hlo := hs.lo_le
  rcases int32_sub_of_not_wraps hs.fits hlen hw with ⟨hneg, -⟩ | ⟨heq, hle⟩
  · exact .inl ⟨hneg, hlo, hs.le_hi, fits_int32 _, fun hpos => absurd hpos (by
      show ¬ 0 ≤ int32 (s.x_handy - len)
      lia)⟩
  · have hexact := hs.exact (by lia)
    refine .inr ⟨by lia, by lia, by lia, fun mem => ⟨?_, ?_, fits_int32 _, fun _ => ?_⟩⟩
    · show lo ≤ s.x_private + len
      lia
    · show s.x_private + len ≤ hi
      lia
    · show int32 (s.x_handy - len) = hi - ((s.x_private + len : ℕ) : ℤ)
      lia

/-- A call that fails touches no memory. -/
theorem failed {r : Result} {handy : ℤ} (hs : s.Held lo hi) (hr : r.ok = false)
    (h : ∀ mem, Xdrmem.call c { s with mem := mem } = (r, ⟨mem, s.x_private, handy⟩)) :
    Sound (memView lo hi) c s := by
  have hcall : (memView lo hi).call c s = (r, ⟨s.mem, s.x_private, handy⟩) := h s.mem
  refine ⟨?_, ?_, ?_, ?_, ?_⟩
  · rw [hcall, hr]
    exact fun h => absurd h (by simp)
  · rw [hcall]
    exact ⟨hs.lo_le, hs.le_hi⟩
  · rw [hcall, hr]
    exact fun h => absurd h (by simp)
  · intro mem _
    rw [hcall]
    exact (congrArg Prod.fst (h mem) : (Xdrmem.call c { s with mem := mem }).1 = r)
  · intro a _
    rw [hcall]
    rfl

/-- A call that succeeds for the bytes it has taken. -/
theorem succeeded {r : (ℕ → UInt8) → Result} {mem' : (ℕ → UInt8) → ℕ → UInt8}
    {handy : ℤ} (hs : s.Held lo hi) (hend : s.x_private + c.need ≤ hi)
    (hhandy : handy = hi - (s.x_private + c.need))
    (h : ∀ mem, Xdrmem.call c { s with mem := mem } =
      (r mem, ⟨mem' mem, s.x_private + c.need, handy⟩))
    (hreads : ∀ mem, (∀ a, s.x_private ≤ a → a < s.x_private + c.need → mem a = s.mem a) →
      r mem = r s.mem)
    (hwrites : ∀ a, ¬ (s.x_private ≤ a ∧ a < s.x_private + c.need) → mem' s.mem a = s.mem a) :
    Sound (memView lo hi) c s := by
  have hcall : (memView lo hi).call c s =
      (r s.mem, ⟨mem' s.mem, s.x_private + c.need, handy⟩) := h s.mem
  have hlo := hs.lo_le
  refine ⟨fun _ => ?_, ?_, fun _ => ?_, ?_, ?_⟩
  · show c.need ≤ hi - s.x_private
    lia
  · rw [hcall]
    show lo ≤ s.x_private + c.need ∧ s.x_private + c.need ≤ hi
    lia
  · rw [hcall]
    show handy = ((hi - (s.x_private + c.need) : ℕ) : ℤ)
    lia
  · intro mem hmem
    rw [hcall]
    refine (congrArg Prod.fst (h mem)).trans (hreads mem fun a h1 h2 => hmem a ⟨?_, ?_⟩)
    · lia
    · lia
  · intro a ha
    rw [hcall]
    refine hwrites a ?_
    rintro ⟨h1, h2⟩
    exact ha ⟨by lia, by lia⟩

/-- **One call** on one buffer. -/
theorem call (hs : s.Held lo hi) (hfits : c.Fits) (hw : ¬ c.Wraps s.x_handy) :
    Sound (memView lo hi) c s ∧ Held lo hi (s.call c).2 := by
  cases c with
  | getlong =>
    rcases hs.take 4 hfits hw with ⟨hneg, hheld⟩ | ⟨hpos, hend, hhandy, hheld⟩
    · replace hneg : int32 (s.x_handy - 4) < 0 := hneg
      have hcall : ∀ mem, Xdrmem.call .getlong { s with mem := mem } =
          (.long none, ⟨mem, s.x_private, int32 (s.x_handy - (4 : ℕ))⟩) := by
        intro mem
        simp only [Xdrmem.call, xdrmem_getlong]
        rw [if_pos hneg]
        rfl
      exact ⟨hs.failed rfl hcall, (hcall s.mem) ▸ hheld⟩
    · replace hpos : ¬ int32 (s.x_handy - 4) < 0 := hpos
      have hcall : ∀ mem, Xdrmem.call .getlong { s with mem := mem } =
          (.long (some (ntohl (load mem s.x_private 4))),
            ⟨mem, s.x_private + 4, int32 (s.x_handy - (4 : ℕ))⟩) := by
        intro mem
        simp only [Xdrmem.call, xdrmem_getlong]
        rw [if_neg hpos]
        rfl
      refine ⟨hs.succeeded hend hhandy hcall ?_ fun _ _ => rfl, (hcall s.mem) ▸ hheld s.mem⟩
      intro mem hmem
      exact congrArg (fun l => Result.long (some (ntohl l))) (load_congr hmem)
  | putlong lp =>
    rcases hs.take 4 hfits hw with ⟨hneg, hheld⟩ | ⟨hpos, hend, hhandy, hheld⟩
    · replace hneg : int32 (s.x_handy - 4) < 0 := hneg
      have hcall : ∀ mem, Xdrmem.call (.putlong lp) { s with mem := mem } =
          (.put false, ⟨mem, s.x_private, int32 (s.x_handy - (4 : ℕ))⟩) := by
        intro mem
        simp only [Xdrmem.call, xdrmem_putlong]
        rw [if_pos hneg]
        rfl
      exact ⟨hs.failed rfl hcall, (hcall s.mem) ▸ hheld⟩
    · replace hpos : ¬ int32 (s.x_handy - 4) < 0 := hpos
      have hcall : ∀ mem, Xdrmem.call (.putlong lp) { s with mem := mem } =
          (.put true, ⟨store mem s.x_private (htonl lp), s.x_private + 4,
            int32 (s.x_handy - (4 : ℕ))⟩) := by
        intro mem
        simp only [Xdrmem.call, xdrmem_putlong]
        rw [if_neg hpos]
        rfl
      refine ⟨hs.succeeded hend hhandy hcall (fun _ _ => rfl) ?_, (hcall s.mem) ▸ hheld _⟩
      exact fun a ha => store_of_not_mem ha
  | getbytes len =>
    rcases hs.take len hfits hw with ⟨hneg, hheld⟩ | ⟨hpos, hend, hhandy, hheld⟩
    · have hcall : ∀ mem, Xdrmem.call (.getbytes len) { s with mem := mem } =
          (.bytes none, ⟨mem, s.x_private, int32 (s.x_handy - len)⟩) := by
        intro mem
        simp only [Xdrmem.call, xdrmem_getbytes]
        rw [if_pos hneg]
      exact ⟨hs.failed rfl hcall, (hcall s.mem) ▸ hheld⟩
    · have hcall : ∀ mem, Xdrmem.call (.getbytes len) { s with mem := mem } =
          (.bytes (some (load mem s.x_private len)),
            ⟨mem, s.x_private + len, int32 (s.x_handy - len)⟩) := by
        intro mem
        simp only [Xdrmem.call, xdrmem_getbytes]
        rw [if_neg hpos]
      refine ⟨hs.succeeded hend hhandy hcall ?_ fun _ _ => rfl, (hcall s.mem) ▸ hheld s.mem⟩
      intro mem hmem
      exact congrArg (fun l => Result.bytes (some l)) (load_congr hmem)
  | putbytes addr =>
    rcases hs.take addr.length hfits hw with ⟨hneg, hheld⟩ | ⟨hpos, hend, hhandy, hheld⟩
    · have hcall : ∀ mem, Xdrmem.call (.putbytes addr) { s with mem := mem } =
          (.put false, ⟨mem, s.x_private, int32 (s.x_handy - addr.length)⟩) := by
        intro mem
        simp only [Xdrmem.call, xdrmem_putbytes]
        rw [if_pos hneg]
      exact ⟨hs.failed rfl hcall, (hcall s.mem) ▸ hheld⟩
    · have hcall : ∀ mem, Xdrmem.call (.putbytes addr) { s with mem := mem } =
          (.put true, ⟨store mem s.x_private addr, s.x_private + addr.length,
            int32 (s.x_handy - addr.length)⟩) := by
        intro mem
        simp only [Xdrmem.call, xdrmem_putbytes]
        rw [if_neg hpos]
      refine ⟨hs.succeeded hend hhandy hcall (fun _ _ => rfl) ?_, (hcall s.mem) ▸ hheld _⟩
      exact fun a ha => store_of_not_mem ha
  | inline len =>
    by_cases hroom : s.x_handy ≥ len
    · have hcall : ∀ mem, Xdrmem.call (.inline len) { s with mem := mem } =
          (.buf (some s.x_private), ⟨mem, s.x_private + len, s.x_handy - len⟩) := by
        intro mem
        simp only [Xdrmem.call, xdrmem_inline]
        rw [if_pos hroom]
      have hexact := hs.exact (by omega)
      have hlo := hs.lo_le
      have hfit := hs.fits
      have hend : s.x_private + len ≤ hi := by omega
      refine ⟨hs.succeeded hend ?_ hcall (fun _ _ => rfl) fun _ _ => rfl, ?_⟩
      · show s.x_handy - len = hi - (s.x_private + (len : ℤ))
        omega
      · rw [hcall s.mem]
        rw [fits_iff] at hfit
        refine ⟨?_, hend, fits_iff.mpr ?_, fun _ => ?_⟩
        · show lo ≤ s.x_private + len
          omega
        · show -2147483648 ≤ s.x_handy - len ∧ s.x_handy - len ≤ 2147483647
          omega
        · show s.x_handy - len = hi - ((s.x_private + len : ℕ) : ℤ)
          omega
    · have hcall : ∀ mem, Xdrmem.call (.inline len) { s with mem := mem } =
          (.buf none, ⟨mem, s.x_private, s.x_handy⟩) := by
        intro mem
        simp only [Xdrmem.call, xdrmem_inline]
        rw [if_neg hroom]
      exact ⟨hs.failed rfl hcall, (hcall s.mem) ▸ hs⟩

/-- A call whose length wraps the count around succeeds, and leaves a wrong count. -/
theorem not_sound {c : Call} (hs : s.Held lo hi) (hsize : hi - lo < 2 ^ 31)
    (hw : c.Wraps s.x_handy) : ¬ Sound (memView lo hi) c s := by
  intro hsound
  have hcall : (s.call c).1.ok = true ∧ (s.call c).2.x_private = s.x_private + c.need ∧
      (s.call c).2.x_handy = int32 (s.x_handy - c.need) := by
    cases c with
    | getlong =>
      have hpos : ¬ int32 (s.x_handy - 4) < 0 := (int32_sub_of_wraps hw).1
      simp only [Xdrmem.call, xdrmem_getlong]
      rw [if_neg hpos]
      exact ⟨rfl, rfl, rfl⟩
    | putlong lp =>
      have hpos : ¬ int32 (s.x_handy - 4) < 0 := (int32_sub_of_wraps hw).1
      simp only [Xdrmem.call, xdrmem_putlong]
      rw [if_neg hpos]
      exact ⟨rfl, rfl, rfl⟩
    | getbytes len =>
      have hpos : ¬ int32 (s.x_handy - len) < 0 := (int32_sub_of_wraps hw).1
      simp only [Xdrmem.call, xdrmem_getbytes]
      rw [if_neg hpos]
      exact ⟨rfl, rfl, rfl⟩
    | putbytes addr =>
      have hpos : ¬ int32 (s.x_handy - addr.length) < 0 := (int32_sub_of_wraps hw).1
      simp only [Xdrmem.call, xdrmem_putbytes]
      rw [if_neg hpos]
      exact ⟨rfl, rfl, rfl⟩
    | inline len => exact hw.elim
  obtain ⟨hok, hprivate, hhandy⟩ := hcall
  have hwraps : Wraps s.x_handy c.need := by
    cases c with
    | inline len => exact hw.elim
    | _ => exact hw
  have hexact : (s.call c).2.x_handy = ((hi - (s.call c).2.x_private : ℕ) : ℤ) := hsound.handy hok
  have henough : c.need ≤ hi - s.x_private := hsound.enough hok
  rw [hprivate, hhandy, (int32_sub_of_wraps hwraps).2] at hexact
  have hfits := fits_iff.mp hs.fits
  have hlo := hs.lo_le
  omega

end Held

end Xdrmem

end Xdr
