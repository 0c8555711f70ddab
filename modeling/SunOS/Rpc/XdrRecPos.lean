/-
# Positions in a record stream

`xdrrec_getpos` and `xdrrec_setpos` of `src/lib/libc/rpc/xdr_rec.c`.  A position
counts the bytes of the handle; the buffer finger and the count of the fragment's
unread bytes have to move with it.
-/
import SunOS.Lib.Run
import SunOS.Lib.Word
import SunOS.Rpc.XdrRecWrite

namespace Xdrrec

open Option
open Bytes

/-! ## Reading -/

section Reading

-- the offset of the handle, by what it still holds; -1 when it cannot be sought
variable (lseek : List (List UInt8) → ℤ)

/-- `xdrrec_getpos`, of a stream that is read. -/
def xdrrec_getposIn (s : In) : ℤ :=
  let pos := lseek s.incoming
  if pos ≠ -1 then uint32 (pos - ((s.in_boundry : ℤ) - s.in_finger)) else uint32 pos

/-- `xdrrec_setpos`, of a stream that is read. -/
def xdrrec_setposIn (pos : ℤ) (s : In) : Bool × In :=
  let currpos := xdrrec_getposIn lseek s
  let delta := int32 (currpos - pos)
  if int32 currpos ≠ -1 then
    let newpos := uint32 (s.in_finger - delta)
    if delta < int32 s.fbtbc ∧ newpos ≤ s.in_boundry ∧ s.in_base ≤ newpos then
      (true, { s with in_finger := newpos.toNat, fbtbc := (uint32 (s.fbtbc - delta)).toNat })
    else (false, s)
  else (false, s)

end Reading

/-- The finger stands in the buffer, and the counts are those of a long. -/
structure In.Layout (s : In) : Prop where
  base_le : s.in_base ≤ s.in_finger
  finger_le : s.in_finger ≤ s.in_boundry
  boundry_le : s.in_boundry ≤ s.in_base + s.in_size
  size_pos : 0 < s.in_size
  size_lt : s.in_size < 2 ^ 31
  addr_lt : s.in_base + s.in_size < 2 ^ 32
  fbtbc_lt : s.fbtbc < 2 ^ 31

/-- `s0` stands in the same buffer and in the same fragment as `s`, before or behind it. -/
def Beside (s0 s : In) : Prop :=
  s0 = { s with in_finger := s0.in_finger, fbtbc := s0.fbtbc } ∧
    s0.in_finger + s0.fbtbc = s.in_finger + s.fbtbc

/-- The fragment has as many unread bytes as at `s0`, and every call of the reader answers
as there. -/
def Resumes (s0 s : In) : Prop :=
  s.fbtbc = s0.fbtbc ∧ ∀ fuel gs, getAll fuel gs s = getAll fuel gs s0

/-! ### Every stream that is read -/

variable {s s' s0 : In} {fuel : ℕ}

theorem length_readit_le {len : ℕ} {l : List (List UInt8)} {c : List UInt8}
    {cs : List (List UInt8)} (h : readit len l = some (c, cs)) : c.length ≤ len := by
  rcases l with - | ⟨d, ds⟩
  · exact absurd h (by simp [readit])
  · rw [readit] at h
    by_cases hfit : d.length ≤ len
    · rw [if_pos hfit] at h
      obtain ⟨rfl, -⟩ := Prod.mk.inj (some.inj h)
      exact hfit
    · rw [if_neg hfit] at h
      obtain ⟨rfl, -⟩ := Prod.mk.inj (some.inj h)
      exact List.length_take_le _ _

namespace In.Layout

open Option

variable {l : List UInt8} {ok : Bool}

/-- A new stream: its buffer is empty. -/
theorem created {mem_alloc : ℕ → Option ℕ} {mem : ℕ → UInt8} {incoming : List (List UInt8)}
    {recvsize base : ℕ} (halloc : mem_alloc (fix_buf_size recvsize) = some base)
    (hsize : fix_buf_size recvsize < 2 ^ 31)
    (haddr : base + fix_buf_size recvsize < 2 ^ 32)
    (h : xdrrec_createIn mem_alloc mem incoming recvsize = some s) : s.Layout := by
  rw [xdrrec_createIn, halloc, map_some] at h
  obtain rfl := some.inj h
  have hpos := fix_buf_size_ge recvsize
  exact ⟨Nat.le_add_right _ _, le_refl _, le_refl _, by
    show 0 < fix_buf_size recvsize
    omega, hsize, haddr, by
    show 0 < 2 ^ 31
    omega⟩

theorem fill (hs : s.Layout) (h : fill_input_buf s = some s') : s'.Layout := by
  rw [fill_input_buf, map_eq_some_iff] at h
  obtain ⟨⟨c, cs⟩, hread, rfl⟩ := h
  have hlen := length_readit_le hread
  have hpos := hs.size_pos
  exact ⟨Nat.le_add_right _ _, Nat.le_add_right _ _, by
    show s.in_base + s.in_boundry % 2 + c.length ≤ s.in_base + s.in_size
    omega, hpos, hs.size_lt, hs.addr_lt, hs.fbtbc_lt⟩

theorem advance {k : ℕ} (hs : s.Layout) (hk : k ≤ s.in_boundry - s.in_finger) :
    ({ s with in_finger := s.in_finger + k } : In).Layout := by
  have hfinger := hs.finger_le
  exact ⟨le_trans hs.base_le (Nat.le_add_right _ _), by
    show s.in_finger + k ≤ s.in_boundry
    omega, hs.boundry_le, hs.size_pos, hs.size_lt, hs.addr_lt, hs.fbtbc_lt⟩

theorem fragment {n : ℕ} (last : Bool) (hs : s.Layout) (hn : n < 2 ^ 31) :
    ({ s with last_frag := last, fbtbc := n } : In).Layout :=
  ⟨hs.base_le, hs.finger_le, hs.boundry_le, hs.size_pos, hs.size_lt, hs.addr_lt, hn⟩

section

variable (hs : s.Layout)
include hs

theorem get_input_bytes {len : ℕ}
    (h : get_input_bytes fuel len s = some (ok, l, s')) : s'.Layout := by
  induction fuel generalizing s len l with
  | zero => exact absurd h (by simp [Xdrrec.get_input_bytes])
  | succ fuel ih =>
    rw [Xdrrec.get_input_bytes] at h
    by_cases hlen : len = 0
    · rw [if_pos hlen] at h
      simp only [some.injEq, Prod.mk.injEq] at h
      exact h.2.2 ▸ hs
    · rw [if_neg hlen] at h
      by_cases hempty : s.in_boundry - s.in_finger = 0
      · simp only [if_pos hempty] at h
        rcases hfill : fill_input_buf s with - | t
        · simp only [hfill, some.injEq, Prod.mk.injEq] at h
          exact h.2.2 ▸ hs
        · simp only [hfill] at h
          exact ih (hs.fill hfill) h
      · simp only [if_neg hempty, map_eq_some_iff] at h
        obtain ⟨⟨ok', l', t⟩, hrun, heq⟩ := h
        obtain ⟨rfl, -, rfl⟩ := heq
        exact ih (hs.advance (Nat.min_le_right _ _)) hrun

theorem skip_input_bytes {cnt : ℕ}
    (h : skip_input_bytes fuel cnt s = some (ok, s')) : s'.Layout := by
  induction fuel generalizing s cnt with
  | zero => exact absurd h (by simp [Xdrrec.skip_input_bytes])
  | succ fuel ih =>
    rw [Xdrrec.skip_input_bytes] at h
    by_cases hcnt : cnt = 0
    · rw [if_pos hcnt] at h
      simp only [some.injEq, Prod.mk.injEq] at h
      exact h.2 ▸ hs
    · rw [if_neg hcnt] at h
      by_cases hempty : s.in_boundry - s.in_finger = 0
      · simp only [if_pos hempty] at h
        rcases hfill : fill_input_buf s with - | t
        · simp only [hfill, some.injEq, Prod.mk.injEq] at h
          exact h.2 ▸ hs
        · simp only [hfill] at h
          exact ih (hs.fill hfill) h
      · simp only [if_neg hempty] at h
        exact ih (hs.advance (Nat.min_le_right _ _)) h

theorem set_input_fragment (h : set_input_fragment fuel s = some (ok, s')) : s'.Layout := by
  rw [Xdrrec.set_input_fragment, map_eq_some_iff] at h
  obtain ⟨⟨ok', l, t⟩, hrun, heq⟩ := h
  have ht := hs.get_input_bytes hrun
  by_cases hok : ok' = false
  · simp only [if_pos hok, Prod.mk.injEq] at heq
    exact heq.2 ▸ ht
  · simp only [if_neg hok, Prod.mk.injEq] at heq
    rw [← heq.2]
    refine ht.fragment _ ?_
    -- the count is what is left of the header without its top bit
    have hmask : (~~~RecordMark.LAST_FRAG).toNat = 2 ^ 31 - 1 := by decide
    have hle : (ntohl l &&& ~~~RecordMark.LAST_FRAG).toNat ≤ (~~~RecordMark.LAST_FRAG).toNat := by
      rw [UInt32.toNat_and]
      exact Nat.and_le_right
    omega

theorem getbytes {len : ℕ} (h : xdrrec_getbytes fuel len s = some (ok, l, s')) : s'.Layout := by
  induction fuel generalizing s len l with
  | zero => exact absurd h (by simp [xdrrec_getbytes])
  | succ fuel ih =>
    rw [xdrrec_getbytes] at h
    by_cases hlen : len = 0
    · rw [if_pos hlen] at h
      simp only [some.injEq, Prod.mk.injEq] at h
      exact h.2.2 ▸ hs
    · rw [if_neg hlen] at h
      by_cases hcur : s.fbtbc = 0
      · simp only [if_pos hcur] at h
        by_cases hlast : s.last_frag = true
        · simp only [if_pos hlast, some.injEq, Prod.mk.injEq] at h
          exact h.2.2 ▸ hs
        · simp only [if_neg hlast] at h
          rcases hfrag : Xdrrec.set_input_fragment (fuel + 1) s with - | ⟨_ | _, t⟩
          · simp [hfrag] at h
          · simp only [hfrag, some.injEq, Prod.mk.injEq] at h
            exact h.2.2 ▸ hs.set_input_fragment hfrag
          · simp only [hfrag] at h
            exact ih (hs.set_input_fragment hfrag) h
      · simp only [if_neg hcur] at h
        rcases hget : Xdrrec.get_input_bytes (fuel + 1) (min len s.fbtbc) s with - | ⟨_ | _, got, t⟩
        · simp [hget] at h
        · simp only [hget, some.injEq, Prod.mk.injEq] at h
          exact h.2.2 ▸ hs.get_input_bytes hget
        · simp only [hget, map_eq_some_iff] at h
          obtain ⟨⟨ok', l', u⟩, hrun, heq⟩ := h
          obtain ⟨rfl, -, rfl⟩ := heq
          have ht := hs.get_input_bytes hget
          exact ih (ht.fragment t.last_frag (by have := ht.fbtbc_lt; omega)) hrun

theorem getlong {lp : Option UInt32} (h : xdrrec_getlong fuel s = some (lp, s')) : s'.Layout := by
  rw [xdrrec_getlong] at h
  by_cases hfast : s.fbtbc ≥ sizeofLong ∧ s.in_boundry - s.in_finger ≥ sizeofLong
  · simp only [if_pos hfast, some.injEq, Prod.mk.injEq] at h
    have hcount := hs.fbtbc_lt
    exact h.2 ▸ (hs.advance hfast.2).fragment s.last_frag (by omega)
  · simp only [if_neg hfast, map_eq_some_iff] at h
    obtain ⟨⟨ok, l, t⟩, hrun, heq⟩ := h
    have ht := hs.getbytes hrun
    by_cases hok : ok = false
    · simp only [if_pos hok, Prod.mk.injEq] at heq
      exact heq.2 ▸ ht
    · simp only [if_neg hok, Prod.mk.injEq] at heq
      exact heq.2 ▸ ht

theorem skiprecord (h : xdrrec_skiprecord fuel s = some (ok, s')) : s'.Layout := by
  induction fuel generalizing s with
  | zero => exact absurd h (by simp [xdrrec_skiprecord])
  | succ fuel ih =>
    rw [xdrrec_skiprecord] at h
    by_cases hmore : s.fbtbc > 0 ∨ s.last_frag = false
    · rw [if_pos hmore] at h
      rcases hskip : Xdrrec.skip_input_bytes (fuel + 1) s.fbtbc s with - | ⟨_ | _, t⟩
      · simp [hskip] at h
      · simp only [hskip, some.injEq, Prod.mk.injEq] at h
        exact h.2 ▸ hs.skip_input_bytes hskip
      · have ht : ({ t with fbtbc := 0 } : In).Layout :=
          (hs.skip_input_bytes hskip).fragment t.last_frag (by omega)
        simp only [hskip] at h
        by_cases hlast : t.last_frag = false
        · simp only [if_pos hlast] at h
          rcases hfrag : Xdrrec.set_input_fragment (fuel + 1) { t with fbtbc := 0 } with
            - | ⟨_ | _, u⟩
          · simp [hfrag] at h
          · simp only [hfrag, some.injEq, Prod.mk.injEq] at h
            exact h.2 ▸ ht.set_input_fragment hfrag
          · simp only [hfrag] at h
            exact ih (ht.set_input_fragment hfrag) h
        · simp only [if_neg hlast] at h
          exact ih ht h
    · simp only [if_neg hmore, some.injEq, Prod.mk.injEq] at h
      exact h.2 ▸ hs.fragment false hs.fbtbc_lt

/-- Every call of the reader keeps the layout. -/
theorem get {g : Get} {a : Answer} (h : get fuel g s = some (a, s')) : s'.Layout := by
  rcases g with - | len | -
  · rw [Xdrrec.get, map_eq_some_iff] at h
    obtain ⟨⟨lp, t⟩, hrun, heq⟩ := h
    exact (Prod.mk.inj heq).2 ▸ hs.getlong hrun
  · rw [Xdrrec.get, map_eq_some_iff] at h
    obtain ⟨⟨ok, l, t⟩, hrun, heq⟩ := h
    exact (Prod.mk.inj heq).2 ▸ hs.getbytes hrun
  · rw [Xdrrec.get, map_eq_some_iff] at h
    obtain ⟨⟨ok, t⟩, hrun, heq⟩ := h
    exact (Prod.mk.inj heq).2 ▸ hs.skiprecord hrun

end

end In.Layout

/-- **Every state of a stream that is read**, from `xdrrec_create` on, has the layout. -/
theorem layout_of_run {mem_alloc : ℕ → Option ℕ} {mem : ℕ → UInt8} {incoming : List (List UInt8)}
    {recvsize base : ℕ} (h : xdrrec_createIn mem_alloc mem incoming recvsize = some s)
    (halloc : mem_alloc (fix_buf_size recvsize) = some base)
    (hsize : fix_buf_size recvsize < 2 ^ 31) (haddr : base + fix_buf_size recvsize < 2 ^ 32)
    {gs : List Get} (hrun : Run (fun s g t => ∃ fuel a, get fuel g s = some (a, t)) s gs s') :
    s'.Layout := by
  apply hrun.invariant ?_ (.created halloc hsize haddr h)
  rintro u g t hu ⟨fuel, a, hget⟩
  exact hu.get hget

theorem run_of_getAll {gs : List Get} {as : List Answer} (h : getAll fuel gs s = some as) :
    ∃ s', Run (fun s g t => ∃ fuel a, get fuel g s = some (a, t)) s gs s' := by
  induction gs generalizing s as with
  | nil => exact ⟨s, .nil _⟩
  | cons g gs ih =>
    rw [getAll] at h
    rcases hget : Xdrrec.get fuel g s with - | ⟨a, t⟩
    · simp [hget] at h
    · simp only [hget, map_eq_some_iff] at h
      obtain ⟨as', hrest, -⟩ := h
      obtain ⟨s', hrun⟩ := ih hrest
      exact ⟨s', .cons ⟨fuel, a, hget⟩ hrun⟩

/-- A record of eight bytes, which come in four pieces, is read in part. -/
theorem layout_of_run_pieces : ∃ s s',
    (xdrrec_createIn (fun _ => some 1000) (fun _ => 0)
        [[0x80, 0, 0], [8, 1, 2, 3], [4, 5, 6], [7, 8]] 0 = some s ∧
      getAll 9 [.skiprecord, .long, .bytes 3] s =
        some [.skiprecord true, .long (some 0x01020304), .bytes (some [5, 6, 7])]) ∧
    Run (fun s g t => ∃ fuel a, get fuel g s = some (a, t)) s [.skiprecord, .long, .bytes 3] s' ∧
      s'.Layout := by
  let s : In := ⟨[[0x80, 0, 0], [8, 1, 2, 3], [4, 5, 6], [7, 8]], fun _ => 0, 3998, 1000, 4998,
    4998, 0, true⟩
  have hall : getAll 9 [.skiprecord, .long, .bytes 3] s =
      some [.skiprecord true, .long (some 0x01020304), .bytes (some [5, 6, 7])] := by
    decide +kernel
  obtain ⟨s', hrun⟩ := run_of_getAll hall
  exact ⟨s, s', ⟨rfl, hall⟩, hrun, layout_of_run (show xdrrec_createIn (fun _ => some 1000)
    (fun _ => 0) _ 0 = some s from rfl) rfl (by decide) (by decide) hrun⟩

theorem Beside.same (h : Beside s0 s) :
    s0.incoming = s.incoming ∧ s0.in_base = s.in_base ∧ s0.in_boundry = s.in_boundry := by
  rw [h.1]
  exact ⟨rfl, rfl, rfl⟩

/-! ### Going back to a position -/

section

variable (lseek : List (List UInt8) → ℤ)
include lseek

/-- Between two places of one buffer, positions are as far apart as the fingers. -/
theorem delta_of_beside (hs0 : s0.Layout) (hs : s.Layout) (h : Beside s0 s) :
    int32 (xdrrec_getposIn lseek s - xdrrec_getposIn lseek s0) =
      if lseek s.incoming = -1 then 0 else (s.in_finger : ℤ) - s0.in_finger := by
  obtain ⟨hincoming, hbase, hboundry⟩ := h.same
  simp only [xdrrec_getposIn, hincoming, hboundry]
  by_cases hseek : lseek s.incoming = -1
  · simp [hseek, int32]
  · have h1 := hs0.base_le
    have h2 := hs0.finger_le
    have h3 := hs.base_le
    have h4 := hs.finger_le
    have h5 := hs.boundry_le
    have h6 := hs.size_lt
    rw [if_pos hseek, if_pos hseek, if_neg hseek, int32_uint32_sub]
    have hfits : Fits ((s.in_finger : ℤ) - s0.in_finger) := fits_iff.mpr (by omega)
    rw [← int32_of_fits hfits]
    congr 1
    omega

/-- Seeking to where the stream stands changes nothing. -/
theorem setposIn_here (hs : s.Layout) :
    (xdrrec_setposIn lseek (xdrrec_getposIn lseek s) s).2 = s := by
  have hzero : int32 (xdrrec_getposIn lseek s - xdrrec_getposIn lseek s) = 0 := by
    rw [sub_self]
    rfl
  have hfinger : uint32 ((s.in_finger : ℤ) - 0) = s.in_finger := by
    rw [sub_zero]
    have h1 := hs.finger_le
    have h2 := hs.boundry_le
    have h3 := hs.addr_lt
    exact uint32_of_ufits (ufits_iff.mpr (by omega))
  have hcount : uint32 ((s.fbtbc : ℤ) - 0) = s.fbtbc := by
    rw [sub_zero]
    have h := hs.fbtbc_lt
    exact uint32_of_ufits (ufits_iff.mpr (by omega))
  simp only [xdrrec_setposIn, hzero, hfinger, hcount, Int.toNat_natCast]
  split_ifs <;> rfl

/-- Going back to a position leads to it from no place but that position itself. -/
theorem resumes_setposIn_iff (hs0 : s0.Layout) (hs : s.Layout) (h : Beside s0 s) :
    Resumes s0 (xdrrec_setposIn lseek (xdrrec_getposIn lseek s0) s).2 ↔
      s.in_finger = s0.in_finger := by
  have hend := h.2
  have hdelta := delta_of_beside lseek hs0 hs h
  constructor
  · rintro ⟨hcount, -⟩
    by_contra hmoved
    have h2 := hs0.finger_le
    have h3 := hs.base_le
    have h5 := hs.boundry_le
    have h6 := hs.size_lt
    have h7 := hs0.fbtbc_lt
    obtain ⟨-, h8, h9⟩ := h.same
    simp only [xdrrec_setposIn, hdelta] at hcount
    by_cases hseek : lseek s.incoming = -1
    · simp only [xdrrec_getposIn, hseek] at hcount
      simp only [ne_eq, not_true_eq_false, if_false] at hcount
      rw [if_neg (by decide)] at hcount
      lia
    · simp only [if_neg hseek] at hcount
      split_ifs at hcount
      · -- the count has been moved the other way
        simp only [uint32] at hcount
        lia
      · simp only at hcount
        lia
      · simp only at hcount
        lia
  · intro hsame
    have hcount : s0.fbtbc = s.fbtbc := by lia
    have heq : s0 = s := by
      rw [h.1, ← hsame, hcount]
    rw [heq, setposIn_here lseek hs]
    exact ⟨rfl, fun _ _ => rfl⟩

/-- Seeking to where the stream stands answers TRUE unless the fragment has been read to its
end. -/
theorem setposIn_here_true_iff (hs : s.Layout) (hseek : int32 (xdrrec_getposIn lseek s) ≠ -1) :
    (xdrrec_setposIn lseek (xdrrec_getposIn lseek s) s).1 = true ↔ 0 < s.fbtbc := by
  have hzero : int32 (xdrrec_getposIn lseek s - xdrrec_getposIn lseek s) = 0 := by
    rw [sub_self]
    rfl
  have h1 := hs.base_le
  have h2 := hs.finger_le
  have h3 := hs.boundry_le
  have h4 := hs.addr_lt
  have h5 := hs.fbtbc_lt
  have hfinger : uint32 ((s.in_finger : ℤ) - 0) = s.in_finger := by
    rw [sub_zero]
    exact uint32_of_ufits (ufits_iff.mpr (by omega))
  have hcount : int32 (s.fbtbc : ℤ) = s.fbtbc := int32_of_fits (fits_iff.mpr (by omega))
  simp only [xdrrec_setposIn, hzero, hfinger, hcount, if_pos hseek]
  split_ifs with h
  · exact iff_of_true rfl (by omega)
  · exact iff_of_false id (by omega)

/-- **Going back to a position** works from no place but that position itself, and there unless the
fragment has been read to its end. -/
theorem setposIn_iff (hs0 : s0.Layout) (hs : s.Layout)
    (h : Beside s0 s) (hseek : int32 (xdrrec_getposIn lseek s) ≠ -1) :
    (xdrrec_setposIn lseek (xdrrec_getposIn lseek s0) s).1 = true ∧
        Resumes s0 (xdrrec_setposIn lseek (xdrrec_getposIn lseek s0) s).2 ↔
      s.in_finger = s0.in_finger ∧ 0 < s.fbtbc := by
  rw [resumes_setposIn_iff lseek hs0 hs h, and_comm]
  refine and_congr_right fun hsame => ?_
  have heq : s0 = s := by
    have hend := h.2
    rw [h.1, ← hsame, show s0.fbtbc = s.fbtbc by lia]
  rw [heq]
  exact setposIn_here_true_iff lseek hs hseek

end

/-! ## Writing -/

section Writing

-- the offset of the handle, by what it has been given; -1 when it cannot be sought
variable (lseek : List UInt8 → ℤ)

/-- `xdrrec_getpos`, of a stream that is written. -/
def xdrrec_getposOut (s : Out) : ℤ :=
  let pos := lseek s.sent
  if pos ≠ -1 then uint32 (pos + ((s.out_finger : ℤ) - s.out_base)) else uint32 pos

/-- `xdrrec_setpos`, of a stream that is written. -/
def xdrrec_setposOut (pos : ℤ) (s : Out) : Bool × Out :=
  let currpos := xdrrec_getposOut lseek s
  let delta := int32 (currpos - pos)
  if int32 currpos ≠ -1 then
    let newpos := uint32 (s.out_finger - delta)
    if (s.frag_header : ℤ) < newpos ∧ newpos < s.out_boundry then
      (true, { s with out_finger := newpos.toNat })
    else (false, s)
  else (false, s)

end Writing

/-- The finger stands behind the header of the fragment, with room for more. -/
structure Out.Layout (s : Out) : Prop where
  base_le : s.out_base ≤ s.frag_header
  header_le : s.frag_header + 4 ≤ s.out_finger
  finger_le : s.out_finger ≤ s.out_boundry
  room : s.out_base + 8 ≤ s.out_boundry
  header_lt : s.frag_header + 4 < s.out_boundry

/-- Puts leave the header alone, until the fragment is flushed: whatever has been put, what
is put next changes no byte of it. -/
def KeepsHeader (s : Out) : Prop :=
  ∀ writeit fuel ps t, putAll writeit fuel ps s = some (true, t) →
    ∀ qs u, putAll writeit fuel qs t = some (true, u) → u.sent = t.sent →
      load u.mem t.frag_header 4 = load t.mem t.frag_header 4

/-! ### Puts from behind the header -/

/-- What a put may do: it flushes, or it leaves the header where and as it is. -/
def Passes (s t : Out) : Prop :=
  t.Layout ∧ (s.sent.length < t.sent.length ∨
    t.sent = s.sent ∧ t.frag_header = s.frag_header ∧
      load t.mem s.frag_header 4 = load s.mem s.frag_header 4)

variable {writeit : List UInt8 → List UInt8 → Bool} {s t u : Out} {fuel : ℕ}

theorem Passes.trans (h : Passes s t) (h' : Passes t u) : Passes s u := by
  refine ⟨h'.1, ?_⟩
  rcases h.2 with hlt | ⟨hsent, hheader, hload⟩
  · left
    rcases h'.2 with hlt' | ⟨hsent', -⟩
    · exact lt_trans hlt hlt'
    · rw [hsent']
      exact hlt
  · rcases h'.2 with hlt' | ⟨hsent', hheader', hload'⟩
    · left
      rw [← hsent]
      exact hlt'
    · right
      rw [hheader] at hheader' hload'
      exact ⟨hsent'.trans hsent, hheader', hload'.trans hload⟩

namespace Out.Layout

open Option

/-- A new stream: the header of the first fragment is reserved. -/
theorem created {mem_alloc : ℕ → Option ℕ} {mem : ℕ → UInt8} {sendsize : ℕ}
    (h : xdrrec_createOut mem_alloc mem sendsize = some s) : s.Layout := by
  rw [xdrrec_createOut, map_eq_some_iff] at h
  obtain ⟨base, -, rfl⟩ := h
  have hsize := fix_buf_size_ge sendsize
  refine ⟨le_refl _, le_refl _, ?_, ?_, ?_⟩
  · show base + 4 ≤ base + fix_buf_size sendsize
    omega
  · show base + 8 ≤ base + fix_buf_size sendsize
    omega
  · show base + 4 < base + fix_buf_size sendsize
    omega

section

variable (hs : s.Layout)
include hs

theorem passes_self : Passes s s := ⟨hs, .inr ⟨rfl, rfl, rfl⟩⟩

theorem copy {l : List UInt8} (hroom : s.out_finger + l.length ≤ s.out_boundry) :
    Passes s { s with mem := store s.mem s.out_finger l, out_finger :=
      s.out_finger + l.length } := by
  refine ⟨⟨hs.base_le, le_trans hs.header_le (Nat.le_add_right _ _), hroom, hs.room,
    hs.header_lt⟩, .inr ⟨rfl, rfl, ?_⟩⟩
  exact load_store_of_disjoint (Or.inl hs.header_le)

/-- A flush sends at least the header, and leaves room for a word. -/
theorem flush {eor : Bool} (h : flush_out writeit eor s = (true, t)) :
    Passes s t ∧ t.out_finger + 4 ≤ t.out_boundry := by
  have h1 := hs.base_le
  have h2 := hs.header_le
  have h3 := hs.room
  rw [flush_out] at h
  split_ifs at h with htake
  · obtain ⟨-, rfl⟩ := Prod.mk.inj h
    refine ⟨⟨⟨le_refl _, le_refl _, ?_, h3, ?_⟩, .inl ?_⟩, ?_⟩
    · show s.out_base + 4 ≤ s.out_boundry
      omega
    · show s.out_base + 4 < s.out_boundry
      omega
    · rw [List.length_append, length_load]
      omega
    · show s.out_base + 4 + 4 ≤ s.out_boundry
      omega
  · exact absurd (congrArg Prod.fst h) (by simp)

theorem frag_sent {b : Bool} : ({ s with frag_sent := b } : Out).Layout :=
  ⟨hs.base_le, hs.header_le, hs.finger_le, hs.room, hs.header_lt⟩

theorem putlong {lp : UInt32} (h : xdrrec_putlong writeit lp s = (true, t)) : Passes s t := by
  rw [xdrrec_putlong] at h
  by_cases hfull : s.out_finger + sizeofLong > s.out_boundry
  · rw [if_pos hfull] at h
    rcases hflush : flush_out writeit false { s with frag_sent := true } with ⟨_ | _, v⟩
    · simp [hflush] at h
    · simp only [hflush, Prod.mk.injEq, true_and] at h
      obtain ⟨hpass, hroom⟩ := (hs.frag_sent (b := true)).flush hflush
      have hcopy := hpass.1.copy (l := htonl lp) (by rwa [length_htonl])
      rw [← h]
      exact Passes.trans hpass hcopy
  · simp only [if_neg hfull, Prod.mk.injEq, true_and] at h
    rw [← h]
    exact hs.copy (by
      rw [length_htonl]
      exact Nat.le_of_not_lt hfull)

theorem putbytes {addr : List UInt8}
    (h : xdrrec_putbytes writeit fuel addr s = some (true, t)) : Passes s t := by
  induction fuel generalizing s addr with
  | zero => exact absurd h (by simp [xdrrec_putbytes])
  | succ fuel ih =>
    rw [xdrrec_putbytes] at h
    by_cases hnil : addr = []
    · rw [if_pos hnil] at h
      simp only [some.injEq, Prod.mk.injEq, true_and] at h
      exact h ▸ hs.passes_self
    · simp only [if_neg hnil] at h
      have hfinger := hs.finger_le
      generalize hcur : min addr.length (s.out_boundry - s.out_finger) = current at h
      have hlen : (addr.take current).length = current := by
        rw [List.length_take]
        omega
      have hcopy := hs.copy (l := addr.take current) (by omega)
      rw [hlen] at hcopy
      by_cases hfull : s.out_finger + current = s.out_boundry
      · simp only [if_pos hfull] at h
        split at h
        · simp at h
        · rename_i v hflush
          obtain ⟨hpass, -⟩ := (hcopy.1.frag_sent (b := true)).flush hflush
          exact hcopy.trans (Passes.trans hpass (ih hpass.1 h))
      · rw [if_neg hfull] at h
        exact hcopy.trans (ih hcopy.1 h)

theorem putAll {ps : List Put}
    (h : Xdrrec.putAll writeit fuel ps s = some (true, t)) : Passes s t := by
  induction ps generalizing s with
  | nil =>
    simp only [Xdrrec.putAll, some.injEq, Prod.mk.injEq, true_and] at h
    exact h ▸ hs.passes_self
  | cons p ps ih =>
    rw [Xdrrec.putAll] at h
    rcases hput : put writeit fuel p s with - | ⟨_ | _, v⟩
    · simp [hput] at h
    · simp [hput] at h
    · simp only [hput] at h
      have hpass : Passes s v := by
        rcases p with lp | addr
        · exact hs.putlong (some.inj hput)
        · exact hs.putbytes hput
      exact hpass.trans (ih hpass.1 h)

theorem keepsHeader : KeepsHeader s := by
  intro writeit fuel ps t hps qs u hqs hsent
  rcases ((hs.putAll hps).1.putAll hqs).2 with hlt | ⟨-, -, hload⟩
  · rw [hsent] at hlt
    exact absurd hlt (lt_irrefl _)
  · exact hload

/-- `xdrrec_endofrecord` reserves the next header. -/
theorem endofrecord {sendnow ok : Bool}
    (h : xdrrec_endofrecord writeit sendnow s = (ok, t)) : t.Layout := by
  rw [xdrrec_endofrecord] at h
  split_ifs at h with hflush
  · rw [flush_out] at h
    split_ifs at h
    all_goals obtain ⟨-, rfl⟩ := Prod.mk.inj h
    · have h3 := hs.room
      refine ⟨le_refl _, le_refl _, ?_, h3, ?_⟩
      · show s.out_base + 4 ≤ s.out_boundry
        omega
      · show s.out_base + 4 < s.out_boundry
        omega
    · exact ⟨hs.base_le, hs.header_le, hs.finger_le, hs.room, hs.header_lt⟩
  · obtain ⟨-, rfl⟩ := Prod.mk.inj h
    have h1 := hs.base_le
    have h2 := hs.header_le
    have hroom : s.out_finger + 4 < s.out_boundry := by
      simp only [not_or, sizeofLong] at hflush
      omega
    exact ⟨by
      show s.out_base ≤ s.out_finger
      omega, le_refl _, le_of_lt hroom, hs.room, hroom⟩

theorem writeRecords {recs : List (List Put × Bool)}
    (h : Xdrrec.writeRecords writeit fuel recs s = some (true, t)) : t.Layout := by
  induction recs generalizing s with
  | nil =>
    simp only [Xdrrec.writeRecords, some.injEq, Prod.mk.injEq, true_and] at h
    exact h ▸ hs
  | cons rec recs ih =>
    obtain ⟨ps, sendnow⟩ := rec
    rw [Xdrrec.writeRecords] at h
    rcases hput : Xdrrec.putAll writeit fuel ps s with - | ⟨_ | _, v⟩
    · simp [hput] at h
    · simp [hput] at h
    · simp only [hput] at h
      rcases hend : xdrrec_endofrecord writeit sendnow v with ⟨_ | _, w⟩
      · simp [hend] at h
      · simp only [hend] at h
        exact ih ((hs.putAll hput).1.endofrecord hend) h

end

end Out.Layout

/-- **Every state of a stream that is written**, from `xdrrec_create` on, has the layout, and what
is put next changes no byte of the header. -/
theorem layout_of_writeRecords {mem_alloc : ℕ → Option ℕ} {mem : ℕ → UInt8} {sendsize : ℕ}
    (h : xdrrec_createOut mem_alloc mem sendsize = some s) {recs : List (List Put × Bool)}
    (hrecs : writeRecords writeit fuel recs s = some (true, t)) {ps : List Put}
    (hps : putAll writeit fuel ps t = some (true, u)) : u.Layout ∧ KeepsHeader u := by
  have hu := (((Out.Layout.created h).writeRecords hrecs).putAll hps).1
  exact ⟨hu, hu.keepsHeader⟩

theorem layout_of_writeRecords_long : ∃ s t u,
    xdrrec_createOut (fun _ => some 1000) (fun _ => 0) 0 = some s ∧
      writeRecords (fun _ _ => true) 1 [([.long 7], false)] s = some (true, t) ∧
        putAll (fun _ _ => true) 1 [.long 8] t = some (true, u) ∧ u.Layout ∧ KeepsHeader u := by
  have hrun : ∃ s t u, xdrrec_createOut (fun _ => some 1000) (fun _ => 0) 0 = some s ∧
      writeRecords (fun _ _ => true) 1 [([.long 7], false)] s = some (true, t) ∧
        putAll (fun _ _ => true) 1 [.long 8] t = some (true, u) := ⟨_, _, _, rfl, rfl, rfl⟩
  obtain ⟨s, t, u, hs, ht, hu⟩ := hrun
  exact ⟨s, t, u, hs, ht, hu, layout_of_writeRecords hs ht hu⟩

/-! ### Puts from inside the header -/

/-- A finger inside the header: the next byte put there changes it. -/
theorem not_keepsHeader (hs : s.Layout) {newpos : ℕ} (hlt : s.frag_header < newpos)
    (hin : newpos < s.frag_header + 4) : ¬ KeepsHeader { s with out_finger := newpos } := by
  intro hkeep
  have hroom := hs.header_lt
  have hnew : (s.mem newpos + 1 : UInt8) ≠ s.mem newpos := by
    intro h
    have hnat := congrArg UInt8.toNat h
    rw [UInt8.toNat_add, UInt8.toNat_one] at hnat
    omega
  have hput : putAll (fun _ _ => true) 2 [.bytes [s.mem newpos + 1]]
      { s with out_finger := newpos } = some (true, { s with
        mem := store s.mem newpos [s.mem newpos + 1], out_finger := newpos + 1 }) := by
    have hcur : min 1 (s.out_boundry - newpos) = 1 := by omega
    simp only [putAll, put, xdrrec_putbytes, List.length_singleton, hcur]
    rw [if_neg (by simp), if_neg (by omega)]
    rfl
  have hload := hkeep (fun _ _ => true) 2 [] _ rfl _ _ hput rfl
  have hbyte := List.map_inj_left.mp hload newpos (List.mem_range'_1.mpr ⟨le_of_lt hlt, hin⟩)
  simp only [store, le_refl, List.length_singleton, Nat.lt_succ_self, and_self, if_true,
    Nat.sub_self] at hbyte
  exact hnew hbyte

/-- **Seeking in a stream that is written** leads into the header exactly when the position
asked for is one of its last three bytes. -/
theorem keepsHeader_setposOut_iff (lseek : List UInt8 → ℤ) (pos : ℤ) (hs : s.Layout)
    (hseek : int32 (xdrrec_getposOut lseek s) ≠ -1) :
    KeepsHeader (xdrrec_setposOut lseek pos s).2 ↔
      ¬ ((s.frag_header : ℤ) < uint32 (s.out_finger - int32 (xdrrec_getposOut lseek s - pos)) ∧
        uint32 (s.out_finger - int32 (xdrrec_getposOut lseek s - pos)) < s.frag_header + 4) := by
  rw [xdrrec_setposOut]
  simp only [if_pos hseek]
  generalize hnew : uint32 (s.out_finger - int32 (xdrrec_getposOut lseek s - pos)) = newpos
  have hroom := hs.header_lt
  by_cases hset : (s.frag_header : ℤ) < newpos ∧ newpos < s.out_boundry
  · rw [if_pos hset]
    constructor
    · rintro hkeep ⟨hlt, hin⟩
      exact not_keepsHeader hs (show s.frag_header < newpos.toNat by lia) (by lia) hkeep
    · intro hout
      refine Out.Layout.keepsHeader ⟨hs.base_le, ?_, ?_, hs.room, hs.header_lt⟩
      · show s.frag_header + 4 ≤ newpos.toNat
        lia
      · show newpos.toNat ≤ s.out_boundry
        lia
  · rw [if_neg hset]
    exact iff_of_true hs.keepsHeader (by lia)

/-! ## Both -/

/-- **`xdrrec_setpos`, exactly.**  A stream that is read goes back to a position of its buffer
and fragment when no byte has been read or skipped since and the fragment has bytes left, and never
otherwise; in a stream that is written puts leave the header alone unless the position is inside
the header. -/
theorem setpos_exact (lseek : List (List UInt8) → ℤ) (lseekOut : List UInt8 → ℤ) :
    (∀ s0 s : In, s0.Layout → s.Layout → Beside s0 s →
      int32 (xdrrec_getposIn lseek s) ≠ -1 →
      ((xdrrec_setposIn lseek (xdrrec_getposIn lseek s0) s).1 = true ∧
          Resumes s0 (xdrrec_setposIn lseek (xdrrec_getposIn lseek s0) s).2 ↔
        s.in_finger = s0.in_finger ∧ 0 < s.fbtbc)) ∧
    ∀ (s : Out) (pos : ℤ), s.Layout → int32 (xdrrec_getposOut lseekOut s) ≠ -1 →
      (KeepsHeader (xdrrec_setposOut lseekOut pos s).2 ↔
        ¬ ((s.frag_header : ℤ) <
            uint32 (s.out_finger - int32 (xdrrec_getposOut lseekOut s - pos)) ∧
          uint32 (s.out_finger - int32 (xdrrec_getposOut lseekOut s - pos)) <
            s.frag_header + 4)) :=
  ⟨fun _ _ hs0 hs h hseek => setposIn_iff lseek hs0 hs h hseek,
    fun _ pos hs hseek => keepsHeader_setposOut_iff lseekOut pos hs hseek⟩

/-- A fragment of twelve bytes, all in the buffer. -/
def started : In where
  incoming := []
  mem i := UInt8.ofNat i
  in_size := 100
  in_base := 1000
  in_finger := 1004
  in_boundry := 1016
  fbtbc := 12
  last_frag := true

/-- The same with four bytes read. -/
def halfway : In := { started with in_finger := 1008, fbtbc := 8 }

/-- The same with all of them read. -/
def finished : In := { started with in_finger := 1016, fbtbc := 0 }

/-- A record of four bytes in the buffer. -/
def written : Out where
  sent := []
  mem i := UInt8.ofNat i
  out_base := 1000
  out_finger := 1008
  out_boundry := 1100
  frag_header := 1000
  frag_sent := false

theorem layout_started : started.Layout := ⟨by decide, by decide, by decide, by decide,
  by decide, by decide, by decide⟩

theorem layout_halfway : halfway.Layout := ⟨by decide, by decide, by decide, by decide,
  by decide, by decide, by decide⟩

theorem layout_written : written.Layout := ⟨by decide, by decide, by decide, by decide,
  by decide⟩

/-- Where the fragment began: the stream comes back only if it has not left. -/
theorem setpos_exact_started :
    ((xdrrec_setposIn (fun _ => 16) (xdrrec_getposIn (fun _ => 16) started) started).1 = true ∧
      Resumes started (xdrrec_setposIn (fun _ => 16) (xdrrec_getposIn (fun _ => 16) started)
        started).2) ∧
    ¬ ((xdrrec_setposIn (fun _ => 16) (xdrrec_getposIn (fun _ => 16) started) halfway).1 = true ∧
      Resumes started (xdrrec_setposIn (fun _ => 16) (xdrrec_getposIn (fun _ => 16) started)
        halfway).2) ∧
    ¬ KeepsHeader (xdrrec_setposOut (fun _ => 0) 1 written).2 := by
  obtain ⟨hread, hwrite⟩ := setpos_exact (fun _ => 16) fun _ => 0
  refine ⟨(hread started started layout_started layout_started ⟨rfl, rfl⟩ (by decide)).mpr
    ⟨rfl, by decide⟩, ?_, ?_⟩
  · rw [hread started halfway layout_started layout_halfway ⟨rfl, rfl⟩ (by decide)]
    decide
  · rw [hwrite written 1 layout_written (by decide)]
    decide

/-- Going back four bytes leaves four bytes of the fragment to read where twelve are; at the end of
the fragment even the position of the stream is refused. -/
theorem setposIn_back :
    (xdrrec_setposIn (fun _ => 16) (xdrrec_getposIn (fun _ => 16) started) halfway).2.in_finger =
      started.in_finger ∧
    (xdrrec_setposIn (fun _ => 16) (xdrrec_getposIn (fun _ => 16) started) halfway).2.fbtbc = 4 ∧
    (xdrrec_setposIn (fun _ => 16) (xdrrec_getposIn (fun _ => 16) finished) finished).1 = false ∧
    ¬ ∀ s0 s : In, s0.Layout → s.Layout → Beside s0 s →
      int32 (xdrrec_getposIn (fun _ => 16) s) ≠ -1 →
      (xdrrec_setposIn (fun _ => 16) (xdrrec_getposIn (fun _ => 16) s0) s).1 = true ∧
        Resumes s0 (xdrrec_setposIn (fun _ => 16) (xdrrec_getposIn (fun _ => 16) s0) s).2 := by
  refine ⟨by decide, by decide, by decide, ?_⟩
  intro h
  have hcount := (h started halfway layout_started layout_halfway ⟨rfl, rfl⟩ (by decide)).2.1
  exact absurd hcount (by decide)

end Xdrrec
