/-
# The walk over the options

The loop of `ip_dooptions` ends with everything it touches inside, exactly if the options are of the
right form.  As long as they are, an option changes nothing behind itself, so that the walk sees the
options that came with the packet.
-/
import SunOS.Netinet.IpOptionsFit

namespace Ip

open List

variable {h : Host} {size cp : ℕ} {s : Options}

/-- What a loop does, given by how far `n` passes get. -/
abbrev Walk := ℕ → List Access × Option (Options × Bool)

/-- **The loop ends, and what it touches is inside.** -/
structure Safe (size : ℕ) (walk : Walk) : Prop where
  ends : ∃ n, (walk n).2.isSome
  inside : ∀ n, ∀ a ∈ (walk n).1, a.Inside size

variable {w rest : Walk} {touched : List Access}

/-- The last pass. -/
theorem safe_last {x : Options × Bool} (hzero : w 0 = ([], none))
    (hpass : ∀ n, w (n + 1) = (touched, some x)) :
    Safe size w ↔ ∀ a ∈ touched, a.Inside size := by
  constructor
  · intro hsafe
    have hin := hsafe.inside 1
    rw [hpass 0] at hin
    exact hin
  · intro hin
    refine ⟨⟨1, by rw [hpass 0]; rfl⟩, fun n => ?_⟩
    cases n with
    | zero =>
      rw [hzero]
      exact fun a ha => absurd ha not_mem_nil
    | succ n =>
      rw [hpass n]
      exact hin

/-- A pass, and those after it. -/
theorem safe_pass (hzero : w 0 = ([], none))
    (hpass : ∀ n, w (n + 1) = (touched ++ (rest n).1, (rest n).2)) :
    Safe size w ↔ (∀ a ∈ touched, a.Inside size) ∧ Safe size rest := by
  constructor
  · intro hsafe
    have hin : ∀ n, ∀ a ∈ touched ++ (rest n).1, a.Inside size := fun n => by
      have hin := hsafe.inside (n + 1)
      rw [hpass n] at hin
      exact hin
    refine ⟨fun a ha => hin 0 a (mem_append_left _ ha), ?_,
      fun n a ha => hin n a (mem_append_right _ ha)⟩
    obtain ⟨n, hn⟩ := hsafe.ends
    cases n with
    | zero =>
      rw [hzero] at hn
      cases hn
    | succ n =>
      rw [hpass n] at hn
      exact ⟨n, hn⟩
  · rintro ⟨hin, ⟨n, hn⟩, hrest⟩
    refine ⟨⟨n + 1, by rw [hpass n]; exact hn⟩, fun n => ?_⟩
    cases n with
    | zero =>
      rw [hzero]
      exact fun a ha => absurd ha not_mem_nil
    | succ n =>
      rw [hpass n]
      exact fun a ha => (List.mem_append.mp ha).elim (hin a) (hrest n a)

/-- A loop whose next pass is the same again never ends. -/
theorem never_ends (hzero : w 0 = ([], none)) (hpass : ∀ n, (w (n + 1)).2 = (w n).2) (n : ℕ) :
    (w n).2 = none := by
  induction n with
  | zero => rw [hzero]
  | succ n ih => rw [hpass, ih]

/-! ## The equations of the loop -/

variable {cnt : ℤ}

theorem optloop_end (n : ℕ) (hcnt : cnt ≤ 0) :
    optloop h (n + 1) s cp cnt = ([], some (s, false)) := by
  rw [optloop, if_neg (by omega)]

theorem optloop_eol (n : ℕ) (hcnt : 0 < cnt) (heol : s.mem cp = IPOPT_EOL) :
    optloop h (n + 1) s cp cnt = ([.byte cp], some (s, false)) := by
  rw [optloop, if_pos hcnt]
  exact if_pos heol

theorem optloop_nop (n : ℕ) (hcnt : 0 < cnt) (hnop : s.mem cp = IPOPT_NOP) :
    optloop h (n + 1) s cp cnt =
      ([.byte cp] ++ (optloop h n s (cp + 1) (cnt - 1)).1,
        (optloop h n s (cp + 1) (cnt - 1)).2) := by
  have hnone : dooption h IPOPT_NOP cp 1 s = ⟨s, [], false⟩ := rfl
  rw [optloop, if_pos hcnt]
  simp only [hnop, decide_true, if_true, hnone]
  rfl

/-- An option with a length. -/
theorem optloop_option (n : ℕ) {r : Pass} (hcnt : 0 < cnt) (heol : s.mem cp ≠ IPOPT_EOL)
    (hnop : s.mem cp ≠ IPOPT_NOP) (hr : dooption h (s.mem cp) cp (s.mem (cp + 1)).toNat s = r) :
    optloop h (n + 1) s cp cnt =
      if r.bad then ([.byte cp, .byte (cp + 1)] ++ r.touched, some (r.s, true))
      else
        ([.byte cp, .byte (cp + 1)] ++ r.touched ++
            (optloop h n r.s (cp + (s.mem (cp + 1)).toNat) (cnt - (s.mem (cp + 1)).toNat)).1,
          (optloop h n r.s (cp + (s.mem (cp + 1)).toNat) (cnt - (s.mem (cp + 1)).toNat)).2) := by
  subst hr
  rw [optloop, if_pos hcnt]
  simp only [heol, hnop, decide_false, if_false, Bool.false_eq_true]

/-! ## The whole walk -/

/-- **The walk from `cp` on.** -/
theorem safe_iff_fine (h : Host) (size cp : ℕ) (s : Options) :
    Safe size (fun n => optloop h n s cp (size - cp)) ↔ Fine h size s.mem cp := by
  induction hn : size - cp using Nat.strong_induction_on generalizing cp s with
  | h n ih =>
    rw [Fine.eq_def]
    by_cases hend : size ≤ cp
    · rw [if_pos hend, safe_last (w := fun n => optloop h n s cp (size - cp)) rfl
        fun n => optloop_end n (by lia)]
      exact ⟨fun _ => trivial, fun _ a ha => absurd ha not_mem_nil⟩
    have hcnt : (0 : ℤ) < size - cp := by lia
    rw [if_neg hend]
    by_cases heol : s.mem cp = IPOPT_EOL
    · rw [if_pos heol, safe_last (w := fun n => optloop h n s cp (size - cp)) rfl
        fun n => optloop_eol n hcnt heol, forall_byte]
      exact ⟨fun _ => trivial, fun _ => by lia⟩
    rw [if_neg heol]
    by_cases hnop : s.mem cp = IPOPT_NOP
    · have hrest := ih (size - (cp + 1)) (by lia) (cp + 1) s rfl
      rw [if_pos hnop, ← hrest, safe_pass (w := fun n => optloop h n s cp (size - cp)) rfl
        (fun n => optloop_nop n hcnt hnop), forall_byte]
      have hcast : (size : ℤ) - cp - 1 = size - (cp + 1 : ℕ) := by
        push_cast
        ring
      rw [hcast]
      exact ⟨fun hsafe => hsafe.2, fun hsafe => ⟨by lia, hsafe⟩⟩
    rw [if_neg hnop]
    have hspec := dooption_spec h size cp (s.mem cp) s
    generalize hr : dooption h (s.mem cp) cp (s.mem (cp + 1)).toNat s = r at hspec
    have hstep := fun n => optloop_option n hcnt heol hnop hr
    have hin : (∀ a ∈ [Access.byte cp, .byte (cp + 1)] ++ r.touched, a.Inside size) ↔
        cp + 1 < size ∧ OptionFits h size s.mem (s.mem cp) cp (s.mem (cp + 1)).toNat := by
      rw [forall_mem_append, forall_bytes, hspec.inside]
      exact and_congr_left' ⟨fun hb => hb.2, fun hb => ⟨by lia, hb⟩⟩
    by_cases hbad : r.bad = true
    · -- the packet is refused
      rw [safe_last (w := fun n => optloop h n s cp (size - cp)) rfl
        (fun n => (hstep n).trans (if_pos hbad)), hin]
      constructor
      · rintro ⟨hlen, hfits⟩
        exact ⟨hlen, hfits, Or.inl ((hspec.bad hfits).mp hbad)⟩
      · exact fun hfine => ⟨hfine.1, hfine.2.1⟩
    have herrs : OptionFits h size s.mem (s.mem cp) cp (s.mem (cp + 1)).toNat →
        ¬ OptionErrs h s.mem (s.mem cp) cp (s.mem (cp + 1)).toNat :=
      fun hfits herr => hbad ((hspec.bad hfits).mpr herr)
    by_cases hlen : (s.mem (cp + 1)).toNat = 0
    · -- the next pass is the same again
      rw [dif_pos hlen]
      constructor
      · rintro ⟨⟨n, hn⟩, -⟩
        have hsame := hspec.stuck hlen (Bool.not_eq_true _ ▸ hbad)
        rw [never_ends (w := fun n => optloop h n s cp (size - cp)) rfl fun n => ?_] at hn
        · cases hn
        · show (optloop h (n + 1) s cp (size - cp)).2 = (optloop h n s cp (size - cp)).2
          rw [hstep n, if_neg hbad, hsame, hlen, Nat.cast_zero, sub_zero]
          rfl
      · rintro ⟨-, hfits, herr | hno⟩
        · exact absurd herr (herrs hfits)
        · exact hno.elim
    · have hcast : (size : ℤ) - cp - (s.mem (cp + 1)).toNat =
          size - (cp + (s.mem (cp + 1)).toNat : ℕ) := by
        push_cast
        ring
      have hrest := ih (size - (cp + (s.mem (cp + 1)).toNat)) (by lia) _ r.s rfl
      rw [dif_neg hlen, safe_pass (w := fun n => optloop h n s cp (size - cp)) rfl
        (fun n => (hstep n).trans (if_neg hbad)), hin, hcast, hrest]
      constructor
      · rintro ⟨⟨hlt, hfits⟩, hfine⟩
        exact ⟨hlt, hfits, Or.inr ((fine_congr (hspec.frame hfits)).mp hfine)⟩
      · rintro ⟨hlt, hfits, herr | hfine⟩
        · exact absurd herr (herrs hfits)
        · exact ⟨⟨hlt, hfits⟩, (fine_congr (hspec.frame hfits)).mpr hfine⟩

/-- **`ip_dooptions` ends and stays inside exactly if the options are of the right form**, for any
bytes and any length of the header. -/
theorem dooptions_safe_iff (h : Host) (hl : ℕ) (s : Options) :
    Safe (hl * 4 - 20) (ip_dooptions h hl s) ↔ Fine h (hl * 4 - 20) s.mem 0 := by
  by_cases hhl : 5 ≤ hl
  · have hcnt : ((hl * 4 - 20 : ℕ) : ℤ) = hl * 4 - 20 := by omega
    rw [← safe_iff_fine, hcnt, Nat.cast_zero, sub_zero]
    rfl
  · rw [safe_last (w := ip_dooptions h hl s) rfl fun n => optloop_end n (by omega), Fine.eq_def,
      if_pos (by omega)]
    exact ⟨fun _ => trivial, fun _ a ha => absurd ha not_mem_nil⟩

/-! ## An option without a length -/

/-- A machine without interfaces. -/
def lonely : Host := ⟨[], none, fun _ => ⟨0, 0, 0, 0⟩⟩

/-- An option of the kind 7 and of length 0. -/
def lengthless : Options := ⟨fun i => if i = 0 then 7 else 0, ⟨0, 0, 0, 0⟩, 0⟩

/-- The loop does not get past it. -/
theorem not_safe_lengthless : ¬ Safe (6 * 4 - 20) (ip_dooptions lonely 6 lengthless) := by
  rintro ⟨⟨n, hn⟩, -⟩
  rw [never_ends (w := ip_dooptions lonely 6 lengthless) rfl fun _ => rfl] at hn
  cases hn

end Ip
