/-
# Options that stay where they are

`ip_dooptions` ends and touches nothing outside the area of the options, and no slot outside its
option, exactly if the options are of the right form: none is of length 0, the bytes that each is
processed by lie in the area, and the last slot of a source route does not end at its length.
-/
import SunOS.Netinet.IpOptions

namespace Ip

open List

variable {h : Host} {size cp optlen : ℕ} {opt : UInt8} {s : Options} {m m' : ℕ → UInt8}

/-! ## Memory -/

variable {i j : ℕ}

theorem setByte_of_ne {b : UInt8} (hne : j ≠ i) : (s.setByte i b).mem j = s.mem j := by
  show Function.update s.mem i b j = s.mem j
  rw [Function.update_of_ne hne]

theorem setByte_same (s : Options) (i : ℕ) (b : UInt8) : (s.setByte i b).mem i = b := by
  show Function.update s.mem i b i = b
  rw [Function.update_self]

/-- A word that is stored changes its four bytes. -/
theorem setWord_of_out {a : in_addr} (hout : j < i ∨ i + 3 < j) :
    (s.setWord i a).mem j = s.mem j := by
  rw [Options.setWord, setByte_of_ne (by omega), setByte_of_ne (by omega),
    setByte_of_ne (by omega), setByte_of_ne (by omega)]

theorem word_congr {i : ℕ} (heq : ∀ j, i ≤ j → m j = m' j) : word m i = word m' i := by
  rw [word, word, heq i (le_refl i), heq (i + 1) (by omega), heq (i + 2) (by omega),
    heq (i + 3) (by omega)]

/-! ## The right form of an option -/

/-- A source route at `cp`: the slots it points to, up to the end of a full one, are inside. -/
def RouteFits (h : Host) (size : ℕ) (m : ℕ → UInt8) (cp optlen : ℕ) : Prop :=
  let ptr := (m (cp + 2)).toNat
  cp + 2 < size ∧ (4 ≤ ptr → ptr + 3 ≤ optlen → ptr + 3 < optlen ∧ cp + ptr + 3 < size ∧
    (h.has (word m (cp + ptr)) → ptr + 7 ≤ optlen → ptr + 7 < optlen ∧ cp + ptr + 7 < size))

/-- It is an error: a strict one leads where there is no way. -/
def RouteErrs (h : Host) (strict : Bool) (m : ℕ → UInt8) (cp optlen : ℕ) : Prop :=
  let ptr := (m (cp + 2)).toNat
  strict ∧ 4 ≤ ptr ∧ ptr + 3 ≤ optlen ∧ (h.has (word m (cp + ptr)) → ptr + 7 ≤ optlen ∧
    h.onnet (word m (cp + ptr + 4)) = false)

/-- Timestamps at `cp`: the slots that will be used are in the area. -/
def StampFits (h : Host) (size : ℕ) (m : ℕ → UInt8) (cp len : ℕ) : Prop :=
  let ptr := (m (cp + 2)).toNat
  let flg := (m (cp + 3)).toNat / 16
  5 ≤ len → cp + 3 < size ∧ (ptr + 4 ≤ len →
    (flg = IPOPT_TS_TSONLY ∨ flg = IPOPT_TS_PRESPEC → cp + ptr + 3 < size) ∧
    (flg = IPOPT_TS_TSANDADDR → ptr + 8 ≤ len → h.ifinet.isSome → cp + ptr + 7 < size))

/-- They are an error: too short, full too often, or without room for the slots of the flag. -/
def StampErrs (h : Host) (m : ℕ → UInt8) (cp len : ℕ) : Prop :=
  let ptr := (m (cp + 2)).toNat
  let flg := (m (cp + 3)).toNat / 16
  len < 5 ∨ (len < ptr + 4 ∧ (m (cp + 3)).toNat % 16 = 15) ∨ ptr + 4 ≤ len ∧
    (flg = IPOPT_TS_TSANDADDR ∧ (len < ptr + 8 ∨ h.ifinet = none) ∨
      flg = IPOPT_TS_PRESPEC ∧ h.has (word m (cp + ptr)) ∧ len < ptr + 8 ∨ IPOPT_TS_PRESPEC < flg)

/-- An option at `cp` that is processed inside. -/
def OptionFits (h : Host) (size : ℕ) (m : ℕ → UInt8) (opt : UInt8) (cp optlen : ℕ) : Prop :=
  if opt = IPOPT_LSRR ∨ opt = IPOPT_SSRR then RouteFits h size m cp optlen
  else if opt = IPOPT_TS then StampFits h size m cp optlen
  else True

/-- An option that is the last because it is an error. -/
def OptionErrs (h : Host) (m : ℕ → UInt8) (opt : UInt8) (cp optlen : ℕ) : Prop :=
  if opt = IPOPT_LSRR ∨ opt = IPOPT_SSRR then RouteErrs h (opt = IPOPT_SSRR) m cp optlen
  else if opt = IPOPT_TS then StampErrs h m cp optlen
  else False

/-- **The options from `cp` on are of the right form.** -/
def Fine (h : Host) (size : ℕ) (m : ℕ → UInt8) (cp : ℕ) : Prop :=
  if size ≤ cp then True
  else if m cp = IPOPT_EOL then True
  else if m cp = IPOPT_NOP then Fine h size m (cp + 1)
  else
    cp + 1 < size ∧ OptionFits h size m (m cp) cp (m (cp + 1)).toNat ∧
      (OptionErrs h m (m cp) cp (m (cp + 1)).toNat ∨
        if _ : (m (cp + 1)).toNat = 0 then False
        else Fine h size m (cp + (m (cp + 1)).toNat))
termination_by size - cp

/-- The form of an option is that of its bytes. -/
theorem optionFits_congr (heq : ∀ j, cp ≤ j → m j = m' j) :
    OptionFits h size m opt cp optlen ↔ OptionFits h size m' opt cp optlen := by
  have h2 := heq (cp + 2) (by omega)
  have h3 := heq (cp + 3) (by omega)
  have hw : ∀ i, cp ≤ i → word m i = word m' i := fun i hi =>
    word_congr fun j hj => heq j (hi.trans hj)
  simp only [OptionFits, RouteFits, StampFits, h2, h3, hw _ (Nat.le_add_right _ _)]

theorem optionErrs_congr (heq : ∀ j, cp ≤ j → m j = m' j) :
    OptionErrs h m opt cp optlen ↔ OptionErrs h m' opt cp optlen := by
  have h2 := heq (cp + 2) (by omega)
  have h3 := heq (cp + 3) (by omega)
  have hw : ∀ i, cp ≤ i → word m i = word m' i := fun i hi =>
    word_congr fun j hj => heq j (hi.trans hj)
  simp only [OptionErrs, RouteErrs, StampErrs, h2, h3, Nat.add_assoc, hw _ (Nat.le_add_right _ _)]

theorem fine_congr (heq : ∀ j, cp ≤ j → m j = m' j) : Fine h size m cp ↔ Fine h size m' cp := by
  induction hn : size - cp using Nat.strong_induction_on generalizing cp with
  | h n ih =>
    rw [Fine.eq_def h size m cp, Fine.eq_def h size m' cp, ← heq cp (le_refl cp),
      ← heq (cp + 1) (by omega)]
    by_cases hend : size ≤ cp
    · simp only [hend, if_true]
    · rw [if_neg hend, if_neg hend]
      by_cases heol : m cp = IPOPT_EOL
      · rw [if_pos heol, if_pos heol]
      rw [if_neg heol, if_neg heol]
      by_cases hnop : m cp = IPOPT_NOP
      · rw [if_pos hnop, if_pos hnop]
        exact ih (size - (cp + 1)) (by omega) (fun j hj => heq j (by omega)) rfl
      rw [if_neg hnop, if_neg hnop, optionFits_congr heq, optionErrs_congr heq]
      by_cases hlen : (m (cp + 1)).toNat = 0
      · rw [dif_pos hlen, dif_pos hlen]
      · rw [dif_neg hlen, dif_neg hlen,
          ih (size - (cp + (m (cp + 1)).toNat)) (by omega) (fun j hj => heq j (by omega)) rfl]

/-! ## One pass -/

/-- What one pass does: what it touches is inside exactly if the option fits; then it changes
nothing behind the option, and it is an error when the option is. -/
structure PassSpec (h : Host) (size cp optlen : ℕ) (opt : UInt8) (s : Options) (r : Pass) :
    Prop where
  inside : (∀ a ∈ r.touched, a.Inside size) ↔ OptionFits h size s.mem opt cp optlen
  frame : OptionFits h size s.mem opt cp optlen → ∀ j, cp + optlen ≤ j → r.s.mem j = s.mem j
  bad : OptionFits h size s.mem opt cp optlen → (r.bad ↔ OptionErrs h s.mem opt cp optlen)
  stuck : optlen = 0 → r.bad = false → r.s = s

theorem forall_byte {i : ℕ} : (∀ a ∈ [Access.byte i], a.Inside size) ↔ i < size := by
  rw [forall_mem_singleton]
  rfl

theorem forall_slot : (∀ a ∈ [Access.byte i] ++ [.slot j cp optlen], a.Inside size) ↔
      i < size ∧ j + 3 < size ∧ cp ≤ j ∧ j + 3 < cp + optlen := by
  rw [forall_mem_append, forall_byte, forall_mem_singleton]
  rfl

/-- The state of a source route whose slot has been exchanged with the destination. -/
theorem exchanged (s : Options) (cp ptr : ℕ) (a t : in_addr) (hptr : 4 ≤ ptr) :
    let s' := ({ s with ip_dst := a }.setWord (cp + ptr) t)
    let s'' := s'.setByte (cp + 2) (s'.mem (cp + 2) + 4)
    s''.mem (cp + 2) = s.mem (cp + 2) + 4 ∧
      ∀ j, cp + ptr + 3 < j → s''.mem j = s.mem j := by
  intro s' s''
  refine ⟨?_, fun j hj => ?_⟩
  · rw [setByte_same, setWord_of_out (by omega)]
  · rw [setByte_of_ne (by omega), setWord_of_out (by omega)]

theorem sourceRoute_spec (h : Host) (size cp optlen : ℕ) (strict : Bool) (s : Options)
    (hlen : optlen ≤ 255) :
    let r := sourceRoute h strict cp optlen s
    ((∀ a ∈ r.touched, a.Inside size) ↔ RouteFits h size s.mem cp optlen) ∧
      (RouteFits h size s.mem cp optlen → (∀ j, cp + optlen ≤ j → r.s.mem j = s.mem j) ∧
        (r.bad ↔ RouteErrs h strict s.mem cp optlen)) ∧
      (optlen = 0 → r.s = s) := by
  intro r
  have hr : r = sourceRoute h strict cp optlen s := rfl
  clear_value r
  unfold sourceRoute at hr
  simp only [] at hr
  simp only [RouteFits, RouteErrs]
  generalize hptr : (s.mem (cp + 2)).toNat = ptr at hr ⊢
  by_cases hout : ptr < 4 ∨ (ptr : ℤ) > optlen - 3
  · -- there is no slot left
    rw [if_pos hout] at hr
    subst hr
    refine ⟨?_, fun _ => ⟨fun _ _ => rfl, ?_⟩, fun _ => rfl⟩
    · rw [forall_byte]
      exact ⟨fun hin => ⟨hin, by lia⟩, fun hin => hin.1⟩
    · constructor
      · intro hbad
        cases hbad
      · rintro ⟨-, h1, h2, -⟩
        lia
  rw [if_neg hout] at hr
  by_cases hhas : h.has (word s.mem (cp + ptr)) = true
  · rw [if_neg (not_not.mpr hhas)] at hr
    obtain ⟨hbyte, hframe⟩ := exchanged s cp ptr (word s.mem (cp + ptr)) s.ip_dst (by lia)
    generalize (({ s with ip_dst := word s.mem (cp + ptr) }.setWord (cp + ptr) s.ip_dst).setByte
      (cp + 2) (({ s with ip_dst := word s.mem (cp + ptr) }.setWord (cp + ptr) s.ip_dst).mem
        (cp + 2) + 4)) = s' at hr hbyte hframe
    have hnext : (s'.mem (cp + 2)).toNat = (ptr + 4) % 256 := by
      rw [hbyte, UInt8.toNat_add, hptr]
      rfl
    rw [hnext] at hr
    by_cases hlast : (((ptr + 4) % 256 : ℕ) : ℤ) > optlen - 3
    · rw [if_pos hlast] at hr
      subst hr
      refine ⟨?_, fun hfits => ⟨fun j hj => hframe j (by lia), ?_⟩, by lia⟩
      · rw [forall_slot]
        lia
      · constructor
        · intro hbad
          cases hbad
        · rintro ⟨-, -, -, hway⟩
          lia
    · rw [if_neg hlast] at hr
      subst hr
      refine ⟨?_, fun hfits => ⟨fun j hj => hframe j (by lia), ?_⟩, by lia⟩
      · rw [forall_mem_append, forall_slot, forall_mem_singleton]
        simp only [Access.Inside, hhas, forall_const]
        lia
      · have hw : word s'.mem (cp + ptr + 4) = word s.mem (cp + ptr + 4) :=
          word_congr fun j hj => hframe j (by lia)
        simp only [hw, Bool.and_eq_true, Bool.not_eq_true', hhas, forall_const]
        constructor
        · exact fun hbad => ⟨hbad.1, by lia, by lia, by lia, hbad.2⟩
        · exact fun herr => ⟨herr.1, herr.2.2.2.2⟩
  · -- the packet is not for the router of this slot
    rw [if_pos hhas] at hr
    subst hr
    rw [Bool.not_eq_true] at hhas
    refine ⟨?_, fun _ => ⟨fun _ _ => rfl, ?_⟩, fun _ => rfl⟩
    · rw [forall_slot, hhas]
      lia
    · rw [hhas]
      exact ⟨fun hbad => ⟨hbad, by lia, by lia⟩, fun herr => herr.1⟩

/-- A timestamp changes its slot and the pointer. -/
theorem stamp_frame {sin j : ℕ} (h : Host) (s : Options) (hbyte : cp + 2 < j)
    (hslot : sin + 3 < j) :
    (stamp h cp sin s).mem j = s.mem j := by
  unfold stamp
  rw [setByte_of_ne (by omega), setWord_of_out (by omega)]

theorem forall_bytes : (∀ a ∈ [Access.byte i, .byte j], a.Inside size) ↔ i < size ∧ j < size := by
  rw [forall_mem_cons, forall_mem_singleton]
  rfl

theorem forall_slots {i j k : ℕ} :
    (∀ a ∈ [Access.byte i, .byte j] ++ [.slot k cp optlen], a.Inside size) ↔
      (i < size ∧ j < size) ∧ k + 3 < size ∧ cp ≤ k ∧ k + 3 < cp + optlen := by
  rw [forall_mem_append, forall_bytes, forall_mem_singleton]
  rfl

theorem timestamp_spec (h : Host) (size cp : ℕ) (s : Options) :
    let len := (s.mem (cp + 1)).toNat
    let r := timestamp h cp s
    ((∀ a ∈ r.touched, a.Inside size) ↔ StampFits h size s.mem cp len) ∧
      (∀ j, cp + len ≤ j → r.s.mem j = s.mem j) ∧ (r.bad ↔ StampErrs h s.mem cp len) ∧
      (len = 0 → r.s = s) := by
  intro len r
  have hlen : (s.mem (cp + 1)).toNat = len := rfl
  have hr : r = timestamp h cp s := rfl
  clear_value r len
  unfold timestamp at hr
  simp only [hlen, IPOPT_TS_TSONLY, IPOPT_TS_TSANDADDR, IPOPT_TS_PRESPEC] at hr
  simp only [StampFits, StampErrs, IPOPT_TS_TSONLY, IPOPT_TS_TSANDADDR, IPOPT_TS_PRESPEC]
  generalize hptr : (s.mem (cp + 2)).toNat = ptr at hr ⊢
  generalize hflg : (s.mem (cp + 3)).toNat / 16 = flg at hr ⊢
  generalize hoflw : (s.mem (cp + 3)).toNat % 16 = oflw at hr ⊢
  by_cases hshort : len < 5
  · rw [if_pos hshort] at hr
    subst hr
    refine ⟨?_, fun _ _ => rfl, ?_, fun _ => rfl⟩
    · exact ⟨fun _ h => by lia, fun _ a ha => absurd ha not_mem_nil⟩
    · exact ⟨fun _ => Or.inl hshort, fun _ => rfl⟩
  rw [if_neg hshort] at hr
  by_cases hfull : (ptr : ℤ) > len - 4
  · -- the option is full, and counts how often
    rw [if_pos hfull] at hr
    subst hr
    refine ⟨?_, fun j hj => setByte_of_ne (by lia), ?_, by lia⟩
    · rw [forall_bytes]
      lia
    · show decide ((oflw + 1) % 16 = 0) = true ↔ _
      rw [decide_eq_true_iff]
      lia
  rw [if_neg hfull] at hr
  by_cases honly : flg = 0
  · rw [if_pos honly] at hr
    subst hr
    refine ⟨?_, fun j hj => stamp_frame h s (by lia) (by lia), ?_, by lia⟩
    · rw [forall_slots]
      lia
    · constructor
      · intro hbad
        cases hbad
      · intro herr
        lia
  rw [if_neg honly] at hr
  by_cases hboth : flg = 1
  · rw [if_pos hboth] at hr
    by_cases hroom : ptr + 8 > len
    · rw [if_pos hroom] at hr
      subst hr
      refine ⟨?_, fun _ _ => rfl, ?_, fun _ => rfl⟩
      · rw [forall_bytes]
        lia
      · exact ⟨fun _ => by lia, fun _ => rfl⟩
    rw [if_neg hroom] at hr
    cases hif : h.ifinet with
    | none =>
      rw [hif] at hr
      subst hr
      refine ⟨?_, fun _ _ => rfl, ?_, fun _ => rfl⟩
      · rw [forall_bytes]
        simp only [Option.isSome_none, Bool.false_eq_true, false_implies, implies_true, and_true]
        lia
      · exact ⟨fun _ => Or.inr (Or.inr ⟨by lia, Or.inl ⟨hboth, Or.inr rfl⟩⟩), fun _ => rfl⟩
    | some ifinet =>
      rw [hif] at hr
      subst hr
      refine ⟨?_, fun j hj => ?_, ?_, by lia⟩
      · rw [forall_mem_append, forall_bytes, forall_mem_cons, forall_mem_singleton]
        simp only [Access.Inside, Option.isSome_some, forall_const]
        lia
      · rw [stamp_frame h _ (by lia) (by lia), setWord_of_out (by lia)]
      · constructor
        · intro hbad
          cases hbad
        · simp only [reduceCtorEq, or_false]
          lia
  rw [if_neg hboth] at hr
  by_cases hspec : flg = 2
  · rw [if_pos hspec] at hr
    by_cases hhas : h.has (word s.mem (cp + ptr)) = true
    · rw [if_neg (not_not.mpr hhas)] at hr
      by_cases hroom : ptr + 8 > len
      · rw [if_pos hroom] at hr
        subst hr
        refine ⟨?_, fun _ _ => rfl, ?_, fun _ => rfl⟩
        · rw [forall_slots]
          lia
        · exact ⟨fun _ => Or.inr (Or.inr ⟨by lia, Or.inr (Or.inl ⟨hspec, hhas, by lia⟩)⟩),
            fun _ => rfl⟩
      · rw [if_neg hroom] at hr
        subst hr
        refine ⟨?_, fun j hj => ?_, ?_, by lia⟩
        · rw [forall_slots]
          lia
        · rw [stamp_frame h _ (by lia) (by lia), setByte_of_ne (by lia)]
        · constructor
          · intro hbad
            cases hbad
          · intro herr
            lia
    · rw [if_pos hhas] at hr
      subst hr
      refine ⟨?_, fun _ _ => rfl, ?_, fun _ => rfl⟩
      · rw [forall_slots]
        lia
      · rw [Bool.not_eq_true] at hhas
        rw [hhas]
        constructor
        · intro hbad
          cases hbad
        · rintro (h1 | h2 | ⟨-, h3 | ⟨-, h4, -⟩ | h5⟩)
          · lia
          · lia
          · exact absurd h3.1 hboth
          · cases h4
          · lia
  · rw [if_neg hspec] at hr
    subst hr
    refine ⟨?_, fun _ _ => rfl, ?_, fun _ => rfl⟩
    · rw [forall_bytes]
      lia
    · exact ⟨fun _ => by lia, fun _ => rfl⟩

/-- **What one pass does.** -/
theorem dooption_spec (h : Host) (size cp : ℕ) (opt : UInt8) (s : Options) :
    PassSpec h size cp (s.mem (cp + 1)).toNat opt s
      (dooption h opt cp (s.mem (cp + 1)).toNat s) := by
  have hroute := fun strict => sourceRoute_spec h size cp (s.mem (cp + 1)).toNat strict s
    (Nat.le_of_lt_succ (s.mem (cp + 1)).toNat_lt)
  rw [dooption]
  by_cases hl : opt = IPOPT_LSRR
  · obtain ⟨hin, hspec, hstuck⟩ := hroute false
    have hfits : OptionFits h size s.mem opt cp (s.mem (cp + 1)).toNat ↔
        RouteFits h size s.mem cp (s.mem (cp + 1)).toNat := by
      rw [OptionFits, if_pos (Or.inl hl)]
    rw [if_pos hl]
    refine ⟨hin.trans hfits.symm, fun hf => (hspec (hfits.mp hf)).1, fun hf => ?_,
      fun h _ => hstuck h⟩
    rw [(hspec (hfits.mp hf)).2, OptionErrs, if_pos (Or.inl hl), hl]
    rfl
  rw [if_neg hl]
  by_cases hs : opt = IPOPT_SSRR
  · obtain ⟨hin, hspec, hstuck⟩ := hroute true
    have hfits : OptionFits h size s.mem opt cp (s.mem (cp + 1)).toNat ↔
        RouteFits h size s.mem cp (s.mem (cp + 1)).toNat := by
      rw [OptionFits, if_pos (Or.inr hs)]
    rw [if_pos hs]
    refine ⟨hin.trans hfits.symm, fun hf => (hspec (hfits.mp hf)).1, fun hf => ?_,
      fun h _ => hstuck h⟩
    rw [(hspec (hfits.mp hf)).2, OptionErrs, if_pos (Or.inr hs), hs]
    rfl
  rw [if_neg hs]
  have hne : ¬ (opt = IPOPT_LSRR ∨ opt = IPOPT_SSRR) := not_or.mpr ⟨hl, hs⟩
  by_cases ht : opt = IPOPT_TS
  · obtain ⟨hin, hframe, hbad, hstuck⟩ := timestamp_spec h size cp s
    rw [if_pos ht]
    refine ⟨?_, fun _ => hframe, fun _ => ?_, fun h _ => hstuck h⟩
    · rw [OptionFits, if_neg hne, if_pos ht]
      exact hin
    · rw [OptionErrs, if_neg hne, if_pos ht]
      exact hbad
  · rw [if_neg ht]
    refine ⟨?_, fun _ _ _ => rfl, fun _ => ?_, fun _ _ => rfl⟩
    · rw [OptionFits, if_neg hne, if_neg ht]
      exact ⟨fun _ => trivial, fun _ a ha => absurd ha not_mem_nil⟩
    · rw [OptionErrs, if_neg hne, if_neg ht]
      exact ⟨fun h => (by cases h), fun h => h.elim⟩

end Ip
