/-
# Runs of a socket buffer

The counts are true as long as they fit in their 16 bits.  `sbappend` is called with no
more bytes than there is space for, which bounds the one count; the other it does not.
And a queue of mbufs without bytes is one `sbflush` does not flush.
-/
import SunOS.Kern.Sockbuf
import SunOS.Lib.Run

namespace Sockbuf

open List (append_assoc append_eq_nil_iff append_nil concat_eq_append cons_ne_nil dropLast_concat
  drop_append drop_append_of_le_length drop_eq_nil_iff drop_length drop_of_length_le
  eq_nil_or_concat length_append length_drop map_cons mem_singleton nil_append sum_cons)

/-- The bytes of a chain. -/
def bytes (ms : List mbuf) : List UInt8 := (ms.map mbuf.dat).flatten

/-- The memory an mbuf takes. -/
def mbuf.charge (m : mbuf) : ℤ := if m.m_off > MMAXOFF then MSIZE + MCLBYTES else MSIZE

/-- The memory a chain takes. -/
def charges (ms : List mbuf) : ℤ := (ms.map mbuf.charge).sum

/-- The data lie within the mbuf, or within a cluster. -/
def mbuf.Formed (m : mbuf) : Prop :=
  m.m_off + m.dat.length ≤ MMAXOFF ∨
    MMAXOFF < m.m_off ∧ m.m_off + m.dat.length ≤ 4294967296

instance (m : mbuf) : Decidable m.Formed := inferInstanceAs (Decidable (_ ∨ _))

/-- The memory of the mbufs of a chain that are put behind the mbuf `n`, and neither
freed nor copied. -/
def added : Option mbuf → List mbuf → ℤ
  | _, [] => 0
  | n, m :: ms =>
    if m.blank then added n ms
    else
      match n with
      | none => m.charge + added (some m) ms
      | some n =>
        if compacts n m then added (some { n with dat := n.dat ++ m.dat }) ms
        else m.charge + added (some m) ms

@[simp] theorem bytes_nil : bytes [] = [] := rfl

@[simp] theorem bytes_cons (m : mbuf) (ms : List mbuf) : bytes (m :: ms) = m.dat ++ bytes ms := rfl

@[simp] theorem bytes_append (ms ns : List mbuf) : bytes (ms ++ ns) = bytes ms ++ bytes ns := by
  simp [bytes]

@[simp] theorem charges_nil : charges [] = 0 := rfl

@[simp] theorem charges_cons (m : mbuf) (ms : List mbuf) :
    charges (m :: ms) = m.charge + charges ms := by
  simp [charges]

@[simp] theorem charges_append (ms ns : List mbuf) :
    charges (ms ++ ns) = charges ms + charges ns := by
  simp [charges]

theorem charge_pos (m : mbuf) : 0 < m.charge ∧ m.charge ≤ 1152 := by
  rw [mbuf.charge, MSIZE, MCLBYTES]
  by_cases h : m.m_off > MMAXOFF
  · rw [if_pos h]
    decide
  · rw [if_neg h]
    decide

theorem charges_nonneg (ms : List mbuf) : 0 ≤ charges ms := by
  induction ms with
  | nil => exact le_refl _
  | cons m ms ih =>
    have := charge_pos m
    rw [charges_cons]
    omega

section Added

variable {n : Option mbuf} {m c : mbuf} {ms : List mbuf}

theorem added_blank (h : m.blank) : added n (m :: ms) = added n ms := by
  rw [added.eq_def]
  exact if_pos h

theorem added_none (h : ¬ m.blank) : added none (m :: ms) = m.charge + added (some m) ms := by
  rw [added.eq_def]
  exact if_neg h

theorem added_compacts (h : ¬ m.blank) (hc : compacts c m) :
    added (some c) (m :: ms) = added (some { c with dat := c.dat ++ m.dat }) ms := by
  rw [added.eq_def]
  exact (if_neg h).trans (if_pos hc)

theorem added_some (h : ¬ m.blank) (hc : ¬ compacts c m) :
    added (some c) (m :: ms) = m.charge + added (some m) ms := by
  rw [added.eq_def]
  exact (if_neg h).trans (if_neg hc)

theorem added_nonneg (n : Option mbuf) (ms : List mbuf) : 0 ≤ added n ms := by
  induction ms generalizing n with
  | nil => exact le_refl _
  | cons m ms ih =>
    have hpos := charge_pos m
    have hrest := ih (some m)
    by_cases hb : m.blank
    · rw [added_blank hb]
      exact ih n
    · cases n with
      | none =>
        rw [added_none hb]
        omega
      | some n =>
        by_cases hc : compacts n m
        · rw [added_compacts hb hc]
          exact ih _
        · rw [added_some hb hc]
          omega

end Added

/-- The counts of a sockbuf are those of its mbufs. -/
structure Counted (sb : sockbuf) : Prop where
  cc : sb.sb_cc = (bytes sb.sb_mb).length
  mbcnt : sb.sb_mbcnt = charges sb.sb_mb
  cc_fits : sb.sb_cc ≤ 32767
  mbcnt_fits : sb.sb_mbcnt ≤ 32767
  formed : ∀ m ∈ sb.sb_mb, m.Formed

/-- What no operation on the queue changes. -/
def Same (sb sb' : sockbuf) : Prop :=
  sb'.sb_hiwat = sb.sb_hiwat ∧ sb'.sb_mbmax = sb.sb_mbmax ∧ sb'.sb_flags = sb.sb_flags

variable {sb : sockbuf} {m n : mbuf} {ms : List mbuf}

theorem sballoc_cc (h : Counted sb) (hcc : sb.sb_cc + m.m_len ≤ 32767) :
    (sballoc sb m).sb_cc = sb.sb_cc + m.m_len := by
  have hpos := h.cc
  have hlen : m.m_len = m.dat.length := rfl
  exact int16_of_fits (by omega)

theorem sballoc_mbcnt (h : Counted sb) (hmbcnt : sb.sb_mbcnt + m.charge ≤ 32767) :
    (sballoc sb m).sb_mbcnt = sb.sb_mbcnt + m.charge := by
  have h1 := h.mbcnt
  have h2 := charges_nonneg sb.sb_mb
  rw [mbuf.charge, MSIZE, MCLBYTES] at hmbcnt ⊢
  rw [sballoc, MSIZE, MCLBYTES]
  by_cases hoff : m.m_off > MMAXOFF
  · rw [if_pos hoff] at hmbcnt ⊢
    have hfits : int16 (sb.sb_mbcnt + 128) = sb.sb_mbcnt + 128 := int16_of_fits (by omega)
    simp only [if_pos hoff, hfits]
    rw [int16_of_fits (by omega)]
    ring
  · rw [if_neg hoff] at hmbcnt ⊢
    simp only [if_neg hoff]
    exact int16_of_fits (by omega)

/-- The mbuf `m` joins the queue, whose last mbuf it does not fit behind. -/
theorem Counted.queue (h : Counted sb) (hm : m.Formed) (hcc : sb.sb_cc + m.m_len ≤ 32767)
    (hmbcnt : sb.sb_mbcnt + m.charge ≤ 32767) :
    Counted { sballoc sb m with sb_mb := sb.sb_mb ++ [m] } := by
  have h1 := sballoc_cc h hcc
  have h2 := sballoc_mbcnt h hmbcnt
  refine ⟨?_, ?_, ?_, ?_, ?_⟩
  · show (sballoc sb m).sb_cc = ((bytes (sb.sb_mb ++ [m])).length : ℤ)
    rw [h1, h.cc, bytes_append, length_append, bytes_cons, bytes_nil, append_nil, mbuf.m_len]
    rfl
  · show (sballoc sb m).sb_mbcnt = charges (sb.sb_mb ++ [m])
    rw [h2, h.mbcnt, charges_append, charges_cons, charges_nil, add_zero]
  · exact h1.trans_le hcc
  · exact h2.trans_le hmbcnt
  · intro c hc
    rcases List.mem_append.mp hc with hc | hc
    · exact h.formed c hc
    · rw [List.mem_singleton.mp hc]
      exact hm

/-- The bytes of `m` are copied behind those of the last mbuf. -/
theorem Counted.compact {l : List mbuf} (h : Counted sb) (hl : sb.sb_mb = l ++ [n])
    (hc : compacts n m) (hcc : sb.sb_cc + m.m_len ≤ 32767) :
    Counted { sb with
      sb_cc := int16 (sb.sb_cc + m.m_len)
      sb_mb := sb.sb_mb.dropLast ++ [{ n with dat := n.dat ++ m.dat }] } := by
  rw [compacts, decide_eq_true_iff] at hc
  have hpos := h.cc
  have hfits : int16 (sb.sb_cc + m.m_len) = sb.sb_cc + m.m_len := by
    rw [mbuf.m_len] at hcc ⊢
    exact int16_of_fits (by omega)
  rw [hl, dropLast_concat]
  refine ⟨?_, ?_, ?_, h.mbcnt_fits, ?_⟩
  · show int16 (sb.sb_cc + m.m_len) = _
    rw [hfits, h.cc, hl, mbuf.m_len]
    simp
    ring
  · show sb.sb_mbcnt = _
    rw [h.mbcnt, hl, charges_append, charges_append]
    rfl
  · show int16 (sb.sb_cc + m.m_len) ≤ 32767
    rw [hfits]
    exact hcc
  · intro c hcmem
    rcases List.mem_append.mp hcmem with hcmem | hcmem
    · exact h.formed c (by rw [hl]; simp [hcmem])
    · rw [List.mem_singleton.mp hcmem]
      left
      show n.m_off + (n.dat ++ m.dat).length ≤ MMAXOFF
      rw [length_append]
      omega

/-- **`sbappend`** appends the bytes of the chain and counts them. -/
theorem sbappend_spec (ms : List mbuf) (h : Counted sb) (hms : ∀ m ∈ ms, m.Formed)
    (hcc : sb.sb_cc + (bytes ms).length ≤ 32767)
    (hmbcnt : sb.sb_mbcnt + added sb.sb_mb.getLast? ms ≤ 32767) :
    Counted (sbappend sb ms) ∧ bytes (sbappend sb ms).sb_mb = bytes sb.sb_mb ++ bytes ms ∧
      Same sb (sbappend sb ms) ∧
      (sb.sb_mb = [] → (∀ m ∈ ms, m.blank) → (sbappend sb ms).sb_mb = []) := by
  induction ms generalizing sb with
  | nil => exact ⟨h, by simp [sbappend], ⟨rfl, rfl, rfl⟩, fun hnil _ => hnil⟩
  | cons m ms ih =>
    have hm := hms m (by simp)
    have hms' : ∀ c ∈ ms, c.Formed := fun c hc => hms c (by simp [hc])
    rw [bytes_cons, length_append] at hcc
    have hlen : m.m_len = m.dat.length := rfl
    rw [sbappend]
    by_cases hb : m.blank
    · -- it has no bytes
      have hdat : m.dat = [] := (of_decide_eq_true hb).1
      rw [added_blank hb] at hmbcnt
      rw [if_pos hb, bytes_cons, hdat, nil_append]
      obtain ⟨h1, h2, h3, h4⟩ := ih h hms' (by rw [hdat] at hcc; simpa using hcc) hmbcnt
      exact ⟨h1, h2, h3, fun hnil hall => h4 hnil fun c hc => hall c (by simp [hc])⟩
    · rw [if_neg hb, bytes_cons, ← append_assoc]
      have hrest : ∀ sb' : sockbuf, Counted sb' → bytes sb'.sb_mb = bytes sb.sb_mb ++ m.dat →
          Same sb sb' → sb'.sb_mbcnt + added sb'.sb_mb.getLast? ms ≤ 32767 →
          Counted (sbappend sb' ms) ∧
            bytes (sbappend sb' ms).sb_mb = bytes sb.sb_mb ++ m.dat ++ bytes ms ∧
            Same sb (sbappend sb' ms) ∧
            (sb.sb_mb = [] → (∀ c ∈ m :: ms, c.blank) → (sbappend sb' ms).sb_mb = []) := by
        intro sb' h' hbytes hsame hfits
        have hcc' : sb'.sb_cc + (bytes ms).length ≤ 32767 := by
          rw [h'.cc, hbytes, length_append]
          rw [h.cc] at hcc
          omega
        obtain ⟨h1, h2, h3, -⟩ := ih h' hms' hcc' hfits
        refine ⟨h1, hbytes ▸ h2, ?_, fun _ hall => absurd (hall m (by simp)) hb⟩
        exact ⟨h3.1.trans hsame.1, h3.2.1.trans hsame.2.1, h3.2.2.trans hsame.2.2⟩
      have hqueue : sb.sb_mbcnt + m.charge + added (some m) ms ≤ 32767 →
          Counted { sballoc sb m with sb_mb := sb.sb_mb ++ [m] } ∧
            (sballoc sb m).sb_mbcnt + added (sb.sb_mb ++ [m]).getLast? ms ≤ 32767 := by
        intro hfits
        have hpos := added_nonneg (some m) ms
        refine ⟨h.queue hm (by omega) (by omega), ?_⟩
        rw [sballoc_mbcnt h (by omega), List.getLast?_append, List.getLast?_singleton]
        exact hfits
      rcases eq_nil_or_concat sb.sb_mb with hnil | ⟨l, n, hl⟩
      · rw [hnil, List.getLast?_nil, added_none hb] at hmbcnt
        obtain ⟨h', hfits⟩ := hqueue (by omega)
        rw [hnil] at h' hfits
        rw [hnil]
        rw [hnil] at hrest
        exact hrest _ h' (by simp) ⟨rfl, rfl, rfl⟩ hfits
      · rw [concat_eq_append] at hl
        have hlast : sb.sb_mb.getLast? = some n := by
          rw [hl, List.getLast?_append, List.getLast?_singleton]
          rfl
        rw [hlast] at hmbcnt ⊢
        simp only []
        by_cases hc : compacts n m
        · rw [added_compacts hb hc] at hmbcnt
          rw [if_pos hc]
          refine hrest _ (h.compact hl hc (by omega)) ?_ ⟨rfl, rfl, rfl⟩ ?_
          · show bytes (sb.sb_mb.dropLast ++ [{ n with dat := n.dat ++ m.dat }]) = _
            rw [hl, dropLast_concat]
            simp
          · show sb.sb_mbcnt +
              added (sb.sb_mb.dropLast ++ [{ n with dat := n.dat ++ m.dat }]).getLast? ms ≤ 32767
            rw [List.getLast?_append, List.getLast?_singleton]
            exact hmbcnt
        · rw [added_some hb hc] at hmbcnt
          obtain ⟨h', hfits⟩ := hqueue (by omega)
          rw [if_neg hc]
          refine hrest _ h' ?_ ⟨rfl, rfl, rfl⟩ hfits
          show bytes (sb.sb_mb ++ [m]) = _
          simp

/-! ## sbdrop and sbflush -/

/-- The first mbuf is freed. -/
theorem Counted.free (h : Counted { sb with sb_mb := m :: ms }) :
    Counted { sbfree sb m with sb_mb := ms } := by
  have hlen : m.m_len = m.dat.length := rfl
  have hcc : sb.sb_cc = ((bytes (m :: ms)).length : ℤ) := h.cc
  have hmbcnt : sb.sb_mbcnt = charges (m :: ms) := h.mbcnt
  have hfits1 : sb.sb_cc ≤ 32767 := h.cc_fits
  have hfits2 : sb.sb_mbcnt ≤ 32767 := h.mbcnt_fits
  have hpos := charges_nonneg ms
  rw [bytes_cons, length_append] at hcc
  rw [charges_cons] at hmbcnt
  have hcc' : (sbfree sb m).sb_cc = ((bytes ms).length : ℤ) := by
    show int16 (sb.sb_cc - m.m_len) = _
    rw [int16_of_fits (by lia)]
    lia
  have hmbcnt' : (sbfree sb m).sb_mbcnt = charges ms := by
    rw [mbuf.charge, MSIZE, MCLBYTES] at hmbcnt
    rw [sbfree, MSIZE, MCLBYTES]
    by_cases hoff : m.m_off > MMAXOFF
    · rw [if_pos hoff] at hmbcnt
      have hfits : int16 (sb.sb_mbcnt - 128) = sb.sb_mbcnt - 128 := int16_of_fits (by lia)
      simp only [if_pos hoff, hfits]
      rw [int16_of_fits (by lia)]
      lia
    · rw [if_neg hoff] at hmbcnt
      simp only [if_neg hoff]
      rw [int16_of_fits (by lia)]
      lia
  refine ⟨hcc', hmbcnt', ?_, ?_, fun c hc => h.formed c (by simp [hc])⟩
  · rw [hcc']
    lia
  · have hpos' := charge_pos m
    rw [hmbcnt']
    lia

/-- `len` bytes are taken off the front of the first mbuf. -/
theorem Counted.part (h : Counted { sb with sb_mb := m :: ms }) {len : ℕ}
    (hlen : len < m.dat.length) :
    Counted { sb with
      sb_cc := int16 (sb.sb_cc - len)
      sb_mb := { m with dat := m.dat.drop len, m_off := (m.m_off + len) % 4294967296 } :: ms } := by
  have hcc : sb.sb_cc = ((bytes (m :: ms)).length : ℤ) := h.cc
  have hfits : sb.sb_cc ≤ 32767 := h.cc_fits
  have hformed := h.formed m (by simp)
  rw [bytes_cons, length_append] at hcc
  rw [mbuf.Formed, MMAXOFF] at hformed
  rw [Nat.mod_eq_of_lt (by lia)]
  refine ⟨?_, ?_, ?_, h.mbcnt_fits, ?_⟩
  · show int16 (sb.sb_cc - len) = ((m.dat.drop len ++ bytes ms).length : ℤ)
    rw [length_append, length_drop, int16_of_fits (by lia)]
    lia
  · have hmbcnt : sb.sb_mbcnt = charges (m :: ms) := h.mbcnt
    show sb.sb_mbcnt = charges ({ m with m_off := _, dat := _ } :: ms)
    rw [hmbcnt, charges_cons, charges_cons]
    congr 1
    rw [mbuf.charge, mbuf.charge, MMAXOFF]
    by_cases hoff : m.m_off > 124
    · rw [if_pos hoff, if_pos (show m.m_off + len > 124 by lia)]
    · rw [if_neg hoff, if_neg (show ¬ m.m_off + len > 124 by lia)]
  · show int16 (sb.sb_cc - len) ≤ 32767
    rw [int16_of_fits (by lia)]
    lia
  · intro c hc
    rcases List.mem_cons.mp hc with rfl | hc
    · rw [mbuf.Formed, MMAXOFF]
      show m.m_off + len + (m.dat.drop len).length ≤ 124 ∨
        124 < m.m_off + len ∧ m.m_off + len + (m.dat.drop len).length ≤ 4294967296
      rw [length_drop]
      lia
    · exact h.formed c (by simp [hc])

/-- **`sbdrop`** drops the first bytes, and keeps no mbuf without bytes in front. -/
theorem sbdropLoop_spec (ms : List mbuf) (len : ℤ) (h : Counted { sb with sb_mb := ms })
    (hlen : 0 ≤ len) (hle : len ≤ (bytes ms).length) :
    ∃ sb', sbdropLoop sb ms len = some sb' ∧ Counted sb' ∧
      bytes sb'.sb_mb = (bytes ms).drop len.toNat ∧ Same sb sb' ∧
      (bytes sb'.sb_mb = [] → sb'.sb_mb = []) := by
  induction ms generalizing sb len with
  | nil =>
    rw [sbdropLoop, if_neg (by simpa using hle)]
    exact ⟨_, rfl, h, by simp, ⟨rfl, rfl, rfl⟩, fun _ => rfl⟩
  | cons m ms ih =>
    have hm : m.m_len = m.dat.length := rfl
    rw [bytes_cons, length_append] at hle
    rw [sbdropLoop]
    by_cases hgo : len > 0 ∨ m.m_len = 0
    · rw [if_pos hgo]
      by_cases hpart : m.m_len > len
      · -- the last bytes to drop are in this mbuf
        have hdrop : (m.dat.drop len.toNat ++ bytes ms) = (bytes (m :: ms)).drop len.toNat := by
          rw [bytes_cons, drop_append_of_le_length (by lia)]
        rw [if_pos hpart]
        refine ⟨_, rfl, ?_, hdrop, ⟨rfl, rfl, rfl⟩, fun hnil => ?_⟩
        · have hpart' := h.part (show len.toNat < m.dat.length by lia)
          rwa [Int.toNat_of_nonneg hlen] at hpart'
        · have hnil' : m.dat.drop len.toNat = [] := (List.append_eq_nil_iff.mp hnil).1
          rw [drop_eq_nil_iff] at hnil'
          lia
      · rw [if_neg hpart]
        obtain ⟨sb', hrun, h1, h2, h3, h4⟩ := ih (len - m.m_len) h.free (by lia) (by lia)
        refine ⟨sb', hrun, h1, ?_, h3, h4⟩
        have hall : m.dat.drop len.toNat = [] := drop_of_length_le (by lia)
        rw [h2, bytes_cons, drop_append, hall, nil_append]
        congr 1
        lia
    · rw [if_neg hgo]
      have hzero : len = 0 := by lia
      refine ⟨_, rfl, h, by rw [hzero]; rfl, ⟨rfl, rfl, rfl⟩, fun hnil => ?_⟩
      have hnil' : m.dat = [] := (List.append_eq_nil_iff.mp hnil).1
      exact absurd (by rw [hm, hnil']; rfl) fun h => hgo (Or.inr h)

/-- **`sbflush` does not panic** when there are mbufs only with bytes. -/
theorem sbflush_isSome (h : Counted sb) (hnil : bytes sb.sb_mb = [] → sb.sb_mb = [])
    (hflags : sb.sb_flags &&& SB_LOCK = 0) : (sbflush sb).isSome := by
  have hempty : ∀ sb' : sockbuf, Counted sb' → sb'.sb_mb = [] →
      ¬ (sb'.sb_cc ≠ 0 ∨ sb'.sb_mbcnt ≠ 0 ∨ sb'.sb_mb ≠ []) := by
    rintro sb' h' hmb (hne | hne | hne)
    · exact hne (by rw [h'.cc, hmb]; rfl)
    · exact hne (by rw [h'.mbcnt, hmb]; rfl)
    · exact hne hmb
  rw [sbflush, if_neg (not_not.mpr hflags)]
  by_cases hcc : sb.sb_cc = 0
  · have hbytes : bytes sb.sb_mb = [] := by
      have hlen := h.cc
      exact List.length_eq_zero_iff.mp (by omega)
    rw [if_neg (not_not.mpr hcc)]
    simp only []
    rw [if_neg (hempty sb h (hnil hbytes))]
    rfl
  · obtain ⟨sb', hrun, h', hbytes, -, hnil'⟩ :=
      sbdropLoop_spec sb.sb_mb sb.sb_cc h (by rw [h.cc]; omega) (by rw [h.cc])
    have hdrop : bytes sb'.sb_mb = [] := by
      rw [hbytes, h.cc, Int.toNat_natCast, drop_length]
    rw [if_pos hcc, sbdrop, hrun]
    simp only []
    rw [if_neg (hempty sb' h' (hnil' hdrop))]
    rfl

/-! ## Runs -/

/-- The chain that `sbappendaddr` appends. -/
def addrChain (asa : Vector UInt8 sizeofSockaddr) (m0 : List mbuf) (rights : Option mbuf) :
    List mbuf :=
  ⟨MMINOFF, true, asa.toList⟩ ::
    ((rights.map fun r => { r with m_act := true }).toList ++ endRecord m0)

/-- What `sbappendaddr` needs to append. -/
def Takes (sb : sockbuf) (m0 : List mbuf) (rights0 : Option mbuf) (rightsflag got : Bool)
    (off : Option ℕ) : Prop :=
  sizeofSockaddr + (rights0.map mbuf.m_len).getD 0 + (m0.map mbuf.m_len).sum ≤ sbspace sb ∧
    got = true ∧ (rightsflag = true → (rightsMbuf rights0 off).isSome)

/-- The rights, if there are to be any. -/
def sentRights (rights0 : Option mbuf) (rightsflag : Bool) (off : Option ℕ) : Option mbuf :=
  if rightsflag then rightsMbuf rights0 off else none

theorem bytes_endRecord (ms : List mbuf) : bytes (endRecord ms) = bytes ms := by
  induction ms with
  | nil => rfl
  | cons m ms ih =>
    cases ms with
    | nil => rfl
    | cons n ms =>
      rw [endRecord, bytes_cons, ih]
      · rfl
      · exact cons_ne_nil n ms

theorem endRecord_formed {ms : List mbuf} (h : ∀ m ∈ ms, m.Formed) :
    ∀ m ∈ endRecord ms, m.Formed := by
  induction ms with
  | nil => exact h
  | cons m ms ih =>
    cases ms with
    | nil =>
      intro c hc
      rw [endRecord, mem_singleton] at hc
      rw [hc]
      exact h m (by simp)
    | cons n ms =>
      intro c hc
      rw [endRecord] at hc
      · rcases List.mem_cons.mp hc with rfl | hc
        · exact h c (by simp)
        · exact ih (fun c hc => h c (by simp [hc])) c hc
      · exact cons_ne_nil n ms

theorem sbappendaddr_eq (sb : sockbuf) (asa : Vector UInt8 sizeofSockaddr) {m0 : List mbuf}
    (rights0 : Option mbuf) (rightsflag got : Bool) (off : Option ℕ) (hm0 : m0 ≠ []) :
    (Takes sb m0 rights0 rightsflag got off ∧ sbappendaddr sb asa m0 rights0 rightsflag got off =
        some (sbappend sb (addrChain asa m0 (sentRights rights0 rightsflag off)), 1)) ∨
      ¬ Takes sb m0 rights0 rightsflag got off ∧
        sbappendaddr sb asa m0 rights0 rightsflag got off = some (sb, 0) := by
  rw [sbappendaddr, if_neg hm0, Takes, sentRights]
  by_cases hspace : sizeofSockaddr + (rights0.map mbuf.m_len).getD 0 + (m0.map mbuf.m_len).sum ≤
      sbspace sb
  · rw [if_neg (not_lt.mpr hspace)]
    cases got with
    | false =>
      refine Or.inr ⟨fun h => ?_, if_pos rfl⟩
      cases h.2.1
    | true =>
      rw [if_neg (by simp)]
      cases rightsflag with
      | false =>
        refine Or.inl ⟨⟨hspace, rfl, fun h => ?_⟩, rfl⟩
        cases h
      | true =>
        rw [if_pos rfl, if_pos rfl]
        cases hr : rightsMbuf rights0 off with
        | none =>
          refine Or.inr ⟨fun h => ?_, rfl⟩
          cases h.2.2 rfl
        | some r => exact Or.inl ⟨⟨hspace, rfl, fun _ => rfl⟩, rfl⟩
  · exact Or.inr ⟨fun h => hspace h.1, if_pos (not_le.mp hspace)⟩

theorem bytes_addrChain (asa : Vector UInt8 sizeofSockaddr) (m0 : List mbuf)
    (rights : Option mbuf) :
    bytes (addrChain asa m0 rights) = asa.toList ++ bytes rights.toList ++ bytes m0 := by
  rw [addrChain, bytes_cons, bytes_append, bytes_endRecord, append_assoc]
  cases rights <;> rfl

theorem addrChain_formed (asa : Vector UInt8 sizeofSockaddr) {m0 : List mbuf} {rights : Option mbuf}
    (hm0 : ∀ c ∈ m0, c.Formed) (hr : ∀ r ∈ rights, r.Formed) :
    ∀ c ∈ addrChain asa m0 rights, c.Formed := by
  intro c hc
  rcases List.mem_cons.mp hc with rfl | hc
  · left
    show MMINOFF + asa.toList.length ≤ MMAXOFF
    rw [Vector.length_toList]
    decide
  · rcases List.mem_append.mp hc with hc | hc
    · cases rights with
      | none => cases hc
      | some r =>
        rw [Option.map_some, Option.toList_some, mem_singleton] at hc
        rw [hc]
        exact hr r rfl
    · exact endRecord_formed hm0 c hc

/-- The rights sent are those given. -/
theorem sentRights_length (rights0 : Option mbuf) (rightsflag : Bool) (off : Option ℕ) :
    ((bytes (sentRights rights0 rightsflag off).toList).length : ℤ) ≤
      (rights0.map mbuf.m_len).getD 0 := by
  have hnone : ∀ off : Option ℕ,
    bytes (off.map fun _ => (⟨MMINOFF, false, []⟩ : mbuf)).toList = [] := by
    intro off
    cases off <;> rfl
  rw [sentRights]
  cases rightsflag with
  | false =>
    cases rights0 with
    | none => exact le_refl _
    | some r =>
      show (0 : ℤ) ≤ r.m_len
      rw [mbuf.m_len]
      omega
  | true =>
    rw [if_pos rfl, rightsMbuf.eq_def]
    cases rights0 with
    | none =>
      simp only [hnone]
      exact le_refl _
    | some r =>
      show ((bytes (if r.m_len = 0 then _ else m_copy r off).toList).length : ℤ) ≤ r.m_len
      by_cases hzero : r.m_len = 0
      · rw [if_pos hzero, hnone, hzero]
        exact le_refl _
      · rw [if_neg hzero, m_copy]
        cases off with
        | none =>
          show (0 : ℤ) ≤ r.m_len
          rw [mbuf.m_len]
          omega
        | some o =>
          show (((r.dat ++ []).length : ℕ) : ℤ) ≤ r.dat.length
          rw [append_nil]

/-- The sockbuf, and the bytes that have been appended and not dropped. -/
structure State where
  sb : sockbuf
  dat : List UInt8

inductive Event
  | sbappend (m : List mbuf)
  | sbappendaddr (asa : Vector UInt8 sizeofSockaddr) (m0 : List mbuf) (rights0 : Option mbuf)
      (rightsflag got : Bool) (off : Option ℕ)
  | sbdrop (len : ℤ)

def Step (s : State) : Event → State → Prop
  | .sbappend m, s' => s' = ⟨sbappend s.sb m, s.dat ++ bytes m⟩
  | .sbappendaddr asa m0 rights0 rightsflag got off, s' =>
    ∃ ret, sbappendaddr s.sb asa m0 rights0 rightsflag got off = some (s'.sb, ret) ∧
      s'.dat = if ret = 0 then s.dat
        else s.dat ++ asa.toList ++ bytes (sentRights rights0 rightsflag off).toList ++ bytes m0
  | .sbdrop len, s' => sbdrop s.sb len = some s'.sb ∧ s'.dat = s.dat.drop len.toNat

/-- How the operations are called: `sbappend` when there is space for the bytes, and
`sbdrop` with no more bytes than there are. -/
def Legal (s : State) : Event → Prop
  | .sbappend m => (∀ c ∈ m, c.Formed) ∧ (bytes m).length ≤ sbspace s.sb
  | .sbappendaddr _ m0 rights0 rightsflag _ off =>
    m0 ≠ [] ∧ (∀ c ∈ m0, c.Formed) ∧ ∀ r ∈ sentRights rights0 rightsflag off, r.Formed
  | .sbdrop len => 0 ≤ len ∧ len ≤ s.sb.sb_cc

/-- The memory the mbufs take fits in 16 bits, and an empty queue gets bytes if it gets
any mbuf. -/
def Ok (s : State) (e : Event) : Prop :=
  Legal s e ∧
    match e with
    | .sbappend m =>
      s.sb.sb_mbcnt + added s.sb.sb_mb.getLast? m ≤ 32767 ∧
        (s.sb.sb_cc = 0 → bytes m = [] → ∀ c ∈ m, c.blank)
    | .sbappendaddr asa m0 rights0 rightsflag got off =>
      Takes s.sb m0 rights0 rightsflag got off →
        s.sb.sb_mbcnt + added s.sb.sb_mb.getLast?
          (addrChain asa m0 (sentRights rights0 rightsflag off)) ≤ 32767
    | .sbdrop _ => True

/-- The counts are true, the bytes are those appended and not dropped, and `sbflush`
does not panic. -/
structure Sound (s : State) : Prop where
  cc : s.sb.sb_cc = (s.sb.sb_mb.map mbuf.m_len).sum
  mbcnt : s.sb.sb_mbcnt = (s.sb.sb_mb.map mbuf.charge).sum
  dat : bytes s.sb.sb_mb = s.dat
  flush : (sbflush s.sb).isSome

structure Inv (s : State) : Prop where
  counted : Counted s.sb
  dat : bytes s.sb.sb_mb = s.dat
  nil : bytes s.sb.sb_mb = [] → s.sb.sb_mb = []
  hiwat : s.sb.sb_hiwat ≤ 32767
  flags : s.sb.sb_flags &&& SB_LOCK = 0

theorem length_bytes (ms : List mbuf) : ((bytes ms).length : ℤ) = (ms.map mbuf.m_len).sum := by
  induction ms with
  | nil => rfl
  | cons m ms ih =>
    rw [bytes_cons, length_append, map_cons, sum_cons, ← ih, mbuf.m_len]
    rfl

theorem Inv.sound {s : State} (h : Inv s) : Sound s :=
  ⟨by rw [h.counted.cc, length_bytes], h.counted.mbcnt, h.dat,
    sbflush_isSome h.counted h.nil h.flags⟩

/-- A chain is appended. -/
theorem Inv.append {s : State} (h : Inv s) {m : List mbuf} (hm : ∀ c ∈ m, c.Formed)
    (hspace : (bytes m).length ≤ sbspace s.sb)
    (hmbcnt : s.sb.sb_mbcnt + added s.sb.sb_mb.getLast? m ≤ 32767)
    (hnil : s.sb.sb_cc = 0 → bytes m = [] → ∀ c ∈ m, c.blank) :
    Inv ⟨sbappend s.sb m, s.dat ++ bytes m⟩ := by
  have hcc : s.sb.sb_cc + (bytes m).length ≤ 32767 := by
    have h1 := h.hiwat
    rw [sbspace] at hspace
    omega
  obtain ⟨hcounted, hbytes, ⟨hh, -, hf⟩, hempty⟩ := sbappend_spec m h.counted hm hcc hmbcnt
  refine ⟨hcounted, by rw [hbytes, h.dat], fun hall => ?_, by rw [hh]; exact h.hiwat,
    by rw [hf]; exact h.flags⟩
  rw [hbytes] at hall
  obtain ⟨h1, h2⟩ := List.append_eq_nil_iff.mp hall
  exact hempty (h.nil h1) (hnil (by rw [h.counted.cc, h1]; rfl) h2)

/-- **Every step keeps the invariant.** -/
theorem step_inv (s : State) (e : Event) (s' : State) (h : Inv s) (hstep : Guarded Ok Step s e s') :
    Inv s' := by
  obtain ⟨⟨hlegal, hok⟩, hstep⟩ := hstep
  cases e with
  | sbappend m =>
    rw [show s' = _ from hstep]
    exact h.append hlegal.1 hlegal.2 hok.1 hok.2
  | sbappendaddr asa m0 rights0 rightsflag got off =>
    obtain ⟨hm0, hformed, hrights⟩ := hlegal
    obtain ⟨ret, hrun, hdat⟩ := hstep
    rcases sbappendaddr_eq s.sb asa rights0 rightsflag got off hm0 with ⟨htakes, heq⟩ | ⟨-, heq⟩
    · rw [heq, Option.some.injEq, Prod.mk.injEq] at hrun
      obtain ⟨hsb, rfl⟩ := hrun
      rw [if_neg one_ne_zero, append_assoc, append_assoc, ← append_assoc asa.toList,
        ← bytes_addrChain] at hdat
      have hs : s' = ⟨_, _⟩ := congrArg₂ State.mk hsb.symm hdat
      rw [hs]
      refine h.append (addrChain_formed asa hformed hrights) ?_ (hok htakes) fun _ hnil => ?_
      · have hlen := sentRights_length rights0 rightsflag off
        have hspace := htakes.1
        rw [← length_bytes] at hspace
        rw [bytes_addrChain, length_append, length_append, Vector.length_toList]
        omega
      · rw [bytes_addrChain, append_assoc, append_eq_nil_iff] at hnil
        have hlen := congrArg List.length hnil.1
        rw [Vector.length_toList] at hlen
        cases hlen
    · rw [heq, Option.some.injEq, Prod.mk.injEq] at hrun
      obtain ⟨hsb, rfl⟩ := hrun
      have hs : s' = s := congrArg₂ State.mk hsb.symm hdat
      rw [hs]
      exact h
  | sbdrop len =>
    obtain ⟨hrun, hdat⟩ := hstep
    obtain ⟨hpos, hle⟩ := hlegal
    obtain ⟨sb', hrun', hcounted, hbytes, ⟨hh, -, hf⟩, hnil⟩ :=
      sbdropLoop_spec s.sb.sb_mb len h.counted hpos
      (by rw [← h.counted.cc]; exact hle)
    rw [sbdrop, hrun', Option.some.injEq] at hrun
    subst hrun
    refine ⟨hcounted, ?_, hnil, by rw [hh]; exact h.hiwat, by rw [hf]; exact h.flags⟩
    rw [hbytes, hdat, h.dat]

/-- A sockbuf as `sbreserve` sets it up. -/
def reserved (cc : ℤ) : State := ⟨sbreserve ⟨0, 0, 0, 0, [], 0⟩ cc, []⟩

theorem reserved_inv (cc : ℤ) : Inv (reserved cc) := by
  have hzero : (0 : ℤ) ≤ 32767 := by decide
  have hflags : (0 : BitVec 16) &&& SB_LOCK = 0 := by decide
  refine ⟨⟨rfl, rfl, hzero, hzero, by simp [reserved, sbreserve]⟩, rfl, fun _ => rfl, ?_, hflags⟩
  show (if int16 cc ≤ 0 then SB_MAXCOUNT else int16 cc) ≤ 32767
  by_cases h : int16 cc ≤ 0
  · rw [if_pos h, SB_MAXCOUNT]
  · rw [if_neg h, int16]
    omega

/-- **The counts are true and `sbflush` does not panic**, in every run in which what is
appended fits in the 16 bits of `sb_mbcnt` and an empty queue gets no mbufs without
bytes alone. -/
theorem sound_of_run {cc : ℤ} {es : List Event} {s : State}
    (h : Run (Guarded Ok Step) (reserved cc) es s) : Sound s :=
  (Run.invariant (I := Inv) step_inv h (reserved_inv cc)).sound

/-! ## Three runs -/

/-- Two chains are appended, the second in part behind the first, and ten bytes dropped. -/
theorem sound_after_drop : ∃ s, Sound s ∧ s.sb.sb_cc = 20 ∧ s.sb.sb_mbcnt = 256 := by
  have hrun : Run (Guarded Ok Step) (reserved 2048)
      [.sbappend [⟨12, false, List.replicate 10 1⟩],
        .sbappend [⟨12, false, List.replicate 10 2⟩, ⟨12, true, List.replicate 10 3⟩], .sbdrop 10]
      ⟨_, _⟩ :=
    .cons ⟨⟨⟨by decide, by decide⟩, by decide, by decide⟩, rfl⟩
      (.cons ⟨⟨⟨by decide, by decide⟩, by decide, by decide⟩, rfl⟩
        (.cons ⟨⟨⟨by decide, by decide⟩, trivial⟩, rfl, rfl⟩ (.nil _)))
  exact ⟨_, sound_of_run hrun, by decide, by decide⟩

/-- A mark without bytes in an empty queue makes `sbflush` panic; and 29 clusters with
one byte each are more memory than `sb_mbcnt` can count. -/
theorem not_sound :
    (∃ s, Run (Guarded Legal Step) (reserved 2048) [.sbappend [⟨12, true, []⟩]] s ∧
      (sbflush s.sb).isSome = false) ∧
    ∃ s, Run (Guarded Legal Step) (reserved 2048)
        [.sbappend (List.replicate 29 ⟨1024, false, [0]⟩)] s ∧
      s.sb.sb_mbcnt ≠ (s.sb.sb_mb.map mbuf.charge).sum := by
  constructor
  · exact ⟨_, .cons ⟨⟨by decide, by decide⟩, rfl⟩ (.nil _), by decide⟩
  · exact ⟨_, .cons ⟨⟨by decide, by decide⟩, rfl⟩ (.nil _), by decide +kernel⟩

end Sockbuf
