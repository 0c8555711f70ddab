/-
# What the duplicate cache holds

The entries are on a ring, in the order of their addresses, and each is on the hash chain of its
own transaction id.  The cache so holds the last `MAXDUPREQS` transactions saved, and `svckudp_dup`
tells whether a transaction is one of them.
-/
import Mathlib.Data.List.DropRight
import Mathlib.Data.List.Perm.Subperm
import SunOS.Lib.Chain
import SunOS.Nfs.Dupreq

namespace Nfs.DupCache

open List
open Function (update update_of_ne update_self)

variable {c c' : DupCache} {a : ℕ} {req : transaction} {l : List transaction}

/-- Every hash chain holds the entries of `P` with its own hash, each once. -/
def Chained (c : DupCache) (P : ℕ → Prop) : Prop :=
  ∀ h, ∃ m, Chain c.dr_chain (c.drhashtbl h) m ∧ m.Nodup ∧ ∀ b, b ∈ m ↔ P b ∧ c.DRHASH b = h

theorem Chained.congr {P Q : ℕ → Prop} (h : Chained c P) (hPQ : ∀ b, P b ↔ Q b) :
    Chained c Q := by
  intro k
  obtain ⟨m, hm, hnd, hmem⟩ := h k
  exact ⟨m, hm, hnd, fun b => by rw [hmem b, hPQ b]⟩

/-- There is an entry at `a`. -/
def Entry (c : DupCache) (a : ℕ) : Prop := 1 ≤ a ∧ a ≤ c.ndupreqs

/-- **The invariant**, when the transactions of `l` have been saved: the last of them are in the
entries, the entries on a ring from the last used on, and each on the chain of its own id. -/
structure Saved (c : DupCache) (l : List transaction) : Prop where
  ndupreqs : c.ndupreqs = min l.length 400
  drmru : c.drmru = if l.length = 0 then 0 else (l.length - 1) % 400 + 1
  next : ∀ a, c.Entry a → c.dr_next a = a % c.ndupreqs + 1
  dr : ∀ j (h : j < l.length), l.length ≤ j + 400 → c.dr (j % 400 + 1) = l[j]
  chains : Chained c c.Entry

/-- Nothing has been saved in a cache that is all zero. -/
theorem saved_empty : Saved empty [] where
  ndupreqs := rfl
  drmru := rfl
  next := fun a ha => absurd (ha.1.trans ha.2) (by decide)
  dr := fun j h => absurd h (Nat.not_lt_zero j)
  chains := fun _ => ⟨[], rfl, nodup_nil, fun b =>
    iff_of_false not_mem_nil fun hb => absurd (hb.1.1.trans hb.1.2) (by decide)⟩

/-- A chain is no longer than there are entries. -/
theorem length_le {m : List ℕ} (hnd : m.Nodup) (hm : ∀ b ∈ m, c.Entry b) :
    m.length ≤ c.ndupreqs := by
  have hsub : m ⊆ List.range' 1 c.ndupreqs := fun b hb => by
    have hb := hm b hb
    rw [Entry] at hb
    rw [List.mem_range'_1]
    omega
  simpa using (hnd.subperm hsub).length_le

/-! ## svckudp_dup -/

/-- The loop finds an entry on its chain. -/
theorem duploop_chain (fuel : ℕ) {m : List ℕ} (h : Chain c.dr_chain a m) (hf : m.length < fuel) :
    c.duploop req fuel a = some (decide (req ∈ m.map c.dr)) := by
  induction m generalizing a fuel with
  | nil =>
    cases fuel with
    | zero => exact absurd hf (Nat.not_lt_zero _)
    | succ fuel =>
      rw [Chain.nil_iff] at h
      simp [duploop, h]
  | cons b m ih =>
    obtain ⟨rfl, ha, h⟩ := h
    cases fuel with
    | zero => exact absurd hf (Nat.not_lt_zero _)
    | succ fuel =>
      rw [length_cons] at hf
      rw [duploop, if_neg ha]
      by_cases hreq : c.dr a = req
      · simp [hreq]
      · rw [if_pos hreq, ih fuel h (by omega)]
        have hne : req ≠ c.dr a := Ne.symm hreq
        simp [hne]

/-- The entries hold the last transactions saved. -/
theorem Saved.mem_iff (h : Saved c l) (req : transaction) :
    req ∈ l.rtake MAXDUPREQS ↔ ∃ a, c.Entry a ∧ c.dr a = req := by
  have hn := h.ndupreqs
  have hmax : MAXDUPREQS = 400 := rfl
  rw [List.rtake, hmax, mem_drop_iff_getElem]
  unfold Entry
  constructor
  · rintro ⟨i, hi, rfl⟩
    have hdr := h.dr (l.length - 400 + i) (by omega) (by omega)
    refine ⟨_, ?_, hdr⟩
    omega
  · rintro ⟨a, ha, rfl⟩
    -- The last transaction that went to this entry.
    obtain ⟨j, hj, hle, rfl⟩ : ∃ j, j < l.length ∧ l.length ≤ j + 400 ∧ j % 400 + 1 = a :=
      ⟨l.length - 1 - (l.length + 400 - a) % 400, by omega⟩
    have hij : l.length - 400 + (j - (l.length - 400)) = j := by omega
    refine ⟨j - (l.length - 400), by omega, ?_⟩
    simp only [hij, h.dr j hj hle]

/-- **`svckudp_dup` tells whether the transaction is one of the last saved.** -/
theorem Saved.dup_eq (h : Saved c l) (req : transaction) :
    c.dup req = some (decide (req ∈ l.rtake MAXDUPREQS)) := by
  obtain ⟨m, hm, hnd, hmem⟩ := h.chains (XIDHASH req.xid)
  have hlen := length_le hnd fun b hb => ((hmem b).mp hb).1
  rw [dup, duploop_chain _ hm (by omega), Option.some.injEq, decide_eq_decide, h.mem_iff,
    mem_map]
  refine exists_congr fun b => ?_
  rw [hmem b]
  exact and_congr_left fun heq => and_iff_left (by rw [DRHASH, heq])

/-! ## unhash -/

/-- The loop takes the entry off from behind the entry before it. -/
theorem unhashloop_chain (fuel prev : ℕ) {m n : List ℕ} {drt : ℕ}
    (h : Chain c.dr_chain drt (m ++ a :: n)) (ha : a ∉ m) (hf : m.length < fuel) :
    c.unhashloop a fuel drt prev =
      let p := m.getLast?.getD prev
      if p = 0 then
        some { c with drhashtbl := update c.drhashtbl (c.DRHASH a) (c.dr_chain a) }
      else some { c with dr_chain := update c.dr_chain p (c.dr_chain a) } := by
  induction m generalizing drt prev fuel with
  | nil =>
    cases fuel with
    | zero => exact absurd hf (Nat.not_lt_zero _)
    | succ fuel =>
      obtain ⟨rfl, h0, -⟩ := h
      rw [unhashloop, if_neg h0, if_pos rfl]
      rfl
  | cons d m ih =>
    cases fuel with
    | zero => exact absurd hf (Nat.not_lt_zero _)
    | succ fuel =>
      obtain ⟨rfl, h0, h⟩ := h
      rw [mem_cons, not_or] at ha
      rw [length_cons] at hf
      rw [unhashloop, if_neg h0, if_neg (Ne.symm ha.1), ih fuel drt h ha.2 (by omega)]
      have hlast : (drt :: m).getLast?.getD prev = m.getLast?.getD drt := by
        cases m with
        | nil => rfl
        | cons e m => rw [List.getLast?_cons_cons]; simp [List.getLast?_cons]
      rw [hlast]

/-- A cache with the same entries, on whatever chains. -/
structure SameEntries (c c' : DupCache) : Prop where
  ndupreqs : c'.ndupreqs = c.ndupreqs
  dr : c'.dr = c.dr
  dr_next : c'.dr_next = c.dr_next

/-- **`unhash` takes an entry off its chain.** -/
theorem unhash_eq (h : Chained c c.Entry) (ha : c.Entry a) :
    ∃ c', c.unhash a = some c' ∧ SameEntries c c' ∧ Chained c' fun b => c.Entry b ∧ b ≠ a := by
  obtain ⟨m', hm', hnd', hmem'⟩ := h (c.DRHASH a)
  obtain ⟨m, n, rfl⟩ := append_of_mem ((hmem' a).mpr ⟨ha, rfl⟩)
  have hlen := length_le hnd' fun b hb => ((hmem' b).mp hb).1
  rw [length_append, length_cons] at hlen
  rw [List.nodup_append', nodup_cons, disjoint_cons_right] at hnd'
  obtain ⟨hm, ⟨han, hn⟩, ham, hmn⟩ := hnd'
  have hloop := unhashloop_chain (c.ndupreqs + 1) 0 hm' ham (by omega)
  -- The entries left on the chain of `a`, and those of the other chains.
  have hrest : ∀ b, b ∈ m ++ n ↔ (c.Entry b ∧ b ≠ a) ∧ c.DRHASH b = c.DRHASH a := by
    intro b
    have hb := hmem' b
    rw [mem_append, mem_cons] at hb
    rw [mem_append]
    by_cases hba : b = a
    · subst hba
      simp [ham, han]
    · simp only [hba, false_or, ne_eq, not_false_eq_true, and_true] at hb ⊢
      exact hb
  have hother : ∀ k ≠ c.DRHASH a, ∀ b,
      c.Entry b ∧ c.DRHASH b = k ↔ (c.Entry b ∧ b ≠ a) ∧ c.DRHASH b = k := by
    rintro k hk b
    have hne : c.DRHASH b = k → b ≠ a := by
      rintro rfl rfl
      exact hk rfl
    tauto
  cases hp : m.getLast? with
  | none =>
    rw [List.getLast?_eq_none_iff] at hp
    subst hp
    refine ⟨_, hloop, ⟨rfl, rfl, rfl⟩, fun k => ?_⟩
    by_cases hk : k = c.DRHASH a
    · subst hk
      refine ⟨n, ?_, hn, hrest⟩
      simp only [update_self]
      exact Chain.tail hm'
    · obtain ⟨q, hq, hqn, hqm⟩ := h k
      refine ⟨q, ?_, hqn, fun b => (hqm b).trans (hother k hk b)⟩
      simp only [update_of_ne hk]
      exact hq
  | some p =>
    obtain ⟨m0, rfl⟩ := List.getLast?_eq_some_iff.mp hp
    have hpe := (hmem' p).mp (by simp)
    have hp0 : p ≠ 0 := Nat.one_le_iff_ne_zero.mp hpe.1.1
    rw [hp, Option.getD_some] at hloop
    simp only [hp0, if_false] at hloop
    refine ⟨_, hloop, ⟨rfl, rfl, rfl⟩, fun k => ?_⟩
    by_cases hk : k = c.DRHASH a
    · subst hk
      refine ⟨m0 ++ [p] ++ n, ?_, List.nodup_append'.mpr ⟨hm, hn, hmn⟩, hrest⟩
      rw [append_assoc] at hm' ⊢
      rw [List.nodup_append'] at hm
      refine Chain.unlink hm' (fun hpm => ?_) fun hpn => hmn (by simp) hpn
      exact hm.2.2 hpm (mem_singleton_self p)
    · obtain ⟨q, hq, hqn, hqm⟩ := h k
      refine ⟨q, hq.congr fun b hb => ?_, hqn, fun b => (hqm b).trans (hother k hk b)⟩
      refine update_of_ne (fun hbp => hk ?_) _ _
      rw [← ((hqm b).mp hb).2, hbp, hpe.2]

/-! ## svckudp_dupsave -/

/-- An entry that is on no chain goes on the chain of what it is filled in with. -/
theorem chained_fill (req : transaction) {P : ℕ → Prop} (h : Chained c P) (ha : a ≠ 0)
    (haP : ¬ P a) : Chained (c.fill a req) fun b => P b ∨ b = a := by
  intro k
  obtain ⟨m, hm, hnd, hmem⟩ := h k
  have ham : a ∉ m := fun hm => haP ((hmem a).mp hm).1
  have hhash : ∀ b, b ≠ a → (c.fill a req).DRHASH b = c.DRHASH b := fun b hb => by
    simp only [DRHASH, fill, update_of_ne hb]
  have hself : (c.fill a req).DRHASH a = XIDHASH req.xid := by
    simp only [DRHASH, fill, update_self]
  by_cases hk : k = XIDHASH req.xid
  · subst hk
    refine ⟨a :: m, ?_, List.nodup_cons.mpr ⟨ham, hnd⟩, fun b => ?_⟩
    · simp only [fill, update_self]
      exact hm.push ha ham
    · rw [mem_cons]
      by_cases hba : b = a
      · simp [hba, hself]
      · rw [hhash b hba, hmem b]
        simp [hba]
  · refine ⟨m, ?_, hnd, fun b => ?_⟩
    · simp only [fill, update_of_ne hk]
      exact hm.congr fun b hb => update_of_ne (fun hba : b = a => ham (hba ▸ hb)) _ _
    · by_cases hba : b = a
      · subst hba
        rw [hself]
        exact ⟨fun hb => absurd hb ham, fun hb => absurd hb.2.symm hk⟩
      · rw [hhash b hba, hmem b]
        simp [hba]

/-- The next transaction goes to the entry `a` in its turn. -/
theorem Saved.fill (h : Saved c l) (req : transaction) {P : ℕ → Prop} (hdr : c'.dr = c.dr)
    (hn : c'.ndupreqs = min (l.length + 1) 400)
    (hnext : ∀ b, c'.Entry b → c'.dr_next b = b % c'.ndupreqs + 1)
    (hch : Chained c' P) (haP : ¬ P a) (hP : ∀ b, P b ∨ b = a ↔ c'.Entry b)
    (ha : a = l.length % 400 + 1) : Saved (c'.fill a req) (l ++ [req]) where
  ndupreqs := by simpa [DupCache.fill] using hn
  drmru := by simpa [DupCache.fill] using ha
  next := hnext
  dr j hj hle := by
    rw [length_append, length_singleton] at hj hle
    simp only [DupCache.fill, hdr]
    by_cases hlast : j = l.length
    · subst hlast
      rw [ha, update_self, getElem_concat_length rfl]
    · rw [update_of_ne (by omega), h.dr j (by omega) (by omega),
        getElem_append_left (by omega)]
  chains := (chained_fill req hch (by omega) haP).congr hP

/-- A new entry comes behind the last. -/
theorem newentry_next (h : Saved c l) (hn : c.ndupreqs = l.length) (hmax : l.length < 400) {b : ℕ}
    (hb : c.newentry.1.Entry b) : c.newentry.1.dr_next b = b % (c.ndupreqs + 1) + 1 := by
  obtain ⟨hb1, hle⟩ := hb
  replace hle : b ≤ c.ndupreqs + 1 := hle
  have hmru := h.drmru
  by_cases h0 : l.length = 0
  · obtain rfl : b = c.ndupreqs + 1 := by omega
    simp [newentry, hmru, hn, h0]
  · rw [if_neg h0] at hmru
    have hlast : c.drmru = c.ndupreqs := by omega
    have hfirst := h.next c.drmru ⟨by omega, by omega⟩
    simp only [newentry, if_pos (show c.drmru ≠ 0 by omega)]
    rcases Nat.lt_trichotomy b c.ndupreqs with hlt | rfl | hgt
    · rw [update_of_ne (by omega), update_of_ne (by omega),
        h.next b ⟨hb1, by omega⟩, Nat.mod_eq_of_lt hlt, Nat.mod_eq_of_lt (by omega)]
    · rw [← hlast, update_self, Nat.mod_eq_of_lt (by omega)]
    · obtain rfl : b = c.ndupreqs + 1 := by omega
      rw [update_of_ne (by omega), update_self, hfirst, hlast, Nat.mod_self,
        Nat.mod_self]

/-- **`svckudp_dupsave` saves a transaction**, in a new entry or in the oldest. -/
theorem Saved.dupsave (h : Saved c l) (req : transaction) :
    ∃ c', c.dupsave req = some c' ∧ Saved c' (l ++ [req]) := by
  have hn := h.ndupreqs
  by_cases hmax : c.ndupreqs < MAXDUPREQS
  · refine ⟨_, if_pos hmax, ?_⟩
    rw [MAXDUPREQS] at hmax
    have hdr : c.newentry.1.dr = c.dr := rfl
    refine h.fill req (P := c.Entry) hdr ?_
      (fun b => newentry_next h (by omega) (by omega)) h.chains
      (fun ha => absurd ha.2 (Nat.not_succ_le_self _)) ?_ ?_
    · show c.ndupreqs + 1 = _
      omega
    · simp only [Entry]
      omega
    · show c.ndupreqs + 1 = _
      omega
  · rw [DupCache.dupsave, if_neg hmax]
    rw [MAXDUPREQS] at hmax
    have hmru := h.drmru
    rw [if_neg (by omega)] at hmru
    have hfull : c.ndupreqs = 400 := by omega
    have hfirst : c.dr_next c.drmru = l.length % 400 + 1 := by
      rw [h.next c.drmru ⟨by omega, by omega⟩, hfull]
      omega
    obtain ⟨c', hc', hsame, hch⟩ :=
      unhash_eq h.chains (a := c.dr_next c.drmru) ⟨by omega, by omega⟩
    refine ⟨_, by simp only [hc', Option.map_some], h.fill req hsame.dr ?_ (fun b hb => ?_) hch
      (fun ha => ha.2 rfl) (fun b => ?_) hfirst⟩
    · rw [hsame.ndupreqs]
      omega
    · rw [Entry, hsame.ndupreqs] at hb
      rw [hsame.dr_next, hsame.ndupreqs, h.next b hb]
    · simp only [Entry, hsame.ndupreqs, hfirst]
      omega

/-- Saving one transaction after another. -/
theorem Saved.foldlM (h : Saved c l) (reqs : List transaction) :
    ∃ c', reqs.foldlM DupCache.dupsave c = some c' ∧ Saved c' (l ++ reqs) := by
  induction reqs generalizing c l with
  | nil => exact ⟨c, rfl, by rwa [append_nil]⟩
  | cons req reqs ih =>
    obtain ⟨c1, hc1, hsaved⟩ := h.dupsave req
    obtain ⟨c', hc', hsaved⟩ := ih hsaved
    refine ⟨c', ?_, by simpa using hsaved⟩
    rw [foldlM_cons, hc1]
    exact hc'

/-- **Any transactions can be saved**, from an empty cache on, and `svckudp_dup` then tells whether
a transaction is one of the last `MAXDUPREQS` of them. -/
theorem dup_of_dupsave (reqs : List transaction) :
    ∃ c, reqs.foldlM DupCache.dupsave empty = some c ∧
      ∀ req, c.dup req = some (decide (req ∈ reqs.rtake MAXDUPREQS)) := by
  obtain ⟨c, hc, hsaved⟩ := saved_empty.foldlM reqs
  exact ⟨c, hc, hsaved.dup_eq⟩

end Nfs.DupCache
