/-
# The final scan

Flushing a socket gives back the references in its messages, and closes files on the way, and
so flushes others.  The counts stay those of the references that are left; a buffer is emptied
only when its file is garbage.
-/
import SunOS.Unp.Mark

namespace Unp

open List
open Function (update update_idem update_of_ne update_self)
open Table

variable {nfile fuel : ℕ} {t t' t'' : table} {E : ℕ → Prop} {ext pend : ℕ → ℤ} {i j k : ℕ}

/-! ## What stays -/

variable {f : file}

/-- A file with nothing in its buffer, or without one. -/
def Flushed (f : file) : Prop := ∀ so, f.f_data = some so → so.sb_mb = [] ∧ so.locked = false

theorem dgram_data {so : socket} (h : f.dgram = some so) :
    f.f_type = .DTYPE_SOCKET ∧ f.f_data = some so ∧ so.so_proto = .dgram := by
  unfold file.dgram at h
  split at h
  · rename_i so' htype hdata
    split_ifs at h with hp
    cases h
    exact ⟨htype, hdata, hp⟩
  · cases h

theorem Flushed.rights (h : Flushed f) : f.rights = [] := by
  unfold file.rights
  cases hd : f.dgram with
  | none => rfl
  | some so =>
    show (unp_scan .address so.sb_mb).getD [] = []
    rw [(h so (dgram_data hd).2.1).1]
    rfl

theorem rights_congr {f g : file} (htype : f.f_type = g.f_type) (hdata : f.f_data = g.f_data) :
    f.rights = g.rights := by
  unfold file.rights file.dgram
  rw [htype, hdata]

/-- Buffers stay as they are or are emptied. -/
def Drops (t' t'' : table) : Prop :=
  ∀ i, (t'' i).f_type = (t' i).f_type ∧ ((t'' i).f_data = (t' i).f_data ∨ Flushed (t'' i))

theorem Drops.refl : Drops t t := fun _ => ⟨rfl, Or.inl rfl⟩

theorem Drops.trans (h : Drops t t') (h' : Drops t' t'') : Drops t t'' := by
  intro i
  refine ⟨(h' i).1.trans (h i).1, ?_⟩
  rcases (h' i).2 with heq | hf
  · rcases (h i).2 with heq' | hf'
    · exact Or.inl (heq.trans heq')
    · refine Or.inr fun so hso => hf' so ?_
      rwa [← heq]
  · exact Or.inr hf

theorem Drops.rights (h : Drops t t') (i : ℕ) :
    (t' i).rights = (t i).rights ∨ (t' i).rights = [] := by
  rcases (h i).2 with heq | hf
  · exact Or.inl (rights_congr (h i).1 heq)
  · exact Or.inr hf.rights

theorem Drops.flushed (h : Drops t t') (hf : Flushed (t i)) : Flushed (t' i) := by
  rcases (h i).2 with heq | hf'
  · intro so hso
    exact hf so (by rwa [← heq])
  · exact hf'

theorem Drops.holds (h : Drops t t') (hk : Holds nfile t' j i) : Holds nfile t j i := by
  refine ⟨hk.1, ?_⟩
  rcases h.rights j with heq | hnil
  · rw [← heq]
    exact hk.2
  · have := hk.2
    rw [hnil] at this
    exact absurd this not_mem_nil

theorem Drops.refs_le (h : Drops t t') : refs nfile t' i ≤ refs nfile t i := by
  refine total_mono fun j _ => ?_
  rcases h.rights j with heq | hnil
  · rw [heq]
  · rw [hnil, count_nil]
    exact Int.natCast_nonneg _

/-- How many references there are in messages. -/
def weight (nfile : ℕ) (t : table) : ℤ := total nfile (fun f => (f.rights.length : ℤ)) t

theorem Drops.weight_le (h : Drops t t') : weight nfile t' ≤ weight nfile t := by
  refine total_mono fun j _ => ?_
  rcases h.rights j with heq | hnil
  · rw [heq]
  · rw [hnil, length_nil]
    exact Int.natCast_nonneg _

/-- A change that leaves type and buffer alone. -/
theorem drops_update (htype : f.f_type = (t i).f_type)
    (hdata : f.f_data = (t i).f_data ∨ Flushed f) : Drops t (update t i f) := by
  intro j
  by_cases hj : j = i
  · rw [hj, update_self]
    exact ⟨htype, hdata⟩
  · rw [update_of_ne hj]
    exact ⟨rfl, Or.inl rfl⟩

theorem refs_update (hf : f.rights = (t i).rights) :
    refs nfile (update t i f) k = refs nfile t k := by
  refine total_congr fun j _ => ?_
  by_cases hj : j = i
  · rw [hj, update_self, hf]
  · rw [update_of_ne hj]

/-- A buffer is emptied. -/
theorem refs_flush (hi : i < nfile) (hf : f.rights = []) :
    refs nfile (update t i f) k = refs nfile t k - (t i).rights.count k := by
  unfold refs
  rw [total_update hi, hf, count_nil]
  simp

theorem weight_flush (hi : i < nfile) (hf : f.rights = []) :
    weight nfile (update t i f) = weight nfile t - (t i).rights.length := by
  unfold weight
  rw [total_update hi, hf, length_nil]
  simp

/-- **The invariant of the final scan**, over the table `t` it began with.  A file has `ext`
references of its own; `pend` references have been taken out of buffers and not yet been given
back; and only buffers in `E` have been emptied. -/
structure Kept (nfile : ℕ) (t : table) (E : ℕ → Prop) (ext pend : ℕ → ℤ) (t' : table) : Prop where
  type : ∀ i, (t' i).f_type = (t i).f_type
  mark : ∀ i, (t' i).FMARK = true ↔ Reachable nfile t i
  data : ∀ i, (t' i).f_data = (t i).f_data ∨ (E i ∧ Flushed (t' i))
  msgcount : ∀ i, i < nfile → (t' i).f_msgcount = refs nfile t' i + pend i
  count : ∀ i, i < nfile → (t' i).f_count = ext i + (t' i).f_msgcount
  free : ∀ i, i < nfile → (t' i).f_count = 0 → (t' i).f_data = none
  vnode : ∀ i, (t' i).f_type = .DTYPE_VNODE → (t' i).f_data = none

theorem Kept.drops (h : Kept nfile t E ext pend t') : Drops t t' := by
  intro i
  refine ⟨h.type i, ?_⟩
  rcases h.data i with heq | ⟨-, hf⟩
  · exact Or.inl heq
  · exact Or.inr hf

theorem Kept.mono {E' : ℕ → Prop} (h : Kept nfile t E ext pend t') (hE : ∀ i, E i → E' i) :
    Kept nfile t E' ext pend t' := by
  refine ⟨h.type, h.mark, fun i => ?_, h.msgcount, h.count, h.free, h.vnode⟩
  rcases h.data i with heq | ⟨he, hf⟩
  · exact Or.inl heq
  · exact Or.inr ⟨hE i he, hf⟩

/-- A buffer that refers to nothing of ours any more has been emptied. -/
theorem Kept.emptied (h : Kept nfile t E ext pend t') (h0 : refs nfile t' i = 0)
    (hj : Holds nfile t j i) : E j := by
  rcases h.data j with heq | ⟨he, -⟩
  · have hr := rights_congr (h.type j) heq
    refine absurd ⟨hj.1, ?_⟩ (refs_zero.mp h0 j)
    rw [hr]
    exact hj.2
  · exact he

/-- The references of its own are at least those at the start, and `E` has every file all of
whose references were in emptied buffers. -/
structure Base (nfile : ℕ) (t : table) (E : ℕ → Prop) (ext pend : ℕ → ℤ) : Prop where
  ext : ∀ i, i < nfile → (t i).f_count - (t i).f_msgcount ≤ ext i
  pend : ∀ i, 0 ≤ pend i
  closed : ∀ i, i < nfile → (t i).f_count = (t i).f_msgcount → (∀ j, Holds nfile t j i → E j) → E i

theorem Base.ext_nonneg (h : Base nfile t E ext pend) (hwf : Wf nfile t) (hi : i < nfile) :
    0 ≤ ext i := by
  have h1 := h.ext i hi
  have h2 := hwf.count i hi
  omega

/-- A file without references of its own is not locked. -/
theorem Kept.not_locked (h : Kept nfile t E ext pend t') (hwf : Wf nfile t) (hi : i < nfile)
    (h0 : (t i).f_count = (t i).f_msgcount) {so : socket} (hso : (t' i).f_data = some so) :
    so.locked = false := by
  rcases h.data i with heq | ⟨-, hf⟩
  · by_contra hl
    have := hwf.locked i so hi (by rw [← heq]; exact hso) (Bool.not_eq_false _ |>.mp hl)
    omega
  · exact (hf so hso).2

/-! ## sorflush -/

/-- What `unp_discard` does with a reference that has been taken out of a buffer. -/
def Discards (nfile : ℕ) (t : table) (E : ℕ → Prop) (fuel : ℕ) : Prop :=
  ∀ (t' : table) (ext pend : ℕ → ℤ) (i : ℕ), Base nfile t E ext pend → weight nfile t' < fuel →
    i < nfile → Kept nfile t E ext (fun k => pend k + if k = i then 1 else 0) t' →
    ∃ t'', unp_discard (closef .ok fuel) t' i = .ok t'' ∧ Kept nfile t E ext pend t'' ∧
      Drops t' t''

theorem discards_spec (hd : Discards nfile t E fuel) (fps : List ℕ) :
    ∀ (t' : table) (ext pend : ℕ → ℤ), Base nfile t E ext pend → weight nfile t' < fuel →
      (∀ k ∈ fps, k < nfile) → Kept nfile t E ext (fun k => pend k + fps.count k) t' →
      ∃ t'', fps.foldlM (unp_discard (closef .ok fuel)) t' = .ok t'' ∧
        Kept nfile t E ext pend t'' ∧ Drops t' t'' := by
  induction fps with
  | nil =>
    intro t' ext pend _ _ _ h
    refine ⟨t', rfl, ?_, .refl⟩
    simpa using h
  | cons fp fps ih =>
    intro t' ext pend hb hw hlt h
    have hone : (fun k => pend k + ((fp :: fps).count k : ℤ)) =
        fun k => (fun k => pend k + (fps.count k : ℤ)) k + if k = fp then 1 else 0 := by
      funext k
      rw [count_cons]
      by_cases hk : k = fp
      · rw [if_pos hk, hk, beq_self_eq_true, if_pos rfl]
        push_cast
        ring
      · rw [if_neg hk, if_neg (by simpa using Ne.symm hk)]
        push_cast
        ring
    rw [hone] at h
    have hb' : Base nfile t E ext fun k => pend k + (fps.count k : ℤ) :=
      ⟨hb.ext, fun k => by have := hb.pend k; omega, hb.closed⟩
    obtain ⟨t1, h1, hk1, hd1⟩ := hd t' ext _ fp hb' hw (hlt fp mem_cons_self) h
    obtain ⟨t2, h2, hk2, hd2⟩ := ih t1 ext pend hb (lt_of_le_of_lt hd1.weight_le hw)
      (fun k hk => hlt k (mem_cons_of_mem fp hk)) hk1
    refine ⟨t2, ?_, hk2, hd1.trans hd2⟩
    rw [foldlM_cons, h1]
    exact h2

/-- **`sorflush`** empties a buffer and gives back what was in it. -/
theorem sorflush_spec (hwf : Wf nfile t) (hd : Discards nfile t E fuel)
    (hb : Base nfile t E ext pend) (hw : weight nfile t' ≤ fuel) (hi : i < nfile)
    (h : Kept nfile t E ext pend t') (hE : E i) (htype : (t' i).f_type = .DTYPE_SOCKET)
    (hl : ∀ so, (t' i).f_data = some so → so.locked = false) :
    ∃ t'', sorflush (closef .ok fuel) t' i = .ok t'' ∧ Kept nfile t E ext pend t'' ∧
      Drops t' t'' ∧ Flushed (t'' i) := by
  unfold sorflush
  cases hdata : (t' i).f_data with
  | none =>
    refine ⟨t', rfl, h, .refl, fun so hso => ?_⟩
    rw [hdata] at hso
    cases hso
  | some so =>
    have hlocked := hl so hdata
    have hnl : ¬ so.locked = true := by
      rw [hlocked]
      exact Bool.false_ne_true
    simp only [if_neg hnl]
    let f : file := { t' i with f_data := some { so with cantrcvmore := true, sb_mb := [] } }
    have hf : Flushed f := by
      intro so' hso'
      cases hso'
      exact ⟨rfl, hlocked⟩
    have hdrops : Drops t' (update t' i f) := drops_update rfl (Or.inr hf)
    have hkept : ∀ pend', (∀ k, k < nfile → refs nfile t' k + pend k =
        refs nfile (update t' i f) k + pend' k) →
        Kept nfile t E ext pend' (update t' i f) := by
      intro pend' hrefs
      have hsame : ∀ k, (update t' i f k).f_count = (t' k).f_count ∧
          (update t' i f k).f_msgcount = (t' k).f_msgcount ∧
          (update t' i f k).FMARK = (t' k).FMARK := by
        intro k
        by_cases hk : k = i
        · rw [hk, update_self]
          exact ⟨rfl, rfl, rfl⟩
        · rw [update_of_ne hk]
          exact ⟨rfl, rfl, rfl⟩
      refine ⟨fun k => ((hdrops k).1).trans (h.type k), fun k => ?_, fun k => ?_, fun k hk => ?_,
        fun k hk => ?_, fun k hk h0 => ?_, fun k hv => ?_⟩
      · rw [(hsame k).2.2]
        exact h.mark k
      · by_cases hki : k = i
        · rw [hki, update_self]
          exact Or.inr ⟨hE, hf⟩
        · rw [update_of_ne hki]
          exact h.data k
      · rw [(hsame k).2.1, h.msgcount k hk, hrefs k hk]
      · rw [(hsame k).1, (hsame k).2.1]
        exact h.count k hk
      · rw [(hsame k).1] at h0
        by_cases hki : k = i
        · have := h.free k hk h0
          rw [hki, hdata] at this
          cases this
        · rw [update_of_ne hki]
          exact h.free k hk h0
      · by_cases hki : k = i
        · rw [hki, update_self] at hv
          have hv' : (t' i).f_type = .DTYPE_VNODE := hv
          rw [htype] at hv'
          cases hv'
        · rw [update_of_ne hki] at hv ⊢
          exact h.vnode k hv
    by_cases hp : so.so_proto = .dgram
    · have hdgram : (t' i).dgram = some so := by
        unfold file.dgram
        rw [htype, hdata]
        exact if_pos hp
      have hscan : scan so.sb_mb = .ok (t' i).rights := by
        have hsome : (unp_scan .address so.sb_mb).isSome := by
          rcases h.data i with heq | ⟨-, hflushed⟩
          · refine hwf.whole i so hi ?_ hlocked
            unfold file.dgram
            rw [← h.type i, htype, ← heq, hdata]
            exact if_pos hp
          · rw [(hflushed so hdata).1]
            rfl
        obtain ⟨fps, hfps⟩ := Option.isSome_iff_exists.mp hsome
        have hok : scan so.sb_mb = .ok fps := by
          unfold scan
          rw [hfps]
        rw [hok, scan_rights hdgram hok]
      have hpr : so.so_proto.unix = true ∧ so.so_proto.PR_RIGHTS = true := by
        rw [hp]
        exact ⟨rfl, rfl⟩
      rw [if_pos hpr, hscan]
      have hk := hkept (fun k => pend k + ((t' i).rights.count k : ℤ)) fun k _ => by
        rw [refs_flush hi hf.rights]
        ring
      by_cases hnil : (t' i).rights = []
      · rw [hnil] at hk ⊢
        refine ⟨_, rfl, by simpa using hk, hdrops, ?_⟩
        rw [update_self]
        exact hf
      · have hpos := length_pos_of_ne_nil hnil
        have hw' := weight_flush (t := t') (f := f) hi hf.rights
        obtain ⟨t2, hrun, hk2, hd2⟩ := discards_spec hd (t' i).rights _ ext pend hb
          (by rw [hw']; omega) (fun k hk => hwf.place i k (h.drops.holds ⟨hi, hk⟩)) hk
        refine ⟨t2, hrun, hk2, hdrops.trans hd2, hd2.flushed ?_⟩
        rw [update_self]
        exact hf
    · have hpr : ¬ (so.so_proto.unix = true ∧ so.so_proto.PR_RIGHTS = true) := by
        rintro ⟨-, hr⟩
        exact hp (of_decide_eq_true hr)
      rw [if_neg hpr]
      have hrights : (t' i).rights = [] := by
        unfold file.rights file.dgram
        rw [htype, hdata]
        simp only [if_neg hp]
      refine ⟨_, rfl, hkept pend fun k _ => ?_, hdrops, ?_⟩
      · rw [refs_flush hi hf.rights, hrights, count_nil]
        simp
      · rw [update_self]
        exact hf

/-! ## closef -/

/-- A file changes, and its buffer does not. -/
theorem Kept.count_update {pend' : ℕ → ℤ} (h : Kept nfile t E ext pend t')
    (hsame : f = { t' i with f_count := f.f_count, f_msgcount := f.f_msgcount })
    (hpend : ∀ k, k ≠ i → pend' k = pend k) (hmsg : f.f_msgcount = refs nfile t' i + pend' i)
    {ext' : ℕ → ℤ} (hext : ∀ k, k ≠ i → ext' k = ext k) (hcount : f.f_count = ext' i + f.f_msgcount)
    (hfree : f.f_count = 0 → f.f_data = none) :
    Kept nfile t E ext' pend' (update t' i f) := by
  have htype : f.f_type = (t' i).f_type := by rw [hsame]
  have hdata : f.f_data = (t' i).f_data := by rw [hsame]
  have hmark : f.FMARK = (t' i).FMARK := by rw [hsame]
  have hrefs : ∀ k, refs nfile (update t' i f) k = refs nfile t' k :=
    fun k => refs_update (rights_congr htype hdata)
  refine ⟨fun k => ?_, fun k => ?_, fun k => ?_, fun k hk => ?_, fun k hk => ?_, fun k hk h0 => ?_,
    fun k hv => ?_⟩
  · by_cases hki : k = i
    · rw [hki, update_self, htype, h.type]
    · rw [update_of_ne hki, h.type]
  · by_cases hki : k = i
    · rw [hki, update_self, hmark, h.mark]
    · rw [update_of_ne hki, h.mark]
  · by_cases hki : k = i
    · rw [hki, update_self, hdata]
      rcases h.data i with heq | ⟨he, hf⟩
      · exact Or.inl heq
      · refine Or.inr ⟨he, fun so hso => hf so ?_⟩
        rwa [← hdata]
    · rw [update_of_ne hki]
      exact h.data k
  · rw [hrefs]
    by_cases hki : k = i
    · rw [hki, update_self, hmsg]
    · rw [update_of_ne hki, hpend k hki]
      exact h.msgcount k hk
  · by_cases hki : k = i
    · rw [hki, update_self, hcount]
    · rw [update_of_ne hki, hext k hki]
      exact h.count k hk
  · by_cases hki : k = i
    · rw [hki, update_self] at h0 ⊢
      exact hfree h0
    · rw [update_of_ne hki] at h0 ⊢
      exact h.free k hk h0
  · by_cases hki : k = i
    · rw [hki, update_self] at hv ⊢
      rw [hdata]
      exact h.vnode i (by rw [← htype, hv])
    · rw [update_of_ne hki] at hv ⊢
      exact h.vnode k hv

/-- **A reference is given back**, and with the last one the file is closed. -/
theorem closef_discards (hwf : Wf nfile t) : ∀ fuel, Discards nfile t E fuel := by
  intro fuel
  induction fuel with
  | zero =>
    intro t' ext pend i _ hw
    have : 0 ≤ weight nfile t' := total_nonneg fun _ => Int.natCast_nonneg _
    lia
  | succ fuel ih =>
    intro t' ext pend i hb hw hi h
    have hmsg := h.msgcount i hi
    have hcount := h.count i hi
    have hpend := hb.pend i
    have hext := hb.ext_nonneg hwf hi
    have hrefs : 0 ≤ refs nfile t' i := refs_nonneg
    let f : file := { t' i with f_msgcount := (t' i).f_msgcount - 1 }
    show ∃ t'', closef .ok (fuel + 1) (update t' i f) i = .ok t'' ∧ _
    have hfi : update t' i f i = f := update_self ..
    unfold closef
    rw [hfi]
    by_cases hmore : f.f_count > 1
    · -- there are other references
      rw [if_pos hmore]
      let g : file := { f with f_count := f.f_count - 1 }
      have hg : update (update t' i f) i g = update t' i g :=
        update_idem ..
      refine ⟨update t' i g, ?_, h.count_update rfl (fun k hk => ?_) ?_ (fun _ _ => rfl)
        ?_ (fun h0 => ?_), drops_update rfl (Or.inl rfl)⟩
      · simp only
        show (if _ then _ else _) = _
        split_ifs
        · exact congrArg _ hg
        · exact congrArg _ hg
      · rw [if_neg hk, add_zero]
      · show (t' i).f_msgcount - 1 = _
        lia
      · show (t' i).f_count - 1 = ext i + ((t' i).f_msgcount - 1)
        lia
      · have h0' : (t' i).f_count - 1 = 0 := h0
        lia
    · -- this is the last one
      have hlt : ¬ f.f_count < 1 := by
        show ¬ (t' i).f_count < 1
        lia
      rw [if_neg hmore, if_neg hlt]
      have hrefs0 : refs nfile t' i = 0 := by lia
      have hnoext : (t i).f_count = (t i).f_msgcount := by
        have h1 := hb.ext i hi
        have h2 := hwf.count i hi
        lia
      have hE : E i := hb.closed i hi hnoext fun j hj => h.emptied hrefs0 hj
      -- while the file is being closed its count is 1
      let ext' : ℕ → ℤ := fun k => ext k + if k = i then 1 else 0
      have hk1 : Kept nfile t E ext' pend (update t' i f) := by
        refine h.count_update rfl (fun k hk => ?_) ?_ (fun k hk => ?_) ?_ (fun h0 => ?_)
        · rw [if_neg hk, add_zero]
        · show (t' i).f_msgcount - 1 = _
          lia
        · show ext k + (if k = i then 1 else 0) = ext k
          rw [if_neg hk, add_zero]
        · show (t' i).f_count = ext i + (if i = i then 1 else 0) + ((t' i).f_msgcount - 1)
          rw [if_pos rfl]
          lia
        · have h0' : (t' i).f_count = 0 := h0
          lia
      have hb' : Base nfile t E ext' pend := by
        refine ⟨fun k hk => (hb.ext k hk).trans ?_, hb.pend, hb.closed⟩
        show ext k ≤ ext k + if k = i then 1 else 0
        split_ifs <;> lia
      have hd1 : Drops t' (update t' i f) := drops_update rfl (Or.inl rfl)
      have hclose : ∀ (t2 : table) (g : file), Kept nfile t E ext' pend t2 →
          Drops (update t' i f) t2 → (t2 i).rights = [] →
          g = { t2 i with f_count := 0, f_data := none } →
          Kept nfile t E ext pend (update t2 i g) ∧ Drops t' (update t2 i g) := by
        intro t2 g hk2 hd2 hr hg
        have hgf : Flushed g := by
          intro so hso
          rw [hg] at hso
          cases hso
        have hd3 : Drops t2 (update t2 i g) := drops_update (by rw [hg]) (Or.inr hgf)
        have hrefs2 : refs nfile t2 i = 0 := by
          have h1 : refs nfile t2 i ≤ refs nfile t' i := (hd1.trans hd2).refs_le
          have h2 : 0 ≤ refs nfile t2 i := refs_nonneg
          lia
        have hmsg2 := hk2.msgcount i hi
        refine ⟨⟨fun k => ?_, fun k => ?_, fun k => ?_, fun k hk => ?_, fun k hk => ?_,
          fun k hk h0 => ?_, fun k hv => ?_⟩, (hd1.trans hd2).trans hd3⟩
        · rw [(hd3 k).1, hk2.type]
        · by_cases hki : k = i
          · rw [hki, update_self, hg]
            exact hk2.mark i
          · rw [update_of_ne hki, hk2.mark]
        · by_cases hki : k = i
          · rw [hki, update_self]
            exact Or.inr ⟨hE, hgf⟩
          · rw [update_of_ne hki]
            exact hk2.data k
        · rw [refs_flush hi hgf.rights]
          have hrights : ((t2 i).rights.count k : ℤ) = 0 := by
            rw [hr, count_nil]
            rfl
          by_cases hki : k = i
          · rw [hki] at hrights ⊢
            rw [update_self, hg, hrights]
            show (t2 i).f_msgcount = _
            lia
          · rw [update_of_ne hki, hrights, hk2.msgcount k hk]
            lia
        · by_cases hki : k = i
          · rw [hki, update_self, hg]
            show 0 = ext i + (t2 i).f_msgcount
            lia
          · rw [update_of_ne hki, hk2.count k hk]
            show ext k + (if k = i then 1 else 0) + _ = _
            rw [if_neg hki, add_zero]
        · by_cases hki : k = i
          · rw [hki, update_self, hg]
          · rw [update_of_ne hki] at h0 ⊢
            exact hk2.free k hk h0
        · by_cases hki : k = i
          · rw [hki, update_self, hg]
          · rw [update_of_ne hki] at hv ⊢
            exact hk2.vnode k hv
      have htypei : (update t' i f i).f_type = (t' i).f_type := by rw [hfi]
      unfold fo_close
      cases htype : (t' i).f_type with
      | DTYPE_VNODE =>
        rw [htypei, htype]
        have hnone : (t' i).f_data = none := h.vnode i htype
        have hrights : (update t' i f i).rights = [] := by
          rw [hfi]
          unfold file.rights file.dgram
          rw [show f.f_type = .DTYPE_VNODE from htype]
        obtain ⟨h1, h2⟩ := hclose _ { f with f_count := 0 } hk1 .refl hrights (by
          rw [hfi, show f.f_data = none from hnone])
        refine ⟨_, ?_, h1, h2⟩
        show Except.ok (update (update t' i f) i
          { update t' i f i with f_count := 0 }) = _
        rw [hfi]
      | DTYPE_SOCKET =>
        rw [htypei, htype]
        have hw' : weight nfile (update t' i f) ≤ fuel := by
          have : weight nfile _ ≤ weight nfile _ := hd1.weight_le
          lia
        obtain ⟨t2, hrun, hk2, hd2, hf2⟩ := sorflush_spec hwf ih hb' hw' hi hk1 hE
          (by rw [htypei, htype]) fun so hso => hk1.not_locked hwf hi hnoext hso
        obtain ⟨h1, h2⟩ := hclose t2 { t2 i with f_count := 0, f_data := none } hk2 hd2
          hf2.rights rfl
        refine ⟨_, ?_, h1, h2⟩
        simp only [hrun]
        show Except.ok (update (update t2 i { t2 i with f_data := none }) i
          { update t2 i { t2 i with f_data := none } i with f_count := 0 }) = _
        rw [update_self, update_idem]

end Unp
