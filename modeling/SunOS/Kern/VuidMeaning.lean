/-
# When compressing a queue keeps its meaning (`vq_compress` of `sundev/vuid_queue.c`)

A merge makes the victim's event happen at the place of the base.  That is the same when what comes
between does not notice, and when the base's own event is not lost.
-/
import SunOS.Kern.VuidDispense

namespace Vuid

open Option
open List

variable {S : Type} {act : S → FirmEvent → S} {threshold : Timeval} {factor : BitVec 32}
  {c : Collapse} {b : Item} {M rest m : List Item} {n : ℕ} {d a : BitVec 16} {x y : BitVec 32}
  {es : List FirmEvent}

/-! ## Merges that keep the effect of the events -/

/-- The merge of `c` has the effect of its events, from any state. -/
def Collapse.Keeps (act : S → FirmEvent → S) (c : Collapse) : Prop :=
  ∀ s, act (c.between.foldl act (act s c.base)) c.victim.2
    = c.between.foldl act (act s (merge c.base c.victim.2))

/-- The inner loop keeps the effect when all its merges do. -/
theorem scan_foldl (h : ∀ c ∈ (scan threshold factor b M rest).log, c.Keeps act) (s : S) :
    (((scan threshold factor b M rest).base :: (scan threshold factor b M rest).kept).map
      Prod.snd).foldl act s = ((b :: (M ++ rest)).map Prod.snd).foldl act s := by
  induction rest generalizing b M with
  | nil => rw [scan, append_nil]
  | cons v rest ih =>
    rw [scan] at h ⊢
    split_ifs at h ⊢
    · rfl
    · simp only [mem_cons, forall_eq_or_imp] at h
      rw [ih h.2]
      have hc := h.1 s
      simp only [map_cons, map_append, foldl_cons, foldl_append] at hc ⊢
      rw [hc]
    · rw [ih h]
      simp

/-- The outer loop keeps the effect when all its merges do. -/
theorem scanAll_foldl (h : ∀ c ∈ (scanAll threshold factor n m).2, c.Keeps act) (s : S) :
    ((scanAll threshold factor n m).1.map Prod.snd).foldl act s
      = (m.map Prod.snd).foldl act s := by
  induction n generalizing m s with
  | zero => rfl
  | succ n ih =>
    cases m with
    | nil => rfl
    | cons b rest =>
      rw [scanAll] at h ⊢
      split_ifs at h ⊢
      · simp only [mem_append] at h
        have hscan := scan_foldl (fun c hc => h c (Or.inl hc)) s
        rw [nil_append] at hscan
        rw [← hscan]
        exact ih (fun c hc => h c (Or.inr hc)) _
      · simp only [map_cons, foldl_cons]
        exact ih h _

/-- Base and victim have one id, and nothing between them has it. -/
def Collapse.Apart (c : Collapse) : Prop :=
  c.victim.2.id = c.base.id ∧ ∀ e ∈ c.between, e.id ≠ c.base.id

theorem scan_apart (hM : ∀ e ∈ M, e.2.id ≠ b.2.id) :
    ∀ c ∈ (scan threshold factor b M rest).log, c.Apart := by
  induction rest generalizing b M with
  | nil => simp [scan]
  | cons v rest ih =>
    rw [scan]
    split_ifs with _ hid
    · simp
    · simp only [mem_cons, forall_eq_or_imp]
      refine ⟨⟨hid, fun e he => ?_⟩, ih (b := (b.1, merge b.2 v.2)) hM⟩
      obtain ⟨p, hp, rfl⟩ := List.mem_map.mp he
      exact hM p hp
    · apply ih
      simp only [mem_append, mem_singleton]
      rintro e (he | rfl)
      · exact hM e he
      · exact hid

theorem scanAll_apart : ∀ c ∈ (scanAll threshold factor n m).2, c.Apart := by
  induction n generalizing m with
  | zero => simp [scanAll]
  | succ n ih =>
    cases m with
    | nil => simp [scanAll]
    | cons b rest =>
      rw [scanAll]
      split_ifs
      · simp only [mem_append]
        rintro c (hc | hc)
        · exact scan_apart (by simp) c hc
        · exact ih c hc
      · exact ih

/-! ## A coordinate of the locator -/

/-- By how much the deltas of the id `d` move. -/
def deltaSum (d : BitVec 16) (es : List FirmEvent) : BitVec 32 :=
  ((es.filter fun e => e.id = d).map (·.value)).sum

/-- Without an absolute event only the deltas count. -/
theorem foldl_shift_deltas (h : ∀ e ∈ es, e.id ≠ a) :
    es.foldl (shift d a) x = x + deltaSum d es := by
  induction es generalizing x with
  | nil => exact (BitVec.add_zero x).symm
  | cons e es ih =>
    rw [foldl_cons, ih fun e' he => h e' (mem_cons_of_mem _ he), shift, deltaSum, deltaSum,
      if_neg (h e mem_cons_self)]
    split_ifs with hd
    · rw [filter_cons_of_pos (by simpa using hd), map_cons, sum_cons,
        BitVec.add_assoc]
    · rw [filter_cons_of_neg (by simpa using hd)]

/-- After an absolute event the old position does not count. -/
theorem foldl_shift_absolute (hda : d ≠ a) (h : ∃ e ∈ es, e.id = a) :
    es.foldl (shift d a) x = es.foldl (shift d a) y := by
  induction es generalizing x y with
  | nil => simp at h
  | cons e es ih =>
    rw [foldl_cons, foldl_cons]
    by_cases hea : e.id = a
    · have hed : e.id ≠ d := fun heq => hda (heq.symm.trans hea)
      rw [shift, shift, if_neg hed, if_neg hed, if_pos hea, if_pos hea]
    · apply ih
      obtain ⟨e', he', hid⟩ := h
      rcases List.mem_cons.mp he' with rfl | he'
      · exact absurd hid hea
      · exact ⟨e', he', hid⟩

/-- A merge of deltas must not lose the base's, nor take the victim's over an absolute event. -/
def Collapse.SoundDelta (a : BitVec 16) (c : Collapse) : Prop :=
  if ∃ e ∈ c.between, e.id = a then c.victim.2.value = 0
  else c.base.pairType = FE_PAIR_ABSOLUTE ∨ c.base.value = 0

/-- A merge of absolute events must have the victim's value, and take it over no deltas. -/
def Collapse.SoundAbsolute (d : BitVec 16) (c : Collapse) : Prop :=
  (if c.base.pairType = FE_PAIR_ABSOLUTE then c.base.value else 0) + deltaSum d c.between = 0

theorem keeps_delta (hda : d ≠ a) (hc : c.Apart) (hd : c.base.id = d) :
    c.Keeps (shift d a) ↔ c.SoundDelta a := by
  have hbase : ∀ s, shift d a s c.base = s + c.base.value := fun s => if_pos hd
  have hvictim : ∀ s, shift d a s c.victim.2 = s + c.victim.2.value :=
    fun s => if_pos (hc.1.trans hd)
  have hmerge : ∀ s, shift d a s (merge c.base c.victim.2)
      = s + (merge c.base c.victim.2).value := fun s => if_pos hd
  rw [Collapse.Keeps, Collapse.SoundDelta]
  simp only [hbase, hvictim, hmerge]
  split_ifs with habs
  · constructor
    · intro h
      have h0 := h 0
      rw [foldl_shift_absolute hda habs (y := 0 + (merge c.base c.victim.2).value)] at h0
      simpa using h0
    · intro h0 s
      rw [foldl_shift_absolute hda habs (y := s + (merge c.base c.victim.2).value), h0]
      exact BitVec.add_zero _
  · have hno : ∀ e ∈ c.between, e.id ≠ a := fun e he heq => habs ⟨e, he, heq⟩
    simp only [foldl_shift_deltas hno, merge]
    split_ifs with hpair
    · simp only [hpair, true_or, iff_true]
      intro s
      abel
    · simp only [hpair, false_or]
      constructor
      · intro h
        have h0 := h 0
        have heq : c.base.value + (deltaSum d c.between + c.victim.2.value)
            = 0 + (deltaSum d c.between + c.victim.2.value) := by
          rw [← add_assoc]
          simpa [add_comm] using h0
        exact add_right_cancel heq
      · intro h0 s
        rw [h0]
        abel

theorem keeps_absolute (hda : d ≠ a) (hc : c.Apart) (ha : c.base.id = a) :
    c.Keeps (shift d a) ↔ c.SoundAbsolute d := by
  have hne : c.base.id ≠ d := fun heq => hda (heq.symm.trans ha)
  have hvictim : ∀ s, shift d a s c.victim.2 = c.victim.2.value := by
    intro s
    rw [shift, if_neg (hc.1 ▸ hne), if_pos (hc.1.trans ha)]
  have hmerge : ∀ s, shift d a s (merge c.base c.victim.2) = (merge c.base c.victim.2).value := by
    intro s
    rw [shift, if_neg (show (merge c.base c.victim.2).id ≠ d from hne),
      if_pos (show (merge c.base c.victim.2).id = a from ha)]
  have hno : ∀ e ∈ c.between, e.id ≠ a := fun e he => ha ▸ hc.2 e he
  rw [Collapse.Keeps, Collapse.SoundAbsolute]
  simp only [hvictim, hmerge, foldl_shift_deltas hno]
  simp only [merge]
  constructor
  · intro h
    have h0 := h 0
    split_ifs at h0 ⊢
    · rw [add_comm c.base.value, add_assoc] at h0
      exact left_eq_add.mp h0
    · rw [left_eq_add.mp h0]
      rfl
  · intro h s
    split_ifs at h ⊢
    · rw [add_comm c.base.value, add_assoc, h, add_zero]
    · rw [zero_add] at h
      rw [h, add_zero]

/-- Merges of other ids do not touch the coordinate. -/
theorem keeps_other (hc : c.Apart) (hd : c.base.id ≠ d) (ha : c.base.id ≠ a) :
    c.Keeps (shift d a) := by
  intro s
  have hbase : shift d a s c.base = s := by rw [shift, if_neg hd, if_neg ha]
  have hvictim : ∀ s, shift d a s c.victim.2 = s := by
    intro s
    rw [shift, if_neg (hc.1 ▸ hd), if_neg (hc.1 ▸ ha)]
  have hmerge : shift d a s (merge c.base c.victim.2) = s := by
    rw [shift, if_neg (show (merge c.base c.victim.2).id ≠ d from hd),
      if_neg (show (merge c.base c.victim.2).id ≠ a from ha)]
  rw [hvictim, hbase, hmerge]

/-! ## The values of the ids -/

/-- A merge of other ids: the base adds nothing to the pair of both, and nothing between touches
it. -/
def Collapse.SoundStore (c : Collapse) : Prop :=
  c.base.pairType = FE_PAIR_ABSOLUTE ∧ c.victim.2.pairType = FE_PAIR_ABSOLUTE ∧
    c.base.pair = c.victim.2.pair ∧ c.base.value = 0 ∧
    ∀ e ∈ c.between, wsIsLocChange e.id = false → ∀ i, c.victim.2.Touches i → ¬e.Touches i

/-- An event that none of the others touches may come before them. -/
theorem foldl_keep_comm {v : FirmEvent} (hv : wsIsLocChange v.id = false)
    (h : ∀ e ∈ es, wsIsLocChange e.id = false → ∀ i, v.Touches i → ¬e.Touches i) (s : Store) :
    keep (es.foldl keep s) v = es.foldl keep (vuidSetValue s v) := by
  induction es generalizing s with
  | nil => exact if_neg (by simp [hv])
  | cons e es ih =>
    rw [foldl_cons, foldl_cons, ih fun e' he => h e' (mem_cons_of_mem _ he)]
    congr 1
    rw [keep, keep]
    cases hloc : wsIsLocChange e.id with
    | true => rfl
    | false =>
      have hcomm := h e mem_cons_self hloc
      exact vuidSetValue_comm hcomm

theorem keeps_store (hc : c.Apart) (h : wsIsLocChange c.base.id = true ∨ c.SoundStore) :
    c.Keeps keep := by
  intro s
  cases hloc : wsIsLocChange c.base.id with
  | true =>
    have hvictim : wsIsLocChange c.victim.2.id = true := hc.1 ▸ hloc
    have hmerge : wsIsLocChange (merge c.base c.victim.2).id = true := hloc
    simp only [keep, hloc, hvictim, hmerge, if_true]
  | false =>
    obtain ⟨hb, hv, hpair, h0, hbetween⟩ := h.resolve_left (by simp [hloc])
    have hvictim : wsIsLocChange c.victim.2.id = false := hc.1 ▸ hloc
    have hmerge : wsIsLocChange (merge c.base c.victim.2).id = false := hloc
    rw [foldl_keep_comm hvictim hbetween, keep, keep, hloc, hmerge]
    simp only [Bool.false_eq_true, if_false]
    rw [vuidSetValue_zero hc.1 hpair hb hv h0]

/-! ## Sound merges -/

/-- **A merge that goes right**: the victim has one of the two pair types, and it may happen where
the base stands. -/
def Collapse.Sound (c : Collapse) : Prop :=
  (c.victim.2.pairType = FE_PAIR_DELTA ∨ c.victim.2.pairType = FE_PAIR_ABSOLUTE) ∧
    if c.base.id = LOC_X_DELTA then c.SoundDelta LOC_X_ABSOLUTE
    else if c.base.id = LOC_Y_DELTA then c.SoundDelta LOC_Y_ABSOLUTE
    else if c.base.id = LOC_X_ABSOLUTE then c.SoundAbsolute LOC_X_DELTA
    else if c.base.id = LOC_Y_ABSOLUTE then c.SoundAbsolute LOC_Y_DELTA
    else c.base.id = LOC_MOVE ∨ c.SoundStore

/-- A sound merge keeps every part of the state. -/
theorem Collapse.Sound.keeps (h : c.Sound) (hc : c.Apart) :
    c.Keeps (shift LOC_X_DELTA LOC_X_ABSOLUTE) ∧ c.Keeps (shift LOC_Y_DELTA LOC_Y_ABSOLUTE) ∧
      c.Keeps keep := by
  have hx : LOC_X_DELTA ≠ LOC_X_ABSOLUTE := by decide
  have hy : LOC_Y_DELTA ≠ LOC_Y_ABSOLUTE := by decide
  obtain ⟨-, h⟩ := h
  split_ifs at h with h1 h2 h3 h4
  · refine ⟨(keeps_delta hx hc h1).mpr h, keeps_other hc ?_ ?_, keeps_store hc (Or.inl ?_)⟩ <;>
      rw [h1] <;> decide
  · refine ⟨keeps_other hc ?_ ?_, (keeps_delta hy hc h2).mpr h, keeps_store hc (Or.inl ?_)⟩ <;>
      rw [h2] <;> decide
  · refine ⟨(keeps_absolute hx hc h3).mpr h, keeps_other hc ?_ ?_, keeps_store hc (Or.inl ?_)⟩ <;>
      rw [h3] <;> decide
  · refine ⟨keeps_other hc ?_ ?_, (keeps_absolute hy hc h4).mpr h, keeps_store hc (Or.inl ?_)⟩ <;>
      rw [h4] <;> decide
  · refine ⟨keeps_other hc h1 h3, keeps_other hc h2 h4, keeps_store hc (h.imp (fun hm => ?_) id)⟩
    rw [hm]
    decide

/-- **What compressing a queue is to do**: some valuators are gone, the other events stand in their
order with all but their values, the links and the count are right, and dispensing the queue gives
the same locator and the same state of the ids. -/
structure Compressed (q q' : VuidQueue) (removed : ℤ) : Prop where
  events : ∃ l f l' f', q.Holds l f ∧ q'.Holds l' f' ∧ l'.Sublist l ∧
    removed = (l.length : ℤ) - l'.length ∧
    (∀ a ∈ l', { q.event a with value := (q'.event a).value } = q'.event a) ∧
    ∀ a ∈ l, a ∉ l' → Valuator (q.event a)
  meaning : ∀ ws, ∃ w w', wsFlush (q.size.toNat + 1) q ws = some w ∧
    wsFlush (q'.size.toNat + 1) q' ws = some w' ∧
    w'.utX = w.utX ∧ w'.utY = w.utY ∧ w'.instate = w.instate

namespace VuidQueue

variable {q q' : VuidQueue} {l l' f f' : List ℕ}

theorem map_fst_item : (l.map q.item).map Prod.fst = l := by
  simp [Function.comp_def, item]

theorem map_snd_item : (l.map q.item).map Prod.snd = l.map q.event := by
  simp [Function.comp_def, item]

/-- When every merge that `vq_compress` makes is sound, the queue is compressed as it should be. -/
theorem compressed_of_sound (hq : q.Built) (factor : BitVec 32)
    (hsound : ∀ c ∈ q.collapses factor, c.Sound) :
    ∃ removed q', q.vqCompress factor = some (removed, q') ∧ Compressed q q' removed := by
  obtain ⟨l, f, h⟩ := hq.holds
  obtain ⟨q', l', f', hrun, hq', hnum, hmap⟩ := h.compress factor
  refine ⟨_, q', hrun, ⟨l, f, l', f', h, hq', ?_, ?_, ?_, ?_⟩, fun ws => ?_⟩
  · have hsub := (scanAll_kept (q.threshold factor) factor (q.size.toNat + 1) (l.map q.item)).1
    rwa [← hmap, map_fst_item, map_fst_item] at hsub
  · rw [h.num, hq'.num] at hnum
    omega
  · intro a ha
    have hmem : q'.item a ∈ l'.map q'.item := mem_map_of_mem ha
    rw [hmap] at hmem
    obtain ⟨y, hy, hya, hval⟩ := (scanAll_kept _ _ _ _).2 _ hmem
    obtain ⟨b, -, rfl⟩ := List.mem_map.mp hy
    obtain rfl : b = a := hya
    exact hval
  · intro a ha hal
    rcases scanAll_log (q.threshold factor) factor (q.size.toNat + 1)
      (mem_map_of_mem (f := q.item) ha) with hk | ⟨c, hc, hca⟩
    · rw [← hmap, map_fst_item] at hk
      exact absurd hk hal
    · rw [← h.contents] at hc
      have hpair := (hsound c hc).1
      rw [hca] at hpair
      exact Or.inr hpair
  · have hkeeps := fun c hc => (hsound c hc).keeps (scanAll_apart c hc)
    rw [collapses, h.contents] at hkeeps
    refine ⟨_, _, wsFlush_eq h h.length_lt, wsFlush_eq hq' hq'.length_lt, ?_⟩
    simp only [foldl_dispense]
    rw [← map_snd_item (q := q'), hmap, ← map_snd_item (q := q)]
    exact ⟨scanAll_foldl (fun c hc => (hkeeps c hc).1) _,
      scanAll_foldl (fun c hc => (hkeeps c hc).2.1) _,
      scanAll_foldl (fun c hc => (hkeeps c hc).2.2) _⟩

/-- A queue of three places, with three events at one time. -/
def three (e1 e2 e3 : FirmEvent) : VuidQueue :=
  ((((vqInitialize 1000 72 fun _ => default).vqPutback e3).2.vqPutback e2).2.vqPutback e1).2

theorem three_built {e1 e2 e3 : FirmEvent} : (three e1 e2 e3).Built :=
  .putback _ (.putback _ (.putback _ (.init _ (by decide) (by decide))))

/-- The locator moves to the right by `x`. -/
def motion (x : BitVec 32) : FirmEvent := ⟨LOC_X_DELTA, FE_PAIR_ABSOLUTE, 0x82, x, ⟨1, 0⟩⟩

/-- Two motions become one. -/
theorem compressed_of_sound_motion : ∃ removed q',
    (three (motion 5) (motion 3) (motion 2)).vqCompress 0 = some (removed, q') ∧
      Compressed (three (motion 5) (motion 3) (motion 2)) q' removed := by
  have hlog : (three (motion 5) (motion 3) (motion 2)).collapses 0
      = [⟨motion 5, [], 1024, motion 3⟩, ⟨motion 8, [], 1048, motion 2⟩] := by decide
  apply compressed_of_sound three_built
  rw [hlog]
  intro c hc
  have hpair : c.victim.2.pairType = FE_PAIR_ABSOLUTE ∧ c.base.pairType = FE_PAIR_ABSOLUTE ∧
      c.base.id = LOC_X_DELTA ∧ c.between = [] := by
    rcases List.mem_cons.mp hc with rfl | hc
    · exact ⟨rfl, rfl, rfl, rfl⟩
    · rw [List.mem_singleton.mp hc]
      exact ⟨rfl, rfl, rfl, rfl⟩
  refine ⟨Or.inr hpair.1, ?_⟩
  rw [if_pos hpair.2.2.1, Collapse.SoundDelta, hpair.2.2.2, if_neg (by simp)]
  exact Or.inl hpair.2.1

/-- A motion is merged over an absolute position, and lost. -/
theorem not_compressed_mixed : ¬∀ (q : VuidQueue) (factor : BitVec 32), q.Built →
    0 ≤ factor.toInt → ∃ removed q', q.vqCompress factor = some (removed, q') ∧
      Compressed q q' removed := by
  intro h
  obtain ⟨removed, q', hrun, -, hmeaning⟩ :=
    h (three (motion 5) ⟨LOC_X_ABSOLUTE, FE_PAIR_DELTA, 0x80, 100, ⟨1, 0⟩⟩ (motion 3)) 0 three_built
      (by decide)
  obtain ⟨w, w', hw, hw', hx, -⟩ := hmeaning ⟨0, 0, fun _ => .boolean false, false⟩
  have hold : (wsFlush 4 (three (motion 5) ⟨LOC_X_ABSOLUTE, FE_PAIR_DELTA, 0x80, 100, ⟨1, 0⟩⟩
      (motion 3)) ⟨0, 0, fun _ => .boolean false, false⟩).map (·.utX) = some 103 := by decide
  have hnew : (((three (motion 5) ⟨LOC_X_ABSOLUTE, FE_PAIR_DELTA, 0x80, 100, ⟨1, 0⟩⟩
      (motion 3)).vqCompress 0).bind fun r => wsFlush (r.2.size.toNat + 1) r.2
        ⟨0, 0, fun _ => .boolean false, false⟩).map (·.utX) = some 100 := by decide
  rw [hrun, bind_some, hw', map_some, hx, some_inj] at hnew
  have hw4 : wsFlush 4 _ _ = some w := hw
  rw [hw4, map_some, some_inj, hnew] at hold
  exact absurd hold (by decide)

end VuidQueue

end Vuid
