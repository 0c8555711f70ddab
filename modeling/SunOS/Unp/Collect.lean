/-
# Garbage collection of files in flight

`unp_gc` flushes only sockets that cannot be reached.  It panics when it comes upon a file that
is not a socket and is garbage, unless every message with that file in it has been flushed
before.
-/
import SunOS.Unp.Sweep

namespace Unp

open List
open Table

variable {nfile fuel : ℕ} {t t' t'' s : table} {i j k : ℕ}

/-! ## What the final scan empties -/

/-- Garbage: a file that is open, but only in flight, and cannot be reached. -/
structure Garbage (nfile : ℕ) (t : table) (i : ℕ) : Prop where
  lt : i < nfile
  flight : (t i).f_count = (t i).f_msgcount
  count : (t i).f_count ≠ 0
  unreachable : ¬ Reachable nfile t i

/-- **The files whose buffers are emptied** before the final scan comes to `k`: a socket that is
garbage and comes before `k`, and a file that is only in messages in such buffers. -/
inductive Emptied (nfile : ℕ) (t : table) (k : ℕ) : ℕ → Prop
  | early {i : ℕ} (hi : i < k) (hg : Garbage nfile t i) (hs : (t i).f_type = .DTYPE_SOCKET) :
      Emptied nfile t k i
  | closed {i : ℕ} (hi : i < nfile) (hf : (t i).f_count = (t i).f_msgcount)
      (hj : ∀ j, Holds nfile t j i → Emptied nfile t k j) : Emptied nfile t k i

theorem Emptied.mono {k' : ℕ} (h : Emptied nfile t k i) (hk : k ≤ k') : Emptied nfile t k' i := by
  induction h with
  | early hi hg hs => exact .early (by omega) hg hs
  | closed hi hf _ ih => exact .closed hi hf ih

theorem Emptied.unreachable (h : Emptied nfile t k i) : ¬ Reachable nfile t i := by
  induction h with
  | early _ hg _ => exact hg.unreachable
  | closed hi hf _ ih =>
    rintro ⟨r, hr, hpath⟩
    rcases Relation.ReflTransGen.cases_tail hpath with rfl | ⟨j, hrj, hj⟩
    · have := hr.2
      omega
    · exact ih j hj ⟨r, hr, hrj⟩

/-- The references that are not in messages. -/
def held (t : table) (i : ℕ) : ℤ := (t i).f_count - (t i).f_msgcount

theorem base_held : Base nfile t (Emptied nfile t k) (held t) fun _ => 0 :=
  ⟨fun _ _ => le_rfl, fun _ => le_rfl, fun _ hi hf hj => .closed hi hf hj⟩

/-- The state of the final scan when it comes to `k`. -/
structure Swept (nfile : ℕ) (t : table) (k : ℕ) (t' : table) : Prop extends
    Kept nfile t (Emptied nfile t k) (held t) (fun _ => 0) t' where
  early : ∀ i, i < k → Garbage nfile t i → (t i).f_type = .DTYPE_SOCKET → Flushed (t' i)

/-- What has no reference left is closed. -/
theorem Swept.count_zero (h : Swept nfile t k t') (hi : i < nfile)
    (hf : (t i).f_count = (t i).f_msgcount) : (t' i).f_count = 0 ↔ refs nfile t' i = 0 := by
  have h1 := h.msgcount i hi
  have h2 := h.count i hi
  unfold held at h2
  omega

theorem Swept.flushed (h : Swept nfile t k t') (hi : Emptied nfile t k i) :
    (t' i).rights = [] := by
  induction hi with
  | early hi hg hs => exact (h.early _ hi hg hs).rights
  | closed hi hf _ ih =>
    have hzero : (t' _).f_count = 0 := (h.count_zero hi hf).mpr (refs_zero.mpr fun j hj => by
      have hnil := ih j (h.drops.holds hj)
      have hmem := hj.2
      rw [hnil] at hmem
      exact absurd hmem not_mem_nil)
    have hnone := h.free _ hi hzero
    have hfl : Flushed (t' _) := fun so hso => by
      rw [hnone] at hso
      cases hso
    exact hfl.rights

/-- **A file in flight has been closed** when all the messages it was in have been flushed. -/
theorem Swept.closed_iff (h : Swept nfile t k t') (hi : i < nfile)
    (hf : (t i).f_count = (t i).f_msgcount) :
    (t' i).f_count = 0 ↔ ∀ j, Holds nfile t j i → Emptied nfile t k j := by
  rw [h.count_zero hi hf]
  constructor
  · exact fun h0 j hj => h.emptied h0 hj
  · intro hall
    refine refs_zero.mpr fun j hj => ?_
    have hmem := hj.2
    rw [h.flushed (hall j (h.drops.holds hj))] at hmem
    exact absurd hmem not_mem_nil

/-- A file that is garbage later was so at the start. -/
theorem Swept.garbage (h : Swept nfile t k t') (hwf : Wf nfile t) (hi : i < nfile)
    (h0 : (t' i).f_count ≠ 0) (heq : (t' i).f_count = (t' i).f_msgcount)
    (hm : (t' i).FMARK = false) : Garbage nfile t i := by
  have h1 := h.msgcount i hi
  have h2 := h.count i hi
  have h3 := hwf.msgcount i hi
  have h4 : refs nfile t' i ≤ refs nfile t i := h.drops.refs_le
  have h5 : 0 ≤ refs nfile t' i := refs_nonneg
  unfold held at h2
  refine ⟨hi, by omega, by omega, fun hr => ?_⟩
  rw [(h.mark i).mpr hr] at hm
  cases hm

/-- **A round of the final scan**: it panics on garbage that is not a socket, and otherwise ends.
-/
theorem sweepfile_spec (hwf : Wf nfile t) (h : Swept nfile t k t') (hk : k < nfile)
    (hw : weight nfile t ≤ fuel) :
    ((∃ t'', sweepfile (closef .ok fuel) t' k = .ok t'') ↔
      ((t k).f_type ≠ .DTYPE_SOCKET → Garbage nfile t k → (t' k).f_count = 0)) ∧
      ∀ t'', sweepfile (closef .ok fuel) t' k = .ok t'' → Swept nfile t (k + 1) t'' := by
  have hmono : ∀ i, Emptied nfile t k i → Emptied nfile t (k + 1) i :=
    fun i hi => hi.mono (Nat.le_succ k)
  have hstay : (Garbage nfile t k → (t k).f_type = .DTYPE_SOCKET → Flushed (t' k)) →
      Swept nfile t (k + 1) t' := by
    intro hself
    refine ⟨h.toKept.mono hmono, fun i hi hg hs => ?_⟩
    by_cases hik : i = k
    · rw [hik] at hg hs ⊢
      exact hself hg hs
    · exact h.early i (by omega) hg hs
  unfold sweepfile
  by_cases h0 : (t' k).f_count = 0
  · rw [if_pos h0]
    refine ⟨⟨fun _ _ _ => h0, fun _ => ⟨t', rfl⟩⟩, fun t'' hrun => ?_⟩
    cases hrun
    refine hstay fun _ _ so hso => ?_
    rw [h.free k hk h0] at hso
    cases hso
  · rw [if_neg h0]
    by_cases hgo : (t' k).f_count = (t' k).f_msgcount ∧ (t' k).FMARK = false
    · have hg := h.garbage hwf hk h0 hgo.1 hgo.2
      rw [if_pos hgo, h.type k]
      by_cases hs : (t k).f_type ≠ .DTYPE_SOCKET
      · rw [if_pos hs]
        refine ⟨⟨fun ⟨t'', hrun⟩ => ?_, fun hc => absurd (hc hs hg) h0⟩, fun t'' hrun => ?_⟩
        · cases hrun
        · cases hrun
      · rw [if_neg hs]
        have hs' := not_not.mp hs
        obtain ⟨t'', hrun, hk'', hd, hf⟩ := sorflush_spec hwf (closef_discards hwf fuel)
          (base_held (k := k + 1)) (h.drops.weight_le.trans hw) hk (h.toKept.mono hmono)
          (.early (Nat.lt_succ_self k) hg hs') (by rw [h.type, hs'])
          fun so hso => h.not_locked hwf hk hg.flight hso
        refine ⟨⟨fun _ hns => absurd hs' hns, fun _ => ⟨t'', hrun⟩⟩, fun u hu => ?_⟩
        rw [hrun] at hu
        cases hu
        refine ⟨hk'', fun i hi hgi hsi => ?_⟩
        by_cases hik : i = k
        · rw [hik]
          exact hf
        · exact hd.flushed (h.early i (by omega) hgi hsi)
    · rw [if_neg hgo]
      have hng : ¬ Garbage nfile t k := by
        intro hg
        refine hgo ⟨?_, ?_⟩
        · have h2 := h.count k hk
          have h3 := hg.flight
          unfold held at h2
          omega
        · by_contra hm
          exact hg.unreachable ((h.mark k).mp (Bool.not_eq_false _ |>.mp hm))
      refine ⟨⟨fun _ _ hg => absurd hg hng, fun _ => ⟨t', rfl⟩⟩, fun t'' hrun => ?_⟩
      cases hrun
      exact hstay fun hg => absurd hg hng

/-! ## unp_gc -/

/-- Every file that is garbage, and no socket, has been dropped when the final scan comes to it:
each message it is in is to a socket that is emptied before. -/
def Dropped (nfile : ℕ) (t : table) : Prop :=
  ∀ i, (t i).f_type ≠ .DTYPE_SOCKET → Garbage nfile t i →
    ∀ j, Holds nfile t j i → Emptied nfile t i j

/-- The final scan over the first `k` files. -/
theorem sweep_spec (hwf : Wf nfile t) (h : Swept nfile t 0 s) (hw : weight nfile t ≤ fuel) :
    ∀ k, k ≤ nfile →
      ((∃ t', (List.range k).foldlM (sweepfile (closef .ok fuel)) s = .ok t') ↔
        ∀ i, i < k → (t i).f_type ≠ .DTYPE_SOCKET → Garbage nfile t i →
          ∀ j, Holds nfile t j i → Emptied nfile t i j) ∧
      ∀ t', (List.range k).foldlM (sweepfile (closef .ok fuel)) s = .ok t' →
        Swept nfile t k t' := by
  intro k
  induction k with
  | zero =>
    intro _
    refine ⟨⟨fun _ i hi => absurd hi (Nat.not_lt_zero i), fun _ => ⟨s, rfl⟩⟩, fun t' hrun => ?_⟩
    cases hrun
    exact h
  | succ k ih =>
    intro hk
    obtain ⟨hiff, hsw⟩ := ih (by omega)
    rw [foldlM_range_succ]
    cases hpre : (List.range k).foldlM (sweepfile (closef .ok fuel)) s with
    | error e =>
      have hno : ¬ ∀ i, i < k → (t i).f_type ≠ .DTYPE_SOCKET → Garbage nfile t i →
          ∀ j, Holds nfile t j i → Emptied nfile t i j := by
        intro hall
        obtain ⟨t', ht'⟩ := hiff.mpr hall
        rw [hpre] at ht'
        cases ht'
      refine ⟨⟨fun ⟨t', ht'⟩ => ?_, fun hall => ?_⟩, fun t' ht' => ?_⟩
      · cases ht'
      · exact absurd (fun i hi => hall i (by omega)) hno
      · cases ht'
    | ok t1 =>
      have h1 := hsw t1 hpre
      obtain ⟨hstep, hnext⟩ := sweepfile_spec hwf h1 hk hw
      have hbefore := hiff.mp ⟨t1, hpre⟩
      refine ⟨⟨fun hrun i hi hs hg => ?_, fun hall => ?_⟩, hnext⟩
      · by_cases hik : i = k
        · rw [hik] at hs hg ⊢
          exact (h1.closed_iff hk hg.flight).mp (hstep.mp hrun hs hg)
        · exact hbefore i (by omega) hs hg
      · refine hstep.mpr fun hs hg => ?_
        exact (h1.closed_iff hk hg.flight).mpr (hall k (Nat.lt_succ_self k) hs hg)

/-- A scan comes upon no more files than there are in the buffer. -/
theorem unp_scan_length : ∀ (ms : List mbuf) (p : part) (fps : List ℕ),
    unp_scan p ms = some fps → fps.length ≤ (ms.map fun m => m.fps.length).sum := by
  intro ms
  induction ms with
  | nil =>
    intro p fps h
    cases p <;> cases h
    exact Nat.zero_le _
  | cons m ms ih =>
    intro p fps h
    rw [map_cons, sum_cons]
    cases p with
    | address =>
      have := ih .rights fps h
      omega
    | rights =>
      have h' : (unp_scan .data ms).map (m.fps ++ ·) = some fps := h
      obtain ⟨l, hl, rfl⟩ := Option.map_eq_some_iff.mp h'
      have := ih .data l hl
      rw [length_append]
      omega
    | data =>
      have h' : (if m.m_act then unp_scan .address ms else unp_scan .data ms) = some fps := h
      split_ifs at h' with ha
      · have := ih .address fps h'
        omega
      · have := ih .data fps h'
        omega

theorem file.rights_length (f : file) : f.rights.length ≤
    match f.f_data with
    | none => 0
    | some so => (so.sb_mb.map fun m => m.fps.length).sum := by
  unfold file.rights
  cases hd : f.dgram with
  | none => exact Nat.zero_le _
  | some so =>
    rw [(dgram_data hd).2.1]
    show ((unp_scan .address so.sb_mb).getD []).length ≤ (so.sb_mb.map fun m => m.fps.length).sum
    cases hs : unp_scan .address so.sb_mb with
    | none => exact Nat.zero_le _
    | some fps => exact unp_scan_length _ _ _ hs

/-- The bound on how deep `closef` calls itself. -/
theorem weight_le_inflight : weight nfile t ≤ inflight nfile t := by
  unfold weight inflight
  induction nfile with
  | zero => exact le_rfl
  | succ n ih =>
    have hlast := (t n).rights_length
    unfold total at ih ⊢
    rw [Finset.sum_range_succ, range_succ, map_append, sum_append,
      map_singleton, sum_singleton, Nat.cast_add]
    exact add_le_add ih (Int.ofNat_le.mpr hlast)

/-- The table when the mark phase has ended. -/
theorem Marked.swept {s : marking} (hwf : Wf nfile t) (h : Marked nfile t s) :
    Swept nfile t 0 s.file := by
  have hrefs : ∀ i, refs nfile s.file i = refs nfile t i := fun i =>
    total_congr fun j _ => by rw [h.like.rights]
  refine ⟨⟨fun i => ?_, h.exact_, fun i => Or.inl ?_, fun i hi => ?_, fun i _ => ?_,
    fun i hi h0 => ?_, fun i hv => ?_⟩, fun i hi => absurd hi (Nat.not_lt_zero i)⟩
  · rw [h.like i]
  · rw [h.like i]
  · rw [hrefs, h.like i, add_zero]
    exact hwf.msgcount i hi
  · unfold held
    rw [h.like i]
    ring
  · rw [h.like i] at h0 ⊢
    exact hwf.free i hi h0
  · rw [h.like i] at hv ⊢
    exact hwf.vnode i hv

/-- **What `unp_gc` is for**: it returns, it has marked the files that can be reached, and only
buffers of other files are not as they were. -/
def Collects (nfile : ℕ) (t : table) : Prop :=
  ∃ t', unp_gc nfile false t = .ok t' ∧ (∀ i, (t' i).FMARK = true ↔ Reachable nfile t i) ∧
    ∀ i, (t' i).f_data ≠ (t i).f_data → ¬ Reachable nfile t i

theorem unp_gc_eq (nfile : ℕ) (t : table) : unp_gc nfile false t =
    markloop nfile (nfile + 1) ⟨cleared t, 0⟩ >>= fun s =>
      (List.range nfile).foldlM (sweepfile (closef .ok (inflight nfile t + 1))) s.file := rfl

/-- **`unp_gc` collects** exactly when no buffer is locked, and each file that is garbage and no
socket has been dropped when the final scan comes to it. -/
theorem unp_gc_collects_iff (hwf : Wf nfile t) :
    Collects nfile t ↔ Unlocked nfile t ∧ Dropped nfile t := by
  have hfuel : weight nfile t ≤ (inflight nfile t + 1 : ℕ) := by
    have : weight nfile t ≤ inflight nfile t := weight_le_inflight
    omega
  constructor
  · rintro ⟨t', hrun, -, -⟩
    rw [unp_gc_eq] at hrun
    cases hmark : markloop nfile (nfile + 1) ⟨cleared t, 0⟩ with
    | error e =>
        rw [hmark] at hrun
        cases hrun
    | ok s =>
        rw [hmark] at hrun
        have hm := markloop_ok hwf _ _ s cleared_marks hmark
        have hsw := (sweep_spec hwf (hm.swept hwf) hfuel nfile le_rfl).1.mp ⟨t', hrun⟩
        exact ⟨hm.unlocked, fun i hs hg => hsw i hg.lt hs hg⟩
  · rintro ⟨hu, hdrop⟩
    obtain ⟨s, hmark⟩ := mark_total hwf hu
    have hm := markloop_ok hwf _ _ s cleared_marks hmark
    obtain ⟨hiff, hsw⟩ := sweep_spec hwf (hm.swept hwf) hfuel nfile le_rfl
    obtain ⟨t', hrun⟩ := hiff.mpr fun i _ hs hg => hdrop i hs hg
    have hk := hsw t' hrun
    refine ⟨t', ?_, hk.mark, fun i hne => ?_⟩
    · rw [unp_gc_eq, hmark]
      exact hrun
    · rcases hk.data i with heq | ⟨he, -⟩
      · exact absurd heq hne
      · exact he.unreachable

/-- A message to a datagram socket with the files `fps` in it. -/
def message (fps : List ℕ) : List mbuf := [⟨false, []⟩, ⟨false, fps⟩, ⟨true, []⟩]

/-- A datagram socket that is only in a message to itself, together with `fps`. -/
def selfish (fps : List ℕ) : file :=
  ⟨1, 1, .DTYPE_SOCKET, some ⟨.dgram, false, false, message fps⟩, false, false⟩

/-- A slot that is free. -/
def unused : file := ⟨0, 0, .DTYPE_VNODE, none, false, false⟩

/-- A table with one socket, which is garbage. -/
def loop : table := fun i => if i = 0 then selfish [0] else unused

theorem loop_rights (i : ℕ) : (loop i).rights = if i = 0 then [0] else [] := by
  unfold loop
  split_ifs <;> rfl

theorem loop_wf : Wf 1 loop := by
  refine ⟨fun i hi => ?_, fun i hi => ?_, fun j i h => ?_, fun i hi h0 => ?_, fun i hv => ?_,
    fun i so hi hd _ => ?_, fun i so hi hd hl => ?_⟩
  · obtain rfl : i = 0 := by omega
    rfl
  · obtain rfl : i = 0 := by omega
    exact le_rfl
  · have h2 := h.2
    rw [loop_rights] at h2
    split_ifs at h2
    · rw [List.mem_singleton.mp h2]
      exact Nat.one_pos
    · cases h2
  · obtain rfl : i = 0 := by omega
    cases h0
  · unfold loop at hv ⊢
    split_ifs at hv ⊢
    · cases hv
    · rfl
  · obtain rfl : i = 0 := by omega
    cases hd
    rfl
  · obtain rfl : i = 0 := by omega
    cases hd
    cases hl

theorem unp_gc_collects_iff_loop :
    Wf 1 loop ∧ (Collects 1 loop ↔ Unlocked 1 loop ∧ Dropped 1 loop) :=
  ⟨loop_wf, unp_gc_collects_iff loop_wf⟩

/-- A plain file, which is only in the message to the socket after it. -/
def sunk : table := fun i =>
  if i = 0 then ⟨1, 1, .DTYPE_VNODE, none, false, false⟩
  else if i = 1 then selfish [1, 0]
  else unused

theorem sunk_rights (i : ℕ) : (sunk i).rights = if i = 1 then [1, 0] else [] := by
  unfold sunk
  by_cases h0 : i = 0
  · rw [if_pos h0, h0]
    rfl
  · rw [if_neg h0]
    split_ifs <;> rfl

theorem sunk_wf : Wf 2 sunk := by
  refine ⟨fun i hi => ?_, fun i hi => ?_, fun j i h => ?_, fun i hi h0 => ?_, fun i hv => ?_,
    fun i so hi hd _ => ?_, fun i so hi hd hl => ?_⟩
  · obtain rfl | rfl : i = 0 ∨ i = 1 := by omega
    · rfl
    · rfl
  · obtain rfl | rfl : i = 0 ∨ i = 1 := by omega
    · exact le_rfl
    · exact le_rfl
  · have h2 := h.2
    rw [sunk_rights] at h2
    split_ifs at h2
    · simp only [mem_cons, not_mem_nil, or_false] at h2
      omega
    · cases h2
  · obtain rfl | rfl : i = 0 ∨ i = 1 := by omega
    · cases h0
    · cases h0
  · unfold sunk at hv ⊢
    split_ifs at hv ⊢
    · rfl
    · cases hv
    · rfl
  · obtain rfl | rfl : i = 0 ∨ i = 1 := by omega
    · cases hd
    · cases hd
      rfl
  · obtain rfl | rfl : i = 0 ∨ i = 1 := by omega
    · cases hd
    · cases hd
      cases hl

/-- **The plain file comes first**, and `unp_gc` panics. -/
theorem unp_gc_panics : Wf 2 sunk ∧ unp_gc 2 false sunk = .error (.panic "unp_gc") ∧
    ¬ Collects 2 sunk := by
  have hrun : unp_gc 2 false sunk = .error (.panic "unp_gc") := by rfl
  refine ⟨sunk_wf, hrun, fun ⟨t', ht', _⟩ => ?_⟩
  cases ht'

end Unp
