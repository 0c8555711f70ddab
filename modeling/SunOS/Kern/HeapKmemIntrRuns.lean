/-
# Every block freed at interrupt level is freed once (`sys/heap_kmem.c`)

The notes that wait are a chain through the blocks themselves, which nobody writes to, and a table.
The blocks passed to `kmem_free`, those in the hands of `check_need_to_free` and those that wait are
together the pieces of the blocks that were queued, each as often.
-/
import SunOS.Kern.HeapKmemIntr
import Mathlib.Data.List.Forall2
import Mathlib.Data.List.Count
import Mathlib.Tactic.Push

namespace KmemIntr

open Option
open List
open Bytes State

variable {m m' : kmem_info} {n b : need_to_free} {l w : List need_to_free} {ptr nbytes : UInt32}
  {mem mem' : ℕ → UInt8} {u : ℕ}

/-! ## The notes that wait -/

/-- From `n` on the notes are those of `l`, each kept by the block before. -/
def Threaded (mem : ℕ → UInt8) : need_to_free → List need_to_free → Prop
  | n, [] => n.addr = 0
  | n, e :: l => n = e ∧ e.addr ≠ 0 ∧ Threaded mem (.ofBytes (load mem e.addr.toNat 8)) l

/-- The notes that wait: those in the blocks, which have room for them, and those in the table. -/
def Waits (m : kmem_info) (w : List need_to_free) : Prop :=
  ∃ l, Threaded m.mem m.need_to_free_list l ∧ (∀ e ∈ l, 8 ≤ e.nbytes.toNat) ∧
    w = l ++ taken m.need_to_free

/-- Only the notes matter. -/
theorem Threaded.congr (h : Threaded mem n l)
    (hl : ∀ e ∈ l, ∀ u, e.addr.toNat ≤ u → u < e.addr.toNat + 8 → mem' u = mem u) :
    Threaded mem' n l := by
  induction l generalizing n with
  | nil => exact h
  | cons e l ih =>
    obtain ⟨rfl, h0, h⟩ := h
    refine ⟨rfl, h0, ?_⟩
    have hload : load mem' n.addr.toNat 8 = load mem n.addr.toNat 8 := by
      refine map_congr_left fun u hu => ?_
      rw [List.mem_range'_1] at hu
      exact hl n mem_cons_self u hu.1 hu.2
    rw [hload]
    exact ih h fun e he => hl e (mem_cons_of_mem _ he)

/-- A write beside the blocks that wait. -/
theorem Waits.write (h : Waits m w) {a : ℕ} {bs : List UInt8}
    (hdis : ∀ e ∈ w, ∀ u, a ≤ u → u < a + bs.length → e.covers u = false) :
    Waits { m with mem := store m.mem a bs } w := by
  obtain ⟨l, ht, hbig, rfl⟩ := h
  refine ⟨l, ht.congr fun e he u hlo hhi => ?_, hbig, rfl⟩
  refine if_neg ?_
  rintro ⟨ha, hb⟩
  have hcov := hdis e (mem_append_left _ he) u ha hb
  have hn := hbig e he
  simp only [need_to_free.covers, decide_eq_false_iff_not] at hcov
  omega

/-- **A note is taken**, or none waits. -/
theorem Waits.pick (h : Waits m w) :
    match KmemIntr.pick m with
    | some (n, m') => ∃ w', w = n :: w' ∧ Waits m' w'
    | none => w = [] := by
  obtain ⟨l, ht, hbig, rfl⟩ := h
  rw [KmemIntr.pick]
  cases l with
  | nil =>
    have h0 : m.need_to_free_list.addr = 0 := ht
    rw [if_neg (not_not.mpr h0)]
    cases hs : takeSlot m.need_to_free with
    | none => exact takeSlot_eq_none hs
    | some r =>
      obtain ⟨n, ntf⟩ := r
      exact ⟨taken ntf, (takeSlot_taken hs).1, [], h0, by simp, rfl⟩
  | cons e l =>
    obtain ⟨he, h0, ht⟩ := ht
    rw [he, if_pos h0]
    exact ⟨l ++ taken m.need_to_free, rfl, l, ht,
      fun e he => hbig e (mem_cons_of_mem _ he), rfl⟩

/-! ## Pieces of a block -/

/-- **A block in pieces**, cut at word boundaries. -/
inductive Splits : need_to_free → List need_to_free → Prop
  | whole (b : need_to_free) : Splits b [b]
  | cut {a b c : need_to_free} {l : List need_to_free} : a.addr = b.addr →
      c.addr.toNat = a.addr.toNat + a.nbytes.toNat → 4 ∣ c.addr.toNat →
      a.nbytes.toNat + c.nbytes.toNat = b.nbytes.toNat → Splits c l → Splits b (a :: l)

/-- Every byte of a block is in one of its pieces, and they have no other. -/
theorem Splits.countP (h : Splits b l) (u : ℕ) :
    l.countP (need_to_free.covers u) = if b.covers u then 1 else 0 := by
  induction h with
  | whole b =>
    rw [countP_cons, countP_nil, Nat.zero_add]
  | @cut a b c l haddr hc hw hsum _ ih =>
    rw [countP_cons, ih]
    simp only [need_to_free.covers, decide_eq_true_eq, haddr] at *
    split_ifs <;> lia

theorem countP_flatten {bs : List need_to_free} {parts : List (List need_to_free)}
    (h : List.Forall₂ Splits bs parts) (u : ℕ) :
    parts.flatten.countP (need_to_free.covers u) = bs.countP (need_to_free.covers u) := by
  induction h with
  | nil => rfl
  | cons hb _ ih => rw [flatten_cons, countP_append, hb.countP, ih, countP_cons,
      Nat.add_comm]

/-- A small block is noted in the table. -/
theorem Waits.small {depth : ℕ} (h : Waits m w)
    (hm : KmemIntr.kmem_free_intr depth ptr nbytes m = some m') (h0 : ptr ≠ 0)
    (hsmall : ¬ nbytes ≥ sizeofNeedToFree) :
    ∃ w', Waits m' w' ∧ w'.Perm (⟨ptr, nbytes⟩ :: w) := by
  cases depth with
  | zero => cases hm
  | succ depth =>
    rw [KmemIntr.kmem_free_intr, if_neg hsmall] at hm
    obtain ⟨ntf, hf, rfl⟩ := Option.map_eq_some_iff.mp hm
    obtain ⟨l, ht, hl, rfl⟩ := h
    refine ⟨l ++ taken ntf, ⟨l, ht, hl, rfl⟩, ?_⟩
    exact ((fill_taken (n := ⟨ptr, nbytes⟩) h0 hf).append_left l).trans perm_middle

/-- A block on a word boundary gets the note of the one before it. -/
theorem Waits.thread (h : Waits m w) (h0 : ptr ≠ 0) (hbig : nbytes ≥ sizeofNeedToFree)
    (hdis : ∀ e ∈ w, ∀ u, ptr.toNat ≤ u → u < ptr.toNat + nbytes.toNat → e.covers u = false) :
    Waits { m with
      mem := store m.mem ptr.toNat m.need_to_free_list.bytes
      need_to_free_list := ⟨ptr, nbytes⟩ } (⟨ptr, nbytes⟩ :: w) := by
  rw [ge_iff_le, UInt32.le_iff_toNat_le] at hbig
  have h8 : sizeofNeedToFree.toNat = 8 := rfl
  have hwrite : Waits { m with mem := store m.mem ptr.toNat m.need_to_free_list.bytes } w := h.write
    fun e he u hlo hhi => hdis e he u hlo (by rw [length_bytes] at hhi; omega)
  obtain ⟨l, ht, hl, rfl⟩ := hwrite
  refine ⟨⟨ptr, nbytes⟩ :: l, ⟨rfl, h0, ?_⟩, ?_, rfl⟩
  · have hload := load_store (m := m.mem) (a := ptr.toNat) (l := m.need_to_free_list.bytes)
    rw [length_bytes] at hload
    show Threaded _ (.ofBytes (load _ ptr.toNat 8)) l
    rw [hload, ofBytes_bytes]
    exact ht
  · intro e he
    rcases List.mem_cons.mp he with rfl | he
    · exact h8 ▸ hbig
    · exact hl e he

/-- **A block is queued**, in pieces. -/
theorem Waits.kmem_free_intr {depth : ℕ} (h : Waits m w)
    (hm : KmemIntr.kmem_free_intr depth ptr nbytes m = some m') (h0 : ptr ≠ 0)
    (hmax : ptr.toNat + nbytes.toNat ≤ 2 ^ 32)
    (hdis : ∀ e ∈ w, ∀ u, ptr.toNat ≤ u → u < ptr.toNat + nbytes.toNat → e.covers u = false) :
    ∃ l w', Splits ⟨ptr, nbytes⟩ l ∧ Waits m' w' ∧ w'.Perm (l ++ w) := by
  induction depth generalizing ptr nbytes m m' w with
  | zero => cases hm
  | succ depth ih =>
    by_cases hbig : nbytes ≥ sizeofNeedToFree
    swap
    · obtain ⟨w', hw', hp⟩ := h.small hm h0 hbig
      exact ⟨[⟨ptr, nbytes⟩], w', .whole _, hw', hp⟩
    rw [KmemIntr.kmem_free_intr, if_pos hbig] at hm
    split_ifs at hm with hal
    · -- the bytes before the word boundary, and the others
      obtain ⟨m1, hm1, hm2⟩ := Option.bind_eq_some_iff.mp hm
      have hi := toNat_ALIGNMORE ptr
      rw [ge_iff_le, UInt32.le_iff_toNat_le] at hbig
      have h8 : sizeofNeedToFree.toNat = 8 := rfl
      generalize ALIGNMORE ptr = i at *
      have hadd : (ptr + i).toNat = ptr.toNat + i.toNat := by
        rw [UInt32.toNat_add]
        lia
      have hsub : (nbytes - i).toNat = nbytes.toNat - i.toNat :=
        UInt32.toNat_sub_of_le _ _ (by rw [UInt32.le_iff_toNat_le]; lia)
      obtain ⟨w1, hw1, hp1⟩ := h.small hm1 h0
        (by rw [ge_iff_le, UInt32.le_iff_toNat_le]; lia)
      have h0' : ptr + i ≠ 0 := by
        intro hz
        rw [hz, UInt32.toNat_zero] at hadd
        lia
      obtain ⟨l, w2, hl, hw2, hp2⟩ := ih hw1 hm2 h0' (by lia) (by
        intro e he u hlo hhi
        rcases List.mem_cons.mp (hp1.mem_iff.mp he) with rfl | he
        · simp only [need_to_free.covers, decide_eq_false_iff_not]
          lia
        · exact hdis e he u (by lia) (by lia))
      refine ⟨⟨ptr, i⟩ :: l, w2, ?_, hw2, ?_⟩
      · exact .cut (c := ⟨ptr + i, nbytes - i⟩) rfl hadd (by show 4 ∣ (ptr + i).toNat; lia)
          (by show i.toNat + (nbytes - i).toNat = nbytes.toNat; lia) hl
      · exact hp2.trans (((hp1.append_left l).trans perm_middle))
    · obtain rfl := some.inj hm
      exact ⟨[⟨ptr, nbytes⟩], _, .whole _, h.thread h0 hbig hdis, List.Perm.refl _⟩

/-! ## Steps -/

variable {s : State} {d : Option need_to_free} {l1 l2 : List (Option need_to_free)}

/-- **The invariant.**  What was passed on, what is in hand and what waits are the pieces of the
blocks queued. -/
structure Inv (s : State) (w : List need_to_free) : Prop where
  waits : Waits s.info w
  once : ∃ parts, List.Forall₂ Splits s.queued parts ∧
    (s.passed ++ s.hands ++ w).Perm parts.flatten

/-- A byte of a block that waits has not been passed on. -/
theorem Inv.pending (h : Inv s w) (hn : n ∈ w) (hu : n.covers u) : s.Pending u := by
  obtain ⟨parts, hsplit, hperm⟩ := h.once
  have hcount := hperm.countP_eq (need_to_free.covers u)
  have hpos : 0 < w.countP (need_to_free.covers u) := List.countP_pos_iff.mpr ⟨n, hn, hu⟩
  rw [countP_flatten hsplit, countP_append, countP_append] at hcount
  rw [State.Pending]
  omega

/-- The calls of `check_need_to_free` before and after one of them. -/
theorem drains_split {ds : List (Option need_to_free)} {k : ℕ}
    (h : ds[k]? = some d) : ∃ l1 l2, ds = l1 ++ d :: l2 ∧ (∀ d', ds.set k d' = l1 ++ d' :: l2) ∧
      ds.eraseIdx k = l1 ++ l2 := by
  induction ds generalizing k with
  | nil => simp at h
  | cons c ds ih =>
    cases k with
    | zero =>
      obtain rfl : c = d := by simpa using h
      exact ⟨[], ds, rfl, fun _ => rfl, rfl⟩
    | succ k =>
      obtain ⟨l1, l2, rfl, hset, herase⟩ := ih (by simpa using h)
      refine ⟨c :: l1, l2, rfl, fun d' => ?_, ?_⟩
      · rw [set_cons_succ, hset]
        rfl
      · rw [eraseIdx_cons_succ, herase]
        rfl

/-- What is left to do before the calls of `check_need_to_free` end. -/
def work (s : State) (w : List need_to_free) : ℕ :=
  2 * w.length + s.hands.length + s.drains.length

theorem hands_split (h : s.drains = l1 ++ d :: l2) :
    s.hands = l1.filterMap id ++ (d.toList ++ l2.filterMap id) := by
  rw [hands, h, filterMap_append]
  cases d <;> rfl

/-- A block in hand is passed on. -/
theorem Inv.pass (s' : State) (h : Inv s w)
    (hd : s.drains = l1 ++ some n :: l2) (hd' : s'.drains = l1 ++ none :: l2)
    (hi : s'.info = s.info) (hq : s'.queued = s.queued) (hp : s'.passed = n :: s.passed) :
    Inv s' w ∧ work s' w < work s w := by
  obtain ⟨parts, hsplit, hperm⟩ := h.once
  have hh := hands_split hd
  have hh' := hands_split hd'
  refine ⟨⟨hi ▸ h.waits, parts, hq ▸ hsplit, ?_⟩, ?_⟩
  · refine List.Perm.trans ?_ hperm
    rw [hp, hh, hh']
    simp only [toList_none, toList_some, nil_append, append_assoc,
      cons_append]
    rw [← append_assoc, ← append_assoc s.passed]
    exact List.perm_middle.symm
  · rw [work, work, hh, hh', hd, hd']
    simp

/-- A note is taken in hand. -/
theorem Inv.take (s' : State) (h : Inv s (n :: w))
    (hd : s.drains = l1 ++ none :: l2) (hd' : s'.drains = l1 ++ some n :: l2)
    (hi : Waits s'.info w) (hq : s'.queued = s.queued) (hp : s'.passed = s.passed) :
    Inv s' w ∧ work s' w < work s (n :: w) := by
  obtain ⟨parts, hsplit, hperm⟩ := h.once
  have hh := hands_split hd
  have hh' := hands_split hd'
  refine ⟨⟨hi, parts, hq ▸ hsplit, ?_⟩, ?_⟩
  · refine List.Perm.trans ?_ hperm
    rw [hp, hh, hh']
    simp only [toList_none, toList_some, nil_append, append_assoc,
      cons_append]
    exact (List.perm_middle.symm.append_left _).append_left _
  · rw [work, work, hh, hh', hd, hd']
    simp
    omega

/-- A call ends. -/
theorem Inv.leave (s' : State) (h : Inv s w)
    (hd : s.drains = l1 ++ none :: l2) (hd' : s'.drains = l1 ++ l2)
    (hi : s'.info = s.info) (hq : s'.queued = s.queued) (hp : s'.passed = s.passed) :
    Inv s' w ∧ work s' w < work s w := by
  obtain ⟨parts, hsplit, hperm⟩ := h.once
  have hh : s'.hands = s.hands := by
    rw [hands_split hd, hands, hd', filterMap_append]
    rfl
  refine ⟨⟨hi ▸ h.waits, parts, hq ▸ hsplit, ?_⟩, ?_⟩
  · rw [hp, hh]
    exact hperm
  · rw [work, work, hh, hd, hd']
    simp

/-- **A step of `check_need_to_free`** takes a note, passes a block on, or ends as nothing waits. -/
theorem Inv.drain {s s' : State} {k : ℕ} (h : Inv s w) (hs : s.drain k = some s') :
    ∃ w', Inv s' w' ∧ work s' w' < work s w ∧
      (s'.drains.length < s.drains.length → w = []) := by
  rw [State.drain] at hs
  cases hk : s.drains[k]? with
  | none => simp [hk] at hs
  | some d =>
    obtain ⟨l1, l2, heq, hset, herase⟩ := drains_split hk
    rw [hk] at hs
    cases d with
    | some n =>
      have hs' := some.inj hs
      obtain ⟨hinv, hwork⟩ := h.pass s' heq (hs' ▸ hset none) (hs' ▸ rfl) (hs' ▸ rfl) (hs' ▸ rfl)
      exact ⟨w, hinv, hwork, by simp [← hs']⟩
    | none =>
      have hpick := h.waits.pick
      cases hp : pick s.info with
      | some r =>
        obtain ⟨n, info⟩ := r
        rw [hp] at hpick hs
        obtain ⟨w', rfl, hw'⟩ := hpick
        have hs' := some.inj hs
        obtain ⟨hinv, hwork⟩ := h.take s' heq (hs' ▸ hset (some n)) (hs' ▸ hw') (hs' ▸ rfl)
          (hs' ▸ rfl)
        exact ⟨w', hinv, hwork, by simp [← hs']⟩
      | none =>
        rw [hp] at hpick hs
        have hs' := some.inj hs
        obtain ⟨hinv, hwork⟩ := h.leave s' heq (hs' ▸ herase) (hs' ▸ rfl) (hs' ▸ rfl) (hs' ▸ rfl)
        exact ⟨w, hinv, hwork, fun _ => hpick⟩

/-- **A step.** -/
theorem Inv.step {s s' : State} {e : Event} (h : Inv s w) (ho : s.Owned e) (hs : Step s e s') :
    ∃ w', Inv s' w' := by
  cases e with
  | kmem_free_intr ptr nbytes =>
    obtain ⟨info, hi, rfl⟩ := Option.map_eq_some_iff.mp hs
    obtain ⟨h0, hmax, hfree⟩ := ho
    obtain ⟨l, w', hl, hw', hp⟩ := h.waits.kmem_free_intr hi h0 hmax fun e he u hlo hhi => by
      by_contra hc
      exact hfree u hlo hhi (h.pending he (by simpa using hc))
    obtain ⟨parts, hsplit, hperm⟩ := h.once
    refine ⟨w', hw', l :: parts, .cons hl hsplit, ?_⟩
    rw [flatten_cons]
    refine (hp.append_left _).trans ?_
    rw [← append_assoc]
    refine (List.perm_append_comm.append_right w).trans ?_
    rw [append_assoc]
    exact hperm.append_left l
  | check_need_to_free =>
    obtain rfl := some.inj hs
    exact ⟨w, h.waits, h.once⟩
  | drain k =>
    obtain ⟨w', hw', -⟩ := h.drain hs
    exact ⟨w', hw'⟩
  | write a bs =>
    obtain rfl := some.inj hs
    refine ⟨w, h.waits.write fun e he u hlo hhi => ?_, h.once⟩
    by_contra hc
    exact ho u hlo hhi (h.pending he (by simpa using hc))

/-! ## Runs -/

theorem Inv.start (mem : ℕ → UInt8) (nbytes : UInt32) : Inv (start mem nbytes) [] where
  waits := ⟨[], rfl, by simp, rfl⟩
  once := ⟨[], .nil, List.Perm.refl _⟩

/-- A step of a call of `check_need_to_free`. -/
def isDrain : Event → Bool
  | .drain _ => true
  | _ => false

def isCall : Event → Bool
  | .check_need_to_free => true
  | _ => false

def arrives : Event → Bool
  | .kmem_free_intr _ _ => true
  | _ => false

/-- **While nothing new arrives** every step of a call brings its end nearer. -/
theorem Inv.quiet {s s' : State} {es : List Event} (h : Inv s w) (hes : ∀ e ∈ es, arrives e = false)
    (hrun : Run (Guarded Owned Step) s es s') :
    es.countP isDrain ≤ work s w + es.countP isCall := by
  induction es generalizing s w with
  | nil => exact Nat.zero_le _
  | cons e es ih =>
    obtain ⟨t, ⟨ho, hs⟩, hrest⟩ := Run.cons_iff.mp hrun
    have hes' : ∀ e ∈ es, arrives e = false := fun e he => hes e (mem_cons_of_mem _ he)
    rw [countP_cons, countP_cons]
    cases e with
    | kmem_free_intr ptr nbytes => exact absurd (hes _ mem_cons_self) (by simp [arrives])
    | check_need_to_free =>
      obtain rfl := some.inj hs
      have h' : Inv { s with drains := none :: s.drains } w := ⟨h.waits, h.once⟩
      have := ih h' hes' hrest
      have hw : work { s with drains := none :: s.drains } w = work s w + 1 := rfl
      simp only [isDrain, isCall, Bool.false_eq_true, if_false, if_true]
      omega
    | drain k =>
      obtain ⟨w', h', hlt, -⟩ := h.drain hs
      have := ih h' hes' hrest
      simp only [isDrain, isCall, Bool.false_eq_true, if_false, if_true]
      omega
    | write a bs =>
      obtain rfl := some.inj hs
      have h' : Inv { s with info := { s.info with mem := store s.info.mem a bs } } w := by
        refine ⟨h.waits.write fun e he u hlo hhi => ?_, h.once⟩
        by_contra hc
        exact ho u hlo hhi (h.pending he (by simpa using hc))
      have hquiet := ih h' hes' hrest
      exact hquiet

/-- **Every block is freed once.**  In every run what was passed to `kmem_free`, what is in hand and
what waits are the pieces of the blocks queued, cut at word boundaries; a call of
`check_need_to_free` can always go on, ends only when nothing waits, and while nothing new arrives
the calls make a bounded number of steps. -/
theorem freed_once (mem : ℕ → UInt8) (nbytes : UInt32) {es : List Event} {s : State}
    (hrun : Run (Guarded Owned Step) (start mem nbytes) es s) :
    ∃ w, Waits s.info w ∧
      (∃ parts, List.Forall₂ Splits s.queued parts ∧
        (s.passed ++ s.hands ++ w).Perm parts.flatten) ∧
      (∀ k < s.drains.length, ∃ s', Step s (.drain k) s' ∧
        (s'.drains.length < s.drains.length → w = [])) ∧
      ∀ es' s', (∀ e ∈ es', arrives e = false) → Run (Guarded Owned Step) s es' s' →
        es'.countP isDrain ≤ work s w + es'.countP isCall := by
  obtain ⟨w, h⟩ : ∃ w, Inv s w := by
    refine Run.invariant (I := fun s => ∃ w, Inv s w) ?_ hrun ⟨[], Inv.start mem nbytes⟩
    rintro s e t ⟨w, h⟩ ⟨ho, hs⟩
    exact h.step ho hs
  refine ⟨w, h.waits, h.once, fun k hk => ?_, fun es' s' hes hrun => h.quiet hes hrun⟩
  obtain ⟨s', hs'⟩ : ∃ s', s.drain k = some s' := by
    rw [State.drain, List.getElem?_eq_getElem hk]
    cases s.drains[k] with
    | some n => exact ⟨_, rfl⟩
    | none => cases pick s.info <;> exact ⟨_, rfl⟩
  obtain ⟨-, -, -, hend⟩ := h.drain hs'
  exact ⟨s', hs', hend⟩

/-- A block of 20 bytes that starts two bytes before a word boundary, and a call that takes a note
of it. -/
theorem freed_once_unaligned :
    ∃ (s : State) (w : List need_to_free), Waits s.info w ∧ s.queued = [⟨4098, 20⟩] ∧
      s.hands = [⟨4100, 18⟩] ∧
      ∃ parts, List.Forall₂ Splits s.queued parts ∧
        (s.passed ++ s.hands ++ w).Perm parts.flatten := by
  obtain ⟨s, hrun, hq, hh⟩ : ∃ s, Run (Guarded Owned Step) (start (fun _ => 0) 0)
      [.kmem_free_intr 4098 20, .check_need_to_free, .drain 0] s ∧ s.queued = [⟨4098, 20⟩] ∧
        s.hands = [⟨4100, 18⟩] := by
    refine ⟨_, Run.cons_iff.mpr ⟨_, ⟨?_, rfl⟩, Run.cons_iff.mpr ⟨_, ⟨?_, rfl⟩,
      Run.cons_iff.mpr ⟨_, ⟨?_, rfl⟩, .nil _⟩⟩⟩, ?_, ?_⟩
    · exact ⟨by decide, by decide, fun u _ _ => Nat.lt_irrefl 0⟩
    · exact trivial
    · exact trivial
    · rfl
    · rfl
  obtain ⟨w, hw, hparts, -⟩ := freed_once (fun _ => 0) 0 hrun
  exact ⟨s, w, hw, hq, hh, hparts⟩

end KmemIntr
