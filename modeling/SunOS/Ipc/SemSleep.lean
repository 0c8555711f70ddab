/-
# Sleeping in `semop`

A process sleeps on a counter of the semaphore its array is stuck at.  Counters are
zeroed by those who wake, and counted up again by those who look and sleep again; a
sleeper that a signal takes away is counted down, by way of a wakeup if the counter would
reach zero.  So a counter with a sleeper is never zero, and a store that could let the
sleeper go on wakes it.
-/
import SunOS.Ipc.SemRuns
import Mathlib.Algebra.Order.BigOperators.Group.Finset
import Mathlib.Algebra.BigOperators.Ring.Finset

namespace IpcSem

open Finset
open Ipc SortedTable

variable {si : seminfo} {s s0 s1 s' t : State} {p q up x y n m base i : ℕ}
  {id low high semid v pid : ℤ}
  {op : sembuf} {uops done d : List sembuf} {ch ch' : Chan} {o : Outcome} {e : Errno} {st : pstate}
  {r : Result} {u : user} {c : sleeper}

/-! ## Sleepers -/

/-- Every counter with a sleeper on it is nonzero. -/
def Counted (s : State) : Prop := ∀ q c, s.proc q = .asleep c → s.count c.semp c.chan ≠ 0

/-- Nobody sleeps on counter `ch` of semaphore `x`. -/
def NoneAsleep (s : State) (x : ℕ) (ch : Chan) : Prop :=
  ∀ q c, s.proc q = .asleep c → ¬ (c.semp = x ∧ c.chan = ch)

/-- The process is asleep on counter `ch` of semaphore `x`, or a signal took it away and
it has not counted itself down yet. -/
def waiting (st : pstate) (x : ℕ) (ch : Chan) : Bool :=
  match st with
  | .asleep c => c.semp = x ∧ c.chan = ch
  | .woken c true => c.semp = x ∧ c.chan = ch
  | _ => false

/-- The number of waiting processes. -/
def waiters (si : seminfo) (s : State) (x : ℕ) (ch : Chan) : ℕ :=
  ((Finset.range si.nproc).filter fun q => waiting (s.proc q) x ch = true).card

theorem waiters_le (si : seminfo) (s : State) (x : ℕ) (ch : Chan) :
    waiters si s x ch ≤ si.nproc := by
  refine (card_filter_le _ _).trans ?_
  rw [card_range]

/-- A process that changes its state leaves and joins. -/
theorem waiters_setproc (s : State) (st : pstate) (x : ℕ) (ch : Chan) (hp : p < si.nproc) :
    waiters si (s.setproc p st) x ch + (if waiting (s.proc p) x ch = true then 1 else 0) =
      waiters si s x ch + if waiting st x ch = true then 1 else 0 := by
  have hmem : p ∈ Finset.range si.nproc := Finset.mem_range.mpr hp
  unfold waiters
  rw [card_filter, card_filter, ← add_sum_erase _ _ hmem,
    ← add_sum_erase (Finset.range si.nproc) (fun q =>
      if waiting (s.proc q) x ch = true then 1 else 0) hmem,
    setproc_self]
  have hrest : ∑ q ∈ (Finset.range si.nproc).erase p,
        (if waiting ((s.setproc p st).proc q) x ch = true then 1 else 0) =
      ∑ q ∈ (Finset.range si.nproc).erase p, if waiting (s.proc q) x ch = true then 1 else 0 := by
    refine sum_congr rfl fun q hq => ?_
    have hqp : (s.setproc p st).proc q = s.proc q :=
      setproc_of_ne (ne_of_mem_erase hq)
    rw [hqp]
  rw [hrest]
  omega

/-- What the calls do to other processes: they only wake, and a counter that changes
becomes zero. -/
structure Benign (s s' : State) : Prop where
  asleep : ∀ q c, s'.proc q = .asleep c → s.proc q = .asleep c
  outside : ∀ q, s'.proc q = .user ↔ s.proc q = .user
  stays : ∀ q, (∀ c, s.proc q ≠ .asleep c) → s'.proc q = s.proc q
  counted : Counted s → Counted s'
  waits : ∀ x ch, s'.count x ch = 0 ∨
    s'.count x ch = s.count x ch ∧ ∀ q, waiting (s'.proc q) x ch = waiting (s.proc q) x ch

theorem Benign.trans (h : Benign s s1) (h' : Benign s1 s') : Benign s s' := by
  refine ⟨fun q c hq => h.asleep q c (h'.asleep q c hq), fun q =>
    (h'.outside q).trans (h.outside q),
    fun q hq => ?_, fun hc => h'.counted (h.counted hc), fun x ch => ?_⟩
  · have h1 := h.stays q hq
    rw [← h1]
    exact h'.stays q (by rwa [h1])
  · rcases h'.waits x ch with h1 | ⟨h1, h2⟩
    · exact .inl h1
    · rcases h.waits x ch with h3 | ⟨h3, h4⟩
      · exact .inl (h1.trans h3)
      · exact .inr ⟨h1.trans h3, fun q => (h2 q).trans (h4 q)⟩

/-- A change that leaves processes and counters alone. -/
theorem Benign.of_eq (hp : s'.proc = s.proc) (hc : ∀ x ch, s'.count x ch = s.count x ch) :
    Benign s s' := by
  refine ⟨fun q c hq => by rwa [hp] at hq, fun q => by rw [hp], fun q _ => by rw [hp],
    fun h q c hq => ?_, fun x ch => ?_⟩
  · rw [hc]
    rw [hp] at hq
    exact h q c hq
  · exact .inr ⟨hc x ch, fun q => by rw [hp]⟩

theorem NoneAsleep.benign (h : NoneAsleep s x ch) (hb : Benign s s') : NoneAsleep s' x ch :=
  fun q c hq => h q c (hb.asleep q c hq)

theorem setcount_count : (s.setcount x v ch).count y ch' =
    if y = x ∧ ch' = ch then ushort v else s.count y ch' := by
  by_cases h : y = x
  · rw [h]
    cases ch <;> cases ch' <;> simp [State.count, State.setcount]
  · rw [if_neg fun h1 => h h1.1]
    cases ch <;> cases ch' <;> simp [State.count, State.setcount, Function.update_of_ne h]

theorem setcount_proc : (s.setcount x v ch).proc = s.proc := by
  cases ch <;> rfl

theorem wakeup_asleep (h : (s.wakeup x ch).proc q = .asleep c) :
    s.proc q = .asleep c ∧ ¬ (c.semp = x ∧ c.chan = ch) := by
  unfold State.wakeup at h
  simp only at h
  cases hq : s.proc q with
  | user => simp [hq] at h
  | woken c' b => simp [hq] at h
  | asleep c' =>
    rw [hq] at h
    simp only at h
    by_cases hc : c'.semp = x ∧ c'.chan = ch
    · rw [if_pos hc] at h
      cases h
    · rw [if_neg hc] at h
      cases h
      exact ⟨rfl, hc⟩

/-- Zero a counter and wake up its sleepers. -/
theorem benign_clear : Benign s ((s.setcount x 0 ch).wakeup x ch) ∧
    NoneAsleep ((s.setcount x 0 ch).wakeup x ch) x ch := by
  have hold : ∀ q c, ((s.setcount x 0 ch).wakeup x ch).proc q = .asleep c →
      s.proc q = .asleep c ∧ ¬ (c.semp = x ∧ c.chan = ch) := by
    intro q c hq
    have h1 := wakeup_asleep hq
    rwa [setcount_proc] at h1
  have hcount : ∀ y ch', ((s.setcount x 0 ch).wakeup x ch).count y ch' =
      if y = x ∧ ch' = ch then 0 else s.count y ch' := fun y ch' => setcount_count
  refine ⟨⟨fun q c hq => (hold q c hq).1, fun q => ?_, fun q hq => ?_, fun hc q c hq => ?_,
    fun y ch' => ?_⟩, fun q c hq => (hold q c hq).2⟩
  · unfold State.wakeup
    simp only [setcount_proc]
    cases s.proc q with
    | user => simp
    | woken c b => simp
    | asleep c =>
      simp only
      split <;> simp
  · unfold State.wakeup
    simp only [setcount_proc]
  · obtain ⟨h1, h2⟩ := hold q c hq
    rw [hcount, if_neg h2]
    exact hc q c h1
  · rw [hcount]
    by_cases hy : y = x ∧ ch' = ch
    · rw [if_pos hy]
      exact .inl rfl
    · rw [if_neg hy]
      refine .inr ⟨rfl, fun q => ?_⟩
      unfold State.wakeup
      simp only [setcount_proc]
      cases s.proc q with
      | user => rfl
      | woken c b => rfl
      | asleep c =>
        simp only
        by_cases hc : c.semp = x ∧ c.chan = ch
        · rw [if_pos hc]
          simp only [waiting]
          rw [eq_comm, decide_eq_false_iff_not]
          rintro ⟨rfl, rfl⟩
          exact hy hc
        · rw [if_neg hc]

theorem benign_wake : Benign s (s.wake x ch) := by
  unfold State.wake
  by_cases h : s.count x ch ≠ 0
  · rw [if_pos h]
    exact benign_clear.1
  · rw [if_neg h]
    exact .of_eq rfl fun _ _ => rfl

theorem wake_none (x : ℕ) (ch : Chan) (hc : Counted s) : NoneAsleep (s.wake x ch) x ch := by
  unfold State.wake
  by_cases h : s.count x ch ≠ 0
  · rw [if_pos h]
    exact benign_clear.2
  · rw [if_neg h]
    rintro q c hq ⟨rfl, rfl⟩
    exact h (hc q c hq)

theorem benign_setval : Benign s (s.setval x v) := .of_eq rfl fun _ _ => setval_count

theorem benign_setpid : Benign s (s.setpid x v) := by
  refine .of_eq rfl fun y ch => ?_
  by_cases h : y = x
  · cases ch <;> simp only [State.count, State.setpid, h, Function.update_self]
  · cases ch <;> simp only [State.count, State.setpid, Function.update_of_ne h]

/-! ## Stores that wake -/

/-- A change that wakes whoever it could let go on: a value with a `semncnt` sleeper left
has not grown, one with a `semzcnt` sleeper left has not become zero. -/
structure Quiet (s s' : State) : Prop extends Benign s s' where
  low : Counted s → ∀ q c, s'.proc q = .asleep c → c.chan = .semncnt →
    (s'.sem c.semp).semval ≤ (s.sem c.semp).semval
  nonzero : Counted s → ∀ q c, s'.proc q = .asleep c → c.chan = .semzcnt →
    (s.sem c.semp).semval ≠ 0 → (s'.sem c.semp).semval ≠ 0

theorem Quiet.trans (h : Quiet s s1) (h' : Quiet s1 s') : Quiet s s' := by
  refine ⟨h.toBenign.trans h'.toBenign, fun hc q c hq hch => ?_, fun hc q c hq hch h0 => ?_⟩
  · exact (h'.low (h.counted hc) q c hq hch).trans (h.low hc q c (h'.asleep q c hq) hch)
  · exact h'.nonzero (h.counted hc) q c hq hch (h.nonzero hc q c (h'.asleep q c hq) hch h0)

theorem Benign.quiet (h : Benign s s') (hv : ∀ x, (s'.sem x).semval = (s.sem x).semval) :
    Quiet s s' := by
  refine ⟨h, fun _ q c _ _ => ?_, fun _ q c _ _ h0 => ?_⟩
  · rw [hv]
  · rwa [hv]

theorem Quiet.of_eq (hp : s'.proc = s.proc) (hs : s'.sem = s.sem) : Quiet s s' := by
  refine (Benign.of_eq hp fun x ch => ?_).quiet fun x => by rw [hs]
  cases ch <;> simp only [State.count, hs]

/-- A store to `x` followed by the wakeups it calls for. -/
theorem Benign.store (h : Benign s s') (hv : ∀ y, y ≠ x → (s'.sem y).semval = (s.sem y).semval)
    (hn : Counted s → (s.sem x).semval < (s'.sem x).semval → NoneAsleep s' x .semncnt)
    (hz : Counted s → (s'.sem x).semval = 0 → (s.sem x).semval ≠ 0 → NoneAsleep s' x .semzcnt) :
    Quiet s s' := by
  refine ⟨h, fun hc q c hq hch => ?_, fun hc q c hq hch h0 => ?_⟩
  · by_cases hx : c.semp = x
    · rw [hx]
      by_contra hlt
      exact hn hc (by omega) q c hq ⟨hx, hch⟩
    · rw [hv _ hx]
  · by_cases hx : c.semp = x
    · intro h1
      rw [hx] at h1 h0
      exact hz hc h1 h0 q c hq ⟨hx, hch⟩
    · rwa [hv _ hx]

theorem perform_quiet (hlo : 0 ≤ (s.sem x).semval + op.sem_op)
    (hhi : (s.sem x).semval + op.sem_op < 65536) : Quiet s (perform op x s) := by
  have hval := ushort_of_fits hlo hhi
  have hb : Benign s (perform op x s) := by
    unfold perform
    simp only
    split <;> split
    · exact (benign_setval.trans benign_wake).trans benign_wake
    · exact benign_setval.trans benign_wake
    · exact benign_setval.trans benign_wake
    · exact benign_setval
  refine hb.store (x := x) (fun y hy => ?_) (fun hc hlt => ?_) fun hc hz _ => ?_
  · rw [perform_semval, if_neg hy]
  · rw [perform_semval, if_pos rfl] at hlt
    unfold perform
    simp only
    rw [if_pos (by omega : 0 < op.sem_op)]
    have h1 := wake_none x .semncnt ((benign_setval (x := x)
      (v := (s.sem x).semval + op.sem_op)).counted hc)
    split
    · exact h1.benign benign_wake
    · exact h1
  · rw [perform_semval, if_pos rfl] at hz
    unfold perform
    simp only
    split
    · rw [if_pos (by rw [wake_semval, setval_semval, if_pos rfl]; exact hz)]
      exact wake_none x _ (benign_wake.counted (benign_setval.counted hc))
    · rw [if_pos (by rw [setval_semval, if_pos rfl]; exact hz)]
      exact wake_none x _ (benign_setval.counted hc)

theorem semset_quiet {w : ℕ} (hw : w < 65536) : Quiet s (semset x w pid s) := by
  have hval : ushort (w : ℤ) = w := by
    have := ushort_of_fits (v := (w : ℤ)) (by omega) (by omega)
    omega
  have hv : ∀ y, ((semset x w pid s).sem y).semval = if y = x then w else (s.sem y).semval := by
    intro y
    unfold semset
    split <;> rw [setpid_semval, wake_semval, setval_semval, hval]
  have hb : Benign s (semset x w pid s) := by
    unfold semset
    split
    · exact (benign_setval.trans benign_wake).trans benign_setpid
    · exact (benign_setval.trans benign_wake).trans benign_setpid
  refine hb.store (x := x) (fun y hy => ?_) (fun hc hlt => ?_) fun hc hz _ => ?_
  · rw [hv, if_neg hy]
  · rw [hv, if_pos rfl] at hlt
    unfold semset
    simp only
    rw [if_pos (by omega)]
    exact (wake_none x _ (benign_setval.counted hc)).benign benign_setpid
  · rw [hv, if_pos rfl] at hz
    unfold semset
    simp only
    rw [if_neg (by omega)]
    exact (wake_none x _ (benign_setval.counted hc)).benign benign_setpid

theorem semrm_quiet : Quiet s (semrm x n s) := by
  induction n generalizing x s with
  | zero => exact Quiet.of_eq rfl rfl
  | succ n ih =>
    refine Quiet.trans ?_ ih
    have h0 : Benign s ((s.setval x 0).setpid x 0) := benign_setval.trans benign_setpid
    have hb := (h0.trans (@benign_wake _ x .semncnt)).trans (@benign_wake _ x .semzcnt)
    refine hb.store (x := x) (fun y hy => ?_) (fun hc _ => ?_) fun hc _ _ => ?_
    · rw [wake_semval, wake_semval, setpid_semval, setval_semval, if_neg hy]
    · exact (wake_none x _ (h0.counted hc)).benign benign_wake
    · exact wake_none x _ (benign_wake.counted (h0.counted hc))

theorem semsetall_quiet {vals : ℕ → ℕ} (h : ∀ j, i ≤ j → j < i + n → vals j < 65536) :
    Quiet s (semsetall x i vals pid n s) := by
  induction n generalizing x i s with
  | zero => exact Quiet.of_eq rfl rfl
  | succ n ih =>
    exact (semset_quiet (h i le_rfl (by omega))).trans
      (ih fun j h1 h2 => h j (by omega) (by omega))

theorem exitadj_quiet {ent : undo} : Quiet s (exitadj si ent s) := by
  unfold exitadj
  split
  · exact Quiet.of_eq rfl rfl
  · rename_i sp _
    simp only
    generalize (s.sema sp).sem_base + ent.un_num.toNat = x
    split
    · exact Quiet.of_eq rfl rfl
    · rename_i hv
      have hmx := si.semvmx_le
      unfold SEMVMX at hmx
      have hval := ushort_of_fits (v := (s.sem x).semval + ent.un_aoe) (by lia) (by lia)
      have hset : ∀ y, ((s.setval x ((s.sem x).semval + ent.un_aoe)).sem y).semval =
          if y = x then ushort ((s.sem x).semval + ent.un_aoe) else (s.sem y).semval :=
        fun y => setval_semval
      have hb : Benign s (s.setval x ((s.sem x).semval + ent.un_aoe)) := benign_setval
      by_cases hz : ((s.sem x).semval : ℤ) + ent.un_aoe = 0 <;> by_cases ha : 0 < ent.un_aoe
      · lia
      · rw [if_pos hz, if_neg ha]
        refine (hb.trans benign_wake).store (x := x) (fun y hy => ?_) (fun hc hlt => ?_)
          fun hc _ _ => wake_none x _ (hb.counted hc)
        · rw [wake_semval, hset, if_neg hy]
        · rw [wake_semval, hset, if_pos rfl] at hlt
          lia
      · rw [if_neg hz, if_pos ha]
        refine (hb.trans benign_wake).store (x := x) (fun y hy => ?_)
          (fun hc _ => wake_none x _ (hb.counted hc)) fun hc hz' _ => ?_
        · rw [wake_semval, hset, if_neg hy]
        · rw [wake_semval, hset, if_pos rfl] at hz'
          lia
      · rw [if_neg hz, if_neg ha]
        refine hb.store (x := x) (fun y hy => ?_) (fun hc hlt => ?_) fun hc hz' _ => ?_
        · rw [hset, if_neg hy]
        · rw [hset, if_pos rfl] at hlt
          lia
        · rw [hset, if_pos rfl] at hz'
          lia

/-! ## Blocked arrays -/

/-- The operation that sleeper `c` is stuck at cannot proceed at the values of `s`: with
the operations before it applied, the value is too small; or the value is not zero, unless
the operations before it raise it. -/
def Blocked (s : State) (c : sleeper) : Prop :=
  ∃ op, c.uops[c.i]? = some op ∧
    match c.chan with
    | .semncnt => op.sem_op < 0 ∧
        (s.sem c.semp).semval + net (c.uops.take c.i) op.sem_num.toNat < -op.sem_op
    | .semzcnt => op.sem_op = 0 ∧
        ((s.sem c.semp).semval ≠ 0 ∨ 0 < net (c.uops.take c.i) op.sem_num.toNat)

theorem Blocked.mono (h : Blocked s c)
    (hlow : c.chan = .semncnt → (s'.sem c.semp).semval ≤ (s.sem c.semp).semval)
    (hnz : c.chan = .semzcnt → (s.sem c.semp).semval ≠ 0 → (s'.sem c.semp).semval ≠ 0) :
    Blocked s' c := by
  obtain ⟨op, h1, h2⟩ := h
  refine ⟨op, h1, ?_⟩
  cases hch : c.chan with
  | semncnt =>
    rw [hch] at h2
    have h3 := hlow hch
    omega
  | semzcnt =>
    rw [hch] at h2
    exact ⟨h2.1, h2.2.imp (hnz hch) id⟩

/-- **The invariant of the sleepers.** -/
structure Lull (si : seminfo) (s : State) : Prop where
  counted : Counted s
  blocked : ∀ q c, s.proc q = .asleep c → Blocked s c
  bounded : ∀ x ch, s.count x ch ≤ waiters si s x ch
  inTable : ∀ q, s.proc q ≠ .user → q < si.nproc

theorem Lull.quiet (h : Lull si s) (hq : Quiet s s') : Lull si s' := by
  refine ⟨hq.counted h.counted, fun q c hc => ?_, fun x ch => ?_, fun q hu => ?_⟩
  · exact (h.blocked q c (hq.asleep q c hc)).mono (hq.low h.counted q c hc)
      (hq.nonzero h.counted q c hc)
  · rcases hq.waits x ch with h1 | ⟨h1, h2⟩
    · rw [h1]
      exact Nat.zero_le _
    · have h3 : waiters si s' x ch = waiters si s x ch := by
        unfold waiters
        congr 1
        refine filter_congr fun q _ => ?_
        rw [h2]
      rw [h1, h3]
      exact h.bounded x ch
  · exact h.inTable q fun h1 => hu ((hq.outside q).mpr h1)

/-- A process that is not waiting leaves its call. -/
theorem Lull.leave (h : Lull si s) (hw : ∀ x ch, waiting (s.proc p) x ch = false) :
    Lull si (s.setproc p .user) := by
  have hne : ∀ q, q ≠ p → (s.setproc p .user).proc q = s.proc q :=
    fun q hq => setproc_of_ne hq
  have hold : ∀ q c, (s.setproc p .user).proc q = .asleep c → s.proc q = .asleep c := by
    intro q c hq
    by_cases hqp : q = p
    · rw [hqp, setproc_self] at hq
      cases hq
    · rwa [hne q hqp] at hq
  refine ⟨fun q c hq => h.counted q c (hold q c hq), fun q c hq => h.blocked q c (hold q c hq),
    fun x ch => ?_, fun q hu => ?_⟩
  · refine (h.bounded x ch).trans (card_le_card fun q hq => ?_)
    obtain ⟨h1, h2⟩ := Finset.mem_filter.mp hq
    refine Finset.mem_filter.mpr ⟨h1, ?_⟩
    rw [hne]
    · exact h2
    · rintro rfl
      rw [hw] at h2
      cases h2
  · by_cases hqp : q = p
    · rw [hqp, setproc_self] at hu
      exact absurd rfl hu
    · rw [hne q hqp] at hu
      exact h.inTable q hu

/-- A process goes to sleep on a counter that it has counted up. -/
theorem Lull.sleep (h : Lull si s) (hp : p < si.nproc) (hw : ∀ x ch,
    waiting (s.proc p) x ch = false)
    (hb : Blocked s c) :
    Lull si ((s.setcount c.semp (s.count c.semp c.chan + 1) c.chan).setproc p (.asleep c)) := by
  have hproc : ∀ q, q ≠ p →
      ((s.setcount c.semp (s.count c.semp c.chan + 1) c.chan).setproc p (.asleep c)).proc q =
        s.proc q := by
    intro q hq
    have h1 : ((s.setcount c.semp (s.count c.semp c.chan + 1) c.chan).setproc p
      (.asleep c)).proc q =
        (s.setcount c.semp (s.count c.semp c.chan + 1) c.chan).proc q := setproc_of_ne hq
    rw [h1, setcount_proc]
  have hwait : ∀ x ch, waiters si ((s.setcount c.semp (s.count c.semp c.chan + 1) c.chan).setproc p
      (.asleep c)) x ch = waiters si s x ch + if c.semp = x ∧ c.chan = ch then 1 else 0 := by
    intro x ch
    have h1 := waiters_setproc (s.setcount c.semp (s.count c.semp c.chan + 1) c.chan)
      (.asleep c) x ch hp
    rw [setcount_proc, hw] at h1
    have h2 : waiters si (s.setcount c.semp (s.count c.semp c.chan + 1) c.chan) x ch =
        waiters si s x ch := by
      unfold waiters
      rw [setcount_proc]
    rw [h2] at h1
    simpa [waiting] using h1
  -- fewer processes wait than the table has entries, so the short does not wrap
  have hn := si.nproc_le
  have hle := waiters_le si ((s.setcount c.semp (s.count c.semp c.chan + 1) c.chan).setproc p
    (.asleep c)) c.semp c.chan
  rw [hwait, if_pos ⟨rfl, rfl⟩] at hle
  have hbd := h.bounded c.semp c.chan
  have hinc : (ushort ((s.count c.semp c.chan : ℤ) + 1) : ℤ) = s.count c.semp c.chan + 1 :=
    ushort_of_fits (by omega) (by omega)
  have hcount : ∀ x ch, ((s.setcount c.semp (s.count c.semp c.chan + 1) c.chan).setproc p
      (.asleep c)).count x ch =
      if x = c.semp ∧ ch = c.chan then ushort ((s.count c.semp c.chan : ℤ) + 1) else s.count x ch :=
    fun x ch => setcount_count
  have hval : ∀ x, (((s.setcount c.semp (s.count c.semp c.chan + 1) c.chan).setproc p
      (.asleep c)).sem x).semval = (s.sem x).semval := fun x => setcount_semval
  have hpos : ∀ x ch, s.count x ch ≠ 0 → ((s.setcount c.semp (s.count c.semp c.chan + 1)
      c.chan).setproc p (.asleep c)).count x ch ≠ 0 := by
    intro x ch h0
    rw [hcount]
    split
    · omega
    · exact h0
  refine ⟨fun q c' hq => ?_, fun q c' hq => ?_, fun x ch => ?_, fun q hu => ?_⟩
  · by_cases hqp : q = p
    · rw [hqp, setproc_self] at hq
      cases hq
      rw [hcount, if_pos ⟨rfl, rfl⟩]
      omega
    · rw [hproc q hqp] at hq
      exact hpos _ _ (h.counted q c' hq)
  · by_cases hqp : q = p
    · rw [hqp, setproc_self] at hq
      cases hq
      exact hb.mono (fun _ => (hval _).le) fun _ h0 => by rwa [hval]
    · rw [hproc q hqp] at hq
      exact (h.blocked q c' hq).mono (fun _ => (hval _).le) fun _ h0 => by rwa [hval]
  · rw [hcount, hwait]
    by_cases hx : x = c.semp ∧ ch = c.chan
    · obtain ⟨rfl, rfl⟩ := hx
      rw [if_pos ⟨rfl, rfl⟩, if_pos ⟨rfl, rfl⟩]
      omega
    · rw [if_neg hx, if_neg fun h1 => hx ⟨h1.1.symm, h1.2.symm⟩]
      exact h.bounded x ch
  · by_cases hqp : q = p
    · rw [hqp]
      exact hp
    · rw [hproc q hqp] at hu
      exact h.inTable q hu

end IpcSem
