/-
# No lost wakeup

Every step of the semaphore calls keeps the invariant of the sleepers: a pass wakes
whoever its stores could let go on, and goes to sleep itself at an operation that cannot
proceed.
-/
import SunOS.Ipc.SemSleep

namespace IpcSem

open Option (some.inj)
open Ipc SortedTable

variable {si : seminfo} {s s0 s1 s' t : State} {p q x y n base i : ℕ} {id semid v pid : ℤ}
  {op : sembuf} {uops done d : List sembuf} {ch : Chan} {o : Outcome} {r : Result} {u : user}
  {c : sleeper}

/-! ## A pass -/

theorem Forward.quiet (h : Forward si p id base op s s') (hs : Sound si s) : Quiet s s' := by
  cases h with
  | zero => exact Quiet.of_eq rfl rfl
  | change h0 hlo hhi ha =>
    rename_i s1
    have hmx := si.semvmx_le
    unfold SEMVMX at hmx
    rcases semadj_spec id op hs.owned (hs.tables p) with ⟨e, t, h1, -⟩ | ⟨t, h1, h2, -⟩
    · rw [h1] at ha
      cases ha
    · rw [h1] at ha
      cases ha
      have hq : Quiet s s1 := .of_eq h2.proc h2.sem
      refine hq.trans (perform_quiet ?_ ?_)
      · rw [h2.sem]
        exact hlo
      · rw [h2.sem]
        omega

theorem Doing.quiet (h : Doing si p id base s0 done s) (hs : Sound si s0) : Quiet s0 s := by
  induction h with
  | nil => exact Quiet.of_eq rfl rfl
  | cons h1 h2 ih => exact ih.trans (h2.quiet (h1.spec hs).1)

/-- The operations that are taken back have woken processes, and that is all. -/
theorem Doing.back_quiet (h : Doing si p id base s0 d s) (hs : Sound si s0) (hk : Kept s s1) :
    Quiet s0 (semundo si p id base d s1) := by
  obtain ⟨h1, h2, h3, -⟩ := h.spec hs
  obtain ⟨h5, h6⟩ := semundo_spec (h2.congr hk.unchanged) hk.owned
    (fun q => by rw [hk.ents]; exact h1.tables q) fun op ho ha => hk.has p (h3 op ho ha)
  refine Benign.quiet ?_ h5.vals
  refine (h.quiet hs).toBenign.trans (.of_eq (h6.proc.trans hk.proc) fun x ch => ?_)
  rw [h6.count]
  cases ch <;> simp only [State.count, hk.sem]

/-- The operation that a pass stops at is blocked at the values it started from. -/
theorem Doing.blocked (h : Doing si p id base s0 d s) (hs : Sound si s0)
    (hu : uops = d.reverse ++ op :: done)
    (hw : Waits op (s.sem (base + op.sem_num.toNat)).semval ch)
    (hv : ∀ x, (t.sem x).semval = (s0.sem x).semval) :
    Blocked t ⟨pid, semid, uops, d.length, base + op.sem_num.toNat, ch⟩ := by
  obtain ⟨-, h2, -, -⟩ := h.spec hs
  have hval := h2.applied.vals (base + op.sem_num.toNat)
  rw [if_pos (Nat.le_add_right _ _), Nat.add_sub_cancel_left] at hval
  have hlen : d.length = d.reverse.length := List.length_reverse.symm
  refine ⟨op, ?_, ?_⟩
  · show uops[d.length]? = some op
    rw [hu, hlen, List.getElem?_append_right le_rfl, Nat.sub_self]
    rfl
  · have htake : uops.take d.length = d.reverse := by
      rw [hu, hlen, List.take_left']
      rfl
    cases ch with
    | semncnt =>
      show op.sem_op < 0 ∧ _
      simp only
      rw [htake, net_reverse, hv]
      exact ⟨hw.1, by have := hw.2; omega⟩
    | semzcnt =>
      show op.sem_op = 0 ∧ _
      simp only
      rw [htake, net_reverse, hv]
      exact ⟨hw.1, by have := hw.2; omega⟩

theorem not_asleep_of_waiting (h : ∀ x ch, waiting (s.proc p) x ch = false) :
    ∀ c, s.proc p ≠ .asleep c := by
  intro c hc
  have h1 := h c.semp c.chan
  rw [hc] at h1
  simp [waiting] at h1

/-- **A pass keeps the invariant**, whether it ends the call or goes to sleep. -/
theorem check_lull (hl : Lull si s) (hs : Sound si s) (hp : p < si.nproc)
    (hw : ∀ x ch, waiting (s.proc p) x ch = false) {sp : ℕ}
    (h : check si p pid semid uops sp s = (r, s')) : Lull si s' := by
  unfold check at h
  simp only at h
  have hpass := semops_pass hs (by rfl : uops = [].reverse ++ uops) .nil
    (rfl : semops si p semid (s.sema sp).sem_base [] uops s = _)
  generalize semops si p semid (s.sema sp).sem_base [] uops s = res at h hpass
  obtain ⟨o, s1⟩ := res
  have hna := not_asleep_of_waiting hw
  have hstay : ∀ {t}, Quiet s t → ∀ x ch, waiting (t.proc p) x ch = false := by
    intro t hq x ch
    rw [hq.stays p hna]
    exact hw x ch
  cases hpass with
  | done hd =>
    obtain ⟨-, rfl⟩ := Prod.mk.inj h
    have hq := hd.quiet hs
    have hpid : ∀ (f : sembuf → ℕ) (l : List sembuf) (t : State),
        Benign t (l.foldl (fun s op => s.setpid (f op) pid) t) := by
      intro f l
      induction l with
      | nil => exact fun t => .of_eq rfl fun _ _ => rfl
      | cons op l ih => exact fun t => benign_setpid.trans (ih _)
    have hq' := hq.trans ((hpid (fun op => (s.sema sp).sem_base + op.sem_num.toNat) uops s1).quiet
      (setpids_same s1 uops pid _).2.2)
    exact (hl.quiet hq').leave (hstay hq')
  | fail hd hk =>
    obtain ⟨-, rfl⟩ := Prod.mk.inj h
    have hq := hd.back_quiet hs hk
    exact (hl.quiet hq).leave (hstay hq)
  | block hu hd hwt =>
    obtain ⟨-, rfl⟩ := Prod.mk.inj h
    have hk := Kept.refl (hd.spec hs).1.owned
    have hq := hd.back_quiet hs hk
    have hvals := (semundo_spec (hd.spec hs).2.1 (hd.spec hs).1.owned (hd.spec hs).1.tables
      (hd.spec hs).2.2.1).1.vals
    exact (hl.quiet hq).sleep hp (hstay hq) (hd.blocked hs hu hwt hvals)

/-! ## The other steps -/

theorem semop_lull (hl : Lull si s) (hs : Sound si s) (hp : p < si.nproc) (hpu : s.proc p = .user)
    {copyin : Bool} (h : semop si p u semid uops copyin s = (r, s')) : Lull si s' := by
  have hw : ∀ x ch, waiting (s.proc p) x ch = false := by
    intro x ch
    rw [hpu]
    rfl
  unfold semop at h
  split at h
  · obtain ⟨-, rfl⟩ := Prod.mk.inj h
    exact hl
  · split at h
    · obtain ⟨-, rfl⟩ := Prod.mk.inj h
      exact hl
    · split at h
      · obtain ⟨-, rfl⟩ := Prod.mk.inj h
        exact hl
      · split at h
        · obtain ⟨-, rfl⟩ := Prod.mk.inj h
          exact hl
        · exact check_lull hl hs hp hw h

/-- A sleeper that a signal took away counts itself down and leaves. -/
theorem interrupted_lull (hl : Lull si s) (hst : s.proc p = .woken c true)
    (h : resume si p c true s = (r, s')) : Lull si s' := by
  have hp : p < si.nproc := hl.inTable p (by rw [hst]; exact fun h => pstate.noConfusion h)
  have hbd := hl.bounded c.semp c.chan
  have hna : ∀ c', s.proc p ≠ .asleep c' := by
    intro c' h1
    rw [hst] at h1
    cases h1
  unfold resume at h
  obtain ⟨-, rfl⟩ := Prod.mk.inj h
  -- the process joins nothing, and leaves its counter
  have hleave : ∀ (t : State), t.proc p = s.proc p → ∀ x ch,
      waiters si (t.setproc p .user) x ch + (if c.semp = x ∧ c.chan = ch then 1 else 0) =
        waiters si t x ch := by
    intro t ht x ch
    have h1 := waiters_setproc t .user x ch hp
    rw [ht, hst] at h1
    simpa [waiting] using h1
  have hold : ∀ (t : State) (q : ℕ) (c' : sleeper), (t.setproc p .user).proc q = .asleep c' →
      q ≠ p ∧ t.proc q = .asleep c' := by
    intro t q c' hq
    by_cases hqp : q = p
    · rw [hqp, setproc_self] at hq
      cases hq
    · exact ⟨hqp, by rwa [setproc_of_ne hqp] at hq⟩
  have htab : ∀ (t : State), (∀ q, t.proc q ≠ .user → q < si.nproc) → ∀ q,
      (t.setproc p .user).proc q ≠ .user → q < si.nproc := by
    intro t ht q hu
    by_cases hqp : q = p
    · rw [hqp]
      exact hp
    · refine ht q ?_
      rwa [setproc_of_ne hqp] at hu
  by_cases hn : s.count c.semp c.chan ≤ 1
  · rw [if_pos hn]
    have hb := (@benign_clear s c.semp c.chan).1
    have hl' := hl.quiet (hb.quiet fun x => setcount_semval)
    have hzero : ((s.setcount c.semp 0 c.chan).wakeup c.semp c.chan).count c.semp c.chan = 0 := by
      have : ((s.setcount c.semp 0 c.chan).wakeup c.semp c.chan).count c.semp c.chan =
          (s.setcount c.semp 0 c.chan).count c.semp c.chan := rfl
      rw [this, setcount_count, if_pos ⟨rfl, rfl⟩]
      rfl
    have hpp := hb.stays p hna
    generalize (s.setcount c.semp 0 c.chan).wakeup c.semp c.chan = t at hl' hzero hpp
    refine ⟨fun q c' hq => hl'.counted q c' (hold t q c' hq).2,
      fun q c' hq => hl'.blocked q c' (hold t q c' hq).2, fun x ch => ?_, htab t hl'.inTable⟩
    have h1 := hleave t hpp x ch
    have h2 := hl'.bounded x ch
    show t.count x ch ≤ _
    by_cases hx : c.semp = x ∧ c.chan = ch
    · obtain ⟨rfl, rfl⟩ := hx
      lia
    · rw [if_neg hx] at h1
      lia
  · rw [if_neg hn]
    have hdec : (ushort ((s.count c.semp c.chan : ℤ) - 1) : ℤ) = s.count c.semp c.chan - 1 := by
      have h1 := waiters_le si s c.semp c.chan
      have h2 := si.nproc_le
      exact ushort_of_fits (by lia) (by lia)
    have hcount : ∀ x ch, ((s.setcount c.semp ((s.count c.semp c.chan : ℤ) - 1) c.chan).setproc p
        .user).count x ch = if x = c.semp ∧ ch = c.chan then
          ushort ((s.count c.semp c.chan : ℤ) - 1) else s.count x ch := fun x ch => setcount_count
    have hpr : (s.setcount c.semp ((s.count c.semp c.chan : ℤ) - 1) c.chan).proc = s.proc :=
      setcount_proc
    have hw : ∀ x ch, waiters si (s.setcount c.semp ((s.count c.semp c.chan : ℤ) - 1) c.chan) x ch =
        waiters si s x ch := by
      intro x ch
      unfold waiters
      rw [hpr]
    refine ⟨fun q c' hq => ?_, fun q c' hq => ?_, fun x ch => ?_, htab _ fun q hu => ?_⟩
    · obtain ⟨-, h1⟩ := hold _ q c' hq
      rw [hpr] at h1
      have h2 := hl.counted q c' h1
      rw [hcount]
      split
      · lia
      · exact h2
    · obtain ⟨-, h1⟩ := hold _ q c' hq
      rw [hpr] at h1
      have hv : ((((s.setcount c.semp ((s.count c.semp c.chan : ℤ) - 1) c.chan).setproc p
          .user)).sem c'.semp).semval = (s.sem c'.semp).semval := setcount_semval
      exact (hl.blocked q c' h1).mono (fun _ => hv.le) fun _ h0 => by rwa [hv]
    · have h1 := hleave (s.setcount c.semp ((s.count c.semp c.chan : ℤ) - 1) c.chan)
        (by rw [hpr]) x ch
      rw [hw] at h1
      rw [hcount]
      by_cases hx : x = c.semp ∧ ch = c.chan
      · obtain ⟨rfl, rfl⟩ := hx
        lia
      · rw [if_neg hx]
        have h2 := hl.bounded x ch
        lia
    · rw [hpr] at hu
      exact hl.inTable q hu

theorem resume_lull (hl : Lull si s) (hs : Sound si s) {sig : Bool} (hst : s.proc p = .woken c sig)
    (h : resume si p c sig s = (r, s')) : Lull si s' := by
  cases sig with
  | true => exact interrupted_lull hl hst h
  | false =>
    have hp : p < si.nproc := hl.inTable p (by rw [hst]; exact fun h => pstate.noConfusion h)
    have hw : ∀ x ch, waiting (s.proc p) x ch = false := by
      intro x ch
      rw [hst]
      rfl
    unfold resume at h
    rw [if_neg (by decide)] at h
    split at h
    · obtain ⟨-, rfl⟩ := Prod.mk.inj h
      exact hl.leave hw
    · exact check_lull hl hs hp hw h

theorem semunrm_quiet {low high : ℤ} : Quiet s (semunrm id low high s) :=
  Quiet.of_eq rfl rfl

theorem sema_quiet {f : ℕ → semid_ds} : Quiet s { s with sema := f } :=
  Quiet.of_eq rfl rfl

theorem refl_quiet : Quiet s s := Quiet.of_eq rfl rfl

theorem semctl_quiet (si : seminfo) (u : user) (semid : ℤ) (cmd : Cmd) :
    Quiet s (semctl si u semid cmd s).2 := by
  have hmx := si.semvmx_le
  unfold SEMVMX at hmx
  unfold semctl
  split
  · exact refl_quiet
  · cases cmd with
    | IPC_RMID =>
      simp only
      split
      · exact refl_quiet
      · exact (semunrm_quiet.trans semrm_quiet).trans sema_quiet
    | IPC_SET id =>
      simp only
      split
      · exact refl_quiet
      · split
        · exact refl_quiet
        · exact sema_quiet
    | SETVAL semnum arg =>
      simp only
      split
      · exact refl_quiet
      · split
        · exact refl_quiet
        · split
          · exact refl_quiet
          · exact (semset_quiet (by omega)).trans semunrm_quiet
    | SETALL vals =>
      simp only
      split
      · exact refl_quiet
      · split
        · exact refl_quiet
        · split
          · exact refl_quiet
          · rename_i sp _ _ vals hany
            refine semunrm_quiet.trans (semsetall_quiet fun j _ hj => ?_)
            by_contra hlt
            refine hany (List.any_eq_true.mpr ⟨j, List.mem_range.mpr (by omega), ?_⟩)
            exact decide_eq_true (by omega)
    | IPC_STAT =>
      simp only
      split <;> exact refl_quiet
    | GETALL =>
      simp only
      split <;> exact refl_quiet
    | GETNCNT semnum => exact refl_quiet
    | GETPID semnum => exact refl_quiet
    | GETVAL semnum => exact refl_quiet
    | GETZCNT semnum => exact refl_quiet
    | other => exact refl_quiet

theorem semget_quiet (si : seminfo) (u : user) (key nsems : ℤ) (semflg i : ℕ) :
    Quiet s (semget si u key nsems semflg i s).2 := by
  unfold semget
  split
  · exact refl_quiet
  · simp only
    split
    · exact sema_quiet
    · split
      · exact sema_quiet
      · exact sema_quiet
  · split <;> exact refl_quiet

theorem semexit_quiet : Quiet s (semexit si p s) := by
  unfold semexit
  split
  · exact refl_quiet
  · rename_i up _
    have hq : ∀ l : List undo, Quiet s (l.foldr (exitadj si) s) := by
      intro l
      induction l with
      | nil => exact refl_quiet
      | cons e l ih => exact ih.trans exitadj_quiet
    refine (hq (s.semu up)).trans ?_
    exact Quiet.of_eq rfl rfl

/-- A signal takes a sleeper off the queue; it stays counted. -/
theorem psignal_lull (hl : Lull si s) {b : Bool}
    (hst : s.proc p = .asleep c ∨ s.proc p = .woken c b) :
    Lull si (s.setproc p (.woken c true)) := by
  have hp : p < si.nproc := by
    refine hl.inTable p fun h => ?_
    rcases hst with h1 | h1 <;> · rw [h] at h1; cases h1
  have hold : ∀ q c', (s.setproc p (.woken c true)).proc q = .asleep c' →
    s.proc q = .asleep c' := by
    intro q c' hq
    by_cases hqp : q = p
    · rw [hqp, setproc_self] at hq
      cases hq
    · rwa [setproc_of_ne hqp] at hq
  refine ⟨fun q c' hq => hl.counted q c' (hold q c' hq),
    fun q c' hq => hl.blocked q c' (hold q c' hq), fun x ch => ?_, fun q hu => ?_⟩
  · have h1 := waiters_setproc s (.woken c true) x ch hp
    have h2 : waiting (s.proc p) x ch = true → waiting (.woken c true) x ch = true := by
      intro h3
      rcases hst with h4 | h4
      · rw [h4] at h3
        exact h3
      · rw [h4] at h3
        cases b with
        | true => exact h3
        | false => exact absurd h3 (by simp [waiting])
    have h3 := hl.bounded x ch
    show s.count x ch ≤ _
    by_cases h4 : waiting (s.proc p) x ch = true
    · rw [if_pos h4, if_pos (h2 h4)] at h1
      omega
    · rw [if_neg h4] at h1
      omega
  · by_cases hqp : q = p
    · rw [hqp]
      exact hp
    · rw [setproc_of_ne hqp] at hu
      exact hl.inTable q hu

/-! ## Runs -/

/-- **The step lemma.** -/
theorem act_lull {ev : Event} (hl : Lull si s) (hs : Sound si s) (h : act si s ev = some (r, s')) :
    Lull si s' := by
  cases ev with
  | semop p u semid sops copyin =>
    obtain ⟨h1, h2⟩ := Option.ite_none_right_eq_some.mp h
    exact semop_lull hl hs h1.1 h1.2 (some.inj h2)
  | semctl p u semid cmd =>
    obtain ⟨h1, h2⟩ := Option.ite_none_right_eq_some.mp h
    have h3 := hl.quiet (semctl_quiet si u semid cmd)
    rw [some.inj h2] at h3
    exact h3
  | semget p u key nsems semflg i =>
    obtain ⟨h1, h2⟩ := Option.ite_none_right_eq_some.mp h
    have h3 := hl.quiet (semget_quiet si u key nsems semflg i)
    rw [some.inj h2] at h3
    exact h3
  | semexit p =>
    obtain ⟨h1, h2⟩ := Option.ite_none_right_eq_some.mp h
    obtain ⟨-, rfl⟩ := Prod.mk.inj (some.inj h2)
    exact hl.quiet semexit_quiet
  | psignal p =>
    unfold act at h
    simp only at h
    split at h
    · cases h
    · rename_i c hc
      obtain ⟨-, rfl⟩ := Prod.mk.inj (some.inj h)
      exact psignal_lull (b := true) hl (.inl hc)
    · rename_i c b hc
      obtain ⟨-, rfl⟩ := Prod.mk.inj (some.inj h)
      exact psignal_lull hl (.inr hc)
  | resume p =>
    unfold act at h
    simp only at h
    split at h
    · rename_i c sig hc
      exact resume_lull hl hs hc (some.inj h)
    · cases h

/-- Nobody is in a semaphore call, and no counter is up. -/
structure Idle (s : State) : Prop where
  proc : ∀ q, s.proc q = .user
  count : ∀ x ch, s.count x ch = 0

theorem Idle.lull (h : Idle s) : Lull si s := by
  have hna : ∀ q c, s.proc q ≠ .asleep c := by
    intro q c hq
    rw [h.proc] at hq
    cases hq
  refine ⟨fun q c hq => absurd hq (hna q c), fun q c hq => absurd hq (hna q c), fun x ch => ?_,
    fun q hu => absurd (h.proc q) hu⟩
  rw [h.count]
  exact Nat.zero_le _

/-- **No lost wakeup.**  In every state of every run, a process asleep in `semop` sleeps on
a counter that is not zero, at an operation that cannot proceed. -/
theorem no_lost_wakeup {es : List Event} (hs : Sound si s0) (hi : Idle s0)
    (hrun : Run (step si) s0 es s) (hq : s.proc q = .asleep c) :
    s.count c.semp c.chan ≠ 0 ∧ Blocked s c := by
  have h := hrun.invariant (I := fun s => Sound si s ∧ Lull si s)
    (fun _ _ _ hI ⟨_, h⟩ => ⟨act_sound hI.1 h, act_lull hI.2 hI.1 h⟩) ⟨hs, hi.lull⟩
  exact ⟨h.2.counted q c hq, h.2.blocked q c hq⟩

theorem tiny_idle : Idle tiny := ⟨fun _ => rfl, fun _ ch => by cases ch <;> rfl⟩

theorem step_semop {sops : List sembuf} (hp : p < si.nproc) (hpu : s.proc p = .user) :
    step si s (.semop p u semid sops true) (semop si p u semid sops true s).2 :=
  ⟨_, if_pos ⟨hp, hpu⟩⟩

theorem takes_one : (-32768 : ℤ) ≤ -1 ∧ (-1 : ℤ) ≤ 32767 := by decide

/-- Take one from semaphore 0, then two. -/
def twice : List sembuf := [sop 0 (-1) 0 takes_one, sop 0 (-2) 0 (by decide)]

/-- Take one from semaphore 1, then wait for it to be zero. -/
def drain : List sembuf := [sop 1 (-1) 0 takes_one, sop 1 0 0 (by decide)]

/-- The states in which process 0 sleeps in `twice`, then also process 1 in `drain`; then
process 2 takes one from semaphore 1. -/
def asleep₁ : State := (semop tinyInfo 0 root 0 twice true tiny).2

def asleep₂ : State := (semop tinyInfo 1 root 0 drain true asleep₁).2

def asleep₃ : State := (semop tinyInfo 2 root 0 [sop 1 (-1) 0 takes_one] true asleep₂).2

theorem no_lost_wakeup_tiny :
    asleep₁.count 0 .semncnt ≠ 0 ∧ Blocked asleep₁ ⟨1, 0, twice, 1, 0, .semncnt⟩ :=
  no_lost_wakeup tiny_sound tiny_idle (.cons (step_semop (by decide) rfl) (.nil _))
    (by decide +kernel : asleep₁.proc 0 = .asleep ⟨1, 0, twice, 1, 0, .semncnt⟩)

/-- **Where the bare value is no measure.**  Process 0 sleeps for a value of two with the
value at two, as it would have taken one before; and process 1 sleeps though its array
could be done now, as the value has come down to one and not to zero. -/
theorem sleeps_at_enough :
    Run (step tinyInfo) tiny
        [.semop 0 root 0 twice true, .semop 1 root 0 drain true,
          .semop 2 root 0 [sop 1 (-1) 0 (by decide)] true] asleep₃ ∧
      (asleep₃.proc 0 = .asleep ⟨1, 0, twice, 1, 0, .semncnt⟩ ∧
        ¬ ∀ op ∈ twice[1]?, ((asleep₃.sem 0).semval : ℤ) < -op.sem_op) ∧
      asleep₃.proc 1 = .asleep ⟨1, 0, drain, 1, 1, .semzcnt⟩ ∧
      (semops tinyInfo 1 0 0 [] drain asleep₃).1 = .done := by
  refine ⟨.cons (step_semop (by decide) rfl) (.cons (step_semop (by decide) (by decide +kernel))
    (.cons (step_semop (by decide) (by decide +kernel)) (.nil _))), ?_, ?_, ?_⟩
  · decide +kernel
  · decide +kernel
  · decide +kernel

end IpcSem
