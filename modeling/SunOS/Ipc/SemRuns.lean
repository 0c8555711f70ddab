/-
# Runs of the semaphore calls

Every call keeps the values in range and the undo tables in order, so that in every run a
step of `semop` applies its whole array at once or changes no value and no undo entry.
-/
import SunOS.Ipc.SemOps
import SunOS.Lib.Run

namespace IpcSem

open Option (some.inj)
open Function (update update_of_ne update_self)
open Ipc SortedTable

variable {si : seminfo} {s s0 s1 s' t : State} {p q up x y n base i : ℕ}
  {id low high semid v pid : ℤ}
  {op : sembuf} {uops : List sembuf} {ch : Chan} {o : Outcome} {e : Errno} {st : pstate}
    {r : Result}
  {u : user}

/-! ## A pass as an atomic step -/

theorem Sound.of_same (h : Sound si s) (hu : SameUndo s s')
    (hv : ∀ x, (s'.sem x).semval ≤ si.semvmx) : Sound si s' :=
  ⟨hu.owned h.owned, fun q => by rw [hu.ents]; exact h.tables q, hv⟩

theorem Applied.trans (h : Applied s p semid base uops s1) (hu : Unchanged s1 s') :
    Applied s p semid base uops s' := by
  refine ⟨fun x => ?_, fun i n => ?_, fun q hq => ?_⟩
  · rw [hu.vals, h.vals]
  · rw [hu.ents, h.own]
  · rw [hu.ents, h.others q hq]

theorem Applied.of_reverse (h : Applied s p semid base uops.reverse s') :
    Applied s p semid base uops s' := by
  refine ⟨fun x => ?_, fun i n => ?_, h.others⟩
  · rw [h.vals, net_reverse]
  · rw [h.own, netadj_reverse]

theorem Unchanged.setcount (h : Unchanged s s') : Unchanged s (s'.setcount x v ch) :=
  h.trans ⟨fun _ => setcount_semval, setcount_sameUndo.ents⟩

/-- **A pass is atomic.** -/
theorem Pass.atomic (h : Pass si p id base uops s0 o s) (hs : Sound si s0) :
    Sound si s ∧ s.sema = s0.sema ∧
      (o = .done → Applied s0 p id base uops s) ∧ (o ≠ .done → Unchanged s0 s) := by
  cases h with
  | done hd =>
    obtain ⟨h1, h2, -, h4⟩ := hd.spec hs
    exact ⟨h1, h4, fun _ => h2.applied.of_reverse, fun h => absurd rfl h⟩
  | fail hd hk =>
    obtain ⟨h1, h2, h3, h4⟩ := hd.spec hs
    obtain ⟨h5, h6⟩ := semundo_spec (h2.congr hk.unchanged) hk.owned
      (fun q => by rw [hk.ents]; exact h1.tables q) fun op ho ha => hk.has p (h3 op ho ha)
    exact ⟨h5.sound hs h6.owned, h6.sema.trans (hk.sema.trans h4), fun h => absurd h (by simp),
      fun _ => h5⟩
  | block hu hd hw =>
    obtain ⟨h1, h2, h3, h4⟩ := hd.spec hs
    obtain ⟨h5, h6⟩ := semundo_spec h2 h1.owned h1.tables h3
    exact ⟨h5.setcount.sound hs (setcount_sameUndo.owned h6.owned),
      setcount_sema.trans (h6.sema.trans h4), fun h => absurd h (by simp), fun _ => h5.setcount⟩

theorem setpids_same (s : State) (uops : List sembuf) (pid : ℤ) (f : sembuf → ℕ) :
    SameUndo s (uops.foldl (fun s op => s.setpid (f op) pid) s) ∧
      (uops.foldl (fun s op => s.setpid (f op) pid) s).sema = s.sema ∧
      ∀ x, ((uops.foldl (fun s op => s.setpid (f op) pid) s).sem x).semval = (s.sem x).semval := by
  induction uops generalizing s with
  | nil => exact ⟨⟨rfl, rfl, rfl⟩, rfl, fun _ => rfl⟩
  | cons op ops ih =>
    obtain ⟨h1, h2, h3⟩ := ih (s.setpid (f op) pid)
    refine ⟨(⟨rfl, rfl, rfl⟩ : SameUndo s (s.setpid (f op) pid)).trans h1, h2, fun x => ?_⟩
    rw [List.foldl_cons, h3, setpid_semval]

/-- The step of process `p` that ends with result `r` is atomic: the call returns with
every operation applied at once, or no value and no undo entry has changed, and the call
has failed or sleeps with the array it came with. -/
structure Atomic (si : seminfo) (s : State) (p : ℕ) (semid : ℤ) (uops : List sembuf) (r : Result)
    (s' : State) : Prop where
  before : ∀ x, (s.sem x).semval ≤ si.semvmx
  after : ∀ x, (s'.sem x).semval ≤ si.semvmx
  cases : (r = .rval 0 ∧ s'.proc p = .user ∧
      ∃ sp, semconv si s semid = some sp ∧ Applied s p semid (s.sema sp).sem_base uops s') ∨
    ((∃ e, r = .error e) ∧ s'.proc p = .user ∧ Unchanged s s') ∨
    (r = .slept ∧ (∃ c, s'.proc p = .asleep c ∧ c.semid = semid ∧ c.uops = uops) ∧ Unchanged s s')

theorem setproc_same (s : State) (p : ℕ) (st : pstate) :
    SameUndo s (s.setproc p st) := ⟨rfl, rfl, rfl⟩

theorem setproc_self : (s.setproc p st).proc p = st := update_self ..

theorem setproc_of_ne (h : q ≠ p) : (s.setproc p st).proc q = s.proc q := update_of_ne h ..

theorem check_atomic (hs : Sound si s) {sp : ℕ} (hsp : semconv si s semid = some sp)
    (h : check si p pid semid uops sp s = (r, s')) :
    Sound si s' ∧ Atomic si s p semid uops r s' := by
  unfold check at h
  simp only at h
  have hp := semops_pass hs (by rfl : uops = [].reverse ++ uops) .nil
    (rfl : semops si p semid (s.sema sp).sem_base [] uops s = _)
  generalize semops si p semid (s.sema sp).sem_base [] uops s = res at h hp
  obtain ⟨o, s1⟩ := res
  obtain ⟨h1, -, h3, h4⟩ := hp.atomic hs
  cases o with
  | done =>
    obtain ⟨rfl, rfl⟩ := Prod.mk.inj h
    obtain ⟨h5, -, h6⟩ := setpids_same s1 uops pid
      fun op => (s.sema sp).sem_base + op.sem_num.toNat
    have hsu := h5.trans (setproc_same _ p .user)
    have hs' := h1.of_same hsu fun x => by
      show ((uops.foldl _ s1).sem x).semval ≤ _
      rw [h6]
      exact h1.values x
    exact ⟨hs', hs.values, hs'.values, .inl ⟨rfl, setproc_self, sp, hsp,
      (h3 rfl).trans ⟨h6, hsu.ents⟩⟩⟩
  | fail e =>
    obtain ⟨rfl, rfl⟩ := Prod.mk.inj h
    have hs' := h1.of_same (setproc_same _ p .user) h1.values
    exact ⟨hs', hs.values, hs'.values, .inr (.inl ⟨⟨e, rfl⟩, setproc_self,
      (h4 (by simp)).trans ⟨fun _ => rfl, (setproc_same ..).ents⟩⟩)⟩
  | block semp ch i =>
    obtain ⟨rfl, rfl⟩ := Prod.mk.inj h
    have hs' := h1.of_same (setproc_same _ p (.asleep ⟨pid, semid, uops, i, semp, ch⟩))
      h1.values
    exact ⟨hs', hs.values, hs'.values, .inr (.inr ⟨rfl, ⟨_, setproc_self, rfl, rfl⟩,
      (h4 (by simp)).trans ⟨fun _ => rfl, (setproc_same ..).ents⟩⟩)⟩

theorem failed_atomic (hs : Sound si s) (hp : s.proc p = .user) :
    Sound si s ∧ Atomic si s p semid uops (.error e) s :=
  ⟨hs, hs.values, hs.values, .inr (.inl ⟨⟨e, rfl⟩, hp, .refl s⟩)⟩

theorem semop_step (hs : Sound si s) (hp : s.proc p = .user) {copyin : Bool}
    (h : semop si p u semid uops copyin s = (r, s')) :
    Sound si s' ∧ Atomic si s p semid uops r s' := by
  unfold semop at h
  cases hsp : semconv si s semid with
  | none =>
    rw [hsp] at h
    obtain ⟨rfl, rfl⟩ := Prod.mk.inj h
    exact failed_atomic hs hp
  | some sp =>
    rw [hsp] at h
    simp only at h
    by_cases h1 : si.semopm < uops.length
    · rw [if_pos h1] at h
      obtain ⟨rfl, rfl⟩ := Prod.mk.inj h
      exact failed_atomic hs hp
    · rw [if_neg h1] at h
      by_cases h2 : (!copyin) = true
      · rw [if_pos h2] at h
        obtain ⟨rfl, rfl⟩ := Prod.mk.inj h
        exact failed_atomic hs hp
      · rw [if_neg h2] at h
        cases hv : verify u (s.sema sp) uops with
        | some e =>
          rw [hv] at h
          obtain ⟨rfl, rfl⟩ := Prod.mk.inj h
          exact failed_atomic hs hp
        | none =>
          rw [hv] at h
          exact check_atomic hs hsp h

theorem resume_step (hs : Sound si s) {c : sleeper} {sig : Bool}
    (h : resume si p c sig s = (r, s')) :
    Sound si s' ∧ Atomic si s p c.semid c.uops r s' := by
  unfold resume at h
  cases sig with
  | true =>
    obtain ⟨rfl, rfl⟩ := Prod.mk.inj h
    have hc : ∀ n, SameUndo s ((s.setcount c.semp n c.chan)) := fun n => setcount_sameUndo
    split
    · have hsu : SameUndo s (((s.setcount c.semp 0 c.chan).wakeup c.semp c.chan).setproc p .user) :=
        (hc 0).trans ⟨rfl, rfl, rfl⟩
      have hv : ∀ x, ((((s.setcount c.semp 0 c.chan).wakeup c.semp c.chan).setproc p .user).sem
          x).semval = (s.sem x).semval := fun x => setcount_semval
      have hs' := hs.of_same hsu fun x => by rw [hv]; exact hs.values x
      exact ⟨hs', hs.values, hs'.values, .inr (.inl ⟨⟨_, rfl⟩, setproc_self, hv, hsu.ents⟩)⟩
    · have hsu : SameUndo s ((s.setcount c.semp ((s.count c.semp c.chan : ℤ) - 1) c.chan).setproc
          p .user) := (hc _).trans ⟨rfl, rfl, rfl⟩
      have hv : ∀ x, (((s.setcount c.semp ((s.count c.semp c.chan : ℤ) - 1) c.chan).setproc
          p .user).sem x).semval = (s.sem x).semval := fun x => setcount_semval
      have hs' := hs.of_same hsu fun x => by rw [hv]; exact hs.values x
      exact ⟨hs', hs.values, hs'.values, .inr (.inl ⟨⟨_, rfl⟩, setproc_self, hv, hsu.ents⟩)⟩
  | false =>
    cases hsp : semconv si s c.semid with
    | none =>
      rw [hsp] at h
      obtain ⟨rfl, rfl⟩ := Prod.mk.inj h
      have hs' := hs.of_same (setproc_same _ p .user) hs.values
      exact ⟨hs', hs.values, hs'.values, .inr (.inl ⟨⟨_, rfl⟩, setproc_self,
        fun _ => rfl, (setproc_same ..).ents⟩)⟩
    | some sp =>
      rw [hsp] at h
      exact check_atomic hs hsp h

/-! ## The other calls -/

theorem unrment_sublist (l : List undo) : List.Sublist (unrment id low high l) l := by
  induction l with
  | nil => exact .refl _
  | cons e l ih =>
    unfold unrment
    split
    · exact .refl _
    · split
      · exact ih.cons_cons e
      · split
        · exact .refl _
        · exact ih.cons e

section

variable (hs : Sound si s)
include hs

theorem Sound.semunrm : Sound si (semunrm id low high s) := by
  have hents : ∀ q, List.Sublist ((IpcSem.semunrm id low high s).ents q) (s.ents q) := by
    intro q
    unfold State.ents
    unfold IpcSem.semunrm
    cases s.sem_undo q with
    | none => exact .refl _
    | some up =>
      simp only
      split
      · exact unrment_sublist _
      · exact .refl _
  refine ⟨⟨hs.owned.owner, hs.owned.busy, hs.owned.nodup, fun up hup => ?_⟩,
    fun q => (hs.tables q).sublist (hents q), hs.values⟩
  show (if up ∈ s.semunp then unrment id low high (s.semu up) else s.semu up) = []
  rw [hs.owned.empty up hup]
  split <;> rfl

theorem Sound.setval (h0 : 0 ≤ v) (h1 : v ≤ si.semvmx) : Sound si (s.setval x v) := by
  refine hs.of_same setval_sameUndo fun y => ?_
  have hmx := si.semvmx_le
  unfold SEMVMX at hmx
  have h2 := ushort_of_fits h0 (by omega)
  rw [setval_semval]
  split
  · omega
  · exact hs.values y

theorem Sound.setpid : Sound si (s.setpid x v) :=
  hs.of_same ⟨rfl, rfl, rfl⟩ fun y => by
    rw [setpid_semval]
    exact hs.values y

theorem Sound.wake : Sound si (s.wake x ch) :=
  hs.of_same wake_sameUndo fun y => by
    rw [wake_semval]
    exact hs.values y

theorem Sound.semrm : Sound si (semrm x n s) := by
  induction n generalizing x s with
  | zero => exact hs
  | succ n ih => exact ih (hs.setval (by omega) (by omega)).setpid.wake.wake

theorem Sound.semset {w : ℕ} (h : w ≤ si.semvmx) : Sound si (semset x w pid s) := by
  unfold IpcSem.semset
  have h1 : Sound si (s.setval x w) := hs.setval (by omega) (by omega)
  split
  · exact h1.wake.setpid
  · exact h1.wake.setpid

theorem Sound.semsetall {vals : ℕ → ℕ}
    (h : ∀ j, i ≤ j → j < i + n → vals j ≤ si.semvmx) : Sound si (semsetall x i vals pid n s) := by
  induction n generalizing x i s with
  | zero => exact hs
  | succ n ih =>
    exact ih (hs.semset (h i le_rfl (by omega))) fun j h1 h2 => h j (by omega) (by omega)

theorem Sound.sema {f : ℕ → semid_ds} : Sound si { s with sema := f } :=
  hs.of_same ⟨rfl, rfl, rfl⟩ hs.values

theorem Sound.semctl (u : user) (semid : ℤ) (cmd : Cmd) : Sound si (semctl si u semid cmd s).2 := by
  unfold IpcSem.semctl
  split
  · exact hs
  · cases cmd with
    | IPC_RMID =>
      simp only
      split
      · exact hs
      · exact hs.semunrm.semrm.sema
    | IPC_SET id =>
      simp only
      split
      · exact hs
      · split
        · exact hs
        · exact hs.sema
    | SETVAL semnum arg =>
      simp only
      split
      · exact hs
      · split
        · exact hs
        · split
          · exact hs
          · exact (hs.semset (by omega)).semunrm
    | SETALL vals =>
      simp only
      split
      · exact hs
      · split
        · exact hs
        · split
          · exact hs
          · rename_i sp _ _ vals hany
            refine hs.semunrm.semsetall fun j _ hj => ?_
            by_contra hlt
            refine hany (List.any_eq_true.mpr ⟨j, List.mem_range.mpr (by omega), ?_⟩)
            exact decide_eq_true (by omega)
    | IPC_STAT =>
      simp only
      split <;> exact hs
    | GETALL =>
      simp only
      split <;> exact hs
    | GETNCNT semnum => exact hs
    | GETPID semnum => exact hs
    | GETVAL semnum => exact hs
    | GETZCNT semnum => exact hs
    | other => exact hs

theorem Sound.semget (u : user) (key nsems : ℤ) (semflg i : ℕ) :
    Sound si (semget si u key nsems semflg i s).2 := by
  unfold IpcSem.semget
  split
  · exact hs
  · simp only
    split
    · exact hs.sema
    · split
      · exact hs.sema
      · exact hs.sema
  · split <;> exact hs

theorem Sound.exitadj {ent : undo} :
    Sound si (exitadj si ent s) ∧ SameUndo s (exitadj si ent s) := by
  unfold IpcSem.exitadj
  split
  · exact ⟨hs, rfl, rfl, rfl⟩
  · simp only
    split
    · exact ⟨hs, rfl, rfl, rfl⟩
    · rename_i sp _ hv
      have h1 : Sound si (s.setval ((s.sema sp).sem_base + ent.un_num.toNat)
          ((s.sem ((s.sema sp).sem_base + ent.un_num.toNat)).semval + ent.un_aoe)) :=
        hs.setval (by omega) (by omega)
      have h2 : SameUndo s (s.setval ((s.sema sp).sem_base + ent.un_num.toNat)
          ((s.sem ((s.sema sp).sem_base + ent.un_num.toNat)).semval + ent.un_aoe)) :=
            setval_sameUndo
      split <;> split
      · exact ⟨h1.wake.wake, (h2.trans wake_sameUndo).trans wake_sameUndo⟩
      · exact ⟨h1.wake, h2.trans wake_sameUndo⟩
      · exact ⟨h1.wake, h2.trans wake_sameUndo⟩
      · exact ⟨h1, h2⟩

end

theorem Sound.exitadjs (l : List undo) (hs : Sound si s) :
    Sound si (l.foldr (IpcSem.exitadj si) s) ∧ SameUndo s (l.foldr (IpcSem.exitadj si) s) := by
  induction l with
  | nil => exact ⟨hs, rfl, rfl, rfl⟩
  | cons e l ih =>
    obtain ⟨h1, h2⟩ := ih
    exact ⟨h1.exitadj.1, h2.trans h1.exitadj.2⟩

/-- The undo structure of an exiting process is free and empty, those of the others are as
they were. -/
theorem Sound.semexit (hs : Sound si s) : Sound si (semexit si p s) := by
  unfold IpcSem.semexit
  cases hup : s.sem_undo p with
  | none => exact hs
  | some up =>
    simp only
    obtain ⟨h1, h2⟩ := hs.exitadjs (s.semu up)
    have hup' : ((s.semu up).foldr (IpcSem.exitadj si) s).sem_undo p = some up := by
      rw [h2.sem_undo, hup]
    generalize (s.semu up).foldr (IpcSem.exitadj si) s = t at h1 hup'
    have hset : ∀ q u, update t.sem_undo p none q = some u →
        q ≠ p ∧ t.sem_undo q = some u := by
      intro q u hu
      by_cases hq : q = p
      · rw [hq, update_self] at hu
        cases hu
      · rw [update_of_ne hq] at hu
        exact ⟨hq, hu⟩
    refine ⟨⟨fun q r u hq hr => ?_, fun q u hq => ?_, ?_, fun u hu => ?_⟩, fun q => ?_, h1.values⟩
    · exact h1.owned.owner q r u (hset q u hq).2 (hset r u hr).2
    · obtain ⟨h3, h4⟩ := hset q u hq
      intro hmem
      rcases List.mem_cons.mp hmem with rfl | hmem
      · exact h3 (h1.owned.owner q p _ h4 hup')
      · exact h1.owned.busy q u h4 hmem
    · exact List.nodup_cons.mpr ⟨h1.owned.busy p up hup', h1.owned.nodup⟩
    · show update t.semu up [] u = []
      by_cases huu : u = up
      · rw [huu, update_self]
      · rw [update_of_ne huu]
        exact h1.owned.empty u ((List.mem_cons.mp hu).resolve_left huu)
    · have htab := h1.tables q
      unfold State.ents at htab ⊢
      by_cases hq : q = p
      · simp only [hq, update_self]
        exact .nil si
      · simp only [update_of_ne hq]
        cases hq' : t.sem_undo q with
        | none => exact .nil si
        | some u =>
          rw [hq'] at htab
          simp only at htab ⊢
          rw [update_of_ne]
          · exact htab
          · rintro rfl
            exact hq (h1.owned.owner q p _ hq' hup')

/-! ## Runs -/

/-- The `semop` call that an event makes progress in: its process, set and array. -/
def call (s : State) : Event → Option (ℕ × ℤ × List sembuf)
  | .semop p _ semid sops _ => some (p, semid, sops)
  | .resume p =>
      match s.proc p with
      | .woken c _ => some (p, c.semid, c.uops)
      | _ => none
  | _ => none

/-- **The step lemma.** -/
theorem act_sound {ev : Event} (hs : Sound si s) (h : act si s ev = some (r, s')) :
    Sound si s' := by
  cases ev with
  | semop p u semid sops copyin =>
    obtain ⟨h1, h2⟩ := Option.ite_none_right_eq_some.mp h
    exact (semop_step hs h1.2 (some.inj h2)).1
  | semctl p u semid cmd =>
    obtain ⟨h1, h2⟩ := Option.ite_none_right_eq_some.mp h
    have h3 := hs.semctl u semid cmd
    rw [some.inj h2] at h3
    exact h3
  | semget p u key nsems semflg i =>
    obtain ⟨h1, h2⟩ := Option.ite_none_right_eq_some.mp h
    have h3 := hs.semget u key nsems semflg i
    rw [some.inj h2] at h3
    exact h3
  | semexit p =>
    obtain ⟨h1, h2⟩ := Option.ite_none_right_eq_some.mp h
    obtain ⟨-, rfl⟩ := Prod.mk.inj (some.inj h2)
    exact hs.semexit
  | psignal p =>
    unfold act at h
    simp only at h
    split at h
    · cases h
    · obtain ⟨-, rfl⟩ := Prod.mk.inj (some.inj h)
      exact hs.of_same (setproc_same ..) hs.values
    · obtain ⟨-, rfl⟩ := Prod.mk.inj (some.inj h)
      exact hs.of_same (setproc_same ..) hs.values
  | resume p =>
    unfold act at h
    simp only at h
    split at h
    · exact (resume_step hs (some.inj h)).1
    · cases h

theorem run_sound {es : List Event} (hs : Sound si s) (h : Run (step si) s es s') : Sound si s' :=
  h.invariant (fun _ _ _ hs ⟨_, h⟩ => act_sound hs h) hs

/-- **`semop` is atomic.**  In every run, a step of a `semop` call either applies its
whole array at one instant and returns, or it fails or goes to sleep and leaves every
semaphore value and every undo entry as it was; all values stay in range. -/
theorem semop_atomic {es : List Event} {ev : Event} (hs : Sound si s0)
    (hrun : Run (step si) s0 es s) (hcall : call s ev = some (p, semid, uops))
    (h : act si s ev = some (r, s')) : Atomic si s p semid uops r s' := by
  have hss := run_sound hs hrun
  cases ev with
  | semop p u semid sops copyin =>
      obtain ⟨rfl, h1⟩ := Prod.mk.inj (some.inj hcall)
      obtain ⟨rfl, rfl⟩ := Prod.mk.inj h1
      obtain ⟨h2, h3⟩ := Option.ite_none_right_eq_some.mp h
      exact (semop_step hss h2.2 (some.inj h3)).2
  | resume p =>
      unfold call at hcall
      unfold act at h
      simp only at hcall h
      cases hp : s.proc p with
      | user =>
          rw [hp] at h
          cases h
      | asleep c =>
          rw [hp] at h
          cases h
      | woken c sig =>
          rw [hp] at h hcall
          obtain ⟨rfl, h1⟩ := Prod.mk.inj (some.inj hcall)
          obtain ⟨rfl, rfl⟩ := Prod.mk.inj h1
          exact (resume_step hss (some.inj h)).2
  | semctl => cases hcall
  | semget => cases hcall
  | semexit => cases hcall
  | psignal => cases hcall

/-- A configuration with one set. -/
def tinyInfo : seminfo where
  semmni := 1
  semmsl := 2
  semopm := 5
  semume := 2
  semvmx := 32767
  semaem := 16384
  nproc := 3
  semvmx_le := by decide
  semaem_le := by decide
  nproc_le := by decide

/-- One set of two semaphores, both at 2, and three processes. -/
def tiny : State where
  sema := fun _ => ⟨⟨0, 0, 0, 0, IPC_ALLOC ||| 0o666, 0, 0⟩, 0, 2⟩
  sem := fun _ => ⟨2, 0, 0, 0⟩
  semu := fun _ => []
  semunp := []
  semfup := [0, 1, 2]
  sem_undo := fun _ => none
  proc := fun _ => .user

/-- The super user. -/
def root : user := ⟨0, 0, [], 1⟩

/-- The operation `n` on semaphore `num`. -/
def sop (num n : ℤ) (flg : ℕ) (h : -32768 ≤ n ∧ n ≤ 32767) : sembuf := ⟨num, n, flg, h⟩

theorem tiny_sound : Sound tinyInfo tiny :=
  ⟨⟨fun _ _ _ h => absurd h (Option.some_ne_none _).symm,
      fun _ _ h => absurd h (Option.some_ne_none _).symm, by decide, fun _ _ => rfl⟩,
    fun _ => .nil _, fun _ => (by decide : 2 ≤ 32767)⟩

/-- The operations on semaphore 0 go through, one with an undo entry; the one on semaphore 1
does not, and they are taken back. -/
def tinyops : List sembuf :=
  [sop 0 (-1) SEM_UNDO (by decide), sop 0 5 0 (by decide), sop 1 (-3) 0 (by decide)]

theorem semop_atomic_tiny : Atomic tinyInfo tiny 0 0 tinyops .slept
    (semop tinyInfo 0 root 0 tinyops true tiny).2 := by
  have hr : (semop tinyInfo 0 root 0 tinyops true tiny).1 = .slept := by decide +kernel
  have h : act tinyInfo tiny (.semop 0 root 0 tinyops true) =
      some (.slept, (semop tinyInfo 0 root 0 tinyops true tiny).2) := by
    rw [← hr]
    unfold act
    simp only
    rw [if_pos ⟨by decide, rfl⟩]
  exact semop_atomic tiny_sound (.nil tiny) rfl h

end IpcSem
