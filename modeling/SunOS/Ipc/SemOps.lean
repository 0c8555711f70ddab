/-
# One pass of `semop`

What a pass over an array does, said once: the operations go forward one by one, and either
all of them are done or those that were are taken back, which restores every value and
every undo entry.
-/
import SunOS.Ipc.SemUndo

namespace IpcSem

open List
open Function (update_of_ne update_self)
open Ipc SortedTable

variable {si : seminfo} {s s0 s1 s2 s' t : State} {p q up x y base i : ℕ} {id num val v : ℤ}
  {op : sembuf} {ops uops done d : List sembuf} {ch : Chan} {o : Outcome} {e : Errno}

/-! ## Stores -/

@[simp] theorem setval_semval : ((s.setval x v).sem y).semval =
    if y = x then ushort v else (s.sem y).semval := by
  unfold State.setval
  by_cases h : y = x
  · rw [if_pos h, h]
    simp only [update_self]
  · rw [if_neg h]
    simp only [update_of_ne h]

@[simp] theorem setpid_semval : ((s.setpid x v).sem y).semval = (s.sem y).semval := by
  unfold State.setpid
  by_cases h : y = x
  · rw [h]
    simp only [update_self]
  · simp only [update_of_ne h]

@[simp] theorem setcount_semval : ((s.setcount x v ch).sem y).semval = (s.sem y).semval := by
  by_cases h : y = x
  · cases ch <;> simp only [State.setcount, h, update_self]
  · cases ch <;> simp only [State.setcount, update_of_ne h]

@[simp] theorem wake_semval : ((s.wake x ch).sem y).semval = (s.sem y).semval := by
  unfold State.wake
  by_cases h : s.count x ch ≠ 0
  · rw [if_pos h]
    exact setcount_semval
  · rw [if_neg h]

/-- The undo structures are the same. -/
structure SameUndo (s s' : State) : Prop where
  semu : s'.semu = s.semu
  semfup : s'.semfup = s.semfup
  sem_undo : s'.sem_undo = s.sem_undo

theorem SameUndo.trans (h : SameUndo s s1) (h' : SameUndo s1 s') : SameUndo s s' :=
  ⟨h'.semu.trans h.semu, h'.semfup.trans h.semfup, h'.sem_undo.trans h.sem_undo⟩

theorem SameUndo.ents (h : SameUndo s s') (q : ℕ) : s'.ents q = s.ents q := by
  unfold State.ents
  rw [h.sem_undo, h.semu]

theorem SameUndo.owned (h : SameUndo s s') (ho : Owned s) : Owned s' := by
  refine ⟨?_, ?_, ?_, ?_⟩
  · rw [h.sem_undo]
    exact ho.owner
  · rw [h.sem_undo, h.semfup]
    exact ho.busy
  · rw [h.semfup]
    exact ho.nodup
  · rw [h.semfup, h.semu]
    exact ho.empty

theorem setval_sameUndo : SameUndo s (s.setval x v) := ⟨rfl, rfl, rfl⟩

theorem setcount_sameUndo : SameUndo s (s.setcount x v ch) := by
  cases ch <;> exact ⟨rfl, rfl, rfl⟩

theorem wake_sameUndo : SameUndo s (s.wake x ch) := by
  unfold State.wake
  by_cases h : s.count x ch ≠ 0
  · rw [if_pos h]
    cases ch <;> exact ⟨rfl, rfl, rfl⟩
  · rw [if_neg h]
    exact ⟨rfl, rfl, rfl⟩

@[simp] theorem setval_sema : (s.setval x v).sema = s.sema := rfl

@[simp] theorem setcount_sema : (s.setcount x v ch).sema = s.sema := by
  cases ch <;> rfl

@[simp] theorem wake_sema : (s.wake x ch).sema = s.sema := by
  unfold State.wake
  by_cases h : s.count x ch ≠ 0
  · rw [if_pos h]
    cases ch <;> rfl
  · rw [if_neg h]

/-! ## Values and entries -/

/-- The values are in range and the tables in order. -/
structure Sound (si : seminfo) (s : State) : Prop where
  owned : Owned s
  tables : ∀ p, TableOk si (s.ents p)
  values : ∀ x, (s.sem x).semval ≤ si.semvmx

/-- Every semaphore value and every undo entry is as before. -/
structure Unchanged (s s' : State) : Prop where
  vals : ∀ x, (s'.sem x).semval = (s.sem x).semval
  ents : ∀ q, s'.ents q = s.ents q

theorem Unchanged.refl (s : State) : Unchanged s s := ⟨fun _ => rfl, fun _ => rfl⟩

theorem Unchanged.trans (h : Unchanged s s1) (h' : Unchanged s1 s') : Unchanged s s' :=
  ⟨fun x => (h'.vals x).trans (h.vals x), fun q => (h'.ents q).trans (h.ents q)⟩

theorem Unchanged.sound (h : Unchanged s s') (hs : Sound si s) (ho : Owned s') : Sound si s' := by
  refine ⟨ho, fun q => ?_, fun x => ?_⟩
  · rw [h.ents]
    exact hs.tables q
  · rw [h.vals]
    exact hs.values x

theorem Kept.unchanged (h : Kept s s') : Unchanged s s' :=
  ⟨fun x => by rw [h.sem], h.ents⟩

/-- What an operation adds to the adjustments of the caller's exit, negated. -/
def sembuf.adj (op : sembuf) : ℤ := if op.sem_flg &&& SEM_UNDO ≠ 0 then op.sem_op else 0

/-- The sum of the operations on semaphore number `n` of the set. -/
def net (uops : List sembuf) (n : ℕ) : ℤ :=
  ((uops.filter fun op => op.sem_num.toNat = n).map sembuf.sem_op).sum

/-- The sum of the `SEM_UNDO` operations on semaphore number `num` of the set. -/
def netadj (uops : List sembuf) (num : ℤ) : ℤ :=
  ((uops.filter fun op => op.sem_num = num).map sembuf.adj).sum

theorem net_cons (n : ℕ) : net (op :: ops) n = (if op.sem_num.toNat = n then op.sem_op else 0) + net
    ops n := by
  unfold net
  by_cases h : op.sem_num.toNat = n
  · rw [if_pos h, filter_cons_of_pos (by simpa using h), map_cons, sum_cons]
  · rw [if_neg h, filter_cons_of_neg (by simpa using h), zero_add]

theorem netadj_cons (num : ℤ) :
    netadj (op :: ops) num = (if op.sem_num = num then op.adj else 0) + netadj ops num := by
  unfold netadj
  by_cases h : op.sem_num = num
  · rw [if_pos h, filter_cons_of_pos (by simpa using h), map_cons, sum_cons]
  · rw [if_neg h, filter_cons_of_neg (by simpa using h), zero_add]

theorem net_reverse (n : ℕ) : net uops.reverse n = net uops n := by
  unfold net
  rw [filter_reverse, map_reverse, sum_reverse]

theorem netadj_reverse (num : ℤ) : netadj uops.reverse num = netadj uops num := by
  unfold netadj
  rw [filter_reverse, map_reverse, sum_reverse]

/-- **Every operation of the array is applied**: each value of the set that begins at
`base` moves by the operations on it, and the adjustments of process `p` by minus the
`SEM_UNDO` ones. -/
structure Applied (s : State) (p : ℕ) (semid : ℤ) (base : ℕ) (uops : List sembuf) (s' : State) :
    Prop where
  vals : ∀ x, ((s'.sem x).semval : ℤ) =
    (s.sem x).semval + if base ≤ x then net uops (x - base) else 0
  own : ∀ id num, amount (s'.ents p) (toLex (id, num)) =
    amount (s.ents p) (toLex (id, num)) - if id = semid then netadj uops num else 0
  others : ∀ q, q ≠ p → s'.ents q = s.ents q

/-! ## Forward -/

/-- The store and the wakeups of an operation that changes a value. -/
def perform (op : sembuf) (semp : ℕ) (s : State) : State :=
  let s := s.setval semp ((s.sem semp).semval + op.sem_op)
  let s := if 0 < op.sem_op then s.wake semp .semncnt else s
  if (s.sem semp).semval = 0 then s.wake semp .semzcnt else s

/-- The operation at the head of the array goes through, from `s`. -/
inductive Forward (si : seminfo) (p : ℕ) (id : ℤ) (base : ℕ) (op : sembuf) (s : State) :
    State → Prop
  | zero (h : op.sem_op = 0) (hv : (s.sem (base + op.sem_num.toNat)).semval = 0) :
      Forward si p id base op s s
  | change {s1 : State} (h : op.sem_op ≠ 0)
      (hlo : 0 ≤ (s.sem (base + op.sem_num.toNat)).semval + op.sem_op)
      (hhi : (s.sem (base + op.sem_num.toNat)).semval + op.sem_op ≤ si.semvmx)
      (ha : semadj si p op.sem_op id op s = (none, s1)) :
      Forward si p id base op s (perform op (base + op.sem_num.toNat) s1)

/-- The operations `done`, the last one first, lead from `s0` to `s`. -/
inductive Doing (si : seminfo) (p : ℕ) (id : ℤ) (base : ℕ) (s0 : State) :
    List sembuf → State → Prop
  | nil : Doing si p id base s0 [] s0
  | cons {op : sembuf} {done : List sembuf} {s s' : State} :
      Doing si p id base s0 done s → Forward si p id base op s s' →
      Doing si p id base s0 (op :: done) s'

/-- Operation `op` cannot be done at `s`, and has to wait for counter `ch`. -/
def Waits (op : sembuf) (v : ℕ) : Chan → Prop
  | .semncnt => op.sem_op < 0 ∧ v < -op.sem_op
  | .semzcnt => op.sem_op = 0 ∧ v ≠ 0

/-- **What a pass does.**  It goes forward to the end of the array; or up to an operation
that fails or has to wait, and takes back the ones before. -/
inductive Pass (si : seminfo) (p : ℕ) (id : ℤ) (base : ℕ) (uops : List sembuf) (s0 : State) :
    Outcome → State → Prop
  | done {s : State} : Doing si p id base s0 uops.reverse s → Pass si p id base uops s0 .done s
  | fail {d : List sembuf} {s s1 : State} {e : Errno} :
      Doing si p id base s0 d s → Kept s s1 →
      Pass si p id base uops s0 (.fail e) (semundo si p id base d s1)
  | block {d ops : List sembuf} {op : sembuf} {s : State} {ch : Chan} :
      uops = d.reverse ++ op :: ops → Doing si p id base s0 d s →
      Waits op (s.sem (base + op.sem_num.toNat)).semval ch →
      Pass si p id base uops s0 (.block (base + op.sem_num.toNat) ch d.length)
        ((semundo si p id base d s).setcount (base + op.sem_num.toNat)
          ((semundo si p id base d s).count (base + op.sem_num.toNat) ch + 1) ch)

theorem adj_of_undo (h : op.sem_flg &&& SEM_UNDO ≠ 0) : op.adj = op.sem_op := if_pos h

theorem adj_of_not (h : ¬ op.sem_flg &&& SEM_UNDO ≠ 0) : op.adj = 0 := if_neg h

/-- `semadj` adds minus the operation to the adjustment, or leaves every entry. -/
theorem semadj_spec (id : ℤ) (op : sembuf) (h : Owned s) (ht : TableOk si (s.ents p)) :
    (∃ e s', semadj si p op.sem_op id op s = (some e, s') ∧ Kept s s') ∨
      ∃ s', semadj si p op.sem_op id op s = (none, s') ∧
        Adjusted si s p id op.sem_num (-op.adj) s' ∧
        (op.adj ≠ 0 → s'.sem_undo p ≠ none ∧
          ¬ (op.sem_op > si.semaem ∨ op.sem_op < -si.semaem)) := by
  unfold semadj
  by_cases hf : op.sem_flg &&& SEM_UNDO ≠ 0
  · rw [if_pos hf, adj_of_undo hf]
    rcases semaoe_spec op.sem_op id op.sem_num h ht with ⟨e, s', h1, h2, -⟩ | h1
    · exact .inl ⟨e, s', h1, h2⟩
    · exact .inr h1
  · rw [if_neg hf, adj_of_not hf]
    refine .inr ⟨s, rfl, ⟨h, fun _ h => h, rfl, rfl, rfl, ht, fun k => ?_, fun _ _ => rfl⟩,
      fun h1 => absurd rfl h1⟩
    rw [neg_zero, ite_self, add_zero]

/-- The effect of one operation on values and entries. -/
structure Did (si : seminfo) (p : ℕ) (id : ℤ) (base : ℕ) (op : sembuf) (s s' : State) : Prop where
  tables : ∀ q, TableOk si (s.ents q)
  values : ∀ x, (s.sem x).semval ≤ si.semvmx
  val : ∀ x, ((s'.sem x).semval : ℤ) =
    (s.sem x).semval + if x = base + op.sem_num.toNat then op.sem_op else 0
  amount : ∀ k, amount (s'.ents p) k =
    amount (s.ents p) k + if toLex (id, op.sem_num) = k then -op.adj else 0
  others : ∀ q, q ≠ p → s'.ents q = s.ents q
  small : op.adj ≠ 0 → ¬ (op.sem_op > si.semaem ∨ op.sem_op < -si.semaem)

theorem ushort_of_fits (h0 : 0 ≤ v) (h1 : v < 65536) : (ushort v : ℤ) = v := by
  unfold ushort
  rw [Int.emod_eq_of_lt h0 h1, Int.toNat_of_nonneg h0]

@[simp] theorem perform_semval : ((perform op x s).sem y).semval =
    if y = x then ushort ((s.sem x).semval + op.sem_op) else (s.sem y).semval := by
  unfold perform
  simp only
  split <;> split <;> simp

theorem perform_sameUndo : SameUndo s (perform op x s) := by
  unfold perform
  simp only
  split <;> split
  · exact (setval_sameUndo.trans wake_sameUndo).trans wake_sameUndo
  · exact setval_sameUndo.trans wake_sameUndo
  · exact setval_sameUndo.trans wake_sameUndo
  · exact setval_sameUndo

@[simp] theorem perform_sema : (perform op x s).sema = s.sema := by
  unfold perform
  simp only
  split <;> split <;> simp

theorem Forward.sema (h : Forward si p id base op s s') (hs : Sound si s) : s'.sema = s.sema := by
  cases h with
  | zero => rfl
  | change _ _ _ ha =>
    rw [perform_sema]
    rcases semadj_spec id op hs.owned (hs.tables p) with
      ⟨e, t, h1, -⟩ | ⟨t, h1, h2, -⟩
    · rw [h1] at ha
      cases ha
    · rw [h1] at ha
      cases ha
      exact h2.sema

theorem Forward.spec (h : Forward si p id base op s s') (hs : Sound si s) :
    Sound si s' ∧ Did si p id base op s s' ∧ (op.adj ≠ 0 → s'.sem_undo p ≠ none) ∧
      ∀ q, s.sem_undo q ≠ none → s'.sem_undo q ≠ none := by
  cases h with
  | zero h0 hv =>
    have hadj : op.adj = 0 := by
      unfold sembuf.adj
      rw [h0, ite_self]
    refine ⟨hs, ⟨hs.tables, hs.values, fun x => ?_, fun k => ?_, fun _ _ => rfl,
      fun h1 => absurd hadj h1⟩, fun h1 => absurd hadj h1, fun _ h => h⟩
    · rw [h0, ite_self, add_zero]
    · rw [hadj, neg_zero, ite_self, add_zero]
  | change h0 hlo hhi ha =>
    rename_i s1
    rcases semadj_spec id op hs.owned (hs.tables p) with
      ⟨e, t, h1, -⟩ | ⟨t, h1, h2, h3⟩
    · rw [h1] at ha
      cases ha
    · rw [h1] at ha
      cases ha
      have hmx := si.semvmx_le
      unfold SEMVMX at hmx
      have hsu : SameUndo s1 (perform op (base + op.sem_num.toNat) s1) := perform_sameUndo
      have hval : ∀ x, (((perform op (base + op.sem_num.toNat) s1).sem x).semval : ℤ) =
          (s.sem x).semval + if x = base + op.sem_num.toNat then op.sem_op else 0 := by
        intro x
        rw [perform_semval, h2.sem]
        by_cases hx : x = base + op.sem_num.toNat
        · rw [if_pos hx, if_pos hx, ushort_of_fits hlo (by omega), hx]
        · rw [if_neg hx, if_neg hx, add_zero]
      refine ⟨⟨hsu.owned h2.owned, fun q => ?_, fun x => ?_⟩,
        ⟨hs.tables, hs.values, hval, fun k => ?_, fun q hq => ?_, fun h4 => (h3 h4).2⟩,
        fun h4 => ?_, fun q hq => ?_⟩
      · rw [hsu.ents]
        by_cases hq : q = p
        · rw [hq]
          exact h2.table
        · rw [h2.others q hq]
          exact hs.tables q
      · have h4 := hval x
        have h5 := hs.values x
        by_cases hx : x = base + op.sem_num.toNat
        · rw [if_pos hx, hx] at h4
          rw [hx]
          omega
        · rw [if_neg hx] at h4
          omega
      · rw [hsu.ents, h2.amount]
      · rw [hsu.ents, h2.others q hq]
      · rw [hsu.sem_undo]
        exact (h3 h4).1
      · rw [hsu.sem_undo]
        exact h2.has q hq

/-! ## Back -/

/-- The operations `done` lead from the values and entries of `s0` to those of `s`. -/
def Tentative (si : seminfo) (p : ℕ) (id : ℤ) (base : ℕ) (s0 : State) : List sembuf → State → Prop
  | [], s => Unchanged s0 s
  | op :: done, s => ∃ s1, Tentative si p id base s0 done s1 ∧ Did si p id base op s1 s

theorem Did.congr (h : Did si p id base op s1 s) (hu : Unchanged s s') :
    Did si p id base op s1 s' := by
  refine ⟨h.tables, h.values, fun x => ?_, fun k => ?_, fun q hq => ?_, h.small⟩
  · rw [hu.vals, h.val]
  · rw [hu.ents, h.amount]
  · rw [hu.ents, h.others q hq]

theorem Tentative.congr (h : Tentative si p id base s0 done s) (hu : Unchanged s s') :
    Tentative si p id base s0 done s' := by
  cases done with
  | nil => exact Unchanged.trans h hu
  | cons op done =>
    obtain ⟨s1, h1, h2⟩ := h
    exact ⟨s1, h1, h2.congr hu⟩

/-- The part of the state that `semundo` does not touch. -/
structure Rest (s s' : State) : Prop where
  owned : Owned s'
  proc : s'.proc = s.proc
  sema : s'.sema = s.sema
  count : ∀ x ch, s'.count x ch = s.count x ch

theorem setval_count : (s.setval x v).count y ch = s.count y ch := by
  by_cases h : y = x
  · cases ch <;> simp only [State.count, State.setval, h, update_self]
  · cases ch <;> simp only [State.count, State.setval, update_of_ne h]

/-- **One operation is taken back.** -/
theorem Did.back (h : Did si p id base op s1 s) (ho : Owned s) (ht : TableOk si (s.ents p))
    (hhas : op.adj ≠ 0 → s.sem_undo p ≠ none) {s' : State}
    (hs' : s' = (semadj si p (int16 (-op.sem_op)) id op (s.setval (base + op.sem_num.toNat)
      ((s.sem (base + op.sem_num.toNat)).semval - op.sem_op))).2) :
    Unchanged s1 s' ∧ Rest s s' ∧ ∀ q, s.sem_undo q ≠ none → s'.sem_undo q ≠ none := by
  have hmx := si.semvmx_le
  unfold SEMVMX at hmx
  have hv := h.val (base + op.sem_num.toNat)
  have hv1 := h.values (base + op.sem_num.toNat)
  have hop := op.op_short
  have hint : int16 (-op.sem_op) = -op.sem_op := int16_of_fits (by lia)
  rw [hint] at hs'
  have hsu : SameUndo s (s.setval (base + op.sem_num.toNat)
      ((s.sem (base + op.sem_num.toNat)).semval - op.sem_op)) := setval_sameUndo
  have hvals : ∀ x, ((s.setval (base + op.sem_num.toNat)
      ((s.sem (base + op.sem_num.toNat)).semval - op.sem_op)).sem x).semval =
        (s1.sem x).semval := by
    intro x
    rw [setval_semval]
    have h1 := h.val x
    by_cases hx : x = base + op.sem_num.toNat
    · rw [if_pos hx, hx]
      have h2 : (ushort (((s.sem (base + op.sem_num.toNat)).semval : ℤ) - op.sem_op) : ℤ) = _ :=
        ushort_of_fits (by lia) (by lia)
      lia
    · rw [if_neg hx] at h1 ⊢
      lia
  unfold semadj at hs'
  by_cases hf : op.sem_flg &&& SEM_UNDO ≠ 0
  · rw [if_pos hf] at hs'
    have hadj := adj_of_undo hf
    by_cases h0 : op.sem_op = 0
    · -- nothing was added
      have hs'' : s' = s.setval (base + op.sem_num.toNat)
          ((s.sem (base + op.sem_num.toNat)).semval - op.sem_op) := by
        rw [hs']
        unfold semaoe
        rw [if_pos (by lia)]
      rw [hs'']
      refine ⟨⟨hvals, fun q => ?_⟩, ⟨hsu.owned ho, rfl, rfl, fun _ _ => setval_count⟩, fun _ h => h⟩
      rw [hsu.ents]
      by_cases hq : q = p
      · rw [hq]
        refine ht.ext (h.tables p) fun k => ?_
        rw [h.amount, hadj, h0, neg_zero, ite_self, add_zero]
      · exact h.others q hq
    · have hne : op.adj ≠ 0 := by
        rw [hadj]
        exact h0
      have hsm := h.small hne
      have hr := semaoe_back (-op.sem_op) id op.sem_num (hsu.owned ho) (by rw [hsu.ents]; exact ht)
        (h.tables p)
        (by rw [hsu.sem_undo]; exact hhas hne) (by lia) fun k => by
          rw [hsu.ents, h.amount, hadj]
      rw [← hs'] at hr
      refine ⟨⟨fun x => ?_, fun q => ?_⟩, ⟨hr.owned, hr.proc, hr.sema, fun x ch => ?_⟩,
        fun q hq => hr.has q hq⟩
      · rw [hr.sem]
        exact hvals x
      · by_cases hq : q = p
        · rw [hq]
          exact hr.ents
        · rw [hr.others q hq, hsu.ents, h.others q hq]
      · have : s'.count x ch = (s.setval (base + op.sem_num.toNat)
            ((s.sem (base + op.sem_num.toNat)).semval - op.sem_op)).count x ch := by
          cases ch <;> simp only [State.count, hr.sem]
        rw [this, setval_count]
  · rw [if_neg hf] at hs'
    have hadj := adj_of_not hf
    rw [hs']
    refine ⟨⟨hvals, fun q => ?_⟩, ⟨hsu.owned ho, rfl, rfl, fun _ _ => setval_count⟩, fun _ h => h⟩
    show (s.setval _ _).ents q = _
    rw [hsu.ents]
    by_cases hq : q = p
    · rw [hq]
      refine ht.ext (h.tables p) fun k => ?_
      rw [h.amount, hadj, neg_zero, ite_self, add_zero]
    · exact h.others q hq

theorem Rest.refl (h : Owned s) : Rest s s := ⟨h, rfl, rfl, fun _ _ => rfl⟩

theorem Rest.trans (h : Rest s s1) (h' : Rest s1 s') : Rest s s' :=
  ⟨h'.owned, h'.proc.trans h.proc, h'.sema.trans h.sema,
    fun x ch => (h'.count x ch).trans (h.count x ch)⟩

/-- An operation of zero did nothing. -/
theorem Did.zero (h : Did si p id base op s1 s) (ht : TableOk si (s.ents p)) (h0 : op.sem_op = 0) :
    Unchanged s1 s := by
  have hadj : op.adj = 0 := by
    unfold sembuf.adj
    rw [h0, ite_self]
  refine ⟨fun x => ?_, fun q => ?_⟩
  · have h1 := h.val x
    omega
  · by_cases hq : q = p
    · rw [hq]
      refine ht.ext (h.tables p) fun k => ?_
      rw [h.amount, hadj, neg_zero, ite_self, add_zero]
    · exact h.others q hq

/-- **`semundo`** restores every value and every entry. -/
theorem semundo_spec (h : Tentative si p id base s0 done s) (ho : Owned s)
    (ht : ∀ q, TableOk si (s.ents q)) (hhas : ∀ op ∈ done, op.adj ≠ 0 → s.sem_undo p ≠ none) :
    Unchanged s0 (semundo si p id base done s) ∧ Rest s (semundo si p id base done s) := by
  induction done generalizing s with
  | nil => exact ⟨h, .refl ho⟩
  | cons op done ih =>
    obtain ⟨s1, h1, h2⟩ := h
    unfold semundo
    by_cases h0 : op.sem_op = 0
    · rw [if_pos h0]
      exact ih (h1.congr (h2.zero (ht p) h0)) ho ht fun o ho => hhas o (mem_cons_of_mem _ ho)
    · rw [if_neg h0]
      obtain ⟨h3, h4, h5⟩ := h2.back ho (ht p) (hhas op (mem_cons_self ..)) rfl
      obtain ⟨h6, h7⟩ := ih (h1.congr h3) h4.owned
        (fun q => by rw [h3.ents]; exact h2.tables q)
        fun o ho ha => h5 p (hhas o (mem_cons_of_mem _ ho) ha)
      exact ⟨h6, h4.trans h7⟩

theorem Doing.spec (h : Doing si p id base s0 done s) (hs : Sound si s0) :
    Sound si s ∧ Tentative si p id base s0 done s ∧
      (∀ op ∈ done, op.adj ≠ 0 → s.sem_undo p ≠ none) ∧ s.sema = s0.sema := by
  induction h with
  | nil => exact ⟨hs, .refl s0, fun op h => absurd h not_mem_nil, rfl⟩
  | cons h1 h2 ih =>
    obtain ⟨h3, h4, h5, h6⟩ := ih
    obtain ⟨h7, h8, h9, h10⟩ := h2.spec h3
    refine ⟨h7, ⟨_, h4, h8⟩, fun op ho ha => ?_, (h2.sema h3).trans h6⟩
    rcases List.mem_cons.mp ho with rfl | ho
    · exact h9 ha
    · exact h10 p (h5 op ho ha)

/-- Where operations were done, they add up. -/
theorem Tentative.applied (h : Tentative si p id base s0 done s) :
    Applied s0 p id base done s := by
  induction done generalizing s with
  | nil =>
    refine ⟨fun x => ?_, fun i n => ?_, fun q _ => h.ents q⟩
    · rw [h.vals]
      simp [net]
    · rw [h.ents]
      simp [netadj]
  | cons op done ih =>
    obtain ⟨s1, h1, h2⟩ := h
    have h3 := ih h1
    refine ⟨fun x => ?_, fun i n => ?_, fun q hq => (h2.others q hq).trans (h3.others q hq)⟩
    · rw [h2.val, h3.vals, net_cons]
      by_cases hx : base ≤ x
      · rw [if_pos hx, if_pos hx]
        by_cases hn : op.sem_num.toNat = x - base
        · rw [if_pos hn, if_pos (by lia)]
          lia
        · rw [if_neg hn, if_neg (by lia)]
          lia
      · rw [if_neg hx, if_neg hx, if_neg (by lia)]
        lia
    · have hkey : toLex (id, op.sem_num) = toLex (i, n) ↔ id = i ∧ op.sem_num = n := by
        rw [toLex_inj, Prod.mk.injEq]
      rw [h2.amount, h3.own, netadj_cons]
      by_cases hi : i = id
      · rw [if_pos hi, if_pos hi]
        by_cases hn : op.sem_num = n
        · rw [if_pos hn, if_pos (hkey.mpr ⟨hi.symm, hn⟩)]
          lia
        · rw [if_neg hn, if_neg fun h => hn (hkey.mp h).2]
          lia
      · rw [if_neg hi, if_neg hi, if_neg fun h => hi (hkey.mp h).1.symm]
        lia

/-! ## The pass -/

/-- **One pass** from a sound state. -/
theorem semops_pass (hs : Sound si s0) (hu : uops = done.reverse ++ ops)
    (hd : Doing si p id base s0 done s) {r : Outcome × State}
    (hr : semops si p id base done ops s = r) : Pass si p id base uops s0 r.1 r.2 := by
  induction ops generalizing done s with
  | nil =>
    rw [← hr]
    refine .done ?_
    rw [hu, append_nil, reverse_reverse]
    exact hd
  | cons op ops ih =>
    obtain ⟨hss, -, -, -⟩ := hd.spec hs
    have hu' : uops = (op :: done).reverse ++ ops := by
      rw [reverse_cons, append_assoc]
      exact hu
    have hwait : ∀ ch, Waits op (s.sem (base + op.sem_num.toNat)).semval ch →
        semwait op (base + op.sem_num.toNat) ch done.length (semundo si p id base done s) = r →
        Pass si p id base uops s0 r.1 r.2 := by
      intro ch hw hr
      unfold semwait at hr
      by_cases hf : op.sem_flg &&& IPC_NOWAIT ≠ 0
      · rw [if_pos hf] at hr
        rw [← hr]
        exact .fail hd (.refl hss.owned)
      · rw [if_neg hf] at hr
        rw [← hr]
        exact .block hu hd hw
    have hadj := semadj_spec id op hss.owned (hss.tables p)
    unfold semops at hr
    by_cases hpos : 0 < op.sem_op
    · rw [if_pos hpos] at hr
      by_cases hmx : si.semvmx < op.sem_op + (s.sem (base + op.sem_num.toNat)).semval
      · rw [if_pos hmx] at hr
        rw [← hr]
        exact .fail hd (.refl hss.owned)
      · rw [if_neg hmx] at hr
        cases ha : semadj si p op.sem_op id op s with
        | mk err s1 =>
          rw [ha] at hr
          cases err with
          | some e =>
            rw [← hr]
            rcases hadj with ⟨e, t, h1, h2⟩ | ⟨t, h1, -⟩
            · rw [h1] at ha
              cases ha
              exact .fail hd h2
            · rw [h1] at ha
              cases ha
          | none =>
            refine ih hu' (.cons hd (.change (by lia) (by lia) (by lia) ha)) ?_
            unfold perform
            simp only
            rw [if_pos hpos]
            exact hr
    · rw [if_neg hpos] at hr
      by_cases hneg : op.sem_op < 0
      · rw [if_pos hneg] at hr
        by_cases hlo : -op.sem_op ≤ (s.sem (base + op.sem_num.toNat)).semval
        · rw [if_pos hlo] at hr
          cases ha : semadj si p op.sem_op id op s with
          | mk err s1 =>
            rw [ha] at hr
            cases err with
            | some e =>
              rw [← hr]
              rcases hadj with ⟨e, t, h1, h2⟩ | ⟨t, h1, -⟩
              · rw [h1] at ha
                cases ha
                exact .fail hd h2
              · rw [h1] at ha
                cases ha
            | none =>
              have hv := hss.values (base + op.sem_num.toNat)
              refine ih hu' (.cons hd (.change (by lia) (by lia) (by lia) ha)) ?_
              unfold perform
              simp only
              rw [if_neg hpos]
              exact hr
        · rw [if_neg hlo] at hr
          exact hwait .semncnt ⟨hneg, by lia⟩ hr
      · rw [if_neg hneg] at hr
        by_cases hv : (s.sem (base + op.sem_num.toNat)).semval ≠ 0
        · rw [if_pos hv] at hr
          exact hwait .semzcnt ⟨by lia, hv⟩ hr
        · rw [if_neg hv] at hr
          exact ih hu' (.cons hd (.zero (by lia) (by lia))) hr

end IpcSem
