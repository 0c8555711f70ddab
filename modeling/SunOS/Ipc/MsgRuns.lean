/-
# Message queues are typed lists

Every run of the message calls, by any number of processes that are switched out wherever
they can be, is a run of the message lists, as long as nobody takes or removes what another
process is copying.  Without a lock nothing prevents that: two receivers can be given the
same message.
-/
import SunOS.Ipc.MsgCalls
import SunOS.Kern.RmapRuns

namespace IpcMsg

open List
open Ipc

variable {mi : msginfo} {s s0 t : State} {g : Ghost} {A B : Lists}
  {es : List (Event × Result)} {q : ℕ}

/-! ## Where runs start -/

/-- The data as the kernel is loaded: all zeros, and nobody in a call. -/
structure Blank (mi : msginfo) (z : State) : Prop where
  tql : 0 < mi.msgtql
  map : z.msgmap.slots.length + 1 = mi.msgmap ∧ ∀ b ∈ z.msgmap.slots, b.m_size = 0
  next : ∀ h, z.next h = 0
  que : ∀ qp, (z.msgque qp).msg_first = 0 ∧ (z.msgque qp).msg_last = 0 ∧
    (z.msgque qp).msg_qnum = 0 ∧ (z.msgque qp).msg_cbytes = 0
  proc : ∀ p, z.proc p = .user

/-- The state after `msginit`. -/
def Boot (mi : msginfo) (s : State) : Prop := ∃ z name, Blank mi z ∧ s = msginit mi name z

theorem chain_range' {next : ℕ → ℕ} {a k : ℕ} (ha : 0 < a) (hk : 0 < k)
    (hn : ∀ h, a ≤ h → h + 1 < a + k → next h = h + 1) (hend : next (a + k - 1) = 0) :
    Chain next a (List.range' a k) := by
  induction k generalizing a with
  | zero => lia
  | succ k ih =>
    rw [List.range'_succ]
    refine ⟨rfl, by lia, ?_⟩
    by_cases hk0 : k = 0
    · subst hk0
      exact hend
    · rw [hn a le_rfl (by lia)]
      refine ih (by lia) (by lia) (fun h h1 h2 => hn h (by lia) (by lia)) ?_
      have heq : a + 1 + k - 1 = a + (k + 1) - 1 := by lia
      rw [heq]
      exact hend

/-- All headers are free at first. -/
def Ghost.start (mi : msginfo) : Ghost where
  free := List.range' 1 mi.msgtql
  que _ := []
  own h := if 1 ≤ h ∧ h ≤ mi.msgtql then some .free else none
  blk _ := (0, 0)
  item _ := ⟨0, 0, []⟩

theorem inv_boot (hcfg : Config mi) (hb : Boot mi s) : Inv mi s (.start mi) .empty := by
  obtain ⟨z, name, hz, rfl⟩ := hb
  have hown : ∀ h w, (Ghost.start mi).own h = some w → w = .free ∧ 1 ≤ h ∧ h ≤ mi.msgtql := by
    intro h w hw
    change (if 1 ≤ h ∧ h ≤ mi.msgtql then some Owner.free else none) = some w at hw
    by_cases hh : 1 ≤ h ∧ h ≤ mi.msgtql
    · rw [if_pos hh] at hw
      exact ⟨(Option.some.inj hw).symm, hh⟩
    · rw [if_neg hh] at hw
      cases hw
  have hlen := hz.map.1
  have hroom := hcfg.room
  have htql := hz.tql
  have hseg := mi.msgseg_lt
  obtain ⟨l, hl, hslots, -, hcov⟩ := Rmap.rminit_holds name
    (show 3 ≤ z.msgmap.slots.length by lia) (show Rmap.Ok z.msgmap (.rminit mi.msgseg 1 name) from
      ⟨hz.map.2, by lia, fun _ => ⟨by lia, by unfold INT_MAX; lia⟩⟩)
  refine ⟨?_, fun qp => ?_, fun p => ⟨?_, fun h => ?_⟩, fun qp => rfl⟩
  · refine ⟨fun h => ?_, fun h => ?_, fun qp h => ?_, List.nodup_range', fun _ => nodup_nil, ?_,
      fun qp => (hz.que qp).1, fun qp => (hz.que qp).2.1, ⟨?_, ?_, fun _ _ => rfl, l, hl, ?_, ?_⟩,
      fun _ _ => rfl, fun _ _ hh => (not_mem_nil hh).elim,
      fun _ _ hh => (not_mem_nil hh).elim,
      fun qp => (hz.que qp).2.2.1, fun _ _ => rfl⟩
    · show (if 1 ≤ h ∧ h ≤ mi.msgtql then some Owner.free else none) ≠ none ↔ _
      by_cases hh : 1 ≤ h ∧ h ≤ mi.msgtql
      · rw [if_pos hh]
        simp [hh]
      · rw [if_neg hh]
        simp [hh]
    · show h ∈ List.range' 1 mi.msgtql ↔
        (if 1 ≤ h ∧ h ≤ mi.msgtql then some Owner.free else none) = _
      rw [List.mem_range'_1]
      by_cases hh : 1 ≤ h ∧ h ≤ mi.msgtql
      · rw [if_pos hh]
        exact ⟨fun _ => rfl, fun _ => by lia⟩
      · rw [if_neg hh]
        exact ⟨fun h1 => absurd h1 (by lia), fun h1 => by cases h1⟩
    · refine ⟨fun hh => (not_mem_nil hh).elim, fun hh => ?_⟩
      cases (hown h _ hh).1
    · show Chain (fun h => if 1 ≤ h ∧ h < mi.msgtql then h + 1 else z.next h) 1
        (List.range' 1 mi.msgtql)
      refine chain_range' (by lia) htql (fun h h1 h2 => if_pos (by lia)) ?_
      show (if _ then _ else _) = 0
      rw [if_neg (by lia)]
      exact hz.next _
    · exact (congrArg (· + 1) hslots).trans hlen
    · intro g h _
      rw [show (Ghost.start mi).blk g = (0, 0) from rfl, units_empty]
      exact Set.empty_disjoint _
    · intro h
      rw [show (Ghost.start mi).blk h = (0, 0) from rfl, units_empty]
      exact Set.empty_disjoint _
    · intro u
      rw [hcov]
      constructor
      · rintro (hu | ⟨h, hu⟩)
        · exact ⟨hu.1, by have := hu.2; lia⟩
        · rw [show (Ghost.start mi).blk h = (0, 0) from rfl, units_empty] at hu
          exact hu.elim
      · exact fun hu => Or.inl ⟨hu.1, by lia⟩
  · exact ⟨(hz.que qp).2.2.2, by show 0 < 65536; lia⟩
  · show Fits mi _ _ _ p (z.proc p)
    rw [hz.proc p]
    trivial
  · show _ ↔ (z.proc p).hand = some h
    rw [hz.proc p]
    refine ⟨fun hh => ?_, fun hh => by cases hh⟩
    cases (hown h _ hh).1

/-! ## What holds of a state -/

/-- Every header is free, on one queue or in the hands of one sender, and every segment is
free or in the block of one header. -/
def Placed (mi : msginfo) (s : State) : Prop :=
  ∃ (place : ℕ → Option Owner) (blk : ℕ → ℤ × ℤ),
    (∀ h, place h ≠ none ↔ 1 ≤ h ∧ h ≤ mi.msgtql) ∧
    (∃ free, Chain s.next s.msgfp free ∧ free.Nodup ∧ ∀ h, h ∈ free ↔ place h = some .free) ∧
    (∀ qp, ∃ que, Chain s.next (s.msgque qp).msg_first que ∧ que.Nodup ∧
      ∀ h, (h ∈ que ↔ place h = some (.que qp)) ∧
        (h ∈ que → blk h = block mi (s.msgh h).msg_spot (s.msgh h).msg_ts)) ∧
    (∀ p h, place h = some (.hand p) ↔ (s.proc p).hand = some h) ∧
    (∀ p a qp type mp spot, s.proc p = .copying (.sndtext a qp type mp spot) →
      blk mp = block mi spot a.msgsz.toNat) ∧
    (∀ h, place h = some .free → blk h = (0, 0)) ∧ Shared mi s.msgmap blk

/-- `msg_qnum` and `msg_cbytes` are the number and the total size of the queued messages. -/
def Tallied (s : State) (A : Lists) : Prop :=
  ∀ qp, (s.msgque qp).msg_qnum = (A.que qp).length ∧
    (s.msgque qp).msg_cbytes = ((A.que qp).map fun m => m.bytes.length).sum

theorem Inv.placed (hi : Inv mi s g A) : Placed mi s := by
  refine ⟨g.own, g.blk, hi.core.own, ⟨g.free, hi.core.free, hi.core.free_nodup, hi.core.free_own⟩,
    fun qp => ⟨g.que qp, hi.core.first qp, hi.core.que_nodup qp, fun h =>
      ⟨hi.core.que_own qp h, hi.core.queued qp h⟩⟩, fun p => (hi.procs p).hand, ?_, hi.core.idle,
    hi.core.shared⟩
  intro p a qp type mp spot hp
  have hf := (hi.procs p).fits
  rw [hp] at hf
  exact hf.2.2.2

theorem Inv.tallied (hi : Inv mi s g A) : Tallied s A := by
  intro qp
  rw [hi.lists qp]
  refine ⟨?_, ?_⟩
  · rw [length_map]
    exact hi.core.qnum qp
  · rw [(hi.sized qp).1, map_map]
    refine congrArg List.sum (map_congr_left fun h hh => ?_)
    show (s.msgh h).msg_ts = (g.item h).bytes.length
    rw [(hi.core.item qp h hh).2]
    unfold State.bytes
    rw [length_map, length_range]

/-! ## Runs -/

/-- **The message calls are typed lists.**  In a run whose steps are all clear, the message
lists answer every step; no message is received twice; headers and segments are each in one
place; the counts are right; and what can happen next comes to a result. -/
theorem msgsys_lists (hcfg : Config mi) (hb : Boot mi s0)
    (hrun : Run (Guarded (fun s e => Clear mi s e.1) (step mi)) s0 es s) :
    ∃ A, Run (Lists.Step mi) .empty es A ∧ A.got.Nodup ∧ Placed mi s ∧ Tallied s A ∧
      ∀ e, Ready s e → Clear mi s e → ∃ r t, act mi s e = some (r, t) := by
  have hsim := hrun.simulation (Lists.Step mi) (fun A s => ∃ g, Inv mi s g A) (by
    rintro A s ⟨e, r⟩ t ⟨g, hi⟩ ⟨hclear, hstep⟩
    obtain ⟨r', t', heq, g', B, hB, hi'⟩ := goes_act hcfg hi (ready_of_step hstep) hclear
    have hst : (r, t) = (r', t') := Option.some.inj (Eq.trans (Eq.symm hstep) heq)
    obtain ⟨rfl, rfl⟩ := Prod.mk.inj hst
    exact ⟨B, hB, g', hi'⟩) ⟨_, inv_boot hcfg hb⟩
  obtain ⟨A, hA, g, hi⟩ := hsim
  refine ⟨A, hA, Lists.got_nodup hA, hi.placed, hi.tallied, fun e hr hclear => ?_⟩
  obtain ⟨r, t, heq, -⟩ := goes_act hcfg hi hr hclear
  exact ⟨r, t, heq⟩

/-! ## Two receivers -/

/-- A message was sent. -/
def Result.isSent : Result → Bool
  | .sent _ _ _ => true
  | _ => false

/-- A message was received. -/
def Result.isReceived : Result → Bool
  | .received _ _ _ _ => true
  | _ => false

theorem Lists.counts {e : Event × Result} (h : A.Step mi e B) :
    B.sent = A.sent + (if e.2.isSent then 1 else 0) ∧
      B.got.length = A.got.length + (if e.2.isReceived then 1 else 0) := by
  obtain ⟨e, r⟩ := e
  obtain ⟨-, hm⟩ := h
  have hstill : Still A B → B.sent = A.sent + 0 ∧ B.got.length = A.got.length + 0 := fun hs =>
    ⟨hs.2.1, by rw [hs.2.2]; rfl⟩
  cases r with
  | sent qp type bytes => exact ⟨hm.2.1, by rw [hm.2.2]; rfl⟩
  | received qp a type bytes =>
    obtain ⟨-, pre, m, post, -, -, -, -, hsent, hgot⟩ := hm
    exact ⟨hsent, by rw [hgot]; rfl⟩
  | removed qp => exact ⟨hm.2.1, by rw [hm.2.2]; rfl⟩
  | made qp n => exact hstill hm.2
  | error err =>
    cases err with
    | ENOMSG => exact hstill hm.1
    | _ => exact hstill hm
  | rval n => exact hstill hm
  | stat ds => exact hstill hm
  | waits => exact hstill hm

theorem Lists.run_counts (h : Run (Lists.Step mi) A es B) :
    B.sent = A.sent + es.countP (fun e => e.2.isSent) ∧
      B.got.length = A.got.length + es.countP (fun e => e.2.isReceived) := by
  induction h with
  | nil => exact ⟨rfl, rfl⟩
  | cons h₁ _ ih =>
    obtain ⟨h1, h2⟩ := Lists.counts h₁
    rw [countP_cons, countP_cons]
    omega

/-- No more messages are received than were sent. -/
theorem Lists.received_le_sent (h : Run (Lists.Step mi) Lists.empty es A) :
    es.countP (fun e => e.2.isReceived) ≤ es.countP (fun e => e.2.isSent) := by
  obtain ⟨h1, h2⟩ := Lists.run_counts h
  have honce := h.invariant (fun _ _ _ hA hs => Lists.Once.step hA hs) Lists.once_empty
  have hsub : A.got.toFinset ⊆ Finset.range A.sent := fun n hn =>
    Finset.mem_range.mpr (honce.got n (List.mem_toFinset.mp hn))
  have hcard := Finset.card_le_card hsub
  rw [toFinset_card_of_nodup honce.once, Finset.card_range] at hcard
  change A.sent = 0 + _ at h1
  change A.got.length = 0 + _ at h2
  omega

/-- One queue and two headers. -/
def tinyInfo : msginfo := ⟨6, 8, 16, 1, 8, 2, 2, by decide, by decide, by decide⟩

/-- The kernel as it is loaded. -/
def blank : State where
  msgque := fun _ => ⟨⟨0, 0, 0, 0, 0, 0, 0⟩, 0, 0, 0, 0, 0, 0, 0⟩
  next := fun _ => 0
  msgh := fun _ => ⟨0, 0, 0⟩
  msgfp := 0
  msgmap := ⟨0, 0, List.replicate 5 ⟨0, 0⟩⟩
  text := fun _ => 0
  proc := fun _ => .user

def tiny : State := msginit tinyInfo 1 blank

/-- The super user. -/
def root : user := ⟨0, 0, [], 1⟩

/-- A copy that goes well; what is copied in is type 1. -/
def copied : io := ⟨true, 1, fun _ => 0, ⟨⟨0, 0, 0, 0, 0, 0, 0⟩, 0, 0, 0, 0, 0, 0, 0⟩⟩

/-- Receive the first message. -/
def rcvone : rcvargs := ⟨1, 0, 8, 0, 0⟩

/-- One message without text is sent, and two processes are copying it out at once. -/
def race : List (Event × Result) :=
  [(.msgget 0 root 1 (IPC_CREAT ||| 0o600), .made 0 0),
    (.msgsnd 0 root ⟨1, 0, 0, 0⟩, .waits), (.run 0 copied, .sent 0 1 []),
    (.msgrcv 0 root rcvone, .waits), (.msgrcv 1 root rcvone, .waits),
    (.run 1 copied, .received 0 rcvone 1 []), (.run 0 copied, .received 0 rcvone 1 [])]

/-- A run is followed event by event, through states and events that meet `ok`. -/
def trace (mi : msginfo) (ok : State → Event → Bool) (s : State) :
    List (Event × Result) → Option State
  | [] => some s
  | e :: es =>
      match act mi s e.1 with
      | some (r, t) => if r = e.2 ∧ ok s e.1 = true then trace mi ok t es else none
      | none => none

theorem run_of_trace {ok : State → Event → Bool} (h : trace mi ok s es = some t) :
    Run (Guarded (fun s e => ok s e.1 = true) (step mi)) s es t := by
  induction es generalizing s with
  | nil =>
    obtain rfl := Option.some.inj h
    exact .nil _
  | cons e es ih =>
    unfold trace at h
    cases hact : act mi s e.1 with
    | none =>
      rw [hact] at h
      cases h
    | some o =>
      obtain ⟨r, u⟩ := o
      rw [hact] at h
      simp only at h
      by_cases hr : r = e.2 ∧ ok s e.1 = true
      · rw [if_pos hr] at h
        exact .cons ⟨hr.2, show act mi s e.1 = some (e.2, u) from hr.1 ▸ hact⟩ (ih h)
      · rw [if_neg hr] at h
        cases h

theorem tiny_boot : Boot tinyInfo tiny := by
  refine ⟨blank, 1, ⟨by decide, ⟨by decide, ?_⟩, fun _ => rfl, fun _ => ⟨rfl, rfl, rfl, rfl⟩,
    fun _ => rfl⟩, rfl⟩
  intro b hb
  rw [eq_of_mem_replicate hb]

/-- The one message is received by both: no run of the message lists answers this one. -/
theorem received_twice : Boot tinyInfo tiny ∧ (∃ t, Run (step tinyInfo) tiny race t) ∧
    ¬ ∃ A, Run (Lists.Step tinyInfo) .empty race A := by
  refine ⟨tiny_boot, ?_, ?_⟩
  · have hsome : (trace tinyInfo (fun _ _ => true) tiny race).isSome = true := by decide +kernel
    obtain ⟨t, ht⟩ := Option.isSome_iff_exists.mp hsome
    exact ⟨t, (run_of_trace ht).mono fun _ _ _ h => h.2⟩
  · rintro ⟨A, hA⟩
    have hle := Lists.received_le_sent hA
    have h2 : race.countP (fun e => e.2.isReceived) = 2 := by decide
    have h1 : race.countP (fun e => e.2.isSent) = 1 := by decide
    omega

/-- A text of three bytes is received by a process that slept, and the next is begun. -/
def handover : List (Event × Result) :=
  let io := { copied with mtext := fun i => i + 1 }
  [(.msgget 0 root 1 (IPC_CREAT ||| 0o600), .made 0 0), (.msgrcv 1 root rcvone, .waits),
    (.msgsnd 0 root ⟨1, 0, 3, 0⟩, .waits), (.run 0 io, .waits), (.run 0 io, .sent 0 1 [1, 2, 3]),
    (.run 1 io, .waits), (.run 1 io, .waits), (.run 1 io, .received 0 rcvone 1 [1, 2, 3]),
    (.msgrcv 1 root rcvone, .waits), (.msgsnd 0 root ⟨1, 0, 3, 0⟩, .waits)]

/-- Two processes run, and a step of one is clear by what the other is copying. -/
def plain (s : State) (e : Event) : Bool :=
  decide (e.proc < 2) &&
    match e with
    | .msgrcv _ _ a => decide (-2 ^ 31 < a.msgtyp)
    | .msgctl _ _ _ _ => false
    | .run p m =>
        match s.proc p with
        | .copying (.sndtext a qp _ _ _) =>
            m.ok && decide (((s.msgque qp).msg_cbytes : ℤ) + a.msgsz < 65536)
        | .copying (.rcvtype _ _ smp _ _) | .copying (.rcvtext _ _ smp _ _ _) =>
            match s.proc (1 - p) with
            | .copying c => decide (smp ∉ c.held)
            | _ => true
        | _ => true
    | _ => true

/-- A process that has not looked holds no message. -/
theorem held_of_view (hi : Inv mi s g A) {c : Copy} (hview : A.view q = fun _ => [])
    (hq : s.proc q = .copying c) : c.held = [] := by
  have hno {a : rcvargs} {qp smp spmp sz : ℕ} : ¬ Holding mi s g A q a qp smp spmp sz := by
    intro hold
    obtain ⟨pre, post, -, -, pre', post', hin, -⟩ := hold.place
    rw [hview] at hin
    exact append_ne_nil_of_right_ne_nil pre' (cons_ne_nil _ post') hin.symm
  have hf := (hi.procs q).fits
  rw [hq] at hf
  cases c with
  | rcvtype a qp smp spmp sz => exact (hno hf).elim
  | rcvtext a qp smp spmp sz type => exact (hno hf.1).elim
  | _ => rfl

theorem clear_of_plain (hi : Inv mi s g A) (hview : ∀ q, 2 ≤ q → A.view q = fun _ => [])
    {e : Event} (h : plain s e = true) : Clear mi s e := by
  obtain ⟨hlt, h⟩ := Bool.and_eq_true_iff.mp h
  have hun {p smp : ℕ} (hp : p < 2) (ho : (match s.proc (1 - p) with
      | .copying c => decide (smp ∉ c.held) | _ => true) = true) : Untouched s p smp := by
    intro q c hne hq
    by_cases h2 : 2 ≤ q
    · rw [held_of_view hi (hview q h2) hq]
      exact not_mem_nil
    · obtain rfl : q = 1 - p := by omega
      rw [hq] at ho
      exact of_decide_eq_true ho
  cases e with
  | msgrcv p u a =>
    show -2 ^ 31 < a.msgtyp
    exact of_decide_eq_true h
  | msgctl p u msqid cmd => cases h
  | run p m =>
    have hp : p < 2 := of_decide_eq_true hlt
    unfold Clear
    simp only at h ⊢
    cases hproc : s.proc p with
    | copying c =>
      rw [hproc] at h
      cases c with
      | sndtext a qp type mp spot =>
        obtain ⟨hok, hb⟩ := Bool.and_eq_true_iff.mp h
        exact ⟨fun _ => of_decide_eq_true hb, fun hno => absurd (hok.symm.trans hno) (by decide)⟩
      | rcvtype a qp smp spmp sz => exact fun _ _ => hun hp h
      | rcvtext a qp smp spmp sz type => exact fun _ => hun hp h
      | _ => trivial
    | _ => trivial
  | _ => trivial

/-- Who makes no step does not look. -/
theorem view_of_looks {e : Event} (h : Looks e A B) (hne : q ≠ e.proc) : B.view q = A.view q := by
  cases e with
  | msgrcv p u a =>
    rw [show B.view = _ from h]
    exact Function.update_of_ne hne _ _
  | run p m =>
    rcases h with h | h
    · rw [h]
    · rw [h]
      exact Function.update_of_ne hne _ _
  | _ => rw [show B.view = _ from h]

theorem run_clear (hcfg : Config mi)
    (hrun : Run (Guarded (fun s e => plain s e.1 = true) (step mi)) s es t)
    (hi : Inv mi s g A) (hview : ∀ q, 2 ≤ q → A.view q = fun _ => []) :
    Run (Guarded (fun s e => Clear mi s e.1) (step mi)) s es t := by
  induction hrun generalizing g A with
  | nil => exact .nil _
  | cons h₁ _ ih =>
    obtain ⟨hplain, hstep⟩ := h₁
    have hclear := clear_of_plain hi hview hplain
    obtain ⟨r, t', heq, g', B, hB, hi'⟩ := goes_act hcfg hi (ready_of_step hstep) hclear
    obtain ⟨-, rfl⟩ := Prod.mk.inj (Option.some.inj (Eq.trans (Eq.symm hstep) heq))
    have hp := of_decide_eq_true (Bool.and_eq_true_iff.mp hplain).1
    exact .cons ⟨hclear, hstep⟩ (ih hi' fun q hq =>
      (view_of_looks hB.1 (Nat.ne_of_gt (lt_of_lt_of_le hp hq))).trans (hview q hq))

theorem msgsys_lists_handover : ∃ s A, Run (Lists.Step tinyInfo) .empty handover A ∧
    A.got.Nodup ∧ Placed tinyInfo s ∧ Tallied s A ∧
      ∀ e, Ready s e → Clear tinyInfo s e → ∃ r t, act tinyInfo s e = some (r, t) := by
  have hsome : (trace tinyInfo plain tiny handover).isSome = true := by decide +kernel
  obtain ⟨s, hs⟩ := Option.isSome_iff_exists.mp hsome
  have hcfg : Config tinyInfo := ⟨by decide, by decide⟩
  exact ⟨s, msgsys_lists hcfg tiny_boot
    (run_clear hcfg (run_of_trace hs) (inv_boot hcfg tiny_boot) fun _ _ => rfl)⟩

end IpcMsg
