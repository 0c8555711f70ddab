/-
# Runs of the message queue of the lock manager (`rpc.lockd/prot_msg.c`)

As long as no message goes while `klm_msg` points at it, `klm_msg` stays inside the queue, the queue
stays linked, and every message is answered for good at most once and freed once.  `dequeue` does
not look at `klm_msg`: whoever takes away the message of `klm_msg` leaves it pointing at free
memory. -/
import SunOS.Lockd.Msg
import Mathlib.Data.List.Count
import Mathlib.Data.List.Perm.Subperm
import Mathlib.Tactic.Tauto

namespace Lockd

open Option
open List
open Function (update update_of_ne update_self)

namespace Msgs

variable {s s' : Msgs} {l : List ℕ} {a : reclock} {msgp i proc lstat : ℕ}

/-! ## What holds of a state -/

/-- How often message `i` was answered for good. -/
def finals (s : Msgs) (i : ℕ) : ℕ := s.answers.countP fun a => a.msg = i ∧ a.final

/-- The messages of the entries of `l`. -/
def messages (s : Msgs) (l : List ℕ) : List ℕ := l.map s.serial

/-- **What the queue is to be.**  `msg_q` is doubly linked, `klm_msg` is null or in it, and every
message was answered for good at most once, and freed once when it is no longer there. -/
def Right (s : Msgs) : Prop :=
  ∃ l, s.q.Holds l ∧ (s.klm_msg = 0 ∨ s.klm_msg ∈ l) ∧
    ∀ i < s.queued, s.finals i ≤ 1 ∧ s.freed.count i = if i ∈ s.messages l then 0 else 1

/-- The invariant of the queue, which holds the entries of `l`. -/
structure Inv (s : Msgs) (l : List ℕ) : Prop where
  holds : s.q.Holds l
  live : ∀ p, p ∈ s.live ↔ p ∈ l
  live_nodup : s.live.Nodup
  klm : s.klm_msg = 0 ∨ s.klm_msg ∈ l
  /-- The kernel waits for no message that has its reply. -/
  waiting : s.klm_msg ≠ 0 → ∀ r, (s.entry s.klm_msg).reply = some r → r.lstat = blocking
  messages : (s.messages l).Nodup
  lt_queued : ∀ i ∈ s.messages l, i < s.queued
  finals_le : ∀ i, s.finals i ≤ 1
  finals_zero : ∀ i, i ∈ s.messages l ∨ s.queued ≤ i → s.finals i = 0
  freed : ∀ i, s.freed.count i = if i < s.queued ∧ i ∉ s.messages l then 1 else 0

theorem Inv.right (h : Inv s l) : s.Right := by
  refine ⟨l, h.holds, h.klm, fun i hi => ⟨h.finals_le i, ?_⟩⟩
  rw [h.freed]
  split_ifs <;> simp_all

/-- A walk of the queue ends in time. -/
theorem Inv.length_lt (h : Inv s l) : l.length < s.queued + 1 := by
  have hsub : s.messages l ⊆ List.range s.queued := fun i hi =>
    List.mem_range.mpr (h.lt_queued i hi)
  have hle := (h.messages.subperm hsub).length_le
  rw [length_range, Msgs.messages, length_map] at hle
  omega

/-- What a search of the queue finds is in it. -/
theorem Inv.find (h : Inv s l) (f : ℕ → Bool) :
    ∃ p, s.q.find f (s.queued + 1) s.q.head = some p ∧ (p = 0 ∨ p ∈ l) := by
  refine ⟨_, h.holds.linked.find_eq h.length_lt, ?_⟩
  cases hf : l.find? f with
  | none => exact Or.inl rfl
  | some p => exact Or.inr (List.mem_of_find?_eq_some hf)

theorem Inv.start (g : ℕ) : Inv (start g) [] where
  holds := ⟨rfl, nodup_nil⟩
  live := fun _ => Iff.rfl
  live_nodup := nodup_nil
  klm := Or.inl rfl
  waiting := fun h => absurd rfl h
  messages := nodup_nil
  lt_queued := fun i hi => absurd hi not_mem_nil
  finals_le := fun _ => Nat.zero_le _
  finals_zero := fun _ _ => rfl
  freed := fun i => by
    rw [if_neg (fun hi => absurd hi.1 (Nat.not_lt_zero i))]
    rfl

/-! ## The steps -/

section

variable (h : Inv s l)
include h

/-- The kernel may stop waiting, or wait for a message that has no reply. -/
theorem Inv.setKlm {p : ℕ} (hp : p = 0 ∨ p ∈ l)
    (hw : ∀ r, (s.entry p).reply = some r → r.lstat = blocking) :
    Inv { s with klm_msg := p } l :=
  { h with klm := hp, waiting := fun _ => hw }

theorem Inv.setMsgp (p : ℕ) : Inv { s with msgp := p } l := { h with }

theorem Inv.setGrace (g : ℕ) : Inv { s with grace_period := g } l := { h with }

theorem Inv.setCalls (c : List (ℕ × reclock)) : Inv { s with calls := c } l :=
  { h with }

/-- An entry may change, unless the kernel waits for it and gets its reply. -/
theorem Inv.setEntry {e : msg_entry}
    (he : msgp = s.klm_msg → e.reply = (s.entry msgp).reply) : Inv (s.set msgp e) l := by
  refine { h with waiting := fun h0 r hr => ?_ }
  have h0' : s.klm_msg ≠ 0 := h0
  have hr' : (update s.entry msgp e s.klm_msg).reply = some r := hr
  by_cases hp : msgp = s.klm_msg
  · rw [← hp, update_self, he hp, hp] at hr'
    exact h.waiting h0' r hr'
  · rw [update_of_ne (Ne.symm hp)] at hr'
    exact h.waiting h0' r hr'

/-- **A message is queued.** -/
theorem Inv.queue (hfresh : msgp = 0 ∨ msgp ∉ s.live) : ∃ l', Inv (s.queue msgp a proc) l' := by
  rw [Msgs.queue]
  by_cases h0 : msgp = 0
  · rw [if_pos h0]
    exact ⟨l, h⟩
  have hl : msgp ∉ l := fun hm => (hfresh.resolve_left h0) ((h.live msgp).mpr hm)
  have hlive : msgp ∉ s.live := hfresh.resolve_left h0
  rw [if_neg h0]
  have hserial : ∀ k : List ℕ, msgp ∉ k →
      k.map (update s.serial msgp s.queued) = s.messages k := by
    intro k hk
    refine map_congr_left fun p hp => ?_
    exact update_of_ne (fun he : p = msgp => hk (he ▸ hp)) _ _
  have hmsgs : (msgp :: l).map (update s.serial msgp s.queued) = s.queued :: s.messages l := by
    rw [map_cons, update_self, hserial l hl]
  have hnot : s.queued ∉ s.messages l := fun hq => Nat.lt_irrefl _ (h.lt_queued _ hq)
  refine ⟨msgp :: l, ?_⟩
  exact {
    holds := h.holds.insert_first h0 hl
    live := fun p => by
      show p ∈ msgp :: s.live ↔ _
      rw [mem_cons, mem_cons, h.live]
    live_nodup := List.nodup_cons.mpr ⟨hlive, h.live_nodup⟩
    klm := by
      show (if _ then _ else _ : ℕ) = 0 ∨ (if _ then _ else _ : ℕ) ∈ _
      split_ifs
      · exact Or.inr mem_cons_self
      · exact h.klm.imp_right (mem_cons_of_mem _)
    waiting := fun hk r hr => by
      have hk' : (if proc ≠ NLM_GRANTED_MSG ∧
        proc ≠ NLM_LOCK_RECLAIM then msgp else s.klm_msg) ≠ 0 :=
        hk
      have hr' : (update s.entry msgp _
          (if proc ≠ NLM_GRANTED_MSG ∧ proc ≠ NLM_LOCK_RECLAIM then msgp else s.klm_msg)).reply =
            some r := hr
      split_ifs at hk' hr'
      · rw [update_self] at hr'
        cases hr'
      · have hmem : s.klm_msg ∈ l := h.klm.resolve_left hk'
        rw [update_of_ne (fun he : s.klm_msg = msgp => hl (he ▸ hmem))] at hr'
        exact h.waiting hk' r hr'
    messages := by
      show ((msgp :: l).map _).Nodup
      rw [hmsgs]
      exact List.nodup_cons.mpr ⟨hnot, h.messages⟩
    lt_queued := fun i hi => by
      have hi' : i ∈ (msgp :: l).map (update s.serial msgp s.queued) := hi
      show i < s.queued + 1
      rw [hmsgs, mem_cons] at hi'
      rcases hi' with rfl | hi'
      · exact Nat.lt_succ_self _
      · exact Nat.lt_succ_of_lt (h.lt_queued i hi')
    finals_le := h.finals_le
    finals_zero := fun i hi => by
      have hi' : i ∈ (msgp :: l).map (update s.serial msgp s.queued) ∨ s.queued + 1 ≤ i := hi
      refine h.finals_zero i ?_
      rw [hmsgs, mem_cons] at hi'
      rcases hi' with (rfl | hi') | hi'
      · exact Or.inr (Nat.le_refl _)
      · exact Or.inl hi'
      · exact Or.inr (Nat.le_of_succ_le hi')
    freed := fun i => by
      show s.freed.count i = if i < s.queued + 1 ∧ i ∉ (msgp :: l).map _ then 1 else 0
      rw [h.freed i, hmsgs]
      refine if_congr ?_ rfl rfl
      rw [mem_cons, not_or]
      constructor
      · rintro ⟨h1, h2⟩
        exact ⟨Nat.lt_succ_of_lt h1, Nat.ne_of_lt h1, h2⟩
      · rintro ⟨h1, h2, h3⟩
        exact ⟨by omega, h3⟩ }

/-- The messages left when one goes. -/
theorem Inv.mem_messages_erase (hp : msgp ∈ l) :
    i ∈ s.messages (l.erase msgp) ↔ i ∈ s.messages l ∧ i ≠ s.serial msgp := by
  have hinj := inj_on_of_nodup_map h.messages
  simp only [Msgs.messages, List.mem_map]
  constructor
  · rintro ⟨p, hpl, rfl⟩
    obtain ⟨hne, hpl⟩ := (h.holds.nodup.mem_erase_iff).mp hpl
    exact ⟨⟨p, hpl, rfl⟩, fun he => hne (hinj hpl hp he)⟩
  · rintro ⟨⟨p, hpl, rfl⟩, hne⟩
    exact ⟨p, (h.holds.nodup.mem_erase_iff).mpr ⟨fun he => hne (he ▸ rfl), hpl⟩, rfl⟩

/-- **A message goes**, which the kernel does not wait for. -/
theorem Inv.dequeue (hp : msgp ∈ l) (hk : s.klm_msg ≠ msgp) :
    Inv (s.dequeue msgp) (l.erase msgp) := by
  have hmem : s.serial msgp ∈ s.messages l := mem_map_of_mem hp
  have hmsg : ∀ i, i ∈ (s.dequeue msgp).messages (l.erase msgp) ↔
      i ∈ s.messages l ∧ i ≠ s.serial msgp := fun i => h.mem_messages_erase hp
  exact {
    holds := h.holds.delete_mem hp
    live := fun p => by
      show p ∈ s.live.erase msgp ↔ _
      rw [h.live_nodup.mem_erase_iff, h.holds.nodup.mem_erase_iff, h.live]
    live_nodup := h.live_nodup.erase _
    klm := h.klm.imp_right fun hm => (h.holds.nodup.mem_erase_iff).mpr ⟨hk, hm⟩
    waiting := h.waiting
    messages := h.messages.sublist ((erase_sublist).map _)
    lt_queued := fun i hi => h.lt_queued i ((hmsg i).mp hi).1
    finals_le := h.finals_le
    finals_zero := fun i hi => h.finals_zero i (hi.imp_left fun hi => ((hmsg i).mp hi).1)
    freed := fun i => by
      show (s.serial msgp :: s.freed).count i = _
      rw [count_cons, h.freed i]
      have hlt := h.lt_queued _ hmem
      by_cases hi : s.serial msgp = i
      · subst hi
        have hgone : s.serial msgp ∉ (s.dequeue msgp).messages (l.erase msgp) :=
          fun hm => ((hmsg _).mp hm).2 rfl
        have hlt' : s.serial msgp < (s.dequeue msgp).queued := hlt
        rw [if_neg fun hn => hn.2 hmem, beq_self_eq_true, if_pos rfl, if_pos ⟨hlt', hgone⟩]
      · have hbeq : (s.serial msgp == i) = false := by simpa using hi
        rw [hbeq]
        refine if_congr ?_ rfl rfl
        rw [hmsg]
        tauto }

/-- An answer for good, to a message that has gone. -/
theorem Inv.answer (hi : s.serial msgp ∉ s.messages l) (hlt : s.serial msgp < s.queued)
    (hz : s.finals (s.serial msgp) = 0) : Inv (s.klm_reply msgp proc lstat) l := by
  have hcount : ∀ i, (s.klm_reply msgp proc lstat).finals i ≤
      s.finals i + if s.serial msgp = i then 1 else 0 := by
    intro i
    show List.countP _ (_ :: _) ≤ _
    rw [countP_cons]
    refine Nat.add_le_add_left ?_ _
    by_cases he : s.serial msgp = i
    · rw [if_pos he]
      split_ifs <;> simp
    · simp [he]
  refine { h with finals_le := fun i => ?_, finals_zero := fun i hi' => ?_ }
  · have := hcount i
    by_cases he : s.serial msgp = i
    · subst he
      simp_all
    · rw [if_neg he] at this
      exact Nat.le_trans this (h.finals_le i)
  · have he : s.serial msgp ≠ i := by
      rintro rfl
      rcases hi' with hi' | hi'
      · exact hi hi'
      · exact absurd hlt (Nat.not_lt_of_le hi')
    have hc := hcount i
    rw [if_neg he, h.finals_zero i hi'] at hc
    exact Nat.le_zero.mp hc

/-- The kernel is told to wait. -/
theorem Inv.working : Inv (s.klm_reply msgp proc blocking) l := by
  have hcount : ∀ i, (s.klm_reply msgp proc blocking).finals i = s.finals i := by
    intro i
    show List.countP _ (_ :: _) = _
    rw [countP_cons_of_neg (by simp [Answer.final])]
    rfl
  exact { h with
    finals_le := fun i => (hcount i).symm ▸ h.finals_le i
    finals_zero := fun i hi => (hcount i).trans (h.finals_zero i hi) }

/-- **A message goes with its answer.** -/
theorem Inv.answer_dequeue (hp : msgp ∈ l) (hk : s.klm_msg ≠ msgp) :
    Inv ((s.klm_reply msgp proc lstat).dequeue msgp) (l.erase msgp) := by
  have hmem : s.serial msgp ∈ s.messages l := mem_map_of_mem hp
  have hd := h.dequeue hp hk
  have hgone : s.serial msgp ∉ s.messages (l.erase msgp) :=
    fun hm => ((h.mem_messages_erase hp).mp hm).2 rfl
  exact hd.answer hgone (h.lt_queued _ hmem)
    (h.finals_zero _ (Or.inl hmem))

/-- **`add_reply`.** -/
theorem Inv.add_reply (h0 : msgp ≠ 0) (resp : Option remote_result) :
    ∃ l', Inv (s.add_reply msgp resp) l' := by
  cases resp with
  | none =>
    rw [Msgs.add_reply]
    split_ifs
    · exact ⟨l, h.working⟩
    · exact ⟨l, h⟩
  | some resp =>
    rw [Msgs.add_reply]
    by_cases hk : s.klm_msg = msgp
    · have hp : msgp ∈ l := hk ▸ h.klm.resolve_left (hk ▸ h0)
      -- the kernel no longer waits
      have h' : Inv { s with klm_msg := 0 } l :=
        { h with klm := Or.inl rfl, waiting := fun h0 => absurd rfl h0 }
      have hset : Inv (Msgs.set { s with klm_msg := 0 } msgp { s.entry msgp with
          reply := some resp, t := { (s.entry msgp).t with curr := 0 } }) l :=
        h'.setEntry fun he => absurd he h0
      have hk' : (s.set msgp { s.entry msgp with
          reply := some resp, t := { (s.entry msgp).t with curr := 0 } }).klm_msg = msgp := hk
      simp only [hk', if_true]
      split_ifs with hl
      · exact ⟨_, hset.answer_dequeue hp (Ne.symm h0)⟩
      · rw [ne_eq, not_not] at hl
        rw [hl]
        exact ⟨_, hset.working⟩
    · have hk' : ¬ (s.set msgp { s.entry msgp with
          reply := some resp, t := { (s.entry msgp).t with curr := 0 } }).klm_msg = msgp := hk
      simp only [hk', if_false]
      exact ⟨l, h.setEntry fun he => absurd he.symm hk⟩

end

/-! ## The timer -/

variable {P : Msgs → Prop} {body : ℕ → Msgs → Msgs}

/-- What a loop does at one message: the queue keeps its messages, or loses this one. -/
def Keeps (body : ℕ → Msgs → Msgs) (P : Msgs → Prop) : Prop :=
  ∀ s l msgp, Inv s l → P s → msgp ∈ l →
    (Inv (body msgp s) l ∨ Inv (body msgp s) (l.erase msgp)) ∧ P (body msgp s)

/-- A loop over the rest of the queue. -/
theorem Inv.sweep_from (hbody : Keeps body P)
    {k m : List ℕ} {fuel : ℕ} (h : Inv s (k ++ m)) (hP : P s) (hfuel : m.length < fuel) :
    ∃ s' l', sweep body fuel (m.headD 0) s = some s' ∧ Inv s' l' ∧ P s' := by
  induction m generalizing s k fuel with
  | nil =>
    obtain ⟨fuel, rfl⟩ := Nat.exists_eq_succ_of_ne_zero (Nat.ne_of_gt hfuel)
    exact ⟨s, k ++ [], rfl, h, hP⟩
  | cons msgp m ih =>
    obtain ⟨fuel, rfl⟩ := Nat.exists_eq_succ_of_ne_zero (Nat.ne_zero_of_lt hfuel)
    have hfuel' : m.length < fuel := Nat.lt_of_succ_lt_succ hfuel
    have hmem : msgp ∈ k ++ msgp :: m := by simp
    have hnext : s.q.nxt msgp = m.headD 0 := h.holds.linked.nxt_eq
    have hmk : msgp ∉ k := fun hk =>
      (List.nodup_append'.mp h.holds.nodup).2.2 hk mem_cons_self
    obtain ⟨hinv, hP'⟩ := hbody s _ msgp h hP hmem
    have h0 : (msgp :: m).headD 0 ≠ 0 := h.holds.ne_zero hmem
    rw [sweep, if_neg h0, headD_cons, hnext]
    rcases hinv with hinv | hinv
    · have heq : k ++ msgp :: m = (k ++ [msgp]) ++ m := by simp
      rw [heq] at hinv
      exact ih hinv hP' hfuel'
    · rw [erase_append_right _ hmk, erase_cons_head] at hinv
      exact ih hinv hP' hfuel'

/-- **A loop over the queue.** -/
theorem Inv.sweep (hbody : Keeps body P) (h : Inv s l) (hP : P s) :
    ∃ s' l', sweep body (s.queued + 1) s.q.head s = some s' ∧ Inv s' l' ∧ P s' := by
  rw [h.holds.linked.first]
  exact Inv.sweep_from (k := []) hbody h hP h.length_lt

/-- The procedures by which the kernel asks. -/
def isKlm (proc : ℕ) : Prop :=
  proc = KLM_LOCK ∨ proc = KLM_UNLOCK ∨ proc = KLM_TEST ∨ proc = KLM_CANCEL

instance (proc : ℕ) : Decidable (isKlm proc) := by unfold isKlm; infer_instance

/-- The kernel does not wait for a request it made itself. -/
def Forwarded (s : Msgs) : Prop := s.klm_msg = 0 ∨ ¬ isKlm (s.entry s.klm_msg).proc

instance (s : Msgs) : Decidable s.Forwarded := by unfold Forwarded; infer_instance

/-- **The end of the grace period**, unless the kernel waits for one of the messages that go. -/
theorem endGrace_keeps : Keeps endGrace Forwarded := by
  intro s l msgp h hP hp
  simp only [endGrace]
  split_ifs with hk
  · have hne : s.klm_msg ≠ msgp := by
      rintro rfl
      rcases hP with h0 | hn
      · exact h.holds.ne_zero hp h0
      · exact hn hk
    exact ⟨Or.inr (h.dequeue hp hne), hP⟩
  · exact ⟨Or.inl h, hP⟩

theorem Inv.nlm_call (h : Inv s l) : Inv (s.nlm_call msgp) l := by
  have hset : Inv (s.set msgp { s.entry msgp with req := callArg (s.entry msgp) }) l :=
    h.setEntry fun _ => rfl
  simp only [Msgs.nlm_call]
  by_cases hsupp : (s.entry msgp).proc = NLM_TEST_MSG ∨ (s.entry msgp).proc = NLM_LOCK_MSG ∨
      (s.entry msgp).proc = NLM_LOCK_RECLAIM ∨ (s.entry msgp).proc = NLM_CANCEL_MSG ∨
      (s.entry msgp).proc = NLM_UNLOCK_MSG ∨ (s.entry msgp).proc = NLM_GRANTED_MSG
  · rw [if_pos hsupp]
    exact hset.setCalls _
  · rw [if_neg hsupp]
    exact h

/-- **The retransmissions**, and the replies that have been there too long: the kernel does not wait
for these. -/
theorem age_keeps : Keeps age fun _ => True := by
  intro s l msgp h _ hp
  refine ⟨?_, trivial⟩
  simp only [age]
  cases hr : (s.entry msgp).reply with
  | none =>
    simp only []
    split_ifs
    · exact Or.inl (h.nlm_call.setEntry fun _ => rfl)
    · exact Or.inl (h.nlm_call.setEntry fun _ => rfl)
    · exact Or.inl (h.setEntry fun _ => hr.symm ▸ hr)
    · exact Or.inl h
  | some reply =>
    simp only []
    split_ifs with hl hc
    · have hne : s.klm_msg ≠ msgp := by
        rintro rfl
        exact hl (h.waiting (h.holds.ne_zero hp) reply hr)
      exact Or.inr (h.dequeue hp hne)
    · exact Or.inl (h.setEntry fun _ => hr.symm ▸ hr)
    · exact Or.inl h

theorem Inv.tick (h : Inv s l) (hP : s.grace_period = 1 → s.Forwarded) :
    ∃ s' l', s.tick = some s' ∧ Inv s' l' := by
  have h0 := h.setGrace (s.grace_period - 1)
  rw [Msgs.tick]
  split_ifs with hg
  · obtain ⟨s1, l1, hs1, h1, -⟩ := h0.sweep endGrace_keeps (hP hg)
    exact ⟨s1, l1, hs1, h1⟩
  · exact ⟨_, l, rfl, h0⟩

/-- **`xtimer`.** -/
theorem Inv.xtimer (h : Inv s l) (hP : s.grace_period = 1 → s.Forwarded) :
    ∃ s' l', s.xtimer = some s' ∧ Inv s' l' := by
  obtain ⟨s1, l1, hs1, h1⟩ := h.tick hP
  obtain ⟨s2, l2, hs2, h2, -⟩ := h1.sweep age_keeps trivial
  simp only [Msgs.xtimer, hs1, bind_eq_bind, bind_some, hs2]
  split_ifs with hk
  · obtain ⟨l3, h3⟩ := h2.add_reply hk none
    exact ⟨_, l3, rfl, h3⟩
  · exact ⟨_, l2, rfl, h2⟩

/-! ## Runs -/

/-- **When nothing goes wrong.**  Nobody takes away the message the kernel waits for, and when the
grace period ends the kernel does not wait for one of its own requests. -/
def Careful (s : Msgs) : Event → Prop
  | .drop a proc => ∀ msgp ∈ s.retransmitted a proc, msgp = 0 ∨ msgp ≠ s.klm_msg
  | .proc_nlm_granted_res reply => ∀ msgp ∈ s.search_msg reply, msgp = 0 ∨ msgp ≠ s.klm_msg
  | .xtimer => s.grace_period = 1 → s.Forwarded
  | _ => True

instance (s : Msgs) : (e : Event) → Decidable (s.Careful e)
  | .drop a proc => inferInstanceAs (Decidable (∀ msgp ∈ s.retransmitted a proc, _ ∨ _))
  | .proc_nlm_granted_res reply =>
    inferInstanceAs (Decidable (∀ msgp ∈ s.search_msg reply, _ ∨ _))
  | .xtimer => inferInstanceAs (Decidable (s.grace_period = 1 → s.Forwarded))
  | .queue .. | .klm_prog | .klm_msg_routine .. | .local_granted .. | .nlm_res_routine _
  | .continued _ | .changed .. => inferInstanceAs (Decidable True)

/-- **One step.** -/
theorem Inv.step (h : Inv s l) (e : Event) (hf : s.Fresh e) (hc : s.Careful e) :
    ∃ s' l', s.step e = some s' ∧ Inv s' l' := by
  cases e with
  | queue msgp a proc =>
    obtain ⟨l', h'⟩ : ∃ l', Inv (s.queue msgp a proc) l' := h.queue hf
    exact ⟨_, l', rfl, h'⟩
  | klm_prog =>
    exact ⟨_, l, rfl, { h with klm := Or.inl rfl, waiting := fun h0 => absurd rfl h0 }⟩
  | klm_msg_routine a proc =>
    obtain ⟨p, hfind, hp⟩ := h.find (s.sameRequest a proc)
    simp only [Msgs.step, Msgs.klm_msg_routine, retransmitted, hfind, bind_eq_bind,
      bind_some]
    split_ifs with h0
    · exact ⟨_, l, rfl, h⟩
    have hp := hp.resolve_left h0
    cases hr : (s.entry p).reply with
    | none => exact ⟨_, l, rfl, h.setKlm (Or.inr hp) fun r hr' => by simp [hr] at hr'⟩
    | some reply =>
      simp only []
      split_ifs with hl
      · have hne : s.klm_msg ≠ p := by
          rintro rfl
          exact hl (h.waiting h0 reply hr)
        exact ⟨_, _, rfl, h.answer_dequeue hp hne⟩
      · refine ⟨_, l, rfl, h.setKlm (Or.inr hp) fun r hr' => ?_⟩
        rw [hr, Option.some.injEq] at hr'
        exact hr' ▸ not_not.mp hl
  | drop a proc =>
    obtain ⟨p, hfind, hp⟩ := h.find (s.sameRequest a proc)
    have hne := hc p hfind
    simp only [Msgs.step, Msgs.drop, retransmitted, hfind, bind_eq_bind, bind_some]
    split_ifs with h0
    · exact ⟨_, _, rfl, h.dequeue (hp.resolve_left h0) (Ne.symm (hne.resolve_left h0))⟩
    · exact ⟨_, l, rfl, h⟩
  | local_granted a resp =>
    obtain ⟨p, hfind, hp⟩ := h.find (s.sameRequest a KLM_LOCK)
    simp only [Msgs.step, Msgs.local_granted, retransmitted, hfind, bind_eq_bind,
      bind_some]
    split_ifs with h0
    · obtain ⟨l', h'⟩ := h.add_reply h0 (some resp)
      exact ⟨_, l', rfl, h'⟩
    · exact ⟨_, l, rfl, h⟩
  | nlm_res_routine reply =>
    obtain ⟨p, hfind, hp⟩ := h.find fun msgp => (s.entry msgp).req.cookie = reply.cookie
    simp only [Msgs.step, Msgs.nlm_res_routine, search_msg, hfind, bind_eq_bind,
      bind_some]
    split_ifs
    · exact ⟨_, l, rfl, h.setMsgp p⟩
    · exact ⟨_, l, rfl, h⟩
  | continued resp =>
    simp only [Msgs.step, Msgs.continued]
    split_ifs with h0
    · obtain ⟨l', h'⟩ := h.add_reply h0 resp
      exact ⟨_, l', rfl, h'.setMsgp 0⟩
    · exact ⟨_, l, rfl, h⟩
  | proc_nlm_granted_res reply =>
    obtain ⟨p, hfind, hp⟩ := h.find fun msgp => (s.entry msgp).req.cookie = reply.cookie
    have hne := hc p hfind
    simp only [Msgs.step, Msgs.proc_nlm_granted_res, search_msg, hfind, bind_eq_bind,
      bind_some]
    split_ifs with h0
    · exact ⟨_, _, rfl, h.dequeue (hp.resolve_left h0) (Ne.symm (hne.resolve_left h0))⟩
    · exact ⟨_, l, rfl, h⟩
  | changed msgp a => exact ⟨_, l, rfl, h.setEntry fun _ => rfl⟩
  | xtimer => exact h.xtimer hc

/-- Every step of a run has `P`. -/
def Meets (P : Msgs → Event → Prop) : Msgs → List Event → Prop
  | _, [] => True
  | s, e :: es => P s e ∧ ∀ s' ∈ s.step e, Meets P s' es

instance Meets.decidable {P : Msgs → Event → Prop} [∀ s e, Decidable (P s e)] (s : Msgs)
    (es : List Event) : Decidable (Meets P s es) :=
  match es with
  | [] => isTrue trivial
  | e :: es =>
    match hs : s.step e with
    | none => decidable_of_iff (P s e) (by simp [Meets, hs])
    | some s' =>
      have := Meets.decidable (P := P) s' es
      decidable_of_iff (P s e ∧ Meets P s' es) (by simp [Meets, hs])

/-- **A run.** -/
theorem Inv.run (h : Inv s l) {es : List Event} (hf : Meets Fresh s es) (hc : Meets Careful s es) :
    ∃ s' l', s.run es = some s' ∧ Inv s' l' := by
  induction es generalizing s l with
  | nil => exact ⟨s, l, rfl, h⟩
  | cons e es ih =>
    obtain ⟨s1, l1, hs1, h1⟩ := h.step e hf.1 hc.1
    rw [Msgs.run, hs1, bind_some]
    exact ih h1 (hf.2 s1 hs1) (hc.2 s1 hs1)

/-- **In a run whose steps are careful the queue is what it is to be**, and no walk of it goes on
for ever. -/
theorem right_of_careful (LM_GRACE : ℕ) (es : List Event) (hf : Meets Fresh (start LM_GRACE) es)
    (hc : Meets Careful (start LM_GRACE) es) :
    ∃ s, (start LM_GRACE).run es = some s ∧ s.Right := by
  obtain ⟨s, l, hs, h⟩ := (Inv.start LM_GRACE).run hf hc
  exact ⟨s, hs, h.right⟩

/-- A lock on the bytes `[0, 10)` of a file. -/
def sampleReq : reclock :=
  { cookie := [0, 0, 0, 1], block := true, exclusive := true, reclaim := false, rel := false,
    w_flag := false,
    lck :=
      { server_name := [104], fh := [1], pid := 7, l_offset := 0, l_len := 10, caller_name := [99],
        oh := [99, 7], svid := 7, clnt_name := [99], ub := 10, op := LOCK_EX } }

/-- A lock asked for at another machine, sent again, granted and answered. -/
def granted : List Event :=
  [.xtimer, .klm_prog, .queue 8 sampleReq NLM_LOCK_MSG, .xtimer, .xtimer,
    .nlm_res_routine { cookie := [0, 0, 0, 1], lstat := 0 },
    .continued (some { cookie := [0, 0, 0, 1], lstat := 0 }), .xtimer]

theorem right_of_careful_granted :
    ∃ s, (start 1).run granted = some s ∧ s.Right :=
  right_of_careful 1 granted (by decide +kernel) (by decide +kernel)

/-- A lock asked for in the last part of the grace period of three. -/
def graceLock : List Event :=
  [.xtimer, .xtimer, .klm_prog, .queue 8 sampleReq KLM_LOCK, .xtimer]

/-- Its message goes when the grace period ends, and `klm_msg` still points at it: `xtimer` answers
by way of it in the same call. -/
theorem not_right_graceLock :
    Meets Fresh (start 3) graceLock ∧ ∃ s, (start 3).run graceLock = some s ∧ ¬ s.Right ∧
      s.klm_msg ∉ s.live ∧ s.answers = [{ msg := 0, proc := KLM_LOCK, lstat := blocking }] := by
  have hrun : ((start 3).run graceLock).map (fun s => (s.q.head, s.klm_msg, s.live, s.answers)) =
      some (0, 8, [], [{ msg := 0, proc := KLM_LOCK, lstat := blocking }]) := by decide +kernel
  obtain ⟨s, hs, heq⟩ := Option.map_eq_some_iff.mp hrun
  simp only [Prod.mk.injEq] at heq
  obtain ⟨hhead, hklm, hlive, hans⟩ := heq
  refine ⟨by decide +kernel, s, hs, ?_, by rw [hklm, hlive]; decide, hans⟩
  rintro ⟨l, hl, hmem, -⟩
  have hnil : l = [] := by
    cases l with
    | nil => rfl
    | cons b l => exact absurd (hl.linked.1.symm.trans hhead) hl.linked.2.1
  rw [hnil, hklm] at hmem
  rcases hmem with h | h
  · cases h
  · cases h

end Msgs

end Lockd
