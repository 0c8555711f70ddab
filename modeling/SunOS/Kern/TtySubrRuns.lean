/-
# Runs over character lists

Any number of queues share the cblocks.  Whatever is called in whatever order, each
queue holds what a queue of bytes would, and each cblock is in one queue or free.  How
many characters a queue has room for, `room`, is all that a queue of bytes must be told.
-/
import SunOS.Kern.TtySubrLoops
import SunOS.Lib.Run

namespace Clist

open List (length_pos_iff mem_append mem_cons nodup_append)
open List
open Function (update update_eq_self update_of_ne update_self)

variable {ι : Type*} [DecidableEq ι]

inductive Op (ι : Type*)
  | getc (p : ι)
  | putc (c : ℤ) (p : ι)
  | q_to_b (p : ι) (cc : ℤ)
  | b_to_q (cp : List UInt8) (p : ι)
  | ndflush (p : ι) (cc : ℤ)
  | nextc (p : ι)

inductive Result
  | int (n : ℤ)
  | chars (l : List UInt8)
  deriving DecidableEq

/-- An operation on the state; a walk with `nextc` goes over all of its queue. -/
def exec (s : State ι) : Op ι → Option (State ι × Result)
  | .getc p => some ((getc p s).1, .int (getc p s).2)
  | .putc c p => some ((putc p c s).1, .int (putc p c s).2)
  | .q_to_b p cc => some ((q_to_b p cc s).1, .chars (q_to_b p cc s).2)
  | .b_to_q cp p => some ((b_to_q p cp s).1, .int (b_to_q p cp s).2)
  | .ndflush p cc => (ndflush p ((s.q p).c_cc.toNat + 1) cc s).map fun s' => (s', .int 0)
  | .nextc p => (nextcs (s.q p) s.heap (s.q p).c_cc.toNat (s.q p).c_cf).map fun l => (s, .chars l)

/-- How many characters the queues have room for. -/
def State.room (s : State ι) (p : ι) : ℤ := roomFrom (s.q p).c_cl s.heap

/-- What an operation does to queues of bytes, when `room` is how many more they take. -/
def fexec (room : ι → ℤ) (f : ι → List UInt8) : Op ι → (ι → List UInt8) × Result
  | .getc p =>
    match f p with
    | [] => (f, .int (-1))
    | x :: l => (update f p l, .int x.toNat)
  | .putc c p =>
    if room p = 0 then (f, .int (-1)) else (update f p (f p ++ [char c]), .int 0)
  | .q_to_b p cc => (update f p ((f p).drop cc.toNat), .chars ((f p).take cc.toNat))
  | .b_to_q cp p =>
    (update f p (f p ++ cp.take (room p).toNat), .int (cp.drop (room p).toNat).length)
  | .ndflush p cc => (update f p ((f p).drop cc.toNat), .int 0)
  | .nextc p => (f, .chars (f p))

/-- An operation, the room there was, and the result. -/
structure Event (ι : Type*) where
  op : Op ι
  room : ι → ℤ
  result : Result

def Step (s : State ι) (e : Event ι) (s' : State ι) : Prop :=
  e.room = s.room ∧ exec s e.op = some (s', e.result)

def FStep (f : ι → List UInt8) (e : Event ι) (g : ι → List UInt8) : Prop :=
  fexec e.room f e.op = (g, e.result)

/-- The queues hold the characters `f`, in the cblocks `ch`; those of `free` are free,
and each of `blocks` is in one place. -/
structure Refines (blocks : Set ℕ) (f : ι → List UInt8) (s : State ι) (free : List ℕ)
    (ch : ι → List ℕ) : Prop where
  queue : ∀ p, Queue s.heap (s.q p) (ch p) (f p)
  list : Chain s.heap.c_next s.heap.cfreelist free
  count : s.heap.cfreecount = CBSIZE * free.length
  nodup : ∀ p, (free ++ ch p).Nodup
  disjoint : ∀ p p', p ≠ p' → ∀ b ∈ ch p, b ∉ ch p'
  mem : ∀ b, b ∈ blocks ↔ b ∈ free ∨ ∃ p, b ∈ ch p

variable {blocks : Set ℕ} {f : ι → List UInt8} {s : State ι} {free free' bs' : List ℕ}
  {ch : ι → List ℕ} {p : ι} {q' : clist} {h' : Heap} {dat' : List UInt8}

omit [DecidableEq ι] in
theorem Refines.local (h : Refines blocks f s free ch) (hal : ∀ b ∈ blocks, 32 ∣ b) (p : ι) :
    Local s.heap (s.q p) free (ch p) (f p) := by
  refine ⟨h.queue p, h.list, h.count, h.nodup p, fun b hb => hal b ((h.mem b).mpr ?_)⟩
  rcases mem_append.mp hb with hb | hb
  · exact Or.inl hb
  · exact Or.inr ⟨p, hb⟩

/-- What one queue does leaves the others as they are. -/
theorem Refines.set (h : Refines blocks f s free ch) (hal : ∀ b ∈ blocks, 32 ∣ b)
    (hl : Local h' q' free' bs' dat') (hm : Moves s.heap h' (free ++ ch p) (free' ++ bs')) :
    Refines blocks (update f p dat') (s.set p q' h') free' (update ch p bs') := by
  have hmem : ∀ b, b ∈ free' ∨ b ∈ bs' ↔ b ∈ free ∨ b ∈ ch p := by
    intro b
    rw [← mem_append, ← mem_append]
    exact hm.perm.mem_iff
  have hother : ∀ p', p' ≠ p → ∀ b ∈ ch p', b ∉ free ++ ch p := by
    intro p' hp' b hb hb'
    rcases mem_append.mp hb' with hb' | hb'
    · exact (nodup_append.mp (h.nodup p')).2.2 b hb' b hb rfl
    · exact h.disjoint p' p hp' b hb hb'
  refine ⟨fun p' => ?_, hl.list, hl.count, fun p' => ?_, fun p' p'' hne b hb hb' => ?_, fun b => ?_⟩
  · by_cases hp' : p' = p
    · show Queue h' (update s.q p q' p') _ _
      rw [hp', update_self, update_self, update_self]
      exact hl.queue
    · show Queue h' (update s.q p q' p') _ _
      rw [update_of_ne hp', update_of_ne hp', update_of_ne hp']
      exact (h.queue p').moves hm (hother p' hp') fun b hb =>
        hal b ((h.mem b).mpr (Or.inr ⟨p', hb⟩))
  · by_cases hp' : p' = p
    · rw [hp', update_self]
      exact hl.nodup
    · rw [update_of_ne hp']
      refine nodup_append.mpr ⟨(nodup_append.mp hl.nodup).1,
        (nodup_append.mp (h.nodup p')).2.1, fun a ha b hb heq => ?_⟩
      rw [heq] at ha
      exact hother p' hp' b hb (mem_append.mpr ((hmem b).mp (Or.inl ha)))
  · by_cases hp' : p' = p
    · have hp'' : p'' ≠ p := fun heq => hne (hp'.trans heq.symm)
      rw [hp', update_self] at hb
      rw [update_of_ne hp''] at hb'
      exact hother p'' hp'' b hb' (mem_append.mpr ((hmem b).mp (Or.inr hb)))
    · rw [update_of_ne hp'] at hb
      by_cases hp'' : p'' = p
      · rw [hp'', update_self] at hb'
        exact hother p' hp' b hb (mem_append.mpr ((hmem b).mp (Or.inr hb')))
      · rw [update_of_ne hp''] at hb'
        exact h.disjoint p' p'' hne b hb hb'
  · have hsplit : ∀ ch : ι → List ℕ, (∃ p', b ∈ ch p') ↔ b ∈ ch p ∨ ∃ p', p' ≠ p ∧ b ∈ ch p' := by
      intro ch
      constructor
      · rintro ⟨p', hb⟩
        by_cases hp' : p' = p
        · exact Or.inl (hp' ▸ hb)
        · exact Or.inr ⟨p', hp', hb⟩
      · rintro (hb | ⟨p', -, hb⟩)
        · exact ⟨p, hb⟩
        · exact ⟨p', hb⟩
    have hrest : (∃ p', p' ≠ p ∧ b ∈ update ch p bs' p') ↔ ∃ p', p' ≠ p ∧ b ∈ ch p' := by
      refine exists_congr fun p' => and_congr_right fun hp' => ?_
      rw [update_of_ne hp']
    rw [h.mem, hsplit ch, hsplit, hrest, update_self, ← or_assoc, ← hmem, or_assoc]

theorem State.set_self (s : State ι) (p : ι) : s.set p (s.q p) s.heap = s := by
  rw [State.set, update_eq_self]

/-! ## Each operation -/

/-- The operation has ended with the result, and the queues, of a queue of bytes. -/
def Agrees (blocks : Set ℕ) (f : ι → List UInt8) (s : State ι) (op : Op ι) (s' : State ι)
    (r : Result) : Prop :=
  r = (fexec s.room f op).2 ∧
    ∃ free' ch', Refines blocks (fexec s.room f op).1 s' free' ch'

section

variable (h : Refines blocks f s free ch)
include h

theorem getc_agrees (hal : ∀ b ∈ blocks, 32 ∣ b) (p : ι) :
    Agrees blocks f s (.getc p) (getc p s).1 (.int (getc p s).2) := by
  have hl := h.local hal p
  have hcc := hl.queue.c_cc
  rw [Agrees, getc, fexec]
  cases hf : f p with
  | nil =>
    rw [hf] at hl hcc
    rw [if_pos (by rw [hcc]; simp), ← hl.queue.nil.2, State.set_self]
    exact ⟨rfl, free, ch, h⟩
  | cons x dat =>
    rw [hf] at hl hcc
    obtain ⟨free', bs', hl', hm, hx⟩ := takeChar_spec hl
    rw [if_neg (by rw [hcc, length_cons]; omega)]
    refine ⟨?_, free', _, h.set hal hl' hm⟩
    show Result.int ((takeChar (s.q p) s.heap).2.2.toNat : ℤ) = Result.int (x.toNat : ℤ)
    rw [hx]

theorem q_to_b_agrees (hal : ∀ b ∈ blocks, 32 ∣ b) (p : ι) (cc : ℤ) :
    Agrees blocks f s (.q_to_b p cc) (q_to_b p cc s).1 (.chars (q_to_b p cc s).2) := by
  have hl := h.local hal p
  have hcc := hl.queue.c_cc
  rw [Agrees, q_to_b, fexec]
  by_cases hle : cc ≤ 0
  · rw [if_pos hle, show cc.toNat = 0 by omega, drop_zero, update_eq_self]
    exact ⟨rfl, free, ch, h⟩
  · rw [if_neg hle]
    by_cases hnil : f p = []
    · rw [hnil] at hl hcc
      rw [if_pos (by rw [hcc]; simp), ← hl.queue.nil.2, State.set_self, hnil, drop_nil,
        take_nil, ← hnil, update_eq_self]
      exact ⟨rfl, free, ch, h⟩
    · have hpos : 0 < (f p).length := length_pos_iff.mpr hnil
      obtain ⟨free', bs', hl', hm, hout⟩ := q_to_bLoop_spec cc.toNat hl hnil
      rw [if_neg (by omega)]
      refine ⟨?_, free', _, h.set hal hl' hm⟩
      show Result.chars (q_to_bLoop cc.toNat (s.q p) s.heap).2.2 = _
      rw [hout]

theorem ndflush_agrees (hal : ∀ b ∈ blocks, 32 ∣ b) (p : ι) (cc : ℤ) :
    ∃ s', ndflush p ((s.q p).c_cc.toNat + 1) cc s = some s' ∧
      Agrees blocks f s (.ndflush p cc) s' (.int 0) := by
  have hl := h.local hal p
  have hcc := hl.queue.c_cc
  rw [ndflush]
  by_cases hnil : f p = []
  · rw [if_pos (by rw [hcc, hnil]; simp)]
    refine ⟨s, rfl, rfl, free, ch, ?_⟩
    show Refines blocks (update f p ((f p).drop cc.toNat)) s free ch
    rw [hnil, drop_nil, ← hnil, update_eq_self]
    exact h
  · have hpos : 0 < (f p).length := length_pos_iff.mpr hnil
    obtain ⟨q', h', free', bs', hrun, hl', hm⟩ :=
      ndflushLoop_spec ((s.q p).c_cc.toNat + 1) cc hl hnil (by omega)
    have hset := h.set hal hl' hm
    rw [if_neg (by omega), hrun]
    refine ⟨_, rfl, rfl, free', update ch p bs', ?_⟩
    show Refines blocks (update f p ((f p).drop cc.toNat))
      (if q'.c_cc ≤ 0 then s.set p ⟨0, 0, 0⟩ h' else s.set p q' h') free' (update ch p bs')
    rw [reset] at hset
    by_cases hle : q'.c_cc ≤ 0
    · rw [if_pos hle] at hset ⊢
      exact hset
    · rw [if_neg hle] at hset ⊢
      exact hset

theorem putc_agrees (hal : ∀ b ∈ blocks, 32 ∣ b) (p : ι) (c : ℤ) :
    Agrees blocks f s (.putc c p) (putc p c s).1 (.int (putc p c s).2) := by
  have hl := h.local hal p
  have hcc := hl.queue.c_cc
  rw [Agrees, putc, fexec]
  by_cases hnil : f p = []
  · rw [hnil] at hl
    obtain ⟨hbs, hq⟩ := hl.queue.nil
    have hroom : s.room p = s.heap.cfreecount := by
      rw [State.room, hq, roomFrom]
      simp
    rw [if_pos (Or.inl (by rw [hq]))]
    by_cases hlist : s.heap.cfreelist = 0
    · have hzero : s.heap.cfreecount = 0 := by
        rw [hl.count, hl.list.eq_zero_iff.mp hlist]
        simp
      rw [if_pos hlist, if_pos (hroom.trans hzero)]
      exact ⟨rfl, free, ch, h⟩
    · rw [hbs] at hl
      obtain ⟨free', bs', hl', hm, -⟩ := hl.put_first (x := char c) hlist
      have hfree : free ≠ [] := fun heq => hlist (hl.list.eq_zero_iff.mpr heq)
      have hpos : 0 < free.length := length_pos_iff.mpr hfree
      rw [if_neg hlist, if_neg (by rw [hroom, hl.count, CBSIZE]; omega), hnil]
      rw [← hbs] at hm
      exact ⟨rfl, free', _, h.set hal hl' hm⟩
  · have hpos : 0 < (f p).length := length_pos_iff.mpr hnil
    have hcl : ¬ ((s.q p).c_cl = 0 ∨ (s.q p).c_cc < 0) := by
      rintro (hcl | hneg)
      · exact hnil (hl.queue.null_iff.2.mp hcl)
      · omega
    obtain ⟨hroom, hfull, hnew⟩ := hl.put_next (x := char c) hnil
    rw [if_neg hcl]
    by_cases hround : round (s.q p).c_cl = 0
    · rw [if_pos hround]
      by_cases hlist : s.heap.cfreelist = 0
      · obtain ⟨hl', hm, hr⟩ := hfull hround hlist
        rw [if_pos hlist, if_pos (show s.room p = 0 from hr)]
        have hset := h.set hal hl' hm
        rw [update_eq_self] at hset
        exact ⟨rfl, free, _, hset⟩
      · obtain ⟨free', bs', hl', hm, hr⟩ := hnew hround hlist
        have hpos' := hl'.room_nonneg (info s.heap.cfreelist + 1)
        rw [if_neg hlist, if_neg (show ¬ s.room p = 0 by rw [State.room]; omega)]
        exact ⟨rfl, free', _, h.set hal hl' hm⟩
    · obtain ⟨hl', hm, hr⟩ := hroom hround
      have hpos' := hl'.room_nonneg ((s.q p).c_cl + 1)
      rw [if_neg hround, if_neg (show ¬ s.room p = 0 by rw [State.room]; omega)]
      exact ⟨rfl, free, _, h.set hal hl' hm⟩

end

theorem take_min_length {α : Type*} (l : List α) (n : ℕ) :
    l.take (min l.length n) = l.take n ∧ l.drop (min l.length n) = l.drop n := by
  rcases Nat.le_total l.length n with h | h
  · rw [Nat.min_eq_left h, take_length, drop_length, take_of_length_le h,
      drop_of_length_le h]
    exact ⟨rfl, rfl⟩
  · rw [Nat.min_eq_right h]
    exact ⟨rfl, rfl⟩

theorem b_to_q_agrees (h : Refines blocks f s free ch) (hal : ∀ b ∈ blocks, 32 ∣ b) (p : ι)
    (cp : List UInt8) : Agrees blocks f s (.b_to_q cp p) (b_to_q p cp s).1
      (.int (b_to_q p cp s).2) := by
  have hl := h.local hal p
  have hcc := hl.queue.c_cc
  rw [Agrees, b_to_q, fexec]
  simp only []
  cases cp with
  | nil =>
    rw [if_pos rfl, take_nil, drop_nil, append_nil, update_eq_self]
    exact ⟨rfl, free, ch, h⟩
  | cons c cp =>
    rw [if_neg (cons_ne_nil c cp)]
    by_cases hnil : f p = []
    · rw [hnil] at hl
      obtain ⟨hbs, hq⟩ := hl.queue.nil
      have hroom : s.room p = s.heap.cfreecount := by
        rw [State.room, hq, roomFrom]
        simp
      rw [if_pos (Or.inl (by rw [hq])), hroom]
      by_cases hlist : s.heap.cfreelist = 0
      · have hzero : s.heap.cfreecount = 0 := by
          rw [hl.count, hl.list.eq_zero_iff.mp hlist]
          simp
        rw [if_pos hlist, hzero, State.set_self]
        refine ⟨rfl, free, ch, ?_⟩
        show Refines blocks (update f p (f p ++ [])) s free ch
        rw [append_nil, update_eq_self]
        exact h
      · rw [hbs] at hl
        obtain ⟨free1, bs1, hl1, hm1, hr⟩ := hl.put_first (x := c) hlist
        have hpos := hl1.room_nonneg (info s.heap.cfreelist + 1)
        obtain ⟨k, free2, bs2, hk, hleft, hl2, hm2⟩ := b_to_qLoop_spec cp hl1 (by simp)
        -- the first character opens a cblock
        have hround : round (info s.heap.cfreelist) ≠ 0 := by
          have hfree : s.heap.cfreelist ∈ free := by
            cases free with
            | nil => exact absurd hl.list hlist
            | cons nb free =>
              rw [hl.list.1]
              exact mem_cons_self
          have hal' := hl.aligned s.heap.cfreelist (by simp [hfree])
          rw [round_eq hal' (by rw [info]; lia) (by rw [info]; lia), info]
          lia
        rw [if_neg hlist, b_to_qLoop, if_neg hround, hleft]
        obtain ⟨n, hn⟩ : ∃ n : ℕ, s.heap.cfreecount = n + 1 :=
          ⟨(s.heap.cfreecount - 1).toNat, by lia⟩
        have hk' : k = min cp.length n := by
          rw [hk, hr, hn]
          simp
        rw [hn, show ((n : ℤ) + 1).toNat = n + 1 by lia, take_succ_cons, drop_succ_cons,
          hnil, nil_append, ← (take_min_length cp n).1, ← (take_min_length cp n).2, ← hk']
        refine ⟨rfl, free2, update ch p bs2, ?_⟩
        have hset := h.set hal hl2 ((hbs ▸ hm1).trans hm2)
        have hcount : (s.q p).c_cc + (((c :: cp).length : ℤ) - (cp.drop k).length) =
            (s.q p).c_cc + 1 + k := by
          rw [length_cons, length_drop]
          lia
        rw [hcount]
        exact hset
    · have hpos : 0 < (f p).length := length_pos_iff.mpr hnil
      have hcl : ¬ ((s.q p).c_cl = 0 ∨ (s.q p).c_cc < 0) := by
        rintro (hcl | hneg)
        · exact hnil (hl.queue.null_iff.2.mp hcl)
        · lia
      obtain ⟨k, free2, bs2, hk, hleft, hl2, hm2⟩ := b_to_qLoop_spec (c :: cp) hl hnil
      have hk' : k = min (c :: cp).length (s.room p).toNat := hk
      have hset := h.set hal hl2 hm2
      have hcount : (s.q p).c_cc + (((c :: cp).length : ℤ) - ((c :: cp).drop k).length) =
          (s.q p).c_cc + k := by
        rw [length_drop]
        lia
      rw [if_neg hcl, hleft, hcount, ← (take_min_length (c :: cp) (s.room p).toNat).1,
        ← (take_min_length (c :: cp) (s.room p).toNat).2, ← hk']
      exact ⟨rfl, free2, _, hset⟩

omit [DecidableEq ι] in
theorem nextc_agrees (h : Refines blocks f s free ch) (hal : ∀ b ∈ blocks, 32 ∣ b) (p : ι) :
    nextcs (s.q p) s.heap (s.q p).c_cc.toNat (s.q p).c_cf = some (f p) := by
  have hl := h.local hal p
  have hcc := hl.queue.c_cc
  by_cases hnil : f p = []
  · rw [hnil] at hl
    rw [hl.queue.nil.2, hnil, nextcs]
  · have hpos : 0 < (f p).length := length_pos_iff.mpr hnil
    rcases hl.queue with ⟨-, hnil', -⟩ | ⟨hholds, hchain, -⟩
    · exact absurd hnil' hnil
    · have hnodup := (nodup_append.mp hl.nodup).2.1
      have hal' : ∀ b ∈ ch p, 32 ∣ b := fun b hb => hl.aligned b (by simp [hb])
      obtain ⟨b, bs, hbs⟩ := exists_cons_of_ne_nil hholds.ne_nil.1
      rw [hbs] at hholds hchain hnodup hal'
      exact nextcs_spec (by omega) hholds hchain hnodup hal' (by omega)

/-- **Every operation ends and does what it does to a queue of bytes.** -/
theorem exec_agrees (h : Refines blocks f s free ch) (hal : ∀ b ∈ blocks, 32 ∣ b) (op : Op ι) :
    ∃ s' r, exec s op = some (s', r) ∧ Agrees blocks f s op s' r := by
  cases op with
  | getc p => exact ⟨_, _, rfl, getc_agrees h hal p⟩
  | putc c p => exact ⟨_, _, rfl, putc_agrees h hal p c⟩
  | q_to_b p cc => exact ⟨_, _, rfl, q_to_b_agrees h hal p cc⟩
  | b_to_q cp p => exact ⟨_, _, rfl, b_to_q_agrees h hal p cp⟩
  | ndflush p cc =>
    obtain ⟨s', hrun, hagrees⟩ := ndflush_agrees h hal p cc
    refine ⟨s', .int 0, ?_, hagrees⟩
    rw [exec, hrun]
    rfl
  | nextc p =>
    refine ⟨s, .chars (f p), ?_, rfl, free, ch, h⟩
    rw [exec, nextc_agrees h hal p]
    rfl

/-! ## The free cblocks at the beginning -/

/-- The cblocks that `cinit` finds. -/
def cblocks (cfree nclist : ℕ) : Set ℕ :=
  {b | cfree ≤ b ∧ b < cfree + sizeofCblock * (nclist - 1) ∧ 32 ∣ b}

theorem cinitLoop_spec (cfree nclist n : ℕ) {cp : ℕ} {h : Heap} (hl : Local h ⟨0, 0, 0⟩ free [] [])
    (hcp : 32 ∣ cp) (hne : cp ≠ 0) (hlt : ∀ b ∈ free, b < cp)
    (hn : cfree + sizeofCblock * (nclist - 1) ≤ cp + sizeofCblock * n) :
    ∃ free', Local (cinitLoop cfree nclist n cp h) ⟨0, 0, 0⟩ free' [] [] ∧
      ∀ b, b ∈ free' ↔ b ∈ free ∨
        cp ≤ b ∧ b < cfree + sizeofCblock * (nclist - 1) ∧ 32 ∣ b := by
  induction n generalizing cp h free with
  | zero => exact ⟨free, hl, fun b => ⟨Or.inl, fun h => h.resolve_right (by lia)⟩⟩
  | succ n ih =>
    rw [cinitLoop]
    by_cases hend : cp < cfree + sizeofCblock * (nclist - 1)
    · have hfresh : cp ∉ free := fun hmem => absurd (hlt cp hmem) (lt_irrefl cp)
      have hl' : Local (h.release cp) ⟨0, 0, 0⟩ (cp :: free) [] [] := by
        refine ⟨Or.inl ⟨rfl, rfl, rfl⟩, hl.list.push hne hfresh, ?_, ?_, ?_⟩
        · show h.cfreecount + CBSIZE = CBSIZE * ((cp :: free).length : ℤ)
          rw [hl.count, length_cons]
          push_cast
          ring
        · rw [append_nil, nodup_cons]
          exact ⟨hfresh, by simpa using hl.nodup⟩
        · intro b hb
          rw [append_nil] at hb
          rcases mem_cons.mp hb with rfl | hb
          · exact hcp
          · exact hl.aligned b (by simp [hb])
      have hlt' : ∀ b ∈ cp :: free, b < cp + sizeofCblock := by
        intro b hb
        rw [sizeofCblock]
        rcases mem_cons.mp hb with rfl | hb
        · lia
        · have := hlt b hb
          lia
      obtain ⟨free', hl'', hmem⟩ := ih hl' (by rw [sizeofCblock]; lia)
        (by rw [sizeofCblock]; lia) hlt' (by rw [Nat.mul_succ] at hn; lia)
      rw [if_pos hend]
      refine ⟨free', hl'', fun b => ?_⟩
      rw [hmem, mem_cons]
      constructor
      · rintro ((rfl | hb) | hb)
        · exact Or.inr ⟨le_refl _, hend, hcp⟩
        · exact Or.inl hb
        · exact Or.inr ⟨by rw [sizeofCblock] at hb; lia, hb.2⟩
      · rintro (hb | ⟨h1, h2, h3⟩)
        · exact Or.inl (Or.inr hb)
        · rcases Nat.lt_or_ge cp b with hlt'' | hge
          · exact Or.inr ⟨by rw [sizeofCblock]; lia, h2, h3⟩
          · exact Or.inl (Or.inl (le_antisymm hge h1))
    · rw [if_neg hend]
      exact ⟨free, hl, fun b => ⟨Or.inl, fun h => h.resolve_right (by lia)⟩⟩

/-- **In the beginning** all queues are empty and all cblocks free. -/
theorem cinit_refines (ι : Type*) {cfree : ℕ} (nclist : ℕ) (hcfree : cfree ≠ 0)
    (c_next : ℕ → ℕ) (c_info : ℕ → UInt8) :
    ∃ free, Refines (cblocks cfree nclist) (fun _ : ι => []) (cinit cfree nclist c_next c_info) free
      fun _ => [] := by
  have hl : Local ⟨c_next, c_info, 0, 0, false⟩ ⟨0, 0, 0⟩ [] [] [] :=
    ⟨Or.inl ⟨rfl, rfl, rfl⟩, rfl, rfl, nodup_nil, by simp⟩
  have hfirst : 32 ∣ cblock (cfree + (sizeofCblock - 1)) := by
    rw [cblock, round, sizeofCblock]
    lia
  have hpos : cblock (cfree + (sizeofCblock - 1)) ≠ 0 := by
    rw [cblock, round, sizeofCblock]
    lia
  have hend : cfree + sizeofCblock * (nclist - 1) ≤
      cblock (cfree + (sizeofCblock - 1)) + sizeofCblock * nclist := by
    rw [cblock, round, sizeofCblock]
    lia
  obtain ⟨free, hl', hmem⟩ := cinitLoop_spec cfree nclist nclist hl hfirst hpos (by simp) hend
  refine ⟨free, fun p => hl'.queue, hl'.list, hl'.count, fun p => hl'.nodup, by simp, fun b => ?_⟩
  rw [hmem, cblocks, Set.mem_ofPred_eq, cblock, round, sizeofCblock]
  constructor
  · rintro ⟨h1, h2, h3⟩
    exact Or.inl (Or.inr ⟨by lia, h2, h3⟩)
  · rintro ((hb | ⟨h1, h2, h3⟩) | ⟨-, hb⟩)
    · cases hb
    · exact ⟨by lia, h2, h3⟩
    · cases hb

variable {e : Event ι} {es : List (Event ι)}

/-- **Character lists are queues of bytes**: in every run the results are those of
queues of bytes, which the lists hold at the end; a pointer is `NULL` when its queue is
empty; each cblock is in one queue or free; `cfreecount` counts the free ones; and every
operation ends. -/
theorem clists_of_run {cfree nclist : ℕ} {c_next : ℕ → ℕ} {c_info : ℕ → UInt8}
    (hcfree : cfree ≠ 0) (h : Run Step (cinit cfree nclist c_next c_info) es s) :
    ∃ (g : ι → List UInt8) (free : List ℕ) (ch : ι → List ℕ),
      Run FStep (fun _ => []) es g ∧ Refines (cblocks cfree nclist) g s free ch ∧
      (∀ p, ((s.q p).c_cf = 0 ↔ g p = []) ∧ ((s.q p).c_cl = 0 ↔ g p = [])) ∧
      ∀ op, (exec s op).isSome := by
  have hal : ∀ b ∈ cblocks cfree nclist, 32 ∣ b := fun b hb => hb.2.2
  obtain ⟨free, hinit⟩ := cinit_refines ι nclist hcfree c_next c_info
  have hsim : ∀ (f : ι → List UInt8) (s : State ι) (e : Event ι) (s' : State ι),
      (∃ free ch, Refines (cblocks cfree nclist) f s free ch) → Step s e s' →
      ∃ g, FStep f e g ∧ ∃ free ch, Refines (cblocks cfree nclist) g s' free ch := by
    rintro f s e s' ⟨free, ch, hs⟩ ⟨hroom, hexec⟩
    obtain ⟨s'', r, hexec', hr, free', ch', hs'⟩ := exec_agrees hs hal e.op
    rw [hexec', Option.some.injEq, Prod.mk.injEq] at hexec
    obtain ⟨rfl, rfl⟩ := hexec
    rw [← hroom] at hr hs'
    exact ⟨_, Prod.ext rfl hr.symm, free', ch', hs'⟩
  obtain ⟨g, hrun, free', ch', hrefines⟩ := Run.simulation FStep _ hsim h ⟨free, _, hinit⟩
  refine ⟨g, free', ch', hrun, hrefines, fun p => (hrefines.queue p).null_iff, fun op => ?_⟩
  obtain ⟨s', r, hexec, -⟩ := exec_agrees hrefines hal op
  rw [hexec]
  rfl

/-! ## A run -/

/-- A cblock at 32 is the only one. -/
def small : State Unit := cinit 32 2 (fun _ => 0) (fun _ => 0)

/-- There are cblocks at 32 and at 64. -/
def two : State Unit := cinit 32 3 (fun _ => 0) (fun _ => 0)

/-- Forty characters fill the first cblock and part of the second, of twenty more there is no
room for four, and thirty that are taken give the first cblock back. -/
theorem refines_small : ∃ (s : State Unit) (es : List (Event Unit)) (g : Unit → List UInt8)
    (free : List ℕ) (ch : Unit → List ℕ),
      es.map Event.result = [.int 0, .int 4, .chars (replicate 30 7)] ∧
      Run FStep (fun _ => []) es g ∧ Refines (cblocks 32 3) g s free ch := by
  let s1 := (b_to_q () (replicate 40 7) two).1
  let s2 := (b_to_q () (replicate 20 9) s1).1
  have hrun : Run Step two [⟨.b_to_q (replicate 40 7) (), two.room, .int 0⟩,
      ⟨.b_to_q (replicate 20 9) (), s1.room, .int 4⟩,
      ⟨.q_to_b () 30, s2.room, .chars (replicate 30 7)⟩] (q_to_b () 30 s2).1 := by
    refine .cons ⟨rfl, congrArg (fun n => some (s1, Result.int n)) ?_⟩ (.cons
      ⟨rfl, congrArg (fun n => some (s2, Result.int n)) ?_⟩ (.cons
      ⟨rfl, congrArg (fun l => some ((q_to_b () 30 s2).1, Result.chars l)) ?_⟩ (.nil _)))
    · decide +kernel
    · decide +kernel
    · decide +kernel
  obtain ⟨g, free, ch, hg, href, -⟩ := clists_of_run (by decide) hrun
  exact ⟨_, _, g, free, ch, rfl, hg, href⟩

/-- A list whose last cblock is full. -/
def full : State Unit := (b_to_q () (replicate 28 7) two).1

theorem full_refines :
    ∃ free ch, Refines (cblocks 32 3) (fun _ => replicate 28 7) full free ch := by
  obtain ⟨free, hr⟩ := cinit_refines Unit 3 (show 32 ≠ 0 by decide) (fun _ => 0) (fun _ => 0)
  obtain ⟨-, free', ch, hr'⟩ := b_to_q_agrees hr (fun b hb => hb.2.2) () (replicate 28 7)
  have hf : (fexec two.room (fun _ => []) (.b_to_q (replicate 28 7) ())).1 =
      fun _ : Unit => replicate 28 7 := by
    funext p
    cases p
    decide +kernel
  exact ⟨free', ch, hf ▸ hr'⟩

/-- When the cblocks run out `b_to_q` has appended what there was room for. -/
theorem b_to_q_appends : (b_to_q () (replicate 29 7) small).2 = 1 ∧
    nextcs (small.q ()) small.heap 28 (small.q ()).c_cf = some [] ∧
    nextcs ((b_to_q () (replicate 29 7) small).1.q ())
      (b_to_q () (replicate 29 7) small).1.heap
      28 ((b_to_q () (replicate 29 7) small).1.q ()).c_cf = some (replicate 28 7) := by
  decide

end Clist
