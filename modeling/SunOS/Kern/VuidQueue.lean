/-
# The queue of input events (`sundev/vuid_queue.c`)

Nodes hang on the queue, linked both ways and ordered by their times, or on the free list, linked
forward.  `vq_compress` merges an event into an earlier one of the same id, across the events that
stand between them.
-/
import SunOS.Lib.Chain
import SunOS.Lib.Doubly
import Mathlib.Data.Int.Notation
import Mathlib.Data.List.Induction

namespace Vuid

open List (nodup_append' nodup_middle)
open Function (update update_of_ne)
open List

/-! ## Times -/

structure Timeval where
  sec : BitVec 32
  usec : BitVec 32
deriving DecidableEq, Inhabited

/-- `timercmp (a, b, <)` -/
def timerLt (a b : Timeval) : Bool :=
  a.sec.slt b.sec || a.sec == b.sec && a.usec.slt b.usec

def tvEqual (a b : Timeval) : Bool := a.sec == b.sec && a.usec == b.usec

/-- `a - b`, and zero when `b` is later -/
def tvSubt (a b : Timeval) : Timeval :=
  let a := if a.usec.slt b.usec ∧ a.sec ≠ 0 then ⟨a.sec - 1, a.usec + 1000000⟩ else a
  let usec := if b.usec.slt a.usec then a.usec - b.usec else 0
  if b.sec.slt a.sec then ⟨a.sec - b.sec, usec⟩
  else if a.sec.slt b.sec then ⟨0, 0⟩ else ⟨0, usec⟩

def tvToUsec (tv : Timeval) : BitVec 32 := tv.sec * 1000000 + tv.usec

def usecToTv (usec : BitVec 32) : Timeval := ⟨usec.sdiv 1000000, usec.srem 1000000⟩

def tvDivide (tv : Timeval) (dividend : BitVec 32) : Timeval :=
  if dividend = 0 then tv else usecToTv ((tvToUsec tv).sdiv dividend)

def tvMult (tv : Timeval) (multiplier : BitVec 32) : Timeval :=
  usecToTv (tvToUsec tv * multiplier)

/-! ## Events -/

def FE_PAIR_NONE : BitVec 8 := 0
def FE_PAIR_SET : BitVec 8 := 1
def FE_PAIR_DELTA : BitVec 8 := 2
def FE_PAIR_ABSOLUTE : BitVec 8 := 3

structure FirmEvent where
  id : BitVec 16
  pairType : BitVec 8
  pair : BitVec 8
  value : BitVec 32
  time : Timeval
deriving DecidableEq, Inhabited

/-- `vq_is_valuator`, as it is computed -/
def vqIsValuator (e : FirmEvent) : Bool :=
  (e.value.slt 1 && (-1 : BitVec 32).slt e.value) || e.pairType == FE_PAIR_DELTA
    || e.pairType == FE_PAIR_ABSOLUTE

/-- What the header says of `vq_is_valuator`: a value other than 0 and 1, or one of two pair types.
-/
def Valuator (e : FirmEvent) : Prop :=
  (e.value ≠ 0 ∧ e.value ≠ 1) ∨ e.pairType = FE_PAIR_DELTA ∨ e.pairType = FE_PAIR_ABSOLUTE

/-- The base event takes the value of the victim. -/
def merge (b v : FirmEvent) : FirmEvent :=
  { b with value := if b.pairType = FE_PAIR_ABSOLUTE then b.value + v.value else v.value }

/-! ## The queue -/

/-- `list` has the top and the links; `0` is the null pointer. -/
structure VuidQueue where
  list : Doubly
  bottom : ℕ
  free : ℕ
  num : ℤ
  size : ℤ
  event : ℕ → FirmEvent

namespace VuidQueue

variable {q q' : VuidQueue} {a b p fuel : ℕ} {e : FirmEvent} {l f : List ℕ}

def vqFreeNode (q : VuidQueue) (a : ℕ) : VuidQueue :=
  { q with
    list := ⟨q.list.head, update q.list.nxt a q.free, update q.list.prev a 0⟩
    free := a
    num := q.num - 1 }

/-- `vq_initialize`: a node has 24 bytes, and each is freed, with `num` one too many for it. -/
def vqInitialize (data bytes : ℕ) (event : ℕ → FirmEvent) : VuidQueue :=
  let size := 1 + (bytes - 24) / 24
  ((List.range size).map fun i => data + 24 * i).foldl vqFreeNode
    ⟨⟨0, fun _ => 0, fun _ => 0⟩, 0, 0, size, size, event⟩

def vqAllocNode (q : VuidQueue) : Option (ℕ × VuidQueue) :=
  if q.free = 0 then none
  else some (q.free,
    { q with
      list := { q.list with nxt := update q.list.nxt q.free 0 }
      free := q.list.nxt q.free
      num := q.num + 1 })

inductive Code
  | VUID_Q_OK
  | VUID_Q_OVERFLOW
deriving DecidableEq

def vqPutback (q : VuidQueue) (e : FirmEvent) : Code × VuidQueue :=
  match q.vqAllocNode with
  | none => (.VUID_Q_OVERFLOW, q)
  | some (a, q) =>
      (.VUID_Q_OK, { q with
        event := update q.event a e
        list := q.list.insert 0 a
        bottom := if q.bottom = 0 then a else q.bottom })

/-- The new node goes in after `vp`. -/
def putAfter (q : VuidQueue) (e : FirmEvent) (vp : ℕ) : Code × VuidQueue :=
  match q.vqAllocNode with
  | none => (.VUID_Q_OVERFLOW, q)
  | some (a, q) =>
      let list := q.list.insert vp a
      (.VUID_Q_OK, { q with
        event := update q.event a e
        list := { list with head := if list.head = 0 then a else list.head }
        bottom := if vp = q.bottom then a else q.bottom })

/-- The loop of `vq_put`, from the bottom up. -/
def putFrom (q : VuidQueue) (e : FirmEvent) : ℕ → ℕ → Option (Code × VuidQueue)
  | 0, _ => none
  | fuel + 1, vp =>
      if vp = 0 then some (q.vqPutback e)
      else if timerLt (q.event vp).time e.time || tvEqual (q.event vp).time e.time then
        some (q.putAfter e vp)
      else putFrom q e fuel (q.list.prev vp)

def vqPut (q : VuidQueue) (e : FirmEvent) : Option (Code × VuidQueue) :=
  q.putFrom e (q.size.toNat + 1) q.bottom

/-- `vq_get`; nothing from an empty queue. -/
def vqGet (q : VuidQueue) : Option (FirmEvent × VuidQueue) :=
  let vqn := q.list.head
  if vqn = 0 then none
  else
    let top := q.list.nxt vqn
    some (q.event vqn, vqFreeNode { q with
      list := ⟨top, q.list.nxt, if top ≠ 0 then update q.list.prev top 0 else q.list.prev⟩
      bottom := if q.bottom = vqn then 0 else q.bottom } vqn)

def vqPeek (q : VuidQueue) : Option FirmEvent :=
  if q.list.head = 0 then none else some (q.event q.list.head)

def vqDeleteNode (q : VuidQueue) (a : ℕ) : VuidQueue :=
  if a = q.list.head then
    match q.vqGet with
    | none => q
    | some (_, q) => q
  else
    vqFreeNode { q with
      list := ⟨q.list.head, update q.list.nxt (q.list.prev a) (q.list.nxt a),
        if q.bottom = a then q.list.prev
        else update q.list.prev (q.list.nxt a) (q.list.prev a)⟩
      bottom := if q.bottom = a then q.list.prev a else q.bottom } a

/-- The node `a` gets the event `e`. -/
def setEvent (q : VuidQueue) (a : ℕ) (e : FirmEvent) : VuidQueue :=
  { q with event := update q.event a e }

/-- The tests a victim must pass. -/
def stops (q : VuidQueue) (threshold : Timeval) (factor : BitVec 32) (base victim : ℕ) : Bool :=
  !vqIsValuator (q.event victim)
    || (q.list.prev victim != base
      && !tvEqual (q.event (q.list.prev victim)).time (q.event victim).time)
    || ((0 : BitVec 32).slt factor
      && timerLt threshold (tvSubt (q.event victim).time (q.event base).time))

/-- The inner loop of `vq_compress`. -/
def runDown (q : VuidQueue) (threshold : Timeval) (factor : BitVec 32) (base : ℕ) :
    ℕ → ℕ → Option VuidQueue
  | 0, _ => none
  | fuel + 1, victim =>
      if victim = 0 then some q
      else
        let victimNext := q.list.nxt victim
        if q.stops threshold factor base victim then some q
        else if (q.event victim).id = (q.event base).id then
          runDown ((q.setEvent base (merge (q.event base) (q.event victim))).vqDeleteNode victim)
            threshold factor base fuel victimNext
        else runDown q threshold factor base fuel victimNext

/-- The outer loop of `vq_compress`. -/
def march (q : VuidQueue) (threshold : Timeval) (factor : BitVec 32) :
    ℕ → ℕ → Option VuidQueue
  | 0, _ => none
  | fuel + 1, base =>
      if base = 0 then some q
      else if vqIsValuator (q.event base) then
        match q.runDown threshold factor base (fuel + 1) (q.list.nxt base) with
        | none => none
        | some q => march q threshold factor fuel (q.list.nxt base)
      else march q threshold factor fuel (q.list.nxt base)

/-- The time between two events, on average, by the factor. -/
def threshold (q : VuidQueue) (factor : BitVec 32) : Timeval :=
  tvMult (tvDivide (tvSubt (q.event q.bottom).time (q.event q.list.head).time)
    (BitVec.ofInt 32 q.num)) factor

/-- `vq_compress`; nothing when a loop does not end. -/
def vqCompress (q : VuidQueue) (factor : BitVec 32) : Option (ℤ × VuidQueue) :=
  if q.list.head = 0 then some (0, q)
  else
    match q.march (q.threshold factor) factor (q.size.toNat + 1) q.list.head with
    | none => none
    | some q' => some (q.num - q'.num, q')

/-! ## What a queue holds -/

variable {m : List ℕ}

/-- **The queue holds the nodes of `l`, and those of `f` are free.** -/
structure Holds (q : VuidQueue) (l f : List ℕ) : Prop where
  list : q.list.Holds l
  bottom : q.bottom = l.getLast?.getD 0
  free : Chain q.list.nxt q.free f
  nodup : (l ++ f).Nodup
  num : q.num = l.length
  size : q.size = (l ++ f).length

/-- A node that is on neither list is freed. -/
theorem holds_free (h : q.list.Holds l) (hb : q.bottom = l.getLast?.getD 0)
    (hf : Chain q.list.nxt q.free f) (hn : (l ++ a :: f).Nodup) (ha : a ≠ 0)
    (hnum : q.num = l.length + 1) (hsize : q.size = (l ++ a :: f).length) :
    (q.vqFreeNode a).Holds l (a :: f) := by
  have hal : a ∉ l ++ f := (nodup_middle.mp hn).notMem
  rw [mem_append, not_or] at hal
  constructor
  · refine ⟨h.linked.congr fun c hc => ?_, h.nodup⟩
    have hca : c ≠ a := fun heq => hal.1 (heq ▸ hc)
    exact ⟨update_of_ne hca _ _, update_of_ne hca _ _⟩
  · exact hb
  · exact hf.push ha hal.2
  · exact hn
  · show q.num - 1 = _
    omega
  · exact hsize

/-- A node is taken from the free list. -/
theorem Holds.alloc (h : q.Holds l (a :: f)) :
    ∃ q', q.vqAllocNode = some (a, q') ∧ q'.list.Holds l ∧ q'.bottom = q.bottom ∧
      Chain q'.list.nxt q'.free f ∧ q'.num = l.length + 1 ∧ q'.size = q.size ∧
      q'.event = q.event := by
  obtain ⟨hfa, ha, hf⟩ := h.free
  have hn := (nodup_middle.mp h.nodup).notMem
  rw [mem_append, not_or] at hn
  rw [vqAllocNode, if_neg (hfa ▸ ha), hfa]
  refine ⟨_, rfl, ⟨h.list.linked.congr fun c hc => ?_, h.list.nodup⟩, rfl, ?_, ?_, rfl, rfl⟩
  · exact ⟨update_of_ne (fun heq : c = a => hn.1 (heq ▸ hc)) _ _, rfl⟩
  · exact hf.congr fun c hc => update_of_ne (fun heq : c = a => hn.2 (heq ▸ hc)) _ _
  · show q.num + 1 = _
    rw [h.num]

theorem Holds.alloc_none (h : q.Holds l []) : q.vqAllocNode = none := by
  have h0 : q.free = 0 := h.free
  rw [vqAllocNode, if_pos h0]

theorem Holds.head_eq (h : q.Holds l f) : q.list.head = l.headD 0 := h.list.linked.first

theorem Holds.last_ne_zero (h : q.Holds l f) (hl : l ≠ []) : l.getLast?.getD 0 ≠ 0 := by
  rw [getLast?_eq_getLast_of_ne_nil hl]
  exact h.list.ne_zero (getLast_mem hl)

/-- The free nodes keep their links when a node goes in. -/
theorem chain_insert (hf : Chain q.list.nxt q.free f) (ha : a ∉ f) (hp : p ∉ f) :
    Chain (q.list.insert p a).nxt q.free f := by
  apply hf.congr
  intro c hc
  apply Doubly.insert_nxt_of_ne
  · exact fun heq => ha (heq ▸ hc)
  · exact fun heq => hp (heq ▸ hc)

/-- `vq_putback` puts the event on top, or finds no room. -/
theorem Holds.putback (h : q.Holds l f) (e : FirmEvent) :
    ∃ l' f', (q.vqPutback e).2.Holds l' f' := by
  cases f with
  | nil =>
    rw [vqPutback, h.alloc_none]
    exact ⟨l, [], h⟩
  | cons a f =>
    obtain ⟨q', halloc, hl, hb, hf, hnum, hsize, -⟩ := h.alloc
    have hal := (nodup_middle.mp h.nodup).notMem
    rw [mem_append, not_or] at hal
    have ha : a ≠ 0 := h.free.2.1
    have h0f : 0 ∉ f := fun h0 => hf.ne_zero h0 rfl
    rw [vqPutback, halloc]
    refine ⟨a :: l, f, hl.insert_first ha hal.1, ?_, chain_insert hf hal.2 h0f, ?_, ?_, ?_⟩
    · show (if q'.bottom = 0 then a else q'.bottom) = _
      rw [hb, h.bottom]
      cases l with
      | nil => rfl
      | cons b l => rw [if_neg (h.last_ne_zero (cons_ne_nil b l)), getLast?_cons_cons]
    · exact nodup_middle.mp h.nodup
    · exact hnum
    · show q'.size = _
      rw [hsize, h.size]
      simp only [length_append, length_cons]
      omega

/-- The last of the nodes after `p` is not `p` itself. -/
theorem Holds.bottom_eq_iff (h : q.Holds (l ++ p :: m) f) : p = q.bottom ↔ m = [] := by
  rw [h.bottom]
  rcases eq_nil_or_concat m with rfl | ⟨m, b, rfl⟩
  · simp
  · have hne : p ≠ b := by
      rintro rfl
      have hn := (nodup_middle.mp (nodup_append'.mp h.nodup).1).notMem
      exact hn (by simp)
    rw [concat_eq_append, show l ++ p :: (m ++ [b]) = (l ++ p :: m) ++ [b] by simp,
      getLast?_concat]
    simpa using hne

/-- `vq_put` puts the event behind `p`, or finds no room. -/
theorem Holds.putAfter (h : q.Holds (l ++ p :: m) f) (e : FirmEvent) :
    ∃ l' f', (q.putAfter e p).2.Holds l' f' := by
  cases f with
  | nil =>
    rw [VuidQueue.putAfter, h.alloc_none]
    exact ⟨_, [], h⟩
  | cons a f =>
    obtain ⟨q', halloc, hl, hb, hf, hnum, hsize, -⟩ := h.alloc
    have hal := (nodup_middle.mp h.nodup).notMem
    rw [mem_append, not_or] at hal
    have hpf : p ∉ f := fun hp =>
      (nodup_append'.mp h.nodup).2.2 (by simp : p ∈ l ++ p :: m) (mem_cons_of_mem a hp)
    have hin := hl.insert_after h.free.2.1 hal.1
    have hhead : (q'.list.insert p a).head ≠ 0 := by
      rw [hin.linked.first]
      cases l with
      | nil => exact hl.ne_zero (by simp)
      | cons b l => exact hl.ne_zero (by simp)
    rw [VuidQueue.putAfter, halloc]
    simp only [if_neg hhead]
    refine ⟨l ++ p :: a :: m, f, hin, ?_, chain_insert hf hal.2 hpf, ?_, ?_, ?_⟩
    · show (if p = q'.bottom then a else q'.bottom) = _
      rw [hb]
      by_cases hm : m = []
      · rw [if_pos (h.bottom_eq_iff.mpr hm), hm]
        simp
      · rw [if_neg fun hp => hm (h.bottom_eq_iff.mp hp), h.bottom]
        obtain ⟨b, m, rfl⟩ := exists_cons_of_ne_nil hm
        simp
    · have hn := h.nodup
      rw [show l ++ p :: m ++ a :: f = (l ++ [p]) ++ (m ++ a :: f) by simp] at hn
      rw [show l ++ p :: a :: m ++ f = (l ++ [p]) ++ a :: (m ++ f) by simp]
      have hperm : (m ++ a :: f).Perm (a :: (m ++ f)) := perm_middle
      exact (hperm.append_left (l ++ [p])).nodup_iff.mp hn
    · show q'.num = _
      rw [hnum]
      simp only [length_append, length_cons]
      omega
    · show q'.size = _
      rw [hsize, h.size]
      simp only [length_append, length_cons]
      omega

/-- The loop of `vq_put` ends. -/
theorem Holds.putFrom (h : q.Holds (l ++ m) f) (e : FirmEvent) (hfuel : l.length < fuel) :
    ∃ r, q.putFrom e fuel (l.getLast?.getD 0) = some r ∧ ∃ l' f', r.2.Holds l' f' := by
  induction l using List.reverseRecOn generalizing m fuel with
  | nil =>
    obtain ⟨fuel, rfl⟩ := Nat.exists_eq_succ_of_ne_zero (Nat.ne_zero_of_lt hfuel)
    exact ⟨_, rfl, h.putback e⟩
  | append_singleton l p ih =>
    obtain ⟨fuel, rfl⟩ := Nat.exists_eq_succ_of_ne_zero (Nat.ne_zero_of_lt hfuel)
    rw [append_assoc, singleton_append] at h
    have hp : p ≠ 0 := h.list.ne_zero (by simp)
    rw [getLast?_concat, Option.getD_some, VuidQueue.putFrom, if_neg hp]
    split_ifs
    · exact ⟨_, rfl, h.putAfter e⟩
    · rw [h.list.linked.prev_eq]
      exact ih h (by simp at hfuel; omega)

theorem Holds.length_lt (h : q.Holds l f) : l.length < q.size.toNat + 1 := by
  rw [h.size, length_append]
  omega

theorem Holds.put (h : q.Holds l f) (e : FirmEvent) :
    ∃ r, q.vqPut e = some r ∧ ∃ l' f', r.2.Holds l' f' := by
  rw [vqPut, h.bottom]
  exact Holds.putFrom (m := []) (by rwa [append_nil]) e h.length_lt

/-- A node is taken out by its links and freed. -/
theorem Holds.unlink (h : q.Holds (l ++ a :: m) f) (hlist : q'.list = q.list.delete a)
    (hb : q'.bottom = (l ++ m).getLast?.getD 0) (hf : q'.free = q.free) (hnum : q'.num = q.num)
    (hsize : q'.size = q.size) : (q'.vqFreeNode a).Holds (l ++ m) (a :: f) := by
  have hn := h.nodup
  have hperm : (l ++ a :: m ++ f).Perm (l ++ m ++ a :: f) := by
    refine (List.perm_middle.append_right f).trans ?_
    exact List.perm_middle.symm
  apply holds_free
  · rw [hlist]
    exact h.list.delete_middle
  · exact hb
  · rw [hlist, hf]
    apply h.free.congr
    intro c hc
    show (if q.list.prev a = 0 then _ else _ : ℕ → ℕ) c = _
    split_ifs with h0
    · rfl
    · apply update_of_ne
      rintro rfl
      refine (nodup_append'.mp hn).2.2 ?_ hc
      rw [h.list.linked.prev_eq] at h0 ⊢
      rcases eq_nil_or_concat l with rfl | ⟨l, b, rfl⟩
      · exact absurd rfl h0
      · simp
  · exact hperm.nodup_iff.mp hn
  · exact h.list.ne_zero (by simp)
  · rw [hnum, h.num]
    simp only [length_append, length_cons]
    omega
  · rw [hsize, h.size, hperm.length_eq]

theorem Holds.last_middle (h : q.Holds (l ++ a :: m) f) :
    (if q.bottom = a then l.getLast?.getD 0 else q.bottom) = (l ++ m).getLast?.getD 0 := by
  by_cases hm : m = []
  · rw [if_pos (h.bottom_eq_iff.mpr hm).symm, hm, append_nil]
  · rw [if_neg fun hb => hm (h.bottom_eq_iff.mp hb.symm), h.bottom]
    obtain ⟨b, m, rfl⟩ := exists_cons_of_ne_nil hm
    simp

/-- `vq_get` takes the top. -/
theorem Holds.get (h : q.Holds (a :: l) f) :
    ∃ q', q.vqGet = some (q.event a, q') ∧ q'.Holds l (a :: f) ∧ q'.event = q.event ∧
      q'.num = q.num - 1 ∧ q'.size = q.size := by
  have hhead : q.list.head = a := h.head_eq
  have ha : a ≠ 0 := h.list.ne_zero mem_cons_self
  have hprev : q.list.prev a = 0 := Doubly.Linked.prev_eq (l := []) h.list.linked
  rw [vqGet, hhead, if_neg ha]
  refine ⟨_, rfl, Holds.unlink (l := []) h ?_ (Holds.last_middle (l := []) h) rfl rfl rfl, rfl,
    rfl, rfl⟩
  rw [Doubly.delete, hprev, if_pos rfl, if_pos rfl, ite_not]

/-- `vq_delete_node` takes a node out. -/
theorem Holds.delete (h : q.Holds (l ++ a :: m) f) :
    (q.vqDeleteNode a).Holds (l ++ m) (a :: f) ∧ (q.vqDeleteNode a).event = q.event ∧
      (q.vqDeleteNode a).num = q.num - 1 ∧ (q.vqDeleteNode a).size = q.size := by
  rw [vqDeleteNode]
  rcases eq_nil_or_concat l with rfl | ⟨l, p, rfl⟩
  · obtain ⟨q', hget, hq', hrest⟩ := Holds.get h
    have hhead : a = q.list.head := h.head_eq.symm
    rw [if_pos hhead, hget]
    exact ⟨hq', hrest⟩
  · rw [concat_eq_append] at *
    have hprev : q.list.prev a = p := by
      rw [h.list.linked.prev_eq, getLast?_concat, Option.getD_some]
    have hp : p ≠ 0 := h.list.ne_zero (by simp)
    have hne : a ≠ q.list.head := by
      rw [h.head_eq]
      have hn := (nodup_middle.mp (nodup_append'.mp h.nodup).1).notMem
      cases l with
      | nil =>
        rintro (rfl : a = p)
        simp at hn
      | cons b l =>
        rintro (rfl : a = b)
        simp at hn
    have hlast := h.last_middle
    rw [getLast?_concat, Option.getD_some] at hlast
    rw [if_neg hne, hprev]
    refine ⟨h.unlink ?_ hlast rfl rfl rfl, rfl, rfl, rfl⟩
    have hiff : q.bottom = a ↔ q.list.nxt a = 0 := by
      rw [eq_comm, h.bottom_eq_iff, h.list.linked.nxt_eq]
      cases m with
      | nil => simp
      | cons b m => simpa using h.list.ne_zero (by simp)
    rw [Doubly.delete, hprev, if_neg hp, if_neg hp]
    simp only [hiff]

/-! ## Queues that are built -/

/-- A queue that the interface builds. -/
inductive Built : VuidQueue → Prop
  | init {data bytes : ℕ} (event : ℕ → FirmEvent) (hdata : 0 < data) (hbytes : 24 ≤ bytes) :
      Built (vqInitialize data bytes event)
  | put {q : VuidQueue} {r : Code × VuidQueue} (e : FirmEvent) (h : Built q)
      (hr : q.vqPut e = some r) : Built r.2
  | putback {q : VuidQueue} (e : FirmEvent) (h : Built q) : Built (q.vqPutback e).2
  | get {q : VuidQueue} {r : FirmEvent × VuidQueue} (h : Built q) (hr : q.vqGet = some r) :
      Built r.2

/-- The nodes of the pool are freed, one after the other. -/
theorem holds_initialize {ns : List ℕ} (hhead : q.list.head = 0) (hb : q.bottom = 0)
    (hf : Chain q.list.nxt q.free f) (hn : (ns ++ f).Nodup) (h0 : 0 ∉ ns)
    (hnum : q.num = ns.length) (hsize : q.size = (ns ++ f).length) :
    ∃ f', (ns.foldl vqFreeNode q).Holds [] f' := by
  induction ns generalizing q f with
  | nil => exact ⟨f, ⟨hhead, nodup_nil⟩, hb, hf, hn, hnum, hsize⟩
  | cons a ns ih =>
    rw [mem_cons, not_or] at h0
    have hperm : (ns ++ a :: f).Perm (a :: ns ++ f) := perm_middle
    have haf : a ∉ f := fun ha => (nodup_append'.mp hn).2.2 mem_cons_self ha
    apply ih
    · exact hhead
    · exact hb
    · exact hf.push (Ne.symm h0.1) haf
    · exact hperm.nodup_iff.mpr hn
    · exact h0.2
    · show q.num - 1 = _
      rw [hnum, length_cons]
      omega
    · rw [hperm.length_eq]
      exact hsize

/-- **Every queue that is built is linked as it should be, with the right count.** -/
theorem Built.holds (h : Built q) : ∃ l f, q.Holds l f := by
  induction h with
  | @init data bytes event hdata hbytes =>
    refine ⟨[], holds_initialize (f := []) rfl rfl rfl ?_ ?_ ?_ ?_⟩
    · rw [append_nil]
      refine List.nodup_range.map fun i j (hij : data + 24 * i = data + 24 * j) => ?_
      omega
    · simp only [mem_map, not_exists, not_and]
      omega
    · simp
    · simp
  | put e _ hr ih =>
    obtain ⟨l, f, h⟩ := ih
    obtain ⟨r', hr', hh⟩ := h.put e
    obtain rfl := Option.some.inj (hr.symm.trans hr')
    exact hh
  | putback e _ ih =>
    obtain ⟨l, f, h⟩ := ih
    exact h.putback e
  | get _ hr ih =>
    obtain ⟨l, f, h⟩ := ih
    cases l with
    | nil =>
      have h0 : _ = 0 := h.head_eq
      rw [vqGet, if_pos h0] at hr
      cases hr
    | cons a l =>
      obtain ⟨q', hget, hq', -⟩ := h.get
      rw [hget] at hr
      obtain rfl := Option.some.inj hr
      exact ⟨l, a :: f, hq'⟩

end VuidQueue

end Vuid
