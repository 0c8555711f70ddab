/-
# Dispensing a compressed queue (`ws_get_event` of `sunwindowdev/ws_dispense.c`)

An event moves the locator or sets the value of its id, and of its pair.  A queue may only be
compressed by merges that the events between base and victim do not notice.
-/
import SunOS.Kern.VuidCompress
import Mathlib.Data.BitVec
import Mathlib.Tactic.Abel

namespace Vuid

open List
open Function (update update_apply update_of_ne)

/-! ## The values of the ids (`sundev/vuid_store.c`) -/

/-- An id is boolean until it gets another value. -/
inductive Value
  | boolean (b : Bool)
  | int (v : BitVec 32)
deriving DecidableEq

/-- The segments of a state, read as one table. -/
abbrev Store := BitVec 16 → Value

variable {s s' : Store} {e v : FirmEvent} {i : BitVec 16}

def vuidIntValue (value : BitVec 32) : Bool := !(value == 0 || value == 1)

def Value.isInt : Value → Bool
  | .boolean _ => false
  | .int _ => true

/-- What the node holds; a node that is added holds 0. -/
def Value.node : Value → BitVec 32
  | .boolean _ => 0
  | .int v => v

/-- The id in the segment of the event that its pair names. -/
def FirmEvent.pairId (e : FirmEvent) : BitVec 16 := (e.id &&& 0xFF00) ||| e.pair.setWidth 16

/-- `vuid_set_value` of an event that has no pair. -/
def setAlone (s : Store) (id : BitVec 16) (value : BitVec 32) : Store :=
  if (s id).isInt || vuidIntValue value then update s id (.int value)
  else update s id (.boolean (value != 0))

/-- `vuid_set_value` before it turns to the pair that is to be set. -/
def setOwn (s : Store) (e : FirmEvent) : Store :=
  if (s e.id).isInt || vuidIntValue e.value then
    let s' := update s e.id (.int e.value)
    if e.pairType = FE_PAIR_DELTA then
      update s' e.pairId (.int (e.value - (s e.id).node))
    else if e.pairType = FE_PAIR_ABSOLUTE then
      update s' e.pairId (.int ((s' e.pairId).node + e.value))
    else s'
  else update s e.id (.boolean (e.value != 0))

def vuidSetValue (s : Store) (e : FirmEvent) : Store :=
  if e.pairType = FE_PAIR_SET then setAlone (setOwn s e) e.pairId e.value else setOwn s e

/-- The ids an event reads and sets. -/
def FirmEvent.Touches (e : FirmEvent) (i : BitVec 16) : Prop :=
  i = e.id ∨ (e.pairType = FE_PAIR_SET ∨ e.pairType = FE_PAIR_DELTA
    ∨ e.pairType = FE_PAIR_ABSOLUTE) ∧ i = e.pairId

/-- No other id is set. -/
theorem vuidSetValue_of_not (h : ¬e.Touches i) : vuidSetValue s e i = s i := by
  rw [FirmEvent.Touches, not_or, not_and] at h
  obtain ⟨hid, hpair⟩ := h
  have hown : setOwn s e i = s i := by
    rw [setOwn]
    split_ifs with _ hd ha
    · rw [update_of_ne (hpair (Or.inr (Or.inl hd))), update_of_ne hid]
    · rw [update_of_ne (hpair (Or.inr (Or.inr ha))), update_of_ne hid]
    · exact update_of_ne hid _ _
    · exact update_of_ne hid _ _
  rw [vuidSetValue]
  split_ifs with hset
  · rw [setAlone]
    split_ifs
    · rw [update_of_ne (hpair (Or.inl hset)), hown]
    · rw [update_of_ne (hpair (Or.inl hset)), hown]
  · exact hown

/-- Equal updates of tables that agree at an id. -/
theorem update_congr {j : BitVec 16} {x : Value} (h : s i = s' i) :
    update s j x i = update s' j x i := by
  rw [update_apply, update_apply, h]

/-- No other id is read. -/
theorem vuidSetValue_congr (h : ∀ j, e.Touches j → s j = s' j) (hi : e.Touches i) :
    vuidSetValue s e i = vuidSetValue s' e i := by
  have hid := h e.id (Or.inl rfl)
  have hown : ∀ j, e.Touches j → setOwn s e j = setOwn s' e j := by
    intro j hj
    rw [setOwn, setOwn, hid]
    split_ifs with _ hd ha
    · exact update_congr (update_congr (h j hj))
    · have hp : update s e.id (.int e.value) e.pairId
          = update s' e.id (.int e.value) e.pairId :=
        update_congr (h _ (Or.inr ⟨Or.inr (Or.inr ha), rfl⟩))
      simp only [hp]
      exact update_congr (update_congr (h j hj))
    · exact update_congr (h j hj)
    · exact update_congr (h j hj)
  rw [vuidSetValue, vuidSetValue]
  split_ifs with hset
  · rw [setAlone, setAlone, hown e.pairId (Or.inr ⟨Or.inl hset, rfl⟩)]
    split_ifs
    · exact update_congr (hown i hi)
    · exact update_congr (hown i hi)
  · exact hown i hi

/-- Events that touch different ids may change places. -/
theorem vuidSetValue_comm (h : ∀ j, v.Touches j → ¬e.Touches j) :
    vuidSetValue (vuidSetValue s e) v = vuidSetValue (vuidSetValue s v) e := by
  funext i
  by_cases hv : v.Touches i
  · rw [vuidSetValue_of_not (h i hv)]
    exact vuidSetValue_congr (fun j hj => vuidSetValue_of_not (h j hj)) hv
  rw [vuidSetValue_of_not hv]
  by_cases he : e.Touches i
  · refine vuidSetValue_congr (fun j hj => ?_) he
    exact (vuidSetValue_of_not fun hvj => h j hvj hj).symm
  · rw [vuidSetValue_of_not he, vuidSetValue_of_not he, vuidSetValue_of_not hv]

/-- An event that adds to its pair. -/
theorem vuidSetValue_absolute (h : e.pairType = FE_PAIR_ABSOLUTE) :
    vuidSetValue s e =
      if (s e.id).isInt || vuidIntValue e.value then
        update (update s e.id (.int e.value)) e.pairId
          (.int ((update s e.id (.int e.value) e.pairId).node + e.value))
      else update s e.id (.boolean (e.value != 0)) := by
  have hset : FE_PAIR_ABSOLUTE ≠ FE_PAIR_SET := by decide
  have hdelta : FE_PAIR_ABSOLUTE ≠ FE_PAIR_DELTA := by decide
  rw [vuidSetValue, setOwn, h, if_neg hset, if_neg hdelta, if_pos rfl]

/-- An event of value 0 that adds to its pair makes no difference to the next such one. -/
theorem vuidSetValue_zero {b : FirmEvent} (hid : v.id = b.id) (hpair : b.pair = v.pair)
    (hb : b.pairType = FE_PAIR_ABSOLUTE) (hv : v.pairType = FE_PAIR_ABSOLUTE) (h0 : b.value = 0) :
    vuidSetValue (vuidSetValue s b) v = vuidSetValue s (merge b v) := by
  have hp : v.pairId = b.pairId := by rw [FirmEvent.pairId, FirmEvent.pairId, hid, hpair]
  have hm : (merge b v).pairId = b.pairId := rfl
  have hmid : (merge b v).id = b.id := rfl
  have hval : (merge b v).value = v.value := by
    rw [merge, if_pos hb, h0]
    exact BitVec.zero_add _
  have hint : vuidIntValue 0 = false := rfl
  rw [vuidSetValue_absolute hv, vuidSetValue_absolute (e := merge b v) hb, vuidSetValue_absolute hb,
    hm, hmid, hval, hp, hid, h0, hint, Bool.or_false]
  cases hs : s b.id with
  | boolean c => simp [Value.isInt]
  | int c =>
    by_cases hpi : b.pairId = b.id
    · simp [Value.isInt, Value.node, hpi]
    · simp [Value.isInt, Value.node, update_of_ne hpi,
        update_of_ne (Ne.symm hpi), Function.update_comm (Ne.symm hpi)]

/-! ## Taking events off the queue -/

def LOC_X_DELTA : BitVec 16 := 32640
def LOC_Y_DELTA : BitVec 16 := 32641
def LOC_X_ABSOLUTE : BitVec 16 := 32642
def LOC_Y_ABSOLUTE : BitVec 16 := 32643
def LOC_MOVE : BitVec 16 := 32512
def LOC_STILL : BitVec 16 := 32513

def wsIsLocChange (id : BitVec 16) : Bool :=
  (LOC_X_DELTA.ule id && id.ule LOC_Y_ABSOLUTE) || id == LOC_MOVE

/-- `dt_ut_x` and `dt_ut_y` of the desktop, the state of the ids, and `WSF_LATEST_WAS_MOTION`. -/
structure Workstation where
  utX : BitVec 32
  utY : BitVec 32
  instate : Store
  latestWasMotion : Bool

/-- The locator goes where the event says. -/
def locate (ws : Workstation) (e : FirmEvent) : Workstation :=
  if e.id = LOC_X_DELTA then { ws with utX := ws.utX + e.value }
  else if e.id = LOC_Y_DELTA then { ws with utY := ws.utY + e.value }
  else if e.id = LOC_X_ABSOLUTE then { ws with utX := e.value }
  else if e.id = LOC_Y_ABSOLUTE then { ws with utY := e.value }
  else ws

/-- What `ws_get_event` does with an event it has taken; the mask of shift keys is left out. -/
def dispense (ws : Workstation) (e : FirmEvent) : Workstation :=
  if wsIsLocChange e.id then { locate ws e with latestWasMotion := true }
  else
    { ws with
      instate := vuidSetValue ws.instate e
      latestWasMotion := if e.id = LOC_STILL then false else ws.latestWasMotion }

/-- `ws_get_event`: changes of the locator at one time are one event.  Nothing from an empty queue.
-/
def wsGetEvent : ℕ → VuidQueue → Workstation → Option (FirmEvent × VuidQueue × Workstation)
  | 0, _, _ => none
  | fuel + 1, q, ws =>
      match q.vqGet with
      | none => none
      | some (e, q) =>
          if wsIsLocChange e.id then
            if q.vqPeek.any (fun loc => wsIsLocChange loc.id && tvEqual loc.time e.time) then
              wsGetEvent fuel q (dispense ws e)
            else some (⟨LOC_MOVE, FE_PAIR_NONE, 0, 1, e.time⟩, q, dispense ws e)
          else some (e, q, dispense ws e)

/-- The loop of `ws_flush_input`: events are taken until the queue is empty. -/
def wsFlush : ℕ → VuidQueue → Workstation → Option Workstation
  | 0, _, _ => none
  | fuel + 1, q, ws =>
      if q.list.head = 0 then some ws
      else
        match wsGetEvent (fuel + 1) q ws with
        | none => none
        | some (_, q, ws) => wsFlush fuel q ws

variable {q q' : VuidQueue} {l f : List ℕ} {ws : Workstation} {fuel : ℕ}

/-- `ws_get_event` takes events off the top, one or more. -/
theorem wsGetEvent_eq (ws : Workstation) {a : ℕ} (h : q.Holds (a :: l) f)
    (hfuel : l.length < fuel) :
    ∃ e q' l1 l2 f', wsGetEvent fuel q ws
        = some (e, q', ((a :: l1).map q.event).foldl dispense ws) ∧
      l = l1 ++ l2 ∧ q'.Holds l2 f' ∧ q'.event = q.event := by
  induction l generalizing q a f ws fuel with
  | nil =>
    obtain ⟨fuel, rfl⟩ := Nat.exists_eq_succ_of_ne_zero (Nat.ne_zero_of_lt hfuel)
    obtain ⟨q1, hget, hq1, hev, -⟩ := h.get
    have h0 : q1.list.head = 0 := hq1.head_eq
    have hpeek : q1.vqPeek = none := by rw [VuidQueue.vqPeek, if_pos h0]
    rw [wsGetEvent, hget]
    simp only [hpeek, Option.any_none, Bool.false_eq_true, if_false]
    split_ifs
    · exact ⟨_, q1, [], [], _, rfl, rfl, hq1, hev⟩
    · exact ⟨_, q1, [], [], _, rfl, rfl, hq1, hev⟩
  | cons b l ih =>
    obtain ⟨fuel, rfl⟩ := Nat.exists_eq_succ_of_ne_zero (Nat.ne_zero_of_lt hfuel)
    obtain ⟨q1, hget, hq1, hev, -⟩ := h.get
    rw [wsGetEvent, hget]
    simp only
    split_ifs
    · obtain ⟨e, q', l1, l2, f', hrun, hl, hq', hev'⟩ :=
        ih (dispense ws (q.event a)) hq1 (Nat.lt_of_succ_lt_succ hfuel)
      refine ⟨e, q', b :: l1, l2, f', ?_, congrArg _ hl, hq', hev'.trans hev⟩
      rw [hrun, hev]
      rfl
    · exact ⟨_, q1, [], b :: l, _, rfl, rfl, hq1, hev⟩
    · exact ⟨_, q1, [], b :: l, _, rfl, rfl, hq1, hev⟩

/-- **All events are taken**, in their order. -/
theorem wsFlush_eq (h : q.Holds l f) (hfuel : l.length < fuel) :
    wsFlush fuel q ws = some ((l.map q.event).foldl dispense ws) := by
  induction fuel generalizing q l f ws with
  | zero => cases hfuel
  | succ fuel ih =>
    rw [wsFlush, h.head_eq]
    cases l with
    | nil => exact if_pos rfl
    | cons a l =>
      have ha : a ≠ 0 := h.list.ne_zero mem_cons_self
      have hlen : l.length < fuel := by simpa using hfuel
      obtain ⟨e, q', l1, l2, f', hget, rfl, hq', hev⟩ :=
        wsGetEvent_eq ws h (Nat.lt_succ_of_lt hlen)
      have hl2 : l2.length < fuel := by
        rw [length_append] at hlen
        omega
      rw [headD_cons, if_neg ha, hget]
      simp only
      rw [ih hq' hl2, hev, ← foldl_append, ← map_append, cons_append]

/-! ## Parts of the state on their own -/

/-- A coordinate with its delta and its absolute id. -/
def shift (d a : BitVec 16) (x : BitVec 32) (e : FirmEvent) : BitVec 32 :=
  if e.id = d then x + e.value else if e.id = a then e.value else x

/-- The state of the ids. -/
def keep (s : Store) (e : FirmEvent) : Store := if wsIsLocChange e.id then s else vuidSetValue s e

/-- The three parts do not depend on one another. -/
theorem foldl_dispense {es : List FirmEvent} :
    (es.foldl dispense ws).utX = es.foldl (shift LOC_X_DELTA LOC_X_ABSOLUTE) ws.utX ∧
    (es.foldl dispense ws).utY = es.foldl (shift LOC_Y_DELTA LOC_Y_ABSOLUTE) ws.utY ∧
    (es.foldl dispense ws).instate = es.foldl keep ws.instate := by
  induction es generalizing ws with
  | nil => exact ⟨rfl, rfl, rfl⟩
  | cons e es ih =>
    have hstep : (dispense ws e).utX = shift LOC_X_DELTA LOC_X_ABSOLUTE ws.utX e ∧
        (dispense ws e).utY = shift LOC_Y_DELTA LOC_Y_ABSOLUTE ws.utY e ∧
        (dispense ws e).instate = keep ws.instate e := by
      rw [dispense, shift, shift, keep]
      by_cases hloc : wsIsLocChange e.id = true
      · rw [if_pos hloc, if_pos hloc, locate]
        split_ifs with h1 h2 h3 h4 h5 h6 <;> simp_all [LOC_X_DELTA, LOC_Y_DELTA, LOC_X_ABSOLUTE,
          LOC_Y_ABSOLUTE]
      · rw [if_neg hloc, if_neg hloc]
        have hne : e.id ≠ LOC_X_DELTA ∧ e.id ≠ LOC_X_ABSOLUTE ∧ e.id ≠ LOC_Y_DELTA ∧
            e.id ≠ LOC_Y_ABSOLUTE := by
          refine ⟨?_, ?_, ?_, ?_⟩ <;> exact fun heq => hloc (heq ▸ by decide)
        simp [hne]
    rw [foldl_cons, foldl_cons, foldl_cons, foldl_cons, ← hstep.1, ← hstep.2.1,
      ← hstep.2.2]
    exact ih

end Vuid
