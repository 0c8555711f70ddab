/-
# The undo tables

The adjust-on-exit entries of a process are a sorted table of nonzero amounts.
`semaoe` adds to one amount or changes nothing; the opposite call finds room for what it
puts back, and gives back the same entries.
-/
import SunOS.Ipc.Sem
import SunOS.Lib.SortedTable
import Mathlib.Data.Prod.Lex
import Mathlib.Algebra.Order.Ring.Int

namespace IpcSem

open List
open Function (update update_of_ne update_self)
open Ipc SortedTable

variable {si : seminfo} {s s1 s' t : State} {p q up x : ℕ} {id num val v : ℤ}
  {l l0 lo hi : List undo}
  {e uup : undo} {err : Errno} {op : sembuf} {k : ℤ ×ₗ ℤ}

/-- Entries sort by set, then by semaphore. -/
def undo.key (e : undo) : ℤ ×ₗ ℤ := toLex (e.un_id, e.un_num)

theorem before_iff : undo.before id num e = true ↔ e.key < toLex (id, num) := by
  unfold undo.before undo.key
  rw [Prod.Lex.toLex_lt_toLex]
  simp

theorem key_eq_iff : e.key = toLex (id, num) ↔ e.un_id = id ∧ e.un_num = num := by
  unfold undo.key
  rw [toLex_inj, Prod.mk.injEq]

/-- The adjustment an entry list holds for a key. -/
abbrev amount (l : List undo) (k : ℤ ×ₗ ℤ) : ℤ := look undo.key undo.un_aoe l k

/-- What the code keeps of the entries of a process. -/
structure TableOk (si : seminfo) (l : List undo) : Prop where
  sorted : Sorted undo.key l
  nonzero : ∀ e ∈ l, e.un_aoe ≠ 0
  small : ∀ e ∈ l, -(si.semaem : ℤ) ≤ e.un_aoe ∧ e.un_aoe ≤ si.semaem
  length : l.length ≤ si.semume

theorem TableOk.nil (si : seminfo) : TableOk si [] :=
  ⟨List.Pairwise.nil, fun _ h => absurd h (not_mem_nil), fun _ h => absurd h (not_mem_nil),
    Nat.zero_le _⟩

/-- The amounts determine the entries. -/
theorem TableOk.ext (h : TableOk si l) (h0 : TableOk si l0) (heq : ∀ k, amount l k = amount l0 k) :
    l = l0 := by
  refine h.sorted.ext h0.sorted h.nonzero h0.nonzero (fun a b hk hv => ?_) heq
  obtain ⟨h1, h2⟩ := Prod.mk.inj (toLex_inj.mp hk)
  cases a
  cases b
  simp only at h1 h2 hv
  rw [h1, h2, hv]

theorem TableOk.sublist (h : TableOk si l) (hs : List.Sublist l0 l) : TableOk si l0 :=
  ⟨h.sorted.sublist hs, fun e he => h.nonzero e (hs.subset he), fun e he =>
    h.small e (hs.subset he),
    hs.length_le.trans h.length⟩

theorem TableOk.amount_small (h : TableOk si l) (k : ℤ ×ₗ ℤ) :
    -(si.semaem : ℤ) ≤ amount l k ∧ amount l k ≤ si.semaem := by
  by_cases hex : ∃ e ∈ l, e.key = k
  · obtain ⟨e, he, rfl⟩ := hex
    rw [amount, h.sorted.look_mem he]
    exact h.small e he
  · rw [amount, look_eq_zero fun e he hk => hex ⟨e, he, hk⟩]
    omega

namespace State

/-- The undo entries of a process. -/
def ents (s : State) (p : ℕ) : List undo :=
  match s.sem_undo p with
  | none => []
  | some up => s.semu up

end State

theorem ents_of (h : s.sem_undo p = some up) : s.ents p = s.semu up := by
  unfold State.ents
  rw [h]

/-- Each undo structure belongs to one process or is free, and then empty. -/
structure Owned (s : State) : Prop where
  owner : ∀ p q up, s.sem_undo p = some up → s.sem_undo q = some up → p = q
  busy : ∀ p up, s.sem_undo p = some up → up ∉ s.semfup
  nodup : s.semfup.Nodup
  empty : ∀ up ∈ s.semfup, s.semu up = []

/-- Only undo structures differ, and the entries of no process. -/
structure Kept (s s' : State) : Prop where
  owned : Owned s'
  has : ∀ q, s.sem_undo q ≠ none → s'.sem_undo q ≠ none
  sem : s'.sem = s.sem
  proc : s'.proc = s.proc
  sema : s'.sema = s.sema
  ents : ∀ q, s'.ents q = s.ents q

theorem Kept.refl (h : Owned s) : Kept s s := ⟨h, fun _ => id, rfl, rfl, rfl, fun _ => rfl⟩

/-- The entries of process `p` are replaced by `l`. -/
structure Replaced (s : State) (p : ℕ) (l : List undo) (s' : State) : Prop where
  owned : Owned s'
  has : ∀ q, s.sem_undo q ≠ none → s'.sem_undo q ≠ none
  sem : s'.sem = s.sem
  proc : s'.proc = s.proc
  sema : s'.sema = s.sema
  ents : s'.ents p = l
  others : ∀ q, q ≠ p → s'.ents q = s.ents q

theorem Replaced.kept (h : Replaced s p (s.ents p) s') : Kept s s' := by
  refine ⟨h.owned, h.has, h.sem, h.proc, h.sema, fun q => ?_⟩
  by_cases hq : q = p
  · rw [hq]
    exact h.ents
  · exact h.others q hq

/-- A store into the undo structure of `p`. -/
theorem replaced_store (h : Owned s) (hp : s.sem_undo p = some up) (l : List undo) (m : List ℕ) :
    Replaced s p l { s with semu := update s.semu up l, semunp := m } := by
  refine ⟨⟨h.owner, h.busy, h.nodup, fun up' hup => ?_⟩, fun _ => id, rfl, rfl, rfl, ?_,
    fun q hq => ?_⟩
  · show update s.semu up l up' = []
    rw [update_of_ne]
    · exact h.empty up' hup
    · rintro rfl
      exact h.busy p _ hp hup
  · show (match s.sem_undo p with
      | none => []
      | some up' => update s.semu up l up') = l
    rw [hp]
    exact update_self ..
  · unfold State.ents
    show (match s.sem_undo q with
      | none => []
      | some up' => update s.semu up l up') = _
    cases hq' : s.sem_undo q with
    | none => rfl
    | some up' =>
      show update s.semu up l up' = s.semu up'
      rw [update_of_ne]
      rintro rfl
      exact hq (h.owner q p _ hq' hp)

theorem getundo_spec (h : Owned s) (hg : getundo p s = some (up, s1)) :
    s1.sem_undo p = some up ∧ Kept s s1 := by
  unfold getundo at hg
  cases hp : s.sem_undo p with
  | some up' =>
    rw [hp] at hg
    obtain ⟨rfl, rfl⟩ := Prod.mk.inj (Option.some.inj hg)
    exact ⟨hp, .refl h⟩
  | none =>
    rw [hp] at hg
    cases hf : s.semfup with
    | nil =>
      rw [hf] at hg
      cases hg
    | cons up' rest =>
      rw [hf] at hg
      obtain ⟨rfl, rfl⟩ := Prod.mk.inj (Option.some.inj hg)
      have hmem : up' ∈ s.semfup := by rw [hf]; exact mem_cons_self ..
      have hnd := h.nodup
      rw [hf] at hnd
      obtain ⟨hnr, hnd'⟩ := List.nodup_cons.mp hnd
      -- no process has the structure that was free
      have hfree : ∀ q, s.sem_undo q ≠ some up' := fun q hq => h.busy q up' hq hmem
      have hset : ∀ q u, update s.sem_undo p (some up') q = some u →
          q = p ∧ u = up' ∨ q ≠ p ∧ s.sem_undo q = some u := by
        intro q u hu
        by_cases hqp : q = p
        · rw [hqp, update_self] at hu
          exact .inl ⟨hqp, (Option.some.inj hu).symm⟩
        · rw [update_of_ne hqp] at hu
          exact .inr ⟨hqp, hu⟩
      refine ⟨update_self .., ⟨fun q r u hq hr => ?_, fun q u hq => ?_, hnd', fun u hu => ?_⟩,
        fun q hq => ?_, rfl, rfl, rfl, fun q => ?_⟩
      · rcases hset q u hq with ⟨h1, h2⟩ | ⟨h1, h2⟩ <;>
          rcases hset r u hr with ⟨h3, h4⟩ | ⟨h3, h4⟩
        · rw [h1, h3]
        · exact absurd (h2 ▸ h4) (hfree r)
        · exact absurd (h4 ▸ h2) (hfree q)
        · exact h.owner q r u h2 h4
      · rcases hset q u hq with ⟨-, rfl⟩ | ⟨-, h2⟩
        · exact hnr
        · intro hu
          have h3 := h.busy q u h2
          rw [hf] at h3
          exact h3 (mem_cons_of_mem _ hu)
      · refine h.empty u ?_
        rw [hf]
        exact mem_cons_of_mem _ hu
      · show update s.sem_undo p (some up') q ≠ none
        by_cases hqp : q = p
        · rw [hqp, update_self]
          exact Option.some_ne_none _
        · rw [update_of_ne hqp]
          exact hq
      · unfold State.ents
        show (match update s.sem_undo p (some up') q with
          | none => []
          | some u => s.semu u) = _
        by_cases hqp : q = p
        · rw [hqp, update_self, hp]
          exact h.empty up' hmem
        · rw [update_of_ne hqp]

/-! ## One adjustment -/

/-- The amount of key `(id, num)` of process `p` grew by `v`. -/
structure Adjusted (si : seminfo) (s : State) (p : ℕ) (id num v : ℤ) (s' : State) : Prop where
  owned : Owned s'
  has : ∀ q, s.sem_undo q ≠ none → s'.sem_undo q ≠ none
  sem : s'.sem = s.sem
  proc : s'.proc = s.proc
  sema : s'.sema = s.sema
  table : TableOk si (s'.ents p)
  amount : ∀ k, amount (s'.ents p) k = amount (s.ents p) k + if toLex (id, num) = k then v else 0
  others : ∀ q, q ≠ p → s'.ents q = s.ents q

/-- An entry added at its place keeps the keys ascending. -/
theorem inserted_sorted (ht : TableOk si l) (hs : Split undo.key l (toLex (id, num)) lo hi)
    (hk : ∀ b ∈ hi.head?, b.key ≠ toLex (id, num)) :
    Sorted undo.key (lo ++ ⟨v, num, id⟩ :: hi) :=
  sorted_around (hs.eq ▸ ht.sorted) hs.below (hs.head_above ht.sorted hk) rfl

theorem inserted_mem (hs : Split undo.key l (toLex (id, num)) lo hi)
    (he : e ∈ lo ++ ⟨v, num, id⟩ :: hi) : e = ⟨v, num, id⟩ ∨ e ∈ l := by
  rw [hs.eq]
  rcases List.mem_append.mp he with he | he
  · exact .inr (mem_append_left _ he)
  · rcases List.mem_cons.mp he with he | he
    · exact .inl he
    · exact .inr (mem_append_right _ he)

theorem inserted_amount (hs : Split undo.key l (toLex (id, num)) lo hi) :
    amount (lo ++ ⟨v, num, id⟩ :: hi) k = amount l k + if toLex (id, num) = k then v else 0 := by
  rw [amount, look_around, ← hs.eq]
  rfl

/-- A new entry. -/
theorem aoenew_spec (h : Owned s) (hp : s.sem_undo p = some up) (ht : TableOk si (s.ents p))
    (hs : Split undo.key (s.ents p) (toLex (id, num)) lo hi)
    (hk : ∀ b ∈ hi.head?, b.key ≠ toLex (id, num)) (h0 : val ≠ 0)
    (hval : ¬ (val > si.semaem ∨ val < -si.semaem)) :
    (aoenew si up val id num lo hi s = (some .EINVAL, s) ∧ si.semume ≤ (s.ents p).length) ∨
      ∃ s', aoenew si up val id num lo hi s = (none, s') ∧ Adjusted si s p id num (-val) s' := by
  unfold aoenew
  rw [← hs.eq]
  by_cases hfull : si.semume ≤ (s.ents p).length
  · rw [if_pos hfull]
    exact .inl ⟨rfl, hfull⟩
  · rw [if_neg hfull]
    right
    refine ⟨_, rfl, ?_⟩
    have hv : int16 (-val) = -val := by
      have := si.semaem_le
      unfold SEMAEM at this
      exact int16_of_fits (by omega)
    rw [hv]
    have hr := replaced_store h hp (lo ++ ⟨-val, num, id⟩ :: hi)
      (if (s.ents p).length = 0 then up :: s.semunp else s.semunp)
    refine ⟨hr.owned, hr.has, hr.sem, hr.proc, hr.sema, ?_, fun k => ?_, hr.others⟩
    · rw [hr.ents]
      refine ⟨inserted_sorted ht hs hk, fun b hb => ?_, fun b hb => ?_, ?_⟩
      · rcases inserted_mem hs hb with rfl | hb
        · exact neg_ne_zero.mpr h0
        · exact ht.nonzero b hb
      · rcases inserted_mem hs hb with rfl | hb
        · show -(si.semaem : ℤ) ≤ -val ∧ -val ≤ si.semaem
          omega
        · exact ht.small b hb
      · have hlen : (s.ents p).length = lo.length + hi.length := by
          rw [hs.eq, length_append]
        rw [length_append, length_cons]
        omega
    · rw [hr.ents]
      exact inserted_amount hs

/-- An entry that is there. -/
theorem aoeold_spec (h : Owned s) (hp : s.sem_undo p = some up) (ht : TableOk si (s.ents p))
    (hs : s.ents p = lo ++ uup :: hi) (hk : uup.key = toLex (id, num))
    (hval : ¬ (val > si.semaem ∨ val < -si.semaem)) :
    ((∃ s', aoeold si up val lo uup hi s = (some .ERANGE, s') ∧ Kept s s') ∧
        ¬ (-(si.semaem : ℤ) ≤ uup.un_aoe - val ∧ uup.un_aoe - val ≤ si.semaem)) ∨
      ∃ s', aoeold si up val lo uup hi s = (none, s') ∧ Adjusted si s p id num (-val) s' := by
  have hmem : uup ∈ s.ents p := by
    rw [hs]
    exact mem_append_right _ (mem_cons_self ..)
  have hsmall := ht.small uup hmem
  have haem := si.semaem_le
  unfold SEMAEM at haem
  have hsort := hs ▸ ht.sorted
  have hsub : List.Sublist (lo ++ hi) (s.ents p) := by
    rw [hs]
    exact List.Sublist.append_left (sublist_cons_self uup hi) lo
  unfold aoeold
  by_cases hrange : -(si.semaem : ℤ) ≤ uup.un_aoe - val ∧ uup.un_aoe - val ≤ si.semaem
  · have haoe : int16 (uup.un_aoe - val) = uup.un_aoe - val := int16_of_fits (by lia)
    right
    rw [haoe, if_neg (by lia)]
    by_cases hz : uup.un_aoe - val = 0
    · rw [if_pos hz]
      have hr := replaced_store h hp (lo ++ hi)
        (if (lo ++ hi).length = 0 then s.semunp.erase up else s.semunp)
      refine ⟨_, rfl, hr.owned, hr.has, hr.sem, hr.proc, hr.sema, ?_, fun k => ?_, hr.others⟩
      · rw [hr.ents]
        exact ht.sublist hsub
      · rw [hr.ents, hs, amount, amount, look_around, hk]
        split <;> lia
    · rw [if_neg hz]
      have hr := replaced_store h hp (lo ++ { uup with un_aoe := uup.un_aoe - val } :: hi) s.semunp
      refine ⟨_, rfl, hr.owned, hr.has, hr.sem, hr.proc, hr.sema, ?_, fun k => ?_, hr.others⟩
      · have hin : ∀ b ∈ lo ++ { uup with un_aoe := uup.un_aoe - val } :: hi,
            b = { uup with un_aoe := uup.un_aoe - val } ∨ b ∈ s.ents p := by
          intro b hb
          rcases List.mem_append.mp hb with hb | hb
          · exact .inr (hsub.subset (mem_append_left _ hb))
          · rcases List.mem_cons.mp hb with hb | hb
            · exact .inl hb
            · exact .inr (hsub.subset (mem_append_right _ hb))
        rw [hr.ents]
        refine ⟨hsort.around rfl, fun b hb => ?_, fun b hb => ?_, ?_⟩
        · rcases hin b hb with rfl | hb
          · exact hz
          · exact ht.nonzero b hb
        · rcases hin b hb with rfl | hb
          · exact hrange
          · exact ht.small b hb
        · have hlen := ht.length
          rw [hs, length_append, length_cons] at hlen
          rw [length_append, length_cons]
          exact hlen
      · rw [hr.ents, hs, amount, amount, look_around, look_around, hk]
        have hk' : undo.key { uup with un_aoe := uup.un_aoe - val } = toLex (id, num) := hk
        rw [hk']
        by_cases hc : toLex (id, num) = k
        · rw [if_pos hc, if_pos hc, if_pos hc]
          show _ + (uup.un_aoe - val) = _
          lia
        · rw [if_neg hc, if_neg hc, if_neg hc]
          lia
  · -- one past the range of a short wraps to the other end, and back again
    left
    have hbad : int16 (uup.un_aoe - val) > si.semaem ∨ int16 (uup.un_aoe - val) < -si.semaem := by
      unfold int16
      lia
    have hback : int16 (int16 (uup.un_aoe - val) + val) = uup.un_aoe := by
      unfold int16
      lia
    rw [if_pos hbad, hback]
    have hr := replaced_store h hp (s.ents p) s.semunp
    refine ⟨⟨_, rfl, ?_⟩, hrange⟩
    have heq : lo ++ { uup with un_aoe := uup.un_aoe } :: hi = s.ents p := hs.symm
    rw [heq]
    exact hr.kept

/-- Why there is no room for an adjustment by `val`: the entry would be a new one and the
table is full, or the amount would be out of range. -/
def NoRoom (si : seminfo) (l : List undo) (id num val : ℤ) : Prop :=
  (si.semume ≤ l.length ∧ ∃ lo hi, Split undo.key l (toLex (id, num)) lo hi ∧
      ∀ b ∈ hi.head?, b.key ≠ toLex (id, num)) ∨
    ¬ (-(si.semaem : ℤ) ≤ amount l (toLex (id, num)) - val ∧
        amount l (toLex (id, num)) - val ≤ si.semaem)

/-- The part of `semaoe` from the search for the entry on. -/
theorem aoe_entry_spec (h : Owned s) (hp : s.sem_undo p = some up) (ht : TableOk si (s.ents p))
    (h0 : val ≠ 0) (hval : ¬ (val > si.semaem ∨ val < -si.semaem)) {r : Option Errno × State}
    (hr : (match (s.semu up).dropWhile (undo.before id num) with
      | uup :: hi =>
        if uup.un_id = id ∧ uup.un_num = num then
          aoeold si up val ((s.semu up).takeWhile (undo.before id num)) uup hi s
        else aoenew si up val id num ((s.semu up).takeWhile (undo.before id num)) (uup :: hi) s
      | [] => aoenew si up val id num ((s.semu up).takeWhile (undo.before id num)) [] s) = r) :
    ((∃ e s', r = (some e, s') ∧ Kept s s') ∧ NoRoom si (s.ents p) id num val) ∨
      ∃ s', r = (none, s') ∧ Adjusted si s p id num (-val) s' := by
  have hsplit := (ht.sorted.split fun _ =>
    before_iff : Split undo.key (s.ents p) (toLex (id, num)) _ _)
  rw [ents_of hp] at hsplit
  have hnew : ∀ hi, Split undo.key (s.ents p) (toLex (id, num))
        ((s.semu up).takeWhile (undo.before id num)) hi →
      (∀ b ∈ hi.head?, b.key ≠ toLex (id, num)) →
      aoenew si up val id num ((s.semu up).takeWhile (undo.before id num)) hi s = r →
      ((∃ e s', r = (some e, s') ∧ Kept s s') ∧ NoRoom si (s.ents p) id num val) ∨
        ∃ s', r = (none, s') ∧ Adjusted si s p id num (-val) s' := by
    intro hi hs hk hr
    rcases aoenew_spec h hp ht hs hk h0 hval with ⟨h1, h2⟩ | ⟨s', h1, h2⟩
    · exact .inl ⟨⟨_, s, hr.symm.trans h1, .refl h⟩, .inl ⟨h2, _, hi, hs, hk⟩⟩
    · exact .inr ⟨s', hr.symm.trans h1, h2⟩
  cases hd : (s.semu up).dropWhile (undo.before id num) with
  | nil =>
    rw [hd] at hr hsplit
    rw [← ents_of hp] at hsplit
    rw [← ents_of hp] at hr hnew
    exact hnew [] hsplit (fun b hb => by cases hb) hr
  | cons uup hi =>
    rw [hd] at hr hsplit
    simp only at hr
    by_cases hk : uup.un_id = id ∧ uup.un_num = num
    · rw [if_pos hk] at hr
      have hkey := key_eq_iff.mpr hk
      have heq := hsplit.eq
      rw [← ents_of hp] at heq hr
      rcases aoeold_spec h hp ht heq hkey hval with ⟨⟨s', h1, h2⟩, h3⟩ | ⟨s', h1, h2⟩
      · refine .inl ⟨⟨_, s', hr.symm.trans h1, h2⟩, .inr ?_⟩
        have hmem : uup ∈ s.ents p := by
          rw [heq]
          exact mem_append_right _ (mem_cons_self ..)
        rw [← hkey, amount, ht.sorted.look_mem hmem]
        exact h3
      · exact .inr ⟨s', hr.symm.trans h1, h2⟩
    · rw [if_neg hk] at hr
      rw [← ents_of hp] at hsplit hr hnew
      refine hnew (uup :: hi) hsplit (fun b hb => ?_) hr
      cases hb
      exact fun hb => hk (key_eq_iff.mp hb)

theorem Kept.adjusted (hk : Kept s s1) (ha : Adjusted si s1 p id num v s') :
    Adjusted si s p id num v s' := by
  refine ⟨ha.owned, fun q hq => ha.has q (hk.has q hq), ha.sem.trans hk.sem, ha.proc.trans hk.proc,
    ha.sema.trans hk.sema, ha.table,
    fun k => ?_, fun q hq => ?_⟩
  · rw [ha.amount, hk.ents]
  · rw [ha.others q hq, hk.ents]

theorem Kept.trans (h : Kept s s1) (h' : Kept s1 s') : Kept s s' :=
  ⟨h'.owned, fun q hq => h'.has q (h.has q hq), h'.sem.trans h.sem, h'.proc.trans h.proc,
    h'.sema.trans h.sema,
    fun q => (h'.ents q).trans (h.ents q)⟩

/-- **`semaoe`** adds to one amount, or fails and leaves every entry as it is. -/
theorem semaoe_spec (val id num : ℤ) (h : Owned s) (ht : TableOk si (s.ents p)) :
    (∃ e s', semaoe si p val id num s = (some e, s') ∧ Kept s s' ∧
        (val > si.semaem ∨ val < -si.semaem ∨ s.sem_undo p = none ∨
          val ≠ 0 ∧ NoRoom si (s.ents p) id num val)) ∨
      ∃ s', semaoe si p val id num s = (none, s') ∧ Adjusted si s p id num (-val) s' ∧
        (val ≠ 0 → s'.sem_undo p ≠ none ∧ ¬ (val > si.semaem ∨ val < -si.semaem)) := by
  unfold semaoe
  by_cases h0 : val = 0
  · rw [if_pos h0]
    refine .inr ⟨s, rfl, ⟨h, fun _ h => h, rfl, rfl, rfl, ht, fun k => ?_, fun _ _ => rfl⟩,
      fun h1 => absurd h0 h1⟩
    rw [h0, neg_zero, ite_self, add_zero]
  · rw [if_neg h0]
    by_cases hval : val > si.semaem ∨ val < -si.semaem
    · rw [if_pos hval]
      exact .inl ⟨_, s, rfl, .refl h, by tauto⟩
    · rw [if_neg hval]
      cases hg : getundo p s with
      | none =>
        refine .inl ⟨_, s, rfl, .refl h, .inr (.inr (.inl ?_))⟩
        unfold getundo at hg
        cases hp : s.sem_undo p with
        | none => rfl
        | some up =>
          rw [hp] at hg
          cases hg
      | some r =>
        obtain ⟨up, s1⟩ := r
        obtain ⟨hp, hkept⟩ := getundo_spec h hg
        have ht1 : TableOk si (s1.ents p) := by
          rw [hkept.ents]
          exact ht
        rcases aoe_entry_spec hkept.owned hp ht1 h0 hval rfl with
          ⟨⟨e, s', h1, h2⟩, h3⟩ | ⟨s', h1, h2⟩
        · rw [hkept.ents] at h3
          exact .inl ⟨e, s', h1, hkept.trans h2, .inr (.inr (.inr ⟨h0, h3⟩))⟩
        · refine .inr ⟨s', h1, hkept.adjusted h2, fun _ => ⟨h2.has p ?_, hval⟩⟩
          rw [hp]
          exact Option.some_ne_none _

/-- A table with room for the adjustment has it. -/
theorem not_noRoom (ht : TableOk si l) (h₀ : TableOk si l0) (h0 : val ≠ 0)
    (heq : ∀ k, amount l0 k = amount l k + if toLex (id, num) = k then -val else 0) :
    ¬ NoRoom si l id num val := by
  rintro (⟨hfull, lo, hi, hs, hk⟩ | hrange)
  · have hl0 : l0 = lo ++ ⟨-val, num, id⟩ :: hi := by
      refine h₀.sorted.ext (inserted_sorted ht hs hk) h₀.nonzero (fun e he => ?_)
        (fun a b hk hv => ?_) fun k => ?_
      · rcases inserted_mem hs he with rfl | he
        · exact neg_ne_zero.mpr h0
        · exact ht.nonzero e he
      · obtain ⟨h1, h2⟩ := Prod.mk.inj (toLex_inj.mp hk)
        cases a
        cases b
        simp only at h1 h2 hv
        rw [h1, h2, hv]
      · exact (heq k).trans (inserted_amount hs).symm
    have hlen := h₀.length
    rw [hl0, length_append, length_cons] at hlen
    rw [hs.eq, length_append] at hfull
    omega
  · have h1 := heq (toLex (id, num))
    rw [if_pos rfl] at h1
    have h2 := h₀.amount_small (toLex (id, num))
    omega

/-- **`semaoe` takes back.**  Where the adjustment by `val` led, the one by `-val` leads
back, to the very entries. -/
theorem semaoe_back (val id num : ℤ) (h : Owned s) (ht : TableOk si (s.ents p)) (h0 : TableOk si l0)
    (hp : s.sem_undo p ≠ none) (hval : ¬ (val > si.semaem ∨ val < -si.semaem))
    (heq : ∀ k, amount (s.ents p) k = amount l0 k + if toLex (id, num) = k then val else 0) :
    Replaced s p l0 (semaoe si p val id num s).2 := by
  have hback : ∀ k, amount l0 k = amount (s.ents p) k + if toLex (id, num) =
    k then -val else 0 := by
    intro k
    rw [heq]
    split <;> omega
  rcases semaoe_spec val id num h ht with
    ⟨e, s', -, -, h1⟩ | ⟨s', h1, h2, -⟩
  · exfalso
    rcases h1 with h1 | h1 | h1 | ⟨h1, h2⟩
    · omega
    · omega
    · exact hp h1
    · exact not_noRoom ht h0 h1 hback h2
  · rw [h1]
    refine ⟨h2.owned, h2.has, h2.sem, h2.proc, h2.sema, h2.table.ext h0 fun k => ?_, h2.others⟩
    rw [h2.amount, hback]

end IpcSem
