/-
# Compressing the queue of input events (`vq_compress` of `sundev/vuid_queue.c`)

What the two loops do to the nodes and their events is said again on lists, with a log of the
victims. -/
import SunOS.Kern.VuidQueue

namespace Vuid

open List

/-- A node and its event. -/
abbrev Item := ℕ × FirmEvent

/-- A victim, the base it is merged into, and the events that stand between the two. -/
structure Collapse where
  base : FirmEvent
  between : List FirmEvent
  victim : Item
deriving DecidableEq

/-! ## The loops, on lists -/

variable {threshold : Timeval} {factor : BitVec 32} {b v x : Item} {M rest m : List Item} {n : ℕ}

/-- The tests a victim must pass, `M` standing between it and the base. -/
def stopsAt (threshold : Timeval) (factor : BitVec 32) (b : Item) (M : List Item)
    (v : Item) : Bool :=
  !vqIsValuator v.2
    || M.getLast?.any (fun p => !tvEqual p.2.time v.2.time)
    || ((0 : BitVec 32).slt factor && timerLt threshold (tvSubt v.2.time b.2.time))

/-- What the inner loop leaves. -/
structure Scan where
  base : Item
  kept : List Item
  log : List Collapse

def scan (threshold : Timeval) (factor : BitVec 32) (b : Item) (M : List Item) : List Item → Scan
  | [] => ⟨b, M, []⟩
  | v :: rest =>
      if stopsAt threshold factor b M v then ⟨b, M ++ v :: rest, []⟩
      else if v.2.id = b.2.id then
        let r := scan threshold factor (b.1, merge b.2 v.2) M rest
        ⟨r.base, r.kept, ⟨b.2, M.map Prod.snd, v⟩ :: r.log⟩
      else scan threshold factor b (M ++ [v]) rest

def scanAll (threshold : Timeval) (factor : BitVec 32) : ℕ → List Item → List Item × List Collapse
  | 0, l => (l, [])
  | _ + 1, [] => ([], [])
  | n + 1, b :: rest =>
      if vqIsValuator b.2 then
        let r := scan threshold factor b [] rest
        let r' := scanAll threshold factor n r.kept
        (r.base :: r'.1, r.log ++ r'.2)
      else
        let r' := scanAll threshold factor n rest
        (b :: r'.1, r'.2)

/-- What is kept stands in its old order, and the log has all the victims. -/
theorem scan_kept (threshold : Timeval) (factor : BitVec 32) (b : Item) (M rest : List Item) :
    ((scan threshold factor b M rest).kept.Sublist (M ++ rest)) ∧
    ∀ x ∈ M ++ rest, x ∈ (scan threshold factor b M rest).kept ∨
      ∃ c ∈ (scan threshold factor b M rest).log, c.victim = x := by
  induction rest generalizing b M with
  | nil => simp [scan]
  | cons v rest ih =>
    rw [scan]
    split_ifs with hstop hid
    · exact ⟨List.Sublist.refl _, fun x hx => Or.inl hx⟩
    · obtain ⟨hsub, hlog⟩ := ih (b.1, merge b.2 v.2) M
      refine ⟨hsub.trans ((sublist_cons_self v rest).append_left M), fun x hx => ?_⟩
      rcases eq_or_ne x v with rfl | hne
      · exact Or.inr ⟨_, mem_cons_self, rfl⟩
      · have hx' : x ∈ M ++ rest := by simpa [hne] using hx
        rcases hlog x hx' with hk | ⟨c, hc, hcx⟩
        · exact Or.inl hk
        · exact Or.inr ⟨c, mem_cons_of_mem _ hc, hcx⟩
    · have heq : M ++ v :: rest = M ++ [v] ++ rest := by simp
      rw [heq]
      exact ih _ _

/-- The base keeps its node, and all of its event but the value. -/
theorem scan_base (threshold : Timeval) (factor : BitVec 32) (b : Item) (M rest : List Item) :
    (scan threshold factor b M rest).base.1 = b.1 ∧
    { b.2 with value := (scan threshold factor b M rest).base.2.value }
      = (scan threshold factor b M rest).base.2 := by
  induction rest generalizing b M with
  | nil => exact ⟨rfl, rfl⟩
  | cons v rest ih =>
    rw [scan]
    split_ifs
    · exact ⟨rfl, rfl⟩
    · exact ih (b.1, merge b.2 v.2) M
    · exact ih _ _

/-- Of what is left the nodes stand in their old order, each with its event but for the value. -/
theorem scanAll_kept (threshold : Timeval) (factor : BitVec 32) (n : ℕ) (m : List Item) :
    ((scanAll threshold factor n m).1.map Prod.fst).Sublist (m.map Prod.fst) ∧
    ∀ x ∈ (scanAll threshold factor n m).1, ∃ y ∈ m,
      y.1 = x.1 ∧ { y.2 with value := x.2.value } = x.2 := by
  induction n generalizing m with
  | zero => exact ⟨List.Sublist.refl _, fun x hx => ⟨x, hx, rfl, rfl⟩⟩
  | succ n ih =>
    cases m with
    | nil => exact ⟨List.Sublist.refl _, fun x hx => absurd hx not_mem_nil⟩
    | cons b rest =>
      rw [scanAll]
      split_ifs
      · have hsub := (scan_kept threshold factor b [] rest).1
        obtain ⟨hb, hbv⟩ := scan_base threshold factor b [] rest
        obtain ⟨hkept, hev⟩ := ih (scan threshold factor b [] rest).kept
        refine ⟨?_, fun x hx => ?_⟩
        · simp only [map_cons, hb]
          exact (hkept.trans (hsub.map _)).cons_cons _
        · rcases List.mem_cons.mp hx with rfl | hx
          · exact ⟨b, mem_cons_self, hb.symm, hbv⟩
          · obtain ⟨y, hy, hyx⟩ := hev x hx
            exact ⟨y, mem_cons_of_mem _ (hsub.subset hy), hyx⟩
      · obtain ⟨hkept, hev⟩ := ih rest
        refine ⟨hkept.cons_cons _, fun x hx => ?_⟩
        rcases List.mem_cons.mp hx with rfl | hx
        · exact ⟨x, mem_cons_self, rfl, rfl⟩
        · obtain ⟨y, hy, hyx⟩ := hev x hx
          exact ⟨y, mem_cons_of_mem _ hy, hyx⟩

/-- What is not left is a victim of the log. -/
theorem scanAll_log (threshold : Timeval) (factor : BitVec 32) (n : ℕ) (hx : x ∈ m) :
    x.1 ∈ (scanAll threshold factor n m).1.map Prod.fst ∨
    ∃ c ∈ (scanAll threshold factor n m).2, c.victim = x := by
  induction n generalizing m with
  | zero => exact Or.inl (mem_map_of_mem hx)
  | succ n ih =>
    cases m with
    | nil => cases hx
    | cons b rest =>
      rw [scanAll]
      split_ifs
      · rcases List.mem_cons.mp hx with rfl | hx
        · exact Or.inl (by simp [(scan_base threshold factor x [] rest).1])
        · rcases (scan_kept threshold factor b [] rest).2 x hx with hk | ⟨c, hc, hcx⟩
          · rcases ih hk with hk | ⟨c, hc, hcx⟩
            · exact Or.inl (mem_cons_of_mem _ hk)
            · exact Or.inr ⟨c, mem_append_right _ hc, hcx⟩
          · exact Or.inr ⟨c, mem_append_left _ hc, hcx⟩
      · rcases List.mem_cons.mp hx with rfl | hx
        · exact Or.inl mem_cons_self
        · rcases ih hx with hk | hlog
          · exact Or.inl (mem_cons_of_mem _ hk)
          · exact Or.inr hlog

namespace VuidQueue

variable {q q' : VuidQueue} {a base fuel : ℕ} {l f : List ℕ}

def item (q : VuidQueue) (a : ℕ) : Item := (a, q.event a)

theorem map_item_congr {M : List ℕ} (h : ∀ c ∈ M, q'.event c = q.event c) :
    M.map q'.item = M.map q.item :=
  map_congr_left fun c hc => by rw [item, item, h c hc]

theorem stops_eq {M rest : List ℕ} (h : q.Holds (l ++ base :: (M ++ a :: rest)) f) :
    q.stops threshold factor base a
      = stopsAt threshold factor (q.item base) (M.map q.item) (q.item a) := by
  have heq : l ++ base :: (M ++ a :: rest) = (l ++ base :: M) ++ a :: rest := by simp
  have hprev := Doubly.Linked.prev_eq (heq ▸ h.list.linked)
  rw [stops, stopsAt, hprev]
  rcases eq_nil_or_concat M with rfl | ⟨M, p, rfl⟩
  · simp [item]
  · have hn := (List.nodup_middle.mp (List.nodup_append'.mp h.nodup).1).notMem
    have hp : p ≠ base := by
      rintro rfl
      simp at hn
    have hlast : l ++ base :: (M ++ [p]) = (l ++ base :: M) ++ [p] := by simp
    have hbne : (p != base) = true := bne_iff_ne.mpr hp
    rw [concat_eq_append, hlast, List.getLast?_concat]
    simp [item, hbne]

/-- The base has its new value, and the victim is out. -/
theorem Holds.collapse {M rest : List ℕ} {e : FirmEvent}
    (h : q.Holds (l ++ base :: (M ++ a :: rest)) f) (hq : q' = (q.setEvent base e).vqDeleteNode a) :
    q'.Holds (l ++ base :: (M ++ rest)) (a :: f) ∧ q'.num = q.num - 1 ∧
      q'.item base = (base, e) ∧ ∀ c, c ≠ base → q'.event c = q.event c := by
  have hset : (q.setEvent base e).Holds ((l ++ base :: M) ++ a :: rest) f := by
    rw [append_assoc, cons_append]
    exact ⟨h.list, h.bottom, h.free, h.nodup, h.num, h.size⟩
  obtain ⟨hdel, hev, hnum, -⟩ := hset.delete
  rw [append_assoc, cons_append] at hdel
  rw [hq, item, hev]
  refine ⟨hdel, hnum, congrArg _ (Function.update_self _ _ _), fun c hc => ?_⟩
  exact Function.update_of_ne hc _ _

/-- **The inner loop** does what `scan` says. -/
theorem runDown_eq (threshold : Timeval) (factor : BitVec 32) {M rest : List ℕ}
    (h : q.Holds (l ++ base :: (M ++ rest)) f)
    (hfuel : rest.length < fuel) :
    ∃ q' kept f', q.runDown threshold factor base fuel (rest.headD 0) = some q' ∧
      q'.Holds (l ++ base :: kept) f' ∧
      q'.item base = (scan threshold factor (q.item base) (M.map q.item) (rest.map q.item)).base ∧
      kept.map q'.item
        = (scan threshold factor (q.item base) (M.map q.item) (rest.map q.item)).kept ∧
      q'.num = q.num
        - (scan threshold factor (q.item base) (M.map q.item) (rest.map q.item)).log.length ∧
      ∀ c, c ≠ base → q'.event c = q.event c := by
  induction rest generalizing q M f fuel with
  | nil =>
    obtain ⟨fuel, rfl⟩ := Nat.exists_eq_succ_of_ne_zero (Nat.ne_zero_of_lt hfuel)
    exact ⟨q, M, f, rfl, by simpa using h, rfl, rfl, by simp [scan], fun _ _ => rfl⟩
  | cons v rest ih =>
    obtain ⟨fuel, rfl⟩ := Nat.exists_eq_succ_of_ne_zero (Nat.ne_zero_of_lt hfuel)
    have hv : v ≠ 0 := h.list.ne_zero (by simp)
    have heq : l ++ base :: (M ++ v :: rest) = (l ++ base :: M) ++ v :: rest := by simp
    have hnxt : q.list.nxt v = rest.headD 0 := Doubly.Linked.nxt_eq (heq ▸ h.list.linked)
    have hlen : rest.length < fuel := by simpa using hfuel
    have hn := (List.nodup_middle.mp (List.nodup_append'.mp h.nodup).1).notMem
    rw [mem_append, mem_append, mem_cons, not_or, not_or, not_or] at hn
    rw [headD_cons, runDown, if_neg hv, stops_eq h, hnxt, map_cons, scan]
    by_cases hstop : stopsAt threshold factor (q.item base) (M.map q.item) (q.item v) = true
    · rw [if_pos hstop, if_pos hstop]
      exact ⟨q, M ++ v :: rest, f, rfl, h, rfl, by simp, by simp, fun _ _ => rfl⟩
    rw [if_neg hstop, if_neg hstop]
    by_cases hid : (q.event v).id = (q.event base).id
    · rw [if_pos hid, if_pos (show (q.item v).2.id = (q.item base).2.id from hid)]
      obtain ⟨hdel, hnum, hb, hold⟩ := h.collapse (e := merge (q.event base) (q.event v)) rfl
      obtain ⟨q', kept, f', hrun, hq', hbase, hkept, hnum', hevent⟩ := ih hdel hlen
      rw [map_item_congr fun c hc => hold c fun heq => hn.2.1 (heq ▸ hc),
        map_item_congr fun c hc => hold c fun heq => hn.2.2.2 (heq ▸ hc), hb]
        at hbase hkept hnum'
      refine ⟨q', kept, f', hrun, hq', hbase, hkept, ?_, fun c hc => ?_⟩
      · rw [hnum', hnum, length_cons]
        simp only [item]
        omega
      · rw [hevent c hc, hold c hc]
    · rw [if_neg hid, if_neg (show (q.item v).2.id ≠ (q.item base).2.id from hid)]
      have h' : q.Holds (l ++ base :: ((M ++ [v]) ++ rest)) f := by simpa using h
      obtain ⟨q', kept, f', hrest⟩ := ih h' hlen
      rw [map_append] at hrest
      exact ⟨q', kept, f', hrest⟩

/-- **The outer loop** does what `scanAll` says. -/
theorem march_eq (threshold : Timeval) (factor : BitVec 32) {m : List ℕ} (h : q.Holds (l ++ m) f)
    (hfuel : m.length < fuel) :
    ∃ q' m' f', q.march threshold factor fuel (m.headD 0) = some q' ∧ q'.Holds (l ++ m') f' ∧
      m'.map q'.item = (scanAll threshold factor fuel (m.map q.item)).1 ∧
      q'.num = q.num - (scanAll threshold factor fuel (m.map q.item)).2.length ∧
      ∀ c, c ∉ m → q'.event c = q.event c := by
  induction fuel generalizing q m l f with
  | zero => cases hfuel
  | succ fuel ih =>
    cases m with
    | nil => exact ⟨q, [], f, rfl, h, rfl, by simp [scanAll], fun _ _ => rfl⟩
    | cons base rest =>
      have hbase : base ≠ 0 := h.list.ne_zero (by simp)
      have hlen : rest.length < fuel := by simpa using hfuel
      rw [headD_cons, march, if_neg hbase, map_cons, scanAll]
      by_cases hval : vqIsValuator (q.event base) = true
      · rw [if_pos hval, if_pos (show vqIsValuator (q.item base).2 = true from hval),
          h.list.linked.nxt_eq]
        obtain ⟨q1, kept, f1, hrun, hq1, hb, hk, hnum, hev⟩ :=
          runDown_eq (M := []) threshold factor h (Nat.lt_succ_of_lt hlen)
        rw [map_nil] at hb hk hnum
        have hsub := (scan_kept threshold factor (q.item base) [] (rest.map q.item)).1
        rw [nil_append, ← hk] at hsub
        have hsub' : kept.Sublist rest := by
          simpa [Function.comp_def, item] using hsub.map Prod.fst
        have hq1' : q1.Holds ((l ++ [base]) ++ kept) f1 := by simpa using hq1
        obtain ⟨q', m', f', hmarch, hq', hm', hnum', hev'⟩ :=
          ih hq1' (Nat.lt_of_le_of_lt hsub'.length_le hlen)
        have hnb : base ∉ kept := by
          have hn := (List.nodup_middle.mp (List.nodup_append'.mp hq1.nodup).1).notMem
          rw [mem_append, not_or] at hn
          exact hn.2
        rw [hrun]
        simp only
        rw [hq1.list.linked.nxt_eq, hmarch]
        refine ⟨q', base :: m', f', rfl, by simpa using hq', ?_, ?_, fun c hc => ?_⟩
        · rw [map_cons, hm', hk, ← hb, item, hev' base hnb]
          rfl
        · rw [hnum', hnum, length_append, hk]
          omega
        · rw [mem_cons, not_or] at hc
          rw [hev' c fun hm => hc.2 (hsub'.subset hm), hev c hc.1]
      · rw [if_neg hval, if_neg (show ¬vqIsValuator (q.item base).2 = true from hval),
          h.list.linked.nxt_eq]
        have h' : q.Holds ((l ++ [base]) ++ rest) f := by simpa using h
        obtain ⟨q', m', f', hmarch, hq', hm', hnum', hev'⟩ := ih h' hlen
        have hnb : base ∉ rest := by
          have hn := (List.nodup_middle.mp (List.nodup_append'.mp h.nodup).1).notMem
          rw [mem_append, not_or] at hn
          exact hn.2
        refine ⟨q', base :: m', f', hmarch, by simpa using hq', ?_, hnum', fun c hc => ?_⟩
        · rw [map_cons, hm', item, hev' base hnb, item]
        · exact hev' c fun hm => hc (mem_cons_of_mem _ hm)

/-- The nodes from `a` on, with their events. -/
def items (q : VuidQueue) : ℕ → ℕ → List Item
  | 0, _ => []
  | fuel + 1, a => if a = 0 then [] else q.item a :: items q fuel (q.list.nxt a)

theorem items_eq {p : ℕ} (h : Doubly.Linked q.list p a l) (hfuel : l.length < fuel) :
    q.items fuel a = l.map q.item := by
  induction l generalizing p a fuel with
  | nil =>
    obtain ⟨fuel, rfl⟩ := Nat.exists_eq_succ_of_ne_zero (Nat.ne_zero_of_lt hfuel)
    rw [items, if_pos (show a = 0 from h), map_nil]
  | cons b l ih =>
    obtain ⟨fuel, rfl⟩ := Nat.exists_eq_succ_of_ne_zero (Nat.ne_zero_of_lt hfuel)
    obtain ⟨rfl, ha, -, h⟩ := h
    rw [items, if_neg ha, ih h (by simpa using hfuel), map_cons]

/-- What stands on the queue. -/
def contents (q : VuidQueue) : List Item := q.items (q.size.toNat + 1) q.list.head

theorem Holds.contents (h : q.Holds l f) : q.contents = l.map q.item :=
  items_eq h.list.linked h.length_lt

/-- The merges `vq_compress` makes, in their order: each is between a base and a victim. -/
def collapses (q : VuidQueue) (factor : BitVec 32) : List Collapse :=
  (scanAll (q.threshold factor) factor (q.size.toNat + 1) q.contents).2

/-- **`vq_compress` ends**, with the nodes and events that `scanAll` says. -/
theorem Holds.compress (h : q.Holds l f) (factor : BitVec 32) :
    ∃ q' l' f', q.vqCompress factor = some (((q.collapses factor).length : ℤ), q') ∧
      q'.Holds l' f' ∧ q'.num = q.num - (q.collapses factor).length ∧
      l'.map q'.item
        = (scanAll (q.threshold factor) factor (q.size.toNat + 1) (l.map q.item)).1 := by
  obtain ⟨q', m', f', hmarch, hq', hm', hnum, -⟩ :=
    march_eq (l := []) (q.threshold factor) factor h h.length_lt
  rw [vqCompress, collapses, h.contents]
  split_ifs with h0
  · have hl : l = [] := by
      cases l with
      | nil => rfl
      | cons a l => exact absurd (h.head_eq.symm.trans h0) (h.list.ne_zero mem_cons_self)
    subst hl
    exact ⟨q, [], f, by simp [scanAll], h, by simp [scanAll], by simp [scanAll]⟩
  · rw [h.head_eq, hmarch]
    refine ⟨q', m', f', ?_, hq', hnum, hm'⟩
    simp only [hnum]
    congr 2
    omega

end VuidQueue

end Vuid
