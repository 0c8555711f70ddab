/-
# The name cache over all calls

Whatever is called, the lists and the references to vnodes stay right.  The references to
credentials do as long as `dnlc_enter` recycles no slot that has any.
-/
import SunOS.Vfs.DnlcOps

namespace Dnlc

open Option
open Function (update update_of_ne update_self)
open Finset

variable {s t : dnlc} {ls : List ℕ} {chain : ℕ → List ℕ} {i : ℕ} {v : vnode → ℕ}
  {cr : ucred → ℤ} {dp vp x : vnode} {name : List ℤ} {cred : Option ucred}

/-! ## dnlc_enter -/

/-- What is searched for, with its credentials. -/
theorem matching_iff {c : ncache} :
    matching c dp name (.the cred) = true ↔ c.dp = some dp ∧ c.name = name ∧ c.cred = cred := by
  unfold matching
  rw [decide_eq_true_iff]
  constructor
  · rintro ⟨h1, -, h3, -, h5⟩
    rcases h3 with h3 | h3
    · cases h3
    · cases h3
      exact ⟨h1, h5, rfl⟩
  · rintro ⟨h1, rfl, rfl⟩
    exact ⟨h1, rfl, Or.inr rfl, rfl, rfl⟩

/-- The entry that `dnlc_enter` makes. -/
def entry (dp : vnode) (name : List ℤ) (vp : vnode) (cred : Option ucred) : ncache :=
  ⟨some dp, some vp, name, cred⟩

/-- Two references taken. -/
theorem holds (f : vnode → ℕ) (d v x : vnode) :
    (update (update f d (f d + 1)) v (update f d (f d + 1) v + 1) x : ℤ) =
      f x + ((if d = x then 1 else 0) + (if v = x then 1 else 0)) := by
  by_cases hv : x = v
  · subst hv
    rw [update_self, if_pos rfl]
    by_cases hd : x = d
    · subst hd
      rw [update_self, if_pos rfl]
      push_cast
      ring
    · rw [update_of_ne hd, if_neg (Ne.symm hd)]
      push_cast
      ring
  · rw [update_of_ne hv, if_neg (Ne.symm hv)]
    by_cases hd : x = d
    · subst hd
      rw [update_self, if_pos rfl]
      push_cast
      ring
    · rw [update_of_ne hd, if_neg (Ne.symm hd)]
      ring

theorem crholds (f : ucred → ℤ) (c x : ucred) :
    update f c (f c + 1) x = f x + if some c = some x then 1 else 0 := by
  by_cases hx : x = c
  · subst hx
    rw [update_self, if_pos rfl]
  · rw [update_of_ne hx, if_neg (by simpa using Ne.symm hx), add_zero]

/-- What `dnlc_enter` does to the slot it takes and to the counts. -/
theorem dnlc_enter_eq (vp : vnode) (hdo : s.doingcache = true) (hlen : ¬ NC_NAMLEN < name.length)
    (hsearch : dnlc_search s dp name (NC_HASH name dp) (.the cred) = some none)
    (hnext : s.lru.next .nc_lru = .slot i) (hboth : (s.nc i).dp = none ↔ (s.nc i).vp = none)
    (hcount : ∀ x, vrefs x (s.nc i) ≤ s.v_count x) :
    ∃ t, dnlc_enter s dp name vp cred = some t ∧ t.ncsize = s.ncsize ∧
      t.doingcache = s.doingcache ∧ t.nc = update s.nc i (entry dp name vp cred) ∧
      t.lru = (s.lru.remque (.slot i)).insque (.slot i) ((s.lru.remque (.slot i)).prev .nc_lru) ∧
      t.hash = (s.hash.remque (.slot i)).insque (.slot i) (.head (NC_HASH name dp)) ∧
      (∀ x, (t.v_count x : ℤ) =
        s.v_count x - vrefs x (s.nc i) + vrefs x (entry dp name vp cred)) ∧
      ∀ x, t.cr_ref x = s.cr_ref x + crrefs x (entry dp name vp cred) := by
  have hcred : ∀ x, crrefs x (entry dp name vp cred) = if cred = some x then 1 else 0 := by
    intro x
    unfold crrefs entry
    simp
  unfold dnlc_enter
  rw [if_neg (by rw [hdo]; simp), if_neg hlen]
  simp only [hsearch, hnext, bind_eq_bind, bind_some]
  cases hd : (s.nc i).dp with
  | none =>
    have hv := hboth.mp hd
    have hzero : ∀ x, vrefs x (s.nc i) = 0 := by
      intro x
      unfold vrefs
      rw [hd, hv]
      simp
    have hvc : ∀ x, (update (update s.v_count dp (s.v_count dp + 1)) vp
        (update s.v_count dp (s.v_count dp + 1) vp + 1) x : ℤ) =
        s.v_count x - vrefs x (s.nc i) + vrefs x (entry dp name vp cred) := by
      intro x
      rw [holds, hzero, vrefs_some (d := dp) (v := vp) rfl rfl, sub_zero]
    simp only [hv, VN_HOLD, dnlc.set]
    cases cred with
    | none =>
      refine ⟨_, rfl, rfl, rfl, rfl, rfl, rfl, hvc, fun x => ?_⟩
      rw [hcred, if_neg (by simp), add_zero]
    | some c =>
      refine ⟨_, rfl, rfl, rfl, rfl, rfl, rfl, hvc, fun x => ?_⟩
      rw [hcred]
      exact crholds s.cr_ref c x
  | some d =>
    obtain ⟨v', hv⟩ := Option.ne_none_iff_exists'.mp fun hv => by
      rw [hboth.mpr hv] at hd
      cases hd
    have hrefs : ∀ x, (if d = x then 1 else 0) + (if v' = x then 1 else 0) ≤ s.v_count x := by
      intro x
      have := hcount x
      rw [vrefs_some hd hv] at this
      split_ifs at this ⊢ <;> omega
    obtain ⟨h1, h2, h3⟩ := releases hrefs
    simp only [← vrefs_some hd hv] at h3
    simp only [hv, VN_HOLD, VN_RELE, if_neg h1, if_neg h2, dnlc.set, bind_some]
    generalize update (update s.v_count d (s.v_count d - 1)) v'
      (update s.v_count d (s.v_count d - 1) v' - 1) = f at h3
    have hvc : ∀ x, (update (update f dp (f dp + 1)) vp
        (update f dp (f dp + 1) vp + 1) x : ℤ) =
        s.v_count x - vrefs x (s.nc i) + vrefs x (entry dp name vp cred) := by
      intro x
      rw [holds, h3, vrefs_some (c := entry dp name vp cred) (d := dp) (v := vp) rfl rfl]
    cases cred with
    | none =>
      refine ⟨_, rfl, rfl, rfl, rfl, rfl, rfl, hvc, fun x => ?_⟩
      rw [hcred, if_neg (by simp), add_zero]
    | some c =>
      refine ⟨_, rfl, rfl, rfl, rfl, rfl, rfl, hvc, fun x => ?_⟩
      rw [hcred]
      exact crholds s.cr_ref c x

/-- **`dnlc_enter`** keeps the invariant, but for a reference to the credentials of the slot
that it recycles. -/
theorem enter_inv (h : Inv v cr s) (dp : vnode) (name : List ℤ) (vp : vnode)
    (cred : Option ucred) :
    ∃ t, dnlc_enter s dp name vp cred = some t ∧ (Inv v cr t ∨ ∃ i, s.on i ∧
      s.doingcache = true ∧ name.length ≤ NC_NAMLEN ∧
      (∀ k, s.on k → ¬ (s.nc k).same (entry dp name vp cred)) ∧ s.lru.next .nc_lru = .slot i ∧
      Inv v (fun x => cr x + crrefs x (s.nc i)) t) := by
  by_cases hdo : s.doingcache = true
  swap
  · unfold dnlc_enter
    rw [if_pos hdo]
    exact ⟨s, rfl, Or.inl h⟩
  by_cases hlen : NC_NAMLEN < name.length
  · unfold dnlc_enter
    rw [if_neg (not_not_intro hdo), if_pos hlen]
    exact ⟨s, rfl, Or.inl h⟩
  obtain ⟨ls, chain, hl⟩ := h.lists
  have hj := NC_HASH_lt name dp
  have hsearch := search_eq hl hj dp name (.the cred)
  cases hfind : (chain (NC_HASH name dp)).find? fun i => matching (s.nc i) dp name (.the cred) with
  | some k =>
    rw [hfind] at hsearch
    unfold dnlc_enter
    rw [if_neg (not_not_intro hdo), if_neg hlen]
    simp only [hsearch, bind_eq_bind, bind_some]
    exact ⟨s, rfl, Or.inl h⟩
  | none =>
    rw [hfind] at hsearch
    cases hls : ls with
    | nil =>
      have hnext : s.lru.next .nc_lru = .nc_lru := by
        have hq := hl.lru_holds
        rw [hls] at hq
        exact hq.next_nil
      unfold dnlc_enter
      rw [if_neg (not_not_intro hdo), if_neg hlen]
      simp only [hsearch, hnext, bind_eq_bind, bind_some]
      exact ⟨s, rfl, Or.inl h⟩
    | cons i l =>
      have hnext : s.lru.next .nc_lru = .slot i := by
        have hq := hl.lru_holds
        rw [hls] at hq
        exact hq.next_cons
      have hi : s.on i := (hl.mem_lru i).mp (by rw [hls]; exact List.mem_cons_self)
      obtain ⟨t, hrun, hn, -, hnc, hlru, hhash, hvc, hcr⟩ :=
        dnlc_enter_eq vp hdo hlen hsearch hnext (h.both i hi) (h.vrefs_le hi)
      have hon : t.on = s.on := by
        unfold dnlc.on
        rw [hn]
      have hself : t.nc i = entry dp name vp cred := by rw [hnc, update_self]
      have hother : ∀ k, k ≠ i → t.nc k = s.nc k := fun k hk => by
        rw [hnc, update_of_ne hk]
      have hnew : ∀ k, s.on k → ¬ (s.nc k).same (entry dp name vp cred) := by
        rintro k hk ⟨h1, h2, h3⟩
        have hk' : k ∈ chain (NC_HASH name dp) :=
          (hl.mem_chain _ hj k).mpr ⟨hk, dp, h1, by rw [h2]; rfl⟩
        have := List.find?_eq_none.mp hfind k hk'
        exact this (matching_iff.mpr ⟨h1, h2, h3⟩)
      have htotal : ∀ w, total t.ncsize t.nc w =
          total s.ncsize s.nc w - w (s.nc i) + w (entry dp name vp cred) := by
        intro w
        rw [hn, hnc, total_update hi]
      refine ⟨t, hrun, Or.inr ⟨i, hi, hdo, not_lt.mp hlen, hnew, hnext,
        ⟨?_, ?_, ?_, fun y => ?_, fun y => ?_⟩⟩⟩
      · obtain ⟨ls', chain', hoff⟩ := hl.off hi
        rw [hon, hlru, hhash]
        exact ⟨_, _, hoff.put_used hi hother ⟨dp, by rw [hself]; rfl, by rw [hself]; rfl⟩⟩
      · intro k hk
        rw [hon] at hk
        by_cases hki : k = i
        · rw [hki, hself]
          constructor
          · intro hd
            cases hd
          · intro hd
            cases hd
        · rw [hother k hki]
          exact h.both k hk
      · intro k k' hk hk' hkd hsame
        rw [hon] at hk hk'
        by_cases hki : k = i
        · by_cases hki' : k' = i
          · rw [hki, hki']
          · rw [hki, hself, hother k' hki'] at hsame
            exact absurd ⟨hsame.1.symm, hsame.2.1.symm, hsame.2.2.symm⟩ (hnew k' hk')
        · rw [hother k hki] at hkd hsame
          by_cases hki' : k' = i
          · rw [hki', hself] at hsame
            exact absurd hsame (hnew k hk)
          · rw [hother k' hki'] at hsame
            exact h.unique k k' hk hk' hkd hsame
      · rw [htotal, hvc, h.vnodes]
        ring
      · rw [htotal, hcr, h.creds]
        ring

/-! ## dnlc_lookup -/

/-- **`dnlc_lookup`** moves a slot on both its lists. -/
theorem lookup_inv (h : Inv v cr s) (dp : vnode) (name : List ℤ) (cred : searchcred) :
    ∃ r t, dnlc_lookup s dp name cred = some (r, t) ∧ Inv v cr t := by
  unfold dnlc_lookup
  by_cases hdo : s.doingcache = true
  swap
  · rw [if_pos hdo]
    exact ⟨none, s, rfl, h⟩
  rw [if_neg (not_not_intro hdo)]
  by_cases hlen : NC_NAMLEN < name.length
  · rw [if_pos hlen]
    exact ⟨none, s, rfl, h⟩
  rw [if_neg hlen]
  obtain ⟨ls, chain, hl⟩ := h.lists
  have hj := NC_HASH_lt name dp
  simp only [search_eq hl hj dp name cred, bind_eq_bind, bind_some]
  cases hfind : (chain (NC_HASH name dp)).find? fun i => matching (s.nc i) dp name cred with
  | none => exact ⟨none, s, rfl, h⟩
  | some i =>
    obtain ⟨hi, hat⟩ := (hl.mem_chain _ hj i).mp (List.mem_of_find?_eq_some hfind)
    obtain ⟨ls', htouch⟩ := hl.touch hi
    by_cases hprev : s.hash.prev (.slot i) ≠ .head (NC_HASH name dp)
    · obtain ⟨chain', hforward⟩ := htouch.forward hi hat hprev
      simp only [if_pos hprev]
      exact ⟨_, _, rfl, ⟨ls', chain', hforward⟩, h.both, h.unique, h.vnodes, h.creds⟩
    · simp only [if_neg hprev]
      exact ⟨_, _, rfl, ⟨ls', chain, htouch⟩, h.both, h.unique, h.vnodes, h.creds⟩

/-! ## dnlc_init -/

/-- After some slots of the first loop. -/
structure Initialised (m s : dnlc) (k : ℕ) : Prop where
  lru_holds : s.lru.Holds .nc_lru ((List.range k).reverse.map .slot)
  lone : ∀ i < k, s.hash.Holds (.slot i) []
  unused : ∀ i < k, (s.nc i).dp = none ∧ (s.nc i).vp = none
  ncsize : s.ncsize = m.ncsize
  counts : s.v_count = m.v_count ∧ s.cr_ref = m.cr_ref

theorem initslot_nc (s : dnlc) (i k : ℕ) :
    (initslot s i).nc k = if k = i then { s.nc i with dp := none, vp := none } else s.nc k :=
  Function.update_apply ..

theorem initslots (m : dnlc) (k : ℕ) :
    Initialised m ((List.range k).foldl initslot { m with lru := m.lru.lone .nc_lru }) k := by
  induction k with
  | zero =>
    exact ⟨Que.lone_holds .., fun i hi => absurd hi (Nat.not_lt_zero i),
      fun i hi => absurd hi (Nat.not_lt_zero i), rfl, rfl, rfl⟩
  | succ k ih =>
    rw [List.range_succ, List.foldl_append]
    have hk : lnode.slot k ∉ lnode.nc_lru :: (List.range k).reverse.map .slot := by
      simp
    refine ⟨?_, fun i hi => ?_, fun i hi => ?_, ih.ncsize, ih.counts⟩
    · rw [List.range_succ, List.reverse_append]
      exact ih.lru_holds.insque_first hk
    · by_cases hik : i = k
      · subst hik
        exact Que.lone_holds ..
      · refine (ih.lone i (by omega)).lone_other ?_
        rw [List.mem_singleton]
        intro he
        cases he
        exact hik rfl
    · by_cases hik : i = k
      · subst hik
        show ((initslot _ i).nc i).dp = none ∧ ((initslot _ i).nc i).vp = none
        rw [initslot_nc, if_pos rfl]
        exact ⟨rfl, rfl⟩
      · show ((initslot _ k).nc i).dp = none ∧ ((initslot _ k).nc i).vp = none
        rw [initslot_nc, if_neg hik]
        exact ih.unused i (by omega)

/-- The second loop. -/
theorem inithashes (s : dnlc) (k : ℕ) :
    ∃ q, (List.range k).foldl inithash s = { s with hash := q } ∧
      (∀ j < k, q.Holds (.head j) []) ∧
      ∀ i, s.hash.Holds (.slot i) [] → q.Holds (.slot i) [] := by
  induction k with
  | zero => exact ⟨s.hash, rfl, fun j hj => absurd hj (Nat.not_lt_zero j), fun i hi => hi⟩
  | succ k ih =>
    obtain ⟨q, heq, hhead, hslot⟩ := ih
    rw [List.range_succ, List.foldl_append, heq]
    refine ⟨q.lone (.head k), rfl, fun j hj => ?_, fun i hi => ?_⟩
    · by_cases hjk : j = k
      · subst hjk
        exact Que.lone_holds ..
      · refine (hhead j (by omega)).lone_other ?_
        rw [List.mem_singleton]
        intro he
        cases he
        exact hjk rfl
    · refine (hslot i hi).lone_other ?_
      rw [List.mem_singleton]
      intro he
      cases he

/-- **`dnlc_init`** sets the invariant up, whatever the memory holds. -/
theorem init_inv (m : dnlc) : Inv m.v_count m.cr_ref (dnlc_init m) := by
  unfold dnlc_init
  have h := initslots m m.ncsize
  simp only
  generalize (List.range m.ncsize).foldl initslot { m with lru := m.lru.lone .nc_lru } = s at h
  obtain ⟨q, heq, hhead, hslot⟩ := inithashes s NC_HASH_SIZE
  rw [heq]
  have hzero : ∀ w : ncache → ℤ, (∀ c, c.dp = none → c.vp = none → w c = 0) →
      total s.ncsize s.nc w = 0 := by
    intro w hw
    refine sum_eq_zero fun i hi => ?_
    rw [mem_range, h.ncsize] at hi
    exact hw _ (h.unused i hi).1 (h.unused i hi).2
  have hon : ∀ i, dnlc.on { s with hash := q } i ↔ i < m.ncsize := fun i => by
    show i < s.ncsize ↔ _
    rw [h.ncsize]
  refine ⟨⟨_, fun _ => [], h.lru_holds, fun i => ?_, fun j hj => hhead j hj, fun j hj i => ?_,
    fun i hi _ => hslot i (h.lone i ((hon i).mp hi))⟩, fun i hi => ?_, fun i k hi _ hd => ?_,
    fun x => ?_, fun x => ?_⟩
  · rw [List.mem_reverse, List.mem_range, hon]
  · constructor
    · intro hi
      exact absurd hi List.not_mem_nil
    · rintro ⟨hi, d, hd, -⟩
      have hnone := (h.unused i ((hon i).mp hi)).1
      rw [show (s.nc i).dp = some d from hd] at hnone
      cases hnone
  · have hu := h.unused i ((hon i).mp hi)
    exact ⟨fun _ => hu.2, fun _ => hu.1⟩
  · exact absurd (h.unused i ((hon i).mp hi)).1 hd
  · show (s.v_count x : ℤ) = _ + total s.ncsize s.nc (vrefs x)
    rw [hzero _ (fun c hd hv => by unfold vrefs; rw [hd, hv]; simp), h.counts.1, add_zero]
  · show s.cr_ref x = _ + total s.ncsize s.nc (crrefs x)
    rw [hzero _ (fun c hd _ => by unfold crrefs; rw [hd]; simp), h.counts.2, add_zero]

/-! ## All calls -/

/-- `dnlc_enter` is about to recycle a slot that has credentials. -/
def dnlc.leaks (s : dnlc) : Call → Prop
  | .enter dp name vp cred =>
      s.doingcache = true ∧ name.chars.length ≤ NC_NAMLEN ∧
        (∀ k, s.on k → ¬ (s.nc k).same (entry dp name.chars vp cred)) ∧
        ∃ i, s.lru.next .nc_lru = .slot i ∧ (s.nc i).dp ≠ none ∧ (s.nc i).cred ≠ none
  | _ => False

/-- No call of the sequence does so. -/
def dnlc.Careful (s : dnlc) : List Call → Prop
  | [] => True
  | c :: cs => ¬ s.leaks c ∧ ∀ t, s.call c = some t → t.Careful cs

/-- **One call** keeps the invariant: of the references to credentials, it may lose one. -/
theorem call_inv (h : Inv v cr s) (c : Call) :
    ∃ t, s.call c = some t ∧ ∃ cr', Inv v cr' t ∧ (¬ s.leaks c → cr' = cr) := by
  cases c with
  | enter dp name vp cred =>
    obtain ⟨t, hrun, ht⟩ := enter_inv h dp name.chars vp cred
    refine ⟨t, hrun, ?_⟩
    rcases ht with ht | ⟨i, hi, hdo, hlen, hnew, hnext, ht⟩
    · exact ⟨cr, ht, fun _ => rfl⟩
    · refine ⟨_, ht, fun hleak => ?_⟩
      funext x
      have hzero : crrefs x (s.nc i) = 0 := by
        refine if_neg fun hc => hleak ⟨hdo, hlen, hnew, i, hnext, hc.1, ?_⟩
        rw [hc.2]
        simp
      rw [hzero, add_zero]
  | lookup dp name cred =>
    obtain ⟨r, t, hrun, ht⟩ := lookup_inv h dp name.chars cred
    refine ⟨t, ?_, cr, ht, fun _ => rfl⟩
    show (dnlc_lookup s dp name.chars cred).map Prod.snd = some t
    rw [hrun]
    rfl
  | remove dp name =>
    obtain ⟨t, hrun, ht⟩ := remove_inv h dp name.chars
    exact ⟨t, hrun, cr, ht, fun _ => rfl⟩
  | purge =>
    obtain ⟨t, hrun, ht⟩ := purge_inv h
    exact ⟨t, hrun, cr, ht, fun _ => rfl⟩
  | purge_vp vp =>
    obtain ⟨t, hrun, ht⟩ := purge_vp_inv h vp
    exact ⟨t, hrun, cr, ht, fun _ => rfl⟩
  | purge1 =>
    obtain ⟨b, t, hrun, ht⟩ := purge1_inv h
    refine ⟨t, ?_, cr, ht, fun _ => rfl⟩
    show (dnlc_purge1 s).map Prod.snd = some t
    rw [hrun]
    rfl

/-- All sequences end, with the lists and the references to vnodes right. -/
theorem calls_inv (h : Inv v cr s) (cs : List Call) :
    ∃ t, s.calls cs = some t ∧ ∃ cr', Inv v cr' t ∧ (s.Careful cs → cr' = cr) := by
  induction cs generalizing s cr with
  | nil => exact ⟨s, rfl, cr, h, fun _ => rfl⟩
  | cons c cs ih =>
    obtain ⟨t, hrun, cr1, ht, hcr1⟩ := call_inv h c
    obtain ⟨u, hruns, cr2, hu, hcr2⟩ := ih ht
    refine ⟨u, ?_, cr2, hu, fun hc => ?_⟩
    · unfold dnlc.calls at hruns ⊢
      rw [List.foldlM_cons, hrun]
      exact hruns
    · rw [hcr2 (hc.2 t hrun), hcr1 hc.1]

/-- **The cache is sound** after every sequence of calls that recycles no slot with
credentials: the lists hold the slots, and the references are those of the slots in use. -/
theorem dnlc_sound (m : dnlc) (cs : List Call) (h : (dnlc_init m).Careful cs) :
    ∃ s, (dnlc_init m).calls cs = some s ∧ Inv m.v_count m.cr_ref s := by
  obtain ⟨s, hrun, cr', hs, hcr⟩ := calls_inv (init_inv m) cs
  rw [hcr h] at hs
  exact ⟨s, hrun, hs⟩

/-- Memory for one slot. -/
def one : dnlc where
  doingcache := true
  ncsize := 1
  nc _ := ⟨none, none, [], none⟩
  hash := ⟨fun p => p, fun p => p⟩
  lru := ⟨fun p => p, fun p => p⟩
  v_count _ := 1
  cr_ref _ := 1

/-- A call that enters no name in a slot with credentials. -/
def dnlc.spares (s : dnlc) : Call → Bool
  | .enter _ _ _ _ =>
    match s.lru.next .nc_lru with
    | .slot i => (s.nc i).cred.isNone
    | _ => true
  | _ => true

/-- All calls of the sequence are such. -/
def dnlc.sparing (s : dnlc) : List Call → Bool
  | [] => true
  | c :: cs => s.spares c && (s.call c).all fun t => t.sparing cs

theorem careful_of_sparing (h : s.sparing cs = true) : s.Careful cs := by
  induction cs generalizing s with
  | nil => trivial
  | cons c cs ih =>
    unfold dnlc.sparing at h
    rw [Bool.and_eq_true, Option.all_eq_true] at h
    refine ⟨fun hleak => ?_, fun t ht => ih (h.2 t ht)⟩
    cases c with
    | enter dp name vp cred =>
      obtain ⟨-, -, -, i, hnext, -, hcred⟩ := hleak
      have hspare := h.1
      simp only [dnlc.spares, hnext] at hspare
      exact hcred (Option.isNone_iff_eq_none.mp hspare)
    | _ => exact hleak

/-- A name is entered and found, another takes its slot, with credentials, and is removed. -/
def reuse : List Call :=
  [.enter 8 ⟨[97], by decide⟩ 9 none, .lookup 8 ⟨[97], by decide⟩ .ANYCRED,
    .enter 8 ⟨[98], by decide⟩ 9 (some 5), .remove 8 ⟨[98], by decide⟩]

theorem dnlc_sound_one :
    ((dnlc_init one).calls (reuse.take 1)).bind
      (fun s => (dnlc_lookup s 8 [97] .ANYCRED).map Prod.fst) = some (some 9) ∧
    ∃ s, (dnlc_init one).calls reuse = some s ∧ Inv one.v_count one.cr_ref s :=
  ⟨by decide +kernel, dnlc_sound one reuse (careful_of_sparing (by decide +kernel))⟩

/-- Another name takes the slot of one with credentials, which keep a reference that no slot has. -/
theorem dnlc_enter_leaks :
    ¬ ∃ s, (dnlc_init one).calls [.enter 8 ⟨[97], by decide⟩ 9 (some 5),
      .enter 8 ⟨[98], by decide⟩ 9 none] = some s ∧ Inv one.v_count one.cr_ref s := by
  rintro ⟨s, hrun, h⟩
  have hval : ((dnlc_init one).calls [.enter 8 ⟨[97], by decide⟩ 9 (some 5),
      .enter 8 ⟨[98], by decide⟩ 9 none]).map (fun s => (s.cr_ref 5, s.nc 0, s.ncsize)) =
      some (2, entry 8 [98] 9 none, 1) := by
    decide +kernel
  rw [hrun] at hval
  have hval' := Option.some.inj hval
  have h1 : s.cr_ref 5 = 2 := congrArg Prod.fst hval'
  have h2 : s.nc 0 = entry 8 [98] 9 none := congrArg (fun p => p.2.1) hval'
  have h3 : s.ncsize = 1 := congrArg (fun p => p.2.2) hval'
  have hcr := h.creds 5
  rw [h1, h3, total, sum_range_one, h2] at hcr
  revert hcr
  decide

end Dnlc
