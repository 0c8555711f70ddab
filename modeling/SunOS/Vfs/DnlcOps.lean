/-
# The operations of the name cache

Searches walk one list.  `dnlc_rm` gives back the references of a slot; `dnlc_enter` gives
back those to the vnodes of the slot it recycles, but not the one to its credentials.
-/
import SunOS.Lib.Total
import SunOS.Vfs.DnlcLists

namespace Dnlc

open Option
open Function (comp_def update update_idem update_of_ne update_self)
open Finset

variable {s t : dnlc} {ls : List ℕ} {chain : ℕ → List ℕ} {i : ℕ} {w : ncache → ℤ}

/-! ## Sums over the slots -/

variable {n : ℕ} {nc : ℕ → ncache}

/-- What the slots weigh together. -/
def total (n : ℕ) (nc : ℕ → ncache) (w : ncache → ℤ) : ℤ := ∑ i ∈ range n, w (nc i)

/-- Only one slot changes. -/
theorem total_update (hi : i < n) (c : ncache) :
    total n (update nc i c) w = total n nc w - w (nc i) + w c :=
  Table.total_update hi c

/-- A slot weighs no more than all. -/
theorem le_total (hw : ∀ c, 0 ≤ w c) (hi : i < n) : w (nc i) ≤ total n nc w :=
  Table.le_total hw hi

/-- The references of a slot to a vnode. -/
def vrefs (x : vnode) (c : ncache) : ℤ :=
  (if c.dp = some x then 1 else 0) + (if c.vp = some x then 1 else 0)

/-- The references of a slot to credentials, while it is in use. -/
def crrefs (x : ucred) (c : ncache) : ℤ := if c.dp ≠ none ∧ c.cred = some x then 1 else 0

theorem vrefs_nonneg (x : vnode) (c : ncache) : 0 ≤ vrefs x c := by
  unfold vrefs
  split_ifs <;> omega

/-! ## The invariant -/

/-- The slots of the cache. -/
def dnlc.on (s : dnlc) (i : ℕ) : Prop := i < s.ncsize

/-- Two slots with one key. -/
def ncache.same (c c' : ncache) : Prop := c.dp = c'.dp ∧ c.name = c'.name ∧ c.cred = c'.cred

/-- **The invariant**: the lists hold the slots, no two slots in use have one key, and above
`v` and `cr` every reference to a vnode or to credentials is that of a slot. -/
structure Inv (v : vnode → ℕ) (cr : ucred → ℤ) (s : dnlc) : Prop where
  lists : ∃ ls chain, Linked s.on s.nc s.hash s.lru ls chain
  both : ∀ i, s.on i → ((s.nc i).dp = none ↔ (s.nc i).vp = none)
  unique : ∀ i k, s.on i → s.on k → (s.nc i).dp ≠ none → (s.nc i).same (s.nc k) → i = k
  vnodes : ∀ x, (s.v_count x : ℤ) = v x + total s.ncsize s.nc (vrefs x)
  creds : ∀ x, s.cr_ref x = cr x + total s.ncsize s.nc (crrefs x)

/-! ## Searching -/

theorem length_le {on : ℕ → Prop} {l : List ℕ} (hl : l.Nodup) (hon : ∀ i ∈ l, on i)
    (hn : ∀ i, on i → i < n) : l.length ≤ n := by
  have hsub : l ⊆ List.range n := fun i hi => List.mem_range.mpr (hn i (hon i hi))
  have := (hl.subperm hsub).length_le
  rwa [List.length_range] at this

/-- **A search** finds the first slot of the chain that matches. -/
theorem search_eq (h : Linked s.on s.nc s.hash s.lru ls chain) {j : ℕ} (hj : j < NC_HASH_SIZE)
    (dp : vnode) (name : List ℤ) (cred : searchcred) :
    dnlc_search s dp name j cred =
      some ((chain j).find? fun i => matching (s.nc i) dp name cred) := by
  have hlen : ((chain j).map hnode.slot).length < s.ncsize + 1 := by
    rw [List.length_map]
    exact Nat.lt_succ_of_le (length_le (h.nodup_chain hj)
      (fun i hi => ((h.mem_chain j hj i).mp hi).1) fun i hi => hi)
  unfold dnlc_search
  rw [(h.chain_holds j hj).find_eq _ hlen, List.find?_map]
  simp only [bind_eq_bind, bind_some, comp_def]
  cases (chain j).find? fun i => matching (s.nc i) dp name cred <;> rfl

/-- The first slot of the LRU list with `p`. -/
theorem lrufirst_eq (h : Linked s.on s.nc s.hash s.lru ls chain) (p : ncache → Bool) :
    lrufirst p s = some (ls.find? fun i => p (s.nc i)) := by
  have hlen : (ls.map lnode.slot).length < s.ncsize + 1 := by
    rw [List.length_map]
    exact Nat.lt_succ_of_le (length_le h.nodup_ls (fun i hi => (h.mem_lru i).mp hi) fun i hi => hi)
  unfold lrufirst
  rw [h.lru_holds.find_eq _ hlen, List.find?_map]
  simp only [bind_eq_bind, bind_some, comp_def]
  cases ls.find? fun i => p (s.nc i) <;> rfl

/-! ## dnlc_rm -/

/-- A slot not in use. -/
def ncache.unused (c : ncache) : ncache := { c with dp := none, vp := none, cred := none }

/-- Two references given back. -/
theorem releases {f : vnode → ℕ} {d v : vnode}
    (hf : ∀ x, (if d = x then 1 else 0) + (if v = x then 1 else 0) ≤ f x) :
    f d ≠ 0 ∧ update f d (f d - 1) v ≠ 0 ∧
      ∀ x, (update (update f d (f d - 1)) v
        (update f d (f d - 1) v - 1) x : ℤ) =
        f x - ((if d = x then 1 else 0) + (if v = x then 1 else 0)) := by
  have hd := hf d
  have hv := hf v
  by_cases hdv : d = v
  · subst hdv
    simp only [update_self]
    refine ⟨by lia, by lia, fun x => ?_⟩
    by_cases hx : x = d
    · subst hx
      rw [update_self, if_pos rfl]
      lia
    · rw [update_of_ne hx, update_of_ne hx, if_neg (Ne.symm hx)]
      lia
  · rw [update_of_ne (Ne.symm hdv)]
    refine ⟨by lia, by lia, fun x => ?_⟩
    by_cases hx : x = v
    · subst hx
      rw [update_self, if_neg hdv, if_pos rfl]
      lia
    · rw [update_of_ne hx, if_neg (Ne.symm hx)]
      by_cases hxd : x = d
      · subst hxd
        rw [update_self, if_pos rfl]
        lia
      · rw [update_of_ne hxd, if_neg (Ne.symm hxd)]
        lia

/-- The references of a slot in use. -/
theorem vrefs_some {c : ncache} {d v x : vnode} (hd : c.dp = some d) (hv : c.vp = some v) :
    vrefs x c = (if d = x then 1 else 0) + (if v = x then 1 else 0) := by
  unfold vrefs
  simp only [hd, hv, some.injEq]

/-- What `dnlc_rm` does to the slot and the counts. -/
theorem dnlc_rm_eq {d v : vnode} (hd : (s.nc i).dp = some d) (hv : (s.nc i).vp = some v)
    (hcount : ∀ x, vrefs x (s.nc i) ≤ s.v_count x) :
    ∃ t, dnlc_rm s i = some t ∧ t.ncsize = s.ncsize ∧ t.doingcache = s.doingcache ∧
      t.nc = update s.nc i (s.nc i).unused ∧
      t.lru = (s.lru.remque (.slot i)).insque (.slot i) .nc_lru ∧
      t.hash = (s.hash.remque (.slot i)).lone (.slot i) ∧
      (∀ x, (t.v_count x : ℤ) = s.v_count x - vrefs x (s.nc i)) ∧
      ∀ x, t.cr_ref x = s.cr_ref x - crrefs x (s.nc i) := by
  have hrefs : ∀ x, (if d = x then 1 else 0) + (if v = x then 1 else 0) ≤ s.v_count x := by
    intro x
    have := hcount x
    rw [vrefs_some hd hv] at this
    split_ifs at this ⊢ <;> omega
  obtain ⟨h1, h2, h3⟩ := releases hrefs
  simp only [← vrefs_some hd hv] at h3
  unfold dnlc_rm
  simp only [hd, hv, VN_RELE, if_neg h1, if_neg h2, dnlc.set, update_self,
    update_idem, bind_eq_bind, bind_some]
  cases hc : (s.nc i).cred with
  | none =>
    refine ⟨_, rfl, rfl, rfl, rfl, rfl, rfl, h3, fun x => ?_⟩
    · show s.cr_ref x = _
      unfold crrefs
      rw [hc, if_neg (by simp), sub_zero]
  | some c =>
    refine ⟨_, rfl, rfl, rfl, ?_, rfl, rfl, h3, fun x => ?_⟩
    · show update (update _ _ _) _ _ = _
      rw [update_idem]
      rfl
    · show update s.cr_ref c (s.cr_ref c - 1) x = _
      unfold crrefs
      by_cases hx : x = c
      · subst hx
        rw [update_self, if_pos ⟨by rw [hd]; simp, hc⟩]
      · rw [update_of_ne hx, if_neg (by rw [hc]; simp [Ne.symm hx]), sub_zero]

variable {v : vnode → ℕ} {cr : ucred → ℤ}

/-- A slot in use has no more references to a vnode than there are. -/
theorem Inv.vrefs_le (h : Inv v cr s) (hi : s.on i) (x : vnode) :
    vrefs x (s.nc i) ≤ s.v_count x := by
  have hle : _ ≤ total s.ncsize s.nc (vrefs x) := le_total (vrefs_nonneg x) hi
  have := h.vnodes x
  omega

/-- One for a slot in use. -/
def used (c : ncache) : ℤ := if c.dp = none then 0 else 1

/-- **`dnlc_rm`** keeps the invariant; one slot less is in use. -/
theorem rm_inv (h : Inv v cr s) (hi : s.on i) (hd : (s.nc i).dp ≠ none) :
    ∃ t, dnlc_rm s i = some t ∧ Inv v cr t ∧ t.ncsize = s.ncsize ∧
      total t.ncsize t.nc used = total s.ncsize s.nc used - 1 := by
  obtain ⟨d, hd'⟩ := Option.ne_none_iff_exists'.mp hd
  obtain ⟨x, hv⟩ := Option.ne_none_iff_exists'.mp fun hv => hd ((h.both i hi).mpr hv)
  obtain ⟨t, hrun, hn, -, hnc, hlru, hhash, hvc, hcr⟩ := dnlc_rm_eq hd' hv (h.vrefs_le hi)
  have hon : t.on = s.on := by
    unfold dnlc.on
    rw [hn]
  have hself : t.nc i = (s.nc i).unused := by rw [hnc, update_self]
  have hother : ∀ k, k ≠ i → t.nc k = s.nc k := fun k hk => by rw [hnc, update_of_ne hk]
  have htotal : ∀ w, w (s.nc i).unused = 0 →
      total t.ncsize t.nc w = total s.ncsize s.nc w - w (s.nc i) := by
    intro w hw
    rw [hn, hnc, total_update hi, hw, add_zero]
  refine ⟨t, hrun, ⟨?_, ?_, ?_, fun y => ?_, fun y => ?_⟩, hn, ?_⟩
  · obtain ⟨ls, chain, hl⟩ := h.lists
    obtain ⟨ls', chain', hoff⟩ := hl.off hi
    rw [hon, hlru, hhash]
    exact ⟨_, _, hoff.put_unused hi hother (by rw [hself]; rfl)⟩
  · intro k hk
    rw [hon] at hk
    by_cases hki : k = i
    · rw [hki, hself]
      exact ⟨fun _ => rfl, fun _ => rfl⟩
    · rw [hother k hki]
      exact h.both k hk
  · intro k k' hk hk' hkd hsame
    rw [hon] at hk hk'
    have hki : k ≠ i := by
      rintro rfl
      exact hkd (by rw [hself]; rfl)
    rw [hother k hki] at hkd hsame
    have hki' : k' ≠ i := by
      rintro rfl
      rw [hself] at hsame
      exact hkd hsame.1
    rw [hother k' hki'] at hsame
    exact h.unique k k' hk hk' hkd hsame
  · rw [htotal _ (by rfl), hvc, h.vnodes]
    ring
  · rw [htotal _ (by unfold crrefs; rw [if_neg (fun hc => hc.1 rfl)]), hcr, h.creds]
    ring
  · rw [htotal _ (by rfl)]
    unfold used
    rw [if_neg hd]

/-- A search that finds slots in use only, and ends. -/
def Finds (v : vnode → ℕ) (cr : ucred → ℤ) (search : dnlc → Option (Option ℕ)) : Prop :=
  ∀ s, Inv v cr s → ∃ r, search s = some r ∧ ∀ i, r = some i → s.on i ∧ (s.nc i).dp ≠ none

/-- **Removing all that a search finds** ends, and keeps the invariant. -/
theorem rmloop_inv {search : dnlc → Option (Option ℕ)} (hsearch : Finds v cr search) :
    ∀ (fuel : ℕ) (s : dnlc), Inv v cr s → total s.ncsize s.nc used < fuel →
      ∃ t, rmloop search fuel s = some t ∧ Inv v cr t := by
  intro fuel
  induction fuel with
  | zero =>
    intro s _ hf
    have hnn : 0 ≤ total s.ncsize s.nc used :=
      sum_nonneg fun k _ => by unfold used; split_ifs <;> omega
    omega
  | succ fuel ih =>
    intro s h hf
    obtain ⟨r, hr, hfound⟩ := hsearch s h
    unfold rmloop
    rw [hr]
    cases r with
    | none => exact ⟨s, rfl, h⟩
    | some i =>
      obtain ⟨hi, hd⟩ := hfound i rfl
      obtain ⟨t, hrm, ht, -, hused⟩ := rm_inv h hi hd
      obtain ⟨t', hrun, ht'⟩ := ih t ht (by push_cast at hf; omega)
      refine ⟨t', ?_, ht'⟩
      simp only [bind_eq_bind, bind_some]
      rw [hrm, bind_some, hrun]

theorem used_le (s : dnlc) : total s.ncsize s.nc used < ((s.ncsize + 1 : ℕ) : ℤ) := by
  have hle : total s.ncsize s.nc used ≤ (range s.ncsize).card • (1 : ℤ) :=
    sum_le_card_nsmul _ _ _ fun k _ => by unfold used; split_ifs <;> omega
  rw [card_range, nsmul_eq_mul, mul_one] at hle
  omega

/-! ## dnlc_remove, dnlc_purge, dnlc_purge_vp, dnlc_purge1 -/

theorem remove_inv (h : Inv v cr s) (dp : vnode) (name : List ℤ) :
    ∃ t, dnlc_remove s dp name = some t ∧ Inv v cr t := by
  unfold dnlc_remove
  by_cases hlen : NC_NAMLEN < name.length
  · rw [if_pos hlen]
    exact ⟨s, rfl, h⟩
  · rw [if_neg hlen]
    refine rmloop_inv (fun s hs => ?_) _ s h (used_le s)
    obtain ⟨ls, chain, hl⟩ := hs.lists
    have hj := NC_HASH_lt name dp
    refine ⟨_, search_eq hl hj dp name .ANYCRED, fun i hi => ?_⟩
    obtain ⟨hon, d, hd, -⟩ := (hl.mem_chain _ hj i).mp (List.mem_of_find?_eq_some hi)
    exact ⟨hon, by rw [hd]; simp⟩

theorem purge_inv (h : Inv v cr s) : ∃ t, dnlc_purge s = some t ∧ Inv v cr t := by
  refine rmloop_inv (fun s hs => ?_) _ s h (used_le s)
  obtain ⟨ls, chain, hl⟩ := hs.lists
  unfold purgefirst
  cases hj : (List.range NC_HASH_SIZE).find? fun j => s.hash.next (.head j) ≠ .head j with
  | none => exact ⟨none, rfl, fun i hi => by cases hi⟩
  | some j =>
    have hlt := List.mem_range.mp (List.mem_of_find?_eq_some hj)
    have hne : s.hash.next (.head j) ≠ .head j := by simpa using List.find?_some hj
    have hq := hl.chain_holds j hlt
    have hmem := hl.mem_chain j hlt
    cases hc : chain j with
    | nil =>
      rw [hc] at hq
      exact absurd hq.next_nil hne
    | cons i l =>
      rw [hc] at hq hmem
      obtain ⟨hon, d, hd, -⟩ := (hmem i).mp List.mem_cons_self
      have hdn : (s.nc i).dp ≠ none := by
        rw [hd]
        simp
      have hvn : (s.nc i).vp ≠ none := fun hv => hdn ((hs.both i hon).mpr hv)
      have hnext : s.hash.next (.head j) = .slot i := hq.next_cons
      refine ⟨some i, ?_, fun i' hi' => ?_⟩
      · simp only [hnext]
        rw [if_neg (not_or.mpr ⟨hdn, hvn⟩)]
      · obtain rfl := some.inj hi'
        exact ⟨hon, hdn⟩

/-- A search of the LRU list for slots in use. -/
theorem lrufirst_finds {p : ncache → Bool}
    (hp : ∀ c, p c = true → c.dp ≠ none ∨ c.vp ≠ none) : Finds v cr (lrufirst p) := by
  intro s hs
  obtain ⟨ls, chain, hl⟩ := hs.lists
  refine ⟨_, lrufirst_eq hl p, fun i hi => ?_⟩
  have hon := (hl.mem_lru i).mp (List.mem_of_find?_eq_some hi)
  have hpi := List.find?_some hi
  refine ⟨hon, ?_⟩
  rcases hp _ hpi with hd | hv
  · exact hd
  · exact fun hd => hv ((hs.both i hon).mp hd)

theorem purge_vp_inv (h : Inv v cr s) (vp : vnode) :
    ∃ t, dnlc_purge_vp s vp = some t ∧ Inv v cr t := by
  refine rmloop_inv (lrufirst_finds fun c hc => ?_) _ s h (used_le s)
  rcases of_decide_eq_true hc with hd | hv
  · left
    rw [hd]
    simp
  · right
    rw [hv]
    simp

theorem purge1_inv (h : Inv v cr s) : ∃ b t, dnlc_purge1 s = some (b, t) ∧ Inv v cr t := by
  obtain ⟨r, hr, hfound⟩ := lrufirst_finds (p := fun c => c.dp.isSome)
    (fun c hc => Or.inl (Option.isSome_iff_ne_none.mp hc)) s h
  unfold dnlc_purge1
  rw [hr]
  cases r with
  | none => exact ⟨false, s, rfl, h⟩
  | some i =>
    obtain ⟨hi, hd⟩ := hfound i rfl
    obtain ⟨t, hrm, ht, -⟩ := rm_inv h hi hd
    refine ⟨true, t, ?_, ht⟩
    simp only [bind_eq_bind, bind_some]
    rw [hrm, bind_some]

end Dnlc
