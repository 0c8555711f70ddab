/-
# The lists of the name cache

A slot is taken off both its lists before it changes and put on them again afterwards.  In
between the lists hold the other slots, so that the invariant names the slots that are on
them.
-/
import SunOS.Vfs.Dnlc
import Mathlib.Data.List.Nodup
import Mathlib.Tactic.Common

namespace Dnlc

open List (append_of_mem map_append map_cons mem_append mem_cons mem_cons_self mem_map
  mem_singleton)
open Function (update update_of_ne update_self)

variable {on : ℕ → Prop} {nc nc' : ℕ → ncache} {hash : Que hnode} {lru : Que lnode} {ls : List ℕ}
  {chain : ℕ → List ℕ} {i j : ℕ}

/-! ## The lists -/

variable {c : ncache}

/-- Where a slot is hashed. -/
def ncache.at (c : ncache) (j : ℕ) : Prop := ∃ d, c.dp = some d ∧ NC_HASH c.name d = j

/-- **The lists hold the slots of `on`**: `ls` is the LRU list and `chain j` a hash chain; a
slot not in use is linked to itself. -/
structure Linked (on : ℕ → Prop) (nc : ℕ → ncache) (hash : Que hnode) (lru : Que lnode)
    (ls : List ℕ) (chain : ℕ → List ℕ) : Prop where
  lru_holds : lru.Holds .nc_lru (ls.map .slot)
  mem_lru : ∀ i, i ∈ ls ↔ on i
  chain_holds : ∀ j < NC_HASH_SIZE, hash.Holds (.head j) ((chain j).map .slot)
  mem_chain : ∀ j < NC_HASH_SIZE, ∀ i, i ∈ chain j ↔ on i ∧ (nc i).at j
  lone : ∀ i, on i → (nc i).dp = none → hash.Holds (.slot i) []

theorem NC_HASH_lt (name : List ℤ) (vp : vnode) : NC_HASH name vp < NC_HASH_SIZE := by
  unfold NC_HASH NC_HASH_SIZE
  omega

theorem ncache.at_lt (h : c.at j) : j < NC_HASH_SIZE := by
  obtain ⟨d, -, rfl⟩ := h
  exact NC_HASH_lt ..

theorem ncache.at_unique {j' : ℕ} (h : c.at j) (h' : c.at j') : j = j' := by
  obtain ⟨d, hd, rfl⟩ := h
  obtain ⟨d', hd', rfl⟩ := h'
  rw [hd] at hd'
  obtain rfl := Option.some.inj hd'
  rfl

theorem ncache.at_of_dp (h : c.dp ≠ none) : ∃ j, c.at j := by
  obtain ⟨d, hd⟩ := Option.ne_none_iff_exists'.mp h
  exact ⟨_, d, hd, rfl⟩

namespace Linked

/-- The nodes of a chain with its head. -/
theorem mem_nodes {x : hnode} :
    x ∈ hnode.head j :: (chain j).map .slot ↔ x = .head j ∨ ∃ i ∈ chain j, x = .slot i := by
  rw [mem_cons, mem_map]
  constructor
  · rintro (h | ⟨i, hi, rfl⟩)
    · exact Or.inl h
    · exact Or.inr ⟨i, hi, rfl⟩
  · rintro (h | ⟨i, hi, rfl⟩)
    · exact Or.inl h
    · exact Or.inr ⟨i, hi, rfl⟩

section

variable (h : Linked on nc hash lru ls chain)
include h

/-- A slot is on a chain only when it is on the lists. -/
theorem slot_mem_nodes (hj : j < NC_HASH_SIZE) :
    hnode.slot i ∈ hnode.head j :: (chain j).map .slot ↔ on i ∧ (nc i).at j := by
  rw [mem_nodes, ← h.mem_chain j hj]
  constructor
  · rintro (h | ⟨i', hi, h⟩)
    · cases h
    · cases h
      exact hi
  · exact fun hi => Or.inr ⟨i, hi, rfl⟩

/-- Two chains have no node in common. -/
theorem disjoint {j' : ℕ} (hj : j < NC_HASH_SIZE) (hj' : j' < NC_HASH_SIZE) (hne : j ≠ j') :
    ∀ x ∈ hnode.head j :: (chain j).map .slot, x ∉ hnode.head j' :: (chain j').map .slot := by
  intro x hx hx'
  rcases mem_nodes.mp hx with rfl | ⟨i, hi, rfl⟩
  · rcases mem_nodes.mp hx' with h' | ⟨i', -, h'⟩
    · cases h'
      exact hne rfl
    · cases h'
  · have h1 := (h.slot_mem_nodes hj).mp hx
    have h2 := (h.slot_mem_nodes hj').mp hx'
    exact hne (ncache.at_unique h1.2 h2.2)

/-- A slot not in use shares no node with a chain. -/
theorem lone_disjoint (hj : j < NC_HASH_SIZE) (hi : (nc i).dp = none) :
    ∀ x ∈ [hnode.slot i], x ∉ hnode.head j :: (chain j).map .slot := by
  intro x hx hx'
  obtain rfl := List.mem_singleton.mp hx
  obtain ⟨-, d, hd, -⟩ := (h.slot_mem_nodes hj).mp hx'
  rw [hi] at hd
  cases hd

/-- Nor does a chain share one with it. -/
theorem disjoint_lone (hj : j < NC_HASH_SIZE) (hi : (nc i).dp = none) :
    ∀ x ∈ hnode.head j :: (chain j).map .slot, x ∉ [hnode.slot i] := by
  intro x hx hx'
  exact h.lone_disjoint hj hi x hx' hx

theorem nodup_ls : ls.Nodup :=
  h.lru_holds.nodup_tail.of_map _

theorem nodup_chain (hj : j < NC_HASH_SIZE) :
    (chain j).Nodup := (h.chain_holds j hj).nodup_tail.of_map _

end

/-! ## Off the lists -/

/-- A slot comes off the LRU list. -/
theorem lru_off (h : Linked on nc hash lru ls chain) (hi : on i) :
    ∃ ls' : List ℕ, (lru.remque (.slot i)).Holds .nc_lru (ls'.map .slot) ∧
      (∀ k, k ∈ ls' ↔ on k ∧ k ≠ i) := by
  obtain ⟨l, m, rfl⟩ := append_of_mem ((h.mem_lru i).mpr hi)
  have hq := h.lru_holds
  rw [map_append, map_cons] at hq
  have hnd := h.nodup_ls
  refine ⟨l ++ m, by rw [map_append]; exact hq.remque_self, fun k => ?_⟩
  rw [← h.mem_lru k]
  have hil : i ∉ l ++ m := (List.nodup_middle.mp hnd).notMem
  simp only [mem_append, mem_cons] at hil ⊢
  constructor
  · intro hk
    exact ⟨by tauto, fun he => hil (he ▸ hk)⟩
  · rintro ⟨hk, hne⟩
    tauto

/-- A slot comes off its hash chain, or off itself. -/
theorem hash_off (h : Linked on nc hash lru ls chain) (hi : on i) :
    ∃ chain' : ℕ → List ℕ,
      (∀ j < NC_HASH_SIZE, (hash.remque (.slot i)).Holds (.head j) ((chain' j).map .slot)) ∧
      (∀ j < NC_HASH_SIZE, ∀ k, k ∈ chain' j ↔ (on k ∧ k ≠ i) ∧ (nc k).at j) ∧
      ∀ k, on k ∧ k ≠ i → (nc k).dp = none → (hash.remque (.slot i)).Holds (.slot k) [] := by
  by_cases hd : (nc i).dp = none
  · have hself := h.lone i hi hd
    refine ⟨chain, fun j hj => ?_, fun j hj k => ?_, fun k hk hkd => ?_⟩
    · exact (h.chain_holds j hj).remque_other hself mem_cons_self (h.lone_disjoint hj hd)
    · rw [h.mem_chain j hj]
      constructor
      · rintro ⟨hk, hat⟩
        refine ⟨⟨hk, ?_⟩, hat⟩
        rintro rfl
        obtain ⟨d, hd', -⟩ := hat
        rw [hd] at hd'
        cases hd'
      · exact fun hk => ⟨hk.1.1, hk.2⟩
    · refine (h.lone k hk.1 hkd).remque_other hself mem_cons_self ?_
      intro x hx hx'
      obtain rfl := List.mem_singleton.mp hx
      cases List.mem_singleton.mp hx'
      exact hk.2 rfl
  · obtain ⟨j0, hat⟩ := ncache.at_of_dp hd
    have hj0 := ncache.at_lt hat
    obtain ⟨l, m, hlm⟩ := append_of_mem ((h.mem_chain j0 hj0 i).mpr ⟨hi, hat⟩)
    have hq := h.chain_holds j0 hj0
    have hmem : hnode.slot i ∈ hnode.head j0 :: (chain j0).map .slot :=
      (h.slot_mem_nodes hj0).mpr ⟨hi, hat⟩
    refine ⟨update chain j0 (l ++ m), fun j hj => ?_, fun j hj k => ?_,
      fun k hk hkd => ?_⟩
    · by_cases hjj : j = j0
      · subst hjj
        rw [update_self, map_append]
        rw [hlm, map_append, map_cons] at hq
        exact hq.remque_self
      · rw [update_of_ne hjj]
        exact (h.chain_holds j hj).remque_other hq hmem (h.disjoint hj0 hj (Ne.symm hjj))
    · by_cases hjj : j = j0
      · subst hjj
        have hnd := h.nodup_chain hj
        rw [hlm] at hnd
        have hil : i ∉ l ++ m := (List.nodup_middle.mp hnd).notMem
        have hmk := h.mem_chain j hj k
        rw [hlm] at hmk
        rw [update_self]
        simp only [mem_append, mem_cons] at hil hmk ⊢
        constructor
        · intro hk
          have := hmk.mp (by tauto)
          exact ⟨⟨this.1, fun he => hil (he ▸ hk)⟩, this.2⟩
        · rintro ⟨⟨hk, hne⟩, hkat⟩
          tauto
      · rw [update_of_ne hjj, h.mem_chain j hj]
        constructor
        · rintro ⟨hk, hkat⟩
          refine ⟨⟨hk, ?_⟩, hkat⟩
          rintro rfl
          exact hjj (ncache.at_unique hkat hat)
        · exact fun hk => ⟨hk.1.1, hk.2⟩
    · exact (h.lone k hk.1 hkd).remque_other hq hmem (h.disjoint_lone hj0 hkd)

/-- **Off both lists**: they hold the others. -/
theorem off (h : Linked on nc hash lru ls chain) (hi : on i) :
    ∃ ls' chain', Linked (fun k => on k ∧ k ≠ i) nc (hash.remque (.slot i))
      (lru.remque (.slot i)) ls' chain' := by
  obtain ⟨ls', hlru, hls'⟩ := h.lru_off hi
  obtain ⟨chain', hchain, hmem, hlone⟩ := h.hash_off hi
  exact ⟨ls', chain', hlru, hls', hchain, hmem, hlone⟩

/-! ## Moving on the lists -/

/-- A slot becomes the most recently used. -/
theorem touch (h : Linked on nc hash lru ls chain) (hi : on i) :
    ∃ ls', Linked on nc hash ((lru.remque (.slot i)).insque (.slot i)
      ((lru.remque (.slot i)).prev .nc_lru)) ls' chain := by
  obtain ⟨ls', hq, hls'⟩ := h.lru_off hi
  have hni : lnode.slot i ∉ lnode.nc_lru :: ls'.map .slot := by
    rw [mem_cons, mem_map]
    rintro (hm | ⟨k, hk, hm⟩)
    · cases hm
    · cases hm
      exact ((hls' i).mp hk).2 rfl
  refine ⟨ls' ++ [i], ?_, fun k => ?_, h.chain_holds, h.mem_chain, h.lone⟩
  · rw [map_append]
    exact hq.insque_last hni
  · rw [mem_append, mem_singleton, hls']
    constructor
    · rintro (hk | rfl)
      · exact hk.1
      · exact hi
    · intro hk
      by_cases hki : k = i
      · exact Or.inr hki
      · exact Or.inl ⟨hk, hki⟩

/-- A slot that is not first on its chain moves one place forward. -/
theorem forward (h : Linked on nc hash lru ls chain) (hi : on i) (hat : (nc i).at j)
    (hne : hash.prev (.slot i) ≠ .head j) :
    ∃ chain', Linked on nc (Que.Holds.forward hash (.slot i)) lru ls chain' := by
  have hj := ncache.at_lt hat
  have hq := h.chain_holds j hj
  obtain ⟨l, m, hlm⟩ := append_of_mem ((h.mem_chain j hj i).mpr ⟨hi, hat⟩)
  rcases List.eq_nil_or_concat l with rfl | ⟨l, b, rfl⟩
  · rw [hlm] at hq
    exact absurd hq.prev_first hne
  · have hlm' : chain j = l ++ b :: i :: m := by
      rw [hlm]
      simp
    have hdis := fun j' (hj' : j' < NC_HASH_SIZE) (hjj : j ≠ j') => h.disjoint hj hj' hjj
    have hdl := fun k (hk : (nc k).dp = none) => h.disjoint_lone hj hk
    rw [hlm', map_append, map_cons, map_cons] at hq hdis hdl
    refine ⟨update chain j (l ++ i :: b :: m), h.lru_holds, h.mem_lru, fun j' hj' => ?_,
      fun j' hj' k => ?_, fun k hk hkd => ?_⟩
    · by_cases hjj : j' = j
      · subst hjj
        rw [update_self, map_append, map_cons, map_cons]
        exact hq.forward_self
      · rw [update_of_ne hjj]
        exact (h.chain_holds j' hj').forward_other hq (hdis j' hj' (Ne.symm hjj))
    · rw [← h.mem_chain j' hj' k]
      by_cases hjj : j' = j
      · subst hjj
        rw [update_self, hlm']
        simp only [mem_append, mem_cons]
        tauto
      · rw [update_of_ne hjj]
    · exact (h.lone k hk hkd).forward_other hq (hdl k hkd)

/-! ## On the lists -/

variable (h : Linked (fun k => on k ∧ k ≠ i) nc hash lru ls chain)
include h

theorem not_mem_lru : lnode.slot i ∉ lnode.nc_lru :: ls.map .slot := by
  rw [mem_cons, mem_map]
  rintro (hm | ⟨k, hk, hm⟩)
  · cases hm
  · cases hm
    exact ((h.mem_lru i).mp hk).2 rfl

theorem not_mem_chain (hj : j < NC_HASH_SIZE) :
    hnode.slot i ∉ hnode.head j :: (chain j).map .slot := by
  intro hm
  exact ((h.slot_mem_nodes hj).mp hm).1.2 rfl

omit h in
theorem on_cases (hi : on i) {k : ℕ} : on k ↔ k = i ∨ (on k ∧ k ≠ i) := by
  by_cases hk : k = i
  · subst hk
    exact ⟨fun _ => Or.inl rfl, fun _ => hi⟩
  · exact ⟨fun h => Or.inr ⟨h, hk⟩, fun h => (h.resolve_left hk).1⟩

/-- A slot not in use goes first on the LRU list and is linked to itself. -/
theorem put_unused (hi : on i) (hnc : ∀ k, k ≠ i → nc' k = nc k) (hd : (nc' i).dp = none) :
    Linked on nc' (hash.lone (.slot i)) (lru.insque (.slot i) .nc_lru) (i :: ls) chain where
  lru_holds := h.lru_holds.insque_first h.not_mem_lru
  mem_lru k := by
    rw [mem_cons, h.mem_lru, ← on_cases hi]
  chain_holds j hj := (h.chain_holds j hj).lone_other (h.not_mem_chain hj)
  mem_chain j hj k := by
    rw [h.mem_chain j hj]
    constructor
    · rintro ⟨⟨hk, hne⟩, hat⟩
      rw [hnc k hne]
      exact ⟨hk, hat⟩
    · rintro ⟨hk, hat⟩
      have hne : k ≠ i := by
        rintro rfl
        obtain ⟨d, hd', -⟩ := hat
        rw [hd] at hd'
        cases hd'
      rw [hnc k hne] at hat
      exact ⟨⟨hk, hne⟩, hat⟩
  lone k hk hkd := by
    by_cases hne : k = i
    · subst hne
      exact Que.lone_holds ..
    · rw [hnc k hne] at hkd
      refine (h.lone k ⟨hk, hne⟩ hkd).lone_other ?_
      rw [mem_singleton]
      intro he
      cases he
      exact hne rfl

/-- A slot in use goes last on the LRU list and first on its hash chain. -/
theorem put_used (hi : on i) (hnc : ∀ k, k ≠ i → nc' k = nc k) (hat : (nc' i).at j) :
    Linked on nc' (hash.insque (.slot i) (.head j)) (lru.insque (.slot i) (lru.prev .nc_lru))
      (ls ++ [i]) (update chain j (i :: chain j)) where
  lru_holds := by
    rw [map_append]
    exact h.lru_holds.insque_last h.not_mem_lru
  mem_lru k := by
    rw [mem_append, mem_singleton, h.mem_lru, or_comm, ← on_cases hi]
  chain_holds j' hj' := by
    by_cases hjj : j' = j
    · subst hjj
      rw [update_self]
      exact (h.chain_holds j' hj').insque_first (h.not_mem_chain hj')
    · rw [update_of_ne hjj]
      exact (h.chain_holds j' hj').insque_other (h.chain_holds j (ncache.at_lt hat)) mem_cons_self
        (h.disjoint (ncache.at_lt hat) hj' (Ne.symm hjj)) (h.not_mem_chain hj')
  mem_chain j' hj' k := by
    have hk' : k ≠ i → (on k ∧ k ≠ i ∧ (nc k).at j' ↔ on k ∧ (nc' k).at j') := by
      intro hne
      rw [hnc k hne]
      tauto
    by_cases hjj : j' = j
    · subst hjj
      rw [update_self, mem_cons, h.mem_chain j' hj']
      by_cases hne : k = i
      · subst hne
        exact ⟨fun _ => ⟨hi, hat⟩, fun _ => Or.inl rfl⟩
      · rw [← hk' hne]
        tauto
    · rw [update_of_ne hjj, h.mem_chain j' hj']
      by_cases hne : k = i
      · subst hne
        exact ⟨fun hk => absurd rfl hk.1.2, fun hk => absurd (ncache.at_unique hk.2 hat) hjj⟩
      · rw [← hk' hne]
        tauto
  lone k hk hkd := by
    have hne : k ≠ i := by
      rintro rfl
      obtain ⟨d, hd, -⟩ := hat
      rw [hkd] at hd
      cases hd
    rw [hnc k hne] at hkd
    refine (h.lone k ⟨hk, hne⟩ hkd).insque_other (h.chain_holds j (ncache.at_lt hat)) mem_cons_self
      (h.disjoint_lone (ncache.at_lt hat) hkd) ?_
    rw [mem_singleton]
    intro he
    cases he
    exact hne rfl

end Linked

end Dnlc
