/-
# Binary trees in memory

The links of a tree lie in memory, one outside of its nodes and two in each of them, and an
algorithm that rewrites them holds the place of a link, not only the node it leads to.  `Rep info
link t as x` says that from the node `x` on memory holds the tree `t`, and that its nodes are in
order those of `as`; `0` stands for no node.  A tree of which one subtree was rewritten in place
is the tree with that subtree replaced.
-/
import SunOS.Lib.CartesianTree
import Mathlib.Data.List.Nodup
import Mathlib.Logic.Function.Basic

namespace LinkedTree

open List (append_assoc append_nil mem_append_right mem_cons_self)
open CartesianTree

variable {as bs : List ℕ} {h : Hook} {ls rs : List ℕ}

/-- Where a link lies. -/
inductive Hook
  | root
  | left (x : ℕ)
  | right (x : ℕ)
  deriving DecidableEq

/-- The link lies in one of the nodes `as`. -/
def Hook.In (as : List ℕ) : Hook → Prop
  | root => False
  | left x => x ∈ as
  | right x => x ∈ as

theorem Hook.In.mono (hin : h.In as) (hs : as ⊆ bs) : h.In bs := by
  cases h with
  | root => exact hin
  | left x => exact hs hin
  | right x => exact hs hin

theorem Hook.not_in_nil : ¬ h.In [] := by
  cases h with
  | root => exact fun hin => hin
  | left x => exact List.not_mem_nil
  | right x => exact List.not_mem_nil

theorem Hook.in_append : h.In (as ++ bs) ↔ h.In as ∨ h.In bs := by
  cases h with
  | root => exact (or_self_iff).symm
  | left x => exact List.mem_append
  | right x => exact List.mem_append

theorem Hook.in_cons {as : List ℕ} {a : ℕ} :
    h.In (a :: as) ↔ h = left a ∨ h = right a ∨ h.In as := by
  cases h <;> simp [Hook.In]

/-- A link does not lie in two lists of nodes that have none in common. -/
theorem Hook.not_in_of_disjoint (hd : as.Disjoint bs) (ha : h.In as) : ¬ h.In bs := by
  cases h with
  | root => exact ha.elim
  | left x => exact fun hb => hd ha hb
  | right x => exact fun hb => hd ha hb

variable {κ ω : Type*} {info info' : ℕ → κ × ω} {link link' : Hook → ℕ} {t : CartesianTree κ ω}
  {as : List ℕ} {x : ℕ}

/-- From `x` on memory holds the tree `t`. -/
def Rep (info : ℕ → κ × ω) (link : Hook → ℕ) : CartesianTree κ ω → List ℕ → ℕ → Prop
  | nil, as, x => x = 0 ∧ as = []
  | node l k w r, as, x => x ≠ 0 ∧ info x = (k, w) ∧ ∃ ls rs, as = ls ++ x :: rs ∧
      Rep info link l ls (link (.left x)) ∧ Rep info link r rs (link (.right x))

namespace Rep

/-- Only the links and the contents of its own nodes matter to a tree. -/
theorem congr (h : Rep info link t as x) (hl : ∀ g : Hook, g.In as → link' g = link g)
    (hi : ∀ a ∈ as, info' a = info a) : Rep info' link' t as x := by
  induction t generalizing as x with
  | nil => exact h
  | node l k w r ihl ihr =>
    obtain ⟨hx, hinfo, ls, rs, rfl, hL, hR⟩ := h
    have hxmem : x ∈ ls ++ x :: rs := mem_append_right _ mem_cons_self
    refine ⟨hx, (hi x hxmem).trans hinfo, ls, rs, rfl, ?_, ?_⟩
    · rw [hl (.left x) hxmem]
      apply ihl hL
      · exact fun g hg => hl g (hg.mono (List.subset_append_left _ _))
      · exact fun a ha => hi a (List.mem_append_left _ ha)
    · rw [hl (.right x) hxmem]
      apply ihr hR
      · intro g hg
        exact hl g (Hook.in_append.mpr (Or.inr (Hook.in_cons.mpr (Or.inr (Or.inr hg)))))
      · exact fun a ha => hi a (mem_append_right _ (List.mem_cons_of_mem _ ha))

/-- The contents of the nodes in order. -/
theorem toList (h : Rep info link t as x) : t.toList = as.map info := by
  induction t generalizing as x with
  | nil =>
    rw [h.2]
    rfl
  | node l k w r ihl ihr =>
    obtain ⟨-, hinfo, ls, rs, rfl, hL, hR⟩ := h
    rw [toList_node, ihl hL, ihr hR, List.map_append, List.map_cons, hinfo]

theorem mem (h : Rep info link t as x) (hx : x ≠ 0) : x ∈ as := by
  cases t with
  | nil => exact absurd h.1 hx
  | node l k w r =>
    obtain ⟨-, -, ls, rs, rfl, -⟩ := h
    exact mem_append_right _ mem_cons_self

end Rep

theorem plug_append (p q : List (Crumb κ ω)) (t : CartesianTree κ ω) :
    plug (p ++ q) t = plug q (plug p t) := by
  induction p generalizing t with
  | nil => rfl
  | cons c p ih =>
    cases c with
    | left k w r => exact ih _
    | right l k w => exact ih _

/-- The two halves of the nodes of a tree and its root are apart. -/
theorem nodup_node (h : (ls ++ x :: rs).Nodup) :
    ls.Nodup ∧ rs.Nodup ∧ x ∉ ls ∧ x ∉ rs ∧ ls.Disjoint rs := by
  obtain ⟨hl, hr, hd⟩ := List.nodup_append'.mp h
  obtain ⟨hx, hr⟩ := List.nodup_cons.mp hr
  refine ⟨hl, hr, fun hxl => hd hxl mem_cons_self, hx, fun a ha hb => ?_⟩
  exact hd ha (List.mem_cons_of_mem _ hb)

/-- A link to the left subtree of `x` or in it is none of the others. -/
theorem left_side (hn : (ls ++ x :: rs).Nodup) {g : Hook}
    (hg : g = .left x ∨ g.In ls) : g.In (ls ++ x :: rs) ∧ g ≠ .right x ∧ ¬ g.In rs := by
  obtain ⟨-, -, hxl, hxr, hd⟩ := nodup_node hn
  rcases hg with rfl | hg
  · exact ⟨mem_append_right _ mem_cons_self, fun h => Hook.noConfusion h, hxr⟩
  · refine ⟨hg.mono (List.subset_append_left _ _), ?_, Hook.not_in_of_disjoint hd hg⟩
    rintro rfl
    exact hxl hg

/-- A link to the right subtree of `x` or in it is none of the others. -/
theorem right_side (hn : (ls ++ x :: rs).Nodup) {g : Hook}
    (hg : g = .right x ∨ g.In rs) : g.In (ls ++ x :: rs) ∧ g ≠ .left x ∧ ¬ g.In ls := by
  obtain ⟨-, -, hxl, hxr, hd⟩ := nodup_node hn
  rcases hg with rfl | hg
  · exact ⟨mem_append_right _ mem_cons_self, fun h => Hook.noConfusion h, hxl⟩
  · refine ⟨Hook.in_append.mpr (Or.inr (Hook.in_cons.mpr (Or.inr (Or.inr hg)))), ?_,
      Hook.not_in_of_disjoint (fun _ ha hb => hd hb ha) hg⟩
    rintro rfl
    exact hxr hg

/-- **A subtree in its place.**  Below the link `p` of a tree lies a subtree; when memory is
changed in the nodes of the subtree and in that link only, the tree changes in the subtree
only. -/
theorem Rep.focus {h₀ p : Hook} (h : Rep info link t as (link h₀)) (hn : as.Nodup)
    (h0 : ¬ h₀.In as) (hp : p = h₀ ∨ p.In as) :
    ∃ path s bs cs ds, t = plug path s ∧ as = bs ++ cs ++ ds ∧ Rep info link s cs (link p) ∧
      ¬ p.In cs ∧ ∀ (info' : ℕ → κ × ω) (link' : Hook → ℕ) (s' : CartesianTree κ ω)
        (cs' : List ℕ), Rep info' link' s' cs' (link' p) →
        (∀ g : Hook, g ≠ p → ¬ g.In cs → (g = h₀ ∨ g.In as) → link' g = link g) →
        (∀ a ∈ as, a ∉ cs → info' a = info a) →
        Rep info' link' (plug path s') (bs ++ cs' ++ ds) (link' h₀) := by
  induction t generalizing h₀ as with
  | nil =>
    obtain ⟨h1, rfl⟩ := h
    have hp : p = h₀ := hp.resolve_right Hook.not_in_nil
    subst hp
    refine ⟨[], nil, [], [], [], rfl, rfl, ⟨h1, rfl⟩, h0, fun info' link' s' cs' hs _ _ => ?_⟩
    rw [append_nil, List.nil_append]
    exact hs
  | node l k w r ihl ihr =>
    by_cases hp0 : p = h₀
    · subst hp0
      refine ⟨[], _, [], as, [], rfl, (append_nil as).symm, h, h0,
        fun info' link' s' cs' hs _ _ => ?_⟩
      rw [append_nil, List.nil_append]
      exact hs
    · obtain ⟨hx, hinfo, ls, rs, rfl, hL, hR⟩ := h
      generalize hroot : link h₀ = x at *
      obtain ⟨hnl, hnr, hxl, hxr, hd⟩ := nodup_node hn
      have hxmem : x ∈ ls ++ x :: rs := mem_append_right _ mem_cons_self
      have hlm : ls ⊆ ls ++ x :: rs := List.subset_append_left _ _
      have hrm : rs ⊆ ls ++ x :: rs := fun a ha =>
        mem_append_right _ (List.mem_cons_of_mem _ ha)
      have hside : (p = .left x ∨ p.In ls) ∨ (p = .right x ∨ p.In rs) := by
        have := hp.resolve_left hp0
        rw [Hook.in_append, Hook.in_cons] at this
        tauto
      -- the link itself and the root's contents stay
      have hstay : ∀ {cs : List ℕ} {info' : ℕ → κ × ω} {link' : Hook → ℕ},
          cs ⊆ ls ++ x :: rs → x ∉ cs →
          (∀ g : Hook, g ≠ p → ¬ g.In cs → (g = h₀ ∨ g.In (ls ++ x :: rs)) → link' g = link g) →
          (∀ a ∈ ls ++ x :: rs, a ∉ cs → info' a = info a) →
          link' h₀ = x ∧ info' x = (k, w) := by
        intro cs info' link' hs hxc hlink hi
        refine ⟨?_, (hi x hxmem hxc).trans hinfo⟩
        rw [hlink h₀ (Ne.symm hp0) (fun hc => h0 (hc.mono hs)) (Or.inl rfl), hroot]
      rcases hside with hl | hr
      · obtain ⟨path, s, bs, cs, ds, rfl, rfl, hs, hpcs, hput⟩ := ihl hL hnl hxl hl
        have hcs : cs ⊆ bs ++ cs ++ ds := fun a ha => by simp [ha]
        refine ⟨path ++ [.left k w r], s, bs, cs, ds ++ x :: rs, by rw [plug_append]; rfl,
          by simp only [append_assoc], hs, hpcs, fun info' link' s' cs' hs' hlink hi => ?_⟩
        have hxc : x ∉ cs := fun hc => hxl (hcs hc)
        obtain ⟨hroot', hinfo'⟩ := hstay (fun _ ha => hlm (hcs ha)) hxc hlink hi
        rw [plug_append, hroot']
        refine ⟨hx, hinfo', bs ++ cs' ++ ds, rs, by simp only [append_assoc], ?_, ?_⟩
        · apply hput info' link' s' cs' hs'
          · intro g hgp hgc hg
            refine hlink g hgp hgc (Or.inr ?_)
            rcases hg with rfl | hg
            · exact hxmem
            · exact hg.mono hlm
          · exact fun a ha => hi a (hlm ha)
        · have hkeep : ∀ g : Hook, g = .right x ∨ g.In rs → link' g = link g := by
            intro g hg
            obtain ⟨hin, hgx, hgl⟩ := right_side hn hg
            apply hlink g _ (fun hgc => hgl (hgc.mono hcs)) (Or.inr hin)
            rintro rfl
            exact hl.elim hgx hgl
          rw [hkeep _ (Or.inl rfl)]
          apply hR.congr (fun g hg => hkeep g (Or.inr hg))
          exact fun a ha => hi a (hrm ha) fun hc => hd (hcs hc) ha
      · obtain ⟨path, s, bs, cs, ds, rfl, rfl, hs, hpcs, hput⟩ :=
          ihr hR hnr hxr hr
        have hcs : cs ⊆ bs ++ cs ++ ds := fun a ha => by simp [ha]
        refine ⟨path ++ [.right l k w], s, ls ++ x :: bs, cs, ds, by rw [plug_append]; rfl,
          by simp only [append_assoc, List.cons_append], hs, hpcs,
          fun info' link' s' cs' hs' hlink hi => ?_⟩
        have hxc : x ∉ cs := fun hc => hxr (hcs hc)
        obtain ⟨hroot', hinfo'⟩ := hstay (fun _ ha => hrm (hcs ha)) hxc hlink hi
        rw [plug_append, hroot']
        refine ⟨hx, hinfo', ls, bs ++ cs' ++ ds,
          by simp only [append_assoc, List.cons_append], ?_, ?_⟩
        · have hkeep : ∀ g : Hook, g = .left x ∨ g.In ls → link' g = link g := by
            intro g hg
            obtain ⟨hin, hgx, hgr⟩ := left_side hn hg
            apply hlink g _ (fun hgc => hgr (hgc.mono hcs)) (Or.inr hin)
            rintro rfl
            exact hr.elim hgx hgr
          rw [hkeep _ (Or.inl rfl)]
          apply hL.congr (fun g hg => hkeep g (Or.inr hg))
          exact fun a ha => hi a (hlm ha) fun hc => hd ha (hcs hc)
        · apply hput info' link' s' cs' hs'
          · intro g hgp hgc hg
            refine hlink g hgp hgc (Or.inr ?_)
            rcases hg with rfl | hg
            · exact hxmem
            · exact hg.mono hrm
          · exact fun a ha => hi a (hrm ha)

end LinkedTree
