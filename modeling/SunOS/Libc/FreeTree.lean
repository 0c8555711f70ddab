/-
# The tree of free blocks in memory (`libc/gen/malloc.c`)

`insert`, `delete` and `demote` walk down the tree and rewrite its links through the address of the
link they stand at.  A header is its address, `NIL` is 0.  `_root` and the links in the headers are
kept together, by the place where they lie.

The loops take a bound on their turns; a result `none` is a turn more, or a reference through `NIL`.
The kernel has copies of the three functions; what the copies do differently is a parameter.
-/
import SunOS.Lib.LinkedTree
import SunOS.Lib.Chain
import Mathlib.Algebra.Order.Ring.Int
import Mathlib.Tactic.Tauto

namespace FreeTree

open List (mem_cons mem_singleton nodup_append' nodup_cons)
open List
open Function (update update_of_ne update_self)
open LinkedTree

def NIL : ℕ := 0

def EINVAL : ℤ := 22

/-- The headers and the length words of the blocks. -/
structure arena where
  link : Hook → ℕ
  block : ℕ → ℤ
  size : ℕ → ℕ
  freehdrlist : ℕ
  length : ℤ → ℕ
  errno : ℤ

namespace arena

/-- `*hook = x`. -/
def set (hook : Hook) (x : ℕ) (m : arena) :
    arena := { m with link := update m.link hook x }

/-- What the tree is ordered by. -/
def info (m : arena) (x : ℕ) : ℤ × ℕ := (m.block x, m.size x)

@[simp] theorem set_link_self (hook : Hook) (x : ℕ) (m : arena) : (m.set hook x).link hook = x := by
  show update m.link hook x hook = x
  rw [update_self]

theorem set_link_of_ne {hook g : Hook} (h : g ≠ hook) (x : ℕ) (m : arena) :
    (m.set hook x).link g = m.link g := by
  show update m.link hook x g = m.link g
  rw [update_of_ne h]

/-- `x->block = b; x->size = n`. -/
def put (x : ℕ) (b : ℤ) (n : ℕ) (m : arena) : arena :=
  { m with block := update m.block x b, size := update m.size x n }

@[simp] theorem put_info_self (x : ℕ) (b : ℤ) (n : ℕ) (m : arena) :
    (m.put x b n).info x = (b, n) := by
  show (update m.block x b x, update m.size x n x) = (b, n)
  rw [update_self, update_self]

theorem put_info_of_ne {x a : ℕ} (h : a ≠ x) (b : ℤ) (n : ℕ) (m : arena) :
    (m.put x b n).info a = m.info a := by
  show (update m.block x b a, update m.size x n a) = (m.block a, m.size a)
  rw [update_of_ne h, update_of_ne h]

end arena

/-- `weight(x)`. -/
def weight (x : ℕ) (m : arena) : ℕ := if x = NIL then 0 else m.size x

/-! ## insert -/

/-- The search "for the first node which has a weight less than that of the new node". -/
def search (newblk : ℤ) (len : ℕ) (m : arena) : ℕ → Hook → Option Hook
  | 0, _ => none
  | fuel + 1, fpp =>
    let x := m.link fpp
    if weight x m ≥ len then
      if x = NIL then none
      else if newblk < m.block x then search newblk len m fuel (.left x)
      else search newblk len m fuel (.right x)
    else some fpp

/-- "Perform root insertion." -/
def rootInsert (newblk : ℤ) : ℕ → Hook → Hook → ℕ → arena → Option arena
  | 0, _, _, _, _ => none
  | fuel + 1, left_hook, right_hook, x, m =>
    if x ≠ NIL then
      if m.block x < newblk then
        let m := m.set left_hook x
        rootInsert newblk fuel (.right x) right_hook (m.link (.right x)) m
      else
        let m := m.set right_hook x
        rootInsert newblk fuel left_hook (.left x) (m.link (.left x)) m
    else some ((m.set right_hook NIL).set left_hook NIL)

/-- The new header in the place `fpp`. -/
def place (newhdr : ℕ) (newblk : ℤ) (len : ℕ) (fpp : Hook) (m : arena) : arena :=
  (((m.set fpp newhdr).set (.left newhdr) NIL).set (.right newhdr) NIL).put newhdr newblk len

/-- The body of `insert`, with `getfreehdr` as given. -/
def insertWith (getfreehdr : arena → ℕ × arena) (fuel : ℕ) (newblk : ℤ) (len : ℕ) (tree : Hook)
    (m : arena) : Option arena := do
  let fpp ← search newblk len m fuel tree
  let x := m.link fpp
  let (newhdr, m) := getfreehdr m
  rootInsert newblk fuel (.left newhdr) (.right newhdr) x (place newhdr newblk len fpp m)

/-- `getfreehdr()`, where `fresh` is the next header of the array if the list is empty. -/
def getfreehdr (fresh : ℕ) (m : arena) : ℕ × arena :=
  if m.freehdrlist ≠ NIL then
    (m.freehdrlist, { m with freehdrlist := m.link (.left m.freehdrlist) })
  else (fresh, m)

/-- `insert(newblk, len)`. -/
def insert (fresh fuel : ℕ) (newblk : ℤ) (len : ℕ) (m : arena) : Option arena :=
  (insertWith (getfreehdr fresh) fuel newblk len .root m).map fun m =>
    { m with length := update m.length newblk len }

/-! ## delete -/

/-- The loop of `delete`; with `checked`, blocks of length 0 are looked out for. -/
def mergeBranches (checked : Bool) : ℕ → Hook → ℕ → ℕ → arena → Option arena
  | 0, _, _, _, _ => none
  | fuel + 1, p, left_branch, right_branch, m =>
    if left_branch ≠ right_branch then
      if weight left_branch m ≥ weight right_branch m then
        if left_branch ≠ NIL then
          if checked ∧ weight left_branch m = 0 then some ({ m with errno := EINVAL }.set p NIL)
          else
            let m := m.set p left_branch
            mergeBranches checked fuel (.right left_branch) (m.link (.right left_branch))
              right_branch m
        else if checked then mergeBranches checked fuel p left_branch right_branch m
        else none
      else
        if right_branch ≠ NIL then
          if checked ∧ weight right_branch m = 0 then some ({ m with errno := EINVAL }.set p NIL)
          else
            let m := m.set p right_branch
            mergeBranches checked fuel (.left right_branch) left_branch
              (m.link (.left right_branch)) m
        else if checked then mergeBranches checked fuel p left_branch right_branch m
        else none
    else some (m.set p NIL)

/-- The body of `delete`, without the return of the header. -/
def deleteWith (checked : Bool) (fuel : ℕ) (p : Hook) (m : arena) : Option arena :=
  let x := m.link p
  if x = NIL then none
  else mergeBranches checked fuel p (m.link (.left x)) (m.link (.right x)) m

/-- `putfreehdr(p)`. -/
def putfreehdr (p : ℕ) (m : arena) : arena :=
  { m.set (.left p) m.freehdrlist with freehdrlist := p }

/-- `delete(p)`. -/
def delete (fuel : ℕ) (p : Hook) (m : arena) : Option arena :=
  (deleteWith true fuel p m).map (putfreehdr (m.link p))

/-! ## demote -/

/-- The loop of `demote`, and the node's attachment behind it. -/
def demoteBelow (x : ℕ) : ℕ → Hook → ℕ → ℕ → arena → Option arena
  | 0, _, _, _, _ => none
  | fuel + 1, p, left_branch, right_branch, m =>
    if weight left_branch m > weight x m ∨ weight right_branch m > weight x m then
      if weight left_branch m ≥ weight right_branch m then
        let m := m.set p left_branch
        demoteBelow x fuel (.right left_branch) (m.link (.right left_branch)) right_branch m
      else
        let m := m.set p right_branch
        demoteBelow x fuel (.left right_branch) left_branch (m.link (.left right_branch)) m
    else some (((m.set p x).set (.left x) left_branch).set (.right x) right_branch)

/-- `demote(p)`. -/
def demote (fuel : ℕ) (p : Hook) (m : arena) : Option arena :=
  let x := m.link p
  if x = NIL then none
  else demoteBelow x fuel p (m.link (.left x)) (m.link (.right x)) m

/-! ## The loops rebuild the trees -/

open CartesianTree (node nil split merge Between)

variable {m : arena} {t l r : CartesianTree ℤ ℕ} {as ls rs : List ℕ} {x fuel : ℕ}

/-- A tree in the arena. -/
abbrev Holds (m : arena) (t : CartesianTree ℤ ℕ) (as : List ℕ) (x : ℕ) : Prop :=
  Rep m.info m.link t as x

theorem Holds.set {p : Hook} {y : ℕ} (h : Holds m t as x) (hp : ¬ p.In as) :
    Holds (m.set p y) t as x := by
  apply Rep.congr h
  · intro g hg
    apply m.set_link_of_ne
    rintro rfl
    exact hp hg
  · exact fun _ _ => rfl

theorem Holds.weight_nil (h : Holds m nil as x) : weight x m = 0 := if_pos h.1

theorem Holds.weight_node {k : ℤ} {w : ℕ} (h : Holds m (node l k w r) as x) : weight x m = w := by
  rw [weight, if_neg (show x ≠ NIL from h.1)]
  exact congrArg Prod.snd h.2.1

theorem hook_ne {g h : Hook} (hg : g.In as) (hh : ¬ h.In as) : g ≠ h := by
  rintro rfl
  exact hh hg

/-- **Root insertion splits the tree** below the two hooks. -/
theorem rootInsert_spec (newblk : ℤ) : ∀ (t : CartesianTree ℤ ℕ) (as : List ℕ) (lh rh : Hook)
    (x fuel : ℕ) (m : arena), Holds m t as x → as.Nodup → ¬ lh.In as → ¬ rh.In as → lh ≠ rh →
    as.length < fuel → ∃ link' ls rs, rootInsert newblk fuel lh rh x m =
        some { m with link := link' } ∧ as = ls ++ rs ∧
      Rep m.info link' (split newblk t).1 ls (link' lh) ∧
      Rep m.info link' (split newblk t).2 rs (link' rh) ∧
      ∀ g : Hook, g ≠ lh → g ≠ rh → ¬ g.In as → link' g = m.link g := by
  intro t
  induction t with
  | nil =>
    rintro as lh rh x fuel m ⟨rfl, rfl⟩ - - - hne hfuel
    obtain ⟨fuel, rfl⟩ := Nat.exists_eq_succ_of_ne_zero (Nat.ne_of_gt hfuel)
    refine ⟨((m.set rh NIL).set lh NIL).link, [], [], ?_, rfl, ⟨?_, rfl⟩, ⟨?_, rfl⟩, ?_⟩
    · rfl
    · exact arena.set_link_self lh NIL (m.set rh NIL)
    · rw [arena.set_link_of_ne hne.symm, arena.set_link_self]
      rfl
    · intro g hgl hgr _
      rw [arena.set_link_of_ne hgl, arena.set_link_of_ne hgr]
  | node l k w r ihl ihr =>
    rintro as lh rh x fuel m ⟨hx, hinfo, ls, rs, rfl, hL, hR⟩ hn hlh hrh hne hfuel
    obtain ⟨fuel, rfl⟩ := Nat.exists_eq_succ_of_ne_zero (Nat.ne_zero_of_lt hfuel)
    obtain ⟨hnl, hnr, hxl, hxr, hd⟩ := nodup_node hn
    have hblock : m.block x = k := congrArg Prod.fst hinfo
    rw [length_append, length_cons] at hfuel
    have hlout : ∀ {h : Hook}, ¬ h.In (ls ++ x :: rs) → ¬ h.In ls ∧ ¬ h.In rs ∧
        h ≠ .left x ∧ h ≠ .right x := by
      intro h hh
      rw [Hook.in_append, Hook.in_cons] at hh
      tauto
    obtain ⟨hlhl, hlhr, hlhx, hlhx'⟩ := hlout hlh
    obtain ⟨hrhl, hrhr, hrhx, hrhx'⟩ := hlout hrh
    rw [rootInsert, if_pos (show x ≠ NIL from hx), hblock, split]
    by_cases hk : k < newblk
    · -- the link is crossed from the left: `x` goes below the left hook
      have hR' : Holds (m.set lh x) r rs ((m.set lh x).link (.right x)) := by
        rw [arena.set_link_of_ne hlhx'.symm]
        exact Holds.set hR hlhr
      obtain ⟨link', rs1, rs2, hrun, rfl, h1, h2, hkeep⟩ := ihr rs (.right x) rh _ fuel _ hR' hnr
        hxr hrhr hrhx'.symm (by omega)
      refine ⟨link', ls ++ x :: rs1, rs2, ?_, by simp, ?_, ?_, ?_⟩
      · rw [if_pos hk]
        exact hrun
      · rw [if_pos hk, hkeep lh hlhx' hne hlhr, arena.set_link_self]
        refine ⟨hx, hinfo, ls, rs1, rfl, ?_, h1⟩
        have hkeep' : ∀ g : Hook, g = .left x ∨ g.In ls → link' g = m.link g := by
          intro g hg
          obtain ⟨hin, hgx, hgrs⟩ := left_side hn hg
          rw [hkeep g hgx (hook_ne hin hrh) hgrs, arena.set_link_of_ne (hook_ne hin hlh)]
        rw [hkeep' _ (Or.inl rfl)]
        exact Rep.congr hL (fun g hg => hkeep' g (Or.inr hg)) fun _ _ => rfl
      · rw [if_pos hk]
        exact h2
      · intro g hgl hgr hg
        obtain ⟨-, hgrs, -, hgx⟩ := hlout hg
        rw [hkeep g hgx hgr hgrs, arena.set_link_of_ne hgl]
    · have hL' : Holds (m.set rh x) l ls ((m.set rh x).link (.left x)) := by
        rw [arena.set_link_of_ne hrhx.symm]
        exact Holds.set hL hrhl
      obtain ⟨link', ls1, ls2, hrun, rfl, h1, h2, hkeep⟩ := ihl ls lh (.left x) _ fuel _ hL' hnl
        hlhl hxl hlhx (by omega)
      refine ⟨link', ls1, ls2 ++ x :: rs, ?_, by simp, ?_, ?_, ?_⟩
      · rw [if_neg hk]
        exact hrun
      · rw [if_neg hk]
        exact h1
      · rw [if_neg hk, hkeep rh hne.symm hrhx hrhl, arena.set_link_self]
        refine ⟨hx, hinfo, ls2, rs, rfl, h2, ?_⟩
        have hkeep' : ∀ g : Hook, g = .right x ∨ g.In rs → link' g = m.link g := by
          intro g hg
          obtain ⟨hin, hgx, hgls⟩ := right_side hn hg
          rw [hkeep g (hook_ne hin hlh) hgx hgls, arena.set_link_of_ne (hook_ne hin hrh)]
        rw [hkeep' _ (Or.inl rfl)]
        exact Rep.congr hR (fun g hg => hkeep' g (Or.inr hg)) fun _ _ => rfl
      · intro g hgl hgr hg
        obtain ⟨hgls, -, hgx, -⟩ := hlout hg
        rw [hkeep g hgl hgx hgls, arena.set_link_of_ne hgr]

section Place

variable {m' : arena} {h : ℕ} {newblk : ℤ} {len : ℕ} {fpp : Hook}

variable {t' : CartesianTree ℤ ℕ}

/-- `m'` is `m` with the tree `t'` below the link `fpp`, of which only links in the nodes `as` and
in `h` were rewritten, and with `h` the header of the new block. -/
structure Placed (m m' : arena) (fpp : Hook) (as : List ℕ) (h : ℕ) (newblk : ℤ) (len : ℕ)
    (t' : CartesianTree ℤ ℕ) : Prop where
  rest : m' = { m.put h newblk len with link := m'.link }
  tree : ∃ ls rs, as = ls ++ rs ∧ Holds m' t' (ls ++ h :: rs) (m'.link fpp)
  keep : ∀ g : Hook, g ≠ fpp → ¬ g.In as → ¬ g.In [h] → m'.link g = m.link g

theorem Placed.info_self (hp : Placed m m' fpp as h newblk len t') : m'.info h = (newblk, len) := by
  rw [hp.rest]
  exact m.put_info_self h newblk len

theorem Placed.info_of_ne (hp : Placed m m' fpp as h newblk len t')
    {a : ℕ} (ha : a ≠ h) : m'.info a = m.info a := by
  rw [hp.rest]
  exact m.put_info_of_ne ha newblk len

/-- A tree elsewhere stays. -/
theorem Placed.other {m1 : arena} {cs : List ℕ}
    (hp : Placed m1 m' fpp cs h newblk len t') (ht : Holds m t as x)
    (hlink : ∀ g : Hook, g.In as → m1.link g = m.link g) (hinfo : ∀ a ∈ as, m1.info a = m.info a)
    (hf : ¬ fpp.In as) (hd : as.Disjoint cs) (hha : h ∉ as) : Holds m' t as x := by
  apply Rep.congr ht
  · intro g hg
    have hgh : ¬ g.In [h] :=
      Hook.not_in_of_disjoint (fun a ha hs => hha (mem_singleton.mp hs ▸ ha)) hg
    rw [hp.keep g (hook_ne hg hf) (Hook.not_in_of_disjoint hd hg) hgh, hlink g hg]
  · intro a ha
    rw [hp.info_of_ne (ne_of_mem_of_not_mem ha hha), hinfo a ha]

/-- The new node takes the place of the tree below `fpp`, whose halves go below it. -/
theorem placed_here (newblk : ℤ) (len : ℕ) (hh : h ≠ NIL) (hf : ¬ fpp.In (h :: as))
    (hn : (h :: as).Nodup)
    (ht : Holds m t as (m.link fpp)) (hfuel : as.length < fuel) :
    ∃ m', rootInsert newblk fuel (.left h) (.right h) (m.link fpp) (place h newblk len fpp m) =
        some m' ∧ Placed m m' fpp as h newblk len
          (node (split newblk t).1 newblk len (split newblk t).2) := by
  obtain ⟨hha, hna⟩ := nodup_cons.mp hn
  rw [Hook.in_cons] at hf
  obtain ⟨hfl, hfr, hfa⟩ : fpp ≠ .left h ∧ fpp ≠ .right h ∧ ¬ fpp.In as := by tauto
  set m1 := place h newblk len fpp m with hm1
  have hlink : ∀ g : Hook, g ≠ fpp → g ≠ .left h → g ≠ .right h → m1.link g = m.link g := by
    intro g hg hgl hgr
    show (((m.set fpp h).set (.left h) NIL).set (.right h) NIL).link g = m.link g
    rw [arena.set_link_of_ne hgr, arena.set_link_of_ne hgl, arena.set_link_of_ne hg]
  have hfpp : m1.link fpp = h := by
    show (((m.set fpp h).set (.left h) NIL).set (.right h) NIL).link fpp = h
    rw [arena.set_link_of_ne hfr, arena.set_link_of_ne hfl, arena.set_link_self]
  have hinfo : ∀ a ∈ as, m1.info a = m.info a := by
    intro a ha
    exact m.put_info_of_ne (ne_of_mem_of_not_mem ha hha) newblk len
  have ht1 : Holds m1 t as (m.link fpp) := by
    apply Rep.congr ht _ hinfo
    intro g hg
    apply hlink g (hook_ne hg hfa)
    · exact hook_ne hg hha
    · exact hook_ne hg hha
  obtain ⟨link', ls, rs, hrun, hsplit, hl, hr, hkeep⟩ := rootInsert_spec newblk t as (.left h)
    (.right h) (m.link fpp) fuel m1 ht1 hna hha hha (fun he => Hook.noConfusion he) hfuel
  refine ⟨_, hrun, rfl, ⟨ls, rs, hsplit, ?_⟩, ?_⟩
  · show Rep m1.info link' _ _ (link' fpp)
    rw [hkeep fpp hfl hfr hfa, hfpp]
    exact ⟨hh, m.put_info_self h newblk len, ls, rs, rfl, hl, hr⟩
  · intro g hgf hga hgh
    rw [Hook.in_cons] at hgh
    obtain ⟨hgl, hgr⟩ : g ≠ .left h ∧ g ≠ .right h := by tauto
    exact (hkeep g hgl hgr hga).trans (hlink g hgf hgl hgr)

/-- **The search and the root insertion** insert into the tree.  In between `getfreehdr` may
rewrite the links outside of the tree, from `m` to `m1`. -/
theorem insert_spec (newblk : ℤ) {m1 : arena} (hh : h ≠ NIL) (hlen : 0 < len) {f : ℕ} :
    ∀ (t : CartesianTree ℤ ℕ) (as : List ℕ) (fpp : Hook) (fuel : ℕ), Holds m t as (m.link fpp) →
      (h :: as).Nodup → ¬ fpp.In (h :: as) →
      (∀ g : Hook, g = fpp ∨ g.In as → m1.link g = m.link g) →
      (∀ a ∈ as, m1.info a = m.info a) → as.length < fuel → as.length < f →
      ∃ q m', search newblk len m fuel fpp = some q ∧
        rootInsert newblk f (.left h) (.right h) (m.link q) (place h newblk len q m1) = some m' ∧
        Placed m1 m' fpp as h newblk len (t.insert newblk len) := by
  intro t
  induction t with
  | nil =>
    intro as fpp fuel ht hn hf hlink hinfo hfuel hf'
    obtain ⟨fuel, rfl⟩ := Nat.exists_eq_succ_of_ne_zero (Nat.ne_zero_of_lt hfuel)
    have hfpp := hlink fpp (Or.inl rfl)
    obtain ⟨m', hrun, hplaced⟩ := placed_here newblk len hh hf hn (t := nil) (m := m1)
      (hfpp ▸ ht) hf'
    refine ⟨fpp, m', ?_, hfpp ▸ hrun, hplaced⟩
    rw [search, ht.weight_nil, if_neg (by omega)]
  | node l k w r ihl ihr =>
    intro as fpp fuel ht hn hf hlink hinfo hfuel hf'
    obtain ⟨fuel, rfl⟩ := Nat.exists_eq_succ_of_ne_zero (Nat.ne_zero_of_lt hfuel)
    have hfpp := hlink fpp (Or.inl rfl)
    rw [search, ht.weight_node, CartesianTree.insert]
    by_cases hw : len ≤ w
    · obtain ⟨hx, hxinfo, ls, rs, rfl, hL, hR⟩ := ht
      generalize hroot : m.link fpp = x at *
      have hblock : m.block x = k := congrArg Prod.fst hxinfo
      rw [length_append, length_cons] at hfuel hf'
      obtain ⟨hha, hna⟩ := nodup_cons.mp hn
      obtain ⟨hnl, hnr, hxl, hxr, hd⟩ := nodup_node hna
      have hhx : h ≠ x := fun he => hha (he ▸ mem_append_right _ mem_cons_self)
      have hhl : h ∉ ls := fun hm => hha (mem_append_left _ hm)
      have hhr : h ∉ rs := fun hm => hha (mem_append_right _ (mem_cons_of_mem _ hm))
      rw [Hook.in_cons] at hf
      obtain ⟨hfl, hfr, hfa⟩ : fpp ≠ .left h ∧ fpp ≠ .right h ∧ ¬ fpp.In (ls ++ x :: rs) := by
        tauto
      rw [if_pos hw, if_pos hw, if_neg (show x ≠ NIL from hx), hblock]
      have hlm : ls ⊆ ls ++ x :: rs := subset_append_left _ _
      have hrm : rs ⊆ ls ++ x :: rs := fun a ha =>
        mem_append_right _ (mem_cons_of_mem _ ha)
      have hxmem : x ∈ ls ++ x :: rs := mem_append_right _ mem_cons_self
      have hlx : (Hook.left x).In (ls ++ x :: rs) := hxmem
      have hrx : (Hook.right x).In (ls ++ x :: rs) := hxmem
      have hfh : ¬ fpp.In [h] := by
        rw [Hook.in_cons]
        rintro (hf | hf | hf)
        · exact hfl hf
        · exact hfr hf
        · exact Hook.not_in_nil hf
      have hxh : x ∉ [h] := fun hin => hhx (mem_singleton.mp hin).symm
      by_cases hk : newblk < k
      · -- the search goes on in the left subtree
        rw [if_pos hk, if_pos hk]
        obtain ⟨q, m', hq, hrun, hp⟩ := ihl ls (.left x) fuel hL (nodup_cons.mpr ⟨hhl, hnl⟩)
          (fun hin => (mem_cons.mp hin).elim hhx.symm hxl)
          (fun g hg => hlink g (Or.inr (left_side hna hg).1))
          (fun a ha => hinfo a (hlm ha)) (by omega) (by omega)
        refine ⟨q, m', hq, hrun, hp.rest, ?_, fun g hgf hga hgh => ?_⟩
        · obtain ⟨ls1, ls2, rfl, hT⟩ := hp.tree
          refine ⟨ls1, ls2 ++ x :: rs, by simp only [append_assoc], ?_⟩
          rw [hp.keep fpp (hook_ne hlx hfa).symm (fun hin => hfa (hin.mono hlm)) hfh, hfpp]
          refine ⟨hx, ?_, ls1 ++ h :: ls2, rs, by simp, hT, ?_⟩
          · rw [hp.info_of_ne hhx.symm, hinfo x hxmem, hxinfo]
          · rw [hp.keep (.right x) (fun he => Hook.noConfusion he) hxl hxh,
              hlink (.right x) (Or.inr hxmem)]
            exact hp.other hR (fun g hg => hlink g (Or.inr (hg.mono hrm)))
              (fun a ha => hinfo a (hrm ha)) hxr (fun a ha hb => hd hb ha) hhr
        · apply hp.keep g (hook_ne hlx hga).symm _ hgh
          exact fun hin => hga (hin.mono hlm)
      · rw [if_neg hk, if_neg hk]
        obtain ⟨q, m', hq, hrun, hp⟩ := ihr rs (.right x) fuel hR
          (nodup_cons.mpr ⟨hhr, hnr⟩)
          (fun hin => (mem_cons.mp hin).elim hhx.symm hxr)
          (fun g hg => hlink g (Or.inr (right_side hna hg).1))
          (fun a ha => hinfo a (hrm ha)) (by omega) (by omega)
        refine ⟨q, m', hq, hrun, hp.rest, ?_, fun g hgf hga hgh => ?_⟩
        · obtain ⟨rs1, rs2, rfl, hT⟩ := hp.tree
          refine ⟨ls ++ x :: rs1, rs2, by simp, ?_⟩
          rw [hp.keep fpp (hook_ne hrx hfa).symm (fun hin => hfa (hin.mono hrm)) hfh, hfpp]
          refine ⟨hx, ?_, ls, rs1 ++ h :: rs2, by simp, ?_, hT⟩
          · rw [hp.info_of_ne hhx.symm, hinfo x hxmem, hxinfo]
          · rw [hp.keep (.left x) (fun he => Hook.noConfusion he) hxr hxh,
              hlink (.left x) (Or.inr hxmem)]
            exact hp.other hL (fun g hg => hlink g (Or.inr (hg.mono hlm)))
              (fun a ha => hinfo a (hlm ha)) hxl hd hhl
        · apply hp.keep g (hook_ne hrx hga).symm _ hgh
          exact fun hin => hga (hin.mono hrm)
    · rw [if_neg hw, if_neg hw]
      obtain ⟨m', hrun, hplaced⟩ := placed_here newblk len hh hf hn (m := m1)
        (hfpp ▸ Rep.congr ht (fun g hg => hlink g (Or.inr hg)) hinfo) hf'
      exact ⟨fpp, m', rfl, hfpp ▸ hrun, hplaced⟩

end Place

section Promote

/-- `m` became `o`: only links in and under `p` were set, and there is the tree `t` now. -/
def Rebuilt (m : arena) (o : Option arena) (p : Hook) (t : CartesianTree ℤ ℕ) (as : List ℕ) :
    Prop :=
  ∃ link', o = some { m with link := link' } ∧ Rep m.info link' t as (link' p) ∧
    ∀ g : Hook, g ≠ p → ¬ g.In as → link' g = m.link g

variable {o : Option arena} {p : Hook} {cs : List ℕ} {k : ℤ} {w : ℕ} {T : CartesianTree ℤ ℕ}

/-- The root of the left branch was promoted into `p`, and its right subtree rebuilt. -/
theorem promoted_left (hx : x ≠ NIL) (hinfo : m.info x = (k, w))
    (hL : Holds m l ls (m.link (.left x))) (hn : (ls ++ x :: cs).Nodup)
    (hp : ¬ p.In (ls ++ x :: cs)) (h : Rebuilt (m.set p x) o (.right x) T cs) :
    Rebuilt m o p (node l k w T) (ls ++ x :: cs) := by
  obtain ⟨link', hrun, hT, hkeep⟩ := h
  have hleft : ∀ g : Hook, g = .left x ∨ g.In ls → link' g = m.link g := by
    intro g hg
    obtain ⟨hin, hgx, hgc⟩ := left_side hn hg
    rw [hkeep g hgx hgc, arena.set_link_of_ne (hook_ne hin hp)]
  have hpc : ∀ {g : Hook}, ¬ g.In (ls ++ x :: cs) → g ≠ .right x ∧ ¬ g.In cs := by
    intro g hg
    rw [Hook.in_append, Hook.in_cons] at hg
    tauto
  refine ⟨link', hrun, ?_, fun g hgp hg => ?_⟩
  · rw [hkeep p (hpc hp).1 (hpc hp).2, arena.set_link_self]
    refine ⟨hx, hinfo, ls, cs, rfl, ?_, hT⟩
    rw [hleft _ (Or.inl rfl)]
    exact Rep.congr hL (fun g hg => hleft g (Or.inr hg)) fun _ _ => rfl
  · rw [hkeep g (hpc hg).1 (hpc hg).2, arena.set_link_of_ne hgp]

/-- The root of the right branch was promoted into `p`, and its left subtree rebuilt. -/
theorem promoted_right (hx : x ≠ NIL) (hinfo : m.info x = (k, w))
    (hR : Holds m r rs (m.link (.right x))) (hn : (cs ++ x :: rs).Nodup)
    (hp : ¬ p.In (cs ++ x :: rs)) (h : Rebuilt (m.set p x) o (.left x) T cs) :
    Rebuilt m o p (node T k w r) (cs ++ x :: rs) := by
  obtain ⟨link', hrun, hT, hkeep⟩ := h
  have hright : ∀ g : Hook, g = .right x ∨ g.In rs → link' g = m.link g := by
    intro g hg
    obtain ⟨hin, hgx, hgc⟩ := right_side hn hg
    rw [hkeep g hgx hgc, arena.set_link_of_ne (hook_ne hin hp)]
  have hpc : ∀ {g : Hook}, ¬ g.In (cs ++ x :: rs) → g ≠ .left x ∧ ¬ g.In cs := by
    intro g hg
    rw [Hook.in_append, Hook.in_cons] at hg
    tauto
  refine ⟨link', hrun, ?_, fun g hgp hg => ?_⟩
  · rw [hkeep p (hpc hp).1 (hpc hp).2, arena.set_link_self]
    refine ⟨hx, hinfo, cs, rs, rfl, hT, ?_⟩
    rw [hright _ (Or.inl rfl)]
    exact Rep.congr hR (fun g hg => hright g (Or.inr hg)) fun _ _ => rfl
  · rw [hkeep g (hpc hg).1 (hpc hg).2, arena.set_link_of_ne hgp]

/-- What is left of a branch once its root is promoted. -/
theorem Holds.promote {q : Hook} {y : ℕ} (h : Holds m t as (m.link q)) (hp : ¬ p.In as)
    (hq : q ≠ p) : Holds (m.set p y) t as ((m.set p y).link q) := by
  rw [arena.set_link_of_ne hq]
  exact Holds.set h hp

/-- **`delete` merges the branches** of the deleted node. -/
theorem mergeBranches_spec (checked : Bool) : ∀ (fuel : ℕ) (l r : CartesianTree ℤ ℕ)
    (ls rs : List ℕ) (p : Hook) (lb rb : ℕ) (m : arena), Holds m l ls lb → Holds m r rs rb →
    (ls ++ rs).Nodup → ¬ p.In (ls ++ rs) → (∀ a ∈ ls ++ rs, 0 < m.size a) →
    (ls ++ rs).length < fuel →
      Rebuilt m (mergeBranches checked fuel p lb rb m) p (l.merge r) (ls ++ rs) := by
  intro fuel
  induction fuel with
  | zero =>
    intro l r ls rs p lb rb m _ _ _ _ _ hfuel
    cases hfuel
  | succ fuel ih =>
    intro l r ls rs p lb rb m hl hr hn hp hpos hfuel
    have hleft : ∀ {ll lr : CartesianTree ℤ ℕ} {k : ℤ} {w : ℕ}, l = node ll k w lr →
        l.merge r = node ll k w (lr.merge r) → Rebuilt m (mergeBranches checked fuel (.right lb)
          ((m.set p lb).link (.right lb)) rb (m.set p lb)) p (l.merge r) (ls ++ rs) := by
      rintro ll lr k w rfl hmerge
      obtain ⟨hx, hinfo, lls, lrs, rfl, hL, hR⟩ := hl
      rw [append_assoc, cons_append] at hn hp hpos hfuel ⊢
      obtain ⟨hx', hn'⟩ := nodup_cons.mp (nodup_append'.mp hn).2.1
      rw [Hook.in_append, Hook.in_cons, Hook.in_append] at hp
      have hrest := ih lr r lrs rs (.right lb) _ rb (m.set p lb)
        (Holds.promote hR (by tauto) (Ne.symm (by tauto))) (Holds.set hr (by tauto)) hn' hx'
        (fun a ha => hpos a (mem_append_right _ (mem_cons_of_mem _ ha)))
        (by simp only [length_append, length_cons] at hfuel ⊢; omega)
      rw [hmerge]
      exact promoted_left hx hinfo hL hn
        (by rw [Hook.in_append, Hook.in_cons, Hook.in_append]; exact hp) hrest
    have hright : ∀ {rl rr : CartesianTree ℤ ℕ} {k : ℤ} {w : ℕ}, r = node rl k w rr →
        l.merge r = node (l.merge rl) k w rr → Rebuilt m (mergeBranches checked fuel (.left rb)
          lb ((m.set p rb).link (.left rb)) (m.set p rb)) p (l.merge r) (ls ++ rs) := by
      rintro rl rr k w rfl hmerge
      obtain ⟨hx, hinfo, rls, rrs, rfl, hL, hR⟩ := hr
      rw [← append_assoc] at hn hp hpos hfuel ⊢
      obtain ⟨hn', -, hx', -, -⟩ := nodup_node hn
      rw [Hook.in_append, Hook.in_append, Hook.in_cons] at hp
      have hrest := ih l rl ls rls (.left rb) lb _ (m.set p rb)
        (Holds.set hl (by tauto)) (Holds.promote hL (by tauto) (Ne.symm (by tauto))) hn' hx'
        (fun a ha => hpos a (mem_append_left _ ha))
        (by simp only [length_append, length_cons] at hfuel ⊢; omega)
      rw [hmerge]
      exact promoted_right hx hinfo hR hn
        (by rw [Hook.in_append, Hook.in_append, Hook.in_cons]; exact hp) hrest
    rw [mergeBranches]
    have hmem : ∀ {t : CartesianTree ℤ ℕ} {as : List ℕ} {y : ℕ}, Holds m t as y → as ⊆ ls ++ rs →
        y ≠ NIL → weight y m ≠ 0 := by
      intro t as y ht hsub hy
      rw [weight, if_neg hy]
      exact (hpos y (hsub (ht.mem hy))).ne'
    cases l with
    | nil =>
      have hlb : lb = NIL := hl.1
      cases r with
      | nil =>
        have hrb : rb = NIL := hr.1
        rw [if_neg (by rw [hlb, hrb]; exact not_not.mpr rfl)]
        refine ⟨(m.set p NIL).link, rfl, ?_, fun g hg _ => arena.set_link_of_ne hg NIL m⟩
        rw [hl.2, hr.2, arena.set_link_self]
        exact ⟨rfl, rfl⟩
      | node rl rk rw rr =>
        have hrb : rb ≠ NIL := hr.1
        have hw := hmem hr (subset_append_right _ _) hrb
        rw [if_pos (by rw [hlb]; exact hrb.symm), hl.weight_nil, if_neg (by omega), if_pos hrb,
          if_neg (fun hc => hw hc.2)]
        exact hright rfl rfl
    | node ll lk lw lr =>
      have hlb : lb ≠ NIL := hl.1
      have hw := hmem hl (subset_append_left _ _) hlb
      cases r with
      | nil =>
        have hrb : rb = NIL := hr.1
        rw [if_pos (by rw [hrb]; exact hlb), hr.weight_nil, if_pos (Nat.zero_le _), if_pos hlb,
          if_neg (fun hc => hw hc.2)]
        apply hleft rfl
        rw [CartesianTree.merge_nil, CartesianTree.merge_nil]
      | node rl rk rw rr =>
        have hrb : rb ≠ NIL := hr.1
        have hw' := hmem hr (subset_append_right _ _) hrb
        have hne : lb ≠ rb := by
          rintro rfl
          exact (nodup_append'.mp hn).2.2 (hl.mem hlb) (hr.mem hrb)
        have hiff : weight lb m ≥ weight rb m ↔ rw ≤ lw := by
          rw [hl.weight_node, hr.weight_node]
        rw [if_pos hne]
        by_cases hle : rw ≤ lw
        · rw [if_pos (hiff.mpr hle), if_pos hlb, if_neg (fun hc => hw hc.2)]
          exact hleft rfl (by rw [CartesianTree.node_merge_node, if_pos hle])
        · rw [if_neg (fun hc => hle (hiff.mp hc)), if_pos hrb, if_neg (fun hc => hw' hc.2)]
          exact hright rfl (by rw [CartesianTree.node_merge_node, if_neg hle])

/-- The demoted node `x` in its place. -/
theorem attached {lb rb : ℕ} (hx : x ≠ NIL) (hinfo : m.info x = (k, w)) (hl : Holds m l ls lb)
    (hr : Holds m r rs rb) (hn : (ls ++ x :: rs).Nodup) (hp : ¬ p.In (ls ++ x :: rs)) :
    Rebuilt m (some (((m.set p x).set (.left x) lb).set (.right x) rb)) p (node l k w r)
      (ls ++ x :: rs) := by
  obtain ⟨hlx, hlr, -⟩ := left_side hn (g := .left x) (Or.inl rfl)
  obtain ⟨hrx, -, -⟩ := right_side hn (g := .right x) (Or.inl rfl)
  obtain ⟨-, -, hxl, hxr, -⟩ := nodup_node hn
  have hout : ∀ {t : CartesianTree ℤ ℕ} {as : List ℕ} {y : ℕ}, Holds m t as y →
      as ⊆ ls ++ x :: rs → x ∉ as →
      Holds (((m.set p x).set (.left x) lb).set (.right x) rb) t as y := by
    intro t as y ht hsub hxa
    have hlx' : ¬ (Hook.left x).In as := hxa
    have hrx' : ¬ (Hook.right x).In as := hxa
    exact ((Holds.set ht fun hin => hp (hin.mono hsub)).set hlx').set hrx'
  refine ⟨(((m.set p x).set (.left x) lb).set (.right x) rb).link, rfl, ?_, fun g hgp hg => ?_⟩
  · rw [arena.set_link_of_ne (hook_ne hrx hp).symm, arena.set_link_of_ne (hook_ne hlx hp).symm,
      arena.set_link_self]
    refine ⟨hx, hinfo, ls, rs, rfl, ?_, ?_⟩
    · rw [arena.set_link_of_ne hlr, arena.set_link_self]
      exact hout hl (subset_append_left _ _) hxl
    · rw [arena.set_link_self]
      exact hout hr (fun a ha => mem_append_right _ (mem_cons_of_mem _ ha)) hxr
  · rw [arena.set_link_of_ne (hook_ne hrx hg).symm, arena.set_link_of_ne (hook_ne hlx hg).symm,
      arena.set_link_of_ne hgp]

/-- **`demote` moves the node down** between its branches. -/
theorem demoteBelow_spec (hx : x ≠ NIL) : ∀ (fuel : ℕ) (l r : CartesianTree ℤ ℕ)
    (ls rs : List ℕ) (p : Hook) (lb rb : ℕ) (m : arena), m.info x = (k, w) → Holds m l ls lb →
    Holds m r rs rb → (ls ++ x :: rs).Nodup → ¬ p.In (ls ++ x :: rs) →
    (ls ++ x :: rs).length < fuel → Rebuilt m (demoteBelow x fuel p lb rb m) p
      (CartesianTree.demote k w l r) (ls ++ x :: rs) := by
  intro fuel
  induction fuel with
  | zero =>
    intro l r ls rs p lb rb m _ _ _ _ _ hfuel
    cases hfuel
  | succ fuel ih =>
    intro l r ls rs p lb rb m hinfo hl hr hn hp hfuel
    have hwx : weight x m = w := by
      rw [weight, if_neg hx]
      exact congrArg Prod.snd hinfo
    have hleft : ∀ {ll lr : CartesianTree ℤ ℕ} {k' : ℤ} {w' : ℕ}, l = node ll k' w' lr →
        CartesianTree.demote k w l r = node ll k' w' (CartesianTree.demote k w lr r) → Rebuilt m
          (demoteBelow x fuel (.right lb) ((m.set p lb).link (.right lb)) rb (m.set p lb)) p
          (CartesianTree.demote k w l r) (ls ++ x :: rs) := by
      rintro ll lr k' w' rfl hdemote
      obtain ⟨hlb, hlinfo, lls, lrs, rfl, hL, hR⟩ := hl
      rw [append_assoc, cons_append] at hn hp hfuel ⊢
      obtain ⟨hlb', hn'⟩ := nodup_cons.mp (nodup_append'.mp hn).2.1
      rw [Hook.in_append, Hook.in_cons, Hook.in_append, Hook.in_cons] at hp
      have hrest := ih lr r lrs rs (.right lb) _ rb (m.set p lb) hinfo
        (Holds.promote hR (by tauto) (Ne.symm (by tauto))) (Holds.set hr (by tauto)) hn' hlb'
        (by simp only [length_append, length_cons] at hfuel ⊢; omega)
      rw [hdemote]
      exact promoted_left hlb hlinfo hL hn
        (by rw [Hook.in_append, Hook.in_cons, Hook.in_append, Hook.in_cons]; exact hp) hrest
    have hright : ∀ {rl rr : CartesianTree ℤ ℕ} {k' : ℤ} {w' : ℕ}, r = node rl k' w' rr →
        CartesianTree.demote k w l r = node (CartesianTree.demote k w l rl) k' w' rr → Rebuilt m
          (demoteBelow x fuel (.left rb) lb ((m.set p rb).link (.left rb)) (m.set p rb)) p
          (CartesianTree.demote k w l r) (ls ++ x :: rs) := by
      rintro rl rr k' w' rfl hdemote
      obtain ⟨hrb, hrinfo, rls, rrs, rfl, hL, hR⟩ := hr
      rw [← cons_append, ← append_assoc] at hn hp hfuel ⊢
      obtain ⟨hn', -, hrb', -, -⟩ := nodup_node hn
      rw [Hook.in_append, Hook.in_append, Hook.in_cons, Hook.in_cons] at hp
      have hrest := ih l rl ls rls (.left rb) lb _ (m.set p rb) hinfo
        (Holds.set hl (by tauto)) (Holds.promote hL (by tauto) (Ne.symm (by tauto))) hn' hrb'
        (by simp only [length_append, length_cons] at hfuel ⊢; omega)
      rw [hdemote]
      exact promoted_right hrb hrinfo hR hn
        (by rw [Hook.in_append, Hook.in_append, Hook.in_cons, Hook.in_cons]; exact hp) hrest
    have hstop := attached hx hinfo hl hr hn hp
    rw [demoteBelow, hwx]
    cases l with
    | nil =>
      cases r with
      | nil =>
        rw [if_neg (by rw [hl.weight_nil, hr.weight_nil]; omega)]
        exact hstop
      | node rl rk rw rr =>
        rw [hl.weight_nil, hr.weight_node]
        by_cases hlt : w < rw
        · rw [if_pos (Or.inr hlt), if_neg (by omega)]
          exact hright rfl (if_pos hlt)
        · rw [if_neg (by omega), CartesianTree.demote, CartesianTree.demoteNil, if_neg hlt]
          exact hstop
    | node ll lk lw lr =>
      cases r with
      | nil =>
        rw [hl.weight_node, hr.weight_nil]
        by_cases hlt : w < lw
        · rw [if_pos (Or.inl hlt), if_pos (Nat.zero_le _)]
          exact hleft rfl (if_pos hlt)
        · rw [if_neg (by omega), CartesianTree.demote, CartesianTree.demoteNode, if_neg hlt]
          exact hstop
      | node rl rk rw rr =>
        rw [hl.weight_node, hr.weight_node]
        by_cases hlt : w < lw ∨ w < rw
        · rw [if_pos hlt]
          by_cases hle : rw ≤ lw
          · rw [if_pos hle]
            exact hleft rfl ((if_pos hlt).trans (if_pos hle))
          · rw [if_neg hle]
            exact hright rfl ((if_pos hlt).trans (if_neg hle))
        · rw [if_neg hlt, CartesianTree.demote, CartesianTree.demoteNode, if_neg hlt]
          exact hstop

end Promote

/-! ## The Cartesian tree is kept -/

/-- The headers `as` hold the blocks of a Cartesian tree, in order by their addresses, and the
headers `fs` are free. -/
structure Free (m : arena) (as fs : List ℕ) : Prop where
  tree : ∃ t, Holds m t as (m.link .root) ∧ t.Heap
  order : as.Pairwise fun a b => m.block a < m.block b
  positive : ∀ a ∈ as, 0 < m.size a
  spare : Chain (fun a => m.link (.left a)) m.freehdrlist fs
  apart : (as ++ fs).Nodup

/-- A header for the tree `as`: `x`, with `fs` free thereafter and the memory `m1`. -/
structure Gets (m : arena) (as : List ℕ) (x : ℕ) (fs : List ℕ) (m1 : arena) : Prop where
  ne : x ≠ NIL
  apart : (x :: (as ++ fs)).Nodup
  link : ∀ g : Hook, g = .root ∨ g.In as → m1.link g = m.link g
  info : ∀ a ∈ as, m1.info a = m.info a
  spare : Chain (fun a => m1.link (.left a)) m1.freehdrlist fs

/-- The block of `len` bytes at `newblk` and those in the tree do not overlap. -/
def NonOverlapping (m : arena) (as : List ℕ) (newblk : ℤ) (len : ℕ) : Prop :=
  ∀ a ∈ as, m.block a + m.size a ≤ newblk ∨ newblk + len ≤ m.block a

/-- The result of an insertion: the tree has the new block besides, and `x` is its header. -/
def Inserted (m : arena) (as fs : List ℕ) (newblk : ℤ) (len x : ℕ) (m' : arena) : Prop :=
  ∃ ls rs, as = ls ++ rs ∧ Free m' (ls ++ x :: rs) fs ∧ m'.info x = (newblk, len) ∧
    ∀ a ∈ as, m'.info a = m.info a

variable {fs : List ℕ} {newblk : ℤ} {len : ℕ}

theorem Holds.keys (h : Holds m t as x) (ho : as.Pairwise fun a b => m.block a < m.block b) :
    t.toList.Pairwise fun a b => a.1 < b.1 := by
  rw [h.toList, pairwise_map]
  exact ho

theorem insertWith_spec {getfreehdr : arena → ℕ × arena} {m1 : arena} {fs' : List ℕ}
    (h : Free m as fs) (hg : Gets m as x fs' m1) (hget : getfreehdr m = (x, m1)) (hlen : 0 < len)
    (hsep : NonOverlapping m as newblk len) (hfuel : as.length < fuel) :
    ∃ m', insertWith getfreehdr fuel newblk len .root m = some m' ∧
      Inserted m as fs' newblk len x m' := by
  obtain ⟨t, ht, hheap⟩ := h.tree
  have hn : (x :: as).Nodup :=
    hg.apart.sublist ((sublist_append_left as fs').cons_cons x)
  obtain ⟨q, m', hq, hrun, hp⟩ := insert_spec newblk hg.ne hlen t as .root fuel ht hn
    (fun hin => hin) hg.link hg.info hfuel hfuel
  obtain ⟨ls, rs, rfl, hT⟩ := hp.tree
  have hx : x ∉ ls ++ rs := (nodup_cons.mp hn).1
  have hinfo : ∀ a ∈ ls ++ rs, m'.info a = m.info a := by
    intro a ha
    rw [hp.info_of_ne (ne_of_mem_of_not_mem ha hx), hg.info a ha]
  refine ⟨m', ?_, ls, rs, rfl, ?_, hp.info_self, hinfo⟩
  · rw [insertWith, hq, hget]
    exact hrun
  · refine ⟨⟨_, hT, hheap.insert newblk len⟩, ?_, ?_, ?_, ?_⟩
    · -- the block is at none of the addresses in the tree
      have hkeys : ∀ b ∈ t.toList, b.1 ≠ newblk := by
        rw [ht.toList, forall_mem_map]
        intro a ha
        have := h.positive a ha
        have := hsep a ha
        show m.block a ≠ newblk
        omega
      have := CartesianTree.pairwise_insert (n := len) (ht.keys h.order) hkeys
      rw [hT.toList, pairwise_map] at this
      exact this
    · intro a ha
      rw [mem_append, mem_cons] at ha
      by_cases hax : a = x
      · rw [hax, show m'.size x = len from congrArg Prod.snd hp.info_self]
        exact hlen
      · have ha : a ∈ ls ++ rs := List.mem_append.mpr (by tauto)
        rw [show m'.size a = m.size a from congrArg Prod.snd (hinfo a ha)]
        exact h.positive a ha
    · rw [show m'.freehdrlist = m1.freehdrlist by rw [hp.rest]; rfl]
      apply hg.spare.congr
      intro b hb
      obtain ⟨hx', hn'⟩ := nodup_cons.mp hg.apart
      apply hp.keep (.left b) (fun he => Hook.noConfusion he)
      · exact fun hin => (nodup_append'.mp hn').2.2 hin hb
      · intro hin
        obtain rfl := mem_singleton.mp hin
        exact hx' (mem_append_right _ hb)
    · apply (List.Perm.nodup_iff _).mpr hg.apart
      rw [append_assoc, cons_append, append_assoc]
      exact perm_middle

theorem getfreehdr_spec {fresh : ℕ} (h : Free m as fs) (hnew : fs = [] → fresh ≠ NIL ∧ fresh ∉ as) :
    ∃ x m1, getfreehdr fresh m = (x, m1) ∧ Gets m as x fs.tail m1 := by
  cases fs with
  | nil =>
    obtain ⟨hne, hnot⟩ := hnew rfl
    refine ⟨fresh, m, if_neg (not_not.mpr h.spare), hne, ?_, fun _ _ => rfl, fun _ _ =>
      rfl, h.spare⟩
    exact nodup_cons.mpr ⟨by rwa [tail_nil, append_nil], h.apart⟩
  | cons b fs =>
    obtain ⟨hb, hne, hspare⟩ := h.spare
    refine ⟨b, { m with freehdrlist := m.link (.left b) }, ?_, hne, ?_, fun _ _ => rfl,
      fun _ _ => rfl, hspare⟩
    · rw [getfreehdr, hb, if_pos (show b ≠ NIL from hne)]
    · exact (List.Perm.nodup_iff perm_middle).mp h.apart

/-- **`insert`.** -/
theorem insert_inserted {fresh : ℕ} (h : Free m as fs)
    (hnew : fs = [] → fresh ≠ NIL ∧ fresh ∉ as) (hlen : 0 < len)
    (hsep : NonOverlapping m as newblk len) (hfuel : as.length < fuel) :
    ∃ m' x, insert fresh fuel newblk len m = some m' ∧
      Inserted m as fs.tail newblk len x m' ∧ m'.length newblk = len := by
  obtain ⟨x, m1, hget, hg⟩ := getfreehdr_spec h hnew
  obtain ⟨m', hrun, ls, rs, heq, hfree, hinfo, hrest⟩ := insertWith_spec h hg hget hlen hsep hfuel
  refine ⟨{ m' with length := update m'.length newblk len }, x, ?_, ⟨ls, rs, heq,
    ⟨hfree.tree, hfree.order, hfree.positive, hfree.spare, hfree.apart⟩, hinfo, hrest⟩,
    update_self newblk len m'.length⟩
  rw [insert, hrun, Option.map_some]

/-- How a header is freed. -/
structure Puts (put : ℕ → arena → arena) : Prop where
  head : ∀ x m, (put x m).freehdrlist = x
  next : ∀ x m, (put x m).link (.left x) = m.freehdrlist
  link : ∀ x m (g : Hook), g ≠ .left x → g ≠ .right x → (put x m).link g = m.link g
  info : ∀ x m a, a ≠ x → (put x m).info a = m.info a

theorem puts_putfreehdr : Puts putfreehdr where
  head _ _ := rfl
  next x m := arena.set_link_self (.left x) m.freehdrlist m
  link _ m _ hg _ := arena.set_link_of_ne hg m.freehdrlist m
  info _ _ _ _ := rfl

/-- The result of a deletion: the header `x` is free, and its block is not in the tree. -/
def Deleted (m : arena) (as fs : List ℕ) (x : ℕ) (m' : arena) : Prop :=
  ∃ ls rs, as = ls ++ x :: rs ∧ Free m' (ls ++ rs) (x :: fs) ∧ ∀ a ∈ ls ++ rs, m'.info a = m.info a

/-- **`delete`**, of either copy. -/
theorem delete_deleted {put : ℕ → arena → arena} (hput : Puts put) (checked : Bool) {p : Hook}
    (h : Free m as fs) (hp : p = .root ∨ p.In as) (hx : m.link p ≠ NIL) (hfuel : as.length < fuel) :
    ∃ m', (deleteWith checked fuel p m).map (put (m.link p)) = some m' ∧
      Deleted m as fs (m.link p) m' := by
  obtain ⟨t, ht, hheap⟩ := h.tree
  have hna := (nodup_append'.mp h.apart).1
  obtain ⟨path, s, bs, cs, ds, rfl, rfl, hs, hpc, hfocus⟩ := ht.focus hna (fun hin => hin) hp
  rw [deleteWith, if_neg hx]
  generalize hlink : m.link p = x at *
  cases s with
  | nil => exact absurd hs.1 hx
  | node l k w r =>
    obtain ⟨-, hinfo, lcs, rcs, rfl, hL, hR⟩ := hs
    have hcs : lcs ++ x :: rcs ⊆ bs ++ (lcs ++ x :: rcs) ++ ds := fun a ha =>
      mem_append_left _ (mem_append_right _ ha)
    have hncs : (lcs ++ x :: rcs).Nodup :=
      (nodup_append'.mp (nodup_append'.mp hna).1).2.1
    obtain ⟨hxcs, hnlr⟩ := List.nodup_middle.mp hncs |> nodup_cons.mp
    have hsub : lcs ++ rcs ⊆ lcs ++ x :: rcs :=
      ((sublist_cons_self x rcs).append_left lcs).subset
    have hxmem : x ∈ lcs ++ x :: rcs := mem_append_right _ mem_cons_self
    have hlx : (Hook.left x).In (lcs ++ x :: rcs) := hxmem
    have hrx : (Hook.right x).In (lcs ++ x :: rcs) := hxmem
    obtain ⟨link', hrun, hT, hkeep⟩ := mergeBranches_spec checked fuel l r lcs rcs p _ _ m hL hR
      hnlr (fun hin => hpc (hin.mono hsub)) (fun a ha => h.positive a (hcs (hsub ha)))
      (by simp only [length_append, length_cons] at hfuel ⊢; omega)
    set m' := put x { m with link := link' } with hm'
    have hlink : ∀ g : Hook, g ≠ .left x → g ≠ .right x → m'.link g = link' g :=
      hput.link x { m with link := link' }
    have hinfo' : ∀ a, a ≠ x → m'.info a = m.info a := hput.info x { m with link := link' }
    have heq : bs ++ (lcs ++ rcs) ++ ds = bs ++ lcs ++ (rcs ++ ds) := by
      simp only [append_assoc]
    have hcut : bs ++ (lcs ++ x :: rcs) ++ ds = bs ++ lcs ++ x :: (rcs ++ ds) := by
      simp only [append_assoc, cons_append]
    have hperm : (bs ++ (lcs ++ x :: rcs) ++ ds).Perm (x :: (bs ++ lcs ++ (rcs ++ ds))) := by
      rw [hcut]
      exact perm_middle
    obtain ⟨hxout, -⟩ := nodup_cons.mp (hperm.nodup_iff.mp hna)
    have hne : ∀ a ∈ bs ++ lcs ++ (rcs ++ ds), a ≠ x := fun a ha => ne_of_mem_of_not_mem ha hxout
    have hmem : ∀ a ∈ bs ++ lcs ++ (rcs ++ ds), a ∈ bs ++ (lcs ++ x :: rcs) ++ ds :=
      fun a ha => hperm.mem_iff.mpr (mem_cons_of_mem x ha)
    refine ⟨m', by rw [hrun]; rfl, bs ++ lcs, rcs ++ ds, hcut,
      ⟨⟨CartesianTree.plug path (l.merge r), ?_, ?_⟩, ?_, ?_, ?_, ?_⟩,
      fun a ha => hinfo' a (hne a ha)⟩
    · rw [← heq]
      apply hfocus
      · rw [hlink p (hook_ne hlx hpc).symm (hook_ne hrx hpc).symm]
        apply Rep.congr hT
        · exact fun g hg => hlink g (hook_ne hg hxcs) (hook_ne hg hxcs)
        · exact fun a ha => hinfo' a (ne_of_mem_of_not_mem ha hxcs)
      · intro g hgp hgc _
        rw [hlink g (hook_ne hlx hgc).symm (hook_ne hrx hgc).symm,
          hkeep g hgp (fun hin => hgc (hin.mono hsub))]
      · exact fun a _ hac => hinfo' a (ne_of_mem_of_not_mem hxmem hac).symm
    · obtain ⟨-, hhl, hhr⟩ := CartesianTree.plug_heap_sub hheap
      apply hheap.plug (hhl.merge hhr)
      intro b hb
      rw [CartesianTree.toList_merge] at hb
      refine ⟨b, ?_, le_rfl⟩
      rw [CartesianTree.toList_node]
      exact ((sublist_cons_self _ _).append_left _).subset hb
    · have hsorted := h.order
      rw [hcut] at hsorted
      apply (hsorted.sublist ((sublist_cons_self x _).append_left _)).imp_of_mem
      intro a b ha hb hab
      rw [show m'.block a = m.block a from congrArg Prod.fst (hinfo' a (hne a ha)),
        show m'.block b = m.block b from congrArg Prod.fst (hinfo' b (hne b hb))]
      exact hab
    · intro a ha
      rw [show m'.size a = m.size a from congrArg Prod.snd (hinfo' a (hne a ha))]
      exact h.positive a (hmem a ha)
    · refine ⟨hput.head x _, hx, ?_⟩
      show Chain (fun a => m'.link (.left a)) (m'.link (.left x)) fs
      rw [show m'.link (.left x) = m.freehdrlist from hput.next x _]
      apply h.spare.congr
      intro b hb
      have hbout : ∀ {cs : List ℕ}, cs ⊆ bs ++ (lcs ++ x :: rcs) ++ ds → b ∉ cs :=
        fun hs hin => (nodup_append'.mp h.apart).2.2 (hs hin) hb
      have hbx : b ≠ x := (ne_of_mem_of_not_mem hxmem (hbout hcs)).symm
      have hbp : Hook.left b ≠ p := by
        rintro rfl
        rcases hp with hp | hp
        · cases hp
        · exact hbout (fun _ ha => ha) hp
      rw [hlink _ (fun he => hbx (Hook.left.inj he)) (fun he => Hook.noConfusion he),
        hkeep _ hbp (hbout (fun a ha => hcs (hsub ha)))]
    · apply (List.Perm.nodup_iff _).mp h.apart
      exact (hperm.append_right fs).trans List.perm_middle.symm

/-- The result of a demotion: the same headers, and what they say. -/
def Demoted (m : arena) (as fs : List ℕ) (m' : arena) : Prop :=
  Free m' as fs ∧ m'.info = m.info

/-- **`demote`** of a node whose block has become smaller, and begins at `b` now. -/
theorem demote_demoted {p : Hook} {b : ℤ} {n : ℕ} (h : Free m as fs) (hp : p = .root ∨ p.In as)
    (hx : m.link p ≠ NIL) (hn : 0 < n) (hle : n ≤ m.size (m.link p))
    (horder : as.Pairwise fun a c =>
      (m.put (m.link p) b n).block a < (m.put (m.link p) b n).block c) (hfuel : as.length < fuel) :
    ∃ m', demote fuel p (m.put (m.link p) b n) = some m' ∧
      Demoted (m.put (m.link p) b n) as fs m' := by
  obtain ⟨t, ht, hheap⟩ := h.tree
  have hna := (nodup_append'.mp h.apart).1
  obtain ⟨path, s, bs, cs, ds, rfl, rfl, hs, hpc, hfocus⟩ := ht.focus hna (fun hin => hin) hp
  have hlink : (m.put (m.link p) b n).link p = m.link p := rfl
  rw [demote, hlink, if_neg hx]
  generalize m.link p = x at *
  cases s with
  | nil => exact absurd hs.1 hx
  | node l k w r =>
    obtain ⟨-, hinfo, lcs, rcs, rfl, hL, hR⟩ := hs
    have hcs : lcs ++ x :: rcs ⊆ bs ++ (lcs ++ x :: rcs) ++ ds := fun a ha =>
      mem_append_left _ (mem_append_right _ ha)
    have hncs : (lcs ++ x :: rcs).Nodup :=
      (nodup_append'.mp (nodup_append'.mp hna).1).2.1
    obtain ⟨-, -, hxl, hxr, -⟩ := nodup_node hncs
    have hw : n ≤ w := by
      rw [← show m.size x = w from congrArg Prod.snd hinfo]
      exact hle
    have hsub : ∀ {t : CartesianTree ℤ ℕ} {as : List ℕ} {y : ℕ}, Holds m t as y → x ∉ as →
        Holds (m.put x b n) t as y := fun ht hx =>
      Rep.congr ht (fun _ _ => rfl) fun a ha =>
        m.put_info_of_ne (ne_of_mem_of_not_mem ha hx) b n
    obtain ⟨link', hrun, hT, hkeep⟩ := demoteBelow_spec hx fuel l r lcs rcs p _ _ (m.put x b n)
      (m.put_info_self x b n) (hsub hL hxl) (hsub hR hxr) hncs hpc
      (by simp only [length_append, length_cons] at hfuel ⊢; omega)
    refine ⟨_, hrun, ⟨⟨CartesianTree.plug path (CartesianTree.demote b n l r), ?_, ?_⟩, horder, ?_,
      ?_, h.apart⟩, rfl⟩
    · apply hfocus _ _ _ _ hT
      · exact fun g hgp hgc _ => hkeep g hgp hgc
      · intro a _ hac
        have hxmem : x ∈ lcs ++ x :: rcs := mem_append_right _ mem_cons_self
        exact m.put_info_of_ne (ne_of_mem_of_not_mem hxmem hac).symm b n
    · obtain ⟨-, hhl, hhr⟩ := CartesianTree.plug_heap_sub hheap
      apply hheap.plug (CartesianTree.Heap.demote b n hhl hhr)
      rw [CartesianTree.toList_demote, forall_mem_append, forall_mem_cons]
      refine ⟨fun c hc => ⟨c, by simp [hc], le_rfl⟩, ⟨(k, w), by simp, hw⟩,
        fun c hc => ⟨c, by simp [hc], le_rfl⟩⟩
    · intro a ha
      show 0 < update m.size x n a
      by_cases hax : a = x
      · rw [hax, update_self]
        exact hn
      · rw [update_of_ne hax]
        exact h.positive a ha
    · apply h.spare.congr
      intro c hc
      have hcout : ∀ {cs : List ℕ}, cs ⊆ bs ++ (lcs ++ x :: rcs) ++ ds → c ∉ cs :=
        fun hs hin => (nodup_append'.mp h.apart).2.2 (hs hin) hc
      apply hkeep (.left c) _ (hcout hcs)
      rintro rfl
      rcases hp with hp | hp
      · cases hp
      · exact hcout (fun _ ha => ha) hp

end FreeTree
