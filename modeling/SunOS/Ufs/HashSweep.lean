/-
# The order in which the cylinder groups are tried (`ufs_alloc.c`)

`hashalloc` with its `int`s, for any allocator: what it calls and on which groups.  The quadratic
rehash doubles `i` past the number of groups, which an `int` allows for up to `2 ^ 30` of them; the
super block has summaries for far fewer (`fs_csp`, of `MAXCSBUFS` blocks).
-/
import SunOS.Ufs.Inode
import SunOS.Lib.Word
import Mathlib.Tactic.Linarith

namespace Ufs.Sweep

open List

/-- `(*allocator)(ip, cg, pref, size)`, with `ip` and `size` fixed: the result and what is left of
the rest of the world. -/
abbrev Allocator (σ : Type) := ℤ → ℤ → σ → ℤ × σ

/-- A call of the allocator. -/
structure Call where
  cg : ℤ
  pref : ℤ
  result : ℤ
  deriving DecidableEq, Repr

/-- What a search has come to: its result, unless it is still under way, and the calls so far. -/
structure Swept (σ : Type) where
  result : Option ℤ
  calls : List Call
  state : σ

variable {σ : Type}

/-- A call, and then what comes after it when it fails. -/
def attempt (allocator : Allocator σ) (cg pref : ℤ) (s : σ) (next : σ → Swept σ) : Swept σ :=
  let r := allocator cg pref s
  if r.1 ≠ 0 then ⟨some r.1, [⟨cg, pref, r.1⟩], r.2⟩
  else { next r.2 with calls := ⟨cg, pref, 0⟩ :: (next r.2).calls }

/-- "2: quadratic rehash"; the fuel is the number of calls it may make. -/
def rehash (fs_ncg : ℤ) (allocator : Allocator σ) : ℕ → ℤ → ℤ → σ → Swept σ
  | 0, _, _, s => ⟨none, [], s⟩
  | n + 1, cg, i, s =>
    if i < fs_ncg then
      let cg := int32 (cg + i)
      let cg := if cg ≥ fs_ncg then int32 (cg - fs_ncg) else cg
      attempt allocator cg 0 s (rehash fs_ncg allocator n cg (int32 (i * 2)))
    else ⟨some 0, [], s⟩

/-- "3: brute force search". -/
def bruteforce (fs_ncg : ℤ) (allocator : Allocator σ) : ℕ → ℤ → ℤ → σ → Swept σ
  | 0, _, _, s => ⟨none, [], s⟩
  | n + 1, cg, i, s =>
    if i < fs_ncg then
      attempt allocator cg 0 s fun s =>
        let cg := int32 (cg + 1)
        let cg := if cg = fs_ncg then 0 else cg
        bruteforce fs_ncg allocator n cg (int32 (i + 1)) s
    else ⟨some 0, [], s⟩

/-- Goes on to `next` when the search has come to nothing. -/
def Swept.orElse (w : Swept σ) (next : σ → Swept σ) : Swept σ :=
  if w.result = some 0 then
    { next w.state with calls := w.calls ++ (next w.state).calls }
  else w

/-- "Implement the cylinder overflow algorithm." -/
def hashalloc (fs_ncg : ℤ) (allocator : Allocator σ) (n : ℕ) (cg pref : ℤ) (s : σ) : Swept σ :=
  attempt allocator cg pref s fun s =>
    (rehash fs_ncg allocator n cg 1 s).orElse
      (bruteforce fs_ncg allocator n (Int.tmod (int32 (cg + 2)) fs_ncg) 2)

/-! ## What a search guarantees -/

/-- All calls are on groups that there are; if the search comes to nothing, all of them have failed
and the groups `must` are among them; and it comes to an end if `fuelled`. -/
structure Swept.Tries (fs_ncg : ℤ) (must : ℤ → Prop) (fuelled : Prop) (w : Swept σ) : Prop where
  inside : ∀ c ∈ w.calls, 0 ≤ c.cg ∧ c.cg < fs_ncg
  failed : w.result = some 0 → ∀ c ∈ w.calls, c.result = 0
  tried : w.result = some 0 → ∀ g, must g → ∃ c ∈ w.calls, c.cg = g
  ends : fuelled → w.result.isSome

variable {fs_ncg cg pref i : ℤ} {allocator : Allocator σ} {n : ℕ} {s : σ}
  {must must' : ℤ → Prop} {fuelled fuelled' : Prop} {w : Swept σ} {next : σ → Swept σ}

theorem Swept.Tries.weaken (h : w.Tries fs_ncg must fuelled) (hm : ∀ g, must' g → must g)
    (hf : fuelled' → fuelled) : w.Tries fs_ncg must' fuelled' :=
  ⟨h.inside, h.failed, fun h0 g hg => h.tried h0 g (hm g hg), fun hf' => h.ends (hf hf')⟩

/-- A call adds its own group to those that must be tried. -/
theorem attempt_tries (h0 : 0 ≤ cg) (h1 : cg < fs_ncg)
    (hnext : ∀ s, (next s).Tries fs_ncg must fuelled) :
    (attempt allocator cg pref s next).Tries fs_ncg (fun g => g = cg ∨ must g) fuelled := by
  unfold attempt
  by_cases hr : (allocator cg pref s).1 ≠ 0
  · rw [if_pos hr]
    refine ⟨?_, fun h => absurd (Option.some.inj h) hr, fun h => absurd (Option.some.inj h) hr,
      fun _ => rfl⟩
    intro c hc
    rw [List.mem_singleton.mp hc]
    exact ⟨h0, h1⟩
  · rw [if_neg hr]
    have hn := hnext (allocator cg pref s).2
    refine ⟨?_, ?_, ?_, hn.ends⟩
    · intro c hc
      rcases List.mem_cons.mp hc with rfl | hc
      · exact ⟨h0, h1⟩
      · exact hn.inside c hc
    · intro hw c hc
      rcases List.mem_cons.mp hc with rfl | hc
      · rfl
      · exact hn.failed hw c hc
    · rintro hw g (rfl | hg)
      · exact ⟨_, mem_cons_self, rfl⟩
      · obtain ⟨c, hc, hcg⟩ := hn.tried hw g hg
        exact ⟨c, mem_cons_of_mem _ hc, hcg⟩

theorem orElse_tries (hw : w.Tries fs_ncg must fuelled)
    (hnext : ∀ s, (next s).Tries fs_ncg must' fuelled) :
    (w.orElse next).Tries fs_ncg (fun g => must g ∨ must' g) fuelled := by
  have hn := hnext w.state
  unfold Swept.orElse
  by_cases h0 : w.result = some 0
  · rw [if_pos h0]
    refine ⟨?_, ?_, ?_, hn.ends⟩
    · intro c hc
      exact (List.mem_append.mp hc).elim (hw.inside c) (hn.inside c)
    · intro hr c hc
      exact (List.mem_append.mp hc).elim (hw.failed h0 c) (hn.failed hr c)
    · rintro hr g (hg | hg)
      · obtain ⟨c, hc, hcg⟩ := hw.tried h0 g hg
        exact ⟨c, mem_append_left _ hc, hcg⟩
      · obtain ⟨c, hc, hcg⟩ := hn.tried hr g hg
        exact ⟨c, mem_append_right _ hc, hcg⟩
  · rw [if_neg h0]
    exact ⟨hw.inside, fun hr => absurd hr h0, fun hr => absurd hr h0, hw.ends⟩

theorem unfinished_tries {P : Prop} :
    (⟨none, [], s⟩ : Swept σ).Tries fs_ncg must (0 < 0 ∧ P) :=
  ⟨fun _ hc => absurd hc not_mem_nil, fun _ _ hc => absurd hc not_mem_nil,
    fun h => absurd h (by simp), fun hf => absurd hf.1 (Nat.lt_irrefl 0)⟩

/-! ## Up to 2^30 groups -/

theorem rehash_succ (hlt : i < fs_ncg) {g : ℤ}
    (hg : (if int32 (cg + i) ≥ fs_ncg then int32 (int32 (cg + i) - fs_ncg) else int32
      (cg + i)) = g) :
    rehash fs_ncg allocator (n + 1) cg i s =
      attempt allocator g 0 s (rehash fs_ncg allocator n g (int32 (i * 2))) := by
  subst hg
  exact if_pos hlt

/-- `i` never gets beyond an `int`, and the next group is tried. -/
theorem rehash_tries (hmax : fs_ncg ≤ 2 ^ 30) (h0 : 0 ≤ cg) (h1 : cg < fs_ncg) (hi : 1 ≤ i) :
    (rehash fs_ncg allocator n cg i s).Tries fs_ncg
      (fun g => i < fs_ncg ∧ g = (cg + i) % fs_ncg) (0 < n ∧ 2 * fs_ncg ≤ i * 2 ^ n) := by
  induction n generalizing cg i s with
  | zero =>
    exact unfinished_tries
  | succ n ih =>
    by_cases hlt : i < fs_ncg
    · have hsum : int32 (cg + i) = cg + i := int32_of_fits (by rw [fits_iff]; lia)
      have hdiff : int32 (cg + i - fs_ncg) = cg + i - fs_ncg :=
        int32_of_fits (by rw [fits_iff]; lia)
      have hnext : (if int32 (cg + i) ≥ fs_ncg then int32 (int32 (cg + i) - fs_ncg)
          else int32 (cg + i)) = (cg + i) % fs_ncg := by
        rw [hsum, hdiff]
        split_ifs with hge
        · rw [← Int.sub_emod_right, Int.emod_eq_of_lt (by lia) (by lia)]
        · rw [Int.emod_eq_of_lt (by lia) (by lia)]
      have hdouble : int32 (i * 2) = i * 2 := int32_of_fits (by rw [fits_iff]; lia)
      rw [rehash_succ hlt hnext, hdouble]
      have hge : 0 ≤ (cg + i) % fs_ncg := Int.emod_nonneg _ (by lia)
      have hlt' : (cg + i) % fs_ncg < fs_ncg := Int.emod_lt_of_pos _ (by lia)
      refine (attempt_tries hge hlt' fun s => ih hge hlt' (by lia)).weaken
        (fun g hg => Or.inl hg.2) fun hf => ?_
      obtain ⟨-, hf⟩ := hf
      rw [pow_succ] at hf
      refine ⟨Nat.pos_of_ne_zero ?_, by linarith⟩
      rintro rfl
      lia
    · unfold rehash
      rw [if_neg hlt]
      exact ⟨fun c hc => absurd hc not_mem_nil, fun _ c hc => absurd hc not_mem_nil,
        fun _ g hg => absurd hg.1 hlt, fun _ => rfl⟩

/-- The groups are tried one after the other from `cg` on. -/
theorem bruteforce_tries (hmax : fs_ncg ≤ 2 ^ 30) (h0 : 0 ≤ cg) (h1 : cg < fs_ncg) (hi : 0 ≤ i) :
    (bruteforce fs_ncg allocator n cg i s).Tries fs_ncg
      (fun g => ∃ d, 0 ≤ d ∧ i + d < fs_ncg ∧ g = (cg + d) % fs_ncg) (0 < n ∧ fs_ncg < i + n) := by
  induction n generalizing cg i s with
  | zero =>
    exact unfinished_tries
  | succ n ih =>
    unfold bruteforce
    by_cases hlt : i < fs_ncg
    · rw [if_pos hlt]
      have hsum : int32 (cg + 1) = cg + 1 := int32_of_fits (by rw [fits_iff]; lia)
      have hnext : (if int32 (cg + 1) = fs_ncg then 0 else int32 (cg + 1)) =
          (cg + 1) % fs_ncg := by
        rw [hsum]
        split_ifs with he
        · rw [he, Int.emod_self]
        · rw [Int.emod_eq_of_lt (by lia) (by lia)]
      have hstep : int32 (i + 1) = i + 1 := int32_of_fits (by rw [fits_iff]; lia)
      simp only [hnext, hstep]
      have hge : 0 ≤ (cg + 1) % fs_ncg := Int.emod_nonneg _ (by lia)
      have hlt' : (cg + 1) % fs_ncg < fs_ncg := Int.emod_lt_of_pos _ (by lia)
      refine (attempt_tries h0 h1 fun s => ih hge hlt' (by lia)).weaken ?_ fun hf => ?_
      · rintro g ⟨d, hd, hid, rfl⟩
        by_cases hd0 : d = 0
        · left
          rw [hd0, add_zero, Int.emod_eq_of_lt h0 h1]
        · right
          refine ⟨d - 1, by lia, by lia, ?_⟩
          rw [Int.emod_add_emod]
          congr 1
          ring
      · obtain ⟨-, hf⟩ := hf
        exact ⟨by lia, by lia⟩
    · rw [if_neg hlt]
      refine ⟨fun c hc => absurd hc not_mem_nil, fun _ c hc => absurd hc not_mem_nil,
        ?_, fun _ => rfl⟩
      rintro - g ⟨d, hd, hid, -⟩
      lia

theorem tmod_next (hmax : fs_ncg ≤ 2 ^ 30) (h0 : 0 ≤ cg) (h1 : cg < fs_ncg) :
    Int.tmod (int32 (cg + 2)) fs_ncg = (cg + 2) % fs_ncg := by
  rw [int32_of_fits (by rw [fits_iff]; omega), Int.tmod_eq_emod_of_nonneg (by omega)]

/-- The preferred group is the one at distance 0, the rehash begins with that at distance 1 and the
brute force search has the others. -/
theorem hashalloc_tries (hmax : fs_ncg ≤ 2 ^ 30) (h0 : 0 ≤ cg) (h1 : cg < fs_ncg) :
    (hashalloc fs_ncg allocator n cg pref s).Tries fs_ncg (fun g => 0 ≤ g ∧ g < fs_ncg)
      (0 < n ∧ 2 * fs_ncg ≤ 2 ^ n ∧ fs_ncg < n + 2) := by
  have hge : 0 ≤ (cg + 2) % fs_ncg := Int.emod_nonneg _ (by lia)
  have hlt : (cg + 2) % fs_ncg < fs_ncg := Int.emod_lt_of_pos _ (by lia)
  unfold hashalloc
  rw [tmod_next hmax h0 h1]
  refine (attempt_tries h0 h1 fun s =>
    orElse_tries ((rehash_tries hmax h0 h1 le_rfl).weaken (fun g hg => hg) ?_)
      fun s => (bruteforce_tries hmax hge hlt (by norm_num)).weaken (fun g hg => hg) ?_).weaken
      ?_ (fun hf => hf)
  · rintro ⟨hn, hpow, -⟩
    exact ⟨hn, by rwa [one_mul]⟩
  · rintro ⟨hn, -, hlast⟩
    exact ⟨hn, by lia⟩
  · rintro g ⟨hg0, hg1⟩
    by_cases hg : g = cg
    · exact Or.inl hg
    · right
      -- the distance from the preferred group
      obtain ⟨d, hd1, hd, rfl⟩ : ∃ d, 1 ≤ d ∧ d < fs_ncg ∧ g = (cg + d) % fs_ncg := by
        by_cases hle : cg ≤ g
        · refine ⟨g - cg, by lia, by lia, ?_⟩
          rw [add_sub_cancel, Int.emod_eq_of_lt hg0 hg1]
        · refine ⟨g + fs_ncg - cg, by lia, by lia, ?_⟩
          rw [add_sub_cancel, Int.add_emod_right, Int.emod_eq_of_lt hg0 hg1]
      by_cases hone : d = 1
      · subst hone
        exact Or.inl ⟨hd, rfl⟩
      · right
        refine ⟨d - 2, by lia, by lia, ?_⟩
        rw [Int.emod_add_emod]
        congr 1
        ring

/-- A search from group `cg` stays within the groups, ends, and gives up only after every group was
tried and failed. -/
structure Searches (fs_ncg : ℤ) (allocator : Allocator σ) (cg pref : ℤ) (s : σ) : Prop where
  inside : ∀ n, ∀ c ∈ (hashalloc fs_ncg allocator n cg pref s).calls, 0 ≤ c.cg ∧ c.cg < fs_ncg
  ends : ∃ n, (hashalloc fs_ncg allocator n cg pref s).result.isSome
  tried : ∀ n, (hashalloc fs_ncg allocator n cg pref s).result = some 0 →
    ∀ g, 0 ≤ g → g < fs_ncg → ∃ c ∈ (hashalloc fs_ncg allocator n cg pref s).calls, c.cg = g
  failed : ∀ n, (hashalloc fs_ncg allocator n cg pref s).result = some 0 →
    ∀ c ∈ (hashalloc fs_ncg allocator n cg pref s).calls, c.result = 0

/-- **`hashalloc` searches all groups and no others.** -/
theorem hashalloc_searches {fs_ncg : ℤ} (hmax : fs_ncg ≤ 2 ^ 30) (allocator : Allocator σ)
    (pref : ℤ) (s : σ) {cg : ℤ} (h0 : 0 ≤ cg) (h1 : cg < fs_ncg) :
    Searches fs_ncg allocator cg pref s := by
  have htries : ∀ n, (hashalloc fs_ncg allocator n cg pref s).Tries fs_ncg
      (fun g => 0 ≤ g ∧ g < fs_ncg) (0 < n ∧ 2 * fs_ncg ≤ 2 ^ n ∧ fs_ncg < n + 2) :=
    fun n => hashalloc_tries hmax h0 h1
  refine ⟨fun n => (htries n).inside, ⟨(2 * fs_ncg).toNat, ?_⟩,
    fun n hr g hg0 hg1 => (htries n).tried hr g ⟨hg0, hg1⟩, fun n => (htries n).failed⟩
  have hpow : 2 * fs_ncg ≤ 2 ^ (2 * fs_ncg).toNat := by
    have hlt : (2 * fs_ncg).toNat < 2 ^ (2 * fs_ncg).toNat := Nat.lt_two_pow_self
    zify at hlt
    omega
  exact (htries _).ends ⟨by omega, hpow, by omega⟩

/-- Seven groups, all of them full, from group 3: the rehash comes back to group 3, and the brute
force search finds the three groups that it has left out. -/
theorem hashalloc_searches_seven :
    (hashalloc 7 (fun _ _ _ => (0, ())) 7 3 0 ()).calls.map (·.cg) = [3, 4, 6, 3, 5, 6, 0, 1, 2] ∧
      Searches 7 (fun _ _ _ => (0, ())) 3 0 () :=
  ⟨by decide, hashalloc_searches (by decide) _ 0 () (by decide) (by decide)⟩

/-! ## The search of a file system

On the groups of a file system the search is that of `Ufs.hashalloc`, which counts in `ℕ`. -/

section Naturals

variable {fs : Ufs.fs} {al : Ufs.Allocator} {size cg pref i : ℕ} {s : State}
  {w : Swept (Option State)} {next : Option State → Swept (Option State)}

variable {f : State → Option (ℕ × State)}

/-- An allocator of `Ufs`; after a panic there is no state and the search is over. -/
def lift (al : Ufs.Allocator) (size : ℕ) : Allocator (Option State) := fun cg pref s =>
  match s.bind (al cg.toNat pref.toNat size) with
  | some (r, s) => (r, some s)
  | none => (1, none)

/-- The search has ended as that of `Ufs` did. -/
def Same (w : Swept (Option State)) : Option (ℕ × State) → Prop
  | some (r, s) => w.result = some (r : ℤ) ∧ w.state = some s
  | none => w.result = some 1 ∧ w.state = none

theorem Same.calls {x : Option (ℕ × State)} (h : Same w x) (cs : List Call) :
    Same { w with calls := cs } x := by
  cases x <;> exact h

theorem attempt_same {g p : ℤ} (hg : g = cg) (hp : p = pref)
    (hnext : ∀ s, Same (next (some s)) (f s)) :
    Same (attempt (lift al size) g p (some s) next)
      (match al cg pref size s with
      | none => none
      | some (r, s) => if r ≠ 0 then some (r, s) else f s) := by
  subst hg hp
  have hcall : lift al size cg pref (some s) =
      match al cg pref size s with
      | some (r, s) => ((r : ℤ), some s)
      | none => (1, none) := rfl
  unfold attempt
  rw [hcall]
  cases ha : al cg pref size s with
  | none => exact ⟨rfl, rfl⟩
  | some x =>
    obtain ⟨r, s'⟩ := x
    simp only []
    by_cases hr : r = 0
    · rw [if_neg (by simp [hr]), if_neg (by simp [hr])]
      exact (hnext s').calls _
    · rw [if_pos (by exact_mod_cast hr), if_pos hr]
      exact ⟨rfl, rfl⟩

theorem orElse_same {x : Option (ℕ × State)} (hnext : ∀ s, Same (next (some s)) (f s)) :
    Same w x → Same (w.orElse next)
      (match x with
      | none => none
      | some (r, s) => if r ≠ 0 then some (r, s) else f s) := by
  intro hw
  unfold Swept.orElse
  cases x with
  | none =>
    obtain ⟨hr, hs⟩ := hw
    rw [if_neg (by rw [hr]; decide)]
    exact ⟨hr, hs⟩
  | some x =>
    obtain ⟨r, s'⟩ := x
    obtain ⟨hr, hs⟩ := hw
    by_cases hr0 : r = 0
    · subst hr0
      rw [if_pos (by rw [hr]; rfl), hs]
      exact (hnext s').calls _
    · rw [if_neg (by rw [hr]; simpa using hr0)]
      simp only []
      rw [if_pos hr0]
      exact ⟨hr, hs⟩

theorem rehash_same (hmax : fs.fs_ncg ≤ 2 ^ 30) (hcg : cg < fs.fs_ncg) (hi : 1 ≤ i)
    (hn : 0 < n) (hfuel : 2 * fs.fs_ncg ≤ i * 2 ^ n) :
    Same (rehash fs.fs_ncg (lift al size) n cg i (some s)) (Ufs.rehash fs al size n cg i s) := by
  induction n generalizing cg i s with
  | zero => exact absurd hn (Nat.lt_irrefl 0)
  | succ n ih =>
    unfold Ufs.rehash
    by_cases hlt : i < fs.fs_ncg
    · rw [if_pos hlt]
      have hsum : int32 ((cg : ℤ) + i) = cg + i := int32_of_fits (by rw [fits_iff]; lia)
      have hdiff : int32 ((cg : ℤ) + i - fs.fs_ncg) = cg + i - fs.fs_ncg :=
        int32_of_fits (by rw [fits_iff]; lia)
      have hdouble : int32 ((i : ℤ) * 2) = (i * 2 : ℕ) := by
        exact int32_of_fits (by rw [fits_iff]; lia)
      have hnext : (if int32 ((cg : ℤ) + i) ≥ fs.fs_ncg then
          int32 (int32 ((cg : ℤ) + i) - fs.fs_ncg) else int32 ((cg : ℤ) + i)) =
          ((if cg + i ≥ fs.fs_ncg then cg + i - fs.fs_ncg else cg + i : ℕ) : ℤ) := by
        rw [hsum, hdiff]
        split_ifs <;> lia
      rw [rehash_succ (by lia) hnext, hdouble]
      refine attempt_same rfl rfl fun s => ih ?_ (by lia) ?_ ?_
      · split_ifs <;> lia
      · rw [pow_succ] at hfuel
        refine Nat.pos_of_ne_zero ?_
        rintro rfl
        lia
      · rw [pow_succ] at hfuel
        linarith
    · rw [if_neg hlt]
      unfold rehash
      rw [if_neg (by lia)]
      exact ⟨rfl, rfl⟩

theorem bruteforce_same (hmax : fs.fs_ncg ≤ 2 ^ 30) (hcg : cg < fs.fs_ncg) {m : ℕ}
    (hm : m = fs.fs_ncg - i) (hn : m < n) :
    Same (bruteforce fs.fs_ncg (lift al size) n cg i (some s)) (Ufs.bruteforce fs al size m cg s) := by
  induction n generalizing cg i m s with
  | zero => exact absurd hn (Nat.not_lt_zero m)
  | succ n ih =>
    unfold bruteforce
    cases m with
    | zero =>
      rw [if_neg (by lia)]
      exact ⟨rfl, rfl⟩
    | succ m =>
      have hsum : int32 ((cg : ℤ) + 1) = cg + 1 := int32_of_fits (by rw [fits_iff]; lia)
      have hstep : int32 ((i : ℤ) + 1) = (i + 1 : ℕ) := by
        exact int32_of_fits (by rw [fits_iff]; lia)
      have hnext : (if int32 ((cg : ℤ) + 1) = fs.fs_ncg then 0 else int32 ((cg : ℤ) + 1)) =
          ((if cg + 1 = fs.fs_ncg then 0 else cg + 1 : ℕ) : ℤ) := by
        rw [hsum]
        split_ifs <;> lia
      rw [if_pos (by lia)]
      simp only [hnext, hstep]
      refine attempt_same rfl rfl fun s => ih ?_ (by lia) (by lia)
      split_ifs <;> lia

/-- **The search in `ℕ` is the search with `int`s**, with a call for every group as fuel. -/
theorem hashalloc_same (hmax : fs.fs_ncg ≤ 2 ^ 30) (hcg : cg < fs.fs_ncg) :
    Same (hashalloc fs.fs_ncg (lift al size) fs.fs_ncg cg pref (some s))
      (Ufs.hashalloc fs al cg pref size s) := by
  have hfuel : 2 * fs.fs_ncg ≤ 1 * 2 ^ fs.fs_ncg := by
    obtain ⟨m, hm⟩ := Nat.exists_eq_succ_of_ne_zero (show fs.fs_ncg ≠ 0 by omega)
    have hlt : m < 2 ^ m := Nat.lt_two_pow_self
    rw [hm, Nat.pow_succ]
    omega
  refine attempt_same rfl rfl fun s =>
    orElse_same (fun s => ?_) (rehash_same hmax hcg le_rfl (by omega) hfuel)
  have htwo : Int.tmod (int32 ((cg : ℤ) + 2)) fs.fs_ncg = ((cg + 2) % fs.fs_ncg : ℕ) := by
    rw [tmod_next (by exact_mod_cast hmax) (by omega) (by omega)]
    rfl
  rw [htwo]
  exact bruteforce_same hmax (Nat.mod_lt _ (by omega)) rfl (by omega)

end Naturals

end Ufs.Sweep
