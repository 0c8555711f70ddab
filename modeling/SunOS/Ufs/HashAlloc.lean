/-
# The sweep over the cylinder groups

`hashalloc` tries every cylinder group: it gives up only when no group has room,
and otherwise its result is that of one call of the allocator.  The allocators
leave the state alone in a group without room, so the sweep does.
-/
import SunOS.Ufs.AllocSums
import SunOS.Ufs.Inode

namespace Ufs

variable {fs : Ufs.fs} {u : user} {s s' : State} {cg g pref size n i r : ℕ} {al : Allocator}
  {no : ℕ → Prop}

/-- In state `s` the allocator fails exactly in the groups `no`, and then leaves the
state as it is. -/
def Decides (fs : Ufs.fs) (al : Allocator) (size : ℕ) (s : State) (no : ℕ → Prop) : Prop :=
  ∀ g < fs.fs_ncg, ∀ pref r s', al g pref size s = some (r, s') →
    (r = 0 ∧ s' = s ∧ no g) ∨ (r ≠ 0 ∧ ¬ no g)

/-- The result is that of one group with room. -/
def FromGroup (fs : Ufs.fs) (al : Allocator) (size : ℕ) (s : State) (no : ℕ → Prop) (r : ℕ)
    (s' : State) : Prop :=
  r ≠ 0 ∧ ∃ g < fs.fs_ncg, ∃ pref, ¬ no g ∧ al g pref size s = some (r, s')

theorem bruteforce_spec (hd : Decides fs al size s no) (hcg : cg < fs.fs_ncg)
    (h : bruteforce fs al size n cg s = some (r, s')) :
    (r = 0 ∧ s' = s ∧ ∀ j < n, no ((cg + j) % fs.fs_ncg)) ∨ FromGroup fs al size s no r s' := by
  induction n generalizing cg with
  | zero =>
    cases h
    exact .inl ⟨rfl, rfl, fun j hj => absurd hj (Nat.not_lt_zero j)⟩
  | succ n ih =>
    unfold bruteforce at h
    cases ha : al cg 0 size s with
    | none => simp [ha] at h
    | some x =>
      obtain ⟨r1, s1⟩ := x
      rw [ha] at h
      simp only at h
      rcases hd cg hcg 0 r1 s1 ha with ⟨rfl, rfl, hno⟩ | ⟨hr, hno⟩
      · rw [if_neg (by simp)] at h
        have hnext : (if cg + 1 = fs.fs_ncg then 0 else cg + 1) = (cg + 1) % fs.fs_ncg := by
          by_cases he : cg + 1 = fs.fs_ncg
          · rw [if_pos he, he, Nat.mod_self]
          · rw [if_neg he, Nat.mod_eq_of_lt (by omega)]
        rw [hnext] at h
        rcases ih (Nat.mod_lt _ (by omega)) h with ⟨rfl, rfl, hall⟩ | hg
        · refine .inl ⟨rfl, rfl, fun j hj => ?_⟩
          cases j with
          | zero =>
            rw [add_zero, Nat.mod_eq_of_lt hcg]
            exact hno
          | succ j =>
            have := hall j (by omega)
            rwa [Nat.mod_add_mod, add_assoc, add_comm 1 j] at this
        · exact .inr hg
      · rw [if_pos hr] at h
        cases h
        exact .inr ⟨hr, cg, hcg, 0, hno, ha⟩

/-- The rehash tries the next group first. -/
theorem rehash_spec (hd : Decides fs al size s no) (hcg : cg < fs.fs_ncg)
    (h : rehash fs al size n cg i s = some (r, s')) :
    (r = 0 ∧ s' = s ∧ (0 < n → i < fs.fs_ncg → no ((cg + i) % fs.fs_ncg))) ∨
      FromGroup fs al size s no r s' := by
  induction n generalizing cg i with
  | zero =>
    cases h
    exact .inl ⟨rfl, rfl, fun h0 => absurd h0 (Nat.lt_irrefl 0)⟩
  | succ n ih =>
    unfold rehash at h
    by_cases hi : i < fs.fs_ncg
    · rw [if_pos hi] at h
      have hnext : (if cg + i ≥ fs.fs_ncg then cg + i - fs.fs_ncg else cg + i) =
          (cg + i) % fs.fs_ncg := by
        by_cases he : cg + i ≥ fs.fs_ncg
        · rw [if_pos he, Nat.mod_eq_sub_mod he, Nat.mod_eq_of_lt (by omega)]
        · rw [if_neg he, Nat.mod_eq_of_lt (by omega)]
      simp only [hnext] at h
      have hlt : (cg + i) % fs.fs_ncg < fs.fs_ncg := Nat.mod_lt _ (by omega)
      cases ha : al ((cg + i) % fs.fs_ncg) 0 size s with
      | none => simp [ha] at h
      | some x =>
        obtain ⟨r1, s1⟩ := x
        rw [ha] at h
        simp only at h
        rcases hd _ hlt 0 r1 s1 ha with ⟨rfl, rfl, hno⟩ | ⟨hr, hno⟩
        · rw [if_neg (by simp)] at h
          rcases ih hlt h with ⟨rfl, rfl, -⟩ | hg
          · exact .inl ⟨rfl, rfl, fun _ _ => hno⟩
          · exact .inr hg
        · rw [if_pos hr] at h
          cases h
          exact .inr ⟨hr, _, hlt, 0, hno, ha⟩
    · rw [if_neg hi] at h
      cases h
      exact .inl ⟨rfl, rfl, fun _ h0 => absurd h0 hi⟩

/-- **`hashalloc` tries every group.** -/
theorem hashalloc_spec (hd : Decides fs al size s no) (hcg : cg < fs.fs_ncg)
    (h : hashalloc fs al cg pref size s = some (r, s')) :
    (r = 0 ∧ s' = s ∧ ∀ g < fs.fs_ncg, no g) ∨ FromGroup fs al size s no r s' := by
  unfold hashalloc at h
  cases ha : al cg pref size s with
  | none => simp [ha] at h
  | some x =>
    obtain ⟨r1, s1⟩ := x
    rw [ha] at h
    simp only at h
    rcases hd cg hcg pref r1 s1 ha with ⟨rfl, rfl, hno⟩ | ⟨hr, hno⟩
    · rw [if_neg (by simp)] at h
      cases hr : rehash fs al size fs.fs_ncg cg 1 s1 with
      | none => simp [hr] at h
      | some y =>
        obtain ⟨r2, s2⟩ := y
        rw [hr] at h
        simp only at h
        rcases rehash_spec hd hcg hr with ⟨rfl, rfl, hone⟩ | hg
        · rw [if_neg (by simp)] at h
          rcases bruteforce_spec hd (Nat.mod_lt _ (by lia)) h with ⟨rfl, rfl, hrest⟩ | hg
          · refine .inl ⟨rfl, rfl, fun g hg => ?_⟩
            -- the distance from the preferred group decides which step tried `g`
            obtain ⟨d, hd, hgd⟩ : ∃ d < fs.fs_ncg, g = (cg + d) % fs.fs_ncg := by
              by_cases hle : cg ≤ g
              · refine ⟨g - cg, by lia, ?_⟩
                rw [show cg + (g - cg) = g by lia, Nat.mod_eq_of_lt hg]
              · refine ⟨g + fs.fs_ncg - cg, by lia, ?_⟩
                rw [show cg + (g + fs.fs_ncg - cg) = g + fs.fs_ncg by lia,
                  Nat.add_mod_right, Nat.mod_eq_of_lt hg]
            rw [hgd]
            by_cases h0 : d = 0
            · rw [h0, add_zero, Nat.mod_eq_of_lt hcg]
              exact hno
            · by_cases h1 : d = 1
              · rw [h1]
                exact hone (by lia) (by lia)
              · have := hrest (d - 2) (by lia)
                rwa [Nat.mod_add_mod, add_assoc, show 2 + (d - 2) = d by lia] at this
          · exact .inr hg
        · have hr0 := hg.1
          rw [if_pos hr0] at h
          cases h
          exact .inr hg
    · rw [if_pos hr] at h
      cases h
      exact .inr ⟨hr, cg, hcg, pref, hno, ha⟩

/-! ## The allocators of blocks -/

/-- The boot block is not free: no piece has address 0. -/
def BootHeld (s : State) : Prop := isset (s.cgs 0).cg_free 0 = false

/-- `alloccg` fails exactly in the groups without room. -/
theorem alloccg_decides {k : ℕ} (hc : Consistent fs s) (hb : BootHeld s) (hk : 0 < k)
    (hkf : k ≤ fs.fs_frag) :
    Decides fs (alloccg fs) (k * fs.fs_fsize) s (fun g => NoRoom fs s g (k * fs.fs_fsize)) := by
  intro g hg pref r s' h
  rcases alloccg_spec hc hg hk hkf h with ⟨hno, rfl, rfl⟩ | ⟨hroom, q, rfl, ht⟩
  · exact .inl ⟨rfl, rfl, hno⟩
  · refine .inr ⟨fun h0 => ?_, hroom⟩
    have hfree := ht.free 0 hk
    have hfpg := fs.fpg_pos
    obtain ⟨hg0, hq0⟩ : g = 0 ∧ q = 0 := by
      rcases Nat.eq_zero_or_pos g with hg0 | hg0
      · subst hg0
        exact ⟨rfl, by omega⟩
      · have := Nat.mul_pos hg0 hfpg
        omega
    subst hg0 hq0
    exact absurd (hb.symm.trans hfree) (by decide)

end Ufs
