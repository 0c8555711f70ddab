/-
# The loops over a character list

`q_to_b`, `ndflush` and a walk with `nextc` follow the chain from its first cblock;
`b_to_q` extends it at its last.
-/
import SunOS.Kern.TtySubrQueue
import Mathlib.Tactic.Positivity

namespace Clist

open List

variable {h : Heap} {q : clist} {b : ℕ} {free bs : List ℕ} {dat : List UInt8}

variable {c_info : ℕ → UInt8}

/-- **`q_to_b`** takes the first characters. -/
theorem q_to_bLoop_spec (cc : ℕ) (hl : Local h q free bs dat) (hne : dat ≠ []) :
    ∃ free' bs', Local (q_to_bLoop cc q h).2.1 (q_to_bLoop cc q h).1 free' bs' (dat.drop cc) ∧
      Moves h (q_to_bLoop cc q h).2.1 (free ++ bs) (free' ++ bs') ∧
      (q_to_bLoop cc q h).2.2 = dat.take cc := by
  induction cc generalizing q h free bs dat with
  | zero => exact ⟨free, bs, hl, .refl _ _, rfl⟩
  | succ cc ih =>
    obtain ⟨x, dat, rfl⟩ := exists_cons_of_ne_nil hne
    obtain ⟨free1, bs1, hl1, hm1, hx⟩ := takeChar_spec hl
    have hcc := hl1.queue.c_cc
    rw [q_to_bLoop]
    by_cases hnil : dat = []
    · rw [if_pos (by rw [hcc, hnil]; simp), hx, hnil]
      rw [hnil] at hl1
      exact ⟨free1, bs1, by simpa using hl1, hm1, by simp⟩
    · have hpos : 0 < dat.length := List.length_pos_iff.mpr hnil
      obtain ⟨free2, bs2, hl2, hm2, hout⟩ := ih hl1 hnil
      rw [if_neg (by rw [hcc]; omega)]
      refine ⟨free2, bs2, hl2, hm1.trans hm2, ?_⟩
      rw [take_succ_cons, ← hout, ← hx]

theorem chars_drop {p e n : ℕ} : (chars c_info p e).drop n = chars c_info (p + n) e := by
  rw [chars, chars, ← map_drop, List.drop_range', Nat.mul_one, Nat.sub_add_eq]

/-- The characters left in the first cblock, and those in the others. -/
theorem Holds.split {cl cf : ℕ} (hh : Holds c_info cl cf (b :: bs) dat) :
    (bs = [] ∧ dat = chars c_info cf cl ∧ info b ≤ cf ∧ cf < cl ∧ cl ≤ b + 32) ∨
      ∃ b' bs' dat', bs = b' :: bs' ∧ dat = chars c_info cf (b + 32) ++ dat' ∧ info b ≤ cf ∧
        cf < b + 32 ∧ Holds c_info cl (info b') bs dat' := by
  cases hh with
  | last h1 h2 h3 => exact Or.inl ⟨rfl, rfl, h1, h2, h3⟩
  | more h1 h2 hh => exact Or.inr ⟨_, _, _, rfl, rfl, h1, h2, hh⟩

/-- What `ndflush` leaves of the queue it has emptied. -/
def reset (q : clist) : clist := if q.c_cc ≤ 0 then ⟨0, 0, 0⟩ else q

/-- **`ndflush`** flushes the first characters, a cblock at a time; it ends. -/
theorem ndflushLoop_spec (fuel : ℕ) (cc : ℤ) (hl : Local h q free bs dat) (hne : dat ≠ [])
    (hfuel : dat.length < fuel) :
    ∃ q' h' free' bs', ndflushLoop fuel cc q h = some (q', h') ∧
      Local h' (reset q') free' bs' (dat.drop cc.toNat) ∧
      Moves h h' (free ++ bs) (free' ++ bs') := by
  induction fuel generalizing q h free bs dat cc with
  | zero => lia
  | succ fuel ih =>
    have hcc := hl.queue.c_cc
    have hpos : 0 < dat.length := List.length_pos_iff.mpr hne
    have hreset : reset q = q := if_neg (by lia)
    rw [ndflushLoop]
    by_cases hmore : cc > 0
    · rw [if_pos ⟨hmore, by lia⟩]
      rcases hl.queue with ⟨-, hnil, -⟩ | ⟨hholds, hchain, -⟩
      · exact absurd hnil hne
      obtain ⟨b, bs, rfl⟩ := exists_cons_of_ne_nil hholds.ne_nil.1
      have hal : 32 ∣ b := hl.aligned b (by simp)
      have hbounds := hholds.bounds
      rw [info] at hbounds
      simp only [cblock_eq hal (show b ≤ q.c_cf by lia) hbounds.2]
      rcases hholds.split with ⟨rfl, hdat, h1, h2, h3⟩ | ⟨b', bs', dat', rfl, hdat, h1, h2, hh⟩
      · have hlen : dat.length = q.c_cl - q.c_cf := by rw [hdat, chars_length]
        rw [if_pos (cblock_eq hal (by lia) (by lia)).symm]
        by_cases hall : cc ≥ (q.c_cl : ℤ) - q.c_cf
        · -- all that was left goes
          have hq : Queue h ⟨0, 0, 0⟩ [] [] := Or.inl ⟨rfl, rfl, rfl⟩
          obtain ⟨hl', hm⟩ := hl.release hq
          cases fuel with
          | zero => lia
          | succ fuel =>
            rw [if_pos hall, ndflushLoop, if_neg fun h => h.2 (by rw [hcc, hlen]; simp; lia)]
            refine ⟨_, _, _, _, rfl, ?_, hm⟩
            rw [drop_of_length_le (by lia), reset, if_pos (by rw [hcc]; simp; lia)]
            exact hl'
        · have hq : q.c_cc - cc = ((dat.drop cc.toNat).length : ℤ) := by
            rw [length_drop]
            lia
          rw [if_neg hall, if_neg (show ¬ q.c_cc - cc ≤ 0 by lia)]
          refine ⟨_, _, _, _, rfl, ?_, .refl _ _⟩
          rw [reset, if_neg (show ¬ q.c_cc - cc ≤ 0 by lia)]
          refine ⟨Or.inr ⟨?_, hchain, hq⟩, hl.list, hl.count, hl.nodup, hl.aligned⟩
          rw [hdat, chars_drop]
          exact .last (show info b ≤ q.c_cf + cc.toNat by lia)
            (show q.c_cf + cc.toNat < q.c_cl by lia) h3
      · have hnodup := hl.nodup
        rw [nodup_append, nodup_cons] at hnodup
        have hlast : cblock (q.c_cl - 1) ≠ b := by
          obtain ⟨cs, c, hcs⟩ : ∃ cs c, b' :: bs' = cs ++ [c] :=
            ⟨_, _, (dropLast_append_getLast (cons_ne_nil b' bs')).symm⟩
          rw [hcs] at hh hnodup
          have hb := hh.bounds_last
          rw [info] at hb
          rw [cblock_eq (hl.aligned c (by rw [hcs]; simp)) (by lia) (by lia)]
          exact fun heq => hnodup.2.1.1 (by rw [heq]; simp)
        have hlen : dat.length = (b + 32 - q.c_cf) + dat'.length := by
          rw [hdat, length_append, chars_length]
        have hne' : dat' ≠ [] := hh.ne_nil.2
        rw [if_neg (Ne.symm hlast), sizeofCblock]
        by_cases hall : cc ≥ ((b + 32 : ℕ) : ℤ) - q.c_cf
        · -- the first cblock goes
          have hnext : h.c_next b = b' := hchain.2.2.1
          have hq : Queue h ⟨q.c_cc - (((b + 32 : ℕ) : ℤ) - q.c_cf), info (h.c_next b), q.c_cl⟩
              (b' :: bs') dat' := by
            refine Or.inr ⟨hnext ▸ hh, hnext ▸ hchain.2.2, ?_⟩
            show q.c_cc - (((b + 32 : ℕ) : ℤ) - q.c_cf) = dat'.length
            lia
          obtain ⟨hl', hm⟩ := hl.release hq
          obtain ⟨q', h', free', bs'', hrun, hl'', hm'⟩ :=
            ih (cc - (((b + 32 : ℕ) : ℤ) - q.c_cf)) hl' hne' (by lia)
          rw [if_pos hall]
          refine ⟨q', h', free', bs'', hrun, ?_, hm.trans hm'⟩
          rw [hdat, drop_append, drop_of_length_le (by rw [chars_length]; lia),
            nil_append, chars_length]
          rwa [show cc.toNat - (b + 32 - q.c_cf) = (cc - (((b + 32 : ℕ) : ℤ) - q.c_cf)).toNat by
            lia]
        · have hq : q.c_cc - cc = ((dat.drop cc.toNat).length : ℤ) := by
            rw [length_drop]
            lia
          rw [if_neg hall, if_neg (show ¬ q.c_cc - cc ≤ 0 by lia)]
          refine ⟨_, _, _, _, rfl, ?_, .refl _ _⟩
          rw [reset, if_neg (show ¬ q.c_cc - cc ≤ 0 by lia)]
          refine ⟨Or.inr ⟨?_, hchain, hq⟩, hl.list, hl.count, hl.nodup, hl.aligned⟩
          rw [hdat, drop_append_of_le_length (by rw [chars_length]; lia), chars_drop]
          exact .more (show info b ≤ q.c_cf + cc.toNat by lia)
            (show q.c_cf + cc.toNat < b + 32 by lia) hh
    · rw [if_neg fun h => hmore h.1]
      refine ⟨q, h, free, bs, rfl, ?_, .refl _ _⟩
      rw [hreset, show cc.toNat = 0 by lia]
      exact hl

/-- **A walk with `nextc`** reads all the characters. -/
theorem nextcs_spec {cp fuel : ℕ} {d : List UInt8} (hq : q.c_cc ≠ 0)
    (hholds : Holds h.c_info q.c_cl cp (b :: bs) d) (hchain : Chain h.c_next b (b :: bs))
    (hnodup : (b :: bs).Nodup) (hal : ∀ b' ∈ b :: bs, 32 ∣ b') (hfuel : d.length ≤ fuel) :
    nextcs q h fuel cp = some d := by
  induction d generalizing cp fuel b bs with
  | nil => exact absurd rfl hholds.ne_nil.2
  | cons x d ih =>
    have hbounds := hholds.bounds
    rw [info] at hbounds
    have hapart : ∀ c ∈ bs, c + 32 ≤ b ∨ b + 32 ≤ c := by
      intro c hc
      have h1 := hal b (by simp)
      have h2 := hal c (by simp [hc])
      have hne : c ≠ b := fun heq => (List.nodup_cons.mp hnodup).1 (heq ▸ hc)
      lia
    obtain ⟨d', hd, hcases⟩ := hholds.uncons hapart
    rw [List.cons.injEq] at hd
    obtain ⟨hx, rfl⟩ := hd
    obtain ⟨p, rfl⟩ : ∃ p, cp = p + 1 := ⟨cp - 1, by lia⟩
    obtain ⟨fuel, rfl⟩ : ∃ n, fuel = n + 1 := ⟨fuel - 1, by rw [length_cons] at hfuel; lia⟩
    rw [length_cons] at hfuel
    rw [nextcs, nextc]
    rcases hcases with ⟨rfl, -, hlast⟩ | ⟨hlast, -, ⟨b', bs', rfl, hfull, hh⟩ | ⟨hroom, hh⟩⟩
    · rw [if_neg fun h => h.2 hlast, nextcs, hx]
      rfl
    · rw [if_pos ⟨hq, hlast⟩, hfull, if_pos (round_full (hal b (by simp))), sizeofCblock,
        Nat.add_sub_cancel, show h.c_next b = b' from hchain.2.2.1,
        ih hh (hchain.2.2.1 ▸ hchain.2.2) (List.nodup_cons.mp hnodup).2
          (fun c hc => hal c (by simp [hc])) (by lia), hx]
      rfl
    · rw [if_pos ⟨hq, hlast⟩, if_neg (by rw [round_eq (hal b (by simp)) (by lia) hroom]; lia),
        ih hh hchain hnodup hal (by lia), hx]
      rfl

theorem Local.room_nonneg (hl : Local h q free bs dat) (cq : ℕ) : 0 ≤ roomFrom cq h := by
  have hcount : 0 ≤ h.cfreecount := by
    rw [hl.count]
    positivity
  rw [roomFrom]
  by_cases hcq : cq = 0
  · rw [if_pos hcq]
    omega
  · rw [if_neg hcq]
    omega

/-- **`b_to_q`** appends the characters there is room for. -/
theorem b_to_qLoop_spec {cq cf : ℕ} {n : ℤ} (cp : List UInt8)
    (hl : Local h ⟨n, cf, cq⟩ free bs dat) (hne : dat ≠ []) :
    ∃ k free' bs', k = min cp.length (roomFrom cq h).toNat ∧
      (b_to_qLoop cq h cp).2.2 = cp.drop k ∧
      Local (b_to_qLoop cq h cp).2.1 ⟨n + k, cf, (b_to_qLoop cq h cp).1⟩ free' bs'
        (dat ++ cp.take k) ∧
      Moves h (b_to_qLoop cq h cp).2.1 (free ++ bs) (free' ++ bs') := by
  induction cp generalizing cq h free bs dat n with
  | nil =>
    refine ⟨0, free, bs, by simp, rfl, ?_, .refl _ _⟩
    simpa [b_to_qLoop] using hl
  | cons c cp ih =>
    obtain ⟨hroom, hfull, hnew⟩ := hl.put_next (x := c) hne
    -- after one character the rest goes as the induction says
    have hrest : ∀ {h' : Heap} {cq' : ℕ} {free' bs' : List ℕ},
        Local h' ⟨n + 1, cf, cq'⟩ free' bs' (dat ++ [c]) →
        Moves h h' (free ++ bs) (free' ++ bs') → roomFrom cq' h' = roomFrom cq h - 1 →
        b_to_qLoop cq h (c :: cp) = b_to_qLoop cq' h' cp →
        ∃ k free' bs', k = min (c :: cp).length (roomFrom cq h).toNat ∧
          (b_to_qLoop cq h (c :: cp)).2.2 = (c :: cp).drop k ∧
          Local (b_to_qLoop cq h (c :: cp)).2.1 ⟨n + k, cf, (b_to_qLoop cq h (c :: cp)).1⟩ free' bs'
            (dat ++ (c :: cp).take k) ∧
          Moves h (b_to_qLoop cq h (c :: cp)).2.1 (free ++ bs) (free' ++ bs') := by
      intro h' cq' free' bs' hl' hm' hr hloop
      have hnonneg := hl'.room_nonneg cq'
      obtain ⟨k, free'', bs'', hk, hleft, hl'', hm''⟩ := ih hl' (by simp)
      rw [hloop]
      refine ⟨k + 1, free'', bs'', ?_, hleft, ?_, hm'.trans hm''⟩
      · rw [hk, length_cons, hr]
        omega
      · rw [append_assoc, singleton_append, add_assoc] at hl''
        rw [take_succ_cons]
        push_cast
        rwa [add_comm (k : ℤ) 1]
    by_cases hround : round cq = 0
    · by_cases hlist : h.cfreelist = 0
      · obtain ⟨hl', hm', hr⟩ := hfull hround hlist
        rw [b_to_qLoop, if_pos hround, if_pos hlist]
        refine ⟨0, free, bs, by rw [hr]; simp, rfl, ?_, hm'⟩
        simpa using hl'
      · obtain ⟨free', bs', hl', hm', hr⟩ := hnew hround hlist
        exact hrest hl' hm' hr (by rw [b_to_qLoop, if_pos hround, if_neg hlist])
    · obtain ⟨hl', hm', hr⟩ := hroom hround
      exact hrest hl' hm' hr (by rw [b_to_qLoop, if_neg hround])

end Clist
