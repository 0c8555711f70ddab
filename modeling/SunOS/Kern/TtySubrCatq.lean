/-
# One character list behind another (`catq`)

`catq` moves one character after the other.  A cblock of `from` is freed with its last character,
just before that is put; until then all the characters must find room behind those of `to`.  Once
the first cblock is free there is always room, as one more cblock of `from` fills what is left of
the last cblock of `to` and the cblock freed last.
-/
import SunOS.Kern.TtySubrRuns

namespace Clist

open List
open Function (update update_of_ne update_self)

variable {ι : Type*} [DecidableEq ι] {blocks : Set ℕ} {f : ι → List UInt8} {s s' : State ι}
  {free : List ℕ} {ch : ι → List ℕ} {fromq toq : ι} {q : clist} {h : Heap} {b : ℕ} {bs : List ℕ}
  {dat : List UInt8} {x : UInt8}

/-! ## The characters of the first cblock -/

theorem ndqb_eq (hcc : 0 < q.c_cc) (hcf : 4 ≤ q.c_cf % 32) :
    ndqb q = min q.c_cc (32 - q.c_cf % 32 : ℕ) := by
  unfold ndqb
  rw [if_neg (by lia), CBSIZE, sizeofCblock]
  simp only []
  split_ifs <;> lia

theorem ndqb_le (q : clist) (hcc : 0 ≤ q.c_cc) : ndqb q ≤ CBSIZE := by
  unfold ndqb
  rw [CBSIZE, sizeofCblock]
  simp only []
  split_ifs <;> omega

/-- Where the first character of a queue can be. -/
theorem Local.c_cf_mod (hl : Local h q free bs dat) (hne : dat ≠ []) : 4 ≤ q.c_cf % 32 := by
  rcases hl.queue with ⟨-, hnil, -⟩ | ⟨hholds, -, -⟩
  · exact absurd hnil hne
  obtain ⟨b, bs, rfl⟩ := exists_cons_of_ne_nil hholds.ne_nil.1
  have hal : 32 ∣ b := hl.aligned b (by simp)
  have hbounds := hholds.bounds
  rw [info] at hbounds
  omega

/-- A character is taken: the last of the first cblock, which is freed, or another. -/
theorem takeChar_first (hl : Local h q free bs (x :: dat)) :
    (ndqb q = 1 ∧ (takeChar q h).2.1.cfreecount = h.cfreecount + CBSIZE) ∨
      1 < ndqb q ∧ ndqb (takeChar q h).1 = ndqb q - 1 ∧
        (takeChar q h).2.1.cfreecount = h.cfreecount := by
  have hcc := hl.queue.c_cc
  rw [length_cons] at hcc
  have hcf := hl.c_cf_mod (cons_ne_nil x dat)
  have hn := ndqb_eq (q := q) (by lia) hcf
  unfold takeChar
  by_cases hlast : q.c_cc - 1 ≤ 0
  · rw [if_pos hlast]
    exact Or.inl ⟨by lia, rfl⟩
  · rw [if_neg hlast]
    by_cases hround : round (q.c_cf + 1) = 0
    · rw [if_pos hround]
      rw [round, sizeofCblock] at hround
      exact Or.inl ⟨by lia, rfl⟩
    · rw [if_neg hround]
      rw [round, sizeofCblock] at hround
      refine Or.inr ⟨by lia, ?_, rfl⟩
      rw [hn, ndqb_eq (show 0 < q.c_cc - 1 by lia) (show 4 ≤ (q.c_cf + 1) % 32 by lia)]
      show min (q.c_cc - 1) ((32 - (q.c_cf + 1) % 32 : ℕ) : ℤ) = _
      lia

/-! ## The room behind the other list -/

/-- A character that is put takes room for one. -/
theorem putc_room (hr : Refines blocks f s free ch) (hal : ∀ b ∈ blocks, 32 ∣ b) (c : ℤ)
    (hroom : s.room toq ≠ 0) : (putc toq c s).1.room toq = s.room toq - 1 := by
  have hl := hr.local hal toq
  have hcc := hl.queue.c_cc
  unfold putc
  by_cases hnil : f toq = []
  · rw [hnil] at hl
    obtain ⟨hbs, hq⟩ := hl.queue.nil
    have hroom' : s.room toq = s.heap.cfreecount := by
      rw [State.room, hq, roomFrom]
      simp
    have hlist : s.heap.cfreelist ≠ 0 := by
      intro hlist
      refine hroom (hroom'.trans ?_)
      rw [hl.count, hl.list.eq_zero_iff.mp hlist]
      simp
    rw [hbs] at hl
    obtain ⟨free', bs', -, -, hput⟩ := hl.put_first (x := char c) hlist
    rw [if_pos (Or.inl (by rw [hq])), if_neg hlist, hroom', ← hput, State.room]
    simp [State.set]
  · have hpos : 0 < (f toq).length := List.length_pos_iff.mpr hnil
    have hcl : ¬ ((s.q toq).c_cl = 0 ∨ (s.q toq).c_cc < 0) := by
      rintro (hcl | hneg)
      · exact hnil (hl.queue.null_iff.2.mp hcl)
      · omega
    obtain ⟨hsame, hfull, hnew⟩ := hl.put_next (x := char c) hnil
    rw [if_neg hcl]
    by_cases hround : round (s.q toq).c_cl = 0
    · have hlist : s.heap.cfreelist ≠ 0 := fun hlist => hroom (hfull hround hlist).2.2
      obtain ⟨free', bs', -, -, hput⟩ := hnew hround hlist
      rw [if_pos hround, if_neg hlist]
      simpa [State.room, State.set] using hput
    · rw [if_neg hround]
      simpa [State.room, State.set] using (hsame hround).2.2

/-! ## The loop -/

theorem char_toNat (x : UInt8) : char (x.toNat : ℤ) = x := by
  have hlt := x.toNat_lt
  rw [char, Int.emod_eq_of_lt (by omega) (by omega), Int.toNat_natCast]
  exact UInt8.ofNat_toNat

/-- The first cblock of `from` is free before `to` runs out of room. -/
def Suffices (s : State ι) (fromq toq : ι) : Prop := ndqb (s.q fromq) ≤ s.room toq + 1

/-- What a round leaves: the character has moved if there was room for it, and without room for the
whole first cblock it is lost or there still is not. -/
structure Round (f : ι → List UInt8) (s : State ι) (fromq toq : ι) (x : UInt8) (dat : List UInt8)
    (f' : ι → List UInt8) (s' : State ι) : Prop where
  taken : f' fromq = dat
  put : f' toq = f toq ∨ f' toq = f toq ++ [x]
  others : ∀ p, p ≠ fromq → p ≠ toq → f' p = f p
  moved : Suffices s fromq toq → f' toq = f toq ++ [x] ∧ Suffices s' fromq toq
  lost : ¬ Suffices s fromq toq → f' toq = f toq ∨ ¬ Suffices s' fromq toq

section

variable (hr : Refines blocks f s free ch)
include hr

theorem catq_round (hal : ∀ b ∈ blocks, 32 ∣ b) (hne : fromq ≠ toq) (hf : f fromq = x :: dat) :
    ∃ s' f' free' ch', (∀ fuel, catq fromq toq (fuel + 1) s = catq fromq toq fuel s') ∧
      Refines blocks f' s' free' ch' ∧ Round f s fromq toq x dat f' s' := by
  have hl := hr.local hal fromq
  rw [hf] at hl
  have hcc := hl.queue.c_cc
  have hget : getc fromq s = (s.set fromq (takeChar (s.q fromq) s.heap).1
      (takeChar (s.q fromq) s.heap).2.1, (x.toNat : ℤ)) := by
    obtain ⟨-, -, -, -, hx⟩ := takeChar_spec hl
    rw [getc, if_neg (by rw [hcc, length_cons]; lia), ← hx]
  obtain ⟨hres, free1, ch1, hr1⟩ := getc_agrees hr hal fromq
  rw [hget] at hr1
  simp only [fexec, hf] at hr1
  generalize hs1 : s.set fromq (takeChar (s.q fromq) s.heap).1
    (takeChar (s.q fromq) s.heap).2.1 = s1
    at hget hr1
  -- what has become of the room and of the first cblock
  have hfrom : s1.q fromq = (takeChar (s.q fromq) s.heap).1 := by
    rw [← hs1]
    exact update_self _ _ _
  have hroom : s1.room toq - s.room toq = s1.heap.cfreecount - s.heap.cfreecount := by
    have hto : s1.q toq = s.q toq := by
      rw [← hs1]
      exact update_of_ne (Ne.symm hne) _ _
    rw [State.room, State.room, hto, roomFrom, roomFrom]
    ring
  have hcount : s1.heap.cfreecount = (takeChar (s.q fromq) s.heap).2.1.cfreecount :=
    by rw [← hs1]; rfl
  have hle : ndqb (s1.q fromq) ≤ CBSIZE :=
    ndqb_le _ (by rw [(hr1.queue fromq).c_cc]; positivity)
  have hfirst := takeChar_first hl
  rw [← hfrom, ← hcount, CBSIZE] at hfirst
  have hroom0 : 0 ≤ s.room toq := (hr.local hal toq).room_nonneg _
  rw [CBSIZE] at hle
  obtain ⟨-, free2, ch2, hr2⟩ := putc_agrees hr1 hal toq (x.toNat : ℤ)
  have hstep : ∀ fuel, catq fromq toq (fuel + 1) s =
      catq fromq toq fuel (putc toq (x.toNat : ℤ) s1).1 := by
    intro fuel
    rw [catq, hget]
    exact if_pos (by simp)
  refine ⟨_, _, free2, ch2, hstep, hr2, ?_⟩
  have hqfrom : (putc toq (x.toNat : ℤ) s1).1.q fromq = s1.q fromq := by
    unfold putc
    simp only []
    split_ifs <;> first | rfl | exact update_of_ne hne _ _
  simp only [fexec, char_toNat]
  have hto : update f fromq dat toq = f toq := update_of_ne (Ne.symm hne) _ _
  by_cases hfull : s1.room toq = 0
  · rw [if_pos hfull]
    have hnot : ¬ Suffices s fromq toq := by
      intro hsuff
      rw [Suffices] at hsuff
      rcases hfirst with ⟨h1, h2⟩ | ⟨h1, h2, h3⟩ <;> lia
    exact ⟨update_self _ _ _, Or.inl hto, fun p hp _ => update_of_ne hp _ _,
      fun hsuff => absurd hsuff hnot, fun _ => Or.inl hto⟩
  · rw [if_neg hfull]
    have hput := putc_room hr1 hal (x.toNat : ℤ) hfull
    have hmoved : update (update f fromq dat) toq
        (update f fromq dat toq ++ [x]) toq = f toq ++ [x] := by
      rw [update_self, hto]
    simp only []
    refine ⟨?_, Or.inr hmoved, fun p hp hp' => ?_, fun hsuff => ⟨hmoved, ?_⟩, fun hnot => Or.inr ?_⟩
    · rw [update_of_ne hne, update_self]
    · rw [update_of_ne hp', update_of_ne hp]
    · rw [Suffices] at hsuff ⊢
      rw [hqfrom, hput]
      rcases hfirst with ⟨h1, h2⟩ | ⟨h1, h2, h3⟩ <;> lia
    · rw [Suffices] at hnot ⊢
      rw [hqfrom, hput]
      rcases hfirst with ⟨h1, h2⟩ | ⟨h1, h2, h3⟩ <;> lia

/-- The loop ends when `from` is empty. -/
theorem catq_nil (hal : ∀ b ∈ blocks, 32 ∣ b)
    (hf : f fromq = []) (fuel : ℕ) : catq fromq toq (fuel + 1) s = some s := by
  have hl := hr.local hal fromq
  rw [hf] at hl
  have hq := hl.queue.nil.2
  have hget : getc fromq s = (s, -1) := by
    rw [getc, if_pos (by rw [hq]), ← hq, State.set_self]
  rw [catq, hget]
  rfl

/-- **What `catq` leaves**: without room for the first cblock of `from` some character is lost. -/
theorem catq_spec (hal : ∀ b ∈ blocks, 32 ∣ b)
    (hne : fromq ≠ toq) {fuel : ℕ} (hrun : catq fromq toq fuel s = some s') :
    ∃ f' free' ch', Refines blocks f' s' free' ch' ∧ f' fromq = [] ∧
      (∀ p, p ≠ fromq → p ≠ toq → f' p = f p) ∧
      (f' toq).length ≤ (f toq).length + (f fromq).length ∧
      (Suffices s fromq toq → f' toq = f toq ++ f fromq) ∧
      (¬ Suffices s fromq toq → (f' toq).length < (f toq).length + (f fromq).length) := by
  induction fuel generalizing s f free ch with
  | zero => cases hrun
  | succ fuel ih =>
    cases hf : f fromq with
    | nil =>
      rw [catq_nil hr hal hf, Option.some.injEq] at hrun
      subst hrun
      have hl := hr.local hal fromq
      rw [hf] at hl
      have hsuff : Suffices s fromq toq := by
        have hroom := (hr.local hal toq).room_nonneg (s.q toq).c_cl
        rw [Suffices, hl.queue.nil.2, State.room]
        show (0 : ℤ) ≤ _
        omega
      exact ⟨f, free, ch, hr, hf, fun _ _ _ => rfl, by simp, fun _ => by simp,
        fun hnot => absurd hsuff hnot⟩
    | cons x dat =>
      obtain ⟨s1, f1, free1, ch1, hstep, hr1, hround⟩ := catq_round hr hal hne hf
      rw [hstep] at hrun
      obtain ⟨f', free', ch', hr', hfrom, hothers, hle, hmoved, hlost⟩ := ih hr1 hrun
      rw [hround.taken] at hle hmoved hlost
      have hto : (f1 toq).length ≤ (f toq).length + 1 := by
        rcases hround.put with h | h
        · rw [h]
          omega
        · rw [h, length_append, length_singleton]
      refine ⟨f', free', ch', hr', hfrom, fun p hp hp' => ?_, ?_, fun hsuff => ?_, fun hnot => ?_⟩
      · rw [hothers p hp hp', hround.others p hp hp']
      · rw [length_cons]
        omega
      · obtain ⟨hput, hsuff'⟩ := hround.moved hsuff
        rw [hmoved hsuff', hput, append_assoc, singleton_append]
      · rw [length_cons]
        rcases hround.lost hnot with h | h
        · rw [h] at hle
          omega
        · have hlt := hlost h
          omega

theorem catq_ends (hal : ∀ b ∈ blocks, 32 ∣ b)
    (hne : fromq ≠ toq) {fuel : ℕ} (hfuel : (f fromq).length < fuel) :
    ∃ s', catq fromq toq fuel s = some s' := by
  induction fuel generalizing s f free ch with
  | zero => exact absurd hfuel (Nat.not_lt_zero _)
  | succ fuel ih =>
    cases hf : f fromq with
    | nil => exact ⟨s, catq_nil hr hal hf fuel⟩
    | cons x dat =>
      obtain ⟨s1, f1, free1, ch1, hstep, hr1, hround⟩ := catq_round hr hal hne hf
      rw [hf, length_cons] at hfuel
      obtain ⟨s', hs'⟩ := ih hr1 (by rw [hround.taken]; omega)
      exact ⟨s', (hstep fuel).trans hs'⟩

end

/-- `catq` ends with the contents of `from` behind those of `to`, and all else as it was. -/
def Catenates (blocks : Set ℕ) (f : ι → List UInt8) (s : State ι) (fromq toq : ι) : Prop :=
  ∃ fuel s' f' free' ch', catq fromq toq fuel s = some s' ∧ Refines blocks f' s' free' ch' ∧
    f' toq = f toq ++ f fromq ∧ f' fromq = [] ∧ ∀ p, p ≠ fromq → p ≠ toq → f' p = f p

/-- **`catq` loses no character exactly when `to` has room for the first cblock of `from`**, up to
its last character. -/
theorem catq_iff (hr : Refines blocks f s free ch) (hal : ∀ b ∈ blocks, 32 ∣ b) (fromq toq : ι) :
    Catenates blocks f s fromq toq ↔
      f fromq = [] ∨ fromq ≠ toq ∧ ndqb (s.q fromq) ≤ s.room toq + 1 := by
  by_cases hnil : f fromq = []
  · refine iff_of_true ?_ (Or.inl hnil)
    exact ⟨1, s, f, free, ch, catq_nil hr hal hnil 0, hr, by rw [hnil, append_nil], hnil,
      fun _ _ _ => rfl⟩
  rw [or_iff_right hnil]
  constructor
  · rintro ⟨fuel, s', f', free', ch', hrun, hr', hto, hfrom, -⟩
    have hne : fromq ≠ toq := by
      rintro rfl
      rw [hto] at hfrom
      exact hnil (List.append_eq_nil_iff.mp hfrom).1
    refine ⟨hne, ?_⟩
    by_contra hnot
    obtain ⟨f'', free'', ch'', hr'', -, -, -, -, hlost⟩ := catq_spec hr hal hne hrun
    have hlt := hlost hnot
    have hcc := (hr'.queue toq).c_cc
    rw [(hr''.queue toq).c_cc, hto, length_append] at hcc
    omega
  · rintro ⟨hne, hsuff⟩
    obtain ⟨s', hrun⟩ := catq_ends hr hal hne (Nat.lt_succ_self _)
    obtain ⟨f', free', ch', hr', hfrom, hothers, -, hmoved, -⟩ := catq_spec hr hal hne hrun
    exact ⟨_, s', f', free', ch', hrun, hr', hmoved hsuff, hfrom, hothers⟩

/-! ## An empty free list -/

/-- Two queues and three cblocks, all free. -/
def pair : State Bool := cinit 32 4 (fun _ => 0) (fun _ => 0)

/-- One queue fills two cblocks and the other has two characters in the third. -/
def crowded : State Bool := (b_to_q true [1, 2] (b_to_q false (List.replicate 56 7) pair).1).1

/-- What the queues of `crowded` hold. -/
def crowdedChars : Bool → List UInt8
  | true => [1, 2]
  | false => List.replicate 56 7

theorem crowded_refines : ∃ free ch, Refines (cblocks 32 4) crowdedChars crowded free ch := by
  have hal : ∀ b ∈ cblocks 32 4, 32 ∣ b := fun b hb => hb.2.2
  obtain ⟨free, hr⟩ := cinit_refines Bool 4 (show 32 ≠ 0 by decide) (fun _ => 0) (fun _ => 0)
  obtain ⟨-, free1, ch1, hr1⟩ := b_to_q_agrees hr hal false (List.replicate 56 7)
  obtain ⟨-, free2, ch2, hr2⟩ := b_to_q_agrees hr1 hal true [1, 2]
  have hf : (fexec ((b_to_q false (List.replicate 56 7) pair).1).room
      (fexec pair.room (fun _ : Bool => []) (.b_to_q (List.replicate 56 7) false)).1
      (.b_to_q [1, 2] true)).1 = crowdedChars := by
    funext p
    cases p
    · decide +kernel
    · decide +kernel
  exact ⟨free2, ch2, hf ▸ hr2⟩

theorem catq_iff_crowded : ∃ free ch, Refines (cblocks 32 4) crowdedChars crowded free ch ∧
    (Catenates (cblocks 32 4) crowdedChars crowded false true ↔
      crowdedChars false = [] ∨
        (false ≠ true) ∧ ndqb (crowded.q false) ≤ crowded.room true + 1) := by
  obtain ⟨free, ch, hr⟩ := crowded_refines
  exact ⟨free, ch, hr, catq_iff hr (fun b hb => hb.2.2) false true⟩

/-- The first of the two characters is lost. -/
theorem not_catenates_crowded : ∃ free ch, Refines (cblocks 32 4) crowdedChars crowded free ch ∧
    ¬ Catenates (cblocks 32 4) crowdedChars crowded true false := by
  obtain ⟨free, ch, hr⟩ := crowded_refines
  refine ⟨free, ch, hr, ?_⟩
  rintro ⟨fuel, s', f', free', ch', hrun, hr', hto, -, -⟩
  obtain ⟨f'', free'', ch'', hr'', -, -, -, -, hlost⟩ :=
    catq_spec hr (fun b hb => hb.2.2) (by decide) hrun
  have hnot : ¬ Suffices crowded true false := by
    have hroom : crowded.room false = 0 := by decide +kernel
    have hfirst : ndqb (crowded.q true) = 2 := by decide +kernel
    rw [Suffices, hroom, hfirst]
    decide
  have hlt := hlost hnot
  have hcc := (hr'.queue false).c_cc
  rw [(hr''.queue false).c_cc, hto, length_append] at hcc
  omega

end Clist
