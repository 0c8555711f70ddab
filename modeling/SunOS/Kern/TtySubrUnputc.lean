/-
# The last character taken back (`unputc`)

`unputc` undoes a `putc`: a cblock that the character has opened is found from the front of the
queue, unlinked and freed.  The character that is returned is read as a signed one.
-/
import SunOS.Kern.TtySubrRuns

namespace Clist

open List
open Function (update update_eq_self update_idem update_of_ne update_self)

variable {ι : Type*} [DecidableEq ι] {blocks : Set ℕ} {f : ι → List UInt8} {s s' : State ι}
  {free : List ℕ} {ch : ι → List ℕ} {p : ι} {h : Heap} {b nb : ℕ} {bs cs : List ℕ}
  {dat : List UInt8} {x : UInt8} {cl cf : ℕ} {c_info c_info' : ℕ → UInt8}

/-- Only the characters of a queue matter to it, not what is behind the last. -/
theorem Holds.behind (hh : Holds c_info cl cf (bs ++ [b]) dat)
    (hbs : ∀ c ∈ bs, c + 32 ≤ b ∨ b + 32 ≤ c) (hcl : cl < b + 32) :
    Holds (update c_info cl x) cl cf (bs ++ [b]) dat := by
  have hlast := hh.bounds_last
  rw [info] at hlast
  induction bs generalizing cf dat with
  | nil =>
    cases hh with
    | last h1 h2 h3 =>
      have heq : chars (update c_info cl x) cf cl = chars c_info cf cl :=
        chars_congr fun a _ ha => update_of_ne (by omega) _ _
      rw [← heq]
      exact .last h1 h2 h3
  | cons c bs ih =>
    have hc := hbs c (by simp)
    have heq : ∀ p, info c ≤ p →
        chars (update c_info cl x) p (c + 32) = chars c_info p (c + 32) := by
      intro p hp
      rw [info] at hp
      exact chars_congr fun a ha ha' => update_of_ne (by omega) _ _
    cases bs with
    | nil =>
      cases hh with
      | more h1 h2 hh =>
        rw [← heq cf h1]
        exact .more h1 h2 (ih hh (by simp))
    | cons d bs =>
      cases hh with
      | more h1 h2 hh =>
        rw [← heq cf h1]
        exact .more h1 h2 (ih hh fun e he => hbs e (by simp [he]))

/-- Nor does another cblock. -/
theorem Holds.elsewhere {a : ℕ} (hh : Holds c_info cl cf bs dat) (hal : ∀ b ∈ bs, 32 ∣ b)
    (hnb : 32 ∣ nb) (hmem : nb ∉ bs) (ha : nb ≤ a) (ha' : a < nb + 32) :
    Holds (update c_info a x) cl cf bs dat := by
  refine hh.congr fun b hb a' h1 h2 => update_of_ne ?_ _ _
  rintro rfl
  have hb' := hal b hb
  exact hmem ((show b = nb by omega) ▸ hb)

/-- The walk finds the cblock before `nb`. -/
theorem Heap.before_spec {h' : Heap} {first : ℕ} (hchain : Chain h.c_next first (cs ++ [b]))
    (hh' : h'.c_next = update (update h.c_next b nb) nb 0)
    (hb : b ∉ cs) (hnb : nb ∉ cs ++ [b]) {fuel : ℕ} (hfuel : cs.length < fuel) :
    h'.before nb fuel first = some b := by
  rw [mem_append, not_or, mem_singleton] at hnb
  obtain ⟨hncs, hnb⟩ := hnb
  induction cs generalizing first fuel with
  | nil =>
    obtain ⟨rfl, -, -⟩ := hchain
    obtain ⟨fuel, rfl⟩ := Nat.exists_eq_succ_of_ne_zero (show fuel ≠ 0 by omega)
    have hnext : h'.c_next first = nb := by
      rw [hh', update_of_ne (Ne.symm hnb), update_self]
    rw [Heap.before]
    exact if_neg (not_not.mpr hnext)
  | cons d cs ih =>
    obtain ⟨rfl, -, hchain⟩ := hchain
    rw [mem_cons, not_or] at hb hncs
    obtain ⟨fuel, rfl⟩ := Nat.exists_eq_succ_of_ne_zero (show fuel ≠ 0 by omega)
    have hnext : h'.c_next first = h.c_next first := by
      rw [hh', update_of_ne (Ne.symm hncs.1), update_of_ne (Ne.symm hb.1)]
    -- the next cblock of the queue is not the new one
    have hne : h.c_next first ≠ nb := by
      cases cs with
      | nil =>
        rw [hchain.1]
        exact Ne.symm hnb
      | cons e cs =>
        rw [hchain.1]
        exact fun heq => hncs.2 (heq ▸ mem_cons_self)
    rw [length_cons] at hfuel
    rw [Heap.before, hnext, if_pos hne]
    exact ih hchain hb.2 (by omega) hncs.2

/-! ## What is undone -/

/-- All queues, the chains of cblocks and the free list are as they were. -/
structure Restored (s s' : State ι) : Prop where
  q : s'.q = s.q
  c_next : s'.heap.c_next = s.heap.c_next
  cfreelist : s'.heap.cfreelist = s.heap.cfreelist
  cfreecount : s'.heap.cfreecount = s.heap.cfreecount
  cwaiting : s'.heap.cwaiting = s.heap.cwaiting

omit [DecidableEq ι] in
/-- Then the queues hold what they did, if the characters in them are. -/
theorem Restored.refines (hres : Restored s s') (hr : Refines blocks f s free ch)
    (hinfo : ∀ p cl cf, cl = (s.q p).c_cl → Holds s.heap.c_info cl cf (ch p) (f p) →
      Holds s'.heap.c_info cl cf (ch p) (f p)) : Refines blocks f s' free ch := by
  refine ⟨fun p => ?_, ?_, ?_, hr.nodup, hr.disjoint, hr.mem⟩
  · rw [hres.q]
    rcases hr.queue p with hq | ⟨hholds, hchain, hcc⟩
    · exact Or.inl hq
    · exact Or.inr ⟨hinfo p _ _ rfl hholds, by rwa [hres.c_next], hcc⟩
  · rw [hres.c_next, hres.cfreelist]
    exact hr.list
  · rw [hres.cfreecount]
    exact hr.count

omit [DecidableEq ι] in
/-- No queue sees the first character of a free cblock. -/
theorem Refines.free_info (hr : Refines blocks f s free ch) (hal : ∀ b ∈ blocks, 32 ∣ b)
    (hnb : nb ∈ free) (p : ι) (hh : Holds s.heap.c_info cl cf (ch p) (f p)) :
    Holds (update s.heap.c_info (info nb) x) cl cf (ch p) (f p) := by
  refine hh.elsewhere (fun b hb => hal b ((hr.mem b).mpr (Or.inr ⟨p, hb⟩)))
    (hal nb ((hr.mem nb).mpr (Or.inl hnb))) (fun hmem => ?_) (by rw [info]; omega)
    (by rw [info]; omega)
  exact (List.nodup_append.mp (hr.nodup p)).2.2 nb hnb nb hmem rfl

/-- A `putc` with its outcome: the first character of a queue, one that opens a cblock or one that
goes into the last. -/
theorem putc_cases (hr : Refines blocks f s free ch) (hal : ∀ b ∈ blocks, 32 ∣ b) {c : ℤ}
    (hput : (putc p c s).2 = 0) :
    (∃ nb free', free = nb :: free' ∧ f p = [] ∧ s.q p = ⟨0, 0, 0⟩ ∧
      (putc p c s).1 = s.set p ⟨1, info nb, info nb + 1⟩ (s.heap.grab.store (info nb) (char c))) ∨
    (∃ nb free' cs b, free = nb :: free' ∧ ch p = cs ++ [b] ∧ f p ≠ [] ∧ (s.q p).c_cl = b + 32 ∧
      (putc p c s).1 = s.set p ⟨(s.q p).c_cc + 1, (s.q p).c_cf, info nb + 1⟩
        (((s.heap.link b nb).grab).store (info nb) (char c))) ∨
    (∃ cs b, ch p = cs ++ [b] ∧ f p ≠ [] ∧ (s.q p).c_cl < b + 32 ∧
      (putc p c s).1 = s.set p ⟨(s.q p).c_cc + 1, (s.q p).c_cf, (s.q p).c_cl + 1⟩
        (s.heap.store (s.q p).c_cl (char c))) := by
  have hl := hr.local hal p
  have hcc := hl.queue.c_cc
  unfold putc at hput ⊢
  by_cases hnil : f p = []
  · rw [hnil] at hl
    have hq := hl.queue.nil.2
    rw [if_pos (Or.inl (by rw [hq]))] at hput ⊢
    by_cases hlist : s.heap.cfreelist = 0
    · rw [if_pos hlist] at hput
      exact absurd (show (-1 : ℤ) = 0 from hput) (by decide)
    · rw [if_neg hlist]
      cases free with
      | nil => exact absurd hl.list hlist
      | cons nb free =>
        have heq : s.heap.cfreelist = nb := hl.list.1
        exact Or.inl ⟨nb, free, rfl, hnil, hq, by rw [heq, hq]; rfl⟩
  · right
    rcases hl.queue with ⟨-, hnil', -⟩ | ⟨hholds, hchain, -⟩
    · exact absurd hnil' hnil
    obtain ⟨cs, b, hcs⟩ : ∃ cs b, ch p = cs ++ [b] :=
      ⟨_, _, (dropLast_append_getLast hholds.ne_nil.1).symm⟩
    have hlast := (hcs ▸ hholds).bounds_last
    rw [info] at hlast
    have hb : 32 ∣ b := hl.aligned b (by simp [hcs])
    rw [if_neg (by lia)] at hput ⊢
    by_cases hround : round (s.q p).c_cl = 0
    · left
      have hfull : (s.q p).c_cl = b + 32 := by
        rw [round, sizeofCblock] at hround
        lia
      rw [if_pos hround] at hput ⊢
      by_cases hlist : s.heap.cfreelist = 0
      · rw [if_pos hlist] at hput
        exact absurd (show (-1 : ℤ) = 0 from hput) (by decide)
      · rw [if_neg hlist]
        cases free with
        | nil => exact absurd hl.list hlist
        | cons nb free =>
          have heq : s.heap.cfreelist = nb := hl.list.1
          exact ⟨nb, free, cs, b, rfl, hcs, hnil, hfull,
            by rw [hfull, sizeofCblock, Nat.add_sub_cancel, heq]⟩
    · right
      have hroom : (s.q p).c_cl < b + 32 := by
        rw [round, sizeofCblock] at hround
        lia
      rw [if_neg hround]
      exact ⟨cs, b, hcs, hnil, hroom, rfl⟩

theorem State.set_q (s : State ι) (p : ι) (q : clist) (h : Heap) : (s.set p q h).q p = q :=
  update_self _ _ _

theorem State.set_set (s : State ι) (p : ι) (q q' : clist) (h h' : Heap) :
    (s.set p q h).set p q' h' = s.set p q' h' := by
  rw [State.set, State.set, State.set, update_idem]

/-- **`unputc` undoes `putc`**, and returns the character as a signed one. -/
theorem unputc_putc (hr : Refines blocks f s free ch) (hal : ∀ b ∈ blocks, 32 ∣ b) {c : ℤ}
    (hput : (putc p c s).2 = 0) :
    ∃ fuel s', unputc p fuel (putc p c s).1 = some (s', schar (char c)) ∧ Restored s s' ∧
      Refines blocks f s' free ch := by
  have hl := hr.local hal p
  have hcc := hl.queue.c_cc
  rcases putc_cases hr hal hput with ⟨nb, free', rfl, hnil, hq, hs⟩ |
    ⟨nb, free', cs, b, rfl, hcs, hne, hfull, hs⟩ | ⟨cs, b, hcs, hne, hroom, hs⟩
  · have hlist : s.heap.cfreelist = nb := hl.list.1
    have hnb : 32 ∣ nb := hl.aligned nb (by simp)
    have hblock : cblock (info nb) = nb := cblock_eq hnb (by rw [info]; lia) (by rw [info]; lia)
    have hres : Restored s (s.set p ⟨0, 0, 0⟩
        ((s.heap.grab.store (info nb) (char c)).giveback nb)) := by
      refine ⟨?_, ?_, hlist.symm, ?_, rfl⟩
      · rw [← hq]
        exact update_eq_self _ _
      · show update (update s.heap.c_next s.heap.cfreelist 0) nb
          (s.heap.c_next s.heap.cfreelist) = _
        rw [hlist, update_idem, update_eq_self]
      · show s.heap.cfreecount - CBSIZE + CBSIZE = _
        ring
    refine ⟨0, _, ?_, hres, hres.refines hr fun p cl cf _ hh =>
      hr.free_info hal mem_cons_self p hh⟩
    rw [hs, unputc, State.set_q, if_neg (by simp), if_pos (by simp), State.set_set]
    show some (s.set p ⟨0, 0, 0⟩ ((s.heap.grab.store (info nb) (char c)).giveback
      (cblock (info nb))), schar (update s.heap.c_info (info nb) (char c) (info nb))) = _
    rw [update_self, hblock]
  · have hlist : s.heap.cfreelist = nb := hl.list.1
    have hnb : 32 ∣ nb := hl.aligned nb (by simp)
    have hblock : cblock (info nb) = nb := cblock_eq hnb (by rw [info]; lia) (by rw [info]; lia)
    have hround : round (info nb) = info 0 := by
      rw [round_eq hnb (by rw [info]; lia) (by rw [info]; lia), info, info]
      lia
    have hpos : 0 < (f p).length := List.length_pos_iff.mpr hne
    rcases hl.queue with ⟨-, hnil, -⟩ | ⟨hholds, hchain, -⟩
    · exact absurd hnil hne
    have hnodup := List.nodup_append.mp hl.nodup
    have hfresh : nb ∉ cs ++ [b] := fun hmem =>
      hnodup.2.2 nb mem_cons_self nb (hcs ▸ hmem) rfl
    have hbnb : b ≠ nb := fun heq => hfresh (by rw [heq]; simp)
    have hbcs : b ∉ cs := fun hmem =>
      (List.nodup_append.mp (hcs ▸ hnodup.2.1)).2.2 b hmem b mem_cons_self rfl
    have hlast : s.heap.c_next b = 0 := (hcs ▸ hchain).next_last
    have hnext : ((s.heap.link b nb).grab.store (info nb) (char c)).c_next =
        update (update s.heap.c_next b nb) nb 0 := by
      show update (update s.heap.c_next b nb) s.heap.cfreelist 0 = _
      rw [hlist]
    have hat : ((s.heap.link b nb).grab.store (info nb) (char c)).c_next b = nb := by
      rw [hnext, update_of_ne hbnb, update_self]
    -- the walk begins at the first cblock of the queue
    have hfirst : cblock (s.q p).c_cf = (ch p).headD 0 := by
      obtain ⟨d, ds, hds⟩ := exists_cons_of_ne_nil hholds.ne_nil.1
      have hbounds := (hds ▸ hholds).bounds
      rw [info] at hbounds
      rw [hds, headD_cons]
      exact cblock_eq (hl.aligned d (by simp [hds])) (by lia) hbounds.2
    have hwalk : ((s.heap.link b nb).grab.store (info nb) (char c)).before nb (cs.length + 1)
        (cblock (s.q p).c_cf) = some b := by
      rw [hfirst]
      exact Heap.before_spec (hcs ▸ hchain) hnext hbcs hfresh (Nat.lt_succ_self _)
    have hres : Restored s (s.set p ⟨(s.q p).c_cc + 1 - 1, (s.q p).c_cf, b + sizeofCblock⟩
        ((((s.heap.link b nb).grab.store (info nb) (char c)).giveback nb).link b 0)) := by
      refine ⟨?_, ?_, hlist.symm, ?_, rfl⟩
      · have hq : (⟨(s.q p).c_cc + 1 - 1, (s.q p).c_cf, b + sizeofCblock⟩ : clist) = s.q p := by
          rw [add_sub_cancel_right, sizeofCblock, ← hfull]
        rw [hq]
        exact update_eq_self _ _
      · show update (update
          ((s.heap.link b nb).grab.store (info nb) (char c)).c_next nb
          (update s.heap.c_next b nb s.heap.cfreelist)) b 0 = _
        rw [hnext, hlist, update_idem, update_of_ne (Ne.symm hbnb),
          Function.update_comm (Ne.symm hbnb), update_idem, ← hlast,
          update_eq_self, update_eq_self]
      · show s.heap.cfreecount - CBSIZE + CBSIZE = _
        ring
    refine ⟨cs.length + 1, _, ?_, hres, hres.refines hr fun p cl cf _ hh =>
      hr.free_info hal mem_cons_self p hh⟩
    rw [hs, unputc, State.set_q]
    simp only [Nat.add_sub_cancel, hblock]
    rw [if_neg (by lia), if_neg (by lia), if_pos hround]
    show (Heap.before ((s.heap.link b nb).grab.store (info nb) (char c)) nb (cs.length + 1)
      (cblock (s.q p).c_cf)).map _ = _
    rw [hwalk, Option.map_some, State.set_set]
    show some (s.set p _ ((((s.heap.link b nb).grab.store (info nb) (char c)).giveback
      (((s.heap.link b nb).grab.store (info nb) (char c)).c_next b)).link b 0),
      schar (update s.heap.c_info (info nb) (char c) (info nb))) = _
    rw [hat, update_self]
  · have hpos : 0 < (f p).length := List.length_pos_iff.mpr hne
    rcases hl.queue with ⟨-, hnil, -⟩ | ⟨hholds, hchain, -⟩
    · exact absurd hnil hne
    have hlast := (hcs ▸ hholds).bounds_last
    rw [info] at hlast
    have hb : 32 ∣ b := hl.aligned b (by simp [hcs])
    have hround : round (s.q p).c_cl ≠ info 0 := by
      rw [round_eq hb (by lia) hroom, info]
      lia
    have hres : Restored s (s.set p ⟨(s.q p).c_cc + 1 - 1, (s.q p).c_cf, (s.q p).c_cl⟩
        (s.heap.store (s.q p).c_cl (char c))) := by
      refine ⟨?_, rfl, rfl, rfl, rfl⟩
      rw [add_sub_cancel_right]
      exact update_eq_self _ _
    refine ⟨0, _, ?_, hres, hres.refines hr fun p' cl cf hcl hh => ?_⟩
    · rw [hs, unputc, State.set_q]
      simp only [Nat.add_sub_cancel]
      rw [if_neg (by lia), if_neg (by lia), if_neg hround, State.set_set]
      show some (s.set p _ (s.heap.store (s.q p).c_cl (char c)),
        schar (update s.heap.c_info (s.q p).c_cl (char c) (s.q p).c_cl)) = _
      rw [update_self]
    · by_cases hp : p' = p
      · subst hp
        rw [hcl, hcs] at hh ⊢
        have hbcs : ∀ c ∈ cs, c + 32 ≤ b ∨ b + 32 ≤ c := fun c hc =>
          hl.apart (by simp [hcs]) (by simp [hcs, hc]) fun heq =>
            (List.nodup_append.mp (hcs ▸ (List.nodup_append.mp hl.nodup).2.1)).2.2 c hc b (by simp)
              heq.symm
        exact hh.behind hbcs hroom
      · refine hh.elsewhere (fun d hd => hal d ((hr.mem d).mpr (Or.inr ⟨p', hd⟩))) hb
          (fun hmem => ?_)
          (show b ≤ (s.q p).c_cl by lia) hroom
        exact hr.disjoint p' p hp b hmem (by simp [hcs])

/-! ## The character that is returned -/

/-- Whatever the walk does, the character is the one in front of `c_cl`. -/
theorem unputc_char {fuel : ℕ} {r : ℤ} (hcc : 0 < (s.q p).c_cc)
    (h : unputc p fuel s = some (s', r)) : r = schar (s.heap.c_info ((s.q p).c_cl - 1)) := by
  unfold unputc at h
  simp only [] at h
  rw [if_neg (by omega)] at h
  split_ifs at h
  · exact (Prod.mk.inj (Option.some.inj h)).2.symm
  · obtain ⟨obp, -, heq⟩ := Option.map_eq_some_iff.mp h
    exact (Prod.mk.inj heq).2.symm
  · exact (Prod.mk.inj (Option.some.inj h)).2.symm

theorem schar_char {c : ℤ} (h0 : 0 ≤ c) (h1 : c < 256) :
    schar (char c) = if c < 128 then c else c - 256 := by
  have hchar : ((char c).toNat : ℤ) = c := by
    rw [char, Int.emod_eq_of_lt h0 h1, UInt8.toNat_ofNat']
    omega
  unfold schar
  split_ifs <;> omega

/-- A successful `putc` is undone by an `unputc` that returns the character, and nothing comes of an
`unputc` on an empty list. -/
structure Undoes (blocks : Set ℕ) (f : ι → List UInt8) (s : State ι) (free : List ℕ)
    (ch : ι → List ℕ) (p : ι) (c : ℤ) : Prop where
  put : (putc p c s).2 = 0 → ∃ fuel s', unputc p fuel (putc p c s).1 = some (s', c) ∧
    Restored s s' ∧ Refines blocks f s' free ch
  empty : f p = [] → ∀ fuel, unputc p fuel s = some (s, -1)

theorem unputc_empty (hr : Refines blocks f s free ch) (hnil : f p = []) (fuel : ℕ) :
    unputc p fuel s = some (s, -1) := by
  have hcc := (hr.queue p).c_cc
  rw [hnil] at hcc
  rw [unputc]
  exact if_pos (by rw [hcc]; simp)

/-- **`unputc` takes back exactly the characters below 128**, when there is one to take back. -/
theorem undoes_iff (hr : Refines blocks f s free ch) (hal : ∀ b ∈ blocks, 32 ∣ b) (p : ι) {c : ℤ}
    (h0 : 0 ≤ c) (h1 : c < 256) : Undoes blocks f s free ch p c ↔ c < 128 ∨ s.room p = 0 := by
  have hfail : (putc p c s).2 = 0 ↔ s.room p ≠ 0 := by
    obtain ⟨hres, -⟩ := putc_agrees hr hal p c
    rw [fexec] at hres
    by_cases hroom : s.room p = 0
    · rw [if_pos hroom] at hres
      have hval : (putc p c s).2 = -1 := Result.int.inj hres
      rw [hval]
      exact iff_of_false (by decide) (not_not.mpr hroom)
    · rw [if_neg hroom] at hres
      exact iff_of_true (Result.int.inj hres) hroom
  constructor
  · rintro ⟨hput, -⟩
    by_contra hnot
    rw [not_or, not_lt] at hnot
    obtain ⟨hge, hroom⟩ := hnot
    obtain ⟨fuel, s', hrun, -⟩ := hput (hfail.mpr hroom)
    obtain ⟨fuel', s'', hrun', -⟩ := unputc_putc hr hal (hfail.mpr hroom)
    have hcc : 0 < ((putc p c s).1.q p).c_cc := by
      by_contra hle
      rw [unputc, if_pos (not_lt.mp hle)] at hrun
      have := (Prod.mk.inj (Option.some.inj hrun)).2
      omega
    have hsame := (unputc_char hcc hrun).trans (unputc_char hcc hrun').symm
    rw [schar_char h0 h1, if_neg (not_lt.mpr hge)] at hsame
    omega
  · intro hcond
    refine ⟨fun hput => ?_, fun hnil => unputc_empty hr hnil⟩
    have hlt : c < 128 := hcond.resolve_right (hfail.mp hput)
    obtain ⟨fuel, s', hrun, hres, hr'⟩ := unputc_putc hr hal hput
    rw [schar_char h0 h1, if_pos hlt] at hrun
    exact ⟨fuel, s', hrun, hres, hr'⟩

/-- The character goes to a cblock of its own, which `unputc` gives back. -/
theorem undoes_iff_small : ∃ free ch, full.room () ≠ 0 ∧
    Refines (cblocks 32 3) (fun _ => List.replicate 28 7) full free ch ∧
      Undoes (cblocks 32 3) (fun _ => List.replicate 28 7) full free ch () 65 := by
  obtain ⟨free, ch, hr⟩ := full_refines
  exact ⟨free, ch, by decide +kernel, hr,
    (undoes_iff hr (fun b hb => hb.2.2) () (by decide) (by decide)).mpr (Or.inl (by decide))⟩

/-- After `putc(200)` on an empty list `unputc` returns -56. -/
theorem not_undoes_signed : ∃ free, Refines (cblocks 32 2) (fun _ => []) small free (fun _ => []) ∧
    (unputc () 0 (putc () 200 small).1).map Prod.snd = some (-56) ∧
    ¬ Undoes (cblocks 32 2) (fun _ => []) small free (fun _ => []) () 200 := by
  obtain ⟨free, hr⟩ := cinit_refines Unit 2 (show 32 ≠ 0 by decide) (fun _ => 0) (fun _ => 0)
  refine ⟨free, hr, by decide +kernel, fun hundo => ?_⟩
  obtain ⟨fuel, s', hrun, -⟩ := hundo.put (by decide +kernel)
  have hchar := unputc_char (by decide +kernel) hrun
  exact absurd hchar (by decide +kernel)

end Clist
