/-
# One character list

The queue holds characters in a chain of cblocks of which the first and the last may be
filled in part.  Each operation does to the characters what it says, exchanges cblocks
with the free list, and touches no other.
-/
import SunOS.Kern.TtySubr
import SunOS.Lib.Chain
import Mathlib.Tactic.Ring

namespace Clist

open List
open Function (update update_of_ne update_self)

variable {p e : ℕ}

/-- The characters from `cf` in the first cblock to `cl` in the last. -/
inductive Holds (c_info : ℕ → UInt8) (cl : ℕ) : ℕ → List ℕ → List UInt8 → Prop
  | last {b cf : ℕ} : info b ≤ cf → cf < cl → cl ≤ b + 32 →
      Holds c_info cl cf [b] (chars c_info cf cl)
  | more {b cf b' : ℕ} {bs : List ℕ} {dat : List UInt8} : info b ≤ cf → cf < b + 32 →
      Holds c_info cl (info b') (b' :: bs) dat →
      Holds c_info cl cf (b :: b' :: bs) (chars c_info cf (b + 32) ++ dat)

theorem chars_cons {c_info : ℕ → UInt8} (h : p < e) :
    chars c_info p e = c_info p :: chars c_info (p + 1) e := by
  obtain ⟨n, rfl⟩ : ∃ n, e = p + (n + 1) := ⟨e - p - 1, by omega⟩
  rw [chars, chars, Nat.add_sub_cancel_left, List.range'_succ, map_cons]
  congr 3
  omega

theorem chars_self (c_info : ℕ → UInt8) (p : ℕ) : chars c_info p p = [] := by
  rw [chars, Nat.sub_self, List.range'_zero, map_nil]

theorem chars_snoc {c_info : ℕ → UInt8} (h : p ≤ e) :
    chars c_info p (e + 1) = chars c_info p e ++ [c_info e] := by
  obtain ⟨n, rfl⟩ : ∃ n, e = p + n := ⟨e - p, by omega⟩
  rw [chars, chars, Nat.add_assoc, Nat.add_sub_cancel_left, Nat.add_sub_cancel_left,
    List.range'_concat, map_append, Nat.one_mul]
  rfl

theorem chars_congr {c_info c_info' : ℕ → UInt8}
    (h : ∀ a, p ≤ a → a < e → c_info' a = c_info a) : chars c_info' p e = chars c_info p e := by
  refine map_congr_left fun a ha => ?_
  obtain ⟨hle, hlt⟩ := List.mem_range'_1.mp ha
  exact h a hle (by omega)

theorem chars_length (c_info : ℕ → UInt8) (p e : ℕ) : (chars c_info p e).length = e - p := by
  rw [chars, length_map, List.length_range']

namespace Holds

variable {c_info c_info' : ℕ → UInt8} {cl cf b : ℕ} {bs : List ℕ} {dat : List UInt8} {x : UInt8}

/-- The first character is in the first cblock. -/
theorem bounds (h : Holds c_info cl cf (b :: bs) dat) : info b ≤ cf ∧ cf < b + 32 := by
  cases h with
  | last h1 h2 h3 => exact ⟨h1, by omega⟩
  | more h1 h2 _ => exact ⟨h1, h2⟩

theorem bounds_last (h : Holds c_info cl cf (bs ++ [b]) dat) : info b < cl ∧ cl ≤ b + 32 := by
  induction bs generalizing cf dat with
  | nil =>
    cases h with
    | last h1 h2 h3 => exact ⟨by omega, h3⟩
  | cons c bs ih =>
    cases bs with
    | nil =>
      cases h with
      | more _ _ h => exact ih h
    | cons d bs =>
      cases h with
      | more _ _ h => exact ih h

/-- Only the characters in its own cblocks matter to a queue. -/
theorem congr (h : Holds c_info cl cf bs dat)
    (hbs : ∀ b ∈ bs, ∀ a, b ≤ a → a < b + 32 → c_info' a = c_info a) :
    Holds c_info' cl cf bs dat := by
  induction h with
  | @last b cf h1 h2 h3 =>
    have heq : chars c_info' cf cl = chars c_info cf cl :=
      chars_congr fun a ha ha' => hbs b (by simp) a (by rw [info] at h1; omega) (by omega)
    rw [← heq]
    exact .last h1 h2 h3
  | @more b cf b' bs dat h1 h2 _ ih =>
    have heq : chars c_info' cf (b + 32) = chars c_info cf (b + 32) :=
      chars_congr fun a ha ha' => hbs b (by simp) a (by rw [info] at h1; omega) ha'
    rw [← heq]
    exact .more h1 h2 (ih fun c hc => hbs c (by simp [hc]))

theorem ne_nil (h : Holds c_info cl cf bs dat) : bs ≠ [] ∧ dat ≠ [] := by
  induction h with
  | @last b cf h1 h2 h3 =>
    refine ⟨cons_ne_nil _ _, fun hnil => ?_⟩
    rw [chars_cons h2] at hnil
    cases hnil
  | @more b cf b' bs dat h1 h2 _ ih =>
    refine ⟨cons_ne_nil _ _, fun hnil => ih.2 ?_⟩
    exact (List.append_eq_nil_iff.mp hnil).2

/-- **The first character**: it is the only one, or the last of its cblock, or one with
another after it. -/
theorem uncons (h : Holds c_info cl cf (b :: bs) dat) (hbs : ∀ c ∈ bs, c + 32 ≤ b ∨ b + 32 ≤ c) :
    ∃ dat', dat = c_info cf :: dat' ∧
      (dat' = [] ∧ bs = [] ∧ cf + 1 = cl ∨
        cf + 1 ≠ cl ∧ dat' ≠ [] ∧
          ((∃ b' bs', bs = b' :: bs' ∧ cf + 1 = b + 32 ∧ Holds c_info cl (info b') bs dat') ∨
            cf + 1 < b + 32 ∧ Holds c_info cl (cf + 1) (b :: bs) dat')) := by
  cases h with
  | last h1 h2 h3 =>
    refine ⟨_, chars_cons h2, ?_⟩
    by_cases hlast : cf + 1 = cl
    · rw [hlast]
      exact Or.inl ⟨chars_self _ _, rfl, rfl⟩
    · have hrest : Holds c_info cl (cf + 1) [b] (chars c_info (cf + 1) cl) :=
        .last (by lia) (by lia) h3
      exact Or.inr ⟨hlast, hrest.ne_nil.2, Or.inr ⟨by lia, hrest⟩⟩
  | @more _ _ b' bs dat h1 h2 h =>
    -- the last character is in another cblock
    have hlast : cf + 1 ≠ cl := by
      obtain ⟨cs, c, hcs⟩ : ∃ cs c, b' :: bs = cs ++ [c] :=
        ⟨_, _, (dropLast_append_getLast (cons_ne_nil b' bs)).symm⟩
      rw [hcs] at h
      have hbounds := h.bounds_last
      have hapart := hbs c (by rw [hcs]; simp)
      rw [info] at hbounds h1
      lia
    rw [chars_cons h2]
    refine ⟨_, rfl, Or.inr ⟨hlast, fun hnil => h.ne_nil.2 (List.append_eq_nil_iff.mp hnil).2, ?_⟩⟩
    by_cases hfull : cf + 1 = b + 32
    · rw [hfull, chars_self]
      exact Or.inl ⟨b', bs, rfl, rfl, h⟩
    · exact Or.inr ⟨by lia, .more (by lia) (by lia) h⟩

/-- A character goes behind the last, whose cblock has room. -/
theorem push (h : Holds c_info cl cf (bs ++ [b]) dat) (hcl : cl < b + 32)
    (hbs : ∀ c ∈ bs, c + 32 ≤ b ∨ b + 32 ≤ c) :
    Holds (update c_info cl x) (cl + 1) cf (bs ++ [b]) (dat ++ [x]) := by
  have hlast := h.bounds_last
  rw [info] at hlast
  induction bs generalizing cf dat with
  | nil =>
    cases h with
    | last h1 h2 h3 =>
      have heq : chars (update c_info cl x) cf (cl + 1) = chars c_info cf cl ++ [x] := by
        rw [chars_snoc (le_of_lt h2), update_self]
        congr 1
        exact chars_congr fun a _ ha => update_of_ne (by omega) _ _
      rw [← heq]
      exact .last h1 (by omega) (by omega)
  | cons c bs ih =>
    have hc := hbs c (by simp)
    have heq : ∀ p, info c ≤ p →
        chars (update c_info cl x) p (c + 32) = chars c_info p (c + 32) := by
      intro p hp
      rw [info] at hp
      exact chars_congr fun a ha ha' => update_of_ne (by omega) _ _
    cases bs with
    | nil =>
      cases h with
      | more h1 h2 h =>
        rw [← heq cf h1, append_assoc]
        exact .more h1 h2 (ih h (by simp))
    | cons d bs =>
      cases h with
      | more h1 h2 h =>
        rw [← heq cf h1, append_assoc]
        exact .more h1 h2 (ih h fun e he => hbs e (by simp [he]))

/-- A character goes into a new cblock behind the last, which is full. -/
theorem grow (h : Holds c_info cl cf (bs ++ [b]) dat) (hcl : cl = b + 32) {nb : ℕ}
    (hnb : ∀ c ∈ bs ++ [b], c + 32 ≤ nb ∨ nb + 32 ≤ c) :
    Holds (update c_info (info nb) x) (info nb + 1) cf (bs ++ [b, nb]) (dat ++ [x]) := by
  have hnew : Holds (update c_info (info nb) x) (info nb + 1) (info nb) [nb] [x] := by
    have heq : chars (update c_info (info nb) x) (info nb) (info nb + 1) = [x] := by
      rw [chars_snoc (le_refl _), chars_self, update_self, nil_append]
    rw [← heq]
    exact .last (le_refl _) (by omega) (by rw [info]; omega)
  have heq : ∀ c ∈ bs ++ [b], ∀ p, info c ≤ p →
      chars (update c_info (info nb) x) p (c + 32) = chars c_info p (c + 32) := by
    intro c hc p hp
    have hapart := hnb c hc
    rw [info] at hp
    refine chars_congr fun a ha ha' => update_of_ne ?_ _ _
    rw [info]
    omega
  clear hnb
  induction bs generalizing cf dat with
  | nil =>
    cases h with
    | last h1 h2 h3 =>
      rw [hcl, ← heq b (by simp) cf h1]
      exact .more h1 (by omega) hnew
  | cons c bs ih =>
    cases bs with
    | nil =>
      cases h with
      | more h1 h2 h =>
        rw [← heq c (by simp) cf h1, append_assoc]
        exact .more h1 h2 (ih h fun e he => heq e (by simp at he ⊢; simp [he]))
    | cons d bs =>
      cases h with
      | more h1 h2 h =>
        rw [← heq c (by simp) cf h1, append_assoc]
        exact .more h1 h2 (ih h fun e he => heq e (mem_cons_of_mem _ he))

end Holds

/-! ## A queue and the free list -/

theorem round_eq {b p : ℕ} (h : 32 ∣ b) (h1 : b ≤ p) (h2 : p < b + 32) : round p = p - b := by
  rw [round, sizeofCblock]
  omega

theorem round_full {b : ℕ} (h : 32 ∣ b) : round (b + 32) = 0 := by
  rw [round, sizeofCblock]
  omega

theorem cblock_eq {b p : ℕ} (h : 32 ∣ b) (h1 : b ≤ p) (h2 : p < b + 32) : cblock p = b := by
  rw [cblock, round_eq h h1 h2]
  omega

/-- The queue `q` has its characters `dat` in the cblocks `bs`. -/
def Queue (h : Heap) (q : clist) (bs : List ℕ) (dat : List UInt8) : Prop :=
  bs = [] ∧ dat = [] ∧ q = ⟨0, 0, 0⟩ ∨
    Holds h.c_info q.c_cl q.c_cf bs dat ∧ Chain h.c_next (bs.headD 0) bs ∧ q.c_cc = dat.length

/-- The queue `q`, and the free list, which counts the characters it has room for. -/
structure Local (h : Heap) (q : clist) (free bs : List ℕ) (dat : List UInt8) : Prop where
  queue : Queue h q bs dat
  list : Chain h.c_next h.cfreelist free
  count : h.cfreecount = CBSIZE * free.length
  nodup : (free ++ bs).Nodup
  aligned : ∀ b ∈ free ++ bs, 32 ∣ b

/-- From the cblocks `l` of the one state to those `l'` of the other; the rest is as it
was. -/
structure Moves (h h' : Heap) (l l' : List ℕ) : Prop where
  perm : l'.Perm l
  c_next : ∀ b ∉ l, h'.c_next b = h.c_next b
  c_info : ∀ b, 32 ∣ b → b ∉ l → ∀ a, b ≤ a → a < b + 32 → h'.c_info a = h.c_info a

variable {h h' h'' : Heap} {q q' : clist} {b nb : ℕ} {free bs l l' l'' : List ℕ}
  {dat dat' : List UInt8} {x : UInt8}

theorem Moves.refl (h : Heap) (l : List ℕ) : Moves h h l l :=
  ⟨List.Perm.refl l, fun _ _ => rfl, fun _ _ _ _ _ _ => rfl⟩

theorem Moves.trans (m : Moves h h' l l') (m' : Moves h' h'' l' l'') : Moves h h'' l l'' := by
  refine ⟨m'.perm.trans m.perm, fun b hb => ?_, fun b hal hb a h1 h2 => ?_⟩
  · rw [m'.c_next b fun hmem => hb (m.perm.subset hmem), m.c_next b hb]
  · rw [m'.c_info b hal (fun hmem => hb (m.perm.subset hmem)) a h1 h2, m.c_info b hal hb a h1 h2]

/-- A queue does not see what happens to other cblocks. -/
theorem Queue.moves (hq : Queue h q bs dat) (m : Moves h h' l l') (hbs : ∀ b ∈ bs, b ∉ l)
    (hal : ∀ b ∈ bs, 32 ∣ b) : Queue h' q bs dat := by
  rcases hq with hq | ⟨hholds, hchain, hcc⟩
  · exact Or.inl hq
  · refine Or.inr ⟨hholds.congr fun b hb => m.c_info b (hal b hb) (hbs b hb), ?_, hcc⟩
    exact hchain.congr fun b hb => m.c_next b (hbs b hb)

theorem Queue.c_cc (hq : Queue h q bs dat) : q.c_cc = dat.length := by
  rcases hq with ⟨-, rfl, rfl⟩ | ⟨-, -, hcc⟩
  · rfl
  · exact hcc

/-- An empty queue has no cblocks. -/
theorem Queue.nil (hq : Queue h q bs []) : bs = [] ∧ q = ⟨0, 0, 0⟩ := by
  rcases hq with ⟨hbs, -, hq⟩ | ⟨hholds, -, -⟩
  · exact ⟨hbs, hq⟩
  · exact absurd rfl hholds.ne_nil.2

/-- The pointers of a queue are `NULL` when it is empty. -/
theorem Queue.null_iff (hq : Queue h q bs dat) :
    (q.c_cf = 0 ↔ dat = []) ∧ (q.c_cl = 0 ↔ dat = []) := by
  rcases hq with ⟨-, rfl, rfl⟩ | ⟨hholds, -, -⟩
  · exact ⟨Iff.rfl.trans (by simp), by simp⟩
  · have hne := hholds.ne_nil.2
    have hcf : q.c_cf ≠ 0 ∧ q.c_cl ≠ 0 := by
      obtain ⟨cs, c, hcs⟩ : ∃ cs c, bs = cs ++ [c] :=
        ⟨_, _, (dropLast_append_getLast hholds.ne_nil.1).symm⟩
      have hlast := (hcs ▸ hholds).bounds_last
      obtain ⟨d, ds, hds⟩ := exists_cons_of_ne_nil hholds.ne_nil.1
      have hfirst := (hds ▸ hholds).bounds
      rw [info] at hlast hfirst
      omega
    exact ⟨⟨fun h => absurd h hcf.1, fun h => absurd h hne⟩,
      ⟨fun h => absurd h hcf.2, fun h => absurd h hne⟩⟩

theorem Local.apart (hl : Local h q free bs dat) {b c : ℕ} (hb : b ∈ free ++ bs)
    (hc : c ∈ free ++ bs) (hne : b ≠ c) : c + 32 ≤ b ∨ b + 32 ≤ c := by
  have h1 := hl.aligned b hb
  have h2 := hl.aligned c hc
  omega

/-- The first cblock of a queue is freed. -/
theorem Local.release (hl : Local h q free (b :: bs) dat) (hq : Queue h q' bs dat') :
    Local (h.release b) q' (b :: free) bs dat' ∧
      Moves h (h.release b) (free ++ b :: bs) (b :: free ++ bs) := by
  have hperm : (b :: free ++ bs).Perm (free ++ b :: bs) := List.perm_middle.symm
  have hnodup := hperm.nodup_iff.mpr hl.nodup
  rw [cons_append, nodup_cons, mem_append, not_or] at hnodup
  have hb : b ≠ 0 := by
    rcases hl.queue with ⟨hnil, -⟩ | ⟨-, hchain, -⟩
    · cases hnil
    · exact hchain.2.1
  have hmoves : Moves h (h.release b) (free ++ b :: bs) (b :: free ++ bs) := by
    refine ⟨hperm, fun c hc => ?_, fun _ _ _ _ _ _ => rfl⟩
    refine update_of_ne (fun heq => hc ?_) _ _
    rw [heq]
    simp
  have hone : Moves h (h.release b) [b] [b] := by
    refine ⟨List.Perm.refl _, fun c hc => ?_, fun _ _ _ _ _ _ => rfl⟩
    exact update_of_ne (fun heq => hc (List.mem_singleton.mpr heq)) _ _
  refine ⟨⟨hq.moves hone ?_ ?_, hl.list.push hb hnodup.1.1, ?_, ?_, ?_⟩, hmoves⟩
  · intro c hc hcb
    rw [mem_singleton] at hcb
    exact hnodup.1.2 (hcb ▸ hc)
  · exact fun c hc => hl.aligned c (by simp [hc])
  · show h.cfreecount + CBSIZE = CBSIZE * ((b :: free).length : ℤ)
    rw [hl.count, length_cons]
    push_cast
    ring
  · exact hperm.nodup_iff.mpr hl.nodup
  · exact fun c hc => hl.aligned c (hperm.subset hc)

/-- **A character is taken** from the front. -/
theorem takeChar_spec (hl : Local h q free bs (x :: dat)) :
    ∃ free' bs', Local (takeChar q h).2.1 (takeChar q h).1 free' bs' dat ∧
      Moves h (takeChar q h).2.1 (free ++ bs) (free' ++ bs') ∧ (takeChar q h).2.2 = x := by
  rcases hl.queue with ⟨-, hnil, -⟩ | ⟨hholds, hchain, hcc⟩
  · cases hnil
  obtain ⟨b, bs, rfl⟩ := exists_cons_of_ne_nil hholds.ne_nil.1
  have hal : 32 ∣ b := hl.aligned b (by simp)
  have hnodup := hl.nodup
  rw [nodup_append, nodup_cons] at hnodup
  have hbounds := hholds.bounds
  rw [info] at hbounds
  obtain ⟨dat', hdat, hcases⟩ := hholds.uncons fun c hc =>
    hl.apart (by simp) (by simp [hc]) fun heq => hnodup.2.1.1 (heq ▸ hc)
  rw [List.cons.injEq] at hdat
  obtain ⟨hx, rfl⟩ := hdat
  rw [length_cons, Nat.cast_add, Nat.cast_one] at hcc
  rw [takeChar]
  rcases hcases with ⟨rfl, rfl, hlast⟩ | ⟨hlast, hne, hcases⟩
  · rw [length_nil] at hcc
    rw [if_pos (by rw [hcc]; simp), Nat.add_sub_cancel, cblock_eq hal (by lia) hbounds.2]
    have hq : Queue h ⟨q.c_cc - 1, 0, 0⟩ [] [] := Or.inl ⟨rfl, rfl, by rw [hcc]; rfl⟩
    obtain ⟨hl', hm⟩ := hl.release hq
    exact ⟨_, _, hl', hm, hx.symm⟩
  · have hpos : 0 < dat.length := List.length_pos_iff.mpr hne
    rw [if_neg (by lia)]
    rcases hcases with ⟨b', bs', rfl, hfull, hholds'⟩ | ⟨hroom, hholds'⟩
    · rw [if_pos (by rw [hfull, round_full hal]), hfull, sizeofCblock, Nat.add_sub_cancel]
      have hnext : h.c_next b = b' := hchain.2.2.1
      have hchain' : Chain h.c_next b' (b' :: bs') := hnext ▸ hchain.2.2
      have hq : Queue h ⟨q.c_cc - 1, info (h.c_next b), q.c_cl⟩ (b' :: bs') dat :=
        Or.inr ⟨hnext ▸ hholds', hchain', show q.c_cc - 1 = dat.length by lia⟩
      obtain ⟨hl', hm⟩ := hl.release hq
      exact ⟨_, _, hl', hm, hx.symm⟩
    · rw [if_neg (by rw [round_eq hal (by lia) hroom]; lia)]
      have hcc' : q.c_cc - 1 = dat.length := by lia
      refine ⟨free, b :: bs, ⟨Or.inr ⟨hholds', hchain, hcc'⟩, hl.list, hl.count, hl.nodup,
        hl.aligned⟩, .refl _ _, hx.symm⟩

/-! ## A character is put -/

/-- How many characters go behind the last: what is left of its cblock, and what the
free cblocks hold. -/
def roomFrom (cq : ℕ) (h : Heap) : ℤ := (if cq = 0 then 0 else -(cq : ℤ) % 32) + h.cfreecount

theorem roomFrom_eq {cq b : ℕ} (hal : 32 ∣ b) (h1 : b < cq) (h2 : cq ≤ b + 32) (h : Heap) :
    roomFrom cq h = (b + 32 - cq : ℕ) + h.cfreecount := by
  rw [roomFrom, if_neg (by omega)]
  congr 1
  omega

/-- The first of the free list goes behind the others, or is the first. -/
theorem Local.grab (hl : Local h q (nb :: free) bs dat) (hq : Queue h' q' (bs ++ [nb]) dat')
    (hnext : ∀ b ∉ nb :: bs, h'.c_next b = h.c_next b)
    (hinfo : ∀ a, a ≠ info nb → h'.c_info a = h.c_info a) (hlist : h'.cfreelist = h.c_next nb)
    (hcount : h'.cfreecount = h.cfreecount - CBSIZE) :
    Local h' q' free (bs ++ [nb]) dat' ∧ Moves h h' (nb :: free ++ bs) (free ++ (bs ++ [nb])) := by
  have hperm : (free ++ (bs ++ [nb])).Perm (nb :: free ++ bs) := by
    rw [← append_assoc]
    exact perm_append_singleton nb (free ++ bs)
  have hnodup := hl.nodup
  rw [cons_append, nodup_cons, mem_append, not_or, nodup_append] at hnodup
  obtain ⟨⟨hnf, hnb⟩, -, -, hdisj⟩ := hnodup
  refine ⟨⟨hq, ?_, ?_, hperm.nodup_iff.mpr hl.nodup, fun b hb => hl.aligned b (hperm.subset hb)⟩,
    hperm, fun b hb => ?_, fun b hal hb a h1 h2 => ?_⟩
  · rw [hlist]
    refine hl.list.2.2.congr fun b hb => hnext b fun hmem => ?_
    rcases List.mem_cons.mp hmem with rfl | hmem
    · exact hnf hb
    · exact hdisj b hb b hmem rfl
  · rw [hcount, hl.count, length_cons]
    push_cast
    ring
  · exact hnext b fun hmem => hb (by
      rcases List.mem_cons.mp hmem with rfl | hmem
      · simp
      · simp [hmem])
  · refine hinfo a fun heq => hb ?_
    have hal' := hl.aligned nb (by simp)
    rw [info] at heq
    obtain rfl : b = nb := by omega
    simp

/-- A character in a queue that was empty. -/
theorem Local.put_first (hl : Local h q free [] []) (hlist : h.cfreelist ≠ 0) :
    ∃ free' bs', Local (h.grab.store (info h.cfreelist) x)
        ⟨q.c_cc + 1, info h.cfreelist, info h.cfreelist + 1⟩ free' bs' [x] ∧
      Moves h (h.grab.store (info h.cfreelist) x) (free ++ []) (free' ++ bs') ∧
      roomFrom (info h.cfreelist + 1) (h.grab.store (info h.cfreelist) x) = h.cfreecount - 1 := by
  have hcc := hl.queue.c_cc
  cases free with
  | nil => exact absurd hl.list hlist
  | cons nb free =>
    have hlst := hl.list
    obtain ⟨heq, hnb, -⟩ := hlst
    rw [heq]
    have hholds : Holds (update h.c_info (info nb) x) (info nb + 1) (info nb) [nb] [x] := by
      have hchars : chars (update h.c_info (info nb) x) (info nb) (info nb + 1) = [x] := by
        rw [chars_snoc (le_refl _), chars_self, update_self, nil_append]
      rw [← hchars]
      exact .last (le_refl _) (by omega) (by rw [info]; omega)
    have hchain : Chain (update h.c_next nb 0) nb [nb] :=
      ⟨rfl, hnb, update_self _ _ _⟩
    have hq : Queue (h.grab.store (info nb) x) ⟨q.c_cc + 1, info nb, info nb + 1⟩ ([] ++ [nb])
      [x] := by
      refine Or.inr ⟨hholds, ?_, ?_⟩
      · show Chain (update h.c_next h.cfreelist 0) nb [nb]
        rw [heq]
        exact hchain
      · show q.c_cc + 1 = 1
        rw [hcc]
        rfl
    have hnext : ∀ b ∉ [nb], (h.grab.store (info nb) x).c_next b = h.c_next b := by
      intro b hb
      show update h.c_next h.cfreelist 0 b = _
      rw [heq]
      exact update_of_ne (fun h => hb (by simp [h])) _ _
    have hlist' : (h.grab.store (info nb) x).cfreelist = h.c_next nb := by
      show h.c_next h.cfreelist = _
      rw [heq]
    obtain ⟨hl', hm⟩ := hl.grab hq hnext (fun a ha => update_of_ne ha _ _) hlist' rfl
    refine ⟨_, _, hl', hm, ?_⟩
    rw [roomFrom_eq (hl.aligned nb (by simp)) (by rw [info]; omega) (by rw [info]; omega)]
    show ((nb + 32 - (info nb + 1) : ℕ) : ℤ) + (h.cfreecount - CBSIZE) = h.cfreecount - 1
    rw [info, CBSIZE]
    omega

/-- A character behind the last, in the same cblock or a new one, or no character. -/
theorem Local.put_next (hl : Local h q free bs dat) (hne : dat ≠ []) :
    (round q.c_cl ≠ 0 → Local (h.store q.c_cl x) ⟨q.c_cc + 1, q.c_cf, q.c_cl + 1⟩ free bs
        (dat ++ [x]) ∧ Moves h (h.store q.c_cl x) (free ++ bs) (free ++ bs) ∧
        roomFrom (q.c_cl + 1) (h.store q.c_cl x) = roomFrom q.c_cl h - 1) ∧
    (round q.c_cl = 0 → h.cfreelist = 0 → Local (h.link (q.c_cl - sizeofCblock) 0) q free bs dat ∧
        Moves h (h.link (q.c_cl - sizeofCblock) 0) (free ++ bs) (free ++ bs) ∧
        roomFrom q.c_cl h = 0) ∧
    (round q.c_cl = 0 → h.cfreelist ≠ 0 → ∃ free' bs',
        Local (((h.link (q.c_cl - sizeofCblock) h.cfreelist).grab).store (info h.cfreelist) x)
          ⟨q.c_cc + 1, q.c_cf, info h.cfreelist + 1⟩ free' bs' (dat ++ [x]) ∧
        Moves h (((h.link (q.c_cl - sizeofCblock) h.cfreelist).grab).store (info h.cfreelist) x)
          (free ++ bs) (free' ++ bs') ∧
        roomFrom (info h.cfreelist + 1)
            (((h.link (q.c_cl - sizeofCblock) h.cfreelist).grab).store (info h.cfreelist) x) =
          roomFrom q.c_cl h - 1) := by
  have hcc := hl.queue.c_cc
  rcases hl.queue with ⟨-, hnil, -⟩ | ⟨hholds, hchain, -⟩
  · exact absurd hnil hne
  obtain ⟨cs, b, rfl⟩ : ∃ cs c, bs = cs ++ [c] :=
    ⟨_, _, (dropLast_append_getLast hholds.ne_nil.1).symm⟩
  have hlast := hholds.bounds_last
  rw [info] at hlast
  have hal : 32 ∣ b := hl.aligned b (by simp)
  have hnodup := hl.nodup
  rw [nodup_append, nodup_append] at hnodup
  have happart : ∀ c ∈ cs, c + 32 ≤ b ∨ b + 32 ≤ c := fun c hc =>
    hl.apart (by simp) (by simp [hc]) fun heq => hnodup.2.1.2.2 c hc b (by simp) heq.symm
  have hlen : q.c_cc + 1 = (dat ++ [x]).length := by
    rw [hcc, length_append, length_singleton]
    rfl
  refine ⟨fun hround => ?_, fun hround hlist => ?_, fun hround hlist => ?_⟩
  · have hroom : q.c_cl < b + 32 := by
      by_contra hfull
      exact hround (by rw [show q.c_cl = b + 32 by lia, round_full hal])
    refine ⟨⟨Or.inr ⟨hholds.push hroom happart, hchain, hlen⟩, hl.list, hl.count, hl.nodup,
      hl.aligned⟩, ⟨List.Perm.refl _, fun _ _ => rfl, fun c hc hmem a h1 h2 => ?_⟩, ?_⟩
    · refine update_of_ne (fun heq => hmem ?_) _ _
      obtain rfl : c = b := by lia
      simp
    · rw [roomFrom_eq hal (by lia) (by lia), roomFrom_eq hal (by lia) hlast.2]
      show ((b + 32 - (q.c_cl + 1) : ℕ) : ℤ) + h.cfreecount = _
      lia
  · have hfull : q.c_cl = b + 32 := by
      by_contra hroom
      rw [round_eq hal (by lia) (by lia)] at hround
      lia
    have hnext : h.c_next b = 0 := hchain.next_last
    have hsame : h.link (q.c_cl - sizeofCblock) 0 = h := by
      rw [hfull, sizeofCblock, Nat.add_sub_cancel, ← hnext, Heap.link, Function.update_eq_self]
    rw [hsame]
    refine ⟨hl, .refl _ _, ?_⟩
    rw [roomFrom_eq hal (by lia) hlast.2, hl.count, hl.list.eq_zero_iff.mp hlist, hfull]
    simp
  · have hfull : q.c_cl = b + 32 := by
      by_contra hroom
      rw [round_eq hal (by lia) (by lia)] at hround
      lia
    cases free with
    | nil => exact absurd hl.list hlist
    | cons nb free =>
      have hlst := hl.list
      obtain ⟨heq, hnb, -⟩ := hlst
      have hnew : ∀ c ∈ cs ++ [b], c ≠ nb := fun c hc h => by
        refine hnodup.2.2 nb (by simp) c hc h.symm
      have hbnb : b ≠ nb := hnew b (by simp)
      rw [heq, hfull, sizeofCblock, Nat.add_sub_cancel]
      have hgrow : Holds (update h.c_info (info nb) x) (info nb + 1) q.c_cf (cs ++ [b, nb])
          (dat ++ [x]) := hholds.grow hfull fun c hc =>
        hl.apart (by simp) (by simp at hc ⊢; tauto) (Ne.symm (hnew c hc))
      have hsnoc := hchain.snoc (fun hmem => hnodup.2.1.2.2 b hmem b (by simp) rfl) hnb
        (fun hmem => hnew nb (by simp [hmem]) rfl) hbnb
      have hgrab : ((h.link b nb).grab.store (info nb) x).c_next =
          update (update h.c_next b nb) nb 0 := by
        show update (update h.c_next b nb) h.cfreelist 0 = _
        rw [heq]
      have hhead : ((cs ++ [b]) ++ [nb]).headD 0 = (cs ++ [b]).headD 0 := by
        cases cs <;> rfl
      have hq : Queue ((h.link b nb).grab.store (info nb) x) ⟨q.c_cc + 1, q.c_cf, info nb + 1⟩
          ((cs ++ [b]) ++ [nb]) (dat ++ [x]) := by
        refine Or.inr ⟨?_, ?_, hlen⟩
        · rw [append_assoc]
          exact hgrow
        · rw [hhead, hgrab, append_assoc]
          exact hsnoc
      have hnext : ∀ c ∉ nb :: (cs ++ [b]), ((h.link b nb).grab.store (info nb) x).c_next c =
          h.c_next c := by
        intro c hc
        rw [hgrab, update_of_ne (fun h => hc (by simp [h])),
          update_of_ne fun h => hc (by simp [h])]
      have hlist' : ((h.link b nb).grab.store (info nb) x).cfreelist = h.c_next nb := by
        show update h.c_next b nb h.cfreelist = _
        rw [heq, update_of_ne (Ne.symm hbnb)]
      obtain ⟨hl', hm⟩ := hl.grab hq hnext (fun a ha => update_of_ne ha _ _) hlist' rfl
      refine ⟨_, _, hl', hm, ?_⟩
      rw [roomFrom_eq (hl.aligned nb (by simp)) (by rw [info]; lia) (by rw [info]; lia),
        roomFrom_eq hal (by lia) (le_refl _)]
      show ((nb + 32 - (info nb + 1) : ℕ) : ℤ) + (h.cfreecount - CBSIZE) = _
      rw [info, CBSIZE]
      lia

end Clist
