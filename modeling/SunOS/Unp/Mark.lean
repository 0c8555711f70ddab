/-
# The mark phase

When nothing is deferred, the files that are marked are those that can be reached from one that
has a reference other than those in flight.
-/
import SunOS.Lib.Total
import SunOS.Unp.Gc
import Mathlib.Data.Finset.Card
import Mathlib.Data.Finset.Range
import Mathlib.Logic.Relation

namespace Unp

open List
open Function (update update_of_ne update_self)
open Table

variable {nfile : ℕ} {t : table} {s s' : marking} {i k : ℕ}

/-! ## The graph -/

/-- A datagram socket of the UNIX domain. -/
def file.dgram (f : file) : Option socket :=
  match f.f_type, f.f_data with
  | .DTYPE_SOCKET, some so => if so.so_proto = .dgram then some so else none
  | _, _ => none

/-- The files in the messages to a file. -/
def file.rights (f : file) : List ℕ :=
  match f.dgram with
  | some so => (unp_scan .address so.sb_mb).getD []
  | none => []

/-- A message to `j` has `i` in it. -/
def Holds (nfile : ℕ) (t : table) (j i : ℕ) : Prop := j < nfile ∧ i ∈ (t j).rights

/-- A file that a process has. -/
def Root (nfile : ℕ) (t : table) (i : ℕ) : Prop := i < nfile ∧ (t i).f_msgcount < (t i).f_count

/-- **A file that can be reached.** -/
def Reachable (nfile : ℕ) (t : table) (i : ℕ) : Prop :=
  ∃ r, Root nfile t r ∧ Relation.ReflTransGen (Holds nfile t) r i

/-- How many references to `i` there are in messages. -/
def refs (nfile : ℕ) (t : table) (i : ℕ) : ℤ := total nfile (fun f => (f.rights.count i : ℤ)) t

/-- **A file table** as the rest of the kernel leaves it: `f_msgcount` counts the references in
messages, to files that are open; a buffer that is not locked has whole messages in it; and only
a process that has a socket locks its buffer. -/
structure Wf (nfile : ℕ) (t : table) : Prop where
  msgcount : ∀ i, i < nfile → (t i).f_msgcount = refs nfile t i
  count : ∀ i, i < nfile → (t i).f_msgcount ≤ (t i).f_count
  place : ∀ j i, Holds nfile t j i → i < nfile
  free : ∀ i, i < nfile → (t i).f_count = 0 → (t i).f_data = none
  vnode : ∀ i, (t i).f_type = .DTYPE_VNODE → (t i).f_data = none
  whole : ∀ i so, i < nfile → (t i).dgram = some so → so.locked = false →
    (unp_scan .address so.sb_mb).isSome
  locked : ∀ i so, i < nfile → (t i).f_data = some so → so.locked = true →
    (t i).f_msgcount < (t i).f_count

/-- No receive buffer of a datagram socket is locked. -/
def Unlocked (nfile : ℕ) (t : table) : Prop :=
  ∀ i so, i < nfile → (t i).dgram = some so → so.locked = false

theorem refs_nonneg : 0 ≤ refs nfile t i := total_nonneg fun _ => Int.natCast_nonneg _

/-- A file in a message is referred to. -/
theorem Holds.refs_pos (h : Holds nfile t k i) : 0 < refs nfile t i := by
  have hle : _ ≤ refs nfile t i :=
    le_total (t := t) (w := fun f => (f.rights.count i : ℤ)) (fun _ => Int.natCast_nonneg _) h.1
  have hpos := List.count_pos_iff.mpr h.2
  omega

theorem refs_zero : refs nfile t i = 0 ↔ ∀ j, ¬ Holds nfile t j i := by
  constructor
  · intro h j hj
    have := hj.refs_pos
    omega
  · intro h
    refine total_eq_zero fun j hj => ?_
    rw [Int.natCast_eq_zero, count_eq_zero]
    exact fun hmem => h j ⟨hj, hmem⟩

theorem Wf.count_pos (h : Wf nfile t) (hk : Holds nfile t k i) : (t i).f_count ≠ 0 := by
  have hi := h.place k i hk
  have h1 := h.msgcount i hi
  have h2 := h.count i hi
  have h3 := hk.refs_pos
  omega

theorem Reachable.lt (h : Reachable nfile t i) (hwf : Wf nfile t) : i < nfile := by
  obtain ⟨r, hr, hpath⟩ := h
  rcases Relation.ReflTransGen.cases_tail hpath with rfl | ⟨j, -, hj⟩
  · exact hr.1
  · exact hwf.place j i hj

theorem Reachable.count_pos (h : Reachable nfile t i) (hwf : Wf nfile t) : (t i).f_count ≠ 0 := by
  obtain ⟨r, hr, hpath⟩ := h
  rcases Relation.ReflTransGen.cases_tail hpath with rfl | ⟨j, -, hj⟩
  · have h1 := hwf.msgcount i hr.1
    have h2 := hr.2
    have h3 : 0 ≤ refs nfile t i := refs_nonneg
    omega
  · exact hwf.count_pos hj

/-! ## The flags -/

variable {hole : Option ℕ}

/-- The table is that of the start, but for the marks. -/
def Like (t t' : table) : Prop :=
  ∀ i, t' i = { t i with FMARK := (t' i).FMARK, FDEFER := (t' i).FDEFER }

theorem Like.dgram (h : Like t t') : (t' i).dgram = (t i).dgram := by rw [h i]; rfl

theorem Like.rights (h : Like t t') : (t' i).rights = (t i).rights := by rw [h i]; rfl

/-- `i` has been scanned: its buffer was not locked, and what is in it is marked. -/
def Scanned (s : marking) (t : table) (i : ℕ) : Prop :=
  (∀ so, (t i).dgram = some so → so.locked = false) ∧ ∀ k ∈ (t i).rights, (s.file k).FMARK = true

/-- The invariant of the mark phase, while the file `hole`, if any, is being scanned. -/
structure Marks (nfile : ℕ) (t : table) (hole : Option ℕ) (s : marking) : Prop where
  like : Like t s.file
  sound : ∀ i, (s.file i).FMARK = true → Reachable nfile t i
  deferred : ∀ i, (s.file i).FDEFER = true → (s.file i).FMARK = true
  unp_defer : s.unp_defer = total nfile (fun f => if f.FDEFER then 1 else 0) s.file
  scanned : ∀ i, (s.file i).FMARK = true → (s.file i).FDEFER = false → hole ≠ some i →
    Scanned s t i

/-- No mark goes away, and only what is marked anew is deferred. -/
structure Grows (s s' : marking) : Prop where
  marks : ∀ i, (s.file i).FMARK = true → (s'.file i).FMARK = true
  defers : ∀ i, (s'.file i).FDEFER = true → (s.file i).FDEFER = true ∨ (s.file i).FMARK = false

theorem Grows.refl : Grows s s := ⟨fun _ h => h, fun _ h => Or.inl h⟩

theorem Grows.trans {s'' : marking} (h : Grows s s') (h' : Grows s' s'') : Grows s s'' := by
  refine ⟨fun i hi => h'.marks i (h.marks i hi), fun i hi => ?_⟩
  rcases h'.defers i hi with hd | hm
  · exact h.defers i hd
  · right
    by_contra hne
    rw [h.marks i (Bool.not_eq_false _ |>.mp hne)] at hm
    cases hm

theorem Scanned.grows (h : Scanned s t i) (hg : Grows s s') : Scanned s' t i :=
  ⟨h.1, fun k hk => hg.marks k (h.2 k hk)⟩

/-- The marks of one file change. -/
theorem like_update {t' : table} (h : Like t t') (m d : Bool) :
    Like t (update t' i { t' i with FMARK := m, FDEFER := d }) := by
  intro j
  by_cases hj : j = i
  · rw [hj, update_self]
    conv_lhs => rw [h i]
  · rw [update_of_ne hj]
    exact h j

/-- **`unp_mark`** -/
theorem unp_mark_spec (h : Marks nfile t hole s) (hwf : Wf nfile t) (hk : Reachable nfile t k) :
    Marks nfile t hole (unp_mark s k) ∧ Grows s (unp_mark s k) ∧
      ((unp_mark s k).file k).FMARK = true := by
  unfold unp_mark
  by_cases hm : (s.file k).FMARK = true
  · rw [if_pos hm]
    exact ⟨h, .refl, hm⟩
  · rw [if_neg hm]
    have hgrows : Grows s ⟨update s.file k { s.file k with FMARK := true, FDEFER := true },
        s.unp_defer + 1⟩ := by
      refine ⟨fun i hi => ?_, fun i hi => ?_⟩
      · show (update s.file k _ i).FMARK = true
        by_cases hik : i = k
        · rw [hik, update_self]
        · rw [update_of_ne hik, hi]
      · have hi' : (update s.file k _ i).FDEFER = true := hi
        by_cases hik : i = k
        · rw [hik]
          exact Or.inr (Bool.not_eq_true _ |>.mp hm)
        · rw [update_of_ne hik] at hi'
          exact Or.inl hi'
    have hdefer : (s.file k).FDEFER = false := by
      by_contra hd
      exact hm (h.deferred k (Bool.not_eq_false _ |>.mp hd))
    refine ⟨⟨like_update h.like true true, fun i hi => ?_, fun i hi => ?_, ?_,
      fun i hi hd hne => ?_⟩, hgrows, ?_⟩
    · by_cases hik : i = k
      · rw [hik]
        exact hk
      · have hi' : (update s.file k _ i).FMARK = true := hi
        rw [update_of_ne hik] at hi'
        exact h.sound i hi'
    · show (update s.file k _ i).FMARK = true
      have hi' : (update s.file k _ i).FDEFER = true := hi
      by_cases hik : i = k
      · rw [hik, update_self]
      · rw [update_of_ne hik] at hi' ⊢
        exact h.deferred i hi'
    · show s.unp_defer + 1 = _
      rw [total_update (hk.lt hwf), h.unp_defer, hdefer]
      simp
    · have hi' : (update s.file k _ i).FMARK = true := hi
      have hd' : (update s.file k _ i).FDEFER = false := hd
      by_cases hik : i = k
      · rw [hik, update_self] at hd'
        exact absurd hd' Bool.true_eq_false_eq_False
      · rw [update_of_ne hik] at hi' hd'
        exact (h.scanned i hi' hd' hne).grows hgrows
    · show (update s.file k _ k).FMARK = true
      rw [update_self]

/-- All the files in a buffer are marked. -/
theorem marks_foldl (hwf : Wf nfile t) (fps : List ℕ) :
    ∀ s, Marks nfile t hole s → (∀ k ∈ fps, Reachable nfile t k) →
      Marks nfile t hole (fps.foldl unp_mark s) ∧ Grows s (fps.foldl unp_mark s) ∧
        ∀ k ∈ fps, ((fps.foldl unp_mark s).file k).FMARK = true := by
  induction fps with
  | nil => exact fun s h _ => ⟨h, .refl, fun k hk => absurd hk not_mem_nil⟩
  | cons fp fps ih =>
    intro s h hreach
    obtain ⟨h1, hg, hfp⟩ := unp_mark_spec h hwf (hreach fp mem_cons_self)
    obtain ⟨h2, hg', hfps⟩ := ih _ h1 fun k hk => hreach k (mem_cons_of_mem fp hk)
    rw [foldl_cons]
    refine ⟨h2, hg.trans hg', fun k hk => ?_⟩
    rcases List.mem_cons.mp hk with rfl | hk
    · exact hg'.marks _ hfp
    · exact hfps k hk

/-! ## A file is scanned -/

theorem markrights_eq (s : marking) (i : ℕ) : markrights s i =
    match (s.file i).dgram with
    | none => .ok s
    | some so =>
      if so.locked then .error (.sleep i)
      else
        match scan so.sb_mb with
        | .ok fps => .ok (fps.foldl unp_mark s)
        | .error e => .error e := by
  unfold markrights file.dgram
  cases (s.file i).f_type with
  | DTYPE_VNODE => rfl
  | DTYPE_SOCKET =>
    cases (s.file i).f_data with
    | none => rfl
    | some so =>
      simp only
      cases hp : so.so_proto <;> rfl

theorem scan_rights {f : file} {so : socket} {fps : List ℕ} (hd : f.dgram = some so)
    (hscan : scan so.sb_mb = .ok fps) : f.rights = fps := by
  unfold file.rights
  rw [hd]
  unfold scan at hscan
  cases hs : unp_scan .address so.sb_mb with
  | none =>
    rw [hs] at hscan
    cases hscan
  | some l =>
    rw [hs] at hscan
    cases hscan
    show (unp_scan .address so.sb_mb).getD [] = fps
    rw [hs]
    rfl

/-- What is marked and scanned again is closed off. -/
theorem Marks.close (h : Marks nfile t (some i) s) (hi : Scanned s t i) : Marks nfile t none s := by
  refine ⟨h.like, h.sound, h.deferred, h.unp_defer, fun j hj hd _ => ?_⟩
  by_cases hji : some i = some j
  · rw [Option.some.injEq] at hji
    exact hji ▸ hi
  · exact h.scanned j hj hd hji

/-- **A scan that ends** leaves the file scanned. -/
theorem markrights_ok (h : Marks nfile t (some i) s) (hwf : Wf nfile t) (hi : i < nfile)
    (hmark : (s.file i).FMARK = true) (hrun : markrights s i = .ok s') :
    Marks nfile t none s' ∧ Grows s s' := by
  have hreach := h.sound i hmark
  rw [markrights_eq, h.like.dgram] at hrun
  cases hd : (t i).dgram with
  | none =>
    rw [hd] at hrun
    cases hrun
    refine ⟨h.close ⟨fun so hso => ?_, fun k hk => ?_⟩, .refl⟩
    · rw [hd] at hso
      cases hso
    · unfold file.rights at hk
      rw [hd] at hk
      exact absurd hk not_mem_nil
  | some so =>
    simp only [hd] at hrun
    by_cases hl : so.locked = true
    · rw [if_pos hl] at hrun
      cases hrun
    · rw [if_neg hl] at hrun
      cases hscan : scan so.sb_mb with
      | error e =>
        rw [hscan] at hrun
        cases hrun
      | ok fps =>
        rw [hscan] at hrun
        cases hrun
        have hrights := scan_rights hd hscan
        obtain ⟨hm, hg, hall⟩ := marks_foldl hwf fps s h fun k hk => by
          obtain ⟨r, hr, hpath⟩ := hreach
          exact ⟨r, hr, hpath.tail ⟨hi, by rw [hrights]; exact hk⟩⟩
        refine ⟨hm.close ⟨fun so' hso => ?_, fun k hk => hall k (by rwa [← hrights])⟩, hg⟩
        rw [hd, Option.some.injEq] at hso
        rw [← hso]
        exact Bool.not_eq_true _ |>.mp hl

theorem markrights_total (h : Like t s.file) (hwf : Wf nfile t) (hu : Unlocked nfile t)
    (hi : i < nfile) : ∃ s', markrights s i = .ok s' := by
  rw [markrights_eq, h.dgram]
  cases hd : (t i).dgram with
  | none => exact ⟨s, rfl⟩
  | some so =>
    have hl := hu i so hi hd
    obtain ⟨fps, hfps⟩ := Option.isSome_iff_exists.mp (hwf.whole i so hi hd hl)
    simp only [hl, Bool.false_eq_true, if_false]
    unfold scan
    rw [hfps]
    exact ⟨_, rfl⟩

/-! ## A pass -/

/-- What is marked and not deferred is not deferred later. -/
theorem undefer (h : Grows s s') (hd : (s.file i).FDEFER = false) (hm : (s.file i).FMARK = true) :
    (s'.file i).FDEFER = false := by
  by_contra hne
  rcases h.defers i (Bool.not_eq_false _ |>.mp hne) with h1 | h1
  · rw [hd] at h1
    cases h1
  · rw [hm] at h1
    cases h1

/-- **A round of the inner loop**: afterwards the file is marked if a process has it. -/
theorem markfile_ok (h : Marks nfile t none s) (hwf : Wf nfile t) (hi : i < nfile)
    (hrun : markfile s i = .ok s') : Marks nfile t none s' ∧ Grows s s' ∧
      (Root nfile t i → (s'.file i).FMARK = true) ∧ (s'.file i).FDEFER = false := by
  have hlike := h.like i
  have hcount : (s.file i).f_count = (t i).f_count := by rw [hlike]
  have hmsg : (s.file i).f_msgcount = (t i).f_msgcount := by rw [hlike]
  unfold markfile at hrun
  by_cases h0 : (s.file i).f_count = 0
  · rw [if_pos h0] at hrun
    cases hrun
    refine ⟨h, .refl, fun hr => ?_, ?_⟩
    · exact absurd (hcount ▸ h0) (Reachable.count_pos ⟨i, hr, .refl⟩ hwf)
    · by_contra hd
      have hm := h.sound i (h.deferred i (Bool.not_eq_false _ |>.mp hd))
      exact absurd (hcount ▸ h0) (hm.count_pos hwf)
  · rw [if_neg h0] at hrun
    by_cases hd : (s.file i).FDEFER = true
    · -- it has been deferred, and is scanned now
      rw [if_pos hd] at hrun
      have hm := h.deferred i hd
      have hgrows : Grows s ⟨update s.file i { s.file i with FDEFER := false },
          s.unp_defer - 1⟩ := by
        refine ⟨fun j hj => ?_, fun j hj => ?_⟩
        · show (update s.file i _ j).FMARK = true
          by_cases hji : j = i
          · rw [hji, update_self]
            exact hm
          · rwa [update_of_ne hji]
        · have hj' : (update s.file i _ j).FDEFER = true := hj
          by_cases hji : j = i
          · rw [hji, update_self] at hj'
            cases hj'
          · rw [update_of_ne hji] at hj'
            exact Or.inl hj'
      have hself : (update s.file i { s.file i with FDEFER := false } i).FMARK = true := by
        rw [update_self]
        exact hm
      have hopen : Marks nfile t (some i)
          ⟨update s.file i { s.file i with FDEFER := false }, s.unp_defer - 1⟩ := by
        refine ⟨like_update h.like (s.file i).FMARK false, fun j hj => ?_, fun j hj => ?_, ?_,
          fun j hj hjd hne => ?_⟩
        · by_cases hji : j = i
          · rw [hji]
            exact h.sound i hm
          · have hj' : (update s.file i _ j).FMARK = true := hj
            rw [update_of_ne hji] at hj'
            exact h.sound j hj'
        · have hj' : (update s.file i _ j).FDEFER = true := hj
          by_cases hji : j = i
          · rw [hji]
            exact hself
          · rw [update_of_ne hji] at hj'
            exact hgrows.marks j (h.deferred j hj')
        · show s.unp_defer - 1 = _
          rw [total_update hi, h.unp_defer, hd]
          simp
        · have hji : j ≠ i := fun heq => hne (by rw [heq])
          have hj' : (update s.file i _ j).FMARK = true := hj
          have hjd' : (update s.file i _ j).FDEFER = false := hjd
          rw [update_of_ne hji] at hj' hjd'
          exact (h.scanned j hj' hjd' nofun).grows hgrows
      obtain ⟨h1, h2⟩ := markrights_ok hopen hwf hi hself hrun
      refine ⟨h1, hgrows.trans h2, fun _ => h2.marks i hself, undefer h2 ?_ hself⟩
      show (update s.file i { s.file i with FDEFER := false } i).FDEFER = false
      rw [update_self]
    · rw [if_neg hd] at hrun
      by_cases hm : (s.file i).FMARK = true
      · rw [if_pos hm] at hrun
        cases hrun
        exact ⟨h, .refl, fun _ => hm, Bool.not_eq_true _ |>.mp hd⟩
      · rw [if_neg hm] at hrun
        by_cases heq : (s.file i).f_count = (s.file i).f_msgcount
        · rw [if_pos heq] at hrun
          cases hrun
          refine ⟨h, .refl, fun hr => ?_, Bool.not_eq_true _ |>.mp hd⟩
          have := hr.2
          omega
        · rw [if_neg heq] at hrun
          have hroot : Root nfile t i := by
            have := hwf.count i hi
            exact ⟨hi, by omega⟩
          have hd' : (s.file i).FDEFER = false := Bool.not_eq_true _ |>.mp hd
          have hgrows : Grows s { s with
              file := update s.file i { s.file i with FMARK := true } } := by
            refine ⟨fun j hj => ?_, fun j hj => ?_⟩
            · show (update s.file i _ j).FMARK = true
              by_cases hji : j = i
              · rw [hji, update_self]
              · rwa [update_of_ne hji]
            · have hj' : (update s.file i _ j).FDEFER = true := hj
              by_cases hji : j = i
              · rw [hji, update_self] at hj'
                exact Or.inl (hji ▸ hj')
              · rw [update_of_ne hji] at hj'
                exact Or.inl hj'
          have hself : (update s.file i { s.file i with FMARK := true } i).FMARK = true := by
            rw [update_self]
          have hopen : Marks nfile t (some i)
              { s with file := update s.file i { s.file i with FMARK := true } } := by
            refine ⟨like_update h.like true (s.file i).FDEFER, fun j hj => ?_, fun j hj => ?_, ?_,
              fun j hj hjd hne => ?_⟩
            · by_cases hji : j = i
              · rw [hji]
                exact ⟨i, hroot, .refl⟩
              · have hj' : (update s.file i _ j).FMARK = true := hj
                rw [update_of_ne hji] at hj'
                exact h.sound j hj'
            · have hj' : (update s.file i _ j).FDEFER = true := hj
              by_cases hji : j = i
              · rw [hji]
                exact hself
              · rw [update_of_ne hji] at hj'
                exact hgrows.marks j (h.deferred j hj')
            · show s.unp_defer = _
              rw [total_update hi, h.unp_defer]
              ring
            · have hji : j ≠ i := fun heq => hne (by rw [heq])
              have hj' : (update s.file i _ j).FMARK = true := hj
              have hjd' : (update s.file i _ j).FDEFER = false := hjd
              rw [update_of_ne hji] at hj' hjd'
              exact (h.scanned j hj' hjd' nofun).grows hgrows
          obtain ⟨h1, h2⟩ := markrights_ok hopen hwf hi hself hrun
          refine ⟨h1, hgrows.trans h2, fun _ => h2.marks i hself, undefer h2 ?_ hself⟩
          show (update s.file i { s.file i with FMARK := true } i).FDEFER = false
          rw [update_self]
          exact hd'

theorem markfile_total (h : Marks nfile t none s) (hwf : Wf nfile t) (hu : Unlocked nfile t)
    (hi : i < nfile) : ∃ s', markfile s i = .ok s' := by
  unfold markfile
  simp only
  split_ifs
  · exact ⟨_, rfl⟩
  · exact markrights_total (like_update h.like (s.file i).FMARK false) hwf hu hi
  · exact ⟨_, rfl⟩
  · exact ⟨_, rfl⟩
  · exact markrights_total (like_update h.like true (s.file i).FDEFER) hwf hu hi

/-- A loop over one place more. -/
theorem foldlM_range_succ {σ : Type} (f : σ → ℕ → Except stop σ) (a : σ) (k : ℕ) :
    (List.range (k + 1)).foldlM f a = (List.range k).foldlM f a >>= fun b => f b k := by
  rw [range_succ, foldlM_append]
  congr 1
  funext b
  rw [foldlM_cons]
  exact bind_pure (f b k)

/-- **A pass** over the table. -/
theorem pass_ok (hwf : Wf nfile t) (h : Marks nfile t none s) : ∀ k s', k ≤ nfile →
    (List.range k).foldlM markfile s = .ok s' → Marks nfile t none s' ∧ Grows s s' ∧
      (∀ i, i < k → Root nfile t i → (s'.file i).FMARK = true) ∧
      ∀ i, i < k → (s'.file i).FDEFER = true → (s.file i).FMARK = false := by
  intro k
  induction k with
  | zero =>
    intro s' _ hrun
    cases hrun
    exact ⟨h, .refl, fun i hi => absurd hi (Nat.not_lt_zero i),
      fun i hi => absurd hi (Nat.not_lt_zero i)⟩
  | succ k ih =>
    intro s' hk hrun
    rw [foldlM_range_succ] at hrun
    cases hpre : (List.range k).foldlM markfile s with
    | error e =>
      rw [hpre] at hrun
      cases hrun
    | ok s1 =>
      rw [hpre] at hrun
      obtain ⟨h1, hg1, hroot1, hdefer1⟩ := ih s1 (by omega) hpre
      obtain ⟨h2, hg2, hroot2, hdefer2⟩ := markfile_ok h1 hwf hk hrun
      refine ⟨h2, hg1.trans hg2, fun i hi hr => ?_, fun i hi hd => ?_⟩
      · by_cases hik : i = k
        · rw [hik] at hr ⊢
          exact hroot2 hr
        · exact hg2.marks i (hroot1 i (by omega) hr)
      · have hik : i ≠ k := fun heq => by
          rw [heq, hdefer2] at hd
          cases hd
        rcases hg2.defers i hd with hd' | hm
        · exact hdefer1 i (by omega) hd'
        · by_contra hne
          rw [hg1.marks i (Bool.not_eq_false _ |>.mp hne)] at hm
          cases hm

theorem pass_total (hwf : Wf nfile t) (hu : Unlocked nfile t) (h : Marks nfile t none s) :
    ∀ k, k ≤ nfile → ∃ s', (List.range k).foldlM markfile s = .ok s' := by
  intro k
  induction k with
  | zero => exact fun _ => ⟨s, rfl⟩
  | succ k ih =>
    intro hk
    obtain ⟨s1, h1⟩ := ih (by omega)
    obtain ⟨hm, -, -, -⟩ := pass_ok hwf h k s1 (by omega) h1
    obtain ⟨s2, h2⟩ := markfile_total hm hwf hu hk
    refine ⟨s2, ?_⟩
    rw [foldlM_range_succ, h1]
    exact h2

/-! ## The phase -/

/-- **The mark phase, when it ends**, has marked what can be reached. -/
structure Marked (nfile : ℕ) (t : table) (s : marking) : Prop where
  like : Like t s.file
  exact_ : ∀ i, (s.file i).FMARK = true ↔ Reachable nfile t i
  unlocked : Unlocked nfile t

theorem Marks.marked (hwf : Wf nfile t) (h : Marks nfile t none s) (h0 : s.unp_defer = 0)
    (hroot : ∀ i, Root nfile t i → (s.file i).FMARK = true) : Marked nfile t s := by
  have hnone : ∀ i, i < nfile → (s.file i).FDEFER = false := by
    intro i hi
    by_contra hd
    have hle : _ ≤ total nfile (fun f : file => if f.FDEFER then (1 : ℤ) else 0) s.file :=
      le_total (fun f => by split_ifs <;> omega) hi
    rw [← h.unp_defer, h0, if_pos (Bool.not_eq_false _ |>.mp hd)] at hle
    omega
  have hscanned : ∀ i, (s.file i).FMARK = true → Scanned s t i := fun i hi =>
    h.scanned i hi (hnone i ((h.sound i hi).lt hwf)) nofun
  have hall : ∀ i, Reachable nfile t i → (s.file i).FMARK = true := by
    rintro i ⟨r, hr, hpath⟩
    induction hpath with
    | refl => exact hroot r hr
    | tail _ hk ih => exact (hscanned _ ih).2 _ hk.2
  refine ⟨h.like, fun i => ⟨h.sound i, hall i⟩, fun i so hi hd => ?_⟩
  by_contra hl
  have hdata : (t i).f_data = some so := by
    unfold file.dgram at hd
    split at hd
    · rename_i so' _ hso
      split_ifs at hd
      rw [hso, ← hd]
    · cases hd
  have hreach : Reachable nfile t i :=
    ⟨i, ⟨hi, hwf.locked i so hi hdata (Bool.not_eq_false _ |>.mp hl)⟩, .refl⟩
  exact hl ((hscanned i (hall i hreach)).1 so hd)

theorem markloop_ok (hwf : Wf nfile t) : ∀ fuel s s', Marks nfile t none s →
    markloop nfile fuel s = .ok s' → Marked nfile t s' := by
  intro fuel
  induction fuel with
  | zero =>
    intro s s' _ hrun
    cases hrun
  | succ fuel ih =>
    intro s s' h hrun
    unfold markloop at hrun
    cases hpass : (List.range nfile).foldlM markfile s with
    | error e =>
      rw [hpass] at hrun
      cases hrun
    | ok s1 =>
      rw [hpass] at hrun
      obtain ⟨h1, -, hroot, -⟩ := pass_ok hwf h nfile s1 le_rfl hpass
      have hrun' : (if s1.unp_defer ≠ 0 then markloop nfile fuel s1 else .ok s1) = .ok s' := hrun
      by_cases h0 : s1.unp_defer ≠ 0
      · rw [if_pos h0] at hrun'
        exact ih s1 s' h1 hrun'
      · rw [if_neg h0] at hrun'
        cases hrun'
        exact h1.marked hwf (not_not.mp h0) fun i hr => hroot i hr.1 hr

/-- How many files are not marked. -/
def unmarked (nfile : ℕ) (s : marking) : ℤ :=
  total nfile (fun f => if f.FMARK then 0 else 1) s.file

/-- Each pass but the last marks a file. -/
theorem markloop_total (hwf : Wf nfile t) (hu : Unlocked nfile t) : ∀ (fuel : ℕ) s,
    Marks nfile t none s → unmarked nfile s < fuel → ∃ s', markloop nfile fuel s = .ok s' := by
  intro fuel
  induction fuel with
  | zero =>
    intro s _ hlt
    have : 0 ≤ unmarked nfile s := total_nonneg fun f => by split_ifs <;> omega
    omega
  | succ fuel ih =>
    intro s h hlt
    obtain ⟨s1, hpass⟩ := pass_total hwf hu h nfile le_rfl
    obtain ⟨h1, hg, -, hdefer⟩ := pass_ok hwf h nfile s1 le_rfl hpass
    unfold markloop
    rw [hpass]
    show ∃ s', (if s1.unp_defer ≠ 0 then markloop nfile fuel s1 else .ok s1) = .ok s'
    by_cases h0 : s1.unp_defer ≠ 0
    · rw [if_pos h0]
      refine ih s1 h1 ?_
      -- a file that is deferred was not marked before
      obtain ⟨i, hi, hd⟩ : ∃ i, i < nfile ∧ (s1.file i).FDEFER = true := by
        by_contra hnone
        rw [h1.unp_defer] at h0
        refine h0 (total_eq_zero fun i hi => if_neg fun hd => hnone ⟨i, hi, hd⟩)
      have hnew := h1.deferred i hd
      have hold := hdefer i hi hd
      have hle : ∀ j, j < nfile → (if (s1.file j).FMARK then (0 : ℤ) else 1) ≤
          if (s.file j).FMARK then 0 else 1 := by
        intro j _
        by_cases hj : (s.file j).FMARK = true
        · rw [if_pos hj, if_pos (hg.marks j hj)]
        · rw [if_neg hj]
          split_ifs <;> omega
      have hstrict : unmarked nfile s1 < unmarked nfile s := by
        refine Finset.sum_lt_sum (fun j hj => hle j (Finset.mem_range.mp hj))
          ⟨i, Finset.mem_range.mpr hi, ?_⟩
        rw [if_pos hnew, if_neg (by rw [hold]; exact Bool.false_ne_true)]
        exact Int.zero_lt_one
      omega
    · rw [if_neg h0]
      exact ⟨s1, rfl⟩

/-- The table when `unp_gc` begins. -/
def cleared (t : table) : table := fun i => { t i with FMARK := false, FDEFER := false }

theorem cleared_marks : Marks nfile t none ⟨cleared t, 0⟩ := by
  refine ⟨fun _ => rfl, fun i hi => ?_, fun i hi => ?_, ?_, fun i hi => ?_⟩
  · cases hi
  · cases hi
  · exact (total_eq_zero fun _ _ => rfl).symm
  · cases hi

/-- **The mark phase** ends when no buffer is locked. -/
theorem mark_total (hwf : Wf nfile t) (hu : Unlocked nfile t) :
    ∃ s, markloop nfile (nfile + 1) ⟨cleared t, 0⟩ = .ok s := by
  refine markloop_total hwf hu _ _ cleared_marks ?_
  have : unmarked nfile ⟨cleared t, 0⟩ = nfile := by
    unfold unmarked total cleared
    simp
  rw [this]
  omega

end Unp
