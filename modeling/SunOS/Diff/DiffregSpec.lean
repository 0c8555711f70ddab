/-
# What a comparison reports

Files that differ are compared unless one of them begins like an a.out file.  A line whose hash is
0 ends its file for `diffreg`.  The report makes the new file of the old one up to such lines, and
nothing of what comes after them is compared.
-/
import SunOS.Diff.Check
import SunOS.Diff.Output
import SunOS.Diff.Longest

namespace Diff

open List

variable {l : List ℕ} {ls ls0 ls1 : List (List ℕ)} {f : List ℕ}

/-! ## Lines and their hashes -/

/-- Lines of text. -/
def Text (ls : List (List ℕ)) : Prop := ∀ l ∈ ls, ∀ c ∈ l, 1 ≤ c ∧ c ≤ 127 ∧ c ≠ 10

theorem Text.lines (h : Text ls) : Lines ls := fun l hl hc => (h l hl 10 hc).2.2 rfl

theorem Text.nonzero (h : Text ls) : ∀ l ∈ ls, 0 ∉ l :=
  fun l hl hc => absurd (h l hl 0 hc).1 (by omega)

/-- The hash of a line. -/
def hash (l : List ℕ) : ℤ := (readhash (l ++ [10])).1

/-- The lines that are compared. -/
def compared (ls : List (List ℕ)) : List (List ℕ) := ls.takeWhile fun l => hash l ≠ 0

/-- The lines from the first one on whose hash is 0. -/
def uncompared (ls : List (List ℕ)) : List (List ℕ) := ls.dropWhile fun l => hash l ≠ 0

theorem compared_append (ls : List (List ℕ)) : compared ls ++ uncompared ls = ls :=
  takeWhile_append_dropWhile

theorem take_compared (ls : List (List ℕ)) : ls.take (compared ls).length = compared ls := by
  have h : (compared ls ++ uncompared ls).take (compared ls).length = compared ls := take_left
  rwa [compared_append] at h

theorem drop_compared (ls : List (List ℕ)) : ls.drop (compared ls).length = uncompared ls := by
  have h : (compared ls ++ uncompared ls).drop (compared ls).length = uncompared ls :=
    drop_left
  rwa [compared_append] at h

theorem compared_le (ls : List (List ℕ)) : (compared ls).length ≤ ls.length :=
  ( takeWhile_prefix _).length_le

theorem hashloop_line (h : 10 ∉ l) : ∀ sum shift,
    hashloop sum shift (l ++ 10 :: f) = ((hashloop sum shift (l ++ [10])).1, f) := by
  induction l with
  | nil => exact fun _ _ => rfl
  | cons t l ih =>
    intro sum shift
    rw [mem_cons, not_or] at h
    rw [cons_append, cons_append, hashloop, hashloop, if_neg (Ne.symm h.1),
      if_neg (Ne.symm h.1)]
    exact ih h.2 _ _

theorem readhash_line (h : 10 ∉ l) : readhash (l ++ 10 :: f) = (hash l, f) := hashloop_line h 1 0

theorem length_text_cons : (text (l :: ls)).length = l.length + 1 + (text ls).length := by
  rw [text_cons, length_append, length_cons]
  omega

theorem text_inj (h0 : Lines ls0) (h1 : Lines ls1) (h : text ls0 = text ls1) : ls0 = ls1 := by
  have hlines : ∀ ls, Lines ls → ∀ ls', Lines ls' → text ls = text ls' → ls = ls' := by
    intro ls
    induction ls with
    | nil =>
      intro _ ls' _ heq
      cases ls' with
      | nil => rfl
      | cons l' ls' =>
        have := congrArg List.length heq
        rw [length_text_cons] at this
        have : (text []).length = 0 := rfl
        omega
    | cons l ls ih =>
      intro hls ls' hls' heq
      cases ls' with
      | nil =>
        have := congrArg List.length heq
        rw [length_text_cons] at this
        have : (text []).length = 0 := rfl
        omega
      | cons l' ls' =>
        rw [text_cons, text_cons] at heq
        have hread := skipline_line (f := text ls) (hls l mem_cons_self)
        rw [heq, skipline_line (hls' l' mem_cons_self), Prod.mk.injEq] at hread
        have hrest := hread.2.symm
        rw [hrest, append_left_inj] at heq
        rw [heq, ih (fun x hx => hls x (mem_cons_of_mem l hx)) ls'
          (fun x hx => hls' x (mem_cons_of_mem l' hx)) hrest]
  exact hlines ls0 h0 ls1 h1 h

/-! ## prepare -/

/-- The loop of `prepare` stops at the first line whose hash is 0. -/
theorem prepareloop_spec : ∀ (ls : List (List ℕ)) (fuel j : ℕ) (p : ℕ → line), Lines ls →
    (text ls).length < fuel → ∃ p', prepareloop fuel (text ls) j p =
        some (j + (compared ls).length, p') ∧ (∀ k, k ≤ j → p' k = p k) ∧
      ∀ k, j < k → k ≤ j + (compared ls).length → (p' k).value ≠ 0 := by
  intro ls
  induction ls with
  | nil =>
    intro fuel j p _ hfuel
    obtain ⟨fuel, rfl⟩ : ∃ n, fuel = n + 1 := ⟨fuel - 1, by lia⟩
    exact ⟨p, rfl, fun k _ => rfl, fun k hk hkj => absurd hkj (not_le.mpr hk)⟩
  | cons l ls ih =>
    intro fuel j p hls hfuel
    obtain ⟨fuel, rfl⟩ : ∃ n, fuel = n + 1 := ⟨fuel - 1, by lia⟩
    rw [length_text_cons] at hfuel
    have hhash : readhash (text (l :: ls)) = (hash l, text ls) := by
      rw [text_cons, readhash_line (hls l mem_cons_self)]
    unfold prepareloop
    rw [hhash]
    by_cases h : hash l = 0
    · have hnone : compared (l :: ls) = [] :=
        takeWhile_cons_of_neg (by simpa using h)
      simp only [h, if_true, hnone]
      exact ⟨p, rfl, fun k _ => rfl, fun k hk hkj => absurd hkj (not_le.mpr hk)⟩
    · have hmore : compared (l :: ls) = l :: compared ls :=
        takeWhile_cons_of_pos (by simpa using h)
      simp only [if_neg h, hmore, length_cons]
      obtain ⟨p', hrun, hsame, hne⟩ := ih fuel (j + 1)
        (Function.update p (j + 1) { p (j + 1) with value := hash l })
        (fun x hx => hls x (mem_cons_of_mem l hx)) (by lia)
      refine ⟨p', ?_, fun k hk => ?_, fun k hk hkj => ?_⟩
      · rw [hrun, show j + 1 + (compared ls).length = j + ((compared ls).length + 1) by lia]
      · rw [hsame k (by lia), Function.update_of_ne (by lia)]
      · by_cases hkj1 : k = j + 1
        · rw [hsame k (by lia), hkj1, Function.update_self]
          exact h
        · exact hne k (by lia) (by lia)

/-- **`prepare`** counts the lines that are compared. -/
theorem prepare_spec (mem : heap) (h : Lines ls) : ∃ p, prepare mem (text ls) =
    some ((compared ls).length, p) ∧
      ∀ k, 1 ≤ k → k ≤ (compared ls).length → (p k).value ≠ 0 := by
  obtain ⟨p, hrun, -, hne⟩ := prepareloop_spec ls ((text ls).length + 1) 0 mem.file h
    (Nat.lt_succ_self _)
  rw [Nat.zero_add] at hrun hne
  exact ⟨p, hrun, hne⟩

/-! ## Reports -/

/-- The hunk of a report. -/
def report.hunk (r : report) : Hunk (List ℕ) := ⟨r.range.a, r.range.b, r.new⟩

/-- The new lines of a report are those of its range. -/
theorem reports_hunks {ixold ixnew : ℕ → ℕ} {f0 : List ℕ} {m n : ℕ} (hl : Lines ls1)
    (h0 : ∀ l ∈ ls1, 0 ∉ l) (hn : n ≤ ls1.length) (hix : ∀ k, k ≤ n → ixnew k = off ls1 k) :
    ∀ rs, Within m n rs → (rs.filterMap (change ixold ixnew f0 (text ls1))).map report.hunk =
      hunks (ls1.take n) rs := by
  intro rs
  induction rs with
  | nil => exact fun _ => rfl
  | cons r rs ih =>
    intro hrs
    have hr := (hrs r mem_cons_self).2
    have ih := ih fun x hx => hrs x (mem_cons_of_mem r hx)
    unfold hunks at ih ⊢
    by_cases h : r.b < r.a ∧ r.d < r.c
    · have hchange : change ixold ixnew f0 (text ls1) r = none := if_pos h
      have hrep : ¬ r.reported := fun hc => hc h
      rw [filterMap_cons_none hchange, filter_cons_of_neg (by simpa using hrep), ih]
    · have hchange : change ixold ixnew f0 (text ls1) r =
          some ⟨r, fetch ixold r.a r.b f0, fetch ixnew r.c r.d (text ls1)⟩ := if_neg h
      have hrep : r.reported := h
      have hfetch : fetch ixnew r.c r.d (text ls1) =
          ((ls1.take n).drop (r.c - 1)).take (r.d - (r.c - 1)) := by
        rw [fetch_eq hl h0 hr.1 (hr.2.2.trans hn) fun k hk => hix k (hk.trans hr.2.2),
          drop_take, take_take, min_eq_left (Nat.sub_le_sub_right hr.2.2 _)]
      rw [filterMap_cons_some hchange, filter_cons_of_pos (by simpa using hrep),
        map_cons, map_cons, ih]
      unfold report.hunk range.hunk
      rw [hfetch]

/-- The file begins like an a.out file. -/
def Aout (f : List ℕ) : Prop := 32 ≤ f.length ∧ N_BADMAG (256 * f.getD 2 0 + f.getD 3 0) = false

/-- A file of text is taken for one unless it begins like an a.out file. -/
theorem asciifile_text (h : Text ls) : asciifile (text ls) = true ↔ ¬ Aout (text ls) := by
  have hall : ((text ls).take BUFSIZ).all (fun c => c / 128 % 2 = 0) = true := by
    rw [all_eq_true]
    intro c hc
    have hc := mem_of_mem_take hc
    rw [text, mem_flatMap] at hc
    obtain ⟨l, hl, hc⟩ := hc
    have hle : c ≤ 127 := by
      rcases List.mem_append.mp hc with hc | hc
      · exact (h l hl c hc).2.1
      · rw [List.mem_singleton.mp hc]
        decide
    rw [Nat.div_eq_of_lt (by omega)]
    rfl
  have hget : ∀ i < 4, ((text ls).take BUFSIZ).getD i 0 = (text ls).getD i 0 := fun i hi => by
    rw [List.getD_eq_getElem?_getD, List.getD_eq_getElem?_getD,
      List.getElem?_take_of_lt (by rw [BUFSIZ]; omega)]
  have hlen : sizeofExec ≤ ((text ls).take BUFSIZ).length ↔ 32 ≤ (text ls).length := by
    rw [length_take, sizeofExec, BUFSIZ]
    omega
  unfold asciifile Aout
  simp only [hget 2 (by decide), hget 3 (by decide), hlen, hall]
  split_ifs with haout
  · exact iff_of_false id (not_not.mpr haout)
  · exact iff_of_true rfl haout

open Hunk in
/-- **The report on two files that differ**: it makes the lines that are compared of the new
file of those of the old one. -/
theorem diffreg_spec (mem : heap) (h0 : Text ls0) (h1 : Text ls1) (hne : text ls0 ≠ text ls1)
    (haout0 : ¬ Aout (text ls0)) (haout1 : ¬ Aout (text ls1)) :
    ∃ rs, diffreg mem (text ls0) (text ls1) = some (.changes rs) ∧
      patch ls0 0 (rs.map report.hunk) = compared ls1 ++ uncompared ls0 := by
  obtain ⟨file0, hprep0, -⟩ := prepare_spec mem h0.lines
  obtain ⟨file1, hprep1, hvalue⟩ := prepare_spec mem h1.lines
  obtain ⟨J, hmatch, hJ, -⟩ := matchvector_spec mem (compared ls0).length file0 hvalue
  obtain ⟨J', ixold, ixnew, hcheck, hkept, -, hixnew⟩ :=
    check_spec mem h0.lines h1.lines (compared_le ls0) (compared_le ls1) hJ
  have hentry : ∀ k, 1 ≤ k → k ≤ (compared ls0).length → J' k ≠ 0 →
      J' k = J k ∧ J k ≠ 0 ∧ ls0[k - 1]? = ls1[J k - 1]? := by
    intro k hk hkm hne'
    rw [hkept k hk hkm] at hne' ⊢
    by_cases hc : J k ≠ 0 ∧ ls0[k - 1]? = ls1[J k - 1]?
    · exact ⟨if_pos hc, hc⟩
    · exact absurd (if_neg hc) hne'
  have hJ' : Matching (compared ls0).length (compared ls1).length J' := by
    refine ⟨fun i i' hi hii hi' hne0 hne1 => ?_, fun i hi him => ?_⟩
    · obtain ⟨he, hn, -⟩ := hentry i hi (by omega) hne0
      obtain ⟨he', hn', -⟩ := hentry i' (by omega) hi' hne1
      rw [he, he']
      exact hJ.up i i' hi hii hi' hn hn'
    · by_cases hz : J' i = 0
      · rw [hz]
        exact Nat.zero_le _
      · rw [(hentry i hi him hz).1]
        exact hJ.le i hi him
  have htrue : ∀ k, 1 ≤ k → k ≤ (compared ls0).length → J' k ≠ 0 →
      ls0[k - 1]? = (compared ls1)[J' k - 1]? := by
    intro k hk hkm hz
    obtain ⟨he, hn, heq⟩ := hentry k hk hkm hz
    have hle := hJ.le k hk hkm
    rw [he, heq, ← take_compared ls1, List.getElem?_take_of_lt (by omega)]
  obtain ⟨ranges, hout, hwithin, hpatch⟩ := output_spec (compared_le ls0) rfl hJ' htrue
  refine ⟨ranges.filterMap (change ixold ixnew (text ls0) (text ls1)), ?_, ?_⟩
  · rw [diffreg_eq, if_neg hne, if_neg (by
      simp [(asciifile_text h0).mpr haout0, (asciifile_text h1).mpr haout1])]
    simp only [hprep0, hprep1, Option.bind_eq_bind, Option.bind_some]
    rw [hmatch, Option.bind_some, hcheck, hout, Option.bind_some]
  · rw [reports_hunks h1.lines h1.nonzero (compared_le ls1) hixnew ranges hwithin,
      take_compared, hpatch, drop_compared]

/-- A report that is right: it makes the new file of the old one, and says something when they
are not the same. -/
def Right (mem : heap) (ls0 ls1 : List (List ℕ)) : Prop :=
  ∃ rs, diffreg mem (text ls0) (text ls1) = some (.changes rs) ∧
    Hunk.patch ls0 0 (rs.map report.hunk) = ls1 ∧ (rs = [] ↔ text ls0 = text ls1)

/-- **Files are compared rightly** exactly when they are the same, or none of them begins like an
a.out file and they are the same from the first lines on that are taken for their ends. -/
theorem diffreg_right_iff (mem : heap) (ls0 ls1 : List (List ℕ)) (h0 : Text ls0) (h1 : Text ls1) :
    Right mem ls0 ls1 ↔ text ls0 = text ls1 ∨
      ¬ Aout (text ls0) ∧ ¬ Aout (text ls1) ∧ uncompared ls0 = uncompared ls1 := by
  by_cases heq : text ls0 = text ls1
  · obtain rfl := text_inj h0.lines h1.lines heq
    exact iff_of_true ⟨[], if_pos rfl, rfl, fun _ => rfl, fun _ => rfl⟩ (Or.inl rfl)
  rw [or_iff_right heq]
  by_cases hascii : asciifile (text ls0) = false ∨ asciifile (text ls1) = false
  · refine iff_of_false ?_ ?_
    · rintro ⟨rs, hrun, -⟩
      rw [diffreg_eq, if_neg heq, if_pos hascii] at hrun
      cases hrun
    · rintro ⟨haout0, haout1, -⟩
      rw [(asciifile_text h0).mpr haout0, (asciifile_text h1).mpr haout1] at hascii
      simp at hascii
  rw [not_or, Bool.not_eq_false, Bool.not_eq_false, asciifile_text h0, asciifile_text h1] at hascii
  obtain ⟨haout0, haout1⟩ := hascii
  obtain ⟨rs, hrun, hpatch⟩ := diffreg_spec mem h0 h1 heq haout0 haout1
  constructor
  · rintro ⟨rs', hrun', hpatch', -⟩
    obtain rfl : rs = rs' := printed.changes.inj (Option.some.inj (hrun.symm.trans hrun'))
    exact ⟨haout0, haout1,
      append_cancel_left (hpatch.symm.trans (hpatch'.trans (compared_append ls1).symm))⟩
  · rintro ⟨-, -, huncompared⟩
    rw [huncompared, compared_append] at hpatch
    refine ⟨rs, hrun, hpatch, fun hnil => ?_, fun h => absurd h heq⟩
    rw [hnil] at hpatch
    exact absurd (congrArg text hpatch) heq

/-- Memory with nothing in it. -/
def cleared : heap :=
  ⟨fun _ => ⟨0, 0⟩, fun _ => 0, fun _ => 0, fun _ => ⟨0, 0, 0⟩, fun _ => 0, fun _ => 0, fun _ => 0⟩

/-- Of four lines one is changed and one goes, and a line comes at the end. -/
theorem diffreg_right_five :
    Right cleared [[97], [98, 99], [100], [101]] [[97], [98], [101], [102]] := by
  have h0 : Text [[97], [98, 99], [100], [101]] := by
    unfold Text
    decide
  have h1 : Text [[97], [98], [101], [102]] := by
    unfold Text
    decide
  refine (diffreg_right_iff cleared _ _ h0 h1).mpr (Or.inr ?_)
  unfold Aout
  exact ⟨by decide, by decide, by decide +kernel⟩

/-! ## A line that ends its file -/

theorem long_add (x y : ℤ) : long (long x + y) = long (x + y) := by
  unfold long
  omega

/-- Sixteen characters that are all 127. -/
theorem hashloop_cycle (x : ℤ) : ∀ k, hashloop (long x) 16 (List.replicate (16 * k) 127 ++ f) =
    hashloop (long (x + 8322945 * k)) 16 f := by
  intro k
  induction k generalizing x with
  | zero =>
    rw [Nat.mul_zero, Nat.cast_zero, mul_zero, add_zero]
    rfl
  | succ k ih =>
    have hcycle : List.replicate (16 * (k + 1)) 127 ++ f =
        List.replicate 16 127 ++ (List.replicate (16 * k) 127 ++ f) := by
      rw [← append_assoc, replicate_append_replicate, Nat.mul_succ, Nat.add_comm]
    have hone : ∀ f, hashloop (long x) 16 (List.replicate 16 127 ++ f) =
        hashloop (long (x + 8322945)) 16 f := by
      intro f
      simp [List.replicate, hashloop, long_add]
      ring_nf
    rw [hcycle, hone, ih, Nat.cast_succ]
    ring_nf

/-- A line of 4131 characters. -/
def overflow : List ℕ := List.replicate 4128 127 ++ [125, 127, 11]

theorem hash_overflow : hash overflow = 0 := by
  have hstart : ∀ n f, hashloop 1 0 (List.replicate (n + 1) 127 ++ f) =
      hashloop (long 1) 16 (List.replicate (n + 1) 127 ++ f) := fun _ _ => rfl
  unfold hash readhash overflow
  rw [append_assoc, hstart 4127, show 4127 + 1 = 16 * 258 by rfl, hashloop_cycle]
  decide +kernel

theorem text_overflow : Text [overflow] := by
  intro l hl c hc
  rw [List.mem_singleton.mp hl] at hc
  rcases List.mem_append.mp hc with h | h
  · rw [(List.mem_replicate.mp h).2]
    decide
  · have hall : ∀ c ∈ [125, 127, 11], 1 ≤ c ∧ c ≤ 127 ∧ c ≠ 10 := by decide
    exact hall c h

/-- **A file whose only line has the hash 0** is the same, to `diffreg`, as one with nothing in
it. -/
theorem diffreg_misses_line : Text [overflow] ∧ Text [] ∧
    diffreg cleared (text [overflow]) (text []) = some (.changes []) ∧ text [overflow] ≠ text [] ∧
    ¬ Right cleared [overflow] [] := by
  have hne : text [overflow] ≠ text [] := by
    rw [text_cons]
    exact append_ne_nil_of_right_ne_nil _ (cons_ne_nil _ _)
  have hempty : Text [] := fun l hl => absurd hl not_mem_nil
  have hnone : compared [overflow] = [] :=
    takeWhile_cons_of_neg (by simp [hash_overflow])
  obtain ⟨file0, hprep0, -⟩ := prepare_spec cleared text_overflow.lines
  obtain ⟨file1, hprep1, -⟩ := prepare_spec cleared hempty.lines
  rw [hnone] at hprep0
  have hascii : asciifile (text [overflow]) = true := (asciifile_text text_overflow).mpr fun h =>
    absurd h.2 (by
      rw [show (text [overflow]).getD 2 0 = 127 from rfl,
        show (text [overflow]).getD 3 0 = 127 from rfl]
      decide)
  have hrun : diffreg cleared (text [overflow]) (text []) = some (.changes []) := by
    unfold diffreg
    rw [if_neg hne, if_neg (by rw [hascii]; decide), hprep0, hprep1]
    rfl
  refine ⟨text_overflow, hempty, hrun, hne, ?_⟩
  rintro ⟨rs, hrun', -, hiff⟩
  obtain rfl := printed.changes.inj (Option.some.inj (hrun.symm.trans hrun'))
  exact hne (hiff.mp rfl)

end Diff
