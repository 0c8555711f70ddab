/-
# Checking the matches

`check` reads both files once.  It keeps a match where the two lines are equal, and notes
where every line ends, so that a line can be fetched later.
-/
import SunOS.Diff.Unravel

namespace Diff

open List
open Function (update update_of_ne update_self)

variable {l l' : List ℕ} {ls ls0 ls1 : List (List ℕ)} {f f0 f1 : List ℕ} {J : ℕ → ℕ} {i k : ℕ}

/-! ## Texts -/

/-- The bytes of a file of lines. -/
def text (ls : List (List ℕ)) : List ℕ := ls.flatMap fun l => l ++ [10]

/-- Lines without a newline in them. -/
def Lines (ls : List (List ℕ)) : Prop := ∀ l ∈ ls, 10 ∉ l

theorem text_cons : text (l :: ls) = l ++ 10 :: text ls := by
  unfold text
  rw [flatMap_cons, append_assoc]
  rfl

theorem text_append : text (ls0 ++ ls1) = text ls0 ++ text ls1 := flatMap_append

/-- Where line `k` ends. -/
def off (ls : List (List ℕ)) (k : ℕ) : ℕ := (text (ls.take k)).length

theorem off_succ (h : ls[k]? = some l) : off ls (k + 1) = off ls k + (l.length + 1) := by
  unfold off
  rw [take_add_one, h, text_append, length_append]
  simp [text]

theorem drop_off : (text ls).drop (off ls k) = text (ls.drop k) := by
  conv_lhs => rw [← take_append_drop k ls, text_append]
  rw [take_append_drop, List.drop_left']
  rfl

theorem text_drop (h : ls[k]? = some l) : text (ls.drop k) = l ++ 10 :: text (ls.drop (k + 1)) := by
  obtain ⟨hk, rfl⟩ := List.getElem?_eq_some_iff.mp h
  rw [drop_eq_getElem_cons hk, text_cons]

/-! ## skipline, compare -/

theorem skipline_line (h : 10 ∉ l) : skipline (l ++ 10 :: f) = (l.length + 1, f) := by
  induction l with
  | nil => rfl
  | cons c l ih =>
    rw [mem_cons, not_or] at h
    rw [cons_append, skipline, if_neg (Ne.symm h.1), ih h.2, length_cons]

theorem skiprest_line {c : ℕ} (h : 10 ∉ l) (hc : c ≠ 10) :
    skiprest (c :: (l ++ 10 :: f)) = (l.length + 1, f) := by
  show (if c ≠ 10 then skipline (l ++ 10 :: f) else _) = _
  rw [if_pos hc, skipline_line h]

/-- Two lines are compared, and both are read to their ends. -/
theorem compare_line (h : 10 ∉ l) (h' : 10 ∉ l') :
    compare (l ++ 10 :: f0) (l' ++ 10 :: f1) =
      (decide (l = l'), l.length + 1, l'.length + 1, f0, f1) := by
  induction l generalizing l' with
  | nil =>
    cases l' with
    | nil => rfl
    | cons d l' =>
      rw [mem_cons, not_or] at h'
      rw [nil_append, cons_append, compare, if_pos h'.1,
        skiprest_line h'.2 (Ne.symm h'.1)]
      show (false, 1 + 0, 1 + (l'.length + 1), f0, f1) = _
      simp
      omega
  | cons c l ih =>
    rw [mem_cons, not_or] at h
    cases l' with
    | nil =>
      rw [nil_append, cons_append, compare, if_pos (Ne.symm h.1),
        skiprest_line h.2 (Ne.symm h.1)]
      show (false, 1 + (l.length + 1), 1 + 0, f0, f1) = _
      simp
      omega
    | cons d l' =>
      rw [mem_cons, not_or] at h'
      rw [cons_append, cons_append, compare]
      by_cases hcd : c ≠ d
      · rw [if_pos hcd, skiprest_line h.2 (Ne.symm h.1), skiprest_line h'.2 (Ne.symm h'.1)]
        simp [hcd]
        omega
      · rw [if_neg hcd, if_neg (Ne.symm h.1), ih h.2 h'.2]
        rw [not_not] at hcd
        simp [hcd]

/-! ## The new file -/

/-- `check` has read the lines of the new file before `j`. -/
structure NewAt (ls1 : List (List ℕ)) (p : newpos) : Prop where
  pos : 1 ≤ p.j
  le : p.j ≤ ls1.length + 1
  f : p.f = text (ls1.drop (p.j - 1))
  ctnew : p.ctnew = off ls1 (p.j - 1)
  ixnew : ∀ k, k < p.j → p.ixnew k = off ls1 k

variable {p : newpos}

/-- The line at `j` is read, however that is done. -/
theorem NewAt.next (h : NewAt ls1 p) (hl : ls1[p.j - 1]? = some l) :
    NewAt ls1 ⟨p.j + 1, update p.ixnew p.j (p.ctnew + (l.length + 1)),
      p.ctnew + (l.length + 1), text (ls1.drop p.j)⟩ := by
  have hpos := h.pos
  have hlt := (List.getElem?_eq_some_iff.mp hl).1
  have hoff : off ls1 p.j = p.ctnew + (l.length + 1) := by
    rw [h.ctnew, ← off_succ hl, Nat.sub_add_cancel hpos]
  refine ⟨Nat.le_add_left 1 _, ?_, rfl, hoff.symm, fun k hk => ?_⟩
  · show p.j + 1 ≤ _
    omega
  · show update p.ixnew p.j _ k = _
    by_cases hkj : k = p.j
    · subst hkj
      rw [update_self, hoff]
    · rw [update_of_ne hkj]
      have : k < p.j + 1 := hk
      exact h.ixnew k (by omega)

theorem skipto_spec (hls : Lines ls1) :
    ∀ (count : ℕ) (p : newpos), NewAt ls1 p → p.j + count ≤ ls1.length + 1 →
      NewAt ls1 (skipto count p) ∧ (skipto count p).j = p.j + count := by
  intro count
  induction count with
  | zero => exact fun p h _ => ⟨h, rfl⟩
  | succ count ih =>
    intro p h hle
    have hpos := h.pos
    obtain ⟨l, hl⟩ : ∃ l, ls1[p.j - 1]? = some l :=
      ⟨_, List.getElem?_eq_getElem (by omega)⟩
    have hskip : skipnew p = ⟨p.j + 1, update p.ixnew p.j (p.ctnew + (l.length + 1)),
        p.ctnew + (l.length + 1), text (ls1.drop p.j)⟩ := by
      unfold skipnew
      rw [h.f, text_drop hl, skipline_line (hls l (List.mem_of_getElem? hl)),
        show p.j - 1 + 1 = p.j by omega]
    obtain ⟨h1, h2⟩ := ih (skipnew p) (by rw [hskip]; exact h.next hl)
      (by rw [hskip]; show p.j + 1 + count ≤ _; omega)
    refine ⟨h1, h2.trans ?_⟩
    rw [hskip]
    show p.j + 1 + count = _
    omega

/-! ## check -/

/-- A match is kept when the lines are equal. -/
def kept (ls0 ls1 : List (List ℕ)) (J : ℕ → ℕ) (k : ℕ) : ℕ :=
  if J k ≠ 0 ∧ ls0[k - 1]? = ls1[J k - 1]? then J k else 0

/-- After `i` rounds of `check`. -/
structure Checked (ls0 ls1 : List (List ℕ)) (J : ℕ → ℕ) (i : ℕ) (s : checking) : Prop where
  f0 : s.f0 = text (ls0.drop i)
  ctold : s.ctold = off ls0 i
  ixold : ∀ k, k ≤ i → s.ixold k = off ls0 k
  new : NewAt ls1 s.new
  done : ∀ k, 1 ≤ k → k ≤ i → s.J k = kept ls0 ls1 J k
  rest : ∀ k, i < k → s.J k = J k
  last : s.new.j = 1 ∨ ∃ k, 1 ≤ k ∧ k ≤ i ∧ J k ≠ 0 ∧ s.new.j = J k + 1

/-- **One round** of `check`. -/
theorem checkline_spec {len0 len1 : ℕ} {s : checking} (hl0 : Lines ls0) (hl1 : Lines ls1)
    (h0 : len0 ≤ ls0.length) (h1 : len1 ≤ ls1.length) (hJ : Matching len0 len1 J)
    (hi : i + 1 ≤ len0) (h : Checked ls0 ls1 J i s) :
    Checked ls0 ls1 J (i + 1) (checkline s (i + 1)) := by
  obtain ⟨l, hl⟩ : ∃ l, ls0[i]? = some l := ⟨_, List.getElem?_eq_getElem (by lia)⟩
  have hn := hl0 l (List.mem_of_getElem? hl)
  have hoff := off_succ hl
  have hJi := h.rest (i + 1) (Nat.lt_succ_self i)
  have hixold : ∀ n, s.ctold + n = off ls0 (i + 1) → ∀ k, k ≤ i + 1 →
      update s.ixold (i + 1) (s.ctold + n) k = off ls0 k := by
    intro n hn k hk
    by_cases hki : k = i + 1
    · subst hki
      rw [update_self, hn]
    · rw [update_of_ne hki]
      exact h.ixold k (by lia)
  unfold checkline
  by_cases hz : s.J (i + 1) = 0
  · rw [if_pos hz, h.f0, text_drop hl, skipline_line hn]
    refine ⟨rfl, ?_, hixold _ (by rw [h.ctold, hoff]), h.new, fun k hk hki => ?_,
      fun k hk => h.rest k (by lia), ?_⟩
    · rw [hoff, ← h.ctold]
    · by_cases hki' : k = i + 1
      · subst hki'
        show s.J (i + 1) = _
        unfold kept
        rw [← hJi, if_neg (fun hc => hc.1 hz), hz]
      · exact h.done k hk (by lia)
    · rcases h.last with hj | ⟨k, hk, hki, hne, hj⟩
      · exact Or.inl hj
      · exact Or.inr ⟨k, hk, by lia, hne, hj⟩
  · rw [if_neg hz]
    have hne : J (i + 1) ≠ 0 := by rwa [← hJi]
    have hle := hJ.le (i + 1) (by lia) hi
    -- earlier matches are before this one
    have hjle : s.new.j ≤ J (i + 1) := by
      rcases h.last with hj | ⟨k, hk, hki, hne', hj⟩
      · lia
      · have := hJ.up k (i + 1) hk (by lia) hi hne' hne
        lia
    obtain ⟨hnew, hj⟩ := skipto_spec hl1 (s.J (i + 1) - s.new.j) s.new h.new (by rw [hJi]; lia)
    rw [hJi, show s.new.j + (J (i + 1) - s.new.j) = J (i + 1) by lia] at hj
    simp only [hJi]
    rw [hJi] at hnew
    generalize skipto (J (i + 1) - s.new.j) s.new = p at hnew hj
    obtain ⟨l', hl'⟩ : ∃ l', ls1[p.j - 1]? = some l' := ⟨_, List.getElem?_eq_getElem (by lia)⟩
    have hn' := hl1 l' (List.mem_of_getElem? hl')
    have hnext := hnew.next hl'
    have hcmp : compare s.f0 p.f =
        (decide (l = l'), l.length + 1, l'.length + 1, text (ls0.drop (i + 1)),
          text (ls1.drop p.j)) := by
      rw [h.f0, hnew.f, text_drop hl, text_drop hl', compare_line hn hn',
        show p.j - 1 + 1 = p.j by lia]
    rw [hcmp]
    have hkept : kept ls0 ls1 J (i + 1) = if l = l' then J (i + 1) else 0 := by
      have heq : ls0[i + 1 - 1]? = ls1[J (i + 1) - 1]? ↔ l = l' := by
        rw [Nat.add_sub_cancel, hl, ← hj, hl', Option.some.injEq]
      unfold kept
      by_cases hll : l = l'
      · rw [if_pos ⟨hne, heq.mpr hll⟩, if_pos hll]
      · rw [if_neg (fun hc => hll (heq.mp hc.2)), if_neg hll]
    refine ⟨rfl, ?_, hixold _ (by rw [h.ctold, hoff]), hnext, fun k hk hki => ?_, fun k hk => ?_,
      Or.inr ⟨i + 1, by lia, le_rfl, hne, by rw [← hj]⟩⟩
    · rw [hoff, ← h.ctold]
    · show (if decide (l = l') = true then s.J else update s.J (i + 1) 0) k = _
      by_cases hll : l = l'
      · rw [if_pos (decide_eq_true hll)]
        by_cases hki' : k = i + 1
        · subst hki'
          rw [hkept, if_pos hll, hJi]
        · exact h.done k hk (by lia)
      · rw [if_neg (by simpa using hll)]
        by_cases hki' : k = i + 1
        · subst hki'
          rw [update_self, hkept, if_neg hll]
        · rw [update_of_ne hki']
          exact h.done k hk (by lia)
    · show (if decide (l = l') = true then s.J else update s.J (i + 1) 0) k = _
      split_ifs with hll
      · exact h.rest k (by lia)
      · rw [update_of_ne (by lia)]
        exact h.rest k (by lia)

/-- **`check`** keeps the true matches and finds the ends of the lines. -/
theorem check_spec {len0 len1 : ℕ} (mem : heap) (hl0 : Lines ls0) (hl1 : Lines ls1)
    (h0 : len0 ≤ ls0.length) (h1 : len1 ≤ ls1.length) (hJ : Matching len0 len1 J) :
    ∃ J' ixold ixnew, check mem len0 len1 J (text ls0) (text ls1) = (J', ixold, ixnew) ∧
      (∀ k, 1 ≤ k → k ≤ len0 → J' k = kept ls0 ls1 J k) ∧
      (∀ k, k ≤ len0 → ixold k = off ls0 k) ∧ ∀ k, k ≤ len1 → ixnew k = off ls1 k := by
  have hrounds : ∀ i, i ≤ len0 → Checked ls0 ls1 J i (((List.range i).map (· + 1)).foldl checkline
      ⟨J, update mem.ixold 0 0, 0, text ls0,
        ⟨1, update mem.ixnew 0 0, 0, text ls1⟩⟩) := by
    intro i
    induction i with
    | zero =>
      intro _
      refine ⟨rfl, rfl, fun k hk => ?_, ⟨le_rfl, Nat.le_add_left 1 _, rfl, rfl, fun k hk => ?_⟩,
        fun k hk hk0 => by lia, fun k _ => rfl, Or.inl rfl⟩
      · obtain rfl : k = 0 := by lia
        exact update_self 0 0 mem.ixold
      · obtain rfl : k = 0 := by
          have : k < 1 := hk
          lia
        exact update_self 0 0 mem.ixnew
    | succ i ih =>
      intro hi
      rw [range_succ, map_append, foldl_append]
      exact checkline_spec hl0 hl1 h0 h1 hJ hi (ih (by lia))
  have h := hrounds len0 le_rfl
  unfold check
  simp only
  generalize ((List.range len0).map (· + 1)).foldl checkline _ = s at h
  have hle : s.new.j ≤ len1 + 1 := by
    rcases h.last with hj | ⟨k, hk, hki, -, hj⟩
    · lia
    · have := hJ.le k hk hki
      lia
  obtain ⟨hnew, hj⟩ := skipto_spec hl1 (len1 + 1 - s.new.j) s.new h.new (by lia)
  refine ⟨_, _, _, rfl, h.done, h.ixold, fun k hk => hnew.ixnew k (by rw [hj]; lia)⟩

/-! ## fetch -/

/-- A line is fetched from where the one before it ends. -/
theorem fetchline_eq (h : ls[k]? = some l) (hn : 10 ∉ l) (h0 : 0 ∉ l) :
    fetchline ((text ls).drop (off ls k)) = l := by
  rw [drop_off, text_drop h]
  unfold fetchline
  have hall : ∀ c ∈ l, (decide (c ≠ 0 ∧ c ≠ 10)) = true := by
    intro c hc
    rw [decide_eq_true_iff]
    exact ⟨fun he => h0 (he ▸ hc), fun he => hn (he ▸ hc)⟩
  rw [takeWhile_append_of_pos hall, takeWhile_cons_of_neg (by simp), append_nil]

/-- **`fetch`** copies the lines from `a` to `b`. -/
theorem fetch_eq {ix : ℕ → ℕ} {a b : ℕ} (hn : Lines ls) (h0 : ∀ l ∈ ls, 0 ∉ l) (ha : 1 ≤ a)
    (hb : b ≤ ls.length) (hix : ∀ k, k ≤ b → ix k = off ls k) :
    fetch ix a b (text ls) = (ls.drop (a - 1)).take (b - (a - 1)) := by
  have hlen : b + 1 - a = b - (a - 1) := by lia
  unfold fetch
  rw [hlen]
  refine ext_getElem ?_ fun i hi hi' => ?_
  · rw [length_map, length_range, length_take, length_drop]
    lia
  · rw [length_map, length_range] at hi
    have hlt : a - 1 + i < ls.length := by lia
    rw [getElem_map, getElem_range, getElem_take, getElem_drop,
      show a + i - 1 = a - 1 + i by lia, hix _ (by lia)]
    have hmem := getElem_mem hlt
    exact fetchline_eq (List.getElem?_eq_getElem hlt) (hn _ hmem) (h0 _ hmem)

end Diff
