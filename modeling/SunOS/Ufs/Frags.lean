/-
# Fragments of a block: `fragacct`, `fragtbl` and `mapsearch`

The fragment patterns `around` and `inside` pick out the maximal free runs of a
block.  `fragacct` therefore adds `cnt` for every maximal run of each size below a
whole block, and what `mapsearch` finds is a maximal run of exactly the size it was
asked for.
-/
import SunOS.Ufs.Bits

namespace Ufs

open Finset

variable {fs : Ufs.fs} {map : ℕ → BitVec 8} {cgp cgp' : cg} {m k p b : ℕ}

/-! ## The patterns -/

theorem around_eq (hk : k ≤ 8) : around k = 2 ^ (k + 2) - 1 := by
  interval_cases k <;> rfl

theorem inside_eq (hk : k ≤ 8) : inside k = (2 ^ k - 1) <<< 1 := by
  interval_cases k <;> rfl

theorem testBit_around (hk : k ≤ 8) (p i : ℕ) :
    (around k <<< p).testBit i = decide (p ≤ i ∧ i < p + k + 2) := by
  rw [around_eq hk, Nat.testBit_shiftLeft, Nat.testBit_two_pow_sub_one, ← Bool.decide_and,
    decide_eq_decide]
  omega

theorem testBit_inside (hk : k ≤ 8) (p i : ℕ) :
    (inside k <<< p).testBit i = decide (p + 1 ≤ i ∧ i < p + k + 1) := by
  rw [inside_eq hk, Nat.testBit_shiftLeft, Nat.testBit_shiftLeft, Nat.testBit_two_pow_sub_one,
    ← Bool.decide_and, ← Bool.decide_and, decide_eq_decide]
  omega

/-- **The patterns find maximal runs**: `(map & around) == inside`, both shifted to
position `p`, says that a maximal run of `k` free fragments starts there. -/
theorem pattern_iff {n : ℕ} (hk : k ≤ 8) (hk0 : 0 < k) (hp : p + k ≤ n) (hm : m < 2 ^ n) :
    (m <<< 1 &&& around k <<< p = inside k <<< p) ↔ IsRun (fun j => m.testBit j) n p k := by
  have hbit : ∀ i, (m <<< 1 &&& around k <<< p).testBit i =
      (decide (1 ≤ i ∧ p ≤ i ∧ i < p + k + 2) && m.testBit (i - 1)) := by
    intro i
    rw [Nat.testBit_and, Nat.testBit_shiftLeft, testBit_around hk]
    by_cases h1 : 1 ≤ i <;> by_cases h2 : p ≤ i ∧ i < p + k + 2 <;> simp [h1, h2]
  constructor
  · intro heq
    have hall : ∀ i, (decide (1 ≤ i ∧ p ≤ i ∧ i < p + k + 2) && m.testBit (i - 1)) =
        decide (p + 1 ≤ i ∧ i < p + k + 1) := by
      intro i
      rw [← hbit, heq, testBit_inside hk]
    refine ⟨hk0, hp, fun j hj => ?_, ?_, ?_⟩
    · have := hall (p + 1 + j)
      rw [decide_eq_true (by lia), decide_eq_true (by lia), Bool.true_and] at this
      rwa [show p + 1 + j - 1 = p + j by lia] at this
    · by_cases hp0 : p = 0
      · exact .inl hp0
      · have := hall p
        rw [decide_eq_true (by lia), decide_eq_false (by lia), Bool.true_and] at this
        exact .inr this
    · have := hall (p + k + 1)
      rw [decide_eq_true (by lia), decide_eq_false (by lia), Bool.true_and] at this
      exact .inr this
  · rintro ⟨-, -, hb, hl, hr⟩
    apply Nat.eq_of_testBit_eq
    intro i
    rw [hbit, testBit_inside hk]
    by_cases hin : p + 1 ≤ i ∧ i < p + k + 1
    · have hbi : m.testBit (p + (i - 1 - p)) = true := hb (i - 1 - p) (by lia)
      rw [show p + (i - 1 - p) = i - 1 by lia] at hbi
      rw [decide_eq_true hin, hbi, decide_eq_true (by lia)]
      rfl
    · rw [decide_eq_false hin]
      by_cases hc : 1 ≤ i ∧ p ≤ i ∧ i < p + k + 2
      · have hz : m.testBit (i - 1) = false := by
          by_cases hip : i = p
          · subst hip
            exact hl.resolve_left (by lia)
          · have hi : i - 1 = p + k := by lia
            rw [hi]
            rcases hr with h | h
            · rw [h]
              exact Nat.testBit_lt_two_pow hm
            · exact h
        rw [hz, Bool.and_false]
      · rw [decide_eq_false hc, Bool.false_and]

/-! ## `fragacct` -/

/-- The loop counts the maximal runs from its position on. -/
theorem fragacctPos_eq {frag : ℕ} (hk : 0 < k) (hk8 : k ≤ 8) (hm : m < 2 ^ frag) (n p : ℕ)
    (hn : frag + 1 ≤ p + k + n) :
    fragacctPos frag (m <<< 1) k n (p + k) (around k <<< p) (inside k <<< p) =
      ((Finset.range frag).filter fun q => p ≤ q ∧ IsRun (fun j => m.testBit j) frag q k).card := by
  have hend : frag < p + k → ((Finset.range frag).filter fun q =>
      p ≤ q ∧ IsRun (fun j => m.testBit j) frag q k) = ∅ := by
    intro hlt
    refine filter_false_of_mem fun q _ hq => ?_
    have := hq.2.2.1
    lia
  induction n generalizing p with
  | zero =>
    rw [hend (by lia)]
    rfl
  | succ n ih =>
    unfold fragacctPos
    by_cases hpos : p + k ≤ frag
    · rw [if_pos hpos]
      by_cases hrun : IsRun (fun j => m.testBit j) frag p k
      · rw [if_pos ((pattern_iff hk8 hk hpos hm).mpr hrun), ← Nat.shiftLeft_add,
          ← Nat.shiftLeft_add, ← Nat.shiftLeft_add, ← Nat.shiftLeft_add, ← Nat.add_assoc,
          show p + k + k + 1 = p + k + 1 + k by lia, ih (p + k + 1) (by lia) fun hlt =>
            filter_false_of_mem fun q _ hq => by have := hq.2.2.1; lia]
        -- the next run starts past the bit that ends this one
        have hsplit : ((Finset.range frag).filter fun q =>
            p ≤ q ∧ IsRun (fun j => m.testBit j) frag q k) =
            insert p ((Finset.range frag).filter fun q =>
              p + k + 1 ≤ q ∧ IsRun (fun j => m.testBit j) frag q k) := by
          ext q
          rw [mem_insert, mem_filter, mem_filter, mem_range]
          constructor
          · rintro ⟨hq, hle, hr⟩
            by_cases hqp : q = p
            · exact .inl hqp
            · refine .inr ⟨hq, ?_, hr⟩
              by_contra hlt
              by_cases hin : q < p + k
              · exact hqp (hrun.unique hr ⟨hle, hin⟩ ⟨le_refl q, by lia⟩).1.symm
              · have hqe : q = p + k := by lia
                have hb := hr.2.2.1 0 hk
                rcases hrun.2.2.2.2 with he | he
                · lia
                · rw [hqe, Nat.add_zero, he] at hb
                  cases hb
          · rintro (rfl | ⟨hq, hle, hr⟩)
            · exact ⟨by lia, le_refl q, hrun⟩
            · exact ⟨hq, by lia, hr⟩
        rw [hsplit, card_insert_of_notMem]
        simp only [mem_filter, not_and]
        intro _ hle
        lia
      · rw [if_neg (fun he => hrun ((pattern_iff hk8 hk hpos hm).mp he)),
          ← Nat.shiftLeft_add, ← Nat.shiftLeft_add, show p + k + 1 = p + 1 + k by lia,
          ih (p + 1) (by lia) fun hlt =>
            filter_false_of_mem fun q _ hq => by have := hq.2.2.1; lia]
        congr 1
        refine filter_congr fun q _ => ⟨fun ⟨hle, hr⟩ => ⟨by lia, hr⟩,
          fun ⟨hle, hr⟩ => ⟨?_, hr⟩⟩
        have hne : q ≠ p := fun he => hrun (he ▸ hr)
        lia
    · rw [if_neg hpos, hend (by lia)]
      rfl

/-- One entry of a table rules out only sizes that the loop does not find. -/
def rulesOut (frag : ℕ) (e : ℕ × ℕ) : Bool :=
  (List.range frag).all fun siz =>
    (e.1 <<< 1) &&& (1 <<< (siz + frag % NBBY)) != 0 || siz == 0 || Nat.ble (2 ^ frag) e.2 ||
      fragacctPos frag (e.2 <<< 1) siz (frag + 1) siz (around siz) (inside siz) == 0

theorem rulesOut_of_mem (frag) (hfrag : frag ∈ [1, 2, 4, 8]) :
    (fragtbl frag).zipIdx.all (rulesOut frag) = true := by
  simp only [List.mem_cons, List.not_mem_nil, or_false] at hfrag
  -- one evaluation for each table keeps each of them small
  rcases hfrag with rfl | rfl | rfl | rfl
  all_goals decide +kernel

/-- The tables rule out only sizes that the loop does not find. -/
theorem fragtbl_zipIdx (frag) (hfrag : frag ∈ [1, 2, 4, 8]) (e) (he : e ∈ (fragtbl frag).zipIdx)
    (hlt : e.2 < 2 ^ frag) (siz) (hsiz : siz < frag)
    (hbit : (e.1 <<< 1) &&& (1 <<< (siz + frag % NBBY)) = 0) (hpos : 1 ≤ siz) :
    fragacctPos frag (e.2 <<< 1) siz (frag + 1) siz (around siz) (inside siz) = 0 := by
  have hcheck := List.all_eq_true.mp (List.all_eq_true.mp (rulesOut_of_mem frag hfrag) _ he) _
    (List.mem_range.mpr hsiz)
  simp only [Bool.or_eq_true, bne_iff_ne, beq_iff_eq, Nat.ble_eq] at hcheck
  rcases hcheck with ((hne | hzero) | hge) | heq
  · exact absurd hbit hne
  · omega
  · omega
  · exact heq

theorem fragtbl_rules_out (fs : Ufs.fs) (hm : m < 2 ^ fs.fs_frag) (hk : 1 ≤ k)
    (hkf : k < fs.fs_frag)
    (h : ((fragtbl fs.fs_frag).getD m 0 <<< 1) &&& (1 <<< (k + fs.fs_frag % NBBY)) = 0) :
    fragacctPos fs.fs_frag (m <<< 1) k (fs.fs_frag + 1) k (around k) (inside k) = 0 := by
  have hmem : fs.fs_frag ∈ [1, 2, 4, 8] := by
    rcases fs.frag_mem with hf | hf | hf | hf
    all_goals simp [hf]
  have hlen : m < (fragtbl fs.fs_frag).length := by
    refine lt_of_lt_of_le hm ?_
    rcases fs.frag_mem with hf | hf | hf | hf
    all_goals
      rw [hf]
      decide +kernel
  rw [List.getD_eq_getElem _ _ hlen] at h
  exact fragtbl_zipIdx _ hmem _ (List.mk_mem_zipIdx_iff_getElem?.mpr
    (List.getElem?_eq_getElem hlen)) hm k hkf h hk

/-- `fragacct` counts the maximal runs of each size. -/
theorem fragacctSiz_eq (fs : Ufs.fs) (hm : m < 2 ^ fs.fs_frag) (hk : 1 ≤ k)
    (hkf : k < fs.fs_frag) :
    fragacctSiz fs.fs_frag m k = runs (fun j => m.testBit j) fs.fs_frag k := by
  have hle := fs.frag_le
  have hloop := fragacctPos_eq (p := 0) hk (by omega) hm (fs.fs_frag + 1) (by omega)
  simp only [Nat.zero_add, Nat.shiftLeft_zero, Nat.zero_le, true_and] at hloop
  unfold fragacctSiz runs
  by_cases htbl : ((fragtbl fs.fs_frag).getD m 0 <<< 1) &&& (1 <<< (k + fs.fs_frag % NBBY)) = 0
  · rw [if_pos htbl, ← hloop]
    exact (fragtbl_rules_out fs hm hk hkf htbl).symm
  · rw [if_neg htbl, hloop]

theorem foldl_update (c : ℕ → ℤ) (l : List ℕ) (hl : l.Nodup) (f : ℕ → ℤ) (k : ℕ) :
    l.foldl (fun f i => Function.update f i (f i + c i)) f k =
      f k + if k ∈ l then c k else 0 := by
  induction l generalizing f with
  | nil => simp
  | cons i l ih =>
    obtain ⟨hi, hl⟩ := List.nodup_cons.mp hl
    rw [List.foldl_cons, ih hl]
    by_cases hki : k = i
    · subst hki
      rw [Function.update_self, if_neg hi, if_pos (by simp)]
      ring
    · rw [Function.update_of_ne hki]
      simp [hki]

/-- **`fragacct` adds `cnt` for every maximal run** of a size below a whole block,
and leaves the other entries alone. -/
theorem fragacct_apply (fs : Ufs.fs) (map : ℕ → BitVec 8) (h : ℕ) (frsum : ℕ → ℤ) (cnt : ℤ)
    (k : ℕ) :
    fragacct fs (blkmap fs map (h * fs.fs_frag)) frsum cnt k =
      frsum k + if 1 ≤ k ∧ k < fs.fs_frag then
        cnt * runs (window fs.fs_frag (isset map) h) fs.fs_frag k else 0 := by
  unfold fragacct
  rw [foldl_update _ _ List.nodup_range']
  have hmem : k ∈ List.range' 1 (fs.fs_frag - 1) ↔ 1 ≤ k ∧ k < fs.fs_frag := by
    rw [List.mem_range'_1]
    omega
  rw [if_congr hmem rfl rfl]
  by_cases hk : 1 ≤ k ∧ k < fs.fs_frag
  · rw [if_pos hk, if_pos hk, fragacctSiz_eq fs (blkmap_lt fs map _) hk.1 hk.2]
    congr 3
    apply runs_congr
    intro j hj
    rw [testBit_blkmap]
    simp [hj]
  · rw [if_neg hk, if_neg hk]

/-! ## `mapsearch` -/

theorem mapsearchPos_spec {blk n : ℕ} (pos : ℕ)
    (h : mapsearchPos blk n pos (around k <<< pos) (inside k <<< pos) = some p) :
    p < pos + n ∧ blk &&& around k <<< p = inside k <<< p := by
  induction n generalizing pos with
  | zero => simp [mapsearchPos] at h
  | succ n ih =>
    unfold mapsearchPos at h
    by_cases he : blk &&& around k <<< pos = inside k <<< pos
    · rw [if_pos he] at h
      cases h
      exact ⟨by omega, he⟩
    · rw [if_neg he, ← Nat.shiftLeft_add, ← Nat.shiftLeft_add] at h
      obtain ⟨h1, h2⟩ := ih (pos + 1) h
      exact ⟨by omega, h2⟩

/-- What the loop over the blocks of a byte finds is a maximal run of its block. -/
theorem mapsearchBlk_spec {n c : ℕ} (hk : 0 < k) (hkf : k ≤ fs.fs_frag)
    (h : mapsearchBlk fs map k n (c * fs.fs_frag) = some b) :
    IsRun (window fs.fs_frag (isset map) (b / fs.fs_frag)) fs.fs_frag (b % fs.fs_frag) k := by
  induction n generalizing c with
  | zero => simp [mapsearchBlk] at h
  | succ n ih =>
    unfold mapsearchBlk at h
    cases hp : mapsearchPos (blkmap fs map (c * fs.fs_frag) <<< 1) (fs.fs_frag - k + 1) 0
        (around k) (inside k) with
    | none =>
      rw [hp] at h
      rw [← Nat.succ_mul] at h
      exact ih h
    | some pos =>
      rw [hp] at h
      simp only [Option.some.injEq] at h
      obtain ⟨hlt, hpat⟩ := mapsearchPos_spec 0 hp
      have hle := fs.frag_le
      have hrun := (pattern_iff (by lia) hk (by lia) (blkmap_lt fs map _)).mp hpat
      have hpos : pos < fs.fs_frag := by lia
      have hdiv : b / fs.fs_frag = c := (div_frag_iff fs c b).mpr ⟨by lia, by lia⟩
      have hmod : b % fs.fs_frag = pos := by
        rw [← h, Nat.mul_comm, Nat.mul_add_mod, Nat.mod_eq_of_lt hpos]
      rw [hdiv, hmod]
      refine (isRun_congr fun j hj => ?_).mp hrun
      rw [testBit_blkmap]
      simp [hj]

/-- The rotors of a group are positions in its map. -/
structure Rotors (fs : Ufs.fs) (cgp : cg) : Prop where
  rotor : cgp.cg_rotor < fs.fs_fpg
  frotor : cgp.cg_frotor / NBBY < howmany fs.fs_fpg NBBY

theorem dtogd_div_lt (fs : Ufs.fs) (d : ℕ) : dtogd fs d / NBBY < howmany fs.fs_fpg NBBY := by
  have := Nat.mod_lt d fs.fpg_pos
  unfold dtogd howmany NBBY
  omega

/-- **`mapsearch` finds a maximal run of exactly the size asked for**; it changes
nothing but the fragment rotor. -/
theorem mapsearch_spec {bpref : ℕ} (hr : Rotors fs cgp) (hk : 0 < k) (hkf : k ≤ fs.fs_frag)
    (h : mapsearch fs cgp bpref k = some (b, cgp')) :
    IsRun (window fs.fs_frag (isset cgp.cg_free) (b / fs.fs_frag)) fs.fs_frag
        (b % fs.fs_frag) k ∧
      ∃ frotor, frotor / NBBY < howmany fs.fs_fpg NBBY ∧
        cgp' = { cgp with cg_frotor := frotor } := by
  unfold mapsearch at h
  simp only at h
  set start := if bpref ≠ 0 then dtogd fs bpref / NBBY else cgp.cg_frotor / NBBY with hstart
  have hlt : start < howmany fs.fs_fpg NBBY := by
    by_cases hb : bpref ≠ 0
    · rw [hstart, if_pos hb]
      exact dtogd_div_lt fs bpref
    · rw [hstart, if_neg hb]
      exact hr.frotor
  generalize hmask : 1 <<< (k - 1 + fs.fs_frag % NBBY) = mask at h
  -- the byte that was found lies in the map
  have hfound : ∀ bno, (if scanc cgp.cg_free (fragtbl fs.fs_frag) mask
        (howmany fs.fs_fpg NBBY - start) start ≠ 0 then
      some ((start + (howmany fs.fs_fpg NBBY - start) - scanc cgp.cg_free (fragtbl fs.fs_frag)
        mask (howmany fs.fs_fpg NBBY - start) start) * NBBY)
      else if scanc cgp.cg_free (fragtbl fs.fs_frag) mask (start + 1) 0 ≠ 0 then
        some ((start + 1 - scanc cgp.cg_free (fragtbl fs.fs_frag) mask (start + 1) 0) * NBBY)
      else none) = some bno →
      ∃ byte, byte < howmany fs.fs_fpg NBBY ∧ bno = byte * NBBY := by
    intro bno hb
    split_ifs at hb with hc hc'
    · cases hb
      exact ⟨_, by lia, rfl⟩
    · cases hb
      exact ⟨_, by lia, rfl⟩
  revert h
  generalize (if scanc cgp.cg_free (fragtbl fs.fs_frag) mask
        (howmany fs.fs_fpg NBBY - start) start ≠ 0 then
      some ((start + (howmany fs.fs_fpg NBBY - start) - scanc cgp.cg_free (fragtbl fs.fs_frag)
        mask (howmany fs.fs_fpg NBBY - start) start) * NBBY)
      else if scanc cgp.cg_free (fragtbl fs.fs_frag) mask (start + 1) 0 ≠ 0 then
        some ((start + 1 - scanc cgp.cg_free (fragtbl fs.fs_frag) mask (start + 1) 0) * NBBY)
      else none) = found at hfound
  intro h
  cases hf : found with
  | none => simp [hf] at h
  | some bno =>
    obtain ⟨byte, hbyte, rfl⟩ := hfound bno hf
    rw [hf] at h
    simp only at h
    cases hs : mapsearchBlk fs cgp.cg_free k (NBBY / fs.fs_frag) (byte * NBBY) with
    | none => simp [hs] at h
    | some b' =>
      rw [hs] at h
      simp only [Option.some.injEq] at h
      obtain ⟨rfl, rfl⟩ := Prod.mk.inj h
      have hmul : byte * NBBY = byte * (NBBY / fs.fs_frag) * fs.fs_frag := by
        rw [Nat.mul_assoc]
        congr 1
        unfold NBBY
        rcases fs.frag_mem with hf | hf | hf | hf <;> rw [hf]
      rw [hmul] at hs
      refine ⟨mapsearchBlk_spec hk hkf hs, byte * NBBY, ?_, rfl⟩
      unfold NBBY at hbyte ⊢
      lia

end Ufs
