/-
# The searches of a cylinder group find what its counters count

A counter that is not zero says that some block of the group has a run of its size.  `mapsearch`
goes over the bytes of the map, from the rotor to the end and then from the start to the rotor; the
table of a byte has the bit of a size exactly when one of the blocks in the byte has such a run
(`fragtbl_iff`), so the scan stops, and the sift through the byte finds the run.  `ialloccg` goes
over the bytes of the inode map in the same way.
-/
import SunOS.Ufs.AllocErrors

namespace Ufs

open Option
open Finset

variable {fs : Ufs.fs} {cgp : cg} {s s' : State} {map : ℕ → BitVec 8} {table : List ℕ}
  {b c g h i k n p start size mask blk bpref : ℕ}

/-! ## Scanning bytes -/

/-- The number of the `size` places from `start` on that are left when those with `skip` are
skipped, the one found included. -/
def unskipped (skip : ℕ → Prop) [DecidablePred skip] : ℕ → ℕ → ℕ
  | 0, _ => 0
  | size + 1, start => if skip start then unskipped skip size (start + 1) else size + 1

section

variable (skip : ℕ → Prop) [DecidablePred skip]

/-- The scan stops at the first place that is not skipped. -/
theorem unskipped_spec (size start : ℕ) :
    (unskipped skip size start = 0 ∧ ∀ i < size, skip (start + i)) ∨
      (unskipped skip size start ≠ 0 ∧ ¬ skip (start + size - unskipped skip size start)) := by
  induction size generalizing start with
  | zero => exact Or.inl ⟨rfl, fun i hi => absurd hi (Nat.not_lt_zero i)⟩
  | succ size ih =>
    unfold unskipped
    by_cases h0 : skip start
    · rw [if_pos h0]
      rcases ih (start + 1) with ⟨hz, hall⟩ | ⟨hne, hfound⟩
      · refine Or.inl ⟨hz, fun i hi => ?_⟩
        cases i with
        | zero => exact h0
        | succ i =>
          rw [show start + (i + 1) = start + 1 + i by omega]
          exact hall i (by omega)
      · refine Or.inr ⟨hne, ?_⟩
        rwa [show start + (size + 1) = start + 1 + size by omega]
    · rw [if_neg h0, show start + (size + 1) - (size + 1) = start by omega]
      exact Or.inr ⟨Nat.succ_ne_zero size, h0⟩

/-- **The scan from `start` to the end, and then from the first place to `start`, misses none.** -/
theorem unskipped_wrap {len : ℕ} (hs : start < len) (hi : i < len) (hno : ¬ skip i) :
    (unskipped skip (len - start) start ≠ 0 ∧
      ¬ skip (start + (len - start) - unskipped skip (len - start) start)) ∨
    (unskipped skip (len - start) start = 0 ∧ unskipped skip (start + 1) 0 ≠ 0 ∧
      ¬ skip (start + 1 - unskipped skip (start + 1) 0)) := by
  rcases unskipped_spec skip (len - start) start with ⟨hz, hall⟩ | hfound
  · have hlt : i < start := by
      by_contra hge
      refine hno ?_
      have := hall (i - start) (by omega)
      rwa [show start + (i - start) = i by omega] at this
    rcases unskipped_spec skip (start + 1) 0 with ⟨-, hall'⟩ | hfound
    · refine absurd ?_ hno
      have := hall' i (by omega)
      rwa [Nat.zero_add] at this
    · rw [Nat.zero_add] at hfound
      exact Or.inr ⟨hz, hfound⟩
  · exact Or.inl hfound

end

theorem scanc_eq (cp : ℕ → BitVec 8) (table : List ℕ) (mask size start : ℕ) :
    scanc cp table mask size start =
      unskipped (fun i => table.getD (cp i).toNat 0 &&& mask = 0) size start := by
  induction size generalizing start with
  | zero => rfl
  | succ size ih =>
    unfold scanc unskipped
    rw [ih]

theorem skpc_eq (cp : ℕ → BitVec 8) (size start : ℕ) :
    skpc cp size start = unskipped (fun i => cp i = 0xff) size start := by
  induction size generalizing start with
  | zero => rfl
  | succ size ih =>
    unfold skpc unskipped
    rw [ih]

/-! ## Sifting through a byte -/

variable {bno : ℕ}

/-- The loop over the positions finds a pattern when there is one. -/
theorem mapsearchPos_isSome (pos : ℕ) (hp : pos ≤ p) (hpn : p < pos + n)
    (hpat : blk &&& around k <<< p = inside k <<< p) :
    (mapsearchPos blk n pos (around k <<< pos) (inside k <<< pos)).isSome = true := by
  induction n generalizing pos with
  | zero => omega
  | succ n ih =>
    unfold mapsearchPos
    by_cases he : blk &&& around k <<< pos = inside k <<< pos
    · rw [if_pos he]
      rfl
    · have hne : p ≠ pos := fun h => he (h ▸ hpat)
      rw [if_neg he, ← Nat.shiftLeft_add, ← Nat.shiftLeft_add]
      exact ih (pos + 1) (by omega) (by omega)

/-- The blocks of a byte are looked at in turn. -/
theorem mapsearchBlk_isSome (hc : c < n)
    (hpos : (mapsearchPos (blkmap fs map (bno + c * fs.fs_frag) <<< 1) (fs.fs_frag - k + 1) 0
      (around k) (inside k)).isSome = true) : (mapsearchBlk fs map k n bno).isSome = true := by
  induction n generalizing c bno with
  | zero => omega
  | succ n ih =>
    unfold mapsearchBlk
    cases hp : mapsearchPos (blkmap fs map bno <<< 1) (fs.fs_frag - k + 1) 0 (around k)
        (inside k) with
    | some pos => rfl
    | none =>
      cases c with
      | zero => simp [hp] at hpos
      | succ c =>
        refine ih (c := c) (by omega) ?_
        rwa [show bno + fs.fs_frag + c * fs.fs_frag = bno + (c + 1) * fs.fs_frag by
          rw [Nat.succ_mul]; omega]

/-- The bits of block `c` of a byte. -/
def blockOf (frag byte c : ℕ) : ℕ := (byte >>> (c * frag)) &&& (0xff >>> (NBBY - frag))

/-- One entry of a table is right for every size. -/
def entryRight (frag : ℕ) (e : ℕ × ℕ) : Bool :=
  (List.range frag).all fun siz => (e.1 &&& 1 <<< (siz + frag % NBBY) != 0) ==
    (List.range (NBBY / frag)).any fun c =>
      (mapsearchPos (blockOf frag e.2 c <<< 1) (frag - (siz + 1) + 1) 0 (around (siz + 1))
        (inside (siz + 1))).isSome

theorem entryRight_of_mem (frag) (hfrag : frag ∈ [1, 2, 4, 8]) :
    (fragtbl frag).zipIdx.all (entryRight frag) = true := by
  simp only [List.mem_cons, List.not_mem_nil, or_false] at hfrag
  -- one evaluation for each table keeps each of them small
  rcases hfrag with rfl | rfl | rfl | rfl
  all_goals decide +kernel

/-- **The tables are right**: the bit of a size is set exactly when one of the blocks in the byte
has a run of that size. -/
theorem fragtbl_iff_zipIdx (frag) (hfrag : frag ∈ [1, 2, 4, 8]) (e) (he : e ∈ (fragtbl frag).zipIdx)
    (siz) (hsiz : siz < frag) :
    e.1 &&& 1 <<< (siz + frag % NBBY) ≠ 0 ↔ ∃ c < NBBY / frag,
      (mapsearchPos (blockOf frag e.2 c <<< 1) (frag - (siz + 1) + 1) 0 (around (siz + 1))
        (inside (siz + 1))).isSome = true := by
  have hcheck := List.all_eq_true.mp (List.all_eq_true.mp (entryRight_of_mem frag hfrag) _ he) _
    (List.mem_range.mpr hsiz)
  rw [beq_iff_eq, Bool.eq_iff_iff, bne_iff_ne, List.any_eq_true] at hcheck
  simpa only [List.mem_range] using hcheck

theorem fragtbl_iff (fs : Ufs.fs) (byte : BitVec 8) (hk : 0 < k) (hkf : k ≤ fs.fs_frag) :
    (fragtbl fs.fs_frag).getD byte.toNat 0 &&& 1 <<< (k - 1 + fs.fs_frag % NBBY) ≠ 0 ↔
      ∃ c < NBBY / fs.fs_frag,
        (mapsearchPos (blockOf fs.fs_frag byte.toNat c <<< 1) (fs.fs_frag - k + 1) 0 (around k)
          (inside k)).isSome = true := by
  have hmem : fs.fs_frag ∈ [1, 2, 4, 8] := by
    rcases fs.frag_mem with hf | hf | hf | hf
    all_goals simp [hf]
  have hlen : byte.toNat < (fragtbl fs.fs_frag).length := by
    refine lt_of_lt_of_le byte.isLt ?_
    rcases fs.frag_mem with hf | hf | hf | hf
    all_goals
      rw [hf]
      decide +kernel
  have htbl := fragtbl_iff_zipIdx _ hmem _ (List.mk_mem_zipIdx_iff_getElem?.mpr
    (List.getElem?_eq_getElem hlen)) (k - 1) (by omega)
  rw [show k - 1 + 1 = k by omega] at htbl
  rwa [List.getD_eq_getElem _ _ hlen]

/-- A byte holds whole blocks. -/
theorem blkmap_byte (fs : Ufs.fs) (map : ℕ → BitVec 8) (byte : ℕ) (hc : c < NBBY / fs.fs_frag) :
    blkmap fs map (byte * NBBY + c * fs.fs_frag) = blockOf fs.fs_frag (map byte).toNat c := by
  have hlt : c * fs.fs_frag < 8 := by
    unfold NBBY at hc
    rcases fs.frag_mem with hf | hf | hf | hf <;> rw [hf] at hc ⊢ <;> lia
  unfold blkmap blockOf NBBY
  rw [show (byte * 8 + c * fs.fs_frag) / 8 = byte by lia,
    show (byte * 8 + c * fs.fs_frag) % 8 = c * fs.fs_frag by lia]

/-- The run that the table promises is in the byte. -/
theorem mapsearchBlk_of_fragtbl {byte : ℕ} (hk : 0 < k) (hkf : k ≤ fs.fs_frag)
    (hbit : (fragtbl fs.fs_frag).getD (map byte).toNat 0 &&&
      1 <<< (k - 1 + fs.fs_frag % NBBY) ≠ 0) :
    (mapsearchBlk fs map k (NBBY / fs.fs_frag) (byte * NBBY)).isSome = true := by
  obtain ⟨c, hc, hpos⟩ := (fragtbl_iff fs (map byte) hk hkf).mp hbit
  refine mapsearchBlk_isSome hc ?_
  rwa [blkmap_byte fs map byte hc]

/-- The table of the byte of a block promises its runs. -/
theorem fragtbl_of_isRun (hrun : IsRun (window fs.fs_frag (isset map) h) fs.fs_frag p k) :
    (fragtbl fs.fs_frag).getD (map (h * fs.fs_frag / NBBY)).toNat 0 &&&
      1 <<< (k - 1 + fs.fs_frag % NBBY) ≠ 0 := by
  have hle := fs.frag_le
  have hk := hrun.1
  have hpk := hrun.2.1
  have hc : h * fs.fs_frag % NBBY / fs.fs_frag < NBBY / fs.fs_frag := by
    unfold NBBY
    rcases fs.frag_mem with hf | hf | hf | hf <;> rw [hf] <;> lia
  have hloc : h * fs.fs_frag / NBBY * NBBY + h * fs.fs_frag % NBBY / fs.fs_frag * fs.fs_frag =
      h * fs.fs_frag := by
    unfold NBBY
    rcases fs.frag_mem with hf | hf | hf | hf <;> rw [hf] <;> lia
  refine (fragtbl_iff fs _ hk (by lia)).mpr ⟨_, hc, ?_⟩
  rw [← blkmap_byte fs map _ hc, hloc]
  refine mapsearchPos_isSome (p := p) 0 (Nat.zero_le p) (by lia) ?_
  refine (pattern_iff (by lia) hk hpk (blkmap_lt fs map _)).mpr
    ((isRun_congr fun j hj => ?_).mpr hrun)
  rw [testBit_blkmap]
  simp [hj]

/-! ## Runs that are counted -/

/-- The counters of a group show a piece of `k` fragments. -/
def Available (fs : Ufs.fs) (cgp : cg) (k : ℕ) : Prop :=
  1 ≤ k ∧ k < fs.fs_frag ∧ cgp.cg_frsum k ≠ 0 ∨ k = fs.fs_frag ∧ cgp.cg_cs.cs_nbfree ≠ 0

/-- **What is counted is there.** -/
theorem Counted.exists_isRun (hc : Counted fs cgp) (ha : Available fs cgp k) :
    ∃ h < nblk fs, ∃ p, IsRun (window fs.fs_frag (isset cgp.cg_free) h) fs.fs_frag p k := by
  rcases ha with ⟨hk, hkf, hsum⟩ | ⟨rfl, hsum⟩
  · rw [hc.frsum k hk hkf, freeRuns, sumBlocks] at hsum
    obtain ⟨h, hh, hne⟩ := exists_ne_zero_of_sum_ne_zero hsum
    rw [runsIn_eq hkf, Nat.cast_ne_zero, runs, ← Nat.pos_iff_ne_zero, card_pos] at hne
    obtain ⟨p, hp⟩ := hne
    exact ⟨h, mem_range.mp hh, p, (mem_filter.mp hp).2⟩
  · rw [hc.nbfree, freeBlocks, sumBlocks] at hsum
    obtain ⟨h, hh, hne⟩ := exists_ne_zero_of_sum_ne_zero hsum
    have hfull : Full fs.fs_frag (window fs.fs_frag (isset cgp.cg_free) h) := by
      by_contra hno
      exact hne (if_neg hno)
    exact ⟨h, mem_range.mp hh, 0, isRun_full fs.frag_pos hfull⟩

/-- **`mapsearch` never panics** when the counters show what it looks for. -/
theorem mapsearch_isSome (hc : Counted fs cgp) (hr : Rotors fs cgp) (ha : Available fs cgp k)
    (bpref : ℕ) : (mapsearch fs cgp bpref k).isSome = true := by
  obtain ⟨h, hh, p, hrun⟩ := hc.exists_isRun ha
  have hk := hrun.1
  have hkf : k ≤ fs.fs_frag := le_trans (Nat.le_add_left k p) hrun.2.1
  have hbit := fragtbl_of_isRun hrun
  have hbyte : h * fs.fs_frag / NBBY < howmany fs.fs_fpg NBBY := by
    have hlt : h * fs.fs_frag < fs.fs_fpg := by
      rw [← nblk_mul fs]
      exact Nat.mul_lt_mul_of_pos_right hh fs.frag_pos
    unfold howmany NBBY
    omega
  unfold mapsearch
  simp only
  set start := if bpref ≠ 0 then dtogd fs bpref / NBBY else cgp.cg_frotor / NBBY with hstart
  have hlt : start < howmany fs.fs_fpg NBBY := by
    by_cases hb : bpref ≠ 0
    · rw [hstart, if_pos hb]
      exact dtogd_div_lt fs bpref
    · rw [hstart, if_neg hb]
      exact hr.frotor
  clear_value start
  rw [scanc_eq, scanc_eq]
  rcases unskipped_wrap (fun i => (fragtbl fs.fs_frag).getD (cgp.cg_free i).toNat 0 &&&
      1 <<< (k - 1 + fs.fs_frag % NBBY) = 0) hlt hbyte hbit with ⟨hloc, hfound⟩ | ⟨hloc,
        hloc', hfound⟩
  · have hblk := mapsearchBlk_of_fragtbl hk hkf hfound
    rw [if_pos hloc]
    obtain ⟨b, hb⟩ := Option.isSome_iff_exists.mp hblk
    simp only [hb, isSome_some]
  · have hblk := mapsearchBlk_of_fragtbl hk hkf hfound
    rw [if_neg (not_not_intro hloc), if_pos hloc']
    obtain ⟨b, hb⟩ := Option.isSome_iff_exists.mp hblk
    simp only [hb, isSome_some]

/-! ## Inodes -/

variable {byte : BitVec 8}

/-- The inodes of a group are counted, and the rotor is one of them. -/
structure Inodes (fs : Ufs.fs) (cgp : cg) : Prop where
  nifree : cgp.cg_cs.cs_nifree =
    ((range fs.fs_ipg).filter fun i => isset cgp.cg_iused i = false).card
  irotor : cgp.cg_irotor < fs.fs_ipg

/-- A byte with a clear bit is sifted. -/
theorem firstclr_isSome (hi : i ≤ b) (hb : b < i + n)
    (hclr : byte.getLsbD b = false) : (firstclr byte n i).isSome = true := by
  induction n generalizing i with
  | zero => omega
  | succ n ih =>
    unfold firstclr
    by_cases hs : byte.getLsbD i = true
    · have hne : i ≠ b := by
        rintro rfl
        rw [hclr] at hs
        cases hs
      rw [if_pos hs]
      exact ih (by omega) (by omega)
    · rw [if_neg hs]
      rfl

theorem firstclr_of_ne (hne : byte ≠ 0xff) : (firstclr byte NBBY 0).isSome = true := by
  by_contra hno
  refine hne (BitVec.eq_of_getLsbD_eq fun j hj => ?_)
  have hone : (0xff : BitVec 8).getLsbD j = true := by
    interval_cases j <;> rfl
  rw [hone]
  by_contra hclr
  exact hno (firstclr_isSome (b := j) (Nat.zero_le j) (by rw [NBBY]; omega) (by simpa using hclr))

/-- **The search of the inode map never panics** when an inode is free. -/
theorem isearch_isSome (hi : Inodes fs cgp) (hfree : cgp.cg_cs.cs_nifree ≠ 0) :
    (isearch fs cgp).isSome = true := by
  rw [hi.nifree, Nat.cast_ne_zero, ← Nat.pos_iff_ne_zero, card_pos] at hfree
  obtain ⟨i, hmem⟩ := hfree
  obtain ⟨hlt, hclr⟩ := mem_filter.mp hmem
  rw [mem_range] at hlt
  have hdvd := fs.ipg_dvd
  have hrotor := hi.irotor
  have hne : cgp.cg_iused (i / NBBY) ≠ 0xff := by
    intro he
    unfold isset at hclr
    rw [he] at hclr
    have hj : i % NBBY < 8 := by
      rw [NBBY]
      lia
    generalize i % NBBY = j at hclr hj
    interval_cases j <;> cases hclr
  have hlen : howmany (fs.fs_ipg - cgp.cg_irotor) NBBY = fs.fs_ipg / 8 - cgp.cg_irotor / NBBY := by
    unfold howmany NBBY
    lia
  unfold isearch
  simp only [hlen, skpc_eq]
  have hs : cgp.cg_irotor / NBBY < fs.fs_ipg / 8 := by
    rw [NBBY]
    lia
  have hb : i / NBBY < fs.fs_ipg / 8 := by
    rw [NBBY]
    lia
  rcases unskipped_wrap (fun i => cgp.cg_iused i = 0xff) hs hb hne with ⟨hloc, hfound⟩ | ⟨hloc,
    hloc', hfound⟩
  · obtain ⟨b, hb⟩ := Option.isSome_iff_exists.mp (firstclr_of_ne hfound)
    rw [if_pos hloc]
    simp only [hb, isSome_some]
  · obtain ⟨b, hb⟩ := Option.isSome_iff_exists.mp (firstclr_of_ne hfound)
    rw [if_neg (not_not_intro hloc), if_pos hloc']
    simp only [hb, isSome_some]

/-- **`ialloccg` marks an inode that was clear** when its group has one. -/
theorem ialloccg_of_nifree {mode ipref : ℕ} (hi : Inodes fs cgp) (hread : breadcg s g = some cgp)
    (hs : (s.fs_cs g).cs_nifree ≠ 0) (hfree : cgp.cg_cs.cs_nifree ≠ 0) :
    ∃ i s', ialloccg fs g ipref mode s = some (g * fs.fs_ipg + i, s') ∧ i < fs.fs_ipg ∧
      isset cgp.cg_iused i = false ∧
      isset (s'.cgs g).cg_iused = isset (setbit cgp.cg_iused i) := by
  obtain rfl := breadcg_eq hread
  have hsome : (ialloccg fs g ipref mode s).isSome = true := by
    obtain ⟨i, hsearch⟩ := Option.isSome_iff_exists.mp (isearch_isSome hi hfree)
    unfold ialloccg
    rw [if_neg hs, hread]
    simp only [if_neg hfree, hsearch]
    split_ifs
    · rfl
    · rfl
  obtain ⟨⟨r, s'⟩, hrun⟩ := Option.isSome_iff_exists.mp hsome
  rcases ialloccg_spec hi.irotor hrun with ⟨hno | hno | hno, -⟩ | ⟨-, -, i, hlt, rfl, hclr, hwrote⟩
  · exact absurd hno hs
  · rw [hread] at hno
    cases hno
  · exact absurd hno hfree
  · exact ⟨i, s', hrun, hlt, hclr, hwrote.used⟩

/-! ## What is handed out -/

/-- The `k` fragments from `q` on lie in one block of the group, and are free. -/
def FreePiece (fs : Ufs.fs) (cgp : cg) (q k : ℕ) : Prop :=
  Piece fs q k ∧ ∀ j < k, isset cgp.cg_free (q + j) = true

theorem freePiece_of_isblock (hb : isblock fs cgp.cg_free h = true) (hk : 0 < k)
    (hkf : k ≤ fs.fs_frag) : FreePiece fs cgp (h * fs.fs_frag) k := by
  have hpiece := piece_block (p := 0) fs h hk (by omega)
  refine ⟨hpiece, fun j hj => ?_⟩
  exact (isblock_iff_window fs _ _).mp hb j (by omega)

theorem freePiece_of_isRun {r : ℕ}
    (hrun : IsRun (window fs.fs_frag (isset cgp.cg_free) (b / fs.fs_frag)) fs.fs_frag
      (b % fs.fs_frag) r) (hk : 0 < k) (hkr : k ≤ r) : FreePiece fs cgp b k := by
  have hdiv : b / fs.fs_frag * fs.fs_frag + b % fs.fs_frag = b := by
    rw [Nat.mul_comm]
    exact Nat.div_add_mod b fs.fs_frag
  have hr := hrun.2.1
  refine ⟨⟨hk, by omega⟩, fun j hj => ?_⟩
  have hset := hrun.2.2.1 j (by omega)
  unfold window at hset
  rwa [← Nat.add_assoc, hdiv] at hset

/-- A block that is handed out is free, and so is the head of it that is kept. -/
theorem alloccgblk_free {cgp' : cg} (hc : Counted fs cgp) (hr : Rotors fs cgp)
    (hcgx : cgp.cg_cgx = g) (hk : 0 < k) (hkf : k ≤ fs.fs_frag)
    (h : alloccgblk fs s cgp bpref = some (bno, cgp', s')) :
    ∃ q, bno = g * fs.fs_fpg + q ∧ FreePiece fs cgp q k := by
  obtain ⟨x, hx, -, rfl, -⟩ := alloccgblk_spec hc hr h
  exact ⟨_, by rw [hcgx], freePiece_of_isblock hx hk hkf⟩

/-- **`alloccg` hands out free fragments only.** -/
theorem alloccg_free (hc : Counted fs cgp) (hr : Rotors fs cgp)
    (hread : breadcg s g = some cgp) (hcgx : cgp.cg_cgx = g) (hk : 0 < k) (hkf : k ≤ fs.fs_frag)
    (h : alloccg fs g bpref (k * fs.fs_fsize) s = some (bno, s')) :
    bno = 0 ∧ s' = s ∨ ∃ q, bno = g * fs.fs_fpg + q ∧ FreePiece fs cgp q k := by
  unfold alloccg at h
  rw [hread, numfrags_mul] at h
  simp only at h
  by_cases h0 : (s.fs_cs g).cs_nbfree = 0 ∧ k * fs.fs_fsize = fs.fs_bsize
  · rw [if_pos h0] at h
    cases h
    exact Or.inl ⟨rfl, rfl⟩
  rw [if_neg h0] at h
  by_cases h1 : cgp.cg_cs.cs_nbfree = 0 ∧ k * fs.fs_fsize = fs.fs_bsize
  · rw [if_pos h1] at h
    cases h
    exact Or.inl ⟨rfl, rfl⟩
  rw [if_neg h1] at h
  by_cases hsz : k * fs.fs_fsize = fs.fs_bsize
  · -- a whole block
    rw [if_pos hsz] at h
    cases ha : alloccgblk fs s cgp bpref with
    | none => simp [ha] at h
    | some x =>
      rw [ha] at h
      cases h
      exact Or.inr (alloccgblk_free hc hr hcgx hk hkf ha)
  rw [if_neg hsz] at h
  by_cases hsiz : allocsizFrom cgp.cg_frsum fs.fs_frag k = fs.fs_frag
  · -- a block is hacked up
    rw [if_pos hsiz] at h
    by_cases hn : cgp.cg_cs.cs_nbfree = 0
    · rw [if_pos hn] at h
      cases h
      exact Or.inl ⟨rfl, rfl⟩
    · rw [if_neg hn] at h
      cases ha : alloccgblk fs s cgp bpref with
      | none => simp [ha] at h
      | some x =>
        rw [ha] at h
        cases h
        exact Or.inr (alloccgblk_free hc hr hcgx hk hkf ha)
  · -- a fragment of a partly free block
    rw [if_neg hsiz] at h
    have hsize : k ≤ allocsizFrom cgp.cg_frsum fs.fs_frag k ∧
        allocsizFrom cgp.cg_frsum fs.fs_frag k ≤ fs.fs_frag := by
      rcases allocsizFrom_spec cgp.cg_frsum hkf with ⟨heq, -⟩ | ⟨hle, hlt, -⟩
      · exact absurd heq hsiz
      · exact ⟨hle, hlt.le⟩
    generalize allocsizFrom cgp.cg_frsum fs.fs_frag k = r at h hsize
    cases hm : mapsearch fs cgp bpref r with
    | none => simp [hm] at h
    | some x =>
      obtain ⟨b, c⟩ := x
      rw [hm] at h
      obtain ⟨rfl, rfl⟩ := h
      obtain ⟨hrun, -⟩ := mapsearch_spec hr (by omega) hsize.2 hm
      exact Or.inr ⟨b, rfl, freePiece_of_isRun hrun hk hsize.1⟩

/-- **What the counters of a group promise is found**: `mapsearch` returns a maximal run of the size
asked for, only free blocks and fragments are handed out, and an inode that was clear is marked. -/
theorem searches_find (hc : Counted fs cgp) (hr : Rotors fs cgp) (hi : Inodes fs cgp)
    (hcgx : cgp.cg_cgx = g) (hread : breadcg s g = some cgp) :
    (∀ bpref k, Available fs cgp k → ∃ b frotor,
      mapsearch fs cgp bpref k = some (b, { cgp with cg_frotor := frotor }) ∧
      IsRun (window fs.fs_frag (isset cgp.cg_free) (b / fs.fs_frag)) fs.fs_frag
        (b % fs.fs_frag) k ∧ FreePiece fs cgp b k) ∧
    (∀ bpref bno cgp' s', alloccgblk fs s cgp bpref = some (bno, cgp', s') →
      ∃ q, bno = g * fs.fs_fpg + q ∧ FreePiece fs cgp q fs.fs_frag) ∧
    (∀ bpref k bno s', 0 < k → k ≤ fs.fs_frag →
      alloccg fs g bpref (k * fs.fs_fsize) s = some (bno, s') →
        bno = 0 ∧ s' = s ∨ ∃ q, bno = g * fs.fs_fpg + q ∧ FreePiece fs cgp q k) ∧
    (∀ ipref mode, (s.fs_cs g).cs_nifree ≠ 0 → cgp.cg_cs.cs_nifree ≠ 0 → ∃ i s',
      ialloccg fs g ipref mode s = some (g * fs.fs_ipg + i, s') ∧ i < fs.fs_ipg ∧
      isset cgp.cg_iused i = false ∧
      isset (s'.cgs g).cg_iused = isset (setbit cgp.cg_iused i)) := by
  refine ⟨fun bpref k ha => ?_, fun bpref bno cgp' s' h => ?_,
    fun bpref k bno s' hk hkf h => alloccg_free hc hr hread hcgx hk hkf h,
    fun ipref mode hs hfree => ialloccg_of_nifree hi hread hs hfree⟩
  · obtain ⟨⟨b, c⟩, hm⟩ := Option.isSome_iff_exists.mp (mapsearch_isSome hc hr ha bpref)
    have hk : 0 < k ∧ k ≤ fs.fs_frag := by
      have := fs.frag_pos
      rcases ha with ⟨hk, hkf, -⟩ | ⟨rfl, -⟩
      · exact ⟨hk, hkf.le⟩
      · exact ⟨this, le_rfl⟩
    obtain ⟨hrun, frotor, -, rfl⟩ := mapsearch_spec hr hk.1 hk.2 hm
    exact ⟨b, frotor, hm, hrun, freePiece_of_isRun hrun hk.1 le_rfl⟩
  · exact alloccgblk_free hc hr hcgx fs.frag_pos le_rfl h

/-- The group of `tiny` with the free map `0xf6` and two of its eight inodes used. -/
def tinyInodes : cg :=
  { tinyCg 0xf6 with
    cg_cs := { (tinyCg 0xf6).cg_cs with cs_nifree := 6 }
    cg_iused := fun _ => 0x03 }

def tinyInodesState : State where
  fs_cstotal := tinyInodes.cg_cs
  fs_cs := fun _ => tinyInodes.cg_cs
  cgs := fun _ => tinyInodes
  cgerr := fun _ => false

/-- A run of two fragments and a whole block are found there, and an inode. -/
theorem searches_find_tiny :
    (∃ b frotor, mapsearch tiny tinyInodes 0 2 = some (b, { tinyInodes with cg_frotor := frotor }) ∧
      FreePiece tiny tinyInodes b 2) ∧
    (∃ b frotor, mapsearch tiny tinyInodes 0 4 = some (b, { tinyInodes with cg_frotor := frotor }) ∧
      FreePiece tiny tinyInodes b 4) ∧
    ∃ i s', ialloccg tiny 0 0 0 tinyInodesState = some (0 * 8 + i, s') ∧
      isset tinyInodes.cg_iused i = false := by
  have hcons := tinyState_consistent 0xf6
  have hc := hcons.counted 0 Nat.one_pos
  have hr := hcons.rotors 0 Nat.one_pos
  have hc' : Counted tiny tinyInodes := ⟨hc.nbfree, hc.nffree, hc.frsum, hc.btot, hc.bpos,
    hc.beyond⟩
  have hr' : Rotors tiny tinyInodes := ⟨hr.rotor, hr.frotor⟩
  have hi : Inodes tiny tinyInodes := ⟨by decide +kernel, by decide⟩
  obtain ⟨hmap, -, -, hino⟩ := searches_find (s := tinyInodesState) hc' hr' hi rfl rfl
  refine ⟨?_, ?_, ?_⟩
  · obtain ⟨b, frotor, hm, -, hfree⟩ := hmap 0 2 (Or.inl ⟨by decide, by decide, by decide +kernel⟩)
    exact ⟨b, frotor, hm, hfree⟩
  · obtain ⟨b, frotor, hm, -, hfree⟩ := hmap 0 4 (Or.inr ⟨rfl, by decide +kernel⟩)
    exact ⟨b, frotor, hm, hfree⟩
  · obtain ⟨i, s', hrun, -, hclr, -⟩ := hino 0 0 (by decide) (by decide)
    exact ⟨i, s', hrun, hclr⟩

end Ufs
