/-
# Blocks and fragments taken from a group

What `alloccgblk`, `alloccg` and `fragextend` do to the buffer of one cylinder
group: which bits they clear, and that the counters still count
(`Counted`).
-/
import SunOS.Ufs.CylGroup

namespace Ufs

open Function (update_of_ne update_self)

variable {fs : Ufs.fs} {cgp cgp' : cg} {s s' : State} {bno bpref h k p r m : ℕ}

/-! ## `csum` as a sum -/

instance : Add csum where
  add a b := ⟨a.cs_ndir + b.cs_ndir, a.cs_nbfree + b.cs_nbfree, a.cs_nifree + b.cs_nifree,
    a.cs_nffree + b.cs_nffree⟩

@[simp] theorem csum.add_ndir (a b : csum) : (a + b).cs_ndir = a.cs_ndir + b.cs_ndir := rfl
@[simp] theorem csum.add_nbfree (a b : csum) : (a + b).cs_nbfree = a.cs_nbfree + b.cs_nbfree := rfl
@[simp] theorem csum.add_nifree (a b : csum) : (a + b).cs_nifree = a.cs_nifree + b.cs_nifree := rfl
@[simp] theorem csum.add_nffree (a b : csum) : (a + b).cs_nffree = a.cs_nffree + b.cs_nffree := rfl

theorem csum.eq_of {a b : csum} (h1 : a.cs_ndir = b.cs_ndir) (h2 : a.cs_nbfree = b.cs_nbfree)
    (h3 : a.cs_nifree = b.cs_nifree) (h4 : a.cs_nffree = b.cs_nffree) : a = b := by
  cases a
  cases b
  simp_all

theorem csum.add_assoc (a b c : csum) : a + b + c = a + (b + c) := by
  apply csum.eq_of <;> simp [Int.add_assoc]

/-- The summary information of group `cg` and the totals, both raised by `d`. -/
def addcs (s : State) (cg : ℕ) (d : csum) : State :=
  { s with
    fs_cstotal := s.fs_cstotal + d
    fs_cs := Function.update s.fs_cs cg (s.fs_cs cg + d) }

theorem addnbfree_eq (s : State) (cg : ℕ) (n : ℤ) : addnbfree s cg n = addcs s cg ⟨0, n, 0, 0⟩ := by
  unfold addnbfree addcs
  congr 2
  · apply csum.eq_of <;> simp
  · apply csum.eq_of <;> simp

theorem addnffree_eq (s : State) (cg : ℕ) (n : ℤ) : addnffree s cg n = addcs s cg ⟨0, 0, 0, n⟩ := by
  unfold addnffree addcs
  congr 2
  · apply csum.eq_of <;> simp
  · apply csum.eq_of <;> simp

theorem addcs_addcs (s : State) (cg : ℕ) (d e : csum) :
    addcs (addcs s cg d) cg e = addcs s cg (d + e) := by
  unfold addcs
  simp only [update_self, Function.update_idem, csum.add_assoc]

/-! ## Choosing a block -/

variable {map : ℕ → BitVec 8}

/-- The search of `fs_rotbl` stops at a free block. -/
theorem rotsearch_spec {b n i : ℕ} (hs : rotsearch fs map b n i = some bno) :
    ∃ h, isblock fs map h = true ∧ bno = h * fs.fs_frag := by
  induction n generalizing i with
  | zero => simp [rotsearch] at hs
  | succ n ih =>
    unfold rotsearch at hs
    by_cases hb : isblock fs map (b + i)
    · rw [if_pos hb] at hs
      cases hs
      exact ⟨b + i, hb, rfl⟩
    · rw [if_neg hb] at hs
      by_cases hd : fs.fs_rotbl i ≤ 0 ∨ fs.fs_rotbl i > MAXBPC - i
      · rw [if_pos hd] at hs
        simp at hs
      · rw [if_neg hd] at hs
        exact ih hs

/-- `cgp'` is `cgp` with its rotors moved. -/
def Turned (fs : Ufs.fs) (cgp cgp' : cg) : Prop :=
  ∃ rotor frotor, cgp' = { cgp with cg_rotor := rotor, cg_frotor := frotor } ∧ Rotors fs cgp'

/-- A block with a free fragment lies in the group. -/
theorem Counted.lt_nblk {j : ℕ} (hc : Counted fs cgp)
    (hset : window fs.fs_frag (isset cgp.cg_free) h j = true) : h < nblk fs := by
  by_contra hge
  have hmul : nblk fs * fs.fs_frag ≤ h * fs.fs_frag :=
    Nat.mul_le_mul_right _ (Nat.le_of_not_lt hge)
  rw [nblk_mul] at hmul
  have := hc.beyond (h * fs.fs_frag + j) (by omega)
  unfold window at hset
  rw [this] at hset
  simp at hset

/-- The search for a block finds a free one. -/
theorem norot_spec (hc : Counted fs cgp) (hr : Rotors fs cgp)
    (hs : norot fs cgp bpref = some (bno, cgp')) :
    (∃ h, isblock fs cgp.cg_free h = true ∧ bno = h * fs.fs_frag) ∧ Turned fs cgp cgp' := by
  unfold norot at hs
  cases hm : mapsearch fs cgp bpref fs.fs_frag with
  | none => simp [hm] at hs
  | some x =>
    obtain ⟨b, c⟩ := x
    rw [hm] at hs
    simp only [Option.some.injEq] at hs
    obtain ⟨rfl, rfl⟩ := Prod.mk.inj hs
    obtain ⟨hrun, frotor, hf, rfl⟩ := mapsearch_spec hr fs.frag_pos le_rfl hm
    obtain ⟨hp, hfull⟩ := hrun.full
    have hb : b = b / fs.fs_frag * fs.fs_frag := by
      have := Nat.div_add_mod b fs.fs_frag
      rw [Nat.mul_comm]
      omega
    refine ⟨⟨b / fs.fs_frag, (isblock_iff_window fs _ _).mpr hfull, hb⟩, b, frotor, rfl, ?_, hf⟩
    show b < fs.fs_fpg
    have hlt := hc.lt_nblk (hfull 0 fs.frag_pos)
    rw [hb, ← nblk_mul fs]
    exact Nat.mul_lt_mul_of_pos_right hlt fs.frag_pos

theorem Turned.refl (hr : Rotors fs cgp) : Turned fs cgp cgp :=
  ⟨cgp.cg_rotor, cgp.cg_frotor, rfl, hr⟩

/-- The first fragment of the block of `bpref`, as a fragment of its group. -/
theorem dtogd_blknum (fs : Ufs.fs) (d : ℕ) :
    dtogd fs (blknum fs d) = fragstoblks fs (dtogd fs (blknum fs d)) * fs.fs_frag := by
  have hblk : fs.fs_frag ∣ blknum fs d := by
    exact Nat.dvd_sub_mod d
  have : fs.fs_frag ∣ dtogd fs (blknum fs d) := by
    exact (Nat.dvd_mod_iff fs.frag_dvd_fpg).mpr hblk
  exact (Nat.div_mul_cancel this).symm

/-- **The block chosen is free.** -/
theorem pickblk_spec (hc : Counted fs cgp) (hr : Rotors fs cgp)
    (hs : pickblk fs cgp bpref = some (bno, cgp')) :
    (∃ h, isblock fs cgp.cg_free h = true ∧ bno = h * fs.fs_frag) ∧ Turned fs cgp cgp' := by
  unfold pickblk at hs
  by_cases h0 : bpref = 0
  · rw [if_pos h0] at hs
    exact norot_spec hc hr hs
  rw [if_neg h0] at hs
  generalize hd : dtogd fs (blknum fs bpref) = d at hs
  have hdm : d = fragstoblks fs d * fs.fs_frag := by
    rw [← hd]
    exact dtogd_blknum fs bpref
  by_cases hb : isblock fs cgp.cg_free (fragstoblks fs d)
  · rw [if_pos hb] at hs
    cases hs
    exact ⟨⟨_, hb, hdm⟩, Turned.refl hr⟩
  rw [if_neg hb] at hs
  by_cases ht : cgp.cg_btot (cbtocylno fs d) = 0
  · rw [if_pos ht] at hs
    exact norot_spec hc hr hs
  rw [if_neg ht] at hs
  by_cases hcpc : fs.fs_cpc = 0
  · rw [if_pos hcpc] at hs
    exact norot_spec hc hr hs
  rw [if_neg hcpc] at hs
  cases hi : rposWith (cgp.cg_b (cbtocylno fs d)) (cbtorpos fs d) with
  | none =>
    rw [hi] at hs
    exact norot_spec hc hr hs
  | some i =>
    rw [hi] at hs
    simp only at hs
    by_cases hp : fs.fs_postbl (cbtocylno fs d % fs.fs_cpc) i = -1
    · rw [if_pos hp] at hs
      simp at hs
    · rw [if_neg hp] at hs
      split at hs
      · simp at hs
      · rename_i b hrot
        cases hs
        exact ⟨rotsearch_spec hrot, Turned.refl hr⟩

/-! ## Counters after a change -/

/-- `cgp'` is what an operation leaves of `cgp`: the counters have changed by `d`
and still count, and what belongs to the inodes of the group is as it was. -/
structure Rewritten (fs : Ufs.fs) (cgp cgp' : cg) (d : csum) : Prop where
  counted : Counted fs cgp'
  rotors : Rotors fs cgp'
  cs : cgp'.cg_cs = cgp.cg_cs + d
  cgx : cgp'.cg_cgx = cgp.cg_cgx
  magic : cgp'.cg_magic = cgp.cg_magic
  iused : cgp'.cg_iused = cgp.cg_iused
  irotor : cgp'.cg_irotor = cgp.cg_irotor

theorem Rotors.of_eq (hr : Rotors fs cgp) (h1 : cgp'.cg_rotor = cgp.cg_rotor)
    (h2 : cgp'.cg_frotor = cgp.cg_frotor) : Rotors fs cgp' :=
  ⟨by rw [h1]; exact hr.rotor, by rw [h2]; exact hr.frotor⟩

/-- The counters do not depend on the rotors. -/
theorem Turned.counted (ht : Turned fs cgp cgp') (hc : Counted fs cgp) : Counted fs cgp' := by
  obtain ⟨rotor, frotor, rfl, -⟩ := ht
  exact ⟨hc.nbfree, hc.nffree, hc.frsum, hc.btot, hc.bpos, hc.beyond⟩

theorem Turned.rotors (ht : Turned fs cgp cgp') : Rotors fs cgp' := by
  obtain ⟨rotor, frotor, -, hr⟩ := ht
  exact hr

/-- `addbtot` changes the cylinder and the rotational position of its block. -/
theorem addbtot_btot (cgp : cg) (bno : ℕ) (x : ℤ) (c : ℕ) :
    (cgp.addbtot fs bno x).cg_btot c = cgp.cg_btot c + if cbtocylno fs bno = c then x else 0 := by
  unfold cg.addbtot
  simp only
  by_cases hc : cbtocylno fs bno = c
  · rw [if_pos hc, ← hc, update_self]
  · rw [if_neg hc, update_of_ne (Ne.symm hc), add_zero]

theorem addbtot_b (cgp : cg) (bno : ℕ) (x : ℤ) (c r : ℕ) :
    (cgp.addbtot fs bno x).cg_b c r =
      cgp.cg_b c r + if cbtocylno fs bno = c ∧ cbtorpos fs bno = r then x else 0 := by
  unfold cg.addbtot
  simp only
  by_cases hc : cbtocylno fs bno = c
  · subst hc
    rw [update_self]
    by_cases hr : cbtorpos fs bno = r
    · rw [if_pos ⟨rfl, hr⟩, ← hr, update_self]
    · rw [if_neg (by tauto), update_of_ne (Ne.symm hr), add_zero]
  · rw [if_neg (by tauto), update_of_ne (Ne.symm hc), add_zero]

/-- **A whole block changes hands**: the counters of whole blocks change by `x`. -/
theorem Counted.block {x : ℤ} (hc : Counted fs cgp) (hr : Rotors fs cgp)
    (hh : h < nblk fs) (hs : SameBut fs (isset cgp.cg_free) (isset map) h)
    (hx : x = blocksIn fs.fs_frag (window fs.fs_frag (isset map) h) -
      blocksIn fs.fs_frag (window fs.fs_frag (isset cgp.cg_free) h))
    (hnf : fragsIn fs.fs_frag (window fs.fs_frag (isset map) h) =
      fragsIn fs.fs_frag (window fs.fs_frag (isset cgp.cg_free) h))
    (hrn : ∀ k, k < fs.fs_frag → runs (window fs.fs_frag (isset map) h) fs.fs_frag k =
      runs (window fs.fs_frag (isset cgp.cg_free) h) fs.fs_frag k) :
    Rewritten fs cgp
      (({ cgp with cg_free := map }.addnbfree x).addbtot fs (h * fs.fs_frag) x)
      ⟨0, x, 0, 0⟩ := by
  refine ⟨?_, hr.of_eq rfl rfl, csum.eq_of ?_ ?_ ?_ ?_, rfl, rfl, rfl, rfl⟩
  · refine hc.change hh hs rfl rfl ?_ ?_ ?_ ?_ ?_
    · show cgp.cg_cs.cs_nbfree + x = _
      rw [hx]
      show _ = cgp.cg_cs.cs_nbfree - _ + blocksIn fs.fs_frag (window fs.fs_frag (isset map) h)
      ring
    · show cgp.cg_cs.cs_nffree = cgp.cg_cs.cs_nffree - _ +
        fragsIn fs.fs_frag (window fs.fs_frag (isset map) h)
      rw [hnf]
      ring
    · intro k _ hk
      show cgp.cg_frsum k = cgp.cg_frsum k - _ +
        (runs (window fs.fs_frag (isset map) h) fs.fs_frag k : ℤ)
      rw [hrn k hk]
      ring
    · intro c
      rw [addbtot_btot, hx]
      rfl
    · intro c r
      rw [addbtot_b, hx]
      rfl
  · exact (add_zero _).symm
  · rfl
  · exact (add_zero _).symm
  · exact (add_zero _).symm

theorem fragsIn_full {n : ℕ} {w : ℕ → Bool} (hw : Full n w) : fragsIn n w = 0 := if_pos hw

/-- `clrblock` of a free block. -/
theorem Counted.clrblock (hc : Counted fs cgp) (hr : Rotors fs cgp)
    (hb : isblock fs cgp.cg_free h = true) :
    Rewritten fs cgp
      (({ cgp with cg_free := Ufs.clrblock fs cgp.cg_free h }.addnbfree (-1)).addbtot fs
        (h * fs.fs_frag) (-1)) ⟨0, -1, 0, 0⟩ := by
  have hfull : Full fs.fs_frag (window fs.fs_frag (isset cgp.cg_free) h) :=
    (isblock_iff_window fs _ _).mp hb
  have hpos := fs.frag_pos
  have hset := isset_clrblock fs cgp.cg_free h
  have hs : SameBut fs (isset cgp.cg_free) (isset (Ufs.clrblock fs cgp.cg_free h)) h := by
    rw [hset]
    exact sameBut_clearBits (p := 0) _ (by omega)
  have hempty : ∀ j < fs.fs_frag,
      window fs.fs_frag (isset (Ufs.clrblock fs cgp.cg_free h)) h j = false := by
    intro j hj
    rw [hset]
    exact if_pos ⟨by omega, by omega⟩
  refine hc.block hr (hc.lt_nblk (hfull 0 hpos)) hs ?_ ?_ ?_
  · rw [blocksIn_empty hpos hempty]
    unfold blocksIn
    rw [if_pos hfull]
    rfl
  · rw [fragsIn_empty hempty, fragsIn_full hfull]
  · intro k hk
    rw [runs_empty hempty, runs_full hk hfull]

/-- `setblock` of an allocated block. -/
theorem Counted.setblock (hc : Counted fs cgp) (hr : Rotors fs cgp) (hh : h < nblk fs)
    (hclr : ∀ j < fs.fs_frag, window fs.fs_frag (isset cgp.cg_free) h j = false) :
    Rewritten fs cgp
      (({ cgp with cg_free := Ufs.setblock fs cgp.cg_free h }.addnbfree 1).addbtot fs
        (h * fs.fs_frag) 1) ⟨0, 1, 0, 0⟩ := by
  have hpos := fs.frag_pos
  have hset := isset_setblock fs cgp.cg_free h
  have hs : SameBut fs (isset cgp.cg_free) (isset (Ufs.setblock fs cgp.cg_free h)) h := by
    rw [hset]
    exact sameBut_setRange (p := 0) _ (by omega)
  have hfull : Full fs.fs_frag (window fs.fs_frag (isset (Ufs.setblock fs cgp.cg_free h)) h) := by
    intro j hj
    rw [hset]
    exact if_pos ⟨by omega, by omega⟩
  refine hc.block hr hh hs ?_ ?_ ?_
  · rw [blocksIn_empty hpos hclr]
    unfold blocksIn
    rw [if_pos hfull]
    rfl
  · rw [fragsIn_empty hclr, fragsIn_full hfull]
  · intro k hk
    rw [runs_empty hclr, runs_full hk hfull]

/-- **`alloccgblk` takes a free block.** -/
theorem alloccgblk_spec (hc : Counted fs cgp) (hr : Rotors fs cgp)
    (hs : alloccgblk fs s cgp bpref = some (bno, cgp', s')) :
    ∃ h, isblock fs cgp.cg_free h = true ∧ h < nblk fs ∧
      bno = cgp.cg_cgx * fs.fs_fpg + h * fs.fs_frag ∧
      s' = addcs s cgp.cg_cgx ⟨0, -1, 0, 0⟩ ∧
      isset cgp'.cg_free = clearBits (isset cgp.cg_free) (h * fs.fs_frag) fs.fs_frag ∧
      Rewritten fs cgp cgp' ⟨0, -1, 0, 0⟩ := by
  unfold alloccgblk at hs
  cases hp : pickblk fs cgp bpref with
  | none => simp [hp] at hs
  | some x =>
    obtain ⟨b, c⟩ := x
    rw [hp] at hs
    obtain ⟨rfl, rfl, rfl⟩ := hs
    obtain ⟨⟨h, hb, rfl⟩, ht⟩ := pickblk_spec hc hr hp
    have hblk : fragstoblks fs (h * fs.fs_frag) = h := Nat.mul_div_cancel _ fs.frag_pos
    rw [hblk]
    have hc' := ht.counted hc
    have hr' := ht.rotors
    obtain ⟨rotor, frotor, rfl, -⟩ := ht
    have hrw := hc'.clrblock hr' hb
    refine ⟨h, hb, ?_, rfl, addnbfree_eq _ _ _, isset_clrblock fs _ h, ?_⟩
    · exact hc.lt_nblk ((isblock_iff_window fs _ _).mp hb 0 fs.frag_pos)
    · exact ⟨hrw.counted, hrw.rotors, hrw.cs, hrw.cgx, hrw.magic, hrw.iused, hrw.irotor⟩

/-! ## Fragments taken from a run -/

/-- The head of a run of a partly free block is taken. -/
theorem Counted.takeHead (hc : Counted fs cgp) (hh : h < nblk fs)
    (hrun : IsRun (window fs.fs_frag (isset cgp.cg_free) h) fs.fs_frag p r)
    (hrn : r < fs.fs_frag) (hm : 0 < m) (hmr : m ≤ r)
    (hmap : isset cgp'.cg_free = clearBits (isset cgp.cg_free) (h * fs.fs_frag + p) m)
    (hcs : cgp'.cg_cs = cgp.cg_cs + ⟨0, 0, 0, -m⟩)
    (hfr : ∀ k, cgp'.cg_frsum k = cgp.cg_frsum k - (if k = r then 1 else 0) +
      (if k = r - m ∧ m < r then 1 else 0))
    (hbt : cgp'.cg_btot = cgp.cg_btot) (hbp : cgp'.cg_b = cgp.cg_b) : Counted fs cgp' := by
  have hpr := hrun.2.1
  have hs : SameBut fs (isset cgp.cg_free) (isset cgp'.cg_free) h := by
    rw [hmap]
    exact sameBut_clearBits _ (by omega)
  have hw : window fs.fs_frag (isset cgp'.cg_free) h =
      clearBits (window fs.fs_frag (isset cgp.cg_free) h) p m := by
    rw [hmap, window_clearBits]
  have hold : blocksIn fs.fs_frag (window fs.fs_frag (isset cgp.cg_free) h) = 0 :=
    if_neg (not_full_of_isRun hrun hrn)
  have hnew : blocksIn fs.fs_frag
      (clearBits (window fs.fs_frag (isset cgp.cg_free) h) p m) = 0 :=
    if_neg (not_full_of_clear (j := p) (by omega) (if_pos ⟨le_rfl, by omega⟩))
  refine hc.change hh hs rfl hw ?_ ?_ ?_ ?_ ?_
  · rw [hcs, hold, hnew]
    show cgp.cg_cs.cs_nbfree + 0 = _
    ring
  · rw [hcs, fragsIn_clearHead hrun hrn hm hmr]
    show cgp.cg_cs.cs_nffree + -(m : ℤ) = _
    ring
  · intro k _ _
    rw [hfr, runs_clearHead hrun hm hmr]
    ring
  · intro c
    rw [hbt, hold, hnew]
    simp
  · intro c r
    rw [hbp, hold, hnew]
    simp

/-- The tail of an allocated block is put back: a block is hacked up. -/
theorem Counted.putTail (hc : Counted fs cgp) (hh : h < nblk fs)
    (hclr : ∀ j < fs.fs_frag, window fs.fs_frag (isset cgp.cg_free) h j = false)
    (hm : 0 < m) (hmf : m < fs.fs_frag)
    (hmap : isset cgp'.cg_free =
      setRange (isset cgp.cg_free) (h * fs.fs_frag + m) (fs.fs_frag - m))
    (hcs : cgp'.cg_cs = cgp.cg_cs + ⟨0, 0, 0, (fs.fs_frag - m : ℕ)⟩)
    (hfr : ∀ k, cgp'.cg_frsum k = cgp.cg_frsum k + if k = fs.fs_frag - m then 1 else 0)
    (hbt : cgp'.cg_btot = cgp.cg_btot) (hbp : cgp'.cg_b = cgp.cg_b) : Counted fs cgp' := by
  have hs : SameBut fs (isset cgp.cg_free) (isset cgp'.cg_free) h := by
    rw [hmap]
    exact sameBut_setRange _ (by lia)
  have hw : window fs.fs_frag (isset cgp'.cg_free) h =
      setRange (window fs.fs_frag (isset cgp.cg_free) h) m (fs.fs_frag - m) := by
    rw [hmap, window_setRange]
  have hlow : ∀ j < m,
      setRange (window fs.fs_frag (isset cgp.cg_free) h) m (fs.fs_frag - m) j = false := by
    intro j hj
    unfold setRange
    rw [if_neg (by lia)]
    exact hclr j (by lia)
  have hnot : ¬ Full fs.fs_frag
      (setRange (window fs.fs_frag (isset cgp.cg_free) h) m (fs.fs_frag - m)) :=
    not_full_of_clear (j := 0) fs.frag_pos (hlow 0 hm)
  have hold := blocksIn_empty fs.frag_pos hclr
  have hnew : blocksIn fs.fs_frag
      (setRange (window fs.fs_frag (isset cgp.cg_free) h) m (fs.fs_frag - m)) = 0 := if_neg hnot
  refine hc.change hh hs rfl hw ?_ ?_ ?_ ?_ ?_
  · rw [hcs, hold, hnew]
    show cgp.cg_cs.cs_nbfree + 0 = _
    ring
  · rw [hcs, fragsIn_setRange (by lia) (by lia) fun j hj => hclr _ (by lia), if_neg hnot]
    show cgp.cg_cs.cs_nffree + ((fs.fs_frag - m : ℕ) : ℤ) = _
    ring
  · intro k _ hk
    rw [hfr, runs_empty hclr, runs_tail hm hmf hlow ?_ hk]
    · ring
    · intro j hj hmj
      exact if_pos ⟨hmj, by lia⟩
  · intro c
    rw [hbt, hold, hnew]
    simp
  · intro c r
    rw [hbp, hold, hnew]
    simp

end Ufs
