/-
# Freeing, and runs of the block allocator

`free` puts back an allocated piece.  Over any sequence of `alloccg`,
`fragextend` and `free` on pieces their callers may pass, the five summaries of
every group stay the counts of its map.
-/
import SunOS.Ufs.AllocSums
import SunOS.Lib.Run

namespace Ufs

open Finset

variable {fs : Ufs.fs} {cgp cgp' : cg} {s s' : State} {bno bpref g h k p q r m size : ℕ} {d : csum}

/-! ## `free` -/

variable {map : ℕ → BitVec 8}

/-- What `free` leaves of a piece it puts back. -/
def Gave (fs : Ufs.fs) (s s' : State) (g q k : ℕ) : Prop :=
  ∃ d, Wrote fs s s' g d (setRange (isset (s.cgs g).cg_free) q k)

/-- A fragment is put back, and the block is reassembled when it is whole. -/
theorem Counted.putFrags {x : ℤ} (hc : Counted fs cgp) (hh : h < nblk fs)
    (hm : 0 < m) (hpm : p + m ≤ fs.fs_frag)
    (hclr : ∀ j < m, window fs.fs_frag (isset cgp.cg_free) h (p + j) = false)
    (hmap : isset map = setRange (isset cgp.cg_free) (h * fs.fs_frag + p) m)
    (hx : x = if isblock fs map h = true then 1 else 0)
    (hfree : cgp'.cg_free = map)
    (hcs : cgp'.cg_cs = cgp.cg_cs + ⟨0, x, 0, m - x * fs.fs_frag⟩)
    (hfr : ∀ k, 1 ≤ k → k < fs.fs_frag → cgp'.cg_frsum k =
      cgp.cg_frsum k - runs (window fs.fs_frag (isset cgp.cg_free) h) fs.fs_frag k +
        runs (window fs.fs_frag (isset map) h) fs.fs_frag k)
    (hbt : ∀ c, cgp'.cg_btot c =
      cgp.cg_btot c + if cbtocylno fs (h * fs.fs_frag) = c then x else 0)
    (hbp : ∀ c r, cgp'.cg_b c r = cgp.cg_b c r +
      if cbtocylno fs (h * fs.fs_frag) = c ∧ cbtorpos fs (h * fs.fs_frag) = r then x else 0) :
    Counted fs cgp' := by
  subst hfree
  have hs : SameBut fs (isset cgp.cg_free) (isset cgp'.cg_free) h := by
    rw [hmap]
    exact sameBut_setRange _ hpm
  have hw : window fs.fs_frag (isset cgp'.cg_free) h =
      setRange (window fs.fs_frag (isset cgp.cg_free) h) p m := by
    rw [hmap, window_setRange]
  have hold : blocksIn fs.fs_frag (window fs.fs_frag (isset cgp.cg_free) h) = 0 :=
    if_neg (not_full_of_clear (j := p) (by omega) (hclr 0 hm))
  have hxw : x = blocksIn fs.fs_frag (window fs.fs_frag (isset cgp'.cg_free) h) := by
    rw [hx]
    exact if_congr (isblock_iff_window fs _ _) rfl rfl
  refine hc.change hh hs rfl rfl ?_ ?_ hfr ?_ ?_
  · rw [hcs, hold, ← hxw]
    show cgp.cg_cs.cs_nbfree + x = _
    ring
  · rw [hcs, hw, fragsIn_setRange hpm hm hclr, ← hw]
    show cgp.cg_cs.cs_nffree + ((m : ℤ) - x * fs.fs_frag) = _
    rw [hxw]
    unfold blocksIn
    by_cases hf : Full fs.fs_frag (window fs.fs_frag (isset cgp'.cg_free) h)
    · rw [if_pos hf, if_pos hf]
      ring
    · rw [if_neg hf, if_neg hf]
      ring
  · intro c
    rw [hbt, hold, ← hxw]
    simp
  · intro c r
    rw [hbp, hold, ← hxw]
    simp

/-- The first fragment of a piece in its block, and what the piece says of the window. -/
theorem Held.window (hh : Held fs s g q k) :
    q = q / fs.fs_frag * fs.fs_frag + q % fs.fs_frag ∧ q / fs.fs_frag < nblk fs ∧
      ∀ j < k, Ufs.window fs.fs_frag (isset (s.cgs g).cg_free) (q / fs.fs_frag)
        (q % fs.fs_frag + j) = false := by
  have hq : q = q / fs.fs_frag * fs.fs_frag + q % fs.fs_frag := by
    have := Nat.div_add_mod q fs.fs_frag
    rw [Nat.mul_comm]
    omega
  refine ⟨hq, ?_, fun j hj => ?_⟩
  · unfold nblk
    rw [Nat.div_lt_iff_lt_mul fs.frag_pos, Nat.div_mul_cancel fs.frag_dvd_fpg]
    have := hh.inside
    have := hh.piece.1
    omega
  · unfold Ufs.window
    rw [← Nat.add_assoc, ← hq]
    exact hh.busy j hj

theorem gave_frags {x : ℤ} (hc : Consistent fs s) (hg : g < fs.fs_ncg)
    (hh : Held fs s g q k) (hmap : isset map = setRange (isset (s.cgs g).cg_free) q k)
    (hx : x = if isblock fs map (q / fs.fs_frag) = true then 1 else 0)
    (hfree : cgp'.cg_free = map)
    (hcs : cgp'.cg_cs = (s.cgs g).cg_cs + ⟨0, x, 0, k - x * fs.fs_frag⟩)
    (hfr : ∀ j, 1 ≤ j → j < fs.fs_frag → cgp'.cg_frsum j = (s.cgs g).cg_frsum j -
      runs (window fs.fs_frag (isset (s.cgs g).cg_free) (q / fs.fs_frag)) fs.fs_frag j +
      runs (window fs.fs_frag (isset map) (q / fs.fs_frag)) fs.fs_frag j)
    (hbt : ∀ c, cgp'.cg_btot c = (s.cgs g).cg_btot c +
      if cbtocylno fs (q / fs.fs_frag * fs.fs_frag) = c then x else 0)
    (hbp : ∀ c r, cgp'.cg_b c r = (s.cgs g).cg_b c r +
      if cbtocylno fs (q / fs.fs_frag * fs.fs_frag) = c ∧
        cbtorpos fs (q / fs.fs_frag * fs.fs_frag) = r then x else 0)
    (hsame : cgp'.cg_rotor = (s.cgs g).cg_rotor ∧ cgp'.cg_frotor = (s.cgs g).cg_frotor ∧
      cgp'.cg_cgx = (s.cgs g).cg_cgx ∧ cgp'.cg_magic = (s.cgs g).cg_magic ∧
      cgp'.cg_iused = (s.cgs g).cg_iused ∧ cgp'.cg_irotor = (s.cgs g).cg_irotor)
    (hs : s' = bdwritecg (addcs s g ⟨0, x, 0, k - x * fs.fs_frag⟩) g cgp') :
    Gave fs s s' g q k := by
  obtain ⟨hro, hfo, hcx, hmg, hiu, hir⟩ := hsame
  obtain ⟨hq, hblk, hclr⟩ := hh.window
  refine ⟨⟨0, x, 0, k - x * fs.fs_frag⟩, cgp',
    ⟨?_, (hc.rotors g hg).of_eq hro hfo, hcs, hcx, hmg, hiu, hir⟩, by rw [hfree, hmap], hs⟩
  refine (hc.counted g hg).putFrags hblk hh.piece.1 hh.piece.2 hclr ?_ hx hfree hcs hfr hbt hbp
  rw [hmap, ← hq]

/-- **`free` puts an allocated piece back**, unless its group cannot be read or it
lies behind the file system. -/
theorem free_spec (hc : Consistent fs s) (hg : g < fs.fs_ncg) (hh : Held fs s g q k)
    (h : free fs (g * fs.fs_fpg + q) (k * fs.fs_fsize) s = some s') :
    (s' = s ∧ (fs.fs_size ≤ g * fs.fs_fpg + q ∨ breadcg s g = none)) ∨
      (g * fs.fs_fpg + q < fs.fs_size ∧ breadcg s g ≠ none ∧ Gave fs s s' g q k) := by
  have hk := hh.piece.1
  have hkf := hh.piece.2
  have hqi : q < fs.fs_fpg := by
    have := hh.inside
    omega
  unfold free at h
  rw [dtog_eq fs g hqi, dtogd_eq fs g hqi, numfrags_mul] at h
  by_cases hbad : k * fs.fs_fsize > fs.fs_bsize ∨ fragoff fs (k * fs.fs_fsize) ≠ 0
  · rw [if_pos hbad] at h
    simp at h
  rw [if_neg hbad] at h
  by_cases hsz : g * fs.fs_fpg + q ≥ fs.fs_size
  · rw [if_pos hsz] at h
    cases h
    exact .inl ⟨rfl, .inl hsz⟩
  rw [if_neg hsz] at h
  cases hb : breadcg s g with
  | none =>
    rw [hb] at h
    cases h
    exact .inl ⟨rfl, .inr rfl⟩
  | some cgp =>
    rw [hb] at h
    have hcg := breadcg_eq hb
    subst hcg
    simp only at h
    right
    refine ⟨by omega, by simp, ?_⟩
    have hcnt := hc.counted g hg
    have hrot := hc.rotors g hg
    obtain ⟨hq, hblk, hclr⟩ := hh.window
    by_cases hfull : k * fs.fs_fsize = fs.fs_bsize
    · -- a whole block
      rw [if_pos hfull] at h
      have hkeq := (mul_eq_bsize fs k).mp hfull
      subst hkeq
      have hq0 : q % fs.fs_frag = 0 := by omega
      rw [hq0, add_zero] at hq
      have hclr' : ∀ j < fs.fs_frag,
          window fs.fs_frag (isset (s.cgs g).cg_free) (q / fs.fs_frag) j = false := by
        intro j hj
        have := hclr j hj
        rwa [hq0, Nat.zero_add] at this
      have hnb : isblock fs (s.cgs g).cg_free (fragstoblks fs q) = false := by
        by_contra hne
        have := (isblock_iff_window fs _ _).mp (by simpa using hne) 0 hk
        rw [show fragstoblks fs q = q / fs.fs_frag from rfl, hclr' 0 hk] at this
        simp at this
      rw [hnb] at h
      cases h
      refine ⟨⟨0, 1, 0, 0⟩, _, ?_, ?_, by rw [addnbfree_eq]⟩
      · have := hcnt.setblock hrot hblk hclr'
        rw [← hq] at this
        exact this
      · show isset (setblock fs (s.cgs g).cg_free (q / fs.fs_frag)) = _
        rw [isset_setblock, ← hq]
    · rw [if_neg hfull] at h
      have hbase : q - fragnum fs q = q / fs.fs_frag * fs.fs_frag := by
        unfold fragnum
        omega
      rw [hbase] at h
      cases hf : freefrags (s.cgs g).cg_free q k with
      | none => simp [hf] at h
      | some map =>
        obtain ⟨-, hmap⟩ := freefrags_eq hf
        rw [hf] at h
        simp only at h
        have hdiv : fragstoblks fs (q / fs.fs_frag * fs.fs_frag) = q / fs.fs_frag :=
          Nat.mul_div_cancel _ fs.frag_pos
        rw [hdiv] at h
        have hfr : ∀ j, 1 ≤ j → j < fs.fs_frag →
            fragacct fs (blkmap fs map (q / fs.fs_frag * fs.fs_frag))
              (fragacct fs (blkmap fs (s.cgs g).cg_free (q / fs.fs_frag * fs.fs_frag))
                (s.cgs g).cg_frsum (-1)) 1 j =
            (s.cgs g).cg_frsum j -
              runs (window fs.fs_frag (isset (s.cgs g).cg_free) (q / fs.fs_frag))
                fs.fs_frag j +
              runs (window fs.fs_frag (isset map) (q / fs.fs_frag)) fs.fs_frag j := by
          intro j hj hjf
          rw [fragacct_apply, fragacct_apply, if_pos ⟨hj, hjf⟩, if_pos ⟨hj, hjf⟩]
          ring
        by_cases hre : isblock fs map (q / fs.fs_frag) = true
        · -- the block is reassembled
          rw [if_pos hre] at h
          have hst : addnbfree (addnffree (addnffree s g k) g (-fs.fs_frag)) g 1 =
              addcs s g ⟨0, 1, 0, k - 1 * fs.fs_frag⟩ := by
            rw [addnffree_eq, addnffree_eq, addnbfree_eq, addcs_addcs, addcs_addcs]
            congr 1
            apply csum.eq_of
            · rfl
            · rfl
            · rfl
            · show (k : ℤ) + (-(fs.fs_frag : ℤ) + 0) = (k : ℤ) - 1 * fs.fs_frag
              ring
          rw [hst] at h
          refine gave_frags hc hg hh hmap (x := 1) (if_pos hre).symm ?_ ?_ hfr ?_ ?_ ?_
            (Option.some.inj h).symm
          · rfl
          · apply csum.eq_of
            · exact (add_zero _).symm
            · rfl
            · exact (add_zero _).symm
            · show (s.cgs g).cg_cs.cs_nffree + (k : ℤ) + -(fs.fs_frag : ℤ) =
                (s.cgs g).cg_cs.cs_nffree + ((k : ℤ) - 1 * fs.fs_frag)
              ring
          · intro c
            exact addbtot_btot ..
          · intro c r
            exact addbtot_b ..
          · exact ⟨rfl, rfl, rfl, rfl, rfl, rfl⟩
        · rw [if_neg hre] at h
          have hst : addnffree s g k = addcs s g ⟨0, 0, 0, k - 0 * fs.fs_frag⟩ := by
            rw [addnffree_eq]
            congr 2
            ring
          rw [hst] at h
          refine gave_frags hc hg hh hmap (x := 0) (if_neg hre).symm ?_ ?_ hfr ?_ ?_ ?_
            (Option.some.inj h).symm
          · rfl
          · apply csum.eq_of
            · exact (add_zero _).symm
            · exact (add_zero _).symm
            · exact (add_zero _).symm
            · show (s.cgs g).cg_cs.cs_nffree + (k : ℤ) =
                (s.cgs g).cg_cs.cs_nffree + ((k : ℤ) - 0 * fs.fs_frag)
              ring
          · intro c
            simp only [ite_self, add_zero]
            rfl
          · intro c r
            simp only [ite_self, add_zero]
            rfl
          · exact ⟨rfl, rfl, rfl, rfl, rfl, rfl⟩

/-! ## Runs -/

/-- The operations on blocks and fragments; `readable` sets which cylinder group
blocks can be read from now on. -/
inductive Op
  | alloccg (cg bpref size : ℕ)
  | fragextend (cg bprev osize nsize : ℕ)
  | free (bno size : ℕ)
  | readable (cgerr : ℕ → Bool)

/-- A size of a piece: whole fragments, at most a block. -/
def Size (fs : Ufs.fs) (size : ℕ) : Prop :=
  0 < size ∧ size ≤ fs.fs_bsize ∧ fragoff fs size = 0

/-- The `size` bytes at `bno` are an allocated piece: what an inode refers to. -/
structure Allocated (fs : Ufs.fs) (s : State) (bno size : ℕ) : Prop where
  sized : Size fs size
  group : dtog fs bno < fs.fs_ncg
  held : Held fs s (dtog fs bno) (dtogd fs bno) (numfrags fs size)

/-- What the callers promise: sizes of pieces, and to extend and to free only pieces
that are allocated. -/
def Op.Ok (fs : Ufs.fs) (s : State) : Op → Prop
  | .alloccg cg _ size => cg < fs.fs_ncg ∧ Size fs size
  | .fragextend cg bprev osize nsize =>
      cg = dtog fs bprev ∧ Allocated fs s bprev osize ∧ Size fs nsize ∧ osize < nsize
  | .free bno size => Allocated fs s bno size
  | .readable _ => True

/-- The state an operation leaves; `none` is a panic. -/
def Op.exec (fs : Ufs.fs) (s : State) : Op → Option State
  | .alloccg cg bpref size => (Ufs.alloccg fs cg bpref size s).map Prod.snd
  | .fragextend cg bprev osize nsize => (Ufs.fragextend fs cg bprev osize nsize s).map Prod.snd
  | .free bno size => Ufs.free fs bno size s
  | .readable cgerr => some { s with cgerr := cgerr }

def Step (fs : Ufs.fs) (s : State) (op : Op) (s' : State) : Prop :=
  op.Ok fs s ∧ op.exec fs s = some s'

theorem Size.eq_mul (h : Size fs size) :
    size = numfrags fs size * fs.fs_fsize ∧ 0 < numfrags fs size ∧
      numfrags fs size ≤ fs.fs_frag := by
  obtain ⟨h0, h1, h2⟩ := h
  have heq : size = numfrags fs size * fs.fs_fsize := by
    exact (Nat.div_mul_cancel (Nat.dvd_of_mod_eq_zero h2)).symm
  refine ⟨heq, Nat.pos_of_ne_zero fun hz => ?_, ?_⟩
  · rw [hz, Nat.zero_mul] at heq
    omega
  · rw [heq, fs.bsize_eq] at h1
    exact Nat.le_of_mul_le_mul_right h1 fs.fsize_pos

theorem dtog_dtogd (fs : Ufs.fs) (b : ℕ) : dtog fs b * fs.fs_fpg + dtogd fs b = b := by
  rw [Nat.mul_comm]
  exact Nat.div_add_mod b fs.fs_fpg

theorem Took.consistent (ht : Took fs s s' g q k) (hc : Consistent fs s) (hg : g < fs.fs_ncg) :
    Consistent fs s' := by
  obtain ⟨d, hw⟩ := ht.wrote
  exact hw.consistent hc hg

theorem Gave.consistent (ht : Gave fs s s' g q k) (hc : Consistent fs s) (hg : g < fs.fs_ncg) :
    Consistent fs s' := by
  obtain ⟨d, hw⟩ := ht
  exact hw.consistent hc hg

/-- Each operation keeps the file system consistent. -/
theorem Step.consistent {op : Op} (h : Step fs s op s') (hc : Consistent fs s) :
    Consistent fs s' := by
  obtain ⟨hok, hex⟩ := h
  cases op with
  | alloccg cg bpref size =>
    obtain ⟨hg, hsize⟩ := hok
    obtain ⟨⟨bno, t⟩, hrun, rfl⟩ := Option.map_eq_some_iff.mp hex
    obtain ⟨heq, hpos, hle⟩ := hsize.eq_mul
    rw [heq] at hrun
    rcases alloccg_spec hc hg hpos hle hrun with ⟨-, -, rfl⟩ | ⟨-, q, -, ht⟩
    · exact hc
    · exact ht.consistent hc hg
  | fragextend cg bprev osize nsize =>
    obtain ⟨rfl, hal, hsize, hlt⟩ := hok
    obtain ⟨⟨res, t⟩, hrun, rfl⟩ := Option.map_eq_some_iff.mp hex
    obtain ⟨hn, -, hnle⟩ := hsize.eq_mul
    obtain ⟨ho, -, -⟩ := hal.sized.eq_mul
    have hon : numfrags fs osize < numfrags fs nsize := by
      rw [hn, ho] at hlt
      exact Nat.lt_of_mul_lt_mul_right hlt
    have hb := dtog_dtogd fs bprev
    rw [hn, ho] at hrun
    nth_rewrite 2 [← hb] at hrun
    rcases fragextend_spec hc hal.group hal.held hon hnle hrun with ⟨-, -, rfl⟩ | ⟨-, -, -, ht⟩
    · exact hc
    · exact ht.consistent hc hal.group
  | free bno size =>
    obtain ⟨heq, -, -⟩ := hok.sized.eq_mul
    have hrun : free fs bno size s = some s' := hex
    rw [heq, ← dtog_dtogd fs bno] at hrun
    rcases free_spec hc hok.group hok.held hrun with ⟨he, -⟩ | ⟨-, -, ht⟩
    · rw [he]
      exact hc
    · exact ht.consistent hc hok.group
  | readable cgerr =>
    cases hex
    exact ⟨hc.counted, hc.rotors, hc.cgx, hc.cs, hc.total⟩

/-- **The summaries stay right**: in every state a sequence of operations reaches from
a consistent one, the counters of every group are the counts of its map, and the
summary information of the super block is theirs and its sum. -/
theorem consistent_of_run {ops : List Op} (h : Run (Step fs) s ops s') (hc : Consistent fs s) :
    Consistent fs s' :=
  h.invariant (fun _ _ _ hc hs => hs.consistent hc) hc

theorem Step.of_isSome {op : Op} (hok : op.Ok fs s) (h : (op.exec fs s).isSome = true) :
    Step fs s op ((op.exec fs s).get h) :=
  ⟨hok, (Option.some_get h).symm⟩

theorem tiny_pos : 0 < 8 := by decide

/-- A file system of one group with four blocks of four fragments. -/
def tiny : Ufs.fs where
  fs_size := 16
  fs_dsize := 16
  fs_ncg := 1
  fs_bsize := 2048
  fs_fsize := 512
  fs_frag := 4
  fs_minfree := 0
  fs_nindir := 512
  fs_nspf := 1
  fs_nsect := 8
  fs_spc := 8
  fs_ipg := 8
  fs_fpg := 16
  fs_cpc := 0
  fs_rotdelay := 0
  fs_rps := 60
  fs_maxcontig := 1
  fs_maxbpg := 4
  fs_postbl := fun _ _ => -1
  fs_rotbl := fun _ => 0
  frag_mem := by decide
  bsize_eq := by decide
  fsize_pos := by decide
  frag_dvd_fpg := by decide
  fpg_pos := Nat.zero_lt_succ 15
  size_le := by decide
  bsize_le := by decide
  bsize_pow := ⟨11, by decide⟩
  nindir_eq := by decide
  dev_dvd := by decide
  ipg_dvd := by decide
  ipg_pos := tiny_pos

/-- Its group with the free map `map`, and counters that count it. -/
def tinyCg (map : BitVec 16) : cg :=
  let free : ℕ → BitVec 8 := fun i => map.extractLsb' (NBBY * i) NBBY
  { cg_cgx := 0
    cg_cs := ⟨0, freeBlocks tiny (isset free), 0, freeFrags tiny (isset free)⟩
    cg_rotor := 0
    cg_frotor := 0
    cg_irotor := 0
    cg_frsum := freeRuns tiny (isset free)
    cg_btot := freeOnCyl tiny (isset free)
    cg_b := freeAtPos tiny (isset free)
    cg_iused := fun _ => 0xff
    cg_magic := CG_MAGIC
    cg_free := free }

def tinyState (map : BitVec 16) : State where
  fs_cstotal := (tinyCg map).cg_cs
  fs_cs := fun _ => (tinyCg map).cg_cs
  cgs := fun _ => tinyCg map
  cgerr := fun _ => false

theorem tinyState_consistent (map : BitVec 16) : Consistent tiny (tinyState map) := by
  refine ⟨fun g _ => ⟨rfl, rfl, fun _ _ _ => rfl, fun _ => rfl, fun _ _ => rfl, ?_⟩,
    fun g _ => ⟨?_, ?_⟩, fun g hg => ?_, fun g _ => rfl, ?_⟩
  · intro i hi
    have hle : (16 : ℕ) ≤ i := hi
    show (map.extractLsb' (NBBY * (i / NBBY)) NBBY).getLsbD (i % NBBY) = false
    rw [BitVec.getLsbD_extractLsb', Nat.div_add_mod, map.getLsbD_of_ge i hle, Bool.and_false]
  · show 0 < 16
    omega
  · show 0 / NBBY < howmany 16 NBBY
    decide
  · have : g < 1 := hg
    show 0 = g
    omega
  · show _ = ∑ g ∈ range 1, _
    rw [sum_range_one]
    rfl

instance (fs : Ufs.fs) (size : ℕ) : Decidable (Size fs size) :=
  inferInstanceAs (Decidable (_ ∧ _ ∧ _))

instance (fs : Ufs.fs) (s : State) (bno size : ℕ) : Decidable (Allocated fs s bno size) :=
  decidable_of_iff (Size fs size ∧ dtog fs bno < fs.fs_ncg ∧
      ((0 < numfrags fs size ∧
        dtogd fs bno % fs.fs_frag + numfrags fs size ≤ fs.fs_frag) ∧
      dtogd fs bno + numfrags fs size ≤ fs.fs_fpg ∧
      ∀ j < numfrags fs size, isset (s.cgs (dtog fs bno)).cg_free (dtogd fs bno + j) = false))
    ⟨fun ⟨h1, h2, h3, h4, h5⟩ => ⟨h1, h2, h3, h4, h5⟩,
      fun ⟨h1, h2, h3, h4, h5⟩ => ⟨h1, h2, h3, h4, h5⟩⟩

instance (fs : Ufs.fs) (s : State) (op : Op) : Decidable (op.Ok fs s) :=
  match op with
  | .alloccg _ _ _ => inferInstanceAs (Decidable (_ ∧ _))
  | .fragextend _ _ _ _ => inferInstanceAs (Decidable (_ ∧ _ ∧ _ ∧ _))
  | .free _ _ => inferInstanceAs (Decidable (Allocated _ _ _ _))
  | .readable _ => inferInstanceAs (Decidable True)

/-- Fragments 1 and 2 and the second block are free: a fragment is taken, extended and
given back, then a block is taken and given back. -/
theorem consistent_of_run_tiny :
    ∃ s', Run (Step tiny) (tinyState 0xf6) [.alloccg 0 0 512, .fragextend 0 1 512 1024,
      .alloccg 0 0 2048, .free 1 1024, .free 4 2048] s' ∧ Consistent tiny s' := by
  have hrun : ∃ s', Run (Step tiny) (tinyState 0xf6) [.alloccg 0 0 512,
      .fragextend 0 1 512 1024, .alloccg 0 0 2048, .free 1 1024, .free 4 2048] s' :=
    ⟨_, .cons (.of_isSome (by decide +kernel) (by decide +kernel)) <|
      .cons (.of_isSome (by decide +kernel) (by decide +kernel)) <|
      .cons (.of_isSome (by decide +kernel) (by decide +kernel)) <|
      .cons (.of_isSome (by decide +kernel) (by decide +kernel)) <|
      .cons (.of_isSome (by decide +kernel) (by decide +kernel)) <| .nil _⟩
  obtain ⟨s', h⟩ := hrun
  exact ⟨s', h, consistent_of_run h (tinyState_consistent _)⟩

end Ufs
