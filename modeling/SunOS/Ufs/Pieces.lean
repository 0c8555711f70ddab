/-
# Pieces of the disk

What the allocator does, told in fragment addresses: which fragments are free, the
pieces in use, and how a call that succeeds replaces one piece by another and leaves
every other piece and its contents alone.
-/
import SunOS.Ufs.AllocErrors
import SunOS.Ufs.Bmap

namespace Ufs

open Function (update update_of_ne update_self)

variable {fs : Ufs.fs} {u : user} {s s' : State} {k k' : Kern} {b g m n o ob nb q x : ℕ}
  {d : csum} {f : ℕ → Bool}

/-! ## Fragments -/

/-- Fragment `b` is free. -/
def isfree (fs : Ufs.fs) (s : State) (b : ℕ) : Bool :=
  isset (s.cgs (dtog fs b)).cg_free (dtogd fs b)

/-- `x` is one of the `n` fragments at `b`. -/
def Within (b n x : ℕ) : Prop := b ≤ x ∧ x < b + n

instance : Decidable (Within b n x) := inferInstanceAs (Decidable (_ ∧ _))

/-- The `n` fragments at `b` are in use, and a piece of one block. -/
structure InUse (fs : Ufs.fs) (s : State) (b n : ℕ) : Prop where
  ne : b ≠ 0
  pos : 0 < n
  block : b % fs.fs_frag + n ≤ fs.fs_frag
  group : dtog fs b < fs.fs_ncg
  busy : ∀ x, Within b n x → isfree fs s x = false

/-- The `n` fragments at `b` were free and are now in use. -/
structure Taken (fs : Ufs.fs) (s s' : State) (b n : ℕ) : Prop where
  was : ∀ x, Within b n x → isfree fs s x = true
  now : ∀ x, isfree fs s' x = (isfree fs s x && !decide (Within b n x))

theorem Taken.of_free (ht : Taken fs s s' b n) (hx : isfree fs s' x = true) :
    isfree fs s x = true := by
  rw [ht.now, Bool.and_eq_true] at hx
  exact hx.1

/-- The `n` fragments at `b` are now free. -/
def Freed (fs : Ufs.fs) (s s' : State) (b n : ℕ) : Prop :=
  ∀ x, isfree fs s' x = (isfree fs s x || decide (Within b n x))

theorem within_iff (hq : q + n ≤ fs.fs_fpg) :
    Within (g * fs.fs_fpg + q) n x ↔ dtog fs x = g ∧ q ≤ dtogd fs x ∧ dtogd fs x < q + n := by
  have hx := dtog_dtogd fs x
  constructor
  · rintro ⟨h1, h2⟩
    have hg : dtog fs x = g := by
      have : x = g * fs.fs_fpg + (x - g * fs.fs_fpg) := by lia
      rw [this]
      exact dtog_eq fs g (by lia)
    exact ⟨hg, by lia, by lia⟩
  · rintro ⟨rfl, h1, h2⟩
    unfold Within
    lia

theorem Wrote.isfree (hw : Wrote fs s s' g d f) (x : ℕ) :
    isfree fs s' x = if dtog fs x = g then f (dtogd fs x) else isfree fs s x := by
  obtain ⟨cgp', -, hf, rfl⟩ := hw
  unfold Ufs.isfree
  by_cases hx : dtog fs x = g
  · rw [if_pos hx, hx, ← hf]
    show isset (update s.cgs g cgp' g).cg_free (dtogd fs x) = _
    rw [update_self]
  · rw [if_neg hx]
    show isset (update s.cgs g cgp' (dtog fs x)).cg_free (dtogd fs x) = _
    rw [update_of_ne hx]

theorem Took.taken (ht : Took fs s s' g q n) : Taken fs s s' (g * fs.fs_fpg + q) n := by
  obtain ⟨d, hw⟩ := ht.wrote
  refine ⟨fun x hx => ?_, fun x => ?_⟩
  · obtain ⟨rfl, h1, h2⟩ := (within_iff ht.inside).mp hx
    have := ht.free (dtogd fs x - q) (by omega)
    rwa [show q + (dtogd fs x - q) = dtogd fs x by omega] at this
  · rw [hw.isfree]
    unfold clearBits
    by_cases hx : Within (g * fs.fs_fpg + q) n x
    · obtain ⟨h1, h2⟩ := (within_iff ht.inside).mp hx
      rw [if_pos h1, if_pos h2, decide_eq_true hx, Bool.not_true, Bool.and_false]
    · rw [decide_eq_false hx, Bool.not_false, Bool.and_true]
      by_cases h1 : dtog fs x = g
      · rw [if_pos h1, if_neg (fun h2 => hx ((within_iff ht.inside).mpr ⟨h1, h2⟩))]
        subst h1
        rfl
      · rw [if_neg h1]

theorem Gave.freed (hq : q + n ≤ fs.fs_fpg) (hg : Gave fs s s' g q n) :
    Freed fs s s' (g * fs.fs_fpg + q) n := by
  obtain ⟨d, hw⟩ := hg
  intro x
  rw [hw.isfree]
  unfold setRange
  by_cases hx : Within (g * fs.fs_fpg + q) n x
  · obtain ⟨h1, h2⟩ := (within_iff hq).mp hx
    rw [if_pos h1, if_pos h2, decide_eq_true hx, Bool.or_true]
  · rw [decide_eq_false hx, Bool.or_false]
    by_cases h1 : dtog fs x = g
    · rw [if_pos h1, if_neg (fun h2 => hx ((within_iff hq).mpr ⟨h1, h2⟩))]
      subst h1
      rfl
    · rw [if_neg h1]

/-- Rewriting a group does not change which groups can be read. -/
theorem Wrote.readable (hw : Wrote fs s s' g d f) (x : ℕ) :
    breadcg s' x = none ↔ breadcg s x = none := by
  obtain ⟨cgp', hr, -, rfl⟩ := hw
  have hmagic : (update s.cgs g cgp' x).cg_magic = (s.cgs x).cg_magic := by
    by_cases hx : x = g
    · rw [hx, update_self, hr.magic]
    · rw [update_of_ne hx]
  unfold breadcg
  show (if (s.cgerr x || (update s.cgs g cgp' x).cg_magic != CG_MAGIC) = true then none
    else some _) = none ↔ _
  rw [hmagic]
  split <;> simp

/-- The boot block is fragment 0. -/
theorem bootHeld_iff : BootHeld s ↔ isfree fs s 0 = false := by
  unfold BootHeld isfree dtog dtogd
  rw [Nat.zero_div, Nat.zero_mod]

/-- A group was rewritten without freeing the boot block: the file system stays sound. -/
theorem Sound.wrote (hs : Sound fs k) (hg : g < fs.fs_ncg) (hw : Wrote fs k.fsys s' g d f)
    (hboot : isfree fs s' 0 = false) (hfs : k'.fsys = s') (hn : k'.ip.i_number = k.ip.i_number) :
    Sound fs k' := by
  subst hfs
  refine ⟨hw.consistent hs.consistent hg, bootHeld_iff.mpr hboot, ?_, fun x hx => ?_, ?_⟩
  · obtain ⟨cgp', hr, -, heq⟩ := hw
    rw [heq]
    show isset (update k.fsys.cgs g cgp' 0).cg_iused 0 = true
    by_cases h0 : (0 : ℕ) = g
    · rw [h0, update_self, hr.iused, ← h0]
      exact hs.inode0
    · rw [update_of_ne h0]
      exact hs.inode0
  · obtain ⟨cgp', hr, -, heq⟩ := hw
    rw [heq]
    show (update k.fsys.cgs g cgp' x).cg_irotor < _
    by_cases h0 : x = g
    · rw [h0, update_self, hr.irotor]
      exact hs.irotor g hg
    · rw [update_of_ne h0]
      exact hs.irotor x hx
  · rw [hn]
    exact hs.number

theorem Took.sound (hs : Sound fs k) (hg : g < fs.fs_ncg) (ht : Took fs k.fsys s' g q n)
    (hfs : k'.fsys = s') (hn : k'.ip.i_number = k.ip.i_number) : Sound fs k' := by
  obtain ⟨d, hw⟩ := ht.wrote
  refine hs.wrote hg hw ?_ hfs hn
  rw [ht.taken.now, bootHeld_iff.mp hs.boot, Bool.false_and]

theorem Took.readable (ht : Took fs s s' g q n) (x : ℕ) :
    breadcg s' x = none ↔ breadcg s x = none := by
  obtain ⟨d, hw⟩ := ht.wrote
  exact hw.readable x

theorem Sound.of_eq (hs : Sound fs k) (hfs : k'.fsys = k.fsys)
    (hn : k'.ip.i_number = k.ip.i_number) : Sound fs k' :=
  ⟨hfs ▸ hs.consistent, hfs ▸ hs.boot, hfs ▸ hs.inode0, hfs ▸ hs.irotor, hn ▸ hs.number⟩

theorem mod_frag (fs : Ufs.fs) (g q : ℕ) :
    (g * fs.fs_fpg + q) % fs.fs_frag = q % fs.fs_frag :=
  fragnum_eq fs g q

/-- A piece of one block lies inside its group. -/
theorem piece_inside (hn : b % fs.fs_frag + n ≤ fs.fs_frag) :
    dtogd fs b + n ≤ fs.fs_fpg := by
  have hlt : dtogd fs b < fs.fs_fpg := Nat.mod_lt _ fs.fpg_pos
  have hmod : dtogd fs b % fs.fs_frag = b % fs.fs_frag := by
    rw [← mod_frag fs (dtog fs b), dtog_dtogd]
  obtain ⟨c, hc⟩ := fs.frag_dvd_fpg
  have hdm := Nat.div_add_mod (dtogd fs b) fs.fs_frag
  have hpos := fs.frag_pos
  have hblk : dtogd fs b / fs.fs_frag < c := by
    rw [Nat.div_lt_iff_lt_mul hpos, Nat.mul_comm, ← hc]
    exact hlt
  have := Nat.mul_le_mul_left fs.fs_frag (Nat.succ_le_of_lt hblk)
  rw [← hc, Nat.mul_succ] at this
  omega

theorem InUse.held (h : InUse fs s b n) : Held fs s (dtog fs b) (dtogd fs b) n := by
  have hin := piece_inside h.block
  refine ⟨⟨h.pos, ?_⟩, hin, fun j hj => ?_⟩
  · rw [← mod_frag fs (dtog fs b), dtog_dtogd]
    exact h.block
  · have hlt : dtogd fs b + j < fs.fs_fpg := by omega
    have := h.busy (b + j) ⟨by omega, by omega⟩
    unfold isfree at this
    rwa [← dtog_dtogd fs b, Nat.add_assoc, dtog_eq fs _ hlt, dtogd_eq fs _ hlt] at this

theorem InUse.allocated (h : InUse fs s b n) : Allocated fs s b (n * fs.fs_fsize) := by
  have hnf : n ≤ fs.fs_frag := by
    have := h.block
    omega
  refine ⟨⟨Nat.mul_pos h.pos fs.fsize_pos, ?_, Nat.mul_mod_left ..⟩, h.group, ?_⟩
  · rw [fs.bsize_eq]
    exact Nat.mul_le_mul_right _ hnf
  · rw [numfrags_mul]
    exact h.held

theorem InUse.mono (h : InUse fs s b n) (hb : ∀ x, Within b n x → isfree fs s' x = false) :
    InUse fs s' b n :=
  ⟨h.ne, h.pos, h.block, h.group, hb⟩

/-- A piece just taken is in use. -/
theorem Took.inUse (ht : Took fs s s' g q n) (hg : g < fs.fs_ncg) (hne : g * fs.fs_fpg + q ≠ 0) :
    InUse fs s' (g * fs.fs_fpg + q) n := by
  have hq : q < fs.fs_fpg := by
    have := ht.inside
    have := ht.piece.1
    omega
  refine ⟨hne, ht.piece.1, ?_, ?_, fun x hx => ?_⟩
  · rw [mod_frag]
    exact ht.piece.2
  · rw [dtog_eq fs g hq]
    exact hg
  · rw [ht.taken.now, decide_eq_true hx, Bool.not_true, Bool.and_false]

/-! ## Replacing a piece -/

/-- The piece of `o` fragments at `ob` (none when `o = 0`) was replaced by the `n`
fragments at `nb`: the contents went along, what is new is cleared, and every other
fragment in use is as before. -/
structure Swapped (fs : Ufs.fs) (k k' : Kern) (ob o nb n : ℕ) : Prop where
  sound : Sound fs k'
  new : InUse fs k'.fsys nb n
  fresh : ∀ x, Within nb n x → isfree fs k.fsys x = true ∨ Within ob o x
  busy : ∀ x, isfree fs k.fsys x = false → ¬ Within ob o x → isfree fs k'.fsys x = false
  freed : ∀ x, isfree fs k'.fsys x = true → isfree fs k.fsys x = true ∨ Within ob o x
  blk : ∀ x, isfree fs k.fsys x = false → ¬ Within ob o x → k'.blk x = k.blk x
  bap : ∀ x, isfree fs k.fsys x = false → ¬ Within ob o x → k'.bap x = k.bap x
  moved : ∀ j < o, k'.blk (nb + j) = k.blk (ob + j)
  zero : ∀ j, o ≤ j → j < n → k'.blk (nb + j) = (fun _ => 0) ∧ k'.bap (nb + j) = fun _ => 0
  blkerr : k'.blkerr = k.blkerr
  readable : ∀ x, breadcg k'.fsys x = none ↔ breadcg k.fsys x = none
  quota : ∀ uid, (k'.dquots uid).dq_curblocks = chargedBlocks k (btodb ((n - o) * fs.fs_fsize)) uid

theorem not_within_zero : ¬ Within b 0 x := by
  unfold Within
  omega

/-- **`alloc` replaces nothing by a piece of the size asked for.** -/
theorem alloc_some {bpref : ℕ} (hs : Sound fs k) (hn : 0 < n) (hnf : n ≤ fs.fs_frag)
    (h : alloc fs u bpref (n * fs.fs_fsize) k = some (some b, k')) :
    Swapped fs k k' 0 0 b n ∧
      k'.ip = { k.ip with i_blocks := k.ip.i_blocks + btodb (n * fs.fs_fsize) } := by
  rcases alloc_cases hs hn hnf h with
    ⟨-, hk⟩ | ⟨-, e, k1, -, hres, -⟩ | ⟨-, k1, hq,
      ⟨-, hres, -⟩ | ⟨g, q, s', hg, -, hne, ht, hres, rfl⟩⟩
  · cases hk
  · cases hres
  · cases hres
  · obtain rfl := Option.some.inj hres
    obtain ⟨⟨⟨dqs, rfl⟩, -⟩, -, hcur⟩ := chkdq_spec (Int.natCast_nonneg _) hq
    have htk := ht.taken
    have hout : ∀ x, isfree fs k.fsys x = false → ¬ Within (g * fs.fs_fpg + q) n x := by
      intro x hx hw
      rw [htk.was x hw] at hx
      simp at hx
    refine ⟨⟨?_, ht.inUse hg hne, fun x hx => .inl (htk.was x hx), ?_, fun x hx => .inl ?_, ?_, ?_,
      fun j hj => absurd hj (Nat.not_lt_zero j), ?_, rfl, ht.readable, ?_⟩, rfl⟩
    · exact ht.sound hs hg rfl rfl
    · intro x hx _
      show isfree fs s' x = false
      rw [htk.now, hx, Bool.false_and]
    · exact htk.of_free hx
    · intro x hx _
      exact if_neg (hout x hx)
    · intro x hx _
      exact if_neg (hout x hx)
    · intro j _ hj
      exact ⟨if_pos ⟨by omega, by omega⟩, if_pos ⟨by omega, by omega⟩⟩
    · exact hcur

/-- `free` gives a piece in use back, unless its group cannot be read or it lies behind
the file system; nothing else changes. -/
theorem Kern.free_spec (hs : Sound fs k) (hu : InUse fs k.fsys b n)
    (h : k.free fs b (n * fs.fs_fsize) = some k') :
    Sound fs k' ∧ ∃ s', k' = { k with fsys := s' } ∧
      ((s' = k.fsys ∧ (fs.fs_size ≤ b ∨ breadcg k.fsys (dtog fs b) = none)) ∨
        (Freed fs k.fsys s' b n ∧ ∀ x, breadcg s' x = none ↔ breadcg k.fsys x = none)) := by
  obtain ⟨s', hf, rfl⟩ := Option.map_eq_some_iff.mp h
  have hb := dtog_dtogd fs b
  have hin := piece_inside hu.block
  rw [← hb] at hf
  rcases free_spec hs.consistent hu.group hu.held hf with ⟨rfl, hno⟩ | ⟨-, -, hgave⟩
  · rw [hb] at hno
    exact ⟨hs.of_eq rfl rfl, _, rfl, .inl ⟨rfl, hno⟩⟩
  · have hfr := hgave.freed hin
    rw [hb] at hfr
    obtain ⟨d, hw⟩ := hgave
    have hboot : isfree fs s' 0 = false := by
      rw [hfr 0, bootHeld_iff.mp hs.boot, Bool.false_or, decide_eq_false_iff_not]
      intro h0
      have := hu.ne
      have := h0.1
      omega
    exact ⟨hs.wrote hu.group hw hboot rfl rfl, s', rfl, .inr ⟨hfr, hw.readable⟩⟩

/-! ## Growing a fragment -/

/-- `blkpref` moves its rotor only. -/
theorem blkpref_same (fs : Ufs.fs) (lbn indx : ℕ) (bap : ℕ → ℕ) (k : Kern) :
    ∃ r, (blkpref fs lbn indx bap k).2 = { k with fs_cgrotor := r } := by
  unfold blkpref
  simp only
  by_cases h1 : indx % fs.fs_maxbpg = 0 ∨ bap (indx - 1) = 0
  · rw [if_pos h1]
    by_cases h2 : lbn < NDADDR
    · rw [if_pos h2]
      exact ⟨k.fs_cgrotor, rfl⟩
    · rw [if_neg h2]
      split
      · exact ⟨_, rfl⟩
      · split
        · exact ⟨_, rfl⟩
        · exact ⟨k.fs_cgrotor, rfl⟩
  · rw [if_neg h1]
    split
    · exact ⟨k.fs_cgrotor, rfl⟩
    · split
      · exact ⟨k.fs_cgrotor, rfl⟩
      · exact ⟨k.fs_cgrotor, rfl⟩

/-- The fragment is extended in place. -/
theorem swapped_extended {k1 : Kern} (hs : Sound fs k) (hu : InUse fs k.fsys (g * fs.fs_fpg + q) o)
    (hon : o < n) (hblk : q % fs.fs_frag + n ≤ fs.fs_frag) (hg : g < fs.fs_ncg)
    (ht : Took fs k.fsys s' g (q + o) (n - o))
    (hq : chkdq u (btodb ((n - o) * fs.fs_fsize)) false k = (none, k1)) :
    Swapped fs k ((({ k1 with u_error := none, fsys := s' } : Kern).clrfrags
        (g * fs.fs_fpg + q + o) (n - o)).addblocks (btodb ((n - o) * fs.fs_fsize)))
      (g * fs.fs_fpg + q) o (g * fs.fs_fpg + q) n := by
  obtain ⟨⟨⟨dqs, rfl⟩, -⟩, -, hcur⟩ := chkdq_spec (Int.natCast_nonneg _) hq
  have htk := ht.taken
  rw [← Nat.add_assoc] at htk
  have hout : ∀ x, isfree fs k.fsys x = false → ¬ Within (g * fs.fs_fpg + q + o) (n - o) x := by
    intro x hx hw
    rw [htk.was x hw] at hx
    simp at hx
  have hsplit : ∀ x, Within (g * fs.fs_fpg + q) n x →
      Within (g * fs.fs_fpg + q) o x ∨ Within (g * fs.fs_fpg + q + o) (n - o) x := by
    intro x hx
    unfold Within at *
    lia
  refine ⟨ht.sound hs hg rfl rfl, ⟨hu.ne, by lia, ?_, hu.group, fun x hx => ?_⟩, fun x hx => ?_,
    fun x hx _ => ?_, fun x hx => .inl (htk.of_free hx), fun x hx _ => if_neg (hout x hx),
    fun x hx _ => if_neg (hout x hx), fun j hj => ?_, fun j hj hjn =>
      ⟨if_pos ⟨by lia, by lia⟩, if_pos ⟨by lia, by lia⟩⟩,
    rfl, ht.readable, hcur⟩
  · rw [mod_frag]
    exact hblk
  · show isfree fs s' x = false
    rw [htk.now]
    rcases hsplit x hx with h | h
    · rw [hu.busy x h, Bool.false_and]
    · rw [decide_eq_true h, Bool.not_true, Bool.and_false]
  · rcases hsplit x hx with h | h
    · exact .inr h
    · exact .inl (htk.was x h)
  · show isfree fs s' x = false
    rw [htk.now, hx, Bool.false_and]
  · refine if_neg fun h => ?_
    lia

/-- The fragment is copied to a new piece, and then freed. -/
theorem swapped_moved {k1 : Kern} (hs : Sound fs k) (hu : InUse fs k.fsys ob o)
    (hon : o < n) (hg : g < fs.fs_ncg) (hne : g * fs.fs_fpg + q ≠ 0)
    (ht : Took fs k.fsys s' g q n)
    (hq : chkdq u (btodb ((n - o) * fs.fs_fsize)) false k = (none, k1)) (bn : ℕ)
    (hf : Kern.free fs ((((({ k1 with u_error := none, fsys := s' } : Kern).copyfrags ob
      (g * fs.fs_fpg + q) o).clrfrags (g * fs.fs_fpg + q + o) (n - o)).addblocks
        (btodb ((n - o) * fs.fs_fsize))).setdb bn (g * fs.fs_fpg + q)) ob (o * fs.fs_fsize) =
          some k') :
    Swapped fs k k' ob o (g * fs.fs_fpg + q) n ∧
      k'.ip = { k.ip with
        i_db := update k.ip.i_db bn (g * fs.fs_fpg + q)
        i_blocks := k.ip.i_blocks + btodb ((n - o) * fs.fs_fsize) } := by
  obtain ⟨⟨⟨dqs, rfl⟩, -⟩, -, hcur⟩ := chkdq_spec (Int.natCast_nonneg _) hq
  have htk := ht.taken
  have hout : ∀ x, isfree fs k.fsys x = false → ¬ Within (g * fs.fs_fpg + q) n x := by
    intro x hx hw
    rw [htk.was x hw] at hx
    simp at hx
  have hkeep : ∀ x, isfree fs k.fsys x = false → isfree fs s' x = false := by
    intro x hx
    rw [htk.now, hx, Bool.false_and]
  -- the copy has the new piece, and still the old one
  obtain ⟨hs', s2, rfl, hfree⟩ := Kern.free_spec (k := (((({ k with
      dquots := dqs, u_error := none, fsys := s' } : Kern).copyfrags ob (g * fs.fs_fpg + q)
        o).clrfrags (g * fs.fs_fpg + q + o) (n - o)).addblocks
          (btodb ((n - o) * fs.fs_fsize))).setdb bn (g * fs.fs_fpg + q))
    (ht.sound hs hg rfl rfl) (hu.mono fun x hx => hkeep x (hu.busy x hx)) hf
  have hnew := ht.inUse hg hne
  have hbusy : ∀ x, isfree fs s' x = false → ¬ Within ob o x → isfree fs s2 x = false := by
    intro x hx hw
    rcases hfree with ⟨rfl, -⟩ | ⟨hfr, -⟩
    · exact hx
    · rw [hfr x]
      show (isfree fs s' x || _) = false
      rw [hx, decide_eq_false hw, Bool.false_or]
  have hsep : ∀ x, Within (g * fs.fs_fpg + q) n x → ¬ Within ob o x := by
    intro x hx hw
    exact hout x (hu.busy x hw) hx
  refine ⟨⟨hs', hnew.mono fun x hx => hbusy x (hnew.busy x hx) (hsep x hx),
    fun x hx => .inl (htk.was x hx), fun x hx hw => hbusy x (hkeep x hx) hw, fun x hx => ?_,
    fun x hx _ => ?_, fun x hx _ => if_neg fun h =>
      hout x hx ⟨by have := h.1; lia, by have := h.2; lia⟩,
    fun j hj => ?_, fun j hj hjn => ⟨if_pos ⟨by lia, by lia⟩, if_pos ⟨by lia, by lia⟩⟩,
    rfl, fun x => ?_, hcur⟩, rfl⟩
  · rcases hfree with ⟨rfl, -⟩ | ⟨hfr, -⟩
    · exact .inl (htk.of_free hx)
    · rw [hfr x, Bool.or_eq_true] at hx
      rcases hx with hx | hx
      · exact .inl (htk.of_free hx)
      · exact .inr (of_decide_eq_true hx)
  · have hx' := hout x hx
    unfold Within at hx'
    exact (if_neg (by lia)).trans (if_neg (by lia))
  · refine (if_neg (by lia)).trans ((if_pos ⟨by lia, by lia⟩).trans ?_)
    rw [Nat.add_sub_cancel_left]
  · rcases hfree with ⟨rfl, -⟩ | ⟨-, hread⟩
    · exact ht.readable x
    · exact (hread x).trans (ht.readable x)

/-- **`growdb` replaces the fragment of direct block `bn` by a bigger piece.** -/
theorem growdb_some {bn : ℕ} (hs : Sound fs k) (hu : InUse fs k.fsys (k.ip.i_db bn) o)
    (hon : o < n) (hnf : n ≤ fs.fs_frag)
    (h : growdb fs u bn (o * fs.fs_fsize) (n * fs.fs_fsize) k = some (some nb, k')) :
    Swapped fs k k' (k.ip.i_db bn) o nb n ∧
      k'.ip = { k.ip with
        i_db := update k.ip.i_db bn nb
        i_blocks := k.ip.i_blocks + btodb ((n - o) * fs.fs_fsize) } := by
  obtain ⟨r, hr⟩ := blkpref_same fs bn bn k.ip.i_db k
  unfold growdb at h
  rcases hp : blkpref fs bn bn k.ip.i_db k with ⟨pref, kp⟩
  rw [hp] at hr h
  obtain rfl : kp = { k with fs_cgrotor := r } := hr
  simp only at h
  have hsr : Sound fs { k with fs_cgrotor := r } := hs.of_eq rfl rfl
  cases hc : realloccg fs u (k.ip.i_db bn) pref (o * fs.fs_fsize) (n * fs.fs_fsize)
      { k with fs_cgrotor := r } with
  | none => simp [hc] at h
  | some x =>
    obtain ⟨res, k2⟩ := x
    rw [hc] at h
    rcases realloccg_cases (k := { k with fs_cgrotor := r }) hsr hu.allocated hon hnf hc with
      ⟨-, hk⟩ | ⟨-, e, k1, -, rfl, -⟩ | ⟨-, -, k1, hq, hres⟩
    · obtain ⟨rfl, -⟩ := Prod.mk.inj hk
      simp at h
    · simp at h
    · rcases hres with
        ⟨g, q, s', hg, -, hb, hblk, ht, ⟨-, rfl, -⟩ | ⟨-, rfl, rfl⟩⟩ |
        ⟨-, ⟨-, rfl, -⟩ | ⟨g, q, s', hg, -, hne, ht, ⟨-, rfl, -⟩ | ⟨-, rfl, rfl⟩⟩⟩
      · simp at h
      · simp only [ne_eq, not_true, if_false, Option.some.injEq, Prod.mk.injEq] at h
        obtain ⟨rfl, rfl⟩ := h
        obtain ⟨⟨⟨dqs, hk1⟩, -⟩, -⟩ := chkdq_spec (Int.natCast_nonneg _) hq
        have hu' := hu
        rw [hb] at hu'
        have hsw := swapped_extended hsr hu' hon hblk hg ht hq
        rw [← hb] at hsw
        refine ⟨⟨hsw.sound.of_eq rfl rfl, hsw.new, hsw.fresh, hsw.busy, hsw.freed, hsw.blk, hsw.bap,
          hsw.moved, hsw.zero, hsw.blkerr, hsw.readable, hsw.quota⟩, ?_⟩
        subst hk1
        rfl
      · simp at h
      · simp at h
      · have hneq : g * fs.fs_fpg + q ≠ k.ip.i_db bn := by
          intro heq
          have h1 := ht.taken.was (g * fs.fs_fpg + q) ⟨le_rfl, by have := ht.piece.1; omega⟩
          have h2 := hu.busy (k.ip.i_db bn) ⟨le_rfl, by have := hu.pos; omega⟩
          rw [heq] at h1
          rw [show ({ k with fs_cgrotor := r } : Kern).fsys = k.fsys from rfl, h2] at h1
          simp at h1
        simp only [if_pos hneq] at h
        obtain ⟨k3, hf, hk3⟩ := Option.map_eq_some_iff.mp h
        obtain ⟨h1, rfl⟩ := Prod.mk.inj hk3
        obtain rfl := Option.some.inj h1
        obtain ⟨hsw, hip⟩ := swapped_moved hsr hu hon hg hne ht hq bn hf
        exact ⟨⟨hsw.sound, hsw.new, hsw.fresh, hsw.busy, hsw.freed, hsw.blk, hsw.bap, hsw.moved,
          hsw.zero,
          hsw.blkerr, hsw.readable, hsw.quota⟩, hip⟩

end Ufs
