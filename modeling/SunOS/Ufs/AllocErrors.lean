/-
# What a failed allocation leaves behind

`alloc`, `realloccg` and `ialloc` charge the quota before they search, and
`realloccg` changes the free map before it reads the old fragment.  When one of them
returns `NULL` the state is as before the call exactly when the call stopped before
that, or had nothing to charge.
-/
import SunOS.Ufs.Quota
import SunOS.Ufs.AllocRuns

namespace Ufs

open Option (some.inj)
open Errno

variable {fs : Ufs.fs} {u : user} {s s' : State} {k k' : Kern} {g i ino mode ipref r n : ℕ}
  {cgp : cg}

/-! ## Inodes of a group -/

theorem skpc_le (cp : ℕ → BitVec 8) (size start : ℕ) : skpc cp size start ≤ size := by
  induction size generalizing start with
  | zero => simp [skpc]
  | succ size ih =>
    unfold skpc
    by_cases h : cp start = 0xff
    · rw [if_pos h]
      have := ih (start + 1)
      omega
    · rw [if_neg h]

theorem firstclr_spec {map : BitVec 8} {b : ℕ} (h : firstclr map n i = some b) :
    b < i + n ∧ map.getLsbD b = false := by
  induction n generalizing i with
  | zero => simp [firstclr] at h
  | succ n ih =>
    unfold firstclr at h
    by_cases hb : map.getLsbD i = true
    · rw [if_pos hb] at h
      obtain ⟨h1, h2⟩ := ih h
      exact ⟨by omega, h2⟩
    · rw [if_neg hb] at h
      cases h
      exact ⟨by omega, by simpa using hb⟩

/-- The search of the inode map finds an unused inode of the group. -/
theorem isearch_spec (hr : cgp.cg_irotor < fs.fs_ipg) (h : isearch fs cgp = some i) :
    i < fs.fs_ipg ∧ isset cgp.cg_iused i = false := by
  unfold isearch at h
  simp only at h
  have h1 := skpc_le cgp.cg_iused (howmany (fs.fs_ipg - cgp.cg_irotor) NBBY) (cgp.cg_irotor / NBBY)
  have h2 := skpc_le cgp.cg_iused (cgp.cg_irotor / NBBY + 1) 0
  generalize skpc cgp.cg_iused (howmany (fs.fs_ipg - cgp.cg_irotor) NBBY)
    (cgp.cg_irotor / NBBY) = loc1 at h h1
  generalize skpc cgp.cg_iused (cgp.cg_irotor / NBBY + 1) 0 = loc2 at h h2
  have hfound : ∀ byte, (if loc1 ≠ 0 then
      some (cgp.cg_irotor / NBBY + howmany (fs.fs_ipg - cgp.cg_irotor) NBBY - loc1)
      else if loc2 ≠ 0 then some (cgp.cg_irotor / NBBY + 1 - loc2) else none) = some byte →
      byte * NBBY < fs.fs_ipg := by
    intro byte hb
    unfold howmany NBBY at *
    split_ifs at hb <;> cases hb <;> lia
  generalize (if loc1 ≠ 0 then
      some (cgp.cg_irotor / NBBY + howmany (fs.fs_ipg - cgp.cg_irotor) NBBY - loc1)
      else if loc2 ≠ 0 then some (cgp.cg_irotor / NBBY + 1 - loc2) else none) = found
    at h hfound
  cases hf : found with
  | none => simp [hf] at h
  | some byte =>
    have hlt := hfound byte hf
    rw [hf] at h
    simp only at h
    cases hb : firstclr (cgp.cg_iused byte) NBBY 0 with
    | none => simp [hb] at h
    | some b =>
      rw [hb] at h
      obtain ⟨hb8, hclr⟩ := firstclr_spec hb
      have hdvd := fs.ipg_dvd
      unfold NBBY at *
      have hi8 : i < fs.fs_ipg := by lia
      refine ⟨hi8, ?_⟩
      unfold isset NBBY
      rw [show i / 8 = byte by lia, show i % 8 = b by lia]
      exact hclr

/-- A group has no inode to give: no free one by its counters, or its block cannot be
read. -/
def NoInode (s : State) (g : ℕ) : Prop :=
  (s.fs_cs g).cs_nifree = 0 ∨ breadcg s g = none ∨ (s.cgs g).cg_cs.cs_nifree = 0

/-- Group `g` was rewritten, and of the maps only that of its inodes: it is now `f`. -/
structure WroteInode (s s' : State) (g : ℕ) (f : ℕ → Bool) : Prop where
  others : ∀ x, x ≠ g → s'.cgs x = s.cgs x
  free : (s'.cgs g).cg_free = (s.cgs g).cg_free
  magic : (s'.cgs g).cg_magic = (s.cgs g).cg_magic
  cgerr : s'.cgerr = s.cgerr
  used : isset (s'.cgs g).cg_iused = f

theorem igotit_spec {cgp : cg} (hfree : cgp.cg_free = (s.cgs g).cg_free)
    (hmagic : cgp.cg_magic = (s.cgs g).cg_magic) (hused : cgp.cg_iused = (s.cgs g).cg_iused)
    (h : igotit fs g i mode cgp s = (r, s')) :
    r = g * fs.fs_ipg + i ∧ WroteInode s s' g (isset (setbit (s.cgs g).cg_iused i)) := by
  unfold igotit at h
  obtain ⟨rfl, rfl⟩ := Prod.mk.inj h
  refine ⟨rfl, ?_⟩
  by_cases hd : mode &&& IFMT = IFDIR
  · simp only [if_pos hd]
    refine ⟨fun x hx => Function.update_of_ne hx .., ?_, ?_, rfl, ?_⟩
    all_goals simp [bdwritecg, cg.addndir, cg.addnifree, hfree, hmagic, hused]
  · simp only [if_neg hd]
    refine ⟨fun x hx => Function.update_of_ne hx .., ?_, ?_, rfl, ?_⟩
    all_goals simp [bdwritecg, cg.addnifree, hfree, hmagic, hused]

/-- **`ialloccg` marks an unused inode of its group used, or the group has none** and
nothing changes. -/
theorem ialloccg_spec (hr : (s.cgs g).cg_irotor < fs.fs_ipg)
    (h : ialloccg fs g ipref mode s = some (r, s')) :
    (NoInode s g ∧ r = 0 ∧ s' = s) ∨
      (¬ NoInode s g ∧ breadcg s g ≠ none ∧ ∃ i < fs.fs_ipg, r = g * fs.fs_ipg + i ∧
        isset (s.cgs g).cg_iused i = false ∧
        WroteInode s s' g (isset (setbit (s.cgs g).cg_iused i))) := by
  unfold ialloccg at h
  by_cases h0 : (s.fs_cs g).cs_nifree = 0
  · rw [if_pos h0] at h
    cases h
    exact .inl ⟨.inl h0, rfl, rfl⟩
  rw [if_neg h0] at h
  cases hb : breadcg s g with
  | none =>
    rw [hb] at h
    cases h
    exact .inl ⟨.inr (.inl hb), rfl, rfl⟩
  | some c =>
    rw [hb] at h
    have hc := breadcg_eq hb
    subst hc
    simp only at h
    by_cases h1 : (s.cgs g).cg_cs.cs_nifree = 0
    · rw [if_pos h1] at h
      cases h
      exact .inl ⟨.inr (.inr h1), rfl, rfl⟩
    rw [if_neg h1] at h
    have hsome : ¬ NoInode s g := by
      rintro (hn | hn | hn)
      · exact h0 hn
      · rw [hb] at hn
        simp at hn
      · exact h1 hn
    refine .inr ⟨hsome, by simp, ?_⟩
    by_cases hp : ipref ≠ 0 ∧ isset (s.cgs g).cg_iused (ipref % fs.fs_ipg) = false
    · rw [if_pos hp] at h
      obtain ⟨h2, h3⟩ := igotit_spec rfl rfl rfl (some.inj h)
      exact ⟨_, Nat.mod_lt _ fs.ipg_pos, h2, hp.2, h3⟩
    · rw [if_neg hp] at h
      cases hs : isearch fs (s.cgs g) with
      | none => simp [hs] at h
      | some i =>
        rw [hs] at h
        obtain ⟨hi, hclr⟩ := isearch_spec hr hs
        obtain ⟨h2, h3⟩ := igotit_spec (by rfl) (by rfl) (by rfl) (some.inj h)
        exact ⟨i, hi, h2, hclr, h3⟩

/-- `ifree` of a used inode of a group that can be read. -/
theorem ifree_spec (hg : g < fs.fs_ncg) (hi : i < fs.fs_ipg) (hb : breadcg s g ≠ none)
    (h : ifree fs (g * fs.fs_ipg + i) mode s = some s') :
    WroteInode s s' g (isset (clrbit (s.cgs g).cg_iused i)) := by
  have hlt : g * fs.fs_ipg + i < fs.fs_ipg * fs.fs_ncg := by
    have := Nat.mul_le_mul_right fs.fs_ipg (Nat.succ_le_of_lt hg)
    rw [Nat.succ_mul, Nat.mul_comm fs.fs_ncg] at this
    omega
  have hdiv : itog fs (g * fs.fs_ipg + i) = g := by
    unfold itog
    rw [Nat.mul_comm, Nat.mul_add_div fs.ipg_pos, Nat.div_eq_of_lt hi, add_zero]
  have hmod : (g * fs.fs_ipg + i) % fs.fs_ipg = i := by
    rw [Nat.mul_comm, Nat.mul_add_mod, Nat.mod_eq_of_lt hi]
  unfold ifree at h
  rw [if_neg (by omega), hdiv, hmod] at h
  simp only at h
  cases hc : breadcg s g with
  | none => exact absurd hc hb
  | some c =>
    rw [hc] at h
    have hcg := breadcg_eq hc
    subst hcg
    simp only at h
    by_cases hu : isset (s.cgs g).cg_iused i = false
    · rw [if_pos hu] at h
      simp at h
    · rw [if_neg hu] at h
      obtain rfl := some.inj h
      by_cases hd : mode &&& IFMT = IFDIR <;> by_cases hlt : i < (s.cgs g).cg_irotor <;>
        simp only [hd, hlt, if_true, if_false]
      all_goals
        refine ⟨fun x hx => Function.update_of_ne hx .., ?_, ?_, rfl, ?_⟩ <;>
          simp [bdwritecg, cg.addndir, cg.addnifree]

/-! ## The failing calls -/

/-- **Exactly as before**: usage, the blocks of the inode, and the maps of free
fragments and of used inodes. -/
structure Unchanged (fs : Ufs.fs) (k k' : Kern) : Prop where
  curblocks : ∀ uid, (k'.dquots uid).dq_curblocks = (k.dquots uid).dq_curblocks
  curfiles : ∀ uid, (k'.dquots uid).dq_curfiles = (k.dquots uid).dq_curfiles
  blocks : k'.ip.i_blocks = k.ip.i_blocks
  free : ∀ g < fs.fs_ncg,
    isset (k'.fsys.cgs g).cg_free = isset (k.fsys.cgs g).cg_free
  used : ∀ g < fs.fs_ncg,
    isset (k'.fsys.cgs g).cg_iused = isset (k.fsys.cgs g).cg_iused

/-- A sound file system: consistent, with the boot block and inode 0 in use, and the
inode at hand one of its inodes. -/
structure Sound (fs : Ufs.fs) (k : Kern) : Prop where
  consistent : Consistent fs k.fsys
  boot : BootHeld k.fsys
  inode0 : isset (k.fsys.cgs 0).cg_iused 0 = true
  irotor : ∀ g < fs.fs_ncg, (k.fsys.cgs g).cg_irotor < fs.fs_ipg
  number : k.ip.i_number < fs.fs_ncg * fs.fs_ipg

theorem Sound.itog_lt (hs : Sound fs k) : itog fs k.ip.i_number < fs.fs_ncg :=
  (Nat.div_lt_iff_lt_mul fs.ipg_pos).mpr hs.number

theorem dtog_lt {b : ℕ} (hb : b < fs.fs_size) : dtog fs b < fs.fs_ncg := by
  unfold dtog
  rw [Nat.div_lt_iff_lt_mul fs.fpg_pos]
  exact lt_of_lt_of_le hb fs.size_le

/-- A charge of a positive number of blocks shows in the usage. -/
theorem uint32_add_ne {x n : ℤ} (h0 : 0 < n) (hn : n < 4294967296) : uint32 (x + n) ≠ x := by
  unfold uint32
  omega

theorem btodb_lt (hn : n ≤ fs.fs_bsize) : btodb n < 4294967296 := by
  have hb := fs.bsize_le
  have : btodb n ≤ n := by
    unfold btodb
    rw [Nat.shiftRight_eq_div_pow]
    exact Nat.div_le_self _ _
  omega

/-- The checks before the quota refuse a piece of `size` bytes. -/
def NoSpaceAtAll (fs : Ufs.fs) (u : user) (k : Kern) (size : ℕ) : Prop :=
  (size = fs.fs_bsize ∧ k.fsys.fs_cstotal.cs_nbfree = 0) ∨
    (u.u_uid ≠ 0 ∧ freespace fs k.fsys.fs_cstotal fs.fs_minfree ≤ 0)

/-- What `alloc` did, by its three ways out. -/
theorem alloc_cases {bpref : ℕ} {res : Option ℕ} (hs : Sound fs k) (hn : 0 < n)
    (hnf : n ≤ fs.fs_frag) (h : alloc fs u bpref (n * fs.fs_fsize) k = some (res, k')) :
    (NoSpaceAtAll fs u k (n * fs.fs_fsize) ∧ nospace k = (res, k')) ∨
      (¬ NoSpaceAtAll fs u k (n * fs.fs_fsize) ∧ ∃ e k1,
        chkdq u (btodb (n * fs.fs_fsize)) false k = (some e, k1) ∧ res = none ∧
        k' = { k1 with u_error := some e }) ∨
      (¬ NoSpaceAtAll fs u k (n * fs.fs_fsize) ∧ ∃ k1,
        chkdq u (btodb (n * fs.fs_fsize)) false k = (none, k1) ∧
        (((∀ g < fs.fs_ncg, NoRoom fs k.fsys g (n * fs.fs_fsize)) ∧ res = none ∧
            k' = { k1 with u_error := some .ENOSPC }) ∨
          ∃ g q s', g < fs.fs_ncg ∧ ¬ NoRoom fs k.fsys g (n * fs.fs_fsize) ∧
            g * fs.fs_fpg + q ≠ 0 ∧ Took fs k.fsys s' g q n ∧ res = some (g * fs.fs_fpg + q) ∧
            k' = (({ k1 with u_error := none, fsys := s' } : Kern).addblocks
              (btodb (n * fs.fs_fsize))).clrfrags (g * fs.fs_fpg + q) n)) := by
  unfold alloc at h
  by_cases hbad : n * fs.fs_fsize > fs.fs_bsize ∨ fragoff fs (n * fs.fs_fsize) ≠ 0
  · rw [if_pos hbad] at h
    simp at h
  rw [if_neg hbad] at h
  by_cases h1 : n * fs.fs_fsize = fs.fs_bsize ∧ k.fsys.fs_cstotal.cs_nbfree = 0
  · rw [if_pos h1] at h
    exact .inl ⟨.inl h1, some.inj h⟩
  rw [if_neg h1] at h
  by_cases h2 : u.u_uid ≠ 0 ∧ freespace fs k.fsys.fs_cstotal fs.fs_minfree ≤ 0
  · rw [if_pos h2] at h
    exact .inl ⟨.inr h2, some.inj h⟩
  rw [if_neg h2] at h
  have hno : ¬ NoSpaceAtAll fs u k (n * fs.fs_fsize) := by
    rintro (hx | hx)
    · exact h1 hx
    · exact h2 hx
  right
  rcases hq : chkdq u (btodb (n * fs.fs_fsize)) false k with ⟨e, k1⟩
  obtain ⟨⟨⟨dqs, hk1⟩, -⟩, -⟩ := chkdq_spec (Int.natCast_nonneg _) hq
  rw [hq] at h
  cases e with
  | some e =>
    obtain ⟨rfl, rfl⟩ := Prod.mk.inj (some.inj h)
    exact .inl ⟨hno, e, k1, rfl, rfl, rfl⟩
  | none =>
    refine .inr ⟨hno, k1, rfl, ?_⟩
    subst hk1
    simp only at h
    generalize hbp : (if bpref ≥ fs.fs_size then 0 else bpref) = bp at h
    have hcg : (if bp = 0 then itog fs k.ip.i_number else dtog fs bp) < fs.fs_ncg := by
      by_cases hb0 : bp = 0
      · rw [if_pos hb0]
        exact hs.itog_lt
      · rw [if_neg hb0]
        by_cases hbig : bpref ≥ fs.fs_size
        · rw [if_pos hbig] at hbp
          exact absurd hbp.symm hb0
        · rw [if_neg hbig] at hbp
          exact dtog_lt (by omega)
    generalize (if bp = 0 then itog fs k.ip.i_number else dtog fs bp) = cg at h hcg
    cases hh : hashalloc fs (alloccg fs) cg bp (n * fs.fs_fsize) k.fsys with
    | none => simp [hh] at h
    | some x =>
      obtain ⟨bno, s'⟩ := x
      rw [hh] at h
      simp only at h
      have hdec := alloccg_decides hs.consistent hs.boot hn hnf
      rcases hashalloc_spec hdec hcg hh with ⟨rfl, rfl, hall⟩ | ⟨hb, g, hg, pref, hroom, hal⟩
      · rw [if_pos rfl] at h
        obtain ⟨rfl, rfl⟩ := Prod.mk.inj (some.inj h)
        exact .inl ⟨hall, rfl, rfl⟩
      · rw [if_neg hb, numfrags_mul] at h
        obtain ⟨rfl, rfl⟩ := Prod.mk.inj (some.inj h)
        rcases alloccg_spec hs.consistent hg hn hnf hal with ⟨hx, -, -⟩ | ⟨-, q, rfl, ht⟩
        · exact absurd hx hroom
        · exact .inr ⟨g, q, s', hg, hroom, hb, ht, rfl, rfl⟩

/-- What `realloccg` did, by its ways out: the fragment at `bprev` is extended in place,
or a new piece of the new size is taken, and then the old fragment may not be
readable. -/
theorem realloccg_cases {bprev bpref o : ℕ} {res : Option ℕ} (hs : Sound fs k)
    (hal : Allocated fs k.fsys bprev (o * fs.fs_fsize)) (hon : o < n) (hnf : n ≤ fs.fs_frag)
    (h : realloccg fs u bprev bpref (o * fs.fs_fsize) (n * fs.fs_fsize) k = some (res, k')) :
    ((u.u_uid ≠ 0 ∧ freespace fs k.fsys.fs_cstotal fs.fs_minfree ≤ 0) ∧
        nospace k = (res, k')) ∨
      (¬ (u.u_uid ≠ 0 ∧ freespace fs k.fsys.fs_cstotal fs.fs_minfree ≤ 0) ∧ ∃ e k1,
        chkdq u (btodb ((n - o) * fs.fs_fsize)) false k = (some e, k1) ∧ res = none ∧
        k' = { k1 with u_error := some e }) ∨
      (¬ (u.u_uid ≠ 0 ∧ freespace fs k.fsys.fs_cstotal fs.fs_minfree ≤ 0) ∧ bprev ≠ 0 ∧ ∃ k1,
        chkdq u (btodb ((n - o) * fs.fs_fsize)) false k = (none, k1) ∧
        ((∃ g q s', g < fs.fs_ncg ∧ Extendable fs k.fsys bprev o n ∧
            bprev = g * fs.fs_fpg + q ∧ q % fs.fs_frag + n ≤ fs.fs_frag ∧
            Took fs k.fsys s' g (q + o) (n - o) ∧
            ((k.blkerr bprev = true ∧ res = none ∧
                k' = { k1 with u_error := some EIO, fsys := s' }) ∨
              (k.blkerr bprev = false ∧ res = some bprev ∧
                k' = (({ k1 with u_error := none, fsys := s' } : Kern).clrfrags (bprev + o)
                  (n - o)).addblocks (btodb ((n - o) * fs.fs_fsize))))) ∨
          (¬ Extendable fs k.fsys bprev o n ∧
            (((∀ g < fs.fs_ncg, NoRoom fs k.fsys g (n * fs.fs_fsize)) ∧ res = none ∧
                k' = { k1 with u_error := some .ENOSPC }) ∨
              ∃ g q s', g < fs.fs_ncg ∧ ¬ NoRoom fs k.fsys g (n * fs.fs_fsize) ∧
                g * fs.fs_fpg + q ≠ 0 ∧ Took fs k.fsys s' g q n ∧
                ((k.blkerr bprev = true ∧ res = none ∧
                    k' = { k1 with u_error := some EIO, fsys := s' }) ∨
                  (k.blkerr bprev = false ∧ res = some (g * fs.fs_fpg + q) ∧
                    k' = ((({ k1 with u_error := none, fsys := s' } : Kern).copyfrags bprev
                      (g * fs.fs_fpg + q) o).clrfrags (g * fs.fs_fpg + q + o) (n - o)).addblocks
                        (btodb ((n - o) * fs.fs_fsize)))))))) := by
  have hdiff : n * fs.fs_fsize - o * fs.fs_fsize = (n - o) * fs.fs_fsize := (Nat.sub_mul ..).symm
  have hcs := hs.consistent
  have hheld := hal.held
  rw [numfrags_mul] at hheld
  unfold realloccg at h
  split at h
  · simp at h
  by_cases h1 : u.u_uid ≠ 0 ∧ freespace fs k.fsys.fs_cstotal fs.fs_minfree ≤ 0
  · rw [if_pos h1] at h
    exact .inl ⟨h1, some.inj h⟩
  rw [if_neg h1] at h
  by_cases h2 : bprev = 0
  · rw [if_pos h2] at h
    simp at h
  rw [if_neg h2, hdiff] at h
  right
  rcases hq : chkdq u (btodb ((n - o) * fs.fs_fsize)) false k with ⟨e, k1⟩
  obtain ⟨⟨⟨dqs, hk1⟩, -⟩, -⟩ := chkdq_spec (Int.natCast_nonneg _) hq
  rw [hq] at h
  cases e with
  | some e =>
    obtain ⟨rfl, rfl⟩ := Prod.mk.inj (some.inj h)
    exact .inl ⟨h1, e, k1, rfl, rfl, rfl⟩
  | none =>
    refine .inr ⟨h1, h2, k1, rfl, ?_⟩
    subst hk1
    simp only [numfrags_mul] at h
    have hb := dtog_dtogd fs bprev
    cases hf : fragextend fs (dtog fs bprev) bprev (o * fs.fs_fsize) (n * fs.fs_fsize) k.fsys with
    | none => simp [hf] at h
    | some x =>
      obtain ⟨bno, s1⟩ := x
      rw [hf] at h
      simp only at h
      nth_rewrite 2 [← hb] at hf
      rcases fragextend_spec hcs hal.group hheld hon hnf hf with
        ⟨hext, rfl, rfl⟩ | ⟨hext, hbno, hin, ht⟩
      · -- a new piece is looked for
        rw [hb] at hext
        rw [if_neg (by simp)] at h
        right
        refine ⟨hext, ?_⟩
        cases hh : hashalloc fs (alloccg fs) (dtog fs bprev)
            (if bpref ≥ fs.fs_size then 0 else bpref) (n * fs.fs_fsize) k.fsys with
        | none => simp [hh] at h
        | some x =>
          obtain ⟨bno, s'⟩ := x
          rw [hh] at h
          simp only at h
          have hdec := alloccg_decides (k := n) hcs hs.boot (by omega) hnf
          rcases hashalloc_spec hdec hal.group hh with
            ⟨rfl, rfl, hall⟩ | ⟨hb0, g, hg, pref, hroom, hac⟩
          · rw [if_neg (by omega)] at h
            obtain ⟨rfl, rfl⟩ := Prod.mk.inj (some.inj h)
            exact .inl ⟨hall, rfl, rfl⟩
          · rw [if_pos (by omega)] at h
            rcases alloccg_spec hcs hg (by omega) hnf hac with ⟨hx, -, -⟩ | ⟨-, q, rfl, ht⟩
            · exact absurd hx hroom
            · refine .inr ⟨g, q, s', hg, hroom, hb0, ht, ?_⟩
              by_cases he : k.blkerr bprev = true
              · rw [if_pos he] at h
                obtain ⟨rfl, rfl⟩ := Prod.mk.inj (some.inj h)
                exact .inl ⟨he, rfl, rfl⟩
              · rw [if_neg he] at h
                obtain ⟨rfl, rfl⟩ := Prod.mk.inj (some.inj h)
                exact .inr ⟨by simpa using he, rfl, rfl⟩
      · rw [hb] at hext hbno
        subst hbno
        rw [if_pos h2] at h
        refine .inl ⟨dtog fs bno, dtogd fs bno, s1, hal.group, hext, hb.symm, hin, ht, ?_⟩
        by_cases he : k.blkerr bno = true
        · rw [if_pos he] at h
          obtain ⟨rfl, rfl⟩ := Prod.mk.inj (some.inj h)
          exact .inl ⟨he, rfl, rfl⟩
        · rw [if_neg he] at h
          obtain ⟨rfl, rfl⟩ := Prod.mk.inj (some.inj h)
          exact .inr ⟨by simpa using he, rfl, rfl⟩

/-- `ialloccg` fails exactly in the groups without an inode to give. -/
theorem ialloccg_decides (hs : Sound fs k) (mode : ℕ) :
    Decides fs (ialloccg fs) mode k.fsys (NoInode k.fsys) := by
  intro g hg pref r s' h
  rcases ialloccg_spec (hs.irotor g hg) h with ⟨hno, rfl, rfl⟩ | ⟨hin, -, i, hi, rfl, hclr, -⟩
  · exact .inl ⟨rfl, rfl, hno⟩
  · refine .inr ⟨fun h0 => ?_, hin⟩
    have hipg := fs.ipg_pos
    obtain ⟨hg0, hi0⟩ : g = 0 ∧ i = 0 := by
      rcases Nat.eq_zero_or_pos g with hg0 | hg0
      · subst hg0
        exact ⟨rfl, by omega⟩
      · have := Nat.mul_pos hg0 hipg
        omega
    subst hg0 hi0
    rw [hs.inode0] at hclr
    simp at hclr

/-- The maps of free fragments and of used inodes of all groups are the same. -/
def SameMaps (s s' : State) : Prop :=
  ∀ g, isset (s'.cgs g).cg_free = isset (s.cgs g).cg_free ∧
    isset (s'.cgs g).cg_iused = isset (s.cgs g).cg_iused

/-- An inode taken and given back at once leaves the maps as they were. -/
theorem WroteInode.undo {s1 s2 : State}
    (h1 : WroteInode s s1 g (isset (setbit (s.cgs g).cg_iused i)))
    (h2 : WroteInode s1 s2 g (isset (clrbit (s1.cgs g).cg_iused i)))
    (hclr : isset (s.cgs g).cg_iused i = false) : SameMaps s s2 := by
  intro x
  by_cases hx : x = g
  · subst hx
    refine ⟨by rw [h2.free, h1.free], ?_⟩
    rw [h2.used]
    funext j
    rw [isset_clrbit, h1.used, isset_setbit]
    by_cases hj : j = i
    · simp [hj, hclr]
    · simp [hj]
  · rw [h2.others x hx, h1.others x hx]
    exact ⟨rfl, rfl⟩

/-- A failing `ialloc` leaves the maps as they were; it had charged a file unless it
stopped at the checks. -/
theorem ialloc_null (hs : Sound fs k) (h : ialloc fs u ipref mode k = some (none, k')) :
    k'.ip = k.ip ∧ SameMaps k.fsys k'.fsys ∧
      ((k.fsys.fs_cstotal.cs_nifree = 0 ∧ k'.dquots = k.dquots) ∨
        (k.fsys.fs_cstotal.cs_nifree ≠ 0 ∧ ∃ e k1, chkiq u u.u_uid false k = (e, k1) ∧
          k'.dquots = k1.dquots)) := by
  unfold ialloc at h
  by_cases h0 : k.fsys.fs_cstotal.cs_nifree = 0
  · rw [if_pos h0] at h
    cases h
    exact ⟨rfl, fun _ => ⟨rfl, rfl⟩, .inl ⟨h0, rfl⟩⟩
  rw [if_neg h0] at h
  rcases hq : chkiq u u.u_uid false k with ⟨e, k1⟩
  obtain ⟨⟨⟨dqs, hk1⟩, -⟩, -⟩ := chkiq_spec hq
  rw [hq] at h
  subst hk1
  cases e with
  | some e =>
    obtain rfl := (Prod.mk.inj (some.inj h)).2
    exact ⟨rfl, fun _ => ⟨rfl, rfl⟩, .inr ⟨h0, _, _, rfl, rfl⟩⟩
  | none =>
    simp only at h
    generalize hip : (if ipref ≥ fs.fs_ncg * fs.fs_ipg then 0 else ipref) = ip at h
    have hcg : itog fs ip < fs.fs_ncg := by
      unfold itog
      rw [Nat.div_lt_iff_lt_mul fs.ipg_pos]
      by_cases hbig : ipref ≥ fs.fs_ncg * fs.fs_ipg
      · rw [if_pos hbig] at hip
        have := hs.number
        omega
      · rw [if_neg hbig] at hip
        omega
    cases hh : hashalloc fs (ialloccg fs) (itog fs ip) ip mode k.fsys with
    | none => simp [hh] at h
    | some x =>
      obtain ⟨ino, s'⟩ := x
      rw [hh] at h
      simp only at h
      rcases hashalloc_spec (ialloccg_decides hs mode) hcg hh with
        ⟨rfl, rfl, -⟩ | ⟨hne, g, hg, pref, -, hac⟩
      · rw [if_pos rfl] at h
        obtain rfl := (Prod.mk.inj (some.inj h)).2
        exact ⟨rfl, fun _ => ⟨rfl, rfl⟩, .inr ⟨h0, _, _, rfl, rfl⟩⟩
      · rw [if_neg hne] at h
        by_cases hi : k.igeterr = true
        · rw [if_pos hi] at h
          rcases ialloccg_spec (hs.irotor g hg) hac with
            ⟨-, h0', -⟩ | ⟨-, hread, i, hi, rfl, hclr, hw⟩
          · exact absurd h0' hne
          · cases hf : ifree fs (g * fs.fs_ipg + i) 0 s' with
            | none => simp [hf] at h
            | some s2 =>
              rw [hf] at h
              obtain rfl := (Prod.mk.inj (some.inj h)).2
              have hread' : breadcg s' g ≠ none := by
                unfold breadcg at hread ⊢
                rw [hw.cgerr, hw.magic]
                by_cases hc : (k.fsys.cgerr g ||
                    (k.fsys.cgs g).cg_magic != CG_MAGIC) = true
                · rw [if_pos hc] at hread
                  exact absurd rfl hread
                · rw [if_neg hc]
                  simp
              exact ⟨rfl, hw.undo (ifree_spec hg hi hread' hf) hclr,
                .inr ⟨h0, _, _, rfl, rfl⟩⟩
        · rw [if_neg hi] at h
          split at h <;> simp at h

/-- A taken piece shows in the free map. -/
theorem Took.map_ne {q : ℕ} (ht : Took fs s s' g q n) :
    isset (s'.cgs g).cg_free ≠ isset (s.cgs g).cg_free := by
  intro heq
  obtain ⟨d, cgp', -, hmap, rfl⟩ := ht.wrote
  have h1 := ht.free 0 ht.piece.1
  rw [← heq] at h1
  have h2 : isset cgp'.cg_free (q + 0) = false := by
    rw [hmap]
    exact if_pos ⟨by omega, by have := ht.piece.1; omega⟩
  rw [show (bdwritecg (addcs s g d) g cgp').cgs g = cgp' from Function.update_self ..] at h1
  rw [h2] at h1
  simp at h1

/-! ## The calls -/

inductive Call
  | alloc (bpref size : ℕ)
  | realloccg (bprev bpref osize nsize : ℕ)
  | ialloc (ipref mode : ℕ)

def Call.run (fs : Ufs.fs) (u : user) (k : Kern) : Call → Option (Option ℕ × Kern)
  | .alloc bpref size => Ufs.alloc fs u bpref size k
  | .realloccg bprev bpref osize nsize => Ufs.realloccg fs u bprev bpref osize nsize k
  | .ialloc ipref mode => Ufs.ialloc fs u ipref mode k

/-- What the callers promise: sizes of pieces, and to reallocate to a bigger size a
piece that is allocated. -/
def Call.Ok (fs : Ufs.fs) (k : Kern) : Call → Prop
  | .alloc _ size => Size fs size
  | .realloccg bprev _ osize nsize =>
      Allocated fs k.fsys bprev osize ∧ Size fs nsize ∧ osize < nsize
  | .ialloc _ _ => True

/-- There is nothing to charge for `size` bytes. -/
def Uncharged (k : Kern) (size : ℕ) : Prop := k.ip.i_dquot = none ∨ btodb size = 0

/-- The call fails before it has charged or allocated anything: at its first checks,
refused by the quota, or, with nothing to charge, because there is no room. -/
def Call.Harmless (fs : Ufs.fs) (u : user) (k : Kern) : Call → Prop
  | .alloc _ size =>
      NoSpaceAtAll fs u k size ∨ ¬ BlocksAllowed u k (btodb size) ∨ Uncharged k size
  | .realloccg bprev _ osize nsize =>
      (u.u_uid ≠ 0 ∧ freespace fs k.fsys.fs_cstotal fs.fs_minfree ≤ 0) ∨
        ¬ BlocksAllowed u k (btodb (nsize - osize)) ∨
        (Uncharged k (nsize - osize) ∧
          ¬ Extendable fs k.fsys bprev (numfrags fs osize) (numfrags fs nsize) ∧
          ∀ g < fs.fs_ncg, NoRoom fs k.fsys g nsize)
  | .ialloc _ _ =>
      k.fsys.fs_cstotal.cs_nifree = 0 ∨ ¬ FilesAllowed u k u.u_uid ∨
        ¬ FilesCounted k u.u_uid

/-- After a charge of `n` blocks and nothing else, the state is as before exactly when
there was nothing to charge. -/
theorem unchanged_iff_uncharged (k' : Kern) {k1 : Kern} (hn : n ≤ fs.fs_bsize)
    (hq : chkdq u (btodb n) false k = (none, k1)) (hip : k'.ip = k.ip)
    (hfs : k'.fsys = k.fsys) (hdq : k'.dquots = k1.dquots) :
    Unchanged fs k k' ↔ Uncharged k n := by
  obtain ⟨⟨-, hfiles⟩, -, hcur⟩ := chkdq_spec (Int.natCast_nonneg _) hq
  rw [← hdq] at hfiles hcur
  simp only [if_true] at hcur
  constructor
  · intro hun
    by_contra hne
    unfold Uncharged at hne
    push Not at hne
    obtain ⟨hsome, hz⟩ := hne
    obtain ⟨uid, huid⟩ := Option.ne_none_iff_exists'.mp hsome
    have h1 := hun.curblocks uid
    rw [hcur] at h1
    unfold chargedBlocks at h1
    rw [if_pos ⟨by exact_mod_cast hz, huid⟩] at h1
    exact uint32_add_ne (by omega) (by exact_mod_cast btodb_lt hn) h1
  · intro hun
    refine ⟨fun uid => ?_, hfiles, by rw [hip], fun g _ => by rw [hfs], fun g _ => by rw [hfs]⟩
    rw [hcur]
    refine if_neg fun hc => ?_
    rcases hun with hun | hun
    · rw [hun] at hc
      simp at hc
    · rw [hun] at hc
      simp at hc

/-- A refusal by the quota changes nothing. -/
theorem unchanged_of_refused (fs : Ufs.fs) (k' : Kern) {k1 : Kern} {e : Errno}
    (hq : chkdq u (btodb n) false k = (some e, k1)) (hip : k'.ip = k.ip)
    (hfs : k'.fsys = k.fsys) (hdq : k'.dquots = k1.dquots) :
    Unchanged fs k k' ∧ ¬ BlocksAllowed u k (btodb n) := by
  obtain ⟨⟨-, hfiles⟩, hiff, hcur⟩ := chkdq_spec (Int.natCast_nonneg _) hq
  rw [← hdq] at hfiles hcur
  refine ⟨⟨fun uid => ?_, hfiles, by rw [hip], fun g _ => by rw [hfs],
    fun g _ => by rw [hfs]⟩, fun hall => by simpa using hiff.mpr hall⟩
  rw [hcur, if_neg (by simp : ¬ some e = none), chargedBlocks_zero]

theorem Unchanged.refl_of (hip : k'.ip = k.ip) (hfs : k'.fsys = k.fsys)
    (hdq : k'.dquots = k.dquots) : Unchanged fs k k' :=
  ⟨fun _ => by rw [hdq], fun _ => by rw [hdq], by rw [hip], fun _ _ => by rw [hfs],
    fun _ _ => by rw [hfs]⟩

theorem alloc_null_iff {bpref size : ℕ} (hs : Sound fs k) (hsize : Size fs size)
    (h : alloc fs u bpref size k = some (none, k')) :
    Unchanged fs k k' ↔
      NoSpaceAtAll fs u k size ∨ ¬ BlocksAllowed u k (btodb size) ∨ Uncharged k size := by
  obtain ⟨heq, hpos, hle⟩ := hsize.eq_mul
  have hbs := hsize.2.1
  rw [heq] at h hbs ⊢
  generalize numfrags fs size = n at h hbs hpos hle ⊢
  rcases alloc_cases hs hpos hle h with
    ⟨hno, hk⟩ | ⟨-, e, k1, hq, -, rfl⟩ | ⟨hno, k1, hq, hres⟩
  · obtain rfl := (Prod.mk.inj hk).2
    exact ⟨fun _ => .inl hno, fun _ => Unchanged.refl_of rfl rfl rfl⟩
  · obtain ⟨⟨⟨dqs, hk1⟩, -⟩, -⟩ := chkdq_spec (Int.natCast_nonneg _) hq
    obtain ⟨hun, hdeny⟩ := unchanged_of_refused fs { k1 with u_error := some e }
      hq (by rw [hk1]) (by rw [hk1]) rfl
    exact ⟨fun _ => .inr (.inl hdeny), fun _ => hun⟩
  · obtain ⟨⟨⟨dqs, hk1⟩, -⟩, hiff, -⟩ := chkdq_spec (Int.natCast_nonneg _) hq
    have hall := hiff.mp rfl
    rcases hres with ⟨-, -, rfl⟩ | ⟨g, q, s', -, -, -, -, hres, -⟩
    · rw [unchanged_iff_uncharged { k1 with u_error := some .ENOSPC } hbs hq
        (by rw [hk1]) (by rw [hk1]) rfl]
      constructor
      · exact fun h1 => .inr (.inr h1)
      · rintro (h1 | h1 | h1)
        · exact absurd h1 hno
        · exact absurd hall h1
        · exact h1
    · simp at hres

theorem realloccg_null_iff {bprev bpref osize nsize : ℕ} (hs : Sound fs k)
    (hal : Allocated fs k.fsys bprev osize) (hsize : Size fs nsize) (hlt : osize < nsize)
    (h : realloccg fs u bprev bpref osize nsize k = some (none, k')) :
    Unchanged fs k k' ↔
      (u.u_uid ≠ 0 ∧ freespace fs k.fsys.fs_cstotal fs.fs_minfree ≤ 0) ∨
        ¬ BlocksAllowed u k (btodb (nsize - osize)) ∨
        (Uncharged k (nsize - osize) ∧
          ¬ Extendable fs k.fsys bprev (numfrags fs osize) (numfrags fs nsize) ∧
          ∀ g < fs.fs_ncg, NoRoom fs k.fsys g nsize) := by
  obtain ⟨heq, hpos, hle⟩ := hsize.eq_mul
  obtain ⟨hoq, hopos, -⟩ := hal.sized.eq_mul
  have hbs : nsize - osize ≤ fs.fs_bsize := by
    have := hsize.2.1
    omega
  have hdiff : nsize - osize = (numfrags fs nsize - numfrags fs osize) * fs.fs_fsize := by
    rw [Nat.sub_mul, ← heq, ← hoq]
  have hon : numfrags fs osize < numfrags fs nsize := by
    rw [heq, hoq] at hlt
    exact Nat.lt_of_mul_lt_mul_right hlt
  rw [hdiff] at hbs ⊢
  rw [hoq] at hal
  rw [heq, hoq] at h
  rw [heq]
  have hnum := numfrags_mul fs (numfrags fs nsize)
  rw [hnum]
  generalize numfrags fs nsize = n at h hbs hpos hle hon ⊢
  generalize numfrags fs osize = o at h hal hbs hopos hon ⊢
  rcases realloccg_cases hs hal hon hle h with
    ⟨hno, hk⟩ | ⟨-, e, k1, hq, -, rfl⟩ | ⟨hno, -, k1, hq, hres⟩
  · obtain rfl := (Prod.mk.inj hk).2
    exact ⟨fun _ => .inl hno, fun _ => Unchanged.refl_of rfl rfl rfl⟩
  · obtain ⟨⟨⟨dqs, hk1⟩, -⟩, -⟩ := chkdq_spec (Int.natCast_nonneg _) hq
    obtain ⟨hun, hdeny⟩ := unchanged_of_refused fs { k1 with u_error := some e }
      hq (by rw [hk1]) (by rw [hk1]) rfl
    exact ⟨fun _ => .inr (.inl hdeny), fun _ => hun⟩
  · obtain ⟨⟨⟨dqs, hk1⟩, -⟩, hiff, -⟩ := chkdq_spec (Int.natCast_nonneg _) hq
    have hall := hiff.mp rfl
    rcases hres with ⟨g, q, s', hg, hext, -, -, ht, hres⟩ | ⟨hext, hres⟩
    · -- extended in place, and then unreadable
      rcases hres with ⟨-, -, rfl⟩ | ⟨-, hres, -⟩
      · constructor
        · exact fun hun => absurd (hun.free g hg) ht.map_ne
        · rintro (h1 | h1 | h1)
          · exact absurd h1 hno
          · exact absurd hall h1
          · exact absurd hext h1.2.1
      · simp at hres
    · rcases hres with ⟨hnone, -, rfl⟩ | ⟨g, q, s', hg, hroom, -, ht, hres⟩
      · rw [unchanged_iff_uncharged { k1 with u_error := some .ENOSPC } hbs hq
          (by rw [hk1]) (by rw [hk1]) rfl]
        constructor
        · exact fun h1 => .inr (.inr ⟨h1, hext, hnone⟩)
        · rintro (h1 | h1 | h1)
          · exact absurd h1 hno
          · exact absurd hall h1
          · exact h1.1
      · -- a new piece taken, and the old one unreadable
        rcases hres with ⟨-, -, rfl⟩ | ⟨-, hres, -⟩
        · constructor
          · exact fun hun => absurd (hun.free g hg) ht.map_ne
          · rintro (h1 | h1 | h1)
            · exact absurd h1 hno
            · exact absurd hall h1
            · exact absurd (h1.2.2 g hg) hroom
        · simp at hres

theorem ialloc_null_iff (hs : Sound fs k) (h : ialloc fs u ipref mode k = some (none, k')) :
    Unchanged fs k k' ↔
      k.fsys.fs_cstotal.cs_nifree = 0 ∨ ¬ FilesAllowed u k u.u_uid ∨
        ¬ FilesCounted k u.u_uid := by
  obtain ⟨hip, hmaps, hq⟩ := ialloc_null hs h
  rcases hq with ⟨h0, hdq⟩ | ⟨h0, e, k1, hq, hdq⟩
  · refine ⟨fun _ => .inl h0, fun _ => ⟨fun _ => by rw [hdq], fun _ => by rw [hdq],
      by rw [hip], fun g _ => (hmaps g).1, fun g _ => (hmaps g).2⟩⟩
  · obtain ⟨⟨-, hblocks⟩, hiff, hfiles⟩ := chkiq_spec hq
    rw [← hdq] at hblocks hfiles
    have hun : Unchanged fs k k' ↔ ∀ uid, (k'.dquots uid).dq_curfiles =
        (k.dquots uid).dq_curfiles :=
      ⟨fun h1 => h1.curfiles, fun h1 => ⟨hblocks, h1, by rw [hip], fun g _ => (hmaps g).1,
        fun g _ => (hmaps g).2⟩⟩
    rw [hun]
    constructor
    · intro hsame
      by_contra hne
      push Not at hne
      obtain ⟨-, hall, hcnt⟩ := hne
      have h1 := hsame u.u_uid
      rw [hfiles] at h1
      unfold chargedFiles at h1
      rw [if_pos ⟨⟨hiff.mpr hall, hcnt⟩, rfl⟩] at h1
      exact uint32_add_ne (by omega) (by omega) h1
    · intro hor uid
      rw [hfiles]
      refine if_neg fun hc => ?_
      rcases hor with h1 | h1 | h1
      · exact h0 h1
      · exact h1 (hiff.mp hc.1.1)
      · exact h1 hc.1.2

/-- **A failing call leaves the state as it was exactly when it is harmless**: it
stopped at its first checks or was refused by the quota, or there was nothing to
charge, no room, and (for `realloccg`) no way to extend the piece in place. -/
theorem null_unchanged_iff {c : Call} (hs : Sound fs k) (hok : c.Ok fs k)
    (h : c.run fs u k = some (none, k')) : Unchanged fs k k' ↔ c.Harmless fs u k := by
  cases c with
  | alloc bpref size => exact alloc_null_iff hs hok h
  | realloccg bprev bpref osize nsize => exact realloccg_null_iff hs hok.1 hok.2.1 hok.2.2 h
  | ialloc ipref mode => exact ialloc_null_iff hs h

/-- A user without limits, and a file on the file system whose only free fragment is
fragment 1, with or without a quota record for its owner. -/
def tinyUser : user := ⟨7, 7, 0, 0, 0⟩

def tinyKern (i_dquot : Option ℕ) : Kern where
  fsys := tinyState 0x02
  fs_cgrotor := 0
  dquots := fun _ => ⟨false, false, 0, 0, 0, 0, 0, 0, 0, 0⟩
  quotaon := fun _ => true
  ip := ⟨2, 0, 7, 0, fun _ => 0, fun _ => 0, 0, i_dquot⟩
  blk := fun _ _ => 0
  bap := fun _ _ => 0
  blkerr := fun _ => false
  igeterr := false
  imode := fun _ => 0
  iblocks := fun _ => 0
  u_error := none

theorem tinyKern_sound (i_dquot : Option ℕ) : Sound tiny (tinyKern i_dquot) where
  consistent := tinyState_consistent _
  boot := by
    show isset (tinyCg 0x02).cg_free 0 = false
    decide
  inode0 := by
    show isset (tinyCg 0x02).cg_iused 0 = true
    decide
  irotor := fun _ _ => by
    show 0 < 8
    omega
  number := by
    show 2 < tiny.fs_ncg * tiny.fs_ipg
    decide

/-- Two fragments asked for and no run of two: the blocks stay charged. -/
theorem alloc_stays_charged : ∃ k', Sound tiny (tinyKern (some 7)) ∧
    (Call.alloc 0 1024).Ok tiny (tinyKern (some 7)) ∧
    (Call.alloc 0 1024).run tiny tinyUser (tinyKern (some 7)) = some (none, k') ∧
    (k'.dquots 7).dq_curblocks = 2 ∧ ((tinyKern (some 7)).dquots 7).dq_curblocks = 0 ∧
    ¬ Unchanged tiny (tinyKern (some 7)) k' := by
  have hrun : ((Call.alloc 0 1024).run tiny tinyUser (tinyKern (some 7))).map
      (fun r => (r.1, (r.2.dquots 7).dq_curblocks)) = some (none, 2) := by
    decide +kernel
  obtain ⟨⟨res, k'⟩, hrun, heq⟩ := Option.map_eq_some_iff.mp hrun
  obtain ⟨hres, htwo⟩ := Prod.mk.inj heq
  have hnone : res = none := hres
  subst hnone
  refine ⟨k', tinyKern_sound _, (by decide : Size tiny 1024), hrun, htwo, rfl, fun hun => ?_⟩
  have h7 := hun.curblocks 7
  rw [show (k'.dquots 7).dq_curblocks = 2 from htwo] at h7
  exact absurd h7 (by decide)

/-- The same call on a file without a quota leaves the state as it was. -/
theorem null_unchanged_iff_unquotaed :
    ∃ k', (Call.alloc 0 1024).run tiny tinyUser (tinyKern none) = some (none, k') ∧
      Unchanged tiny (tinyKern none) k' := by
  have hrun : ((Call.alloc 0 1024).run tiny tinyUser (tinyKern none)).map Prod.fst =
      some none := by
    decide +kernel
  obtain ⟨⟨res, k'⟩, hrun, hres⟩ := Option.map_eq_some_iff.mp hrun
  have hnone : res = none := hres
  subst hnone
  exact ⟨k', hrun, (null_unchanged_iff (c := .alloc 0 1024) (tinyKern_sound none)
    (by decide : Size tiny 1024) hrun).mpr (.inr (.inr (.inl rfl)))⟩

end Ufs
