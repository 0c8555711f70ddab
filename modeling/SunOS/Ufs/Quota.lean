/-
# Quotas: what a check charges

`chkdq` and `chkiq` either refuse, and then charge nothing, or charge exactly what
was asked for.  Whether they refuse is a condition on the limits, the usage and the
clock.
-/
import SunOS.Ufs.HashAlloc

namespace Ufs

variable {fs : Ufs.fs} {u : user} {k k' : Kern} {change : ℤ} {e : Option Errno} {uid : ℕ}

/-- The limits of `dq` let its user hold `change` more blocks. -/
def dquot.allows (u : user) (dq : dquot) (change : ℤ) : Prop :=
  u.u_uid = 0 ∨
    ¬ (dq.dq_bhardlimit ≠ 0 ∧ dq.dq_bhardlimit ≤ uint32 (dq.dq_curblocks + change)) ∧
    ¬ (dq.dq_bsoftlimit ≠ 0 ∧ dq.dq_bsoftlimit ≤ uint32 (dq.dq_curblocks + change) ∧
      dq.dq_bsoftlimit ≤ dq.dq_curblocks ∧ dq.dq_btimelimit ≠ 0 ∧ dq.dq_btimelimit < u.tv_sec)

/-- `chkdq` lets the owner of the inode have `change` more blocks. -/
def BlocksAllowed (u : user) (k : Kern) (change : ℤ) : Prop :=
  change = 0 ∨ ∀ uid, k.ip.i_dquot = some uid → (k.dquots uid).allows u change

/-- Usage after a check: `n` more blocks for the owner of the inode. -/
def chargedBlocks (k : Kern) (n : ℤ) (uid : ℕ) : ℤ :=
  if n ≠ 0 ∧ k.ip.i_dquot = some uid then uint32 ((k.dquots uid).dq_curblocks + n)
  else (k.dquots uid).dq_curblocks

theorem chargedBlocks_zero (k : Kern) (uid : ℕ) :
    chargedBlocks k 0 uid = (k.dquots uid).dq_curblocks :=
  if_neg fun h => h.1 rfl

/-- The state differs from `k` in its quota records only, and there not in the number
of files. -/
def SameButBlocks (k k' : Kern) : Prop :=
  (∃ dqs, k' = { k with dquots := dqs }) ∧
    ∀ uid, (k'.dquots uid).dq_curfiles = (k.dquots uid).dq_curfiles

theorem SameButBlocks.refl (k : Kern) : SameButBlocks k k := ⟨⟨k.dquots, rfl⟩, fun _ => rfl⟩

theorem sameButBlocks_setquot {dq : dquot} (h : dq.dq_curfiles = (k.dquots uid).dq_curfiles) :
    SameButBlocks k (k.setquot uid dq) := by
  refine ⟨⟨_, rfl⟩, fun x => ?_⟩
  unfold Kern.setquot
  by_cases hx : x = uid
  · subst hx
    simpa using h
  · simp [hx]

theorem setquot_curblocks (k : Kern) (uid : ℕ) (dq : dquot) (x : ℕ) :
    ((k.setquot uid dq).dquots x).dq_curblocks =
      if x = uid then dq.dq_curblocks else (k.dquots x).dq_curblocks := by
  unfold Kern.setquot
  by_cases hx : x = uid
  · simp [hx]
  · simp [hx]

/-- A record as a check of blocks leaves it, its usage apart: the flag set by `c1` or `c3`, the
clock started by `c2`. -/
def dquot.noteBlocks (dq : dquot) (c1 c2 c3 : Prop) [Decidable c1] [Decidable c2] [Decidable c3]
    (t : ℤ) : dquot :=
  let dq := if c1 then { dq with dq_blks := true } else dq
  let dq := if c2 then { dq with dq_btimelimit := t } else dq
  if c3 then { dq with dq_blks := true } else dq

theorem dquot.noteBlocks_usage (dq : dquot) (c1 c2 c3 : Prop) [Decidable c1] [Decidable c2]
    [Decidable c3] (t : ℤ) : (dq.noteBlocks c1 c2 c3 t).dq_curblocks = dq.dq_curblocks ∧
      (dq.noteBlocks c1 c2 c3 t).dq_curfiles = dq.dq_curfiles := by
  unfold dquot.noteBlocks
  by_cases h1 : c1 <;> by_cases h2 : c2 <;> by_cases h3 : c3 <;> simp [h1, h2, h3]

/-- The usage `n` would be over the hard limit on blocks. -/
def dquot.hardBlocks (dq : dquot) (n : ℤ) : Bool :=
  n ≥ dq.dq_bhardlimit && dq.dq_bhardlimit ≠ 0 && !false

/-- It would be over the soft limit. -/
def dquot.softBlocks (dq : dquot) (n : ℤ) : Bool := n ≥ dq.dq_bsoftlimit && dq.dq_bsoftlimit ≠ 0

/-- The clock starts. -/
def dquot.startBlocks (dq : dquot) : Bool :=
  dq.dq_curblocks < dq.dq_bsoftlimit || dq.dq_btimelimit = 0

/-- The clock has run out. -/
def dquot.lateBlocks (u : user) (dq : dquot) (n : ℤ) : Bool :=
  dq.softBlocks n && !dq.startBlocks && u.tv_sec > dq.dq_btimelimit && !false

/-- Neither limit is in the way. -/
theorem dquot.allows_iff (dq : dquot) (hu : u.u_uid ≠ 0) : dq.allows u change ↔
    ¬ (dq.hardBlocks (uint32 (dq.dq_curblocks + change)) ||
      dq.lateBlocks u (uint32 (dq.dq_curblocks + change))) = true := by
  unfold dquot.allows dquot.hardBlocks dquot.lateBlocks dquot.softBlocks dquot.startBlocks
  simp only [hu, false_or, Bool.or_eq_true, Bool.and_eq_true, decide_eq_true_eq, Bool.not_eq_true',
    Bool.or_eq_false_iff, decide_eq_false_iff_not, Bool.not_false, and_true]
  constructor
  · rintro ⟨h1, h2⟩
    lia
  · intro h1
    exact ⟨by lia, by lia⟩

/-- **A check against the limits** of `owner`. -/
theorem chkdq_limits {owner : ℕ} (hq : k.ip.i_dquot = some owner) (hpos : 0 < change)
    (hu : u.u_uid ≠ 0) : ∃ dq' : dquot, dq'.dq_curblocks = (k.dquots owner).dq_curblocks ∧
      dq'.dq_curfiles = (k.dquots owner).dq_curfiles ∧
      ((k.dquots owner).allows u change ∧ chkdq u change false k = (none, k.setquot owner
          { dq' with dq_curblocks := uint32 ((k.dquots owner).dq_curblocks + change) }) ∨
        ¬ (k.dquots owner).allows u change ∧
          chkdq u change false k = (some .EDQUOT, k.setquot owner dq')) := by
  let dq := k.dquots owner
  let n := uint32 (dq.dq_curblocks + change)
  refine ⟨dq.noteBlocks (dq.hardBlocks n ∧ k.ip.i_uid = u.u_ruid)
    (dq.softBlocks n && dq.startBlocks) (dq.lateBlocks u n ∧ k.ip.i_uid = u.u_ruid)
    (uint32 (u.tv_sec + u.m_btimelimit)), (dquot.noteBlocks_usage _ _ _ _ _).1,
    (dquot.noteBlocks_usage _ _ _ _ _).2, ?_⟩
  rw [dquot.allows_iff _ hu, not_not]
  unfold chkdq
  rw [if_neg (show ¬ change = 0 by omega), hq]
  by_cases hr : (dq.hardBlocks n || dq.lateBlocks u n) = true
  · exact .inr ⟨hr, (if_neg (show ¬ change < 0 by omega)).trans ((if_neg hu).trans (if_pos hr))⟩
  · exact .inl ⟨hr, (if_neg (show ¬ change < 0 by omega)).trans ((if_neg hu).trans (if_neg hr))⟩

/-- **`chkdq` refuses, or charges the blocks asked for.** -/
theorem chkdq_spec (hpos : 0 ≤ change) (h : chkdq u change false k = (e, k')) :
    SameButBlocks k k' ∧ (e = none ↔ BlocksAllowed u k change) ∧
      ∀ uid, (k'.dquots uid).dq_curblocks =
        chargedBlocks k (if e = none then change else 0) uid := by
  by_cases h0 : change = 0
  · unfold chkdq at h
    rw [if_pos h0] at h
    cases h
    refine ⟨SameButBlocks.refl k, ⟨fun _ => .inl h0, fun _ => rfl⟩, fun uid => ?_⟩
    rw [if_pos rfl, h0, chargedBlocks_zero]
  cases hq : k.ip.i_dquot with
  | none =>
    unfold chkdq at h
    rw [if_neg h0, hq] at h
    cases h
    refine ⟨SameButBlocks.refl k, ⟨fun _ => .inr ?_, fun _ => rfl⟩, fun uid => ?_⟩
    · intro uid huid
      rw [hq] at huid
      simp at huid
    · unfold chargedBlocks
      rw [if_neg (by simp [hq])]
  | some owner =>
    have hall : BlocksAllowed u k change ↔ (k.dquots owner).allows u change := by
      constructor
      · rintro (h1 | h1)
        · exact absurd h1 h0
        · exact h1 owner hq
      · intro h1
        refine .inr fun x hx => ?_
        rw [hq] at hx
        cases hx
        exact h1
    -- what is charged to the owner
    have hcharge : ∀ dq' : dquot,
        dq'.dq_curblocks = uint32 ((k.dquots owner).dq_curblocks + change) → ∀ uid,
        ((k.setquot owner dq').dquots uid).dq_curblocks = chargedBlocks k change uid := by
      intro dq' hdq' uid
      rw [setquot_curblocks, hdq']
      unfold chargedBlocks
      rw [hq]
      by_cases hx : uid = owner
      · rw [if_pos hx, if_pos ⟨h0, by rw [hx]⟩, hx]
      · rw [if_neg hx, if_neg (fun hc => hx (Option.some.inj hc.2).symm)]
    rw [hall]
    by_cases hu : u.u_uid = 0
    · have heq : chkdq u change false k = (none, k.setquot owner { k.dquots owner with
          dq_curblocks := uint32 ((k.dquots owner).dq_curblocks + change) }) := by
        unfold chkdq
        rw [if_neg h0, hq]
        exact (if_neg (show ¬ change < 0 by omega)).trans (if_pos hu)
      rw [heq] at h
      cases h
      refine ⟨sameButBlocks_setquot rfl, ⟨fun _ => .inl hu, fun _ => rfl⟩, fun uid => ?_⟩
      rw [if_pos rfl]
      exact hcharge _ rfl uid
    · obtain ⟨dq', hblocks, hfiles, ⟨hyes, heq⟩ | ⟨hno, heq⟩⟩ :=
        chkdq_limits hq (show 0 < change by omega) hu
      · rw [heq] at h
        obtain ⟨rfl, rfl⟩ := Prod.mk.inj h
        refine ⟨sameButBlocks_setquot hfiles, ⟨fun _ => hyes, fun _ => rfl⟩, fun uid => ?_⟩
        rw [if_pos rfl]
        exact hcharge _ rfl uid
      · rw [heq] at h
        obtain ⟨rfl, rfl⟩ := Prod.mk.inj h
        refine ⟨sameButBlocks_setquot hfiles, ⟨fun hc => by simp at hc, fun hc => absurd hc hno⟩,
          fun uid => ?_⟩
        rw [setquot_curblocks, hblocks, if_neg (by simp : ¬ some Errno.EDQUOT = none),
          chargedBlocks_zero]
        by_cases hx : uid = owner
        · rw [if_pos hx, hx]
        · rw [if_neg hx]

/-! ## Files -/

/-- The limits of `dq` let its user have one more file. -/
def dquot.allowsFile (u : user) (dq : dquot) : Prop :=
  u.u_uid = 0 ∨
    ¬ (dq.dq_fhardlimit ≠ 0 ∧ dq.dq_fhardlimit ≤ uint32 (dq.dq_curfiles + 1)) ∧
    ¬ (dq.dq_fsoftlimit ≠ 0 ∧ dq.dq_fsoftlimit ≤ uint32 (dq.dq_curfiles + 1) ∧
      uint32 (dq.dq_curfiles + 1) ≠ dq.dq_fsoftlimit ∧ dq.dq_ftimelimit ≠ 0 ∧
      dq.dq_ftimelimit < u.tv_sec)

/-- Files of user `uid` are counted: quotas are on and a limit on files is set. -/
def FilesCounted (k : Kern) (uid : ℕ) : Prop :=
  k.quotaon uid = true ∧
    ¬ ((k.dquots uid).dq_fsoftlimit = 0 ∧ (k.dquots uid).dq_fhardlimit = 0)

/-- `chkiq` lets user `uid` have one more file. -/
def FilesAllowed (u : user) (k : Kern) (uid : ℕ) : Prop :=
  FilesCounted k uid → (k.dquots uid).allowsFile u

instance (k : Kern) (uid : ℕ) : Decidable (FilesCounted k uid) :=
  inferInstanceAs (Decidable (_ ∧ _))

/-- The number of files after a check that refused (`e`) or charged. -/
def chargedFiles (k : Kern) (owner : ℕ) (e : Option Errno) (uid : ℕ) : ℤ :=
  if (e = none ∧ FilesCounted k owner) ∧ uid = owner then uint32 ((k.dquots uid).dq_curfiles + 1)
  else (k.dquots uid).dq_curfiles

/-- The state differs from `k` in its quota records only, and there not in the number
of blocks. -/
def SameButFiles (k k' : Kern) : Prop :=
  (∃ dqs, k' = { k with dquots := dqs }) ∧
    ∀ uid, (k'.dquots uid).dq_curblocks = (k.dquots uid).dq_curblocks

theorem SameButFiles.refl (k : Kern) : SameButFiles k k := ⟨⟨k.dquots, rfl⟩, fun _ => rfl⟩

theorem sameButFiles_setquot {dq : dquot} (h : dq.dq_curblocks = (k.dquots uid).dq_curblocks) :
    SameButFiles k (k.setquot uid dq) := by
  refine ⟨⟨_, rfl⟩, fun x => ?_⟩
  rw [setquot_curblocks]
  by_cases hx : x = uid
  · rw [if_pos hx, h, hx]
  · rw [if_neg hx]

theorem setquot_curfiles (k : Kern) (uid : ℕ) (dq : dquot) (x : ℕ) :
    ((k.setquot uid dq).dquots x).dq_curfiles =
      if x = uid then dq.dq_curfiles else (k.dquots x).dq_curfiles := by
  unfold Kern.setquot
  by_cases hx : x = uid
  · simp [hx]
  · simp [hx]

theorem dquot.if_files (c : Prop) [Decidable c] (dq : dquot) :
    (if c then { dq with dq_files := true } else dq).dq_curblocks = dq.dq_curblocks ∧
      (if c then { dq with dq_files := true } else dq).dq_curfiles = dq.dq_curfiles := by
  by_cases h : c <;> simp [h]

theorem dquot.if_ftime (c : Prop) [Decidable c] (dq : dquot) (t : ℤ) :
    (if c then { dq with dq_ftimelimit := t } else dq).dq_curblocks = dq.dq_curblocks ∧
      (if c then { dq with dq_ftimelimit := t } else dq).dq_curfiles = dq.dq_curfiles := by
  by_cases h : c <;> simp [h]

/-- **`chkiq` refuses, or charges one file.** -/
theorem chkiq_spec {owner : ℕ} (h : chkiq u owner false k = (e, k')) :
    SameButFiles k k' ∧ (e = none ↔ FilesAllowed u k owner) ∧
      ∀ uid, (k'.dquots uid).dq_curfiles = chargedFiles k owner e uid := by
  unfold chkiq at h
  by_cases hc : FilesCounted k owner
  · have hq := hc.1
    rw [if_neg (by simp [hq])] at h
    simp only [if_neg hc.2] at h
    have hall : FilesAllowed u k owner ↔ (k.dquots owner).allowsFile u :=
      ⟨fun h1 => h1 hc, fun h1 _ => h1⟩
    rw [hall]
    have hcharge : ∀ uid, chargedFiles k owner none uid =
        if uid = owner then uint32 ((k.dquots owner).dq_curfiles + 1)
        else (k.dquots uid).dq_curfiles := by
      intro uid
      unfold chargedFiles
      by_cases hx : uid = owner
      · rw [if_pos ⟨⟨rfl, hc⟩, hx⟩, if_pos hx, hx]
      · rw [if_neg (fun h1 => hx h1.2), if_neg hx]
    by_cases hu : u.u_uid = 0
    · rw [if_pos hu] at h
      cases h
      refine ⟨sameButFiles_setquot rfl, ⟨fun _ => .inl hu, fun _ => rfl⟩, fun uid => ?_⟩
      rw [setquot_curfiles, hcharge]
    · rw [if_neg hu] at h
      generalize hdq : k.dquots owner = dq at h hcharge ⊢
      generalize hn : uint32 (dq.dq_curfiles + 1) = n at h hcharge
      generalize hhard : (decide (n ≥ dq.dq_fhardlimit) && dq.dq_fhardlimit ≠ 0 && !false) =
        hard at h
      generalize hlate : (!hard && decide (n ≥ dq.dq_fsoftlimit) && dq.dq_fsoftlimit ≠ 0 &&
        !(decide (n = dq.dq_fsoftlimit) || decide (dq.dq_ftimelimit = 0)) &&
        decide (u.tv_sec > dq.dq_ftimelimit) && !false) = late at h
      have hiff : (hard || late) = false ↔ dq.allowsFile u := by
        unfold dquot.allowsFile
        rw [hn, ← hlate, ← hhard]
        simp only [hu, false_or]
        simp only [Bool.or_eq_false_iff, Bool.and_eq_false_iff, decide_eq_false_iff_not,
          Bool.not_eq_false', Bool.not_false, Bool.true_eq_false, or_false, Bool.or_eq_true,
          Bool.and_eq_true, decide_eq_true_eq, and_true]
        constructor
        · rintro ⟨h1, h2⟩
          exact ⟨by lia, by lia⟩
        · rintro ⟨h1, h2⟩
          exact ⟨by lia, by lia⟩
      by_cases hr : (hard || late) = true
      · rw [if_pos hr] at h
        obtain ⟨rfl, rfl⟩ := Prod.mk.inj h
        have hno : ¬ dq.allowsFile u := by
          rw [← hiff, hr]
          simp
        refine ⟨sameButFiles_setquot ?_, ⟨fun h1 => by simp at h1, fun h1 => absurd h1 hno⟩,
          fun uid => ?_⟩
        · rw [(dquot.if_files _ _).1, (dquot.if_ftime _ _ _).1, hdq]
        · rw [setquot_curfiles, (dquot.if_files _ _).2, (dquot.if_ftime _ _ _).2]
          unfold chargedFiles
          rw [if_neg (fun h1 : (some Errno.EDQUOT = none ∧ FilesCounted k owner) ∧ uid = owner =>
            by simpa using h1.1.1)]
          by_cases hx : uid = owner
          · rw [if_pos hx, hx, hdq]
          · rw [if_neg hx]
      · rw [if_neg hr] at h
        obtain ⟨rfl, rfl⟩ := Prod.mk.inj h
        refine ⟨sameButFiles_setquot ?_, ⟨fun _ => hiff.mp (Bool.eq_false_iff.mpr hr),
          fun _ => rfl⟩, fun uid => ?_⟩
        · rw [hdq]
          refine Eq.trans (b := (if _ then _ else _ : dquot).dq_curblocks) rfl ?_
          rw [(dquot.if_files _ _).1, (dquot.if_ftime _ _ _).1]
        · rw [setquot_curfiles, hcharge]
          by_cases hx : uid = owner
          · rw [if_pos hx, if_pos hx]
            show uint32 ((if _ then _ else _ : dquot).dq_curfiles + 1) = n
            rw [(dquot.if_files _ _).2, (dquot.if_ftime _ _ _).2, hn]
          · rw [if_neg hx, if_neg hx]
  · -- no quota on files for this user
    have hh : (none, k) = (e, k') := by
      by_cases hq : k.quotaon owner = true
      · rw [if_neg (by simp [hq])] at h
        have hz : (k.dquots owner).dq_fsoftlimit = 0 ∧ (k.dquots owner).dq_fhardlimit = 0 := by
          by_contra hz
          exact hc ⟨hq, hz⟩
        simp only [if_pos hz] at h
        exact h
      · rw [if_pos (by simpa using hq)] at h
        exact h
    cases hh
    refine ⟨SameButFiles.refl k, ⟨fun _ h1 => absurd h1 hc, fun _ => rfl⟩, fun uid => ?_⟩
    exact (if_neg fun h1 => hc h1.1.2).symm

end Ufs
