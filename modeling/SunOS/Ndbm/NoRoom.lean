/-
# Data bases alike but for the buffers

Two data bases with the same files, whose buffers agree with these, cannot be told
apart: every call answers the same, and what it leaves are two such data bases, or
one and the same.
-/
import SunOS.Ndbm.Runs

namespace Ndbm

open BitTrie

/-- The files are the same; the buffers of the directory agree with it, and those of the pages
with the file, or with one another. -/
structure Alike (db1 db2 : DBM) : Prop where
  same : Same db1 db2
  sound : Sound db1
  dir₁ : DirCached db1
  dir₂ : DirCached db2
  page : (Caches db1 ∧ Caches db2) ∨
    (db2.dbm_pagbno = db1.dbm_pagbno ∧ db2.dbm_pagbuf = db1.dbm_pagbuf)

/-- The data bases are one, or alike. -/
def Agree (db1 db2 : DBM) : Prop := db1 = db2 ∨ Alike db1 db2

variable {db db1 db2 db1' : DBM} {op : Op} {a : Answer} {key dat : datum} {replace : Bool}
  {evs : List (Op × Answer)}

theorem Same.symm (h : Same db1 db2) : Same db2 db1 :=
  ⟨h.dirf.symm, h.pagf.symm, h.npag.symm, h.rdonly.symm, h.error.symm, h.maxbno.symm,
    h.blkptr.symm, h.keyptr.symm⟩

theorem Alike.symm (h : Alike db1 db2) : Alike db2 db1 :=
  ⟨h.same.symm, h.same.sound h.sound, h.dir₂, h.dir₁,
    h.page.imp And.symm fun heq => ⟨heq.1.symm, heq.2.symm⟩⟩

theorem Agree.symm (h : Agree db1 db2) : Agree db2 db1 := h.imp Eq.symm Alike.symm

/-- What either has in the buffer for a page, or reads there. -/
theorem Alike.buffer (h : Alike db1 db2) (p : ℕ) :
    (if (p : ℤ) ≠ db2.dbm_pagbno then db2.pagf p else db2.dbm_pagbuf) =
      if (p : ℤ) ≠ db1.dbm_pagbno then db1.pagf p else db1.dbm_pagbuf := by
  rcases h.page with ⟨hc1, hc2⟩ | ⟨hno, hbuf⟩
  · have hread : ∀ {db}, Caches db →
        (if (p : ℤ) ≠ db.dbm_pagbno then db.pagf p else db.dbm_pagbuf) = db.pagf p := by
      intro db hc
      split
      · rfl
      · next hpag => exact hc.pag p (not_not.mp hpag).symm
    rw [hread hc1, hread hc2, h.same.pagf]
  · rw [hno, hbuf, h.same.pagf]

/-! ## The way to a page -/

/-- The same page of two data bases that are alike is in their buffers. -/
structure OnPage (db1 db2 : DBM) : Prop where
  same : Same db1 db2
  sound : Sound db1
  dir₁ : DirCached db1
  dir₂ : DirCached db2
  lt : db1.dbm_blkno + 1 < 2 ^ 21
  hmask : db2.dbm_hmask = db1.dbm_hmask
  blkno : db2.dbm_blkno = db1.dbm_blkno
  bitno : db2.dbm_bitno = db1.dbm_bitno
  pagbno : db2.dbm_pagbno = db1.dbm_pagbno
  pagbuf : db2.dbm_pagbuf = db1.dbm_pagbuf

theorem OnPage.alike (h : OnPage db1 db2) : Alike db1 db2 :=
  ⟨h.same, h.sound, h.dir₁, h.dir₂, .inr ⟨h.pagbno, h.pagbuf⟩⟩

theorem Alike.access (h : Alike db1 db2) (hash : ℕ) :
    ∃ db1' db2', dbm_access hash db1 = some db1' ∧ dbm_access hash db2 = some db2' ∧
      OnPage db1' db2' := by
  obtain ⟨k, hk21, hk⟩ := h.sound.exists_leaf hash
  have hlt := page_lt hk21
  have hle := hk21.trans (usable_le hash)
  obtain ⟨db1', hacc1, hsame1, hdir1, hmask1, hblk1, hbit1, hno1, hbuf1⟩ :=
    access_page h.sound h.dir₁ hle hk
  obtain ⟨db2', hacc2, hsame2, hdir2, hmask2, hblk2, hbit2, hno2, hbuf2⟩ :=
    access_page (h.same.sound h.sound) h.dir₂ hle (by rw [h.same.bit]; exact hk)
  refine ⟨db1', db2', hacc1, hacc2, (hsame1.symm.trans h.same).trans hsame2,
    hsame1.sound h.sound, hdir1, hdir2, hblk1 ▸ hlt, hmask2.trans hmask1.symm,
    hblk2.trans hblk1.symm, hbit2.trans hbit1.symm, hno2.trans hno1.symm, ?_⟩
  rw [hbuf1, hbuf2, h.buffer]

/-- An error is noted in both, with the buffer as it is then. -/
theorem OnPage.fail (h : OnPage db1 db2) (buf : Page) :
    Alike { db1 with dbm_pagbuf := buf, dbm_error := true }
      { db2 with dbm_pagbuf := buf, dbm_error := true } :=
  ⟨⟨h.same.dirf, h.same.pagf, h.same.npag, h.same.rdonly, rfl, h.same.maxbno, h.same.blkptr,
    h.same.keyptr⟩, ⟨h.sound.small, h.sound.many, h.sound.beyond, h.sound.dark⟩,
    h.dir₁, h.dir₂, .inr ⟨h.pagbno, rfl⟩⟩

theorem OnPage.fail_same (h : OnPage db1 db2) :
    Alike { db1 with dbm_error := true } { db2 with dbm_error := true } := by
  have hfail := h.fail db1.dbm_pagbuf
  have hbuf : { db2 with dbm_pagbuf := db1.dbm_pagbuf, dbm_error := true } =
      { db2 with dbm_error := true } := by rw [← h.pagbuf]
  rwa [hbuf] at hfail

/-- The page is written from both buffers, with a flag that may be set. -/
theorem OnPage.write (h : OnPage db1 db2) (buf : Page) (error : Bool) :
    ∃ db1' db2', writePage db1.dbm_blkno buf { db1 with
        dbm_pagbuf := buf
        dbm_error := db1.dbm_error || error
        dbm_pagbno := db1.dbm_blkno } = some db1' ∧
      writePage db2.dbm_blkno buf { db2 with
        dbm_pagbuf := buf
        dbm_error := db2.dbm_error || error
        dbm_pagbno := db2.dbm_blkno } = some db2' ∧ OnPage db1' db2' := by
  have hlt2 : db2.dbm_blkno + 1 < 2 ^ 21 := h.blkno ▸ h.lt
  have hflag : Sound { db1 with
      dbm_pagbuf := buf
      dbm_error := db1.dbm_error || error
      dbm_pagbno := db1.dbm_blkno } := ⟨h.sound.small, h.sound.many, h.sound.beyond, h.sound.dark⟩
  refine ⟨_, _, writePage_of_lt h.lt, writePage_of_lt hlt2,
    ⟨⟨h.same.dirf, ?_, ?_, h.same.rdonly, ?_, h.same.maxbno, h.same.blkptr, h.same.keyptr⟩,
      (hflag.write h.lt (writePage_of_lt h.lt)).1, h.dir₁, h.dir₂, h.lt, h.hmask, h.blkno,
        h.bitno, ?_,
      rfl⟩⟩
  · simp only [h.same.pagf, h.blkno]
  · simp only [h.same.npag, h.blkno]
  · simp only [h.same.error]
  · simp only [h.blkno]

/-! ## A split makes them one -/

/-- What is in the buffer does not matter to `setbit` when it agrees with the directory. -/
theorem setbit_dir (db : DBM) {n : ℤ} {f : ℕ → Bool}
    (hdir : ∀ b : ℕ, db.dbm_dirbno = b → db.dbm_dirbuf = db.dirf b)
    (hdir' : ∀ b : ℕ, n = b → f = db.dirf b) :
    setbit { db with dbm_dirbno := n, dbm_dirbuf := f } = setbit db := by
  have heq : setbit { db with dbm_dirbno := n, dbm_dirbuf := f } = _ := setbit_eq hdir'
  rw [heq, setbit_eq hdir]

/-- Data bases on one page differ in the buffer of the directory only. -/
theorem OnPage.eq (h : OnPage db1 db2) :
    db2 = { db1 with dbm_dirbno := db2.dbm_dirbno, dbm_dirbuf := db2.dbm_dirbuf } :=
  DBM.ext h.same.dirf h.same.pagf h.same.npag h.same.rdonly h.same.error h.same.maxbno
    h.bitno h.hmask
    h.same.blkptr h.same.keyptr h.blkno h.pagbno h.pagbuf rfl rfl

/-- The second page of a split is written in both or in neither, and then they are one. -/
theorem OnPage.split (h : OnPage db1 db2) (ovfbuf : Page) :
    (writePage (db1.dbm_blkno + db1.dbm_hmask + 1) ovfbuf db1 = none ∧
        writePage (db2.dbm_blkno + db2.dbm_hmask + 1) ovfbuf db2 = none) ∨
      ∃ db1' db2', writePage (db1.dbm_blkno + db1.dbm_hmask + 1) ovfbuf db1 = some db1' ∧
        writePage (db2.dbm_blkno + db2.dbm_hmask + 1) ovfbuf db2 = some db2' ∧
        setbit db2' = setbit db1' := by
  rw [h.blkno, h.hmask, writePage, writePage]
  cases seek (db1.dbm_blkno + db1.dbm_hmask + 1) with
  | none => exact .inl ⟨rfl, rfl⟩
  | some p =>
    refine .inr ⟨_, _, rfl, rfl, ?_⟩
    have hdir2 : ∀ b : ℕ, db2.dbm_dirbno = b → db2.dbm_dirbuf = db1.dirf b := by
      intro b hb
      rw [h.dir₂ b hb, h.same.dirf]
    rw [h.eq]
    exact setbit_dir { db1 with
      pagf := fun q => if q = p then ovfbuf else db1.pagf q
      npag := max db1.npag (p + 1) } h.dir₁ hdir2

/-! ## The calls -/

variable {v : Option datum} {r : ℤ × Option errno} {fuel : ℕ}

section

variable (h : Alike db1 db2)
include h

theorem Alike.fetch (hrun : dbm_fetch key db1 = some (v, db1')) :
    ∃ db2', dbm_fetch key db2 = some (v, db2') ∧ Alike db1' db2' := by
  rw [dbm_fetch] at hrun ⊢
  rw [h.same.error]
  split at hrun
  · next herr =>
    obtain ⟨rfl, rfl⟩ := Prod.mk.inj (Option.some.inj hrun)
    exact ⟨db2, if_pos herr, h⟩
  · next herr =>
    obtain ⟨db11, db22, hacc1, hacc2, hpage⟩ := h.access (dcalchash key)
    rw [if_neg herr, hacc2, Option.map_some, hpage.pagbuf]
    rw [hacc1, Option.map_some] at hrun
    cases hfind : finddatum db11.dbm_pagbuf key with
    | none =>
      rw [hfind] at hrun
      obtain ⟨rfl, rfl⟩ := Prod.mk.inj (Option.some.inj hrun)
      exact ⟨db22, rfl, hpage.alike⟩
    | some i =>
      rw [hfind] at hrun
      obtain ⟨rfl, rfl⟩ := Prod.mk.inj (Option.some.inj hrun)
      exact ⟨db22, rfl, hpage.alike⟩

theorem Alike.delete (hrun : dbm_delete key db1 = some (r, db1')) :
    ∃ db2', dbm_delete key db2 = some (r, db2') ∧ Alike db1' db2' := by
  rw [dbm_delete] at hrun ⊢
  rw [h.same.error, h.same.rdonly]
  split at hrun
  · next herr =>
    obtain ⟨rfl, rfl⟩ := Prod.mk.inj (Option.some.inj hrun)
    exact ⟨db2, if_pos herr, h⟩
  · next herr =>
    rw [if_neg herr]
    split at hrun
    · next hrd =>
      obtain ⟨rfl, rfl⟩ := Prod.mk.inj (Option.some.inj hrun)
      exact ⟨db2, if_pos hrd, h⟩
    · next hrd =>
      obtain ⟨db11, db22, hacc1, hacc2, hpage⟩ := h.access (dcalchash key)
      rw [if_neg hrd, hacc2, Option.map_some, hpage.pagbuf]
      rw [hacc1, Option.map_some] at hrun
      cases hfind : finddatum db11.dbm_pagbuf key with
      | none =>
        rw [hfind] at hrun
        obtain ⟨rfl, rfl⟩ := Prod.mk.inj (Option.some.inj hrun)
        exact ⟨db22, rfl, hpage.alike⟩
      | some i =>
        rw [hfind] at hrun
        cases hdel : delitem db11.dbm_pagbuf i with
        | none =>
          simp only [hdel] at hrun ⊢
          obtain ⟨rfl, rfl⟩ := Prod.mk.inj (Option.some.inj hrun)
          exact ⟨_, rfl, hpage.fail db11.dbm_pagbuf⟩
        | some buf =>
          obtain ⟨w1, w2, hw1, hw2, hpage'⟩ := hpage.write buf false
          simp only [Bool.or_false] at hw1 hw2
          simp only [hdel, hw1] at hrun
          simp only [hdel, hw2]
          obtain ⟨rfl, rfl⟩ := Prod.mk.inj (Option.some.inj hrun)
          exact ⟨w2, rfl, hpage'.alike⟩

/-- A round of `dbm_store`: its answer is the same, or the two data bases are one after it. -/
theorem Alike.storeRound (key dat : datum) (replace : Bool) :
    (dbm_storeRound key dat replace db1 = none ∧ dbm_storeRound key dat replace db2 = none) ∨
      (∃ r db1' db2', dbm_storeRound key dat replace db1 = some (.inl (r, db1')) ∧
        dbm_storeRound key dat replace db2 = some (.inl (r, db2')) ∧ Alike db1' db2') ∨
      ∃ db', dbm_storeRound key dat replace db1 = some (.inr db') ∧
        dbm_storeRound key dat replace db2 = some (.inr db') := by
  obtain ⟨db11, db22, hacc1, hacc2, hpage⟩ := h.access (dcalchash key)
  obtain ⟨n, f, rfl⟩ : ∃ n f, db22 = { db11 with dbm_dirbno := n, dbm_dirbuf := f } :=
    ⟨_, _, hpage.eq⟩
  rw [dbm_storeRound, hacc1, dbm_storeRound, hacc2]
  simp only
  by_cases hkeep : finddatum db11.dbm_pagbuf key ≠ none ∧ replace = false
  · rw [if_pos hkeep, if_pos hkeep]
    exact .inr (.inl ⟨_, _, _, rfl, rfl, hpage.alike⟩)
  · rw [if_neg hkeep, if_neg hkeep]
    cases (finddatum db11.dbm_pagbuf key).elim (some db11.dbm_pagbuf) (delitem db11.dbm_pagbuf) with
    | none => exact .inr (.inl ⟨_, _, _, rfl, rfl, hpage.fail db11.dbm_pagbuf⟩)
    | some buf =>
      cases hadd : additem buf key dat with
      | some buf' =>
        obtain ⟨w1, w2, hw1, hw2, hpage'⟩ := hpage.write buf' false
        simp only [Bool.or_false] at hw1 hw2
        simp only [hadd, hw1, hw2]
        exact .inr (.inl ⟨_, _, _, rfl, rfl, hpage'.alike⟩)
      | none =>
        simp only [hadd]
        by_cases hbig : key.length + dat.length + 3 * 2 ≥ PBLKSIZ
        · rw [if_pos hbig, if_pos hbig]
          exact .inr (.inl ⟨_, _, _, rfl, rfl, hpage.fail buf⟩)
        · rw [if_neg hbig, if_neg hbig]
          rcases splitLoop db11.dbm_hmask (sp buf 0 + 1) 0 buf zeroed with
            - | ⟨- | -, error, pagbuf, ovfbuf⟩
          · exact .inl ⟨rfl, rfl⟩
          · exact .inr (.inl ⟨_, _, _, rfl, rfl, hpage.fail pagbuf⟩)
          · obtain ⟨w1, w2, hw1, hw2, hpage'⟩ := hpage.write pagbuf error
            simp only [hw1, hw2]
            rcases hpage'.split ovfbuf with ⟨hs1, hs2⟩ | ⟨v1, v2, hs1, hs2, hone⟩
            · simp only [hs1, hs2]
              exact .inr (.inl ⟨_, _, _, rfl, rfl, hpage'.fail_same⟩)
            · simp only [hs1, hs2, hone]
              exact .inr (.inr ⟨_, rfl, rfl⟩)

/-- The loop of `dbm_store`: after the first split the two data bases are one. -/
theorem Alike.storeLoop (hrun : dbm_storeLoop key dat replace fuel db1 = some (r, db1')) :
    ∃ db2', dbm_storeLoop key dat replace fuel db2 = some (r, db2') ∧ Agree db1' db2' := by
  cases fuel with
  | zero => exact absurd hrun (by rw [dbm_storeLoop]; simp)
  | succ fuel =>
    rw [dbm_storeLoop] at hrun ⊢
    rcases h.storeRound key dat replace with
      ⟨h1, h2⟩ | ⟨r', w1, w2, h1, h2, hw⟩ | ⟨w, h1, h2⟩
    · rw [h1] at hrun
      exact absurd hrun (by simp)
    · rw [h1] at hrun
      rw [h2]
      obtain ⟨rfl, rfl⟩ := Prod.mk.inj (Option.some.inj hrun)
      exact ⟨w2, rfl, .inr hw⟩
    · rw [h1] at hrun
      rw [h2]
      exact ⟨db1', hrun, .inl rfl⟩

theorem Alike.store (hrun : dbm_store fuel key dat replace db1 = some (r, db1')) :
    ∃ db2', dbm_store fuel key dat replace db2 = some (r, db2') ∧ Agree db1' db2' := by
  rw [dbm_store] at hrun ⊢
  rw [h.same.error, h.same.rdonly]
  split at hrun
  · next herr =>
    obtain ⟨rfl, rfl⟩ := Prod.mk.inj (Option.some.inj hrun)
    exact ⟨db2, if_pos herr, .inr h⟩
  · next herr =>
    rw [if_neg herr]
    split at hrun
    · next hrd =>
      obtain ⟨rfl, rfl⟩ := Prod.mk.inj (Option.some.inj hrun)
      exact ⟨db2, if_pos hrd, .inr h⟩
    · next hrd =>
      rw [if_neg hrd]
      exact h.storeLoop hrun

theorem Alike.place (blkptr keyptr : ℕ) :
    Alike (place db1 blkptr keyptr) (place db2 blkptr keyptr) :=
  ⟨⟨h.same.dirf, h.same.pagf, h.same.npag, h.same.rdonly, h.same.error, h.same.maxbno, rfl, rfl⟩,
    ⟨h.sound.small, h.sound.many, h.sound.beyond, h.sound.dark⟩, h.dir₁, h.dir₂,
    h.page.imp (fun hc => ⟨hc.1.place _ _, hc.2.place _ _⟩) id⟩

/-- The page the walks are at is the same in both buffers. -/
theorem Alike.walkPage (hblk : db1.dbm_blkptr < 2 ^ 21) :
    ∃ db1' db2', (if (db1.dbm_blkptr : ℤ) ≠ db1.dbm_pagbno then
        readPage db1.dbm_blkptr { db1 with dbm_pagbno := db1.dbm_blkptr } else db1) = db1' ∧
      (if (db2.dbm_blkptr : ℤ) ≠ db2.dbm_pagbno then
        readPage db2.dbm_blkptr { db2 with dbm_pagbno := db2.dbm_blkptr } else db2) = db2' ∧
      Alike db1' db2' ∧ db2'.dbm_pagbuf = db1'.dbm_pagbuf ∧ db1'.dbm_blkptr = db1.dbm_blkptr ∧
      db1'.npag = db1.npag := by
  obtain ⟨db1', hrun1, hsame1, hdir1, hno1, hbuf1⟩ := Ndbm.walkPage h.sound h.dir₁ hblk
  obtain ⟨db2', hrun2, hsame2, hdir2, hno2, hbuf2⟩ :=
    Ndbm.walkPage (h.same.sound h.sound) h.dir₂ (h.same.blkptr ▸ hblk)
  have hbuf : db2'.dbm_pagbuf = db1'.dbm_pagbuf := by
    rw [hbuf1, hbuf2, h.buffer, h.same.blkptr]
  refine ⟨db1', db2', hrun1, hrun2, ⟨(hsame1.symm.trans h.same).trans hsame2,
    hsame1.sound h.sound, hdir1, hdir2, .inr ⟨?_, hbuf⟩⟩, hbuf, hsame1.blkptr, hsame1.npag⟩
  rw [hno1, hno2, h.same.blkptr]

theorem Alike.nextkeyLoop (hblk : db1.dbm_blkptr < 2 ^ 21)
    (hrun : dbm_nextkeyLoop db1.npag fuel db1 = some (v, db1')) :
    ∃ db2', dbm_nextkeyLoop db1.npag fuel db2 = some (v, db2') ∧ Alike db1' db2' := by
  induction fuel generalizing db1 db2 with
  | zero => exact absurd hrun (by rw [dbm_nextkeyLoop]; simp)
  | succ fuel ih =>
    obtain ⟨w1, w2, hpage1, hpage2, hw, hbuf, hptr, hnpag⟩ := h.walkPage hblk
    rw [dbm_nextkeyLoop] at hrun ⊢
    simp only [hpage1] at hrun
    simp only [hpage2]
    have hfound : (if sp w2.dbm_pagbuf 0 ≠ 0 then makdatum w2.dbm_pagbuf w2.dbm_keyptr
        else none) =
        if sp w1.dbm_pagbuf 0 ≠ 0 then makdatum w1.dbm_pagbuf w1.dbm_keyptr else none := by
      rw [hbuf, hw.same.keyptr]
    rw [hfound]
    cases hmak : (if sp w1.dbm_pagbuf 0 ≠ 0 then makdatum w1.dbm_pagbuf w1.dbm_keyptr
        else none) with
    | some item =>
      rw [hmak] at hrun
      obtain ⟨rfl, rfl⟩ := Prod.mk.inj (Option.some.inj hrun)
      have hnext : Alike (Ndbm.place w1 w1.dbm_blkptr (w1.dbm_keyptr + 2))
          (Ndbm.place w2 w2.dbm_blkptr (w2.dbm_keyptr + 2)) := by
        rw [hw.same.blkptr, hw.same.keyptr]
        exact hw.place _ _
      exact ⟨_, rfl, hnext⟩
    | none =>
      rw [hmak] at hrun
      obtain ⟨key', hkey1, hkey2⟩ : ∃ key',
          (if sp w1.dbm_pagbuf 0 ≠ 0 then { w1 with dbm_keyptr := 0 } else w1) =
            Ndbm.place w1 w1.dbm_blkptr key' ∧
          (if sp w2.dbm_pagbuf 0 ≠ 0 then { w2 with dbm_keyptr := 0 } else w2) =
            Ndbm.place w2 w2.dbm_blkptr key' := by
        have hlen : sp w2.dbm_pagbuf 0 = sp w1.dbm_pagbuf 0 := by rw [hbuf]
        by_cases hno : sp w1.dbm_pagbuf 0 ≠ 0
        · exact ⟨0, if_pos hno, if_pos (by rwa [hlen])⟩
        · refine ⟨w1.dbm_keyptr, if_neg hno, (if_neg (by rwa [hlen])).trans ?_⟩
          rw [← hw.same.keyptr]
          rfl
      simp only [hkey1] at hrun
      simp only [hkey2]
      have hnext : Alike (Ndbm.place w1 (w1.dbm_blkptr + 1) key')
          (Ndbm.place w2 (w2.dbm_blkptr + 1) key') := by
        rw [hw.same.blkptr]
        exact hw.place _ _
      change ∃ db2', (if w2.dbm_blkptr + 1 ≥ db1.npag then
          some (none, Ndbm.place w2 (w2.dbm_blkptr + 1) key')
        else dbm_nextkeyLoop db1.npag fuel (Ndbm.place w2 (w2.dbm_blkptr + 1) key')) =
          some (v, db2')
          ∧ _
      change (if w1.dbm_blkptr + 1 ≥ db1.npag then
          some (none, Ndbm.place w1 (w1.dbm_blkptr + 1) key')
        else dbm_nextkeyLoop db1.npag fuel (Ndbm.place w1 (w1.dbm_blkptr + 1) key')) =
          some (v, db1') at hrun
      split at hrun
      · next hlast =>
        obtain ⟨rfl, rfl⟩ := Prod.mk.inj (Option.some.inj hrun)
        exact ⟨_, if_pos (by rw [hw.same.blkptr]; exact hlast), hnext⟩
      · next hlast =>
        rw [if_neg (by rw [hw.same.blkptr]; exact hlast)]
        have hmany := h.sound.many
        have hst : (Ndbm.place w1 (w1.dbm_blkptr + 1) key').npag = db1.npag := hnpag
        rw [← hst] at hrun ⊢
        exact ih hnext (show w1.dbm_blkptr + 1 < 2 ^ 21 by omega) hrun

theorem Alike.nextkey (hblk : db1.dbm_blkptr < 2 ^ 21) (hrun : dbm_nextkey db1 = some (v, db1')) :
    ∃ db2', dbm_nextkey db2 = some (v, db2') ∧ Alike db1' db2' := by
  rw [dbm_nextkey] at hrun ⊢
  rw [h.same.error, h.same.npag]
  split at hrun
  · next herr =>
    obtain ⟨rfl, rfl⟩ := Prod.mk.inj (Option.some.inj hrun)
    exact ⟨db2, if_pos herr, h⟩
  · next herr =>
    rw [if_neg herr]
    exact h.nextkeyLoop hblk hrun

end

/-! ## Runs -/

/-- Any call, of whatever outcome. -/
def Later (db : DBM) (op : Op) (a : Answer) (db' : DBM) : Prop := Sensible db op ∧ Does db op a db'

/-- **A call answers the same** in two data bases that are alike. -/
theorem Alike.later (h : Alike db1 db2) (hlater : Later db1 op a db1') :
    ∃ db2', Later db2 op a db2' ∧ Agree db1' db2' := by
  obtain ⟨hsens, hdoes⟩ := hlater
  cases hdoes with
  | fetch hrun =>
    obtain ⟨db2', hrun', h'⟩ := h.fetch hrun
    exact ⟨db2', ⟨hsens, .fetch hrun'⟩, .inr h'⟩
  | store hrun =>
    obtain ⟨db2', hrun', h'⟩ := h.store hrun
    exact ⟨db2', ⟨hsens, .store hrun'⟩, h'⟩
  | delete hrun =>
    obtain ⟨db2', hrun', h'⟩ := h.delete hrun
    exact ⟨db2', ⟨hsens, .delete hrun'⟩, .inr h'⟩
  | firstkey hrun =>
    obtain ⟨db2', hrun', h'⟩ := (h.place 0 0).nextkey (show 0 < 2 ^ 21 by omega) hrun
    exact ⟨db2', ⟨hsens, .firstkey hrun'⟩, .inr h'⟩
  | nextkey hrun =>
    obtain ⟨db2', hrun', h'⟩ := h.nextkey hsens hrun
    exact ⟨db2', ⟨show db2.dbm_blkptr < 2 ^ 21 from h.same.blkptr ▸ hsens, .nextkey hrun'⟩,
      .inr h'⟩
  | clearerr =>
    refine ⟨dbm_clearerr db2, ⟨hsens, .clearerr⟩, .inr ⟨⟨h.same.dirf, h.same.pagf, h.same.npag,
      h.same.rdonly, rfl, h.same.maxbno, h.same.blkptr, h.same.keyptr⟩,
      ⟨h.sound.small, h.sound.many, h.sound.beyond, h.sound.dark⟩, h.dir₁, h.dir₂,
      h.page.imp (fun hc => ⟨⟨hc.1.pag, hc.1.dir⟩, ⟨hc.2.pag, hc.2.dir⟩⟩) id⟩⟩
  | @reopen st_size rdonly =>
    refine ⟨_, ⟨?_, .reopen⟩, .inl ?_⟩
    · have hsize : db1.dbm_maxbno < st_size * BYTESIZ := hsens
      rw [← h.same.maxbno] at hsize
      exact hsize
    · rw [h.same.dirf, h.same.pagf, h.same.npag]

theorem Agree.later (h : Agree db1 db2) (hlater : Later db1 op a db1') :
    ∃ db2', Later db2 op a db2' ∧ Agree db1' db2' := by
  rcases h with rfl | h
  · exact ⟨db1', hlater, .inl rfl⟩
  · exact h.later hlater

/-- **The runs are the same**. -/
theorem Agree.runs (h : Agree db1 db2) (hrun : Runs Later db1 evs db1') :
    ∃ db2', Runs Later db2 evs db2' ∧ Agree db1' db2' := by
  induction hrun with
  | nil => exact ⟨db2, .nil, h⟩
  | snoc _ hstep ih =>
    obtain ⟨db2', hrun2, h'⟩ := ih
    obtain ⟨db2'', hstep2, h''⟩ := h'.later hstep
    exact ⟨db2'', .snoc hrun2 hstep2, h''⟩

/-- There are no calls that tell one data base from the other. -/
def Indistinct (db1 db2 : DBM) : Prop :=
  ∀ evs, (∃ db1', Runs Later db1 evs db1') ↔ ∃ db2', Runs Later db2 evs db2'

theorem Agree.indistinct (h : Agree db1 db2) : Indistinct db1 db2 := by
  intro evs
  constructor
  · rintro ⟨db1', hrun⟩
    obtain ⟨db2', hrun', -⟩ := h.runs hrun
    exact ⟨db2', hrun'⟩
  · rintro ⟨db2', hrun⟩
    obtain ⟨db1', hrun', -⟩ := h.symm.runs hrun
    exact ⟨db1', hrun'⟩

end Ndbm

/-! # A pair that is too large

`dbm_store` takes the old pair of the key out of the page in the buffer before it sees
that the new one fits on no page, and the buffer still counts as that page.  The file
is not written; but when the flag for the error has been cleared, the old pair is
missing until another page is read.
-/

namespace Ndbm

open BitTrie

variable {db db0 db' : DBM} {key dat : datum} {replace : Bool} {evs : List (Op × Answer)}
  {fuel : ℕ}

theorem storeRound_nospace (h : dbm_storeRound key dat replace db =
    some (.inl ((-1, some .ENOSPC), db'))) :
    TooLarge key dat := by
  by_contra hsmall
  have hsmall : ¬ key.length + dat.length + 3 * 2 ≥ PBLKSIZ := hsmall
  rw [dbm_storeRound] at h
  simp only [if_neg hsmall] at h
  repeat' split at h
  all_goals simp at h

/-- There is no space for pairs that are too large only. -/
theorem storeLoop_nospace (h : dbm_storeLoop key dat replace fuel db =
    some ((-1, some .ENOSPC), db')) :
    TooLarge key dat := by
  induction fuel generalizing db with
  | zero => exact absurd h (by rw [dbm_storeLoop]; simp)
  | succ fuel ih =>
    rw [dbm_storeLoop] at h
    rcases hround : dbm_storeRound key dat replace db with - | ⟨r | db'⟩
    · rw [hround] at h
      exact absurd h (by simp)
    · rw [hround] at h
      obtain rfl := Option.some.inj h
      exact storeRound_nospace hround
    · rw [hround] at h
      exact ih h

/-- A store that finds no space was let in, and it was not one to leave the key alone. -/
theorem store_nospace (hv : Valid db)
    (h : dbm_store fuel key dat replace db = some ((-1, some .ENOSPC), db')) :
    TooLarge key dat ∧ db.dbm_error = false ∧
      dbm_storeLoop key dat replace fuel db = some ((-1, some .ENOSPC), db') ∧
      ¬ (contents db key ≠ none ∧ replace = false) := by
  rw [dbm_store] at h
  split at h
  · exact absurd h (by simp)
  · next herr =>
    split at h
    · exact absurd h (by simp)
    · refine ⟨storeLoop_nospace h, by simpa using herr, h, fun hkeep => ?_⟩
      obtain ⟨db1, hrun, -⟩ := storeLoop_keep dat fuel hv hkeep.1 hkeep.2
      have heq := (storeLoop_mono (Nat.le_succ fuel) h).symm.trans hrun
      exact absurd heq (by simp)

/-- When the value is to be replaced, the pair of the key is out of the buffer. -/
theorem storeLoop_replace (hv : Valid db) (hbig : TooLarge key dat)
    (h : dbm_storeLoop key dat true fuel db = some ((-1, some .ENOSPC), db')) :
    ∃ db'', dbm_fetch key (dbm_clearerr db') = some (none, db'') := by
  obtain ⟨hc, pairs, hf⟩ := hv
  obtain ⟨k, hk21, hk⟩ := hf.exists_leaf (dcalchash key)
  have hle := hk21.trans (usable_le (dcalchash key))
  obtain ⟨db1, hacc, hsame, hc1, hmask, hblk, hbit, hno, hbuf⟩ := access_spec hf.toSound hc hle hk
  have hpage := hf.page (dcalchash key % 2 ^ k)
  rw [← hbuf] at hpage
  obtain ⟨buf, helim, hbuf'⟩ := hpage.found_elim key (hf.nodup _)
  have hroom : ¬ space (without key (pairs (dcalchash key % 2 ^ k))) + key.length + dat.length + 4
      < PBLKSIZ := by
    have hle : 2 ≤ space (without key (pairs (dcalchash key % 2 ^ k))) := by
      rw [space]
      omega
    rw [TooLarge] at hbig
    omega
  have hend : dbm_storeLoop key dat true (fuel + 1) db = some ((-1, some .ENOSPC),
      { db1 with dbm_pagbuf := buf, dbm_error := true }) := by
    rw [dbm_storeLoop, dbm_storeRound, hacc]
    simp only
    rw [if_neg (by simp), helim]
    simp only [hbuf'.additem_pair_none hroom]
    rw [if_pos (show key.length + dat.length + 3 * 2 ≥ PBLKSIZ from hbig)]
  have hdb := (Prod.mk.inj (Option.some.inj
    ((storeLoop_mono (Nat.le_succ fuel) h).symm.trans hend))).2
  have hclear : dbm_clearerr db' = { db1 with dbm_pagbuf := buf, dbm_error := false } := by
    rw [hdb, dbm_clearerr]
  have hs1 : Sound db1 := hsame.sound hf.toSound
  have hs2 : Sound { db1 with dbm_pagbuf := buf, dbm_error := false } :=
    ⟨hs1.small, hs1.many, hs1.beyond, hs1.dark⟩
  have hk2 : IsLeaf (bit { db1 with dbm_pagbuf := buf, dbm_error := false }) k (dcalchash key) := by
    change IsLeaf (bit db1) k (dcalchash key)
    rw [hsame.bit]
    exact hk
  obtain ⟨db2, hacc2, -, -, -, -, -, -, hbuf2⟩ := access_page hs2 hc1.dir hle hk2
  rw [if_neg (by rw [not_not]; exact hno.symm)] at hbuf2
  refine ⟨db2, ?_⟩
  rw [dbm_fetch, hclear, if_neg (by simp), hacc2, Option.map_some, hbuf2,
    hbuf'.finddatum_none not_mem_keys_without]

/-- **A store that finds no space does no harm if and only if it does not replace**: once the
flag has been cleared, no call tells the data base from what it was. -/
theorem nospace_harmless_iff (hv : Valid db0) (hrun : Runs Step db0 evs db)
    (hstore : dbm_store fuel key dat replace db = some ((-1, some .ENOSPC), db')) :
    Indistinct (dbm_clearerr db') db ↔ ¬ (key ∈ keys (stored db) ∧ replace = true) := by
  have hv1 : Valid db := (run_spec hv hrun).2
  obtain ⟨hbig, herr, hloop, hgo⟩ := store_nospace hv1 hstore
  constructor
  · rintro hsame ⟨hin, rfl⟩
    have hne : contents db key ≠ none := contents_ne_none_iff.mpr hin
    obtain ⟨db1, hgone⟩ := storeLoop_replace hv1 hbig hloop
    have hfirst : Runs Later (dbm_clearerr db') [(.fetch key, .item none)] db1 :=
      .snoc .nil ⟨trivial, .fetch hgone⟩
    obtain ⟨db2, hsecond⟩ := (hsame _).mp ⟨db1, hfirst⟩
    obtain ⟨db3, hfetch, -⟩ := fetch_spec hv1 key
    have hstep := hsecond.of_single.2
    cases hstep with
    | fetch hfetch' =>
      have hmap : (abstract db).fetch key = contents db key := if_neg (by simp [abstract, herr])
      have hans := (Prod.mk.inj (Option.some.inj (hfetch.symm.trans hfetch'))).1
      exact hne (hmap.symm.trans hans)
  · intro hno
    have hnone : contents db key = none := by
      by_contra hne
      rcases replace with - | -
      · exact hgo ⟨hne, rfl⟩
      · exact hno ⟨contents_ne_none_iff.mp hne, rfl⟩
    obtain ⟨db1, hloop', hsame, hv'⟩ := storeLoop_tooLarge replace fuel hv1 hnone hbig
    have hdb := (Prod.mk.inj (Option.some.inj
      ((storeLoop_mono (Nat.le_succ fuel) hloop).symm.trans hloop'))).2
    subst hdb
    obtain ⟨hc, pairs, hf⟩ := hv1
    have halike : Alike (dbm_clearerr db') db := by
      refine ⟨⟨hsame.dirf.symm, hsame.pagf.symm, hsame.npag.symm, hsame.rdonly.symm, herr,
        hsame.maxbno.symm, hsame.blkptr.symm, hsame.keyptr.symm⟩, ?_, hv'.1.dir, hc.dir,
        .inl ⟨hv'.clearerr.1, hc⟩⟩
      obtain ⟨-, pairs', hf'⟩ := hv'.clearerr
      exact hf'.toSound
    exact Agree.indistinct (.inr halike)

theorem nospace_harmless_iff_fresh : ∃ db',
    dbm_store 22 [1] (List.replicate 1020 0) true fresh = some ((-1, some .ENOSPC), db') ∧
      Indistinct (dbm_clearerr db') fresh := by
  have hbig : TooLarge [1] (List.replicate 1020 0) := by
    rw [TooLarge, List.length_replicate]
    decide
  have hnone : [1] ∉ keys (stored fresh) := by decide
  have hmeets : Meets [1] (List.replicate 1020 0) true fresh := .inr (.inl ⟨hnone, hbig⟩)
  obtain ⟨db', hstore, -⟩ := store_spec valid_fresh hmeets
  have hans : ((abstract fresh).store [1] (List.replicate 1020 0) true).1 = (-1, some .ENOSPC) := by
    have hmap : (abstract fresh).map [1] = none := by decide
    rw [Abstract.store, if_neg (by decide), if_neg (by decide), hmap, if_neg (by simp), if_pos hbig]
  have hfirst := hstore 22 (le_refl _)
  rw [hans] at hfirst
  exact ⟨db', hfirst, (nospace_harmless_iff valid_fresh .nil hfirst).mpr fun h => hnone h.1⟩

/-- A key whose value is to be replaced by one that is too large: it had a value, and has none
when the flag has been cleared. -/
theorem nospace_harmful :
    ((dbm_store 22 [1] [2] true fresh).bind fun r => dbm_fetch [1] r.2).map Prod.fst =
      some (some [2]) ∧
    ((dbm_store 22 [1] [2] true fresh).bind fun r =>
      dbm_store 22 [1] (List.replicate 1020 0) true r.2).map Prod.fst =
      some (-1, some .ENOSPC) ∧
    (((dbm_store 22 [1] [2] true fresh).bind fun r =>
      dbm_store 22 [1] (List.replicate 1020 0) true r.2).bind fun r =>
      dbm_fetch [1] (dbm_clearerr r.2)).map Prod.fst = some none := by
  decide +kernel

end Ndbm
