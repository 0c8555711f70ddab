/-
# The way down the directory

The bits of the directory are the inner nodes of a trie over the low bits of the
hash; `dbm_access` walks to the leaf and has its page in the buffer.  `Files` is what
holds of the files of a data base, `Caches` that the two buffers agree with them.
-/
import SunOS.Lib.BitTrie
import SunOS.Ndbm.Pairs

namespace Ndbm

open BitTrie

/-- The bit `n` of the directory. -/
def bit (db : DBM) (n : ℕ) : Bool :=
  decide ((n : ℤ) ≤ db.dbm_maxbno) && db.dirf (n / 32768) (n % 32768)

/-- The buffer of the directory holds what is in the file. -/
def DirCached (db : DBM) : Prop := ∀ b : ℕ, db.dbm_dirbno = b → db.dbm_dirbuf = db.dirf b

/-- The buffers hold what is in the files. -/
structure Caches (db : DBM) : Prop where
  pag : ∀ p : ℕ, db.dbm_pagbno = p → db.dbm_pagbuf = db.pagf p
  dir : DirCached db

/-- How many bits of a hash tell pages apart whose offsets, and those of their ends, are longs.
There are 21 of them, but when the other 20 are set the last one leads to the page that would
end at `2 ^ 31`. -/
def usable (hash : ℕ) : ℕ := if hash % 2 ^ 20 + 1 = 2 ^ 20 then 20 else 21

/-- The pages are so few that they can be read and written, and nothing is behind the ends of
the two files. -/
structure Sound (db : DBM) : Prop where
  small : ∀ n, bit db n = true → n + 2 < 2 ^ 21
  many : db.npag < 2 ^ 21
  beyond : ∀ p, db.npag ≤ p → db.pagf p = zeroed
  dark : ∀ n : ℕ, (n : ℤ) > db.dbm_maxbno → db.dirf (n / 32768) (n % 32768) = false

/-- The files are those of a data base with these pairs on its pages: the pages hold pairs
with different keys, with room to spare, and a pair is on the page of the leaf of its hash. -/
structure Files (db : DBM) (pairs : ℕ → List Pair) : Prop extends Sound db where
  page : ∀ p, Holds (db.pagf p) (ofPairs (pairs p))
  nodup : ∀ p, (keys (pairs p)).Nodup
  fits : ∀ p, space (pairs p) < PBLKSIZ
  placed : ∀ p, ∀ q ∈ pairs p, ∃ k, IsLeaf (bit db) k (dcalchash q.1) ∧ dcalchash q.1 % 2 ^ k = p
  closed : Closed (bit db)

/-- The files, the flags and the place of `dbm_nextkey` are the same. -/
structure Same (db db' : DBM) : Prop where
  dirf : db'.dirf = db.dirf
  pagf : db'.pagf = db.pagf
  npag : db'.npag = db.npag
  rdonly : db'.dbm_rdonly = db.dbm_rdonly
  error : db'.dbm_error = db.dbm_error
  maxbno : db'.dbm_maxbno = db.dbm_maxbno
  blkptr : db'.dbm_blkptr = db.dbm_blkptr
  keyptr : db'.dbm_keyptr = db.dbm_keyptr

/-- A look at the directory leaves the page in the buffer. -/
structure Looked (db db' : DBM) : Prop where
  same : Same db db'
  dir : DirCached db'
  pagbno : db'.dbm_pagbno = db.dbm_pagbno
  pagbuf : db'.dbm_pagbuf = db.dbm_pagbuf

variable {db db' db'' : DBM} {pairs : ℕ → List Pair} {hash k : ℕ}

theorem Same.refl (db : DBM) : Same db db := ⟨rfl, rfl, rfl, rfl, rfl, rfl, rfl, rfl⟩

theorem Same.trans (h : Same db db') (h' : Same db' db'') : Same db db'' :=
  ⟨h'.dirf.trans h.dirf, h'.pagf.trans h.pagf, h'.npag.trans h.npag, h'.rdonly.trans h.rdonly,
    h'.error.trans h.error, h'.maxbno.trans h.maxbno, h'.blkptr.trans h.blkptr,
    h'.keyptr.trans h.keyptr⟩

theorem Same.bit (h : Same db db') : bit db' = bit db := by
  funext n
  rw [Ndbm.bit, Ndbm.bit, h.maxbno, h.dirf]

theorem Same.sound (h : Same db db') (hs : Sound db) : Sound db' where
  small n hn := hs.small n (h.bit ▸ hn)
  many := h.npag ▸ hs.many
  beyond p hp := by
    rw [h.pagf]
    exact hs.beyond p (h.npag ▸ hp)
  dark n hn := by
    rw [h.dirf]
    exact hs.dark n (h.maxbno ▸ hn)

theorem Same.files (h : Same db db') (hf : Files db pairs) : Files db' pairs where
  toSound := h.sound hf.toSound
  page p := h.pagf ▸ hf.page p
  nodup := hf.nodup
  fits := hf.fits
  placed p q hq := by
    rw [h.bit]
    exact hf.placed p q hq
  closed := by
    rw [h.bit]
    exact hf.closed

theorem Looked.trans (h : Looked db db') (h' : Looked db' db'') : Looked db db'' :=
  ⟨h.same.trans h'.same, h'.dir, h'.pagbno.trans h.pagbno, h'.pagbuf.trans h.pagbuf⟩

/-! ## One bit -/

theorem bit_index (n : ℕ) : n / BYTESIZ / DBLKSIZ = n / 32768 ∧
    BYTESIZ * (n / BYTESIZ % DBLKSIZ) + n % BYTESIZ = n % 32768 := by
  unfold BYTESIZ DBLKSIZ
  omega

theorem loadDir_eq (b : ℕ) (hdir : DirCached db) :
    loadDir b db = { db with dbm_dirbno := b, dbm_dirbuf := db.dirf b } := by
  rw [loadDir]
  by_cases hb : (b : ℤ) ≠ db.dbm_dirbno
  · rw [if_pos hb]
  · rw [if_neg hb]
    rw [not_not] at hb
    rw [hb, ← hdir b hb.symm]

theorem getbit_spec (hdir : DirCached db) :
    (getbit db).1 = bit db db.dbm_bitno ∧ Looked db (getbit db).2 ∧
      (getbit db).2.dbm_blkno = db.dbm_blkno ∧ (getbit db).2.dbm_bitno = db.dbm_bitno ∧
      (getbit db).2.dbm_hmask = db.dbm_hmask := by
  rw [getbit, bit]
  by_cases hmax : (db.dbm_bitno : ℤ) > db.dbm_maxbno
  · rw [if_pos hmax, decide_eq_false (by omega)]
    exact ⟨rfl, ⟨Same.refl db, hdir, rfl, rfl⟩, rfl, rfl, rfl⟩
  · obtain ⟨hb, hi⟩ := bit_index db.dbm_bitno
    rw [if_neg hmax, decide_eq_true (by omega), Bool.true_and]
    simp only [hb, hi, loadDir_eq _ hdir, and_true, true_and]
    refine ⟨⟨rfl, rfl, rfl, rfl, rfl, rfl, rfl, rfl⟩, fun b hb => ?_, rfl, rfl⟩
    rw [show b = db.dbm_bitno / 32768 from (Int.ofNat.inj hb).symm]

/-! ## The walk -/

variable {p : ℕ}

theorem and_mask (hash k : ℕ) :
    hash &&& (2 ^ k - 1) = hash % 2 ^ k := Nat.and_two_pow_sub_one_eq_mod hash k

theorem accessLoop_spec {j fuel : ℕ} (hdir : DirCached db) (hleaf : IsLeaf (bit db) k hash)
    (hjk : j ≤ k)
    (hk : k ≤ 21) (hfuel : k < fuel + j) (hmask : db.dbm_hmask = 2 ^ j - 1) :
    ∃ db', dbm_accessLoop hash fuel db = some db' ∧ Looked db db' ∧
      db'.dbm_hmask = 2 ^ k - 1 ∧ db'.dbm_blkno = hash % 2 ^ k ∧ db'.dbm_bitno = node k hash := by
  induction fuel generalizing db j with
  | zero => lia
  | succ fuel ih =>
    have hpow : 2 ^ j ≤ 2 ^ 21 := Nat.pow_le_pow_right (by lia) (hjk.trans hk)
    have hpos : 0 < 2 ^ j := Nat.two_pow_pos j
    have hlt : hash % 2 ^ j < 2 ^ j := Nat.mod_lt hash hpos
    have hand : hash &&& db.dbm_hmask = hash % 2 ^ j := by rw [hmask, and_mask]
    rw [dbm_accessLoop]
    simp only [hand]
    rw [if_neg (by lia)]
    generalize hdb : ({ db with
      dbm_blkno := hash % 2 ^ j
      dbm_bitno := hash % 2 ^ j + db.dbm_hmask } : DBM) = db1
    have hlook1 : Looked db db1 := by
      rw [← hdb]
      exact ⟨⟨rfl, rfl, rfl, rfl, rfl, rfl, rfl, rfl⟩, hdir, rfl, rfl⟩
    have hbit1 : db1.dbm_bitno = node j hash := by
      rw [← hdb, node, ← hmask]
    have hblk1 : db1.dbm_blkno = hash % 2 ^ j := by rw [← hdb]
    have hmask1 : db1.dbm_hmask = 2 ^ j - 1 := by
      rw [← hdb]
      exact hmask
    obtain ⟨hval, hlook, hblk, hbit, hmask2⟩ := getbit_spec hlook1.dir
    rw [hbit1, hlook1.same.bit] at hval
    rcases hget : getbit db1 with ⟨v, db2⟩
    rw [hget] at hval hlook hblk hbit hmask2
    rcases Nat.lt_or_eq_of_le hjk with hjk' | rfl
    · have hv : v = true := hval.trans (hleaf.above j hjk')
      rw [hv]
      have hlook2 : Looked db { db2 with dbm_hmask := 2 * db2.dbm_hmask + 1 } :=
        hlook1.trans ⟨⟨hlook.same.dirf, hlook.same.pagf, hlook.same.npag, hlook.same.rdonly,
          hlook.same.error, hlook.same.maxbno, hlook.same.blkptr, hlook.same.keyptr⟩, hlook.dir,
          hlook.pagbno, hlook.pagbuf⟩
      have hnext : 2 * db2.dbm_hmask + 1 = 2 ^ (j + 1) - 1 := by
        rw [hmask2, hmask1, pow_succ]
        lia
      obtain ⟨db', hrun, hlook', hrest⟩ := ih hlook2.dir (by rw [hlook2.same.bit]; exact hleaf)
        (show j + 1 ≤ k by lia) (by lia) hnext
      exact ⟨db', hrun, hlook2.trans hlook', hrest⟩
    · have hv : v = false := hval.trans hleaf.leaf
      rw [hv]
      exact ⟨db2, rfl, hlook1.trans hlook, hmask2.trans hmask1, hblk.trans hblk1,
        hbit.trans hbit1⟩

/-- The pages whose offset and end are longs. -/
theorem seek_eq (hp : p < 2 ^ 21) : seek p = if p + 1 < 2 ^ 21 then some p else none := by
  have hpos : p * PBLKSIZ % 2 ^ 32 = p * 1024 := Nat.mod_eq_of_lt (by unfold PBLKSIZ; omega)
  have hend : (p * 1024 + PBLKSIZ % 2 ^ 32) % 2 ^ 32 = p * 1024 + 1024 :=
    Nat.mod_eq_of_lt (by unfold PBLKSIZ; omega)
  rw [seek]
  simp only [BitVec.msb_eq_decide, BitVec.toNat_add, BitVec.toNat_ofNat, hpos, hend,
    Bool.or_eq_true,
    decide_eq_true_eq]
  by_cases hlt : p + 1 < 2 ^ 21
  · rw [if_neg (by omega), if_pos hlt, show p * 1024 / PBLKSIZ = p by unfold PBLKSIZ; omega]
  · rw [if_pos (by omega), if_neg hlt]

theorem seek_of_lt (hp : p + 1 < 2 ^ 21) : seek p = some p := by
  rw [seek_eq (by omega), if_pos hp]

/-- A page that is not there is empty. -/
theorem readPage_eq (hp : p < 2 ^ 21) (hs : Sound db) :
    readPage p db = { db with dbm_pagbuf := db.pagf p } := by
  have hmany := hs.many
  have hread : ((seek p).elim zeroed fun p => if p < db.npag then db.pagf p else zeroed) =
    db.pagf p := by
    by_cases hin : p < db.npag
    · rw [seek_of_lt (by omega)]
      exact if_pos hin
    · rw [hs.beyond p (Nat.le_of_not_lt hin), seek_eq hp]
      split
      · exact if_neg hin
      · rfl
  rw [readPage, hread]

theorem readPage_of_lt (hp : p < 2 ^ 21) (hs : Sound db) (hdir : DirCached db) :
    Same db (readPage p { db with dbm_pagbno := p }) ∧
      DirCached (readPage p { db with dbm_pagbno := p }) ∧
      (readPage p { db with dbm_pagbno := p }).dbm_pagbuf = db.pagf p ∧
      (readPage p { db with dbm_pagbno := p }).dbm_pagbno = p ∧
      (readPage p { db with dbm_pagbno := p }).dbm_blkno = db.dbm_blkno ∧
      (readPage p { db with dbm_pagbno := p }).dbm_bitno = db.dbm_bitno ∧
      (readPage p { db with dbm_pagbno := p }).dbm_hmask = db.dbm_hmask := by
  have hs' : Sound { db with dbm_pagbno := p } := ⟨hs.small, hs.many, hs.beyond, hs.dark⟩
  rw [readPage_eq hp hs']
  exact ⟨⟨rfl, rfl, rfl, rfl, rfl, rfl, rfl, rfl⟩, hdir, rfl, rfl, rfl, rfl, rfl⟩

theorem usable_le (hash : ℕ) : usable hash ≤ 21 := by
  rw [usable]
  split <;> omega

/-- A page that the usable bits lead to can be read and written. -/
theorem page_lt (hk : k ≤ usable hash) : hash % 2 ^ k + 1 < 2 ^ 21 := by
  have hle := hk.trans (usable_le hash)
  rcases Nat.lt_or_ge k 21 with hk21 | hk21
  · have hpow : 2 ^ k ≤ 2 ^ 20 := Nat.pow_le_pow_right (by omega) (by omega)
    omega
  · obtain rfl : k = 21 := by omega
    rw [usable] at hk
    split at hk <;> omega

/-- When there is a usable bit left, the page it leads to can be read and written. -/
theorem split_lt (hk : k < usable hash) : hash % 2 ^ k + 2 ^ k + 1 < 2 ^ 21 := by
  rcases Nat.lt_or_ge k 20 with hk20 | hk20
  · have hpow : 2 ^ k ≤ 2 ^ 19 := Nat.pow_le_pow_right (by omega) (by omega)
    omega
  · obtain rfl : k = 20 := by
      have hle := hk.trans_le (usable_le hash)
      omega
    rw [usable] at hk
    split at hk <;> omega

/-- Every hash has a leaf, which the usable bits lead to. -/
theorem Sound.exists_leaf (hs : Sound db) (hash : ℕ) :
    ∃ k ≤ usable hash, IsLeaf (bit db) k hash := by
  apply exists_isLeaf
  by_contra hin
  have hlt := hs.small _ (by simpa using hin)
  rw [node, usable] at hlt
  split at hlt <;> omega

/-- `dbm_access` has a page in the buffer, read from the file if it was not there. -/
theorem access_page (hs : Sound db) (hdir : DirCached db) (hk : k ≤ 21)
    (hleaf : IsLeaf (bit db) k hash) :
    ∃ db', dbm_access hash db = some db' ∧ Same db db' ∧ DirCached db' ∧
      db'.dbm_hmask = 2 ^ k - 1 ∧ db'.dbm_blkno = hash % 2 ^ k ∧ db'.dbm_bitno = node k hash ∧
      db'.dbm_pagbno = (hash % 2 ^ k : ℕ) ∧
      db'.dbm_pagbuf =
        if ((hash % 2 ^ k : ℕ) : ℤ) ≠ db.dbm_pagbno then db.pagf (hash % 2 ^ k)
        else db.dbm_pagbuf := by
  have hdir0 : DirCached { db with dbm_hmask := 0 } := hdir
  obtain ⟨db1, hrun, hlook, hmask, hblk, hbit⟩ :
      ∃ db1, dbm_accessLoop hash 33 { db with dbm_hmask := 0 } = some db1 ∧
        Looked { db with dbm_hmask := 0 } db1 ∧ db1.dbm_hmask = 2 ^ k - 1 ∧
        db1.dbm_blkno = hash % 2 ^ k ∧ db1.dbm_bitno = node k hash :=
    accessLoop_spec hdir0 hleaf (Nat.zero_le k) hk (by omega) rfl
  have hsame0 : Same db { db with dbm_hmask := 0 } := ⟨rfl, rfl, rfl, rfl, rfl, rfl, rfl, rfl⟩
  have hsame1 : Same db db1 := hsame0.trans hlook.same
  have hpagbno : db1.dbm_pagbno = db.dbm_pagbno := hlook.pagbno
  have hpow : 2 ^ k ≤ 2 ^ 21 := Nat.pow_le_pow_right (by omega) hk
  have hlt : hash % 2 ^ k < 2 ^ k := Nat.mod_lt hash (Nat.two_pow_pos k)
  have hpage : db1.dbm_blkno < 2 ^ 21 := by
    rw [hblk]
    exact lt_of_lt_of_le hlt hpow
  rw [dbm_access, hrun, Option.map_some, ← hpagbno, ← hblk]
  by_cases hpag : (db1.dbm_blkno : ℤ) ≠ db1.dbm_pagbno
  · rw [if_pos hpag, if_pos hpag]
    obtain ⟨hsr, hds, hbuf, hno, hblk', hbit', hmask'⟩ :=
      readPage_of_lt hpage (hsame1.sound hs) hlook.dir
    refine ⟨_, rfl, hsame1.trans hsr, hds, hmask'.trans hmask, hblk', hbit'.trans hbit, hno, ?_⟩
    rw [hbuf, hsame1.pagf]
  · rw [if_neg hpag, if_neg hpag]
    rw [not_not] at hpag
    exact ⟨db1, rfl, hsame1, hlook.dir, hmask, rfl, hbit, hpag.symm, hlook.pagbuf⟩

/-- **`dbm_access`** has the page of the leaf of the hash in the buffer. -/
theorem access_spec (hs : Sound db) (hc : Caches db) (hk : k ≤ 21)
    (hleaf : IsLeaf (bit db) k hash) :
    ∃ db', dbm_access hash db = some db' ∧ Same db db' ∧ Caches db' ∧
      db'.dbm_hmask = 2 ^ k - 1 ∧ db'.dbm_blkno = hash % 2 ^ k ∧ db'.dbm_bitno = node k hash ∧
      db'.dbm_pagbno = (hash % 2 ^ k : ℕ) ∧ db'.dbm_pagbuf = db.pagf (hash % 2 ^ k) := by
  obtain ⟨db', hacc, hsame, hdir, hmask, hblk, hbit, hno, hbuf⟩ := access_page hs hc.dir hk hleaf
  have hpage : db'.dbm_pagbuf = db.pagf (hash % 2 ^ k) := by
    rw [hbuf]
    split
    · rfl
    · next hpag => exact hc.pag _ (not_not.mp hpag).symm
  refine ⟨db', hacc, hsame, ⟨fun p hp => ?_, hdir⟩, hmask, hblk, hbit, hno, hpage⟩
  rw [hno] at hp
  rw [← Int.ofNat.inj hp, hpage, hsame.pagf]

end Ndbm
