/-
# Storing in the data base

What is in the pages denotes a map from keys to values.  `dbm_store` changes that map
at its key, however often it has to split the page first; each split follows one more
bit of the hash, so there is an end to it when the pairs whose hash agrees with that
of the key in all the bits a page number can have fit on one page.
-/
import SunOS.Ndbm.Access
import Mathlib.Logic.Function.Basic

namespace Ndbm

open List
open Function (update update_apply update_idem update_of_ne update_self)
open BitTrie

/-- The pairs of other keys. -/
def without (key : datum) (l : List Pair) : List Pair := l.filter fun q => q.1 ≠ key

/-- The key of the pair is another, and its hash has the usable bits of that of the key. -/
def collides (key : datum) (q : Pair) : Bool :=
  decide (q.1 ≠ key ∧
    dcalchash q.1 % 2 ^ usable (dcalchash key) = dcalchash key % 2 ^ usable (dcalchash key))

/-- The pairs on the pages are those of the map. -/
def Denotes (pairs : ℕ → List Pair) (m : datum → Option datum) : Prop :=
  ∀ key v, m key = some v ↔ ∃ p, (key, v) ∈ pairs p

/-- The new pair fits on a page with those that collide with its key. -/
def Roomy (l : List Pair) (key dat : datum) : Prop :=
  space (l.filter (collides key)) + key.length + dat.length + 4 < PBLKSIZ

variable {db db' : DBM} {pairs : ℕ → List Pair} {m : datum → Option datum} {key dat : datum}
  {l lo hi : List Pair} {q : Pair} {h k p : ℕ}

/-! ## The page of a key -/

variable {buf : Page}

theorem mem_without : q ∈ without key l ↔ q ∈ l ∧ q.1 ≠ key := by
  rw [without, mem_filter, decide_eq_true_eq]

theorem without_of_not_mem (hno : key ∉ keys l) : without key l = l := by
  rw [without, filter_eq_self]
  intro q hq
  rw [decide_eq_true_eq]
  rintro rfl
  exact hno (mem_map_of_mem hq)

theorem keys_append {a b : List Pair} : keys (a ++ b) = keys a ++ keys b := map_append

theorem keys_filter_sublist (P : Pair → Bool) : (keys (l.filter P)).Sublist (keys l) :=
  List.Sublist.map Prod.fst (filter_sublist)

theorem not_mem_keys_without : key ∉ keys (without key l) := by
  intro hin
  obtain ⟨q, hq, rfl⟩ := List.mem_map.mp hin
  exact (mem_without.mp hq).2 rfl

/-- What is left of the page when the pair of the key, if there is one, is taken out. -/
theorem Holds.found_elim (key : datum) (h : Holds buf (ofPairs l)) (hnd : (keys l).Nodup) :
    ∃ buf', (finddatum buf key).elim (some buf) (delitem buf) = some buf' ∧
      Holds buf' (ofPairs (without key l)) := by
  rcases not_mem_or_split key l with hno | ⟨a, dat, b, rfl, ha⟩
  · rw [h.finddatum_none hno, without_of_not_mem hno]
    exact ⟨buf, rfl, h⟩
  · have hb : key ∉ keys b := by
      rw [keys_append, nodup_append] at hnd
      have hcons : (keys ((key, dat) :: b)).Nodup := hnd.2.1
      exact (List.nodup_cons.mp hcons).1
    have hrest : without key (a ++ (key, dat) :: b) = a ++ b := by
      rw [without, filter_append, filter_cons_of_neg (by simp)]
      exact congrArg₂ _ (without_of_not_mem ha) (without_of_not_mem hb)
    rw [h.finddatum_some ha, Option.elim_some, hrest]
    exact h.delitem_pair

theorem Holds.finddatum_ne_none_iff (h : Holds buf (ofPairs l)) :
    finddatum buf key ≠ none ↔ key ∈ keys l := by
  rcases not_mem_or_split key l with hno | ⟨a, dat, b, rfl, ha⟩
  · rw [h.finddatum_none hno]
    simpa using hno
  · rw [h.finddatum_some ha]
    simp [keys]

/-- A pair is on the page of the leaf of its key only. -/
theorem Files.page_eq (hf : Files db pairs) (hk : IsLeaf (bit db) k (dcalchash q.1))
    (hq : q ∈ pairs p) : p = dcalchash q.1 % 2 ^ k := by
  obtain ⟨j, hj, rfl⟩ := hf.placed p q hq
  rw [hj.unique hk]

theorem Files.mem_keys_iff (hf : Files db pairs) (hm : Denotes pairs m)
    (hk : IsLeaf (bit db) k (dcalchash key)) :
    key ∈ keys (pairs (dcalchash key % 2 ^ k)) ↔ m key ≠ none := by
  constructor
  · intro hin
    obtain ⟨⟨key', v⟩, hq, rfl⟩ := List.mem_map.mp hin
    have hv : m key' = some v := (hm key' v).mpr ⟨_, hq⟩
    rw [hv]
    exact Option.some_ne_none v
  · intro hne
    obtain ⟨v, hv⟩ := Option.ne_none_iff_exists'.mp hne
    obtain ⟨p, hp⟩ := (hm key v).mp hv
    rw [hf.page_eq hk hp] at hp
    exact mem_map_of_mem hp

/-! ## Writing a page -/

theorem writePage_of_lt (hp : p + 1 < 2 ^ 21) : writePage p buf db = some { db with
      pagf := update db.pagf p buf
      npag := max db.npag (p + 1) } := by
  have hupd : (fun p' => if p' = p then buf else db.pagf p') = update db.pagf p buf := by
    funext p'
    rw [update_apply]
  rw [writePage, seek_of_lt hp, Option.map_some, hupd]

theorem update_holds {pagf : ℕ → Page} (hpage : ∀ p, Holds (pagf p) (ofPairs (pairs p)))
    (hbuf : Holds buf (ofPairs l)) (p p' : ℕ) :
    Holds (update pagf p buf p') (ofPairs (update pairs p l p')) := by
  rw [update_apply, update_apply]
  split
  · exact hbuf
  · exact hpage p'

/-- The data base with its page written. -/
theorem Sound.write (hs : Sound db) (hp : p + 1 < 2 ^ 21)
    (hdb : writePage p buf db = some db') : Sound db' ∧ bit db' = bit db := by
  rw [writePage_of_lt hp, Option.some_inj] at hdb
  subst hdb
  refine ⟨⟨hs.small, max_lt hs.many hp, fun p' hp' => ?_, hs.dark⟩, rfl⟩
  have hp' : max db.npag (p + 1) ≤ p' := hp'
  simp only
  rw [update_of_ne (by omega)]
  exact hs.beyond p' (by omega)

/-- Writing a page of pairs that belong there. -/
theorem Files.write (hf : Files db pairs) (hp : p + 1 < 2 ^ 21)
    (hbuf : Holds buf (ofPairs l)) (hnd : (keys l).Nodup) (hfits : space l < PBLKSIZ)
    (hplaced : ∀ q ∈ l, ∃ k, IsLeaf (bit db) k (dcalchash q.1) ∧ dcalchash q.1 % 2 ^ k = p)
    (hdb : writePage p buf db = some db') : Files db' (update pairs p l) := by
  obtain ⟨hsound, hbit⟩ := hf.toSound.write hp hdb
  rw [writePage_of_lt hp, Option.some_inj] at hdb
  refine ⟨hsound, fun p' => ?_, fun p' => ?_, fun p' => ?_, fun p' q hq => ?_, ?_⟩
  · rw [← hdb]
    exact update_holds hf.page hbuf p p'
  · rw [update_apply]
    split
    · exact hnd
    · exact hf.nodup p'
  · rw [update_apply]
    split
    · exact hfits
    · exact hf.fits p'
  · rw [hbit]
    rw [update_apply] at hq
    split at hq
    · next heq =>
      rw [heq]
      exact hplaced q hq
    · exact hf.placed p' q hq
  · rw [hbit]
    exact hf.closed

/-- Writing a page from the buffer, which still agrees with the file then. -/
theorem write_spec (hf : Files db pairs) (hc : Caches db) (hblk : db.dbm_blkno = p)
    (hp : p + 1 < 2 ^ 21) (hbuf : Holds buf (ofPairs l)) (hnd : (keys l).Nodup)
    (hfits : space l < PBLKSIZ)
    (hplaced : ∀ q ∈ l, ∃ k, IsLeaf (bit db) k (dcalchash q.1) ∧ dcalchash q.1 % 2 ^ k = p) :
    ∃ db', writePage db.dbm_blkno buf { db with dbm_pagbuf := buf, dbm_pagbno := db.dbm_blkno } =
        some db' ∧
      Files db' (update pairs p l) ∧ Caches db' ∧
      db'.dbm_rdonly = db.dbm_rdonly ∧ db'.dbm_error = db.dbm_error := by
  subst hblk
  have hsame : Same db { db with dbm_pagbuf := buf, dbm_pagbno := db.dbm_blkno } :=
    ⟨rfl, rfl, rfl, rfl, rfl, rfl, rfl, rfl⟩
  refine ⟨_, writePage_of_lt hp, (hsame.files hf).write hp hbuf hnd hfits
    (by rw [hsame.bit]; exact hplaced) (writePage_of_lt hp),
    ⟨fun p hpag => ?_, fun b hdir => hc.dir b hdir⟩, rfl, rfl⟩
  rw [show p = db.dbm_blkno from (Int.ofNat.inj hpag).symm]
  exact (update_self db.dbm_blkno buf db.pagf).symm

/-! ## A split -/

/-- `setbit`, when the buffer agrees with the directory. -/
theorem setbit_eq (hdir : DirCached db) :
    setbit db =
      let dirbuf := fun j => if j = db.dbm_bitno % 32768 then true
        else db.dirf (db.dbm_bitno / 32768) j
      { db with
        dbm_maxbno := max db.dbm_maxbno db.dbm_bitno
        dbm_dirbuf := dirbuf
        dbm_dirbno := (db.dbm_bitno / 32768 : ℕ)
        dirf := fun c => if c = db.dbm_bitno / 32768 then dirbuf else db.dirf c } := by
  have hraise : (if (db.dbm_bitno : ℤ) > db.dbm_maxbno then
      { db with dbm_maxbno := db.dbm_bitno } else db) =
      { db with dbm_maxbno := max db.dbm_maxbno db.dbm_bitno } := by
    by_cases hmax : (db.dbm_bitno : ℤ) > db.dbm_maxbno
    · rw [if_pos hmax, max_eq_right (le_of_lt hmax)]
    · rw [if_neg hmax, max_eq_left (not_lt.mp hmax)]
  have hload : loadDir (db.dbm_bitno / 32768)
      { db with dbm_maxbno := max db.dbm_maxbno db.dbm_bitno } =
      { db with
        dbm_maxbno := max db.dbm_maxbno db.dbm_bitno
        dbm_dirbno := (db.dbm_bitno / 32768 : ℕ)
        dbm_dirbuf := db.dirf (db.dbm_bitno / 32768) } := loadDir_eq _ hdir
  obtain ⟨hb, hi⟩ := bit_index db.dbm_bitno
  rw [setbit]
  simp only [hraise, hb, hi, hload]

/-- **`setbit`** makes one more node of the directory an inner one. -/
theorem setbit_spec (hc : Caches db)
    (hdark : ∀ n : ℕ, (n : ℤ) > db.dbm_maxbno → db.dirf (n / 32768) (n % 32768) = false) :
    bit (setbit db) = BitTrie.insert (bit db) db.dbm_bitno ∧ Caches (setbit db) ∧
      (∀ n : ℕ, (n : ℤ) > (setbit db).dbm_maxbno →
        (setbit db).dirf (n / 32768) (n % 32768) = false) ∧
      (setbit db).pagf = db.pagf ∧ (setbit db).npag = db.npag ∧
      (setbit db).dbm_rdonly = db.dbm_rdonly ∧ (setbit db).dbm_error = db.dbm_error := by
  rw [setbit_eq hc.dir]
  have hdir : ∀ n, (if n / 32768 = db.dbm_bitno / 32768 then
      (fun j => if j = db.dbm_bitno % 32768 then true else db.dirf (db.dbm_bitno / 32768) j)
      else db.dirf (n / 32768)) (n % 32768) =
      if n = db.dbm_bitno then true else db.dirf (n / 32768) (n % 32768) := by
    intro n
    by_cases hn : n = db.dbm_bitno
    · rw [hn, if_pos rfl, if_pos rfl, if_pos rfl]
    · rw [if_neg hn]
      split
      · next hblk =>
        simp only
        rw [if_neg (by omega), hblk]
      · rfl
  refine ⟨?_, ⟨hc.pag, fun b hb => ?_⟩, fun n hn => ?_, rfl, rfl, rfl, rfl⟩
  · funext n
    rw [bit, BitTrie.insert, bit]
    simp only
    rw [hdir]
    by_cases hn : n = db.dbm_bitno
    · rw [if_pos hn, if_pos hn, Bool.and_true, decide_eq_true]
      rw [hn]
      exact le_max_right _ _
    · rw [if_neg hn, if_neg hn]
      by_cases hle : (n : ℤ) ≤ db.dbm_maxbno
      · rw [decide_eq_true hle, decide_eq_true (le_trans hle (le_max_left _ _))]
      · rw [hdark n (not_le.mp hle), Bool.and_false, Bool.and_false]
  · simp only
    rw [if_pos (Int.ofNat.inj hb).symm]
  · have hn : (n : ℤ) > max db.dbm_maxbno db.dbm_bitno := hn
    simp only
    rw [hdir, if_neg (by omega)]
    exact hdark n (lt_of_le_of_lt (le_max_left _ _) hn)

/-- The two pages of a split are written, and the directory. -/
theorem split_write_spec (lo hi : Page) {b n : ℕ} (hs : Sound db) (hc : Caches db)
    (hblk : db.dbm_blkno = b) (hmask : db.dbm_hmask = 2 ^ k - 1) (hbit : db.dbm_bitno = n)
    (hb : b + 2 ^ k + 1 < 2 ^ 21) :
    ∃ db1 db2, writePage db.dbm_blkno lo { db with
        dbm_pagbuf := lo
        dbm_error := db.dbm_error
        dbm_pagbno := db.dbm_blkno } = some db1 ∧
      writePage (db1.dbm_blkno + db1.dbm_hmask + 1) hi db1 = some db2 ∧
      bit (setbit db2) = BitTrie.insert (bit db) n ∧ Caches (setbit db2) ∧
      (∀ n : ℕ, (n : ℤ) > (setbit db2).dbm_maxbno →
        (setbit db2).dirf (n / 32768) (n % 32768) = false) ∧
      (setbit db2).pagf = update (update db.pagf b lo) (b + 2 ^ k) hi ∧
      (setbit db2).npag = max (max db.npag (b + 1)) (b + 2 ^ k + 1) ∧
      (setbit db2).dbm_rdonly = db.dbm_rdonly ∧ (setbit db2).dbm_error = db.dbm_error := by
  have hpos : 0 < 2 ^ k := Nat.two_pow_pos k
  subst hblk
  have hnew : db.dbm_blkno + db.dbm_hmask + 1 = db.dbm_blkno + 2 ^ k := by lia
  obtain ⟨db2, hdb2⟩ : ∃ db2 : DBM, db2 = { db with
      pagf := update (update db.pagf db.dbm_blkno lo) (db.dbm_blkno + 2 ^ k) hi
      npag := max (max db.npag (db.dbm_blkno + 1)) (db.dbm_blkno + 2 ^ k + 1)
      dbm_pagbuf := lo
      dbm_pagbno := db.dbm_blkno } := ⟨_, rfl⟩
  have hc2 : Caches db2 := by
    refine ⟨fun p hp => ?_, fun c hc' => ?_⟩
    · rw [hdb2] at hp ⊢
      simp only at hp ⊢
      rw [← Int.ofNat.inj hp, update_of_ne (by lia), update_self]
    · rw [hdb2] at hc' ⊢
      exact hc.dir c hc'
  obtain ⟨hbits, hcache, hdark, hpagf, hnpag, hrd, herr⟩ :=
    setbit_spec hc2 (by rw [hdb2]; exact hs.dark)
  refine ⟨_, db2, writePage_of_lt (by lia), ?_, ?_, hcache, hdark, hpagf.trans (by rw [hdb2]),
    hnpag.trans (by rw [hdb2]), hrd.trans (by rw [hdb2]), herr.trans (by rw [hdb2])⟩
  · simp only [hnew]
    rw [writePage_of_lt hb, hdb2]
  · rw [hbits, hdb2, ← hbit]
    rfl

/-- The hash of a pair on the page of a leaf ends as that of the leaf. -/
theorem Files.mod_eq (hf : Files db pairs) (hk : IsLeaf (bit db) k h)
    (hq : q ∈ pairs (h % 2 ^ k)) : dcalchash q.1 % 2 ^ k = h % 2 ^ k := by
  obtain ⟨j, hj, hpage⟩ := hf.placed _ q hq
  rwa [hj.eq_of_page_eq hk hpage] at hpage

theorem mod_succ_of_moves (hmod : dcalchash q.1 % 2 ^ k = h % 2 ^ k) :
    dcalchash q.1 % 2 ^ (k + 1) = h % 2 ^ k + if moves k q = true then 2 ^ k else 0 := by
  rw [Nat.mod_pow_succ, hmod, moves, Nat.testBit_eq_decide_div_mod_eq]
  by_cases hone : dcalchash q.1 / 2 ^ k % 2 = 1
  · rw [hone, if_pos (by simp), Nat.mul_one]
  · rw [show dcalchash q.1 / 2 ^ k % 2 = 0 by omega, if_neg (by simp), Nat.mul_zero]

/-- **A split keeps the data base**: with one more inner node in the directory, the pairs of
the leaf are where their hashes say. -/
theorem Files.split {lo hi : Page} (hf : Files db pairs) (hk : IsLeaf (bit db) k h)
    (hk21 : k < usable h) (hlo : Holds lo (ofPairs (l.filter fun q => !moves k q)))
    (hhi : Holds hi (ofPairs (l.filter (moves k)))) (hsub : ∀ q ∈ l, q ∈ pairs (h % 2 ^ k))
    (hnd : (keys l).Nodup) (hfits : space l < PBLKSIZ)
    (hbit : bit db' = BitTrie.insert (bit db) (node k h))
    (hpagf : db'.pagf = update (update db.pagf (h % 2 ^ k) lo) (h % 2 ^ k + 2 ^ k) hi)
    (hnpag : db'.npag = max (max db.npag (h % 2 ^ k + 1)) (h % 2 ^ k + 2 ^ k + 1))
    (hdark : ∀ n : ℕ, (n : ℤ) > db'.dbm_maxbno → db'.dirf (n / 32768) (n % 32768) = false) :
    Files db' (update
      (update pairs (h % 2 ^ k) (l.filter fun q => !moves k q))
      (h % 2 ^ k + 2 ^ k) (l.filter (moves k))) := by
  have hend := split_lt hk21
  have hpos : 0 < 2 ^ k := Nat.two_pow_pos k
  have hpage : ∀ p, Holds (db'.pagf p) (ofPairs (update
      (update pairs (h % 2 ^ k) (l.filter fun q => !moves k q))
      (h % 2 ^ k + 2 ^ k) (l.filter (moves k)) p)) := by
    rw [hpagf]
    exact update_holds (update_holds hf.page hlo _) hhi _
  have hin : ∀ q ∈ l, dcalchash q.1 % 2 ^ k = h % 2 ^ k := fun q hq => hf.mod_eq hk (hsub q hq)
  refine ⟨⟨fun n hn => ?_, ?_, fun p hp => ?_, hdark⟩, hpage, fun p => ?_, fun p => ?_,
    fun p q hq => ?_, ?_⟩
  · rw [hbit, BitTrie.insert] at hn
    split at hn
    · next heq =>
      rw [heq, node]
      lia
    · exact hf.small n hn
  · rw [hnpag]
    have hmany := hf.many
    lia
  · rw [hnpag] at hp
    rw [hpagf, update_of_ne (by lia), update_of_ne (by lia)]
    exact hf.beyond p (by lia)
  · rw [update_apply, update_apply]
    split
    · exact hnd.sublist (keys_filter_sublist _)
    · split
      · exact hnd.sublist (keys_filter_sublist _)
      · exact hf.nodup p
  · rw [update_apply, update_apply]
    split
    · exact lt_of_le_of_lt (space_filter_le _) hfits
    · split
      · exact lt_of_le_of_lt (space_filter_le _) hfits
      · exact hf.fits p
  · rw [hbit]
    rw [update_apply, update_apply] at hq
    split at hq
    · next hp =>
      rw [mem_filter] at hq
      refine ⟨k + 1, IsLeaf.insert_of_eq hf.closed hk (hin q hq.1), ?_⟩
      rw [mod_succ_of_moves (hin q hq.1), if_pos hq.2, hp]
    · split at hq
      · next hp =>
        rw [mem_filter] at hq
        refine ⟨k + 1, IsLeaf.insert_of_eq hf.closed hk (hin q hq.1), ?_⟩
        rw [mod_succ_of_moves (hin q hq.1), if_neg (by simpa using hq.2), hp, Nat.add_zero]
      · next hne =>
        obtain ⟨j, hj, rfl⟩ := hf.placed p q hq
        refine ⟨j, (IsLeaf.insert_iff_of_ne fun heq => hne ?_).mpr hj, rfl⟩
        have hjk : j = k := hj.unique (hk.congr heq)
        rw [hjk, heq]
  · rw [hbit]
    exact hf.closed.insert hk

/-! ## What the pages denote -/

theorem Denotes.take {b : ℕ} (hm : Denotes pairs m) (hb : ∀ p v, (key, v) ∈ pairs p → p = b) :
    Denotes (update pairs b (without key (pairs b))) (update m key none) := by
  intro key' v
  rw [update_apply]
  by_cases hkey : key' = key
  · subst hkey
    simp only [if_pos, reduceCtorEq, false_iff]
    rintro ⟨p, hp⟩
    rw [update_apply] at hp
    split at hp
    · exact (mem_without.mp hp).2 rfl
    · next hne => exact hne (hb p v hp)
  · rw [if_neg hkey, hm key' v]
    apply exists_congr
    intro p
    rw [update_apply]
    split
    · next hp =>
      rw [mem_without, hp]
      exact ⟨fun h => ⟨h, hkey⟩, And.left⟩
    · exact Iff.rfl

theorem Denotes.put {b : ℕ} (hm : Denotes pairs m) (hb : ∀ p v, (key, v) ∈ pairs p → p = b)
    (dat : datum) :
    Denotes (update pairs b (without key (pairs b) ++ [(key, dat)]))
      (update m key (some dat)) := by
  intro key' v
  have htake := hm.take hb key' v
  rw [update_apply] at htake ⊢
  by_cases hkey : key' = key
  · subst hkey
    rw [if_pos rfl, Option.some_inj] at *
    constructor
    · rintro rfl
      exact ⟨b, by rw [update_self]; simp⟩
    · rintro ⟨p, hp⟩
      rw [update_apply] at hp
      split at hp
      · rw [mem_append, mem_without] at hp
        rcases hp with ⟨-, hne⟩ | hnew
        · exact absurd rfl hne
        · rw [mem_singleton, Prod.mk.injEq] at hnew
          exact hnew.2.symm
      · next hne => exact absurd (hb p v hp) hne
  · rw [if_neg hkey] at htake ⊢
    rw [htake]
    apply exists_congr
    intro p
    rw [update_apply, update_apply]
    split
    · simp [hkey]
    · exact Iff.rfl

theorem Denotes.move {b c : ℕ} (lo hi : List Pair) (hm : Denotes pairs m) (hbc : b ≠ c)
    (hc : pairs c = [])
    (hmem : ∀ q, q ∈ pairs b ↔ q ∈ lo ∨ q ∈ hi) :
    Denotes (update (update pairs b lo) c hi) m := by
  intro key v
  rw [hm key v]
  constructor
  · rintro ⟨p, hp⟩
    by_cases hpb : p = b
    · rw [hpb, hmem] at hp
      rcases hp with hlo | hhi
      · exact ⟨b, by rwa [update_of_ne hbc, update_self]⟩
      · exact ⟨c, by rwa [update_self]⟩
    · have hpc : p ≠ c := by
        rintro rfl
        rw [hc] at hp
        exact not_mem_nil hp
      exact ⟨p, by rwa [update_of_ne hpc, update_of_ne hpb]⟩
  · rintro ⟨p, hp⟩
    rw [update_apply, update_apply] at hp
    split at hp
    · exact ⟨b, (hmem _).mpr (.inr hp)⟩
    · split at hp
      · exact ⟨b, (hmem _).mpr (.inl hp)⟩
      · exact ⟨p, hp⟩

/-! ## Room -/

theorem collides_iff : collides key q = true ↔
    q.1 ≠ key ∧
      dcalchash q.1 % 2 ^ usable (dcalchash key) = dcalchash key % 2 ^ usable (dcalchash key) := by
  rw [collides, decide_eq_true_eq]

/-- Pairs that collide with the key go with it when the page is split. -/
theorem moves_of_collides (hk21 : k < usable (dcalchash key)) (hq : collides key q = true) :
    moves k q = (dcalchash key).testBit k := by
  have hbit : (dcalchash q.1 % 2 ^ usable (dcalchash key)).testBit k =
      (dcalchash key % 2 ^ usable (dcalchash key)).testBit k := by rw [(collides_iff.mp hq).2]
  rwa [Nat.testBit_mod_two_pow, Nat.testBit_mod_two_pow, decide_eq_true hk21, Bool.true_and,
    Bool.true_and] at hbit

theorem filter_collides_of_imp {P : Pair → Bool} (hP : ∀ q, collides key q = true → P q = true) :
    (l.filter P).filter (collides key) = l.filter (collides key) := by
  rw [filter_filter]
  apply filter_congr
  intro q _
  rcases hq : collides key q with - | -
  · rfl
  · rw [hP q hq]
    rfl

theorem filter_collides_without :
    (without key l).filter (collides key) = l.filter (collides key) :=
  filter_collides_of_imp fun _ hq => by
    rw [decide_eq_true_eq]
    exact (collides_iff.mp hq).1

/-- Where no bit is left to split by, all the other pairs of the page collide. -/
theorem Files.all_collide (hf : Files db pairs)
    (hk : IsLeaf (bit db) (usable (dcalchash key)) (dcalchash key)) :
    (pairs (dcalchash key % 2 ^ usable (dcalchash key))).filter (collides key) =
      without key (pairs (dcalchash key % 2 ^ usable (dcalchash key))) := by
  apply filter_congr
  intro q hq
  rw [collides, decide_eq_decide, and_iff_left (hf.mod_eq hk hq)]

theorem Roomy.small (hroom : Roomy l key dat) : key.length + dat.length + 3 * 2 < PBLKSIZ := by
  have hle : 2 ≤ space (l.filter (collides key)) := by
    rw [space]
    omega
  rw [Roomy] at hroom
  omega

/-! ## The loop -/

/-- The page after the round that splits it. -/
theorem split_page (pairs : ℕ → List Pair) (key : datum) (l : List Pair)
    (hk21 : k < usable (dcalchash key)) :
    ∃ P : Pair → Bool, (∀ q, collides key q = true → P q = true) ∧
      update
        (update pairs (dcalchash key % 2 ^ k) (l.filter fun q => !moves k q))
        (dcalchash key % 2 ^ k + 2 ^ k) (l.filter (moves k)) (dcalchash key % 2 ^ (k + 1)) =
      l.filter P := by
  have hsucc : dcalchash key % 2 ^ (k + 1) = dcalchash key % 2 ^ k +
      if moves k (key, []) = true then 2 ^ k else 0 := mod_succ_of_moves (q := (key, [])) rfl
  rcases hbit : (dcalchash key).testBit k with - | -
  · refine ⟨fun q => !moves k q, fun q hq => ?_, ?_⟩
    · simp only
      rw [moves_of_collides hk21 hq, hbit]
      rfl
    · rw [hsucc, if_neg (by simp [moves, hbit]), Nat.add_zero,
        update_of_ne (by omega), update_self]
  · refine ⟨moves k, fun q hq => ?_, ?_⟩
    · rw [moves_of_collides hk21 hq, hbit]
    · rw [hsucc, if_pos (by simp [moves, hbit]), update_self]

/-- **The loop of `dbm_store`** comes to an end and puts the pair in, when the pairs that
collide with its key leave room for it. -/
theorem storeLoop_spec {replace : Bool} (fuel : ℕ) (hf : Files db pairs) (hc : Caches db)
    (hm : Denotes pairs m) (hk : IsLeaf (bit db) k (dcalchash key))
    (hk21 : k ≤ usable (dcalchash key))
    (hroom : Roomy (pairs (dcalchash key % 2 ^ k)) key dat)
    (hgo : m key ≠ none → replace = true) (hfuel : 21 < fuel + k) :
    ∃ db' pairs', dbm_storeLoop key dat replace fuel db = some ((0, none), db') ∧
      Files db' pairs' ∧ Caches db' ∧ Denotes pairs' (update m key (some dat)) ∧
      db'.dbm_rdonly = db.dbm_rdonly ∧ db'.dbm_error = db.dbm_error := by
  induction fuel generalizing db pairs m k with
  | zero =>
    have hle := hk21.trans (usable_le (dcalchash key))
    lia
  | succ fuel ih =>
    have hpos : 0 < 2 ^ k := Nat.two_pow_pos k
    have hblt := page_lt hk21
    obtain ⟨db1, hacc, hsame, hc1, hmask, hblk, hbit, hno, hbuf⟩ :=
      access_spec hf.toSound hc (hk21.trans (usable_le _)) hk
    have hf1 : Files db1 pairs := hsame.files hf
    have hk1 : IsLeaf (bit db1) k (dcalchash key) := by
      rw [hsame.bit]
      exact hk
    have hpage := hf.page (dcalchash key % 2 ^ k)
    rw [← hbuf] at hpage
    have honly : ∀ p v, (key, v) ∈ pairs p → p = dcalchash key % 2 ^ k := fun p v hv =>
      hf.page_eq (q := (key, v)) hk hv
    have hmem := hf.mem_keys_iff hm hk
    generalize hb : dcalchash key % 2 ^ k = b at *
    have hnot : ¬ (finddatum db1.dbm_pagbuf key ≠ none ∧ replace = false) := by
      rw [hpage.finddatum_ne_none_iff, hmem]
      rintro ⟨hne, hno⟩
      rw [hgo hne] at hno
      exact absurd hno (by simp)
    obtain ⟨buf, helim, hbuf'⟩ := hpage.found_elim key (hf.nodup b)
    rw [dbm_storeLoop, dbm_storeRound, hacc]
    simp only
    rw [if_neg hnot, helim]
    have hwplaced : ∀ q ∈ without key (pairs b), ∃ k, IsLeaf (bit db1) k (dcalchash q.1) ∧
        dcalchash q.1 % 2 ^ k = b := fun q hq => hf1.placed b q (mem_without.mp hq).1
    by_cases hadd : space (without key (pairs b)) + key.length + dat.length + 4 < PBLKSIZ
    · have hspace := space_append (a := without key (pairs b)) (b := [(key, dat)])
      rw [space_cons, space_nil] at hspace
      have hnd : (keys (without key (pairs b) ++ [(key, dat)])).Nodup := by
        rw [keys_append, nodup_append]
        refine ⟨(hf.nodup b).sublist (keys_filter_sublist _), by simp [keys], ?_⟩
        rintro key' hkey' key'' hkey'' rfl
        rw [keys, map_singleton, mem_singleton] at hkey''
        exact not_mem_keys_without (hkey'' ▸ hkey')
      obtain ⟨buf2, hput, hbuf2⟩ := hbuf'.additem_pair key dat hadd
      obtain ⟨db2, hwrite, hf2, hc2, hrd, herr⟩ :=
        write_spec hf1 hc1 hblk hblt hbuf2 hnd (by lia) (by
        intro q hq
        rw [mem_append, mem_singleton] at hq
        rcases hq with hq | rfl
        · exact hwplaced q hq
        · exact ⟨k, hk1, hb⟩)
      simp only [hput, hwrite]
      exact ⟨_, _, rfl, hf2, hc2, hm.put honly dat, hrd.trans hsame.rdonly, herr.trans hsame.error⟩
    · have hk21' : k < usable (dcalchash key) := by
        by_contra hge
        obtain rfl : k = usable (dcalchash key) := by lia
        rw [← hb, Roomy, hf.all_collide hk, hb] at hroom
        exact hadd hroom
      have hend := split_lt hk21'
      rw [hb] at hend
      have hrounds : (without key (pairs b)).length < sp buf 0 + 1 := by
        rw [hbuf'.count, length_ofPairs]
        lia
      obtain ⟨lo, hi, hsplit, hlo, hhi⟩ :=
        splitLoop_spec (a := []) (b := []) (k := k) hbuf' holds_zeroed
        hrounds
        (lt_of_le_of_lt (space_filter_le _) (lt_of_le_of_lt (space_filter_le _) (hf.fits b)))
      have hsplit : splitLoop (2 ^ k - 1) (sp buf 0 + 1) 0 buf zeroed = some (true, false, lo,
        hi) := hsplit
      obtain ⟨db2, db3, hfirst, hsecond, hbits, hc2, hdark, hpagf, hnpag, hrd, herr⟩ :=
        split_write_spec lo hi hf1.toSound hc1 hblk hmask hbit hend
      have hf2 := hf1.split (l := without key (pairs b)) hk1 hk21' hlo hhi
        (by rw [hb]; exact fun q hq => (mem_without.mp hq).1)
        ((hf.nodup b).sublist (keys_filter_sublist _))
        (lt_of_le_of_lt (space_filter_le _) (hf.fits b)) hbits
        (by rw [hb]; exact hpagf) (by rw [hb]; exact hnpag) hdark
      rw [hb] at hf2
      have hempty : pairs (b + 2 ^ k) = [] := by
        rw [eq_nil_iff_forall_not_mem]
        intro q hq
        obtain ⟨j, hj, hpage⟩ := hf.placed _ q hq
        exact hk.page_ne hj (hpage.trans (by rw [hb]))
      have hm2 := Denotes.move (b := b) (c := b + 2 ^ k)
        ((without key (pairs b)).filter fun q => !moves k q)
        ((without key (pairs b)).filter (moves k)) (hm.take honly) (by lia)
        (by rw [update_of_ne (by lia), hempty]) (by
          intro q
          rw [update_self, mem_filter, mem_filter]
          rcases moves k q with - | -
          · simp
          · simp)
      rw [update_idem] at hm2
      have hk2 : IsLeaf (bit (setbit db3)) (k + 1) (dcalchash key) := by
        rw [hbits]
        exact IsLeaf.insert_of_eq hf1.closed hk1 rfl
      obtain ⟨P, hP, hpage2⟩ := split_page pairs key (without key (pairs b)) hk21'
      rw [hb] at hpage2
      obtain ⟨db', pairs', hrun, hf', hc', hm', hrd', herr'⟩ := ih hf2 hc2 hm2 hk2 hk21'
        (by rw [Roomy, hpage2, filter_collides_of_imp hP, filter_collides_without]; exact hroom)
        (fun hne => absurd (update_self _ _ _) hne) (by lia)
      rw [update_idem] at hm'
      refine ⟨db', pairs', ?_, hf', hc', hm', hrd'.trans (hrd.trans hsame.rdonly),
        herr'.trans (herr.trans hsame.error)⟩
      have hsmall := hroom.small
      simp only [hbuf'.additem_pair_none hadd]
      rw [if_neg (by lia), hmask, hsplit]
      simp only [Bool.or_false]
      rw [← hmask]
      simp only [hfirst, hsecond]
      exact hrun

end Ndbm
