/-
# The operations on the map

The pairs in the pages of a data base are its contents, a map from keys to values.
Each operation is given by what it answers and by what it makes of that map; an
operation that changes nothing leaves the files as they are.
-/
import SunOS.Ndbm.Store
import Mathlib.Data.List.Nodup
import Mathlib.Data.List.Pairwise

namespace Ndbm

open Option
open List
open BitTrie

/-- The pairs of a page, from item `i` on: so many of them. -/
def pairsFrom (buf : Page) : ℕ → ℕ → List Pair
  | 0, _ => []
  | n + 1, i =>
    match makdatum buf i, makdatum buf (i + 1) with
    | some key, some dat => (key, dat) :: pairsFrom buf n (i + 2)
    | _, _ => []

/-- The pairs of a page. -/
def pairsOf (buf : Page) : List Pair := pairsFrom buf (sp buf 0 / 2) 0

/-- All the pairs of the data base, page by page. -/
def stored (db : DBM) : List Pair := (List.range db.npag).flatMap fun p => pairsOf (db.pagf p)

/-- The value of a key. -/
def contents (db : DBM) : datum → Option datum := valueOf (stored db)

/-- The pair is too large for any page. -/
def TooLarge (key dat : datum) : Prop := key.length + dat.length + 3 * 2 ≥ PBLKSIZ

instance (key dat : datum) : Decidable (TooLarge key dat) :=
  inferInstanceAs (Decidable (key.length + dat.length + 3 * 2 ≥ PBLKSIZ))

/-- A data base as its users have it: a map, and the two flags. -/
structure Abstract where
  map : datum → Option datum
  rdonly : Bool
  error : Bool

/-- What a data base is to its users. -/
def abstract (db : DBM) : Abstract := ⟨contents db, db.dbm_rdonly, db.dbm_error⟩

/-- To fetch is to apply the map. -/
def Abstract.fetch (key : datum) (s : Abstract) : Option datum :=
  if s.error = true then none else s.map key

/-- To delete is to take the key out of the map. -/
def Abstract.delete (key : datum) (s : Abstract) : (ℤ × Option errno) × Abstract :=
  if s.error = true then ((-1, none), s)
  else if s.rdonly = true then ((-1, some .EPERM), s)
  else if s.map key = none then ((-1, none), s)
  else ((0, none), { s with map := Function.update s.map key none })

/-- To store is to update the map at the key. -/
def Abstract.store (key dat : datum) (replace : Bool) (s : Abstract) :
    (ℤ × Option errno) × Abstract :=
  if s.error = true then ((-1, none), s)
  else if s.rdonly = true then ((-1, some .EPERM), s)
  else if s.map key ≠ none ∧ replace = false then ((1, none), s)
  else if TooLarge key dat then ((-1, some .ENOSPC), { s with error := true })
  else ((0, none), { s with map := Function.update s.map key (some dat) })

/-- The files are those of a data base, and the buffers agree with them. -/
def Valid (db : DBM) : Prop := Caches db ∧ ∃ pairs, Files db pairs

/-- What a store needs: the key is there and its value is not to be replaced, or the pair is
too large and the key is not there, or the pair fits on a page with those that collide. -/
def Meets (key dat : datum) (replace : Bool) (db : DBM) : Prop :=
  (key ∈ keys (stored db) ∧ replace = false) ∨
    (key ∉ keys (stored db) ∧ TooLarge key dat) ∨ Roomy (stored db) key dat

variable {db db' db'' : DBM} {pairs pairs' : ℕ → List Pair} {m m' : datum → Option datum}
  {key dat : datum} {l : List Pair} {q : Pair} {replace : Bool}

/-! ## The contents -/

theorem Holds.pairsFrom_eq {buf : Page} {a : List Pair} (h : Holds buf (ofPairs (a ++ l))) :
    pairsFrom buf l.length (2 * a.length) = l := by
  induction l generalizing a with
  | nil => rfl
  | cons q l ih =>
    obtain ⟨hkey, hval⟩ := h.makdatum_pair
    have hnext : a ++ q :: l = a ++ [q] ++ l := by simp
    have hlen : 2 * a.length + 2 = 2 * (a ++ [q]).length := by
      rw [length_append, length_singleton]
      omega
    rw [length_cons, pairsFrom, hkey, hval, hlen]
    exact congrArg _ (ih (hnext ▸ h))

/-- **A page is the list of its pairs**. -/
theorem Holds.pairsOf_eq {buf : Page} (h : Holds buf (ofPairs l)) : pairsOf buf = l := by
  rw [pairsOf, h.count, length_ofPairs, Nat.mul_div_cancel_left _ (by omega)]
  exact h.pairsFrom_eq (a := [])

section

variable (hf : Files db pairs)
include hf

theorem Files.stored_eq : stored db = (List.range db.npag).flatMap pairs := by
  rw [stored]
  congr 1
  funext p
  exact (hf.page p).pairsOf_eq

theorem Files.pairs_beyond {p : ℕ} (hp : db.npag ≤ p) : pairs p = [] := by
  have hpage := hf.page p
  rw [hf.beyond p hp] at hpage
  rw [← hpage.pairsOf_eq]
  rfl

theorem Files.mem_stored : q ∈ stored db ↔ ∃ p, q ∈ pairs p := by
  rw [hf.stored_eq, mem_flatMap]
  constructor
  · rintro ⟨p, -, hq⟩
    exact ⟨p, hq⟩
  · rintro ⟨p, hq⟩
    refine ⟨p, ?_, hq⟩
    rw [mem_range]
    by_contra hge
    rw [hf.pairs_beyond (Nat.le_of_not_lt hge)] at hq
    exact not_mem_nil hq

/-- A key is on one page at most. -/
theorem Files.page_unique {p p' : ℕ} (hp : key ∈ keys (pairs p))
    (hp' : key ∈ keys (pairs p')) : p = p' := by
  obtain ⟨q, hq, rfl⟩ := List.mem_map.mp hp
  obtain ⟨q', hq', heq⟩ := List.mem_map.mp hp'
  obtain ⟨j, hj, rfl⟩ := hf.placed p q hq
  obtain ⟨k, hk, rfl⟩ := hf.placed p' q' hq'
  rw [heq] at hk ⊢
  rw [hj.unique hk]

theorem Files.keys_stored :
    keys (stored db) = (List.range db.npag).flatMap fun p => keys (pairs p) := by
  rw [hf.stored_eq, keys, map_flatMap]
  rfl

/-- **No key is stored twice**. -/
theorem Files.nodup_stored : (keys (stored db)).Nodup := by
  rw [hf.keys_stored, nodup_flatMap]
  refine ⟨fun p _ => hf.nodup p, ?_⟩
  apply List.Pairwise.imp _ nodup_range
  intro p p' hne key hp hp'
  exact hne (hf.page_unique hp hp')

end

theorem valueOf_eq_some_iff (hnd : (keys l).Nodup) {v : datum} :
    valueOf l key = some v ↔ (key, v) ∈ l := by
  rcases not_mem_or_split key l with hno | ⟨a, dat, b, rfl, ha⟩
  · rw [valueOf_none hno]
    constructor
    · intro h
      exact absurd h (by simp)
    · intro h
      exact absurd (mem_map_of_mem h) hno
  · have hb : key ∉ keys b := by
      rw [keys_append, nodup_append] at hnd
      have hcons : (keys ((key, dat) :: b)).Nodup := hnd.2.1
      exact (List.nodup_cons.mp hcons).1
    rw [valueOf_some ha, some_inj, mem_append, mem_cons]
    constructor
    · rintro rfl
      exact .inr (.inl rfl)
    · rintro (h | h | h)
      · exact absurd (mem_map_of_mem h) ha
      · exact (Prod.mk.inj h).2.symm
      · exact absurd (mem_map_of_mem h) hb

theorem Files.denotes (hf : Files db pairs) : Denotes pairs (contents db) := by
  intro key v
  rw [contents, valueOf_eq_some_iff hf.nodup_stored, hf.mem_stored]

theorem Denotes.unique (hm : Denotes pairs m) (hm' : Denotes pairs m') : m = m' := by
  funext key
  apply Option.ext
  intro v
  rw [hm key v, hm' key v]

/-- The contents are what the pages denote. -/
theorem Files.contents_eq (hf : Files db pairs) (hm : Denotes pairs m) : contents db = m :=
  hf.denotes.unique hm

theorem contents_ne_none_iff : contents db key ≠ none ↔ key ∈ keys (stored db) := by
  rw [contents, ne_eq, valueOf_eq_none_iff, not_not]

theorem Same.stored (h : Same db db') : stored db' = stored db := by
  rw [Ndbm.stored, Ndbm.stored, h.npag, h.pagf]

theorem Same.contents (h : Same db db') : contents db' = contents db := by
  rw [Ndbm.contents, h.stored, Ndbm.contents]

theorem Same.abstract (h : Same db db') : abstract db' = abstract db := by
  rw [Ndbm.abstract, Ndbm.abstract, h.contents, h.rdonly, h.error]

/-! ## Room on a page and in the data base -/

theorem space_flatMap_le (ps : List ℕ) (f : ℕ → List Pair) {p : ℕ} (hp : p ∈ ps) :
    space (f p) ≤ space (ps.flatMap f) := by
  induction ps with
  | nil => exact absurd hp not_mem_nil
  | cons p' ps ih =>
    have hspace := space_append (a := f p') (b := ps.flatMap f)
    have hle : ∀ l : List Pair, 2 ≤ space l := by
      intro l
      rw [space]
      omega
    have hle1 := hle (f p')
    have hle2 := hle (ps.flatMap f)
    rw [flatMap_cons]
    rcases List.mem_cons.mp hp with rfl | hin
    · omega
    · have := ih hin
      omega

theorem Files.roomy (hf : Files db pairs) (hroom : Roomy (stored db) key dat) (p : ℕ) :
    Roomy (pairs p) key dat := by
  rw [Roomy, hf.stored_eq, filter_flatMap] at hroom
  rw [Roomy]
  rcases Nat.lt_or_ge p db.npag with hlt | hge
  · have hle := space_flatMap_le (List.range db.npag) (fun p => (pairs p).filter (collides key))
      (List.mem_range.mpr hlt)
    omega
  · rw [hf.pairs_beyond hge, filter_nil, space_nil]
    have hle : 2 ≤ space ((List.range db.npag).flatMap
        fun p => (pairs p).filter (collides key)) := by
      rw [space]
      omega
    omega

theorem Roomy.not_tooLarge (hroom : Roomy l key dat) : ¬ TooLarge key dat := by
  have hsmall := hroom.small
  rw [TooLarge]
  omega

/-! ## Fetch and delete -/

/-- The page of a key holds its pair, or has none of it. -/
theorem Files.page_cases (hf : Files db pairs) {k : ℕ} (hk : IsLeaf (bit db) k (dcalchash key)) :
    (contents db key = none ∧ key ∉ keys (pairs (dcalchash key % 2 ^ k))) ∨
      ∃ a dat b, contents db key = some dat ∧
        pairs (dcalchash key % 2 ^ k) = a ++ (key, dat) :: b ∧ key ∉ keys a := by
  have hmem := hf.mem_keys_iff hf.denotes hk
  rcases not_mem_or_split key (pairs (dcalchash key % 2 ^ k)) with hno | ⟨a, dat, b, hl, ha⟩
  · exact .inl ⟨by rwa [hmem, not_not] at hno, hno⟩
  · refine .inr ⟨a, dat, b, ?_, hl, ha⟩
    rw [hf.denotes key dat]
    exact ⟨_, by rw [hl]; simp⟩

/-- **`dbm_fetch`** applies the map and changes nothing. -/
theorem fetch_spec (hv : Valid db) (key : datum) :
    ∃ db', dbm_fetch key db = some ((abstract db).fetch key, db') ∧ Same db db' ∧ Valid db' := by
  obtain ⟨hc, pairs, hf⟩ := hv
  rw [dbm_fetch, Abstract.fetch]
  by_cases herr : db.dbm_error = true
  · rw [if_pos herr, if_pos (show (abstract db).error = true from herr)]
    exact ⟨db, rfl, Same.refl db, hc, pairs, hf⟩
  · rw [if_neg herr, if_neg (show ¬ (abstract db).error = true from herr)]
    obtain ⟨k, hk21, hk⟩ := hf.exists_leaf (dcalchash key)
    obtain ⟨db', hacc, hsame, hc', -, -, -, -, hbuf⟩ :=
      access_spec hf.toSound hc (hk21.trans (usable_le _)) hk
    have hpage := hf.page (dcalchash key % 2 ^ k)
    refine ⟨db', ?_, hsame, hc', pairs, hsame.files hf⟩
    rw [hacc, map_some, hbuf]
    rcases hf.page_cases hk with ⟨hnone, hno⟩ | ⟨a, dat, b, hsome, hl, ha⟩
    · rw [hpage.finddatum_none hno]
      exact congrArg (fun v => some (v, db')) hnone.symm
    · rw [hl] at hpage
      rw [hpage.finddatum_some ha]
      simp only [hpage.makdatum_pair.2]
      exact congrArg (fun v => some (v, db')) hsome.symm

/-- **`dbm_delete`** takes the key out of the map. -/
theorem delete_spec (hv : Valid db) (key : datum) :
    ∃ db', dbm_delete key db = some (((abstract db).delete key).1, db') ∧
      abstract db' = ((abstract db).delete key).2 ∧ Valid db' := by
  obtain ⟨hc, pairs, hf⟩ := hv
  rw [dbm_delete, Abstract.delete]
  by_cases herr : db.dbm_error = true
  · rw [if_pos herr, if_pos (show (abstract db).error = true from herr)]
    exact ⟨db, rfl, rfl, hc, pairs, hf⟩
  rw [if_neg herr, if_neg (show ¬ (abstract db).error = true from herr)]
  by_cases hrd : db.dbm_rdonly = true
  · rw [if_pos hrd, if_pos (show (abstract db).rdonly = true from hrd)]
    exact ⟨db, rfl, rfl, hc, pairs, hf⟩
  rw [if_neg hrd, if_neg (show ¬ (abstract db).rdonly = true from hrd)]
  obtain ⟨k, hk21, hk⟩ := hf.exists_leaf (dcalchash key)
  obtain ⟨db1, hacc, hsame, hc1, -, hblk, -, -, hbuf⟩ :=
    access_spec hf.toSound hc (hk21.trans (usable_le _)) hk
  have hf1 : Files db1 pairs := hsame.files hf
  have hpage := hf.page (dcalchash key % 2 ^ k)
  rw [← hbuf] at hpage
  rw [hacc, map_some]
  rcases hf.page_cases hk with ⟨hnone, hno⟩ | ⟨a, dat, b, hsome, hl, ha⟩
  · rw [hpage.finddatum_none hno, if_pos (show (abstract db).map key = none from hnone)]
    exact ⟨db1, rfl, hsame.abstract, hc1, pairs, hf1⟩
  · have hsome' : (abstract db).map key = some dat := hsome
    obtain ⟨buf, hdel, hbuf'⟩ := hpage.found_elim key (hf.nodup (dcalchash key % 2 ^ k))
    rw [hl] at hpage
    rw [hpage.finddatum_some ha, elim_some] at hdel
    rw [hpage.finddatum_some ha, hsome', if_neg (by simp)]
    obtain ⟨db2, hwrite, hf2, hc2, hrd2, herr2⟩ := write_spec
      (l := without key (pairs (dcalchash key % 2 ^ k))) hf1 hc1 hblk (page_lt hk21) hbuf'
      ((hf.nodup _).sublist (keys_filter_sublist _))
      (lt_of_le_of_lt (space_filter_le _) (hf.fits _))
      (fun q hq => hf1.placed _ q (mem_without.mp hq).1)
    simp only [hdel, hwrite]
    refine ⟨_, rfl, ?_, hc2, _, hf2⟩
    have honly : ∀ p v, (key, v) ∈ pairs p → p = dcalchash key % 2 ^ k :=
      fun p v hv => hf.page_eq (q := (key, v)) hk hv
    have hm := hf.denotes.take honly
    rw [abstract, hf2.contents_eq hm, hrd2, herr2, hsame.rdonly, hsame.error]
    rfl

/-! ## Store -/

variable {fuel fuel' : ℕ} {r : (ℤ × Option errno) × DBM}

/-- A loop that has come to its end does so with more rounds to go. -/
theorem storeLoop_mono (hle : fuel ≤ fuel') (h : dbm_storeLoop key dat replace fuel db = some r) :
    dbm_storeLoop key dat replace fuel' db = some r := by
  induction fuel generalizing fuel' db with
  | zero => exact absurd h (by rw [dbm_storeLoop]; simp)
  | succ fuel ih =>
    obtain ⟨fuel', rfl⟩ : ∃ n, fuel' = n + 1 := ⟨fuel' - 1, by omega⟩
    have hle' : fuel ≤ fuel' := by omega
    rw [dbm_storeLoop] at h ⊢
    rcases hround : dbm_storeRound key dat replace db with - | ⟨r' | db'⟩
    · rw [hround] at h
      exact absurd h (by simp)
    · rw [hround] at h
      exact h
    · rw [hround] at h
      exact ih hle' h

theorem store_mono (hle : fuel ≤ fuel') (h : dbm_store fuel key dat replace db = some r) :
    dbm_store fuel' key dat replace db = some r := by
  rw [dbm_store] at h ⊢
  split at h
  · next herr => rwa [if_pos herr]
  · next herr =>
    rw [if_neg herr]
    split at h
    · next hrd => rwa [if_pos hrd]
    · next hrd =>
      rw [if_neg hrd]
      exact storeLoop_mono hle h

/-- A pair that is too large is turned down in the first round. -/
theorem storeLoop_tooLarge (replace : Bool) (fuel : ℕ) (hv : Valid db)
    (hno : contents db key = none)
    (hbig : TooLarge key dat) :
    ∃ db', dbm_storeLoop key dat replace (fuel + 1) db = some ((-1, some .ENOSPC), db') ∧
      Same { db with dbm_error := true } db' ∧ Valid db' := by
  obtain ⟨hc, pairs, hf⟩ := hv
  obtain ⟨k, hk21, hk⟩ := hf.exists_leaf (dcalchash key)
  obtain ⟨db1, hacc, hsame, hc1, -, -, -, -, hbuf⟩ :=
    access_spec hf.toSound hc (hk21.trans (usable_le _)) hk
  have hpage := hf.page (dcalchash key % 2 ^ k)
  rw [← hbuf] at hpage
  rcases hf.page_cases hk with ⟨-, hnot⟩ | ⟨a, v, b, hsome, -, -⟩
  · have hroom : ¬ space (pairs (dcalchash key % 2 ^ k)) + key.length + dat.length + 4 <
      PBLKSIZ := by
      have hle : 2 ≤ space (pairs (dcalchash key % 2 ^ k)) := by
        rw [space]
        omega
      rw [TooLarge] at hbig
      omega
    have hsame' : Same { db with dbm_error := true } { db1 with dbm_error := true } :=
      ⟨hsame.dirf, hsame.pagf, hsame.npag, hsame.rdonly, rfl, hsame.maxbno, hsame.blkptr,
        hsame.keyptr⟩
    have hf1 := hsame.files hf
    refine ⟨{ db1 with dbm_error := true }, ?_, hsame', ⟨hc1.pag, hc1.dir⟩, pairs,
      ⟨⟨hf1.small, hf1.many, hf1.beyond, hf1.dark⟩, hf1.page, hf1.nodup, hf1.fits, hf1.placed,
        hf1.closed⟩⟩
    rw [dbm_storeLoop, dbm_storeRound, hacc]
    simp only [hpage.finddatum_none hnot]
    rw [if_neg (by simp), elim_none]
    simp only [hpage.additem_pair_none hroom]
    rw [if_pos (show key.length + dat.length + 3 * 2 ≥ PBLKSIZ from hbig)]
  · rw [hno] at hsome
    exact absurd hsome (by simp)

/-- A key that is there is left alone when its value is not to be replaced. -/
theorem storeLoop_keep (dat : datum) (fuel : ℕ) (hv : Valid db) (hin : contents db key ≠ none)
    (hrep : replace = false) :
    ∃ db', dbm_storeLoop key dat replace (fuel + 1) db = some ((1, none), db') ∧
      Same db db' ∧ Valid db' := by
  obtain ⟨hc, pairs, hf⟩ := hv
  obtain ⟨k, hk21, hk⟩ := hf.exists_leaf (dcalchash key)
  obtain ⟨db1, hacc, hsame, hc1, -, -, -, -, hbuf⟩ :=
    access_spec hf.toSound hc (hk21.trans (usable_le _)) hk
  have hpage := hf.page (dcalchash key % 2 ^ k)
  rw [← hbuf] at hpage
  refine ⟨db1, ?_, hsame, hc1, pairs, hsame.files hf⟩
  rw [dbm_storeLoop, dbm_storeRound, hacc]
  simp only
  rw [if_pos ⟨hpage.finddatum_ne_none_iff.mpr ((hf.mem_keys_iff hf.denotes hk).mpr hin), hrep⟩]

/-- **`dbm_store`** comes to an end and updates the map, when its condition is met. -/
theorem store_spec (hv : Valid db) (hmeets : Meets key dat replace db) :
    ∃ db', (∀ fuel, 22 ≤ fuel → dbm_store fuel key dat replace db =
        some (((abstract db).store key dat replace).1, db')) ∧
      abstract db' = ((abstract db).store key dat replace).2 ∧ Valid db' := by
  have hrun : ∀ fuel, dbm_store fuel key dat replace db =
      if db.dbm_error = true then some ((-1, none), db)
      else if db.dbm_rdonly = true then some ((-1, some .EPERM), db)
      else dbm_storeLoop key dat replace fuel db := fun _ => rfl
  have hmap : (abstract db).store key dat replace =
      if db.dbm_error = true then ((-1, none), abstract db)
      else if db.dbm_rdonly = true then ((-1, some .EPERM), abstract db)
      else if contents db key ≠ none ∧ replace = false then ((1, none), abstract db)
      else if TooLarge key dat then ((-1, some .ENOSPC), { abstract db with error := true })
      else ((0, none), { abstract db with map := Function.update (contents db) key (some dat) }) :=
    rfl
  by_cases herr : db.dbm_error = true
  · simp only [if_pos herr] at hrun hmap
    exact ⟨db, fun fuel _ => by rw [hrun, hmap], by rw [hmap], hv⟩
  by_cases hrd : db.dbm_rdonly = true
  · simp only [if_neg herr, if_pos hrd] at hrun hmap
    exact ⟨db, fun fuel _ => by rw [hrun, hmap], by rw [hmap], hv⟩
  simp only [if_neg herr, if_neg hrd] at hrun hmap
  by_cases hkeep : contents db key ≠ none ∧ replace = false
  · rw [if_pos hkeep] at hmap
    obtain ⟨db', hloop, hsame, hv'⟩ := storeLoop_keep dat 0 hv hkeep.1 hkeep.2
    refine ⟨db', fun fuel hfuel => ?_, by rw [hmap, hsame.abstract], hv'⟩
    rw [hrun, hmap, storeLoop_mono (by omega) hloop]
  rw [if_neg hkeep] at hmap
  by_cases hbig : TooLarge key dat
  · rw [if_pos hbig] at hmap
    have hno : contents db key = none := by
      rcases hmeets with ⟨hin, hrep⟩ | ⟨hnot, -⟩ | hroom
      · exact absurd ⟨contents_ne_none_iff.mpr hin, hrep⟩ hkeep
      · by_contra hne
        exact hnot (contents_ne_none_iff.mp hne)
      · exact absurd hbig hroom.not_tooLarge
    obtain ⟨db', hloop, hsame, hv'⟩ :=
      storeLoop_tooLarge replace 0 hv hno hbig
    refine ⟨db', fun fuel hfuel => ?_, ?_, hv'⟩
    · rw [hrun, hmap, storeLoop_mono (by omega) hloop]
    · rw [hmap, hsame.abstract]
      rfl
  · rw [if_neg hbig] at hmap
    have hroom : Roomy (stored db) key dat := by
      rcases hmeets with ⟨hin, hrep⟩ | ⟨-, hlarge⟩ | hroom
      · exact absurd ⟨contents_ne_none_iff.mpr hin, hrep⟩ hkeep
      · exact absurd hlarge hbig
      · exact hroom
    have hgo : contents db key ≠ none → replace = true := by
      intro hne
      rcases replace with - | -
      · exact absurd ⟨hne, rfl⟩ hkeep
      · rfl
    obtain ⟨hc, pairs, hf⟩ := hv
    obtain ⟨k, hk21, hk⟩ := hf.exists_leaf (dcalchash key)
    obtain ⟨db', pairs', hloop, hf', hc', hm', hrd', herr'⟩ :=
      storeLoop_spec 22 hf hc hf.denotes hk hk21 (hf.roomy hroom _) hgo (by omega)
    refine ⟨db', fun fuel hfuel => ?_, ?_, hc', pairs', hf'⟩
    · rw [hrun, hmap, storeLoop_mono hfuel hloop]
    · rw [hmap, abstract, hf'.contents_eq hm', hrd', herr']
      rfl

end Ndbm
