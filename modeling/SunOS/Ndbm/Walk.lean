/-
# The walk over the keys

`dbm_firstkey` and `dbm_nextkey` go through the pages of the file in turn.  What a
call returns is the first of the keys that are ahead of the place where the walk is,
and then it is one key further.
-/
import SunOS.Ndbm.Ops
import Mathlib.Data.List.Range

namespace Ndbm

open List

/-- The keys ahead of item `2 * i` of page `blk`. -/
def ahead (pairs : ℕ → List Pair) (npag blk i : ℕ) : List datum :=
  keys ((pairs blk).drop i) ++
    (List.range' (blk + 1) (npag - (blk + 1))).flatMap fun p => keys (pairs p)

/-- The walk stands at an item of its page, or just behind the last one. -/
def AtItem (pairs : ℕ → List Pair) (db : DBM) (i : ℕ) : Prop :=
  db.dbm_keyptr = 2 * i ∧ i ≤ (pairs db.dbm_blkptr).length

variable {db db' : DBM} {pairs : ℕ → List Pair} {i blk npag : ℕ} {q : Pair} {l : List Pair}

/-! ## The keys ahead -/

theorem ahead_of_lt (h : i < (pairs blk).length) :
    ahead pairs npag blk i = ((pairs blk)[i]).1 :: ahead pairs npag blk (i + 1) := by
  rw [ahead, drop_eq_getElem_cons h]
  rfl

/-- Behind the last item of a page the next page is ahead. -/
theorem ahead_end (h : blk + 1 < npag) :
    ahead pairs npag blk (pairs blk).length = ahead pairs npag (blk + 1) 0 := by
  have hrange : List.range' (blk + 1) (npag - (blk + 1)) =
      (blk + 1) :: List.range' (blk + 1 + 1) (npag - (blk + 1 + 1)) := by
    rw [show npag - (blk + 1) = npag - (blk + 1 + 1) + 1 by omega, List.range'_succ]
  rw [ahead, ahead, drop_length, hrange]
  rfl

theorem ahead_last (h : npag ≤ blk + 1) : ahead pairs npag blk (pairs blk).length = [] := by
  rw [ahead, drop_length, show npag - (blk + 1) = 0 by omega]
  rfl

/-- At the start all the keys are ahead. -/
theorem Files.ahead_zero (hf : Files db pairs) : ahead pairs db.npag 0 0 = keys (stored db) := by
  rw [hf.keys_stored, List.range_eq_range', ahead, drop_zero]
  rcases Nat.eq_zero_or_pos db.npag with hnone | hpos
  · rw [hf.pairs_beyond (p := 0) (by omega), hnone]
    rfl
  · rw [show db.npag = db.npag - 1 + 1 by omega, List.range'_succ]
    rfl

theorem Holds.makdatum_key {buf : Page} (hbuf : Holds buf (ofPairs l)) (h : i < l.length) :
    makdatum buf (2 * i) = some (l[i]).1 := by
  have hsplit : l = l.take i ++ l[i] :: l.drop (i + 1) := by
    rw [← drop_eq_getElem_cons h, take_append_drop]
  have hlen : (l.take i).length = i := by
    rw [length_take]
    omega
  rw [hsplit] at hbuf
  have hkey := hbuf.makdatum_pair.1
  rwa [hlen] at hkey

/-! ## One call -/

/-- A page is in the buffer, read from the file if it was not there. -/
theorem walkPage (hs : Sound db) (hdir : DirCached db) (hblk : db.dbm_blkptr < 2 ^ 21) :
    ∃ db', (if (db.dbm_blkptr : ℤ) ≠ db.dbm_pagbno then
        readPage db.dbm_blkptr { db with dbm_pagbno := db.dbm_blkptr } else db) = db' ∧
      Same db db' ∧ DirCached db' ∧ db'.dbm_pagbno = db.dbm_blkptr ∧
      db'.dbm_pagbuf = if (db.dbm_blkptr : ℤ) ≠ db.dbm_pagbno then db.pagf db.dbm_blkptr
        else db.dbm_pagbuf := by
  by_cases hpag : (db.dbm_blkptr : ℤ) ≠ db.dbm_pagbno
  · rw [if_pos hpag, if_pos hpag]
    obtain ⟨hsame, hdir', hbuf, hno, -⟩ := readPage_of_lt hblk hs hdir
    exact ⟨_, rfl, hsame, hdir', hno, hbuf⟩
  · rw [if_neg hpag, if_neg hpag]
    exact ⟨db, rfl, Same.refl db, hdir, (not_not.mp hpag).symm, rfl⟩

/-- The page the walk is at is in the buffer. -/
theorem walkPage_spec (hf : Files db pairs) (hc : Caches db) (hblk : db.dbm_blkptr < 2 ^ 21) :
    ∃ db', (if (db.dbm_blkptr : ℤ) ≠ db.dbm_pagbno then
        readPage db.dbm_blkptr { db with dbm_pagbno := db.dbm_blkptr } else db) = db' ∧
      Same db db' ∧ Caches db' ∧ Holds db'.dbm_pagbuf (ofPairs (pairs db.dbm_blkptr)) := by
  obtain ⟨db', hrun, hsame, hdir, hno, hbuf⟩ := walkPage hf.toSound hc.dir hblk
  have hpage : db'.dbm_pagbuf = db.pagf db.dbm_blkptr := by
    rw [hbuf]
    split
    · rfl
    · next hpag => exact hc.pag _ (not_not.mp hpag).symm
  refine ⟨db', hrun, hsame, ⟨fun p hp => ?_, hdir⟩, hpage ▸ hf.page _⟩
  rw [hno] at hp
  rw [← Int.ofNat.inj hp, hpage, hsame.pagf]

/-- The same data base with the walk at another place. -/
def place (db : DBM) (blkptr keyptr : ℕ) : DBM :=
  { db with dbm_blkptr := blkptr, dbm_keyptr := keyptr }

@[simp] theorem place_blkptr (b k : ℕ) : (place db b k).dbm_blkptr = b := rfl

@[simp] theorem place_keyptr (b k : ℕ) : (place db b k).dbm_keyptr = k := rfl

theorem Files.place (hf : Files db pairs) (blkptr keyptr : ℕ) :
    Files (place db blkptr keyptr) pairs :=
  ⟨⟨hf.small, hf.many, hf.beyond, hf.dark⟩, hf.page, hf.nodup, hf.fits, hf.placed, hf.closed⟩

theorem Caches.place (hc : Caches db) (blkptr keyptr : ℕ) : Caches (place db blkptr keyptr) :=
  ⟨hc.pag, hc.dir⟩

/-- **The loop of `dbm_nextkey`** comes to an end; it returns the first key ahead when the walk
stands at an item. -/
theorem nextkeyLoop_spec {fuel : ℕ} (hf : Files db pairs) (hc : Caches db)
    (hblk : db.dbm_blkptr < 2 ^ 21) (hpos : 0 < fuel) (hfuel : db.npag ≤ fuel + db.dbm_blkptr) :
    ∃ a db' blk' key', dbm_nextkeyLoop db.npag fuel db = some (a, db') ∧
      Same (place db blk' key') db' ∧ Caches db' ∧
      ∀ i, AtItem pairs db i → a = (ahead pairs db.npag db.dbm_blkptr i).head? ∧
        (a ≠ none → db'.dbm_blkptr < db.npag) ∧ ∃ i', AtItem pairs db' i' ∧
          ahead pairs db.npag db'.dbm_blkptr i' = (ahead pairs db.npag db.dbm_blkptr i).tail := by
  induction fuel generalizing db with
  | zero => lia
  | succ fuel ih =>
    obtain ⟨db1, hpage, hsame, hc1, hbuf⟩ := walkPage_spec hf hc hblk
    have hplace : ∀ b k, Same (place db b k) (place db1 b k) := fun _ _ =>
      ⟨hsame.dirf, hsame.pagf, hsame.npag, hsame.rdonly, hsame.error, hsame.maxbno, rfl, rfl⟩
    have hfound : (if sp db1.dbm_pagbuf 0 ≠ 0 then
        makdatum db1.dbm_pagbuf db1.dbm_keyptr else none) =
        makdatum db1.dbm_pagbuf db.dbm_keyptr := by
      rw [hsame.keyptr]
      split
      · rfl
      · next hno => rw [makdatum, if_pos (by omega)]
    rw [dbm_nextkeyLoop]
    simp only [hpage, hfound]
    cases hmak : makdatum db1.dbm_pagbuf db.dbm_keyptr with
    | some item =>
      refine ⟨some item, place db1 db1.dbm_blkptr (db1.dbm_keyptr + 2), db1.dbm_blkptr,
        db1.dbm_keyptr + 2, rfl, hplace _ _, hc1.place _ _, fun i hi => ?_⟩
      rw [hi.1] at hmak
      have hlt : i < (pairs db.dbm_blkptr).length := by
        by_contra hge
        rw [show i = (pairs db.dbm_blkptr).length from le_antisymm hi.2 (Nat.le_of_not_lt hge),
          hbuf.makdatum_end] at hmak
        exact absurd hmak (by simp)
      rw [hbuf.makdatum_key hlt] at hmak
      rw [ahead_of_lt hlt]
      refine ⟨hmak.symm, fun _ => ?_, i + 1, ⟨?_, ?_⟩, ?_⟩
      · rw [place_blkptr, hsame.blkptr]
        by_contra hge
        rw [hf.pairs_beyond (Nat.le_of_not_lt hge)] at hlt
        exact absurd hlt (Nat.not_lt_zero i)
      · rw [place_keyptr, hsame.keyptr, hi.1]
        lia
      · rw [place_blkptr, hsame.blkptr]
        lia
      · rw [place_blkptr, hsame.blkptr]
        rfl
    | none =>
      obtain ⟨key', hkey, hzero⟩ : ∃ key',
          (if sp db1.dbm_pagbuf 0 ≠ 0 then { db1 with dbm_keyptr := 0 } else db1) =
            place db1 db1.dbm_blkptr key' ∧
          ∀ i, AtItem pairs db i → i = (pairs db.dbm_blkptr).length ∧ key' = 0 := by
        have hend : ∀ i, AtItem pairs db i → i = (pairs db.dbm_blkptr).length := by
          intro i hi
          by_contra hne
          rw [hi.1, hbuf.makdatum_key (lt_of_le_of_ne hi.2 hne)] at hmak
          exact absurd hmak (by simp)
        by_cases hno : sp db1.dbm_pagbuf 0 ≠ 0
        · exact ⟨0, if_pos hno, fun i hi => ⟨hend i hi, rfl⟩⟩
        · refine ⟨db1.dbm_keyptr, if_neg hno, fun i hi => ⟨hend i hi, ?_⟩⟩
          rw [hbuf.count, length_ofPairs, ← hend i hi] at hno
          rw [hsame.keyptr, hi.1]
          lia
      simp only [hkey]
      change ∃ a db' blk' keyptr', (if db1.dbm_blkptr + 1 ≥ db.npag then
          some (none, place db1 (db1.dbm_blkptr + 1) key')
        else dbm_nextkeyLoop db.npag fuel (place db1 (db1.dbm_blkptr + 1) key')) = some (a, db') ∧
        Same (place db blk' keyptr') db' ∧ Caches db' ∧ _
      rw [hsame.blkptr]
      by_cases hlast : db.dbm_blkptr + 1 ≥ db.npag
      · rw [if_pos hlast]
        refine ⟨none, _, _, _, rfl, hplace _ _, hc1.place _ _, fun i hi => ?_⟩
        obtain ⟨rfl, hkey0⟩ := hzero i hi
        rw [ahead_last hlast]
        refine ⟨rfl, fun hne => absurd rfl hne, 0, ⟨hkey0, Nat.zero_le _⟩, ?_⟩
        have hempty : (pairs (db.dbm_blkptr + 1)).length = 0 := by
          rw [hf.pairs_beyond hlast]
          rfl
        rw [place_blkptr, ← hempty, ahead_last (by lia)]
        rfl
      · rw [if_neg hlast]
        have hmany := hf.many
        have hf2 := (hsame.files hf).place (db.dbm_blkptr + 1) key'
        obtain ⟨a, db', b, k, hrun, hsame', hc', hwalk⟩ := ih hf2 (hc1.place _ _)
          (show db.dbm_blkptr + 1 < 2 ^ 21 by lia) (by lia)
          (show db1.npag ≤ fuel + (db.dbm_blkptr + 1) by rw [hsame.npag]; lia)
        rw [show (place db1 (db.dbm_blkptr + 1) key').npag = db.npag from hsame.npag] at hrun hwalk
        refine ⟨a, db', b, k, hrun, (hplace b k).trans hsame', hc', fun i hi => ?_⟩
        obtain ⟨rfl, hkey0⟩ := hzero i hi
        obtain ⟨ha, hnext⟩ := hwalk 0 ⟨hkey0, Nat.zero_le _⟩
        rw [place_blkptr, ← ahead_end (by lia)] at ha hnext
        exact ⟨ha, hnext⟩

/-- The place is the one of the data base that is the same otherwise. -/
theorem Same.self {b k : ℕ} (h : Same (place db b k) db') :
    Same (place db db'.dbm_blkptr db'.dbm_keyptr) db' :=
  ⟨h.dirf, h.pagf, h.npag, h.rdonly, h.error, h.maxbno, rfl, rfl⟩

theorem Same.place {b k : ℕ} (h : Same (place db b k) db') (b' k' : ℕ) :
    Same (Ndbm.place db b' k') (Ndbm.place db' b' k') :=
  ⟨h.dirf, h.pagf, h.npag, h.rdonly, h.error, h.maxbno, rfl, rfl⟩

/-! ## A walk -/

/-- What `dbm_firstkey` and the calls of `dbm_nextkey` that follow it return, up to the first
that has no more keys; the data base is not changed in between, but there may be fetches. -/
inductive Walk (db : DBM) : List (Option datum) → DBM → Prop
  | first {a db'} : dbm_firstkey db = some (a, db') → Walk db [a] db'
  | next {l a db' db''} : Walk db l db' → none ∉ l → dbm_nextkey db' = some (a, db'') →
      Walk db (l ++ [a]) db''
  | fetch {l key v db' db''} : Walk db l db' → dbm_fetch key db' = some (v, db'') →
      Walk db l db''

theorem nextkey_spec (hf : Files db pairs) (hc : Caches db) (hblk : db.dbm_blkptr < 2 ^ 21) :
    ∃ a db' blk' key', dbm_nextkey db = some (a, db') ∧ Same (place db blk' key') db' ∧
      Caches db' ∧ (db.dbm_error = true → a = none) ∧
      (db.dbm_error = false → ∀ i, AtItem pairs db i →
        a = (ahead pairs db.npag db.dbm_blkptr i).head? ∧
        (a ≠ none → db'.dbm_blkptr < db.npag) ∧ ∃ i', AtItem pairs db' i' ∧
          ahead pairs db.npag db'.dbm_blkptr i' = (ahead pairs db.npag db.dbm_blkptr i).tail) := by
  rw [dbm_nextkey]
  by_cases herr : db.dbm_error = true
  · rw [if_pos herr]
    exact ⟨none, db, db.dbm_blkptr, db.dbm_keyptr, rfl, Same.refl db, hc, fun _ => rfl,
      fun hno => absurd herr (by simp [hno])⟩
  · rw [if_neg herr]
    obtain ⟨a, db', blk', key', hrun, hsame, hc', hwalk⟩ :=
      nextkeyLoop_spec hf hc hblk (Nat.succ_pos db.npag) (by omega)
    exact ⟨a, db', blk', key', hrun, hsame, hc', fun h => absurd h herr, fun _ => hwalk⟩

/-- **A walk returns every key once**: its answers are the keys of the data base, and then
there are no more. -/
theorem Walk.answers {l : List (Option datum)} (hf : Files db pairs) (hc : Caches db)
    (herr : db.dbm_error = false) (hwalk : Walk db l db') :
    (∀ n (hn : n < l.length), l[n] = (keys (stored db))[n]?) ∧
      Caches db' ∧ Same (place db db'.dbm_blkptr db'.dbm_keyptr) db' ∧
      (none ∉ l → db'.dbm_blkptr < db.npag) ∧ ∃ i, AtItem pairs db' i ∧
        ahead pairs db.npag db'.dbm_blkptr i = (keys (stored db)).drop l.length := by
  induction hwalk with
  | @first a db' hrun =>
    obtain ⟨b, db1, blk', key', hrun', hsame, hc', -, hstep⟩ :=
      nextkey_spec (hf.place 0 0) (hc.place 0 0) (show 0 < 2 ^ 21 by omega)
    have heq : some (a, db') = some (b, db1) := hrun.symm.trans hrun'
    obtain ⟨rfl, rfl⟩ := Prod.mk.inj (Option.some.inj heq)
    obtain ⟨ha, hpage, i', hi', hahead⟩ := hstep herr 0 ⟨rfl, Nat.zero_le _⟩
    rw [place_blkptr] at ha hahead
    have hzero : ahead pairs (place db 0 0).npag 0 0 = keys (stored db) := hf.ahead_zero
    rw [hzero] at ha hahead
    refine ⟨fun n hn => ?_, hc', hsame.self, fun hsome => hpage ?_, i', hi', ?_⟩
    · obtain rfl : n = 0 := by
        rw [length_singleton] at hn
        omega
      rw [getElem_singleton, ha, List.head?_eq_getElem?]
    · rintro rfl
      exact hsome (mem_singleton_self _)
    · rw [show db.npag = (place db 0 0).npag from rfl, hahead, length_singleton,
        drop_one]
  | @next l a db1 db2 _ hsome hrun ih =>
    obtain ⟨hans, hc1, hsame1, hpage, i, hi, hahead⟩ := ih
    have hf1 : Files db1 pairs := hsame1.files (hf.place _ _)
    obtain ⟨b, db3, blk', key', hrun', hsame, hc', -, hstep⟩ :=
      nextkey_spec hf1 hc1 ((hpage hsome).trans hf.many)
    have heq : some (a, db2) = some (b, db3) := hrun.symm.trans hrun'
    obtain ⟨rfl, rfl⟩ := Prod.mk.inj (Option.some.inj heq)
    have hnpag : db1.npag = db.npag := hsame1.npag
    obtain ⟨ha, hpage', i', hi', hahead'⟩ := hstep (hsame1.error.trans herr) i hi
    rw [hnpag, hahead] at ha hahead'
    refine ⟨fun n hn => ?_, hc', (hsame1.place blk' key').trans hsame |>.self,
      fun hsome' => hnpag ▸ hpage' ?_, i', hi', ?_⟩
    · rw [length_append, length_singleton] at hn
      rw [getElem_append]
      split
      · next hlt => exact hans n hlt
      · next hge =>
        obtain rfl : n = l.length := by omega
        rw [getElem_singleton, ha, List.head?_drop]
    · rintro rfl
      exact hsome' (mem_append_right l (mem_singleton_self _))
    · rw [hahead', tail_drop, length_append, length_singleton]
  | @fetch l key v db1 db2 _ hrun ih =>
    obtain ⟨hans, hc1, hsame1, hpage, i, hi, hahead⟩ := ih
    have hf1 : Files db1 pairs := hsame1.files (hf.place _ _)
    obtain ⟨db3, hrun', hsame, hc', -⟩ := fetch_spec ⟨hc1, pairs, hf1⟩ key
    obtain ⟨-, rfl⟩ := Prod.mk.inj (Option.some.inj (hrun.symm.trans hrun'))
    refine ⟨hans, hc', (hsame1.trans hsame).self, fun hsome => ?_, i, ⟨?_, ?_⟩, ?_⟩
    · rw [hsame.blkptr]
      exact hpage hsome
    · rw [hsame.keyptr, hi.1]
    · rw [hsame.blkptr]
      exact hi.2
    · rw [hsame.blkptr, hahead]

/-- **A walk goes on to the last key**. -/
theorem Files.exists_walk (hf : Files db pairs) (hc : Caches db) (herr : db.dbm_error = false) :
    ∃ db', Walk db ((keys (stored db)).map some ++ [none]) db' := by
  have hstart : ∃ v db', Walk db [v] db' := by
    obtain ⟨v, db', _, _, hrun, -⟩ :=
      nextkey_spec (hf.place 0 0) (hc.place 0 0) (show 0 < 2 ^ 21 by omega)
    exact ⟨v, db', .first hrun⟩
  have hgo : ∀ n ≤ (keys (stored db)).length, ∃ v db',
      Walk db (((keys (stored db)).take n).map some ++ [v]) db' := by
    intro n
    induction n with
    | zero => exact fun _ => hstart
    | succ n ih =>
      intro hn
      obtain ⟨v, db1, hwalk⟩ := ih (by omega)
      obtain ⟨hans, hc1, hsame, hpage, i, hi, hahead⟩ := hwalk.answers hf hc herr
      have hlen : (((keys (stored db)).take n).map some).length = n := by
        rw [length_map, length_take]
        omega
      have hv : v = some (keys (stored db))[n] := by
        have hlast := hans n (by rw [length_append, hlen, length_singleton]; omega)
        rw [getElem_append_right (by omega), getElem_singleton] at hlast
        rw [hlast, List.getElem?_eq_getElem]
      have hnext : ((keys (stored db)).take n).map some ++ [v] =
          ((keys (stored db)).take (n + 1)).map some := by
        rw [hv, take_succ_eq_append_getElem (by omega), map_append, map_singleton]
      rw [hnext] at hwalk hpage
      have hsome : none ∉ ((keys (stored db)).take (n + 1)).map some := by
        intro hin
        obtain ⟨key, -, hkey⟩ := List.mem_map.mp hin
        exact Option.some_ne_none key hkey
      have hf1 : Files db1 pairs := hsame.files (hf.place _ _)
      obtain ⟨v', db2, _, _, hrun, -⟩ :=
        nextkey_spec hf1 hc1 ((hpage hsome).trans hf.many)
      exact ⟨v', db2, .next hwalk hsome hrun⟩
  obtain ⟨v, db', hwalk⟩ := hgo _ (le_refl _)
  rw [take_length] at hwalk
  have hlast := (hwalk.answers hf hc herr).1 (keys (stored db)).length (by
    rw [length_append, length_map, length_singleton]
    omega)
  rw [getElem_append_right (by rw [length_map]), getElem_singleton,
    List.getElem?_eq_none (le_refl _)] at hlast
  exact ⟨db', hlast ▸ hwalk⟩

end Ndbm
