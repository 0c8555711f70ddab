/-
# The data base is a finite map

A run is a sequence of calls and what they answer.  When every store meets its
condition, the files stay those of a data base, every call comes to an end, and the
answers are those of a map from keys to values; a walk returns each key of that map
once.
-/
import SunOS.Ndbm.Walk

namespace Ndbm

/-! ## Runs -/

/-- The calls; `reopen` closes the data base and opens it again. -/
inductive Op
  | fetch (key : datum)
  | store (key dat : datum) (replace : Bool)
  | delete (key : datum)
  | firstkey
  | nextkey
  | clearerr
  | reopen (st_size : ℕ) (rdonly : Bool)

/-- What a call answers. -/
inductive Answer
  | item (v : Option datum)
  | code (r : ℤ) (e : Option errno)
  | done

/-- A call, its answer and the data base after it. -/
inductive Does (db : DBM) : Op → Answer → DBM → Prop
  | fetch {key v db'} : dbm_fetch key db = some (v, db') → Does db (.fetch key) (.item v) db'
  | store {fuel key dat replace r e db'} : dbm_store fuel key dat replace db = some ((r, e), db') →
      Does db (.store key dat replace) (.code r e) db'
  | delete {key r e db'} : dbm_delete key db = some ((r, e), db') →
      Does db (.delete key) (.code r e) db'
  | firstkey {v db'} : dbm_firstkey db = some (v, db') → Does db .firstkey (.item v) db'
  | nextkey {v db'} : dbm_nextkey db = some (v, db') → Does db .nextkey (.item v) db'
  | clearerr : Does db .clearerr .done (dbm_clearerr db)
  | reopen {st_size rdonly} : Does db (.reopen st_size rdonly) .done
      (dbm_open db.dirf st_size db.pagf db.npag rdonly)

/-- A walk is not taken on once its page is none a long can address; the size of a directory
covers the bits that are set. -/
def Sensible (db : DBM) : Op → Prop
  | .nextkey => db.dbm_blkptr < 2 ^ 21
  | .reopen st_size _ => db.dbm_maxbno < st_size * BYTESIZ
  | _ => True

/-- The condition of the call holds. -/
def Allowed (db : DBM) : Op → Prop
  | .store key dat replace => Meets key dat replace db
  | op => Sensible db op

/-- The sequences of steps and their answers. -/
inductive Runs {S : Type} (Step : S → Op → Answer → S → Prop) (s : S) :
    List (Op × Answer) → S → Prop
  | nil : Runs Step s [] s
  | snoc {evs op a s' s''} : Runs Step s evs s' → Step s' op a s'' →
      Runs Step s (evs ++ [(op, a)]) s''

/-- A step of the data base whose condition holds. -/
def Step (db : DBM) (op : Op) (a : Answer) (db' : DBM) : Prop := Allowed db op ∧ Does db op a db'

/-- A call on the map.  What a walk returns is no matter of the map alone. -/
inductive Abstract.Does (s : Abstract) : Op → Answer → Abstract → Prop
  | fetch {key} : Abstract.Does s (.fetch key) (.item (s.fetch key)) s
  | store {key dat replace} : Abstract.Does s (.store key dat replace)
      (.code (s.store key dat replace).1.1 (s.store key dat replace).1.2)
      (s.store key dat replace).2
  | delete {key} : Abstract.Does s (.delete key) (.code (s.delete key).1.1 (s.delete key).1.2)
      (s.delete key).2
  | firstkey {v} : Abstract.Does s .firstkey (.item v) s
  | nextkey {v} : Abstract.Does s .nextkey (.item v) s
  | clearerr : Abstract.Does s .clearerr .done { s with error := false }
  | reopen {st_size rdonly} : Abstract.Does s (.reopen st_size rdonly) .done
      { s with rdonly := rdonly, error := false }

variable {db db' db0 : DBM} {pairs : ℕ → List Pair} {op : Op} {a : Answer}
  {evs : List (Op × Answer)}

/-- A run of one step. -/
theorem Runs.of_single {S : Type} {Next : S → Op → Answer → S → Prop} {s s' : S}
    (h : Runs Next s [(op, a)] s') : Next s op a s' := by
  generalize hl : [(op, a)] = l at h
  cases h with
  | nil => exact absurd hl (by simp)
  | @snoc evs _ _ s1 _ hrun hstep =>
    obtain rfl : evs = [] := by
      cases evs with
      | nil => rfl
      | cons e evs => exact absurd hl (by simp)
    obtain ⟨rfl, rfl⟩ := hl
    generalize hl : [] = l at hrun
    cases hrun with
    | nil => exact hstep
    | snoc => exact absurd hl (by simp)

/-! ## The calls that leave the map alone -/

theorem Valid.clearerr (hv : Valid db) : Valid (dbm_clearerr db) := by
  obtain ⟨hc, pairs, hf⟩ := hv
  exact ⟨⟨hc.pag, hc.dir⟩, pairs, ⟨⟨hf.small, hf.many, hf.beyond, hf.dark⟩, hf.page, hf.nodup,
    hf.fits, hf.placed, hf.closed⟩⟩

/-- The bits of the directory are there when it is opened again. -/
theorem Sound.bit_reopen (hs : Sound db) {st_size : ℕ}
    (hsize : db.dbm_maxbno < st_size * BYTESIZ) (rdonly : Bool) :
    bit (dbm_open db.dirf st_size db.pagf db.npag rdonly) = bit db := by
  funext n
  rw [bit, bit, dbm_open]
  by_cases hle : (n : ℤ) ≤ db.dbm_maxbno
  · rw [decide_eq_true hle, decide_eq_true (by push_cast at hsize ⊢; omega)]
  · rw [hs.dark n (not_le.mp hle), Bool.and_false, Bool.and_false]

theorem Valid.reopen (hv : Valid db) {st_size : ℕ} (hsize : db.dbm_maxbno < st_size * BYTESIZ)
    (rdonly : Bool) : Valid (dbm_open db.dirf st_size db.pagf db.npag rdonly) := by
  obtain ⟨-, pairs, hf⟩ := hv
  have hbit := hf.toSound.bit_reopen hsize rdonly
  refine ⟨⟨fun p hp => absurd hp ?_, fun b hb => absurd hb ?_⟩, pairs,
    ⟨⟨fun n hn => hf.small n (hbit ▸ hn), hf.many, hf.beyond, fun n hn => ?_⟩, hf.page, hf.nodup,
      hf.fits, ?_, ?_⟩⟩
  · exact show (-1 : ℤ) ≠ p by omega
  · exact show (-1 : ℤ) ≠ b by omega
  · apply hf.dark
    rw [dbm_open] at hn
    push_cast at hn hsize
    omega
  · rw [hbit]
    exact hf.placed
  · rw [hbit]
    exact hf.closed

/-- The walk moves, and the map stays. -/
theorem Valid.walk (hv : Valid db) (hblk : db.dbm_blkptr < 2 ^ 21) :
    ∃ v db', dbm_nextkey db = some (v, db') ∧ abstract db' = abstract db ∧ Valid db' := by
  obtain ⟨hc, pairs, hf⟩ := hv
  obtain ⟨v, db', b, k, hrun, hsame, hc', -⟩ := nextkey_spec hf hc hblk
  exact ⟨v, db', hrun, hsame.abstract, hc', pairs, hsame.files (hf.place b k)⟩

/-- A data base just made. -/
def fresh : DBM := dbm_open (fun _ _ => false) 0 (fun _ => zeroed) 0 false

/-- The data base after a call. -/
def after {α : Type} (r : Option (α × DBM)) : DBM := (r.map Prod.snd).getD fresh

theorem eq_some_after {α : Type} {r : Option (α × DBM)} {v : α} (h : r.map Prod.fst = some v) :
    r = some (v, after r) := by
  obtain ⟨q, rfl, rfl⟩ := Option.map_eq_some_iff.mp h
  rfl

theorem valid_fresh : Valid fresh := by
  have hbit : ∀ n, bit fresh n = false := by
    intro n
    rw [bit, Bool.and_eq_false_iff]
    exact .inr rfl
  refine ⟨⟨fun p hp => absurd hp (show (-1 : ℤ) ≠ p by omega),
    fun b hb => absurd hb (show (-1 : ℤ) ≠ b by omega)⟩, fun _ => [],
    ⟨⟨fun n hn => ?_, Nat.two_pow_pos 21, fun _ _ => rfl, fun _ _ => rfl⟩, fun _ => holds_zeroed,
      fun _ => List.nodup_nil, fun _ => by decide, fun p q hq => absurd hq List.not_mem_nil,
      fun k h hin => ?_⟩⟩
  · rw [hbit] at hn
    exact absurd hn (by simp)
  · rw [hbit] at hin
    exact absurd hin (by simp)

/-! ## One step -/

/-- **A step whose condition holds** comes to an end, is one of the map, and leaves a data
base. -/
theorem step_spec (hv : Valid db) (hallow : Allowed db op) :
    (∃ a db', Does db op a db') ∧ ∀ a db', Does db op a db' →
      (abstract db).Does op a (abstract db') ∧ Valid db' := by
  cases op with
  | fetch key =>
    obtain ⟨db1, hrun, hsame, hv1⟩ := fetch_spec hv key
    refine ⟨⟨_, _, .fetch hrun⟩, fun a db' hdoes => ?_⟩
    cases hdoes with
    | fetch h =>
      obtain ⟨rfl, rfl⟩ := Prod.mk.inj (Option.some.inj (hrun.symm.trans h))
      rw [hsame.abstract]
      exact ⟨.fetch, hv1⟩
  | store key dat replace =>
    obtain ⟨db1, hrun, habs, hv1⟩ := store_spec hv hallow
    refine ⟨⟨_, _, .store (hrun 22 (le_refl _))⟩, fun a db' hdoes => ?_⟩
    cases hdoes with
    | @store fuel _ _ _ r e _ h =>
      have hmono : dbm_store (max fuel 22) key dat replace db = some ((r, e), db') :=
        store_mono (le_max_left _ _) h
      have heq := Prod.mk.inj (Option.some.inj
        ((hrun (max fuel 22) (le_max_right _ _)).symm.trans hmono))
      obtain ⟨hans, rfl⟩ := heq
      rw [habs, show r = ((abstract db).store key dat replace).1.1 by rw [hans],
        show e = ((abstract db).store key dat replace).1.2 by rw [hans]]
      exact ⟨.store, hv1⟩
  | delete key =>
    obtain ⟨db1, hrun, habs, hv1⟩ := delete_spec hv key
    refine ⟨⟨_, _, .delete hrun⟩, fun a db' hdoes => ?_⟩
    cases hdoes with
    | @delete _ r e _ h =>
      obtain ⟨hans, rfl⟩ := Prod.mk.inj (Option.some.inj (hrun.symm.trans h))
      rw [habs, show r = ((abstract db).delete key).1.1 by rw [hans],
        show e = ((abstract db).delete key).1.2 by rw [hans]]
      exact ⟨.delete, hv1⟩
  | firstkey =>
    obtain ⟨hc, pairs, hf⟩ := hv
    obtain ⟨v, db1, hrun, habs, hv1⟩ :=
      Valid.walk ⟨hc.place 0 0, pairs, hf.place 0 0⟩ (show 0 < 2 ^ 21 by omega)
    refine ⟨⟨_, _, .firstkey hrun⟩, fun a db' hdoes => ?_⟩
    cases hdoes with
    | firstkey h =>
      obtain ⟨rfl, rfl⟩ := Prod.mk.inj (Option.some.inj (hrun.symm.trans h))
      rw [habs]
      exact ⟨.firstkey, hv1⟩
  | nextkey =>
    obtain ⟨v, db1, hrun, habs, hv1⟩ := hv.walk hallow
    refine ⟨⟨_, _, .nextkey hrun⟩, fun a db' hdoes => ?_⟩
    cases hdoes with
    | nextkey h =>
      obtain ⟨rfl, rfl⟩ := Prod.mk.inj (Option.some.inj (hrun.symm.trans h))
      rw [habs]
      exact ⟨.nextkey, hv1⟩
  | clearerr =>
    refine ⟨⟨_, _, .clearerr⟩, fun a db' hdoes => ?_⟩
    cases hdoes
    exact ⟨.clearerr, hv.clearerr⟩
  | reopen st_size rdonly =>
    refine ⟨⟨_, _, .reopen⟩, fun a db' hdoes => ?_⟩
    cases hdoes
    exact ⟨.reopen, hv.reopen hallow rdonly⟩

/-- **A run** is one of the map, and leaves a data base. -/
theorem run_spec (hv : Valid db0) (hrun : Runs Step db0 evs db) :
    Runs Abstract.Does (abstract db0) evs (abstract db) ∧ Valid db := by
  induction hrun with
  | nil => exact ⟨.nil, hv⟩
  | snoc _ hstep ih =>
    obtain ⟨habs, hv'⟩ := (step_spec ih.2 hstep.1).2 _ _ hstep.2
    exact ⟨.snoc ih.1 habs, hv'⟩

/-! ## The map -/

/-- **The data base refines a finite map**: in every run whose stores meet their condition,
each call comes to an end and answers as the map does, and a walk returns each of the keys
of the map once. -/
theorem refines_map (hv : Valid db0) (hrun : Runs Step db0 evs db) :
    Runs Abstract.Does (abstract db0) evs (abstract db) ∧
      (∀ op, Allowed db op → ∃ a db', Does db op a db') ∧
      (db.dbm_error = false → (∃ db', Walk db ((keys (stored db)).map some ++ [none]) db') ∧
        ∀ l db', Walk db l db' → ∀ n (hn : n < l.length), l[n] = (keys (stored db))[n]?) ∧
      (keys (stored db)).Nodup ∧ ∀ key, key ∈ keys (stored db) ↔ (abstract db).map key ≠ none := by
  obtain ⟨habs, hv'⟩ := run_spec hv hrun
  refine ⟨habs, fun op hallow => (step_spec hv' hallow).1, fun herr => ?_, ?_,
    fun key => contents_ne_none_iff.symm⟩
  · obtain ⟨hc, pairs, hf⟩ := hv'
    exact ⟨hf.exists_walk hc herr, fun l db' hwalk => (hwalk.answers hf hc herr).1⟩
  · obtain ⟨-, pairs, hf⟩ := hv'
    exact hf.nodup_stored

/-- Two values that do not fit on one page; the first is replaced then, and fetched. -/
def twoPages : List (Op × Answer) :=
  [(.store [1] (List.replicate 600 0) false, .code 0 none),
    (.store [2] (List.replicate 600 0) false, .code 0 none), (.store [1] [7] true, .code 0 none),
    (.fetch [1], .item (some [7]))]

theorem runs_twoPages : ∃ db, Runs Step fresh twoPages db ∧ db.npag = 2 ∧
    keys (stored db) = [[1], [2]] ∧ db.dbm_error = false := by
  have h1 := eq_some_after (r := dbm_store 22 [1] (List.replicate 600 0) false fresh) (v :=
    (0, none))
    (by decide +kernel)
  generalize hdb1 : after (dbm_store 22 [1] (List.replicate 600 0) false fresh) = db1 at h1
  have h2 := eq_some_after (r := dbm_store 22 [2] (List.replicate 600 0) false db1) (v := (0, none))
    (by subst hdb1; decide +kernel)
  generalize hdb2 : after (dbm_store 22 [2] (List.replicate 600 0) false db1) = db2 at h2
  have h3 := eq_some_after (r := dbm_store 22 [1] [7] true db2) (v := (0, none))
    (by subst hdb2 hdb1; decide +kernel)
  generalize hdb3 : after (dbm_store 22 [1] [7] true db2) = db3 at h3
  have h4 := eq_some_after (r := dbm_fetch [1] db3) (v := some [7])
    (by subst hdb3 hdb2 hdb1; decide +kernel)
  have hroom1 : Roomy (stored fresh) [1] (List.replicate 600 0) := by unfold Roomy; decide +kernel
  have hroom2 : Roomy (stored db1) [2] (List.replicate 600 0) := by
    unfold Roomy
    subst hdb1
    decide +kernel
  have hroom3 : Roomy (stored db2) [1] [7] := by
    unfold Roomy
    subst hdb2 hdb1
    decide +kernel
  refine ⟨after (dbm_fetch [1] db3), ?_, ?_⟩
  · exact .snoc (.snoc (.snoc (.snoc .nil ⟨.inr (.inr hroom1), .store h1⟩)
      ⟨.inr (.inr hroom2), .store h2⟩) ⟨.inr (.inr hroom3), .store h3⟩) ⟨trivial, .fetch h4⟩
  · subst hdb3 hdb2 hdb1
    decide +kernel

theorem refines_map_twoPages : ∃ db, Runs Step fresh twoPages db ∧ db.npag = 2 ∧
    Runs Abstract.Does (abstract fresh) twoPages (abstract db) ∧
    (∃ a db', Does db (.delete [2]) a db') ∧ ∃ db', Walk db [some [1], some [2], none] db' := by
  obtain ⟨db, hrun, hpages, hkeys, herr⟩ := runs_twoPages
  obtain ⟨habs, hdoes, hwalk, -⟩ := refines_map valid_fresh hrun
  have hall := (hwalk herr).1
  rw [hkeys] at hall
  exact ⟨db, hrun, hpages, habs, hdoes _ trivial, hall⟩

end Ndbm

/-! # Keys whose hashes collide

A page is split as long as the new pair does not fit on it, by one more bit of the
hash each time.  The offset of a page and that of its end are longs, so 21 bits are all
that tell pages apart, or 20: with one more, the page with the pairs that stay is
written, and the write of the one with those that move fails, and they are lost.
-/

namespace Ndbm

variable {db db0 : DBM} {key dat : datum} {replace : Bool} {evs : List (Op × Answer)}

/-- A store that meets its condition answers `-1` when the colliding pairs do not fit. -/
theorem store_reports (hmeets : Meets key dat replace db)
    (hno : ¬ Roomy (stored db) key dat)
    (hgo : ¬ (key ∈ keys (stored db) ∧ replace = false)) :
    ((abstract db).store key dat replace).1.1 = -1 := by
  have hlarge : key ∉ keys (stored db) ∧ TooLarge key dat := by
    rcases hmeets with hkeep | hlarge | hroom
    · exact absurd hkeep hgo
    · exact hlarge
    · exact absurd hroom hno
  have hmap : (abstract db).map key = none := by
    by_contra hne
    exact hlarge.1 (contents_ne_none_iff.mp hne)
  rw [Abstract.store, hmap]
  split
  · rfl
  · split
    · rfl
    · rw [if_neg (by simp), if_pos hlarge.2]

/-- The map after a store, by its answer. -/
theorem store_map (key dat : datum) (replace : Bool) (s : Abstract) :
    (s.store key dat replace).2.map =
      if (s.store key dat replace).1.1 = 0 then Function.update s.map key
        (some dat) else s.map := by
  rw [Abstract.store]
  split
  · rfl
  · split
    · rfl
    · split
      · rfl
      · split
        · rfl
        · rfl

/-- **Stores keep the pairs**, as long as the pairs that agree with each new one in all the bits
of the hash that count fit on a page with it: a store comes to an end, what it leaves is a
data base with the new pair, or none when it does not answer `0`, and all the others, and
each can be fetched. -/
theorem store_keeps_pairs (hv : Valid db0) (hrun : Runs Step db0 evs db)
    (hmeets : Meets key dat replace db) :
    ∃ r e db', (∀ fuel, 22 ≤ fuel → dbm_store fuel key dat replace db = some ((r, e), db')) ∧
      Valid db' ∧
      contents db' =
        (if r = 0 then Function.update (contents db) key (some dat) else contents db) ∧
      (∀ key', ∃ db'', dbm_fetch key' (dbm_clearerr db') = some (contents db' key', db'')) ∧
      (¬ Roomy (stored db) key dat → ¬ (key ∈ keys (stored db) ∧ replace = false) → r = -1) := by
  obtain ⟨-, hv1⟩ := run_spec hv hrun
  obtain ⟨db', hstore, habs, hv'⟩ := store_spec hv1 hmeets
  refine ⟨_, _, db', hstore, hv', ?_, fun key' => ?_, store_reports hmeets⟩
  · have hmap : contents db' = ((abstract db).store key dat replace).2.map := by
      rw [← habs]
      rfl
    rw [hmap, store_map]
    rfl
  · obtain ⟨db'', hfetch, -⟩ := fetch_spec hv'.clearerr key'
    exact ⟨db'', hfetch⟩

theorem store_keeps_pairs_twoPages : ∃ db r e db', Runs Step fresh twoPages db ∧
    (∀ fuel, 22 ≤ fuel → dbm_store fuel [2] [9] true db = some ((r, e), db')) ∧ Valid db' ∧
    ∃ db'', dbm_fetch [1] (dbm_clearerr db') = some (contents db' [1], db'') := by
  obtain ⟨db, hrun, -, hkeys, -⟩ := runs_twoPages
  have hroom : Roomy (stored db) [2] [9] := by
    have hno : (stored db).filter (collides [2]) = [] := by
      rw [List.filter_eq_nil_iff]
      intro q hq hcollides
      have hin : q.1 ∈ keys (stored db) := List.mem_map_of_mem hq
      rw [hkeys] at hin
      obtain ⟨hne, hmod⟩ := collides_iff.mp hcollides
      rcases List.mem_pair.mp hin with hone | htwo
      · rw [hone] at hmod
        exact absurd hmod (by decide +kernel)
      · exact hne htwo
    rw [Roomy, hno]
    decide
  obtain ⟨r, e, db', hstore, hv, -, hfetch, -⟩ :=
    store_keeps_pairs valid_fresh hrun (.inr (.inr hroom))
  exact ⟨db, r, e, db', hrun, hstore, hv, hfetch [1]⟩

/-- Two keys whose hashes agree in the low 21 bits: the store of the second fails, and the pair of
the first cannot be fetched any more when the flag has been cleared and another page has been
looked at. -/
theorem store_loses_pair :
    (dbm_store 40 [99, 120, 116] (List.replicate 600 0) true fresh).map Prod.fst =
      some (0, none) ∧
    ((dbm_store 40 [99, 120, 116] (List.replicate 600 0) true fresh).bind fun r =>
      dbm_store 40 [97, 113, 101] (List.replicate 600 0) true r.2).map Prod.fst =
      some (-1, some .EINVAL) ∧
    ((((dbm_store 40 [99, 120, 116] (List.replicate 600 0) true fresh).bind fun r =>
      dbm_store 40 [97, 113, 101] (List.replicate 600 0) true r.2).bind fun r =>
      dbm_fetch [1] (dbm_clearerr r.2)).bind fun r =>
      dbm_fetch [99, 120, 116] r.2).map Prod.fst = some none := by
  decide +kernel

end Ndbm
