/-
# The hashed data base library

`src/lib/libc/gen/ndbm.c`: pairs of a key and a value lie on the pages of one file;
the bits of another, the directory, say which pages have been split.  The low bits of
the hash of a key, as many as the directory asks for, are the number of its page.

A page is 1024 bytes: a count of items and their offsets in shorts from the front, and
the items, key and value by turns, from the back.  A block of the directory is its bits,
bit `n` of byte `i` being `BYTESIZ * i + n`.  A read or write of the pages fails when its
offset, which is a long, is negative or passes the largest; those of the directory do not
fail.  `none` is a walk down the directory that leaves the range of a long, or a loop that
has run out of rounds.
-/
import SunOS.Lib.Bytes
import Mathlib.Data.List.Basic
import Mathlib.Data.Nat.Bitwise

namespace Ndbm

open Bytes (load store)

/-! ## Items -/

/-- `PBLKSIZ` -/
def PBLKSIZ : ℕ := 1024

/-- `DBLKSIZ` -/
def DBLKSIZ : ℕ := 4096

/-- `BYTESIZ` -/
def BYTESIZ : ℕ := 8

/-- `datum`: the bytes of an item. -/
abbrev datum := List UInt8

/-- The bytes of a page. -/
abbrev Page := ℕ → UInt8

/-- The table `hitab`. -/
def hitab : Array ℕ := #[61, 57, 53, 49, 45, 41, 37, 33, 29, 25, 21, 17, 13, 9, 5, 1]

/-- The table `hltab`. -/
def hltab : Array ℕ := #[
  0o6100151277, 0o6106161736, 0o6452611562, 0o5001724107,
  0o2614772546, 0o4120731531, 0o4665262210, 0o7347467531,
  0o6735253126, 0o6042345173, 0o3072226605, 0o1464164730,
  0o3247435524, 0o7652510057, 0o1546775256, 0o5714532133,
  0o6173260402, 0o7517101630, 0o2431460343, 0o1743245566,
  0o0261675137, 0o2433103631, 0o3421772437, 0o4447707466,
  0o4435620103, 0o3757017115, 0o3641531772, 0o6767633246,
  0o2673230344, 0o0260612216, 0o4133454451, 0o0615531516,
  0o6137717526, 0o2574116560, 0o2304023373, 0o7061702261,
  0o5153031405, 0o5322056705, 0o7401116734, 0o6552375715,
  0o6165233473, 0o5311063631, 0o1212221723, 0o1052267235,
  0o6000615237, 0o1075222665, 0o6330216006, 0o4402355630,
  0o1451177262, 0o2000133436, 0o6025467062, 0o7121076461,
  0o3123433522, 0o1010635225, 0o1716177066, 0o5161746527,
  0o1736635071, 0o6243505026, 0o3637211610, 0o1756474365,
  0o4723077174, 0o3642763134, 0o5750130273, 0o3655541561]

/-- The loop of `dcalchash` over half bytes: `hashi` and `hashl`. -/
def dcalchashLoop : List ℕ → ℕ → ℕ → ℕ
  | [], _, hashl => hashl
  | c :: cs, hashi, hashl =>
    let hashi := hashi + hitab.getD c 0
    dcalchashLoop cs hashi ((hashl + hltab.getD (hashi % 64) 0) % 2 ^ 32)

/-- `dcalchash`, as an unsigned number. -/
def dcalchash (item : datum) : ℕ :=
  dcalchashLoop (item.flatMap fun c => [c.toNat % 16, c.toNat / 16]) 0 0

/-! ## Pages -/

/-- A page that `bzero` has cleared. -/
def zeroed : Page := fun _ => 0

/-- `sp[i]`: the short is two bytes, the high one first. -/
def sp (buf : Page) (i : ℕ) : ℕ := (buf (2 * i)).toNat * 256 + (buf (2 * i + 1)).toNat

/-- `sp[i] = v` -/
def setsp (i v : ℕ) (buf : Page) : Page :=
  store buf (2 * i) [UInt8.ofNat (v / 256), UInt8.ofNat v]

/-- `makdatum` -/
def makdatum (buf : Page) (n : ℕ) : Option datum :=
  if n ≥ sp buf 0 then none else
    let t := if n > 0 then sp buf n else PBLKSIZ
    some (load buf (sp buf (n + 1)) (t - sp buf (n + 1)))

/-- The loop of `finddatum`, with so many rounds: at item `i`, whose end is at `n`. -/
def finddatumLoop (buf : Page) (item : datum) : ℕ → ℕ → ℕ → Option ℕ
  | 0, _, _ => none
  | fuel + 1, i, n =>
    if i < sp buf 0 then
      let n := n - sp buf (i + 1)
      if n = item.length ∧ load buf (sp buf (i + 1)) n = item then some i
      else finddatumLoop buf item fuel (i + 2) (sp buf (i + 2))
    else none

/-- `finddatum` -/
def finddatum (buf : Page) (item : datum) : Option ℕ :=
  finddatumLoop buf item (sp buf 0) 0 PBLKSIZ

/-- The loop of `delitem`: from `sp[j]` on, so many offsets are those two further, raised by
`i1`. -/
def delitemLoop (i1 : ℕ) : ℕ → ℕ → Page → Page
  | 0, _, buf => buf
  | fuel + 1, j, buf => delitemLoop i1 fuel (j + 1) (setsp j (sp buf (j + 2) + i1) buf)

/-- `delitem` -/
def delitem (buf : Page) (n : ℕ) : Option Page :=
  let i2 := sp buf 0
  if n ≥ i2 ∨ n % 2 = 1 then none
  else if n = i2 - 2 then some (setsp 0 (i2 - 2) buf)
  else
    let i1 := (if n > 0 then sp buf n else PBLKSIZ) - sp buf (n + 2)
    let moved := if i1 > 0 then
      store buf (sp buf i2 + i1) (load buf (sp buf i2) (sp buf (n + 2) - sp buf i2)) else buf
    some (delitemLoop i1 (i2 - 2 - n) (n + 1) (setsp 0 (i2 - 2) moved))

/-- `additem` -/
def additem (buf : Page) (item item1 : datum) : Option Page :=
  let i2 := sp buf 0
  let i1 : ℤ := (if i2 > 0 then sp buf i2 else PBLKSIZ : ℕ) - (item.length + item1.length)
  if i1 ≤ (i2 + 3) * 2 then none else
    let i1 := i1.toNat
    let buf := setsp (i2 + 1) (i1 + item1.length) (setsp 0 (i2 + 2) buf)
    let buf := setsp (i2 + 2) i1 (store buf (i1 + item1.length) item)
    some (store buf i1 item1)

/-! ## The data base -/

/-- `DBM`, and the files it has open: the blocks of the directory; the pages, and how many
there are. -/
@[ext]
structure DBM where
  dirf : ℕ → ℕ → Bool
  pagf : ℕ → Page
  npag : ℕ
  dbm_rdonly : Bool
  dbm_error : Bool
  dbm_maxbno : ℤ
  dbm_bitno : ℕ
  dbm_hmask : ℕ
  dbm_blkptr : ℕ
  dbm_keyptr : ℕ
  dbm_blkno : ℕ
  dbm_pagbno : ℤ
  dbm_pagbuf : Page
  dbm_dirbno : ℤ
  dbm_dirbuf : ℕ → Bool

/-- The values `errno` is set to. -/
inductive errno
  | EPERM
  | ENOSPC
  | EINVAL
  deriving DecidableEq

/-- `dbm_open`, of a directory of `st_size` bytes. -/
def dbm_open (dirf : ℕ → ℕ → Bool) (st_size : ℕ) (pagf : ℕ → Page) (npag : ℕ) (rdonly : Bool) :
    DBM where
  dirf := dirf
  pagf := pagf
  npag := npag
  dbm_rdonly := rdonly
  dbm_error := false
  dbm_maxbno := st_size * BYTESIZ - 1
  dbm_bitno := 0
  dbm_hmask := 0
  dbm_blkptr := 0
  dbm_keyptr := 0
  dbm_blkno := 0
  dbm_pagbno := -1
  dbm_pagbuf := zeroed
  dbm_dirbno := -1
  dbm_dirbuf := fun _ => false

/-- `dbm_clearerr` -/
def dbm_clearerr (db : DBM) : DBM := { db with dbm_error := false }

/-- The page that is read or written after a seek to page `blkno`.  The offset in bytes is a
long, and `lseek` takes any; the file system refuses one that is negative, and one past
which there is no room for a page. -/
def seek (blkno : ℕ) : Option ℕ :=
  let pos := BitVec.ofNat 32 (blkno * PBLKSIZ)
  if pos.msb || (pos + BitVec.ofNat 32 PBLKSIZ).msb then none else some (pos.toNat / PBLKSIZ)

/-- Read page `blkno` into `dbm_pagbuf`, which is cleared when there is no such page. -/
def readPage (blkno : ℕ) (db : DBM) : DBM :=
  { db with dbm_pagbuf := (seek blkno).elim zeroed fun p =>
    if p < db.npag then db.pagf p else zeroed }

/-- Write `buf` to page `blkno`. -/
def writePage (blkno : ℕ) (buf : Page) (db : DBM) : Option DBM :=
  (seek blkno).map fun p => { db with
    pagf := fun q => if q = p then buf else db.pagf q
    npag := max db.npag (p + 1) }

/-- Get block `b` of the directory into `dbm_dirbuf`. -/
def loadDir (b : ℕ) (db : DBM) : DBM :=
  if (b : ℤ) ≠ db.dbm_dirbno then { db with dbm_dirbno := b, dbm_dirbuf := db.dirf b } else db

/-- `getbit` -/
def getbit (db : DBM) : Bool × DBM :=
  if (db.dbm_bitno : ℤ) > db.dbm_maxbno then (false, db) else
    let n := db.dbm_bitno % BYTESIZ
    let bn := db.dbm_bitno / BYTESIZ
    let i := bn % DBLKSIZ
    let b := bn / DBLKSIZ
    let db := loadDir b db
    (db.dbm_dirbuf (BYTESIZ * i + n), db)

/-- `setbit` -/
def setbit (db : DBM) : DBM :=
  let db := if (db.dbm_bitno : ℤ) > db.dbm_maxbno then { db with dbm_maxbno := db.dbm_bitno }
    else db
  let n := db.dbm_bitno % BYTESIZ
  let bn := db.dbm_bitno / BYTESIZ
  let i := bn % DBLKSIZ
  let b := bn / DBLKSIZ
  let db := loadDir b db
  let dirbuf := fun j => if j = BYTESIZ * i + n then true else db.dbm_dirbuf j
  { db with
    dbm_dirbuf := dirbuf
    dbm_dirbno := b
    dirf := fun c => if c = b then dirbuf else db.dirf c }

/-- The loop of `dbm_access`. -/
def dbm_accessLoop (hash : ℕ) : ℕ → DBM → Option DBM
  | 0, _ => none
  | fuel + 1, db =>
    let blkno := hash &&& db.dbm_hmask
    let db := { db with dbm_blkno := blkno, dbm_bitno := blkno + db.dbm_hmask }
    if db.dbm_bitno ≥ 2 ^ 31 then none else
      match getbit db with
      | (false, db) => some db
      | (true, db) => dbm_accessLoop hash fuel { db with dbm_hmask := 2 * db.dbm_hmask + 1 }

/-- `dbm_access` -/
def dbm_access (hash : ℕ) (db : DBM) : Option DBM :=
  (dbm_accessLoop hash 33 { db with dbm_hmask := 0 }).map fun db =>
    if (db.dbm_blkno : ℤ) ≠ db.dbm_pagbno then
      readPage db.dbm_blkno { db with dbm_pagbno := db.dbm_blkno }
    else db

/-- `dbm_fetch` -/
def dbm_fetch (key : datum) (db : DBM) : Option (Option datum × DBM) :=
  if db.dbm_error = true then some (none, db) else
    (dbm_access (dcalchash key) db).map fun db =>
      match finddatum db.dbm_pagbuf key with
      | some i => (makdatum db.dbm_pagbuf (i + 1), db)
      | none => (none, db)

/-- `dbm_delete` -/
def dbm_delete (key : datum) (db : DBM) : Option ((ℤ × Option errno) × DBM) :=
  if db.dbm_error = true then some ((-1, none), db)
  else if db.dbm_rdonly = true then some ((-1, some .EPERM), db)
  else
    (dbm_access (dcalchash key) db).map fun db =>
      match finddatum db.dbm_pagbuf key with
      | none => ((-1, none), db)
      | some i =>
        match delitem db.dbm_pagbuf i with
        | none => ((-1, none), { db with dbm_error := true })
        | some buf =>
          let db := { db with dbm_pagbuf := buf, dbm_pagbno := db.dbm_blkno }
          match writePage db.dbm_blkno buf db with
          | some db => ((0, none), db)
          | none => ((-1, some .EINVAL), { db with dbm_error := true })

/-- The loop of the split: from item `i` on, the pairs whose hash has the next bit set move to
`ovfbuf`.  What is returned is whether the pages are to be written, the flag for an error,
and the two pages. -/
def splitLoop (hmask : ℕ) : ℕ → ℕ → Page → Page → Option (Bool × Bool × Page × Page)
  | 0, _, _, _ => none
  | fuel + 1, i, pagbuf, ovfbuf =>
    match makdatum pagbuf i with
    | none => some (true, false, pagbuf, ovfbuf)
    | some item =>
      if dcalchash item &&& (hmask + 1) ≠ 0 then
        match makdatum pagbuf (i + 1) with
        | none => some (true, true, pagbuf, ovfbuf)
        | some item1 =>
          match additem ovfbuf item item1 with
          | none => some (false, true, pagbuf, ovfbuf)
          | some ovfbuf =>
            match delitem pagbuf i with
            | none => some (false, true, pagbuf, ovfbuf)
            | some pagbuf => splitLoop hmask fuel i pagbuf ovfbuf
      else splitLoop hmask fuel (i + 2) pagbuf ovfbuf

/-- One round of `dbm_store`, from `loop:` on: what it answers, or the data base with which it
goes round again. -/
def dbm_storeRound (key dat : datum) (replace : Bool) (db : DBM) :
    Option (((ℤ × Option errno) × DBM) ⊕ DBM) :=
  match dbm_access (dcalchash key) db with
  | none => none
  | some db =>
    let found := finddatum db.dbm_pagbuf key
    if found ≠ none ∧ replace = false then some (.inl ((1, none), db)) else
      match found.elim (some db.dbm_pagbuf) (delitem db.dbm_pagbuf) with
      | none => some (.inl ((-1, none), { db with dbm_error := true }))
      | some buf =>
        let db := { db with dbm_pagbuf := buf }
        match additem db.dbm_pagbuf key dat with
        | some buf =>
          let db := { db with dbm_pagbuf := buf, dbm_pagbno := db.dbm_blkno }
          match writePage db.dbm_blkno buf db with
          | some db => some (.inl ((0, none), db))
          | none => some (.inl ((-1, some .EINVAL), { db with dbm_error := true }))
        | none =>
          -- split:
          if key.length + dat.length + 3 * 2 ≥ PBLKSIZ then
            some (.inl ((-1, some .ENOSPC), { db with dbm_error := true }))
          else
            match splitLoop db.dbm_hmask (sp db.dbm_pagbuf 0 + 1) 0 db.dbm_pagbuf zeroed with
            | none => none
            | some (false, _, pagbuf, _) =>
              some (.inl ((-1, none), { db with dbm_pagbuf := pagbuf, dbm_error := true }))
            | some (true, error, pagbuf, ovfbuf) =>
              let db := { db with
                dbm_pagbuf := pagbuf
                dbm_error := db.dbm_error || error
                dbm_pagbno := db.dbm_blkno }
              match writePage db.dbm_blkno pagbuf db with
              | none => some (.inl ((-1, some .EINVAL), { db with dbm_error := true }))
              | some db =>
                match writePage (db.dbm_blkno + db.dbm_hmask + 1) ovfbuf db with
                | none => some (.inl ((-1, some .EINVAL), { db with dbm_error := true }))
                | some db => some (.inr (setbit db))

/-- The loop of `dbm_store`, with so many rounds. -/
def dbm_storeLoop (key dat : datum) (replace : Bool) :
    ℕ → DBM → Option ((ℤ × Option errno) × DBM)
  | 0, _ => none
  | fuel + 1, db =>
    match dbm_storeRound key dat replace db with
    | none => none
    | some (.inl r) => some r
    | some (.inr db) => dbm_storeLoop key dat replace fuel db

/-- `dbm_store` -/
def dbm_store (fuel : ℕ) (key dat : datum) (replace : Bool) (db : DBM) :
    Option ((ℤ × Option errno) × DBM) :=
  if db.dbm_error = true then some ((-1, none), db)
  else if db.dbm_rdonly = true then some ((-1, some .EPERM), db)
  else dbm_storeLoop key dat replace fuel db

/-- The loop of `dbm_nextkey`, over the pages of the file. -/
def dbm_nextkeyLoop (st_size : ℕ) : ℕ → DBM → Option (Option datum × DBM)
  | 0, _ => none
  | fuel + 1, db =>
    let db := if (db.dbm_blkptr : ℤ) ≠ db.dbm_pagbno then
      readPage db.dbm_blkptr { db with dbm_pagbno := db.dbm_blkptr } else db
    let found := if sp db.dbm_pagbuf 0 ≠ 0 then makdatum db.dbm_pagbuf db.dbm_keyptr else none
    match found with
    | some item => some (some item, { db with dbm_keyptr := db.dbm_keyptr + 2 })
    | none =>
      let db := if sp db.dbm_pagbuf 0 ≠ 0 then { db with dbm_keyptr := 0 } else db
      let db := { db with dbm_blkptr := db.dbm_blkptr + 1 }
      if db.dbm_blkptr ≥ st_size then some (none, db) else dbm_nextkeyLoop st_size fuel db

/-- `dbm_nextkey` -/
def dbm_nextkey (db : DBM) : Option (Option datum × DBM) :=
  if db.dbm_error = true then some (none, db) else dbm_nextkeyLoop db.npag (db.npag + 1) db

/-- `dbm_firstkey` -/
def dbm_firstkey (db : DBM) : Option (Option datum × DBM) :=
  dbm_nextkey { db with dbm_blkptr := 0, dbm_keyptr := 0 }

end Ndbm
