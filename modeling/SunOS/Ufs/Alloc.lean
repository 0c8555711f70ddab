/-
# Allocation in a cylinder group (`ufs/ufs_alloc.c`)

`alloccg`, `alloccgblk`, `fragextend`, `free` for blocks and fragments, `ialloccg`
and `ifree` for inodes, and `hashalloc`, which sweeps the cylinder groups.  The
buffer of a cylinder group is `cgp`; `bdwrite` puts it back into the state.
-/
import SunOS.Ufs.Fs

namespace Ufs

open Function (update)

variable (fs : Ufs.fs)

/-- `bread` of the cylinder group block and the check of its magic number. -/
def breadcg (s : State) (cg : ℕ) : Option Ufs.cg :=
  if s.cgerr cg || (s.cgs cg).cg_magic != CG_MAGIC then none else some (s.cgs cg)

def bdwritecg (s : State) (cg : ℕ) (cgp : Ufs.cg) : State :=
  { s with cgs := update s.cgs cg cgp }

/-- `fs_cstotal.cs_nbfree += n; fs_cs(fs, cg).cs_nbfree += n`. -/
def addnbfree (s : State) (cg : ℕ) (n : ℤ) : State :=
  { s with
    fs_cstotal := { s.fs_cstotal with cs_nbfree := s.fs_cstotal.cs_nbfree + n }
    fs_cs := update s.fs_cs cg
      { s.fs_cs cg with cs_nbfree := (s.fs_cs cg).cs_nbfree + n } }

/-- `fs_cstotal.cs_nffree += n; fs_cs(fs, cg).cs_nffree += n`. -/
def addnffree (s : State) (cg : ℕ) (n : ℤ) : State :=
  { s with
    fs_cstotal := { s.fs_cstotal with cs_nffree := s.fs_cstotal.cs_nffree + n }
    fs_cs := update s.fs_cs cg
      { s.fs_cs cg with cs_nffree := (s.fs_cs cg).cs_nffree + n } }

/-- `fs_cstotal.cs_nifree += n; fs_cs(fs, cg).cs_nifree += n`. -/
def addnifree (s : State) (cg : ℕ) (n : ℤ) : State :=
  { s with
    fs_cstotal := { s.fs_cstotal with cs_nifree := s.fs_cstotal.cs_nifree + n }
    fs_cs := update s.fs_cs cg
      { s.fs_cs cg with cs_nifree := (s.fs_cs cg).cs_nifree + n } }

/-- `fs_cstotal.cs_ndir += n; fs_cs(fs, cg).cs_ndir += n`. -/
def addndir (s : State) (cg : ℕ) (n : ℤ) : State :=
  { s with
    fs_cstotal := { s.fs_cstotal with cs_ndir := s.fs_cstotal.cs_ndir + n }
    fs_cs := update s.fs_cs cg
      { s.fs_cs cg with cs_ndir := (s.fs_cs cg).cs_ndir + n } }

def cg.addnbfree (cgp : cg) (n : ℤ) : cg :=
  { cgp with cg_cs := { cgp.cg_cs with cs_nbfree := cgp.cg_cs.cs_nbfree + n } }

def cg.addnffree (cgp : cg) (n : ℤ) : cg :=
  { cgp with cg_cs := { cgp.cg_cs with cs_nffree := cgp.cg_cs.cs_nffree + n } }

def cg.addnifree (cgp : cg) (n : ℤ) : cg :=
  { cgp with cg_cs := { cgp.cg_cs with cs_nifree := cgp.cg_cs.cs_nifree + n } }

def cg.addndir (cgp : cg) (n : ℤ) : cg :=
  { cgp with cg_cs := { cgp.cg_cs with cs_ndir := cgp.cg_cs.cs_ndir + n } }

/-- `cg_frsum[siz] += n`. -/
def cg.addfrsum (cgp : cg) (siz : ℕ) (n : ℤ) : cg :=
  { cgp with cg_frsum := update cgp.cg_frsum siz (cgp.cg_frsum siz + n) }

/-- `cg_b[cylno][rpos] += n; cg_btot[cylno] += n`, for the block at fragment `bno`. -/
def cg.addbtot (cgp : cg) (bno : ℕ) (n : ℤ) : cg :=
  let cylno := cbtocylno fs bno
  { cgp with
    cg_b := update cgp.cg_b cylno
      (update (cgp.cg_b cylno) (cbtorpos fs bno)
        (cgp.cg_b cylno (cbtorpos fs bno) + n))
    cg_btot := update cgp.cg_btot cylno (cgp.cg_btot cylno + n) }

/-! ## Searching the map -/

/-- `scanc`: skip the bytes whose table entry has none of the bits of `mask`; the
result is the number of bytes left, the found one included. -/
def scanc (cp : ℕ → BitVec 8) (table : List ℕ) (mask : ℕ) : ℕ → ℕ → ℕ
  | 0, _ => 0
  | size + 1, start =>
    if table.getD (cp start).toNat 0 &&& mask = 0 then scanc cp table mask size (start + 1)
    else size + 1

/-- `skpc(0xff, …)`: skip the bytes that are all ones. -/
def skpc (cp : ℕ → BitVec 8) : ℕ → ℕ → ℕ
  | 0, _ => 0
  | size + 1, start => if cp start = 0xff then skpc cp size (start + 1) else size + 1

/-- The loop over the positions of a block: `n` of them are left. -/
def mapsearchPos (blk : ℕ) : ℕ → ℕ → ℕ → ℕ → Option ℕ
  | 0, _, _, _ => none
  | n + 1, pos, field, subfield =>
    if blk &&& field = subfield then some pos
    else mapsearchPos blk n (pos + 1) (field <<< 1) (subfield <<< 1)

/-- The loop over the blocks of a byte: `n` of them are left. -/
def mapsearchBlk (map : ℕ → BitVec 8) (allocsiz : ℕ) : ℕ → ℕ → Option ℕ
  | 0, _ => none
  | n + 1, bno =>
    match mapsearchPos (blkmap fs map bno <<< 1) (fs.fs_frag - allocsiz + 1) 0
        (around allocsiz) (inside allocsiz) with
    | some pos => some (bno + pos)
    | none => mapsearchBlk map allocsiz n (bno + fs.fs_frag)

/-- Find a block of the specified size in the specified cylinder group.  It is a
panic if a request is made to find a block if none are available. -/
def mapsearch (cgp : cg) (bpref allocsiz : ℕ) : Option (ℕ × cg) :=
  let start := if bpref ≠ 0 then dtogd fs bpref / NBBY else cgp.cg_frotor / NBBY
  let len := howmany fs.fs_fpg NBBY - start
  let mask := 1 <<< (allocsiz - 1 + fs.fs_frag % NBBY)
  let loc := scanc cgp.cg_free (fragtbl fs.fs_frag) mask len start
  let found : Option ℕ :=
    if loc ≠ 0 then some ((start + len - loc) * NBBY)
    else
      let len := start + 1
      let loc := scanc cgp.cg_free (fragtbl fs.fs_frag) mask len 0
      -- `panic("alloccg: map corrupted")`
      if loc ≠ 0 then some ((len - loc) * NBBY) else none
  match found with
  | none => none
  | some bno =>
    match mapsearchBlk fs cgp.cg_free allocsiz (NBBY / fs.fs_frag) bno with
    -- `panic("alloccg: block not in map")`
    | none => none
    | some b => some (b, { cgp with cg_frotor := bno })

/-! ## Blocks -/

/-- The search along `fs_rotbl` for a free block of the chosen rotational position;
a panic if there is none.  The fuel bounds `i`, which grows up to `MAXBPC`. -/
def rotsearch (map : ℕ → BitVec 8) (bno : ℕ) : ℕ → ℕ → Option ℕ
  | 0, _ => none
  | n + 1, i =>
    if isblock fs map (bno + i) then some (blkstofrags fs (bno + i))
    else
      let delta := fs.fs_rotbl i
      if delta ≤ 0 ∨ delta > MAXBPC - i then none
      else rotsearch map bno n (i + delta)

/-- The first rotational position with a free block, starting at `pos` and
proceeding around. -/
def rposWith (cylbp : ℕ → ℤ) (pos : ℕ) : Option ℕ :=
  match (List.range' pos (NRPOS - pos)).find? (fun i => 0 < cylbp i) with
  | some i => some i
  | none => (List.range pos).find? (fun i => 0 < cylbp i)

/-- The label `norot`: take the next available block of the group. -/
def norot (cgp : cg) (bpref : ℕ) : Option (ℕ × cg) :=
  match mapsearch fs cgp bpref fs.fs_frag with
  | none => none
  | some (bno, cgp) => some (bno, { cgp with cg_rotor := bno })

/-- Choosing the block: everything of `alloccgblk` up to the label `gotit`. -/
def pickblk (cgp : cg) (bpref : ℕ) : Option (ℕ × cg) :=
  if bpref = 0 then norot fs cgp cgp.cg_rotor
  else
    let bpref := dtogd fs (blknum fs bpref)
    -- if the requested block is available, use it
    if isblock fs cgp.cg_free (fragstoblks fs bpref) then some (bpref, cgp)
    else
      let cylno := cbtocylno fs bpref
      if cgp.cg_btot cylno = 0 then norot fs cgp bpref
      else if fs.fs_cpc = 0 then norot fs cgp (howmany (fs.fs_spc * cylno) (NSPF fs))
      else
        match rposWith (cgp.cg_b cylno) (cbtorpos fs bpref) with
        | none => norot fs cgp bpref
        | some i =>
          let pos := cylno % fs.fs_cpc
          let bno := (cylno - pos) * fs.fs_spc / NSPB fs
          -- `panic("alloccgblk: cyl groups corrupted")`
          if fs.fs_postbl pos i = -1 then none
          else
            -- a panic if no block is actually there
            match rotsearch fs cgp.cg_free bno (MAXBPC + 1) (fs.fs_postbl pos i).toNat with
            | none => none
            | some bno => some (bno, cgp)

/-- Allocate a block in a cylinder group. -/
def alloccgblk (s : State) (cgp : cg) (bpref : ℕ) : Option (ℕ × cg × State) :=
  match pickblk fs cgp bpref with
  | none => none
  | some (bno, cgp) =>
    let cgp := { cgp with cg_free := clrblock fs cgp.cg_free (fragstoblks fs bno) }
    let cgp := (cgp.addnbfree (-1)).addbtot fs bno (-1)
    some (cgp.cg_cgx * fs.fs_fpg + bno, cgp, addnbfree s cgp.cg_cgx (-1))

/-- The smallest size from `frags` on with a free fragment of that size. -/
def allocsizFrom (frsum : ℕ → ℤ) (frag frags : ℕ) : ℕ :=
  ((List.range' frags (frag - frags)).find? (fun k => frsum k ≠ 0)).getD (max frags frag)

/-- Determine whether a block can be allocated: check to see if a block of the
appropriate size is available, and if it is, allocate it. -/
def alloccg (cg bpref size : ℕ) (s : State) : Option (ℕ × State) :=
  if (s.fs_cs cg).cs_nbfree = 0 ∧ size = fs.fs_bsize then some (0, s)
  else
    match breadcg s cg with
    | none => some (0, s)
    | some cgp =>
      if cgp.cg_cs.cs_nbfree = 0 ∧ size = fs.fs_bsize then some (0, s)
      else if size = fs.fs_bsize then
        match alloccgblk fs s cgp bpref with
        | none => none
        | some (bno, cgp, s) => some (bno, bdwritecg s cg cgp)
      else
        let frags := numfrags fs size
        let allocsiz := allocsizFrom cgp.cg_frsum fs.fs_frag frags
        if allocsiz = fs.fs_frag then
          -- no fragments were available, so a block will be allocated, and hacked up
          if cgp.cg_cs.cs_nbfree = 0 then some (0, s)
          else
            match alloccgblk fs s cgp bpref with
            | none => none
            | some (bno, cgp, s) =>
              let i := fs.fs_frag - frags
              let cgp := { cgp with cg_free := setbits cgp.cg_free (dtogd fs bno + frags) i }
              let cgp := (cgp.addnffree i).addfrsum i 1
              some (bno, bdwritecg (addnffree s cg i) cg cgp)
        else
          match mapsearch fs cgp bpref allocsiz with
          | none => none
          | some (bno, cgp) =>
            let cgp := { cgp with cg_free := clrbits cgp.cg_free bno frags }
            let cgp := (cgp.addnffree (-frags)).addfrsum allocsiz (-1)
            let cgp := if frags ≠ allocsiz then cgp.addfrsum (allocsiz - frags) 1 else cgp
            some (cg * fs.fs_fpg + bno, bdwritecg (addnffree s cg (-frags)) cg cgp)

/-- How many of the `n` bits from `i` on are set before the first clear one. -/
def freeLength (a : ℕ → BitVec 8) : ℕ → ℕ → ℕ
  | 0, _ => 0
  | n + 1, i => if isset a i then freeLength a n (i + 1) + 1 else 0

/-- Determine whether a fragment can be extended: check to see if the necessary
fragments are available, and if they are, allocate them. -/
def fragextend (cg bprev osize nsize : ℕ) (s : State) : Option (ℕ × State) :=
  if (s.fs_cs cg).cs_nffree < numfrags fs (nsize - osize) then some (0, s)
  else
    let frags := numfrags fs nsize
    let ofrags := numfrags fs osize
    let bbase := fragnum fs bprev
    -- cannot extend across a block boundary
    if bbase > fragnum fs (bprev + frags - 1) then some (0, s)
    else
      match breadcg s cg with
      | none => some (0, s)
      | some cgp =>
        let bno := dtogd fs bprev
        if (List.range' ofrags (frags - ofrags)).any (fun i => !isset cgp.cg_free (bno + i)) then
          some (0, s)
        else
          -- deduct the count on the fragment being extended into, increase the count
          -- on the remaining fragment (if any), allocate the extended piece
          let i := frags + freeLength cgp.cg_free (fs.fs_frag - bbase - frags) (bno + frags)
          let cgp := cgp.addfrsum (i - ofrags) (-1)
          let cgp := if i ≠ frags then cgp.addfrsum (i - frags) 1 else cgp
          let n : ℕ := frags - ofrags
          let cgp := { cgp with cg_free := clrbits cgp.cg_free (bno + ofrags) n }
          some (bprev, bdwritecg (addnffree s cg (-n)) cg (cgp.addnffree (-n)))

/-- The loop that puts the fragments of a piece back; a panic on one that is free. -/
def freefrags (a : ℕ → BitVec 8) (bno : ℕ) : ℕ → Option (ℕ → BitVec 8)
  | 0 => some a
  | n + 1 =>
    match freefrags a bno n with
    | none => none
    | some a => if isset a (bno + n) then none else some (setbit a (bno + n))

/-- Free a block or fragment.  If a fragment is deallocated, a possible block
reassembly is checked. -/
def free (bno size : ℕ) (s : State) : Option State :=
  if size > fs.fs_bsize ∨ fragoff fs size ≠ 0 then none
  else
    let cg := dtog fs bno
    -- `badblock`
    if bno ≥ fs.fs_size then some s
    else
      match breadcg s cg with
      | none => some s
      | some cgp =>
        let bno := dtogd fs bno
        if size = fs.fs_bsize then
          if isblock fs cgp.cg_free (fragstoblks fs bno) then none
          else
            let cgp := { cgp with cg_free := setblock fs cgp.cg_free (fragstoblks fs bno) }
            some (bdwritecg (addnbfree s cg 1) cg ((cgp.addnbfree 1).addbtot fs bno 1))
        else
          let bbase := bno - fragnum fs bno
          -- decrement the counts associated with the old frags
          let frsum := fragacct fs (blkmap fs cgp.cg_free bbase) cgp.cg_frsum (-1)
          let frags := numfrags fs size
          match freefrags cgp.cg_free bno frags with
          | none => none
          | some map =>
            -- add back in counts associated with the new frags
            let frsum := fragacct fs (blkmap fs map bbase) frsum 1
            let cgp := ({ cgp with cg_free := map, cg_frsum := frsum }).addnffree frags
            let s := addnffree s cg frags
            -- if a complete block has been reassembled, account for it
            if isblock fs map (fragstoblks fs bbase) then
              let cgp := ((cgp.addnffree (-fs.fs_frag)).addnbfree 1).addbtot fs bbase 1
              some (bdwritecg (addnbfree (addnffree s cg (-fs.fs_frag)) cg 1) cg cgp)
            else some (bdwritecg s cg cgp)

end Ufs
