/-
# Cylinder groups and their bit maps (`ufs/fs.h`, `ufs/ufs_subr.c`, `ufs/ufs_tables.c`)

The file system is divided into cylinder groups; each keeps a bit map of its free
fragments (`cg_free`, a set bit is a free fragment) and counts over that map.
The constant part of the super block is `fs`, the part the allocator changes is
`State`.  `panic` is `none`.  Disk addresses, sizes and inode numbers are natural
numbers, counters are integers.
-/
import Mathlib.Data.BitVec
import Mathlib.Data.Nat.Bitwise
import Mathlib.Logic.Function.Basic

namespace Ufs

/-- Number of bits in a byte. -/
def NBBY : ℕ := 8

/-- Number of distinct rotational positions. -/
def NRPOS : ℕ := 8

/-- Number of bytes of the super block behind `struct fs`: room for `fs_rotbl`. -/
def MAXBPC : ℕ := 8192 - 1378

def CG_MAGIC : ℕ := 0x090255

/-- Per cylinder group information. -/
structure csum where
  cs_ndir : ℤ
  cs_nbfree : ℤ
  cs_nifree : ℤ
  cs_nffree : ℤ
deriving DecidableEq

/-- The super block, without the summary information.  A block has one, two, four
or eight fragments, a power of two of at most `MAXBSIZE` bytes and `fs_nindir` block
addresses; a fragment is a whole number of device blocks, and a group a whole number
of blocks and of bytes of its inode map. -/
structure fs where
  fs_size : ℕ
  fs_dsize : ℕ
  fs_ncg : ℕ
  fs_bsize : ℕ
  fs_fsize : ℕ
  fs_frag : ℕ
  fs_minfree : ℕ
  fs_nindir : ℕ
  fs_nspf : ℕ
  fs_nsect : ℕ
  fs_spc : ℕ
  fs_ipg : ℕ
  fs_fpg : ℕ
  fs_cpc : ℕ
  fs_rotdelay : ℕ
  fs_rps : ℕ
  fs_maxcontig : ℕ
  fs_maxbpg : ℕ
  fs_postbl : ℕ → ℕ → ℤ
  fs_rotbl : ℕ → ℕ
  frag_mem : fs_frag = 1 ∨ fs_frag = 2 ∨ fs_frag = 4 ∨ fs_frag = 8
  bsize_eq : fs_bsize = fs_frag * fs_fsize
  fsize_pos : 0 < fs_fsize
  frag_dvd_fpg : fs_frag ∣ fs_fpg
  fpg_pos : 0 < fs_fpg
  size_le : fs_size ≤ fs_ncg * fs_fpg
  bsize_le : fs_bsize ≤ 8192
  bsize_pow : ∃ e, fs_bsize = 2 ^ e
  nindir_eq : 4 * fs_nindir = fs_bsize
  dev_dvd : 512 ∣ fs_fsize
  ipg_dvd : 8 ∣ fs_ipg
  ipg_pos : 0 < fs_ipg

/-- Cylinder group block. -/
structure cg where
  cg_cgx : ℕ
  cg_cs : csum
  cg_rotor : ℕ
  cg_frotor : ℕ
  cg_irotor : ℕ
  cg_frsum : ℕ → ℤ
  cg_btot : ℕ → ℤ
  cg_b : ℕ → ℕ → ℤ
  cg_iused : ℕ → BitVec 8
  cg_magic : ℕ
  cg_free : ℕ → BitVec 8

/-- What the allocator reads and writes: the summary information of the super
block, the cylinder group blocks, and which of these cannot be read
(`B_ERROR`). -/
structure State where
  fs_cstotal : csum
  fs_cs : ℕ → csum
  cgs : ℕ → cg
  cgerr : ℕ → Bool

/-! ## The macros of `fs.h` -/

def dtog (fs : Ufs.fs) (d : ℕ) : ℕ := d / fs.fs_fpg
def dtogd (fs : Ufs.fs) (d : ℕ) : ℕ := d % fs.fs_fpg
def itog (fs : Ufs.fs) (x : ℕ) : ℕ := x / fs.fs_ipg
def blkoff (fs : Ufs.fs) (loc : ℕ) : ℕ := loc % fs.fs_bsize
def fragoff (fs : Ufs.fs) (loc : ℕ) : ℕ := loc % fs.fs_fsize
def lblkno (fs : Ufs.fs) (loc : ℕ) : ℕ := loc / fs.fs_bsize
def numfrags (fs : Ufs.fs) (loc : ℕ) : ℕ := loc / fs.fs_fsize
def fragroundup (fs : Ufs.fs) (size : ℕ) : ℕ := (size + fs.fs_fsize - 1) / fs.fs_fsize * fs.fs_fsize
def fragstoblks (fs : Ufs.fs) (frags : ℕ) : ℕ := frags / fs.fs_frag
def blkstofrags (fs : Ufs.fs) (blks : ℕ) : ℕ := blks * fs.fs_frag
def fragnum (fs : Ufs.fs) (fsb : ℕ) : ℕ := fsb % fs.fs_frag
def blknum (fs : Ufs.fs) (fsb : ℕ) : ℕ := fsb - fsb % fs.fs_frag
def NSPF (fs : Ufs.fs) : ℕ := fs.fs_nspf
def NSPB (fs : Ufs.fs) : ℕ := fs.fs_nspf * fs.fs_frag
def NINDIR (fs : Ufs.fs) : ℕ := fs.fs_nindir
def howmany (x y : ℕ) : ℕ := (x + (y - 1)) / y
def cbtocylno (fs : Ufs.fs) (bno : ℕ) : ℕ := bno * NSPF fs / fs.fs_spc

def cbtorpos (fs : Ufs.fs) (bno : ℕ) : ℕ :=
  bno * NSPF fs % fs.fs_spc % fs.fs_nsect * NRPOS / fs.fs_nsect

/-- Fragments available above the given percentage held in reserve. -/
def freespace (fs : Ufs.fs) (cstotal : csum) (percentreserved : ℕ) : ℤ :=
  cstotal.cs_nbfree * fs.fs_frag + cstotal.cs_nffree - (fs.fs_dsize * percentreserved / 100 : ℕ)

/-! ## Bit maps -/

def isset (a : ℕ → BitVec 8) (i : ℕ) : Bool := (a (i / NBBY)).getLsbD (i % NBBY)

def setbit (a : ℕ → BitVec 8) (i : ℕ) : ℕ → BitVec 8 :=
  Function.update a (i / NBBY) (a (i / NBBY) ||| (1#8 <<< (i % NBBY)))

def clrbit (a : ℕ → BitVec 8) (i : ℕ) : ℕ → BitVec 8 :=
  Function.update a (i / NBBY) (a (i / NBBY) &&& ~~~(1#8 <<< (i % NBBY)))

/-- Extract the bits for a block from a map. -/
def blkmap (fs : Ufs.fs) (map : ℕ → BitVec 8) (loc : ℕ) : ℕ :=
  ((map (loc / NBBY)).toNat >>> (loc % NBBY)) &&& (0xff >>> (NBBY - fs.fs_frag))

/-- The byte of block `h` in the map, and the bits of the block in that byte. -/
def blkmask (fs : Ufs.fs) (h : ℕ) : ℕ × BitVec 8 :=
  match fs.fs_frag with
  | 8 => (h, 0xff#8)
  | 4 => (h >>> 1, 0x0f#8 <<< ((h &&& 0x1) <<< 2))
  | 2 => (h >>> 2, 0x03#8 <<< ((h &&& 0x3) <<< 1))
  | _ => (h >>> 3, 0x01#8 <<< (h &&& 0x7))

/-- Check if a block is available. -/
def isblock (fs : Ufs.fs) (cp : ℕ → BitVec 8) (h : ℕ) : Bool :=
  let (i, mask) := blkmask fs h
  (cp i &&& mask) == mask

/-- Take a block out of the map. -/
def clrblock (fs : Ufs.fs) (cp : ℕ → BitVec 8) (h : ℕ) : ℕ → BitVec 8 :=
  let (i, mask) := blkmask fs h
  Function.update cp i (cp i &&& ~~~mask)

/-- Put a block into the map. -/
def setblock (fs : Ufs.fs) (cp : ℕ → BitVec 8) (h : ℕ) : ℕ → BitVec 8 :=
  let (i, mask) := blkmask fs h
  Function.update cp i (cp i ||| mask)

/-- `for (i = 0; i < n; i++) setbit(a, bno + i)`. -/
def setbits (a : ℕ → BitVec 8) (bno : ℕ) : ℕ → (ℕ → BitVec 8)
  | 0 => a
  | n + 1 => setbit (setbits a bno n) (bno + n)

/-- `for (i = 0; i < n; i++) clrbit(a, bno + i)`. -/
def clrbits (a : ℕ → BitVec 8) (bno : ℕ) : ℕ → (ℕ → BitVec 8)
  | 0 => a
  | n + 1 => clrbit (clrbits a bno n) (bno + n)

/-! ## Fragment patterns -/

/-- Bit patterns for identifying fragments in the block map, used as
`(map & around) == inside`. -/
def around (siz : ℕ) : ℕ := [0x3, 0x7, 0xf, 0x1f, 0x3f, 0x7f, 0xff, 0x1ff, 0x3ff].getD siz 0

def inside (siz : ℕ) : ℕ := [0x0, 0x2, 0x6, 0xe, 0x1e, 0x3e, 0x7e, 0xfe, 0x1fe].getD siz 0

/-- Given a block map bit pattern, whether a fragment of a particular size is
available in it, for blocks of one, two and four fragments. -/
def fragtbl124 : List ℕ := [
  0x00, 0x16, 0x16, 0x2a, 0x16, 0x16, 0x26, 0x4e,
  0x16, 0x16, 0x16, 0x3e, 0x2a, 0x3e, 0x4e, 0x8a,
  0x16, 0x16, 0x16, 0x3e, 0x16, 0x16, 0x36, 0x5e,
  0x16, 0x16, 0x16, 0x3e, 0x3e, 0x3e, 0x5e, 0x9e,
  0x16, 0x16, 0x16, 0x3e, 0x16, 0x16, 0x36, 0x5e,
  0x16, 0x16, 0x16, 0x3e, 0x3e, 0x3e, 0x5e, 0x9e,
  0x2a, 0x3e, 0x3e, 0x2a, 0x3e, 0x3e, 0x2e, 0x6e,
  0x3e, 0x3e, 0x3e, 0x3e, 0x2a, 0x3e, 0x6e, 0xaa,
  0x16, 0x16, 0x16, 0x3e, 0x16, 0x16, 0x36, 0x5e,
  0x16, 0x16, 0x16, 0x3e, 0x3e, 0x3e, 0x5e, 0x9e,
  0x16, 0x16, 0x16, 0x3e, 0x16, 0x16, 0x36, 0x5e,
  0x16, 0x16, 0x16, 0x3e, 0x3e, 0x3e, 0x5e, 0x9e,
  0x26, 0x36, 0x36, 0x2e, 0x36, 0x36, 0x26, 0x6e,
  0x36, 0x36, 0x36, 0x3e, 0x2e, 0x3e, 0x6e, 0xae,
  0x4e, 0x5e, 0x5e, 0x6e, 0x5e, 0x5e, 0x6e, 0x4e,
  0x5e, 0x5e, 0x5e, 0x7e, 0x6e, 0x7e, 0x4e, 0xce,
  0x16, 0x16, 0x16, 0x3e, 0x16, 0x16, 0x36, 0x5e,
  0x16, 0x16, 0x16, 0x3e, 0x3e, 0x3e, 0x5e, 0x9e,
  0x16, 0x16, 0x16, 0x3e, 0x16, 0x16, 0x36, 0x5e,
  0x16, 0x16, 0x16, 0x3e, 0x3e, 0x3e, 0x5e, 0x9e,
  0x16, 0x16, 0x16, 0x3e, 0x16, 0x16, 0x36, 0x5e,
  0x16, 0x16, 0x16, 0x3e, 0x3e, 0x3e, 0x5e, 0x9e,
  0x3e, 0x3e, 0x3e, 0x3e, 0x3e, 0x3e, 0x3e, 0x7e,
  0x3e, 0x3e, 0x3e, 0x3e, 0x3e, 0x3e, 0x7e, 0xbe,
  0x2a, 0x3e, 0x3e, 0x2a, 0x3e, 0x3e, 0x2e, 0x6e,
  0x3e, 0x3e, 0x3e, 0x3e, 0x2a, 0x3e, 0x6e, 0xaa,
  0x3e, 0x3e, 0x3e, 0x3e, 0x3e, 0x3e, 0x3e, 0x7e,
  0x3e, 0x3e, 0x3e, 0x3e, 0x3e, 0x3e, 0x7e, 0xbe,
  0x4e, 0x5e, 0x5e, 0x6e, 0x5e, 0x5e, 0x6e, 0x4e,
  0x5e, 0x5e, 0x5e, 0x7e, 0x6e, 0x7e, 0x4e, 0xce,
  0x8a, 0x9e, 0x9e, 0xaa, 0x9e, 0x9e, 0xae, 0xce,
  0x9e, 0x9e, 0x9e, 0xbe, 0xaa, 0xbe, 0xce, 0x8a]

/-- The same table for blocks of eight fragments. -/
def fragtbl8 : List ℕ := [
  0x00, 0x01, 0x01, 0x02, 0x01, 0x01, 0x02, 0x04,
  0x01, 0x01, 0x01, 0x03, 0x02, 0x03, 0x04, 0x08,
  0x01, 0x01, 0x01, 0x03, 0x01, 0x01, 0x03, 0x05,
  0x02, 0x03, 0x03, 0x02, 0x04, 0x05, 0x08, 0x10,
  0x01, 0x01, 0x01, 0x03, 0x01, 0x01, 0x03, 0x05,
  0x01, 0x01, 0x01, 0x03, 0x03, 0x03, 0x05, 0x09,
  0x02, 0x03, 0x03, 0x02, 0x03, 0x03, 0x02, 0x06,
  0x04, 0x05, 0x05, 0x06, 0x08, 0x09, 0x10, 0x20,
  0x01, 0x01, 0x01, 0x03, 0x01, 0x01, 0x03, 0x05,
  0x01, 0x01, 0x01, 0x03, 0x03, 0x03, 0x05, 0x09,
  0x01, 0x01, 0x01, 0x03, 0x01, 0x01, 0x03, 0x05,
  0x03, 0x03, 0x03, 0x03, 0x05, 0x05, 0x09, 0x11,
  0x02, 0x03, 0x03, 0x02, 0x03, 0x03, 0x02, 0x06,
  0x03, 0x03, 0x03, 0x03, 0x02, 0x03, 0x06, 0x0a,
  0x04, 0x05, 0x05, 0x06, 0x05, 0x05, 0x06, 0x04,
  0x08, 0x09, 0x09, 0x0a, 0x10, 0x11, 0x20, 0x40,
  0x01, 0x01, 0x01, 0x03, 0x01, 0x01, 0x03, 0x05,
  0x01, 0x01, 0x01, 0x03, 0x03, 0x03, 0x05, 0x09,
  0x01, 0x01, 0x01, 0x03, 0x01, 0x01, 0x03, 0x05,
  0x03, 0x03, 0x03, 0x03, 0x05, 0x05, 0x09, 0x11,
  0x01, 0x01, 0x01, 0x03, 0x01, 0x01, 0x03, 0x05,
  0x01, 0x01, 0x01, 0x03, 0x03, 0x03, 0x05, 0x09,
  0x03, 0x03, 0x03, 0x03, 0x03, 0x03, 0x03, 0x07,
  0x05, 0x05, 0x05, 0x07, 0x09, 0x09, 0x11, 0x21,
  0x02, 0x03, 0x03, 0x02, 0x03, 0x03, 0x02, 0x06,
  0x03, 0x03, 0x03, 0x03, 0x02, 0x03, 0x06, 0x0a,
  0x03, 0x03, 0x03, 0x03, 0x03, 0x03, 0x03, 0x07,
  0x02, 0x03, 0x03, 0x02, 0x06, 0x07, 0x0a, 0x12,
  0x04, 0x05, 0x05, 0x06, 0x05, 0x05, 0x06, 0x04,
  0x05, 0x05, 0x05, 0x07, 0x06, 0x07, 0x04, 0x0c,
  0x08, 0x09, 0x09, 0x0a, 0x09, 0x09, 0x0a, 0x0c,
  0x10, 0x11, 0x11, 0x12, 0x20, 0x21, 0x40, 0x80]

/-- The fragment table for blocks of `frag` fragments. -/
def fragtbl (frag : ℕ) : List ℕ := if frag = 8 then fragtbl8 else fragtbl124

/-- The inner loop of `fragacct`: how many times size `siz` is counted from position
`pos` on.  The fuel `n` bounds the positions left. -/
def fragacctPos (frag fragmap siz : ℕ) : ℕ → ℕ → ℕ → ℕ → ℕ
  | 0, _, _, _ => 0
  | n + 1, pos, field, subfield =>
    if pos ≤ frag then
      if fragmap &&& field = subfield then
        fragacctPos frag fragmap siz n (pos + siz + 1) (field <<< siz <<< 1)
          (subfield <<< siz <<< 1) + 1
      else fragacctPos frag fragmap siz n (pos + 1) (field <<< 1) (subfield <<< 1)
    else 0

/-- How often `fragacct` counts size `siz` in a block with bits `fragmap`. -/
def fragacctSiz (frag fragmap siz : ℕ) : ℕ :=
  if ((fragtbl frag).getD fragmap 0 <<< 1) &&& (1 <<< (siz + frag % NBBY)) = 0 then 0
  else fragacctPos frag (fragmap <<< 1) siz (frag + 1) siz (around siz) (inside siz)

/-- Update the `frsum` fields to reflect addition or deletion of some frags. -/
def fragacct (fs : Ufs.fs) (fragmap : ℕ) (fraglist : ℕ → ℤ) (cnt : ℤ) : ℕ → ℤ :=
  (List.range' 1 (fs.fs_frag - 1)).foldl
    (fun l siz => Function.update l siz (l siz + cnt * fragacctSiz fs.fs_frag fragmap siz))
    fraglist

end Ufs
