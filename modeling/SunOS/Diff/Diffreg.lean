/-
# Comparing two files (`diffreg.c`)

`diff` without `-b`, `-w` and `-i`, up to the changes that it reports in normal and `-n` mode.
A file is a list of bytes, a stream what is left of it to read.  Lines are numbered from 1.

Arrays are functions; what `talloc` leaves in them is in `heap`.  Where an array is laid over
another, `equiv` works on the words of both; `unsort` has read its lines before it writes.
A `long` has 32 bits.  A result `none` is a loop that does not end.
-/
import SunOS.Lib.ShellSort
import Mathlib.Data.List.Basic

namespace Diff

open Function (update)

/-- `struct cand`; 0 stands for the end of a chain. -/
structure cand where
  x : ℕ
  y : ℕ
  pred : ℕ

/-- `struct line` -/
structure line where
  serial : ℕ
  value : ℤ

/-- What is in the arrays before they are written. -/
structure heap where
  file : ℕ → line
  klass : ℕ → ℤ
  klist : ℕ → ℕ
  clist : ℕ → cand
  Jvect : ℕ → ℕ
  ixold : ℕ → ℕ
  ixnew : ℕ → ℕ

/-! ## readhash, prepare -/

/-- A value for a `long`, as two's complement keeps it. -/
def long (x : ℤ) : ℤ := (x + 2147483648) % 4294967296 - 2147483648

/-- `(short)x` -/
def short (x : ℤ) : ℤ := (x + 32768) % 65536 - 32768

/-- `low(x)` -/
def low (x : ℤ) : ℤ := x % 65536

/-- `high(x)` -/
def high (x : ℤ) : ℤ := x / 65536

/-- The end of `readhash`. -/
def fold (sum : ℤ) : ℤ :=
  let sum := low sum + high sum
  short (low sum) + short (high sum)

/-- The loop of `readhash`, and the stream after it. -/
def hashloop : ℤ → ℕ → List ℕ → ℤ × List ℕ
  | sum, shift, [] => if shift ≠ 0 then (fold sum, []) else (0, [])
  | sum, shift, t :: f =>
      if t = 10 then (fold sum, f)
      else
        let shift := shift % 16
        hashloop (long (sum + t * 2 ^ shift)) (shift + 7) f

/-- `readhash(f,fname,origfname)` -/
def readhash (f : List ℕ) : ℤ × List ℕ := hashloop 1 0 f

/-- The loop of `prepare`: a hash of 0 is taken for the end of the file. -/
def prepareloop : ℕ → List ℕ → ℕ → (ℕ → line) → Option (ℕ × (ℕ → line))
  | 0, _, _, _ => none
  | fuel + 1, f, j, p =>
      let (h, f) := readhash f
      if h = 0 then some (j, p)
      else prepareloop fuel f (j + 1) (update p (j + 1) { p (j + 1) with value := h })

/-- `prepare(i, fd, fname, origfname)`: `len[i]` and `file[i]`. -/
def prepare (mem : heap) (f : List ℕ) : Option (ℕ × (ℕ → line)) :=
  prepareloop (f.length + 1) f 0 mem.file

/-! ## prune -/

/-- The first loop of `prune`, from `pref` on. -/
def preloop (len0 len1 : ℕ) (file0 file1 : ℕ → line) : ℕ → ℕ → ℕ
  | 0, pref => pref
  | fuel + 1, pref =>
      if pref < len0 ∧ pref < len1 ∧ (file0 (pref + 1)).value = (file1 (pref + 1)).value then
        preloop len0 len1 file0 file1 fuel (pref + 1)
      else pref

/-- The second loop. -/
def sufloop (len0 len1 pref : ℕ) (file0 file1 : ℕ → line) : ℕ → ℕ → ℕ
  | 0, suff => suff
  | fuel + 1, suff =>
      if suff < len0 - pref ∧ suff < len1 - pref ∧
          (file0 (len0 - suff)).value = (file1 (len1 - suff)).value then
        sufloop len0 len1 pref file0 file1 fuel (suff + 1)
      else suff

/-- The third loop: the lines from 0 to `n` of `sfile` get their serial numbers. -/
def serials (n : ℕ) (a : ℕ → line) : ℕ → line :=
  (List.range (n + 1)).foldl (fun a i => update a i { a i with serial := i }) a

/-- `prune()`: `pref` and `suff`. -/
def prune (len0 len1 : ℕ) (file0 file1 : ℕ → line) : ℕ × ℕ :=
  let pref := preloop len0 len1 file0 file1 (len0 + 1) 0
  (pref, sufloop len0 len1 pref file0 file1 (len0 + 1) 0)

/-! ## sort, equiv, unsort -/

/-- Whether `aim` is above `ai`. -/
def above (aim ai : line) : Bool :=
  aim.value > ai.value ∨ (aim.value = ai.value ∧ aim.serial > ai.serial)

/-- `sort(a,n)` -/
def sort (n : ℕ) (a : ℕ → line) : ℕ → line := ShellSort.sort above n a

/-- The first loop of `equiv`, and the one after it: the values of `a` become indices. -/
def equivloop (n m : ℕ) (b : ℕ → line) : ℕ → ℕ → ℕ → (ℕ → line) → Option (ℕ → line)
  | 0, _, _, _ => none
  | fuel + 1, i, j, a =>
      if i ≤ n ∧ j ≤ m then
        if (a i).value < (b j).value then
          equivloop n m b fuel (i + 1) j (update a i { a i with value := 0 })
        else if (a i).value = (b j).value then
          equivloop n m b fuel (i + 1) j (update a i { a i with value := j })
        else equivloop n m b fuel i (j + 1) a
      else if i ≤ n then
        equivloop n m b fuel (i + 1) j (update a i { a i with value := 0 })
      else some a

/-- The words of `file[1]`: a line has two, its serial number and its value. -/
def words (file : ℕ → line) (w : ℕ) : ℤ :=
  if w % 2 = 0 then (file (w / 2)).serial else (file (w / 2)).value

/-- The inner loop of `equiv` at `j`, with `c` over the words of which `b` starts at `base`. -/
def memberinner (base : ℕ) : ℕ → ℕ → (ℕ → ℤ) → Option (ℕ × (ℕ → ℤ))
  | 0, _, _ => none
  | fuel + 1, j, w =>
      if w (base + 2 * (j + 1) + 1) = w (base + 2 * j + 1) then
        memberinner base fuel (j + 1) (update w (j + 1) (w (base + 2 * (j + 1))))
      else some (j, w)

/-- The outer loop. -/
def memberloop (base m : ℕ) : ℕ → ℕ → (ℕ → ℤ) → Option (ℕ → ℤ)
  | 0, _, _ => none
  | fuel + 1, j, w => do
      let j := j + 1
      if j ≤ m then
        let w := update w j (-w (base + 2 * j))
        let (j, w) ← memberinner base (m + 1) j w
        memberloop base m fuel j w
      else some (update w j (-1))

/-- `equiv(a,n,b,m,c)` with `b` at `file[1]+pref` and `c` at `file[1]`: `a` and `c`. -/
def equiv (n m pref : ℕ) (a file1 : ℕ → line) : Option ((ℕ → line) × (ℕ → ℤ)) := do
  let b := fun k => file1 (pref + k)
  let a ← equivloop n m b (n + m + 1) 1 1 a
  let last := pref + (m + 1)
  let file1 := update file1 last { file1 last with value := 0 }
  let c ← memberloop (2 * pref) m (m + 1) 0 (words file1)
  some (a, c)

/-- `unsort(f, l, b)`, on memory with anything in it. -/
def unsort (f : ℕ → line) (l : ℕ) (mem : ℕ → ℤ) : ℕ → ℤ :=
  let a := (List.range l).foldl
    (fun a i => update a (f (i + 1)).serial (f (i + 1)).value) mem
  (List.range l).foldl (fun b i => update b (i + 1) (a (i + 1))) mem

/-! ## stone -/

/-- What `stone` works on: `clist`, `clen`, `klist` (its parameter `c`) and `k`. -/
structure stones where
  clist : ℕ → cand
  clen : ℕ
  c : ℕ → ℕ
  k : ℕ

/-- `newcand(x,y,pred)`, and `c[l]` set to it. -/
def newcand (s : stones) (l x y pred : ℕ) : stones :=
  { s with
    clist := update s.clist s.clen ⟨x, y, pred⟩
    clen := s.clen + 1
    c := update s.c l s.clen }

/-- The loop of `search`. -/
def searchloop (s : stones) (y : ℕ) : ℕ → ℕ → ℕ → Option ℕ
  | 0, _, _ => none
  | fuel + 1, i, j =>
      let l := (i + j) / 2
      if l ≤ i then some (l + 1)
      else
        let t := (s.clist (s.c l)).y
        if y < t then searchloop s y fuel i l
        else if t < y then searchloop s y fuel l j
        else some l

/-- `search(c, k, y)` -/
def search (s : stones) (y : ℕ) : Option ℕ := searchloop s y (s.k + 2) 0 (s.k + 1)

/-- Where `y` goes in `c`, with a quick look for the typical case. -/
def look (s : stones) (y : ℕ) : Option ℕ :=
  if (s.clist (s.c s.k)).y < y then some (s.k + 1) else search s y

/-- The loop of `stone` over the members of a class, `b[j]` being `y` or `-y`. -/
def rowloop (b : ℕ → ℤ) (i : ℕ) : ℕ → ℕ → ℕ → ℕ → ℕ → stones → Option stones
  | 0, _, _, _, _, _ => none
  | fuel + 1, j, y, oldl, oldc, s =>
      let next := fun oldl oldc s =>
        if 0 < b (j + 1) then rowloop b i fuel (j + 1) (b (j + 1)).toNat oldl oldc s else some s
      if y ≤ (s.clist oldc).y then next oldl oldc s
      else do
        let l ← look s y
        let oldc := if l ≠ oldl + 1 then s.c (l - 1) else oldc
        if l ≤ s.k then
          if (s.clist (s.c l)).y ≤ y then next oldl oldc s
          else next l (s.c l) (newcand s l i y oldc)
        else
          let s := newcand s l i y oldc
          some { s with k := s.k + 1 }

/-- A round of the loop of `stone`; a class holds at most `m` lines. -/
def stonerow (a b : ℕ → ℤ) (m : ℕ) (s : stones) (i : ℕ) : Option stones :=
  let j := (a i).toNat
  if a i = 0 then some s else rowloop b i (m + 1) j (-b j).toNat 0 (s.c 0) s

/-- `stone(a,n,b,c)` -/
def stone (mem : heap) (a : ℕ → ℤ) (n : ℕ) (b : ℕ → ℤ) (m : ℕ) : Option stones :=
  let s := newcand ⟨mem.clist, 0, mem.klist, 0⟩ 0 0 0 0
  ((List.range n).map (· + 1)).foldlM (stonerow a b m) s

/-! ## unravel -/

/-- The second loop of `unravel`. -/
def unravelloop (s : stones) (pref : ℕ) : ℕ → ℕ → (ℕ → ℕ) → Option (ℕ → ℕ)
  | 0, _, _ => none
  | fuel + 1, q, J =>
      if (s.clist q).y = 0 then some J
      else
        unravelloop s pref fuel (s.clist q).pred
          (update J ((s.clist q).x + pref) ((s.clist q).y + pref))

/-- The first loop of `unravel`. -/
def unravelinit (len0 len1 pref suff : ℕ) (J : ℕ → ℕ) : ℕ → ℕ :=
  (List.range (len0 + 1)).foldl
    (fun J i => update J i
      (if i ≤ pref then i else if len0 - suff < i then i + len1 - len0 else 0)) J

/-- `unravel(p)` -/
def unravel (s : stones) (len0 len1 pref suff : ℕ) (J : ℕ → ℕ) (p : ℕ) : Option (ℕ → ℕ) :=
  unravelloop s pref (s.clen + 1) p (unravelinit len0 len1 pref suff J)

/-! ## check -/

/-- `skipline(fnum)`, and the stream after it. -/
def skipline : List ℕ → ℕ × List ℕ
  | [] => (1, [])
  | c :: f =>
      if c = 10 then (1, f)
      else
        let (i, f) := skipline f
        (i + 1, f)

/-- After two characters that differ, the rest of each line is skipped. -/
def skiprest : List ℕ → ℕ × List ℕ
  | [] => (0, [])
  | c :: f => if c ≠ 10 then skipline f else (0, f)

/-- The loop of `check` over two lines: whether they are equal, what it adds to `ctold` and
`ctnew`, and the streams after it. -/
def compare : List ℕ → List ℕ → Bool × ℕ × ℕ × List ℕ × List ℕ
  | [], [] => (true, 1, 1, [], [])
  | c :: f0, d :: f1 =>
      if c ≠ d then
        let (i, r0) := skiprest (c :: f0)
        let (j, r1) := skiprest (d :: f1)
        (false, 1 + i, 1 + j, r0, r1)
      else if c = 10 then (true, 1, 1, f0, f1)
      else
        let (same, i, j, r0, r1) := compare f0 f1
        (same, i + 1, j + 1, r0, r1)
  | f0, f1 =>
      let (i, r0) := skiprest f0
      let (j, r1) := skiprest f1
      (false, 1 + i, 1 + j, r0, r1)

/-- Where `check` is in the new file: `j`, `ixnew`, `ctnew` and its stream. -/
structure newpos where
  j : ℕ
  ixnew : ℕ → ℕ
  ctnew : ℕ
  f : List ℕ

/-- A line of the new file is skipped. -/
def skipnew (p : newpos) : newpos :=
  let (i, f) := skipline p.f
  ⟨p.j + 1, update p.ixnew p.j (p.ctnew + i), p.ctnew + i, f⟩

/-- The lines before `to` are. -/
def skipto : ℕ → newpos → newpos
  | 0, p => p
  | count + 1, p => skipto count (skipnew p)

/-- What `check` works on. -/
structure checking where
  J : ℕ → ℕ
  ixold : ℕ → ℕ
  ctold : ℕ
  f0 : List ℕ
  new : newpos

/-- A round of the first loop of `check`. -/
def checkline (s : checking) (i : ℕ) : checking :=
  if s.J i = 0 then
    let (n, f) := skipline s.f0
    { s with ixold := update s.ixold i (s.ctold + n), ctold := s.ctold + n, f0 := f }
  else
    let p := skipto (s.J i - s.new.j) s.new
    let (same, n, m, f0, f1) := compare s.f0 p.f
    { J := if same then s.J else update s.J i 0
      ixold := update s.ixold i (s.ctold + n)
      ctold := s.ctold + n
      f0 := f0
      new := ⟨p.j + 1, update p.ixnew p.j (p.ctnew + m), p.ctnew + m, f1⟩ }

/-- `check()`: `Jvect`, `ixold` and `ixnew`. -/
def check (mem : heap) (len0 len1 : ℕ) (J : ℕ → ℕ) (f0 f1 : List ℕ) :
    (ℕ → ℕ) × (ℕ → ℕ) × (ℕ → ℕ) :=
  let s : checking := ⟨J, update mem.ixold 0 0, 0, f0,
    ⟨1, update mem.ixnew 0 0, 0, f1⟩⟩
  let s := ((List.range len0).map (· + 1)).foldl checkline s
  let p := skipto (len1 + 1 - s.new.j) s.new
  (s.J, s.ixold, p.ixnew)

/-! ## output -/

/-- The arguments of a call of `change`. -/
structure range where
  a : ℕ
  b : ℕ
  c : ℕ
  d : ℕ
  deriving DecidableEq

/-- `while(i0<=m&&J[i0]==J[i0-1]+1) i0++` -/
def matched (J : ℕ → ℕ) (m : ℕ) : ℕ → ℕ → ℕ
  | 0, i0 => i0
  | fuel + 1, i0 => if i0 ≤ m ∧ J i0 = J (i0 - 1) + 1 then matched J m fuel (i0 + 1) else i0

/-- `while(i1<m&&J[i1+1]==0) i1++` -/
def unmatched (J : ℕ → ℕ) (m : ℕ) : ℕ → ℕ → ℕ
  | 0, i1 => i1
  | fuel + 1, i1 => if i1 < m ∧ J (i1 + 1) = 0 then unmatched J m fuel (i1 + 1) else i1

/-- The loop of `output` forward over the lines. -/
def outloop (m : ℕ) : ℕ → ℕ → (ℕ → ℕ) → Option (List range)
  | 0, _, _ => none
  | fuel + 1, i0, J =>
      if i0 ≤ m then do
        let i0 := matched J m (m + 1) i0
        let j0 := J (i0 - 1) + 1
        let i1 := unmatched J m (m + 1) (i0 - 1)
        let j1 := J (i1 + 1) - 1
        let J := update J i1 j1
        let rest ← outloop m fuel (i1 + 1) J
        some (⟨i0, i1, j0, j1⟩ :: rest)
      else some []

/-- The calls of `change` that `output()` makes. -/
def output (len0 len1 : ℕ) (J : ℕ → ℕ) : Option (List range) :=
  let J := update J 0 0
  let J := update J (len0 + 1) (len1 + 1)
  if len0 = 0 then some [⟨1, 0, 1, len1⟩] else outloop len0 (2 * len0 + 2) 1 J

/-! ## change -/

/-- A line that `fetch` copies, from where it starts. -/
def fetchline (f : List ℕ) : List ℕ := f.takeWhile fun c => c ≠ 0 ∧ c ≠ 10

/-- `fetch(f,a,b,lb,filename,s,oldfile)`: the lines that it prints. -/
def fetch (ix : ℕ → ℕ) (a b : ℕ) (f : List ℕ) : List (List ℕ) :=
  (List.range (b + 1 - a)).map fun i => fetchline (f.drop (ix (a + i - 1)))

/-- A change as it is reported: its ranges, the old lines and the new ones. -/
structure report where
  range : range
  old : List (List ℕ)
  new : List (List ℕ)
  deriving DecidableEq

/-- `change(a,b,c,d)`, which reports nothing when both ranges are empty. -/
def change (ixold ixnew : ℕ → ℕ) (f0 f1 : List ℕ) (r : range) : Option report :=
  if r.b < r.a ∧ r.d < r.c then none
  else some ⟨r, fetch ixold r.a r.b f0, fetch ixnew r.c r.d f1⟩

/-! ## asciifile, diffreg -/

def BUFSIZ : ℕ := 1024

/-- `sizeof (struct exec)` -/
def sizeofExec : ℕ := 32

/-- `N_BADMAG(hdr)`: `a_magic` is not `OMAGIC`, `NMAGIC` or `ZMAGIC`. -/
def N_BADMAG (a_magic : ℕ) : Bool := a_magic ≠ 0o407 ∧ a_magic ≠ 0o410 ∧ a_magic ≠ 0o413

/-- `asciifile(f)`; `a_magic` is the second short of a header. -/
def asciifile (f : List ℕ) : Bool :=
  let buf := f.take BUFSIZ
  if sizeofExec ≤ buf.length ∧ N_BADMAG (256 * buf.getD 2 0 + buf.getD 3 0) = false then false
  else buf.all fun c => c / 128 % 2 = 0

/-- What `diffreg()` prints: that binary files differ, or the changes. -/
inductive printed
  | binary
  | changes (rs : List report)

/-- What `diffreg()` prints on two files. -/
def diffreg (mem : heap) (f0 f1 : List ℕ) : Option printed :=
  if f0 = f1 then some (.changes [])
  else if asciifile f0 = false ∨ asciifile f1 = false then some .binary
  else do
    let (len0, file0) ← prepare mem f0
    let (len1, file1) ← prepare mem f1
    let (pref, suff) := prune len0 len1 file0 file1
    let slen0 := len0 - pref - suff
    let slen1 := len1 - pref - suff
    let sfile0 := sort slen0 (serials slen0 fun k => file0 (pref + k))
    let sfile1 := sort slen1 (serials slen1 fun k => file1 (pref + k))
    -- `sfile[1]` is a part of `file[1]`
    let (a, member) ← equiv slen0 slen1 pref sfile0
      fun k => if pref ≤ k then sfile1 (k - pref) else file1 k
    let klass := unsort a slen0 mem.klass
    let s ← stone mem klass slen0 member slen1
    let J ← unravel s len0 len1 pref suff mem.Jvect (s.c s.k)
    let (J, ixold, ixnew) := check mem len0 len1 J f0 f1
    let ranges ← output len0 len1 J
    some (.changes (ranges.filterMap (change ixold ixnew f0 f1)))

end Diff
