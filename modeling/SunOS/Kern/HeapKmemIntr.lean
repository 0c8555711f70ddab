/-
# Freeing blocks of the kernel heap at interrupt level (`sys/heap_kmem.c`)

`kmem_free_intr` only notes the block: a block of eight bytes or more keeps the note of the one
before it, and smaller ones go to a table.  `check_need_to_free` takes the notes one by one and
frees the blocks; it blocks interrupts only while it takes a note.
-/
import SunOS.Lib.Bytes
import SunOS.Lib.Run

namespace KmemIntr

open List
open Bytes

/-- `struct need_to_free`. -/
structure need_to_free where
  addr : UInt32
  nbytes : UInt32
  deriving DecidableEq, Repr

/-- `sizeof (struct need_to_free)`. -/
def sizeofNeedToFree : UInt32 := 8

def NEED_TO_FREE_SIZE : ℕ := 10

def ALIGN : UInt32 := 4

def ALIGNMASK : UInt32 := ALIGN - 1

/-- The bytes up to the next word boundary. -/
def ALIGNMORE (addr : UInt32) : UInt32 := ALIGN - (addr &&& ALIGNMASK)

/-- The structure in memory. -/
def need_to_free.bytes (n : need_to_free) : List UInt8 := htonl n.addr ++ htonl n.nbytes

/-- The structure that eight bytes make. -/
def need_to_free.ofBytes (l : List UInt8) : need_to_free := ⟨ntohl (l.take 4), ntohl (l.drop 4)⟩

/-- The part of `struct kmem_info` that this is about, and the memory of the kernel. -/
structure kmem_info where
  mem : ℕ → UInt8
  need_to_free_list : need_to_free
  need_to_free : List need_to_free

/-- `kmem_init()`; the sizes are what they were. -/
def kmem_init (mem : ℕ → UInt8) (nbytes : UInt32) : kmem_info where
  mem := mem
  need_to_free_list := ⟨0, nbytes⟩
  need_to_free := List.replicate NEED_TO_FREE_SIZE ⟨0, nbytes⟩

/-- The first free slot of the table. -/
def fill (n : need_to_free) : List need_to_free → Option (List need_to_free)
  | [] => none
  | e :: ntf => if e.addr = 0 then some (n :: ntf) else (fill n ntf).map (e :: ·)

/-- The first slot of the table that is taken. -/
def takeSlot : List need_to_free → Option (need_to_free × List need_to_free)
  | [] => none
  | e :: ntf =>
    if e.addr ≠ 0 then some (e, { e with addr := 0 } :: ntf)
    else (takeSlot ntf).map fun r => (r.1, e :: r.2)

/-- `kmem_free_intr(ptr, nbytes)`, nothing when it panics; `depth` bounds the calls of itself. -/
def kmem_free_intr : ℕ → UInt32 → UInt32 → kmem_info → Option kmem_info
  | 0, _, _, _ => none
  | depth + 1, ptr, nbytes, m =>
    if nbytes ≥ sizeofNeedToFree then
      if ptr &&& ALIGNMASK ≠ 0 then
        let i := ALIGNMORE ptr
        (kmem_free_intr depth ptr i m).bind (kmem_free_intr depth (ptr + i) (nbytes - i))
      else
        some { m with
          mem := store m.mem ptr.toNat m.need_to_free_list.bytes
          need_to_free_list := ⟨ptr, nbytes⟩ }
    else
      (fill ⟨ptr, nbytes⟩ m.need_to_free).map fun ntf => { m with need_to_free := ntf }

/-- What `check_need_to_free` does from the label `again` on with interrupts blocked: a note is
taken, or there is none. -/
def pick (m : kmem_info) : Option (need_to_free × kmem_info) :=
  let ntf := m.need_to_free_list
  if ntf.addr ≠ 0 then
    some (ntf, { m with
      need_to_free_list := need_to_free.ofBytes (load m.mem ntf.addr.toNat 8) })
  else (takeSlot m.need_to_free).map fun r => (r.1, { m with need_to_free := r.2 })

/-! ## Interleavings -/

/-- The kernel.  A call of `check_need_to_free` is at `again`, or has a note in hand; `kmem_free`
may sleep in it, so that there may be several.  The logs are of the calls of `kmem_free_intr` and of
`kmem_free`. -/
structure State where
  info : kmem_info
  drains : List (Option need_to_free)
  queued : List need_to_free
  passed : List need_to_free

inductive Event
  | kmem_free_intr (ptr nbytes : UInt32)
  | check_need_to_free
  | drain (k : ℕ)
  | write (a : ℕ) (l : List UInt8)

namespace State

def start (mem : ℕ → UInt8) (nbytes : UInt32) : State := ⟨kmem_init mem nbytes, [], [], []⟩

/-- One step of the call `k` of `check_need_to_free`. -/
def drain (s : State) (k : ℕ) : Option State :=
  match s.drains[k]? with
  | none => none
  | some (some n) => some { s with drains := s.drains.set k none, passed := n :: s.passed }
  | some none =>
    match pick s.info with
    | some (n, info) => some { s with info := info, drains := s.drains.set k (some n) }
    | none => some { s with drains := s.drains.eraseIdx k }

/-- A step; nothing when the kernel panics, or there is no such call. -/
def step (s : State) : Event → Option State
  | .kmem_free_intr ptr nbytes =>
    (KmemIntr.kmem_free_intr 2 ptr nbytes s.info).map fun info =>
      { s with info := info, queued := ⟨ptr, nbytes⟩ :: s.queued }
  | .check_need_to_free => some { s with drains := none :: s.drains }
  | .drain k => s.drain k
  | .write a l => some { s with info := { s.info with mem := store s.info.mem a l } }

def Step (s : State) (e : Event) (s' : State) : Prop := s.step e = some s'

/-- The notes in hand. -/
def hands (s : State) : List need_to_free := s.drains.filterMap id

end State

/-- The bytes of a block. -/
def need_to_free.covers (u : ℕ) (n : need_to_free) : Bool :=
  n.addr.toNat ≤ u ∧ u < n.addr.toNat + n.nbytes.toNat

/-- A byte that was given to `kmem_free_intr` and not yet to `kmem_free`. -/
def State.Pending (s : State) (u : ℕ) : Prop :=
  s.passed.countP (need_to_free.covers u) < s.queued.countP (need_to_free.covers u)

/-- What the rest of the kernel keeps to: it frees what it has, which is memory with an address, and
leaves alone what it has freed. -/
def State.Owned (s : State) : Event → Prop
  | .kmem_free_intr ptr nbytes =>
    ptr ≠ 0 ∧ ptr.toNat + nbytes.toNat ≤ 2 ^ 32 ∧
      ∀ u, ptr.toNat ≤ u → u < ptr.toNat + nbytes.toNat → ¬ s.Pending u
  | .write a l => ∀ u, a ≤ u → u < a + l.length → ¬ s.Pending u
  | _ => True

/-! ## The table and the words -/

section

variable {n : need_to_free} {ntf ntf' : List need_to_free}

/-- The notes in the table. -/
def taken (ntf : List need_to_free) : List need_to_free := ntf.filter fun n => n.addr ≠ 0

theorem fill_taken (hn : n.addr ≠ 0) (h : fill n ntf = some ntf') :
    (taken ntf').Perm (n :: taken ntf) := by
  induction ntf generalizing ntf' with
  | nil => cases h
  | cons e ntf ih =>
    rw [fill] at h
    split_ifs at h with he
    · obtain rfl := Option.some.inj h
      rw [taken, taken, filter_cons_of_pos (by simpa using hn),
        filter_cons_of_neg (by simp [he])]
    · obtain ⟨t, ht, rfl⟩ := Option.map_eq_some_iff.mp h
      rw [taken, taken, filter_cons_of_pos (by simpa using he),
        filter_cons_of_pos (by simpa using he)]
      exact ((ih ht).cons e).trans (List.Perm.swap n e _)

theorem takeSlot_taken (h : takeSlot ntf = some (n, ntf')) :
    taken ntf = n :: taken ntf' ∧ n.addr ≠ 0 := by
  induction ntf generalizing ntf' with
  | nil => cases h
  | cons e ntf ih =>
    rw [takeSlot] at h
    split_ifs at h with he
    · obtain ⟨rfl, rfl⟩ := Prod.mk.inj (Option.some.inj h)
      rw [taken, taken, filter_cons_of_pos (by simpa using he),
        filter_cons_of_neg (by simp)]
      exact ⟨rfl, he⟩
    · obtain ⟨⟨n', t⟩, ht, hr⟩ := Option.map_eq_some_iff.mp h
      obtain ⟨rfl, rfl⟩ := Prod.mk.inj hr
      rw [taken, taken, filter_cons_of_neg (by simpa using he),
        filter_cons_of_neg (by simpa using he)]
      exact ih ht

theorem takeSlot_eq_none (h : takeSlot ntf = none) : taken ntf = [] := by
  induction ntf with
  | nil => rfl
  | cons e ntf ih =>
    rw [takeSlot] at h
    split_ifs at h with he
    rw [taken, filter_cons_of_neg (by simpa using he)]
    exact ih (Option.map_eq_none_iff.mp h)

@[simp] theorem length_bytes : n.bytes.length = 8 := rfl

@[simp] theorem ofBytes_bytes : need_to_free.ofBytes n.bytes = n := by
  have ht : n.bytes.take 4 = htonl n.addr := rfl
  have hd : n.bytes.drop 4 = htonl n.nbytes := rfl
  rw [need_to_free.ofBytes, ht, hd, ntohl_htonl, ntohl_htonl]

theorem toNat_mask (ptr : UInt32) : (ptr &&& ALIGNMASK).toNat = ptr.toNat % 4 := by
  have hmask : ALIGNMASK.toNat = 2 ^ 2 - 1 := rfl
  rw [UInt32.toNat_and, hmask, Nat.and_two_pow_sub_one_eq_mod]

theorem toNat_ALIGNMORE (ptr : UInt32) : (ALIGNMORE ptr).toNat = 4 - ptr.toNat % 4 := by
  have hle : ptr &&& ALIGNMASK ≤ ALIGN := by
    rw [UInt32.le_iff_toNat_le, toNat_mask]
    show ptr.toNat % 4 ≤ 4
    omega
  rw [ALIGNMORE, UInt32.toNat_sub_of_le _ _ hle, toNat_mask]
  rfl

end

end KmemIntr
