/-
# The random number generators (`libc/gen/random.c`)

A state array of longs holds one generator: its word 0 is the type multiplexed with
the position of the rear pointer, and the words from 1 on are the generator's table.
The array in use has that position in the globals instead, and `initstate` and
`setstate` write it back when they leave the array.

Arrays are named by a type `α`; no two overlap.  A pointer is an array and the index
of a word in it.  What is printed on `stderr` is left out.
-/
import SunOS.Lib.Run
import SunOS.Lib.Word
import Mathlib.Logic.Function.Iterate

namespace LibcRandom

open List
open Function (update update_of_ne update_self)

def MAX_TYPES : ℤ := 5

def TYPE_0 : ℤ := 0

/-- The degree of the polynomial of each type. -/
def degrees (type : ℤ) : ℕ := [0, 7, 15, 31, 63].getD type.toNat 0

/-- The separation of the two pointers, for each type. -/
def seps (type : ℤ) : ℕ := [0, 3, 1, 3, 1].getD type.toNat 0

/-- A pointer to a word of a state array. -/
structure Pointer (α : Type*) where
  array : α
  index : ℕ
  deriving DecidableEq, Repr

/-- `p + n`. -/
def Pointer.add {α : Type*} (p : Pointer α) (n : ℕ) : Pointer α := { p with index := p.index + n }

/-- The static variables and the state arrays. -/
structure rng (α : Type*) where
  memory : α → ℕ → ℤ
  fptr : Pointer α
  rptr : Pointer α
  state : Pointer α
  rand_type : ℤ
  rand_deg : ℕ
  rand_sep : ℕ
  end_ptr : Pointer α

variable {α : Type*} [DecidableEq α]

/-- `*p`. -/
def rng.load (g : rng α) (p : Pointer α) : ℤ := g.memory p.array p.index

/-- `*p = x`. -/
def rng.store (g : rng α) (p : Pointer α) (x : ℤ) : rng α :=
  { g with
    memory := update g.memory p.array (update (g.memory p.array) p.index x) }

/-- The table of an `initstate(1, randtbl, 128)`. -/
def randtbl : List ℤ :=
  [3, 0x9a319039, 0x32d9c024, 0x9b663182, 0x5da1f342,
    0xde3b81e0, 0xdf0a6fb5, 0xf103bc02, 0x48f340fb,
    0x7449e56b, 0xbeb1dbb0, 0xab5c5918, 0x946554fd,
    0x8c2e680f, 0xeb3d799f, 0xb11ee0b7, 0x2d436b86,
    0xda672e2a, 0x1588ca88, 0xe369735d, 0x904f35f7,
    0xd7158fd6, 0x6fa6f051, 0x616e6b96, 0xac94efdc,
    0x36413f93, 0xc622c298, 0xf5a42ab8, 0x8a88d77b,
    0xf5ad9d0e, 0x8999220b, 0x27fb47b9].map int32

/-- The variables as they are loaded, with `a` the array `randtbl`. -/
def rng.start (a : α) (memory : α → ℕ → ℤ) : rng α where
  memory := update memory a fun i => randtbl.getD i 0
  fptr := ⟨a, 4⟩
  rptr := ⟨a, 1⟩
  state := ⟨a, 1⟩
  rand_type := 3
  rand_deg := 31
  rand_sep := 3
  end_ptr := ⟨a, 32⟩

/-! ## The functions -/

/-- `random()`, and the number it returns. -/
def random (g : rng α) : rng α × ℤ :=
  if g.rand_type = TYPE_0 then
    let i := (g.load g.state * 1103515245 + 12345) % 2147483648
    (g.store g.state i, i)
  else
    let g := g.store g.fptr (int32 (g.load g.fptr + g.load g.rptr))
    -- "chucking least random bit"
    let i := g.load g.fptr / 2 % 2147483648
    let fptr := g.fptr.add 1
    let rptr := g.rptr.add 1
    if fptr.index ≥ g.end_ptr.index then ({ g with fptr := g.state, rptr := rptr }, i)
    else if rptr.index ≥ g.end_ptr.index then ({ g with fptr := fptr, rptr := g.state }, i)
    else ({ g with fptr := fptr, rptr := rptr }, i)

/-- The loop of `srandom` that fills the table. -/
def fill (g : rng α) : rng α :=
  (List.range (g.rand_deg - 1)).foldl
    (fun g i => g.store (g.state.add (i + 1))
      (int32 (1103515245 * g.load (g.state.add i) + 12345))) g

/-- `srandom(x)`. -/
def srandom (x : ℤ) (g : rng α) : rng α :=
  if g.rand_type = TYPE_0 then g.store g.state (int32 x)
  else
    let g := fill (g.store g.state (int32 x))
    (fun g => (random g).1)^[10 * g.rand_deg]
      { g with fptr := g.state.add g.rand_sep, rptr := g.state }

/-- `state[-1] = ...`: the type, multiplexed with the position of the rear pointer. -/
def save (g : rng α) : rng α :=
  let word : Pointer α := { g.state with index := g.state.index - 1 }
  if g.rand_type = TYPE_0 then g.store word g.rand_type
  else g.store word (MAX_TYPES * (g.rptr.index - g.state.index : ℤ) + g.rand_type)

/-- The type of generator for an array of `n` bytes. -/
def typeFor (n : ℤ) : ℤ :=
  if n < 32 then 0 else if n < 64 then 1 else if n < 128 then 2 else if n < 256 then 3 else 4

/-- `initstate(seed, arg_state, n)`: with `n < BREAK_0` the call is ignored. -/
def initstate (seed : ℤ) (arg_state : α) (n : ℤ) (g : rng α) : rng α :=
  let g := save g
  if n < 8 then g
  else
    let type := typeFor n
    let state : Pointer α := ⟨arg_state, 1⟩
    save (srandom seed { g with
      rand_type := type
      rand_deg := degrees type
      rand_sep := seps type
      state := state
      end_ptr := state.add (degrees type) })

/-- `setstate(arg_state)`. -/
def setstate (arg_state : α) (g : rng α) : rng α :=
  let type := (g.load ⟨arg_state, 0⟩).tmod MAX_TYPES
  let rear := (g.load ⟨arg_state, 0⟩).tdiv MAX_TYPES
  let g := save g
  let g :=
    if 0 ≤ type ∧ type ≤ 4 then
      { g with rand_type := type, rand_deg := degrees type, rand_sep := seps type }
    else g
  let state : Pointer α := ⟨arg_state, 1⟩
  let g :=
    if g.rand_type ≠ TYPE_0 then
      { g with
        rptr := state.add rear.toNat
        fptr := state.add ((rear.toNat + g.rand_sep) % g.rand_deg) }
    else g
  { g with state := state, end_ptr := state.add g.rand_deg }

/-! ## Runs -/

/-- A call of the package. -/
inductive Call (α : Type*)
  | random
  | srandom (x : ℤ)
  | initstate (seed : ℤ) (arg_state : α) (n : ℤ)
  | setstate (arg_state : α)
  deriving DecidableEq, Repr

/-- The number a call draws, if it draws one. -/
def exec (c : Call α) (g : rng α) : rng α × Option ℤ :=
  match c with
  | .random => ((random g).1, some (random g).2)
  | .srandom x => (srandom x g, none)
  | .initstate seed a n => (initstate seed a n g, none)
  | .setstate a => (setstate a g, none)

/-- The generators of a process, and the arrays that hold one. -/
structure World (α : Type*) where
  rng : rng α
  made : List α

/-- The process before its first call. -/
def World.start (a : α) (memory : α → ℕ → ℤ) : World α := ⟨LibcRandom.rng.start a memory, [a]⟩

/-- What the package asks of a call: enough bytes for a generator, and no array that
`initstate` has not filled. -/
def Proper (w : World α) : Call α → Prop
  | .initstate _ _ n => 8 ≤ n
  | .setstate a => a ∈ w.made
  | _ => True

/-- The arrays that hold a generator after a call. -/
def madeBy (made : List α) : Call α → List α
  | .initstate _ a _ => a :: made
  | _ => made

/-- An event is a call with the number it draws. -/
def Step (w : World α) (e : Call α × Option ℤ) (w' : World α) : Prop :=
  Proper w e.1 ∧ exec e.1 w.rng = (w'.rng, e.2) ∧ w'.made = madeBy w.made e.1

/-- The array in use after a call. -/
def used (active : α) : Call α → α
  | .initstate _ a _ => a
  | .setstate a => a
  | _ => active

/-- A draw from the array `a` or a seeding of it. -/
def IsFor (a active : α) : Call α → Prop
  | .setstate _ => False
  | c => used active c = a

instance (a active : α) : (c : Call α) → Decidable (IsFor a active c)
  | .setstate _ => inferInstanceAs (Decidable False)
  | .random | .srandom _ => inferInstanceAs (Decidable (active = a))
  | .initstate _ b _ => inferInstanceAs (Decidable (b = a))

/-- The events of the array `a`, when `active` is in use at the beginning: the draws and the
seedings, without the switches. -/
def own (a : α) : α → List (Call α × Option ℤ) → List (Call α × Option ℤ)
  | _, [] => []
  | active, e :: es =>
    if IsFor a active e.1 then e :: own a (used active e.1) es else own a (used active e.1) es

/-- The numbers drawn from each array go on as if it had never been switched away: its
own events, with the same numbers, are a run too. -/
def Continues (w : World α) (active : α) (es : List (Call α × Option ℤ)) : Prop :=
  ∀ a, ∃ w', Run Step w (own a active es) w'

/-- `fptr` and `rptr` point into the array in use, `rand_sep` apart modulo the degree. -/
def Apart (g : rng α) : Prop :=
  g.rand_type ≠ TYPE_0 → ∃ rear < g.rand_deg,
    g.rptr = g.state.add rear ∧ g.fptr = g.state.add ((rear + g.rand_sep) % g.rand_deg)

/-- `setstate` of the array in use finds the rear pointer where it was last written back. -/
def Fresh (w : World α) (e : Call α × Option ℤ) : Prop :=
  e.1 = .setstate w.rng.state.array → w.rng.rand_type ≠ TYPE_0 →
    w.rng.load { w.rng.state with index := 0 } / MAX_TYPES = w.rng.rptr.index - w.rng.state.index

/-! ## Generators

What a state array is for: a generator of its own. -/

/-- A generator: a table of as many words as its type needs, and 0 behind them. -/
@[ext] structure gen where
  type : ℤ
  table : ℕ → ℤ
  rear : ℕ

/-- The words in the table. -/
def size (type : ℤ) : ℕ := max 1 (degrees type)

namespace gen

/-- The next number. -/
def next (G : gen) : gen × ℤ :=
  if G.type = TYPE_0 then
    let i := (G.table 0 * 1103515245 + 12345) % 2147483648
    ({ G with table := update G.table 0 i }, i)
  else
    let front := (G.rear + seps G.type) % degrees G.type
    let x := int32 (G.table front + G.table G.rear)
    ({ G with
      table := update G.table front x
      rear := (G.rear + 1) % degrees G.type }, x / 2 % 2147483648)

/-- The congruential sequence that fills a table. -/
def lcg (x : ℤ) : ℕ → ℤ
  | 0 => int32 x
  | i + 1 => int32 (1103515245 * lcg x i + 12345)

/-- The generator of a seed. -/
def seeded (type x : ℤ) : gen :=
  (fun G => G.next.1)^[10 * degrees type] ⟨type, fun i => if i < size type then lcg x i else 0, 0⟩

end gen

/-- The generator in the words of an array. -/
def genOf (type : ℤ) (rear : ℕ) (word : ℕ → ℤ) : gen :=
  ⟨type, fun i => if i < size type then word (i + 1) else 0, rear⟩

/-- The generator in use. -/
def current (g : rng α) : gen :=
  genOf g.rand_type (if g.rand_type = TYPE_0 then 0 else g.rptr.index - 1)
    (g.memory g.state.array)

/-- The generator of an array that is not in use. -/
def stored (word : ℕ → ℤ) : gen := genOf (word 0 % MAX_TYPES) (word 0 / MAX_TYPES).toNat word

/-- The generator of each array. -/
def genIn (g : rng α) (a : α) : gen :=
  if a = g.state.array then current g else stored (g.memory a)

/-! ## What each function does -/

variable {t : ℤ} {word : ℕ → ℤ}

variable {g g' : LibcRandom.rng α} {a b : α}

/-- The globals that only `initstate` and `setstate` change agree with one another. -/
structure Set (g : rng α) : Prop where
  state : g.state.index = 1
  type : 0 ≤ g.rand_type ∧ g.rand_type ≤ 4
  deg : g.rand_deg = degrees g.rand_type
  sep : g.rand_sep = seps g.rand_type
  end_ptr : g.end_ptr = g.state.add g.rand_deg

/-- A generator is in use. -/
structure Sound (g : rng α) : Prop extends Set g where
  apart : Apart g

/-- Only the table in use and the two pointers differ. -/
structure Kept (g g' : rng α) : Prop where
  state : g'.state = g.state
  type : g'.rand_type = g.rand_type
  deg : g'.rand_deg = g.rand_deg
  sep : g'.rand_sep = g.rand_sep
  end_ptr : g'.end_ptr = g.end_ptr
  word : g'.memory g.state.array 0 = g.memory g.state.array 0
  others : ∀ b, b ≠ g.state.array → g'.memory b = g.memory b

omit [DecidableEq α] in
theorem Kept.refl (g : rng α) : Kept g g := ⟨rfl, rfl, rfl, rfl, rfl, rfl, fun _ _ => rfl⟩

omit [DecidableEq α] in
theorem Kept.trans {g'' : rng α} (h : Kept g g') (h' : Kept g' g'') : Kept g g'' where
  state := h'.state.trans h.state
  type := h'.type.trans h.type
  deg := h'.deg.trans h.deg
  sep := h'.sep.trans h.sep
  end_ptr := h'.end_ptr.trans h.end_ptr
  word := by
    have hword := h'.word
    rw [h.state] at hword
    rw [hword, h.word]
  others := fun b hb => (h'.others b (by rw [h.state]; exact hb)).trans (h.others b hb)

omit [DecidableEq α] in
theorem Kept.set (h : Kept g g') (hs : Set g) : Set g' where
  state := by rw [h.state, hs.state]
  type := by rw [h.type]; exact hs.type
  deg := by rw [h.deg, h.type, hs.deg]
  sep := by rw [h.sep, h.type, hs.sep]
  end_ptr := by rw [h.end_ptr, h.state, h.deg, hs.end_ptr]

theorem rng.memory_store (g : rng α) (p : Pointer α) (x : ℤ) :
    (g.store p x).memory =
      update g.memory p.array (update (g.memory p.array) p.index x) := rfl

/-- A store in the table. -/
theorem kept_store (g : rng α) {p : Pointer α} (hp : p.array = g.state.array) (hi : p.index ≠ 0)
    (x : ℤ) : Kept g (g.store p x) where
  state := rfl
  type := rfl
  deg := rfl
  sep := rfl
  end_ptr := rfl
  word := by
    rw [rng.memory_store, hp, update_self, update_of_ne hi.symm]
  others := fun b hb => update_of_ne (by rw [hp]; exact hb) _ _

theorem store_table (g : rng α) (i : ℕ) (x : ℤ) :
    (g.store (g.state.add i) x).memory g.state.array =
      update (g.memory g.state.array) (g.state.index + i) x := by
  rw [rng.memory_store]
  exact update_self _ _ _

/-- The degree of a type other than 0 is larger than its separation. -/
theorem seps_lt (ht : 0 ≤ t ∧ t ≤ 4) (h0 : t ≠ TYPE_0) :
    seps t < degrees t ∧ size t = degrees t ∧ 0 < seps t := by
  obtain rfl | rfl | rfl | rfl : t = 1 ∨ t = 2 ∨ t = 3 ∨ t = 4 := by
    unfold TYPE_0 at h0
    omega
  all_goals decide

/-- A word of the table changes, and the generator with it. -/
theorem genOf_update {type : ℤ} {rear i : ℕ} (hi : i < size type) (x : ℤ) :
    genOf type rear (update word (1 + i) x) =
      { genOf type rear word with
        table := update (genOf type rear word).table i x } := by
  unfold genOf
  congr 1
  funext j
  by_cases hj : j = i
  · subst hj
    rw [if_pos hi, Nat.add_comm, update_self, update_self]
  · rw [update_of_ne hj, update_of_ne (by omega)]

theorem genOf_table {type : ℤ} {rear i : ℕ} (hi : i < size type) :
    (genOf type rear word).table i = word (1 + i) := by
  rw [Nat.add_comm]
  exact if_pos hi

/-- A step of less than a turn around a circle. -/
theorem add_mod_turn {r k d : ℕ} (hr : r < d) (hk : k ≤ d) :
    (r + k) % d = if r + k < d then r + k else r + k - d := by
  by_cases h : r + k < d
  · rw [if_pos h, Nat.mod_eq_of_lt h]
  · rw [if_neg h, Nat.mod_eq_sub_mod (by omega), Nat.mod_eq_of_lt (by omega)]

/-- Where `random` leaves the two pointers; the front and the rear pointer do not wrap in the
same call. -/
theorem random_pointers (hs : Set g) (h0 : g.rand_type ≠ TYPE_0) {rear : ℕ}
    (hr : rear < g.rand_deg) (hrptr : g.rptr = g.state.add rear)
    (hfptr : g.fptr = g.state.add ((rear + g.rand_sep) % g.rand_deg)) :
    ∃ g', g' = g.store g.fptr (int32 (g.load g.fptr + g.load g.rptr)) ∧
      random g = ({ g' with
        rptr := g.state.add ((rear + 1) % g.rand_deg)
        fptr := g.state.add (((rear + 1) % g.rand_deg + g.rand_sep) % g.rand_deg) },
        g'.load g.fptr / 2 % 2147483648) := by
  obtain ⟨hsep, -, hpos⟩ := seps_lt hs.type h0
  rw [← hs.deg, ← hs.sep] at hsep
  rw [← hs.sep] at hpos
  have hfront := add_mod_turn hr hsep.le
  have hrear := add_mod_turn hr (show 1 ≤ g.rand_deg by omega)
  have hend : g.end_ptr.index = g.state.index + g.rand_deg := by
    rw [hs.end_ptr, Pointer.add]
  have hi : (g.fptr.add 1).index = g.state.index + (rear + g.rand_sep) % g.rand_deg + 1 := by
    rw [hfptr, Pointer.add, Pointer.add]
  have hj : (g.rptr.add 1).index = g.state.index + rear + 1 := by
    rw [hrptr, Pointer.add, Pointer.add]
  have hnextr : g.state.add (rear + 1) = g.rptr.add 1 := by
    rw [hrptr]
    rfl
  have hnextf : g.state.add ((rear + g.rand_sep) % g.rand_deg + 1) = g.fptr.add 1 := by
    rw [hfptr]
    rfl
  refine ⟨_, rfl, ?_⟩
  unfold random
  rw [if_neg h0]
  by_cases hwrap : (rear + g.rand_sep) % g.rand_deg + 1 = g.rand_deg
  · -- the front pointer wraps
    have hr1 : (rear + 1) % g.rand_deg = rear + 1 := by
      split_ifs at hfront hrear <;> omega
    have hf1 : (rear + 1 + g.rand_sep) % g.rand_deg = 0 := by
      rw [Nat.add_right_comm, ← Nat.mod_add_mod, hwrap, Nat.mod_self]
    have hge : (g.fptr.add 1).index ≥ g.end_ptr.index := by omega
    rw [hr1, hf1, hnextr]
    exact if_pos hge
  · have hlt : ¬ (g.fptr.add 1).index ≥ g.end_ptr.index := by
      have := Nat.mod_lt (rear + g.rand_sep) (show 0 < g.rand_deg by omega)
      omega
    have hf1 : ((rear + 1) % g.rand_deg + g.rand_sep) % g.rand_deg
        = (rear + g.rand_sep) % g.rand_deg + 1 := by
      rw [Nat.mod_add_mod, Nat.add_right_comm, ← Nat.mod_add_mod]
      apply Nat.mod_eq_of_lt
      have := Nat.mod_lt (rear + g.rand_sep) (show 0 < g.rand_deg by omega)
      omega
    rw [hf1, hnextf]
    refine (if_neg hlt).trans ?_
    by_cases hlast : rear + 1 < g.rand_deg
    · have hlt' : ¬ (g.rptr.add 1).index ≥ g.end_ptr.index := by omega
      rw [Nat.mod_eq_of_lt hlast, hnextr]
      exact if_neg hlt'
    · have hge : (g.rptr.add 1).index ≥ g.end_ptr.index := by omega
      rw [show rear + 1 = g.rand_deg by omega, Nat.mod_self]
      exact if_pos hge

/-- The next number from the words of an array of type 0. -/
theorem next_genOf_zero (word : ℕ → ℤ) :
    (genOf TYPE_0 0 word).next =
      (genOf TYPE_0 0 (update word (1 + 0) ((word 1 * 1103515245 + 12345) % 2147483648)),
        (word 1 * 1103515245 + 12345) % 2147483648) := by
  rw [genOf_update (by decide)]
  exact if_pos rfl

/-- The next number from the words of an array of another type. -/
theorem next_genOf (ht : 0 ≤ t ∧ t ≤ 4) (h0 : t ≠ TYPE_0) {rear front : ℕ}
    (word : ℕ → ℤ) (hr : rear < degrees t) (hfront : (rear + seps t) % degrees t = front) {x : ℤ}
    (hx : int32 (word (1 + front) + word (1 + rear)) = x) :
    (genOf t rear word).next =
      (genOf t ((rear + 1) % degrees t) (update word (1 + front) x),
        x / 2 % 2147483648) := by
  obtain ⟨-, hsize, -⟩ := seps_lt ht h0
  have hfr : front < size t := by
    rw [hsize, ← hfront]
    exact Nat.mod_lt _ (by omega)
  rw [genOf_update hfr]
  refine (if_neg h0).trans ?_
  have hrear : (genOf t rear word).rear = rear := rfl
  have htype : (genOf t rear word).type = t := rfl
  simp only [hrear, htype, hfront, genOf_table hfr, genOf_table (hsize ▸ hr), hx]
  rfl

omit [DecidableEq α] in
/-- The generator in use, of a type other than 0. -/
theorem current_of_rptr (hs : Set g) (h0 : g.rand_type ≠ TYPE_0) {rear : ℕ}
    (hrptr : g.rptr = g.state.add rear) :
    current g = genOf g.rand_type rear (g.memory g.state.array) := by
  rw [current, if_neg h0, hrptr, Pointer.add, hs.state, Nat.add_sub_cancel_left]

/-- `random` draws the next number of the generator in use. -/
theorem random_spec (h : Sound g) :
    Sound (random g).1 ∧ Kept g (random g).1 ∧
      current (random g).1 = (current g).next.1 ∧ (random g).2 = (current g).next.2 := by
  by_cases h0 : g.rand_type = TYPE_0
  · set x := (g.load g.state * 1103515245 + 12345) % 2147483648 with hx
    have hk := kept_store g (p := g.state) rfl (by rw [h.state]; decide) x
    have hrandom : random g = (g.store g.state x, x) := if_pos h0
    have hmem : (g.store g.state x).memory g.state.array =
        update (g.memory g.state.array) (1 + 0) x := by
      rw [← h.state]
      exact store_table g 0 x
    have hcur : current g = genOf TYPE_0 0 (g.memory g.state.array) := by
      rw [current, if_pos h0, h0]
    have hcur' : current (g.store g.state x)
        = genOf TYPE_0 0 ((g.store g.state x).memory g.state.array) := by
      rw [current, if_pos (hk.type.trans h0), hk.type, hk.state, h0]
    have hword : g.memory g.state.array 1 = g.load g.state := by
      rw [rng.load, h.state]
    rw [hrandom, hcur, next_genOf_zero, hword, ← hx, ← hmem]
    exact ⟨⟨hk.set h.toSet, fun hne => absurd h0 hne⟩, hk, hcur', rfl⟩
  · obtain ⟨rear, hr, hrptr, hfptr⟩ := h.apart h0
    obtain ⟨g', hg', hrandom⟩ := random_pointers h.toSet h0 hr hrptr hfptr
    set front := (rear + g.rand_sep) % g.rand_deg with hfront
    set x := int32 (g.load g.fptr + g.load g.rptr) with hx
    have hg'k : Kept g g' := by
      rw [hg']
      apply kept_store g (by rw [hfptr]; rfl)
      rw [hfptr, Pointer.add, h.state]
      exact Nat.add_comm _ _ ▸ Nat.succ_ne_zero _
    have hnew : g'.load g.fptr = x := by
      rw [hg', rng.load, rng.memory_store, update_self, update_self]
    have hmem : g'.memory g.state.array =
        update (g.memory g.state.array) (1 + front) x := by
      rw [hg', hfptr, store_table, h.state]
    have hwords : int32 (g.memory g.state.array (1 + front) + g.memory g.state.array (1 + rear))
        = x := by
      rw [hx, hfptr, hrptr, ← h.state]
      rfl
    have hnext := next_genOf h.type h0 (g.memory g.state.array) (h.deg ▸ hr)
      (by rw [← h.deg, ← h.sep]) hwords
    rw [hrandom, hnew, current_of_rptr h.toSet h0 hrptr, hnext]
    have hk : Kept g { g' with
        rptr := g.state.add ((rear + 1) % g.rand_deg)
        fptr := g.state.add (((rear + 1) % g.rand_deg + g.rand_sep) % g.rand_deg) } :=
      hg'k.trans ⟨rfl, rfl, rfl, rfl, rfl, rfl, fun _ _ => rfl⟩
    have hset := hk.set h.toSet
    refine ⟨⟨hset, fun _ => ⟨(rear + 1) % g.rand_deg, ?_, ?_, ?_⟩⟩, hk, ?_, rfl⟩
    · rw [hk.deg]
      exact Nat.mod_lt _ (by omega)
    · rw [hk.state]
    · rw [hk.state, hk.deg, hk.sep]
    · rw [current_of_rptr hset (by rw [hk.type]; exact h0) (by rw [hk.state]), hk.type, hk.state,
        ← hmem, h.deg]

/-- Several draws. -/
theorem iterate_spec (h : Sound g) (n : ℕ) :
    Sound ((fun g => (random g).1)^[n] g) ∧ Kept g ((fun g => (random g).1)^[n] g) ∧
      current ((fun g => (random g).1)^[n] g) = (fun G => G.next.1)^[n] (current g) := by
  induction n with
  | zero => exact ⟨h, .refl g, rfl⟩
  | succ n ih =>
    obtain ⟨hs, hk, hc⟩ := ih
    obtain ⟨hs', hk', hc', -⟩ := random_spec hs
    rw [Function.iterate_succ_apply', Function.iterate_succ_apply', ← hc]
    exact ⟨hs', hk.trans hk', hc'⟩

/-- The loop of `srandom`, by the number of its turns. -/
theorem fill_spec (hs : Set g) (x : ℤ) (n : ℕ) :
    ∃ g', (List.range n).foldl (fun g i => g.store (g.state.add (i + 1))
        (int32 (1103515245 * g.load (g.state.add i) + 12345))) (g.store g.state (int32 x)) = g' ∧
      Kept g g' ∧ ∀ i ≤ n, g'.memory g.state.array (1 + i) = gen.lcg x i := by
  induction n with
  | zero =>
    refine ⟨g.store g.state (int32 x), rfl,
      kept_store g rfl (by rw [hs.state]; decide) _, fun i hi => ?_⟩
    obtain rfl : i = 0 := by omega
    rw [rng.memory_store, update_self, hs.state, update_self]
    rfl
  | succ n ih =>
    obtain ⟨g', hg', hk, hall⟩ := ih
    have hload : g'.load (g'.state.add n) = gen.lcg x n := by
      rw [← hall n le_rfl, hk.state, rng.load, Pointer.add, hs.state]
    rw [range_succ, foldl_append, hg']
    refine ⟨_, rfl, hk.trans (kept_store g' (p := g'.state.add (n + 1)) rfl
      (Nat.succ_ne_zero _) _), fun i hi => ?_⟩
    have hmem := store_table g' (n + 1) (gen.lcg x (n + 1))
    rw [hk.state, hs.state] at hmem
    change (g'.store (g'.state.add (n + 1)) _).memory g.state.array (1 + i) = _
    rw [hload, hk.state]
    refine (congrFun hmem (1 + i)).trans ?_
    by_cases hi' : i = n + 1
    · rw [hi', update_self]
    · rw [update_of_ne (by omega), hall i (by omega)]

/-- `srandom` seeds the generator in use. -/
theorem srandom_spec (hs : Set g) (x : ℤ) :
    Sound (srandom x g) ∧ Kept g (srandom x g) ∧
      current (srandom x g) = gen.seeded g.rand_type x := by
  obtain ⟨g', hg', hk, hall⟩ := fill_spec hs x (g.rand_deg - 1)
  by_cases h0 : g.rand_type = TYPE_0
  · have hdeg : g.rand_deg = 0 := by
      rw [hs.deg, h0]
      rfl
    rw [hdeg] at hg' hall
    have hsr : srandom x g = g' := (if_pos h0).trans hg'
    rw [hsr]
    refine ⟨⟨hk.set hs, fun hne => absurd (hk.type.trans h0) hne⟩, hk, ?_⟩
    rw [current, hk.type, hk.state, if_pos h0, h0]
    change genOf TYPE_0 0 _ = ⟨_, _, _⟩
    unfold genOf
    congr 1
    funext i
    by_cases hi : i < size TYPE_0
    · obtain rfl : i = 0 := Nat.lt_one_iff.mp hi
      rw [if_pos hi, if_pos hi, ← hall 0 le_rfl]
    · rw [if_neg hi, if_neg hi]
  · obtain ⟨hsep, hsize, -⟩ := seps_lt hs.type h0
    have hk2 : Kept g { g' with fptr := g'.state.add g'.rand_sep, rptr := g'.state } :=
      hk.trans ⟨rfl, rfl, rfl, rfl, rfl, rfl, fun _ _ => rfl⟩
    have hset := hk2.set hs
    have hsound : Sound { g' with fptr := g'.state.add g'.rand_sep, rptr := g'.state } := by
      refine ⟨hset, fun _ => ⟨0, ?_, rfl, ?_⟩⟩
      · rw [hk2.deg, hs.deg]
        omega
      · rw [Nat.zero_add, Nat.mod_eq_of_lt (by rw [hk2.deg, hk2.sep, hs.deg, hs.sep]; exact hsep)]
    have hcur : current { g' with fptr := g'.state.add g'.rand_sep, rptr := g'.state } =
        ⟨g.rand_type, fun i => if i < size g.rand_type then gen.lcg x i else 0, 0⟩ := by
      rw [current_of_rptr hset (by rw [hk2.type]; exact h0) (show _ = Pointer.add _ 0 from rfl),
        hk2.type, hk2.state]
      unfold genOf
      congr 1
      funext i
      by_cases hi : i < size g.rand_type
      · rw [if_pos hi, if_pos hi, Nat.add_comm]
        rw [hsize, ← hs.deg] at hi
        exact hall i (by omega)
      · rw [if_neg hi, if_neg hi]
    have hsr : srandom x g = (fun g => (random g).1)^[10 * g'.rand_deg]
        { g' with fptr := g'.state.add g'.rand_sep, rptr := g'.state } := by
      rw [← hg']
      exact if_neg h0
    obtain ⟨h1, h2, h3⟩ := iterate_spec hsound (10 * g'.rand_deg)
    rw [hsr]
    refine ⟨h1, hk2.trans h2, ?_⟩
    rw [h3, hcur, hk.deg, hs.deg]
    rfl

/-- Word 0 of an array that holds a generator. -/
def Header (word : ℕ → ℤ) : Prop :=
  ∃ t, ∃ r : ℕ, (0 ≤ t ∧ t ≤ 4) ∧ r < size t ∧ word 0 = MAX_TYPES * r + t

theorem Header.of_word {r : ℕ} (ht : 0 ≤ t ∧ t ≤ 4) (h : word 0 = MAX_TYPES * r + t) :
    word 0 % MAX_TYPES = t ∧ word 0 / MAX_TYPES = r := by
  unfold MAX_TYPES at *
  omega

/-- `save` writes the generator in use back to its array. -/
theorem save_spec (h : Sound g) :
    (save g = { g with memory := (save g).memory } ∧
      ∀ b, b ≠ g.state.array → (save g).memory b = g.memory b) ∧
    Header ((save g).memory g.state.array) ∧
    (save g).memory g.state.array 0 % MAX_TYPES = g.rand_type ∧
    stored ((save g).memory g.state.array) = current g ∧
    ∀ i, (save g).memory g.state.array (i + 1) = g.memory g.state.array (i + 1) := by
  obtain ⟨r, hr, hword, hcur⟩ : ∃ r : ℕ, r < size g.rand_type ∧
      save g = g.store { g.state with index := 0 } (MAX_TYPES * r + g.rand_type) ∧
      current g = genOf g.rand_type r (g.memory g.state.array) := by
    have hzero : ({ g.state with index := g.state.index - 1 } : Pointer α)
        = { g.state with index := 0 } := by
      rw [h.state]
    unfold save
    by_cases h0 : g.rand_type = TYPE_0
    · refine ⟨0, by rw [h0]; decide, ?_, ?_⟩
      · simp only [if_pos h0, hzero, Nat.cast_zero, mul_zero, zero_add]
      · rw [current, if_pos h0]
    · obtain ⟨rear, hr, hrptr, -⟩ := h.apart h0
      refine ⟨rear, ?_, ?_, current_of_rptr h.toSet h0 hrptr⟩
      · rw [(seps_lt h.type h0).2.1, ← h.deg]
        exact hr
      · simp only [if_neg h0, hrptr, Pointer.add, h.state]
        congr 3
        push_cast
        ring
  have hmem : (save g).memory g.state.array =
      update (g.memory g.state.array) 0 (MAX_TYPES * r + g.rand_type) := by
    rw [hword]
    exact update_self _ _ _
  have h0 : (save g).memory g.state.array 0 = MAX_TYPES * r + g.rand_type := by
    rw [hmem, update_self]
  have hrest : ∀ i, (save g).memory g.state.array (i + 1) = g.memory g.state.array (i + 1) := by
    intro i
    rw [hmem, update_of_ne (Nat.succ_ne_zero i)]
  obtain ⟨htype, hrear⟩ := Header.of_word h.type h0
  refine ⟨⟨?_, fun b hb => ?_⟩, ⟨_, r, h.type, hr, h0⟩, htype, ?_, hrest⟩
  · rw [hword]
    rfl
  · rw [hword]
    exact update_of_ne hb _ _
  · rw [stored, htype, hrear, hcur, Int.toNat_natCast]
    unfold genOf
    simp only [hrest]

/-- A generator is in use, and every array in `made` holds one. -/
structure Good (g : rng α) (made : List α) : Prop extends Sound g where
  header : ∀ b ∈ made, Header (g.memory b)
  mem : g.state.array ∈ made
  word : g.memory g.state.array 0 % MAX_TYPES = g.rand_type

variable {made : List α}

theorem typeFor_mem (n : ℤ) : 0 ≤ typeFor n ∧ typeFor n ≤ 4 := by
  unfold typeFor
  split_ifs <;> decide

/-- `initstate` puts a seeded generator in an array, in place of what it held. -/
theorem initstate_spec (h : Good g made) (seed : ℤ) (a : α) {n : ℤ} (hn : 8 ≤ n) :
    Good (initstate seed a n g) (a :: made) ∧ (initstate seed a n g).state = ⟨a, 1⟩ ∧
      ∀ b ∈ a :: made, genIn (initstate seed a n g) b =
        update (genIn g) a (gen.seeded (typeFor n) seed) b := by
  obtain ⟨⟨-, hothers⟩, hhead, -, hstored, -⟩ := save_spec h.toSound
  set g1 : rng α := { save g with
      rand_type := typeFor n
      rand_deg := degrees (typeFor n)
      rand_sep := seps (typeFor n)
      state := ⟨a, 1⟩
      end_ptr := Pointer.add ⟨a, 1⟩ (degrees (typeFor n)) } with hg1
  have hinit : initstate seed a n g = save (srandom seed g1) := if_neg (by omega)
  have hset : Set g1 := ⟨rfl, typeFor_mem n, rfl, rfl, rfl⟩
  obtain ⟨hs, hk, hseed⟩ := srandom_spec hset seed
  obtain ⟨⟨hsave, hothers'⟩, hhead', htype', -, hrest'⟩ := save_spec hs
  rw [← hinit] at hsave hothers' hhead' htype' hrest'
  have hstate : (initstate seed a n g).state = ⟨a, 1⟩ := by
    rw [hsave]
    exact hk.state
  have htype : (initstate seed a n g).rand_type = typeFor n := by
    rw [hsave]
    exact hk.type
  have harr : (srandom seed g1).state.array = a := by
    rw [hk.state]
  rw [harr] at hothers' hhead' htype' hrest'
  -- the arrays but `a` are as `save` left them
  have hmem : ∀ b, b ≠ a → (initstate seed a n g).memory b = (save g).memory b :=
    fun b hb => (hothers' b hb).trans (hk.others b hb)
  refine ⟨⟨?_, fun b hb => ?_, ?_, ?_⟩, hstate, fun b hb => ?_⟩
  · rw [hsave]
    exact ⟨⟨hs.state, hs.type, hs.deg, hs.sep, hs.end_ptr⟩, hs.apart⟩
  · by_cases hba : b = a
    · rw [hba]
      exact hhead'
    · rw [hmem b hba]
      by_cases hbs : b = g.state.array
      · rw [hbs]
        exact hhead
      · rw [hothers b hbs]
        exact h.header b ((List.mem_cons.mp hb).resolve_left hba)
  · rw [hstate]
    exact mem_cons_self
  · rw [hstate, htype]
    exact htype'.trans hk.type
  · unfold genIn
    rw [hstate]
    by_cases hba : b = a
    · rw [if_pos hba, hba, update_self]
      refine Eq.trans ?_ hseed
      have hmem' : ∀ i, (initstate seed a n g).memory a (i + 1)
          = (srandom seed g1).memory a (i + 1) := hrest'
      unfold current genOf
      rw [hstate, harr, hsave]
      simp only [hmem']
    · rw [if_neg hba, update_of_ne hba, hmem b hba]
      by_cases hbs : b = g.state.array
      · rw [if_pos hbs, hbs]
        exact hstored
      · rw [if_neg hbs, hothers b hbs]

/-- `setstate` takes up the generator that the array held when it was last written back. -/
theorem setstate_spec (h : Good g made) {a : α} (ha : a ∈ made) :
    Good (setstate a g) made ∧ (setstate a g).state = ⟨a, 1⟩ ∧
      ∀ b ∈ made, genIn (setstate a g) b = if b = a then stored (g.memory a) else genIn g b := by
  obtain ⟨⟨hsave, hothers⟩, hhead, htype', hstored, hrest⟩ := save_spec h.toSound
  obtain ⟨t, r, ht, hr, hword⟩ := h.header a ha
  obtain ⟨htype, hrear⟩ := Header.of_word ht hword
  have hmod : (g.load ⟨a, 0⟩).tmod MAX_TYPES = t := by
    rw [← htype]
    exact Int.tmod_eq_emod_of_nonneg (by rw [rng.load, hword]; unfold MAX_TYPES; omega)
  have hdiv : (g.load ⟨a, 0⟩).tdiv MAX_TYPES = r := by
    rw [← hrear]
    exact Int.tdiv_eq_ediv_of_nonneg (by rw [rng.load, hword]; unfold MAX_TYPES; omega)
  obtain ⟨g', hg', hmem, hstate, hrt, hset, hapart, hcur⟩ : ∃ g', setstate a g = g' ∧
      g'.memory = (save g).memory ∧ g'.state = ⟨a, 1⟩ ∧ g'.rand_type = t ∧ Set g' ∧ Apart g' ∧
      current g' = genOf t r (g'.memory a) := by
    refine ⟨_, rfl, ?_⟩
    unfold setstate
    simp only [hmod, hdiv, if_pos ht, Int.toNat_natCast]
    by_cases h0 : t = TYPE_0
    · rw [if_neg (not_not.mpr h0)]
      have hr0 : r = 0 := by
        rw [h0] at hr
        exact Nat.lt_one_iff.mp hr
      refine ⟨rfl, trivial, rfl, ⟨rfl, ht, rfl, rfl, rfl⟩, fun hne => absurd h0 hne, ?_⟩
      rw [current, if_pos h0, hr0]
    · rw [if_pos h0]
      have hs : Set { save g with
          rand_type := t, rand_deg := degrees t, rand_sep := seps t
          rptr := Pointer.add ⟨a, 1⟩ r
          fptr := Pointer.add ⟨a, 1⟩ ((r + seps t) % degrees t)
          state := ⟨a, 1⟩, end_ptr := Pointer.add ⟨a, 1⟩ (degrees t) } :=
        ⟨rfl, ht, rfl, rfl, rfl⟩
      refine ⟨rfl, trivial, rfl, hs, fun _ => ⟨r, ?_, rfl, rfl⟩, current_of_rptr hs h0 rfl⟩
      rw [← (seps_lt ht h0).2.1]
      exact hr
  -- the words behind word 0 are as they were
  have hwords : ∀ b i, g'.memory b (i + 1) = g.memory b (i + 1) := by
    intro b i
    rw [hmem]
    by_cases hb : b = g.state.array
    · rw [hb, hrest]
    · rw [hothers b hb]
  rw [hg']
  refine ⟨⟨⟨hset, hapart⟩, fun b hb => ?_, ?_, ?_⟩, hstate, fun b hb => ?_⟩
  · rw [hmem]
    by_cases hbs : b = g.state.array
    · rw [hbs]
      exact hhead
    · rw [hothers b hbs]
      exact h.header b hb
  · rw [hstate]
    exact ha
  · rw [hstate, hrt, hmem]
    by_cases hbs : a = g.state.array
    · rw [hbs, htype', ← htype, hbs, h.word]
    · rw [hothers a hbs, htype]
  · unfold genIn
    rw [hstate]
    by_cases hba : b = a
    · rw [if_pos hba, if_pos hba, hcur, stored, htype, hrear, Int.toNat_natCast]
      unfold genOf
      simp only [hwords]
    · rw [if_neg hba, if_neg hba, hmem]
      by_cases hbs : b = g.state.array
      · rw [if_pos hbs, hbs]
        exact hstored
      · rw [if_neg hbs, hothers b hbs]

/-! ## Runs keep the generators apart -/

variable {c : Call α}

/-- The generator of an array after a call. -/
def after (c : Call α) (g : rng α) : α → gen :=
  match c with
  | .random => update (genIn g) g.state.array (current g).next.1
  | .srandom x => update (genIn g) g.state.array (gen.seeded g.rand_type x)
  | .initstate seed a n => update (genIn g) a (gen.seeded (typeFor n) seed)
  | .setstate _ => genIn g

/-- The number a call should draw. -/
def drawn (c : Call α) (g : rng α) : Option ℤ :=
  match c with
  | .random => some (current g).next.2
  | _ => none

/-- A call on the generator in use. -/
theorem Kept.good (hk : Kept g g') (h : Good g made) (hs : Sound g') {G : gen}
    (hG : current g' = G) : Good g' made ∧ g'.state = g.state ∧
      ∀ b ∈ made, genIn g' b = update (genIn g) g.state.array G b := by
  refine ⟨⟨hs, fun b hb => ?_, ?_, ?_⟩, hk.state, fun b _ => ?_⟩
  · by_cases hba : b = g.state.array
    · obtain ⟨t, r, ht, hr, hword⟩ := h.header b hb
      refine ⟨t, r, ht, hr, ?_⟩
      rw [← hword, hba, hk.word]
    · rw [hk.others b hba]
      exact h.header b hb
  · rw [hk.state]
    exact h.mem
  · rw [hk.state, hk.word, hk.type, h.word]
  · unfold genIn
    rw [hk.state]
    by_cases hba : b = g.state.array
    · rw [if_pos hba, hba, update_self, hG]
    · rw [if_neg hba, update_of_ne hba, if_neg hba, hk.others b hba]

variable {w w' v : World α} {e : Call α × Option ℤ}

/-- **One call**: what it does to the generators, and the number it draws. -/
theorem step_spec (h : Good w.rng w.made) (hf : Fresh w e) (hstep : Step w e w') :
    Good w'.rng w'.made ∧ w'.rng.state.array = used w.rng.state.array e.1 ∧
      (∀ b ∈ w'.made, genIn w'.rng b = after e.1 w.rng b) ∧ e.2 = drawn e.1 w.rng := by
  obtain ⟨c, o⟩ := e
  obtain ⟨hp, hexec, hmade⟩ := hstep
  cases c with
  | random =>
    obtain ⟨hs, hk, hcur, hdraw⟩ := random_spec h.toSound
    obtain ⟨hg, ho⟩ := Prod.mk.inj hexec
    obtain ⟨hgood, hstate, hgen⟩ := hk.good h hs hcur
    rw [← hg, hmade, ← ho]
    exact ⟨hgood, congrArg _ hstate, hgen, congrArg some hdraw⟩
  | srandom x =>
    obtain ⟨hs, hk, hcur⟩ := srandom_spec h.toSet x
    obtain ⟨hg, ho⟩ := Prod.mk.inj hexec
    obtain ⟨hgood, hstate, hgen⟩ := hk.good h hs hcur
    rw [← hg, hmade, ← ho]
    exact ⟨hgood, congrArg _ hstate, hgen, rfl⟩
  | initstate seed a n =>
    obtain ⟨hg, ho⟩ := Prod.mk.inj hexec
    obtain ⟨hgood, hstate, hgen⟩ := initstate_spec h seed a hp
    rw [← hg, hmade, ← ho]
    exact ⟨hgood, congrArg Pointer.array hstate, hgen, rfl⟩
  | setstate a =>
    obtain ⟨hg, ho⟩ := Prod.mk.inj hexec
    obtain ⟨hgood, hstate, hgen⟩ := setstate_spec h (show a ∈ w.made from hp)
    rw [← hg, hmade, ← ho]
    refine ⟨hgood, congrArg Pointer.array hstate, fun b hb => ?_, rfl⟩
    refine (hgen b hb).trans ?_
    by_cases hba : b = a
    · rw [if_pos hba, hba]
      change _ = genIn w.rng a
      by_cases hact : a = w.rng.state.array
      · -- the rear pointer is where word 0 says
        subst hact
        rw [genIn, if_pos rfl, stored, h.word]
        by_cases h0 : w.rng.rand_type = TYPE_0
        · obtain ⟨t, r, ht, hr, hword⟩ := h.header _ h.mem
          obtain ⟨htype, hrear⟩ := Header.of_word ht hword
          rw [h.word] at htype
          rw [← htype, h0] at hr
          rw [hrear, Int.toNat_natCast, current, if_pos h0, Nat.lt_one_iff.mp hr]
        · obtain ⟨rear, -, hrptr, -⟩ := h.apart h0
          have hfresh := hf rfl h0
          rw [hrptr, Pointer.add, Nat.cast_add, add_sub_cancel_left] at hfresh
          rw [current_of_rptr h.toSet h0 hrptr]
          change genOf _ (w.rng.load { w.rng.state with index := 0 } / MAX_TYPES).toNat _ = _
          rw [hfresh, Int.toNat_natCast]
      · rw [genIn, if_neg hact]
    · rw [if_neg hba]
      rfl

/-- The process after a call. -/
def World.next (w : World α) (c : Call α) : World α := ⟨(exec c w.rng).1, madeBy w.made c⟩

theorem step_next (hp : Proper w c) : Step w (c, (exec c w.rng).2) (w.next c) :=
  ⟨hp, rfl, rfl⟩

/-- The process `v` in which only the calls for the array `a` were made. -/
structure Alone (a : α) (w v : World α) : Prop where
  good : Good v.rng v.made
  used : a ∈ w.made → v.rng.state.array = a
  gen : a ∈ w.made → genIn v.rng a = genIn w.rng a

theorem genIn_used (g : rng α) : genIn g g.state.array = current g := if_pos rfl

variable {a : α}

/-- A call for another array, or a switch. -/
theorem after_other (hc : ¬ IsFor a w.rng.state.array c) :
    after c w.rng a = genIn w.rng a ∧ (a ∈ madeBy w.made c → a ∈ w.made) := by
  cases c with
  | setstate b => exact ⟨rfl, id⟩
  | initstate seed b n =>
    exact ⟨update_of_ne (Ne.symm hc) _ _,
      fun hm => (List.mem_cons.mp hm).resolve_left (Ne.symm hc)⟩
  | random => exact ⟨update_of_ne (Ne.symm hc) _ _, id⟩
  | srandom x => exact ⟨update_of_ne (Ne.symm hc) _ _, id⟩

/-- A call for the array does the same to it in both processes. -/
theorem Alone.after_own (ha : Alone a w v) (h : Good w.rng w.made)
    (hc : IsFor a w.rng.state.array c) (hp : Proper w c) :
    IsFor a v.rng.state.array c ∧ Proper v c ∧ a ∈ madeBy w.made c ∧
      after c v.rng a = after c w.rng a ∧ drawn c v.rng = drawn c w.rng := by
  -- when the array is in use, both processes have the same generator in use
  have hcur : w.rng.state.array = a →
      v.rng.state.array = a ∧ a ∈ w.made ∧ current v.rng = current w.rng := by
    intro hwa
    have hmem : a ∈ w.made := hwa ▸ h.mem
    have hgen := ha.gen hmem
    rw [← hwa, genIn_used, hwa, ← ha.used hmem, genIn_used] at hgen
    exact ⟨ha.used hmem, hmem, hgen⟩
  cases c with
  | setstate b => exact hc.elim
  | initstate seed b n =>
    obtain rfl : b = a := hc
    refine ⟨rfl, hp, mem_cons_self, ?_, rfl⟩
    rw [after, after, update_self, update_self]
  | random =>
    obtain ⟨hva, hmem, hgen⟩ := hcur hc
    refine ⟨hva, trivial, hmem, ?_, ?_⟩
    · rw [after, after, hva, show w.rng.state.array = a from hc, hgen, update_self,
        update_self]
    · rw [drawn, drawn, hgen]
  | srandom x =>
    obtain ⟨hva, hmem, hgen⟩ := hcur hc
    refine ⟨hva, trivial, hmem, ?_, rfl⟩
    rw [after, after, hva, show w.rng.state.array = a from hc, update_self,
      update_self]
    exact congrArg (gen.seeded · x) (congrArg gen.type hgen)

omit [DecidableEq α] in
theorem IsFor.fresh {o : Option ℤ} (hc : IsFor a b c) : Fresh w (c, o) := by
  intro he
  rw [show c = _ from he] at hc
  exact hc.elim

omit [DecidableEq α] in
theorem IsFor.used (hc : IsFor a b c) : used b c = a := by
  cases c with
  | setstate b => exact hc.elim
  | _ => exact hc

/-- The calls for the array, made alone, draw the same numbers. -/
theorem Alone.run {es : List (Call α × Option ℤ)} (hrun : Run (Guarded Fresh Step) w es w')
    (h : Good w.rng w.made) (ha : Alone a w v) :
    ∃ v', Run Step v (own a w.rng.state.array es) v' := by
  induction hrun generalizing v with
  | nil w => exact ⟨v, .nil v⟩
  | @cons w w1 w' e es hs _ ih =>
    obtain ⟨hf, hstep⟩ := hs
    obtain ⟨hgood, huse, hgen, ho⟩ := step_spec h hf hstep
    have hmade := hstep.2.2
    obtain ⟨c, o⟩ := e
    simp only [own, ← huse]
    by_cases hc : IsFor a w.rng.state.array c
    · obtain ⟨hcv, hp, hmem, hafter, hdrawn⟩ := ha.after_own h hc hstep.1
      have hv := step_next hp
      obtain ⟨hgood', huse', hgen', ho'⟩ := step_spec ha.good hcv.fresh hv
      have hsame : (exec c v.rng).2 = o := ho'.trans (hdrawn.trans ho.symm)
      have hva : (v.next c).rng.state.array = a := huse'.trans hcv.used
      have hmem' := hgood'.mem
      rw [hva] at hmem'
      rw [hsame] at hv
      obtain ⟨v', hv'⟩ := ih hgood ⟨hgood', fun _ => hva, fun hm => by
        rw [hgen' a hmem', hgen a hm]
        exact hafter⟩
      rw [if_pos hc]
      exact ⟨v', .cons hv hv'⟩
    · obtain ⟨hne, hold⟩ := after_other hc
      rw [if_neg hc]
      rw [hmade] at hgen
      apply ih hgood
      refine ⟨ha.good, fun hm => ?_, fun hm => ?_⟩
      · rw [hmade] at hm
        exact ha.used (hold hm)
      · rw [hmade] at hm
        rw [hgen a hm, hne]
        exact ha.gen (hold hm)

theorem start_good (a : α) (memory : α → ℕ → ℤ) :
    Good (rng.start a memory) [a] := by
  have hword : (rng.start a memory).memory a = fun i => randtbl.getD i 0 :=
    update_self _ _ _
  have h3 : (0 : ℤ) ≤ 3 ∧ (3 : ℤ) ≤ 4 := by decide
  refine ⟨⟨⟨rfl, h3, rfl, rfl, rfl⟩, fun _ => ⟨0, Nat.zero_lt_succ 30, rfl, rfl⟩⟩,
    fun b hb => ?_, mem_cons_self, ?_⟩
  · rw [List.mem_singleton.mp hb, hword]
    exact ⟨3, 0, by decide, by decide, by decide⟩
  · change (rng.start a memory).memory a 0 % MAX_TYPES = 3
    rw [hword]
    decide

/-- **Every array goes on with its own numbers**, and the pointers stay `rand_sep` apart, in
every run in which `setstate` of the array in use finds its word 0 up to date. -/
theorem continues_of_run {memory : α → ℕ → ℤ} {es : List (Call α × Option ℤ)}
    (hrun : Run (Guarded Fresh Step) (World.start a memory) es w) :
    Continues (World.start a memory) a es ∧ Apart w.rng := by
  constructor
  · intro b
    exact Alone.run hrun (start_good a memory) ⟨start_good a memory,
      fun hb => (List.mem_singleton.mp hb).symm, fun _ => rfl⟩
  · have hgood := hrun.invariant (I := fun w => Good w.rng w.made)
      (fun _ _ _ h hs => (step_spec h hs.1 hs.2).1) (start_good a memory)
    exact hgood.apart

/-- A generator is made in a second array, and the first one is taken up again. -/
theorem continues_switched : ∃ es w,
    Run Step (World.start false fun _ _ => 0) es w ∧ es.length = 4 ∧
      Continues (World.start false fun _ _ => 0) false es ∧ Apart w.rng := by
  have h1 : Fresh (World.start false fun _ _ => 0) (.initstate 1 true 8, none) := by
    rintro ⟨⟩
  have h2 : ∀ w : World Bool, Fresh w (.random, (exec .random w.rng).2) := by
    rintro w ⟨⟩
  have h3 : Fresh (((World.start false fun _ _ => 0).next (.initstate 1 true 8)).next .random)
      (.setstate false, none) := by
    rintro ⟨⟩
  have hrun : Run (Guarded Fresh Step) _ _ _ := Run.cons
    ⟨h1, step_next (c := .initstate 1 true 8) (le_refl (8 : ℤ))⟩
    (.cons ⟨h2 _, step_next trivial⟩ (.cons ⟨h3, step_next (c := .setstate false)
      (mem_cons_of_mem _ mem_cons_self)⟩ (.cons ⟨h2 _, step_next trivial⟩ (.nil _))))
  exact ⟨_, _, hrun.mono fun _ _ _ => And.right, rfl, continues_of_run hrun⟩

/-- **`setstate` of the array in use goes back**: a generator is made in an array, one number is
drawn, and word 0 still has the rear pointer where it was before. -/
theorem not_continues_current : ∃ es w, Run Step (World.start false fun _ _ => 0) es w ∧
    ¬ Continues (World.start false fun _ _ => 0) false es := by
  set w := World.start false fun _ _ => 0 with hw
  have hrun : Run Step w _ _ := Run.cons
    (step_next (c := .initstate 1 true 32) (by decide : (8 : ℤ) ≤ 32))
    (.cons (step_next (c := .random) trivial) (.cons (step_next (c := .setstate true)
      mem_cons_self) (.cons (step_next (c := .random) trivial) (.nil _))))
  refine ⟨_, _, hrun, fun h => ?_⟩
  obtain ⟨v, hv⟩ := h true
  simp only [own, used, IsFor, if_true, if_false] at hv
  obtain ⟨v0, ⟨-, he0, -⟩, hv0⟩ := Run.cons_iff.mp hv
  obtain ⟨v1, ⟨-, he1, -⟩, hv1⟩ := Run.cons_iff.mp hv0
  obtain ⟨v2, ⟨-, he2, -⟩, -⟩ := Run.cons_iff.mp hv1
  simp only [exec, World.next, Prod.mk.injEq, Option.some.injEq] at he0 he1 he2
  rw [← he1.1, ← he0.1, hw] at he2
  have h2 := he2.2
  revert h2
  decide +kernel

end LibcRandom
