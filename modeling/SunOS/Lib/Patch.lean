/-
# Edit scripts

A script of hunks turns one list into another: lines up to the hunk are copied, those of the
hunk are dropped, and the new ones come in their place.
-/
import Mathlib.Data.List.Basic
import Mathlib.Data.List.TakeDrop

/-- The lines from `a` to `b`, numbered from 1, give way to `new`; there are none when `a` is
`b + 1`, and then the new lines come after line `b`. -/
structure Hunk (α : Type*) where
  a : ℕ
  b : ℕ
  new : List α

namespace Hunk

open List

variable {α : Type*} {old new : List α} {p q n : ℕ}

/-- What a script makes of a list from `p` on. -/
def patch (old : List α) : ℕ → List (Hunk α) → List α
  | p, [] => old.drop p
  | p, h :: hs => (old.drop p).take (h.a - 1 - p) ++ h.new ++ patch old h.b hs

/-- The same `n` lines are in one list after `p` and in the other after `q`. -/
def Same (old new : List α) (p q n : ℕ) : Prop := (old.drop p).take n = (new.drop q).take n

theorem Same.zero : Same old new p q 0 := by
  unfold Same
  rw [take_zero, take_zero]

/-- One more line. -/
theorem Same.succ (h : Same old new p q n) (hl : old[p + n]? = new[q + n]?) :
    Same old new p q (n + 1) := by
  unfold Same at h ⊢
  rw [take_add_one, take_add_one, h, List.getElem?_drop, List.getElem?_drop, hl]

/-- A list in three parts. -/
theorem take_take_drop {x y : ℕ} (hqx : q ≤ x) (hxy : x ≤ y) :
    (new.drop q).take (x - q) ++ (new.drop x).take (y - x) ++ new.drop y = new.drop q := by
  have h1 : (new.drop x).take (y - x) ++ new.drop y = new.drop x := by
    have := take_append_drop (y - x) (new.drop x)
    rwa [drop_drop, show x + (y - x) = y by omega] at this
  have h2 : (new.drop q).take (x - q) ++ new.drop x = new.drop q := by
    have := take_append_drop (x - q) (new.drop q)
    rwa [drop_drop, show q + (x - q) = x by omega] at this
  rw [append_assoc, h1, h2]

/-- **One hunk**: what it copies is there already, and it brings the new lines up to `y`. -/
theorem patch_cons {rest : List α} {a b x y : ℕ} {hs : List (Hunk α)}
    (hsame : Same old new p q (a - 1 - p)) (hx : x = q + (a - 1 - p)) (hxy : x ≤ y)
    (h : patch old b hs = new.drop y ++ rest) :
    patch old p (⟨a, b, (new.drop x).take (y - x)⟩ :: hs) = new.drop q ++ rest := by
  show (old.drop p).take (a - 1 - p) ++ (new.drop x).take (y - x) ++ patch old b hs = _
  have hqx : q ≤ x := by omega
  have hsplit : (new.drop q).take (x - q) ++ _ ++ new.drop y = _ := take_take_drop hqx hxy
  rw [show x - q = a - 1 - p by omega] at hsplit
  rw [hsame, h, ← append_assoc, hsplit]

end Hunk
