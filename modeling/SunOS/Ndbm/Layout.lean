/-
# The layout of a page

The items of a page lie at its end, the first one last, and the shorts at its beginning
count them and say where each starts.  `Holds` is that layout; `makdatum`, `finddatum`,
`delitem` and `additem` do to the bytes what a list of items would have done to it.
-/
import SunOS.Ndbm.Ndbm
import Mathlib.Data.List.Basic

namespace Ndbm

open List
open Bytes

/-- The bytes of the items. -/
def total (items : List datum) : ℕ := (items.map List.length).sum

/-- The items as they lie on a page. -/
def laid (items : List datum) : List UInt8 := items.reverse.flatten

/-- Where item `i` ends, and the one before it starts. -/
def edge (items : List datum) (i : ℕ) : ℕ := PBLKSIZ - total (items.take i)

/-- The page holds the items. -/
structure Holds (buf : Page) (items : List datum) : Prop where
  count : sp buf 0 = items.length
  offset : ∀ i < items.length, sp buf (i + 1) = edge items (i + 1)
  data : load buf (edge items items.length) (total items) = laid items
  room : total items + 2 * (items.length + 1) ≤ PBLKSIZ

variable {buf : Page} {items a c : List datum} {x y : datum} {i j k n v : ℕ}

/-! ## Lists of items -/

@[simp] theorem total_append : total (a ++ c) = total a + total c := by
  rw [total, map_append, sum_append, total, total]

@[simp] theorem total_cons : total (x :: a) = x.length + total a := rfl

@[simp] theorem total_nil : total [] = 0 := rfl

theorem laid_append : laid (a ++ c) = laid c ++ laid a := by
  rw [laid, reverse_append, flatten_append, laid, laid]

@[simp] theorem laid_singleton : laid [x] = x := append_nil x

@[simp] theorem length_laid : (laid items).length = total items := by
  induction items with
  | nil => rfl
  | cons x items ih =>
    rw [← singleton_append, laid_append, length_append, ih, total_append, laid_singleton]
    simp [Nat.add_comm]

theorem edge_append : edge (a ++ c) a.length = PBLKSIZ - total a := by rw [edge, take_left]

theorem edge_length : edge items items.length = PBLKSIZ - total items := by
  rw [edge, take_length]

/-- An item is as long as its edges are apart. -/
theorem edge_succ (h : total (a ++ x :: c) ≤ PBLKSIZ) :
    edge (a ++ x :: c) (a.length + 1) + x.length = edge (a ++ x :: c) a.length := by
  have hone : a ++ x :: c = (a ++ [x]) ++ c := by simp
  have hlen : a.length + 1 = (a ++ [x]).length := by simp
  rw [edge_append, hone, hlen, edge_append]
  simp only [total_append, total_cons, total_nil] at h ⊢
  omega

/-! ## Shorts and stores -/

@[simp] theorem sp_zeroed : sp zeroed i = 0 := by simp [sp, zeroed]

theorem setsp_of_ge (h : 2 * i + 2 ≤ k) : setsp i v buf k = buf k :=
  store_of_not_mem fun hin => by
    simp only [length_cons, length_nil] at hin
    omega

/-- What is stored in a short is read from it, and the others stay. -/
theorem sp_setsp (hv : v < 65536) : sp (setsp i v buf) j = if j = i then v else sp buf j := by
  rw [sp, setsp, store, store]
  simp only [length_cons, length_nil]
  by_cases hj : j = i
  · subst hj
    rw [if_pos (by omega), if_pos (by omega), if_pos rfl, Nat.sub_self,
      show 2 * j + 1 - 2 * j = 1 by omega]
    simp only [getD_cons_zero, getD_cons_succ, UInt8.toNat_ofNat']
    omega
  · rw [if_neg (by omega), if_neg (by omega), if_neg hj, sp]

theorem sp_store {l : List UInt8} (h : 2 * j + 2 ≤ i) : sp (store buf i l) j = sp buf j := by
  rw [sp, store_of_not_mem (by omega), store_of_not_mem (by omega), sp]

/-- A block behind a short is as it was when that is stored. -/
theorem load_setsp (h : 2 * i + 2 ≤ k) : load (setsp i v buf) k n = load buf k n :=
  load_congr fun _ hk _ => setsp_of_ge (h.trans hk)

/-! ## Looking at a page -/

theorem holds_zeroed : Holds zeroed [] :=
  ⟨sp_zeroed, fun _ hi => absurd hi (Nat.not_lt_zero _), rfl, by decide⟩

/-- What the source has as the end of an item. -/
theorem Holds.end_eq (h : Holds buf items) (hn : n ≤ items.length) :
    (if n > 0 then sp buf n else PBLKSIZ) = edge items n := by
  rcases n with - | n
  · rw [if_neg (Nat.lt_irrefl 0)]
    rfl
  · rw [if_pos (Nat.succ_pos n), h.offset n hn]

theorem Holds.total_le (h : Holds buf items) : total items ≤ PBLKSIZ := by
  have hroom := h.room
  omega

/-- An item lies between its edges. -/
theorem Holds.load_item (h : Holds buf (a ++ x :: c)) :
    load buf (edge (a ++ x :: c) (a.length + 1)) x.length = x := by
  have hdata := h.data
  have hle := h.total_le
  have hone : a ++ x :: c = (a ++ [x]) ++ c := by simp
  have hlen : a.length + 1 = (a ++ [x]).length := by simp
  have hstart : edge (a ++ x :: c) (a.length + 1) = PBLKSIZ - total (a ++ x :: c) + total c := by
    rw [hone, hlen, edge_append]
    rw [hone] at hle
    simp only [total_append] at hle ⊢
    omega
  have htotal : total (a ++ x :: c) = total c + (x.length + total a) := by
    simp only [total_append, total_cons]
    omega
  rw [edge_length, hone, laid_append, laid_append, laid_singleton, ← hone, htotal, load_add,
    load_add] at hdata
  obtain ⟨-, hrest⟩ := append_inj hdata (by simp)
  rw [hstart, htotal]
  exact (append_inj hrest (by simp)).1

/-- **`makdatum`** is the item. -/
theorem Holds.makdatum_eq (h : Holds buf items) : makdatum buf n = items[n]? := by
  rw [makdatum, h.count]
  rcases Nat.lt_or_ge n items.length with hlt | hge
  · rw [if_neg (Nat.not_le.mpr hlt), List.getElem?_eq_getElem hlt]
    simp only [h.end_eq (le_of_lt hlt), h.offset n hlt]
    have hsplit : items = items.take n ++ items[n] :: items.drop (n + 1) := by
      rw [← drop_eq_getElem_cons hlt, take_append_drop]
    have hlen : (items.take n).length = n := length_take_of_le (le_of_lt hlt)
    have hload := Holds.load_item (hsplit ▸ h)
    have hsize := edge_succ (hsplit ▸ h.total_le)
    rw [← hsplit, hlen] at hload hsize
    rw [show edge items n - edge items (n + 1) = items[n].length by omega, hload]
  · rw [if_pos hge, List.getElem?_eq_none hge]

/-! ## Taking out -/

/-- The loop of `delitem` moves the offsets, and nothing that lies behind them. -/
theorem delitemLoop_spec (i1 fuel j : ℕ) (buf : Page)
    (hlt : ∀ k, j + 2 ≤ k → k < j + fuel + 2 → sp buf k + i1 < 65536) :
    (∀ k, sp (delitemLoop i1 fuel j buf) k =
      if j ≤ k ∧ k < j + fuel then sp buf (k + 2) + i1 else sp buf k) ∧
    ∀ k, 2 * (j + fuel) ≤ k → delitemLoop i1 fuel j buf k = buf k := by
  induction fuel generalizing j buf with
  | zero => exact ⟨fun k => (if_neg (by omega)).symm, fun _ _ => rfl⟩
  | succ fuel ih =>
    have hstep : ∀ k, sp (setsp j (sp buf (j + 2) + i1) buf) k =
        if k = j then sp buf (j + 2) + i1 else sp buf k := fun k =>
      sp_setsp (hlt (j + 2) (le_refl _) (by omega))
    obtain ⟨hsp, hrest⟩ := ih (j + 1) (setsp j (sp buf (j + 2) + i1) buf) (by
      intro k hk hk'
      rw [hstep, if_neg (by omega)]
      exact hlt k (by omega) (by omega))
    rw [delitemLoop]
    refine ⟨fun k => ?_, fun k hk => ?_⟩
    · rw [hsp]
      by_cases hin : j + 1 ≤ k ∧ k < j + 1 + fuel
      · rw [if_pos hin, if_pos (by omega), hstep, if_neg (by omega)]
      · rw [if_neg hin, hstep]
        by_cases hkj : k = j
        · rw [if_pos hkj, if_pos (by omega), hkj]
        · rw [if_neg hkj, if_neg (by omega)]
    · rw [hrest k (by omega), setsp_of_ge (by omega)]

/-- The last two items are gone when they are counted no more. -/
theorem Holds.init (h : Holds buf (a ++ [x, y])) : Holds (setsp 0 a.length buf) a := by
  have hroom := h.room
  have hdata := h.data
  have hsize : PBLKSIZ = 1024 := rfl
  simp only [total_append, total_cons, total_nil, length_append, length_cons,
    length_nil] at hroom
  refine ⟨?_, fun i hi => ?_, ?_, by omega⟩
  · rw [sp_setsp (by omega), if_pos rfl]
  · rw [sp_setsp (by omega), if_neg (by omega), h.offset i (by simp; omega), edge, edge,
      take_append_of_le_length hi]
  · rw [edge_length, laid_append,
      show total (a ++ [x, y]) = total [x, y] + total a by simp [Nat.add_comm],
      load_add] at hdata
    have hlast := (append_inj hdata (by simp)).2
    rw [edge_length, load_setsp (by omega), ← hlast]
    congr 1
    simp only [total_cons, total_nil]
    omega

/-- Behind a part of the items there is room for the others. -/
theorem edge_mid (hle : total (a ++ x :: y :: c) ≤ PBLKSIZ) (hn : n < c.length) :
    edge (a ++ x :: y :: c) (a.length + n + 3) + (x.length + y.length) =
      edge (a ++ c) (a.length + n + 1) := by
  have hlong : a ++ x :: y :: c = (a ++ x :: y :: c.take (n + 1)) ++ c.drop (n + 1) := by simp
  have hshort : a ++ c = (a ++ c.take (n + 1)) ++ c.drop (n + 1) := by simp
  have hlen : (c.take (n + 1)).length = n + 1 := length_take_of_le hn
  have hl : a.length + n + 3 = (a ++ x :: y :: c.take (n + 1)).length := by
    simp [hlen, Nat.add_assoc]
  have hs : a.length + n + 1 = (a ++ c.take (n + 1)).length := by simp [hlen, Nat.add_assoc]
  have htotal : total c = total (c.take (n + 1)) + total (c.drop (n + 1)) := by
    rw [← total_append, take_append_drop]
  rw [hlong, hl, edge_append, hshort, hs, edge_append]
  simp only [total_append, total_cons] at hle ⊢
  omega

/-- The items behind the two are moved up to those before them. -/
theorem Holds.moved (h : Holds buf (a ++ x :: y :: c)) {e : ℕ}
    (he : e + total (a ++ x :: y :: c) = PBLKSIZ) :
    ∀ buf', (if x.length + y.length > 0 then
      store buf (e + (x.length + y.length)) (load buf e (total c)) else buf) = buf' →
    load buf' (e + (x.length + y.length)) (total (a ++ c)) = laid (a ++ c) ∧
      ∀ k < e, buf' k = buf k := by
  rintro buf' rfl
  have hdata := h.data
  have hitems : a ++ x :: y :: c = (a ++ [x, y]) ++ c := by simp
  have htotal : total (a ++ x :: y :: c) = total c + (x.length + y.length + total a) := by
    simp only [total_append, total_cons]
    omega
  have hboth : laid [x, y] = y ++ x := by simp [laid]
  rw [edge_length, show PBLKSIZ - total (a ++ x :: y :: c) = e by omega, htotal, hitems,
    laid_append,
    laid_append, hboth, load_add, load_add] at hdata
  obtain ⟨hc, hrest⟩ := append_inj hdata (by simp)
  obtain ⟨-, ha⟩ := append_inj hrest (by simp [Nat.add_comm])
  rw [total_append, Nat.add_comm (total a), load_add, laid_append]
  split
  · refine ⟨congrArg₂ _ ?_ ?_, fun k hk => store_of_not_mem (by omega)⟩
    · have hload := load_store (m := buf) (a := e + (x.length + y.length)) (l :=
        load buf e (total c))
      rw [length_load] at hload
      exact hload.trans hc
    · rw [load_store_of_disjoint (.inr (by simp)), ← ha]
      congr 1
      omega
  · next hnone =>
    have hzero : x.length + y.length = 0 := by omega
    rw [hzero] at ha ⊢
    exact ⟨congrArg₂ _ hc ha, fun _ _ => rfl⟩

/-- **`delitem`** takes out two items. -/
theorem Holds.exists_delitem (h : Holds buf (a ++ x :: y :: c)) (heven : a.length % 2 = 0) :
    ∃ buf', delitem buf a.length = some buf' ∧ Holds buf' (a ++ c) := by
  have hlen : (a ++ x :: y :: c).length = a.length + c.length + 2 := by
    simp [Nat.add_assoc]
  have hcount := h.count.trans hlen
  rw [delitem]
  simp only [hcount]
  rw [if_neg (by omega)]
  rcases hcn : c with - | ⟨z, c'⟩
  · subst hcn
    refine ⟨_, if_pos (by simp), ?_⟩
    rw [append_nil]
    exact h.init
  have hcpos : 0 < c.length := by simp [hcn]
  rw [← hcn]
  have hsize : PBLKSIZ = 1024 := rfl
  have hroom := h.room
  have hle := h.total_le
  have htotal : total (a ++ x :: y :: c) = total (a ++ c) + (x.length + y.length) := by
    simp only [total_append, total_cons]
    omega
  obtain ⟨e, he⟩ : ∃ e, e + total (a ++ x :: y :: c) = PBLKSIZ :=
    ⟨PBLKSIZ - total (a ++ x :: y :: c), by omega⟩
  have hend : sp buf (a.length + c.length + 2) = e := by
    rw [← hlen, show (a ++ x :: y :: c).length = (a ++ x :: y :: c).length - 1 + 1 by omega,
      h.offset _ (by omega), show (a ++ x :: y :: c).length - 1 + 1 = (a ++ x :: y :: c).length
        by omega,
      edge_length]
    omega
  have hnext : sp buf (a.length + 2) = e + total c := by
    have hitems : a ++ x :: y :: c = (a ++ [x, y]) ++ c := by simp
    have hedge := edge_append (a := a ++ [x, y]) (c := c)
    rw [← hitems, show (a ++ [x, y]).length = a.length + 2 by simp] at hedge
    rw [h.offset (a.length + 1) (by omega), hedge]
    simp only [total_append, total_cons, total_nil] at he ⊢
    omega
  have hi1 : (if a.length > 0 then sp buf a.length else PBLKSIZ) - (e + total c) =
      x.length + y.length := by
    rw [h.end_eq (by omega), edge_append]
    simp only [total_append, total_cons] at he
    omega
  simp only [hnext, hend, hi1, Nat.add_sub_cancel_left, Nat.add_sub_cancel]
  rw [if_neg (by omega)]
  generalize hmv : (if x.length + y.length > 0 then
    store buf (e + (x.length + y.length)) (load buf e (total c)) else buf) = mv
  obtain ⟨hdata, hkeep⟩ := h.moved he mv hmv
  have hsp : ∀ k ≤ a.length + c.length + 2, sp (setsp 0 (a.length + c.length) mv) k =
      if k = 0 then a.length + c.length else sp buf k := by
    intro k hk
    rw [sp_setsp (by omega), sp, hkeep _ (by omega), hkeep _ (by omega), sp]
  have hoff : ∀ k < a.length + c.length + 2, sp buf (k + 1) ≤ PBLKSIZ := by
    intro k hk
    rw [h.offset k (by omega)]
    exact Nat.sub_le _ _
  obtain ⟨hshort, hrest⟩ := delitemLoop_spec (x.length + y.length) c.length (a.length + 1)
    (setsp 0 (a.length + c.length) mv) (by
      intro k hk hk'
      obtain ⟨k, rfl⟩ : ∃ m, k = m + 1 := ⟨k - 1, by omega⟩
      rw [hsp _ (by omega), if_neg (by omega)]
      have hk := hoff k (by omega)
      omega)
  refine ⟨_, rfl, ?_, fun i hi => ?_, ?_, ?_⟩
  · rw [hshort, if_neg (by omega), hsp _ (by omega), if_pos rfl, length_append]
  · rw [length_append] at hi
    rw [hshort]
    rcases Nat.lt_or_ge i a.length with hfirst | hlast
    · rw [if_neg (by omega), hsp _ (by omega), if_neg (by omega), h.offset i (by omega), edge, edge,
        take_append_of_le_length hfirst, take_append_of_le_length hfirst]
    · obtain ⟨m, rfl⟩ := Nat.exists_eq_add_of_le hlast
      rw [if_pos (by omega), hsp _ (by omega), if_neg (by omega), h.offset _ (by omega),
        ← edge_mid hle]
      omega
  · rw [edge_length, show PBLKSIZ - total (a ++ c) = e + (x.length + y.length) by omega, ← hdata]
    apply load_congr
    intro k hk hk'
    rw [hrest k (by omega), setsp_of_ge (by omega)]
  · rw [length_append]
    omega

/-! ## Putting in -/

/-- **`additem`** puts two items behind the others, when there is room. -/
theorem Holds.exists_additem (h : Holds buf items)
    (hroom : total items + x.length + y.length + 2 * (items.length + 3) < PBLKSIZ) :
    ∃ buf', additem buf x y = some buf' ∧ Holds buf' (items ++ [x, y]) := by
  have hsize : PBLKSIZ = 1024 := rfl
  have hlast : (if items.length > 0 then sp buf items.length else PBLKSIZ) =
      PBLKSIZ - total items := (h.end_eq (le_refl _)).trans edge_length
  obtain ⟨e, he⟩ : ∃ e, e + x.length + y.length + total items = PBLKSIZ :=
    ⟨PBLKSIZ - (x.length + y.length + total items), by omega⟩
  have hi1 : ((PBLKSIZ - total items : ℕ) : ℤ) - (x.length + y.length) = e := by omega
  rw [additem]
  simp only [h.count, hlast, hi1, Int.toNat_natCast]
  rw [if_neg (by omega)]
  refine ⟨_, rfl, ?_⟩
  have hlen : (items ++ [x, y]).length = items.length + 2 := by simp
  have htotal : total (items ++ [x, y]) = y.length + (x.length + total items) := by
    simp only [total_append, total_cons, total_nil]
    omega
  have hsp : ∀ j ≤ items.length + 2, sp (store (setsp (items.length + 2) e
      (store (setsp (items.length + 1) (e + y.length) (setsp 0 (items.length + 2) buf))
        (e + y.length) x)) e y) j =
      if j = items.length + 2 then e else if j = items.length + 1 then e + y.length
        else if j = 0 then items.length + 2 else sp buf j := by
    intro j hj
    rw [sp_store (by omega), sp_setsp (by omega), sp_store (by omega), sp_setsp (by omega),
      sp_setsp (by omega)]
  refine ⟨?_, fun i hi => ?_, ?_, ?_⟩
  · rw [hsp 0 (by omega), if_neg (by omega), if_neg (by omega), if_pos rfl, hlen]
  · rw [hsp (i + 1) (by omega)]
    rcases Nat.lt_or_ge i items.length with hold | hnew
    · rw [if_neg (by omega), if_neg (by omega), if_neg (by omega), h.offset i hold, edge, edge,
        take_append_of_le_length hold]
    · rcases Nat.lt_or_ge i (items.length + 1) with hfirst | hsecond
      · obtain rfl : i = items.length := by omega
        rw [if_neg (by omega), if_pos rfl, edge, take_append, take_of_length_le (by omega)]
        simp
        omega
      · obtain rfl : i = items.length + 1 := by omega
        rw [if_pos rfl, edge, take_of_length_le (by omega), htotal]
        omega
  · rw [edge_length, htotal, show PBLKSIZ - (y.length + (x.length + total items)) = e by omega,
      load_add, load_store, load_store_of_disjoint (by omega), load_setsp (by omega), load_add,
      load_store, load_store_of_disjoint (by omega), load_setsp (by omega), load_setsp (by omega),
      show e + y.length + x.length = PBLKSIZ - total items by omega, ← edge_length, h.data,
      laid_append]
    simp [laid]
  · rw [htotal, hlen]
    omega

/-- There is no room for more. -/
theorem Holds.additem_none (h : Holds buf items)
    (hroom : ¬ total items + x.length + y.length + 2 * (items.length + 3) < PBLKSIZ) :
    additem buf x y = none := by
  have hlast : (if items.length > 0 then sp buf items.length else PBLKSIZ) =
      PBLKSIZ - total items := (h.end_eq (le_refl _)).trans edge_length
  rw [additem]
  simp only [h.count, hlast]
  rw [if_pos (by omega)]

end Ndbm
