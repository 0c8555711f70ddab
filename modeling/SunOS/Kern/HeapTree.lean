/-
# The kernel's copies of the tree functions (`sys/heap_kmem.c`)

The kernel heap's `insert` begins at a link that its caller gives, `delete` does not look out for
blocks of no length, and the headers come from pages that `getpages` hands out.  `free_hdr_list` is
the list of free headers.
-/
import SunOS.Libc.FreeTree

namespace KmemTree

open LinkedTree FreeTree

variable {rest : List ℕ}

/-- `freehdr(p)`. -/
def freehdr (p : ℕ) (m : arena) : arena :=
  { (m.set (.left p) m.freehdrlist).set (.right p) NIL with
    block := Function.update m.block p 0
    freehdrlist := p }

/-- `getfreehdr()`, where `r` and `rest` are the headers of the next page if the list is empty. -/
def getfreehdr (r : ℕ) (rest : List ℕ) (m : arena) : ℕ × arena :=
  if m.freehdrlist ≠ NIL then
    (m.freehdrlist, { m with freehdrlist := m.link (.left m.freehdrlist) })
  else (r, rest.foldl (fun m p => freehdr p m) m)

/-- `insert(p, len, tree)`. -/
def insert (r : ℕ) (rest : List ℕ) (fuel : ℕ) (p : ℤ) (len : ℕ) (tree : Hook) (m : arena) :
    Option arena :=
  insertWith (getfreehdr r rest) fuel p len tree m

/-- `delete(p)`. -/
def delete (fuel : ℕ) (p : Hook) (m : arena) : Option arena :=
  (deleteWith false fuel p m).map (freehdr (m.link p))

/-- `demote(p)`. -/
def demote (fuel : ℕ) (p : Hook) (m : arena) : Option arena := FreeTree.demote fuel p m

variable {m : arena} {as fs : List ℕ} {fuel : ℕ}

theorem freehdr_link {p : ℕ} {g : Hook} (hl : g ≠ .left p) (hr : g ≠ .right p) :
    (freehdr p m).link g = m.link g := by
  show ((m.set (.left p) m.freehdrlist).set (.right p) NIL).link g = m.link g
  rw [arena.set_link_of_ne hr, arena.set_link_of_ne hl]

theorem freehdr_next (p : ℕ) : (freehdr p m).link (.left p) = m.freehdrlist := by
  show ((m.set (.left p) m.freehdrlist).set (.right p) NIL).link (.left p) = m.freehdrlist
  rw [arena.set_link_of_ne (fun he => Hook.noConfusion he), arena.set_link_self]

theorem freehdr_info {p a : ℕ} (h : a ≠ p) : (freehdr p m).info a = m.info a := by
  show (Function.update m.block p 0 a, m.size a) = (m.block a, m.size a)
  rw [Function.update_of_ne h]

theorem puts_freehdr : Puts freehdr where
  head _ _ := rfl
  next x _ := freehdr_next x
  link _ _ _ hl hr := freehdr_link hl hr
  info _ _ _ h := freehdr_info h

/-- The headers of a page are put on the list one by one. -/
theorem page_spec (as : List ℕ) (hs : Chain (fun a => m.link (.left a)) m.freehdrlist fs)
    (hne : NIL ∉ rest) (hn : (as ++ (rest.reverse ++ fs)).Nodup) :
    Chain (fun a => (rest.foldl (fun m p => freehdr p m) m).link (.left a))
        (rest.foldl (fun m p => freehdr p m) m).freehdrlist (rest.reverse ++ fs) ∧
      (∀ g : Hook, g = .root ∨ g.In as →
        (rest.foldl (fun m p => freehdr p m) m).link g = m.link g) ∧
      ∀ a ∈ as, (rest.foldl (fun m p => freehdr p m) m).info a = m.info a := by
  induction rest generalizing m fs with
  | nil => exact ⟨hs, fun _ _ => rfl, fun _ _ => rfl⟩
  | cons p rest ih =>
    obtain ⟨hp, hne⟩ := not_or.mp (mt List.mem_cons.mpr hne)
    rw [List.reverse_cons, List.append_assoc, List.singleton_append] at hn ⊢
    obtain ⟨-, hn2, hd⟩ := List.nodup_append'.mp hn
    obtain ⟨hpf, -⟩ := List.nodup_cons.mp (List.nodup_append'.mp hn2).2.1
    have hpas : p ∉ as := fun hin =>
      hd hin (List.mem_append_right _ List.mem_cons_self)
    have hs' : Chain (fun a => (freehdr p m).link (.left a)) (freehdr p m).freehdrlist
        (p :: fs) := by
      refine ⟨rfl, fun h0 => hp h0.symm, ?_⟩
      show Chain _ ((freehdr p m).link (.left p)) fs
      rw [freehdr_next]
      apply hs.congr
      intro b hb
      apply freehdr_link _ (fun he => Hook.noConfusion he)
      rintro ⟨rfl⟩
      exact hpf hb
    obtain ⟨h1, h2, h3⟩ := ih hs' hne hn
    refine ⟨h1, fun g hg => ?_, fun a ha => ?_⟩
    · rw [List.foldl_cons, h2 g hg]
      apply freehdr_link
      · rintro rfl
        exact hg.elim (fun he => Hook.noConfusion he) hpas
      · rintro rfl
        exact hg.elim (fun he => Hook.noConfusion he) hpas
    · rw [List.foldl_cons, h3 a ha, freehdr_info (ne_of_mem_of_not_mem ha hpas)]

/-- The headers that are free after one was taken. -/
def left (rest fs : List ℕ) : List ℕ := if fs = [] then rest.reverse else fs.tail

/-- The headers of the next page are none of those in use. -/
def Page (as : List ℕ) (r : ℕ) (rest : List ℕ) : Prop :=
  NIL ∉ r :: rest ∧ (as ++ r :: rest).Nodup

theorem getfreehdr_spec {r : ℕ} (h : Free m as fs) (hpage : fs = [] → Page as r rest) :
    ∃ x m1, getfreehdr r rest m = (x, m1) ∧ Gets m as x (left rest fs) m1 := by
  cases fs with
  | nil =>
    obtain ⟨hne, hn⟩ := hpage rfl
    obtain ⟨hr, hne⟩ := not_or.mp (mt List.mem_cons.mpr hne)
    have hn' : (r :: (as ++ rest)).Nodup := (List.Perm.nodup_iff List.perm_middle).mp hn
    have hperm : (as ++ rest.reverse).Perm (as ++ rest) := rest.reverse_perm.append_left as
    have hrev : (r :: (as ++ rest.reverse)).Nodup := (hperm.cons r).nodup_iff.mpr hn'
    obtain ⟨h1, h2, h3⟩ := page_spec as h.spare hne (by
      rw [List.append_nil]
      exact (List.nodup_cons.mp hrev).2)
    rw [List.append_nil] at h1
    refine ⟨r, _, if_neg (not_not.mpr h.spare), fun h0 => hr h0.symm, ?_, h2, h3, ?_⟩
    · rw [left, if_pos rfl]
      exact hrev
    · rw [left, if_pos rfl]
      exact h1
  | cons b fs =>
    obtain ⟨hb, hne, hspare⟩ := h.spare
    refine ⟨b, { m with freehdrlist := m.link (.left b) }, ?_, hne, ?_, fun _ _ => rfl,
      fun _ _ => rfl, hspare⟩
    · rw [getfreehdr, hb, if_pos (show b ≠ NIL from hne)]
    · exact (List.Perm.nodup_iff List.perm_middle).mp h.apart

/-- **The free blocks stay a Cartesian tree**, in the C library and in the kernel: `insert` of a
block that overlaps none, `delete` of any node and `demote` of a node whose size was reduced. -/
theorem cartesian_kept (h : Free m as fs) (hfuel : as.length < fuel) :
    (∀ (newblk : ℤ) (len : ℕ), 0 < len → NonOverlapping m as newblk len →
      (∀ fresh : ℕ, (fs = [] → fresh ≠ NIL ∧ fresh ∉ as) →
        ∃ m' x, FreeTree.insert fresh fuel newblk len m = some m' ∧
          Inserted m as fs.tail newblk len x m' ∧ m'.length newblk = len) ∧
      ∀ (r : ℕ) (rest : List ℕ), (fs = [] → Page as r rest) →
        ∃ m' x, insert r rest fuel newblk len .root m = some m' ∧
          Inserted m as (left rest fs) newblk len x m') ∧
    (∀ p : Hook, p = .root ∨ p.In as → m.link p ≠ NIL →
      (∃ m', FreeTree.delete fuel p m = some m' ∧ Deleted m as fs (m.link p) m') ∧
      ∃ m', delete fuel p m = some m' ∧ Deleted m as fs (m.link p) m') ∧
    ∀ (p : Hook) (b : ℤ) (n : ℕ), p = .root ∨ p.In as → m.link p ≠ NIL → 0 < n →
      n ≤ m.size (m.link p) →
      (as.Pairwise fun a c => (m.put (m.link p) b n).block a < (m.put (m.link p) b n).block c) →
      (∃ m', FreeTree.demote fuel p (m.put (m.link p) b n) = some m' ∧
        Demoted (m.put (m.link p) b n) as fs m') ∧
      ∃ m', demote fuel p (m.put (m.link p) b n) = some m' ∧
        Demoted (m.put (m.link p) b n) as fs m' := by
  refine ⟨fun newblk len hlen hsep => ⟨fun fresh hnew => ?_, fun r rest hpage => ?_⟩,
    fun p hp hx => ⟨?_, ?_⟩, fun p b n hp hx hn hle horder => ?_⟩
  · exact insert_inserted h hnew hlen hsep hfuel
  · obtain ⟨x, m1, hget, hg⟩ := getfreehdr_spec h hpage
    obtain ⟨m', hrun, hins⟩ := insertWith_spec h hg hget hlen hsep hfuel
    exact ⟨m', x, hrun, hins⟩
  · exact delete_deleted puts_putfreehdr true h hp hx hfuel
  · exact delete_deleted puts_freehdr false h hp hx hfuel
  · have hdemoted := demote_demoted h hp hx hn hle horder hfuel
    exact ⟨hdemoted, hdemoted⟩

/-- Two blocks of one size, and a free header. -/
def two : arena where
  link g := if g = .root then 1 else if g = .right 1 then 2 else 0
  block x := if x = 1 then 100 else 200
  size _ := 8
  freehdrlist := 3
  length _ := 0
  errno := 0

theorem two_free : Free two [1, 2] [3] where
  tree := by
    refine ⟨.node .nil 100 8 (.node .nil 200 8 .nil), ?_, ?_⟩
    · exact ⟨by decide, rfl, [], [2], rfl, ⟨rfl, rfl⟩, by decide, rfl, [], [], rfl, ⟨rfl, rfl⟩,
        rfl, rfl⟩
    · exact CartesianTree.heap_node_iff.mpr ⟨by decide, by decide, trivial,
        CartesianTree.heap_node_iff.mpr ⟨by decide, by decide, trivial, trivial⟩⟩
  order := by decide
  positive := by decide
  spare := ⟨rfl, by decide, rfl⟩
  apart := by decide

theorem cartesian_kept_two :
    (∃ m' x, FreeTree.insert 4 3 300 8 two = some m' ∧
      Inserted two [1, 2] [] 300 8 x m' ∧ m'.length 300 = 8) ∧
    (∃ m', delete 3 .root two = some m' ∧ Deleted two [1, 2] [3] 1 m') ∧
    ∃ m', demote 3 .root (two.put 1 100 4) = some m' ∧ Demoted (two.put 1 100 4) [1, 2] [3] m' :=
  ⟨((cartesian_kept two_free (show 2 < 3 by decide)).1 300 8 (by decide)
      (by unfold NonOverlapping; decide)).1 4 (fun h => by cases h),
    ((cartesian_kept two_free (show 2 < 3 by decide)).2.1 .root (Or.inl rfl) (by decide)).2,
    ((cartesian_kept two_free (show 2 < 3 by decide)).2.2 .root 100 4 (Or.inl rfl) (by decide)
      (by decide) (by decide) (by decide)).2⟩

end KmemTree
