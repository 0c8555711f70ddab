/-
# When core is needed

A block is found for a request, in place or elsewhere, unless the free bytes around it and the
free runs elsewhere are too short; then `sbrk` is asked, and only if it fails is the result null.
-/
import SunOS.Libc.MallocStats

namespace Malloc

open Set
open Option
open FastFits Segments
open CartesianTree hiding insert

variable {h h' h2 : heap} {busy : Set Block} {a : Place} {o s w n nbpg p : ℤ}

/-! ## Headers and core -/

/-- What `getfreehdr` and `sbrk` go by. -/
def spare (h : heap) : ℕ × ℕ × List (Option ℕ) × ℤ :=
  (h.freehdrlist, h.nfreehdrs, h.supply, h.curbrk)

/-- What `sbrk` goes by. -/
def core (h : heap) : List (Option ℕ) × ℤ := (h.supply, h.curbrk)

/-- The bytes that free and busy blocks tile. -/
def used (h : heap) : Set ℤ := cover lo hi h.regions \ cover lo hi h.headers

/-- The other free blocks are apart from that of the node. -/
theorem StartsIn.others (hin : StartsIn h a o w) (hg : Good h busy) {c : Block}
    (hc : c ∈ (plug a.path (merge a.left a.right)).toList) :
    hi c < a.addr ∨ a.addr + a.size < c.1 := by
  have hap := hg.tiles.free.apart
  rw [← hin.node] at hap
  have hap' : Apart lo hi (plug a.path
    (CartesianTree.node a.left a.addr a.size a.right)).toList := hap
  rw [toList_plug_node, Apart, List.pairwise_append, List.pairwise_cons] at hap'
  have hc' : c ∈ before a.path ++ a.left.toList ∨ c ∈ a.right.toList ++ after a.path := by
    simp only [toList_plug, toList_merge, List.mem_append] at hc ⊢
    tauto
  rcases hc' with hc' | hc'
  · exact Or.inl (hap'.2.2 c hc' (a.addr, a.size) List.mem_cons_self)
  · exact Or.inr (hap'.2.1.1 c hc')

/-- The block `(o, s)` finds no place for `m` bytes: it cannot grow in place, and no run of free
bytes elsewhere is longer. -/
def NoRoom (h : heap) (o s m : ℤ) : Prop :=
  ¬ Set.Ico o (o + m) ⊆ span (o, s) ∪ room h._root ∧
    ∀ x, ¬ Set.Ico x (x + (m + 1)) ⊆ room h._root \ span (o, s)

/-- **`malloc` fails** exactly when no free block is larger and `sbrk` fails. -/
theorem malloc_null_iff (hg : Good h busy) (hpage : 0 < nbpg ∧ 4 ∣ nbpg) (hn : 0 < blockSize n)
    (hfit : weight h._root ≤ blockSize n → blockSize n + (nbpg - 1) < 4294967296) :
    (∃ h', malloc nbpg n h = some (h', 0)) ↔
      weight h._root ≤ blockSize n ∧ (sbrk (roundup (blockSize n) nbpg) h).2 = none := by
  constructor
  · rintro ⟨h', h1⟩
    rcases malloc_cases hg hpage hn hfit h1 with
      ⟨-, hw, hcall⟩ | ⟨h2, a, mx, -, hg2, hplug, -, h0, -⟩
    · refine ⟨hw, ?_⟩
      rcases morecore_cases hcall with ⟨-, hs⟩ | ⟨habs, -⟩
      · rw [hs]
      · cases habs
    · have hmem : (a.addr, a.size) ∈ h2._root.toList := by
        rw [← hplug]
        exact mem_plug_node
      have haddr := (hg2.tiles.freeWhole _ hmem).1.addr.1
      rw [WORDSIZE] at h0
      omega
  · rintro ⟨hw, hs⟩
    unfold malloc morecore
    simp only [if_pos hw]
    rcases hcall : sbrk (roundup (blockSize n) nbpg) h with ⟨h2, _ | p⟩
    · exact ⟨h2, rfl⟩
    · rw [hcall] at hs
      cases hs

end Malloc
