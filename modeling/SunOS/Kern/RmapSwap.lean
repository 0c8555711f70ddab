/-
# `rmalloc` of `swapmap`

With several swap devices an allocation must not cross a multiple of `dmmax`.  A segment that does
is cut there: the part before stays, the units come from the part after, and what is left of that
goes back through `rmfree`, which may discard a segment when the map overflows.
-/
import SunOS.Kern.RmapRuns

namespace Rmap

open Option
open List
open Segments

variable {m m' : map} {sw : Swap} {size r : ℤ} {l l1 l2 ts : List mapent} {b t : mapent}

/-- The units from `r` on lie between two multiples of `dmmax`. -/
def Within (dmmax r size : ℤ) : Prop := ∃ k, k * dmmax ≤ r ∧ r + size ≤ (k + 1) * dmmax

/-- The segments of `m` once the one that contains `r` is cut there. -/
def cut (m : map) (r : ℤ) : List mapent :=
  (segs m.slots).map fun b => if lo b < r ∧ r < hi b then { b with m_size := r - lo b } else b

/-- The units up to the next multiple of `dmmax`. -/
def toBoundary (sw : Swap) (b : mapent) : ℤ := sw.dmmax - b.m_addr.tmod sw.dmmax

/-- What `swapmap` is about: more than one device, with an `int` for `dmmax`. -/
structure Interleaved (sw : Swap) : Prop where
  nswdev : 1 < sw.nswdev
  dmmax : 0 < sw.dmmax ∧ sw.dmmax ≤ INT_MAX

/-- Between two multiples of `dmmax` there are `dmmax` units. -/
theorem toBoundary_spec (hsw : Interleaved sw) (hb : Sound b) :
    0 < toBoundary sw b ∧ toBoundary sw b ≤ sw.dmmax ∧
      ∃ k, b.m_addr + toBoundary sw b = (k + 1) * sw.dmmax ∧ k * sw.dmmax ≤ b.m_addr := by
  have hpos := hsw.dmmax.1
  have hmod : b.m_addr.tmod sw.dmmax = b.m_addr % sw.dmmax :=
    Int.tmod_eq_emod_of_nonneg (le_of_lt hb.1)
  have h0 := Int.emod_nonneg b.m_addr (ne_of_gt hpos)
  have hlt := Int.emod_lt_of_pos b.m_addr hpos
  have hdiv := Int.mul_ediv_add_emod b.m_addr sw.dmmax
  have hcomm : sw.dmmax * (b.m_addr / sw.dmmax) = b.m_addr / sw.dmmax * sw.dmmax := mul_comm _ _
  rw [toBoundary, hmod]
  refine ⟨by omega, by omega, b.m_addr / sw.dmmax, ?_, by omega⟩
  rw [add_mul, one_mul]
  omega

/-- A segment is cut when it reaches past the next boundary. -/
theorem boundary_eq (hsw : Interleaved sw) (hb : Sound b) :
    boundary (some sw) b = if toBoundary sw b < b.m_size then some (toBoundary sw b) else none := by
  obtain ⟨hpos, hle, -⟩ := toBoundary_spec hsw hb
  have hmax := hsw.dmmax.2
  have hint : int32 (sw.dmmax - b.m_addr.tmod sw.dmmax) = toBoundary sw b :=
    int32_of_fits (by rw [fits_iff]; rw [toBoundary] at *; have : INT_MAX =
      2147483647 := rfl; omega)
  simp only [boundary, hint, gt_iff_lt, hsw.nswdev, true_and]

/-! ## The search -/

/-- What the search finds: nothing, a segment out of line with `CLSIZE`, a segment between two
boundaries, or one with enough units after a boundary. -/
inductive Found (sw : Swap) (size : ℤ) (l : List mapent) (t : mapent) (ts : List mapent) :
    Option Fit → Prop
  | nothing : Found sw size l t ts (some ⟨l ++ t :: ts, 0, 0, none⟩)
  | unaligned (b : mapent) : b ∈ l → b.m_addr.tmod sw.clsize ≠ 0 → Found sw size l t ts none
  | whole (l1 : List mapent) (b : mapent) (l2 : List mapent) : l = l1 ++ b :: l2 →
      b.m_size = size → size ≤ toBoundary sw b →
      Found sw size l t ts (some ⟨l1 ++ l2 ++ t :: t :: ts, b.m_addr, 1, none⟩)
  | front (l1 : List mapent) (b : mapent) (l2 : List mapent) : l = l1 ++ b :: l2 →
      size < b.m_size → b.m_size ≤ toBoundary sw b →
      Found sw size l t ts
        (some ⟨l1 ++ [⟨b.m_size - size, b.m_addr + size⟩] ++ l2 ++ t :: ts, b.m_addr, 0, none⟩)
  | after (l1 : List mapent) (b : mapent) (l2 : List mapent) : l = l1 ++ b :: l2 →
      toBoundary sw b + size ≤ b.m_size →
      Found sw size l t ts
        (some ⟨l1 ++ [⟨toBoundary sw b, b.m_addr⟩] ++ l2 ++ t :: ts, b.m_addr + toBoundary sw b, 0,
          if b.m_size - toBoundary sw b - size ≠ 0 then
            some (b.m_size - toBoundary sw b - size, b.m_addr + toBoundary sw b + size)
          else none⟩)

/-- A search that passes a segment. -/
theorem Found.pass {f : Option Fit} (h : Found sw size l t ts f) :
    Found sw size (b :: l) t ts (f.map fun f => { f with slots := b :: f.slots }) := by
  cases h with
  | nothing => exact .nothing
  | unaligned c hc hmod => exact .unaligned c (mem_cons_of_mem _ hc) hmod
  | whole l1 c l2 hl hsize hb => exact .whole (b :: l1) c l2 (by rw [hl]; rfl) hsize hb
  | front l1 c l2 hl hsize hb => exact .front (b :: l1) c l2 (by rw [hl]; rfl) hsize hb
  | after l1 c l2 hl hb => exact .after (b :: l1) c l2 (by rw [hl]; rfl) hb

/-- **The search.** -/
theorem rmallocLoop_found (hsw : Interleaved sw) (hpos : 0 < size) (l : List mapent)
    (hs : ∀ b ∈ l, Sound b) {t : mapent} (ht : t.m_size = 0) (ts : List mapent) :
    Found sw size l t ts (rmallocLoop (some sw) size (l ++ t :: ts)) := by
  induction l with
  | nil =>
    rw [nil_append, rmallocLoop, if_pos ht]
    exact .nothing
  | cons b l ih =>
    obtain ⟨hb1, hb2, hb3⟩ := hs b mem_cons_self
    have hmax : INT_MAX = 2147483647 := rfl
    have ih := ih fun x hx => hs x (mem_cons_of_mem _ hx)
    have hne : ∀ x ∈ l, x.m_size ≠ 0 := fun x hx =>
      ne_of_gt (hs x (mem_cons_of_mem _ hx)).2.1
    have hb : Sound b := ⟨hb1, hb2, hb3⟩
    obtain ⟨hf1, hf2, -⟩ := toBoundary_spec hsw hb
    rw [cons_append, rmallocLoop, if_neg (by lia), boundary_eq hsw hb]
    by_cases hfit : b.m_size ≥ size
    · rw [if_pos hfit]
      by_cases hcut : toBoundary sw b < b.m_size
      · simp only [if_pos hcut]
        have h1 : int32 (b.m_size - toBoundary sw b) = b.m_size - toBoundary sw b :=
          int32_of_fits (by rw [fits_iff]; lia)
        by_cases hroom : b.m_size - toBoundary sw b < size
        · rw [h1, if_pos hroom]
          exact ih.pass
        · have h2 : int32 (b.m_addr + toBoundary sw b) = b.m_addr + toBoundary sw b :=
            int32_of_fits (by rw [fits_iff]; lia)
          have h3 : int32 (b.m_size - toBoundary sw b - size) = b.m_size - toBoundary sw b - size :=
            int32_of_fits (by rw [fits_iff]; lia)
          have h4 : int32 (b.m_addr + toBoundary sw b + size) = b.m_addr + toBoundary sw b + size :=
            int32_of_fits (by rw [fits_iff]; lia)
          rw [h1, if_neg hroom, h2, h3, h4]
          exact .after [] b l rfl (by lia)
      · simp only [if_neg hcut, any_some]
        by_cases hmod : b.m_addr.tmod sw.clsize = 0
        · have h1 : int32 (b.m_size - size) = b.m_size - size :=
            int32_of_fits (by rw [fits_iff]; lia)
          have h2 : int32 (b.m_addr + size) = b.m_addr + size :=
            int32_of_fits (by rw [fits_iff]; lia)
          simp only [hmod, ne_eq, not_true_eq_false, decide_false, Bool.false_eq_true, if_false, h1,
            h2]
          by_cases heq : b.m_size = size
          · rw [if_pos (by lia), compress_segs _ hne ht]
            exact .whole [] b l rfl heq (by lia)
          · rw [if_neg (by lia)]
            exact .front [] b l rfl (by lia) (by lia)
        · rw [if_pos (by simpa using hmod)]
          exact .unaligned b mem_cons_self hmod
    · rw [if_neg hfit]
      exact ih.pass

/-! ## What is taken -/

variable {mapsize : ℕ}

/-- A well formed map with `int`s for the ends of its segments. -/
theorem WellFormed.holds (h : WellFormed mapsize m) (hcap : 2 ≤ mapsize)
    (hint : ∀ b ∈ segs m.slots, b.m_addr + b.m_size ≤ INT_MAX) : Holds m (segs m.slots) := by
  have hpre : segs m.slots <+: m.slots := takeWhile_prefix _
  have heq := List.prefix_iff_eq_append.mp hpre
  have hcount := h.count
  have hsize := h.size
  refine ⟨⟨m.slots.drop (segs m.slots).length, heq.symm, h.zeros, ?_⟩, ?_, h.apart⟩
  · rw [length_drop]
    omega
  · exact fun b hb => ⟨(h.positive b hb).2, (h.positive b hb).1, hint b hb⟩

theorem segs_append (hl : ∀ x ∈ l, x.m_size ≠ 0) (ht : t.m_size = 0) (ts : List mapent) :
    segs (l ++ t :: ts) = l := by
  rw [segs, (walk_split l (by simp [ht]) ts).1]
  exact List.takeWhile_eq_self_iff.mpr fun x hx => by simpa using hl x hx

/-- The units just before and just after a segment are not free. -/
theorem Holds.around (h : Holds m (l1 ++ b :: l2)) :
    lo b - 1 ∉ cover lo hi (l1 ++ b :: l2) ∧ hi b ∉ cover lo hi (l1 ++ b :: l2) := by
  have hap := h.apart
  rw [Apart, pairwise_append, pairwise_cons] at hap
  obtain ⟨-, ⟨hright, -⟩, hleft⟩ := hap
  obtain ⟨-, hb2, -⟩ := h.sound b (by simp)
  have hb : lo b < hi b := by simp only [lo, hi]; omega
  have hside : ∀ x ∈ l1 ++ b :: l2, hi x < lo b ∨ x = b ∨ hi b < lo x := by
    intro x hx
    rcases List.mem_append.mp hx with hx | hx
    · exact Or.inl (hleft x hx b mem_cons_self)
    · rcases List.mem_cons.mp hx with rfl | hx
      · exact Or.inr (Or.inl rfl)
      · exact Or.inr (Or.inr (hright x hx))
  constructor
  · rintro ⟨x, hx, hlo, hhi⟩
    rcases hside x hx with h1 | rfl | h1 <;> omega
  · rintro ⟨x, hx, hlo, hhi⟩
    rcases hside x hx with h1 | rfl | h1 <;> omega

/-- Only one segment is cut. -/
theorem Holds.cut_eq (h : Holds m (l1 ++ b :: l2)) (hr : lo b < r ∧ r < hi b) :
    cut m r = l1 ++ { b with m_size := r - lo b } :: l2 := by
  have hap := h.apart
  rw [Apart, pairwise_append, pairwise_cons] at hap
  obtain ⟨-, ⟨hright, -⟩, hleft⟩ := hap
  have hself : ∀ k : List mapent, (∀ x ∈ k, ¬ (lo x < r ∧ r < hi x)) →
      k.map (fun b => if lo b < r ∧ r < hi b then { b with m_size := r - lo b } else b) = k := by
    intro k hk
    conv_rhs => rw [← map_id k]
    exact map_congr_left fun x hx => if_neg (hk x hx)
  rw [cut, h.segs_eq, map_append, map_cons, if_pos hr, hself, hself]
  · intro x hx hxr
    have := hright x hx
    omega
  · intro x hx hxr
    have := hleft x hx b mem_cons_self
    omega

instance (m : map) (u : ℤ) : Decidable (u ∈ freeUnits m) :=
  inferInstanceAs (Decidable (∃ s ∈ segs m.slots, lo s ≤ u ∧ u < hi s))

/-- **What a successful call does.**  The units lie between two boundaries, were free, and are all
that is taken, unless a piece must go back and there is no slot for it: then one of the last two
segments is lost. -/
def Took (sw : Swap) (mapsize : ℕ) (m m' : map) (r size : ℤ) : Prop :=
  Within sw.dmmax r size ∧ Set.Ico r (r + size) ⊆ freeUnits m ∧ WellFormed mapsize m' ∧
    (∀ b ∈ segs m'.slots, b.m_addr + b.m_size ≤ INT_MAX) ∧
    if m.m_free = 0 ∧ r - 1 ∈ freeUnits m ∧ r + size ∈ freeUnits m then
      ∃ l x y, cut m r = l ++ [x, y] ∧
        freeUnits m' = (freeUnits m \ Set.Ico r (r + size)) \ Set.Ico (lo (lost x y))
          (hi (lost x y))
    else freeUnits m' = freeUnits m \ Set.Ico r (r + size)

/-- Units from the front of a segment, up to a boundary at most. -/
theorem within_front (hsw : Interleaved sw) (hb : Sound b) (hle : size ≤ toBoundary sw b) :
    Within sw.dmmax b.m_addr size := by
  obtain ⟨-, -, k, hk, hlo⟩ := toBoundary_spec hsw hb
  exact ⟨k, hlo, by omega⟩

/-- Units from a boundary on. -/
theorem within_after (hsw : Interleaved sw) (hb : Sound b) (hle : size ≤ sw.dmmax) :
    Within sw.dmmax (b.m_addr + toBoundary sw b) size := by
  obtain ⟨-, -, k, hk, -⟩ := toBoundary_spec hsw hb
  refine ⟨k + 1, le_of_eq hk.symm, ?_⟩
  rw [hk, add_mul (k + 1) 1, one_mul]
  omega

/-- What is taken without giving anything back. -/
theorem Takes.took (h : Holds m l) (hsize : m.slots.length + 1 = mapsize)
    (ht : Takes m m' l r size) (hw : Within sw.dmmax r size)
    (hedge : r - 1 ∉ freeUnits m ∨ r + size ∉ freeUnits m) : Took sw mapsize m m' r size := by
  obtain ⟨l', hl', hlen, -, hsub, hcov⟩ := ht
  refine ⟨hw, h.freeUnits_eq ▸ hsub, hl'.wellFormed (hlen ▸ hsize), ?_, ?_⟩
  · rw [hl'.segs_eq]
    exact fun b hb => (hl'.sound b hb).2.2
  · have hno : ¬ (m.m_free = 0 ∧ r - 1 ∈ freeUnits m ∧ r + size ∈ freeUnits m) :=
      fun hc => hedge.elim (fun hn => hn hc.2.1) fun hn => hn hc.2.2
    rw [if_neg hno, hl'.freeUnits_eq, h.freeUnits_eq, hcov]

/-- Units are taken to the end of a segment, others lost, and the end of the segment put back. -/
theorem give_back {C L : Set ℤ} {a n k : ℤ} (hn : 0 < n) (hk : 0 ≤ k)
    (hC : Set.Ico (a + n) (a + n + k) ⊆ C) (hL : L ⊆ C \ Set.Ico a (a + n + k)) :
    (C \ Set.Ico a (a + n + k)) \ L ∪ Set.Ico (a + n) (a + n + k) =
      (C \ Set.Ico a (a + n)) \ L := by
  ext u
  have h1 := @hC u
  have h2 := @hL u
  simp only [Set.mem_union, Set.mem_sdiff, Set.mem_Ico] at *
  constructor
  · rintro (⟨⟨hu, hnot⟩, hl⟩ | hu)
    · exact ⟨⟨hu, by omega⟩, hl⟩
    · refine ⟨⟨h1 hu, by omega⟩, fun hl => (h2 hl).2 (by omega)⟩
  · rintro ⟨⟨hu, hnot⟩, hl⟩
    by_cases hc : a + n ≤ u ∧ u < a + n + k
    · exact Or.inr hc
    · exact Or.inl ⟨⟨hu, by omega⟩, hl⟩

/-- What is left after the units goes back to a map whose segment was cut before them. -/
theorem took_giveBack {m1 : map} (hsw : Interleaved sw) (hcap : 4 ≤ mapsize)
    (hsize : m.slots.length + 1 = mapsize) (h : Holds m (l1 ++ b :: l2)) (hpos : 0 < size)
    (hle : size ≤ sw.dmmax) (hroom : toBoundary sw b + size < b.m_size)
    (h1 : Takes m m1 (l1 ++ b :: l2) (b.m_addr + toBoundary sw b) (b.m_size - toBoundary sw b))
    (hsegs : segs m1.slots = l1 ++ { b with m_size := toBoundary sw b } :: l2)
    (hfree : m1.m_free = m.m_free) :
    ∃ m', rmfree (b.m_size - toBoundary sw b - size) (b.m_addr + toBoundary sw b + size) m1 =
        some m' ∧
      Took sw mapsize m m' (b.m_addr + toBoundary sw b) size := by
  have hb := h.sound b (by simp)
  obtain ⟨hb1, hb2, hb3⟩ := hb
  have hb : Sound b := ⟨hb1, hb2, hb3⟩
  obtain ⟨hf1, -, -⟩ := toBoundary_spec hsw hb
  generalize hfirst : toBoundary sw b = first at *
  obtain ⟨l', hl', hlen, -, hsub, hcov⟩ := h1
  have hl'eq : l' = l1 ++ { b with m_size := first } :: l2 := by
    rw [← hl'.segs_eq, hsegs]
  have hbm : b ∈ l1 ++ b :: l2 := by simp
  have hdis : Disjoint (Set.Ico (b.m_addr + first + size)
      (b.m_addr + first + size + (b.m_size - first - size))) (cover lo hi l') := by
    rw [hcov, Set.disjoint_left]
    intro u hu hu'
    refine hu'.2 ?_
    simp only [Set.mem_Ico] at hu ⊢
    lia
  have hcount : 2 ≤ l'.length + m1.m_free := by
    obtain ⟨tl, hsl, -, htl⟩ := h.slots
    rw [hl'eq, hfree]
    rw [hsl, length_append] at hsize
    simp only [length_append, length_cons] at hsize ⊢
    lia
  obtain ⟨m', hm', hres⟩ := @rmfree_holds _ _ (b.m_addr + first + size)
    (b.m_size - first - size) hl' hcount ⟨by lia, by lia, by lia⟩ hdis
  refine ⟨m', hm', ?_⟩
  have hbefore : b.m_addr + first - 1 ∈ freeUnits m := by
    rw [h.freeUnits_eq]
    exact ⟨b, hbm, by simp only [lo]; lia, by simp only [hi]; lia⟩
  have hafter : b.m_addr + first + size ∈ freeUnits m := by
    rw [h.freeUnits_eq]
    exact ⟨b, hbm, by simp only [lo]; lia, by simp only [hi]; lia⟩
  -- the piece that goes back touches no segment
  have hap := h.apart
  rw [Apart, pairwise_append, pairwise_cons] at hap
  obtain ⟨-, ⟨hright, -⟩, hleft⟩ := hap
  have htouch : ¬ Touches l' (b.m_addr + first + size) (b.m_size - first - size) := by
    rintro ⟨x, hx, hxa⟩
    rw [hl'eq] at hx
    rcases List.mem_append.mp hx with hx | hx
    · obtain ⟨-, hx2, -⟩ := h.sound x (by simp [hx])
      have := hleft x hx b mem_cons_self
      simp only [lo, hi] at *
      lia
    · rcases List.mem_cons.mp hx with rfl | hx
      · simp only [lo, hi] at *
        lia
      · obtain ⟨-, hx2, -⟩ := h.sound x (by simp [hx])
        have := hright x hx
        simp only [lo, hi] at *
        lia
  have hsub' : Set.Ico (b.m_addr + first) (b.m_addr + first + size) ⊆ freeUnits m := by
    rw [h.freeUnits_eq]
    refine fun u hu => hsub ?_
    simp only [Set.mem_Ico] at hu ⊢
    lia
  have hwithin : Within sw.dmmax (b.m_addr + first) size := hfirst ▸ within_after hsw hb hle
  have htail : Set.Ico (b.m_addr + first + size)
      (b.m_addr + first + size + (b.m_size - first - size)) ⊆ cover lo hi (l1 ++ b :: l2) := by
    intro u hu
    rw [Set.mem_Ico] at hu
    exact ⟨b, hbm, by simp only [lo]; lia, by simp only [hi]; lia⟩
  have hend : b.m_addr + first + (b.m_size - first) =
      b.m_addr + first + size + (b.m_size - first - size) := by lia
  rw [hend] at hcov
  have hcut : cut m (b.m_addr + first) = l' := by
    rw [h.cut_eq ⟨by simp only [lo]; lia, by simp only [hi]; lia⟩, hl'eq]
    have hmsize : b.m_addr + first - lo b = first := by simp only [lo]; lia
    rw [hmsize]
  by_cases hroom1 : 0 < m1.m_free
  · rw [if_pos (Or.inl hroom1)] at hres
    obtain ⟨l'', hl'', hlen'', -, hcov''⟩ := hres
    refine ⟨hwithin, hsub', hl''.wellFormed (hlen'' ▸ hlen ▸ hsize), ?_, ?_⟩
    · rw [hl''.segs_eq]
      exact fun x hx => (hl''.sound x hx).2.2
    · have hback := give_back (C := cover lo hi (l1 ++ b :: l2)) (L := ∅) hpos (by lia) htail
        (Set.empty_subset _)
      rw [Set.sdiff_empty, Set.sdiff_empty] at hback
      rw [if_neg fun hc => by lia, hl''.freeUnits_eq, hcov'', hcov, h.freeUnits_eq, hback]
  · rw [if_neg (not_or.mpr ⟨hroom1, htouch⟩)] at hres
    obtain ⟨l0, x, y, hlxy, l'', hl'', hlen'', -, hcov''⟩ := hres
    refine ⟨hwithin, hsub', hl''.wellFormed (hlen'' ▸ hlen ▸ hsize), ?_, ?_⟩
    · rw [hl''.segs_eq]
      exact fun z hz => (hl''.sound z hz).2.2
    · rw [if_pos ⟨by lia, hbefore, hafter⟩]
      refine ⟨l0, x, y, hcut.trans hlxy, ?_⟩
      have hlost : lost x y ∈ l' := by
        rw [hlxy, lost]
        split_ifs <;> simp
      have hL : Set.Ico (lo (lost x y)) (hi (lost x y)) ⊆ cover lo hi (l1 ++ b :: l2) \
          Set.Ico (b.m_addr + first)
            (b.m_addr + first + size + (b.m_size - first - size)) := by
        rw [← hcov]
        exact fun u hu => ⟨lost x y, hlost, hu⟩
      rw [hl''.freeUnits_eq, hcov'', hcov, h.freeUnits_eq, give_back hpos (by lia) htail hL]

/-- What `rmalloc` does to the segments of `swapmap`. -/
theorem rmalloc_took (hsw : Interleaved sw) (hcap : 4 ≤ mapsize) (h : Holds m l)
    (hsize : m.slots.length + 1 = mapsize) (hpos : 0 < size) (hle : size ≤ sw.dmmax) :
    (rmalloc (some sw) size m = none ∧ ∃ b ∈ l, b.m_addr.tmod sw.clsize ≠ 0) ∨
      ∃ m' r, rmalloc (some sw) size m = some (m', r) ∧
        (r = 0 ∧ m' = m ∨ 0 < r ∧ Took sw mapsize m m' r size) := by
  obtain ⟨tl, hsl, hz, hlen⟩ := h.slots
  obtain ⟨t, ts, rfl⟩ : ∃ t ts, tl = t :: ts := by
    cases tl with
    | nil => simp at hlen
    | cons t ts => exact ⟨t, ts, rfl⟩
  have ht : t.m_size = 0 := hz t mem_cons_self
  have hts : ts.length = m.m_free := by simpa using hlen
  have hfound := rmallocLoop_found hsw hpos l h.sound ht ts
  rw [← hsl] at hfound
  rw [rmalloc, if_neg (by simp; lia), bind_eq_bind]
  generalize rmallocLoop (some sw) size m.slots = f at hfound
  cases hfound with
  | nothing =>
    refine Or.inr ⟨_, _, rfl, Or.inl ⟨rfl, ?_⟩⟩
    simp only [← hsl, Nat.add_zero]
  | unaligned b hb hmod => exact Or.inl ⟨rfl, b, hb, hmod⟩
  | whole l1 b l2 hl heq hb =>
    subst hl
    have hsound := h.sound b (by simp)
    refine Or.inr ⟨_, _, rfl, Or.inr ⟨hsound.1, ?_⟩⟩
    refine Takes.took h hsize ?_ (within_front hsw hsound hb) (Or.inl ?_)
    · rw [← heq]
      exact takes_whole h hsl hz hts rfl rfl
    · rw [h.freeUnits_eq]
      exact h.around.1
  | front l1 b l2 hl hlt hb =>
    subst hl
    have hsound := h.sound b (by simp)
    refine Or.inr ⟨_, _, rfl, Or.inr ⟨hsound.1, ?_⟩⟩
    refine Takes.took h hsize ?_ (within_front hsw hsound (by lia)) (Or.inl ?_)
    · exact takes_front h hsl hz hts hpos hlt rfl rfl
    · rw [h.freeUnits_eq]
      exact h.around.1
  | after l1 b l2 hl hroom =>
    subst hl
    have hsound := h.sound b (by simp)
    obtain ⟨hf1, -, -⟩ := toBoundary_spec hsw hsound
    have hb1 := hsound.1
    have htakes : ∀ m1 : map, m1.slots = l1 ++ [⟨toBoundary sw b, b.m_addr⟩] ++ l2 ++ t :: ts →
        m1.m_free = m.m_free → Takes m m1 (l1 ++ b :: l2) (b.m_addr + toBoundary sw b)
          (b.m_size - toBoundary sw b) := by
      intro m1 hslots hfree
      refine takes_back h hsl hz hts (by lia) (by lia) (by lia) ?_ hfree
      rw [hslots, Int.sub_sub_self]
    refine Or.inr ?_
    by_cases hrest : b.m_size - toBoundary sw b - size = 0
    · have hexact : b.m_size - toBoundary sw b = size := by lia
      rw [hrest]
      refine ⟨_, _, rfl, Or.inr ⟨by lia, ?_⟩⟩
      refine Takes.took h hsize ?_ (within_after hsw hsound hle) (Or.inr ?_)
      · rw [← hexact]
        exact htakes _ rfl rfl
      · rw [h.freeUnits_eq]
        have hend : b.m_addr + toBoundary sw b + size = hi b := by simp only [hi]; lia
        rw [hend]
        exact h.around.2
    · rw [if_pos hrest]
      simp only [bind_some, Nat.add_zero]
      have h1 := htakes { m with
        slots := l1 ++ [⟨toBoundary sw b, b.m_addr⟩] ++ l2 ++ t :: ts } rfl rfl
      have hne : ∀ x ∈ l1 ++ [⟨toBoundary sw b, b.m_addr⟩] ++ l2, x.m_size ≠ 0 := by
        intro x hx
        simp only [mem_append, mem_singleton] at hx
        rcases hx with (hx | rfl) | hx
        · exact h.ne_zero x (by simp [hx])
        · exact ne_of_gt hf1
        · exact h.ne_zero x (by simp [hx])
      have hsegs := segs_append hne ht ts
      obtain ⟨m', hm', htook⟩ := took_giveBack hsw hcap hsize h hpos hle (by lia) h1
        (by simpa using hsegs) rfl
      refine ⟨m', _, ?_, Or.inr ⟨by lia, htook⟩⟩
      rw [hm']
      rfl

/-- **`rmalloc` of `swapmap`.**  It panics only when a segment is out of line with `CLSIZE`; else it
finds nothing and changes nothing, or takes the units it returns. -/
theorem rmalloc_swapmap {mapsize : ℕ} (hsw : Interleaved sw) (hcap : 4 ≤ mapsize)
    (h : WellFormed mapsize m) (hint : ∀ b ∈ segs m.slots, b.m_addr + b.m_size ≤ INT_MAX)
    (hpos : 0 < size) (hle : size ≤ sw.dmmax) :
    (rmalloc (some sw) size m = none ∧ ∃ b ∈ segs m.slots, b.m_addr.tmod sw.clsize ≠ 0) ∨
      ∃ m' r, rmalloc (some sw) size m = some (m', r) ∧
        (r = 0 ∧ m' = m ∨ 0 < r ∧ Took sw mapsize m m' r size) := by
  have hsize := h.size
  exact rmalloc_took hsw hcap (h.holds (by omega) hint) (by omega) hpos hle

/-- A map without a free slot. -/
def brim : map := ⟨0, 0, [⟨2, 1⟩, ⟨20, 4⟩, ⟨0, 0⟩]⟩

/-- Blocks of 8 on two devices: units 8, 9 and 10 go out of the middle of the second segment, and
the first segment, units 1 and 2, is lost. -/
theorem rmalloc_swapmap_overflow :
    rmalloc (some ⟨8, 2, 1⟩) 3 brim = some (⟨0, 0, [⟨4, 4⟩, ⟨13, 11⟩, ⟨0, 0⟩]⟩, 8) ∧
      Took ⟨8, 2, 1⟩ 4 brim ⟨0, 0, [⟨4, 4⟩, ⟨13, 11⟩, ⟨0, 0⟩]⟩ 8 3 := by
  have hrun : rmalloc (some ⟨8, 2, 1⟩) 3 brim =
      some (⟨0, 0, [⟨4, 4⟩, ⟨13, 11⟩, ⟨0, 0⟩]⟩, 8) := by decide +kernel
  obtain ⟨hnone, -⟩ | ⟨m', r, hsome, hcase⟩ := rmalloc_swapmap
    (show Interleaved ⟨8, 2, 1⟩ from ⟨by decide, by decide⟩) (le_refl 4)
    (show WellFormed 4 brim from ⟨by rw [Apart]; decide, by decide, rfl, rfl, by decide⟩)
    (by decide) (show (0 : ℤ) < 3 by decide) (by decide)
  · cases hnone.symm.trans hrun
  · obtain ⟨rfl, rfl⟩ := Prod.mk.inj (some.inj (hsome.symm.trans hrun))
    obtain ⟨h0, -⟩ | ⟨-, htook⟩ := hcase
    · exact absurd h0 (by decide)
    · exact ⟨hrun, htook⟩

/-! ## The states of `swapmap` -/

/-- What a call does on `swapmap`. -/
def swapCall (sw : Swap) (e : Event) (m : map) : Option (map × ℤ) :=
  match e with
  | .rmalloc size => rmalloc (some sw) size m
  | .rmget size addr => rmget (some sw) size addr m
  | .rminit size addr name => call (.rminit size addr name) m
  | .rmfree size addr => call (.rmfree size addr) m

/-- **Every state of `swapmap` is well formed**, with `int`s for the ends of its segments. -/
theorem swapmap_wellFormed {m0 : map} {size addr name : ℤ} {es : List Event}
    (hsw : Interleaved sw) (hcap : 4 ≤ m0.slots.length + 1)
    (h : Run (Guarded Ok fun m e m' => ∃ r, swapCall sw e m = some (m', r)) m0
      (.rminit size addr name :: es) m) :
    WellFormed (m0.slots.length + 1) m ∧
      ∀ b ∈ segs m.slots, b.m_addr + b.m_size ≤ INT_MAX := by
  have hcap' : 3 ≤ m0.slots.length := by omega
  obtain ⟨m1, ⟨hok, r, hcall⟩, hrun⟩ := Run.cons_iff.mp h
  rw [swapCall, call, some.injEq, Prod.mk.injEq] at hcall
  obtain ⟨l, hl, hlen, -, -⟩ := rminit_holds name hcap' hok
  have hinv : Inv m0.slots.length m := by
    refine Run.invariant ?_ hrun ?_
    · rintro s e t hs ⟨hok, r, hcall⟩
      have hother : call e s = some (t, r) → Inv m0.slots.length t :=
        fun hc => step_inv hcap' s e t hs ⟨hok, r, hc⟩
      cases e with
      | rminit size addr name => exact hother hcall
      | rmfree size addr => exact hother hcall
      | rmget size addr =>
          by_cases hpos : size ≤ 0
          · rw [swapCall, rmget, if_pos hpos] at hcall
            cases hcall
          · rw [swapCall, rmget, if_neg hpos, if_pos (show (some sw).isSome = true from rfl),
              some.injEq, Prod.mk.injEq] at hcall
            exact hcall.1 ▸ hs
      | rmalloc size =>
          by_cases hpos : 0 < size ∧ size ≤ sw.dmmax
          · obtain ⟨⟨l, hl⟩, hlen⟩ := hs
            rcases rmalloc_took hsw hcap hl (by rw [hlen]) hpos.1 hpos.2 with
              ⟨hnone, -⟩ | ⟨m', r', hsome, hres⟩
            · rw [swapCall, hnone] at hcall
              cases hcall
            · rw [swapCall, hsome, some.injEq, Prod.mk.injEq] at hcall
              obtain ⟨rfl, rfl⟩ := hcall
              rcases hres with ⟨-, rfl⟩ | ⟨-, -, -, hwf, hint, -⟩
              · exact ⟨⟨l, hl⟩, hlen⟩
              · have hsize := hwf.size
                exact ⟨⟨_, hwf.holds (by omega) hint⟩, by omega⟩
          · rw [swapCall, rmalloc, if_pos ?_] at hcall
            · cases hcall
            · simp only [any_some, decide_eq_true_eq]
              omega
    · rw [← hcall.1]
      exact ⟨⟨l, hl⟩, hlen⟩
  obtain ⟨⟨l', hl'⟩, hlen'⟩ := hinv
  refine ⟨hl'.wellFormed (by rw [hlen']), ?_⟩
  rw [hl'.segs_eq]
  exact fun b hb => (hl'.sound b hb).2.2

/-- Twenty units, from which three go. -/
theorem swapmap_wellFormed_three :
    WellFormed 4 ⟨0, 0, [⟨3, 5⟩, ⟨14, 11⟩, ⟨0, 7⟩]⟩ ∧
      ∀ b ∈ segs [⟨3, 5⟩, ⟨14, 11⟩, ⟨0, 7⟩], b.m_addr + b.m_size ≤ INT_MAX := by
  have hrun : Run (Guarded Ok fun m e m' => ∃ r, swapCall ⟨8, 2, 1⟩ e m = some (m', r))
      ⟨0, 0, [⟨0, 0⟩, ⟨0, 0⟩, ⟨0, 0⟩]⟩ [.rminit 20 5 7, .rmalloc 3]
      ⟨0, 0, [⟨3, 5⟩, ⟨14, 11⟩, ⟨0, 7⟩]⟩ :=
    .cons ⟨by unfold Ok; decide, 0, rfl⟩ (.cons ⟨trivial, 8, rfl⟩ (.nil _))
  exact swapmap_wellFormed ⟨by decide, by decide⟩ (le_refl _) hrun

end Rmap
