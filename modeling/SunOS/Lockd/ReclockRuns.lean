/-
# The granted locks of one owner (`rpc.lockd/prot_lock.c`)

The list is a map from bytes to modes in its shortest form.  `blocked` finds the place of a request,
`delete_reclock` cuts what is there, and the request joins its neighbours; so a lock overwrites its
range and an unlock clears it, as long as the range is not empty.
-/
import SunOS.Lockd.ReclockList

namespace Lockd

open Option
open List
open RangeMap

variable {oh : List UInt8} {a r : reclock} {K R rest l : List ℕ} {nl p x : ℕ} {s s' : Grants}

namespace Grants

/-- **The granted locks `l` of one owner.** -/
structure Good (s : Grants) (oh : List UInt8) (l : List ℕ) : Prop where
  links : s.q.Holds l
  live : s.live.Perm l
  owned : ∀ p ∈ l, Owned oh (s.entry p)
  canonical : Canonical (s.segs l)
  fe : s.fe = false → l = []

/-- Entries outside the list do not matter. -/
theorem Good.congr (h : Good s oh l) (s' : Grants) (hq : s'.q = s.q) (hl : s'.live = s.live)
    (hf : s'.fe = s.fe)
    (he : ∀ p ∈ l, s'.entry p = s.entry p) : Good s' oh l ∧ s'.segs l = s.segs l := by
  refine ⟨⟨hq ▸ h.links, hl ▸ h.live, fun p hp => ?_, ?_, fun h' => h.fe (hf ▸ h')⟩, segs_congr he⟩
  · rw [he p hp]
    exact h.owned p hp
  · rw [segs_congr he]
    exact h.canonical

/-! ## The place of a request -/

variable {q : ℕ}

/-- A lock of the same owner is never in the way. -/
theorem inTheWay_eq_false (h : Owned oh r) (ha : a.lck.oh = oh) : inTheWay r a = false :=
  decide_eq_false fun hc => hc.1 (h.same_proc ha)

theorem blockedAbove_eq {fuel insrtp : ℕ} (h : Doubly.Linked s.q q nl rest)
    (ho : ∀ p ∈ rest, Owned oh (s.entry p)) (ha : a.lck.oh = oh) (hfuel : rest.length < fuel) :
    s.blockedAbove a fuel nl insrtp = some (false, insrtp) := by
  induction rest generalizing q nl fuel with
  | nil =>
    obtain ⟨fuel, rfl⟩ := Nat.exists_eq_succ_of_ne_zero (Nat.ne_zero_of_lt hfuel)
    exact if_neg fun hc => hc.1 h
  | cons b rest ih =>
    obtain ⟨fuel, rfl⟩ := Nat.exists_eq_succ_of_ne_zero (Nat.ne_zero_of_lt hfuel)
    obtain ⟨rfl, -, -, h⟩ := h
    rw [blockedAbove, inTheWay_eq_false (ho nl mem_cons_self) ha]
    split_ifs
    · contradiction
    · exact ih h (fun p hp => ho p (mem_cons_of_mem _ hp)) (by simpa using hfuel)
    · rfl

/-- The first walk of `blocked` stops at a lock that the request touches, or behind all those that
start no later than it. -/
theorem blockedBelow_spec {fuel : ℕ} (h : Doubly.Linked s.q q nl rest)
    (ho : ∀ p ∈ rest, Owned oh (s.entry p)) (hc : Canonical (s.segs rest)) (ha : a.lck.oh = oh)
    (hK : ∀ p ∈ K, (seg (s.entry p)).hi < a.lck.lb.toNat) (hfuel : rest.length < fuel) :
    ∃ K' rest' insrtp, K ++ rest = K' ++ rest' ∧
      s.blockedBelow a fuel nl (K.getLast?.getD 0) = some (false, insrtp, rest'.headD 0) ∧
      (∀ p ∈ K', (seg (s.entry p)).hi < a.lck.lb.toNat) ∧ s.At insrtp a.lck.lb.toNat K' rest' := by
  induction rest generalizing q nl fuel K with
  | nil =>
    obtain ⟨fuel, rfl⟩ := Nat.exists_eq_succ_of_ne_zero (Nat.ne_zero_of_lt hfuel)
    obtain rfl : nl = 0 := h
    exact ⟨K, [], _, rfl, if_neg fun hc => hc.1 rfl, hK, Or.inl ⟨rfl, by simp⟩⟩
  | cons b rest ih =>
    obtain ⟨fuel, rfl⟩ := Nat.exists_eq_succ_of_ne_zero (Nat.ne_zero_of_lt hfuel)
    obtain ⟨rfl, h0, -, h⟩ := h
    have how := ho nl mem_cons_self
    have hap := List.pairwise_cons.mp hc.apart
    have hle : (s.entry nl).lck.lb ≤ a.lck.lb ↔ (seg (s.entry nl)).lo ≤ a.lck.lb.toNat :=
      UInt32.le_iff_toNat_le
    have htouch : a.lck.lb ≤ (s.entry nl).lck.ub ↔ a.lck.lb.toNat ≤ (seg (s.entry nl)).hi :=
      UInt32.le_iff_toNat_le
    rw [blockedBelow, inTheWay_eq_false how ha]
    by_cases hlo : (seg (s.entry nl)).lo ≤ a.lck.lb.toNat
    · rw [if_pos ⟨h0, hle.mpr hlo⟩]
      by_cases hhi : a.lck.lb.toNat ≤ (seg (s.entry nl)).hi
      · rw [if_pos ⟨how.same_proc ha, htouch.mpr hhi⟩]
        refine ⟨K, nl :: rest, nl, rfl, rfl, hK, Or.inr ⟨rest, rfl, hlo, fun x hx => ?_⟩⟩
        exact hhi.trans (hap.1 _ (mem_map_of_mem hx)).le
      · rw [if_neg fun hc => hhi (htouch.mp hc.2), if_neg (by decide)]
        have hK' : ∀ p ∈ K ++ [nl], (seg (s.entry p)).hi < a.lck.lb.toNat := fun p hp => by
          rcases List.mem_append.mp hp with hp | hp
          · exact hK p hp
          · rw [List.mem_singleton.mp hp]
            exact not_le.mp hhi
        have hnext := ih h (fun p hp => ho p (mem_cons_of_mem _ hp))
          ⟨fun e he => hc.pos e (mem_cons_of_mem _ he), hap.2⟩ hK' (by simpa using hfuel)
        rw [List.getLast?_concat, append_assoc] at hnext
        exact hnext
    · rw [if_neg fun hc => hlo (hle.mp hc.2)]
      refine ⟨K, nl :: rest, _, rfl, rfl, hK, Or.inl ⟨rfl, fun x hx => ?_⟩⟩
      exact (le_of_lt (not_le.mp hlo)).trans (lo_le_of_canonical hc hx)

/-- **`blocked`** finds the place of a request, which nothing blocks: `insrtp` is the lock it
touches or the last one in front of it, and those before `insrtp` end before it. -/
theorem blocked_spec (h : Good s oh l) (ha : a.lck.oh = oh) :
    ∃ insrtp K rest, s.blocked a = some (false, insrtp) ∧ l = K ++ rest ∧
      (∀ p ∈ K, (seg (s.entry p)).hi < a.lck.lb.toNat) ∧
      (if insrtp = 0 then s.q.head else insrtp) = rest.headD 0 ∧
      s.At insrtp a.lck.lb.toNat K rest := by
  by_cases hfe : s.fe = true
  · obtain ⟨K, rest, insrtp, hl, hbelow, hK, hat⟩ := blockedBelow_spec (K := []) h.links.linked
      h.owned h.canonical ha (by simp) (Nat.lt_succ_of_le h.live.symm.length_eq.le)
    subst hl
    obtain ⟨q, hlinked⟩ := h.links.linked.suffix
    have habove : s.blockedAbove a (s.live.length + 1) (rest.headD 0) insrtp = some (false,
      insrtp) := by
      refine blockedAbove_eq hlinked (fun p hp => h.owned p (mem_append_right _ hp)) ha ?_
      rw [h.live.length_eq, length_append]
      omega
    have hblocked : s.blocked a = some (false, insrtp) := by
      rw [blocked, if_neg (not_not_intro hfe)]
      show (s.blockedBelow a (s.live.length + 1) s.q.head 0).bind _ = _
      rw [show s.blockedBelow a (s.live.length + 1) s.q.head 0 = _ from hbelow]
      exact habove
    rcases hat with ⟨hi, hle⟩ | ⟨rest', hrest, hlo, hle⟩
    · rcases eq_nil_or_concat K with rfl | ⟨K, k, rfl⟩
      · refine ⟨insrtp, [], rest, hblocked, rfl, hK, ?_, Or.inl ⟨hi, hle⟩⟩
        rw [if_pos (show insrtp = 0 from hi)]
        exact h.links.linked.first
      · rw [concat_eq_append] at *
        rw [List.getLast?_concat] at hi
        obtain rfl : insrtp = k := hi
        have hpos := h.canonical.pos _ (mem_map_of_mem (a := insrtp) (by simp))
        have hhi := hK insrtp (by simp)
        refine ⟨insrtp, K, insrtp :: rest, hblocked, by simp, fun p hp => hK p (by simp [hp]), ?_,
          Or.inr ⟨rest, rfl, ?_, hle⟩⟩
        · exact if_neg (h.links.ne_zero (by simp))
        · exact le_of_lt (lt_trans hpos hhi)
    · subst hrest
      exact ⟨insrtp, K, insrtp :: rest', hblocked, rfl, hK, if_neg (h.links.ne_zero (by simp)),
        Or.inr ⟨rest', rfl, hlo, hle⟩⟩
  · obtain rfl := h.fe (Bool.eq_false_iff.mpr hfe)
    have hhead : s.q.head = 0 := h.links.linked
    exact ⟨0, [], [], if_pos hfe, rfl, by simp, by rw [if_pos rfl, hhead]; rfl,
      Or.inl ⟨rfl, by simp⟩⟩

/-! ## Joining the neighbours -/

/-- What joining leaves: the neighbours `l` in the list, and the request at `x`. -/
structure Joined (s s' : Grants) (oh : List UInt8) (x : ℕ) (l : List ℕ) : Prop where
  links : s'.q.Holds l
  live : s'.live.Perm l
  same : ∀ p, p ≠ x → s'.entry p = s.entry p
  owned : Owned oh (s'.entry x)
  fe : s'.fe = s.fe

/-- The request joins the last lock before it. -/
theorem connectBelow_spec (h : s.q.Holds (K ++ R)) (hl : s.live.Perm (K ++ R))
    (ho : ∀ p ∈ K ++ R, Owned oh (s.entry p)) (hx : Owned oh (s.entry x)) (hxK : x ∉ K ++ R) :
    ∃ s' K', s.connectBelow (K.getLast?.getD 0) x = (s', K'.getLast?.getD 0) ∧
      Joined s s' oh x (K' ++ R) ∧ (s'.segs K', seg (s'.entry x)) = joinLeft (s.segs K)
        (seg (s.entry x)) ∧
      List.Sublist K' K := by
  rcases eq_nil_or_concat K with rfl | ⟨K, k, rfl⟩
  · refine ⟨s, [], ?_, ⟨h, hl, fun _ _ => rfl, hx, rfl⟩, rfl, List.Sublist.refl _⟩
    rw [connectBelow]
    exact if_neg fun hc => hc.1 rfl
  · rw [concat_eq_append] at *
    rw [append_assoc, singleton_append] at h hl
    have hk := ho k (by simp)
    have hop := hk.same_op_iff hx
    have hub : (s.entry k).lck.ub = (s.entry x).lck.lb ↔
        (seg (s.entry k)).hi = (seg (s.entry x)).lo := UInt32.toNat_inj.symm
    have hjoin : joinLeft (s.segs (K ++ [k])) (seg (s.entry x)) =
        if (seg (s.entry k)).hi = (seg (s.entry x)).lo ∧
          (seg (s.entry k)).mode = (seg (s.entry x)).mode
        then (s.segs K, { seg (s.entry x) with lo := (seg (s.entry k)).lo })
        else (s.segs (K ++ [k]), seg (s.entry x)) := by
      rw [segs_append]
      show joinLeft (_ ++ [seg (s.entry k)]) _ = _
      rw [joinLeft, List.getLast?_concat, dropLast_concat]
      rfl
    rw [List.getLast?_concat, getD_some, hjoin, connectBelow]
    by_cases hj : (seg (s.entry k)).hi = (seg (s.entry x)).lo ∧
        (seg (s.entry k)).mode = (seg (s.entry x)).mode
    · rw [if_pos hj, if_pos ⟨h.ne_zero (by simp), hk.same_proc hx.oh, hop.mpr hj.2, hub.mpr hj.1⟩]
      refine ⟨_, K, by rw [h.linked.prev_eq], ?_, ?_, sublist_append_left _ _⟩
      · obtain ⟨hlinks, hlive⟩ := delete_le_spec h hl
        refine ⟨hlinks, hlive, fun p hp => setEntry_of_ne hp, ?_, rfl⟩
        show Owned oh ((s.setEntry x _).entry x)
        rw [setEntry_self]
        exact ⟨hx.oh, hx.op⟩
      · have hsame : ∀ p ∈ K, (s.setEntry x (adj_len { s.entry x with
            lck := { (s.entry x).lck with l_offset := (s.entry k).lck.lb } })).entry p =
              s.entry p :=
          fun p hp => setEntry_of_ne fun he => hxK (by simp [← he, hp])
        refine Prod.ext (segs_congr hsame) ?_
        show seg ((s.setEntry x _).entry x) = _
        rw [setEntry_self]
        rfl
    · rw [if_neg hj, if_neg fun hc => hj ⟨hub.mp hc.2.2.2, hop.mp hc.2.2.1⟩]
      refine ⟨s, K ++ [k], by rw [List.getLast?_concat]; rfl,
        ⟨?_, ?_, fun _ _ => rfl, hx, rfl⟩, rfl,
        List.Sublist.refl _⟩
      · simpa using h
      · simpa using hl

/-- What `connectAbove` leaves when the locks `R` start at the end of the request or behind it. -/
def joinedAbove (s : Grants) (x : ℕ) : List ℕ → Grants
  | [] => s
  | y :: _ =>
    if (seg (s.entry y)).lo = (seg (s.entry x)).hi ∧ (seg (s.entry y)).mode = (seg (s.entry x)).mode
    then (s.setEntry x (adj_len { s.entry x with
      lck := { (s.entry x).lck with ub := (s.entry y).lck.ub } })).delete_le y
    else s

/-- The walk to the first lock that starts at the end of the request or behind it. -/
theorem connectAbove_eq {fuel : ℕ} (h : Doubly.Linked s.q q p (K ++ R))
    (ho : ∀ y ∈ K ++ R, Owned oh (s.entry y)) (hc : Canonical (s.segs R))
    (hx : Owned oh (s.entry x))
    (hK : ∀ y ∈ K, (seg (s.entry y)).lo < (seg (s.entry x)).hi)
    (hR : ∀ y ∈ R, (seg (s.entry x)).hi ≤ (seg (s.entry y)).lo) (hfuel : (K ++ R).length < fuel) :
    s.connectAbove x fuel p = some (s.joinedAbove x R) := by
  have hlb : ∀ y, (s.entry y).lck.lb = (s.entry x).lck.ub ↔
      (seg (s.entry y)).lo = (seg (s.entry x)).hi := fun y => UInt32.toNat_inj.symm
  have hle : ∀ y, (s.entry y).lck.lb ≤ (s.entry x).lck.ub ↔
      (seg (s.entry y)).lo ≤ (seg (s.entry x)).hi := fun y => UInt32.le_iff_toNat_le
  induction K generalizing q p fuel with
  | nil =>
    obtain ⟨fuel, rfl⟩ := Nat.exists_eq_succ_of_ne_zero (Nat.ne_zero_of_lt hfuel)
    cases R with
    | nil => exact if_neg fun hc => hc.1 h
    | cons y R =>
      obtain ⟨rfl, h0, -, h⟩ := h
      have hp := ho p (by simp)
      have hop := hp.same_op_iff hx
      have hge := hR p mem_cons_self
      have hap := List.pairwise_cons.mp hc.apart
      rw [connectAbove]
      by_cases hlo : (seg (s.entry p)).lo ≤ (seg (s.entry x)).hi
      · rw [if_pos ⟨h0, (hle p).mpr hlo⟩]
        by_cases hj : (seg (s.entry p)).lo = (seg (s.entry x)).hi ∧
            (seg (s.entry p)).mode = (seg (s.entry x)).mode
        · rw [if_pos ⟨hp.same_proc hx.oh, hop.mpr hj.2, (hlb p).mpr hj.1⟩]
          exact congrArg some (if_pos hj).symm
        · rw [if_neg fun hc => hj ⟨(hlb p).mp hc.2.2, hop.mp hc.2.1⟩]
          have hstop : s.connectAbove x fuel (s.q.nxt p) = some s := by
            obtain ⟨fuel, rfl⟩ := Nat.exists_eq_succ_of_ne_zero (n := fuel) (by
              simp only [nil_append, length_cons] at hfuel
              omega)
            refine if_neg fun hcond => ?_
            cases R with
            | nil => exact hcond.1 h
            | cons z R =>
              obtain ⟨hz, -⟩ := h
              have hzlo : (seg (s.entry p)).hi ≤ (seg (s.entry z)).lo :=
                (hap.1 _ (mem_map_of_mem mem_cons_self)).le
              have hpos : (seg (s.entry p)).lo < (seg (s.entry p)).hi :=
                hc.pos _ mem_cons_self
              have hcle := (hle (s.q.nxt p)).mp hcond.2
              rw [hz] at hcle
              omega
          rw [hstop]
          exact congrArg some (if_neg hj).symm
      · rw [if_neg fun hc => hlo ((hle p).mp hc.2)]
        exact congrArg some (if_neg fun hj => hlo hj.1.le).symm
  | cons b K ih =>
    obtain ⟨fuel, rfl⟩ := Nat.exists_eq_succ_of_ne_zero (Nat.ne_zero_of_lt hfuel)
    obtain ⟨rfl, h0, -, h⟩ := h
    have hlt := hK p mem_cons_self
    rw [connectAbove, if_pos ⟨h0, (hle p).mpr (le_of_lt hlt)⟩,
      if_neg fun hc => absurd ((hlb p).mp hc.2.2) (ne_of_lt hlt)]
    exact ih h (fun y hy => ho y (mem_cons_of_mem _ hy))
      (fun y hy => hK y (mem_cons_of_mem _ hy)) (by simpa using hfuel)

/-- The request joins the first lock behind it. -/
theorem connectAbove_spec (h : s.q.Holds (K ++ R)) (hl : s.live.Perm (K ++ R))
    (ho : ∀ y ∈ K ++ R, Owned oh (s.entry y)) (hc : Canonical (s.segs R))
    (hx : Owned oh (s.entry x))
    (hxK : x ∉ K ++ R) (hK : ∀ y ∈ K, (seg (s.entry y)).lo < (seg (s.entry x)).hi)
    (hR : ∀ y ∈ R, (seg (s.entry x)).hi ≤ (seg (s.entry y)).lo) :
    ∃ s' R', s.connectAbove x (s.live.length + 1) s.q.head = some s' ∧
      Joined s s' oh x (K ++ R') ∧ (seg (s'.entry x), s'.segs R') = joinRight (seg (s.entry x))
        (s.segs R) ∧
      List.Sublist R' R := by
  have heq := connectAbove_eq h.linked ho hc hx hK hR (Nat.lt_succ_of_le hl.symm.length_eq.le)
  cases R with
  | nil => exact ⟨s, [], heq, ⟨h, hl, fun _ _ => rfl, hx, rfl⟩, rfl, List.Sublist.refl _⟩
  | cons y R =>
    by_cases hj : (seg (s.entry y)).lo = (seg (s.entry x)).hi ∧
        (seg (s.entry y)).mode = (seg (s.entry x)).mode
    · refine ⟨_, R, heq.trans (congrArg some (if_pos hj)), ?_, ?_, sublist_cons_self _ _⟩
      · obtain ⟨hlinks, hlive⟩ := delete_le_spec h hl
        refine ⟨hlinks, hlive, fun p hp => setEntry_of_ne hp, ?_, rfl⟩
        show Owned oh ((s.setEntry x _).entry x)
        rw [setEntry_self]
        exact ⟨hx.oh, hx.op⟩
      · have hsame : ∀ p ∈ R, (s.setEntry x (adj_len { s.entry x with
            lck := { (s.entry x).lck with ub := (s.entry y).lck.ub } })).entry p = s.entry p :=
          fun p hp => setEntry_of_ne fun he => hxK (by simp [← he, hp])
        have hjoin : joinRight (seg (s.entry x)) (s.segs (y :: R)) =
            ({ seg (s.entry x) with hi := (seg (s.entry y)).hi }, s.segs R) := if_pos hj
        rw [hjoin]
        refine Prod.ext ?_ (segs_congr hsame)
        show seg ((s.setEntry x _).entry x) = _
        rw [setEntry_self]
        rfl
    · refine ⟨s, y :: R, heq.trans (congrArg some (if_neg hj)),
        ⟨h, hl, fun _ _ => rfl, hx, rfl⟩, ?_, List.Sublist.refl _⟩
      exact (if_neg hj : joinRight (seg (s.entry x)) (s.segs (y :: R)) = _).symm

/-- **The request joins its neighbours** and goes into the list between them. -/
theorem join_spec (h : s.q.Holds (K ++ R)) (hl : s.live.Perm (K ++ R))
    (ho : ∀ y ∈ K ++ R, Owned oh (s.entry y)) (hcK : Canonical (s.segs K))
    (hcR : Canonical (s.segs R))
    (hx : Owned oh (s.entry x)) (h0 : x ≠ 0) (hxl : x ∉ K ++ R)
    (hAB : (seg (s.entry x)).lo < (seg (s.entry x)).hi)
    (hK : ∀ e ∈ s.segs K, e.hi ≤ (seg (s.entry x)).lo)
    (hR : ∀ e ∈ s.segs R, (seg (s.entry x)).hi ≤ e.lo) :
    ∃ s1 s2 insrtp l', s.connectBelow (K.getLast?.getD 0) x = (s1, insrtp) ∧
      s1.connectAbove x (s1.live.length + 1) s1.q.head = some s2 ∧
      (s2.insert_le insrtp x).q.Holds l' ∧ (s2.insert_le insrtp x).live.Perm l' ∧
      (∀ p ∈ l', Owned oh ((s2.insert_le insrtp x).entry p)) ∧ s2.fe = s.fe ∧
      (s2.insert_le insrtp x).segs l' =
        (joinLeft (s.segs K) (seg (s.entry x))).1 ++
          (joinRight (joinLeft (s.segs K) (seg (s.entry x))).2 (s.segs R)).1 ::
            (joinRight (joinLeft (s.segs K) (seg (s.entry x))).2 (s.segs R)).2 := by
  obtain ⟨s1, K1, hbelow, hj1, hl1, hsub1⟩ := connectBelow_spec h hl ho hx hxl
  obtain ⟨hlo, hhi, -, -, -⟩ := joinLeft_spec hcK hK
  rw [← hl1] at hlo hhi ⊢
  have hmem1 : ∀ y ∈ K1 ++ R, y ∈ K ++ R ∧ y ≠ x := fun y hy => by
    have hm : y ∈ K ++ R := by
      rcases List.mem_append.mp hy with hy | hy
      · exact mem_append_left _ (hsub1.subset hy)
      · exact mem_append_right _ hy
    exact ⟨hm, fun he => hxl (he ▸ hm)⟩
  have hent : ∀ y ∈ K1 ++ R, s1.entry y = s.entry y := fun y hy => hj1.same y (hmem1 y hy).2
  have hsegR : s1.segs R = s.segs R := segs_congr fun y hy => hent y (mem_append_right _ hy)
  obtain ⟨s2, R2, habove, hj2, hl2, hsub2⟩ := connectAbove_spec hj1.links hj1.live
    (fun y hy => (hent y hy).symm ▸ ho y (hmem1 y hy).1) (hsegR.symm ▸ hcR) hj1.owned
    (fun hm => (hmem1 x hm).2 rfl)
    (by
      intro y hy
      have hm : seg (s.entry y) ∈ s.segs K := mem_map_of_mem (hsub1.subset hy)
      have hpos := hcK.pos _ hm
      have hle := hK _ hm
      have hh : (seg (s1.entry x)).hi = (seg (s.entry x)).hi := hhi
      rw [hent y (mem_append_left _ hy), hh]
      omega)
    (by
      intro y hy
      have hh : (seg (s1.entry x)).hi = (seg (s.entry x)).hi := hhi
      rw [hent y (mem_append_right _ hy), hh]
      exact hR _ (mem_map_of_mem hy))
  have hmem2 : ∀ y ∈ K1 ++ R2, y ∈ K1 ++ R := fun y hy =>
    (List.mem_append.mp hy).elim (mem_append_left _)
      fun hy => mem_append_right _ (hsub2.subset hy)
  have hx2 : x ∉ K1 ++ R2 := fun hm => (hmem1 x (hmem2 x hm)).2 rfl
  obtain ⟨hlinks, hlive⟩ := insert_le_spec hj2.links hj2.live h0 hx2
  have hentry : ∀ y ∈ K1 ++ R2, (s2.insert_le (K1.getLast?.getD 0) x).entry y = s1.entry y :=
    fun y hy => hj2.same y (hmem1 y (hmem2 y hy)).2
  refine ⟨s1, s2, _, K1 ++ x :: R2, hbelow, habove, hlinks, hlive, ?_, hj2.fe.trans hj1.fe, ?_⟩
  · intro p hp
    rcases List.perm_middle.mem_iff.mp hp with _ | ⟨_, hp⟩
    · exact hj2.owned
    · rw [hentry p hp, hent p (hmem2 p hp)]
      exact ho p (hmem1 p (hmem2 p hp)).1
  · rw [← hsegR, ← hl2, segs_append, segs_congr fun y hy => hentry y (mem_append_left _ hy)]
    rfl

/-! ## Unlocking and locking -/

variable {insrtp pre_le : ℕ}

/-- The entries that came with a request: its own, `x`, and the spare one. -/
structure Entries (oh : List UInt8) (s : Grants) (x pre_le : ℕ) : Prop where
  x_ne_zero : x ≠ 0
  pre_le_ne_zero : pre_le ≠ 0
  ne : x ≠ pre_le
  x_not_mem : x ∉ s.live
  pre_le_not_mem : pre_le ∉ s.live
  owned : Owned oh (s.entry x)
  oh : (s.entry pre_le).lck.oh = oh

theorem At.mem {insrtp A : ℕ} (h : s.At insrtp A K rest) (h0 : insrtp ≠ 0) :
    insrtp ∈ K ++ rest := by
  rcases h with ⟨hi, -⟩ | ⟨rest', rfl, -⟩
  · rcases eq_nil_or_concat K with rfl | ⟨K, k, rfl⟩
    · exact absurd hi h0
    · rw [concat_eq_append, List.getLast?_concat] at hi
      rw [hi]
      simp
  · simp

/-- **`delete_reclock`** cuts the granted locks. -/
theorem delete_reclock_spec (h : Good s oh (K ++ rest)) (hfe : s.fe = true)
    (h0 : pre_le ≠ 0) (hpre : pre_le ∉ s.live) (hoh : (s.entry pre_le).lck.oh = oh)
    (ha : a.lck.oh = oh)
    (hAB : a.lck.lb.toNat < a.lck.ub.toNat) (hK : ∀ p ∈ K, (seg (s.entry p)).hi ≤ a.lck.lb.toNat)
    (hstart : (if insrtp = 0 then s.q.head else insrtp) = rest.headD 0) :
    ∃ d K' R, s.delete_reclock insrtp pre_le a = some d ∧ Good d.s oh (K' ++ R) ∧ d.s.fe = true ∧
      d.s.segs K' = below a.lck.lb.toNat (s.segs (K ++ rest)) ∧
      d.s.segs R = above a.lck.ub.toNat (s.segs (K ++ rest)) ∧
      (∀ p, p ∉ K ++ rest → p ≠ pre_le → d.s.entry p = s.entry p ∧ p ∉ K' ++ R) ∧
      (s.At insrtp a.lck.lb.toNat K rest → d.insrtp = K'.getLast?.getD 0) := by
  have hcan := h.canonical
  rw [segs_append] at hcan
  have hw : Deletion.Walking { s := s, insrtp := insrtp, pre_le := pre_le, lock_ex := 0, lock_sh := 0 }
      oh a.lck.lb.toNat K rest := by
    refine ⟨h.links, h.live, h.owned, fun p hp => ⟨?_, hK p hp⟩, ?_⟩
    · exact h.canonical.pos _ (mem_map_of_mem (mem_append_left _ hp))
    · exact ⟨fun e he => hcan.pos e (mem_append_right _ he),
        (List.pairwise_append.mp hcan.apart).2.1⟩
  have hlen : rest.length < s.live.length + 1 := by
    rw [h.live.length_eq, length_append]
    omega
  obtain ⟨d, K', R, hwalk, hcut, hat⟩ := Deletion.walk_spec hw
    ⟨h0, fun hm => hpre (h.live.mem_iff.mpr hm), hoh⟩ ha rfl rfl hAB hlen
  have hsegs : d.s.segs (K' ++ R) = below a.lck.lb.toNat (s.segs (K ++ rest)) ++
      above a.lck.ub.toNat (s.segs (K ++ rest)) := by
    rw [segs_append, hcut.segK, hcut.segR]
  refine ⟨d, K', R, ?_, ⟨hcut.links, hcut.live, hcut.owned, ?_, ?_⟩, hcut.fe.trans hfe, hcut.segK,
    hcut.segR, ?_, hat⟩
  · rw [delete_reclock, hstart]
    exact hwalk
  · rw [hsegs]
    exact h.canonical.clear hAB
  · intro hf
    rw [hcut.fe.trans hfe] at hf
    cases hf
  · intro p hp hp'
    exact ⟨hcut.same p hp hp', fun hm => (hcut.sub p hm).elim hp hp'⟩

/-- **`add_reclock`** puts a lock into the list. -/
theorem add_reclock_spec (h : Good s oh (K ++ rest)) (hx : Entries oh s x pre_le)
    (hAB : (seg (s.entry x)).lo < (seg (s.entry x)).hi)
    (hK : ∀ p ∈ K, (seg (s.entry p)).hi < (seg (s.entry x)).lo)
    (hstart : (if insrtp = 0 then s.q.head else insrtp) = rest.headD 0)
    (hat : s.At insrtp (seg (s.entry x)).lo K rest) :
    ∃ s' l', s.add_reclock insrtp x pre_le true = some s' ∧ Good s' oh l' ∧
      ∀ u, modeAt (s'.segs l') u = if covers u (seg (s.entry x)) then some (seg (s.entry x)).mode
        else modeAt (s.segs (K ++ rest)) u := by
  have hxl : x ∉ K ++ rest := fun hm => hx.x_not_mem (h.live.mem_iff.mpr hm)
  rw [add_reclock]
  by_cases hfe : s.fe = true
  · rw [if_neg (not_not_intro hfe)]
    have hin : inside (s.entry x) (s.entry insrtp) = true ↔
        (seg (s.entry insrtp)).lo ≤ (seg (s.entry x)).lo ∧
          (seg (s.entry x)).hi ≤ (seg (s.entry insrtp)).hi := inside_iff
    by_cases hex : insrtp ≠ 0 ∧ same_proc (s.entry insrtp) (s.entry x) ∧
        same_op (s.entry insrtp) (s.entry x) ∧ inside (s.entry x) (s.entry insrtp)
    · rw [if_pos hex]
      refine ⟨s, K ++ rest, rfl, h, fun u => ?_⟩
      obtain ⟨h0, -, hop, hinside⟩ := hex
      have hmem := hat.mem h0
      have hmode := ((h.owned insrtp hmem).same_op_iff hx.owned).mp hop
      obtain ⟨hlo, hhi⟩ := hin.mp hinside
      by_cases hu : covers u (seg (s.entry x)) = true
      · rw [if_pos hu, ← hmode]
        refine h.canonical.modeAt_of_mem (mem_map_of_mem hmem) ?_
        simp only [covers, decide_eq_true_eq] at hu ⊢
        omega
      · rw [if_neg hu]
    · rw [if_neg hex]
      obtain ⟨d, K1, R1, hdel, hgood, hfed, hsegK, hsegR, hother, hlast⟩ :=
        delete_reclock_spec h hfe
        hx.pre_le_ne_zero hx.pre_le_not_mem hx.oh hx.owned.oh hAB (fun p hp =>
          le_of_lt (hK p hp)) hstart
      obtain ⟨hxe, hx1⟩ := hother x hxl hx.ne
      have hins := hlast hat
      have hseg : seg (d.s.entry x) = seg (s.entry x) := by rw [hxe]
      have hcK := h.canonical.below (seg (s.entry x)).lo
      have hcR := h.canonical.above (seg (s.entry x)).hi
      obtain ⟨s1, s2, insrtp', l', hbelow, habove, hlinks, hlive, howned, hfe2, hsegs⟩ := join_spec
        hgood.links hgood.live hgood.owned (hsegK ▸ hcK) (hsegR ▸ hcR) (hxe.symm ▸ hx.owned)
        hx.x_ne_zero hx1 (hseg.symm ▸ hAB)
        (by rw [hsegK, hseg]; exact fun e he => hi_le_of_mem_below he)
        (by rw [hsegR, hseg]; exact fun e he => le_lo_of_mem_above he)
      have hput : (s2.insert_le insrtp' x).segs l' = put (s.segs (K ++ rest))
        (seg (s.entry x)) := by
        rw [hsegs, hsegK, hsegR, hseg]
        rfl
      refine ⟨_, l', ?_, ⟨hlinks, hlive, howned, ?_, ?_⟩, fun u => ?_⟩
      · simp only [hdel, hins, hbelow, habove, bind_eq_bind, bind_some]
      · rw [hput]
        exact h.canonical.put hAB
      · intro hc
        have hc' : s2.fe = false := hc
        rw [hfe2, hfed] at hc'
        cases hc'
      · rw [hput]
        exact modeAt_put h.canonical hAB
  · rw [if_pos hfe, if_neg (by decide)]
    have hnil := h.fe (Bool.eq_false_iff.mpr hfe)
    obtain ⟨rfl, rfl⟩ := List.append_eq_nil_iff.mp hnil
    obtain rfl : insrtp = 0 := by
      rcases hat with ⟨hi, -⟩ | ⟨_, hr, -⟩
      · exact hi
      · cases hr
    refine ⟨_, [x], rfl, ⟨h.links.insert_first hx.x_ne_zero (by simp), ?_, ?_, ?_, ?_⟩, fun u => ?_⟩
    · exact h.live.cons x
    · intro p hp
      rw [List.mem_singleton.mp hp]
      exact hx.owned
    · refine ⟨fun e he => ?_, pairwise_singleton _ _⟩
      rw [List.mem_singleton.mp he]
      exact hAB
    · intro hc
      cases hc
    · exact modeAt_cons

/-! ## Runs -/

variable {m : Mapping}

/-- What a request makes of the modes of the bytes: a lock gives its range its mode, an unlock
clears its range. -/
def Request.overwrite : Request → (ℕ → Option Bool) → ℕ → Option Bool
  | .lock m r _ _, f, u =>
    if (m.map r).isSome ∧ r.lck.lb.toNat ≤ u ∧
      u < (genub r.lck).toNat then some r.exclusive else f u
  | .unlock m r _, f, u =>
    if (m.map r).isSome ∧ r.lck.lb.toNat ≤ u ∧ u < (genub r.lck).toNat then none else f u
  | .release_fe, f, u => f u

/-- The range of a request is not empty. -/
def Request.Nonempty : Request → Prop
  | .lock _ r _ _ | .unlock _ r _ => r.lck.lb < genub r.lck
  | .release_fe => True

/-- A request of the owner `oh`. -/
def Request.By (oh : List UInt8) : Request → Prop
  | .lock m r _ _ | .unlock m r _ => ∀ r', m.map r = some r' → r'.lck.oh = oh
  | .release_fe => True

/-- The entries got for a request are none of those in the list. -/
def Request.Allocated (s : Grants) : Request → Prop
  | .lock _ _ a pre_le => a ≠ 0 ∧ pre_le ≠ 0 ∧ a ≠ pre_le ∧ a ∉ s.live ∧ pre_le ∉ s.live
  | .unlock _ _ pre_le => pre_le ≠ 0 ∧ pre_le ∉ s.live
  | .release_fe => True

/-- So it is all along a run. -/
def Allocated : Grants → List Request → Prop
  | _, [] => True
  | s, q :: qs => q.Allocated s ∧ ∀ t, s.serve q = some t → Allocated t.1 qs

/-- **The granted list is the map `f`** from the bytes to their modes, in its shortest form. -/
def Exact (s : Grants) (f : ℕ → Option Bool) : Prop :=
  ∃ l, s.q.Holds l ∧ Canonical (s.segs l) ∧ ∀ u, modeAt (s.segs l) u = f u

theorem genop_spec (a : reclock) :
    (genop a &&& LOCK_EX ≠ 0 ↔ a.exclusive) ∧ (genop a &&& LOCK_SH = 0 ↔ a.exclusive) := by
  unfold genop
  cases a.exclusive <;> cases a.block <;> decide

/-- What the mapping makes of a request. -/
theorem seg_of_map {r' : reclock} (h : m.map r = some r') :
    seg r' = ⟨r.lck.lb.toNat, (genub r.lck).toNat, r.exclusive⟩ ∧
      (r'.lck.op &&& LOCK_EX ≠ 0 ↔ r'.lck.op &&& LOCK_SH = 0) := by
  obtain ⟨hoff, hub⟩ := Mapping.bounds h
  have hop : ∃ b : reclock, b.exclusive = r.exclusive ∧ r'.lck.op = genop b := by
    cases m with
    | kernel hostname cookie xmalloc =>
      simp only [Mapping.map, map_kernel_klm] at h
      split_ifs at h <;> obtain rfl := some.inj h <;> exact ⟨r, rfl, rfl⟩
    | nlm hostname choice xmalloc =>
      simp only [Mapping.map, map_klm_nlm] at h
      split_ifs at h <;> obtain rfl := some.inj h
      · exact ⟨{ r with block := true }, rfl, rfl⟩
      · exact ⟨r, rfl, rfl⟩
  obtain ⟨b, hb, hop⟩ := hop
  obtain ⟨hex, hsh⟩ := genop_spec b
  rw [hop]
  refine ⟨?_, hex.trans hsh.symm⟩
  have hmode : decide (r'.lck.op &&& LOCK_EX ≠ 0) = r.exclusive := by
    rw [hop, ← hb, Bool.eq_iff_iff, decide_eq_true_iff]
    exact hex
  rw [seg, lock.lb, hoff, hub, hmode, lock.lb]

theorem covers_seg {u : ℕ} {r' : reclock} (h : m.map r = some r') : covers u (seg r') = true ↔
      (m.map r).isSome ∧ r.lck.lb.toNat ≤ u ∧ u < (genub r.lck).toNat := by
  rw [(seg_of_map h).1, covers, decide_eq_true_iff, h]
  simp

/-- **A lock request** gives its range its mode. -/
theorem lock_spec (h : Good s oh l) {pre_le : ℕ}
    (hby : (Request.lock m r x pre_le).By oh) (halloc : (Request.lock m r x pre_le).Allocated s)
    (hne : (Request.lock m r x pre_le).Nonempty) :
    ∃ t l', s.serve (.lock m r x pre_le) = some t ∧ Good t.1 oh l' ∧
      ∀ u, modeAt (t.1.segs l') u = (Request.lock m r x pre_le).overwrite
        (modeAt (s.segs l)) u := by
  obtain ⟨hx0, hpre0, hne', hxl, hprel⟩ := halloc
  cases hm : m.map r with
  | none =>
    refine ⟨(s, nlm_denied), l, by rw [serve, hm], h, fun u => ?_⟩
    rw [Request.overwrite, hm, if_neg fun hc => absurd hc.1 (by decide)]
  | some r' =>
    obtain ⟨hseg, hop⟩ := seg_of_map hm
    generalize hs1 : (s.setEntry x r').setEntry pre_le (copy_le r') = s1
    have hent : ∀ p, p ≠ x → p ≠ pre_le → s1.entry p = s.entry p := fun p hp hp' => by
      rw [← hs1, setEntry_of_ne hp', setEntry_of_ne hp]
    have hex : s1.entry x = r' := by rw [← hs1, setEntry_of_ne hne', setEntry_self]
    have hep : s1.entry pre_le = copy_le r' := by rw [← hs1, setEntry_self]
    have hlive : s1.live = s.live := by rw [← hs1]; rfl
    have hq1 : s1.q = s.q := by rw [← hs1]; rfl
    obtain ⟨hgood, hsegs⟩ := h.congr s1 hq1 hlive (by rw [← hs1]; rfl)
      fun p hp => hent p (fun he => hxl (h.live.mem_iff.mpr (he ▸ hp)))
        fun he => hprel (h.live.mem_iff.mpr (he ▸ hp))
    have hown : Owned oh (s1.entry x) := by
      rw [hex]
      exact ⟨hby r' hm, hop⟩
    have hpos : (seg (s1.entry x)).lo < (seg (s1.entry x)).hi := by
      rw [hex, hseg]
      exact UInt32.lt_iff_toNat_lt.mp hne
    obtain ⟨insrtp, K, rest, hblocked, rfl, hK, hstart, hat⟩ := blocked_spec hgood hown.oh
    obtain ⟨t, l', hadd, hgood', hmode⟩ := add_reclock_spec hgood
      ⟨hx0, hpre0, hne', hlive ▸ hxl, hlive ▸ hprel, hown, by rw [hep]; exact hby r' hm⟩ hpos hK
      hstart hat
    refine ⟨(t, nlm_granted), l', ?_, hgood', fun u => ?_⟩
    · rw [serve, hm]
      show ((s.setEntry x r').setEntry pre_le (copy_le r')).local_lock x pre_le true = _
      rw [hs1, local_lock, hblocked, bind_eq_bind, bind_some]
      show (s1.add_reclock insrtp x pre_le true).bind _ = _
      rw [hadd, bind_some]
    · rw [hmode u, hsegs, hex, Request.overwrite, if_congr (covers_seg hm) rfl rfl, hseg]

/-- **An unlock request** clears its range. -/
theorem unlock_spec (h : Good s oh l) {pre_le : ℕ}
    (hby : (Request.unlock m r pre_le).By oh) (halloc : (Request.unlock m r pre_le).Allocated s)
    (hne : (Request.unlock m r pre_le).Nonempty) :
    ∃ t l', s.serve (.unlock m r pre_le) = some t ∧ Good t.1 oh l' ∧
      ∀ u, modeAt (t.1.segs l') u = (Request.unlock m r pre_le).overwrite
        (modeAt (s.segs l)) u := by
  obtain ⟨hpre0, hprel⟩ := halloc
  cases hm : m.map r with
  | none =>
    refine ⟨(s, nlm_denied), l, by rw [serve, hm], h, fun u => ?_⟩
    rw [Request.overwrite, hm, if_neg fun hc => absurd hc.1 (by decide)]
  | some r' =>
    obtain ⟨hseg, -⟩ := seg_of_map hm
    have hent : ∀ p ∈ l, (s.setEntry pre_le (copy_le r')).entry p = s.entry p := fun p hp =>
      setEntry_of_ne fun he => hprel (h.live.mem_iff.mpr (he ▸ hp))
    obtain ⟨hgood, hsegs⟩ := h.congr (s.setEntry pre_le (copy_le r')) rfl rfl rfl hent
    have hover : (Request.unlock m r pre_le).overwrite (modeAt (s.segs l)) = fun u =>
        if covers u (seg r') then none else modeAt (s.segs l) u := by
      funext u
      rw [Request.overwrite, if_congr (covers_seg hm) rfl rfl]
    rw [serve, hm, hover]
    show ∃ t l', (s.setEntry pre_le (copy_le r')).local_unlock r' pre_le = some t ∧ _
    rw [local_unlock]
    by_cases hfe : s.fe = true
    · have hlo : r'.lck.lb.toNat = (seg r').lo := rfl
      have hhi : r'.lck.ub.toNat = (seg r').hi := rfl
      have hpos : r'.lck.lb.toNat < r'.lck.ub.toNat := by
        rw [hlo, hhi, hseg]
        exact UInt32.lt_iff_toNat_lt.mp hne
      obtain ⟨d, K', R, hdel, hgood', -, hsegK, hsegR, -, -⟩ := delete_reclock_spec (K := [])
        hgood hfe hpre0 hprel (by rw [setEntry_self]; exact hby r' hm) (hby r' hm) hpos (by simp)
        ((if_pos rfl).trans hgood.links.linked.first)
      refine ⟨(d.s, nlm_granted), K' ++ R, ?_, hgood', fun u => ?_⟩
      · rw [if_pos (show (s.setEntry pre_le (copy_le r')).fe = true from hfe), hdel]
        rfl
      · rw [segs_append, hsegK, hsegR, nil_append, hsegs, modeAt_clear hpos]
        exact if_congr (by rw [covers, decide_eq_true_iff]; rfl) rfl rfl
    · refine ⟨_, l, if_neg hfe, hgood, fun u => ?_⟩
      rw [h.fe (Bool.eq_false_iff.mpr hfe)]
      exact (ite_self none).symm

/-- **A request is served**, and changes the modes of its range only. -/
theorem serve_spec (h : Good s oh l) {q : Request} (hby : q.By oh) (halloc : q.Allocated s)
    (hne : q.Nonempty) : ∃ t l', s.serve q = some t ∧ Good t.1 oh l' ∧
      ∀ u, modeAt (t.1.segs l') u = q.overwrite (modeAt (s.segs l)) u := by
  cases q with
  | lock m r a pre_le => exact lock_spec h hby halloc hne
  | unlock m r pre_le => exact unlock_spec h hby halloc hne
  | release_fe =>
    refine ⟨_, l, rfl, ⟨h.links, h.live, h.owned, h.canonical, fun hf => ?_⟩, fun u => rfl⟩
    have hf' : (if s.q.head = 0 then false else s.fe) = false := hf
    split_ifs at hf' with h0
    · cases l with
      | nil => rfl
      | cons p l => exact absurd (h.links.linked.first.symm.trans h0) (h.links.ne_zero (by simp))
    · exact h.fe hf'

/-- **The granted list of one owner is what his requests make of it**, from any list on. -/
theorem run_spec (h : Good s oh l) {f : ℕ → Option Bool} (hf : ∀ u, modeAt (s.segs l) u = f u)
    {qs : List Request} (hby : ∀ q ∈ qs, q.By oh) (halloc : Allocated s qs)
    (hne : ∀ q ∈ qs, q.Nonempty) :
    ∃ s' l', run s qs = some s' ∧ Good s' oh l' ∧
      ∀ u, modeAt (s'.segs l') u = qs.foldl (fun f q => q.overwrite f) f u := by
  induction qs generalizing s l f with
  | nil => exact ⟨s, l, rfl, h, hf⟩
  | cons q qs ih =>
    obtain ⟨t, l', hserve, hgood, hmode⟩ := serve_spec h (hby q mem_cons_self) halloc.1
      (hne q mem_cons_self)
    have hmf : modeAt (s.segs l) = f := funext hf
    rw [run, hserve, bind_some, foldl_cons, ← hmf]
    exact ih hgood hmode (fun q hq => hby q (mem_cons_of_mem _ hq)) (halloc.2 t hserve)
      fun q hq => hne q (mem_cons_of_mem _ hq)

theorem Good.empty (oh : List UInt8) (entry : ℕ → reclock) : Good (empty entry) oh [] :=
  ⟨⟨rfl, nodup_nil⟩, List.Perm.refl _, by simp, Canonical.nil, fun _ => rfl⟩

/-- **The granted list of one owner is exactly what his requests make of it**, as long as none has
an empty range. -/
theorem run_exact {oh : List UInt8} {entry : ℕ → reclock} {qs : List Request}
    (hby : ∀ q ∈ qs, q.By oh) (halloc : Allocated (empty entry) qs) (hne : ∀ q ∈ qs, q.Nonempty) :
    ∃ s, run (empty entry) qs = some s ∧
      Exact s (qs.foldl (fun f q => q.overwrite f) fun _ => none) := by
  obtain ⟨s, l, hrun, hgood, hmode⟩ := run_spec (Good.empty oh entry) (fun _ => rfl) hby halloc hne
  exact ⟨s, hrun, l, hgood.links, hgood.canonical, hmode⟩

/-- A file that has no locks, and entries that are not yet in use. -/
def unlocked : Grants := empty fun _ => request 0 0

/-- A hundred bytes are locked, and ten of them unlocked. -/
def lockThenUnlock : List Request :=
  [.lock (.kernel [] 0 fun _ => true) (request 0 100) 1 2,
    .unlock (.kernel [] 0 fun _ => true) (request 40 10) 3]

theorem run_exact_broken : ∃ s, run unlocked lockThenUnlock = some s ∧
    Exact s (lockThenUnlock.foldl (fun f q => q.overwrite f) fun _ => none) := by
  have hby : ∀ q ∈ lockThenUnlock, q.By (Bytes.htonl 1) := by
    intro q hq
    simp only [lockThenUnlock, mem_cons, not_mem_nil, or_false] at hq
    rcases hq with rfl | rfl
    · rintro r' h
      obtain rfl := some.inj h
      rfl
    · rintro r' h
      obtain rfl := some.inj h
      rfl
  have halloc : Allocated unlocked lockThenUnlock := by
    refine ⟨⟨Nat.one_ne_zero, Nat.succ_ne_zero 1, by decide, not_mem_nil, not_mem_nil⟩, ?_⟩
    intro t ht
    obtain rfl := some.inj ht
    exact ⟨⟨Nat.succ_ne_zero 2, (by decide : (3 : ℕ) ∉ [1])⟩, fun _ _ => trivial⟩
  have hne : ∀ q ∈ lockThenUnlock, q.Nonempty := by
    intro q hq
    simp only [lockThenUnlock, mem_cons, not_mem_nil, or_false] at hq
    rcases hq with rfl | rfl
    · exact (by decide : (0 : UInt32) < 100)
    · exact (by decide : (40 : UInt32) < 50)
  exact run_exact hby halloc hne

/-- A lock from `2 ^ 30` to the end of the file goes into the list without any bytes. -/
theorem not_exact_toEnd : ∃ s,
    run unlocked [.lock (.kernel [] 0 fun _ => true) (request 1073741824 0) 1 2] = some s ∧
    ¬ Exact s (List.foldl (fun f q => Request.overwrite q f) (fun _ => none)
      [.lock (.kernel [] 0 fun _ => true) (request 1073741824 0) 1 2]) := by
  refine ⟨_, rfl, ?_⟩
  rintro ⟨l, hl, hcan, -⟩
  cases l with
  | nil => exact absurd hl.linked Nat.one_ne_zero
  | cons p l =>
      obtain ⟨rfl, -⟩ := hl.linked
      have hpos := hcan.pos _ mem_cons_self
      exact absurd hpos (Nat.lt_irrefl (2 ^ 30))

end Grants

end Lockd
