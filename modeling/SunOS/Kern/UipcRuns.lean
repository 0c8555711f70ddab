/-
# Runs of the mbuf allocator

Mbufs are got and freed, get clusters, and are copied.  As long as no cluster has more than 256
references, and no mbuf is freed whose cluster is right behind it, a cluster is free exactly when
no mbuf in use refers to it.
-/
import SunOS.Kern.UipcOps
import SunOS.Lib.Run

namespace Uipc

open CellMemory

/-- The kernel, the mbufs in use, and the clusters allocated so far. -/
structure State where
  kern : kern
  live : List mbuf
  pool : List ℤ

/-- What happens: `copy m off len` is one turn of the loop of `m_copy`, where `mcldup` is
called. -/
inductive Event
  | m_get (type : ℤ)
  | mclget (m : mbuf)
  | copy (m : mbuf) (off len : ℤ)
  | m_free (m : mbuf)

def Step (s : State) : Event → State → Prop
  | .m_get type, s' =>
    let r := MGET s.kern type
    s' = { s with kern := r.2, live := r.1.toList ++ s.live }
  | .mclget m, s' =>
    let r := mclget s.kern m
    s' = ⟨r.2, r.1.getD m :: s.live.erase m, s.kern.grown ++ s.pool⟩
  | .copy m off len, s' =>
    match MGET s.kern m.m_type with
    | (none, kern) => s' = { s with kern := kern }
    | (some n, kern) => ∃ n' kern', copyone kern m { n with m_len := len } off = .ok (n', kern') ∧
        s' = { s with kern := kern', live := n' :: s.live }
  | .m_free m, s' => ∃ kern', MFREE s.kern m = .ok kern' ∧
      s' = { s with kern := kern', live := s.live.erase m }

/-- Only mbufs in use are used; `mclget` is called for one that has just been got, and a copy is
of a part of the mbuf. -/
def Legal (s : State) : Event → Prop
  | .m_get type => type ≠ MT_FREE
  | .mclget m => m ∈ s.live ∧ Small m
  | .copy m off len => m ∈ s.live ∧ 0 ≤ off ∧ 0 ≤ len ∧ off + len ≤ m.m_len
  | .m_free m => m ∈ s.live

/-- And a cluster does not get its 257th reference (a copy of at most `MLEN` bytes is not one), and
none is forgotten: none is right behind an mbuf that is freed. -/
def Ok (s : State) (e : Event) : Prop :=
  Legal s e ∧
    match e with
    | .copy m _ len => len > MLEN → ∀ c ∈ s.pool, m.refers c = true → refs s.live c < 256
    | .m_free m => m.m_off ≠ MSIZE
    | _ => True

/-- The free list has the clusters no mbuf refers to, each once, and `m_clfree` counts them. -/
structure Counted (s : State) : Prop where
  free : ∀ c ∈ s.pool, c ∈ s.kern.mclfree ↔ ∀ m ∈ s.live, m.refers c = false
  subset : ∀ c ∈ s.kern.mclfree, c ∈ s.pool
  nodup : s.kern.mclfree.Nodup
  m_clfree : s.kern.m_clfree = s.kern.mclfree.length

/-- The invariant. -/
def Inv (owner : ℤ → Owner) (s : State) : Prop :=
  ∃ k, World owner s.pool k s.kern s.live ∧ Exact s.pool k s.live

variable {owner : ℤ → Owner}

theorem Inv.counted {s : State} (h : Inv owner s) : Counted s := by
  obtain ⟨k, hw, hex⟩ := h
  refine ⟨fun c hc => ?_, fun c hc => ((hw.free c).mp hc).1, hw.free_nodup, hw.m_clfree⟩
  rw [hw.free, ← hex c hc, refs, List.countP_eq_zero]
  constructor
  · exact fun h m hm => by simpa using h.2 m hm
  · exact fun h => ⟨hc, fun m hm => by simp [h m hm]⟩

/-- **Every step keeps the invariant.** -/
theorem step_inv (s : State) (e : Event) (s' : State) (h : Inv owner s)
    (hstep : Guarded Ok Step s e s') : Inv owner s' := by
  obtain ⟨⟨hlegal, hok⟩, hstep⟩ := hstep
  obtain ⟨k, hw, hex⟩ := h
  cases e with
  | m_get type =>
    rw [show s' = _ from hstep]
    have hgot := MGET_spec s.kern type
    generalize MGET s.kern type = r at hgot
    cases hgot with
    | none _ hspare hstate => exact ⟨k, hw.unget hspare hstate, hex⟩
    | @some a _ hspare hstate =>
      refine ⟨k, hw.get hlegal hspare hstate, fun c hc => ?_⟩
      show refs (mgot type a :: s.live) c = k c
      rw [refs_cons, (mgot_small type a).not_refers, hex c hc]
      rfl
  | mclget m =>
    obtain ⟨hm, hsmall⟩ := hlegal
    have hperm := List.perm_cons_erase hm
    have hw' := hw.perm hperm
    have hget := mclget_spec hw' hsmall
    rw [show s' = _ from hstep]
    have hex' := hex.perm hperm
    generalize mclget s.kern m = r at hget
    cases hget with
    | none hworld => exact ⟨k, hworld, hex'.grow hw'⟩
    | some hworld hkeeps => exact ⟨_, hworld, hkeeps (hex'.grow hw')⟩
  | copy m off len =>
    obtain ⟨hm, hoff, hlen, hfits⟩ := hlegal
    have htype := (hw.kinds m hm).1
    rw [Step] at hstep
    have hgot := MGET_spec s.kern m.m_type
    generalize MGET s.kern m.m_type = r at hgot hstep
    cases hgot with
    | none _ hspare hstate =>
      rw [show s' = _ from hstep]
      exact ⟨k, hw.unget hspare hstate, hex⟩
    | @some a kern1 hspare hstate =>
      obtain ⟨hw1, hfresh⟩ := hw.take hspare hstate
      obtain ⟨n', kern', heq, rfl⟩ := hstep
      have hk : len > MLEN → ∀ c ∈ s.pool, m.refers c = true → k c < 256 :=
        fun hlong c hc href => by
        rw [← hex c hc]
        exact hok hlong c hc href
      rcases copyone_spec (n := { mgot m.m_type a with m_len := len }) hw1 hm hfresh htype rfl hk
        hoff hlen hfits with herr | ⟨n1, k', kern2, heq', hcopied⟩
      · rw [heq] at herr
        cases herr
      · rw [heq] at heq'
        obtain ⟨rfl, rfl⟩ := Prod.mk.inj (Except.ok.inj heq')
        exact ⟨k', hcopied.world, hcopied.keeps hex⟩
  | m_free m =>
    obtain ⟨kern', heq, rfl⟩ := hstep
    have hperm := List.perm_cons_erase hlegal
    obtain ⟨kern1, k', heq', hfreed⟩ := MFREE_spec (hw.perm hperm)
    rw [heq] at heq'
    obtain rfl := Except.ok.inj heq'
    exact ⟨k', hfreed.world, hfreed.keeps hok (hex.perm hperm)⟩

/-- **The free list is right in every run** whose steps do not overflow a count or forget a
cluster. -/
theorem counted_of_run {kern : kern} {pool : List ℤ} {s : State} {es : List Event}
    (hboot : World owner pool (fun _ => 0) kern [])
    (h : Run (Guarded Ok Step) ⟨kern, [], pool⟩ es s) :
    Counted s :=
  (Run.invariant (I := Inv owner) step_inv h ⟨fun _ => 0, hboot, fun _ _ => rfl⟩).counted

/-! ## Two runs -/

/-- The owners of a page with two mbufs at its end, and of the page of clusters behind it. -/
def pages (a : ℤ) : Owner :=
  if 8192 ≤ a ∧ a < 16128 then .other
  else if 16128 ≤ a ∧ a < 16256 then .mbuf 16128
  else if 16256 ≤ a ∧ a < 16384 then .mbuf 16256
  else if 16384 ≤ a ∧ a < 17408 then .cluster 16384
  else if 17408 ≤ a ∧ a < 18432 then .cluster 17408
  else .other

/-- The two mbufs and the two clusters are free. -/
def booted : kern where
  memory := fun _ => 0
  mbutl := 8192
  mfree := [16128, 16256]
  more := []
  mclfree := [17408, 16384]
  clusters := []
  mclrefcnt := fun _ => 0
  m_clfree := 2
  kmem := []
  called := []

theorem world_booted : World pages [16384, 17408] (fun _ => 0) booted [] where
  mbutl := by decide
  addrs := by decide
  room a ha := by
    simp [booted, kern.spare] at ha
    refine ⟨by lia, by rw [MSIZE]; lia, fun x hlo hhi => ?_⟩
    rw [MSIZE] at hhi
    rcases ha with rfl | rfl
    · rw [pages, if_neg (by lia), if_pos (by lia)]
    · rw [pages, if_neg (by lia), if_neg (by lia), if_pos (by lia)]
  clusters c hc := by
    simp [booted] at hc
    rw [MCLBYTES, show booted.mbutl = 8192 from rfl]
    refine ⟨by lia, by lia, by lia, by lia, fun x hlo hhi => ?_⟩
    rcases hc with rfl | rfl
    · rw [pages, if_neg (by lia), if_neg (by lia), if_neg (by lia), if_pos (by lia)]
    · rw [pages, if_neg (by lia), if_neg (by lia), if_neg (by lia), if_neg (by lia),
        if_pos (by lia)]
  pool_nodup := by decide
  kmem_nodup := by decide
  kmem b hb := by cases hb
  kinds m hm := by cases hm
  counts c _ := ⟨le_refl _, by lia, rfl⟩
  unused c hc := by cases hc
  free c := by
    simp [booted]
    lia
  free_nodup := by decide
  m_clfree := by decide

/-- An mbuf and its copy refer to a cluster; once the first is freed the copy still does. -/
theorem counted_copy_free :
    ∃ s, Counted s ∧ s.kern.mclfree = [16384] ∧ refs s.live 17408 = 1 := by
  have htype : (1 : ℤ) ≠ MT_FREE := by decide
  have hrun : Run (Guarded Ok Step) ⟨booted, [], [16384, 17408]⟩
      [.m_get 1, .mclget (mgot 1 16128), .copy ⟨16128, 1280, 1024, 1, 1, .buffree, 0⟩ 100 200,
        .m_free ⟨16128, 1280, 1024, 1, 1, .buffree, 0⟩] _ :=
    .cons ⟨⟨htype, trivial⟩, rfl⟩ <|
    .cons ⟨⟨⟨by decide, mgot_small 1 16128⟩, trivial⟩, rfl⟩ <|
    .cons ⟨⟨⟨by decide, by decide, by decide, by decide⟩, by decide⟩, _, _, rfl, rfl⟩ <|
    .cons ⟨⟨show _ ∈ State.live _ by decide, by decide⟩, _, rfl, rfl⟩ (.nil _)
  exact ⟨_, counted_of_run world_booted hrun, by decide, by decide⟩

/-- The second mbuf is right in front of its cluster, and once it is freed the cluster is neither
free nor referred to. -/
theorem not_counted_behind :
    ∃ s, Run (Guarded Legal Step) ⟨booted, [], [16384, 17408]⟩
        [.m_get 1, .m_get 1, .mclget (mgot 1 16128), .mclget (mgot 1 16256),
          .m_free ⟨16256, 128, 1024, 1, 1, .buffree, 0⟩] s ∧ ¬ Counted s := by
  have htype : (1 : ℤ) ≠ MT_FREE := by decide
  refine ⟨_, .cons ⟨htype, rfl⟩ <| .cons ⟨htype, rfl⟩ <|
    .cons ⟨⟨by decide, mgot_small 1 16128⟩, rfl⟩ <| .cons ⟨⟨by decide, mgot_small 1 16256⟩, rfl⟩ <|
    .cons ⟨show _ ∈ State.live _ by decide, _, rfl, rfl⟩ (.nil _), fun h => ?_⟩
  exact absurd ((h.free 16384 (by decide)).mpr (by decide)) (by decide)

end Uipc
