/-
# Round trips of every type

Elements, objects behind pointers, arms and fields round-trip when their routines do;
so, by induction on the depth of the calls, the routine of every type does.
-/
import SunOS.Rpc.XdrRoundTrip

namespace Xdr

open Option (some.inj map_eq_some_iff bind_eq_some_iff)
open List
open Option (bind_some map_some)
open Bytes

variable {σ τ : Type} {ops : xdr_ops σ} {ops' : xdr_ops τ} {al al' : Allocator} {defs : ℕ → Ty}
  {n : ℕ} {Out : σ → List UInt8 → Prop} {In : τ → List UInt8 → Prop} {p : xdrproc_t σ}
  {q : xdrproc_t τ} {rd : Val → Option Data}

/-! ## One routine after the other -/

variable {bs : List UInt8} {s s' : XDR σ} {vs vs' : List Val}

/-- `Frees`, of one piece of storage after the other. -/
def FreesAll (items : List (xdrproc_t τ × Val)) (nodes : List (ℕ × ℕ)) : Prop :=
  ∀ f : XDR τ, ∃ vs' freed,
    xdr_each .free items f = some (true, vs', { f with freed := f.freed ++ freed }) ∧
      freed.Perm nodes

/-- `Decodes`, of one value after the other. -/
def DecodesAll (In : τ → List UInt8 → Prop) (qs : List (xdrproc_t τ))
    (rds : List (Val → Option Data)) (ds : List Data) (out : List UInt8) : Prop :=
  ∀ (r : XDR τ) (rest : List UInt8), In r.x_private (out ++ rest) → ∃ vs r' nodes,
    xdr_each .decode (qs.zip (List.replicate qs.length .zero)) r = some (true, vs, r') ∧
      vs.length = qs.length ∧ In r'.x_private rest ∧ readAll (rds.zip vs) = some ds ∧
      r'.alloced = r.alloced ++ nodes ∧ r'.freed = r.freed ∧ FreesAll (qs.zip vs) nodes

theorem frees_cons {v : Val} {items : List (xdrproc_t τ × Val)} {nodes nodes' : List (ℕ × ℕ)}
    (h : Frees q v nodes) (hs : FreesAll items nodes') :
    FreesAll ((q, v) :: items) (nodes ++ nodes') := by
  intro f
  obtain ⟨v', freed, hfree, hperm⟩ := h f
  obtain ⟨vs', freed', hfree', hperm'⟩ := hs { f with freed := f.freed ++ freed }
  refine ⟨v' :: vs', freed ++ freed', ?_, hperm.append hperm'⟩
  rw [xdr_each, hfree]
  simp only [hfree', map_some, append_assoc]

/-- Routines that round-trip do so one after the other. -/
theorem each_roundTrips (items : List (xdrproc_t σ × xdrproc_t τ × (Val → Option Data)))
    (h : ∀ i ∈ items, RoundTrips Out In i.1 i.2.1 i.2.2)
    (hlen : vs.length = items.length) (ho : Out s.x_private bs)
    (hrun : xdr_each .encode ((items.map fun i => i.1).zip vs) s = some (true, vs', s')) :
    ∃ ds out, readAll ((items.map fun i => i.2.2).zip vs) = some ds ∧
      Out s'.x_private (bs ++ out) ∧ 4 ∣ out.length ∧
      DecodesAll In (items.map fun i => i.2.1) (items.map fun i => i.2.2) ds out := by
  induction items generalizing vs vs' s bs with
  | nil =>
    obtain rfl : vs = [] := List.length_eq_zero_iff.mp hlen
    have hs : s' = s := (Prod.mk.inj (Prod.mk.inj (some.inj hrun)).2).2.symm
    refine ⟨[], [], rfl, by simpa [hs] using ho, by simp, ?_⟩
    intro r rest hi
    exact ⟨[], r, [], rfl, rfl, by simpa using hi, rfl, by simp, rfl,
      fun f => ⟨[], [], by simp [xdr_each], List.Perm.refl _⟩⟩
  | cons i items ih =>
    obtain ⟨p, q, rd⟩ := i
    cases vs with
    | nil => simp at hlen
    | cons v vs =>
      rw [map_cons, zip_cons_cons, xdr_each] at hrun
      rcases hp : p .encode v s with - | ⟨_ | _, v1, t⟩
      · simp [hp] at hrun
      · simp [hp] at hrun
      · simp only [hp] at hrun
        obtain ⟨⟨ok, vs1, u⟩, hrest, heq⟩ := map_eq_some_iff.mp hrun
        obtain ⟨rfl, -, rfl⟩ := heq
        obtain ⟨d, out, hd, ht, hdvd, hdec⟩ := h (p, q, rd) (by simp) v v1 s t bs ho hp
        obtain ⟨ds, out', hds, hu, hdvd', hdec'⟩ :=
          ih (fun j hj => h j (by simp [hj])) (by simpa using hlen) ht hrest
        refine ⟨d :: ds, out ++ out', ?_, by rwa [← append_assoc], ?_, ?_⟩
        · rw [map_cons, zip_cons_cons, readAll, hd, hds, bind_some,
            map_some]
        · rw [length_append]
          omega
        · intro r rest hi
          rw [append_assoc] at hi
          obtain ⟨v2, r2, nodes, hq, hin, hrd, halloced, hfreed, hfree⟩ := hdec r _ hi
          obtain ⟨vs2, r3, nodes', hqs, hlen', hin', hrds, halloced', hfreed', hfree'⟩ :=
            hdec' r2 rest hin
          refine ⟨v2 :: vs2, r3, nodes ++ nodes', ?_, by simpa using hlen', hin', ?_, ?_, ?_,
            frees_cons hfree hfree'⟩
          · show xdr_each .decode ((q, .zero) :: (items.map fun i => i.2.1).zip
              (List.replicate (items.map fun i => i.2.1).length .zero)) r = _
            replace hq : q .decode .zero r = some (true, v2, r2) := hq
            rw [xdr_each, hq]
            simp only [hqs, map_some]
          · rw [map_cons, zip_cons_cons, readAll, hrd, hrds, bind_some,
              map_some]
          · rw [halloced', halloced, append_assoc]
          · rw [hfreed', hfreed]

theorem map_eq_zip {α β : Type} (a : α) (l : List β) :
    l.map (a, ·) = (List.replicate l.length a).zip l := by
  induction l with
  | nil => rfl
  | cons b l ih => rw [map_cons, ih, length_cons, replicate_succ, zip_cons_cons]

/-- A routine that round-trips does so on one element after the other. -/
theorem elements_roundTrip (h : RoundTrips Out In p q rd) (ho : Out s.x_private bs)
    (hrun : xdr_each .encode (vs.map (p, ·)) s = some (true, vs', s')) :
    ∃ ds out, readAll (vs.map (rd, ·)) = some ds ∧ Out s'.x_private (bs ++ out) ∧
      4 ∣ out.length ∧ ∀ (r : XDR τ) (rest : List UInt8), In r.x_private (out ++ rest) →
        ∃ vs2 r' nodes,
          xdr_each .decode ((List.replicate vs.length .zero).map (q, ·)) r = some (true, vs2, r') ∧
          vs2.length = vs.length ∧ In r'.x_private rest ∧ readAll (vs2.map (rd, ·)) = some ds ∧
          r'.alloced = r.alloced ++ nodes ∧ r'.freed = r.freed ∧
          FreesAll (vs2.map (q, ·)) nodes := by
  have hitems : ∀ i ∈ List.replicate vs.length (p, q, rd),
      RoundTrips Out In i.1 i.2.1 i.2.2 := by
    intro i hi
    rw [eq_of_mem_replicate hi]
    exact h
  have hzip : xdr_each .encode
      (((List.replicate vs.length (p, q, rd)).map fun i => i.1).zip vs) s = some (true, vs',
        s') := by
    rwa [map_replicate, ← map_eq_zip]
  obtain ⟨ds, out, hds, hout, hdvd, hdec⟩ := each_roundTrips _ hitems (by simp) ho hzip
  rw [map_replicate, ← map_eq_zip] at hds
  refine ⟨ds, out, hds, hout, hdvd, ?_⟩
  intro r rest hi
  obtain ⟨vs2, r', nodes, hrun', hlen, hin, hread, halloced, hfreed, hfree⟩ := hdec r rest hi
  rw [map_replicate, length_replicate] at hrun' hlen
  rw [map_replicate, ← hlen, ← map_eq_zip] at hread hfree
  refine ⟨vs2, r', nodes, ?_, hlen, hin, hread, halloced, hfreed, hfree⟩
  rw [map_eq_zip, length_replicate]
  exact hrun'

theorem roundTrips_vector (nelem : ℕ) (t : Ty)
    (h : TypeTrips ops ops' al al' defs n Out In t) :
    TypeTrips ops ops' al al' defs (n + 1) Out In (.vector nelem t) := by
  intro v v' s s' bs ho henc
  obtain ⟨elems, hv, henc⟩ := bind_eq_some_iff.mp henc
  obtain ⟨⟨ok, vs', t'⟩, hrun, heq⟩ := map_eq_some_iff.mp henc
  obtain ⟨rfl, -, rfl⟩ := heq
  have hlen : elems.length = nelem := by
    cases v with
    | zero => simp [← some.inj hv]
    | vector l =>
      rw [Val.asVector] at hv
      split at hv
      · next hl => rw [← some.inj hv, hl]
      · exact absurd hv (by simp)
    | _ => exact absurd hv (by simp [Val.asVector])
  obtain ⟨ds, out, hds, hout, hdvd, hdec⟩ := elements_roundTrip h ho hrun
  refine ⟨.list ds, out, by rw [read, hv, bind_some, hds, map_some], hout, hdvd, ?_⟩
  intro r rest hi
  obtain ⟨vs2, r', nodes, hrun', hlen', hin, hread, halloced, hfreed, hfree⟩ := hdec r rest hi
  have hvs2 : (Val.vector vs2).asVector nelem = some vs2 := by
    rw [Val.asVector, if_pos (hlen'.trans hlen)]
  refine ⟨.vector vs2, r', nodes, ?_, hin, ?_, halloced, hfreed, ?_⟩
  · rw [hlen] at hrun'
    simp only [proc, Val.asVector, bind_some, hrun', map_some]
  · rw [read, hvs2, bind_some, hread, map_some]
  · intro f
    obtain ⟨vs3, freed, hrun3, hperm⟩ := hfree f
    refine ⟨.vector vs3, freed, ?_, hperm⟩
    rw [proc, hvs2, bind_some, hrun3, map_some]

/-! ## Arrays -/

variable {block : List Val} {v' : ℕ × List Val × UInt32} {c maxsize elsize : UInt32}
    {out rest : List UInt8}

theorem arrayAt_encode {target : ℕ} {c elsize : UInt32}
    (hrun : xdr_arrayAt .encode target block c elsize p s = some (true, v', s')) :
    (block.take c.toNat).length = c.toNat ∧ (c ≠ 0 → c.toNat * elsize.toNat < 2 ^ 31) ∧
      ∃ vs', xdr_each .encode ((block.take c.toNat).map (p, ·)) s = some (true, vs', s') := by
  rw [xdr_arrayAt] at hrun
  by_cases hbad : c ≠ 0 ∧
      (target = 0 ∨ block.length < c.toNat ∨ 2 ^ 31 ≤ c.toNat * elsize.toNat)
  · rw [if_pos hbad] at hrun
    exact absurd hrun (by simp)
  · rw [if_neg hbad] at hrun
    obtain ⟨⟨ok, vs', t⟩, heach, heq⟩ := map_eq_some_iff.mp hrun
    obtain ⟨rfl, -, rfl⟩ := heq
    refine ⟨?_, ?_, vs', heach⟩
    · rw [length_take]
      by_cases hzero : c = 0
      · subst hzero
        simp
      · have hle : ¬ block.length < c.toNat := fun h => hbad ⟨hzero, Or.inr (Or.inl h)⟩
        omega
    · intro hzero
      by_contra hge
      exact hbad ⟨hzero, Or.inr (Or.inr (by omega))⟩

theorem array_encode (hw : Writes ops Out) {target : ℕ} (ho : Out s.x_private bs)
    (hrun : xdr_array ops al .encode target block c maxsize elsize p s = some (true, v', s')) :
    ¬ c > maxsize ∧ (block.take c.toNat).length = c.toNat ∧
      (c ≠ 0 → c.toNat * elsize.toNat < 2 ^ 31) ∧ ∃ vs' t, Out t.x_private (bs ++ htonl c) ∧
        xdr_each .encode ((block.take c.toNat).map (p, ·)) t = some (true, vs', s') := by
  rw [xdr_array] at hrun
  rcases hlong : xdr_long ops .encode c s with ⟨_ | _, y, t⟩
  · simp [hlong] at hrun
  · obtain ⟨rfl, ht⟩ := long_encode hw ho hlong
    simp only [hlong] at hrun
    by_cases hmax : y > maxsize ∧ xdr_op.encode ≠ .free
    · rw [if_pos hmax] at hrun
      exact absurd hrun (by simp)
    · rw [if_neg hmax, ite_self] at hrun
      obtain ⟨hlen, hfit, vs', heach⟩ := arrayAt_encode hrun
      exact ⟨fun h => hmax ⟨h, by decide⟩, hlen, hfit, vs', t, ht, heach⟩

/-- The elements that an array has been decoded to, and the storage that holds them. -/
theorem array_decode (hr : Reads ops' In) (hal : ∀ k size, al'.node k size ≠ 0)
    {ds : List Data} {r : XDR τ}
    (hmax : ¬ c > maxsize) (hfit : c ≠ 0 → c.toNat * elsize.toNat < 2 ^ 31)
    (hdec : ∀ (r : XDR τ) (rest : List UInt8), In r.x_private (out ++ rest) → ∃ vs r' nodes,
      xdr_each .decode ((List.replicate c.toNat .zero).map (q, ·)) r = some (true, vs, r') ∧
        vs.length = c.toNat ∧ In r'.x_private rest ∧ readAll (vs.map (rd, ·)) = some ds ∧
        r'.alloced = r.alloced ++ nodes ∧ r'.freed = r.freed ∧ FreesAll (vs.map (q, ·)) nodes)
    (hi : In r.x_private (htonl c ++ (out ++ rest))) :
    ∃ target vs r' nodes, xdr_array ops' al' .decode 0 [] 0 maxsize elsize q r =
        some (true, (target, vs, c), r') ∧ vs.length = c.toNat ∧ In r'.x_private rest ∧
      readAll (vs.map (rd, ·)) = some ds ∧ r'.alloced = r.alloced ++ nodes ∧ r'.freed = r.freed ∧
      ∀ f : XDR τ, ∃ v' freed, xdr_array ops' al' .free target vs c maxsize elsize q f =
        some (true, v', { f with freed := f.freed ++ freed }) ∧ freed.Perm nodes := by
  obtain ⟨t, hlong, ht⟩ := long_decode hr 0 hi
  rw [xdr_array]
  simp only [hlong, if_neg fun h => hmax (And.left h), if_true]
  by_cases hzero : c = 0
  · -- no element, no node
    subst hzero
    obtain ⟨vs, r', nodes, heach, hlen, hin, hread, -⟩ := hdec { r with x_private := t } rest ht
    obtain rfl : vs = [] := List.length_eq_zero_iff.mp hlen
    have hr' : { r with x_private := t } = r' := by
      have heq := some.inj heach
      exact (Prod.mk.inj (Prod.mk.inj heq).2).2
    refine ⟨0, [], { r with x_private := t }, [], rfl, rfl, hr' ▸ hin, hread, by simp, rfl,
      fun f => ⟨(0, [], 0), [], ?_, List.Perm.refl _⟩⟩
    simp [xdr_array, long_free]
  · have hnode := hal r.calls (c * elsize).toNat
    obtain ⟨vs, r', nodes, heach, hlen, hin, hread, halloced, hfreed, hfree⟩ := hdec { r with
      x_private := t
      calls := r.calls + 1
      alloced := r.alloced ++ [(al'.node r.calls (c * elsize).toNat, (c * elsize).toNat)] } rest ht
    have hgood : ∀ block : List Val, block.length = c.toNat →
        ¬ (c ≠ 0 ∧ (al'.node r.calls (c * elsize).toNat = 0 ∨ block.length < c.toNat ∨
          2 ^ 31 ≤ c.toNat * elsize.toNat)) := by
      rintro block hblock ⟨-, h | h | h⟩
      · exact hnode h
      · omega
      · exact absurd (hfit hzero) (by omega)
    simp only [if_neg hzero, mem_alloc_eq hal, if_neg hnode, xdr_arrayAt]
    rw [if_neg (hgood _ length_replicate), take_of_length_le (by simp), heach]
    refine ⟨al'.node r.calls (c * elsize).toNat, vs, r',
      (al'.node r.calls (c * elsize).toNat, (c * elsize).toNat) :: nodes, ?_, hlen, hin, hread, ?_,
      hfreed, fun f => ?_⟩
    · simp
    · rw [halloced, append_assoc]
      rfl
    · obtain ⟨vs', freed, heach', hperm⟩ := hfree f
      refine ⟨(0, [], c), freed ++ [(al'.node r.calls (c * elsize).toNat, (c * elsize).toNat)], ?_,
        ?_⟩
      · rw [xdr_array, long_free]
        simp only [ne_eq, not_true, and_false, if_false, if_neg hnode, xdr_arrayAt]
        rw [if_neg (hgood vs hlen), take_of_length_le (by omega), heach']
        simp [mem_free]
      · exact (perm_append_comm).trans (hperm.cons _)

theorem roundTrips_array (hw : Writes ops Out) (hr : Reads ops' In)
    (hal : ∀ k size, al'.node k size ≠ 0) (maxsize elsize : UInt32) (t : Ty)
    (h : TypeTrips ops ops' al al' defs n Out In t) :
    TypeTrips ops ops' al al' defs (n + 1) Out In (.array maxsize elsize t) := by
  intro v v' s s' bs ho henc
  obtain ⟨⟨target, block, c⟩, hv, henc⟩ := bind_eq_some_iff.mp henc
  obtain ⟨⟨ok, v1, t'⟩, hrun, heq⟩ := map_eq_some_iff.mp henc
  obtain ⟨rfl, -, rfl⟩ := heq
  obtain ⟨hmax, hlen, hfit, vs', u, hu, heach⟩ := array_encode hw ho hrun
  obtain ⟨ds, out, hds, hout, hdvd, hdec⟩ := elements_roundTrip h hu heach
  rw [append_assoc] at hout
  refine ⟨.list ds, _, by simp only [read, hv, bind_some, hds, map_some], hout, ?_, ?_⟩
  · rw [length_append, length_htonl]
    omega
  · intro r rest hi
    rw [hlen] at hdec
    obtain ⟨target', vs, r', nodes, hrun', hlen', hin, hread, halloced, hfreed, hfree⟩ :=
      array_decode hr hal hmax hfit hdec hi
    refine ⟨.array target' vs c, r', nodes, ?_, hin, ?_, halloced, hfreed, ?_⟩
    · simp only [proc, Val.asArray, bind_some, hrun', map_some]
    · simp only [read, Val.asArray, bind_some]
      rw [take_of_length_le (by omega), hread, map_some]
    · intro f
      obtain ⟨⟨target1, vs1, c1⟩, freed, hrun1, hperm⟩ := hfree f
      refine ⟨.array target1 vs1 c1, freed, ?_, hperm⟩
      simp only [proc, Val.asArray, bind_some, hrun1, map_some]

/-! ## Objects behind pointers -/

/-- The object that a reference has been decoded to, and the storage that holds it. -/
theorem reference_decode (hal : ∀ k size, al'.node k size ≠ 0) (size : UInt32) {d : Data}
    {r : XDR τ} (hdec : Decodes In q rd d out)
    (hi : In r.x_private (out ++ rest)) (obj : Val) :
    ∃ loc v r' nodes, xdr_reference al' .decode 0 obj size q r = some (true, (loc, v), r') ∧
      loc ≠ 0 ∧ In r'.x_private rest ∧ rd v = some d ∧ r'.alloced = r.alloced ++ nodes ∧
      r'.freed = r.freed ∧ ∀ f : XDR τ, ∃ v' freed, xdr_reference al' .free loc v size q f =
        some (true, v', { f with freed := f.freed ++ freed }) ∧ freed.Perm nodes := by
  have hnode := hal r.calls size.toNat
  obtain ⟨v, r', nodes, hq, hin, hread, halloced, hfreed, hfree⟩ := hdec { r with
    calls := r.calls + 1
    alloced := r.alloced ++ [(al'.node r.calls size.toNat, size.toNat)] } rest hi
  refine ⟨al'.node r.calls size.toNat, v, r',
    (al'.node r.calls size.toNat, size.toNat) :: nodes, ?_, hnode, hin, hread, ?_, hfreed,
    fun f => ?_⟩
  · rw [xdr_reference, if_pos rfl]
    simp only [mem_alloc_eq hal, if_neg hnode, hq, map_some]
  · rw [halloced, append_assoc]
    rfl
  · obtain ⟨v', freed, hq', hperm⟩ := hfree f
    refine ⟨(0, .zero), freed ++ [(al'.node r.calls size.toNat, size.toNat)], ?_,
      (perm_append_comm).trans (hperm.cons _)⟩
    rw [xdr_reference, if_neg hnode, hq', map_some]
    simp [mem_free]

theorem reference_encode {loc : ℕ} {obj : Val} {size : UInt32} {v' : ℕ × Val}
    (h : xdr_reference al .encode loc obj size p s = some (true, v', s')) :
    loc ≠ 0 ∧ ∃ obj', p .encode obj s = some (true, obj', s') := by
  rw [xdr_reference] at h
  by_cases hloc : loc = 0
  · rw [if_pos hloc] at h
    exact absurd h (by simp)
  · rw [if_neg hloc] at h
    obtain ⟨⟨ok, obj', t⟩, hp, heq⟩ := map_eq_some_iff.mp h
    obtain ⟨rfl, -, rfl⟩ := heq
    exact ⟨hloc, obj', hp⟩

theorem roundTrips_reference (hal : ∀ k size, al'.node k size ≠ 0) (size : UInt32) (t : Ty)
    (h : TypeTrips ops ops' al al' defs n Out In t) :
    TypeTrips ops ops' al al' defs (n + 1) Out In (.reference size t) := by
  intro v v' s s' bs ho henc
  obtain ⟨⟨loc, obj⟩, hv, henc⟩ := bind_eq_some_iff.mp henc
  obtain ⟨⟨ok, v1, t'⟩, hrun, heq⟩ := map_eq_some_iff.mp henc
  simp only [Prod.mk.injEq] at heq
  obtain ⟨rfl, -, rfl⟩ := heq
  obtain ⟨hloc, obj', hp⟩ := reference_encode hrun
  obtain ⟨d, out, hd, hout, hdvd, hdec⟩ := h obj obj' s t' bs ho hp
  refine ⟨.ref d, out, by simp only [read, hv, bind_some, if_neg hloc, hd, map_some],
    hout, hdvd, ?_⟩
  intro r rest hi
  obtain ⟨loc', w, r', nodes, hrun', hloc', hin, hread, halloced, hfreed, hfree⟩ :=
    reference_decode hal size hdec hi .zero
  refine ⟨.pointer loc' w, r', nodes, ?_, hin, ?_, halloced, hfreed, ?_⟩
  · simp only [proc, Val.asPointer, bind_some, hrun', map_some]
  · simp only [read, Val.asPointer, bind_some, if_neg hloc', hread, map_some]
  · intro f
    obtain ⟨⟨loc1, w1⟩, freed, hrun1, hperm⟩ := hfree f
    refine ⟨.pointer loc1 w1, freed, ?_, hperm⟩
    simp only [proc, Val.asPointer, bind_some, hrun1, map_some]

theorem bool_free (bp : UInt32) (f : XDR τ) : xdr_bool ops' .free bp f = (true, bp, f) := rfl

theorem roundTrips_pointer (hw : Writes ops Out) (hr : Reads ops' In)
    (hal : ∀ k size, al'.node k size ≠ 0) (size : UInt32) (t : Ty)
    (h : TypeTrips ops ops' al al' defs n Out In t) :
    TypeTrips ops ops' al al' defs (n + 1) Out In (.pointer size t) := by
  intro v v' s s' bs ho henc
  obtain ⟨⟨loc, obj⟩, hv, henc⟩ := bind_eq_some_iff.mp henc
  obtain ⟨⟨ok, v1, t'⟩, hrun, heq⟩ := map_eq_some_iff.mp henc
  simp only [Prod.mk.injEq] at heq
  obtain ⟨rfl, -, rfl⟩ := heq
  rw [xdr_pointer] at hrun
  rcases hbool : xdr_bool ops .encode (if loc ≠ 0 then 1 else 0) s with ⟨_ | _, more_data, u⟩
  · rw [hbool] at hrun
    exact absurd hrun (by simp)
  · obtain ⟨rfl, hu⟩ := bool_encode hw ho hbool
    simp only [hbool] at hrun
    by_cases hloc : loc = 0
    · -- a null pointer
      simp only [hloc, ne_eq, not_true, if_false, if_true, Option.some.injEq, Prod.mk.injEq,
        true_and] at hrun hu
      obtain ⟨-, rfl⟩ := hrun
      refine ⟨.null, _, by simp only [read, hv, bind_some, if_pos hloc], hu, by simp, ?_⟩
      intro r rest hi
      obtain ⟨w, hdec, hin⟩ := bool_decode hr 0 hi
      refine ⟨.pointer 0 .zero, { r with x_private := w }, [], ?_, hin, ?_, by simp, rfl,
        frees_nil fun f => ⟨.pointer 0 .zero, ?_⟩⟩
      · simp [proc, Val.asPointer, xdr_pointer, hdec]
      · simp [read, Val.asPointer]
      · simp [proc, Val.asPointer, xdr_pointer, bool_free]
    · have hone : (1 : UInt32) ≠ 0 := by decide
      simp only [ne_eq, hloc, not_false_eq_true, if_true, hone, if_false] at hrun hu
      obtain ⟨-, obj', hp⟩ := reference_encode hrun
      obtain ⟨d, out, hd, hout, hdvd, hdec⟩ := h obj obj' u t' _ hu hp
      rw [append_assoc] at hout
      refine ⟨.ref d, _, by simp only [read, hv, bind_some, if_neg hloc, hd,
        map_some], hout, ?_, ?_⟩
      · rw [length_append, length_htonl]
        omega
      · intro r rest hi
        obtain ⟨w, hmore, hin⟩ := bool_decode hr 0 hi
        obtain ⟨loc', w', r', nodes, hrun', hloc', hin', hread, halloced, hfreed, hfree⟩ :=
          reference_decode hal size hdec (r := { r with x_private := w }) hin .zero
        refine ⟨.pointer loc' w', r', nodes, ?_, hin', ?_, halloced, hfreed, ?_⟩
        · simp [proc, Val.asPointer, xdr_pointer, hmore, hrun']
        · simp only [read, Val.asPointer, bind_some, if_neg hloc', hread, map_some]
        · intro f
          obtain ⟨⟨loc1, w1⟩, freed, hrun1, hperm⟩ := hfree f
          refine ⟨.pointer loc1 w1, freed, ?_, hperm⟩
          simp [proc, Val.asPointer, xdr_pointer, bool_free, hloc', hrun1]

/-! ## Arms and fields -/

variable {choices : List (UInt32 × Ty)} {dfault : Option Ty}

/-- The type of the arm that a discriminant selects. -/
def armOf (choices : List (UInt32 × Ty)) (dfault : Option Ty) (dscm : UInt32) : Option Ty :=
  match choices.find? (·.1 == dscm) with
  | some (_, t) => some t
  | none => dfault

/-- `xdr_union` once the discriminant is there. -/
theorem union_eq {op : xdr_op} {dscmp dscm : UInt32} {arm : Val} {s t : XDR σ}
    (hlong : xdr_long ops op dscmp s = (true, dscm, t)) :
    xdr_union ops op dscmp arm (choices.map fun c => (c.1, proc ops al defs n c.2))
      (dfault.map (proc ops al defs n)) s =
    match armOf choices dfault dscm with
    | none => some (false, (dscm, arm), t)
    | some ty => (proc ops al defs n ty op arm t).map
        fun (ok, arm, t) => (ok, (dscm, arm), t) := by
  rw [xdr_union, hlong, armOf]
  have hfind : (choices.map fun c => (c.1, proc ops al defs n c.2)).find? (·.1 == dscm) =
      (choices.find? (·.1 == dscm)).map fun c => (c.1, proc ops al defs n c.2) := by
    rw [List.find?_map]
    rfl
  simp only [hfind]
  cases choices.find? (·.1 == dscm) with
  | some c => rfl
  | none => cases dfault <;> rfl

theorem read_union {v arm : Val} {dscm : UInt32} (hv : v.asUnion = some (dscm, arm)) :
    read defs (n + 1) (.union choices dfault) v =
      (armOf choices dfault dscm).bind fun ty => (read defs n ty arm).map (.arm dscm) := by
  simp only [read, hv, bind_some, armOf]
  cases choices.find? (·.1 == dscm) with
  | some c => rfl
  | none => cases dfault <;> rfl

theorem roundTrips_union (hw : Writes ops Out) (hr : Reads ops' In)
    (choices : List (UInt32 × Ty)) (dfault : Option Ty)
    (h : ∀ t, TypeTrips ops ops' al al' defs n Out In t) :
    TypeTrips ops ops' al al' defs (n + 1) Out In (.union choices dfault) := by
  intro v v' s s' bs ho henc
  obtain ⟨⟨dscm, arm⟩, hv, henc⟩ := bind_eq_some_iff.mp henc
  obtain ⟨⟨ok, v1, t'⟩, hrun, heq⟩ := map_eq_some_iff.mp henc
  obtain ⟨rfl, -, rfl⟩ := heq
  rcases hlong : xdr_long ops .encode dscm s with ⟨_ | _, y, u⟩
  · simp [xdr_union, hlong] at hrun
  · obtain ⟨rfl, hu⟩ := long_encode hw ho hlong
    rw [union_eq hlong] at hrun
    rcases harm : armOf choices dfault y with - | ty
    · simp [harm] at hrun
    · simp only [harm] at hrun
      obtain ⟨⟨ok, arm', w⟩, hp, heq⟩ := map_eq_some_iff.mp hrun
      obtain ⟨rfl, -, rfl⟩ := heq
      obtain ⟨d, out, hd, hout, hdvd, hdec⟩ := h ty arm arm' u w _ hu hp
      rw [append_assoc] at hout
      refine ⟨.arm y d, _, by rw [read_union hv, harm, bind_some, hd, map_some], hout,
        ?_, ?_⟩
      · rw [length_append, length_htonl]
        omega
      · intro r rest hi
        obtain ⟨w', hlong', hin⟩ := long_decode hr 0 hi
        obtain ⟨arm2, r', nodes, hq, hin', hread, halloced, hfreed, hfree⟩ :=
          hdec { r with x_private := w' } rest hin
        refine ⟨.union y arm2, r', nodes, ?_, hin', ?_, halloced, hfreed, ?_⟩
        · simp only [proc, Val.asUnion, bind_some]
          rw [union_eq hlong', harm]
          simp only [hq, map_some]
        · rw [read_union (show (Val.union y arm2).asUnion = some (y, arm2) from rfl), harm,
            bind_some, hread, map_some]
        · intro f
          obtain ⟨arm3, freed, hq', hperm⟩ := hfree f
          refine ⟨.union y arm3, freed, ?_, hperm⟩
          simp only [proc, Val.asUnion, bind_some]
          rw [union_eq (long_free y f), harm]
          simp only [hq', map_some]

theorem roundTrips_struct (fields : List Ty)
    (h : ∀ t, TypeTrips ops ops' al al' defs n Out In t) :
    TypeTrips ops ops' al al' defs (n + 1) Out In (.struct fields) := by
  intro v v' s s' bs ho henc
  obtain ⟨vs, hv, henc⟩ := bind_eq_some_iff.mp henc
  obtain ⟨⟨ok, vs', t'⟩, hrun, heq⟩ := map_eq_some_iff.mp henc
  simp only [Prod.mk.injEq] at heq
  obtain ⟨rfl, -, rfl⟩ := heq
  have hlen : vs.length = fields.length := by
    cases v with
    | zero => simp [← some.inj hv]
    | struct l =>
      rw [Val.asStruct] at hv
      split at hv
      · next hl => rw [← some.inj hv, hl]
      · exact absurd hv (by simp)
    | _ => exact absurd hv (by simp [Val.asStruct])
  have hitems : ∀ i ∈ fields.map fun t =>
      (proc ops al defs n t, proc ops' al' defs n t, read defs n t),
      RoundTrips Out In i.1 i.2.1 i.2.2 := by
    intro i hi
    obtain ⟨t, -, rfl⟩ := List.mem_map.mp hi
    exact h t
  have hzip : xdr_each .encode (((fields.map fun t =>
      (proc ops al defs n t, proc ops' al' defs n t, read defs n t)).map fun i => i.1).zip vs) s =
      some (true, vs', t') := by
    rw [map_map]
    exact hrun
  obtain ⟨ds, out, hds, hout, hdvd, hdec⟩ := each_roundTrips _ hitems (by simpa using hlen) ho hzip
  rw [map_map] at hds
  replace hds : readAll ((fields.map (read defs n)).zip vs) = some ds := hds
  refine ⟨.list ds, out, by rw [read, hv, bind_some, hds, map_some], hout, hdvd, ?_⟩
  intro r rest hi
  obtain ⟨vs2, r', nodes, hrun', hlen', hin, hread, halloced, hfreed, hfree⟩ := hdec r rest hi
  rw [map_map, length_map] at hrun' hlen'
  rw [map_map] at hread hfree
  have hvs2 : (Val.struct vs2).asStruct fields.length = some vs2 := by
    rw [Val.asStruct, if_pos hlen']
  refine ⟨.struct vs2, r', nodes, ?_, hin, ?_, halloced, hfreed, ?_⟩
  · replace hrun' : xdr_each .decode ((fields.map (proc ops' al' defs n)).zip
        (List.replicate fields.length .zero)) r = some (true, vs2, r') := hrun'
    simp only [proc, Val.asStruct, bind_some, hrun', map_some]
  · replace hread : readAll ((fields.map (read defs n)).zip vs2) = some ds := hread
    rw [read, hvs2, bind_some, hread, map_some]
  · intro f
    obtain ⟨vs3, freed, hrun3, hperm⟩ := hfree f
    refine ⟨.struct vs3, freed, ?_, hperm⟩
    replace hrun3 : xdr_each .free ((fields.map (proc ops' al' defs n)).zip vs2) f = _ := hrun3
    rw [proc, hvs2, bind_some, hrun3, map_some]

/-! ## Every type -/

/-- **Every type round-trips**, by induction on the depth of the calls. -/
theorem roundTrips_proc (hw : Writes ops Out) (hr : Reads ops' In)
    (hal : ∀ k size, al'.node k size ≠ 0) (n : ℕ) (t : Ty) :
    RoundTrips Out In (proc ops al defs n t) (proc ops' al' defs n t) (read defs n t) := by
  induction n generalizing t with
  | zero =>
    intro v v' s s' bs _ h
    exact absurd h (by simp [proc])
  | succ n ih =>
    cases t with
    | long => exact roundTrips_long hw hr
    | short => exact roundTrips_short hw hr
    | bool => exact roundTrips_bool hw hr
    | opaq cnt => exact roundTrips_opaque hw hr cnt
    | bytes maxsize => exact roundTrips_bytes hw hr hal maxsize
    | string maxsize => exact roundTrips_string hw hr hal maxsize
    | array maxsize elsize t => exact roundTrips_array hw hr hal maxsize elsize t (ih t)
    | vector nelem t => exact roundTrips_vector nelem t (ih t)
    | reference size t => exact roundTrips_reference hal size t (ih t)
    | pointer size t => exact roundTrips_pointer hw hr hal size t (ih t)
    | union choices dfault => exact roundTrips_union hw hr choices dfault ih
    | struct fields => exact roundTrips_struct fields ih
    | call f => exact ih (defs f)

end Xdr
