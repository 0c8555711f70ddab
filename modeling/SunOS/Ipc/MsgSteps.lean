/-
# One step of the message calls

Each routine of `ipc_msg.c`, started where the invariant holds, comes to a result; the
message lists make the step of that result, and the invariant holds again.  What can go
wrong is named by `Clear`.
-/
import SunOS.Ipc.MsgMoves

namespace IpcMsg

open List
open Function (update update_of_ne update_self)
open Ipc

variable {mi : msginfo} {s t : State} {g : Ghost} {A B : Lists} {e : Event} {r : Result}
  {p q qp : ℕ} {st : pstate}

/-! ## When a step is clear -/

/-- No other process is copying out message `mp`, or the message after it. -/
def Untouched (s : State) (p mp : ℕ) : Prop :=
  ∀ q c, q ≠ p → s.proc q = .copying c → mp ∉ c.held

/-- What the queues need, having no lock: no message is taken while another process copies
it out, or the one after it; no queue is removed under a call that copies; a sender finds
the byte count below its bound, or, when it fails, the free list as it was; and `-msgtyp`
is a `long`. -/
def Clear (mi : msginfo) (s : State) : Event → Prop
  | .msgrcv _ _ a => -2 ^ 31 < a.msgtyp
  | .msgctl _ u msqid .IPC_RMID => ∀ qp, msgconv mi s msqid = some qp →
      ipcowner u (s.msgque qp).msg_perm = none →
      ∀ q c, s.proc q = .copying c → c.onque ≠ some qp
  | .run p m =>
      match s.proc p with
      | .copying (.sndtext a qp _ mp _) =>
          (m.ok = true → ((s.msgque qp).msg_cbytes : ℤ) + a.msgsz < 65536) ∧
            (m.ok = false → s.next mp = s.msgfp)
      | .copying (.rcvtype _ _ smp _ sz) => m.ok = true → sz = 0 → Untouched s p smp
      | .copying (.rcvtext _ _ smp _ _ _) => m.ok = true → Untouched s p smp
      | _ => True
  | _ => True

/-- The configuration has fewer headers than `msg_qnum` can count, and in the resource map
room for a gap beside every block. -/
structure Config (mi : msginfo) : Prop where
  headers : mi.msgtql < 65536
  room : mi.msgtql + 4 ≤ mi.msgmap

/-! ## Results that leave the lists alone -/

variable {perm : ipc_perm} {u : user}

/-- What a routine comes to: a result, and the step of the lists that goes with it. -/
def Goes (mi : msginfo) (A : Lists) (e : Event) (o : Option (Result × State)) : Prop :=
  ∃ r t, o = some (r, t) ∧ ∃ g B, A.Step mi (e, r) B ∧ Inv mi t g B

/-- The lists are as they were, but that the process may have looked at them. -/
structure Viewed (e : Event) (A B : Lists) : Prop where
  looks : Looks e A B
  still : Still A B
  others : ∀ q, q ≠ e.proc → B.view q = A.view q

/-- A receiver looks at the queues. -/
def Lists.look (A : Lists) (p : ℕ) : Lists := { A with view := Function.update A.view p A.que }

theorem Inv.others (hi : Inv mi s g A) (p : ℕ) : Others mi s g A p := fun q _ => hi.procs q

theorem goes_still (hi : Inv mi s g A) (hs : Same s t) (hv : Viewed e A B) (hp : e.proc = p)
    (hm : Moves mi e r A B) (hf : Fits mi t g B p st) (hh : st.hand = (s.proc p).hand) :
    Goes mi A e (some (r, t.setproc p st)) := by
  subst hp
  refine ⟨r, _, rfl, g, B, ⟨hv.looks, hm⟩, Inv.of_setproc (hi.core.alike hs.toAlike)
    (fun qp => (hi.sized qp).same hs) ((hi.others _).alike hs.toAlike hv.others) ⟨hf, fun h => ?_⟩
    fun qp => ?_⟩
  · rw [hh]
    exact (hi.procs _).hand h
  · rw [hv.still.1]
    exact hi.lists qp

/-- The call returns, and nothing has come of it. -/
theorem goes_ret (hi : Inv mi s g A) (hs : Same s t) (hv : Viewed e A B) (hp : e.proc = p)
    (hm : Moves mi e r A B) (hh : (s.proc p).hand = none) : Goes mi A e (ret p r t) :=
  goes_still hi hs hv hp hm (show Fits mi t g B p .user from trivial) hh.symm

/-- The process is switched out. -/
theorem goes_wait (hi : Inv mi s g A) (hs : Same s t) (hv : Viewed e A B) (hp : e.proc = p)
    (hf : Fits mi t g B p st) (hh : (s.proc p).hand = none) (hst : st.hand = none) :
    Goes mi A e (wait p st t) :=
  goes_still hi hs hv hp hv.still hf (hst.trans hh.symm)

/-- What `msgconv` finds is the queue of the index, and allocated. -/
theorem msgconv_some {id : ℤ} (h : msgconv mi s id = some qp) :
    qp = id.toNat % mi.msgmni ∧ (s.msgque qp).msg_perm.alloc = true := by
  unfold msgconv at h
  by_cases h0 : id < 0
  · rw [if_pos h0] at h
    cases h
  · rw [if_neg h0] at h
    by_cases h1 : !(s.msgque (id.toNat % mi.msgmni)).msg_perm.alloc ∨
        id.toNat / mi.msgmni ≠ (s.msgque (id.toNat % mi.msgmni)).msg_perm.seq
    · rw [if_pos h1] at h
      cases h
    · rw [if_neg h1] at h
      obtain rfl := Option.some.inj h
      rw [not_or] at h1
      exact ⟨rfl, by simpa using h1.1⟩

theorem ipcaccess_error {mode : ℕ} {err : Errno}
    (h : ipcaccess u perm mode = some err) : err = .EACCES := by
  unfold ipcaccess at h
  by_cases h0 : u.u_uid = 0
  · rw [if_pos h0] at h
    cases h
  · rw [if_neg h0] at h
    exact (Option.some.inj (Option.ite_none_left_eq_some.mp h).2).symm

theorem ipcowner_error {err : Errno} (h : ipcowner u perm = some err) : err = .EPERM := by
  unfold ipcowner suser at h
  split at h
  · split at h
    · cases h
    · exact (Option.some.inj h).symm
  · cases h

/-! ## Receiving -/

/-- The types of the messages on a queue are those of its headers. -/
theorem Inv.type_eq (hi : Inv mi s g A) {h : ℕ} (hh : h ∈ g.que qp) :
    (g.item h).type = (s.msgh h).msg_type := (hi.core.item qp h hh).1

/-- **`findmsg1`** begins to copy out what the request asks for, or there is no such
message. -/
theorem goes_findmsg1 (hi : Inv mi s g A) {a : rcvargs} (hp : e.proc = p)
    (hv : Viewed e A (A.look p)) (he : ∀ p' u a', e = .msgrcv p' u a' → a' = a)
    (hqp : qp = a.msqid.toNat % mi.msgmni) (hsz : 0 ≤ a.msgsz) (hmin : -2 ^ 31 < a.msgtyp)
    (hh : (s.proc p).hand = none) : Goes mi A e (findmsg1 mi p a qp s) := by
  have hlen : (g.que qp).length ≤ mi.msgtql :=
    hi.core.length_le (hi.core.que_nodup qp) fun k hk => ⟨_, (hi.core.que_own qp k).mp hk⟩
  obtain ⟨smp, spmp, hfind, hbest⟩ := find_best (hi.core.first qp) hlen hmin
  unfold findmsg1
  rw [hfind]
  simp only
  rcases hbest with ⟨hsmp, hnone⟩ | ⟨hsmp, pre, post, hque, hspmp, hpick⟩
  · rw [if_neg (not_not.mpr hsmp)]
    by_cases hnw : a.msgflg &&& IPC_NOWAIT ≠ 0
    · rw [if_pos hnw]
      refine goes_ret hi (Same.refl s) hv hp ⟨hv.still, ?_⟩ hh
      intro p' u a' heq m hm
      obtain rfl := he p' u a' heq
      rw [← hqp, hi.lists qp] at hm
      obtain ⟨h, hh, rfl⟩ := List.mem_map.mp hm
      rw [hi.type_eq hh]
      exact hnone h hh
    · rw [if_neg hnw]
      exact goes_wait hi (same_setmode s qp (by decide)) hv hp ⟨hqp, hsz, hmin⟩ hh rfl
  · rw [if_pos hsmp]
    have hplace : ∃ pre post, g.que qp = pre ++ smp :: post ∧ spmp = pre.getLastD 0 ∧
        ∃ pre' post', (A.look p).view p qp = pre' ++ g.item smp :: post' ∧
          (pre.map g.item).Sublist pre' ∧ Picks Item.type a.msgtyp pre' (g.item smp) post' := by
      refine ⟨pre, post, hque, hspmp, pre.map g.item, post.map g.item, ?_, List.Sublist.refl _, ?_⟩
      · show update A.view p A.que p qp = _
        rw [update_self, hi.lists qp, hque, map_append, map_cons]
      · refine hpick.map fun x hx => ?_
        rw [← hque] at hx
        exact hi.type_eq hx
    by_cases hlt : a.msgsz < (s.msgh smp).msg_ts
    · rw [if_pos hlt]
      by_cases hnoerr : a.msgflg &&& MSG_NOERROR = 0
      · rw [if_pos hnoerr]
        exact goes_ret hi (Same.refl s) hv hp hv.still hh
      · rw [if_neg hnoerr]
        exact goes_wait hi (Same.refl s) hv hp ⟨hqp, Or.inr ⟨hnoerr, hlt, rfl⟩, hplace⟩ hh rfl
    · rw [if_neg hlt]
      exact goes_wait hi (Same.refl s) hv hp ⟨hqp, Or.inl ⟨by omega, rfl⟩, hplace⟩ hh rfl

theorem viewed_same (h : ∀ p u a, e ≠ .msgrcv p u a) : Viewed e A A := by
  refine ⟨?_, ⟨rfl, rfl, rfl⟩, fun _ _ => rfl⟩
  cases e with
  | msgrcv p u a => exact absurd rfl (h p u a)
  | run p m => exact Or.inl rfl
  | _ => rfl

theorem viewed_look_msgrcv (p : ℕ) (u : user) (a : rcvargs) :
    Viewed (.msgrcv p u a) A (A.look p) :=
  ⟨rfl, ⟨rfl, rfl, rfl⟩, fun _ hq => update_of_ne hq _ _⟩

theorem viewed_look_run (p : ℕ) (m : io) : Viewed (.run p m) A (A.look p) :=
  ⟨Or.inr rfl, ⟨rfl, rfl, rfl⟩, fun _ hq => update_of_ne hq _ _⟩

theorem goes_msgrcv (hi : Inv mi s g A) {a : rcvargs} (hu : s.proc p = .user)
    (hmin : -2 ^ 31 < a.msgtyp) : Goes mi A (.msgrcv p u a) (msgrcv mi p u a s) := by
  have hv := viewed_look_msgrcv (A := A) p u a
  have hh : (s.proc p).hand = none := by
    rw [hu]
    rfl
  unfold msgrcv
  cases hconv : msgconv mi s a.msqid with
  | none => exact goes_ret hi (Same.refl s) hv rfl hv.still hh
  | some qp =>
    simp only
    cases hacc : ipcaccess u (s.msgque qp).msg_perm MSG_R with
    | some err =>
      obtain rfl := ipcaccess_error hacc
      exact goes_ret hi (Same.refl s) hv rfl hv.still hh
    | none =>
      by_cases hsz : a.msgsz < 0
      · rw [if_pos hsz]
        exact goes_ret hi (Same.refl s) hv rfl hv.still hh
      · rw [if_neg hsz]
        refine goes_findmsg1 hi rfl hv ?_ (msgconv_some hconv).1 (by omega) hmin hh
        rintro p' u' a' heq
        cases heq
        rfl

/-! ### Taking a message -/

/-- Taking another message off a list leaves what comes before a message. -/
theorem erase_place {x y : ℕ} {l l' pre post : List ℕ} (hnd : (l ++ x :: l').Nodup)
    (heq : l ++ x :: l' = pre ++ y :: post) (hxy : x ≠ y) (hlast : x ≠ pre.getLastD 0) :
    ∃ pre' post', l ++ l' = pre' ++ y :: post' ∧ pre.getLastD 0 = pre'.getLastD 0 ∧
      pre'.Sublist pre := by
  have hx : x ∉ l := fun hin => by
    have := (List.nodup_cons.mp (List.nodup_middle.mp hnd)).1
    exact this (List.mem_append.mpr (Or.inl hin))
  have herase : l ++ l' = (pre ++ y :: post).erase x := by
    rw [← heq, erase_append_right _ hx, erase_cons_head]
  by_cases hpre : x ∈ pre
  · refine ⟨pre.erase x, post, ?_, ?_, erase_sublist⟩
    · rw [herase, erase_append_left _ hpre]
    · rcases eq_nil_or_concat pre with rfl | ⟨k, z, rfl⟩
      · rfl
      · rw [concat_eq_append] at hpre hlast ⊢
        rw [getLastD_concat] at hlast ⊢
        have hk : x ∈ k := by
          rcases List.mem_append.mp hpre with hk | hk
          · exact hk
          · exact absurd (List.mem_singleton.mp hk) hlast
        rw [erase_append_left _ hk, getLastD_concat]
  · refine ⟨pre, post.erase x, ?_, rfl, List.Sublist.refl pre⟩
    rw [herase, erase_append_right _ hpre, erase_cons_tail (by simpa using hxy.symm)]

section Unlink

variable {pre post : List ℕ} {mp : ℕ}

/-- What is held elsewhere stays held when a message is taken off a queue. -/
theorem spares_unlink (hc : Core mi s g) (hq : g.que qp = pre ++ mp :: post) (hf : Freed s t)
    (hun : ∀ c smp spmp, s.proc q = .copying c → c.held = [smp, spmp] → c.onque = some qp →
      mp ≠ smp ∧ mp ≠ spmp) (hview : B.view q = A.view q) :
    Spares mi s t g (g.release mp (update g.que qp (pre ++ post))) A B q := by
  have hown : g.own mp = some (.que qp) := (hc.que_own qp mp).mp (by
    rw [hq]
    simp)
  refine ⟨hf.proc q, fun c r _ _ h => hf.alloc r h, fun h => ?_, fun h hh => ?_, ?_⟩
  · show update g.own mp _ h = _ ↔ _
    by_cases hk : h = mp
    · subst hk
      rw [update_self, hown]
      simp
    · rw [update_of_ne hk]
  · refine update_of_ne ?_ _ _
    rintro rfl
    rw [hown] at hh
    simp at hh
  · intro c a r smp spmp sz hproc hheld hon hold
    refine ⟨?_, by rw [hf.msgh]⟩
    by_cases hr : r = qp
    · subst hr
      obtain ⟨hne, hne'⟩ := hun c smp spmp hproc hheld hon
      obtain ⟨pre1, post1, h1, h2, pre', post', h3, h4, h5⟩ := hold.place
      have hnd := hc.que_nodup r
      rw [hq] at hnd
      rw [h2] at hne'
      obtain ⟨pre2, post2, h6, h7, h8⟩ := erase_place hnd (hq.symm.trans h1) hne hne'
      refine ⟨hold.que, by rw [hf.msgh]; exact hold.size, pre2, post2, ?_, h2.trans h7, pre', post',
        by rw [hview]; exact h3, (h8.map g.item).trans h4, h5⟩
      show update g.que r _ r = _
      rw [update_self]
      exact h6
    · exact hold.congr (update_of_ne hr _ _) (fun _ _ => rfl) (by rw [hf.msgh]) hview

theorem Ghost.total_congr {g' : Ghost} (hq : g'.que qp = g.que qp)
    (hh : ∀ h ∈ g.que qp, t.msgh h = s.msgh h) : g'.total t qp = g.total s qp := by
  unfold Ghost.total
  rw [hq]
  exact congrArg sum (map_congr_left fun h hm => by rw [hh h hm])

/-- **A message is taken**: it is the one chosen, and goes to nobody else. -/
theorem goes_takemsg (hcfg : Config mi) (hi : Inv mi s g A) {a : rcvargs} {smp spmp sz : ℕ}
    {type : ℤ} {bytes : List ℕ} {m : io} (hold : Holding mi s g A p a qp smp spmp sz)
    (hun : Untouched s p smp) (hh : (s.proc p).hand = none) (htype : type = (g.item smp).type)
    (hbytes : Delivers a (g.item smp) bytes) :
    Goes mi A (.run p m) (takemsg mi p a qp smp spmp type bytes s) := by
  obtain ⟨pre, post, hque, rfl, hchosen⟩ := hold.place
  unfold takemsg
  simp only
  have halike : Alike s (s.setque qp { s.msgque qp with
      msg_cbytes := ushort ((s.msgque qp).msg_cbytes - (s.msgh smp).msg_ts)
      msg_lrpid := a.pid }) := alike_setque rfl rfl rfl fun h => h
  have hcb : ∀ r, ((s.setque qp { s.msgque qp with
      msg_cbytes := ushort ((s.msgque qp).msg_cbytes - (s.msgh smp).msg_ts)
      msg_lrpid := a.pid }).msgque r).msg_cbytes =
        if r = qp then ushort ((s.msgque qp).msg_cbytes - (s.msgh smp).msg_ts)
        else (s.msgque r).msg_cbytes := by
    intro r
    show (update s.msgque qp _ r).msg_cbytes = _
    by_cases hr : r = qp
    · rw [if_pos hr, hr, update_self]
    · rw [if_neg hr, update_of_ne hr]
  generalize s.setque qp { s.msgque qp with
      msg_cbytes := ushort ((s.msgque qp).msg_cbytes - (s.msgh smp).msg_ts)
      msg_lrpid := a.pid } = s1 at halike hcb
  obtain ⟨t, ht, hfreed, hcb', hcore⟩ := (hi.core.alike halike).msgfree hcfg.room hcfg.headers hque
  have hst : Freed s t := halike.freed.trans hfreed
  rw [ht]
  refine ⟨_, _, rfl, g.release smp (update g.que qp (pre ++ post)),
    { A with
      que := update A.que qp (pre.map g.item ++ post.map g.item)
      got := (g.item smp).no :: A.got }, ⟨Or.inl rfl, hold.que, pre.map g.item, g.item smp,
      post.map g.item, ⟨?_, hchosen⟩, htype, hbytes, rfl, rfl, rfl⟩, Inv.of_setproc hcore
      (fun r => ?_) (fun q hq => ?_) ⟨trivial, fun h => ?_⟩ fun r => ?_⟩
  · rw [hi.lists qp, hque, map_append, map_cons]
  · have hsz := hi.sized r
    unfold Sized at hsz ⊢
    rw [hcb' r, hcb r]
    by_cases hr : r = qp
    · subst hr
      have htot : g.total s r = (s.msgh smp).msg_ts +
          (g.release smp (update g.que r (pre ++ post))).total t r := by
        unfold Ghost.total
        show _ = _ + (((update g.que r (pre ++ post) r)).map _).sum
        rw [update_self, hque, hst.msgh]
        simp only [map_append, map_cons, sum_append, sum_cons]
        omega
      rw [if_pos rfl]
      unfold ushort
      omega
    · rw [if_neg hr, Ghost.total_congr (s := s) (g := g) (update_of_ne hr _ _)
        fun h _ => by rw [hst.msgh]]
      exact hsz
  · refine (hi.procs q).spares (spares_unlink hi.core hque hst ?_ rfl)
    intro c x y hproc hheld _
    have hne := hun q c hq hproc
    rw [hheld, mem_cons, mem_singleton, not_or] at hne
    exact hne
  · show update g.own smp _ h = _ ↔ none = some h
    have hp := (hi.procs p).hand h
    rw [hh] at hp
    by_cases hk : h = smp
    · subst hk
      rw [update_self]
      simp
    · rw [update_of_ne hk]
      exact hp
  · show update A.que qp _ r = (update g.que qp _ r).map g.item
    by_cases hr : r = qp
    · subst hr
      rw [update_self, update_self, map_append]
    · rw [update_of_ne hr, update_of_ne hr]
      exact hi.lists r

end Unlink

/-! ## Sending -/

/-- What is held elsewhere stays held when a sender takes a header. -/
theorem spares_pop (hc : Core mi s g) (hne : s.msgfp ≠ 0) (hqp : q ≠ p) (m' : Rmap.map)
    {b : ℤ × ℤ} : Spares mi s { s with msgmap := m', msgfp := s.next s.msgfp } g
      (g.pop p s.msgfp b) A A q := by
  have hown : g.own s.msgfp = some .free := by
    obtain ⟨tl, hf, -⟩ := hc.free_cons hne
    exact (hc.free_own _).mp (by rw [hf]; simp)
  refine ⟨Or.inl rfl, fun c r _ _ h => h, fun h => ?_, fun h hh => ?_, ?_⟩
  · show update g.own s.msgfp _ h = _ ↔ _
    by_cases hk : h = s.msgfp
    · subst hk
      rw [update_self, hown]
      simp [hqp.symm]
    · rw [update_of_ne hk]
  · refine update_of_ne ?_ _ _
    rintro rfl
    rw [hown] at hh
    simp at hh
  · intro c a r smp spmp sz _ _ _ hold
    exact ⟨hold.congr rfl (fun _ _ => rfl) rfl rfl, rfl⟩

theorem linked_que (a : sndargs) (type : ℤ) (mp spot : ℕ) {k : ℕ} (hr : k ≠ qp) :
    (linked a qp type mp spot s).msgque k = s.msgque k := by
  unfold linked
  simp only [update_of_ne hr]

theorem linked_alloc (a : sndargs) (type : ℤ) (mp spot k : ℕ) :
    ((linked a qp type mp spot s).msgque k).msg_perm.alloc = (s.msgque k).msg_perm.alloc := by
  by_cases hk : k = qp
  · subst hk
    unfold linked
    simp only [update_self]
  · rw [linked_que a type mp spot hk]

/-- What is held elsewhere stays held when a message is put on a queue. -/
theorem spares_put (hc : Core mi s g) {a : sndargs} {type : ℤ} {mp spot : ℕ} {text : ℕ → ℕ}
    {i : Item} (hown : g.own mp = some (.hand p)) (hqp : q ≠ p) (hview : B.view q = A.view q) :
    Spares mi s (linked a qp type mp spot { s with text := text }) g (g.put qp mp i) A B q := by
  have hq : ∀ r, mp ∉ g.que r := fun r => hc.not_mem_que hown (by simp)
  refine ⟨Or.inl rfl, fun c r _ _ h =>
    (linked_alloc (s := { s with text := text }) a type mp spot r).trans h, fun h => ?_,
    fun h _ => rfl, ?_⟩
  · show update g.own mp _ h = _ ↔ _
    by_cases hk : h = mp
    · subst hk
      rw [update_self, hown]
      simp [hqp.symm]
    · rw [update_of_ne hk]
  · intro c a' r smp spmp sz _ _ _ hold
    have hsmp : smp ∈ g.que r := by
      obtain ⟨pre, post, h1, -⟩ := hold.place
      rw [h1]
      simp
    have hne : smp ≠ mp := fun heq => hq r (heq ▸ hsmp)
    have hmsgh : (linked a qp type mp spot { s with text := text }).msgh smp = s.msgh smp :=
      update_of_ne hne _ _
    have hitem : ∀ x ∈ g.que r, (g.put qp mp i).item x = g.item x := fun x hx =>
      update_of_ne (fun heq : x = mp => hq r (heq ▸ hx)) _ _
    refine ⟨?_, by rw [hmsgh]⟩
    by_cases hr : r = qp
    · subst hr
      obtain ⟨pre, post, h1, h2, pre', post', h3, h4, h5⟩ := hold.place
      have hpre : pre.map (g.put r mp i).item = pre.map g.item :=
        map_congr_left fun x hx => hitem x (by rw [h1]; simp [hx])
      refine ⟨hold.que, by rw [hmsgh]; exact hold.size, pre, post ++ [mp], ?_, h2, pre', post', ?_,
        ?_, ?_⟩
      · show update g.que r _ r = _
        rw [update_self, h1]
        simp
      · rw [hview, hitem smp hsmp]
        exact h3
      · rw [hpre]
        exact h4
      · rw [hitem smp hsmp]
        exact h5
    · exact hold.congr (update_of_ne hr _ _) hitem hmsgh hview

/-- **A message is put** on its queue, behind all that are there. -/
theorem goes_putmsg (hcfg : Config mi) (hc : Core mi s g) (hz : ∀ r, Sized s g r)
    (ho : Others mi s g A p) (hl : Carries g A) {a : sndargs} {mp spot n : ℕ} {m : io} (hown : ∀ h,
      g.own h = some (.hand p) ↔ h = mp)
    (halloc : (s.msgque qp).msg_perm.alloc = true) (hsz : 0 ≤ a.msgsz) (hn : n = a.msgsz.toNat)
    (hblk : g.blk mp = block mi spot n) (hcb : ((s.msgque qp).msg_cbytes : ℤ) + a.msgsz < 65536)
    (type : ℤ) (mtext : ℕ → ℕ) :
    Goes mi A (.run p m) (putmsg p a qp type mp spot ((range n).map mtext)
      { s with text := fill s.text (mi.msgssz * spot) n mtext }) := by
  have hmp : g.own mp = some (.hand p) := (hown mp).mpr rfl
  have hq : ∀ r, mp ∉ g.que r := fun r => hc.not_mem_que hmp (by simp)
  have hcore := hc.put hcfg.headers hmp ⟨hsz, by lia⟩ hn hblk
    halloc A.sent type mtext
  rw [putmsg_eq]
  have hsame := same_wakewait (linked a qp type mp spot
    { s with text := fill s.text (mi.msgssz * spot) n mtext }) qp MSG_RWAIT (.qnum qp)
    (by decide)
  refine ⟨_, _, rfl, g.put qp mp ⟨A.sent, type, (range n).map mtext⟩,
    { A with
      que := update A.que qp (A.que qp ++ [⟨A.sent, type, (range n).map mtext⟩])
      sent := A.sent + 1 }, ⟨Or.inl rfl, rfl, rfl, rfl⟩,
    Inv.of_setproc (hcore.alike hsame.toAlike) (fun r => Sized.same ?_ hsame) ?_
      ⟨trivial, fun h => ?_⟩ fun r => ?_⟩
  · have hs := hz r
    unfold Sized at hs ⊢
    by_cases hr : r = qp
    · subst hr
      have htot : (g.put r mp ⟨A.sent, type, (range n).map mtext⟩).total
          (linked a r type mp spot { s with text := fill s.text (mi.msgssz * spot) n mtext }) r =
          g.total s r + ushort a.msgsz := by
        show ((update g.que r (g.que r ++ [mp]) r).map fun h =>
          (update s.msgh mp _ h).msg_ts).sum = _
        rw [update_self, map_append, sum_append, map_singleton,
          sum_singleton, update_self]
        refine congrArg (· + ushort a.msgsz) (congrArg sum (map_congr_left fun h hm => ?_))
        rw [update_of_ne (fun heq : h = mp => hq r (heq ▸ hm))]
      rw [htot]
      have hcb' : ((linked a r type mp spot { s with
          text := fill s.text (mi.msgssz * spot) n mtext }).msgque r).msg_cbytes =
          ushort ((s.msgque r).msg_cbytes + a.msgsz) := by
        unfold linked
        simp only [update_self]
      rw [hcb']
      unfold ushort
      lia
    · rw [linked_que a type mp spot hr]
      have htot : (g.put qp mp ⟨A.sent, type, (range n).map mtext⟩).total
          (linked a qp type mp spot { s with text := fill s.text (mi.msgssz * spot) n mtext }) r =
          g.total s r :=
        Ghost.total_congr (update_of_ne hr _ _) fun h hm =>
          update_of_ne (fun heq : h = mp => hq r (heq ▸ hm)) _ _
      rw [htot]
      exact hs
  · refine Others.alike (A := { A with
      que := update A.que qp (A.que qp ++ [⟨A.sent, type, (range n).map mtext⟩])
      sent := A.sent + 1 }) (fun q hqp => ?_) hsame.toAlike fun _ _ => rfl
    exact (ho q hqp).spares (spares_put hc hmp hqp rfl)
  · show update g.own mp _ h = _ ↔ none = some h
    by_cases hk : h = mp
    · subst hk
      rw [update_self]
      simp
    · rw [update_of_ne hk, hown]
      simp [hk]
  · show update A.que qp _ r = (update g.que qp _ r).map
      (update g.item mp _)
    have hitem : ∀ r, (g.que r).map (update g.item mp ⟨A.sent, type, (range n).map mtext⟩) =
        A.que r := by
      intro r
      rw [hl r]
      exact map_congr_left fun h hm =>
        update_of_ne (fun heq : h = mp => hq r (heq ▸ hm)) _ _
    by_cases hr : r = qp
    · subst hr
      rw [update_self, update_self, map_append, hitem, map_singleton,
        update_self]
    · rw [update_of_ne hr, update_of_ne hr, hitem]

end IpcMsg
