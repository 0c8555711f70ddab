/-
# The message calls, step by step

What each call comes to from one point where it can be switched out to the next, and so
what any event comes to.
-/
import SunOS.Ipc.MsgSteps

namespace IpcMsg

open List
open Function (update update_of_ne update_self)
open Ipc

variable {mi : msginfo} {s t : State} {g : Ghost} {A B : Lists} {e : Event} {r : Result}
  {p q qp : ℕ} {m : io} {u : user}

theorem viewed_run : Viewed (.run p m) A A := viewed_same fun _ _ _ => by simp

/-! ## Sending -/

/-- **`getres1`** puts an empty message on the queue, takes what a longer one needs, or
waits for it. -/
theorem goes_getres1 (hcfg : Config mi) (hi : Inv mi s g A) {a : sndargs} {type : ℤ}
    (hqp : qp = a.msqid.toNat % mi.msgmni) (halloc : (s.msgque qp).msg_perm.alloc = true)
    (hsz : 0 ≤ a.msgsz) (hh : (s.proc p).hand = none) :
    Goes mi A (.run p m) (getres1 mi p a qp type s) := by
  have hv := viewed_run (A := A) (p := p) (m := m)
  have hnone : ∀ h, g.own h ≠ some (.hand p) := fun h heq => by
    have := ((hi.procs p).hand h).mp heq
    rw [hh] at this
    cases this
  unfold getres1
  by_cases hfull : a.msgsz + (s.msgque qp).msg_cbytes > (s.msgque qp).msg_qbytes
  · rw [if_pos hfull]
    by_cases hnw : a.msgflg &&& IPC_NOWAIT ≠ 0
    · rw [if_pos hnw]
      exact goes_ret hi (Same.refl s) hv rfl hv.still hh
    · rw [if_neg hnw]
      exact goes_wait hi (same_setmode s qp (by decide)) hv rfl ⟨hqp, hsz⟩ hh rfl
  · rw [if_neg hfull]
    by_cases hfp : s.msgfp = 0
    · rw [if_pos hfp]
      by_cases hnw : a.msgflg &&& IPC_NOWAIT ≠ 0
      · rw [if_pos hnw]
        exact goes_ret hi (Same.refl s) hv rfl hv.still hh
      · rw [if_neg hnw]
        exact goes_wait hi (Same.refl s) hv rfl ⟨hqp, hsz⟩ hh rfl
    · rw [if_neg hfp]
      obtain ⟨tl, hfree, -⟩ := hi.core.free_cons hfp
      have hown : g.own s.msgfp = some .free := (hi.core.free_own _).mp (by rw [hfree]; simp)
      have hidle := hi.core.idle _ hown
      have hhand : ∀ {b} h, (g.pop p s.msgfp b).own h = some (.hand p) ↔ h = s.msgfp := by
        intro b h
        show update g.own s.msgfp _ h = _ ↔ _
        by_cases hk : h = s.msgfp
        · subst hk
          rw [update_self]
          simp
        · rw [update_of_ne hk]
          simp [hk, hnone h]
      by_cases h0 : a.msgsz = 0
      · rw [if_pos h0]
        have hpop : Core mi { s with msgfp := s.next s.msgfp } (g.pop p s.msgfp (0, 0)) := by
          refine hi.core.pop hfp s.msgmap ?_
          rw [Function.update_eq_self_iff.mpr hidle.symm]
          exact hi.core.shared
        have hcb := hi.sized qp
        unfold Sized at hcb
        have hput := goes_putmsg (n := 0) (m := m) hcfg hpop (fun r => hi.sized r)
          (fun q hq => (hi.procs q).spares (spares_pop hi.core hfp hq s.msgmap)) hi.lists
          hhand halloc hsz (by lia)
          (show update g.blk s.msgfp (0, 0) s.msgfp = block mi 0 0 from
            update_self ..)
          (by show ((s.msgque qp).msg_cbytes : ℤ) + a.msgsz < 65536; lia) type fun _ => 0
        exact hput
      · rw [if_neg h0]
        have hsize : 0 < btoq mi a.msgsz.toNat := by
          exact Nat.div_pos (by lia) mi.msgssz_pos
        obtain ⟨m', r, hr, hcase⟩ := hi.core.shared.alloc hsize (hi.core.inRange hown) hidle
        rw [hr]
        simp only
        rcases hcase with ⟨hr0, rfl⟩ | ⟨hpos, hsh⟩
        · rw [if_pos hr0]
          by_cases hnw : a.msgflg &&& IPC_NOWAIT ≠ 0
          · rw [if_pos hnw]
            exact goes_ret hi (Same.refl s) hv rfl hv.still hh
          · rw [if_neg hnw]
            have hsame : Same s { s with
                msgmap := { s.msgmap with m_want := s.msgmap.m_want + 1 } } :=
              ⟨⟨rfl, rfl, rfl, rfl, rfl, rfl, fun _ => rfl, fun _ => rfl, fun _ => rfl,
                fun _ h => h, fun _ => Or.inl rfl⟩, fun _ => rfl⟩
            exact goes_wait hi hsame hv rfl ⟨hqp, hsz⟩ hh rfl
        · rw [if_neg hpos.ne']
          refine ⟨_, _, rfl, g.pop p s.msgfp (r, r + btoq mi a.msgsz.toNat), A,
            ⟨Or.inl rfl, rfl, rfl, rfl⟩, Inv.of_setproc (hi.core.pop hfp m' hsh) hi.sized
              (fun q hq => (hi.procs q).spares (spares_pop hi.core hfp hq m'))
              ⟨⟨halloc, (hhand _).mpr rfl, by lia, ?_⟩, fun h => ?_⟩ hi.lists⟩
          · show update g.blk s.msgfp _ s.msgfp = _
            rw [update_self]
            unfold block
            rw [if_neg (by lia)]
            have h1 : ((r - 1).toNat : ℤ) + 1 = r := by lia
            rw [h1]
          · rw [hhand]
            exact ⟨fun h => by rw [h]; rfl, fun h => (Option.some.inj h).symm⟩

theorem goes_msgsnd (hi : Inv mi s g A) {a : sndargs} (hu : s.proc p = .user) :
    Goes mi A (.msgsnd p u a) (msgsnd mi p u a s) := by
  have hv : Viewed (.msgsnd p u a) A A := viewed_same fun _ _ _ => by simp
  have hh : (s.proc p).hand = none := by
    rw [hu]
    rfl
  unfold msgsnd
  cases hconv : msgconv mi s a.msqid with
  | none => exact goes_ret hi (Same.refl s) hv rfl hv.still hh
  | some qp =>
    simp only
    obtain ⟨hqp, halloc⟩ := msgconv_some hconv
    cases hacc : ipcaccess u (s.msgque qp).msg_perm MSG_W with
    | some err =>
      obtain rfl := ipcaccess_error hacc
      exact goes_ret hi (Same.refl s) hv rfl hv.still hh
    | none =>
      by_cases hsz : a.msgsz < 0 ∨ mi.msgmax < a.msgsz
      · rw [if_pos hsz]
        exact goes_ret hi (Same.refl s) hv rfl hv.still hh
      · rw [if_neg hsz]
        exact goes_wait hi (Same.refl s) hv rfl ⟨halloc, hqp, by omega⟩ hh rfl

/-! ## Running on -/

theorem goes_wakes (hcfg : Config mi) (hi : Inv mi s g A) {w : Sleep} {sig : Bool}
    (hw : s.proc p = .woken w sig) : Goes mi A (.run p m) (wakes mi p w sig s) := by
  have hv := viewed_run (A := A) (p := p) (m := m)
  have hh : (s.proc p).hand = none := by
    rw [hw]
    rfl
  have hf := (hi.procs p).fits
  rw [hw] at hf
  cases w with
  | rcv a qp =>
    obtain ⟨hqp, hsz, hmin⟩ := hf
    unfold wakes
    simp only
    by_cases hsig : sig = true
    · rw [if_pos hsig]
      exact goes_ret hi (Same.refl s) hv rfl hv.still hh
    · rw [if_neg hsig]
      cases hconv : msgconv mi s a.msqid with
      | none => exact goes_ret hi (Same.refl s) hv rfl hv.still hh
      | some r =>
        exact goes_findmsg1 hi rfl (viewed_look_run p m) (fun _ _ _ heq => by cases heq) hqp hsz
          hmin hh
  | snd a qp type chan =>
    obtain ⟨hqp, hsz⟩ := hf
    unfold wakes
    simp only
    cases hconv : msgconv mi s a.msqid with
    | none =>
      cases sig
      · exact goes_ret hi (Same.refl s) hv rfl hv.still hh
      · exact goes_ret hi (Same.refl s) hv rfl hv.still hh
    | some r =>
      simp only
      by_cases hsig : sig = true
      · rw [if_pos hsig]
        cases chan with
        | que k =>
          exact goes_ret hi ((same_clrmode s qp (by decide)).trans (same_wakeup _ _)) hv rfl
            hv.still hh
        | _ => exact goes_ret hi (Same.refl s) hv rfl hv.still hh
      · rw [if_neg hsig]
        obtain ⟨hr, halloc⟩ := msgconv_some hconv
        rw [← hqp] at hr
        subst hr
        exact goes_getres1 hcfg hi hqp halloc hsz hh

/-- What a receiver gets of a message it holds. -/
theorem Holding.delivers (hi : Inv mi s g A) {a : rcvargs} {smp spmp sz : ℕ}
    (h : Holding mi s g A p a qp smp spmp sz) : Delivers a (g.item smp) (s.bytes mi smp sz) := by
  obtain ⟨pre, post, hque, -⟩ := h.place
  have hb := (hi.core.item qp smp (by rw [hque]; simp)).2
  have hlen : (g.item smp).bytes.length = (s.msgh smp).msg_ts := by
    rw [hb]
    unfold State.bytes
    rw [length_map, length_range]
  unfold Delivers
  rw [hlen]
  rcases h.size with ⟨h1, rfl⟩ | ⟨h1, h2, rfl⟩
  · exact Or.inl ⟨h1, hb.symm⟩
  · refine Or.inr ⟨h1, h2, ?_⟩
    rw [hb]
    unfold State.bytes
    rw [← map_take, take_range]
    congr 2
    omega

theorem goes_copies (hcfg : Config mi) (hi : Inv mi s g A) {c : Copy}
    (hc : s.proc p = .copying c) (hclear : Clear mi s (.run p m)) :
    Goes mi A (.run p m) (copies mi p c m s) := by
  have hv := viewed_run (A := A) (p := p) (m := m)
  have hf := (hi.procs p).fits
  unfold Clear at hclear
  simp only [hc] at hclear
  rw [hc] at hf
  cases c with
  | sndtype a qp =>
    obtain ⟨halloc, hqp, hsz⟩ := hf
    have hh : (s.proc p).hand = none := by
      rw [hc]
      rfl
    unfold copies
    cases hok : m.ok with
    | false => exact goes_ret hi (Same.refl s) hv rfl hv.still hh
    | true =>
      by_cases hty : m.mtype < 1
      · simp only [Bool.not_true, Bool.false_eq_true, if_false, if_pos hty]
        exact goes_ret hi (Same.refl s) hv rfl hv.still hh
      · simp only [Bool.not_true, Bool.false_eq_true, if_false, if_neg hty]
        exact goes_getres1 hcfg hi hqp halloc hsz hh
  | sndtext a qp type mp spot =>
    obtain ⟨halloc, hown, hsz, hblk⟩ := hf
    have hhand : ∀ h, g.own h = some (.hand p) ↔ h = mp := by
      intro h
      rw [(hi.procs p).hand, hc]
      exact ⟨fun h => (Option.some.inj h).symm, fun h => by rw [h]; rfl⟩
    unfold copies
    cases hok : m.ok with
    | false =>
      simp only [Bool.not_false, if_true]
      obtain ⟨t, ht, hfreed, hcb, hcore⟩ := hi.core.abort hcfg.room hown (hclear.2 hok)
        (by omega : 0 < a.msgsz.toNat) hblk
      rw [ht]
      refine ⟨_, _, rfl, g.release mp g.que, A, ⟨Or.inl rfl, rfl, rfl, rfl⟩,
        Inv.of_setproc hcore (fun r => ?_) (fun q hq => ?_) ⟨trivial, fun h => ?_⟩ hi.lists⟩
      · have hs := hi.sized r
        unfold Sized at hs ⊢
        rw [hcb, Ghost.total_congr (s := s) (g := g)
          (show (g.release mp g.que).que r = g.que r from rfl) fun h _ => by rw [hfreed.msgh]]
        exact hs
      · refine (hi.procs q).spares ⟨hfreed.proc q, fun c k _ _ h => hfreed.alloc k h,
          fun h => ?_, fun h hh => ?_, fun c a' k smp spmp sz _ _ _ hold =>
            ⟨hold.congr rfl (fun _ _ => rfl) (by rw [hfreed.msgh]) rfl, by rw [hfreed.msgh]⟩⟩
        · show update g.own mp _ h = _ ↔ _
          by_cases hk : h = mp
          · subst hk
            rw [update_self, hown]
            simp [hq.symm]
          · rw [update_of_ne hk]
        · refine update_of_ne ?_ _ _
          rintro rfl
          rw [hown] at hh
          simp [hq.symm] at hh
      · show update g.own mp _ h = _ ↔ none = some h
        by_cases hk : h = mp
        · subst hk
          rw [update_self]
          simp
        · rw [update_of_ne hk, hhand]
          simp [hk]
    | true =>
      exact goes_putmsg hcfg hi.core hi.sized (hi.others p) hi.lists hhand halloc hsz.le rfl hblk
        (hclear.1 hok) type m.mtext
  | rcvtype a qp smp spmp sz =>
    have hh : (s.proc p).hand = none := by
      rw [hc]
      rfl
    have hold : Holding mi s g A p a qp smp spmp sz := hf
    obtain ⟨pre, post, hque, -⟩ := hold.place
    unfold copies
    cases hok : m.ok with
    | false => exact goes_ret hi (Same.refl s) hv rfl hv.still hh
    | true =>
      simp only [Bool.not_true, Bool.false_eq_true, if_false]
      by_cases h0 : sz = 0
      · rw [if_neg (not_not.mpr h0)]
        have hd := hold.delivers hi
        rw [h0] at hd
        exact goes_takemsg hcfg hi hold (hclear hok h0) hh
          (hi.type_eq (show smp ∈ g.que qp by rw [hque]; simp)).symm hd
      · rw [if_pos h0]
        exact goes_wait hi (Same.refl s) hv rfl ⟨hold, rfl⟩ hh rfl
  | rcvtext a qp smp spmp sz type =>
    have hh : (s.proc p).hand = none := by
      rw [hc]
      rfl
    obtain ⟨hold, htype⟩ := hf
    obtain ⟨pre, post, hque, -⟩ := hold.place
    unfold copies
    cases hok : m.ok with
    | false => exact goes_ret hi (Same.refl s) hv rfl hv.still hh
    | true =>
      simp only [Bool.not_true, Bool.false_eq_true, if_false]
      exact goes_takemsg hcfg hi hold (hclear hok) hh
        (htype.trans (hi.type_eq (show smp ∈ g.que qp by rw [hque]; simp)).symm) (hold.delivers hi)
  | ctlset u qp =>
    have hh : (s.proc p).hand = none := by
      rw [hc]
      rfl
    unfold copies
    cases hok : m.ok with
    | false => exact goes_ret hi (Same.refl s) hv rfl hv.still hh
    | true =>
      simp only [Bool.not_true, Bool.false_eq_true, if_false]
      by_cases hperm : (s.msgque qp).msg_qbytes < ushort m.ds.msg_qbytes ∧ suser u ≠ none
      · rw [if_pos hperm]
        exact goes_ret hi (Same.refl s) hv rfl hv.still hh
      · rw [if_neg hperm]
        refine goes_ret hi (same_setque rfl rfl rfl (fun h => ?_) rfl) hv rfl hv.still hh
        rw [alloc_eq] at h ⊢
        rw [Nat.testBit_or, Nat.testBit_ldiff, h]
        rfl

/-! ## Control -/

variable {flag cnt : ℕ} {key : ℤ} {perm : ℕ → ipc_perm}

/-- **`freeall`** gives back every message of a queue that nobody holds on to. -/
theorem freeall_spec (hcfg : Config mi) {fuel : ℕ} (hc : Core mi s g) (ho : Others mi s g A p)
    (hun : ∀ q c, q ≠ p → s.proc q = .copying c → c.onque ≠ some qp)
    (hfuel : (g.que qp).length < fuel) :
    ∃ t g', freeall mi qp fuel s = some t ∧ Core mi t g' ∧ Others mi t g' A p ∧ Freed s t ∧
      (∀ r, (t.msgque r).msg_cbytes = (s.msgque r).msg_cbytes) ∧
      g'.que = update g.que qp [] ∧ g'.item = g.item ∧
      ∀ h, g'.own h = some (.hand p) ↔ g.own h = some (.hand p) := by
  induction fuel generalizing s g with
  | zero => omega
  | succ fuel ih =>
    have hfirst := hc.first qp
    unfold freeall
    cases hq : g.que qp with
    | nil =>
      rw [hq] at hfirst
      rw [if_pos (Chain.nil_iff.mp hfirst)]
      refine ⟨s, g, rfl, hc, ho, (Same.refl s).toAlike.freed, fun _ => rfl, ?_, rfl,
        fun _ => Iff.rfl⟩
      rw [Function.update_eq_self_iff.mpr hq.symm]
    | cons x post =>
      rw [hq] at hfirst hfuel
      obtain ⟨hx, hx0, -⟩ := hfirst
      have hown : g.own x = some (.que qp) := (hc.que_own qp x).mp (by
        rw [hq]
        simp)
      rw [hx, if_neg hx0]
      obtain ⟨t, ht, hfreed, hcb, hcore⟩ :=
        hc.msgfree hcfg.room hcfg.headers (show g.que qp = [] ++ x :: post from hq)
      change msgfree mi qp 0 x s = some t at ht
      rw [ht]
      have ho' : Others mi t (g.release x (update g.que qp ([] ++ post))) A p := by
        intro q hqp
        refine (ho q hqp).spares (spares_unlink hc hq hfreed ?_ rfl)
        exact fun c smp spmp hproc _ hon => absurd hon (hun q c hqp hproc)
      have hun' : ∀ q c, q ≠ p → t.proc q = .copying c → c.onque ≠ some qp := by
        intro q c hqp hproc
        rcases hfreed.proc q with heq | ⟨w, ch, -, heq⟩
        · exact hun q c hqp (heq ▸ hproc)
        · rw [heq] at hproc
          cases hproc
      obtain ⟨t', g', h1, h2, h3, h4, h5, h6, h7, h8⟩ := ih hcore ho' hun' (by
        show (update g.que qp ([] ++ post) qp).length < fuel
        rw [update_self, nil_append]
        rw [length_cons] at hfuel
        omega)
      refine ⟨t', g', h1, h2, h3, hfreed.trans h4, fun r => (h5 r).trans (hcb r), ?_, h7,
        fun h => (h8 h).trans ?_⟩
      · rw [h6]
        show update (update g.que qp ([] ++ post)) qp [] = _
        rw [Function.update_idem]
      · show update g.own x _ h = _ ↔ _
        by_cases hk : h = x
        · subst hk
          rw [update_self, hown]
          simp
        · rw [update_of_ne hk]

/-- An empty queue may be given up. -/
theorem Core.setque (hc : Core mi s g) (ds : msqid_ds)
    (h1 : ds.msg_first = (s.msgque qp).msg_first) (h2 : ds.msg_last = (s.msgque qp).msg_last)
    (h3 : ds.msg_qnum = (s.msgque qp).msg_qnum) (hq : g.que qp = []) :
    Core mi (s.setque qp ds) g := by
  have hque : ∀ {β : Type} (f : msqid_ds → β), f ds = f (s.msgque qp) →
      ∀ r, f ((s.setque qp ds).msgque r) = f (s.msgque r) := by
    intro β f hf r
    show f (update s.msgque qp ds r) = _
    by_cases hr : r = qp
    · subst hr
      rw [update_self]
      exact hf
    · rw [update_of_ne hr]
  refine ⟨hc.own, hc.free_own, hc.que_own, hc.free_nodup, hc.que_nodup, hc.free, fun r => ?_,
    fun r => ?_, hc.shared, hc.idle, hc.queued, hc.item, fun r => ?_, fun r hr => ?_⟩
  · rw [hque msqid_ds.msg_first h1 r]
    exact hc.first r
  · rw [hque msqid_ds.msg_last h2 r]
    exact hc.last r
  · rw [hque msqid_ds.msg_qnum h3 r]
    exact hc.qnum r
  · by_cases hrq : r = qp
    · rw [hrq]
      exact hq
    · change (update s.msgque qp ds r).msg_perm.alloc = false at hr
      rw [update_of_ne hrq] at hr
      exact hc.dead r hr

/-- **Removing a queue** gives back everything on it. -/
theorem goes_rmid (hcfg : Config mi) (hi : Inv mi s g A) {msqid : ℤ} (hu : s.proc p = .user)
    (hun : ∀ q c, s.proc q = .copying c → c.onque ≠ some qp) (seq : ipc_perm → ℕ) :
    Goes mi A (.msgctl p u msqid .IPC_RMID) (match freeall mi qp (mi.msgtql + 1) s with
      | none => none
      | some s =>
        let perm := (s.msgque qp).msg_perm
        let t := if perm.mode &&& MSG_RWAIT ≠ 0 then s.wakeup (.qnum qp) else s
        let t := if perm.mode &&& MSG_WWAIT ≠ 0 then t.wakeup (.que qp) else t
        ret p (.removed qp) (t.setque qp { t.msgque qp with
          msg_cbytes := 0
          msg_perm := { perm with seq := seq perm, mode := 0 } })) := by
  have hlen : (g.que qp).length ≤ mi.msgtql :=
    hi.core.length_le (hi.core.que_nodup qp) fun k hk => ⟨_, (hi.core.que_own qp k).mp hk⟩
  obtain ⟨t, g', ht, hcore, ho, hfreed, hcb, hque, hitem, hhand⟩ := freeall_spec hcfg hi.core
    (hi.others p) (fun q c _ => hun q c) (show (g.que qp).length < mi.msgtql + 1 by omega)
  rw [ht]
  simp only
  have hsame : Same t (if (t.msgque qp).msg_perm.mode &&& MSG_WWAIT ≠ 0 then
      (if (t.msgque qp).msg_perm.mode &&& MSG_RWAIT ≠ 0 then t.wakeup (.qnum qp) else t).wakeup
        (.que qp)
      else if (t.msgque qp).msg_perm.mode &&& MSG_RWAIT ≠ 0 then t.wakeup (.qnum qp) else t) := by
    have h1 : Same t (if (t.msgque qp).msg_perm.mode &&& MSG_RWAIT ≠ 0 then t.wakeup (.qnum qp)
        else t) := by
      split
      · exact same_wakeup _ _
      · exact Same.refl _
    split
    · exact h1.trans (same_wakeup _ _)
    · exact h1
  generalize (if (t.msgque qp).msg_perm.mode &&& MSG_WWAIT ≠ 0 then
      (if (t.msgque qp).msg_perm.mode &&& MSG_RWAIT ≠ 0 then t.wakeup (.qnum qp) else t).wakeup
        (.que qp)
      else if (t.msgque qp).msg_perm.mode &&& MSG_RWAIT ≠ 0 then t.wakeup (.qnum qp) else t) = v
    at hsame
  generalize ({ (t.msgque qp).msg_perm with
    seq := seq (t.msgque qp).msg_perm, mode := 0 } : ipc_perm) = perm
  have hempty : g'.que qp = [] := by
    rw [hque, update_self]
  have hcore' := Core.setque (hcore.alike hsame.toAlike)
    { v.msgque qp with msg_cbytes := 0, msg_perm := perm } rfl rfl rfl hempty
  refine ⟨_, _, rfl, g', { A with que := update A.que qp [] }, ⟨rfl, rfl, rfl, rfl⟩,
    Inv.of_setproc hcore' (fun r => ?_) (fun q hq => ?_) ⟨trivial, fun h => ?_⟩ fun r => ?_⟩
  · show (update v.msgque qp _ r).msg_cbytes = _ ∧ _
    have htot : g'.total (v.setque qp { v.msgque qp with msg_cbytes := 0, msg_perm := perm }) r =
        if r = qp then 0 else g.total s r := by
      unfold Ghost.total
      by_cases hr : r = qp
      · rw [if_pos hr, hr, hempty]
        rfl
      · rw [if_neg hr, hque, update_of_ne hr]
        show ((g.que r).map fun h => (v.msgh h).msg_ts).sum = _
        rw [hsame.msgh, hfreed.msgh]
    rw [htot]
    by_cases hr : r = qp
    · subst hr
      rw [update_self, if_pos rfl]
      exact ⟨rfl, by omega⟩
    · have hs := hi.sized r
      rw [update_of_ne hr, if_neg hr, hsame.cbytes, hcb]
      exact hs
  · -- nobody copies on the queue that goes
    have hst := (ho q hq).spares (hsame.toAlike.spares (A := A) (B := A) rfl)
    refine hst.spares ⟨Or.inl rfl, fun c k hproc hon halloc => ?_, fun _ => Iff.rfl, fun _ _ => rfl,
      fun c a k smp spmp sz _ _ _ hold => ⟨hold.congr rfl (fun _ _ => rfl) rfl rfl, rfl⟩⟩
    show (update v.msgque qp _ k).msg_perm.alloc = true
    have hk : k ≠ qp := by
      rintro rfl
      rcases (hfreed.proc q).trans (hsame.proc q) with heq | ⟨w, ch, -, heq⟩
      · exact hun q c (heq ▸ hproc) hon
      · rw [heq] at hproc
        cases hproc
    rw [update_of_ne hk]
    exact halloc
  · rw [hhand, (hi.procs p).hand, hu]
  · show update A.que qp [] r = (g'.que r).map g'.item
    rw [hque, hitem]
    by_cases hr : r = qp
    · subst hr
      rw [update_self, update_self]
      rfl
    · rw [update_of_ne hr, update_of_ne hr]
      exact hi.lists r

theorem goes_msgctl (hcfg : Config mi) (hi : Inv mi s g A) {msqid : ℤ} {cmd : Cmd}
    (hu : s.proc p = .user) (hclear : Clear mi s (.msgctl p u msqid cmd)) :
    Goes mi A (.msgctl p u msqid cmd) (msgctl mi p u msqid cmd s) := by
  have hv : Viewed (.msgctl p u msqid cmd) A A := viewed_same fun _ _ _ => by simp
  have hh : (s.proc p).hand = none := by
    rw [hu]
    rfl
  unfold msgctl
  cases hconv : msgconv mi s msqid with
  | none => exact goes_ret hi (Same.refl s) hv rfl hv.still hh
  | some qp =>
    cases cmd with
    | IPC_RMID =>
      simp only
      cases hown : ipcowner u (s.msgque qp).msg_perm with
      | some err =>
        obtain rfl := ipcowner_error hown
        exact goes_ret hi (Same.refl s) hv rfl hv.still hh
      | none =>
        exact goes_rmid hcfg hi hu (hclear qp hconv hown) fun perm =>
          if 2 ^ 31 ≤ msqid + mi.msgmni then 0 else ushort (perm.seq + 1)
    | IPC_SET =>
      simp only
      cases hown : ipcowner u (s.msgque qp).msg_perm with
      | some err =>
        obtain rfl := ipcowner_error hown
        exact goes_ret hi (Same.refl s) hv rfl hv.still hh
      | none => exact goes_wait hi (Same.refl s) hv rfl trivial hh rfl
    | IPC_STAT =>
      simp only
      cases hacc : ipcaccess u (s.msgque qp).msg_perm MSG_R with
      | some err =>
        obtain rfl := ipcaccess_error hacc
        exact goes_ret hi (Same.refl s) hv rfl hv.still hh
      | none => exact goes_ret hi (Same.refl s) hv rfl hv.still hh
    | other => exact goes_ret hi (Same.refl s) hv rfl hv.still hh

/-- A new entry is allocated, in a slot that was free. -/
theorem ipcget_ok {new : ipc_perm} (h : ipcget u key flag perm cnt = .ok (qp, some new)) :
    (perm qp).alloc = false ∧ new.alloc = true := by
  have hnew : ∀ i, (List.range cnt).find? (fun i => !(perm i).alloc) = some i →
      ∀ new : ipc_perm, new.mode = IPC_ALLOC ||| (flag &&& 0o777) →
      (perm i).alloc = false ∧ new.alloc = true := by
    intro i hi new hmode
    refine ⟨by simpa using List.find?_some hi, ?_⟩
    rw [alloc_eq, hmode, Nat.testBit_or]
    have hbit : IPC_ALLOC.testBit 15 = true := by decide
    rw [hbit, Bool.true_or]
  unfold ipcget at h
  simp only at h
  split at h
  · split at h
    · rename_i i hfree
      obtain ⟨rfl, hnewEq⟩ := Prod.mk.inj (Except.ok.inj h)
      obtain rfl := Option.some.inj hnewEq
      exact hnew _ hfree _ rfl
    · cases h
  · split at h
    · split at h
      · cases h
      · split at h
        · cases h
        · simp at h
    · split at h
      · cases h
      · split at h
        · rename_i i hfree
          obtain ⟨rfl, hnewEq⟩ := Prod.mk.inj (Except.ok.inj h)
          obtain rfl := Option.some.inj hnewEq
          exact hnew _ hfree _ rfl
        · cases h

theorem ipcget_error {err : Errno} (h : ipcget u key flag perm cnt = .error err) :
    err = .ENOSPC ∨ err = .EEXIST ∨ err = .EACCES ∨ err = .ENOENT := by
  unfold ipcget at h
  simp only at h
  split at h
  · split at h
    · cases h
    · cases h
      exact Or.inl rfl
  · split at h
    · split at h
      · cases h
        exact Or.inr (Or.inl rfl)
      · split at h
        · cases h
          exact Or.inr (Or.inr (Or.inl rfl))
        · cases h
    · split at h
      · cases h
        exact Or.inr (Or.inr (Or.inr rfl))
      · split at h
        · cases h
        · cases h
          exact Or.inl rfl

theorem goes_msgget (hi : Inv mi s g A) {flg : ℕ} (hu : s.proc p = .user) :
    Goes mi A (.msgget p u key flg) (msgget mi p u key flg s) := by
  have hv : Viewed (.msgget p u key flg) A A := viewed_same fun _ _ _ => by simp
  have hh : (s.proc p).hand = none := by
    rw [hu]
    rfl
  unfold msgget
  cases hget : ipcget u key flg (fun i => (s.msgque i).msg_perm) mi.msgmni with
  | error err =>
    rcases ipcget_error hget with rfl | rfl | rfl | rfl
    · exact goes_ret hi (Same.refl s) hv rfl hv.still hh
    · exact goes_ret hi (Same.refl s) hv rfl hv.still hh
    · exact goes_ret hi (Same.refl s) hv rfl hv.still hh
    · exact goes_ret hi (Same.refl s) hv rfl hv.still hh
  | ok slot =>
    obtain ⟨qp, new⟩ := slot
    cases new with
    | none => exact goes_ret hi (Same.refl s) hv rfl hv.still hh
    | some perm =>
      obtain ⟨hdead, hnew⟩ := ipcget_ok hget
      have hnil := hi.core.dead qp hdead
      have hfirst := hi.core.first qp
      have hlast := hi.core.last_eq_zero.mpr hnil
      have hqnum := hi.core.qnum qp
      rw [hnil] at hfirst hqnum
      have hsame : Same s (s.setque qp { s.msgque qp with
          msg_perm := perm
          msg_first := 0
          msg_last := 0
          msg_qnum := 0
          msg_qbytes := ushort mi.msgmnb
          msg_lspid := 0
          msg_lrpid := 0 }) :=
        same_setque (Chain.nil_iff.mp hfirst).symm hlast.symm hqnum.symm (fun _ => hnew) rfl
      refine goes_ret hi hsame hv rfl ⟨?_, hv.still⟩ hh
      rw [hi.lists qp, hnil]
      rfl

/-! ## Any step -/

/-- The event can happen where its process stands. -/
def Ready (s : State) : Event → Prop
  | .msgsnd p _ _ | .msgrcv p _ _ | .msgctl p _ _ _ | .msgget p _ _ _ => s.proc p = .user
  | .psignal p => ∃ w, (∃ ch, s.proc p = .asleep w ch) ∨ ∃ sig, s.proc p = .woken w sig
  | .run p _ => (∃ w sig, s.proc p = .woken w sig) ∨ ∃ c, s.proc p = .copying c

/-- **One step**: what can happen comes to a result, which the message lists answer. -/
theorem goes_act (hcfg : Config mi) (hi : Inv mi s g A) (hr : Ready s e) (hclear : Clear mi s e) :
    Goes mi A e (act mi s e) := by
  cases e with
  | msgsnd p u a =>
    have hu : s.proc p = .user := hr
    unfold act
    simp only
    rw [if_pos hu]
    exact goes_msgsnd hi hu
  | msgrcv p u a =>
    have hu : s.proc p = .user := hr
    unfold act
    simp only
    rw [if_pos hu]
    exact goes_msgrcv hi hu hclear
  | msgctl p u msqid cmd =>
    have hu : s.proc p = .user := hr
    unfold act
    simp only
    rw [if_pos hu]
    exact goes_msgctl hcfg hi hu hclear
  | msgget p u key flg =>
    have hu : s.proc p = .user := hr
    unfold act
    simp only
    rw [if_pos hu]
    exact goes_msgget hi hu
  | psignal p =>
    have hv : Viewed (.psignal p) A A := viewed_same fun _ _ _ => by simp
    have hf := (hi.procs p).fits
    obtain ⟨w, ⟨ch, hw⟩ | ⟨sig, hw⟩⟩ := hr
    · rw [hw] at hf
      unfold act
      simp only [hw]
      exact goes_still hi (Same.refl s) hv rfl hv.still hf (by rw [hw]; rfl)
    · rw [hw] at hf
      unfold act
      simp only [hw]
      exact goes_still hi (Same.refl s) hv rfl hv.still hf (by rw [hw]; rfl)
  | run p m =>
    rcases hr with ⟨w, sig, hw⟩ | ⟨c, hc⟩
    · unfold act
      simp only [hw]
      exact goes_wakes hcfg hi hw
    · unfold act
      simp only [hc]
      exact goes_copies hcfg hi hc hclear

/-- A step that happens was ready to. -/
theorem ready_of_step (h : step mi s (e, r) t) : Ready s e := by
  unfold step act at h
  cases e with
  | psignal p =>
    simp only at h
    cases hp : s.proc p with
    | asleep w ch => exact ⟨w, Or.inl ⟨ch, hp⟩⟩
    | woken w sig => exact ⟨w, Or.inr ⟨sig, hp⟩⟩
    | user => rw [hp] at h; cases h
    | copying c => rw [hp] at h; cases h
  | run p m =>
    simp only at h
    cases hp : s.proc p with
    | woken w sig => exact Or.inl ⟨w, sig, hp⟩
    | copying c => exact Or.inr ⟨c, hp⟩
    | user => rw [hp] at h; cases h
    | asleep w ch => rw [hp] at h; cases h
  | _ =>
    simp only at h
    split at h
    · rename_i hp
      exact hp
    · cases h

end IpcMsg
