/-
# What holds between the steps of the message calls

Every header is free, on one queue, or in the hands of one sender that is copying a text
in; every segment is free or in the block of one header.  A receiver that is copying out
holds on to a message of its queue and to the one before it, and loses them to nobody.
-/
import SunOS.Ipc.MsgLists
import SunOS.Ipc.MsgSpace
import SunOS.Lib.Chain

namespace IpcMsg

open List
open Function (update update_of_ne update_self)
open Ipc

variable {mi : msginfo} {s t u : State} {p q : ℕ}

/-! ## The state beside the lists -/

/-- Where a header is. -/
inductive Owner
  | free
  | que (qp : ℕ)
  | hand (p : ℕ)
  deriving DecidableEq, Repr

/-- The free headers, those on each queue, where each is, its block and what message it
carries. -/
structure Ghost where
  free : List ℕ
  que : ℕ → List ℕ
  own : ℕ → Option Owner
  blk : ℕ → ℤ × ℤ
  item : ℕ → Item

variable {g g' : Ghost} {A B : Lists}

/-- The block of a text of `n` bytes at `spot`. -/
def block (mi : msginfo) (spot n : ℕ) : ℤ × ℤ :=
  if n = 0 then (0, 0) else ((spot : ℤ) + 1, (spot : ℤ) + 1 + btoq mi n)

/-- The header whose text the process is copying in. -/
def pstate.hand : pstate → Option ℕ
  | .copying (.sndtext _ _ _ mp _) => some mp
  | _ => none

/-- A message being copied out, and the one before it. -/
def Copy.held : Copy → List ℕ
  | .rcvtype _ _ smp spmp _ | .rcvtext _ _ smp spmp _ _ => [smp, spmp]
  | _ => []

/-- The queue of a send or receive that is copying. -/
def Copy.onque : Copy → Option ℕ
  | .sndtype _ qp | .sndtext _ qp _ _ _ | .rcvtype _ qp _ _ _ | .rcvtext _ qp _ _ _ _ => some qp
  | .ctlset _ _ => none

/-- The headers, their queues, blocks and texts. -/
structure Core (mi : msginfo) (s : State) (g : Ghost) : Prop where
  own : ∀ h, g.own h ≠ none ↔ 1 ≤ h ∧ h ≤ mi.msgtql
  free_own : ∀ h, h ∈ g.free ↔ g.own h = some .free
  que_own : ∀ qp h, h ∈ g.que qp ↔ g.own h = some (.que qp)
  free_nodup : g.free.Nodup
  que_nodup : ∀ qp, (g.que qp).Nodup
  free : Chain s.next s.msgfp g.free
  first : ∀ qp, Chain s.next (s.msgque qp).msg_first (g.que qp)
  last : ∀ qp, (s.msgque qp).msg_last = (g.que qp).getLastD 0
  shared : Shared mi s.msgmap g.blk
  idle : ∀ h, g.own h = some .free → g.blk h = (0, 0)
  queued : ∀ qp, ∀ h ∈ g.que qp, g.blk h = block mi (s.msgh h).msg_spot (s.msgh h).msg_ts
  item : ∀ qp, ∀ h ∈ g.que qp, (g.item h).type = (s.msgh h).msg_type ∧
    (g.item h).bytes = s.bytes mi h (s.msgh h).msg_ts
  qnum : ∀ qp, (s.msgque qp).msg_qnum = (g.que qp).length
  dead : ∀ qp, (s.msgque qp).msg_perm.alloc = false → g.que qp = []

/-- The bytes on a queue. -/
def Ghost.total (g : Ghost) (s : State) (qp : ℕ) : ℕ :=
  ((g.que qp).map fun h => (s.msgh h).msg_ts).sum

/-- The byte counts are right. -/
def Sized (s : State) (g : Ghost) (qp : ℕ) : Prop :=
  (s.msgque qp).msg_cbytes = g.total s qp ∧ g.total s qp < 65536

/-- Process `p` is copying out message `smp`, which it chose when it last looked; `spmp`
comes before it. -/
structure Holding (mi : msginfo) (s : State) (g : Ghost) (A : Lists) (p : ℕ) (a : rcvargs)
    (qp smp spmp sz : ℕ) : Prop where
  que : qp = a.msqid.toNat % mi.msgmni
  size : (((s.msgh smp).msg_ts : ℤ) ≤ a.msgsz ∧ sz = (s.msgh smp).msg_ts) ∨
    (a.msgflg &&& MSG_NOERROR ≠ 0 ∧ a.msgsz < (s.msgh smp).msg_ts ∧ sz = a.msgsz.toNat)
  place : ∃ pre post, g.que qp = pre ++ smp :: post ∧ spmp = pre.getLastD 0 ∧
    ∃ pre' post', A.view p qp = pre' ++ g.item smp :: post' ∧ (pre.map g.item).Sublist pre' ∧
      Picks Item.type a.msgtyp pre' (g.item smp) post'

/-- What the locals of a sleeping call are. -/
def FitsSleep (mi : msginfo) : Sleep → Prop
  | .rcv a qp => qp = a.msqid.toNat % mi.msgmni ∧ 0 ≤ a.msgsz ∧ -2 ^ 31 < a.msgtyp
  | .snd a qp _ _ => qp = a.msqid.toNat % mi.msgmni ∧ 0 ≤ a.msgsz

/-- What the locals of a copying call are. -/
def FitsCopy (mi : msginfo) (s : State) (g : Ghost) (A : Lists) (p : ℕ) : Copy → Prop
  | .sndtype a qp =>
      (s.msgque qp).msg_perm.alloc = true ∧ qp = a.msqid.toNat % mi.msgmni ∧ 0 ≤ a.msgsz
  | .sndtext a qp _ mp spot => (s.msgque qp).msg_perm.alloc = true ∧ g.own mp = some (.hand p) ∧
      0 < a.msgsz ∧ g.blk mp = block mi spot a.msgsz.toNat
  | .rcvtype a qp smp spmp sz => Holding mi s g A p a qp smp spmp sz
  | .rcvtext a qp smp spmp sz type =>
      Holding mi s g A p a qp smp spmp sz ∧ type = (s.msgh smp).msg_type
  | .ctlset _ _ => True

/-- What the locals of a process are. -/
def Fits (mi : msginfo) (s : State) (g : Ghost) (A : Lists) (p : ℕ) : pstate → Prop
  | .user => True
  | .asleep w _ | .woken w _ => FitsSleep mi w
  | .copying c => FitsCopy mi s g A p c

/-- A process stands where `st` says. -/
structure Stands (mi : msginfo) (s : State) (g : Ghost) (A : Lists) (p : ℕ) (st : pstate) :
    Prop where
  fits : Fits mi s g A p st
  hand : ∀ h, g.own h = some (.hand p) ↔ st.hand = some h

/-- The processes other than `p`. -/
def Others (mi : msginfo) (s : State) (g : Ghost) (A : Lists) (p : ℕ) : Prop :=
  ∀ q, q ≠ p → Stands mi s g A q (s.proc q)

/-- What the lists are. -/
def Carries (g : Ghost) (A : Lists) : Prop := ∀ qp, A.que qp = (g.que qp).map g.item

/-- The invariant of the message calls. -/
structure Inv (mi : msginfo) (s : State) (g : Ghost) (A : Lists) : Prop where
  core : Core mi s g
  sized : ∀ qp, Sized s g qp
  procs : ∀ p, Stands mi s g A p (s.proc p)
  lists : Carries g A

/-! ## Changes that leave the headers alone -/

variable {ds : msqid_ds}

/-- A process is where it was, or has been woken up. -/
def Woke (st st' : pstate) : Prop :=
  st' = st ∨ ∃ w ch, st = .asleep w ch ∧ st' = .woken w false

theorem Woke.trans {st st' st'' : pstate} (h : Woke st st') (h' : Woke st' st'') :
    Woke st st'' := by
  rcases h with rfl | ⟨w, ch, rfl, rfl⟩
  · exact h'
  · rcases h' with rfl | ⟨w', ch', hw, -⟩
    · exact Or.inr ⟨w, ch, rfl, rfl⟩
    · cases hw

/-- Nothing has happened to headers, queues and texts; processes may have been woken. -/
structure Alike (s t : State) : Prop where
  next : t.next = s.next
  msgh : t.msgh = s.msgh
  msgfp : t.msgfp = s.msgfp
  text : t.text = s.text
  slots : t.msgmap.slots = s.msgmap.slots
  m_free : t.msgmap.m_free = s.msgmap.m_free
  first : ∀ qp, (t.msgque qp).msg_first = (s.msgque qp).msg_first
  last : ∀ qp, (t.msgque qp).msg_last = (s.msgque qp).msg_last
  qnum : ∀ qp, (t.msgque qp).msg_qnum = (s.msgque qp).msg_qnum
  alloc : ∀ qp, (s.msgque qp).msg_perm.alloc = true → (t.msgque qp).msg_perm.alloc = true
  proc : ∀ p, Woke (s.proc p) (t.proc p)

/-- And nothing to the byte counts. -/
structure Same (s t : State) : Prop extends Alike s t where
  cbytes : ∀ qp, (t.msgque qp).msg_cbytes = (s.msgque qp).msg_cbytes

theorem Same.refl (s : State) : Same s s :=
  ⟨⟨rfl, rfl, rfl, rfl, rfl, rfl, fun _ => rfl, fun _ => rfl, fun _ => rfl, fun _ h => h,
    fun _ => Or.inl rfl⟩, fun _ => rfl⟩

theorem Same.trans (h : Same s t) (h' : Same t u) : Same s u where
  next := h'.next.trans h.next
  msgh := h'.msgh.trans h.msgh
  msgfp := h'.msgfp.trans h.msgfp
  text := h'.text.trans h.text
  slots := h'.slots.trans h.slots
  m_free := h'.m_free.trans h.m_free
  first qp := (h'.first qp).trans (h.first qp)
  last qp := (h'.last qp).trans (h.last qp)
  qnum qp := (h'.qnum qp).trans (h.qnum qp)
  cbytes qp := (h'.cbytes qp).trans (h.cbytes qp)
  alloc qp ha := h'.alloc qp (h.alloc qp ha)
  proc p := (h.proc p).trans (h'.proc p)

theorem same_wakeup (s : State) (chan : Chan) : Same s (s.wakeup chan) := by
  refine ⟨⟨rfl, rfl, rfl, rfl, rfl, rfl, fun _ => rfl, fun _ => rfl, fun _ => rfl, fun _ h => h,
    fun p => ?_⟩, fun _ => rfl⟩
  unfold State.wakeup
  cases hp : s.proc p with
  | asleep w ch =>
    by_cases hc : ch = chan
    · exact Or.inr ⟨w, ch, rfl, by simp [hp, hc]⟩
    · exact Or.inl (by simp [hp, hc])
  | user => exact Or.inl (by simp [hp])
  | woken w sig => exact Or.inl (by simp [hp])
  | copying c => exact Or.inl (by simp [hp])

theorem alike_setque {qp : ℕ} (h1 : ds.msg_first = (s.msgque qp).msg_first)
    (h2 : ds.msg_last = (s.msgque qp).msg_last) (h3 : ds.msg_qnum = (s.msgque qp).msg_qnum)
    (h4 : (s.msgque qp).msg_perm.alloc = true → ds.msg_perm.alloc = true) :
    Alike s (s.setque qp ds) := by
  have hque : ∀ P : msqid_ds → msqid_ds → Prop, (∀ d, P d d) → P (s.msgque qp) ds →
      ∀ r, P (s.msgque r) ((s.setque qp ds).msgque r) := by
    intro P hrefl hP r
    by_cases hr : r = qp
    · subst hr
      show P _ (update s.msgque r ds r)
      rw [update_self]
      exact hP
    · show P _ (update s.msgque qp ds r)
      rw [update_of_ne hr]
      exact hrefl _
  exact ⟨rfl, rfl, rfl, rfl, rfl, rfl,
    hque (fun d e => e.msg_first = d.msg_first) (fun _ => rfl) h1,
    hque (fun d e => e.msg_last = d.msg_last) (fun _ => rfl) h2,
    hque (fun d e => e.msg_qnum = d.msg_qnum) (fun _ => rfl) h3,
    hque (fun d e => d.msg_perm.alloc = true → e.msg_perm.alloc = true) (fun _ h => h) h4,
    fun _ => Or.inl rfl⟩

theorem same_setque {qp : ℕ} (h1 : ds.msg_first = (s.msgque qp).msg_first)
    (h2 : ds.msg_last = (s.msgque qp).msg_last) (h3 : ds.msg_qnum = (s.msgque qp).msg_qnum)
    (h4 : (s.msgque qp).msg_perm.alloc = true → ds.msg_perm.alloc = true)
    (h5 : ds.msg_cbytes = (s.msgque qp).msg_cbytes) : Same s (s.setque qp ds) := by
  refine ⟨alike_setque h1 h2 h3 h4, fun r => ?_⟩
  show (update s.msgque qp ds r).msg_cbytes = _
  by_cases hr : r = qp
  · subst hr
    rw [update_self]
    exact h5
  · rw [update_of_ne hr]

/-- The entry is allocated when its bit is set. -/
theorem alloc_eq (perm : ipc_perm) : perm.alloc = perm.mode.testBit 15 := by
  rw [ipc_perm.alloc, Nat.testBit_eq_decide_div_mod_eq]
  have hpow : IPC_ALLOC = 2 ^ 15 := rfl
  have h := Nat.and_two_pow perm.mode 15
  rw [hpow, h, ← Nat.testBit_eq_decide_div_mod_eq]
  cases perm.mode.testBit 15 <;> simp

theorem same_setmode (s : State) (qp : ℕ) {bits : ℕ} (hb : bits.testBit 15 = false) :
    Same s (s.setmode qp bits) := by
  refine same_setque rfl rfl rfl (fun h => ?_) rfl
  rw [alloc_eq] at h ⊢
  rw [Nat.testBit_or, hb, Bool.or_false]
  exact h

theorem same_clrmode (s : State) (qp : ℕ) {bits : ℕ} (hb : bits.testBit 15 = false) :
    Same s (s.clrmode qp bits) := by
  refine same_setque rfl rfl rfl (fun h => ?_) rfl
  rw [alloc_eq] at h ⊢
  rw [Nat.testBit_ldiff, hb, Bool.not_false, Bool.and_true]
  exact h

theorem same_wakewait (s : State) (qp bit : ℕ) (chan : Chan) (hb : bit.testBit 15 = false) :
    Same s (s.wakewait qp bit chan) := by
  unfold State.wakewait
  split
  · exact (same_clrmode s qp hb).trans (same_wakeup _ chan)
  · exact Same.refl s

theorem Core.alike (h : Core mi s g) (hs : Alike s t) : Core mi t g where
  own := h.own
  free_own := h.free_own
  que_own := h.que_own
  free_nodup := h.free_nodup
  que_nodup := h.que_nodup
  free := by
    rw [hs.next, hs.msgfp]
    exact h.free
  first qp := by
    rw [hs.next, hs.first]
    exact h.first qp
  last qp := (hs.last qp).trans (h.last qp)
  shared := h.shared.want hs.slots hs.m_free
  idle := h.idle
  queued := by
    rw [hs.msgh]
    exact h.queued
  item := by
    unfold State.bytes
    rw [hs.msgh, hs.text]
    exact h.item
  qnum qp := (hs.qnum qp).trans (h.qnum qp)
  dead qp hd := h.dead qp (Bool.eq_false_iff.mpr fun ha => by
    rw [hs.alloc qp ha] at hd
    cases hd)

theorem Sized.same {qp : ℕ} (h : Sized s g qp) (hs : Same s t) : Sized t g qp := by
  unfold Sized Ghost.total at *
  rw [hs.cbytes, hs.msgh]
  exact h

/-! ## The processes beside a step -/

variable {st st' : pstate}

theorem Fits.woke (hw : Woke st st') (h : Fits mi s g A p st) : Fits mi s g A p st' := by
  rcases hw with rfl | ⟨w, ch, rfl, rfl⟩
  · exact h
  · exact h

theorem Woke.hand (hw : Woke st st') : st'.hand = st.hand := by
  rcases hw with rfl | ⟨w, ch, rfl, rfl⟩ <;> rfl

/-- What a step must leave alone so that process `q` stands as it did. -/
structure Spares (mi : msginfo) (s t : State) (g g' : Ghost) (A B : Lists) (q : ℕ) : Prop where
  woke : Woke (s.proc q) (t.proc q)
  alloc : ∀ c qp, s.proc q = .copying c → c.onque = some qp →
    (s.msgque qp).msg_perm.alloc = true → (t.msgque qp).msg_perm.alloc = true
  hand : ∀ h, g'.own h = some (.hand q) ↔ g.own h = some (.hand q)
  blk : ∀ h, g.own h = some (.hand q) → g'.blk h = g.blk h
  hold : ∀ c a qp smp spmp sz, s.proc q = .copying c → c.held = [smp, spmp] → c.onque = some qp →
    Holding mi s g A q a qp smp spmp sz → Holding mi t g' B q a qp smp spmp sz ∧
      (t.msgh smp).msg_type = (s.msgh smp).msg_type

theorem Stands.spares (h : Stands mi s g A q (s.proc q)) (hs : Spares mi s t g g' A B q) :
    Stands mi t g' B q (t.proc q) := by
  refine ⟨?_, fun k => ?_⟩
  · refine Fits.woke hs.woke ?_
    have hf := h.fits
    cases hc : s.proc q with
    | user => trivial
    | asleep w ch =>
      rw [hc] at hf
      exact hf
    | woken w sig =>
      rw [hc] at hf
      exact hf
    | copying c =>
      rw [hc] at hf
      cases c with
      | sndtype a qp => exact ⟨hs.alloc _ qp hc rfl hf.1, hf.2⟩
      | sndtext a qp type mp spot =>
        obtain ⟨h1, h2, h3, h4⟩ := hf
        exact ⟨hs.alloc _ qp hc rfl h1, (hs.hand mp).mpr h2, h3, (hs.blk mp h2).trans h4⟩
      | rcvtype a qp smp spmp sz => exact (hs.hold _ a qp smp spmp sz hc rfl rfl hf).1
      | rcvtext a qp smp spmp sz type =>
        obtain ⟨h1, h2⟩ := hs.hold _ a qp smp spmp sz hc rfl rfl hf.1
        exact ⟨h1, by rw [h2]; exact hf.2⟩
      | ctlset u qp => trivial
  · rw [hs.hand, h.hand, hs.woke.hand]

/-- A held message stays held if its queue, its header and what was seen stay. -/
theorem Holding.congr {a : rcvargs} {qp smp spmp sz : ℕ}
    (h : Holding mi s g A q a qp smp spmp sz) (hque : g'.que qp = g.que qp)
    (hitem : ∀ x ∈ g.que qp, g'.item x = g.item x) (hmsgh : t.msgh smp = s.msgh smp)
    (hview : B.view q = A.view q) : Holding mi t g' B q a qp smp spmp sz := by
  obtain ⟨pre, post, h1, h2, pre', post', h3, h4, h5⟩ := h.place
  have hsmp : g'.item smp = g.item smp := hitem smp (by rw [h1]; simp)
  have hpre : pre.map g'.item = pre.map g.item :=
    map_congr_left fun x hx => hitem x (by rw [h1]; simp [hx])
  refine ⟨h.que, ?_, pre, post, hque.trans h1, h2, pre', post', ?_, ?_, ?_⟩
  · rw [hmsgh]
    exact h.size
  · rw [hview, hsmp]
    exact h3
  · rw [hpre]
    exact h4
  · rw [hsmp]
    exact h5

theorem Alike.spares (hs : Alike s t) (hview : B.view q = A.view q) : Spares mi s t g g A B q where
  woke := hs.proc q
  alloc c qp _ _ h := hs.alloc qp h
  hand _ := Iff.rfl
  blk _ _ := rfl
  hold c a qp smp spmp sz _ _ _ h :=
    ⟨h.congr rfl (fun _ _ => rfl) (by rw [hs.msgh]) hview, by rw [hs.msgh]⟩

theorem Others.alike (h : Others mi s g A p) (hs : Alike s t)
    (hview : ∀ q, q ≠ p → B.view q = A.view q) :
    Others mi t g B p :=
  fun q hq => (h q hq).spares (hs.spares (hview q hq))

theorem Core.setproc (h : Core mi s g) (st : pstate) : Core mi (s.setproc p st) g :=
  ⟨h.own, h.free_own, h.que_own, h.free_nodup, h.que_nodup, h.free, h.first, h.last, h.shared,
    h.idle, h.queued, h.item, h.qnum, h.dead⟩

theorem Stands.setproc (h : Stands mi s g A q st') : Stands mi (s.setproc p st) g A q st' := by
  refine ⟨?_, h.hand⟩
  have hf := h.fits
  have hold : ∀ {a qp smp spmp sz}, Holding mi s g A q a qp smp spmp sz →
      Holding mi (s.setproc p st) g A q a qp smp spmp sz :=
    fun h => h.congr rfl (fun _ _ => rfl) rfl rfl
  cases st' with
  | user => trivial
  | asleep w ch => exact hf
  | woken w sig => exact hf
  | copying c =>
    cases c with
    | sndtype a qp => exact hf
    | sndtext a qp type mp spot => exact hf
    | rcvtype a qp smp spmp sz => exact hold hf
    | rcvtext a qp smp spmp sz type => exact ⟨hold hf.1, hf.2⟩
    | ctlset u qp => trivial

/-- The invariant after a step of `p`, which comes to stand at `st`. -/
theorem Inv.of_setproc {st : pstate} (hc : Core mi s g) (hz : ∀ qp, Sized s g qp)
    (ho : Others mi s g A p) (hp : Stands mi s g A p st) (hl : Carries g A) :
    Inv mi (s.setproc p st) g A := by
  refine ⟨hc.setproc st, hz, fun q => ?_, hl⟩
  by_cases hq : q = p
  · subst hq
    have heq : (s.setproc q st).proc q = st := by
      exact update_self ..
    rw [heq]
    exact hp.setproc
  · have heq : (s.setproc p st).proc q = s.proc q := by
      exact update_of_ne hq ..
    rw [heq]
    exact (ho q hq).setproc

end IpcMsg

/-! # The search of `msgrcv`

The walk over a queue keeps the best message so far and the one before it, and ends with
what the request asks for, if any message meets it.
-/

namespace IpcMsg

open List
open Ipc

variable {mi : msginfo} {s : State} {typ : ℤ} {v l : List ℕ} {x smp spmp mp fuel qp : ℕ}

/-- Of the messages `v`, `smp` is the one to take and `spmp` comes before it; or there is
none. -/
def Best (s : State) (typ : ℤ) (v : List ℕ) (smp spmp : ℕ) : Prop :=
  (smp = 0 ∧ ∀ x ∈ v, ¬ Meets typ (s.msgh x).msg_type) ∨
    (smp ≠ 0 ∧ ∃ pre post, v = pre ++ smp :: post ∧ spmp = pre.getLastD 0 ∧
      Picks (fun h => (s.msgh h).msg_type) typ pre smp post)

theorem Meets.neg_iff {t : ℤ} (h : typ < 0) : Meets typ t ↔ t ≤ -typ := by
  constructor
  · rintro (h0 | ⟨h0, -⟩ | ⟨-, h0⟩)
    · omega
    · omega
    · exact h0
  · exact fun h0 => Or.inr (Or.inr ⟨h, h0⟩)

theorem Meets.pos_iff {t : ℤ} (h : 0 < typ) : Meets typ t ↔ t = typ := by
  constructor
  · rintro (h0 | ⟨-, h0⟩ | ⟨h0, -⟩)
    · omega
    · exact h0
    · omega
  · exact fun h0 => Or.inr (Or.inl ⟨h, h0⟩)

/-- A message that does not meet the request, or is no better, is passed by. -/
theorem Best.pass (h : Best s typ v smp spmp)
    (hx : Meets typ (s.msgh x).msg_type → smp ≠ 0 ∧ (s.msgh smp).msg_type ≤ (s.msgh x).msg_type) :
    Best s typ (v ++ [x]) smp spmp := by
  rcases h with ⟨hsmp, hnone⟩ | ⟨hsmp, pre, post, rfl, hlast, hp⟩
  · refine Or.inl ⟨hsmp, fun y hy => ?_⟩
    rcases List.mem_append.mp hy with hy | hy
    · exact hnone y hy
    · obtain rfl := List.mem_singleton.mp hy
      exact fun hm => (hx hm).1 hsmp
  · refine Or.inr ⟨hsmp, pre, post ++ [x], by simp, hlast, hp.meets, hp.oldest, hp.lower, ?_⟩
    intro h1 y hy hm
    rcases List.mem_append.mp hy with hy | hy
    · exact hp.lowest h1 y hy hm
    · obtain rfl := List.mem_singleton.mp hy
      exact (hx hm).2

/-- A message of a lower type than all before is the best so far. -/
theorem Best.take (h : Best s typ v smp spmp) (h0 : typ < 0) (hx0 : x ≠ 0)
    (hx : Meets typ (s.msgh x).msg_type)
    (hlt : smp ≠ 0 → (s.msgh x).msg_type < (s.msgh smp).msg_type) :
    Best s typ (v ++ [x]) x (v.getLastD 0) := by
  refine Or.inr ⟨hx0, v, [], rfl, rfl, hx, fun h1 => absurd h0 (by omega), fun _ y hy hm => ?_,
    fun _ y hy => by cases hy⟩
  show (s.msgh x).msg_type < (s.msgh y).msg_type
  rcases h with ⟨-, hnone⟩ | ⟨hsmp, pre, post, rfl, -, hp⟩
  · exact absurd hm (hnone y hy)
  · have h1 := hlt hsmp
    rcases List.mem_append.mp hy with hy | hy
    · exact h1.trans (hp.lower h0 y hy hm)
    · rcases List.mem_cons.mp hy with rfl | hy
      · exact h1
      · exact lt_of_lt_of_le h1 (hp.lowest h0 y hy hm)

/-- The walk for a negative type. -/
theorem findloop_neg (h0 : typ < 0) (hmin : -2 ^ 31 < typ) (hl : Chain s.next mp l)
    (hfuel : l.length < fuel) (hb : Best s typ v smp spmp) :
    ∃ smp' spmp', findloop s typ fuel (v.getLastD 0) mp smp spmp = some (smp', spmp') ∧
      Best s typ (v ++ l) smp' spmp' := by
  induction l generalizing v mp smp spmp fuel with
  | nil =>
    obtain ⟨n, rfl⟩ := Nat.exists_eq_succ_of_ne_zero (by omega : fuel ≠ 0)
    refine ⟨smp, spmp, ?_, by rw [append_nil]; exact hb⟩
    rw [findloop, if_pos (Chain.nil_iff.mp hl)]
  | cons x l ih =>
    obtain ⟨rfl, hx0, hl⟩ := hl
    obtain ⟨n, rfl⟩ := Nat.exists_eq_succ_of_ne_zero (by omega : fuel ≠ 0)
    have hn : l.length < n := by
      rw [length_cons] at hfuel
      omega
    have hneg : int32 (-typ) = -typ := by
      unfold int32
      omega
    have hlast : (v ++ [mp]).getLastD 0 = mp := getLastD_concat
    have happ : v ++ mp :: l = v ++ [mp] ++ l := by simp
    rw [findloop, if_neg hx0, if_neg (by omega), hneg, happ]
    by_cases hm : (s.msgh mp).msg_type ≤ -typ
    · rw [if_pos hm]
      by_cases hworse : smp ≠ 0 ∧ (s.msgh smp).msg_type ≤ (s.msgh mp).msg_type
      · rw [if_pos hworse]
        have := ih hl hn (hb.pass fun _ => hworse)
        rwa [hlast] at this
      · rw [if_neg hworse]
        have := ih hl hn (hb.take h0 hx0 ((Meets.neg_iff h0).mpr hm) fun hs =>
          not_le.mp fun hle => hworse ⟨hs, hle⟩)
        rwa [hlast] at this
    · rw [if_neg hm]
      have := ih hl hn (hb.pass fun hmt => absurd ((Meets.neg_iff h0).mp hmt) hm)
      rwa [hlast] at this

/-- The walk for a positive type. -/
theorem findloop_pos (h0 : 0 < typ) (hl : Chain s.next mp l) (hfuel : l.length < fuel)
    (hv : ∀ y ∈ v, (s.msgh y).msg_type ≠ typ) :
    ∃ smp' spmp', findloop s typ fuel (v.getLastD 0) mp 0 0 = some (smp', spmp') ∧
      Best s typ (v ++ l) smp' spmp' := by
  induction l generalizing v mp fuel with
  | nil =>
    obtain ⟨n, rfl⟩ := Nat.exists_eq_succ_of_ne_zero (by omega : fuel ≠ 0)
    refine ⟨0, 0, ?_, Or.inl ⟨rfl, fun y hy hm => ?_⟩⟩
    · rw [findloop, if_pos (Chain.nil_iff.mp hl)]
    · rw [append_nil] at hy
      exact hv y hy ((Meets.pos_iff h0).mp hm)
  | cons x l ih =>
    obtain ⟨rfl, hx0, hl⟩ := hl
    obtain ⟨n, rfl⟩ := Nat.exists_eq_succ_of_ne_zero (by omega : fuel ≠ 0)
    have hn : l.length < n := by
      rw [length_cons] at hfuel
      omega
    have hlast : (v ++ [mp]).getLastD 0 = mp := getLastD_concat
    rw [findloop, if_neg hx0, if_pos h0]
    by_cases hm : typ ≠ (s.msgh mp).msg_type
    · rw [if_pos hm]
      have := ih (v := v ++ [mp]) hl hn (by
        intro y hy
        rcases List.mem_append.mp hy with hy | hy
        · exact hv y hy
        · obtain rfl := List.mem_singleton.mp hy
          exact hm.symm)
      rw [hlast, append_assoc] at this
      exact this
    · rw [if_neg hm]
      rw [ne_eq, not_not] at hm
      refine ⟨mp, v.getLastD 0, rfl, Or.inr ⟨hx0, v, l, rfl, rfl, ?_⟩⟩
      exact ⟨(Meets.pos_iff h0).mpr hm.symm, fun _ y hy hy' => hv y hy ((Meets.pos_iff h0).mp hy'),
        fun h1 => absurd h1 (by omega), fun h1 => absurd h1 (by omega)⟩

/-- **What `msgrcv` picks** is what the request asks for. -/
theorem find_best (h : Chain s.next (s.msgque qp).msg_first l) (hlen : l.length ≤ mi.msgtql)
    (hmin : -2 ^ 31 < typ) :
    ∃ smp spmp, find mi s qp typ = some (smp, spmp) ∧ Best s typ l smp spmp := by
  unfold find
  rcases lt_trichotomy typ 0 with h0 | h0 | h0
  · rw [if_neg h0.ne]
    exact findloop_neg (v := []) h0 hmin h (by omega) (Or.inl ⟨rfl, fun y hy => by cases hy⟩)
  · rw [if_pos h0]
    refine ⟨_, _, rfl, ?_⟩
    cases l with
    | nil => exact Or.inl ⟨h, fun y hy => by cases hy⟩
    | cons x l =>
      obtain ⟨hx, hx0, -⟩ := h
      rw [hx]
      refine Or.inr ⟨hx0, [], l, rfl, rfl, Or.inl h0, fun _ y hy => ?_, fun _ y hy => ?_,
        fun h1 => absurd h0 h1.ne⟩
      · cases hy
      · cases hy
  · rw [if_neg h0.ne']
    exact findloop_pos (v := []) h0 h (by omega) (fun y hy => by cases hy)

end IpcMsg
