/-
# Typed message lists

What the message calls are for: each queue is a list of messages, oldest first, each with
a type and bytes of its own.  A message is numbered when it is sent, so that two with the
same type and bytes are told apart.

A receiver looks at the queues at some moment of its call and takes the message it chose
then.
-/
import SunOS.Ipc.Msg
import SunOS.Lib.Run
import Mathlib.Data.List.Nodup

namespace IpcMsg

open List
open Function (update update_of_ne update_self)
open Ipc

/-- A message on a queue. -/
structure Item where
  no : ℕ
  type : ℤ
  bytes : List ℕ
  deriving DecidableEq, Repr

/-- The message lists; `got` are the numbers of the messages that were received, and
`view p` is what the queues held when process `p` last looked. -/
structure Lists where
  que : ℕ → List Item
  sent : ℕ
  got : List ℕ
  view : ℕ → ℕ → List Item

/-- No message yet. -/
def Lists.empty : Lists := ⟨fun _ => [], 0, [], fun _ _ => []⟩

section Picks

variable {α β : Type*} {type : α → ℤ} {typ : ℤ} {pre post l : List α} {m : α}

/-- A message of type `t` meets a request for `typ`. -/
def Meets (typ t : ℤ) : Prop := typ = 0 ∨ (0 < typ ∧ t = typ) ∨ (typ < 0 ∧ t ≤ -typ)

/-- Of the list `pre ++ m :: post`, `m` is what a request for `typ` asks for: the oldest
that meets it, and for a negative `typ` the oldest of the lowest type. -/
structure Picks (type : α → ℤ) (typ : ℤ) (pre : List α) (m : α) (post : List α) : Prop where
  meets : Meets typ (type m)
  oldest : 0 ≤ typ → ∀ x ∈ pre, ¬ Meets typ (type x)
  lower : typ < 0 → ∀ x ∈ pre, Meets typ (type x) → type m < type x
  lowest : typ < 0 → ∀ x ∈ post, Meets typ (type x) → type m ≤ type x

theorem Picks.map {type' : β → ℤ} {f : α → β} (h : Picks type typ pre m post)
    (hf : ∀ x ∈ pre ++ m :: post, type' (f x) = type x) :
    Picks type' typ (pre.map f) (f m) (post.map f) := by
  have hpre : ∀ x ∈ pre, type' (f x) = type x := fun x hx => hf x (by simp [hx])
  have hpost : ∀ x ∈ post, type' (f x) = type x := fun x hx => hf x (by simp [hx])
  have hm : type' (f m) = type m := hf m (by simp)
  constructor
  · rw [hm]
    exact h.meets
  · intro h0 y hy
    obtain ⟨x, hx, rfl⟩ := List.mem_map.mp hy
    rw [hpre x hx]
    exact h.oldest h0 x hx
  · intro h0 y hy
    obtain ⟨x, hx, rfl⟩ := List.mem_map.mp hy
    rw [hpre x hx, hm]
    exact h.lower h0 x hx
  · intro h0 y hy
    obtain ⟨x, hx, rfl⟩ := List.mem_map.mp hy
    rw [hpost x hx, hm]
    exact h.lowest h0 x hx

end Picks

/-! ## Steps -/

/-- A receiver looks at the queues when it is called, and may look again as it runs on. -/
def Looks : Event → Lists → Lists → Prop
  | .msgrcv p _ _, A, B => B.view = update A.view p A.que
  | .run p _, A, B => B.view = A.view ∨ B.view = update A.view p A.que
  | _, A, B => B.view = A.view

/-- Message `m` of queue `qp`, chosen when `p` last looked, goes to a call with arguments
`a`: it is there still, and the messages before it now were before it then. -/
structure Taken (A : Lists) (p qp : ℕ) (a : rcvargs) (pre : List Item) (m : Item)
    (post : List Item) : Prop where
  now : A.que qp = pre ++ m :: post
  chosen : ∃ pre' post', A.view p qp = pre' ++ m :: post' ∧ pre.Sublist pre' ∧
    Picks Item.type a.msgtyp pre' m post'

/-- What is delivered of the bytes of a message: all, or as many as were asked for. -/
def Delivers (a : rcvargs) (m : Item) (bytes : List ℕ) : Prop :=
  ((m.bytes.length : ℤ) ≤ a.msgsz ∧ bytes = m.bytes) ∨
    (a.msgflg &&& MSG_NOERROR ≠ 0 ∧ a.msgsz < m.bytes.length ∧ bytes = m.bytes.take a.msgsz.toNat)

/-- The lists stay as they are. -/
def Still (A B : Lists) : Prop := B.que = A.que ∧ B.sent = A.sent ∧ B.got = A.got

/-- What a step does to the lists, by what it comes to. -/
def Moves (mi : msginfo) (e : Event) : Result → Lists → Lists → Prop
  | .sent qp type bytes, A, B =>
      B.que = update A.que qp (A.que qp ++ [⟨A.sent, type, bytes⟩]) ∧
        B.sent = A.sent + 1 ∧ B.got = A.got
  | .received qp a type bytes, A, B =>
      qp = a.msqid.toNat % mi.msgmni ∧
        ∃ pre m post, Taken A e.proc qp a pre m post ∧ type = m.type ∧ Delivers a m bytes ∧
          B.que = update A.que qp (pre ++ post) ∧ B.sent = A.sent ∧ B.got = m.no :: A.got
  | .removed qp, A, B =>
      B.que = update A.que qp [] ∧ B.sent = A.sent ∧ B.got = A.got
  | .made qp _, A, B => A.que qp = [] ∧ Still A B
  | .error .ENOMSG, A, B => Still A B ∧
      ∀ p u a, e = .msgrcv p u a → ∀ m ∈ A.que (a.msqid.toNat % mi.msgmni), ¬ Meets a.msgtyp m.type
  | _, A, B => Still A B

/-- One step of the message lists. -/
def Lists.Step (mi : msginfo) (A : Lists) (e : Event × Result) (B : Lists) : Prop :=
  Looks e.1 A B ∧ Moves mi e.1 e.2 A B

/-! ## At most once -/

/-- Every message has its own number, and those received are gone. -/
structure Lists.Once (A : Lists) : Prop where
  sent : ∀ qp, ∀ m ∈ A.que qp, m.no < A.sent
  got : ∀ n ∈ A.got, n < A.sent
  nodup : ∀ qp, ((A.que qp).map Item.no).Nodup
  apart : ∀ qp rp, qp ≠ rp → ∀ m ∈ A.que qp, ∀ n ∈ A.que rp, m.no ≠ n.no
  gone : ∀ qp, ∀ m ∈ A.que qp, m.no ∉ A.got
  once : A.got.Nodup

variable {mi : msginfo} {A B : Lists} {e : Event × Result}

theorem Lists.Once.of_still (h : A.Once) (hs : Still A B) : B.Once := by
  obtain ⟨hq, hsent, hgot⟩ := hs
  constructor
  · rw [hq, hsent]
    exact h.sent
  · rw [hgot, hsent]
    exact h.got
  · rw [hq]
    exact h.nodup
  · rw [hq]
    exact h.apart
  · rw [hq, hgot]
    exact h.gone
  · rw [hgot]
    exact h.once

/-- Queues that only lose messages keep the numbers apart. -/
theorem Lists.Once.of_sublist (h : A.Once) (hsent : B.sent = A.sent)
    (hq : ∀ qp, (B.que qp).Sublist (A.que qp)) (hgot : ∀ n ∈ B.got, n < A.sent)
    (hgone : ∀ qp, ∀ m ∈ B.que qp, m.no ∉ B.got) (honce : B.got.Nodup) : B.Once := by
  constructor
  · intro qp m hm
    rw [hsent]
    exact h.sent qp m ((hq qp).subset hm)
  · rw [hsent]
    exact hgot
  · exact fun qp => (h.nodup qp).sublist ((hq qp).map _)
  · exact fun qp rp hne m hm n hn => h.apart qp rp hne m ((hq qp).subset hm) n ((hq rp).subset hn)
  · exact hgone
  · exact honce

/-- A message that is sent has a new number. -/
theorem Lists.Once.of_sent {qp : ℕ} {type : ℤ} {bytes : List ℕ} (h : A.Once)
    (hq : B.que = update A.que qp (A.que qp ++ [⟨A.sent, type, bytes⟩]))
    (hsent : B.sent = A.sent + 1) (hgot : B.got = A.got) : B.Once := by
  have hmem : ∀ rp, ∀ m ∈ B.que rp, m ∈ A.que rp ∨ (rp = qp ∧ m.no = A.sent) := by
    intro rp m hm
    rw [hq] at hm
    by_cases hr : rp = qp
    · subst hr
      rw [update_self, mem_append, mem_singleton] at hm
      exact hm.imp_right fun heq => ⟨rfl, by rw [heq]⟩
    · rw [update_of_ne hr] at hm
      exact Or.inl hm
  constructor
  · intro rp m hm
    rw [hsent]
    rcases hmem rp m hm with hm | ⟨-, hm⟩
    · exact Nat.lt_succ_of_lt (h.sent rp m hm)
    · omega
  · intro n hn
    rw [hgot] at hn
    rw [hsent]
    exact Nat.lt_succ_of_lt (h.got n hn)
  · intro rp
    rw [hq]
    by_cases hr : rp = qp
    · subst hr
      rw [update_self, map_append, nodup_append]
      refine ⟨h.nodup rp, by simp, ?_⟩
      intro a ha b hb
      obtain ⟨m, hm, rfl⟩ := List.mem_map.mp ha
      rw [map_singleton, mem_singleton] at hb
      subst hb
      exact (h.sent rp m hm).ne
    · rw [update_of_ne hr]
      exact h.nodup rp
  · intro rp sp hne m hm n hn
    rcases hmem rp m hm with hm | ⟨rfl, hm⟩
    · rcases hmem sp n hn with hn | ⟨rfl, hn⟩
      · exact h.apart rp sp hne m hm n hn
      · rw [hn]
        exact (h.sent rp m hm).ne
    · rcases hmem sp n hn with hn | ⟨rfl, -⟩
      · rw [hm]
        exact (h.sent sp n hn).ne'
      · exact absurd rfl hne
  · intro rp m hm
    rw [hgot]
    rcases hmem rp m hm with hm | ⟨-, hm⟩
    · exact h.gone rp m hm
    · rw [hm]
      exact fun hg => (h.got _ hg).ne rfl
  · rw [hgot]
    exact h.once

/-- A message that is received leaves its queue. -/
theorem Lists.Once.of_received {qp : ℕ} {pre post : List Item} {m : Item} (h : A.Once)
    (hnow : A.que qp = pre ++ m :: post) (hq : B.que = update A.que qp (pre ++ post))
    (hsent : B.sent = A.sent) (hgot : B.got = m.no :: A.got) : B.Once := by
  have hm : m ∈ A.que qp := by
    rw [hnow]
    simp
  have hsub : ∀ rp, (B.que rp).Sublist (A.que rp) := by
    intro rp
    rw [hq]
    by_cases hr : rp = qp
    · subst hr
      rw [update_self, hnow]
      exact (List.Sublist.refl pre).append (sublist_cons_self m post)
    · rw [update_of_ne hr]
  refine h.of_sublist hsent hsub ?_ ?_ ?_
  · intro n hn
    rw [hgot, mem_cons] at hn
    rcases hn with rfl | hn
    · exact h.sent qp m hm
    · exact h.got n hn
  · intro rp x hx
    rw [hgot, mem_cons, not_or]
    refine ⟨?_, h.gone rp x ((hsub rp).subset hx)⟩
    by_cases hr : rp = qp
    · subst hr
      have hnd := h.nodup rp
      rw [hq, update_self] at hx
      rw [hnow, map_append, map_cons, nodup_middle, nodup_cons,
        ← map_append] at hnd
      exact fun heq => hnd.1 (heq ▸ mem_map_of_mem hx)
    · exact h.apart rp qp hr x ((hsub rp).subset hx) m hm
  · rw [hgot]
    exact List.nodup_cons.mpr ⟨h.gone qp m hm, h.once⟩

theorem Lists.Once.step (h : A.Once) (hs : A.Step mi e B) : B.Once := by
  obtain ⟨e, r⟩ := e
  obtain ⟨-, hm⟩ := hs
  cases r with
  | sent qp type bytes => exact h.of_sent hm.1 hm.2.1 hm.2.2
  | received qp a type bytes =>
    obtain ⟨-, pre, m, post, ht, -, -, hq, hsent, hgot⟩ := hm
    exact h.of_received ht.now hq hsent hgot
  | removed qp =>
    obtain ⟨hq, hsent, hgot⟩ := hm
    refine h.of_sublist hsent (fun rp => ?_) ?_ ?_ ?_
    · rw [hq]
      by_cases hr : rp = qp
      · rw [hr, update_self]
        exact nil_sublist _
      · rw [update_of_ne hr]
    · rw [hgot]
      exact h.got
    · rw [hgot, hq]
      intro rp x hx
      by_cases hr : rp = qp
      · rw [hr, update_self] at hx
        cases hx
      · rw [update_of_ne hr] at hx
        exact h.gone rp x hx
    · rw [hgot]
      exact h.once
  | made qp n => exact h.of_still hm.2
  | error err =>
    cases err with
    | ENOMSG => exact h.of_still hm.1
    | _ => exact h.of_still hm
  | rval n => exact h.of_still hm
  | stat ds => exact h.of_still hm
  | waits => exact h.of_still hm

theorem Lists.once_empty : Lists.empty.Once := by
  constructor <;> simp [Lists.empty]

/-- **Received at most once**: in every run of the message lists the messages that were
received are different ones. -/
theorem Lists.got_nodup {es : List (Event × Result)} (h : Run (Lists.Step mi) Lists.empty es A) :
    A.got.Nodup :=
  (h.invariant (fun _ _ _ hA hs => Lists.Once.step hA hs) Lists.once_empty).once

end IpcMsg
