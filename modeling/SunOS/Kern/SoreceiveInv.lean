/-
# What a reader of a stream socket sees

While bytes are copied the queue may grow, at its end and, there, in the very mbuf that is
being read.  The bytes that have been copied stay the first ones.
-/
import SunOS.Kern.SockbufRuns
import SunOS.Kern.Soreceive

namespace Sockbuf

open List

variable {sb : sockbuf} {c : mbuf} {pre post ms : List mbuf}

/-! ## sbappend -/

/-- The mbuf that `sbappend` would first put something of into the queue. -/
def first (ms : List mbuf) : Option mbuf := ms.find? fun m => ¬ m.blank

theorem first_blank {m : mbuf} (h : m.blank) : first (m :: ms) = first ms :=
  List.find?_cons_of_neg (by simpa using h)

theorem first_cons {m : mbuf} (h : ¬ m.blank) : first (m :: ms) = some m :=
  List.find?_cons_of_pos (by simpa using h)

/-- **An mbuf in the queue** gets bytes only at its end, only when it is the last, and only when
the first mbuf that is appended fits behind it. -/
theorem sbappend_at (ms : List mbuf) : ∀ (sb : sockbuf) (c : mbuf) (post : List mbuf),
    sb.sb_mb = pre ++ c :: post → ∃ ext post',
      (sbappend sb ms).sb_mb = pre ++ { c with dat := c.dat ++ ext } :: post' ∧
        (post ≠ [] ∨ (∀ d, first ms = some d → ¬ compacts c d) → ext = []) := by
  induction ms with
  | nil =>
    intro sb c post h
    refine ⟨[], post, ?_, fun _ => rfl⟩
    rw [sbappend, h, append_nil]
  | cons m ms ih =>
    intro sb c post h
    rw [sbappend]
    by_cases hb : m.blank
    · rw [if_pos hb, first_blank hb]
      exact ih sb c post h
    · rw [if_neg hb, first_cons hb]
      rcases eq_nil_or_concat post with rfl | ⟨l, n, rfl⟩
      · -- the mbuf is the last
        rw [show sb.sb_mb.getLast? = some c by rw [h, List.getLast?_concat]]
        simp only
        by_cases hc : compacts c m
        · rw [if_pos hc]
          obtain ⟨ext, post', heq, -⟩ := ih { sb with
            sb_cc := int16 (sb.sb_cc + m.m_len)
            sb_mb := sb.sb_mb.dropLast ++ [{ c with dat := c.dat ++ m.dat }] }
            { c with dat := c.dat ++ m.dat } [] (by
              show sb.sb_mb.dropLast ++ _ = _
              rw [h, dropLast_concat])
          refine ⟨m.dat ++ ext, post', ?_, ?_⟩
          · rw [heq, append_assoc]
          · rintro (hne | hall)
            · exact absurd rfl hne
            · exact absurd hc (hall m rfl)
        · rw [if_neg hc]
          obtain ⟨ext, post', heq, hext⟩ := ih { sballoc sb m with sb_mb := sb.sb_mb ++ [m] } c [m]
            (by show sb.sb_mb ++ [m] = _; rw [h, append_assoc]; rfl)
          exact ⟨ext, post', heq, fun _ => hext (Or.inl (cons_ne_nil _ _))⟩
      · rw [show sb.sb_mb.getLast? = some n by
          rw [h, concat_eq_append, ← cons_append, ← append_assoc,
            List.getLast?_concat]]
        simp only
        have hnext : ∀ sb' : sockbuf, ∀ tail, tail ≠ [] → sb'.sb_mb = pre ++ c :: tail →
            ∃ ext post', (sbappend sb' ms).sb_mb =
                pre ++ { c with dat := c.dat ++ ext } :: post' ∧ ext = [] := by
          intro sb' tail hne heq
          obtain ⟨ext, post', heq', hext⟩ := ih sb' c tail heq
          exact ⟨ext, post', heq', hext (Or.inl hne)⟩
        by_cases hc : compacts n m
        · rw [if_pos hc]
          obtain ⟨ext, post', heq, hext⟩ := hnext { sb with
            sb_cc := int16 (sb.sb_cc + m.m_len)
            sb_mb := sb.sb_mb.dropLast ++ [{ n with dat := n.dat ++ m.dat }] }
            (l ++ [{ n with dat := n.dat ++ m.dat }]) (by simp) (by
              show sb.sb_mb.dropLast ++ _ = _
              rw [h, concat_eq_append, ← cons_append, ← append_assoc,
                dropLast_concat, append_assoc, cons_append])
          exact ⟨ext, post', heq, fun _ => hext⟩
        · rw [if_neg hc]
          obtain ⟨ext, post', heq, hext⟩ := hnext { sballoc sb m with sb_mb := sb.sb_mb ++ [m] }
            (l.concat n ++ [m]) (by simp)
            (by show sb.sb_mb ++ [m] = _; rw [h, append_assoc, cons_append])
          exact ⟨ext, post', heq, fun _ => hext⟩

/-- No mbuf without bytes gets into the queue, unless it ends a record. -/
theorem sbappend_filled (ms : List mbuf) : ∀ sb : sockbuf, (∀ c ∈ sb.sb_mb, ¬ c.blank) →
    ∀ c ∈ (sbappend sb ms).sb_mb, ¬ c.blank := by
  induction ms with
  | nil => exact fun _ h => h
  | cons m ms ih =>
    intro sb h
    rw [sbappend]
    by_cases hb : m.blank
    · rw [if_pos hb]
      exact ih sb h
    · rw [if_neg hb]
      cases hlast : sb.sb_mb.getLast? with
      | none =>
        refine ih _ fun c hc => ?_
        rw [List.mem_singleton.mp hc]
        exact hb
      | some n =>
        simp only
        by_cases hcm : compacts n m
        · rw [if_pos hcm]
          refine ih _ fun c hc => ?_
          rcases List.mem_append.mp hc with hc | hc
          · exact h c (dropLast_subset _ hc)
          · rw [List.mem_singleton.mp hc]
            have hn := h n (List.mem_of_getLast? hlast)
            unfold mbuf.blank at hn ⊢
            simp only [decide_eq_true_eq, not_and, append_eq_nil_iff] at hn ⊢
            exact fun he => hn he.1
        · rw [if_neg hcm]
          refine ih _ fun c hc => ?_
          rcases List.mem_append.mp hc with hc | hc
          · exact h c hc
          · rw [List.mem_singleton.mp hc]
            exact hb

/-! ## Runs -/

/-- A call, and the bytes that were in the queue at its start or have been appended since. -/
structure reading where
  call : call
  dat : List UInt8

/-- The queue. -/
def reading.queue (s : reading) : List mbuf := s.call.so.so_rcv.sb_mb

/-- The protocol appends only where the level is low. -/
def phase.low : phase → Prop
  | .moving _ _ => True
  | .sleeping => True
  | _ => False

inductive ReadStep (writable : ℕ → Bool) (peek : Bool) : reading → event → reading → Prop
  | own {s : reading} {c : call} (front : List UInt8)
      (hfront : ∀ len n, s.call.at_ = .moving len n → front.length = (-len).toNat)
      (h : own writable peek front s.call = some c) :
      ReadStep writable peek s (.own front) ⟨c, s.dat⟩
  | append {s : reading} (ms : List mbuf) (h : s.call.at_.low) :
      ReadStep writable peek s (.append ms)
        ⟨{ s.call with
          so := { s.call.so with so_rcv := sbappend s.call.so.so_rcv ms } }, s.dat ++ bytes ms⟩

/-- The call before its first step; the counts of the queue are true, and `sbappend` leaves no
mbuf without bytes in it unless that ends a record. -/
structure Begins (s : reading) : Prop where
  at_ : s.call.at_ = .restart
  out : s.call.out = []
  dat : bytes s.queue = s.dat
  counted : Counted s.call.so.so_rcv
  filled : ∀ c ∈ s.queue, ¬ c.blank
  short : -32768 ≤ s.call.so.so_oobmark ∧ s.call.so.so_oobmark ≤ 32767

/-- What is appended is counted rightly, as for `sbappend` itself. -/
def Counts (sb : sockbuf) (ms : List mbuf) : Prop :=
  (∀ c ∈ ms, c.Formed) ∧ sb.sb_cc + (bytes ms).length ≤ 32767 ∧
    sb.sb_mbcnt + added sb.sb_mb.getLast? ms ≤ 32767

/-- Bytes are put behind those of the mbuf that is being read. -/
def Extends (s : call) (ms : List mbuf) : Prop :=
  s.m + 1 = s.so.so_rcv.sb_mb.length ∧
    ∃ c d, s.so.so_rcv.sb_mb.getLast? = some c ∧ first ms = some d ∧ compacts c d

/-- The next `copyout` of `uiomove`, for at most `n` bytes, is to memory that can be written. -/
def Writes (writable : ℕ → Bool) (u : uio) (n : ℤ) : Prop :=
  ∀ iov ∈ u.uio_iov.head?, u.uio_kernel ∨ copyout writable iov.iov_base (min iov.iov_len n.toNat)

/-- The condition on a step.  The mark is not below 0; without `MSG_PEEK` the user's memory can
be written; with it, the mbuf that is being read is not extended while more is wanted. -/
def Fine (writable : ℕ → Bool) (peek : Bool) (s : reading) : event → Prop
  | .own _ =>
      match s.call.at_ with
      | .restart => 0 ≤ s.call.so.so_oobmark
      | .moving _ n => peek = false → Writes writable s.call.uio n
      | _ => True
  | .append ms =>
      Counts s.call.so.so_rcv ms ∧
        match s.call.at_ with
        | .moving len n => peek = true →
            n = s.call.uio.uio_resid ∨ len = s.call.tomark ∨ ¬ Extends s.call ms
        | _ => True

/-- How many bytes have been copied in this round, which are still in the queue. -/
def phase.copied : phase → ℕ
  | .moving len n => (len - n).toNat
  | _ => 0

/-- **A sound reading**: the oldest bytes have been copied out; with `MSG_PEEK` all are still in
the queue, and without it those that have been copied are not, up to this round; the counts are
true, and the call has ended, sleeps or goes on. -/
structure Reads (writable : ℕ → Bool) (peek : Bool) (s : reading) : Prop where
  oldest : s.call.out <+: s.dat
  stay : peek = true → bytes s.queue = s.dat
  leave : peek = false → bytes s.queue = s.dat.drop (s.call.out.length - s.call.at_.copied)
  cc : s.call.so.so_rcv.sb_cc = (s.queue.map mbuf.m_len).sum
  mbcnt : s.call.so.so_rcv.sb_mbcnt = (s.queue.map mbuf.charge).sum
  go : (∃ e, s.call.at_ = .done e) ∨ s.call.at_ = .sleeping ∨
    ∀ front, (own writable peek front s.call).isSome

/-! ## The invariant -/

/-- `soreceive` has copied `base` and is at the mbuf `c`. -/
structure At (peek : Bool) (s : reading) (pre : List mbuf) (c : mbuf) (post : List mbuf)
    (base : List UInt8) : Prop where
  queue : s.queue = pre ++ c :: post
  here : s.call.m = pre.length
  peeked : peek = true → base = bytes pre ∧ bytes s.queue = s.dat
  taken : peek = false → pre = [] ∧ s.dat = base ++ bytes s.queue ∧
    s.call.tomark = s.call.so.so_oobmark
  moff : s.call.moff = 0
  tomark : 0 ≤ s.call.tomark ∧ s.call.tomark ≤ 32767

/-- In `uiomove` for `len` bytes of `c`, of which `n` are left. -/
structure Moving (peek : Bool) (s : reading) (c : mbuf) (base : List UInt8) (len n : ℤ) : Prop where
  left : 0 ≤ n ∧ n ≤ len
  within : len ≤ c.dat.length
  resid : n ≤ s.call.uio.uio_resid
  out : s.call.out = base ++ c.dat.take (len - n).toNat
  mark : s.call.tomark ≠ 0 → len ≤ s.call.tomark
  error : s.call.error = 0 ∨ peek = true
  some_ : 0 < len ∨ c.dat = []
  begun : n = len → s.call.uio.uio_resid ≠ 0
  ends : peek = true → len = c.m_len ∨ n = s.call.uio.uio_resid ∨ len = s.call.tomark

/-- Between rounds, after the last one, or asleep. -/
structure Between (peek : Bool) (s : reading) : Prop where
  oldest : s.call.out <+: s.dat
  stay : peek = true → bytes s.queue = s.dat
  leave : peek = false → s.dat = s.call.out ++ bytes s.queue

/-- The invariant of each phase. -/
def Phase (peek : Bool) (s : reading) : phase → Prop
  | .restart => s.call.out = [] ∧ bytes s.queue = s.dat ∧
      -32768 ≤ s.call.so.so_oobmark ∧ s.call.so.so_oobmark ≤ 32767
  | .loop => s.call.error = 0 ∧ Between peek s ∧
      (s.call.uio.uio_resid = 0 ∨ ∃ pre c post, At peek s pre c post s.call.out)
  | .moving len n => ∃ pre c post base, At peek s pre c post base ∧ Moving peek s c base len n
  | .sleeping => Between peek s
  | .done _ => Between peek s

structure ReadInv (peek : Bool) (s : reading) : Prop where
  counted : Counted s.call.so.so_rcv
  filled : ∀ c ∈ s.queue, ¬ c.blank
  phase : Phase peek s s.call.at_

variable {writable : ℕ → Bool} {peek : Bool} {s : reading} {base : List UInt8} {len n : ℤ}

theorem Begins.inv (h : Begins s) : ReadInv peek s :=
  ⟨h.counted, h.filled, by rw [h.at_]; exact ⟨h.out, h.dat, h.short⟩⟩

/-- What a reader in `uiomove` has copied, of what was there. -/
theorem At.between (h : At peek s pre c post base) {k : ℕ}
    (hout : s.call.out = base ++ c.dat.take k) :
    s.call.out <+: s.dat ∧ (peek = true → bytes s.queue = s.dat) ∧
      (peek = false → bytes s.queue = s.dat.drop base.length) := by
  refine ⟨?_, fun hp => (h.peeked hp).2, fun hp => ?_⟩
  · have htake : c.dat.take k ++ c.dat.drop k = c.dat := take_append_drop k c.dat
    cases peek with
    | true =>
      obtain ⟨hbase, hdat⟩ := h.peeked rfl
      refine ⟨c.dat.drop k ++ bytes post, ?_⟩
      rw [hout, hbase, ← hdat, h.queue, bytes_append, bytes_cons, append_assoc,
        ← append_assoc (c.dat.take k), htake]
    | false =>
      obtain ⟨hpre, hdat, -⟩ := h.taken rfl
      refine ⟨c.dat.drop k ++ bytes post, ?_⟩
      rw [hout, hdat, h.queue, hpre, nil_append, bytes_cons, append_assoc,
        ← append_assoc (c.dat.take k), htake]
  · rw [(h.taken hp).2.1, drop_left]

theorem At.here_eq (h : At peek s pre c post base) :
    s.call.so.so_rcv.sb_mb[s.call.m]? = some c := by
  have hq : s.call.so.so_rcv.sb_mb = pre ++ c :: post := h.queue
  rw [hq, h.here, List.getElem?_append_right le_rfl, Nat.sub_self]
  rfl

/-- **The invariant makes a reading sound.** -/
theorem ReadInv.reads (h : ReadInv peek s) : Reads writable peek s := by
  have hcc := h.counted.cc
  rw [length_bytes] at hcc
  have hgo : ∀ front, (∃ e, s.call.at_ = .done e) ∨ s.call.at_ = .sleeping ∨
      (own writable peek front s.call).isSome := by
    intro front
    unfold own
    cases hat : s.call.at_ with
    | restart =>
      refine Or.inr (Or.inr ?_)
      unfold enter
      simp only
      split_ifs with h1 h2 h3 h4 h5 h6 h7
      all_goals try rfl
      refine absurd ?_ h1
      rw [h.counted.cc, h7]
      rfl
    | loop => exact Or.inr (Or.inr rfl)
    | moving len n =>
      refine Or.inr (Or.inr ?_)
      simp only
      split_ifs
      · rfl
      · rfl
    | sleeping => exact Or.inr (Or.inl rfl)
    | done e => exact Or.inl ⟨e, rfl⟩
  have hgo' : (∃ e, s.call.at_ = .done e) ∨ s.call.at_ = .sleeping ∨
      ∀ front, (own writable peek front s.call).isSome := by
    by_cases hd : (∃ e, s.call.at_ = .done e) ∨ s.call.at_ = .sleeping
    · rcases hd with hd | hd
      · exact Or.inl hd
      · exact Or.inr (Or.inl hd)
    · exact Or.inr (Or.inr fun front => by
        rcases hgo front with h1 | h1 | h1
        · exact absurd (Or.inl h1) hd
        · exact absurd (Or.inr h1) hd
        · exact h1)
  have hmain : s.call.out <+: s.dat ∧ (peek = true → bytes s.queue = s.dat) ∧
      (peek = false → bytes s.queue = s.dat.drop (s.call.out.length - s.call.at_.copied)) := by
    have hphase := h.phase
    have hbetween : Between peek s → s.call.at_.copied = 0 → s.call.out <+: s.dat ∧
        (peek = true → bytes s.queue = s.dat) ∧
        (peek = false → bytes s.queue = s.dat.drop (s.call.out.length - s.call.at_.copied)) := by
      intro hb h0
      refine ⟨hb.oldest, hb.stay, fun hp => ?_⟩
      rw [h0, Nat.sub_zero, hb.leave hp, drop_left]
    cases hat : s.call.at_ with
    | restart =>
      rw [hat] at hphase
      obtain ⟨hout, hdat, -⟩ := hphase
      refine ⟨by rw [hout]; exact nil_prefix, fun _ => hdat, fun _ => ?_⟩
      rw [hout, hdat]
      rfl
    | loop =>
      rw [hat] at hphase hbetween
      exact hbetween hphase.2.1 rfl
    | moving len n =>
      rw [hat] at hphase
      obtain ⟨pre, c, post, base, hq, hm⟩ := hphase
      obtain ⟨h1, h2, h3⟩ := hq.between hm.out
      refine ⟨h1, h2, fun hp => ?_⟩
      have hw := hm.within
      have hl := hm.left
      rw [h3 hp, hm.out, length_append, length_take]
      show _ = s.dat.drop (base.length + min (len - n).toNat c.dat.length - (len - n).toNat)
      rw [min_eq_left (by omega), Nat.add_sub_cancel]
    | sleeping =>
      rw [hat] at hphase hbetween
      exact hbetween hphase rfl
    | done e =>
      rw [hat] at hphase hbetween
      exact hbetween hphase rfl
  exact ⟨hmain.1, hmain.2.1, hmain.2.2, hcc, h.counted.mbcnt, hgo'⟩

end Sockbuf
