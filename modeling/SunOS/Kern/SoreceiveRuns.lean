/-
# Every run of a reader

Each step of `soreceive` keeps the invariant and leaves less to do.
-/
import SunOS.Kern.SoreceiveInv

namespace Sockbuf

open Option (some.inj)
open List

variable {writable : ℕ → Bool} {peek : Bool} {s : reading} {pre post ms : List mbuf} {c : mbuf}
  {base : List UInt8} {len n : ℤ}

/-- At most so many steps are left. -/
def call.fuel (s : call) : ℕ :=
  match s.at_ with
  | .restart => 3 * s.uio.uio_resid + s.uio.uio_iov.length + 2
  | .loop => 3 * s.uio.uio_resid + s.uio.uio_iov.length + 1
  | .moving len n =>
      if s.error ≠ 0 then 1
      else if n = len then 3 * s.uio.uio_resid + s.uio.uio_iov.length
      else 3 * s.uio.uio_resid + s.uio.uio_iov.length + 2
  | .sleeping => 0
  | .done _ => 0

/-- What a step of `soreceive` comes to. -/
def Goes (peek : Bool) (s : reading) (t : call) : Prop :=
  ReadInv peek ⟨t, s.dat⟩ ∧ t.fuel < s.call.fuel

/-! ## Up to the loop -/

theorem enter_step {t : call} (h : ReadInv peek s) (hat : s.call.at_ = .restart)
    (hmark : 0 ≤ s.call.so.so_oobmark) (hrun : enter s.call = some t) : Goes peek s t := by
  have hphase := h.phase
  rw [hat] at hphase
  obtain ⟨hout, hdat, -, hshort⟩ := hphase
  have hfuel : s.call.fuel = 3 * s.call.uio.uio_resid + s.call.uio.uio_iov.length + 2 := by
    unfold call.fuel
    rw [hat]
  have hbetween : ∀ u : call, u.out = s.call.out → u.so.so_rcv = s.call.so.so_rcv →
      Between peek ⟨u, s.dat⟩ := by
    intro u ho hq
    refine ⟨?_, fun _ => ?_, fun _ => ?_⟩
    · show u.out <+: s.dat
      rw [ho, hout]
      exact nil_prefix
    · show bytes u.so.so_rcv.sb_mb = s.dat
      rw [hq]
      exact hdat
    · show s.dat = u.out ++ bytes u.so.so_rcv.sb_mb
      rw [ho, hout, hq]
      exact hdat.symm
  have hdone : ∀ u : call, u.out = s.call.out → u.so.so_rcv = s.call.so.so_rcv →
      ((∃ e, u.at_ = .done e) ∨ u.at_ = .sleeping) → Goes peek s u := by
    intro u ho hq hor
    have hb := hbetween u ho hq
    refine ⟨⟨?_, ?_, ?_⟩, ?_⟩
    · show Counted u.so.so_rcv
      rw [hq]
      exact h.counted
    · show ∀ c ∈ u.so.so_rcv.sb_mb, ¬ c.blank
      rw [hq]
      exact h.filled
    · show Phase peek ⟨u, s.dat⟩ u.at_
      rcases hor with ⟨e, he⟩ | he
      · rw [he]
        exact hb
      · rw [he]
        exact hb
    · rw [hfuel]
      unfold call.fuel
      rcases hor with ⟨e, he⟩ | he
      · rw [he]
        exact Nat.succ_pos _
      · rw [he]
        exact Nat.succ_pos _
  unfold enter at hrun
  simp only at hrun
  split_ifs at hrun with h1 h2 h3 h4 h5 h6 h7
  · exact some.inj hrun ▸ hdone _ rfl rfl (Or.inl ⟨_, rfl⟩)
  · exact some.inj hrun ▸ hdone _ rfl rfl (Or.inl ⟨_, rfl⟩)
  · exact some.inj hrun ▸ hdone _ rfl rfl (Or.inl ⟨_, rfl⟩)
  · exact some.inj hrun ▸ hdone _ rfl rfl (Or.inl ⟨_, rfl⟩)
  · exact some.inj hrun ▸ hdone _ rfl rfl (Or.inl ⟨_, rfl⟩)
  · exact some.inj hrun ▸ hdone _ rfl rfl (Or.inr rfl)
  · rw [← some.inj hrun]
    refine ⟨⟨h.counted, h.filled, rfl, hbetween _ rfl rfl, ?_⟩, ?_⟩
    · obtain ⟨c, post, hq⟩ := exists_cons_of_ne_nil h7
      refine Or.inr ⟨[], c, post, hq, rfl, fun _ => ⟨hout, hdat⟩, fun _ => ⟨rfl, ?_, rfl⟩, rfl,
        hmark, hshort⟩
      show s.dat = s.call.out ++ bytes s.queue
      rw [hout, hdat]
      rfl
    · rw [hfuel]
      exact Nat.lt_succ_self _

/-! ## A round begins -/

theorem roundlen_spec (h : At peek s pre c post base) (hr : s.call.uio.uio_resid ≠ 0) :
    0 ≤ roundlen s.call c ∧ roundlen s.call c ≤ c.dat.length ∧
      roundlen s.call c ≤ s.call.uio.uio_resid ∧
      (s.call.tomark ≠ 0 → roundlen s.call c ≤ s.call.tomark) ∧
      (0 < roundlen s.call c ∨ c.dat = []) ∧
      (roundlen s.call c = c.m_len ∨ roundlen s.call c = s.call.uio.uio_resid ∨
        roundlen s.call c = s.call.tomark) := by
  have hmark := h.tomark
  have hlen : c.m_len = c.dat.length := rfl
  have hnil : c.dat = [] ↔ c.dat.length = 0 := List.length_eq_zero_iff.symm
  unfold roundlen
  simp only [h.moff, hnil, zero_add, sub_zero]
  split_ifs <;> lia

theorem lower_step (h : ReadInv peek s) (hat : s.call.at_ = .loop) :
    Goes peek s (lower s.call) := by
  have hphase := h.phase
  rw [hat] at hphase
  obtain ⟨herr, hbetween, hor⟩ := hphase
  have hfuel : s.call.fuel = 3 * s.call.uio.uio_resid + s.call.uio.uio_iov.length + 1 := by
    unfold call.fuel
    rw [hat]
  unfold lower
  by_cases hr : s.call.uio.uio_resid = 0
  · rw [if_pos hr]
    exact ⟨⟨h.counted, h.filled, ⟨hbetween.oldest, hbetween.stay, hbetween.leave⟩⟩,
      by rw [hfuel]; exact Nat.succ_pos _⟩
  · rw [if_neg hr]
    obtain ⟨pre, c, post, hq⟩ := hor.resolve_left hr
    rw [hq.here_eq]
    obtain ⟨h1, h2, h3, h4, h5, h6⟩ := roundlen_spec hq hr
    refine ⟨⟨h.counted, h.filled, pre, c, post, s.call.out,
      ⟨hq.queue, hq.here, hq.peeked, hq.taken, hq.moff, hq.tomark⟩,
      ⟨⟨h1, le_rfl⟩, h2, h3, ?_, h4, Or.inl herr, h5, fun _ => hr, fun _ => h6⟩⟩, ?_⟩
    · show s.call.out = s.call.out ++ c.dat.take (roundlen s.call c - roundlen s.call c).toNat
      rw [sub_self, Int.toNat_zero, take_zero, append_nil]
    · rw [hfuel]
      unfold call.fuel
      simp only [herr, ne_eq, not_true_eq_false, if_false, if_true]
      exact Nat.lt_succ_self _

/-! ## Bytes are copied -/

theorem moving_fuel (hat : s.call.at_ = .moving len n) (herr : s.call.error = 0) :
    s.call.fuel = if n = len then 3 * s.call.uio.uio_resid + s.call.uio.uio_iov.length
      else 3 * s.call.uio.uio_resid + s.call.uio.uio_iov.length + 2 := by
  unfold call.fuel
  rw [hat]
  exact if_neg (by simpa using herr)

/-- `cnt` bytes are copied to the first vector. -/
theorem ReadInv.copied (h : ReadInv peek s) (hat : s.call.at_ = .moving len n)
    (herr : s.call.error = 0) (hq : At peek s pre c post base) (hm : Moving peek s c base len n)
    {iov : iovec} {rest : List iovec} (hcons : s.call.uio.uio_iov = iov :: rest) (cnt : ℕ)
    (hcnt : 1 ≤ cnt) (hle : cnt ≤ iov.iov_len) (hcntn : (cnt : ℤ) ≤ n) :
    Goes peek s { s.call with
      uio := s.call.uio.advance hcons cnt hle
      at_ := .moving len (n - cnt)
      out := s.call.out ++ ((((some c).map mbuf.dat).getD []).drop
        (s.call.moff + (len - n)).toNat).take cnt } := by
  have hleft := hm.left
  have hrle := hm.resid
  refine ⟨⟨h.counted, h.filled, pre, c, post, base,
    ⟨hq.queue, hq.here, hq.peeked, hq.taken, hq.moff, hq.tomark⟩,
    ⟨⟨by lia, by lia⟩, hm.within, ?_, ?_, hm.mark, hm.error, hm.some_,
      fun heq => by lia, fun hp => ?_⟩⟩, ?_⟩
  · show n - cnt ≤ ((s.call.uio.uio_resid - cnt : ℕ) : ℤ)
    lia
  · show s.call.out ++ (c.dat.drop (s.call.moff + (len - n)).toNat).take cnt = _
    rw [hm.out, hq.moff, zero_add, append_assoc, ← take_add,
      show (len - (n - cnt)).toNat = (len - n).toNat + cnt by lia]
  · rcases hm.ends hp with he | he | he
    · exact Or.inl he
    · refine Or.inr (Or.inl ?_)
      show n - cnt = ((s.call.uio.uio_resid - cnt : ℕ) : ℤ)
      lia
    · exact Or.inr (Or.inr he)
  · rw [moving_fuel hat herr]
    unfold call.fuel
    simp only [herr, ne_eq, not_true_eq_false, if_false, uio.advance, hcons, length_cons]
    split_ifs <;> lia

theorem chunk_step (h : ReadInv peek s) (hat : s.call.at_ = .moving len n) (hn : 0 < n)
    (hr : s.call.uio.uio_resid ≠ 0) (herr : s.call.error = 0)
    (hw : peek = false → Writes writable s.call.uio n) :
    Goes peek s (chunk writable s.call len n) := by
  have hphase := h.phase
  rw [hat] at hphase
  obtain ⟨pre, c, post, base, hq, hm⟩ := hphase
  have hfuel := moving_fuel hat herr
  have hresid := s.call.uio.resid
  unfold chunk
  split
  · -- there is a vector, since there is room
    rename_i hnil
    rw [hnil] at hresid
    exact absurd (Nat.le_zero.mp hresid) hr
  · rename_i iov rest hcons
    by_cases h0 : iov.iov_len = 0
    · rw [dif_pos h0]
      refine ⟨⟨h.counted, h.filled, ?_⟩, ?_⟩
      · show Phase peek _ s.call.at_
        rw [hat]
        exact ⟨pre, c, post, base, ⟨hq.queue, hq.here, hq.peeked, hq.taken, hq.moff, hq.tomark⟩,
          ⟨hm.left, hm.within, hm.resid, hm.out, hm.mark, hm.error, hm.some_, hm.begun, hm.ends⟩⟩
      · rw [hfuel]
        unfold call.fuel
        simp only [hat, herr, hcons, uio.skip, ne_eq, not_true_eq_false, if_false,
          length_cons]
        split_ifs <;> lia
    · rw [dif_neg h0]
      by_cases hwrite : s.call.uio.uio_kernel ∨
          copyout writable iov.iov_base (min iov.iov_len n.toNat) = true
      · rw [if_pos hwrite, hq.here_eq]
        exact h.copied hat herr hq hm hcons _ (by lia) (min_le_left ..) (by lia)
      · rw [if_neg hwrite]
        have hpeek : peek = true := by
          cases peek with
          | true => rfl
          | false =>
            have := hw rfl iov (by rw [hcons]; rfl)
            exact absurd this hwrite
        refine ⟨⟨h.counted, h.filled, ?_⟩, ?_⟩
        · show Phase peek _ s.call.at_
          rw [hat]
          exact ⟨pre, c, post, base, ⟨hq.queue, hq.here, hq.peeked, hq.taken, hq.moff, hq.tomark⟩,
            ⟨hm.left, hm.within, hm.resid, hm.out, hm.mark, Or.inr hpeek, hm.some_, hm.begun,
              hm.ends⟩⟩
        · rw [hfuel]
          have : (EFAULT : ℤ) ≠ 0 := by decide
          unfold call.fuel
          split_ifs <;> lia

/-! ## A round ends -/

variable {front : List UInt8}

/-- What is left of the queue after `consume`, and whether it goes on. -/
structure Consumed (peek : Bool) (s : reading) (c : mbuf) (len : ℤ) (t : call) (eor : Bool) :
    Prop where
  counted : Counted t.so.so_rcv
  filled : ∀ c ∈ t.so.so_rcv.sb_mb, ¬ c.blank
  between : Between peek ⟨t, s.dat⟩
  kept : t.uio = s.call.uio ∧ t.tomark = s.call.tomark ∧ t.error = s.call.error ∧
    t.so.so_oobmark = s.call.so.so_oobmark ∧ t.out = s.call.out
  next : t.error = 0 → t.m < t.so.so_rcv.sb_mb.length → ¬ eor →
    t.uio.uio_resid = 0 ∨ (peek = true ∧ t.tomark ≠ 0 ∧ len = t.tomark) ∨
      ∃ pre c post, t.so.so_rcv.sb_mb = pre ++ c :: post ∧ t.m = pre.length ∧ t.moff = 0 ∧
        (peek = true → t.out = bytes pre) ∧ (peek = false → pre = [])
  ended : len = 0 → eor = true

/-- **With `MSG_PEEK`** the queue stays as it is. -/
theorem consume_peek (h : ReadInv true s) (hq : At true s pre c post base)
    (hm : Moving true s c base len n) (hn : s.call.error = 0 → n = 0) :
    Consumed true s c len (consume true front s.call len).1
      (consume true front s.call len).2 := by
  obtain ⟨hold, hstay, -⟩ := hq.between hm.out
  have hlen : c.m_len = c.dat.length := rfl
  have hblank := h.filled c (by rw [hq.queue]; simp)
  unfold consume
  simp only [hq.here_eq, if_true]
  by_cases hall : len = c.m_len
  · rw [if_pos hall]
    refine ⟨h.counted, h.filled, ⟨hold, hstay, nofun⟩, ⟨rfl, rfl, rfl, rfl, rfl⟩,
      fun herr hlt _ => ?_, fun h0 => ?_⟩
    · refine Or.inr (Or.inr ?_)
      have hlt' : s.call.m + 1 < s.queue.length := hlt
      rw [hq.queue, hq.here, length_append, length_cons] at hlt'
      obtain ⟨d, post', rfl⟩ := exists_cons_of_length_pos (show 0 < post.length by omega)
      refine ⟨pre ++ [c], d, post', ?_, ?_, rfl, fun _ => ?_, nofun⟩
      · rw [append_assoc]
        exact hq.queue
      · show s.call.m + 1 = _
        rw [hq.here, length_append]
        rfl
      · show s.call.out = _
        have hn' := hn herr
        rw [hm.out, (hq.peeked rfl).1, bytes_append, bytes_cons, bytes_nil, append_nil,
          take_of_length_le (by omega)]
    · unfold mbuf.blank at hblank
      rw [decide_eq_true_iff, not_and, Bool.not_eq_false] at hblank
      exact hblank (List.length_eq_zero_iff.mp (by omega))
  · rw [if_neg hall]
    have hsome := hm.some_
    have hpos : len ≠ 0 := by
      intro h0
      rcases hsome with h1 | h1
      · omega
      · rw [hlen, h1, h0] at hall
        exact hall rfl
    refine ⟨h.counted, h.filled, ⟨hold, hstay, nofun⟩, ⟨rfl, rfl, rfl, rfl, rfl⟩,
      fun herr _ _ => ?_, fun h0 => absurd h0 hpos⟩
    have hn' := hn herr
    rcases hm.ends rfl with he | he | he
    · exact absurd he hall
    · refine Or.inl ?_
      show s.call.uio.uio_resid = 0
      omega
    · refine Or.inr (Or.inl ⟨rfl, ?_, he⟩)
      show s.call.tomark ≠ 0
      rw [← he]
      exact hpos

theorem advance_eq (h0 : 0 ≤ len) : c.advance len [] =
    { c with dat := c.dat.drop len.toNat, m_off := (c.m_off + len.toNat) % 4294967296 } := by
  unfold mbuf.advance
  rw [nil_append, mbuf.mk.injEq]
  exact ⟨by omega, rfl, rfl⟩

/-- **Without it** the bytes that have been copied leave the queue. -/
theorem consume_take (h : ReadInv false s) (hq : At false s pre c post base)
    (hm : Moving false s c base len n) (hn : n = 0) :
    Consumed false s c len (consume false [] s.call len).1
      (consume false [] s.call len).2 := by
  obtain ⟨rfl, hdat, hmark⟩ := hq.taken rfl
  have hlen : c.m_len = c.dat.length := rfl
  have hleft := hm.left
  have hwithin := hm.within
  have hqueue : s.call.so.so_rcv.sb_mb = c :: post := hq.queue
  have hout := hm.out
  have hblank := h.filled c (by rw [hq.queue]; simp)
  have hcounted : Counted { s.call.so.so_rcv with sb_mb := c :: post } := by
    rw [← hqueue]
    exact h.counted
  have hpost : ∀ d ∈ post, ¬ d.blank := fun d hd => h.filled d (by rw [hq.queue]; simp [hd])
  rw [hn, sub_zero] at hout
  unfold consume
  simp only [hq.here_eq, Bool.false_eq_true, if_false]
  simp only [hqueue, tail_cons]
  by_cases hall : len = c.m_len
  · rw [if_pos hall]
    have hwhole : s.call.out = base ++ c.dat := by
      rw [hout, take_of_length_le (by lia)]
    have hdat' : s.dat = s.call.out ++ bytes post := by
      rw [hdat, hq.queue, hwhole, append_assoc]
      rfl
    refine ⟨hcounted.free, hpost, ⟨⟨bytes post, hdat'.symm⟩, nofun,
      fun _ => hdat'⟩, ⟨rfl, rfl, rfl, rfl, rfl⟩, fun _ hlt _ => ?_, fun h0 => ?_⟩
    · have hlt' : s.call.m < post.length := hlt
      obtain ⟨d, post', rfl⟩ := exists_cons_of_length_pos (show 0 < post.length by lia)
      exact Or.inr (Or.inr ⟨[], d, post', rfl, hq.here, rfl, nofun, fun _ => rfl⟩)
    · unfold mbuf.blank at hblank
      rw [decide_eq_true_iff, not_and, Bool.not_eq_false] at hblank
      exact hblank (List.length_eq_zero_iff.mp (by lia))
  · rw [if_neg hall]
    have hlt : len.toNat < c.dat.length := by lia
    have hadv : c.advance len [] = _ := advance_eq (by lia)
    have hdat' : s.dat = s.call.out ++ bytes (c.advance len [] :: post) := by
      rw [hdat, hq.queue, hout, append_assoc, bytes_cons, hadv]
      show base ++ (c.dat ++ bytes post) = base ++ (c.dat.take len.toNat ++
        (c.dat.drop len.toNat ++ bytes post))
      rw [← append_assoc (c.dat.take _), take_append_drop]
    have hpart := hcounted.part hlt
    rw [← hadv, Int.toNat_of_nonneg (by lia)] at hpart
    refine ⟨hpart, fun d hd => ?_, ⟨⟨_, hdat'.symm⟩, nofun, fun _ => hdat'⟩,
      ⟨rfl, rfl, rfl, rfl, rfl⟩, fun _ _ _ => ?_, fun h0 => ?_⟩
    · rcases List.mem_cons.mp hd with rfl | hd
      · rw [hadv]
        unfold mbuf.blank
        rw [decide_eq_true_iff, not_and, drop_eq_nil_iff]
        intro hle
        lia
      · exact hpost d hd
    · exact Or.inr (Or.inr ⟨[], _, post, rfl, hq.here, hq.moff, nofun,
        fun _ => rfl⟩)
    · rcases hm.some_ with h1 | h1
      · lia
      · rw [hlen, h1, h0] at hall
        exact absurd rfl hall

/-- The rest of a round, once the bytes have been consumed. -/
theorem raise_step (h : ReadInv peek s) (hat : s.call.at_ = .moving len n)
    (hfront : front.length = (-len).toNat)
    (hstop : ¬ (0 < n ∧ s.call.uio.uio_resid ≠ 0 ∧ s.call.error = 0)) :
    Goes peek s (raise peek front s.call len) := by
  have hphase := h.phase
  rw [hat] at hphase
  obtain ⟨pre, c, post, base, hq, hm⟩ := hphase
  have hleft := hm.left
  have hresid := hm.resid
  have hn : s.call.error = 0 → n = 0 := by
    intro he
    by_cases hr : s.call.uio.uio_resid = 0
    · lia
    · by_contra hne
      exact hstop ⟨by lia, hr, he⟩
  have hcons : Consumed peek s c len (consume peek front s.call len).1
      (consume peek front s.call len).2 := by
    cases peek with
    | true => exact consume_peek h hq hm hn
    | false =>
      obtain rfl : front = [] := List.length_eq_zero_iff.mp (by lia)
      have herr := hm.error.resolve_right (by simp)
      exact consume_take h hq hm (hn herr)
  have hmark := hq.tomark
  have hoob : peek = false → s.call.tomark = s.call.so.so_oobmark := fun hp => (hq.taken hp).2.2
  have hpos : 0 < s.call.fuel := by
    unfold call.fuel
    rw [hat]
    simp only
    split_ifs with h1 h2
    · exact Nat.zero_lt_one
    · have := hm.begun h2
      lia
    · exact Nat.succ_pos _
  unfold raise
  simp only
  generalize (consume peek front s.call len).1 = t at hcons
  generalize (consume peek front s.call len).2 = eor at hcons
  obtain ⟨huio, htomark, herr, hoobmark, hout⟩ := hcons.kept
  have hdone : ∀ u : call, u.so.so_rcv = t.so.so_rcv → u.out = t.out → (∃ e, u.at_ = .done e) →
      Goes peek s u := by
    intro u hso ho hat'
    obtain ⟨e, he⟩ := hat'
    refine ⟨⟨?_, ?_, ?_⟩, ?_⟩
    · show Counted u.so.so_rcv
      rw [hso]
      exact hcons.counted
    · show ∀ c ∈ u.so.so_rcv.sb_mb, ¬ c.blank
      rw [hso]
      exact hcons.filled
    · show Phase peek ⟨u, s.dat⟩ u.at_
      rw [he]
      have hb := hcons.between
      refine ⟨?_, ?_, ?_⟩
      · show u.out <+: s.dat
        rw [ho]
        exact hb.oldest
      · show peek = true → bytes u.so.so_rcv.sb_mb = s.dat
        rw [hso]
        exact hb.stay
      · show peek = false → s.dat = u.out ++ bytes u.so.so_rcv.sb_mb
        rw [ho, hso]
        exact hb.leave
    · show u.fuel < _
      unfold call.fuel
      rw [he]
      exact hpos
  by_cases h1 : ¬ peek = true ∧ t.so.so_oobmark ≠ 0 ∧ int16 (t.so.so_oobmark - len) = 0
  · rw [if_pos h1]
    exact hdone _ rfl rfl ⟨_, rfl⟩
  · rw [if_neg h1]
    by_cases h2 : t.tomark ≠ 0 ∧ t.tomark - len = 0
    · have h2' : (if ¬ peek = true ∧ t.so.so_oobmark ≠ 0 then
          { t with so := { t.so with so_oobmark := int16 (t.so.so_oobmark - len) } }
          else t).tomark = t.tomark := by
        split_ifs
        · rfl
        · rfl
      rw [if_pos (by rw [h2']; exact h2)]
      refine hdone _ ?_ ?_ ⟨_, rfl⟩
      · split_ifs
        · rfl
        · rfl
      · split_ifs
        · rfl
        · rfl
    · rw [if_neg (by
        split_ifs
        · exact h2
        · exact h2)]
      -- neither mark has been reached
      have hsame : ∀ u : call, u.so.so_rcv = t.so.so_rcv ∧ u.out = t.out ∧ u.m = t.m ∧
          u.error = t.error ∧ u.uio = t.uio ∧ u.moff = t.moff →
          (u.tomark = if t.tomark ≠ 0 then t.tomark - len else t.tomark) →
          (peek = false → u.so.so_oobmark = if t.so.so_oobmark ≠ 0 then
            int16 (t.so.so_oobmark - len) else t.so.so_oobmark) →
          Goes peek s (if u.m < u.so.so_rcv.sb_mb.length ∧ u.error = 0 ∧ ¬ eor = true then
            { u with at_ := .loop } else { u with at_ := .done u.error }) := by
        rintro u ⟨hso, ho, hum, hue, huu, huo⟩ humark huoob
        by_cases h3 : u.m < u.so.so_rcv.sb_mb.length ∧ u.error = 0 ∧ ¬ eor = true
        swap
        · rw [if_neg h3]
          exact hdone _ hso ho ⟨_, rfl⟩
        · rw [if_pos h3]
          obtain ⟨hlt, herr0, heor⟩ := h3
          have herr' : s.call.error = 0 := by rw [← herr, ← hue, herr0]
          have hb := hcons.between
          have hnl : n ≠ len := fun heq => heor (hcons.ended (by rw [← heq]; exact hn herr'))
          refine ⟨⟨?_, ?_, herr0, ⟨?_, ?_, ?_⟩, ?_⟩, ?_⟩
          · show Counted u.so.so_rcv
            rw [hso]
            exact hcons.counted
          · show ∀ c ∈ u.so.so_rcv.sb_mb, ¬ c.blank
            rw [hso]
            exact hcons.filled
          · show u.out <+: s.dat
            rw [ho]
            exact hb.oldest
          · show peek = true → bytes u.so.so_rcv.sb_mb = s.dat
            rw [hso]
            exact hb.stay
          · show peek = false → s.dat = u.out ++ bytes u.so.so_rcv.sb_mb
            rw [ho, hso]
            exact hb.leave
          · show u.uio.uio_resid = 0 ∨ _
            rw [hso, hum] at hlt
            rcases hcons.next (by rw [herr, herr']) hlt heor with hr | ⟨hp, hne, he⟩ | hnext
            · exact Or.inl (by rw [huu]; exact hr)
            · exact absurd ⟨hne, by lia⟩ h2
            · obtain ⟨pre', c', post', hq', hm', hmoff', hpeek', htake'⟩ := hnext
              have hlemark := hm.mark
              rw [← htomark] at hlemark hmark
              refine Or.inr ⟨pre', c', post', ?_, ?_, fun hp => ⟨?_, ?_⟩, fun hp =>
                ⟨htake' hp, ?_, ?_⟩,
                ?_, ?_⟩
              · show u.so.so_rcv.sb_mb = _
                rw [hso, hq']
              · show u.m = _
                rw [hum, hm']
              · show u.out = _
                rw [ho, hpeek' hp]
              · show bytes u.so.so_rcv.sb_mb = s.dat
                rw [hso]
                exact hb.stay hp
              · show s.dat = u.out ++ bytes u.so.so_rcv.sb_mb
                rw [ho, hso]
                exact hb.leave hp
              · show u.tomark = u.so.so_oobmark
                rw [humark, huoob hp, hoobmark, ← hoob hp, ← htomark]
                split_ifs with h4
                · have := hlemark h4
                  rw [int16_of_fits (by lia)]
                · rfl
              · show u.moff = 0
                rw [huo, hmoff']
              · show 0 ≤ u.tomark ∧ u.tomark ≤ 32767
                rw [humark]
                split_ifs with h4
                · have := hlemark h4
                  lia
                · exact hmark
          · show call.fuel _ < _
            rw [moving_fuel hat herr', if_neg hnl]
            show 3 * u.uio.uio_resid + u.uio.uio_iov.length + 1 < _
            rw [huu, huio]
            exact Nat.lt_succ_self _
      refine hsame _ ?_ ?_ fun hp => ?_
      · split_ifs <;> exact ⟨rfl, rfl, rfl, rfl, rfl, rfl⟩
      · split_ifs <;> rfl
      · have hpeek : ¬ peek = true := by rw [hp]; exact Bool.false_ne_true
        by_cases h4 : t.so.so_oobmark ≠ 0
        · have hboth : ¬ peek = true ∧ t.so.so_oobmark ≠ 0 := ⟨hpeek, h4⟩
          rw [if_pos h4]
          split_ifs <;> rfl
        · have hnot : ¬ (¬ peek = true ∧ t.so.so_oobmark ≠ 0) := fun hc => h4 hc.2
          rw [if_neg h4]
          split_ifs <;> rfl

/-! ## The protocol appends -/

theorem append_step (h : ReadInv peek s) (hlow : s.call.at_.low)
    (hfine : Fine writable peek s (.append ms)) :
    ReadInv peek ⟨{ s.call with so := { s.call.so with so_rcv := sbappend s.call.so.so_rcv ms } },
      s.dat ++ bytes ms⟩ := by
  obtain ⟨⟨hformed, hcc, hmbcnt⟩, hmore⟩ := hfine
  obtain ⟨hcounted, hbytes, -, -⟩ := sbappend_spec ms h.counted hformed hcc hmbcnt
  have hphase := h.phase
  refine ⟨hcounted, sbappend_filled ms _ h.filled, ?_⟩
  show Phase peek _ s.call.at_
  cases hat : s.call.at_ with
  | restart =>
    rw [hat] at hlow
    exact hlow.elim
  | loop =>
    rw [hat] at hlow
    exact hlow.elim
  | done e =>
    rw [hat] at hlow
    exact hlow.elim
  | sleeping =>
    rw [hat] at hphase
    have hb : Between peek s := hphase
    refine ⟨hb.oldest.trans (prefix_append _ _), fun hp => ?_, fun hp => ?_⟩
    · show bytes (sbappend s.call.so.so_rcv ms).sb_mb = s.dat ++ bytes ms
      rw [hbytes, ← hb.stay hp]
      rfl
    · show s.dat ++ bytes ms = s.call.out ++ bytes (sbappend s.call.so.so_rcv ms).sb_mb
      rw [hbytes, hb.leave hp, append_assoc]
      rfl
  | moving len n =>
    rw [hat] at hphase
    simp only [hat] at hmore
    obtain ⟨pre, c, post, base, hq, hm⟩ := hphase
    obtain ⟨ext, post', hqueue, hext⟩ := sbappend_at ms _ c post hq.queue
    have hleft := hm.left
    have hwithin := hm.within
    -- an mbuf that ends a record is not extended
    have hact : c.m_act = true → ext = [] := by
      intro ha
      refine hext (Or.inr fun d _ hc => ?_)
      rw [compacts, decide_eq_true_iff, ha] at hc
      exact absurd hc.2.2.1 (by decide)
    have hblank := h.filled c (by rw [hq.queue]; simp)
    have hsame : ¬ Extends s.call ms → ext = [] := by
      intro hne
      by_cases hpost : post = []
      · refine hext (Or.inr fun d hd hc => hne ⟨?_, c, d, ?_, hd, hc⟩)
        · show s.call.m + 1 = s.queue.length
          rw [hq.queue, hq.here, hpost, length_append]
          rfl
        · show s.queue.getLast? = some c
          rw [hq.queue, hpost, List.getLast?_concat]
      · exact hext (Or.inl hpost)
    refine ⟨pre, { c with dat := c.dat ++ ext }, post', base,
      ⟨hqueue, hq.here, fun hp => ⟨(hq.peeked hp).1, ?_⟩, fun hp => ⟨(hq.taken hp).1, ?_,
        (hq.taken hp).2.2⟩, hq.moff, hq.tomark⟩,
      ⟨hm.left, ?_, hm.resid, ?_, hm.mark, hm.error, ?_, hm.begun, fun hp => ?_⟩⟩
    · show bytes (sbappend s.call.so.so_rcv ms).sb_mb = s.dat ++ bytes ms
      rw [hbytes, ← (hq.peeked hp).2]
      rfl
    · show s.dat ++ bytes ms = base ++ bytes (sbappend s.call.so.so_rcv ms).sb_mb
      rw [hbytes, (hq.taken hp).2.1, append_assoc]
      rfl
    · show len ≤ ((c.dat ++ ext).length : ℤ)
      rw [length_append]
      omega
    · show s.call.out = base ++ (c.dat ++ ext).take (len - n).toNat
      rw [hm.out, take_append_of_le_length (by omega)]
    · rcases hm.some_ with h1 | h1
      · exact Or.inl h1
      · refine Or.inr ?_
        unfold mbuf.blank at hblank
        rw [decide_eq_true_iff, not_and, Bool.not_eq_false] at hblank
        show c.dat ++ ext = []
        rw [h1, hact (hblank h1), append_nil]
    · rcases hmore hp with he | he | he
      · exact Or.inr (Or.inl he)
      · exact Or.inr (Or.inr he)
      · have hlen : ({ c with dat := c.dat ++ ext } : mbuf).m_len = c.m_len := by
          rw [hsame he, append_nil]
        rw [hlen]
        exact hm.ends hp

/-! ## Runs -/

/-- How many of the events are steps of `soreceive`. -/
def owns (es : List event) : ℕ :=
  es.countP fun
    | .own _ => true
    | .append _ => false

/-- **One step.** -/
theorem read_step {e : event} {t : reading} (h : ReadInv peek s)
    (hstep : Guarded (Fine writable peek) (ReadStep writable peek) s e t) :
    ReadInv peek t ∧ owns [e] + t.call.fuel ≤ s.call.fuel := by
  obtain ⟨hfine, hstep⟩ := hstep
  cases hstep with
  | append ms hlow => exact ⟨append_step h hlow hfine, (Nat.zero_add _).le⟩
  | own front hfront hrun =>
    have hgoes : ∀ c, Goes peek s c →
        ReadInv peek ⟨c, s.dat⟩ ∧ owns [.own front] + c.fuel ≤ s.call.fuel := by
      intro c hc
      refine ⟨hc.1, ?_⟩
      have := hc.2
      show 1 + c.fuel ≤ s.call.fuel
      omega
    refine hgoes _ ?_
    unfold own at hrun
    unfold Fine at hfine
    cases hat : s.call.at_ with
    | restart =>
      simp only [hat] at hrun hfine
      exact enter_step h hat hfine hrun
    | loop =>
      simp only [hat] at hrun
      exact some.inj hrun ▸ lower_step h hat
    | moving len n =>
      simp only [hat] at hrun hfine
      by_cases hgo : 0 < n ∧ s.call.uio.uio_resid ≠ 0 ∧ s.call.error = 0
      · rw [if_pos hgo] at hrun
        exact some.inj hrun ▸ chunk_step h hat hgo.1 hgo.2.1 hgo.2.2 hfine
      · rw [if_neg hgo] at hrun
        exact some.inj hrun ▸ raise_step h hat (hfront len n hat) hgo
    | sleeping =>
      simp only [hat] at hrun
      cases hrun
    | done e =>
      simp only [hat] at hrun
      cases hrun

theorem read_run {es : List event} {t : reading} (h : ReadInv peek s)
    (hrun : Run (Guarded (Fine writable peek) (ReadStep writable peek)) s es t) :
    ReadInv peek t ∧ owns es + t.call.fuel ≤ s.call.fuel := by
  induction hrun with
  | nil => exact ⟨h, (Nat.zero_add _).le⟩
  | cons hstep _ ih =>
    obtain ⟨h1, h2⟩ := read_step h hstep
    obtain ⟨h3, h4⟩ := ih h1
    refine ⟨h3, ?_⟩
    have happ : ∀ (e : event) (es : List event), owns (e :: es) = owns [e] + owns es := by
      intro e es
      unfold owns
      rw [countP_cons, countP_singleton]
      omega
    rw [happ]
    omega

/-- **A stream is read in order, whatever is appended meanwhile**: in every run in which the
user's memory can be written, or only looked at with `MSG_PEEK`, the mark is not below 0 and the
counts fit, and in which with `MSG_PEEK` the mbuf being read is not extended while more is
wanted.  The call ends after so many steps of its own. -/
theorem soreceive_reads (writable : ℕ → Bool) (peek : Bool) {s t : reading} {es : List event}
    (h : Begins s) (hrun : Run (Guarded (Fine writable peek) (ReadStep writable peek)) s es t) :
    Reads writable peek t ∧
      owns es ≤ 3 * s.call.uio.uio_resid + s.call.uio.uio_iov.length + 2 := by
  obtain ⟨hinv, hfuel⟩ := read_run h.inv hrun
  refine ⟨hinv.reads, ?_⟩
  have hstart : s.call.fuel = 3 * s.call.uio.uio_resid + s.call.uio.uio_iov.length + 2 := by
    unfold call.fuel
    rw [h.at_]
  omega

/-! ## Some runs -/

/-- A call on a queue, for one vector. -/
def reader (queue : List mbuf) (iov : iovec) (oobmark : ℤ) : reading where
  call :=
    { so := ⟨⟨(bytes queue).length, 4096, charges queue, 8192, queue, 0⟩, oobmark, 0, false, true,
        false, false, true⟩
      uio := ⟨[iov], iov.iov_len, false, by simp⟩
      m := 0
      moff := 0
      tomark := 0
      error := 0
      at_ := .restart
      out := [] }
  dat := bytes queue

/-- A byte is put behind the three that are being read. -/
theorem soreceive_reads_three : ∃ t, Reads (fun _ => true) false t ∧ t.call.out = [1, 2, 3] ∧
    t.queue = [⟨15, false, [4]⟩] := by
  have hbegins : Begins (reader [⟨12, false, [1, 2, 3]⟩] ⟨0, 5⟩ 0) :=
    ⟨rfl, rfl, rfl, ⟨rfl, rfl, by decide, by decide, by decide⟩, by decide, by decide⟩
  have hrun : Run (Guarded (Fine (fun _ => true) false) (ReadStep (fun _ => true) false))
      (reader [⟨12, false, [1, 2, 3]⟩] ⟨0, 5⟩ 0)
      [.own [], .own [], .append [⟨12, false, [4]⟩], .own [], .own []] ⟨_, _⟩ :=
    .cons ⟨le_rfl, .own [] nofun rfl⟩
      (.cons ⟨trivial, .own [] nofun rfl⟩
        (.cons ⟨⟨⟨by decide, by decide, by decide⟩, nofun⟩, .append _ trivial⟩
          (.cons ⟨fun _ iov hiov => Or.inr (by cases hiov; decide), .own [] (by
              rintro len n h
              cases h
              rfl) rfl⟩
            (.cons ⟨fun _ iov hiov => Or.inr (by cases hiov; decide), .own [] (by
                rintro len n h
                cases h
                rfl) rfl⟩ (.nil _)))))
  exact ⟨_, (soreceive_reads _ _ hbegins hrun).1, rfl, rfl⟩

/-- With `MSG_PEEK`, all of the one mbuf has been copied and a byte put behind it, and copied. -/
def stuck (b c : UInt8) : reading :=
  let s := reader [⟨12, false, [b, c]⟩] ⟨2, 8⟩ 0
  { s with call := { s.call with moff := 2, at_ := .loop, out := [b, c] } }

/-- A round then copies nothing. -/
theorem stuck_round (writable : ℕ → Bool) (b c : UInt8) :
    Run (ReadStep writable true) (stuck b c) [.own [], .own []] (stuck b c) :=
  .cons (.own [] nofun rfl) (.cons (.own [] (by
    rintro len n h
    cases h
    rfl) rfl) (.nil _))

theorem stuck_forever (writable : ℕ → Bool) (b c : UInt8) : ∀ N, ∃ es,
    Run (ReadStep writable true) (stuck b c) es (stuck b c) ∧ N ≤ owns es := by
  intro N
  induction N with
  | zero => exact ⟨[], .nil _, le_rfl⟩
  | succ N ih =>
    obtain ⟨es, hrun, hle⟩ := ih
    refine ⟨.own [] :: .own [] :: es, (stuck_round writable b c).append hrun, ?_⟩
    show N + 1 ≤ (event.own [] :: event.own [] :: es).countP _
    rw [countP_cons, countP_cons]
    unfold owns at hle
    simp only [if_true]
    omega

/-- **Reads that go wrong**: a byte is lost when the user's memory cannot be written; with
`MSG_PEEK` the call need not end once the mbuf it copies has been extended; with a mark below 0
a byte in front of the data comes into the queue; and the mbufs are more than can be counted. -/
theorem soreceive_misreads :
    (∃ s es t, Begins s ∧ Run (ReadStep (fun _ => false) false) s es t ∧
      t.call.at_ = .done EFAULT ∧ t.dat = [1] ∧ t.call.out = [] ∧ bytes t.queue = []) ∧
    (∃ s, Begins s ∧ ∀ N, ∃ es t, Run (ReadStep (fun _ => true) true) s es t ∧ N ≤ owns es) ∧
    (∃ s es t, Begins s ∧ Run (ReadStep (fun _ => true) false) s es t ∧
      t.dat = [1, 2] ∧ t.call.out = [] ∧ bytes t.queue = [9, 1, 2]) ∧
    (∃ s es t, Begins s ∧ Run (ReadStep (fun _ => true) false) s es t ∧
      t.call.so.so_rcv.sb_mbcnt ≠ (t.queue.map mbuf.charge).sum) := by
  have hbegins : ∀ q iov mark, (bytes q).length ≤ 32767 → charges q ≤ 32767 →
      (∀ c ∈ q, c.Formed) → (∀ c ∈ q, ¬ c.blank) → -32768 ≤ mark ∧ mark ≤ 32767 →
      Begins (reader q iov mark) := by
    intro q iov mark hcc hmbcnt hformed hfilled hmark
    exact ⟨rfl, rfl, rfl, ⟨rfl, rfl, Int.ofNat_le.mpr hcc, hmbcnt, hformed⟩, hfilled, hmark⟩
  refine ⟨?_, ?_, ?_, ?_⟩
  · refine ⟨reader [⟨12, false, [1]⟩] ⟨0, 1⟩ 0, [.own [], .own [], .own [], .own []], ⟨_, _⟩,
      hbegins _ _ _ (by decide) (by decide) (by decide) (by decide) (by decide),
      .cons (.own [] nofun rfl) (.cons (.own [] nofun rfl) (.cons (.own [] ?_ rfl)
        (.cons (.own [] ?_ rfl) (.nil _)))), rfl, rfl, rfl, rfl⟩
    · rintro len n h
      cases h
      rfl
    · rintro len n h
      cases h
      rfl
  · refine ⟨reader [⟨12, false, [1]⟩] ⟨0, 10⟩ 0,
      hbegins _ _ _ (by decide) (by decide) (by decide) (by decide) (by decide), fun N => ?_⟩
    obtain ⟨es, hrun, hle⟩ := stuck_forever (fun _ => true) 1 2 N
    have hfront : ∀ {c : call} {len n : ℤ}, c.at_ = .moving len n → 0 ≤ len →
        ∀ len n, c.at_ = .moving len n → ([] : List UInt8).length = (-len).toNat := by
      intro c len n hat hlen len' n' hat'
      rw [hat] at hat'
      cases hat'
      show 0 = (-len).toNat
      omega
    -- the byte 2 is appended while the byte 1 is copied
    have hstart : Run (ReadStep (fun _ => true) true) (reader [⟨12, false, [1]⟩] ⟨0, 10⟩ 0)
        [.own [], .own [], .append [⟨12, false, [2]⟩], .own [], .own [], .own [], .own [], .own []]
        (stuck 1 2) :=
      .cons (.own [] nofun rfl) (.cons (.own [] nofun rfl) (.cons (.append _ trivial)
        (.cons (.own [] (hfront rfl (by decide)) rfl) (.cons (.own [] (hfront rfl (by decide)) rfl)
          (.cons (.own [] nofun rfl) (.cons (.own [] (hfront rfl (by decide)) rfl)
            (.cons (.own [] (hfront rfl (by decide)) rfl) (.nil _))))))))
    refine ⟨_, _, hstart.append hrun, hle.trans ?_⟩
    unfold owns
    rw [countP_append]
    exact Nat.le_add_left _ _
  · refine ⟨reader [⟨20, false, [1, 2]⟩] ⟨0, 5⟩ (-1), [.own [], .own [], .own [9]], ⟨_, _⟩,
      hbegins _ _ _ (by decide) (by decide) (by decide) (by decide) (by decide),
      .cons (.own [] nofun rfl) (.cons (.own [] nofun rfl) (.cons (.own [9] ?_ rfl) (.nil _))),
      rfl, rfl, rfl⟩
    rintro len n h
    cases h
    rfl
  · refine ⟨reader [⟨12, false, [1]⟩] ⟨0, 5⟩ 0,
      [.own [], .own [], .append (List.replicate 29 ⟨1024, false, [0]⟩)], ⟨_, _⟩,
      hbegins _ _ _ (by decide) (by decide) (by decide) (by decide) (by decide),
      .cons (.own [] nofun rfl) (.cons (.own [] nofun rfl) (.cons (.append _ trivial) (.nil _))),
      ?_⟩
    decide +kernel

end Sockbuf
