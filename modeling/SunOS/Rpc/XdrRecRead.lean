/-
# Reading a record stream

`Input` says which bytes the in-coming bits still hold, `At` where in the records
they stand.  Every call of the reader does what `RecordMark.Reader` says, however
`readit` has cut the bytes into chunks.
-/
import SunOS.Rpc.XdrRec

namespace Xdrrec

open Option
open List
open Bytes RecordMark

/-! ## Bytes -/

/-- The bytes still to be read are `rest`. -/
structure Input (s : In) (rest : List UInt8) : Prop where
  bytes : load s.mem s.in_finger (s.in_boundry - s.in_finger) ++ s.incoming.flatten = rest
  finger_le : s.in_finger ≤ s.in_boundry
  size : 2 ≤ s.in_size
  chunks : ∀ c ∈ s.incoming, c ≠ []

/-- The position in the current fragment is left as it is. -/
def SameFragment (s s' : In) : Prop := s'.fbtbc = s.fbtbc ∧ s'.last_frag = s.last_frag

/-- A bound for the rounds of every loop: a byte is first moved to the buffer, then
read. -/
def work (s : In) : ℕ := (s.in_boundry - s.in_finger) + 2 * s.incoming.flatten.length

variable {s : In} {rest : List UInt8} {fuel : ℕ}

theorem readit_spec {c : List UInt8} {cs : List (List UInt8)} {n : ℕ} (hlen : 0 < n)
    (hne : ∀ d ∈ c :: cs, d ≠ []) :
    ∃ d ds, readit n (c :: cs) = some (d, ds) ∧ d ++ ds.flatten = c ++ cs.flatten ∧ d ≠ [] ∧
      ∀ e ∈ ds, e ≠ [] := by
  rw [readit]
  by_cases hfit : c.length ≤ n
  · rw [if_pos hfit]
    exact ⟨c, cs, rfl, rfl, hne c (by simp), fun e he => hne e (by simp [he])⟩
  · rw [if_neg hfit]
    refine ⟨c.take n, c.drop n :: cs, rfl, ?_, ?_, ?_⟩
    · rw [flatten_cons, ← append_assoc, take_append_drop]
    · rw [← length_pos_iff, length_take]
      omega
    · intro e he
      rcases List.mem_cons.mp he with rfl | he
      · rw [← length_pos_iff, length_drop]
        omega
      · exact hne e (by simp [he])

/-- `fill_input_buf` refills the empty buffer as long as there is input. -/
theorem Input.fill (hi : Input s rest) (hempty : s.in_boundry - s.in_finger = 0)
    (hne : rest ≠ []) :
    ∃ s', fill_input_buf s = some s' ∧ Input s' rest ∧ SameFragment s s' ∧ work s' < work s := by
  have hrest : s.incoming.flatten = rest := by simpa [hempty] using hi.bytes
  rcases hin : s.incoming with - | ⟨c, cs⟩
  · rw [hin] at hrest
    exact absurd hrest.symm hne
  · have hsize := hi.size
    obtain ⟨d, ds, hread, hcat, hd, hds⟩ := readit_spec (n := s.in_size - s.in_boundry % 2)
      (by omega) (hin ▸ hi.chunks)
    have hpos : 0 < d.length := List.length_pos_iff.mpr hd
    have hfill : fill_input_buf s = some { s with
        incoming := ds
        mem := store s.mem (s.in_base + s.in_boundry % 2) d
        in_finger := s.in_base + s.in_boundry % 2
        in_boundry := s.in_base + s.in_boundry % 2 + d.length } := by
      rw [fill_input_buf, hin, hread]
      rfl
    refine ⟨_, hfill, ⟨?_, Nat.le_add_right _ _, hsize, hds⟩, ⟨rfl, rfl⟩, ?_⟩
    · show load (store s.mem (s.in_base + s.in_boundry % 2) d) (s.in_base + s.in_boundry % 2)
        (s.in_base + s.in_boundry % 2 + d.length - (s.in_base + s.in_boundry % 2)) ++ _ = rest
      rw [Nat.add_sub_cancel_left, load_store, hcat, ← hrest, hin, flatten_cons]
    · have hcount := congrArg List.length hcat
      rw [length_append, length_append] at hcount
      rw [work, work, hin, flatten_cons, length_append]
      show s.in_base + s.in_boundry % 2 + d.length - (s.in_base + s.in_boundry % 2) +
        2 * ds.flatten.length < _
      omega

theorem Input.fill_none (hi : Input s []) : fill_input_buf s = none := by
  have hin : s.incoming = [] := by
    rcases hin : s.incoming with - | ⟨c, cs⟩
    · rfl
    · have hc := hi.chunks c (by simp [hin])
      have hb := hi.bytes
      rw [hin] at hb
      simp [hc] at hb
  rw [fill_input_buf, hin, readit, map_none]

/-- The bytes in the buffer are the first ones. -/
theorem Input.step {k : ℕ} (hi : Input s rest) (hk : k ≤ s.in_boundry - s.in_finger) :
    load s.mem s.in_finger k = rest.take k ∧
      Input { s with in_finger := s.in_finger + k } (rest.drop k) := by
  have hfinger := hi.finger_le
  have hlen : (load s.mem s.in_finger (s.in_boundry - s.in_finger)).length =
      s.in_boundry - s.in_finger := length_load
  refine ⟨?_, ?_, show s.in_finger + k ≤ s.in_boundry by omega, hi.size, hi.chunks⟩
  · rw [← hi.bytes, take_append_of_le_length (by omega), load_take hk]
  · show load s.mem (s.in_finger + k) (s.in_boundry - (s.in_finger + k)) ++ _ = _
    rw [← hi.bytes, drop_append_of_le_length (by omega), load_drop, Nat.sub_add_eq]

/-- **`get_input_bytes`** takes the first bytes, as far as there are any; it ends. -/
theorem Input.get_input_bytes (len : ℕ) (hi : Input s rest) (hfuel : work s < fuel) :
    ∃ s', get_input_bytes fuel len s = some (decide (len ≤ rest.length), rest.take len, s') ∧
      Input s' (rest.drop len) ∧ SameFragment s s' ∧
      work s' + min len rest.length ≤ work s := by
  induction fuel generalizing s rest len with
  | zero => lia
  | succ fuel ih =>
    rw [Xdrrec.get_input_bytes]
    by_cases hlen : len = 0
    · rw [if_pos hlen]
      exact ⟨s, by simp [hlen], by simpa [hlen] using hi, ⟨rfl, rfl⟩, by lia⟩
    · rw [if_neg hlen]
      by_cases hempty : s.in_boundry - s.in_finger = 0
      · rw [if_pos hempty]
        by_cases hne : rest = []
        · subst hne
          rw [hi.fill_none]
          exact ⟨s, by simp [hlen], by simpa using hi, ⟨rfl, rfl⟩, by simp⟩
        · obtain ⟨t, hfill, hit, hsame, hwork⟩ := hi.fill hempty hne
          obtain ⟨s', hrun, his, hsame', hwork'⟩ := ih len hit (by lia)
          rw [hfill]
          exact ⟨s', hrun, his, ⟨hsame'.1.trans hsame.1, hsame'.2.trans hsame.2⟩, by lia⟩
      · rw [if_neg hempty]
        generalize hcur : min len (s.in_boundry - s.in_finger) = current
        obtain ⟨hgot, hit⟩ := hi.step (k := current) (by lia)
        have hrest : s.in_boundry - s.in_finger ≤ rest.length := by
          rw [← hi.bytes, length_append, length_load]
          lia
        have hwork : work { s with in_finger := s.in_finger + current } + current = work s := by
          show s.in_boundry - (s.in_finger + current) + 2 * s.incoming.flatten.length + current =
            s.in_boundry - s.in_finger + 2 * s.incoming.flatten.length
          lia
        obtain ⟨s', hrun, his, hsame, hwork'⟩ := ih (len - current) hit (by lia)
        refine ⟨s', ?_, ?_, hsame, ?_⟩
        · simp only
          rw [hrun, hgot, map_some]
          congr 3
          · rw [length_drop]
            exact decide_eq_decide.mpr (by lia)
          · rw [← take_add]
            congr 1
            lia
        · rw [drop_drop] at his
          rwa [show current + (len - current) = len by lia] at his
        · rw [length_drop] at hwork'
          lia

/-- `skip_input_bytes` goes where `get_input_bytes` goes. -/
theorem skip_input_bytes_eq (fuel len : ℕ) (s : In) :
    skip_input_bytes fuel len s =
      (get_input_bytes fuel len s).map fun (ok, _, s) => (ok, s) := by
  induction fuel generalizing len s with
  | zero => rfl
  | succ fuel ih =>
    rw [skip_input_bytes, get_input_bytes]
    by_cases hlen : len = 0
    · rw [if_pos hlen, if_pos hlen, map_some]
    · rw [if_neg hlen, if_neg hlen]
      by_cases hempty : s.in_boundry - s.in_finger = 0
      · rw [if_pos hempty, if_pos hempty]
        cases fill_input_buf s with
        | none => rfl
        | some t => exact ih len t
      · rw [if_neg hempty, if_neg hempty, ih, Option.map_map]
        rfl

/-! ## Records -/

/-- The fragments of the current record after the current one, on the stream; there are
none after the last. -/
def encodeMore (more : Option Rec) : List UInt8 := more.elim [] encode

/-- The bytes of the current record after the current fragment. -/
def moreBytes (more : Option Rec) : List UInt8 := more.elim [] Rec.bytes

/-- The stream stands in a fragment of which `cur` is left; `more` are the fragments of
the record after it and `recs` the records after that. -/
structure At (s : In) (cur : List UInt8) (more : Option Rec) (recs : List Rec) : Prop where
  input : Input s (cur ++ (encodeMore more ++ recs.flatMap encode))
  fbtbc : s.fbtbc = cur.length
  last_frag : s.last_frag = more.isNone
  fits : ∀ r ∈ recs, r.Fits
  fits_more : ∀ r, more = some r → r.Fits

/-- The stream has been read past its last record. -/
structure Past (s : In) : Prop where
  input : Input s []
  fbtbc : s.fbtbc = 0
  last_frag : s.last_frag = false

/-- The stream stands where a reader of the records stands. -/
inductive Reads : Reader → In → Prop
  | inside {s : In} {cur : List UInt8} {more : Option Rec} {recs : List Rec} :
      At s cur more recs → Reads (some (cur ++ moreBytes more, recs.map Rec.bytes)) s
  | past {s : In} : Past s → Reads none s

variable {cur : List UInt8} {more : Option Rec} {recs : List Rec} {r : Rec}

theorem set_input_fragment_some (last : Bool) {d : List UInt8} (rest : List UInt8)
    (hd : d.length < 2 ^ 31) (hi : Input s (frag last d ++ rest)) (hfuel : work s < fuel) :
    ∃ s', set_input_fragment fuel s = some (true, s') ∧ Input s' (d ++ rest) ∧
      s'.fbtbc = d.length ∧ s'.last_frag = last ∧ work s' + 4 ≤ work s := by
  obtain ⟨t, hrun, hit, -, hwork⟩ := hi.get_input_bytes sizeofLong hfuel
  have hlen : (htonl (header last d.length)).length = 4 := length_htonl _
  have hall : 4 + (d.length + rest.length) = (frag last d ++ rest).length := by
    rw [frag, length_append, length_append, hlen]
    omega
  have htake : (frag last d ++ rest).take sizeofLong = htonl (header last d.length) := by
    rw [frag, append_assoc, take_append_of_le_length (by rw [sizeofLong]; omega),
      take_of_length_le (by rw [sizeofLong]; omega)]
  have hdrop : (frag last d ++ rest).drop sizeofLong = d ++ rest := by
    rw [frag, append_assoc, drop_append_of_le_length (by rw [sizeofLong]; omega),
      drop_of_length_le (by rw [sizeofLong]; omega), nil_append]
  have hok : decide (sizeofLong ≤ (frag last d ++ rest).length) = true := by
    rw [decide_eq_true_eq, ← hall, sizeofLong]
    omega
  rw [sizeofLong, ← hall] at hwork
  have hlast : (if header last d.length &&& LAST_FRAG = 0 then false else true) = last := by
    cases last with
    | false => rw [if_pos ((header_last hd).mpr rfl)]
    | true => rw [if_neg fun h => absurd ((header_last hd).mp h) (by decide)]
  have hset : set_input_fragment fuel s =
      some (true, { t with last_frag := last, fbtbc := d.length }) := by
    rw [set_input_fragment, hrun, hok, htake, map_some]
    simp only [ntohl_htonl, header_len hd, hlast, Bool.true_eq_false, if_false]
  exact ⟨_, hset, ⟨hit.bytes, hit.finger_le, hit.size, hit.chunks⟩, rfl, rfl, by
    show work t + 4 ≤ work s
    omega⟩

/-- A header stands between two fragments of a record. -/
theorem At.set_input_fragment {k : ℕ} (ha : At s [] (some r) recs) (hfuel : work s < k) :
    ∃ s' cur more, Xdrrec.set_input_fragment k s = some (true, s') ∧ At s' cur more recs ∧
      cur ++ moreBytes more = r.bytes ∧ work s' + 4 ≤ work s := by
  obtain ⟨ds, d⟩ := r
  obtain ⟨hds, hd⟩ := ha.fits_more _ rfl
  have hi := ha.input
  cases ds with
  | nil =>
    obtain ⟨s', hrun, hi', hfbtbc, hlast, hwork⟩ := set_input_fragment_some true
      (recs.flatMap encode) hd (by simpa [encodeMore, encode, encodeOpen] using hi) hfuel
    exact ⟨s', d, none, hrun, ⟨by simpa [encodeMore] using hi', hfbtbc, hlast, ha.fits, by simp⟩,
      by simp [moreBytes, Rec.bytes], hwork⟩
  | cons d' ds =>
    obtain ⟨s', hrun, hi', hfbtbc, hlast, hwork⟩ := set_input_fragment_some false
      (encode (ds, d) ++ recs.flatMap encode) (hds d' (by simp))
      (by simpa [encodeMore, encode, encodeOpen] using hi) hfuel
    refine ⟨s', d', some (ds, d), hrun, ⟨by simpa [encodeMore] using hi', hfbtbc, hlast, ha.fits,
      ?_⟩, by simp [moreBytes, Rec.bytes], hwork⟩
    intro r hr
    rw [← some.inj hr]
    exact ⟨fun e he => hds e (by simp [he]), hd⟩

theorem Past.set_input_fragment (hp : Past s) (hfuel : work s < fuel) :
    ∃ s', Xdrrec.set_input_fragment fuel s = some (false, s') ∧ Past s' ∧ work s' ≤ work s := by
  obtain ⟨s', hrun, hi, hsame, hwork⟩ := hp.input.get_input_bytes sizeofLong hfuel
  refine ⟨s', by rw [Xdrrec.set_input_fragment, hrun]; rfl, ⟨by simpa using hi, ?_, ?_⟩, by omega⟩
  · rw [hsame.1, hp.fbtbc]
  · rw [hsame.2, hp.last_frag]

/-- Bytes taken from the current fragment. -/
theorem At.advance {s' : In} {k : ℕ} (ha : At s cur more recs) (hk : k ≤ cur.length)
    (hi : Input s' ((cur ++ (encodeMore more ++ recs.flatMap encode)).drop k))
    (hlast : s'.last_frag = s.last_frag) :
    At { s' with fbtbc := s.fbtbc - k } (cur.drop k) more recs where
  input := by
    rw [drop_append_of_le_length hk] at hi
    exact ⟨hi.bytes, hi.finger_le, hi.size, hi.chunks⟩
  fbtbc := by
    show s.fbtbc - k = _
    rw [ha.fbtbc, length_drop]
  last_frag := hlast.trans ha.last_frag
  fits := ha.fits
  fits_more := ha.fits_more

/-! ## The calls of the reader -/

/-- **`xdrrec_getbytes`** takes the first bytes of what is left of the record, as far as
there are any; it ends. -/
theorem At.getbytes (len : ℕ) (ha : At s cur more recs) (hfuel : work s < fuel) :
    ∃ s' cur' more', xdrrec_getbytes fuel len s =
        some (decide (len ≤ (cur ++ moreBytes more).length), (cur ++ moreBytes more).take len, s') ∧
      At s' cur' more' recs ∧ cur' ++ moreBytes more' = (cur ++ moreBytes more).drop len ∧
      work s' ≤ work s := by
  induction fuel generalizing s cur more len with
  | zero => lia
  | succ fuel ih =>
    rw [xdrrec_getbytes]
    by_cases hlen : len = 0
    · rw [if_pos hlen]
      exact ⟨s, cur, more, by simp [hlen], ha, by simp [hlen], le_refl _⟩
    · rw [if_neg hlen]
      by_cases hzero : s.fbtbc = 0
      · have hcur : cur = [] := List.length_eq_zero_iff.mp (ha.fbtbc.symm.trans hzero)
        subst hcur
        rw [if_pos hzero]
        cases more with
        | none =>
          rw [if_pos (by rw [ha.last_frag]; rfl)]
          exact ⟨s, [], none, by simp [moreBytes, hlen], ha, by simp [moreBytes], le_refl _⟩
        | some r =>
          obtain ⟨t, cur, more, hset, hat, hbytes, hwork⟩ := ha.set_input_fragment hfuel
          rw [if_neg (by rw [ha.last_frag]; exact Bool.false_ne_true), hset]
          obtain ⟨s', cur', more', hrun, hat', hbytes', hwork'⟩ := ih len hat (by lia)
          rw [hbytes] at hrun hbytes'
          exact ⟨s', cur', more', hrun, hat', hbytes', by lia⟩
      · rw [if_neg hzero, ha.fbtbc]
        generalize hk : min len cur.length = current
        have hpos : 0 < cur.length := by
          rw [← ha.fbtbc]
          lia
        obtain ⟨t, hget, hit, hsame, hwork⟩ := ha.input.get_input_bytes current hfuel
        have hok : decide (current ≤
            (cur ++ (encodeMore more ++ recs.flatMap encode)).length) = true := by
          rw [decide_eq_true_eq, length_append]
          lia
        have htake : (cur ++ (encodeMore more ++ recs.flatMap encode)).take current =
            cur.take current := take_append_of_le_length (by lia)
        have hat := ha.advance (by lia) hit hsame.2
        obtain ⟨s', cur', more', hrun, hat', hbytes', hwork'⟩ := ih (len - current) hat (by
          show work t < fuel
          lia)
        simp only
        rw [hget, hok, htake]
        simp only [hsame.1, ha.fbtbc] at hrun ⊢
        rw [hrun, map_some]
        refine ⟨s', cur', more', ?_, hat', ?_, le_trans hwork' (by show work t ≤ work s; lia)⟩
        · congr 2
          · rw [length_append, length_append, length_drop]
            exact decide_eq_decide.mpr (by lia)
          · congr 1
            have hcut : cur.drop current ++ moreBytes more =
                (cur ++ moreBytes more).drop current := by
              rw [drop_append_of_le_length (by lia)]
            have hhead : cur.take current = (cur ++ moreBytes more).take current := by
              rw [take_append_of_le_length (by lia)]
            rw [hcut, hhead, ← take_add]
            congr 1
            lia
        · rw [hbytes', ← drop_append_of_le_length (by lia), drop_drop]
          congr 1
          lia

theorem Past.getbytes (len : ℕ) (hp : Past s) (hfuel : work s < fuel) :
    ∃ s', xdrrec_getbytes fuel len s = some (decide (len = 0), [], s') ∧ Past s' ∧
      work s' ≤ work s := by
  cases fuel with
  | zero => omega
  | succ fuel =>
    rw [xdrrec_getbytes]
    by_cases hlen : len = 0
    · rw [if_pos hlen]
      exact ⟨s, by simp [hlen], hp, le_refl _⟩
    · obtain ⟨s', hset, hp', hwork⟩ := hp.set_input_fragment hfuel
      rw [if_neg hlen, if_pos hp.fbtbc, if_neg (by rw [hp.last_frag]; decide), hset]
      exact ⟨s', by simp [hlen], hp', hwork⟩

/-- **`xdrrec_skiprecord`** goes to the next record; it ends. -/
theorem At.skiprecord (ha : At s cur more recs) (hfuel : work s < fuel) :
    ∃ s', xdrrec_skiprecord fuel s = some (true, s') ∧
      Reads (Reader.skip (some (cur ++ moreBytes more, recs.map Rec.bytes))).2 s' ∧
      work s' ≤ work s := by
  induction fuel generalizing s cur more with
  | zero => lia
  | succ fuel ih =>
    rw [xdrrec_skiprecord]
    by_cases hmore : s.fbtbc > 0 ∨ s.last_frag = false
    · obtain ⟨t, hget, hit, hsame, hwork⟩ := ha.input.get_input_bytes s.fbtbc hfuel
      have hok : decide (s.fbtbc ≤
          (cur ++ (encodeMore more ++ recs.flatMap encode)).length) = true := by
        rw [decide_eq_true_eq, length_append, ha.fbtbc]
        lia
      have hat := ha.advance (le_of_eq ha.fbtbc) hit hsame.2
      rw [Nat.sub_self, ha.fbtbc, drop_length] at hat
      rw [if_pos hmore, skip_input_bytes_eq, hget, hok, map_some]
      simp only
      cases more with
      | none =>
        -- the last fragment: nothing of the record is left
        have hpos : s.fbtbc > 0 := hmore.resolve_right (by rw [ha.last_frag]; decide)
        obtain ⟨s', hrun, hreads, hwork'⟩ := ih hat (by show work t < fuel; lia)
        rw [if_neg (by rw [hsame.2, ha.last_frag]; decide)]
        refine ⟨s', hrun, ?_, le_trans hwork' (by show work t ≤ work s; lia)⟩
        cases recs <;> exact hreads
      | some r =>
        obtain ⟨u, cur', more', hset, hau, -, hworku⟩ :=
          hat.set_input_fragment (k := fuel + 1) (by show work t < fuel + 1; lia)
        have hworkt : work { t with fbtbc := 0 } = work t := rfl
        obtain ⟨s', hrun, hreads, hwork'⟩ := ih hau (by lia)
        rw [if_pos (by rw [hsame.2, ha.last_frag]; rfl), hset]
        refine ⟨s', hrun, ?_, by lia⟩
        cases recs <;> exact hreads
    · rw [if_neg hmore]
      rw [not_or, gt_iff_lt, Nat.not_lt, Nat.le_zero, Bool.not_eq_false] at hmore
      obtain ⟨hzero, hlast⟩ := hmore
      have hcur : cur = [] := List.length_eq_zero_iff.mp (ha.fbtbc.symm.trans hzero)
      have hmore : more = none := by
        rw [ha.last_frag] at hlast
        exact Option.isNone_iff_eq_none.mp hlast
      subst hcur hmore
      have hi := ha.input
      refine ⟨_, rfl, ?_, le_refl _⟩
      cases recs with
      | nil =>
        exact .past ⟨⟨by simpa [encodeMore] using hi.bytes, hi.finger_le, hi.size, hi.chunks⟩,
          hzero, rfl⟩
      | cons r recs =>
        have hat : At { s with last_frag := false } [] (some r) recs :=
          ⟨⟨by simpa [encodeMore] using hi.bytes, hi.finger_le, hi.size, hi.chunks⟩, hzero, rfl,
            fun q hq => ha.fits q (by simp [hq]),
            fun q hq => ha.fits q (by rw [← some.inj hq]; simp)⟩
        exact .inside hat

theorem Past.skiprecord (hp : Past s) (hfuel : work s < fuel) :
    ∃ s', xdrrec_skiprecord fuel s = some (false, s') ∧ Past s' ∧ work s' ≤ work s := by
  cases fuel with
  | zero => omega
  | succ fuel =>
    have hzero : ({ s with fbtbc := 0 } : In) = s := by rw [← hp.fbtbc]
    obtain ⟨s', hset, hp', hwork⟩ := hp.set_input_fragment hfuel
    rw [xdrrec_skiprecord, if_pos (Or.inr hp.last_frag), hp.fbtbc, skip_input_bytes, if_pos rfl]
    simp only [hzero]
    rw [if_pos hp.last_frag, hset]
    exact ⟨s', rfl, hp', hwork⟩

/-! ## Runs of the reader -/

/-- What a call returns to a reader of the records, and where it leaves it. -/
def answer : Get → Reader → Answer × Reader
  | .long, a => (.long ((a.get 4).1.map ntohl), (a.get 4).2)
  | .bytes len, a => (.bytes (a.get len).1, (a.get len).2)
  | .skiprecord, a => (.skiprecord a.skip.1, a.skip.2)

/-- What the calls return to a reader of the records. -/
def answers : List Get → Reader → List Answer
  | [], _ => []
  | g :: gs, a => (answer g a).1 :: answers gs (answer g a).2

variable {a : Reader}

/-- Bytes are what a reader of the records gets. -/
theorem Reads.getbytes (len : ℕ) (h : Reads a s) (hfuel : work s < fuel) :
    ∃ ok bytes s', xdrrec_getbytes fuel len s = some (ok, bytes, s') ∧
      (a.get len).1 = (if ok = true then some bytes else none) ∧ Reads (a.get len).2 s' ∧
      work s' ≤ work s := by
  cases h with
  | inside ha =>
    rename_i cur more recs
    obtain ⟨s', cur', more', hrun, hat, hbytes, hwork⟩ := ha.getbytes len hfuel
    refine ⟨_, _, s', hrun, ?_, ?_, hwork⟩
    · rw [Reader.get]
      by_cases hlen : len ≤ (cur ++ moreBytes more).length
      · rw [if_pos hlen, if_pos (decide_eq_true hlen)]
      · rw [if_neg hlen, if_neg (by simpa using hlen)]
    · have hreads := Reads.inside hat
      rw [hbytes] at hreads
      rw [Reader.get]
      by_cases hlen : len ≤ (cur ++ moreBytes more).length
      · rwa [if_pos hlen]
      · rw [drop_of_length_le (by omega)] at hreads
        rwa [if_neg hlen]
  | past hp =>
    obtain ⟨s', hrun, hp', hwork⟩ := hp.getbytes len hfuel
    refine ⟨_, _, s', hrun, ?_, ?_, hwork⟩
    · by_cases hlen : len = 0 <;> simp [Reader.get, hlen]
    · by_cases hlen : len = 0 <;> simpa [Reader.get, hlen] using Reads.past hp'

/-- A word is made of the next four bytes, on the fast path as on the other. -/
theorem Reads.getlong (h : Reads a s) (hfuel : work s < fuel) :
    ∃ s', xdrrec_getlong fuel s = some ((a.get 4).1.map ntohl, s') ∧ Reads (a.get 4).2 s' ∧
      work s' ≤ work s := by
  rw [xdrrec_getlong]
  by_cases hfast : s.fbtbc ≥ sizeofLong ∧ s.in_boundry - s.in_finger ≥ sizeofLong
  · rw [if_pos hfast]
    cases h with
    | past hp => exact absurd hfast.1 (by rw [hp.fbtbc, sizeofLong]; omega)
    | inside ha =>
      rename_i cur more recs
      have hcur : 4 ≤ cur.length := ha.fbtbc ▸ hfast.1
      obtain ⟨hload, hi⟩ := ha.input.step hfast.2
      have hat := ha.advance hcur hi rfl
      have hreads := Reads.inside hat
      have hget : Reader.get 4 (some (cur ++ moreBytes more, recs.map Rec.bytes)) =
          (some (cur.take 4), some (cur.drop 4 ++ moreBytes more, recs.map Rec.bytes)) := by
        rw [Reader.get, if_pos (by rw [length_append]; omega),
          take_append_of_le_length hcur, drop_append_of_le_length hcur]
      have htake : (cur ++ (encodeMore more ++ recs.flatMap encode)).take sizeofLong =
          cur.take 4 := take_append_of_le_length hcur
      rw [hget, hload, htake]
      refine ⟨_, rfl, hreads, ?_⟩
      show s.in_boundry - (s.in_finger + 4) + 2 * s.incoming.flatten.length ≤
        s.in_boundry - s.in_finger + 2 * s.incoming.flatten.length
      omega
  · obtain ⟨ok, bytes, s', hrun, hget, hreads, hwork⟩ := h.getbytes sizeofLong hfuel
    rw [if_neg hfast, hrun, map_some]
    rw [sizeofLong] at hget hreads
    refine ⟨s', ?_, hreads, hwork⟩
    rw [hget]
    cases ok <;> rfl

theorem Reads.skiprecord (h : Reads a s) (hfuel : work s < fuel) :
    ∃ s', xdrrec_skiprecord fuel s = some (a.skip.1, s') ∧ Reads a.skip.2 s' ∧
      work s' ≤ work s := by
  cases h with
  | inside ha =>
    rename_i cur more recs
    obtain ⟨s', hrun, hreads, hwork⟩ := ha.skiprecord hfuel
    refine ⟨s', ?_, hreads, hwork⟩
    cases recs <;> exact hrun
  | past hp =>
    obtain ⟨s', hrun, hp', hwork⟩ := hp.skiprecord hfuel
    exact ⟨s', hrun, .past hp', hwork⟩

/-- One call of the reader. -/
theorem Reads.get (g : Get) (h : Reads a s) (hfuel : work s < fuel) :
    ∃ s', Xdrrec.get fuel g s = some ((answer g a).1, s') ∧ Reads (answer g a).2 s' ∧
      work s' ≤ work s := by
  cases g with
  | long =>
    obtain ⟨s', hrun, hreads, hwork⟩ := h.getlong hfuel
    exact ⟨s', by rw [Xdrrec.get, hrun]; rfl, hreads, hwork⟩
  | bytes len =>
    obtain ⟨ok, bytes, s', hrun, hget, hreads, hwork⟩ := h.getbytes len hfuel
    exact ⟨s', by rw [Xdrrec.get, hrun, answer, hget]; rfl, hreads, hwork⟩
  | skiprecord =>
    obtain ⟨s', hrun, hreads, hwork⟩ := h.skiprecord hfuel
    exact ⟨s', by rw [Xdrrec.get, hrun]; rfl, hreads, hwork⟩

/-- **Any calls of the reader** return what they return to a reader of the records. -/
theorem Reads.getAll (gs : List Get) (h : Reads a s) (hfuel : work s < fuel) :
    Xdrrec.getAll fuel gs s = some (answers gs a) := by
  induction gs generalizing a s with
  | nil => rfl
  | cons g gs ih =>
    obtain ⟨s', hrun, hreads, hwork⟩ := h.get g hfuel
    rw [Xdrrec.getAll, hrun]
    simp only
    rw [ih hreads (by omega), answers, map_some]

end Xdrrec
