/-
# What a record stream has written

`Writes` ties the out-going bits of a record stream to the records they carry:
those `writeit` has taken, those that wait in the output buffer, the fragments
already sent of the current record and its bytes in the buffer.
-/
import SunOS.Rpc.XdrRec

namespace Xdrrec

open List
open Bytes RecordMark

/-- The records of `flushed` have been written, those of `buffered` wait behind one
another in the buffer; of the current record the fragments `opened` have been written,
and `cur` is in the buffer behind the header reserved for it. -/
structure Writes (s : Out) (flushed buffered : List Rec) (opened : List (List UInt8))
    (cur : List UInt8) : Prop where
  sent : s.sent = flushed.flatMap encode ++ encodeOpen opened
  waiting : load s.mem s.out_base (s.frag_header - s.out_base) = buffered.flatMap encode
  current : load s.mem (s.frag_header + 4) (s.out_finger - (s.frag_header + 4)) = cur
  base_le : s.out_base ≤ s.frag_header
  header_le : s.frag_header + 4 ≤ s.out_finger
  finger_le : s.out_finger ≤ s.out_boundry
  room : s.out_base + 8 ≤ s.out_boundry
  size : s.out_boundry - s.out_base < 2 ^ 31
  alone : opened ≠ [] → buffered = []
  fits : ∀ r ∈ flushed ++ buffered, r.Fits
  fits_opened : ∀ d ∈ opened, d.length < 2 ^ 31

variable {writeit : List UInt8 → List UInt8 → Bool} {s s' : Out} {flushed buffered : List Rec}
  {opened : List (List UInt8)} {cur : List UInt8}

/-! ## The buffer sizes -/

theorem fix_buf_sizeLoop_ge {s : ℕ} (h : 98 ≤ s) : 98 ≤ fix_buf_sizeLoop s := by
  induction s with
  | zero => omega
  | succ s ih =>
    rw [fix_buf_sizeLoop]
    by_cases hmod : (s + 1) % 4 ≠ 2
    · rw [if_pos hmod]
      exact ih (by omega)
    · rw [if_neg hmod]
      exact h

/-- A buffer has room for a header and some data. -/
theorem fix_buf_size_ge (s : ℕ) : 98 ≤ fix_buf_size s := by
  rw [fix_buf_size]
  by_cases h : s < 100
  · rw [if_pos h]
    omega
  · rw [if_neg h]
    exact fix_buf_sizeLoop_ge (by omega)

/-! ## Steps of the writer -/

namespace Writes

theorem length_cur (hw : Writes s flushed buffered opened cur) :
    cur.length = s.out_finger - (s.frag_header + 4) := by
  rw [← hw.current, length_load]

theorem cur_lt (hw : Writes s flushed buffered opened cur) : cur.length < 2 ^ 31 := by
  have h1 := hw.size
  have h2 := hw.finger_le
  have h3 := hw.base_le
  rw [hw.length_cur]
  omega

/-- Bytes copied to the finger join the current record. -/
theorem copy {l : List UInt8} (hw : Writes s flushed buffered opened cur)
    (hroom : s.out_finger + l.length ≤ s.out_boundry) :
    Writes { s with
      mem := store s.mem s.out_finger l
      out_finger := s.out_finger + l.length } flushed buffered opened (cur ++ l) where
  sent := hw.sent
  waiting := by
    have h1 := hw.base_le
    have h2 := hw.header_le
    show load (store s.mem s.out_finger l) s.out_base (s.frag_header - s.out_base) = _
    rw [load_store_of_disjoint (by lia), hw.waiting]
  current := by
    have h := hw.header_le
    have hsplit : s.out_finger + l.length - (s.frag_header + 4) =
        s.out_finger - (s.frag_header + 4) + l.length := by lia
    have hend : s.frag_header + 4 + (s.out_finger - (s.frag_header + 4)) = s.out_finger := by
      lia
    show load (store s.mem s.out_finger l) (s.frag_header + 4)
      (s.out_finger + l.length - (s.frag_header + 4)) = cur ++ l
    rw [hsplit, load_add, hend, load_store, load_store_of_disjoint (by lia), hw.current]
  base_le := hw.base_le
  header_le := le_trans hw.header_le (Nat.le_add_right _ _)
  finger_le := hroom
  room := hw.room
  size := hw.size
  alone := hw.alone
  fits := hw.fits
  fits_opened := hw.fits_opened

/-- The buffer once the header of the current fragment has been filled in. -/
theorem load_header (eor : Bool) (hw : Writes s flushed buffered opened cur) :
    load (store s.mem s.frag_header (htonl (header eor cur.length))) s.out_base
      (s.out_finger - s.out_base) = buffered.flatMap encode ++ frag eor cur := by
  have h1 := hw.base_le
  have h2 := hw.header_le
  have hlen : (htonl (header eor cur.length)).length = 4 := length_htonl _
  have hsplit : s.out_finger - s.out_base =
      s.frag_header - s.out_base + (4 + (s.out_finger - (s.frag_header + 4))) := by lia
  have hbase : s.out_base + (s.frag_header - s.out_base) = s.frag_header := by lia
  have hhead : load (store s.mem s.frag_header (htonl (header eor cur.length))) s.frag_header 4 =
      htonl (header eor cur.length) := by
    conv_lhs => rw [← hlen]
    exact load_store
  rw [hsplit, load_add, load_add, hbase, hhead, load_store_of_disjoint (by lia), hw.waiting,
    load_store_of_disjoint (by lia), hw.current, frag]

/-- `flush_out` in the middle of a record: what was in the buffer has been sent. -/
theorem flush (hw : Writes s flushed buffered opened cur)
    (h : flush_out writeit false s = (true, s')) :
    Writes s' (flushed ++ buffered) [] (opened ++ [cur]) [] ∧ s'.frag_sent = s.frag_sent ∧
      s'.out_finger < s'.out_boundry ∧ s'.out_finger + 4 ≤ s'.out_boundry := by
  have hroom := hw.room
  have hlen : s.out_finger - s.frag_header - sizeofLong = cur.length := by
    rw [hw.length_cur, Nat.sub_sub, sizeofLong]
  simp only [flush_out, hlen, hw.load_header] at h
  by_cases htake : writeit s.sent (buffered.flatMap encode ++ frag false cur) = true
  · rw [if_pos htake, Prod.mk.injEq] at h
    obtain ⟨-, rfl⟩ := h
    refine ⟨⟨?_, by simp, by simp [sizeofLong], le_refl _, by simp [sizeofLong], ?_, hroom,
      hw.size, by simp, by simpa using hw.fits, ?_⟩, rfl, ?_⟩
    · show s.sent ++ _ = _
      rw [hw.sent]
      by_cases hopen : opened = []
      · simp [hopen, encodeOpen]
      · simp [hw.alone hopen, encodeOpen]
    · show s.out_base + sizeofLong ≤ s.out_boundry
      rw [sizeofLong]
      omega
    · intro d hd
      rcases List.mem_append.mp hd with hd | hd
      · exact hw.fits_opened d hd
      · rw [List.mem_singleton.mp hd]
        exact hw.cur_lt
    · show s.out_base + sizeofLong < s.out_boundry ∧ s.out_base + sizeofLong + 4 ≤ s.out_boundry
      rw [sizeofLong]
      omega
  · rw [if_neg htake] at h
    exact absurd (congrArg Prod.fst h) (by simp)

/-- `flush_out` at the end of a record: all records have been sent. -/
theorem flush_eor (hw : Writes s flushed buffered opened cur)
    (h : flush_out writeit true s = (true, s')) :
    Writes s' (flushed ++ buffered ++ [(opened, cur)]) [] [] [] := by
  have hroom := hw.room
  have hlen : s.out_finger - s.frag_header - sizeofLong = cur.length := by
    rw [hw.length_cur, Nat.sub_sub, sizeofLong]
  simp only [flush_out, hlen, hw.load_header] at h
  by_cases htake : writeit s.sent (buffered.flatMap encode ++ frag true cur) = true
  · rw [if_pos htake, Prod.mk.injEq] at h
    obtain ⟨-, rfl⟩ := h
    refine ⟨?_, by simp, by simp [sizeofLong], le_refl _, by simp [sizeofLong], ?_, hroom,
      hw.size, by simp, ?_, by simp⟩
    · show s.sent ++ _ = _
      rw [hw.sent]
      by_cases hopen : opened = []
      · simp [hopen, encodeOpen, encode]
      · simp [hw.alone hopen, encodeOpen, encode]
    · show s.out_base + sizeofLong ≤ s.out_boundry
      rw [sizeofLong]
      omega
    · intro r hr
      rw [append_nil] at hr
      rcases List.mem_append.mp hr with hr | hr
      · exact hw.fits r hr
      · rw [List.mem_singleton.mp hr]
        exact ⟨hw.fits_opened, hw.cur_lt⟩
  · rw [if_neg htake] at h
    exact absurd (congrArg Prod.fst h) (by simp)

/-- The end of a record whose bytes stay in the buffer. -/
theorem close (hw : Writes s flushed buffered [] cur)
    (hroom : s.out_finger + 4 < s.out_boundry) :
    Writes { s with
      mem := store s.mem s.frag_header (htonl (header true cur.length))
      frag_header := s.out_finger
      out_finger := s.out_finger + 4 } flushed (buffered ++ [([], cur)]) [] [] where
  sent := hw.sent
  waiting := by
    rw [flatMap_append]
    simpa [encode, encodeOpen] using hw.load_header true
  current := by simp
  base_le := le_trans hw.base_le (le_trans (Nat.le_add_right _ _) hw.header_le)
  header_le := le_refl _
  finger_le := le_of_lt hroom
  room := hw.room
  size := hw.size
  alone := fun h => absurd rfl h
  fits := by
    intro r hr
    rw [← append_assoc] at hr
    rcases List.mem_append.mp hr with hr | hr
    · exact hw.fits r hr
    · rw [List.mem_singleton.mp hr]
      exact ⟨by simp, hw.cur_lt⟩
  fits_opened := by simp

end Writes

/-! ## The records written -/

/-- The records with the bytes `done` have been ended, at least `n` of them written, and
`dat` has been put on the stream since. -/
def Written (s : Out) (n : ℕ) (done : List (List UInt8)) (dat : List UInt8) : Prop :=
  ∃ flushed buffered opened cur, Writes s flushed buffered opened cur ∧
    (opened ≠ [] → s.frag_sent = true) ∧ (flushed ++ buffered).map Rec.bytes = done ∧
    opened.flatten ++ cur = dat ∧ n ≤ flushed.length

/-- The records with the bytes `done` have been ended, at least `n` of them written, and
nothing has been put on the stream since. -/
def Between (s : Out) (n : ℕ) (done : List (List UInt8)) : Prop :=
  ∃ flushed buffered, Writes s flushed buffered [] [] ∧
    (flushed ++ buffered).map Rec.bytes = done ∧ n ≤ flushed.length

variable {n : ℕ} {done : List (List UInt8)} {dat : List UInt8}

theorem Between.written (h : Between s n done) : Written s n done [] := by
  obtain ⟨flushed, buffered, hw, hdone, hn⟩ := h
  exact ⟨flushed, buffered, [], [], hw, by simp, hdone, rfl, hn⟩

namespace Written

/-- Bytes copied to the finger. -/
theorem copy {l : List UInt8} (h : Written s n done dat)
    (hroom : s.out_finger + l.length ≤ s.out_boundry) :
    Written { s with
      mem := store s.mem s.out_finger l
      out_finger := s.out_finger + l.length } n done (dat ++ l) := by
  obtain ⟨flushed, buffered, opened, cur, hw, hsent, hdone, hdat, hn⟩ := h
  refine ⟨flushed, buffered, opened, cur ++ l, hw.copy hroom, hsent, hdone, ?_, hn⟩
  rw [← hdat, append_assoc]

/-- A buffer sent in the middle of a record. -/
theorem flush (h : Written s n done dat)
    (hs : flush_out writeit false { s with frag_sent := true } = (true, s')) :
    Written s' n done dat ∧ s'.out_finger < s'.out_boundry ∧
      s'.out_finger + 4 ≤ s'.out_boundry := by
  obtain ⟨flushed, buffered, opened, cur, hw, hsent, hdone, hdat, hn⟩ := h
  have hw' : Writes { s with frag_sent := true } flushed buffered opened cur := ⟨hw.sent,
    hw.waiting, hw.current, hw.base_le, hw.header_le, hw.finger_le, hw.room, hw.size, hw.alone,
    hw.fits, hw.fits_opened⟩
  obtain ⟨hflush, hfrag, hroom⟩ := hw'.flush hs
  refine ⟨⟨_, _, _, _, hflush, fun _ => hfrag, by simpa using hdone, ?_, ?_⟩, hroom⟩
  · simpa using hdat
  · exact le_trans hn (by simp)

/-- **`xdrrec_putlong`** puts the four bytes of its word on the stream. -/
theorem putlong {lp : UInt32} (h : Written s n done dat)
    (hs : xdrrec_putlong writeit lp s = (true, s')) : Written s' n done (dat ++ htonl lp) := by
  rw [xdrrec_putlong] at hs
  by_cases hfull : s.out_finger + sizeofLong > s.out_boundry
  · rw [if_pos hfull] at hs
    rcases hflush : flush_out writeit false { s with frag_sent := true } with ⟨ok, t⟩
    rw [hflush] at hs
    cases ok with
    | false => exact absurd (congrArg Prod.fst hs) (by simp)
    | true =>
      obtain ⟨hw, -, hroom⟩ := h.flush hflush
      rw [← (Prod.mk.inj hs).2]
      exact hw.copy hroom
  · rw [if_neg hfull] at hs
    rw [← (Prod.mk.inj hs).2]
    exact h.copy (by rw [length_htonl]; rw [sizeofLong] at hfull; omega)

/-- **`xdrrec_putbytes`** ends, and puts its bytes on the stream. -/
theorem putbytes (writeit : List UInt8 → List UInt8 → Bool) (addr : List UInt8) {k : ℕ}
    (h : Written s n done dat) (hk : 2 * addr.length + 1 < k + if s.out_finger =
      s.out_boundry then 0 else 1) :
    ∃ ok s', xdrrec_putbytes writeit k addr s = some (ok, s') ∧
      (ok = true → Written s' n done (dat ++ addr)) := by
  induction k generalizing s addr dat with
  | zero => by_cases hs : s.out_finger = s.out_boundry <;> simp [hs] at hk
  | succ k ih =>
    rw [xdrrec_putbytes]
    by_cases hnil : addr = []
    · rw [if_pos hnil]
      exact ⟨true, s, rfl, fun _ => by rwa [hnil, append_nil]⟩
    · have hpos : 0 < addr.length := List.length_pos_iff.mpr hnil
      have hle : s.out_finger ≤ s.out_boundry := by
        obtain ⟨_, _, _, _, hw, _⟩ := h
        exact hw.finger_le
      rw [if_neg hnil]
      simp only
      generalize hcur : min addr.length (s.out_boundry - s.out_finger) = current
      have hlen : (addr.take current).length = current := by
        rw [length_take]
        lia
      have hcopy := h.copy (l := addr.take current) (by lia)
      rw [hlen] at hcopy
      by_cases hfull : s.out_finger + current = s.out_boundry
      · rw [if_pos hfull]
        rcases hflush : flush_out writeit false { s with
          mem := store s.mem s.out_finger (addr.take current)
          out_finger := s.out_finger + current
          frag_sent := true } with ⟨ok, t⟩
        cases ok with
        | false => exact ⟨false, t, rfl, by simp⟩
        | true =>
          obtain ⟨hw, hroom, -⟩ := hcopy.flush hflush
          obtain ⟨ok, s', hrun, hok⟩ := ih (addr.drop current) hw (by
            rw [if_neg (by lia), length_drop]
            by_cases hs : s.out_finger = s.out_boundry
            · rw [if_pos hs] at hk
              lia
            · rw [if_neg hs] at hk
              lia)
          exact ⟨ok, s', hrun, fun h => by simpa using hok h⟩
      · rw [if_neg hfull]
        obtain ⟨ok, s', hrun, hok⟩ := ih (addr.drop current) hcopy (by
          rw [if_neg hfull, length_drop]
          lia)
        exact ⟨ok, s', hrun, fun h => by simpa using hok h⟩

/-- **`xdrrec_endofrecord`** ends the record; sending now, it leaves nothing unwritten. -/
theorem endofrecord {sendnow : Bool} (h : Written s n done dat)
    (hs : xdrrec_endofrecord writeit sendnow s = (true, s')) :
    Between s' (if sendnow = true then done.length + 1 else n) (done ++ [dat]) := by
  obtain ⟨flushed, buffered, opened, cur, hw, hsent, hdone, hdat, hn⟩ := h
  rw [xdrrec_endofrecord] at hs
  by_cases hflush : sendnow = true ∨ s.frag_sent = true ∨
      s.out_finger + sizeofLong ≥ s.out_boundry
  · rw [if_pos hflush] at hs
    have hw' : Writes { s with frag_sent := false } flushed buffered opened cur := ⟨hw.sent,
      hw.waiting, hw.current, hw.base_le, hw.header_le, hw.finger_le, hw.room, hw.size, hw.alone,
      hw.fits, hw.fits_opened⟩
    refine ⟨_, _, hw'.flush_eor hs, ?_, ?_⟩
    · rw [append_nil, map_append, hdone, map_singleton, Rec.bytes, hdat]
    · have hlen : done.length = (flushed ++ buffered).length := by rw [← hdone, length_map]
      rw [length_append, length_singleton, ← hlen]
      rw [length_append] at hlen
      by_cases hnow : sendnow = true
      · rw [if_pos hnow]
      · rw [if_neg hnow]
        omega
  · rw [if_neg hflush] at hs
    have hroom : s.out_finger + 4 < s.out_boundry := by
      rw [sizeofLong] at hflush
      omega
    -- no buffer has been sent in the middle of the record
    have hopen : opened = [] := by
      by_contra hne
      exact hflush (Or.inr (Or.inl (hsent hne)))
    subst hopen
    have hlen : s.out_finger - s.frag_header - sizeofLong = cur.length := by
      rw [hw.length_cur, Nat.sub_sub, sizeofLong]
    rw [← (Prod.mk.inj hs).2, hlen]
    refine ⟨_, _, hw.close hroom, ?_, ?_⟩
    · rw [← append_assoc, map_append, hdone, map_singleton, Rec.bytes, hdat]
    · rw [if_neg fun h => hflush (Or.inl h)]
      exact hn

/-- One call that puts data on the stream. -/
theorem put {p : Put} {fuel : ℕ} (writeit : List UInt8 → List UInt8 → Bool)
    (h : Written s n done dat) (hfuel : 2 * p.data.length + 1 < fuel) :
    ∃ ok s', Xdrrec.put writeit fuel p s = some (ok, s') ∧
      (ok = true → Written s' n done (dat ++ p.data)) := by
  cases p with
  | long lp => exact ⟨_, _, rfl, fun hok => h.putlong (Prod.ext hok rfl)⟩
  | bytes addr => exact h.putbytes writeit addr (lt_of_lt_of_le hfuel (Nat.le_add_right _ _))

/-- The calls that put the data of a record. -/
theorem putAll {ps : List Put} {fuel : ℕ} (writeit : List UInt8 → List UInt8 → Bool)
    (h : Written s n done dat)
    (hfuel : ∀ p ∈ ps, 2 * p.data.length + 1 < fuel) :
    ∃ ok s', Xdrrec.putAll writeit fuel ps s = some (ok, s') ∧
      (ok = true → Written s' n done (dat ++ ps.flatMap Put.data)) := by
  induction ps generalizing s dat with
  | nil => exact ⟨true, s, rfl, fun _ => by simpa using h⟩
  | cons p ps ih =>
    obtain ⟨ok, t, hput, hok⟩ := h.put writeit (hfuel p (by simp))
    rw [Xdrrec.putAll, hput]
    cases ok with
    | false => exact ⟨false, t, rfl, by simp⟩
    | true =>
      obtain ⟨ok, s', hrun, hw⟩ := ih (hok rfl) fun q hq => hfuel q (by simp [hq])
      exact ⟨ok, s', hrun, fun h => by simpa using hw h⟩

end Written

/-- The bytes of each record. -/
def recordBytes (recs : List (List Put × Bool)) : List (List UInt8) :=
  recs.map fun r => r.1.flatMap Put.data

/-- Enough rounds for every call that writes the records. -/
def EnoughToWrite (fuel : ℕ) (recs : List (List Put × Bool)) : Prop :=
  ∀ r ∈ recs, ∀ p ∈ r.1, 2 * p.data.length + 1 < fuel

/-- **The records written.**  Writing ends; when no call has failed, every record is on
the stream or in the buffer, and none sent now is left in the buffer. -/
theorem Between.writeRecords {recs : List (List Put × Bool)} {fuel : ℕ}
    (writeit : List UInt8 → List UInt8 → Bool) (h : Between s n done)
    (hfuel : EnoughToWrite fuel recs) :
    ∃ ok s', Xdrrec.writeRecords writeit fuel recs s = some (ok, s') ∧
      (ok = true → ∃ m, n ≤ m ∧ Between s' m (done ++ recordBytes recs) ∧
        ∀ i, (hi : i < recs.length) → recs[i].2 = true → done.length + i < m) := by
  induction recs generalizing s n done with
  | nil => exact ⟨true, s, rfl, fun _ => ⟨n, le_refl _, by simpa [recordBytes] using h, by simp⟩⟩
  | cons r recs ih =>
    obtain ⟨ps, sendnow⟩ := r
    obtain ⟨ok, t, hput, hok⟩ := h.written.putAll writeit (hfuel (ps, sendnow) (by simp))
    rw [Xdrrec.writeRecords, hput]
    cases ok with
    | false => exact ⟨false, t, rfl, by simp⟩
    | true =>
      rcases hend : xdrrec_endofrecord writeit sendnow t with ⟨ok, u⟩
      simp only [hend]
      cases ok with
      | false => exact ⟨false, u, rfl, by simp⟩
      | true =>
        have hb := (hok rfl).endofrecord hend
        have hnow : n ≤ if sendnow = true then done.length + 1 else n := by
          by_cases hs : sendnow = true
          · obtain ⟨flushed, buffered, -, hdone, hn⟩ := h
            have hlen := congrArg List.length hdone
            rw [length_map, length_append] at hlen
            rw [if_pos hs]
            omega
          · rw [if_neg hs]
        obtain ⟨ok, s', hrun, hw⟩ := ih hb fun r hr => hfuel r (by simp [hr])
        refine ⟨ok, s', hrun, fun h => ?_⟩
        obtain ⟨m, hm, hbm, hsent⟩ := hw h
        refine ⟨m, le_trans hnow hm, by simpa [recordBytes] using hbm, ?_⟩
        intro i hi hi'
        cases i with
        | zero =>
          rw [if_pos (by simpa using hi')] at hm
          omega
        | succ i =>
          have hlt := hsent i (by simpa using hi) (by simpa using hi')
          rw [length_append, length_singleton] at hlt
          omega

end Xdrrec
