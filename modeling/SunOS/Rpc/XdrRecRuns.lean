/-
# Round trips over a record stream

What was written on one record stream is read back on another, however the two
buffer it and however the bytes arrive.
-/
import SunOS.Rpc.XdrRecRead
import SunOS.Rpc.XdrRecWrite
import Mathlib.Tactic.FinCases

namespace Xdrrec

open List
open Bytes RecordMark

variable {writeit : List UInt8 → List UInt8 → Bool}

/-! ## A connection that takes every write -/

section Accepting

variable (htakes : ∀ sent buf, writeit sent buf = true)

variable {fuel : ℕ} {ok : Bool} {s s' : Out}

include htakes

theorem flush_out_ok (eor : Bool) (s : Out) : (flush_out writeit eor s).1 = true := by
  simp [flush_out, htakes]

theorem putlong_ok (lp : UInt32) (s : Out) : (xdrrec_putlong writeit lp s).1 = true := by
  rw [xdrrec_putlong]
  by_cases hfull : s.out_finger + sizeofLong > s.out_boundry
  · have hflush := flush_out_ok htakes false { s with frag_sent := true }
    rw [if_pos hfull]
    split
    · next heq => exact absurd (heq ▸ hflush) (by simp)
    · rfl
  · rw [if_neg hfull]

theorem putbytes_ok {addr : List UInt8}
    (h : xdrrec_putbytes writeit fuel addr s = some (ok, s')) : ok = true := by
  induction fuel generalizing addr s with
  | zero => exact absurd h (by simp [xdrrec_putbytes])
  | succ fuel ih =>
    rw [xdrrec_putbytes] at h
    by_cases hnil : addr = []
    · rw [if_pos hnil] at h
      exact (Prod.mk.inj (Option.some.inj h)).1.symm
    · rw [if_neg hnil] at h
      simp only at h
      split at h
      · split at h
        · next heq => exact absurd (heq ▸ flush_out_ok htakes _ _) (by simp)
        · exact ih h
      · exact ih h

theorem putAll_ok {ps : List Put} (h : putAll writeit fuel ps s = some (ok, s')) : ok = true := by
  induction ps generalizing s with
  | nil => exact (Prod.mk.inj (Option.some.inj h)).1.symm
  | cons p ps ih =>
    rw [putAll] at h
    split at h
    · exact absurd h (by simp)
    · next heq =>
      cases p with
      | long lp => exact absurd (Option.some.inj heq ▸ putlong_ok htakes lp s) (by simp)
      | bytes addr => exact absurd (putbytes_ok htakes heq) (by simp)
    · exact ih h

/-- On a connection that takes every write no call fails. -/
theorem writeRecords_ok {recs : List (List Put × Bool)}
    (h : writeRecords writeit fuel recs s = some (ok, s')) : ok = true := by
  induction recs generalizing s with
  | nil => exact (Prod.mk.inj (Option.some.inj h)).1.symm
  | cons r recs ih =>
    rw [writeRecords] at h
    split at h
    · exact absurd h (by simp)
    · next heq => exact absurd (putAll_ok htakes heq) (by simp)
    · split at h
      · next heq =>
        rw [xdrrec_endofrecord] at heq
        split at heq
        · exact absurd (heq ▸ flush_out_ok htakes _ _) (by simp)
        · exact absurd (Prod.mk.inj heq).1 (by simp)
      · exact ih h

end Accepting

/-! ## New handles -/

variable {mem_alloc : ℕ → Option ℕ} {mem : ℕ → UInt8}

theorem between_create {sendsize : ℕ} {w : Out}
    (hmem : ∀ n base, mem_alloc n = some base → n < 2 ^ 31)
    (h : xdrrec_createOut mem_alloc mem sendsize = some w) : Between w 0 [] := by
  have hsize := fix_buf_size_ge sendsize
  obtain ⟨base, halloc, rfl⟩ := Option.map_eq_some_iff.mp h
  have hlt := hmem _ _ halloc
  refine ⟨[], [], ⟨rfl, ?_, ?_, le_refl _, le_refl _, ?_, ?_, ?_, by simp, by simp, by simp⟩, rfl,
    le_refl _⟩
  · simp
  · simp [sizeofLong]
  · show base + sizeofLong ≤ base + fix_buf_size sendsize
    rw [sizeofLong]
    omega
  · show base + 8 ≤ base + fix_buf_size sendsize
    omega
  · show base + fix_buf_size sendsize - base < 2 ^ 31
    omega

theorem reads_create {recvsize : ℕ} {r : In} {chunks : List (List UInt8)} {recs : List Rec}
    (hne : ∀ c ∈ chunks, c ≠ []) (hsplit : chunks.flatten = recs.flatMap encode)
    (hfits : ∀ r ∈ recs, r.Fits)
    (h : xdrrec_createIn mem_alloc mem chunks recvsize = some r) :
    Reads (.start (recs.map Rec.bytes)) r ∧ work r = 2 * chunks.flatten.length := by
  have hsize := fix_buf_size_ge recvsize
  obtain ⟨base, -, rfl⟩ := Option.map_eq_some_iff.mp h
  have hat : At ⟨chunks, mem, fix_buf_size recvsize, base, base + fix_buf_size recvsize,
      base + fix_buf_size recvsize, 0, true⟩ [] none recs :=
    ⟨⟨by simpa [encodeMore] using hsplit, le_refl _, show 2 ≤ fix_buf_size recvsize by omega, hne⟩,
      rfl, rfl, hfits, by simp⟩
  refine ⟨.inside hat, ?_⟩
  show base + fix_buf_size recvsize - (base + fix_buf_size recvsize) +
    2 * chunks.flatten.length = 2 * chunks.flatten.length
  omega

/-! ## The round trip -/

/-- The calls that get each of some records whole. -/
def readBack (recs : List (List UInt8)) : List Get :=
  recs.flatMap fun r => [.skiprecord, .bytes r.length]

/-- A reader that skips to every record before it reads it gets them all. -/
theorem answers_readBack (recs : List (List UInt8)) :
    answers (readBack recs) (.start recs) =
      recs.flatMap fun r => [.skiprecord true, .bytes (some r)] := by
  have hat : ∀ cur, cur = ([] : List UInt8) → answers (readBack recs) (some (cur, recs)) =
      recs.flatMap fun r => [.skiprecord true, .bytes (some r)] := by
    induction recs with
    | nil => exact fun _ _ => rfl
    | cons r recs ih =>
      intro cur _
      have hget : Reader.get r.length (some (r, recs)) = (some r, some ([], recs)) := by
        rw [Reader.get, if_pos (le_refl _), take_length, drop_length]
      simp only [readBack, flatMap_cons, cons_append, nil_append, answers, answer,
        Reader.skip, hget]
      exact congrArg _ (congrArg _ (ih [] rfl))
  exact hat [] rfl

/-- **Record streams round-trip.**  Writing ends.  When no call has failed, a prefix of the
records has been written that has every record sent now; a reader of the bytes written, in
whatever chunks they arrive, sees exactly these records: any calls return what they return
to a reader of the records, and a reader that skips to each record gets them all. -/
theorem records_round_trip (writeit : List UInt8 → List UInt8 → Bool) {sendsize fuel : ℕ}
    {recs : List (List Put × Bool)} {w : Out} (hmem : ∀ n base, mem_alloc n = some base →
      n < 2 ^ 31)
    (hcreate : xdrrec_createOut mem_alloc mem sendsize = some w)
    (hfuel : EnoughToWrite fuel recs) :
    ∃ ok w', writeRecords writeit fuel recs w = some (ok, w') ∧
      ((∀ sent buf, writeit sent buf = true) → ok = true) ∧
      (ok = true → ∃ k ≤ recs.length,
        (∀ i, (hi : i < recs.length) → recs[i].2 = true → i < k) ∧
        ∀ chunks : List (List UInt8), (∀ c ∈ chunks, c ≠ []) → chunks.flatten = w'.sent →
          ∀ mem recvsize r, xdrrec_createIn mem_alloc mem chunks recvsize = some r →
            ∀ fuel > 2 * w'.sent.length,
              (∀ gs, getAll fuel gs r =
                some (answers gs (.start ((recordBytes recs).take k)))) ∧
              getAll fuel (readBack ((recordBytes recs).take k)) r =
                some (((recordBytes recs).take k).flatMap
                  fun d => [.skiprecord true, .bytes (some d)])) := by
  obtain ⟨ok, w', hrun, hw⟩ := (between_create hmem hcreate).writeRecords writeit hfuel
  refine ⟨ok, w', hrun, fun htakes => writeRecords_ok htakes hrun, fun hok => ?_⟩
  obtain ⟨m, -, ⟨flushed, buffered, hwrites, hdone, hm⟩, hnow⟩ := hw hok
  have hlen := congrArg List.length hdone
  rw [nil_append, length_map, length_append, recordBytes, length_map] at hlen
  have hpre : (recordBytes recs).take flushed.length = flushed.map Rec.bytes := by
    rw [nil_append] at hdone
    rw [← hdone, map_append, take_append_of_le_length (by simp),
      take_of_length_le (by simp)]
  refine ⟨flushed.length, by omega, ?_, ?_⟩
  · intro i hi hsend
    have hlt := hnow i hi hsend
    omega
  · intro chunks hne hsplit mem recvsize r hr fuel hmore
    have hsent : chunks.flatten = flushed.flatMap encode := by
      rw [hsplit, hwrites.sent, encodeOpen, flatMap_nil, append_nil]
    obtain ⟨hreads, hwork⟩ := reads_create hne hsent
      (fun r hr => hwrites.fits r (mem_append_left _ hr)) hr
    rw [hsplit] at hwork
    have hall : ∀ gs, getAll fuel gs r =
        some (answers gs (.start ((recordBytes recs).take flushed.length))) := by
      intro gs
      rw [hpre]
      exact hreads.getAll gs (by omega)
    exact ⟨hall, by rw [hall, answers_readBack]⟩

/-- An allocator of buffers of the default size. -/
def alloc (n : ℕ) : Option ℕ := if n ≤ 4000 then some 1000 else none

theorem alloc_lt (n base : ℕ) (h : alloc n = some base) : n < 2 ^ 31 := by
  rw [alloc] at h
  split at h
  · omega
  · exact absurd h (by simp)

/-- Two records sent in one buffer and read in two chunks. -/
theorem records_round_trip_two : ∃ w w' r,
    xdrrec_createOut alloc (fun _ => 0) 0 = some w ∧
      writeRecords (fun _ _ => true) 10 [([.long 7, .bytes [1, 2, 3]], false),
        ([.long 9], true)] w =
        some (true, w') ∧
      xdrrec_createIn alloc (fun _ => 0) [w'.sent.take 6, w'.sent.drop 6] 0 = some r ∧
      getAll 60 [.skiprecord, .long, .long, .skiprecord, .long] r =
        some [.skiprecord true, .long (some 7), .long none, .skiprecord true, .long (some 9)] := by
  have hw : xdrrec_createOut alloc (fun _ => 0) 0 =
      some ⟨[], fun _ => 0, 1000, 1004, 4998, 1000, false⟩ := rfl
  have henough : EnoughToWrite 10
      [([.long 7, .bytes [1, 2, 3]], false), ([.long 9], true)] := by
    intro r hr p hp
    fin_cases hr <;> fin_cases hp <;> decide
  obtain ⟨ok, w', hrun, hok, hround⟩ := records_round_trip (fun _ _ => true) alloc_lt hw
    henough
  obtain rfl := hok fun _ _ => rfl
  obtain ⟨k, hk, hnow, hread⟩ := hround rfl
  obtain rfl : k = 2 := le_antisymm hk (hnow 1 (by decide) rfl)
  have hsent : w'.sent = [128, 0, 0, 7, 0, 0, 0, 7, 1, 2, 3, 128, 0, 0, 4, 0, 0, 0, 9] := by
    rw [← (Prod.mk.inj (Option.some.inj hrun)).2]
    decide +kernel
  obtain ⟨hall, -⟩ := hread [w'.sent.take 6, w'.sent.drop 6] (by rw [hsent]; decide) (by simp)
    (fun _ => 0) 0 _ rfl 60 (by rw [hsent]; decide)
  exact ⟨_, w', _, hw, hrun, rfl, (hall _).trans (by decide +kernel)⟩

/-- A record that is not sent now is not on the stream: the reader does not get it. -/
theorem record_not_sent : ∃ w w' r,
    xdrrec_createOut alloc (fun _ => 0) 0 = some w ∧
      writeRecords (fun _ _ => true) 10 [([.long 7], false)] w = some (true, w') ∧
      xdrrec_createIn alloc (fun _ => 0) [] 0 = some r ∧
      ([] : List (List UInt8)).flatten = w'.sent ∧
      getAll 10 [.skiprecord, .long] r = some [.skiprecord true, .long none] :=
  ⟨_, _, _, rfl, rfl, rfl, rfl, by decide +kernel⟩

end Xdrrec
