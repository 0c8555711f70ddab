/-
# Which bytes of a segment go on (`tcp_input`, `netinet/tcp_input.c`)

Behind the headers the chain holds the bytes of the segment, however they are divided into mbufs.
Leading bytes are dropped as they should be.  Trailing ones are, unless bytes lie behind an empty
mbuf, other than the first of the chain; and they are dropped at all, unless the segment ends so
far behind the window that the difference is negative as an `int`.
-/
import SunOS.Netinet.TcpInput

namespace Tcp

open Option (some.inj)
open List
open Mbuf

/-! ## Headers -/

variable {l : List UInt8}

theorem contents_cutout {i n : ℕ} {m : mbuf} (mp : List mbuf) (h : i + n ≤ m.dat.length) :
    contents (cutout i n (m :: mp)) =
      (contents (m :: mp)).take i ++ (contents (m :: mp)).drop (i + n) := by
  rw [cutout, contents_cons, contents_cons, take_append_of_le_length (by omega),
    drop_append_of_le_length h, append_assoc]

theorem byteAt_cut {i k : ℕ} (h : i ≤ l.length) (j : ℕ) :
    byteAt (l.take i ++ l.drop k) (i + j) = byteAt l (k + j) := by
  rw [byteAt, byteAt, List.getD_eq_getElem?_getD, List.getD_eq_getElem?_getD,
    List.getElem?_append_right (by rw [length_take]; omega), length_take,
    List.getElem?_drop]
  congr 3
  omega

theorem pullup_spec {need : mbuf → Bool} {free free' : List ℕ} {mp r : List mbuf} {len : ℕ}
    (h : pullup need free mp len = some (r, free')) (hneed : ∀ m, need m = false →
      len ≤ m.dat.length) :
    ∃ m ms, r = m :: ms ∧ contents r = contents mp ∧ len ≤ m.dat.length := by
  cases mp with
  | nil => cases h
  | cons m mp =>
    rw [pullup] at h
    by_cases hm : need m = true
    · rw [if_pos hm] at h
      exact m_pullup_spec h
    · rw [if_neg hm] at h
      obtain ⟨rfl, -⟩ := Prod.mk.inj (some.inj h)
      exact ⟨m, mp, rfl, rfl, hneed m (by simpa using hm)⟩

theorem contents_dropheaders {m : mbuf} (mp : List mbuf) (h : sizeofTcpiphdr ≤ m.dat.length) :
    contents (dropheaders (m :: mp)) = (contents (m :: mp)).drop sizeofTcpiphdr := by
  rw [dropheaders, contents_cons, contents_cons, drop_append_of_le_length h]
  rfl

/-- A packet as IP hands it up: its header is in the first mbuf, and `ip_len` is the number of
bytes behind it. -/
structure FromIp (ip_len : ℤ) (mp : List mbuf) : Prop where
  hlen : sizeofIp ≤ ip_hl (contents mp)
  first : ∀ m ∈ mp.head?, ip_hl (contents mp) ≤ m.dat.length
  length : ((contents mp).length : ℤ) = ip_hl (contents mp) + ip_len
  short : 0 ≤ ip_len ∧ ip_len ≤ 32767

/-- The bytes of a segment. -/
def segment (mp : List mbuf) : List UInt8 :=
  (contents mp).drop (ip_hl (contents mp) + ti_off (contents mp) (ip_hl (contents mp)))

/-- Its sequence number and its flags. -/
def seqOf (mp : List mbuf) : ℤ := ntohl (contents mp) (ip_hl (contents mp) + 4)

def flagsOf (mp : List mbuf) : BitVec 8 :=
  BitVec.ofNat 8 (byteAt (contents mp) (ip_hl (contents mp) + 13))

/-- **The headers are taken off** as they should be. -/
theorem headers_spec {ip_len : ℤ} {free : List ℕ} {mp : List mbuf} {ti : incoming}
    (hip : FromIp ip_len mp) (h : headers ip_len free mp = some ti) :
    contents ti.m = segment mp ∧ ti.ti_len = (segment mp).length ∧ ti.ti_seq = seqOf mp ∧
      ti.tiflags = flagsOf mp := by
  have hlen := hip.hlen
  have hlength := hip.length
  have hshort := hip.short
  -- without the options of IP
  obtain ⟨mp1, hmp1⟩ : ∃ mp1, mp1 =
      if ip_hl (contents mp) > sizeofIp then ip_stripoptions mp else mp := ⟨_, rfl⟩
  have hcut : contents mp1 =
      (contents mp).take sizeofIp ++ (contents mp).drop (ip_hl (contents mp)) := by
    by_cases hopt : ip_hl (contents mp) > sizeofIp
    · rw [hmp1, if_pos hopt, ip_stripoptions]
      cases hmp : mp with
      | nil =>
        rw [hmp] at hopt
        simp [ip_hl, byteAt, sizeofIp] at hopt
      | cons m ms =>
        have hfirst := hip.first m (by rw [hmp]; rfl)
        rw [← hmp]
        rw [hmp] at hfirst hopt ⊢
        rw [contents_cutout ms (by lia), show sizeofIp + (ip_hl (contents (m :: ms)) - sizeofIp) =
          ip_hl (contents (m :: ms)) by lia]
    · rw [hmp1, if_neg hopt, show ip_hl (contents mp) = sizeofIp by lia, take_append_drop]
  have hbyte : ∀ j, byteAt (contents mp1) (sizeofIp + j) =
      byteAt (contents mp) (ip_hl (contents mp) + j) := fun j => by
    rw [hcut, byteAt_cut (by lia)]
  have hoff : ti_off (contents mp1) sizeofIp = ti_off (contents mp) (ip_hl (contents mp)) := by
    rw [ti_off, ti_off, hbyte]
  have hdrop : ∀ j, (contents mp1).drop (sizeofIp + j) =
      (contents mp).drop (ip_hl (contents mp) + j) := fun j => by
    rw [hcut, drop_append, drop_of_length_le (by rw [length_take]; lia),
      nil_append, drop_drop, length_take]
    congr 1
    lia
  have hlength1 : ((contents mp1).length : ℤ) = sizeofIp + ip_len := by
    rw [hcut, length_append, length_take, length_drop]
    lia
  have hhdr : ∀ len m, (tcphdr (contents mp1) len m).ti_seq = seqOf mp ∧
      (tcphdr (contents mp1) len m).tiflags = flagsOf mp := fun len m => by
    refine ⟨?_, ?_⟩
    · show ntohl (contents mp1) (sizeofIp + 4) = _
      simp only [ntohl, ntohs, seqOf, Nat.add_assoc, hbyte]
    · show BitVec.ofNat 8 (byteAt (contents mp1) (sizeofIp + 13)) = _
      rw [hbyte, flagsOf]
  unfold headers at h
  rw [← hmp1] at h
  dsimp only at h
  cases hpull : pullup (fun m => m.m_off > MMAXOFF || m.dat.length < sizeofTcpiphdr) free mp1
      sizeofTcpiphdr with
  | none =>
    rw [hpull] at h
    cases h
  | some r =>
    obtain ⟨mp2, free2⟩ := r
    obtain ⟨m2, ms2, rfl, hbytes2, hhas2⟩ := pullup_spec hpull fun m hm => by
      simp at hm
      exact hm.2
    rw [hpull] at h
    simp only [Option.bind_eq_bind, Option.bind_some, hbytes2] at h
    split at h
    · cases h
    rename_i hok
    rw [not_or, not_lt, not_lt] at hok
    have hseg : segment mp = (contents mp1).drop (sizeofIp + ti_off (contents mp1) sizeofIp) := by
      rw [segment, ← hoff, hdrop]
    have hsegl : ((segment mp).length : ℤ) = ip_len - ti_off (contents mp1) sizeofIp := by
      rw [hseg, length_drop]
      lia
    split at h
    · rename_i hopt
      cases hpull' : pullup (fun m =>
        m.dat.length < sizeofIp + ti_off (contents mp1) sizeofIp) free2
          (m2 :: ms2) (sizeofIp + ti_off (contents mp1) sizeofIp) with
      | none =>
        rw [hpull'] at h
        cases h
      | some r =>
        obtain ⟨mp3, free3⟩ := r
        obtain ⟨m3, ms3, rfl, hbytes3, hhas3⟩ := pullup_spec hpull' fun m hm => by simpa using hm
        rw [hpull'] at h
        cases free3 with
        | nil => cases h
        | cons a free3 =>
          obtain rfl := some.inj h
          rw [hbytes3, hbytes2]
          refine ⟨?_, hsegl.symm, (hhdr _ _).1, (hhdr _ _).2⟩
          show contents (dropheaders (cutout sizeofTcpiphdr _ (m3 :: ms3))) = _
          have hsize : sizeofTcpiphdr = sizeofIp + sizeofTcphdr := rfl
          have hcut3 := contents_cutout (i := sizeofTcpiphdr)
            (n := ti_off (contents mp1) sizeofIp - sizeofTcphdr) (m := m3) ms3 (by lia)
          rw [cutout] at hcut3 ⊢
          rw [contents_dropheaders _ (by
            simp only [length_append, length_take, length_drop]
            lia), hcut3, hbytes3, hbytes2, List.drop_left' (by
              rw [length_take]
              lia), hseg]
          congr 1
          lia
    · rename_i hopt
      obtain rfl := some.inj h
      rw [show ti_off (contents mp1) sizeofIp = sizeofTcphdr by lia] at hseg hsegl ⊢
      refine ⟨?_, hsegl.symm, (hhdr _ _).1, (hhdr _ _).2⟩
      show contents (dropheaders (m2 :: ms2)) = _
      rw [contents_dropheaders ms2 hhas2, hbytes2, hseg]
      rfl

/-! ## Trailing data -/

/-- The mbufs that `m_adj` walks: the first one is skipped when it is empty. -/
def walked : List mbuf → List mbuf
  | [] => []
  | m :: mp => if m.dat = [] then mp else m :: mp

theorem contents_walked (mp : List mbuf) : contents (walked mp) = contents mp := by
  cases mp with
  | nil => rfl
  | cons m mp =>
    rw [walked]
    by_cases h : m.dat = []
    · rw [if_pos h, contents_cons, h, nil_append]
    · rw [if_neg h]

theorem contents_trimback (mp : List mbuf) (todrop : ℤ) :
    contents (trimback mp todrop) = contents (m_adj (walked mp) (-todrop)) := by
  cases mp with
  | nil => rw [trimback, walked, m_adj]; split <;> cases (-todrop).toNat <;> rfl
  | cons m mp =>
    have hlen : m.m_len ≠ 0 ↔ m.dat ≠ [] := by simp [mbuf.m_len]
    rw [trimback, walked]
    by_cases h : m.dat = []
    · rw [if_pos h, if_neg (fun hne => hlen.mp hne h), contents_cons, h, nil_append]
    · rw [if_neg h, if_pos (hlen.mpr h)]

/-- When the last `todrop` bytes are dropped. -/
theorem trimback_iff (mp : List mbuf) {todrop : ℤ} (h : 0 ≤ todrop)
    (hle : todrop ≤ (contents mp).length) :
    contents (trimback mp todrop) = (contents mp).take ((contents mp).length - todrop).toNat ↔
      Reaches (walked mp) todrop.toNat := by
  rw [← contents_m_adj_neg_iff, contents_trimback, contents_walked, Int.toNat_of_nonneg h]
  rw [show ((contents mp).length - todrop).toNat = (contents mp).length - todrop.toNat by omega]

/-! ## Flags -/

theorem has_and {x k : BitVec 8} (m : BitVec 8) (h : has x k = false) :
    has (x &&& m) k = false := by
  rw [has, decide_eq_false_iff_not, not_not] at h ⊢
  rw [BitVec.and_assoc, BitVec.and_comm m k, ← BitVec.and_assoc, h]
  exact BitVec.zero_and

theorem has_clear (x k : BitVec 8) : has (x &&& ~~~k) k = false := by
  rw [has, decide_eq_false_iff_not, not_not, BitVec.and_assoc]
  ext i hi
  simp

theorem has_and_of_disjoint {m k : BitVec 8} (x : BitVec 8) (h : m &&& k = k) :
    has (x &&& m) k = has x k := by
  rw [has, has, BitVec.and_assoc, h]

/-! ## The window -/

variable {ti ti' : incoming} {rcv_nxt rcv_wnd : ℤ}

/-- 1 for a SYN, which has the sequence number in front of the first byte. -/
def synlen (ti : incoming) : ℤ := if has ti.tiflags TH_SYN then 1 else 0

/-- The bytes of a segment in front of `rcv_nxt`. -/
def leading (rcv_nxt : ℤ) (ti : incoming) : ℤ :=
  max 0 (int32 (rcv_nxt - ti.ti_seq) - synlen ti)

/-- How far a segment goes beyond the window, as an `int`. -/
def trailing (rcv_nxt rcv_wnd : ℤ) (ti : incoming) : ℤ :=
  int32 (ti.ti_seq + synlen ti + ti.ti_len - (rcv_nxt + rcv_wnd))

/-- The bytes that go on are the right ones: `l` are those of the segment, from the sequence
number `first` on. -/
structure Right (l : List UInt8) (first rcv_nxt rcv_wnd : ℤ) (ti : incoming) : Prop where
  length : ((contents ti.m).length : ℤ) = ti.ti_len
  bytes : contents ti.m = (l.drop (uint32 (ti.ti_seq - first)).toNat).take ti.ti_len.toNat
  window : ∀ i : ℕ, i < ti.ti_len → uint32 (ti.ti_seq + i - rcv_nxt) < rcv_wnd

/-- What `trimleading` leaves. -/
inductive Led (rcv_nxt : ℤ) (ti : incoming) : incoming → Prop
  | behind (h : int32 (rcv_nxt - ti.ti_seq) ≤ 0) : Led rcv_nxt ti ti
  | before {ti' : incoming} (h : 0 < int32 (rcv_nxt - ti.ti_seq)) (seq : ti'.ti_seq = rcv_nxt)
      (len : ti'.ti_len = ti.ti_len - leading rcv_nxt ti) (le : leading rcv_nxt ti ≤ ti.ti_len)
      (m : ti'.m = m_adj ti.m (leading rcv_nxt ti)) (syn : has ti'.tiflags TH_SYN = false) :
      Led rcv_nxt ti ti'

/-- A segment without its SYN. -/
theorem dropsyn_spec (ti : incoming) :
    (dropsyn ti).ti_len = ti.ti_len ∧ (dropsyn ti).m = ti.m ∧
      has (dropsyn ti).tiflags TH_SYN = false ∧
      uint32 (dropsyn ti).ti_seq = uint32 (ti.ti_seq + synlen ti) := by
  rw [dropsyn, synlen]
  by_cases hsyn : has ti.tiflags TH_SYN = true
  · rw [if_pos hsyn, if_pos hsyn]
    refine ⟨rfl, rfl, ?_, ?_⟩
    · have hclear := has_clear ti.tiflags TH_SYN
      show has (if ti.ti_urp > 1 then ti.tiflags &&& ~~~TH_SYN
        else ti.tiflags &&& ~~~TH_SYN &&& ~~~TH_URG) TH_SYN = false
      split
      · exact hclear
      · exact has_and _ hclear
    · show uint32 (uint32 (ti.ti_seq + 1)) = _
      unfold uint32
      omega
  · rw [if_neg hsyn, if_neg hsyn, add_zero]
    exact ⟨rfl, rfl, by simpa using hsyn, rfl⟩

theorem trimleading_spec {rcv_nxt : ℤ} (hnxt : UFits rcv_nxt)
    (h : trimleading rcv_nxt ti = some ti') : Led rcv_nxt ti ti' := by
  rw [trimleading] at h
  by_cases hpos : int32 (rcv_nxt - ti.ti_seq) > 0
  · obtain ⟨hlen, hm, hflag, hseq⟩ := dropsyn_spec ti
    have hdrop : (if has ti.tiflags TH_SYN = true then int32 (rcv_nxt - ti.ti_seq) - 1
        else int32 (rcv_nxt - ti.ti_seq)) = leading rcv_nxt ti := by
      rw [leading, synlen]
      split <;> lia
    have hlead : leading rcv_nxt ti = int32 (rcv_nxt - ti.ti_seq) - synlen ti := by
      rw [leading, synlen]
      split <;> lia
    simp only [if_pos hpos, hdrop] at h
    split at h
    · cases h
    rename_i hok
    rw [not_or, not_lt, hlen] at hok
    obtain rfl := some.inj h
    refine .before hpos ?_ ?_ hok.1 ?_ ?_
    · show uint32 ((dropsyn ti).ti_seq + leading rcv_nxt ti) = rcv_nxt
      rw [← uint32_uint32_add, hseq, uint32_uint32_add, hlead]
      rw [ufits_iff] at hnxt
      unfold uint32 int32
      lia
    · show (dropsyn ti).ti_len - leading rcv_nxt ti = _
      rw [hlen]
    · show m_adj (dropsyn ti).m (leading rcv_nxt ti) = _
      rw [hm]
    · show has (if (dropsyn ti).ti_urp > leading rcv_nxt ti then (dropsyn ti).tiflags
        else (dropsyn ti).tiflags &&& ~~~TH_URG) TH_SYN = false
      split
      · exact hflag
      · exact has_and _ hflag
  · simp only [if_neg hpos] at h
    obtain rfl := some.inj h
    exact .behind (not_lt.mp hpos)

/-- What `trimtrailing` leaves; `todrop` bytes are too many. -/
inductive Trailed (todrop : ℤ) (ti : incoming) : incoming → Prop
  | within (h : todrop ≤ 0) : Trailed todrop ti ti
  | beyond {ti' : incoming} (h : 0 < todrop) (lt : todrop < ti.ti_len)
    (seq : ti'.ti_seq = ti.ti_seq)
    (len : ti'.ti_len = ti.ti_len - todrop) (m : ti'.m = trimback ti.m todrop)
    (syn : has ti'.tiflags TH_SYN = has ti.tiflags TH_SYN) : Trailed todrop ti ti'

theorem trimtrailing_spec (h : trimtrailing rcv_nxt rcv_wnd ti = some ti') :
    Trailed (int32 (ti.ti_seq + ti.ti_len - (rcv_nxt + rcv_wnd))) ti ti' := by
  rw [trimtrailing] at h
  generalize int32 (ti.ti_seq + ti.ti_len - (rcv_nxt + rcv_wnd)) = todrop at h
  by_cases hpos : todrop > 0
  · simp only [if_pos hpos] at h
    by_cases hge : todrop ≥ ti.ti_len
    · rw [if_pos hge] at h
      cases h
    · rw [if_neg hge] at h
      obtain rfl := some.inj h
      exact .beyond hpos (not_le.mp hge) rfl rfl rfl (has_and_of_disjoint _ (by decide))
  · simp only [if_neg hpos] at h
    obtain rfl := some.inj h
    exact .within (not_lt.mp hpos)

/-! ## What goes on -/

theorem m_adj_zero (mp : List mbuf) : m_adj mp 0 = mp := by
  cases mp <;> rfl

/-- Sequence numbers in the window follow one another. -/
theorem window_of_le {seq rcv_nxt rcv_wnd : ℤ} {n : ℤ}
    (h : uint32 (seq - rcv_nxt) + n ≤ rcv_wnd) (i : ℕ) (hi : (i : ℤ) < n) :
    uint32 (seq + i - rcv_nxt) < rcv_wnd := by
  unfold uint32 at *
  omega

/-- The trailing bytes of those from `d` on are dropped as they should be. -/
theorem right_trailed {first rcv_nxt rcv_wnd todrop : ℤ} {d : ℕ}
    (hd : (uint32 (ti.ti_seq - first)).toNat = d)
    (hm : contents ti.m = l.drop d) (hlen : ti.ti_len = (l.drop d).length)
    (h : Trailed todrop ti ti')
    (hin : ti.ti_len = 0 ∨ uint32 (ti.ti_seq - rcv_nxt) + (ti.ti_len - max 0 todrop) ≤ rcv_wnd) :
    Right l first rcv_nxt rcv_wnd ti' ↔ (0 < todrop → Reaches (walked ti.m) todrop.toNat) := by
  cases h with
  | within hle =>
    refine iff_of_true ⟨?_, ?_, fun i hi => ?_⟩ fun hpos => absurd hle (not_le.mpr hpos)
    · rw [hm, hlen]
    · rw [hd, hm, take_of_length_le (by lia)]
    · exact window_of_le (n := ti.ti_len) (by lia) i hi
  | beyond hpos hlt hseq hlen' hm' _ =>
    have hlength : ((contents ti.m).length : ℤ) = ti.ti_len := by rw [hm, hlen]
    have htrim := trimback_iff ti.m (le_of_lt hpos) (by lia)
    rw [← hm', hlength, ← hlen', hm] at htrim
    constructor
    · intro hright _
      refine htrim.mp ?_
      rw [hright.bytes, hseq, hd]
    · intro hreach
      have hbytes := htrim.mpr (hreach hpos)
      refine ⟨?_, ?_, fun i hi => ?_⟩
      · rw [hbytes, length_take]
        lia
      · rw [hbytes, hseq, hd]
      · rw [hseq]
        exact window_of_le (n := ti'.ti_len) (by lia) i hi

/-- **When trimming is right**: in the states before a connection the trailing bytes can be
dropped; later this is so of what is behind the leading bytes, and the segment does not end more
than 2^31 behind the window. -/
def Trimmable (tp : tcpcb) (ti : incoming) : Prop :=
  if tp.t_state = .LISTEN ∨ tp.t_state = .SYN_SENT then
    0 < ti.ti_len - tp.rcv_wnd → Reaches (walked ti.m) (ti.ti_len - tp.rcv_wnd).toNat
  else
    tp.rcv_wnd = 0 ∨
      (0 < trailing tp.rcv_nxt tp.rcv_wnd ti →
        Reaches (walked (m_adj ti.m (leading tp.rcv_nxt ti)))
          (trailing tp.rcv_nxt tp.rcv_wnd ti).toNat) ∧
      (int32 (tp.rcv_nxt - ti.ti_seq) ≤ 0 →
        uint32 (ti.ti_seq - tp.rcv_nxt) + ti.ti_len - tp.rcv_wnd < 2147483648)

instance (tp : tcpcb) (ti : incoming) : Decidable (Trimmable tp ti) := by
  unfold Trimmable
  infer_instance

/-- The states before a connection: the data follow the SYN. -/
theorem right_trimthenstep6 {rcv_wnd : ℤ} {ti : incoming} (hwnd : 0 ≤ rcv_wnd ∧ rcv_wnd ≤ 65535)
    (hlen : ti.ti_len = (contents ti.m).length) :
    Right (contents ti.m) (uint32 (ti.ti_seq + 1)) (uint32 (ti.ti_seq + 1)) rcv_wnd
        (trimthenstep6 rcv_wnd ti) ↔
      (0 < ti.ti_len - rcv_wnd → Reaches (walked ti.m) (ti.ti_len - rcv_wnd).toNat) := by
  have hself : uint32 (uint32 (ti.ti_seq + 1) - uint32 (ti.ti_seq + 1)) = 0 := by
    rw [sub_self]
    rfl
  by_cases hgt : ti.ti_len > rcv_wnd
  · have hstep : trimthenstep6 rcv_wnd ti = { ti with
        ti_seq := uint32 (ti.ti_seq + 1)
        m := trimback ti.m (ti.ti_len - rcv_wnd)
        ti_len := rcv_wnd
        tiflags := ti.tiflags &&& ~~~TH_FIN } := by
      simp only [trimthenstep6, if_pos hgt]
    have hpos : 0 ≤ ti.ti_len - rcv_wnd := by lia
    have htrim := trimback_iff ti.m hpos (by lia)
    rw [show ((contents ti.m).length - (ti.ti_len - rcv_wnd) : ℤ) = rcv_wnd by lia] at htrim
    rw [hstep]
    constructor
    · intro hright _
      refine htrim.mp ?_
      have hbytes := hright.bytes
      simp only [hself] at hbytes
      exact hbytes
    · intro hreach
      have hbytes := htrim.mpr (hreach (by lia))
      refine ⟨?_, ?_, fun i hi => window_of_le (n := rcv_wnd) ?_ i hi⟩
      · show ((contents (trimback ti.m (ti.ti_len - rcv_wnd))).length : ℤ) = rcv_wnd
        rw [hbytes, length_take]
        lia
      · simp only [hself]
        exact hbytes
      · rw [hself, zero_add]
  · have hstep : trimthenstep6 rcv_wnd ti = { ti with ti_seq := uint32 (ti.ti_seq + 1) } := by
      simp only [trimthenstep6, if_neg hgt]
    rw [hstep]
    refine iff_of_true ⟨hlen.symm, ?_, fun i hi => window_of_le (n := ti.ti_len) ?_ i hi⟩
      fun hpos => absurd hpos (by lia)
    · simp only [hself]
      rw [Int.toNat_zero, drop_zero, take_of_length_le (by lia)]
    · rw [hself, zero_add]
      lia

/-- Once there is a connection: the bytes of a segment that is not dropped follow its SYN, if that
was in front of the window. -/
theorem right_trimwindow (hnxt : UFits rcv_nxt)
    (hwnd : 0 ≤ rcv_wnd ∧ rcv_wnd ≤ 65535) (hlen : ti.ti_len = (contents ti.m).length)
    (hshort : ti.ti_len ≤ 32767) (h : trimwindow rcv_nxt rcv_wnd ti = some ti')
    (hsyn : has ti'.tiflags TH_SYN = false) :
    Right (contents ti.m) (uint32 (ti.ti_seq + synlen ti)) rcv_nxt rcv_wnd ti' ↔
      rcv_wnd = 0 ∨
        (0 < trailing rcv_nxt rcv_wnd ti →
          Reaches (walked (m_adj ti.m (leading rcv_nxt ti))) (trailing rcv_nxt rcv_wnd ti).toNat) ∧
        (int32 (rcv_nxt - ti.ti_seq) ≤ 0 →
          uint32 (ti.ti_seq - rcv_nxt) + ti.ti_len - rcv_wnd < 2147483648) := by
  rw [trimwindow] at h
  by_cases hzero : rcv_wnd = 0
  · -- the window is closed
    rw [if_pos hzero] at h
    refine iff_of_true ?_ (Or.inl hzero)
    by_cases hne : rcv_nxt ≠ ti.ti_seq
    · rw [if_pos hne] at h
      cases h
    rw [if_neg hne] at h
    have hempty : ti'.ti_len = 0 ∧ contents ti'.m = [] := by
      by_cases hpos : ti.ti_len > 0
      · rw [if_pos hpos] at h
        obtain rfl := some.inj h
        refine ⟨rfl, ?_⟩
        show contents (m_adj ti.m ti.ti_len) = []
        rw [contents_m_adj (le_of_lt hpos), drop_of_length_le (by lia)]
      · rw [if_neg hpos] at h
        obtain rfl := some.inj h
        exact ⟨by lia, eq_nil_of_length_eq_zero (by lia)⟩
    refine ⟨?_, ?_, fun i hi => ?_⟩
    · rw [hempty.1, hempty.2]
      rfl
    · rw [hempty.1, hempty.2]
      simp
    · rw [hempty.1] at hi
      lia
  rw [if_neg hzero] at h
  rw [or_iff_right hzero]
  obtain ⟨ti1, h1, h2⟩ := Option.bind_eq_some_iff.mp h
  have htrail := trimtrailing_spec h2
  have hlead := trimleading_spec hnxt h1
  cases hlead with
  | behind hle =>
    have hno : has ti.tiflags TH_SYN = false := by
      cases htrail with
      | within _ => exact hsyn
      | beyond _ _ _ _ _ hflag => rw [← hflag, hsyn]
    have hsynlen : synlen ti = 0 := by rw [synlen, hno]; rfl
    have hleading : leading rcv_nxt ti = 0 := by
      rw [leading, hsynlen]
      lia
    have htrailing : trailing rcv_nxt rcv_wnd ti =
        int32 (ti.ti_seq + ti.ti_len - (rcv_nxt + rcv_wnd)) := by
      rw [trailing, hsynlen, add_zero]
    rw [hleading, m_adj_zero, htrailing, hsynlen, add_zero]
    have hd : (uint32 (ti.ti_seq - uint32 ti.ti_seq)).toNat = 0 := by
      unfold uint32
      lia
    by_cases hnear : uint32 (ti.ti_seq - rcv_nxt) + ti.ti_len - rcv_wnd < 2147483648
    · have hin : ti.ti_len = 0 ∨ uint32 (ti.ti_seq - rcv_nxt) + (ti.ti_len -
          max 0 (int32 (ti.ti_seq + ti.ti_len - (rcv_nxt + rcv_wnd)))) ≤ rcv_wnd := by
        right
        unfold uint32 int32 at *
        lia
      have hright := right_trailed (l := contents ti.m) hd rfl hlen htrail hin
      rw [hright]
      exact ⟨fun hr => ⟨hr, fun _ => hnear⟩, fun hr => hr.1⟩
    · -- the difference is negative, and the segment goes on as it is
      refine iff_of_false (fun hright => ?_) fun hr => hnear (hr.2 hle)
      have hneg : int32 (ti.ti_seq + ti.ti_len - (rcv_nxt + rcv_wnd)) ≤ 0 := by
        unfold uint32 int32 at *
        lia
      cases htrail with
      | beyond hpos _ _ _ _ _ => exact absurd hneg (not_le.mpr hpos)
      | within _ =>
        have hpos : 0 < ti.ti_len := by
          unfold uint32 int32 at *
          lia
        have := hright.window 0 (by lia)
        unfold uint32 int32 at *
        lia
  | before hpos hseq hlen1 hle hm hflag =>
    have hnonneg : 0 ≤ leading rcv_nxt ti := le_max_left _ _
    have hleading : leading rcv_nxt ti = int32 (rcv_nxt - ti.ti_seq) - synlen ti := by
      rw [leading, synlen]
      split <;> lia
    have htrailing : trailing rcv_nxt rcv_wnd ti =
      int32 (ti1.ti_seq + ti1.ti_len - (rcv_nxt + rcv_wnd)) := by
      rw [trailing, hseq, hlen1, hleading]
      unfold int32
      lia
    have hm1 : contents ti1.m = (contents ti.m).drop (leading rcv_nxt ti).toNat := by
      rw [hm, contents_m_adj hnonneg]
    have hd : (uint32 (ti1.ti_seq - uint32 (ti.ti_seq + synlen ti))).toNat =
        (leading rcv_nxt ti).toNat := by
      rw [hseq, hleading]
      unfold uint32 int32 at *
      lia
    rw [htrailing, ← hm]
    have hin : ti1.ti_len = 0 ∨ uint32 (ti1.ti_seq - rcv_nxt) + (ti1.ti_len -
        max 0 (int32 (ti1.ti_seq + ti1.ti_len - (rcv_nxt + rcv_wnd)))) ≤ rcv_wnd := by
      right
      rw [hseq, sub_self]
      unfold uint32 int32 at *
      lia
    have hright := right_trailed (l := contents ti.m) hd hm1 (by rw [length_drop]; lia) htrail
      hin
    rw [hright]
    exact ⟨fun hr => ⟨hr, fun hle' => absurd hpos (not_lt.mpr hle')⟩, fun hr => hr.1⟩

/-- Once there is a connection a segment goes on without a SYN. -/
theorem trimming_connected {tp : tcpcb} {rcv_nxt : ℤ}
    (hstate : ¬ (tp.t_state = .LISTEN ∨ tp.t_state = .SYN_SENT))
    (h : trimming tp ti = some (rcv_nxt, ti')) :
    trimwindow tp.rcv_nxt tp.rcv_wnd ti = some ti' ∧ tp.rcv_nxt = rcv_nxt ∧
      has ti'.tiflags TH_SYN = false := by
  unfold trimming at h
  split at h
  · exact absurd (Or.inl ‹_›) hstate
  · exact absurd (Or.inr ‹_›) hstate
  · cases htrim : trimwindow tp.rcv_nxt tp.rcv_wnd ti with
    | none =>
      rw [htrim] at h
      cases h
    | some ti1 =>
      simp only [htrim] at h
      split at h
      · cases h
      split at h
      · cases h
      rename_i hok
      obtain ⟨rfl, rfl⟩ := Prod.mk.inj (some.inj h)
      exact ⟨rfl, rfl, by simpa using fun hyes => hok (Or.inl hyes)⟩

/-- The sequence number of the first byte of a segment. -/
def firstOf (mp : List mbuf) : ℤ := uint32 (seqOf mp + if has (flagsOf mp) TH_SYN then 1 else 0)

/-- **When the right bytes go on.** -/
theorem right_iff_trimmable (tp : tcpcb) (mp : List mbuf) (free : List ℕ) {ip_len : ℤ}
    {ti ti' : incoming} {rcv_nxt : ℤ} (hip : FromIp ip_len mp) (hnxt : UFits tp.rcv_nxt)
    (hwnd : 0 ≤ tp.rcv_wnd ∧ tp.rcv_wnd ≤ 65535) (hh : headers ip_len free mp = some ti)
    (h : trimming tp ti = some (rcv_nxt, ti')) :
    Right (segment mp) (firstOf mp) rcv_nxt tp.rcv_wnd ti' ↔ Trimmable tp ti := by
  obtain ⟨hbytes, hlen, hseq, hflags⟩ := headers_spec hip hh
  have hshort : ti.ti_len ≤ 32767 := by
    have hlength := hip.length
    have hlen' := hip.short
    rw [hlen, segment, length_drop]
    omega
  have hfirst : firstOf mp = uint32 (ti.ti_seq + synlen ti) := by
    rw [firstOf, synlen, hseq, hflags]
  rw [← hbytes] at hlen ⊢
  rw [hfirst, Trimmable]
  have hthen : ∀ wnd, 0 ≤ wnd ∧ wnd ≤ 65535 → has ti.tiflags TH_SYN = true →
      (Right (contents ti.m) (uint32 (ti.ti_seq + synlen ti)) (uint32 (ti.ti_seq + 1)) wnd
        (trimthenstep6 wnd ti) ↔
      (0 < ti.ti_len - wnd → Reaches (walked ti.m) (ti.ti_len - wnd).toNat)) :=
        fun wnd hw hsyn => by
    rw [synlen, if_pos hsyn]
    exact right_trimthenstep6 hw hlen
  by_cases hsyn : tp.t_state = .LISTEN ∨ tp.t_state = .SYN_SENT
  · rw [if_pos hsyn]
    rcases hsyn with hstate | hstate
    · simp only [trimming, hstate] at h
      split at h
      · cases h
      rename_i hok
      obtain ⟨rfl, rfl⟩ := Prod.mk.inj (some.inj h)
      exact hthen _ hwnd (by simpa using fun hno => hok (Or.inr (Or.inr hno)))
    · simp only [trimming, hstate] at h
      split at h
      · cases h
      split at h
      · cases h
      rename_i hok
      obtain ⟨rfl, rfl⟩ := Prod.mk.inj (some.inj h)
      exact hthen _ hwnd (by simpa using fun hno => hok (Or.inr hno))
  · rw [if_neg hsyn]
    obtain ⟨htrim, rfl, hno⟩ := trimming_connected hsyn h
    exact right_trimwindow hnxt hwnd hlen hshort htrim hno

/-! ## Two packets -/

/-- The headers of a segment with sequence number 0. -/
def ackheader : List UInt8 :=
  [0x45, 0, 0, 0, 0, 0, 0, 0, 0, 6, 0, 0, 0, 0, 0, 0, 0, 0, 0, 0,
    0, 0, 0, 0, 0, 0, 0, 0, 0, 0, 0, 0, 0x50, 0x10, 0, 0, 0, 0, 0, 0]

/-- Three bytes in two mbufs, behind one for the headers. -/
def threebytes : List mbuf :=
  [⟨0, 12, 1, [], ackheader⟩, ⟨128, 12, 1, [], [7]⟩, ⟨256, 12, 1, [], [8, 9]⟩]

/-- A connection that has the first of them already. -/
def receiving (rcv_wnd : ℤ) : tcpcb :=
  { tcp_newtcpcb 0 with
    t_state := .ESTABLISHED
    rcv_nxt := 1
    rcv_wnd := rcv_wnd }

theorem fromIp_threebytes : FromIp 23 threebytes where
  hlen := by decide
  first := by decide
  length := by decide
  short := by decide

/-- There is room for the other two. -/
theorem right_threebytes :
    ∃ ti ti', headers 23 [] threebytes = some ti ∧ trimming (receiving 2) ti = some (1, ti') ∧
      Right (segment threebytes) (firstOf threebytes) 1 2 ti' :=
  ⟨_, _, rfl, rfl, (right_iff_trimmable (receiving 2) threebytes [] fromIp_threebytes
    (by decide) (by decide) rfl rfl).mpr (by decide)⟩

/-- There is room for the second one only, but no trailing byte is dropped: the first two mbufs
are empty by then. -/
theorem not_right_threebytes :
    FromIp 23 threebytes ∧ ∃ ti ti', headers 23 [] threebytes = some ti ∧
      trimming (receiving 1) ti = some (1, ti') ∧
      ¬ Right (segment threebytes) (firstOf threebytes) 1 1 ti' :=
  ⟨fromIp_threebytes, _, _, rfl, rfl, fun h => absurd h.length (by decide)⟩

end Tcp
