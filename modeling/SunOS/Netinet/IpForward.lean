/-
# Packets that are passed on (`ip_stripoptions`, `ip_forward`, `netinet/ip_input.c`)

The options of a packet that is forwarded are to be moved out of its header into an mbuf of their
own, and what lies behind them is moved up.  Mbufs are 128 bytes of memory each, on a boundary of
128 bytes, so that the address of a byte tells its mbuf.  The copy of the packet for an error
message is left out.
-/
import SunOS.Netinet.IpOptions
import SunOS.Lib.Bytes

namespace Ip

open Function (update update_of_ne update_self)
open Bytes

def MSIZE : ℕ := 128

def MMINOFF : ℕ := 12

/-- `sizeof (struct ip)`. -/
def sizeofIp : ℕ := 20

def IPTTLDEC : ℕ := 1

/-- The header of an mbuf. -/
structure mhdr where
  m_off : ℕ
  m_len : ℤ
  deriving DecidableEq, Repr

/-- The bytes of memory, and the headers of the mbufs by their addresses. -/
structure Bufs where
  mem : ℕ → UInt8
  hdr : ℕ → mhdr

/-- The mbuf that `x` points into. -/
def dtom (x : ℕ) : ℕ := x - x % MSIZE

/-- Where the data of the mbuf `m` are. -/
def Bufs.mtod (s : Bufs) (m : ℕ) : ℕ := m + (s.hdr m).m_off

/-- `bcopy(src, dst, n)`. -/
def Bufs.bcopy (s : Bufs) (src dst n : ℕ) : Bufs :=
  { s with mem := store s.mem dst (load s.mem src n) }

/-- `m->m_off = off; m->m_len = len`. -/
def Bufs.set (s : Bufs) (m off : ℕ) (len : ℤ) : Bufs :=
  { s with hdr := Function.update s.hdr m ⟨off, len⟩ }

/-- `ip->ip_hl`, the low half of the first byte. -/
def Bufs.ip_hl (s : Bufs) (ip : ℕ) : ℕ := (s.mem ip).toNat % 16

/-- The length of the options, when the header has its 20 bytes. -/
def Bufs.olen (s : Bufs) (ip : ℕ) : ℕ := s.ip_hl ip * 4 - sizeofIp

/-- `ip_stripoptions(ip, mopt)`. -/
def ip_stripoptions (ip : ℕ) (mopt : Option ℕ) (s : Bufs) : Bufs :=
  let olen := s.olen ip
  let m := dtom ip
  let s :=
    match mopt with
    | none => s
    | some mopt =>
      let s := s.set mopt MMINOFF olen
      s.bcopy (ip + sizeofIp) (s.mtod m) olen
  let i := ((s.hdr m).m_len - ((sizeofIp + olen : ℕ) : ℤ)).toNat
  let s := s.bcopy (ip + sizeofIp + olen) (ip + sizeofIp) i
  s.set m (s.hdr m).m_off ((s.hdr m).m_len - olen)

/-- What `ip_forward` asks the rest of the kernel. -/
structure Forwarding where
  in_broadcast : in_addr → Bool
  ipforwarding : Bool
  m_get : Option ℕ

/-- The memory after `ip->ip_ttl -= IPTTLDEC`. -/
def Bufs.decttl (s : Bufs) (ip : ℕ) : Bufs :=
  { s with mem := Function.update s.mem (ip + 8) (s.mem (ip + 8) - UInt8.ofNat IPTTLDEC) }

/-- `ip_forward(ip)`, up to the call of `ip_output`: the memory and the options that call gets, or
nothing if it does not come to it. -/
def ip_forward (k : Forwarding) (ip : ℕ) (s : Bufs) : Option (Bufs × ℕ) :=
  let ip_src := word s.mem (ip + 12)
  let ip_dst := word s.mem (ip + 16)
  if in_netof ip_dst = 0 ∨ ip_dst.s_addr = 0xffffffff ∨
      k.in_broadcast ip_dst ∧ in_netof ip_dst = in_netof ip_src then none
  else if ¬ k.ipforwarding then none
  else if (s.mem (ip + 8)).toNat < IPTTLDEC then none
  else k.m_get.map fun mopt => (ip_stripoptions ip (some mopt) (s.decttl ip), mopt)

/-! ## What it should do -/

/-- A packet whose header is at `ip`, at the front of an mbuf that holds all of its options. -/
structure Bufs.Packet (s : Bufs) (ip : ℕ) : Prop where
  data : s.mtod (dtom ip) = ip
  hl : 5 ≤ s.ip_hl ip
  len : ((s.ip_hl ip * 4 : ℕ) : ℤ) ≤ (s.hdr (dtom ip)).m_len
  fits : (ip : ℤ) + (s.hdr (dtom ip)).m_len ≤ dtom ip + MSIZE

/-- An mbuf other than that of the packet. -/
def Apart (ip mopt : ℕ) : Prop := MSIZE ∣ mopt ∧ mopt ≠ dtom ip

/-- The options are in their mbuf, the header is what it was, and what was behind the options is
behind the header. -/
structure Stripped (ip : ℕ) (mopt : Option ℕ) (s s' : Bufs) : Prop where
  opt : ∀ o ∈ mopt, (s'.hdr o).m_len = s.olen ip ∧
    load s'.mem (s'.mtod o) (s.olen ip) = load s.mem (ip + sizeofIp) (s.olen ip)
  header : load s'.mem ip sizeofIp = load s.mem ip sizeofIp
  len : (s'.hdr (dtom ip)).m_len = (s.hdr (dtom ip)).m_len - s.olen ip
  start : s'.mtod (dtom ip) = ip
  rest : ∀ n : ℕ, (n : ℤ) ≤ (s.hdr (dtom ip)).m_len - ((sizeofIp + s.olen ip : ℕ) : ℤ) →
    load s'.mem (ip + sizeofIp) n = load s.mem (ip + sizeofIp + s.olen ip) n

variable {ip o : ℕ} {mopt : Option ℕ} {s s' : Bufs} {k : Forwarding}

theorem Bufs.Packet.end_eq (h : s.Packet ip) : sizeofIp + s.olen ip = s.ip_hl ip * 4 := by
  have hl := h.hl
  rw [olen, sizeofIp]
  omega

/-- The mbuf that the code takes for that of the options happens to have them already, and the
header begins with them. -/
def Coincides (ip : ℕ) (mopt : Option ℕ) (s : Bufs) : Prop :=
  ∀ o ∈ mopt, load s.mem (o + MMINOFF) (s.olen ip) = load s.mem (ip + sizeofIp) (s.olen ip) ∧
    load s.mem ip (min sizeofIp (s.olen ip)) = load s.mem (ip + sizeofIp) (min sizeofIp (s.olen ip))

theorem Bufs.Packet.bounds (h : s.Packet ip) :
    dtom ip ≤ ip ∧ MSIZE ∣ dtom ip ∧ (sizeofIp + s.olen ip : ℕ) ≤ (s.hdr (dtom ip)).m_len ∧
      s.olen ip ≤ 40 := by
  have hlen := h.len
  rw [← h.end_eq] at hlen
  refine ⟨Nat.sub_le _ _, Nat.dvd_sub_mod ip, hlen, ?_⟩
  rw [olen, ip_hl, sizeofIp]
  omega

/-- The second move: what was behind the options is behind the header. -/
theorem move_up {μ : ℕ → UInt8} {a b i n : ℕ} (hμ : load μ b i = load s.mem b i) (hn : n ≤ i) :
    load (store μ a (load μ b i)) a n = load s.mem b n := by
  rw [load_store_beginning, length_load, Nat.sub_eq_zero_of_le hn, load_zero, List.append_nil, hμ,
    load_take hn]

theorem ip_stripoptions_none (h : s.Packet ip) :
    Stripped ip none s (ip_stripoptions ip none s) := by
  refine ⟨fun o ho => absurd ho (Option.not_mem_none o), load_store_of_disjoint (Or.inl le_rfl),
    ?_, ?_, fun n hn => move_up rfl ?_⟩
  · show (update s.hdr (dtom ip) _ (dtom ip)).m_len = _
    rw [update_self]
    rfl
  · show dtom ip + (update s.hdr (dtom ip) _ (dtom ip)).m_off = ip
    rw [update_self]
    exact h.data
  · show n ≤ ((s.hdr (dtom ip)).m_len - ((sizeofIp + s.olen ip : ℕ) : ℤ)).toNat
    omega

/-- The memory and the headers after `ip_stripoptions(ip, o)`: the first move has gone to the front
of the packet, not to `o`. -/
theorem ip_stripoptions_some (h : s.Packet ip) (ho : Apart ip o) :
    (ip_stripoptions ip (some o) s).mem =
      store (store s.mem ip (load s.mem (ip + sizeofIp) (s.olen ip))) (ip + sizeofIp)
        (load (store s.mem ip (load s.mem (ip + sizeofIp) (s.olen ip))) (ip + sizeofIp + s.olen ip)
          ((s.hdr (dtom ip)).m_len - ((sizeofIp + s.olen ip : ℕ) : ℤ)).toNat) ∧
    (ip_stripoptions ip (some o) s).hdr =
      update (update s.hdr o ⟨MMINOFF, s.olen ip⟩) (dtom ip)
        ⟨(s.hdr (dtom ip)).m_off, (s.hdr (dtom ip)).m_len - s.olen ip⟩ := by
  have hother : update s.hdr o ⟨MMINOFF, s.olen ip⟩ (dtom ip) = s.hdr (dtom ip) :=
    update_of_ne (Ne.symm ho.2) _ _
  have hmtod : (s.set o MMINOFF (s.olen ip)).mtod (dtom ip) = ip := by
    rw [Bufs.mtod]
    show dtom ip + (update s.hdr o _ (dtom ip)).m_off = ip
    rw [hother]
    exact h.data
  unfold ip_stripoptions
  simp only [hmtod]
  constructor
  · show store (store s.mem ip (load s.mem (ip + sizeofIp) (s.olen ip))) (ip + sizeofIp)
      (load (store s.mem ip (load s.mem (ip + sizeofIp) (s.olen ip))) (ip + sizeofIp + s.olen ip)
        ((update s.hdr o ⟨MMINOFF, s.olen ip⟩ (dtom ip)).m_len -
          ((sizeofIp + s.olen ip : ℕ) : ℤ)).toNat) = _
    rw [hother]
  · show update (update s.hdr o ⟨MMINOFF, s.olen ip⟩) (dtom ip)
      ⟨(update s.hdr o ⟨MMINOFF, s.olen ip⟩ (dtom ip)).m_off,
        (update s.hdr o ⟨MMINOFF, s.olen ip⟩ (dtom ip)).m_len - s.olen ip⟩ = _
    rw [hother]

/-- **Options are stripped into an mbuf only when nothing had to be moved there.** -/
theorem stripped_iff (h : s.Packet ip) (ho : Apart ip o) :
    Stripped ip (some o) s (ip_stripoptions ip (some o) s) ↔ Coincides ip (some o) s := by
  obtain ⟨hle, hdvd, hlen, holen⟩ := h.bounds
  obtain ⟨hmem, hhdr⟩ := ip_stripoptions_some h ho
  have hfits := h.fits
  -- the two mbufs have no byte in common
  have hapart : o + MSIZE ≤ dtom ip ∨ dtom ip + MSIZE ≤ o := by
    obtain ⟨y, hy⟩ := ho.1
    have hne := ho.2
    rw [MSIZE] at *
    lia
  have hat : (ip_stripoptions ip (some o) s).hdr o = ⟨MMINOFF, s.olen ip⟩ := by
    rw [hhdr, update_of_ne ho.2, update_self]
  have hself : (ip_stripoptions ip (some o) s).hdr (dtom ip) =
      ⟨(s.hdr (dtom ip)).m_off, (s.hdr (dtom ip)).m_len - s.olen ip⟩ := by
    rw [hhdr, update_self]
  have hopt : load (ip_stripoptions ip (some o) s).mem (o + MMINOFF) (s.olen ip) =
      load s.mem (o + MMINOFF) (s.olen ip) := by
    rw [hmem]
    rw [load_store_of_disjoint, load_store_of_disjoint]
    · rw [length_load, MMINOFF]
      rw [MSIZE] at *
      lia
    · rw [length_load, MMINOFF, sizeofIp]
      rw [MSIZE] at *
      rw [sizeofIp] at hlen
      lia
  have hheader : load (ip_stripoptions ip (some o) s).mem ip sizeofIp = load s.mem ip sizeofIp ↔
      load s.mem ip (min sizeofIp (s.olen ip)) =
        load s.mem (ip + sizeofIp) (min sizeofIp (s.olen ip)) := by
    rw [hmem, load_store_of_disjoint (Or.inl le_rfl), load_store_beginning_eq_iff, length_load]
    have htake : (load s.mem (ip + sizeofIp) (s.olen ip)).take sizeofIp =
        load s.mem (ip + sizeofIp) (min sizeofIp (s.olen ip)) := by
      rw [← load_take (Nat.min_le_right sizeofIp (s.olen ip)), List.take_eq_take_iff, length_load]
      lia
    rw [htake]
    exact eq_comm
  have hrest : ∀ n : ℕ, (n : ℤ) ≤ (s.hdr (dtom ip)).m_len - ((sizeofIp + s.olen ip : ℕ) : ℤ) →
      load (ip_stripoptions ip (some o) s).mem (ip + sizeofIp) n =
        load s.mem (ip + sizeofIp + s.olen ip) n := by
    intro n hn
    rw [hmem]
    refine move_up (load_store_of_disjoint (Or.inr ?_)) (by lia)
    rw [length_load]
    lia
  have hmopt : (ip_stripoptions ip (some o) s).mtod o = o + MMINOFF := by
    rw [Bufs.mtod, hat]
  constructor
  · rintro ⟨hst, hhead, -, -, -⟩ o' ho'
    obtain rfl := Option.mem_some_iff.mp ho'
    obtain ⟨-, hst⟩ := hst o rfl
    rw [hmopt, hopt] at hst
    exact ⟨hst, hheader.mp hhead⟩
  · intro hco
    obtain ⟨hst, hhead⟩ := hco o rfl
    refine ⟨fun o' ho' => ?_, hheader.mpr hhead, by rw [hself], ?_, hrest⟩
    · obtain rfl := Option.mem_some_iff.mp ho'
      refine ⟨by rw [hat], ?_⟩
      rw [hmopt, hopt, hst]
    · rw [Bufs.mtod, hself]
      exact h.data

/-! ## Forwarding -/

theorem Bufs.Packet.decttl (h : s.Packet ip) : (s.decttl ip).Packet ip := by
  have hhl : (s.decttl ip).ip_hl ip = s.ip_hl ip := by
    show (update s.mem (ip + 8) _ ip).toNat % 16 = _
    rw [update_of_ne (by omega)]
    rfl
  exact ⟨h.data, by rw [hhl]; exact h.hl, by rw [hhl]; exact h.len, h.fits⟩

/-- `ip_output` gets the packet after `ip_stripoptions`, with its time to live counted down. -/
theorem ip_forward_eq (hf : ip_forward k ip s = some (s', o)) :
    k.m_get = some o ∧ s' = ip_stripoptions ip (some o) (s.decttl ip) := by
  unfold ip_forward at hf
  simp only [] at hf
  split_ifs at hf
  obtain ⟨o', hget, heq⟩ := Option.map_eq_some_iff.mp hf
  obtain ⟨hs, rfl⟩ := Prod.mk.inj heq
  exact ⟨hget, hs.symm⟩

/-- **`ip_stripoptions` does what it should exactly when there is nothing to do**: no one wants the
options, there are none, or what it fails to move is there by chance; and a packet that is forwarded
gets to `ip_output` with its header, its options and what is behind them in these cases only. -/
theorem ip_stripoptions_iff (h : s.Packet ip) (ho : ∀ o ∈ mopt, Apart ip o) :
    (Stripped ip mopt s (ip_stripoptions ip mopt s) ↔ Coincides ip mopt s) ∧
      ∀ k s' o, Apart ip o → ip_forward k ip s = some (s', o) →
        (Stripped ip (some o) (s.decttl ip) s' ↔ Coincides ip (some o) (s.decttl ip)) := by
  refine ⟨?_, fun k s' o hap hf => ?_⟩
  · cases mopt with
    | none => exact iff_of_true (ip_stripoptions_none h) fun o
      hm => absurd hm (Option.not_mem_none o)
    | some o => exact stripped_iff h (ho o rfl)
  · rw [(ip_forward_eq hf).2]
    exact stripped_iff h.decttl hap

/-- A header of 24 bytes at the front of the mbuf at 128, with three no-ops for options, and one
byte behind it. -/
def noops : Bufs where
  mem a :=
    if a = 140 then 0x46
    else if a = 148 then 30
    else if a = 156 then 10
    else if 160 ≤ a ∧ a < 163 then 1
    else 0
  hdr _ := ⟨12, 25⟩

theorem noops_packet : noops.Packet 140 :=
  ⟨by decide, by decide, by decide, by decide⟩

theorem ip_stripoptions_iff_noops :
    (Stripped 140 (some 256) noops (ip_stripoptions 140 (some 256) noops) ↔
      Coincides 140 (some 256) noops) ∧
      ∀ k s' o, Apart 140 o → ip_forward k 140 noops = some (s', o) →
        (Stripped 140 (some o) (noops.decttl 140) s' ↔ Coincides 140 (some o) (noops.decttl 140)) :=
  ip_stripoptions_iff noops_packet fun o ho => by
    obtain rfl := Option.mem_some_iff.mp ho
    exact ⟨by decide, by decide⟩

/-- The options overwrite the header, and are not where they should be. -/
theorem not_stripped_noops :
    load (ip_stripoptions 140 (some 256) noops).mem 140 4 = [1, 1, 1, 0] ∧
      ¬ Stripped 140 (some 256) noops (ip_stripoptions 140 (some 256) noops) := by
  refine ⟨by decide +kernel, fun hst => ?_⟩
  exact absurd hst.header (by decide +kernel)

end Ip
