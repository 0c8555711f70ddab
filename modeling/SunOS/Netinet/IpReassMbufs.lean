/-
# The mbufs of reassembly

Every mbuf is in one place: in a chain that waits, under the queue that holds it,
freed, still to be got, or in what is passed to the protocol.  Each operation moves
them and makes or loses none.
-/
import SunOS.Netinet.IpReass
import Mathlib.Algebra.Order.Group.Multiset
import Mathlib.Tactic.Abel

namespace Ip

open List
open Mbuf Reassembly

/-- The mbufs of the chains of some fragments. -/
def fragAddrs (frags : List ipasfrag) : Multiset ℕ := (frags.map fun q => addrs q.m).sum

/-- The mbufs of a queue. -/
def ipq.all (fp : ipq) : Multiset ℕ := fragAddrs fp.frags + {fp.addr}

def allAddrs (l : List ipq) : Multiset ℕ := (l.map ipq.all).sum

/-- All the mbufs that reassembly has, has freed or will get. -/
def net.all (n : net) : Multiset ℕ := allAddrs n.ipq + n.freed + (n.supply.filterMap id : List ℕ)

/-- The mbufs passed on with a datagram. -/
def passed (d : Option datagram) : Multiset ℕ := (d.map fun d => addrs d.m).getD 0

@[simp] theorem allAddrs_nil : allAddrs [] = 0 := rfl

@[simp] theorem allAddrs_cons (fp : ipq) (l : List ipq) :
    allAddrs (fp :: l) = fp.all + allAddrs l := rfl

@[simp] theorem allAddrs_append (l l' : List ipq) :
    allAddrs (l ++ l') = allAddrs l + allAddrs l' := by
  simp [allAddrs]

@[simp] theorem passed_none : passed none = 0 := rfl

@[simp] theorem passed_some (d : datagram) : passed (some d) = addrs d.m := rfl

/-- The first header of a chain is hidden without moving its mbufs. -/
theorem addrs_hideHeader (hlen : ℕ) (m : List mbuf) : addrs (hideHeader hlen m) = addrs m := by
  cases m <;> rfl

theorem addrs_showHeader (m : List mbuf) : addrs (showHeader m) = addrs m := by
  cases m <;> rfl

theorem chain_coe (m : List mbuf) : (chain m : Multiset ℕ) = addrs m := rfl

theorem chains_coe (frags : List ipasfrag) :
    ((frags.map fun q => chain q.m).flatten : Multiset ℕ) = fragAddrs frags := by
  induction frags with
  | nil => rfl
  | cons q qs ih =>
    rw [map_cons, flatten_cons, ← Multiset.coe_add, ih, chain_coe]
    rfl

theorem mbufs_coe (fp : ipq) : (fp.mbufs : Multiset ℕ) = fp.all := by
  rw [ipq.mbufs, ← Multiset.coe_add, chains_coe]
  rfl

theorem mbufss_coe (l : List ipq) : ((l.map ipq.mbufs).flatten : Multiset ℕ) = allAddrs l := by
  induction l with
  | nil => rfl
  | cons fp l ih =>
    rw [map_cons, flatten_cons, ← Multiset.coe_add, ih, mbufs_coe, allAddrs_cons]

/-! ## Concatenation -/

theorem concatenate_addrs (m : List mbuf) (qs : List ipasfrag) :
    addrs (concatenate m qs).1 + ((concatenate m qs).2 : Multiset ℕ) = addrs m + fragAddrs qs := by
  induction qs generalizing m with
  | nil => rfl
  | cons q qs ih =>
    have hcat := addrs_m_cat m q.m
    have hrest := ih (m_cat m q.m).1
    rw [concatenate]
    show addrs (concatenate (m_cat m q.m).1 qs).1 +
      (((m_cat m q.m).2 ++ (concatenate (m_cat m q.m).1 qs).2 : List ℕ) : Multiset ℕ) =
        addrs m + (addrs q.m + fragAddrs qs)
    rw [← Multiset.coe_add, add_left_comm, hrest, ← add_assoc, ← add_assoc, ← hcat]
    abel

theorem concatenateAll_addrs (qs : List ipasfrag) :
    addrs (concatenateAll qs).1 + ((concatenateAll qs).2 : Multiset ℕ) = fragAddrs qs := by
  cases qs with
  | nil => rfl
  | cons q qs =>
    show _ = addrs q.m + fragAddrs qs
    cases hm : q.m with
    | nil =>
      rw [concatenateAll, hm]
      exact concatenate_addrs [] qs
    | cons m t =>
      have hcat := addrs_m_cat [m] t
      have hrest := concatenate_addrs (m_cat [m] t).1 qs
      rw [concatenateAll, hm]
      show addrs (concatenate (m_cat [m] t).1 qs).1 +
        (((m_cat [m] t).2 ++ (concatenate (m_cat [m] t).1 qs).2 : List ℕ) : Multiset ℕ) = _
      rw [← Multiset.coe_add, add_left_comm, hrest, ← add_assoc, add_comm _ (addrs _), hcat]
      rfl

/-- At the end of `ip_reass` the mbufs are in the queue, or passed on and freed. -/
theorem finish_addrs (fp : ipq) :
    allAddrs (finish fp).1.toList + passed (finish fp).2.1 + ((finish fp).2.2 : Multiset ℕ) =
      fp.all := by
  rw [finish]
  split
  · rename_i next first rest _ hfrags
    show 0 + addrs (showHeader (concatenateAll fp.frags).1) +
      (((concatenateAll fp.frags).2 ++ [fp.addr] : List ℕ) : Multiset ℕ) = fp.all
    rw [addrs_showHeader, ← Multiset.coe_add, zero_add, ← add_assoc, concatenateAll_addrs]
    rfl
  · show fp.all + 0 + 0 + 0 = fp.all
    rw [add_zero, add_zero, add_zero]

/-! ## The whole of reassembly -/

theorem allAddrs_setq {ip : ip} {fp : ipq} {l : List ipq}
    (h : l.find? (fun fp => fp.holds ip) = some fp) (fp' : Option ipq) :
    allAddrs (setq ip fp' l) + fp.all = allAddrs l + allAddrs fp'.toList := by
  induction l with
  | nil => cases h
  | cons fp0 l ih =>
    rw [setq]
    rw [List.find?_cons] at h
    by_cases hholds : fp0.holds ip
    · rw [hholds] at h
      cases h
      rw [if_pos hholds, allAddrs_append, allAddrs_cons]
      abel
    · rw [Bool.not_eq_true] at hholds
      rw [hholds] at h
      rw [if_neg (by simp [hholds]), allAddrs_cons, allAddrs_cons, add_assoc, ih h, add_assoc]

theorem ip_reass_addrs (hdr : ip) (ip : ipasfrag) (n : net) :
    (ip_reass hdr ip (n.ipq.find? fun fp => fp.holds hdr) n).1.all +
        passed (ip_reass hdr ip (n.ipq.find? fun fp => fp.holds hdr) n).2 =
      n.all + addrs ip.m := by
  rw [ip_reass.eq_def]
  generalize hhidden : { ip with m := hideHeader (ip.ip_hl * 4) ip.m } = ip'
  have hhide : addrs ip'.m = addrs ip.m := by
    rw [← hhidden]
    exact addrs_hideHeader (ip.ip_hl * 4) ip.m
  cases hfp : n.ipq.find? fun fp => fp.holds hdr with
  | none =>
    rcases hsupply : n.supply with _ | ⟨_ | a, supply⟩
    · simp only [net.all, passed_none, add_zero, hsupply, ← Multiset.coe_add, chain_coe, hhide]
      abel
    · simp only [net.all, passed_none, add_zero, hsupply, ← Multiset.coe_add, chain_coe, hhide]
      rw [show (none :: supply).filterMap id = supply.filterMap id from rfl]
      abel
    · simp only [net.all, hsupply, allAddrs_append, ← Multiset.coe_add]
      generalize hnew : (⟨a, IPFRAGTTL, ip'.ip_p, ip'.ip_id, hdr.ip_src, hdr.ip_dst, [ip']⟩ : ipq) =
        fp
      have hall : fp.all = addrs ip.m + {a} := by
        rw [← hnew, ipq.all, fragAddrs, map_singleton, sum_singleton, hhide]
      have hfin := finish_addrs fp
      rw [hall] at hfin
      rw [show (some a :: supply).filterMap id = a :: supply.filterMap id from rfl,
        ← Multiset.cons_coe, ← Multiset.singleton_add]
      calc _ = (allAddrs (finish fp).1.toList + passed (finish fp).2.1 +
              ((finish fp).2.2 : Multiset ℕ)) + allAddrs n.ipq + n.freed +
              (supply.filterMap id : List ℕ) := by abel
        _ = _ := by
          rw [hfin]
          abel
  | some fp =>
    simp only []
    cases hins : fragOps.insert ip' fp.frags with
    | none =>
      simp only [net.all, passed_none, add_zero, ← Multiset.coe_add, chain_coe, hhide]
      abel
    | some r =>
      obtain ⟨frags, gone⟩ := r
      have hsum : fragAddrs frags + fragAddrs gone = addrs ip'.m + fragAddrs fp.frags :=
        Ops.sum_insert (fun q i => addrs_m_adj q.m i) hins
      have hset := allAddrs_setq hfp (finish { fp with frags := frags }).1
      have hfin := finish_addrs { fp with frags := frags }
      simp only [net.all, ← Multiset.coe_add, chains_coe]
      -- the queue that is replaced is put on both sides
      apply add_right_cancel (b := fp.all)
      calc _ = (allAddrs (setq hdr (finish { fp with frags := frags }).1 n.ipq) + fp.all) +
              (passed (finish { fp with frags := frags }).2.1 +
              ((finish { fp with frags := frags }).2.2 : Multiset ℕ)) + fragAddrs gone +
              n.freed + (n.supply.filterMap id : List ℕ) := by abel
        _ = allAddrs n.ipq + (allAddrs (finish { fp with frags := frags }).1.toList +
              passed (finish { fp with frags := frags }).2.1 +
              ((finish { fp with frags := frags }).2.2 : Multiset ℕ)) + fragAddrs gone +
              n.freed + (n.supply.filterMap id : List ℕ) := by
          rw [hset]
          abel
        _ = allAddrs n.ipq + (fragAddrs frags + fragAddrs gone) + {fp.addr} + n.freed +
              (n.supply.filterMap id : List ℕ) := by
          rw [hfin, ipq.all]
          abel
        _ = _ := by
          rw [hsum, hhide, ipq.all]
          abel

/-- **`ipintr` and `ip_reass` keep the mbufs**: those of the packet that came are where
they wait, freed or passed on. -/
theorem ours_addrs (ip : ip) (n : net) :
    (ours ip n).1.all + passed (ours ip n).2 = n.all + addrs ip.m := by
  rw [ours]
  split
  · exact ip_reass_addrs ip _ n
  · cases hfp : n.ipq.find? fun fp => fp.holds ip with
    | none => rfl
    | some fp =>
      have hset := allAddrs_setq hfp none
      simp only [net.all, passed_some, ← Multiset.coe_add, mbufs_coe]
      rw [show allAddrs (none : Option ipq).toList = 0 from rfl, add_zero] at hset
      rw [← hset]
      abel

/-- Ageing the queues frees those whose time is up. -/
theorem ip_slowtimo_addrs (n : net) : (ip_slowtimo n).all = n.all := by
  have hsplit : ∀ l : List ipq, allAddrs (l.filter fun fp => fp.ipq_ttl ≠ 0) +
      allAddrs (l.filter fun fp => fp.ipq_ttl = 0) = allAddrs l := by
    intro l
    induction l with
    | nil => rfl
    | cons fp l ih =>
      rw [allAddrs_cons, ← ih]
      by_cases h : fp.ipq_ttl = 0
      · rw [filter_cons_of_neg (by simpa using h), filter_cons_of_pos (by simpa using h),
          allAddrs_cons]
        abel
      · rw [filter_cons_of_pos (by simpa using h), filter_cons_of_neg (by simpa using h),
          allAddrs_cons]
        abel
  have hage : allAddrs (n.ipq.map fun fp => { fp with ipq_ttl := fp.ipq_ttl - 1 }) =
      allAddrs n.ipq := by
    rw [allAddrs, map_map]
    rfl
  rw [ip_slowtimo, net.all, ← Multiset.coe_add, mbufss_coe, net.all, ← hage,
    ← hsplit (n.ipq.map _)]
  abel

theorem ip_drain_addrs (n : net) : (ip_drain n).all = n.all := by
  rw [ip_drain, net.all, ← Multiset.coe_add, mbufss_coe, net.all, allAddrs_nil]
  abel

end Ip
