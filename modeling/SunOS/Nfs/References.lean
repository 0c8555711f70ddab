/-
# What requests do to vnodes

Every procedure of the server releases the references that it obtains or leaves them in the reply,
but for `rfs_mkdir`, which may lose one; and none modifies a file system that is exported read-only,
but by `VOP_WRITE` and the first vnode of `VOP_LINK`.  The duplicate cache is told of the requests
that went well, of those that ask it.
-/
import Mathlib.Algebra.FreeMonoid.Basic
import Mathlib.GroupTheory.FreeAbelianGroup
import SunOS.Lib.Effects
import SunOS.Lib.Logged
import SunOS.Nfs.DupCache
import SunOS.Nfs.Server

namespace Nfs

open Effects Logged Nfsd
open FreeAbelianGroup (of)

variable {σ V α : Type} {ops : Vnodeops σ V}

/-! ## The pieces -/

variable {o : vop}

/-- How an event changes the number of references to each vnode that are held. -/
noncomputable def event.held : event V → FreeAbelianGroup V
  | .obtained w => of w
  | .released w | .replied w => -of w
  | .called _ _ => 0

/-- A call that modifies no file system exported read-only, or is let through. -/
def Harmless (ops : Vnodeops σ V) : event V → Prop
  | .called o vs => o.modifying = true → o ≠ .write →
      ∀ w ∈ if o = .link then vs.tail else vs, rdonly ops w = false
  | _ => True

/-- The references obtained and not given back, and the requests saved. -/
abbrev Effect (V : Type) := FreeAbelianGroup V × FreeAddMonoid transaction

/-- The calls are harmless, and the cache saves the requests. -/
def effects (ops : Vnodeops σ V) : Effects (server σ V) (Effect V) where
  rel s m t := Added (Harmless ops) event.held s.log t.log m.1 ∧
    m.2.toList.foldlM DupCache.dupsave s.dups = some t.dups
  refl s := ⟨.refl s.log, rfl⟩
  trans h h' := by
    refine ⟨h.1.trans h'.1, ?_⟩
    rw [Prod.snd_add, FreeAddMonoid.toList_add, List.foldlM_append, h.2]
    exact h'.2

/-- What `x` obtains it gives back, and it saves nothing. -/
abbrev Quiet (ops : Vnodeops σ V) (x : Nfsd σ V α) : Prop := (effects ops).Does x fun _ m => m = 0

/-- `x` obtains `f` of its result, and saves nothing. -/
abbrev Obtains (ops : Vnodeops σ V) (x : Nfsd σ V α) (f : α → FreeAbelianGroup V) : Prop :=
  (effects ops).Does x fun r m => m = (f r, 0)

theorem quiet_of {x : Nfsd σ V α}
    (h : ∀ s r t, x s = some (r, t) → t.log = s.log ∧ t.dups = s.dups) : Quiet ops x := by
  intro s r t hst
  obtain ⟨hlog, hdups⟩ := h s r t hst
  refine ⟨0, rfl, ?_, hdups ▸ rfl⟩
  rw [hlog]
  exact .refl s.log

theorem onfs_quiet (f : σ → α × σ) : Quiet ops (onfs f) :=
  quiet_of fun _ _ _ h => by cases h; exact ⟨rfl, rfl⟩

theorem modify_quiet (f : server σ V → ucred) :
    Quiet ops (modify fun s => { s with u_cred := f s }) :=
  quiet_of fun _ _ _ h => by cases h; exact ⟨rfl, rfl⟩

theorem get_quiet : Quiet ops (get : Nfsd σ V (server σ V)) :=
  quiet_of fun _ _ _ h => by cases h; exact ⟨rfl, rfl⟩

theorem svckudp_dup_quiet (req : transaction) : Quiet ops (svckudp_dup req) :=
  quiet_of fun _ _ _ h => by
    obtain ⟨b, -, hb⟩ := Option.map_eq_some_iff.mp h
    cases hb
    exact ⟨rfl, rfl⟩

theorem note_obtains {e : event V} (he : Harmless ops e) :
    Obtains ops (note e) fun _ => e.held := by
  rintro s _ _ ⟨⟩
  exact ⟨_, rfl, .note he, rfl⟩

theorem hold_obtains (v : V) : Obtains ops (hold v) fun _ => of v := note_obtains trivial

theorem rele_obtains (v : V) : Obtains ops (rele v) fun _ => -of v := note_obtains trivial

theorem call_quiet {vs : List V} (f : ucred → σ → α × σ)
    (h : Harmless ops (.called o vs)) : Quiet ops (call o vs f) :=
  (note_obtains h).next fun _ => get_quiet.next fun _ => onfs_quiet _

/-- A call that only reads. -/
theorem read_quiet (vs : List V) (f : ucred → σ → α × σ) (h : o.modifying = false) :
    Quiet ops (call o vs f) :=
  call_quiet f fun hm => absurd hm (by simp [h])

/-- A call that may modify the file system of `vp`. -/
theorem write_quiet (o : vop) {vp : V} (f : ucred → σ → α × σ) (h : rdonly ops vp = false) :
    Quiet ops (call o [vp] f) :=
  call_quiet f fun _ _ w hw => by
    split at hw
    · cases hw
    · rwa [List.mem_singleton.mp hw]

/-- The references held by a result that has a vnode. -/
noncomputable def got (vp : α → V) : Except errno α → FreeAbelianGroup V
  | .ok a => of (vp a)
  | .error _ => 0

theorem callv_obtains {vs : List V} {f : ucred → σ → Except errno α × σ} (vp : α → V)
    (h : Quiet ops (call o vs f)) : Obtains ops (callv o vs f vp) (got vp) := by
  refine h.next ?_
  rintro (e | a)
  · exact .pure rfl
  · exact (hold_obtains _).andThen fun _ => .pure (add_zero _)

theorem fhtovp_obtains (fh : fhandle_t) : Obtains ops (fhtovp ops fh) fun r => r.elim 0 of := by
  unfold fhtovp
  split
  · exact .pure rfl
  · refine (onfs_quiet _).next ?_
    rintro (_ | vp)
    · exact .pure rfl
    · exact (hold_obtains vp).andThen fun _ =>
        (modify_quiet fun s => maproot _ s.u_cred).next fun _ => .pure (add_zero _)

/-! ## Results with errors -/

section

variable {P : Except errno α → Effect V → Prop} (he : ∀ e, P (.error e) 0)

variable {fh : fhandle_t} {k : V → Nfsd σ V (Except errno α)}

include he

theorem ifok_does {β : Type} {r : Except errno β} {k : β → Nfsd σ V (Except errno α)}
    (hk : ∀ b, (effects ops).Does (k b) P) : (effects ops).Does (ifok r k) P := by
  cases r with
  | error e => exact .pure (he e)
  | ok b => exact hk b

theorem withvp_does
    (hk : ∀ vp, (effects ops).Does (k vp) P) : (effects ops).Does (withvp ops fh k) P := by
  refine (fhtovp_obtains fh).andThen ?_
  rintro (_ | vp)
  · exact .pure (he .ESTALE)
  · refine (hk vp).bind fun r m hm => (rele_obtains vp).andThen fun _ => .pure ?_
    have hsum : ((of vp, 0) + (m + ((-of vp, 0) + 0)) : Effect V) = m :=
      Prod.ext (by simp) (by simp)
    rwa [← hsum] at hm

theorem withrw_does (hk : ∀ vp, rdonly ops vp = false → (effects ops).Does (k vp) P) :
    (effects ops).Does (withrw ops fh k) P := by
  refine withvp_does he fun vp => ?_
  split
  · exact .pure (he .EROFS)
  · exact hk vp (Bool.eq_false_iff.mpr ‹_›)

end

/-! ## The procedures -/

theorem makefh_quiet (vp : V) : Quiet ops (makefh ops vp) := by
  unfold makefh
  split
  · exact .pure rfl
  · refine (read_quiet _ _ rfl).next ?_
    rintro (_ | fid)
    · exact .pure rfl
    · dsimp only
      split <;> exact .pure rfl

theorem diropres_obtains (vp : V) : Obtains ops (diropres ops vp) fun _ => -of vp := by
  refine (read_quiet _ _ rfl).next fun r => Does.next (ifok_does (fun _ => rfl) fun va =>
    (makefh_quiet vp).next fun fh => .pure rfl) fun dr => (rele_obtains vp).andThen fun _ => ?_
  exact .pure (add_zero _)

theorem rfs_getattr_quiet (fh : fhandle_t) : Quiet ops (rfs_getattr ops fh) :=
  withvp_does (fun _ => rfl) fun _ => (read_quiet _ _ rfl).next fun _ => .pure rfl

theorem rfs_setattr_quiet (args : nfssaargs) : Quiet ops (rfs_setattr ops args) :=
  withrw_does (fun _ => rfl) fun _ h => (write_quiet _ _ h).next fun _ =>
    ifok_does (fun _ => rfl) fun _ => (read_quiet _ _ rfl).next fun _ => .pure rfl

theorem rfs_lookup_quiet (da : nfsdiropargs) : Quiet ops (rfs_lookup ops da) := by
  refine withvp_does (fun _ => rfl) fun dvp => (callv_obtains id (read_quiet _ _ rfl)).andThen ?_
  rintro (e | vp)
  · exact .pure (add_zero _)
  · exact (diropres_obtains vp).mono fun r m hm => by simp [hm, got]

theorem rfs_readlink_quiet (fh : fhandle_t) : Quiet ops (rfs_readlink ops fh) :=
  withvp_does (fun _ => rfl) fun _ => read_quiet _ _ rfl

theorem readuio_quiet (vp : V) (va : vattr) (ra : nfsreadargs) : Quiet ops (readuio ops vp va ra) :=
  (read_quiet _ _ rfl).next fun _ => .pure rfl

theorem readdata_quiet (vp : V) (va : vattr) (ra : nfsreadargs) :
    Quiet ops (readdata ops vp va ra) := by
  unfold readdata
  dsimp only
  split
  · split
    · exact .pure rfl
    · refine (read_quiet _ _ rfl).next ?_
      rintro (e | bp)
      · exact readuio_quiet vp va ra
      · refine (hold_obtains vp).andThen fun _ =>
          (note_obtains (e := .replied vp) trivial).andThen fun _ => .pure ?_
        simp [event.held]
  · exact readuio_quiet vp va ra

theorem regattr_quiet (vp : V) : Quiet ops (regattr ops vp) :=
  get_quiet.next fun s => by
    split
    · exact .pure rfl
    · exact read_quiet _ _ rfl

theorem rfs_read_quiet (ra : nfsreadargs) : Quiet ops (rfs_read ops ra) := by
  refine withvp_does (fun _ => rfl) fun vp => (regattr_quiet vp).next fun r =>
    ifok_does (fun _ => rfl) fun va => get_quiet.next fun s => ?_
  have hlast : ∀ error : Except errno Unit, Quiet ops (ifok error fun _ => readdata ops vp va ra) :=
    fun error => ifok_does (fun _ => rfl) fun _ => readdata_quiet vp va ra
  split
  · refine (read_quiet _ _ rfl).next ?_
    rintro (e | u)
    · exact (read_quiet _ _ rfl).next hlast
    · exact hlast (.ok ())
  · exact hlast (.ok ())

theorem rfs_write_quiet (wa : nfswriteargs) : Quiet ops (rfs_write ops wa) := by
  have hwrite : ∀ vp, Quiet ops (VOP_WRITE ops vp wa.wa_offset wa.wa_data) := fun vp =>
    call_quiet _ fun _ h => absurd rfl h
  refine withvp_does (fun _ => rfl) fun vp => (regattr_quiet vp).next fun r =>
    ifok_does (fun _ => rfl) fun va => get_quiet.next fun s => ?_
  have hlast : ∀ error : Except errno Unit, Quiet ops (ifok error fun _ => do
      ifok (← VOP_WRITE ops vp wa.wa_offset wa.wa_data) fun _ => do
        return (← VOP_GETATTR ops vp).map vattr_to_nattr) :=
    fun error => ifok_does (fun _ => rfl) fun _ => (hwrite vp).next fun r =>
      ifok_does (fun _ => rfl) fun _ => (read_quiet _ _ rfl).next fun _ => .pure rfl
  split
  · exact (read_quiet _ _ rfl).next hlast
  · exact hlast (.ok ())

theorem rfs_rename_quiet (args : nfsrnmargs) : Quiet ops (rfs_rename ops args) :=
  withrw_does (fun _ => rfl) fun _ h => withrw_does (fun _ => rfl) fun _ h' =>
    call_quiet _ fun _ _ w hw => by
      rcases List.mem_pair.mp hw with rfl | rfl
      exacts [h, h']

theorem rfs_symlink_quiet (args : nfsslargs) : Quiet ops (rfs_symlink ops args) :=
  withrw_does (fun _ => rfl) fun _ h => write_quiet _ _ h

theorem nxtblk_quiet (vp : V) (count : BitVec 32) (fuel : ℕ) (rda_offset : BitVec 32) :
    Quiet ops (nxtblk ops vp count fuel rda_offset) := by
  induction fuel generalizing rda_offset with
  | zero => exact nofun
  | succ fuel ih =>
    exact (read_quiet _ _ rfl).next fun r => ifok_does (fun _ => rfl) fun (entries, resid) =>
      .ite (fun _ => ih _) fun _ => .pure rfl

theorem rfs_readdir_quiet (fuel : ℕ) (rda : nfsrddirargs) : Quiet ops (rfs_readdir ops fuel rda) :=
  withvp_does (fun _ => rfl) fun vp => (read_quiet _ _ rfl).next fun _ =>
    ifok_does (fun _ => rfl) fun _ => nxtblk_quiet vp _ _ _

theorem rfs_statfs_quiet (tsize : BitVec 32) (fh : fhandle_t) :
    Quiet ops (rfs_statfs ops tsize fh) :=
  withvp_does (fun _ => rfl) fun _ => (onfs_quiet _).next fun _ => .pure rfl

/-! ## The procedures that save their requests -/

/-- What is saved: a request that went well. -/
def saved (req : transaction) : Except errno α → List transaction
  | .ok _ => [req]
  | .error _ => []

/-- `x` gives back what it obtains, and saves the request if it went well. -/
abbrev Saves (ops : Vnodeops σ V) (req : transaction) (x : Nfsd σ V (Except errno α)) : Prop :=
  (effects ops).Does x fun r m => m = (0, .ofList (saved req r))

theorem savedup_saves (req : transaction) (r : Except errno α) :
    (effects ops).Does (savedup req r) fun r' m => r' = r ∧ m = (0, .ofList (saved req r)) := by
  cases r with
  | error e => exact .pure ⟨rfl, rfl⟩
  | ok a =>
    intro s r t h
    obtain ⟨⟨⟨⟩, u⟩, hsave, ⟨⟩⟩ := Option.bind_eq_some_iff.mp h
    obtain ⟨c, hc, ⟨⟩⟩ := Option.map_eq_some_iff.mp hsave
    refine ⟨_, ⟨rfl, rfl⟩, .refl _, ?_⟩
    show [req].foldlM DupCache.dupsave s.dups = some c
    rw [List.foldlM_cons, hc]
    rfl

theorem unlessdup_quiet (e : errno) (req : transaction) (r : Except errno Unit) :
    Quiet ops (unlessdup e req r) := by
  cases r with
  | ok u => exact .pure rfl
  | error e' =>
    unfold unlessdup
    dsimp only
    split
    · refine (svckudp_dup_quiet req).next fun b => ?_
      cases b <;> exact .pure rfl
    · exact .pure rfl

theorem Saves.intro {x : Nfsd σ V (Except errno α)} (req : transaction) (h : Quiet ops x) :
    Saves ops req (do savedup req (← x)) :=
  h.next fun r => (savedup_saves req r).mono fun r' m hm => by rw [hm.1, hm.2]

theorem createvp_obtains {dvp : V} (args : nfscreatargs) (req : transaction)
    (h : rdonly ops dvp = false) : Obtains ops (createvp ops dvp args req) (got id) := by
  refine (callv_obtains id (write_quiet _ _ h)).andThen fun r => ?_
  split
  · refine (svckudp_dup_quiet req).next fun b => ?_
    cases b with
    | false => exact .pure rfl
    | true => exact (callv_obtains id (read_quiet _ _ rfl)).mono fun r m hm => by simp [hm, got]
  · exact .pure (add_zero _)

theorem rfs_create_saves (args : nfscreatargs) (req : transaction) :
    Saves ops req (rfs_create ops args req) := by
  refine Saves.intro req (withrw_does (fun _ => rfl) fun dvp h =>
    (createvp_obtains args req h).andThen ?_)
  rintro (e | vp)
  · exact .pure (add_zero _)
  · exact (diropres_obtains vp).mono fun r m hm => by simp [hm, got]

theorem rfs_remove_saves (da : nfsdiropargs) (req : transaction) :
    Saves ops req (rfs_remove ops da req) :=
  Saves.intro req (withrw_does (fun _ => rfl) fun _ h =>
    (write_quiet _ _ h).next fun r => unlessdup_quiet _ req r)

theorem rfs_rmdir_saves (da : nfsdiropargs) (req : transaction) :
    Saves ops req (rfs_rmdir ops da req) :=
  Saves.intro req (withrw_does (fun _ => rfl) fun _ h =>
    (write_quiet _ _ h).next fun r => unlessdup_quiet _ req r)

theorem rfs_link_saves (args : nfslinkargs) (req : transaction) :
    Saves ops req (rfs_link ops args req) := by
  refine (fhtovp_obtains _).andThen ?_
  rintro (_ | fromvp)
  · exact .pure (add_zero _)
  refine (fhtovp_obtains _).andThen ?_
  rintro (_ | tovp)
  · exact (rele_obtains _).andThen fun _ => .pure (by simp [saved])
  have hlast : ∀ status : Except errno Unit, (effects ops).Does (do
      rele fromvp
      rele tovp
      savedup req status) fun r m =>
        (of fromvp, 0) + ((of tovp, 0) + m) = (0, .ofList (saved req r)) := by
    intro status
    refine (rele_obtains _).andThen fun _ => (rele_obtains _).andThen fun _ =>
      (savedup_saves req status).mono ?_
    rintro r m ⟨rfl, rfl⟩
    simp
  refine .ite (fun _ => hlast (.error .EROFS)) fun h => ?_
  refine (call_quiet _ fun _ _ w hw => ?_).next fun r => (unlessdup_quiet .EEXIST req r).next hlast
  rw [List.mem_singleton.mp hw]
  exact Bool.eq_false_iff.mpr h

/-- What is held comes to at most `n` vnodes, that are lost; `l` is saved. -/
def Loses (n : ℕ) (l : List transaction) (m : Effect V) : Prop :=
  ∃ lost : List V, lost.length ≤ n ∧ m = ((lost.map of).sum, .ofList l)

theorem loses_nil (n : ℕ) (l : List transaction) : Loses (V := V) n l (0, .ofList l) :=
  ⟨[], Nat.zero_le n, rfl⟩

theorem mkdirvp_loses {vp : V} (args : nfscreatargs) (req : transaction)
    (h : rdonly ops vp = false) : (effects ops).Does (mkdirvp ops vp args req) fun r m =>
      ∃ m', Loses 1 [] m' ∧ m = (got Prod.fst r, 0) + m' := by
  have hnone := loses_nil (V := V) 1 []
  refine (callv_obtains Prod.fst (write_quiet _ _ h)).andThen fun r => ?_
  split
  · refine (svckudp_dup_quiet req).next fun b => ?_
    cases b with
    | false => exact .pure ⟨0, hnone, rfl⟩
    | true =>
      refine (callv_obtains id (read_quiet _ _ rfl)).andThen ?_
      rintro (e | dvp)
      · exact .pure ⟨0, hnone, rfl⟩
      · refine (read_quiet _ _ rfl).next ?_
        rintro (e | va)
        · exact .pure ⟨(of dvp, 0), ⟨[dvp], le_rfl, by simp⟩, by simp [got, Except.map]⟩
        · exact .pure ⟨0, hnone, by simp [got, Except.map]⟩
  · exact .pure ⟨0, hnone, rfl⟩

theorem rfs_mkdir_loses (args : nfscreatargs) (req : transaction) :
    (effects ops).Does (rfs_mkdir ops args req) fun r m => Loses 1 (saved req r) m := by
  refine Does.bind (withrw_does (P := fun _ m => Loses 1 [] m) (fun _ => loses_nil 1 []) fun vp h =>
    (mkdirvp_loses args req h).bind ?_) fun r m hm => (savedup_saves req r).mono ?_
  · rintro (e | ⟨dvp, va⟩) _ ⟨m, ⟨lost, hlost, rfl⟩, rfl⟩
    · exact .pure ⟨lost, hlost, by simp [got]⟩
    · exact (makefh_quiet dvp).next fun fh => (rele_obtains dvp).andThen fun _ =>
        .pure ⟨lost, hlost, by simp [got]⟩
  · rintro _ _ ⟨rfl, rfl⟩
    obtain ⟨lost, hlost, rfl⟩ := hm
    exact ⟨lost, hlost, by simp⟩

/-! ## Requests -/

/-- What is saved of a call, by its result. -/
def rfscall.saved (req : transaction) : rfscall → rfsres → List transaction
  | .CREATE _, .diropres r | .MKDIR _, .diropres r => Nfs.saved req r
  | .REMOVE _, .status r | .LINK _, .status r | .RMDIR _, .status r => Nfs.saved req r
  | _, _ => []

/-- The call is an `RFS_MKDIR`. -/
def rfscall.isMkdir : rfscall → Bool
  | .MKDIR _ => true
  | _ => false

theorem dis_proc_loses (env : nfsenv) (req : transaction) (c : rfscall) :
    (effects ops).Does (dis_proc ops env req c) fun r m =>
      Loses c.isMkdir.toNat (c.saved req r) m := by
  cases c with
  | NULL | ROOT | WRITECACHE => exact .pure (loses_nil 0 [])
  | GETATTR fh => exact (rfs_getattr_quiet fh).next fun _ => .pure (loses_nil 0 [])
  | SETATTR args => exact (rfs_setattr_quiet args).next fun _ => .pure (loses_nil 0 [])
  | LOOKUP da => exact (rfs_lookup_quiet da).next fun _ => .pure (loses_nil 0 [])
  | READLINK fh => exact (rfs_readlink_quiet fh).next fun _ => .pure (loses_nil 0 [])
  | READ ra => exact (rfs_read_quiet ra).next fun _ => .pure (loses_nil 0 [])
  | WRITE wa => exact (rfs_write_quiet wa).next fun _ => .pure (loses_nil 0 [])
  | RENAME args => exact (rfs_rename_quiet args).next fun _ => .pure (loses_nil 0 [])
  | SYMLINK args => exact (rfs_symlink_quiet args).next fun _ => .pure (loses_nil 0 [])
  | READDIR rda => exact (rfs_readdir_quiet env.fuel rda).next fun _ => .pure (loses_nil 0 [])
  | STATFS fh => exact (rfs_statfs_quiet env.tsize fh).next fun _ => .pure (loses_nil 0 [])
  | CREATE args => exact (rfs_create_saves args req).andThen fun r => .pure ⟨[], le_rfl, add_zero _⟩
  | REMOVE da => exact (rfs_remove_saves da req).andThen fun r => .pure ⟨[], le_rfl, add_zero _⟩
  | LINK args => exact (rfs_link_saves args req).andThen fun r => .pure ⟨[], le_rfl, add_zero _⟩
  | RMDIR da => exact (rfs_rmdir_saves da req).andThen fun r => .pure ⟨[], le_rfl, add_zero _⟩
  | MKDIR args =>
    exact (rfs_mkdir_loses args req).bind fun r m hm => .pure (by rwa [add_zero])

/-- The request passes the tests of `rfs_dispatch`, and is an `RFS_MKDIR`. -/
def svc_req.isMkdir (env : nfsenv) (req : svc_req) : Bool := (req.accepted env).any rfscall.isMkdir

/-- What is saved of a request, by its result. -/
def svc_req.saved (env : nfsenv) (req : svc_req) (r : Option rfsres) : List Nfs.transaction :=
  match req.accepted env, r with
  | some c, some r => c.saved req.transaction r
  | _, _ => []

theorem rfs_dispatch_loses (env : nfsenv) (req : svc_req) :
    (effects ops).Does (rfs_dispatch ops env req) fun r m =>
      Loses (req.isMkdir env).toNat (req.saved env r) m := by
  unfold rfs_dispatch svc_req.isMkdir svc_req.saved
  cases req.accepted env with
  | none => exact .pure (loses_nil 0 [])
  | some c =>
    refine get_quiet.next fun s => ?_
    have hproc : (effects ops).Does (do
        let res ← dis_proc ops env req.transaction c
        modify fun t => { t with u_cred := s.u_cred }
        return some res) fun r m => Loses c.isMkdir.toNat
          (match some c, r with | some c, some r => c.saved req.transaction r | _, _ => []) m :=
      (dis_proc_loses env req.transaction c).bind fun r m hm =>
        (modify_quiet fun _ => s.u_cred).next fun _ => .pure (by rwa [add_zero])
    exact .ite (fun _ => (modify_quiet fun _ => req.cred).next fun _ => hproc) fun _ => hproc

/-- What the requests of a run lose and save. -/
theorem mapM_loses (env : nfsenv) (reqs : List svc_req) :
    (effects ops).Does (reqs.mapM (rfs_dispatch ops env)) fun rs m =>
      Loses (reqs.countP (svc_req.isMkdir env))
        (List.zipWith (svc_req.saved env) reqs rs).flatten m := by
  refine .mapM (R := fun reqs rs m => Loses (reqs.countP (svc_req.isMkdir env))
    (List.zipWith (svc_req.saved env) reqs rs).flatten m) ⟨[], le_rfl, rfl⟩ ?_
    (rfs_dispatch_loses env) reqs
  rintro req r _ reqs rs _ ⟨lost, hlost, rfl⟩ ⟨lost', hlost', rfl⟩
  refine ⟨lost ++ lost', ?_, by simp⟩
  rw [List.length_append, List.countP_cons, Nat.add_comm]
  refine Nat.add_le_add hlost' (hlost.trans ?_)
  cases req.isMkdir env <;> rfl

/-- **Requests, in any number and order**, modify nothing that is exported read-only, but by
`VOP_WRITE` and the first vnode of `VOP_LINK`; and each reference that they obtain is released or
left in a reply, but for at most one in each `RFS_MKDIR`. -/
theorem mapM_rfs_dispatch (env : nfsenv) (reqs : List svc_req) (s : server σ V) :
    Ends (reqs.mapM (rfs_dispatch ops env)) s fun _ t =>
      ∃ lost : List V, lost.length ≤ reqs.countP (svc_req.isMkdir env) ∧
        Added (Harmless ops) event.held s.log t.log (lost.map of).sum := by
  intro rs t h
  obtain ⟨_, ⟨lost, hlost, rfl⟩, hadd, -⟩ := mapM_loses env reqs s rs t h
  exact ⟨lost, hlost, hadd⟩

/-- **After any requests** to a server with an empty cache, `svckudp_dup` tells whether a request is
one of the last `MAXDUPREQS` that went well, of those that are saved. -/
theorem dup_mapM_rfs_dispatch (env : nfsenv) (reqs : List svc_req) (s : server σ V) :
    Ends (reqs.mapM (rfs_dispatch ops env)) { s with dups := .empty } fun rs t =>
      ∀ req, t.dups.dup req = some (decide
        (req ∈ (List.zipWith (svc_req.saved env) reqs rs).flatten.rtake MAXDUPREQS)) := by
  intro rs t h
  obtain ⟨_, ⟨lost, -, rfl⟩, -, hsave⟩ := mapM_loses env reqs _ rs t h
  obtain ⟨c, hc, hsaved⟩ := DupCache.saved_empty.foldlM
    (List.zipWith (svc_req.saved env) reqs rs).flatten
  obtain rfl : c = t.dups := Option.some.inj (hc.symm.trans hsave)
  exact hsaved.dup_eq

end Nfs
