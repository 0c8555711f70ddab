/-
# The window tree

The primitives of `wintree.c` over the windows of `win.c`, and the `ioctl`s of `winioctl.c` that
change links.  A window is known by its number.  What the primitives do to clipping lists, input
and colormaps changes no link and is left out; so are locks and sleeps, which only delay a call.
A null pointer that is followed gives `none`.
-/
import Mathlib.Data.Int.Order.Basic
import Mathlib.Data.List.Range
import Mathlib.Logic.Function.Basic

namespace Sunwindow

/-- The errors the window calls return. -/
inductive Errno
  | ENXIO | EACCES | EBUSY | EINVAL | ESPIPE
  deriving DecidableEq, Repr

/-- The links of a window. -/
inductive WL
  | PARENT | OLDERSIB | YOUNGERSIB | OLDESTCHILD | YOUNGESTCHILD
  deriving DecidableEq, Repr

/-- `struct window`: its flags, links and desktop. -/
structure window where
  /-- `WF_OPEN`: device is open. -/
  wf_open : Bool
  /-- `WF_INSTALLED`: installed in a tree. -/
  wf_installed : Bool
  /-- `WF_ROOTWINDOW`: root window of screen. -/
  wf_rootwindow : Bool
  w_link : WL → Option ℕ
  w_desktop : Option ℕ

/-- `struct desktop`: its flags, the shared lock block, and the root window. -/
structure desktop where
  /-- `DTF_PRESENT`: the screen exists. -/
  dtf_present : Bool
  /-- `DTF_EXITING`: process of destroying desktop. -/
  dtf_exiting : Bool
  shared_info : Bool
  dt_rootwin : Option ℕ

/-- A window that is all zeros. -/
def window.zero : window := ⟨false, false, false, fun _ => none, none⟩

/-- A desktop that is all zeros. -/
def desktop.zero : desktop := ⟨false, false, false, none⟩

/-- The windows, the desktops, and the number of windows open. -/
structure State where
  windows : ℕ → window
  desktops : ℕ → desktop
  winsopen : ℤ

namespace State

/-- Store the desktop `d`. -/
def setdtop (s : State) (d : ℕ) (v : desktop) : State :=
  { s with desktops := Function.update s.desktops d v }

/-- Store the window `w`. -/
def setwindow (s : State) (w : ℕ) (v : window) : State :=
  { s with windows := Function.update s.windows w v }

/-- `w->w_link[k]`. -/
def link (s : State) (w : ℕ) (k : WL) : Option ℕ := (s.windows w).w_link k

/-- `w->w_link[k] = v`. -/
def setlink (s : State) (w : ℕ) (k : WL) (v : Option ℕ) : State :=
  s.setwindow w { s.windows w with w_link := Function.update (s.windows w).w_link k v }

/-- Set the flag `WF_INSTALLED` of `w`. -/
def setinstalled (s : State) (w : ℕ) (b : Bool) : State :=
  s.setwindow w { s.windows w with wf_installed := b }

/-- Set the desktop of `w`. -/
def setdesktop (s : State) (w : ℕ) (d : Option ℕ) : State :=
  s.setwindow w { s.windows w with w_desktop := d }

/-- The window is open. -/
def isopen (s : State) (w : ℕ) : Bool := (s.windows w).wf_open

/-- The window is installed. -/
def installed (s : State) (w : ℕ) : Bool := (s.windows w).wf_installed

end State

open State

/-! ## wintree.c -/

/-- `wt_badchildren(win)`. -/
def wt_badchildren (s : State) (win : ℕ) : Bool :=
  (match s.link win .OLDESTCHILD with
    | some child => !s.installed child || s.link child .PARENT != some win ||
        (s.link child .OLDERSIB).isSome
    | none => false) ||
  (match s.link win .YOUNGESTCHILD with
    | some child => !s.installed child || s.link child .PARENT != some win ||
        (s.link child .YOUNGERSIB).isSome
    | none => false)

/-- The window goes in as the oldest child. -/
def wt_linkoldest (win parent : ℕ) (s : State) : Option State :=
  let s := s.setlink win .YOUNGERSIB (s.link parent .OLDESTCHILD)
  match s.link win .YOUNGERSIB with
  | none => none
  | some younger =>
    some ((s.setlink younger .OLDERSIB (some win)).setlink parent .OLDESTCHILD (some win))

/-- The window goes in as the youngest child. -/
def wt_linkyoungest (win parent : ℕ) (s : State) : Option State :=
  let s := s.setlink win .OLDERSIB (s.link parent .YOUNGESTCHILD)
  match s.link win .OLDERSIB with
  | none => none
  | some older =>
    some ((s.setlink older .YOUNGERSIB (some win)).setlink parent .YOUNGESTCHILD (some win))

/-- The siblings that a window asks for are not two installed windows side by side. -/
def wt_badsiblings (s : State) (older younger : ℕ) : Bool :=
  !s.installed older || !s.installed younger || s.link younger .OLDERSIB != some older ||
    s.link older .YOUNGERSIB != some younger

/-- `wt_install(win)` from `TryAgain` on: the links. -/
def wt_linkwin (win parent : ℕ) (s : State) : Option State :=
  if s.link parent .OLDESTCHILD = none ∧ s.link parent .YOUNGESTCHILD = none then
    let s := (s.setlink win .OLDERSIB none).setlink win .YOUNGERSIB none
    some ((s.setlink parent .OLDESTCHILD (some win)).setlink parent .YOUNGESTCHILD (some win))
  else
    match s.link win .OLDERSIB, s.link win .YOUNGERSIB with
    | none, _ => wt_linkoldest win parent s
    | some _, none => wt_linkyoungest win parent s
    | some older, some younger =>
      if wt_badsiblings s older younger then
        -- "Just place it on the bottom of sibling pile"
        wt_linkoldest win parent ((s.setlink win .YOUNGERSIB none).setlink win .OLDERSIB none)
      else some ((s.setlink older .YOUNGERSIB (some win)).setlink younger .OLDERSIB (some win))

/-- `wt_install(win)`. -/
def wt_install (win : ℕ) (s : State) : Option (State × Option Errno) :=
  if s.installed win then some (s, some .EBUSY)
  else if wt_badchildren s win then some (s, some .EINVAL)
  else
    match s.link win .PARENT with
    | none => some (s, some .EINVAL)
    | some parent => (wt_linkwin win parent s).map fun s => (s.setinstalled win true, none)

/-- `if (p) p->w_link[k] = v`. -/
def setlinkif (s : State) (p : Option ℕ) (k : WL) (v : Option ℕ) : State :=
  match p with
  | none => s
  | some p => s.setlink p k v

/-- `wt_remove(win)`. -/
def wt_remove (win parent : ℕ) (s : State) : State × Option Errno :=
  if s.installed win = false then (s, some .EINVAL)
  else
    let s := s.setinstalled win false
    let s := if s.link parent .OLDESTCHILD = some win then
      s.setlink parent .OLDESTCHILD (s.link win .YOUNGERSIB) else s
    let s := if s.link parent .YOUNGESTCHILD = some win then
      s.setlink parent .YOUNGESTCHILD (s.link win .OLDERSIB) else s
    let s := setlinkif s (s.link win .OLDERSIB) .YOUNGERSIB (s.link win .YOUNGERSIB)
    let s := setlinkif s (s.link win .YOUNGERSIB) .OLDERSIB (s.link win .OLDERSIB)
    (s, none)

/-- The loop of `wt_enumeratechildren` over the children, the youngest first; `enumerate` is the
call for each. -/
def wt_children (s : State) (enumerate : ℕ → Option (List ℕ)) : ℕ → Option ℕ → Option (List ℕ)
  | _, none => some []
  | 0, some _ => none
  | fuel + 1, some wchild =>
    (enumerate wchild).bind fun l =>
      (wt_children s enumerate fuel (s.link wchild .OLDERSIB)).map (l ++ ·)

/-- `wt_enumeratechildren(function, win, rect)`: the windows it calls `function` for.  The fuel
bounds the depth of the calls and the children of each window. -/
def wt_enumeratechildren (s : State) : ℕ → ℕ → Option (List ℕ)
  | 0, _ => none
  | fuel + 1, win =>
    (wt_children s (wt_enumeratechildren s fuel) fuel (s.link win .YOUNGESTCHILD)).map (win :: ·)

/-- The loop of `wt_isindisplaytree` over the children of the parent, in search of `w`. -/
def wt_amongchildren (s : State) (w : ℕ) : ℕ → Option ℕ → Option Bool
  | _, none => some false
  | 0, some _ => none
  | fuel + 1, some wchild =>
    if w = wchild then some true else wt_amongchildren s w fuel (s.link wchild .YOUNGERSIB)

/-- The loop of `wt_isindisplaytree` up the tree, from `w`; `rootwin` is the root of the display
tree of the window. -/
def wt_upward (s : State) (rootwin : Option ℕ) : ℕ → ℕ → Option Bool
  | 0, _ => none
  | fuel + 1, w =>
    match s.link w .PARENT with
    | none => some (rootwin = some w)
    | some wparent =>
      (wt_amongchildren s w fuel (s.link wparent .OLDESTCHILD)).bind fun found =>
        if found then wt_upward s rootwin fuel wparent else some false

/-- `wt_isindisplaytree(window)`. -/
def wt_isindisplaytree (s : State) (fuel window : ℕ) : Option Bool :=
  (s.windows window).w_desktop.bind fun d => wt_upward s (s.desktops d).dt_rootwin fuel window

/-! ## winioctl.c -/

/-- The number of a link. -/
def WL.decode (wl_which : ℤ) : Option WL :=
  [WL.PARENT, .OLDERSIB, .YOUNGERSIB, .OLDESTCHILD, .YOUNGESTCHILD][wl_which.toNat]?.filter
    fun _ => 0 ≤ wl_which

/-- `WIN_NULLLINK`. -/
def WIN_NULLLINK : ℤ := -1

section

variable (NWIN : ℕ)

/-- `wt_numbertowindow(number, aw)`. -/
def wt_numbertowindow (s : State) (number : ℤ) : Option (Option ℕ) :=
  if number = WIN_NULLLINK then some none
  else if number < 0 ∨ (NWIN : ℤ) ≤ number then none
  else if s.isopen number.toNat then some (some number.toNat)
  else none

/-- `WINSETLINK`, once the desktop has been looked at. -/
def winsetlink (w : ℕ) (wl_which wl_link : ℤ) (s : State) : State × Option Errno :=
  match WL.decode wl_which, wt_numbertowindow NWIN s wl_link with
  | none, _ => (s, some .EINVAL)
  | some _, none => (s, some .EINVAL)
  | some which, some windowlink =>
    if s.installed w ∨ windowlink = some w then (s, some .EINVAL)
    else
      let s := s.setlink w which windowlink
      match which, windowlink with
      | .PARENT, some parent =>
        let s := s.setdesktop w (s.windows parent).w_desktop
        match (s.windows w).w_desktop with
        | none => (s, none)
        | some d => if (s.desktops d).dtf_present then (s, none) else (s, some .EACCES)
      | _, _ => (s, none)

end

/-- `dtop_removewin(dtop, w)`.  The error of `wt_remove` is not below 0. -/
def dtop_removewin (w : ℕ) (s : State) : State × Option Errno :=
  match s.link w .PARENT with
  | none => (s, some .EINVAL)
  | some parent => ((wt_remove w parent s).1, none)

/-- The start of `winioctl`: an error, or the desktop that `WININSERT` and `WINREMOVE` need. -/
def winioctl_dtop (s : State) (w : ℕ) : Errno ⊕ ℕ :=
  match (s.windows w).w_desktop with
  | none => .inl .ESPIPE
  | some d =>
    if !(s.desktops d).shared_info then .inl .ESPIPE
    else if !(s.desktops d).dtf_present then .inl .EACCES
    else .inr d

/-- `winioctl(w, WINSETLINK, data)`. -/
def winioctl_setlink (NWIN w : ℕ) (wl_which wl_link : ℤ) (s : State) : State × Option Errno :=
  match (s.windows w).w_desktop with
  | none => winsetlink NWIN w wl_which wl_link s
  | some d =>
    if !(s.desktops d).shared_info then (s, some .ESPIPE)
    else winsetlink NWIN w wl_which wl_link s

/-- `winioctl(w, WININSERT)`. -/
def winioctl_insert (w : ℕ) (s : State) : Option (State × Option Errno) :=
  match winioctl_dtop s w with
  | .inl e => some (s, some e)
  | .inr d => if (s.desktops d).dtf_exiting then some (s, some .EACCES) else wt_install w s

/-- `winioctl(w, WINREMOVE)`. -/
def winioctl_remove (w : ℕ) (s : State) : State × Option Errno :=
  match winioctl_dtop s w with
  | .inl e => (s, some e)
  | .inr _ => dtop_removewin w s

/-- `winioctl(w, WINSCREENNEW, data)`: the window becomes the root of an unused desktop;
`openfb` is what `dtop_openfb` returns. -/
def winioctl_screennew (NDTOP w : ℕ) (openfb : Option Errno) (s : State) :
    State × Option Errno :=
  match (List.range NDTOP).find? fun d => !(s.desktops d).dtf_present with
  | none => (s, some .EBUSY)
  | some d =>
    if (s.desktops d).dt_rootwin.isSome then (s, some .EBUSY)
    else if s.installed w ∨ (s.link w .OLDERSIB).isSome ∨ (s.link w .YOUNGERSIB).isSome ∨
        wt_badchildren s w then (s, some .EINVAL)
    else
      let s := s.setdesktop w (some d)
      let s := s.setwindow w { s.windows w with wf_rootwindow := true }
      let s := s.setdtop d { s.desktops d with dt_rootwin := some w }
      match openfb with
      | some e => (s, some e)
      | none =>
        ((s.setinstalled w true).setdtop d
          { s.desktops d with shared_info := true, dtf_present := true }, none)

/-! ## win.c -/

open Errno

/-- `winopen(dev, flag)`; `excl` is `WIN_EXCLOPEN`. -/
def winopen (NWIN w : ℕ) (excl : Bool) (s : State) : State × Option Errno :=
  if NWIN ≤ w then (s, some ENXIO)
  else if excl && s.isopen w then (s, some .EACCES)
  else if s.isopen w then (s, none)
  else
    let s := s.setwindow w
      { s.windows w with wf_open := true, wf_installed := false, wf_rootwindow := false }
    ({ s with winsopen := s.winsopen + 1 }, none)

/-- The loop of `winclose` that removes exiting children's references to the window. -/
def orphan : ℕ → Option ℕ → State → Option State
  | _, none, s => some s
  | 0, some _, _ => none
  | fuel + 1, some wchild, s =>
    orphan fuel (s.link wchild .OLDERSIB) (s.setlink wchild .PARENT none)

/-- The desktop of the window, if it is still around. -/
def dtop_present (s : State) (w : ℕ) : Option ℕ :=
  (s.windows w).w_desktop.filter fun d => (s.desktops d).dtf_present

/-- "Remove from tree and fixup screen", and "Reset any desktop references to w". -/
def winclose_remove (dtop : Option ℕ) (w : ℕ) (s : State) : State :=
  match dtop with
  | none => s
  | some d =>
    let s := if s.installed w then (dtop_removewin w s).1 else s
    if (s.desktops d).dt_rootwin = some w then
      s.setdtop d { s.desktops d with dt_rootwin := none }
    else s

/-- "If w is rootwindow then close desktop as well": `dtop_close(dtop)`. -/
def winclose_root (dtop : Option ℕ) (w : ℕ) (s : State) : Option State :=
  if (s.windows w).wf_rootwindow then dtop.map fun d => s.setdtop d desktop.zero else some s

/-- The window is zeroed, and all of them when none is open: "Just deallocate when no more
windows around". -/
def winclose_wipe (w : ℕ) (s : State) : State :=
  let s := s.setwindow w window.zero
  if s.winsopen = 0 then { s with windows := fun _ => window.zero } else s

/-- `winclose(dev, flag)`.  The fuel bounds the loop over the children. -/
def winclose (fuel w : ℕ) (s : State) : Option State :=
  let dtop := dtop_present s w
  let s := winclose_remove dtop w { s with winsopen := s.winsopen - 1 }
  (orphan fuel (s.link w .YOUNGESTCHILD) s).bind fun s =>
    (winclose_root dtop w s).map (winclose_wipe w)

/-! ## Calls -/

/-- A call of a process. -/
inductive Event
  | winopen (w : ℕ) (excl : Bool)
  | setlink (w : ℕ) (wl_which wl_link : ℤ)
  | insert (w : ℕ)
  | remove (w : ℕ)
  | screennew (w : ℕ) (openfb : Option Errno)
  | winclose (w : ℕ)

/-- Any process makes a call, on a window that is open, and it returns. -/
def Step (NWIN NDTOP : ℕ) (s : State) : Event → State → Prop
  | .winopen w excl, s' => (winopen NWIN w excl s).1 = s'
  | .setlink w which link, s' => s.isopen w ∧ (winioctl_setlink NWIN w which link s).1 = s'
  | .insert w, s' => s.isopen w ∧ ∃ r, winioctl_insert w s = some (s', r)
  | .remove w, s' => s.isopen w ∧ (winioctl_remove w s).1 = s'
  | .screennew w fb, s' => s.isopen w ∧ (winioctl_screennew NDTOP w fb s).1 = s'
  | .winclose w, s' => s.isopen w ∧ ∃ fuel, winclose fuel w s = some s'

/-- No window is open and there is no desktop. -/
def init : State := ⟨fun _ => window.zero, fun _ => desktop.zero, 0⟩

end Sunwindow
