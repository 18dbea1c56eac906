import Xv6Ringbuf.Fs.Codec
import Xv6Ringbuf.Fs.Kern
import Xv6Ringbuf.Fs.Volume
import Xv6Ringbuf.Handler

namespace Xv6Ringbuf.Fs

open Interleave Machine Handler Function

def Sys.OnDisk : Sys → Prop
  | .bio _ => True
  | .logWrite _ => True
  | .beginOp => True
  | .endOp => True
  | .committed _ => True
  | _ => False

def Sys.logs : Sys → List Blockno
  | .logWrite b => [b]
  | _ => []

namespace Kern

variable {P : Type}

def take (s : Kern P) (b : Blockno) : Kern P := s.hold b (some (s.visible b, false))

def spoil (s : Kern P) (b : Blockno) (data : Block) : Kern P :=
  { s with unlogged := Function.update s.unlogged b (some data) }

theorem hold_hold (s : Kern P) (b : Blockno) (x y : Option (Block × Bool)) :
    (s.hold b x).hold b y = s.hold b y := by
  simp [hold, update_idem]

theorem hold_none {s : Kern P} {b : Blockno} (h : s.held b = none) : s.hold b none = s := by
  rw [hold, ← h, update_eq_self]

theorem held_hold (s : Kern P) (b : Blockno) (x : Option (Block × Bool)) :
    (s.hold b x).held b = x :=
  update_self ..

abbrev view (s : Kern P) : Disk := s.visible

@[simp] theorem view_put (s : Kern P) (b : Blockno) (data : Block) :
    (s.put b data).view = update s.view b data := by
  funext b'
  by_cases h : b' = b
  · simp [view, visible, put, h]
  · simp [view, visible, put, update_of_ne h]

@[simp] theorem view_spoil (s : Kern P) (b : Blockno) (data : Block) :
    (s.spoil b data).view = update s.view b data := by
  funext b'
  by_cases h : b' = b
  · simp [view, visible, spoil, h]
  · simp [view, visible, spoil, update_of_ne h]

@[simp] theorem view_setMem (s : Kern P) (m : Mem P) : (s.setMem m).view = s.view := rfl

@[simp] theorem view_take (s : Kern P) (b : Blockno) : (s.take b).view = s.view := rfl

variable [DecidableEq P] {p : P} {s : Kern P} {a : Sys}

theorem handle_bio (a : Act) : s.handle p (.bio a) = s.bio a := rfl

theorem handle_log (b : Blockno) : s.handle p (.logWrite b) = s.logWrite b := rfl

theorem handle_mem (h : ¬a.OnDisk) :
    s.handle p a = s.memory (s.toMem.handle p a) := by
  cases a with
  | bio _ | logWrite _ | beginOp | endOp | committed _ => exact absurd trivial h
  | _ => rfl

theorem handle_disk {s' : Kern P} {answer : a.Answer} (ha : a.OnDisk)
    (h : s.handle p a = .ok (answer, s')) : s'.toMem = s.toMem := by
  cases a with
  | bio a =>
    cases a with
    | bread _ =>
      simp only [handle_bio, bio] at h
      split at h
      · cases h
      · cases h
        rfl
    | memmove _ _ =>
      simp only [handle_bio, bio] at h
      split at h
      · cases h
        rfl
      · cases h
    | brelse _ =>
      simp only [handle_bio, bio] at h
      split at h
      · cases h
        split
        · rfl
        · rfl
      · cases h
    | bwrite _ | bpin _ | bunpin _ => cases h
  | logWrite b =>
    simp only [handle_log, logWrite] at h
    split at h
    · cases h
      rfl
    · cases h
  | beginOp | endOp | committed _ =>
    cases h
    rfl
  | _ => exact ha.elim

theorem handle_disk_error {stop : Stop} (ha : a.OnDisk) (h : s.handle p a = .error stop) :
    stop = .hang := by
  cases a with
  | bio a =>
    cases a with
    | bread _ =>
      simp only [handle_bio, bio] at h
      split at h
      · cases h
        rfl
      · cases h
    | memmove _ _ | brelse _ =>
      simp only [handle_bio, bio] at h
      split at h
      · cases h
      · cases h
        rfl
    | bwrite _ | bpin _ | bunpin _ =>
      cases h
      rfl
  | logWrite b =>
    simp only [handle_log, logWrite] at h
    split at h
    · cases h
    · cases h
      rfl
  | beginOp | endOp | committed _ => cases h
  | _ => exact ha.elim

-- Run by process `p` from `s`, the code ends in `Q`, or stops for a reason in `E`.
abbrev Runs {α : Type} (p : P) (call : Fsys α) (s : Kern P) (Q : α → Kern P → Prop)
    (E : Stop → Prop) : Prop :=
  wp (run p call) s Q E

variable {α : Type} {s' : Kern P} {Q : α → Kern P → Prop} {E : Stop → Prop}

variable {b : Blockno}

theorem handle_bread (h : s.held b = none) :
    s.handle p (.bio (.bread b)) = .ok (s.visible b, s.take b) := by
  simp [handle_bio, bio, h, take]

theorem handle_brelse (hfree : s.held b = none) :
    (s.take b).handle p (.bio (.brelse b)) = .ok ((), s) := by
  simp [handle_bio, bio, take, held_hold, hold_hold, hold_none hfree]

theorem handle_memmove (b : Blockno) (data : Block) :
    (s.take b).handle p (.bio (.memmove b data)) = .ok ((), s.hold b (some (data, true))) := by
  simp [handle_bio, bio, take, held_hold, hold_hold]

theorem handle_logWrite (b : Blockno) (data : Block) :
    (s.hold b (some (data, true))).handle p (.logWrite b) =
      .ok ((), (s.put b data).hold b (some (data, false))) := by
  simp [handle_log, logWrite, hold, put, update_idem]

theorem handle_brelse_logged (data : Block) (hfree : s.held b = none) :
    ((s.put b data).hold b (some (data, false))).handle p (.bio (.brelse b)) = .ok ((), s.put b data) := by
  have hfree' : (s.put b data).held b = none := hfree
  simp [handle_bio, bio, held_hold, hold_hold, hold_none hfree']

theorem handle_brelse_changed (data : Block) (hfree : s.held b = none) :
    (s.hold b (some (data, true))).handle p (.bio (.brelse b)) = .ok ((), s.spoil b data) := by
  have hheld : update s.held b none = s.held := by
    rw [← hfree, update_eq_self]
  simp [handle_bio, bio, hold, spoil, hheld]

-- Run by process `p` from `s`, the code ends in `Q`, which also knows the blocks
-- that the code has logged.
abbrev Logs {α : Type} (p : P) (call : Fsys α) (s : Kern P) (Q : α → Kern P → List Blockno → Prop)
    (E : Stop → Prop) : Prop :=
  Notes (fun a s => s.handle p a) Sys.logs .hang call s Q E

variable {Q : α → Kern P → List Blockno → Prop}

theorem Logs.runs {call : Fsys α} (h : Logs p call s Q E) {Q' : α → Kern P → Prop}
    (hQ : ∀ value s' l, Q value s' l → Q' value s') : Runs p call s Q' E :=
  notes_iff_wp.mp (h.mono hQ fun _ h => h)

theorem logs_pure {value : α} (h : Q value s []) : Logs p (pure value : Fsys α) s Q E := h

variable {i : Ip} {next : Unit → Fsys α} {data : Block}

theorem logs_inode {next : Inode → Fsys α} (h : Logs p (next (s.table i)) s Q E) :
    Logs p (Fsys.inode i >>= next) s Q E :=
  notes_act rfl h

theorem logs_setDin {din : Dinode} (h : Logs p (next ()) (s.setMem (s.toMem.setDin i din)) Q E) :
    Logs p (Fsys.setDin i din >>= next) s Q E :=
  notes_act rfl h

theorem logs_bread {next : Block → Fsys α} (hfree : s.held b = none)
    (h : Logs p (next (s.view b)) (s.take b) Q E) : Logs p (Fsys.bread b >>= next) s Q E :=
  notes_act (handle_bread hfree) h

theorem logs_brelse (hfree : s.held b = none) (h : Logs p (next ()) s Q E) :
    Logs p (Fsys.brelse b >>= next) (s.take b) Q E :=
  notes_act (handle_brelse hfree) h

theorem logs_log (hfree : s.held b = none)
    (h : Logs p (next ()) (s.put b data) (fun value s' l => Q value s' (b :: l)) E) :
    Logs p (Fsys.memmove b data >>= fun _ => Fsys.logWrite b >>= fun _ => Fsys.brelse b >>= next)
      (s.take b) Q E :=
  notes_act (handle_memmove b data) (notes_act (handle_logWrite b data)
    (notes_act (handle_brelse_logged data hfree) h))

theorem logs_spoil (hfree : s.held b = none) (h : Logs p (next ()) (s.spoil b data) Q E) :
    Logs p (Fsys.memmove b data >>= fun _ => Fsys.brelse b >>= next) (s.take b) Q E :=
  notes_act (handle_memmove b data) (notes_act (handle_brelse_changed data hfree) h)

end Kern

end Xv6Ringbuf.Fs
