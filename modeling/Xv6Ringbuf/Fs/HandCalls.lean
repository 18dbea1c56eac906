import Xv6Ringbuf.Fs.Hand

namespace Xv6Ringbuf.Fs

open Interleave Protocol

namespace Fsys

variable (sb : Superblock) {hand : Hand}

theorem endOp_light {α : Type} (value : α) : Light (do
    endOp
    return value) :=
  endOp_silent.bind_light fun _ => .ret value

theorem openFail_light (ip : Ip) : Light (openFail sb ip) :=
  (iunlockput_light sb ip).bind fun _ => endOp_light _

theorem linkBad_light (ip : Ip) : Light (linkBad sb ip) :=
  (ilock_silent sb ip).bind_light fun _ => (setNlink_silent sb ip _).bind_light fun _ =>
    openFail_light sb ip

theorem sysLink_bounded (old new : List UInt8) : Bounded (sysLink sb old new) [] := by
  refine (beginOp_silent []).bind fun _ => (namei_handles sb old (by simp)).bind ?_
  rintro r _ rfl
  cases r with
  | none => exact endOp_light _ _
  | some ip =>
    refine (ilock_silent sb ip _).bind fun _ => (inode_silent ip _).bind fun _ => ?_
    refine obeys_ite (fun _ => openFail_light sb ip _) fun _ => ?_
    refine (setNlink_silent sb ip _ _).bind fun _ => (iunlock_silent ip _).bind fun _ => ?_
    refine (namex_handles sb true new (by simp [found])).bind ?_
    rintro r _ rfl
    cases r with
    | none => exact linkBad_light sb ip _
    | some r =>
      obtain ⟨dp, name⟩ := r
      have hbad : Light (do
          iunlockput sb dp
          linkBad sb ip) :=
        (iunlockput_light sb dp).bind fun _ => linkBad_light sb ip
      refine (ilock_silent sb dp _).bind fun _ => (inode_silent dp _).bind fun _ => ?_
      refine (inode_silent ip _).bind fun _ => obeys_ite (fun _ => hbad _) fun _ => ?_
      refine (inode_silent ip _).bind fun _ => ?_
      refine (dirlink_keeps sb dp name _ (by simp [found, given])).bind fun _ => ?_
      refine obeys_ite (fun _ => ?_) fun _ => hbad _
      exact (iunlockput_light sb dp).bind (fun _ => (iput_light sb ip).bind fun _ => endOp_light _) _

theorem sysUnlink_bounded (path : List UInt8) : Bounded (sysUnlink sb path) [] := by
  refine (beginOp_silent []).bind fun _ => (namex_handles sb true path (by simp)).bind ?_
  rintro r _ rfl
  cases r with
  | none => exact endOp_light _ _
  | some r =>
    obtain ⟨dp, name⟩ := r
    refine (ilock_silent sb dp _).bind fun _ => obeys_ite (fun _ => openFail_light sb dp _) fun _ => ?_
    refine (dirlookup_handles sb dp name (by simp [given])).bind ?_
    rintro r _ rfl
    cases r with
    | none => exact openFail_light sb dp _
    | some r =>
      obtain ⟨ip, off⟩ := r
      have hend : Light (do
          iunlockput sb dp
          setNlink sb ip (· - 1)
          iunlockput sb ip
          endOp
          return (0 : Int)) :=
        (iunlockput_light sb dp).bind fun _ => (setNlink_silent sb ip _).bind_light fun _ =>
          (iunlockput_light sb ip).bind fun _ => endOp_light _
      refine (ilock_silent sb ip _).bind fun _ => (inode_silent ip _).bind fun _ => ?_
      refine obeys_ite (fun _ => handles_panic (by simp)) fun _ => ?_
      refine (nonempty_silent sb ip _).bind fun refused => obeys_ite (fun _ => ?_) fun _ => ?_
      · exact (iunlockput_light sb ip).bind (fun _ => openFail_light sb dp) _
      · refine (writei_silent sb dp _ _ _ _).bind fun r => ?_
        refine obeys_ite (fun _ => handles_panic (by simp)) fun _ => (inode_silent ip _).bind fun _ => ?_
        refine obeys_ite (fun _ => ?_) fun _ => hend _
        exact (setNlink_silent sb dp _ _).bind fun _ => hend _

theorem createEntries_keeps (dp ip : Ip) (name : List UInt8) (type : Int16) (h : hand.length ≤ 2) :
    Keeps Hand.rules (createEntries sb dp ip name type) hand := by
  refine (inode_silent ip hand).bind fun _ => obeys_ite (fun _ => ?_) fun _ => ?_
  · refine (dirlink_keeps sb ip _ _ h).bind fun _ => obeys_ite (fun _ => ?_) fun _ => rfl
    refine (inode_silent dp hand).bind fun _ => (dirlink_keeps sb ip _ _ h).bind fun _ => ?_
    exact obeys_ite (fun _ => dirlink_keeps sb dp _ _ h) fun _ => rfl
  · exact dirlink_keeps sb dp _ _ h

theorem createFail_light (dp ip : Ip) : Light (createFail sb dp ip) :=
  (setNlink_silent sb ip _).bind_light fun _ => (iunlockput_light sb ip).bind fun _ =>
    (iunlockput_light sb dp).bind fun _ => .ret _

theorem create_bounded (path : List UInt8) (type major minor : Int16) :
    Bounded (create sb path type major minor) [] := by
  refine (namex_handles sb true path (by simp)).bind ?_
  rintro r _ rfl
  cases r with
  | none => exact trivial
  | some r =>
    obtain ⟨dp, name⟩ := r
    have hput (result : Option Ip) : Light (do
        iunlockput sb dp
        return result) := (iunlockput_light sb dp).bind fun _ => .ret _
    refine (ilock_silent sb dp _).bind fun _ => (dirlookup_handles sb dp name (by simp [given])).bind ?_
    rintro r _ rfl
    cases r with
    | some r =>
      obtain ⟨ip, off⟩ := r
      refine (iunlockput_light sb dp).bind (fun _ => ?_) _
      refine (ilock_silent sb ip).bind_light fun _ => (inode_silent ip).bind_light fun _ => ?_
      exact light_ite (.ret _) ((iunlockput_light sb ip).bind fun _ => .ret _)
    | none =>
      refine (inode_silent dp _).bind fun entry => (ialloc_handles sb entry.dev type ?_).bind ?_
      · simp [given]
      · rintro r _ rfl
        cases r with
        | none => exact hput _ _
        | some ip =>
          refine (ilock_silent sb ip _).bind fun _ => (inode_silent ip _).bind fun _ => ?_
          refine handles_silent trivial fun _ => (iupdate_silent sb ip _).bind fun _ => ?_
          refine (createEntries_keeps sb dp ip name type (by simp [given, found])).bind fun linked => ?_
          refine obeys_ite (fun _ => ?_) fun _ => createFail_light sb dp ip _
          refine obeys_ite (fun _ => ?_) fun _ => hput _ _
          exact (setNlink_silent sb dp _ _).bind fun _ => hput _ _

theorem fileclose_light (f : Fp) : Light (fileclose sb f) := by
  refine light_act trivial fun file => ?_
  cases file with
  | none => exact .ret _
  | some file =>
    refine light_ite ?_ (.ret _)
    exact beginOp_silent.bind_light fun _ => (iput_light sb file.ip).bind fun _ => endOp_silent.light

theorem fdalloc_silent (f : Fp) : Silent (fdalloc f) := by
  refine silent_act trivial fun p => ?_
  simp only [Prog.bind]
  split
  · exact silent_ret _
  · exact silent_act trivial fun _ => silent_ret _

theorem openFile_light (ip : Ip) (omode : Omode) : Light (openFile sb ip omode) := by
  refine (inode_silent ip).bind_light fun entry => light_ite (openFail_light sb ip) ?_
  refine light_act trivial fun f => ?_
  cases f with
  | none => exact openFail_light sb ip
  | some f =>
    refine (fdalloc_silent f).bind_light fun fd => ?_
    cases fd with
    | none => exact (fileclose_light sb f).bind fun _ => openFail_light sb ip
    | some fd =>
      have hend : Light (do
          iunlock ip
          endOp
          return (fd.val : Int)) := (iunlock_silent ip).bind_light fun _ => endOp_light _
      refine light_act trivial fun file => light_act trivial fun _ => light_ite ?_ hend
      exact (itrunc_silent sb ip).bind_light fun _ => hend

theorem sysOpen_bounded (path : List UInt8) (omode : Omode) : Bounded (sysOpen sb path omode) [] := by
  refine (beginOp_silent []).bind fun _ => obeys_ite (fun _ => ?_) fun _ => ?_
  · refine (create_bounded sb path T_FILE 0 0).bind fun r hand _ => ?_
    cases r with
    | none => exact endOp_light _ _
    | some ip => exact openFile_light sb ip omode _
  · refine (namei_handles sb path (by simp)).bind fun r hand _ => ?_
    cases r with
    | none => exact endOp_light _ _
    | some ip =>
      refine (ilock_silent sb ip _).bind fun _ => (inode_silent ip _).bind fun _ => ?_
      exact obeys_ite (fun _ => openFail_light sb ip _) fun _ => openFile_light sb ip omode _

theorem sysMk_bounded (path : List UInt8) (type major minor : Int16) :
    Bounded (sysMk sb path type major minor) [] := by
  refine (beginOp_silent []).bind fun _ => ?_
  refine (create_bounded sb path type major minor).bind fun r hand _ => ?_
  cases r with
  | none => exact endOp_light _ _
  | some ip => exact (iunlockput_light sb ip).bind (fun _ => endOp_light _) _

theorem sysChdir_bounded (path : List UInt8) : Bounded (sysChdir sb path) [] := by
  refine (beginOp_silent []).bind fun _ => (namei_handles sb path (by simp)).bind fun r hand _ => ?_
  cases r with
  | none => exact endOp_light _ _
  | some ip =>
    refine (ilock_silent sb ip _).bind fun _ => (inode_silent ip _).bind fun _ => ?_
    refine obeys_ite (fun _ => openFail_light sb ip _) fun _ => ?_
    refine (iunlock_silent ip _).bind fun _ => handles_silent trivial fun p => ?_
    refine (iput_light sb p.cwd).bind (fun _ => endOp_silent.bind_light fun _ => ?_) _
    exact light_act trivial fun _ => .ret _

theorem sysClose_light (fd : Fd) : Light (sysClose sb fd) := by
  refine light_act trivial fun p => ?_
  simp only [Prog.bind]
  split
  · exact .ret _
  · exact light_act trivial fun _ => (fileclose_light sb _).bind fun _ => .ret _

theorem sysDup_silent (fd : Fd) : Silent (sysDup fd) := by
  refine silent_act trivial fun p => ?_
  simp only [Prog.bind]
  split
  · exact silent_ret _
  · refine (fdalloc_silent _).bind fun new => ?_
    cases new with
    | none => exact silent_ret _
    | some new => exact silent_act trivial fun _ => silent_ret _

theorem advance_silent (f : Fp) (r : Int) : Silent (advance f r) :=
  silent_ite (silent_act trivial fun _ => silent_act trivial fun _ => silent_ret _) (silent_ret _)

theorem fileread_silent (f : Fp) (dst : Dst) (n : Int32) (device : Int) :
    Silent (fileread sb f dst n device) := by
  refine silent_act trivial fun file => silent_ite (silent_ret _) ?_
  cases file.type with
  | FD_NONE => exact silent_panic (by simp)
  | FD_DEVICE => exact silent_ret _
  | FD_INODE =>
    refine (ilock_silent sb file.ip).bind fun _ => silent_act trivial fun _ => ?_
    refine (readi_silent sb file.ip dst _ _).bind fun r => (advance_silent f r.1).bind fun _ => ?_
    exact (iunlock_silent file.ip).bind fun _ => silent_ret _

theorem filewriteFrom_silent (f : Fp) (ip : Ip) (src : Src) (n rounds i : Nat) :
    Silent (filewriteFrom sb f ip src n rounds i) := by
  induction rounds generalizing i with
  | zero => exact silent_ret _
  | succ rounds ih =>
    refine silent_ite ?_ (silent_ret _)
    refine beginOp_silent.bind fun _ => (ilock_silent sb ip).bind fun _ => ?_
    refine silent_act trivial fun _ => (writei_silent sb ip _ _ _).bind fun r => ?_
    refine (advance_silent f r).bind fun _ => (iunlock_silent ip).bind fun _ => ?_
    exact endOp_silent.bind fun _ => silent_ite (silent_ret _) (ih _)

theorem filewrite_silent (f : Fp) (src : Src) (n : Int32) (device : Int) :
    Silent (filewrite sb f src n device) := by
  refine silent_act trivial fun file => silent_ite (silent_ret _) ?_
  cases file.type with
  | FD_NONE => exact silent_panic (by simp)
  | FD_DEVICE => exact silent_ret _
  | FD_INODE => exact (filewriteFrom_silent sb f file.ip src _ _ _).bind fun _ => silent_ret _

-- A transaction of a write has room for three blocks of data.
example : maxWrite = 3 * BSIZE := by decide +kernel

theorem filestat_silent (f : Fp) (copied : Bool) : Silent (filestat sb f copied) := by
  refine silent_act trivial fun file => silent_ite ?_ (silent_ret _)
  refine (ilock_silent sb file.ip).bind fun _ => (inode_silent file.ip).bind fun _ => ?_
  exact (iunlock_silent file.ip).bind fun _ => silent_ret _

theorem argfd_silent (fd : Fd) {call : Fp → Fsys Int} (hcall : ∀ f, Silent (call f)) :
    Silent (argfd fd call) := by
  refine silent_act trivial fun p => ?_
  simp only [Prog.bind]
  split
  · exact silent_ret _
  · exact hcall _

theorem readParts_silent (ip : Ip) (parts : List (UInt32 × UInt32)) :
    Silent (readParts sb ip parts) := by
  induction parts with
  | nil => exact silent_ret _
  | cons part parts ih => exact (readi_silent sb ip kernelDst _ _).bind fun _ => ih

theorem exec_bounded (path : List UInt8) (parts : List (UInt32 × UInt32)) (result : Int) :
    Bounded (exec sb path parts result) [] := by
  refine (beginOp_silent []).bind fun _ => (namei_handles sb path (by simp)).bind fun r hand _ => ?_
  cases r with
  | none => exact endOp_light _ _
  | some ip =>
    refine (ilock_silent sb ip _).bind fun _ => (readParts_silent sb ip parts _).bind fun _ => ?_
    exact (iunlockput_light sb ip).bind (fun _ => endOp_light _) _

theorem forkFiles_silent (ofile : Fd → Option Fp) (fds : List Fd) : Silent (forkFiles ofile fds) := by
  induction fds with
  | nil => exact silent_ret _
  | cons fd fds ih =>
    unfold forkFiles
    split
    · exact ih
    · exact silent_act trivial fun _ => ih

theorem fork_bounded : Bounded fork [] := by
  refine handles_silent trivial fun parent => (forkFiles_silent parent.ofile _ []).bind fun _ => ?_
  exact obeys_act (Nat.zero_le 2) fun _ => trivial

theorem exitFiles_light (fds : List Fd) : Light (exitFiles sb fds) := by
  induction fds with
  | nil => exact .ret _
  | cons fd fds ih =>
    refine light_act trivial fun p => ?_
    simp only [Prog.bind]
    split
    · exact ih
    · exact (fileclose_light sb _).bind fun _ => light_act trivial fun _ => ih

theorem exit_light : Light (exit sb) := by
  refine (exitFiles_light sb _).bind fun _ => beginOp_silent.bind_light fun _ => ?_
  refine light_act trivial fun p => (iput_light sb p.cwd).bind fun _ => endOp_silent.light

end Fsys

theorem Syscall.code_bounded (sb : Superblock) (call : Syscall) : Bounded (call.code sb) [] := by
  cases call with
  | «open» path omode => exact Fsys.sysOpen_bounded sb path omode
  | close fd => exact Fsys.sysClose_light sb fd []
  | dup fd => exact (Fsys.sysDup_silent fd).light []
  | read fd dst n device =>
    exact (Fsys.argfd_silent fd fun f => Fsys.fileread_silent sb f dst n device).light []
  | write fd src n device =>
    exact (Fsys.argfd_silent fd fun f => Fsys.filewrite_silent sb f src n device).light []
  | fstat fd copied => exact (Fsys.argfd_silent fd fun f => Fsys.filestat_silent sb f copied).light []
  | link old new => exact Fsys.sysLink_bounded sb old new
  | unlink path => exact Fsys.sysUnlink_bounded sb path
  | mkdir path => exact Fsys.sysMk_bounded sb path T_DIR 0 0
  | mknod path major minor => exact Fsys.sysMk_bounded sb path T_DEVICE major minor
  | chdir path => exact Fsys.sysChdir_bounded sb path
  | exec path parts result => exact Fsys.exec_bounded sb path parts result

end Xv6Ringbuf.Fs
