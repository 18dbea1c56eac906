import Xv6Ringbuf.Fs.File
import Xv6Ringbuf.Protocol

namespace Xv6Ringbuf.Fs

open Interleave Protocol

-- The references to inodes that a process has taken in the system call it is in.
-- What it had before the call, it may give back in the call too: then the erased
-- reference is not on the list.
abbrev Hand := List Ip

namespace Hand

def move (hand : Hand) : (a : Sys) → a.Answer → Hand
  | .iget _ _, i => i :: hand
  | .idup i, _ => i :: hand
  | .drop i, _ => hand.erase i
  | _, _ => hand

-- A call takes a third reference at most, and only `iget` finds the table full.
def ok (hand : Hand) : Sys → Prop
  | .iget _ _ => hand.length ≤ 2
  | .idup _ => hand.length ≤ 2
  | .panic q => q ≠ .igetNoInodes
  | _ => True

def rules : Rules Sys Sys.Answer Hand := ⟨ok, move⟩

theorem erase_second {α : Type} [DecidableEq α] (a b : α) (l : List α) :
    (a :: b :: l).erase b = a :: l := by
  by_cases hab : a = b
  · rw [hab, List.erase_cons_head]
  · rw [List.erase_cons_tail (by simpa using hab), List.erase_cons_head]

theorem length_move {hand : Hand} (h : hand.length ≤ 3) {a : Sys} (hok : ok hand a)
    (answer : a.Answer) : (move hand a answer).length ≤ 3 := by
  cases a with
  | iget _ _ | idup _ =>
    have hfew : hand.length ≤ 2 := hok
    simp only [move, List.length_cons]
    omega
  | drop i => exact (List.length_erase_le).trans h
  | _ => exact h

end Hand

def Sys.Silent : Sys → Prop
  | .iget _ _ => False
  | .idup _ => False
  | .drop _ => False
  | .panic q => q ≠ .igetNoInodes
  | _ => True

abbrev Handles {α : Type} (post : α → Hand → Prop) (call : Fsys α) (hand : Hand) : Prop :=
  Obeys Hand.rules post call hand

-- The code neither takes a reference nor gives one back.
def Silent {α : Type} (call : Fsys α) : Prop := ∀ hand, Keeps Hand.rules call hand

abbrev Bounded {α : Type} (call : Fsys α) (hand : Hand) : Prop := Handles (fun _ _ => True) call hand

-- The code takes no reference, so that it may run with any hand.
def Light {α : Type} (call : Fsys α) : Prop := ∀ hand, Bounded call hand

section Rules

variable {α β : Type} {post : α → Hand → Prop} {hand : Hand} {a : Sys} {call : Fsys α}

theorem move_silent (h : a.Silent) (answer : a.Answer) : Hand.move hand a answer = hand := by
  cases a with
  | iget _ _ | idup _ | drop _ => exact h.elim
  | _ => rfl

theorem ok_silent (h : a.Silent) : Hand.ok hand a := by
  cases a with
  | iget _ _ | idup _ | drop _ => exact h.elim
  | panic q => exact h
  | _ => trivial

theorem handles_silent {next : a.Answer → Fsys α} (h : a.Silent)
    (hnext : ∀ answer, Handles post (next answer) hand) : Handles post (.act a next) hand := by
  refine obeys_act (ok_silent h) fun answer => ?_
  change Handles post (next answer) (Hand.move hand a answer)
  rw [move_silent h]
  exact hnext answer

theorem silent_act {next : a.Answer → Fsys α} (h : a.Silent) (hnext : ∀ answer, Silent (next answer)) :
    Silent (.act a next) :=
  fun hand => handles_silent h fun answer => hnext answer hand

theorem silent_ret (value : α) : Silent (pure value : Fsys α) := fun _ => rfl

theorem handles_panic {p : FsPanic} (h : p ≠ .igetNoInodes) :
    Handles post (Fsys.panic p : Fsys α) hand :=
  handles_silent h nofun

theorem silent_panic {p : FsPanic} (h : p ≠ .igetNoInodes) : Silent (Fsys.panic p : Fsys α) :=
  fun _ => handles_panic h

theorem silent_ite {c : Prop} [Decidable c] {x y : Fsys α} (hx : Silent x) (hy : Silent y) :
    Silent (if c then x else y) :=
  fun hand => obeys_ite (fun _ => hx hand) fun _ => hy hand

variable {next : α → Fsys β}

theorem Silent.bind (h : Silent call) (hnext : ∀ value, Silent (next value)) :
    Silent (call >>= next) :=
  fun hand => (h hand).bind fun value => hnext value hand

theorem Silent.light (h : Silent call) : Light call := fun hand => (h hand).mono fun _ _ _ => trivial

theorem Light.bind (h : Light call) (hnext : ∀ value, Light (next value)) : Light (call >>= next) :=
  fun hand => (h hand).bind fun value hand' _ => hnext value hand'

theorem Silent.bind_light (h : Silent call) (hnext : ∀ value, Light (next value)) :
    Light (call >>= next) :=
  h.light.bind hnext

theorem Light.ret (value : α) : Light (pure value : Fsys α) := fun _ => trivial

theorem light_act {next : a.Answer → Fsys α} (h : a.Silent) (hnext : ∀ answer, Light (next answer)) :
    Light (.act a next) :=
  fun hand => handles_silent h fun answer => hnext answer hand

theorem light_ite {c : Prop} [Decidable c] {x y : Fsys α} (hx : Light x) (hy : Light y) :
    Light (if c then x else y) :=
  fun hand => obeys_ite (fun _ => hx hand) fun _ => hy hand

theorem Fsys.ofCode_silent (code : Code α) : Silent (Fsys.ofCode code) := by
  induction code with
  | ret value => exact silent_ret value
  | halt => exact fun _ => trivial
  | act a next ih => exact silent_act trivial ih

end Rules

namespace Fsys

theorem beginOp_silent : Silent beginOp := silent_act trivial fun _ => silent_ret _

theorem endOp_silent : Silent endOp := by
  refine silent_act trivial fun log => ?_
  cases log with
  | none => exact silent_ret _
  | some log => exact (ofCode_silent _).bind fun _ => silent_act trivial fun _ => silent_ret _

theorem bread_silent (b : Blockno) : Silent (bread b) := silent_act trivial fun _ => silent_ret _

theorem brelse_silent (b : Blockno) : Silent (brelse b) := silent_act trivial fun _ => silent_ret _

theorem inode_silent (i : Ip) : Silent (inode i) := silent_act trivial fun _ => silent_ret _

section Code

variable {α : Type} (sb : Superblock)

theorem log_silent {b : Blockno} {data : Block} {next : Unit → Fsys α} (hnext : Silent (next ())) :
    Silent (memmove b data >>= fun _ => logWrite b >>= fun _ => brelse b >>= next) :=
  silent_act trivial fun _ => silent_act trivial fun _ => silent_act trivial fun _ => hnext

theorem log_silent_last {b : Blockno} {data : Block} :
    Silent (memmove b data >>= fun _ => logWrite b >>= fun _ => brelse b) :=
  silent_act trivial fun _ => silent_act trivial fun _ => brelse_silent b

theorem bzero_silent (bno : Blockno) : Silent (bzero bno) :=
  (bread_silent bno).bind fun _ => log_silent_last

theorem ballocFrom_silent (rounds b : Nat) : Silent (ballocFrom sb rounds b) := by
  induction rounds generalizing b with
  | zero => exact silent_ret _
  | succ rounds ih =>
    refine (bread_silent _).bind fun data => ?_
    split
    · exact log_silent ((bzero_silent _).bind fun _ => silent_ret _)
    · exact (brelse_silent _).bind fun _ => ih _

theorem balloc_silent : Silent (balloc sb) := ballocFrom_silent sb _ _

theorem bfree_silent (b : Blockno) : Silent (bfree sb b) :=
  (bread_silent _).bind fun _ => silent_ite log_silent_last (silent_panic (by simp))

theorem iupdate_silent (i : Ip) : Silent (iupdate sb i) :=
  (inode_silent i).bind fun _ => (bread_silent _).bind fun _ => log_silent_last

theorem ilock_silent (i : Ip) : Silent (ilock sb i) := by
  refine (inode_silent i).bind fun _ => silent_ite (silent_panic (by simp)) ?_
  refine silent_act trivial fun _ => (inode_silent i).bind fun _ => silent_ite (silent_ret _) ?_
  refine (bread_silent _).bind fun _ => silent_act trivial fun _ => (brelse_silent _).bind fun _ => ?_
  exact silent_act trivial fun _ => silent_ite (silent_panic (by simp)) (silent_ret _)

theorem iunlock_silent (i : Ip) : Silent (iunlock i) :=
  (inode_silent i).bind fun _ => silent_ite (silent_panic (by simp)) <|
    silent_act trivial fun _ => silent_ret _

theorem setAddr_silent (i : Ip) (slot : Fin (NDIRECT + 1)) (addr : Blockno) :
    Silent (setAddr i slot addr) :=
  (inode_silent i).bind fun _ => silent_act trivial fun _ => silent_ret _

theorem bmapSlot_silent (i : Ip) (slot : Fin (NDIRECT + 1)) : Silent (bmapSlot sb i slot) := by
  refine (inode_silent i).bind fun _ => silent_ite ?_ (silent_ret _)
  refine (balloc_silent sb).bind fun addr => silent_ite (silent_ret _) ?_
  exact (setAddr_silent i slot addr).bind fun _ => silent_ret _

theorem bmap_silent (i : Ip) (bn : Nat) : Silent (bmap sb i bn) := by
  unfold bmap
  split
  · exact bmapSlot_silent sb i _
  · refine silent_ite ?_ (silent_panic (by simp))
    refine (bmapSlot_silent sb i _).bind fun addr => silent_ite (silent_ret _) ?_
    have hrelease (value : Blockno) : Silent (do
        brelse addr
        return value) := (brelse_silent addr).bind fun _ => silent_ret _
    refine (bread_silent addr).bind fun data => silent_ite ?_ (hrelease _)
    exact (balloc_silent sb).bind fun new => silent_ite (hrelease _) (log_silent (silent_ret _))

theorem itruncDirect_silent (i : Ip) (rounds n : Nat) : Silent (itruncDirect sb i rounds n) := by
  induction rounds generalizing n with
  | zero => exact silent_ret _
  | succ rounds ih =>
    unfold itruncDirect
    split
    · refine (inode_silent i).bind fun ip => silent_ite (ih _) ?_
      exact (bfree_silent sb _).bind fun _ => (setAddr_silent i _ 0).bind fun _ => ih _
    · exact silent_ret _

theorem bfreeEntries_silent (data : Block) (rounds j : Nat) :
    Silent (bfreeEntries sb data rounds j) := by
  induction rounds generalizing j with
  | zero => exact silent_ret _
  | succ rounds ih => exact silent_ite (ih _) ((bfree_silent sb _).bind fun _ => ih _)

theorem itrunc_silent (i : Ip) : Silent (itrunc sb i) := by
  have hrest : Silent (do
      let ip ← inode i
      setDin i { ip.din with size := 0 }
      iupdate sb i) :=
    (inode_silent i).bind fun _ => silent_act trivial fun _ => iupdate_silent sb i
  refine (itruncDirect_silent sb i _ _).bind fun _ => (inode_silent i).bind fun ip => ?_
  refine silent_ite ?_ hrest
  refine (bread_silent _).bind fun data => (bfreeEntries_silent sb data _ _).bind fun _ => ?_
  refine (brelse_silent _).bind fun _ => (bfree_silent sb _).bind fun _ => ?_
  exact (setAddr_silent i _ 0).bind fun _ => hrest

theorem readiFrom_silent (i : Ip) (dst : Dst) (n rounds tot off : Nat) (bytes : List UInt8) :
    Silent (readiFrom sb i dst n rounds tot off bytes) := by
  induction rounds generalizing tot off bytes with
  | zero => exact silent_ret _
  | succ rounds ih =>
    refine silent_ite ?_ (silent_ret _)
    refine (bmap_silent sb i _).bind fun addr => silent_ite (silent_ret _) ?_
    refine (bread_silent addr).bind fun data => (brelse_silent addr).bind fun _ => ?_
    exact silent_ite (ih _ _ _) (silent_ret _)

theorem readi_silent (i : Ip) (dst : Dst) (off n : UInt32) : Silent (readi sb i dst off n) :=
  (inode_silent i).bind fun _ => silent_ite (silent_ret _) (readiFrom_silent sb i dst _ _ _ _ _)

theorem writeiFrom_silent (i : Ip) (src : Src) (n rounds tot off : Nat) :
    Silent (writeiFrom sb i src n rounds tot off) := by
  induction rounds generalizing tot off with
  | zero => exact silent_ret _
  | succ rounds ih =>
    refine silent_ite ?_ (silent_ret _)
    refine (bmap_silent sb i _).bind fun addr => silent_ite (silent_ret _) ?_
    refine (bread_silent addr).bind fun data => silent_act trivial fun _ => silent_ite ?_ ?_
    · exact silent_act trivial fun _ => (brelse_silent addr).bind fun _ => ih _ _
    · exact (brelse_silent addr).bind fun _ => silent_ret _

theorem writei_silent (i : Ip) (src : Src) (off n : UInt32) : Silent (writei sb i src off n) := by
  refine (inode_silent i).bind fun _ => silent_ite (silent_ret _) (silent_ite (silent_ret _) ?_)
  refine (writeiFrom_silent sb i src _ _ _ _).bind fun tot => (inode_silent i).bind fun ip => ?_
  have hrest : Silent (do
      iupdate sb i
      return (tot : Int)) := (iupdate_silent sb i).bind fun _ => silent_ret _
  exact silent_ite (silent_act trivial fun _ => hrest) hrest

theorem readDirent_silent (dp : Ip) (off : Nat) : Silent (readDirent sb dp off) :=
  (readi_silent sb dp kernelDst _ _).bind fun _ => silent_ret _

theorem emptyDirent_silent (dp : Ip) (rounds off : Nat) : Silent (emptyDirent sb dp rounds off) := by
  induction rounds generalizing off with
  | zero => exact silent_ret _
  | succ rounds ih =>
    refine (inode_silent dp).bind fun ip => silent_ite ?_ (silent_ret _)
    refine (readDirent_silent sb dp off).bind fun de => ?_
    cases de with
    | none => exact silent_panic (by simp)
    | some de => exact silent_ite (silent_ret _) (ih _)

theorem isdiremptyFrom_silent (dp : Ip) (rounds off : Nat) :
    Silent (isdiremptyFrom sb dp rounds off) := by
  induction rounds generalizing off with
  | zero => exact silent_ret _
  | succ rounds ih =>
    refine (inode_silent dp).bind fun ip => silent_ite ?_ (silent_ret _)
    refine (readDirent_silent sb dp off).bind fun de => ?_
    cases de with
    | none => exact silent_panic (by simp)
    | some de => exact silent_ite (ih _) (silent_ret _)

theorem nonempty_silent (ip : Ip) : Silent (nonempty sb ip) :=
  (inode_silent ip).bind fun _ => silent_ite
    ((isdiremptyFrom_silent sb ip _ _).bind fun _ => silent_ret _) (silent_ret _)

theorem setNlink_silent (i : Ip) (nlink : Int16 → Int16) : Silent (setNlink sb i nlink) :=
  (inode_silent i).bind fun _ => silent_act trivial fun _ => iupdate_silent sb i

end Code

section References

variable (sb : Superblock) {hand : Hand}

theorem drop_handles (i : Ip) : Handles (fun _ hand' => hand' = hand.erase i) (drop i) hand :=
  obeys_act trivial fun _ => rfl

theorem iput_handles (i : Ip) : Handles (fun _ hand' => hand' = hand.erase i) (iput sb i) hand := by
  refine handles_silent trivial fun last => obeys_ite (fun _ => ?_) fun _ => drop_handles i
  refine (itrunc_silent sb i hand).bind fun _ => ?_
  refine handles_silent trivial fun ip => handles_silent trivial fun _ => ?_
  refine (iupdate_silent sb i hand).bind fun _ => ?_
  exact handles_silent trivial fun _ => handles_silent trivial fun _ => drop_handles i

theorem iunlockput_handles (i : Ip) :
    Handles (fun _ hand' => hand' = hand.erase i) (iunlockput sb i) hand :=
  (iunlock_silent i hand).bind fun _ => iput_handles sb i

theorem iput_light (i : Ip) : Light (iput sb i) :=
  fun _ => (iput_handles sb i).mono fun _ _ _ => trivial

theorem iunlockput_light (i : Ip) : Light (iunlockput sb i) :=
  (iunlock_silent i).bind_light fun _ => iput_light sb i

-- The hand after a call that may give a reference to its caller.
def given {α : Type} (hand : Hand) (r : Option (Ip × α)) : Hand :=
  match r with
  | none => hand
  | some (i, _) => i :: hand

def found (hand : Hand) (r : Option Ip) : Hand := r.toList ++ hand

theorem iallocFrom_handles (dev : UInt32) (type : Int16) (rounds : Nat) (inum : UInt32)
    (h : hand.length ≤ 2) :
    Handles (fun r hand' => hand' = found hand r) (iallocFrom sb dev type rounds inum) hand := by
  induction rounds generalizing inum with
  | zero => exact rfl
  | succ rounds ih =>
    refine (bread_silent _ hand).bind fun data => obeys_ite (fun _ => ?_) fun _ => ?_
    · refine handles_silent trivial fun _ => handles_silent trivial fun _ => ?_
      exact handles_silent trivial fun _ => obeys_act h fun i => rfl
    · exact (brelse_silent _ hand).bind fun _ => ih _

theorem ialloc_handles (dev : UInt32) (type : Int16) (h : hand.length ≤ 2) :
    Handles (fun r hand' => hand' = found hand r) (ialloc sb dev type) hand :=
  iallocFrom_handles sb dev type _ _ h

theorem dirlookupFrom_handles (dp : Ip) (name : List UInt8) (rounds off : Nat) (h : hand.length ≤ 2) :
    Handles (fun r hand' => hand' = given hand r) (dirlookupFrom sb dp name rounds off) hand := by
  induction rounds generalizing off with
  | zero => exact rfl
  | succ rounds ih =>
    refine handles_silent trivial fun ip => obeys_ite (fun _ => ?_) fun _ => rfl
    refine (readDirent_silent sb dp off hand).bind fun de => ?_
    cases de with
    | none => exact handles_panic (by simp)
    | some de =>
      refine obeys_ite (fun _ => ih _) fun _ => obeys_ite (fun _ => ?_) fun _ => ih _
      exact obeys_act h fun i => rfl

theorem dirlookup_handles (dp : Ip) (name : List UInt8) (h : hand.length ≤ 2) :
    Handles (fun r hand' => hand' = given hand r) (dirlookup sb dp name) hand :=
  handles_silent trivial fun _ => obeys_ite (fun _ => handles_panic (by simp)) fun _ =>
    dirlookupFrom_handles sb dp name _ _ h

theorem dirlink_keeps (dp : Ip) (name : List UInt8) (inum : UInt32) (h : hand.length ≤ 2) :
    Keeps Hand.rules (dirlink sb dp name inum) hand := by
  refine (dirlookup_handles sb dp name h).bind ?_
  rintro r _ rfl
  cases r with
  | some r =>
    refine (iput_handles sb r.1).bind ?_
    rintro _ _ rfl
    exact List.erase_cons_head ..
  | none =>
    refine (emptyDirent_silent sb dp _ _ hand).bind fun off => ?_
    exact (writei_silent sb dp _ _ _ hand).bind fun _ => rfl

theorem put_handles (ip : Ip) :
    Handles (fun r hand' => hand' = given hand r)
      (do
        iunlockput sb ip
        return (none : Option (Ip × List UInt8))) (ip :: hand) := by
  refine (iunlockput_handles sb ip).bind ?_
  rintro _ _ rfl
  exact List.erase_cons_head ..

-- While the path is walked the reference to the next directory is taken before
-- that to the last one is given back.
theorem namexFrom_handles (nameiparent : Bool) (rounds : Nat) (ip : Ip) (path name : List UInt8)
    (h : hand.length ≤ 1) :
    Handles (fun r hand' => hand' = given hand r)
      (namexFrom sb nameiparent rounds ip path name) (ip :: hand) := by
  induction rounds generalizing ip path name with
  | zero => exact rfl
  | succ rounds ih =>
    unfold namexFrom
    split
    · refine obeys_ite (fun _ => ?_) fun _ => rfl
      refine (iput_handles sb ip).bind ?_
      rintro _ _ rfl
      exact List.erase_cons_head ..
    · rename_i name path _
      refine (ilock_silent sb ip _).bind fun _ => handles_silent trivial fun dp => ?_
      refine obeys_ite (fun _ => put_handles sb ip) fun _ => obeys_ite (fun _ => ?_) fun _ => ?_
      · exact (iunlock_silent ip _).bind fun _ => rfl
      · have hfew : (ip :: hand).length ≤ 2 := by
          simp only [List.length_cons]
          omega
        refine (dirlookup_handles sb ip name hfew).bind ?_
        rintro r _ rfl
        cases r with
        | none => exact put_handles sb ip
        | some r =>
          refine (iunlockput_handles sb ip).bind ?_
          rintro _ _ rfl
          change Handles _ _ ((r.1 :: ip :: hand).erase ip)
          rw [Hand.erase_second]
          exact ih r.1 path name

theorem namex_handles (nameiparent : Bool) (path : List UInt8) (h : hand.length ≤ 1) :
    Handles (fun r hand' => hand' = given hand r) (namex sb nameiparent path) hand := by
  have hfew : hand.length ≤ 2 := by omega
  refine obeys_ite (fun _ => ?_) fun _ => ?_
  · exact obeys_act hfew fun ip => namexFrom_handles sb nameiparent _ ip path [] h
  · refine handles_silent trivial fun p => obeys_act hfew fun _ => ?_
    exact namexFrom_handles sb nameiparent _ p.cwd path [] h

theorem namei_handles (path : List UInt8) (h : hand.length ≤ 1) :
    Handles (fun r hand' => hand' = found hand r) (namei sb path) hand := by
  refine (namex_handles sb false path h).bind ?_
  rintro r _ rfl
  cases r with
  | none => exact rfl
  | some r => exact rfl

end References

end Fsys

end Xv6Ringbuf.Fs
