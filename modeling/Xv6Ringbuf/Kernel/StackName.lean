import Xv6Ringbuf.Kernel.Syscall
import Xv6Ringbuf.Kernel.Refused

namespace Xv6Ringbuf.Kernel

open Machine

-- The bytes on the kernel stack from the name buffer on. Behind the 16 bytes of
-- the buffer there are return addresses, with zero bytes in them.
def Garbage (stack : List UInt8) : Prop := 0 ∈ stack.drop 16

-- The string that the kernel takes for the name.
def nameOn (bytes stack : List UInt8) : List UInt8 := bytes ++ stack.drop bytes.length

def Sys.nameBytes (sys : Sys) (t : Trap) : List UInt8 := (sys.pagetables t.pid).fetch t.mem 16 t.a0

theorem length_fetch (pt : Pagetable) (mem : UInt64 → UInt8) (max : Nat) (a : UInt64) :
    (pt.fetch mem max a).length ≤ max := by
  induction max generalizing a with
  | zero => exact Nat.le_refl 0
  | succ max ih =>
    rw [Pagetable.fetch]
    split
    · exact Nat.zero_le _
    · split
      · exact Nat.succ_le_succ (Nat.zero_le _)
      · exact Nat.succ_le_succ (ih _)

theorem Sys.length_nameBytes (sys : Sys) (t : Trap) : (sys.nameBytes t).length ≤ 16 :=
  length_fetch _ _ _ _

theorem trap_eq [Image] {sys : Sys} (h : Sound sys) (t : Trap) :
    ∃ s₁, ReadUser (sys.state (sys.callOf t)) s₁ ∧ ∀ stack, sys.trap { t with stack := stack } =
      (ringbuf (nameOn (sys.nameBytes t) stack) (argint t.a1) t.a2).run s₁ := by
  obtain ⟨⟨bytes, result⟩, s₁, hrun, hbytes, hread⟩ :=
    (copyinstr_wp t.a0 16 (sys.state (sys.callOf t)) (h.user t.pid)).returns
  have hbytes' : bytes = sys.nameBytes t := hbytes
  refine ⟨s₁, hread, fun stack => ?_⟩
  have hstate : sys.state (sys.callOf { t with stack := stack }) = sys.state (sys.callOf t) := rfl
  rw [Sys.trap, hstate, sysRingbuf, argstr, StateT.run_bind, StateT.run_bind, hrun, ← hbytes']
  rfl

def stackWith (bytes tail : List UInt8) : List UInt8 :=
  List.replicate bytes.length 0 ++ tail ++ List.replicate 17 0

theorem stackWith_garbage (bytes tail : List UInt8) : Garbage (stackWith bytes tail) := by
  rw [Garbage, stackWith, List.drop_append, List.drop_replicate, List.mem_append]
  exact .inr (List.mem_replicate.mpr ⟨by omega, rfl⟩)

theorem nameOn_stackWith (bytes tail : List UInt8) :
    nameOn bytes (stackWith bytes tail) = bytes ++ tail ++ List.replicate 17 0 := by
  rw [nameOn, stackWith, List.append_assoc, List.drop_append_of_le_length (by simp), List.drop_replicate,
    Nat.sub_self, List.replicate_zero, List.nil_append, List.append_assoc]

theorem strlen_padded (l : List UInt8) (n : Nat) :
    ∃ m ≤ l.length, strlen (l ++ List.replicate (n + 1) 0) = some m := by
  induction l with
  | nil => exact ⟨0, Nat.le_refl 0, rfl⟩
  | cons c l ih =>
    obtain ⟨m, hm, hlen⟩ := ih
    rw [List.cons_append, strlen]
    by_cases hc : c = 0
    · rw [if_pos hc]
      exact ⟨0, Nat.zero_le _, rfl⟩
    · rw [if_neg hc, hlen]
      exact ⟨m + 1, Nat.succ_le_succ hm, rfl⟩

variable {bytes : List UInt8}

theorem nameOn_terminated {stack : List UInt8} (hbytes : bytes.length ≤ 16) (h : Garbage stack) :
    ∃ len, strlen (nameOn bytes stack) = some len := by
  refine Option.ne_none_iff_exists'.mp (strlen_ne_none ?_)
  rw [nameOn, List.mem_append]
  right
  have hdrop : stack.drop 16 = (stack.drop bytes.length).drop (16 - bytes.length) := by
    rw [List.drop_drop, Nat.add_sub_cancel' hbytes]
  rw [Garbage, hdrop] at h
  exact List.mem_of_mem_drop h

theorem exists_unknown (rbs : Ringbufs) (hzero : 0 ∉ bytes) (hlen : bytes.length < 16) :
    ∃ x : UInt8, findName rbs (bytes ++ [x] ++ List.replicate 17 0) = none := by
  by_contra hall
  have hfound : ∀ i : Fin 11, ∃ k,
      findName rbs (bytes ++ [UInt8.ofNat (i.val + 1)] ++ List.replicate 17 0) = some k := by
    intro i
    exact Option.ne_none_iff_exists'.mp fun hnone => hall ⟨_, hnone⟩
  choose slot hslot using hfound
  have hinj : Function.Injective slot := by
    intro i j heq
    have hkey := (findName_eq_some (hslot i)).symm.trans (heq ▸ findName_eq_some (hslot j))
    simp only [key, List.append_assoc] at hkey
    have hle : bytes.length ≤ RINGBUF_NAME_LEN := Nat.le_of_lt hlen
    rw [strncpy_append_of_not_mem hzero _ hle, strncpy_append_of_not_mem hzero _ hle] at hkey
    obtain ⟨n, hn⟩ : ∃ n, 16 - bytes.length = n + 1 := ⟨15 - bytes.length, by omega⟩
    have hhead := congrArg (fun t => t.headD 0) (List.append_cancel_left hkey)
    simp only [show RINGBUF_NAME_LEN - bytes.length = n + 1 from hn, headD_strncpy, List.singleton_append,
      List.headD_cons] at hhead
    have hnat := congrArg UInt8.toNat hhead
    simp only [UInt8.toNat_ofNat'] at hnat
    apply Fin.ext
    omega
  have hcard := Fintype.card_le_of_injective slot hinj
  rw [Fintype.card_fin, Fintype.card_fin] at hcard
  exact absurd hcard (by decide)

-- The names that begin with bytes without a terminator and end on the stack are
-- all refused.
theorem refused_all_iff [Image] {s : State} {opens : Int32} {addr : UInt64} (hs : Healthy s)
    (hcount : getRingbufIndex s.ringbufs < MAX_RINGBUFS) (hzero : 0 ∉ bytes)
    (hbytes : bytes.length ≤ 16) :
    (∀ stack, Garbage stack → Refused s (nameOn bytes stack) opens addr) ↔
      (opens ≠ 0 ∧ (s.pagetable.room = none ∨ bytes.length = 16 ∧
        ∃ k, findName s.ringbufs bytes = some k ∧ (s.ringbufs k).refcount < 0)) ∨
      (opens = 0 ∧ ∀ k, ¬bytes <+: key (s.ringbufs k).name) := by
  have hpadded : ∀ tail, bytes.length + tail.length ≤ 16 →
      ∃ len ≤ RINGBUF_NAME_LEN, strlen (bytes ++ tail ++ List.replicate 17 0) = some len := by
    intro tail htail
    obtain ⟨len, hle, hlen⟩ := strlen_padded (bytes ++ tail) 16
    rw [List.length_append] at hle
    exact ⟨len, hle.trans htail, hlen⟩
  have hkey : ∀ stack, key (nameOn bytes stack) = bytes ++ strncpy (stack.drop bytes.length) (16 - bytes.length) :=
    fun stack => strncpy_append_of_not_mem hzero _ hbytes
  have hshort : ∀ stack, Garbage stack →
      (∀ len ≤ RINGBUF_NAME_LEN, strlen (nameOn bytes stack) = some len →
        Refused s (nameOn bytes stack) opens addr) → Refused s (nameOn bytes stack) opens addr := by
    intro stack hgarbage h
    obtain ⟨len, hlen⟩ := nameOn_terminated hbytes hgarbage
    by_cases hlong : RINGBUF_NAME_LEN < len
    · exact refused_of_long hlen hlong
    · exact h len (Nat.le_of_not_lt hlong) hlen
  by_cases hopens : opens = 0
  · constructor
    · intro hall
      refine .inr ⟨hopens, fun k hprefix => ?_⟩
      obtain ⟨tail, htail⟩ := hprefix
      have hlength := congrArg List.length htail
      rw [List.length_append, key, length_strncpy] at hlength
      obtain ⟨len, hle, hlen⟩ := hpadded tail (Nat.le_of_eq hlength)
      have hrefused := hall _ (stackWith_garbage bytes tail)
      rw [nameOn_stackWith, close_refused_iff hcount hlen hle hopens] at hrefused
      refine findName_eq_none_iff.mp hrefused k ?_
      rw [htail, key, key, strncpy_append_self _ _ (length_strncpy _ _)]
      exact (strncpy_strncpy _ _).symm
    · rintro (⟨hne, _⟩ | ⟨_, hnone⟩) stack hgarbage
      · exact absurd hopens hne
      · refine hshort stack hgarbage fun len hle hlen => ?_
        rw [close_refused_iff hcount hlen hle hopens, findName_eq_none_iff]
        intro k heq
        rw [hkey] at heq
        exact hnone k ⟨_, heq.symm⟩
  · constructor
    · intro hall
      refine .inl ⟨hopens, ?_⟩
      by_cases hroom : s.pagetable.room = none
      · exact .inl hroom
      · right
        by_cases hfull : bytes.length = 16
        · obtain ⟨len, hle, hlen⟩ := hpadded [] (by simpa using hbytes)
          have hrefused := hall _ (stackWith_garbage bytes [])
          rw [nameOn_stackWith, open_refused_iff hcount hlen hle hs hopens] at hrefused
          obtain ⟨k, hk, hneg⟩ := hrefused.resolve_left hroom
          refine ⟨hfull, k, ?_, hneg⟩
          rw [← hk]
          refine findName_key ?_ _
          rw [List.append_nil]
          exact (strncpy_append_self _ _ hfull).symm
        · obtain ⟨x, hx⟩ := exists_unknown s.ringbufs hzero (by omega)
          obtain ⟨len, hle, hlen⟩ := hpadded [x] (by rw [List.length_singleton]; omega)
          have hrefused := hall _ (stackWith_garbage bytes [x])
          rw [nameOn_stackWith, open_refused_iff hcount hlen hle hs hopens, hx] at hrefused
          obtain ⟨k, hk, _⟩ := hrefused.resolve_left hroom
          cases hk
    · rintro (⟨_, hwhy⟩ | ⟨hclose, _⟩) stack hgarbage
      · refine hshort stack hgarbage fun len hle hlen => ?_
        rw [open_refused_iff hcount hlen hle hs hopens]
        refine hwhy.imp_right ?_
        rintro ⟨hfull, k, hk, hneg⟩
        refine ⟨k, ?_, hneg⟩
        rw [← hk]
        refine findName_key ?_ _
        rw [hkey, hfull, key]
        have hself := strncpy_append_of_not_mem hzero [] (n := 16) hbytes
        rw [List.append_nil, hfull] at hself
        exact hself.symm
      · exact absurd hclose hopens

-- The system call does the same whatever is on the kernel stack.
def StackFree [Image] (sys : Sys) (t : Trap) : Prop :=
  ∀ stack stack', Garbage stack → Garbage stack' →
    sys.trap { t with stack := stack } = sys.trap { t with stack := stack' }

def LongName (pt : Pagetable) (mem : UInt64 → UInt8) (a : UInt64) : Prop :=
  ∀ i < 17, pt.walkaddr (a + UInt64.ofNat i) ≠ 0 ∧
    mem (pt.walkaddr (a + UInt64.ofNat i) + (a + UInt64.ofNat i) % 4096) ≠ 0

def LongRefused [Image] (sys : Sys) (t : Trap) : Prop :=
  LongName (sys.pagetables t.pid) t.mem t.a0 → ∀ stack, Garbage stack →
    ∃ s', sys.trap { t with stack := stack } = .ok (-1, s') ∧ s'.ringbufs = sys.ringbufs ∧
      s'.pagetable = sys.pagetables t.pid ∧ s'.freelist = sys.freelist

-- The name ends within its first 16 bytes, or any name that begins as it does
-- is refused: the table is full, there is no room for an open or the ring has lost
-- its references, or no ring to be closed has a name that begins so.
def NameSafe (sys : Sys) (t : Trap) : Prop :=
  MAX_RINGBUFS ≤ getRingbufIndex sys.ringbufs ∨ 0 ∈ sys.nameBytes t ∨
    (argint t.a1 ≠ 0 ∧ ((sys.pagetables t.pid).room = none ∨ (sys.nameBytes t).length = 16 ∧
      ∃ k, findName sys.ringbufs (sys.nameBytes t) = some k ∧ (sys.ringbufs k).refcount < 0)) ∨
    (argint t.a1 = 0 ∧ ∀ k, ¬sys.nameBytes t <+: key (sys.ringbufs k).name)

theorem fetch_long {pt : Pagetable} {mem : UInt64 → UInt8} {n : Nat} {a : UInt64}
    (h : ∀ i < n, pt.walkaddr (a + UInt64.ofNat i) ≠ 0 ∧
      mem (pt.walkaddr (a + UInt64.ofNat i) + (a + UInt64.ofNat i) % 4096) ≠ 0) :
    0 ∉ pt.fetch mem n a := by
  induction n generalizing a with
  | zero => exact List.not_mem_nil
  | succ n ih =>
    have hfirst := h 0 (Nat.succ_pos n)
    rw [show a + UInt64.ofNat 0 = a from UInt64.add_zero a] at hfirst
    rw [Pagetable.fetch, if_neg hfirst.1, if_neg hfirst.2, List.mem_cons, not_or]
    exact ⟨fun hzero => hfirst.2 hzero.symm, ih fun i hi => add_succ a i ▸ h (i + 1) (by omega)⟩

-- The result of the system call and what it changes do not depend on the kernel
-- stack, and names that are too long are refused, exactly if the name is safe.
theorem name_handling_ignores_stack [Image] {sys : Sys} (h : Sound sys) (t : Trap) :
    (StackFree sys t ∧ LongRefused sys t) ↔ NameSafe sys t := by
  obtain ⟨s₁, ⟨reads, hs₁, _⟩, htrap⟩ := trap_eq h t
  have hrings : s₁.ringbufs = sys.ringbufs := by
    rw [hs₁]
    rfl
  have hpt : s₁.pagetable = sys.pagetables t.pid := by
    rw [hs₁]
    rfl
  have hfree : s₁.freelist = sys.freelist := by
    rw [hs₁]
    rfl
  have hhealthy : Healthy s₁ := by
    refine ⟨?_, ?_⟩
    · rw [hpt]
      exact h.hole t.pid
    · rw [hfree]
      exact h.valid.free
  -- If the call is refused whatever the stack holds, both parts hold.
  have hrefused : (∀ stack, Garbage stack →
      Refused s₁ (nameOn (sys.nameBytes t) stack) (argint t.a1) t.a2) → StackFree sys t ∧ LongRefused sys t := by
    intro hall
    refine ⟨fun stack stack' hstack hstack' => ?_, fun _ stack hstack => ?_⟩
    · rw [htrap, htrap, hall stack hstack, hall stack' hstack']
    · rw [htrap]
      exact ⟨s₁, hall stack hstack, hrings, hpt, hfree⟩
  by_cases hfull : MAX_RINGBUFS ≤ getRingbufIndex sys.ringbufs
  · refine iff_of_true (hrefused fun stack _ => refused_of_full ?_) (.inl hfull)
    rw [hrings]
    exact hfull
  · have hcount : getRingbufIndex s₁.ringbufs < MAX_RINGBUFS := by
      rw [hrings]
      exact Nat.lt_of_not_le hfull
    by_cases hzero : 0 ∈ sys.nameBytes t
    · refine iff_of_true ⟨fun stack stack' _ _ => ?_, fun hlong => ?_⟩ (.inr (.inl hzero))
      · have hlength : strlen (nameOn (sys.nameBytes t) stack) = strlen (nameOn (sys.nameBytes t) stack') := by
          rw [nameOn, nameOn, strlen_append hzero, strlen_append hzero]
        have hkey : key (nameOn (sys.nameBytes t) stack) = key (nameOn (sys.nameBytes t) stack') := by
          rw [nameOn, nameOn, key, key, strncpy_append hzero, strncpy_append hzero]
        rw [htrap, htrap, ringbuf_congr hlength hkey]
      · exact absurd hzero (fetch_long fun i hi => hlong i (by omega))
    · have hall : (∀ stack, Garbage stack →
          Refused s₁ (nameOn (sys.nameBytes t) stack) (argint t.a1) t.a2) ↔ _ :=
        refused_all_iff hhealthy hcount hzero (sys.length_nameBytes t)
      rw [hrings, hpt] at hall
      constructor
      · rintro ⟨hsame, _⟩
        refine .inr (.inr (hall.mp fun stack hstack => ?_))
        -- With a long tail on the stack the name is refused.
        have hlong : strlen (nameOn (sys.nameBytes t) (stackWith (sys.nameBytes t) (List.replicate 17 1))) =
            some ((sys.nameBytes t).length + 17) := by
          rw [nameOn_stackWith, List.append_assoc, strlen_append_of_not_mem hzero]
          rfl
        have heq := hsame stack _ hstack (stackWith_garbage (sys.nameBytes t) (List.replicate 17 1))
        rw [htrap, htrap] at heq
        exact heq.trans (refused_of_long hlong (Nat.lt_of_lt_of_le (by decide) (Nat.le_add_left 17 _)))
      · rintro (h | h | h)
        · exact absurd h hfull
        · exact absurd h hzero
        · exact hrefused (hall.mpr h)

theorem name_handling_ignores_stack_short : @StackFree smallImage (smallSys 80) (smallTrap 1 0 0) := by
  let _ := smallImage
  have hsound := (smallSys_initial (show 80 ≤ 256 by decide)).sound
  refine ((name_handling_ignores_stack hsound (smallTrap 1 0 0)).mpr (.inr (.inl ?_))).1
  have hbytes : (smallSys 80).nameBytes (smallTrap 1 0 0) = [97, 0] := by decide +kernel
  rw [hbytes]
  exact List.mem_cons_of_mem _ List.mem_cons_self

def longTrap (stack : List UInt8) : Trap :=
  ⟨1, 16, 1, 0, stack, fun a => if 0x87ffe010 ≤ a ∧ a < 0x87ffe024 then 97 else 0⟩

-- With a zero behind the buffer the ring is created, with other bytes there the
-- name is refused.
theorem long_name_accepted_on_zero_stack :
    ((smallSys 80).pagetables 1).fetch (longTrap []).mem 20 16 = List.replicate 20 97 ∧
    (@Sys.trap smallImage (smallSys 80) (longTrap (List.replicate 17 0))).toOption.map (fun result =>
      (result.1, (result.2.ringbufs 0).name)) = some (0, List.replicate 16 97) ∧
    (@Sys.trap smallImage (smallSys 80) (longTrap (List.replicate 17 1 ++ [0]))).toOption.map (fun result =>
      (result.1, (result.2.ringbufs 0).name)) = some (-1, List.replicate 16 0) := by
  decide +kernel

end Xv6Ringbuf.Kernel
