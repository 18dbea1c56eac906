import Xv6Ringbuf.Kernel.RefCount
import Xv6Ringbuf.Kernel.Copyinstr

namespace Xv6Ringbuf.Kernel

open Machine

-- The string that a function finds at `buf` after `argstr`, whose result is not
-- looked at. `stack` is what was there before, from `buf` on.
def argstr (addr : UInt64) (max : Nat) (stack : List UInt8) : K (List UInt8) := do
  let (bytes, _) ← copyinstr addr max
  return bytes ++ stack.drop bytes.length

-- `argint` keeps the low half of the register.
def argint (a : UInt64) : Int32 := a.toUInt32.toInt32

def sysRingbuf [Image] (a0 a1 a2 : UInt64) (stack : List UInt8) : K Int32 := do
  let name ← argstr a0 16 stack
  ringbuf name (argint a1) a2

-- A process traps into the kernel with three arguments in its registers.
structure Trap where
  pid : Pid
  a0 : UInt64
  a1 : UInt64
  a2 : UInt64
  stack : List UInt8
  mem : UInt64 → UInt8

def Sys.callOf (sys : Sys) (t : Trap) : Call :=
  let bytes := (sys.pagetables t.pid).fetch t.mem 16 t.a0
  ⟨t.pid, bytes ++ t.stack.drop bytes.length, argint t.a1, t.a2, t.mem⟩

def Sys.trap [Image] (sys : Sys) (t : Trap) : Except Panic (Int32 × State) :=
  (sysRingbuf t.a0 t.a1 t.a2 t.stack).run (sys.state (sys.callOf t))

-- The call finds what it needs, and if it reads a cell, then the eight bytes that
-- it reads are the user's.
structure Robust [Image] (sys : Sys) (c : Call) : Prop where
  ok : RingOk (sys.state c) c.name c.opens c.addr
  cell : c.opens = 0 → getRingbufIndex sys.ringbufs < MAX_RINGBUFS →
    (∃ len ≤ RINGBUF_NAME_LEN, strlen c.name = some len) → findName sys.ringbufs c.name ≠ none →
    ∀ a ∈ wordBytes (cell (sys.pagetables c.pid) c.addr), UserByte (sys.pagetables c.pid) a

theorem ringOk_reads [Image] (s : State) (reads : List UInt64) (name : List UInt8) (opens : Int32)
    (addr : UInt64) :
    RingOk { s with reads := reads } name opens addr ↔ RingOk s name opens addr := by
  have hclose : ∀ k, CloseOk { s with reads := reads } k addr ↔ CloseOk s k addr := fun k =>
    ⟨fun h => ⟨h.readable, h.unmappable, h.valid⟩, fun h => ⟨h.readable, h.unmappable, h.valid⟩⟩
  have hdispatch : DispatchOk { s with reads := reads } name opens addr ↔
      DispatchOk s name opens addr := by
    unfold DispatchOk
    cases findName s.ringbufs name with
    | none => exact Iff.rfl
    | some k => exact and_congr Iff.rfl (imp_congr Iff.rfl (hclose k))
  unfold RingOk
  rw [hdispatch]

theorem sysRingbuf_wp [Image] {sys : Sys} (h : Sound sys) (t : Trap) {c : Call}
    (hc : sys.callOf t = c) :
    wp (sysRingbuf t.a0 t.a1 t.a2 t.stack) (sys.state c)
      (fun r s' => RingOk (sys.state c) c.name c.opens c.addr ∧
        ∃ s₁, ReadUser (sys.state c) s₁ ∧ Effect s₁ s' c.name c.opens c.addr r)
      fun _ => ¬RingOk (sys.state c) c.name c.opens c.addr := by
  subst hc
  have hfetch := copyinstr_wp t.a0 16 (sys.state (sys.callOf t)) (h.user t.pid)
  unfold sysRingbuf argstr
  apply wp_bind
  apply wp_bind
  apply hfetch.mono _ fun _ hfalse => hfalse.elim
  rintro ⟨bytes, result⟩ s₁ ⟨hbytes, hread⟩
  obtain rfl : bytes = _ := hbytes
  obtain ⟨rs, rfl, _⟩ := id hread
  have hhealthy : Healthy (sys.state (sys.callOf t)) := h.healthy
  have hring := ringbuf_wp (sys.callOf t).name (sys.callOf t).opens (sys.callOf t).addr
    (s := { sys.state (sys.callOf t) with reads := (sys.state (sys.callOf t)).reads ++ rs })
    fun _ => ⟨hhealthy.hole, hhealthy.valid⟩
  rw [ringOk_reads] at hring
  apply hring.mono _ fun _ hbad => hbad.1
  rintro r s' ⟨hok, heffect⟩
  exact ⟨hok, _, hread, heffect⟩

variable {s s' : State} {name : List UInt8} {opens r : Int32} {addr : UInt64}

theorem Effect.result [Image] (h : Effect s s' name opens addr r) : r = 0 ∨ r = -1 := by
  cases h with
  | refused => exact .inr rfl
  | unknown => exact .inr rfl
  | opened _ _ heffect =>
    cases heffect with
    | refused => exact .inr rfl
    | opened => exact .inl rfl
    | lost => exact .inr rfl
  | closed _ _ _ _ heffect =>
    cases heffect with
    | miscounted => exact .inr rfl
    | unmapped => exact .inl rfl
    | freed => exact .inl rfl

theorem Effect.reads [Image] (h : Effect s s' name opens addr r) : s'.reads = s.reads ∨
      (s'.reads = s.reads ++ wordBytes (cell s.pagetable addr) ∧ opens = 0 ∧
        getRingbufIndex s.ringbufs < MAX_RINGBUFS ∧
        (∃ len ≤ RINGBUF_NAME_LEN, strlen name = some len) ∧ findName s.ringbufs name ≠ none) := by
  cases h with
  | refused hs => exact .inl (by rw [hs])
  | unknown hs => exact .inl (by rw [hs])
  | opened _ _ heffect =>
    cases heffect with
    | refused hs => exact .inl (by rw [hs])
    | opened _ _ _ _ _ _ _ _ _ hopened => exact .inl hopened.reads
    | lost _ _ _ _ _ _ _ hopened => exact .inl hopened.reads
  | closed k hcount hopens hfind _ _ hreads _ hlen =>
    exact .inr ⟨hreads, hopens, hcount, hlen, Option.ne_none_iff_exists'.mpr ⟨k, hfind⟩⟩

theorem Effect.reads_of_close [Image] (h : Effect s s' name opens addr r) (hopens : opens = 0)
    (hcount : getRingbufIndex s.ringbufs < MAX_RINGBUFS)
    (hlen : ∃ len ≤ RINGBUF_NAME_LEN, strlen name = some len) (hfind : findName s.ringbufs name ≠ none) :
    s'.reads = s.reads ++ wordBytes (cell s.pagetable addr) := by
  cases h with
  | closed _ _ _ _ _ _ hreads => exact hreads
  | unknown _ _ hnone => exact absurd hnone hfind
  | opened _ hopen => exact absurd hopens hopen
  | refused _ hwhy =>
    obtain ⟨len, hle, hlen⟩ := hlen
    exact absurd hwhy (not_refused_early hcount hlen hle)

-- The system call returns 0 or -1 and has read nothing but memory of the user,
-- exactly if the ring call that it makes is robust.
theorem trap_returns_iff_robust [Image] {sys : Sys} (h : Sound sys) (t : Trap) :
    (∃ r s', sys.trap t = .ok (r, s') ∧ (r = 0 ∨ r = -1) ∧
      ∀ a ∈ s'.reads, UserByte (sys.pagetables t.pid) a) ↔ Robust sys (sys.callOf t) := by
  have hwp := sysRingbuf_wp h t rfl
  constructor
  · rintro ⟨r, s', hrun, _, hreads⟩
    obtain ⟨hok, s₁, ⟨rs, rfl, _⟩, heffect⟩ := hwp.ok hrun
    refine ⟨hok, fun hopens hcount hlen hfind a ha => hreads a ?_⟩
    rw [heffect.reads_of_close hopens hcount hlen hfind]
    exact List.mem_append_right _ ha
  · rintro ⟨hok, hcell⟩
    have hreturns := hwp.mono (fun _ _ hreturned => hreturned) (fun _ hbad => hbad hok)
    obtain ⟨r, s', hrun, _, s₁, ⟨rs, rfl, hrs⟩, heffect⟩ := hreturns.returns
    refine ⟨r, s', hrun, heffect.result, ?_⟩
    rcases heffect.reads with hreads | ⟨hreads, hopens, hcount, hlen, hfind⟩
    · rw [hreads]
      exact hrs
    · intro a ha
      rw [hreads] at ha
      rcases List.mem_append.mp ha with ha | ha
      · exact hrs a ha
      · exact hcell hopens hcount hlen hfind a ha

def smallTrap (a1 a2 value : UInt64) : Trap :=
  ⟨1, 16, a1, a2, [], fun a => if a = 0x87ffe010 then 97 else withCell 0x87ffe000 value a⟩

theorem trap_returns_iff_robust_open :
    @Robust smallImage (smallSys 80) ((smallSys 80).callOf (smallTrap 1 0 0)) := by
  let _ := smallImage
  have hsound := (smallSys_initial (show 80 ≤ 256 by decide)).sound
  have hrun : ((smallSys 80).trap (smallTrap 1 0 0)).toOption.map
      (fun result => (result.1, result.2.reads)) = some (0, [0x87ffe010, 0x87ffe011]) := by
    decide +kernel
  obtain ⟨⟨r, s'⟩, hok, hresult⟩ := Option.map_eq_some_iff.mp hrun
  obtain ⟨hr, hreads⟩ := Prod.ext_iff.mp hresult
  have hok' := ok_of_toOption hok
  refine (trap_returns_iff_robust hsound (smallTrap 1 0 0)).mp ⟨r, s', hok', .inl hr, ?_⟩
  intro a ha
  rw [show s'.reads = _ from hreads] at ha
  have hpage : ∀ a ∈ [(0x87ffe010 : UInt64), 0x87ffe011], (a - 0x87ffe000).toNat < 4096 :=
    List.forall_mem_cons.mpr ⟨by decide, List.forall_mem_singleton.mpr (by decide)⟩
  exact ⟨0, ⟨0x87ffe000, permRing⟩, rfl, rfl, hpage a ha⟩

def panicOf {α : Type} : Except Panic α → Option Panic
  | .error e => some e
  | .ok _ => none

theorem panicOf_eq {α : Type} {x : Except Panic α} {e : Panic} (h : panicOf x = some e) :
    x = .error e := by
  cases x with
  | error e' => exact congrArg Except.error (Option.some.inj h)
  | ok value => cases h

-- A process that has a ring open closes it, with the base plus one in its cell,
-- or with a cell that is not mapped.
theorem trap_panics_on_bad_cell : ∃ (sys : Sys) (maps : List Mapping),
    @Run smallImage _ ledger (fun _ _ _ => True) (smallSys 80, []) (sys, maps) ∧
    @Sound smallImage sys ∧
    @Sys.trap smallImage sys (smallTrap 0 0 0x3fffffc001) = .error .uvmunmapNotAligned ∧
    @Sys.trap smallImage sys (smallTrap 0 0x1000 0x3fffffc000) = .error .kerneltrap := by
  let _ := smallImage
  have hplay : (play ledger (fun _ _ _ => True) (smallSys 80, [])
      [⟨1, [97, 0], 1, 0, fun _ => 0⟩]).map (fun w =>
        (panicOf (w.1.trap (smallTrap 0 0 0x3fffffc001)),
          panicOf (w.1.trap (smallTrap 0 0x1000 0x3fffffc000)))) =
            some (some .uvmunmapNotAligned, some .kerneltrap) := by decide +kernel
  obtain ⟨⟨sys, maps⟩, hplay, hpanics⟩ := Option.map_eq_some_iff.mp hplay
  obtain ⟨haligned, hmapped⟩ := Prod.ext_iff.mp hpanics
  have hrun := run_of_play hplay
  have hsound : Sound sys := Run.invariant (P := fun sys _ => Sound sys) hrun
    (smallSys_initial (by decide)).sound (fun _ _ _ _ _ h _ hcall => h.next hcall)
  exact ⟨sys, maps, hrun, hsound, panicOf_eq haligned, panicOf_eq hmapped⟩

end Xv6Ringbuf.Kernel
