import Xv6Ringbuf.User.Library
import Xv6Ringbuf.User.Calls

namespace Xv6Ringbuf.User.Library

open Interleave Function

inductive Request where
  | opens (name : List UInt8) (addr : UInt64)
  | close (rd : Int32) (name : List UInt8)
  | startRead (rd : Int32)
  | finishRead (rd bytes : Int32)
  | startWrite (rd : Int32)
  | finishWrite (rd bytes : Int32)

inductive Result where
  | returned (value : Int32)
  | window (addr : UInt64) (bytes : Int32)
  | finished
  | exited
deriving DecidableEq

def Request.code : Request → Code Result
  | .opens name addr => do return .returned (← ringbufOpen name addr)
  | .close rd name => do return .returned (← ringbufClose rd name)
  | .startRead rd => do
      let (addr, bytes) ← ringbufStartRead rd
      return .window addr bytes
  | .finishRead rd bytes => do
      ringbufFinishRead rd bytes
      return .finished
  | .startWrite rd => do
      let (addr, bytes) ← ringbufStartWrite rd
      return .window addr bytes
  | .finishWrite rd bytes => do
      ringbufFinishWrite rd bytes
      return .finished

def Request.descriptor : Request → Option Int32
  | .opens _ _ => none
  | .close rd _ => some rd
  | .startRead rd => some rd
  | .finishRead rd _ => some rd
  | .startWrite rd => some rd
  | .finishWrite rd _ => some rd

structure Done where
  request : Request
  result : Result
  log : List Access

variable {ω : Type} (w : World ω)

def history : Process ω → List Request → List Done
  | _, [] => []
  | s, c :: rest =>
    match c.code.play (perform w) { s with log := [] } with
    | (none, s') => [⟨c, .exited, s'.log⟩]
    | (some result, s') => ⟨c, result, s'.log⟩ :: history s' rest

-- The descriptors that an open has returned and no close has released.
def track (held : List Int32) (d : Done) : List Int32 :=
  match d.request, d.result with
  | .opens _ _, .returned rd => if 0 ≤ rd then rd :: held else held
  | .close rd _, .returned value => if value = 0 then held.filter (· ≠ rd) else held
  | _, _ => held

-- The table is accessed inside of its bounds, and a request with a descriptor that
-- is not held ends the process after it has at most read the table.
structure Checked (held : List Int32) (d : Done) : Prop where
  bounds : ∀ i, .read i ∈ d.log ∨ .write i ∈ d.log → i < MAX_USR_RINGBUF.toNatClampNeg
  exits : ∀ rd, d.request.descriptor = some rd → rd ∉ held →
    d.result = .exited ∧ ∀ a ∈ d.log, ∃ i, a = .read i

variable {w}

section Log

variable {α β : Type}

-- Code that reads only some entries of the table and changes none.
def Looks (allowed : Nat → Prop) : Code α → Prop
  | .ret _ => True
  | .halt => True
  | .act (.slot i) next => allowed i ∧ ∀ rb, Looks allowed (next rb)
  | .act (.setSlot _ _) _ => False
  | .act (.ringbuf _ _ _) next => ∀ reply, Looks allowed (next reply)
  | .act (.load _ _) next => ∀ value, Looks allowed (next value)
  | .act (.store _ _ _) next => Looks allowed (next ())

variable {allowed : Nat → Prop} {p : Code α}

theorem Looks.bind {f : α → Code β} (h : Looks allowed p) (hnext : ∀ value, Looks allowed (f value)) :
    Looks allowed (p >>= f) := by
  induction p with
  | ret value => exact hnext value
  | halt => trivial
  | act op next ih =>
    cases op with
    | slot i => exact ⟨h.1, fun rb => ih rb (h.2 rb)⟩
    | setSlot i rb => exact h.elim
    | ringbuf name opens addr => exact fun reply => ih reply (h reply)
    | load book cell => exact fun value => ih value (h value)
    | store book cell value => exact ih () h

theorem Looks.ite {cond : Prop} [Decidable cond] {q : Code α} (hp : Looks allowed p)
    (hq : Looks allowed q) : Looks allowed (if cond then p else q) := by
  split
  · exact hp
  · exact hq

theorem looks_slot {i : Nat} (h : allowed i) : Looks allowed (slot i) :=
  ⟨h, fun _ => trivial⟩

theorem looks_load (allowed : Nat → Prop) (book : UInt64) (cell : Cell) :
    Looks allowed (load book cell) := fun _ => trivial

theorem looks_store (allowed : Nat → Prop) (book : UInt64) (cell : Cell) (value : UInt64) :
    Looks allowed (store book cell value) := trivial

theorem looks_pure (allowed : Nat → Prop) (value : α) : Looks allowed (pure value : Code α) := trivial

theorem looks_halt (allowed : Nat → Prop) : Looks allowed (.halt : Code α) := trivial

theorem Looks.play (h : Looks allowed p) (s : Process ω) :
    (p.play (perform w) s).2.table = s.table ∧
      ∃ log, (p.play (perform w) s).2.log = s.log ++ log ∧
        ∀ i, .read i ∈ log ∨ .write i ∈ log → allowed i := by
  induction p generalizing s with
  | ret value => exact ⟨rfl, [], by rw [List.append_nil]; rfl, by simp⟩
  | halt => exact ⟨rfl, [], by rw [List.append_nil]; rfl, by simp⟩
  | act op next ih =>
    -- one access, then what the rest does
    have hcons : ∀ (a : Access) (s' : Process ω) (answer : Reply op), s'.table = s.table →
        s'.log = s.log ++ [a] → Looks allowed (next answer) →
        (∀ i, Access.read i = a ∨ Access.write i = a → allowed i) →
        ((next answer).play (perform w) s').2.table = s.table ∧
          ∃ log, ((next answer).play (perform w) s').2.log = s.log ++ log ∧
            ∀ i, .read i ∈ log ∨ .write i ∈ log → allowed i := by
      intro a s' answer htable hlog hnext hallowed
      obtain ⟨hkept, log, hplay, hrest⟩ := ih answer hnext s'
      refine ⟨hkept.trans htable, a :: log, ?_, ?_⟩
      · rw [hplay, hlog, List.append_assoc, List.singleton_append]
      · intro i hi
        rw [List.mem_cons, List.mem_cons] at hi
        rcases hi with (hread | hread) | (hwrite | hwrite)
        · exact hallowed i (.inl hread)
        · exact hrest i (.inl hread)
        · exact hallowed i (.inr hwrite)
        · exact hrest i (.inr hwrite)
    cases op with
    | slot i =>
      refine hcons (.read i) _ _ rfl rfl (h.2 _) fun j hj => ?_
      rcases hj with hj | hj
      · cases hj
        exact h.1
      · cases hj
    | setSlot i rb => exact h.elim
    | ringbuf name opens addr => exact hcons .call _ _ rfl rfl (h _) (by simp)
    | load book cell => exact hcons (.book book) _ _ rfl rfl (h _) (by simp)
    | store book cell value => exact hcons (.book book) _ _ rfl rfl h (by simp)

theorem log_extends (p : Code α) (s : Process ω) :
    ∃ log, (p.play (perform w) s).2.log = s.log ++ log := by
  induction p generalizing s with
  | ret value => exact ⟨[], by rw [List.append_nil]; rfl⟩
  | halt => exact ⟨[], by rw [List.append_nil]; rfl⟩
  | act op next ih =>
    obtain ⟨log, hlog⟩ := ih (perform w op s).1 (perform w op s).2
    have hone : ∃ a, (perform w op s).2.log = s.log ++ [a] := by
      cases op with
      | slot i => exact ⟨_, rfl⟩
      | setSlot i rb => exact ⟨_, rfl⟩
      | ringbuf name opens addr => exact ⟨_, rfl⟩
      | load book cell => exact ⟨_, rfl⟩
      | store book cell value => exact ⟨_, rfl⟩
    obtain ⟨a, ha⟩ := hone
    refine ⟨a :: log, ?_⟩
    rw [Prog.play, hlog, ha, List.append_assoc, List.singleton_append]

end Log

section Requests

variable {α : Type} (s : Process ω) (rd : Int32)

def Process.checked (s : Process ω) (rd : Int32) : Process ω := { s with log := s.log ++ checkLog rd }

theorem play_request (body : Code α) (f : α → Code Result) :
    ((isRdValid rd >>= fun r => if r ≠ 0 then .halt else body) >>= f).play (perform w) s =
      if User.isRdValid s.table rd ≠ 0 then (none, s.checked rd)
      else (body >>= f).play (perform w) (s.checked rd) := by
  rw [Prog.play_bind, play_checked]
  by_cases hrd : User.isRdValid s.table rd ≠ 0
  · rw [if_pos hrd, if_pos hrd]
    rfl
  · rw [if_neg hrd, if_neg hrd, Prog.play_bind]
    rfl

theorem play_book {c : Request} (hc : c.descriptor = some rd) (hclose : ∀ name, c ≠ .close rd name) :
    ∃ body : Code Result, Looks (· = rd.toNatClampNeg) body ∧ ∀ s : Process ω,
      c.code.play (perform w) s = if User.isRdValid s.table rd ≠ 0 then (none, s.checked rd)
        else body.play (perform w) (s.checked rd) := by
  cases c with
  | opens name addr => cases hc
  | close rd' name =>
    cases hc
    exact absurd rfl (hclose name)
  | startRead rd' =>
    cases hc
    refine ⟨_, ?_, fun s => play_request s rd _ _⟩
    refine .bind ?_ fun _ => looks_pure _ _
    exact .bind (looks_slot rfl) fun _ => .bind (looks_load _ _ _) fun _ =>
      .bind (looks_load _ _ _) fun _ => looks_pure _ _
  | startWrite rd' =>
    cases hc
    refine ⟨_, ?_, fun s => play_request s rd _ _⟩
    refine .bind ?_ fun _ => looks_pure _ _
    exact .bind (looks_slot rfl) fun _ => .bind (looks_load _ _ _) fun _ =>
      .bind (looks_load _ _ _) fun _ => looks_pure _ _
  | finishRead rd' bytes =>
    cases hc
    refine ⟨_, ?_, fun s => play_request s rd _ _⟩
    refine .bind ?_ fun _ => looks_pure _ _
    exact .bind (looks_slot rfl) fun _ => .bind (looks_load _ _ _) fun _ =>
      .bind (looks_load _ _ _) fun _ => .ite (looks_pure _ _) (.ite (looks_store _ _ _ _) (looks_pure _ _))
  | finishWrite rd' bytes =>
    cases hc
    refine ⟨_, ?_, fun s => play_request s rd _ _⟩
    refine .bind ?_ fun _ => looks_pure _ _
    exact .bind (looks_slot rfl) fun _ => .bind (looks_load _ _ _) fun _ =>
      .bind (looks_load _ _ _) fun _ => .ite (looks_halt _) (looks_store _ _ _ _)

theorem play_close (name : List UInt8) (hrd : User.isRdValid s.table rd = 0) :
    ∃ world, (Request.close rd name).code.play (perform w) s =
        (some (.returned (-1)),
          ⟨s.table, world, (s.checked rd).log ++ [Access.read rd.toNatClampNeg] ++ [Access.call]⟩) ∨
      (Request.close rd name).code.play (perform w) s =
        (some (.returned 0), ⟨update s.table rd.toNatClampNeg ⟨0, 0, 0⟩, world,
          (s.checked rd).log ++ [Access.read rd.toNatClampNeg] ++ [Access.call] ++
            [Access.write rd.toNatClampNeg]⟩) := by
  rw [Request.code, ringbufClose, play_request, if_neg (not_not.mpr hrd), Prog.play_bind, play_slot,
    play_ringbuf]
  generalize w.ringbuf _ _ _ _ = reply
  obtain ⟨⟨result, addr⟩, world⟩ := reply
  refine ⟨world, ?_⟩
  by_cases hresult : result ≠ 0
  · left
    simp only [if_pos hresult]
    rfl
  · right
    simp only [if_neg hresult]
    rfl

theorem play_opens (name : List UInt8) (addr : UInt64) :
    ∃ world, (Request.opens name addr).code.play (perform w) s =
        (some (.returned (-1)), ⟨s.table, world, s.log ++ [Access.call]⟩) ∨
      ∃ base log, (Request.opens name addr).code.play (perform w) s =
        (some (.returned (User.claimEntry s.table base MAX_USR_RINGBUF.toNatClampNeg 0).2),
          ⟨(User.claimEntry s.table base MAX_USR_RINGBUF.toNatClampNeg 0).1, world,
            s.log ++ [Access.call] ++ log⟩) ∧
        ∀ a ∈ log, ∃ j, j < MAX_USR_RINGBUF.toNatClampNeg ∧ (a = .read j ∨ a = .write j) := by
  rw [Request.code, ringbufOpen, Prog.play_bind, play_ringbuf]
  generalize w.ringbuf _ _ _ _ = reply
  obtain ⟨⟨result, base⟩, world⟩ := reply
  refine ⟨world, ?_⟩
  by_cases hresult : result ≠ 0
  · left
    simp only [if_pos hresult]
    rfl
  · right
    simp only [if_neg hresult]
    obtain ⟨log, hplay, hlog⟩ := play_claimEntry (w := w) base MAX_USR_RINGBUF.toNatClampNeg 0
      ⟨s.table, world, s.log ++ [Access.call]⟩
    refine ⟨base, log, ?_, ?_⟩
    · rw [hplay]
      rfl
    · intro a ha
      obtain ⟨j, _, hlt, haccess⟩ := hlog a ha
      exact ⟨j, by omega, haccess⟩

end Requests

structure Agrees (table : UserRingBufs) (held : List Int32) : Prop where
  flag : ∀ i < 10, (table i).existsFlag = if Int32.ofNat i ∈ held then 1 else 0
  range : ∀ rd ∈ held, 0 ≤ rd.toInt ∧ rd.toInt < 10

variable {rd : Int32} {j : Nat} {table : UserRingBufs} {held : List Int32}

theorem ofNat_toNatClampNeg (h : 0 ≤ rd.toInt) : Int32.ofNat rd.toNatClampNeg = rd := by
  have hlt := rd.toInt_lt
  have hclamp : rd.toNatClampNeg = rd.toInt.toNat := rd.toNat_toInt.symm
  apply Int32.toInt_inj.mp
  rw [Int32.toInt_ofNat_of_lt (by omega), hclamp]
  omega

theorem toNatClampNeg_lt (h : rd.toInt < 10) : rd.toNatClampNeg < 10 := by
  have hclamp : rd.toNatClampNeg = rd.toInt.toNat := rd.toNat_toInt.symm
  omega

theorem ofNat_inj {i : Nat} (hi : i < 10) (hj : j < 10) (h : Int32.ofNat i = Int32.ofNat j) :
    i = j := by
  have hint := congrArg Int32.toInt h
  rw [Int32.toInt_ofNat_of_lt (by omega), Int32.toInt_ofNat_of_lt (by omega)] at hint
  omega

theorem in_range_iff (hne : rd ≠ MAX_USR_RINGBUF) :
    ¬(rd < 0 ∨ MAX_USR_RINGBUF < rd) ↔ 0 ≤ rd.toInt ∧ rd.toInt < 10 := by
  have hint : rd.toInt ≠ 10 := fun h => hne (Int32.toInt_inj.mp h)
  rw [Int32.lt_iff_toInt_lt, Int32.lt_iff_toInt_lt, show MAX_USR_RINGBUF.toInt = 10 by decide,
    show (0 : Int32).toInt = 0 by decide]
  omega

theorem Agrees.valid_iff (h : Agrees table held) (hne : rd ≠ MAX_USR_RINGBUF) :
    User.isRdValid table rd = 0 ↔ rd ∈ held := by
  have hvalid : User.isRdValid table rd = 0 ↔
      ¬(rd < 0 ∨ MAX_USR_RINGBUF < rd) ∧ (table rd.toNatClampNeg).existsFlag ≠ 0 := by
    rw [isRdValid_eq]
    by_cases hrange : rd < 0 ∨ MAX_USR_RINGBUF < rd
    · rw [if_pos hrange]
      exact iff_of_false (by decide) fun h => h.1 hrange
    · rw [if_neg hrange]
      by_cases hexists : (table rd.toNatClampNeg).existsFlag = 0
      · rw [if_pos hexists]
        exact iff_of_false (by decide) fun h => h.2 hexists
      · rw [if_neg hexists]
        exact iff_of_true rfl ⟨hrange, hexists⟩
  rw [hvalid, in_range_iff hne]
  constructor
  · rintro ⟨⟨hpos, hlt⟩, hflag⟩
    rw [h.flag _ (toNatClampNeg_lt hlt), ofNat_toNatClampNeg hpos] at hflag
    by_contra hmem
    rw [if_neg hmem] at hflag
    exact hflag rfl
  · intro hmem
    obtain ⟨hpos, hlt⟩ := h.range rd hmem
    refine ⟨⟨hpos, hlt⟩, ?_⟩
    rw [h.flag _ (toNatClampNeg_lt hlt), ofNat_toNatClampNeg hpos, if_pos hmem]
    decide

theorem claimEntry_cases (table : UserRingBufs) (addr : UInt64) (fuel i : Nat) :
    (User.claimEntry table addr fuel i = (table, -1) ∧
        ∀ j, i ≤ j → j < i + fuel → (table j).existsFlag = 1) ∨
      ∃ j, i ≤ j ∧ j < i + fuel ∧ (table j).existsFlag ≠ 1 ∧
        User.claimEntry table addr fuel i =
          (update table j (entryOf addr), Int32.ofNat j) := by
  induction fuel generalizing i with
  | zero => exact .inl ⟨rfl, fun j hle hlt => absurd hlt (by omega)⟩
  | succ fuel ih =>
    rw [User.claimEntry]
    by_cases hfree : (table i).existsFlag ≠ 1
    · rw [if_pos hfree]
      exact .inr ⟨i, Nat.le_refl i, by omega, hfree, rfl⟩
    · rw [if_neg hfree]
      rw [not_not] at hfree
      cases ih (i + 1) with
      | inl hnone =>
        refine .inl ⟨hnone.1, fun j hle hlt => ?_⟩
        by_cases heq : j = i
        · rw [heq, hfree]
        · exact hnone.2 j (by omega) (by omega)
      | inr hsome =>
        obtain ⟨j, hle, hlt, hj, hclaim⟩ := hsome
        exact .inr ⟨j, by omega, by omega, hj, hclaim⟩

theorem Agrees.claim (h : Agrees table held) (hj : j < 10) (addr : UInt64) :
    Agrees (update table j (entryOf addr)) (Int32.ofNat j :: held) := by
  have hint : (Int32.ofNat j).toInt = j := Int32.toInt_ofNat_of_lt (by omega)
  refine ⟨fun i hi => ?_, fun rd hrd => ?_⟩
  · by_cases heq : i = j
    · rw [heq, update_self, if_pos List.mem_cons_self]
      rfl
    · have hne : Int32.ofNat i ≠ Int32.ofNat j := fun hof => heq (ofNat_inj hi hj hof)
      rw [update_of_ne heq, h.flag i hi]
      simp only [List.mem_cons, hne, false_or]
  · cases List.mem_cons.mp hrd with
    | inl hhead =>
      rw [hhead, hint]
      omega
    | inr htail => exact h.range rd htail

theorem Agrees.release (h : Agrees table held) (hrd : rd ∈ held) :
    Agrees (update table rd.toNatClampNeg ⟨0, 0, 0⟩) (held.filter (· ≠ rd)) := by
  obtain ⟨hpos, hlt⟩ := h.range rd hrd
  have hof := ofNat_toNatClampNeg hpos
  refine ⟨fun i hi => ?_, fun rd' hrd' => h.range rd' (List.mem_of_mem_filter hrd')⟩
  by_cases heq : i = rd.toNatClampNeg
  · rw [heq, update_self, hof, if_neg (by simp)]
  · have hne : Int32.ofNat i ≠ rd := by
      intro hi'
      rw [← hof] at hi'
      exact heq (ofNat_inj hi (toNatClampNeg_lt hlt) hi')
    rw [update_of_ne heq, h.flag i hi]
    simp only [List.mem_filter, hne, decide_true, and_true, ne_eq, not_false_eq_true]

end Xv6Ringbuf.User.Library
