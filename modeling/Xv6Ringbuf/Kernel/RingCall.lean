import Xv6Ringbuf.Kernel.Effect

namespace Xv6Ringbuf.Kernel

open Machine

inductive Effect [Image] (s s' : State) (name : List UInt8) (opens : Int32) (addr : UInt64) :
    Int32 → Prop where
  | refused (hs : s' = s)
      (hwhy : MAX_RINGBUFS ≤ getRingbufIndex s.ringbufs ∨
        ∃ len, strlen name = some len ∧ RINGBUF_NAME_LEN < len) : Effect s s' name opens addr (-1)
  | unknown (hs : s' = s) (hopens : opens = 0) (hfind : findName s.ringbufs name = none) :
      Effect s s' name opens addr (-1)
  | opened {r : Int32} (hcount : getRingbufIndex s.ringbufs < MAX_RINGBUFS) (hopens : opens ≠ 0)
      (heffect : OpenEffect s s' name addr r) : Effect s s' name opens addr r
  | closed {r : Int32} (k : Fin MAX_RINGBUFS) (hcount : getRingbufIndex s.ringbufs < MAX_RINGBUFS)
      (hopens : opens = 0) (hfind : findName s.ringbufs name = some k)
      (heffect : Closed s s' k (closeBase s addr) r) (hgiven : s'.given = s.given)
      (hreads : s'.reads = s.reads ++ wordBytes (cell s.pagetable addr)) (hok : CloseOk s k addr)
      (hlen : ∃ len ≤ RINGBUF_NAME_LEN, strlen name = some len) : Effect s s' name opens addr r

theorem not_refused_early {rbs : Ringbufs} {name : List UInt8} {len : Nat}
    (hcount : getRingbufIndex rbs < MAX_RINGBUFS) (hlen : strlen name = some len)
    (hle : len ≤ RINGBUF_NAME_LEN) : ¬(MAX_RINGBUFS ≤ getRingbufIndex rbs ∨
      ∃ len, strlen name = some len ∧ RINGBUF_NAME_LEN < len) := by
  rintro (hfull | ⟨len', hlen', hlong⟩)
  · exact absurd hfull (Nat.not_le.mpr hcount)
  · rw [hlen] at hlen'
    cases hlen'
    exact absurd hlong (Nat.not_lt.mpr hle)

def DispatchOk [Image] (s : State) (name : List UInt8) (opens : Int32) (addr : UInt64) : Prop :=
  match findName s.ringbufs name with
  | none => opens ≠ 0 → CreateOk s name
  | some k => (opens ≠ 0 → AppendOk s k) ∧ (opens = 0 → CloseOk s k addr)

def RingOk [Image] (s : State) (name : List UInt8) (opens : Int32) (addr : UInt64) : Prop :=
  MAX_RINGBUFS ≤ getRingbufIndex s.ringbufs ∨
    ∃ len, strlen name = some len ∧
      (RINGBUF_NAME_LEN < len ∨ DispatchOk s name opens addr)

variable {s s' : State} {name : List UInt8} {addr : UInt64} {r : Int32}

theorem OpenEffect.result (h : OpenEffect s s' name addr r) : (if r ≠ 0 then -1 else 0) = r := by
  cases h with
  | refused => rfl
  | opened => rfl
  | lost => rfl

theorem Closed.result [Image] {k : Fin MAX_RINGBUFS} {va : UInt64} (h : Closed s s' k va r) :
    (if r ≠ 0 then -1 else 0) = r := by
  cases h with
  | miscounted => rfl
  | unmapped => rfl
  | freed => rfl

theorem handOn_wp {x : K Int32} {Q : Int32 → State → Prop} {E : Panic → Prop}
    (h : wp x s (fun r s' => (if r ≠ 0 then -1 else 0) = r ∧ Q r s') E) :
    wp (do if (← x) ≠ 0 then return -1 else return 0) s Q E := by
  refine wp_call h ?_
  rintro r s' ⟨hr, hQ⟩
  by_cases hne : r ≠ 0
  · rw [if_pos hne] at hr ⊢
    rw [hr]
    exact hQ
  · rw [if_neg hne] at hr ⊢
    rw [hr]
    exact hQ

theorem ringbuf_wp [Image] (name : List UInt8) (opens : Int32) (addr : UInt64)
    (hs : opens ≠ 0 → Healthy s) :
    wp (ringbuf name opens addr) s
      (fun r s' => RingOk s name opens addr ∧ Effect s s' name opens addr r)
      (fun e => ¬RingOk s name opens addr ∧ (e = .mappagesRemap → opens ≠ 0 → Occupied s name)) := by
  unfold ringbuf
  apply wp_get_bind
  by_cases hfull : MAX_RINGBUFS ≤ getRingbufIndex s.ringbufs
  · rw [if_pos hfull]
    exact ⟨.inl hfull, .refused rfl (.inl hfull)⟩
  · rw [if_neg hfull]
    have hcount : getRingbufIndex s.ringbufs < MAX_RINGBUFS := Nat.lt_of_not_le hfull
    cases hlen : strlen name with
    | none =>
      refine wp_throw ⟨?_, fun he => by cases he⟩
      rintro (h | ⟨len, h, _⟩)
      · exact hfull h
      · rw [hlen] at h
        cases h
    | some len =>
      by_cases hlong : RINGBUF_NAME_LEN < len
      · simp only [if_pos hlong]
        exact ⟨.inr ⟨len, hlen, .inl hlong⟩, .refused rfl (.inr ⟨len, hlen, hlong⟩)⟩
      · simp only [if_neg hlong]
        have hok : RingOk s name opens addr ↔ DispatchOk s name opens addr := by
          constructor
          · rintro (h | ⟨len', h, hlong' | hok⟩)
            · exact absurd h hfull
            · rw [hlen] at h
              cases h
              exact absurd hlong' hlong
            · exact hok
          · intro h
            exact .inr ⟨len, hlen, .inr h⟩
        rw [hok, DispatchOk]
        apply wp_get_bind
        cases hfind : findName s.ringbufs name with
        | none =>
          simp only [Option.isSome_none, Bool.false_eq_true, not_false_eq_true, if_true]
          by_cases hopens : opens ≠ 0
          · rw [if_pos hopens]
            apply handOn_wp
            apply (createRingbuf_wp (hs hopens) hfind hcount).mono
            · rintro r s' ⟨hcreate, heffect⟩
              exact ⟨heffect.result, fun _ => hcreate, .opened hcount hopens heffect⟩
            · exact fun e hbad => ⟨fun hcreate => hbad.1 (hcreate hopens), fun he _ => hbad.2 he⟩
          · rw [if_neg hopens]
            rw [not_not] at hopens
            apply handOn_wp
            unfold unmapRingbuf
            apply wp_get_bind
            rw [hfind]
            exact ⟨rfl, fun h => absurd hopens h, .unknown rfl hopens hfind⟩
        | some k =>
          simp only [Option.isSome_some, not_true_eq_false, if_false]
          by_cases hopens : opens ≠ 0
          · rw [if_pos hopens]
            apply handOn_wp
            apply (appendRingbuf_wp (hs hopens) hfind).mono
            · rintro r s' ⟨happend, heffect⟩
              exact ⟨heffect.result, ⟨fun _ => happend, fun h => absurd h hopens⟩,
                .opened hcount hopens heffect⟩
            · exact fun e hbad => ⟨fun hdispatch => hbad.1 (hdispatch.1 hopens), fun he _ => hbad.2 he⟩
          · rw [if_neg hopens]
            rw [not_not] at hopens
            apply handOn_wp
            apply (unmapRingbuf_wp hfind).mono
            · rintro r s' ⟨hclose, heffect, hgiven, hreads⟩
              exact ⟨heffect.result, ⟨fun h => absurd hopens h, fun _ => hclose⟩,
                .closed k hcount hopens hfind heffect hgiven hreads hclose
                  ⟨len, Nat.le_of_not_lt hlong, hlen⟩⟩
            · exact fun e hbad => ⟨fun hdispatch => hbad (hdispatch.2 hopens), fun _ hne => absurd hopens hne⟩

theorem ringbuf_effect [Image] {opens : Int32} (hs : Healthy s)
    (hrun : (ringbuf name opens addr).run s = .ok (r, s')) :
    Effect s s' name opens addr r :=
  ((ringbuf_wp name opens addr fun _ => hs).ok hrun).2

end Xv6Ringbuf.Kernel
