import Xv6Ringbuf.Kernel.RingCall

namespace Xv6Ringbuf.Kernel

open Machine

def Refused [Image] (s : State) (name : List UInt8) (opens : Int32) (addr : UInt64) : Prop :=
  (ringbuf name opens addr).run s = .ok (-1, s)

section Refused

variable [Image] {s : State} {name : List UInt8} {opens : Int32} {addr : UInt64}

theorem refused_of_wp (h : wp (ringbuf name opens addr) s (fun r s' => r = -1 ∧ s' = s) fun _ => False) :
    Refused s name opens addr := by
  obtain ⟨r, s', hrun, rfl, rfl⟩ := h.returns
  exact hrun

theorem refused_of_full (hfull : MAX_RINGBUFS ≤ getRingbufIndex s.ringbufs) : Refused s name opens addr := by
  apply refused_of_wp
  unfold ringbuf
  apply wp_get_bind
  rw [if_pos hfull]
  exact ⟨rfl, rfl⟩

theorem refused_of_long {len : Nat} (hlen : strlen name = some len) (hlong : RINGBUF_NAME_LEN < len) :
    Refused s name opens addr := by
  by_cases hfull : MAX_RINGBUFS ≤ getRingbufIndex s.ringbufs
  · exact refused_of_full hfull
  · apply refused_of_wp
    unfold ringbuf
    apply wp_get_bind
    rw [if_neg hfull]
    simp only [hlen, if_pos hlong]
    exact ⟨rfl, rfl⟩

variable {len : Nat} (hcount : getRingbufIndex s.ringbufs < MAX_RINGBUFS) (hlen : strlen name = some len)
  (hle : len ≤ RINGBUF_NAME_LEN)

include hcount hlen hle

theorem open_refused_iff (hs : Healthy s) (hopens : opens ≠ 0) : Refused s name opens addr ↔
    s.pagetable.room = none ∨ ∃ k, findName s.ringbufs name = some k ∧ (s.ringbufs k).refcount < 0 := by
  constructor
  · intro hrun
    cases ringbuf_effect hs hrun with
    | refused _ hwhy => exact absurd hwhy (not_refused_early hcount hlen hle)
    | unknown _ hclose => exact absurd hclose hopens
    | closed _ _ hclose => exact absurd hclose hopens
    | opened _ _ heffect =>
      cases heffect with
      | refused _ hwhy => exact hwhy
      | lost k n rb rb' _ _ _ hopened =>
        have hnone := hopened.unmapped n (Nat.le_refl n) (by omega)
        rw [hopened.leaf, mapRing, if_pos ⟨Nat.le_refl n, by omega⟩] at hnone
        cases hnone
  · intro hwhy
    have hok : RingOk s name opens addr := by
      refine .inr ⟨len, hlen, .inr ?_⟩
      unfold DispatchOk
      cases hfind : findName s.ringbufs name with
      | none =>
        rintro - top hroom
        rcases hwhy with hnone | ⟨k, hk, _⟩
        · rw [hnone] at hroom
          cases hroom
        · rw [hfind] at hk
          cases hk
      | some k =>
        refine ⟨fun _ top hroom href => ?_, fun hclose => absurd hclose hopens⟩
        rcases hwhy with hnone | ⟨j, hj, hneg⟩
        · rw [hnone] at hroom
          cases hroom
        · rw [hfind] at hj
          cases hj
          omega
    have hwp := (ringbuf_wp name opens addr fun _ => hs).mono (fun _ _ hreturned => hreturned)
      fun _ hbad => hbad.1 hok
    obtain ⟨r, s', hrun, _, heffect⟩ := hwp.returns
    have hopened : ∀ {n k rb}, Placed s name n → Source s.ringbufs name k rb → False := by
      intro n k rb hplaced hsource
      rcases hwhy with hnone | ⟨j, hj, hneg⟩
      · exact hplaced.room hnone
      · cases hsource with
        | create hfind =>
          rw [hfind] at hj
          cases hj
        | append hfind href =>
          rw [hfind] at hj
          cases hj
          omega
    cases heffect with
    | refused hs =>
      rw [hs] at hrun
      exact hrun
    | unknown hs =>
      rw [hs] at hrun
      exact hrun
    | closed _ _ hclose => exact absurd hclose hopens
    | opened _ _ heffect =>
      cases heffect with
      | refused hs =>
        rw [hs] at hrun
        exact hrun
      | opened k n base rb rb' _ _ _ hsource _ _ _ _ hplaced => exact (hopened hplaced hsource).elim
      | lost k n rb rb' _ _ hsource _ _ _ _ hplaced => exact (hopened hplaced hsource).elim

theorem close_refused_iff (hopens : opens = 0) :
    Refused s name opens addr ↔ findName s.ringbufs name = none := by
  have hwp := ringbuf_wp name opens addr (s := s) fun hne => absurd hopens hne
  constructor
  · intro hrun
    cases (hwp.ok hrun).2 with
    | refused _ hwhy => exact absurd hwhy (not_refused_early hcount hlen hle)
    | unknown _ _ hnone => exact hnone
    | opened _ hopen => exact absurd hopens hopen
    | closed _ _ _ _ _ _ hreads =>
      have hlength := congrArg List.length hreads
      simp [wordBytes] at hlength
  · intro hnone
    have hok : RingOk s name opens addr := by
      refine .inr ⟨len, hlen, .inr ?_⟩
      unfold DispatchOk
      rw [hnone]
      exact fun hne => absurd hopens hne
    obtain ⟨r, s', hrun, _, heffect⟩ :=
      (hwp.mono (fun _ _ hreturned => hreturned) fun _ hbad => hbad.1 hok).returns
    cases heffect with
    | refused hs =>
      rw [hs] at hrun
      exact hrun
    | unknown hs =>
      rw [hs] at hrun
      exact hrun
    | opened _ hopen => exact absurd hopens hopen
    | closed k _ _ hfind =>
      rw [hnone] at hfind
      cases hfind

end Refused

-- What `strlen` and `strncpy` see of a string that has its terminator in the
-- first part of a buffer.
section Strings

variable {l : List UInt8} {n : Nat}

theorem strlen_append (h : 0 ∈ l) (x : List UInt8) : strlen (l ++ x) = strlen l := by
  induction l with
  | nil => cases h
  | cons c l ih =>
    rw [List.cons_append, strlen, strlen]
    by_cases hc : c = 0
    · rw [if_pos hc, if_pos hc]
    · rw [if_neg hc, if_neg hc, ih ((List.mem_cons.mp h).resolve_left fun h => hc h.symm)]

theorem strncpy_append (h : 0 ∈ l) (x : List UInt8) (n : Nat) :
    strncpy (l ++ x) n = strncpy l n := by
  induction n generalizing l with
  | zero => rfl
  | succ n ih =>
    cases l with
    | nil => cases h
    | cons c l =>
      rw [List.cons_append, strncpy, strncpy]
      by_cases hc : c = 0
      · rw [List.headD_cons, List.headD_cons, if_pos hc, if_pos hc]
      · rw [List.headD_cons, List.headD_cons, if_neg hc, if_neg hc, List.tail_cons, List.tail_cons,
          ih ((List.mem_cons.mp h).resolve_left fun h => hc h.symm)]

theorem strlen_ne_none (h : 0 ∈ l) : strlen l ≠ none := by
  induction l with
  | nil => cases h
  | cons c l ih =>
    rw [strlen]
    by_cases hc : c = 0
    · simp [hc]
    · rw [if_neg hc]
      simpa using ih ((List.mem_cons.mp h).resolve_left fun h => hc h.symm)

theorem strlen_append_of_not_mem (h : 0 ∉ l) (x : List UInt8) :
    strlen (l ++ x) = (strlen x).map (l.length + ·) := by
  induction l with
  | nil => simp
  | cons c l ih =>
    rw [List.mem_cons, not_or] at h
    rw [List.cons_append, strlen, if_neg fun hc => h.1 hc.symm, ih h.2, Option.map_map, List.length_cons]
    congr 1
    funext n
    simp only [Function.comp_apply]
    omega

theorem strncpy_append_of_not_mem (h : 0 ∉ l) (x : List UInt8) (hlen : l.length ≤ n) :
    strncpy (l ++ x) n = l ++ strncpy x (n - l.length) := by
  induction l generalizing n with
  | nil => simp
  | cons c l ih =>
    obtain ⟨n, rfl⟩ : ∃ m, n = m + 1 := ⟨n - 1, by simp at hlen; omega⟩
    rw [List.mem_cons, not_or] at h
    rw [List.cons_append, strncpy, List.headD_cons, if_neg fun hc => h.1 hc.symm, List.tail_cons,
      ih h.2 (by simpa using hlen), List.length_cons, Nat.add_sub_add_right, List.cons_append]

theorem length_strncpy (t : List UInt8) (n : Nat) : (strncpy t n).length = n := by
  induction n generalizing t with
  | zero => rfl
  | succ n ih =>
    rw [strncpy]
    split
    · exact List.length_replicate
    · rw [List.length_cons, ih]

theorem strncpy_append_self (l : List UInt8) (x : List UInt8) (hlen : l.length = n) :
    strncpy (l ++ x) n = strncpy l n := by
  induction n generalizing l with
  | zero => rfl
  | succ n ih =>
    cases l with
    | nil => cases hlen
    | cons c l =>
      rw [List.cons_append, strncpy, strncpy, List.headD_cons, List.headD_cons, List.tail_cons,
        List.tail_cons, ih l (Nat.succ.inj hlen)]

end Strings

variable {name name' : List UInt8}

theorem findName_key (h : key name = key name') (rbs : Ringbufs) :
    findName rbs name = findName rbs name' := by
  unfold findName
  simp only [strncmp_eq_zero_iff]
  rw [show strncpy name RINGBUF_NAME_LEN = strncpy name' RINGBUF_NAME_LEN from h]

theorem ringbuf_congr [Image] (hlen : strlen name = strlen name') (hkey : key name = key name')
    (opens : Int32) (addr : UInt64) :
    ringbuf name opens addr = ringbuf name' opens addr := by
  have hcopy : strncpy name RINGBUF_NAME_LEN = strncpy name' RINGBUF_NAME_LEN := hkey
  simp only [ringbuf, createRingbuf, appendRingbuf, unmapRingbuf, hlen, hcopy, findName_key hkey]

end Xv6Ringbuf.Kernel
