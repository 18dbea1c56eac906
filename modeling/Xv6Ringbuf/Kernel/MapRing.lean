import Xv6Ringbuf.Kernel.Lookup

namespace Xv6Ringbuf.Kernel

open Machine Function

structure At (va : UInt64) (n : Nat) : Prop where
  eq : va.toNat = 4096 * n
  lt : n < 2 ^ 26

variable {va : UInt64} {n i hole : Nat} {s : State} {α : Type} {Q : α → State → Prop}
  {E : Panic → Prop}

theorem At.aligned (h : At va n) : Aligned va := by
  have heq := h.eq
  have hlt := h.lt
  refine ⟨by omega, ?_⟩
  rw [UInt64.lt_iff_toNat_lt, toNat_MAXVA]
  omega

theorem At.vpn (h : At va n) : vpn va = n := by
  have heq := h.eq
  unfold Kernel.vpn
  omega

theorem At.sub (h : At va n) (hi : i ≤ n) :
    At (va - UInt64.ofNat i * PGSIZE) (n - i) := by
  have heq := h.eq
  have hlt := h.lt
  have hoff : (UInt64.ofNat i * PGSIZE).toNat = 4096 * i := by
    rw [UInt64.toNat_mul, UInt64.toNat_ofNat', toNat_PGSIZE]
    omega
  have hle : UInt64.ofNat i * PGSIZE ≤ va := by
    rw [UInt64.le_iff_toNat_le]
    omega
  refine ⟨?_, by omega⟩
  rw [UInt64.toNat_sub_of_le _ _ hle, hoff]
  omega

-- The pages that `walk` takes for tables when it visits pages one after another.
def grow (missing : Nat → Nat) : List Nat → Nat → Nat
  | [] => missing
  | n :: ns => grow (growth missing n) ns

def need (missing : Nat → Nat) : List Nat → Nat
  | [] => 0
  | n :: ns => missing n + need (growth missing n) ns

theorem need_append (missing : Nat → Nat) (ns ms : List Nat) :
    need missing (ns ++ ms) = need missing ns + need (grow missing ns) ms := by
  induction ns generalizing missing with
  | nil => rw [List.nil_append, need, grow, Nat.zero_add]
  | cons n ns ih => rw [List.cons_append, need, need, grow, ih, Nat.add_assoc]

def window (n i rounds : Nat) : List Nat := (List.range' i rounds).map fun j => n - j

theorem window_succ (n i rounds : Nat) :
    window n i (rounds + 1) = (n - i) :: window n (i + 1) rounds := rfl

theorem window_last (n : Nat) : window n 0 33 = window n 0 32 ++ [n - 32] := rfl

theorem mod_ringbufSize_lt (i : Nat) : i % RINGBUF_SIZE < RINGBUF_SIZE := Nat.mod_lt i (by decide)

def dataPage (rb : Ringbuf) (i : Nat) : UInt64 := rb.buf ⟨i % RINGBUF_SIZE, mod_ringbufSize_lt i⟩

-- The rounds from `i` on of `mappages_to_proc` for the pages downward from `n`.
structure Rounds (s s' : State) (n i : Nat) (rb rb' : Ringbuf) : Prop where
  frame : Frame s s'
  unmapped : ∀ j, i ≤ j → j < 32 → s.pagetable.leaf (n - j) = none
  leaf : ∀ m, s'.pagetable.leaf m = if m + i ≤ n ∧ n < m + 32 then
    some ⟨dataPage rb' (n - m), permRing⟩ else s.pagetable.leaf m
  entry : rb' = { rb with buf := rb'.buf }
  kept : ∀ j : Fin RINGBUF_SIZE, rb.refcount ≠ 0 ∨ j.val < i → rb'.buf j = rb.buf j
  free : ∃ popped, s.freelist = popped ++ s'.freelist ∧
    (rb.refcount = 0 → ((List.ofFn rb'.buf).drop i).Sublist popped) ∧
    popped.length = (if rb.refcount = 0 then 16 - i else 0) +
      need s.pagetable.missing (window n i (32 - i))
  missing : s'.pagetable.missing = grow s.pagetable.missing (window n i (32 - i))

def Takes (rb : Ringbuf) (i : Nat) : Prop := rb.refcount = 0 ∧ i < RINGBUF_SIZE

instance (rb : Ringbuf) (i : Nat) : Decidable (Takes rb i) := inferInstanceAs (Decidable (_ ∧ _))

structure Taken (s s' : State) (rb rb' : Ringbuf) (i : Nat) : Prop where
  frame : Frame s s'
  pagetable : s'.pagetable = s.pagetable
  entry : rb' = { rb with buf := rb'.buf }
  kept : ∀ j : Fin RINGBUF_SIZE, rb.refcount ≠ 0 ∨ j.val ≠ i → rb'.buf j = rb.buf j
  free : s.freelist = (if Takes rb i then [dataPage rb' i] else []) ++ s'.freelist

theorem pageOf_wp (rb : Ringbuf) (i : Nat) (s : State) :
    wp (pageOf rb i) s
      (fun r s' => (r = none ∧ Frame s s' ∧ s'.pagetable = s.pagetable ∧ Takes rb i ∧
          s.freelist = []) ∨
        ∃ rb', r = some (dataPage rb' i, rb') ∧ Taken s s' rb rb' i)
      (fun _ => False) := by
  unfold pageOf
  split
  · rename_i htakes
    have htake : Takes rb i := htakes
    refine wp_call (kalloc_wp s) ?_
    rintro r s' ⟨hframe, hpt, ⟨rfl, hfree, _⟩ | ⟨page, rfl, hfree⟩⟩
    · exact .inl ⟨rfl, hframe, hpt, htakes, hfree⟩
    · have hindex : (⟨i % RINGBUF_SIZE, Nat.mod_lt _ (by decide)⟩ : Fin RINGBUF_SIZE) =
          ⟨i, htakes.2⟩ := Fin.ext (Nat.mod_eq_of_lt htakes.2)
      have hpage : dataPage { rb with buf := update rb.buf ⟨i, htakes.2⟩ page } i =
          page := by
        rw [dataPage, hindex]
        exact update_self _ _ _
      apply wp_modify_bind
      refine .inr ⟨{ rb with buf := update rb.buf ⟨i, htakes.2⟩ page }, ?_,
        hframe.trans ⟨rfl, rfl, rfl⟩, hpt, rfl, ?_, ?_⟩
      · rw [hpage]
      · rintro j (hne | hne)
        · exact absurd htakes.1 hne
        · exact update_of_ne (fun heq => hne (congrArg Fin.val heq)) _ _
      · rw [if_pos htake, hpage, hfree]
        rfl
  · rename_i htakes
    have htake : ¬Takes rb i := htakes
    exact .inr ⟨rb, rfl, Frame.refl s, rfl, rfl, fun _ _ => rfl, by rw [if_neg htake]; rfl⟩

theorem dealloc_wp [Image] (hva : At va n) (hpos : 0 < hole) (hlt : hole < n)
    (hhole : s.pagetable.leaf hole = none) {value : α} (h : ∀ e ≠ .mappagesRemap, E e) :
    wp (do let _ ← uvmdealloc va PGSIZE
           return value) s Q E := by
  apply wp_bind
  exact (uvmdealloc_panics hva.aligned hpos (hva.vpn ▸ hlt) hhole).mono (fun _ _ h => h) h

theorem mapPage_wp [Image] {pa : UInt64} (hva : At va n) (hpos : 0 < hole) (hlt : hole < n)
    (hhole : s.pagetable.leaf hole = none) {failed : α} {next : K α}
    (hnext : ∀ s', Mapped s s' n ⟨pa, permRing⟩ → wp next s' Q E)
    (hshort : s.freelist.length < s.pagetable.missing n → ∀ e ≠ .mappagesRemap, E e)
    (hused : s.pagetable.leaf n ≠ none → ∀ e, E e) :
    wp (do if (← mappages va PGSIZE pa permRing) ≠ 0 then do
             kfree pa
             let _ ← uvmdealloc va PGSIZE
             return failed
           else next) s Q E := by
  apply wp_bind
  apply (mappages_wp hva.aligned s).mono
  · rw [hva.vpn]
    rintro r s' (⟨rfl, hmapped⟩ | ⟨rfl, hlack⟩)
    · rw [if_neg (by decide)]
      exact hnext s' hmapped
    · rw [if_pos (by decide)]
      have hpanics := hshort hlack.free
      apply wp_bind
      apply (kfree_wp pa s').mono _ (fun e h => hpanics e h.2)
      rintro _ s'' ⟨_, _, hpt, _⟩
      exact dealloc_wp hva hpos hlt (by rw [hpt, hlack.leaf, hhole]) hpanics
  · intro e hcollides
    rw [hva.vpn] at hcollides
    exact hused hcollides e

theorem Rounds.done (rb : Ringbuf) : Rounds s s n 32 rb rb := by
  refine ⟨Frame.refl s, fun j _ _ => by omega, ?_, rfl, fun _ _ => rfl, ⟨[], rfl, ?_, ?_⟩, rfl⟩
  · intro m
    rw [if_neg (by omega)]
  · intro _
    have hdone : (List.ofFn rb.buf).drop 32 = [] := List.drop_eq_nil_of_le (by simp)
    simp only [hdone, List.nil_sublist]
  · split <;> rfl

theorem Rounds.cons {s₁ s₂ s' : State} {rb rb₁ rb' : Ringbuf} (hi : i < 32) (hn : 32 ≤ n)
    (htaken : Taken s s₁ rb rb₁ i) (hmapped : Mapped s₁ s₂ (n - i) ⟨dataPage rb₁ i, permRing⟩)
    (hrounds : Rounds s₂ s' n (i + 1) rb₁ rb') : Rounds s s' n i rb rb' := by
  have hrefcount : rb₁.refcount = rb.refcount := by rw [htaken.entry]
  -- Later rounds leave the page of this one in place.
  have hpage : dataPage rb' i = dataPage rb₁ i := by
    apply hrounds.kept
    have hmod : i % RINGBUF_SIZE ≤ i := Nat.mod_le _ _
    right
    exact Nat.lt_succ_of_le hmod
  have hrounds_eq : 32 - i = 32 - (i + 1) + 1 := by omega
  have hmissing₁ : s₂.pagetable.missing = growth s.pagetable.missing (n - i) := by
    funext m
    rw [hmapped.missing, htaken.pagetable]
  refine ⟨htaken.frame.trans (hmapped.frame.trans hrounds.frame), ?_, ?_, ?_, ?_, ?_, ?_⟩
  · intro j hj hj'
    by_cases heq : j = i
    · rw [heq, ← htaken.pagetable]
      exact hmapped.unmapped
    · have h := hrounds.unmapped j (by omega) hj'
      rwa [hmapped.leaf, update_of_ne (by omega), htaken.pagetable] at h
  · intro m
    rw [hrounds.leaf, hmapped.leaf, htaken.pagetable]
    by_cases heq : m = n - i
    · rw [if_neg (by omega), if_pos (by omega), heq, update_self,
        show n - (n - i) = i by omega, hpage]
    · rw [update_of_ne heq]
      by_cases hrange : m + (i + 1) ≤ n ∧ n < m + 32
      · rw [if_pos hrange, if_pos (by omega)]
      · rw [if_neg hrange, if_neg (by omega)]
  · rw [hrounds.entry, htaken.entry]
  · intro j hj
    rw [hrounds.kept j (by rw [hrefcount]; omega), htaken.kept j (by omega)]
  · obtain ⟨popped, hfree, hsub, hlen⟩ := hrounds.free
    obtain ⟨tables, hfree', hlen'⟩ := hmapped.free
    refine ⟨(if Takes rb i then [dataPage rb₁ i] else []) ++ tables ++ popped, ?_, ?_, ?_⟩
    · rw [htaken.free, hfree', hfree, List.append_assoc, List.append_assoc]
    · intro hzero
      have hsub' := (hsub (hrefcount.trans hzero)).trans
        (List.sublist_append_right tables popped)
      by_cases hlt : i < RINGBUF_SIZE
      · have hindex : (⟨i % RINGBUF_SIZE, Nat.mod_lt _ (by decide)⟩ : Fin RINGBUF_SIZE) =
            ⟨i, hlt⟩ := Fin.ext (Nat.mod_eq_of_lt hlt)
        rw [if_pos ⟨hzero, hlt⟩, List.drop_eq_getElem_cons (by simpa using hlt),
          List.getElem_ofFn, List.append_assoc, ← hpage, dataPage, hindex]
        exact hsub'.cons_cons _
      · rw [List.drop_eq_nil_of_le (by simpa using hlt)]
        exact List.nil_sublist _
    · rw [List.length_append, List.length_append, hlen', hlen, hmissing₁, hrefcount,
        htaken.pagetable, hrounds_eq, window_succ, need]
      by_cases hzero : rb.refcount = 0
      · rw [if_pos hzero, if_pos hzero]
        by_cases hlt : i < RINGBUF_SIZE
        · rw [if_pos ⟨hzero, hlt⟩, List.length_singleton]
          have hlt' : i < 16 := hlt
          omega
        · rw [if_neg (fun h => hlt h.2), List.length_nil]
          have hge : 16 ≤ i := Nat.le_of_not_lt hlt
          omega
      · rw [if_neg hzero, if_neg hzero, if_neg (fun h => hzero h.1), List.length_nil]
        omega
  · rw [hrounds.missing, hmissing₁, hrounds_eq, window_succ, grow]

-- Only a page that is mapped already makes `mappages` panic.
def RoundsFail (s : State) (n i : Nat) (rb : Ringbuf) (e : Panic) : Prop :=
  s.freelist.length < (if rb.refcount = 0 then 16 - i else 0) +
      need s.pagetable.missing (window n i (32 - i)) ∧ e ≠ .mappagesRemap ∨
    ∃ j, i ≤ j ∧ j < 32 ∧ s.pagetable.leaf (n - j) ≠ none

theorem mapRounds_wp [Image] {base : UInt64} (hbase : At base n) (hn : 2 ^ 19 + 32 ≤ n)
    (hpos : 0 < hole) (hlt : hole < 2 ^ 19) (rounds i : Nat) (hi : i + rounds = 32) (rb : Ringbuf)
    (s : State) (hhole : s.pagetable.leaf hole = none) :
    wp (mapRounds base rounds i rb) s
      (fun r s' => ∃ rb', r = (0, rb') ∧ Rounds s s' n i rb rb') (RoundsFail s n i rb) := by
  induction rounds generalizing i rb s with
  | zero =>
    obtain rfl : i = 32 := hi
    exact ⟨rb, rfl, Rounds.done rb⟩
  | succ rounds ih =>
    have hva := hbase.sub (show i ≤ n by omega)
    have hrounds : 32 - i = 32 - (i + 1) + 1 := by omega
    rw [mapRounds]
    apply wp_bind
    apply (pageOf_wp rb i s).mono _ (fun _ h => h.elim)
    rintro r s₁ (⟨rfl, hframe, hpt, htakes, hfree⟩ | ⟨rb₁, rfl, htaken⟩)
    · apply dealloc_wp hva hpos (by omega) (by rw [hpt, hhole])
      refine fun e he => .inl ⟨?_, he⟩
      rw [hfree, if_pos htakes.1, List.length_nil]
      have hlt' : i < 16 := htakes.2
      omega
    · have hrefcount : rb₁.refcount = rb.refcount := by rw [htaken.entry]
      have htake : s.freelist.length = (if Takes rb i then 1 else 0) + s₁.freelist.length := by
        rw [htaken.free, List.length_append]
        split <;> rfl
      have hcost : (if Takes rb i then 1 else 0) + (if rb.refcount = 0 then 16 - (i + 1) else 0)
          = if rb.refcount = 0 then 16 - i else 0 := by
        by_cases hzero : rb.refcount = 0
        · rw [if_pos hzero, if_pos hzero]
          by_cases hlt' : i < RINGBUF_SIZE
          · rw [if_pos ⟨hzero, hlt'⟩]
            have hlt'' : i < 16 := hlt'
            omega
          · rw [if_neg fun h => hlt' h.2]
            have hge : 16 ≤ i := Nat.le_of_not_lt hlt'
            omega
        · rw [if_neg hzero, if_neg hzero, if_neg fun h => hzero h.1]
      apply mapPage_wp hva hpos (by omega) (by rw [htaken.pagetable, hhole])
      · intro s₂ hmapped
        have hmissing : s₂.pagetable.missing = growth s.pagetable.missing (n - i) := by
          funext m
          rw [hmapped.missing, htaken.pagetable]
        obtain ⟨tables, hfree, hlen⟩ := hmapped.free
        have hhole₂ : s₂.pagetable.leaf hole = none := by
          rw [hmapped.leaf, update_of_ne (by omega), htaken.pagetable, hhole]
        apply (ih (i + 1) (by omega) rb₁ s₂ hhole₂).mono
        · rintro _ s' ⟨rb', rfl, hdone⟩
          exact ⟨rb', rfl, hdone.cons (by omega) (by omega) htaken hmapped⟩
        · rintro e (⟨hshort, he⟩ | ⟨j, hj, hj', hused⟩)
          · refine .inl ⟨?_, he⟩
            rw [hmissing, hrefcount] at hshort
            rw [hrounds, window_succ, need, ← hcost, htake, hfree, List.length_append, hlen,
              htaken.pagetable]
            omega
          · right
            rw [hmapped.leaf, update_of_ne (by omega), htaken.pagetable] at hused
            exact ⟨j, by omega, hj', hused⟩
      · refine fun hshort e he => .inl ⟨?_, he⟩
        rw [htaken.pagetable] at hshort
        rw [hrounds, window_succ, need, ← hcost, htake]
        omega
      · intro hused e
        rw [htaken.pagetable] at hused
        exact .inr ⟨i, Nat.le_refl i, by omega, hused⟩

end Xv6Ringbuf.Kernel
