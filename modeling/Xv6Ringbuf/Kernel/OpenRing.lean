import Xv6Ringbuf.Kernel.MapRing

namespace Xv6Ringbuf.Kernel

open Machine Function

structure Booked (s s' : State) (n : Nat) (rb rb' : Ringbuf) : Prop where
  frame : Frame s s'
  unmapped : s.pagetable.leaf n = none
  leaf : s'.pagetable.leaf = update s.pagetable.leaf n (some ⟨rb'.book, permRing⟩)
  entry : rb' = { rb with book := rb'.book }
  kept : rb.refcount ≠ 0 → rb' = rb
  free : ∃ popped, s.freelist = popped ++ s'.freelist ∧
    (rb.refcount = 0 → rb'.book ∈ popped) ∧
    popped.length = (if rb.refcount = 0 then 1 else 0) + s.pagetable.missing n

def BookFails (s : State) (n : Nat) (rb : Ringbuf) (e : Panic) : Prop :=
  s.freelist.length < (if rb.refcount = 0 then 1 else 0) + s.pagetable.missing n ∧
      e ≠ .mappagesRemap ∨
    s.pagetable.leaf n ≠ none

theorem mappageToBook_wp [Image] {va : UInt64} {n hole : Nat} (hva : At va n) (hpos : 0 < hole)
    (hlt : hole < n) (rb : Ringbuf) (s : State) (hhole : s.pagetable.leaf hole = none) :
    wp (mappageToBook rb va) s
      (fun r s' => ∃ rb', r = (0, rb') ∧ Booked s s' n rb rb') (BookFails s n rb) := by
  unfold mappageToBook
  by_cases hzero : rb.refcount = 0
  · rw [if_pos hzero]
    apply wp_bind
    apply (kalloc_wp s).mono _ (fun _ h => h.elim)
    rintro r s₁ ⟨hframe, hpt, ⟨rfl, hfree, _⟩ | ⟨page, rfl, hfree⟩⟩
    · apply dealloc_wp hva hpos hlt (by rw [hpt, hhole])
      refine fun e he => .inl ⟨?_, he⟩
      rw [hfree, if_pos hzero, List.length_nil]
      omega
    · apply wp_modify_bind
      apply mapPage_wp hva hpos hlt (by rw [hpt, hhole])
      · intro s₂ hmapped
        obtain ⟨tables, hfree', hlen⟩ := hmapped.free
        refine ⟨_, rfl, hframe.trans ⟨hmapped.frame.ringbufs, hmapped.frame.reads,
          hmapped.frame.given⟩, ?_, ?_, rfl, fun hne => absurd hzero hne, ⟨page :: tables, ?_, ?_, ?_⟩⟩
        · rw [← hpt]
          exact hmapped.unmapped
        · rw [hmapped.leaf, hpt]
        · rw [hfree, List.cons_append, ← hfree']
        · intro _
          exact List.mem_cons_self
        · rw [List.length_cons, hlen, if_pos hzero, hpt, Nat.add_comm]
      · refine fun hshort e he => .inl ⟨?_, he⟩
        rw [if_pos hzero, hfree, List.length_cons, ← hpt]
        simp only at hshort
        omega
      · intro hused e
        rw [BookFails, ← hpt]
        exact .inr hused
  · rw [if_neg hzero]
    apply mapPage_wp hva hpos hlt hhole
    · intro s₁ hmapped
      obtain ⟨tables, hfree, hlen⟩ := hmapped.free
      refine ⟨rb, rfl, hmapped.frame, hmapped.unmapped, hmapped.leaf, rfl, fun _ => rfl,
        ⟨tables, hfree, fun h => absurd h hzero, ?_⟩⟩
      rw [hlen, if_neg hzero, Nat.zero_add]
    · refine fun hshort e he => .inl ⟨?_, he⟩
      rw [if_neg hzero, Nat.zero_add]
      exact hshort
    · exact fun hused e => .inr hused

def Ringbuf.pages (rb : Ringbuf) : List UInt64 := List.ofFn rb.buf ++ [rb.book]

def ringPte (rb : Ringbuf) (i : Nat) : Pte :=
  ⟨if i < 32 then dataPage rb i else rb.book, permRing⟩

def mapRing (leaf : Nat → Option Pte) (n : Nat) (rb : Ringbuf) : Nat → Option Pte :=
  fun m => if m ≤ n ∧ n < m + 33 then some (ringPte rb (n - m)) else leaf m

def openCost (pt : Pagetable) (n : Nat) (rb : Ringbuf) : Nat :=
  (if rb.refcount = 0 then 17 else 0) + need pt.missing (window n 0 33)

theorem openCost_eq (pt : Pagetable) (n : Nat) (rb : Ringbuf) :
    openCost pt n rb =
      ((if rb.refcount = 0 then 16 - 0 else 0) + need pt.missing (window n 0 (32 - 0))) +
        ((if rb.refcount = 0 then 1 else 0) + grow pt.missing (window n 0 (32 - 0)) (n - 32)) := by
  rw [openCost, window_last, need_append, need, need, Nat.sub_zero, Nat.sub_zero]
  by_cases hzero : rb.refcount = 0
  · rw [if_pos hzero, if_pos hzero, if_pos hzero]
    omega
  · rw [if_neg hzero, if_neg hzero, if_neg hzero]
    omega

-- The ring of `rb` has been mapped at page `n`. A ring without references has
-- got its pages from the allocator.
structure Opened (s s' : State) (n : Nat) (rb rb' : Ringbuf) : Prop where
  reads : s'.reads = s.reads
  unmapped : ∀ m, m ≤ n → n < m + 33 → s.pagetable.leaf m = none
  leaf : s'.pagetable.leaf = mapRing s.pagetable.leaf n rb'
  refcount : rb'.refcount = rb.refcount
  name : rb'.name = rb.name
  kept : rb.refcount ≠ 0 → rb' = rb
  free : ∃ popped, s.freelist = popped ++ s'.freelist ∧
    (rb.refcount = 0 → rb'.pages.Sublist popped) ∧ popped.length = openCost s.pagetable n rb

-- Too few pages are left, or a page of the ring is already mapped.
def OpenFails (s : State) (n : Nat) (rb : Ringbuf) : Prop :=
  s.freelist.length < openCost s.pagetable n rb ∨
    ∃ m, m ≤ n ∧ n < m + 33 ∧ s.pagetable.leaf m ≠ none

def Unoccupied (leaf : Nat → Option Pte) (n : Nat) : Prop := ∀ m, m ≤ n → n < m + 33 → leaf m = none

def OpenPanics (s : State) (n : Nat) (rb : Ringbuf) (e : Panic) : Prop :=
  OpenFails s n rb ∧ (e = .mappagesRemap → ¬Unoccupied s.pagetable.leaf n)

theorem OpenPanics.of_used {s : State} {n m : Nat} {rb : Ringbuf} {e : Panic} (hm : m ≤ n)
    (hm' : n < m + 33) (hused : s.pagetable.leaf m ≠ none) : OpenPanics s n rb e :=
  ⟨.inr ⟨m, hm, hm', hused⟩, fun _ hnone => hused (hnone m hm hm')⟩

theorem Opened.not_fails {s s' : State} {n : Nat} {rb rb' : Ringbuf} (h : Opened s s' n rb rb') :
    ¬OpenFails s n rb := by
  rintro (hshort | ⟨m, hm, hm', hused⟩)
  · obtain ⟨popped, hfree, _, hlen⟩ := h.free
    rw [hfree, List.length_append, hlen] at hshort
    omega
  · exact hused (h.unmapped m hm hm')

theorem RoundsFail.panics {s : State} {n : Nat} {rb : Ringbuf} {e : Panic}
    (h : RoundsFail s n 0 rb e) : OpenPanics s n rb e := by
  rcases h with ⟨hshort, he⟩ | ⟨j, _, hj, hused⟩
  · refine ⟨.inl ?_, fun heq => absurd heq he⟩
    rw [openCost_eq]
    omega
  · exact .of_used (by omega) (by omega) hused

-- The two parts of an open, with a change of the ring table between them.
section Parts

variable {s s₁ s₂ s' : State} {n : Nat} {rb rb₁ rb' : Ringbuf}
  (hrounds : Rounds s s₁ n 0 rb rb₁) (hpt : s₂.pagetable = s₁.pagetable)
  (hfree : s₂.freelist = s₁.freelist) (hreads : s₂.reads = s₁.reads) (hn : 32 ≤ n)

include hrounds

theorem Rounds.refcount : rb₁.refcount = rb.refcount := by rw [hrounds.entry]

theorem Rounds.leaf_book (hn : 32 ≤ n) :
    s₁.pagetable.leaf (n - 32) = s.pagetable.leaf (n - 32) := by
  rw [hrounds.leaf, if_neg (by omega)]

include hpt hfree hn

theorem Rounds.book_panics {e : Panic} (h : BookFails s₂ (n - 32) rb₁ e) : OpenPanics s n rb e := by
  rcases h with ⟨hshort, he⟩ | hused
  · refine ⟨.inl ?_, fun heq => absurd heq he⟩
    obtain ⟨popped, hpopped, _, hlen⟩ := hrounds.free
    rw [hfree, hpt, hrounds.missing, hrounds.refcount] at hshort
    rw [openCost_eq, hpopped, List.length_append, hlen]
    omega
  · rw [hpt, hrounds.leaf_book hn] at hused
    exact .of_used (by omega) (by omega) hused

include hreads

theorem Rounds.opened (hbook : Booked s₂ s' (n - 32) rb₁ rb') : Opened s s' n rb rb' := by
  have hbuf : rb'.buf = rb₁.buf := by rw [hbook.entry]
  refine ⟨?_, ?_, ?_, ?_, ?_, ?_, ?_⟩
  · rw [hbook.frame.reads, hreads, hrounds.frame.reads]
  · intro m hm hm'
    by_cases heq : m = n - 32
    · rw [heq, ← hrounds.leaf_book hn, ← hpt]
      exact hbook.unmapped
    · have h := hrounds.unmapped (n - m) (by omega) (by omega)
      rwa [show n - (n - m) = m by omega] at h
  · funext m
    rw [hbook.leaf, hpt, mapRing, ringPte]
    by_cases heq : m = n - 32
    · rw [heq, update_self, if_pos (by omega), if_neg (by omega)]
    · rw [update_of_ne heq, hrounds.leaf]
      by_cases hrange : m + 0 ≤ n ∧ n < m + 32
      · rw [if_pos hrange, if_pos (by omega), if_pos (by omega), dataPage, dataPage, hbuf]
      · rw [if_neg hrange, if_neg (by omega)]
  · rw [hbook.entry, hrounds.entry]
  · rw [hbook.entry, hrounds.entry]
  · intro hne
    have hkept : rb₁ = rb := by
      rw [hrounds.entry, show rb₁.buf = rb.buf from funext fun j => hrounds.kept j (.inl hne)]
    rw [hbook.kept (hrounds.refcount ▸ hne), hkept]
  · obtain ⟨popped, hpopped, hsub, hlen⟩ := hrounds.free
    obtain ⟨popped', hpopped', hmem, hlen'⟩ := hbook.free
    refine ⟨popped ++ popped', ?_, ?_, ?_⟩
    · rw [hpopped, ← hfree, hpopped', List.append_assoc]
    · intro hzero
      rw [Ringbuf.pages, hbuf]
      exact (hsub hzero).append
        (List.singleton_sublist.mpr (hmem (hrounds.refcount.trans hzero)))
    · rw [List.length_append, hlen, hlen', openCost_eq, hrounds.refcount, hpt, hrounds.missing]

end Parts

end Xv6Ringbuf.Kernel
