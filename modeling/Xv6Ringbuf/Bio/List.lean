import Xv6Ringbuf.Linked
import Xv6Ringbuf.Param

namespace Xv6Ringbuf.Bio

open Linked Function

instance : NeZero NBUF := ⟨by decide⟩

abbrev Node := Option (Fin NBUF)

-- `locked` is the sleep lock of a buffer.
structure Bufs where
  next : Node → Node
  prev : Node → Node
  dev : Fin NBUF → UInt32
  blockno : Fin NBUF → UInt32
  valid : Fin NBUF → Bool
  refcnt : Fin NBUF → UInt32
  locked : Fin NBUF → Bool

def Bufs.setNext (s : Bufs) (n m : Node) : Bufs := { s with next := update s.next n m }

def Bufs.setPrev (s : Bufs) (n m : Node) : Bufs := { s with prev := update s.prev n m }

-- A buffer comes behind the head, in `binit` and in `brelse`.
def Bufs.pushFront (s : Bufs) (b : Node) : Bufs :=
  let s := s.setNext b (s.next none)
  let s := s.setPrev b none
  let s := s.setPrev (s.next none) b
  s.setNext none b

def Bufs.unlink (s : Bufs) (b : Node) : Bufs :=
  let s := s.setPrev (s.next b) (s.prev b)
  s.setNext (s.prev b) (s.next b)

-- Static memory. The head points to itself.
def zeroed : Bufs where
  next _ := none
  prev _ := none
  dev _ := 0
  blockno _ := 0
  valid _ := false
  refcnt _ := 0
  locked _ := false

def binit : Bufs := (List.finRange NBUF).foldl (fun s b => s.pushFront (some b)) zeroed

-- The list, in both directions.
structure Bufs.Listed (s : Bufs) (order : List (Fin NBUF)) : Prop where
  nodup : order.Nodup
  next : Loop s.next none (order.map some)
  prev : Loop s.prev none (order.map some).reverse

section Links

variable {s : Bufs} {order A B : List (Fin NBUF)} {b : Fin NBUF}

theorem some_not_mem (h : b ∉ order) : some b ∉ none :: order.map some := by
  intro hin
  rcases List.mem_cons.mp hin with heq | hin
  · cases heq
  · obtain ⟨c, hc, heq⟩ := List.mem_map.mp hin
    exact h (Option.some.inj heq ▸ hc)

theorem nodup_nodes (h : order.Nodup) : (none :: order.map some).Nodup := by
  refine List.nodup_cons.mpr ⟨?_, h.map (Option.some_injective _)⟩
  intro hin
  obtain ⟨c, _, heq⟩ := List.mem_map.mp hin
  cases heq

theorem nodup_nodes_reverse (h : order.Nodup) : (none :: (order.map some).reverse).Nodup :=
  ((List.reverse_perm _).cons none).nodup_iff.mpr (nodup_nodes h)

theorem Bufs.Listed.prev_next (h : s.Listed order) {n : Node} (hn : n ∈ none :: order.map some) :
    s.prev (s.next n) = n := h.next.inverse h.prev hn

theorem Bufs.Listed.next_prev (h : s.Listed order) {n : Node} (hn : n ∈ none :: order.map some) :
    s.next (s.prev n) = n := by
  have hnext : Loop s.next none (order.map some).reverse.reverse := by
    rw [List.reverse_reverse]
    exact h.next
  apply h.prev.inverse hnext
  exact ((List.reverse_perm _).cons none).mem_iff.mpr hn

theorem Bufs.Listed.getLastD_reverse (h : s.Listed order) :
    (order.map some).reverse.getLastD none = s.next none := by
  have hwalk : Walk s.next none ((order.map some).reverse.reverse ++ [none]) := by
    rw [List.reverse_reverse]
    exact h.next
  exact (walk_reverse_link hwalk).symm

theorem Bufs.Listed.pushFront (h : s.Listed order) (hb : b ∉ order) :
    (s.pushFront (some b)).Listed (b :: order) := by
  have hnot := some_not_mem hb
  have hfirst : (s.setNext (some b) (s.next none)).next none = s.next none := by
    show update s.next (some b) (s.next none) none = _
    rw [update_of_ne (Option.some_ne_none b).symm]
  have hother : ∀ x ∈ none :: order.map some, x ≠ some b := fun x hx heq => hnot (heq ▸ hx)
  have hne : some b ≠ s.next none := fun heq => hnot (heq ▸ h.next.next_mem List.mem_cons_self)
  refine ⟨List.nodup_cons.mpr ⟨hb, h.nodup⟩, ?_, ?_⟩
  · show Loop (update (update s.next (some b) (s.next none)) none (some b)) none
      ([] ++ some b :: order.map some)
    have hloop : Loop s.next none ([] ++ order.map some) := h.next
    apply hloop.insert (nodup_nodes h.nodup)
    · exact update_self _ _ _
    · rw [update_of_ne (Option.some_ne_none b), update_self]
      rfl
    · intro x hx hxne
      have hxhead : x ≠ none := hxne
      rw [update_of_ne hxhead, update_of_ne (hother x hx)]
  · have hprev : (s.pushFront (some b)).prev =
        update (update s.prev (some b) none) (s.next none) (some b) := by
      show update (update s.prev (some b) none)
        ((s.setNext (some b) (s.next none)).next none) (some b) = _
      rw [hfirst]
    rw [hprev, List.map_cons, List.reverse_cons]
    have hlast := h.getLastD_reverse
    have hloop : Loop s.prev none ((order.map some).reverse ++ []) := by
      rw [List.append_nil]
      exact h.prev
    apply hloop.insert
    · rw [List.append_nil]
      exact nodup_nodes_reverse h.nodup
    · rw [hlast, update_self]
    · rw [hlast, update_of_ne hne, update_self, h.prev_next List.mem_cons_self]
    · intro x hx hxne
      rw [hlast] at hxne
      rw [List.append_nil] at hx
      have hx' : x ∈ none :: order.map some := ((List.reverse_perm _).cons none).mem_iff.mp hx
      rw [update_of_ne hxne, update_of_ne (hother x hx')]

theorem unlink_next (s : Bufs) (b : Node) :
    (s.unlink b).next = update s.next (s.prev b) (s.next b) := by
  show update s.next (update s.prev (s.next b) (s.prev b) b) (s.next b) = _
  by_cases h : b = s.next b
  · rw [← h, update_self]
  · rw [update_of_ne h]

theorem unlink_prev (s : Bufs) (b : Node) :
    (s.unlink b).prev = update s.prev (s.next b) (s.prev b) := rfl

theorem Bufs.Listed.unlink (h : s.Listed (A ++ b :: B)) : (s.unlink (some b)).Listed (A ++ B) := by
  have hmem : some b ∈ none :: (A ++ b :: B).map some :=
    List.mem_cons_of_mem _ (List.mem_map_of_mem (List.mem_append_right A List.mem_cons_self))
  have hnext := h.next
  have hprev := h.prev
  have hnodup := nodup_nodes h.nodup
  have hnodup' := nodup_nodes_reverse h.nodup
  have hreverse : ((A ++ b :: B).map some).reverse =
      (B.map some).reverse ++ some b :: (A.map some).reverse := by
    rw [List.map_append, List.reverse_append, List.map_cons, List.reverse_cons, List.append_assoc]
    rfl
  rw [List.map_append, List.map_cons] at hnext hnodup
  rw [hreverse] at hprev hnodup'
  have hbefore : (A.map some).getLastD none = s.prev (some b) := by
    have hlink : s.next ((A.map some).getLastD none) = some b := hnext.rest.1
    have hin : (A.map some).getLastD none ∈ none :: (A ++ b :: B).map some := by
      rw [List.map_append, ← List.cons_append]
      exact List.mem_append_left _ (getLastD_mem _ _)
    rw [← hlink, h.prev_next hin]
  have hbehind : (B.map some).reverse.getLastD none = s.next (some b) := by
    have hlink : s.prev ((B.map some).reverse.getLastD none) = some b := hprev.rest.1
    have hin : (B.map some).reverse.getLastD none ∈ none :: (A ++ b :: B).map some := by
      apply ((List.reverse_perm _).cons none).mem_iff.mp
      rw [hreverse, ← List.cons_append]
      exact List.mem_append_left _ (getLastD_mem _ _)
    rw [← hlink, h.next_prev hin]
  refine ⟨?_, ?_, ?_⟩
  · exact h.nodup.sublist ((List.sublist_cons_self b B).append_left A)
  · rw [unlink_next, List.map_append]
    apply hnext.remove hnodup
    · rw [hbefore, update_self]
    · intro x _ hxne
      rw [hbefore] at hxne
      exact update_of_ne hxne _ _
  · rw [unlink_prev, List.map_append, List.reverse_append]
    apply hprev.remove hnodup'
    · rw [hbehind, update_self]
    · intro x _ hxne
      rw [hbehind] at hxne
      exact update_of_ne hxne _ _

theorem listed_pushFronts (h : s.Listed order) {bs : List (Fin NBUF)} (hbs : bs.Nodup)
    (hnew : ∀ b ∈ bs, b ∉ order) :
    (bs.foldl (fun s b => s.pushFront (some b)) s).Listed (bs.reverse ++ order) := by
  induction bs generalizing s order with
  | nil => exact h
  | cons b bs ih =>
    obtain ⟨hb, hbs'⟩ := List.nodup_cons.mp hbs
    rw [List.foldl_cons, List.reverse_cons, List.append_assoc]
    apply ih (h.pushFront (hnew b List.mem_cons_self)) hbs'
    intro c hc hin
    rcases List.mem_cons.mp hin with rfl | hin
    · exact hb hc
    · exact hnew c (List.mem_cons_of_mem b hc) hin

theorem listed_binit : binit.Listed (List.finRange NBUF).reverse := by
  have hzeroed : zeroed.Listed [] := ⟨List.nodup_nil, ⟨rfl, trivial⟩, ⟨rfl, trivial⟩⟩
  have h := listed_pushFronts hzeroed (List.nodup_finRange NBUF) fun _ _ => List.not_mem_nil
  rw [List.append_nil] at h
  exact h

end Links

end Xv6Ringbuf.Bio
