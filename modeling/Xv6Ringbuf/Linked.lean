import Mathlib

namespace Xv6Ringbuf.Linked

variable {α : Type} {next next' : α → α}

-- Following the links from `a` one comes to the elements of the list, in order.
def Walk (next : α → α) : α → List α → Prop
  | _, [] => True
  | a, b :: xs => next a = b ∧ Walk next b xs

-- The links lead from `base` through `xs` and back.
def Loop (next : α → α) (base : α) (xs : List α) : Prop := Walk next base (xs ++ [base])

variable {a x base z b : α} {xs ys : List α}

theorem walk_append :
    Walk next a (xs ++ ys) ↔ Walk next a xs ∧ Walk next (xs.getLastD a) ys := by
  induction xs generalizing a with
  | nil => simp [Walk]
  | cons b xs ih =>
    rw [List.cons_append, Walk, Walk, ih, List.getLastD_cons, and_assoc]

theorem Walk.congr (h : Walk next a xs) (hsame : ∀ x ∈ (a :: xs).dropLast, next' x = next x) :
    Walk next' a xs := by
  induction xs generalizing a with
  | nil => trivial
  | cons b xs ih =>
    rw [List.dropLast_cons_cons] at hsame
    refine ⟨?_, ih h.2 fun x hx => hsame x (List.mem_cons_of_mem a hx)⟩
    rw [hsame a List.mem_cons_self, h.1]

theorem getLastD_mem (a : α) (xs : List α) : xs.getLastD a ∈ a :: xs := by
  induction xs generalizing a with
  | nil => exact List.mem_cons_self
  | cons b xs ih =>
    rw [List.getLastD_cons]
    exact List.mem_cons_of_mem a (ih b)

theorem getLastD_append (a : α) (xs ys : List α) :
    (xs ++ ys).getLastD a = ys.getLastD (xs.getLastD a) := by
  induction xs generalizing a with
  | nil => rfl
  | cons x xs ih => rw [List.cons_append, List.getLastD_cons, List.getLastD_cons, ih]

theorem exists_getLastD (h : x ∈ a :: xs) :
    ∃ ys zs, xs = ys ++ zs ∧ x = ys.getLastD a := by
  rcases List.mem_cons.mp h with rfl | hx
  · exact ⟨[], xs, rfl, rfl⟩
  · obtain ⟨ys, zs, rfl⟩ := List.append_of_mem hx
    refine ⟨ys ++ [x], zs, ?_, ?_⟩
    · rw [List.append_assoc, List.singleton_append]
    · rw [List.getLastD_concat]

theorem Walk.keep (h : Walk next a xs) (hnodup : (a :: xs).Nodup)
    (hsame : ∀ x ∈ a :: xs, x ≠ xs.getLastD a → next' x = next x) : Walk next' a xs := by
  induction xs generalizing a with
  | nil => trivial
  | cons b xs ih =>
    obtain ⟨hnot, hnodup'⟩ := List.nodup_cons.mp hnodup
    rw [List.getLastD_cons] at hsame
    constructor
    · rw [hsame a List.mem_cons_self, h.1]
      intro heq
      exact hnot (heq ▸ getLastD_mem b xs)
    · exact ih h.2 hnodup' fun x hx => hsame x (List.mem_cons_of_mem a hx)

theorem Loop.rest (h : Loop next base (xs ++ ys)) :
    Walk next (xs.getLastD base) (ys ++ [base]) := by
  rw [Loop, List.append_assoc] at h
  exact (walk_append.mp h).2

theorem Loop.splice {zs : List α} (h : Loop next base (xs ++ ys)) (hnodup : (base :: xs).Nodup)
    (hsame : ∀ x ∈ base :: xs, x ≠ xs.getLastD base → next' x = next x)
    (hrest : Walk next' (xs.getLastD base) (zs ++ [base])) : Loop next' base (xs ++ zs) := by
  rw [Loop, List.append_assoc] at h ⊢
  exact walk_append.mpr ⟨(walk_append.mp h).1.keep hnodup hsame, hrest⟩

theorem walk_reverse_link (h : Walk next a (xs.reverse ++ [z])) :
    next a = xs.getLastD z := by
  rcases List.eq_nil_or_concat' xs with rfl | ⟨ys, y, rfl⟩
  · exact h.1
  · rw [List.reverse_append] at h
    rw [List.getLastD_concat]
    exact h.1

theorem Loop.inverse {prev : α → α} (h : Loop next base xs) (hprev : Loop prev base xs.reverse)
    (hx : x ∈ base :: xs) : prev (next x) = x := by
  obtain ⟨ys, zs, rfl, rfl⟩ := exists_getLastD hx
  have hrest := h.rest
  cases zs with
  | nil =>
    rw [List.append_nil] at hprev
    rw [hrest.1]
    exact walk_reverse_link hprev
  | cons z zs =>
    have hback : Loop prev base ((zs.reverse ++ [z]) ++ ys.reverse) := by
      rw [List.reverse_append, List.reverse_cons] at hprev
      exact hprev
    have hwalk := hback.rest
    rw [List.getLastD_concat] at hwalk
    rw [hrest.1]
    exact walk_reverse_link hwalk

theorem Walk.move (h : Walk next a (xs ++ [z])) (hlink : next' b = next a)
    (hsame : ∀ x ∈ xs, next' x = next x) : Walk next' b (xs ++ [z]) := by
  cases xs with
  | nil => exact ⟨hlink.trans h.1, trivial⟩
  | cons c xs =>
    have hrest : Walk next c (xs ++ [z]) := h.2
    refine ⟨hlink.trans h.1, ?_⟩
    apply hrest.congr
    show ∀ x ∈ (c :: (xs ++ [z])).dropLast, next' x = next x
    rw [← List.cons_append, List.dropLast_concat]
    exact hsame

theorem Loop.insert (h : Loop next base (xs ++ ys)) (hnodup : (base :: (xs ++ ys)).Nodup)
    (hlast : next' (xs.getLastD base) = b) (hb : next' b = next (xs.getLastD base))
    (hsame : ∀ x ∈ base :: (xs ++ ys), x ≠ xs.getLastD base → next' x = next x) :
    Loop next' base (xs ++ b :: ys) := by
  rw [← List.cons_append] at hnodup hsame
  obtain ⟨hfront, _, hcross⟩ := List.nodup_append.mp hnodup
  apply h.splice hfront fun x hx => hsame x (List.mem_append_left ys hx)
  refine ⟨hlast, h.rest.move hb fun x hx => ?_⟩
  exact hsame x (List.mem_append_right _ hx) (hcross _ (getLastD_mem base xs) x hx).symm

theorem Loop.remove (h : Loop next base (xs ++ b :: ys)) (hnodup : (base :: (xs ++ b :: ys)).Nodup)
    (hlast : next' (xs.getLastD base) = next b)
    (hsame : ∀ x ∈ base :: (xs ++ ys), x ≠ xs.getLastD base → next' x = next x) :
    Loop next' base (xs ++ ys) := by
  rw [← List.cons_append] at hnodup hsame
  obtain ⟨hfront, _, hcross⟩ := List.nodup_append.mp hnodup
  apply h.splice hfront fun x hx => hsame x (List.mem_append_left ys hx)
  have hrest : Walk next b (ys ++ [base]) := h.rest.2
  refine hrest.move hlast fun x hx => ?_
  have hne := hcross _ (getLastD_mem base xs) x (List.mem_cons_of_mem b hx)
  exact hsame x (List.mem_append_right _ hx) hne.symm

theorem Loop.congr (h : Loop next base xs) (hsame : ∀ x ∈ base :: xs, next' x = next x) :
    Loop next' base xs :=
  Walk.move h (hsame base List.mem_cons_self) fun x hx => hsame x (List.mem_cons_of_mem base hx)

theorem Loop.round (h : Loop next base (xs ++ ys)) :
    Walk next (xs.getLastD base) (ys ++ base :: xs) := by
  have hfirst : Walk next base xs := by
    rw [Loop, List.append_assoc] at h
    exact (walk_append.mp h).1
  have hround : ys ++ base :: xs = (ys ++ [base]) ++ xs := by
    rw [List.append_assoc, List.singleton_append]
  rw [hround]
  apply walk_append.mpr
  rw [List.getLastD_concat]
  exact ⟨h.rest, hfirst⟩

theorem Loop.next_mem (h : Loop next base xs) (hx : x ∈ base :: xs) :
    next x ∈ base :: xs := by
  obtain ⟨ys, zs, rfl, rfl⟩ := exists_getLastD hx
  have hrest := h.rest
  cases zs with
  | nil =>
    rw [hrest.1]
    exact List.mem_cons_self
  | cons z zs =>
    rw [hrest.1]
    exact List.mem_cons_of_mem base (List.mem_append_right ys List.mem_cons_self)

-- The links lead around through the elements of the list.
def Around (next : α → α) : List α → Prop
  | [] => False
  | a :: xs => Loop next a xs

theorem Around.rotate (h : Around next (xs ++ ys)) : Around next (ys ++ xs) := by
  cases xs with
  | nil =>
    rw [List.append_nil]
    exact h
  | cons a xs =>
    cases ys with
    | nil =>
      rw [List.append_nil] at h
      exact h
    | cons b ys =>
      have hloop : Loop next a (xs ++ b :: ys) := h
      have hround := hloop.round
      show Walk next b ((ys ++ a :: xs) ++ [b])
      apply walk_append.mpr
      refine ⟨hround.2, ?_, trivial⟩
      rw [getLastD_append, List.getLastD_cons]
      exact hround.1

theorem Around.next_mem (h : Around next xs) (hx : x ∈ xs) : next x ∈ xs := by
  cases xs with
  | nil => exact h.elim
  | cons a xs => exact Loop.next_mem h hx

theorem Loop.iterate_mem (h : Loop next base xs) (k : Nat) :
    next^[k] base ∈ base :: xs := by
  induction k with
  | zero => exact List.mem_cons_self
  | succ k ih =>
    rw [Function.iterate_succ_apply']
    exact h.next_mem ih

end Xv6Ringbuf.Linked
