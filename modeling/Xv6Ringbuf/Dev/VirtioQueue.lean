import Xv6Ringbuf.Dev.Virtio

namespace Xv6Ringbuf.Virtio

open Circular State Function

section Rings

variable {r : Ring}

-- The entries that a reader of the ring at this index has not seen.
def Ring.pending (r : Ring) (i : BitVec 16) : List Nat := span r.ring i.toNat (ahead i r.idx)

theorem num_dvd : NUM ∣ 2 ^ 16 := ⟨2 ^ 13, rfl⟩

theorem Ring.pending_push (head : Nat) {i : BitVec 16} (h : (r.pending i).length < NUM) :
    (r.push head).pending i = r.pending i ++ [head] := by
  rw [Ring.pending, length_span] at h
  have hnum : NUM = 8 := rfl
  have hnext : ahead i (r.idx + 1) = ahead i r.idx + 1 := ahead_add_one (by omega)
  simp only [Ring.pending, Ring.push]
  rw [hnext, put_congr _ _ (add_ahead_mod num_dvd i r.idx).symm, span_put_last _ _ h]

theorem Ring.pending_cons {i : BitVec 16} (h : i ≠ r.idx) :
    r.pending i = r.read i :: r.pending (i + 1) := by
  rw [Ring.pending, ← ahead_one_add h, span, Ring.pending, span_congr _ _ (add_one_mod num_dvd i)]
  rfl

end Rings

variable {π β δ : Type} {s s' : State π β δ} {i : Nat} {idx : List Nat} {r : Req β}

theorem allocDesc_eq_some (h : s.allocDesc = some (i, s')) :
    i < NUM ∧ s.free i = true ∧ s' = { s with free := update s.free i false } := by
  obtain ⟨j, hfind, hj⟩ := Option.map_eq_some_iff.mp h
  obtain ⟨rfl, rfl⟩ := Prod.mk.inj hj
  exact ⟨List.mem_range.mp (List.mem_of_find?_eq_some hfind), List.find?_some hfind, rfl⟩

-- The three descriptors of a request.
structure Chain (s : State π β δ) (r : Req β) : Prop where
  lt : ∀ i ∈ r.idx, i < NUM
  apart : r.idx.Nodup
  op : s.desc r.i₀ = opDesc r.i₀ r.i₁
  data : s.desc r.i₁ = dataDesc r.buf r.write r.i₂
  status : s.desc r.i₂ = statusDesc r.i₀

-- The device finds the request in the chain.
theorem Chain.request_eq (h : Chain s r) {sector : UInt64} (hop : s.ops r.i₀ = blkReq r.write sector) :
    s.request r.i₀ = some (blkReq r.write sector, r.buf, r.i₀) := by
  have hout : (blkReq r.write sector).type = VIRTIO_BLK_T_OUT ↔ r.write = true := by
    cases r.write <;> simp [blkReq, VIRTIO_BLK_T_IN, VIRTIO_BLK_T_OUT]
  have hle : (blkReq r.write sector).type ≤ VIRTIO_BLK_T_OUT := by
    cases r.write <;> simp [blkReq, VIRTIO_BLK_T_IN, VIRTIO_BLK_T_OUT]
  simp only [request, h.op, opDesc, h.data, dataDesc, h.status, statusDesc, hop, hout, hle, and_self,
    if_true]

variable [DecidableEq β]

def release (i : Nat) (s : State π β δ) : State π β δ :=
  wakeup .free { s with desc := update s.desc i .zero, free := update s.free i true }

theorem freeDesc_eq (hi : i < NUM) (hfree : s.free i = false) : freeDesc i s = .ok (release i s) := by
  rw [freeDesc, if_neg (by omega), hfree]
  rfl

-- Descriptors `idx` were given back.
structure GivenBack (idx : List Nat) (s s' : State π β δ) : Prop where
  eq : s' = { s with
    desc := s'.desc, asleep := s'.asleep, free := fun i => s.free i || decide (i ∈ idx) }
  desc : ∀ i, s.free i = false → i ∉ idx → s'.desc i = s.desc i

theorem freeDescs_eq (hnodup : idx.Nodup) (hidx : ∀ i ∈ idx, i < NUM ∧ s.free i = false) :
    ∃ s', idx.foldlM (fun s i => freeDesc i s) s = .ok s' ∧ GivenBack idx s s' := by
  induction idx generalizing s with
  | nil => exact ⟨s, rfl, by simp, fun _ _ _ => rfl⟩
  | cons i idx ih =>
    obtain ⟨hi, hfree⟩ := hidx i List.mem_cons_self
    obtain ⟨hfresh, hnodup⟩ := List.nodup_cons.mp hnodup
    have hold : ∀ j ≠ i, (release i s).free j = s.free j := fun j hj => update_of_ne hj ..
    obtain ⟨s', hfold, heq, hdesc⟩ := ih (s := release i s) hnodup (by grind)
    refine ⟨s', ?_, ?_, ?_⟩
    · rw [List.foldlM_cons, freeDesc_eq hi hfree]
      exact hfold
    · rw [heq]
      simp only [release, wakeup, State.mk.injEq, true_and, and_true]
      grind [update_apply]
    · intro j hj hnot
      rw [List.mem_cons, not_or] at hnot
      exact (hdesc j ((hold j hnot.1).trans hj) hnot.2).trans (update_of_ne hnot.1 ..)

-- Either all rounds find a descriptor, or those of the rounds before are given back.
theorem allocDescs_eq (rounds : Nat) (idx : List Nat) (hnodup : idx.Nodup)
    (hidx : ∀ i ∈ idx, i < NUM ∧ s.free i = false) :
    (∃ idx' free', allocDescs rounds idx s = .ok (some (idx ++ idx'), { s with free := free' }) ∧
      idx'.length = rounds ∧ idx'.Nodup ∧ (∀ i ∈ idx', i < NUM ∧ s.free i = true) ∧
      ∀ i, free' i = true ↔ s.free i = true ∧ i ∉ idx') ∨
    ∃ s', allocDescs rounds idx s = .ok (none, s') ∧ GivenBack idx s s' := by
  induction rounds generalizing idx s with
  | zero => exact .inl ⟨[], s.free, by rw [List.append_nil]; rfl, rfl, by simp⟩
  | succ rounds ih =>
    rw [allocDescs]
    cases halloc : s.allocDesc with
    | none =>
      obtain ⟨s', hfold, hback⟩ := freeDescs_eq hnodup hidx
      refine .inr ⟨s', ?_, hback⟩
      dsimp only
      rw [hfold]
      rfl
    | some result =>
      obtain ⟨i, s₀⟩ := result
      obtain ⟨hi, hfree, rfl⟩ := allocDesc_eq_some halloc
      have hfresh : i ∉ idx := by grind
      rcases ih (idx ++ [i]) (s := { s with free := update s.free i false }) (by grind)
        (by grind [update_apply]) with ⟨idx', free', heq, hlen, hnd, hold, hfree'⟩ |
        ⟨s', heq, hs', hdesc⟩
      · rw [List.append_assoc] at heq
        refine .inl ⟨i :: idx', free', heq, by simp [hlen], ?_, ?_, ?_⟩
        · grind [update_apply]
        · grind [update_apply]
        · grind [update_apply]
      · refine .inr ⟨s', heq, ?_, ?_⟩
        · rw [hs']
          simp only [State.mk.injEq, true_and, and_true]
          grind [update_apply]
        · grind [update_apply]

theorem freeChainFrom_next {d : Desc β} (rounds : Nat) (hi : i < NUM) (hfree : s.free i = false)
    (hd : s.desc i = d) (hnext : d.flags &&& VRING_DESC_F_NEXT ≠ 0) :
    freeChainFrom (rounds + 1) i s = freeChainFrom rounds d.next (release i s) := by
  rw [freeChainFrom, freeDesc_eq hi hfree, hd]
  exact if_pos hnext

theorem Chain.freeChain_eq (h : Chain s r) (hbusy : ∀ i ∈ r.idx, s.free i = false) :
    freeChain r.i₀ s = .ok (release r.i₂ (release r.i₁ (release r.i₀ s))) := by
  have happart := h.apart
  have hlt := h.lt
  simp only [Req.idx, List.forall_mem_cons] at happart hlt hbusy
  have hne : r.i₁ ≠ r.i₀ ∧ r.i₂ ≠ r.i₀ ∧ r.i₂ ≠ r.i₁ := by grind
  have hflags : ((if r.write then 0 else VRING_DESC_F_WRITE) ||| VRING_DESC_F_NEXT) &&&
      VRING_DESC_F_NEXT ≠ 0 := by
    cases r.write <;> decide
  calc
    freeChain r.i₀ s = freeChainFrom NUM r.i₁ (release r.i₀ s) :=
      freeChainFrom_next NUM hlt.1 hbusy.1 h.op (show VRING_DESC_F_NEXT &&& _ ≠ 0 by decide)
    _ = freeChainFrom 7 r.i₂ (release r.i₁ (release r.i₀ s)) := by
      refine freeChainFrom_next 7 hlt.2.1 ?_ (d := dataDesc r.buf r.write r.i₂) ?_ hflags
      · simp [release, wakeup, hne, hbusy]
      · simp [release, wakeup, hne, h.data]
    _ = .ok (release r.i₂ (release r.i₁ (release r.i₀ s))) := by
      have hdesc : (release r.i₁ (release r.i₀ s)).desc r.i₂ = statusDesc r.i₀ := by
        simp [release, wakeup, hne, h.status]
      rw [freeChainFrom, freeDesc_eq hlt.2.2.1, hdesc]
      · exact if_neg (show ¬VRING_DESC_F_WRITE &&& VRING_DESC_F_NEXT ≠ 0 by decide)
      · simp [release, wakeup, hne, hbusy]

end Xv6Ringbuf.Virtio
