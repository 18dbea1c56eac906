import Xv6Ringbuf.Kernel.CloseRing

namespace Xv6Ringbuf.Kernel

open Machine Function

-- What the ring calls rely on. A process has less memory than the 2 GiB below
-- `KERNBASE`, so one of the pages there is not mapped, and the free list has only
-- pages that `kfree` accepts.
structure Healthy [Image] (s : State) : Prop where
  hole : ∃ n, 0 < n ∧ n < 2 ^ 19 ∧ s.pagetable.leaf n = none
  valid : ∀ pa ∈ s.freelist, ValidPage pa

variable {pt : Pagetable} {n : Nat} {k : Fin MAX_RINGBUFS} {rb : Ringbuf} {s : State}
  {name : List UInt8} {addr : UInt64}

theorem walkaddr_of_leaf {va : UInt64} {pte : Pte} (hva : At va n) (hleaf : pt.leaf n = some pte)
    (hu : pte.perm.u = true) : pt.walkaddr va = pte.pa := by
  rw [walkaddr_eq pt hva.aligned.lt, hva.vpn, Pagetable.user, hleaf]
  simp [hu]

def Told (addr : UInt64) (s : State) : Prop :=
  ∀ base, s.given = some base → wordAt s.mem (cell s.pagetable addr) = base

theorem wordAt_of_bytes {mem : UInt64 → UInt8} {pa value : UInt64}
    (h : ∀ i < 8, mem (pa + UInt64.ofNat i) = UInt8.ofNat (value.toNat / 256 ^ i)) :
    wordAt mem pa = value := by
  have hlt := value.toNat_lt
  apply UInt64.toNat_inj.mp
  rw [wordAt, show List.range 8 = [0, 1, 2, 3, 4, 5, 6, 7] by rfl]
  simp only [List.foldr_cons, List.foldr_nil, h 0 (by decide), h 1 (by decide), h 2 (by decide),
    h 3 (by decide), h 4 (by decide), h 5 (by decide), h 6 (by decide), h 7 (by decide),
    UInt8.toNat_ofNat', UInt64.toNat_ofNat', Nat.reducePow]
  omega

theorem roundDown_offset (a : UInt64) : a - PGROUNDDOWN a = a % 4096 := by
  apply UInt64.toNat_inj.mp
  rw [toNat_sub_roundDown, UInt64.toNat_mod]
  rfl

theorem getD_bytesOf (value : UInt64) {i : Nat} (hi : i < 8) :
    (bytesOf value).getD i 0 = UInt8.ofNat (value.toNat / 256 ^ i) := by
  simp [bytesOf, List.getD, hi]

theorem wordAt_store (mem : UInt64 → UInt8) (pa value : UInt64) :
    wordAt (fun a => if (a - pa).toNat < (bytesOf value).length then (bytesOf value).getD (a - pa).toNat 0
      else mem a) pa = value := by
  apply wordAt_of_bytes
  intro i hi
  have hoff : (pa + UInt64.ofNat i - pa).toNat = i := by
    rw [UInt64.add_comm, UInt64.add_sub_cancel, UInt64.toNat_ofNat']
    omega
  simp only [hoff]
  rw [if_pos (by simpa [bytesOf] using hi), getD_bytesOf value hi]

theorem copyoutUserAddr_told {addr : UInt64} (haddr : addr.toNat % 8 = 0) (base : UInt64) (s : State) :
    wp (copyoutUserAddr base addr) s (fun r s' => r = 0 → Told addr s') fun _ => True := by
  have hroom := toNat_room addr
  have hall : min (4096 - addr.toNat % 4096) 8 = 8 := by omega
  have hlen : (bytesOf base).length = 8 := by simp [bytesOf]
  obtain ⟨fuel, hfuel⟩ : ∃ fuel, 8 = fuel + 1 := ⟨7, rfl⟩
  unfold copyoutUserAddr
  apply wp_bind
  unfold copyout
  generalize hbytes : bytesOf base = bytes at hlen
  rw [copyoutLoop, if_neg (by simp [← List.length_eq_zero_iff, hlen])]
  apply wp_bind
  apply walkaddr_wp
  by_cases hpa : s.pagetable.walkaddr (PGROUNDDOWN addr) = 0
  · rw [if_pos hpa]
    apply wp_pure
    rw [if_pos (by decide)]
    intro hr
    cases hr
  · rw [if_neg hpa]
    apply wp_modify_bind
    rw [hroom, hlen, hall, List.take_of_length_le (by omega), List.drop_eq_nil_of_le (by omega), hfuel,
      copyoutLoop, List.isEmpty_nil, if_pos rfl]
    apply wp_pure
    rw [if_neg (by decide)]
    apply wp_modify_bind
    intro _ value hvalue
    cases hvalue
    have hcell : cell s.pagetable addr = s.pagetable.walkaddr (PGROUNDDOWN addr) + (addr - PGROUNDDOWN addr) := by
      rw [cell, walkaddr_roundDown, roundDown_offset]
    change wordAt _ (cell s.pagetable addr) = base
    rw [hcell, ← hbytes]
    exact wordAt_store _ _ _

theorem copyoutUserAddr_wp (base addr : UInt64) (s : State) :
    wp (copyoutUserAddr base addr) s
      (fun r s' => s'.ringbufs = s.ringbufs ∧ s'.reads = s.reads ∧ s'.pagetable = s.pagetable ∧
        s'.freelist = s.freelist ∧
        (CellMapped s.pagetable addr 8 ∧ r = 0 ∧ s'.given = some base ∧
            (addr.toNat % 8 = 0 → Told addr s') ∨
          ¬CellMapped s.pagetable addr 8 ∧ r = -1 ∧ s'.given = s.given))
      (fun _ => False) := by
  have hcopied : wp (copyoutUserAddr base addr) s
      (fun r s' => s'.ringbufs = s.ringbufs ∧ s'.reads = s.reads ∧ s'.pagetable = s.pagetable ∧
        s'.freelist = s.freelist ∧
        (CellMapped s.pagetable addr 8 ∧ r = 0 ∧ s'.given = some base ∨
          ¬CellMapped s.pagetable addr 8 ∧ r = -1 ∧ s'.given = s.given)) (fun _ => False) := by
    unfold copyoutUserAddr
    refine wp_call (copyout_wp addr (bytesOf base) s) ?_
    rintro r s₁ ⟨hframe, hpt, hfree, hr⟩
    rw [show (bytesOf base).length = 8 by simp [bytesOf]] at hr
    by_cases hcell : CellMapped s.pagetable addr 8
    · rw [if_pos hcell] at hr
      rw [hr, if_neg (by decide)]
      exact ⟨hframe.ringbufs, hframe.reads, hpt, hfree, .inl ⟨hcell, rfl, rfl⟩⟩
    · rw [if_neg hcell] at hr
      rw [hr, if_pos (by decide)]
      exact ⟨hframe.ringbufs, hframe.reads, hpt, hfree, .inr ⟨hcell, rfl, hframe.given⟩⟩
  by_cases haddr : addr.toNat % 8 = 0
  · apply (hcopied.and (copyoutUserAddr_told haddr base s)).mono _ fun _ h => h.1
    rintro r s' ⟨⟨hrings, hreads, hpt, hfree, ⟨hcell, rfl, hgiven⟩ | hfailed⟩, htold⟩
    · exact ⟨hrings, hreads, hpt, hfree, .inl ⟨hcell, rfl, hgiven, fun _ => htold rfl⟩⟩
    · exact ⟨hrings, hreads, hpt, hfree, .inr hfailed⟩
  · apply hcopied.mono _ fun _ h => h
    rintro r s' ⟨hrings, hreads, hpt, hfree, ⟨hcell, rfl, hgiven⟩ | hfailed⟩
    · exact ⟨hrings, hreads, hpt, hfree, .inl ⟨hcell, rfl, hgiven, fun h => absurd h haddr⟩⟩
    · exact ⟨hrings, hreads, hpt, hfree, .inr hfailed⟩

def newRing (name : List UInt8) : Ringbuf := ⟨0, key name, fun _ => 0, 0⟩

inductive Source (rbs : Ringbufs) (name : List UInt8) (k : Fin MAX_RINGBUFS) : Ringbuf → Prop where
  | create (hfind : findName rbs name = none) (hk : k.val = getRingbufIndex rbs) :
      Source rbs name k (newRing name)
  | append (hfind : findName rbs name = some k) (href : 0 ≤ (rbs k).refcount) :
      Source rbs name k (rbs k)

theorem Source.findName_opened {rbs rbs' : Ringbufs} {name : List UInt8} {k : Fin MAX_RINGBUFS}
    {rb rb' : Ringbuf} (hsource : Source rbs name k rb) (hrings : rbs' = update rbs k rb')
    (hname : rb'.name = rb.name) : findName rbs' name = some k := by
  rw [hrings]
  cases hsource with
  | create hfind =>
    apply findName_eq_some_of_unique
    · rw [update_self, hname]
      exact key_key name
    · intro j hj
      by_contra hne
      rw [update_of_ne hne] at hj
      exact findName_eq_none_iff.mp hfind j hj
  | append hfind =>
    rw [← hfind]
    apply findName_congr
    intro j
    by_cases heq : j = k
    · rw [heq, update_self, hname]
    · rw [update_of_ne heq]

-- The table is the same up to the pages of entries without references.
structure SameRings (rbs rbs' : Ringbufs) : Prop where
  refcount : ∀ k, (rbs' k).refcount = (rbs k).refcount
  name : ∀ k, (rbs' k).name = (rbs k).name
  live : ∀ k, (rbs k).refcount ≠ 0 → rbs' k = rbs k

theorem SameRings.refl (rbs : Ringbufs) : SameRings rbs rbs :=
  ⟨fun _ => rfl, fun _ => rfl, fun _ _ => rfl⟩

theorem SameRings.update {rbs : Ringbufs} (href : rb.refcount = (rbs k).refcount)
    (hname : rb.name = (rbs k).name) (hkept : (rbs k).refcount ≠ 0 → rb = rbs k) :
    SameRings rbs (update rbs k rb) := by
  refine ⟨?_, ?_, ?_⟩
  · intro j
    by_cases heq : j = k
    · rw [heq, update_self, href]
    · rw [update_of_ne heq]
  · intro j
    by_cases heq : j = k
    · rw [heq, update_self, hname]
    · rw [update_of_ne heq]
  · intro j hlive
    by_cases heq : j = k
    · rw [heq] at hlive ⊢
      rw [update_self, hkept hlive]
    · rw [update_of_ne heq]

-- The page at which an open places the base of the ring: a new ring is one page
-- below the address that the search finds, a ring that is joined two pages.
def basePage (rbs : Ringbufs) (name : List UInt8) (top : UInt64) : Nat :=
  match findName rbs name with
  | none => vpn top - 1
  | some _ => vpn top - 2

def Placed (s : State) (name : List UInt8) (n : Nat) : Prop :=
  ∃ top, s.pagetable.room = some top ∧ n = basePage s.ringbufs name top

theorem Placed.room (h : Placed s name n) :
    s.pagetable.room ≠ none := by
  obtain ⟨top, htop, _⟩ := h
  simp [htop]

theorem Placed.unique {n' : Nat} (h : Placed s name n) (h' : Placed s name n') : n = n' := by
  obtain ⟨top, hroom, hn⟩ := h
  obtain ⟨top', hroom', hn'⟩ := h'
  rw [hroom] at hroom'
  cases hroom'
  rw [hn, hn']

-- What an open does. In the last case the pages stay mapped, but no reference
-- is counted and the user does not learn the base.
inductive OpenEffect (s s' : State) (name : List UInt8) (addr : UInt64) : Int32 → Prop where
  | refused (hs : s' = s)
      (hwhy : s.pagetable.room = none ∨
        ∃ k, findName s.ringbufs name = some k ∧ (s.ringbufs k).refcount < 0) :
      OpenEffect s s' name addr (-1)
  | opened (k : Fin MAX_RINGBUFS) (n : Nat) (base : UInt64) (rb rb' : Ringbuf) (hbase : At base n)
      (hlow : 2 ^ 19 + 32 ≤ n) (hhigh : n < 2 ^ 26 - 3) (hsource : Source s.ringbufs name k rb)
      (hopened : Opened s s' n rb rb') (hcell : CellMapped s'.pagetable addr 8)
      (hrings : s'.ringbufs = update s.ringbufs k
        { rb' with refcount := rb'.refcount + 1 })
      (hgiven : s'.given = some base) (hplaced : Placed s name n)
      (htold : addr.toNat % 8 = 0 → Told addr s') : OpenEffect s s' name addr 0
  | lost (k : Fin MAX_RINGBUFS) (n : Nat) (rb rb' : Ringbuf) (hlow : 2 ^ 19 + 32 ≤ n)
      (hhigh : n < 2 ^ 26 - 3) (hsource : Source s.ringbufs name k rb)
      (hopened : Opened s s' n rb rb') (hcell : ¬CellMapped s'.pagetable addr 8)
      (hrings : SameRings s.ringbufs s'.ringbufs) (hgiven : s'.given = s.given)
      (hplaced : Placed s name n) : OpenEffect s s' name addr (-1)

-- When an open does not panic. A new ring is one page below the address that
-- the search finds, a ring that is joined two pages.
def CreateOk (s : State) (name : List UInt8) : Prop :=
  ∀ top, s.pagetable.room = some top → ¬OpenFails s (vpn top - 1) (newRing name)

def AppendOk (s : State) (k : Fin MAX_RINGBUFS) : Prop :=
  ∀ top, s.pagetable.room = some top → 0 ≤ (s.ringbufs k).refcount →
    ¬OpenFails s (vpn top - 2) (s.ringbufs k)

-- The pages that an open is going to map are not all free.
def Occupied (s : State) (name : List UInt8) : Prop :=
  ∃ top, s.pagetable.room = some top ∧
    ¬Unoccupied s.pagetable.leaf (basePage s.ringbufs name top)

theorem Opened.congr {s₁ s' : State} {rb' : Ringbuf} (h : Opened s s₁ n rb rb')
    (hpt : s'.pagetable = s₁.pagetable) (hfree : s'.freelist = s₁.freelist)
    (hreads : s'.reads = s₁.reads) : Opened s s' n rb rb' := by
  refine ⟨hreads.trans h.reads, h.unmapped, ?_, h.refcount, h.name, h.kept, ?_⟩
  · rw [hpt, h.leaf]
  · rw [hfree]
    exact h.free

theorem room_at {top : UInt64} (h : pt.room = some top) :
    At top (vpn top) ∧ 2 ^ 19 + 34 ≤ vpn top ∧ vpn top ≤ 2 ^ 26 - 3 := by
  obtain ⟨t, htop, hlow, hhigh⟩ := room_range h
  have hat : At top t := ⟨htop, by omega⟩
  rw [hat.vpn]
  exact ⟨hat, hlow, hhigh⟩

theorem createRingbuf_wp [Image] (hs : Healthy s) (hfind : findName s.ringbufs name = none)
    (hcount : getRingbufIndex s.ringbufs < MAX_RINGBUFS) :
    wp (createRingbuf name addr) s
      (fun r s' => CreateOk s name ∧ OpenEffect s s' name addr r)
      (fun e => ¬CreateOk s name ∧ (e = .mappagesRemap → Occupied s name)) := by
  obtain ⟨hole, hpos, hlt, hhole⟩ := hs.hole
  unfold createRingbuf
  apply wp_bind
  apply findContiguousPages_wp
  cases hroom : s.pagetable.room with
  | none =>
    refine ⟨fun top htop => ?_, .refused rfl (.inl hroom)⟩
    rw [hroom] at htop
    cases htop
  | some top =>
    obtain ⟨htop, hlow, hhigh⟩ := room_at hroom
    obtain ⟨n, hn⟩ : ∃ n, vpn top = n + 1 := ⟨vpn top - 1, by omega⟩
    have hbase : At (top - PGSIZE) n := At.pred (hn ▸ htop)
    have hpage : n = basePage s.ringbufs name top := by
      simp only [basePage, hfind, hn, Nat.add_sub_cancel]
    have hplaced : Placed s name n := ⟨top, hroom, hpage⟩
    have hok : ¬OpenFails s n (newRing name) → CreateOk s name := by
      intro h top' htop'
      rw [hroom] at htop'
      cases htop'
      rwa [hn]
    have hbad : ∀ e, OpenPanics s n (newRing name) e →
        ¬CreateOk s name ∧ (e = .mappagesRemap → Occupied s name) := by
      intro e h
      refine ⟨fun hok => hok top hroom ?_, fun he => ⟨top, hroom, hpage ▸ h.2 he⟩⟩
      rw [hn]
      exact h.1
    apply wp_bind
    apply (mapRounds_wp hbase (by omega) hpos hlt 32 0 rfl (newRing name) s hhole).mono _
      (fun e h => hbad e h.panics)
    rintro _ s₁ ⟨rb₁, rfl, hrounds⟩
    obtain ⟨popped, hpopped, hsub, _⟩ := hrounds.free
    have hfirst : dataPage rb₁ 0 ≠ 0 := by
      apply (hs.valid _ _).ne_zero
      rw [hpopped]
      exact List.mem_append_left _ ((hsub rfl).subset (List.mem_ofFn.mpr ⟨_, rfl⟩))
    have hleaf : s₁.pagetable.leaf n = some ⟨dataPage rb₁ 0, permRing⟩ := by
      rw [hrounds.leaf, if_pos (by omega), Nat.sub_self]
    change wp (if (0 : Int32) ≠ 0 then _ else _) s₁ _ _
    rw [if_neg (by decide)]
    apply wp_bind
    apply (validatePages_wp _ s₁).mono _ (fun _ h => h.elim)
    rintro r s₂ ⟨hs₂, hr⟩
    rw [walkaddr_of_leaf hbase hleaf rfl, if_neg hfirst] at hr
    rw [hs₂, hr, if_neg (by decide)]
    have hbook : At (top - PGSIZE - UInt64.ofNat (2 * RINGBUF_SIZE) * PGSIZE) (n - 32) :=
      hbase.sub (show 32 ≤ n by omega)
    have hhole₁ : s₁.pagetable.leaf hole = none := by
      rw [hrounds.leaf, if_neg (by omega), hhole]
    apply wp_bind
    apply (mappageToBook_wp hbook hpos (by omega) rb₁ s₁ hhole₁).mono _
      (fun e h => hbad e (hrounds.book_panics rfl rfl (by omega) h))
    rintro _ s₃ ⟨rb₂, rfl, hbooked⟩
    have hopened := hrounds.opened rfl rfl rfl (by omega) hbooked
    obtain ⟨popped', hpopped', hmem, _⟩ := hbooked.free
    have hpage' : rb₂.book ≠ 0 := by
      apply (hs.valid _ _).ne_zero
      rw [hpopped, hpopped']
      exact List.mem_append_right _ (List.mem_append_left _ (hmem hrounds.refcount))
    have hleaf' : s₃.pagetable.leaf (n - 32) = some ⟨rb₂.book, permRing⟩ := by
      rw [hbooked.leaf, update_self]
    change wp (if (0 : Int32) ≠ 0 then _ else _) s₃ _ _
    rw [if_neg (by decide)]
    apply wp_bind
    apply (validatePages_wp _ s₃).mono _ (fun _ h => h.elim)
    rintro r s₄ ⟨hs₄, hr⟩
    rw [walkaddr_of_leaf hbook hleaf' rfl, if_neg hpage'] at hr
    rw [hs₄, hr, if_neg (by decide)]
    apply wp_bind
    apply (copyoutUserAddr_wp _ _ s₃).mono _ (fun _ h => h.elim)
    rintro r s₅ ⟨hrings, hreads, hpt, hfree, hcopied⟩
    have hrings₅ : s₅.ringbufs = s.ringbufs :=
      hrings.trans (hbooked.frame.ringbufs.trans hrounds.frame.ringbufs)
    have hopened₅ := hopened.congr hpt hfree hreads
    rw [← hpt] at hcopied
    rcases hcopied with ⟨hcell, rfl, hgiven, htold⟩ | ⟨hcell, rfl, hgiven⟩
    · rw [if_neg (by decide)]
      apply wp_get_bind
      rw [hrings₅, dif_pos hcount]
      refine ⟨hok hopened.not_fails, .opened ⟨_, hcount⟩ n _ _ rb₂ hbase (by omega) (by omega)
        (.create hfind rfl) ?_ hcell ?_ hgiven hplaced htold⟩
      · exact hopened₅.congr rfl rfl rfl
      · exact congrArg (fun rbs => update rbs _ _) hrings₅
    · rw [if_pos (by decide)]
      refine ⟨hok hopened.not_fails, .lost ⟨_, hcount⟩ n _ rb₂ (by omega) (by omega)
        (.create hfind rfl) hopened₅ hcell (hrings₅ ▸ SameRings.refl _) ?_ hplaced⟩
      rw [hgiven, hbooked.frame.given, hrounds.frame.given]

theorem appendRingbuf_wp [Image] (hs : Healthy s) (hfind : findName s.ringbufs name = some k) :
    wp (appendRingbuf name addr) s
      (fun r s' => AppendOk s k ∧ OpenEffect s s' name addr r)
      (fun e => ¬AppendOk s k ∧ (e = .mappagesRemap → Occupied s name)) := by
  obtain ⟨hole, hpos, hlt, hhole⟩ := hs.hole
  unfold appendRingbuf
  apply wp_get_bind
  rw [hfind]
  apply wp_bind
  apply findContiguousPages_wp
  cases hroom : s.pagetable.room with
  | none =>
    refine ⟨fun top htop => ?_, .refused rfl (.inl hroom)⟩
    rw [hroom] at htop
    cases htop
  | some top =>
    obtain ⟨htop, hlow, hhigh⟩ := room_at hroom
    obtain ⟨n, hn⟩ : ∃ n, vpn top = n + 1 + 1 := ⟨vpn top - 2, by omega⟩
    have hbase : At (top - PGSIZE - PGSIZE) n := At.pred (At.pred (hn ▸ htop))
    have hpage : n = basePage s.ringbufs name top := by
      simp only [basePage, hfind, hn, Nat.reduceSubDiff]
    have hplaced : Placed s name n := ⟨top, hroom, hpage⟩
    apply wp_get_bind
    apply wp_bind
    unfold mappagesToProc
    by_cases hneg : (s.ringbufs k).refcount < 0
    · rw [if_pos hneg]
      apply wp_pure
      apply wp_modify_bind
      change wp (if (-1 : Int32) ≠ 0 then _ else _) _ _ _
      rw [if_pos (by decide)]
      refine ⟨fun _ _ hle => by omega, .refused ?_ (.inr ⟨k, hfind, hneg⟩)⟩
      rw [update_eq_self]
    · rw [if_neg hneg]
      have hok : ¬OpenFails s n (s.ringbufs k) → AppendOk s k := by
        intro h top' htop' _
        rw [hroom] at htop'
        cases htop'
        rwa [hn]
      have hbad : ∀ e, OpenPanics s n (s.ringbufs k) e →
          ¬AppendOk s k ∧ (e = .mappagesRemap → Occupied s name) := by
        intro e h
        refine ⟨fun hok => hok top hroom (by omega) ?_, fun he => ⟨top, hroom, hpage ▸ h.2 he⟩⟩
        rw [hn]
        exact h.1
      apply (mapRounds_wp hbase (by omega) hpos hlt 32 0 rfl (s.ringbufs k) s hhole).mono _
        (fun e h => hbad e h.panics)
      rintro _ s₁ ⟨rb₁, rfl, hrounds⟩
      apply wp_modify_bind
      change wp (if (0 : Int32) ≠ 0 then _ else _) _ _ _
      rw [if_neg (by decide)]
      have hbook : At (top - PGSIZE - PGSIZE - UInt64.ofNat (2 * RINGBUF_SIZE) * PGSIZE) (n - 32) :=
        hbase.sub (show 32 ≤ n by omega)
      have hhole₁ : s₁.pagetable.leaf hole = none := by
        rw [hrounds.leaf, if_neg (by omega), hhole]
      apply wp_bind
      apply (mappageToBook_wp hbook hpos (by omega) rb₁
        { s₁ with ringbufs := update s₁.ringbufs k rb₁ } hhole₁).mono _
        (fun e h => hbad e (hrounds.book_panics rfl rfl (by omega) h))
      rintro _ s₃ ⟨rb₂, rfl, hbooked⟩
      have hopened : Opened s s₃ n (s.ringbufs k) rb₂ := by
        refine hrounds.opened ?_ ?_ ?_ (by omega) hbooked <;> rfl
      apply wp_modify_bind
      change wp (if (0 : Int32) ≠ 0 then _ else _) _ _ _
      rw [if_neg (by decide)]
      apply wp_bind
      apply (copyoutUserAddr_wp _ _ _).mono _ (fun _ h => h.elim)
      rintro r s₅ ⟨hrings, hreads, hpt, hfree, hcopied⟩
      have hrings₅ : s₅.ringbufs = update s.ringbufs k rb₂ := by
        rw [hrings]
        simp only
        rw [hbooked.frame.ringbufs, update_idem, hrounds.frame.ringbufs]
      have hopened₅ := hopened.congr hpt hfree hreads
      rw [← hpt] at hcopied
      rcases hcopied with ⟨hcell, rfl, hgiven, htold⟩ | ⟨hcell, rfl, hgiven⟩
      · rw [if_neg (by decide)]
        refine ⟨hok hopened.not_fails, .opened k n _ _ rb₂ hbase (by omega) (by omega)
          (.append hfind (by omega)) (hopened₅.congr rfl rfl rfl) hcell ?_ hgiven hplaced htold⟩
        change update s₅.ringbufs k _ = _
        rw [hrings₅, update_idem]
      · rw [if_pos (by decide)]
        refine ⟨hok hopened.not_fails, .lost k n _ rb₂ (by omega) (by omega)
          (.append hfind (by omega)) hopened₅ hcell ?_ ?_ hplaced⟩
        · rw [hrings₅]
          exact SameRings.update hopened.refcount hopened.name hopened.kept
        · rw [hgiven]
          exact hbooked.frame.given.trans hrounds.frame.given

end Xv6Ringbuf.Kernel
