import Xv6Ringbuf.Fs.FileArray

namespace Xv6Ringbuf.Fs

open Function

theorem splice_eq_self {data : Block} {off : Nat} {bytes : List UInt8} (hlen : off + bytes.length ≤ BSIZE) :
    splice data off bytes = data ↔ ∀ k (hk : k < bytes.length), bytes[k] = dataAt data (off + k) := by
  constructor
  · intro heq k hk
    have hat := dataAt_splice data off bytes (show off + k < BSIZE by omega)
    rw [heq, if_pos (by omega), Nat.add_sub_cancel_left, List.getD_eq_getElem _ _ hk] at hat
    exact hat.symm
  · intro hsame
    funext x
    by_cases hoff : off ≤ x.val
    · rw [splice, if_pos hoff]
      by_cases hk : x.val - off < bytes.length
      · rw [List.getD_eq_getElem _ _ hk, hsame _ hk, Nat.add_sub_of_le hoff, dataAt, dif_pos x.isLt]
      · rw [List.getD_eq_default _ _ (by omega)]
    · rw [splice, if_neg hoff]

-- If the copy stops at byte `gap` of the buffer, in a block that the file has already,
-- then the bytes it has stored there are those of the file.
def Harmless {P : Type} (sb : Superblock) (s : Kern P) (i : Ip) (u : Kernel.State) (addr : UInt64)
    (off n : Nat) : Prop :=
  ∀ gap < n, Fsys.FirstGap u addr gap →
    s.view.missing (s.table i).din (off / BSIZE) ((off + gap) / BSIZE + 1) ≤ (s.view.free sb).card →
    s.view.addr (s.table i).din ((off + gap) / BSIZE) ≠ 0 →
    ∀ k < gap, (off + k) / BSIZE = (off + gap) / BSIZE →
      u.pagetable.getByte u.mem (addr + UInt64.ofNat k).toNat = s.view.byte (s.table i).din (off + k)

namespace Kern

variable {P : Type} {sb : Superblock} {s s' : Kern P} {i : Ip}

-- From `s` to `s'` the bytes of the file outside of the `r` bytes at `off` have stayed,
-- and the blocks that have changed are among `l`.
structure Spared (i : Ip) (off : Nat) (r : Int) (s s' : Kern P) (l : List Blockno) : Prop where
  bytes : ∀ x, x < (s.table i).din.size.toNat → ¬(off ≤ x ∧ (x : Int) < off + r) →
    s'.view.byte (s'.table i).din x = s.view.byte (s.table i).din x
  logged : ∀ b, s'.view b ≠ s.view b → b ∈ l

theorem Stored.kept_iff {off t size : Nat} {data rest : List UInt8}
    (h : Stored sb i s s' off (data ++ rest) size) (hlen : data.length = t)
    (hbounded : (s.table i).din.size.toNat ≤ MAXFILE * BSIZE) :
    (∀ x, x < (s.table i).din.size.toNat → ¬(off ≤ x ∧ (x : Int) < off + (t : Int)) →
      s'.view.byte (s'.table i).din x = s.view.byte (s.table i).din x) ↔
    ∀ k (hk : k < rest.length), off + t + k < (s.table i).din.size.toNat →
      rest[k] = s.view.byte (s.table i).din (off + t + k) := by
  have hbsize : BSIZE = 1024 := rfl
  have hown : ∀ x, x < (s.table i).din.size.toNat →
      s'.view.byte (s'.table i).din x = overlay off (data ++ rest) (s.view.byte (s.table i).din) x := by
    intro x hx
    apply h.own
    rw [hbsize] at hbounded ⊢
    omega
  constructor
  · intro hkept k hk hx
    have hat := hkept _ hx (by omega)
    rw [hown _ hx, overlay, if_pos (by omega), List.getD_append_right _ _ _ _ (by omega), hlen,
      show off + t + k - off - t = k by omega, List.getD_eq_getElem _ _ hk] at hat
    exact hat
  · intro hrest x hx hout
    rw [hown x hx]
    by_cases hlow : x < off
    · exact overlay_of_lt _ _ hlow
    · rw [overlay, if_pos (by omega), List.getD_append_right _ _ _ _ (by omega), hlen]
      by_cases hk : x - off - t < rest.length
      · rw [List.getD_eq_getElem _ _ hk, hrest _ hk (by omega)]
        congr 1
        omega
      · rw [List.getD_eq_default _ _ (by omega)]

theorem settle_view_of_ne {b : Blockno} (e : Nat) (h : b ≠ IBLOCK sb (s.table i).inum) :
    (s.settle sb i e).view b = s.view b := by
  rw [view_settle]
  exact Disk.setDinode_of_ne _ h

theorem Ends.rest {src : Fsys.Src} {n a off t : Nat} {s₁ s₂ : Kern P}
    (h : Ends sb i src n s a off t s₁ s₂) (hs : s₁.Serving sb i) (hgeo : Geometry sb)
    (hmax : off + (n - t) ≤ MAXFILE * BSIZE) : ∃ rest, Changed sb i s₁ s₂ off rest ∧
      ∀ place, s₂.view.blockAt (s₂.table i).din place = s₁.view.blockAt (s₁.table i).din place := by
  have hbsize : BSIZE = 1024 := rfl
  cases h with
  | all _ => exact ⟨[], (hs.mapped.written hs off).toChanged, fun _ => rfl⟩
  | full _ _ _ => exact ⟨[], (hs.mapped.written hs off).toChanged, fun _ => rfl⟩
  | failed r hlt hr hne _ _ =>
    have hpiece : Fsys.piece n t off ≤ BSIZE - off % BSIZE := Nat.min_le_right _ _
    have hmod : off % BSIZE < BSIZE := Nat.mod_lt _ (by omega)
    have hbn : off / BSIZE < MAXFILE := by
      rw [hbsize] at hmax ⊢
      omega
    refine ⟨_, hs.dataChange hgeo hr hne hbn ?_ (view_spoil s₁ r _) rfl rfl⟩
    rw [List.length_take]
    omega

variable {n off t : Nat} {s₁ s₂ : Kern P} {l : List Blockno}

theorem WritePost.logged {buf : List UInt8} {src : Fsys.Src} (h : WritePost sb i src buf n s 0 off t s₁ s₂ l)
    (hinum : (s₂.table i).inum = (s.table i).inum) {b : Blockno} (hsame : s₂.view b = s₁.view b)
    (hb : b ∉ l ++ [IBLOCK sb (s.table i).inum]) : (s₂.settle sb i (off + t)).view b = s.view b := by
  rw [List.mem_append, List.mem_singleton, not_or] at hb
  rw [settle_view_of_ne _ (by rw [hinum]; exact hb.2), hsame, (h.written.logged b hb.1).1]

section UserBuffer

variable [Kernel.Image] {u : Kernel.State} {addr : UInt64}

theorem WritePost.readable {buf : List UInt8} (h : WritePost sb i (Fsys.userSrc u addr) buf n s 0 off t s₁ s₂ l)
    (hpages : Kernel.UserPages u.pagetable) {k : Nat} (hk : k < t) : Fsys.Readable u addr k := by
  obtain ⟨tot, m, hle, hlt, hok⟩ := h.copied k (Nat.zero_le k) hk
  have haccess := (Fsys.userSrc_eq hpages addr tot m).1.mp hok
  have hread := (Fsys.readable_of_accessible haccess (show k - tot < m by omega)).2
  rw [Nat.add_sub_of_le hle] at hread
  exact hread

theorem WritePost.harmless {buf : List UInt8} (h : WritePost sb i (Fsys.userSrc u addr) buf n s 0 off t s₁ s₁ l)
    (hpages : Kernel.UserPages u.pagetable)
    (hlack : t = n ∨ (s.view.free sb).card < s.view.missing (s.table i).din (off / BSIZE) ((off + t) / BSIZE + 1)) :
    Harmless sb s i u addr off n := by
  intro gap hgap hfirst hroom
  have hle : t ≤ gap := by
    by_contra hlt
    exact hfirst.unreadable (h.readable hpages (by omega))
  rcases hlack with rfl | hlack
  · omega
  · have hblock : (off + t) / BSIZE + 1 ≤ (off + gap) / BSIZE + 1 :=
      Nat.succ_le_succ (Nat.div_le_div_right (Nat.add_le_add_left hle off))
    have hmono := s.view.missing_mono (s.table i).din (a := off / BSIZE) hblock
    omega

end UserBuffer

def spilled (u : Kernel.State) (addr : UInt64) (n t k : Nat) : List UInt8 :=
  ((Fsys.userBytes u addr n).drop t).take k

theorem getElem_spilled {u : Kernel.State} {addr : UInt64} {k j : Nat} (hj : j < (spilled u addr n t k).length) :
    (spilled u addr n t k)[j] = u.pagetable.getByte u.mem (addr + UInt64.ofNat (t + j)).toNat := by
  simp [spilled, Fsys.userBytes]

-- The last round of the loop stops at the gap of the buffer, `k` bytes after those that
-- are written. They are in block `r`.
structure Spilled (sb : Superblock) (i : Ip) (u : Kernel.State) (addr : UInt64) (n : Nat) (s : Kern P)
    (off t k : Nat) (r : Blockno) (s₁ s₂ : Kern P) (l : List Blockno) : Prop where
  post : WritePost sb i (Fsys.userSrc u addr) (Fsys.userBytes u addr n) n s 0 off t s₁ s₂ l
  lt : t < n
  block : r = s₁.view.addr (s₁.table i).din ((off + t) / BSIZE)
  ne_zero : r ≠ 0
  room : s.view.missing (s.table i).din (off / BSIZE) ((off + t) / BSIZE + 1) ≤ (s.view.free sb).card
  short : k < Fsys.piece n t (off + t)
  gap : Fsys.FirstGap u addr (t + k)
  state : s₂ = s₁.spoil r (splice (s₁.view r) ((off + t) % BSIZE) (spilled u addr n t k))

section Spilled

variable {u : Kernel.State} {addr : UInt64} {k : Nat} {r : Blockno}
  (h : Spilled sb i u addr n s off t k r s₁ s₂ l)

include h

theorem Spilled.length : (spilled u addr n t k).length = k := by
  have hpiece : Fsys.piece n t (off + t) ≤ n - t := Nat.min_le_left _ _
  have hshort := h.short
  rw [spilled, List.length_take, List.length_drop, Fsys.userBytes_length]
  omega

theorem Spilled.fits : (off + t) % BSIZE + (spilled u addr n t k).length ≤ BSIZE := by
  have hpiece : Fsys.piece n t (off + t) ≤ BSIZE - (off + t) % BSIZE := Nat.min_le_right _ _
  have hshort := h.short
  rw [h.length]
  omega

theorem Spilled.inBlock {j : Nat} (hj : j ≤ k) : (off + (t + j)) / BSIZE = (off + t) / BSIZE ∧
    (off + (t + j)) % BSIZE = (off + t) % BSIZE + j := by
  have hpiece : Fsys.piece n t (off + t) ≤ BSIZE - (off + t) % BSIZE := Nat.min_le_right _ _
  have hshort := h.short
  rw [show BSIZE = 1024 from rfl] at hpiece ⊢
  omega

theorem Spilled.bound (hmax : off + n ≤ MAXFILE * BSIZE) : (off + t) / BSIZE < MAXFILE := by
  have hlt := h.lt
  rw [show BSIZE = 1024 from rfl] at hmax ⊢
  omega

theorem Spilled.view_of_ne {b : Blockno} (hb : b ≠ r) : s₂.view b = s₁.view b := by
  rw [h.state, view_spoil, update_of_ne hb]

theorem Spilled.view_self :
    s₂.view r = splice (s₁.view r) ((off + t) % BSIZE) (spilled u addr n t k) := by
  rw [h.state, view_spoil, update_self]

theorem Spilled.changed (hgeo : Geometry sb) (hmax : off + n ≤ MAXFILE * BSIZE) :
    Changed sb i s₁ s₂ (off + t) (spilled u addr n t k) :=
  (h.post.written.serving.dataChange hgeo h.block h.ne_zero (h.bound hmax) h.fits
    (by rw [h.state, view_spoil]) (by rw [h.state]; rfl) (by rw [h.state]; rfl)).1

theorem Spilled.not_inode (hs : s.Serving sb i) (hgeo : Geometry sb) (hmax : off + n ≤ MAXFILE * BSIZE) :
    r ≠ IBLOCK sb (s.table i).inum := by
  have hplaced := h.post.written.serving.accounted.placed _ (.data ⟨(off + t) / BSIZE, h.bound hmax⟩)
    h.post.written.serving.allocated
  rw [inodes_self] at hplaced
  simp only [Disk.blockAt, ← h.block] at hplaced
  exact (IBLOCK_ne_data hgeo hs.inum (hplaced h.ne_zero).1).symm

theorem Spilled.view_iff (hs : s.Serving sb i) (hmax : off + n ≤ MAXFILE * BSIZE) (hrl : r ∉ l)
    (haddr : s.view.addr (s.table i).din ((off + t) / BSIZE) ≠ 0) :
    s₂.view r = s.view r ↔ ∀ j < k, u.pagetable.getByte u.mem (addr + UInt64.ofNat (t + j)).toNat =
      s.view.byte (s.table i).din (off + (t + j)) := by
  have hblock : r = s.view.addr (s.table i).din ((off + t) / BSIZE) := h.block.trans
    (h.post.written.keep_own hs (show s.view.blockAt _ (.data ⟨(off + t) / BSIZE, h.bound hmax⟩) ≠ 0 from haddr))
  have hbyte : ∀ j < k, s.view.byte (s.table i).din (off + (t + j)) =
      dataAt (s.view r) ((off + t) % BSIZE + j) := by
    intro j hj
    obtain ⟨hdiv, hmod⟩ := h.inBlock (Nat.le_of_lt hj)
    rw [Disk.byte, hdiv, hmod, if_neg haddr, ← hblock]
  rw [h.view_self, (h.post.written.logged r hrl).1, splice_eq_self h.fits]
  constructor
  · intro hsame j hj
    have hj' : j < (spilled u addr n t k).length := by rw [h.length]; exact hj
    rw [← getElem_spilled hj', hsame j hj', hbyte j hj]
  · intro hsame j hj
    rw [h.length] at hj
    rw [getElem_spilled, hsame j hj, hbyte j hj]

theorem Spilled.harmless (hs : s.Serving sb i) (hgeo : Geometry sb) (hmax : off + n ≤ MAXFILE * BSIZE)
    (hlogged : ∀ b, (s₂.settle sb i (off + t)).view b ≠ s.view b →
      b ∈ l ++ [IBLOCK sb (s.table i).inum]) : Harmless sb s i u addr off n := by
  intro gap _ hfirst _ haddr k' hk' hblock'
  obtain rfl := hfirst.unique h.gap
  rw [(h.inBlock (Nat.le_refl k)).1] at haddr hblock'
  have hpast : t ≤ k' ∧ (t = 0 ∨ off + (t - 0) ≤ (off + t) / BSIZE * BSIZE) := by
    have hstart := h.post.start
    have hlt := h.lt
    rw [Nat.sub_zero] at hstart ⊢
    rw [show BSIZE = 1024 from rfl] at hstart hblock' ⊢
    omega
  have hinum : (s₂.table i).inum = (s.table i).inum :=
    (h.changed hgeo hmax).inum_eq.trans h.post.written.inum_eq
  have hrl : r ∉ l := by
    have hkeep := h.post.written.keep_own hs
      (show s.view.blockAt _ (.data ⟨(off + t) / BSIZE, h.bound hmax⟩) ≠ 0 from haddr)
    rw [h.block, show s₁.view.addr _ _ = _ from hkeep]
    exact h.post.old _ (h.bound hmax) hpast.2 haddr
  have hview : s₂.view r = s.view r := by
    have hinode := h.not_inode hs hgeo hmax
    by_contra hdiff
    rw [← settle_view_of_ne (off + t) (by rw [hinum]; exact hinode)] at hdiff
    have hmem := hlogged r hdiff
    rw [List.mem_append, List.mem_singleton] at hmem
    rcases hmem with hmem | hmem
    · exact hrl hmem
    · exact hinode hmem
  have hsame := (h.view_iff hs hmax hrl haddr).mp hview (k' - t) (by omega)
  rw [Nat.add_sub_of_le hpast.1] at hsame
  exact hsame

theorem Spilled.kept (hs : s.Serving sb i) (hgeo : Geometry sb) (hfilled : Filled s.view (s.table i).din)
    (hmax : off + n ≤ MAXFILE * BSIZE) (hharm : Harmless sb s i u addr off n) :
    (∀ j (hj : j < (spilled u addr n t k).length), off + t + j < (s.table i).din.size.toNat →
        (spilled u addr n t k)[j] = s.view.byte (s.table i).din (off + t + j)) ∧
      ∀ b, (s₂.settle sb i (off + t)).view b ≠ s.view b → b ∈ l ++ [IBLOCK sb (s.table i).inum] := by
  have hinum : (s₂.table i).inum = (s.table i).inum :=
    (h.changed hgeo hmax).inum_eq.trans h.post.written.inum_eq
  by_cases haddr : s.view.addr (s.table i).din ((off + t) / BSIZE) = 0
  · -- The block is new and past the end of the file.
    have hrl : r ∈ l := by
      have hnew := h.post.new h.lt
      rw [Nat.sub_zero, ← h.block] at hnew
      exact hnew h.ne_zero haddr
    constructor
    · intro j hj hx
      refine absurd haddr (hfilled.filled _ ?_)
      have hmul := Nat.div_mul_le_self (off + t) BSIZE
      omega
    · intro b hdiff
      by_contra hb
      refine hdiff (h.post.logged hinum (h.view_of_ne fun heq => hb ?_) hb)
      rw [heq]
      exact List.mem_append_left _ hrl
  · have hgap := (h.inBlock (Nat.le_refl k)).1
    have hshort := h.short
    have hpiece : Fsys.piece n t (off + t) ≤ n - t := Nat.min_le_left _ _
    have hbytes : ∀ j < k, u.pagetable.getByte u.mem (addr + UInt64.ofNat (t + j)).toNat =
        s.view.byte (s.table i).din (off + (t + j)) := by
      intro j hj
      refine hharm (t + k) (by omega) h.gap ?_ ?_ (t + j) (by omega) ?_
      · rw [hgap]
        exact h.room
      · rw [hgap]
        exact haddr
      · rw [hgap, (h.inBlock (Nat.le_of_lt hj)).1]
    constructor
    · intro j hj _
      have hj' : j < k := by rw [← h.length]; exact hj
      rw [getElem_spilled, hbytes j hj', Nat.add_assoc]
    · intro b hdiff
      by_contra hb
      by_cases heq : b = r
      · rw [heq] at hdiff hb
        refine hdiff ?_
        rw [settle_view_of_ne _ (by rw [hinum]; exact h.not_inode hs hgeo hmax)]
        exact (h.view_iff hs hmax (fun hrl => hb (List.mem_append_left _ hrl)) haddr).mpr hbytes
      · exact hdiff (h.post.logged hinum (h.view_of_ne heq) hb)

end Spilled

theorem WritePost.harmless_iff [Kernel.Image] {u : Kernel.State} {addr : UInt64}
    (h : WritePost sb i (Fsys.userSrc u addr) (Fsys.userBytes u addr n) n s 0 off t s₁ s₂ l)
    (hpages : Kernel.UserPages u.pagetable) (hs : s.Serving sb i) (hgeo : Geometry sb)
    (hfilled : Filled s.view (s.table i).din) (hmax : off + n ≤ MAXFILE * BSIZE) :
    Spared i off t s (s₂.settle sb i (off + t)) (l ++ [IBLOCK sb (s.table i).inum]) ↔
      Harmless sb s i u addr off n := by
  have hbuf : n ≤ (Fsys.userBytes u addr n).length := Nat.le_of_eq (Fsys.userBytes_length u addr n).symm
  have hhigh := h.high
  have hlen : ((Fsys.userBytes u addr n).take t).length = t := by
    rw [List.length_take, Fsys.userBytes_length, Nat.min_eq_left hhigh]
  -- Without a copy that fails both sides hold.
  have hdone : s₂ = s₁ → (t = n ∨ (s.view.free sb).card <
      s.view.missing (s.table i).din (off / BSIZE) ((off + t) / BSIZE + 1)) →
      (Spared i off t s (s₂.settle sb i (off + t)) (l ++ [IBLOCK sb (s.table i).inum]) ↔
        Harmless sb s i u addr off n) := by
    rintro rfl hlack
    have hsame := (h.written.serving.mapped.written h.written.serving (off + t)).toChanged
    refine iff_of_true ⟨((h.stored hgeo hbuf hsame).kept_iff hlen hfilled.bounded).mpr ?_, ?_⟩
      (h.harmless hpages hlack)
    · intro k hk
      exact absurd hk (Nat.not_lt_zero k)
    · intro b hdiff
      by_contra hb
      exact hdiff (h.logged h.written.inum_eq rfl hb)
  have hends := h.ends
  rw [Nat.sub_zero] at hends
  cases hends with
  | all heq => exact hdone rfl (.inl heq)
  | full _ _ hlack => exact hdone rfl (.inr hlack)
  | failed r hlt hr hne hroom hfail =>
    have hpiece : Fsys.piece n t (off + t) ≤ n - t := Nat.min_le_left _ _
    obtain ⟨k, hk, hbytes, hgap⟩ := Fsys.userSrc_failed hpages addr (n := n) (by omega)
      (fun k hk => h.readable hpages hk) hfail
    have hstate : (Fsys.userSrc u addr t (Fsys.piece n t (off + t))).1.take (Fsys.piece n t (off + t)) =
        spilled u addr n t k := by
      rw [hbytes, List.take_take, Nat.min_eq_right (Nat.le_of_lt hk), spilled]
    have hspilled : Spilled sb i u addr n s off t k r s₁ _ l :=
      ⟨h, hlt, hr, hne, hroom, hk, hgap, by rw [hstate]⟩
    have hkept := (h.stored hgeo hbuf (hspilled.changed hgeo hmax)).kept_iff hlen hfilled.bounded
    constructor
    · intro hspared
      exact hspilled.harmless hs hgeo hmax hspared.logged
    · intro hharm
      obtain ⟨hbytes, hlogged⟩ := hspilled.kept hs hgeo hfilled hmax hharm
      exact ⟨hkept.mpr hbytes, hlogged⟩

end Kern

end Xv6Ringbuf.Fs
