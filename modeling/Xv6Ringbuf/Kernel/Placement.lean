import Xv6Ringbuf.Kernel.Mappings
import Xv6Ringbuf.Kernel.Syscall

namespace Xv6Ringbuf.Kernel

open Machine

-- The address that the search gives back for a run of `num` vacant pages: the
-- highest page of the range if the run starts there, or else the mapped page just
-- above the run.
inductive Spot (pt : Pagetable) (num t : Nat) : Prop where
  | top (ht : t = 2 ^ 26 - 3) (hvacant : ∀ m, m ≤ t → t < m + num → Vacant pt m)
  | below (hused : ¬Vacant pt t) (hlow : 2 ^ 19 + num < t)
      (hvacant : ∀ m, m < t → t ≤ m + num → Vacant pt m)

variable {pt : Pagetable} {num fuel count v : Nat} {va base top : UInt64} {sys : Sys} {c : Call}

theorem findLoop_spot {b : Nat} (h : findLoop pt num fuel va base count = some top)
    (hva : va.toNat = 4096 * v) (hbase : base.toNat = 4096 * b) (hv : v < 2 ^ 26)
    (hcount : count < num) (hstart : b = 2 ^ 26 - 3 ∧ v + count = b ∨ ¬Vacant pt b ∧ v + count + 1 = b)
    (hvacant : ∀ m, v < m → m ≤ v + count → Vacant pt m) :
    ∃ t, top.toNat = 4096 * t ∧ Spot pt num t := by
  induction fuel generalizing va base count v b with
  | zero => simp only [findLoop, reduceCtorEq] at h
  | succ fuel ih =>
    have hnext : Vacant pt v → ∀ m, v - 1 < m → m ≤ v + count → Vacant pt m := by
      intro hfree m hm hm'
      by_cases heq : m = v
      · rw [heq]
        exact hfree
      · exact hvacant m (by omega) hm'
    rcases findLoop_succ pt num fuel base count hva hv with
      ⟨hnone, _⟩ | ⟨hgt, hsub, ⟨hfree, hfull, hsome⟩ | ⟨hfree, hmore, hrec⟩ | ⟨hused, hrec⟩⟩
    · rw [hnone] at h
      cases h
    · rw [hsome] at h
      cases h
      refine ⟨b, hbase, ?_⟩
      rcases hstart with ⟨hb, hrun⟩ | ⟨hused, hrun⟩
      · exact .top hb fun m hm hm' => hnext hfree m (by omega) (by omega)
      · exact .below hused (by omega) fun m hm hm' => hnext hfree m (by omega) (by omega)
    · rw [hrec] at h
      refine ih h hsub hbase (by omega) (by omega) ?_ ?_
      · exact hstart.imp (fun h => ⟨h.1, by omega⟩) fun h => ⟨h.1, by omega⟩
      · intro m hm hm'
        exact hnext hfree m hm (by omega)
    · rw [hrec] at h
      exact ih h hsub hva (by omega) (by omega) (.inr ⟨hused, by omega⟩) fun m hm hm' => by omega

theorem room_spot (h : pt.room = some top) : Spot pt 34 (vpn top) := by
  have htop : TOP.toNat = 4096 * (2 ^ 26 - 3) := by rfl
  obtain ⟨t, ht, hspot⟩ := findLoop_spot h htop htop (by omega) (by decide)
    (.inl ⟨rfl, Nat.add_zero _⟩) (fun m hm hm' => by omega)
  have hvpn : vpn top = t := by
    unfold vpn
    omega
  rw [hvpn]
  exact hspot

theorem findLoop_vacant (k : Nat) (hva : va.toNat = 4096 * v) (hv : v < 2 ^ 26)
    (hcount : count + k = num) (hk : 0 < k) (hfuel : k ≤ fuel) (hlow : 2 ^ 19 + k ≤ v)
    (hvacant : ∀ m, m ≤ v → v < m + k → Vacant pt m) :
    findLoop pt num fuel va base count = some base := by
  induction k generalizing fuel va count v with
  | zero => omega
  | succ k ih =>
    obtain ⟨fuel, rfl⟩ : ∃ n, fuel = n + 1 := ⟨fuel - 1, by omega⟩
    have hfree := hvacant v (Nat.le_refl v) (by omega)
    rcases findLoop_succ pt num fuel base count hva hv with
      ⟨_, hle⟩ | ⟨_, hsub, ⟨_, _, hsome⟩ | ⟨_, hmore, hrec⟩ | ⟨hused, _⟩⟩
    · omega
    · exact hsome
    · rw [hrec]
      exact ih hsub (by omega) (by omega) (by omega) (by omega) (by omega)
        fun m hm hm' => hvacant m (by omega) (by omega)
    · exact absurd hfree hused

def TopVacant (pt : Pagetable) : Prop := ∀ m, 2 ^ 26 - 36 ≤ m → m ≤ 2 ^ 26 - 3 → Vacant pt m

theorem room_of_topVacant (h : TopVacant pt) : pt.room = some TOP := by
  have htop : TOP.toNat = 4096 * (2 ^ 26 - 3) := by rfl
  refine findLoop_vacant 34 htop (by omega) rfl (by decide) (by decide) (by omega) ?_
  intro m hm hm'
  exact h m (by omega) hm

-- Between the kernel's base and the trap frame a process has only pages that it
-- may access: the pages of its rings.
def RingsOnly (sys : Sys) : Prop :=
  ∀ pid n pte, 2 ^ 19 < n → n ≤ 2 ^ 26 - 3 → (sys.pagetables pid).leaf n = some pte → pte.perm.u = true

theorem RingsOnly.next [Image] {r : Int32} {s' : State} (hsound : Sound sys)
    (hrun : sys.run c = .ok (r, s')) (h : RingsOnly sys) : RingsOnly (sys.next c s') := by
  intro pid n pte hlow hhigh hleaf
  rw [Sys.next_pagetables] at hleaf
  by_cases heq : pid = c.pid
  · rw [if_pos heq] at hleaf
    have hold := fun hleaf' => h c.pid n pte hlow hhigh hleaf'
    cases (hsound.effect hrun).leafChange with
    | same hsame =>
      rw [hsame] at hleaf
      exact hold hleaf
    | mapped base rb _ _ hmapped =>
      rw [hmapped, mapRing] at hleaf
      split at hleaf
      · cases hleaf
        rfl
      · exact hold hleaf
    | unmapped base hunmapped =>
      rw [hunmapped, unmapRing] at hleaf
      split at hleaf
      · cases hleaf
      · exact hold hleaf
  · rw [if_neg heq] at hleaf
    exact h pid n pte hlow hhigh hleaf

theorem RingsOnly.unmapped [Image] (hsound : Sound sys) (h : RingsOnly sys) {pid : Pid} {n : Nat}
    (hlow : 2 ^ 19 < n) (hhigh : n ≤ 2 ^ 26 - 3) (hvacant : Vacant (sys.pagetables pid) n) :
    (sys.pagetables pid).leaf n = none := by
  cases hleaf : (sys.pagetables pid).leaf n with
  | none => rfl
  | some pte =>
    have hu := h pid n pte hlow hhigh hleaf
    have hzero : pte.pa = 0 := by simpa [Vacant, Pagetable.user, hleaf, hu] using hvacant
    exact absurd hzero (hsound.user pid n pte hleaf hu).ne_zero

-- A process that joins a ring while the highest pages of its range are free has
-- the page below them free, too: the book page goes there, and the search has not
-- looked at it.
def RoomBelow (sys : Sys) (c : Call) : Prop :=
  findName sys.ringbufs c.name ≠ none → TopVacant (sys.pagetables c.pid) →
    (sys.pagetables c.pid).leaf (2 ^ 26 - 37) = none

theorem RoomBelow.unoccupied [Image] (hsound : Sound sys) (hrings : RingsOnly sys)
    (h : RoomBelow sys c) (hroom : (sys.pagetables c.pid).room = some top) :
    Unoccupied (sys.pagetables c.pid).leaf (basePage sys.ringbufs c.name top) := by
  obtain ⟨_, hlow, hhigh⟩ := room_at hroom
  have hunmapped : ∀ m, 2 ^ 19 < m → m ≤ 2 ^ 26 - 3 → Vacant (sys.pagetables c.pid) m →
      (sys.pagetables c.pid).leaf m = none := fun m hm hm' => hrings.unmapped hsound hm hm'
  intro m hm hm'
  cases hfind : findName sys.ringbufs c.name with
  | none =>
    simp only [basePage, hfind] at hm hm'
    cases room_spot hroom with
    | top ht hvacant => exact hunmapped m (by omega) (by omega) (hvacant m (by omega) (by omega))
    | below _ hlow hvacant => exact hunmapped m (by omega) (by omega) (hvacant m (by omega) (by omega))
  | some k =>
    simp only [basePage, hfind] at hm hm'
    cases room_spot hroom with
    | top ht hvacant =>
      by_cases hbook : m = 2 ^ 26 - 37
      · rw [hbook]
        refine h (by simp [hfind]) fun m hm hm' => ?_
        exact hvacant m (by omega) (by omega)
      · exact hunmapped m (by omega) (by omega) (hvacant m (by omega) (by omega))
    | below _ hlow hvacant => exact hunmapped m (by omega) (by omega) (hvacant m (by omega) (by omega))

-- In every state that is reached by ring calls, an open finds the pages that it
-- is going to map unmapped, and does not panic because of one of them, exactly if
-- the book page of a ring that is joined at the top has room.
theorem open_finds_pages_unmapped [Image] {sys₀ sys : Sys} (hinit : Initial sys₀)
    (hmem : ∀ pid n, 2 ^ 19 < n → n ≤ 2 ^ 26 - 3 → (sys₀.pagetables pid).leaf n = none)
    (hrun : Calls sys₀ sys) (c : Call) (hopens : c.opens ≠ 0) :
    ((∀ top, (sys.pagetables c.pid).room = some top →
        Unoccupied (sys.pagetables c.pid).leaf (basePage sys.ringbufs c.name top)) ∧
      sys.run c ≠ .error .mappagesRemap) ↔ RoomBelow sys c := by
  have hinv : Sound sys ∧ RingsOnly sys := by
    refine Run.invariant (P := fun sys _ => Sound sys ∧ RingsOnly sys) hrun ⟨hinit.sound, ?_⟩ ?_
    · intro pid n pte hlow hhigh hleaf
      rw [hmem pid n hlow hhigh] at hleaf
      cases hleaf
    · rintro sys _ c r s' ⟨hsound, hrings⟩ - hstep
      exact ⟨hsound.next hstep, hrings.next hsound hstep⟩
  obtain ⟨hsound, hrings⟩ := hinv
  constructor
  · rintro ⟨hnone, -⟩ hfind htop
    obtain ⟨k, hk⟩ := Option.ne_none_iff_exists'.mp hfind
    have hbook := hnone TOP (room_of_topVacant htop) (2 ^ 26 - 37)
    simp only [basePage, hk, show vpn TOP = 2 ^ 26 - 3 by rfl] at hbook
    exact hbook (by omega) (by omega)
  · intro h
    have hnone : ∀ top, (sys.pagetables c.pid).room = some top →
        Unoccupied (sys.pagetables c.pid).leaf (basePage sys.ringbufs c.name top) :=
      fun _ hroom => h.unoccupied hsound hrings hroom
    refine ⟨hnone, fun herror => ?_⟩
    have hwp := ringbuf_wp c.name c.opens c.addr fun _ => hsound.healthy (c := c)
    obtain ⟨top, hroom, hused⟩ := (hwp.error herror).2 rfl hopens
    exact hused (hnone top hroom)

theorem open_finds_pages_unmapped_joined : ∃ sys, @Calls smallImage (smallSys 80) sys ∧
    @Sys.run smallImage sys ⟨1, [97, 0], 1, 0, fun _ => 0⟩ ≠ .error .mappagesRemap := by
  let _ := smallImage
  have hplay : (play (fun _ _ _ _ (g : Unit) => g) (fun _ _ _ => True) (smallSys 80, ())
      [⟨2, [97, 0], 1, 0, fun _ => 0⟩]).map (fun w => (w.1.pagetables 1).leaf (2 ^ 26 - 37)) =
        some none := by decide +kernel
  obtain ⟨⟨sys, _⟩, hplay, hleaf⟩ := Option.map_eq_some_iff.mp hplay
  have hrun := run_of_play hplay
  refine ⟨sys, hrun, ?_⟩
  exact ((open_finds_pages_unmapped (smallSys_initial (by decide))
    (fun pid n hlow _ => smallSys_memory 80 pid n hlow) hrun _ (by decide)).mpr fun _ _ => hleaf).2

-- A process opens two rings and closes the first one. The 34 highest pages are
-- free then, but the page below them belongs to the second ring. When the process
-- joins a third ring, the book page goes there.
theorem open_collides_at_top : ∃ sys, @Calls smallImage (smallSys 80) sys ∧
    (sys.pagetables 1).room = some TOP ∧ (sys.pagetables 1).leaf (2 ^ 26 - 37) ≠ none ∧
    @Sys.run smallImage sys ⟨1, [99, 0], 1, 0, fun _ => 0⟩ = .error .mappagesRemap := by
  let _ := smallImage
  have hplay : (play (fun _ _ _ _ (g : Unit) => g) (fun _ _ _ => True) (smallSys 80, ())
      [⟨1, [97, 0], 1, 0, fun _ => 0⟩, ⟨1, [98, 0], 1, 8, fun _ => 0⟩, ⟨2, [99, 0], 1, 0, fun _ => 0⟩,
        ⟨1, [97, 0], 0, 0, withCell 0x87ffe000 0x3fffffc000⟩]).map (fun w =>
        (decide ((w.1.pagetables 1).room = some TOP), ((w.1.pagetables 1).leaf (2 ^ 26 - 37)).isSome,
          panicOf (w.1.run ⟨1, [99, 0], 1, 0, fun _ => 0⟩))) =
            some (true, true, some .mappagesRemap) := by decide +kernel
  obtain ⟨⟨sys, _⟩, hplay, hresult⟩ := Option.map_eq_some_iff.mp hplay
  obtain ⟨hroom, hrest⟩ := Prod.mk.inj hresult
  obtain ⟨hleaf, hpanic⟩ := Prod.mk.inj hrest
  refine ⟨sys, run_of_play hplay, of_decide_eq_true hroom, ?_, panicOf_eq hpanic⟩
  exact Option.isSome_iff_ne_none.mp hleaf

end Xv6Ringbuf.Kernel
