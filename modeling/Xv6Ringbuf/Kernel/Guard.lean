import Xv6Ringbuf.Kernel.Placement

namespace Xv6Ringbuf.Kernel

structure Mount where
  pid : Pid
  page : Nat
deriving DecidableEq

-- The 33 pages up to `n` are mapped for the user.
def Whole (pt : Pagetable) (n : Nat) : Prop := ∀ i < 33, (pt.user (n - i)).isSome

instance (pt : Pagetable) (n : Nat) : Decidable (Whole pt n) := inferInstanceAs (Decidable (∀ i < 33, _))

-- Where the call has mapped a ring. An open that fails may have mapped one, too.
def mountedAt [Image] (sys : Sys) (c : Call) (s' : State) : Option Nat :=
  if c.opens = 0 then none
  else
    ((sys.pagetables c.pid).room.map (basePage sys.ringbufs c.name)).filter fun n =>
      (sys.pagetables c.pid).leaf n = none ∧ Whole s'.pagetable n

-- The rings that were mapped and of which all pages are still mapped.
def mounted [Image] (sys : Sys) (c : Call) (_ : Int32) (s' : State) (mounts : List Mount) : List Mount :=
  ((mountedAt sys c s').map (Mount.mk c.pid)).toList ++
    mounts.filter fun m => Whole ((sys.next c s').pagetables m.pid) m.page

-- The page above the highest data page of each ring is not mapped for the user.
def Guarded (sys : Sys) (mounts : List Mount) : Prop :=
  ∀ m ∈ mounts, (sys.pagetables m.pid).user (m.page + 1) = none

-- A run of free pages, from the top of the range or from a mapped page on, is too
-- short for a ring, or there are two pages more than the search asks for.
def LongRuns (pt : Pagetable) : Prop :=
  ∀ t, 2 ^ 19 + 34 < t → t = 2 ^ 26 - 2 ∨ ¬Vacant pt t → (∀ m, m < t → t ≤ m + 34 → Vacant pt m) →
    ∀ m, m < t → t ≤ m + 36 → Vacant pt m

-- A ring is created only by a process whose 34 highest pages are free, and the free
-- runs of a process that opens a ring are long.
structure KeepsGuards (sys : Sys) (_ : List Mount) (c : Call) : Prop where
  create : c.opens ≠ 0 → findName sys.ringbufs c.name = none → (sys.pagetables c.pid).room ≠ none →
    TopVacant (sys.pagetables c.pid)
  runs : c.opens ≠ 0 → LongRuns (sys.pagetables c.pid)

def Mounts (sys : Sys) (mounts : List Mount) : Prop :=
  ∀ m ∈ mounts, Whole (sys.pagetables m.pid) m.page

variable {sys : Sys} {n : Nat} {pt : Pagetable} {rb : Ringbuf} {mounts : List Mount}

theorem Vacant.user [Image] (hsound : Sound sys) {pid : Pid} (h : Vacant (sys.pagetables pid) n) :
    (sys.pagetables pid).user n = none := by
  rw [Vacant] at h
  cases huser : (sys.pagetables pid).user n with
  | none => rfl
  | some pa =>
    rw [huser, Option.getD_some] at h
    rw [Pagetable.user] at huser
    cases hleaf : (sys.pagetables pid).leaf n with
    | none => simp [hleaf] at huser
    | some pte =>
      simp only [hleaf, Option.ite_none_right_eq_some, Option.some.injEq] at huser
      exact absurd (huser.2.trans h) (hsound.user pid n pte hleaf huser.1).ne_zero

theorem user_mapRing {pt' : Pagetable} {m : Nat} (hleaf : pt'.leaf = mapRing pt.leaf n rb)
    (hout : ¬(m ≤ n ∧ n < m + 33)) : pt'.user m = pt.user m := by
  simp only [Pagetable.user, hleaf, mapRing, if_neg hout]

theorem Mounts.apart (h : Mounts sys mounts) {m : Mount} (hm : m ∈ mounts)
    (hnone : Unoccupied (sys.pagetables m.pid).leaf n) :
    ∀ i < 33, ¬(m.page - i ≤ n ∧ n < m.page - i + 33) := by
  rintro i hi ⟨hle, hlt⟩
  have hsome := h m hm i hi
  rw [Pagetable.user, hnone _ hle hlt] at hsome
  cases hsome

theorem Guarded.mapped {c : Call} {s' : State} (hmounts : Mounts sys mounts) (h : Guarded sys mounts)
    (hnone : Unoccupied (sys.pagetables c.pid).leaf n)
    (hleaf : s'.pagetable.leaf = mapRing (sys.pagetables c.pid).leaf n rb)
    (habove : ∀ m ∈ mounts, m.pid = c.pid → m.page + 33 ≠ n) : Guarded (sys.next c s') mounts := by
  intro m hm
  rw [Sys.next_pagetables]
  by_cases hpid : m.pid = c.pid
  · have hapart := hmounts.apart hm (hpid ▸ hnone) 0 (by decide)
    have hne := habove m hm hpid
    rw [if_pos hpid, user_mapRing hleaf (by omega), ← hpid]
    exact h m hm
  · rw [if_neg hpid]
    exact h m hm

section Step

variable [Image] {sys : Sys} {c : Call} {r : Int32} {s' : State} {mounts : List Mount}

theorem mountedAt_eq_some {n : Nat} (h : mountedAt sys c s' = some n) :
    c.opens ≠ 0 ∧ Placed (sys.state c) c.name n ∧ (sys.pagetables c.pid).leaf n = none ∧
      Whole s'.pagetable n := by
  rw [mountedAt] at h
  split at h
  · cases h
  · rename_i hopens
    obtain ⟨hplaced, hnew⟩ := Option.filter_eq_some_iff.mp h
    obtain ⟨top, hroom, hn⟩ := Option.map_eq_some_iff.mp hplaced
    exact ⟨hopens, ⟨top, hroom, hn.symm⟩, by simpa using hnew⟩

theorem mem_mounted {m : Mount} (hm : m ∈ mounted sys c r s' mounts) :
    (∃ n, mountedAt sys c s' = some n ∧ m = ⟨c.pid, n⟩) ∨
      m ∈ mounts ∧ Whole ((sys.next c s').pagetables m.pid) m.page := by
  rcases List.mem_append.mp hm with hm | hm
  · obtain ⟨n, hn, rfl⟩ := Option.map_eq_some_iff.mp (Option.mem_toList.mp hm)
    exact .inl ⟨n, hn, rfl⟩
  · exact .inr (by simpa using List.mem_filter.mp hm)

theorem mounts_next : Mounts (sys.next c s') (mounted sys c r s' mounts) := by
  intro m hm
  rcases mem_mounted hm with ⟨n, hn, rfl⟩ | ⟨_, hwhole⟩
  · rw [Sys.next_pagetables, if_pos rfl]
    exact (mountedAt_eq_some hn).2.2.2
  · exact hwhole

variable (hsound : Sound sys) (hrun : sys.run c = .ok (r, s'))

include hsound

theorem KeepsGuards.guard (h : KeepsGuards sys mounts c) (hopens : c.opens ≠ 0) {n : Nat}
    (hplaced : Placed (sys.state c) c.name n) : (sys.pagetables c.pid).user (n + 1) = none := by
  obtain ⟨top, hroom, rfl⟩ := hplaced
  change (sys.pagetables c.pid).room = some top at hroom
  change (sys.pagetables c.pid).user (basePage sys.ringbufs c.name top + 1) = none
  obtain ⟨_, hlow, _⟩ := room_at hroom
  apply Vacant.user hsound
  cases hfind : findName sys.ringbufs c.name with
  | none =>
    have htop := h.create hopens hfind (by simp [hroom])
    have hroom' := room_of_topVacant htop
    rw [hroom] at hroom'
    cases hroom'
    simp only [basePage, hfind]
    exact htop _ (by decide) (by decide)
  | some k =>
    simp only [basePage, hfind]
    cases room_spot hroom with
    | top _ hvacant => exact hvacant _ (by omega) (by omega)
    | below _ _ hvacant => exact hvacant _ (by omega) (by omega)

-- The page below the new book page is free: no ring has its guard page there.
theorem KeepsGuards.above (h : KeepsGuards sys mounts c) (hopens : c.opens ≠ 0)
    (hmounts : Mounts sys mounts) {n : Nat} (hplaced : Placed (sys.state c) c.name n) :
    ∀ m ∈ mounts, m.pid = c.pid → m.page + 33 ≠ n := by
  rintro m hm hpid habove
  obtain ⟨top, hroom, hn⟩ := hplaced
  change (sys.pagetables c.pid).room = some top at hroom
  change n = basePage sys.ringbufs c.name top at hn
  obtain ⟨_, hlow, _⟩ := room_at hroom
  have hruns := h.runs hopens
  have hvacant : Vacant (sys.pagetables c.pid) m.page := by
    cases hfind : findName sys.ringbufs c.name with
    | none =>
      simp only [basePage, hfind] at hn
      have hroom' := room_of_topVacant (h.create hopens hfind (by simp [hroom]))
      obtain rfl := Option.some.inj (hroom.symm.trans hroom')
      have htop : vpn TOP = 2 ^ 26 - 3 := rfl
      refine hruns (2 ^ 26 - 2) (by omega) (.inl rfl) (fun m hm hm' => ?_) m.page (by omega) (by omega)
      exact h.create hopens hfind (by simp [hroom]) m (by omega) (by omega)
    | some k =>
      simp only [basePage, hfind] at hn
      cases room_spot hroom with
      | top ht hvacant =>
        refine hruns (2 ^ 26 - 2) (by omega) (.inl rfl) (fun m hm hm' => ?_) m.page (by omega) (by omega)
        exact hvacant m (by omega) (by omega)
      | below hused hlow hvacant =>
        exact hruns _ hlow (.inr hused) hvacant m.page (by omega) (by omega)
  have hwhole := hmounts m hm 0 (by decide)
  rw [hpid, Nat.sub_zero, hvacant.user hsound] at hwhole
  cases hwhole

include hrun

theorem Guarded.next (hmounts : Mounts sys mounts) (h : Guarded sys mounts)
    (hkeeps : KeepsGuards sys mounts c) : Guarded (sys.next c s') (mounted sys c r s' mounts) := by
  -- A call that leaves the page table as it was has mapped no ring.
  have hsame : s' = sys.state c → Guarded (sys.next c s') (mounted sys c r s' mounts) := by
    rintro rfl m hm
    rw [Sys.next_state]
    rcases mem_mounted hm with ⟨n, hn, rfl⟩ | ⟨hm, _⟩
    · obtain ⟨-, -, hleaf, hwhole⟩ := mountedAt_eq_some hn
      have hsome : ((sys.pagetables c.pid).user n).isSome := hwhole 0 (by decide)
      rw [Pagetable.user, hleaf] at hsome
      cases hsome
    · exact h m hm
  have hmapped : ∀ {n : Nat} {rb : Ringbuf}, c.opens ≠ 0 → Placed (sys.state c) c.name n →
      Unoccupied (sys.pagetables c.pid).leaf n →
      s'.pagetable.leaf = mapRing (sys.pagetables c.pid).leaf n rb →
      Guarded (sys.next c s') (mounted sys c r s' mounts) := by
    intro n rb hopens hplaced hnone hleaf m hm
    rcases mem_mounted hm with ⟨n', hn, rfl⟩ | ⟨hm, _⟩
    · obtain rfl := hplaced.unique (mountedAt_eq_some hn).2.1
      rw [Sys.next_pagetables, if_pos rfl, user_mapRing hleaf (by simp)]
      exact hkeeps.guard hsound hopens hplaced
    · exact h.mapped hmounts hnone hleaf (hkeeps.above hsound hopens hmounts hplaced) m hm
  cases hsound.effect hrun with
  | refused hs => exact hsame hs
  | unknown hs => exact hsame hs
  | opened _ hopens heffect =>
    cases heffect with
    | refused hs => exact hsame hs
    | lost k n rb rb' _ _ _ hopened _ _ _ hplaced =>
      exact hmapped hopens hplaced hopened.unmapped hopened.leaf
    | opened k n base rb rb' hbase _ _ _ hopened _ _ hgiven hplaced =>
      exact hmapped hopens hplaced hopened.unmapped hopened.leaf
  | closed k _ hopens _ heffect =>
    intro m hm
    rcases mem_mounted hm with ⟨n, hn, rfl⟩ | ⟨hm, _⟩
    · exact absurd hopens (mountedAt_eq_some hn).1
    rw [Sys.next_pagetables]
    by_cases hpid : m.pid = c.pid
    · rw [if_pos hpid]
      have hguard := h m hm
      rw [hpid] at hguard
      have hunmap : ∀ b, s'.pagetable.leaf = unmapRing (sys.pagetables c.pid).leaf b →
          s'.pagetable.user (m.page + 1) = none := by
        intro b hleaf
        by_cases hin : m.page + 1 ≤ b ∧ b < m.page + 1 + 33
        · simp only [Pagetable.user, hleaf, unmapRing, if_pos hin]
        · simp only [Pagetable.user, hleaf, unmapRing, if_neg hin]
          exact hguard
      cases heffect with
      | miscounted _ hpt =>
        rw [hpt]
        exact hguard
      | unmapped _ _ hleaf => exact hunmap _ hleaf
      | freed _ _ _ hleaf => exact hunmap _ hleaf
    · rw [if_neg hpid]
      exact h m hm

end Step

-- As long as every open finds long runs of free pages, and creates a ring only at the
-- top, the page above the highest data page of each mapped ring is not mapped for the
-- user.
theorem guard_page_above_ring [Image] {sys₀ sys : Sys} {mounts : List Mount} (hinit : Initial sys₀)
    (hrun : Run mounted KeepsGuards (sys₀, []) (sys, mounts)) : Guarded sys mounts := by
  have hinv : Sound sys ∧ Mounts sys mounts ∧ Guarded sys mounts := by
    refine Run.invariant (P := fun sys mounts => Sound sys ∧ Mounts sys mounts ∧ Guarded sys mounts) hrun
      ⟨hinit.sound, by simp [Mounts], by simp [Guarded]⟩ ?_
    rintro sys mounts c r s' ⟨hsound, hmounts, hguarded⟩ hkeeps hstep
    exact ⟨hsound.next hstep, mounts_next, hguarded.next hsound hstep hmounts hkeeps⟩
  exact hinv.2.2

theorem keepsGuards_of_bare {sys : Sys} {mounts : List Mount} {c : Call}
    (hbare : ∀ n, 0 < n → (sys.pagetables c.pid).leaf n = none) : KeepsGuards sys mounts c := by
  have hvacant (n : Nat) (hn : 0 < n) : Vacant (sys.pagetables c.pid) n := by
    simp [Vacant, Pagetable.user, hbare n hn]
  exact ⟨fun _ _ _ m hm _ => hvacant m (by omega), fun _ t ht _ _ m hm hm' => hvacant m (by omega)⟩

-- One process creates a ring and another one joins it.
theorem guard_page_above_ring_two : ∃ sys,
    @Run smallImage _ (@mounted smallImage) KeepsGuards (smallSys 80, [])
      (sys, [⟨2, 2 ^ 26 - 5⟩, ⟨1, 2 ^ 26 - 4⟩]) ∧ Guarded sys [⟨2, 2 ^ 26 - 5⟩, ⟨1, 2 ^ 26 - 4⟩] := by
  let _ := smallImage
  have hplay : (play mounted (fun _ _ _ => True) (smallSys 80, [])
      [⟨1, [97, 0], 1, 0, fun _ => 0⟩, ⟨2, [97, 0], 1, 0, fun _ => 0⟩]).map Prod.snd =
        some [⟨2, 2 ^ 26 - 5⟩, ⟨1, 2 ^ 26 - 4⟩] := by decide +kernel
  obtain ⟨⟨sys, mounts⟩, hplay, hmounts⟩ := Option.map_eq_some_iff.mp hplay
  have hbare (pid : Pid) (n : Nat) (hn : 0 < n) : ((smallSys 80).pagetables pid).leaf n = none := by
    cases hleaf : ((smallSys 80).pagetables pid).leaf n with
    | none => rfl
    | some pte => exact absurd (smallSys_leaf hleaf).1 (by omega)
  have hrun : Run mounted KeepsGuards (smallSys 80, []) (sys, mounts) := by
    simp only [play, if_true] at hplay
    split at hplay
    · cases hplay
    · rename_i r s₁ h₁
      split at hplay
      · cases hplay
      · rename_i r' s₂ h₂
        rw [← Option.some.inj hplay]
        refine .head (.call _ r s₁ (keepsGuards_of_bare (hbare 1)) h₁) (.single (.call _ r' s₂ ?_ h₂))
        refine keepsGuards_of_bare fun n hn => ?_
        rw [Sys.next_pagetables, if_neg (by decide)]
        exact hbare 2 n hn
  have hinit : Initial (smallSys 80) := smallSys_initial (by decide)
  obtain rfl : mounts = _ := hmounts
  exact ⟨sys, hrun, guard_page_above_ring hinit hrun⟩

-- A process that creates two rings: the book page of the first one is directly
-- above the second one.
theorem second_ring_unguarded : ∃ sys mounts,
    @Run smallImage _ (@mounted smallImage) (fun _ _ _ => True) (smallSys 80, []) (sys, mounts) ∧
      ¬Guarded sys mounts := by
  let _ := smallImage
  have hplay : (play mounted (fun _ _ _ => True) (smallSys 80, [])
      [⟨1, [97, 0], 1, 0, fun _ => 0⟩, ⟨1, [98, 0], 1, 8, fun _ => 0⟩]).map (fun w =>
        (w.2, ((w.1.pagetables 1).user (2 ^ 26 - 36)).isSome)) =
          some ([⟨1, 2 ^ 26 - 37⟩, ⟨1, 2 ^ 26 - 4⟩], true) := by decide +kernel
  obtain ⟨⟨sys, mounts⟩, hplay, hresult⟩ := Option.map_eq_some_iff.mp hplay
  obtain ⟨rfl, huser⟩ := Prod.mk.inj hresult
  refine ⟨sys, _, run_of_play hplay, fun hguarded => ?_⟩
  have hnone := hguarded ⟨1, 2 ^ 26 - 37⟩ (by simp)
  simp only [Nat.reducePow, Nat.reduceSub, Nat.reduceAdd] at hnone huser
  rw [hnone] at huser
  cases huser

end Xv6Ringbuf.Kernel
