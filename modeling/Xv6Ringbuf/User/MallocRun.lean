import Xv6Ringbuf.User.MallocLoop

namespace Xv6Ringbuf.Umalloc

open Machine Linked Trace

def Region.block (v : Region) : Block := ⟨v.ptr - 16, nunits v.n⟩

-- Before the first call there is no list, and no memory has been obtained.
def Ready (base start : Nat) (s : Prog) : Prop :=
  (s.heap.freep = 0 ∧ s.live = [] ∧ s.heap.brk = start) ∨
    ∃ L, Inv base start s.heap L (s.live.map Region.block)

-- The static variable `base` lies below the memory obtained from `sbrk`, and the
-- process starts with at most the memory of the machine.
structure Loaded (base start : Nat) : Prop where
  pos : 0 < base
  below : base + 16 ≤ start
  top : start ≤ (PHYSTOP - KERNBASE).toNat

section Calls

variable {base start fuel : Nat} {s : Prog} {E : Stop → Prop}

theorem initBase_wp (hloaded : Loaded base start) (hready : Ready base start s) (grants : List Bool) :
    wp (initBase base) { s.heap with grants := grants }
      (fun _ h => ∃ L, Inv base start h L (s.live.map Region.block)) E := by
  have hbelow := hloaded.below
  unfold initBase
  apply wp_get_bind
  rcases hready with ⟨hfreep, hlive, hbrk⟩ | ⟨L, hinv⟩
  · have htop : start ≤ 2 ^ 27 := hloaded.top
    have hbase : base < s.heap.brk := by omega
    rw [if_pos hfreep]
    apply wp_bind
    refine store_wp hbase ?_
    apply wp_modify
    refine ⟨[], hbelow, Nat.le_of_eq hbrk.symm, hbrk ▸ htop, ?_, ?_, ?_, ?_, List.mem_cons_self⟩
    · rw [hlive]
      exact ⟨List.Pairwise.nil, List.Pairwise.nil, fun b hb => absurd hb List.not_mem_nil⟩
    · refine ⟨?_, trivial⟩
      simp only [Heap.next, set_mem_self]
    · rw [hlive]
      exact fun b hb => absurd hb List.not_mem_nil
    · simp only [set_mem_self]
  · have hne : s.heap.freep ≠ 0 := by
      have hpos := hloaded.pos
      rcases List.mem_cons.mp hinv.freep with heq | hmem
      · omega
      · have hfirst := (List.pairwise_cons.mp (hinv.layout.sorted hinv.below)).1 _ hmem
        omega
    rw [if_neg hne]
    exact wp_pure ⟨L, hinv.congr (fun _ _ => rfl) rfl rfl⟩

-- The bytes that `malloc` asks `sbrk` for are an `int`.
def Small : Event → Prop
  | .malloc n _ => nunits n.toNat * 16 < 2 ^ 31
  | .free _ | .write _ _ => True

theorem malloc_wp (hloaded : Loaded base start) (hready : Ready base start s) (grants : List Bool)
    {n : Nat} (hsmall : nunits n * 16 < 2 ^ 31) (hfuel : 2 ^ 25 ≤ fuel) :
    wp (malloc base fuel n) { s.heap with grants := grants }
      (Taken base start (nunits n) (s.live.map Region.block)) E := by
  have hless : request (nunits n) * 16 < 2 ^ 31 := by
    unfold request
    split
    · omega
    · exact hsmall
  unfold malloc
  refine wp_call (initBase_wp hloaded hready grants) ?_
  rintro _ h ⟨L, hinv⟩
  apply wp_get_bind
  apply wp_bind
  apply load_wp (hinv.layout.node_lt hinv.below hinv.start_le hinv.freep)
  exact mallocLoop_wp hloaded.pos hinv (Nat.succ_pos _) hless hfuel

theorem Inv.write {h : Heap} {L : List Block} {live : List Region}
    (hinv : Inv base start h L (live.map Region.block)) {a : Nat} (x : Header)
    (ha : ∃ v ∈ live, v.ptr ≤ a ∧ a < v.ptr + v.n ∧ 16 ∣ a - v.ptr) :
    Inv base start (h.set a x) L (live.map Region.block) := by
  obtain ⟨v, hv, hlow, hhigh, _⟩ := ha
  have hvmem : v.block ∈ live.map Region.block := List.mem_map_of_mem hv
  obtain ⟨hstart, _, hstop⟩ := hinv.layout.inside v.block (List.mem_append_right L hvmem)
  have hbelow := hinv.below
  have hunits : v.n ≤ 16 * (nunits v.n - 1) ∧ 0 < nunits v.n := by
    unfold nunits
    omega
  simp only [Region.block, Block.stop] at hstart hstop
  refine hinv.congr ?_ rfl rfl
  rintro c (rfl | ⟨b, hb, rfl⟩)
  · exact set_mem_of_ne h x (by omega)
  · apply set_mem_of_ne h x
    by_cases hsame : b = v.block
    · rw [hsame]
      show v.ptr - 16 ≠ a
      omega
    · have hapart : Apart b v.block :=
        hinv.layout.apart.forall hb (List.mem_append_right L hvmem) hsame
      have hbpos := (hinv.layout.inside b hb).2.1
      simp only [Apart, Block.stop, Region.block] at hapart
      omega

theorem Ready.malloc (hloaded : Loaded base start) (hready : Ready base start s)
    (hfuel : 2 ^ 25 ≤ fuel) {n : BitVec 32} {grants : List Bool} (hsmall : Small (.malloc n grants)) :
    ∃ s', s.step base fuel (.malloc n grants) = .ok s' ∧ Ready base start s' := by
  obtain ⟨p, h, hrun, htaken⟩ :=
    (malloc_wp (E := fun _ => False) hloaded hready grants hsmall hfuel).returns
  refine ⟨⟨h, if p = 0 then s.live else ⟨p, n.toNat⟩ :: s.live⟩, ?_, .inr ?_⟩
  · simp only [Prog.step, hrun]
    rfl
  · rcases htaken with ⟨rfl, L, hinv⟩ | ⟨L, addr, rfl, hinv⟩
    · exact ⟨L, hinv⟩
    · exact ⟨L, hinv⟩

theorem Ready.free (hready : Ready base start s) (hfuel : 2 ^ 25 ≤ fuel) {ptr : Nat}
    (hproper : Proper s (.free ptr)) :
    ∃ s', s.step base fuel (.free ptr) = .ok s' ∧ Ready base start s' := by
  obtain ⟨v, hv, hptr⟩ := hproper
  rcases hready with ⟨_, hlive, _⟩ | ⟨L, hinv⟩
  · rw [hlive] at hv
    cases hv
  · obtain ⟨w, l₁, l₂, _, hw, hsplit, herase⟩ :=
      List.exists_of_eraseP (p := fun v : Region => decide (v.ptr = ptr)) hv (decide_eq_true hptr)
    have hwptr : w.ptr = ptr := of_decide_eq_true hw
    have hperm : (s.live.map Region.block).Perm (w.block :: (l₁ ++ l₂).map Region.block) := by
      rw [hsplit, ← List.map_cons]
      exact List.perm_middle.map Region.block
    have hinv' : Inv base start s.heap L (w.block :: (l₁ ++ l₂).map Region.block) :=
      ⟨hinv.below, hinv.start_le, hinv.top, hinv.layout.perm hperm, hinv.loop,
        fun b hb => hinv.sizes b ((hperm.append_left L).mem_iff.mpr hb), hinv.base_size, hinv.freep⟩
    have haddr : ptr = w.block.addr + 16 := by
      have hstart := (hinv'.layout.inside w.block (List.mem_append_right L List.mem_cons_self)).1
      have hbelow := hinv.below
      simp only [Region.block] at hstart ⊢
      omega
    have hlen := hinv.length_le
    obtain ⟨_, h, hrun, L', hinv'', _⟩ :=
      (free_wp (E := fun _ => False) hinv' (show 2 * L.length + 2 ≤ fuel by omega)).returns
    rw [← haddr] at hrun
    refine ⟨⟨h, s.live.eraseP fun v => v.ptr = ptr⟩, ?_, .inr ⟨L', ?_⟩⟩
    · simp only [Prog.step, hrun]
      rfl
    · simp only
      rw [herase]
      exact hinv''

theorem Ready.step (hloaded : Loaded base start) (hready : Ready base start s)
    (hfuel : 2 ^ 25 ≤ fuel) {e : Event} (hproper : Proper s e) (hsmall : Small e) :
    ∃ s', s.step base fuel e = .ok s' ∧ Ready base start s' := by
  cases e with
  | malloc n grants => exact hready.malloc hloaded hfuel hsmall
  | free ptr => exact hready.free hfuel hproper
  | write a x =>
    refine ⟨_, rfl, ?_⟩
    rcases hready with ⟨_, hlive, _⟩ | ⟨L, hinv⟩
    · obtain ⟨v, hv, _⟩ := hproper
      rw [hlive] at hv
      cases hv
    · exact .inr ⟨L, hinv.write x hproper⟩

theorem Ready.sound (hready : Ready base start s) : Sound base start s := by
  rcases hready with ⟨hfreep, hlive, _⟩ | ⟨L, hinv⟩
  · refine ⟨?_, ?_, ?_⟩
    · rw [hlive]
      exact fun v hv => absurd hv List.not_mem_nil
    · rw [hlive]
      exact List.Pairwise.nil
    · rw [hlive]
      exact fun v hv => absurd hv List.not_mem_nil
  · have hbelow := hinv.below
    have hunits : ∀ n, n + 16 ≤ 16 * nunits n := by
      intro n
      unfold nunits
      omega
    have hblock : ∀ v ∈ s.live, start ≤ v.ptr - 16 ∧ v.ptr - 16 + 16 * nunits v.n ≤ s.heap.brk := by
      intro v hv
      have hin := hinv.layout.inside v.block (List.mem_append_right L (List.mem_map_of_mem hv))
      exact ⟨hin.1, hin.2.2⟩
    refine ⟨?_, ?_, ?_⟩
    · intro v hv
      have hin := hblock v hv
      have hn := hunits v.n
      omega
    · have hpairs : (s.live.map Region.block).Pairwise Apart :=
        (List.pairwise_append.mp hinv.layout.apart).2.1
      apply (List.pairwise_map.mp hpairs).imp_of_mem
      intro v w hv hw hapart
      have hinv := hblock v hv
      have hinw := hblock w hw
      have hnv := hunits v.n
      have hnw := hunits w.n
      simp only [Apart, Block.stop, Region.block] at hapart
      omega
    · intro v hv a honlist
      obtain ⟨_, hne, k, hk⟩ := honlist
      have hmem : a ∈ base :: addrs L := by
        rw [hk]
        exact hinv.loop.iterate_mem k
      rcases List.mem_cons.mp hmem with heq | hmem
      · exact absurd heq hne
      · obtain ⟨b, hb, rfl⟩ := List.mem_map.mp hmem
        have hapart : Apart b v.block := (List.pairwise_append.mp hinv.layout.apart).2.2 b hb _
          (List.mem_map_of_mem hv)
        have hsize := hinv.sizes b (List.mem_append_left _ hb)
        have hin := hblock v hv
        have hn := hunits v.n
        simp only [Apart, Block.stop, Region.block] at hapart
        omega

end Calls

-- In every run that frees and writes only what is live, as long as the program
-- asks for less than 2^31 bytes at a time.
theorem malloc_regions_disjoint (base start fuel : Nat) (mem : Nat → Header) (events : List Event)
    (hloaded : Loaded base start) (hfuel : 2 ^ 25 ≤ fuel)
    (hevents : Meets (Prog.step base fuel) (fun s e => Proper s e ∧ Small e) (boot mem start) events) :
    ∃ s, tryRun (Prog.step base fuel) (boot mem start) events = .ok s ∧ Sound base start s := by
  have hboot : Ready base start (boot mem start) := .inl ⟨rfl, rfl, rfl⟩
  have hkeeps := tryRun_keeps (I := Ready base start) (E := fun _ => False)
    (fun s e s' hready hmeets hstep => by
      obtain ⟨s₁, hstep₁, hready₁⟩ := hready.step hloaded hfuel hmeets.1 hmeets.2
      rw [hstep] at hstep₁
      obtain rfl := Except.ok.inj hstep₁
      exact hready₁)
    (fun s e f hready hmeets hstep => by
      obtain ⟨s₁, hstep₁, _⟩ := hready.step hloaded hfuel hmeets.1 hmeets.2
      rw [hstep] at hstep₁
      cases hstep₁) hboot hevents
  cases hrun : tryRun (Prog.step base fuel) (boot mem start) events with
  | ok s => exact ⟨s, rfl, (hkeeps.1 s hrun).sound⟩
  | error f => exact (hkeeps.2 f hrun).elim

def summary : Except Stop Prog → Option (List Region × Nat)
  | .ok s => some (s.live, s.heap.brk)
  | .error _ => none

theorem ok_of_summary {result : Except Stop Prog} {live : List Region} {brk : Nat}
    (h : summary result = some (live, brk)) :
    ∃ s, result = .ok s ∧ s.live = live ∧ s.heap.brk = brk := by
  cases result with
  | ok s =>
    have hpair := Option.some.inj h
    exact ⟨s, rfl, congrArg Prod.fst hpair, congrArg Prod.snd hpair⟩
  | error f => cases h

def emptyMemory : Nat → Header := fun _ => ⟨0, 0⟩

theorem loaded_small : Loaded 0x1000 0x5000 := ⟨by decide, by decide, by decide⟩

def twoCalls : List Event := [.malloc 100 [true], .malloc 70000 [true]]

theorem malloc_regions_disjoint_two :
    ∃ s, tryRun (Prog.step 0x1000 (2 ^ 25)) (boot emptyMemory 0x5000) twoCalls = .ok s ∧
      s.live = [⟨86032, 70000⟩, ⟨85904, 100⟩] ∧ Sound 0x1000 0x5000 s := by
  have hmeets : Meets (Prog.step 0x1000 (2 ^ 25)) (fun s e => Proper s e ∧ Small e)
      (boot emptyMemory 0x5000) twoCalls :=
    ⟨⟨trivial, show nunits 100 * 16 < 2 ^ 31 by decide⟩, fun _ _ =>
      ⟨⟨trivial, show nunits 70000 * 16 < 2 ^ 31 by decide⟩, fun _ _ => trivial⟩⟩
  obtain ⟨s, hrun, hsound⟩ := malloc_regions_disjoint 0x1000 0x5000 (2 ^ 25) emptyMemory twoCalls
    loaded_small (Nat.le_refl _) hmeets
  obtain ⟨s', hrun', hlive, _⟩ := ok_of_summary (show summary (tryRun (Prog.step 0x1000 (2 ^ 25))
    (boot emptyMemory 0x5000) twoCalls) = some ([⟨86032, 70000⟩, ⟨85904, 100⟩], 156032)
    by decide +kernel)
  obtain rfl := Except.ok.inj (hrun.symm.trans hrun')
  exact ⟨s, hrun, hlive, hsound⟩

-- `morecore` wants 0x100000010 bytes, but the argument of `sbrk` is an `int`: the heap
-- grows by 16, and `free` gets a header that promises the rest.
theorem malloc_max_outside :
    Loaded 0x1000 0x5000 ∧
      Meets (Prog.step 0x1000 (2 ^ 25)) Proper (boot emptyMemory 0x5000) [.malloc 0xffffffff [true]] ∧
      ∃ s, tryRun (Prog.step 0x1000 (2 ^ 25)) (boot emptyMemory 0x5000)
          [.malloc 0xffffffff [true]] = .ok s ∧
        s.live = [⟨0x5010, 0xffffffff⟩] ∧ s.heap.brk = 0x5010 ∧ ¬Sound 0x1000 0x5000 s := by
  refine ⟨loaded_small, ⟨trivial, fun _ _ => trivial⟩, ?_⟩
  obtain ⟨s, hrun, hlive, hbrk⟩ := ok_of_summary (show summary (tryRun (Prog.step 0x1000 (2 ^ 25))
    (boot emptyMemory 0x5000) [.malloc 0xffffffff [true]]) =
      some ([⟨0x5010, 0xffffffff⟩], 0x5010) by decide +kernel)
  refine ⟨s, hrun, hlive, hbrk, ?_⟩
  intro hsound
  have hinside := (hsound.inside ⟨0x5010, 0xffffffff⟩ (by rw [hlive]; exact List.mem_cons_self)).2
  simp only [hbrk] at hinside
  omega

end Xv6Ringbuf.Umalloc
