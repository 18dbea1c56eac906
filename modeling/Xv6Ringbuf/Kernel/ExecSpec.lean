import Xv6Ringbuf.Kernel.ExecStack

namespace Xv6Ringbuf.Kernel

open Machine Function

variable {e e' : Exec}

theorem wp_inKernel {α : Type} {x : K α} {Q : α → Exec → Prop} {E : Panic → Prop}
    (h : wp x e.kernel (fun value s => Q value { e with kernel := s }) E) : wp (inKernel x) e Q E := by
  unfold wp at h ⊢
  cases hx : x.run e.kernel with
  | error panic =>
    have hrun : (inKernel x).run e = .error panic := by
      unfold StateT.run at hx ⊢
      unfold inKernel StateT.run
      rw [hx]
    rw [hx] at h
    rw [hrun]
    exact h
  | ok result =>
    have hrun : (inKernel x).run e = .ok (result.1, { e with kernel := result.2 }) := by
      unfold StateT.run at hx ⊢
      unfold inKernel StateT.run
      rw [hx]
    rw [hx] at h
    rw [hrun]
    exact h

structure Put (e e' : Exec) : Prop where
  caller : e'.caller = e.caller
  outstanding : e'.outstanding = e.outstanding
  ref : e'.ref = e.ref
  locked : e'.locked = false

theorem Put.kernel (h : Put e e') (s : State) : Put e { e' with kernel := s } :=
  ⟨h.caller, h.outstanding, h.ref, h.locked⟩

structure Bracketed (e e' : Exec) : Prop where
  caller : e'.caller = e.caller
  outstanding : e'.outstanding = e.outstanding + 1
  ref : e'.ref = e.ref + 1

theorem Bracketed.kernel (h : Bracketed e e') (s : State) : Bracketed e { e' with kernel := s } :=
  ⟨h.caller, h.outstanding, h.ref⟩

structure Unwound [Image] (e e' : Exec) : Prop where
  put : Put e e'
  returned : Returned e.kernel e'.kernel

-- The program has been started: its arguments are on the stack, which ends at `sz`.
-- They are still there if the old pages, which are free now, were the caller's own.
structure Started (e e' : Exec) (argv : List (List UInt8)) : Prop where
  fits : argsRoom argv ≤ 4096
  size : e'.caller.sz.toNat % 4096 = 0 ∧ 8192 ≤ e'.caller.sz.toNat
  sp : e'.caller.sp.toNat + argsRoom argv = e'.caller.sz.toNat
  a1 : e'.caller.a1 = e'.caller.sp
  access : Accessible e'.caller.pagetable (e'.caller.sz.toNat - 4096) 4096
  args : (∀ pa ∈ e.caller.pagetable.pages, pa ∉ e.kernel.freelist) →
    ArgsAt e'.caller.pagetable e'.kernel.mem e'.caller.sz.toNat e'.caller.sp.toNat argv

section Commit

variable [Image] {s₀ : State} {e : Exec} {trampoline trapframe : UInt64} {n : Nat}

theorem freeOld_wp {s : State} {old : Pagetable} {sz : UInt64}
    (h : Building s₀ trampoline trapframe s n) (hlayout : Layout old sz fun _ => False) :
    wp (freeOld old sz) s
      (fun _ s' => (∀ pa ∈ old.pages, pa ∉ s₀.freelist) →
        ∀ m < n, ∀ pte, s.pagetable.leaf m = some pte → SamePage s s' pte.pa) fun _ => False := by
  obtain ⟨code, hcode, _⟩ := hlayout.top (2 ^ 26 - 1) (by decide) (by decide)
  obtain ⟨frame, hframe, _⟩ := hlayout.top (2 ^ 26 - 2) (by decide) (by decide)
  let s₁ : State := { s with pagetable := old }
  have hvalid : ∀ pa, pa ∉ old.pages ∧ Held s.pagetable n pa → ValidPage pa := by
    rintro pa ⟨_, m, hm, pte, hpte, rfl⟩
    exact (h.heap.page m hm pte hpte).1
  have hkeep : ∀ w, s₁.balance = w + {code.pa} + {frame.pa} →
      ∀ pa ∈ w, ¬(pa ∉ old.pages ∧ Held s.pagetable n pa) := by
    rintro w hw pa hpa ⟨hother, m, hm, pte, hpte, rfl⟩
    have hmem : pte.pa ∈ s₁.balance := by
      rw [hw]
      exact Multiset.mem_add.mpr (.inl (Multiset.mem_add.mpr (.inl hpa)))
    rcases Multiset.mem_add.mp hmem with hfree | hused
    · exact (h.heap.page m hm pte hpte).2.2 (Multiset.mem_coe.mp hfree)
    · exact hother hused
  have hrelease : wp (procFreepagetable sz) s₁ (fun _ s' => s₁.balance =
      s'.freelist + {code.pa} + {frame.pa} ∧ Undisturbed (fun pa => pa ∉ old.pages ∧
        Held s.pagetable n pa) s.mem s') fun _ => False :=
    procFreepagetable_release h.heap.free hlayout hcode hframe hvalid hkeep fun _ _ _ _ => rfl
  unfold freeOld
  apply wp_get_bind
  apply wp_modify_bind
  refine wp_call hrelease ?_
  rintro _ s' ⟨_, hbytes⟩
  apply wp_modify
  intro hown m hm pte hpte
  apply hbytes
  refine ⟨fun hold => h.aside.off m hm pte hpte ⟨(h.heap.page m hm pte hpte).1, hown _ hold⟩,
    m, hm, pte, hpte, rfl⟩

theorem commit_wp (path : List UInt8) (entry sz sp : UInt64)
    (h : Building s₀ trampoline trapframe e.kernel n)
    (hlayout : Layout e.caller.pagetable e.caller.sz fun _ => False) :
    wp (commit path entry sz sp) e
      (fun _ e' => e'.caller = ⟨e.kernel.pagetable, sz, e.caller.trapframe, entry, sp, sp,
          (lastName path path).take 15⟩ ∧
        ((∀ pa ∈ e.caller.pagetable.pages, pa ∉ s₀.freelist) → ∀ m < n, ∀ pte,
          e.kernel.pagetable.leaf m = some pte → SamePage e.kernel e'.kernel pte.pa))
      fun _ => False := by
  unfold commit
  apply wp_get_bind
  apply wp_modify_bind
  apply wp_inKernel
  apply (freeOld_wp h hlayout).mono _ fun _ h => h
  intro _ s' hbytes
  exact ⟨rfl, hbytes⟩

end Commit

section Stack

variable [Image] {e₀ e : Exec} {trampoline trapframe : UInt64} {n : Nat}

variable {sz : UInt64} {argv : List (List UInt8)}

theorem execBad_put (hput : Put e₀ e)
    (h : Building e₀.kernel trampoline trapframe e.kernel (pagesOf sz)) :
    wp (execBad (some sz) false) e (fun r e' => r = -1 ∧ Unwound e₀ e') fun _ => False := by
  unfold execBad
  apply wp_bind
  apply wp_inKernel
  apply h.release.mono _ fun _ h => h
  intro _ s' hreturned
  exact ⟨rfl, hput.kernel s', hreturned⟩

theorem execStack_tail (path : List UInt8) (entry : UInt64) (hput : Put e₀ e)
    (hlayout : Layout e₀.caller.pagetable e₀.caller.sz fun _ => False)
    (h : Building e₀.kernel trampoline trapframe e.kernel (n + 2)) (hsz : sz.toNat = 4096 * (n + 2))
    (hstack : ∀ m, n ≤ m → m < n + 2 → ∃ pte, e.kernel.pagetable.leaf m = some pte ∧
      pte.perm.r = true ∧ pte.perm.u = true) (hcount : argv.length ≤ MAXARG)
    (hsmall : ∀ arg ∈ argv, arg.length < 2 ^ 31 - 1) :
    wp (do
      inKernel (uvmclear (sz - 2 * PGSIZE))
      match ← inKernel (pushArgs sz argv) with
      | none => execBad (some sz) false
      | some sp => do
          commit path entry sz sp
          return Int32.ofNat argv.length) e
      (fun r e' => r = -1 ∧ Unwound e₀ e' ∧ 4096 < argsRoom argv ∨
        r = Int32.ofNat argv.length ∧ Started e₀ e' argv) fun _ => False := by
  have hguard : vpn (sz - 2 * PGSIZE) = n := by
    unfold vpn
    rw [UInt64.toNat_sub, show (2 * PGSIZE : UInt64).toNat = 8192 by rfl]
    have hlt := sz.toNat_lt
    omega
  obtain ⟨pte, hpte, hr, _⟩ := hstack n (Nat.le_refl n) (by omega)
  obtain ⟨page, hpage, _, hu⟩ := hstack (n + 1) (by omega) (by omega)
  apply wp_bind
  apply wp_inKernel
  apply (uvmclear_building h (by omega) (hguard ▸ hpte) hr).mono _ fun _ h => h
  rintro _ s₁ ⟨h₁, hleaf⟩
  have huser : s₁.pagetable.user (n + 1) = some page.pa := by
    unfold Pagetable.user
    rw [hleaf, hguard, update_of_ne (by omega), hpage]
    exact if_pos hu
  have hstackPage : StackPage s₁ (n + 1) := ⟨h₁.userPages, by simp [huser]⟩
  apply wp_bind
  apply wp_inKernel
  apply (pushArgs_wp hstackPage (Nat.succ_pos n) hsz hcount hsmall).mono _ fun _ h => h
  rintro r s₂ ⟨hwithin, hsame, hcases⟩
  have h₂ : Building e₀.kernel trampoline trapframe s₂ (n + 2) := by
    rw [hsame]
    exact h₁.within (by omega) hstackPage.user (hsz ▸ hwithin)
  have htable : s₂.pagetable = s₁.pagetable := by rw [hsame]
  rcases hcases with ⟨rfl, hshort⟩ | ⟨sp, rfl, hsp, hfits, hargs⟩
  · have hbuilding : Building e₀.kernel trampoline trapframe s₂ (pagesOf sz) := by
      rw [pagesOf_eq hsz]
      exact h₂
    apply (execBad_put (hput.kernel s₂) hbuilding).mono _ fun _ h => h
    rintro r e' ⟨rfl, hunwound⟩
    exact .inl ⟨rfl, hunwound, hshort⟩
  · apply wp_bind
    have hcommit : wp (commit path entry sz sp) { e with kernel := s₂ } _ fun _ => False :=
      commit_wp path entry sz sp h₂ (hput.caller.symm ▸ hlayout)
    apply hcommit.mono _ fun _ h => h
    rintro _ e' ⟨hcaller, hbytes⟩
    refine .inr ⟨rfl, ?_⟩
    have hsize : e'.caller.sz = sz := by rw [hcaller]
    have hpointer : e'.caller.sp = sp := by rw [hcaller]
    have hnew : e'.caller.pagetable = s₁.pagetable := by rw [hcaller, ← htable]
    refine ⟨hfits, ?_, ?_, ?_, ?_, ?_⟩
    · rw [hsize]
      omega
    · rw [hsize, hpointer, hsp]
    · rw [hcaller]
    · rw [hsize, hnew]
      intro i hi
      rw [show (sz.toNat - 4096 + i) / 4096 = n + 1 by omega, huser]
      simp
    · intro hown
      rw [hsize, hpointer, hnew]
      apply hargs.congr hsp
      intro a ha ha'
      have hleaf' : s₂.pagetable.leaf (n + 1) = some page := by
        rw [htable, hleaf, hguard, update_of_ne (by omega), hpage]
      apply hbytes (hput.caller.symm ▸ hown) (n + 1) (by omega) page hleaf'
      apply byteAddr_sub_lt
      rw [show a / 4096 = n + 1 by omega, huser]

theorem execStack_wp (path : List UInt8) (entry : UInt64) (hput : Put e₀ e)
    (hlayout : Layout e₀.caller.pagetable e₀.caller.sz fun _ => False)
    (h : Building e₀.kernel trampoline trapframe e.kernel n) (hsz : sz.toNat = 4096 * n)
    (hcount : argv.length ≤ MAXARG) (hsmall : ∀ arg ∈ argv, arg.length < 2 ^ 31 - 1) :
    wp (execStack path argv entry sz) e
      (fun r e' => r = -1 ∧ Unwound e₀ e' ∧
          ((∃ s', (uvmalloc sz (sz + 2 * PGSIZE) ⟨false, true, false, false⟩).run e.kernel =
            .ok (sz + 2 * PGSIZE, s')) → 4096 < argsRoom argv) ∨
        r = Int32.ofNat argv.length ∧ Started e₀ e' argv) fun _ => False := by
  have hbound := h.bound
  have hgrown : (sz + 2 * PGSIZE).toNat = 4096 * (n + 2) := by
    rw [UInt64.toNat_add, show (2 * PGSIZE : UInt64).toNat = 8192 by rfl]
    omega
  have hpages : pagesOf sz = n := pagesOf_eq hsz
  have hpages' : pagesOf (sz + 2 * PGSIZE) = n + 2 := pagesOf_eq hgrown
  have hle : sz ≤ sz + 2 * PGSIZE := by
    rw [UInt64.le_iff_toNat_le]
    omega
  have hne : sz + 2 * PGSIZE ≠ 0 := by
    intro hzero
    rw [hzero] at hgrown
    exact absurd hgrown (by simp)
  have halloc := (uvmalloc_building ⟨false, true, false, false⟩ (hpages.symm ▸ h) hle).run
  rw [hpages, hpages'] at halloc
  unfold execStack
  generalize sz + 2 * PGSIZE = sz1 at hgrown hne halloc ⊢
  apply wp_bind
  apply wp_inKernel
  apply halloc.mono _ fun _ h => h
  rintro r s₁ ⟨hrun, hcases⟩
  rcases hcases with ⟨hr, h₁, hresized⟩ | ⟨hr, h₁, _⟩
  · rw [hr, if_neg hne]
    have hstack : ∀ m, n ≤ m → m < n + 2 → ∃ pte, s₁.pagetable.leaf m = some pte ∧
        pte.perm.r = true ∧ pte.perm.u = true := by
      intro m hm hm'
      obtain ⟨pte, hpte, hperm, _⟩ := hresized.fresh m hm hm'
      exact ⟨pte, hpte, by rw [hperm]; rfl, by rw [hperm]; rfl⟩
    have htail := execStack_tail path entry (hput.kernel s₁) hlayout h₁ hgrown hstack hcount hsmall
    apply htail.mono _ fun _ h => h
    rintro r e' (⟨rfl, hunwound, hshort⟩ | hstarted)
    · exact .inl ⟨rfl, hunwound, fun _ => hshort⟩
    · exact .inr hstarted
  · rw [hr] at hrun
    rw [hr, if_pos rfl]
    apply (execBad_put (hput.kernel s₁) (hpages.symm ▸ h₁)).mono _ fun _ h => h
    rintro r e' ⟨rfl, hunwound⟩
    refine .inl ⟨rfl, hunwound, ?_⟩
    rintro ⟨s', hrun'⟩
    rw [hrun] at hrun'
    exact absurd (congrArg Prod.fst (Except.ok.inj hrun')).symm hne

end Stack

-- The file is a program, and there is memory for it and for its stack.
def Loads [Image] (trampoline : UInt64) (file : Option (List UInt8)) (e : Exec) : Prop :=
  ∃ content sz s₁ s₂ s₃, file = some content ∧ (readi content 0 64).length = 64 ∧
    (Elfhdr.ofBytes (readi content 0 64)).magic = ELF_MAGIC ∧
    (procPagetable trampoline e.caller.trapframe).run e.kernel = .ok (true, s₁) ∧
    (loadLoop content (Elfhdr.ofBytes (readi content 0 64)).phnum.toNat
      (Elfhdr.ofBytes (readi content 0 64)).phoff.toUInt32 0).run s₁ = .ok ((true, sz), s₂) ∧
    (uvmalloc (PGROUNDUP sz) (PGROUNDUP sz + 2 * PGSIZE) ⟨false, true, false, false⟩).run s₂ =
      .ok (PGROUNDUP sz + 2 * PGSIZE, s₃)

section Exec

variable [Image] {e : Exec}

theorem execBad_none {e' : Exec} (hopen : Bracketed e e') (h : Returned e.kernel e'.kernel) :
    wp (execBad none true) e' (fun r e'' => r = -1 ∧ Unwound e e'') fun _ => False := by
  refine ⟨rfl, ⟨hopen.caller, ?_, ?_, rfl⟩, h⟩
  · show e'.outstanding - 1 = _
    rw [hopen.outstanding, Nat.add_sub_cancel]
  · show e'.ref - 1 = _
    rw [hopen.ref, Nat.add_sub_cancel]

theorem execBad_some {e' : Exec} {sz trampoline trapframe : UInt64} (hopen : Bracketed e e')
    (h : Building e.kernel trampoline trapframe e'.kernel (pagesOf sz)) :
    wp (execBad (some sz) true) e' (fun r e'' => r = -1 ∧ Unwound e e'') fun _ => False := by
  unfold execBad
  apply wp_bind
  apply wp_inKernel
  apply h.release.mono _ fun _ h => h
  intro _ s hreturned
  exact execBad_none (hopen.kernel s) hreturned

theorem exec_wp (trampoline : UInt64) (path : List UInt8) (file : Option (List UInt8))
    {argv : List (List UInt8)} (hfree : ∀ pa ∈ e.kernel.freelist, ValidPage pa)
    (hnodup : e.kernel.freelist.Nodup) (hlayout : Layout e.caller.pagetable e.caller.sz fun _ => False)
    (hlocked : e.locked = false) (hcount : argv.length ≤ MAXARG)
    (hsmall : ∀ arg ∈ argv, arg.length < 2 ^ 31 - 1) :
    wp (exec trampoline path file argv) e
      (fun r e' => r = -1 ∧ Unwound e e' ∧ (Loads trampoline file e → 4096 < argsRoom argv) ∨
        r = Int32.ofNat argv.length ∧ Started e e' argv) fun _ => False := by
  unfold exec
  apply wp_modify_bind
  cases file with
  | none =>
    apply wp_modify_bind
    refine .inl ⟨rfl, ⟨⟨rfl, rfl, rfl, hlocked⟩, rfl, fun _ _ _ _ => rfl⟩, ?_⟩
    rintro ⟨content, _, _, _, _, hfile, _⟩
    cases hfile
  | some content =>
    apply wp_modify_bind
    have hopen : Bracketed e ⟨e.kernel, e.caller, e.outstanding + 1, e.ref + 1, true⟩ :=
      ⟨rfl, rfl, rfl⟩
    -- Until the page table is there.
    have hbad : ∀ s, Returned e.kernel s → ¬Loads trampoline (some content) e →
        wp (execBad none true) ⟨s, e.caller, e.outstanding + 1, e.ref + 1, true⟩ (fun r e' =>
          r = -1 ∧ Unwound e e' ∧ (Loads trampoline (some content) e → 4096 < argsRoom argv) ∨
          r = Int32.ofNat argv.length ∧ Started e e' argv) fun _ => False := by
      intro s hreturned hloads
      apply (execBad_none (hopen.kernel s) hreturned).mono _ fun _ h => h
      rintro r e' ⟨rfl, hunwound⟩
      exact .inl ⟨rfl, hunwound, fun h => absurd h hloads⟩
    simp only
    split
    · rename_i hlen
      apply hbad e.kernel ⟨rfl, fun _ _ _ _ => rfl⟩
      rintro ⟨content', _, _, _, _, hfile, hlen', _⟩
      cases hfile
      exact hlen hlen'
    split
    · rename_i hmagic
      apply hbad e.kernel ⟨rfl, fun _ _ _ _ => rfl⟩
      rintro ⟨content', _, _, _, _, hfile, _, hmagic', _⟩
      cases hfile
      exact hmagic hmagic'
    apply wp_get_bind
    apply wp_bind
    apply wp_inKernel
    apply (procPagetable_building hfree hnodup).run.mono _ fun _ h => h
    rintro r s₁ ⟨hrun₁, ⟨rfl, hreturned⟩ | ⟨rfl, h₁⟩⟩
    · apply hbad s₁ hreturned
      rintro ⟨content', _, _, _, _, hfile, _, _, hrun', _⟩
      rw [hrun₁] at hrun'
      exact absurd (Prod.mk.inj (Except.ok.inj hrun')).1 (by decide)
    · rw [if_pos rfl]
      have hempty : AllUser s₁ (pagesOf 0) := fun m hm => absurd hm (Nat.not_lt_zero m)
      have hload := (loadLoop_building content
        (Elfhdr.ofBytes (readi content 0 64)).phnum.toNat
        (Elfhdr.ofBytes (readi content 0 64)).phoff.toUInt32 h₁ hempty).run
      apply wp_bind
      apply wp_inKernel
      apply hload.mono _ fun _ h => h
      rintro ⟨done, sz⟩ s₂ ⟨hrun₂, h₂, _⟩
      cases done with
      | false =>
        apply (execBad_some ((hopen.kernel s₁).kernel s₂) h₂).mono _ fun _ h => h
        rintro r e' ⟨rfl, hunwound⟩
        refine .inl ⟨rfl, hunwound, ?_⟩
        rintro ⟨content', _, _, _, _, hfile, _, _, hrun₁', hrun₂', _⟩
        cases hfile
        rw [hrun₁] at hrun₁'
        rw [← (Prod.mk.inj (Except.ok.inj hrun₁')).2, hrun₂] at hrun₂'
        exact absurd (Prod.mk.inj (Prod.mk.inj (Except.ok.inj hrun₂')).1).1 (by decide)
      | true =>
        have hbound : pagesOf sz ≤ 2 ^ 15 := h₂.bound
        have hround : (PGROUNDUP sz).toNat = 4096 * pagesOf sz := toNat_PGROUNDUP (by omega)
        apply wp_modify_bind
        apply wp_modify_bind
        have hput : Put e ⟨s₂, e.caller, e.outstanding, e.ref, false⟩ :=
          ⟨rfl, rfl, rfl, rfl⟩
        apply (execStack_wp path _ hput hlayout h₂ hround hcount hsmall).mono _ fun _ h => h
        rintro r e' (⟨rfl, hunwound, hshort⟩ | hstarted)
        · refine .inl ⟨rfl, hunwound, ?_⟩
          rintro ⟨content', sz', _, _, s₃, hfile, _, _, hrun₁', hrun₂', hrun₃⟩
          cases hfile
          rw [hrun₁] at hrun₁'
          rw [← (Prod.mk.inj (Except.ok.inj hrun₁')).2, hrun₂] at hrun₂'
          obtain ⟨hsz, hs⟩ := Prod.mk.inj (Except.ok.inj hrun₂')
          rw [← hs, ← (Prod.mk.inj hsz).2] at hrun₃
          exact hshort ⟨s₃, hrun₃⟩
        · exact .inr hstarted

end Exec

end Xv6Ringbuf.Kernel
