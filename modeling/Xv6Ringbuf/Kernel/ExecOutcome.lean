import Xv6Ringbuf.Kernel.ExecSpec
import Xv6Ringbuf.Kernel.Teardown

namespace Xv6Ringbuf.Kernel

open Machine

theorem argc_ne {count : Nat} (h : count < MAXARG) : Int32.ofNat count ≠ -1 := by
  intro heq
  have hlt : count < 32 := h
  have hint := congrArg Int32.toInt heq
  rw [Int32.toInt_ofNat_of_lt (by omega)] at hint
  exact absurd hint (by simp)

-- Whatever the file holds, `exec` returns and does not panic. Where it returns -1, after
-- `bad:` or because `namei` found nothing, all that it had taken is given back.
theorem exec_all_or_nothing [Image] (trampoline : UInt64) (path : List UInt8)
    (file : Option (List UInt8)) {argv : List (List UInt8)} {e : Exec}
    (hfree : ∀ pa ∈ e.kernel.freelist, ValidPage pa) (hnodup : e.kernel.freelist.Nodup)
    (hlayout : Layout e.caller.pagetable e.caller.sz fun _ => False) (hlocked : e.locked = false)
    (hcount : argv.length < MAXARG) (hsmall : ∀ arg ∈ argv, arg.length < 2 ^ 31 - 1) :
    ∃ r e', (exec trampoline path file argv).run e = .ok (r, e') ∧ (r = -1 → Unwound e e') := by
  have hexec := exec_wp trampoline path file hfree hnodup hlayout hlocked (Nat.le_of_lt hcount) hsmall
  obtain ⟨r, e', hrun, hcases⟩ := hexec.returns
  refine ⟨r, e', hrun, fun hr => ?_⟩
  rcases hcases with ⟨_, hunwound, _⟩ | ⟨hargc, _⟩
  · exact hunwound
  · exact absurd (hargc.symm.trans hr) (argc_ne hcount)

def execState (free : Nat) : Exec :=
  ⟨⟨(smallSys free).freelist, fun _ => 0, smallTable 0x87fe0000, fun _ => newRing [], [], none⟩,
    ⟨smallTable 0x87fe0000, 4096, 0x87fe6000, 0, 0, 0, []⟩, 0, 0, false⟩

def emptyProgram : List UInt8 := [0x7f, 0x45, 0x4c, 0x46] ++ List.replicate 60 0

theorem execState_layout (free : Nat) : @Layout smallImage (execState free).caller.pagetable
    (execState free).caller.sz fun _ => False :=
  @smallTable_layout _ smallImage (@smallPages_valid _ smallImage (by decide))

theorem exec_all_or_nothing_six_pages : ∃ e',
    (@exec smallImage 0x80007000 [] (some emptyProgram) [[104, 105]]).run (execState 6) =
      .ok (-1, e') ∧ @Unwound smallImage (execState 6) e' := by
  let _ := smallImage
  have hsys : Initial (smallSys 6) := smallSys_initial (by decide)
  have hsmall : ∀ arg ∈ [[104, (105 : UInt8)]], arg.length < 2 ^ 31 - 1 := by simp
  obtain ⟨r, e', hrun, hunwound⟩ := exec_all_or_nothing 0x80007000 [] (some emptyProgram)
    (e := execState 6) hsys.valid hsys.nodup (execState_layout 6) rfl (by decide) hsmall
  have hresult : ((exec 0x80007000 [] (some emptyProgram) [[104, 105]]).run
      (execState 6)).toOption.map Prod.fst = some (-1) := by decide +kernel
  rw [hrun] at hresult
  have hr : r = -1 := Option.some.inj hresult
  rw [hr] at hrun
  exact ⟨e', hrun, hunwound hr⟩

def argRanges (sp : Nat) (ptrs : List Nat) (argv : List (List UInt8)) : List (Nat × Nat) :=
  (sp, 8 * (argv.length + 1)) :: List.zipWith (fun a arg => (a, arg.length + 1)) ptrs argv

-- The arguments of the program as it finds them: `argc` pointers and a null pointer at
-- `sp`, the pointers lead to the strings, and all lie apart in the page of the stack.
structure ArgumentVector (e : Exec) (argv : List (List UInt8)) (ptrs : List Nat) : Prop where
  a1 : e.caller.a1 = e.caller.sp
  aligned : e.caller.sp.toNat % 16 = 0
  access : Accessible e.caller.pagetable (e.caller.sz.toNat - 4096) 4096
  pointers : e.caller.pagetable.getBytes e.kernel.mem e.caller.sp.toNat (8 * (argv.length + 1)) =
    (ptrs.map UInt64.ofNat ++ [0]).flatMap bytesOf
  strings : Strings e.caller.pagetable e.kernel.mem ptrs argv
  inside : ∀ range ∈ argRanges e.caller.sp.toNat ptrs argv,
    e.caller.sz.toNat - 4096 ≤ range.1 ∧ range.1 + range.2 ≤ e.caller.sz.toNat
  apart : (argRanges e.caller.sp.toNat ptrs argv).Pairwise fun x y =>
    x.1 + x.2 ≤ y.1 ∨ y.1 + y.2 ≤ x.1

section Places

variable {top : Nat} {args : List (List UInt8)}

theorem stringPlaces_range (h : stringsRoom args ≤ top) :
    ∀ range ∈ List.zipWith (fun a arg => (a, arg.length + 1)) (stringPlaces top args) args,
      top - stringsRoom args ≤ range.1 ∧ range.1 + range.2 ≤ top := by
  induction args generalizing top with
  | nil => simp [stringPlaces]
  | cons arg rest ih =>
    rw [stringsRoom_cons] at h ⊢
    have hlength := length_lt_stringRoom arg
    intro range hrange
    rw [stringPlaces, List.zipWith_cons_cons, List.mem_cons] at hrange
    rcases hrange with rfl | hrange
    · constructor
      · show _ ≤ top - stringRoom arg
        omega
      · show top - stringRoom arg + (arg.length + 1) ≤ top
        omega
    · have hfits : stringsRoom rest ≤ top - stringRoom arg := by omega
      have hrest := ih hfits range hrange
      omega

theorem stringPlaces_apart (h : stringsRoom args ≤ top) :
    (List.zipWith (fun a arg => (a, arg.length + 1)) (stringPlaces top args) args).Pairwise fun x y =>
      x.1 + x.2 ≤ y.1 ∨ y.1 + y.2 ≤ x.1 := by
  induction args generalizing top with
  | nil => exact List.Pairwise.nil
  | cons arg rest ih =>
    rw [stringsRoom_cons] at h
    rw [stringPlaces, List.zipWith_cons_cons]
    refine List.Pairwise.cons ?_ (ih (by omega))
    intro range hrange
    exact .inr (stringPlaces_range (by omega) range hrange).2

end Places

theorem Started.vector {e e' : Exec} {argv : List (List UInt8)} (h : Started e e' argv)
    (hown : ∀ pa ∈ e.caller.pagetable.pages, pa ∉ e.kernel.freelist) :
    ArgumentVector e' argv (stringPlaces e'.caller.sz.toNat argv) := by
  have hargs : argsRoom argv = stringsRoom argv + 16 * (argv.length / 2 + 1) := rfl
  have hmod := stringsRoom_mod argv
  obtain ⟨hfits, ⟨haligned, hsize⟩, hsp, ha1, haccess, hvector⟩ := h
  obtain ⟨hstrings, hpointers⟩ := hvector hown
  have hroom : stringsRoom argv ≤ e'.caller.sz.toNat := by omega
  have hrange := stringPlaces_range hroom
  refine ⟨ha1, by omega, haccess, hpointers, hstrings, ?_, ?_⟩
  · intro range hmem
    rcases List.mem_cons.mp hmem with rfl | hmem
    · constructor
      · show _ ≤ e'.caller.sp.toNat
        omega
      · show e'.caller.sp.toNat + 8 * (argv.length + 1) ≤ _
        omega
    · have hin := hrange range hmem
      omega
  · refine List.Pairwise.cons ?_ (stringPlaces_apart hroom)
    intro range hmem
    have hin := hrange range hmem
    refine .inl ?_
    show e'.caller.sp.toNat + 8 * (argv.length + 1) ≤ range.1
    omega

-- The stack is one page, so the strings and the pointers either fit it (`argsRoom`) or
-- `exec` fails. The second half is the loop alone: even a failing one stays in that page.
theorem exec_builds_argument_vector [Image] (trampoline : UInt64) (path : List UInt8)
    (file : Option (List UInt8)) {argv : List (List UInt8)} {e : Exec}
    (hfree : ∀ pa ∈ e.kernel.freelist, ValidPage pa) (hnodup : e.kernel.freelist.Nodup)
    (hlayout : Layout e.caller.pagetable e.caller.sz fun _ => False)
    (hown : ∀ pa ∈ e.caller.pagetable.pages, pa ∉ e.kernel.freelist) (hlocked : e.locked = false)
    (hcount : argv.length < MAXARG) (hsmall : ∀ arg ∈ argv, arg.length < 2 ^ 31 - 1) :
    (∃ r e', (exec trampoline path file argv).run e = .ok (r, e') ∧
      (r ≠ -1 → r = Int32.ofNat argv.length ∧ ∃ ptrs, ArgumentVector e' argv ptrs) ∧
      (4096 < argsRoom argv → r = -1) ∧
      (Loads trampoline file e → argsRoom argv ≤ 4096 → r ≠ -1)) ∧
    ∀ (s : State) (sz : UInt64) (m : Nat), StackPage s m → 0 < m → sz.toNat = 4096 * (m + 1) →
      ∃ r s', (pushArgs sz argv).run s = .ok (r, s') ∧ (r = none ↔ 4096 < argsRoom argv) ∧
        s' = { s with mem := s'.mem } ∧ Within s.pagetable (4096 * m) sz.toNat s.mem s'.mem := by
  constructor
  · have hexec := exec_wp trampoline path file hfree hnodup hlayout hlocked (Nat.le_of_lt hcount) hsmall
    obtain ⟨r, e', hrun, hcases⟩ := hexec.returns
    refine ⟨r, e', hrun, ?_⟩
    rcases hcases with ⟨rfl, _, hshort⟩ | ⟨rfl, hstarted⟩
    · refine ⟨fun h => absurd rfl h, fun _ => rfl, fun hloads hfits => ?_⟩
      exact absurd (hshort hloads) (Nat.not_lt.mpr hfits)
    · refine ⟨fun _ => ⟨rfl, _, hstarted.vector hown⟩, fun hshort => ?_, fun _ _ => argc_ne hcount⟩
      exact absurd hshort (Nat.not_lt.mpr hstarted.fits)
  · intro s sz m hstack hm hsz
    have hpush := pushArgs_wp hstack hm hsz (Nat.le_of_lt hcount) hsmall
    obtain ⟨r, s', hrun, hwithin, hsame, hcases⟩ := hpush.returns
    refine ⟨r, s', hrun, ?_, hsame, hwithin⟩
    rcases hcases with ⟨rfl, hshort⟩ | ⟨sp, rfl, _, hfits, _⟩
    · exact iff_of_true rfl hshort
    · exact iff_of_false (by simp) (Nat.not_lt.mpr hfits)

theorem smallTable_pages {base pa : UInt64} (h : pa ∈ (smallTable base).pages) :
    pa ∈ smallPages base ∨ pa = 0x80007000 := by
  simp only [Pagetable.pages, mem_total, smallTable, Multiset.mem_singleton] at h
  rcases h with rfl | ⟨i, l1, hl1, rfl | ⟨j, l0, hl0, rfl | ⟨l, pte, hpte, rfl⟩⟩⟩
  · simp [smallPages]
  · grind [smallPages]
  · grind [smallPages]
  · grind [smallPages]

theorem execState_own (free : Nat) (hfree : free ≤ 256) :
    ∀ pa ∈ (execState free).caller.pagetable.pages, pa ∉ (execState free).kernel.freelist := by
  intro pa hpa hmem
  obtain ⟨i, hi, heq⟩ := List.mem_map.mp hmem
  have hi' : i < 256 := Nat.lt_of_lt_of_le (List.mem_range.mp hi) hfree
  have hnat : pa.toNat = 0x87f00000 - 4096 * i := by rw [← heq, toNat_smallSys_page hi']
  rcases smallTable_pages hpa with hsmall | hcode
  · have hle : 0x87fe0000 ≤ pa.toNat := by
      simp only [smallPages, List.mem_cons, List.not_mem_nil, or_false] at hsmall
      rcases hsmall with rfl | rfl | rfl | rfl | rfl | rfl | rfl
      all_goals exact of_decide_eq_true rfl
    omega
  · rw [hcode, show (0x80007000 : UInt64).toNat = 0x80007000 by rfl] at hnat
    omega

theorem exec_builds_argument_vector_hi : ∃ e' ptrs,
    (@exec smallImage 0x80007000 [] (some emptyProgram) [[104, 105]]).run (execState 7) =
      .ok (1, e') ∧ ArgumentVector e' [[104, 105]] ptrs := by
  let _ := smallImage
  have hsys : Initial (smallSys 7) := smallSys_initial (by decide)
  have hsmall : ∀ arg ∈ [[104, (105 : UInt8)]], arg.length < 2 ^ 31 - 1 := by simp
  obtain ⟨⟨r, e', hrun, hvector, _⟩, _⟩ := exec_builds_argument_vector 0x80007000 []
    (some emptyProgram) (e := execState 7) hsys.valid hsys.nodup (execState_layout 7)
    (execState_own 7 (by decide)) rfl (by decide) hsmall
  have hresult : ((exec 0x80007000 [] (some emptyProgram) [[104, 105]]).run
      (execState 7)).toOption.map Prod.fst = some 1 := by decide +kernel
  rw [hrun] at hresult
  have hr : r = 1 := Option.some.inj hresult
  obtain ⟨_, ptrs, hptrs⟩ := hvector (by rw [hr]; decide)
  rw [hr] at hrun
  exact ⟨e', ptrs, hrun, hptrs⟩

end Xv6Ringbuf.Kernel
