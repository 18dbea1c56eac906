import Xv6Ringbuf.Kernel.Exec
import Xv6Ringbuf.Kernel.UserCopy

namespace Xv6Ringbuf.Kernel

open Machine Function

-- Only bytes of the user's addresses from `lo` to `hi` differ.
def Within (pt : Pagetable) (lo hi : Nat) (mem mem' : UInt64 → UInt8) : Prop :=
  ∀ x, (∀ a, lo ≤ a → a < hi → pt.byteAddr a ≠ x) → mem' x = mem x

section Bytes

variable {pt : Pagetable} {lo hi : Nat} {mem mem' mem'' : UInt64 → UInt8}

theorem Within.refl : Within pt lo hi mem mem := fun _ _ => rfl

theorem Within.trans (h : Within pt lo hi mem mem') (h' : Within pt lo hi mem' mem'') :
    Within pt lo hi mem mem'' :=
  fun x hx => (h' x hx).trans (h x hx)

theorem Within.mono {lo' hi' : Nat} (h : Within pt lo hi mem mem') (hlo : lo' ≤ lo) (hhi : hi ≤ hi') :
    Within pt lo' hi' mem mem' :=
  fun x hx => h x fun a ha ha' => hx a (by omega) (by omega)

theorem putBytes_within (a : Nat) (src : List UInt8) (mem : UInt64 → UInt8) :
    Within pt a (a + src.length) mem (pt.putBytes a src mem) := by
  induction src generalizing a mem with
  | nil => exact Within.refl
  | cons byte src ih =>
    rw [Pagetable.putBytes, List.length_cons]
    have hrest := (ih (a + 1) (update mem (pt.byteAddr a) byte)).mono
      (Nat.le_succ a) (show a + 1 + src.length ≤ a + (src.length + 1) by omega)
    intro x hx
    rw [hrest x hx]
    exact update_of_ne (fun heq => hx a (Nat.le_refl a) (by omega) heq.symm) _ _

theorem getBytes_congr {a len : Nat} (h : ∀ i < len, pt.getByte mem' (a + i) = pt.getByte mem (a + i)) :
    pt.getBytes mem' a len = pt.getBytes mem a len :=
  List.map_congr_left fun i hi => h i (List.mem_range.mp hi)

theorem byteAddr_inj {a b : Nat} (hpage : a / 4096 = b / 4096) (h : pt.byteAddr a = pt.byteAddr b) :
    a = b := by
  unfold Pagetable.byteAddr at h
  rw [hpage] at h
  have hoff := congrArg UInt64.toNat (UInt64.add_right_inj _ |>.mp h)
  rw [UInt64.toNat_ofNat', UInt64.toNat_ofNat'] at hoff
  omega

theorem getBytes_putBytes {m a : Nat} {src : List UInt8} (hlo : 4096 * m ≤ a)
    (hhi : a + src.length ≤ 4096 * (m + 1)) (mem : UInt64 → UInt8) :
    pt.getBytes (pt.putBytes a src mem) a src.length = src := by
  induction src generalizing a mem with
  | nil => rfl
  | cons byte src ih =>
    rw [List.length_cons] at hhi
    rw [Pagetable.putBytes, List.length_cons, getBytes_succ, ih (by omega) (by omega)]
    congr 1
    unfold Pagetable.getByte
    rw [putBytes_within (a + 1) src _ (pt.byteAddr a), update_self]
    intro b hb hb' heq
    have hsame := byteAddr_inj (by omega) heq
    omega

theorem Within.getByte {m a : Nat} (h : Within pt lo hi mem mem') (hlo : 4096 * m ≤ lo) (hhi : hi ≤ a)
    (hend : a < 4096 * (m + 1)) : pt.getByte mem' a = pt.getByte mem a := by
  apply h
  intro b hb hb' heq
  have hsame := byteAddr_inj (by omega) heq
  omega

end Bytes

-- What a string takes of the stack, with the byte that ends it: a multiple of 16 bytes.
def stringRoom (arg : List UInt8) : Nat := 16 * (arg.length / 16 + 1)

def stringsRoom (args : List (List UInt8)) : Nat := (args.map stringRoom).sum

def argsRoom (args : List (List UInt8)) : Nat := stringsRoom args + 16 * (args.length / 2 + 1)

theorem stringsRoom_mod (args : List (List UInt8)) : stringsRoom args % 16 = 0 := by
  induction args with
  | nil => rfl
  | cons arg rest ih =>
    unfold stringsRoom stringRoom at ih ⊢
    rw [List.map_cons, List.sum_cons]
    omega

theorem length_flatMap_bytesOf (values : List UInt64) :
    (values.flatMap bytesOf).length = 8 * values.length := by
  induction values with
  | nil => rfl
  | cons value rest ih =>
    have hword : (bytesOf value).length = 8 := by simp [bytesOf]
    rw [List.flatMap_cons, List.length_append, hword, ih, List.length_cons]
    omega

def stringPlaces : Nat → List (List UInt8) → List Nat
  | _, [] => []
  | sp, arg :: rest => (sp - stringRoom arg) :: stringPlaces (sp - stringRoom arg) rest

theorem stringPlaces_length (sp : Nat) (args : List (List UInt8)) :
    (stringPlaces sp args).length = args.length := by
  induction args generalizing sp with
  | nil => rfl
  | cons arg rest ih => rw [stringPlaces, List.length_cons, List.length_cons, ih]

def Strings (pt : Pagetable) (mem : UInt64 → UInt8) : List Nat → List (List UInt8) → Prop :=
  List.Forall₂ fun a arg => pt.getBytes mem a (arg.length + 1) = arg ++ [0]

theorem stringsRoom_cons (arg : List UInt8) (rest : List (List UInt8)) :
    stringsRoom (arg :: rest) = stringRoom arg + stringsRoom rest := by
  unfold stringsRoom
  rw [List.map_cons, List.sum_cons]

theorem length_lt_stringRoom (arg : List UInt8) : arg.length < stringRoom arg := by
  unfold stringRoom
  omega

variable {pt : Pagetable} {mem mem' : UInt64 → UInt8} {top len : Nat} {args : List (List UInt8)}
  {sp : UInt64}

theorem Strings.congr {lo : Nat} (h : Strings pt mem (stringPlaces top args) args)
    (hsame : ∀ a, lo ≤ a → a < top → pt.getByte mem' a = pt.getByte mem a)
    (hlo : lo + stringsRoom args ≤ top) : Strings pt mem' (stringPlaces top args) args := by
  induction args generalizing top with
  | nil => exact List.Forall₂.nil
  | cons arg rest ih =>
    rw [stringsRoom_cons] at hlo
    have hlength := length_lt_stringRoom arg
    cases h with
    | cons hfirst hrest =>
      refine List.Forall₂.cons ?_ (ih hrest ?_ (by omega))
      · rw [getBytes_congr fun i hi => hsame _ (by omega) (by omega)]
        exact hfirst
      · intro a ha ha'
        exact hsame a ha (by omega)

-- The strings lie below `top` and the pointers to them at `sp`, with a null pointer
-- behind the last.
structure ArgsAt (pt : Pagetable) (mem : UInt64 → UInt8) (top sp : Nat) (args : List (List UInt8)) :
    Prop where
  strings : Strings pt mem (stringPlaces top args) args
  pointers : pt.getBytes mem sp (8 * (args.length + 1)) =
    ((stringPlaces top args).map UInt64.ofNat ++ [0]).flatMap bytesOf

theorem ArgsAt.congr {sp : Nat} (h : ArgsAt pt mem top sp args) (hsp : sp + argsRoom args = top)
    (hsame : ∀ a, sp ≤ a → a < top → pt.getByte mem' a = pt.getByte mem a) :
    ArgsAt pt mem' top sp args := by
  have hargs : argsRoom args = stringsRoom args + 16 * (args.length / 2 + 1) := rfl
  refine ⟨h.strings.congr hsame (by omega), ?_⟩
  rw [getBytes_congr fun i hi => hsame _ (Nat.le_add_right _ _) (by omega)]
  exact h.pointers

theorem toNat_push (hmod : sp.toNat % 16 = 0) (hlen : len ≤ sp.toNat) :
    (sp - UInt64.ofNat len - (sp - UInt64.ofNat len) % 16).toNat = sp.toNat - 16 * ((len + 15) / 16) := by
  have hlt := sp.toNat_lt
  have hbelow : (sp - UInt64.ofNat len).toNat = sp.toNat - len := by
    rw [UInt64.toNat_sub, UInt64.toNat_ofNat']
    omega
  generalize sp - UInt64.ofNat len = below at hbelow
  rw [UInt64.toNat_sub, UInt64.toNat_mod, show (16 : UInt64).toNat = 16 by rfl, hbelow]
  omega

theorem toNat_push_wrap (hlen : sp.toNat < len) (hsmall : len ≤ 2 ^ 31) :
    2 ^ 63 ≤ (sp - UInt64.ofNat len - (sp - UInt64.ofNat len) % 16).toNat := by
  have hbelow : (sp - UInt64.ofNat len).toNat = 2 ^ 64 + sp.toNat - len := by
    rw [UInt64.toNat_sub, UInt64.toNat_ofNat']
    omega
  generalize sp - UInt64.ofNat len = below at hbelow
  rw [UInt64.toNat_sub, UInt64.toNat_mod, show (16 : UInt64).toNat = 16 by rfl, hbelow]
  omega

theorem copyout_high {s : State} {src : List UInt8} (hsp : 2 ^ 63 ≤ sp.toNat) (hsrc : src ≠ []) :
    wp (copyout sp src) s (fun r s' => r < 0 ∧ s' = s) fun _ => False := by
  have hhigh : MAXVA ≤ PGROUNDDOWN sp := by
    rw [UInt64.le_iff_toNat_le, toNat_roundDown, toNat_MAXVA]
    omega
  unfold copyout
  rw [copyoutLoop, if_neg (by simpa using hsrc)]
  apply wp_bind
  apply walkaddr_wp
  rw [walkaddr_of_le _ hhigh, if_pos rfl]
  exact ⟨by decide, rfl⟩

structure StackPage [Image] (s : State) (m : Nat) : Prop where
  pages : UserPages s.pagetable
  user : s.pagetable.user m ≠ none

section Push

variable [Image] {s : State} {m : Nat}

theorem StackPage.write (h : StackPage s m) (mem : UInt64 → UInt8) : StackPage { s with mem := mem } m :=
  ⟨h.pages, h.user⟩

theorem StackPage.copyout (h : StackPage s m) {sp : UInt64} {src : List UInt8}
    (hlo : 4096 * m ≤ sp.toNat) (hhi : sp.toNat + src.length ≤ 4096 * (m + 1)) :
    wp (copyout sp src) s
      (fun r s' => r = 0 ∧ s' = { s with mem := s.pagetable.putBytes sp.toNat src s.mem })
      fun _ => False := by
  have haccess : Accessible s.pagetable sp.toNat src.length := by
    intro i hi
    rw [show (sp.toNat + i) / 4096 = m by omega]
    exact h.user
  have hbytes := copyoutLoop_bytes _ sp src (Nat.lt_succ_self _) s
  apply ((copyout_wp sp src s).and hbytes).mono
  · rintro r s' ⟨⟨_, _, _, hr⟩, hmem⟩
    rw [if_pos ((cellMapped_iff h.pages _).mpr haccess)] at hr
    exact ⟨hr, hmem hr⟩
  · rintro _ ⟨hfalse, _⟩
    exact hfalse

theorem pushStrings_wp {stackbase sp : UInt64} (args : List (List UInt8)) {argc : Nat}
    (ustack : List UInt64) (h : StackPage s m) (hbase : stackbase.toNat = 4096 * m)
    (hlo : 4096 * m ≤ sp.toNat) (hhi : sp.toNat ≤ 4096 * (m + 1)) (hmod : sp.toNat % 16 = 0)
    (hcount : argc + args.length ≤ MAXARG) (hsmall : ∀ arg ∈ args, arg.length < 2 ^ 31 - 1) :
    wp (pushStrings stackbase argc sp ustack args) s
      (fun r s' => Within s.pagetable (4096 * m) sp.toNat s.mem s'.mem ∧
        s' = { s with mem := s'.mem } ∧
        (r = none ∧ sp.toNat < 4096 * m + stringsRoom args ∨
          ∃ sp', r = some (sp', ustack ++ (stringPlaces sp.toNat args).map UInt64.ofNat) ∧
            sp'.toNat + stringsRoom args = sp.toNat ∧ 4096 * m ≤ sp'.toNat ∧
            Strings s.pagetable s'.mem (stringPlaces sp.toNat args) args)) fun _ => False := by
  induction args generalizing argc sp ustack s with
  | nil =>
    refine ⟨Within.refl, rfl, .inr ⟨sp, ?_, rfl, hlo, List.Forall₂.nil⟩⟩
    rw [stringPlaces, List.map_nil, List.append_nil]
  | cons arg rest ih =>
    have hroom := stringsRoom_cons arg rest
    have hstring : stringRoom arg = 16 * (arg.length / 16 + 1) := rfl
    have harg := hsmall arg List.mem_cons_self
    rw [List.length_cons] at hcount
    rw [pushStrings, if_neg (by omega)]
    by_cases hfits : arg.length + 1 ≤ sp.toNat
    · have hsp := toNat_push hmod hfits
      generalize sp - UInt64.ofNat (arg.length + 1) -
        (sp - UInt64.ofNat (arg.length + 1)) % 16 = sp' at hsp ⊢
      have hsp' : sp'.toNat = sp.toNat - stringRoom arg := by omega
      by_cases hlow : sp' < stackbase
      · rw [if_pos hlow]
        rw [UInt64.lt_iff_toNat_lt] at hlow
        exact ⟨Within.refl, rfl, .inl ⟨rfl, by omega⟩⟩
      · rw [if_neg hlow]
        rw [UInt64.not_lt, UInt64.le_iff_toNat_le] at hlow
        apply wp_bind
        have hlen : (arg ++ [0]).length = arg.length + 1 := by simp
        apply (h.copyout (by omega) (show sp'.toNat + (arg ++ [0]).length ≤ _ by omega)).mono _
          fun _ h => h
        rintro r s' ⟨rfl, rfl⟩
        rw [if_neg (by decide)]
        have hwritten : Within s.pagetable (4096 * m) sp.toNat s.mem
            (s.pagetable.putBytes sp'.toNat (arg ++ [0]) s.mem) :=
          (putBytes_within _ _ _).mono (by omega) (by omega)
        apply (ih (ustack ++ [sp']) (h.write _) (by omega) (by omega) (by omega) (by omega)
          fun arg' harg' => hsmall arg' (List.mem_cons_of_mem _ harg')).mono _ fun _ h => h
        rintro r s' ⟨hwithin, hsame, hcases⟩
        refine ⟨?_, hsame, ?_⟩
        · exact hwritten.trans (hwithin.mono (Nat.le_refl _) (by omega))
        · rcases hcases with ⟨rfl, hmore⟩ | ⟨sp'', rfl, hsum, hlow', hstrings⟩
          · exact .inl ⟨rfl, by omega⟩
          · refine .inr ⟨sp'', ?_, by omega, hlow', ?_⟩
            · rw [stringPlaces, ← hsp', List.map_cons, UInt64.ofNat_toNat, List.append_assoc]
              rfl
            · rw [stringPlaces, ← hsp']
              refine List.Forall₂.cons ?_ hstrings
              rw [getBytes_congr fun i hi =>
                hwithin.getByte (Nat.le_refl _) (Nat.le_add_right _ _) (by omega), ← hlen]
              exact getBytes_putBytes (m := m) (by omega) (by omega) _
    · have hwrap := toNat_push_wrap (Nat.lt_of_not_le hfits) (by omega)
      generalize sp - UInt64.ofNat (arg.length + 1) -
        (sp - UInt64.ofNat (arg.length + 1)) % 16 = sp' at hwrap ⊢
      have hshort : sp.toNat < 4096 * m + stringsRoom (arg :: rest) := by omega
      by_cases hlow : sp' < stackbase
      · rw [if_pos hlow]
        exact ⟨Within.refl, rfl, .inl ⟨rfl, hshort⟩⟩
      · rw [if_neg hlow]
        refine wp_call (copyout_high hwrap (by simp)) ?_
        rintro r s' ⟨hr, rfl⟩
        rw [if_pos hr]
        exact ⟨Within.refl, rfl, .inl ⟨rfl, hshort⟩⟩

theorem pushArgs_wp {sz : UInt64} {argv : List (List UInt8)} (h : StackPage s m) (hm : 0 < m)
    (hsz : sz.toNat = 4096 * (m + 1)) (hcount : argv.length ≤ MAXARG)
    (hsmall : ∀ arg ∈ argv, arg.length < 2 ^ 31 - 1) :
    wp (pushArgs sz argv) s
      (fun r s' => Within s.pagetable (4096 * m) sz.toNat s.mem s'.mem ∧
        s' = { s with mem := s'.mem } ∧
        (r = none ∧ 4096 < argsRoom argv ∨
          ∃ sp, r = some sp ∧ sp.toNat + argsRoom argv = sz.toNat ∧ argsRoom argv ≤ 4096 ∧
            ArgsAt s.pagetable s'.mem sz.toNat sp.toNat argv)) fun _ => False := by
  have hbase : (sz - PGSIZE).toNat = 4096 * m := by
    rw [UInt64.toNat_sub, toNat_PGSIZE]
    have hlt := sz.toNat_lt
    omega
  have hargs : argsRoom argv = stringsRoom argv + 16 * (argv.length / 2 + 1) := rfl
  have hmax : argv.length ≤ 32 := hcount
  unfold pushArgs
  apply wp_bind
  apply (pushStrings_wp argv [] h hbase (by omega) (by omega) (by omega)
    (show 0 + argv.length ≤ MAXARG by omega) hsmall).mono _ fun _ h => h
  rintro r s' ⟨hwithin, hsame, ⟨rfl, hshort⟩ | ⟨sp, rfl, hsum, hlow, hstrings⟩⟩
  · exact ⟨hwithin, hsame, .inl ⟨rfl, by omega⟩⟩
  · rw [List.nil_append]
    have hlen : ((stringPlaces sz.toNat argv).map UInt64.ofNat).length = argv.length := by
      rw [List.length_map, stringPlaces_length]
    generalize hptrs : (stringPlaces sz.toNat argv).map UInt64.ofNat = ptrs at hlen ⊢
    have hbytes : ((ptrs ++ [0]).flatMap bytesOf).length = 8 * (argv.length + 1) := by
      rw [length_flatMap_bytesOf, List.length_append, List.length_singleton, hlen]
    have hmod : sp.toNat % 16 = 0 := by
      have hrooms := stringsRoom_mod argv
      omega
    have hsp := toNat_push hmod (show 8 * (ptrs.length + 1) ≤ sp.toNat by omega)
    simp only
    generalize sp - UInt64.ofNat (8 * (ptrs.length + 1)) -
      (sp - UInt64.ofNat (8 * (ptrs.length + 1))) % 16 = sp' at hsp ⊢
    by_cases hbelow : sp' < sz - PGSIZE
    · rw [if_pos hbelow]
      rw [UInt64.lt_iff_toNat_lt] at hbelow
      exact ⟨hwithin, hsame, .inl ⟨rfl, by omega⟩⟩
    · rw [if_neg hbelow]
      rw [UInt64.not_lt, UInt64.le_iff_toNat_le] at hbelow
      have hstack : StackPage s' m := by
        rw [hsame]
        exact h.write _
      apply wp_bind
      apply (hstack.copyout (by omega) (show sp'.toNat + ((ptrs ++ [0]).flatMap bytesOf).length ≤ _
        by omega)).mono _ fun _ h => h
      rintro r s'' ⟨rfl, rfl⟩
      rw [if_neg (by decide)]
      have htable : s'.pagetable = s.pagetable := by rw [hsame]
      have hwritten : Within s.pagetable (4096 * m) sp.toNat s'.mem
          (s'.pagetable.putBytes sp'.toNat ((ptrs ++ [0]).flatMap bytesOf) s'.mem) := by
        rw [htable]
        exact (putBytes_within _ _ _).mono (by omega) (by omega)
      refine ⟨hwithin.trans (hwritten.mono (Nat.le_refl _) (by omega)), ?_, .inr ⟨sp', rfl, by omega,
        by omega, ?_, ?_⟩⟩
      · rw [hsame]
      · apply hstrings.congr _ (Nat.le_of_eq hsum)
        intro a ha ha'
        exact hwritten.getByte (Nat.le_refl _) ha (by omega)
      · rw [hptrs, ← hbytes, htable]
        exact getBytes_putBytes (m := m) (by omega) (by omega) _

end Push

end Xv6Ringbuf.Kernel
