import Xv6Ringbuf.Kernel.Leaf

namespace Xv6Ringbuf.Sv39

open Machine Kernel Function

def PTE_V : UInt64 := 1

def PTE_U : UInt64 := 16

def PA2PTE (pa : UInt64) : UInt64 := pa >>> 12 <<< 10

def PTE2PA (pte : UInt64) : UInt64 := pte >>> 10 <<< 12

def PTE_FLAGS (pte : UInt64) : UInt64 := pte &&& 0x3ff

theorem PXMASK_lt (w : UInt64) : (w &&& 0x1ff).toNat < 512 := by
  rw [UInt64.toNat_and]
  exact Nat.and_lt_two_pow _ (show UInt64.toNat 0x1ff < 2 ^ 9 by decide)

def PX (level : Nat) (va : UInt64) : Fin 512 :=
  ⟨(va >>> UInt64.ofNat (12 + 9 * level) &&& 0x1ff).toNat, PXMASK_lt _⟩

-- The physical memory as pages of 512 words. `supply` holds the answers that
-- `kalloc` is going to give, and `tables` is a history: the pages that it has
-- given.
structure Mem where
  words : UInt64 → Fin 512 → UInt64
  supply : List (Option UInt64)
  tables : List UInt64

abbrev V := M Panic Mem

-- The address of an entry: its page and its index in the page.
abbrev PteAddr := UInt64 × Fin 512

def memset (page w : UInt64) : V Unit :=
  modify fun m => { m with words := update m.words page fun _ => w }

def load (pte : PteAddr) : V UInt64 :=
  return (← get).words pte.1 pte.2

def store (pte : PteAddr) (w : UInt64) : V Unit :=
  modify fun m => { m with
    words := update m.words pte.1 (update (m.words pte.1) pte.2 w) }

def kalloc : V (Option UInt64) := do
  match (← get).supply with
  | [] => return none
  | none :: rest => do
      modify fun m => { m with supply := rest }
      return none
  | some page :: rest => do
      modify fun m => { m with supply := rest, tables := page :: m.tables }
      memset page 0x0505050505050505
      return some page

def kfree [Image] (pa : UInt64) : V Unit :=
  if pa % PGSIZE ≠ 0 ∨ pa < Image.kend ∨ PHYSTOP ≤ pa then throw .kfree
  else memset pa 0x0101010101010101

-- One round of the loop of `walk`.
def walkLevel (va : UInt64) (alloc : Bool) (level : Nat) (pagetable : UInt64) : V (Option UInt64) := do
  let pte := (pagetable, PX level va)
  let w ← load pte
  if w &&& PTE_V ≠ 0 then return some (PTE2PA w)
  else if alloc then do
    match ← kalloc with
    | none => return none
    | some page => do
        memset page 0
        store pte (PA2PTE page ||| PTE_V)
        return some page
  else return none

def walk (pagetable va : UInt64) (alloc : Bool) : V (Option PteAddr) :=
  if MAXVA ≤ va then throw .walk
  else do
    match ← walkLevel va alloc 2 pagetable with
    | none => return none
    | some l1 => do
        match ← walkLevel va alloc 1 l1 with
        | none => return none
        | some l0 => return some (l0, PX 0 va)

def walkaddr (pagetable va : UInt64) : V UInt64 :=
  if MAXVA ≤ va then return 0
  else do
    match ← walk pagetable va false with
    | none => return 0
    | some pte => do
        let w ← load pte
        if w &&& PTE_V = 0 then return 0
        else if w &&& PTE_U = 0 then return 0
        else return PTE2PA w

def mapLoop (pagetable last perm : UInt64) : Nat → UInt64 → UInt64 → V Int32
  | 0, _, _ => return 0
  | fuel + 1, a, pa => do
      match ← walk pagetable a true with
      | none => return -1
      | some pte => do
          if (← load pte) &&& PTE_V ≠ 0 then throw .mappagesRemap
          else do
            store pte (PA2PTE pa ||| perm ||| PTE_V)
            if a = last then return 0
            else mapLoop pagetable last perm fuel (a + PGSIZE) (pa + PGSIZE)

-- The loop ends at `last`, before the rounds run out.
def mappages (pagetable va size pa perm : UInt64) : V Int32 :=
  if size = 0 then throw .mappagesSize
  else
    mapLoop pagetable (PGROUNDDOWN (va + size - 1)) perm (size.toNat / 4096 + 2) (PGROUNDDOWN va) pa

def unmapLoop [Image] (pagetable stop : UInt64) (doFree : Bool) : Nat → UInt64 → V Unit
  | 0, _ => return ()
  | fuel + 1, a =>
    if a < stop then do
      match ← walk pagetable a false with
      | none => throw .uvmunmapWalk
      | some pte => do
          let w ← load pte
          if w &&& PTE_V = 0 then throw .uvmunmapNotMapped
          else if PTE_FLAGS w = PTE_V then throw .uvmunmapNotALeaf
          else do
            if doFree then kfree (PTE2PA w)
            store pte 0
            unmapLoop pagetable stop doFree fuel (a + PGSIZE)
    else return ()

def uvmunmap [Image] (pagetable va npages : UInt64) (doFree : Bool) : V Unit :=
  if va % PGSIZE ≠ 0 then throw .uvmunmapNotAligned
  else unmapLoop pagetable (va + npages * PGSIZE) doFree npages.toNat va

def uvmclear (pagetable va : UInt64) : V Unit := do
  match ← walk pagetable va false with
  | none => throw .uvmclear
  | some pte => store pte ((← load pte) &&& ~~~PTE_U)

def uvmcreate : V (Option UInt64) := do
  match ← kalloc with
  | none => return none
  | some pagetable => do
      memset pagetable 0
      return some pagetable

theorem PX_eq {level : Nat} (hlevel : level ≤ 2) (va : UInt64) : PX level va = index level (vpn va) := by
  rw [← px_eq]
  apply Fin.ext
  have hshift : (UInt64.ofNat (12 + 9 * level)).toNat = 12 + 9 * level := by
    rw [UInt64.toNat_ofNat']
    omega
  simp only [PX, px, UInt64.toNat_and, UInt64.toNat_shiftRight, hshift]
  rw [Nat.mod_eq_of_lt (by omega), Nat.shiftRight_eq_div_pow]
  exact Nat.and_two_pow_sub_one_eq_mod _ 9

section Bits

variable {pa flags w : UInt64}

theorem toNat_PA2PTE (pa : UInt64) : (PA2PTE pa).toNat = pa.toNat / 4096 * 1024 := by
  have hlt := pa.toNat_lt
  rw [PA2PTE, UInt64.toNat_shiftLeft, UInt64.toNat_shiftRight, Nat.shiftLeft_eq, Nat.shiftRight_eq_div_pow]
  rw [show UInt64.toNat 12 % 64 = 12 by rfl, show UInt64.toNat 10 % 64 = 10 by rfl]
  omega

theorem toNat_PTE2PA (w : UInt64) : (PTE2PA w).toNat = w.toNat / 1024 * 4096 % 2 ^ 64 := by
  rw [PTE2PA, UInt64.toNat_shiftLeft, UInt64.toNat_shiftRight, Nat.shiftLeft_eq, Nat.shiftRight_eq_div_pow]
  rw [show UInt64.toNat 12 % 64 = 12 by rfl, show UInt64.toNat 10 % 64 = 10 by rfl]

theorem toNat_entry (pa : UInt64) (hflags : flags.toNat < 1024) :
    (PA2PTE pa ||| flags).toNat = pa.toNat / 4096 * 1024 + flags.toNat := by
  rw [UInt64.toNat_or, toNat_PA2PTE, Nat.mul_comm, ← Nat.two_pow_add_eq_or_of_lt (i := 10) hflags]

theorem PTE2PA_entry (hpa : pa.toNat % 4096 = 0) (hflags : flags.toNat < 1024) :
    PTE2PA (PA2PTE pa ||| flags) = pa := by
  apply UInt64.toNat_inj.mp
  have hlt := pa.toNat_lt
  rw [toNat_PTE2PA, toNat_entry pa hflags]
  omega

theorem PTE_FLAGS_entry (pa : UInt64) (hflags : flags.toNat < 1024) :
    PTE_FLAGS (PA2PTE pa ||| flags) = flags := by
  apply UInt64.toNat_inj.mp
  have hmod : (PA2PTE pa ||| flags).toNat &&& 1023 = (PA2PTE pa ||| flags).toNat % 1024 :=
    Nat.and_two_pow_sub_one_eq_mod _ 10
  rw [PTE_FLAGS, UInt64.toNat_and, show UInt64.toNat 0x3ff = 1023 by rfl, hmod, toNat_entry pa hflags]
  omega

theorem entry_and (pa : UInt64) {mask : UInt64} (hflags : flags.toNat < 1024) (hmask : mask.toNat < 1024) :
    (PA2PTE pa ||| flags) &&& mask = flags &&& mask := by
  have hself : mask &&& 0x3ff = mask := by
    apply UInt64.toNat_inj.mp
    have hmod : mask.toNat &&& 1023 = mask.toNat % 1024 := Nat.and_two_pow_sub_one_eq_mod _ 10
    rw [UInt64.toNat_and, show UInt64.toNat 0x3ff = 1023 by rfl, hmod, Nat.mod_eq_of_lt hmask]
  have h := congrArg (· &&& mask) (PTE_FLAGS_entry pa hflags)
  simp only [PTE_FLAGS, UInt64.and_assoc] at h
  rwa [UInt64.and_comm 0x3ff mask, hself] at h

theorem entry_clear (pa flags : UInt64) :
    (PA2PTE pa ||| flags) &&& ~~~PTE_U = PA2PTE pa ||| flags &&& ~~~PTE_U := by
  apply UInt64.eq_of_toBitVec_eq
  have hU : PTE_U.toBitVec = BitVec.twoPow 64 4 := rfl
  have hlow : (PA2PTE pa).toBitVec[4] = false := by simp [PA2PTE]
  simp only [UInt64.toBitVec_and, UInt64.toBitVec_or, UInt64.toBitVec_not, hU]
  ext i hi
  simp only [BitVec.getElem_and, BitVec.getElem_or, BitVec.getElem_not, BitVec.getElem_twoPow]
  by_cases h4 : i = 4
  · subst h4
    simp [hlow]
  · simp [h4]

end Bits

end Xv6Ringbuf.Sv39
