import UCore.Lib.Bytes
import UCore.Mm.Mmu

namespace UCore
set_option autoImplicit true

/-- The page allocator and the kernel heap, as the memory management uses them: frames are given by
their numbers. The blocks asked of the heap are all smaller than a page, so the heap keeps the frames
that it takes, its `arena`. -/
structure PhysSys where
  σ : Type
  /-- The frame of `boot_pgdir`. -/
  bootPgdir : Nat
  free : σ → Nat → Prop
  arena : σ → Nat → Prop
  /-- The blocks that `kmalloc` has given out. -/
  live : σ → Nat → Prop
  allocPages : σ → Nat → Option Nat × σ
  freePages : σ → Nat → Nat → σ
  kmalloc : σ → Option Nat × σ
  kfree : σ → Nat → σ
  free_bound : free s f → 0x80200 ≤ f ∧ f < npage
  free_arena : free s f → ¬ arena s f
  allocPages_none : allocPages s n = (none, s') → s' = s
  allocPages_some : allocPages s n = (some p, s') → p ≤ f → f < p + n → free s f
  allocPages_free : allocPages s n = (some p, s') → (free s' f ↔ free s f ∧ ¬ (p ≤ f ∧ f < p + n))
  allocPages_arena : allocPages s n = (r, s') → arena s' = arena s
  allocPages_live : allocPages s n = (r, s') → live s' = live s
  /-- Only pages that are allocated are freed. -/
  freePages_free : (∀ f, p ≤ f → f < p + n → 0x80200 ≤ f ∧ f < npage ∧ ¬ free s f ∧ ¬ arena s f) →
    (free (freePages s p n) f ↔ free s f ∨ p ≤ f ∧ f < p + n)
  freePages_arena : arena (freePages s p n) = arena s
  freePages_live : live (freePages s p n) = live s
  kmalloc_free : kmalloc s = (r, s') → (free s' f ∨ arena s' f ↔ free s f ∨ arena s f)
  kmalloc_arena : kmalloc s = (r, s') → arena s f → arena s' f
  kmalloc_fresh : kmalloc s = (some p, s') → ¬ live s p
  kmalloc_live : kmalloc s = (r, s') → (live s' p ↔ live s p ∨ r = some p)
  kfree_free : free (kfree s p) = free s
  kfree_arena : arena (kfree s p) = arena s
  kfree_live : live (kfree s p) q ↔ live s q ∧ q ≠ p

structure Vma where
  ptr : Nat
  vmStart : Nat
  vmEnd : Nat
  vmFlags : BitVec 32
  deriving DecidableEq, Repr

def vmRead : BitVec 32 := 1
def vmWrite : BitVec 32 := 2
def vmExec : BitVec 32 := 4
def vmStack : BitVec 32 := 8

/-- An `mm_struct`. The page directory is given by its frame, and `sm_priv` by whether it is set. -/
structure MmStruct where
  mmapList : List Vma
  mmapCache : Option Vma
  pgdir : Option Nat
  mapCount : Int
  smPriv : Bool
  mmCount : Int
  deriving DecidableEq, Repr

/-- The memory: the words of the page frames, the fields of their `struct Page`s that the allocator does
not keep itself, the `mm_struct`s by address, and the variables of the swap manager with the disk. The
count `oom` of the allocations that have failed and the addresses `spaces` of the `mm_struct`s that exist
are there for the statements only. -/
structure Mem (A : PhysSys) where
  phys : A.σ
  frame : Nat → Words
  ref : Nat → Int
  mms : Nat → MmStruct
  praVaddr : Nat → Nat
  swapInitOk : Bool
  maxSwapOffset : Nat
  checkMm : Option Nat
  /-- `pra_list_head`, from its front to its back. -/
  praList : List Nat
  disk : Nat → Words
  oom : Nat
  spaces : List Nat

namespace Mem
open Function (update)
variable {A : PhysSys}

def setFrame (m : Mem A) (f : Nat) (w : Words) : Mem A := { m with frame := update m.frame f w }

/-- Store into an entry of a page table or page directory. -/
def setEntry (m : Mem A) (f i : Nat) (e : BitVec 64) : Mem A := m.setFrame f (update (m.frame f) i e)

def setRef (m : Mem A) (p : Nat) (v : Int) : Mem A := { m with ref := update m.ref p v }

def setMm (m : Mem A) (mm : Nat) (v : MmStruct) : Mem A := { m with mms := update m.mms mm v }

def setPhys (m : Mem A) (s : A.σ) : Mem A := { m with phys := s }

/-- An allocation has failed. -/
def fail (m : Mem A) : Mem A := { m with oom := m.oom + 1 }

def freePage (m : Mem A) (p : Nat) : Mem A :=
  { m with phys := A.freePages m.phys p 1, ref := update m.ref p 0 }

end Mem

/-- The frame at a physical address through `KADDR`, or of a page through `pa2page`. Both panic behind the
end of the memory. -/
def kva (ppn : Nat) : Option Nat := if ppn < npage then some ppn else none

end UCore
