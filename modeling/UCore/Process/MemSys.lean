import Mathlib.Algebra.Order.Ring.Nat
import Mathlib.Data.Nat.Notation

namespace UCore
set_option autoImplicit true

/-- The memory side of the kernel, as the process code uses it: the heap blocks of the `proc_struct`s,
the kernel stacks, and the address spaces. An operation without a result has panicked. -/
structure MemSys where
  σ : Type
  boot : σ → Prop
  bootCr3 : Nat
  bootstack : Nat
  /-- The blocks that `alloc_proc` has obtained from `kmalloc` and that were not given to `kfree`. -/
  live : σ → Nat → Prop
  kmallocProc : σ → Option Nat × σ
  kfreeProc : σ → Nat → σ
  /-- `alloc_pages(KSTACKPAGE)` of `setup_kstack`, and the `free_pages` of `put_kstack`. -/
  allocKstack : σ → Option Nat × σ
  freeKstack : σ → Nat → Option σ
  /-- `copy_mm`: the return value, and the new `mm` and `cr3` of the child if it sets them. -/
  copyMm : σ → BitVec 32 → Option Nat → Option (Int × Option (Nat × Nat) × σ)
  /-- `mm_count_dec`, and the teardown of the address space by its last user. -/
  dropMm : σ → Nat → Option σ
  /-- `load_icode`: the return value, and the new `mm` and `cr3` of the process. -/
  loadIcode : σ → Nat → Nat → Option (Int × Option (Nat × Nat) × σ)
  userMemCheck : σ → Option Nat → Nat → Nat → Bool → Bool × σ
  readUser : σ → Option Nat → Nat → Nat → Option σ
  storeInt : σ → Option Nat → Nat → Int → Option σ
  doPgfault : σ → Option Nat → Nat → Nat → Option (Int × σ)
  boot_live : boot m → ¬ live m p
  kmallocProc_fresh : kmallocProc m = (some p, m') → ¬ live m p
  kmallocProc_live : kmallocProc m = (r, m') → (live m' q ↔ live m q ∨ r = some q)
  kfreeProc_live : live (kfreeProc m p) q ↔ live m q ∧ q ≠ p
  allocKstack_live : allocKstack m = (r, m') → live m' = live m
  freeKstack_live : freeKstack m a = some m' → live m' = live m
  copyMm_live : copyMm m fl mm = some (e, r, m') → live m' = live m
  dropMm_live : dropMm m mm' = some m' → live m' = live m
  loadIcode_live : loadIcode m b s = some (e, r, m') → live m' = live m
  userMemCheck_live : userMemCheck m mm a n w = (b', m') → live m' = live m
  readUser_live : readUser m mm a n = some m' → live m' = live m
  storeInt_live : storeInt m mm a v = some m' → live m' = live m
  doPgfault_live : doPgfault m mm c a = some (e, m') → live m' = live m

end UCore
