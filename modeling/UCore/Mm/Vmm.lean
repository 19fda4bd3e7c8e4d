import UCore.Libs.Error
import UCore.Mm.Pmm

namespace UCore
set_option autoImplicit true
open Function (update)

/-- The address is in the area. -/
def Vma.Covers (vma : Vma) (addr : Nat) : Prop := vma.vmStart ≤ addr ∧ addr < vma.vmEnd

instance : Decidable (Vma.Covers vma addr) := inferInstanceAs (Decidable (_ ∧ _))

/-- The assertions of `check_vma_overlap`. -/
def CheckVmaOverlap (prev next : Vma) : Prop :=
  prev.vmStart < prev.vmEnd ∧ prev.vmEnd ≤ next.vmStart ∧ next.vmStart < next.vmEnd

instance : Decidable (CheckVmaOverlap prev next) := inferInstanceAs (Decidable (_ ∧ _))

namespace Mem
variable {A : PhysSys}

def mmCreate (m : Mem A) : Option Nat × Mem A :=
  match A.kmalloc m.phys with
  | (some mm, s) =>
    let m := (m.setPhys s).setMm mm ⟨[], none, none, 0, false, 0⟩
    let m := { m with spaces := mm :: m.spaces }
    (some mm, if m.swapInitOk then m.swapInitMm mm else m)
  | (none, s) => (none, (m.setPhys s).fail)

def vmaCreate (m : Mem A) (vmStart vmEnd : Nat) (vmFlags : BitVec 32) : Option Vma × Mem A :=
  match A.kmalloc m.phys with
  | (some ptr, s) => (some ⟨ptr, vmStart, vmEnd, vmFlags⟩, m.setPhys s)
  | (none, s) => (none, (m.setPhys s).fail)

def findVma (m : Mem A) (mm : Option Nat) (addr : Nat) : Option Vma × Mem A :=
  match mm with
  | none => (none, m)
  | some mm =>
    let cached := (m.mms mm).mmapCache.filter fun vma => vma.Covers addr
    match cached.or ((m.mms mm).mmapList.find? fun vma => vma.Covers addr) with
    | some vma => (some vma, m.setMm mm { m.mms mm with mmapCache := some vma })
    | none => (none, m)

/-- `insert_vma_struct`: the area goes behind the last of the leading ones that do not start after it. -/
def insertVmaStruct (m : Mem A) (mm : Nat) (vma : Vma) : Option (Mem A) :=
  let pre := (m.mms mm).mmapList.takeWhile fun w => w.vmStart ≤ vma.vmStart
  let post := (m.mms mm).mmapList.dropWhile fun w => w.vmStart ≤ vma.vmStart
  if vma.vmStart < vma.vmEnd ∧ (∀ prev ∈ pre.getLast?, CheckVmaOverlap prev vma) ∧
      ∀ next ∈ post.head?, CheckVmaOverlap vma next then
    some (m.setMm mm { m.mms mm with
      mmapList := pre ++ vma :: post
      mapCount := (m.mms mm).mapCount + 1 })
  else none

def kfree (m : Mem A) (ptr : Nat) : Mem A := m.setPhys (A.kfree m.phys ptr)

def mmDestroy (m : Mem A) (mm : Nat) : Option (Mem A) :=
  if (m.mms mm).mmCount = 0 then
    let m := ((m.mms mm).mmapList.foldl (fun m vma => m.kfree vma.ptr) m).kfree mm
    some { m with spaces := m.spaces.erase mm }
  else none

/-- `mm_map`, with the value it returns. -/
def mmMap (m : Mem A) (mm addr len : Nat) (vmFlags : BitVec 32) : Option (Int × Mem A) :=
  let start := roundDown addr pgSize
  let stop := roundUp (addW addr len) pgSize
  if ¬ UserAccess start stop then some (-eInval, m)
  else
    let (found, m) := m.findVma (some mm) start
    if ∃ vma : Vma, vma ∈ found ∧ vma.vmStart < stop then some (-eInval, m)
    else
      match m.vmaCreate start stop vmFlags with
      | (none, m) => some (-eNoMem, m)
      | (some vma, m) => (m.insertVmaStruct mm vma).map fun m => (0, m)

/-- The loop of `dup_mmap`. -/
def dupVmas (m : Mem A) (toMm toDir fromDir : Nat) : List Vma → Option (Int × Mem A)
  | [] => some (0, m)
  | vma :: rest =>
    match m.vmaCreate vma.vmStart vma.vmEnd vma.vmFlags with
    | (none, m) => some (-eNoMem, m)
    | (some nvma, m) => do
      let m ← m.insertVmaStruct toMm nvma
      match ← m.copyRange toDir fromDir vma.vmStart vma.vmEnd with
      | (false, m) => some (-eNoMem, m)
      | (true, m) => m.dupVmas toMm toDir fromDir rest

/-- `dup_mmap`, with the value it returns. It walks the areas from the last to the first. -/
def dupMmap (m : Mem A) (toMm fromMm : Nat) : Option (Int × Mem A) := do
  m.dupVmas toMm (← (m.mms toMm).pgdir) (← (m.mms fromMm).pgdir) (m.mms fromMm).mmapList.reverse

def exitMmap (m : Mem A) (mm : Nat) : Option (Mem A) :=
  if (m.mms mm).mmCount = 0 then do
    let pgdir ← (m.mms mm).pgdir
    let vmas := (m.mms mm).mmapList
    let m ← vmas.foldlM (fun m vma => m.unmapRange pgdir vma.vmStart vma.vmEnd) m
    vmas.foldlM (fun m vma => m.exitRange pgdir vma.vmStart vma.vmEnd) m
  else none

/-- `setup_pgdir`; the result says whether it returned 0. -/
def setupPgdir (m : Mem A) (mm : Nat) : Option (Bool × Mem A) := do
  match ← m.allocPage with
  | (none, m) => some (false, m)
  | (some page, m) => do
    let pgdir ← kva page
    let m := m.setFrame pgdir (m.frame A.bootPgdir)
    some (true, m.setMm mm { m.mms mm with pgdir := some pgdir })

def putPgdir (m : Mem A) (mm : Nat) : Option (Mem A) := do
  some (m.freePage (← (m.mms mm).pgdir))

/-- `swap_in`: the new page with what was swapped out. -/
def swapIn (m : Mem A) (mm addr : Nat) : Option (Nat × Mem A) := do
  match ← m.allocPage with
  | (none, _) => none
  | (some page, m) => do
    let (pt, i) ← (← m.pteSlot (← (m.mms mm).pgdir) addr)
    some (page, ← m.swapfsRead (m.frame pt i) page)

/-- `do_pgfault`, with the value it returns. It does not look at the error code. -/
def doPgfault (m : Mem A) (mm : Option Nat) (addr : Nat) : Option (Int × Mem A) :=
  match m.findVma mm addr with
  | (none, m) => some (-eInval, m)
  | (some vma, m) =>
    if vma.vmStart > addr then some (-eInval, m)
    else do
      let perm := if vma.vmFlags &&& vmWrite ≠ 0 then pteU ||| readWrite else pteU
      let addr := roundDown addr pgSize
      let mm ← mm
      let pgdir ← (m.mms mm).pgdir
      match ← m.getPte pgdir addr true with
      | (none, m) => some (-eNoMem, m)
      | (some (pt, i), m) =>
        if m.frame pt i = 0 then do
          match ← m.pgdirAllocPage pgdir addr perm with
          | (none, m) => some (-eNoMem, m)
          | (some _, m) => some (0, m)
        else if m.swapInitOk then do
          let (page, m) ← m.swapIn mm addr
          match ← m.pageInsert pgdir page addr perm with
          | (false, m) => some (-eNoMem, m)
          | (true, m) => do
            let m ← m.swapMapSwappable mm page
            some (0, { m with praVaddr := update m.praVaddr page addr })
        else some (-eNoMem, m)

/-- The loop of `user_mem_check`. Every round goes on behind another area. -/
def userMemLoop (m : Mem A) (mm stop : Nat) (write : Bool) (start : Nat) : Nat → Option (Bool × Mem A)
  | 0 => none
  | fuel + 1 =>
    if start < stop then
      match m.findVma (some mm) start with
      | (none, m) => some (false, m)
      | (some vma, m) =>
        if start < vma.vmStart then some (false, m)
        else if vma.vmFlags &&& (if write then vmWrite else vmRead) = 0 then some (false, m)
        else if write ∧ vma.vmFlags &&& vmStack ≠ 0 ∧ start < vma.vmStart + pgSize then some (false, m)
        else m.userMemLoop mm stop write vma.vmEnd fuel
    else some (true, m)

def userMemCheck (m : Mem A) (mm : Option Nat) (addr len : Nat) (write : Bool) : Option (Bool × Mem A) :=
  let stop := addW addr len
  match mm with
  | none => some (KernAccess addr stop, m)
  | some mm =>
    if ¬ UserAccess addr stop then some (false, m)
    else m.userMemLoop mm stop write addr ((m.mms mm).mmapList.length + 1)

end Mem

end UCore
