import UCore.Mm.Vmm

namespace UCore
set_option autoImplicit true

def elfMagic : Nat := 0x464C457F
def elfPtLoad : BitVec 32 := 1
def elfPfX : BitVec 32 := 1
def elfPfW : BitVec 32 := 2
def elfPfR : BitVec 32 := 4

/-- The fields of a `struct proghdr` that `load_icode` uses. -/
structure ProgHdr where
  pType : BitVec 32
  pFlags : BitVec 32
  pOffset : BitVec 64
  pVa : BitVec 64
  pFilesz : BitVec 64
  pMemsz : BitVec 64
  deriving DecidableEq, Repr

/-- `sizeof(struct proghdr)`. -/
def progHdrSize : Nat := 56

/-- What `load_icode` does with the pages of a segment: `pgdir_alloc_page` at an address, `memcpy` and
`memset` to an offset of a page, and the assertion. -/
structure SegEnv (σ : Type) where
  pgdirAllocPage : σ → Nat → Option (Option Nat × σ)
  memcpy : σ → Nat → Nat → Nat → Nat → Option σ
  memset : σ → Nat → Nat → Nat → Option σ
  assert : σ → Bool → Option σ

/-- The `off` and `size` for the part of a segment, from `start` to `stop`, in the page at `la`. -/
def segChunk (start la stop : Nat) : Nat × Nat :=
  let off := subW start la
  let size := subW pgSize off
  let la := addW la pgSize
  (off, if stop < la then subW size (subW la stop) else size)

/-- The `off` and `size` for the part of the bss section in the last page of the file part. -/
def bssChunk (start la stop : Nat) : Nat × Nat :=
  let off := subW (addW start pgSize) la
  let size := subW pgSize off
  (off, if stop < la then subW size (subW la stop) else size)

namespace SegEnv
variable {σ : Type} (E : SegEnv σ)

/-- The loop that copies the file part, up to `stop`: the last page, `start` and `la` at its end, or nothing
if an allocation has failed. -/
def copyLoop (stop : Nat) (s : σ) (page : Option Nat) (start la src : Nat) :
    Nat → Option (Option (Option Nat × Nat × Nat) × σ)
  | 0 => none
  | fuel + 1 =>
    if start < stop then do
      match ← E.pgdirAllocPage s la with
      | (none, s) => some (none, s)
      | (some page, s) => do
        let (off, size) := segChunk start la stop
        let s ← E.memcpy s page off src size
        copyLoop stop s (some page) (addW start size) (addW la pgSize) (addW src size) fuel
    else some (some (page, start, la), s)

/-- The loop that clears the pages up to `stop`; the result says whether no allocation has failed. -/
def zeroLoop (stop : Nat) (s : σ) (start la : Nat) : Nat → Option (Bool × σ)
  | 0 => none
  | fuel + 1 =>
    if start < stop then do
      match ← E.pgdirAllocPage s la with
      | (none, s) => some (false, s)
      | (some page, s) => do
        let (off, size) := segChunk start la stop
        let s ← E.memset s page off size
        zeroLoop stop s (addW start size) (addW la pgSize) fuel
    else some (true, s)

/-- The number of rounds after which a loop over pages has been everywhere, and does not end. -/
def rounds : Nat := 2 ^ 52 + 1

/-- The part for the bss section, up to `stop`: the rest of the last page, and the pages behind it. -/
def bssPart (stop : Nat) (s : σ) (page : Option Nat) (start la : Nat) : Option (Bool × σ) :=
  if start < la then
    if start = stop then some (true, s)
    else do
      let (off, size) := bssChunk start la stop
      let s ← E.memset s (← page) off size
      let start := addW start size
      let s ← E.assert s ((stop < la ∧ start = stop) ∨ (stop ≥ la ∧ start = la))
      E.zeroLoop stop s start la rounds
  else E.zeroLoop stop s start la rounds

/-- The part of `load_icode` that fills a segment; the result says whether no allocation has failed. -/
def loadSegment (s : σ) (binary : Nat) (ph : ProgHdr) : Option (Bool × σ) := do
  let va := ph.pVa.toNat
  let src := addW binary ph.pOffset.toNat
  match ← E.copyLoop (addW va ph.pFilesz.toNat) s none va (roundDown va pgSize) src rounds with
  | (none, s) => some (false, s)
  | (some (page, start, la), s) => E.bssPart (addW va ph.pMemsz.toNat) s page start la

end SegEnv

namespace Mem
variable {A : PhysSys}

/-- The byte at an address of the kernel, which sees the memory in one piece. -/
def kbyte (m : Mem A) (a : Nat) : Option (BitVec 8) :=
  if 0xFFFFFFFFC0000000 ≤ a ∧ a < 2 ^ 64 then
    (kva ((a - vaPaOffset) / pgSize)).map fun f => (m.frame f).byte ((a - vaPaOffset) % pgSize)
  else none

/-- The number in the `n` bytes from an address of the kernel on. -/
def kload (m : Mem A) (a : Nat) : Nat → Option Nat
  | 0 => some 0
  | n + 1 => do
    let b ← m.kbyte a
    some (b.toNat + 256 * (← m.kload (addW a 1) n))

def progHdr (m : Mem A) (ph : Nat) : Option ProgHdr := do
  some {
    pType := .ofNat 32 (← m.kload ph 4)
    pFlags := .ofNat 32 (← m.kload (addW ph 4) 4)
    pOffset := .ofNat 64 (← m.kload (addW ph 8) 8)
    pVa := .ofNat 64 (← m.kload (addW ph 16) 8)
    pFilesz := .ofNat 64 (← m.kload (addW ph 32) 8)
    pMemsz := .ofNat 64 (← m.kload (addW ph 40) 8) }

/-- Write into a page. What would go beyond the page has no result. -/
def writePage (m : Mem A) (page off size : Nat) (src : Nat → BitVec 8) : Option (Mem A) :=
  if off + size ≤ pgSize then some (m.setFrame page ((m.frame page).fill off size src)) else none

def memcpyPage (m : Mem A) (page off src size : Nat) : Option (Mem A) :=
  if ∀ i < size, (m.kbyte (addW src i)).isSome then
    m.writePage page off size fun i => (m.kbyte (addW src i)).getD 0
  else none

/-- The pages of a segment in a page directory. -/
def segEnv (pgdir : Nat) (perm : BitVec 32) : SegEnv (Mem A) where
  pgdirAllocPage m la := m.pgdirAllocPage pgdir la perm
  memcpy m page off src size := m.memcpyPage page off src size
  memset m page off size := m.writePage page off size fun _ => 0
  assert m b := if b then some m else none

def segFlags (pFlags : BitVec 32) : BitVec 32 :=
  (if pFlags &&& elfPfX ≠ 0 then vmExec else 0) |||
    (if pFlags &&& elfPfW ≠ 0 then vmWrite else 0) ||| (if pFlags &&& elfPfR ≠ 0 then vmRead else 0)

def segPerm (vmFlags : BitVec 32) : BitVec 32 :=
  pteU ||| pteV ||| (if vmFlags &&& vmRead ≠ 0 then pteR else 0) |||
    (if vmFlags &&& vmWrite ≠ 0 then pteW ||| pteR else 0) |||
      if vmFlags &&& vmExec ≠ 0 then pteX else 0

/-- The loop of `load_icode` over the program headers, with the value in `ret`. -/
def loadSegments (m : Mem A) (mm binary phEnd ph : Nat) : Nat → Option (Int × Mem A)
  | 0 => none
  | fuel + 1 =>
    if ph < phEnd then do
      let hdr ← m.progHdr ph
      if hdr.pType ≠ elfPtLoad then m.loadSegments mm binary phEnd (addW ph progHdrSize) fuel
      else if hdr.pFilesz > hdr.pMemsz then some (-eInvalElf, m)
      else do
        let vmFlags := segFlags hdr.pFlags
        let (ret, m) ← m.mmMap mm hdr.pVa.toNat hdr.pMemsz.toNat vmFlags
        if ret ≠ 0 then some (ret, m)
        else do
          let pgdir ← (m.mms mm).pgdir
          match ← (segEnv pgdir (segPerm vmFlags)).loadSegment m binary hdr with
          | (false, m) => some (-eNoMem, m)
          | (true, m) => m.loadSegments mm binary phEnd (addW ph progHdrSize) fuel
    else some (0, m)

/-- The assertion that a stack page can be allocated. -/
def stackPage (m : Mem A) (pgdir la : Nat) : Option (Mem A) := do
  match ← m.pgdirAllocPage pgdir la pteUser with
  | (none, _) => none
  | (some _, m) => some m

/-- The part of `load_icode` for the user stack, with the value in `ret`. -/
def loadStack (m : Mem A) (mm : Nat) : Option (Int × Mem A) := do
  let (ret, m) ← m.mmMap mm (ustackTop - ustackSize) ustackSize (vmRead ||| vmWrite ||| vmStack)
  if ret ≠ 0 then some (ret, m)
  else do
    let pgdir ← (m.mms mm).pgdir
    let m ← m.stackPage pgdir (ustackTop - pgSize)
    let m ← m.stackPage pgdir (ustackTop - 2 * pgSize)
    let m ← m.stackPage pgdir (ustackTop - 3 * pgSize)
    let m ← m.stackPage pgdir (ustackTop - 4 * pgSize)
    some (0, m)

/-- The cleanup of `load_icode` from `bad_cleanup_mmap` on. -/
def badCleanupMmap (m : Mem A) (mm : Nat) : Option (Mem A) := do
  let m ← m.exitMmap mm
  let m ← m.putPgdir mm
  m.mmDestroy mm

end Mem

/-- What `load_icode` sets for the current process when it succeeds. -/
structure Loaded where
  mm : Nat
  cr3 : Nat
  sp : Nat
  epc : Nat
  deriving DecidableEq, Repr

namespace Mem
variable {A : PhysSys}

/-- `load_icode` for a process with the address space `cur`: the value it returns, and what it sets. -/
def loadIcode (m : Mem A) (cur : Option Nat) (binary : Nat) : Option (Int × Option Loaded × Mem A) :=
  if cur ≠ none then none
  else
    match m.mmCreate with
    | (none, m) => some (-eNoMem, none, m)
    | (some mm, m) => do
      match ← m.setupPgdir mm with
      | (false, m) => some (-eNoMem, none, ← m.mmDestroy mm)
      | (true, m) => do
        let ph := addW binary (← m.kload (addW binary 32) 8)
        if (← m.kload binary 4) ≠ elfMagic then do
          let m ← m.putPgdir mm
          some (-eInvalElf, none, ← m.mmDestroy mm)
        else do
          let ePhnum ← m.kload (addW binary 56) 2
          let (ret, m) ← m.loadSegments mm binary (addW ph (ePhnum * progHdrSize)) ph (ePhnum + 1)
          if ret ≠ 0 then some (ret, none, ← m.badCleanupMmap mm)
          else do
            let (ret, m) ← m.loadStack mm
            if ret ≠ 0 then some (ret, none, ← m.badCleanupMmap mm)
            else do
              let m := m.setMm mm { m.mms mm with mmCount := (m.mms mm).mmCount + 1 }
              let pgdir ← (m.mms mm).pgdir
              let epc ← m.kload (addW binary 24) 8
              some (0, some ⟨mm, pgdir * pgSize, ustackTop, epc⟩, m)

end Mem

end UCore
