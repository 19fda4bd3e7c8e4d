import Mathlib.Data.Finset.Insert
import UCore.Process.LoadCreated

namespace UCore
set_option autoImplicit true

namespace Mem
open Function (update)
variable {A : PhysSys}

/-- `pgfault_handler`, for a process that is not `idleproc`. -/
def pgfaultHandler (m : Mem A) (mm : Option Nat) (addr : Nat) : Option (Int × Mem A) :=
  if m.checkMm ≠ none then none else m.doPgfault mm addr

/-- An access of the kernel to a user address: the frame and the offset in it, after the faults that it takes. -/
def touch (m : Mem A) (mm addr : Nat) (perm : BitVec 32) : Nat → Option ((Nat × Nat) × Mem A)
  | 0 => none
  | fuel + 1 => do
    match (m.translate (← (m.mms mm).pgdir) addr).filter fun r => r.2 &&& perm ≠ 0 with
    | some (pa, _) => (kva (pa / pgSize)).map fun f => ((f, pa % pgSize), m)
    | none => do
      let (ret, m) ← m.pgfaultHandler (some mm) addr
      if ret ≠ 0 then none else m.touch mm addr perm fuel

/-- The read of a byte, through the addresses of the kernel if there is no address space. -/
def readByte (m : Mem A) (mm : Option Nat) (addr : Nat) : Option (Mem A) :=
  match mm with
  | none => (m.kbyte addr).map fun _ => m
  | some mm => (m.touch mm addr pteR SegEnv.rounds).map Prod.snd

def writeByte (m : Mem A) (mm : Option Nat) (addr : Nat) (b : BitVec 8) : Option (Mem A) :=
  match mm with
  | none => do
    let _ ← m.kbyte addr
    m.writePage ((addr - vaPaOffset) / pgSize) ((addr - vaPaOffset) % pgSize) 1 fun _ => b
  | some mm => do
    let ((f, off), m) ← m.touch mm addr pteW SegEnv.rounds
    m.writePage f off 1 fun _ => b

def readBytes (m : Mem A) (mm : Option Nat) (addr : Nat) : Nat → Option (Mem A)
  | 0 => some m
  | len + 1 => do
    let m ← m.readByte mm addr
    m.readBytes mm (addW addr 1) len

/-- The store of an `int`, from its lowest byte on. -/
def writeInt (m : Mem A) (mm : Option Nat) (addr : Nat) (v : BitVec 32) : Nat → Option (Mem A)
  | 0 => some m
  | n + 1 => do
    let m ← m.writeByte mm addr (v.setWidth 8)
    m.writeInt mm (addW addr 1) (v >>> 8) n

/-- The pages of `free_pages`. -/
def freeRun (m : Mem A) (p n : Nat) : Mem A :=
  { m with phys := A.freePages m.phys p n, ref := fun f => if p ≤ f ∧ f < p + n then 0 else m.ref f }

end Mem

/-- `KSTACKPAGE`. -/
def kstackPage : Nat := 2

def page2kva (p : Nat) : Nat := p * pgSize + vaPaOffset

theorem page2kva_inj (h : page2kva t = page2kva u) : t = u := by
  unfold page2kva pgSize at h
  omega

/-- The frame of a page through `kva2page`, which panics for an address below the kernel and behind the memory. -/
def kva2page (a : Nat) : Option Nat := if a < kernBase then none else kva ((a - vaPaOffset) / pgSize)

/-- The memory with the blocks of the `proc_struct`s. The `mm_struct`s that their last user has left are in `torn`,
the last one first, for the statements only. -/
structure KMem (A : PhysSys) where
  mem : Mem A
  procs : Finset Nat
  torn : List Nat
  ok : HeapOk mem procs

section
variable {A : PhysSys} {m m' m'' : Mem A} {procs : Finset Nat}

namespace SameSpaces

theorem pgfaultHandler (h : m.pgfaultHandler mm addr = some (ret, m')) : SameSpaces m m' := by
  unfold Mem.pgfaultHandler at h
  split at h
  · cases h
  · exact doPgfault h

theorem touch (h : m.touch mm addr perm fuel = some (r, m')) : SameSpaces m m' := by
  induction fuel generalizing m with
  | zero => cases h
  | succ fuel ih =>
    obtain ⟨d, -, h⟩ := Option.bind_eq_some_iff.1 h
    split at h
    · obtain ⟨f, -, h⟩ := Option.map_eq_some_iff.1 h
      cases h
      exact .refl _
    · obtain ⟨⟨ret, m₁⟩, hf, h⟩ := Option.bind_eq_some_iff.1 h
      dsimp only at h
      split at h
      · cases h
      · exact (pgfaultHandler hf).trans (ih h)

theorem readByte (h : m.readByte mm addr = some m') : SameSpaces m m' := by
  cases mm with
  | none =>
    obtain ⟨b, -, h⟩ := Option.map_eq_some_iff.1 h
    cases h
    exact .refl _
  | some mm =>
    obtain ⟨⟨r, m₁⟩, ht, h⟩ := Option.map_eq_some_iff.1 h
    cases h
    exact touch ht

theorem writeByte (h : m.writeByte mm addr b = some m') : SameSpaces m m' := by
  cases mm with
  | none =>
    obtain ⟨b, -, h⟩ := Option.bind_eq_some_iff.1 h
    exact writePage h
  | some mm =>
    obtain ⟨⟨r, m₁⟩, ht, h⟩ := Option.bind_eq_some_iff.1 h
    exact (touch ht).trans (writePage h)

theorem readBytes (h : m.readBytes mm addr len = some m') : SameSpaces m m' := by
  induction len generalizing m addr with
  | zero =>
    cases h
    exact .refl _
  | succ len ih =>
    obtain ⟨m₁, hb, h⟩ := Option.bind_eq_some_iff.1 h
    exact (readByte hb).trans (ih h)

theorem writeInt (h : m.writeInt mm addr v n = some m') : SameSpaces m m' := by
  induction n generalizing m addr v with
  | zero =>
    cases h
    exact .refl _
  | succ n ih =>
    obtain ⟨m₁, hb, h⟩ := Option.bind_eq_some_iff.1 h
    exact (writeByte hb).trans (ih h)

theorem freeRun (m : Mem A) (p n : Nat) : SameSpaces m (m.freeRun p n) :=
  ⟨fun _ => rfl, rfl, A.freePages_live, fun _ ht => ht⟩

end SameSpaces

end

namespace KMem
variable {A : PhysSys}

/-- The memory after an operation that leaves the blocks of the heap alone. -/
def withMem (m : KMem A) (m' : Mem A) (h : HeapOk m' m.procs) : KMem A := { m with mem := m', ok := h }

/-- An operation that returns a value and may panic. -/
def lift (m : KMem A) (r : Option (β × Mem A)) (h : ∀ x ∈ r, HeapOk x.2 m.procs) : Option (β × KMem A) :=
  r.pmap (fun x hx => (x.1, m.withMem x.2 hx)) h

def kmallocProc (m : KMem A) : Option Nat × KMem A :=
  match hk : A.kmalloc m.mem.phys with
  | (some p, s) =>
    (some p, { m with mem := m.mem.setPhys s, procs := insert p m.procs, ok := (m.ok.kmallocProc hk).1 })
  | (none, s) => (none, m.withMem (m.mem.setPhys s).fail (m.ok.same (.kmallocNone hk)))

/-- Only blocks that `alloc_proc` has obtained are given back. -/
def kfreeProc (m : KMem A) (p : Nat) : KMem A :=
  if hp : p ∈ m.procs then { m with mem := m.mem.kfree p, procs := m.procs.erase p, ok := m.ok.kfreeProc hp } else m

/-- No page is swapped out for a run of several pages, so that `alloc_pages` cannot panic. -/
def allocKstack (m : KMem A) : Option Nat × KMem A :=
  match ha : m.mem.allocPages kstackPage with
  | some (r, m') => (r.map page2kva, m.withMem m' (m.ok.same (.allocPages ha)))
  | none => (none, m)

def freeKstack (m : KMem A) (a : Nat) : Option (KMem A) :=
  (kva2page a).map fun p => m.withMem (m.mem.freeRun p kstackPage) (m.ok.same (.freeRun m.mem p kstackPage))

def copyMm (m : KMem A) (cloneFlags : BitVec 32) (oldmm : Option Nat) :
    Option ((Int × Option (Nat × Nat)) × KMem A) :=
  m.lift ((m.mem.copyMm cloneFlags oldmm).map fun r => ((r.1, r.2.1), r.2.2)) fun x hx => by
    obtain ⟨⟨ret, new, m'⟩, hc, rfl⟩ := Option.map_eq_some_iff.1 hx
    exact copyMm_heap m.ok hc

/-- The `mm_struct` has to be one that exists. -/
def dropMm (m : KMem A) (mm : Nat) : Option (KMem A) :=
  if hm : mm ∈ m.mem.spaces then
    (m.mem.dropMm mm).pmap (fun m' h =>
      { m with mem := m', torn := if mm ∈ m'.spaces then m.torn else mm :: m.torn, ok := h })
      fun _ h => (dropMm_cases m.ok hm h).1
  else none

/-- `load_icode` for a process without an address space. It does not look at the size. -/
def loadIcode (m : KMem A) (binary _size : Nat) : Option ((Int × Option (Nat × Nat)) × KMem A) :=
  m.lift ((m.mem.loadIcode none binary).map fun r => ((r.1, r.2.1.map fun l => (l.mm, l.cr3)), r.2.2)) fun x hx => by
    obtain ⟨⟨ret, ld, m'⟩, hl, rfl⟩ := Option.map_eq_some_iff.1 hx
    exact (loadIcode_created m.ok hl).heap

/-- The loop of `user_mem_check` ends for every `mm_struct` that exists. -/
def userMemCheck (m : KMem A) (mm : Option Nat) (addr len : Nat) (write : Bool) : Bool × KMem A :=
  match hc : m.mem.userMemCheck mm addr len write with
  | some (b, m') => (b, m.withMem m' (m.ok.same (.userMemCheck hc)))
  | none => (false, m)

def readUser (m : KMem A) (mm : Option Nat) (addr len : Nat) : Option (KMem A) :=
  (m.mem.readBytes mm addr len).pmap m.withMem fun _ h => m.ok.same (.readBytes h)

def storeInt (m : KMem A) (mm : Option Nat) (addr : Nat) (v : Int) : Option (KMem A) :=
  (m.mem.writeInt mm addr (BitVec.ofInt 32 v) 4).pmap m.withMem fun _ h => m.ok.same (.writeInt h)

def doPgfault (m : KMem A) (mm : Option Nat) (_cause addr : Nat) : Option (Int × KMem A) :=
  m.lift (m.mem.pgfaultHandler mm addr) fun _ hx => m.ok.same (.pgfaultHandler hx)

end KMem

/-- The operation has left the `mm_struct`s and the blocks of the heap alone. -/
structure SameBlocks {A : PhysSys} (m m' : KMem A) : Prop where
  same : SameSpaces m.mem m'.mem
  procs : m'.procs = m.procs
  torn : m'.torn = m.torn

section
variable {A : PhysSys} {m m' : KMem A}

theorem lift_eq {r : Option (β × Mem A)} {h : ∀ x ∈ r, HeapOk x.2 m.procs} (hl : m.lift r h = some (b, m')) :
    r = some (b, m'.mem) ∧ m'.procs = m.procs ∧ m'.torn = m.torn := by
  obtain ⟨x, hx, hr, he⟩ := Option.pmap_eq_some_iff.1 hl
  cases he
  exact ⟨hr, rfl, rfl⟩

theorem withMem_eq {r : Option (Mem A)} {h : ∀ x ∈ r, HeapOk x m.procs} (hw : r.pmap m.withMem h = some m') :
    r = some m'.mem ∧ m'.procs = m.procs ∧ m'.torn = m.torn := by
  obtain ⟨x, hx, hr, he⟩ := Option.pmap_eq_some_iff.1 hw
  cases he
  exact ⟨hr, rfl, rfl⟩

theorem kmallocProc_some (h : m.kmallocProc = (some p, m')) : p ∉ m.procs ∧ m'.procs = insert p m.procs ∧
    m'.torn = m.torn ∧ m'.mem.mms = m.mem.mms ∧ m'.mem.spaces = m.mem.spaces := by
  unfold KMem.kmallocProc at h
  split at h
  · rename_i q s hk
    cases h
    exact ⟨(m.ok.kmallocProc hk).2, rfl, rfl, rfl, rfl⟩
  · cases h

theorem kfreeProc_some (hp : p ∈ m.procs) : (m.kfreeProc p).procs = m.procs.erase p ∧
    (m.kfreeProc p).torn = m.torn ∧ (m.kfreeProc p).mem.mms = m.mem.mms ∧
    (m.kfreeProc p).mem.spaces = m.mem.spaces := by
  rw [KMem.kfreeProc, dif_pos hp]
  exact ⟨rfl, rfl, rfl, rfl⟩

namespace SameBlocks

theorem kmallocProc (h : m.kmallocProc = (none, m')) : SameBlocks m m' := by
  unfold KMem.kmallocProc at h
  split at h
  · cases h
  · rename_i s hk
    cases h
    exact ⟨.kmallocNone hk, rfl, rfl⟩

theorem allocKstack (h : m.allocKstack = (r, m')) : SameBlocks m m' := by
  unfold KMem.allocKstack at h
  split at h
  · rename_i x m₁ ha
    cases h
    exact ⟨.allocPages ha, rfl, rfl⟩
  · cases h
    exact ⟨.refl _, rfl, rfl⟩

theorem freeKstack (h : m.freeKstack a = some m') : SameBlocks m m' := by
  obtain ⟨p, -, h⟩ := Option.map_eq_some_iff.1 h
  cases h
  exact ⟨.freeRun .., rfl, rfl⟩

theorem userMemCheck (h : m.userMemCheck mm addr len write = (b, m')) : SameBlocks m m' := by
  unfold KMem.userMemCheck at h
  split at h
  · rename_i x m₁ hc
    cases h
    exact ⟨.userMemCheck hc, rfl, rfl⟩
  · cases h
    exact ⟨.refl _, rfl, rfl⟩

theorem readUser (h : m.readUser mm addr len = some m') : SameBlocks m m' := by
  obtain ⟨hr, hp, ht⟩ := withMem_eq h
  exact ⟨.readBytes hr, hp, ht⟩

theorem storeInt (h : m.storeInt mm addr v = some m') : SameBlocks m m' := by
  obtain ⟨hr, hp, ht⟩ := withMem_eq h
  exact ⟨.writeInt hr, hp, ht⟩

theorem doPgfault (h : m.doPgfault mm cause addr = some (ret, m')) : SameBlocks m m' := by
  obtain ⟨hr, hp, ht⟩ := lift_eq h
  exact ⟨.pgfaultHandler hr, hp, ht⟩

end SameBlocks

theorem copyMm_eq (h : m.copyMm fl old = some ((ret, new), m')) :
    m.mem.copyMm fl old = some (ret, new, m'.mem) ∧ m'.procs = m.procs ∧ m'.torn = m.torn := by
  obtain ⟨hr, hp, ht⟩ := lift_eq h
  obtain ⟨⟨ret', new', m₁⟩, hc, he⟩ := Option.map_eq_some_iff.1 hr
  cases he
  exact ⟨hc, hp, ht⟩

theorem loadIcode_eq (h : m.loadIcode binary size = some ((ret, new), m')) :
    ∃ ld, m.mem.loadIcode none binary = some (ret, ld, m'.mem) ∧ new = ld.map (fun l => (l.mm, l.cr3)) ∧
      m'.procs = m.procs ∧ m'.torn = m.torn := by
  obtain ⟨hr, hp, ht⟩ := lift_eq h
  obtain ⟨⟨ret', ld, m₁⟩, hl, he⟩ := Option.map_eq_some_iff.1 hr
  cases he
  exact ⟨ld, hl, rfl, hp, ht⟩

theorem dropMm_eq (h : m.dropMm mm = some m') : mm ∈ m.mem.spaces ∧ m.mem.dropMm mm = some m'.mem ∧
    m'.procs = m.procs ∧ m'.torn = if mm ∈ m'.mem.spaces then m.torn else mm :: m.torn := by
  unfold KMem.dropMm at h
  split at h
  · rename_i hm
    obtain ⟨x, hx, hd, he⟩ := Option.pmap_eq_some_iff.1 h
    cases he
    exact ⟨hm, hd, rfl, rfl⟩
  · cases h

end

/-- The memory side of the kernel with its page tables and areas. -/
def pagingSys (A : PhysSys) (bootstack : Nat) : MemSys where
  σ := KMem A
  boot m := m.procs = ∅ ∧ m.mem.spaces = []
  bootCr3 := A.bootPgdir * pgSize
  bootstack := bootstack
  live m p := p ∈ m.procs
  kmallocProc := KMem.kmallocProc
  kfreeProc := KMem.kfreeProc
  allocKstack := KMem.allocKstack
  freeKstack := KMem.freeKstack
  copyMm m fl mm := (m.copyMm fl mm).map fun r => (r.1.1, r.1.2, r.2)
  dropMm := KMem.dropMm
  loadIcode m binary size := (m.loadIcode binary size).map fun r => (r.1.1, r.1.2, r.2)
  userMemCheck := KMem.userMemCheck
  readUser := KMem.readUser
  storeInt := KMem.storeInt
  doPgfault := KMem.doPgfault
  boot_live h := by
    rw [h.1]
    exact Finset.notMem_empty _
  kmallocProc_fresh h := (kmallocProc_some h).1
  kmallocProc_live {m r m' q} h := by
    cases r with
    | none =>
      rw [(SameBlocks.kmallocProc h).procs]
      simp
    | some p =>
      rw [(kmallocProc_some h).2.1, Finset.mem_insert, or_comm, Option.some.injEq, eq_comm]
  kfreeProc_live {m p q} := by
    by_cases hp : p ∈ m.procs
    · rw [(kfreeProc_some hp).1, Finset.mem_erase, and_comm]
    · rw [KMem.kfreeProc, dif_neg hp]
      refine (and_iff_left_of_imp fun hq => ?_).symm
      rintro rfl
      exact hp hq
  allocKstack_live h := by rw [(SameBlocks.allocKstack h).procs]
  freeKstack_live h := by rw [(SameBlocks.freeKstack h).procs]
  copyMm_live h := by
    obtain ⟨r, hr, he⟩ := Option.map_eq_some_iff.1 h
    cases he
    rw [(copyMm_eq hr).2.1]
  dropMm_live h := by rw [(dropMm_eq h).2.2.1]
  loadIcode_live h := by
    obtain ⟨r, hr, he⟩ := Option.map_eq_some_iff.1 h
    cases he
    obtain ⟨ld, -, -, hp, -⟩ := loadIcode_eq hr
    rw [hp]
  userMemCheck_live h := by rw [(SameBlocks.userMemCheck h).procs]
  readUser_live h := by rw [(SameBlocks.readUser h).procs]
  storeInt_live h := by rw [(SameBlocks.storeInt h).procs]
  doPgfault_live h := by rw [(SameBlocks.doPgfault h).procs]

end UCore
