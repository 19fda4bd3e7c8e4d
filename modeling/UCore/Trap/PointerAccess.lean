import UCore.Process.LoadDrop
import UCore.Trap.CallMm

namespace UCore
set_option autoImplicit true
open Function (update)

/-- The bytes that the loop over the file part of a segment reads. -/
inductive CopyReads {σ : Type} (E : SegEnv σ) (stop : Nat) : σ → Nat → Nat → Nat → Nat → Nat → Prop where
  | here : start < stop → E.pgdirAllocPage s la = some (some p, t) →
      CopyReads E stop s start la src src (segChunk start la stop).2
  | next : start < stop → E.pgdirAllocPage s la = some (some p, t) →
      E.memcpy t p (segChunk start la stop).1 src (segChunk start la stop).2 = some u →
      CopyReads E stop u (addW start (segChunk start la stop).2) (addW la pgSize)
        (addW src (segChunk start la stop).2) addr len →
      CopyReads E stop s start la src addr len

/-- The bytes that the loop over the program headers reads: the fields of each header, the type first, and the file
part of its segment. -/
inductive LoadReads {A : PhysSys} (mm binary phEnd : Nat) : Mem A → Nat → Nat → Nat → Prop where
  | type : ph < phEnd → LoadReads mm binary phEnd m ph ph 4
  | field : ph < phEnd → m.progHdr ph = some hdr → hdr.pType = elfPtLoad →
      (off, len) ∈ [(4, 4), (8, 8), (16, 8), (32, 8), (40, 8)] →
      LoadReads mm binary phEnd m ph (addW ph off) len
  | skip : ph < phEnd → m.progHdr ph = some hdr → hdr.pType ≠ elfPtLoad →
      LoadReads mm binary phEnd m (addW ph progHdrSize) addr len → LoadReads mm binary phEnd m ph addr len
  | data : ph < phEnd → m.progHdr ph = some hdr → hdr.pType = elfPtLoad → ¬ hdr.pFilesz > hdr.pMemsz →
      m.mmMap mm hdr.pVa.toNat hdr.pMemsz.toNat (Mem.segFlags hdr.pFlags) = some (0, m₁) →
      (m₁.mms mm).pgdir = some d →
      CopyReads (Mem.segEnv d (Mem.segPerm (Mem.segFlags hdr.pFlags))) (addW hdr.pVa.toNat hdr.pFilesz.toNat) m₁
        hdr.pVa.toNat (roundDown hdr.pVa.toNat pgSize) (addW binary hdr.pOffset.toNat) addr len →
      LoadReads mm binary phEnd m ph addr len
  | next : ph < phEnd → m.progHdr ph = some hdr → hdr.pType = elfPtLoad → ¬ hdr.pFilesz > hdr.pMemsz →
      m.mmMap mm hdr.pVa.toNat hdr.pMemsz.toNat (Mem.segFlags hdr.pFlags) = some (0, m₁) →
      (m₁.mms mm).pgdir = some d →
      (Mem.segEnv d (Mem.segPerm (Mem.segFlags hdr.pFlags))).loadSegment m₁ binary hdr = some (true, m₂) →
      LoadReads mm binary phEnd m₂ (addW ph progHdrSize) addr len → LoadReads mm binary phEnd m ph addr len

/-- The bytes of the image that `load_icode` reads, from the ELF header on. -/
inductive ImageReads {A : PhysSys} (m : Mem A) (binary : Nat) : Nat → Nat → Prop where
  | phoff : m.mmCreate = (some mm, m₁) → m₁.setupPgdir mm = some (true, m₂) → ImageReads m binary (addW binary 32) 8
  | magic : m.mmCreate = (some mm, m₁) → m₁.setupPgdir mm = some (true, m₂) →
      m₂.kload (addW binary 32) 8 = some phoff → ImageReads m binary binary 4
  | phnum : m.mmCreate = (some mm, m₁) → m₁.setupPgdir mm = some (true, m₂) →
      m₂.kload (addW binary 32) 8 = some phoff → m₂.kload binary 4 = some elfMagic →
      ImageReads m binary (addW binary 56) 2
  | segments : m.mmCreate = (some mm, m₁) → m₁.setupPgdir mm = some (true, m₂) →
      m₂.kload (addW binary 32) 8 = some phoff → m₂.kload binary 4 = some elfMagic →
      m₂.kload (addW binary 56) 2 = some phnum →
      LoadReads mm binary (addW (addW binary phoff) (phnum * progHdrSize)) m₂ (addW binary phoff) addr len →
      ImageReads m binary addr len
  | entry : m.mmCreate = (some mm, m₁) → m₁.setupPgdir mm = some (true, m₂) →
      m₂.kload (addW binary 32) 8 = some phoff → m₂.kload binary 4 = some elfMagic →
      m₂.kload (addW binary 56) 2 = some phnum →
      m₂.loadSegments mm binary (addW (addW binary phoff) (phnum * progHdrSize)) (addW binary phoff) (phnum + 1) =
        some (0, m₃) → m₃.loadStack mm = some (0, m₄) →
      ImageReads m binary (addW binary 24) 8

/-- A call of `user_mem_check` that returned 1: the process, its address space, and the arguments. -/
structure Check where
  proc : Nat
  mm : Option Nat
  addr : Nat
  len : Nat
  write : Bool
  deriving DecidableEq, Repr

namespace Kernel
variable {A : PhysSys} {bs : Nat}

/-- The checks of a call, if `user_mem_check` returns 1. -/
def checks (k : Kernel (pagingSys A bs)) : Call → List Check
  | .wait _ (some a) =>
    if (k.kmem.userMemCheck (k.mm k.current) a 4 true).1 then [⟨k.current, k.mm k.current, a, 4, true⟩] else []
  | .execve name len _ _ =>
    if (k.kmem.userMemCheck (k.mm k.current) name len false).1 then [⟨k.current, k.mm k.current, name, len, false⟩]
    else []
  | _ => []

/-- The call from `k` reads or writes the bytes through a pointer argument, in the state `k'`. -/
inductive Accesses (k : Kernel (pagingSys A bs)) : Call → Kernel (pagingSys A bs) → Nat → Nat → Bool → Prop where
  | store : k.kmem.userMemCheck (k.mm k.current) a 4 true = (true, m) →
      (k.setMem m).waitScan child = some (.found p) → p ≠ k.idleproc → p ≠ k.initproc →
      Accesses k (.wait child (some a)) (k.setMem m) a 4 true
  | storeLater : k.ctl k.current = .waiting via child (some a) → k.flags k.current &&& pfExiting = 0 →
      k.waitScan child = some (.found p) → p ≠ k.idleproc → p ≠ k.initproc → Accesses k .resume k a 4 true
  | name : k.kmem.userMemCheck (k.mm k.current) name len false = (true, m) →
      Accesses k (.execve name len binary size) (k.setMem m) name (if procNameLen < len then procNameLen else len) false
  | image : k.kmem.userMemCheck (k.mm k.current) name len false = (true, m) →
      m.readUser (k.mm k.current) name (if procNameLen < len then procNameLen else len) = some m₁ →
      (k.setMem m₁).exitMm = some k₁ → ImageReads k₁.kmem.mem binary addr n →
      Accesses k (.execve name len binary size) k₁ addr n false

/-- The areas of an address space allow to read or write the bytes. -/
def allows (k : Kernel (pagingSys A bs)) (x addr len : Nat) (write : Bool) : Prop :=
  ∀ i < len, ∃ vma ∈ (k.mmStruct x).mmapList, vma.Covers (addW addr i) ∧ vma.Allows write (addW addr i)

/-- The bytes lie in a range that `user_mem_check` has accepted for the current process and its address space, and
its areas still allow the access. -/
def validated (k : Kernel (pagingSys A bs)) (log : List Check) (addr len : Nat) (write : Bool) : Prop :=
  (∃ chk ∈ log, chk.proc = k.current ∧ chk.mm = k.mm k.current ∧ chk.write = write ∧
    ∀ i < len, ∃ j < chk.len, addW addr i = addW chk.addr j) ∧
  ∃ x, k.mm k.current = some x ∧ k.allows x addr len write

/-- The call is `sys_exec` with a name that is accepted, and there is memory for the new `mm_struct` and its page
directory. -/
def readsImage (k : Kernel (pagingSys A bs)) : Call → Prop
  | .execve name len _ _ => ∃ m m₁ k₁ mm m₂ m₃, k.kmem.userMemCheck (k.mm k.current) name len false = (true, m) ∧
      m.readUser (k.mm k.current) name (if procNameLen < len then procNameLen else len) = some m₁ ∧
      (k.setMem m₁).exitMm = some k₁ ∧ k₁.kmem.mem.mmCreate = (some mm, m₂) ∧ m₂.setupPgdir mm = some (true, m₃)
  | _ => False

end Kernel

/-- The arguments that are sizes have 64 bits. -/
def Call.Sized : Call → Prop
  | .execve _ len _ size => len < 2 ^ 64 ∧ size < 2 ^ 64
  | _ => True

instance (c : Call) : Decidable c.Sized :=
  match c with
  | .execve _ len _ size => inferInstanceAs (Decidable (len < 2 ^ 64 ∧ size < 2 ^ 64))
  | .fork _ | .exit _ | .wait _ _ | .kill _ | .yield | .fault _ _ | .tick _ | .schedule | .select | .resume => .isTrue trivial

/-- The kernel with the checks that have been accepted so far. -/
structure CheckState (A : PhysSys) (bs : Nat) where
  kernel : Kernel (pagingSys A bs)
  log : List Check

def checkMachine (A : PhysSys) (bs : Nat) : Machine (CheckState A bs) Call where
  init s := (callMachine (pagingSys A bs)).init s.kernel ∧ s.log = []
  enabled s c := s.kernel.callable c ∧ c.Sized
  next s c := (s.kernel.call c).map fun r => ⟨r.2, s.log ++ s.kernel.checks c⟩

section
variable {A : PhysSys} {bs : Nat} {k k' : Kernel (pagingSys A bs)}

theorem allows_congr (hm : (k'.mmStruct x).map = (k.mmStruct x).map) :
    k'.allows x addr len write ↔ k.allows x addr len write := by
  unfold Kernel.allows
  rw [show (k'.mmStruct x).mmapList = (k.mmStruct x).mmapList from congrArg Prod.fst hm]

/-- The areas allow what `user_mem_check` accepts. -/
theorem userMemCheck_allows (hx : x ∈ k.spaces) (hl : len < 2 ^ 64)
    (hc : k.kmem.userMemCheck (some x) addr len write = (true, m)) : k.allows x addr len write := by
  obtain ⟨b, c, hr, -, hb⟩ := userMemCheck_spec (k.kmem.ok.tidy x hx) addr len write
  have htrue : b = true := by
    unfold KMem.userMemCheck at hc
    split at hc
    · rename_i b' m' hs
      cases hc
      exact congrArg Prod.fst (Option.some.inj (hr.symm.trans hs))
    · cases hc
  obtain ⟨⟨hbase, hlt, htop⟩, hall⟩ := hb.1 htrue
  have hwrap : addr + len < 2 ^ 64 := by
    unfold addW userBase userTop at *
    omega
  intro i hi
  have hai : addW addr i = addr + i := Nat.mod_eq_of_lt (by omega)
  have hal : addW addr len = addr + len := Nat.mod_eq_of_lt hwrap
  rw [hai]
  exact hall (addr + i) (Nat.le_add_right ..) (by omega)

/-- What the bytes of an accepted range are used for right after the check is validated. -/
theorem validated_check (hx : k.mm k.current = some x) (hs : x ∈ k.spaces) (hl : len < 2 ^ 64)
    (hc : k.kmem.userMemCheck (k.mm k.current) addr len write = (true, m))
    (hlog : ⟨k.current, k.mm k.current, addr, len, write⟩ ∈ log) (hn : n ≤ len) :
    (k.setMem m).validated log addr n write := by
  refine ⟨⟨_, hlog, rfl, rfl, rfl, fun i hi => ⟨i, Nat.lt_of_lt_of_le hi hn, rfl⟩⟩, x, hx, ?_⟩
  have hmap : ((k.setMem m).mmStruct x).map = (k.mmStruct x).map :=
    MmStruct.map_eq ((SameBlocks.userMemCheck hc).same.fixed x)
  rw [hx] at hc
  exact (allows_congr hmap).2 fun i hi => userMemCheck_allows hs hl hc i (Nat.lt_of_lt_of_le hi hn)

/-- `load_icode` reads the ELF header when the process has no address space any more. -/
theorem readsImage_breaks (h : k.readsImage c) :
    ∃ k₁ addr n write, k.Accesses c k₁ addr n write ∧ ∀ log, ¬ k₁.validated log addr n write := by
  cases c with
  | execve name len binary size =>
    obtain ⟨m, m₁, k₁, mm, m₂, m₃, hm, hr, he, hc, hp⟩ := h
    refine ⟨k₁, _, _, _, .image hm hr he (.phoff hc hp), ?_⟩
    rintro log ⟨-, x, hx, -⟩
    obtain ⟨hmm, hcur⟩ := exitMm_mm he
    rw [hmm, hcur, Function.update_self] at hx
    cases hx
  | fork | exit | wait | kill | yield | fault | tick | schedule | select | resume => exact h.elim

theorem ImageReads.room {m : Mem A} (h : ImageReads m binary addr n) :
    ∃ mm m₁ m₂, m.mmCreate = (some mm, m₁) ∧ m₁.setupPgdir mm = some (true, m₂) := by
  cases h with
  | phoff hc hp => exact ⟨_, _, _, hc, hp⟩
  | magic hc hp => exact ⟨_, _, _, hc, hp⟩
  | phnum hc hp => exact ⟨_, _, _, hc, hp⟩
  | segments hc hp => exact ⟨_, _, _, hc, hp⟩
  | entry hc hp => exact ⟨_, _, _, hc, hp⟩

end

/-- With an address space that `load_icode` has just built, a call of `sys_exec` reads the image. -/
theorem LoadedMem.readsImage {k : Kernel (pagingSys framePool bs)} (h : LoadedMem x d b hdrs m role k.kmem.mem)
    (hd : role d = .node d []) (hx : k.mm k.current = some x) (hs : x ∈ k.spaces)
    (hcount : (k.mmStruct x).mmCount = 1) (hswap : k.kmem.mem.swapInitOk = false)
    (hc : (k.kmem.userMemCheck (some x) name 1 false).1 = true)
    (ht : (k.kmem.mem.translate d name).any (fun r => decide (r.2 &&& pteR ≠ 0 ∧ r.1 / pgSize < npage)) = true) :
    k.readsImage (.execve name 1 binary size) := by
  obtain ⟨m₁, c, hcheck, hmem⟩ := userMemCheck_cache hs hc
  have hdir : (m₁.mem.mms x).pgdir = some d := by
    rw [hmem, Mem.setCache, setMm_self]
    exact h.pgdir
  have htouch : m₁.mem.readBytes (some x) name 1 = some m₁.mem := by
    unfold Mem.readBytes Mem.readByte
    dsimp only
    rw [show SegEnv.rounds = 2 ^ 52 + 1 from rfl, touch_mapped hdir (by rw [hmem]; exact ht)]
    rfl
  obtain ⟨m₂, hread, hmem₂⟩ : ∃ m₂, m₁.readUser (some x) name 1 = some m₂ ∧ m₂.mem = m₁.mem :=
    ⟨_, Option.pmap_eq_some_iff.2 ⟨m₁.mem, _, htouch, rfl⟩, rfl⟩
  have hdrop : ∃ u, m₂.mem.dropMm x = some u ∧ framePool.free u.phys d ∧ u.swapInitOk = false := by
    obtain ⟨u, hu, hfree, hsw⟩ := h.cleanup hd
      { k.mmStruct x with mmapCache := c, mmCount := (k.mmStruct x).mmCount - 1 } rfl rfl (by simp [hcount])
    refine ⟨u, ?_, hfree, hsw.trans hswap⟩
    have hdec : m₂.mem.mmCountDec x = k.kmem.mem.setMm x
        { k.mmStruct x with mmapCache := c, mmCount := (k.mmStruct x).mmCount - 1 } := by
      rw [hmem₂, hmem]
      unfold Mem.mmCountDec Mem.setCache Mem.setMm
      simp [Kernel.mmStruct]
    unfold Mem.dropMm
    rw [hdec]
    dsimp only
    rw [setMm_self, if_pos (by rw [hcount]; rfl)]
    exact hu
  obtain ⟨u, hu, hfree, hsw⟩ := hdrop
  have hspaces : x ∈ m₂.mem.spaces := by
    rw [hmem₂, hmem]
    exact hs
  obtain ⟨m₃, hdrop, rfl⟩ := dropMm_some hspaces hu
  obtain ⟨mm, m₄, m₅, hcreate, hpgdir⟩ := framePool_room hfree hsw
  have hexit : (k.setMem m₂).exitMm = some { k with mem := m₃, mm := update k.mm k.current none } := by
    unfold Kernel.exitMm
    rw [show (k.setMem m₂).mm (k.setMem m₂).current = some x from hx]
    show ((pagingSys framePool bs).dropMm m₂ x).bind _ = _
    rw [show (pagingSys framePool bs).dropMm m₂ x = some m₃ from hdrop]
    rfl
  refine ⟨m₁, m₂, _, mm, m₄, m₅, ?_, ?_, hexit, hcreate, hpgdir⟩
  · rw [hx]
    exact hcheck
  · rw [hx, if_neg (by decide)]
    exact hread

end UCore
