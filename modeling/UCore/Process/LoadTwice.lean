import UCore.Process.LoadExact

namespace UCore
set_option autoImplicit true
open Function (update)

namespace Mem
variable {A : PhysSys}

/-- A page fault at an address that has not been mapped. -/
def firstTouch (m : Mem A) (mm d addr : Nat) : Option (Mem A) :=
  if m.pteAt d (vpn addr) = 0 then (m.doPgfault (some mm) addr).map Prod.snd else none

def firstTouches (m : Mem A) (mm d : Nat) : List Nat → Option (Mem A)
  | [] => some m
  | addr :: rest => (m.firstTouch mm d addr).bind fun m => m.firstTouches mm d rest

/-- `load_icode` that succeeds, and then first touches: the new page directory and the memory. -/
def loadThenTouch (m : Mem A) (binary : Nat) (addrs : List Nat) : Option (Nat × Mem A) :=
  match m.loadIcode none binary with
  | some (0, some ld, m) => (m.firstTouches ld.mm (ld.cr3 / pgSize) addrs).map fun m => (ld.cr3 / pgSize, m)
  | _ => none

end Mem

/-- The bytes of the segments are in an address space, in which pages may have been added. -/
structure SegmentsIn {A : PhysSys} (mm d binary : Nat) (hdrs : List ProgHdr) (m : Mem A) (role : Nat → Role)
    (s : Mem A) : Prop where
  filled : ∃ role' P B, Filled d P B m s role role' ∧ SegBytes m binary hdrs B
  plain : s.Plain
  pgdir : (s.mms mm).pgdir = some d
  list : VmaList (s.mms mm).mmapList
  cache : CacheIn (s.mms mm)

section
variable {A : PhysSys} {m s t : Mem A} {role role' : Nat → Role} {P : Nat → Option (BitVec 32)}
  {B : Nat → Option (BitVec 8)}

theorem LoadedMem.segmentsIn (h : LoadedMem mm d binary hdrs m role t) :
    SegmentsIn mm d binary hdrs m role t where
  filled := by
    obtain ⟨role', P, B, hf, hb, -⟩ := h.filled
    exact ⟨role', P, B, hf, hb⟩
  plain := h.plain
  pgdir := h.pgdir
  list := h.list
  cache := h.cache

/-- The cache of the areas does not matter. -/
theorem SegmentsIn.findVma (h : SegmentsIn mm d binary hdrs m role s) (hd : role d = .node d [])
    (hf : s.findVma (some mm) addr = (r, t)) : SegmentsIn mm d binary hdrs m role t ∧ t.frame = s.frame ∧
      ∀ vma, r = some vma → vma ∈ (s.mms mm).mmapList ∧ vma.Covers addr := by
  obtain ⟨hc, hl, hr⟩ := findVma_some h.cache hf
  obtain ⟨role', P, B, hfill, hb⟩ := h.filled
  rcases findVma_cases hf with rfl | ⟨c, rfl⟩
  · exact ⟨h, rfl, hr⟩
  · have htook := hfill.paged.setMm mm { s.mms mm with mmapCache := c }
    refine ⟨⟨⟨role', P, B, hfill.adds (htook.adds d) hd fun v _ => rfl, hb⟩, h.plain, ?_, ?_, hc⟩, rfl, hr⟩
    · rw [setMm_self]
      exact h.pgdir
    · rw [hl]
      exact h.list

/-- More pages have been mapped. -/
theorem SegmentsIn.filledBy (h : SegmentsIn mm d binary hdrs m role s) (hf : Filled d P B m t role role')
    (hb : SegBytes m binary hdrs B) (hv : SameVars s t) : SegmentsIn mm d binary hdrs m role t where
  filled := ⟨role', P, B, hf, hb⟩
  plain := hv.plain h.plain
  pgdir := by
    rw [hv.mms]
    exact h.pgdir
  list := by
    rw [hv.mms]
    exact h.list
  cache := by
    rw [hv.mms]
    exact h.cache

/-- `pgdir_alloc_page` at an address that has not been mapped, whether it succeeds or not. -/
theorem SegmentsIn.alloc (h : SegmentsIn mm d binary hdrs m role s) (hd : role d = .node d []) (hu : la < userTop)
    (hz : s.pteAt d (la / pgSize) = 0) (hb : PermBits perm) (ha : s.pgdirAllocPage d la perm = some (p, t)) :
    SegmentsIn mm d binary hdrs m role t := by
  obtain ⟨role', P, B, hf, hbytes⟩ := h.filled
  obtain ⟨hvpn, hv⟩ := vpn_page hu
  have hinv : pteValid (s.pteAt d (la / pgSize)) = false := by
    rw [hz]
    rfl
  have hnone : P (la / pgSize) = none := by
    have hval := hf.valid hv
    rw [hinv] at hval
    exact Option.not_isSome_iff_eq_none.1 (Bool.eq_false_iff.1 hval.symm)
  cases p with
  | some p =>
    obtain ⟨role₂, hf₂, hvars, -⟩ := hf.alloc h.plain hd hb hu hnone ha
    exact h.filledBy hf₂ hbytes hvars
  | none =>
    rw [← hvpn] at hinv hv
    have hspec := pgdirAllocPage_spec hf.paged h.plain (hf.root hd) hv hinv hb ha
    rcases hspec with ⟨-, -, role₂, ht⟩ | ⟨x, -, hx, -⟩
    · exact h.filledBy (hf.adds ht.adds hd ht.same) hbytes ht.vars
    · cases hx

/-- `do_pgfault` at an address that has not been mapped. -/
theorem SegmentsIn.fault (h : SegmentsIn mm d binary hdrs m role s) (hd : role d = .node d [])
    (ht : s.firstTouch mm d addr = some t) : SegmentsIn mm d binary hdrs m role t := by
  unfold Mem.firstTouch at ht
  split at ht
  · rename_i hzero
    obtain ⟨⟨ret, t'⟩, hr, heq⟩ := Option.map_eq_some_iff.1 ht
    obtain rfl : t' = t := heq
    obtain ⟨r, s₁, hf, hrest⟩ := doPgfault_cases hr
    obtain ⟨h₁, hframe, hvma⟩ := h.findVma hd hf
    rcases hrest with ⟨-, rfl⟩ | ⟨vma, d', slot, s₂, rfl, -, hpg, hg, hslot⟩
    · exact h₁
    · obtain ⟨hmem, hcov⟩ := hvma vma rfl
      have haddr : addr < userTop := Nat.lt_of_lt_of_le hcov.2 (h.list.page vma hmem).2.2.2.2
      obtain rfl : d = d' := Option.some.inj (h₁.pgdir.symm.trans hpg)
      have hla : roundDown addr pgSize < userTop ∧ vpn (roundDown addr pgSize) = vpn addr := by
        unfold roundDown vpn
        unfold userTop at haddr
        unfold pgSize userTop
        omega
      obtain ⟨hlu, hvpn⟩ := hla
      obtain ⟨hvp, hv⟩ := vpn_page hlu
      generalize roundDown addr pgSize = la at *
      rw [← hvp] at hv
      obtain ⟨role₁, P, B, hfill, hbytes⟩ := h₁.filled
      obtain ⟨role₂, htab, -, hentry⟩ := getPte_spec hfill.paged h₁.plain (hfill.root hd) hv hg
      have h₂ := h₁.filledBy (hfill.adds htab.adds hd htab.same) hbytes htab.vars
      have hz : s₂.pteAt d (vpn la) = 0 := by
        rw [htab.same _ hv, pteAt_of_frame hframe, hvpn]
        exact hzero
      rcases hslot with ⟨-, -, rfl⟩ | ⟨pt, i, rfl, hne | ⟨p, ha⟩⟩
      · exact h₂
      · obtain ⟨hpt, rfl⟩ := hentry pt i rfl
        rw [← htab.paged.pteAt_node hpt hv] at hne
        exact absurd hz hne
      · rw [hvp] at hz
        exact h₂.alloc hd hlu hz (permBits_faultPerm vma) ha
  · cases ht

theorem SegmentsIn.faults (h : SegmentsIn mm d binary hdrs m role s) (hd : role d = .node d [])
    (ht : s.firstTouches mm d addrs = some t) : SegmentsIn mm d binary hdrs m role t := by
  induction addrs generalizing s with
  | nil =>
    cases ht
    exact h
  | cons addr rest ih =>
    obtain ⟨s₁, h₁, ht⟩ := Option.bind_eq_some_iff.1 ht
    exact ih (h.fault hd h₁) ht

/-- A segment below the top of the user half, byte by byte. -/
theorem SegmentsIn.byte (h : SegmentsIn mm d binary hdrs m role s) (hx : ph ∈ hdrs) (hl : ph.IsLoad)
    (ht : ph.pVa.toNat + ph.pMemsz.toNat ≤ userTop) (hi : i < ph.pMemsz.toNat) :
    s.userByte d (ph.pVa.toNat + i) = some (ph.byte m binary i) := by
  obtain ⟨role', P, B, hf, hb⟩ := h.filled
  exact hf.byte _ _ (vpn_page (by omega)).2 (hb ph hx hl i hi)

theorem loadThenTouch_cases (h : m.loadThenTouch binary addrs = some (c, t)) : ∃ ld s,
    m.loadIcode none binary = some (0, some ld, s) ∧
      s.firstTouches ld.mm (ld.cr3 / pgSize) addrs = some t ∧ c = ld.cr3 / pgSize := by
  unfold Mem.loadThenTouch at h
  split at h
  · rename_i ld s hr
    obtain ⟨u, hu, heq⟩ := Option.map_eq_some_iff.1 h
    cases heq
    exact ⟨ld, s, hr, hu, rfl⟩
  · cases h

/-- After `load_icode` and any first touches, the memory of each segment is what the image says. -/
theorem loaded_bytes (hm : Paged m role) (hp : m.Plain)
    (hboot : ∀ i < 256, pteValid (m.frame A.bootPgdir i) = false) (hi : ElfImage m binary len off hdrs)
    (hr : m.loadThenTouch binary addrs = some (c, t)) (hx : ph ∈ hdrs) (hl : ph.IsLoad)
    (hlt : i < ph.pMemsz.toNat) : t.userByte c (ph.pVa.toNat + i) = some (ph.byte m binary i) := by
  obtain ⟨ld, s, hload, ht, rfl⟩ := loadThenTouch_cases hr
  obtain ⟨d, m₁, role₁, h₁, hdone, hcr3⟩ := loadIcode_filled hm hp hboot hi hload
  have hd : ld.cr3 / pgSize = d := by
    rw [hcr3]
    exact Nat.mul_div_cancel _ (by decide)
  rw [hd] at ht ⊢
  rw [(hdone.segmentsIn.faults h₁.root ht).byte hx hl (hdone.top ph hx hl) hlt,
    hi.segByte (hi.kbyte h₁ hm) hx hl]

end

/-- Another memory that differs in the contents of free frames only. -/
structure FreeDiffer {A : PhysSys} (m m' : Mem A) : Prop where
  same : m' = { m with frame := m'.frame }
  frame : ∀ f, ¬ A.free m.phys f → m'.frame f = m.frame f

section
variable {A : PhysSys} {m m' t t' : Mem A} {role : Nat → Role}

theorem FreeDiffer.kbyte (h : FreeDiffer m m')
    (hf : ∃ f, kva ((a - vaPaOffset) / pgSize) = some f ∧ ¬ A.free m.phys f) : m'.kbyte a = m.kbyte a := by
  obtain ⟨f, hk, hf⟩ := hf
  unfold Mem.kbyte
  rw [hk, Option.map_some, Option.map_some, h.frame f hf]

theorem FreeDiffer.phys (h : FreeDiffer m m') : m'.phys = m.phys := by
  rw [h.same]

/-- The tables are in use, so they are the same. -/
theorem FreeDiffer.paged (h : FreeDiffer m m') (hm : Paged m role) : Paged m' role where
  tables := by
    apply hm.tables.congr
    intro f d p hf
    apply h.frame
    rw [← hm.free, hf]
    simp
  free f := by
    rw [h.phys]
    exact hm.free f
  pool f hf := by
    rw [h.phys]
    exact hm.pool f hf
  unused f hf := by
    rw [h.same]
    exact hm.unused f hf

theorem FreeDiffer.plain (h : FreeDiffer m m') (hp : m.Plain) : m'.Plain := by
  rw [h.same]
  exact hp

theorem FreeDiffer.image (h : FreeDiffer m m') (hi : ElfImage m binary len off hdrs) :
    (∀ a, binary ≤ a → a < binary + len → m'.kbyte a = m.kbyte a) ∧ ElfImage m' binary len off hdrs := by
  have hb (a : Nat) (h₁ : binary ≤ a) (h₂ : a < binary + len) : m'.kbyte a = m.kbyte a :=
    h.kbyte (hi.used a h₁ h₂).2
  refine ⟨hb, hi.transfer hb fun a h₁ h₂ => ?_⟩
  rw [h.phys]
  exact hi.used a h₁ h₂

/-- In two runs from memories that differ in free frames only, the memory of the segments is the same. -/
theorem segments_agree (hm : Paged m role) (hp : m.Plain)
    (hboot : ∀ i < 256, pteValid (m.frame A.bootPgdir i) = false) (hbf : ¬ A.free m.phys A.bootPgdir)
    (hi : ElfImage m binary len off hdrs) (hd : FreeDiffer m m')
    (hr : m.loadThenTouch binary addrs = some (c, t)) (hr' : m'.loadThenTouch binary addrs = some (c', t')) :
    ∀ ph ∈ hdrs, ph.IsLoad → ∀ i < ph.pMemsz.toNat,
      t.userByte c (ph.pVa.toNat + i) = t'.userByte c' (ph.pVa.toNat + i) := by
  intro ph hx hl i hlt
  have hboot' (j : Nat) (hj : j < 256) : pteValid (m'.frame A.bootPgdir j) = false := by
    rw [hd.frame _ hbf]
    exact hboot j hj
  obtain ⟨hb, hi'⟩ := hd.image hi
  rw [loaded_bytes hm hp hboot hi hr hx hl hlt,
    loaded_bytes (hd.paged hm) (hd.plain hp) hboot' hi' hr' hx hl hlt, hi.segByte hb hx hl]

/-- A program header for `0x20` bytes, of which `0x10` are in the file. -/
def demoHdr : ProgHdr := ⟨elfPtLoad, elfPfR ||| elfPfW, 0x100, 0x200800, 0x10, 0x20⟩

/-- Where `demoMem` keeps an image: in the frame behind the boot page directory. -/
def demoBinary : Nat := 0xFFFFFFFFC0201000

/-- The words of an image with the one segment. -/
def demoImage : Words := fun i =>
  match i with
  | 0 => 0x464C457F
  | 3 => 0x200800
  | 4 => 64
  | 7 => 1
  | 8 => 0x600000001
  | 9 => 0x100
  | 10 => 0x200800
  | 12 => 0x10
  | 13 => 0x20
  | 32 => 0x4141414141414141
  | 33 => 0x4242424242424242
  | _ => 0

/-- A memory with the image, and with the word `fill` in the free frames. -/
def demoMem (fill : BitVec 64) : Mem framePool :=
  { poolMem with
    phys := ⟨[0x80300, 0x80301, 0x80302, 0x80303, 0x80304, 0x80305, 0x80306, 0x80307, 0x80308, 0x80309, 0x8030A], [],
      by decide⟩
    frame := fun f => if f = 0x80201 then demoImage else fun _ => if 0x80300 ≤ f ∧ f < 0x8030B then fill else 0 }

theorem demoMem_free : framePool.free (demoMem fill).phys f ↔ 0x80300 ≤ f ∧ f < 0x8030B := by
  show f ∈ [0x80300, 0x80301, 0x80302, 0x80303, 0x80304, 0x80305, 0x80306, 0x80307, 0x80308, 0x80309, 0x8030A] ↔ _
  simp only [List.mem_cons, List.not_mem_nil, or_false]
  omega

theorem demoMem_paged (fill : BitVec 64) : ∃ role, Paged (demoMem fill) role := by
  have hinit : (pageMachine framePool ∅ fun f => f < 0x80300 ∨ 0x8030B ≤ f).init (demoMem fill) := by
    refine ⟨rfl, fun d hd => ?_, fun f hf => ?_, fun f hf => ?_⟩
    · cases hd
    · have hfree := demoMem_free.1 hf
      omega
    · unfold npage
      exact ⟨by omega, by omega, id, fun _ => rfl⟩
  obtain ⟨role, hc⟩ := pageMachine_init hinit
  exact ⟨role, hc.toPaged⟩

theorem demoBinary_kva (h₁ : demoBinary ≤ a) (h₂ : a < demoBinary + 0x200) :
    0xFFFFFFFFC0000000 ≤ a ∧ kva ((a - vaPaOffset) / pgSize) = some 0x80201 := by
  have hframe : (a - vaPaOffset) / pgSize = 0x80201 := by
    unfold demoBinary at *
    unfold vaPaOffset kernBase pgSize
    omega
  rw [hframe]
  unfold demoBinary at h₁
  exact ⟨by omega, rfl⟩

theorem demoMem_image : ElfImage (demoMem 0) demoBinary 0x200 64 [demoHdr] where
  used a h₁ h₂ := by
    obtain ⟨hle, hk⟩ := demoBinary_kva h₁ h₂
    refine ⟨hle, 0x80201, hk, fun hf => ?_⟩
    have hfree := demoMem_free.1 hf
    omega
  bound := by decide
  size := by decide
  magic := by decide +kernel
  phoff := by decide +kernel
  phnum := by decide +kernel
  fits := by decide
  hdr i ph h := by
    cases i with
    | zero =>
      cases h
      decide +kernel
    | succ i => cases h
  inside := by decide

theorem demoMem_differ (x y : BitVec 64) : FreeDiffer (demoMem x) (demoMem y) where
  same := rfl
  frame f hf := by
    have hno : ¬ (0x80300 ≤ f ∧ f < 0x8030B) := fun hc => hf (demoMem_free.2 hc)
    unfold demoMem
    dsimp only
    rw [if_neg hno, if_neg hno]

/-- Where the bytes of the two runs are compared: in front of the segment, behind it, on the stack, and in a
page of the stack area that a fault has added. -/
def demoAddrs : List Nat := [userBase + 0x7FF, userBase + 0x820, ustackTop - 1, ustackTop - 5 * pgSize]

/-- What a run from `demoMem` leaves at these addresses. -/
def DemoRun (fill : BitVec 64) (b : BitVec 8) : Prop := ∃ c t,
  (demoMem fill).loadThenTouch demoBinary [ustackTop - 5 * pgSize] = some (c, t) ∧
    ∀ a ∈ demoAddrs, t.userByte c a = some b

theorem DemoRun.of_run (h : ((demoMem fill).loadThenTouch demoBinary [ustackTop - 5 * pgSize]).any (fun r =>
    ∀ a ∈ demoAddrs, r.2.userByte r.1 a = some b) = true) : DemoRun fill b := by
  obtain ⟨⟨c, t⟩, hrun, hb⟩ := (Option.any_eq_true ..).1 h
  exact ⟨c, t, hrun, of_decide_eq_true hb⟩

theorem demoRun_zero : DemoRun 0 0 := .of_run (by decide +kernel)

theorem demoRun_ones : DemoRun 0x1111111111111111 0x11 := .of_run (by decide +kernel)

theorem segments_agree_demo : ∃ c t c' t',
    (demoMem 0).loadThenTouch demoBinary [ustackTop - 5 * pgSize] = some (c, t) ∧
    (demoMem 0x1111111111111111).loadThenTouch demoBinary [ustackTop - 5 * pgSize] = some (c', t') ∧
    ∀ i < 0x20, t.userByte c (0x200800 + i) = t'.userByte c' (0x200800 + i) := by
  obtain ⟨c, t, hrun, -⟩ := demoRun_zero
  obtain ⟨c', t', hrun', -⟩ := demoRun_ones
  obtain ⟨role, hm⟩ := demoMem_paged 0
  have hboot (i : Nat) (_ : i < 256) : pteValid ((demoMem 0).frame framePool.bootPgdir i) = false := by
    have hz : (demoMem 0).frame framePool.bootPgdir i = 0 := by
      unfold demoMem
      dsimp only
      rw [if_neg (by decide), if_neg (by decide)]
    rw [hz]
    rfl
  have hbf : ¬ framePool.free (demoMem 0).phys framePool.bootPgdir := by
    rw [demoMem_free]
    decide
  refine ⟨c, t, c', t', hrun, hrun', fun i hi => ?_⟩
  exact segments_agree hm (.inl rfl) hboot hbf demoMem_image (demoMem_differ 0 _) hrun hrun' demoHdr
    (List.mem_singleton_self _) rfl i hi

/-- Bytes of user pages that no segment covers are not the same in two such runs. -/
theorem bytes_differ : FreeDiffer (demoMem 0) (demoMem 0x1111111111111111) ∧ ∃ c t c' t',
    (demoMem 0).loadThenTouch demoBinary [ustackTop - 5 * pgSize] = some (c, t) ∧
    (demoMem 0x1111111111111111).loadThenTouch demoBinary [ustackTop - 5 * pgSize] = some (c', t') ∧
    ∀ a ∈ demoAddrs, t.userByte c a = some 0 ∧ t'.userByte c' a = some 0x11 := by
  obtain ⟨c, t, hrun, hb⟩ := demoRun_zero
  obtain ⟨c', t', hrun', hb'⟩ := demoRun_ones
  exact ⟨demoMem_differ 0 _, c, t, c', t', hrun, hrun', fun a ha => ⟨hb a ha, hb' a ha⟩⟩

end

end UCore
