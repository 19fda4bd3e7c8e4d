import UCore.Mm.Translate
import UCore.Process.LoadFilled

namespace UCore
set_option autoImplicit true
open Function (update)

/-- An image of `len` bytes with program headers at the offset `off`, at a kernel address in frames that are
in use. The parts of the file that its segments take are in the image, and no segment wraps. -/
structure ElfImage {A : PhysSys} (m : Mem A) (binary len off : Nat) (hdrs : List ProgHdr) : Prop where
  used : ∀ a, binary ≤ a → a < binary + len → 0xFFFFFFFFC0000000 ≤ a ∧
    ∃ f, kva ((a - vaPaOffset) / pgSize) = some f ∧ ¬ A.free m.phys f
  bound : binary + len < 2 ^ 64
  size : 64 ≤ len
  magic : m.kload binary 4 = some elfMagic
  phoff : m.kload (binary + 32) 8 = some off
  phnum : m.kload (binary + 56) 2 = some hdrs.length
  fits : off + progHdrSize * hdrs.length ≤ len
  hdr : ∀ i ph, hdrs[i]? = some ph → m.progHdr (binary + (off + progHdrSize * i)) = some ph
  inside : ∀ ph ∈ hdrs, ph.IsLoad → ph.Inside len

/-- The four pages that `load_icode` maps for the stack. -/
def StackPage (v : Nat) : Prop := ustackTop ≤ (v + 4) * pgSize ∧ v * pgSize < ustackTop

instance : Decidable (StackPage v) := inferInstanceAs (Decidable (_ ∧ _))

def stackArea : Nat × Nat × BitVec 32 := (ustackTop - ustackSize, ustackTop, vmRead ||| vmWrite ||| vmStack)

section
variable {A : PhysSys} {m s t : Mem A} {role role' : Nat → Role} {P : Nat → Option (BitVec 32)}
  {B : Nat → Option (BitVec 8)}

/-- `mm_create`: a new address space without areas. -/
theorem mmCreate_spec (h : Paged m role) (hc : m.mmCreate = (some mm, s)) :
    ∃ role', HeapTook m s role role' ∧ (s.mms mm).mmapList = [] ∧ (s.mms mm).mmapCache = none := by
  unfold Mem.mmCreate at hc
  cases hk : A.kmalloc m.phys with
  | mk r σ =>
    rw [hk] at hc
    obtain ⟨role', ht⟩ := h.kmalloc hk
    cases r with
    | none => cases hc
    | some p =>
      refine ⟨role', ?_⟩
      dsimp only at hc
      split at hc
      · cases hc
        refine ⟨ht.congr rfl rfl rfl rfl rfl rfl, ?_⟩
        unfold Mem.swapInitMm
        dsimp only
        rw [Function.update_self, setMm_self]
        exact ⟨rfl, rfl⟩
      · cases hc
        exact ⟨ht.congr rfl rfl rfl rfl rfl rfl, by rw [setMm_self], by rw [setMm_self]⟩

/-- `setup_pgdir` that succeeds: a new root, with the kernel half of the boot directory and an empty user
half. -/
theorem setupPgdir_spec (h : Paged s role) (hp : s.Plain)
    (hboot : ∀ i < 256, pteValid (s.frame A.bootPgdir i) = false) (hr : s.setupPgdir mm = some (true, t)) :
    ∃ d role', Paged t role' ∧ t.Plain ∧ role d = .free ∧ role' = update role d (.node d []) ∧
      (∀ f ≠ d, t.frame f = s.frame f) ∧ (∀ v < userVpn, t.pteAt d v = 0) ∧ (t.mms mm).pgdir = some d ∧
      (t.mms mm).mmapList = (s.mms mm).mmapList ∧ (t.mms mm).mmapCache = (s.mms mm).mmapCache := by
  obtain ⟨⟨r, s₁⟩, hpage, hr⟩ := Option.bind_eq_some_iff.1 hr
  rcases allocPages_plain hp hpage with ⟨rfl, rfl⟩ | ⟨d, σ, rfl, ha, rfl⟩
  · cases hr
  · obtain ⟨d', hk, hr⟩ := Option.bind_eq_some_iff.1 hr
    have hfree := h.alloc_free ha
    obtain rfl : d = d' := Option.some.inj ((h.kva (by rw [hfree]; simp)).symm.trans hk)
    cases hr
    have hz (i : Nat) (hi : i < 256) : pteValid (update s.frame d (s.frame A.bootPgdir) d i) = false := by
      rw [Function.update_self]
      exact hboot i hi
    have hframe (f : Nat) (hf : f ≠ d) : update s.frame d (s.frame A.bootPgdir) f = s.frame f :=
      Function.update_of_ne hf ..
    have htables : Tables sv39 (update s.frame d (s.frame A.bootPgdir)) role := by
      apply h.tables.congr
      intro f c p hf
      apply hframe
      rintro rfl
      rw [hfree] at hf
      cases hf
    have hpaged : Paged ((s.setPhys σ).setFrame d ((s.setPhys σ).frame A.bootPgdir)) (update role d (.node d [])) :=
      h.alloc ha (by simp) (fun _ _ => rfl) (htables.addRoot hfree hz)
    refine ⟨d, _, ⟨hpaged.tables, hpaged.free, hpaged.pool, hpaged.unused⟩, hp, hfree, rfl, hframe, ?_, ?_, ?_, ?_⟩
    · exact fun v hv => pteAt_empty hz hv
    · rw [setMm_self]
    · rw [setMm_self]
      rfl
    · rw [setMm_self]
      rfl

theorem stackPage_filled (h : Filled d P B m s role role') (hp : s.Plain) (hd : role d = .node d [])
    (hu : la < userTop) (hn : P (la / pgSize) = none) (hr : s.stackPage d la = some t) :
    ∃ role₂, Filled d (update P (la / pgSize) (some pteUser)) B m t role role₂ ∧ SameVars s t := by
  obtain ⟨⟨r, s₁⟩, ha, hr⟩ := Option.bind_eq_some_iff.1 hr
  cases r with
  | none => cases hr
  | some p =>
    cases hr
    obtain ⟨role₂, hf, hvars, -⟩ := h.alloc hp hd (by decide) hu hn ha
    exact ⟨role₂, hf, hvars⟩

/-- The pages of the stack, from the top on. -/
theorem StackPage.cases (h : StackPage v) : v = (ustackTop - pgSize) / pgSize ∨ v = (ustackTop - 2 * pgSize) / pgSize ∨
    v = (ustackTop - 3 * pgSize) / pgSize ∨ v = (ustackTop - 4 * pgSize) / pgSize := by
  unfold StackPage ustackTop userTop pgSize at h
  unfold ustackTop userTop pgSize
  omega

/-- The four pages of the stack, which are not mapped yet. -/
theorem stackPages_filled (h : Filled d P B m s role role') (hp : s.Plain) (hd : role d = .node d [])
    (hn : ∀ v, StackPage v → P v = none) (h₁ : s.stackPage d (ustackTop - pgSize) = some s₁)
    (h₂ : s₁.stackPage d (ustackTop - 2 * pgSize) = some s₂) (h₃ : s₂.stackPage d (ustackTop - 3 * pgSize) = some s₃)
    (h₄ : s₃.stackPage d (ustackTop - 4 * pgSize) = some t) :
    ∃ role₄, Filled d (fun v => if StackPage v then some pteUser else P v) B m t role role₄ ∧ SameVars s t := by
  have hpage (k : Nat) (hk : k = 1 ∨ k = 2 ∨ k = 3 ∨ k = 4) : StackPage ((ustackTop - k * pgSize) / pgSize) := by
    rcases hk with rfl | rfl | rfl | rfl <;> decide
  obtain ⟨role₁, hf₁, hv₁⟩ := stackPage_filled h hp hd (by decide) (hn _ (by decide)) h₁
  obtain ⟨role₂, hf₂, hv₂⟩ := stackPage_filled hf₁ (hv₁.plain hp) hd (by decide)
    ((Function.update_of_ne (by decide) ..).trans (hn _ (by decide))) h₂
  have hp₂ := (hv₁.trans hv₂).plain hp
  obtain ⟨role₃, hf₃, hv₃⟩ := stackPage_filled hf₂ hp₂ hd (by decide)
    ((Function.update_of_ne (by decide) ..).trans
      ((Function.update_of_ne (by decide) ..).trans (hn _ (by decide)))) h₃
  have hp₃ := ((hv₁.trans hv₂).trans hv₃).plain hp
  obtain ⟨role₄, hf₄, hv₄⟩ := stackPage_filled hf₃ hp₃ hd (by decide)
    ((Function.update_of_ne (by decide) ..).trans ((Function.update_of_ne (by decide) ..).trans
      ((Function.update_of_ne (by decide) ..).trans (hn _ (by decide))))) h₄
  refine ⟨role₄, hf₄.congr (fun v _ => ?_) (fun _ _ => rfl), ((hv₁.trans hv₂).trans hv₃).trans hv₄⟩
  by_cases hs : StackPage v
  · rw [if_pos hs]
    rcases hs.cases with rfl | rfl | rfl | rfl <;> rfl
  · have hne (k : Nat) (hk : k = 1 ∨ k = 2 ∨ k = 3 ∨ k = 4) : v ≠ (ustackTop - k * pgSize) / pgSize := by
      rintro rfl
      exact hs (hpage k hk)
    rw [if_neg hs, Function.update_of_ne (hne 4 (by decide)), Function.update_of_ne (hne 3 (by decide)),
      Function.update_of_ne (hne 2 (by decide))]
    have h₁ : v ≠ (ustackTop - pgSize) / pgSize := hne 1 (by decide)
    rw [Function.update_of_ne h₁]

/-- The segments and the stack have been loaded since the memory `m`. -/
structure LoadedMem {A : PhysSys} (mm d binary : Nat) (hdrs : List ProgHdr) (m : Mem A) (role : Nat → Role)
    (t : Mem A) : Prop where
  filled : ∃ role' P B, Filled d P B m t role role' ∧ SegBytes m binary hdrs B ∧ ∀ v perm, P v = some perm ↔
    StackPage v ∧ perm = pteUser ∨ ∃ ph ∈ hdrs, ph.IsLoad ∧ ph.Page v ∧ ph.perm = perm
  plain : t.Plain
  pgdir : (t.mms mm).pgdir = some d
  list : VmaList (t.mms mm).mmapList
  cache : CacheIn (t.mms mm)
  areas : ((t.mms mm).mmapList.map Vma.area).Perm
    (stackArea :: (hdrs.filter fun ph => ph.IsLoad).map ProgHdr.area)
  top : ∀ ph ∈ hdrs, ph.IsLoad → ph.pVa.toNat + ph.pMemsz.toNat ≤ userTop

/-- The pages of the stack after its area has been added. -/
theorem AreaMapped.stack (h : AreaMapped mm d binary hdrs (roundDown (ustackTop - ustackSize) pgSize)
      (roundUp (addW (ustackTop - ustackSize) ustackSize) pgSize) flags m role s t) :
    ∃ role' P B, Filled d P B m t role role' ∧ SegPages hdrs P ∧ SegBytes m binary hdrs B ∧
      ∀ v, StackPage v → P v = none := by
  obtain ⟨role', P, B, hf, hp, hb, hnone⟩ := h.filled
  refine ⟨role', P, B, hf, hp, hb, fun v hv => ?_⟩
  obtain ⟨h₁, h₂⟩ := hv
  refine hnone v ?_ h₂
  change ustackTop - ustackSize ≤ _
  unfold ustackTop userTop ustackSize at *
  unfold pgSize at *
  omega

theorem loadStack_filled (h : Loading mm d binary m role hdrs s) (hd : role d = .node d [])
    (hr : s.loadStack mm = some (0, t)) : LoadedMem mm d binary hdrs m role t := by
  obtain ⟨⟨ret, s₀⟩, hm, hr⟩ := Option.bind_eq_some_iff.1 hr
  dsimp only at hr
  split at hr
  · rename_i hne
    cases hr
    exact absurd rfl hne
  · rename_i hz
    obtain rfl : ret = 0 := not_not.1 hz
    have hmap := h.mapped hd hm
    have hadd : AreaAdded mm stackArea.1 stackArea.2.1 stackArea.2.2 s s₀ := hmap.area
    have hplain := hmap.plain
    obtain ⟨role₁, P, B, hf₁, hp, hb, hnone⟩ := hmap.stack
    obtain ⟨d', hd', hr⟩ := Option.bind_eq_some_iff.1 hr
    rw [hmap.pgdir] at hd'
    cases hd'
    obtain ⟨s₁, h₁, hr⟩ := Option.bind_eq_some_iff.1 hr
    obtain ⟨s₂, h₂, hr⟩ := Option.bind_eq_some_iff.1 hr
    obtain ⟨s₃, h₃, hr⟩ := Option.bind_eq_some_iff.1 hr
    obtain ⟨s₄, h₄, hr⟩ := Option.bind_eq_some_iff.1 hr
    cases hr
    obtain ⟨role₄, hf₄, hvars⟩ := stackPages_filled hf₁ hplain hd hnone h₁ h₂ h₃ h₄
    refine ⟨⟨role₄, _, _, hf₄, hb, fun v perm => ?_⟩, hvars.plain hplain, ?_, ?_, ?_, ?_, h.top⟩
    · by_cases hs : StackPage v
      · rw [if_pos hs]
        constructor
        · intro he
          exact .inl ⟨hs, (Option.some.inj he).symm⟩
        · rintro (⟨-, rfl⟩ | hc)
          · rfl
          · have hsome := (hp v perm).2 hc
            rw [hnone v hs] at hsome
            cases hsome
      · rw [if_neg hs, hp v perm]
        constructor
        · exact .inr
        · rintro (⟨hc, -⟩ | hc)
          · exact absurd hc hs
          · exact hc
    · rw [hvars.mms]
      exact hmap.pgdir
    · rw [hvars.mms]
      exact hadd.list
    · rw [hvars.mms]
      exact hmap.cache
    · rw [hvars.mms]
      exact hadd.perm.trans (h.areas.cons _)

/-- The parts of `load_icode` that succeeds. -/
theorem loadIcode_cases (h : m.loadIcode none binary = some (0, some ld, t)) : ∃ m₀ m₁ s₂ s₃ phoff phnum d,
    m.mmCreate = (some ld.mm, m₀) ∧ m₀.setupPgdir ld.mm = some (true, m₁) ∧
    m₁.kload (addW binary 32) 8 = some phoff ∧ m₁.kload (addW binary 56) 2 = some phnum ∧
    m₁.loadSegments ld.mm binary (addW (addW binary phoff) (phnum * progHdrSize)) (addW binary phoff)
      (phnum + 1) = some (0, s₂) ∧ s₂.loadStack ld.mm = some (0, s₃) ∧
    t = s₃.setMm ld.mm { s₃.mms ld.mm with mmCount := (s₃.mms ld.mm).mmCount + 1 } ∧
    (t.mms ld.mm).pgdir = some d ∧ ld.cr3 = d * pgSize := by
  unfold Mem.loadIcode at h
  rw [if_neg (by simp)] at h
  cases hc : m.mmCreate with
  | mk r m₀ =>
    rw [hc] at h
    cases r with
    | none => cases h
    | some mm =>
      dsimp only at h
      obtain ⟨⟨ok, m₁⟩, hs, h⟩ := Option.bind_eq_some_iff.1 h
      cases ok with
      | false =>
        obtain ⟨m₂, -, h⟩ := Option.bind_eq_some_iff.1 h
        cases h
      | true =>
        obtain ⟨phoff, hoff, h⟩ := Option.bind_eq_some_iff.1 h
        obtain ⟨magic, -, h⟩ := Option.bind_eq_some_iff.1 h
        split at h
        · obtain ⟨m₂, -, h⟩ := Option.bind_eq_some_iff.1 h
          obtain ⟨m₃, -, h⟩ := Option.bind_eq_some_iff.1 h
          cases h
        · obtain ⟨phnum, hnum, h⟩ := Option.bind_eq_some_iff.1 h
          obtain ⟨⟨ret, s₂⟩, hseg, h⟩ := Option.bind_eq_some_iff.1 h
          dsimp only at h
          split at h
          · obtain ⟨m₂, -, h⟩ := Option.bind_eq_some_iff.1 h
            cases h
          · rename_i hz
            obtain rfl : ret = 0 := not_not.1 hz
            obtain ⟨⟨ret, s₃⟩, hst, h⟩ := Option.bind_eq_some_iff.1 h
            dsimp only at h
            split at h
            · obtain ⟨m₂, -, h⟩ := Option.bind_eq_some_iff.1 h
              cases h
            · rename_i hz
              obtain rfl : ret = 0 := not_not.1 hz
              obtain ⟨d, hd, h⟩ := Option.bind_eq_some_iff.1 h
              obtain ⟨epc, -, h⟩ := Option.bind_eq_some_iff.1 h
              cases h
              exact ⟨m₀, m₁, s₂, s₃, phoff, phnum, d, rfl, hs, hoff, hnum, hseg, hst, rfl, hd, rfl⟩

/-- What is there of the new address space before the segments are loaded. -/
structure LoadStart {A : PhysSys} (mm d : Nat) (m : Mem A) (role : Nat → Role) (m₁ : Mem A) (role₁ : Nat → Role) :
    Prop where
  paged : Paged m₁ role₁
  plain : m₁.Plain
  root : role₁ d = .node d []
  new : role d = .free
  keeps : ∀ f, role f ≠ .free → role₁ f = role f
  frame : ∀ f, role f ≠ .free → m₁.frame f = m.frame f
  empty : ∀ v < userVpn, m₁.pteAt d v = 0
  pgdir : (m₁.mms mm).pgdir = some d
  list : (m₁.mms mm).mmapList = []
  cache : (m₁.mms mm).mmapCache = none

theorem loadStart (h : Paged m role) (hp : m.Plain) (hboot : ∀ i < 256, pteValid (m.frame A.bootPgdir i) = false)
    (hc : m.mmCreate = (some mm, s)) (hs : s.setupPgdir mm = some (true, t)) :
    ∃ d role₁, LoadStart mm d m role t role₁ := by
  obtain ⟨role₀, htook, hlist, hcache⟩ := mmCreate_spec h hc
  have hboot' (i : Nat) (hi : i < 256) : pteValid (s.frame A.bootPgdir i) = false := by
    rw [htook.frame]
    exact hboot i hi
  obtain ⟨d, role₁, hpaged, hplain, hfree, rfl, hframe, hz, hpgdir, hl, hca⟩ :=
    setupPgdir_spec htook.paged ((htook.adds 0).plain hp) hboot' hs
  have hne (f : Nat) (hf : role f ≠ .free) : f ≠ d := by
    rintro rfl
    rw [htook.keeps f hf] at hfree
    exact hf hfree
  refine ⟨d, _, hpaged, hplain, Function.update_self .., ?_, fun f hf => ?_, fun f hf => ?_, hz, hpgdir,
    hl.trans hlist, hca.trans hcache⟩
  · by_contra hf
    exact hne d hf rfl
  · rw [Function.update_of_ne (hne f hf), htook.keeps f hf]
  · rw [hframe f (hne f hf), htook.frame]

/-- What is in use belongs to no table of the new directory. -/
theorem LoadStart.used (h : LoadStart mm d m role m₁ role₁) (hm : Paged m role) (hf : ¬ A.free m.phys f) :
    role₁ f ≠ .free ∧ ∀ p, role₁ f ≠ .node d p := by
  have hr : role f ≠ .free := fun hr => hf ((hm.free f).1 hr)
  rw [h.keeps f hr]
  refine ⟨hr, fun p hn => ?_⟩
  have hroot := hm.tables.root_role hn
  rw [h.new] at hroot
  cases hroot

theorem LoadStart.kbyte (h : LoadStart mm d m role m₁ role₁) (hm : Paged m role)
    (hf : ∃ f, kva ((a - vaPaOffset) / pgSize) = some f ∧ ¬ A.free m.phys f) : m₁.kbyte a = m.kbyte a := by
  obtain ⟨f, hk, hf⟩ := hf
  unfold Mem.kbyte
  rw [hk, Option.map_some, Option.map_some, h.frame f fun hr => hf ((hm.free f).1 hr)]

section
variable (hi : ElfImage m binary len off hdrs) (hb : ∀ a, binary ≤ a → a < binary + len → s.kbyte a = m.kbyte a)
include hi hb

/-! Where the bytes of the image are the same, it is read the same. -/

theorem ElfImage.kload (hk : k + n ≤ 64) : s.kload (binary + k) n = m.kload (binary + k) n := by
  have hsize := hi.size
  have hbound := hi.bound
  exact kload_congr (fun b h₁ h₂ => hb b (by omega) (by omega)) (by omega)

theorem ElfImage.progHdr (hph : hdrs[i]? = some ph) : s.progHdr (binary + (off + progHdrSize * i)) = some ph := by
  have hlen : i < hdrs.length := (List.getElem?_eq_some_iff.1 hph).1
  have hfits := hi.fits
  have hbound := hi.bound
  have hmul : progHdrSize * i + progHdrSize ≤ progHdrSize * hdrs.length := by
    rw [← Nat.mul_succ]
    exact Nat.mul_le_mul_left _ hlen
  rw [← hi.hdr i ph hph]
  exact progHdr_congr (fun b h₁ h₂ => hb b (by omega) (by omega)) (by omega)

theorem ElfImage.segByte (hx : ph ∈ hdrs) (hl : ph.IsLoad) : ph.byte s binary i = ph.byte m binary i := by
  unfold ProgHdr.byte
  split
  · rename_i hlt
    have hfile := (hi.inside ph hx hl).file
    have hbound := hi.bound
    have hadd : addW (addW binary ph.pOffset.toNat) i = binary + (ph.pOffset.toNat + i) := by
      rw [addW_assoc]
      exact Nat.mod_eq_of_lt (by omega)
    unfold Mem.kbytes
    rw [hadd, hb _ (by omega) (by omega)]
  · rfl

theorem ElfImage.transfer (hu : ∀ a, binary ≤ a → a < binary + len → 0xFFFFFFFFC0000000 ≤ a ∧
    ∃ f, kva ((a - vaPaOffset) / pgSize) = some f ∧ ¬ A.free s.phys f) : ElfImage s binary len off hdrs where
  used := hu
  bound := hi.bound
  size := hi.size
  magic := (hi.kload hb (show 0 + 4 ≤ 64 by decide)).trans hi.magic
  phoff := (hi.kload hb (by decide)).trans hi.phoff
  phnum := (hi.kload hb (by decide)).trans hi.phnum
  fits := hi.fits
  hdr _ _ := hi.progHdr hb
  inside := hi.inside

end

theorem ElfImage.kbyte (hi : ElfImage m binary len off hdrs) (h : LoadStart mm d m role m₁ role₁)
    (hm : Paged m role) (a : Nat) (h₁ : binary ≤ a) (h₂ : a < binary + len) : m₁.kbyte a = m.kbyte a :=
  h.kbyte hm (hi.used a h₁ h₂).2

theorem ElfImage.table (hi : ElfImage m binary len off hdrs) (h : LoadStart mm d m role m₁ role₁)
    (hm : Paged m role) : HdrTable m₁ role₁ d binary len off hdrs where
  used a h₁ h₂ f hk := by
    obtain ⟨-, g, hg, hfree⟩ := hi.used a h₁ h₂
    obtain rfl : g = f := Option.some.inj (hg.symm.trans hk)
    exact h.used hm hfree
  bound := hi.bound
  fits := hi.fits
  hdr i ph hph := hi.progHdr (hi.kbyte h hm) hph
  inside := hi.inside

theorem ElfImage.addr (hi : ElfImage m binary len off hdrs) (hk : k ≤ len) : addW binary k = binary + k := by
  have hbound := hi.bound
  exact Nat.mod_eq_of_lt (by omega)

/-- The fields of the ELF header that the loader goes by. -/
theorem ElfImage.header (hi : ElfImage m binary len off hdrs) (h : LoadStart mm d m role m₁ role₁) (hm : Paged m role) :
    m₁.kload (addW binary 32) 8 = some off ∧ m₁.kload binary 4 = some elfMagic ∧
      m₁.kload (addW binary 56) 2 = some hdrs.length ∧ addW binary off = binary + off ∧
      addW (addW binary off) (hdrs.length * progHdrSize) = binary + (off + progHdrSize * hdrs.length) := by
  have hsize := hi.size
  have hfits := hi.fits
  have hkept := hi.kbyte h hm
  refine ⟨?_, ?_, ?_, hi.addr (by omega), ?_⟩
  · rw [hi.addr (by omega), hi.kload hkept (by decide), hi.phoff]
  · rw [← hi.magic]
    exact hi.kload hkept (show 0 + 4 ≤ 64 by decide)
  · rw [hi.addr (by omega), hi.kload hkept (by decide), hi.phnum]
  · rw [addW_assoc, Nat.mul_comm]
    exact hi.addr hfits

theorem LoadStart.loading (h : LoadStart mm d m role m₁ role₁) (binary : Nat) : Loading mm d binary m₁ role₁ [] m₁ := by
  refine ⟨⟨role₁, _, _, .init h.paged h.empty, fun v perm => ?_, nofun⟩, h.plain, h.pgdir, ?_, fun w hw => ?_, ?_, nofun⟩
  · simp
  · rw [h.list]
    exact .nil
  · rw [h.cache] at hw
    cases hw
  · rw [h.list]
    exact .nil

/-- What `load_icode` has done when it returns 0. -/
theorem loadIcode_filled (hm : Paged m role) (hp : m.Plain)
    (hboot : ∀ i < 256, pteValid (m.frame A.bootPgdir i) = false) (hi : ElfImage m binary len off hdrs)
    (hr : m.loadIcode none binary = some (0, some ld, t)) :
    ∃ d m₁ role₁, LoadStart ld.mm d m role m₁ role₁ ∧ LoadedMem ld.mm d binary hdrs m₁ role₁ t ∧
      ld.cr3 = d * pgSize := by
  obtain ⟨m₀, m₁, s₂, s₃, phoff, phnum, d', hc, hs, hoff, hnum, hseg, hst, rfl, hd', hcr3⟩ := loadIcode_cases hr
  obtain ⟨d, role₁, h₁⟩ := loadStart hm hp hboot hc hs
  obtain ⟨hoff', -, hnum', hstart, hend⟩ := hi.header h₁ hm
  obtain rfl := Option.some.inj (hoff.symm.trans hoff')
  obtain rfl := Option.some.inj (hnum.symm.trans hnum')
  rw [hend, hstart] at hseg
  have hload : Loading ld.mm d binary m₁ role₁ ([] ++ hdrs) s₂ := by
    apply loadSegments_filled (hi.table h₁ hm) h₁.root (h₁.loading binary)
    exact hseg
  have hdone := loadStack_filled hload h₁.root hst
  obtain ⟨role', P, B, hf, hb, hpages⟩ := hdone.filled
  have hmm (x : MmStruct) := hf.paged.setMm ld.mm x
  refine ⟨d, m₁, role₁, h₁, ⟨⟨role', P, B, ?_, hb, hpages⟩, hdone.plain, ?_, ?_, ?_, ?_, hdone.top⟩, ?_⟩
  · exact hf.adds ((hmm _).adds d) h₁.root fun v _ => rfl
  · rw [setMm_self]
    exact hdone.pgdir
  · rw [setMm_self]
    exact hdone.list
  · rw [setMm_self]
    exact hdone.cache
  · rw [setMm_self]
    exact hdone.areas
  · rw [setMm_self] at hd'
    have hdd := hdone.pgdir.symm.trans hd'
    rw [hcr3, Option.some.inj hdd]

end

end UCore
