import UCore.Mm.SwapFault

namespace UCore
set_option autoImplicit true
open Function (update)

namespace Mem
variable {A : PhysSys}

/-- The page with the number `v` of the directory `d` is on the disk. -/
def SwappedOut (m : Mem A) (d v : Nat) : Prop := pteValid (m.pteAt d v) = false ∧ m.pteAt d v ≠ 0

/-- What an address space has in a page: the contents of the frame, or what would be read from the disk. -/
def pageAt (m : Mem A) (d v : Nat) : Option Words :=
  if pteValid (m.pteAt d v) then some (m.frame (ptePpn (m.pteAt d v)))
  else if m.pteAt d v = 0 then none
  else (m.swapOffset (m.pteAt d v)).map m.disk

/-- The page that `swap_out` takes is one of `mm`, mapped only at its address, and no other address space has a
page with this number on the disk. -/
def SwapsOwn (dirs : Finset Nat) (mm : Nat) (m : Mem A) : Prop :=
  ∀ p, m.praList.head? = some p → ∃ d ∈ dirs, (m.mms mm).pgdir = some d ∧
    m.mapped (d, vpn (m.praVaddr p)) = some p ∧
    (∀ x ∈ userSlots dirs, m.mapped x = some p → x = (d, vpn (m.praVaddr p))) ∧
    ∀ c ∈ dirs, c ≠ d → ¬ m.SwappedOut c (vpn (m.praVaddr p))

/-- No two pages that are swapped out share a slot of the disk. -/
def SlotsUnshared (dirs : Finset Nat) (m : Mem A) : Prop :=
  ∀ x ∈ userSlots dirs, ∀ y ∈ userSlots dirs, m.SwappedOut x.1 x.2 → m.SwappedOut y.1 y.2 →
    m.swapOffset (m.pteAt x.1 x.2) = m.swapOffset (m.pteAt y.1 y.2) → x = y

/-- The slot that `swap_out` is going to write is not in use. -/
def WritesUnused (dirs : Finset Nat) (m : Mem A) : Prop :=
  ∀ p, m.praList.head? = some p → ∀ x ∈ userSlots dirs, m.SwappedOut x.1 x.2 →
    m.swapOffset (m.pteAt x.1 x.2) ≠ m.swapOffset (swapEntry (m.praVaddr p))

end Mem

/-- Faults and `swap_out`, on the address spaces `mms`. -/
def SwapOp.Among (mms : Finset Nat) : SwapOp → Prop
  | doPgfault mm addr => mm ∈ mms ∧ addr < 2 ^ 38
  | swapOut mm _ => mm ∈ mms
  | _ => False

/-- Runs of faults and `swap_out` on the address spaces `mms`, from any tables that there can be when swapping is
turned on. A frame number in an entry is too large for an offset on the disk. -/
def slotMachine (A : PhysSys) (dirs : Finset Nat) (K : Nat → Prop) (mms : Finset Nat) :
    Machine (Mem A) SwapOp where
  init m := (pageMachine A dirs K).Reachable m.still ∧ m.swapInitOk = true ∧ m.maxSwapOffset ≤ 2 ^ 21 ∧
    (∀ mm ∈ mms, ∃ d ∈ dirs, (m.mms mm).pgdir = some d) ∧ m.praList = [] ∧
    ∀ d ∈ dirs, ∀ v < userVpn, ¬ m.SwappedOut d v
  enabled _ op := op.Among mms
  next m op := op.run m

/-- The pages of the address spaces have the contents that they had. -/
structure Mem.Keeps {A : PhysSys} (dirs : Finset Nat) (m m' : Mem A) : Prop where
  page : ∀ x ∈ userSlots dirs, ∀ w, m.pageAt x.1 x.2 = some w → m'.pageAt x.1 x.2 = some w
  checkMm : m'.checkMm = m.checkMm
  pgdir : ∀ mm, (m'.mms mm).pgdir = (m.mms mm).pgdir

/-- Every page that the operation swaps out is one of the right address space, and has the slot to itself. -/
def SwapOp.SwapsOwn {A : PhysSys} (dirs : Finset Nat) (m : Mem A) (op : SwapOp) : Prop :=
  ∀ mm m₁, op.Swaps m mm m₁ → m₁.SwapsOwn dirs mm

/-- No page is queued when there is a fault, and a page that is swapped out has one reference, from the entry of its
address, and no other page with its number is on the disk. -/
def SwapOp.Alone {A : PhysSys} (dirs : Finset Nat) (m : Mem A) : SwapOp → Prop
  | doPgfault _ _ => m.praList = []
  | swapOut mm n => n = 1 ∧ ∀ p ∈ m.praList.head?, ∃ d ∈ dirs, (m.mms mm).pgdir = some d ∧
      m.mapped (d, vpn (m.praVaddr p)) = some p ∧ m.ref p = 1 ∧
      ∀ c ∈ dirs, c ≠ d → ¬ m.SwappedOut c (vpn (m.praVaddr p))
  | _ => False

/-- What is swapped out is in the slot of its page number, alone. -/
structure Slotted {A : PhysSys} (dirs : Finset Nat) (K : Nat → Prop) (m : Mem A) (role : Nat → Role) :
    Prop extends Counted dirs K m.still role where
  on : m.swapInitOk = true
  offset : m.maxSwapOffset ≤ 2 ^ 21
  vaddr : ∀ p ∈ m.praList, m.praVaddr p < 2 ^ 38
  entry : ∀ d ∈ dirs, ∀ v < userVpn, m.SwappedOut d v →
    m.pteAt d v = Mem.swapEntry (v * pgSize) ∧ v + 1 < m.maxSwapOffset
  apart : ∀ c ∈ dirs, ∀ d ∈ dirs, ∀ v < userVpn, m.SwappedOut c v → m.SwappedOut d v → c = d

section
variable {A : PhysSys} {m m' m₀ m₁ m₂ : Mem A} {role role' role₁ : Nat → Role} {dirs mms : Finset Nat}
  {K : Nat → Prop} {op : SwapOp}

theorem pageAt_mapped (h : m.mapped (d, v) = some p) : m.pageAt d v = some (m.frame p) := by
  obtain ⟨hval, rfl⟩ := pteFrame_eq_some.1 h
  exact if_pos hval

theorem pageAt_swapped (h : m.SwappedOut d v) : m.pageAt d v = (m.swapOffset (m.pteAt d v)).map m.disk := by
  rw [Mem.pageAt, if_neg (by rw [h.1]; simp), if_neg h.2]

/-- The offset in the entry of the page number `v`. -/
theorem swapOffset_swapEntry (hv : v < userVpn) (h : v + 1 < m.maxSwapOffset) :
    m.swapOffset (Mem.swapEntry (v * pgSize)) = some (v + 1) := by
  have hlt : v * pgSize < 2 ^ 38 := by
    unfold userVpn at hv
    unfold pgSize
    omega
  unfold Mem.swapOffset
  rw [swapEntry_toNat hlt, Nat.mul_div_cancel _ (by decide)]
  exact if_pos ⟨Nat.succ_pos _, h⟩

/-- The offset of an entry is beyond its frame number. -/
theorem ptePpn_le (e : BitVec 64) : 4 * ptePpn e ≤ (e >>> 8).toNat := by
  have hle : (e &&& ~~~0x3ff#64).toNat ≤ e.toNat := by
    rw [BitVec.toNat_and]
    exact Nat.and_le_left
  have hmod := Nat.mod_le ((e &&& ~~~0x3ff#64).toNat * 2 ^ 2) (2 ^ 64)
  unfold ptePpn
  rw [BitVec.toNat_ushiftRight, BitVec.toNat_ushiftRight, BitVec.toNat_shiftLeft, Nat.shiftLeft_eq,
    Nat.shiftRight_eq_div_pow, Nat.shiftRight_eq_div_pow]
  omega

/-- A page is kept where its entry is, and its frame or its slot. -/
theorem pageAt_congr (hpte : m'.pteAt d v = m.pteAt d v) (hmax : m'.maxSwapOffset = m.maxSwapOffset)
    (hframe : ∀ p, m.mapped (d, v) = some p → m'.frame p = m.frame p)
    (hdisk : m.SwappedOut d v → ∀ o, m.swapOffset (m.pteAt d v) = some o → m'.disk o = m.disk o) :
    m'.pageAt d v = m.pageAt d v := by
  have hoff (e : BitVec 64) : m'.swapOffset e = m.swapOffset e := by
    unfold Mem.swapOffset
    rw [hmax]
  unfold Mem.pageAt
  rw [hpte, hoff]
  by_cases hval : pteValid (m.pteAt d v)
  · rw [if_pos hval, if_pos hval, hframe _ (pteFrame_eq_some.2 ⟨hval, rfl⟩)]
  · rw [if_neg hval, if_neg hval]
    by_cases hz : m.pteAt d v = 0
    · rw [if_pos hz, if_pos hz]
    · rw [if_neg hz, if_neg hz]
      cases ho : m.swapOffset (m.pteAt d v) with
      | none => rfl
      | some o => exact congrArg some (hdisk ⟨Bool.eq_false_iff.2 hval, hz⟩ o ho)

theorem swappedOut_congr (h : m'.pteAt d v = m.pteAt d v) : m'.SwappedOut d v ↔ m.SwappedOut d v := by
  unfold Mem.SwappedOut
  rw [h]

namespace Slotted

theorem slotsUnshared (h : Slotted dirs K m role) : m.SlotsUnshared dirs := by
  rintro ⟨c, v⟩ hx ⟨d, w⟩ hy hsx hsy heq
  obtain ⟨hc, hv⟩ := mem_userSlots.1 hx
  obtain ⟨hd, hw⟩ := mem_userSlots.1 hy
  obtain ⟨hex, hlx⟩ := h.entry c hc v hv hsx
  obtain ⟨hey, hly⟩ := h.entry d hd w hw hsy
  dsimp only at heq
  rw [hex, hey, swapOffset_swapEntry hv hlx, swapOffset_swapEntry hw hly] at heq
  obtain rfl : v = w := Nat.succ.inj (Option.some.inj heq)
  rw [h.apart c hc d hd v hv hsx hsy]

/-- The slot of a page that has it to itself is not in use. -/
theorem writesUnused (h : Slotted dirs K m role) (hown : m.SwapsOwn dirs mm) : m.WritesUnused dirs := by
  rintro p hp ⟨c, w⟩ hx hs heq
  obtain ⟨hc, hw⟩ := mem_userSlots.1 hx
  obtain ⟨d, hd, -, hmap, -, hno⟩ := hown p hp
  have hlt := h.vaddr p (List.mem_of_head? hp)
  obtain ⟨he, hl⟩ := h.entry c hc w hw hs
  dsimp only at heq
  rw [he, swapOffset_swapEntry hw hl] at heq
  unfold Mem.swapOffset at heq
  rw [swapEntry_toNat hlt, ← vpn_eq hlt] at heq
  dsimp only at heq
  split at heq
  · obtain rfl : w = vpn (m.praVaddr p) := Nat.succ.inj (Option.some.inj heq)
    by_cases hcd : c = d
    · subst hcd
      have hval := (pteFrame_eq_some.1 hmap).1
      dsimp only at hval
      rw [hs.1] at hval
      cases hval
    · exact hno c hc hcd hs
  · cases heq

/-- The tables are as before, apart from entries that are valid or zero now. -/
theorem congr (h : Slotted dirs K m role) (hc : Counted dirs K m'.still role') (hv : SameVars m m')
    (hpte : ∀ d ∈ dirs, ∀ v < userVpn, m'.SwappedOut d v → m'.pteAt d v = m.pteAt d v) :
    Slotted dirs K m' role' := by
  have hold (d v : Nat) (hd : d ∈ dirs) (hv : v < userVpn) (hs : m'.SwappedOut d v) : m.SwappedOut d v :=
    (swappedOut_congr (hpte d hd v hv hs)).1 hs
  refine ⟨hc, hv.swapInitOk.trans h.on, ?_, ?_, fun d hd v hvv hs => ?_, fun c hc d hd v hvv hs hs' => ?_⟩
  · rw [hv.maxSwapOffset]
    exact h.offset
  · rw [hv.praList, hv.praVaddr]
    exact h.vaddr
  · rw [hpte d hd v hvv hs, hv.maxSwapOffset]
    exact h.entry d hd v hvv (hold d v hd hvv hs)
  · exact h.apart c hc d hd v hvv (hold c v hc hvv hs) (hold d v hd hvv hs')

/-- A page of `mm` that has its slot to itself is swapped out. -/
theorem evicted (h : Slotted dirs K m role) (hown : m.SwapsOwn dirs mm) (hs : m.swapOut (some mm) = some m') :
    ∃ d p, Evicted dirs K d (vpn (m.praVaddr p)) p m m' role ∧
      ∀ c ∈ dirs, c ≠ d → ¬ m.SwappedOut c (vpn (m.praVaddr p)) := by
  obtain ⟨p, rest, -, -, -, -, hq, -⟩ := swapOut_cases hs
  have hp : m.praList.head? = some p := by
    rw [hq]
    rfl
  obtain ⟨d, hd, hpg, hmap, hsole, hno⟩ := hown p hp
  exact ⟨d, p, h.swapOut hs hpg hd hp (h.vaddr p (List.mem_of_head? hp)) hmap hsole, hno⟩

theorem evict (h : Slotted dirs K m role) (he : Evicted dirs K d v p m m' role)
    (hno : ∀ c ∈ dirs, c ≠ d → ¬ m.SwappedOut c v) : Slotted dirs K m' (update role p .free) := by
  obtain ⟨hd, hv⟩ := mem_userSlots.1 he.mem
  have hpte (c w : Nat) (hc : c ∈ dirs) (hw : w < userVpn) (hne : ¬ (c = d ∧ w = v)) :
      m'.pteAt c w = m.pteAt c w := by
    rw [he.pte c hc w hw, if_neg hne]
  refine ⟨he.toCounted, he.swapInitOk.trans h.on, ?_, fun q hq => ?_, fun c hc w hw hs => ?_,
    fun b hb c hc w hw hs hs' => ?_⟩
  · rw [he.maxSwapOffset]
    exact h.offset
  · rw [he.praVaddr]
    refine h.vaddr q ?_
    rw [he.queue]
    exact List.mem_cons_of_mem _ hq
  · rw [he.maxSwapOffset]
    by_cases hcw : c = d ∧ w = v
    · obtain ⟨rfl, rfl⟩ := hcw
      rw [he.pte c hc w hw, if_pos ⟨rfl, rfl⟩]
      exact ⟨rfl, he.slot⟩
    · rw [hpte c w hc hw hcw]
      exact h.entry c hc w hw ((swappedOut_congr (hpte c w hc hw hcw)).1 hs)
  · by_cases hbw : b = d ∧ w = v
    · obtain ⟨rfl, rfl⟩ := hbw
      by_contra hbc
      have hcb : ¬ (c = b ∧ w = w) := fun hcb => hbc hcb.1.symm
      exact hno c hc (fun hcb => hbc hcb.symm) ((swappedOut_congr (hpte c w hc hw hcb)).1 hs')
    · by_cases hcw : c = d ∧ w = v
      · obtain ⟨rfl, rfl⟩ := hcw
        by_contra hbc
        exact hno b hb hbc ((swappedOut_congr (hpte b w hb hw hbw)).1 hs)
      · exact h.apart b hb c hc w hw ((swappedOut_congr (hpte b w hb hw hbw)).1 hs)
          ((swappedOut_congr (hpte c w hc hw hcw)).1 hs')

/-- Swapping out moves the contents of one page to the disk. -/
theorem pageAt_evict (h : Slotted dirs K m role) (he : Evicted dirs K d v p m m' role)
    (hno : ∀ c ∈ dirs, c ≠ d → ¬ m.SwappedOut c v) (hx : x ∈ userSlots dirs) :
    m'.pageAt x.1 x.2 = m.pageAt x.1 x.2 := by
  obtain ⟨hc, hw⟩ := mem_userSlots.1 hx
  obtain ⟨hd, hv⟩ := mem_userSlots.1 he.mem
  by_cases hxv : x.1 = d ∧ x.2 = v
  · obtain ⟨rfl, rfl⟩ := hxv
    have hpte : m'.pteAt x.1 x.2 = Mem.swapEntry (x.2 * pgSize) := by
      rw [he.pte _ hc _ hw, if_pos ⟨rfl, rfl⟩]
    have hlt : x.2 * pgSize < 2 ^ 38 := by
      unfold userVpn at hw
      unfold pgSize
      omega
    have hs : m'.SwappedOut x.1 x.2 := by
      unfold Mem.SwappedOut
      rw [hpte]
      exact ⟨pteValid_swapEntry _, swapEntry_ne_zero hlt⟩
    have hoff : m'.swapOffset (Mem.swapEntry (x.2 * pgSize)) = some (x.2 + 1) :=
      swapOffset_swapEntry hw (by rw [he.maxSwapOffset]; exact he.slot)
    rw [pageAt_mapped he.mapped, pageAt_swapped hs, hpte, hoff, he.disk, Option.map_some, Function.update_self]
  · apply pageAt_congr
    · rw [he.pte _ hc _ hw, if_neg hxv]
    · exact he.maxSwapOffset
    · intro q hq
      refine he.frame q ?_
      rw [(h.mapped_leaf hc hw hq).1]
      simp
    · intro hs o ho
      obtain ⟨hentry, hl⟩ := h.entry _ hc _ hw hs
      rw [hentry, swapOffset_swapEntry hw hl] at ho
      obtain rfl := Option.some.inj ho
      rw [he.disk, Function.update_of_ne]
      intro heq
      obtain rfl := Nat.succ.inj heq
      exact hno _ hc (fun hcd => hxv ⟨hcd, rfl⟩) hs

/-- A new page is mapped, with what was in the page before. -/
theorem inserted (h : Slotted dirs K m role) (ht : Fresh dirs t m role) (hi : Inserted dirs K d v t m m' role role') :
    Slotted dirs K m' role' ∧ m'.pageAt d v = some (m.frame t) ∧
      ∀ x ∈ userSlots dirs, x ≠ (d, v) → m'.pageAt x.1 x.2 = m.pageAt x.1 x.2 := by
  have hleaf (f : Nat) (hf : role f = .leaf) : m'.frame f = m.frame f := hi.frame f (by rw [hf]; simp)
  refine ⟨h.congr hi.toCounted hi.vars fun c hc w hw hs => hi.pte c hc w hw ?_, ?_, fun x hx hne => ?_⟩
  · rintro ⟨rfl, rfl⟩
    have hval := (pteFrame_eq_some.1 hi.new).1
    dsimp only at hval
    rw [hs.1] at hval
    cases hval
  · rw [pageAt_mapped hi.new, hleaf t ht.leaf]
  · obtain ⟨hc, hw⟩ := mem_userSlots.1 hx
    refine pageAt_congr (hi.pte _ hc _ hw fun he => hne (Prod.ext_iff.2 he)) hi.vars.maxSwapOffset
      (fun q hq => hleaf q (h.mapped_leaf hc hw hq).1) fun _ o _ => ?_
    rw [hi.vars.disk]

/-- What would be read for an entry of the disk is what was in the page. -/
theorem pageAt_read (h : Slotted dirs K m role) (hd : d ∈ dirs) (hv : v < userVpn)
    (ho : m.swapOffset (m.pteAt d v) = some o) : m.pageAt d v = some (m.disk o) := by
  have hlt : (m.pteAt d v >>> 8).toNat < m.maxSwapOffset ∧ m.pteAt d v ≠ 0 := by
    unfold Mem.swapOffset at ho
    dsimp only at ho
    split at ho
    · rename_i hc
      refine ⟨hc.2, fun hz => ?_⟩
      rw [hz] at hc
      exact absurd hc.1 (by decide)
    · cases ho
  have hs : m.SwappedOut d v := by
    refine ⟨Bool.eq_false_iff.2 fun hval => ?_, hlt.2⟩
    -- the offset of a valid entry is beyond the disk
    have hleaf := h.toCounted.paged.mapped ((h.root d).2 hd) hv hval
    have hpool := (h.pool (ptePpn (m.pteAt d v)) (by rw [hleaf]; simp)).1
    have hle := ptePpn_le (m.pteAt d v)
    have hmax := h.offset
    omega
  rw [pageAt_swapped hs, ho]
  rfl

end Slotted

theorem Mem.Keeps.refl (dirs : Finset Nat) (m : Mem A) : m.Keeps dirs m := ⟨fun _ _ _ h => h, rfl, fun _ => rfl⟩

theorem Mem.Keeps.trans (h : m.Keeps dirs m₁) (h' : m₁.Keeps dirs m₂) : m.Keeps dirs m₂ where
  page x hx w hw := h'.page x hx w (h.page x hx w hw)
  checkMm := h'.checkMm.trans h.checkMm
  pgdir mm := (h'.pgdir mm).trans (h.pgdir mm)

theorem Mem.Keeps.same (h : m.Keeps dirs m₁) (hv : SameVars m₁ m₂)
    (hp : ∀ x ∈ userSlots dirs, m₂.pageAt x.1 x.2 = m₁.pageAt x.1 x.2) : m.Keeps dirs m₂ where
  page x hx w hw := (hp x hx).trans (h.page x hx w hw)
  checkMm := hv.checkMm.trans h.checkMm
  pgdir mm := by
    rw [hv.mms]
    exact h.pgdir mm

namespace Slotted

/-- Inside an operation that has begun in the state `m₀`. -/
theorem swapInv (dirs : Finset Nat) (K : Nat → Prop) (m₀ : Mem A) :
    SwapInv dirs K (fun m => ∀ mm, m₀.checkMm = some mm → m.SwapsOwn dirs mm) fun m role =>
      Slotted dirs K m role ∧ m₀.Keeps dirs m where
  counted h := h.1.toCounted
  on h := h.1.on
  evict := by
    rintro m role m' ⟨h, hk⟩ hc hs
    cases hm : m.checkMm with
    | none =>
      rw [hm] at hs
      cases hs
    | some mm =>
      rw [hm] at hs
      obtain ⟨d, p, he, hno⟩ := h.evicted (hc mm (hk.checkMm.symm.trans hm)) hs
      refine ⟨d, _, p, he, h.evict he hno, fun x hx w hw => ?_, he.checkMm.trans hk.checkMm, fun mm => ?_⟩
      · exact (h.pageAt_evict he hno hx).trans (hk.page x hx w hw)
      · rw [he.mms]
        exact hk.pgdir mm
  table := by
    rintro m role t s e d p i ⟨h, hk⟩ ha he hl hi hv
    have hpaged := h.toCounted.paged
    have ht := hpaged.addTable ha he hl hi hv
    have hpte (c w : Nat) (hc : c ∈ dirs) (hw : w < userVpn) : (m.addTable s t e i).pteAt c w = m.pteAt c w :=
      ht.pteAt hpaged ((h.root c).2 hc) hw
    refine ⟨h.congr (h.toCounted.addTable ha he hl hi hv) ht.vars fun c hc w hw _ => hpte c w hc hw,
      hk.same ht.vars fun x hx => ?_⟩
    obtain ⟨hc, hw⟩ := mem_userSlots.1 hx
    refine pageAt_congr (hpte _ _ hc hw) rfl (fun q hq => ?_) fun _ _ _ => rfl
    have hleaf := (h.mapped_leaf hc hw hq).1
    rw [addTable_frame, Function.update_of_ne, Function.update_of_ne]
    · rintro rfl
      exact absurd (hleaf.symm.trans (hpaged.alloc_free ha)) (by simp)
    · rintro rfl
      exact absurd (hleaf.symm.trans he) (by simp)

theorem faultInv (K : Nat → Prop) (m₀ : Mem A) (hd : d ∈ dirs) (hpg : (m₀.mms mm).pgdir = some d) :
    FaultInv dirs K (fun m => ∀ mm, m₀.checkMm = some mm → m.SwapsOwn dirs mm) mm d
      (fun m role => Slotted dirs K m role ∧ m₀.Keeps dirs m) fun m role =>
      Slotted dirs K m role ∧ m₀.Keeps dirs m where
  before := swapInv dirs K m₀
  after := swapInv dirs K m₀
  dir := hd
  pgdir h := (h.2.pgdir mm).trans hpg
  alloc := by
    rintro m role t s ⟨h, hk⟩ ha
    exact ⟨h.congr (h.toCounted.alloc ha).1 (.alloc ha) fun _ _ _ _ _ => rfl, hk.same (.alloc ha) fun _ _ => rfl⟩
  write := by
    rintro m role t w ⟨h, hk⟩ ht
    have hpte (c x : Nat) (hc : c ∈ dirs) (hx : x < userVpn) : (m.setFrame t w).pteAt c x = m.pteAt c x :=
      h.toCounted.pteAt_write ht.leaf w hc hx
    refine ⟨h.congr (h.toCounted.write ht.leaf w).1 (.setFrame ..) fun c hc x hx _ => hpte c x hc hx,
      hk.same (.setFrame ..) fun x hx => ?_⟩
    obtain ⟨hc, hw⟩ := mem_userSlots.1 hx
    refine pageAt_congr (hpte _ _ hc hw) rfl (fun q hq => Function.update_of_ne ?_ ..) fun _ _ _ => rfl
    rintro rfl
    exact ht.unmapped x hx hq

theorem cache (h : Slotted dirs K m role) (c : Option Vma) :
    Slotted dirs K (m.setMm mm { m.mms mm with mmapCache := c }) role ∧
      m.Keeps dirs (m.setMm mm { m.mms mm with mmapCache := c }) := by
  refine ⟨⟨h.toCounted.congr rfl rfl rfl rfl, h.on, h.offset, h.vaddr, h.entry, h.apart⟩, fun _ _ _ hw => hw, rfl,
    fun mm' => ?_⟩
  unfold Mem.setMm
  dsimp only
  by_cases hm : mm' = mm
  · rw [hm, Function.update_self]
  · rw [Function.update_of_ne hm]

/-- The new page of a fault has the contents of the page, if there are any. -/
theorem mapsNew
    (h : MapsNew dirs K (fun m role => Slotted dirs K m role ∧ m₀.Keeps dirs m) d v t w m₂)
    (hw : ∀ u, m₀.pageAt d v = some u → u = w) : (∃ role', Slotted dirs K m₂ role') ∧ m₀.Keeps dirs m₂ := by
  obtain ⟨m₁, role₁, role₂, ⟨h₁, hk⟩, ht, hwt, hi⟩ := h
  obtain ⟨h₂, hnew, hother⟩ := h₁.inserted ht hi
  refine ⟨⟨role₂, h₂⟩, fun x hx u hu => ?_, hi.vars.checkMm.trans hk.checkMm, fun mm => ?_⟩
  · by_cases hxv : x = (d, v)
    · subst hxv
      rw [hnew, hwt, hw u hu]
    · exact (hother x hx hxv).trans (hk.page x hx u hu)
  · rw [hi.vars.mms]
    exact hk.pgdir mm

theorem enqueue (h : Slotted dirs K m role) (hla : la < 2 ^ 38) (t : Nat) :
    Slotted dirs K (m.enqueue t la) role := by
  refine ⟨h.toCounted.congr rfl rfl rfl rfl, h.on, h.offset, fun p hp => ?_, h.entry, h.apart⟩
  by_cases hpt : p = t
  · have hself : (m.enqueue t la).praVaddr p = la := by
      rw [hpt]
      exact Function.update_self ..
    rw [hself]
    exact hla
  · have hne : (m.enqueue t la).praVaddr p = m.praVaddr p := Function.update_of_ne hpt ..
    rw [hne]
    refine h.vaddr p ((List.mem_append.1 hp).resolve_right fun hm => hpt (List.mem_singleton.1 hm))

theorem swapOuts (h : Slotted dirs K m role) (hs : m.swapOuts mm n = some m')
    (hown : ∀ k < n, ∀ m₁, m.swapOuts mm k = some m₁ → m₁.SwapsOwn dirs mm) :
    (∃ role', Slotted dirs K m' role') ∧ m.Keeps dirs m' := by
  induction n generalizing m' with
  | zero =>
    cases hs
    exact ⟨⟨role, h⟩, .refl ..⟩
  | succ n ih =>
    obtain ⟨m₁, h₁, hs⟩ := Option.bind_eq_some_iff.1 hs
    obtain ⟨⟨role₁, hr₁⟩, hk⟩ := ih h₁ fun k hk => hown k (Nat.lt_succ_of_lt hk)
    obtain ⟨d, p, he, hno⟩ := hr₁.evicted (hown n (Nat.lt_succ_self n) m₁ h₁) hs
    refine ⟨⟨_, hr₁.evict he hno⟩, hk.trans ⟨fun x hx w hw => ?_, he.checkMm, fun mm => by rw [he.mms]⟩⟩
    exact (hr₁.pageAt_evict he hno hx).trans hw

/-- An operation that swaps out only pages with a slot of their own keeps what is in the pages. -/
theorem step (h : Slotted dirs K m role) (hms : ∀ mm ∈ mms, ∃ d ∈ dirs, (m.mms mm).pgdir = some d)
    (ha : op.Among mms) (hown : op.SwapsOwn dirs m) (hr : op.run m = some m') :
    (∃ role', Slotted dirs K m' role') ∧ m.Keeps dirs m' := by
  cases op with
  | doPgfault mm addr =>
    obtain ⟨d, hd, hpg⟩ := hms mm ha.1
    obtain ⟨⟨ret, m₁⟩, hf, hr⟩ := Option.map_eq_some_iff.1 hr
    cases hr
    have hla : roundDown addr pgSize < 2 ^ 38 := Nat.lt_of_le_of_lt (Nat.sub_le ..) ha.2
    have hv := vpn_lt hla
    have hF := faultInv K m hd hpg
    have hres := hF.doPgfault ⟨h, .refl ..⟩ hpg (h.cache ·) ha.2
      (fun m₁ hs mm' hc => hown mm' m₁ ⟨hc, d, hpg, hs⟩) hf
    cases hres with
    | invalid h' => exact ⟨⟨_, h'.1⟩, h'.2⟩
    | zero h' hz hnew hq =>
      obtain ⟨⟨role₂, h₂⟩, hk⟩ := mapsNew hnew fun u hu => by
        have hu' := h'.2.page _ (mem_userSlots.2 ⟨hd, hv⟩) u hu
        dsimp only at hu'
        rw [Mem.pageAt, hz] at hu'
        cases hu'
      rcases hq with ⟨-, rfl⟩ | ⟨-, rfl⟩
      · exact ⟨⟨role₂, h₂.enqueue hla _⟩, hk.page, hk.checkMm, hk.pgdir⟩
      · exact ⟨⟨role₂, h₂⟩, hk⟩
    | read h' ho hnew hq =>
      obtain ⟨⟨role₂, h₂⟩, hk⟩ := mapsNew hnew fun u hu => by
        have hu' := h'.2.page _ (mem_userSlots.2 ⟨hd, hv⟩) u hu
        exact Option.some.inj (hu'.symm.trans (h'.1.pageAt_read hd hv ho))
      rw [hq]
      exact ⟨⟨role₂, h₂.enqueue hla _⟩, hk.page, hk.checkMm, hk.pgdir⟩
  | swapOut mm n => exact h.swapOuts hr fun k hk m₁ h₁ => hown mm m₁ ⟨rfl, k, hk, h₁⟩
  | pgdirAllocPage | pageRemove | unmapRange => cases ha

/-- The states in which an operation swaps out. -/
theorem swaps (h : Slotted dirs K m role) (hms : ∀ mm ∈ mms, ∃ d ∈ dirs, (m.mms mm).pgdir = some d)
    (ha : op.Among mms) (hown : op.SwapsOwn dirs m) (hs : op.Swaps m mm m₁) : ∃ role₁, Slotted dirs K m₁ role₁ := by
  cases op with
  | doPgfault mm' addr =>
    obtain ⟨d, hd, hpg⟩ := hms mm' ha.1
    obtain ⟨-, d', hpg', hs⟩ := hs
    obtain rfl := Option.some.inj (hpg'.symm.trans hpg)
    have hF := faultInv K m hd hpg
    obtain ⟨role₁, h₁⟩ := hF.doPgfault_swaps ⟨h, .refl ..⟩ (h.cache ·) ha.2
      (fun m₁ hs mm' hc => hown mm' m₁ ⟨hc, d', hpg, hs⟩) hs
    exact ⟨role₁, h₁.elim And.left And.left⟩
  | swapOut mm' n =>
    obtain ⟨rfl, k, hk, h₁⟩ := hs
    exact (h.swapOuts h₁ fun j hj m₂ h₂ => hown mm' m₂ ⟨rfl, j, Nat.lt_trans hj hk, h₂⟩).1
  | pgdirAllocPage | pageRemove | unmapRange => cases ha

/-- What is swapped out alone has a slot of its own. -/
theorem alone (h : Slotted dirs K m role) (hms : ∀ mm ∈ mms, ∃ d ∈ dirs, (m.mms mm).pgdir = some d)
    (ha : op.Among mms) (hal : op.Alone dirs m) : op.SwapsOwn dirs m := by
  cases op with
  | doPgfault mm' addr =>
    obtain ⟨d, hd, hpg⟩ := hms mm' ha.1
    rintro mm m₁ ⟨-, d', hpg', hs⟩ p hp
    obtain rfl := Option.some.inj (hpg'.symm.trans hpg)
    rw [doPgfaultSwaps_nil h.toCounted h.on hal hpg hd ha.2 hs] at hp
    cases hp
  | swapOut mm' n =>
    obtain ⟨rfl, hal⟩ := hal
    rintro mm m₁ ⟨rfl, k, hk, h₁⟩ p hp
    obtain rfl := Nat.lt_one_iff.1 hk
    cases h₁
    obtain ⟨d, hd, hpg, hm, href, hothers⟩ := hal p hp
    have hv := vpn_lt (h.vaddr p (List.mem_of_mem_head? hp))
    have hcount : m.ref p = m.mapCount dirs p := h.exact p (h.mapped_leaf hd hv hm).1
    have hone : m.mapCount dirs p = 1 := by exact_mod_cast hcount.symm.trans href
    exact ⟨d, hd, hpg, hm, fun x hx hx' => tally_sole hone (mem_userSlots.2 ⟨hd, hv⟩) hm hx hx', hothers⟩
  | pgdirAllocPage | pageRemove | unmapRange => cases ha

end Slotted

theorem slotMachine_slotted (h : ((slotMachine A dirs K mms).restrict (SwapOp.SwapsOwn dirs)).Reachable m) :
    (∃ role, Slotted dirs K m role) ∧ ∀ mm ∈ mms, ∃ d ∈ dirs, (m.mms mm).pgdir = some d := by
  refine h.restrict_invariant (fun m => (∃ role, Slotted dirs K m role) ∧
    ∀ mm ∈ mms, ∃ d ∈ dirs, (m.mms mm).pgdir = some d) ?_ ?_
  · rintro m ⟨hr, hon, hmax, hms, hq, hno⟩
    obtain ⟨role, hc⟩ := pageMachine_counted hr
    refine ⟨⟨role, hc, hon, hmax, ?_, fun d hd v hv hs => absurd hs (hno d hd v hv),
      fun c hc _ _ v hv hs => absurd hs (hno c hc v hv)⟩, hms⟩
    simp [hq]
  · rintro m op m' ⟨⟨role, h⟩, hms⟩ ha hown hn
    obtain ⟨h', hk⟩ := h.step hms ha hown hn
    refine ⟨h', fun mm hm => ?_⟩
    rw [hk.pgdir]
    exact hms mm hm

/-- Along a run the pages keep their contents. -/
theorem slotMachine_keeps (h : ((slotMachine A dirs K mms).restrict (SwapOp.SwapsOwn dirs)).Reachable m)
    (hp : ((slotMachine A dirs K mms).restrict (SwapOp.SwapsOwn dirs)).Path m r) :
    m.Keeps dirs (Machine.endOf m r) := by
  induction r generalizing m with
  | nil => exact .refl dirs m
  | cons y r ih =>
    obtain ⟨⟨role, hs⟩, hms⟩ := slotMachine_slotted h
    exact (hs.step hms hp.1.1 hp.1.2 hp.2.1).2.trans (ih (.step h hp.1 hp.2.1) hp.2.2)

/-- As long as only pages are swapped out that have a slot of their own, no slot is shared, none in use is
written, and every page keeps its contents along every run. -/
theorem slots_unshared (h : ((slotMachine A dirs K mms).restrict (SwapOp.SwapsOwn dirs)).Reachable m) :
    m.SlotsUnshared dirs ∧
    (∀ (op : SwapOp) mm m₁, op.Among mms → op.SwapsOwn dirs m → op.Swaps m mm m₁ → m₁.WritesUnused dirs) ∧
    ∀ r, ((slotMachine A dirs K mms).restrict (SwapOp.SwapsOwn dirs)).Path m r → ∀ x ∈ userSlots dirs, ∀ w,
      m.pageAt x.1 x.2 = some w → (Machine.endOf m r).pageAt x.1 x.2 = some w := by
  obtain ⟨⟨role, hs⟩, hms⟩ := slotMachine_slotted h
  refine ⟨hs.slotsUnshared, fun op mm m₁ ha hown hsw => ?_, fun r hp => (slotMachine_keeps h hp).page⟩
  obtain ⟨role₁, h₁⟩ := hs.swaps hms ha hown hsw
  exact h₁.writesUnused (hown mm m₁ hsw)

end

/-- Two address spaces with the empty directories 0x80200 and 0x80201, of one page and of two, and free frames with
different contents. -/
def twoMem : Mem framePool :=
  { poolMem with
    phys := ⟨List.range' 0x80300 8, [], by decide⟩
    frame := fun f _ => if f < 0x80300 then 0 else BitVec.ofNat 64 f
    swapInitOk := true
    maxSwapOffset := 7
    checkMm := some 1
    mms := fun mm => ⟨[⟨0, 0x1000, 0x1000 * (mm + 1), vmRead ||| vmWrite⟩], none, some (0x801ff + mm), 0, true, 0⟩ }

instance : (op : SwapOp) → Decidable (op.Among mms)
  | .doPgfault .. => inferInstanceAs (Decidable (_ ∧ _))
  | .swapOut .. => inferInstanceAs (Decidable (_ ∈ _))
  | .pgdirAllocPage .. | .pageRemove .. | .unmapRange .. => inferInstanceAs (Decidable False)

instance (m : Mem A) (op : SwapOp) : Decidable ((slotMachine A dirs K mms).enabled m op) :=
  inferInstanceAs (Decidable (op.Among mms))

def twoMachine : Machine (Mem framePool) SwapOp :=
  slotMachine framePool {0x80200, 0x80201} (fun f => f < 0x80200 ∨ 0x80308 ≤ f) {1, 2}

instance (m : Mem framePool) (op : SwapOp) : Decidable (twoMachine.enabled m op) :=
  inferInstanceAs (Decidable (op.Among {1, 2}))

theorem twoMem_frame (hd : d ∈ ({0x80200, 0x80201} : Finset Nat)) (i : Nat) : twoMem.frame d i = 0 := by
  have hd' : d < 0x80300 := by
    simp only [Finset.mem_insert, Finset.mem_singleton] at hd
    omega
  exact if_pos hd'

theorem twoMem_init : twoMachine.init twoMem := by
  have hfree (f : Nat) : framePool.free twoMem.phys f ↔ 0x80300 ≤ f ∧ f < 0x80308 := List.mem_range'_1
  refine ⟨.init ⟨rfl, fun d hd => ?_, fun f hf => ?_, fun f hf => ?_⟩, rfl, by decide, fun mm hm => ?_, rfl,
    fun d hd v hv hs => ?_⟩
  · refine ⟨?_, ?_, fun i _ => ?_⟩
    · rw [show (twoMem.still).phys = twoMem.phys from rfl, hfree]
      simp only [Finset.mem_insert, Finset.mem_singleton] at hd
      omega
    · simp only [Finset.mem_insert, Finset.mem_singleton] at hd
      omega
    · rw [show twoMem.still.frame d i = twoMem.frame d i from rfl, twoMem_frame hd]
      rfl
  · have hf' := (hfree f).1 hf
    omega
  · unfold npage
    exact ⟨by omega, by omega, id, fun _ => rfl⟩
  · simp only [Finset.mem_insert, Finset.mem_singleton] at hm
    rcases hm with rfl | rfl
    · exact ⟨0x80200, by simp, rfl⟩
    · exact ⟨0x80201, by simp, rfl⟩
  · refine hs.2 (pteAt_empty (fun i _ => ?_) hv)
    rw [twoMem_frame hd]
    rfl

instance (m : Mem A) (d v : Nat) : Decidable (m.SwappedOut d v) := inferInstanceAs (Decidable (_ ∧ _))

instance (m : Mem A) (dirs : Finset Nat) : (op : SwapOp) → Decidable (op.Alone dirs m)
  | .doPgfault .. => inferInstanceAs (Decidable (m.praList = []))
  | .swapOut .. => inferInstanceAs (Decidable (_ ∧ _))
  | .pgdirAllocPage .. | .pageRemove .. | .unmapRange .. => inferInstanceAs (Decidable False)

/-- Runs in which every page is swapped out alone. -/
def aloneMachine : Machine (Mem framePool) SwapOp := twoMachine.restrict (SwapOp.Alone {0x80200, 0x80201})

instance (m : Mem framePool) (op : SwapOp) : Decidable (aloneMachine.enabled m op) :=
  inferInstanceAs (Decidable (twoMachine.enabled m op ∧ op.Alone {0x80200, 0x80201} m))

theorem aloneMachine_own (h : aloneMachine.Reachable m) :
    (twoMachine.restrict (SwapOp.SwapsOwn {0x80200, 0x80201})).Reachable m := by
  refine h.restrict_imp fun m op hr ha hal => ?_
  obtain ⟨⟨role, hs⟩, hms⟩ := slotMachine_slotted hr
  exact hs.alone hms ha hal

/-- The first maps a page at 0x1000 and the second one at 0x2000, both pages are swapped out, and the first comes
back with its contents. -/
theorem slots_unshared_two : ∃ m m', aloneMachine.exec twoMem [.doPgfault 1 0x1000, .swapOut 1 1, .doPgfault 2 0x2000,
      .swapOut 2 1] = some m ∧ m.SwappedOut 0x80200 1 ∧ m.SwappedOut 0x80201 2 ∧
    m.SlotsUnshared {0x80200, 0x80201} ∧ (SwapOp.doPgfault 1 0x1000).run m = some m' ∧
    ∃ w, m.pageAt 0x80200 1 = some w ∧ m'.mapped (0x80200, 1) = some 0x80304 ∧ m'.pageAt 0x80200 1 = some w := by
  have hrun : ((aloneMachine.exec twoMem [.doPgfault 1 0x1000, .swapOut 1 1, .doPgfault 2 0x2000,
      .swapOut 2 1]).bind fun m => ((SwapOp.doPgfault 1 0x1000).run m).map fun m' => decide (
        m.SwappedOut 0x80200 1 ∧ m.SwappedOut 0x80201 2 ∧ aloneMachine.enabled m (.doPgfault 1 0x1000) ∧
        (m.pageAt 0x80200 1).isSome ∧ m'.mapped (0x80200, 1) = some 0x80304)) = some true := by
    decide
  obtain ⟨m, hm, hrun⟩ := Option.bind_eq_some_iff.1 hrun
  obtain ⟨m', hm', hrun⟩ := Option.map_eq_some_iff.1 hrun
  obtain ⟨h₁, h₂, he, hw, hmap⟩ := of_decide_eq_true hrun
  obtain ⟨w, hw⟩ := Option.isSome_iff_exists.1 hw
  have hr : aloneMachine.Reachable m := .exec (.init twoMem_init) hm
  obtain ⟨hun, -, hkeep⟩ := slots_unshared (aloneMachine_own hr)
  obtain ⟨⟨role, hs⟩, hms⟩ := slotMachine_slotted (aloneMachine_own hr)
  have hp : (twoMachine.restrict (SwapOp.SwapsOwn {0x80200, 0x80201})).Path m [(.doPgfault 1 0x1000, m')] :=
    ⟨⟨he.1, hs.alone hms he.1 he.2⟩, hm', trivial⟩
  exact ⟨m, m', hm, h₁, h₂, hun, hm', w, hw, hmap, hkeep _ hp (0x80200, 1) (mem_userSlots.2 ⟨by decide, by decide⟩) w hw⟩

/-- Both map a page at 0x1000 and swap it out, and the first one gets the page of the second. -/
theorem slots_shared : ∃ m r, twoMachine.Reachable m ∧ twoMachine.Path m r ∧ ∃ w, m.pageAt 0x80200 1 = some w ∧
    (Machine.endOf m r).pageAt 0x80200 1 ≠ some w := by
  have hrun : ((twoMachine.exec twoMem [.doPgfault 1 0x1000, .doPgfault 2 0x1000]).bind fun m =>
      (twoMachine.trace m [.swapOut 1 1, .swapOut 2 1, .doPgfault 1 0x1000]).map fun r =>
        ((m.pageAt 0x80200 1).map (· 0), ((Machine.endOf m r).pageAt 0x80200 1).map (· 0))) =
      some (some 0x80302, some 0x80305) := by
    decide
  obtain ⟨m, hm, hrun⟩ := Option.bind_eq_some_iff.1 hrun
  obtain ⟨r, hr, hpages⟩ := Option.map_eq_some_iff.1 hrun
  obtain ⟨w, hw, hw₀⟩ := Option.map_eq_some_iff.1 (Prod.mk.inj hpages).1
  refine ⟨m, r, .exec (.init twoMem_init) hm, Machine.trace_path hr, w, hw, fun hc => ?_⟩
  have hpage := (Prod.mk.inj hpages).2
  rw [hc, Option.map_some, hw₀] at hpage
  exact absurd hpage (by decide)

end UCore
