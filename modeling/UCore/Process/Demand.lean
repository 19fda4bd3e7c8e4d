import UCore.Lib.FlatMemory
import UCore.Mm.FaultPresent
import UCore.Mm.SwapQueue
import UCore.Process.FaultPerm

namespace UCore
set_option autoImplicit true
open Function (update)

namespace Mem
variable {A : PhysSys}

/-- `pgfault_handler` while `check_mm_struct` is set. -/
def checkFault (m : Mem A) (addr : Nat) : Option (Int × Mem A) := do m.doPgfault (some (← m.checkMm)) addr

/-- An access to an address of the checked address space: the frame and the offset in it, after the faults that it
takes. The kernel panics where one of them fails. -/
def touchChecked (m : Mem A) (d addr : Nat) (perm : BitVec 32) : Nat → Option ((Nat × Nat) × Mem A)
  | 0 => none
  | fuel + 1 =>
    match (m.translate d addr).filter fun r => r.2 &&& perm ≠ 0 with
    | some (pa, _) => (kva (pa / pgSize)).map fun f => ((f, pa % pgSize), m)
    | none => do
      let (ret, m) ← m.checkFault addr
      if ret ≠ 0 then none else m.touchChecked d addr perm fuel

/-- A load or a store of a byte, with the byte. -/
def demandAccess (m : Mem A) (d fuel : Nat) : Access Nat (BitVec 8) → Option (BitVec 8 × Mem A)
  | .load la => (m.touchChecked d la pteR fuel).map fun ((f, off), m) => ((m.frame f).byte off, m)
  | .store la b => do
    let ((f, off), m) ← m.touchChecked d la pteW fuel
    (m.writePage f off 1 fun _ => b).map fun m => (b, m)

def returned (m : Mem A) (d fuel : Nat) (a : Access Nat (BitVec 8)) : Option (BitVec 8) :=
  (m.demandAccess d fuel a).map Prod.fst

/-- The areas of the address space can be written, and there is a slot of the disk for each of their pages. -/
structure Swappable (m : Mem A) (mm : Nat) : Prop where
  priv : (m.mms mm).smPriv = true
  bound : ∀ vma ∈ (m.mms mm).mmapList, vma.vmEnd ≤ 2 ^ 38
  write : ∀ vma ∈ (m.mms mm).mmapList, vma.vmFlags &&& vmWrite ≠ 0
  slot : ∀ vma ∈ (m.mms mm).mmapList, ∀ la, vma.Covers la → vpn la + 1 < m.maxSwapOffset

/-- When the access needs a page and the allocator has none, there is a page to swap out. -/
def Fed (m : Mem A) (mm d : Nat) (a : Access Nat (BitVec 8)) : Prop :=
  pteValid (m.pteAt d (vpn a.addr)) = false → ∀ m₁, m.DoPgfaultSwaps mm d a.addr m₁ → m₁.praList ≠ []

/-- What the byte at an address of the address space is, if that is determined. -/
def byteAt (m : Mem A) (d la : Nat) : Option (BitVec 8) :=
  if la < 2 ^ 38 then (m.pageAt d (vpn la)).map fun w => w.byte (la % pgSize) else none

end Mem

/-- Loads and stores in the areas of the address space `mm` with the directory `d`, from the time on when swapping is
turned on for it and it has no page yet. -/
def demandMachine (A : PhysSys) (dirs : Finset Nat) (K : Nat → Prop) (mm d fuel : Nat) :
    Machine (Mem A) (Access Nat (BitVec 8)) where
  init m := (pageMachine A dirs K).Reachable m.still ∧ m.swapInitOk = true ∧ m.checkMm = some mm ∧
    (m.mms mm).pgdir = some d ∧ d ∈ dirs ∧ m.praList = [] ∧ VmaTidy (m.mms mm) ∧ m.Swappable mm ∧
    (∀ v < userVpn, m.pteAt d v = 0) ∧ ∀ c ∈ dirs, ∀ v < userVpn, ¬ m.SwappedOut c v
  enabled m a := ∃ vma ∈ (m.mms mm).mmapList, vma.Covers a.addr
  next m a := (m.demandAccess d (fuel + 2) a).map Prod.snd

/-- The pages of the address space are in frames of their own or in the slots of their numbers, and the other address
spaces have none on the disk. -/
structure Demand {A : PhysSys} (dirs : Finset Nat) (K : Nat → Prop) (mm d : Nat) (m : Mem A) (role : Nat → Role) : Prop
    extends Queued dirs K mm d m role where
  areas : m.Swappable mm
  entry : ∀ c ∈ dirs, ∀ v < userVpn, m.SwappedOut c v →
    c = d ∧ m.pteAt c v = Mem.swapEntry (v * pgSize) ∧ v + 1 < m.maxSwapOffset
  slots : ∀ p ∈ m.praList, vpn (m.praVaddr p) + 1 < m.maxSwapOffset
  flags : ∀ v < userVpn, pteValid (m.pteAt d v) → pteFlags (m.pteAt d v) = pteU ||| readWrite
  once : ∀ v < userVpn, ∀ p, m.mapped (d, v) = some p → ∀ x ∈ userSlots dirs, m.mapped x = some p → x = (d, v)

/-- Inside a fault at the page number `v` that has begun in the state `m₀`. -/
def Faulting {A : PhysSys} (dirs : Finset Nat) (K : Nat → Prop) (mm d v : Nat) (m₀ m : Mem A) (role : Nat → Role) :
    Prop :=
  Demand dirs K mm d m role ∧ pteValid (m.pteAt d v) = false ∧ m.maxSwapOffset = m₀.maxSwapOffset ∧
    ∀ x ∈ userSlots dirs, m.pageAt x.1 x.2 = m₀.pageAt x.1 x.2

section
variable {A : PhysSys} {m m' m₀ m₁ m₂ : Mem A} {role role' role₁ : Nat → Role} {dirs : Finset Nat} {K : Nat → Prop}

theorem Mem.Swappable.congr (h : m.Swappable mm) (hm : m'.mms = m.mms) (ho : m'.maxSwapOffset = m.maxSwapOffset) :
    m'.Swappable mm := by
  obtain ⟨hp, hb, hw, hs⟩ := h
  refine ⟨?_, ?_, ?_, ?_⟩ <;> rw [hm]
  · exact hp
  · exact hb
  · exact hw
  · rw [ho]
    exact hs

theorem Mem.Swappable.cache (h : m.Swappable mm) (c : Option Vma) :
    (m.setMm mm { m.mms mm with mmapCache := c }).Swappable mm := by
  refine ⟨?_, ?_, ?_, ?_⟩ <;> rw [setMm_self]
  · exact h.priv
  · exact h.bound
  · exact h.write
  · exact h.slot

namespace Demand

/-- Only the entries matter. -/
theorem same (h : Demand dirs K mm d m role) (hc : Counted dirs K m'.still role') (hv : SameVars m m')
    (hpte : ∀ c ∈ dirs, ∀ w < userVpn, m'.pteAt c w = m.pteAt c w) : Demand dirs K mm d m' role' := by
  have hmap (x : Nat × Nat) (hx : x ∈ userSlots dirs) : m'.mapped x = m.mapped x := by
    obtain ⟨hc, hw⟩ := mem_userSlots.1 hx
    rw [Mem.mapped, hpte _ hc _ hw]
    rfl
  refine ⟨h.toQueued.same hc hv hpte, h.areas.congr hv.mms hv.maxSwapOffset, fun c hc v hvv hs => ?_, ?_,
    fun v hvv hval => ?_, fun v hvv p hp x hx hx' => ?_⟩
  · rw [hpte c hc v hvv, hv.maxSwapOffset]
    exact h.entry c hc v hvv ((swappedOut_congr (hpte c hc v hvv)).1 hs)
  · rw [hv.praList, hv.praVaddr, hv.maxSwapOffset]
    exact h.slots
  · rw [hpte d h.dir v hvv] at hval ⊢
    exact h.flags v hvv hval
  · rw [hmap _ (mem_userSlots.2 ⟨h.dir, hvv⟩)] at hp
    rw [hmap x hx] at hx'
    exact h.once v hvv p hp x hx hx'

theorem cache (h : Demand dirs K mm d m role) (c : Option Vma) :
    Demand dirs K mm d (m.setMm mm { m.mms mm with mmapCache := c }) role :=
  ⟨h.toQueued.cache c, h.areas.cache c, h.entry, h.slots, h.flags, h.once⟩

theorem findVma (h : Demand dirs K mm d m role) (hf : m.findVma (some mm) addr = (r, m')) :
    Demand dirs K mm d m' role := by
  rcases findVma_cases hf with rfl | ⟨c, rfl⟩
  · exact h
  · exact h.cache c

/-- The entry of a page number that is swapped out. -/
theorem pageAt_slot (h : Demand dirs K mm d m role) (hc : c ∈ dirs) (hv : v < userVpn) (hs : m.SwappedOut c v) :
    m.swapOffset (m.pteAt c v) = some (v + 1) := by
  obtain ⟨-, he, hl⟩ := h.entry c hc v hv hs
  rw [he, swapOffset_swapEntry hv hl]

/-- `swap_out` moves the contents of the first page of the queue to the disk. -/
theorem evict (h : Demand dirs K mm d m role) (he : Evicted dirs K d v p m m' role) :
    Demand dirs K mm d m' (update role p .free) ∧ ∀ x ∈ userSlots dirs, m'.pageAt x.1 x.2 = m.pageAt x.1 x.2 := by
  obtain ⟨hd, hv⟩ := mem_userSlots.1 he.mem
  have hlt : v * pgSize < 2 ^ 38 := by
    unfold userVpn at hv
    unfold pgSize
    omega
  have hself : m'.pteAt d v = Mem.swapEntry (v * pgSize) := by
    rw [he.pte d hd v hv, if_pos ⟨rfl, rfl⟩]
  have hother (c w : Nat) (hc : c ∈ dirs) (hw : w < userVpn) (hne : ¬ (c = d ∧ w = v)) : m'.pteAt c w = m.pteAt c w := by
    rw [he.pte c hc w hw, if_neg hne]
  have hq : ∀ q ∈ m'.praList, q ∈ m.praList := fun q hq => by
    rw [he.queue]
    exact List.mem_cons_of_mem _ hq
  constructor
  · refine ⟨h.toQueued.evict he, h.areas.congr he.mms he.maxSwapOffset, fun c hc w hw hs => ?_, fun q hm => ?_,
      fun w hw hval => ?_, fun w hw q hm x hx hx' => ?_⟩
    · rw [he.maxSwapOffset]
      by_cases hcw : c = d ∧ w = v
      · obtain ⟨rfl, rfl⟩ := hcw
        exact ⟨rfl, hself, he.slot⟩
      · rw [hother c w hc hw hcw]
        exact h.entry c hc w hw ((swappedOut_congr (hother c w hc hw hcw)).1 hs)
    · rw [he.praVaddr, he.maxSwapOffset]
      exact h.slots q (hq q hm)
    · by_cases hwv : w = v
      · subst hwv
        rw [hself, pteValid_swapEntry] at hval
        cases hval
      · rw [hother d w hd hw fun hc => hwv hc.2] at hval ⊢
        exact h.flags w hw hval
    · obtain ⟨-, hold⟩ := he.mapped_of (mem_userSlots.2 ⟨hd, hw⟩) hm
      exact h.once w hw q hold x hx (he.mapped_of hx hx').2
  · rintro ⟨c, w⟩ hx
    obtain ⟨hc, hw⟩ := mem_userSlots.1 hx
    by_cases hcw : c = d ∧ w = v
    · obtain ⟨rfl, rfl⟩ := hcw
      have hs : m'.SwappedOut c w := by
        unfold Mem.SwappedOut
        rw [hself]
        exact ⟨pteValid_swapEntry _, swapEntry_ne_zero hlt⟩
      have hoff : m'.swapOffset (Mem.swapEntry (w * pgSize)) = some (w + 1) :=
        swapOffset_swapEntry hw (by rw [he.maxSwapOffset]; exact he.slot)
      dsimp only
      rw [pageAt_mapped he.mapped, pageAt_swapped hs, hself, hoff, he.disk, Option.map_some, Function.update_self]
    · refine pageAt_congr (hother c w hc hw hcw) he.maxSwapOffset (fun q hq => he.frame q ?_) fun hs o ho => ?_
      · rw [(h.mapped_leaf hc hw hq).1]
        simp
      · dsimp only at hs ho
        rw [h.pageAt_slot hc hw hs] at ho
        obtain rfl := Option.some.inj ho
        rw [he.disk, Function.update_of_ne]
        intro heq
        exact hcw ⟨(h.entry c hc w hw hs).1, Nat.succ.inj heq⟩

/-- A new page of the address space is mapped for writing and put into the queue. -/
theorem insert (h : Demand dirs K mm d m role) (ht : Fresh dirs t m role) (hla : la < 2 ^ 38)
    (hval : pteValid (m.pteAt d (vpn la)) = false) (hi : Inserted dirs K d (vpn la) t m m' role role')
    (hmax : vpn la + 1 < m.maxSwapOffset) (hfl : pteFlags (m'.pteAt d (vpn la)) = pteU ||| readWrite) :
    Demand dirs K mm d (m'.enqueue t la) role' ∧ (m'.enqueue t la).pageAt d (vpn la) = some (m.frame t) ∧
      ∀ x ∈ userSlots dirs, x ≠ (d, vpn la) → (m'.enqueue t la).pageAt x.1 x.2 = m.pageAt x.1 x.2 := by
  have hv := vpn_lt hla
  have hleaf (f : Nat) (hf : role f = .leaf) : m'.frame f = m.frame f := hi.frame f (by rw [hf]; simp)
  have hpte (c w : Nat) : (m'.enqueue t la).pteAt c w = m'.pteAt c w := pteAt_frame rfl
  have hother (x : Nat × Nat) (hx : x ∈ userSlots dirs) (hne : x ≠ (d, vpn la)) :
      (m'.enqueue t la).pteAt x.1 x.2 = m.pteAt x.1 x.2 := by
    obtain ⟨hc, hw⟩ := mem_userSlots.1 hx
    rw [hpte]
    exact hi.pte _ hc _ hw fun he => hne (Prod.ext_iff.2 he)
  have hmap (x : Nat × Nat) (hx : x ∈ userSlots dirs) (hne : x ≠ (d, vpn la)) :
      (m'.enqueue t la).mapped x = m.mapped x := by
    rw [Mem.mapped, hother x hx hne]
    rfl
  have hnew : (m'.enqueue t la).mapped (d, vpn la) = some t := by
    rw [← hi.new, Mem.mapped, Mem.mapped, hpte]
  have hno : m.Unqueued d (vpn la) := by
    intro p _ hp
    rw [(pteFrame_eq_some.1 hp).1] at hval
    cases hval
  refine ⟨⟨h.toQueued.enqueue ht hla hno hi, h.areas.congr hi.vars.mms hi.vars.maxSwapOffset, fun c hc w hw hs => ?_,
    fun q hq => ?_, fun w hw hvw => ?_, fun w hw q hm x hx hx' => ?_⟩, ?_, fun x hx hne => ?_⟩
  · have hne : (c, w) ≠ (d, vpn la) := by
      rintro he
      obtain ⟨rfl, rfl⟩ := Prod.mk.inj he
      rw [Mem.SwappedOut, (pteFrame_eq_some.1 hnew).1] at hs
      cases hs.1
    have hx := mem_userSlots.2 ⟨hc, hw⟩
    have hentry := h.entry c hc w hw ((swappedOut_congr (hother _ hx hne)).1 hs)
    rw [show (m'.enqueue t la).pteAt c w = m.pteAt c w from hother _ hx hne]
    exact hi.vars.maxSwapOffset ▸ hentry
  · show vpn (update m'.praVaddr t la q) + 1 < m'.maxSwapOffset
    rw [hi.vars.maxSwapOffset, hi.vars.praVaddr]
    by_cases hqt : q = t
    · rw [hqt, Function.update_self]
      exact hmax
    · rw [Function.update_of_ne hqt]
      refine h.slots q ?_
      have hq' : q ∈ m'.praList ++ [t] := hq
      rw [hi.vars.praList] at hq'
      exact (List.mem_append.1 hq').resolve_right fun hc => hqt (List.mem_singleton.1 hc)
  · by_cases hwv : w = vpn la
    · rw [hwv, hpte]
      exact hfl
    · have hx := mem_userSlots.2 ⟨h.dir, hw⟩
      have he : (m'.enqueue t la).pteAt d w = m.pteAt d w := hother _ hx fun he => hwv (Prod.mk.inj he).2
      rw [he] at hvw ⊢
      exact h.flags w hw hvw
  · have hxw := mem_userSlots.2 ⟨h.dir, hw⟩
    by_cases hwv : w = vpn la
    · subst hwv
      obtain rfl := Option.some.inj (hnew.symm.trans hm)
      by_contra hne
      exact ht.unmapped x hx ((hmap x hx hne).symm.trans hx')
    · rw [hmap _ hxw fun he => hwv (Prod.mk.inj he).2] at hm
      have hqt : q ≠ t := by
        rintro rfl
        exact ht.unmapped _ hxw hm
      have hne : x ≠ (d, vpn la) := by
        rintro rfl
        exact hqt (Option.some.inj (hx'.symm.trans hnew))
      exact h.once w hw q hm x hx ((hmap x hx hne).symm.trans hx')
  · rw [pageAt_mapped hnew]
    exact congrArg some (hleaf t ht.leaf)
  · obtain ⟨hc, hw⟩ := mem_userSlots.1 hx
    refine pageAt_congr (hother x hx hne) hi.vars.maxSwapOffset (fun q hq => hleaf q (h.mapped_leaf hc hw hq).1)
      fun _ o _ => ?_
    exact congrFun hi.vars.disk o

/-- Swapping out, adding tables and allocating keep what a fault relies on. -/
theorem faultInv (mm : Nat) (K : Nat → Prop) (C : Mem A → Prop) (m₀ : Mem A) (hd : d ∈ dirs) (hv : v < userVpn) :
    FaultInv dirs K C mm d (Faulting dirs K mm d v m₀) (Faulting dirs K mm d v m₀) := by
  have hinv : SwapInv dirs K C (Faulting dirs K mm d v m₀) := by
    refine ⟨fun h => h.1.toCounted, fun h => h.1.on, ?_, ?_⟩
    · rintro m role m' ⟨h, hval, hmax, hpage⟩ - hs
      rw [h.checkMm] at hs
      obtain ⟨p, he⟩ := h.toQueued.evicted hs
      obtain ⟨h', hpage'⟩ := h.evict he
      refine ⟨d, _, p, he, h', ?_, he.maxSwapOffset.trans hmax, fun x hx => (hpage' x hx).trans (hpage x hx)⟩
      rw [he.pte d hd v hv]
      split
      · exact pteValid_swapEntry _
      · exact hval
    · rintro m role t s e c p i ⟨h, hval, hmax, hpage⟩ ha he hl hi hnv
      have hpaged := h.toCounted.paged
      have ht := hpaged.addTable ha he hl hi hnv
      have hpte : ∀ b ∈ dirs, ∀ w < userVpn, (m.addTable s t e i).pteAt b w = m.pteAt b w :=
        fun b hb w hw => ht.pteAt hpaged ((h.root b).2 hb) hw
      refine ⟨h.same (h.toCounted.addTable ha he hl hi hnv) ht.vars hpte, by rw [hpte d hd v hv]; exact hval,
        hmax, fun x hx => .trans ?_ (hpage x hx)⟩
      obtain ⟨hb, hw⟩ := mem_userSlots.1 hx
      refine pageAt_congr (hpte _ hb _ hw) rfl (fun q hq => ?_) fun _ _ _ => rfl
      have hleaf := (h.mapped_leaf hb hw hq).1
      rw [addTable_frame, Function.update_of_ne, Function.update_of_ne]
      · rintro rfl
        exact absurd (hleaf.symm.trans (hpaged.alloc_free ha)) (by simp)
      · rintro rfl
        exact absurd (hleaf.symm.trans he) (by simp)
  refine ⟨hinv, hinv, hd, fun h => h.1.pgdir, ?_, ?_⟩
  · rintro m role t s ⟨h, hval, hmax, hpage⟩ ha
    exact ⟨h.same (h.toCounted.alloc ha).1 (.alloc ha) fun _ _ _ _ => rfl, hval, hmax, hpage⟩
  · rintro m role t w ⟨h, hval, hmax, hpage⟩ ht
    have hpte : ∀ c ∈ dirs, ∀ x < userVpn, (m.setFrame t w).pteAt c x = m.pteAt c x :=
      fun c hc x hx => h.toCounted.pteAt_write ht.leaf w hc hx
    refine ⟨h.same (h.toCounted.write ht.leaf w).1 (.setFrame ..) hpte, by rw [hpte d hd v hv]; exact hval,
      hmax, fun x hx => .trans ?_ (hpage x hx)⟩
    obtain ⟨hc, hw⟩ := mem_userSlots.1 hx
    refine pageAt_congr (hpte _ hc _ hw) rfl (fun q hq => Function.update_of_ne ?_ ..) fun _ _ _ => rfl
    rintro rfl
    exact ht.unmapped x hx hq

/-- The flags that a fault gives to the page of an area that can be written. -/
theorem fault_flags (h : Demand dirs K mm d m role) (htidy : VmaTidy (m.mms mm)) (ha : addr < 2 ^ 38)
    (hval : pteValid (m.pteAt d (vpn addr)) = false) (hf : m.doPgfault (some mm) addr = some (0, m')) :
    pteFlags (m'.pteAt d (vpn addr)) = pteU ||| readWrite := by
  cases hv : m.findVma (some mm) addr with
  | mk r m₁ =>
    have h₁ := h.findVma hv
    have hframe₁ : m₁.frame = m.frame := by
      rcases findVma_cases hv with rfl | ⟨c, rfl⟩ <;> rfl
    cases r with
    | none =>
      unfold Mem.doPgfault at hf
      rw [hv] at hf
      cases hf
    | some vma =>
      obtain ⟨m₂, pt, i, m₃, t, m₄, -, hg, hp, hi, hframe⟩ := doPgfault_inserts hf hv h₁.pgdir
      have hla : roundDown addr pgSize < 2 ^ 38 := Nat.lt_of_le_of_lt (Nat.sub_le ..) ha
      have hval₁ : pteValid (m₁.pteAt d (vpn (roundDown addr pgSize))) = false := by
        rw [vpn_roundDown, pteAt_frame hframe₁]
        exact hval
      have hF := faultInv mm K (fun _ : Mem A => True) m₁ h.dir (vpn_lt hla)
      have hpte := hF.insert_pteAt ⟨h₁, hval₁, rfl, fun _ _ => rfl⟩ (vpn_lt hla) (permBits_faultPerm vma)
        (fun _ _ => trivial) (fun _ _ _ => trivial) (fun _ _ _ => trivial) hg hp hi
      obtain ⟨-, -, hvma⟩ := findVma_some htidy.cache hv
      have hw := h.areas.write vma (hvma vma rfl).1
      have hperm : vma.faultPerm = pteU ||| readWrite := if_pos hw
      rw [← vpn_roundDown addr, pteAt_frame hframe, hpte, pteFlags_create, hperm]
      · decide
      · rw [hperm]
        decide

/-- A new page with the contents `w` has been mapped and queued in a fault that has begun in the state `m₀`. -/
theorem mapsNew (hla : la < 2 ^ 38) (hmax : vpn la + 1 < m₀.maxSwapOffset)
    (hn : MapsNew dirs K (Faulting dirs K mm d (vpn la) m₀) d (vpn la) t w m₂)
    (hfl : pteFlags (m₂.pteAt d (vpn la)) = pteU ||| readWrite) :
    (∃ role', Demand dirs K mm d (m₂.enqueue t la) role') ∧ pteValid ((m₂.enqueue t la).pteAt d (vpn la)) ∧
      (m₂.enqueue t la).pageAt d (vpn la) = some w ∧
      ∀ x ∈ userSlots dirs, x ≠ (d, vpn la) → (m₂.enqueue t la).pageAt x.1 x.2 = m₀.pageAt x.1 x.2 := by
  obtain ⟨m₁, role₁, role₂, ⟨h₁, hval, hmax₁, hpage⟩, ht, hw, hi⟩ := hn
  obtain ⟨h₂, hnew, hother⟩ := h₁.insert ht hla hval hi (by rw [hmax₁]; exact hmax) hfl
  refine ⟨⟨role₂, h₂⟩, (pteFrame_eq_some.1 hi.new).1, hw ▸ hnew, fun x hx hne => ?_⟩
  rw [hother x hx hne, hpage x hx]

/-- A fault on a page that is not there maps it with what it was, if that is determined, and leaves the others. -/
theorem fault (h : Demand dirs K mm d m role) (htidy : VmaTidy (m.mms mm)) (hw : vma ∈ (m.mms mm).mmapList)
    (hc : vma.Covers addr) (hval : pteValid (m.pteAt d (vpn addr)) = false)
    (hf : m.doPgfault (some mm) addr = some (0, m')) :
      (∃ role', Demand dirs K mm d m' role') ∧ pteValid (m'.pteAt d (vpn addr)) ∧
      (∀ u, m.pageAt d (vpn addr) = some u → m'.pageAt d (vpn addr) = some u) ∧
      ∀ x ∈ userSlots dirs, x ≠ (d, vpn addr) → m'.pageAt x.1 x.2 = m.pageAt x.1 x.2 := by
  have ha : addr < 2 ^ 38 := lt_of_lt_of_le hc.2 (h.areas.bound vma hw)
  have hslot : (d, vpn addr) ∈ userSlots dirs := mem_userSlots.2 ⟨h.dir, vpn_lt ha⟩
  have hfl := h.fault_flags htidy ha hval hf
  have hmax := h.areas.slot vma hw addr hc
  have hF := faultInv mm K (fun _ : Mem A => True) m h.dir (vpn_lt ha)
  have hres := hF.doPgfault ⟨h, hval, rfl, fun _ _ => rfl⟩ h.pgdir (fun c => ⟨h.cache c, hval, rfl, fun _ _ => rfl⟩) ha
    (fun _ _ => trivial) hf
  have hla : roundDown addr pgSize < 2 ^ 38 := Nat.lt_of_le_of_lt (Nat.sub_le ..) ha
  rw [← vpn_roundDown addr] at hfl hmax hF hslot hval hres ⊢
  generalize hv : vpn (roundDown addr pgSize) = v at *
  have hsome : ∃ t w m₂, MapsNew dirs K (Faulting dirs K mm d v m) d v t w m₂ ∧
      m' = m₂.enqueue t (roundDown addr pgSize) ∧ ∀ u, m.pageAt d v = some u → u = w := by
    generalize hret : (0 : Int) = ret at hres
    cases hres with
    | invalid _ => exact absurd hret (by decide)
    | @zero m₁ role₁ t w m₂ h₁ hz hnew hq =>
      rw [hv] at hz hnew
      have hnone : m.pageAt d v = none := by
        rw [← h₁.2.2.2 _ hslot]
        unfold Mem.pageAt
        dsimp only
        rw [hz]
        rfl
      have hcheck : m₂.checkMm = some mm := by
        obtain ⟨m₃, role₃, role₄, h₃, -, -, hi⟩ := hnew
        exact hi.vars.checkMm.trans h₃.1.checkMm
      refine ⟨t, w, m₂, hnew, ?_, fun u hu => ?_⟩
      · rcases hq with ⟨-, hq⟩ | ⟨hno, -⟩
        · exact hq
        · rw [hcheck] at hno
          cases hno
      · rw [hnone] at hu
        cases hu
    | @read m₁ role₁ offset t m₂ h₁ ho hnew hq =>
      rw [hv] at ho hnew
      have hs : m₁.SwappedOut d v := by
        refine ⟨h₁.2.1, fun hz => ?_⟩
        rw [hz] at ho
        cases ho
      have hpage : m.pageAt d v = some (m₁.disk offset) := by
        rw [← h₁.2.2.2 _ hslot, pageAt_swapped hs, ho]
        rfl
      refine ⟨t, m₁.disk offset, m₂, hnew, hq, fun u hu => ?_⟩
      rw [hpage] at hu
      exact (Option.some.inj hu).symm
  obtain ⟨t, w, m₂, hnew, rfl, hu⟩ := hsome
  subst hv
  obtain ⟨hdem, hvalid, hself, hother⟩ := mapsNew hla hmax hnew hfl
  exact ⟨hdem, hvalid, fun u h => by rw [hu u h, hself], hother⟩

end Demand

end

end UCore
