import UCore.Mm.SwapFault

namespace UCore
set_option autoImplicit true
open Function (update)

namespace Mem
variable {A : PhysSys}

/-- Every page in the swap queue is allocated, is in there once, and is what the entry for its address maps. -/
structure QueueLive (m : Mem A) (mm : Nat) : Prop where
  nodup : m.praList.Nodup
  allocated : ∀ p ∈ m.praList, ¬ A.free m.phys p
  mapped : ∀ p ∈ m.praList, ∃ d pt i, (m.mms mm).pgdir = some d ∧
    m.getPte d (m.praVaddr p) false = some (some (pt, i), m) ∧ pteValid (m.frame pt i) ∧ ptePpn (m.frame pt i) = p

/-- No queued page is mapped at the page number. -/
def Unqueued (m : Mem A) (d v : Nat) : Prop := ∀ p ∈ m.praList, m.mapped (d, v) ≠ some p

/-- A queued page is mapped at the page number only if it is swapped out at once, as no page is free. -/
def Yields (m : Mem A) (d v : Nat) : Prop :=
  ∀ p ∈ m.praList, m.mapped (d, v) = some p → (A.allocPages m.phys 1).1 = none ∧ m.praList.head? = some p

end Mem

namespace SwapOp
variable {A : PhysSys}

/-- The operation is on the address space, in the lower half. -/
def On (mm : Nat) : SwapOp → Prop
  | doPgfault mm' addr => mm' = mm ∧ addr < 2 ^ 38
  | pgdirAllocPage mm' la perm => mm' = mm ∧ la < 2 ^ 38 ∧ PermBits perm
  | pageRemove mm' la => mm' = mm ∧ la < 2 ^ 38
  | unmapRange mm' _ _ => mm' = mm
  | swapOut mm' _ => mm' = mm

/-- The operation does not take the mapping of a page that stays in the queue. -/
def SparesQueue (d : Nat) (m : Mem A) : SwapOp → Prop
  | doPgfault _ addr => m.Yields d (vpn addr)
  | pgdirAllocPage _ la _ => m.Yields d (vpn la)
  | pageRemove _ la => m.Unqueued d (vpn la)
  | unmapRange _ start stop => ∀ la, start ≤ la → la < stop → m.Unqueued d (vpn la)
  | swapOut _ _ => True

end SwapOp

/-- Runs of the operations on the address space `mm` with the directory `d`, from any tables that there can be
when swapping is turned on for it. -/
def queueMachine (A : PhysSys) (dirs : Finset Nat) (K : Nat → Prop) (mm d : Nat) : Machine (Mem A) SwapOp where
  init m := (pageMachine A dirs K).Reachable m.still ∧ m.swapInitOk = true ∧ m.checkMm = some mm ∧
    (m.mms mm).pgdir = some d ∧ d ∈ dirs ∧ m.praList = []
  enabled _ op := op.On mm
  next m op := op.run m

/-- The queued pages are mapped in `d` at their addresses, and nowhere else. -/
structure Queued {A : PhysSys} (dirs : Finset Nat) (K : Nat → Prop) (mm d : Nat) (m : Mem A)
    (role : Nat → Role) : Prop extends Counted dirs K m.still role where
  on : m.swapInitOk = true
  checkMm : m.checkMm = some mm
  pgdir : (m.mms mm).pgdir = some d
  dir : d ∈ dirs
  nodup : m.praList.Nodup
  vaddr : ∀ p ∈ m.praList, m.praVaddr p < 2 ^ 38
  live : ∀ p ∈ m.praList, m.mapped (d, vpn (m.praVaddr p)) = some p
  sole : ∀ p ∈ m.praList, ∀ x ∈ userSlots dirs, m.mapped x = some p → x = (d, vpn (m.praVaddr p))

section
variable {A : PhysSys} {m m' m₁ m₂ : Mem A} {role role' role₁ : Nat → Role} {dirs : Finset Nat} {K : Nat → Prop}
  {op : SwapOp}

/-- The slot in which a page is mapped. -/
theorem Paged.getPte_mapped (h : Paged m role) (hd : role d = .node d []) (hv : vpn la < userVpn)
    (hm : m.mapped (d, vpn la) = some p) :
    ∃ pt i, m.getPte d la false = some (some (pt, i), m) ∧ pteValid (m.frame pt i) ∧ ptePpn (m.frame pt i) = p := by
  obtain ⟨hval, hp⟩ := pteFrame_eq_some.1 hm
  rw [h.slotsRead hd la hv]
  cases hw : sv39.walk m.frame d (vpath (vpn la)) with
  | none =>
    have hz : m.pteAt d (vpn la) = 0 := by
      unfold Mem.pteAt
      rw [hw]
    rw [hz] at hval
    cases hval
  | some pt =>
    rw [h.pteAt_node ((h.walk_iff hd hv).1 hw) hv] at hval hp
    exact ⟨pt, _, rfl, hval, hp⟩

namespace Queued

theorem mem (h : Queued dirs K mm d m role) (hp : p ∈ m.praList) : (d, vpn (m.praVaddr p)) ∈ userSlots dirs :=
  mem_userSlots.2 ⟨h.dir, vpn_lt (h.vaddr p hp)⟩

theorem queueLive (h : Queued dirs K mm d m role) : m.QueueLive mm where
  nodup := h.nodup
  allocated p hp := by
    have hleaf := (h.mapped_leaf h.dir (vpn_lt (h.vaddr p hp)) (h.live p hp)).1
    have hfree := h.free p
    rw [hleaf] at hfree
    exact fun hf => absurd (hfree.2 hf) (by simp)
  mapped p hp := by
    obtain ⟨pt, i, hslot⟩ := h.paged.getPte_mapped ((h.root d).2 h.dir) (vpn_lt (h.vaddr p hp)) (h.live p hp)
    exact ⟨d, pt, i, h.pgdir, hslot⟩

/-- Only the mappings of the queued pages matter. -/
theorem congr (h : Queued dirs K mm d m role) (hc : Counted dirs K m'.still role') (hv : SameVars m m')
    (hm : ∀ x ∈ userSlots dirs, ∀ q ∈ m.praList, m'.mapped x = some q ↔ m.mapped x = some q) :
    Queued dirs K mm d m' role' := by
  refine ⟨hc, hv.swapInitOk.trans h.on, hv.checkMm.trans h.checkMm, ?_, h.dir, ?_, ?_, ?_, ?_⟩
  · rw [hv.mms]
    exact h.pgdir
  · rw [hv.praList]
    exact h.nodup
  · rw [hv.praList, hv.praVaddr]
    exact h.vaddr
  · rw [hv.praList, hv.praVaddr]
    exact fun p hp => (hm _ (h.mem hp) p hp).2 (h.live p hp)
  · rw [hv.praList, hv.praVaddr]
    exact fun p hp x hx hx' => h.sole p hp x hx ((hm x hx p hp).1 hx')

theorem same (h : Queued dirs K mm d m role) (hc : Counted dirs K m'.still role') (hv : SameVars m m')
    (hpte : ∀ c ∈ dirs, ∀ w < userVpn, m'.pteAt c w = m.pteAt c w) : Queued dirs K mm d m' role' := by
  refine h.congr hc hv fun x hx q _ => ?_
  obtain ⟨hc, hw⟩ := mem_userSlots.1 hx
  rw [Mem.mapped, hpte _ hc _ hw]
  rfl

theorem cache (h : Queued dirs K mm d m role) (c : Option Vma) :
    Queued dirs K mm d (m.setMm mm { m.mms mm with mmapCache := c }) role := by
  refine ⟨h.toCounted.congr rfl rfl rfl rfl, h.on, h.checkMm, ?_, h.dir, h.nodup, h.vaddr, h.live, h.sole⟩
  unfold Mem.setMm
  dsimp only
  rw [Function.update_self]
  exact h.pgdir

/-- `swap_out` takes the first page out of the queue and out of its slot. -/
theorem evicted (h : Queued dirs K mm d m role) (hs : m.swapOut (some mm) = some m') :
    ∃ p, Evicted dirs K d (vpn (m.praVaddr p)) p m m' role := by
  obtain ⟨p, rest, -, -, -, -, hq, -⟩ := swapOut_cases hs
  have hp : p ∈ m.praList := by
    rw [hq]
    exact List.mem_cons_self ..
  exact ⟨p, h.swapOut hs h.pgdir h.dir (by rw [hq]; rfl) (h.vaddr p hp) (h.live p hp) (h.sole p hp)⟩

theorem evict (h : Queued dirs K mm d m role) (he : Evicted dirs K c v p m m' role) :
    Queued dirs K mm d m' (update role p .free) := by
  have hq := he.queue
  have hnd := h.nodup
  rw [hq] at hnd
  have hmem (q : Nat) (hm : q ∈ m'.praList) : q ∈ m.praList := by
    rw [hq]
    exact List.mem_cons_of_mem _ hm
  have hslot (q : Nat) (hm : q ∈ m'.praList) : (d, vpn (m.praVaddr q)) ≠ (c, v) := by
    intro hc
    have hlive := h.live q (hmem q hm)
    rw [hc, he.mapped] at hlive
    obtain rfl := Option.some.inj hlive
    exact (List.nodup_cons.1 hnd).1 hm
  refine ⟨he.toCounted, he.swapInitOk.trans h.on, he.checkMm.trans h.checkMm, ?_, h.dir, (List.nodup_cons.1 hnd).2,
    fun q hm => ?_, fun q hm => ?_, fun q hm x hx hx' => ?_⟩
  · rw [he.mms]
    exact h.pgdir
  · rw [he.praVaddr]
    exact h.vaddr q (hmem q hm)
  · rw [he.praVaddr, he.mapped_ne (h.mem (hmem q hm)) (hslot q hm)]
    exact h.live q (hmem q hm)
  · rw [he.praVaddr]
    exact h.sole q (hmem q hm) x hx (he.mapped_of hx hx').2

/-- A new page has been mapped where no queued page was, and goes to the back of the queue. -/
theorem enqueue (h : Queued dirs K mm d m role) (ht : Fresh dirs t m role) (hla : la < 2 ^ 38)
    (hno : m.Unqueued d (vpn la)) (hi : Inserted dirs K d (vpn la) t m m' role role') :
    Queued dirs K mm d (m'.enqueue t la) role' := by
  have htq : t ∉ m.praList := fun hm => ht.unmapped _ (h.mem hm) (h.live t hm)
  have hslot : (d, vpn la) ∈ userSlots dirs := mem_userSlots.2 ⟨h.dir, vpn_lt hla⟩
  have hother (x : Nat × Nat) (hx : x ∈ userSlots dirs) (hne : x ≠ (d, vpn la)) : m'.mapped x = m.mapped x := by
    obtain ⟨hc, hw⟩ := mem_userSlots.1 hx
    rw [Mem.mapped, hi.pte _ hc _ hw fun he => hne (Prod.ext_iff.2 he)]
    rfl
  have hins : Queued dirs K mm d m' role' := by
    refine h.congr hi.toCounted hi.vars fun x hx q hq => ?_
    by_cases hxv : x = (d, vpn la)
    · subst hxv
      rw [hi.new]
      refine iff_of_false (fun he => ?_) (hno q hq)
      obtain rfl := Option.some.inj he
      exact htq hq
    · rw [hother x hx hxv]
  have hql : m'.praList = m.praList := hi.vars.praList
  have hne (q : Nat) (hq : q ∈ m'.praList) : q ≠ t := by
    rintro rfl
    exact htq (hql ▸ hq)
  have hmem (q : Nat) (hq : q ∈ (m'.enqueue t la).praList) : q ∈ m'.praList ∨ q = t := by
    simpa [Mem.enqueue] using hq
  have hself : (m'.enqueue t la).praVaddr t = la := Function.update_self ..
  have hold (q : Nat) (hq : q ∈ m'.praList) : (m'.enqueue t la).praVaddr q = m'.praVaddr q :=
    Function.update_of_ne (hne q hq) ..
  refine ⟨hi.toCounted.congr rfl rfl rfl rfl, hins.on, hins.checkMm, hins.pgdir, h.dir, ?_, fun q hq => ?_,
    fun q hq => ?_, fun q hq x hx hx' => ?_⟩
  · show (m'.praList ++ [t]).Nodup
    rw [List.nodup_append]
    refine ⟨hins.nodup, List.nodup_singleton _, fun a ha b hb => ?_⟩
    obtain rfl := List.mem_singleton.1 hb
    exact hne a ha
  · rcases hmem q hq with hq | rfl
    · rw [hold q hq]
      exact hins.vaddr q hq
    · rw [hself]
      exact hla
  · rcases hmem q hq with hq | rfl
    · rw [hold q hq]
      exact hins.live q hq
    · rw [hself]
      exact hi.new
  · rcases hmem q hq with hq | rfl
    · rw [hold q hq]
      exact hins.sole q hq x hx hx'
    · rw [hself]
      by_contra hxv
      exact ht.unmapped x hx ((hother x hx hxv).symm.trans hx')

/-- The mapping of a page that is not queued is removed. -/
theorem remove (h : Queued dirs K mm d m role) (hf : role f = .node d (vpath v)) (hv : v < userVpn)
    (hno : m.Unqueued d v) (hr : m.pageRemovePte f (v % 2 ^ 9) = some m') :
    ∃ role', Queued dirs K mm d m' role' ∧ m'.praList = m.praList ∧
      ∀ w < userVpn, m'.mapped (d, w) = none ∨ m'.mapped (d, w) = m.mapped (d, w) := by
  obtain ⟨role', hc, hvars, hgone, hpte⟩ := h.removeAt hf hv hr
  refine ⟨role', h.congr hc hvars fun x hx q hq => ?_, hvars.praList, fun w hw => ?_⟩
  · obtain ⟨hxd, hxv⟩ := mem_userSlots.1 hx
    by_cases hxs : x.1 = d ∧ x.2 = v
    · obtain rfl : x = (d, v) := Prod.ext_iff.2 hxs
      rw [hgone]
      exact iff_of_false (by simp) (hno q hq)
    · rw [Mem.mapped, hpte _ hxd _ hxv hxs]
      rfl
  · by_cases hwv : w = v
    · subst hwv
      exact .inl hgone
    · right
      rw [Mem.mapped, hpte d h.dir w hw fun hc => hwv hc.2]
      rfl

theorem swapInv (dirs : Finset Nat) (K : Nat → Prop) (mm d : Nat) :
    SwapInv (A := A) dirs K (fun _ => True) (Queued dirs K mm d) where
  counted h := h.toCounted
  on h := h.on
  evict h _ hs := by
    rw [h.checkMm] at hs
    obtain ⟨p, he⟩ := h.evicted hs
    exact ⟨d, _, p, he, h.evict he⟩
  table := by
    intro m role t s e c p i h ha he hl hi hv
    have hpaged := h.paged
    have ht := hpaged.addTable ha he hl hi hv
    exact h.same (h.addTable ha he hl hi hv) ht.vars fun c hc w hw => ht.pteAt hpaged ((h.root c).2 hc) hw

theorem unqueued_evict (h : Queued dirs K mm d m role) (hv : v < userVpn) (hno : m.Unqueued d v)
    (he : Evicted dirs K c w p m m' role) : m'.Unqueued d v := by
  intro q hq hm
  refine hno q ?_ (he.mapped_of (mem_userSlots.2 ⟨h.dir, hv⟩) hm).2
  rw [he.queue]
  exact List.mem_cons_of_mem _ hq

/-- Inside a fault at the page number `v`, until a page is allocated and from then on. -/
theorem faultInv (dirs : Finset Nat) (K : Nat → Prop) (mm d : Nat) (hd : d ∈ dirs) (hv : v < userVpn) :
    FaultInv (A := A) dirs K (fun _ => True) mm d (fun m role => Queued dirs K mm d m role ∧ m.Yields d v)
      fun m role => Queued dirs K mm d m role ∧ m.Unqueued d v where
  before := by
    apply (swapInv dirs K mm d).and
    · intro m m' role c w p h hy he q hq hm
      obtain ⟨hne, hold⟩ := he.mapped_of (mem_userSlots.2 ⟨h.dir, hv⟩) hm
      have hq' : q ∈ m.praList := by
        rw [he.queue]
        exact List.mem_cons_of_mem _ hq
      -- the page at the slot was the first of the queue, which has gone
      obtain ⟨-, hhead⟩ := hy q hq' hold
      have hnd := h.nodup
      rw [he.queue] at hhead hnd
      obtain rfl := Option.some.inj hhead
      exact absurd hq (List.nodup_cons.1 hnd).1
    · intro m role s t e c p i h hy ha _ ht q hq hm
      have hpaged := h.paged
      rw [Mem.mapped, ht.pteAt hpaged ((h.root d).2 h.dir) hv] at hm
      obtain ⟨hno, -⟩ := hy q hq hm
      rw [ha] at hno
      cases hno
  after := by
    apply (swapInv dirs K mm d).and
    · exact fun h hno he => h.unqueued_evict hv hno he
    · intro m role s t e c p i h hno ha _ ht q hq hm
      have hpaged := h.paged
      rw [Mem.mapped, ht.pteAt hpaged ((h.root d).2 h.dir) hv] at hm
      exact hno q hq hm
  dir := hd
  pgdir h := h.1.pgdir
  alloc := by
    rintro m role t s ⟨h, hy⟩ ha
    refine ⟨h.same (h.alloc ha).1 (.alloc ha) fun _ _ _ _ => rfl, fun q hq hm => ?_⟩
    obtain ⟨hno, -⟩ := hy q hq hm
    rw [ha] at hno
    cases hno
  write := by
    rintro m role t w ⟨h, hno⟩ ht
    have hpte (c x : Nat) (hc : c ∈ dirs) (hx : x < userVpn) : (m.setFrame t w).pteAt c x = m.pteAt c x :=
      h.pteAt_write ht.leaf w hc hx
    refine ⟨h.same (h.toCounted.write ht.leaf w).1 (.setFrame ..) fun c hc x hx => hpte c x hc hx,
      fun q hq hm => hno q hq ?_⟩
    rw [Mem.mapped, hpte d v h.dir hv] at hm
    exact hm

/-- The new page of a fault goes to the back of the queue. -/
theorem mapsNew (hla : la < 2 ^ 38)
    (h : MapsNew dirs K (fun m role => Queued dirs K mm d m role ∧ m.Unqueued d (vpn la)) d (vpn la) t w m₂) :
    (∃ role', Queued dirs K mm d (m₂.enqueue t la) role') ∧ m₂.checkMm = some mm := by
  obtain ⟨m₁, role₁, role₂, ⟨h₁, hno⟩, ht, -, hi⟩ := h
  exact ⟨⟨role₂, h₁.enqueue ht hla hno hi⟩, hi.vars.checkMm.trans h₁.checkMm⟩

theorem swapOuts (h : Queued dirs K mm d m role) (hs : m.swapOuts mm n = some m') :
    ∃ role', Queued dirs K mm d m' role' := by
  induction n generalizing m' with
  | zero =>
    cases hs
    exact ⟨role, h⟩
  | succ n ih =>
    obtain ⟨m₁, h₁, hs⟩ := Option.bind_eq_some_iff.1 hs
    obtain ⟨role₁, h₁⟩ := ih h₁
    obtain ⟨p, he⟩ := h₁.evicted hs
    exact ⟨_, h₁.evict he⟩

/-- `unmap_range` of pages that are not queued. -/
theorem unmapRange (h : Queued dirs K mm d m role)
    (hno : ∀ la, start ≤ la → la < stop → m.Unqueued d (vpn la)) (hr : m.unmapRange d start stop = some m') :
    ∃ role', Queued dirs K mm d m' role' := by
  obtain ⟨hs, he, hu, hr⟩ := onRange_eq_some hr
  obtain ⟨⟨ok, m₁⟩, hloop, hr⟩ := Option.map_eq_some_iff.1 hr
  cases hr
  rw [rangeLoop_eq _ hs he hu.2.1] at hloop
  have hinv := forEach_inv (fun _ (m : Mem A) => (∃ role, Queued dirs K mm d m role) ∧
      ∀ la ∈ pagesOf start stop, m.Unqueued d (vpn la)) (fun m : Mem A => ∃ role, Queued dirs K mm d m role) ?_
    ⟨⟨role, h⟩, fun la hla => ?_⟩ hloop
  · split at hinv
    · exact hinv.1
    · exact hinv
  · rintro done la m₁ go m₂ ⟨⟨role₁, h₁⟩, hno₁⟩ hpre hstep
    have hla : la ∈ pagesOf start stop := hpre.subset (by simp)
    have hv := (vpn_pagesOf hu hs he hla).1
    have hpaged := h₁.paged
    suffices (∃ role, Queued dirs K mm d m₂ role) ∧ ∀ la ∈ pagesOf start stop, m₂.Unqueued d (vpn la) by
      split
      · exact this
      · exact this.1
    rcases pageStep_cases hpaged ((h₁.root d).2 h₁.dir) hv hstep with ⟨-, rfl, -⟩ | ⟨pt, hpt, hbody⟩
    · exact ⟨⟨role₁, h₁⟩, hno₁⟩
    · obtain ⟨m₃, hm, hbody⟩ := Option.map_eq_some_iff.1 hbody
      cases hbody
      split at hm
      · obtain ⟨role₂, h₂, hq, hmap⟩ := h₁.remove hpt hv (hno₁ la hla) hm
        refine ⟨⟨role₂, h₂⟩, fun lb hlb q hqm hm => ?_⟩
        rcases hmap _ (vpn_pagesOf hu hs he hlb).1 with hc | hc
        · rw [hc] at hm
          cases hm
        · rw [hq] at hqm
          exact hno₁ lb hlb q hqm (hc.symm.trans hm)
      · cases hm
        exact ⟨⟨role₁, h₁⟩, hno₁⟩
  · have hm := (mem_pagesOf hs he).1 hla
    exact hno la hm.2.1 hm.2.2

/-- Every operation that spares the queue keeps the queued pages live. -/
theorem step (h : Queued dirs K mm d m role) (ha : op.On mm) (hs : op.SparesQueue d m) (hr : op.run m = some m') :
    ∃ role', Queued dirs K mm d m' role' := by
  cases op with
  | doPgfault mm' addr =>
    obtain ⟨rfl, hlt⟩ := ha
    obtain ⟨⟨ret, m₁⟩, hf, hr⟩ := Option.map_eq_some_iff.1 hr
    cases hr
    have hla : roundDown addr pgSize < 2 ^ 38 := by
      unfold roundDown
      omega
    have hF := faultInv (A := A) dirs K mm' d h.dir (vpn_lt hla)
    have hy : m.Yields d (vpn (roundDown addr pgSize)) := by
      rw [vpn_roundDown]
      exact hs
    cases hF.doPgfault ⟨h, hy⟩ h.pgdir (fun c => ⟨h.cache c, hy⟩) hlt (fun _ _ => trivial) hf with
    | invalid h' => exact ⟨_, h'.1⟩
    | zero _ _ hnew hq =>
      obtain ⟨hres, hc⟩ := mapsNew hla hnew
      rcases hq with ⟨-, rfl⟩ | ⟨hnone, -⟩
      · exact hres
      · rw [hc] at hnone
        cases hnone
    | read _ _ hnew hq =>
      rw [hq]
      exact (mapsNew hla hnew).1
  | pgdirAllocPage mm' la perm =>
    obtain ⟨rfl, hlt, hb⟩ := ha
    obtain ⟨d', hd, hr⟩ := Option.bind_eq_some_iff.1 hr
    obtain rfl := Option.some.inj (hd.symm.trans h.pgdir)
    obtain ⟨⟨ret, m₁⟩, hg, hr⟩ := Option.map_eq_some_iff.1 hr
    cases hr
    have hF := faultInv (A := A) dirs K mm' d' h.dir (vpn_lt hlt)
    obtain ⟨t, w, m₂, -, hnew, hq⟩ := hF.pgdirAllocPage ⟨h, hs⟩ (vpn_lt hlt) hb (fun _ _ => trivial) hg
    obtain ⟨hres, hc⟩ := mapsNew hlt hnew
    rcases hq with ⟨-, rfl⟩ | ⟨hnone, -⟩
    · exact hres
    · rw [hc] at hnone
      cases hnone
  | pageRemove mm' la =>
    obtain ⟨rfl, hlt⟩ := ha
    obtain ⟨d', hd, hr⟩ := Option.bind_eq_some_iff.1 hr
    obtain rfl := Option.some.inj (hd.symm.trans h.pgdir)
    have hroot := (h.root d').2 h.dir
    have hslot : m.getPte d' la false =
        some ((sv39.walk m.frame d' (vpath (vpn la))).map fun f => (f, vpn la % 2 ^ 9), m) :=
      h.paged.slotsRead hroot la (vpn_lt hlt)
    rw [Mem.pageRemove, hslot] at hr
    cases hw : sv39.walk m.frame d' (vpath (vpn la)) with
    | none =>
      rw [hw] at hr
      cases hr
      exact ⟨role, h⟩
    | some f =>
      rw [hw] at hr
      obtain ⟨role', h', -⟩ := h.remove ((h.walk_iff hroot (vpn_lt hlt)).1 hw) (vpn_lt hlt) hs hr
      exact ⟨role', h'⟩
  | unmapRange mm' start stop =>
    obtain rfl := ha
    obtain ⟨d', hd, hr⟩ := Option.bind_eq_some_iff.1 hr
    obtain rfl := Option.some.inj (hd.symm.trans h.pgdir)
    exact h.unmapRange hs hr
  | swapOut mm' n =>
    obtain rfl := ha
    exact h.swapOuts hr

/-- Wherever an operation calls `swap_out`, the queued pages are live. -/
theorem swaps (h : Queued dirs K mm d m role) (ha : op.On mm) (hs : op.SparesQueue d m)
    (hr : op.Swaps m mm' m₁) : mm' = mm ∧ ∃ role₁, Queued dirs K mm d m₁ role₁ := by
  cases op with
  | doPgfault mm₂ addr =>
    obtain ⟨rfl, hlt⟩ := ha
    obtain ⟨hc, d', hd, hr⟩ := hr
    obtain rfl := Option.some.inj (hd.symm.trans h.pgdir)
    have hla : roundDown addr pgSize < 2 ^ 38 := by
      unfold roundDown
      omega
    have hF := faultInv (A := A) dirs K mm₂ d' h.dir (vpn_lt hla)
    have hy : m.Yields d' (vpn (roundDown addr pgSize)) := by
      rw [vpn_roundDown]
      exact hs
    obtain ⟨role₁, h₁⟩ := hF.doPgfault_swaps ⟨h, hy⟩ (fun c => ⟨h.cache c, hy⟩) hlt (fun _ _ => trivial) hr
    exact ⟨Option.some.inj (hc.symm.trans h.checkMm), role₁, h₁.elim And.left And.left⟩
  | pgdirAllocPage mm₂ la perm =>
    obtain ⟨rfl, hlt, hb⟩ := ha
    obtain ⟨hc, d', hd, hr⟩ := hr
    obtain rfl := Option.some.inj (hd.symm.trans h.pgdir)
    have hF := faultInv (A := A) dirs K mm₂ d' h.dir (vpn_lt hlt)
    obtain ⟨role₁, h₁⟩ := hF.pgdirAllocPage_swaps ⟨h, hs⟩ (vpn_lt hlt) (fun _ _ => trivial) hr
    exact ⟨Option.some.inj (hc.symm.trans h.checkMm), role₁, h₁.elim And.left And.left⟩
  | pageRemove mm₂ la => cases hr
  | unmapRange mm₂ start stop => cases hr
  | swapOut mm₂ n =>
    obtain rfl := ha
    obtain ⟨rfl, k, -, hr⟩ := hr
    exact ⟨rfl, h.swapOuts hr⟩

end Queued

theorem queueMachine_queued
    (h : ((queueMachine A dirs K mm d).restrict (SwapOp.SparesQueue d)).Reachable m) :
    ∃ role, Queued dirs K mm d m role := by
  refine h.restrict_invariant (fun m => ∃ role, Queued dirs K mm d m role) ?_ ?_
  · rintro m ⟨hr, hon, hc, hpg, hd, hq⟩
    obtain ⟨role, hcount⟩ := pageMachine_counted hr
    refine ⟨role, hcount, hon, hc, hpg, hd, ?_, ?_, ?_, ?_⟩ <;> simp [hq]
  · rintro m op m' ⟨role, h⟩ ha hs hn
    exact h.step ha hs hn

/-- As long as no operation takes the mapping of a page that stays in the queue, every queued page is live,
also in every state in which an operation calls `swap_out`. -/
theorem queue_live (h : ((queueMachine A dirs K mm d).restrict (SwapOp.SparesQueue d)).Reachable m) :
    m.QueueLive mm ∧ ∀ (op : SwapOp) mm' m₁, op.On mm → op.SparesQueue d m → op.Swaps m mm' m₁ →
      mm' = mm ∧ m₁.QueueLive mm := by
  obtain ⟨role, hq⟩ := queueMachine_queued h
  refine ⟨hq.queueLive, fun op mm' m₁ ha hs hr => ?_⟩
  obtain ⟨rfl, role₁, h₁⟩ := hq.swaps ha hs hr
  exact ⟨rfl, h₁.queueLive⟩

end

/-- Swapping has been turned on for the address space 1 with an empty directory. -/
def swapMem : Mem framePool :=
  { poolMem with
    swapInitOk := true
    maxSwapOffset := 7
    checkMm := some 1
    mms := fun _ => ⟨[], none, some 0x80200, 0, true, 0⟩ }

theorem swapMem_init : (queueMachine framePool {0x80200} (fun f => f < 0x80200 ∨ 0x80304 ≤ f) 1 0x80200).init swapMem :=
  ⟨.init poolMem_init, rfl, rfl, rfl, Finset.mem_singleton_self _, rfl⟩

instance : (op : SwapOp) → Decidable (op.On mm)
  | .doPgfault .. | .pgdirAllocPage .. | .pageRemove .. => inferInstanceAs (Decidable (_ ∧ _))
  | .unmapRange .. | .swapOut .. => inferInstanceAs (Decidable (_ = _))

instance (m : Mem A) (op : SwapOp) : Decidable ((queueMachine A dirs K mm d).enabled m op) :=
  inferInstanceAs (Decidable (op.On mm))

instance (m : Mem A) (d v : Nat) : Decidable (m.Unqueued d v) := inferInstanceAs (Decidable (∀ p ∈ m.praList, _ ≠ _))

instance (m : Mem A) (d v : Nat) : Decidable (m.Yields d v) :=
  inferInstanceAs (Decidable (∀ p ∈ m.praList, _ → _ ∧ _))

instance (m : Mem A) (d : Nat) : (op : SwapOp) → Decidable (op.SparesQueue d m)
  | .doPgfault .. | .pgdirAllocPage .. => inferInstanceAs (Decidable (m.Yields ..))
  | .pageRemove .. => inferInstanceAs (Decidable (m.Unqueued ..))
  | .unmapRange _ start stop => inferInstanceAs (Decidable (∀ la, start ≤ la → la < stop → m.Unqueued d (vpn la)))
  | .swapOut .. => inferInstanceAs (Decidable True)

abbrev sparingMachine : Machine (Mem framePool) SwapOp :=
  (queueMachine framePool {0x80200} (fun f => f < 0x80200 ∨ 0x80304 ≤ f) 1 0x80200).restrict (SwapOp.SparesQueue 0x80200)

/-- Two frames are left for pages: the third page takes the frame of the first, and then the second one is mapped
again and takes its own. -/
theorem queue_live_evict : ∃ m, sparingMachine.exec swapMem [.pgdirAllocPage 1 0x1000 readWrite,
      .pgdirAllocPage 1 0x2000 readWrite, .pgdirAllocPage 1 0x3000 readWrite, .pgdirAllocPage 1 0x2000 readWrite] = some m ∧
    m.phys.free = [] ∧ m.praList = [0x80300, 0x80303] ∧ m.mapped (0x80200, 1) = none ∧
    m.mapped (0x80200, 3) = some 0x80300 ∧ m.QueueLive 1 := by
  have hrun : (sparingMachine.exec swapMem [.pgdirAllocPage 1 0x1000 readWrite, .pgdirAllocPage 1 0x2000 readWrite,
      .pgdirAllocPage 1 0x3000 readWrite, .pgdirAllocPage 1 0x2000 readWrite]).map
      (fun m => (m.phys.free, m.praList, m.mapped (0x80200, 1), m.mapped (0x80200, 3))) =
        some ([], [0x80300, 0x80303], none, some 0x80300) := by
    decide
  obtain ⟨m, hm, hval⟩ := Option.map_eq_some_iff.1 hrun
  obtain ⟨hfree, hval⟩ := Prod.mk.inj hval
  obtain ⟨hq, hval⟩ := Prod.mk.inj hval
  obtain ⟨hone, hthree⟩ := Prod.mk.inj hval
  exact ⟨m, hm, hfree, hq, hone, hthree, (queue_live (.exec (.init swapMem_init) hm)).1⟩

/-- A page is mapped, queued and removed: it is free, but still in the queue. -/
theorem queue_not_live : ∃ m, (queueMachine framePool {0x80200} (fun f => f < 0x80200 ∨ 0x80304 ≤ f) 1
    0x80200).Reachable m ∧ ¬ m.QueueLive 1 := by
  have hrun : (((SwapOp.pgdirAllocPage 1 0x1000 readWrite).run swapMem).bind fun m =>
      ((SwapOp.pageRemove 1 0x1000).run m)).map (fun m => (m.praList, m.phys.free)) =
        some ([0x80300], [0x80300, 0x80303]) := by
    decide
  obtain ⟨m, hm, hq⟩ := Option.map_eq_some_iff.1 hrun
  obtain ⟨m₁, h₁, hm⟩ := Option.bind_eq_some_iff.1 hm
  have ha : SwapOp.On 1 (.pgdirAllocPage 1 0x1000 readWrite) := ⟨rfl, by decide, by decide⟩
  have hb : SwapOp.On 1 (.pageRemove 1 0x1000) := ⟨rfl, by decide⟩
  refine ⟨m, .step (a := SwapOp.pageRemove 1 0x1000) (.step (a := SwapOp.pgdirAllocPage 1 0x1000 readWrite)
    (.init swapMem_init) ha h₁) hb hm, fun hl => ?_⟩
  have hp : 0x80300 ∈ m.praList := by
    rw [(Prod.mk.inj hq).1]
    exact List.mem_cons_self ..
  refine hl.allocated _ hp ?_
  show 0x80300 ∈ m.phys.free
  rw [(Prod.mk.inj hq).2]
  exact List.mem_cons_self ..

end UCore
