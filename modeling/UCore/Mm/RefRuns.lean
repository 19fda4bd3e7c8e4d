import UCore.Lib.Machine
import UCore.Mm.FramePool
import UCore.Mm.RefOps

namespace UCore
set_option autoImplicit true
open Function (update)

/-- The operations on the mappings. `unmapPage` and `copyPage` are what `unmap_range` and `copy_range` do
for the page at one address. -/
inductive PageOp where
  | allocPage
  | pgdirAllocPage (pgdir la : Nat) (perm : BitVec 32)
  | pageInsert (pgdir page la : Nat) (perm : BitVec 32)
  | pageRemove (pgdir la : Nat)
  | unmapPage (pgdir la : Nat)
  | unmapRange (pgdir start stop : Nat)
  | copyPage (toDir fromDir la : Nat)
  | copyRange (toDir fromDir start stop : Nat)

namespace PageOp
variable {A : PhysSys}

/-- The operation is on the directories, in their user halves. A page to be mapped is an allocated one. -/
def Allowed (dirs : Finset Nat) (K : Nat → Prop) (m : Mem A) : PageOp → Prop
  | allocPage => True
  | pgdirAllocPage pgdir la perm => pgdir ∈ dirs ∧ vpn la < userVpn ∧ PermBits perm
  | pageInsert pgdir page la perm =>
    pgdir ∈ dirs ∧ m.Page dirs K page ∧ vpn la < userVpn ∧ PermBits perm
  | pageRemove pgdir la => pgdir ∈ dirs ∧ vpn la < userVpn
  | unmapPage pgdir la => pgdir ∈ dirs ∧ vpn la < userVpn
  | unmapRange pgdir _ _ => pgdir ∈ dirs
  | copyPage toDir fromDir la => toDir ∈ dirs ∧ fromDir ∈ dirs ∧ vpn la < userVpn
  | copyRange toDir fromDir _ _ => toDir ∈ dirs ∧ fromDir ∈ dirs

def run (m : Mem A) : PageOp → Option (Mem A)
  | allocPage => m.allocPage.map Prod.snd
  | pgdirAllocPage pgdir la perm => (m.pgdirAllocPage pgdir la perm).map Prod.snd
  | pageInsert pgdir page la perm => (m.pageInsert pgdir page la perm).map Prod.snd
  | pageRemove pgdir la => m.pageRemove pgdir la
  | unmapPage pgdir la => (Mem.pageStep Mem.unmapPage pgdir m la).map Prod.snd
  | unmapRange pgdir start stop => m.unmapRange pgdir start stop
  | copyPage toDir fromDir la => (Mem.pageStep (Mem.copyPage toDir) fromDir m la).map Prod.snd
  | copyRange toDir fromDir start stop => (m.copyRange toDir fromDir start stop).map Prod.snd

/-- The single pages that an operation works on, one after the other. -/
def pages : PageOp → List PageOp
  | unmapRange pgdir start stop => (pagesOf start stop).map (unmapPage pgdir)
  | copyRange toDir fromDir start stop => (pagesOf start stop).map (copyPage toDir fromDir)
  | op => [op]

end PageOp

/-- Runs of the operations, from directories with empty user halves. The frames `K` are used by others. -/
def pageMachine (A : PhysSys) (dirs : Finset Nat) (K : Nat → Prop) : Machine (Mem A) PageOp where
  init m := m.swapInitOk = false ∧ (∀ d ∈ dirs, ¬ A.free m.phys d ∧ ¬ K d ∧
      ∀ i < 256, pteValid (m.frame d i) = false) ∧
    (∀ f, A.free m.phys f → ¬ K f) ∧
    ∀ f, ¬ K f → 0x80200 ≤ f ∧ f < npage ∧ ¬ A.arena m.phys f ∧ (f ∉ dirs → m.ref f = 0)
  enabled m op := op.Allowed dirs K m
  next m op := op.run m

section
variable {A : PhysSys} {m m' : Mem A} {role : Nat → Role} {dirs : Finset Nat} {K : Nat → Prop}
  {op : PageOp}

theorem pageMachine_init (h : (pageMachine A dirs K).init m) : ∃ role, Counted dirs K m role := by
  obtain ⟨hoff, hdirs, hfree, hpool⟩ := h
  have hex (f : Nat) : ∃ r : Role, (r = .free ↔ A.free m.phys f) ∧ (r = .node f [] ↔ f ∈ dirs) ∧
      (r = .other ↔ K f) ∧ ∀ d p, r = .node d p → d = f ∧ p = [] := by
    by_cases hf : A.free m.phys f
    · refine ⟨.free, by simp [hf], ?_, by simp [hfree f hf], nofun⟩
      exact iff_of_false nofun fun hd => (hdirs f hd).1 hf
    · by_cases hd : f ∈ dirs
      · refine ⟨.node f [], by simp [hf], by simp [hd], by simp [(hdirs f hd).2.1], fun d p hr => ?_⟩
        cases hr
        exact ⟨rfl, rfl⟩
      · by_cases hk : K f
        · exact ⟨.other, by simp [hf], by simp [hd], by simp [hk], nofun⟩
        · exact ⟨.leaf, by simp [hf], by simp [hd], by simp [hk], nofun⟩
  choose role hr hroot hother hnode using hex
  have hz : ∀ d ∈ dirs, ∀ i, i < sv39.width ([] : List Nat).length → pteValid (m.frame d i) = false :=
    fun d hd i hi => (hdirs d hd).2.2 i hi
  have hdir (f d : Nat) (p : List Nat) (hf : role f = .node d p) : f ∈ dirs ∧ d = f ∧ p = [] := by
    obtain ⟨rfl, rfl⟩ := hnode f d p hf
    exact ⟨(hroot d).1 hf, rfl, rfl⟩
  have hin (f : Nat) (hf : role f ≠ .other) := hpool f fun hk => hf ((hother f).2 hk)
  have hunused (f : Nat) (hf : role f ≠ .other) (hd : role f ≠ .node f []) : m.ref f = 0 :=
    (hin f hf).2.2.2 fun hc => hd ((hroot f).2 hc)
  refine ⟨role, ⟨⟨?_, ?_, ?_, ?_⟩, hr, ?_, ?_⟩, hoff, hroot, hother, ?_⟩
  · exact fun f d hf => (hdir f d [] hf).2.1.symm
  · intro f d p i hf _ hi hv
    obtain ⟨hd, rfl, rfl⟩ := hdir f d p hf
    rw [show sv39.valid (m.frame d i) = false from hz d hd i hi] at hv
    cases hv
  · intro f d p i hf hl
    obtain ⟨-, -, rfl⟩ := hdir f d p hf
    cases hl
  · intro f d p i hf
    have hp := (hdir f d _ hf).2.2
    simp at hp
  · intro f hf
    obtain ⟨h₁, h₂, h₃, -⟩ := hin f hf
    exact ⟨h₁, h₂, h₃⟩
  · exact fun f hf => hunused f (by rw [hf]; simp) (by rw [hf]; simp)
  · intro p hp
    rw [hunused p (by rw [hp]; simp) (by rw [hp]; simp), eq_comm, Int.natCast_eq_zero]
    apply tally_eq_zero.2
    intro x hx hm
    obtain ⟨hd, hv⟩ := mem_userSlots.1 hx
    rw [Mem.mapped, pteAt_empty (hdirs x.1 hd).2.2 hv] at hm
    cases hm

/-- One page: the counts stay exact, and a page is freed when its last mapping goes. -/
theorem Counted.run (h : Counted dirs K m role) (ha : op.Allowed dirs K m) (hs : op.pages = [op])
    (hr : op.run m = some m') : ∃ role', Counted dirs K m' role' ∧ m.Frees dirs m' := by
  cases op with
  | allocPage =>
    obtain ⟨⟨r, m₁⟩, hp, hr⟩ := Option.map_eq_some_iff.1 hr
    cases hr
    cases allocPages_plain h.plain hp with
    | inl hno =>
      obtain ⟨-, rfl⟩ := hno
      refine ⟨role, ⟨⟨h.tables, h.free, h.pool, h.unused⟩, h.off, h.root, h.kernel, h.exact⟩, ?_⟩
      exact Quiet.frees_self ⟨fun _ => rfl, fun _ hp => hp⟩
    | inr hok =>
      obtain ⟨t, s, -, ha, rfl⟩ := hok
      obtain ⟨hc, hq⟩ := h.alloc ha
      exact ⟨_, hc, hq.frees_self⟩
  | pgdirAllocPage pgdir la perm =>
    obtain ⟨⟨r, m₁⟩, hp, hr⟩ := Option.map_eq_some_iff.1 hr
    cases hr
    exact h.pgdirAllocPage ha.1 ha.2.1 ha.2.2 hp
  | pageInsert pgdir page la perm =>
    obtain ⟨⟨ok, m₁⟩, hp, hr⟩ := Option.map_eq_some_iff.1 hr
    cases hr
    obtain ⟨role', hc, hf, -⟩ := h.pageInsert ha.1 ha.2.2.1 ha.2.2.2 (h.page_iff.1 ha.2.1) hp
    exact ⟨role', hc, hf⟩
  | pageRemove pgdir la => exact h.pageRemove ha.1 ha.2 hr
  | unmapPage pgdir la =>
    obtain ⟨⟨ok, m₁⟩, hp, hr⟩ := Option.map_eq_some_iff.1 hr
    cases hr
    exact h.unmapPage ha.1 ha.2 hp
  | copyPage toDir fromDir la =>
    obtain ⟨⟨ok, m₁⟩, hp, hr⟩ := Option.map_eq_some_iff.1 hr
    cases hr
    exact h.copyPage ha.1 ha.2.1 ha.2.2 hp
  | unmapRange pgdir start stop =>
    have hm : PageOp.unmapRange pgdir start stop ∈ (pagesOf start stop).map (PageOp.unmapPage pgdir) := by
      rw [show (pagesOf start stop).map _ = _ from hs]
      exact List.mem_singleton_self _
    obtain ⟨_, _, hc⟩ := List.mem_map.1 hm
    cases hc
  | copyRange toDir fromDir start stop =>
    have hm : PageOp.copyRange toDir fromDir start stop ∈
        (pagesOf start stop).map (PageOp.copyPage toDir fromDir) := by
      rw [show (pagesOf start stop).map _ = _ from hs]
      exact List.mem_singleton_self _
    obtain ⟨_, _, hc⟩ := List.mem_map.1 hm
    cases hc

/-- An operation on a range is a run of the operations on its pages. -/
theorem PageOp.run_path (ha : op.Allowed dirs K m) (hr : op.run m = some m') :
    ∃ r, (pageMachine A dirs K).Path m r ∧ Machine.endOf m r = m' ∧ r.map Prod.fst <+: op.pages := by
  have hone (op : PageOp) (ha : op.Allowed dirs K m) (hr : op.run m = some m') :
      ∃ r, (pageMachine A dirs K).Path m r ∧ Machine.endOf m r = m' ∧ r.map Prod.fst <+: [op] :=
    ⟨[(op, m')], ⟨ha, hr, trivial⟩, rfl, List.prefix_refl _⟩
  cases op with
  | unmapRange pgdir start stop =>
    obtain ⟨hs, he, hu, hr⟩ := onRange_eq_some hr
    obtain ⟨⟨ok, m₁⟩, hloop, hr⟩ := Option.map_eq_some_iff.1 hr
    cases hr
    rw [rangeLoop_eq _ hs he hu.2.1] at hloop
    refine forEach_path (pageMachine A dirs K) (PageOp.unmapPage pgdir) (fun s a go t hm hstep => ?_) hloop
    refine ⟨⟨ha, (vpn_pagesOf hu hs he hm).1⟩, ?_⟩
    show Option.map _ _ = _
    rw [hstep]
    rfl
  | copyRange toDir fromDir start stop =>
    obtain ⟨⟨ok, m₁⟩, hcopy, hr⟩ := Option.map_eq_some_iff.1 hr
    cases hr
    obtain ⟨hs, he, hu, hloop⟩ := onRange_eq_some hcopy
    rw [rangeLoop_eq _ hs he hu.2.1] at hloop
    refine forEach_path (pageMachine A dirs K) (PageOp.copyPage toDir fromDir) (fun s a go t hm hstep => ?_) hloop
    refine ⟨⟨ha.1, ha.2, (vpn_pagesOf hu hs he hm).1⟩, ?_⟩
    show Option.map _ _ = _
    rw [hstep]
    rfl
  | allocPage => exact hone _ ha hr
  | pgdirAllocPage => exact hone _ ha hr
  | pageInsert => exact hone _ ha hr
  | pageRemove => exact hone _ ha hr
  | unmapPage => exact hone _ ha hr
  | copyPage => exact hone _ ha hr

theorem PageOp.pages_single (h : op' ∈ op.pages) : op'.pages = [op'] := by
  cases op with
  | unmapRange | copyRange =>
    obtain ⟨la, -, rfl⟩ := List.mem_map.1 h
    rfl
  | allocPage | pgdirAllocPage | pageInsert | pageRemove | unmapPage | copyPage =>
    obtain rfl := List.mem_singleton.1 h
    rfl

/-- Along the pages of an operation the counts stay exact. -/
theorem Counted.path (h : Counted dirs K m role) (hp : (pageMachine A dirs K).Path m r)
    (hs : ∀ x ∈ r, x.1.pages = [x.1]) :
    (∃ role', Counted dirs K (Machine.endOf m r) role') ∧
      ∀ r₁ x r₂, r = r₁ ++ x :: r₂ → (Machine.endOf m r₁).Frees dirs x.2 := by
  induction r generalizing m role with
  | nil => exact ⟨⟨role, h⟩, fun r₁ x r₂ hr => by simp at hr⟩
  | cons x r ih =>
    obtain ⟨ha, hn, hp⟩ := hp
    obtain ⟨role₁, h₁, hf⟩ := h.run ha (hs x (List.mem_cons_self ..)) hn
    obtain ⟨he, hall⟩ := ih h₁ hp fun y hy => hs y (List.mem_cons_of_mem _ hy)
    refine ⟨he, fun r₁ y r₂ hr => ?_⟩
    cases r₁ with
    | nil =>
      obtain ⟨rfl, -⟩ := List.cons.inj hr
      exact hf
    | cons z r₁ =>
      obtain ⟨rfl, hrest⟩ := List.cons.inj hr
      exact hall r₁ y r₂ hrest

theorem Counted.step (h : Counted dirs K m role) (ha : op.Allowed dirs K m) (hr : op.run m = some m') :
    ∃ role', Counted dirs K m' role' := by
  obtain ⟨r, hp, rfl, hpre⟩ := PageOp.run_path ha hr
  exact (h.path hp fun x hx => PageOp.pages_single (hpre.subset (List.mem_map_of_mem hx))).1

theorem pageMachine_counted (h : (pageMachine A dirs K).Reachable m) : ∃ role, Counted dirs K m role :=
  h.invariant (fun m => ∃ role, Counted dirs K m role) (fun _ => pageMachine_init)
    fun _ _ _ ⟨_, hc⟩ ha hn => hc.step ha hn

/-- The references of an allocated page are the valid entries that map it, in every reachable state; and
page by page, an operation frees exactly the pages whose last mapping it takes away. -/
theorem refs_exact (h : (pageMachine A dirs K).Reachable m) :
    (∀ p, m.Page dirs K p → m.ref p = m.mapCount dirs p) ∧
    ∀ (op : PageOp) m', op.Allowed dirs K m → op.run m = some m' →
      ∃ r, (pageMachine A dirs K).Path m r ∧ Machine.endOf m r = m' ∧ r.map Prod.fst <+: op.pages ∧
        ∀ r₁ x r₂, r = r₁ ++ x :: r₂ → (Machine.endOf m r₁).Frees dirs x.2 := by
  obtain ⟨role, hc⟩ := pageMachine_counted h
  refine ⟨fun p hp => hc.exact p (hc.page_iff.1 hp), fun op m' ha hr => ?_⟩
  obtain ⟨r, hp, he, hpre⟩ := PageOp.run_path ha hr
  refine ⟨r, hp, he, hpre, (hc.path hp fun x hx => ?_).2⟩
  exact PageOp.pages_single (hpre.subset (List.mem_map_of_mem hx))

theorem poolMem_init : (pageMachine framePool {0x80200} fun f => f < 0x80200 ∨ 0x80304 ≤ f).init poolMem := by
  refine ⟨rfl, fun d hd => ?_, fun f hf => ?_, fun f hf => ?_⟩
  · obtain rfl := Finset.mem_singleton.1 hd
    refine ⟨?_, by decide, fun i _ => pteValid_zero⟩
    show ¬ 0x80200 ∈ [0x80300, 0x80301, 0x80302, 0x80303]
    decide
  · have hf' : f ∈ [0x80300, 0x80301, 0x80302, 0x80303] := hf
    simp only [List.mem_cons, List.not_mem_nil, or_false] at hf'
    omega
  · unfold npage
    exact ⟨by omega, by omega, id, fun _ => rfl⟩

/-- A page that is mapped twice has two references, and is freed with the second of its mappings. -/
theorem refs_exact_shared : ∃ m m₁ m₂ m₃, (PageOp.pgdirAllocPage 0x80200 userBase readWrite).run poolMem = some m ∧
    (PageOp.pageInsert 0x80200 0x80300 (userBase + pgSize) readWrite).run m = some m₁ ∧
    m₁.ref 0x80300 = 2 ∧ m₁.mapCount {0x80200} 0x80300 = 2 ∧
    (PageOp.pageRemove 0x80200 userBase).run m₁ = some m₂ ∧ m₂.mapCount {0x80200} 0x80300 = 1 ∧ 0x80300 ∉ m₂.phys.free ∧
    (PageOp.pageRemove 0x80200 (userBase + pgSize)).run m₂ = some m₃ ∧ m₃.mapCount {0x80200} 0x80300 = 0 ∧
    0x80300 ∈ m₃.phys.free := by
  have hrun : (((PageOp.pgdirAllocPage 0x80200 userBase readWrite).run poolMem).bind fun m =>
      ((PageOp.pageInsert 0x80200 0x80300 (userBase + pgSize) readWrite).run m).bind fun m₁ =>
        ((PageOp.pageRemove 0x80200 userBase).run m₁).bind fun m₂ =>
          ((PageOp.pageRemove 0x80200 (userBase + pgSize)).run m₂).map fun m₃ => decide (
            m.mapped (0x80200, vpn userBase) = some 0x80300 ∧
            m₁.mapped (0x80200, vpn (userBase + pgSize)) = some 0x80300 ∧ m₁.ref 0x80300 = 2 ∧
            m₂.mapped (0x80200, vpn (userBase + pgSize)) = some 0x80300 ∧ m₂.ref 0x80300 = 1 ∧
            m₂.phys.free = [0x80303] ∧ m₃.phys.free = [0x80300, 0x80303])) = some true := by
    decide +kernel
  obtain ⟨m, hm, hrun⟩ := Option.bind_eq_some_iff.1 hrun
  obtain ⟨m₁, hm₁, hrun⟩ := Option.bind_eq_some_iff.1 hrun
  obtain ⟨m₂, hm₂, hrun⟩ := Option.bind_eq_some_iff.1 hrun
  obtain ⟨m₃, hm₃, hrun⟩ := Option.map_eq_some_iff.1 hrun
  obtain ⟨hmap, hmap₁, href₁, hmap₂, href₂, hfree₂, hfree₃⟩ := of_decide_eq_true hrun
  let M := pageMachine framePool {0x80200} fun f => f < 0x80200 ∨ 0x80304 ≤ f
  have hpage {s : Mem framePool} {la : Nat} (h : M.Reachable s) (hla : vpn la < userVpn)
      (hmap : s.mapped (0x80200, vpn la) = some 0x80300) :
      s.Page {0x80200} (fun f => f < 0x80200 ∨ 0x80304 ≤ f) 0x80300 := by
    obtain ⟨role, hc⟩ := pageMachine_counted h
    exact hc.page_iff.2 (hc.mapped_leaf (Finset.mem_singleton_self _) hla hmap).1
  have hr : M.Reachable m :=
    .step (a := PageOp.pgdirAllocPage 0x80200 userBase readWrite) (.init poolMem_init) ⟨by decide, by decide, by decide⟩ hm
  have hr₁ : M.Reachable m₁ :=
    .step (a := PageOp.pageInsert 0x80200 0x80300 (userBase + pgSize) readWrite) hr
      ⟨by decide, hpage hr (by decide) hmap, by decide, by decide⟩ hm₁
  have hr₂ : M.Reachable m₂ := .step (a := PageOp.pageRemove 0x80200 userBase) hr₁ ⟨by decide, by decide⟩ hm₂
  have hcount₁ := (refs_exact hr₁).1 0x80300 (hpage hr₁ (by decide) hmap₁)
  obtain ⟨hcount₂, hops⟩ := refs_exact hr₂
  have hcount₂ := hcount₂ 0x80300 (hpage hr₂ (by decide) hmap₂)
  rw [href₁] at hcount₁
  rw [href₂] at hcount₂
  have hout : 0x80300 ∉ m₂.phys.free := by simp [hfree₂]
  have hin : 0x80300 ∈ m₃.phys.free := by simp [hfree₃]
  obtain ⟨r, -, hend, hpre, hfrees⟩ := hops (.pageRemove 0x80200 (userBase + pgSize)) m₃ ⟨by decide, by decide⟩ hm₃
  have hzero : m₃.mapCount {0x80200} 0x80300 = 0 := by
    cases r with
    | nil =>
      rw [← hend] at hin
      exact absurd hin hout
    | cons x r =>
      have hnil : r = [] := by simpa [PageOp.pages] using hpre.length_le
      rw [hnil] at hend hfrees
      obtain rfl : x.2 = m₃ := hend
      exact ((hfrees [] x [] rfl 0x80300 hout).1 hin).2
  exact ⟨m, m₁, m₂, m₃, hm, hm₁, href₁, by exact_mod_cast hcount₁.symm, hm₂, by exact_mod_cast hcount₂.symm, hout, hm₃,
    hzero, hin⟩

end

end UCore
