import UCore.Mm.Spaces

namespace UCore
set_option autoImplicit true
open Function (update)

/-- The directories map what they did, and the pages that they map have the same contents. -/
structure Spares {A : PhysSys} (dirs : Finset Nat) (m m' : Mem A) : Prop where
  pte : ∀ c ∈ dirs, ∀ v < userVpn, m'.pteAt c v = m.pteAt c v
  page : ∀ c ∈ dirs, ∀ v < userVpn, ∀ p, m.mapped (c, v) = some p → m'.frame p = m.frame p

/-- The directories are those of the address spaces, with the kernel half of the boot directory, and each page is
mapped by one entry of them only. The frames `S` are the kernel stacks. -/
structure FrameUse {A : PhysSys} (dirs : Finset Nat) (S : Nat → Prop) (m : Mem A) (role : Nat → Role) : Prop
    extends Counted dirs (fun f => role f = .other) m.still role where
  unchecked : m.checkMm = none
  sole : ∀ x ∈ userSlots dirs, ∀ y ∈ userSlots dirs, ∀ p, m.mapped x = some p → m.mapped y = some p → x = y
  boot : role A.bootPgdir = .other ∧ ¬ S A.bootPgdir ∧ ¬ A.arena m.phys A.bootPgdir
  bootEmpty : ∀ i < 256, pteValid (m.frame A.bootPgdir i) = false
  high : ∀ d ∈ dirs, ∀ i, 256 ≤ i → m.frame d i = m.frame A.bootPgdir i
  held : ∀ f, S f → role f = .other ∧ 0x80200 ≤ f ∧ f < npage ∧ ¬ A.arena m.phys f

section
variable {A : PhysSys} {m m' m'' : Mem A} {role role' : Nat → Role} {dirs dirs' kept : Finset Nat} {S : Nat → Prop}
  {K : Nat → Prop}

theorem userSlots_mono (h : kept ⊆ dirs) : userSlots kept ⊆ userSlots dirs := by
  intro x hx
  obtain ⟨hd, hv⟩ := mem_userSlots.1 hx
  exact mem_userSlots.2 ⟨h hd, hv⟩

theorem Spares.refl (dirs : Finset Nat) (m : Mem A) : Spares dirs m m := ⟨fun _ _ _ _ => rfl, fun _ _ _ _ _ _ => rfl⟩

theorem Spares.trans (h : Spares dirs m m') (h' : Spares dirs m' m'') : Spares dirs m m'' where
  pte c hc v hv := (h'.pte c hc v hv).trans (h.pte c hc v hv)
  page c hc v hv p hp := by
    refine (h'.page c hc v hv p ?_).trans (h.page c hc v hv p hp)
    rw [Mem.mapped, h.pte c hc v hv]
    exact hp

theorem Spares.mono (h : Spares dirs m m') (hs : kept ⊆ dirs) : Spares kept m m' :=
  ⟨fun c hc => h.pte c (hs hc), fun c hc => h.page c (hs hc)⟩

theorem Spares.of_frame (h : m'.frame = m.frame) : Spares dirs m m' :=
  ⟨fun _ _ _ _ => pteAt_of_frame h .., fun _ _ _ _ _ _ => by rw [h]⟩

theorem Tabled.still (h : Tabled d m m' role role') : Tabled d m.still m'.still role role' where
  paged := ⟨h.paged.tables, h.paged.free, h.paged.pool, h.paged.unused⟩
  vars := { h.vars with swapInitOk := rfl }
  keeps := h.keeps
  fresh := h.fresh
  frame := h.frame
  high := h.high
  ref := h.ref
  oom := h.oom
  pte := h.pte
  same := h.same
  leaf := h.leaf

/-- New tables map nothing. -/
theorem Tabled.mapped (h : Tabled d m m' role role') (hc : Counted dirs K m.still role) (hx : x ∈ userSlots dirs) :
    m'.mapped x = m.mapped x := by
  obtain ⟨hd, hv⟩ := mem_userSlots.1 hx
  rw [Mem.mapped, h.pteAt hc.paged ((hc.root _).2 hd) hv]
  rfl

/-- An allocated page is still not mapped when tables have been added. -/
theorem Fresh.tabled (h : Fresh dirs t m role) (hc : Counted dirs K m.still role) (ht : Tabled d m m' role role') :
    Fresh dirs t m' role' where
  leaf := (ht.leaf t).2 h.leaf
  unmapped x hx hm := h.unmapped x hx ((ht.mapped hc hx).symm.trans hm)

namespace FrameUse

theorem paged (h : FrameUse dirs S m role) : Paged m role := h.toCounted.paged

theorem plain (h : FrameUse dirs S m role) : m.Plain := .inr h.unchecked

/-- What an operation has to keep that changes no frame of another use. -/
theorem next (h : FrameUse dirs S m role) (hc : Counted dirs (fun f => role f = .other) m'.still role')
    (hck : m'.checkMm = m.checkMm) (ha : A.arena m'.phys = A.arena m.phys)
    (hf : ∀ f, role f = .other → m'.frame f = m.frame f)
    (hh : ∀ d ∈ dirs, ∀ i, 256 ≤ i → m'.frame d i = m.frame d i)
    (hs : ∀ x ∈ userSlots dirs, ∀ y ∈ userSlots dirs, ∀ p, m'.mapped x = some p → m'.mapped y = some p → x = y) :
    FrameUse dirs S m' role' where
  toPaged := hc.toPaged
  off := rfl
  root := hc.root
  kernel _ := Iff.rfl
  exact := hc.exact
  unchecked := hck.trans h.unchecked
  sole := hs
  boot := by
    rw [ha]
    exact ⟨(hc.kernel _).2 h.boot.1, h.boot.2⟩
  bootEmpty := by
    rw [hf _ h.boot.1]
    exact h.bootEmpty
  high d hd i hi := by
    rw [hf _ h.boot.1, hh d hd i hi]
    exact h.high d hd i hi
  held f hS := by
    obtain ⟨ho, hpool⟩ := h.held f hS
    rw [ha]
    exact ⟨(hc.kernel f).2 ho, hpool⟩

/-- The mappings are as before. -/
theorem same (h : FrameUse dirs S m role) (hc : Counted dirs (fun f => role f = .other) m'.still role')
    (hck : m'.checkMm = m.checkMm) (ha : A.arena m'.phys = A.arena m.phys)
    (hf : ∀ f, role f = .other → m'.frame f = m.frame f)
    (hh : ∀ d ∈ dirs, ∀ i, 256 ≤ i → m'.frame d i = m.frame d i)
    (hm : ∀ x ∈ userSlots dirs, m'.mapped x = m.mapped x) : FrameUse dirs S m' role' := by
  refine h.next hc hck ha hf hh fun x hx y hy p hp hq => ?_
  rw [hm x hx] at hp
  rw [hm y hy] at hq
  exact h.sole x hx y hy p hp hq

/-- Only frames, references, the allocator and `check_mm_struct` matter. -/
theorem congr (h : FrameUse dirs S m role) (hf : m'.frame = m.frame) (hp : m'.phys = m.phys) (hr : m'.ref = m.ref)
    (hck : m'.checkMm = m.checkMm) : FrameUse dirs S m' role := by
  refine h.same (h.toCounted.congr hf hp hr rfl) hck (by rw [hp]) (fun _ _ => by rw [hf]) (fun _ _ _ _ => by rw [hf]) fun x _ => ?_
  rw [Mem.mapped, pteAt_of_frame hf]
  rfl

theorem fail (h : FrameUse dirs S m role) : FrameUse dirs S m.fail role := h.congr rfl rfl rfl rfl

theorem setMm (h : FrameUse dirs S m role) (mm : Nat) (v : MmStruct) : FrameUse dirs S (m.setMm mm v) role :=
  h.congr rfl rfl rfl rfl

/-- The allocator gives out a page that is not mapped. -/
theorem alloc (h : FrameUse dirs S m role) (ha : A.allocPages m.phys 1 = (some t, s)) :
    FrameUse dirs S (m.setPhys s) (update role t .leaf) ∧ Fresh dirs t (m.setPhys s) (update role t .leaf) := by
  have hfree := h.paged.alloc_free ha
  refine ⟨h.same (h.toCounted.alloc ha).1 rfl (A.allocPages_arena ha) (fun _ _ => rfl) (fun _ _ _ _ => rfl) fun _ _ => rfl,
    Function.update_self .., fun x hx hm => ?_⟩
  obtain ⟨hd, hv⟩ := mem_userSlots.1 hx
  have hleaf := (h.toCounted.mapped_leaf hd hv hm).1
  rw [hfree] at hleaf
  cases hleaf

theorem allocPage (h : FrameUse dirs S m role) (ha : m.allocPage = some (r, m')) :
    r = none ∧ FrameUse dirs S m' role ∧ m' = m.fail ∨ ∃ t s, r = some t ∧ A.allocPages m.phys 1 = (some t, s) ∧
      m' = m.setPhys s ∧ FrameUse dirs S m' (update role t .leaf) ∧ Fresh dirs t m' (update role t .leaf) := by
  rcases allocPages_plain h.plain ha with ⟨rfl, rfl⟩ | ⟨t, s, rfl, hp, rfl⟩
  · exact .inl ⟨rfl, h.fail, rfl⟩
  · obtain ⟨hu, hfresh⟩ := h.alloc hp
    exact .inr ⟨t, s, rfl, hp, rfl, hu, hfresh⟩

/-- The contents of a page do not matter. -/
theorem write (h : FrameUse dirs S m role) (ht : role t = .leaf) (w : Words) : FrameUse dirs S (m.setFrame t w) role := by
  have hne (f : Nat) (hf : role f ≠ .leaf) : (m.setFrame t w).frame f = m.frame f := by
    refine Function.update_of_ne ?_ ..
    rintro rfl
    exact hf ht
  refine h.same (h.toCounted.write ht w).1 rfl rfl (fun f hf => hne f (by rw [hf]; simp)) (fun d hd i _ => ?_) fun x hx => ?_
  · rw [hne d (by rw [(h.root d).2 hd]; simp)]
  · obtain ⟨hd, hv⟩ := mem_userSlots.1 hx
    have hpte : (m.setFrame t w).pteAt x.1 x.2 = m.pteAt x.1 x.2 := h.toCounted.pteAt_write ht w hd hv
    rw [Mem.mapped, hpte]
    rfl

/-- Nobody sees the contents of a page that is not mapped in its address space. -/
theorem spares_write (h : FrameUse dirs S m role) (ht : role t = .leaf) (w : Words) (hs : kept ⊆ dirs)
    (hn : ∀ x ∈ userSlots kept, m.mapped x ≠ some t) : Spares kept m (m.setFrame t w) := by
  refine ⟨fun c hc v hv => h.toCounted.pteAt_write ht w (hs hc) hv, fun c hc v hv p hp => Function.update_of_ne ?_ ..⟩
  rintro rfl
  exact hn (c, v) (mem_userSlots.2 ⟨hc, hv⟩) hp

theorem mapped_leaf (h : FrameUse dirs S m role) (hd : d ∈ dirs) (hv : v < userVpn) (hp : m.mapped (d, v) = some p) :
    role p = .leaf := (h.toCounted.mapped_leaf hd hv hp).1

/-- A page is seen by its own address space only. -/
theorem spares_page (h : FrameUse dirs S m role) (hd : d ∈ dirs) (hv : v < userVpn) (hp : m.mapped (d, v) = some t)
    (w : Words) : Spares (dirs.erase d) m (m.setFrame t w) := by
  refine h.spares_write (h.mapped_leaf hd hv hp) w (Finset.erase_subset d dirs) fun x hx hm => ?_
  obtain ⟨hc, hw⟩ := mem_userSlots.1 hx
  have hsame := h.sole x (userSlots_mono (Finset.erase_subset d dirs) hx) (d, v) (mem_userSlots.2 ⟨hd, hv⟩) t hm hp
  exact (Finset.mem_erase.1 hc).1 (congrArg Prod.fst hsame)

/-- Where page numbers are mapped as before and no page is changed, nothing is seen. -/
theorem spares (h : FrameUse dirs S m role) (hs : kept ⊆ dirs) (hf : ∀ f, role f = .leaf → m'.frame f = m.frame f)
    (hp : ∀ c ∈ kept, ∀ v < userVpn, m'.pteAt c v = m.pteAt c v) : Spares kept m m' :=
  ⟨hp, fun _ hc _ hv p hm => hf p (h.mapped_leaf (hs hc) hv hm)⟩

theorem tabled (h : FrameUse dirs S m role) (ht : Tabled d m m' role role') (hd : d ∈ dirs) :
    FrameUse dirs S m' role' ∧ Spares dirs m m' := by
  have hpte (c : Nat) (hc : c ∈ dirs) (v : Nat) (hv : v < userVpn) : m'.pteAt c v = m.pteAt c v :=
    ht.pteAt h.paged ((h.root c).2 hc) hv
  have hframe (f : Nat) (h₁ : role f ≠ .free) (h₂ : ∀ p, role f ≠ .node d p) : m'.frame f = m.frame f := ht.frame f h₁ h₂
  refine ⟨h.same (h.toCounted.tabled ht.still hd).1 ht.vars.checkMm ht.vars.arena (fun f hf => ?_) (fun c hc i hi => ?_)
    fun x hx => ht.mapped h.toCounted hx,
    h.spares (Finset.Subset.refl _) (fun f hf => hframe f (by rw [hf]; simp) (by rw [hf]; simp)) hpte⟩
  · exact hframe f (by rw [hf]; simp) (by rw [hf]; simp)
  · by_cases hcd : c = d
    · rw [hcd]
      exact ht.high i hi
    · rw [hframe c (by rw [(h.root c).2 hc]; simp) fun p hp => ?_]
      rw [(h.root c).2 hc] at hp
      exact hcd (Role.node.inj hp).1

/-- `get_pte` with `create`. -/
theorem getPte (h : FrameUse dirs S m role) (hd : d ∈ dirs) (hv : vpn la < userVpn)
    (hg : m.getPte d la true = some (r, m')) : ∃ role', FrameUse dirs S m' role' ∧ Spares dirs m m' ∧
      Tabled d m m' role role' ∧
      ∀ pt i, r = some (pt, i) → role' pt = .node d (vpath (vpn la)) ∧ i = vpn la % 2 ^ 9 := by
  obtain ⟨role', ht, -, hslot⟩ := getPte_spec h.paged h.plain ((h.root d).2 hd) hv hg
  obtain ⟨h', hs⟩ := h.tabled ht hd
  exact ⟨role', h', hs, ht, hslot⟩

/-- A page that is mapped by nobody is given back. -/
theorem freePage (h : FrameUse dirs S m role) (ht : Fresh dirs t m role) :
    FrameUse dirs S (m.freePage t) (update role t .free) := by
  have hz : m.still.mapCount dirs t = 0 := tally_eq_zero.2 ht.unmapped
  exact h.same (h.toCounted.freePage ht.leaf hz).1 rfl A.freePages_arena (fun _ _ => rfl) (fun _ _ _ _ => rfl) fun _ _ => rfl

/-- A page that is not mapped yet is mapped in a slot. -/
theorem insertAt (h : FrameUse dirs S m role) (ht : Fresh dirs t m role)
    (hi : Inserted dirs (fun f => role f = .other) d v t m m' role role') : FrameUse dirs S m' role' ∧
      Spares (dirs.erase d) m m' ∧
      m'.mapped (d, v) = some t ∧ ∀ x ∈ userSlots dirs, x ≠ (d, v) → m'.mapped x = m.mapped x := by
  have hother (x : Nat × Nat) (hx : x ∈ userSlots dirs) (hne : x ≠ (d, v)) : m'.mapped x = m.mapped x := by
    obtain ⟨hc, hw⟩ := mem_userSlots.1 hx
    rw [Mem.mapped, hi.pte _ hc _ hw fun he => hne (Prod.ext he.1 he.2)]
    rfl
  have hspare : Spares (dirs.erase d) m m' := by
    refine h.spares (Finset.erase_subset ..) (fun f hf => hi.frame f (by rw [hf]; simp)) fun c hc w hw => ?_
    obtain ⟨hcd, hc⟩ := Finset.mem_erase.1 hc
    exact hi.pte c hc w hw fun he => hcd he.1
  refine ⟨h.next hi.toCounted hi.vars.checkMm hi.vars.arena (fun f hf => hi.frame f (by rw [hf]; simp))
    (fun c hc i _ => ?_) ?_, hspare, hi.new, hother⟩
  · rw [hi.frame c (by rw [(h.root c).2 hc]; simp [vpath])]
  intro x hx y hy p hp hq
  by_cases hxv : x = (d, v)
  · subst hxv
    obtain rfl := Option.some.inj (hi.new.symm.trans hp)
    by_contra hne
    rw [hother y hy (Ne.symm hne)] at hq
    exact ht.unmapped y hy hq
  · by_cases hyv : y = (d, v)
    · subst hyv
      obtain rfl := Option.some.inj (hi.new.symm.trans hq)
      rw [hother x hx hxv] at hp
      exact absurd hp (ht.unmapped x hx)
    · rw [hother x hx hxv] at hp
      rw [hother y hy hyv] at hq
      exact h.sole x hx y hy p hp hq

/-- `page_insert` of a new page. -/
theorem pageInsert (h : FrameUse dirs S m role) (ht : Fresh dirs t m role) (hd : d ∈ dirs) (hv : vpn la < userVpn)
    (hb : PermBits perm) (hi : m.pageInsert d t la perm = some (ok, m')) : ∃ role', FrameUse dirs S m' role' ∧
      Spares (dirs.erase d) m m' ∧ (ok = false → Fresh dirs t m' role' ∧ ∀ x ∈ userSlots dirs, m'.mapped x = m.mapped x) ∧
      (ok = true → m'.mapped (d, vpn la) = some t ∧
        ∀ x ∈ userSlots dirs, x ≠ (d, vpn la) → m'.mapped x = m.mapped x) := by
  obtain ⟨⟨r, m₁⟩, hg, hi⟩ := Option.bind_eq_some_iff.1 hi
  obtain ⟨role₁, h₁, hs₁, htab, hslot⟩ := h.getPte hd hv hg
  have hs₁ := hs₁.mono (Finset.erase_subset d dirs)
  have ht₁ := ht.tabled h.toCounted htab
  have hsame (x : Nat × Nat) (hx : x ∈ userSlots dirs) : m₁.mapped x = m.mapped x := htab.mapped h.toCounted hx
  cases r with
  | none =>
    cases hi
    exact ⟨role₁, h₁, hs₁, fun _ => ⟨ht₁, hsame⟩, fun hok => absurd hok Bool.false_ne_true⟩
  | some slot =>
    obtain ⟨pt, i⟩ := slot
    obtain ⟨hpt, rfl⟩ := hslot pt i rfl
    obtain ⟨m₂, hm, hi⟩ := Option.bind_eq_some_iff.1 hi
    cases hi
    obtain ⟨role₂, hins⟩ := h₁.toCounted.insertAt hpt hv ht₁.leaf hb hm
    obtain ⟨h₂, hs₂, hnew, hother⟩ := h₁.insertAt ht₁ hins
    exact ⟨role₂, h₂, hs₁.trans hs₂, fun hok => absurd hok.symm Bool.false_ne_true,
      fun _ => ⟨hnew, fun x hx hne => (hother x hx hne).trans (hsame x hx)⟩⟩

/-- What `pgdir_alloc_page` does to the mappings. -/
theorem pgdirAllocPage (h : FrameUse dirs S m role) (hd : d ∈ dirs) (hv : vpn la < userVpn) (hb : PermBits perm)
    (hg : m.pgdirAllocPage d la perm = some (r, m')) : ∃ role', FrameUse dirs S m' role' ∧
      Spares (dirs.erase d) m m' ∧ (∀ t, r = some t → m'.mapped (d, vpn la) = some t) ∧
      ∀ x ∈ userSlots dirs, x ≠ (d, vpn la) → m'.mapped x = m.mapped x := by
  obtain ⟨⟨r₁, m₁⟩, ha, hg⟩ := Option.bind_eq_some_iff.1 hg
  rcases h.allocPage ha with ⟨rfl, h₁, rfl⟩ | ⟨t, s, rfl, -, rfl, h₁, ht⟩
  · cases hg
    exact ⟨role, h₁, .of_frame rfl, nofun, fun _ _ _ => rfl⟩
  · obtain ⟨⟨ok, m₂⟩, hi, hg⟩ := Option.bind_eq_some_iff.1 hg
    obtain ⟨role₂, h₂, hs₂, hfail, hok⟩ := h₁.pageInsert ht hd hv hb hi
    have hs₁ : Spares (dirs.erase d) m (m.setPhys s) := .of_frame rfl
    have hs₂ := hs₁.trans hs₂
    cases ok with
    | false =>
      cases hg
      obtain ⟨ht₂, hsame⟩ := hfail rfl
      exact ⟨_, h₂.freePage ht₂, hs₂.trans (.of_frame rfl), nofun, fun x hx _ => hsame x hx⟩
    | true =>
      obtain ⟨hnew, hother⟩ := hok rfl
      have hres : r = some t ∧ m' = m₂ := by
        dsimp only at hg
        rw [h₂.unchecked] at hg
        split at hg <;> cases hg <;> exact ⟨rfl, rfl⟩
      obtain ⟨rfl, rfl⟩ := hres
      refine ⟨role₂, h₂, hs₂, fun p hp => ?_, hother⟩
      cases hp
      exact hnew

/-- `page_remove_pte` on a slot of a directory. -/
theorem removeAt (h : FrameUse dirs S m role) (hf : role f = .node d (vpath v)) (hv : v < userVpn)
    (hr : m.pageRemovePte f (v % 2 ^ 9) = some m') : ∃ role', FrameUse dirs S m' role' ∧ Spares (dirs.erase d) m m' := by
  obtain ⟨role', hc, hvars, hgone, hpte⟩ := h.toCounted.removeAt hf hv hr
  have hold (x : Nat × Nat) (p : Nat) (hx : x ∈ userSlots dirs) (hp : m'.mapped x = some p) : m.mapped x = some p := by
    obtain ⟨hc, hw⟩ := mem_userSlots.1 hx
    by_cases hne : x.1 = d ∧ x.2 = v
    · rw [show x = (d, v) from Prod.ext hne.1 hne.2, hgone] at hp
      cases hp
    · rw [Mem.mapped, hpte _ hc _ hw hne] at hp
      exact hp
  have hframe (g : Nat) (hg : g ≠ f) : m'.frame g = m.frame g := by
    rcases pageRemovePte_frame hr with hfr | hfr
    · rw [hfr]
    · rw [hfr]
      exact setEntry_frame_of_ne _ _ _ hg
  have hne (g : Nat) (hg : ∀ p, role g ≠ .node d (p ++ [v / 2 ^ 9 % 2 ^ 9])) : g ≠ f := by
    rintro rfl
    exact hg [v / 2 ^ 18] hf
  refine ⟨role', h.next hc hvars.checkMm hvars.arena (fun g hg => ?_) (fun c hc i _ => ?_) fun x hx y hy p hp hq =>
    h.sole x hx y hy p (hold x p hx hp) (hold y p hy hq), h.spares (Finset.erase_subset ..) (fun g hg => ?_) ?_⟩
  · exact hframe g (hne g fun p => by rw [hg]; simp)
  · rw [hframe c (hne c fun p => by rw [(h.root c).2 hc]; simp)]
  · exact hframe g (hne g fun p => by rw [hg]; simp)
  · intro c hc w hw
    obtain ⟨hcd, hc⟩ := Finset.mem_erase.1 hc
    exact hpte c hc w hw fun he => hcd he.1

end FrameUse

end

end UCore
