import UCore.Mm.GetPte

namespace UCore
set_option autoImplicit true
open Function (update)

/-- The free page `t` has become a leaf that is not mapped yet, and tables without entries may have been
added. -/
structure Took {A : PhysSys} (d t : Nat) (m m' : Mem A) (role role' : Nat → Role) : Prop extends
    Grows d m m' role role' where
  free : role t = .free
  leaf : ∀ f, role' f = .leaf ↔ role f = .leaf ∨ f = t
  same : ∀ v < userVpn, m'.pteAt d v = m.pteAt d v
  refZero : m'.ref t = 0

/-- The free page `t` has become a leaf, which is mapped at `v` by the entry `e`. -/
structure Gains {A : PhysSys} (d v t : Nat) (e : BitVec 64) (m m' : Mem A) (role role' : Nat → Role) :
    Prop extends Grows d m m' role role' where
  free : role t = .free
  leaf : ∀ f, role' f = .leaf ↔ role f = .leaf ∨ f = t
  new : m'.pteAt d v = e
  same : ∀ w < userVpn, w ≠ v → m'.pteAt d w = m.pteAt d w
  refOne : m'.ref t = 1

section
variable {A : PhysSys} {m m' m'' : Mem A} {role role' role'' : Nat → Role}

@[simp] theorem setEntry_frame_self (m : Mem A) (f i : Nat) (e : BitVec 64) :
    (m.setEntry f i e).frame f = update (m.frame f) i e := Function.update_self ..

theorem setEntry_frame_of_ne (m : Mem A) (i : Nat) (e : BitVec 64) (h : g ≠ f) :
    (m.setEntry f i e).frame g = m.frame g := Function.update_of_ne h ..

theorem Paged.setPte (h : Paged m role) (hf : role f = .node d (vpath v))
    (he : pteValid e → role (ptePpn e) = .leaf) : Paged (m.setEntry f i e) role where
  tables := h.tables.setLeaf hf rfl he
  free := h.free
  pool := h.pool
  unused := h.unused

/-- An entry of the last level is stored: the translation of one page number changes. -/
theorem Paged.pteAt_setPte (h : Paged m role) (hf : role f = .node d (vpath v)) (hv : v < userVpn)
    (he : pteValid e → role (ptePpn e) = .leaf) (hc : role c = .node c []) (hw : w < userVpn) :
    (m.setEntry f (v % 2 ^ 9) e).pteAt c w = if c = d ∧ w = v then e else m.pteAt c w := by
  have h' := h.setPte (i := v % 2 ^ 9) hf he
  by_cases hg : ∃ g, role g = .node c (vpath w)
  · obtain ⟨g, hg⟩ := hg
    rw [h.pteAt_node hg hw, h'.pteAt_node hg hw]
    by_cases hgf : g = f
    · subst hgf
      obtain ⟨rfl, hp⟩ := Role.node.inj (hf.symm.trans hg)
      rw [setEntry_frame_self]
      by_cases hvw : w % 2 ^ 9 = v % 2 ^ 9
      · rw [hvw, Function.update_self, if_pos ⟨rfl, vpath_inj hp.symm hvw⟩]
      · rw [Function.update_of_ne hvw, if_neg]
        rintro ⟨-, rfl⟩
        exact hvw rfl
    · rw [setEntry_frame_of_ne _ _ _ hgf, if_neg]
      rintro ⟨rfl, rfl⟩
      exact hgf (h.tables.inj hg hf)
  · have hno (g : Nat) : role g ≠ .node c (vpath w) := fun hr => hg ⟨g, hr⟩
    rw [h.pteAt_none hc hw hno, h'.pteAt_none hc hw hno, if_neg]
    rintro ⟨rfl, rfl⟩
    exact hno f hf

/-- Storing into frames without tables leaves the translation alone. -/
theorem Paged.pteAt_congr (h : Paged m role) (h' : Paged m' role')
    (hn : ∀ f p, role' f = .node d p ↔ role f = .node d p)
    (hf : ∀ f p, role f = .node d p → m'.frame f = m.frame f) (hd : role d = .node d [])
    (hv : v < userVpn) : m'.pteAt d v = m.pteAt d v := by
  by_cases hg : ∃ g, role g = .node d (vpath v)
  · obtain ⟨g, hg⟩ := hg
    rw [h.pteAt_node hg hv, h'.pteAt_node ((hn ..).2 hg) hv, hf g _ hg]
  · rw [h.pteAt_none hd hv fun g hr => hg ⟨g, hr⟩,
      h'.pteAt_none ((hn ..).2 hd) hv fun g hr => hg ⟨g, (hn ..).1 hr⟩]

theorem Tabled.took (h : Tabled d m m' role role') (h' : Took d t m' m'' role' role'') :
    Took d t m m'' role role'' where
  toGrows := h.toGrows.trans h'.toGrows
  free := by
    by_contra ht
    rw [← h.keeps t ht] at ht
    exact ht h'.free
  leaf f := by rw [h'.leaf, h.leaf]
  same v hv := (h'.same v hv).trans (h.same v hv)
  refZero := h'.refZero

theorem Took.tabled (h : Took d t m m' role role') (h' : Tabled d m' m'' role' role'') :
    Took d t m m'' role role'' where
  toGrows := h.toGrows.trans h'.toGrows
  free := h.free
  leaf f := by rw [h'.leaf, h.leaf]
  same v hv := (h'.same v hv).trans (h.same v hv)
  refZero := by
    rw [h'.ref t (by rw [(h.leaf t).2 (.inr rfl)]; simp), h.refZero]

theorem Paged.took (h : Paged m role) (ha : A.allocPages m.phys 1 = (some t, s))
    (hd : role d = .node d []) : Took d t m (m.setPhys s) role (update role t .leaf) := by
  have hfree := h.alloc_free ha
  have hne (f : Nat) (hf : role f ≠ .free) : f ≠ t := by
    rintro rfl
    exact hf hfree
  have hpaged : Paged (m.setPhys s) (update role t .leaf) :=
    h.alloc ha (by simp) (fun _ _ => rfl) (h.tables.setRole (by rw [hfree]; simp) (by simp) fun _ _ _ _ _ _ _ _ _ => rfl)
  have hnode (f : Nat) (p : List Nat) : update role t .leaf f = .node d p ↔ role f = .node d p := by
    by_cases hft : f = t
    · subst hft
      rw [Function.update_self, hfree]
      simp
    · rw [Function.update_of_ne hft]
  have hsame (v : Nat) (hv : v < userVpn) : (m.setPhys s).pteAt d v = m.pteAt d v :=
    h.pteAt_congr hpaged hnode (fun _ _ _ => rfl) hd hv
  refine ⟨⟨hpaged, .alloc ha, fun f hf => Function.update_of_ne (hne f hf) .., fun f hf => ?_,
    fun _ _ _ => rfl, fun _ _ => rfl, fun _ _ => rfl, Nat.le_refl _, fun v hv _ => hsame v hv⟩, hfree,
    fun f => ?_, hsame, h.unused t hfree⟩
  · by_cases hft : f = t
    · subst hft
      exact .inr (.inl (Function.update_self ..))
    · exact .inl ((Function.update_of_ne hft ..).trans hf)
  · by_cases hft : f = t
    · subst hft
      simp
    · simp [hft]

/-- The contents of the new page do not matter to the tables. -/
theorem Took.write (h : Took d t m m' role role') (w : Words) (hd : role d = .node d []) :
    Took d t m (m'.setFrame t w) role role' := by
  have ht : role' t = .leaf := (h.leaf t).2 (.inr rfl)
  have hframe (f : Nat) (hf : f ≠ t) : (m'.setFrame t w).frame f = m'.frame f :=
    Function.update_of_ne hf ..
  have hnode (f c : Nat) (p : List Nat) (hf : role' f = .node c p) : f ≠ t := by
    rintro rfl
    rw [ht] at hf
    cases hf
  have hpaged : Paged (m'.setFrame t w) role' :=
    ⟨h.paged.tables.congr fun f c p hf => hframe f (hnode f c p hf), h.paged.free, h.paged.pool,
      h.paged.unused⟩
  have hd' : role' d = .node d [] := (h.keeps d (by rw [hd]; simp)).trans hd
  have hsame (v : Nat) (hv : v < userVpn) : (m'.setFrame t w).pteAt d v = m.pteAt d v := by
    rw [← h.same v hv]
    exact h.paged.pteAt_congr hpaged (fun _ _ => Iff.rfl) (fun f p hf => hframe f (hnode f d p hf)) hd' hv
  refine ⟨⟨hpaged, h.vars.trans (.setFrame ..), h.keeps, h.fresh, fun f hf hn => ?_, fun i hi => ?_,
    h.ref, h.oom, fun v hv _ => hsame v hv⟩, h.free, h.leaf, hsame, h.refZero⟩
  · have hft : f ≠ t := by
      rintro rfl
      exact hf h.free
    rw [hframe f hft, h.frame f hf hn]
  · rw [hframe d (hnode d d [] hd'), h.high i hi]

/-- Map the new page in a slot that is not in use. -/
theorem Took.insert (h : Took d t m m' role role') (hf : role' f = .node d (vpath v)) (hv : v < userVpn)
    (hd : role d = .node d []) (hn : pteValid (m.pteAt d v) = false) (he : ptePpn e = t) :
    Gains d v t e m ((m'.setRef t (m'.ref t + 1)).setEntry f (v % 2 ^ 9) e) role role' := by
  have ht : role' t = .leaf := (h.leaf t).2 (.inr rfl)
  have hleaf (_ : pteValid e) : role' (ptePpn e) = .leaf := he ▸ ht
  have hr : Paged (m'.setRef t (m'.ref t + 1)) role' := by
    refine ⟨h.paged.tables, h.paged.free, h.paged.pool, fun f hf => ?_⟩
    have hft : f ≠ t := by
      rintro rfl
      rw [ht] at hf
      cases hf
    exact (Function.update_of_ne hft ..).trans (h.paged.unused f hf)
  have hd' : role' d = .node d [] := (h.keeps d (by rw [hd]; simp)).trans hd
  have hpte (w : Nat) (hw : w < userVpn) :
      ((m'.setRef t (m'.ref t + 1)).setEntry f (v % 2 ^ 9) e).pteAt d w =
        if w = v then e else m.pteAt d w := by
    rw [hr.pteAt_setPte hf hv hleaf hd' hw, ← h.same w hw]
    simp only [true_and]
    rfl
  refine ⟨⟨hr.setPte hf hleaf, (h.vars.trans (.setRef ..)).trans (.setEntry ..), h.keeps, h.fresh,
    fun g hg hn => ?_, fun i hi => ?_, fun g hg => ?_, h.oom, fun w hw hval => ?_⟩, h.free, h.leaf, ?_,
    fun w hw hwv => ?_, ?_⟩
  · have hgf : g ≠ f := by
      rintro rfl
      exact hn _ ((h.keeps g hg).symm.trans hf)
    rw [setEntry_frame_of_ne _ _ _ hgf]
    exact h.frame g hg hn
  · have hdf : d ≠ f := by
      rintro rfl
      have := (Role.node.inj (hd'.symm.trans hf)).2
      simp [vpath] at this
    rw [setEntry_frame_of_ne _ _ _ hdf]
    exact h.high i hi
  · have hgt : g ≠ t := by
      rintro rfl
      exact hg h.free
    exact (Function.update_of_ne hgt ..).trans (h.ref g hg)
  · rw [hpte w hw, if_neg]
    rintro rfl
    rw [hn] at hval
    cases hval
  · rw [hpte v hv, if_pos rfl]
  · rw [hpte w hw, if_neg hwv]
  · show update m'.ref t (m'.ref t + 1) t = 1
    rw [Function.update_self, h.refZero]
    rfl

/-- Each entry of the last level is the one of some page number. -/
theorem Paged.entry_vpn (h : Paged m role) (hf : role f = .node d p) (hl : p.length = 2)
    (hi : i < sv39.width p.length) :
    ∃ v < userVpn, p = vpath v ∧ i = v % 2 ^ 9 ∧ m.frame f i = m.pteAt d v := by
  obtain ⟨a, b, rfl⟩ : ∃ a b, p = [a, b] := by
    match p, hl with
    | [a, b], _ => exact ⟨a, b, rfl⟩
  obtain ⟨ha, hb, -⟩ := h.tables.inWidth hf
  replace ha : a < 256 := ha
  replace hb : b < 512 := hb
  replace hi : i < 512 := hi
  have hv : a * 2 ^ 18 + b * 2 ^ 9 + i < userVpn := by
    unfold userVpn
    omega
  have hp : [a, b] = vpath (a * 2 ^ 18 + b * 2 ^ 9 + i) := by
    simp only [vpath, List.cons.injEq, and_true]
    omega
  have him : i = (a * 2 ^ 18 + b * 2 ^ 9 + i) % 2 ^ 9 := by omega
  refine ⟨_, hv, hp, him, ?_⟩
  rw [h.pteAt_node (hp ▸ hf) hv, ← him]

/-- The new page is not mapped. -/
theorem Took.unmapped (h : Took d t m m' role role') (hm : Paged m role) (hd : role d = .node d [])
    (hf : role' f = .node c p) (hl : p.length = 2) (hi : i < sv39.width p.length) (hv : pteValid (m'.frame f i)) :
    ptePpn (m'.frame f i) ≠ t := by
  intro ht
  obtain ⟨v, hlt, -, -, he⟩ := h.paged.entry_vpn hf hl hi
  rw [he] at hv ht
  have hc' := h.paged.tables.root_role hf
  have hc : role c = .node c [] := by
    by_cases hcf : role c = .free
    · rcases h.fresh c hcf with hr | hr | ⟨q, hr⟩
      · rw [hc'] at hr
        cases hr
      · rw [hc'] at hr
        cases hr
      · obtain ⟨rfl, rfl⟩ := Role.node.inj (hc'.symm.trans hr)
        rw [hd] at hcf
        cases hcf
    · exact (h.keeps c hcf).symm.trans hc'
  have hpte : m'.pteAt c v = m.pteAt c v := by
    by_cases hcd : c = d
    · rw [hcd]
      exact h.same v hlt
    · exact h.adds.other hm hc hcd hlt
  rw [hpte] at hv ht
  have hleaf := hm.mapped hc hlt hv
  rw [ht, h.free] at hleaf
  cases hleaf

/-- A leaf that no entry leads to is given back. -/
theorem Paged.freeLeaf (h : Paged m role) (ht : role t = .leaf)
    (hn : ∀ f c p i, role f = .node c p → p.length = 2 → i < sv39.width p.length →
      pteValid (m.frame f i) → ptePpn (m.frame f i) ≠ t) :
    Paged (m.freePage t) (update role t .free) := by
  have hpool := h.pool t (by rw [ht]; simp)
  have hnf : ¬ A.free m.phys t := by
    rw [← h.free, ht]
    simp
  constructor
  · apply h.tables.setRole
    · rw [ht]
      simp
    · simp
    · exact fun f c p i hf hl hi hv he => absurd he (hn f c p i hf hl hi hv)
  · intro f
    show _ ↔ A.free (A.freePages m.phys t 1) f
    rw [A.freePages_free]
    · by_cases hft : f = t
      · subst hft
        simp
      · rw [Function.update_of_ne hft, h.free]
        exact ⟨.inl, fun hf => hf.resolve_right (by omega)⟩
    · intro f h1 h2
      obtain rfl : f = t := by omega
      exact ⟨hpool.1, hpool.2.1, hnf, hpool.2.2⟩
  · intro f hf
    show _ ∧ _ ∧ ¬ A.arena (A.freePages m.phys t 1) f
    rw [A.freePages_arena]
    by_cases hft : f = t
    · rw [hft]
      exact hpool
    · rw [Function.update_of_ne hft] at hf
      exact h.pool f hf
  · intro f hf
    show update m.ref t 0 f = 0
    by_cases hft : f = t
    · rw [hft, Function.update_self]
    · rw [Function.update_of_ne hft] at hf ⊢
      exact h.unused f hf

/-- Give the new page back. -/
theorem Took.release (h : Took d t m m' role role') (hd : role d = .node d []) (hm : Paged m role) :
    Tabled d m (m'.freePage t) role (update role' t .free) := by
  have ht : role' t = .leaf := (h.leaf t).2 (.inr rfl)
  have hnode (f : Nat) (p : List Nat) : update role' t .free f = .node d p ↔ role' f = .node d p := by
    by_cases hft : f = t
    · subst hft
      rw [Function.update_self, ht]
      simp
    · rw [Function.update_of_ne hft]
  have hpaged : Paged (m'.freePage t) (update role' t .free) :=
    h.paged.freeLeaf ht fun f c p i hf hl hi hv => h.unmapped hm hd hf hl hi hv
  have hne (f : Nat) (hf : role f ≠ .free) : f ≠ t := by
    rintro rfl
    exact hf h.free
  have hd' : role' d = .node d [] := (h.keeps d (by rw [hd]; simp)).trans hd
  have hsame (v : Nat) (hv : v < userVpn) : (m'.freePage t).pteAt d v = m.pteAt d v := by
    rw [← h.same v hv]
    exact h.paged.pteAt_congr hpaged hnode (fun _ _ _ => rfl) hd' hv
  refine ⟨⟨hpaged, h.vars.trans (.freePage ..), fun f hf => ?_, fun f hf => ?_, h.frame, h.high,
    fun f hf => ?_, h.oom, fun v hv _ => hsame v hv⟩, hsame, fun f => ?_⟩
  · rw [Function.update_of_ne (hne f hf), h.keeps f hf]
  · by_cases hft : f = t
    · exact .inl (by rw [hft, Function.update_self])
    · rw [Function.update_of_ne hft]
      exact h.fresh f hf
  · exact (Function.update_of_ne (hne f hf) ..).trans (h.ref f hf)
  · by_cases hft : f = t
    · subst hft
      rw [Function.update_self, h.free]
    · rw [Function.update_of_ne hft, h.leaf]
      simp [hft]

/-- `page_insert` of a new page in a slot that is not in use. -/
theorem Took.pageInsert (h : Took d t m m' role role') (hp : m'.Plain) (hd : role d = .node d [])
    (hv : vpn la < userVpn) (hn : pteValid (m.pteAt d (vpn la)) = false) (hb : PermBits perm)
    (hi : m'.pageInsert d t la perm = some (ok, m'')) :
    (ok = false ∧ m'.oom < m''.oom ∧ ∃ role'', Took d t m m'' role role'') ∨
      ok = true ∧ m''.frame t = m'.frame t ∧
        ∃ role'', Gains d (vpn la) t (pteCreate t (pteV ||| perm)) m m'' role role'' := by
  have hd' : role' d = .node d [] := (h.keeps d (by rw [hd]; simp)).trans hd
  obtain ⟨⟨r, m₁⟩, hg, hi⟩ := Option.bind_eq_some_iff.1 hi
  obtain ⟨role₁, ht, hno, hslot⟩ := getPte_spec h.paged hp hd' hv hg
  cases r with
  | none =>
    cases hi
    exact .inl ⟨rfl, hno rfl, role₁, h.tabled ht⟩
  | some slot =>
    obtain ⟨pt, i⟩ := slot
    obtain ⟨hpt, rfl⟩ := hslot pt i rfl
    have htook := h.tabled ht
    have hold : m₁.frame pt (vpn la % 2 ^ 9) = m.pteAt d (vpn la) := by
      rw [← htook.same _ hv, htook.paged.pteAt_node hpt hv]
    have hinv : pteValid ((m₁.setRef t (m₁.ref t + 1)).frame pt (vpn la % 2 ^ 9)) = false := by
      rw [← hn, ← hold]
      rfl
    dsimp only at hi
    rw [if_neg (by rw [hinv]; simp)] at hi
    cases hi
    have hleaf : role₁ t = .leaf := (htook.leaf t).2 (.inr rfl)
    refine .inr ⟨rfl, ?_, role₁, htook.insert hpt hv hd hn ?_⟩
    · have hne : t ≠ pt := by
        rintro rfl
        rw [hleaf] at hpt
        cases hpt
      rw [setEntry_frame_of_ne _ _ _ hne]
      exact ht.frame t (by rw [(h.leaf t).2 (.inr rfl)]; simp) (by rw [(h.leaf t).2 (.inr rfl)]; simp)
    · exact htook.paged.ppn_create (by rw [hleaf]; simp) hb.valid

/-- `pgdir_alloc_page` at an address that is not mapped yields a new page there, or fails and adds at most
tables. -/
theorem pgdirAllocPage_spec (h : Paged m role) (hp : m.Plain) (hd : role d = .node d [])
    (hv : vpn la < userVpn) (hn : pteValid (m.pteAt d (vpn la)) = false) (hb : PermBits perm)
    (hg : m.pgdirAllocPage d la perm = some (r, m')) :
    (r = none ∧ m.oom < m'.oom ∧ ∃ role', Tabled d m m' role role') ∨ ∃ t role', r = some t ∧
      Gains d (vpn la) t (pteCreate t (pteV ||| perm)) m m' role role' ∧ m'.frame t = m.frame t := by
  obtain ⟨⟨r₁, m₁⟩, hpage, hg⟩ := Option.bind_eq_some_iff.1 hg
  cases allocPages_plain hp hpage with
  | inl hno =>
    obtain ⟨rfl, rfl⟩ := hno
    cases hg
    exact .inl ⟨rfl, Nat.lt_succ_self _, role, .fail d h⟩
  | inr hok =>
    obtain ⟨t, s, rfl, ha, rfl⟩ := hok
    have htook := h.took ha hd
    obtain ⟨⟨ok, m₂⟩, hi, hg⟩ := Option.bind_eq_some_iff.1 hg
    cases htook.pageInsert (htook.vars.plain hp) hd hv hn hb hi with
    | inl hfail =>
      obtain ⟨rfl, hoom, role₂, hrel⟩ := hfail
      cases hg
      exact .inl ⟨rfl, hoom, _, hrel.release hd h⟩
    | inr hins =>
      obtain ⟨rfl, hframe, role₂, hgain⟩ := hins
      have hplain := hgain.vars.plain hp
      refine .inr ⟨t, role₂, ?_⟩
      dsimp only at hg
      split at hg
      · rename_i hon
        rw [hplain.resolve_left (by simp [hon])] at hg
        cases hg
        exact ⟨rfl, hgain, hframe⟩
      · cases hg
        exact ⟨rfl, hgain, hframe⟩

/-- A page of `copy_range`, at an address that is not mapped in the target: the new page has the contents and
the flag bits of the old one. -/
theorem copyPage_spec (h : Paged m role) (hp : m.Plain) (hd : role d = .node d [])
    (hv : vpn la < userVpn) (hn : pteValid (m.pteAt d (vpn la)) = false)
    (hpt : role pt = .node c (vpath (vpn la))) (hcd : c ≠ d)
    (hg : m.copyPage d la pt (vpn la % 2 ^ 9) = some (ok, m')) :
    (ok = false ∧ m.oom < m'.oom ∧ ∃ role', Tabled d m m' role role') ∨ ok = true ∧
      if pteValid (m.pteAt c (vpn la)) then ∃ t role',
        Gains d (vpn la) t (pteCreate t (pteV ||| ptePerm (m.pteAt c (vpn la)))) m m' role role' ∧
          m'.frame t = m.frame (ptePpn (m.pteAt c (vpn la)))
      else m' = m := by
  have hc : role c = .node c [] := h.tables.root_role hpt
  rw [h.pteAt_node hpt hv]
  unfold Mem.copyPage at hg
  split at hg
  · rename_i hval
    rw [if_pos hval]
    obtain ⟨⟨r, m₁⟩, hget, hg⟩ := Option.bind_eq_some_iff.1 hg
    obtain ⟨role₁, htab, hno, -⟩ := getPte_spec h hp hd hv hget
    cases r with
    | none =>
      cases hg
      exact .inl ⟨rfl, hno rfl, role₁, htab⟩
    | some slot =>
      have hsrc : m₁.frame pt = m.frame pt :=
        htab.frame pt (by rw [hpt]; simp) (by rw [hpt]; simp [hcd])
      dsimp only at hg
      rw [hsrc, if_pos hval] at hg
      obtain ⟨page, hk, hg⟩ := Option.bind_eq_some_iff.1 hg
      obtain ⟨⟨r₂, m₂⟩, hpage, hg⟩ := Option.bind_eq_some_iff.1 hg
      have hplain := htab.vars.plain hp
      cases allocPages_plain hplain hpage with
      | inl hnone =>
        obtain ⟨rfl, rfl⟩ := hnone
        cases hg
      | inr hok =>
        obtain ⟨t, s, rfl, ha, rfl⟩ := hok
        have hd₁ : role₁ d = .node d [] := (htab.keeps d (by rw [hd]; simp)).trans hd
        have htook := htab.took (htab.paged.took ha hd₁)
        have hleaf : role (ptePpn (m.frame pt (vpn la % 2 ^ 9))) = .leaf :=
          h.tables.leaf pt c _ _ hpt rfl (Nat.mod_lt _ (by decide)) hval
        obtain rfl : _ = page := Option.some.inj ((h.kva (by rw [hleaf]; simp)).symm.trans hk)
        have hkt : kva t = some t := htook.paged.kva (by rw [(htook.leaf t).2 (.inr rfl)]; simp)
        simp only [Option.bind_eq_bind, hk, hkt, Option.bind_some] at hg
        obtain ⟨⟨b, m₃⟩, hi, hg⟩ := Option.bind_eq_some_iff.1 hg
        have hw := htook.write (m₁.frame (ptePpn (m.frame pt (vpn la % 2 ^ 9)))) hd
        cases hw.pageInsert (hw.vars.plain hp) hd hv hn (permBits_ptePerm _) hi with
        | inl hfail =>
          obtain ⟨rfl, -⟩ := hfail
          cases hg
        | inr hins =>
          obtain ⟨rfl, hframe, role₃, hgain⟩ := hins
          cases hg
          refine .inr ⟨rfl, t, role₃, hgain, hframe.trans ?_⟩
          rw [show ((m₁.setPhys s).setFrame t _).frame t = _ from Function.update_self ..]
          exact htab.frame _ (by rw [hleaf]; simp) (by rw [hleaf]; simp)
  · rename_i hval
    rw [if_neg hval]
    cases hg
    exact .inr ⟨rfl, rfl⟩

end

end UCore
