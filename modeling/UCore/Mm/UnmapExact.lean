import UCore.Mm.Translate

namespace UCore
set_option autoImplicit true
open Function (update)

/-- How many of the addresses a page is mapped at. -/
def Mem.mapsAt {A : PhysSys} (m : Mem A) (d : Nat) (las : List Nat) (p : Nat) : Nat :=
  las.countP fun la => m.mapped (d, vpn la) = some p

/-- The state in which `unmap_range` has worked on the addresses `done`. The frames still hold the tables of
the start, with entries of the last level cleared. -/
structure Unmapped {A : PhysSys} (d : Nat) (done : List Nat) (m m' : Mem A) (role : Nat → Role) : Prop where
  paged : Paged { m with frame := m'.frame } role
  pte : ∀ c, role c = .node c [] → ∀ v < userVpn, m'.pteAt c v =
    if c = d ∧ (∃ la ∈ done, vpn la = v) ∧ pteValid (m.pteAt c v) then 0 else m.pteAt c v
  tables : ∀ f p, role f = .node d p → p.length < 2 → m'.frame f = m.frame f
  ref : ∀ p, m'.ref p = m.ref p - m.mapsAt d done p
  free : ∀ p, A.free m'.phys p ↔ A.free m.phys p ∨ 0 < m.mapsAt d done p ∧ m.ref p = m.mapsAt d done p
  arena : A.arena m'.phys = A.arena m.phys

section
variable {A : PhysSys} {m m' : Mem A} {role : Nat → Role}

theorem mapsAt_append (m : Mem A) (d : Nat) (l l' : List Nat) (p : Nat) :
    m.mapsAt d (l ++ l') p = m.mapsAt d l p + m.mapsAt d l' p := List.countP_append

theorem mapsAt_singleton (m : Mem A) (d la p : Nat) :
    m.mapsAt d [la] p = if m.mapped (d, vpn la) = some p then 1 else 0 := by
  simp [Mem.mapsAt, List.countP_cons]

theorem Unmapped.init (h : Paged m role) (d : Nat) : Unmapped d [] m m role where
  paged := h
  pte c _ v _ := by simp
  tables _ _ _ _ := rfl
  ref p := by simp [Mem.mapsAt]
  free p := by simp [Mem.mapsAt]
  arena := rfl

/-- What is done at an address where nothing is mapped. -/
theorem Unmapped.skip (h : Unmapped d done m m' role) (hd : role d = .node d []) (hv : vpn la < userVpn)
    (hn : pteValid (m'.pteAt d (vpn la)) = false) (hnew : ∀ lb ∈ done, vpn lb ≠ vpn la) :
    Unmapped d (done ++ [la]) m m' role := by
  have hpte := h.pte d hd _ hv
  rw [if_neg fun hc => by
    obtain ⟨-, ⟨lb, hlb, heq⟩, -⟩ := hc
    exact hnew lb hlb heq] at hpte
  rw [hpte] at hn
  have hzero (p : Nat) : m.mapsAt d [la] p = 0 := by
    rw [mapsAt_singleton, if_neg]
    intro hm
    obtain ⟨hval, -⟩ := pteFrame_eq_some.1 hm
    rw [hn] at hval
    cases hval
  refine ⟨h.paged, fun c hc v hvv => ?_, h.tables, fun p => ?_, fun p => ?_, h.arena⟩
  · rw [h.pte c hc v hvv]
    refine if_congr ⟨fun hc => ?_, fun hc => ?_⟩ rfl rfl
    · obtain ⟨hcd, ⟨lb, hlb, heq⟩, hval⟩ := hc
      exact ⟨hcd, ⟨lb, List.mem_append_left _ hlb, heq⟩, hval⟩
    · obtain ⟨hcd, ⟨lb, hlb, heq⟩, hval⟩ := hc
      refine ⟨hcd, ⟨lb, ?_, heq⟩, hval⟩
      rcases List.mem_append.1 hlb with hlb | hlb
      · exact hlb
      · obtain rfl := List.mem_singleton.1 hlb
        rw [hcd, ← heq, hn] at hval
        cases hval
  · rw [h.ref, mapsAt_append, hzero, Nat.add_zero]
  · rw [h.free, mapsAt_append, hzero, Nat.add_zero]

/-- A page is taken out of its slot, and given back with its last reference. -/
theorem Unmapped.remove (h : Unmapped d done m m' role) (hm : Paged m role) (hd : role d = .node d [])
    (hv : vpn la < userVpn) (hf : role f = .node d (vpath (vpn la)))
    (hval : pteValid (m'.frame f (vpn la % 2 ^ 9))) (hnew : ∀ lb ∈ done, vpn lb ≠ vpn la)
    (hrefs : ∀ p, 0 < m.mapsAt d (done ++ [la]) p → (m.mapsAt d (done ++ [la]) p : Int) ≤ m.ref p) :
    ∃ m'', m'.pageRemovePte f (vpn la % 2 ^ 9) = some m'' ∧ Unmapped d (done ++ [la]) m m'' role := by
  have hnode : m'.pteAt d (vpn la) = m'.frame f (vpn la % 2 ^ 9) := h.paged.pteAt_node hf hv
  have hpte := h.pte d hd _ hv
  rw [if_neg fun hc => by
    obtain ⟨-, ⟨lb, hlb, heq⟩, -⟩ := hc
    exact hnew lb hlb heq, hnode] at hpte
  have hval' := hval
  rw [hpte] at hval'
  have hmap : m.mapped (d, vpn la) = some (ptePpn (m.pteAt d (vpn la))) := pteFrame_eq_some.2 ⟨hval', rfl⟩
  have hleaf := hm.mapped hd hv hval'
  have hk := hm.kva (f := ptePpn (m.pteAt d (vpn la))) (by rw [hleaf]; simp)
  have hpool := hm.pool (ptePpn (m.pteAt d (vpn la))) (by rw [hleaf]; simp)
  have hnf : ¬ A.free m.phys (ptePpn (m.pteAt d (vpn la))) := by
    rw [← hm.free, hleaf]
    simp
  unfold Mem.pageRemovePte
  rw [if_pos hval, hpte, hk]
  generalize ptePpn (m.pteAt d (vpn la)) = q at *
  have hcount (p : Nat) : m.mapsAt d (done ++ [la]) p = m.mapsAt d done p + if p = q then 1 else 0 := by
    rw [mapsAt_append, mapsAt_singleton, hmap]
    simp [eq_comm]
  have hq := hcount q
  rw [if_pos rfl] at hq
  have hle := hrefs q (by omega)
  have hrefq := h.ref q
  have hnfq : ¬ A.free m'.phys q := by
    rw [h.free]
    rintro (hc | ⟨-, hc⟩)
    · exact hnf hc
    · omega
  have hzero : pteValid 0 → role (ptePpn 0) = .leaf := by
    intro hc
    cases hc
  have hpaged : Paged { m with frame := (m'.setEntry f (vpn la % 2 ^ 9) 0).frame } role :=
    h.paged.setPte (i := vpn la % 2 ^ 9) hf hzero
  have hstore (c v : Nat) (hc : role c = .node c []) (hvv : v < userVpn) :
      (m'.setEntry f (vpn la % 2 ^ 9) 0).pteAt c v =
        if c = d ∧ (∃ lb ∈ done ++ [la], vpn lb = v) ∧ pteValid (m.pteAt c v) then 0 else m.pteAt c v := by
    have hset : (m'.setEntry f (vpn la % 2 ^ 9) 0).pteAt c v = if c = d ∧ v = vpn la then 0 else m'.pteAt c v :=
      h.paged.pteAt_setPte hf hv hzero hc hvv
    rw [hset, h.pte c hc v hvv]
    by_cases hcv : c = d ∧ v = vpn la
    · obtain ⟨rfl, rfl⟩ := hcv
      rw [if_pos ⟨rfl, rfl⟩, if_pos ⟨rfl, ⟨la, by simp, rfl⟩, hval'⟩]
    · rw [if_neg hcv]
      refine if_congr ⟨fun hc => ?_, fun hc => ?_⟩ rfl rfl
      · obtain ⟨hcd, ⟨lb, hlb, heq⟩, hx⟩ := hc
        exact ⟨hcd, ⟨lb, List.mem_append_left _ hlb, heq⟩, hx⟩
      · obtain ⟨hcd, ⟨lb, hlb, heq⟩, hx⟩ := hc
        refine ⟨hcd, ⟨lb, ?_, heq⟩, hx⟩
        rcases List.mem_append.1 hlb with hlb | hlb
        · exact hlb
        · obtain rfl := List.mem_singleton.1 hlb
          exact absurd ⟨hcd, heq.symm⟩ hcv
  have htables (g : Nat) (p : List Nat) (hg : role g = .node d p) (hp : p.length < 2) :
      (m'.setEntry f (vpn la % 2 ^ 9) 0).frame g = m.frame g := by
    have hgf : g ≠ f := by
      rintro rfl
      rw [(Role.node.inj (hg.symm.trans hf)).2] at hp
      exact absurd hp (Nat.lt_irrefl 2)
    rw [setEntry_frame_of_ne _ _ _ hgf, h.tables g p hg hp]
  have hrefself : (m'.setRef q (m'.ref q - 1)).ref q = m'.ref q - 1 := Function.update_self ..
  have hrefother (x : Int) (p : Nat) (hp : p ≠ q) : update m'.ref q x p = m.ref p - m.mapsAt d (done ++ [la]) p := by
    rw [Function.update_of_ne hp, h.ref, hcount, if_neg hp, Nat.add_zero]
  have hfreeother (p : Nat) (hp : p ≠ q) : A.free m'.phys p ↔ A.free m.phys p ∨
      0 < m.mapsAt d (done ++ [la]) p ∧ m.ref p = m.mapsAt d (done ++ [la]) p := by
    rw [h.free, hcount, if_neg hp, Nat.add_zero]
  by_cases hz : (m'.setRef q (m'.ref q - 1)).ref q = 0
  · refine ⟨((m'.setRef q (m'.ref q - 1)).freePage q).setEntry f (vpn la % 2 ^ 9) 0, ?_, hpaged,
      fun c hc v hvv => hstore c v hc hvv, htables, fun p => ?_, fun p => ?_, A.freePages_arena.trans h.arena⟩
    · simp only [Option.bind_eq_bind, Option.bind_some, if_pos hz]
    · show update (update m'.ref q (m'.ref q - 1)) q 0 p = _
      rw [Function.update_idem]
      by_cases hp : p = q
      · rw [hp, Function.update_self]
        omega
      · exact hrefother 0 p hp
    · show A.free (A.freePages m'.phys q 1) p ↔ _
      rw [A.freePages_free]
      · by_cases hp : p = q
        · rw [hp]
          exact iff_of_true (.inr ⟨Nat.le_refl _, Nat.lt_succ_self _⟩) (.inr ⟨by omega, by omega⟩)
        · rw [← hfreeother p hp]
          exact ⟨fun hc => hc.resolve_right (by omega), .inl⟩
      · intro g h₁ h₂
        obtain rfl : g = q := by omega
        rw [h.arena]
        exact ⟨hpool.1, hpool.2.1, hnfq, hpool.2.2⟩
  · refine ⟨(m'.setRef q (m'.ref q - 1)).setEntry f (vpn la % 2 ^ 9) 0, ?_, hpaged,
      fun c hc v hvv => hstore c v hc hvv, htables, fun p => ?_, fun p => ?_, h.arena⟩
    · simp only [Option.bind_eq_bind, Option.bind_some, if_neg hz]
    · show update m'.ref q (m'.ref q - 1) p = _
      by_cases hp : p = q
      · rw [hp, Function.update_self]
        omega
      · exact hrefother _ p hp
    · by_cases hp : p = q
      · rw [hp]
        refine iff_of_false hnfq ?_
        rintro (hc | ⟨-, hc⟩)
        · exact hnf hc
        · omega
      · exact hfreeother p hp

/-- `unmap_range` at one address. -/
theorem Unmapped.page (h : Unmapped d done m m' role) (hm : Paged m role) (hd : role d = .node d [])
    (hv : vpn la < userVpn) (hnew : ∀ lb ∈ done, vpn lb ≠ vpn la)
    (hrefs : ∀ p, 0 < m.mapsAt d (done ++ [la]) p → (m.mapsAt d (done ++ [la]) p : Int) ≤ m.ref p) :
    ∃ m'', Mem.pageStep Mem.unmapPage d m' la = some (true, m'') ∧ Unmapped d (done ++ [la]) m m'' role := by
  have hslot : m'.pteSlot d la = some ((sv39.walk m'.frame d (vpath (vpn la))).map fun f => (f, vpn la % 2 ^ 9)) :=
    h.paged.pteSlot_eq hd hv
  unfold Mem.pageStep strideStep
  dsimp only
  rw [getPte_false, hslot]
  cases hw : sv39.walk m'.frame d (vpath (vpn la)) with
  | none =>
    have hz : m'.pteAt d (vpn la) = 0 := by
      unfold Mem.pteAt
      rw [hw]
    exact ⟨m', rfl, h.skip hd hv (by rw [hz]; rfl) hnew⟩
  | some f =>
    have hf : role f = .node d (vpath (vpn la)) := (h.paged.walk_iff hd hv).1 hw
    have hnode : m'.pteAt d (vpn la) = m'.frame f (vpn la % 2 ^ 9) := h.paged.pteAt_node hf hv
    by_cases hval : pteValid (m'.frame f (vpn la % 2 ^ 9))
    · obtain ⟨m'', hr, h'⟩ := h.remove hm hd hv hf hval hnew hrefs
      refine ⟨m'', ?_, h'⟩
      have hnz : m'.frame f (vpn la % 2 ^ 9) ≠ 0 := by
        intro hz
        rw [hz] at hval
        cases hval
      simp only [Option.map_some, Option.bind_some, Mem.unmapPage, if_pos hnz, hr]
    · have hr : m'.pageRemovePte f (vpn la % 2 ^ 9) = some m' := if_neg hval
      refine ⟨m', ?_, h.skip hd hv (by rw [hnode]; exact Bool.eq_false_iff.2 hval) hnew⟩
      simp only [Option.map_some, Option.bind_some, Mem.unmapPage, hr, ite_self]

theorem Unmapped.pages (h : Unmapped d done m m' role) (hm : Paged m role) (hd : role d = .node d [])
    (hv : ∀ la ∈ las, vpn la < userVpn) (hnew : ((done ++ las).map vpn).Nodup)
    (hrefs : ∀ p, 0 < m.mapsAt d (done ++ las) p → (m.mapsAt d (done ++ las) p : Int) ≤ m.ref p) :
    ∃ m'', forEach (Mem.pageStep Mem.unmapPage d) m' las = some (true, m'') ∧ Unmapped d (done ++ las) m m'' role := by
  induction las generalizing done m' with
  | nil =>
    rw [List.append_nil]
    exact ⟨m', rfl, h⟩
  | cons la las ih =>
    have hassoc : done ++ la :: las = (done ++ [la]) ++ las := by simp
    rw [hassoc] at hnew hrefs ⊢
    have hfresh (lb : Nat) (hlb : lb ∈ done) : vpn lb ≠ vpn la := by
      rw [List.map_append] at hnew
      have hd' := (List.nodup_append.1 hnew).1
      rw [List.map_append, List.map_singleton] at hd'
      exact (List.nodup_append.1 hd').2.2 _ (List.mem_map_of_mem hlb) _ (List.mem_singleton_self _)
    have hpart (p : Nat) (hp : 0 < m.mapsAt d (done ++ [la]) p) : (m.mapsAt d (done ++ [la]) p : Int) ≤ m.ref p := by
      have happ := mapsAt_append m d (done ++ [la]) las p
      have hle := hrefs p (by omega)
      omega
    obtain ⟨m₁, hs, h₁⟩ := h.page hm hd (hv la (List.mem_cons_self ..)) hfresh hpart
    obtain ⟨m₂, hs₂, h₂⟩ := ih h₁ (fun b hb => hv b (List.mem_cons_of_mem _ hb)) hnew hrefs
    refine ⟨m₂, ?_, h₂⟩
    rw [forEach, hs, Option.bind_some]
    exact hs₂

/-- The walk through the upper levels is as before. -/
theorem Unmapped.walk (h : Unmapped d done m m' role) (hm : Paged m role) (hd : role d = .node d [])
    (hp : sv39.InWidth 0 p) (hl : p.length ≤ 2) : sv39.walk m'.frame d p = sv39.walk m.frame d p := by
  have hw (f : Nat) : sv39.walk m'.frame d p = some f ↔ sv39.walk m.frame d p = some f :=
    (h.paged.tables.walk_iff hd hp hl).trans (hm.tables.walk_iff hd hp hl).symm
  cases hf : sv39.walk m.frame d p with
  | none =>
    cases hf' : sv39.walk m'.frame d p with
    | none => rfl
    | some f =>
      rw [(hw f).1 hf'] at hf
      cases hf
  | some f => exact (hw f).2 hf

end

/-- What `unmap_range` is to do with the pages from `start` to `stop`. -/
structure Mem.UnmapsExactly {A : PhysSys} (m m' : Mem A) (d start stop : Nat) : Prop where
  gone : ∀ la, start ≤ la → la < stop → pteValid (m'.pteAt d (vpn la)) = false
  same : ∀ la < 2 ^ 38, la < start ∨ stop ≤ la → m'.translate d la = m.translate d la
  ref : ∀ p, m'.ref p = m.ref p - m.mapsAt d (pagesOf start stop) p
  free : ∀ p, ¬ A.free m.phys p →
    (A.free m'.phys p ↔ 0 < m.mapsAt d (pagesOf start stop) p ∧ m'.ref p = 0)
  pool : ∀ p, A.free m.phys p → A.free m'.phys p
  tables : ∀ p, sv39.InWidth 0 p → p.length ≤ 2 → sv39.walk m'.frame d p = sv39.walk m.frame d p
  kept : ∀ f p, sv39.InWidth 0 p → p.length ≤ 2 → sv39.walk m.frame d p = some f → ¬ A.free m'.phys f

section
variable {A : PhysSys} {m : Mem A} {role : Nat → Role}

/-- `unmap_range` returns, and removes exactly its range, if no page has fewer references than it has mappings
there. -/
theorem unmap_range_exact (h : Paged m role) (hd : role d = .node d []) (hs : start % pgSize = 0)
    (he : stop % pgSize = 0) (hu : UserAccess start stop)
    (hrefs : ∀ p, 0 < m.mapsAt d (pagesOf start stop) p → (m.mapsAt d (pagesOf start stop) p : Int) ≤ m.ref p) :
    ∃ m', m.unmapRange d start stop = some m' ∧ m.UnmapsExactly m' d start stop := by
  have hvpn (la : Nat) (hla : la ∈ pagesOf start stop) := vpn_pagesOf hu hs he hla
  have hnodup : ((pagesOf start stop).map vpn).Nodup := by
    refine List.Nodup.map_on (fun a ha b hb hab => ?_) (nodup_pagesOf ..)
    rw [← (hvpn a ha).2, hab, (hvpn b hb).2]
  obtain ⟨m', hloop, hm'⟩ := (Unmapped.init h d).pages h hd (fun la hla => (hvpn la hla).1) hnodup hrefs
  rw [List.nil_append] at hm'
  have htop := hu.2.2
  unfold userTop at htop
  have hrange (la : Nat) (hla : la < 2 ^ 38) :
      (∃ lb ∈ pagesOf start stop, vpn lb = vpn la) ↔ start ≤ la ∧ la < stop := by
    rw [exists_mem_pagesOf hu hs he]
    unfold pgSize vpn at *
    omega
  have hlt (la : Nat) (hla : la < 2 ^ 38) : vpn la < userVpn := by
    unfold vpn userVpn
    omega
  refine ⟨m', ?_, ⟨fun la h₁ h₂ => ?_, fun la hla hout => ?_, hm'.ref, fun p hp => ?_, fun p hp => ?_,
    fun p hp hl => hm'.walk h hd hp hl, fun f p hp hl hf => ?_⟩⟩
  · unfold Mem.unmapRange Mem.onRange
    rw [if_pos ⟨⟨hs, he⟩, hu⟩, rangeLoop_eq _ hs he hu.2.1, hloop]
    rfl
  · rw [hm'.pte d hd _ (hlt la (by omega))]
    split
    · rfl
    · rename_i hc
      exact Bool.eq_false_iff.2 fun hval => hc ⟨rfl, (hrange la (by omega)).2 ⟨h₁, h₂⟩, hval⟩
  · refine translate_congr ?_
    rw [hm'.pte d hd _ (hlt la hla), if_neg]
    rintro ⟨-, hin, -⟩
    have := (hrange la hla).1 hin
    omega
  · rw [hm'.free, hm'.ref]
    refine ⟨fun hf => ?_, fun hf => .inr ⟨hf.1, by omega⟩⟩
    have hf' := hf.resolve_left hp
    exact ⟨hf'.1, by omega⟩
  · rw [hm'.free]
    exact .inl hp
  · have hr := (h.tables.walk_iff hd hp hl).1 hf
    rw [hm'.free, ← h.free, hr]
    rintro (hc | ⟨hpos, -⟩)
    · cases hc
    · obtain ⟨la, hla, hmap⟩ := List.countP_pos_iff.1 hpos
      obtain ⟨hval, hppn⟩ := pteFrame_eq_some.1 (of_decide_eq_true hmap)
      have hleaf := h.mapped hd (hvpn la hla).1 hval
      rw [hppn, hr] at hleaf
      cases hleaf

/-- Where the references are the mappings, no page has fewer than it has in a range. -/
theorem Counted.mapsAt_le {dirs : Finset Nat} {K : Nat → Prop} (h : Counted dirs K m role) (hd : d ∈ dirs)
    (hv : ∀ la ∈ las, vpn la < userVpn) (hn : (las.map vpn).Nodup) (hp : 0 < m.mapsAt d las p) :
    (m.mapsAt d las p : Int) ≤ m.ref p := by
  obtain ⟨la, hla, hmap⟩ := List.countP_pos_iff.1 hp
  rw [h.exact p (h.mapped_leaf hd (hv la hla) (of_decide_eq_true hmap)).1, Int.ofNat_le]
  have hsub : ((las.filter fun la => m.mapped (d, vpn la) = some p).map fun la => (d, vpn la)).toFinset ⊆
      (userSlots dirs).filter fun x => m.mapped x = some p := by
    intro x hx
    obtain ⟨lb, hlb, rfl⟩ := List.mem_map.1 (List.mem_toFinset.1 hx)
    obtain ⟨hmem, hval⟩ := List.mem_filter.1 hlb
    exact Finset.mem_filter.2 ⟨mem_userSlots.2 ⟨hd, hv lb hmem⟩, of_decide_eq_true hval⟩
  have hnodup : ((las.filter fun la => m.mapped (d, vpn la) = some p).map fun la => (d, vpn la)).Nodup := by
    refine List.Nodup.of_map Prod.snd ?_
    rw [List.map_map]
    exact hn.sublist (List.filter_sublist.map vpn)
  calc m.mapsAt d las p = (las.filter fun la => m.mapped (d, vpn la) = some p).length := List.countP_eq_length_filter
    _ = ((las.filter fun la => m.mapped (d, vpn la) = some p).map fun la => (d, vpn la)).length :=
      (List.length_map _).symm
    _ = _ := (List.toFinset_card_of_nodup hnodup).symm
    _ ≤ m.mapCount dirs p := Finset.card_le_card hsub

theorem unmap_range_exact_pool : ∃ m m', (PageOp.pgdirAllocPage 0x80200 userBase readWrite).run poolMem = some m ∧
    m.unmapRange 0x80200 userBase (userBase + 2 * pgSize) = some m' ∧
      m.UnmapsExactly m' 0x80200 userBase (userBase + 2 * pgSize) := by
  have hrun : ((PageOp.pgdirAllocPage 0x80200 userBase readWrite).run poolMem).isSome := by decide
  obtain ⟨m, hm⟩ := Option.isSome_iff_exists.1 hrun
  obtain ⟨role₀, h₀⟩ := pageMachine_init poolMem_init
  have hd₀ : 0x80200 ∈ ({0x80200} : Finset Nat) := Finset.mem_singleton_self _
  have ha : (PageOp.pgdirAllocPage 0x80200 userBase readWrite).Allowed {0x80200}
      (fun f => f < 0x80200 ∨ 0x80304 ≤ f) poolMem := ⟨hd₀, by decide, by decide⟩
  obtain ⟨role, hc⟩ := h₀.step ha hm
  have hu : UserAccess userBase (userBase + 2 * pgSize) := by decide
  have hpages : pagesOf userBase (userBase + 2 * pgSize) = [userBase, userBase + pgSize] := by decide
  obtain ⟨m', hun, hex⟩ := unmap_range_exact hc.toPaged ((hc.root _).2 hd₀) (by decide) (by decide) hu
    fun p hp => by
      rw [hpages] at hp ⊢
      exact hc.mapsAt_le hd₀ (by decide) (by decide) hp
  exact ⟨m, m', hm, hun, hex⟩

end

end UCore
