import UCore.Mm.ExitMmap
import UCore.Mm.Translate

namespace UCore
set_option autoImplicit true
open Function (update)

namespace Mem
variable {A : PhysSys}

/-- The frame was in use, and is free now. -/
def Released (m m' : Mem A) (f : Nat) : Prop := ¬ A.free m.phys f ∧ A.free m'.phys f

/-- The entry `i` of the frame `g` leads to the table `f` of the root `d`. -/
def ParentEntry (m : Mem A) (d g i f : Nat) : Prop :=
  ∃ p, p.length < 2 ∧ sv39.InWidth 0 (p ++ [i]) ∧ sv39.walk m.frame d p = some g ∧
    sv39.walk m.frame d (p ++ [i]) = some f

/-- From `m` to `m'` only empty tables of the root `d` have been given back: no entry of them is valid, the
entries that led to them are cleared, and nothing else changes. -/
structure PrunesOnly (m : Mem A) (d : Nat) (m' : Mem A) : Prop where
  empty : ∀ f, m.Released m' f → (∃ g i, m.ParentEntry d g i f) ∧ ∀ k < nPteEntry, pteValid (m'.frame f k) = false
  cleared : ∀ g i f, m.ParentEntry d g i f → m.Released m' f → m'.frame g i = 0
  kept : ∀ g i, (∀ f, m.ParentEntry d g i f → ¬ m.Released m' f) → m'.frame g i = m.frame g i
  free : ∀ f, A.free m.phys f → A.free m'.phys f
  translate : ∀ la, vpn la < userVpn → m'.translate d la = m.translate d la

/-- If the range touches slots of the region `i`, and there are tables in all of them, then the region has no
other tables, and these are empty. -/
def RegionEmpty (m : Mem A) (d start stop i : Nat) : Prop :=
  (∃ j, SlotsOf (roundDown start ptSize) stop i j) →
    (∀ j, SlotsOf (roundDown start ptSize) stop i j → m.HasTable d i j) →
    ∀ j < 512, ∀ t, sv39.walk m.frame d [i, j] = some t →
      SlotsOf (roundDown start ptSize) stop i j ∧ ∀ k < nPteEntry, pteValid (m.frame t k) = false

end Mem

section
variable {A : PhysSys} {m m' : Mem A} {role : Nat → Role}

theorem Paged.parentEntry_iff (h : Paged m role) (hd : role d = .node d []) : m.ParentEntry d g i f ↔
    ∃ p, p.length < 2 ∧ role g = .node d p ∧ m.Linked role d g i ∧ ptePpn (m.frame g i) = f := by
  refine exists_congr fun p => and_congr_right fun hp => ?_
  constructor
  · rintro ⟨hw, hg, hf⟩
    have hlen : (p ++ [i]).length ≤ 2 := by
      rw [List.length_append]
      exact hp
    have hg := (h.tables.walk_iff hd (TableFmt.inWidth_snoc.1 hw).1 (Nat.le_of_lt hp)).1 hg
    have hf := (h.tables.walk_iff hd hw hlen).1 hf
    exact ⟨hg, (h.child_role hg hp).1 hf⟩
  · rintro ⟨hg, hc⟩
    have hf := (h.child_role hg hp).2 hc
    have hwf := h.tables.inWidth hf
    exact ⟨hwf, (h.tables.walk_iff hd (h.tables.inWidth hg) (h.tables.length_le hg)).2 hg,
      (h.tables.walk_iff hd hwf (h.tables.length_le hf)).2 hf⟩

theorem Freed.released_iff (h : Freed d l m m' role) (hm : Paged m role) : m.Released m' f ↔ f ∈ l := by
  unfold Mem.Released
  rw [h.free_iff hm]
  constructor
  · rintro ⟨hn, hf⟩
    exact hf.resolve_left hn
  · intro hf
    obtain ⟨g, i, hlink, rfl⟩ := h.linked f hf
    exact ⟨(hm.linked_pool hlink).2.2.1, .inr hf⟩

theorem Freed.valid_kept (h : Freed d l m m' role) (hv : pteValid (m'.frame g i)) : m'.frame g i = m.frame g i := by
  apply h.kept
  rintro ⟨hlink, hf⟩
  rw [h.cut g i hlink hf, pteValid_zero] at hv
  cases hv

/-- Where only empty tables have been given back, the entries of the last level are as before. -/
theorem Freed.pteAt_empty (h : Freed d l m m' role) (hm : Paged m role) (hd : role d = .node d [])
    (hl : ∀ f ∈ l, ∃ p, role f = .node d p) (he : ∀ f ∈ l, ∀ k < nPteEntry, pteValid (m'.frame f k) = false)
    (hv : v < userVpn) (hval : pteValid (m.pteAt d v)) : m'.pteAt d v = m.pteAt d v := by
  have ht : ∃ t, role t = .node d (vpath v) := by
    by_contra hn
    rw [hm.pteAt_none hd hv fun f hf => hn ⟨f, hf⟩] at hval
    cases hval
  obtain ⟨t, ht⟩ := ht
  have hk : v % 2 ^ 9 < nPteEntry := Nat.mod_lt _ (by decide)
  rw [hm.pteAt_node ht hv] at hval
  have hleaf := hm.tables.leaf t d _ _ ht rfl hk hval
  have hpage : ptePpn (m.frame t (v % 2 ^ 9)) ∉ l := by
    intro hc
    obtain ⟨p, hp⟩ := hl _ hc
    rw [show ptePpn (m.frame t (v % 2 ^ 9)) = sv39.target (m.frame t (v % 2 ^ 9)) from rfl, hleaf] at hp
    cases hp
  have hval' := (h.entry_valid ht hk).2 ⟨hval, hpage⟩
  have htl : t ∉ l := by
    intro hc
    rw [he t hc _ hk] at hval'
    cases hval'
  obtain ⟨-, hj, g, hg, hgv, hgt⟩ := hm.tables.parent t d [v / 2 ^ 18] _ ht
  have hgv' := (h.entry_valid hg hj).2 ⟨hgv, by rwa [show ptePpn _ = t from hgt]⟩
  have hgl : g ∉ l := by
    intro hc
    rw [he g hc _ hj] at hgv'
    cases hgv'
  obtain ⟨-, hi, e, hr, hev, heg⟩ := hm.tables.parent g d [] _ hg
  obtain rfl := hm.tables.inj hd hr
  have hev' := (h.entry_valid hr hi).2 ⟨hev, by rwa [show ptePpn _ = g from heg]⟩
  have hw : sv39.walk m'.frame d (vpath v) = some t := by
    have hd₁ := h.valid_kept hev'
    have hd₂ := h.valid_kept hgv'
    unfold vpath
    rw [TableFmt.walk, if_pos (show sv39.valid _ = true from hev'), hd₁, heg, TableFmt.walk,
      if_pos (show sv39.valid _ = true from hgv'), hd₂, hgt]
    rfl
  rw [hm.pteAt_node ht hv]
  unfold Mem.pteAt
  rw [hw]
  exact h.valid_kept hval'

/-- Where only empty tables have been given back, translations are as before. -/
theorem Freed.translate_empty (h : Freed d l m m' role) (hm : Paged m role) (hd : role d = .node d [])
    (hl : ∀ f ∈ l, ∃ p, role f = .node d p) (he : ∀ f ∈ l, ∀ k < nPteEntry, pteValid (m'.frame f k) = false)
    (hv : vpn la < userVpn) : m'.translate d la = m.translate d la := by
  by_cases hval : pteValid (m.pteAt d (vpn la))
  · exact translate_congr (h.pteAt_empty hm hd hl he hv hval)
  · have hval' : ¬ pteValid (m'.pteAt d (vpn la)) := by
      intro hc
      apply hval
      unfold Mem.pteAt at hc
      split at hc
      · rename_i t hw
        have hw := TableFmt.walk_mono (fun f i => h.valid_kept) hw
        rw [h.valid_kept hc] at hc
        unfold Mem.pteAt
        rwa [hw]
      · cases hc
    unfold Mem.translate
    rw [if_neg hval, if_neg hval']

/-- `exit_range` has only pruned empty tables exactly when none of the directory pages that it has given back
had another table. -/
theorem Freed.prunesOnly_iff (h : Freed d l m m' role) (hm : Paged m role) (hd : role d = .node d [])
    (hl : ∀ f ∈ l, ∃ p, p ≠ [] ∧ role f = .node d p) :
    m.PrunesOnly d m' ↔ ∀ f ∈ l, ∀ k < nPteEntry, pteValid (m'.frame f k) = false := by
  constructor
  · intro hp f hf
    exact (hp.empty f ((h.released_iff hm).2 hf)).2
  · intro he
    have hnode (f : Nat) (hf : f ∈ l) : ∃ p, role f = .node d p := by
      obtain ⟨p, -, hp⟩ := hl f hf
      exact ⟨p, hp⟩
    refine ⟨fun f hf => ?_, fun g i f hp hf => ?_, fun g i hk => ?_, fun f hf => (h.free_iff hm).2 (.inl hf), ?_⟩
    · rw [h.released_iff hm] at hf
      refine ⟨?_, he f hf⟩
      obtain ⟨g, i, hlink, hgf⟩ := h.linked f hf
      obtain ⟨p, hg, -, ⟨hp, -⟩ | ⟨-, hleaf⟩⟩ := hm.linked_role hlink
      · exact ⟨g, i, (hm.parentEntry_iff hd).2 ⟨p, hp, hg, hlink, hgf⟩⟩
      · obtain ⟨q, hq⟩ := hnode f hf
        rw [hgf, hq] at hleaf
        cases hleaf
    · rw [h.released_iff hm] at hf
      obtain ⟨p, -, -, hlink, rfl⟩ := (hm.parentEntry_iff hd).1 hp
      exact h.cut g i hlink hf
    · apply h.kept
      rintro ⟨hlink, hf⟩
      obtain ⟨p, hg, -, ⟨hp, -⟩ | ⟨-, hleaf⟩⟩ := hm.linked_role hlink
      · exact hk _ ((hm.parentEntry_iff hd).2 ⟨p, hp, hg, hlink, rfl⟩) ((h.released_iff hm).2 hf)
      · obtain ⟨q, hq⟩ := hnode _ hf
        rw [hq] at hleaf
        cases hleaf
    · intro la hv
      exact h.translate_empty hm hd hnode he hv

theorem bare_none_iff : m.Bare (fun _ => False) t ↔ ∀ k < nPteEntry, pteValid (m.frame t k) = false := by
  refine forall₂_congr fun k _ => ?_
  rw [imp_false, Bool.not_eq_true]

theorem Paged.regionEmpty_iff (h : Paged m role) (hd : role d = .node d []) (hstop : stop ≤ userTop) :
    m.RegionEmpty d start stop i ↔ ((∃ j, SlotsOf (roundDown start ptSize) stop i j) →
      (∀ j, SlotsOf (roundDown start ptSize) stop i j → ∃ t, role t = .node d [i, j]) →
      ∀ j t, role t = .node d [i, j] → SlotsOf (roundDown start ptSize) stop i j ∧ m.Bare (fun _ => False) t) := by
  refine imp_congr_right fun hex => ?_
  have hi : i < 256 := by
    obtain ⟨j, -, -, hlt⟩ := hex
    have htop : userTop = 2147483648 := rfl
    rw [slotAddr_eq] at hlt
    omega
  refine imp_congr (forall₂_congr fun j _ => h.hasTable_iff hd hi) (forall_congr' fun j => ?_)
  constructor
  · intro hall t ht
    have hw := h.tables.inWidth ht
    rw [bare_none_iff]
    exact hall hw.2.1 t ((h.tables.walk_iff hd hw (Nat.le_refl 2)).2 ht)
  · intro hall hj t ht
    have hw : sv39.InWidth 0 [i, j] := ⟨hi, hj, trivial⟩
    rw [← bare_none_iff]
    exact hall t ((h.tables.walk_iff hd hw (Nat.le_refl 2)).1 ht)

/-- `exit_range` prunes empty tables only, exactly when in each region whose touched slots all have tables there
are no other tables, and these are empty. -/
theorem exit_range_prunes_iff (hm : Paged m role) (hd : role d = .node d []) (hs : start % pgSize = 0)
    (hstop : stop % pgSize = 0) (ha : UserAccess start stop) :
    (∃ m', m.exitRange d start stop = some m' ∧ m.PrunesOnly d m') ↔ ∀ i, m.RegionEmpty d start stop i := by
  have hP : PagesIn role [] fun _ => False := fun f _ => iff_of_false List.not_mem_nil id
  obtain ⟨l, m', hrun, h, hmem⟩ := (Freed.init d m role).exitRange_pruned hm hP hd hs hstop ha
  have hmem (f : Nat) : f ∈ l ↔ ∃ i, (∃ j, SlotsOf (roundDown start ptSize) stop i j) ∧
      PrunedOf role (m.Bare fun _ => False) d [] i (SlotsOf (roundDown start ptSize) stop i) f :=
    (hmem f).trans (or_iff_right List.not_mem_nil)
  have hnode (f : Nat) (hf : f ∈ l) : ∃ p, p ≠ [] ∧ role f = .node d p := by
    obtain ⟨i, -, hp⟩ := (hmem f).1 hf
    obtain ⟨p, hp⟩ := hp.node
    exact ⟨_, by simp, hp⟩
  have hex : (∃ m', m.exitRange d start stop = some m' ∧ m.PrunesOnly d m') ↔ m.PrunesOnly d m' := by
    rw [hrun]
    simp
  rw [hex, h.prunesOnly_iff hm hd hnode]
  simp only [hm.regionEmpty_iff hd ha.2.2]
  constructor
  · intro he i hj hall j t ht
    have hw := hm.tables.inWidth ht
    obtain ⟨-, hjw, g, hg, hgv, hgt⟩ := hm.tables.parent t d [i] j ht
    have hgl : g ∈ l := by
      refine (hmem g).2 ⟨i, hj, ⟨g, List.not_mem_nil, hg⟩, .inr ⟨hg, fun k hk => ?_⟩⟩
      obtain ⟨t', ht'⟩ := hall k hk
      exact ⟨t', List.not_mem_nil, ht'⟩
    have htl : t ∈ l := by
      by_contra hn
      have hval := (h.entry_valid hg hjw).2 ⟨hgv, by rwa [show ptePpn _ = t from hgt]⟩
      rw [he g hgl j hjw] at hval
      cases hval
    obtain ⟨i', -, -, ⟨k, hk, htk, hb⟩ | ⟨htk, -⟩⟩ := (hmem t).1 htl
    · obtain ⟨rfl, rfl⟩ := slot_inj ht htk
      exact ⟨hk, hb⟩
    · exact absurd htk (slot_not_region ht)
  · intro hall f hf k hk
    obtain ⟨i, hj, -, ⟨j, -, hfj, hb⟩ | ⟨hfi, hslots⟩⟩ := (hmem f).1 hf
    · rw [Bool.eq_false_iff]
      intro hv
      exact hb k hk ((h.entry_valid hfj hk).1 hv).1
    · rw [Bool.eq_false_iff]
      intro hv
      obtain ⟨hval, hn⟩ := (h.entry_valid hfi hk).1 hv
      have ht := (hm.slot_role hfi).2 ⟨⟨⟨_, hfi, hk⟩, hval⟩, rfl⟩
      have htables (j : Nat) (hj : SlotsOf (roundDown start ptSize) stop i j) : ∃ t, role t = .node d [i, j] := by
        obtain ⟨t, -, ht⟩ := hslots j hj
        exact ⟨t, ht⟩
      obtain ⟨hkv, hb⟩ := hall i hj htables k _ ht
      exact hn ((hmem _).2 ⟨i, hj, ⟨f, List.not_mem_nil, hfi⟩, .inl ⟨k, hkv, ht, hb⟩⟩)

/-- A page at the start of the user half of `leakMem`. -/
theorem leakMem_page : ∃ (m : Mem framePool) (role : Nat → Role),
    (PageOp.pgdirAllocPage 0x80201 userBase (pteU ||| readWrite)).run leakMem = some m ∧ Paged m role ∧
      role 0x80201 = .node 0x80201 [] := by
  obtain ⟨role, h⟩ := pageMachine_init leakMem_init
  have hd := (h.root 0x80201).2 (by decide)
  have hzero : leakMem.pteAt 0x80201 (vpn userBase) = 0 := pteAt_empty (fun _ _ => pteValid_zero) (by decide)
  have hrun : (leakMem.pgdirAllocPage 0x80201 userBase (pteU ||| readWrite)).any (·.1.isSome) := by
    decide +kernel
  obtain ⟨⟨r, m⟩, hrun, hr⟩ := (Option.any_eq_true ..).1 hrun
  rcases pgdirAllocPage_spec h.toPaged h.plain hd (by decide) (by rw [hzero]; rfl) (by decide) hrun with
    ⟨rfl, -⟩ | ⟨t, role', rfl, hg, -⟩
  · cases hr
  · exact ⟨m, role', by rw [PageOp.run, hrun, Option.map_some], hg.paged, (hg.keeps _ (by rw [hd]; simp)).trans hd⟩

/-- The directory page above a mapped page is given back, and the translation of the page is lost. -/
theorem exit_range_drops : ∃ (m m' : Mem framePool) (role : Nat → Role), Paged m role ∧
    role 0x80201 = .node 0x80201 [] ∧ m.exitRange 0x80201 userBase (userBase + pgSize) = some m' ∧
    ¬ m.PrunesOnly 0x80201 m' := by
  obtain ⟨m, role, hrun, hm, hd⟩ := leakMem_page
  have hlost : (((PageOp.pgdirAllocPage 0x80201 userBase (pteU ||| readWrite)).run leakMem).bind
      fun m : Mem framePool => (m.exitRange 0x80201 userBase (userBase + pgSize)).bind fun m' : Mem framePool =>
        if m'.translate 0x80201 userBase ≠ m.translate 0x80201 userBase then some m' else none).isSome := by
    decide +kernel
  rw [hrun, Option.bind_some] at hlost
  obtain ⟨m₁, hlost⟩ := Option.isSome_iff_exists.1 hlost
  obtain ⟨m', hexit, hlost⟩ := Option.bind_eq_some_iff.1 hlost
  refine ⟨m, m', role, hm, hd, hexit, fun hp => ?_⟩
  rw [hp.translate userBase (by decide), if_neg (not_not_intro rfl)] at hlost
  cases hlost

theorem exit_range_prunes_iff_page : ∃ m : Mem framePool,
    (PageOp.pgdirAllocPage 0x80201 userBase (pteU ||| readWrite)).run leakMem = some m ∧
    ((∃ m', m.exitRange 0x80201 userBase (userBase + pgSize) = some m' ∧ m.PrunesOnly 0x80201 m') ↔
      ∀ i, m.RegionEmpty 0x80201 userBase (userBase + pgSize) i) := by
  obtain ⟨m, role, hrun, hm, hd⟩ := leakMem_page
  exact ⟨m, hrun, exit_range_prunes_iff hm hd (by decide) (by decide) (by decide)⟩

end

end UCore
