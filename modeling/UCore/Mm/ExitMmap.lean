import UCore.Lib.Sweep
import UCore.Mm.ExitRange
import UCore.Mm.RefRuns

namespace UCore
set_option autoImplicit true
open Function (update)

namespace Mem
variable {A : PhysSys}

/-- The frame is one that the address space with the root `d` holds: the root, a table or a mapped page. -/
def Held (m : Mem A) (d f : Nat) : Prop :=
  ∃ p, p.length ≤ 3 ∧ sv39.InWidth 0 p ∧ sv39.walk m.frame d p = some f

/-- There is a table behind the slot `j` of the region `i`. -/
def HasTable (m : Mem A) (d i j : Nat) : Prop := j < 512 ∧ (sv39.walk m.frame d [i, j]).isSome

/-- All the slots of the region `i` that the area touches have a table and are touched by none of the areas
`pre`, and there is such a slot. -/
def ClosesRegion (m : Mem A) (d i : Nat) (pre : List Vma) (vma : Vma) : Prop :=
  (∃ j, vma.Slots i j) ∧ ∀ j, vma.Slots i j → m.HasTable d i j ∧ ∀ w ∈ pre, ¬ w.Slots i j

/-- If the region `i` has a directory, then an area closes the region, and no table is in a slot that neither
the first such area nor one before it touches. -/
def RegionClear (m : Mem A) (d : Nat) (vmas : List Vma) (i : Nat) : Prop :=
  pteValid (m.frame d i) → ∃ pre vma post, vmas = pre ++ vma :: post ∧ m.ClosesRegion d i pre vma ∧
    (∀ pre' w post', pre = pre' ++ w :: post' → ¬ m.ClosesRegion d i pre' w) ∧
    ∀ j, m.HasTable d i j → vma.Slots i j ∨ ∃ w ∈ pre, w.Slots i j

/-- From `m` to `m'` exactly the frames of the address space have been given back, each of them once. -/
def GivesBack (m : Mem A) (d : Nat) (m' : Mem A) : Prop :=
  ∃ l : List Nat, l.Nodup ∧ (∀ f, f ∈ l ↔ m.Held d f) ∧
    m'.phys = l.foldl (fun s f => A.freePages s f 1) m.phys ∧
    (∀ f, m.Held d f → ¬ A.free m.phys f) ∧ ∀ f, A.free m'.phys f ↔ A.free m.phys f ∨ m.Held d f

end Mem

section
variable {A : PhysSys} {m m' m'' : Mem A} {role : Nat → Role} {vma : Vma} {vmas : List Vma}

theorem Paged.held_iff (h : Paged m role) (hd : role d = .node d []) :
    m.Held d f ↔ f = d ∨ ∃ g i, m.Linked role d g i ∧ ptePpn (m.frame g i) = f := by
  constructor
  · rintro ⟨p, hp, hw, hf⟩
    induction p using List.reverseRecOn with
    | nil =>
      cases hf
      exact .inl rfl
    | append_singleton p i _ =>
      obtain ⟨hwp, hi⟩ := TableFmt.inWidth_snoc.1 hw
      rw [List.length_append, List.length_singleton] at hp
      rw [TableFmt.walk_append] at hf
      obtain ⟨g, hg, hf⟩ := Option.bind_eq_some_iff.1 hf
      have hr := (h.tables.walk_iff hd hwp (show p.length ≤ 2 by omega)).1 hg
      unfold TableFmt.walk at hf
      split at hf
      · rename_i hv
        cases hf
        exact .inr ⟨g, i, ⟨⟨p, hr, hi⟩, hv⟩, rfl⟩
      · cases hf
  · rintro (rfl | ⟨g, i, ⟨⟨p, hg, hi⟩, hv⟩, rfl⟩)
    · exact ⟨[], by simp, trivial, rfl⟩
    · have hw := (h.tables.walk_iff hd (h.tables.inWidth hg) (h.tables.length_le hg)).2 hg
      have hlen := h.tables.length_le hg
      refine ⟨p ++ [i], ?_, TableFmt.inWidth_snoc.2 ⟨h.tables.inWidth hg, hi⟩, ?_⟩
      · rw [List.length_append, List.length_singleton]
        exact Nat.succ_le_succ hlen
      · rw [TableFmt.walk_append, hw, Option.bind_some, TableFmt.walk, if_pos (show sv39.valid _ = true from hv)]
        rfl

theorem Paged.hasTable_iff (h : Paged m role) (hd : role d = .node d []) (hi : i < 256) :
    m.HasTable d i j ↔ ∃ t, role t = .node d [i, j] := by
  constructor
  · rintro ⟨hj, hs⟩
    obtain ⟨t, ht⟩ := Option.isSome_iff_exists.1 hs
    have hw : sv39.InWidth 0 [i, j] := ⟨hi, hj, trivial⟩
    exact ⟨t, (h.tables.walk_iff hd hw (Nat.le_refl 2)).1 ht⟩
  · rintro ⟨t, ht⟩
    have hw := h.tables.inWidth ht
    refine ⟨hw.2.1, ?_⟩
    rw [(h.tables.walk_iff hd hw (Nat.le_refl 2)).2 ht]
    rfl

theorem slot_inj (h : role t = .node d [i, j]) (h' : role t = .node d [i', k]) : i = i' ∧ j = k := by
  have hp := (Role.node.inj (h.symm.trans h')).2
  simpa using hp

theorem slot_not_region (h : role t = .node d [i, j]) : role t ≠ .node d [i'] := by
  rw [h]
  simp

/-- The tables of a region. -/
def RegionRole (role : Nat → Role) (d i f : Nat) : Prop :=
  role f = .node d [i] ∨ ∃ j, role f = .node d [i, j]

/-- A region that has been closed is left alone. -/
theorem sweptOf_closed (hg : ∀ g, role g = .node d [i] → g ∈ l) (hf : RegionRole role d i f) :
    ¬ ∃ i', (∃ j, Vma.Slots vma i' j) ∧ SweptOf role d l i' (vma.Slots i') f := by
  rintro ⟨i', -, ⟨g, hn, hr⟩, hc⟩
  have hi : i' = i := by
    rcases hf with hf | ⟨j, hf⟩ <;> rcases hc with ⟨k, -, hc⟩ | ⟨hc, -⟩ <;> rw [hf] at hc <;>
      exact (List.cons.inj (Role.node.inj hc).2).1.symm
  subst hi
  exact hn (hg g hr)

/-- The second loop of `exit_mmap`. It leaves no table of a region exactly when its passes leave none. -/
theorem Freed.exitVmas (h : Freed d l m m' role) (hm : Paged m role)
    (he : ∀ v < userVpn, pteValid (m.pteAt d v) → ptePpn (m.pteAt d v) ∈ l) (hd : role d = .node d [])
    (hp : ∀ vma ∈ vmas, vma.vmStart % pgSize = 0 ∧ vma.vmEnd % pgSize = 0 ∧ UserAccess vma.vmStart vma.vmEnd) :
    ∃ l' m'', vmas.foldlM (fun m vma => m.exitRange d vma.vmStart vma.vmEnd) m' = some m'' ∧
      Freed d l' m m'' role ∧ (∀ f ∈ l, f ∈ l') ∧
      (∀ i, (∀ g, role g = .node d [i] → g ∈ l) → ∀ f, RegionRole role d i f → f ∈ l' → f ∈ l) ∧
      ∀ i, (∃ g, g ∉ l ∧ role g = .node d [i]) → ((∀ f, RegionRole role d i f → f ∈ l') ↔
        Swept (fun j => ∃ t, t ∉ l ∧ role t = .node d [i, j]) (vmas.map fun vma => vma.Slots i)) := by
  induction vmas generalizing l m' with
  | nil =>
    refine ⟨l, m', rfl, h, fun _ => id, fun _ _ _ _ => id, ?_⟩
    rintro i ⟨g, hn, hg⟩
    exact iff_of_false (fun hc => hn (hc g (.inl hg))) id
  | cons vma vmas ih =>
    obtain ⟨l₁, m₁, hr₁, h₁, hmem₁⟩ := h.exitRange hm he hd (hp vma (List.mem_cons_self ..))
    have he₁ (v : Nat) (hv : v < userVpn) (hval : pteValid (m.pteAt d v)) : ptePpn (m.pteAt d v) ∈ l₁ :=
      (hmem₁ _).2 (.inl (he v hv hval))
    obtain ⟨l₂, m₂, hr₂, h₂, hsub₂, hclosed₂, hopen₂⟩ := ih h₁ he₁ fun w hw => hp w (List.mem_cons_of_mem _ hw)
    have hsub₁ (f : Nat) (hf : f ∈ l) : f ∈ l₁ := (hmem₁ f).2 (.inl hf)
    refine ⟨l₂, m₂, by rw [List.foldlM_cons, hr₁]; exact hr₂, h₂, fun f hf => hsub₂ f (hsub₁ f hf), ?_, ?_⟩
    · intro i hg f hf hf₂
      have hf₁ := hclosed₂ i (fun g hgi => hsub₁ g (hg g hgi)) f hf hf₂
      exact ((hmem₁ f).1 hf₁).resolve_right (sweptOf_closed hg hf)
    · rintro i ⟨g, hn, hg⟩
      have hregion (f : Nat) (hf : RegionRole role d i f) : f ∈ l₁ ↔ f ∈ l ∨ (∃ j, vma.Slots i j) ∧
          ((∃ k, vma.Slots i k ∧ role f = .node d [i, k]) ∨
            role f = .node d [i] ∧ ∀ k, vma.Slots i k → ∃ t, t ∉ l ∧ role t = .node d [i, k]) := by
        rw [hmem₁]
        refine or_congr_right ⟨?_, ?_⟩
        · rintro ⟨i', hj, -, hc⟩
          have hi : i' = i := by
            rcases hf with hf | ⟨j, hf⟩ <;> rcases hc with ⟨k, -, hc⟩ | ⟨hc, -⟩ <;> rw [hf] at hc <;>
              exact (List.cons.inj (Role.node.inj hc).2).1.symm
          subst hi
          exact ⟨hj, hc⟩
        · rintro ⟨hj, hc⟩
          exact ⟨i, hj, ⟨g, hn, hg⟩, hc⟩
      rw [List.map_cons, Swept]
      by_cases hc : (∃ j, vma.Slots i j) ∧ ∀ j, vma.Slots i j → ∃ t, t ∉ l ∧ role t = .node d [i, j]
      · have hgone (g' : Nat) (hg' : role g' = .node d [i]) : g' ∈ l₁ :=
          (hregion g' (.inl hg')).2 (.inr ⟨hc.1, .inr ⟨hg', hc.2⟩⟩)
        rw [or_iff_left fun hno => hno.1 hc, and_iff_right hc]
        constructor
        · rintro hall j ⟨t, ht, hr⟩
          have ht₁ := hclosed₂ i hgone t (.inr ⟨j, hr⟩) (hall t (.inr ⟨j, hr⟩))
          rcases (hregion t (.inr ⟨j, hr⟩)).1 ht₁ with ht₁ | ⟨-, ⟨k, hk, hrk⟩ | ⟨hrk, -⟩⟩
          · exact absurd ht₁ ht
          · rwa [(slot_inj hr hrk).2]
          · exact absurd hrk (slot_not_region hr)
        · rintro hall f (hf | ⟨j, hf⟩)
          · exact hsub₂ f (hgone f hf)
          · apply hsub₂
            rw [hregion f (.inr ⟨j, hf⟩)]
            by_cases hfl : f ∈ l
            · exact .inl hfl
            · exact .inr ⟨hc.1, .inl ⟨j, hall j ⟨f, hfl, hf⟩, hf⟩⟩
      · rw [or_iff_right fun hyes => hc hyes.1, and_iff_right hc]
        have hg₁ : g ∉ l₁ := by
          rw [hregion g (.inl hg)]
          rintro (hgl | ⟨hj, ⟨k, -, hgk⟩ | ⟨-, hall⟩⟩)
          · exact hn hgl
          · exact slot_not_region hgk hg
          · exact hc ⟨hj, hall⟩
        rw [hopen₂ i ⟨g, hg₁, hg⟩]
        have hleft : (fun j => ∃ t, t ∉ l₁ ∧ role t = .node d [i, j]) =
            fun j => (∃ t, t ∉ l ∧ role t = .node d [i, j]) ∧ ¬ vma.Slots i j := by
          funext j
          apply propext
          constructor
          · rintro ⟨t, ht, hr⟩
            rw [hregion t (.inr ⟨j, hr⟩), not_or] at ht
            exact ⟨⟨t, ht.1, hr⟩, fun hj => ht.2 ⟨⟨j, hj⟩, .inl ⟨j, hj, hr⟩⟩⟩
          · rintro ⟨⟨t, ht, hr⟩, hj⟩
            refine ⟨t, ?_, hr⟩
            rw [hregion t (.inr ⟨j, hr⟩)]
            rintro (htl | ⟨-, ⟨k, hk, hrk⟩ | ⟨hrk, -⟩⟩)
            · exact ht htl
            · rw [(slot_inj hr hrk).2] at hj
              exact hj hk
            · exact slot_not_region hr hrk
        rw [hleft]

theorem regionClear_iff : m.RegionClear d vmas i ↔
    (pteValid (m.frame d i) → Swept (m.HasTable d i) (vmas.map fun vma => vma.Slots i)) := by
  have hcloses (pre : List Vma) (vma : Vma) : m.ClosesRegion d i pre vma ↔
      Closes (m.HasTable d i) (pre.map fun vma => vma.Slots i) (vma.Slots i) := by
    simp [Mem.ClosesRegion, Closes]
  refine imp_congr_right fun _ => ?_
  rw [swept_iff]
  constructor
  · rintro ⟨pre, vma, post, rfl, hc, hfirst, hall⟩
    refine ⟨pre.map fun vma => vma.Slots i, vma.Slots i, post.map fun vma => vma.Slots i, by simp,
      (hcloses ..).1 hc, fun pre' V post' h => ?_, by simpa using hall⟩
    obtain ⟨pre₁, rest, rfl, rfl, hrest⟩ := List.map_eq_append_iff.1 h
    obtain ⟨w, post₁, rfl, rfl, rfl⟩ := List.map_eq_cons_iff.1 hrest
    exact fun hw => hfirst pre₁ w post₁ rfl ((hcloses ..).2 hw)
  · rintro ⟨pre, V, post, h, hc, hfirst, hall⟩
    obtain ⟨pre₁, rest, rfl, rfl, hrest⟩ := List.map_eq_append_iff.1 h
    obtain ⟨vma, post₁, rfl, rfl, rfl⟩ := List.map_eq_cons_iff.1 hrest
    refine ⟨pre₁, vma, post₁, rfl, (hcloses ..).2 hc, fun pre' w post' hpre hw => ?_, by simpa using hall⟩
    exact hfirst (pre'.map fun vma => vma.Slots i) (w.Slots i) (post'.map fun vma => vma.Slots i)
      (by rw [hpre]; simp) ((hcloses ..).1 hw)

/-- `exit_mmap` and `put_pgdir` give back frames of the address space only: the pages, the tables of the regions
that are clear, and the root. -/
theorem exitMmap_putPgdir (hm : Paged m role) (hd : role d = .node d []) (hdir : (m.mms mm).pgdir = some d)
    (hcount : (m.mms mm).mmCount = 0) (hl : VmaList (m.mms mm).mmapList) (hu : m.Unshared d) (hone : m.RefOne d)
    (hc : ∀ v < userVpn, pteValid (m.pteAt d v) → Covered (m.mms mm).mmapList v) :
    ∃ l m₁, m.exitMmap mm = some m₁ ∧ m₁.putPgdir mm = some (m₁.freePage d) ∧ Freed d l m m₁ role ∧
      (∀ v < userVpn, pteValid (m.pteAt d v) → ptePpn (m.pteAt d v) ∈ l) ∧
      ∀ i < 256, (∀ f, RegionRole role d i f → f ∈ l) ↔ m.RegionClear d (m.mms mm).mmapList i := by
  obtain ⟨l₁, m₁, hr₁, h₁, hmem₁⟩ := (Freed.init d m role).unmapVmas hm hu hone hd nofun hl.page
  have he (v : Nat) (hv : v < userVpn) (hval : pteValid (m.pteAt d v)) : ptePpn (m.pteAt d v) ∈ l₁ :=
    (hmem₁ _).2 (.inr ⟨v, hv, hc v hv hval, hval, rfl⟩)
  have hleaf (f : Nat) (hf : f ∈ l₁) : role f = .leaf := by
    rcases (hmem₁ f).1 hf with hf | ⟨v, hv, -, hval, rfl⟩
    · cases hf
    · exact hm.mapped hd hv hval
  have hnode (f : Nat) (p : List Nat) (hf : role f = .node d p) : f ∉ l₁ := by
    intro hc
    rw [hleaf f hc] at hf
    cases hf
  obtain ⟨l₂, m₂, hr₂, h₂, hsub, -, hregion⟩ := h₁.exitVmas hm he hd hl.page
  refine ⟨l₂, m₂, ?_, ?_, h₂, fun v hv hval => hsub _ (he v hv hval), fun i hi => ?_⟩
  · unfold Mem.exitMmap
    rw [if_pos hcount, hdir]
    simp only [Option.bind_eq_bind, Option.bind_some]
    rw [hr₁]
    exact hr₂
  · unfold Mem.putPgdir
    rw [h₂.vars.mms, hdir]
    rfl
  · rw [regionClear_iff]
    have hpop : (fun j => ∃ t, t ∉ l₁ ∧ role t = .node d [i, j]) = m.HasTable d i := by
      funext j
      apply propext
      rw [hm.hasTable_iff hd hi]
      exact exists_congr fun t => and_iff_right_of_imp fun ht => hnode t _ ht
    constructor
    · intro hall hv
      have hg := (hm.region_role hd).2 ⟨⟨⟨[], hd, hi⟩, hv⟩, rfl⟩
      rw [← hpop]
      exact (hregion i ⟨_, hnode _ _ hg, hg⟩).1 hall
    · intro hs f hf
      have hex : ∃ g, role g = .node d [i] := by
        rcases hf with hf | ⟨j, hf⟩
        · exact ⟨f, hf⟩
        · obtain ⟨-, -, g, hg, -⟩ := hm.tables.parent f d [i] j hf
          exact ⟨g, hg⟩
      obtain ⟨g, hg⟩ := hex
      have hv := ((hm.region_role hd).1 hg).1.2
      refine (hregion i ⟨g, hnode _ _ hg, hg⟩).2 ?_ f hf
      rw [hpop]
      exact hs hv

/-- The teardown of an address space is complete exactly when all its regions are clear. -/
theorem teardown_complete_iff (hm : Paged m role) (hd : role d = .node d []) (hdir : (m.mms mm).pgdir = some d)
    (hcount : (m.mms mm).mmCount = 0) (hl : VmaList (m.mms mm).mmapList) (hu : m.Unshared d) (hone : m.RefOne d)
    (hc : ∀ v < userVpn, pteValid (m.pteAt d v) → Covered (m.mms mm).mmapList v) :
    (∃ m₁ m', m.exitMmap mm = some m₁ ∧ m₁.putPgdir mm = some m' ∧ m.GivesBack d m') ↔
      ∀ i < 256, m.RegionClear d (m.mms mm).mmapList i := by
  obtain ⟨l, m₁, hr₁, hr₂, h, hpages, hregion⟩ := exitMmap_putPgdir hm hd hdir hcount hl hu hone hc
  have hlinked (f : Nat) (hf : f ∈ l) : f ≠ d ∧ ∃ g i, m.Linked role d g i ∧ ptePpn (m.frame g i) = f := by
    obtain ⟨g, i, hlink, rfl⟩ := h.linked f hf
    refine ⟨fun hfd => ?_, g, i, hlink, rfl⟩
    obtain ⟨p, -, -, hr⟩ := hm.linked_role hlink
    rw [hfd, hd] at hr
    rcases hr with ⟨-, hr⟩ | ⟨-, hr⟩ <;> simp at hr
  have hnotfree (f : Nat) (hf : m.Held d f) : ¬ A.free m.phys f := by
    rcases (hm.held_iff hd).1 hf with rfl | ⟨g, i, hlink, rfl⟩
    · rw [← hm.free, hd]
      simp
    · exact (hm.linked_pool hlink).2.2.1
  have hnodup : (l ++ [d]).Nodup := by
    refine List.nodup_append.2 ⟨h.nodup, List.pairwise_singleton .., fun x hx y hy => ?_⟩
    rw [List.mem_singleton.1 hy]
    exact (hlinked x hx).1
  have hphys : (m₁.freePage d).phys = (l ++ [d]).foldl (fun s f => A.freePages s f 1) m.phys := by
    rw [List.foldl_append, ← h.phys]
    rfl
  have hfree (f : Nat) : A.free (m₁.freePage d).phys f ↔ A.free m.phys f ∨ f ∈ l ++ [d] := by
    rw [hphys, freeAll_free hnodup]
    intro g hg
    rcases List.mem_append.1 hg with hg | hg
    · obtain ⟨-, g', i, hlink, rfl⟩ := hlinked g hg
      exact hm.linked_pool hlink
    · rw [List.mem_singleton.1 hg]
      obtain ⟨h₁, h₂, h₃⟩ := hm.pool d (by rw [hd]; simp)
      exact ⟨h₁, h₂, hnotfree d ⟨[], by simp, trivial, rfl⟩, h₃⟩
  constructor
  · rintro ⟨m₁', m', hr₁', hr₂', l', -, hl', -, -, hfree'⟩ i hi
    obtain rfl := Option.some.inj (hr₁.symm.trans hr₁')
    obtain rfl := Option.some.inj (hr₂.symm.trans hr₂')
    refine (hregion i hi).1 fun f hf => ?_
    have hrole : ∃ p, role f = .node d p ∧ p ≠ [] := by
      rcases hf with hf | ⟨j, hf⟩
      · exact ⟨_, hf, by simp⟩
      · exact ⟨_, hf, by simp⟩
    obtain ⟨p, hp, hne⟩ := hrole
    have hheld : m.Held d f := by
      refine ⟨p, Nat.le_succ_of_le (hm.tables.length_le hp), hm.tables.inWidth hp, ?_⟩
      exact (hm.tables.walk_iff hd (hm.tables.inWidth hp) (hm.tables.length_le hp)).2 hp
    rcases (hfree f).1 ((hfree' f).2 (.inr hheld)) with hc | hc
    · exact absurd hc (hnotfree f hheld)
    · refine (List.mem_append.1 hc).resolve_right fun hc => hne ?_
      rw [List.mem_singleton.1 hc, hd] at hp
      exact (Role.node.inj hp).2.symm
  · intro hall
    have hheld (f : Nat) : f ∈ l ++ [d] ↔ m.Held d f := by
      rw [List.mem_append, List.mem_singleton, hm.held_iff hd]
      constructor
      · rintro (hf | hf)
        · exact .inr (hlinked f hf).2
        · exact .inl hf
      · rintro (hf | ⟨g, i, hlink, rfl⟩)
        · exact .inr hf
        · left
          obtain ⟨p, hg, hi, hr⟩ := hm.linked_role hlink
          rcases hr with ⟨hlen, hr⟩ | ⟨hlen, -⟩
          · have hreg (i' : Nat) (hi' : i' < 256) := (hregion i' hi').2 (hall i' hi')
            match p, hg, hlen, hr with
            | [], _, _, hr => exact hreg i (hm.tables.inWidth hr).1 _ (.inl hr)
            | [i'], _, _, hr => exact hreg i' (hm.tables.inWidth hr).1 _ (.inr ⟨i, hr⟩)
          · obtain ⟨v, hv, -, -, hfv⟩ := hm.entry_vpn hg hlen hi
            rw [hfv]
            exact hpages v hv (by rw [← hfv]; exact hlink.2)
    refine ⟨m₁, _, hr₁, hr₂, l ++ [d], hnodup, hheld, hphys, hnotfree, fun f => ?_⟩
    rw [hfree, hheld]

theorem Gains.unshared (hg : Gains d v t e m m' role role') (hm : Paged m role) (hd : role d = .node d [])
    (he : ptePpn e = t) (hu : m.Unshared d) : m'.Unshared d := by
  have hne (w : Nat) (hw : w < userVpn) (hwv : w ≠ v) (hval : pteValid (m'.pteAt d w)) :
      ptePpn (m'.pteAt d w) ≠ t := by
    rw [hg.same w hw hwv] at hval ⊢
    intro hc
    have hleaf := hm.mapped hd hw hval
    rw [hc, hg.free] at hleaf
    cases hleaf
  intro x hx y hy hxv hyv heq
  by_cases hxe : x = v
  · by_cases hye : y = v
    · rw [hxe, hye]
    · subst hxe
      rw [hg.new, he] at heq
      exact absurd heq.symm (hne y hy hye hyv)
  · by_cases hye : y = v
    · subst hye
      rw [hg.new, he] at heq
      exact absurd heq (hne x hx hxe hxv)
    · rw [hg.same x hx hxe] at hxv heq
      rw [hg.same y hy hye] at hyv heq
      exact hu x hx y hy hxv hyv heq

theorem Gains.refsOne (hg : Gains d v t e m m' role role') (hm : Paged m role) (hd : role d = .node d [])
    (he : ptePpn e = t) (hone : m.RefOne d) : m'.RefOne d := by
  intro x hx hxv
  by_cases hxe : x = v
  · subst hxe
    rw [hg.new, he, hg.refOne]
  · rw [hg.same x hx hxe] at hxv ⊢
    rw [hg.ref _ (by rw [hm.mapped hd hx hxv]; simp), hone x hx hxv]

/-- An address space with two areas in neighbouring slots of a region. -/
def leakMem : Mem framePool :=
  { poolMem with
    phys := ⟨[0x80300, 0x80301, 0x80302, 0x80303, 0x80304], [], by decide⟩
    mms := fun _ => ⟨[⟨8, userBase, userBase + pgSize, vmRead ||| vmWrite⟩,
      ⟨9, userBase + ptSize, userBase + ptSize + pgSize, vmRead ||| vmWrite⟩], none, some 0x80201, 2, false, 0⟩ }

theorem leakMem_init : (pageMachine framePool {0x80201} fun f => f < 0x80201 ∨ 0x80305 ≤ f).init leakMem := by
  refine ⟨rfl, fun d hd => ?_, fun f hf => ?_, fun f hf => ?_⟩
  · obtain rfl := Finset.mem_singleton.1 hd
    have hfree : 0x80201 ∉ [0x80300, 0x80301, 0x80302, 0x80303, 0x80304] := by decide
    exact ⟨hfree, by decide, fun i _ => pteValid_zero⟩
  · have hf' : f ∈ [0x80300, 0x80301, 0x80302, 0x80303, 0x80304] := hf
    simp only [List.mem_cons, List.not_mem_nil, or_false] at hf'
    omega
  · unfold npage
    exact ⟨by omega, by omega, id, fun _ => rfl⟩

theorem leakMem_areas : VmaList (leakMem.mms 1).mmapList := ⟨by decide, by decide⟩

/-- The table of the second area stays allocated when both areas have a page. -/
theorem teardown_leaks : ∃ m₁ m₂ m₃ m₄ : Mem framePool,
    (PageOp.pgdirAllocPage 0x80201 userBase (pteU ||| readWrite)).run leakMem = some m₁ ∧
    (PageOp.pgdirAllocPage 0x80201 (userBase + ptSize) (pteU ||| readWrite)).run m₁ = some m₂ ∧
    m₂.exitMmap 1 = some m₃ ∧ m₃.putPgdir 1 = some m₄ ∧ ¬ m₂.GivesBack 0x80201 m₄ := by
  have hrun : (((PageOp.pgdirAllocPage 0x80201 userBase (pteU ||| readWrite)).run leakMem).bind
      fun m₁ : Mem framePool =>
        ((PageOp.pgdirAllocPage 0x80201 (userBase + ptSize) (pteU ||| readWrite)).run m₁).bind
          fun m₂ : Mem framePool => (m₂.exitMmap 1).bind fun m₃ => (m₃.putPgdir 1).bind fun m₄ : Mem framePool =>
            if sv39.walk m₂.frame 0x80201 [0, 2] = some 0x80304 ∧ 0x80304 ∉ m₄.phys.free then some m₄
            else none).isSome := by
    decide +kernel
  obtain ⟨m, hrun⟩ := Option.isSome_iff_exists.1 hrun
  obtain ⟨m₁, h₁, hrun⟩ := Option.bind_eq_some_iff.1 hrun
  obtain ⟨m₂, h₂, hrun⟩ := Option.bind_eq_some_iff.1 hrun
  obtain ⟨m₃, h₃, hrun⟩ := Option.bind_eq_some_iff.1 hrun
  obtain ⟨m₄, h₄, hrun⟩ := Option.bind_eq_some_iff.1 hrun
  split at hrun
  · rename_i hc
    refine ⟨m₁, m₂, m₃, m₄, h₁, h₂, h₃, h₄, ?_⟩
    rintro ⟨l, -, -, -, -, hfree⟩
    exact hc.2 ((hfree 0x80304).2 (.inr ⟨[0, 2], by decide, ⟨by decide, by decide, trivial⟩, hc.1⟩))
  · cases hrun

theorem teardown_complete_iff_leak : ∃ m : Mem framePool,
    (PageOp.pgdirAllocPage 0x80201 userBase (pteU ||| readWrite)).run leakMem = some m ∧
    ((∃ m₁ m', m.exitMmap 1 = some m₁ ∧ m₁.putPgdir 1 = some m' ∧ m.GivesBack 0x80201 m') ↔
      ∀ i < 256, m.RegionClear 0x80201 (m.mms 1).mmapList i) := by
  obtain ⟨role, h⟩ := pageMachine_init leakMem_init
  have hd := (h.root 0x80201).2 (by decide)
  have hzero (v : Nat) (hv : v < userVpn) : leakMem.pteAt 0x80201 v = 0 := pteAt_empty (fun _ _ => pteValid_zero) hv
  have hinvalid (v : Nat) (hv : v < userVpn) : pteValid (leakMem.pteAt 0x80201 v) = false := by
    rw [hzero v hv]
    rfl
  have hrun : (leakMem.pgdirAllocPage 0x80201 userBase (pteU ||| readWrite)).any (·.1.isSome) := by
    decide +kernel
  obtain ⟨⟨r, m⟩, hrun, hr⟩ := (Option.any_eq_true ..).1 hrun
  refine ⟨m, by rw [PageOp.run, hrun, Option.map_some], ?_⟩
  rcases pgdirAllocPage_spec h.toPaged h.plain hd (by decide) (hinvalid _ (by decide)) (by decide) hrun with
    ⟨rfl, -⟩ | ⟨t, role', rfl, hg, -⟩
  · cases hr
  · have hd' := (hg.keeps _ (by rw [hd]; simp)).trans hd
    have het : ptePpn (pteCreate t (pteV ||| (pteU ||| readWrite))) = t :=
      hg.paged.ppn_create (by rw [(hg.leaf t).2 (.inr rfl)]; simp) (by decide)
    have hmms : m.mms = leakMem.mms := hg.vars.mms
    refine teardown_complete_iff hg.paged hd' (by rw [hmms]; rfl) (by rw [hmms]; rfl) ?_
      (hg.unshared h.toPaged hd het fun v hv w _ hval => ?_) (hg.refsOne h.toPaged hd het fun v hv hval => ?_)
      fun v hv hval => ?_
    · rw [hmms]
      exact leakMem_areas
    · rw [hinvalid v hv] at hval
      cases hval
    · rw [hinvalid v hv] at hval
      cases hval
    · by_cases hvb : v = vpn userBase
      · rw [hmms, hvb]
        exact ⟨_, List.mem_cons_self .., by decide⟩
      · rw [hg.same v hv hvb, hinvalid v hv] at hval
        cases hval

end

end UCore
