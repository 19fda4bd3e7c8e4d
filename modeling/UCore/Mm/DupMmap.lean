import UCore.Mm.CopyRange
import UCore.Mm.RefRuns

namespace UCore
set_option autoImplicit true
open Function (update)

/-- The areas `l` have been made for the address space `t` in new blocks of the heap. -/
structure NewAreas {A : PhysSys} (t : Nat) (l : List Vma) (m m' : Mem A) : Prop where
  mms : ∃ n, m'.mms = update m.mms t { m.mms t with mmapList := l, mapCount := n }
  spaces : m'.spaces = m.spaces
  fresh : ∀ vma ∈ l, ¬ A.live m.phys vma.ptr
  nodup : (l.map Vma.ptr).Nodup
  live : ∀ p, A.live m'.phys p ↔ A.live m.phys p ∨ p ∈ l.map Vma.ptr

section
variable {A : PhysSys} {m m' m'' : Mem A} {role role' role'' : Nat → Role} {S S' : Nat → Prop}

theorem NewAreas.init (hl : (m.mms t).mmapList = []) : NewAreas t [] m m where
  mms := by
    refine ⟨(m.mms t).mapCount, ?_⟩
    rw [← hl, Function.update_eq_self]
  spaces := rfl
  fresh := nofun
  nodup := .nil
  live p := by simp

theorem NewAreas.list (h : NewAreas t l m m') : (m'.mms t).mmapList = l := by
  obtain ⟨n, hm⟩ := h.mms
  rw [hm, Function.update_self]

theorem NewAreas.congr (h : NewAreas t l m m') (hm : m''.mms = m'.mms) (hs : m''.spaces = m'.spaces)
    (hl : A.live m''.phys = A.live m'.phys) : NewAreas t l m m'' where
  mms := by
    obtain ⟨n, hn⟩ := h.mms
    exact ⟨n, hm.trans hn⟩
  spaces := hs.trans h.spaces
  fresh := h.fresh
  nodup := h.nodup
  live p := by rw [hl, h.live]

/-- One more area. -/
theorem NewAreas.insert (pre : List Vma) (vma : Vma) (h : NewAreas t (pre ++ post) m m')
    (hb : NewBlock m' m'' vma.ptr) (hm : m''.mms = m'.mms) (hs : m''.spaces = m'.spaces) :
    NewAreas t (pre ++ vma :: post) m (m''.setMm t { m''.mms t with
      mmapList := pre ++ vma :: post
      mapCount := (m''.mms t).mapCount + 1 }) where
  mms := by
    obtain ⟨n, hn⟩ := h.mms
    refine ⟨n + 1, ?_⟩
    show update m''.mms t { m''.mms t with mmapList := _, mapCount := _ } = _
    rw [hm, hn, Function.update_idem, Function.update_self]
  spaces := hs.trans h.spaces
  fresh w hw := by
    rcases List.mem_append.1 hw with hw | hw
    · exact h.fresh w (List.mem_append_left _ hw)
    · cases hw with
      | head => exact fun hl => hb.fresh ((h.live _).2 (.inl hl))
      | tail _ hw => exact h.fresh w (List.mem_append_right _ hw)
  nodup := by
    have hn := h.nodup
    have hv : vma.ptr ∉ (pre ++ post).map Vma.ptr := fun hm => hb.fresh ((h.live _).2 (.inr hm))
    rw [List.map_append] at hn hv ⊢
    rw [List.map_cons, List.perm_middle.nodup_iff, List.nodup_cons]
    exact ⟨hv, hn⟩
  live p := by
    show A.live m''.phys p ↔ _
    rw [hb.live, h.live]
    simp only [List.map_append, List.map_cons, List.mem_append, List.mem_cons]
    tauto

theorem covered_cons : Covered (vma :: l) v ↔ Covered l v ∨ vma.Covers (v * pgSize) := by
  simp [Covered, or_comm]

theorem area_of_map_eq {l l' : List Vma} (h : l.map Vma.area = l'.map Vma.area) (hw : w ∈ l) :
    ∃ x ∈ l', x.vmStart = w.vmStart ∧ x.vmEnd = w.vmEnd := by
  have hmem : w.area ∈ l'.map Vma.area := h ▸ List.mem_map_of_mem hw
  obtain ⟨x, hx, hxw⟩ := List.mem_map.1 hmem
  simp only [Vma.area, Prod.mk.injEq] at hxw
  exact ⟨x, hx, hxw.1, hxw.2.1⟩

/-- The loop of `dup_mmap` when the areas `done` have been copied: it copies the others, or it fails with a
copy of some of the last ones. -/
theorem dupVmas_spec (hm : Paged m role) (hp : m.Plain) (hc : role c = .node c []) (hd : role d = .node d [])
    (hcd : c ≠ d) (hl : VmaList (rest.reverse ++ done)) (h : Cloned c d (Covered done) m m' role role')
    (ha : NewAreas t l m m') (hdone : l.map Vma.area = done.map Vma.area)
    (hr : m'.dupVmas t d c rest = some (ret, m'')) :
    ∃ role'' l' S' pre post, Cloned c d S' m m'' role role'' ∧ NewAreas t l' m m'' ∧
      rest.reverse ++ done = pre ++ post ∧ l'.map Vma.area = post.map Vma.area ∧
      (∀ v, S' v → Covered post v) ∧
      (ret = 0 ∧ pre = [] ∧ (∀ v, Covered post v → S' v) ∨ ret = -eNoMem ∧ m.oom < m''.oom) := by
  induction rest generalizing done l m' role' with
  | nil =>
    cases hr
    exact ⟨role', l, _, [], done, h, ha, rfl, hdone, fun _ => id, .inl ⟨rfl, rfl, fun _ => id⟩⟩
  | cons vma rest ih =>
    rw [List.reverse_cons, List.append_assoc, List.singleton_append] at hl ⊢
    cases hv : m'.vmaCreate vma.vmStart vma.vmEnd vma.vmFlags with
    | mk r m₁ =>
      obtain ⟨role₁, htook, hmms, hspaces, hres⟩ := vmaCreate_spec h.paged hv
      have h₁ : Cloned c d (Covered done) m m₁ role role₁ :=
        h.adds (htook.adds d) hd fun v _ => pteAt_of_frame htook.frame d v
      unfold Mem.dupVmas at hr
      rw [hv] at hr
      rcases hres with ⟨rfl, hoom, hlive⟩ | ⟨ptr, rfl, hblock, hoom⟩
      · cases hr
        refine ⟨role₁, l, _, rest.reverse ++ [vma], done, h₁, ha.congr hmms hspaces hlive, by simp, hdone,
          fun _ => id, .inr ⟨rfl, Nat.lt_of_le_of_lt h.oom hoom⟩⟩
      · have hpart := hl.of_append_right
        have hpos := hpart.pos (List.mem_cons_self ..)
        have hfront (w : Vma) (hw : w ∈ (m₁.mms t).mmapList) :
            vma.vmEnd ≤ w.vmStart ∧ w.vmStart < w.vmEnd := by
          rw [hmms, ha.list] at hw
          obtain ⟨x, hx, hs, he⟩ := area_of_map_eq hdone hw
          have hxp := hpart.pos (List.mem_cons_of_mem _ hx)
          have hxv := (List.pairwise_cons.1 hpart.sorted).1 x hx
          omega
        have hins : m₁.insertVmaStruct t ⟨ptr, vma.vmStart, vma.vmEnd, vma.vmFlags⟩ = _ :=
          insertVmaStruct_front hpos hfront
        have hlist : (m₁.mms t).mmapList = l := by rw [hmms, ha.list]
        rw [hlist] at hins
        simp only [hins, Option.bind_eq_bind, Option.bind_some] at hr
        obtain ⟨⟨ok, m₂⟩, hcopy, hr⟩ := Option.bind_eq_some_iff.1 hr
        have ha₁ := NewAreas.insert [] ⟨ptr, vma.vmStart, vma.vmEnd, vma.vmFlags⟩ ha hblock hmms hspaces
        have hset := h₁.paged.setMm t { m₁.mms t with
          mmapList := ⟨ptr, vma.vmStart, vma.vmEnd, vma.vmFlags⟩ :: l
          mapCount := (m₁.mms t).mapCount + 1 }
        have h₂ := h₁.adds (hset.adds d) hd fun v _ => pteAt_of_frame hset.frame d v
        have hfresh (v : Nat) (hcov : Covered done v) :
            ¬ (vma.vmStart ≤ v * pgSize ∧ v * pgSize < vma.vmEnd) := by
          rintro ⟨-, hlt⟩
          obtain ⟨x, hx, hxs, -⟩ := hcov
          have hxv := (List.pairwise_cons.1 hpart.sorted).1 x hx
          omega
        obtain ⟨role₂, S', hvars, h₃, hsub, hok⟩ := h₂.range hm hp hc hd hcd hfresh hcopy
        have ha₂ := ha₁.congr hvars.mms hvars.spaces hvars.live
        have hcov (v : Nat) (hs : S' v) : Covered (vma :: done) v := covered_cons.2 (hsub v hs)
        cases ok with
        | false =>
          cases hr
          refine ⟨role₂, _, S', rest.reverse, vma :: done, h₃, ha₂, rfl, ?_, hcov, .inr ⟨rfl, ?_⟩⟩
          · rw [List.nil_append, List.map_cons, List.map_cons, hdone]
            rfl
          · exact Nat.lt_of_le_of_lt h₂.oom hok
        | true =>
          refine ih hl (h₃.congr fun v _ => ⟨hcov v, fun hc => hok v (covered_cons.1 hc)⟩) ha₂ ?_ hr
          rw [List.nil_append, List.map_cons, List.map_cons, hdone]
          rfl

/-- What `dup_mmap` has done when it returns 0: `to` has the areas of `from` and copies of their pages in new
frames, and nothing else has changed. -/
structure Duplicated {A : PhysSys} (toMm fromMm d c : Nat) (m m' : Mem A) (role : Nat → Role) : Prop where
  areas : (m'.mms toMm).mmapList.map Vma.area = (m.mms fromMm).mmapList.map Vma.area
  mapped : ∀ v, Covered (m.mms fromMm).mmapList v → (pteValid (m'.pteAt d v) ↔ pteValid (m.pteAt c v))
  copied : ∀ v, Covered (m.mms fromMm).mmapList v → pteValid (m.pteAt c v) →
    ptePerm (m'.pteAt d v) = ptePerm (m.pteAt c v) ∧
      m'.frame (ptePpn (m'.pteAt d v)) = m.frame (ptePpn (m.pteAt c v))
  new : ∀ v < userVpn, pteValid (m'.pteAt d v) → A.free m.phys (ptePpn (m'.pteAt d v)) ∧
    ¬ A.free m'.phys (ptePpn (m'.pteAt d v)) ∧ m'.ref (ptePpn (m'.pteAt d v)) = 1
  once : ∀ v < userVpn, pteValid (m'.pteAt d v) → ∀ x, role x = .node x [] → ∀ w < userVpn,
    pteValid (m'.pteAt x w) → ptePpn (m'.pteAt x w) = ptePpn (m'.pteAt d v) → x = d ∧ w = v
  rest : ∀ v < userVpn, ¬ Covered (m.mms fromMm).mmapList v → pteValid (m'.pteAt d v) = false
  source : m'.mms fromMm = m.mms fromMm
  mapping : ∀ v < userVpn, m'.pteAt c v = m.pteAt c v
  contents : ∀ f, role f ≠ .free → (∀ p, role f ≠ .node d p) → m'.frame f = m.frame f ∧ m'.ref f = m.ref f

theorem Covered.lt (hl : VmaList l) (h : Covered l v) : v < userVpn := by
  obtain ⟨vma, hv, -, hlt⟩ := h
  have htop := (hl.page vma hv).2.2.2.2
  unfold userTop at htop
  unfold userVpn
  unfold pgSize at hlt
  omega

theorem NewAreas.other (h : NewAreas t l m m') (hs : s ≠ t) : m'.mms s = m.mms s := by
  obtain ⟨n, hn⟩ := h.mms
  rw [hn, Function.update_of_ne hs]

/-- `dup_mmap` that returns 0 copies the memory exactly. -/
theorem dupMmap_exact (hm : Paged m role) (hp : m.Plain) (hfrom : (m.mms fromMm).pgdir = some c)
    (hto : (m.mms toMm).pgdir = some d) (hc : role c = .node c []) (hd : role d = .node d []) (hcd : c ≠ d)
    (hl : VmaList (m.mms fromMm).mmapList) (he : (m.mms toMm).mmapList = [])
    (hz : ∀ v < userVpn, m.pteAt d v = 0) (hr : m.dupMmap toMm fromMm = some (0, m')) :
    Duplicated toMm fromMm d c m m' role := by
  unfold Mem.dupMmap at hr
  rw [hfrom, hto] at hr
  simp only [Option.bind_eq_bind, Option.bind_some] at hr
  have hlist : (m.mms fromMm).mmapList.reverse.reverse ++ [] = (m.mms fromMm).mmapList := by simp
  have hinit : Cloned c d (Covered []) m m role role := (Cloned.init hm hz).congr fun v _ => by simp [Covered]
  obtain ⟨role', l, S, pre, post, h, ha, heq, harea, hsub, hres⟩ :=
    dupVmas_spec hm hp hc hd hcd (by rwa [hlist]) hinit (.init he) rfl hr
  rcases hres with ⟨-, rfl, hsup⟩ | ⟨hret, -⟩
  · rw [hlist, List.nil_append] at heq
    subst heq
    have hd' := (h.keeps d (by rw [hd]; simp)).trans hd
    refine ⟨?_, fun v hv => ⟨fun hn => (h.valid (hv.lt hl) hn).2, fun hn => ?_⟩, fun v hv hn => ?_,
      fun v hv hn => ?_, fun v hv hn x hx w hw hxn heq => ?_, fun v hv hn => ?_, ?_, fun v hv => ?_,
      fun f hf hfd => ⟨h.frame f hf hfd, h.ref f hf⟩⟩
    · rw [ha.list, harea]
    · exact (h.copied v (hv.lt hl) (hsup v hv) hn).1
    · exact (h.copied v (hv.lt hl) (hsup v hv) hn).2
    · obtain ⟨hfree, hone⟩ := h.new v hv hn
      refine ⟨(hm.free _).1 hfree, fun hf => ?_, hone⟩
      rw [← h.paged.free, h.paged.mapped hd' hv hn] at hf
      cases hf
    · by_cases hxd : x = d
      · subst hxd
        exact ⟨rfl, h.inj w hw v hv hxn hn heq⟩
      · have hother := h.toAdds.other hm hx hxd hw
        rw [hother] at hxn heq
        have hleaf := hm.mapped hx hw hxn
        rw [heq, (h.new v hv hn).1] at hleaf
        cases hleaf
    · rw [h.rest v hv fun hc => hn (hsub v hc.1)]
      rfl
    · apply ha.other
      rintro rfl
      rw [hfrom] at hto
      exact hcd (Option.some.inj hto)
    · exact h.toAdds.other hm hc hcd hv
  · cases hret

/-- Two address spaces, one of them with an area. -/
def forkMem : Mem framePool :=
  { poolMem with
    phys := ⟨[0x80300, 0x80301, 0x80302, 0x80303, 0x80304, 0x80305], [], by decide⟩
    mms := fun mm =>
      if mm = 1 then ⟨[⟨9, userBase, userBase + 2 * pgSize, vmRead ||| vmWrite⟩], none, some 0x80201, 1, false, 1⟩
      else ⟨[], none, some 0x80202, 0, false, 0⟩ }

theorem forkMem_init :
    (pageMachine framePool {0x80201, 0x80202} fun f => f < 0x80201 ∨ 0x80306 ≤ f).init forkMem := by
  refine ⟨rfl, fun d hd => ?_, fun f hf => ?_, fun f hf => ?_⟩
  · have hd' : d = 0x80201 ∨ d = 0x80202 := by simpa using hd
    have hfree : d ∉ [0x80300, 0x80301, 0x80302, 0x80303, 0x80304, 0x80305] := by
      rcases hd' with rfl | rfl <;> decide
    exact ⟨hfree, by omega, fun i _ => pteValid_zero⟩
  · have hf' : f ∈ [0x80300, 0x80301, 0x80302, 0x80303, 0x80304, 0x80305] := hf
    simp only [List.mem_cons, List.not_mem_nil, or_false] at hf'
    omega
  · unfold npage
    exact ⟨by omega, by omega, id, fun _ => rfl⟩

theorem dupMmap_exact_pool : ∃ m m' role, m.dupMmap 2 1 = some (0, m') ∧
    Duplicated (A := framePool) 2 1 0x80202 0x80201 m m' role := by
  have hrun : (((PageOp.pgdirAllocPage 0x80201 userBase (pteU ||| readWrite)).run forkMem).bind fun m : Mem framePool =>
      if m.mms 1 = forkMem.mms 1 ∧ m.mms 2 = forkMem.mms 2 ∧
        ∀ i : Nat, i < 256 → pteValid (m.frame 0x80202 i) = false then m.dupMmap 2 1 else none).any (·.1 = 0) := by
    decide +kernel
  obtain ⟨⟨ret, m'⟩, hrun, hret⟩ := (Option.any_eq_true ..).1 hrun
  obtain rfl : ret = 0 := of_decide_eq_true hret
  obtain ⟨m, hm, hrun⟩ := Option.bind_eq_some_iff.1 hrun
  split at hrun
  · rename_i hc
    obtain ⟨h₁, h₂, hz⟩ := hc
    have hr : (pageMachine framePool {0x80201, 0x80202} fun f => f < 0x80201 ∨ 0x80306 ≤ f).Reachable m :=
      .step (a := PageOp.pgdirAllocPage 0x80201 userBase (pteU ||| readWrite)) (.init forkMem_init)
        ⟨by decide, by decide, by decide⟩ hm
    obtain ⟨role, hcount⟩ := pageMachine_counted hr
    have hlist : VmaList (m.mms 1).mmapList := by
      rw [h₁]
      exact ⟨by decide, by decide⟩
    refine ⟨m, m', role, hrun, dupMmap_exact hcount.toPaged (.inl hcount.off) ?_ ?_
      ((hcount.root _).2 (by decide)) ((hcount.root _).2 (by decide)) (by decide) hlist ?_
      (fun v hv => pteAt_empty hz hv) hrun⟩
    · rw [h₁]
      rfl
    · rw [h₂]
      rfl
    · rw [h₂]
      rfl
  · cases hrun

end

end UCore
