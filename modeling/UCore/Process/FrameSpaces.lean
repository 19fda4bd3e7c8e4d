import UCore.Process.FrameLoad
import UCore.Process.SpaceUse

namespace UCore
set_option autoImplicit true
open Function (update)

/-- The page directories of the address spaces. -/
def Mem.dirs {A : PhysSys} (m : Mem A) : Finset Nat := (m.spaces.filterMap fun x => (m.mms x).pgdir).toFinset

/-- Each address space has its own page directory, and its own frames. -/
structure SpaceFrames {A : PhysSys} (S : Nat → Prop) (m : Mem A) : Prop where
  use : ∃ role, FrameUse m.dirs S m role
  apart : ∀ x ∈ m.spaces, ∀ y ∈ m.spaces, ∀ d, (m.mms x).pgdir = some d → (m.mms y).pgdir = some d → x = y
  low : ∀ x ∈ m.spaces, (m.mms x).Low

/-- The address space maps what it did, and its pages have the same contents. -/
structure Untouched {A : PhysSys} (x : Nat) (m m' : Mem A) : Prop where
  pgdir : (m'.mms x).pgdir = (m.mms x).pgdir
  spares : ∀ d, (m.mms x).pgdir = some d → Spares {d} m m'

/-- What `copy_mm` and `load_icode` do with the frames when they return `ret` and set `new`. -/
structure NewFrames {A : PhysSys} (dirs : Finset Nat) (S : Nat → Prop) (ret : Int) (new : Option (Nat × Nat))
    (m m' : Mem A) : Prop where
  fail : ret ≠ 0 → ∃ role, FrameUse dirs S m' role
  done : ret = 0 → ∃ mm d role, new = some (mm, d * pgSize) ∧ d ∉ dirs ∧ FrameUse (insert d dirs) S m' role ∧
    (m'.mms mm).pgdir = some d ∧ (m'.mms mm).Low
  spares : Spares dirs m m'

section
variable {A : PhysSys} {m m' m'' m₁ m₂ : Mem A} {role role' : Nat → Role} {dirs : Finset Nat} {S S' : Nat → Prop}
  {procs : Finset Nat}

theorem mem_dirs : d ∈ m.dirs ↔ ∃ x ∈ m.spaces, (m.mms x).pgdir = some d := by
  unfold Mem.dirs
  rw [List.mem_toFinset, List.mem_filterMap]

theorem dirs_congr (hs : m'.spaces = m.spaces) (hm : ∀ x ∈ m.spaces, (m'.mms x).map = (m.mms x).map) :
    m'.dirs = m.dirs := by
  ext d
  rw [mem_dirs, mem_dirs, hs]
  refine exists_congr fun x => and_congr_right fun hx => ?_
  rw [show (m'.mms x).pgdir = (m.mms x).pgdir from congrArg Prod.snd (hm x hx)]

theorem low_congr (h : (m'.mms x).map = (m.mms x).map) (hl : (m.mms x).Low) : (m'.mms x).Low := by
  intro v hv
  rw [show (m'.mms x).mmapList = (m.mms x).mmapList from congrArg Prod.fst h] at hv
  exact hl v hv

theorem SameSpaces.map (h : SameSpaces m m') (x : Nat) : (m'.mms x).map = (m.mms x).map := MmStruct.map_eq (h.fixed x)

namespace Untouched

theorem refl (x : Nat) (m : Mem A) : Untouched x m m := ⟨rfl, fun _ _ => .refl ..⟩

theorem trans (h : Untouched x m m') (h' : Untouched x m' m'') : Untouched x m m'' :=
  ⟨h'.pgdir.trans h.pgdir, fun d hd => (h.spares d hd).trans (h'.spares d (h.pgdir.trans hd))⟩

theorem of_spares (hp : (m'.mms x).pgdir = (m.mms x).pgdir) (hs : Spares kept m m')
    (hk : ∀ d, (m.mms x).pgdir = some d → d ∈ kept) : Untouched x m m' :=
  ⟨hp, fun d hd => hs.mono (Finset.singleton_subset_iff.2 (hk d hd))⟩

end Untouched

namespace NewFrames

/-- The new address space is given up before it has a page directory. -/
theorem failed (h : FrameUse dirs S m' role) (hs : Spares dirs m m') (hr : ret ≠ 0) : NewFrames dirs S ret new m m' :=
  ⟨fun _ => ⟨role, h⟩, fun hz => absurd hz hr, hs⟩

theorem badCleanupMmap (h : FrameUse (insert d dirs) S m₁ role) (hd : d ∉ dirs) (hpg : (m₁.mms mm).pgdir = some d)
    (hs : Spares dirs m m₁) (hc : m₁.badCleanupMmap mm = some m') (hr : ret ≠ 0) : NewFrames dirs S ret new m m' := by
  obtain ⟨role', h', hs'⟩ := h.badCleanupMmap hpg (Finset.mem_insert_self ..) hc
  rw [Finset.erase_insert hd] at h' hs'
  exact failed h' (hs.trans hs') hr

theorem goodMm (h : FrameUse (insert d dirs) S m₁ role) (hd : d ∉ dirs) (hpg : (m₁.mms mm).pgdir = some d)
    (hl : (m₁.mms mm).Low) (hs : Spares dirs m m₁) (hg : m₁.goodMm mm = some (ret, new, m')) :
    NewFrames dirs S ret new m m' := by
  obtain ⟨c, hc, hg⟩ := Option.bind_eq_some_iff.1 hg
  cases hg
  have hmap : ((m₁.mmCountInc mm).mms mm).map = (m₁.mms mm).map :=
    congrArg (fun x => (x.1, x.2.1)) (mmCountInc_self m₁ mm)
  have hpg' : ((m₁.mmCountInc mm).mms mm).pgdir = some d := (congrArg Prod.snd hmap).trans hpg
  obtain rfl := Option.some.inj (hc.symm.trans hpg')
  exact ⟨nofun, fun _ => ⟨mm, c, role, rfl, hd, h.setMm .., hpg', low_congr hmap hl⟩, hs.trans (.of_frame rfl)⟩

end NewFrames

namespace FrameUse

/-- `copy_mm` of an address space that is not shared. -/
theorem copyMm (h : FrameUse dirs S m role) (hk : HeapOk m procs) (hv : fl &&& cloneVm = 0) (hold : old ∈ m.spaces)
    (hpg : ∀ d, (m.mms old).pgdir = some d → d ∈ dirs) (hl : (m.mms old).Low)
    (hc : m.copyMm fl (some old) = some (ret, new, m')) : NewFrames dirs S ret new m m' := by
  rw [Mem.copyMm, if_neg (not_not.2 hv)] at hc
  split at hc
  · rename_i m₁ hm
    cases hc
    obtain ⟨role₁, h₁, hf₁, -⟩ := h.mmCreate hm
    exact .failed h₁ (.of_frame hf₁) (by decide)
  · rename_i mm m₁ hm
    obtain ⟨role₁, h₁, hf₁, hlow₁⟩ := h.mmCreate hm
    obtain ⟨⟨ok, m₂⟩, hs, hc⟩ := Option.bind_eq_some_iff.1 hc
    have hmap₂ := MmStruct.map_eq (((hk.building hm).grows (.setupPgdir hs)).old hold)
    rcases h₁.setupPgdir hs with ⟨rfl, h₂, hf₂⟩ | ⟨d, role₂, rfl, hd, h₂, hs₂, hpg₂, hlist₂⟩
    · obtain ⟨m₃, hdes, hc⟩ := Option.bind_eq_some_iff.1 hc
      cases hc
      obtain ⟨role₃, h₃, hf₃⟩ := h₂.mmDestroy hdes
      exact .failed h₃ (.of_frame ((hf₃.trans hf₂).trans hf₁)) (by decide)
    · have hlow₂ : (m₂.mms mm).Low := by
        unfold MmStruct.Low
        rw [hlist₂]
        exact hlow₁ mm rfl
      have hs₂ : Spares dirs m m₂ := (Spares.of_frame hf₁).trans hs₂
      obtain ⟨⟨r, m₃⟩, hdup, hc⟩ := Option.bind_eq_some_iff.1 hc
      obtain ⟨_, -, hdup'⟩ := Option.bind_eq_some_iff.1 hdup
      obtain ⟨c, hfrom, -⟩ := Option.bind_eq_some_iff.1 hdup'
      have hcd : c ∈ dirs := hpg c ((congrArg Prod.snd hmap₂).symm.trans hfrom)
      obtain ⟨role₃, h₃, hs₃, hdirs₃⟩ := h₂.dupMmap hfrom (Finset.mem_insert_of_mem hcd) hpg₂
        (Finset.mem_insert_self ..) (low_congr hmap₂ hl) hdup
      rw [Finset.erase_insert hd] at hs₃
      have hpg₃ : (m₃.mms mm).pgdir = some d := (hdirs₃.pgdir mm).trans hpg₂
      dsimp only at hc
      split at hc
      · rename_i hne
        obtain ⟨m₄, hbad, hc⟩ := Option.bind_eq_some_iff.1 hc
        cases hc
        exact .badCleanupMmap h₃ hd hpg₃ (hs₂.trans hs₃) hbad hne
      · exact .goodMm h₃ hd hpg₃ (hdirs₃.low mm hlow₂) (hs₂.trans hs₃) hc

/-- `load_icode`, also for program headers that wrap. -/
theorem loadIcode (h : FrameUse dirs S m role) (hl : m.loadIcode none binary = some (ret, ld, m')) :
    NewFrames dirs S ret (ld.map fun l => (l.mm, l.cr3)) m m' := by
  rw [Mem.loadIcode, if_neg (by simp)] at hl
  split at hl
  · rename_i m₁ hm
    cases hl
    obtain ⟨role₁, h₁, hf₁, -⟩ := h.mmCreate hm
    exact .failed h₁ (.of_frame hf₁) (by decide)
  · rename_i mm m₁ hm
    obtain ⟨role₁, h₁, hf₁, hlow₁⟩ := h.mmCreate hm
    obtain ⟨⟨ok, m₂⟩, hs, hl⟩ := Option.bind_eq_some_iff.1 hl
    rcases h₁.setupPgdir hs with ⟨rfl, h₂, hf₂⟩ | ⟨d, role₂, rfl, hd, h₂, hs₂, hpg₂, hlist₂⟩
    · obtain ⟨m₃, hdes, hl⟩ := Option.bind_eq_some_iff.1 hl
      cases hl
      obtain ⟨role₃, h₃, hf₃⟩ := h₂.mmDestroy hdes
      exact .failed h₃ (.of_frame ((hf₃.trans hf₂).trans hf₁)) (by decide)
    · have hlow₂ : (m₂.mms mm).Low := by
        unfold MmStruct.Low
        rw [hlist₂]
        exact hlow₁ mm rfl
      have hs₂ : Spares dirs m m₂ := (Spares.of_frame hf₁).trans hs₂
      have hmem : d ∈ insert d dirs := Finset.mem_insert_self ..
      have herase := Finset.erase_insert hd
      obtain ⟨phoff, -, hl⟩ := Option.bind_eq_some_iff.1 hl
      obtain ⟨magic, -, hl⟩ := Option.bind_eq_some_iff.1 hl
      dsimp only at hl
      split at hl
      · obtain ⟨m₃, hp, hl⟩ := Option.bind_eq_some_iff.1 hl
        obtain ⟨m₄, hdes, hl⟩ := Option.bind_eq_some_iff.1 hl
        cases hl
        obtain ⟨role₃, h₃, hs₃⟩ := h₂.putPgdir hpg₂ hmem hp
        rw [herase] at h₃ hs₃
        obtain ⟨role₄, h₄, hf₄⟩ := h₃.mmDestroy hdes
        exact .failed h₄ ((hs₂.trans hs₃).trans (.of_frame hf₄)) (by decide)
      · obtain ⟨phnum, -, hl⟩ := Option.bind_eq_some_iff.1 hl
        obtain ⟨⟨r, m₃⟩, hseg, hl⟩ := Option.bind_eq_some_iff.1 hl
        obtain ⟨role₃, h₃, hs₃, hdirs₃⟩ := h₂.loadSegments hpg₂ hmem hseg
        rw [herase] at hs₃
        have hs₃ := hs₂.trans hs₃
        have hpg₃ : (m₃.mms mm).pgdir = some d := (hdirs₃.pgdir mm).trans hpg₂
        dsimp only at hl
        split at hl
        · rename_i hne
          obtain ⟨m₄, hbad, hl⟩ := Option.bind_eq_some_iff.1 hl
          cases hl
          exact .badCleanupMmap h₃ hd hpg₃ hs₃ hbad hne
        · obtain ⟨⟨r', m₄⟩, hst, hl⟩ := Option.bind_eq_some_iff.1 hl
          obtain ⟨role₄, h₄, hs₄, hdirs₄⟩ := h₃.loadStack hpg₃ hmem hst
          rw [herase] at hs₄
          have hs₄ := hs₃.trans hs₄
          have hpg₄ : (m₄.mms mm).pgdir = some d := (hdirs₄.pgdir mm).trans hpg₃
          dsimp only at hl
          split at hl
          · rename_i hne
            obtain ⟨m₅, hbad, hl⟩ := Option.bind_eq_some_iff.1 hl
            cases hl
            exact .badCleanupMmap h₄ hd hpg₄ hs₄ hbad hne
          · obtain ⟨c, hc, hl⟩ := Option.bind_eq_some_iff.1 hl
            obtain ⟨epc, -, hl⟩ := Option.bind_eq_some_iff.1 hl
            cases hl
            exact .goodMm h₄ hd hpg₄ (hdirs₄.low mm (hdirs₃.low mm hlow₂)) hs₄ (Option.bind_eq_some_iff.2 ⟨c, hc, rfl⟩)

end FrameUse

/-- The frames are still those of their address spaces, and only the address space `own` has been worked on. -/
structure Inside (S : Nat → Prop) (own : Option Nat) (m m' : Mem A) : Prop where
  frames : SpaceFrames S m'
  others : ∀ y ∈ m.spaces, some y ≠ own → y ∈ m'.spaces ∧ Untouched y m m'

namespace Inside

theorem refl (h : SpaceFrames S m) (own : Option Nat) : Inside S own m m := ⟨h, fun y hy _ => ⟨hy, .refl y m⟩⟩

theorem trans (h : Inside S own m m') (h' : Inside S' own m' m'') : Inside S' own m m'' where
  frames := h'.frames
  others y hy hn := by
    obtain ⟨hy', hu⟩ := h.others y hy hn
    obtain ⟨hy'', hu'⟩ := h'.others y hy' hn
    exact ⟨hy'', hu.trans hu'⟩

theorem widen (h : Inside S none m m') (own : Option Nat) : Inside S own m m' :=
  ⟨h.frames, fun y hy _ => h.others y hy nofun⟩

end Inside

namespace SpaceFrames

theorem next (h : SpaceFrames S m) (hs : m'.spaces = m.spaces) (hm : ∀ x ∈ m.spaces, (m'.mms x).map = (m.mms x).map)
    (hu : ∃ role, FrameUse m.dirs S' m' role) : SpaceFrames S' m' where
  use := by
    rw [dirs_congr hs hm]
    exact hu
  apart x hx y hy d hxd hyd := by
    rw [hs] at hx hy
    rw [show (m'.mms x).pgdir = (m.mms x).pgdir from congrArg Prod.snd (hm x hx)] at hxd
    rw [show (m'.mms y).pgdir = (m.mms y).pgdir from congrArg Prod.snd (hm y hy)] at hyd
    exact h.apart x hx y hy d hxd hyd
  low x hx := by
    rw [hs] at hx
    exact low_congr (hm x hx) (h.low x hx)

/-- An operation on no frame that an address space has. -/
theorem apartFrom (h : SpaceFrames S m) (hs : m'.spaces = m.spaces) (hm : ∀ x ∈ m.spaces, (m'.mms x).map = (m.mms x).map)
    (hu : ∃ role, FrameUse m.dirs S' m' role) (hsp : Spares m.dirs m m') : Inside S' none m m' := by
  refine ⟨h.next hs hm hu, fun y hy _ => ⟨hs ▸ hy, .of_spares (congrArg Prod.snd (hm y hy)) hsp fun d hd => ?_⟩⟩
  exact mem_dirs.2 ⟨y, hy, hd⟩

/-- An operation on the frames of one address space. -/
theorem within (h : SpaceFrames S m) (hs : SameSpaces m m') (hx : x ∈ m.spaces) (hpg : (m.mms x).pgdir = some d)
    (hu : ∃ role, FrameUse m.dirs S m' role ∧ Spares (m.dirs.erase d) m m') : Inside S (some x) m m' := by
  obtain ⟨role, hu, hsp⟩ := hu
  refine ⟨h.next hs.spaces (fun y _ => hs.map y) ⟨role, hu⟩, fun y hy hne => ⟨hs.spaces ▸ hy, ?_⟩⟩
  refine .of_spares (hs.pgdir y) hsp fun c hc => Finset.mem_erase.2 ⟨?_, mem_dirs.2 ⟨y, hy, hc⟩⟩
  rintro rfl
  exact hne (congrArg some (h.apart y hy x hx c hc hpg))

/-- `copy_mm` and `load_icode`: the new address space has the new page directory. -/
theorem created (h : SpaceFrames S m) (hc : Created procs ret new m m') (hn : NewFrames m.dirs S ret new m m') :
    Inside S none m m' := by
  have hmap (x : Nat) (hx : x ∈ m.spaces) : (m'.mms x).map = (m.mms x).map := MmStruct.map_eq (hc.old x hx)
  by_cases hz : ret = 0
  · obtain ⟨mm, d, role, hnew, hd, hu, hpg, hlow⟩ := hn.done hz
    obtain ⟨mm', d', hnew', hmm, hsp, -, hpg'⟩ := hc.done hz
    obtain rfl : mm = mm' := congrArg Prod.fst (Option.some.inj (hnew.symm.trans hnew'))
    have hdirs : m'.dirs = insert d m.dirs := by
      ext c
      rw [mem_dirs, hsp, Finset.mem_insert, mem_dirs]
      simp only [List.mem_cons, exists_eq_or_imp]
      refine or_congr ?_ (exists_congr fun x => and_congr_right fun hx => ?_)
      · rw [hpg, Option.some.injEq, eq_comm]
      · rw [show (m'.mms x).pgdir = (m.mms x).pgdir from congrArg Prod.snd (hmap x hx)]
    have hold (x : Nat) (hx : x ∈ m.spaces) (hxd : (m'.mms x).pgdir = some d) : False := by
      refine hd (mem_dirs.2 ⟨x, hx, ?_⟩)
      rw [← hxd]
      exact (congrArg Prod.snd (hmap x hx)).symm
    refine ⟨⟨⟨role, hdirs ▸ hu⟩, fun x hx y hy c hxc hyc => ?_, fun x hx => ?_⟩, fun y hy _ => ⟨?_, ?_⟩⟩
    · rw [hsp, List.mem_cons] at hx hy
      rcases hx with rfl | hx
      · obtain rfl := Option.some.inj (hpg.symm.trans hxc)
        rcases hy with rfl | hy
        · rfl
        · exact (hold y hy hyc).elim
      · rcases hy with rfl | hy
        · obtain rfl := Option.some.inj (hpg.symm.trans hyc)
          exact (hold x hx hxc).elim
        · rw [show (m'.mms x).pgdir = (m.mms x).pgdir from congrArg Prod.snd (hmap x hx)] at hxc
          rw [show (m'.mms y).pgdir = (m.mms y).pgdir from congrArg Prod.snd (hmap y hy)] at hyc
          exact h.apart x hx y hy c hxc hyc
    · rw [hsp, List.mem_cons] at hx
      rcases hx with rfl | hx
      · exact hlow
      · exact low_congr (hmap x hx) (h.low x hx)
    · rw [hsp]
      exact List.mem_cons_of_mem _ hy
    · exact .of_spares (congrArg Prod.snd (hmap y hy)) hn.spares fun c hc => mem_dirs.2 ⟨y, hy, hc⟩
  · exact h.apartFrom (hc.fail hz).2 hmap (hn.fail hz) hn.spares

/-- The last user of an address space takes its page directory away. -/
theorem dropMm (h : SpaceFrames S m) (hk : HeapOk m procs) (hm : mm ∈ m.spaces) (hd : m.dropMm mm = some m') :
    Inside S (some mm) m m' := by
  obtain ⟨role, hu⟩ := h.use
  have hdec (x : Nat) : ((m.mmCountDec mm).mms x).map = (m.mms x).map := by
    by_cases hx : x = mm
    · rw [hx]
      exact congrArg (fun x => (x.1, x.2.1)) (mmCountDec_self m mm)
    · rw [mmCountDec_other m hx]
  have hu₁ : FrameUse m.dirs S (m.mmCountDec mm) role := hu.setMm ..
  obtain ⟨-, ⟨-, rfl⟩ | ⟨hone, hsp, hfix⟩⟩ := dropMm_cases hk hm hd
  · have hin : Inside S none m (m.mmCountDec mm) := h.apartFrom rfl (fun x _ => hdec x) ⟨role, hu₁⟩ (.of_frame rfl)
    exact hin.widen _
  · have hcount : ((m.mmCountDec mm).mms mm).mmCount = 0 := by
      have hc : ((m.mmCountDec mm).mms mm).mmCount = (m.mms mm).mmCount - 1 :=
        congrArg (fun x => x.2.2) (mmCountDec_self m mm)
      rw [hc, hone]
      rfl
    have hbad : (m.mmCountDec mm).badCleanupMmap mm = some m' := by
      rw [Mem.dropMm, if_pos hcount] at hd
      exact hd
    obtain ⟨d, hpg₁⟩ : ∃ d, ((m.mmCountDec mm).mms mm).pgdir = some d := by
      obtain ⟨m₁, hex, -⟩ := Option.bind_eq_some_iff.1 hbad
      unfold Mem.exitMmap at hex
      rw [if_pos hcount] at hex
      obtain ⟨d, hpg, -⟩ := Option.bind_eq_some_iff.1 hex
      exact ⟨d, hpg⟩
    have hpg : (m.mms mm).pgdir = some d := (congrArg Prod.snd (hdec mm)).symm.trans hpg₁
    obtain ⟨role', hu', hs'⟩ := hu₁.badCleanupMmap hpg₁ (mem_dirs.2 ⟨mm, hm, hpg⟩) hbad
    have hmem (x : Nat) : x ∈ m'.spaces ↔ x ≠ mm ∧ x ∈ m.spaces := by
      rw [hsp]
      exact hk.nodup.mem_erase_iff
    have hmap (x : Nat) (hx : x ≠ mm) : (m'.mms x).map = (m.mms x).map := MmStruct.map_eq (hfix x hx)
    have hpgdir (x : Nat) (hx : x ≠ mm) : (m'.mms x).pgdir = (m.mms x).pgdir := congrArg Prod.snd (hmap x hx)
    have hdirs : m'.dirs = m.dirs.erase d := by
      ext c
      rw [mem_dirs, Finset.mem_erase, mem_dirs]
      constructor
      · rintro ⟨x, hx, hc⟩
        obtain ⟨hne, hx⟩ := (hmem x).1 hx
        rw [hpgdir x hne] at hc
        refine ⟨?_, x, hx, hc⟩
        rintro rfl
        exact hne (h.apart x hx mm hm c hc hpg)
      · rintro ⟨hcd, x, hx, hc⟩
        have hne : x ≠ mm := by
          rintro rfl
          exact hcd (Option.some.inj (hc.symm.trans hpg))
        exact ⟨x, (hmem x).2 ⟨hne, hx⟩, (hpgdir x hne).trans hc⟩
    refine ⟨⟨⟨role', hdirs ▸ hu'⟩, fun x hx y hy c hxc hyc => ?_, fun x hx => ?_⟩, fun y hy hne => ?_⟩
    · obtain ⟨hxm, hx⟩ := (hmem x).1 hx
      obtain ⟨hym, hy⟩ := (hmem y).1 hy
      rw [hpgdir x hxm] at hxc
      rw [hpgdir y hym] at hyc
      exact h.apart x hx y hy c hxc hyc
    · obtain ⟨hxm, hx⟩ := (hmem x).1 hx
      exact low_congr (hmap x hxm) (h.low x hx)
    · have hym : y ≠ mm := fun he => hne (congrArg some he)
      have hs₀ : Spares (m.dirs.erase d) m (m.mmCountDec mm) := .of_frame rfl
      refine ⟨(hmem y).2 ⟨hym, hy⟩, .of_spares (hpgdir y hym) (hs₀.trans hs') fun c hc => ?_⟩
      refine Finset.mem_erase.2 ⟨?_, mem_dirs.2 ⟨y, hy, hc⟩⟩
      rintro rfl
      exact hym (h.apart y hy mm hm c hc hpg)

end SpaceFrames

end

end UCore
