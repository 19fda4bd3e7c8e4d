import UCore.Process.CopyMm
import UCore.Process.SegLoops

namespace UCore
set_option autoImplicit true

section
variable {A : PhysSys} {m m' : Mem A} {procs : Finset Nat}

namespace SameSpaces

theorem writePage (h : m.writePage page off size src = some m') : SameSpaces m m' := by
  unfold Mem.writePage at h
  split at h
  · cases h
    exact (SameVars.setFrame ..).sameSpaces
  · cases h

theorem memcpyPage (h : m.memcpyPage page off src size = some m') : SameSpaces m m' := by
  unfold Mem.memcpyPage at h
  split at h
  · exact writePage h
  · cases h

theorem zeroLoop (h : (Mem.segEnv d perm).zeroLoop stop m start la fuel = some (b, m')) : SameSpaces m m' := by
  have hl := zeroLoop_inv (fun _ _ s => SameSpaces m s) (SameSpaces m) ?_ ?_ (.refl m) h
  · cases b with
    | false => exact hl
    | true =>
      obtain ⟨-, -, -, hl⟩ := hl
      exact hl
  · exact fun s start la t hs _ ha => hs.trans (pgdirAllocPage ha)
  · intro s start la p t u hs _ ha hw
    generalize segChunk start la stop = c at hw
    exact (hs.trans (pgdirAllocPage ha)).trans (writePage hw)

theorem bssPart (h : (Mem.segEnv d perm).bssPart stop m page start la = some (b, m')) : SameSpaces m m' := by
  rcases bssPart_cases h with ⟨-, -, -, rfl⟩ | ⟨-, -, p, s₁, s₂, off, size, -, -, hw, ha, hz⟩ | ⟨-, hz⟩
  · exact .refl _
  · have hs : s₁ = s₂ := by
      dsimp only [Mem.segEnv] at ha
      split at ha
      · exact Option.some.inj ha
      · cases ha
    rw [← hs] at hz
    exact (writePage hw).trans (zeroLoop hz)
  · exact zeroLoop hz

theorem loadSegment (h : (Mem.segEnv d perm).loadSegment m binary ph = some (b, m')) : SameSpaces m m' := by
  obtain ⟨r, m₁, hc, hr⟩ := loadSegment_cases h
  have hl := copyLoop_inv (fun _ _ _ _ s => SameSpaces m s) (SameSpaces m) ?_ ?_ (.refl m) hc
  · rcases hr with ⟨hno, -, rfl⟩ | ⟨page, start, la, rfl, hb⟩
    · exact hl.1 hno
    · obtain ⟨-, -, hl⟩ := hl.2 page start la rfl
      exact hl.trans (bssPart hb)
  · exact fun s page start la src t hs _ ha => hs.trans (pgdirAllocPage ha)
  · intro s page start la src p t u hs _ ha hw
    generalize segChunk start la (addW ph.pVa.toNat ph.pFilesz.toNat) = c at hw
    exact (hs.trans (pgdirAllocPage ha)).trans (memcpyPage hw)

theorem stackPage (h : m.stackPage d la = some m') : SameSpaces m m' := by
  obtain ⟨⟨p, m₁⟩, ha, h⟩ := Option.bind_eq_some_iff.1 h
  cases p with
  | none => cases h
  | some p =>
    cases h
    exact pgdirAllocPage ha

end SameSpaces

namespace MmGrows

theorem loadSegments (h : m.loadSegments mm binary phEnd ph fuel = some (ret, m')) : MmGrows mm m m' := by
  induction fuel generalizing m ph with
  | zero => cases h
  | succ fuel ih =>
    rw [Mem.loadSegments] at h
    split at h
    · obtain ⟨hdr, -, h⟩ := Option.bind_eq_some_iff.1 h
      split at h
      · exact ih h
      · split at h
        · cases h
          exact .refl ..
        · obtain ⟨⟨r, m₁⟩, hmap, h⟩ := Option.bind_eq_some_iff.1 h
          refine (mmMap hmap).trans ?_
          dsimp only at h
          split at h
          · cases h
            exact .refl ..
          · obtain ⟨d, -, h⟩ := Option.bind_eq_some_iff.1 h
            obtain ⟨⟨ok, m₂⟩, hs, h⟩ := Option.bind_eq_some_iff.1 h
            refine ((SameSpaces.loadSegment hs).grows mm).trans ?_
            cases ok with
            | false =>
              cases h
              exact .refl ..
            | true => exact ih h
    · cases h
      exact .refl ..

theorem loadStack (h : m.loadStack mm = some (ret, m')) : MmGrows mm m m' := by
  obtain ⟨⟨r, m₁⟩, hmap, h⟩ := Option.bind_eq_some_iff.1 h
  refine (mmMap hmap).trans ?_
  dsimp only at h
  split at h
  · cases h
    exact .refl ..
  · obtain ⟨d, -, h⟩ := Option.bind_eq_some_iff.1 h
    obtain ⟨m₂, h₂, h⟩ := Option.bind_eq_some_iff.1 h
    obtain ⟨m₃, h₃, h⟩ := Option.bind_eq_some_iff.1 h
    obtain ⟨m₄, h₄, h⟩ := Option.bind_eq_some_iff.1 h
    obtain ⟨m₅, h₅, h⟩ := Option.bind_eq_some_iff.1 h
    cases h
    have hs := ((SameSpaces.stackPage h₂).trans (.stackPage h₃)).trans ((SameSpaces.stackPage h₄).trans (.stackPage h₅))
    exact hs.grows mm

end MmGrows

/-- `load_icode` makes a new address space, with one user if it succeeds. -/
theorem loadIcode_created (h : HeapOk m procs) (hl : m.loadIcode none binary = some (ret, ld, m')) :
    Created procs ret (ld.map fun l => (l.mm, l.cr3)) m m' := by
  rw [Mem.loadIcode, if_neg (by simp)] at hl
  split at hl
  · rename_i m₁ hm
    cases hl
    exact .failed h (HeapOk.mmCreate_none hm) (by decide)
  · rename_i mm m₁ hm
    have hb := h.building hm
    obtain ⟨⟨ok, m₂⟩, hs, hl⟩ := Option.bind_eq_some_iff.1 hl
    have hb := hb.grows (.setupPgdir hs)
    cases ok with
    | false =>
      obtain ⟨m₃, hd, hl⟩ := Option.bind_eq_some_iff.1 hl
      cases hl
      exact hb.mmDestroy hd (by decide)
    | true =>
      obtain ⟨phoff, -, hl⟩ := Option.bind_eq_some_iff.1 hl
      obtain ⟨magic, -, hl⟩ := Option.bind_eq_some_iff.1 hl
      dsimp only at hl
      split at hl
      · obtain ⟨m₃, hp, hl⟩ := Option.bind_eq_some_iff.1 hl
        obtain ⟨m₄, hd, hl⟩ := Option.bind_eq_some_iff.1 hl
        cases hl
        exact (hb.grows ((SameSpaces.putPgdir hp).grows mm)).mmDestroy hd (by decide)
      · obtain ⟨phnum, -, hl⟩ := Option.bind_eq_some_iff.1 hl
        obtain ⟨⟨r, m₃⟩, hseg, hl⟩ := Option.bind_eq_some_iff.1 hl
        have hb := hb.grows (.loadSegments hseg)
        dsimp only at hl
        split at hl
        · rename_i hne
          obtain ⟨m₄, hd, hl⟩ := Option.bind_eq_some_iff.1 hl
          cases hl
          exact hb.badCleanupMmap hd hne
        · obtain ⟨⟨r', m₄⟩, hst, hl⟩ := Option.bind_eq_some_iff.1 hl
          have hb := hb.grows (.loadStack hst)
          dsimp only at hl
          split at hl
          · rename_i hne
            obtain ⟨m₅, hd, hl⟩ := Option.bind_eq_some_iff.1 hl
            cases hl
            exact hb.badCleanupMmap hd hne
          · obtain ⟨d, hd, hl⟩ := Option.bind_eq_some_iff.1 hl
            obtain ⟨epc, -, hl⟩ := Option.bind_eq_some_iff.1 hl
            cases hl
            exact hb.goodMm (Option.bind_eq_some_iff.2 ⟨d, hd, rfl⟩)

end

end UCore
