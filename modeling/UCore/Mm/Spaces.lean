import UCore.Mm.SwapFault
import UCore.Mm.VmaCache

namespace UCore
set_option autoImplicit true
open Function (update)

/-- What an `mm_struct` says apart from what faults and lookups change. -/
def MmStruct.fixed (x : MmStruct) : List Vma × Option Nat × Int := (x.mmapList, x.pgdir, x.mmCount)

/-- The two memories have the same `mm_struct`s, and the same blocks of the heap in use. -/
structure SameSpaces {A : PhysSys} (m m' : Mem A) : Prop where
  fixed : ∀ mm, (m'.mms mm).fixed = (m.mms mm).fixed
  spaces : m'.spaces = m.spaces
  live : A.live m'.phys = A.live m.phys
  tidy : ∀ mm, VmaTidy (m.mms mm) → VmaTidy (m'.mms mm)

section
variable {A : PhysSys} {m m' m'' : Mem A}

theorem SameSpaces.refl (m : Mem A) : SameSpaces m m := ⟨fun _ => rfl, rfl, rfl, fun _ h => h⟩

theorem SameSpaces.trans (h : SameSpaces m m') (h' : SameSpaces m' m'') : SameSpaces m m'' where
  fixed mm := (h'.fixed mm).trans (h.fixed mm)
  spaces := h'.spaces.trans h.spaces
  live := h'.live.trans h.live
  tidy mm ht := h'.tidy mm (h.tidy mm ht)

theorem SameVars.sameSpaces (h : SameVars m m') : SameSpaces m m' := by
  refine ⟨fun mm => ?_, h.spaces, h.live, fun mm ht => ?_⟩
  · rw [h.mms]
  · rwa [h.mms]

namespace SameSpaces

theorem mmapList (h : SameSpaces m m') (mm : Nat) : (m'.mms mm).mmapList = (m.mms mm).mmapList :=
  congrArg Prod.fst (h.fixed mm)

theorem pgdir (h : SameSpaces m m') (mm : Nat) : (m'.mms mm).pgdir = (m.mms mm).pgdir :=
  congrArg (fun x => x.2.1) (h.fixed mm)

theorem mmCount (h : SameSpaces m m') (mm : Nat) : (m'.mms mm).mmCount = (m.mms mm).mmCount :=
  congrArg (fun x => x.2.2) (h.fixed mm)

theorem findVma (h : m.findVma mm addr = (r, m')) : SameSpaces m m' := by
  cases mm with
  | none =>
    cases h
    exact .refl _
  | some mm =>
    have htidy (ht : VmaTidy (m.mms mm)) : VmaTidy (m'.mms mm) := by
      have hf := ht.findVma addr
      rwa [h] at hf
    rcases findVma_cases h with rfl | ⟨c, rfl⟩
    · exact .refl _
    · refine ⟨fun x => ?_, rfl, rfl, fun x ht => ?_⟩
      · by_cases hx : x = mm
        · rw [hx, setMm_self]
          rfl
        · exact congrArg MmStruct.fixed (Function.update_of_ne hx ..)
      · by_cases hx : x = mm
        · rw [hx] at ht ⊢
          exact htidy ht
        · rwa [show (m.setMm mm _).mms x = m.mms x from Function.update_of_ne hx ..]

theorem swapOut (h : m.swapOut mm = some m') : SameSpaces m m' := by
  obtain ⟨mm, rfl, h⟩ := Option.bind_eq_some_iff.1 h
  obtain ⟨⟨page, m₁⟩, hv, h⟩ := Option.bind_eq_some_iff.1 h
  obtain ⟨d, -, h⟩ := Option.bind_eq_some_iff.1 h
  obtain ⟨r, -, h⟩ := Option.bind_eq_some_iff.1 h
  obtain ⟨⟨pt, i⟩, -, h⟩ := Option.bind_eq_some_iff.1 h
  have hvic : SameSpaces m m₁ := by
    unfold Mem.swapOutVictim at hv
    split at hv
    · split at hv
      · cases hv
      · cases hv
        exact ⟨fun _ => rfl, rfl, rfl, fun _ ht => ht⟩
    · cases hv
  dsimp only at h
  split at h
  · obtain ⟨m₂, hw, h⟩ := Option.bind_eq_some_iff.1 h
    cases h
    obtain ⟨o, -, hw⟩ := Option.bind_eq_some_iff.1 hw
    cases hw
    exact hvic.trans ⟨fun _ => rfl, rfl, A.freePages_live, fun _ ht => ht⟩
  · cases h

theorem allocPagesLoop (h : m.allocPagesLoop n fuel = some (r, m')) : SameSpaces m m' := by
  induction fuel generalizing m with
  | zero => cases h
  | succ fuel ih =>
    rw [Mem.allocPagesLoop] at h
    cases ha : A.allocPages m.phys n with
    | mk x s =>
      have hs : SameSpaces m (m.setPhys s) := (SameVars.alloc ha).sameSpaces
      rw [ha] at h
      cases x with
      | some p =>
        cases h
        exact hs
      | none =>
        dsimp only at h
        split at h
        · cases h
          exact hs.trans (SameVars.fail _).sameSpaces
        · obtain ⟨m₁, hw, h⟩ := Option.bind_eq_some_iff.1 h
          exact (hs.trans (swapOut hw)).trans (ih h)

theorem allocPages (h : m.allocPages n = some (r, m')) : SameSpaces m m' := allocPagesLoop h

theorem nextTable (h : m.nextTable f i c = some (r, m')) : SameSpaces m m' := by
  unfold Mem.nextTable at h
  split at h
  · obtain ⟨t, -, h⟩ := Option.map_eq_some_iff.1 h
    cases h
    exact .refl _
  · split at h
    · obtain ⟨⟨x, m₁⟩, ha, h⟩ := Option.bind_eq_some_iff.1 h
      cases x with
      | none =>
        cases h
        exact allocPages ha
      | some page =>
        obtain ⟨t, -, h⟩ := Option.bind_eq_some_iff.1 h
        obtain ⟨t', -, h⟩ := Option.map_eq_some_iff.1 h
        cases h
        exact (allocPages ha).trans ⟨fun _ => rfl, rfl, rfl, fun _ ht => ht⟩
    · cases h
      exact .refl _

theorem getPte (h : m.getPte d la c = some (r, m')) : SameSpaces m m' := by
  obtain ⟨⟨x, m₁⟩, h₁, h⟩ := Option.bind_eq_some_iff.1 h
  cases x with
  | none =>
    cases h
    exact nextTable h₁
  | some pd0 =>
    obtain ⟨⟨y, m₂⟩, h₂, h⟩ := Option.bind_eq_some_iff.1 h
    cases y with
    | none =>
      cases h
      exact (nextTable h₁).trans (nextTable h₂)
    | some pt =>
      cases h
      exact (nextTable h₁).trans (nextTable h₂)

theorem pageRemovePte (h : m.pageRemovePte pt i = some m') : SameSpaces m m' :=
  (SameVars.pageRemovePte h).sameSpaces

theorem pageInsert (h : m.pageInsert d p la perm = some (r, m')) : SameSpaces m m' := by
  obtain ⟨⟨x, m₁⟩, hg, h⟩ := Option.bind_eq_some_iff.1 h
  cases x with
  | none =>
    cases h
    exact getPte hg
  | some slot =>
    obtain ⟨m₂, hm, h⟩ := Option.bind_eq_some_iff.1 h
    cases h
    refine (getPte hg).trans (.trans ?_ (SameVars.setEntry ..).sameSpaces)
    split at hm
    · obtain ⟨q, -, hm⟩ := Option.bind_eq_some_iff.1 hm
      split at hm
      · cases hm
        exact ⟨fun _ => rfl, rfl, rfl, fun _ ht => ht⟩
      · exact (SameVars.setRef ..).sameSpaces.trans (pageRemovePte hm)
    · cases hm
      exact (SameVars.setRef ..).sameSpaces

theorem swapMapSwappable (h : m.swapMapSwappable mm page = some m') : SameSpaces m m' := by
  unfold Mem.swapMapSwappable at h
  split at h
  · cases h
    exact ⟨fun _ => rfl, rfl, rfl, fun _ ht => ht⟩
  · cases h

theorem pgdirAllocPage (h : m.pgdirAllocPage d la perm = some (r, m')) : SameSpaces m m' := by
  obtain ⟨⟨x, m₁⟩, ha, h⟩ := Option.bind_eq_some_iff.1 h
  cases x with
  | none =>
    cases h
    exact allocPages ha
  | some page =>
    obtain ⟨⟨ok, m₂⟩, hi, h⟩ := Option.bind_eq_some_iff.1 h
    have h₂ := (allocPages ha).trans (pageInsert hi)
    cases ok with
    | false =>
      cases h
      exact h₂.trans (SameVars.freePage ..).sameSpaces
    | true =>
      dsimp only at h
      split at h
      · split at h
        · obtain ⟨m₃, hs, h⟩ := Option.bind_eq_some_iff.1 h
          split at h
          · cases h
            exact (h₂.trans (swapMapSwappable hs)).trans ⟨fun _ => rfl, rfl, rfl, fun _ ht => ht⟩
          · cases h
        · cases h
          exact h₂
      · cases h
        exact h₂

theorem rangeLoop {body : Mem A → Nat → Nat → Nat → Option (Bool × Mem A)}
    (hb : ∀ {m m' : Mem A} {a pt i go}, body m a pt i = some (go, m') → SameSpaces m m')
    (h : Mem.rangeLoop body d stop m start = some (go, m')) : SameSpaces m m' := by
  refine strideLoop_inv (SameSpaces m) (fun s a r s' hs hl => ?_) (fun s a slot go s' hs hs' => ?_) (.refl m) h
  · exact hs.trans (getPte hl)
  · exact hs.trans (hb hs')

theorem unmapRange (h : m.unmapRange d start stop = some m') : SameSpaces m m' := by
  obtain ⟨-, -, -, h⟩ := onRange_eq_some h
  obtain ⟨⟨go, m₁⟩, hr, rfl⟩ := Option.map_eq_some_iff.1 h
  refine rangeLoop (fun {m m' a pt i go} hb => ?_) hr
  obtain ⟨m₁, hr, he⟩ := Option.map_eq_some_iff.1 hb
  cases he
  split at hr
  · exact pageRemovePte hr
  · cases hr
    exact .refl _

theorem copyPage (h : Mem.copyPage toDir m start pt i = some (go, m')) : SameSpaces m m' := by
  unfold Mem.copyPage at h
  split at h
  · obtain ⟨⟨r, m₁⟩, hg, h⟩ := Option.bind_eq_some_iff.1 h
    cases r with
    | none =>
      cases h
      exact getPte hg
    | some slot =>
      dsimp only at h
      split at h
      · obtain ⟨page, -, h⟩ := Option.bind_eq_some_iff.1 h
        obtain ⟨⟨x, m₂⟩, ha, h⟩ := Option.bind_eq_some_iff.1 h
        cases x with
        | none => cases h
        | some newPage =>
          obtain ⟨src, -, h⟩ := Option.bind_eq_some_iff.1 h
          obtain ⟨dst, -, h⟩ := Option.bind_eq_some_iff.1 h
          obtain ⟨⟨ok, m₃⟩, hi, h⟩ := Option.bind_eq_some_iff.1 h
          cases ok with
          | false => cases h
          | true =>
            cases h
            have hset : SameSpaces m₂ (m₂.setFrame dst (m₂.frame src)) := (SameVars.setFrame ..).sameSpaces
            exact (((getPte hg).trans (allocPages ha)).trans hset).trans (pageInsert hi)
      · cases h
  · cases h
    exact .refl _

theorem copyRange (h : m.copyRange toDir fromDir start stop = some (ok, m')) : SameSpaces m m' := by
  obtain ⟨-, -, -, h⟩ := onRange_eq_some h
  exact rangeLoop copyPage h

theorem exitSlots (h : m.exitSlots g d1start stop a fl fuel = some (fl', m')) : SameSpaces m m' := by
  induction fuel generalizing m a fl with
  | zero => cases h
  | succ fuel ih =>
    obtain ⟨⟨fl₁, m₁⟩, hb, h⟩ := Option.bind_eq_some_iff.1 h
    have h₁ : SameSpaces m m₁ := by
      split at hb
      · obtain ⟨pt, -, hb⟩ := Option.bind_eq_some_iff.1 hb
        split at hb
        · cases hb
          exact ((SameVars.freePage ..).trans (.setEntry ..)).sameSpaces
        · cases hb
          exact .refl _
      · cases hb
        exact .refl _
    dsimp only at h
    split at h
    · exact h₁.trans (ih h)
    · cases h
      exact h₁

theorem exitLoop (h : m.exitLoop d stop d1start d0start fuel = some m') : SameSpaces m m' := by
  induction fuel generalizing m d1start d0start with
  | zero => cases h
  | succ fuel ih =>
    obtain ⟨m₁, hb, h⟩ := Option.bind_eq_some_iff.1 h
    have h₁ : SameSpaces m m₁ := by
      split at hb
      · obtain ⟨g, -, hb⟩ := Option.bind_eq_some_iff.1 hb
        obtain ⟨⟨fl, m₂⟩, hs, hb⟩ := Option.bind_eq_some_iff.1 hb
        dsimp only at hb
        split at hb
        · cases hb
          exact (exitSlots hs).trans ((SameVars.freePage ..).trans (.setEntry ..)).sameSpaces
        · cases hb
          exact exitSlots hs
      · cases hb
        exact .refl _
    dsimp only at h
    split at h
    · exact h₁.trans (ih h)
    · cases h
      exact h₁

theorem exitRange (h : m.exitRange d start stop = some m') : SameSpaces m m' := by
  obtain ⟨-, -, -, h⟩ := onRange_eq_some h
  exact exitLoop h

theorem foldlM {f : Mem A → Vma → Option (Mem A)} {l : List Vma}
    (hf : ∀ m m' vma, f m vma = some m' → SameSpaces m m') (h : l.foldlM f m = some m') : SameSpaces m m' := by
  induction l generalizing m with
  | nil =>
    cases h
    exact .refl _
  | cons a l ih =>
    rw [List.foldlM_cons] at h
    obtain ⟨m₁, h₁, h⟩ := Option.bind_eq_some_iff.1 h
    exact (hf _ _ _ h₁).trans (ih h)

theorem exitMmap (h : m.exitMmap mm = some m') : SameSpaces m m' := by
  unfold Mem.exitMmap at h
  split at h
  · obtain ⟨d, -, h⟩ := Option.bind_eq_some_iff.1 h
    obtain ⟨m₁, h₁, h⟩ := Option.bind_eq_some_iff.1 h
    exact (foldlM (fun _ _ _ h => unmapRange h) h₁).trans (foldlM (fun _ _ _ h => exitRange h) h)
  · cases h

theorem putPgdir (h : m.putPgdir mm = some m') : SameSpaces m m' := by
  obtain ⟨d, -, h⟩ := Option.bind_eq_some_iff.1 h
  cases h
  exact (SameVars.freePage ..).sameSpaces

theorem swapIn (h : m.swapIn mm addr = some (page, m')) : SameSpaces m m' := by
  obtain ⟨⟨x, m₁⟩, ha, h⟩ := Option.bind_eq_some_iff.1 h
  cases x with
  | none => cases h
  | some p =>
    obtain ⟨d, -, h⟩ := Option.bind_eq_some_iff.1 h
    obtain ⟨r, -, h⟩ := Option.bind_eq_some_iff.1 h
    obtain ⟨⟨pt, i⟩, -, h⟩ := Option.bind_eq_some_iff.1 h
    obtain ⟨m₂, hr, h⟩ := Option.bind_eq_some_iff.1 h
    cases h
    obtain ⟨o, -, hr⟩ := Option.bind_eq_some_iff.1 hr
    cases hr
    exact (allocPages ha).trans (SameVars.setFrame ..).sameSpaces

theorem doPgfault (h : m.doPgfault mm addr = some (ret, m')) : SameSpaces m m' := by
  unfold Mem.doPgfault at h
  split at h
  · rename_i m₁ hf
    cases h
    exact findVma hf
  · rename_i vma m₁ hf
    refine (findVma hf).trans ?_
    split at h
    · cases h
      exact .refl _
    · dsimp only at h
      obtain ⟨mm', -, h⟩ := Option.bind_eq_some_iff.1 h
      obtain ⟨d, -, h⟩ := Option.bind_eq_some_iff.1 h
      obtain ⟨⟨slot, m₂⟩, hg, h⟩ := Option.bind_eq_some_iff.1 h
      refine (getPte hg).trans ?_
      cases slot with
      | none =>
        cases h
        exact .refl _
      | some x =>
        obtain ⟨pt, i⟩ := x
        dsimp only at h
        split at h
        · obtain ⟨⟨p, m₃⟩, ha, h⟩ := Option.bind_eq_some_iff.1 h
          cases p <;> cases h <;> exact pgdirAllocPage ha
        · split at h
          · obtain ⟨⟨page, m₃⟩, hs, h⟩ := Option.bind_eq_some_iff.1 h
            refine (swapIn hs).trans ?_
            obtain ⟨⟨ok, m₄⟩, hi, h⟩ := Option.bind_eq_some_iff.1 h
            refine (pageInsert hi).trans ?_
            cases ok with
            | false =>
              cases h
              exact .refl _
            | true =>
              obtain ⟨m₅, hq, h⟩ := Option.bind_eq_some_iff.1 h
              cases h
              exact (swapMapSwappable hq).trans ⟨fun _ => rfl, rfl, rfl, fun _ ht => ht⟩
          · cases h
            exact .refl _

theorem userMemLoop (h : m.userMemLoop mm stop write start fuel = some (b, m')) : SameSpaces m m' := by
  induction fuel generalizing m start with
  | zero => cases h
  | succ fuel ih =>
    rw [Mem.userMemLoop] at h
    split at h
    · split at h
      · rename_i m₁ hf
        cases h
        exact findVma hf
      · rename_i vma m₁ hf
        refine (findVma hf).trans ?_
        generalize (if write = true then vmWrite else vmRead) = flag at h
        split at h
        · cases h
          exact .refl _
        · split at h
          · cases h
            exact .refl _
          · split at h
            · cases h
              exact .refl _
            · exact ih h
    · cases h
      exact .refl _

theorem userMemCheck (h : m.userMemCheck mm addr len write = some (b, m')) : SameSpaces m m' := by
  unfold Mem.userMemCheck at h
  dsimp only at h
  split at h
  · cases h
    exact .refl _
  · split at h
    · cases h
      exact .refl _
    · exact userMemLoop h

end SameSpaces

end

end UCore
