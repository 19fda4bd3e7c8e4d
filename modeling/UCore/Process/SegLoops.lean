import UCore.Process.LoadIcode

namespace UCore
set_option autoImplicit true

section
variable {σ : Type} {E : SegEnv σ}

/-- What the loop over the file part keeps: `P` holds of `start`, `la`, the source, the last page and the
state; where an allocation fails, `Q` is left. -/
theorem copyLoop_inv (P : Nat → Nat → Nat → Option Nat → σ → Prop) (Q : σ → Prop)
    (hfail : ∀ s page start la src t, P start la src page s → start < stop →
      E.pgdirAllocPage s la = some (none, t) → Q t)
    (hpage : ∀ s page start la src p t u, P start la src page s → start < stop →
      E.pgdirAllocPage s la = some (some p, t) →
      E.memcpy t p (segChunk start la stop).1 src (segChunk start la stop).2 = some u →
      P (addW start (segChunk start la stop).2) (addW la pgSize) (addW src (segChunk start la stop).2)
        (some p) u)
    (hp : P start la src page s) (h : E.copyLoop stop s page start la src fuel = some (r, t)) :
    (r = none → Q t) ∧ ∀ page start la, r = some (page, start, la) →
      ¬ start < stop ∧ ∃ src, P start la src page t := by
  induction fuel generalizing s page start la src with
  | zero => cases h
  | succ fuel ih =>
    unfold SegEnv.copyLoop at h
    split at h
    · rename_i hlt
      obtain ⟨⟨r₁, s₁⟩, ha, h⟩ := Option.bind_eq_some_iff.1 h
      cases r₁ with
      | none =>
        cases h
        exact ⟨fun _ => hfail _ _ _ _ _ _ hp hlt ha, nofun⟩
      | some p =>
        have hnext (u : σ) := hpage s page start la src p s₁ u hp hlt ha
        generalize segChunk start la stop = c at h hnext
        obtain ⟨s₂, hc, h⟩ := Option.bind_eq_some_iff.1 h
        exact ih (hnext s₂ hc) h
    · rename_i hlt
      cases h
      refine ⟨nofun, fun page start la hr => ?_⟩
      cases hr
      exact ⟨hlt, src, hp⟩

/-- The same for the loop that clears pages. -/
theorem zeroLoop_inv (P : Nat → Nat → σ → Prop) (Q : σ → Prop)
    (hfail : ∀ s start la t, P start la s → start < stop → E.pgdirAllocPage s la = some (none, t) → Q t)
    (hpage : ∀ s start la p t u, P start la s → start < stop →
      E.pgdirAllocPage s la = some (some p, t) →
      E.memset t p (segChunk start la stop).1 (segChunk start la stop).2 = some u →
      P (addW start (segChunk start la stop).2) (addW la pgSize) u)
    (hp : P start la s) (h : E.zeroLoop stop s start la fuel = some (b, t)) :
    if b then ∃ start la, ¬ start < stop ∧ P start la t else Q t := by
  induction fuel generalizing s start la with
  | zero => cases h
  | succ fuel ih =>
    unfold SegEnv.zeroLoop at h
    split at h
    · rename_i hlt
      obtain ⟨⟨r₁, s₁⟩, ha, h⟩ := Option.bind_eq_some_iff.1 h
      cases r₁ with
      | none =>
        cases h
        exact hfail _ _ _ _ hp hlt ha
      | some p =>
        have hnext (u : σ) := hpage s start la p s₁ u hp hlt ha
        generalize segChunk start la stop = c at h hnext
        obtain ⟨s₂, hc, h⟩ := Option.bind_eq_some_iff.1 h
        exact ih (hnext s₂ hc) h
    · rename_i hlt
      cases h
      exact ⟨start, la, hlt, hp⟩

end

section
variable {σ : Type} {E : SegEnv σ}

theorem copyLoop_empty (hge : ¬ start < stop)
    (h : E.copyLoop stop s page start la src fuel = some (r, t)) : r = some (page, start, la) ∧ t = s := by
  cases fuel with
  | zero => cases h
  | succ fuel =>
    rw [SegEnv.copyLoop, if_neg hge] at h
    cases h
    exact ⟨rfl, rfl⟩

theorem zeroLoop_done (hge : ¬ start < stop) :
    E.zeroLoop stop s start la SegEnv.rounds = some (true, s) := by
  rw [SegEnv.rounds, SegEnv.zeroLoop, if_neg hge]

theorem bssPart_cases (h : E.bssPart stop s page start la = some (b, t)) :
    start < la ∧ start = stop ∧ b = true ∧ t = s ∨
    start < la ∧ start ≠ stop ∧ (∃ p s₁ s₂ off size, bssChunk start la stop = (off, size) ∧ page = some p ∧
      E.memset s p off size = some s₁ ∧
      E.assert s₁ (stop < la ∧ addW start size = stop ∨ stop ≥ la ∧ addW start size = la) = some s₂ ∧
      E.zeroLoop stop s₂ (addW start size) la SegEnv.rounds = some (b, t)) ∨
    ¬ start < la ∧ E.zeroLoop stop s start la SegEnv.rounds = some (b, t) := by
  unfold SegEnv.bssPart at h
  split at h
  · rename_i hlt
    split at h
    · rename_i heq
      cases h
      exact .inl ⟨hlt, heq, rfl, rfl⟩
    · rename_i hne
      generalize bssChunk start la stop = c at *
      obtain ⟨p, hp, h⟩ := Option.bind_eq_some_iff.1 h
      obtain ⟨s₁, hm, h⟩ := Option.bind_eq_some_iff.1 h
      obtain ⟨s₂, ha, h⟩ := Option.bind_eq_some_iff.1 h
      exact .inr (.inl ⟨hlt, hne, p, s₁, s₂, c.1, c.2, rfl, hp, hm, ha, h⟩)
  · rename_i hge
    exact .inr (.inr ⟨hge, h⟩)

theorem loadSegment_copied (h : E.copyLoop (addW ph.pVa.toNat ph.pFilesz.toNat) s none ph.pVa.toNat
      (roundDown ph.pVa.toNat pgSize) (addW binary ph.pOffset.toNat) SegEnv.rounds =
        some (some (page, start, la), t)) :
    E.loadSegment s binary ph = E.bssPart (addW ph.pVa.toNat ph.pMemsz.toNat) t page start la := by
  unfold SegEnv.loadSegment
  dsimp only
  rw [h]
  rfl

theorem loadSegment_cases (h : E.loadSegment s binary ph = some (b, t)) :
    ∃ r s₁, E.copyLoop (addW ph.pVa.toNat ph.pFilesz.toNat) s none ph.pVa.toNat
        (roundDown ph.pVa.toNat pgSize) (addW binary ph.pOffset.toNat) SegEnv.rounds = some (r, s₁) ∧
      (r = none ∧ b = false ∧ t = s₁ ∨ ∃ page start la, r = some (page, start, la) ∧
        E.bssPart (addW ph.pVa.toNat ph.pMemsz.toNat) s₁ page start la = some (b, t)) := by
  obtain ⟨⟨r, s₁⟩, hc, h⟩ := Option.bind_eq_some_iff.1 h
  refine ⟨r, s₁, hc, ?_⟩
  cases r with
  | none =>
    cases h
    exact .inl ⟨rfl, rfl, rfl⟩
  | some x =>
    obtain ⟨page, start, la⟩ := x
    exact .inr ⟨page, start, la, rfl, h⟩

end

/-- `start` lies in the page at `la`. -/
structure InPage (start la : Nat) : Prop where
  aligned : la % pgSize = 0
  le : la ≤ start
  lt : start < la + pgSize

/-- The part of a segment in a page stays in it. It reaches to `stop`, or to the next page. -/
theorem segChunk_spec (h : InPage start la) (hlt : start < stop) (hs : stop < 2 ^ 64) :
    (segChunk start la stop).1 = start - la ∧ start - la + (segChunk start la stop).2 ≤ pgSize ∧
    (stop < la + pgSize ∧ la + pgSize < 2 ^ 64 ∧ (segChunk start la stop).2 = stop - start ∨
      (la + pgSize ≤ stop ∨ la + pgSize = 2 ^ 64) ∧ (segChunk start la stop).2 = la + pgSize - start) := by
  obtain ⟨h₁, h₂, h₃⟩ := h
  unfold segChunk addW subW
  unfold pgSize at *
  dsimp only
  have hoff : (start + 2 ^ 64 - la) % 2 ^ 64 = start - la := by omega
  have hsize : (4096 + 2 ^ 64 - (start - la)) % 2 ^ 64 = la + 4096 - start := by omega
  rw [hoff, hsize]
  by_cases hwrap : la + 4096 = 2 ^ 64
  · rw [hwrap, Nat.mod_self, if_neg (Nat.not_lt_zero _)]
    omega
  · have hla : (la + 4096) % 2 ^ 64 = la + 4096 := by omega
    rw [hla]
    split
    · have : (la + 4096 + 2 ^ 64 - stop) % 2 ^ 64 = la + 4096 - stop := by omega
      rw [this]
      omega
    · omega

/-- After the part in a page, the loop is in the next page, or at its end. -/
theorem segChunk_next (h : InPage start la) (hlt : start < stop) (hs : stop < 2 ^ 64) :
    InPage (addW start (segChunk start la stop).2) (addW la pgSize) ∧
        addW start (segChunk start la stop).2 = addW la pgSize ∧ (la + pgSize ≤ stop ∨ la + pgSize = 2 ^ 64) ∨
      addW start (segChunk start la stop).2 = stop ∧ addW la pgSize = la + pgSize ∧ stop < la + pgSize := by
  obtain ⟨-, -, hcase⟩ := segChunk_spec h hlt hs
  obtain ⟨h₁, h₂, h₃⟩ := h
  unfold addW
  unfold pgSize at *
  rcases hcase with ⟨hlast, hla, hsize⟩ | ⟨hnext, hsize⟩
  · refine .inr ?_
    rw [hsize]
    omega
  · refine .inl ⟨⟨?_, ?_, ?_⟩, ?_, hnext⟩
    · unfold pgSize
      omega
    · rw [hsize]
      omega
    · rw [hsize]
      unfold pgSize
      omega
    · rw [hsize]
      omega

/-- The rest of the last page of the file part is a part of that page. -/
theorem bssChunk_eq (h : InPage start (la - pgSize)) (hl : pgSize ≤ la) (hlt : la < 2 ^ 64) :
    bssChunk start la stop = segChunk start (la - pgSize) stop := by
  obtain ⟨h₁, h₂, h₃⟩ := h
  have hla : addW (la - pgSize) pgSize = la := by
    unfold addW
    unfold pgSize at *
    omega
  have hoff : subW (addW start pgSize) la = subW start (la - pgSize) := by
    unfold addW subW
    unfold pgSize at *
    omega
  unfold bssChunk segChunk
  rw [hoff, hla]

section
variable {σ : Type} {E : SegEnv σ}

/-- The loop over a file part that is not empty goes from page to page. It ends at `stop`, with `la` at the
page boundary that is not below; for the last page of the address space it does not end. -/
theorem copyLoop_pages (R : Nat → Nat → Nat → Option Nat → σ → Prop) (Q : σ → Prop)
    (hfail : ∀ s page start la src t, R start la src page s → InPage start la → start < stop →
      E.pgdirAllocPage s la = some (none, t) → Q t)
    (hpage : ∀ s page start la src p t u, R start la src page s → InPage start la → start < stop →
      E.pgdirAllocPage s la = some (some p, t) →
      E.memcpy t p (segChunk start la stop).1 src (segChunk start la stop).2 = some u →
      R (addW start (segChunk start la stop).2) (addW la pgSize) (addW src (segChunk start la stop).2)
        (some p) u)
    (hs : stop < 2 ^ 64) (hin : InPage start la) (hlt : start < stop) (hR : R start la src page s)
    (h : E.copyLoop stop s page start la src fuel = some (r, t)) :
    (r = none → Q t) ∧ ∀ page start la, r = some (page, start, la) →
      start = stop ∧ stop ≤ la ∧ la < stop + pgSize ∧ la % pgSize = 0 ∧ stop + pgSize ≤ 2 ^ 64 ∧
        page.isSome ∧ ∃ src, R start la src page t := by
  have hinv := copyLoop_inv (fun start la src page s => R start la src page s ∧
    (InPage start la ∧ start < stop ∨ start = stop ∧ stop ≤ la ∧ la < stop + pgSize ∧ la % pgSize = 0 ∧
      stop + pgSize ≤ 2 ^ 64 ∧ page.isSome)) Q ?_ ?_ ⟨hR, .inl ⟨hin, hlt⟩⟩ h
  · obtain ⟨hnone, hsome⟩ := hinv
    refine ⟨hnone, fun page start la hr => ?_⟩
    obtain ⟨hge, src, hR, hcase⟩ := hsome page start la hr
    rcases hcase with ⟨-, hlt⟩ | ⟨h₁, h₂, h₃, h₄, h₅, h₆⟩
    · exact absurd hlt hge
    · exact ⟨h₁, h₂, h₃, h₄, h₅, h₆, src, hR⟩
  · rintro s page start la src t ⟨hR, hcase⟩ hlt ha
    rcases hcase with ⟨hin, -⟩ | ⟨rfl, -⟩
    · exact hfail s page start la src t hR hin hlt ha
    · exact absurd hlt (Nat.lt_irrefl _)
  · rintro s page start la src p t u ⟨hR, hcase⟩ hlt ha hc
    rcases hcase with ⟨hin, -⟩ | ⟨rfl, -⟩
    · refine ⟨hpage s page start la src p t u hR hin hlt ha hc, ?_⟩
      have hmod := hin.aligned
      have hle := hin.le
      rcases segChunk_next hin hlt hs with ⟨hin', heq, hle⟩ | ⟨heq, hla, hend⟩
      · rw [heq] at hin' ⊢
        generalize segChunk start la stop = c at *
        clear hR ha hc h hfail hpage
        unfold addW at *
        unfold pgSize at *
        by_cases hstop : (la + 4096) % 2 ^ 64 < stop
        · exact .inl ⟨hin', hstop⟩
        · refine .inr ⟨?_, ?_, ?_, ?_, ?_, rfl⟩ <;> omega
      · rw [heq, hla]
        clear hR ha hc h hfail hpage
        unfold addW at hla
        unfold pgSize at *
        refine .inr ⟨rfl, ?_, ?_, ?_, ?_, rfl⟩ <;> omega
    · exact absurd hlt (Nat.lt_irrefl _)

/-- The loop over pages to clear, from a place in a page on. -/
theorem zeroLoop_pages (R : Nat → Nat → σ → Prop) (Q : σ → Prop)
    (hfail : ∀ s start la t, R start la s → InPage start la → start < stop →
      E.pgdirAllocPage s la = some (none, t) → Q t)
    (hpage : ∀ s start la p t u, R start la s → InPage start la → start < stop →
      E.pgdirAllocPage s la = some (some p, t) →
      E.memset t p (segChunk start la stop).1 (segChunk start la stop).2 = some u →
      R (addW start (segChunk start la stop).2) (addW la pgSize) u)
    (hs : stop < 2 ^ 64) (hin : InPage start la ∨ ¬ start < stop) (hR : R start la s)
    (h : E.zeroLoop stop s start la fuel = some (b, t)) :
    if b then ∃ start la, ¬ start < stop ∧ R start la t else Q t := by
  have hinv := zeroLoop_inv (fun start la s => R start la s ∧ (InPage start la ∨ ¬ start < stop)) Q
    ?_ ?_ ⟨hR, hin⟩ h
  · cases b with
    | false => exact hinv
    | true =>
      obtain ⟨start, la, hge, hR, -⟩ := hinv
      exact ⟨start, la, hge, hR⟩
  · rintro s start la t ⟨hR, hcase⟩ hlt ha
    exact hfail s start la t hR (hcase.resolve_right fun hc => hc hlt) hlt ha
  · rintro s start la p t u ⟨hR, hcase⟩ hlt ha hc
    have hin := hcase.resolve_right fun hc => hc hlt
    refine ⟨hpage s start la p t u hR hin hlt ha hc, ?_⟩
    rcases segChunk_next hin hlt hs with ⟨hin', -⟩ | ⟨heq, -⟩
    · exact .inl hin'
    · rw [heq]
      exact .inr (Nat.lt_irrefl _)

end

end UCore
