import UCore.Mm.KmallocAlloc

namespace UCore
set_option autoImplicit true

/-- A block of `1 << order` pages at `ptr`. -/
structure BigChunk where
  ptr : Nat
  order : Nat
  deriving DecidableEq

def BigChunk.seg (c : BigChunk) : Seg := ⟨c.ptr, 256 * 2 ^ c.order⟩

/-- A node of the list `bigblocks`, at `addr`. -/
structure BigRec where
  addr : Nat
  chunk : BigChunk
  deriving DecidableEq

/-- The units of a `bigblock_t`. -/
def recordSeg (bb : Nat) : Seg := ⟨bb, slobUnits bigblockSize⟩

@[simp] theorem addr_recordSeg : (recordSeg bb).addr = bb := rfl
@[simp] theorem stop_recordSeg : (recordSeg bb).stop = bb + 32 := rfl

def BigRec.seg (r : BigRec) : Seg := recordSeg r.addr

/-- The walk along `bigblocks`. -/
def bigWalk (h : SlobHeap) (bb : Nat) : Nat → Option (List BigRec)
  | 0 => none
  | fuel + 1 =>
    if bb = 0 then some []
    else (bigWalk h (h.bbNext bb) fuel).map (⟨bb, h.bbPages bb, h.bbOrder bb⟩ :: ·)

/-- The records `recs` are linked from `bb` on, down to `NULL`. -/
def BigChain (h : SlobHeap) : Nat → List BigRec → Prop
  | bb, [] => bb = 0
  | bb, r :: recs => bb = r.addr ∧ r.chunk = ⟨h.bbPages bb, h.bbOrder bb⟩ ∧
      BigChain h (h.bbNext bb) recs

section Chain
variable {h h' : SlobHeap} {recs : List BigRec}

theorem sameOn_rec {r : BigRec} (hs : SameOn r.seg h h') : h'.bbPages r.addr = h.bbPages r.addr ∧
    h'.bbOrder r.addr = h.bbOrder r.addr ∧ h'.bbNext r.addr = h.bbNext r.addr := by
  refine ⟨hs _ ?_ ?_, hs _ ?_ ?_, hs _ ?_ ?_⟩ <;> simp [BigRec.seg]

theorem BigChain.congr (hc : BigChain h bb recs) (hs : ∀ r ∈ recs, SameOn r.seg h h') :
    BigChain h' bb recs := by
  induction recs generalizing bb with
  | nil => exact hc
  | cons r recs ih =>
    obtain ⟨rfl, hchunk, hrest⟩ := hc
    obtain ⟨h₁, h₂, h₃⟩ := sameOn_rec (hs r (by simp))
    refine ⟨rfl, by rw [h₁, h₂, hchunk], ?_⟩
    rw [h₃]
    exact ih hrest fun s hs' => hs s (List.mem_cons_of_mem _ hs')

theorem BigChain.chunk_eq {pre post : List BigRec} {r : BigRec}
    (hc : BigChain h bb (pre ++ r :: post)) : r.chunk = ⟨h.bbPages r.addr, h.bbOrder r.addr⟩ := by
  induction pre generalizing bb with
  | nil =>
    obtain ⟨rfl, hchunk, -⟩ := hc
    exact hchunk
  | cons s pre ih => exact ih hc.2.2

theorem bigWalk_eq (hc : BigChain h bb recs) (h0 : ∀ r ∈ recs, r.addr ≠ 0) (hf : recs.length < fuel) :
    bigWalk h bb fuel = some recs := by
  induction recs generalizing bb fuel with
  | nil =>
    obtain ⟨fuel, rfl⟩ := Nat.exists_eq_add_one.2 hf
    obtain rfl : bb = 0 := hc
    rfl
  | cons r recs ih =>
    obtain ⟨fuel, rfl⟩ := Nat.exists_eq_add_one.2 (Nat.zero_lt_of_lt hf)
    obtain ⟨rfl, hchunk, hrest⟩ := hc
    have hr := ih hrest (fun s hs => h0 s (List.mem_cons_of_mem _ hs)) (Nat.lt_of_succ_lt_succ hf)
    rw [bigWalk, if_neg (h0 r (by simp)), hr, Option.map_some, ← hchunk]

theorem bigblockUnlink_none (hc : BigChain h bb recs) (h0 : ∀ r ∈ recs, r.addr ≠ 0)
    (hne : ∀ r ∈ recs, r.chunk.ptr ≠ block) (hf : recs.length < fuel) :
    bigblockUnlink h block last bb fuel = some (none, h) := by
  induction recs generalizing bb fuel last with
  | nil =>
    obtain ⟨fuel, rfl⟩ := Nat.exists_eq_add_one.2 hf
    obtain rfl : bb = 0 := hc
    rfl
  | cons r recs ih =>
    obtain ⟨fuel, rfl⟩ := Nat.exists_eq_add_one.2 (Nat.zero_lt_of_lt hf)
    obtain ⟨rfl, hchunk, hrest⟩ := hc
    have hptr : h.bbPages r.addr ≠ block := by
      have := hne r (by simp)
      rwa [hchunk] at this
    unfold bigblockUnlink
    rw [if_neg (h0 r (by simp)), if_neg hptr]
    exact ih hrest (fun s hs => h0 s (List.mem_cons_of_mem _ hs))
      (fun s hs => hne s (List.mem_cons_of_mem _ hs)) (Nat.lt_of_succ_lt_succ hf)

/-- The heap without the record `r` behind the records `pre`. -/
def unlinkRec (h : SlobHeap) (last : Option Nat) (r : BigRec) : SlobHeap :=
  match last with
  | none => { h with bigblocks := h.bbNext r.addr }
  | some l => h.store (l + 16) (h.bbNext r.addr)

theorem bigblockUnlink_some {pre post : List BigRec} {r : BigRec}
    (hc : BigChain h bb (pre ++ r :: post)) (h0 : ∀ s ∈ pre ++ [r], s.addr ≠ 0)
    (hne : ∀ s ∈ pre, s.chunk.ptr ≠ block) (hr : r.chunk.ptr = block)
    (hf : pre.length < fuel) : bigblockUnlink h block last bb fuel =
      some (some r.addr, unlinkRec h ((pre.map fun s => some s.addr).getLastD last) r) := by
  induction pre generalizing bb fuel last with
  | nil =>
    obtain ⟨fuel, rfl⟩ := Nat.exists_eq_add_one.2 hf
    obtain ⟨rfl, hchunk, -⟩ := hc
    have hptr : h.bbPages r.addr = block := by rwa [hchunk] at hr
    unfold bigblockUnlink
    rw [if_neg (h0 r (by simp)), if_pos hptr]
    cases last <;> rfl
  | cons s pre ih =>
    obtain ⟨fuel, rfl⟩ := Nat.exists_eq_add_one.2 (Nat.zero_lt_of_lt hf)
    obtain ⟨rfl, hchunk, hrest⟩ := hc
    have hptr : h.bbPages s.addr ≠ block := by
      have := hne s (by simp)
      rwa [hchunk] at this
    unfold bigblockUnlink
    rw [if_neg (h0 s (by simp)), if_neg hptr, List.map_cons, List.getLastD_cons]
    exact ih hrest (fun s hs => h0 s (List.mem_cons_of_mem _ hs))
      (fun s hs => hne s (List.mem_cons_of_mem _ hs)) (Nat.lt_of_succ_lt_succ hf)

theorem BigChain.unlink_next {pre post : List BigRec} {l r : BigRec}
    (hc : BigChain h bb (pre ++ l :: r :: post))
    (hd : (pre ++ l :: r :: post).Pairwise fun x y => x.seg.Disjoint y.seg) :
    BigChain (h.store (l.addr + 16) (h.bbNext r.addr)) bb (pre ++ l :: post) := by
  have hsame : ∀ x : BigRec, x.seg.Disjoint l.seg →
      SameOn x.seg h (h.store (l.addr + 16) (h.bbNext r.addr)) := fun x hx => by
    refine sameOn_store ?_
    simp only [Seg.Disjoint, BigRec.seg, addr_recordSeg, stop_recordSeg] at hx ⊢
    omega
  induction pre generalizing bb with
  | nil =>
    obtain ⟨rfl, hchunk, hnext, -, hpost⟩ := hc
    rw [hnext] at hpost
    have hl : (h.store (l.addr + 16) (h.bbNext r.addr)).bbNext l.addr = h.bbNext r.addr :=
      Function.update_self ..
    refine ⟨rfl, ?_, ?_⟩
    · rw [hchunk]
      simp [SlobHeap.bbPages, SlobHeap.bbOrder]
    · rw [hl]
      refine hpost.congr fun x hx => hsame x (Seg.Disjoint.symm ?_)
      exact List.rel_of_pairwise_cons hd (List.mem_cons_of_mem _ hx)
  | cons s pre ih =>
    obtain ⟨rfl, hchunk, hrest⟩ := hc
    obtain ⟨h₁, h₂, h₃⟩ := sameOn_rec (hsame s (List.rel_of_pairwise_cons hd (by simp)))
    refine ⟨rfl, by rw [h₁, h₂, hchunk], ?_⟩
    rw [h₃]
    exact ih hrest hd.tail

/-- The chain without `r`, once its predecessor or the static variable is redirected. -/
theorem BigChain.unlink {pre post : List BigRec} {r : BigRec}
    (hc : BigChain h h.bigblocks (pre ++ r :: post))
    (hd : (pre ++ r :: post).Pairwise fun x y => x.seg.Disjoint y.seg) :
    BigChain (unlinkRec h ((pre.map fun s => some s.addr).getLastD none) r)
      (unlinkRec h ((pre.map fun s => some s.addr).getLastD none) r).bigblocks (pre ++ post) := by
  rcases pre.eq_nil_or_concat with rfl | ⟨pre, l, rfl⟩
  · obtain ⟨he, -, hrest⟩ := hc
    rw [he] at hrest
    exact hrest.congr fun _ _ _ _ _ => rfl
  · simp only [List.concat_eq_append, List.map_append, List.map_cons, List.map_nil,
      List.getLastD_concat, List.append_assoc, List.singleton_append] at hc hd ⊢
    exact hc.unlink_next hd

/-- Unlinking a record changes at most the record before it. -/
theorem SlobRep.unlinkRec {pre post : List BigRec} {r : BigRec} {L X : List Seg}
    (hr : SlobRep h L (X ++ (pre ++ r :: post).map BigRec.seg)) :
    ∃ h', UCore.unlinkRec h ((pre.map fun s => some s.addr).getLastD none) r = h' ∧
      SlobRep h' L (X ++ (pre ++ r :: post).map BigRec.seg) ∧ (∀ x ∈ X, SameOn x h h') ∧
      h'.bbOrder r.addr = h.bbOrder r.addr ∧ h'.arena = h.arena ∧ h'.pages = h.pages := by
  rcases pre.eq_nil_or_concat with rfl | ⟨pre, l, rfl⟩
  · exact ⟨_, rfl, hr.setBigblocks _, fun _ _ _ _ _ => rfl, rfl, rfl, rfl⟩
  · simp only [List.concat_eq_append, List.map_append, List.map_cons, List.map_nil,
      List.getLastD_concat] at hr ⊢
    obtain ⟨-, hd, hdX⟩ := List.pairwise_append.1 (List.pairwise_append.1 hr.tiling.disjoint).2.1
    have hl : l.seg ∈ List.map BigRec.seg pre ++ [l.seg] ++ r.seg :: List.map BigRec.seg post := by simp
    have hstop : l.addr + 16 < l.seg.stop := Nat.add_lt_add_left (by decide : 16 < 32) l.addr
    refine ⟨_, rfl, hr.store_used (List.mem_append_right X hl) (Nat.le_add_right ..) hstop,
      fun x hx => sameOn_store ?_, ?_, rfl, rfl⟩
    · have := hdX x hx l.seg hl
      simp only [Seg.Disjoint, BigRec.seg, addr_recordSeg, stop_recordSeg] at this ⊢
      omega
    · have hlr := (List.pairwise_append.1 hd).2.2 l.seg (by simp) r.seg (by simp)
      simp only [Seg.Disjoint, BigRec.seg, addr_recordSeg, stop_recordSeg] at hlr
      exact Function.update_of_ne (by omega) ..

end Chain

end UCore
