import UCore.Mm.Phys
import Mathlib.Data.List.Range

namespace UCore
set_option autoImplicit true

/-- An allocator that keeps a list of the free frames, with a heap whose blocks take no frames. -/
structure FramePool where
  free : List Nat
  blocks : List Nat
  bound : ∀ f ∈ free, 0x80200 ≤ f ∧ f < npage

namespace FramePool

def alloc (s : FramePool) (n : Nat) : Option Nat × FramePool :=
  match s.free.find? fun p => ∀ i < n, p + i ∈ s.free with
  | some p => (some p,
    { s with
      free := s.free.filter fun f => ¬ (p ≤ f ∧ f < p + n)
      bound := fun f hf => s.bound f (List.mem_filter.1 hf).1 })
  | none => (none, s)

def release (s : FramePool) (p n : Nat) : FramePool :=
  if h : ∀ f ∈ List.range' p n, 0x80200 ≤ f ∧ f < npage then
    { s with
      free := List.range' p n ++ s.free
      bound := fun f hf => (List.mem_append.1 hf).elim (h f) (s.bound f) }
  else s

def newBlock (s : FramePool) : Nat := s.blocks.foldr max 0 + 1

theorem newBlock_fresh (s : FramePool) : s.newBlock ∉ s.blocks := by
  unfold newBlock
  intro hm
  have hle (l : List Nat) (x : Nat) (hx : x ∈ l) : x ≤ l.foldr max 0 := by
    induction l with
    | nil => cases hx
    | cons y l ih =>
      cases hx with
      | head => exact Nat.le_max_left ..
      | tail _ hx => exact Nat.le_trans (ih hx) (Nat.le_max_right ..)
  have := hle _ _ hm
  omega

theorem alloc_cases (s : FramePool) (n : Nat) : s.alloc n = (none, s) ∨ ∃ p s', s.alloc n = (some p, s') ∧
    (∀ i < n, p + i ∈ s.free) ∧ (∀ f, f ∈ s'.free ↔ f ∈ s.free ∧ ¬ (p ≤ f ∧ f < p + n)) ∧
      s'.blocks = s.blocks := by
  unfold alloc
  split
  · rename_i p hp
    refine .inr ⟨p, _, rfl, ?_, fun f => ?_, rfl⟩
    · simpa using List.find?_some hp
    · simp only [List.mem_filter, decide_eq_true_eq]
  · exact .inl rfl

theorem mem_release (h : ∀ f, p ≤ f → f < p + n → 0x80200 ≤ f ∧ f < npage) (s : FramePool) :
    f ∈ (s.release p n).free ↔ f ∈ s.free ∨ p ≤ f ∧ f < p + n := by
  have hr : ∀ f ∈ List.range' p n, 0x80200 ≤ f ∧ f < npage := fun f hf =>
    h f (List.mem_range'_1.1 hf).1 (List.mem_range'_1.1 hf).2
  unfold release
  rw [dif_pos hr]
  show f ∈ List.range' p n ++ s.free ↔ _
  rw [List.mem_append, List.mem_range'_1, or_comm]

theorem blocks_release (s : FramePool) : (s.release p n).blocks = s.blocks := by
  unfold release
  split <;> rfl

end FramePool

def framePool : PhysSys where
  σ := FramePool
  bootPgdir := 0x80200
  free s f := f ∈ s.free
  arena _ _ := False
  live s p := p ∈ s.blocks
  allocPages := FramePool.alloc
  freePages := FramePool.release
  kmalloc s := (some s.newBlock, { s with blocks := s.newBlock :: s.blocks })
  kfree s p := { s with blocks := s.blocks.filter (· ≠ p) }
  free_bound hf := FramePool.bound _ _ hf
  free_arena _ := id
  allocPages_none h := by
    rcases FramePool.alloc_cases _ _ with ha | ⟨p, s', ha, -⟩ <;> rw [ha] at h <;> cases h
    rfl
  allocPages_some h h₁ h₂ := by
    rcases FramePool.alloc_cases _ _ with ha | ⟨p, s', ha, hm, -⟩ <;> rw [ha] at h <;> cases h
    rw [← Nat.add_sub_cancel' h₁]
    exact hm _ (by omega)
  allocPages_free h := by
    rcases FramePool.alloc_cases _ _ with ha | ⟨p, s', ha, -, hf, -⟩ <;> rw [ha] at h <;> cases h
    exact hf _
  allocPages_arena _ := rfl
  allocPages_live h := by
    rcases FramePool.alloc_cases _ _ with ha | ⟨p, s', ha, -, -, hb⟩ <;> rw [ha] at h <;> cases h
    · rfl
    · rw [hb]
  freePages_free h := FramePool.mem_release (fun f h₁ h₂ => ⟨(h f h₁ h₂).1, (h f h₁ h₂).2.1⟩) _
  freePages_arena := rfl
  freePages_live := by
    intro s p n
    funext q
    rw [FramePool.blocks_release]
  kmalloc_free h := by
    cases h
    rfl
  kmalloc_arena _ hf := hf
  kmalloc_fresh h := by
    cases h
    exact FramePool.newBlock_fresh _
  kmalloc_live h := by
    cases h
    simp [or_comm, eq_comm]
  kfree_free := rfl
  kfree_arena := rfl
  kfree_live := by simp

/-- A page directory with nothing mapped, and some free frames. -/
def poolMem : Mem framePool where
  phys := ⟨[0x80300, 0x80301, 0x80302, 0x80303], [], by decide⟩
  frame _ _ := 0
  ref _ := 0
  mms _ := ⟨[], none, none, 0, false, 0⟩
  praVaddr _ := 0
  swapInitOk := false
  maxSwapOffset := 0
  checkMm := none
  praList := []
  disk _ _ := 0
  oom := 0
  spaces := []

end UCore
