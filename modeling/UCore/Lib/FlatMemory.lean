import UCore.Lib.Machine
import Mathlib.Logic.Function.Basic

namespace UCore
set_option autoImplicit true
open Function (update)

/-- A load or a store of one cell. -/
inductive Access (α : Type u) (β : Type v) where
  | load (x : α)
  | store (x : α) (b : β)

namespace Access
variable {α : Type u} {β : Type v}

def addr : Access α β → α
  | load x => x
  | store x _ => x

variable [DecidableEq α]

/-- An access of a flat memory: what it returns, and the memory after it. A store returns what it stores. -/
def run (f : α → β) : Access α β → β × (α → β)
  | load x => (f x, f)
  | store x b => (b, update f x b)

/-- What the accesses return one after the other. -/
def results (f : α → β) : List (Access α β) → List β
  | [] => []
  | a :: as => (a.run f).1 :: results (a.run f).2 as

/-- An access that returns `b` takes a memory with the cells `g` to one with the cells `g'`, both known in part. -/
structure Sees (g g' : α → Option β) (a : Access α β) (b : β) : Prop where
  self : g' a.addr = some b
  load : ∀ x, a = .load x → ∀ c, g x = some c → c = b
  store : ∀ x c, a = .store x c → c = b
  kept : ∀ x, x ≠ a.addr → ∀ c, g x = some c → g' x = some c

/-- A flat memory that explains what follows explains this access too. -/
theorem Sees.explain {g g' : α → Option β} (h : Sees g g' a b) {f' : α → β} (hf : ∀ x c, g' x = some c → f' x = c) :
    ∃ f, (∀ x c, g x = some c → f x = c) ∧ a.run f = (b, f') := by
  cases a with
  | load x =>
    refine ⟨f', fun y c hc => ?_, Prod.ext (hf x b h.self) rfl⟩
    by_cases hy : y = x
    · subst hy
      rw [hf y b h.self, h.load y rfl c hc]
    · exact hf y c (h.kept y hy c hc)
  | store x c =>
    obtain rfl := h.store x c rfl
    refine ⟨update f' x ((g x).getD c), fun y e he => ?_, Prod.ext rfl ?_⟩
    · by_cases hy : y = x
      · subst hy
        rw [Function.update_self, he]
        rfl
      · rw [Function.update_of_ne hy]
        exact hf y e (h.kept y hy e he)
    · show update (update f' x _) x c = f'
      rw [Function.update_idem, ← hf x c h.self, Function.update_eq_self]

end Access

namespace Machine
variable {σ : Type u} {α : Type v} {M : Machine σ α}

theorem trace_labels [∀ s a, Decidable (M.enabled s a)] (h : M.trace s as = some r) : r.map Prod.fst = as := by
  induction as generalizing s r with
  | nil =>
    cases h
    rfl
  | cons a as ih =>
    rw [trace] at h
    split at h
    · obtain ⟨t, -, hrest⟩ := Option.bind_eq_some_iff.1 h
      obtain ⟨r, hr, rfl⟩ := Option.map_eq_some_iff.1 hrest
      exact congrArg (a :: ·) (ih hr)
    · cases h

/-- What is observed at the steps of a path. -/
def observe (out : σ → α → γ) : σ → List (α × σ) → List γ
  | _, [] => []
  | s, (a, t) :: r => out s a :: observe out t r

/-- If in every step of the machine an access returns what is seen in the cell, or what the cell holds from then on when
that was not determined, then each run returns what a flat memory returns. -/
theorem Path.flat [DecidableEq α] [Nonempty β] {M : Machine σ (Access α β)} {view : σ → α → Option β}
    {out : σ → Access α β → Option β}
    (hstep : ∀ s a t, M.Reachable s → M.enabled s a → M.next s a = some t → ∃ b, out s a = some b ∧
      a.Sees (view s) (view t) b) (hs : M.Reachable s) (hp : M.Path s r) :
    ∃ f : α → β, (∀ x c, view s x = some c → f x = c) ∧
      observe out s r = (Access.results f (r.map Prod.fst)).map some := by
  induction r generalizing s with
  | nil =>
    refine ⟨fun x => (view s x).getD (Classical.arbitrary β), fun x c hc => ?_, rfl⟩
    show (view s x).getD _ = c
    rw [hc]
    rfl
  | cons y r ih =>
    obtain ⟨a, t⟩ := y
    obtain ⟨f', hf', hout⟩ := ih (.step hs hp.1 hp.2.1) hp.2.2
    obtain ⟨b, hb, hsees⟩ := hstep s a t hs hp.1 hp.2.1
    obtain ⟨f, hf, hrun⟩ := hsees.explain hf'
    refine ⟨f, hf, ?_⟩
    rw [observe, hb, hout, List.map_cons, Access.results, hrun]
    rfl

end Machine

end UCore
