import Mathlib.Algebra.Order.Ring.Nat
import Mathlib.Data.List.Induction

namespace UCore
set_option autoImplicit true

/-- A machine with partial labelled steps. A label is `enabled` where the environment may choose
it; `next` fails where the program panics or does not return. -/
structure Machine (σ : Type u) (α : Type v) where
  init : σ → Prop
  enabled : σ → α → Prop
  next : σ → α → Option σ

namespace Machine
variable {σ : Type u} {α : Type v} (M : Machine σ α)

inductive Reachable : σ → Prop where
  | init : M.init s → Reachable s
  | step : Reachable s → M.enabled s a → M.next s a = some s' → Reachable s'

/-- The runs of `M` all of whose steps meet the condition `good`. -/
def restrict (good : σ → α → Prop) : Machine σ α where
  init := M.init
  enabled s a := M.enabled s a ∧ good s a
  next := M.next

instance restrict_decidable {good : σ → α → Prop} [∀ s a, Decidable (M.enabled s a)]
    [∀ s a, Decidable (good s a)] (s : σ) (a : α) : Decidable ((M.restrict good).enabled s a) :=
  inferInstanceAs (Decidable (M.enabled s a ∧ good s a))

variable {M}

/-- What holds initially and is kept by every step holds in every reachable state. -/
theorem Reachable.invariant (I : σ → Prop) (hinit : ∀ s, M.init s → I s)
    (hstep : ∀ s a s', I s → M.enabled s a → M.next s a = some s' → I s')
    (h : M.Reachable s) : I s := by
  induction h with
  | init hi => exact hinit _ hi
  | step _ he hn ih => exact hstep _ _ _ ih he hn

theorem Reachable.restrict_invariant (I : σ → Prop) (hinit : ∀ s, M.init s → I s)
    (hstep : ∀ s a s', I s → M.enabled s a → good s a → M.next s a = some s' → I s')
    (h : (M.restrict good).Reachable s) : I s := by
  induction h with
  | init hi => exact hinit _ hi
  | step _ he hn ih => exact hstep _ _ _ ih he.1 he.2 hn

/-- The condition of the steps need only be followed by another one where that one has been met so far. -/
theorem Reachable.restrict_imp
    (himp : ∀ s a, (M.restrict good).Reachable s → M.enabled s a → good' s a → good s a)
    (h : (M.restrict good').Reachable s) : (M.restrict good).Reachable s := by
  induction h with
  | init hi => exact .init hi
  | step _ he hn ih => exact .step ih ⟨he.1, himp _ _ ih he.1 he.2⟩ hn

variable (M)

/-- Perform the steps of a list in order, as long as each is enabled. -/
def exec [∀ s a, Decidable (M.enabled s a)] (s : σ) : List α → Option σ
  | [] => some s
  | a :: as => if M.enabled s a then (M.next s a).bind fun s' => exec s' as else none

variable {M}

theorem Reachable.exec [∀ s a, Decidable (M.enabled s a)] (h : M.Reachable s)
    (he : M.exec s as = some s') : M.Reachable s' := by
  induction as generalizing s with
  | nil =>
    cases he
    exact h
  | cons a as ih =>
    rw [Machine.exec] at he
    split at he
    · rename_i hen
      obtain ⟨t, ht, hrest⟩ := Option.bind_eq_some_iff.1 he
      exact ih (.step h hen ht) hrest
    · cases he

variable (M)

/-- The steps `r`, each with the state it leads to, can be taken one after the other from the state. -/
def Path : σ → List (α × σ) → Prop
  | _, [] => True
  | s, (a, t) :: r => M.enabled s a ∧ M.next s a = some t ∧ Path t r

/-- The state after the steps `r` from `s`. -/
def endOf : σ → List (α × σ) → σ
  | s, [] => s
  | _, (_, t) :: r => endOf t r

variable {M}

@[simp] theorem endOf_append : endOf s (r ++ r') = endOf (endOf s r) r' := by
  induction r generalizing s with
  | nil => rfl
  | cons x r ih => exact ih

theorem endOf_mem : endOf s r ∈ s :: r.map Prod.snd := by
  induction r generalizing s with
  | nil => exact List.mem_singleton_self _
  | cons x r ih => exact List.mem_cons_of_mem _ ih

theorem Path.append_iff : M.Path s (r ++ r') ↔ M.Path s r ∧ M.Path (endOf s r) r' := by
  induction r generalizing s with
  | nil => simp [Path, endOf]
  | cons x r ih => simp only [List.cons_append, Path, endOf, ih, and_assoc]

theorem Path.reachable (h : M.Path s r) (hs : M.Reachable s) : M.Reachable (endOf s r) := by
  induction r generalizing s with
  | nil => exact hs
  | cons x r ih => exact ih h.2.2 (.step hs h.1 h.2.1)

theorem Path.mem_reachable (h : M.Path s r) (hs : M.Reachable s) (ht : t ∈ s :: r.map Prod.snd) :
    M.Reachable t := by
  induction r generalizing s with
  | nil =>
    obtain rfl := List.mem_singleton.1 ht
    exact hs
  | cons x r ih =>
    cases ht with
    | head => exact hs
    | tail _ ht => exact ih h.2.2 (.step hs h.1 h.2.1) ht

/-- The steps that a list of labels takes form a path. -/
theorem exec_path [∀ s a, Decidable (M.enabled s a)] (h : M.exec s as = some s') :
    ∃ r, M.Path s r ∧ endOf s r = s' := by
  induction as generalizing s with
  | nil =>
    cases h
    exact ⟨[], trivial, rfl⟩
  | cons a as ih =>
    rw [exec] at h
    split at h
    · rename_i hen
      obtain ⟨t, ht, hrest⟩ := Option.bind_eq_some_iff.1 h
      obtain ⟨r, hr, he⟩ := ih hrest
      exact ⟨(a, t) :: r, ⟨hen, ht, hr⟩, he⟩
    · cases h

variable (M) in
/-- The path that a list of labels takes. -/
def trace [∀ s a, Decidable (M.enabled s a)] (s : σ) : List α → Option (List (α × σ))
  | [] => some []
  | a :: as =>
    if M.enabled s a then (M.next s a).bind fun t => (trace t as).map fun r => (a, t) :: r else none

theorem trace_path [∀ s a, Decidable (M.enabled s a)] (h : M.trace s as = some r) : M.Path s r := by
  induction as generalizing s r with
  | nil =>
    cases h
    trivial
  | cons a as ih =>
    rw [trace] at h
    split at h
    · rename_i hen
      obtain ⟨t, ht, hrest⟩ := Option.bind_eq_some_iff.1 h
      obtain ⟨r, hr, rfl⟩ := Option.map_eq_some_iff.1 hrest
      exact ⟨hen, ht, ih hr⟩
    · cases h

/-- What does not hold at the start of a path and holds at its end has begun to hold in some step, and
held ever since. -/
theorem Path.since {P : σ → Prop} (h : M.Path s r) (hs : ¬ P s) (he : P (endOf s r)) :
    ∃ r₁ a t r₂, r = r₁ ++ (a, t) :: r₂ ∧ ¬ P (endOf s r₁) ∧ P t ∧ ∀ x ∈ r₂, P x.2 := by
  induction r using List.reverseRecOn with
  | nil => exact absurd he hs
  | append_singleton r x ih =>
    rw [endOf_append] at he
    by_cases hp : P (endOf s r)
    · obtain ⟨r₁, a, t, r₂, rfl, hn, ht, hall⟩ := ih (append_iff.1 h).1 hp
      refine ⟨r₁, a, t, r₂ ++ [x], by simp, hn, ht, fun y hy => ?_⟩
      cases List.mem_append.1 hy with
      | inl hy => exact hall y hy
      | inr hy =>
        obtain rfl := List.mem_singleton.1 hy
        exact he
    · exact ⟨r, x.1, x.2, [], rfl, hp, he, by simp⟩

end Machine

end UCore
