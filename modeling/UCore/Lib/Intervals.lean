import Mathlib.Data.List.Basic
import Mathlib.Order.Lattice

namespace UCore
set_option autoImplicit true

/-! Items that occupy the half-open intervals from `lo` to `hi`, in a list that is in order. -/

section
variable {α : Type u} {β : Type v} [LinearOrder α] (lo hi : β → α)

/-- The interval of the item contains the point. -/
def Holds (x : β) (a : α) : Prop := lo x ≤ a ∧ a < hi x

instance (x : β) (a : α) : Decidable (Holds lo hi x a) := inferInstanceAs (Decidable (_ ∧ _))

/-- The intervals of the two items do not overlap. -/
def Clear (x y : β) : Prop := hi x ≤ lo y ∨ hi y ≤ lo x

instance (x y : β) : Decidable (Clear lo hi x y) := inferInstanceAs (Decidable (_ ∨ _))

structure InOrder (l : List β) : Prop where
  pos : ∀ x ∈ l, lo x < hi x
  sorted : l.Pairwise fun x y => hi x ≤ lo y

end

section
variable {α : Type u} {β : Type v} [LinearOrder α] {lo hi : β → α} {l pre post : List β} {x y : β} {a b : α}

theorem Clear.symm (h : Clear lo hi x y) : Clear lo hi y x := Or.symm h

/-- Two intervals that are not empty do not overlap when they have no point in common. -/
theorem clear_iff (hx : lo x < hi x) (hy : lo y < hi y) :
    Clear lo hi x y ↔ ∀ a, ¬ (Holds lo hi x a ∧ Holds lo hi y a) := by
  constructor
  · rintro (h | h) a ⟨⟨hxa, hax⟩, hya, hay⟩
    · exact absurd (hax.trans_le (h.trans hya)) (lt_irrefl a)
    · exact absurd (hay.trans_le (h.trans hxa)) (lt_irrefl a)
  · intro h
    rcases le_total (lo x) (lo y) with hle | hle
    · exact .inl (not_lt.1 fun hlt => h (lo y) ⟨⟨hle, hlt⟩, le_rfl, hy⟩)
    · exact .inr (not_lt.1 fun hlt => h (lo x) ⟨⟨le_rfl, hx⟩, hle, hlt⟩)

/-- A list is in order when it is sorted by the lower ends and no two of its intervals overlap. -/
theorem inOrder_iff : InOrder lo hi l ↔ (∀ x ∈ l, lo x < hi x) ∧ l.Pairwise (fun x y => lo x ≤ lo y) ∧
    l.Pairwise (Clear lo hi) := by
  constructor
  · rintro ⟨hpos, hs⟩
    refine ⟨hpos, ?_, hs.imp .inl⟩
    exact hs.imp_of_mem fun hx _ h => (hpos _ hx).le.trans h
  · rintro ⟨hpos, hs, hc⟩
    refine ⟨hpos, (hs.and hc).imp_of_mem fun hx hy h => ?_⟩
    obtain ⟨hle, h | h⟩ := h
    · exact h
    · exact absurd ((hpos _ hy).trans_le (h.trans hle)) (lt_irrefl _)

namespace InOrder

theorem nil : InOrder lo hi [] := ⟨nofun, .nil⟩

theorem unique (h : InOrder lo hi l) (hx : x ∈ l) (hy : y ∈ l) (hxa : Holds lo hi x a) (hya : Holds lo hi y a) :
    x = y := by
  induction l with
  | nil => cases hx
  | cons z l ih =>
    obtain ⟨hz, hs⟩ := List.pairwise_cons.1 h.sorted
    have hl : InOrder lo hi l := ⟨fun w hw => h.pos w (List.mem_cons_of_mem _ hw), hs⟩
    cases hx with
    | head =>
      cases hy with
      | head => rfl
      | tail _ hy => exact absurd (hxa.2.trans_le ((hz y hy).trans hya.1)) (lt_irrefl a)
    | tail _ hx =>
      cases hy with
      | head => exact absurd (hya.2.trans_le ((hz x hx).trans hxa.1)) (lt_irrefl a)
      | tail _ hy => exact ih hl hx hy

/-- A search along the list finds the item at a point. -/
theorem find?_iff (h : InOrder lo hi l) : l.find? (fun x => Holds lo hi x a) = some x ↔ x ∈ l ∧ Holds lo hi x a := by
  constructor
  · intro hf
    have hx := List.find?_some hf
    exact ⟨List.mem_of_find?_eq_some hf, of_decide_eq_true hx⟩
  · rintro ⟨hx, hxa⟩
    cases hf : l.find? (fun x => Holds lo hi x a) with
    | none =>
      have hno := List.find?_eq_none.1 hf x hx
      exact absurd (decide_eq_true hxa) hno
    | some y =>
      have hy := List.find?_some hf
      rw [h.unique (List.mem_of_find?_eq_some hf) hx (of_decide_eq_true hy) hxa]

/-- What is clear of the last item before it is clear of all items before it. -/
theorem before (h : InOrder lo hi pre) (hl : ∀ p ∈ pre.getLast?, hi p ≤ a) (hx : x ∈ pre) : hi x ≤ a := by
  rcases pre.eq_nil_or_concat with rfl | ⟨pre, z, rfl⟩
  · cases hx
  · rw [List.concat_eq_append] at *
    have hz : hi z ≤ a := hl z (by simp)
    rcases List.mem_append.1 hx with hx | hx
    · have hxz := (List.pairwise_append.1 h.sorted).2.2 x hx z (List.mem_singleton_self z)
      exact hxz.trans ((h.pos z (by simp)).le.trans hz)
    · rw [List.mem_singleton.1 hx]
      exact hz

/-- What is clear of the first item behind it is clear of all items behind it. -/
theorem behind (h : InOrder lo hi post) (hl : ∀ p ∈ post.head?, a ≤ lo p) (hx : x ∈ post) : a ≤ lo x := by
  cases post with
  | nil => cases hx
  | cons z post =>
    have hz : a ≤ lo z := hl z rfl
    cases hx with
    | head => exact hz
    | tail _ hx =>
      have hzx := (List.pairwise_cons.1 h.sorted).1 x hx
      exact hz.trans ((h.pos z (List.mem_cons_self ..)).le.trans hzx)

theorem append_iff : InOrder lo hi (pre ++ post) ↔
    InOrder lo hi pre ∧ InOrder lo hi post ∧ ∀ x ∈ pre, ∀ y ∈ post, hi x ≤ lo y := by
  constructor
  · rintro ⟨hpos, hs⟩
    obtain ⟨h₁, h₂, h₃⟩ := List.pairwise_append.1 hs
    exact ⟨⟨fun x hx => hpos x (List.mem_append_left _ hx), h₁⟩,
      ⟨fun x hx => hpos x (List.mem_append_right _ hx), h₂⟩, h₃⟩
  · rintro ⟨h₁, h₂, h₃⟩
    refine ⟨fun x hx => ?_, List.pairwise_append.2 ⟨h₁.sorted, h₂.sorted, h₃⟩⟩
    rcases List.mem_append.1 hx with hx | hx
    · exact h₁.pos x hx
    · exact h₂.pos x hx

theorem cons_iff : InOrder lo hi (x :: l) ↔ lo x < hi x ∧ InOrder lo hi l ∧ ∀ y ∈ l, hi x ≤ lo y := by
  have happ : InOrder lo hi ([x] ++ l) ↔ _ := append_iff
  rw [List.singleton_append] at happ
  rw [happ]
  constructor
  · rintro ⟨h₁, h₂, h₃⟩
    exact ⟨h₁.pos x (List.mem_singleton_self x), h₂, h₃ x (List.mem_singleton_self x)⟩
  · rintro ⟨h₁, h₂, h₃⟩
    refine ⟨⟨fun y hy => ?_, List.pairwise_singleton ..⟩, h₂, fun y hy => ?_⟩
    · rw [List.mem_singleton.1 hy]
      exact h₁
    · rw [List.mem_singleton.1 hy]
      exact h₃

/-- Between the items that do not start behind it and the others, an item is clear of all items when it is clear
of its two neighbours. -/
theorem neighbours (h : InOrder lo hi (pre ++ post)) (hx : lo x < hi x) (hpre : ∀ w ∈ pre, lo w ≤ lo x)
    (hpost : ∀ w ∈ post.head?, lo x < lo w) :
    ((∀ p ∈ pre.getLast?, hi p ≤ lo x) ∧ ∀ n ∈ post.head?, hi x ≤ lo n) ↔
      ∀ w ∈ pre ++ post, Clear lo hi w x := by
  obtain ⟨h₁, h₂, -⟩ := append_iff.1 h
  constructor
  · rintro ⟨hp, hn⟩ w hw
    rcases List.mem_append.1 hw with hw | hw
    · exact .inl (h₁.before hp hw)
    · exact .inr (h₂.behind hn hw)
  · refine fun hall => ⟨fun p hp => ?_, fun n hn => ?_⟩
    · have hmem := List.mem_of_mem_getLast? hp
      rcases hall p (List.mem_append_left _ hmem) with hc | hc
      · exact hc
      · exact absurd (hx.trans_le (hc.trans (hpre p hmem))) (lt_irrefl _)
    · have hmem := List.mem_of_mem_head? hn
      rcases hall n (List.mem_append_right _ hmem) with hc | hc
      · exact absurd ((h₂.pos n hmem).trans_le hc) (hpost n hn).asymm
      · exact hc

theorem insert (h : InOrder lo hi (pre ++ post)) (hx : lo x < hi x) (hp : ∀ p ∈ pre.getLast?, hi p ≤ lo x)
    (hn : ∀ n ∈ post.head?, hi x ≤ lo n) : InOrder lo hi (pre ++ x :: post) := by
  obtain ⟨h₁, h₂, -⟩ := append_iff.1 h
  refine append_iff.2 ⟨h₁, cons_iff.2 ⟨hx, h₂, fun y hy => h₂.behind hn hy⟩, fun w hw y hy => ?_⟩
  have hwx := h₁.before hp hw
  cases hy with
  | head => exact hwx
  | tail _ hy => exact hwx.trans (hx.le.trans (h₂.behind hn hy))

/-- All points from `a` to `b` are in good places of items when the ones in the item at `a` are, and those from its
end on. -/
theorem covered_step (h : InOrder lo hi l) (good : β → α → Prop) (hab : a < b) :
    (∀ c, a ≤ c → c < b → ∃ x ∈ l, Holds lo hi x c ∧ good x c) ↔
      ∃ x ∈ l, Holds lo hi x a ∧ (∀ c, a ≤ c → c < b → c < hi x → good x c) ∧
        ∀ c, hi x ≤ c → c < b → ∃ y ∈ l, Holds lo hi y c ∧ good y c := by
  constructor
  · intro hall
    obtain ⟨x, hx, hxa, -⟩ := hall a le_rfl hab
    refine ⟨x, hx, hxa, fun c hac hcb hcx => ?_, fun c hc hcb => hall c (hxa.2.le.trans hc) hcb⟩
    obtain ⟨y, hy, hyc, hg⟩ := hall c hac hcb
    rwa [h.unique hx hy ⟨hxa.1.trans hac, hcx⟩ hyc]
  · rintro ⟨x, hx, hxa, hg, hrest⟩ c hac hcb
    rcases lt_or_ge c (hi x) with hcx | hcx
    · exact ⟨x, hx, ⟨hxa.1.trans hac, hcx⟩, hg c hac hcb hcx⟩
    · exact hrest c hcx hcb

end InOrder

/-- Behind the end of an item there are fewer items that end. -/
theorem countP_lt_hi (hx : x ∈ l) (ha : a < hi x) : l.countP (fun w => hi x < hi w) < l.countP fun w => a < hi w := by
  induction l with
  | nil => cases hx
  | cons w l ih =>
    have hle : l.countP (fun w => hi x < hi w) ≤ l.countP fun w => a < hi w := by
      refine List.countP_mono_left fun w _ hw => ?_
      exact decide_eq_true (ha.trans (of_decide_eq_true hw))
    rw [List.countP_cons, List.countP_cons]
    cases hx with
    | head => simpa [ha] using Nat.lt_succ_of_le hle
    | tail _ hx =>
      have hlt := ih hx
      by_cases hw : hi x < hi w
      · simpa [hw, ha.trans hw] using hlt
      · simp only [hw, decide_false, Bool.false_eq_true, if_false]
        exact Nat.lt_of_lt_of_le hlt (Nat.le_add_right ..)

end

end UCore
