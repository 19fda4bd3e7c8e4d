import Mathlib.Data.List.TakeWhile

namespace UCore
set_option autoImplicit true

/-- The words of a line that starts at `a`, with where each begins: the longest runs without blanks. -/
def words (blank : α → Bool) (a : Nat) : List α → List (Nat × List α)
  | [] => []
  | c :: s =>
    if blank c then words blank (a + 1) s
    else (a, c :: s.takeWhile fun c => !blank c) ::
      words blank (a + 1 + (s.takeWhile fun c => !blank c).length) (s.dropWhile fun c => !blank c)
termination_by s => s.length
decreasing_by
  · exact Nat.lt_succ_self _
  · exact Nat.lt_succ_of_le (List.length_dropWhile_le ..)

section
variable {blank : α → Bool} {s : List α}

theorem words_nil (a : Nat) : words blank a [] = [] := by rw [words]

theorem words_blank (hc : blank c = true) (a : Nat) (s : List α) : words blank a (c :: s) = words blank (a + 1) s := by
  rw [words, if_pos hc]

/-- Blanks in front of the first word do not matter. -/
theorem words_dropWhile (a : Nat) (s : List α) :
    words blank a s = words blank (a + (s.takeWhile blank).length) (s.dropWhile blank) := by
  induction s generalizing a with
  | nil => rfl
  | cons c s ih =>
    cases hc : blank c with
    | false => rw [List.takeWhile_cons_of_neg (by simp [hc]), List.dropWhile_cons_of_neg (by simp [hc])]; rfl
    | true =>
      rw [words_blank hc, ih, List.takeWhile_cons_of_pos hc, List.dropWhile_cons_of_pos hc, List.length_cons]
      congr 1
      omega

theorem words_word (hc : blank c = false) (a : Nat) (s : List α) : words blank a (c :: s) =
    (a, c :: s.takeWhile fun c => !blank c) ::
      words blank (a + 1 + (s.takeWhile fun c => !blank c).length) (s.dropWhile fun c => !blank c) := by
  rw [words, if_neg (by simp [hc])]

/-- What stops a run is not in it. -/
theorem dropWhile_stops (p : α → Bool) (s : List α) : s.dropWhile p = [] ∨ ∃ c t, s.dropWhile p = c :: t ∧ p c = false := by
  induction s with
  | nil => exact .inl rfl
  | cons c s ih =>
    cases hc : p c with
    | true =>
      rw [List.dropWhile_cons_of_pos hc]
      exact ih
    | false =>
      rw [List.dropWhile_cons_of_neg (by simp [hc])]
      exact .inr ⟨c, s, rfl, hc⟩

/-- The place of a word in the line. -/
structure WordAt (blank : α → Bool) (a : Nat) (s : List α) (b : Nat) (w : List α) : Prop where
  place : ∃ pre post, s = pre ++ (w ++ post) ∧ b = a + pre.length ∧ (post = [] ∨ ∃ c t, post = c :: t ∧ blank c = true)
  solid : ∀ c ∈ w, blank c = false

theorem words_at (a : Nat) (s : List α) : ∀ r ∈ words blank a s, WordAt blank a s r.1 r.2 := by
  induction hn : s.length using Nat.strong_induction_on generalizing a s with
  | _ n ih =>
    cases s with
    | nil =>
      rw [words_nil]
      nofun
    | cons c s =>
      intro r hr
      cases hc : blank c with
      | true =>
        rw [words_blank hc] at hr
        obtain ⟨⟨pre, post, hs, hb, hpost⟩, hw⟩ := ih s.length (hn ▸ Nat.lt_succ_self _) (a + 1) s rfl r hr
        refine ⟨⟨c :: pre, post, by rw [hs]; rfl, ?_, hpost⟩, hw⟩
        rw [hb, List.length_cons]
        omega
      | false =>
        rw [words_word hc] at hr
        have hsplit := List.takeWhile_append_dropWhile (p := fun c => !blank c) (l := s)
        rcases List.mem_cons.1 hr with rfl | hr
        · refine ⟨⟨[], s.dropWhile fun c => !blank c, ?_, rfl, ?_⟩, fun d hd => ?_⟩
          · simp [hsplit]
          · rcases dropWhile_stops (fun c => !blank c) s with h | ⟨d, t, h, hd⟩
            · exact .inl h
            · exact .inr ⟨d, t, h, by simpa using hd⟩
          · rcases List.mem_cons.1 hd with rfl | hd
            · exact hc
            · simpa using List.mem_takeWhile_imp hd
        · have hlt : (s.dropWhile fun c => !blank c).length < n :=
            hn ▸ Nat.lt_succ_of_le (List.length_dropWhile_le ..)
          obtain ⟨⟨pre, post, hs, hb, hpost⟩, hw⟩ := ih _ hlt _ _ rfl r hr
          refine ⟨⟨c :: (s.takeWhile (fun c => !blank c) ++ pre), post, ?_, ?_, hpost⟩, hw⟩
          · rw [List.cons_append, List.append_assoc, ← hs, hsplit]
          · rw [hb, List.length_cons, List.length_append]
            omega

end

end UCore
