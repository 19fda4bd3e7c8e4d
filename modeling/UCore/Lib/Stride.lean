import Mathlib.Data.Nat.Notation
import Mathlib.Data.List.Basic
import UCore.Lib.Machine

namespace UCore
set_option autoImplicit true

/-- Do a step for each item, until one says to stop; the result says whether all were done. -/
def forEach {σ : Type u} (step : σ → Nat → Option (Bool × σ)) : σ → List Nat → Option (Bool × σ)
  | s, [] => some (true, s)
  | s, a :: l => (step s a).bind fun (go, s) => if go then forEach step s l else some (false, s)

/-- A loop over the addresses from `a` to `stop`. Where `look` finds nothing the loop jumps ahead; else
`body` does the work for one address, and says whether to go on. -/
def strideLoop {σ : Type u} {β : Type v} (look : σ → Nat → Option (Option β × σ))
    (body : σ → Nat → β → Option (Bool × σ)) (next jump : Nat → Nat) (stop : Nat) (s : σ) (a : Nat) :
    Nat → Option (Bool × σ)
  | 0 => none
  | fuel + 1 =>
    (look s a).bind fun
      | (none, s) =>
        if jump a ≠ 0 ∧ jump a < stop then strideLoop look body next jump stop s (jump a) fuel
        else some (true, s)
      | (some b, s) => (body s a b).bind fun (go, s) =>
        if go then
          if next a ≠ 0 ∧ next a < stop then strideLoop look body next jump stop s (next a) fuel
          else some (true, s)
        else some (false, s)

/-- The work for one address. -/
def strideStep {σ : Type u} {β : Type v} (look : σ → Nat → Option (Option β × σ))
    (body : σ → Nat → β → Option (Bool × σ)) (s : σ) (a : Nat) : Option (Bool × σ) :=
  (look s a).bind fun
    | (none, s) => some (true, s)
    | (some b, s) => body s a b

/-- The addresses from `a` to `stop` with the distance `u`. -/
def addrsOf (u a stop : Nat) : List Nat := List.range' a ((stop - a) / u) u

theorem mem_addrsOf (hu : 0 < u) (ha : a % u = 0) (hs : stop % u = 0) :
    b ∈ addrsOf u a stop ↔ b % u = 0 ∧ a ≤ b ∧ b < stop := by
  obtain ⟨i, rfl⟩ := Nat.dvd_of_mod_eq_zero ha
  obtain ⟨j, rfl⟩ := Nat.dvd_of_mod_eq_zero hs
  rw [addrsOf, List.mem_range', ← Nat.mul_sub, Nat.mul_div_cancel_left _ hu]
  constructor
  · rintro ⟨k, hk, rfl⟩
    rw [← Nat.mul_add]
    exact ⟨Nat.mul_mod_right .., Nat.mul_le_mul_left _ (Nat.le_add_right ..),
      Nat.mul_lt_mul_of_pos_left (by omega) hu⟩
  · rintro ⟨hb, h₁, h₂⟩
    obtain ⟨k, rfl⟩ := Nat.dvd_of_mod_eq_zero hb
    have hik := Nat.le_of_mul_le_mul_left h₁ hu
    have hkj := Nat.lt_of_mul_lt_mul_left h₂
    exact ⟨k - i, by omega, by rw [← Nat.mul_add, Nat.add_sub_cancel' hik]⟩

theorem addrsOf_append (hu : 0 < u) (ha : a % u = 0) (hm : mid % u = 0) (h₁ : a ≤ mid) (h₂ : mid ≤ stop)
    (hs : stop % u = 0) : addrsOf u a stop = addrsOf u a mid ++ addrsOf u mid stop := by
  obtain ⟨i, rfl⟩ := Nat.dvd_of_mod_eq_zero ha
  obtain ⟨k, rfl⟩ := Nat.dvd_of_mod_eq_zero hm
  obtain ⟨j, rfl⟩ := Nat.dvd_of_mod_eq_zero hs
  have hik := Nat.le_of_mul_le_mul_left h₁ hu
  have hkj := Nat.le_of_mul_le_mul_left h₂ hu
  simp only [addrsOf, ← Nat.mul_sub, Nat.mul_div_cancel_left _ hu]
  rw [show j - i = k - i + (j - k) by omega, ← List.range'_append, ← Nat.mul_add,
    Nat.add_sub_cancel' hik]

theorem addrsOf_nil (h : stop ≤ a) : addrsOf u a stop = [] := by
  rw [addrsOf, Nat.sub_eq_zero_of_le h, Nat.zero_div]
  rfl

theorem addrsOf_cons (hu : 0 < u) (ha : a % u = 0) (hs : stop % u = 0) (h : a < stop) :
    addrsOf u a stop = a :: addrsOf u (a + u) stop := by
  obtain ⟨i, rfl⟩ := Nat.dvd_of_mod_eq_zero ha
  obtain ⟨j, rfl⟩ := Nat.dvd_of_mod_eq_zero hs
  have hij := Nat.lt_of_mul_lt_mul_left h
  have hcount : u * j - (u * i + u) = u * (j - i - 1) := by
    rw [← Nat.mul_add_one, ← Nat.mul_sub, Nat.sub_sub]
  rw [addrsOf, addrsOf, hcount, ← Nat.mul_sub, Nat.mul_div_cancel_left _ hu, Nat.mul_div_cancel_left _ hu]
  conv_lhs => rw [show j - i = j - i - 1 + 1 by omega]
  exact List.range'_succ ..

section
variable {σ : Type u} {step : σ → Nat → Option (Bool × σ)}

theorem forEach_append : forEach step s (l ++ l') =
    (forEach step s l).bind fun (go, s) => if go then forEach step s l' else some (false, s) := by
  induction l generalizing s with
  | nil => rfl
  | cons a l ih =>
    rw [List.cons_append, forEach, forEach]
    cases step s a with
    | none => rfl
    | some x =>
      obtain ⟨go, t⟩ := x
      cases go with
      | false => rfl
      | true => exact ih

/-- Items whose step does nothing can be skipped. -/
theorem forEach_skip (h : ∀ a ∈ l, step s a = some (true, s)) : forEach step s l = some (true, s) := by
  induction l with
  | nil => rfl
  | cons a l ih =>
    rw [forEach, h a (List.mem_cons_self ..)]
    exact ih fun b hb => h b (List.mem_cons_of_mem _ hb)

theorem forEach_skip_append (h : ∀ a ∈ l, step s a = some (true, s)) :
    forEach step s (l ++ l') = forEach step s l' := by
  rw [forEach_append, forEach_skip h]
  rfl

/-- An invariant of the state and the items done so far holds at the end of the steps. -/
theorem forEach_inv (P : List Nat → σ → Prop) (Q : σ → Prop)
    (hstep : ∀ done a s go t, P done s → done ++ [a] <+: l → step s a = some (go, t) →
      if go then P (done ++ [a]) t else Q t)
    (h : P [] s) (he : forEach step s l = some (go, t)) : if go then P l t else Q t := by
  suffices ∀ done rest s, done ++ rest = l → P done s → forEach step s rest = some (go, t) →
      if go then P l t else Q t from this [] l s rfl h he
  intro done rest
  induction rest generalizing done with
  | nil =>
    intro s hl hp he
    cases he
    rw [List.append_nil] at hl
    subst hl
    exact hp
  | cons a rest ih =>
    intro s hl hp he
    obtain ⟨⟨go', s'⟩, hs, he⟩ := Option.bind_eq_some_iff.1 he
    have hpre : done ++ [a] <+: l := ⟨rest, by rw [List.append_assoc]; exact hl⟩
    have hone := hstep done a s go' s' hp hpre hs
    cases go' with
    | false =>
      cases he
      exact hone
    | true => exact ih (done ++ [a]) s' (by rw [List.append_assoc]; exact hl) hone he

/-- Where the steps are ones of a machine, doing them is a run of it. -/
theorem forEach_path (M : Machine σ α) (lab : Nat → α)
    (hstep : ∀ s a go t, a ∈ l → step s a = some (go, t) →
      M.enabled s (lab a) ∧ M.next s (lab a) = some t)
    (h : forEach step s l = some (go, t)) :
    ∃ r, M.Path s r ∧ Machine.endOf s r = t ∧ r.map Prod.fst <+: l.map lab := by
  induction l generalizing s with
  | nil =>
    cases h
    exact ⟨[], trivial, rfl, List.nil_prefix⟩
  | cons a l ih =>
    obtain ⟨⟨go', s'⟩, hs, h⟩ := Option.bind_eq_some_iff.1 h
    obtain ⟨hen, hn⟩ := hstep s a go' s' (List.mem_cons_self ..) hs
    cases go' with
    | false =>
      cases h
      exact ⟨[(lab a, t)], ⟨hen, hn, trivial⟩, rfl, ⟨l.map lab, rfl⟩⟩
    | true =>
      obtain ⟨r, hr, he, hp⟩ := ih (fun s b go t hb => hstep s b go t (List.mem_cons_of_mem _ hb)) h
      exact ⟨(lab a, s') :: r, ⟨hen, hn, hr⟩, he, (List.prefix_cons_inj _).2 hp⟩

/-- An invariant of the state that looking and the work keep holds after the loop. -/
theorem strideLoop_inv {β : Type v} {look : σ → Nat → Option (Option β × σ)}
    {body : σ → Nat → β → Option (Bool × σ)} (I : σ → Prop)
    (hlook : ∀ s a r s', I s → look s a = some (r, s') → I s')
    (hbody : ∀ s a b go s', I s → body s a b = some (go, s') → I s') (h : I s)
    (hr : strideLoop look body next jump stop s a fuel = some (go, t)) : I t := by
  induction fuel generalizing s a with
  | zero => cases hr
  | succ fuel ih =>
    obtain ⟨⟨r, s₁⟩, hl, hr⟩ := Option.bind_eq_some_iff.1 hr
    have h₁ := hlook s a r s₁ h hl
    cases r with
    | none =>
      dsimp only at hr
      split at hr
      · exact ih h₁ hr
      · cases hr
        exact h₁
    | some b =>
      obtain ⟨⟨go', s₂⟩, hb, hr⟩ := Option.bind_eq_some_iff.1 hr
      have h₂ := hbody s₁ a b go' s₂ h₁ hb
      dsimp only at hr
      split at hr
      · split at hr
        · exact ih h₂ hr
        · cases hr
          exact h₂
      · cases hr
        exact h₂

/-- The loop does the same as visiting every address, where it jumps over addresses with nothing to
find. -/
theorem strideLoop_eq {β : Type v} {look : σ → Nat → Option (Option β × σ)}
    {body : σ → Nat → β → Option (Bool × σ)} {next jump : Nat → Nat} (hu : 0 < u)
    (hnext : ∀ a, a % u = 0 → next a = a + u) (hjump : ∀ a, a % u = 0 → jump a % u = 0 ∧ a < jump a)
    (hlook : ∀ s a s', look s a = some (none, s') → s' = s ∧
      ∀ b, a ≤ b → b < jump a → look s b = some (none, s))
    (ha : a % u = 0) (hs : stop % u = 0) (h : a < stop) (hf : (stop - a) / u < fuel) :
    strideLoop look body next jump stop s a fuel = forEach (strideStep look body) s (addrsOf u a stop) := by
  induction fuel generalizing s a with
  | zero => exact absurd hf (Nat.not_lt_zero _)
  | succ fuel ih =>
    have hgo (b : Nat) (t : σ) (hb : a < b) (hbu : b % u = 0) :
        (if b ≠ 0 ∧ b < stop then strideLoop look body next jump stop t b fuel else some (true, t)) =
          forEach (strideStep look body) t (addrsOf u b stop) := by
      by_cases hlt : b < stop
      · rw [if_pos ⟨Nat.ne_of_gt (Nat.zero_lt_of_lt hb), hlt⟩]
        apply ih hbu hlt
        obtain ⟨i, rfl⟩ := Nat.dvd_of_mod_eq_zero ha
        obtain ⟨j, rfl⟩ := Nat.dvd_of_mod_eq_zero hs
        obtain ⟨k, rfl⟩ := Nat.dvd_of_mod_eq_zero hbu
        rw [← Nat.mul_sub, Nat.mul_div_cancel_left _ hu] at hf ⊢
        have hik := Nat.lt_of_mul_lt_mul_left hb
        have hkj := Nat.lt_of_mul_lt_mul_left hlt
        omega
      · rw [if_neg fun hc => hlt hc.2, addrsOf_nil (Nat.not_lt.1 hlt)]
        rfl
    rw [strideLoop]
    cases hl : look s a with
    | none =>
      rw [addrsOf_cons hu ha hs h, forEach, strideStep, hl]
      rfl
    | some x =>
      obtain ⟨b, t⟩ := x
      cases b with
      | none =>
        obtain ⟨rfl, hskip⟩ := hlook s a t hl
        obtain ⟨hmod, hlt⟩ := hjump a ha
        have hnoop (mid : Nat) (hmid : mid ≤ jump a) (hm : mid % u = 0) :
            ∀ b ∈ addrsOf u a mid, strideStep look body t b = some (true, t) := by
          intro b hb
          obtain ⟨-, h₁, h₂⟩ := (mem_addrsOf hu ha hm).1 hb
          rw [strideStep, hskip b h₁ (Nat.lt_of_lt_of_le h₂ hmid)]
          rfl
        refine (hgo (jump a) t hlt hmod).trans ?_
        by_cases hle : jump a ≤ stop
        · rw [addrsOf_append hu ha hmod (Nat.le_of_lt hlt) hle hs,
            forEach_skip_append (hnoop _ (Nat.le_refl _) hmod)]
        · rw [addrsOf_nil (Nat.le_of_not_le hle), forEach_skip (hnoop _ (Nat.le_of_not_le hle) hs)]
          rfl
      | some b =>
        rw [addrsOf_cons hu ha hs h, forEach, strideStep, hl, hnext a ha, Option.bind_some, Option.bind_some]
        dsimp only
        cases hb : body t a b with
        | none => rfl
        | some x =>
          obtain ⟨go, s'⟩ := x
          cases go with
          | false => rfl
          | true => exact hgo (a + u) s' (Nat.lt_add_of_pos_right hu) (by rw [Nat.add_mod_right, ha])

end

end UCore
