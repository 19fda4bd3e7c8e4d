import UCore.Lib.Refines
import UCore.Libs.Printfmt

namespace UCore
set_option autoImplicit true

/-- Related outputs stay related, and what is read on the left is read on the right too. -/
structure PrintSim (E : PrintEnv σ) (F : PrintEnv τ) (R : σ → τ → Prop) : Prop where
  fetch : R s t → ∀ a, Refines Eq (E.fetch s a) (F.fetch t a)
  read : R s t → ∀ a, Refines Eq (E.read s a) (F.read t a)
  below : R s t → Refines Eq (E.below s) (F.below t)
  putch : R s t → ∀ ch, R (E.putch ch s) (F.putch ch t)

/-- The same place in the format, the same arguments, and related outputs. -/
structure PrintState.Rel (R : σ → τ → Prop) (s : PrintState σ) (t : PrintState τ) : Prop where
  fmt : s.fmt = t.fmt
  ap : s.ap = t.ap
  out : R s.out t.out

theorem strnlen_refines (h : ∀ a, Refines Eq (f a) (g a)) (s len : Nat) :
    Refines Eq (strnlen f s len) (strnlen g s len) := by
  induction len generalizing s with
  | zero => exact .of_some rfl
  | succ len ih =>
    rw [strnlen, strnlen]
    apply (h s).bind
    intro c _ hc
    subst hc
    apply Refines.ite
    · intro _
      exact .of_some rfl
    · intro _
      apply (ih _).map
      intro n _ hn
      rw [hn]

theorem scanNumber_refines (h : ∀ a, Refines Eq (f a) (g a)) (fmt : Nat) (ch : BitVec 8) (precision : Int) (fuel : Nat) :
    Refines Eq (scanNumber f fmt ch precision fuel) (scanNumber g fmt ch precision fuel) := by
  induction fuel generalizing fmt ch precision with
  | zero => exact .of_none ..
  | succ fuel ih =>
    rw [scanNumber, scanNumber]
    apply (h fmt).bind
    intro c _ hc
    subst hc
    apply Refines.ite
    · intro _
      exact .of_some rfl
    · intro _
      exact ih ..

theorem rewind_refines (h : ∀ a, Refines Eq (f a) (g a)) (fmt : Nat) : Refines Eq (rewind f fmt) (rewind g fmt) := by
  induction fmt with
  | zero => exact .of_none ..
  | succ fmt ih =>
    rw [rewind, rewind]
    apply (h fmt).bind
    intro c _ hc
    subst hc
    apply Refines.ite
    · intro _
      exact .of_some rfl
    · intro _
      exact ih

namespace PrintSim
variable {σ τ : Type} {E : PrintEnv σ} {F : PrintEnv τ} {R : σ → τ → Prop} {s : σ} {t : τ}

theorem putN (h : PrintSim E F R) (hr : R s t) (ch : BitVec 8) (n : Nat) : R (E.putN ch n s) (F.putN ch n t) := by
  induction n generalizing s t with
  | zero => exact hr
  | succ n ih => exact ih (h.putch hr _)

theorem printnum (h : PrintSim E F R) (hr : R s t) (base : Nat) (padc : BitVec 8) (fuel num : Nat) (width : Int) :
    Refines R (E.printnum base padc fuel num width s) (F.printnum base padc fuel num width t) := by
  induction fuel generalizing num width with
  | zero => exact .of_none ..
  | succ fuel ih =>
    rw [PrintEnv.printnum, PrintEnv.printnum]
    apply Refines.bind (R := R)
    · apply Refines.ite
      · intro _
        exact ih ..
      · intro _
        exact .of_some (h.putN hr ..)
    · intro s t hr
      apply Refines.rfl.bind
      intro ch _ hch
      subst hch
      exact .of_some (h.putch hr _)

theorem putStr (h : PrintSim E F R) {src : σ → Nat → Option (BitVec 8)} {src' : τ → Nat → Option (BitVec 8)}
    (hsrc : ∀ {s t}, R s t → ∀ a, Refines Eq (src s a) (src' t a)) (hr : R s t) (altflag : Bool) (p : Nat)
    (precision width : Int) (fuel : Nat) :
    Refines (fun a b => a.1 = b.1 ∧ R a.2 b.2) (E.putStr src altflag p precision width s fuel)
      (F.putStr src' altflag p precision width t fuel) := by
  induction fuel generalizing p precision width s t with
  | zero => exact .of_none ..
  | succ fuel ih =>
    rw [PrintEnv.putStr, PrintEnv.putStr]
    apply (hsrc hr p).bind
    intro c _ hc
    subst hc
    apply Refines.ite
    · intro _
      exact .of_some ⟨rfl, hr⟩
    · intro _
      apply Refines.ite
      · intro _
        exact ih (h.putch hr _) ..
      · intro _
        exact .of_some ⟨rfl, hr⟩

theorem putString (h : PrintSim E F R) {src : σ → Nat → Option (BitVec 8)} {src' : τ → Nat → Option (BitVec 8)}
    (hsrc : ∀ {s t}, R s t → ∀ a, Refines Eq (src s a) (src' t a)) (hr : R s t) (p : Nat) (e : Escape) :
    Refines R (E.putString src p e s) (F.putString src' p e t) := by
  rw [PrintEnv.putString, PrintEnv.putString]
  apply Refines.bind (R := fun a b => a.1 = b.1 ∧ R a.2 b.2)
  · apply Refines.ite
    · intro _
      apply (strnlen_refines (hsrc hr) ..).bind
      intro cnt _ hcnt
      subst hcnt
      exact .of_some ⟨rfl, h.putN hr ..⟩
    · intro _
      exact .of_some ⟨rfl, hr⟩
  · rintro ⟨w, s⟩ ⟨w', t⟩ ⟨hw, hr⟩
    obtain rfl : w = w' := hw
    apply (h.putStr hsrc hr ..).bind
    rintro ⟨w, s⟩ ⟨w', t⟩ ⟨hw, hr⟩
    obtain rfl : w = w' := hw
    exact .of_some (h.putN hr ..)

theorem convert (h : PrintSim E F R) {perr : Int → σ → Option σ} {perr' : Int → τ → Option τ}
    (hperr : ∀ e {s t}, R s t → Refines R (perr e s) (perr' e t)) {s : PrintState σ} {t : PrintState τ}
    (hr : s.Rel R t) (e : Escape) (ch : BitVec 8) (c : Case) :
    Refines (PrintState.Rel R) (E.convert perr e s ch c) (F.convert perr' e t ch c) := by
  obtain ⟨fmt, ap, s⟩ := s
  obtain ⟨fmt', ap', t⟩ := t
  obtain ⟨hf, ha, hr⟩ := hr
  obtain rfl : fmt = fmt' := hf
  obtain rfl : ap = ap' := ha
  have hnum {s t} (hr : R s t) (num base : Nat) :
      Refines (PrintState.Rel R) (E.number num base e s >>= fun out => some ⟨fmt, fun i => ap (i + 1), out⟩)
        (F.number num base e t >>= fun out => some ⟨fmt, fun i => ap (i + 1), out⟩) := by
    apply (h.printnum hr ..).bind
    intro s t hr
    exact .of_some ⟨rfl, rfl, hr⟩
  have hdefault : Refines (PrintState.Rel R) (E.convert perr e ⟨fmt, ap, s⟩ ch .default)
      (F.convert perr' e ⟨fmt, ap, t⟩ ch .default) := by
    have hput := h.putch hr ((ord '%').setWidth 32)
    apply (rewind_refines (h.fetch hput) (fmt - 1)).bind
    intro fmt' _ hf
    subst hf
    exact .of_some ⟨rfl, rfl, hput⟩
  cases c with
  | char => exact .of_some ⟨rfl, rfl, h.putch hr _⟩
  | error =>
    apply (hperr _ hr).bind
    intro s t hr
    exact .of_some ⟨rfl, rfl, hr⟩
  | string =>
    apply Refines.bind (R := R)
    · apply Refines.ite
      · intro _
        apply h.putString _ hr
        intro _ _ _ _
        exact .rfl
      · intro _
        exact h.putString h.read hr ..
    · intro s t hr
      exact .of_some ⟨rfl, rfl, hr⟩
  | decimal =>
    unfold PrintEnv.convert
    dsimp only [PrintState.arg]
    by_cases hneg : (getint (ap 0) e.lflag).toInt < 0
    · rw [if_pos hneg, if_pos hneg]
      exact hnum (h.putch hr _) ..
    · rw [if_neg hneg, if_neg hneg]
      exact hnum hr ..
  | unsigned => exact hnum hr ..
  | octal => exact hnum hr ..
  | pointer => exact hnum (h.putch (h.putch hr _) _) ..
  | hex => exact hnum hr ..
  | percent => exact .of_some ⟨rfl, rfl, h.putch hr _⟩
  | minus => exact hdefault
  | zero => exact hdefault
  | digit => exact hdefault
  | star => exact hdefault
  | dot => exact hdefault
  | sharp => exact hdefault
  | long => exact hdefault
  | default => exact hdefault

theorem reswitch (h : PrintSim E F R) {perr : Int → σ → Option σ} {perr' : Int → τ → Option τ}
    (hperr : ∀ e {s t}, R s t → Refines R (perr e s) (perr' e t)) {s : PrintState σ} {t : PrintState τ}
    (hr : s.Rel R t) (e : Escape) (fuel : Nat) :
    Refines (PrintState.Rel R) (E.reswitch perr fuel e s) (F.reswitch perr' fuel e t) := by
  induction fuel generalizing e s t with
  | zero => exact .of_none ..
  | succ fuel ih =>
    obtain ⟨fmt, ap, s⟩ := s
    obtain ⟨fmt', ap', t⟩ := t
    obtain ⟨hf, ha, hr⟩ := hr
    obtain rfl : fmt = fmt' := hf
    obtain rfl : ap = ap' := ha
    rw [PrintEnv.reswitch, PrintEnv.reswitch]
    apply (h.fetch hr fmt).bind
    intro ch _ hch
    subst hch
    have hnext (fmt : Nat) (ap : Nat → BitVec 64) : PrintState.Rel R ⟨fmt, ap, s⟩ ⟨fmt, ap, t⟩ := ⟨rfl, rfl, hr⟩
    dsimp only
    cases caseOf ch with
    | digit =>
      apply (scanNumber_refines (h.fetch hr) ..).bind
      rintro ⟨precision, fmt'⟩ _ hp
      subst hp
      exact ih (hnext ..) _
    | minus => exact ih (hnext ..) _
    | zero => exact ih (hnext ..) _
    | star => exact ih (hnext ..) _
    | dot => exact ih (hnext ..) _
    | sharp => exact ih (hnext ..) _
    | long => exact ih (hnext ..) _
    | char => exact h.convert hperr (hnext ..) ..
    | error => exact h.convert hperr (hnext ..) ..
    | string => exact h.convert hperr (hnext ..) ..
    | decimal => exact h.convert hperr (hnext ..) ..
    | unsigned => exact h.convert hperr (hnext ..) ..
    | octal => exact h.convert hperr (hnext ..) ..
    | pointer => exact h.convert hperr (hnext ..) ..
    | hex => exact h.convert hperr (hnext ..) ..
    | percent => exact h.convert hperr (hnext ..) ..
    | default => exact h.convert hperr (hnext ..) ..

theorem printLoop (h : PrintSim E F R) {perr : Int → σ → Option σ} {perr' : Int → τ → Option τ}
    (hperr : ∀ e {s t}, R s t → Refines R (perr e s) (perr' e t)) {s : PrintState σ} {t : PrintState τ}
    (hr : s.Rel R t) (fuel : Nat) : Refines R (E.printLoop perr fuel s) (F.printLoop perr' fuel t) := by
  induction fuel generalizing s t with
  | zero => exact .of_none ..
  | succ fuel ih =>
    obtain ⟨fmt, ap, s⟩ := s
    obtain ⟨fmt', ap', t⟩ := t
    obtain ⟨hf, ha, hr⟩ := hr
    obtain rfl : fmt = fmt' := hf
    obtain rfl : ap = ap' := ha
    rw [PrintEnv.printLoop, PrintEnv.printLoop]
    apply (h.fetch hr fmt).bind
    intro ch _ hch
    subst hch
    apply Refines.ite
    · intro _
      apply Refines.ite
      · intro _
        exact .of_some hr
      · intro _
        exact ih ⟨rfl, rfl, h.putch hr _⟩
    · intro _
      apply (h.reswitch hperr _ _ _).bind
      · intro s t hr
        exact ih hr
      · exact ⟨rfl, rfl, hr⟩

theorem printLiteral (h : PrintSim E F R) (hr : R s t) (fmt : String) (x : BitVec 64) :
    Refines R (E.printLiteral fmt x s) (F.printLiteral fmt x t) := by
  apply PrintSim.printLoop
  · exact ⟨fun _ _ => .rfl, h.read, h.below, h.putch⟩
  · intro _ _ _ _
    exact .of_none ..
  · exact ⟨rfl, rfl, hr⟩

theorem printError (h : PrintSim E F R) (err : Int) (hr : R s t) :
    Refines R (E.printError err s) (F.printError err t) := by
  unfold PrintEnv.printError
  dsimp only
  generalize (if err < 0 then int32 (-err) else err) = err
  apply Refines.ite
  · intro _
    exact h.printLiteral hr ..
  · intro _
    apply Refines.ite
    · intro _
      apply (h.below hr).bind
      intro p _ hp
      subst hp
      apply Refines.ite
      · intro _
        exact h.printLiteral hr ..
      · intro _
        exact h.printLiteral hr ..
    · intro _
      cases errorString[err.toNat]?.join with
      | none => exact h.printLiteral hr ..
      | some text =>
        have htext : PrintSim { E with read := fun _ a => textByte text (a - 1) }
            { F with read := fun _ a => textByte text (a - 1) } R :=
          ⟨h.fetch, fun _ _ => .rfl, h.below, h.putch⟩
        exact htext.printLiteral hr ..

/-- What `vprintfmt` does with one way of printing, it does with the other. -/
theorem vprintfmt (h : PrintSim E F R) (hr : R s t) (fmt : Nat) (ap : Nat → BitVec 64) :
    Refines R (E.vprintfmt fmt ap s) (F.vprintfmt fmt ap t) := by
  apply h.printLoop
  · intro e _ _ hr
    exact h.printError e hr
  · exact ⟨rfl, rfl, hr⟩

end PrintSim

end UCore
