import UCore.Libs.Printnum

namespace UCore
set_option autoImplicit true

/-- What a flag changes. -/
def Escape.flag (e : Escape) : Case → Option Escape
  | .minus => some { e with padc := ord '-' }
  | .zero => some { e with padc := ord '0' }
  | .dot => some { e with width := if e.width < 0 then 0 else e.width }
  | .sharp => some { e with altflag := true }
  | .long => some { e with lflag := int32 (e.lflag + 1) }
  | _ => none

/-- The cases of the switch that do not end the escape sequence. -/
def Case.isModifier : Case → Bool
  | .minus | .zero | .digit | .star | .dot | .sharp | .long => true
  | _ => false

/-- The digits, as bytes. -/
def isDig (c : BitVec 8) : Bool := ord '0' ≤ c ∧ c ≤ ord '9'

theorem isDig_iff : isDig c = true ↔ ¬ (c < ord '0' ∨ c > ord '9') := by
  rw [isDig, decide_eq_true_iff, not_or]
  exact and_congr BitVec.not_lt.symm BitVec.not_lt.symm

theorem isDig_ord (h : d.isDigit = true) : isDig (ord d) = true ∧ (ord d).toNat = d.toNat := by
  obtain ⟨hl, hh⟩ := Char.isDigit_iff_toNat.1 h
  have hn : (ord d).toNat = d.toNat := by
    rw [ord, BitVec.toNat_ofNat, Nat.mod_eq_of_lt]
    exact Nat.lt_of_le_of_lt hh (by decide)
  refine ⟨decide_eq_true ⟨?_, ?_⟩, hn⟩
  · rw [BitVec.le_def, hn]
    exact hl
  · rw [BitVec.le_def, hn]
    exact hh

theorem int32_step (v : Nat) (h : d.isDigit = true) :
    int32 (int32 (v : Nat) * 10 + (ord d).toNat - (ord '0').toNat) = int32 ((10 * v + (d.toNat - '0'.toNat) : Nat)) := by
  obtain ⟨hl, -⟩ := Char.isDigit_iff_toNat.1 h
  rw [(isDig_ord h).2, show (ord '0').toNat = '0'.toNat from rfl]
  unfold int32
  rw [Int.bmod_def, Int.bmod_def, Int.bmod_def]
  omega

section
variable {f : Nat → Option (BitVec 8)} {a : Nat}

theorem CStr.fetch (h : CStr f a s) : f a = some (s.headD 0) := by
  cases s with
  | nil => exact h
  | cons c s => exact h.1

/-- The value of the digits goes through an `int`. -/
theorem scanNumber_spec {c : Char} {cs : List Char} (h : CStr f a (cs.map ord ++ rest))
    (hc : ∀ d ∈ c :: cs, d.isDigit = true) (hr : isDig (rest.headD 0) = false) (hf : cs.length < fuel) (v : Nat) :
    scanNumber f a (ord c) (int32 v) fuel = some (int32 (Nat.ofDigitChars 10 (c :: cs) v : Nat), a + cs.length) := by
  induction fuel generalizing a c cs v with
  | zero => cases hf
  | succ fuel ih =>
    rw [scanNumber, int32_step v (hc c List.mem_cons_self), h.fetch]
    dsimp only [Option.bind_eq_bind, Option.bind_some]
    rw [Nat.ofDigitChars_cons]
    cases cs with
    | nil =>
      rw [List.map_nil, List.nil_append,
        if_pos (not_not.1 fun hd => Bool.false_ne_true (hr.symm.trans (isDig_iff.2 hd))), Nat.ofDigitChars_nil]
      rfl
    | cons d cs =>
      have hd := hc d (List.mem_cons_of_mem _ List.mem_cons_self)
      rw [List.map_cons, List.cons_append, List.headD_cons, if_neg (isDig_iff.1 (isDig_ord hd).1),
        ih h.2.2 (fun d hd => hc d (List.mem_cons_of_mem _ hd)) (Nat.lt_of_succ_lt_succ hf), List.length_cons]
      congr 2
      omega

end

/-- The text of a number that is not 0 begins with no flag. -/
theorem toDigits_head (hw : 0 < w) : ∃ c cs, Nat.toDigits 10 w = c :: cs ∧ caseOf (ord c) = .digit ∧
    ∀ d ∈ c :: cs, d.isDigit = true := by
  have hall : ∀ d ∈ Nat.toDigits 10 w, d.isDigit = true := fun d hd =>
    Nat.isDigit_of_mem_toDigits (by decide) (by decide) hd
  have hhead : ∃ c cs, Nat.toDigits 10 w = c :: cs ∧ caseOf (ord c) = .digit := by
    clear hall
    induction w using Nat.strong_induction_on with
    | _ w ih =>
      by_cases hlt : w < 10
      · have hone : ∀ w < 10, 0 < w → caseOf (ord w.digitChar) = .digit := by decide
        exact ⟨w.digitChar, [], Nat.toDigits_of_lt_base hlt, hone w hlt hw⟩
      · obtain ⟨c, cs, hcs, hc⟩ := ih (w / 10) (Nat.div_lt_self hw (by decide)) (by omega)
        refine ⟨c, cs ++ [(w % 10).digitChar], ?_, hc⟩
        rw [Nat.toDigits_of_base_le (by decide) (Nat.not_lt.1 hlt), hcs, List.cons_append]
  obtain ⟨c, cs, hcs, hc⟩ := hhead
  exact ⟨c, cs, hcs, hc, hcs ▸ hall⟩

/-- So many rounds of the switch lead from one place in an escape sequence to another. -/
def PrintEnv.Scans (env : PrintEnv σ) (k : Nat) (e : Escape) (s : PrintState σ) (e' : Escape) (s' : PrintState σ) :
    Prop :=
  ∀ perr fuel, env.reswitch perr (fuel + k) e s = env.reswitch perr fuel e' s'

namespace PrintEnv
variable {env : PrintEnv σ} {s s' s'' : PrintState σ}

theorem Scans.refl (e : Escape) (s : PrintState σ) : env.Scans 0 e s e s := fun _ _ => rfl

theorem Scans.trans (h : env.Scans k e s e' s') (h' : env.Scans k' e' s' e'' s'') :
    env.Scans (k' + k) e s e'' s'' := by
  intro perr fuel
  rw [← Nat.add_assoc, h perr, h' perr]

theorem Scans.flag (hf : env.fetch s.out s.fmt = some ch) (he : e.flag (caseOf ch) = some e') :
    env.Scans 1 e s e' { s with fmt := s.fmt + 1 } := by
  intro perr fuel
  rw [reswitch, hf]
  dsimp only [Option.bind_eq_bind, Option.bind_some]
  cases hc : caseOf ch <;> rw [hc] at he <;> cases he <;> rfl

theorem Scans.star (hf : env.fetch s.out s.fmt = some ch) (hc : caseOf ch = .star) :
    env.Scans 1 e s (e.process (s.arg.setWidth 32).toInt) { s.next with fmt := s.fmt + 1 } := by
  intro perr fuel
  rw [reswitch, hf]
  dsimp only [Option.bind_eq_bind, Option.bind_some]
  rw [hc]
  rfl

theorem Scans.digits (hf : env.fetch s.out s.fmt = some ch) (hz : caseOf ch = .digit)
    (hn : scanNumber (env.fetch s.out) (s.fmt + 1) ch 0 printRounds = some (precision, fmt)) :
    env.Scans 1 e s (e.process precision) { s with fmt := fmt } := by
  intro perr fuel
  rw [reswitch, hf]
  dsimp only [Option.bind_eq_bind, Option.bind_some]
  rw [hz]
  dsimp only
  rw [hn]
  rfl

theorem Scans.number {c : Char} {cs : List Char} (h : CStr (env.fetch s.out) s.fmt ((c :: cs).map ord ++ rest))
    (hc : ∀ d ∈ c :: cs, d.isDigit = true) (hr : isDig (rest.headD 0) = false) (hz : caseOf (ord c) = .digit)
    (hl : cs.length < printRounds) :
    env.Scans 1 e s (e.process (int32 (Nat.ofDigitChars 10 (c :: cs) 0 : Nat)))
      { s with fmt := s.fmt + (c :: cs).length } := by
  have hnum := scanNumber_spec h.2.2 hc hr hl 0
  rw [show int32 (0 : Nat) = 0 from rfl] at hnum
  rw [List.length_cons, Nat.add_comm cs.length, ← Nat.add_assoc]
  exact .digits h.1 hz hnum

/-- The round that ends the escape sequence. -/
theorem reswitch_convert (hf : env.fetch s.out s.fmt = some ch) (hc : (caseOf ch).isModifier = false) (hfuel : 0 < fuel) :
    env.reswitch perr fuel e s = env.convert perr e { s with fmt := s.fmt + 1 } ch (caseOf ch) := by
  obtain ⟨fuel, rfl⟩ := Nat.exists_eq_add_of_lt hfuel
  rw [Nat.zero_add, reswitch, hf]
  dsimp only [Option.bind_eq_bind, Option.bind_some]
  cases h : caseOf ch <;> rw [h] at hc <;> cases hc

theorem Scans.convert (h : env.Scans k .start s e s') (hf : env.fetch s'.out s'.fmt = some ch)
    (hc : (caseOf ch).isModifier = false) (hk : k < printRounds) (perr : Int → σ → Option σ) :
    env.reswitch perr printRounds .start s = env.convert perr e { s' with fmt := s'.fmt + 1 } ch (caseOf ch) := by
  have hfuel : printRounds = printRounds - k + k := (Nat.sub_add_cancel (Nat.le_of_lt hk)).symm
  rw [hfuel, h perr]
  exact reswitch_convert hf hc (Nat.sub_pos_of_lt hk)

theorem printLoop_nul (hf : env.fetch s.out s.fmt = some 0) : env.printLoop perr (fuel + 1) s = some s.out := by
  rw [printLoop, hf]
  rfl

theorem printLoop_escape (hf : env.fetch s.out s.fmt = some (ord '%')) :
    env.printLoop perr (fuel + 1) s =
      env.reswitch perr printRounds .start { s with fmt := s.fmt + 1 } >>= env.printLoop perr fuel := by
  rw [printLoop, hf]
  dsimp only [Option.bind_eq_bind, Option.bind_some]
  rw [if_neg (not_not.2 rfl)]

/-- What is left of a format is one escape sequence. -/
theorem printLoop_last (hp : env.fetch out a = some (ord '%'))
    (hs : env.reswitch perr printRounds .start ⟨a + 1, ap, out⟩ = x)
    (hn : ∀ s, x = some s → env.fetch s.out s.fmt = some 0) :
    env.printLoop perr (fuel + 2) ⟨a, ap, out⟩ = x.map PrintState.out := by
  rw [printLoop_escape hp, hs]
  cases x with
  | none => rfl
  | some s => exact printLoop_nul (hn s rfl)

/-- A format that is one escape sequence. -/
theorem vprintfmt_escape (hp : env.fetch out a = some (ord '%'))
    (hs : env.reswitch env.printError printRounds .start ⟨a + 1, ap, out⟩ = x)
    (hn : ∀ s, x = some s → env.fetch s.out s.fmt = some 0) : env.vprintfmt a ap out = x.map PrintState.out := by
  have hrounds : printRounds = printRounds - 2 + 2 := by decide
  unfold vprintfmt
  rw [hrounds, printLoop_last hp hs hn]

theorem vprintfmt_single (hp : env.fetch out a = some (ord '%'))
    (hs : env.reswitch env.printError printRounds .start ⟨a + 1, ap, out⟩ = some s)
    (hn : env.fetch s.out s.fmt = some 0) : env.vprintfmt a ap out = some s.out := by
  rw [vprintfmt_escape hp hs]
  · rfl
  · intro s' hs'
    rwa [← Option.some.inj hs']

theorem Scans.width (h : CStr (env.fetch s.out) s.fmt (digitsText 10 w ++ rest)) (hw : 0 < w)
    (hr : isDig (rest.headD 0) = false) (hl : (digitsText 10 w).length ≤ printRounds) :
    env.Scans 1 e s (e.process (int32 (w : Nat))) { s with fmt := s.fmt + (digitsText 10 w).length } := by
  obtain ⟨c, cs, hcs, hz, hd⟩ := toDigits_head hw
  have hnum := Nat.ofDigitChars_ten_toDigits (n := w)
  rw [digitsText, hcs] at h hl ⊢
  rw [hcs] at hnum
  rw [List.length_map] at hl ⊢
  have hscan := Scans.number (e := e) h hd hr hz hl
  rwa [hnum] at hscan

theorem Scans.long {l : Nat} (h : CStr (env.fetch s.out) s.fmt (List.replicate l (ord 'l') ++ rest))
    (h0 : 0 ≤ e.lflag) (hl : e.lflag + (l : Int) < 2 ^ 31) :
    env.Scans l e s { e with lflag := e.lflag + l } { s with fmt := s.fmt + l } := by
  induction l generalizing e s with
  | zero =>
    have hadd : e.lflag + ((0 : Nat) : Int) = e.lflag := Int.add_zero _
    rw [hadd]
    exact Scans.refl e s
  | succ l ih =>
    have hadd : e.lflag + ((l + 1 : Nat) : Int) = e.lflag + 1 + l := by omega
    rw [hadd] at hl ⊢
    have hone : env.Scans 1 e s { e with lflag := e.lflag + 1 } { s with fmt := s.fmt + 1 } := by
      apply Scans.flag h.1
      rw [← int32_eq (x := e.lflag + 1) (by omega) (by omega)]
      rfl
    have hrest := ih (e := { e with lflag := e.lflag + 1 }) (s := { s with fmt := s.fmt + 1 }) h.2.2
      (Int.le_add_one h0) hl
    have hboth := hone.trans hrest
    dsimp only at hboth
    rwa [Nat.add_assoc s.fmt, Nat.add_comm 1] at hboth

end PrintEnv

end UCore
