import UCore.Libs.PrintSigned
import UCore.Libs.Strtol

namespace UCore
set_option autoImplicit true

theorem strtolDig_digitChar (h : d < 16) : strtolDig (ord d.digitChar) = some d := by
  have hall : ∀ d < 16, strtolDig (ord d.digitChar) = some d := by decide
  exact hall d h

theorem isDigitOf_digitChar (hx : base ≤ 16) (h : d < base) : isDigitOf base (ord d.digitChar) = true := by
  rw [isDigitOf, strtolDig_digitChar (Nat.lt_of_lt_of_le h hx), Option.any_some]
  exact decide_eq_true h

section
variable {base : Nat} (hb : 1 < base) (hx : base ≤ 16)
include hb hx

theorem digitsText_isDigitOf (n : Nat) : ∀ c ∈ digitsText base n, isDigitOf base c = true := by
  induction n using Nat.strong_induction_on with
  | _ n ih =>
    intro c hc
    by_cases hlt : n < base
    · rw [digitsText_lt hlt, List.mem_singleton] at hc
      rw [hc]
      exact isDigitOf_digitChar hx hlt
    · have hle := Nat.not_lt.1 hlt
      rw [digitsText_le hb hle, List.mem_append, List.mem_singleton] at hc
      rcases hc with hc | hc
      · exact ih (n / base) (Nat.div_lt_self (by omega) hb) c hc
      · rw [hc]
        exact isDigitOf_digitChar hx (Nat.mod_lt _ (by omega))

theorem digitsValue_digitsText (n : Nat) : digitsValue base (digitsText base n) = n := by
  induction n using Nat.strong_induction_on with
  | _ n ih =>
    by_cases hlt : n < base
    · rw [digitsText_lt hlt, digitsValue, List.foldl_cons, List.foldl_nil, strtolDig_digitChar (by omega), Nat.zero_mul,
        Nat.zero_add]
      rfl
    · have hle := Nat.not_lt.1 hlt
      have hdiv := ih (n / base) (Nat.div_lt_self (by omega) hb)
      have hmod : n % base < 16 := Nat.lt_of_lt_of_le (Nat.mod_lt _ (by omega)) hx
      rw [digitsValue] at hdiv
      rw [digitsText_le hb hle, digitsValue, List.foldl_append, hdiv, List.foldl_cons, List.foldl_nil,
        strtolDig_digitChar hmod, Option.getD_some, Nat.mul_comm, Nat.div_add_mod]

/-- Digits are no blanks, no signs and no marks of a prefix. -/
theorem longPrefix_digitsText (n : Nat) :
    longPrefix [ord 'x'] base (digitsText base n) = (base, digitsText base n) := by
  have hall := digitsText_isDigitOf hb hx n
  cases hd : digitsText base n with
  | nil =>
    rw [longPrefix, if_neg (by omega)]
  | cons c s =>
    rw [hd] at hall
    rw [longPrefix, if_neg, if_neg (by omega), if_neg (by omega)]
    rintro ⟨-, -, x, hxs, hmark⟩
    rw [List.mem_singleton] at hmark
    have hdig := hall x (List.mem_cons_of_mem _ (List.mem_of_mem_head? hxs))
    rw [hmark, isDigitOf, show strtolDig (ord 'x') = some 33 by decide, Option.any_some, decide_eq_true_iff] at hdig
    omega

theorem digitsText_takeWhile (n : Nat) : (digitsText base n).takeWhile (isDigitOf base) = digitsText base n ∧
    (digitsText base n).dropWhile (isDigitOf base) = [] := by
  have hall := digitsText_isDigitOf hb hx n
  exact ⟨List.takeWhile_eq_self_iff.2 hall, List.dropWhile_eq_nil_iff.2 hall⟩

theorem longText_digits (n : Nat) : longText [ord 'x'] base (digitsText base n) = ((n : Int), []) := by
  have hstart : longSign ((digitsText base n).dropWhile isSpace) = (false, digitsText base n) := by
    have hall := digitsText_isDigitOf hb hx n
    cases hd : digitsText base n with
    | nil => rfl
    | cons c s =>
      rw [hd] at hall
      have hc := hall c List.mem_cons_self
      have hne : ∀ d ∈ [ord ' ', ord '\t', ord '+', ord '-'], c ≠ d := by
        intro d hd hcd
        have hno : ∀ d ∈ [ord ' ', ord '\t', ord '+', ord '-'], strtolDig d = none := by decide
        rw [hcd, isDigitOf, hno d hd] at hc
        cases hc
      have hsp : ¬ isSpace c = true := by
        intro h
        rcases of_decide_eq_true h with h | h
        · exact hne _ (by simp) h
        · exact hne _ (by simp) h
      rw [List.dropWhile_cons_of_neg hsp, longSign, if_neg (hne _ (by simp)), if_neg (hne _ (by simp))]
  unfold longText
  rw [hstart]
  dsimp only
  rw [longPrefix_digitsText hb hx]
  dsimp only
  rw [(digitsText_takeWhile hb hx n).1, (digitsText_takeWhile hb hx n).2, digitsValue_digitsText hb hx]
  rfl

theorem longText_minus (n : Nat) : longText [ord 'x'] base (ord '-' :: digitsText base n) = (-(n : Int), []) := by
  have hstart : longSign ((ord '-' :: digitsText base n).dropWhile isSpace) = (true, digitsText base n) := rfl
  unfold longText
  rw [hstart]
  dsimp only
  rw [longPrefix_digitsText hb hx]
  dsimp only
  rw [(digitsText_takeWhile hb hx n).1, (digitsText_takeWhile hb hx n).2, digitsValue_digitsText hb hx]
  rfl

end

theorem longText_intText (n : Int) : longText [ord 'x'] 10 (intText n) = (n, []) := by
  by_cases hn : n < 0
  · rw [intText_neg hn, longText_minus (by decide) (by decide), Int.toNat_of_nonneg (by omega), Int.neg_neg]
  · rw [intText_nonneg (Int.not_lt.1 hn), longText_digits (by decide) (by decide), Int.toNat_of_nonneg (by omega)]

/-- The conversions of a `long` and the bases that read them. -/
def longConversions : List (BitVec 8 × Nat) := [(ord 'd', 10), (ord 'x', 16), (ord 'o', 8)]

/-- What `%ld`, `%lx` and `%lo` print. -/
def longPrinted (base : Nat) (x : BitVec 64) : List (BitVec 8) :=
  if base = 10 then intText x.toInt else digitsText base x.toNat

theorem PrintEnv.number_unpadded (env : PrintEnv σ) (hb : 1 < base) (hx : base ≤ 16) (hn : num < 2 ^ 64) {e : Escape}
    (he : e.width = -1) (out : σ) : env.number num base e out = some (env.putAll (digitsText base num) out) := by
  have hlen := digits_lt hb hn
  rw [env.number_spec hb hx hn, he, int32_eq (by omega) (by omega), Int.toNat_of_nonpos (by omega)]
  rfl

theorem PrintEnv.convert_signed (env : PrintEnv σ) (perr : Int → σ → Option σ) {e : Escape} (he : e.width = -1)
    (s : PrintState σ) (ch : BitVec 8) : env.convert perr e s ch .decimal =
      some { s.next with out := env.putAll (intText (getint s.arg e.lflag).toInt) s.out } := by
  have hlen : (digitsText 10 (getint s.arg e.lflag).toInt.natAbs).length < 2 ^ 31 :=
    digits_lt (by decide) (natAbs_lt (getint s.arg e.lflag))
  rw [env.convert_decimal, he, int32_eq (by omega) (by omega), Int.toNat_of_nonpos (by omega), intText_eq]
  rfl

theorem PrintEnv.convert_hex (env : PrintEnv σ) (perr : Int → σ → Option σ) {e : Escape} (he : e.width = -1)
    (s : PrintState σ) (ch : BitVec 8) : env.convert perr e s ch .hex =
      some { s.next with out := env.putAll (digitsText 16 (getuint s.arg e.lflag)) s.out } := by
  rw [convert, env.number_unpadded (by decide) (by decide) (getuint_lt ..) he]
  rfl

theorem PrintEnv.convert_octal (env : PrintEnv σ) (perr : Int → σ → Option σ) {e : Escape} (he : e.width = -1)
    (s : PrintState σ) (ch : BitVec 8) : env.convert perr e s ch .octal =
      some { s.next with out := env.putAll (digitsText 8 (getuint s.arg e.lflag)) s.out } := by
  rw [convert, env.number_unpadded (by decide) (by decide) (getuint_lt ..) he]
  rfl

section
variable {fetch read : Nat → Option (BitVec 8)} {below : Option Nat} {ap : Nat → BitVec 64}

theorem vprintfmt_long (hc : (ch, base) ∈ longConversions) (h : CStr fetch a [ord '%', ord 'l', ch]) :
    (recorder fetch read below).vprintfmt a ap [] = some ((longPrinted base (ap 0)).map (·.setWidth 32)) := by
  have hscan : (recorder fetch read below).Scans 1 .start ⟨a + 1, ap, []⟩ ⟨ord ' ', -1, -1, 1, false⟩
      ⟨a + 1 + 1, ap, []⟩ := .flag h.2.2.1 rfl
  have hend := h.2.2.2.2
  have hconv (hm : (caseOf ch).isModifier = false) := hscan.convert hend.1 hm (by decide)
    (recorder fetch read below).printError
  simp only [longConversions, List.mem_cons, Prod.mk.injEq, List.not_mem_nil, or_false] at hc
  rcases hc with ⟨rfl, rfl⟩ | ⟨rfl, rfl⟩ | ⟨rfl, rfl⟩
  · have hdec := hconv rfl
    rw [show caseOf (ord 'd') = .decimal from rfl, PrintEnv.convert_signed _ _ rfl] at hdec
    rw [PrintEnv.vprintfmt_single h.1 hdec hend.2.2, recorder_putAll, List.nil_append]
    rfl
  · have hhex := hconv rfl
    rw [show caseOf (ord 'x') = .hex from rfl, PrintEnv.convert_hex _ _ rfl] at hhex
    rw [PrintEnv.vprintfmt_single h.1 hhex hend.2.2, recorder_putAll, List.nil_append]
    rfl
  · have hoct := hconv rfl
    rw [show caseOf (ord 'o') = .octal from rfl, PrintEnv.convert_octal _ _ rfl] at hoct
    rw [PrintEnv.vprintfmt_single h.1 hoct hend.2.2, recorder_putAll, List.nil_append]
    rfl

/-- `strtol` reads what `vprintfmt` has printed, and goes to the end of it. -/
theorem strtol_printed (hc : (ch, base) ∈ longConversions) (h : CStr fetch a [ord '%', ord 'l', ch]) :
    ∃ text, (recorder fetch read below).vprintfmt a ap [] = some (text.map (·.setWidth 32)) ∧
      ∀ (m : ByteMem) b endptr, CStr m.read b text → b + text.length < 2 ^ 64 → endptr ≠ 0 →
        m.strtol b endptr base = some (ap 0, some (b + text.length)) := by
  refine ⟨longPrinted base (ap 0), vprintfmt_long hc h, fun m b endptr hm hb he => ?_⟩
  obtain ⟨stop, hs, hstop, -⟩ := strtol_spec base hm hb he
  have htext : ∃ v, longText [ord 'x'] base (longPrinted base (ap 0)) = (v, []) ∧ BitVec.ofInt 64 v = ap 0 := by
    simp only [longConversions, List.mem_cons, Prod.mk.injEq, List.not_mem_nil, or_false] at hc
    have hnat : BitVec.ofInt 64 ((ap 0).toNat : Int) = ap 0 := by
      rw [BitVec.ofInt_natCast, BitVec.ofNat_toNat, BitVec.setWidth_eq]
    rcases hc with ⟨-, rfl⟩ | ⟨-, rfl⟩ | ⟨-, rfl⟩
    · exact ⟨_, longText_intText _, BitVec.ofInt_toInt⟩
    · exact ⟨_, longText_digits (by decide) (by decide) _, hnat⟩
    · exact ⟨_, longText_digits (by decide) (by decide) _, hnat⟩
  obtain ⟨v, hv, hval⟩ := htext
  rw [hv, List.length_nil, Nat.add_zero] at hstop
  rw [hs, hv, hval, hstop]

end

theorem strtol_printed_min : ∃ text, (recorder (textByte "%ld") (fun _ => none) none).vprintfmt 0 (fun _ => .intMin 64) [] =
    some (text.map (·.setWidth 32)) ∧ ∀ (m : ByteMem) b endptr, CStr m.read b text → b + text.length < 2 ^ 64 →
      endptr ≠ 0 → m.strtol b endptr 10 = some (.intMin 64, some (b + text.length)) := by
  have hc : (ord 'd', 10) ∈ longConversions := by decide
  exact strtol_printed hc (by decide)

end UCore
