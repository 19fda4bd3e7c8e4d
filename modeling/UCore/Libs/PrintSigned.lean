import UCore.Libs.PrintScan

namespace UCore
set_option autoImplicit true

/-- What may stand between the percent sign and the width. -/
inductive Flag where
  | none | zero | minus
  deriving DecidableEq

def Flag.chars : Flag → List (BitVec 8)
  | .none => []
  | .zero => [ord '0']
  | .minus => [ord '-']

def Flag.padc : Flag → BitVec 8
  | .none => ord ' '
  | .zero => ord '0'
  | .minus => ord '-'

/-- A width, so many times the letter `l`, and `d`. -/
def signedFormat (flag : Flag) (w l : Nat) : List (BitVec 8) :=
  ord '%' :: (flag.chars ++ (digitsText 10 w ++ (List.replicate l (ord 'l') ++ [ord 'd'])))

def signText (n : Int) : List (BitVec 8) := if n < 0 then [ord '-'] else []

/-- A number in a field. -/
def Flag.field (w : Nat) (n : Int) : Flag → List (BitVec 8)
  | .none => List.replicate (w - (intText n).length) (ord ' ') ++ intText n
  | .zero => signText n ++ (List.replicate (w - (intText n).length) (ord '0') ++ digitsText 10 n.natAbs)
  | .minus => intText n ++ List.replicate (w - (intText n).length) (ord ' ')

theorem intText_eq (n : Int) : intText n = signText n ++ digitsText 10 n.natAbs := by
  by_cases hn : n < 0
  · rw [intText_neg hn, signText, if_pos hn, show (-n).toNat = n.natAbs by omega]
    rfl
  · rw [intText_nonneg (Int.not_lt.1 hn), signText, if_neg hn, show n.toNat = n.natAbs by omega]
    rfl

theorem Flag.field_length (flag : Flag) (w : Nat) (n : Int) :
    (flag.field w n).length = max w (intText n).length := by
  have hlen := congrArg List.length (intText_eq n)
  rw [List.length_append] at hlen
  cases flag with
  | none =>
    rw [field, List.length_append, List.length_replicate]
    omega
  | zero =>
    rw [field, List.length_append, List.length_append, List.length_replicate]
    omega
  | minus =>
    rw [field, List.length_append, List.length_replicate]
    omega

theorem recorder_putAll {f g : Nat → Option (BitVec 8)} {b : Option Nat} (l : List (BitVec 8)) (out : List (BitVec 32)) :
    (recorder f g b).putAll l out = out ++ l.map (·.setWidth 32) := by
  induction l generalizing out with
  | nil => exact (List.append_nil out).symm
  | cons c l ih =>
    rw [List.map_cons, List.append_cons]
    exact ih _

theorem setWidth_injective : Function.Injective fun c : BitVec 8 => c.setWidth 32 := by
  intro c d h
  have hn := congrArg BitVec.toNat h
  rw [BitVec.toNat_setWidth, BitVec.toNat_setWidth, Nat.mod_eq_of_lt (by omega), Nat.mod_eq_of_lt (by omega)] at hn
  exact BitVec.eq_of_toNat_eq hn

theorem toNat_neg_of_neg {x : BitVec 64} (h : x.toInt < 0) : (-x).toNat = x.toInt.natAbs := by
  have hx := x.isLt
  rw [BitVec.toInt_eq_toNat_cond] at h ⊢
  rw [BitVec.toNat_neg]
  omega

theorem toNat_of_nonneg {x : BitVec 64} (h : ¬ x.toInt < 0) : x.toNat = x.toInt.natAbs := by
  have hx := x.isLt
  rw [BitVec.toInt_eq_toNat_cond] at h ⊢
  omega

theorem Escape.process_start (padc : BitVec 8) (w : Int) :
    Escape.process { Escape.start with padc := padc } w = ⟨padc, w, -1, 0, false⟩ := rfl

namespace PrintEnv
variable {env : PrintEnv σ} {s : PrintState σ}

/-- The case for a signed number: the sign first, and then the padding. -/
theorem convert_decimal (perr : Int → σ → Option σ) (e : Escape) (s : PrintState σ) (ch : BitVec 8) :
    env.convert perr e s ch .decimal = some { s.next with
      out := env.putAll (signText (getint s.arg e.lflag).toInt ++
        (List.replicate (int32 (e.width - (digitsText 10 (getint s.arg e.lflag).toInt.natAbs).length)).toNat e.padc ++
          digitsText 10 (getint s.arg e.lflag).toInt.natAbs)) s.out } := by
  rw [convert, putAll_append]
  dsimp only
  by_cases hneg : (getint s.arg e.lflag).toInt < 0
  · rw [if_pos hneg, signText, if_pos hneg]
    dsimp only
    rw [env.number_spec (by decide) (by decide) (BitVec.isLt _), toNat_neg_of_neg hneg]
    rfl
  · rw [if_neg hneg, signText, if_neg hneg]
    dsimp only
    rw [env.number_spec (by decide) (by decide) (BitVec.isLt _), toNat_of_nonneg hneg]
    rfl

theorem Scans.flags (flag : Flag) (h : CStr (env.fetch s.out) s.fmt (flag.chars ++ rest)) :
    env.Scans flag.chars.length .start s { Escape.start with padc := flag.padc }
      { s with fmt := s.fmt + flag.chars.length } := by
  cases flag with
  | none => exact Scans.refl .start s
  | zero => exact Scans.flag h.1 rfl
  | minus => exact Scans.flag h.1 rfl

end PrintEnv

/-- What is printed for a signed number, with the padding behind the sign. -/
def Flag.printed (w : Nat) (n : Int) (flag : Flag) : List (BitVec 8) :=
  signText n ++ (List.replicate (int32 (w - (digitsText 10 n.natAbs).length)).toNat flag.padc ++ digitsText 10 n.natAbs)

section
variable {fetch read : Nat → Option (BitVec 8)} {below : Option Nat} {ap : Nat → BitVec 64}

theorem vprintfmt_signed (h : CStr fetch a (signedFormat flag w l)) (hb : a + (signedFormat flag w l).length < 2 ^ 64)
    (hw : 0 < w) (hl : l ≤ 2) (hn : (getint (ap 0) l).toInt = n) :
    (recorder fetch read below).vprintfmt a ap [] = some ((flag.printed w n).map (·.setWidth 32)) := by
  have hlen : (signedFormat flag w l).length = 1 + (flag.chars.length + ((digitsText 10 w).length + (l + 1))) := by
    simp only [signedFormat, List.length_cons, List.length_append, List.length_replicate, List.length_nil]
    omega
  rw [hlen] at hb
  have hwidth := h.2.2.drop
  have hlong := hwidth.drop
  have hend := hlong.drop
  rw [List.length_replicate] at hend
  have hrest : isDig ((List.replicate l (ord 'l') ++ [ord 'd']).headD 0) = false := by
    cases l with
    | zero => rfl
    | succ l => rfl
  have hflag : (recorder fetch read below).Scans flag.chars.length .start ⟨a + 1, ap, []⟩ _ _ := .flags flag h.2.2
  have hscan := hflag.trans (.width hwidth hw hrest (by unfold printRounds; omega))
  rw [Escape.process_start] at hscan
  have hscan := hscan.trans (.long hlong (Int.le_refl 0) (by show (0 : Int) + l < _; omega))
  rw [Int.zero_add] at hscan
  have hconv := hscan.convert hend.1 rfl (by unfold printRounds; omega) (recorder fetch read below).printError
  rw [show caseOf (ord 'd') = .decimal from rfl, PrintEnv.convert_decimal] at hconv
  rw [PrintEnv.vprintfmt_single h.1 hconv hend.2.2, recorder_putAll, List.nil_append]
  dsimp only [PrintState.arg]
  rw [hn, int32_sub]
  rfl

/-- When the field is what is printed. -/
def Flag.Fits (w : Nat) (n : Int) (flag : Flag) : Prop :=
  if n < 0 then w < (intText n).length
  else if flag = .minus then w ≤ (intText n).length
  else w < 2 ^ 31 + (intText n).length

instance : Decidable (Flag.Fits w n flag) := inferInstanceAs (Decidable (if n < 0 then _ else if flag = .minus then _ else _))

theorem pad_iff {w d : Nat} (hd : d < 2 ^ 31) : (int32 (w - d)).toNat = w - d ↔ w < 2 ^ 31 + d := by
  unfold int32
  rw [Int.bmod_def]
  omega

/-- The sign is not counted in what is left of the width. -/
theorem pad_sign {w d : Nat} (hd : d < 2 ^ 31) : (int32 (w - d)).toNat + 1 + d = max w (d + 1) ↔ w < d + 1 := by
  unfold int32
  rw [Int.bmod_def]
  omega

theorem digitsText_head (m : Nat) : ∃ c cs, digitsText 10 m = c :: cs ∧ isDig c = true := by
  have hall : ∀ d ∈ Nat.toDigits 10 m, d.isDigit = true := fun d hd =>
    Nat.isDigit_of_mem_toDigits (by decide) (by decide) hd
  unfold digitsText
  cases hm : Nat.toDigits 10 m with
  | nil => exact absurd hm Nat.toDigits_ne_nil
  | cons c cs =>
    rw [hm] at hall
    exact ⟨ord c, cs.map ord, rfl, (isDig_ord (hall c List.mem_cons_self)).1⟩

theorem Flag.printed_eq_field_iff (hd : (digitsText 10 n.natAbs).length < 2 ^ 31) (flag : Flag) :
    flag.printed w n = flag.field w n ↔ flag.Fits w n := by
  have hlen := congrArg List.length (intText_eq n)
  rw [List.length_append] at hlen
  have hprinted : (flag.printed w n).length =
      (signText n).length + ((int32 (w - (digitsText 10 n.natAbs).length)).toNat + (digitsText 10 n.natAbs).length) := by
    rw [printed, List.length_append, List.length_append, List.length_replicate]
  unfold Fits
  by_cases hn : n < 0
  · have hsign : (signText n).length = 1 := by
      rw [signText, if_pos hn]
      rfl
    rw [if_pos hn, hlen, hsign, Nat.add_comm 1, ← pad_sign hd]
    constructor
    · intro he
      have hfield := congrArg List.length he
      rw [hprinted, flag.field_length, hlen, hsign] at hfield
      omega
    · intro hpad
      have hw := (pad_sign hd).1 hpad
      rw [printed, (pad_iff hd).2 (by omega), show w - (digitsText 10 n.natAbs).length = 0 by omega, List.replicate_zero,
        List.nil_append, ← intText_eq]
      cases flag with
      | none =>
        rw [field, show w - (intText n).length = 0 by omega]
        rfl
      | zero =>
        rw [field, show w - (intText n).length = 0 by omega]
        exact intText_eq n
      | minus =>
        rw [field, show w - (intText n).length = 0 by omega]
        exact (List.append_nil _).symm
  · have hsign : signText n = [] := if_neg hn
    have htext : intText n = digitsText 10 n.natAbs := by rw [intText_eq, hsign, List.nil_append]
    rw [if_neg hn, htext]
    rw [hsign, List.length_nil, Nat.zero_add] at hprinted
    have hpad : flag.printed w n = flag.field w n → (int32 (w - (digitsText 10 n.natAbs).length)).toNat =
        w - (digitsText 10 n.natAbs).length := by
      intro he
      have hfield := congrArg List.length he
      rw [hprinted, flag.field_length, htext] at hfield
      omega
    cases flag with
    | none =>
      rw [if_neg (by decide), ← pad_iff hd]
      refine ⟨hpad, fun h => ?_⟩
      rw [printed, field, hsign, htext, h]
      rfl
    | zero =>
      rw [if_neg (by decide), ← pad_iff hd]
      refine ⟨hpad, fun h => ?_⟩
      rw [printed, field, htext, h]
      rfl
    | minus =>
      rw [if_pos rfl]
      constructor
      · intro he
        have hp := hpad he
        by_contra hlt
        rw [printed, field, hsign, htext, hp, List.nil_append] at he
        obtain ⟨k, hk⟩ := Nat.exists_eq_add_of_lt (Nat.not_le.1 hlt)
        obtain ⟨c, cs, hcs, hc⟩ := digitsText_head n.natAbs
        rw [show w - (digitsText 10 n.natAbs).length = k + 1 by omega, List.replicate_succ, hcs] at he
        rw [← (List.cons.inj he).1] at hc
        exact absurd hc (by decide)
      · intro h
        rw [printed, field, hsign, htext, (pad_iff hd).2 (by omega), show w - (digitsText 10 n.natAbs).length = 0 by omega]
        exact (List.append_nil _).symm

/-- The sign is printed before the padding and not counted in the width, and the flag that puts the padding behind the
number is used for the padding character. -/
theorem signed_field_iff (h : CStr fetch a (signedFormat flag w l)) (hb : a + (signedFormat flag w l).length < 2 ^ 64)
    (hw : 0 < w) (hl : l ≤ 2) (hn : (getint (ap 0) l).toInt = n) :
    (recorder fetch read below).vprintfmt a ap [] = some ((flag.field w n).map (·.setWidth 32)) ↔ flag.Fits w n := by
  have hdigits : (digitsText 10 n.natAbs).length < 2 ^ 31 := by
    rw [← hn]
    exact digits_lt (by decide) (natAbs_lt _)
  rw [vprintfmt_signed h hb hw hl hn, ← flag.printed_eq_field_iff hdigits, Option.some.injEq]
  exact (List.map_injective_iff.2 setWidth_injective).eq_iff

end

theorem signed_field_iff_zero : (recorder (textByte "%05ld") (fun _ => none) none).vprintfmt 0 (fun _ => 42) [] =
    some ((Flag.zero.field 5 42).map (·.setWidth 32)) := by
  have h : CStr (textByte "%05ld") 0 (signedFormat .zero 5 1) := by decide
  exact (signed_field_iff h (by decide) (by decide) (by decide) rfl).2 (by decide)

/-- `%5d` with -42 is printed with six characters, and the sign before the spaces. -/
theorem signed_field_sign : CStr (textByte "%5d") 0 (signedFormat .none 5 0) ∧
    (recorder (textByte "%5d") (fun _ => none) none).vprintfmt 0 (fun _ => .ofInt 64 (-42)) [] =
      some ("-   42".toList.map fun c => (ord c).setWidth 32) ∧
    (recorder (textByte "%5d") (fun _ => none) none).vprintfmt 0 (fun _ => .ofInt 64 (-42)) [] ≠
      some ((Flag.none.field 5 (-42)).map (·.setWidth 32)) := by
  decide +kernel

end UCore
