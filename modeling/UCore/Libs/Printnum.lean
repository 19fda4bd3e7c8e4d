import UCore.Libs.Printfmt

namespace UCore
set_option autoImplicit true

/-- The digits of a number, the most significant first. -/
def digitsText (base num : Nat) : List (BitVec 8) := (Nat.toDigits base num).map ord

/-- The canonical decimal text of a number. -/
def intText (n : Int) : List (BitVec 8) := (toString n).toList.map ord

/-- Print characters, one after the other. -/
def PrintEnv.putAll (env : PrintEnv σ) (l : List (BitVec 8)) (out : σ) : σ :=
  l.foldl (fun out ch => env.putch (ch.setWidth 32) out) out

theorem int32_eq (hl : -2 ^ 31 ≤ x) (hh : x < 2 ^ 31) : int32 x = x := by
  unfold int32
  rw [Int.bmod_eq_of_le] <;> omega

theorem int32_sub (a b : Int) : int32 (int32 a - b) = int32 (a - b) := Int.bmod_sub_bmod

theorem digitsText_lt (h : num < base) : digitsText base num = [ord num.digitChar] := by
  rw [digitsText, Nat.toDigits_of_lt_base h, List.map_singleton]

theorem digitsText_le (hb : 1 < base) (h : base ≤ num) :
    digitsText base num = digitsText base (num / base) ++ [ord (num % base).digitChar] := by
  rw [digitsText, Nat.toDigits_of_base_le hb h, List.map_append, List.map_singleton, digitsText]

theorem digitsText_length (hb : 1 < base) (hn : num < base ^ (k + 1)) : (digitsText base num).length ≤ k + 1 := by
  rw [digitsText, List.length_map]
  exact (Nat.length_toDigits_le_iff hb (Nat.succ_pos k)).2 hn

theorem digits_lt (hb : 1 < base) (hn : n < 2 ^ 64) : (digitsText base n).length < 2 ^ 31 := by
  have hlen : (digitsText base n).length ≤ 63 + 1 :=
    digitsText_length hb (Nat.lt_of_lt_of_le hn (Nat.pow_le_pow_left hb 64))
  omega

theorem getuint_lt (x : BitVec 64) (lflag : Int) : getuint x lflag < 2 ^ 64 := by
  have hx := x.isLt
  have hlow := (x.setWidth 32).isLt
  unfold getuint
  split
  · exact hx
  · split
    · exact hx
    · omega

theorem natAbs_lt (x : BitVec 64) : x.toInt.natAbs < 2 ^ 64 := by
  have hx := x.isLt
  rw [BitVec.toInt_eq_toNat_cond]
  omega

theorem intText_nonneg (h : 0 ≤ n) : intText n = digitsText 10 n.toNat := by
  obtain ⟨m, rfl⟩ := Int.eq_ofNat_of_zero_le h
  have htext : (toString (m : Int)).toList = Nat.toDigits 10 m := Nat.toList_repr
  rw [intText, htext, Int.toNat_natCast, digitsText]

theorem intText_neg (h : n < 0) : intText n = ord '-' :: digitsText 10 (-n).toNat := by
  obtain ⟨m, rfl⟩ := Int.eq_negSucc_of_lt_zero h
  have htext : (toString (Int.negSucc m)).toList = '-' :: Nat.toDigits 10 (m + 1) := by
    show ("-" ++ Nat.repr (m + 1)).toList = _
    rw [String.toList_append, Nat.toList_repr]
    rfl
  rw [intText, htext, List.map_cons, show (-Int.negSucc m).toNat = m + 1 from rfl, digitsText]

theorem hexDigit_eq (h : m < 16) : hexDigit (int32 (m : Nat)) = some (ord m.digitChar) := by
  have hall : ∀ m < 16, hexDigit (int32 (m : Nat)) = some (ord m.digitChar) := by decide
  exact hall m h

namespace PrintEnv
variable (env : PrintEnv σ)

theorem putAll_append (l t : List (BitVec 8)) (out : σ) : env.putAll (l ++ t) out = env.putAll t (env.putAll l out) :=
  List.foldl_append ..

theorem putN_eq (ch : BitVec 8) (n : Nat) (out : σ) : env.putN ch n out = env.putAll (List.replicate n ch) out := by
  induction n generalizing out with
  | zero => rfl
  | succ n ih => exact ih _

/-- What `printnum` prints: the padding of what is left of the width behind the digits, and the digits. -/
theorem printnum_spec (hb : 1 < base) (hx : base ≤ 16) (hn : num < base ^ (fuel + 1)) (padc : BitVec 8) (width : Int)
    (out : σ) : env.printnum base padc (fuel + 1) num width out = some (env.putAll
      (List.replicate (int32 (width - (digitsText base num).length)).toNat padc ++ digitsText base num) out) := by
  induction fuel generalizing num width with
  | zero =>
    rw [Nat.zero_add, Nat.pow_one] at hn
    rw [printnum]
    dsimp only [doDiv]
    rw [if_neg (Nat.not_le.2 hn), Nat.mod_eq_of_lt hn, hexDigit_eq (Nat.lt_of_lt_of_le hn hx), digitsText_lt hn,
      putAll_append, putN_eq]
    rfl
  | succ fuel ih =>
    rw [printnum]
    dsimp only [doDiv]
    rw [hexDigit_eq (Nat.lt_of_lt_of_le (Nat.mod_lt _ (by omega)) hx)]
    by_cases hle : base ≤ num
    · have hdiv : num / base < base ^ (fuel + 1) := Nat.div_lt_of_lt_mul (by rwa [Nat.mul_comm, ← Nat.pow_succ])
      rw [if_pos hle, ih hdiv, digitsText_le hb hle, List.length_append, List.length_singleton, int32_sub,
        ← List.append_assoc, env.putAll_append (_ ++ _)]
      have hlen : width - 1 - ((digitsText base (num / base)).length : Int) =
          width - ((digitsText base (num / base)).length + 1 : Nat) := by omega
      rw [hlen]
      rfl
    · have hlt := Nat.not_le.1 hle
      rw [if_neg hle, digitsText_lt hlt, putAll_append, putN_eq, Nat.mod_eq_of_lt hlt]
      rfl

/-- A number of 64 bits, after the label `number`. -/
theorem number_spec (hb : 1 < base) (hx : base ≤ 16) (hn : num < 2 ^ 64) (e : Escape) (out : σ) :
    env.number num base e out = some (env.putAll
      (List.replicate (int32 (e.width - (digitsText base num).length)).toNat e.padc ++ digitsText base num) out) := by
  apply env.printnum_spec hb hx
  exact Nat.lt_of_lt_of_le hn (Nat.pow_le_pow_left hb 64)

end PrintEnv

end UCore
