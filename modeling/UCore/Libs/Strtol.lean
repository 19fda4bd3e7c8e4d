import Mathlib.Data.List.TakeWhile
import UCore.Lib.CStr
import UCore.Mm.Mmu

namespace UCore
set_option autoImplicit true

/-- The number of rounds after which a loop along a string has been at every address. -/
def strRounds : Nat := 2 ^ 64

/-- The `dig` of a character, in the loop of `strtol`. -/
def strtolDig (c : BitVec 8) : Option Nat :=
  if ord '0' ≤ c ∧ c ≤ ord '9' then some (c - ord '0').toNat
  else if ord 'a' ≤ c ∧ c ≤ ord 'z' then some ((c - ord 'a').toNat + 10)
  else if ord 'A' ≤ c ∧ c ≤ ord 'Z' then some ((c - ord 'A').toNat + 10)
  else none

namespace ByteMem

def strtolBlanks (m : ByteMem) (s : Nat) : Nat → Option Nat
  | 0 => none
  | fuel + 1 => if m s = ord ' ' ∨ m s = ord '\t' then strtolBlanks m (addW s 1) fuel else some s

/-- The loop over the digits, with `val` and `s`. -/
def strtolDigits (m : ByteMem) (base : Int) (s : Nat) (val : BitVec 64) : Nat → Option (BitVec 64 × Nat)
  | 0 => none
  | fuel + 1 =>
    match strtolDig (m s) with
    | none => some (val, s)
    | some dig =>
      if (dig : Int) ≥ base then some (val, s)
      else strtolDigits m base (addW s 1) (val * .ofInt 64 base + .ofNat 64 dig) fuel

/-- `strtol`: the value that it returns, and what it stores in `*endptr`. -/
def strtol (m : ByteMem) (s endptr : Nat) (base : Int) : Option (BitVec 64 × Option Nat) := do
  let s ← m.strtolBlanks s strRounds
  let (s, neg) :=
    if m s = ord '+' then (addW s 1, false)
    else if m s = ord '-' then (addW s 1, true)
    else (s, false)
  let (s, base) :=
    if (base = 0 ∨ base = 16) ∧ (m s = ord '0' ∧ m (addW s 1) = ord 'x') then (addW s 2, 16)
    else if base = 0 ∧ m s = ord '0' then (addW s 1, 8)
    else if base = 0 then (s, 10)
    else (s, base)
  let (val, s) ← m.strtolDigits base s 0 strRounds
  some (if neg then -val else val, if endptr ≠ 0 then some s else none)

end ByteMem

/-- The characters that `strtol` takes for blanks. -/
def isSpace (c : BitVec 8) : Bool := c = ord ' ' ∨ c = ord '\t'

/-- An optional sign: whether it is a minus, and what follows. -/
def longSign : List (BitVec 8) → Bool × List (BitVec 8)
  | [] => (false, [])
  | c :: s => if c = ord '+' then (false, s) else if c = ord '-' then (true, s) else (false, c :: s)

/-- An optional prefix: the base, and what follows. After the zero of a hexadecimal number one of `marks` stands. -/
def longPrefix (marks : List (BitVec 8)) (base : Nat) : List (BitVec 8) → Nat × List (BitVec 8)
  | [] => (if base = 0 then 10 else base, [])
  | c :: s =>
    if (base = 0 ∨ base = 16) ∧ c = ord '0' ∧ ∃ x ∈ s.head?, x ∈ marks then (16, s.tail)
    else if base = 0 ∧ c = ord '0' then (8, s)
    else (if base = 0 then 10 else base, c :: s)

def isDigitOf (base : Nat) (c : BitVec 8) : Bool := (strtolDig c).any (· < base)

/-- The number that digits stand for, the first of them the most significant. -/
def digitsValue (base : Nat) (s : List (BitVec 8)) : Nat :=
  s.foldl (fun v c => v * base + (strtolDig c).getD 0) 0

/-- The value of the text of a number and what follows it. -/
def longText (marks : List (BitVec 8)) (base : Nat) (s : List (BitVec 8)) : Int × List (BitVec 8) :=
  let (neg, s) := longSign (s.dropWhile isSpace)
  let (base, s) := longPrefix marks base s
  let val : Int := digitsValue base (s.takeWhile (isDigitOf base))
  (if neg then -val else val, s.dropWhile (isDigitOf base))

section
variable {m : ByteMem} {a : Nat} {s : List (BitVec 8)}

theorem CStr.head (h : CStr m.read a s) : m a = s.headD 0 := by
  cases s with
  | nil => exact Option.some.inj h
  | cons c s => exact Option.some.inj h.1

theorem strtolBlanks_spec (h : CStr m.read a s) (hb : a + s.length < 2 ^ 64) (hf : s.length < fuel) :
    m.strtolBlanks a fuel = some (a + (s.takeWhile isSpace).length) := by
  induction fuel generalizing a s with
  | zero => cases hf
  | succ fuel ih =>
    unfold ByteMem.strtolBlanks
    rw [h.head]
    cases s with
    | nil => rfl
    | cons c s =>
      rw [List.length_cons] at hb hf
      rw [List.headD_cons]
      by_cases hc : c = ord ' ' ∨ c = ord '\t'
      · have hsp : isSpace c = true := decide_eq_true hc
        rw [if_pos hc, show addW a 1 = a + 1 from Nat.mod_eq_of_lt (by omega), ih h.2.2 (by omega) (by omega),
          List.takeWhile_cons_of_pos hsp, List.length_cons, Nat.add_assoc, Nat.add_comm 1]
      · have hsp : ¬ isSpace c = true := mt of_decide_eq_true hc
        rw [if_neg hc, List.takeWhile_cons_of_neg hsp]
        rfl

theorem strtolDigits_spec (base : Nat) (h : CStr m.read a s) (hb : a + s.length < 2 ^ 64) (hf : s.length < fuel)
    (v : Nat) : m.strtolDigits base a (.ofNat 64 v) fuel =
      some (.ofNat 64 ((s.takeWhile (isDigitOf base)).foldl (fun v c => v * base + (strtolDig c).getD 0) v),
        a + (s.takeWhile (isDigitOf base)).length) := by
  induction fuel generalizing a s v with
  | zero => cases hf
  | succ fuel ih =>
    unfold ByteMem.strtolDigits
    rw [h.head]
    cases s with
    | nil => rfl
    | cons c s =>
      rw [List.length_cons] at hb hf
      rw [List.headD_cons]
      cases hd : strtolDig c with
      | none =>
        have hno : ¬ isDigitOf base c = true := by simp [isDigitOf, hd]
        rw [List.takeWhile_cons_of_neg hno]
        rfl
      | some dig =>
        dsimp only
        by_cases hlt : dig < base
        · have hyes : isDigitOf base c = true := by simp [isDigitOf, hd, hlt]
          rw [if_neg (by omega), List.takeWhile_cons_of_pos hyes, List.foldl_cons, List.length_cons, hd,
            show addW a 1 = a + 1 from Nat.mod_eq_of_lt (by omega), BitVec.ofInt_natCast,
            BitVec.ofNat_mul_ofNat, BitVec.ofNat_add_ofNat, ih h.2.2 (by omega) (by omega), Option.getD_some]
          congr 2
          omega
        · have hno : ¬ isDigitOf base c = true := by simp [isDigitOf, hd, hlt]
          rw [if_pos (by omega), List.takeWhile_cons_of_neg hno]
          rfl

/-- A rest of the string, at its place. -/
structure RestAt (m : ByteMem) (a : Nat) (s : List (BitVec 8)) (b : Nat) (t : List (BitVec 8)) : Prop where
  str : CStr m.read b t
  place : b + t.length = a + s.length
  start : a ≤ b

theorem RestAt.drop (h : RestAt m a s b (t ++ u)) : RestAt m a s (b + t.length) u := by
  refine ⟨h.str.drop, ?_, Nat.le_add_right_of_le h.start⟩
  rw [← h.place, List.length_append, Nat.add_assoc]

theorem RestAt.tail (h : RestAt m a s b (c :: t)) (hb : a + s.length < 2 ^ 64) : RestAt m a s (addW b 1) t := by
  have hp := h.place
  rw [List.length_cons] at hp
  rw [show addW b 1 = b + 1 from Nat.mod_eq_of_lt (by omega)]
  exact RestAt.drop (t := [c]) h

theorem RestAt.dropWhile (h : RestAt m a s b t) (p : BitVec 8 → Bool) :
    RestAt m a s (b + (t.takeWhile p).length) (t.dropWhile p) := by
  refine RestAt.drop (t := t.takeWhile p) ?_
  rwa [List.takeWhile_append_dropWhile]

theorem strtolSign_spec (h : RestAt m a s b t) (hb : a + s.length < 2 ^ 64) : ∃ b',
    (if m b = ord '+' then (addW b 1, false) else if m b = ord '-' then (addW b 1, true) else (b, false)) =
      (b', (longSign t).1) ∧ RestAt m a s b' (longSign t).2 := by
  rw [h.str.head]
  cases t with
  | nil => exact ⟨b, rfl, h⟩
  | cons c t =>
    rw [List.headD_cons, longSign]
    by_cases hp : c = ord '+'
    · rw [if_pos hp, if_pos hp]
      exact ⟨_, rfl, h.tail hb⟩
    · rw [if_neg hp, if_neg hp]
      by_cases hm : c = ord '-'
      · rw [if_pos hm, if_pos hm]
        exact ⟨_, rfl, h.tail hb⟩
      · rw [if_neg hm, if_neg hm]
        exact ⟨_, rfl, h⟩

theorem strtolPrefix_spec (base : Nat) (h : RestAt m a s b t) (hb : a + s.length < 2 ^ 64) : ∃ b',
    (if ((base : Int) = 0 ∨ (base : Int) = 16) ∧ (m b = ord '0' ∧ m (addW b 1) = ord 'x') then (addW b 2, (16 : Int))
      else if (base : Int) = 0 ∧ m b = ord '0' then (addW b 1, 8)
      else if (base : Int) = 0 then (b, 10)
      else (b, (base : Int))) =
      (b', ((longPrefix [ord 'x'] base t).1 : Int)) ∧ RestAt m a s b' (longPrefix [ord 'x'] base t).2 := by
  have hz : (base : Int) = 0 ↔ base = 0 := by omega
  have hx : (base : Int) = 16 ↔ base = 16 := by omega
  simp only [hz, hx]
  cases t with
  | nil =>
    have hno : m b ≠ ord '0' := by
      rw [h.str.head]
      decide
    rw [if_neg fun hc => hno hc.2.1, if_neg fun hc => hno hc.2, longPrefix]
    by_cases h0 : base = 0
    · rw [if_pos h0, if_pos h0]
      exact ⟨b, rfl, h⟩
    · rw [if_neg h0, if_neg h0]
      exact ⟨b, rfl, h⟩
  | cons c t =>
    have hmark : m (addW b 1) = ord 'x' ↔ ∃ x ∈ t.head?, x ∈ [ord 'x'] := by
      rw [(h.tail hb).str.head]
      cases t with
      | nil => simp [ord]
      | cons d t => simp
    rw [show m b = c from h.str.head]
    simp only [hmark]
    rw [longPrefix]
    by_cases hpre : (base = 0 ∨ base = 16) ∧ c = ord '0' ∧ ∃ x ∈ t.head?, x ∈ [ord 'x']
    · rw [if_pos hpre, if_pos hpre]
      refine ⟨_, rfl, ?_⟩
      obtain ⟨-, -, x, hxt, -⟩ := hpre
      obtain ⟨t, rfl⟩ : ∃ u, t = x :: u := by
        cases t with
        | nil => cases hxt
        | cons d t => exact ⟨t, by rw [Option.some.inj hxt]⟩
      have htwo := (h.tail hb).tail hb
      rwa [show addW (addW b 1) 1 = addW b 2 by unfold addW; omega] at htwo
    · rw [if_neg hpre, if_neg hpre]
      by_cases hoct : base = 0 ∧ c = ord '0'
      · rw [if_pos hoct, if_pos hoct]
        exact ⟨_, rfl, h.tail hb⟩
      · rw [if_neg hoct, if_neg hoct]
        by_cases h0 : base = 0
        · rw [if_pos h0, if_pos h0]
          exact ⟨_, rfl, h⟩
        · rw [if_neg h0, if_neg h0]
          exact ⟨_, rfl, h⟩

/-- `strtol` in terms of lists: the only mark that it knows is the small letter. -/
theorem strtol_spec (base : Nat) (h : CStr m.read a s) (hb : a + s.length < 2 ^ 64) (he : endptr ≠ 0) :
    ∃ stop, m.strtol a endptr base = some (.ofInt 64 (longText [ord 'x'] base s).1, some stop) ∧
      stop + (longText [ord 'x'] base s).2.length = a + s.length ∧ a ≤ stop := by
  have hrounds {b : Nat} {t : List (BitVec 8)} (hr : RestAt m a s b t) : b + t.length < 2 ^ 64 ∧ t.length < strRounds := by
    have hp := hr.place
    unfold strRounds
    omega
  have hblank : RestAt m a s (a + (s.takeWhile isSpace).length) (s.dropWhile isSpace) :=
    RestAt.dropWhile ⟨h, rfl, Nat.le_refl _⟩ isSpace
  unfold ByteMem.strtol
  rw [strtolBlanks_spec h hb (by unfold strRounds; omega)]
  dsimp only [Option.bind_eq_bind, Option.bind_some]
  obtain ⟨b₁, hsign, h₁⟩ := strtolSign_spec hblank hb
  rw [hsign]
  dsimp only
  obtain ⟨b₂, hpre, h₂⟩ := strtolPrefix_spec base h₁ hb
  rw [hpre]
  dsimp only
  have hdig := strtolDigits_spec (longPrefix [ord 'x'] base (longSign (s.dropWhile isSpace)).2).1 h₂.str (hrounds h₂).1
    (hrounds h₂).2 0
  rw [show BitVec.ofNat 64 0 = (0 : BitVec 64) from rfl] at hdig
  rw [hdig, Option.bind_some, if_pos he]
  have hval (neg : Bool) (v : Nat) : (if neg = true then -BitVec.ofNat 64 v else BitVec.ofNat 64 v) =
      BitVec.ofInt 64 (if neg = true then -(v : Int) else v) := by
    cases neg with
    | false => exact (BitVec.ofInt_natCast ..).symm
    | true => rw [if_pos rfl, if_pos rfl, BitVec.ofInt_neg, BitVec.ofInt_natCast]
  rw [hval]
  have hrest := h₂.dropWhile (isDigitOf (longPrefix [ord 'x'] base (longSign (s.dropWhile isSpace)).2).1)
  exact ⟨_, rfl, hrest.place, hrest.start⟩

/-- A hexadecimal prefix with a capital letter. -/
def CapitalPrefix (base : Nat) (s : List (BitVec 8)) : Prop :=
  (base = 0 ∨ base = 16) ∧ ∃ t, s = ord '0' :: ord 'X' :: t

theorem longPrefix_eq (h : ¬ CapitalPrefix base s) :
    longPrefix [ord 'x'] base s = longPrefix [ord 'x', ord 'X'] base s := by
  cases s with
  | nil => rfl
  | cons c s =>
    have hiff : ((base = 0 ∨ base = 16) ∧ c = ord '0' ∧ ∃ x ∈ s.head?, x ∈ [ord 'x']) ↔
        (base = 0 ∨ base = 16) ∧ c = ord '0' ∧ ∃ x ∈ s.head?, x ∈ [ord 'x', ord 'X'] := by
      refine and_congr_right fun hbase => and_congr_right fun hc => exists_congr fun x => and_congr_right fun hx => ?_
      rw [List.mem_cons (a := x) (b := ord 'x') (l := [ord 'X']), List.mem_singleton, List.mem_singleton]
      refine (or_iff_left fun hcap => h ⟨hbase, s.tail, ?_⟩).symm
      rw [hc, ← hcap]
      exact congrArg _ (List.cons_head?_tail hx).symm
    unfold longPrefix
    simp only [hiff]

/-- What the code leaves of a number with a capital prefix, and what the grammar leaves. -/
theorem capital_rest (h : CapitalPrefix base (longSign (s.dropWhile isSpace)).2) :
    (longText [ord 'x', ord 'X'] base s).2.length < (longText [ord 'x'] base s).2.length := by
  obtain ⟨hbase, t, ht⟩ := h
  have hdoc : (longText [ord 'x', ord 'X'] base s).2 = t.dropWhile (isDigitOf 16) := by
    unfold longText
    dsimp only
    rw [ht, longPrefix, if_pos ⟨hbase, rfl, ord 'X', rfl, by simp⟩]
    rfl
  have hcode : (longText [ord 'x'] base s).2 = ord 'X' :: t := by
    unfold longText
    dsimp only
    rw [ht, longPrefix, if_neg (fun hc => by obtain ⟨x, hx, hm⟩ := hc.2.2; cases hx; revert hm; decide)]
    rcases hbase with rfl | rfl
    · have hcap : ¬ isDigitOf 8 (ord 'X') = true := by decide
      rw [if_pos ⟨rfl, rfl⟩]
      exact List.dropWhile_cons_of_neg hcap
    · have hzero : isDigitOf 16 (ord '0') = true := by decide
      have hcap : ¬ isDigitOf 16 (ord 'X') = true := by decide
      rw [if_neg (by decide), if_neg (by decide)]
      exact (List.dropWhile_cons_of_pos hzero).trans (List.dropWhile_cons_of_neg hcap)
  rw [hdoc, hcode, List.length_cons]
  exact Nat.lt_succ_of_le (List.length_dropWhile_le ..)

/-- `strtol` follows its grammar, unless the prefix is written with a capital letter. -/
theorem strtol_iff (h : CStr m.read a s) (hb : a + s.length < 2 ^ 64) (he : endptr ≠ 0) (base : Nat) :
    m.strtol a endptr base = some (.ofInt 64 (longText [ord 'x', ord 'X'] base s).1,
        some (a + (s.length - (longText [ord 'x', ord 'X'] base s).2.length))) ↔
      ¬ CapitalPrefix base (longSign (s.dropWhile isSpace)).2 := by
  obtain ⟨stop, hr, hplace, hstart⟩ := strtol_spec base h hb he
  constructor
  · intro hdoc hcap
    have hlt := capital_rest hcap
    have hstop := (Option.some.inj (hr.symm.trans hdoc))
    have := Option.some.inj (congrArg Prod.snd hstop)
    omega
  · intro hno
    have htext : longText [ord 'x', ord 'X'] base s = longText [ord 'x'] base s := by
      unfold longText
      dsimp only
      rw [longPrefix_eq hno]
    rw [htext, hr]
    congr 3
    omega

end

/-- The text `0X1F`. -/
def capitalText : List (BitVec 8) := [ord '0', ord 'X', ord '1', ord 'F']

theorem strtol_iff_small : (textMem [ord '-', ord '0', ord 'x', ord 'f']).strtol 0 8 0 = some (.ofInt 64 (-15), some 4) := by
  have h : CStr (textMem [ord '-', ord '0', ord 'x', ord 'f']).read 0 [ord '-', ord '0', ord 'x', ord 'f'] := by decide
  refine (strtol_iff h (by decide) (by decide) 0).2 ?_
  rintro ⟨-, t, ht⟩
  have hx : some (ord 'x') = some (ord 'X') := congrArg (fun l => l[1]?) ht
  exact absurd hx (by decide)

/-- In base 16 the code takes the zero for the number. -/
theorem strtol_capital : CStr (textMem capitalText).read 0 capitalText ∧
    (textMem capitalText).strtol 0 8 16 = some (0, some 1) ∧
    (textMem capitalText).strtol 0 8 16 ≠ some (.ofInt 64 (longText [ord 'x', ord 'X'] 16 capitalText).1,
      some (0 + (capitalText.length - (longText [ord 'x', ord 'X'] 16 capitalText).2.length))) :=
  ⟨by decide, by decide, by decide⟩

end UCore
