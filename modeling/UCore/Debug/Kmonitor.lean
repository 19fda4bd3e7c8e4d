import UCore.Lib.CStr
import UCore.Lib.Words
import UCore.Mm.Mmu

namespace UCore
set_option autoImplicit true
open Function (update)

def maxArgs : Nat := 16

def whitespace : List (BitVec 8) := [ord ' ', ord '\t', ord '\n', ord '\r']

/-- `strchr`, by the place in the string. -/
def strchr (c : BitVec 8) : List (BitVec 8) → Option Nat
  | [] => none
  | d :: s => if d = c then some 0 else (strchr c s).map (· + 1)

/-- The number of rounds after which a loop along a line has been at every address. -/
def lineRounds : Nat := 2 ^ 64

/-- The loop of `parse` that overwrites whitespace. -/
def clearBlanks (m : ByteMem) (buf : Nat) : Nat → Option (ByteMem × Nat)
  | 0 => none
  | fuel + 1 =>
    if m buf ≠ 0 ∧ strchr (m buf) whitespace ≠ none then clearBlanks (update m buf 0) (addW buf 1) fuel
    else some (m, buf)

/-- The loop of `parse` that goes to the end of an argument. -/
def scanArg (m : ByteMem) (buf : Nat) : Nat → Option Nat
  | 0 => none
  | fuel + 1 =>
    if m buf ≠ 0 ∧ strchr (m buf) whitespace = none then scanArg m (addW buf 1) fuel else some buf

/-- What `parse` returns, what it has stored in `argv`, the memory, and what it has printed. -/
structure Parsed where
  argc : Nat
  argv : Nat → Option Nat
  mem : ByteMem
  said : List String

def parseLoop (m : ByteMem) (buf argc : Nat) (argv : Nat → Option Nat) (said : List String) : Nat → Option Parsed
  | 0 => none
  | fuel + 1 => do
    let (m, buf) ← clearBlanks m buf lineRounds
    if m buf = 0 then some ⟨argc, argv, m, said⟩
    else do
      let said := if argc = maxArgs - 1 then said ++ ["Too many arguments (max 16).\n"] else said
      let argv := update argv argc (some buf)
      let buf ← scanArg m buf lineRounds
      parseLoop m buf (argc + 1) argv said fuel

/-- `parse`. An entry of `argv` that has not been stored is `none`. -/
def parse (m : ByteMem) (buf : Nat) : Option Parsed := parseLoop m buf 0 (fun _ => none) [] lineRounds

def isBlank (c : BitVec 8) : Bool := whitespace.contains c

theorem strchr_none : strchr c s = none ↔ c ∉ s := by
  induction s with
  | nil => simp [strchr]
  | cons d s ih =>
    unfold strchr
    by_cases hd : d = c
    · simp [hd]
    · rw [if_neg hd, Option.map_eq_none_iff, ih, List.mem_cons, not_or]
      exact ⟨fun h => ⟨Ne.symm hd, h⟩, And.right⟩

theorem isBlank_iff : isBlank c = true ↔ strchr c whitespace ≠ none := by
  rw [isBlank, List.contains_iff_mem, ne_eq, strchr_none, not_not]

/-- The memory with the whitespace among the `n` bytes from `a` on overwritten. -/
def ByteMem.cleared (m : ByteMem) (a n : Nat) : ByteMem :=
  fun x => if a ≤ x ∧ x < a + n ∧ isBlank (m x) = true then 0 else m x

section
variable {m : ByteMem} {a n k : Nat} {s : List (BitVec 8)}

theorem cleared_zero (m : ByteMem) (a : Nat) : m.cleared a 0 = m := by
  funext x
  exact if_neg fun h => absurd h.2.1 (Nat.not_lt.2 h.1)

theorem cleared_outside (hx : x < a ∨ a + n ≤ x) : m.cleared a n x = m x := if_neg fun h => by omega

theorem isBlank_zero : isBlank 0 = false := by decide

/-- Two pieces that follow each other, with a piece without whitespace between them. -/
theorem cleared_cleared (hk : ∀ x, a + n ≤ x → x < a + n + k → isBlank (m x) = false) :
    (m.cleared a n).cleared (a + n + k) l = m.cleared a (n + k + l) := by
  funext x
  unfold ByteMem.cleared
  by_cases h : a ≤ x ∧ x < a + n ∧ isBlank (m x) = true
  · rw [if_pos h, if_neg (fun hc => by omega), if_pos ⟨h.1, by omega, h.2.2⟩]
  · rw [if_neg h]
    by_cases hb : isBlank (m x) = true
    · by_cases hx : a + n + k ≤ x ∧ x < a + n + k + l
      · rw [if_pos ⟨hx.1, hx.2, hb⟩, if_pos ⟨by omega, by omega, hb⟩]
      · rw [if_neg (fun hc => by omega), if_neg fun hc => ?_]
        by_cases hn : x < a + n
        · exact h ⟨hc.1, hn, hb⟩
        · have hno := hk x (by omega) (by omega)
          rw [hno] at hb
          cases hb
    · rw [if_neg fun hc => hb hc.2.2, if_neg fun hc => hb hc.2.2]

theorem CStr.byte_mem (h : CStr m.read a (s ++ t)) (hl : a ≤ x) (hx : x < a + s.length) : m x ∈ s := by
  obtain ⟨i, rfl⟩ := Nat.exists_eq_add_of_le hl
  obtain ⟨c, hc, hf, -⟩ := h.byte (Nat.lt_of_add_lt_add_left hx)
  rwa [Option.some.inj hf]

/-- The string behind a piece that has been overwritten. -/
theorem CStr.cleared (h : CStr m.read (a + n) s) : CStr (m.cleared a n).read (a + n) s :=
  h.congr fun _ h₁ _ => congrArg some (cleared_outside (.inr h₁))

theorem clearBlanks_spec (h : CStr m.read a s) (hb : a + s.length < 2 ^ 64) (hf : s.length < fuel) :
    clearBlanks m a fuel = some (m.cleared a (s.takeWhile isBlank).length, a + (s.takeWhile isBlank).length) := by
  induction fuel generalizing m a s with
  | zero => cases hf
  | succ fuel ih =>
    unfold clearBlanks
    cases s with
    | nil =>
      rw [if_neg fun hc => hc.1 (Option.some.inj h)]
      exact congrArg (fun m => some (m, a)) (cleared_zero m a).symm
    | cons c s =>
      have hc : m a = c := Option.some.inj h.1
      rw [List.length_cons] at hb hf
      cases hbl : isBlank c with
      | false =>
        rw [if_neg fun hc' => ?_, List.takeWhile_cons_of_neg (by simp [hbl])]
        · exact congrArg (fun m => some (m, a)) (cleared_zero m a).symm
        · have := isBlank_iff.2 hc'.2
          rw [hc, hbl] at this
          cases this
      | true =>
        have hcl : update m a 0 = m.cleared a 1 := by
          funext x
          unfold ByteMem.cleared
          by_cases hx : x = a
          · rw [hx, Function.update_self, hc, if_pos ⟨Nat.le_refl _, Nat.lt_succ_self _, hbl⟩]
          · rw [Function.update_of_ne hx, if_neg fun hc => by omega]
        rw [if_pos ⟨by rw [hc]; exact h.2.1, isBlank_iff.1 (hc ▸ hbl)⟩,
          show addW a 1 = a + 1 from Nat.mod_eq_of_lt (by omega), hcl, ih (CStr.cleared h.2.2) (by omega) (by omega),
          List.takeWhile_cons_of_pos hbl, List.length_cons]
        have hmem := cleared_cleared (m := m) (a := a) (n := 1) (k := 0) (l := (s.takeWhile isBlank).length) (by omega)
        rw [Nat.add_zero] at hmem
        rw [hmem, Nat.add_zero, Nat.add_assoc, Nat.add_comm 1]

theorem scanArg_spec (h : CStr m.read a s) (hb : a + s.length < 2 ^ 64) (hf : s.length < fuel) :
    scanArg m a fuel = some (a + (s.takeWhile fun c => !isBlank c).length) := by
  induction fuel generalizing a s with
  | zero => cases hf
  | succ fuel ih =>
    unfold scanArg
    cases s with
    | nil =>
      rw [if_neg fun hc => hc.1 (Option.some.inj h)]
      rfl
    | cons c s =>
      have hc : m a = c := Option.some.inj h.1
      rw [List.length_cons] at hb hf
      cases hbl : isBlank c with
      | true =>
        rw [if_neg fun hc' => ?_, List.takeWhile_cons_of_neg (by simp [hbl])]
        · rfl
        · exact isBlank_iff.1 (hc ▸ hbl) hc'.2
      | false =>
        have hno : strchr (m a) whitespace = none := by
          by_contra hn
          have := isBlank_iff.2 hn
          rw [hc, hbl] at this
          cases this
        rw [if_pos ⟨by rw [hc]; exact h.2.1, hno⟩, show addW a 1 = a + 1 from Nat.mod_eq_of_lt (by omega),
          ih h.2.2 (by omega) (by omega), List.takeWhile_cons_of_pos (by simp [hbl]), List.length_cons]
        congr 1
        omega

/-- The words `ws` have been stored from `argv[argc]` on, and nothing else has been stored. -/
structure Parsed.Stores (r : Parsed) (argc : Nat) (argv : Nat → Option Nat) (ws : List (Nat × List (BitVec 8))) :
    Prop where
  count : r.argc = argc + ws.length
  word : ∀ j b w, ws[j]? = some (b, w) → r.argv (argc + j) = some b
  other : ∀ i, i < argc ∨ argc + ws.length ≤ i → r.argv i = argv i

theorem Parsed.Stores.cons {r : Parsed} {g : Nat → Option Nat} (h : r.Stores (n + 1) (update g n (some b)) ws) :
    r.Stores n g ((b, w) :: ws) where
  count := by
    rw [h.count, List.length_cons]
    omega
  word j b' w' hj := by
    cases j with
    | zero =>
      obtain ⟨rfl, -⟩ := Prod.mk.inj (Option.some.inj hj)
      rw [Nat.add_zero, h.other n (.inl (Nat.lt_succ_self _)), Function.update_self]
    | succ j =>
      rw [← h.word j b' w' hj]
      congr 1
      omega
  other i hi := by
    rw [List.length_cons] at hi
    rw [h.other i (by omega), Function.update_of_ne (by omega)]

/-- `parse` stores all the words of the line, and overwrites all its whitespace. -/
theorem parseLoop_spec (h : CStr m.read a s) (hb : a + s.length < 2 ^ 64) (hf : s.length < fuel) (argc : Nat)
    (argv : Nat → Option Nat) (said : List String) :
    ∃ r, parseLoop m a argc argv said fuel = some r ∧ r.Stores argc argv (words isBlank a s) ∧
      r.mem = m.cleared a s.length := by
  induction fuel generalizing m a s argc argv said with
  | zero => cases hf
  | succ fuel ih =>
    have hsplit := List.takeWhile_append_dropWhile (p := isBlank) (l := s)
    have hlen := congrArg List.length hsplit
    rw [List.length_append] at hlen
    rw [words_dropWhile]
    generalize hbl : s.takeWhile isBlank = bl at hsplit hlen
    have hrest : CStr m.read (a + bl.length) (s.dropWhile isBlank) := (hsplit.symm ▸ h : CStr _ _ _).drop
    have hrounds : s.length < lineRounds := by
      unfold lineRounds
      omega
    have hclear := clearBlanks_spec h hb hrounds
    rw [hbl] at hclear
    unfold parseLoop
    rw [hclear]
    dsimp only [Option.bind_eq_bind, Option.bind_some]
    generalize hd : s.dropWhile isBlank = rest at hsplit hlen hrest
    cases rest with
    | nil =>
      have hnul : m.cleared a bl.length (a + bl.length) = 0 := by
        rw [cleared_outside (.inr (Nat.le_refl _))]
        exact Option.some.inj hrest
      rw [if_pos hnul, words_nil]
      refine ⟨_, rfl, ⟨rfl, nofun, fun _ _ => rfl⟩, ?_⟩
      rw [List.length_nil, Nat.add_zero] at hlen
      rw [hlen]
    | cons c t =>
      have hsolid : isBlank c = false := by
        rcases dropWhile_stops isBlank s with hn | ⟨c', t', hc', hno⟩
        · rw [hd] at hn
          cases hn
        · rw [hd] at hc'
          cases hc'
          exact hno
      have hrest' := CStr.cleared hrest
      rw [List.length_cons] at hlen
      have hne : m.cleared a bl.length (a + bl.length) ≠ 0 := by
        rw [Option.some.inj hrest'.1]
        exact hrest'.2.1
      rw [if_neg hne]
      have hround : (c :: t).length < lineRounds := by
        rw [List.length_cons]
        omega
      have hscan := scanArg_spec hrest' (by rw [List.length_cons]; omega) hround
      rw [List.takeWhile_cons_of_pos (by simp [hsolid]), List.length_cons] at hscan
      have hsplit' := List.takeWhile_append_dropWhile (p := fun c => !isBlank c) (l := t)
      have hlen' := congrArg List.length hsplit'
      rw [List.length_append] at hlen'
      have hword : ∀ d ∈ t.takeWhile (fun c => !isBlank c), isBlank d = false := fun d hd => by
        simpa using List.mem_takeWhile_imp hd
      rw [words_word hsolid]
      generalize t.takeWhile (fun c => !isBlank c) = w at hscan hsplit' hlen' hword
      generalize t.dropWhile (fun c => !isBlank c) = u at hsplit' hlen'
      rw [hscan]
      dsimp only [Option.bind_some]
      have htail : CStr (m.cleared a bl.length).read (a + bl.length + (w.length + 1)) u := by
        have hrest' := hrest'.2.2
        rw [← hsplit'] at hrest'
        have hdrop := hrest'.drop
        rwa [Nat.add_assoc, Nat.add_comm 1] at hdrop
      obtain ⟨r, hr, hst, hmem⟩ := ih htail (by omega) (by omega) (argc + 1) (update argv argc (some (a + bl.length)))
        (if argc = maxArgs - 1 then said ++ ["Too many arguments (max 16).\n"] else said)
      refine ⟨r, hr, ?_, ?_⟩
      · rw [show a + bl.length + 1 + w.length = a + bl.length + (w.length + 1) by omega]
        exact hst.cons
      · rw [hmem, cleared_cleared]
        · congr 1
          omega
        · intro x h₁ h₂
          have hx : m x ∈ c :: w := by
            have hcw : CStr m.read (a + bl.length) ((c :: w) ++ u) := by
              rw [List.cons_append, hsplit']
              exact hrest
            exact hcw.byte_mem h₁ (by rw [List.length_cons]; omega)
          rcases List.mem_cons.1 hx with hx | hx
          · rw [hx]
            exact hsolid
          · exact hword _ hx

/-- A word is a string of its own when the whitespace has been overwritten. -/
theorem CStr.word (h : CStr m.read b (w ++ post)) (hw : ∀ c ∈ w, isBlank c = false)
    (hpost : post = [] ∨ ∃ c t, post = c :: t ∧ isBlank c = true) (ha : a ≤ b)
    (hn : b + (w ++ post).length ≤ a + n) : CStr (m.cleared a n).read b w := by
  induction w generalizing b with
  | nil =>
    show some (m.cleared a n b) = some 0
    rcases hpost with rfl | ⟨c, t, rfl, hc⟩
    · have hz : m b = 0 := Option.some.inj h
      unfold ByteMem.cleared
      rw [hz, isBlank_zero, if_neg (by simp)]
    · have hb : m b = c := Option.some.inj h.1
      rw [List.nil_append, List.length_cons] at hn
      unfold ByteMem.cleared
      rw [hb, if_pos ⟨ha, by omega, hc⟩]
  | cons c w ih =>
    rw [List.cons_append, List.length_cons] at hn
    have hb : m b = c := Option.some.inj h.1
    refine ⟨?_, h.2.1, ih h.2.2 (fun d hd => hw d (List.mem_cons_of_mem _ hd)) (Nat.le_succ_of_le ha) (by omega)⟩
    show some (m.cleared a n b) = some c
    unfold ByteMem.cleared
    rw [hb, hw c List.mem_cons_self, if_neg (by simp)]

/-- `parse` stays in `argv`, and if the words of the line fit it returns their number, with each word in its place
as a string of its own. -/
def Parses (m : ByteMem) (buf : Nat) (line : List (BitVec 8)) : Prop :=
  ∃ r, parse m buf = some r ∧ (∀ i, maxArgs ≤ i → r.argv i = none) ∧
    ((words isBlank buf line).length ≤ maxArgs → r.argc = (words isBlank buf line).length ∧
      ∀ i b w, (words isBlank buf line)[i]? = some (b, w) → r.argv i = some b ∧ CStr r.mem.read b w)

/-- The test of `argc` prints a message only, so a line with more words than `argv` has room for is stored behind it. -/
theorem parses_iff (h : CStr m.read buf line) (hb : buf + line.length < 2 ^ 64) :
    Parses m buf line ↔ (words isBlank buf line).length ≤ maxArgs := by
  have hrounds : line.length < lineRounds := by
    unfold lineRounds
    omega
  obtain ⟨r, hr, hst, hmem⟩ := parseLoop_spec h hb hrounds 0 (fun _ => none) []
  constructor
  · rintro ⟨r', hr', hno, -⟩
    obtain rfl : r = r' := Option.some.inj (hr.symm.trans hr')
    by_contra hlt
    obtain ⟨⟨b, w⟩, hw⟩ : ∃ p, (words isBlank buf line)[maxArgs]? = some p :=
      ⟨_, List.getElem?_eq_getElem (Nat.lt_of_not_le hlt)⟩
    have hstored := hst.word maxArgs b w hw
    rw [Nat.zero_add, hno maxArgs (Nat.le_refl _)] at hstored
    cases hstored
  · intro hle
    refine ⟨r, hr, fun i hi => hst.other i (.inr (by omega)), fun _ => ⟨?_, fun i b w hw => ⟨?_, ?_⟩⟩⟩
    · rw [hst.count, Nat.zero_add]
    · have hword := hst.word i b w hw
      rwa [Nat.zero_add] at hword
    · have hat : WordAt isBlank buf line b w := words_at buf line (b, w) (List.mem_of_getElem? hw)
      obtain ⟨pre, post, rfl, rfl, hpost⟩ := hat.place
      rw [hmem]
      refine CStr.word h.drop hat.solid hpost (Nat.le_add_right ..) ?_
      rw [Nat.add_assoc, ← List.length_append]

end

/-- A line of so many words of one letter. -/
def letters (n : Nat) : List (BitVec 8) := (List.replicate n [ord 'a', ord ' ']).flatten

theorem textMem_cstr (s t : List (BitVec 8)) (hs : ∀ c ∈ s, c ≠ 0) : CStr (textMem (t ++ s)).read t.length s := by
  induction s generalizing t with
  | nil => simp [CStr, ByteMem.read, textMem]
  | cons c s ih =>
    refine ⟨by simp [ByteMem.read, textMem], hs c List.mem_cons_self, ?_⟩
    have h := ih (t ++ [c]) fun d hd => hs d (List.mem_cons_of_mem _ hd)
    rw [List.append_assoc] at h
    simpa using h

theorem words_letters (n a : Nat) : (words isBlank a (letters n)).length = n := by
  induction n generalizing a with
  | zero => rw [letters, List.replicate_zero, List.flatten_nil, words_nil]; rfl
  | succ n ih =>
    have hl : letters (n + 1) = ord 'a' :: ord ' ' :: letters n := rfl
    rw [hl, words_word (by decide), List.takeWhile_cons_of_neg (by decide), List.dropWhile_cons_of_neg (by decide),
      words_blank (by decide), List.length_cons, ih]

theorem letters_ne (n : Nat) : ∀ c ∈ letters n, c ≠ 0 := by
  intro c hc
  obtain ⟨l, hl, hc⟩ := List.mem_flatten.1 hc
  rw [List.eq_of_mem_replicate hl] at hc
  have hne : ∀ c ∈ [ord 'a', ord ' '], c ≠ 0 := by decide
  exact hne c hc

theorem parses_iff_letters : Parses (textMem (letters 16)) 0 (letters 16) :=
  (parses_iff (textMem_cstr (letters 16) [] (letters_ne 16)) (by decide)).2 (Nat.le_of_eq (words_letters 16 0))

/-- A line of 17 words. -/
theorem parses_not_letters : CStr (textMem (letters 17)).read 0 (letters 17) ∧
    ¬ Parses (textMem (letters 17)) 0 (letters 17) := by
  have h := textMem_cstr (letters 17) [] (letters_ne 17)
  refine ⟨h, ?_⟩
  rintro ⟨r, hr, hno, -⟩
  have hrounds : (letters 17).length < lineRounds := by decide
  obtain ⟨r', hr', hst, -⟩ := parseLoop_spec h (by decide) hrounds 0 (fun _ => none) []
  obtain rfl : r' = r := Option.some.inj (hr'.symm.trans hr)
  have hlen := words_letters 17 ([] : List (BitVec 8)).length
  obtain ⟨⟨b, w⟩, hw⟩ : ∃ p, (words isBlank 0 (letters 17))[16]? = some p :=
    ⟨_, List.getElem?_eq_getElem (by rw [show (words isBlank 0 (letters 17)).length = 17 from hlen]; decide)⟩
  have hstored := hst.word 16 b w hw
  rw [Nat.zero_add, hno 16 (Nat.le_refl _)] at hstored
  cases hstored

end UCore
