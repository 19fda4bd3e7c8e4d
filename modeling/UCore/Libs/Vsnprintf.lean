import UCore.Libs.PrintSigned
import UCore.Libs.PrintSim

namespace UCore
set_option autoImplicit true
open Function (update)

/-- The pointer at an address, with the lowest byte first. -/
def loadPtr (f : Nat → Option (BitVec 8)) (a : Nat) : Nat → Option Nat
  | 0 => some 0
  | n + 1 => do
    let c ← f a
    (loadPtr f (addW a 1) n).map fun v => c.toNat + 256 * v

/-- `struct sprintbuf`, with the memory. -/
structure SprintBuf where
  mem : ByteMem
  buf : Nat
  ebuf : Nat
  cnt : Int

def sprintputch (ch : BitVec 32) (b : SprintBuf) : SprintBuf :=
  let b := { b with cnt := int32 (b.cnt + 1) }
  if b.buf < b.ebuf then { b with mem := update b.mem b.buf (ch.setWidth 8), buf := addW b.buf 1 } else b

/-- Printing into a buffer. The entry `error_string[INT_MIN]` would be at the address `below`. -/
def sprintEnv (below : Nat) : PrintEnv SprintBuf where
  fetch b := b.mem.read
  read b := b.mem.read
  below b := loadPtr b.mem.read below 8
  putch := sprintputch

def vsnprintf (below : Nat) (m : ByteMem) (str size fmt : Nat) (ap : Nat → BitVec 64) : Option (Int × ByteMem) :=
  let b : SprintBuf := ⟨m, str, subW (addW str size) 1, 0⟩
  if str = 0 ∨ b.buf > b.ebuf then some (-eInval, m)
  else do
    let b ← (sprintEnv below).vprintfmt fmt ap b
    some (b.cnt, update b.mem b.buf 0)

/-- Printing with a record of the characters. -/
def PrintEnv.traced (env : PrintEnv σ) : PrintEnv (σ × List (BitVec 32)) where
  fetch s := env.fetch s.1
  read s := env.read s.1
  below s := env.below s.1
  putch ch s := (env.putch ch s.1, s.2 ++ [ch])

/-- The characters that `vprintfmt` hands to `sprintputch`. -/
def Renders (below : Nat) (m : ByteMem) (str size fmt : Nat) (ap : Nat → BitVec 64) (r : List (BitVec 32)) : Prop :=
  ∃ b, (sprintEnv below).traced.vprintfmt fmt ap (⟨m, str, subW (addW str size) 1, 0⟩, []) = some (b, r)

/-- The memory without the buffer. -/
def ByteMem.hide (m : ByteMem) (str size x : Nat) : Option (BitVec 8) := if str ≤ x ∧ x < str + size then none else m.read x

/-- The buffer when the characters `l` have been printed. -/
structure SprintBuf.Holds (m : ByteMem) (str size : Nat) (l : List (BitVec 32)) (b : SprintBuf) : Prop where
  buf : b.buf = str + min l.length (size - 1)
  ebuf : b.ebuf = str + (size - 1)
  cnt : b.cnt = int32 l.length
  written : ∀ i c, i < size - 1 → l[i]? = some c → b.mem (str + i) = c.setWidth 8
  kept : ∀ x, x < str ∨ str + min l.length (size - 1) ≤ x → b.mem x = m x

section
variable {m : ByteMem} {str size fmt below : Nat} {l r : List (BitVec 32)} {b : SprintBuf} {ap : Nat → BitVec 64}

theorem SprintBuf.Holds.putch (h : b.Holds m str size l) (hfit : str + size ≤ 2 ^ 64) (ch : BitVec 32) :
    (sprintputch ch b).Holds m str size (l ++ [ch]) := by
  have hbuf := h.buf
  have hebuf := h.ebuf
  have hlen : (l ++ [ch]).length = l.length + 1 := List.length_append
  have hcnt : int32 (b.cnt + 1) = int32 ((l ++ [ch]).length : Nat) := by
    rw [h.cnt, hlen]
    exact Int.bmod_add_bmod
  unfold sprintputch
  dsimp only
  by_cases hlt : b.buf < b.ebuf
  · rw [if_pos hlt]
    refine ⟨?_, hebuf, hcnt, fun i c hi hc => ?_, fun x hx => ?_⟩
    · show addW b.buf 1 = _
      rw [hlen, hbuf, show addW (str + min l.length (size - 1)) 1 = _ from Nat.mod_eq_of_lt (by omega)]
      omega
    · by_cases hil : i < l.length
      · rw [List.getElem?_append_left hil] at hc
        exact (Function.update_of_ne (by omega) ..).trans (h.written i c hi hc)
      · obtain rfl : i = l.length := by
          have := (List.getElem?_eq_some_iff.1 hc).1
          omega
        rw [List.getElem?_concat_length] at hc
        rw [Option.some.inj hc, show str + l.length = b.buf by omega]
        exact Function.update_self ..
    · rw [hlen] at hx
      exact (Function.update_of_ne (by omega) ..).trans (h.kept x (by omega))
  · rw [if_neg hlt]
    refine ⟨?_, hebuf, hcnt, fun i c hi hc => ?_, fun x hx => ?_⟩
    · show b.buf = _
      rw [hlen]
      omega
    · rw [List.getElem?_append_left (by omega)] at hc
      exact h.written i c hi hc
    · rw [hlen] at hx
      exact h.kept x (by omega)

theorem SprintBuf.Holds.start (m : ByteMem) (hsize : 1 ≤ size) (hfit : str + size ≤ 2 ^ 64) :
    (SprintBuf.mk m str (subW (addW str size) 1) 0).Holds m str size [] := by
  refine ⟨?_, ?_, rfl, nofun, fun _ _ => rfl⟩
  · rw [List.length_nil, Nat.zero_min]
    rfl
  · show subW (addW str size) 1 = _
    unfold subW addW
    omega

/-- What is read outside the buffer is read in it too. -/
theorem loadPtr_refines (h : ∀ a, Refines Eq (f a) (g a)) (a n : Nat) : Refines Eq (loadPtr f a n) (loadPtr g a n) := by
  induction n generalizing a with
  | zero => exact .of_some rfl
  | succ n ih =>
    rw [loadPtr, loadPtr]
    apply (h a).bind
    intro c _ hc
    subst hc
    apply (ih _).map
    intro v _ hv
    rw [hv]

theorem SprintBuf.Holds.reads (h : b.Holds m str size l) (hsize : 1 ≤ size) (a : Nat) :
    Refines Eq (m.hide str size a) (b.mem.read a) := by
  unfold ByteMem.hide
  split
  · exact .of_none ..
  · rw [ByteMem.read, ByteMem.read, h.kept a (by omega)]
    exact .rfl

/-- Printing with the buffer hidden, and printing into the buffer with a record. -/
theorem hidden_sim (hsize : 1 ≤ size) (hfit : str + size ≤ 2 ^ 64) :
    PrintSim (recorder (m.hide str size) (m.hide str size) (loadPtr (m.hide str size) below 8)) (sprintEnv below).traced
      fun l s => s.2 = l ∧ s.1.Holds m str size l where
  fetch h a := h.2.reads hsize a
  read h a := h.2.reads hsize a
  below h := loadPtr_refines (h.2.reads hsize) _ _
  putch h ch := by
    obtain ⟨rfl, h⟩ := h
    exact ⟨rfl, h.putch hfit ch⟩

/-- The record changes nothing. -/
theorem traced_sim (hfit : str + size ≤ 2 ^ 64) :
    PrintSim (sprintEnv below).traced (sprintEnv below) fun s b => s.1 = b ∧ b.Holds m str size s.2 where
  fetch h a := by
    obtain ⟨rfl, -⟩ := h
    exact .rfl
  read h a := by
    obtain ⟨rfl, -⟩ := h
    exact .rfl
  below h := by
    obtain ⟨rfl, -⟩ := h
    exact .rfl
  putch h ch := by
    obtain ⟨rfl, h⟩ := h
    exact ⟨rfl, h.putch hfit ch⟩

/-- What is printed when the format and the strings are outside the buffer does not depend on the buffer. -/
theorem renders_hidden (hsize : 1 ≤ size) (hfit : str + size ≤ 2 ^ 64) (hr : (recorder (m.hide str size)
    (m.hide str size) (loadPtr (m.hide str size) below 8)).vprintfmt fmt ap [] = some r) :
    Renders below m str size fmt ap r := by
  have hstart := SprintBuf.Holds.start m hsize hfit
  obtain ⟨⟨b, l⟩, hb, hl, -⟩ :=
    ((hidden_sim hsize hfit).vprintfmt (s := []) (t := (_, [])) ⟨rfl, hstart⟩ fmt ap).run r hr
  obtain rfl : l = r := hl
  exact ⟨b, hb⟩

/-- The buffer that holds what has been printed, with a NUL behind it. -/
theorem vsnprintf_holds (hstr : str ≠ 0) (hsize : 1 ≤ size) (hfit : str + size ≤ 2 ^ 64)
    (hr : Renders below m str size fmt ap r) : ∃ b : SprintBuf, b.Holds m str size r ∧
      vsnprintf below m str size fmt ap = some (int32 r.length, update b.mem b.buf 0) := by
  have hstart := SprintBuf.Holds.start m hsize hfit
  obtain ⟨b, hb⟩ := hr
  obtain ⟨b', hb', hbb, h⟩ := ((traced_sim hfit).vprintfmt (s := (_, [])) ⟨rfl, hstart⟩ fmt ap).run (b, r) hb
  obtain rfl : b = b' := hbb
  have h : b.Holds m str size r := h
  have hroom : ¬ (str = 0 ∨ str > subW (addW str size) 1) := by
    have hebuf := hstart.ebuf
    dsimp only at hebuf
    omega
  refine ⟨b, h, ?_⟩
  unfold vsnprintf
  dsimp only
  rw [if_neg hroom, hb', ← h.cnt]
  rfl

/-- The text is cut to the buffer and ended with a NUL, and its length is returned as an `int`. -/
theorem vsnprintf_exact (hstr : str ≠ 0) (hsize : 1 ≤ size) (hfit : str + size ≤ 2 ^ 64) :
    (∀ r, (recorder (m.hide str size) (m.hide str size) (loadPtr (m.hide str size) below 8)).vprintfmt fmt ap [] = some r →
      Renders below m str size fmt ap r) ∧
    (∀ r, Renders below m str size fmt ap r →
      ∃ m', vsnprintf below m str size fmt ap = some (int32 r.length, m') ∧
        (∀ i c, i < size - 1 → r[i]? = some c → m' (str + i) = c.setWidth 8) ∧
        m' (str + min r.length (size - 1)) = 0 ∧
        ∀ x, x < str ∨ str + min r.length (size - 1) < x → m' x = m x) ∧
    vsnprintf below m str 0 fmt ap = some (-eInval, m) := by
  refine ⟨fun r hr => renders_hidden hsize hfit hr, fun r hr => ?_, ?_⟩
  · obtain ⟨b, h, hv⟩ := vsnprintf_holds hstr hsize hfit hr
    have hlast := h.buf
    refine ⟨_, hv, fun i c hi hc => ?_, ?_, fun x hx => ?_⟩
    · have hir := (List.getElem?_eq_some_iff.1 hc).1
      rw [Function.update_of_ne (by omega)]
      exact h.written i c hi hc
    · rw [← hlast]
      exact Function.update_self ..
    · rw [Function.update_of_ne (by omega)]
      exact h.kept x (by omega)
  · have hnone : str = 0 ∨ str > subW (addW str 0) 1 := by
      unfold subW addW
      omega
    exact if_pos hnone

end

/-- The format `%2147483647d`, at the address 16. -/
def wideMem : ByteMem := fun x => (textByte "%2147483647d" (x - 16)).getD 0

theorem vsnprintf_exact_small : ∃ m', vsnprintf 0 wideMem 1 4 17 (fun _ => 0) = some (11, m') ∧
    m' 1 = ord '2' ∧ m' 4 = 0 := by
  have hr : (recorder (wideMem.hide 1 4) (wideMem.hide 1 4) (loadPtr (wideMem.hide 1 4) 0 8)).vprintfmt 17 (fun _ => 0) [] =
      some ("2147483647d".toList.map fun c => (ord c).setWidth 32) := by
    decide +kernel
  have hren : Renders 0 wideMem 1 4 17 (fun _ => 0) _ := (vsnprintf_exact (by decide) (by decide) (by decide)).1 _ hr
  obtain ⟨m', hv, hw, hn, -⟩ := (vsnprintf_exact (by decide) (by decide) (by decide)).2.1 _ hren
  have hret : int32 (("2147483647d".toList.map fun c => (ord c).setWidth 32).length : Nat) = 11 := by decide
  rw [hret] at hv
  exact ⟨m', hv, hw 0 _ (by decide) rfl, hn⟩

/-- The text of `%2147483647d` with -1 is longer than an `int` can tell. -/
theorem vsnprintf_long : ∃ r, (recorder (wideMem.hide 1 1) (wideMem.hide 1 1) (loadPtr (wideMem.hide 1 1) 0 8)).vprintfmt 16
      (fun _ => -1) [] = some r ∧ r.length = 2 ^ 31 ∧
    ∀ m', vsnprintf 0 wideMem 1 1 16 (fun _ => -1) ≠ some ((r.length : Int), m') := by
  have h : CStr (wideMem.hide 1 1) 16 (signedFormat .none 2147483647 0) := by decide +kernel
  have hr : (recorder (wideMem.hide 1 1) (wideMem.hide 1 1) (loadPtr (wideMem.hide 1 1) 0 8)).vprintfmt 16 (fun _ => -1) [] =
      some ((Flag.none.printed 2147483647 (-1)).map (·.setWidth 32)) :=
    vprintfmt_signed h (by decide +kernel) (by decide) (by decide) (by decide)
  have hlen : (Flag.none.printed 2147483647 (-1)).length = 2 ^ 31 := by
    rw [Flag.printed, List.length_append, List.length_append, List.length_replicate]
    decide +kernel
  have hv := vsnprintf_holds (by decide) (by decide) (by decide) (renders_hidden (by decide) (by decide) hr)
  refine ⟨_, hr, by rw [List.length_map, hlen], fun m' hm => ?_⟩
  obtain ⟨b, -, hv⟩ := hv
  rw [hm, List.length_map, hlen] at hv
  have hret := (Prod.mk.inj (Option.some.inj hv)).1
  revert hret
  decide

end UCore
