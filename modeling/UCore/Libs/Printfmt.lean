import UCore.Lib.CStr
import UCore.Libs.Error
import UCore.Mm.Mmu

namespace UCore
set_option autoImplicit true

/-- An `int` keeps a number modulo `2 ^ 32`. -/
def int32 (x : Int) : Int := x.bmod (2 ^ 32)

def maxError : Int := 24

/-- `error_string`, with `MAXERROR + 1` entries. -/
def errorString : List (Option String) :=
  [none, some "unspecified error", some "bad process", some "invalid parameter", some "out of memory",
    some "out of processes", some "segmentation fault", none, some "invalid elf file", some "process is killed",
    some "panic failure"] ++ List.replicate 14 none

/-- The bytes of a literal, with a NUL behind them. -/
def textByte (s : String) (i : Nat) : Option (BitVec 8) := (s.toList.map ord ++ [0])[i]?

/-- What `vprintfmt` works with: how it reads the format and the strings, what is in memory where
`error_string[INT_MIN]` would be, and what `putch` does to `putdat` and to all that it can reach. -/
structure PrintEnv (σ : Type) where
  fetch : σ → Nat → Option (BitVec 8)
  read : σ → Nat → Option (BitVec 8)
  below : σ → Option Nat
  putch : BitVec 32 → σ → σ

/-- The flags and numbers between the percent sign and the letter. -/
structure Escape where
  padc : BitVec 8
  width : Int
  precision : Int
  lflag : Int
  altflag : Bool
  deriving DecidableEq, Repr

def Escape.start : Escape := ⟨ord ' ', -1, -1, 0, false⟩

/-- The code at the label `process_precision`. -/
def Escape.process (e : Escape) (precision : Int) : Escape :=
  if e.width < 0 then { e with width := precision, precision := -1 } else { e with precision := precision }

/-- The cases of the switch. -/
inductive Case where
  | minus | zero | digit | star | dot | sharp | long
  | char | error | string | decimal | unsigned | octal | pointer | hex | percent | default
  deriving DecidableEq, Repr

def caseOf (ch : BitVec 8) : Case :=
  if ch = ord '-' then .minus
  else if ch = ord '0' then .zero
  else if ord '1' ≤ ch ∧ ch ≤ ord '9' then .digit
  else if ch = ord '*' then .star
  else if ch = ord '.' then .dot
  else if ch = ord '#' then .sharp
  else if ch = ord 'l' then .long
  else if ch = ord 'c' then .char
  else if ch = ord 'e' then .error
  else if ch = ord 's' then .string
  else if ch = ord 'd' then .decimal
  else if ch = ord 'u' then .unsigned
  else if ch = ord 'o' then .octal
  else if ch = ord 'p' then .pointer
  else if ch = ord 'x' then .hex
  else if ch = ord '%' then .percent
  else .default

/-- Where `vprintfmt` is: the format, the slots of the arguments that are left, and the output. -/
structure PrintState (σ : Type) where
  fmt : Nat
  ap : Nat → BitVec 64
  out : σ

namespace PrintState
variable {σ : Type}

/-- The slot that `va_arg` takes. -/
def arg (s : PrintState σ) : BitVec 64 := s.ap 0

def next (s : PrintState σ) : PrintState σ := { s with ap := fun i => s.ap (i + 1) }

end PrintState

/-- The number of rounds after which a loop along the format or a string has been at every address. -/
def printRounds : Nat := 2 ^ 64

def doDiv (n base : Nat) : Int × Nat := (int32 (n % base : Nat), n / base)

def hexDigit (mod : Int) : Option (BitVec 8) := ("0123456789abcdef".toList.map ord)[mod.toNat]?

def getuint (x : BitVec 64) (lflag : Int) : Nat :=
  if lflag ≥ 2 then x.toNat else if lflag ≠ 0 then x.toNat else (x.setWidth 32).toNat

def getint (x : BitVec 64) (lflag : Int) : BitVec 64 :=
  if lflag ≥ 2 then x else if lflag ≠ 0 then x else (x.setWidth 32).signExtend 64

def strnlen (f : Nat → Option (BitVec 8)) (s : Nat) : Nat → Option Nat
  | 0 => some 0
  | len + 1 => do
    let c ← f s
    if c = 0 then some 0 else (strnlen f (addW s 1) len).map (· + 1)

/-- The loop over the digits of a number, with `precision` and `fmt`. -/
def scanNumber (f : Nat → Option (BitVec 8)) (fmt : Nat) (ch : BitVec 8) (precision : Int) : Nat → Option (Int × Nat)
  | 0 => none
  | fuel + 1 => do
    let precision := int32 (precision * 10 + ch.toNat - (ord '0').toNat)
    let ch ← f fmt
    if ch < ord '0' ∨ ch > ord '9' then some (precision, fmt) else scanNumber f (fmt + 1) ch precision fuel

/-- The loop of the default case that goes back to the percent sign. -/
def rewind (f : Nat → Option (BitVec 8)) : Nat → Option Nat
  | 0 => none
  | fmt + 1 => do
    let ch ← f fmt
    if ch = ord '%' then some (fmt + 1) else rewind f fmt

namespace PrintEnv
variable {σ : Type} (env : PrintEnv σ)

/-- Print a character so many times. -/
def putN (ch : BitVec 8) : Nat → σ → σ
  | 0, out => out
  | n + 1, out => putN ch n (env.putch (ch.setWidth 32) out)

/-- `printnum`. The loop in front of the first digit runs while `-- width > 0`. -/
def printnum (base : Nat) (padc : BitVec 8) : Nat → Nat → Int → σ → Option σ
  | 0, _, _, _ => none
  | fuel + 1, num, width, out => do
    let (mod, result) := doDiv num base
    let out ← (if num ≥ base then printnum base padc fuel result (int32 (width - 1)) out
      else some (env.putN padc (int32 (width - 1)).toNat out))
    let ch ← hexDigit mod
    some (env.putch (ch.setWidth 32) out)

/-- The loop over the characters of a string, with `width`. -/
def putStr (src : σ → Nat → Option (BitVec 8)) (altflag : Bool) (p : Nat) (precision width : Int) (out : σ) :
    Nat → Option (Int × σ)
  | 0 => none
  | fuel + 1 => do
    let ch ← src out p
    if ch = 0 then some (width, out)
    else
      let left := if precision < 0 then precision else int32 (precision - 1)
      if precision < 0 ∨ left ≥ 0 then
        let ch := if altflag ∧ (ch < ord ' ' ∨ ch > ord '~') then ord '?' else ch
        putStr src altflag (addW p 1) left (int32 (width - 1)) (env.putch (ch.setWidth 32) out) fuel
      else some (width, out)

/-- The case for a string, read by `src` from `p` on. -/
def putString (src : σ → Nat → Option (BitVec 8)) (p : Nat) (e : Escape) (out : σ) : Option σ := do
  let (width, out) ← (if e.width > 0 ∧ e.padc ≠ ord '-' then do
      let cnt ← strnlen (src out) p (e.precision % 2 ^ 64).toNat
      let width := int32 (e.width - cnt)
      some (min width 0, env.putN e.padc width.toNat out)
    else some (e.width, out))
  let (width, out) ← env.putStr src e.altflag p e.precision width out printRounds
  some (env.putN (ord ' ') width.toNat out)

/-- The code at the label `number`. A number of 64 bits has at most 64 digits. -/
def number (num base : Nat) (e : Escape) (out : σ) : Option σ := env.printnum base e.padc 64 num e.width out

/-- The cases of the switch that end the escape sequence. -/
def convert (perr : Int → σ → Option σ) (e : Escape) (s : PrintState σ) (ch : BitVec 8) :
    Case → Option (PrintState σ)
  | .char => some { s.next with out := env.putch (s.arg.setWidth 32) s.out }
  | .error => do
    let out ← perr (s.arg.setWidth 32).toInt s.out
    some { s.next with out := out }
  | .string => do
    let out ← (if s.arg = 0 then env.putString (fun _ => textByte "(null)") 0 e s.out
      else env.putString env.read s.arg.toNat e s.out)
    some { s.next with out := out }
  | .decimal => do
    let num := getint s.arg e.lflag
    let (num, out) := if num.toInt < 0 then (-num, env.putch ((ord '-').setWidth 32) s.out) else (num, s.out)
    let out ← env.number num.toNat 10 e out
    some { s.next with out := out }
  | .unsigned => do
    let out ← env.number (getuint s.arg e.lflag) 10 e s.out
    some { s.next with out := out }
  | .octal => do
    let out ← env.number (getuint s.arg e.lflag) 8 e s.out
    some { s.next with out := out }
  | .pointer => do
    let out := env.putch ((ord 'x').setWidth 32) (env.putch ((ord '0').setWidth 32) s.out)
    let out ← env.number s.arg.toNat 16 e out
    some { s.next with out := out }
  | .hex => do
    let out ← env.number (getuint s.arg e.lflag) 16 e s.out
    some { s.next with out := out }
  | .percent => some { s with out := env.putch (ch.setWidth 32) s.out }
  | _ => do
    let out := env.putch ((ord '%').setWidth 32) s.out
    let fmt ← rewind (env.fetch out) (s.fmt - 1)
    some { s with fmt := fmt, out := out }

/-- The code from the label `reswitch` on, up to the end of the escape sequence. -/
def reswitch (perr : Int → σ → Option σ) : Nat → Escape → PrintState σ → Option (PrintState σ)
  | 0, _, _ => none
  | fuel + 1, e, s => do
    let ch ← env.fetch s.out s.fmt
    let s := { s with fmt := s.fmt + 1 }
    match caseOf ch with
    | .minus => reswitch perr fuel { e with padc := ord '-' } s
    | .zero => reswitch perr fuel { e with padc := ord '0' } s
    | .digit => do
      let (precision, fmt) ← scanNumber (env.fetch s.out) s.fmt ch 0 printRounds
      reswitch perr fuel (e.process precision) { s with fmt := fmt }
    | .star => reswitch perr fuel (e.process (s.arg.setWidth 32).toInt) s.next
    | .dot => reswitch perr fuel { e with width := if e.width < 0 then 0 else e.width } s
    | .sharp => reswitch perr fuel { e with altflag := true } s
    | .long => reswitch perr fuel { e with lflag := int32 (e.lflag + 1) } s
    | c => env.convert perr e s ch c

/-- The loop of `vprintfmt`, a character of the format or an escape sequence in each round. -/
def printLoop (perr : Int → σ → Option σ) : Nat → PrintState σ → Option σ
  | 0, _ => none
  | fuel + 1, s => do
    let ch ← env.fetch s.out s.fmt
    if ch ≠ ord '%' then
      if ch = 0 then some s.out
      else printLoop perr fuel { s with fmt := s.fmt + 1, out := env.putch (ch.setWidth 32) s.out }
    else do
      let s ← env.reswitch perr printRounds .start { s with fmt := s.fmt + 1 }
      printLoop perr fuel s

/-- `printfmt` with a literal for the format, which has no `%e` in it, and one argument. -/
def printLiteral (fmt : String) (x : BitVec 64) (out : σ) : Option σ :=
  { env with fetch := fun _ => textByte fmt }.printLoop (fun _ _ => none) printRounds ⟨0, fun _ => x, out⟩

/-- The case for an error code. -/
def printError (err : Int) (out : σ) : Option σ :=
  let err := if err < 0 then int32 (-err) else err
  if err > maxError then env.printLiteral "error %d" (.ofInt 64 err) out
  else if err < 0 then do
    let p ← env.below out
    if p = 0 then env.printLiteral "error %d" (.ofInt 64 err) out else env.printLiteral "%s" (.ofNat 64 p) out
  else
    match errorString[err.toNat]?.join with
    | none => env.printLiteral "error %d" (.ofInt 64 err) out
    | some text => { env with read := fun _ a => textByte text (a - 1) }.printLiteral "%s" 1 out

def vprintfmt (fmt : Nat) (ap : Nat → BitVec 64) (out : σ) : Option σ :=
  env.printLoop env.printError printRounds ⟨fmt, ap, out⟩

end PrintEnv

/-- The characters that are printed, where the format and the strings are read as given. -/
def recorder (fetch read : Nat → Option (BitVec 8)) (below : Option Nat) : PrintEnv (List (BitVec 32)) where
  fetch _ := fetch
  read _ := read
  below _ := below
  putch ch out := out ++ [ch]

end UCore
