import Cadenza.Number.Decimal

/-!
# TOML numbers

Digits with single underscores between them, whole numbers of 64 bits and decimal numbers.
-/

namespace Cadenza.Toml

set_option autoImplicit false

def digit? (base : Nat) (c : Char) : Option Nat :=
  let value :=
    if c.isDigit then c.toNat - '0'.toNat
    else if 'a' ≤ c && c ≤ 'f' then c.toNat - 'a'.toNat + 10
    else if 'A' ≤ c && c ≤ 'F' then c.toNat - 'A'.toNat + 10
    else base
  if value < base then some value else none

def isDigitChar (base : Nat) (c : Char) : Bool :=
  (digit? base c).isSome || c == '_'

def doubledUnderscore : List Char → Bool
  | '_' :: '_' :: _ => true
  | _ :: rest => doubledUnderscore rest
  | [] => false

def wellSpaced (run : List Char) : Bool :=
  run.head? != some '_' && run.getLast? != some '_' && !doubledUnderscore run

/-- Splits off the digits at the start of a word, and drops their underscores. Where no leading
zeros are allowed, a zero stands alone. -/
def digits? (base : Nat) (leadingZeros : Bool) (word : List Char) :
    Option (List Char × List Char) :=
  let run := word.takeWhile (isDigitChar base)
  if run.isEmpty || !wellSpaced run then none
  else if !leadingZeros && run.head? == some '0' && decide (1 < run.length) then none
  else some (run.filter (· != '_'), word.dropWhile (isDigitChar base))

def natural (base : Nat) (digits : List Char) : Nat :=
  digits.foldl (fun n c => n * base + (digit? base c).getD 0) 0

def sign : List Char → Bool × List Char
  | '-' :: rest => (true, rest)
  | word => (false, word)

def signed (negative : Bool) (n : Nat) : Int :=
  if negative then -n else n

def isWord64 (n : Int) : Bool :=
  decide (Int64.minValue.toInt ≤ n) && decide (n ≤ Int64.maxValue.toInt)

def integer? (base : Nat) (word : List Char) : Option Int := do
  let (negative, body) := if base = 10 then sign word else (false, word)
  let (digits, rest) ← digits? base (base != 10) body
  let n := signed negative (natural base digits)
  if rest.isEmpty && isWord64 n then some n else none

/-- The double nearest to a decimal number. One far beyond the doubles is settled by its leading
power alone, which keeps the exact arithmetic small. -/
def nearest (negative : Bool) (d : Decimal) : Float :=
  let top : Int := Decimal.digitCount d.digits + d.power
  let magnitude :=
    if d.digits = 0 ∨ top < -330 then 0.0
    else if 310 < top then 1.0 / 0.0
    else Float.ofScientific d.digits (decide (d.power < 0)) d.power.natAbs
  if negative then -magnitude else magnitude

def decimal? (negative : Bool) (whole fraction : List Char) (exponent : Int) : Option Float :=
  let x := nearest negative
    ⟨natural 10 (whole ++ fraction), exponent - (fraction.length : Int)⟩
  if x.isFinite then some x else none

end Cadenza.Toml
